import LibChan.Chan.Reports
import LibChan.Chan.Shutdown
import LibChan.Chan.Transfer
import LibChan.Chan.Claimed

/-!
# `CHAN_ERR_CLOSED` on receive

A receive reports `CHAN_ERR_CLOSED` after it has found the ring of a closed channel empty under the lock,
or `chan_close` has found it empty for a parked receiver. When no lock-free send is past its test of the
closed flag at the moment the flag is set, nobody produces on a closed channel (`HushInv`), so the ring
stays empty and no later receive gets an element (`QuietRuns.closed_final`). What this needs of the ring is
that a pop on a closed channel fails only if there is nothing in it (`Sys.TellsEmpty`); it holds for
ordinary channels in runs without laps and for SPSC channels with one producer and one consumer.
-/

set_option autoImplicit false

namespace LibChan

variable {T C α : Type}

/-- The places of a lock-free send or burst after its test of the closed flag. -/
def Pc.passed (op : Op α) : Pc α → Bool
  | fastCnt _ _ | fastRing _ _ | fastSpsc _ _ => op.isSend
  | burstRing _ => decide (op.side = .send)
  | _ => false

/-- The channel whose closed flag the next step of the thread sets. -/
def Thread.closing? : Thread C α → Option C
  | .direct _ c _ .closeStore => some c
  | _ => none

/-- The thread is in a lock-free send on the channel and past its test of the closed flag. -/
def Thread.passedOn [DecidableEq C] (c : C) : Thread C α → Bool
  | .direct _ d op pc => decide (d = c) && pc.passed op
  | _ => false

/-- When the closed flag of the channel is set, no send on it is past its test of the flag outside the
lock. -/
def Sys.CloseOk [DecidableEq C] (c : C) (s : Sys T C α) : Label T C α → Prop
  | .go t _ => (s.thread t).closing? = some c → ∀ u, (s.thread u).passedOn c = false
  | .call _ _ => True

instance [Fintype T] [DecidableEq C] (c : C) (s : Sys T C α) : DecidablePred (s.CloseOk c)
  | .go t _ => inferInstanceAs
    (Decidable ((s.thread t).closing? = some c → ∀ u, (s.thread u).passedOn c = false))
  | .call _ _ => .isTrue trivial

/-- The places at which a call puts an element into the channel or hands one over under the lock. -/
def Pc.puts (op : Op α) : Pc α → Bool
  | slowRing _ | recheck _ | backRing _ => op.isSend
  | meetCopy _ => true
  | _ => false

/-- Elements are put into the channel while it is open. -/
def HushInv (c : C) (s : Sys T C α) : Prop :=
  ∀ t id op pc, s.thread t = .direct id c op pc → pc.passed op = true ∨ pc.puts op = true →
    (s.mem.chan c).closed = false

/-- Nobody puts elements into the channel any more once it is closed, and none are handed over. -/
structure Sys.Hushed [DecidableEq C] (K : Config T C) (c : C) (s : Sys T C α) : Prop where
  ring : (s.mem.chan c).closed = true → ∀ t p, (s.thread t).ring? = some (c, p) → p.op.side = .recv
  cached : (s.mem.chan c).closed = true → ∀ t alt p th, s.Acts K t alt c (.spsc p) th → p.op.side = .recv
  meet : (s.mem.chan c).closed = true → ∀ t alt e th, s.Acts K t alt c e th → e.meets = []

section Hush

variable {K : Config T C} {m : Mem T C α} {id : Nat} {c : C} {op : Op α} {alt : Bool}
  {pc pc' : Pc α} {e : Effect α}

theorem Pc.locked_of_puts (h : pc.puts op = true) : pc.locked = true := by
  cases pc with
  | slowRing p | recheck p | backRing p | meetCopy w => rfl
  | _ => cases h

/-- Where the places that put elements are entered from. -/
theorem Pc.puts_of_flow (hflow : Pc.Flow K m id c op alt pc e pc')
    (h : pc'.passed op = true ∨ pc'.puts op = true) :
    (pc.passed op = true ∨ pc.puts op = true) ∨ (m.chan c).closed = false ∨ pc.opens op = true ∨
      pc = .meetClaim ∧ (m.chan c).queue op.side.other ≠ [] := by
  have hnone : ∀ {q : Prop} {pc' : Pc α}, (pc'.passed op = true ∨ pc'.puts op = true) →
      pc'.passed op = false → pc'.puts op = false → q := by
    intro q pc' h h₁ h₂
    rw [h₁, h₂] at h
    rcases h with h | h <;> cases h
  cases hflow with
  | openSpsc hopen hspsc => exact Or.inr (Or.inl hopen)
  | openCnt hopen hspsc => exact Or.inr (Or.inl hopen)
  | cntSend hcnt | cntRecv hcnt | fastIn hp | spscIn hp => exact Or.inl h
  | burstOpen hopen => exact Or.inr (Or.inl hopen)
  | burstIn hp => exact Or.inl h
  | slowBuffered hfree hop hcap => exact hnone h rfl hop
  | slowOpenRing hopen hcap => exact Or.inr (Or.inl hopen)
  | slowIn hp => exact Or.inl h
  | meetClaim hqueue hclaim =>
    refine Or.inr (Or.inr (Or.inr ⟨rfl, ?_⟩))
    rw [hqueue]
    exact List.cons_ne_nil _ _
  | enrollRing hcap => exact Or.inr (Or.inr (Or.inl rfl))
  | recheckIn hp => exact Or.inl h
  | expBackRecv hback hmem hop => exact hnone h rfl hop
  | backOpenSend hopen hop => exact Or.inr (Or.inl hopen)
  | backIn hp => exact Or.inl h
  | serveStopBlock hstop hblock | serveEmptyBlock hqueue hblock | servePutBackBlock hblock
  | meetEmptySend hqueue hop hblock | emptyOpen hopen hblock =>
    cases hblock <;> exact hnone h rfl rfl
  | _ => exact hnone h rfl rfl

/-- A call starts before its test of the closed flag. -/
theorem Pc.not_puts_entry (k : ChanCfg) (id : Nat) (op : Op α) :
    ¬ ((Pc.entry k id op).passed op = true ∨ (Pc.entry k id op).puts op = true) := by
  cases op with
  | send x time =>
    rw [Pc.entry]
    split <;> exact fun h => by rcases h with h | h <;> cases h
  | recv time =>
    rw [Pc.entry]
    split
    · rw [Pc.attempt]
      · split <;> exact fun h => by rcases h with h | h <;> cases h
      · rintro _ _ ⟨⟩
    · exact fun h => by rcases h with h | h <;> cases h
  | sendBurst xs =>
    rw [Pc.entry]
    split <;> exact fun h => by rcases h with h | h <;> cases h
  | recvBurst n =>
    rw [Pc.entry]
    split <;> exact fun h => by rcases h with h | h <;> cases h
  | close => exact fun h => by rcases h with h | h <;> cases h
  | len =>
    rw [Pc.entry]
    split <;> exact fun h => by rcases h with h | h <;> cases h

end Hush

section Step

variable [DecidableEq T] [DecidableEq C] {K : Config T C} {s s' : Sys T C α} {l : Label T C α}
  {t u : T} {alt : Bool} {c : C} {e : Effect α} {th : Thread C α}

omit [DecidableEq T] in
/-- Who sets the closed flag has the lock, so nobody else is at a place of it. -/
theorem Sound.not_locked_of_setClosed (hs : Sound K s) (hacts : s.Acts K t alt c .setClosed th)
    (hu : u ≠ t) {id : Nat} {op : Op α} {pc : Pc α} (hth : s.thread u = .direct id c op pc) :
    pc.locked = false := by
  refine Bool.eq_false_iff.2 fun hpc => hu ?_
  exact hs.locks.holds_inj (Sys.held_of_locked hth hpc) hacts.holds_of_setClosed

theorem HushInv.step (h : HushInv c s) (hv : DirectValid K s) (hdrain : DrainInv s)
    (hok : s.CloseOk c l) (hstep : s.Stepped K l s') : HushInv c s' := by
  intro u id op pc hth hpc
  cases hstep with
  | @call t k hidle =>
    by_cases hu : u = t
    · subst hu
      rw [Sys.thread_startCall_self] at hth
      cases k with
      | select cases timeout => cases hth
      | direct d op' =>
        cases hth
        exact absurd hpc (Pc.not_puts_entry _ _ _)
    · rw [Sys.thread_startCall_of_ne hu] at hth
      exact h u id op pc hth hpc
  | @ret t alt id' r out hdone hret =>
    by_cases hu : u = t
    · subst hu
      rw [Sys.thread_finishCall_self] at hth
      cases hth
    · rw [Sys.thread_finishCall_of_ne hu] at hth
      exact h u id op pc hth hpc
  | @move t alt d e th hnext hacts =>
    obtain ⟨id', op', q, q', hq, rfl, hflow⟩ := hv.direct.flow hacts
    refine Bool.eq_false_iff.2 fun hclosed => ?_
    by_cases hu : u = t
    · subst hu
      rw [Sys.thread_move_self] at hth
      cases hth
      have hopen : (s.mem.chan c).closed = false := by
        rcases Pc.puts_of_flow hflow hpc with hold | hopen | hopens | ⟨rfl, hqueue⟩
        · exact h u _ _ _ hq hold
        · exact hopen
        · have hknows := hv.shut.running u
          rw [hq] at hknows
          exact hknows.2.1 hopens
        · exact hdrain.open_of_queue hv.toValid hq rfl rfl hqueue
      rcases Sys.closed_move.1 hclosed with hold | ⟨-, rfl⟩
      · cases hopen.symm.trans hold
      · cases hflow
        rcases hpc with hpc | hpc <;> cases hpc
    · rw [Sys.thread_move_of_ne hu] at hth
      rcases Sys.closed_move.1 hclosed with hold | ⟨rfl, rfl⟩
      · cases (h u id op pc hth hpc).symm.trans hold
      · -- the flag is set: lock-free sends are excluded by assumption, the others by the lock
        cases hflow
        rcases hpc with hpc | hpc
        · have hnot : (s.thread u).passedOn c = false := hok (by rw [hq]; rfl) u
          rw [hth, Thread.passedOn, hpc, Bool.and_true, decide_eq_false_iff_not] at hnot
          exact hnot rfl
        · cases (Pc.locked_of_puts hpc).symm.trans (hv.not_locked_of_setClosed hacts hu hth)

omit [DecidableEq T] in
/-- On a closed channel the ring operations in progress take elements out. -/
theorem HushInv.side_of_ring (h : HushInv c s) (hv : DirectValid K s) (hdrain : DrainInv s)
    (hclosed : (s.mem.chan c).closed = true) {p : RingPc Wid α}
    (hring : (s.thread t).ring? = some (c, p)) : p.op.side = .recv := by
  have hdirect := hv.direct t
  cases hth : s.thread t with
  | idle =>
    rw [hth] at hring
    cases hring
  | select id cases timeout pc =>
    rw [hth] at hdirect
    cases hdirect
  | direct id d op pc =>
    rw [hth] at hring
    obtain ⟨q, hq, heq⟩ := Option.map_eq_some_iff.1 hring
    cases heq
    have hok := hv.direct_ok hth
    have hopen : ¬ (pc.passed op = true ∨ pc.puts op = true) := fun hputs => by
      cases (h t id op pc hth hputs).symm.trans hclosed
    -- an operation of its own is not a send
    have hown : op.single = true → (op.isSend = true → pc.passed op = true ∨ pc.puts op = true) →
        p.Runs (op.ringOp id) → p.op.side = .recv := by
      intro hsingle hsend hruns
      rw [hruns.1]
      cases op with
      | send x time => exact absurd (hsend rfl) hopen
      | recv time => rfl
      | _ => cases hsingle
    have hserving : pc.serving = true → p.op.side = .recv := fun hpc => by
      cases (hdrain.serving t id c op pc hth hpc).symm.trans hclosed
    cases pc with
    | fastRing spin q =>
      cases hq
      exact hown hok.1 Or.inl hok.2.2.2
    | slowRing q =>
      cases hq
      exact hown hok.1 Or.inr hok.2.2
    | recheck q =>
      cases hq
      exact hown hok.1 Or.inr hok.2.2
    | burstRing q =>
      cases hq
      obtain ⟨hburst, -, hruns⟩ := hok
      rw [hruns.1]
      cases op with
      | sendBurst xs => exact absurd (Or.inl rfl) hopen
      | recvBurst n => rfl
      | _ => cases hburst
    | backRing q =>
      cases hq
      exact hown hok.1 Or.inr hok.2.2
    | serve k st =>
      cases st with
      | ring w q => exact hserving rfl
      | _ => cases hq
    | helpRing w q => exact hserving rfl
    | closeRing w q =>
      cases hq
      have hserves := hok.2.2.1
      generalize p.op = rop at hserves
      cases rop with
      | pop v => rfl
      | push v x => cases hserves.1
      | _ => exact hserves.elim
    | _ => cases hq

omit [DecidableEq T] in
theorem HushInv.hushed (h : HushInv c s) (hv : DirectValid K s) (hdrain : DrainInv s) :
    s.Hushed K c where
  ring hclosed _ _ hring := h.side_of_ring hv hdrain hclosed hring
  cached hclosed t alt p th hacts := by
    obtain ⟨id, op, pc, pc', hth, -, hflow⟩ := hv.direct.flow hacts
    obtain ⟨spin, rfl⟩ : ∃ spin, pc = .fastSpsc spin p := by
      cases hflow <;> exact ⟨_, rfl⟩
    have hok := hv.direct_ok hth
    rw [hok.2.2.2]
    cases op with
    | send x time => cases (h t id _ _ hth (Or.inl rfl)).symm.trans hclosed
    | recv time => rfl
    | _ => cases hok.1
  meet hclosed t alt e th hacts := by
    cases e with
    | pair a b w x =>
      obtain ⟨id, op, pc, pc', hth, -, hflow⟩ := hv.direct.flow hacts
      have hopen : (s.mem.chan c).closed = false := by
        cases hflow with
        | meetSend hop => exact h t id _ _ hth (Or.inr rfl)
        | meetRecv hop hdata => exact h t id _ _ hth (Or.inr rfl)
      cases hopen.symm.trans hclosed
    | _ => rfl

omit [DecidableEq T] in
/-- A step on a closed channel puts nothing into its ring. -/
theorem Sys.Hushed.quiet (h : s.Hushed K c) (hok : (s.thread t).Ok K)
    (hclosed : (s.mem.chan c).closed = true) (hacts : s.Acts K t alt c e th) :
    (s.mem.chan c).pushes e = [] := by
  cases e with
  | ring weak p =>
    have hring := hacts.ring_of_effect hok
    refine List.eq_nil_iff_forall_not_mem.2 fun y hy => ?_
    have hmem := RingPc.mem_data_of_pushes hy
    rw [RingOp.data_eq_nil (h.ring hclosed t p hring)] at hmem
    cases hmem
  | spsc p =>
    refine List.eq_nil_iff_forall_not_mem.2 fun y hy => ?_
    have hmem := SpscPc.mem_data_of_pushes hy
    rw [RingOp.data_eq_nil (h.cached hclosed t alt p th hacts)] at hmem
    cases hmem
  | _ => rfl

end Step

/-! ## The ring of a closed channel -/

/-- Every element put into the ring has been reserved by a receiver. -/
def Chan.Emptied (ch : Chan T α) : Prop := ch.hist.reserved .send = ch.hist.reserved .recv

/-- A receive of one element. -/
def Op.isRecv : Op α → Bool
  | recv _ => true
  | _ => false

/-- `CHAN_ERR_CLOSED` of a receive. -/
def Ret.final (op : Op α) : Ret → Bool
  | .err .closed => op.isRecv
  | _ => false

theorem Ret.eq_of_final {op : Op α} {r : Ret} (h : r.final op = true) :
    r = .err .closed ∧ op.isRecv = true := by
  cases r with
  | err e =>
    cases e with
    | closed => exact ⟨rfl, h⟩
    | _ => cases h
  | _ => cases h

/-- The places of a receive that has found the ring empty under the lock, and of `chan_close` when it
has found it empty for a parked receiver. -/
def Pc.final (op : Op α) : Pc α → Bool
  | meetClaim | emptyClosed | backClosed | backSettle .closed => op.isRecv
  | unlockRet r | ret r => r.final op
  | closeSettle .recv _ .closed => true
  | _ => false

/-- What a direct call on the channel knows about the ring when the channel is closed. -/
def Thread.Final (c : C) (s : Sys T C α) : Thread C α → Prop
  | .direct id d op pc => d = c → (s.mem.chan c).closed = true →
      (pc.final op = true → (s.mem.chan c).Emptied) ∧
      (op.isRecv = true → (s.mem.waiter ⟨id, 0⟩).result = .closed → (s.mem.chan c).Emptied)
  | _ => True

/-- The ring is empty after a receive has returned `CHAN_ERR_CLOSED`. -/
def Call.Final (c : C) (s : Sys T C α) (_ : Nat) (k : Call C α) (r : Ret) : Prop :=
  match k with
  | .direct d op => d = c → op.isRecv = true → r = .err .closed → (s.mem.chan c).Emptied
  | .select _ _ => True

/-- What the receives on the channel know about the ring when the channel is closed. -/
abbrev FinalInv (c : C) (s : Sys T C α) : Prop := Sys.Each (Thread.Final c) (Call.Final c) s

section Places

variable {K : Config T C} {m : Mem T C α} {id i : Nat} {c : C} {op : Op α} {alt : Bool}
  {pc pc' : Pc α} {e : Effect α}

/-- A receive at such a place has the lock or has seen the channel closed. -/
theorem Pc.locked_or_shut_of_final (h : pc.final op = true) : pc.locked = true ∨ pc.shut op = true := by
  cases pc with
  | meetClaim | emptyClosed | backClosed => exact Or.inl rfl
  | backSettle r => exact Or.inl rfl
  | closeSettle o w r => exact Or.inl rfl
  | unlockRet r =>
    obtain ⟨rfl, -⟩ := Ret.eq_of_final h
    exact Or.inr rfl
  | ret r =>
    obtain ⟨rfl, -⟩ := Ret.eq_of_final h
    exact Or.inr rfl
  | _ => cases h

/-- Who settles a waiter with `CHAN_ERR_CLOSED`: its own call, or `chan_close`. -/
theorem Pc.settles_closed (hflow : Pc.Flow K m id c op alt pc e pc') {w : Wid} {r : ChanErr}
    (h : e.resultAfter w r = .closed) : r = .closed ∨ (w = ⟨id, 0⟩ ∧ pc = .backSettle .closed) ∨
      ∃ o, pc = .closeSettle o w .closed := by
  have hok : ∀ {v : Wid}, (if w = v then .ok else r) = ChanErr.closed → r = .closed := by
    intro v hv
    split at hv
    · cases hv
    · exact hv
  cases hflow with
  | enrollMeet hzero | enrollRing hpos | serveSettle | meetSend hsend | meetRecv hrecv hdata
  | helpSettle => exact Or.inl (hok h)
  | backSettle =>
    rw [Effect.resultAfter] at h
    split at h
    · next hw =>
      subst h
      exact Or.inr (Or.inl ⟨hw, rfl⟩)
    · exact Or.inl h
  | closeSettle =>
    rw [Effect.resultAfter] at h
    split at h
    · next hw =>
      subst hw h
      exact Or.inr (Or.inr ⟨_, rfl⟩)
    · exact Or.inl h
  | _ => exact Or.inl h

end Places

section Final

variable [DecidableEq T] [DecidableEq C] {K : Config T C} {s s' : Sys T C α} {l : Label T C α}
  {t u : T} {alt : Bool} {c d : C} {e : Effect α} {th : Thread C α}

omit [DecidableEq T] [DecidableEq C] in
theorem RingPc.side_of_run {p : RingPc Wid α} {o : ChanOp} {k : Nat} (h : p.run = some (o, k)) :
    p.op.side = o := by
  cases p with
  | copy op a n i acc | wait op a n acc | store op a n acc =>
    exact congrArg Prod.fst (Option.some.inj h)
  | _ => cases h

/-- If the next step is the end of a pop from the closed channel that fails, there is nothing in the
ring. -/
def Sys.TellsEmpty (K : Config T C) (c : C) (s : Sys T C α) (l : Label T C α) : Prop :=
  ∀ t alt p res, l = .go t alt → (s.mem.chan c).closed = true → (s.thread t).ring? = some (c, p) →
    s.mem.access K c alt p = .inr res → res.moved = 0 → (s.mem.chan c).Emptied

omit [DecidableEq T] in
/-- On an ordinary channel, without laps: nobody is about to commit. -/
theorem Sys.Hushed.tellsEmpty (h : s.Hushed K c) (hshared : SharedInv K s)
    (hspsc : (K.chan c).spsc = false) (htime : s.Timely l) : s.TellsEmpty K c l := by
  rintro t alt p res rfl hclosed hring hp hres
  have hinv := hshared c hspsc
  have hcommitted := hinv.empty_of_moved (Thread.ringOn_eq_some.2 hring) (h.ring hclosed t p hring)
    (htime _ hring) hp hres
  have hle := hinv.ordered.prod_le
  rcases Nat.lt_or_eq_of_le hle with hlt | heq
  · -- whoever has reserved and not committed is in a send
    obtain ⟨u, q, k, hq, hrun, -⟩ := hinv.covers .send _ (Nat.le_refl _) hlt
    have hside := h.ring hclosed u q (Thread.ringOn_eq_some.1 hq)
    cases hside.symm.trans (RingPc.side_of_run hrun)
  · exact heq.symm.trans hcommitted

/-- The ring of a closed channel stays empty. -/
theorem Chan.Emptied.move (h : (s.mem.chan d).Emptied) (hhush : s.Hushed K d) (hok : (s.thread t).Ok K)
    (hle : ((s.move K t c e th).mem.chan d).hist.takers.length ≤
      ((s.move K t c e th).mem.chan d).hist.log.length)
    (hclosed : (s.mem.chan d).closed = true) (hacts : s.Acts K t alt c e th) :
    ((s.move K t c e th).mem.chan d).Emptied ∧
      ((s.move K t c e th).mem.chan d).hist.takers = (s.mem.chan d).hist.takers ∧
      ((s.move K t c e th).mem.chan d).recvd = (s.mem.chan d).recvd := by
  have hmove : (s.move K t c e th).mem = s.mem.apply K t c e := rfl
  rw [hmove] at hle ⊢
  by_cases hdc : d = c
  · subst hdc
    have hpushes := hhush.quiet hok hclosed hacts
    have hmeets := hhush.meet hclosed t alt e th hacts
    rw [Mem.chan_apply_self, Chan.takers_apply, Chan.log_apply, hpushes, List.append_nil,
      List.length_append] at hle
    have hlen : (s.mem.chan d).hist.log.length = (s.mem.chan d).hist.takers.length := h
    have hpops : (s.mem.chan d).pops e = [] := List.length_eq_zero_iff.1 (by omega)
    rw [Mem.chan_apply_self, Chan.Emptied, Chan.takers_apply, Chan.recvd_apply, Chan.recvs, hmeets, hpops]
    refine ⟨?_, List.append_nil _, List.append_nil _⟩
    show ((s.mem.chan d).apply _ t e).hist.log.length = ((s.mem.chan d).apply _ t e).hist.takers.length
    rw [Chan.log_apply, Chan.takers_apply, hpushes, hpops, List.append_nil, List.append_nil]
    exact h
  · rw [Mem.chan_apply_of_ne K s.mem t c e hdc]
    exact ⟨h, rfl, rfl⟩

/-- What holds in every run without selects in which nobody puts elements into the closed channel. -/
structure QuietValid (K : Config T C) (c : C) (s : Sys T C α) : Prop extends DirectValid K s where
  hushed : s.Hushed K c
  takers_le : (s.mem.chan c).hist.takers.length ≤ (s.mem.chan c).hist.log.length

/-- The ring of a closed channel stays empty, in every step. -/
theorem QuietValid.emptied_step (h : QuietValid K c s) (h' : QuietValid K c s')
    (hstep : s.Stepped K l s') (hclosed : (s.mem.chan c).closed = true)
    (hempty : (s.mem.chan c).Emptied) :
    (s'.mem.chan c).Emptied ∧ (s'.mem.chan c).hist.takers = (s.mem.chan c).hist.takers ∧
      (s'.mem.chan c).recvd = (s.mem.chan c).recvd := by
  cases hstep with
  | call hidle => exact ⟨hempty, rfl, rfl⟩
  | ret hdone hret => exact ⟨hempty, rfl, rfl⟩
  | @move t alt d e th hnext hacts =>
    exact hempty.move h.hushed (h.ok t) h'.takers_le hclosed hacts

/-- A step of a call keeps what it knows about the ring. -/
theorem QuietValid.final_own (h : QuietValid K c s) (hcap : 0 < (K.chan c).capacity)
    {id : Nat} {op : Op α} {pc pc' : Pc α}
    (hP : (Thread.direct id d op pc).Final c s) (hth : s.thread t = .direct id d op pc)
    (htells : s.TellsEmpty K c (.go t alt)) (hflow : Pc.Flow K s.mem id d op alt pc e pc')
    (hnext : (s.thread t).Next K s.mem d (.direct id d op pc') e)
    (hacts : s.Acts K t alt d e (.direct id d op pc'))
    (h' : QuietValid K c (s.move K t d e (.direct id d op pc'))) :
    (Thread.direct id d op pc').Final c (s.move K t d e (.direct id d op pc')) := by
  rintro rfl hclosed'
  have hok := h.direct_ok hth
  rcases Sys.closed_move.1 hclosed' with hclosed | ⟨-, rfl⟩
  · obtain ⟨hfinal, hresult⟩ := hP rfl hclosed
    have hkeep : (s.mem.chan d).Emptied →
        ((s.move K t d e (.direct id d op pc')).mem.chan d).Emptied := fun hempty =>
      (h.emptied_step h' (.move hnext hacts) hclosed hempty).1
    have hmiss : ∀ {p : RingPc Wid α} {res : RingRes α}, pc.ring? = some p →
        s.mem.access K d alt p = .inr res → res.moved = 0 →
        ((s.move K t d e (.direct id d op pc')).mem.chan d).Emptied := by
      intro p res hp hacc hres
      have hring : (s.thread t).ring? = some (d, p) := by
        rw [hth, Thread.ring?, hp]
        rfl
      exact hkeep (htells t alt p res rfl hclosed hring hacc hres)
    have hmoved : ∀ {r : Ret} {P : Prop}, op.Moved r → r.final op = true → P := by
      intro r P hr hfin
      obtain ⟨rfl, hop⟩ := Ret.eq_of_final hfin
      cases op with
      | recv time => cases hr
      | _ => cases hop
    refine ⟨fun hpc' => ?_, fun hop hres => hkeep ?_⟩
    · cases hflow with
      | slowRecvMiss hp hres hop | closeMiss hp hres | backMissRecv hp hres hop =>
        exact hmiss rfl hp hres
      | backShut hshut => exact hkeep (hfinal hpc')
      | expBackSend hback hmem hop =>
        cases op with
        | recv time => cases hop
        | _ => cases hpc'
      | slowMeet hfree hop hzero => omega
      | slowOpenMeet hopen hzero => omega
      | closeClaimMeet hqueue hclaim hzero => omega
      | meetEmptyRecv hqueue hop | meetDrop hqueue hclaim | emptyShut hshut | unlockRet =>
        exact hkeep (hfinal hpc')
      | slowShut hshut =>
        cases op with
        | recv time => cases hok
        | _ => cases hpc'
      | closeAgain hshut =>
        cases op with
        | recv time => cases hok
        | _ => cases hpc'
      | @decr r =>
        obtain ⟨hclo, hop⟩ := Ret.eq_of_final hpc'
        refine hkeep (hresult hop ?_)
        rcases hok.2 with rfl | rfl
        · exact Ret.err.inj hclo
        · cases hclo
      | afterRet hcnt => exact hmoved hok.2 hpc'
      | serveStop hstop | serveEmpty hqueue | servePutBack => exact hmoved hok.2.1 hpc'
      | serveStopBlock hstop hblock | serveEmptyBlock hqueue hblock | servePutBackBlock hblock
      | meetEmptySend hqueue hop hblock | emptyOpen hopen hblock => cases hblock <;> cases hpc'
      | _ => cases hpc'
    · rw [Sys.result_move] at hres
      rcases Pc.settles_closed hflow hres with hres | ⟨-, rfl⟩ | ⟨o, rfl⟩
      · exact hresult hop hres
      · exact hfinal hop
      · obtain rfl : op = .close := hok.1
        cases hop
  · cases hflow
    have hclose : op = .close := hok
    subst hclose
    exact ⟨by rintro ⟨⟩, by rintro ⟨⟩⟩

/-- A step of another thread keeps what a call knows about the ring. -/
theorem QuietValid.final_other (h : QuietValid K c s) {id : Nat}
    {op : Op α} {pc : Pc α} {b : C} (hP : (Thread.direct id b op pc).Final c s)
    (hth : s.thread u = .direct id b op pc) (hu : u ≠ t) (ht : (s.thread t).Final c s)
    (hnext : (s.thread t).Next K s.mem d th e) (hacts : s.Acts K t alt d e th)
    (h' : QuietValid K c (s.move K t d e th)) :
    (Thread.direct id b op pc).Final c (s.move K t d e th) := by
  rintro rfl hclosed'
  have hknows := h.shut.running u
  rw [hth] at hknows
  by_cases hclosed : (s.mem.chan b).closed = true
  · obtain ⟨hfinal, hresult⟩ := hP rfl hclosed
    have hkeep : (s.mem.chan b).Emptied → ((s.move K t d e th).mem.chan b).Emptied := fun hempty =>
      (h.emptied_step h' (.move hnext hacts) hclosed hempty).1
    refine ⟨fun hpc => hkeep (hfinal hpc), fun hop hres => hkeep ?_⟩
    by_contra hnot
    obtain ⟨id', op', q, q', hq, rfl, hflow⟩ := h.direct.flow hacts
    rw [Sys.result_move] at hres
    rcases Pc.settles_closed hflow hres with hres | ⟨hw, -⟩ | ⟨o, rfl⟩
    · exact hnot (hresult hop hres)
    · cases hw
      exact hu (h.calls.id_inj u t id (by rw [hth]; rfl) (by rw [hq]; rfl))
    · -- the waiter of a receive is settled by `chan_close`, which has found the ring empty
      have how : s.Owned d o ⟨id, 0⟩ := (h.queues.claimed t _ d o (by rw [hq]; rfl)).1
      obtain ⟨rfl, rfl, -⟩ := h.waits_of_direct hth how
      rw [hq] at ht
      refine hnot ((ht rfl hclosed).1 ?_)
      cases op with
      | recv time => rfl
      | _ => cases hop
  · obtain ⟨rfl, rfl⟩ := (Sys.closed_move.1 hclosed').resolve_left hclosed
    -- the flag is being set: the call holds no lock and has seen nothing closed
    refine ⟨fun hpc => ?_, fun hop hres => absurd (hknows.2.2 ?_) hclosed⟩
    · rcases Pc.locked_or_shut_of_final hpc with hlocked | hshut
      · cases hlocked.symm.trans (h.not_locked_of_setClosed hacts hu hth)
      · exact absurd (hknows.1 hshut) hclosed
    · rwa [Sys.result_move] at hres

theorem FinalInv.step (h : FinalInv c s) (hv : QuietValid K c s) (hv' : QuietValid K c s')
    (hcap : 0 < (K.chan c).capacity) (htells : s.TellsEmpty K c l) (hstep : s.Stepped K l s') :
    FinalInv c s' := by
  refine Sys.Each.step h hv.hist hstep trivial ?_ ?_ ?_ ?_ ?_
  · rintro t k - rfl
    cases k with
    | select cases timeout => trivial
    | direct d op =>
      have hbegins := Pc.begins_entry (K.chan d) s.next op
      have hres : ((s.startCall K t (.direct d op)).mem.waiter ⟨s.next, 0⟩).result = .ok := by
        simp only [Sys.startCall, if_true]
        cases op <;> rfl
      simp only [Sys.startThread]
      revert hbegins
      generalize Pc.entry (K.chan d) s.next op = pc
      rintro hbegins - -
      refine ⟨fun h => ?_, fun _ h => by cases hres.symm.trans h⟩
      cases hbegins <;> cases h
  · rintro t alt d e th rfl hnext hacts rfl hP
    obtain ⟨id, op, pc, pc', hth, rfl, hflow⟩ := hv.direct.flow hacts
    rw [hth] at hP
    exact hv.final_own hcap hP hth htells hflow hnext hacts hv'
  · intro u hu hP
    cases hth : s.thread u with
    | idle => trivial
    | select id cases timeout pc => trivial
    | direct id d op pc =>
      rw [hth] at hP
      cases hstep with
      | call hidle =>
        have hne : id ≠ s.next := Nat.ne_of_lt (hv.calls.id_lt u id (by rw [hth]; rfl))
        intro hd hclosed
        obtain ⟨hfinal, hresult⟩ := hP hd hclosed
        refine ⟨hfinal, fun hop hres => hresult hop ?_⟩
        simpa only [Sys.startCall, if_neg hne] using hres
      | ret hdone hret => exact hP
      | @move t alt c e th hnext hacts =>
        exact hv.final_other hP hth hu (h.running t) hnext hacts hv'
  · rintro t id k r out hret hcall rfl hP
    cases hret with
    | select hth =>
      rw [hth] at hcall
      cases hcall
      trivial
    | direct hth =>
      have hknows := hv.shut.running t
      rw [hth] at hcall hP hknows
      cases hcall
      rintro rfl hop rfl
      exact (hP rfl (hknows.1 rfl)).1 hop
  · intro id k r out hans hR
    cases k with
    | select cases timeout => trivial
    | direct d op =>
      rintro rfl hop rfl
      have hclosed := hv.shut.returned id _ _ out hans rfl
      exact (hv.emptied_step hv' hstep hclosed (hR rfl hop rfl)).1

/-- What holds from the moment on at which a receive has returned `CHAN_ERR_CLOSED`: the ring is empty,
and nobody takes anything from the channel any more. -/
structure Sys.Over (s₁ : Sys T C α) (c : C) (s : Sys T C α) : Prop where
  closed : (s.mem.chan c).closed = true
  emptied : (s.mem.chan c).Emptied
  takers : (s.mem.chan c).hist.takers = (s₁.mem.chan c).hist.takers
  recvd : (s.mem.chan c).recvd = (s₁.mem.chan c).recvd

theorem Sys.Over.step {s₁ : Sys T C α} (h : s₁.Over c s) (hv : QuietValid K c s)
    (hv' : QuietValid K c s') (hstep : s.Stepped K l s') : s₁.Over c s' := by
  obtain ⟨hempty, htakers, hrecvd⟩ := hv.emptied_step hv' hstep h.closed h.emptied
  exact ⟨hstep.closed_mono h.closed, hempty, htakers.trans h.takers, hrecvd.trans h.recvd⟩

omit [DecidableEq T] in
/-- Calls that start after that moment take nothing. -/
theorem Sys.Over.not_took {s₁ : Sys T C α} (h : s₁.Over c s) (hv₁ : Valid K s₁) (hv : Valid K s)
    {id i : Nat} (hid : s₁.next ≤ id) (hacc : s.Accepting c ⟨id, i⟩) : ¬ s.mem.Took ⟨id, i⟩ := by
  have hnot : ¬ (⟨id, i⟩ ∈ (s.mem.chan c).hist.takers ∨ ⟨id, i⟩ ∈ (s.mem.chan c).recvd.map Prod.fst) := by
    rw [h.takers, h.recvd]
    intro hmem
    obtain ⟨t, k, hcall, -⟩ := hv₁.ledger.taken c ⟨id, i⟩ hmem
    exact absurd (hv₁.hist.call_lt id t k hcall) (Nat.not_lt.2 hid)
  rintro ⟨d, hsent | htaken⟩
  · obtain ⟨⟨w, x⟩, hmem, rfl⟩ := List.mem_map.1 hsent
    exact Sys.Offered.not_accepting hv.hist (hv.ledger.sent d _ x hmem) hacc
  · obtain rfl := Sys.Accepting.chan_eq hv.hist (hv.ledger.taken d _ htaken) hacc
    exact hnot htaken

omit [DecidableEq T] in
/-- What the receives that start after that moment return. -/
theorem Sys.Over.answers {s₁ : Sys T C α} (h : s₁.Over c s) (hv₁ : Valid K s₁) (hv : DirectValid K s)
    (hburst : BurstInv s) {id : Nat} (hid : s₁.next ≤ id) :
    (∀ time r out, s.Answered id (.direct c (.recv time)) r out → r ≠ .err .ok) ∧
      (∀ n r out, s.Answered id (.direct c (.recvBurst n)) r out → r = .count 0) ∧
      ∀ i x, (⟨id, i⟩, x) ∉ (s.mem.chan c).recvd := by
  refine ⟨?_, ?_, ?_⟩
  · rintro time r out hans rfl
    have htook := hv.must.calls.returned id _ _ out hans ⟨id, 0⟩ (List.mem_singleton_self _)
    obtain ⟨t, hcall, -⟩ := hans
    exact h.not_took hv₁ hv.toValid hid ⟨t, _, hcall, rfl, rfl⟩ htook
  · intro n r out hans
    obtain ⟨k, rfl⟩ := hv.reports.fits id _ r out hans
    have hle : k ≤ (Op.recvBurst n : Op α).room := hburst.returned id _ _ out hans rfl k rfl
    by_contra hk
    have hpos : 0 < k := Nat.pos_of_ne_zero fun hz => hk (by rw [hz])
    -- the first of its elements would have been moved
    have htook := hv.must.calls.returned id _ _ out hans ⟨id, 0⟩
      ((Op.mem_gotOf_burst rfl).2 ⟨hpos, hpos.trans_le hle⟩)
    have hn : 0 < n := lt_of_lt_of_le (hpos.trans_le hle) (Nat.min_le_left _ _)
    obtain ⟨t, hcall, -⟩ := hans
    exact h.not_took hv₁ hv.toValid hid ⟨t, _, hcall, rfl, decide_eq_true hn⟩ htook
  · intro i x hmem
    have htaken : (⟨id, i⟩ : Wid) ∈ (s.mem.chan c).recvd.map Prod.fst := List.mem_map_of_mem hmem
    exact h.not_took hv₁ hv.toValid hid (hv.ledger.taken c _ (Or.inr htaken))
      ⟨c, Or.inr (Or.inr htaken)⟩

/-- Runs under `ok` with invariant `P` leave the closed channel alone and look into it reliably. -/
structure QuietRuns (K : Config T C) (c : C) (ok : Sys T C α → Label T C α → Prop)
    (P : Sys T C α → Prop) : Prop where
  quiet : ∀ s, P s → QuietValid K c s
  step : ∀ s l s', P s → ok s l → s.Stepped K l s' → P s'
  tells : ∀ s l, P s → ok s l → s.TellsEmpty K c l

/-- In such runs, once a receive from a buffered channel has returned `CHAN_ERR_CLOSED`, the ring is empty
and stays so, and no receive or burst receive that starts later obtains an element. -/
theorem QuietRuns.closed_final {ok : Sys T C α → Label T C α → Prop} {P : Sys T C α → Prop}
    (h : QuietRuns K c ok P) {slots : C → U32 → α} {s₁ : Sys T C α} (h₀ : P (Sys.init slots))
    (hrun₁ : Reaches (Sys.step K) ok (Sys.init slots) s₁) (hrun : Reaches (Sys.step K) ok s₁ s)
    (hcap : 0 < (K.chan c).capacity) {id₀ : Nat} {time₀ : Int} {out₀ : List (Option α)}
    (hclosed : s₁.Answered id₀ (.direct c (.recv time₀)) (.err .closed) out₀) :
    (∀ id, s₁.next ≤ id →
      (∀ time r out, s.Answered id (.direct c (.recv time)) r out → r ≠ .err .ok) ∧
      (∀ n r out, s.Answered id (.direct c (.recvBurst n)) r out → r = .count 0) ∧
      ∀ i x, (⟨id, i⟩, x) ∉ (s.mem.chan c).recvd) ∧
    (s.mem.chan c).Emptied := by
  -- up to the return of the first receive
  obtain ⟨hv₁, hfinal, hburst₁⟩ : P s₁ ∧ FinalInv c s₁ ∧ BurstInv s₁ := by
    apply hrun₁.invariant (P := fun s => P s ∧ FinalInv c s ∧ BurstInv s)
    · exact ⟨h₀, Sys.Each.init slots trivial, Sys.Each.init slots trivial⟩
    · rintro s l s' ⟨hv, hfinal, hburst⟩ hok hstep
      have hquiet := h.quiet s hv
      have hstep := Sys.step_cases hquiet.locks.wf hstep
      have hv' := h.step s l s' hv hok hstep
      exact ⟨hv', hfinal.step hquiet (h.quiet s' hv') hcap (h.tells s l hv hok) hstep,
        hburst.step hquiet.toSound hstep⟩
  have hover₁ : s₁.Over c s₁ :=
    ⟨(h.quiet s₁ hv₁).shut.returned id₀ _ _ out₀ hclosed rfl,
      hfinal.returned id₀ _ _ out₀ hclosed rfl rfl rfl, rfl, rfl⟩
  -- and from there on
  obtain ⟨hv, hburst, hover⟩ : P s ∧ BurstInv s ∧ s₁.Over c s := by
    apply hrun.invariant (P := fun s => P s ∧ BurstInv s ∧ s₁.Over c s) ⟨hv₁, hburst₁, hover₁⟩
    rintro s l s' ⟨hv, hburst, hover⟩ hok hstep
    have hquiet := h.quiet s hv
    have hstep := Sys.step_cases hquiet.locks.wf hstep
    have hv' := h.step s l s' hv hok hstep
    exact ⟨hv', hburst.step hquiet.toSound hstep, hover.step hquiet (h.quiet s' hv') hstep⟩
  exact ⟨fun id hid => hover.answers (h.quiet s₁ hv₁).toValid (h.quiet s hv).toDirectValid hburst hid,
    hover.emptied⟩

/-- What holds in every run without selects and laps in which the closed flag of the channel is set in
time. -/
structure HushValid (K : Config T C) (c : C) (s : Sys T C α) : Prop extends DirectValid K s where
  drain : DrainInv s
  hush : HushInv c s
  shared : SharedInv K s

omit [DecidableEq T] in
theorem HushValid.init (slots : C → U32 → α) : HushValid K c (Sys.init slots : Sys T C α) where
  toDirectValid := .init slots
  drain := .init slots
  hush _ _ _ _ h := by cases h
  shared := .init slots

theorem HushValid.step (h : HushValid K c s) (hl : l.direct = true) (htime : s.Timely l)
    (hok : s.CloseOk c l) (hstep : s.Stepped K l s') : HushValid K c s' where
  toDirectValid := h.toDirectValid.step hl hstep
  drain := h.drain.step h.toValid (h.direct.when rfl (fun _ _ _ _ => rfl) l) hstep
  hush := h.hush.step h.toDirectValid h.drain hok hstep
  shared := h.shared.step h.toSound (htime.shared K) hstep

/-- An ordinary channel in runs without selects and laps in which the closed flag is set in time. -/
theorem HushValid.quietRuns (hspsc : (K.chan c).spsc = false) : QuietRuns K c
    (fun s l => s.CloseOk c l ∧ l.direct = true ∧ s.Timely l) (HushValid K c : Sys T C α → Prop) where
  quiet _ h := ⟨h.toDirectValid, h.hush.hushed h.toDirectValid h.drain, h.shared.takers_le hspsc⟩
  step _ _ _ h hok hstep := h.step hok.2.1 hok.2.2 hok.1 hstep
  tells _ _ h hok := (h.hush.hushed h.toDirectValid h.drain).tellsEmpty h.shared hspsc hok.2.2

end Final

end LibChan
