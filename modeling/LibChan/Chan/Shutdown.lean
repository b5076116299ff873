import LibChan.Chan.Ledger
import LibChan.Chan.Wakes

/-!
# After a channel is closed

`chan_close` empties both wait queues under the lock, and afterwards nobody should enter them again. The
direct calls look at the flag under the lock before they register or put a waiter back. A select does
not: a send case on a closed channel that is not ready gets a stub and the select parks on it. In the
runs where no select registers on a closed channel, the queues of a closed channel are empty whenever
its lock is free (`DrainInv`), and a call that starts after the close puts nothing into it (`LateInv`).
-/

set_option autoImplicit false

namespace LibChan

variable {T C α : Type}

/-- A select registers a stub on an open channel only. -/
def Thread.stubOk (m : Mem T C α) : Thread C α → Bool
  | .select _ cases _ (.stub i) => (cases[i]?).all fun k => !(m.chan k.chan).closed
  | _ => true

/-- The places of `chan_close` that have yet to empty queue `o`. -/
def Pc.drains (o : ChanOp) : Pc α → Bool
  | closeClaim .send | closeSettle .send _ _ | closeWake .send _ => true
  | closeClaim .recv | closeRing _ _ | closeSettle .recv _ _ | closeWake .recv _ => decide (o = .recv)
  | _ => false

/-- The places with a waiter in hand that may go back to its queue. -/
def Pc.serving : Pc α → Bool
  | serve _ (.ring _ _) | serve _ (.putBack _) | helpRing _ _ | helpPutBack _ => true
  | _ => false

/-- Whoever is in a queue of a closed channel has yet to be found by `chan_close`, and a waiter that may
go back to its queue is one of an open channel. -/
structure DrainInv (s : Sys T C α) : Prop where
  drained : ∀ c o, (s.mem.chan c).closed = true → (s.mem.chan c).queue o ≠ [] →
    ∃ t id op pc, s.thread t = .direct id c op pc ∧ pc.drains o = true
  serving : ∀ t id c op pc, s.thread t = .direct id c op pc → pc.serving = true →
    (s.mem.chan c).closed = false

/-! ## The queues of a closed channel -/

section Drain

variable [DecidableEq T] [DecidableEq C] {K : Config T C} {s s' : Sys T C α} {l : Label T C α}
  {t : T} {alt : Bool} {c d : C} {e : Effect α} {th : Thread C α} {o : ChanOp} {w : Wid}

/-- The effects that put a waiter into a queue. -/
def Effect.enters (o : ChanOp) (w : Wid) : Effect α → Prop
  | .enroll o' w' | .stub o' w' | .requeue o' w' | .putBack o' w' => o' = o ∧ w' = w
  | _ => False

omit [DecidableEq T] [DecidableEq C] in
/-- Who is in a queue after a step was in it before or has entered it. -/
theorem Effect.mem_queueAfter {q : ChanOp → List Wid} (h : w ∈ e.queueAfter q o) :
    w ∈ q o ∨ e.enters o w := by
  -- a queue that the step replaces by `l`
  have hupdate : ∀ {o' : ChanOp} {l : List Wid}, w ∈ Function.update q o' l o →
      o' = o ∧ w ∈ l ∨ w ∈ q o := by
    intro o' l hw
    by_cases ho : o = o'
    · subst ho
      rw [Function.update_self] at hw
      exact Or.inl ⟨rfl, hw⟩
    · rw [Function.update_of_ne ho] at hw
      exact Or.inr hw
  have htail : ∀ {o' : ChanOp}, w ∈ Function.update q o' (q o').tail o → w ∈ q o := by
    intro o' hw
    rcases hupdate hw with ⟨rfl, hold⟩ | hold
    · exact List.mem_of_mem_tail hold
    · exact hold
  have hback : ∀ {o' : ChanOp} {v : Wid}, w ∈ Function.update q o' (q o' ++ [v]) o →
      w ∈ q o ∨ o' = o ∧ v = w := by
    intro o' v hw
    rcases hupdate hw with ⟨rfl, hnew⟩ | hold
    · rcases List.mem_append.1 hnew with hold | hv
      · exact Or.inl hold
      · exact Or.inr ⟨rfl, (List.mem_singleton.1 hv).symm⟩
    · exact Or.inl hold
  cases e with
  | claim o' v => exact Or.inl (htail h)
  | drop o' => exact Or.inl (htail h)
  | enroll o' v => exact hback h
  | stub o' v => exact hback h
  | requeue o' v => exact hback h
  | remove o' v =>
    rcases hupdate h with ⟨rfl, hw⟩ | hw
    · exact Or.inl (List.mem_of_mem_erase hw)
    · exact Or.inl hw
  | putBack o' v =>
    rcases hupdate h with ⟨rfl, hw⟩ | hw
    · rcases List.mem_cons.1 hw with rfl | hw
      · exact Or.inr ⟨rfl, rfl⟩
      · exact Or.inl hw
    · exact Or.inl hw
  | _ => exact Or.inl h

theorem Sys.mem_queue_cases (h : w ∈ ((s.move K t c e th).mem.chan d).queue o) :
    w ∈ (s.mem.chan d).queue o ∨ d = c ∧ e.enters o w := by
  rcases Sys.mem_queue_move.1 h with ⟨rfl, hw⟩ | ⟨-, hw⟩
  · exact (Effect.mem_queueAfter hw).imp_right fun he => ⟨rfl, he⟩
  · exact Or.inl hw

omit [DecidableEq C] in
theorem Pc.locked_of_drains {pc : Pc α} (h : pc.drains o = true) : pc.locked = true := by
  cases pc with
  | closeClaim o' | closeRing v p | closeSettle o' v r | closeWake o' v => rfl
  | _ => cases h

omit [DecidableEq C] in
theorem Pc.locked_of_serving {pc : Pc α} (h : pc.serving = true) : pc.locked = true := by
  cases pc with
  | serve k st => rfl
  | helpRing v p | helpPutBack v => rfl
  | _ => cases h

omit [DecidableEq T] in
/-- Nobody enters a queue of a closed channel. -/
theorem DrainInv.open_of_enters (h : DrainInv s) (hv : Valid K s)
    (hok : (s.thread t).stubOk s.mem = true) (hacts : s.Acts K t alt c e th)
    (he : e.enters o w) : (s.mem.chan c).closed = false := by
  cases hacts with
  | @direct id c op pc pc' e hth hact =>
    have hknows := hv.shut.running t
    rw [hth] at hknows
    cases Pc.flow_of_act hact with
    | enrollMeet hcap | enrollRing hcap | requeue => exact hknows.2.1 rfl
    | servePutBack | servePutBackBlock hblock | helpPutBack => exact h.serving t id c op _ hth rfl
    | _ => exact he.elim
  | @select id cases timeout pc pc' c d e hth hact =>
    rw [hth] at hok
    cases SelPc.flow_of_act hact with
    | stub hk =>
      simpa only [Thread.stubOk, hk, Option.all_some, Bool.not_eq_true'] using hok
    | pick _ _ he' => rcases he' with rfl | ⟨v, rfl⟩ <;> exact he.elim
    | execGo hk hexec => cases hexec <;> exact he.elim
    | execDone hk hexec => cases hexec <;> exact he.elim
    | _ => exact he.elim

omit [DecidableEq T] [DecidableEq C] in
/-- What `chan_close` has yet to do it still has to do after a step, unless the queue is empty. -/
theorem Pc.drains_of_flow {m : Mem T C α} {id : Nat} {op : Op α} {pc pc' : Pc α}
    (hflow : Pc.Flow K m id c op alt pc e pc') (h : pc.drains o = true)
    (hqueue : (m.chan c).queue o ≠ []) : pc'.drains o = true := by
  cases hflow with
  | closeSendEmpty hempty =>
    cases o with
    | send => exact absurd hempty hqueue
    | recv => rfl
  | closeRecvEmpty hempty =>
    obtain rfl := of_decide_eq_true h
    exact absurd hempty hqueue
  | closeClaimSend => rfl
  | closeClaimRing | closeClaimMeet | @closeDrop o' | closeIn | closeHit | closeMiss => exact h
  | @closeSettle o' => cases o' <;> exact h
  | @closeWake o' => cases o' <;> exact h
  | _ => cases h

omit [DecidableEq T] in
/-- A thread that holds the lock of a closed channel and is not in `chan_close` finds its queues
empty. -/
theorem DrainInv.open_of_queue (h : DrainInv s) (hv : Valid K s) {id : Nat} {op : Op α} {pc : Pc α}
    (hth : s.thread t = .direct id c op pc) (hlocked : pc.locked = true)
    (hpc : pc.drains o = false) (hqueue : (s.mem.chan c).queue o ≠ []) :
    (s.mem.chan c).closed = false := by
  refine Bool.eq_false_iff.2 fun hclosed => ?_
  obtain ⟨u, id', op', pc', hu, hdrains⟩ := h.drained c o hclosed hqueue
  -- both hold the lock, so they are the same thread
  obtain rfl := hv.locks.holds_inj (Sys.held_of_locked hu (Pc.locked_of_drains hdrains))
    (Sys.held_of_locked hth hlocked)
  cases hu.symm.trans hth
  cases hpc.symm.trans hdrains

/-- A waiter that may go back to its queue is still one of an open channel after a step. -/
theorem DrainInv.serving_own (h : DrainInv s) (hv : Valid K s) {id : Nat} {op : Op α} {pc pc' : Pc α}
    (hth : s.thread t = .direct id c op pc) (hflow : Pc.Flow K s.mem id c op alt pc e pc')
    (hpc : pc'.serving = true) :
    ((s.move K t c e (.direct id c op pc')).mem.chan c).closed = false := by
  have hkeep : e ≠ .setClosed → (s.mem.chan c).closed = false →
      ((s.move K t c e (.direct id c op pc')).mem.chan c).closed = false := by
    intro he hopen
    refine Bool.eq_false_iff.2 fun hclosed => ?_
    rcases Sys.closed_move.1 hclosed with hclosed | ⟨-, rfl⟩
    · cases hopen.symm.trans hclosed
    · exact he rfl
  cases hflow with
  | serveClaim hqueue hclaim hrop =>
    refine hkeep nofun (h.open_of_queue (o := op.side.other) hv hth rfl rfl ?_)
    rw [hqueue]
    exact List.cons_ne_nil _ _
  | helpClaim hqueue hclaim hrop =>
    refine hkeep nofun (h.open_of_queue (o := .send) hv hth rfl rfl ?_)
    rw [hqueue]
    exact List.cons_ne_nil _ _
  | serveIn hp | serveMiss hp hres | helpIn hp | helpMiss hp hres =>
    exact hkeep nofun (h.serving t id c op _ hth rfl)
  | serveStopBlock hstop hblock | serveEmptyBlock hqueue hblock | servePutBackBlock hblock
  | meetEmptySend hqueue hop hblock | emptyOpen hopen hblock => cases hblock <;> cases hpc
  | _ => cases hpc

/-- Whoever empties the queues of a channel after closing it goes on until queue `o` is empty. -/
theorem Sys.drains_move (hacts : s.Acts K t alt c e th)
    (h : (s.mem.chan d).closed = true →
      ∃ u id op pc, s.thread u = .direct id d op pc ∧ pc.drains o = true)
    (hqueue : (s.mem.chan d).queue o ≠ [])
    (hclosed : ((s.move K t c e th).mem.chan d).closed = true) :
    ∃ u id op pc, (s.move K t c e th).thread u = .direct id d op pc ∧ pc.drains o = true := by
  rcases Sys.closed_move.1 hclosed with hold | ⟨rfl, rfl⟩
  · obtain ⟨u, id, op, pc, hu, hpc⟩ := h hold
    by_cases hut : u = t
    · subst hut
      cases hacts with
      | direct hth hact =>
        cases hu.symm.trans hth
        refine ⟨u, id, op, _, Sys.thread_move_self, ?_⟩
        exact Pc.drains_of_flow (Pc.flow_of_act hact) hpc hqueue
      | select hth hact => cases hu.symm.trans hth
    · exact ⟨u, id, op, pc, (Sys.thread_move_of_ne hut).trans hu, hpc⟩
  · -- the channel has just been closed
    cases hacts with
    | direct hth hact =>
      cases Pc.flow_of_act hact
      exact ⟨t, _, _, _, Sys.thread_move_self, rfl⟩
    | select hth hact =>
      cases SelPc.flow_of_act hact with
      | pick _ _ he => rcases he with he | ⟨v, he⟩ <;> cases he
      | execGo hk hexec => cases hexec
      | execDone hk hexec => cases hexec

/-- Only `chan_close` has yet to empty a queue of a closed channel, after a step as well. -/
theorem DrainInv.drained_move (h : DrainInv s) (hv : Valid K s)
    (hok : (s.thread t).stubOk s.mem = true) (hacts : s.Acts K t alt c e th)
    (hclosed : ((s.move K t c e th).mem.chan d).closed = true)
    (hqueue : ((s.move K t c e th).mem.chan d).queue o ≠ []) :
    ∃ u id op pc, (s.move K t c e th).thread u = .direct id d op pc ∧ pc.drains o = true := by
  obtain ⟨w, hw⟩ := List.exists_mem_of_ne_nil _ hqueue
  rcases Sys.mem_queue_cases hw with hw | ⟨rfl, he⟩
  · have hbefore : (s.mem.chan d).queue o ≠ [] := List.ne_nil_of_mem hw
    exact Sys.drains_move hacts (fun hold => h.drained d o hold hbefore) hbefore hclosed
  · -- nobody has entered the queue of a closed channel, and who closes it does not enter
    have hopen := h.open_of_enters hv hok hacts he
    rcases Sys.closed_move.1 hclosed with hold | ⟨-, rfl⟩
    · cases hold.symm.trans hopen
    · exact he.elim

omit [DecidableEq T] [DecidableEq C] in
theorem DrainInv.init (slots : C → U32 → α) : DrainInv (Sys.init slots : Sys T C α) where
  drained _ _ h := by cases h
  serving _ _ _ _ _ h := by cases h

theorem DrainInv.step (h : DrainInv s) (hv : Valid K s) (hok : Sys.When Thread.stubOk s l)
    (hstep : s.Stepped K l s') : DrainInv s' := by
  cases hstep with
  | @call t k hidle =>
    constructor
    · intro c o hclosed hqueue
      obtain ⟨u, id, op, pc, hu, hpc⟩ := h.drained c o hclosed hqueue
      have hut : u ≠ t := by
        rintro rfl
        cases hidle.symm.trans hu
      exact ⟨u, id, op, pc, (Sys.thread_startCall_of_ne hut).trans hu, hpc⟩
    · intro u id c op pc hu hpc
      by_cases hut : u = t
      · subst hut
        -- a new call holds no lock
        have hbegun := (Sys.begun_startThread K s.next k).holds
        rw [Sys.thread_startCall_self] at hu
        rw [hu, Thread.holds, if_pos (Pc.locked_of_serving hpc)] at hbegun
        cases hbegun
      · rw [Sys.thread_startCall_of_ne hut] at hu
        exact h.serving u id c op pc hu hpc
  | @ret t alt id r out hdone hret =>
    constructor
    · intro c o hclosed hqueue
      obtain ⟨u, id', op, pc, hu, hpc⟩ := h.drained c o hclosed hqueue
      have hut : u ≠ t := by
        rintro rfl
        have hfree := hdone.holds
        rw [hu, Thread.holds, if_pos (Pc.locked_of_drains hpc)] at hfree
        cases hfree
      exact ⟨u, id', op, pc, (Sys.thread_finishCall_of_ne hut).trans hu, hpc⟩
    · intro u id' c op pc hu hpc
      by_cases hut : u = t
      · subst hut
        cases Sys.thread_finishCall_self.symm.trans hu
      · rw [Sys.thread_finishCall_of_ne hut] at hu
        exact h.serving u id' c op pc hu hpc
  | @move t alt c e th hnext hacts =>
    constructor
    · intro d o hclosed hqueue
      exact h.drained_move hv hok hacts hclosed hqueue
    · intro u id d op pc hu hpc
      by_cases hut : u = t
      · subst hut
        rw [Sys.thread_move_self] at hu
        subst hu
        cases hacts with
        | direct hth hact => exact h.serving_own hv hth (Pc.flow_of_act hact) hpc
      · rw [Sys.thread_move_of_ne hut] at hu
        have hheld : d ∈ (s.thread u).holds K := Sys.held_of_locked hu (Pc.locked_of_serving hpc)
        exact Sys.open_move hv.locks hut hheld hacts (h.serving u id d op pc hu hpc)

omit [DecidableEq T] in
/-- The queues of a closed channel are empty whenever its lock is free. -/
theorem DrainInv.queue_eq_nil (h : DrainInv s) (hv : Valid K s)
    (hclosed : (s.mem.chan c).closed = true) (hfree : (s.mem.chan c).lock = none) (o : ChanOp) :
    (s.mem.chan c).queue o = [] := by
  by_contra hqueue
  obtain ⟨t, id, op, pc, hth, hpc⟩ := h.drained c o hclosed hqueue
  have hheld : (s.mem.chan c).lock = some t :=
    (hv.locks.lock c t).2 (Sys.held_of_locked hth (Pc.locked_of_drains hpc))
  cases hfree.symm.trans hheld

end Drain

/-! ## Calls that start after the close -/

/-- What a send or a burst returns that finds the channel closed. -/
def Ret.late (op : Op α) (r : Ret) : Bool :=
  match op with
  | .send _ _ => decide (r = .err .closed)
  | _ => decide (r = .count 0)

/-- The places of a send or a burst that finds the channel closed. -/
def Pc.late (op : Op α) : Pc α → Bool
  | fastClosed _ | slowLock | slowClosed | burstClosed => true
  | unlockRet r | ret r => r.late op
  | _ => false

/-- A call on channel `c` with a number from `n` on does not push. -/
def Thread.Late (n : Nat) (c : C) (_ : Sys T C α) : Thread C α → Prop
  | .idle => True
  | .direct id d op pc => n ≤ id → d = c → op.side = .send → pc.late op = true
  | .select id cases _ pc => n ≤ id → ∀ start j p, pc = .fast2 start j (.ring p) →
    ¬ SendAt cases (SelPc.index2 cases start j) c

/-- A send or a burst on channel `c` with a number from `n` on has reported that it is closed. -/
def Call.Late (n : Nat) (c : C) (_ : Sys T C α) (id : Nat) (k : Call C α) (r : Ret) : Prop :=
  match k with
  | .direct d op => n ≤ id → d = c → op.side = .send → r.late op = true
  | .select _ _ => True

/-- Channel `c` is closed, and the calls with a number from `n` on have left nothing in it. -/
structure LateInv (n : Nat) (c : C) (s : Sys T C α) : Prop where
  closed : (s.mem.chan c).closed = true
  sent : ∀ w x, (w, x) ∈ (s.mem.chan c).sent → w.call < n
  queue : ∀ o w, w ∈ (s.mem.chan c).queue o → w.call < n
  hand : ∀ t w o, (s.thread t).hand = some (w, .claimed c o) → w.call < n
  calls : Sys.Each (Thread.Late n c) (Call.Late n c) s

section Late

variable [DecidableEq T] [DecidableEq C] {K : Config T C} {s s' : Sys T C α} {l : Label T C α}
  {t : T} {alt : Bool} {n : Nat} {c d : C} {e : Effect α} {th : Thread C α} {w : Wid} {x : α}

omit [DecidableEq T] [DecidableEq C] in
/-- A send or a burst on a closed channel stays at such places. -/
theorem Pc.late_of_flow {m : Mem T C α} {id : Nat} {op : Op α} {pc pc' : Pc α}
    (hok : pc.Ok (K.chan c) id op) (hflow : Pc.Flow K m id c op alt pc e pc')
    (hclosed : (m.chan c).closed = true) (hside : op.side = .send) (h : pc.late op = true) :
    pc'.late op = true := by
  have hopen : ∀ {p : Prop}, (m.chan c).closed = false → p := fun hf => by
    cases hclosed.symm.trans hf
  have hsend : ∀ {p : Prop}, op.single = true → op.isSend = false → p := fun hs hf => by
    cases hside.symm.trans (Op.side_of_recv hs hf)
  cases hflow with
  | closed hclosed => rfl
  | openSpsc hf => exact hopen hf
  | openCnt hf => exact hopen hf
  | openSlow hf => exact hopen hf
  | slowSend hfree hop => rfl
  | slowMeet hfree hop => exact hsend hok hop
  | slowBuffered hfree hop => exact hsend hok hop
  | slowShut hclosed =>
    cases op with
    | send y time => rfl
    | _ => cases hok
  | slowOpenMeet hf => exact hopen hf
  | slowOpenRing hf => exact hopen hf
  | burstShut hclosed =>
    cases op with
    | sendBurst xs => rfl
    | send y time => cases hok.1
    | _ => cases hside
  | burstOpen hf => exact hopen hf
  | unlockRet => exact h
  | _ => cases h

omit [DecidableEq T] [DecidableEq C] in
/-- Nothing is brought from such places. -/
theorem Pc.data_of_late {m : Mem T C α} {id : Nat} {op : Op α} {pc pc' : Pc α}
    (hflow : Pc.Flow K m id c op alt pc e pc') (h : pc.late op = true) : e.data = [] := by
  cases pc with
  | fastClosed spin | slowLock | slowClosed | burstClosed => cases hflow <;> rfl
  | unlockRet r => cases hflow; rfl
  | _ => first | cases h | cases hflow

omit [DecidableEq C] in
theorem Pc.late_entry (k : ChanCfg) (id : Nat) {op : Op α} (hside : op.side = .send) :
    (Pc.entry k id op).late op = true := by
  cases op with
  | send y time =>
    simp only [Pc.entry, Pc.attempt]
    split <;> rfl
  | sendBurst xs =>
    simp only [Pc.entry]
    split <;> rfl
  | _ => cases hside

omit [DecidableEq T] in
/-- The lock-free attempt of a select does not push into a closed channel. -/
theorem SelPc.late_of_flow {m : Mem T C α} {id : Nat} {cases : List (Case C α)} {timeout : Int}
    {pc pc' : SelPc C α} (hflow : SelPc.Flow K m t id cases timeout alt pc d e pc')
    (hclosed : (m.chan c).closed = true)
    (h : ∀ start j p, pc = .fast2 start j (.ring p) → ¬ SendAt cases (index2 cases start j) c)
    {start j : Nat} {p : RingPc Wid α} (hpc : pc' = .fast2 start j (.ring p)) :
    ¬ SendAt cases (index2 cases start j) c := by
  intro hsend
  have hstep1 : Step1 cases pc' → False := by
    rintro (_ | _) <;> cases hpc
  have hstep2 : ∀ {i}, Step2 K cases i pc' → False := by
    rintro _ (_ | _) <;> cases hpc
  have hpasses : ∀ {rdy}, Passes K cases timeout rdy pc' → False := by
    rintro _ (_ | _ | _ | _ | _) <;> cases hpc
  cases hflow with
  | fast1Skip hk hst => exact hstep1 hst
  | fast2Start hst | fast2Skip hk hcnt hst | fast2Miss hk hp hres hst => exact hstep2 hst
  | pass hpass | readyNot hk hpass | readySend hk hop hopen hpass | readyShut hk hop hclosed hpass
  | readyYes hk hst hpass => exact hpasses hpass
  | fast2Open hk hopen =>
    cases hpc
    rw [← (SendAt.eq hsend hk).1] at hopen
    cases hclosed.symm.trans hopen
  | fast2Recv hk hcnt hop =>
    cases hpc
    cases hop.symm.trans (SendAt.eq hsend hk).2
  | fast2In hk hp =>
    cases hpc
    exact h start j _ rfl hsend
  | _ => cases hpc

omit [DecidableEq T] [DecidableEq C] in
theorem Op.side_of_offers {op : Op α} {i : Nat} (h : op.offers i = some x) : op.side = .send := by
  cases op with
  | send y time => rfl
  | sendBurst xs => rfl
  | _ => cases h

omit [DecidableEq T] in
/-- What a step brings to the closed channel belongs to an earlier call. -/
theorem LateInv.data_lt (h : LateInv n c s) (hv : Valid K s) (hacts : s.Acts K t alt c e th)
    (hx : (w, x) ∈ e.data) : w.call < n := by
  have hcalls := h.calls.running t
  by_contra hlt
  rw [Nat.not_lt] at hlt
  cases hacts with
  | @direct id c op pc pc' e hth hact =>
    have hflow := Pc.flow_of_act hact
    rw [hth] at hcalls
    rcases Pc.data_of_flow (hv.direct_ok hth) hflow hx with ⟨rfl, hoff⟩ | ⟨hhand, -⟩
    · have hlate := hcalls hlt rfl (Op.side_of_offers hoff)
      rw [Pc.data_of_late hflow hlate] at hx
      cases hx
    · exact Nat.not_lt.2 hlt (h.hand t w .send (by rw [hth]; exact hhand))
  | @select id cases timeout pc pc' c d e hth hact =>
    have hflow := SelPc.flow_of_act hact
    have hknows := hv.shut.running t
    rw [hth] at hcalls hknows
    rcases SelPc.data_of_flow (hv.select_ok hth) hflow hx with ⟨rfl, ⟨k, hk, rfl, helem⟩, hruns⟩ | ⟨hhand, -⟩
    · have hsend : SendAt cases w.idx k.chan := ⟨k, hk, Case.op_of_elem helem, rfl⟩
      cases pc with
      | fast2 start j st =>
        cases st with
        | ring p =>
          rw [← show SelPc.index2 cases start j = w.idx from hruns] at hsend
          exact hcalls hlt start j p rfl hsend
        | _ => exact hruns
      | exec i st =>
        rw [← show i = w.idx from hruns] at hsend
        cases h.closed.symm.trans (hknows.2.1 k.chan hsend)
      | _ => exact hruns
    · exact Nat.not_lt.2 hlt (h.hand t w .send (by rw [hth]; exact hhand))

omit [DecidableEq T] in
/-- Every call of a run has a smaller number than the calls that start after it. -/
theorem LateInv.start (hv : Valid K s) (hclosed : (s.mem.chan c).closed = true) :
    LateInv s.next c s := by
  refine ⟨hclosed, fun w x hx => ?_, fun o w hw => ?_, fun t w o hhand => ?_, fun t => ?_, ?_⟩
  · obtain ⟨t, k, hcall, -⟩ := hv.ledger.sent c w x hx
    exact hv.hist.call_lt _ t k hcall
  · obtain ⟨t, hwaits⟩ := (hv.queues.queue c o w hw).owned
    exact hv.calls.id_lt t _ (Thread.id_of_waits hwaits)
  · exact (hv.queues.hand t w _ hhand).lt
  · have hlt := hv.calls.id_lt t
    cases hth : s.thread t with
    | idle => trivial
    | direct id d op pc => exact fun hle => absurd (hlt id (by rw [hth]; rfl)) (Nat.not_lt.2 hle)
    | select id cases timeout pc =>
      exact fun hle => absurd (hlt id (by rw [hth]; rfl)) (Nat.not_lt.2 hle)
  · rintro id k r out ⟨t, hcall, -⟩
    cases k with
    | direct d op => exact fun hle => absurd (hv.hist.call_lt _ _ _ hcall) (Nat.not_lt.2 hle)
    | select cases timeout => trivial

theorem LateInv.step (h : LateInv n c s) (hv : Valid K s) (hdrain : DrainInv s)
    (hok : Sys.When Thread.stubOk s l) (hstep : s.Stepped K l s') : LateInv n c s' := by
  have hcalls : Sys.Each (Thread.Late n c) (Call.Late n c) s' := by
    refine Sys.Each.step h.calls hv.hist hstep trivial ?_ ?_ (fun _ _ hP => hP) ?_
      fun _ _ _ _ _ hR => hR
    · rintro t k - -
      cases k with
      | direct d op => exact fun _ _ hside => Pc.late_entry _ _ hside
      | select cases timeout =>
        intro _ start j p hpc
        have hbegins := SelPc.begins_entry cases
        rw [hpc] at hbegins
        rcases hbegins with _ | hstep1
        cases hstep1
    · rintro t alt d e th - hnext hacts - hP
      cases hacts with
      | direct hth hact =>
        rw [hth] at hP
        rintro hle rfl hside
        exact Pc.late_of_flow (hv.direct_ok hth) (Pc.flow_of_act hact) h.closed hside (hP hle rfl hside)
      | select hth hact =>
        rw [hth] at hP
        intro hle start j p hpc
        exact SelPc.late_of_flow (SelPc.flow_of_act hact) h.closed (hP hle) hpc
    · rintro t id k r out hret hcall - hP
      cases hret with
      | direct hth =>
        rw [hth] at hcall hP
        cases hcall
        exact hP
      | select hth =>
        rw [hth] at hcall
        cases hcall
        trivial
  cases hstep with
  | @call t k hidle =>
    refine ⟨h.closed, h.sent, h.queue, fun u w o hhand => ?_, hcalls⟩
    by_cases hu : u = t
    · rw [hu, Sys.thread_startCall_self, (Sys.begun_startThread K s.next k).hand] at hhand
      cases hhand
    · rw [Sys.thread_startCall_of_ne hu] at hhand
      exact h.hand u w o hhand
  | @ret t alt id r out hdone hret =>
    refine ⟨h.closed, h.sent, h.queue, fun u w o hhand => ?_, hcalls⟩
    by_cases hu : u = t
    · rw [hu, Sys.thread_finishCall_self] at hhand
      cases hhand
    · rw [Sys.thread_finishCall_of_ne hu] at hhand
      exact h.hand u w o hhand
  | @move t alt d e th hnext hacts =>
    refine ⟨Sys.closed_move.2 (Or.inl h.closed), fun w x hx => ?_, fun o w hw => ?_,
      fun u w o hhand => ?_, hcalls⟩
    · by_cases hd : c = d
      · subst hd
        rw [Sys.move, Mem.chan_apply_self, Chan.sent_apply] at hx
        rcases List.mem_append.1 hx with hx | hx
        · exact h.sent w x hx
        · exact h.data_lt hv hacts (Chan.sends_subset _ e hx)
      · rw [Sys.move, Mem.chan_apply_of_ne K s.mem t d e hd] at hx
        exact h.sent w x hx
    · rcases Sys.mem_queue_cases hw with hw | ⟨rfl, he⟩
      · exact h.queue o w hw
      · cases h.closed.symm.trans (hdrain.open_of_enters hv hok hacts he)
    · rcases Sys.hand_move hhand with ⟨-, hhand⟩ | ⟨-, hhand⟩
      · -- the waiter was in hand before, or comes out of the queue
        rcases hnext.move.hand_cases hhand with hold | ⟨hst, -⟩ | ⟨_, hst, -⟩ | ⟨o', -, hst, hw, -⟩
        · exact h.hand t w o hold
        · cases hst
        · cases hst
        · cases hst
          exact h.queue o w hw
      · exact h.hand u w o hhand

/-- If no select registers on a closed channel, then a call that starts after `chan_close` has returned
puts no element into the channel and is in none of its queues: a send returns `CHAN_ERR_CLOSED` and a
burst zero. And whenever a channel is closed and its lock is free, its queues are empty. -/
theorem closed_accepts_nothing (K : Config T C) (slots : C → U32 → α) (s₀ s : Sys T C α)
    (hrun₀ : Reaches (Sys.step K) (Sys.When Thread.stubOk) (Sys.init slots) s₀)
    (hrun : Reaches (Sys.step K) (Sys.When Thread.stubOk) s₀ s) (c : C) (id₀ : Nat) (e₀ : ChanErr)
    (out₀ : List (Option α)) (hclose : s₀.Answered id₀ (.direct c .close) (.err e₀) out₀) :
    (∀ id, s₀.next ≤ id →
      (∀ x time r out, s.Answered id (.direct c (.send x time)) r out → r = .err .closed) ∧
      (∀ xs r out, s.Answered id (.direct c (.sendBurst xs)) r out → r = .count 0) ∧
      (∀ i x, (⟨id, i⟩, x) ∉ (s.mem.chan c).sent) ∧
      ∀ i o, ⟨id, i⟩ ∉ (s.mem.chan c).queue o) ∧
    ∀ d, (s.mem.chan d).closed = true → (s.mem.chan d).lock = none →
      ∀ o, (s.mem.chan d).queue o = [] := by
  obtain ⟨hv₀, hdrain₀⟩ := Sys.valid hrun₀ (DrainInv.init slots)
    fun s l s' hv h hok hstep => h.step hv hok hstep
  have hclosed : (s₀.mem.chan c).closed = true := by
    apply hv₀.shut.returned id₀ _ _ out₀ hclose
    simp [Ret.shut, Op.isClose]
  obtain ⟨hv, hdrain, hlate⟩ := Sys.valid_from (P := fun s => DrainInv s ∧ LateInv s₀.next c s) hrun hv₀
    ⟨hdrain₀, LateInv.start hv₀ hclosed⟩
    fun s l s' hv h hok hstep => ⟨h.1.step hv hok hstep, h.2.step hv h.1 hok hstep⟩
  refine ⟨fun id hid => ⟨?_, ?_, ?_, ?_⟩, fun d hd hfree => hdrain.queue_eq_nil hv hd hfree⟩
  · intro x time r out hans
    exact of_decide_eq_true (hlate.calls.returned id _ r out hans hid rfl rfl)
  · intro xs r out hans
    exact of_decide_eq_true (hlate.calls.returned id _ r out hans hid rfl rfl)
  · intro i x hx
    exact Nat.not_lt.2 hid (hlate.sent _ x hx)
  · intro i o hw
    exact Nat.not_lt.2 hid (hlate.queue o _ hw)

end Late

/-- The steps of a close by thread `t`. -/
def closeTrace (t : Fin 2) : List (Label (Fin 2) Unit Nat) :=
  List.flatten [[.call t (.direct () .close)], List.replicate 7 (.go t false)]

/-- A send that starts after `chan_close` has returned, and returns `CHAN_ERR_CLOSED`. -/
theorem closed_accepts_nothing_after_send :
    ∃ s₀ s, Reaches (Sys.step unbufferedOne) (Sys.When Thread.stubOk) (Sys.init fun _ _ => 0) s₀ ∧
      Reaches (Sys.step unbufferedOne) (Sys.When Thread.stubOk) s₀ s ∧
      s₀.Answered 0 (.direct () .close) (.err .ok) [] ∧ s₀.next ≤ 1 ∧
      s.Answered 1 (.direct () (.send 7 (-1))) (.err .closed) [] ∧
      (∀ r out, s.Answered 1 (.direct () (.send 7 (-1))) r out → r = .err .closed) ∧
      (∀ i x, (⟨1, i⟩, x) ∉ (s.mem.chan ()).sent) ∧ ∀ o, (s.mem.chan ()).queue o = [] := by
  obtain ⟨s₀, s, hs₀, hs, hclose, hnext, hsend, hclosed, hfree⟩ : ∃ s₀ s : Sys (Fin 2) Unit Nat,
      Reaches (Sys.step unbufferedOne) (Sys.When Thread.stubOk) (Sys.init fun _ _ => 0) s₀ ∧
      Reaches (Sys.step unbufferedOne) (Sys.When Thread.stubOk) s₀ s ∧
      (.call 0 0 (.direct () .close) ∈ s₀.events ∧ .ret 0 0 (.err .ok) [] ∈ s₀.events) ∧ s₀.next ≤ 1 ∧
      (.call 1 1 (.direct () (.send 7 (-1))) ∈ s.events ∧ .ret 1 1 (.err .closed) [] ∈ s.events) ∧
      (s.mem.chan ()).closed = true ∧ (s.mem.chan ()).lock = none :=
    exists_reaches_pair_of_exec (closeTrace 0)
      (.call 1 (.direct () (.send 7 (-1))) :: List.replicate 4 (.go 1 false)) _ (by decide +kernel)
  have hall := closed_accepts_nothing unbufferedOne _ s₀ s hs₀ hs () 0 .ok [] ⟨0, hclose⟩
  obtain ⟨hlater, -, hsent, -⟩ := hall.1 1 hnext
  exact ⟨s₀, s, hs₀, hs, ⟨0, hclose⟩, hnext, ⟨1, hsend⟩, hlater 7 (-1), hsent, hall.2 () hclosed hfree⟩

/-- A select with a send case on a closed unbuffered channel registers a stub there and parks. A later
receive takes its element. -/
theorem closed_accepts_select :
    ∃ s₀ s s' : Sys (Fin 2) Unit Nat,
      Reaches (Sys.step unbufferedOne) Always (Sys.init fun _ _ => 0) s₀ ∧
      Reaches (Sys.step unbufferedOne) Always s₀ s ∧ Reaches (Sys.step unbufferedOne) Always s s' ∧
      s₀.Answered 0 (.direct () .close) (.err .ok) [] ∧ s₀.next ≤ 1 ∧
      ((s.mem.chan ()).closed = true ∧ (s.mem.chan ()).lock = none ∧
        ⟨1, 0⟩ ∈ (s.mem.chan ()).queue .send) ∧
      (⟨1, 0⟩, 9) ∈ (s'.mem.chan ()).sent ∧
      s'.Answered 2 (.direct () (.recv (-1))) (.err .ok) [some 9] := by
  obtain ⟨s₀, hs₀, ⟨hcall, hret⟩, hnext, hexec⟩ := Sys.exists_reaches unbufferedOne (fun _ _ => 0)
    Always (closeTrace 0)
    (fun s₀ => (Event.call 0 0 (.direct () .close) ∈ s₀.events ∧
      Event.ret 0 0 (.err .ok) [] ∈ s₀.events) ∧ s₀.next ≤ 1 ∧
      (exec (Sys.step unbufferedOne) Always s₀
        (.call 1 (.select [⟨(), some 9⟩] (-1)) :: List.replicate 8 (.go 1 false))).any
        (fun s => decide (((s.mem.chan ()).closed = true ∧ (s.mem.chan ()).lock = none ∧
            ⟨1, 0⟩ ∈ (s.mem.chan ()).queue .send) ∧
          (exec (Sys.step unbufferedOne) Always s
            (.call 0 (.direct () (.recv (-1))) :: List.replicate 6 (.go 0 false))).any
            (fun s' => decide ((⟨1, 0⟩, 9) ∈ (s'.mem.chan ()).sent ∧
              Event.call 2 0 (.direct () (.recv (-1))) ∈ s'.events ∧
              Event.ret 2 0 (.err .ok) [some 9] ∈ s'.events)) = true)) = true)
    (by decide +kernel)
  obtain ⟨s, hs, hqueue, hexec'⟩ := exists_reaches_of_exec _ _ hexec
  obtain ⟨s', hs', hsent, hcall', hret'⟩ := exists_reaches_of_exec _ _ hexec'
  exact ⟨s₀, s, s', hs₀, hs, hs', ⟨0, hcall, hret⟩, hnext, hqueue, hsent, 0, hcall', hret'⟩

end LibChan
