import LibChan.Chan.SharedRing
import LibChan.Chan.Claimed

/-!
# Receives that find nothing

A receive on a buffered channel reports `CHAN_ERR_CLOSED` or `CHAN_ERR_WOULDBLOCK` only after a ring check
of its own has failed, and that check has seen the ring empty at one instant (`RingInv.empty_of_none`).
So everything committed before the check has been reserved by some consumer (`Drains`).

`TimedSys` adds to the system the number of positions reserved on the ring when the ring operation of
each thread began. In runs with fewer than `2 ^ 32` reservations during any one ring operation
(`TimedSys.Brief`) the rings of the channels that are not SPSC are sound.
-/

set_option autoImplicit false

namespace LibChan

variable {T C α : Type}

/-! ## Ring operations of bounded duration -/

/-- The system, and for each thread the number of positions reserved on the ring when its ring
operation began. -/
structure TimedSys (T C α : Type) where
  sys : Sys T C α
  began : T → Nat

/-- The count for thread `t` after a step from `s` to `s'`: a new one if the step starts a ring
operation. -/
def Sys.beganAfter (s s' : Sys T C α) (t : T) (b : Nat) : Nat :=
  match (s.thread t).ring?, (s'.thread t).ring? with
  | none, some (c, _) => (s'.mem.chan c).hist.total
  | _, _ => b

namespace TimedSys

/-- No calls yet. -/
def init (slots : C → U32 → α) : TimedSys T C α := ⟨Sys.init slots, fun _ => 0⟩

/-- One step of the system. -/
def step [DecidableEq T] [DecidableEq C] (K : Config T C) (s : TimedSys T C α) (l : Label T C α) :
    Option (TimedSys T C α) :=
  (s.sys.step K l).map fun s' =>
    ⟨s', Function.update s.began l.who (s.sys.beganAfter s' l.who (s.began l.who))⟩

/-- Fewer than `2 ^ 32` positions have been reserved since the ring operation of the thread that moves
began. -/
def Brief (s : TimedSys T C α) : Label T C α → Prop
  | .go t _ => ∀ x ∈ (s.sys.thread t).ring?, (s.sys.mem.chan x.1).hist.total < s.began t + 2 ^ 32
  | .call _ _ => True

instance (s : TimedSys T C α) : DecidablePred s.Brief
  | .go t _ => inferInstanceAs (Decidable (∀ x ∈ (s.sys.thread t).ring?,
      (s.sys.mem.chan x.1).hist.total < s.began t + 2 ^ 32))
  | .call _ _ => .isTrue trivial

end TimedSys

section Extends

variable [DecidableEq T] [DecidableEq C] {K : Config T C} {s s' : Sys T C α} {l : Label T C α}
  {t : T} {alt : Bool} {c : C} {e : Effect α} {th : Thread C α}

theorem Chan.extends_apply (ch : Chan T α) (cap : RingCap) (hspsc : ∀ p, e ≠ .spsc p) :
    Extends ch.hist (ch.apply cap t e).hist ∧
      ∀ u, u ≠ t → (ch.apply cap t e).hist.mark u = ch.hist.mark u := by
  cases e with
  | ring weak p =>
    exact ⟨extends_step ch.hist cap ch.ring t weak p,
      fun u hu => mark_step_of_ne ch.hist cap ch.ring t weak p hu⟩
  | spsc p => exact absurd rfl (hspsc p)
  | _ => exact ⟨.refl _, fun _ _ => rfl⟩

/-- The history of a channel that is not SPSC only grows. -/
theorem Sys.Acts.extends (hacts : s.Acts K t alt c e th) (hok : (s.thread t).Ok K) {d : C}
    (hd : (K.chan d).spsc = false) :
    Extends (s.mem.chan d).hist ((s.move K t c e th).mem.chan d).hist ∧
      ∀ u, u ≠ t → ((s.move K t c e th).mem.chan d).hist.mark u = (s.mem.chan d).hist.mark u := by
  by_cases hdc : d = c
  · subst hdc
    rw [show (s.move K t d e th).mem.chan d = _ from Mem.chan_apply_self K s.mem t d e]
    refine Chan.extends_apply _ _ ?_
    rintro p rfl
    cases hd.symm.trans (hacts.spsc hok)
  · rw [show (s.move K t c e th).mem.chan d = _ from Mem.chan_apply_of_ne K s.mem t c e hdc]
    exact ⟨.refl _, fun _ _ => rfl⟩

theorem Sys.Stepped.extends (hs : Sound K s) (hstep : s.Stepped K l s') {d : C}
    (hd : (K.chan d).spsc = false) : Extends (s.mem.chan d).hist (s'.mem.chan d).hist := by
  cases hstep with
  | call hidle => exact .refl _
  | ret hdone hret => exact .refl _
  | @move t alt c e th hnext hacts => exact (hacts.extends (hs.ok t) hd).1

end Extends

/-- An operation that began at count `b` loaded its head after that. -/
def BeganAt (K : Config T C) (m : Mem T C α) (t : T) (b : Nat) (c : C) (p : RingPc Wid α) : Prop :=
  b ≤ (m.chan c).hist.total ∧
    (p.Checking → b ≤ 2 * (m.chan c).hist.mark t + (K.chan c).ringCap.size)

/-- The rings are sound, and the ring operations in progress began before their head loads. -/
structure BeganInv [DecidableEq C] (K : Config T C) (s : TimedSys T C α) : Prop where
  sound : Sound K s.sys
  shared : SharedInv K s.sys
  began : ∀ t c p, (K.chan c).spsc = false → (s.sys.thread t).ring? = some (c, p) →
    BeganAt K s.sys.mem t (s.began t) c p

section Timed

variable [DecidableEq T] [DecidableEq C] {K : Config T C} {s s' : TimedSys T C α} {l : Label T C α}

omit [DecidableEq T] in
theorem BeganInv.init (slots : C → U32 → α) :
    BeganInv K (TimedSys.init slots : TimedSys T C α) where
  sound := .init slots
  shared := .init slots
  began _ _ _ _ h := by cases h

omit [DecidableEq T] in
theorem BeganInv.timely (h : BeganInv K s) (hbrief : s.Brief l) : s.sys.SharedTimely K l := by
  cases l with
  | call t k => trivial
  | go t alt =>
    rintro ⟨c, p⟩ hring hc
    exact (h.shared c hc).ordered.timely (h.began t c p hc hring).2 (hbrief (c, p) hring)

/-- The thread that moves inside its operation. -/
theorem BeganAt.access {m : Mem T C α} {t : T} {b : Nat} {c : C} {p p' : RingPc Wid α} {alt : Bool}
    (h : BeganAt K m t b c p)
    (hord : Ordered (K.chan c).ringCap (m.chan c).hist) (hp : m.access K c alt p = .inl p') :
    BeganAt K (m.apply K t c (.ring alt p)) t b c p' := by
  have hext := extends_step (m.chan c).hist (K.chan c).ringCap (m.chan c).ring t alt p
  rw [BeganAt, Mem.chan_apply_self]
  refine ⟨h.1.trans hext.total_le, fun hc => ?_⟩
  show b ≤ 2 * ((m.chan c).hist.step _ _ t alt p).mark t + _
  rcases checking_step (m.chan c).hist (K.chan c).ringCap (m.chan c).ring t alt p hp hc with
    ⟨op, rfl, hmark⟩ | ⟨hc', hmark⟩
  · rw [hmark]
    exact h.1.trans (hord.total_le op.side)
  · rw [hmark]
    exact h.2 hc'

theorem BeganInv.step (h : BeganInv K s) (hbrief : s.Brief l) (hstep : s.step K l = some s') :
    BeganInv K s' := by
  obtain ⟨sys', hsys, rfl⟩ := Option.map_eq_some_iff.1 hstep
  have hstepped := Sys.step_cases h.sound.locks.wf hsys
  refine ⟨h.sound.step hstepped, h.shared.step h.sound (h.timely hbrief) hstepped, ?_⟩
  intro u c p hc hring
  dsimp only at hring ⊢
  -- a thread that does not move, while the history grows
  have hother : u ≠ l.who → (s.sys.thread u).ring? = some (c, p) →
      (sys'.mem.chan c).hist.mark u = (s.sys.mem.chan c).hist.mark u →
      BeganAt K sys'.mem u (s.began u) c p := by
    intro hu hring hmark
    obtain ⟨hle, hcheck⟩ := h.began u c p hc hring
    exact ⟨hle.trans (hstepped.extends h.sound hc).total_le, by rw [hmark]; exact hcheck⟩
  cases hstepped with
  | @call t k hidle =>
    dsimp only [Label.who] at hother ⊢
    by_cases hu : u = t
    · subst hu
      rw [Sys.thread_startCall_self] at hring
      rw [Function.update_self, Sys.beganAfter, Sys.thread_startCall_self, hring, hidle]
      refine ⟨le_rfl, fun hcheck => ?_⟩
      rcases Thread.ring_startThread (K := K) s.sys.next k with hnone | ⟨d, op, hsome⟩
      · cases hring.symm.trans hnone
      · cases hring.symm.trans hsome
        cases hcheck
    · rw [Sys.thread_startCall_of_ne hu] at hring
      rw [Function.update_of_ne hu]
      exact hother hu hring rfl
  | @ret t alt id r out hdone hret =>
    dsimp only [Label.who] at hother ⊢
    by_cases hu : u = t
    · subst hu
      rw [Sys.thread_finishCall_self] at hring
      cases hring
    · rw [Sys.thread_finishCall_of_ne hu] at hring
      rw [Function.update_of_ne hu]
      exact hother hu hring rfl
  | @move t alt d e th hnext hacts =>
    dsimp only [Label.who] at hother ⊢
    by_cases hu : u = t
    · subst hu
      rw [Sys.thread_move_self] at hring
      rw [Function.update_self, Sys.beganAfter, Sys.thread_move_self, hring]
      cases hacts.ring (h.sound.ok u) with
      | inside hold hp hring' =>
        cases hring.symm.trans hring'
        rw [hold]
        exact (h.began u c _ hc hold).access (h.shared c hc).ordered hp
      | last hold hp hring' => cases hring.symm.trans hring'
      | start hold he hop hring' =>
        -- the head load is still ahead
        cases hring.symm.trans hring'
        rw [hold]
        exact ⟨le_rfl, fun hcheck => hcheck.elim⟩
      | away hold he hring' => cases hring.symm.trans hring'
    · rw [Sys.thread_move_of_ne hu] at hring
      rw [Function.update_of_ne hu]
      exact hother hu hring ((hacts.extends (h.sound.ok t) hc).2 u hu)

theorem TimedSys.inv_reaches {slots : C → U32 → α}
    (hrun : Reaches (TimedSys.step K) TimedSys.Brief (TimedSys.init slots) s) : BeganInv K s :=
  hrun.invariant (.init slots) fun _ _ _ h hbrief hstep => h.step hbrief hstep

end Timed

/-! ## The checks of a receive -/

/-- The places of a receive from which it comes to the end of a ring check of its own before it can
report that there is nothing. -/
def Pc.BeforeCheck : Pc α → Prop
  | fastClosed _ | fastCnt _ _ | fastRing _ _ | slowLock | slowRing _ | enroll | recheck _ => True
  | _ => False

/-- The places of a receive that is going to return `CHAN_OK`. -/
def Pc.Succeeds : Pc α → Prop
  | fastAfter r | serveLock r | unlockRet r | ret r => r = .err .ok
  | serve k _ => k = .leave (.err .ok)
  | helpClaim | helpRing _ _ | helpPutBack _ | helpSettle _ | helpUnlock _ | wakeRet _ => True
  | unRemove | unDecr => True
  | _ => False

section Receive

variable {K : Config T C} {m : Mem T C α} {id : Nat} {c : C} {time : Int} {alt : Bool}
  {pc pc' : Pc α} {e : Effect α}

/-- A receive that leaves these places has just failed a ring check. -/
theorem Pc.check_of_flow (hcap : 0 < (K.chan c).capacity) (hspsc : (K.chan c).spsc = false)
    (hok : pc.Ok (K.chan c) id (.recv time))
    (hflow : Pc.Flow K m id c (.recv time) alt pc e pc') (h : pc.BeforeCheck ∨ pc.Succeeds) :
    (pc'.BeforeCheck ∨ pc'.Succeeds) ∨
      ∃ p res, pc.ring? = some p ∧ p.op.side = .recv ∧ m.access K c alt p = .inr res ∧
        res.moved = 0 := by
  have hsend : (Op.recv time : Op α).isSend = false := rfl
  cases hflow with
  | closed | openCnt | openSlow | cntBusy | cntSend | cntRecv | fastIn | fastMiss | fastMissSlow
  | slowBuffered | slowIn | enrollRing | recheckIn => exact Or.inl (Or.inl trivial)
  | fastHit => exact Or.inl (Or.inr rfl)
  | slowRecvHit | helpClaim | helpDrop | helpIn | helpHit | helpMiss | helpSettle | helpUnlock
  | recheckHit | unRemove => exact Or.inl (Or.inr trivial)
  | helpEmpty | helpPutBack | wakeRet | unDecrRecv => exact Or.inl (Or.inr rfl)
  | slowRecvMiss hp hres =>
    exact Or.inr ⟨_, _, rfl, by rw [hok.2.2.1]; rfl, hp, hres⟩
  | recheckMiss hp hres =>
    exact Or.inr ⟨_, _, rfl, by rw [hok.2.2.1]; rfl, hp, hres⟩
  | openSpsc hopen hspsc' => cases hspsc.symm.trans hspsc'
  | slowMeet hfree hop hcap' => omega
  | enrollMeet hcap' => omega
  | slowSend hfree hop | slowSendHit hp hres hop | slowSendMiss hp hres hop | unDecrSend hop =>
    exact (Bool.false_ne_true (hsend.symm.trans hop)).elim
  | afterServe | afterRet | serveFirst | serveGo | serveClaim | serveDrop | serveIn
  | serveHit | serveMiss | serveSettle | serveWake =>
    rcases h with h | h
    · cases h
    · exact Or.inl (Or.inr h)
  | serveLock =>
    rcases h with h | h
    · cases h
    · exact Or.inl (Or.inr (congrArg ServeEnd.leave h))
  | serveStop | serveEmpty | servePutBack | unlockRet =>
    rcases h with h | h
    · cases h
    · cases h
      exact Or.inl (Or.inr rfl)
  | _ =>
    -- the other places are not on the way
    rcases h with h | h <;> cases h

end Receive

/-- The receive `id` of thread `t` on channel `c` has not passed its last ring check yet, or the first
`n` positions have been reserved by consumers. -/
structure Drains (t : T) (id : Nat) (c : C) (n : Nat) (s : Sys T C α) : Prop where
  lt : id < s.next
  committed : n ≤ (s.mem.chan c).hist.committed .send
  ahead : ∀ time pc, s.thread t = .direct id c (.recv time) pc →
    (pc.BeforeCheck ∨ pc.Succeeds) ∨ n ≤ (s.mem.chan c).hist.reserved .recv

section Drains

variable [DecidableEq T] [DecidableEq C] {K : Config T C} {s s' : Sys T C α} {l : Label T C α}
  {t : T} {id : Nat} {c : C} {n : Nat}

theorem Drains.step (h : Drains t id c n s) (hs : Sound K s) (hshared : SharedInv K s)
    (hcap : 0 < (K.chan c).capacity) (hspsc : (K.chan c).spsc = false) (htime : s.SharedTimely K l)
    (hstep : s.Stepped K l s') : Drains t id c n s' := by
  have hext := hstep.extends hs hspsc
  have hold : n ≤ (s.mem.chan c).hist.reserved .recv → n ≤ (s'.mem.chan c).hist.reserved .recv :=
    fun hle => hle.trans (hext.reserved_le .recv)
  refine ⟨?_, h.committed.trans (hext.committed .send), fun time pc hth => ?_⟩
  · cases hstep with
    | call hidle => exact Nat.lt_succ_of_lt h.lt
    | ret hdone hret => exact h.lt
    | move hnext hacts => exact h.lt
  · cases hstep with
    | @call u k hidle =>
      by_cases hu : t = u
      · -- a later call has another number
        subst hu
        rw [Sys.thread_startCall_self] at hth
        cases k with
        | direct d op =>
          cases hth
          exact absurd h.lt (Nat.lt_irrefl _)
        | select cases timeout => cases hth
      · rw [Sys.thread_startCall_of_ne hu] at hth
        exact (h.ahead time pc hth).imp_right hold
    | @ret u alt id' r out hdone hret =>
      by_cases hu : t = u
      · subst hu
        rw [Sys.thread_finishCall_self] at hth
        cases hth
      · rw [Sys.thread_finishCall_of_ne hu] at hth
        exact (h.ahead time pc hth).imp_right hold
    | @move u alt d e th hnext hacts =>
      by_cases hu : t = u
      · subst hu
        rw [Sys.thread_move_self] at hth
        subst hth
        cases hacts with
        | direct hth hact =>
          rcases h.ahead _ _ hth with hahead | hle
          · have hok := hs.direct_ok hth
            rcases Pc.check_of_flow hcap hspsc hok (Pc.flow_of_act hact) hahead with
              hahead' | ⟨p, res, hring, hside, hres, hzero⟩
            · exact Or.inl hahead'
            · -- the check has failed at this step
              have hring' : (s.thread t).ring? = some (c, p) := by
                rw [hth, Thread.ring?, hring]
                rfl
              have hempty := (hshared c hspsc).empty_of_moved (Thread.ringOn_eq_some.2 hring') hside
                (htime (c, p) hring' hspsc) hres hzero
              exact Or.inr (hold (hempty ▸ h.committed))
          · exact Or.inr (hold hle)
      · rw [Sys.thread_move_of_ne hu] at hth
        exact (h.ahead time pc hth).imp_right hold

/-- A failed pop means the ring was empty. In runs with fewer than `2 ^ 32` reservations during any one
ring operation, a pop or burst pop that returns without an element performs its last access at an instant
at which every committed element has been reserved by a consumer; and what was committed on a buffered
channel that is not SPSC while a receive had its ring check still ahead has been reserved by the time it
reports `CHAN_ERR_CLOSED` or `CHAN_ERR_WOULDBLOCK`. -/
theorem empty_verdict_right :
    (∀ (ω : Type) (cap : RingCap) (slots : U32 → α) (s : TimedRing T ω α) (t : T) (weak : Bool)
        (p : RingPc ω α),
      Reaches (TimedRing.step cap) TimedRing.Brief (TimedRing.init slots) s →
      s.Brief (.access t weak) → s.sys.pc t = some p → p.op.side = .recv →
      s.verdict cap t weak = some 0 →
      s.sys.hist.committed .send = s.sys.hist.reserved .recv) ∧
    ∀ (K : Config T C) (slots : C → U32 → α) (s₁ s : TimedSys T C α) (t : T) (id : Nat) (c : C)
        (time : Int) (pc : Pc α) (e : ChanErr),
      0 < (K.chan c).capacity → (K.chan c).spsc = false →
      Reaches (TimedSys.step K) TimedSys.Brief (TimedSys.init slots) s₁ →
      Reaches (TimedSys.step K) TimedSys.Brief s₁ s →
      s₁.sys.thread t = .direct id c (.recv time) pc → pc.BeforeCheck →
      s.sys.thread t = .direct id c (.recv time) (.ret (.err e)) → e = .closed ∨ e = .wouldblock →
      (s₁.sys.mem.chan c).hist.committed .send ≤ (s.sys.mem.chan c).hist.reserved .recv := by
  constructor
  · intro ω cap slots s t weak p hrun hbrief hpc hside hverdict
    have h := TimedRing.inv_reaches hrun
    obtain ⟨res, hres, hzero⟩ := TimedRing.returns_of_verdict hpc hverdict
    exact h.ring.1.empty_of_moved hpc hside (h.timely hpc hbrief) hres hzero
  · intro K slots s₁ s t id c time pc e hcap hspsc hrun₁ hrun hth₁ hbefore hth he
    have h₁ := TimedSys.inv_reaches hrun₁
    have hstart : Drains t id c ((s₁.sys.mem.chan c).hist.committed .send) s₁.sys := by
      refine ⟨h₁.sound.calls.id_lt t id (by rw [hth₁]; rfl), le_rfl, fun time' pc' hth' => ?_⟩
      cases hth₁.symm.trans hth'
      exact Or.inl (Or.inl hbefore)
    have hinv := hrun.invariant
      (P := fun s => BeganInv K s ∧ Drains t id c ((s₁.sys.mem.chan c).hist.committed .send) s.sys)
      ⟨h₁, hstart⟩ fun s l s' h hbrief hstep => by
        refine ⟨h.1.step hbrief hstep, ?_⟩
        obtain ⟨sys', hsys, rfl⟩ := Option.map_eq_some_iff.1 hstep
        exact h.2.step h.1.sound h.1.shared hcap hspsc (h.1.timely hbrief)
          (Sys.step_cases h.1.sound.locks.wf hsys)
    rcases hinv.2.ahead time _ hth with (hahead | hahead) | hle
    · cases hahead
    · -- a call that succeeds reports something else
      cases hahead
      rcases he with he | he <;> cases he
    · exact hle

end Drains

/-- A pop from an empty ring; and a `chan_try_recv` that returns `CHAN_ERR_WOULDBLOCK` after the only
element sent has been taken by another receive. -/
theorem empty_verdict_right_taken :
    (∃ s : TimedRing Bool Unit Nat,
      Reaches (TimedRing.step (RingCap.ofRequest 1)) TimedRing.Brief (TimedRing.init fun _ => 0) s ∧
      s.verdict (RingCap.ofRequest 1) false false = some 0 ∧
      s.sys.hist.committed .send = s.sys.hist.reserved .recv) ∧
    ∃ s₁ s : TimedSys (Fin 3) Unit Nat,
      Reaches (TimedSys.step bufferedOne) TimedSys.Brief (TimedSys.init fun _ _ => 0) s₁ ∧
      Reaches (TimedSys.step bufferedOne) TimedSys.Brief s₁ s ∧
      s.sys.thread 0 = .direct 0 () (.recv 0) (.ret (.err .wouldblock)) ∧
      (s₁.sys.mem.chan ()).hist.committed .send = 1 ∧
      (s₁.sys.mem.chan ()).hist.committed .send ≤ (s.sys.mem.chan ()).hist.reserved .recv := by
  constructor
  · have hrun : ∃ s : TimedRing Bool Unit Nat,
        Reaches (TimedRing.step (RingCap.ofRequest 1)) TimedRing.Brief (TimedRing.init fun _ => 0) s ∧
        (s.Brief (.access false false) ∧ s.sys.pc false = some (.loadOpp (.pop ()) 0) ∧
          s.verdict (RingCap.ofRequest 1) false false = some 0) :=
      exists_reaches_of_exec [.start false (.pop ()), .access false false] _ (by decide +kernel)
    obtain ⟨s, hs, hbrief, hpc, hverdict⟩ := hrun
    exact ⟨s, hs, hverdict, (empty_verdict_right (C := Unit)).1 Unit _ _ s false false _ hs hbrief hpc
      rfl hverdict⟩
  · have hrun : ∃ s₁ s : TimedSys (Fin 3) Unit Nat,
        Reaches (TimedSys.step bufferedOne) TimedSys.Brief (TimedSys.init fun _ _ => 0) s₁ ∧
        Reaches (TimedSys.step bufferedOne) TimedSys.Brief s₁ s ∧
        (s₁.sys.thread 0 = .direct 0 () (.recv 0) (.fastCnt .send 0) ∧
          s.sys.thread 0 = .direct 0 () (.recv 0) (.ret (.err .wouldblock)) ∧
          (s₁.sys.mem.chan ()).hist.committed .send = 1) :=
      exists_reaches_pair_of_exec
        (.call 0 (.direct () (.recv 0)) :: .call 1 (.direct () (.send 7 0)) ::
          List.replicate 11 (.go 1 false) ++
          .call 2 (.direct () (.recv 0)) :: List.replicate 10 (.go 2 false))
        (List.replicate 11 (.go 0 false)) _ (by decide +kernel)
    obtain ⟨s₁, s, hs₁, hs, hth₁, hth, hsent⟩ := hrun
    exact ⟨s₁, s, hs₁, hs, hth, hsent, empty_verdict_right.2 bufferedOne _ s₁ s 0 0 () 0 _ .wouldblock
      (by decide) rfl hs₁ hs hth₁ trivial hth (Or.inr rfl)⟩

end LibChan
