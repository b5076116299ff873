import LibChan.Chan.Order
import LibChan.Chan.Executed

/-!
# A producer and a consumer that select

A buffered channel is used by one producer that selects with send cases on it and one consumer that
selects with receive cases on it (`Call.Duo`); the other channels of the selects are used by anyone and
in any way. On each half of the ring one thread operates at a time (`DuoInv.ring_inj`), so no access is
overtaken by a lap (`MarkInv.timely`). What is reported about the waiters on the channel is so wherever
`execute_case_locked` moves what it reports there (`MustOn`), and a select that waits forever or not at
all reports whatever it has moved (`TellInv`).
-/

set_option autoImplicit false

namespace LibChan

variable {T C α : Type}

/-! ## The use of the channel -/

/-- The calls of thread `t` where channel `c` belongs to a producer `p` and a consumer `q` that call
`chan_select` and `chan_select_try` only: no direct operation is on `c`, the send cases on `c` are those
of `p` and the receive cases those of `q`, and their selects wait forever or not at all. -/
def Call.Duo (c : C) (p q t : T) : Call C α → Prop
  | .direct d _ => d ≠ c
  | .select cases timeout => ∀ k ∈ cases, k.chan = c →
      timeout ≤ 0 ∧ (k.op = .send ∧ t = p ∨ k.op = .recv ∧ t = q)

instance [DecidableEq T] [DecidableEq C] (c : C) (p q t : T) (k : Call C α) : Decidable (k.Duo c p q t) :=
  match k with
  | .direct d _ => inferInstanceAs (Decidable (d ≠ c))
  | .select cases timeout => inferInstanceAs (Decidable (∀ k ∈ cases, k.chan = c →
      timeout ≤ 0 ∧ (k.op = .send ∧ t = p ∨ k.op = .recv ∧ t = q)))

/-- The calls that the threads may start. -/
def Label.Duo (c : C) (p q : T) : Label T C α → Prop
  | .call t k => k.Duo c p q t
  | .go _ _ => True

instance [DecidableEq T] [DecidableEq C] (c : C) (p q : T) : DecidablePred (Label.Duo (α := α) c p q)
  | .call t k => inferInstanceAs (Decidable (k.Duo c p q t))
  | .go _ _ => .isTrue trivial

/-- The calls that the threads have started. -/
def DuoInv (c : C) (p q : T) (s : Sys T C α) : Prop :=
  ∀ id t k, .call id t k ∈ s.events → k.Duo c p q t

theorem RingOp.Serves.side {ω β : Type} {w : ω} {o : ChanOp} {op : RingOp ω β} (h : op.Serves w o) :
    op.side = o := by
  cases op with
  | push v x => exact h.1.symm
  | pop v => exact h.1.symm
  | _ => exact h.elim

section Use

variable [DecidableEq T] [DecidableEq C] {K : Config T C} {s s' : Sys T C α} {l : Label T C α}
  {p q t u : T} {alt : Bool} {c d : C} {e : Effect α} {th : Thread C α} {w : Wid} {o : ChanOp}
  {pr pr' : RingPc Wid α}

theorem DuoInv.step (h : DuoInv c p q s) (hl : l.Duo c p q) (hstep : s.Stepped K l s') :
    DuoInv c p q s' := by
  cases hstep with
  | call hidle =>
    intro id t k hcall
    rcases Sys.mem_events_startCall.1 hcall with hold | hnew
    · exact h id t k hold
    · cases hnew
      exact hl
  | ret hdone hret =>
    intro id t k hcall
    rcases Sys.mem_events_finishCall.1 hcall with hold | hnew
    · exact h id t k hold
    · cases hnew
  | move hnext hacts => exact h

omit [DecidableEq T] in
theorem DuoInv.not_direct (h : DuoInv c p q s) (hs : Sound K s) {id : Nat} {op : Op α} {pc : Pc α} :
    s.thread t ≠ .direct id c op pc := fun hth =>
  h id t _ (hs.hist.running t id (.direct c op) (by rw [hth]; rfl)) rfl

omit [DecidableEq T] in
/-- The cases on the channel in a running select. -/
theorem DuoInv.case (h : DuoInv c p q s) (hs : Sound K s) {id : Nat} {cases : List (Case C α)}
    {timeout : Int} {pc : SelPc C α} (hth : s.thread t = .select id cases timeout pc) {i : Nat}
    {k : Case C α} (hk : cases[i]? = some k) (hc : k.chan = c) :
    timeout ≤ 0 ∧ (k.op = .send ∧ t = p ∨ k.op = .recv ∧ t = q) :=
  h id t _ (hs.hist.running t id (.select cases timeout) (by rw [hth]; rfl)) k
    (List.mem_of_getElem? hk) hc

omit [DecidableEq T] in
/-- Who waits on the channel, and that it is in no ring operation. -/
theorem DuoInv.waits (h : DuoInv c p q s) (hs : Sound K s) (hw : (s.thread t).Waits c o w) :
    (o = .send ∧ t = p ∨ o = .recv ∧ t = q) ∧ (s.thread t).ring? = none := by
  cases hth : s.thread t with
  | idle =>
    rw [hth] at hw
    exact hw.elim
  | direct id d op pc =>
    rw [hth] at hw
    obtain ⟨rfl, -⟩ := hw
    exact absurd hth (h.not_direct hs)
  | select id cases timeout pc =>
    rw [hth] at hw
    obtain ⟨-, hpc, k, hk, hc, rfl⟩ := hw
    refine ⟨(h.case hs hth hk hc).2, ?_⟩
    cases pc with
    | stub | park | lockAll | clean | unlockAll => rfl
    | _ => cases hpc

omit [DecidableEq T] in
/-- A waiting sender is the producer. -/
theorem DuoInv.waits_of_owned (h : DuoInv c p q s) (hs : Sound K s) (how : s.Owned c .send w) :
    (s.thread p).Waits c .send w := by
  obtain ⟨u, hu⟩ := how
  obtain rfl : u = p := ((h.waits hs hu).1.resolve_right fun hrecv => by cases hrecv.1).2
  exact hu

omit [DecidableEq T] [DecidableEq C] in
/-- The waiter a receive case pushes for. -/
theorem Sys.hand_helpRing {id i : Nat} {cases : List (Case C α)} {timeout : Int} {k : Case C α}
    (hth : s.thread t = .select id cases timeout (.exec i (.helpRing w pr))) (hk : cases[i]? = some k)
    (hop : k.op = .recv) : (s.thread t).hand = some (w, .claimed k.chan .send) := by
  rw [hth, Thread.hand, SelPc.hand, hk]
  show some (w, Stage.claimed k.chan k.op.other) = _
  rw [hop]
  rfl

omit [DecidableEq T] in
/-- The ring operations on the channel: pushes of the producer, pops of the consumer, and pushes of the
consumer for the waiting producer. -/
theorem DuoInv.ring (h : DuoInv c p q s) (hs : Sound K s) (hring : (s.thread t).ring? = some (c, pr)) :
    t = p ∧ pr.op.side = .send ∨ t = q ∧ pr.op.side = .recv ∨
      t = q ∧ pr.op.side = .send ∧ ∃ v, (s.thread p).Waits c .send v := by
  cases hth : s.thread t with
  | idle =>
    rw [hth] at hring
    cases hring
  | direct id d op pc =>
    rw [hth] at hring
    obtain ⟨pr₀, -, heq⟩ := Option.map_eq_some_iff.1 hring
    cases heq
    exact absurd hth (h.not_direct hs)
  | select id cases timeout pc =>
    have hok := hs.select_ok hth
    have hown : ∀ {i : Nat} {k : Case C α}, cases[i]? = some k → k.chan = c → pr.Runs (k.ringOp ⟨id, i⟩) →
        t = p ∧ pr.op.side = .send ∨ t = q ∧ pr.op.side = .recv := by
      intro i k hk hc hruns
      have hside : pr.op.side = k.op := by
        rw [hruns.1, Case.ringOp, Case.op]
        split <;> rfl
      rw [hside]
      exact (h.case hs hth hk hc).2.imp And.symm And.symm
    rw [hth] at hring
    cases pc with
    | fast2 start j st =>
      cases st with
      | ring pr₀ =>
        obtain ⟨k, hk, -, hruns⟩ := hok
        rw [Thread.ring?, SelPc.ring_fast2 hk] at hring
        cases hring
        exact (hown hk rfl (hruns pr rfl)).imp_right Or.inl
      | _ => cases hring
    | exec i st =>
      obtain ⟨k, hk, hok⟩ := hok
      rw [Thread.ring?, SelPc.ring_exec hk] at hring
      obtain ⟨pr₀, hst, heq⟩ := Option.map_eq_some_iff.1 hring
      cases heq
      cases st with
      | ring pr₁ =>
        cases hst
        exact (hown hk rfl hok.2).imp_right Or.inl
      | helpRing v pr₁ =>
        cases hst
        obtain ⟨-, hop, hserves⟩ := hok
        -- a receive case pushes for the waiter it has claimed
        have hq : t = q := ((h.case hs hth hk rfl).2.resolve_left fun hsend => by
          cases hop.symm.trans hsend.1).2
        have how := (hs.queues.claimed t v _ _ (Sys.hand_helpRing hth hk hop)).1
        exact Or.inr (Or.inr ⟨hq, hserves.1.side, v, h.waits_of_owned hs how⟩)
      | _ => cases hst
    | _ => cases hring

omit [DecidableEq T] in
/-- On each side one thread operates on the ring at a time. -/
theorem DuoInv.ring_inj (h : DuoInv c p q s) (hs : Sound K s)
    (ht : (s.thread t).ring? = some (c, pr)) (hu : (s.thread u).ring? = some (c, pr'))
    (hside : pr.op.side = pr'.op.side) : t = u := by
  have hwaits : ∀ {v}, (s.thread p).Waits c .send v → (s.thread p).ring? = none := fun hv =>
    (h.waits hs hv).2
  rcases h.ring hs ht with ⟨rfl, hs₁⟩ | ⟨rfl, hs₁⟩ | ⟨rfl, hs₁, v, hv⟩
  · rcases h.ring hs hu with ⟨rfl, -⟩ | ⟨-, hs₂⟩ | ⟨-, -, v', hv'⟩
    · rfl
    · cases hs₁.symm.trans (hside.trans hs₂)
    · cases ht.symm.trans (hwaits hv')
  · rcases h.ring hs hu with ⟨-, hs₂⟩ | ⟨rfl, -⟩ | ⟨rfl, -⟩
    · cases hs₁.symm.trans (hside.trans hs₂)
    · rfl
    · rfl
  · rcases h.ring hs hu with ⟨rfl, -⟩ | ⟨rfl, -⟩ | ⟨rfl, -⟩
    · cases hu.symm.trans (hwaits hv)
    · rfl
    · rfl

omit [DecidableEq T] in
/-- No step on the channel goes through the cursor caches. -/
theorem DuoInv.not_spsc (h : DuoInv c p q s) (hs : Sound K s) (hacts : s.Acts K t alt d e th) :
    c = d → ∀ x, e ≠ .spsc x := by
  rintro rfl x rfl
  cases hacts with
  | direct hth hact => exact h.not_direct hs hth
  | select hth hact =>
    cases SelPc.flow_of_act hact with
    | pick _ _ he => rcases he with he | ⟨v, he⟩ <;> cases he
    | execGo hk hexec => cases hexec
    | execDone hk hexec => cases hexec

/-! ## The ring -/

/-- What a step does to the history of a ring: nothing, or it performs the next access of its thread. -/
theorem Sys.Acts.hist_cases (hacts : s.Acts K t alt d e th) (hok : (s.thread t).Ok K)
    (hspsc : c = d → ∀ x, e ≠ .spsc x) :
    ((s.move K t d e th).mem.chan c).hist = (s.mem.chan c).hist ∨
      ∃ pr, d = c ∧ e = .ring alt pr ∧ (s.thread t).ring? = some (c, pr) ∧
        ((s.move K t d e th).mem.chan c).hist =
          (s.mem.chan c).hist.step (K.chan c).ringCap (s.mem.chan c).ring t alt pr := by
  by_cases hcd : c = d
  · subst hcd
    have hchan : (s.move K t c e th).mem.chan c = (s.mem.chan c).apply (K.chan c).ringCap t e :=
      Mem.chan_apply_self K s.mem t c e
    rw [hchan]
    cases hacts.ring hok with
    | inside hring hp hring' => exact Or.inr ⟨_, rfl, rfl, hring, rfl⟩
    | last hring hp hring' => exact Or.inr ⟨_, rfl, rfl, hring, rfl⟩
    | start hring he hop hring' => exact Or.inl (Chan.ring_apply _ _ he (hspsc rfl)).2
    | away hring he hring' => exact Or.inl (Chan.ring_apply _ _ he (hspsc rfl)).2
  · refine Or.inl (congrArg Chan.hist ?_)
    exact Mem.chan_apply_of_ne K s.mem t d e hcd

/-- A step of a thread that does not operate on one half of the ring leaves the cursors of this half. -/
theorem Sys.Acts.cursors_eq (hacts : s.Acts K t alt d e th) (hok : (s.thread t).Ok K)
    (hspsc : c = d → ∀ x, e ≠ .spsc x)
    (hside : ∀ pr, (s.thread t).ring? = some (c, pr) → pr.op.side ≠ o) :
    ((s.move K t d e th).mem.chan c).hist.reserved o = (s.mem.chan c).hist.reserved o ∧
      ((s.move K t d e th).mem.chan c).hist.committed o = (s.mem.chan c).hist.committed o := by
  rcases hacts.hist_cases hok hspsc with heq | ⟨pr, -, -, hring, heq⟩
  · rw [heq]
    exact ⟨rfl, rfl⟩
  · rw [heq]
    exact cursors_step_of_side _ _ _ _ _ _ (hside pr hring)

/-- A thread between its head load and its CAS has seen the latest head. -/
def MarkInv (c : C) (s : Sys T C α) : Prop :=
  ∀ t pr, (s.thread t).ring? = some (c, pr) → pr.Checking →
    (s.mem.chan c).hist.mark t = (s.mem.chan c).hist.reserved pr.op.side

omit [DecidableEq T] in
/-- With one thread on each half no access is overtaken by a lap. -/
theorem MarkInv.timely (h : MarkInv c s) (hgood : s.RingSound K c)
    (hring : (s.thread t).ring? = some (c, pr)) : (s.mem.chan c).hist.Timely t pr := by
  apply hgood.ordered.timely (b := (s.mem.chan c).hist.total)
  · intro hpr
    rw [h t pr hring hpr]
    exact hgood.ordered.total_le pr.op.side
  · exact Nat.lt_add_of_pos_right (Nat.two_pow_pos 32)

theorem MarkInv.move_own (h : MarkInv c s) (hok : (s.thread t).Ok K)
    (hacts : s.Acts K t alt d e th) (hring' : th.ring? = some (c, pr')) (hpr' : pr'.Checking) :
    ((s.move K t d e th).mem.chan c).hist.mark t =
      ((s.move K t d e th).mem.chan c).hist.reserved pr'.op.side := by
  cases hacts.ring hok with
  | last hring hp hnone => cases hring'.symm.trans hnone
  | away hring he hnone => cases hring'.symm.trans hnone
  | start hring he hop hstart =>
    cases hring'.symm.trans hstart
    exact hpr'.elim
  | @inside pr pr'' hring hp hring'' =>
    cases hring'.symm.trans hring''
    have hhist : ((s.move K t c (.ring alt pr) th).mem.chan c).hist =
        (s.mem.chan c).hist.step (K.chan c).ringCap (s.mem.chan c).ring t alt pr :=
      congrArg Chan.hist (Mem.chan_apply_self K s.mem t c _)
    rw [hhist]
    -- the operation is between its head load and its CAS after the step
    have hop : pr'.op = pr.op := RingPc.op_of_inl hp
    cases pr with
    | loadHead op =>
      have hself := (s.mem.chan c).hist.mark_setMark_self t ((s.mem.chan c).hist.reserved op.side)
      rw [hop]
      refine hself.trans ?_
      show _ = ((s.mem.chan c).hist.setMark t _).reserved op.side
      cases op.side <;> rfl
    | loadOpp op a =>
      rw [hop]
      exact h t _ hring trivial
    | cas op a k =>
      simp only [Mem.access, Ring.step] at hp
      split at hp <;> (cases hp; cases hpr')
    | copy op a k i acc =>
      simp only [Mem.access, Ring.step] at hp
      split at hp <;> (cases hp; cases hpr')
    | wait op a k acc =>
      simp only [Mem.access, Ring.step] at hp
      split at hp <;> (cases hp; cases hpr')
    | store op a k acc => cases hp

theorem MarkInv.step (h : MarkInv c s) (hduo : DuoInv c p q s) (hs : Sound K s)
    (hstep : s.Stepped K l s') : MarkInv c s' := by
  intro u pr hring hpr
  cases hstep with
  | @call t k hidle =>
    by_cases hu : u = t
    · subst hu
      rw [Sys.thread_startCall_self] at hring
      rcases Thread.ring_startThread (K := K) s.next k with hnone | ⟨d, op, hsome⟩
      · cases hring.symm.trans hnone
      · cases hring.symm.trans hsome
        exact hpr.elim
    · rw [Sys.thread_startCall_of_ne hu] at hring
      exact h u pr hring hpr
  | @ret t alt id r out hdone hret =>
    by_cases hu : u = t
    · subst hu
      rw [Sys.thread_finishCall_self] at hring
      cases hring
    · rw [Sys.thread_finishCall_of_ne hu] at hring
      exact h u pr hring hpr
  | @move t alt d e th hnext hacts =>
    have hspsc := hduo.not_spsc hs hacts
    by_cases hu : u = t
    · subst hu
      rw [Sys.thread_move_self] at hring
      exact h.move_own (hs.ok u) hacts hring hpr
    · rw [Sys.thread_move_of_ne hu] at hring
      have hside : ∀ pr', (s.thread t).ring? = some (c, pr') → pr'.op.side ≠ pr.op.side :=
        fun pr' ht hside => hu (hduo.ring_inj hs hring ht hside.symm)
      rw [(hacts.cursors_eq (hs.ok t) hspsc hside).1, ← h u pr hring hpr]
      rcases hacts.hist_cases (hs.ok t) hspsc with heq | ⟨pr', -, -, -, heq⟩
      · rw [heq]
      · rw [heq, mark_step_of_ne _ _ _ _ _ _ hu]

end Use

/-! ## What is reported about the channel -/

/-- `w` is the waiter of a select case on `c`. -/
def Sys.CaseOn (s : Sys T C α) (c : C) (w : Wid) : Prop :=
  ∃ t cases timeout k, .call w.call t (.select cases timeout) ∈ s.events ∧
    cases[w.idx]? = some k ∧ k.chan = c

/-- What is reported about waiters on channel `c` is so. -/
structure MustOn (c : C) (s : Sys T C α) : Prop where
  hand : ∀ t w o, (s.thread t).hand = some (w, .claimed c o) → w ∈ (s.thread t).handGot → s.mem.Took w
  own : ∀ t id cases timeout pc, s.thread t = .select id cases timeout pc →
    ∀ i k, cases[i]? = some k → k.chan = c → ⟨id, i⟩ ∈ pc.got id → s.mem.Took ⟨id, i⟩
  stub : ∀ w, s.CaseOn c w → (s.mem.waiter w).result = .ok → s.mem.Took w

section Must

variable [DecidableEq T] [DecidableEq C] {K : Config T C} {s s' : Sys T C α} {l : Label T C α}
  {t u : T} {alt : Bool} {c d : C} {e : Effect α} {th : Thread C α} {w : Wid} {o : ChanOp}

omit [DecidableEq T] in
/-- The channel of a case is the one its waiter waits on. -/
theorem Sys.CaseOn.chan_eq (h : s.CaseOn c w) (hs : Sound K s) (how : s.Owned d o w) : d = c := by
  obtain ⟨t, cases, timeout, k, hcall, hk, rfl⟩ := h
  obtain ⟨u, hwaits⟩ := how
  cases hth : s.thread u with
  | idle =>
    rw [hth] at hwaits
    exact hwaits.elim
  | direct id d' op pc =>
    rw [hth] at hwaits
    obtain ⟨-, -, rfl, -⟩ := hwaits
    cases (hs.hist.call_inj id _ _ _ _ hcall (hs.hist.running u id (.direct d' op) (by rw [hth]; rfl))).2
  | select id cases' timeout' pc =>
    rw [hth] at hwaits
    obtain ⟨rfl, -, k', hk', rfl, -⟩ := hwaits
    cases (hs.hist.call_inj _ _ _ _ _ hcall
      (hs.hist.running u _ (.select cases' timeout') (by rw [hth]; rfl))).2
    cases hk.symm.trans hk'
    rfl

theorem MustOn.startCall (h : MustOn c s) (hs : Sound K s) {k : Call C α} :
    MustOn c (s.startCall K t k) where
  hand u w o hhand hw := by
    by_cases hu : u = t
    · subst hu
      rw [Sys.thread_startCall_self, (Sys.begun_startThread K s.next k).hand] at hhand
      cases hhand
    · rw [Sys.thread_startCall_of_ne hu] at hhand hw
      exact h.hand u w o hhand hw
  own u id cases timeout pc hth i k' hk hc hi := by
    by_cases hu : u = t
    · subst hu
      have hgot := Thread.got_startThread (K := K) s.next k
      rw [← Sys.thread_startCall_self (s := s) (t := u), hth] at hgot
      have hi : ⟨id, i⟩ ∈ (Thread.select id cases timeout pc).got := hi
      rw [hgot] at hi
      cases hi
    · rw [Sys.thread_startCall_of_ne hu] at hth
      exact h.own u id cases timeout pc hth i k' hk hc hi
  stub w hcase hres := by
    obtain ⟨v, cases, timeout, k', hcall, hk, hc⟩ := hcase
    rcases Sys.mem_events_startCall.1 hcall with hold | hnew
    · have hne : w.call ≠ s.next := Nat.ne_of_lt (hs.hist.call_lt _ _ _ hold)
      simp only [Sys.startCall, if_neg hne] at hres
      exact h.stub w ⟨v, cases, timeout, k', hold, hk, hc⟩ hres
    · obtain ⟨hw, -, rfl⟩ := Event.call.inj hnew
      simp only [Sys.startCall, if_pos hw] at hres
      cases hres

omit [DecidableEq C] in
theorem MustOn.finishCall (h : MustOn c s) {id : Nat} {r : Ret} {out : List (Option α)} :
    MustOn c (s.finishCall t id r out) where
  hand u w o hhand hw := by
    by_cases hu : u = t
    · subst hu
      rw [Sys.thread_finishCall_self] at hhand
      cases hhand
    · rw [Sys.thread_finishCall_of_ne hu] at hhand hw
      exact h.hand u w o hhand hw
  own u id' cases timeout pc hth i k hk hc hi := by
    by_cases hu : u = t
    · subst hu
      rw [Sys.thread_finishCall_self] at hth
      cases hth
    · rw [Sys.thread_finishCall_of_ne hu] at hth
      exact h.own u id' cases timeout pc hth i k hk hc hi
  stub w hcase hres := by
    obtain ⟨v, cases, timeout, k, hcall, hk, hc⟩ := hcase
    rcases Sys.mem_events_finishCall.1 hcall with hold | hnew
    · exact h.stub w ⟨v, cases, timeout, k, hold, hk, hc⟩ hres
    · cases hnew

/-- `execute_case_locked` of a case on `c` is about to move what it reports. -/
def Sys.MovesOn (K : Config T C) (c : C) (s : Sys T C α) (t : T) : Prop :=
  ∀ id cases timeout i st k, s.thread t = .select id cases timeout (.exec i st) → cases[i]? = some k →
    k.chan = c → st.moves K s.mem k = true

theorem MustOn.hand_own (h : MustOn c s) (hs : Sound K s) (hnext : (s.thread t).Next K s.mem d th e)
    (hacts : s.Acts K t alt d e th) (hmoves : s.MovesOn K c t)
    (hhand : th.hand = some (w, .claimed c o)) (hw : w ∈ th.handGot) :
    (s.move K t d e th).mem.Took w := by
  have hold : w ∈ (s.thread t).handGot → (s.move K t d e th).mem.Took w := by
    intro hw
    obtain ⟨c₀, o₀, hhand₀⟩ := Thread.hand_of_handGot (hs.ok t) hw
    refine Sys.took_move.2 (Or.inl ?_)
    rcases hnext.move.hand_cases hhand with hsame | ⟨hst, -⟩ | ⟨o', hst, -⟩ | ⟨o', -, -, hqueue, -⟩
    · exact h.hand t w o hsame hw
    · cases hst
    · cases hst
    · exact absurd hqueue ((hs.queues.hand t w _ hhand₀).queue d o')
  have hnew : w ∈ (s.mem.chan d).grants e → (s.move K t d e th).mem.Took w := fun hw =>
    Sys.took_move.2 (Or.inr hw)
  cases hacts with
  | @direct id c' op pc pc' e hth hact =>
    have hplace := hs.direct_ok hth
    rw [hth] at hold
    exact (Pc.handGot_source hplace (Pc.flow_of_act hact) hw).elim hold hnew
  | @select id cases timeout pc pc' c' d' e hth hact =>
    have hplace := hs.select_ok hth
    refine (SelPc.handGot_source hplace ?_ (SelPc.flow_of_act hact) hw).elim (by rwa [hth] at hold) hnew
    rintro i k st st' rfl hk rfl
    -- the waiter in hand is claimed from the channel of the case
    refine hmoves id cases timeout i st k hth hk ?_
    rw [Thread.hand, SelPc.hand, hk] at hhand
    cases st' with
    | meetCopy v | helpRing v pr | helpSettle v =>
      cases hhand
      rfl
    | _ => cases hhand

theorem MustOn.stub_move (h : MustOn c s) (hs : Sound K s) (hnext : (s.thread t).Next K s.mem d th e)
    (hacts : s.Acts K t alt d e th) (hcase : s.CaseOn c w)
    (hres : ((s.move K t d e th).mem.waiter w).result = .ok) : (s.move K t d e th).mem.Took w := by
  by_cases hid : (s.thread t).id? = some w.call
  · -- a select writes results of its own only when it registers
    have hsame : (s.mem.waiter w).result = .ok := by
      rw [Sys.result_move] at hres
      cases hacts with
      | @direct id c' op pc pc' e hth hact =>
        rw [hth] at hid
        cases hid
        obtain ⟨v, cases, timeout, k, hcall, -⟩ := hcase
        cases (hs.hist.call_inj _ _ _ _ _ hcall
          (hs.hist.running t w.call (.direct d op) (by rw [hth]; rfl))).2
      | select hth hact =>
        rcases SelPc.result_ok_of_flow (SelPc.flow_of_act hact) hres with hsame | ⟨d, o, hhand⟩
        · exact hsame
        · rw [← hth] at hhand
          exact absurd hid (hs.hand_call_ne hhand)
    exact Sys.took_move.2 (Or.inl (h.stub w hcase hsame))
  · cases Sys.fate hs hnext hid with
    | same hqueue hclaimed hsame =>
      exact Sys.took_move.2 (Or.inl (h.stub w hcase (hsame.symm.trans hres)))
    | claim he hqueue hclaimed hsame =>
      exact Sys.took_move.2 (Or.inl (h.stub w hcase (hsame.symm.trans hres)))
    | drop he hqueue hnot =>
      subst he
      exact Sys.took_move.2 (Or.inl (h.stub w hcase hres))
    | putBack he hclaimed hqueue hsame =>
      exact Sys.took_move.2 (Or.inl (h.stub w hcase (hsame.symm.trans hres)))
    | settle he hclaimed =>
      obtain ⟨d', o', hhand⟩ := hclaimed
      obtain rfl := hcase.chan_eq hs (hs.queues.claimed t w d' o' hhand).1
      rw [Sys.result_move] at hres
      exact Sys.took_move.2 ((hacts.result_ok he hid hres).imp_left (h.hand t w o' hhand))

theorem MustOn.own_move (h : MustOn c s) (hs : Sound K s) {id : Nat} {cases : List (Case C α)}
    {timeout : Int} {pc pc' : SelPc C α} (hth : s.thread t = .select id cases timeout pc)
    (hflow : SelPc.Flow K s.mem t id cases timeout alt pc d e pc') (hmoves : s.MovesOn K c t) {i : Nat}
    {k : Case C α} (hk : cases[i]? = some k) (hc : k.chan = c) (hi : ⟨id, i⟩ ∈ pc'.got id) :
    (s.move K t d e (.select id cases timeout pc')).mem.Took ⟨id, i⟩ := by
  have htrue : ∀ k' st, pc = .exec i st → cases[i]? = some k' → st.moves K s.mem k' = true := by
    rintro k' st rfl hk'
    cases hk.symm.trans hk'
    exact hmoves id cases timeout i st k hth hk hc
  rcases SelPc.got_of_flow (hs.select_ok hth) htrue hflow hi with hold | hnew | ⟨-, hres⟩
  · exact Sys.took_move.2 (Or.inl (h.own t id cases timeout pc hth i k hk hc hold))
  · exact Sys.took_move.2 (Or.inr hnew)
  · refine Sys.took_move.2 (Or.inl (h.stub ⟨id, i⟩ ⟨t, cases, timeout, k, ?_, hk, hc⟩ hres))
    exact hs.hist.running t id _ (by rw [hth]; rfl)

theorem MustOn.step (h : MustOn c s) (hs : Sound K s) (hmoves : ∀ t alt, l = .go t alt → s.MovesOn K c t)
    (hstep : s.Stepped K l s') : MustOn c s' := by
  cases hstep with
  | call hidle => exact h.startCall hs
  | ret hdone hret => exact h.finishCall
  | @move t alt d e th hnext hacts =>
    have hmoves := hmoves t alt rfl
    refine ⟨fun u w o hhand hw => ?_, fun u id cases timeout pc hth i k hk hc hi => ?_,
      fun w hcase hres => h.stub_move hs hnext hacts hcase hres⟩
    · by_cases hu : u = t
      · subst hu
        rw [Sys.thread_move_self] at hhand hw
        exact h.hand_own hs hnext hacts hmoves hhand hw
      · rw [Sys.thread_move_of_ne hu] at hhand hw
        exact Sys.took_move.2 (Or.inl (h.hand u w o hhand hw))
    · by_cases hu : u = t
      · subst hu
        rw [Sys.thread_move_self] at hth
        subst hth
        cases hacts with
        | select hth hact => exact h.own_move hs hth (SelPc.flow_of_act hact) hmoves hk hc hi
      · rw [Sys.thread_move_of_ne hu] at hth
        exact Sys.took_move.2 (Or.inl (h.own u id cases timeout pc hth i k hk hc hi))

end Must

/-! ## A select says what it has moved -/

/-- A select that is about to return has moved elements for the case it returns only, and the cleanup
follows a wake. -/
def SelPc.Tells (s : Sys T C α) (id : Nat) : SelPc C α → Prop
  | unlockAll _ (.ret r) => ∀ j, s.mem.Took ⟨id, j⟩ → ⟨id, j⟩ ∈ gotOf id r
  | ret r => ∀ j, s.mem.Took ⟨id, j⟩ → ⟨id, j⟩ ∈ gotOf id r
  | lockAll _ (.clean woken) => woken = true
  | clean _ woken _ => woken = true
  | _ => True

/-- The selects that wait forever or not at all report what they have moved. -/
def TellInv (s : Sys T C α) : Prop :=
  ∀ t id cases timeout pc, s.thread t = .select id cases timeout pc → timeout ≤ 0 → pc.Tells s id

section Tell

variable [DecidableEq T] [DecidableEq C] {K : Config T C} {s s' : Sys T C α} {l : Label T C α}
  {t u : T} {alt : Bool} {c d : C} {e : Effect α} {th : Thread C α} {w : Wid} {id : Nat}
  {cases : List (Case C α)} {timeout : Int} {pc pc' : SelPc C α}

omit [DecidableEq T] [DecidableEq C] in
/-- The winner found by the cleanup is the stub an element was moved for. -/
theorem Sys.Stubs.got_of_took {i n : Nat} {winner : Option Nat} (h : s.Stubs id n)
    (hwinner : s.Winner id i winner) (hn : n ≤ i)
    (hsig : s.mem.signaled id = true)
    (hnone : ∀ u w c o, (s.thread u).hand = some (w, .claimed c o) → w.call ≠ id) {j : Nat}
    (htook : s.mem.Took ⟨id, j⟩) : ⟨id, j⟩ ∈ SelPc.gotOf id (SelPc.cleaned s.mem id true winner) := by
  have hres : (s.mem.waiter ⟨id, j⟩).result = .ok := by
    rcases h.took j htook with hres | ⟨u, c, o, hhand, -⟩
    · exact hres
    · exact absurd rfl (hnone u _ c o hhand)
  obtain ⟨i₀, hone⟩ := h.one
  have hj₀ : j = i₀ := by
    by_contra hne
    exact (hone j hne).1.took htook
  cases winner with
  | none =>
    -- a signalled select has a stub with a result
    obtain ⟨j', hj', hres'⟩ := h.signal hsig
    exact absurd (hwinner.none rfl j' (hj'.trans_le hn)) hres'
  | some j' =>
    have hj' : j' = i₀ := by
      by_contra hne
      exact hwinner.some j' rfl (hone j' hne).1.result
    rw [hj', ← hj₀, SelPc.cleaned, if_pos rfl, hres]
    exact List.mem_singleton_self _

omit [DecidableEq T] in
/-- What a step of a select has moved for itself, the place after it tells. -/
theorem SelPc.tells_of_flow (hs : Sound K s) (hsel : SelectInv s)
    (hth : s.thread t = .select id cases timeout pc) (htime : timeout ≤ 0)
    (h : pc.Tells s id) (hflow : SelPc.Flow K s.mem t id cases timeout alt pc d e pc') {s' : Sys T C α}
    (htook : ∀ j, s'.mem.Took ⟨id, j⟩ → s.mem.Took ⟨id, j⟩ ∨ ⟨id, j⟩ ∈ (s.mem.chan d).grants e) :
    pc'.Tells s' id := by
  have hinv := hsel.running t id cases timeout pc hth
  have hok := hs.select_ok hth
  -- nothing has been moved before the places that give up
  have hempty : s.Unregistered id [] → (s.mem.chan d).grants e = [] → ∀ r j, s'.mem.Took ⟨id, j⟩ →
      (⟨id, j⟩ : Wid) ∈ gotOf id r := by
    intro hun hgrants r j hj
    rcases htook j hj with hj | hj
    · cases (hun j).2 hj
    · rw [hgrants] at hj
      cases hj
  have hstep2 : ∀ {start}, Step2 K cases start pc' → pc'.Tells s' id := by
    rintro _ (_ | _) <;> trivial
  have hpasses : s.Unregistered id [] → (s.mem.chan d).grants e = [] → ∀ {rdy},
      Passes K cases timeout rdy pc' → pc'.Tells s' id := by
    intro hun hgrants rdy hpass
    cases hpass with
    | now hnil htime => exact hempty hun hgrants _
    | _ => trivial
  cases hflow with
  | fast1Head hk hnone => exact hempty hinv rfl _
  | fast1Skip hk hst => rcases hst with _ | _ <;> trivial
  | fast2Start hst => exact hstep2 hst
  | fast2Skip hk hcnt hst => exact hstep2 hst
  | fast2Shut hk hclosed => exact hempty hinv rfl _
  | @fast2Hit start j k pr res hk hp hres =>
    intro i hi
    obtain ⟨k', -, -, hruns⟩ := hok
    rcases htook i hi with hi | hi
    · have hmem := RingPc.mem_wids_of_got ((hinv i).2 hi)
      rw [(hruns pr rfl).1, k'.wids_ringOp] at hmem
      rw [List.mem_singleton.1 hmem]
      exact List.mem_singleton_self _
    · exact (RingPc.not_grants_of_inr hp hi).elim
  | fast2Miss hk hp hres hst => exact hstep2 hst
  | pass hpass | readyNot hk hpass | readySend hk hop hopen hpass | readyShut hk hop hclosed hpass
  | readyYes hk hst hpass => exact hpasses hinv rfl hpass
  | @lock c cs k hfree =>
    cases k with
    | ready => trivial
    | clean woken => exact h
  | clean => exact h
  | @execDone i k st e r hk hexec =>
    intro j hj
    have hgrants : (s.mem.chan k.chan).grants e = [] := by cases hexec <;> rfl
    have hj : s.mem.Took ⟨id, j⟩ := (htook j hj).resolve_right (by rw [hgrants]; exact List.not_mem_nil)
    have hgot : (⟨id, j⟩ : Wid) ∈ st.got ⟨id, i⟩ := (hinv j).2 hj
    cases hexec with
    | helpEmpty hqueue => exact hgot
    | wake => exact hgot
    | _ => cases hgot
  | @unlock c cs k =>
    cases k with
    | ret r =>
      intro j hj
      exact h j ((htook j hj).resolve_right List.not_mem_nil)
    | park => trivial
  | unlockedRet =>
    intro j hj
    exact h j ((htook j hj).resolve_right List.not_mem_nil)
  | parkExpire halt hpos => exact absurd htime (Int.not_le.2 hpos)
  | parkWoken hsig => rfl
  | cleanWon hk hres => exact h
  | cleanStub hk hres => exact h
  | @cleaned i d woken winner hi =>
    obtain rfl : woken = true := h
    obtain ⟨hst, hsig, hwinner⟩ := hinv
    intro j hj
    exact hst.got_of_took hwinner (List.getElem?_eq_none_iff.1 hi) (hsig rfl)
      (fun u w c o hhand => hs.not_claimed_of_held hth rfl rfl hhand)
      ((htook j hj).resolve_right List.not_mem_nil)
  | _ => trivial

theorem TellInv.step (h : TellInv s) (hs : Sound K s) (hsel : SelectInv s) (hstep : s.Stepped K l s') :
    TellInv s' := by
  intro u id cases timeout pc hth htime
  cases hstep with
  | @call t k hidle =>
    by_cases hu : u = t
    · subst hu
      rw [Sys.thread_startCall_self] at hth
      cases k with
      | direct c op => cases hth
      | select cases' timeout' =>
        simp only [Sys.startThread, Thread.select.injEq] at hth
        obtain ⟨rfl, -, -, rfl⟩ := hth
        have hbegins := SelPc.begins_entry cases'
        revert hbegins
        generalize SelPc.entry cases' = pc
        rintro (hnil | (_ | _))
        · exact fun j hj => absurd hj (hsel.fresh ⟨s.next, j⟩ (Nat.le_refl _))
        · trivial
        · trivial
    · rw [Sys.thread_startCall_of_ne hu] at hth
      exact h u id cases timeout pc hth htime
  | @ret t alt id' r out hdone hret =>
    by_cases hu : u = t
    · subst hu
      rw [Sys.thread_finishCall_self] at hth
      cases hth
    · rw [Sys.thread_finishCall_of_ne hu] at hth
      exact h u id cases timeout pc hth htime
  | @move t alt d e th hnext hacts =>
    by_cases hu : u = t
    · subst hu
      rw [Sys.thread_move_self] at hth
      subst hth
      cases hacts with
      | select hth hact =>
        exact SelPc.tells_of_flow hs hsel hth htime (h u id cases timeout _ hth htime)
          (SelPc.flow_of_act hact) fun j => Sys.took_move.1
    · rw [Sys.thread_move_of_ne hu] at hth
      have hold := h u id cases timeout pc hth htime
      -- nobody moves elements for a select without registered stubs
      have hret : pc.registered = false → ∀ j, (s.move K t d e th).mem.Took ⟨id, j⟩ →
          s.mem.Took ⟨id, j⟩ := by
        intro hreg j hj
        rcases Sys.took_move.1 hj with hj | hj
        · exact hj
        · rcases hacts.grants (hs.ok t) hj with ⟨hid, -⟩ | ⟨o, hhand, -⟩
          · exact absurd (hs.calls.id_inj u t id (by rw [hth]; rfl) hid) hu
          · exact absurd rfl (hs.not_claimed hth hreg hhand)
      cases pc with
      | unlockAll cs next =>
        cases next with
        | ret r => exact fun j hj => hold j (hret rfl j hj)
        | park => trivial
      | ret r => exact fun j hj => hold j (hret rfl j hj)
      | lockAll cs next =>
        cases next with
        | ready => trivial
        | clean woken => exact hold
      | clean i woken winner => exact hold
      | _ => trivial

end Tell

end LibChan
