import LibChan.Ring.Fifo

/-!
# What a failed ring operation says

A ring operation that moves nothing has loaded its own head and the opposite tail at two different
instants and compared them. `TimedRing` adds to the machine the number of positions reserved when the
current call of each thread began, so that a run can be required to stay below `2 ^ 32` reservations
during any one call (`TimedRing.Brief`).

An empty verdict is right: when the consumer loads the producer tail, every committed element has been
reserved by a consumer. A full verdict is right if the consumer tail has not passed the head that the
producer loaded before it (`RingInv.full_of_none`), and can be wrong otherwise.
-/

set_option autoImplicit false

namespace LibChan

variable {T ω β : Type}

/-! ## Timely accesses -/

/-- A thread that has loaded its head loads the opposite tail and performs its CAS before the cursors
it compares with have moved on by `2 ^ 32` positions. -/
def RingGhost.Timely (g : RingGhost T ω β) (t : T) : RingPc ω β → Prop
  | .loadOpp op _ => g.committed op.side.other < g.mark t + 2 ^ 32
  | .cas op _ _ => g.Fresh t op.side
  | _ => True

instance (g : RingGhost T ω β) (t : T) : DecidablePred (g.Timely t)
  | .loadOpp op _ => inferInstanceAs (Decidable (g.committed op.side.other < g.mark t + 2 ^ 32))
  | .cas op _ _ => inferInstanceAs (Decidable (g.reserved op.side - g.mark t < 2 ^ 32))
  | .loadHead _ => .isTrue trivial
  | .copy _ _ _ _ _ => .isTrue trivial
  | .wait _ _ _ _ => .isTrue trivial
  | .store _ _ _ _ => .isTrue trivial

theorem RingGhost.Timely.casFresh {g : RingGhost T ω β} {t : T} {p : RingPc ω β}
    (h : g.Timely t p) : g.CasFresh t p := by
  cases p with
  | cas op a k => exact h
  | _ => trivial

/-- The number of positions ever reserved on the two halves. -/
def RingGhost.total (g : RingGhost T ω β) : Nat := g.reserved .send + g.reserved .recv

/-- The places between the head load and the CAS. -/
def RingPc.Checking : RingPc ω β → Prop
  | .loadOpp _ _ => True
  | .cas _ _ _ => True
  | _ => False

section Bounds

variable {cap : RingCap} {g : RingGhost T ω β} {t : T} {p : RingPc ω β} {b : Nat}

/-- A head load bounds what has been reserved before it. -/
theorem Ordered.total_le (h : Ordered cap g) (o : ChanOp) : g.total ≤ 2 * g.reserved o + cap.size := by
  have h1 := h.cons_le
  have h2 := h.cons_le_prod
  have h3 := h.prod_le
  have h4 := h.prod_le_cap
  rw [RingGhost.total]
  cases o <;> omega

/-- Fewer than `2 ^ 32` reservations since a point before the head load keep the accesses of the thread
timely: the two halves never differ by more than the capacity, so neither can have advanced by `2 ^ 32`
alone. -/
theorem Ordered.timely (h : Ordered cap g) (hb : p.Checking → b ≤ 2 * g.mark t + cap.size)
    (hlt : g.total < b + 2 ^ 32) : g.Timely t p := by
  have h1 := h.cons_le
  have h2 := h.cons_le_prod
  have h3 := h.prod_le
  have h4 := h.prod_le_cap
  have hcap := cap.size_le
  rw [RingGhost.total] at hlt
  cases p with
  | loadOpp op a =>
    have hb := hb trivial
    show g.committed op.side.other < g.mark t + 2 ^ 32
    cases op.side
    · show g.committed .recv < _
      omega
    · show g.committed .send < _
      omega
  | cas op a k =>
    have hb := hb trivial
    show g.reserved op.side - g.mark t < 2 ^ 32
    cases op.side <;> omega
  | _ => trivial

end Bounds

/-! ## The two verdicts -/

section Verdicts

variable {cap : RingCap} {r : Ring β} {g : RingGhost T ω β} {pc : T → Option (RingPc ω β)} {t : T}
  {op : RingOp ω β} {h : U32}

/-- The check of a consumer fails only on equal words. -/
theorem RingOp.isSome_reserve (cap : RingCap) {a b : U32} (hside : op.side = .recv) (hne : b ≠ a) :
    (op.reserve cap a b).isSome := by
  cases op with
  | pop w =>
    rw [RingOp.reserve, if_neg hne]
    rfl
  | dequeueBurst ws =>
    have hdiff : b - a ≠ 0 := by
      intro hzero
      exact hne (by bv_omega)
    simp only [RingOp.reserve, if_neg hdiff, Option.isSome_some]
  | push w x => cases hside
  | enqueueBurst xs => cases hside

/-- A consumer whose check fails has loaded the producer tail at an instant at which the ring was
empty. -/
theorem RingInv.empty_of_none (hinv : RingInv cap r g pc) (ht : pc t = some (.loadOpp op h))
    (hside : op.side = .recv) (htime : g.Timely t (.loadOpp op h))
    (hnone : op.reserve cap h (r.cur op.side.other).tail = none) :
    g.committed .send = g.reserved .recv := by
  obtain ⟨-, hh, hle⟩ := hinv.thread t _ ht
  have hord := hinv.ordered.cons_le_prod
  have htime' : g.committed op.side.other < g.mark t + 2 ^ 32 := htime
  rw [hside] at hle htime' hnone
  rw [ChanOp.other_recv, hinv.tail_eq, hh] at hnone
  have heq : BitVec.ofNat 32 (g.committed .send) = BitVec.ofNat 32 (g.mark t) := by
    by_contra hne
    have hsome := RingOp.isSome_reserve cap hside hne
    rw [hnone] at hsome
    cases hsome
  have := Wrap.ofNat_inj_of_window (by omega) (by rw [ChanOp.other_recv] at htime'; omega) heq
  omega

/-- An operation that returns without having moved anything has just failed its check. -/
theorem RingInv.check_of_moved (hinv : RingInv cap r g pc) {p : RingPc ω β} (ht : pc t = some p)
    {weak : Bool} {res : RingRes β} (hres : (r.step cap weak p).2 = .inr res) (hzero : res.moved = 0) :
    ∃ op h, p = .loadOpp op h ∧ op.reserve cap h (r.cur op.side.other).tail = none := by
  have hp := hinv.thread t p ht
  cases p with
  | loadOpp op h =>
    refine ⟨op, h, rfl, ?_⟩
    cases hreserve : op.reserve cap h (r.cur op.side.other).tail with
    | none => rfl
    | some k =>
      simp only [Ring.step, hreserve] at hres
      cases hres
  | store op h k acc =>
    cases hres
    exact absurd hzero hp.2.1.pos.ne'
  | loadHead op => cases hres
  | cas op h k =>
    simp only [Ring.step] at hres
    split at hres <;> cases hres
  | copy op h k i acc =>
    simp only [Ring.step] at hres
    split at hres <;> cases hres
  | wait op h k acc =>
    simp only [Ring.step] at hres
    split at hres <;> cases hres

/-- A consumer that returns without an element has seen the ring empty. -/
theorem RingInv.empty_of_moved (hinv : RingInv cap r g pc) {p : RingPc ω β} (ht : pc t = some p)
    (hside : p.op.side = .recv) (htime : g.Timely t p) {weak : Bool} {res : RingRes β}
    (hres : (r.step cap weak p).2 = .inr res) (hzero : res.moved = 0) :
    g.committed .send = g.reserved .recv := by
  obtain ⟨op, h, rfl, hnone⟩ := hinv.check_of_moved ht hres hzero
  exact hinv.empty_of_none ht hside htime hnone

/-- A producer whose check fails has found the ring full, if the consumer tail it has loaded has not
passed the head it loaded before. -/
theorem RingInv.full_of_none (hinv : RingInv cap r g pc) (ht : pc t = some (.loadOpp op h))
    (hside : op.side = .send) (hbehind : g.committed .recv ≤ g.mark t)
    (hnone : op.reserve cap h (r.cur op.side.other).tail = none) :
    g.reserved .send = g.committed .recv + cap.size := by
  obtain ⟨hv, hh, hle⟩ := hinv.thread t _ ht
  have hroom := hinv.ordered.prod_le_cap
  rw [hside] at hle hnone
  rw [ChanOp.other_send, hinv.tail_eq, hh, RingOp.reserve_send hside hv hbehind (by omega)] at hnone
  by_cases hfull : g.mark t = g.committed .recv + cap.size
  · omega
  · rw [if_neg hfull] at hnone
    cases hnone

end Verdicts

/-! ## One access and the history -/

theorem Extends.refl (g : RingGhost T ω β) : Extends g g :=
  ⟨⟨[], (List.append_nil _).symm⟩, ⟨[], (List.append_nil _).symm⟩, fun _ => le_rfl⟩

theorem Extends.total_le {g g' : RingGhost T ω β} (h : Extends g g') : g.total ≤ g'.total :=
  Nat.add_le_add (h.reserved_le .send) (h.reserved_le .recv)

section History

variable [DecidableEq T] (g : RingGhost T ω β) (cap : RingCap) (r : Ring β) (t : T) (weak : Bool)
  (p : RingPc ω β)

/-- The history only grows. -/
theorem extends_step : Extends g (g.step cap r t weak p) := by
  have hrefl := Extends.refl g
  cases p with
  | cas op h k =>
    rw [RingGhost.step]
    split
    · exact extends_reserve g t op k.toNat
    · exact hrefl
  | copy op h k i acc =>
    rw [RingGhost.step]
    split
    · exact hrefl
    · exact ⟨hrefl.log, hrefl.takers, hrefl.committed⟩
  | store op h k acc =>
    refine ⟨hrefl.log, hrefl.takers, fun o => ?_⟩
    show g.committed o ≤ (g.commit op.side k.toNat).committed o
    by_cases ho : o = op.side
    · rw [ho, g.committed_commit_self]
      omega
    · rw [g.committed_commit_of_ne ho]
  | loadHead op => exact ⟨hrefl.log, hrefl.takers, hrefl.committed⟩
  | loadOpp op h => exact hrefl
  | wait op h k acc => exact hrefl

/-- The head load of another thread is not touched. -/
theorem mark_step_of_ne {u : T} (hu : u ≠ t) : (g.step cap r t weak p).mark u = g.mark u := by
  cases p with
  | cas op h k =>
    rw [RingGhost.step]
    split
    · rw [mark_reserve, Function.update_of_ne hu]
    · rfl
  | copy op h k i acc =>
    rw [RingGhost.step]
    split <;> rfl
  | loadHead op => exact g.mark_setMark_of_ne hu _
  | _ => rfl

/-- An access moves the cursors of its own half only. -/
theorem cursors_step_of_side {o : ChanOp} (ho : p.op.side ≠ o) :
    (g.step cap r t weak p).reserved o = g.reserved o ∧
      (g.step cap r t weak p).committed o = g.committed o := by
  cases p with
  | cas op h k =>
    rw [RingGhost.step]
    split
    · refine ⟨?_, by rw [committed_reserve]⟩
      have ho : op.side ≠ o := ho
      rw [RingGhost.reserve]
      cases o <;> split <;> first | rfl | (rename_i hside; exact absurd hside ho)
    · exact ⟨rfl, rfl⟩
  | copy op h k i acc =>
    rw [RingGhost.step]
    split
    · exact ⟨rfl, rfl⟩
    · exact ⟨by cases o <;> rfl, rfl⟩
  | store op h k acc =>
    exact ⟨by cases o <;> rfl, g.committed_commit_of_ne (fun h => ho h.symm) _⟩
  | loadHead op => exact ⟨by cases o <;> rfl, rfl⟩
  | loadOpp op h => exact ⟨rfl, rfl⟩
  | wait op h k acc => exact ⟨rfl, rfl⟩

/-- An operation that has reserved nothing after an access had reserved nothing before it, and the access
has moved no cursor. -/
theorem cursors_step_of_run {p' : RingPc ω β} (hp : (r.step cap weak p).2 = .inl p')
    (hrun : p'.run = none) : p.run = none ∧
      ∀ o, (g.step cap r t weak p).reserved o = g.reserved o ∧
        (g.step cap r t weak p).committed o = g.committed o := by
  cases p with
  | loadHead op => exact ⟨rfl, fun o => ⟨by cases o <;> rfl, rfl⟩⟩
  | loadOpp op h => exact ⟨rfl, fun o => ⟨rfl, rfl⟩⟩
  | cas op h k =>
    simp only [Ring.step] at hp
    split at hp
    · cases hp
      cases hrun
    · next hlose =>
      refine ⟨rfl, fun o => ?_⟩
      rw [RingGhost.step, if_neg hlose]
      exact ⟨rfl, rfl⟩
  | copy op h k i acc =>
    simp only [Ring.step] at hp
    split at hp <;> (cases hp; cases hrun)
  | wait op h k acc =>
    simp only [Ring.step] at hp
    split at hp <;> (cases hp; cases hrun)
  | store op h k acc => cases hp

/-- A thread between its head load and its CAS has just loaded its head, or it was there before. -/
theorem checking_step {p' : RingPc ω β} (hp : (r.step cap weak p).2 = .inl p') (hc : p'.Checking) :
    (∃ op, p = .loadHead op ∧ (g.step cap r t weak p).mark t = g.reserved op.side) ∨
      p.Checking ∧ (g.step cap r t weak p).mark t = g.mark t := by
  cases p with
  | loadHead op => exact Or.inl ⟨op, rfl, g.mark_setMark_self ..⟩
  | loadOpp op h => exact Or.inr ⟨trivial, rfl⟩
  | cas op h k =>
    simp only [Ring.step] at hp
    split at hp <;> (cases hp; cases hc)
  | copy op h k i acc =>
    simp only [Ring.step] at hp
    split at hp <;> (cases hp; cases hc)
  | wait op h k acc =>
    simp only [Ring.step] at hp
    split at hp <;> (cases hp; cases hc)
  | store op h k acc => cases hp

end History

/-! ## Calls of bounded duration -/

/-- The shared ring, and for each thread the number of positions reserved when its call began. -/
structure TimedRing (T ω β : Type) where
  sys : RingSys T ω β
  began : T → Nat

namespace TimedRing

variable [DecidableEq T]

/-- A new ring with no thread inside. -/
def init (slots : U32 → β) : TimedRing T ω β := ⟨RingSys.init slots, fun _ => 0⟩

/-- One step of the shared ring. -/
def step (cap : RingCap) (s : TimedRing T ω β) (l : RingLabel T ω β) : Option (TimedRing T ω β) :=
  (s.sys.step cap l).map fun sys' => ⟨sys', match l with
    | .start t _ => Function.update s.began t s.sys.hist.total
    | .access _ _ => s.began⟩

/-- Fewer than `2 ^ 32` positions have been reserved since the call of the thread that moves began. -/
def Brief (s : TimedRing T ω β) : RingLabel T ω β → Prop
  | .start _ _ => True
  | .access t _ => s.sys.hist.total < s.began t + 2 ^ 32

instance (s : TimedRing T ω β) : DecidablePred s.Brief
  | .start _ _ => .isTrue trivial
  | .access t _ => inferInstanceAs (Decidable (s.sys.hist.total < s.began t + 2 ^ 32))

/-- The number of elements moved by an operation that ends with the next access of `t`. -/
def verdict (cap : RingCap) (s : TimedRing T ω β) (t : T) (weak : Bool) : Option Nat :=
  (s.sys.pc t).bind fun p => (s.sys.ring.step cap weak p).2.getRight?.map RingRes.moved

end TimedRing

/-- The ring is sound, and the calls in progress began before their head loads. -/
structure TimedInv (cap : RingCap) (s : TimedRing T ω β) : Prop where
  ring : RingInv cap s.sys.ring s.sys.hist s.sys.pc ∧ CopyInv s.sys.hist
  began : ∀ t p, s.sys.pc t = some p → s.began t ≤ s.sys.hist.total ∧
    (p.Checking → s.began t ≤ 2 * s.sys.hist.mark t + cap.size)

section Run

variable {cap : RingCap} {s s' : TimedRing T ω β} {t : T} {p : RingPc ω β}

theorem TimedInv.init (cap : RingCap) (slots : U32 → β) :
    TimedInv cap (TimedRing.init slots : TimedRing T ω β) where
  ring := ⟨.init cap slots, .init⟩
  began _ _ h := by cases h

theorem TimedInv.timely (h : TimedInv cap s) (ht : s.sys.pc t = some p) {weak : Bool}
    (hbrief : s.Brief (.access t weak)) : s.sys.hist.Timely t p :=
  h.ring.1.ordered.timely (h.began t p ht).2 hbrief

theorem TimedInv.casFresh (h : TimedInv cap s) {l : RingLabel T ω β} (hbrief : s.Brief l) :
    s.sys.CasFresh l := by
  cases l with
  | start t op => trivial
  | access t weak => exact fun p hp => (h.timely hp hbrief).casFresh

theorem TimedRing.returns_of_verdict {weak : Bool} {n : Nat} (hpc : s.sys.pc t = some p)
    (hverdict : s.verdict cap t weak = some n) :
    ∃ res, (s.sys.ring.step cap weak p).2 = .inr res ∧ res.moved = n := by
  rw [TimedRing.verdict, hpc, Option.bind_some, Option.map_eq_some_iff] at hverdict
  obtain ⟨res, hres, hmoved⟩ := hverdict
  exact ⟨res, Sum.getRight?_eq_some_iff.1 hres, hmoved⟩

variable [DecidableEq T]

theorem TimedInv.step (h : TimedInv cap s) {l : RingLabel T ω β} (hbrief : s.Brief l)
    (hstep : s.step cap l = some s') : TimedInv cap s' := by
  obtain ⟨sys', hsys, rfl⟩ := Option.map_eq_some_iff.1 hstep
  refine ⟨RingSys.inv_step h.ring (h.casFresh hbrief) hsys, fun u q hq => ?_⟩
  cases l with
  | start t op =>
    rw [RingSys.step] at hsys
    split at hsys
    · cases hsys
    · obtain ⟨-, hsys⟩ := Option.ite_none_right_eq_some.1 hsys
      cases hsys
      dsimp only at hq ⊢
      by_cases hu : u = t
      · subst hu
        rw [Function.update_self] at hq
        cases hq
        rw [Function.update_self]
        exact ⟨le_rfl, fun hc => hc.elim⟩
      · rw [Function.update_of_ne hu] at hq ⊢
        exact h.began u q hq
  | access t weak =>
    rw [RingSys.step] at hsys
    split at hsys
    · cases hsys
    case h_2 p hp =>
      cases hsys
      dsimp only at hq ⊢
      have htotal := (extends_step s.sys.hist cap s.sys.ring t weak p).total_le
      by_cases hu : u = t
      · subst hu
        obtain ⟨hle, hcheck⟩ := h.began u p hp
        refine ⟨hle.trans htotal, fun hc => ?_⟩
        rw [Function.update_self, Sum.getLeft?_eq_some_iff] at hq
        rcases checking_step s.sys.hist cap s.sys.ring u weak p hq hc with ⟨op, rfl, hmark⟩ | ⟨hc', hmark⟩
        · -- the head has just been loaded
          have hbound := h.ring.1.ordered.total_le op.side
          rw [hmark]
          omega
        · rw [hmark]
          exact hcheck hc'
      · rw [Function.update_of_ne hu] at hq
        obtain ⟨hle, hcheck⟩ := h.began u q hq
        rw [mark_step_of_ne s.sys.hist cap s.sys.ring t weak p hu]
        exact ⟨hle.trans htotal, hcheck⟩

theorem TimedRing.inv_reaches {slots : U32 → β}
    (hrun : Reaches (TimedRing.step cap) TimedRing.Brief (TimedRing.init slots) s) : TimedInv cap s :=
  hrun.invariant (.init cap slots) fun _ _ _ h hbrief hstep => h.step hbrief hstep

end Run

/-- Runs with fewer than `2 ^ 32` reservations during any call: a push that returns `false` although the
consumer tail has not passed the producer head it loaded does so at an instant at which all slots are
occupied or reserved. -/
theorem failed_push_full [DecidableEq T] (cap : RingCap) (slots : U32 → β) (s : TimedRing T ω β) (t : T)
    (weak : Bool) (p : RingPc ω β) (w : ω) (x : β)
    (hrun : Reaches (TimedRing.step cap) TimedRing.Brief (TimedRing.init slots) s)
    (hpc : s.sys.pc t = some p) (hop : p.op = .push w x) (hverdict : s.verdict cap t weak = some 0)
    (hbehind : s.sys.hist.committed .recv ≤ s.sys.hist.mark t) :
    s.sys.hist.reserved .send = s.sys.hist.committed .recv + cap.size := by
  have hinv := (TimedRing.inv_reaches hrun).ring.1
  obtain ⟨res, hres, hzero⟩ := TimedRing.returns_of_verdict hpc hverdict
  obtain ⟨op, a, rfl, hnone⟩ := hinv.check_of_moved hpc hres hzero
  have hside : op.side = .send := by rw [show op = _ from hop]; rfl
  exact hinv.full_of_none hpc hside hbehind hnone

/-- A second push into a ring of one slot. -/
theorem failed_push_full_one : ∃ s : TimedRing Bool Unit Nat,
    Reaches (TimedRing.step (RingCap.ofRequest 1)) TimedRing.Brief (TimedRing.init fun _ => 0) s ∧
    s.verdict (RingCap.ofRequest 1) false false = some 0 ∧
    s.sys.hist.reserved .send = s.sys.hist.committed .recv + (RingCap.ofRequest 1).size := by
  have hrun : ∃ s : TimedRing Bool Unit Nat,
      Reaches (TimedRing.step (RingCap.ofRequest 1)) TimedRing.Brief (TimedRing.init fun _ => 0) s ∧
      (s.sys.pc false = some (.loadOpp (.push () 8) 1) ∧
        s.verdict (RingCap.ofRequest 1) false false = some 0 ∧
        s.sys.hist.committed .recv ≤ s.sys.hist.mark false) :=
    exists_reaches_of_exec
      (.start false (.push () 7) :: List.replicate 6 (.access false false) ++
        [.start false (.push () 8), .access false false])
      _ (by decide +kernel)
  obtain ⟨s, hs, hpc, hverdict, hbehind⟩ := hrun
  exact ⟨s, hs, hverdict,
    failed_push_full _ _ s false false _ () 8 hs hpc rfl hverdict hbehind⟩

/-- A ring of four slots that never holds more than one element. A producer has loaded its head; another
thread pushes and pops one element, and the consumer tail the producer loads now is ahead of the head,
so that their difference wraps and the push returns `false`. -/
theorem failed_push_never_full : ∃ s : TimedRing Bool Unit Nat,
    Reaches (TimedRing.step (RingCap.ofRequest 4))
      (fun s l => s.Brief l ∧
        s.sys.hist.reserved .send < s.sys.hist.committed .recv + (RingCap.ofRequest 4).size)
      (TimedRing.init fun _ => 0) s ∧
    (s.Brief (.access false false) ∧
      s.sys.hist.reserved .send < s.sys.hist.committed .recv + (RingCap.ofRequest 4).size) ∧
    s.sys.pc false = some (.loadOpp (.push () 7) 0) ∧
    s.verdict (RingCap.ofRequest 4) false false = some 0 :=
  exists_reaches_of_exec
    (.start false (.push () 7) :: .access false false ::
      .start true (.push () 8) :: List.replicate 6 (.access true false) ++
      .start true (.pop ()) :: List.replicate 6 (.access true false))
    _ (by decide +kernel)

end LibChan
