import LibChan.Ring.Safety

/-!
# The shared ring is a FIFO queue

Reachable states of `RingSys` meet `RingInv`. This file reads off what that says about the ring as
a queue: the uncommitted runs of each half tile the stretch between its tail and its head and the
first of them can always be committed by its own thread (`Tiles`), and the cells copied out are, in
consumer reservation order, a prefix of the values in producer reservation order (`TakesInOrder`).
-/

set_option autoImplicit false

namespace LibChan

variable {T ω β : Type}

/-! ## Copies and committed positions -/

/-- Recorded copies are the logged values of reserved positions, and every position before the
consumer tail has been copied. -/
structure CopyInv (g : RingGhost T ω β) : Prop where
  value : ∀ n x, g.copied n = some x → n < g.reserved .recv ∧ g.valueAt n = some x
  taken : ∀ n < g.committed .recv, g.copied n = g.valueAt n

theorem CopyInv.init : CopyInv (RingGhost.init : RingGhost T ω β) :=
  ⟨fun _ _ h => (Option.some_ne_none _ h.symm).elim, fun _ h => absurd h (Nat.not_lt_zero _)⟩

theorem RingGhost.lt_of_valueAt {g : RingGhost T ω β} {n : Nat} {x : β}
    (h : g.valueAt n = some x) : n < g.reserved .send := by
  obtain ⟨y, hy, -⟩ := Option.map_eq_some_iff.1 h
  exact (List.getElem?_eq_some_iff.1 hy).1

/-- Growing the history keeps the copies right as long as no position becomes committed. -/
theorem CopyInv.extend {g g' : RingGhost T ω β} (h : CopyInv g) (hext : Extends g g')
    (hcopied : g'.copied = g.copied) (hcom : g'.committed .recv = g.committed .recv)
    (hle : g.committed .recv ≤ g.reserved .send) : CopyInv g' := by
  refine ⟨fun n x hx => ?_, fun n hn => ?_⟩
  · rw [hcopied] at hx
    obtain ⟨h1, h2⟩ := h.value n x hx
    exact ⟨h1.trans_le (hext.reserved_le _),
      (hext.valueAt_eq (RingGhost.lt_of_valueAt h2)).trans h2⟩
  · rw [hcom] at hn
    rw [hcopied, h.taken n hn, hext.valueAt_eq (by omega)]

section Steps

variable {cap : RingCap} {r : Ring β} {g : RingGhost T ω β}
  {pc : T → Option (RingPc ω β)}

theorem CopyInv.read (h : CopyInv g) (hinv : RingInv cap r g pc) {t : T} {op : RingOp ω β}
    {hd k : U32} {i : Nat} {acc : List β} (ht : pc t = some (.copy op hd k i acc))
    (hs : op.side = .recv) :
    CopyInv (g.setCopied (g.mark t + i) (r.slots (op.slot cap hd k i))) := by
  obtain ⟨hv, hrun, hi, hcop⟩ := hinv.thread t _ ht
  have hord := hinv.ordered
  have hlo := hrun.lo
  have hhi := hrun.hi
  rw [hs] at hlo hhi
  have hval : some (r.slots (op.slot cap hd k i)) = g.valueAt (g.mark t + i) := by
    rw [hrun.slot_eq hord hi]
    exact hinv.slots _ (by omega) (by have := hord.cons_le_prod; omega)
  refine ⟨fun n x hx => ?_, fun n hn => ?_⟩
  · by_cases hn : n = g.mark t + i
    · subst hn
      rw [g.copied_setCopied_self] at hx
      exact ⟨show _ < g.reserved .recv by omega, hval.symm.trans hx⟩
    · rw [g.copied_setCopied_of_ne hn] at hx
      exact h.value n x hx
  · have hlt : n < g.committed .recv := hn
    exact (g.copied_setCopied_of_ne (by omega) _).trans (h.taken n hlt)

theorem CopyInv.store (h : CopyInv g) (hinv : RingInv cap r g pc) {t : T} {op : RingOp ω β}
    {hd k : U32} {acc : List β} (ht : pc t = some (.store op hd k acc)) :
    CopyInv (g.commit op.side k.toNat) := by
  obtain ⟨hv, hrun, hcop, heq⟩ := hinv.thread t _ ht
  refine ⟨h.value, fun n hn => ?_⟩
  show g.copied n = g.valueAt n
  by_cases hlt : n < g.committed .recv
  · exact h.taken n hlt
  · cases hs : op.side with
    | send =>
      rw [hs, g.committed_commit_of_ne (by decide)] at hn
      exact absurd hn hlt
    | recv =>
      rw [hs, g.committed_commit_self] at hn
      rw [hs] at heq
      have hj := (hcop.read hs (n - g.mark t) (by omega)).2
      rwa [show g.mark t + (n - g.mark t) = n by omega] at hj

/-- Every access keeps the copies right. -/
theorem CopyInv.access [DecidableEq T] (h : CopyInv g) (hinv : RingInv cap r g pc) {t : T}
    {p : RingPc ω β} (weak : Bool) (ht : pc t = some p) : CopyInv (g.step cap r t weak p) := by
  cases p with
  | loadHead op => exact ⟨h.value, h.taken⟩
  | loadOpp op hd => exact h
  | cas op hd k =>
    rw [RingGhost.step]
    split
    · refine h.extend (extends_reserve ..) (copied_reserve ..) (by rw [committed_reserve]) ?_
      have h1 := hinv.ordered.window .send
      omega
    · exact h
  | copy op hd k i acc =>
    rw [RingGhost.step]
    cases hs : op.side with
    | send => exact h
    | recv => exact h.read hinv ht hs
  | wait op hd k acc => exact h
  | store op hd k acc => exact h.store hinv ht

end Steps

/-! ## Reachable states -/

section Reachable

variable [DecidableEq T] {cap : RingCap}

theorem RingSys.inv_step {s s' : RingSys T ω β} {l : RingLabel T ω β}
    (hinv : RingInv cap s.ring s.hist s.pc ∧ CopyInv s.hist) (hok : s.CasFresh l)
    (hstep : s.step cap l = some s') : RingInv cap s'.ring s'.hist s'.pc ∧ CopyInv s'.hist := by
  cases l with
  | start t op =>
    rw [RingSys.step] at hstep
    split at hstep
    · cases hstep
    · next hpc =>
      rw [Option.ite_none_right_eq_some, Option.some.injEq] at hstep
      obtain ⟨hv, rfl⟩ := hstep
      exact ⟨hinv.1.begin hpc hv, hinv.2⟩
  | access t weak =>
    rw [RingSys.step] at hstep
    split at hstep
    · cases hstep
    · next p hpc =>
      rw [Option.some.injEq] at hstep
      subst hstep
      exact ⟨hinv.1.access weak hpc (hok p hpc), hinv.2.access hinv.1 weak hpc⟩

/-- The invariants hold in every state reached by steps whose CASes are fresh. -/
theorem RingSys.inv_reaches {slots : U32 → β} {s : RingSys T ω β}
    (hrun : Reaches (RingSys.step cap) RingSys.CasFresh (RingSys.init slots) s) :
    RingInv cap s.ring s.hist s.pc ∧ CopyInv s.hist :=
  hrun.invariant ⟨RingInv.init cap slots, CopyInv.init⟩ fun _ _ _ h hok hs =>
    RingSys.inv_step h hok hs

end Reachable

/-! ## The runs of one half -/

/-- Thread `t` holds the run of `k` positions from `a` on one half of the ring. -/
def RingSys.RunAt (s : RingSys T ω β) (o : ChanOp) (t : T) (a k : Nat) : Prop :=
  s.hist.mark t = a ∧ ∃ p, s.pc t = some p ∧ p.run = some (o, k)

/-- A step of thread `t` alone that does not lose a race. -/
def RingSys.OwnStep (t : T) (s : RingSys T ω β) (l : RingLabel T ω β) : Prop :=
  l = .access t false ∧ s.CasFresh l

/-- The uncommitted runs of one half lie between the tail and the head, every position there is in
exactly one of them, and the thread of the run at the tail can commit it on its own. -/
structure Tiles [DecidableEq T] (cap : RingCap) (s : RingSys T ω β) (o : ChanOp) : Prop where
  inside : ∀ t a k, s.RunAt o t a k →
    0 < k ∧ s.hist.committed o ≤ a ∧ a + k ≤ s.hist.reserved o
  exact : ∀ n, s.hist.committed o ≤ n → n < s.hist.reserved o →
    ∃! t, ∃ a k, s.RunAt o t a k ∧ a ≤ n ∧ n < a + k
  proceeds : s.hist.committed o < s.hist.reserved o → ∃ t k s',
    s.RunAt o t (s.hist.committed o) k ∧ Reaches (RingSys.step cap) (RingSys.OwnStep t) s s' ∧
      s'.hist.committed o = s.hist.committed o + k

/-- The cells copied out so far are the values of their positions, all positions before the consumer
tail are copied, and every initial stretch of copied positions yields a prefix of the values in
producer reservation order. -/
structure TakesInOrder (g : RingGhost T ω β) : Prop where
  copied : ∀ n x, g.copied n = some x → n < g.reserved .recv ∧ g.valueAt n = some x
  committed : ∀ n < g.committed .recv, (g.copied n).isSome
  fifo : ∀ m, (∀ n < m, (g.copied n).isSome) →
    (List.range m).filterMap g.copied <+: g.log.map Prod.snd

theorem RingSys.ownStep_of_run {s : RingSys T ω β} {t : T} {p : RingPc ω β} {x : ChanOp × Nat}
    (ht : s.pc t = some p) (hrun : p.run = some x) : RingSys.OwnStep t s (.access t false) := by
  refine ⟨rfl, fun q hq => ?_⟩
  rw [ht] at hq
  cases hq
  cases p <;> trivial

/-- Thread `t` has committed its run of `k` positions and left the ring; nothing else has changed in
the counts and in the places of the threads. -/
structure RingSys.Commits [DecidableEq T] (t : T) (o : ChanOp) (k : Nat) (s s' : RingSys T ω β) :
    Prop where
  committed : s'.hist.committed = Function.update s.hist.committed o (s.hist.committed o + k)
  reserved : s'.hist.reserved = s.hist.reserved
  pc : s'.pc = Function.update s.pc t none

section Commit

variable [DecidableEq T] {cap : RingCap} {s : RingSys T ω β} {t : T} {op : RingOp ω β} {h k : U32}
  {acc : List β}

/-- Steps of the thread before its commit do not matter. -/
theorem RingSys.Commits.of_eq {o : ChanOp} {n : Nat} {s₁ s' : RingSys T ω β} {p : Option (RingPc ω β)}
    (h : RingSys.Commits t o n s₁ s') (hcommitted : s₁.hist.committed = s.hist.committed)
    (hreserved : s₁.hist.reserved = s.hist.reserved) (hpc : s₁.pc = Function.update s.pc t p) :
    RingSys.Commits t o n s s' where
  committed := by rw [h.committed, hcommitted]
  reserved := h.reserved.trans hreserved
  pc := by rw [h.pc, hpc, Function.update_idem]

theorem RingSys.step_access (cap : RingCap) {p : RingPc ω β} (ht : s.pc t = some p) :
    s.step cap (.access t false) =
      some ⟨(s.ring.step cap false p).1, s.hist.step cap s.ring t false p,
        Function.update s.pc t (s.ring.step cap false p).2.getLeft?⟩ := by
  rw [RingSys.step, ht]

theorem RingSys.store_commits (cap : RingCap) (ht : s.pc t = some (.store op h k acc)) :
    ∃ s', Reaches (RingSys.step cap) (RingSys.OwnStep t) s s' ∧
      RingSys.Commits t op.side k.toNat s s' :=
  ⟨_, .single ⟨_, RingSys.ownStep_of_run ht rfl, RingSys.step_access cap ht⟩, rfl, rfl, rfl⟩

theorem RingSys.wait_commits (cap : RingCap) (ht : s.pc t = some (.wait op h k acc))
    (htail : (s.ring.cur op.side).tail = h) :
    ∃ s', Reaches (RingSys.step cap) (RingSys.OwnStep t) s s' ∧
      RingSys.Commits t op.side k.toNat s s' := by
  have hstep := RingSys.step_access cap ht
  simp only [Ring.step, RingGhost.step, if_pos htail] at hstep
  obtain ⟨s', hs', hc⟩ := RingSys.store_commits cap
    (s := ⟨s.ring, s.hist, Function.update s.pc t (some (.store op h k acc))⟩)
    (Function.update_self ..)
  exact ⟨s', .head ⟨_, RingSys.ownStep_of_run ht rfl, hstep⟩ hs', hc.of_eq rfl rfl rfl⟩

theorem counts_step_copy (g : RingGhost T ω β) (cap : RingCap) (r : Ring β) (t : T)
    (op : RingOp ω β) (h k : U32) (i : Nat) (acc : List β) :
    (g.step cap r t false (.copy op h k i acc)).committed = g.committed ∧
      (g.step cap r t false (.copy op h k i acc)).reserved = g.reserved := by
  rw [RingGhost.step]
  split <;> exact ⟨rfl, rfl⟩

/-- The thread of the run at the tail commits it by its own steps: the rest of its copies, one look
at the tail, and the store. -/
theorem RingSys.copy_commits (cap : RingCap) {s : RingSys T ω β} {i : Nat} {acc : List β}
    (ht : s.pc t = some (.copy op h k i acc)) (htail : (s.ring.cur op.side).tail = h) :
    ∃ s', Reaches (RingSys.step cap) (RingSys.OwnStep t) s s' ∧
      RingSys.Commits t op.side k.toNat s s' := by
  have hstep := RingSys.step_access cap ht
  have hcur := Ring.copyElem_cur cap s.ring op h k i acc
  obtain ⟨hcommitted, hreserved⟩ := counts_step_copy s.hist cap s.ring t op h k i acc
  simp only [Ring.step] at hstep
  by_cases hmore : i + 1 < k.toNat
  · rw [if_pos hmore] at hstep
    obtain ⟨s', hs', hc⟩ := RingSys.copy_commits cap
      (s := ⟨(s.ring.copyElem cap op h k i acc).1,
        s.hist.step cap s.ring t false (.copy op h k i acc),
        Function.update s.pc t (some (.copy op h k (i + 1) (s.ring.copyElem cap op h k i acc).2))⟩)
      (Function.update_self ..) (by rw [hcur]; exact htail)
    exact ⟨s', .head ⟨_, RingSys.ownStep_of_run ht rfl, hstep⟩ hs',
      hc.of_eq hcommitted hreserved rfl⟩
  · rw [if_neg hmore] at hstep
    obtain ⟨s', hs', hc⟩ := RingSys.wait_commits cap
      (s := ⟨(s.ring.copyElem cap op h k i acc).1,
        s.hist.step cap s.ring t false (.copy op h k i acc),
        Function.update s.pc t (some (.wait op h k (s.ring.copyElem cap op h k i acc).2))⟩)
      (Function.update_self ..) (by rw [hcur]; exact htail)
    exact ⟨s', .head ⟨_, RingSys.ownStep_of_run ht rfl, hstep⟩ hs',
      hc.of_eq hcommitted hreserved rfl⟩
termination_by k.toNat - i

/-- Whatever its place, the thread of the run at the tail can commit it. -/
theorem RingInv.run_commits (hinv : RingInv cap s.ring s.hist s.pc) {p : RingPc ω β} {o : ChanOp}
    {n : Nat} (ht : s.pc t = some p) (hrun : p.run = some (o, n))
    (hmark : s.hist.mark t = s.hist.committed o) :
    ∃ s', Reaches (RingSys.step cap) (RingSys.OwnStep t) s s' ∧ RingSys.Commits t o n s s' := by
  have hp := hinv.thread t p ht
  cases p with
  | copy op h k i acc =>
    cases hrun
    exact RingSys.copy_commits cap ht ((hinv.turn hp.2.1).2 hmark)
  | wait op h k acc =>
    cases hrun
    exact RingSys.wait_commits cap ht ((hinv.turn hp.2.1).2 hmark)
  | store op h k acc =>
    cases hrun
    exact RingSys.store_commits cap ht
  | loadHead op => cases hrun
  | loadOpp op h => cases hrun
  | cas op h k => cases hrun

end Commit

/-! ## The ring as a queue -/

theorem RingInv.tiles [DecidableEq T] {cap : RingCap} {s : RingSys T ω β}
    (hinv : RingInv cap s.ring s.hist s.pc) (o : ChanOp) : Tiles cap s o := by
  refine ⟨?_, ?_, ?_⟩
  · rintro t a k ⟨rfl, p, hp, hrun⟩
    obtain ⟨h1, h2, h3⟩ := (hinv.thread t p hp).of_run hrun
    exact ⟨h3, h1, h2⟩
  · intro n hlo hhi
    obtain ⟨t, p, k, hp, hrun, h1, h2⟩ := hinv.covers o n hlo hhi
    refine ⟨t, ⟨_, k, ⟨rfl, p, hp, hrun⟩, h1, h2⟩, ?_⟩
    rintro u ⟨a, l, ⟨rfl, q, hq, hrun'⟩, h3, h4⟩
    by_contra hut
    rcases hinv.disjoint u t q p o l k hut hq hp hrun' hrun with h | h <;> omega
  · intro hlt
    obtain ⟨t, p, k, hp, hrun, h1, h2⟩ := hinv.covers o _ le_rfl hlt
    have hmark : s.hist.mark t = s.hist.committed o :=
      le_antisymm h1 ((hinv.thread t p hp).of_run hrun).1
    obtain ⟨s', hs', hc⟩ := hinv.run_commits hp hrun hmark
    exact ⟨t, k, s', ⟨hmark, p, hp, hrun⟩, hs', by rw [hc.committed, Function.update_self]⟩

theorem filterMap_range_eq_take {γ : Type} (f : Nat → Option γ) (l : List γ) :
    ∀ m ≤ l.length, (∀ n < m, f n = l[n]?) → (List.range m).filterMap f = l.take m := by
  intro m
  induction m with
  | zero => intro _ _; rfl
  | succ m ih =>
    intro hm hf
    rw [List.range_succ, List.filterMap_append, ih (by omega) fun n hn => hf n (by omega),
      List.take_succ_eq_append_getElem (by omega)]
    have hlast : f m = some l[m] := by
      rw [hf m (by omega), List.getElem?_eq_getElem]
    simp [hlast]

theorem CopyInv.takesInOrder {g : RingGhost T ω β} (h : CopyInv g)
    (hle : g.committed .recv ≤ g.reserved .send) : TakesInOrder g := by
  have hval : ∀ n, g.valueAt n = (g.log.map Prod.snd)[n]? := fun n => (List.getElem?_map ..).symm
  refine ⟨h.value, fun n hn => ?_, fun m hm => ?_⟩
  · have hlt : n < (g.log.map Prod.snd).length := by
      rw [List.length_map]
      exact hn.trans_le hle
    rw [h.taken n hn, hval, List.getElem?_eq_getElem hlt]
    rfl
  · have heq : ∀ n < m, g.copied n = (g.log.map Prod.snd)[n]? := by
      intro n hn
      obtain ⟨x, hx⟩ := Option.isSome_iff_exists.1 (hm n hn)
      rw [hx, ← hval, (h.value n x hx).2]
    have hlen : m ≤ (g.log.map Prod.snd).length := by
      rcases Nat.eq_zero_or_pos m with rfl | hpos
      · exact Nat.zero_le _
      · obtain ⟨x, hx⟩ := Option.isSome_iff_exists.1 (hm (m - 1) (by omega))
        have := RingGhost.lt_of_valueAt (h.value _ x hx).2
        rw [List.length_map]
        exact Nat.le_of_pred_lt this
    rw [filterMap_range_eq_take _ _ m hlen heq]
    exact List.take_prefix _ _

/-- A ring of power-of-two capacity shared by any threads is safe and first-in first-out in every
state reached by fresh CASes: the cursors stand for ordered counts at most one capacity apart, the
uncommitted runs tile both halves, and elements are taken in the order they were put in. -/
theorem ring_safe_fifo [DecidableEq T] (cap : RingCap) (slots : U32 → β) (s : RingSys T ω β)
    (hrun : Reaches (RingSys.step cap) RingSys.CasFresh (RingSys.init slots) s) :
    (∀ o, (s.ring.cur o).head = BitVec.ofNat 32 (s.hist.reserved o) ∧
      (s.ring.cur o).tail = BitVec.ofNat 32 (s.hist.committed o)) ∧
    Ordered cap s.hist ∧ (∀ o, Tiles cap s o) ∧ TakesInOrder s.hist := by
  obtain ⟨hinv, hcopy⟩ := RingSys.inv_reaches hrun
  refine ⟨fun o => ⟨hinv.head_eq o, hinv.tail_eq o⟩, hinv.ordered, hinv.tiles,
    hcopy.takesInOrder ?_⟩
  have := hinv.ordered.window .send
  omega

/-- Two threads on a ring of two slots: a burst of two is committed, one element is popped and a
further push has reserved its position. -/
theorem ring_safe_fifo_burst_pop : ∃ s : RingSys Bool Unit Nat,
    Reaches (RingSys.step (RingCap.ofRequest 2)) RingSys.CasFresh (RingSys.init fun _ => 0) s ∧
    (s.hist.copied 0 = some 5 ∧ s.hist.committed .recv = 1 ∧ s.hist.reserved .send = 3) ∧
    TakesInOrder s.hist := by
  have hrun : ∃ s : RingSys Bool Unit Nat,
      Reaches (RingSys.step (RingCap.ofRequest 2)) RingSys.CasFresh (RingSys.init fun _ => 0) s ∧
      (s.hist.copied 0 = some 5 ∧ s.hist.committed .recv = 1 ∧ s.hist.reserved .send = 3) :=
    exists_reaches_of_exec
      (.start false (.enqueueBurst [((), 5), ((), 6)]) :: List.replicate 7 (.access false false) ++
        .start true (.pop ()) :: List.replicate 6 (.access true false) ++
        .start false (.push () 7) :: List.replicate 3 (.access false false))
      _ (by decide +kernel)
  obtain ⟨s, hs, h⟩ := hrun
  exact ⟨s, hs, h, (ring_safe_fifo _ _ s hs).2.2.2⟩

end LibChan
