import LibChan.Ring.Fifo
import LibChan.Ring.Sequential

/-!
# Laps of the cursors

The CAS of Phase 1 compares a 32-bit cursor. When `2 ^ 32` positions have been reserved since the cursor
was loaded, it succeeds as if nothing had happened, although the check before it was made on counts of one
lap ago. `RingSys.Rest` are the states in which every reserved run is committed; from such a state a
thread can stop right before its CAS (`Rest.stop`), and any other can complete an operation alone
(`Rest.alone`). With bursts of `2 ^ 31` elements four operations take a cursor once around.

In runs without laps the counts stay in order (`reservation_safe`).
-/

set_option autoImplicit false

namespace LibChan

variable {T ω β : Type} [DecidableEq T]

/-- A state of a run without laps in which every reserved run is committed; `m` positions have been
produced and `n` consumed. -/
structure RingSys.Rest (cap : RingCap) (slots : U32 → β) (s : RingSys T ω β) (m n : Nat) : Prop where
  run : Reaches (RingSys.step cap) RingSys.CasFresh (RingSys.init slots) s
  prod : s.hist.reserved .send = m ∧ s.hist.committed .send = m
  cons : s.hist.reserved .recv = n ∧ s.hist.committed .recv = n

namespace RingSys

variable {cap : RingCap} {slots : U32 → β} {s : RingSys T ω β} {m n : Nat} {t : T} {op : RingOp ω β}
  {k : U32}

theorem Rest.init (cap : RingCap) (slots : U32 → β) :
    Rest cap slots (RingSys.init slots : RingSys T ω β) 0 0 :=
  ⟨.refl, ⟨rfl, rfl⟩, ⟨rfl, rfl⟩⟩

/-- One more access at the end of a run without laps. -/
theorem reaches_access {p : RingPc ω β}
    (hrun : Reaches (RingSys.step cap) RingSys.CasFresh (RingSys.init slots) s)
    (ht : s.pc t = some p) (hok : s.hist.CasFresh t p) :
    Reaches (RingSys.step cap) RingSys.CasFresh (RingSys.init slots)
      ⟨(s.ring.step cap false p).1, s.hist.step cap s.ring t false p,
        Function.update s.pc t (s.ring.step cap false p).2.getLeft?⟩ := by
  refine hrun.tail ⟨.access t false, fun q hq => ?_, step_access cap ht⟩
  rw [ht] at hq
  cases hq
  exact hok

theorem Rest.words (h : Rest cap slots s m n) :
    ((s.ring.cur .send).head = BitVec.ofNat 32 m ∧ (s.ring.cur .send).tail = BitVec.ofNat 32 m) ∧
      (s.ring.cur .recv).head = BitVec.ofNat 32 n ∧ (s.ring.cur .recv).tail = BitVec.ofNat 32 n := by
  have hinv := (inv_reaches h.run).1
  refine ⟨⟨?_, ?_⟩, ?_, ?_⟩
  · rw [hinv.head_eq, h.prod.1]
  · rw [hinv.tail_eq, h.prod.2]
  · rw [hinv.head_eq, h.cons.1]
  · rw [hinv.tail_eq, h.cons.2]

/-- A thread starts an operation and stops before its CAS. -/
theorem Rest.stop (h : Rest cap slots s m n) (ht : s.pc t = none) (hv : op.Valid)
    (hres : op.reserve cap (s.ring.cur op.side).head (s.ring.cur op.side.other).tail = some k) :
    ∃ s', Rest cap slots s' m n ∧ s'.ring = s.ring ∧ s'.hist.mark t = s.hist.reserved op.side ∧
      s'.pc = Function.update s.pc t (some (.cas op (s.ring.cur op.side).head k)) := by
  have hstart : Reaches (RingSys.step cap) RingSys.CasFresh (RingSys.init slots)
      { s with pc := Function.update s.pc t (some (.loadHead op)) } := by
    refine h.run.tail ⟨.start t op, trivial, ?_⟩
    rw [RingSys.step, ht]
    exact if_pos hv
  have hload := reaches_access hstart (Function.update_self ..) trivial
  have hopp := reaches_access hload (Function.update_self ..) trivial
  simp only [Ring.step, Sum.getLeft?_inl, hres, Function.update_idem, RingGhost.step] at hopp
  exact ⟨_, ⟨hopp, h.prod, h.cons⟩, rfl, RingGhost.mark_setMark_self .., rfl⟩

/-- A thread completes an operation while nobody else moves. -/
theorem Rest.alone (h : Rest cap slots s m n) (ht : s.pc t = none) (hv : op.Valid)
    (hres : op.reserve cap (s.ring.cur op.side).head (s.ring.cur op.side.other).tail = some k)
    (hk : k.toNat ≤ op.want) :
    ∃ s', Rest cap slots s' (m + if op.side = .send then k.toNat else 0)
        (n + if op.side = .recv then k.toNat else 0) ∧ s'.pc = s.pc := by
  obtain ⟨s₁, hrest, hring, hmark, hpc⟩ := h.stop ht hv hres
  have hcounts : s₁.hist.reserved = s.hist.reserved ∧ s₁.hist.committed = s.hist.committed := by
    constructor
    · funext o
      cases o
      · exact hrest.prod.1.trans h.prod.1.symm
      · exact hrest.cons.1.trans h.cons.1.symm
    · funext o
      cases o
      · exact hrest.prod.2.trans h.prod.2.symm
      · exact hrest.cons.2.trans h.cons.2.symm
  have ht₁ : s₁.pc t = some (.cas op (s₁.ring.cur op.side).head k) := by
    rw [hpc, Function.update_self, hring]
  have hfresh : s₁.hist.CasFresh t (.cas op (s₁.ring.cur op.side).head k) := by
    show s₁.hist.reserved op.side - s₁.hist.mark t < 2 ^ 32
    rw [hmark, hcounts.1, Nat.sub_self]
    decide
  have hcas := reaches_access hrest.run ht₁ hfresh
  simp only [Ring.step, RingGhost.step, and_self, if_true, Sum.getLeft?_inl] at hcas
  -- every run is committed, so it is the thread's turn at once
  have htail : ((s₁.ring.setHead op.side ((s₁.ring.cur op.side).head + k)).cur op.side).tail =
      (s₁.ring.cur op.side).head := by
    have hinv := (inv_reaches hrest.run).1
    show (Function.update s₁.ring.cur op.side _ op.side).tail = _
    rw [Function.update_self]
    show (s₁.ring.cur op.side).tail = _
    rw [hinv.head_eq, hinv.tail_eq]
    cases op.side
    · rw [hrest.prod.1, hrest.prod.2]
    · rw [hrest.cons.1, hrest.cons.2]
  obtain ⟨s₂, hcommit, hc⟩ := copy_commits cap
    (s := ⟨s₁.ring.setHead op.side ((s₁.ring.cur op.side).head + k), s₁.hist.reserve t op k.toNat,
      Function.update s₁.pc t (some (.copy op (s₁.ring.cur op.side).head k 0 []))⟩)
    (Function.update_self ..) htail
  have hres' : ∀ o, s₂.hist.reserved o = s.hist.reserved o + if op.side = o then k.toNat else 0 := by
    intro o
    rw [hc.reserved, reserved_reserve _ _ hk, hcounts.1]
    simp only [eq_comm]
  have hcom' : ∀ o, s₂.hist.committed o = s.hist.committed o + if op.side = o then k.toNat else 0 := by
    intro o
    rw [hc.committed, committed_reserve, hcounts.2]
    by_cases ho : op.side = o
    · rw [← ho, Function.update_self, if_pos rfl]
    · rw [Function.update_of_ne (Ne.symm ho), if_neg ho, Nat.add_zero]
  refine ⟨s₂, ⟨hcas.trans (hcommit.mono fun _ _ hok => hok.2), ?_, ?_⟩, ?_⟩
  · rw [hres', hcom', h.prod.1, h.prod.2]
    exact ⟨rfl, rfl⟩
  · rw [hres', hcom', h.cons.1, h.cons.2]
    exact ⟨rfl, rfl⟩
  · rw [hc.pc, hpc, Function.update_idem, Function.update_idem, ← ht, Function.update_eq_self]

/-- A burst push that fits, run alone. -/
theorem Rest.enqueue (h : Rest cap slots s m n) (ht : s.pc t = none) {xs : List (ω × β)} {d : Nat}
    (hlen : xs.length = d) (hpos : 0 < d) (hlt : d < 2 ^ 32) (hroom : m + d ≤ n + cap.size) :
    ∃ s', Rest cap slots s' (m + d) n ∧ s'.pc = s.pc := by
  have hord := (inv_reaches h.run).1.ordered.window .send
  rw [h.prod.1, h.prod.2, h.cons.2] at hord
  have hv : (RingOp.enqueueBurst xs).Valid := ⟨hpos.trans_eq hlen.symm, hlen.trans_lt hlt⟩
  have hres : (RingOp.enqueueBurst xs).reserve cap (s.ring.cur .send).head (s.ring.cur .recv).tail =
      some (BitVec.ofNat 32 d) := by
    rw [h.words.1.1, h.words.2.2, RingOp.reserve_send rfl hv hord.1 hord.2.2, if_neg (by omega),
      RingOp.want, hlen, Nat.min_eq_left (by omega)]
  have hk : (BitVec.ofNat 32 d).toNat = d := by rw [BitVec.toNat_ofNat, Nat.mod_eq_of_lt hlt]
  obtain ⟨s', hrest, hpc⟩ := h.alone ht hv hres (hk.trans hlen.symm).le
  rw [hk] at hrest
  exact ⟨s', hrest, hpc⟩

/-- A burst pop of elements that are there, run alone. -/
theorem Rest.dequeue (h : Rest cap slots s m n) (ht : s.pc t = none) {ws : List ω} {d : Nat}
    (hlen : ws.length = d) (hpos : 0 < d) (hlt : d < 2 ^ 32) (hthere : n + d ≤ m) :
    ∃ s', Rest cap slots s' m (n + d) ∧ s'.pc = s.pc := by
  have hord := (inv_reaches h.run).1.ordered.window .send
  rw [h.prod.1, h.prod.2, h.cons.2] at hord
  have hv : (RingOp.dequeueBurst ws : RingOp ω β).Valid := ⟨hpos.trans_eq hlen.symm, hlen.trans_lt hlt⟩
  have hres : (RingOp.dequeueBurst ws : RingOp ω β).reserve cap (s.ring.cur .recv).head
      (s.ring.cur .send).tail = some (BitVec.ofNat 32 d) := by
    rw [h.words.2.1, h.words.1.2, RingOp.reserve_recv rfl hv hord.1 hord.2.2, if_neg (by omega),
      RingOp.want, hlen, Nat.min_eq_left (by omega)]
  have hk : (BitVec.ofNat 32 d).toNat = d := by rw [BitVec.toNat_ofNat, Nat.mod_eq_of_lt hlt]
  obtain ⟨s', hrest, hpc⟩ := h.alone ht hv hres (hk.trans hlen.symm).le
  rw [hk] at hrest
  exact ⟨s', hrest, hpc⟩

/-- A CAS that compares with the cursor it finds succeeds. -/
theorem exists_cas (cap : RingCap) (ht : s.pc t = some (.cas op (s.ring.cur op.side).head k))
    (hk : k.toNat ≤ op.want) : ∃ s', s.step cap (.access t false) = some s' ∧
      (∀ o, s'.hist.reserved o = s.hist.reserved o + if o = op.side then k.toNat else 0) ∧
      s'.hist.committed = s.hist.committed := by
  have hstep := step_access cap ht
  simp only [Ring.step, RingGhost.step, and_self, if_true, Sum.getLeft?_inl] at hstep
  exact ⟨_, hstep, reserved_reserve s.hist t hk, committed_reserve ..⟩

end RingSys

/-- In every run in which no thread performs its CAS `2 ^ 32` or more reservations after its head load,
a reservation never takes more slots than there are, and consumers only reserve positions that
producers have committed. -/
theorem reservation_safe (cap : RingCap) (slots : U32 → β) (s : RingSys T ω β)
    (hrun : Reaches (RingSys.step cap) RingSys.CasFresh (RingSys.init slots) s) :
    s.hist.reserved .send ≤ s.hist.committed .recv + cap.size ∧
      s.hist.reserved .recv ≤ s.hist.committed .send :=
  have hord := (RingSys.inv_reaches hrun).1.ordered
  ⟨hord.prod_le_cap, hord.cons_le_prod⟩

/-- A burst of two fills a ring of two. -/
theorem reservation_safe_full : ∃ s : RingSys Bool Unit Nat,
    Reaches (RingSys.step (RingCap.ofRequest 2)) RingSys.CasFresh (RingSys.init fun _ => 0) s ∧
    s.hist.reserved .send = 2 ∧
    (s.hist.reserved .send ≤ s.hist.committed .recv + (RingCap.ofRequest 2).size ∧
      s.hist.reserved .recv ≤ s.hist.committed .send) := by
  have hrun : ∃ s : RingSys Bool Unit Nat,
      Reaches (RingSys.step (RingCap.ofRequest 2)) RingSys.CasFresh (RingSys.init fun _ => 0) s ∧
      s.hist.reserved .send = 2 :=
    exists_reaches_of_exec
      (.start false (.enqueueBurst [((), 1), ((), 2)]) :: List.replicate 3 (.access false false))
      _ (by decide +kernel)
  obtain ⟨s, hs, hfull⟩ := hrun
  exact ⟨s, hs, hfull, reservation_safe _ _ s hs⟩

/-- Two threads on the largest ring. A producer that has found the empty ring at position zero stops
before its CAS; meanwhile bursts of the other thread fill, drain and fill the ring, so that the cursor
is zero again and the CAS takes a slot that is not free. In the same way the CAS of a stopped consumer
reserves a position nobody has produced. -/
theorem reservation_unsafe_after_lap :
    (∃ (s s' : RingSys Bool Unit Nat) (h k : U32),
      Reaches (RingSys.step .largest) Always (RingSys.init fun _ => 0) s ∧
      s.pc false = some (.cas (.push () 7) h k) ∧ s.step .largest (.access false false) = some s' ∧
      s'.hist.reserved .send = s.hist.reserved .send + 1 ∧
      s'.hist.committed .recv + RingCap.largest.size < s'.hist.reserved .send) ∧
    ∃ (s s' : RingSys Bool Unit Nat) (h k : U32),
      Reaches (RingSys.step .largest) Always (RingSys.init fun _ => 0) s ∧
      s.pc false = some (.cas (.pop ()) h k) ∧ s.step .largest (.access false false) = some s' ∧
      s'.hist.reserved .recv = s.hist.reserved .recv + 1 ∧
      s'.hist.committed .send < s'.hist.reserved .recv := by
  have hsize : RingCap.largest.size = 2 ^ 31 := by decide
  have hxs : ∀ d, (List.replicate d ((), 0) : List (Unit × Nat)).length = d :=
    fun _ => List.length_replicate
  have hws : ∀ d, (List.replicate d () : List Unit).length = d := fun _ => List.length_replicate
  have h₀ := RingSys.Rest.init (T := Bool) (ω := Unit) RingCap.largest (fun _ => (0 : Nat))
  have hpush : (RingOp.push () 7 : RingOp Unit Nat).Valid := ⟨by decide, by decide⟩
  have hpop : (RingOp.pop () : RingOp Unit Nat).Valid := ⟨by decide, by decide⟩
  constructor
  · -- the producer has seen an empty ring
    obtain ⟨s₁, h₁, -, -, hpc₁⟩ := h₀.stop (t := false) (k := 1) rfl hpush (by decide)
    have hother : s₁.pc true = none := by rw [hpc₁]; rfl
    obtain ⟨s₂, h₂, hpc₂⟩ := h₁.enqueue hother (hxs (2 ^ 31)) (by decide) (by decide) (by omega)
    obtain ⟨s₃, h₃, hpc₃⟩ := h₂.dequeue (by rw [hpc₂]; exact hother) (hws (2 ^ 31)) (by decide)
      (by decide) (by decide)
    obtain ⟨s₄, h₄, hpc₄⟩ := h₃.enqueue (by rw [hpc₃, hpc₂]; exact hother) (hxs (2 ^ 31)) (by decide)
      (by decide) (by omega)
    have hhead : (s₄.ring.cur .send).head = 0 := h₄.words.1.1
    have hpc : s₄.pc false = some (.cas (.push () 7) (s₄.ring.cur .send).head 1) := by
      rw [hpc₄, hpc₃, hpc₂, hpc₁, hhead]
      rfl
    obtain ⟨s₅, hstep, hreserved, hcommitted⟩ := RingSys.exists_cas RingCap.largest hpc le_rfl
    refine ⟨s₄, s₅, _, 1, h₄.run.mono fun _ _ _ => trivial, hpc, hstep, hreserved .send, ?_⟩
    rw [hreserved, hcommitted, h₄.prod.1, h₄.cons.2, hsize]
    decide
  · -- the consumer has seen one element at position zero
    obtain ⟨s₁, h₁, hpc₁⟩ := h₀.enqueue (t := true) rfl (hxs 1) (by decide) (by decide) (by omega)
    have hhead₁ : (s₁.ring.cur .recv).head = 0 := h₁.words.2.1
    have hres : (RingOp.pop () : RingOp Unit Nat).reserve RingCap.largest (s₁.ring.cur .recv).head
        (s₁.ring.cur .send).tail = some 1 := by
      rw [hhead₁, h₁.words.1.2]
      decide
    obtain ⟨s₂, h₂, -, -, hpc₂⟩ := h₁.stop (t := false) (by rw [hpc₁]; rfl) hpop hres
    have hother : s₂.pc true = none := by
      rw [hpc₂, hpc₁]
      rfl
    obtain ⟨s₃, h₃, hpc₃⟩ := h₂.dequeue hother (hws 1) (by decide) (by decide) (by decide)
    obtain ⟨s₄, h₄, hpc₄⟩ := h₃.enqueue (by rw [hpc₃]; exact hother) (hxs (2 ^ 31)) (by decide)
      (by decide) (by omega)
    obtain ⟨s₅, h₅, hpc₅⟩ := h₄.dequeue (by rw [hpc₄, hpc₃]; exact hother) (hws (2 ^ 31)) (by decide)
      (by decide) (by decide)
    obtain ⟨s₆, h₆, hpc₆⟩ := h₅.enqueue (by rw [hpc₅, hpc₄, hpc₃]; exact hother) (hxs (2 ^ 31 - 1))
      (by decide) (by decide) (by omega)
    obtain ⟨s₇, h₇, hpc₇⟩ := h₆.dequeue (by rw [hpc₆, hpc₅, hpc₄, hpc₃]; exact hother)
      (hws (2 ^ 31 - 1)) (by decide) (by decide) (by decide)
    have hhead : (s₇.ring.cur .recv).head = 0 := h₇.words.2.1
    have hpc : s₇.pc false = some (.cas (.pop ()) (s₇.ring.cur .recv).head 1) := by
      rw [hpc₇, hpc₆, hpc₅, hpc₄, hpc₃, hpc₂, Function.update_self, hhead, ← hhead₁]
      rfl
    obtain ⟨s₈, hstep, hreserved, hcommitted⟩ := RingSys.exists_cas RingCap.largest hpc le_rfl
    refine ⟨s₇, s₈, _, 1, h₇.run.mono fun _ _ _ => trivial, hpc, hstep, hreserved .recv, ?_⟩
    rw [hreserved, hcommitted, h₇.prod.2, h₇.cons.1]
    decide

end LibChan
