import LibChan.Ring.Machine

/-!
# Safety of the shared ring

`RingInv` is the invariant of a ring used by any number of threads: the words of the cursors stand
for the unbounded counts, the counts are ordered and at most one capacity apart, the reserved and
uncommitted runs of each half are disjoint and cover everything between its tail and its head, and
every slot between the consumer tail and the producer tail holds the value logged for its position.
It is stated on the ring, its history and the places of the threads, so that a larger machine whose
threads run ring operations can use the same step lemma (`RingInv.access`).
-/

set_option autoImplicit false

namespace LibChan

variable {T ω β : Type}

/-! ## Runs -/

/-- The half and the length of the run a thread has reserved and not yet committed. -/
def RingPc.run : RingPc ω β → Option (ChanOp × Nat)
  | .copy op _ k _ _ => some (op.side, k.toNat)
  | .wait op _ k _ => some (op.side, k.toNat)
  | .store op _ k _ => some (op.side, k.toNat)
  | _ => none

/-- The value logged for a position. -/
def RingGhost.valueAt (g : RingGhost T ω β) (n : Nat) : Option β := (g.log[n]?).map Prod.snd

/-- A thread holds the run of `k` positions from its mark. -/
structure RunInv (g : RingGhost T ω β) (t : T) (op : RingOp ω β) (h k : U32) : Prop where
  head : h = BitVec.ofNat 32 (g.mark t)
  pos : 0 < k.toNat
  le_want : k.toNat ≤ op.want
  lo : g.committed op.side ≤ g.mark t
  hi : g.mark t + k.toNat ≤ g.reserved op.side
  data : op.side = .send → ∀ j < k.toNat, g.log[g.mark t + j]? = op.data[j]?
  tags : op.side = .recv → ∀ j < k.toNat, g.takers[g.mark t + j]? = op.tags[j]?

/-- The first `i` elements of the run have been copied. -/
structure Copied (cap : RingCap) (r : Ring β) (g : RingGhost T ω β) (t : T) (op : RingOp ω β)
    (i : Nat) (acc : List β) : Prop where
  written : op.side = .send → ∀ j < i,
    some (r.slots (Wrap.slotOf cap.size (g.mark t + j))) = g.valueAt (g.mark t + j)
  length : op.side = .recv → acc.length = i
  read : op.side = .recv → ∀ j < i, acc[j]? = g.valueAt (g.mark t + j) ∧
    g.copied (g.mark t + j) = g.valueAt (g.mark t + j)

/-- A reservation of `k` positions at the current head fits. -/
def Fits (cap : RingCap) (g : RingGhost T ω β) (op : RingOp ω β) (m k : Nat) : Prop :=
  0 < k ∧ k ≤ op.want ∧
    match op.side with
    | .send => m + k ≤ g.committed .recv + cap.size
    | .recv => m + k ≤ g.committed .send

/-- What the place of a thread says about the ring and its history. -/
def PcInv (cap : RingCap) (r : Ring β) (g : RingGhost T ω β) (t : T) : RingPc ω β → Prop
  | .loadHead op => op.Valid
  | .loadOpp op h =>
    op.Valid ∧ h = BitVec.ofNat 32 (g.mark t) ∧ g.mark t ≤ g.reserved op.side
  | .cas op h k =>
    op.Valid ∧ h = BitVec.ofNat 32 (g.mark t) ∧ g.mark t ≤ g.reserved op.side ∧
      (g.reserved op.side = g.mark t → Fits cap g op (g.mark t) k.toNat)
  | .copy op h k i acc =>
    op.Valid ∧ RunInv g t op h k ∧ i < k.toNat ∧ Copied cap r g t op i acc
  | .wait op h k acc => op.Valid ∧ RunInv g t op h k ∧ Copied cap r g t op k.toNat acc
  | .store op h k acc =>
    op.Valid ∧ RunInv g t op h k ∧ Copied cap r g t op k.toNat acc ∧
      g.mark t = g.committed op.side

/-- The counts of a ring: consumer tail, consumer head, producer tail, producer head, in order and
at most one capacity apart. -/
structure Ordered (cap : RingCap) (g : RingGhost T ω β) : Prop where
  cons_le : g.committed .recv ≤ g.reserved .recv
  cons_le_prod : g.reserved .recv ≤ g.committed .send
  prod_le : g.committed .send ≤ g.reserved .send
  prod_le_cap : g.reserved .send ≤ g.committed .recv + cap.size

/-- The invariant of a ring shared by threads. -/
structure RingInv (cap : RingCap) (r : Ring β) (g : RingGhost T ω β)
    (pc : T → Option (RingPc ω β)) : Prop where
  head_eq : ∀ o, (r.cur o).head = BitVec.ofNat 32 (g.reserved o)
  tail_eq : ∀ o, (r.cur o).tail = BitVec.ofNat 32 (g.committed o)
  ordered : Ordered cap g
  thread : ∀ t p, pc t = some p → PcInv cap r g t p
  disjoint : ∀ t u p q o k l, t ≠ u → pc t = some p → pc u = some q →
    p.run = some (o, k) → q.run = some (o, l) → g.mark t + k ≤ g.mark u ∨ g.mark u + l ≤ g.mark t
  covers : ∀ o n, g.committed o ≤ n → n < g.reserved o →
    ∃ t p k, pc t = some p ∧ p.run = some (o, k) ∧ g.mark t ≤ n ∧ n < g.mark t + k
  slots : ∀ n, g.committed .recv ≤ n → n < g.committed .send →
    some (r.slots (Wrap.slotOf cap.size n)) = g.valueAt n

/-! ## Arithmetic of Phase 1 and Phase 2 -/

theorem Ordered.window {cap : RingCap} {g : RingGhost T ω β} (h : Ordered cap g) (o : ChanOp) :
    g.committed .recv ≤ g.committed o ∧ g.committed o ≤ g.reserved o ∧
      g.reserved o ≤ g.committed .recv + cap.size := by
  have h1 := h.cons_le
  have h2 := h.cons_le_prod
  have h3 := h.prod_le
  have h4 := h.prod_le_cap
  cases o <;> omega

/-- A word of the smaller of two counts. -/
theorem toNat_min_word {a b : U32} : (if a < b then a else b).toNat = min a.toNat b.toNat := by
  split
  case isTrue h =>
    rw [BitVec.lt_def] at h
    omega
  case isFalse h =>
    rw [BitVec.lt_def] at h
    omega

/-- The Phase 1 check of a producer on words that stand for the counts `m` and `n`: it reserves as much
as it wants and there is room for. -/
theorem RingOp.reserve_send {cap : RingCap} {op : RingOp ω β} {m n : Nat} (hside : op.side = .send)
    (hvalid : op.Valid) (hnm : n ≤ m) (hmn : m ≤ n + cap.size) :
    op.reserve cap (BitVec.ofNat 32 m) (BitVec.ofNat 32 n) =
      if m = n + cap.size then none
      else some (BitVec.ofNat 32 (min op.want (n + cap.size - m))) := by
  have hcap := cap.size_le
  have hdiff : (BitVec.ofNat 32 m - BitVec.ofNat 32 n).toNat = m - n :=
    Wrap.ofNat_sub_toNat hnm (by omega)
  have hfull : cap.val ≤ BitVec.ofNat 32 m - BitVec.ofNat 32 n ↔ m = n + cap.size := by
    rw [BitVec.le_def, hdiff]
    show cap.size ≤ m - n ↔ _
    omega
  cases op with
  | pop w => cases hside
  | dequeueBurst ws => cases hside
  | push w x =>
    simp only [RingOp.reserve, RingOp.want, ge_iff_le, hfull]
    by_cases hm : m = n + cap.size
    · rw [if_pos hm, if_pos hm]
    · rw [if_neg hm, if_neg hm, Nat.min_eq_left (by omega)]
      rfl
  | enqueueBurst xs =>
    have hfree : (cap.val - (BitVec.ofNat 32 m - BitVec.ofNat 32 n)).toNat = n + cap.size - m := by
      have hle : BitVec.ofNat 32 m - BitVec.ofNat 32 n ≤ cap.val := by
        rw [BitVec.le_def, hdiff]
        show m - n ≤ cap.size
        omega
      rw [BitVec.toNat_sub_of_le hle, hdiff]
      show cap.size - (m - n) = _
      omega
    have hzero : cap.val - (BitVec.ofNat 32 m - BitVec.ofNat 32 n) = 0 ↔ m = n + cap.size := by
      rw [← BitVec.toNat_inj, hfree]
      show n + cap.size - m = 0 ↔ _
      omega
    simp only [RingOp.reserve, RingOp.want, hzero]
    by_cases hm : m = n + cap.size
    · rw [if_pos hm, if_pos hm]
    · rw [if_neg hm, if_neg hm]
      have hwant : xs.length < 2 ^ 32 := hvalid.2
      apply congrArg some
      apply BitVec.eq_of_toNat_eq
      rw [toNat_min_word, hfree, BitVec.toNat_ofNat, BitVec.toNat_ofNat, Nat.mod_eq_of_lt hwant,
        Nat.mod_eq_of_lt (by omega)]

/-- The Phase 1 check of a consumer on words that stand for the counts `m` and `n`: it reserves as much
as it wants and is there. -/
theorem RingOp.reserve_recv {cap : RingCap} {op : RingOp ω β} {m n : Nat} (hside : op.side = .recv)
    (hvalid : op.Valid) (hmn : m ≤ n) (hnm : n ≤ m + cap.size) :
    op.reserve cap (BitVec.ofNat 32 m) (BitVec.ofNat 32 n) =
      if n = m then none else some (BitVec.ofNat 32 (min op.want (n - m))) := by
  have hcap := cap.size_le
  have hdiff : (BitVec.ofNat 32 n - BitVec.ofNat 32 m).toNat = n - m :=
    Wrap.ofNat_sub_toNat hmn (by omega)
  have hzero : BitVec.ofNat 32 n - BitVec.ofNat 32 m = 0 ↔ n = m := by
    rw [← BitVec.toNat_inj, hdiff]
    show n - m = 0 ↔ _
    omega
  cases op with
  | push w x => cases hside
  | enqueueBurst xs => cases hside
  | pop w =>
    have hempty : BitVec.ofNat 32 n = BitVec.ofNat 32 m ↔ n = m := by
      constructor
      · intro h
        exact hzero.1 (by rw [h]; exact BitVec.sub_self _)
      · intro h
        rw [h]
    simp only [RingOp.reserve, RingOp.want, hempty]
    by_cases hm : n = m
    · rw [if_pos hm, if_pos hm]
    · rw [if_neg hm, if_neg hm, Nat.min_eq_left (by omega)]
      rfl
  | dequeueBurst ws =>
    simp only [RingOp.reserve, RingOp.want, hzero]
    by_cases hm : n = m
    · rw [if_pos hm, if_pos hm]
    · rw [if_neg hm, if_neg hm]
      have hwant : ws.length < 2 ^ 32 := hvalid.2
      apply congrArg some
      apply BitVec.eq_of_toNat_eq
      rw [toNat_min_word, hdiff, BitVec.toNat_ofNat, BitVec.toNat_ofNat, Nat.mod_eq_of_lt hwant,
        Nat.mod_eq_of_lt (by omega)]

/-- The Phase 1 check of a producer whose head load is current never asks for more than there is
room for. -/
theorem fits_of_reserve_send {cap : RingCap} {op : RingOp ω β} {m n : Nat} {k : U32}
    (hside : op.side = .send) (hvalid : op.Valid) (hnm : n ≤ m) (hmn : m ≤ n + cap.size)
    (hres : op.reserve cap (BitVec.ofNat 32 m) (BitVec.ofNat 32 n) = some k) :
    0 < k.toNat ∧ k.toNat ≤ op.want ∧ m + k.toNat ≤ n + cap.size := by
  have hcap := cap.size_le
  have hpos := hvalid.1
  rw [RingOp.reserve_send hside hvalid hnm hmn, Option.ite_none_left_eq_some] at hres
  obtain ⟨hroom, hk⟩ := hres
  cases hk
  rw [BitVec.toNat_ofNat, Nat.mod_eq_of_lt (by omega)]
  omega

/-- The Phase 1 check of a consumer whose head load is current asks only for committed positions. -/
theorem fits_of_reserve_recv {cap : RingCap} {op : RingOp ω β} {m n : Nat} {k : U32}
    (hside : op.side = .recv) (hvalid : op.Valid) (hmn : m ≤ n) (hnm : n ≤ m + cap.size)
    (hres : op.reserve cap (BitVec.ofNat 32 m) (BitVec.ofNat 32 n) = some k) :
    0 < k.toNat ∧ k.toNat ≤ op.want ∧ m + k.toNat ≤ n := by
  have hcap := cap.size_le
  have hpos := hvalid.1
  rw [RingOp.reserve_recv hside hvalid hmn hnm, Option.ite_none_left_eq_some] at hres
  obtain ⟨hthere, hk⟩ := hres
  cases hk
  rw [BitVec.toNat_ofNat, Nat.mod_eq_of_lt (by omega)]
  omega

/-- The two-part burst copy visits the slots of the run in order. -/
theorem burstSlot_eq {cap : RingCap} {m i : Nat} {k : U32} (hi : i < k.toNat)
    (hk : k.toNat ≤ cap.size) :
    burstSlot cap (BitVec.ofNat 32 m) k i = Wrap.slotOf cap.size (m + i) := by
  have hcap := cap.size_le
  have hpos : 0 < cap.size := by omega
  have hidx := cap.and_mask hpos m
  have hr : m % cap.size < cap.size := Nat.mod_lt _ hpos
  have hidxNat : (BitVec.ofNat 32 m &&& cap.mask).toNat = m % cap.size := by
    rw [hidx, cap.toNat_slotOf hpos]
  have hfirst : (cap.val - (BitVec.ofNat 32 m &&& cap.mask)).toNat = cap.size - m % cap.size := by
    have hle : BitVec.ofNat 32 m &&& cap.mask ≤ cap.val := by
      rw [BitVec.le_def, hidxNat]
      exact hr.le
    rw [BitVec.toNat_sub_of_le hle, hidxNat]
    rfl
  have hmod : (m + i) % cap.size =
      if m % cap.size + i < cap.size then m % cap.size + i else m % cap.size + i - cap.size := by
    rw [Nat.add_mod, Nat.mod_eq_of_lt (by omega : i < cap.size)]
    split
    · next h => exact Nat.mod_eq_of_lt h
    · next h => rw [Nat.mod_eq_sub_mod (by omega), Nat.mod_eq_of_lt (by omega)]
  have hlow : m % cap.size + i < cap.size →
      (BitVec.ofNat 32 m &&& cap.mask) + BitVec.ofNat 32 i = Wrap.slotOf cap.size (m + i) := by
    intro h
    rw [hidx, Wrap.slotOf, Wrap.slotOf, hmod, if_pos h, BitVec.ofNat_add]
  simp only [burstSlot]
  split
  · next h =>
    rw [ge_iff_le, BitVec.le_def, hfirst] at h
    exact hlow (by omega)
  · split
    · next h =>
      rw [hfirst] at h
      exact hlow (by omega)
    · next h =>
      rw [hfirst] at h
      have hge : cap.size - m % cap.size ≤ i := by omega
      have hfw : cap.val - (BitVec.ofNat 32 m &&& cap.mask) =
          BitVec.ofNat 32 (cap.size - m % cap.size) := by
        apply BitVec.eq_of_toNat_eq
        rw [hfirst, BitVec.toNat_ofNat,
          Nat.mod_eq_of_lt (show cap.size - m % cap.size < 2 ^ 32 by omega)]
      rw [hfw, Wrap.ofNat_sub_of_le hge, Wrap.slotOf, hmod, if_neg (by omega)]
      congr 1
      omega

/-- Every operation copies element `i` at the slot of position `m + i`. -/
theorem RingOp.slot_eq {cap : RingCap} {op : RingOp ω β} {m i : Nat} {k : U32} (hi : i < k.toNat)
    (hw : k.toNat ≤ op.want) (hk : k.toNat ≤ cap.size) :
    op.slot cap (BitVec.ofNat 32 m) k i = Wrap.slotOf cap.size (m + i) := by
  cases op with
  | push w x =>
    obtain rfl : i = 0 := by simp only [RingOp.want] at hw; omega
    exact cap.and_mask (by omega) m
  | pop w =>
    obtain rfl : i = 0 := by simp only [RingOp.want] at hw; omega
    exact cap.and_mask (by omega) m
  | enqueueBurst xs => exact burstSlot_eq hi hk
  | dequeueBurst ws => exact burstSlot_eq hi hk

/-! ## Preservation -/

section Preservation

variable {cap : RingCap} {r r' : Ring β} {g g' : RingGhost T ω β}

/-- The positions of a run lie within one lap of the consumer tail. -/
theorem RunInv.window {t : T} {op : RingOp ω β} {h k : U32} (hrun : RunInv g t op h k)
    (hord : Ordered cap g) :
    g.committed .recv ≤ g.mark t ∧ g.mark t + k.toNat ≤ g.committed .recv + cap.size ∧
      k.toNat ≤ cap.size := by
  obtain ⟨h1, -, h3⟩ := hord.window op.side
  have hlo := hrun.lo
  have hhi := hrun.hi
  omega

/-- A thread in a run has its positions logged and its slot index is the position's slot. -/
theorem RunInv.slot_eq {t : T} {op : RingOp ω β} {h k : U32} {i : Nat} (hrun : RunInv g t op h k)
    (hord : Ordered cap g) (hi : i < k.toNat) :
    op.slot cap h k i = Wrap.slotOf cap.size (g.mark t + i) := by
  rw [hrun.head]
  exact RingOp.slot_eq hi hrun.le_want (hrun.window hord).2.2

/-- The reserved counts grow and the logged entries stay. -/
structure Extends (g g' : RingGhost T ω β) : Prop where
  log : ∃ l, g'.log = g.log ++ l
  takers : ∃ l, g'.takers = g.takers ++ l
  committed : ∀ o, g.committed o ≤ g'.committed o

theorem Extends.reserved_le (h : Extends g g') (o : ChanOp) : g.reserved o ≤ g'.reserved o := by
  obtain ⟨l, hl⟩ := h.log
  obtain ⟨l', hl'⟩ := h.takers
  cases o <;> simp [RingGhost.reserved, hl, hl']

theorem Extends.log_eq (h : Extends g g') {n : Nat} (hn : n < g.reserved .send) :
    g'.log[n]? = g.log[n]? := by
  obtain ⟨l, hl⟩ := h.log
  rw [hl, List.getElem?_append_left hn]

theorem Extends.takers_eq (h : Extends g g') {n : Nat} (hn : n < g.reserved .recv) :
    g'.takers[n]? = g.takers[n]? := by
  obtain ⟨l, hl⟩ := h.takers
  rw [hl, List.getElem?_append_left hn]

theorem Extends.valueAt_eq (h : Extends g g') {n : Nat} (hn : n < g.reserved .send) :
    g'.valueAt n = g.valueAt n := by
  rw [RingGhost.valueAt, h.log_eq hn, RingGhost.valueAt]

theorem RunInv.mono {t : T} {op : RingOp ω β} {h k : U32} (hrun : RunInv g t op h k)
    (hext : Extends g g') (hmark : g'.mark t = g.mark t)
    (hlo : g'.committed op.side ≤ g.mark t) : RunInv g' t op h k := by
  have hle := hext.reserved_le op.side
  have hhi := hrun.hi
  refine ⟨by rw [hmark, hrun.head], hrun.pos, hrun.le_want, by rw [hmark]; exact hlo,
    by rw [hmark]; omega, fun hs j hj => ?_, fun hs j hj => ?_⟩
  · rw [hmark, hext.log_eq (by rw [hs] at hhi; omega), hrun.data hs j hj]
  · rw [hmark, hext.takers_eq (by rw [hs] at hhi; omega), hrun.tags hs j hj]

theorem Copied.mono {t : T} {op : RingOp ω β} {h k : U32} {i : Nat} {acc : List β}
    (hcop : Copied cap r g t op i acc) (hrun : RunInv g t op h k) (hord : Ordered cap g)
    (hik : i ≤ k.toNat) (hext : Extends g g') (hmark : g'.mark t = g.mark t)
    (hslots : op.side = .send → ∀ j < k.toNat,
      r'.slots (Wrap.slotOf cap.size (g.mark t + j)) = r.slots (Wrap.slotOf cap.size (g.mark t + j)))
    (hcopied : op.side = .recv → ∀ j < k.toNat,
      g'.copied (g.mark t + j) = g.copied (g.mark t + j)) :
    Copied cap r' g' t op i acc := by
  have hhi := hrun.hi
  have hin : ∀ j < k.toNat, g.mark t + j < g.reserved .send := by
    intro j hj
    have h1 := hord.cons_le_prod
    have h2 := hord.prod_le
    cases hs : op.side <;> rw [hs] at hhi <;> omega
  refine ⟨fun hs j hj => ?_, hcop.length, fun hs j hj => ?_⟩
  · rw [hmark, hslots hs j (by omega), hext.valueAt_eq (hin j (by omega)), hcop.written hs j hj]
  · rw [hmark, hcopied hs j (by omega), hext.valueAt_eq (hin j (by omega))]
    exact hcop.read hs j hj

/-- A run lies between the tail and the head of its half. -/
theorem PcInv.of_run {t : T} {p : RingPc ω β} (hp : PcInv cap r g t p) {o : ChanOp} {k : Nat}
    (hk : p.run = some (o, k)) :
    g.committed o ≤ g.mark t ∧ g.mark t + k ≤ g.reserved o ∧ 0 < k := by
  cases p with
  | copy op h k' i acc | wait op h k' acc | store op h k' acc =>
    cases hk; exact ⟨hp.2.1.lo, hp.2.1.hi, hp.2.1.pos⟩
  | loadHead => cases hk
  | loadOpp => cases hk
  | cas => cases hk

/-- The log has the elements of a producer at the positions of its run. -/
theorem PcInv.log_of_run {t : T} {p : RingPc ω β} (hp : PcInv cap r g t p) {n k : Nat}
    (hk : p.run = some (.send, k)) (hlo : g.mark t ≤ n) (hhi : n < g.mark t + k) :
    g.log[n]? = p.op.data[n - g.mark t]? := by
  have hrun : ∀ {op : RingOp ω β} {h k' : U32}, RunInv g t op h k' →
      some (op.side, k'.toNat) = some (ChanOp.send, k) → g.log[n]? = op.data[n - g.mark t]? := by
    intro op h k' hinv hside
    obtain ⟨hs, rfl⟩ := Prod.mk.inj (Option.some.inj hside)
    have hdata := hinv.data hs (n - g.mark t) (by omega)
    rwa [Nat.add_sub_cancel' hlo] at hdata
  cases p with
  | copy op h k' i acc | wait op h k' acc | store op h k' acc => exact hrun hp.2.1 hk
  | _ => cases hk

/-- The place of a thread survives the step of another thread that keeps its mark, does not commit
past its run and leaves its run's slots and copies alone. -/
theorem PcInv.mono {t : T} {p : RingPc ω β} (hp : PcInv cap r g t p) (hord : Ordered cap g)
    (hext : Extends g g') (hmark : g'.mark t = g.mark t)
    (hlo : ∀ o k, p.run = some (o, k) → g'.committed o ≤ g.mark t)
    (hslots : ∀ k, p.run = some (.send, k) → ∀ j < k,
      r'.slots (Wrap.slotOf cap.size (g.mark t + j)) = r.slots (Wrap.slotOf cap.size (g.mark t + j)))
    (hcopied : ∀ k, p.run = some (.recv, k) → ∀ j < k,
      g'.copied (g.mark t + j) = g.copied (g.mark t + j)) :
    PcInv cap r' g' t p := by
  cases p with
  | loadHead op => exact hp
  | loadOpp op h =>
    obtain ⟨hv, hh, hle⟩ := hp
    exact ⟨hv, by rw [hmark, hh], by rw [hmark]; exact hle.trans (hext.reserved_le _)⟩
  | cas op h k =>
    obtain ⟨hv, hh, hle, hfit⟩ := hp
    have hle' := hext.reserved_le op.side
    refine ⟨hv, by rw [hmark, hh], by rw [hmark]; omega, fun heq => ?_⟩
    rw [hmark] at heq ⊢
    obtain ⟨hpos, hw, hroom⟩ := hfit (by omega)
    refine ⟨hpos, hw, ?_⟩
    have h1 := hext.committed .recv
    have h2 := hext.committed .send
    cases hs : op.side <;> rw [hs] at hroom <;> simp only at hroom ⊢ <;> omega
  | copy op h k i acc =>
    obtain ⟨hv, hrun, hi, hcop⟩ := hp
    exact ⟨hv, hrun.mono hext hmark (hlo _ _ rfl), hi,
      hcop.mono hrun hord hi.le hext hmark (fun hs => hslots _ (by rw [RingPc.run, hs]))
        (fun hs => hcopied _ (by rw [RingPc.run, hs]))⟩
  | wait op h k acc =>
    obtain ⟨hv, hrun, hcop⟩ := hp
    exact ⟨hv, hrun.mono hext hmark (hlo _ _ rfl),
      hcop.mono hrun hord le_rfl hext hmark (fun hs => hslots _ (by rw [RingPc.run, hs]))
        (fun hs => hcopied _ (by rw [RingPc.run, hs]))⟩
  | store op h k acc =>
    obtain ⟨hv, hrun, hcop, heq⟩ := hp
    refine ⟨hv, hrun.mono hext hmark (hlo _ _ rfl),
      hcop.mono hrun hord le_rfl hext hmark (fun hs => hslots _ (by rw [RingPc.run, hs]))
        (fun hs => hcopied _ (by rw [RingPc.run, hs])), ?_⟩
    have h1 := hext.committed op.side
    have h2 := hlo op.side k.toNat rfl
    rw [hmark]
    omega

/-- Where a thread goes after copying element `i`. -/
def RingPc.afterCopy (op : RingOp ω β) (h k : U32) (i : Nat) (acc : List β) : RingPc ω β :=
  if i + 1 < k.toNat then .copy op h k (i + 1) acc else .wait op h k acc

theorem RingPc.run_afterCopy (op : RingOp ω β) (h k : U32) (i : Nat) (acc : List β) :
    (RingPc.afterCopy op h k i acc).run = some (op.side, k.toNat) := by
  rw [RingPc.afterCopy]
  split <;> rfl

theorem pcInv_afterCopy {t : T} {op : RingOp ω β} {h k : U32} {i : Nat} {acc : List β}
    (hv : op.Valid) (hrun : RunInv g t op h k) (hi : i < k.toNat)
    (hcop : Copied cap r g t op (i + 1) acc) :
    PcInv cap r g t (RingPc.afterCopy op h k i acc) := by
  rw [RingPc.afterCopy]
  split
  · next hlt => exact ⟨hv, hrun, hlt, hcop⟩
  · next hge =>
    have hk : i + 1 = k.toNat := by omega
    exact ⟨hv, hrun, hk ▸ hcop⟩

/-- A waiting thread sees its turn exactly when its run starts at the tail. -/
theorem RingInv.turn {pc : T → Option (RingPc ω β)} (hinv : RingInv cap r g pc) {t : T}
    {op : RingOp ω β} {h k : U32}
    (hrun : RunInv g t op h k) : (r.cur op.side).tail = h ↔ g.mark t = g.committed op.side := by
  have hcap := cap.size_le
  obtain ⟨h1, -, h3⟩ := hinv.ordered.window op.side
  have hlo := hrun.lo
  have hhi := hrun.hi
  rw [hinv.tail_eq, hrun.head]
  refine ⟨fun heq => ?_, fun heq => by rw [heq]⟩
  exact Wrap.ofNat_inj_of_window hlo (by omega) heq.symm

section Steps

variable [DecidableEq T] {pc : T → Option (RingPc ω β)}

/-- A change of one thread's place that moves no cursor and keeps the thread's run. -/
theorem RingInv.quiet (hinv : RingInv cap r g pc) (t : T) (q : Option (RingPc ω β)) (m : Nat)
    (hrun : q.bind RingPc.run = (pc t).bind RingPc.run)
    (hm : q.bind RingPc.run = none ∨ m = g.mark t)
    (hq : ∀ p, q = some p → PcInv cap r (g.setMark t m) t p) :
    RingInv cap r (g.setMark t m) (Function.update pc t q) := by
  have hext : Extends g (g.setMark t m) :=
    ⟨⟨[], (List.append_nil _).symm⟩, ⟨[], (List.append_nil _).symm⟩, fun _ => le_rfl⟩
  -- a thread that holds a run after the step held the same run, with the same mark, before it
  have hback : ∀ u p o k, Function.update pc t q u = some p → p.run = some (o, k) →
      ∃ p', pc u = some p' ∧ p'.run = some (o, k) ∧ (g.setMark t m).mark u = g.mark u := by
    intro u p o k hu hp
    by_cases htu : u = t
    · subst htu
      rw [Function.update_self] at hu
      have hb : (pc u).bind RingPc.run = some (o, k) := by rw [← hrun, hu]; exact hp
      obtain ⟨p', hp', hr'⟩ := Option.bind_eq_some_iff.1 hb
      rcases hm with hm | hm
      · rw [hrun, hb] at hm
        cases hm
      · exact ⟨p', hp', hr', (g.mark_setMark_self u m).trans hm⟩
    · rw [Function.update_of_ne htu] at hu
      exact ⟨p, hu, hp, g.mark_setMark_of_ne htu m⟩
  refine ⟨hinv.head_eq, hinv.tail_eq, ⟨hinv.ordered.1, hinv.ordered.2, hinv.ordered.3,
    hinv.ordered.4⟩, ?_, ?_, ?_, hinv.slots⟩
  · intro u p hu
    by_cases htu : u = t
    · subst htu
      rw [Function.update_self] at hu
      exact hq p hu
    · rw [Function.update_of_ne htu] at hu
      have hmu := g.mark_setMark_of_ne htu m
      have hp := hinv.thread u p hu
      exact hp.mono hinv.ordered hext hmu (fun o k hk => (hp.of_run hk).1) (fun _ _ _ _ => rfl)
        (fun _ _ _ _ => rfl)
  · intro a b p p' o k l hab ha hb hp hp'
    obtain ⟨pa, hpa, hra, hma⟩ := hback a p o k ha hp
    obtain ⟨pb, hpb, hrb, hmb⟩ := hback b p' o l hb hp'
    simp only [hma, hmb]
    exact hinv.disjoint a b pa pb o k l hab hpa hpb hra hrb
  · intro o n hlo hhi
    obtain ⟨u, p, k, hu, hp, h1, h2⟩ := hinv.covers o n hlo hhi
    by_cases htu : u = t
    · subst htu
      have hb : q.bind RingPc.run = some (o, k) := by rw [hrun, hu]; exact hp
      obtain ⟨p', hp', hr'⟩ := Option.bind_eq_some_iff.1 hb
      have hmu : (g.setMark u m).mark u = g.mark u := by
        rcases hm with hm | hm
        · rw [hb] at hm
          cases hm
        · exact (g.mark_setMark_self u m).trans hm
      exact ⟨u, p', k, by rw [Function.update_self, hp'], hr', by rw [hmu]; exact h1,
        by rw [hmu]; exact h2⟩
    · have hmu := g.mark_setMark_of_ne htu m
      exact ⟨u, p, k, by rw [Function.update_of_ne htu, hu], hp, by rw [hmu]; exact h1,
        by rw [hmu]; exact h2⟩

/-- Phase 1 is a pure check: it moves no cursor. -/
theorem RingInv.loadHead (hinv : RingInv cap r g pc) {t : T} {op : RingOp ω β}
    (ht : pc t = some (.loadHead op)) :
    RingInv cap r (g.setMark t (g.reserved op.side))
      (Function.update pc t (some (.loadOpp op (r.cur op.side).head))) := by
  refine hinv.quiet t _ _ (by rw [ht]; rfl) (Or.inl rfl) fun p hp => ?_
  cases hp
  have hm := g.mark_setMark_self t (g.reserved op.side)
  exact ⟨hinv.thread t _ ht, by rw [hm]; exact hinv.head_eq op.side, by rw [hm]; exact le_rfl⟩

/-- A change of place that keeps the history as it is. -/
theorem RingInv.move (hinv : RingInv cap r g pc) (t : T) (q : Option (RingPc ω β))
    (hrun : q.bind RingPc.run = (pc t).bind RingPc.run)
    (hq : ∀ p, q = some p → PcInv cap r g t p) : RingInv cap r g (Function.update pc t q) := by
  have hg : g.setMark t (g.mark t) = g := by rw [RingGhost.setMark, Function.update_eq_self]
  have := hinv.quiet t q (g.mark t) hrun (Or.inr rfl)
  rw [hg] at this
  exact this hq

theorem RingInv.loadOpp (hinv : RingInv cap r g pc) {t : T} {op : RingOp ω β} {h k : U32}
    (ht : pc t = some (.loadOpp op h))
    (hk : op.reserve cap h (r.cur op.side.other).tail = some k) :
    RingInv cap r g (Function.update pc t (some (.cas op h k))) := by
  refine hinv.move t _ (by rw [ht]; rfl) fun p hp => ?_
  cases hp
  obtain ⟨hv, hh, hle⟩ := hinv.thread t _ ht
  refine ⟨hv, hh, hle, fun heq => ?_⟩
  rw [hh, hinv.tail_eq] at hk
  obtain ⟨h1, h2, h3, h4⟩ := hinv.ordered
  cases hs : op.side with
  | send =>
    rw [hs] at hk heq
    obtain ⟨hpos, hw, hroom⟩ := fits_of_reserve_send hs hv (by simp only [ChanOp.other_send]; omega)
      (by simp only [ChanOp.other_send]; omega) hk
    exact ⟨hpos, hw, by rw [hs]; exact hroom⟩
  | recv =>
    rw [hs] at hk heq
    obtain ⟨hpos, hw, hroom⟩ := fits_of_reserve_recv hs hv (by simp only [ChanOp.other_recv]; omega)
      (by simp only [ChanOp.other_recv]; omega) hk
    exact ⟨hpos, hw, by rw [hs]; exact hroom⟩

/-! ### Reservation -/

theorem RingOp.data_length {op : RingOp ω β} (h : op.side = .send) : op.data.length = op.want := by
  cases op <;> first | rfl | cases h

theorem RingOp.tags_length {op : RingOp ω β} (h : op.side = .recv) : op.tags.length = op.want := by
  cases op <;> first | rfl | cases h

theorem reserved_reserve (g : RingGhost T ω β) (t : T) {op : RingOp ω β} {k : Nat}
    (hk : k ≤ op.want) (o : ChanOp) :
    (g.reserve t op k).reserved o = g.reserved o + if o = op.side then k else 0 := by
  cases hs : op.side with
  | send =>
    have := op.data_length hs
    cases o <;> simp [RingGhost.reserve, hs, RingGhost.reserved, List.length_take]
    omega
  | recv =>
    have := op.tags_length hs
    cases o <;> simp [RingGhost.reserve, hs, RingGhost.reserved, List.length_take]
    omega

theorem committed_reserve (g : RingGhost T ω β) (t : T) (op : RingOp ω β) (k : Nat) :
    (g.reserve t op k).committed = g.committed := by
  cases hs : op.side <;> simp [RingGhost.reserve, hs]

theorem copied_reserve (g : RingGhost T ω β) (t : T) (op : RingOp ω β) (k : Nat) :
    (g.reserve t op k).copied = g.copied := by
  cases hs : op.side <;> simp [RingGhost.reserve, hs]

theorem mark_reserve (g : RingGhost T ω β) (t : T) (op : RingOp ω β) (k : Nat) :
    (g.reserve t op k).mark = Function.update g.mark t (g.reserved op.side) := by
  cases hs : op.side <;> simp [RingGhost.reserve, hs, RingGhost.reserved]

theorem extends_reserve (g : RingGhost T ω β) (t : T) (op : RingOp ω β) (k : Nat) :
    Extends g (g.reserve t op k) := by
  refine ⟨?_, ?_, fun o => by rw [committed_reserve]⟩ <;> cases hs : op.side <;>
    simp [RingGhost.reserve, hs]

/-- The new entries of the log, or of the takers, are the first `k` of the operation. -/
theorem runInv_reserve (g : RingGhost T ω β) (t : T) {op : RingOp ω β} {k : U32}
    (hpos : 0 < k.toNat) (hk : k.toNat ≤ op.want) (hle : g.committed op.side ≤ g.reserved op.side) :
    RunInv (g.reserve t op k.toNat) t op (BitVec.ofNat 32 (g.reserved op.side)) k := by
  have hm : (g.reserve t op k.toNat).mark t = g.reserved op.side := by
    rw [mark_reserve, Function.update_self]
  refine ⟨by rw [hm], hpos, hk, by rw [hm, committed_reserve]; exact hle, ?_, fun hs j hj => ?_,
    fun hs j hj => ?_⟩
  · rw [hm, reserved_reserve g t hk, if_pos rfl]
  · have hlen := op.data_length hs
    rw [hm, hs]
    simp only [RingGhost.reserve, hs, RingGhost.reserved]
    rw [List.getElem?_append_right (by omega), Nat.add_sub_cancel_left, List.getElem?_take,
      if_pos hj]
  · have hlen := op.tags_length hs
    rw [hm, hs]
    simp only [RingGhost.reserve, hs, RingGhost.reserved]
    rw [List.getElem?_append_right (by omega), Nat.add_sub_cancel_left, List.getElem?_take,
      if_pos hj]

/-- A successful CAS on a fresh head load reserves a run that fits at the end of the reserved
positions. -/
theorem RingInv.reserve (hinv : RingInv cap r g pc) {t : T} {op : RingOp ω β} {h k : U32}
    (ht : pc t = some (.cas op h k)) (hfresh : g.Fresh t op.side)
    (hcas : (r.cur op.side).head = h) :
    RingInv cap (r.setHead op.side (h + k)) (g.reserve t op k.toNat)
      (Function.update pc t (some (.copy op h k 0 []))) := by
  obtain ⟨hv, hh, hle, hfit⟩ := hinv.thread t _ ht
  have heq : g.reserved op.side = g.mark t := by
    refine Wrap.ofNat_inj_of_window hle hfresh ?_
    rw [← hinv.head_eq, hcas, hh]
  obtain ⟨hpos, hwant, hroom⟩ := hfit heq
  have hext := extends_reserve g t op k.toNat
  have hres := reserved_reserve g t hwant
  have hcom := committed_reserve g t op k.toNat
  have hord := hinv.ordered
  have hrun := runInv_reserve g t hpos hwant (hord.window op.side).2.1
  rw [heq, ← hh] at hrun
  have hmark : ∀ u, u ≠ t → (g.reserve t op k.toNat).mark u = g.mark u := by
    intro u hu
    rw [mark_reserve, Function.update_of_ne hu]
  have hmarkt : (g.reserve t op k.toNat).mark t = g.reserved op.side := by
    rw [mark_reserve, Function.update_self]
  have hslots : (r.setHead op.side (h + k)).slots = r.slots := rfl
  -- runs of other threads are old runs, so they end at or before the old head
  have hother : ∀ u p o l, u ≠ t → pc u = some p → p.run = some (o, l) →
      g.mark u + l ≤ g.reserved o := fun u p o l _ hu hp => ((hinv.thread u p hu).of_run hp).2.1
  refine ⟨?_, ?_, ?_, ?_, ?_, ?_, ?_⟩
  · intro o
    rw [hres]
    by_cases ho : o = op.side
    · subst ho
      rw [if_pos rfl, Ring.setHead]
      simp only [Function.update_self]
      rw [hh, Wrap.ofNat_add_word, heq]
    · rw [if_neg ho, Ring.setHead]
      simp only [Function.update_of_ne ho]
      exact hinv.head_eq o
  · intro o
    rw [hcom]
    by_cases ho : o = op.side
    · subst ho
      simp only [Ring.setHead, Function.update_self]
      exact hinv.tail_eq _
    · simp only [Ring.setHead, Function.update_of_ne ho]
      exact hinv.tail_eq o
  · obtain ⟨h1, h2, h3, h4⟩ := hord
    cases hs : op.side with
    | send =>
      rw [hs] at hroom heq hres
      simp only at hroom
      refine ⟨?_, ?_, ?_, ?_⟩ <;> rw [hres] <;> simp [hcom] <;> omega
    | recv =>
      rw [hs] at hroom heq hres
      simp only at hroom
      refine ⟨?_, ?_, ?_, ?_⟩ <;> rw [hres] <;> simp [hcom] <;> omega
  · intro u p hu
    by_cases hut : u = t
    · subst hut
      rw [Function.update_self] at hu
      cases hu
      exact ⟨hv, hrun, hpos, fun _ j hj => absurd hj (by omega), fun _ => rfl,
        fun _ j hj => absurd hj (by omega)⟩
    · rw [Function.update_of_ne hut] at hu
      have hp := hinv.thread u p hu
      exact hp.mono hord hext (hmark u hut) (fun o l hl => by rw [hcom]; exact (hp.of_run hl).1)
        (fun _ _ _ _ => rfl) (fun _ _ _ _ => by rw [copied_reserve])
  · intro a b p q o l l' hab ha hb hp hq
    by_cases hat : a = t
    · subst hat
      rw [Function.update_self] at ha
      cases ha
      cases hp
      rw [Function.update_of_ne (Ne.symm hab)] at hb
      have := hother b q _ _ (Ne.symm hab) hb hq
      rw [hmarkt, hmark b (Ne.symm hab)]
      omega
    · rw [Function.update_of_ne hat] at ha
      by_cases hbt : b = t
      · subst hbt
        rw [Function.update_self] at hb
        cases hb
        cases hq
        have := hother a p _ _ hat ha hp
        rw [hmarkt, hmark a hat]
        omega
      · rw [Function.update_of_ne hbt] at hb
        rw [hmark a hat, hmark b hbt]
        exact hinv.disjoint a b p q o l l' hab ha hb hp hq
  · intro o n hlo hhi
    rw [hcom] at hlo
    rw [hres] at hhi
    rcases Nat.lt_or_ge n (g.reserved o) with hn | hn
    · obtain ⟨u, p, l, hu, hp, h1, h2⟩ := hinv.covers o n hlo hn
      have hut : u ≠ t := by
        rintro rfl
        rw [ht] at hu
        cases hu
        cases hp
      exact ⟨u, p, l, by rw [Function.update_of_ne hut, hu], hp, by rw [hmark u hut]; exact h1,
        by rw [hmark u hut]; exact h2⟩
    · have ho : o = op.side := by
        by_contra ho
        rw [if_neg ho] at hhi
        omega
      subst ho
      rw [if_pos rfl] at hhi
      exact ⟨t, _, k.toNat, Function.update_self .., rfl, by rw [hmarkt]; exact hn,
        by rw [hmarkt]; exact hhi⟩
  · intro n hlo hhi
    rw [hcom] at hlo hhi
    rw [hslots, hext.valueAt_eq (by have := hord.prod_le; omega)]
    exact hinv.slots n hlo hhi

/-! ### Copying -/

/-- A step of a thread inside its own run that touches no slot and no recorded copy outside it. -/
theorem RingInv.inRun (hinv : RingInv cap r g pc) {t : T} {p q : RingPc ω β} {o : ChanOp} {k : Nat}
    (ht : pc t = some p) (hp : p.run = some (o, k)) (hq : q.run = some (o, k))
    (hcur : r'.cur = r.cur) (hlog : g'.log = g.log) (htakers : g'.takers = g.takers)
    (hcom : g'.committed = g.committed) (hmark : g'.mark = g.mark)
    (hslots : ∀ n, g.committed .recv ≤ n → n < g.reserved .send →
      (o = .send → n < g.mark t ∨ g.mark t + k ≤ n) →
      r'.slots (Wrap.slotOf cap.size n) = r.slots (Wrap.slotOf cap.size n))
    (hcopied : ∀ n, (o = .recv → n < g.mark t ∨ g.mark t + k ≤ n) → g'.copied n = g.copied n)
    (hpc : PcInv cap r' g' t q) :
    RingInv cap r' g' (Function.update pc t (some q)) := by
  have hord := hinv.ordered
  have hres : ∀ o, g'.reserved o = g.reserved o := by
    intro o
    cases o <;> simp only [RingGhost.reserved, hlog, htakers]
  have hext : Extends g g' :=
    ⟨⟨[], by rw [hlog, List.append_nil]⟩, ⟨[], by rw [htakers, List.append_nil]⟩,
      fun o => by rw [hcom]⟩
  -- a thread that holds a run after the step held the same run before it
  have hback : ∀ u p' o' l, Function.update pc t (some q) u = some p' → p'.run = some (o', l) →
      ∃ p'', pc u = some p'' ∧ p''.run = some (o', l) := by
    intro u p' o' l hu hl
    by_cases hut : u = t
    · subst hut
      rw [Function.update_self] at hu
      cases hu
      exact ⟨p, ht, by rw [hp, ← hq, hl]⟩
    · rw [Function.update_of_ne hut] at hu
      exact ⟨p', hu, hl⟩
  refine ⟨fun o => by rw [hcur, hres, hinv.head_eq], fun o => by rw [hcur, hcom, hinv.tail_eq],
    ?_, ?_, ?_, ?_, ?_⟩
  · exact ⟨by rw [hcom, hres]; exact hord.1, by rw [hcom, hres]; exact hord.2,
      by rw [hcom, hres]; exact hord.3, by rw [hcom, hres]; exact hord.4⟩
  · intro u p' hu
    by_cases hut : u = t
    · subst hut
      rw [Function.update_self] at hu
      cases hu
      exact hpc
    · rw [Function.update_of_ne hut] at hu
      have hpu := hinv.thread u p' hu
      refine hpu.mono hord hext (by rw [hmark]) (fun o l hl => ?_) (fun l hl j hj => ?_)
        (fun l hl j hj => ?_)
      · rw [hcom]
        exact (hpu.of_run hl).1
      · obtain ⟨hlo, hhi, -⟩ := hpu.of_run hl
        have := (hord.window .send).1
        refine hslots _ (by omega) (by omega) fun ho => ?_
        subst ho
        rcases hinv.disjoint u t p' p _ l k hut hu ht hl hp with h | h <;> omega
      · refine hcopied _ fun ho => ?_
        subst ho
        rcases hinv.disjoint u t p' p _ l k hut hu ht hl hp with h | h <;> omega
  · intro a b pa pb o' l l' hab ha hb hla hlb
    obtain ⟨pa', ha', hla'⟩ := hback a pa o' l ha hla
    obtain ⟨pb', hb', hlb'⟩ := hback b pb o' l' hb hlb
    rw [hmark]
    exact hinv.disjoint a b pa' pb' o' l l' hab ha' hb' hla' hlb'
  · intro o' n hlo hhi
    rw [hcom] at hlo
    rw [hres] at hhi
    obtain ⟨u, p', l, hu, hl, h1, h2⟩ := hinv.covers o' n hlo hhi
    by_cases hut : u = t
    · subst hut
      rw [ht] at hu
      cases hu
      exact ⟨u, q, l, Function.update_self .., by rw [hq, ← hp, hl], by rw [hmark]; exact h1,
        by rw [hmark]; exact h2⟩
    · exact ⟨u, p', l, by rw [Function.update_of_ne hut, hu], hl, by rw [hmark]; exact h1,
        by rw [hmark]; exact h2⟩
  · intro n hlo hhi
    rw [hcom] at hlo hhi
    have hprod := hord.prod_le
    rw [hslots n hlo (by omega) fun ho => ?_, hext.valueAt_eq (by omega)]
    · exact hinv.slots n hlo hhi
    · subst ho
      have := ((hinv.thread t p ht).of_run hp).1
      omega

/-- A producer writes the logged value of its position; no other live position shares the slot. -/
theorem RingInv.write (hinv : RingInv cap r g pc) {t : T} {op : RingOp ω β} {h k : U32} {i : Nat}
    {acc : List β} {x : ω × β} (ht : pc t = some (.copy op h k i acc)) (hs : op.side = .send)
    (hx : op.data[i]? = some x) :
    RingInv cap (r.setSlot (op.slot cap h k i) x.2) g
      (Function.update pc t (some (RingPc.afterCopy op h k i acc))) := by
  obtain ⟨hv, hrun, hi, hcop⟩ := hinv.thread t _ ht
  have hord := hinv.ordered
  obtain ⟨hw1, hw2, -⟩ := hrun.window hord
  have hcap := cap.size_le
  have hprod := hord.prod_le_cap
  have hkeep : ∀ n, g.committed .recv ≤ n → n < g.committed .recv + cap.size →
      n ≠ g.mark t + i →
      (r.setSlot (op.slot cap h k i) x.2).slots (Wrap.slotOf cap.size n) =
        r.slots (Wrap.slotOf cap.size n) := by
    intro n h1 h2 hne
    rw [Ring.setSlot, hrun.slot_eq hord hi]
    refine Function.update_of_ne (fun heq => hne ?_) _ _
    exact Wrap.slotOf_inj (by omega) h1 h2 (by omega) (by omega) heq
  refine hinv.inRun ht rfl (RingPc.run_afterCopy op h k i acc) rfl rfl rfl rfl rfl
    (fun n h1 h2 hout => ?_) (fun _ _ => rfl) ?_
  · refine hkeep n h1 (by omega) ?_
    rcases hout hs with h | h <;> omega
  · refine pcInv_afterCopy hv hrun hi ⟨fun _ j hj => ?_, fun hs' => ?_, fun hs' => ?_⟩
    · rcases Nat.lt_succ_iff_lt_or_eq.1 hj with hlt | rfl
      · rw [hkeep _ (by omega) (by omega) (by omega)]
        exact hcop.written hs j hlt
      · rw [Ring.setSlot, hrun.slot_eq hord hi, RingGhost.valueAt, hrun.data hs j hi, hx]
        simp only [Function.update_self, Option.map_some]
    · rw [hs] at hs'
      cases hs'
    · rw [hs] at hs'
      cases hs'

/-- A consumer copies out the logged value of its position. -/
theorem RingInv.read (hinv : RingInv cap r g pc) {t : T} {op : RingOp ω β} {h k : U32} {i : Nat}
    {acc : List β} (ht : pc t = some (.copy op h k i acc)) (hs : op.side = .recv) :
    RingInv cap r (g.setCopied (g.mark t + i) (r.slots (op.slot cap h k i)))
      (Function.update pc t
        (some (RingPc.afterCopy op h k i (acc ++ [r.slots (op.slot cap h k i)])))) := by
  obtain ⟨hv, hrun, hi, hcop⟩ := hinv.thread t _ ht
  have hord := hinv.ordered
  have hlen := hcop.length hs
  have hlo := hrun.lo
  have hhi := hrun.hi
  rw [hs] at hlo hhi
  have hval : some (r.slots (op.slot cap h k i)) = g.valueAt (g.mark t + i) := by
    rw [hrun.slot_eq hord hi]
    exact hinv.slots _ (by omega) (by have := hord.cons_le_prod; omega)
  refine hinv.inRun ht rfl (RingPc.run_afterCopy op h k i _) rfl rfl rfl rfl rfl
    (fun _ _ _ _ => rfl) (fun n hout => g.copied_setCopied_of_ne ?_ _) ?_
  · rcases hout hs with h | h <;> omega
  · refine pcInv_afterCopy hv ⟨hrun.1, hrun.2, hrun.3, hrun.4, hrun.5, hrun.6, hrun.7⟩ hi
      ⟨fun hs' => ?_, fun _ => ?_, fun _ j hj => ?_⟩
    · rw [hs] at hs'
      cases hs'
    · rw [List.length_append, hlen, List.length_singleton]
    · rcases Nat.lt_succ_iff_lt_or_eq.1 hj with hlt | rfl
      · obtain ⟨h1, h2⟩ := hcop.read hs j hlt
        rw [List.getElem?_append_left (by omega)]
        have hne : g.mark t + j ≠ g.mark t + i := by omega
        exact ⟨h1, (g.copied_setCopied_of_ne hne _).trans h2⟩
      · rw [List.getElem?_append_right (by omega), hlen, Nat.sub_self]
        exact ⟨hval, (g.copied_setCopied_self ..).trans hval⟩

/-! ### Committing -/

/-- The thread whose run starts at the tail commits it and leaves. -/
theorem RingInv.store (hinv : RingInv cap r g pc) {t : T} {op : RingOp ω β} {h k : U32}
    {acc : List β} (ht : pc t = some (.store op h k acc)) :
    RingInv cap (r.setTail op.side (h + k)) (g.commit op.side k.toNat)
      (Function.update pc t none) := by
  obtain ⟨hv, hrun, hcop, heq⟩ := hinv.thread t _ ht
  have hord := hinv.ordered
  have hhi := hrun.hi
  have hself := g.committed_commit_self op.side k.toNat
  have hoth : ∀ o, o ≠ op.side → (g.commit op.side k.toNat).committed o = g.committed o :=
    fun o ho => g.committed_commit_of_ne ho _
  have hext : Extends g (g.commit op.side k.toNat) := by
    refine ⟨⟨[], (List.append_nil _).symm⟩, ⟨[], (List.append_nil _).symm⟩, fun o => ?_⟩
    by_cases ho : o = op.side
    · rw [ho, hself]
      omega
    · rw [hoth o ho]
  have hpc : ∀ u p, Function.update pc t none u = some p → u ≠ t ∧ pc u = some p := by
    intro u p hu
    by_cases hut : u = t
    · subst hut
      rw [Function.update_self] at hu
      cases hu
    · rw [Function.update_of_ne hut] at hu
      exact ⟨hut, hu⟩
  refine ⟨?_, ?_, ?_, ?_, ?_, ?_, ?_⟩
  · intro o
    by_cases ho : o = op.side
    · subst ho
      simp only [Ring.setTail, Function.update_self]
      exact hinv.head_eq _
    · simp only [Ring.setTail, Function.update_of_ne ho]
      exact hinv.head_eq o
  · intro o
    by_cases ho : o = op.side
    · subst ho
      rw [hself, Ring.setTail]
      simp only [Function.update_self]
      rw [hrun.head, Wrap.ofNat_add_word, heq]
    · rw [hoth o ho, Ring.setTail]
      simp only [Function.update_of_ne ho]
      exact hinv.tail_eq o
  · obtain ⟨h1, h2, h3, h4⟩ := hord
    have hres : ∀ o, (g.commit op.side k.toNat).reserved o = g.reserved o := fun o => by
      cases o <;> rfl
    cases hs : op.side with
    | send =>
      rw [hs] at hself hoth hhi heq hres
      have hr := hoth .recv (by decide)
      exact ⟨by rw [hr, hres]; exact h1, by rw [hself, hres]; omega, by rw [hself, hres]; omega,
        by rw [hr, hres]; exact h4⟩
    | recv =>
      rw [hs] at hself hoth hhi heq hres
      have hr := hoth .send (by decide)
      exact ⟨by rw [hself, hres]; omega, by rw [hr, hres]; exact h2, by rw [hr, hres]; exact h3,
        by rw [hself, hres]; omega⟩
  · intro u p hu
    obtain ⟨hut, hu⟩ := hpc u p hu
    have hp := hinv.thread u p hu
    refine hp.mono hord hext rfl (fun o l hl => ?_) (fun _ _ _ _ => rfl) (fun _ _ _ _ => rfl)
    obtain ⟨hlo, -, hpos⟩ := hp.of_run hl
    by_cases ho : o = op.side
    · -- the runs of `t` and `u` are disjoint and that of `t` starts at the tail
      subst ho
      rw [hself]
      rcases hinv.disjoint u t p _ _ l k.toNat hut hu ht hl rfl with h | h <;> omega
    · rw [hoth o ho]
      exact hlo
  · intro a b p q o l l' hab ha hb hp hq
    exact hinv.disjoint a b p q o l l' hab (hpc a p ha).2 (hpc b q hb).2 hp hq
  · intro o n hlo hhi'
    obtain ⟨u, p, l, hu, hp, h1, h2⟩ := hinv.covers o n ((hext.committed o).trans hlo) (by
      cases o <;> exact hhi')
    have hut : u ≠ t := by
      rintro rfl
      rw [ht] at hu
      cases hu
      cases hp
      rw [hself] at hlo
      omega
    exact ⟨u, p, l, by rw [Function.update_of_ne hut, hu], hp, h1, h2⟩
  · intro n hlo hhi'
    have hle := (hext.committed .recv).trans hlo
    show some (r.slots (Wrap.slotOf cap.size n)) = g.valueAt n
    rcases Nat.lt_or_ge n (g.committed .send) with hn | hn
    · exact hinv.slots n hle hn
    · -- a newly committed position: its writer is the committing thread
      have hs : op.side = .send := by
        by_contra hs
        rw [hoth .send (Ne.symm hs)] at hhi'
        omega
      rw [hs] at hself heq
      rw [hs, hself] at hhi'
      have hj := hcop.written hs (n - g.mark t) (by omega)
      rwa [show g.mark t + (n - g.mark t) = n by omega] at hj

/-! ### The step lemma -/

/-- Every access of a thread inside a ring operation keeps the invariant, provided a CAS is made on
a fresh head load. -/
theorem RingInv.access (hinv : RingInv cap r g pc) {t : T} {p : RingPc ω β} (weak : Bool)
    (ht : pc t = some p) (hfresh : g.CasFresh t p) :
    RingInv cap (r.step cap weak p).1 (g.step cap r t weak p)
      (Function.update pc t (r.step cap weak p).2.getLeft?) := by
  have hp := hinv.thread t p ht
  cases p with
  | loadHead op => exact hinv.loadHead ht
  | loadOpp op h =>
    simp only [Ring.step, RingGhost.step]
    cases hk : op.reserve cap h (r.cur op.side.other).tail with
    | none => exact hinv.move t none (by rw [ht]; rfl) fun p hp => by cases hp
    | some k => exact hinv.loadOpp ht hk
  | cas op h k =>
    simp only [Ring.step, RingGhost.step]
    by_cases hc : weak = false ∧ (r.cur op.side).head = h
    · rw [if_pos hc, if_pos hc]
      exact hinv.reserve ht hfresh hc.2
    · rw [if_neg hc, if_neg hc]
      refine hinv.move t _ (by rw [ht]; rfl) fun p hp' => ?_
      cases hp'
      exact hp.1
  | copy op h k i acc =>
    obtain ⟨hv, hrun, hi, hcop⟩ := hp
    have hnext : ∀ (r' : Ring β) (acc' : List β), (if i + 1 < k.toNat then
          (r', (Sum.inl (RingPc.copy op h k (i + 1) acc') : RingPc ω β ⊕ RingRes β))
        else (r', .inl (.wait op h k acc'))) = (r', .inl (RingPc.afterCopy op h k i acc')) := by
      intro r' acc'
      rw [RingPc.afterCopy]
      split <;> rfl
    simp only [Ring.step, RingGhost.step, Ring.copyElem, hnext]
    cases hs : op.side with
    | send =>
      have hlen : i < op.data.length := by
        rw [op.data_length hs]
        exact hi.trans_le hrun.le_want
      rw [List.getElem?_eq_getElem hlen]
      exact hinv.write ht hs (List.getElem?_eq_getElem hlen)
    | recv => exact hinv.read ht hs
  | wait op h k acc =>
    obtain ⟨hv, hrun, hcop⟩ := hp
    simp only [Ring.step, RingGhost.step]
    split
    · next htail =>
      refine hinv.move t _ (by rw [ht]; rfl) fun p hp' => ?_
      cases hp'
      exact ⟨hv, hrun, hcop, (hinv.turn hrun).1 htail⟩
    · refine hinv.move t _ (by rw [ht]; rfl) fun p hp' => ?_
      cases hp'
      exact ⟨hv, hrun, hcop⟩
  | store op h k acc => exact hinv.store ht

/-- A thread outside the ring operations may start one. -/
theorem RingInv.begin (hinv : RingInv cap r g pc) {t : T} {op : RingOp ω β} (ht : pc t = none)
    (hv : op.Valid) : RingInv cap r g (Function.update pc t (some (.loadHead op))) := by
  refine hinv.move t _ (by rw [ht]; rfl) fun p hp => ?_
  cases hp
  exact hv

end Steps

end Preservation

/-- A new ring meets the invariant. -/
theorem RingInv.init (cap : RingCap) (slots : U32 → β) :
    RingInv cap (Ring.init slots) (RingGhost.init : RingGhost T ω β) fun _ => none := by
  have hres : ∀ o, (RingGhost.init : RingGhost T ω β).reserved o = 0 := by
    intro o
    cases o <;> rfl
  refine ⟨fun o => by rw [hres]; rfl, fun _ => rfl, ⟨?_, ?_, ?_, ?_⟩, ?_, ?_, fun o n _ h => ?_,
    fun n _ h => ?_⟩
  · exact Nat.zero_le _
  · rw [hres]
    exact Nat.zero_le _
  · exact Nat.zero_le _
  · rw [hres]
    exact Nat.zero_le _
  · intro t p hp
    cases hp
  · intro t u p q o k l _ hp
    cases hp
  · rw [hres] at h
    omega
  · exact absurd h (Nat.not_lt_zero n)

end LibChan
