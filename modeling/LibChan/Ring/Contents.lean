import LibChan.Ring.Sequential
import LibChan.Base.BoundedQueue

/-!
# The contents of a ring at rest

`HoldsAt cap r n q`: the ring holds the elements `q`, and `n` elements have been taken from it so far.
A push or a burst push run alone is `BoundedQueue.pushMany` on the contents, a pop or a burst pop is
`BoundedQueue.popMany` (`HoldsAt.run_send`, `HoldsAt.run_recv`), whatever the 32-bit cursors hold.
-/

set_option autoImplicit false

namespace LibChan

variable {ω β : Type} {cap : RingCap}

/-! ## What the copies do -/

/-- A producer writes its elements to the slots of the run and to no others. -/
theorem Ring.copyRun_send {op : RingOp ω β} {h k : U32} (hside : op.side = .send)
    (hinj : ∀ i j, i < k.toNat → j < k.toNat → op.slot cap h k i = op.slot cap h k j → i = j)
    (hdata : k.toNat ≤ op.data.length) (d : Nat) :
    ∀ (i : Nat) (r : Ring β) (acc : List β), i + d ≤ k.toNat →
      (Ring.copyRun cap op h k d i r acc).2 = acc ∧
      (∀ j, i ≤ j → j < i + d →
        some ((Ring.copyRun cap op h k d i r acc).1.slots (op.slot cap h k j)) =
          (op.data[j]?).map Prod.snd) ∧
      ∀ s, (∀ j, i ≤ j → j < i + d → op.slot cap h k j ≠ s) →
        (Ring.copyRun cap op h k d i r acc).1.slots s = r.slots s := by
  induction d with
  | zero => exact fun i r acc _ => ⟨rfl, fun j hj hj' => by omega, fun _ _ => rfl⟩
  | succ d ih =>
    intro i r acc hd
    have hx : op.data[i]? = some op.data[i] := List.getElem?_eq_getElem (by omega)
    have hcopy : r.copyElem cap op h k i acc =
        (r.setSlot (op.slot cap h k i) (op.data[i]).2, acc) := by
      rw [Ring.copyElem]
      simp only [hside, hx]
    rw [Ring.copyRun, hcopy]
    obtain ⟨hacc, hwritten, hkept⟩ :=
      ih (i + 1) (r.setSlot (op.slot cap h k i) (op.data[i]).2) acc (by omega)
    refine ⟨hacc, fun j hij hj => ?_, fun s hs => ?_⟩
    · rcases Nat.eq_or_lt_of_le hij with rfl | hlt
      · -- the later copies go to other slots
        rw [hkept _ fun j' hj' hj'' heq => ?_]
        · rw [hx, Ring.setSlot]
          simp only [Function.update_self, Option.map_some]
        · have := hinj j' i (by omega) (by omega) heq
          omega
      · exact hwritten j hlt (by omega)
    · rw [hkept s fun j hij hj => hs j (by omega) (by omega), Ring.setSlot]
      exact Function.update_of_ne (hs i le_rfl (by omega)).symm _ _

/-- A consumer reads the slots of the run. -/
theorem Ring.copyRun_recv {op : RingOp ω β} {h k : U32} (hside : op.side = .recv) (r : Ring β)
    (d : Nat) : ∀ (i : Nat) (acc : List β), Ring.copyRun cap op h k d i r acc =
      (r, acc ++ (List.range' i d).map fun j => r.slots (op.slot cap h k j)) := by
  induction d with
  | zero =>
    intro i acc
    rw [Ring.copyRun, List.range'_zero, List.map_nil, List.append_nil]
  | succ d ih =>
    intro i acc
    have hcopy : r.copyElem cap op h k i acc = (r, acc ++ [r.slots (op.slot cap h k i)]) := by
      rw [Ring.copyElem]
      simp only [hside]
    rw [Ring.copyRun, hcopy, ih, List.range'_succ, List.map_cons, List.append_assoc,
      List.singleton_append]

/-! ## Contents -/

/-- The ring is at rest, `n` elements have been taken from it, and it holds the elements `q`. -/
structure HoldsAt (cap : RingCap) (r : Ring β) (n : Nat) (q : List β) : Prop where
  cons : (r.cur .recv).head = BitVec.ofNat 32 n ∧ (r.cur .recv).tail = BitVec.ofNat 32 n
  prod : (r.cur .send).head = BitVec.ofNat 32 (n + q.length) ∧
    (r.cur .send).tail = BitVec.ofNat 32 (n + q.length)
  le : q.length ≤ cap.size
  slots : ∀ i < q.length, q[i]? = some (r.slots (Wrap.slotOf cap.size (n + i)))

theorem HoldsAt.init (cap : RingCap) (slots : U32 → β) : HoldsAt cap (Ring.init slots) 0 [] where
  cons := ⟨rfl, rfl⟩
  prod := ⟨rfl, rfl⟩
  le := Nat.zero_le _
  slots i hi := absurd hi (Nat.not_lt_zero i)

section Run

variable {r : Ring β} {n : Nat} {q : List β} {op : RingOp ω β}

/-- The difference of the cursors is the number of elements. -/
theorem HoldsAt.count (h : HoldsAt cap r n q) :
    ((r.cur .send).tail - (r.cur .recv).head).toNat = q.length := by
  have hle := h.le
  have hcap := cap.size_le
  rw [h.prod.2, h.cons.1, Wrap.ofNat_sub_toNat (by omega) (by omega)]
  omega

/-- Phase 1 of a producer: it reserves as much as it wants and there is room for. -/
theorem HoldsAt.reserve_send (h : HoldsAt cap r n q) (hside : op.side = .send) (hv : op.Valid) :
    op.reserve cap (r.cur .send).head (r.cur .recv).tail =
      if q.length = cap.size then none
      else some (BitVec.ofNat 32 (min op.want (cap.size - q.length))) := by
  have hle := h.le
  rw [h.prod.1, h.cons.2, RingOp.reserve_send hside hv (by omega) (by omega)]
  simp only [Nat.add_left_cancel_iff, Nat.add_sub_add_left]

/-- Phase 1 of a consumer: it reserves as much as it wants and is there. -/
theorem HoldsAt.reserve_recv (h : HoldsAt cap r n q) (hside : op.side = .recv) (hv : op.Valid) :
    op.reserve cap (r.cur .recv).head (r.cur .send).tail =
      if q.length = 0 then none else some (BitVec.ofNat 32 (min op.want q.length)) := by
  have hle := h.le
  rw [h.cons.1, h.prod.2, RingOp.reserve_recv hside hv (by omega) (by omega)]
  simp only [Nat.add_eq_left, Nat.add_sub_cancel_left]

theorem HoldsAt.quiescent (h : HoldsAt cap r n q) : Quiescent cap r where
  same o := by
    cases o with
    | send => exact h.prod.1.trans h.prod.2.symm
    | recv => exact h.cons.1.trans h.cons.2.symm
  le := by
    rw [h.count]
    exact h.le

/-- The slots of a run of at most one lap are different. -/
theorem RingOp.slot_inj {m : Nat} {k : U32} (hk : k.toNat ≤ op.want) (hcap : k.toNat ≤ cap.size)
    (i j : Nat) (hi : i < k.toNat) (hj : j < k.toNat)
    (heq : op.slot cap (BitVec.ofNat 32 m) k i = op.slot cap (BitVec.ofNat 32 m) k j) : i = j := by
  have hsize := cap.size_le
  rw [RingOp.slot_eq hi hk hcap, RingOp.slot_eq hj hk hcap] at heq
  have := Wrap.slotOf_inj (a := m) (by omega) (by omega) (by omega) (by omega) (by omega) heq
  omega

/-- A producer operation run alone appends as many of its elements as fit. -/
theorem HoldsAt.run_send (h : HoldsAt cap r n q) (hside : op.side = .send)
    (hwant : op.want < 2 ^ 32) :
    ∃ r', r.run cap op = some (r', ⟨(BoundedQueue.pushMany cap.size q (op.data.map Prod.snd)).1, []⟩) ∧
      HoldsAt cap r' n (BoundedQueue.pushMany cap.size q (op.data.map Prod.snd)).2 := by
  have hlen : (op.data.map Prod.snd).length = op.want := by
    rw [List.length_map, RingOp.data_length hside]
  have hle := h.le
  have hsize := cap.size_le
  rw [BoundedQueue.pushMany, hlen]
  -- nothing is moved when nothing is offered or the ring is full
  have hnone : ∀ (hz : min op.want (cap.size - q.length) = 0) (hrun : r.run cap op = some (r, .fail)),
      ∃ r', r.run cap op = some (r', ⟨min op.want (cap.size - q.length), []⟩) ∧ HoldsAt cap r' n
        (q ++ (op.data.map Prod.snd).take (min op.want (cap.size - q.length))) := by
    intro hz hrun
    refine ⟨r, by rw [hrun, hz]; rfl, ?_⟩
    rw [hz, List.take_zero, List.append_nil]
    exact h
  by_cases hzero : op.want = 0
  · exact hnone (by omega) (by rw [Ring.run, if_pos hzero])
  have hres := h.reserve_send hside ⟨by omega, hwant⟩
  by_cases hfull : q.length = cap.size
  · rw [if_pos hfull] at hres
    exact hnone (by omega) (Ring.run_none (by rw [hside]; exact hres))
  rw [if_neg hfull] at hres
  generalize hk : BitVec.ofNat 32 (min op.want (cap.size - q.length)) = k at hres
  have hkn : k.toNat = min op.want (cap.size - q.length) := by
    rw [← hk, BitVec.toNat_ofNat, Nat.mod_eq_of_lt (by omega)]
  have hpos : 0 < k.toNat := by omega
  have hkw : k.toNat ≤ op.want := by omega
  have hkc : q.length + k.toNat ≤ cap.size := by omega
  have hrun := Ring.run_some hzero (h.quiescent.same _) hpos hkw (by rw [hside]; exact hres)
  have hhead : (r.cur op.side).head = BitVec.ofNat 32 (n + q.length) := by rw [hside]; exact h.prod.1
  have hinj : ∀ i j, i < k.toNat → j < k.toNat → op.slot cap (r.cur op.side).head k i =
      op.slot cap (r.cur op.side).head k j → i = j := by
    rw [hhead]
    exact RingOp.slot_inj hkw (by omega)
  obtain ⟨hvals, hwritten, hkept⟩ := Ring.copyRun_send hside hinj
    (by rw [RingOp.data_length hside]; exact hkw) k.toNat 0
    (r.setHead op.side ((r.cur op.side).head + k)) [] (Nat.zero_add _).le
  rw [← hkn]
  refine ⟨(r.done cap op k).1, ?_, ?_⟩
  · rw [hrun]
    exact congrArg some (Prod.ext rfl (congrArg (RingRes.mk k.toNat) hvals))
  · have hnew : (q ++ (op.data.map Prod.snd).take k.toNat).length = q.length + k.toNat := by
      rw [List.length_append, List.length_take, hlen]
      omega
    have hcur : (r.done cap op k).1.cur = _ := r.done_cur op k
    rw [hside] at hcur
    refine ⟨?_, ?_, hnew.le.trans hkc, fun i hi => ?_⟩
    · rw [hcur, Function.update_of_ne (by decide)]
      exact h.cons
    · rw [hcur, Function.update_self, hnew, h.prod.1, Wrap.ofNat_add_word, Nat.add_assoc]
      exact ⟨rfl, rfl⟩
    · rw [hnew] at hi
      have hslot : ∀ j < k.toNat, op.slot cap (r.cur op.side).head k j =
          Wrap.slotOf cap.size (n + q.length + j) := by
        intro j hj
        rw [hhead]
        exact RingOp.slot_eq hj hkw (by omega)
      show _ = some ((Ring.copyRun cap op _ k k.toNat 0 _ []).1.slots _)
      by_cases hold : i < q.length
      · -- the slots of the elements that were there are not those of the new ones
        rw [List.getElem?_append_left hold, h.slots i hold, hkept _ fun j _ hj heq => ?_]
        · rfl
        · rw [Nat.zero_add] at hj
          rw [hslot j hj] at heq
          have := Wrap.slotOf_inj (a := n) (by omega) (by omega) (by omega) (by omega) (by omega) heq
          omega
      · have hwrite := hwritten (i - q.length) (by omega) (by omega)
        rw [hslot (i - q.length) (by omega), show n + q.length + (i - q.length) = n + i by omega] at hwrite
        rw [List.getElem?_append_right (by omega), List.getElem?_take_of_lt (by omega),
          List.getElem?_map, hwrite]

/-- A consumer operation run alone takes as many of the oldest elements as it wants and are there. -/
theorem HoldsAt.run_recv (h : HoldsAt cap r n q) (hside : op.side = .recv)
    (hwant : op.want < 2 ^ 32) :
    ∃ r', r.run cap op = some (r', ⟨(BoundedQueue.popMany q op.want).1.length,
        (BoundedQueue.popMany q op.want).1⟩) ∧
      HoldsAt cap r' (n + (BoundedQueue.popMany q op.want).1.length)
        (BoundedQueue.popMany q op.want).2 := by
  have hle := h.le
  have hsize := cap.size_le
  have hlen : (q.take op.want).length = min op.want q.length := List.length_take
  rw [BoundedQueue.popMany]
  simp only
  have hnone : ∀ (hz : min op.want q.length = 0) (hrun : r.run cap op = some (r, .fail)),
      ∃ r', r.run cap op = some (r', ⟨(q.take op.want).length, q.take op.want⟩) ∧
        HoldsAt cap r' (n + (q.take op.want).length) (q.drop op.want) := by
    intro hz hrun
    have hnil : q.take op.want = [] := List.eq_nil_of_length_eq_zero (hlen.trans hz)
    have hall : q.drop op.want = q := by
      have := List.take_append_drop op.want q
      rwa [hnil, List.nil_append] at this
    rw [hnil, hall]
    exact ⟨r, hrun, h⟩
  by_cases hzero : op.want = 0
  · exact hnone (by omega) (by rw [Ring.run, if_pos hzero])
  have hres := h.reserve_recv hside ⟨by omega, hwant⟩
  by_cases hempty : q.length = 0
  · rw [if_pos hempty] at hres
    exact hnone (by omega) (Ring.run_none (by rw [hside]; exact hres))
  rw [if_neg hempty] at hres
  generalize hk : BitVec.ofNat 32 (min op.want q.length) = k at hres
  have hkn : k.toNat = min op.want q.length := by
    rw [← hk, BitVec.toNat_ofNat, Nat.mod_eq_of_lt (by omega)]
  have hpos : 0 < k.toNat := by omega
  have hkw : k.toNat ≤ op.want := by omega
  have hkq : k.toNat ≤ q.length := by omega
  have hrun := Ring.run_some hzero (h.quiescent.same _) hpos hkw (by rw [hside]; exact hres)
  have hhead : (r.cur op.side).head = BitVec.ofNat 32 n := by rw [hside]; exact h.cons.1
  have hcopy : Ring.copyRun cap op (r.cur op.side).head k k.toNat 0 _ [] = _ :=
    Ring.copyRun_recv hside (r.setHead op.side ((r.cur op.side).head + k)) k.toNat 0 []
  rw [hlen, ← hkn]
  refine ⟨(r.done cap op k).1, ?_, ?_⟩
  · rw [hrun]
    refine congrArg some (Prod.ext rfl (congrArg (RingRes.mk k.toNat) ?_))
    show (Ring.copyRun cap op _ k k.toNat 0 _ []).2 = _
    rw [hcopy, List.nil_append]
    apply List.ext_getElem?
    intro i
    by_cases hi : i < k.toNat
    · rw [List.getElem?_map, List.getElem?_range' hi, List.getElem?_take_of_lt (by omega),
        h.slots i (by omega), Option.map_some, Nat.one_mul, Nat.zero_add, hhead,
        RingOp.slot_eq hi hkw (by omega)]
      rfl
    · rw [List.getElem?_eq_none (by rw [List.length_map, List.length_range']; omega),
        List.getElem?_eq_none (by rw [hlen]; omega)]
  · have hcur : (r.done cap op k).1.cur = _ := r.done_cur op k
    rw [hside] at hcur
    have hrest : (q.drop op.want).length = q.length - k.toNat := by
      rw [List.length_drop]
      omega
    refine ⟨?_, ?_, by omega, fun i hi => ?_⟩
    · rw [hcur, Function.update_self, h.cons.1, Wrap.ofNat_add_word]
      exact ⟨rfl, rfl⟩
    · rw [hcur, Function.update_of_ne (by decide), hrest,
        show n + k.toNat + (q.length - k.toNat) = n + q.length by omega]
      exact h.prod
    · rw [hrest] at hi
      show _ = some ((Ring.copyRun cap op _ k k.toNat 0 _ []).1.slots _)
      rw [hcopy, List.getElem?_drop, h.slots (op.want + i) (by omega),
        show op.want = k.toNat by omega, Nat.add_assoc]
      rfl

end Run

/-! ## The slots of a run -/

/-- The slots of the `k` positions from `p` on, in order; the positions wrap at 32 bits. -/
def runSlots (cap : RingCap) (p : U32) (k : Nat) : List U32 :=
  (List.range k).map fun i => (p + BitVec.ofNat 32 i) &&& cap.mask

section Slots

variable {cap : RingCap} {p : U32} {k : Nat}

theorem slot_add (hpos : 0 < cap.size) (p : U32) (i : Nat) :
    (p + BitVec.ofNat 32 i) &&& cap.mask = Wrap.slotOf cap.size (p.toNat + i) := by
  rw [← cap.and_mask hpos, BitVec.ofNat_add, BitVec.ofNat_toNat, BitVec.setWidth_eq]

theorem nodup_runSlots (hk : k ≤ cap.size) : (runSlots cap p k).Nodup := by
  refine List.Nodup.map_on (fun i hi j hj heq => ?_) List.nodup_range
  rw [List.mem_range] at hi hj
  rw [slot_add (by omega), slot_add (by omega)] at heq
  have hcap := cap.size_le
  -- both positions lie within one lap of the first
  have hsame : p.toNat + i = p.toNat + j :=
    Wrap.slotOf_inj (a := p.toNat) (by omega) (by omega) (by omega) (by omega) (by omega) heq
  omega

theorem map_burstSlot (hk : k ≤ cap.size) :
    (List.range k).map (burstSlot cap p (BitVec.ofNat 32 k)) = runSlots cap p k := by
  apply List.map_congr_left
  intro i hi
  rw [List.mem_range] at hi
  have hcap := cap.size_le
  have hword : (BitVec.ofNat 32 k).toNat = k := by
    rw [BitVec.toNat_ofNat, Nat.mod_eq_of_lt (by omega)]
  have hburst : burstSlot cap (BitVec.ofNat 32 p.toNat) (BitVec.ofNat 32 k) i =
      Wrap.slotOf cap.size (p.toNat + i) := burstSlot_eq (by omega) (by omega)
  rw [BitVec.ofNat_toNat, BitVec.setWidth_eq] at hburst
  rw [hburst, slot_add (by omega)]

/-- The slots of a run are those from `p & mask` up to the end of the array, then those from zero. -/
theorem runSlots_eq_append (hk : k ≤ cap.size) (hpos : 0 < cap.size) :
    runSlots cap p k =
      (List.range (min k (cap.size - (p &&& cap.mask).toNat))).map
        (fun i => BitVec.ofNat 32 ((p &&& cap.mask).toNat + i)) ++
      (List.range (k - min k (cap.size - (p &&& cap.mask).toNat))).map (BitVec.ofNat 32) := by
  have hcap := cap.size_le
  have hlt : p.toNat % cap.size < cap.size := Nat.mod_lt _ hpos
  rw [cap.toNat_and_mask hpos]
  generalize hfirst : min k (cap.size - p.toNat % cap.size) = first
  have hsplit : k = first + (k - first) := by omega
  rw [runSlots]
  conv_lhs => rw [hsplit, List.range_add, List.map_append, List.map_map]
  congr 1
  · apply List.map_congr_left
    intro i hi
    rw [List.mem_range] at hi
    rw [slot_add hpos, Wrap.slotOf, Nat.add_mod, Nat.mod_eq_of_lt (by omega : i < cap.size),
      Nat.mod_eq_of_lt (by omega)]
  · apply List.map_congr_left
    intro j hj
    rw [List.mem_range] at hj
    show (p + BitVec.ofNat 32 (first + j)) &&& cap.mask = BitVec.ofNat 32 j
    -- the first part has reached the end of the array
    have hend : p.toNat % cap.size + (first + j) = j + cap.size := by omega
    rw [slot_add hpos, Wrap.slotOf, ← Nat.mod_add_mod, hend, Nat.add_mod_right,
      Nat.mod_eq_of_lt (by omega)]

end Slots

/-- For a request `n` up to `2 ^ 31`: `next_pow2` gives the least power of two that is at least `n`, and
in a ring of that capacity the `k` positions from any `p` on, wrapping at 32 bits, have `k` different
slots; the burst copies visit exactly these, in this order, and they are `min k (C - (p & mask))` slots
from `p & mask` on followed by the remaining ones from slot zero. -/
theorem burst_visits_run (n : Nat) (hpos : 1 ≤ n) (hle : n ≤ 2 ^ 31) :
    IsLeast { c | (∃ e, c = 2 ^ e) ∧ n ≤ c } (nextPow2 (BitVec.ofNat 32 n)).toNat ∧
    ∀ cap : RingCap, cap.val = nextPow2 (BitVec.ofNat 32 n) → ∀ (p : U32) (k : Nat), k ≤ cap.size →
      (runSlots cap p k).Nodup ∧
      (List.range k).map (burstSlot cap p (BitVec.ofNat 32 k)) = runSlots cap p k ∧
      runSlots cap p k =
        (List.range (min k (cap.size - (p &&& cap.mask).toNat))).map
          (fun i => BitVec.ofNat 32 ((p &&& cap.mask).toNat + i)) ++
        (List.range (k - min k (cap.size - (p &&& cap.mask).toNat))).map (BitVec.ofNat 32) := by
  have hleast := nextPow2_isLeast hpos hle
  refine ⟨hleast, fun cap hcap p k hk => ⟨nodup_runSlots hk, map_burstSlot hk, ?_⟩⟩
  have hsize : n ≤ cap.size := by
    rw [RingCap.size, hcap]
    exact hleast.1.2
  exact runSlots_eq_append hk (by omega)

/-- A ring for three elements has four slots; a run of three that starts one position before the cursor
wraps visits the slots three, zero and one. -/
theorem burst_visits_run_wrapped :
    (nextPow2 3).toNat = 4 ∧ runSlots (RingCap.ofRequest 3) (BitVec.ofNat 32 (2 ^ 32 - 1)) 3 = [3, 0, 1] ∧
    (runSlots (RingCap.ofRequest 3) (BitVec.ofNat 32 (2 ^ 32 - 1)) 3).Nodup := by
  have hmain := (burst_visits_run 3 (by decide) (by decide)).2 (RingCap.ofRequest 3) rfl
    (BitVec.ofNat 32 (2 ^ 32 - 1)) 3 (by decide)
  exact ⟨by decide, by decide, hmain.1⟩

end LibChan
