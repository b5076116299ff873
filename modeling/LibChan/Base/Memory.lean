import Mathlib.Data.List.Basic

/-!
# Blocks of memory

A block is a list of cells. `Memory.read` and `Memory.write` access a range of it and fail when the
range leaves the block; `Memory.copy` is `memcpy` between two blocks. `Memory.chunk` views a block as
an array of elements of `size` cells each, and a copy between element boundaries moves whole chunks
(`chunk_write`, `chunk_read`). The last section copies runs into and out of a circular array, in two
parts when they go over its end.
-/

set_option autoImplicit false

namespace LibChan.Memory

variable {B : Type}

/-- Read `len` cells from offset `off`. -/
def read (block : List B) (off len : Nat) : Option (List B) :=
  if off + len ≤ block.length then some ((block.drop off).take len) else none

/-- Overwrite the cells from offset `off` on with `src`. -/
def write (block : List B) (off : Nat) (src : List B) : Option (List B) :=
  if off + src.length ≤ block.length then
    some (block.take off ++ src ++ block.drop (off + src.length))
  else none

/-- `memcpy` of `len` cells from offset `soff` of `src` to offset `off` of `block`. -/
def copy (block : List B) (off : Nat) (src : List B) (soff len : Nat) : Option (List B) :=
  (read src soff len).bind (write block off)

/-- Element `i` of an array of elements of `size` cells. -/
def chunk (size : Nat) (block : List B) (i : Nat) : List B := (block.drop (i * size)).take size

/-- The first `n` elements of such an array. -/
def chunks (size n : Nat) (block : List B) : List (List B) := (List.range n).map (chunk size block)

variable {block block' src bytes : List B} {off len size i j k n x : Nat}

theorem read_eq_some (h : off + len ≤ block.length) :
    read block off len = some ((block.drop off).take len) := if_pos h

theorem length_of_read (h : read block off len = some bytes) : bytes.length = len := by
  obtain ⟨hfit, heq⟩ := Option.ite_none_right_eq_some.1 h
  cases heq
  rw [List.length_take, List.length_drop]
  omega

theorem chunk_zero (h : block.length = size) : chunk size block 0 = block := by
  rw [chunk, Nat.zero_mul, List.drop_zero, ← h, List.take_length]

/-- A copy that stays in both blocks. -/
theorem exists_copy {soff : Nat} (hsrc : soff + len ≤ src.length) (h : off + len ≤ block.length) :
    ∃ bytes block', copy block off src soff len = some block' ∧ read src soff len = some bytes ∧
      write block off bytes = some block' := by
  have hread := read_eq_some hsrc
  have hlen := length_of_read hread
  refine ⟨_, _, ?_, hread, if_pos (by rw [hlen]; exact h)⟩
  rw [copy, hread, Option.bind_some, write, if_pos (by rw [hlen]; exact h)]

theorem length_of_write (h : write block off src = some block') :
    block'.length = block.length := by
  obtain ⟨hfit, heq⟩ := Option.ite_none_right_eq_some.1 h
  cases heq
  rw [List.length_append, List.length_append, List.length_take, List.length_drop]
  omega

/-- A write changes the cells of its range and no others. -/
theorem getElem?_of_write (h : write block off src = some block') (x : Nat) :
    block'[x]? = if off ≤ x ∧ x < off + src.length then src[x - off]? else block[x]? := by
  obtain ⟨hfit, heq⟩ := Option.ite_none_right_eq_some.1 h
  cases heq
  have hlen : (block.take off).length = off := by
    rw [List.length_take]
    omega
  rw [List.append_assoc, List.getElem?_append, hlen]
  by_cases hlo : x < off
  · rw [if_pos hlo, if_neg (by omega), List.getElem?_take_of_lt hlo]
  · rw [if_neg hlo, List.getElem?_append]
    by_cases hhi : x - off < src.length
    · rw [if_pos hhi, if_pos (by omega)]
    · rw [if_neg hhi, if_neg (by omega), List.getElem?_drop]
      congr 1
      omega

theorem getElem?_chunk (size : Nat) (block : List B) (i x : Nat) :
    (chunk size block i)[x]? = if x < size then block[i * size + x]? else none := by
  rw [chunk, List.getElem?_take, List.getElem?_drop]

/-- A cell of element `i` lies in the `k` elements from element `j` on exactly when `i` does. -/
theorem mem_range_iff (hx : x < size) :
    (j * size ≤ i * size + x ∧ i * size + x < j * size + k * size) ↔ (j ≤ i ∧ i < j + k) := by
  rw [← Nat.add_mul]
  constructor
  · rintro ⟨hlo, hhi⟩
    constructor
    · by_contra hlt
      have := Nat.mul_le_mul_right size (show i + 1 ≤ j by omega)
      rw [Nat.succ_mul] at this
      omega
    · by_contra hge
      have := Nat.mul_le_mul_right size (show j + k ≤ i by omega)
      omega
  · rintro ⟨hlo, hhi⟩
    have hle := Nat.mul_le_mul_right size hlo
    have hlt := Nat.mul_le_mul_right size (show i + 1 ≤ j + k by omega)
    rw [Nat.succ_mul] at hlt
    omega

/-- A write of `k` whole elements replaces these elements. -/
theorem chunk_write (h : write block (j * size) src = some block') (hsrc : src.length = k * size)
    (i : Nat) :
    chunk size block' i = if j ≤ i ∧ i < j + k then chunk size src (i - j) else chunk size block i := by
  apply List.ext_getElem?
  intro x
  rw [getElem?_chunk]
  by_cases hx : x < size
  · rw [if_pos hx, getElem?_of_write h, hsrc]
    by_cases hi : j ≤ i ∧ i < j + k
    · have hoff : i * size + x - j * size = (i - j) * size + x := by
        have hle := Nat.mul_le_mul_right size hi.1
        rw [Nat.sub_mul]
        omega
      rw [if_pos ((mem_range_iff hx).2 hi), if_pos hi, getElem?_chunk, if_pos hx, hoff]
    · rw [if_neg fun hmem => hi ((mem_range_iff hx).1 hmem), if_neg hi, getElem?_chunk, if_pos hx]
  · rw [if_neg hx]
    split <;> rw [getElem?_chunk, if_neg hx]

/-- Reading `k` whole elements gives these elements. -/
theorem chunk_read (h : read block (j * size) (k * size) = some bytes) (hi : i < k) :
    chunk size bytes i = chunk size block (j + i) := by
  obtain ⟨-, heq⟩ := Option.ite_none_right_eq_some.1 h
  cases heq
  apply List.ext_getElem?
  intro x
  rw [getElem?_chunk, getElem?_chunk]
  by_cases hx : x < size
  · have hlt := Nat.mul_le_mul_right size (show i + 1 ≤ k by omega)
    rw [Nat.succ_mul] at hlt
    rw [if_pos hx, if_pos hx, List.getElem?_take_of_lt (by omega), List.getElem?_drop, Nat.add_mul,
      Nat.add_assoc]
  · rw [if_neg hx, if_neg hx]

/-- An array appended to `k` whole elements. -/
theorem chunk_append (h : block.length = k * size) (i : Nat) :
    chunk size (block ++ src) i = if i < k then chunk size block i else chunk size src (i - k) := by
  apply List.ext_getElem?
  intro x
  rw [getElem?_chunk]
  by_cases hx : x < size
  · rw [if_pos hx, List.getElem?_append, h]
    by_cases hi : i < k
    · have hlt := Nat.mul_le_mul_right size (show i + 1 ≤ k by omega)
      rw [Nat.succ_mul] at hlt
      rw [if_pos (by omega), if_pos hi, getElem?_chunk, if_pos hx]
    · have hle := Nat.mul_le_mul_right size (show k ≤ i by omega)
      rw [if_neg (by omega), if_neg hi, getElem?_chunk, if_pos hx, Nat.sub_mul]
      congr 1
      omega
  · rw [if_neg hx]
    split <;> rw [getElem?_chunk, if_neg hx]

theorem length_chunk (h : (i + 1) * size ≤ block.length) : (chunk size block i).length = size := by
  rw [Nat.succ_mul] at h
  rw [chunk, List.length_take, List.length_drop]
  omega

theorem length_chunks (size n : Nat) (block : List B) : (chunks size n block).length = n := by
  rw [chunks, List.length_map, List.length_range]

/-- The first elements of a block. -/
theorem take_chunks (h : k ≤ n) : (chunks size n block).take k = chunks size k block := by
  rw [chunks, ← List.map_take, List.take_range, Nat.min_eq_left h, chunks]

/-- A block of whole elements is the concatenation of its elements. -/
theorem flatten_chunks (h : block.length = n * size) : (chunks size n block).flatten = block := by
  induction n generalizing block with
  | zero =>
    rw [Nat.zero_mul] at h
    rw [List.eq_nil_of_length_eq_zero h]
    rfl
  | succ n ih =>
    -- the first element, and the elements of the rest
    have hrest : (block.drop size).length = n * size := by
      rw [List.length_drop, h, Nat.succ_mul, Nat.add_sub_cancel]
    have hchunk : ∀ i, chunk size (block.drop size) i = chunk size block (i + 1) := by
      intro i
      rw [chunk, chunk, List.drop_drop, Nat.succ_mul, Nat.add_comm]
    have hfirst : chunk size block 0 = block.take size := by
      rw [chunk, Nat.zero_mul, List.drop_zero]
    have htail := ih hrest
    rw [chunks, List.map_congr_left fun i _ => hchunk i] at htail
    rw [chunks, List.range_succ_eq_map, List.map_cons, List.map_map, List.flatten_cons, hfirst]
    show block.take size ++ ((List.range n).map fun i => chunk size block (i + 1)).flatten = block
    rw [htail, List.take_append_drop]

/-! ## Circular arrays -/

/-- Copy `k` elements to the slots from `idx` on of a circular array of `c` elements. -/
def copyRound (size c : Nat) (block : List B) (idx k : Nat) (src : List B) : Option (List B) :=
  if k ≤ c - idx then copy block (idx * size) src 0 (k * size)
  else (copy block (idx * size) src 0 ((c - idx) * size)).bind fun block' =>
    copy block' 0 src ((c - idx) * size) ((k - (c - idx)) * size)

/-- Read the `k` elements from slot `idx` on of a circular array of `c` elements. -/
def readRound (size c : Nat) (block : List B) (idx k : Nat) : Option (List B) :=
  if k ≤ c - idx then read block (idx * size) (k * size)
  else (read block (idx * size) ((c - idx) * size)).bind fun front =>
    (read block 0 ((k - (c - idx)) * size)).bind fun back => some (front ++ back)

/-- The slots of a run: up to the end of the array, and then from its start. -/
theorem add_mod_cases {c idx : Nat} (hidx : idx < c) (hj : j ≤ c) :
    (idx + j) % c = if idx + j < c then idx + j else idx + j - c := by
  split
  case isTrue h => exact Nat.mod_eq_of_lt h
  case isFalse h =>
    rw [Nat.mod_eq_sub_mod (by omega), Nat.mod_eq_of_lt]
    omega

section Round

variable {c idx : Nat}

/-- The copy puts element `j` of the source into the slot of position `idx + j`, and changes no other
slot. -/
theorem copyRound_spec (hblock : block.length = c * size) (hidx : idx < c) (hk : k ≤ c)
    (hsrc : k * size ≤ src.length) :
    ∃ block', copyRound size c block idx k src = some block' ∧ block'.length = block.length ∧
      (∀ j < k, chunk size block' ((idx + j) % c) = chunk size src j) ∧
      ∀ i, (∀ j < k, (idx + j) % c ≠ i) → chunk size block' i = chunk size block i := by
  have hmod := fun j (hj : j < k) => add_mod_cases (j := j) hidx (by omega)
  have hzero : (0 : Nat) = 0 * size := (Nat.zero_mul size).symm
  rw [copyRound]
  by_cases hone : k ≤ c - idx
  · rw [if_pos hone]
    have hend : idx * size + k * size ≤ block.length := by
      rw [← Nat.add_mul, hblock]
      exact Nat.mul_le_mul_right _ (by omega)
    have hsrc' : 0 + k * size ≤ src.length := by rw [Nat.zero_add]; exact hsrc
    obtain ⟨bytes, block', hcopy, hread, hwrite⟩ := exists_copy hsrc' hend
    have hchunk := chunk_write hwrite (length_of_read hread)
    rw [hzero] at hread
    refine ⟨block', hcopy, length_of_write hwrite, fun j hj => ?_, fun i hne => ?_⟩
    · rw [hmod j hj, if_pos (by omega), hchunk, if_pos (by omega), Nat.add_sub_cancel_left,
        chunk_read hread hj, Nat.zero_add]
    · rw [hchunk, if_neg]
      rintro ⟨hlo, hhi⟩
      apply hne (i - idx) (by omega)
      rw [hmod (i - idx) (by omega), if_pos (by omega)]
      omega
  · -- the run goes over the end of the array
    rw [if_neg hone]
    have hsplit : (c - idx) * size + (k - (c - idx)) * size = k * size := by
      rw [← Nat.add_mul]
      congr 1
      omega
    have hend : idx * size + (c - idx) * size ≤ block.length := by
      rw [← Nat.add_mul, hblock]
      exact Nat.mul_le_mul_right _ (by omega)
    have hsrc' : 0 + (c - idx) * size ≤ src.length := by omega
    obtain ⟨bytes, block₁, hcopy, hread, hwrite⟩ := exists_copy hsrc' hend
    have hchunk := chunk_write hwrite (length_of_read hread)
    have hlen := length_of_write hwrite
    have hend' : 0 + (k - (c - idx)) * size ≤ block₁.length := by
      rw [Nat.zero_add, hlen, hblock]
      exact Nat.mul_le_mul_right _ (by omega)
    obtain ⟨bytes', block₂, hcopy', hread', hwrite'⟩ := exists_copy (hsplit ▸ hsrc) hend'
    have hlen' := length_of_read hread'
    rw [hzero] at hread hwrite'
    have hchunk' := chunk_write hwrite' hlen'
    refine ⟨block₂, by rw [hcopy]; exact hcopy', (length_of_write hwrite').trans hlen,
      fun j hj => ?_, fun i hne => ?_⟩
    · rw [hmod j hj, hchunk']
      by_cases hfront : idx + j < c
      · rw [if_pos hfront, if_neg (by omega), hchunk, if_pos (by omega), Nat.add_sub_cancel_left,
          chunk_read hread (by omega), Nat.zero_add]
      · rw [if_neg hfront, if_pos (by omega), chunk_read hread' (by omega)]
        congr 1
        omega
    · have hback : ¬ (0 ≤ i ∧ i < 0 + (k - (c - idx))) := by
        rintro ⟨-, hhi⟩
        apply hne (c - idx + i) (by omega)
        rw [hmod (c - idx + i) (by omega), if_neg (by omega)]
        omega
      have hfront : ¬ (idx ≤ i ∧ i < idx + (c - idx)) := by
        rintro ⟨hlo, hhi⟩
        apply hne (i - idx) (by omega)
        rw [hmod (i - idx) (by omega), if_pos (by omega)]
        omega
      rw [hchunk', if_neg hback, hchunk, if_neg hfront]

/-- The read gives the elements of the slots of the positions from `idx` on. -/
theorem readRound_spec (hblock : block.length = c * size) (hidx : idx < c) (hk : k ≤ c) :
    ∃ bytes, readRound size c block idx k = some bytes ∧ bytes.length = k * size ∧
      ∀ j < k, chunk size bytes j = chunk size block ((idx + j) % c) := by
  have hmod := fun j (hj : j < k) => add_mod_cases (j := j) hidx (by omega)
  rw [readRound]
  by_cases hone : k ≤ c - idx
  · rw [if_pos hone]
    have hend : idx * size + k * size ≤ block.length := by
      rw [← Nat.add_mul, hblock]
      exact Nat.mul_le_mul_right _ (by omega)
    have hread := read_eq_some hend
    refine ⟨_, hread, length_of_read hread, fun j hj => ?_⟩
    rw [hmod j hj, if_pos (by omega), chunk_read hread hj]
  · rw [if_neg hone]
    have hend : idx * size + (c - idx) * size ≤ block.length := by
      rw [← Nat.add_mul, hblock]
      exact Nat.mul_le_mul_right _ (by omega)
    have hend' : 0 * size + (k - (c - idx)) * size ≤ block.length := by
      rw [← Nat.add_mul, hblock]
      exact Nat.mul_le_mul_right _ (by omega)
    have hread := read_eq_some hend
    have hread' := read_eq_some hend'
    have hlen := length_of_read hread
    refine ⟨_, by rw [hread, Option.bind_some, ← Nat.zero_mul size, hread']; rfl, ?_, fun j hj => ?_⟩
    · rw [List.length_append, hlen, length_of_read hread', ← Nat.add_mul]
      congr 1
      omega
    · rw [chunk_append hlen, hmod j hj]
      by_cases hfront : idx + j < c
      · rw [if_pos (by omega), if_pos hfront, chunk_read hread (by omega)]
      · rw [if_neg (by omega), if_neg hfront, chunk_read hread' (by omega)]
        congr 1
        omega

end Round

end LibChan.Memory
