import LibChan.Ring.Safety
import LibChan.Ring.Spsc

/-!
# Ring operations one after another

Plain and cached ring operations run to their end without interference, in any order. The cached
operations agree with the plain ones exactly as long as the private copy of the opposite tail refuses
whenever the real tail does (`CacheOk`). Bursts and locked operations never refresh the copies, so
this fails once a copy is half a lap of the 32-bit counters behind.
-/

set_option autoImplicit false

namespace LibChan

variable {ω β : Type}

/-! ## Sequences of calls -/

namespace Ring

/-- Run a plain operation to its end without interference; `none` when `fuel` accesses are not
enough. -/
def finish (cap : RingCap) : Nat → Ring β → RingPc ω β → Option (Ring β × RingRes β)
  | 0, _, _ => none
  | n + 1, r, p =>
    match r.step cap false p with
    | (r', .inl p') => finish cap n r' p'
    | (r', .inr res) => some (r', res)

/-- A plain operation run alone: two loads, the CAS, one copy for each element, a look at the tail
and the store. -/
def run (cap : RingCap) (r : Ring β) (op : RingOp ω β) : Option (Ring β × RingRes β) :=
  if op.want = 0 then some (r, .fail) else finish cap (op.want + 5) r (.loadHead op)

/-- Run a cached operation to its end without interference. -/
def spscFinish (cap : RingCap) : Nat → Ring β → SpscPc ω β → Option (Ring β × RingRes β)
  | 0, _, _ => none
  | n + 1, r, p =>
    match r.spscStep cap p with
    | (r', .inl p') => spscFinish cap n r' p'
    | (r', .inr res) => some (r', res)

/-- A cached operation run alone takes at most five accesses. -/
def spscRun (cap : RingCap) (r : Ring β) (op : RingOp ω β) : Option (Ring β × RingRes β) :=
  spscFinish cap 5 r (.loadHead op)

end Ring

/-- One call in a sequence of ring calls. -/
inductive SeqOp (ω β : Type)
  | plain (op : RingOp ω β)
  | spscPush (w : ω) (x : β)
  | spscPop (w : ω)

/-- Perform one call of the sequence; the count of a plain call is a `uint32_t`. -/
def Ring.seqStep (cap : RingCap) (r : Ring β) : SeqOp ω β → Option (Ring β)
  | .plain op => if op.want < 2 ^ 32 then (r.run cap op).map Prod.fst else none
  | .spscPush w x => (r.spscRun cap (.push w x)).map Prod.fst
  | .spscPop w => (r.spscRun cap (.pop w : RingOp ω β)).map Prod.fst

/-- The private copy refuses whenever the real opposite tail does. -/
def CacheOk (cap : RingCap) (r : Ring β) : ChanOp → Prop
  | .send => cap.val ≤ (r.cur .send).head - (r.cur .recv).tail →
      cap.val ≤ (r.cur .send).head - (r.cur .send).cached
  | .recv => (r.cur .send).tail = (r.cur .recv).head →
      0 ≤ ((r.cur .recv).head - (r.cur .recv).cached).toInt

/-- Every cached call of the sequence starts with a private copy that is good enough. -/
def SeqCacheOk (cap : RingCap) (r : Ring β) : SeqOp ω β → Prop
  | .plain _ => True
  | .spscPush _ _ => CacheOk cap r .send
  | .spscPop _ => CacheOk cap r .recv

/-- Equal cursors and slots; the private copies may differ. -/
structure SameRing (r r' : Ring β) : Prop where
  head : ∀ o, (r.cur o).head = (r'.cur o).head
  tail : ∀ o, (r.cur o).tail = (r'.cur o).tail
  slots : r.slots = r'.slots

/-- Both runs return, with the same result and the same elements, and leave the same ring. -/
def Agrees (a b : Option (Ring β × RingRes β)) : Prop :=
  ∃ r r' res, a = some (r, res) ∧ b = some (r', res) ∧ SameRing r r'

/-- No operation is in progress: heads and tails coincide and at most one capacity is in use. -/
structure Quiescent (cap : RingCap) (r : Ring β) : Prop where
  same : ∀ o, (r.cur o).head = (r.cur o).tail
  le : ((r.cur .send).tail - (r.cur .recv).head).toNat ≤ cap.size

/-! ## A plain operation run alone -/

section Plain

variable {cap : RingCap}

theorem Ring.finish_succ (n : Nat) (r : Ring β) (p : RingPc ω β) :
    r.finish cap (n + 1) p = match r.step cap false p with
      | (r', .inl p') => r'.finish cap n p'
      | (r', .inr res) => some (r', res) := rfl

/-- The check fails: the ring is left as it was. -/
theorem Ring.run_none {r : Ring β} {op : RingOp ω β}
    (hres : op.reserve cap (r.cur op.side).head (r.cur op.side.other).tail = none) :
    r.run cap op = some (r, .fail) := by
  rw [Ring.run]
  split
  · rfl
  · rw [show op.want + 5 = (op.want + 3) + 1 + 1 from rfl, Ring.finish_succ]
    simp only [Ring.step]
    rw [Ring.finish_succ]
    simp only [Ring.step, hres]

/-- Copy `d` elements of a run from element `i` on. -/
def Ring.copyRun (cap : RingCap) (op : RingOp ω β) (h k : U32) :
    Nat → Nat → Ring β → List β → Ring β × List β
  | 0, _, r, acc => (r, acc)
  | d + 1, i, r, acc =>
    copyRun cap op h k d (i + 1) (r.copyElem cap op h k i acc).1 (r.copyElem cap op h k i acc).2

theorem Ring.copyRun_cur {op : RingOp ω β} {h k : U32} (d : Nat) :
    ∀ (i : Nat) (r : Ring β) (acc : List β),
      (Ring.copyRun cap op h k d i r acc).1.cur = r.cur := by
  induction d with
  | zero => exact fun _ _ _ => rfl
  | succ d ih =>
    intro i r acc
    rw [Ring.copyRun, ih, Ring.copyElem_cur]

/-- The copies, the look at the tail and the store. -/
theorem Ring.finish_copy {op : RingOp ω β} {h k : U32} (d : Nat) :
    ∀ (r : Ring β) (i : Nat) (acc : List β) (n : Nat), i + d = k.toNat → 0 < d → d + 2 ≤ n →
    (r.cur op.side).tail = h →
    r.finish cap n (.copy op h k i acc) =
      some ((Ring.copyRun cap op h k d i r acc).1.setTail op.side (h + k),
        ⟨k.toNat, (Ring.copyRun cap op h k d i r acc).2⟩) := by
  induction d with
  | zero =>
    intro r i acc n _ hd
    omega
  | succ d ih =>
    intro r i acc n hd _ hn htail
    obtain ⟨m, rfl⟩ : ∃ m, n = m + 1 + 1 + 1 := ⟨n - 3, by omega⟩
    rw [Ring.finish_succ]
    have hcur := Ring.copyElem_cur cap r op h k i acc
    simp only [Ring.step]
    by_cases hmore : i + 1 < k.toNat
    · rw [if_pos hmore, Ring.copyRun]
      exact ih (r.copyElem cap op h k i acc).1 (i + 1) (r.copyElem cap op h k i acc).2 (m + 1 + 1)
        (by omega) (by omega) (by omega) (by rw [hcur]; exact htail)
    · obtain rfl : d = 0 := by omega
      rw [if_neg hmore]
      simp only [Ring.finish_succ, Ring.step]
      rw [if_pos (by rw [hcur]; exact htail)]
      rfl

/-- The two loads and the CAS when the check passes. -/
theorem Ring.finish_reserve (n : Nat) {r : Ring β} {op : RingOp ω β} {k : U32}
    (hres : op.reserve cap (r.cur op.side).head (r.cur op.side.other).tail = some k) :
    r.finish cap (n + 3) (.loadHead op) =
      (r.setHead op.side ((r.cur op.side).head + k)).finish cap n
        (.copy op (r.cur op.side).head k 0 []) := by
  rw [Ring.finish_succ]
  simp only [Ring.step]
  rw [Ring.finish_succ]
  simp only [Ring.step, hres]
  rw [Ring.finish_succ]
  simp only [Ring.step, true_and, if_true]

/-- The ring after an operation that reserves, copies and commits `k` positions. -/
def Ring.done (cap : RingCap) (r : Ring β) (op : RingOp ω β) (k : U32) : Ring β × RingRes β :=
  let h := (r.cur op.side).head
  let c := Ring.copyRun cap op h k k.toNat 0 (r.setHead op.side (h + k)) []
  (c.1.setTail op.side (h + k), ⟨k.toNat, c.2⟩)

theorem Ring.done_cur (r : Ring β) (op : RingOp ω β) (k : U32) :
    (r.done cap op k).1.cur = Function.update r.cur op.side
      ⟨(r.cur op.side).head + k, (r.cur op.side).head + k, (r.cur op.side).cached⟩ := by
  rw [Ring.done, Ring.setTail, Ring.copyRun_cur, Ring.setHead]
  simp only [Function.update_self, Function.update_idem]

/-- The check passes on a half without pending runs: the positions are reserved and committed. -/
theorem Ring.run_some {r : Ring β} {op : RingOp ω β} {k : U32} (hwant : op.want ≠ 0)
    (hsame : (r.cur op.side).head = (r.cur op.side).tail) (hpos : 0 < k.toNat)
    (hk : k.toNat ≤ op.want)
    (hres : op.reserve cap (r.cur op.side).head (r.cur op.side.other).tail = some k) :
    r.run cap op = some (r.done cap op k) := by
  rw [Ring.run, if_neg hwant, Ring.finish_reserve (op.want + 2) hres]
  have htail : ((r.setHead op.side ((r.cur op.side).head + k)).cur op.side).tail =
      (r.cur op.side).head := by
    rw [Ring.setHead]
    simp only [Function.update_self]
    exact hsame.symm
  exact Ring.finish_copy k.toNat _ 0 [] (op.want + 2) (by omega) hpos (by omega) htail

/-- What the check of a plain operation asks for on a ring at rest fits. -/
theorem Quiescent.fits {r : Ring β} (hq : Quiescent cap r) {op : RingOp ω β} {k : U32}
    (hv : op.Valid)
    (hres : op.reserve cap (r.cur op.side).head (r.cur op.side.other).tail = some k) :
    0 < k.toNat ∧ k.toNat ≤ op.want ∧
      match op.side with
      | .send => ((r.cur .send).tail - (r.cur .recv).head).toNat + k.toNat ≤ cap.size
      | .recv => k.toNat ≤ ((r.cur .send).tail - (r.cur .recv).head).toNat := by
  obtain ⟨n, d, hcons, hprod, hd⟩ : ∃ n d, (r.cur .recv).head = BitVec.ofNat 32 n ∧
      (r.cur .send).tail = BitVec.ofNat 32 (n + d) ∧
      ((r.cur .send).tail - (r.cur .recv).head).toNat = d :=
    ⟨(r.cur .recv).head.toNat, _, by rw [BitVec.ofNat_toNat, BitVec.setWidth_eq],
      (Wrap.ofNat_toNat_add_sub _ _).symm, rfl⟩
  have hle := hq.le
  rw [hd] at hle ⊢
  cases hs : op.side with
  | send =>
    rw [hs, ChanOp.other_send, hq.same .send, ← hq.same .recv, hprod, hcons] at hres
    obtain ⟨h1, h2, h3⟩ := fits_of_reserve_send hs hv (by omega) (by omega) hres
    exact ⟨h1, h2, by omega⟩
  | recv =>
    rw [hs, ChanOp.other_recv, hprod, hcons] at hres
    obtain ⟨h1, h2, h3⟩ := fits_of_reserve_recv hs hv (by omega) (by omega) hres
    exact ⟨h1, h2, by omega⟩

/-- Moving `k` positions that fit leaves the ring at rest. -/
theorem Quiescent.moved {r r' : Ring β} (hq : Quiescent cap r) {o : ChanOp} {k c : U32}
    (hfits : match o with
      | .send => ((r.cur .send).tail - (r.cur .recv).head).toNat + k.toNat ≤ cap.size
      | .recv => k.toNat ≤ ((r.cur .send).tail - (r.cur .recv).head).toNat)
    (hcur : r'.cur = Function.update r.cur o ⟨(r.cur o).head + k, (r.cur o).head + k, c⟩) :
    Quiescent cap r' := by
  have hcap := cap.size_le
  have hle := hq.le
  refine ⟨fun o' => ?_, ?_⟩
  · rw [hcur]
    by_cases ho : o' = o
    · rw [ho, Function.update_self]
    · rw [Function.update_of_ne ho]
      exact hq.same o'
  · rw [hcur]
    cases o with
    | send =>
      simp only at hfits
      rw [Function.update_self, Function.update_of_ne (by decide), hq.same .send]
      have hsum : (r.cur .send).tail + k - (r.cur .recv).head =
          (r.cur .send).tail - (r.cur .recv).head + k := by bv_omega
      show ((r.cur .send).tail + k - (r.cur .recv).head).toNat ≤ cap.size
      rw [hsum, BitVec.toNat_add, Nat.mod_eq_of_lt (by omega)]
      exact hfits
    | recv =>
      have hsub : k ≤ (r.cur .send).tail - (r.cur .recv).head := BitVec.le_def.2 hfits
      rw [Function.update_self, Function.update_of_ne (by decide)]
      show ((r.cur .send).tail - ((r.cur .recv).head + k)).toNat ≤ cap.size
      rw [← BitVec.sub_sub, BitVec.toNat_sub_of_le hsub]
      omega

/-- Every plain operation returns on a ring at rest and leaves it at rest. -/
theorem Quiescent.run {r : Ring β} (hq : Quiescent cap r) {op : RingOp ω β}
    (hlt : op.want < 2 ^ 32) : ∃ r' res, r.run cap op = some (r', res) ∧ Quiescent cap r' := by
  rcases Nat.eq_zero_or_pos op.want with hw | hw
  · exact ⟨r, .fail, by rw [Ring.run, if_pos hw], hq⟩
  · cases hres : op.reserve cap (r.cur op.side).head (r.cur op.side.other).tail with
    | none => exact ⟨r, .fail, Ring.run_none hres, hq⟩
    | some k =>
      obtain ⟨hpos, hk, hfits⟩ := hq.fits ⟨hw, hlt⟩ hres
      have hrun := Ring.run_some (by omega) (hq.same _) hpos hk hres
      exact ⟨_, _, hrun, hq.moved hfits (r.done_cur op k)⟩

end Plain

/-! ## A cached operation run alone -/

section Cached

variable {cap : RingCap}

/-- A push or a pop, as opposed to a burst. -/
def RingOp.Single : RingOp ω β → Prop
  | .push _ _ => True
  | .pop _ => True
  | _ => False

/-- The check of a plain push or pop against the opposite tail `o`. -/
def plainBlocked (cap : RingCap) (h o : U32) : ChanOp → Prop
  | .send => cap.val ≤ h - o
  | .recv => o = h

/-- The ring after a plain push or pop that passes its check. -/
def Ring.plainDone (cap : RingCap) (r : Ring β) (op : RingOp ω β) : Ring β × RingRes β :=
  let h := (r.cur op.side).head
  let c := (r.setHead op.side (h + 1)).copyElem cap op h 1 0 []
  (c.1.setTail op.side (h + 1), ⟨1, c.2⟩)

/-- The ring after a cached push or pop that passes its check. -/
def Ring.spscDone (cap : RingCap) (r : Ring β) (op : RingOp ω β) : Ring β × RingRes β :=
  let h := (r.cur op.side).head
  let c := r.copyElem cap op h 1 0 []
  ((c.1.setTail op.side (h + 1)).setHead op.side (h + 1), ⟨1, c.2⟩)

theorem Ring.run_blocked {r : Ring β} {op : RingOp ω β} (hop : op.Single)
    (h : plainBlocked cap (r.cur op.side).head (r.cur op.side.other).tail op.side) :
    r.run cap op = some (r, .fail) := by
  apply Ring.run_none
  cases op with
  | push w x => exact if_pos h
  | pop w => exact if_pos h
  | enqueueBurst xs => exact hop.elim
  | dequeueBurst ws => exact hop.elim

theorem Ring.run_passed {r : Ring β} {op : RingOp ω β} (hop : op.Single)
    (hsame : (r.cur op.side).head = (r.cur op.side).tail)
    (h : ¬ plainBlocked cap (r.cur op.side).head (r.cur op.side.other).tail op.side) :
    r.run cap op = some (r.plainDone cap op) := by
  have hwant : op.want = 1 := by cases op <;> first | rfl | exact hop.elim
  have hres : op.reserve cap (r.cur op.side).head (r.cur op.side.other).tail = some 1 := by
    cases op with
    | push w x => exact if_neg h
    | pop w => exact if_neg h
    | enqueueBurst xs => exact hop.elim
    | dequeueBurst ws => exact hop.elim
  rw [Ring.run, if_neg (by omega), hwant, Ring.finish_reserve 3 hres, Ring.finish_succ]
  simp only [Ring.step, show ¬ 0 + 1 < (1 : U32).toNat by decide, if_false]
  rw [Ring.finish_succ]
  have htail : ((((r.setHead op.side ((r.cur op.side).head + 1)).copyElem cap op
      (r.cur op.side).head 1 0 []).1).cur op.side).tail = (r.cur op.side).head := by
    rw [Ring.copyElem_cur, Ring.setHead]
    simp only [Function.update_self]
    exact hsame.symm
  simp only [Ring.step, if_pos htail]
  rfl

theorem Ring.spscFinish_succ (n : Nat) (r : Ring β) (p : SpscPc ω β) :
    r.spscFinish cap (n + 1) p = match r.spscStep cap p with
      | (r', .inl p') => r'.spscFinish cap n p'
      | (r', .inr res) => some (r', res) := rfl

/-- The copy and the two stores. -/
theorem Ring.spscFinish_copy (r : Ring β) (op : RingOp ω β) (n : Nat) :
    r.spscFinish cap (n + 3) (.copy op (r.cur op.side).head) = some (r.spscDone cap op) := rfl

theorem Ring.spscRun_eq (r : Ring β) (op : RingOp ω β) :
    r.spscRun cap op =
      if spscBlocked cap (r.cur op.side).head (r.cur op.side).cached op.side then
        if spscBlocked cap (r.cur op.side).head (r.cur op.side.other).tail op.side then
          some (r.setCached op.side (r.cur op.side.other).tail, .fail)
        else some ((r.setCached op.side (r.cur op.side.other).tail).spscDone cap op)
      else some (r.spscDone cap op) := by
  have hhead : ((r.setCached op.side (r.cur op.side.other).tail).cur op.side).head =
      (r.cur op.side).head := by
    rw [Ring.setCached]
    simp only [Function.update_self]
  rw [Ring.spscRun, Ring.spscFinish_succ]
  by_cases hc : spscBlocked cap (r.cur op.side).head (r.cur op.side).cached op.side
  · simp only [Ring.spscStep, if_pos hc]
    rw [Ring.spscFinish_succ]
    by_cases ho : spscBlocked cap (r.cur op.side).head (r.cur op.side.other).tail op.side
    · simp only [Ring.spscStep, if_pos ho]
    · simp only [Ring.spscStep, if_neg ho]
      rw [← hhead]
      exact Ring.spscFinish_copy _ op 0
  · simp only [Ring.spscStep, if_neg hc]
    exact Ring.spscFinish_copy r op 1

/-- On a ring at rest the cached check against the real tail is the plain check. -/
theorem Quiescent.blocked_iff {r : Ring β} (hq : Quiescent cap r) (o : ChanOp) :
    spscBlocked cap (r.cur o).head (r.cur o.other).tail o = true ↔
      plainBlocked cap (r.cur o).head (r.cur o.other).tail o := by
  cases o with
  | send => exact decide_eq_true_iff
  | recv =>
    have hcap := cap.size_le
    have hle := hq.le
    refine decide_eq_true_iff.trans ?_
    show 0 ≤ ((r.cur .recv).head - (r.cur .send).tail).toInt ↔
      (r.cur .send).tail = (r.cur .recv).head
    rw [BitVec.toInt_pos_iff]
    constructor
    · intro h
      bv_omega
    · intro h
      rw [h, BitVec.sub_self]
      decide

theorem Ring.sameRing_done {r : Ring β} {op : RingOp ω β} (hop : op.Single) (v : U32) :
    SameRing (r.spscDone cap op).1 (r.plainDone cap op).1 ∧
      SameRing ((r.setCached op.side v).spscDone cap op).1 (r.plainDone cap op).1 := by
  cases op with
  | push w x =>
    refine ⟨⟨fun o => ?_, fun o => ?_, rfl⟩, ⟨fun o => ?_, fun o => ?_, rfl⟩⟩ <;> cases o <;> rfl
  | pop w =>
    refine ⟨⟨fun o => ?_, fun o => ?_, rfl⟩, ⟨fun o => ?_, fun o => ?_, rfl⟩⟩ <;> cases o <;> rfl
  | enqueueBurst xs => exact hop.elim
  | dequeueBurst ws => exact hop.elim

theorem Ring.result_done {r : Ring β} {op : RingOp ω β} (hop : op.Single) (v : U32) :
    (r.spscDone cap op).2 = (r.plainDone cap op).2 ∧
      ((r.setCached op.side v).spscDone cap op).2 = (r.plainDone cap op).2 := by
  cases op with
  | push w x => exact ⟨rfl, rfl⟩
  | pop w => exact ⟨rfl, rfl⟩
  | enqueueBurst xs => exact hop.elim
  | dequeueBurst ws => exact hop.elim

theorem Ring.sameRing_setCached (r : Ring β) (o : ChanOp) (v : U32) :
    SameRing (r.setCached o v) r := by
  refine ⟨fun o' => ?_, fun o' => ?_, rfl⟩ <;> cases o <;> cases o' <;> rfl

theorem Agrees.of_pair {a b : Ring β × RingRes β} (hring : SameRing a.1 b.1) (hres : a.2 = b.2) :
    Agrees (some a) (some b) :=
  ⟨a.1, b.1, b.2, by rw [← hres], rfl, hring⟩

theorem cacheOk_iff (cap : RingCap) (r : Ring β) (o : ChanOp) :
    CacheOk cap r o ↔ (plainBlocked cap (r.cur o).head (r.cur o.other).tail o →
      spscBlocked cap (r.cur o).head (r.cur o).cached o = true) := by
  cases o <;> exact imp_congr_right fun _ => decide_eq_true_iff.symm

/-- A cached operation on a ring at rest agrees with the plain one exactly when its private copy
refuses whenever the real tail does. -/
theorem Quiescent.agrees_iff {r : Ring β} (hq : Quiescent cap r) {op : RingOp ω β}
    (hop : op.Single) : Agrees (r.spscRun cap op) (r.run cap op) ↔ CacheOk cap r op.side := by
  have hblocked := hq.blocked_iff op.side
  rw [cacheOk_iff, Ring.spscRun_eq]
  by_cases hp : plainBlocked cap (r.cur op.side).head (r.cur op.side.other).tail op.side
  · rw [Ring.run_blocked hop hp, if_pos (hblocked.2 hp)]
    by_cases hc : spscBlocked cap (r.cur op.side).head (r.cur op.side).cached op.side
    · rw [if_pos hc]
      exact ⟨fun _ _ => hc, fun _ => .of_pair (r.sameRing_setCached _ _) rfl⟩
    · rw [if_neg hc]
      refine ⟨fun ⟨r₁, r₂, res, h1, h2, _⟩ => ?_, fun h => absurd (h hp) hc⟩
      -- the cached operation moved an element, the plain one did not
      cases h1
      cases h2
  · rw [Ring.run_passed hop (hq.same _) hp, if_neg (fun h => hp (hblocked.1 h))]
    obtain ⟨hsame, hsame'⟩ := Ring.sameRing_done hop (r.cur op.side.other).tail
    obtain ⟨hres, hres'⟩ := Ring.result_done hop (r.cur op.side.other).tail
    refine ⟨fun _ h => absurd h hp, fun _ => ?_⟩
    split
    · exact .of_pair hsame' hres'
    · exact .of_pair hsame hres

/-- With a good enough copy a cached operation moves an element exactly when the real tail lets it. -/
theorem Quiescent.spscRun_moved_iff {r r' : Ring β} {res : RingRes β} (hq : Quiescent cap r)
    {op : RingOp ω β} (hop : op.Single) (hc : CacheOk cap r op.side)
    (hrun : r.spscRun cap op = some (r', res)) :
    res.moved = 1 ↔ ¬ plainBlocked cap (r.cur op.side).head (r.cur op.side.other).tail op.side := by
  obtain ⟨r₁, r₂, res', h1, h2, -⟩ := (hq.agrees_iff hop).2 hc
  rw [hrun] at h1
  cases h1
  by_cases hp : plainBlocked cap (r.cur op.side).head (r.cur op.side.other).tail op.side
  · rw [Ring.run_blocked hop hp] at h2
    cases h2
    exact ⟨fun h => absurd h Nat.zero_ne_one, fun h => absurd hp h⟩
  · rw [Ring.run_passed hop (hq.same _) hp] at h2
    cases h2
    exact ⟨fun _ => hp, fun _ => rfl⟩

end Cached

/-! ## Any sequence of calls -/

section Sequence

variable {cap : RingCap}

theorem Quiescent.init (cap : RingCap) (slots : U32 → β) : Quiescent cap (Ring.init slots) := by
  refine ⟨fun _ => rfl, ?_⟩
  show ((0 : U32) - 0).toNat ≤ cap.size
  exact Nat.zero_le _

theorem Quiescent.of_sameRing {r r' : Ring β} (h : SameRing r r') (hq : Quiescent cap r') :
    Quiescent cap r :=
  ⟨fun o => by rw [h.head, h.tail, hq.same], by rw [h.tail, h.head]; exact hq.le⟩

theorem Quiescent.spscRun {r r' : Ring β} {res : RingRes β} (hq : Quiescent cap r)
    {op : RingOp ω β} (hop : op.Single) (hc : CacheOk cap r op.side)
    (hrun : r.spscRun cap op = some (r', res)) : Quiescent cap r' := by
  obtain ⟨r₁, r₂, res', h1, h2, hsame⟩ := (hq.agrees_iff hop).2 hc
  have hlt : op.want < 2 ^ 32 := by
    cases op with
    | push w x => exact (by decide : 1 < 2 ^ 32)
    | pop w => exact (by decide : 1 < 2 ^ 32)
    | enqueueBurst xs => exact hop.elim
    | dequeueBurst ws => exact hop.elim
  obtain ⟨r₃, res₃, h3, hq₃⟩ := hq.run hlt
  rw [hrun] at h1
  rw [h2] at h3
  cases h1
  cases h3
  exact hq₃.of_sameRing hsame

theorem Quiescent.seqStep {r r' : Ring β} (hq : Quiescent cap r) {op : SeqOp ω β}
    (hok : SeqCacheOk cap r op) (hstep : r.seqStep cap op = some r') : Quiescent cap r' := by
  cases op with
  | plain op =>
    rw [Ring.seqStep, Option.ite_none_right_eq_some] at hstep
    obtain ⟨hlt, hmap⟩ := hstep
    obtain ⟨r₁, res, hrun, hq₁⟩ := hq.run hlt
    rw [hrun] at hmap
    cases hmap
    exact hq₁
  | spscPush w x =>
    obtain ⟨⟨r₁, res⟩, hrun, rfl⟩ := Option.map_eq_some_iff.1 hstep
    exact hq.spscRun (show (RingOp.push w x).Single from trivial) hok hrun
  | spscPop w =>
    obtain ⟨⟨r₁, res⟩, hrun, rfl⟩ := Option.map_eq_some_iff.1 hstep
    exact hq.spscRun (show (RingOp.pop w : RingOp ω β).Single from trivial) hok hrun

/-- In every state reached by calls that start with good enough copies, `ring_spsc_push` agrees with
`ring_lf_push` exactly when the producer's copy is good enough and `ring_spsc_pop` with `ring_lf_pop`
exactly when the consumer's copy is. They then succeed exactly when the ring is not full, or not
empty. -/
theorem spsc_agrees_iff (cap : RingCap) (slots : U32 → β) (r : Ring β)
    (hrun : Reaches (Ring.seqStep cap) (SeqCacheOk cap : Ring β → SeqOp ω β → Prop)
      (Ring.init slots) r) (w : ω) (x : β) :
    (Agrees (r.spscRun cap (.push w x)) (r.run cap (.push w x)) ↔ CacheOk cap r .send) ∧
    (Agrees (r.spscRun cap (.pop w)) (r.run cap (.pop w)) ↔ CacheOk cap r .recv) ∧
    (∀ r' res, CacheOk cap r .send → r.spscRun cap (.push w x) = some (r', res) →
      (res.moved = 1 ↔ ¬ cap.val ≤ (r.cur .send).head - (r.cur .recv).tail)) ∧
    (∀ r' res, CacheOk cap r .recv → r.spscRun cap (.pop w : RingOp ω β) = some (r', res) →
      (res.moved = 1 ↔ (r.cur .send).tail ≠ (r.cur .recv).head)) := by
  have hq : Quiescent cap r :=
    hrun.invariant (Quiescent.init cap slots) fun _ _ _ h hok hs => h.seqStep hok hs
  have hpush : (RingOp.push w x).Single := trivial
  have hpop : (RingOp.pop w : RingOp ω β).Single := trivial
  exact ⟨hq.agrees_iff hpush, hq.agrees_iff hpop, fun _ _ hc h => hq.spscRun_moved_iff hpush hc h,
    fun _ _ hc h => hq.spscRun_moved_iff hpop hc h⟩

/-- One cached push on a new ring of two slots: the next pop agrees with the plain one. -/
theorem spsc_agrees_after_push : ∃ r : Ring Nat,
    Reaches (Ring.seqStep (RingCap.ofRequest 2))
      (SeqCacheOk (RingCap.ofRequest 2) : Ring Nat → SeqOp Unit Nat → Prop)
      (Ring.init fun _ => 0) r ∧ (r.cur .send).head = 1 ∧
    Agrees (r.spscRun (RingCap.ofRequest 2) (.pop ())) (r.run (RingCap.ofRequest 2) (.pop ())) := by
  have hok : SeqCacheOk (RingCap.ofRequest 2) (Ring.init fun _ => 0)
      (.spscPush () 5 : SeqOp Unit Nat) := fun h => absurd h (by decide)
  obtain ⟨r, hr⟩ : ∃ r, (Ring.init fun _ => 0).seqStep (RingCap.ofRequest 2)
    (.spscPush () 5 : SeqOp Unit Nat) = some r := ⟨_, rfl⟩
  have hrun : Reaches (Ring.seqStep (RingCap.ofRequest 2))
      (SeqCacheOk (RingCap.ofRequest 2) : Ring Nat → SeqOp Unit Nat → Prop)
      (Ring.init fun _ => 0) r := .single ⟨_, hok, hr⟩
  have hcur : r.cur .send = ⟨1, 1, 0⟩ ∧ r.cur .recv = ⟨0, 0, 0⟩ := by
    cases hr
    exact ⟨rfl, rfl⟩
  refine ⟨r, hrun, by rw [hcur.1], (spsc_agrees_iff _ _ r hrun () 0).2.1.2 fun h => ?_⟩
  rw [hcur.1, hcur.2] at h
  exact absurd h (by decide)

/-- A burst push as long as the ring fills an empty ring. -/
theorem Ring.run_fill {r : Ring β} (hq : Quiescent cap r) {xs : List (ω × β)}
    (hxs : xs.length = cap.size) (hcap : cap.size ≠ 0)
    (hempty : (r.cur .send).tail = (r.cur .recv).head) :
    ∃ r', r.seqStep cap (.plain (.enqueueBurst xs)) = some r' ∧
      r'.cur = Function.update r.cur .send ⟨(r.cur .send).head + cap.val,
        (r.cur .send).head + cap.val, (r.cur .send).cached⟩ := by
  have hres : (RingOp.enqueueBurst xs).reserve cap (r.cur .send).head (r.cur .recv).tail =
      some cap.val := by
    have hne : cap.val ≠ 0 := fun h => hcap (by rw [RingCap.size, h]; rfl)
    rw [hq.same .send, ← hq.same .recv, hempty]
    simp only [RingOp.reserve, hxs, cap.ofNat_size, BitVec.sub_self, BitVec.sub_zero]
    rw [if_neg hne, if_neg (BitVec.lt_irrefl _)]
  have hwant : (RingOp.enqueueBurst xs).want = cap.val.toNat := hxs
  have hrun := Ring.run_some (hwant ▸ hcap) (hq.same .send) (Nat.pos_of_ne_zero hcap) hwant.ge hres
  refine ⟨(r.done cap (.enqueueBurst xs) cap.val).1, ?_, r.done_cur _ _⟩
  rw [Ring.seqStep, if_pos (by rw [hwant]; exact cap.val.isLt), hrun]
  rfl

/-- A burst pop as long as the ring empties a full ring. -/
theorem Ring.run_drain {r : Ring β} (hq : Quiescent cap r) {ws : List ω}
    (hws : ws.length = cap.size) (hcap : cap.size ≠ 0)
    (hfull : (r.cur .send).tail = (r.cur .recv).head + cap.val) :
    ∃ r', r.seqStep cap (.plain (.dequeueBurst ws) : SeqOp ω β) = some r' ∧
      r'.cur = Function.update r.cur .recv ⟨(r.cur .recv).head + cap.val,
        (r.cur .recv).head + cap.val, (r.cur .recv).cached⟩ := by
  have hres : (RingOp.dequeueBurst ws : RingOp ω β).reserve cap (r.cur .recv).head
      (r.cur .send).tail = some cap.val := by
    have hne : cap.val ≠ 0 := fun h => hcap (by rw [RingCap.size, h]; rfl)
    have hall : (r.cur .recv).head + cap.val - (r.cur .recv).head = cap.val := by bv_omega
    rw [hfull]
    simp only [RingOp.reserve, hws, cap.ofNat_size, hall]
    rw [if_neg hne, if_neg (BitVec.lt_irrefl _)]
  have hwant : (RingOp.dequeueBurst ws : RingOp ω β).want = cap.val.toNat := hws
  have hrun := Ring.run_some (hwant ▸ hcap) (hq.same .recv) (Nat.pos_of_ne_zero hcap) hwant.ge hres
  refine ⟨(r.done cap (.dequeueBurst ws) cap.val).1, ?_, r.done_cur _ _⟩
  rw [Ring.seqStep, if_pos (by rw [hwant]; exact cap.val.isLt), hrun]
  rfl

/-- On a new ring of `2 ^ 31` slots a burst push and a burst pop of all slots leave the consumer's
copy half a lap behind its head. -/
theorem lag_after_bursts (slots : U32 → β) {xs : List (ω × β)} {ws : List ω}
    (hcap : cap.size = 2 ^ 31) (hxs : xs.length = cap.size) (hws : ws.length = cap.size) :
    ∃ r, Reaches (Ring.seqStep cap) (SeqCacheOk cap : Ring β → SeqOp ω β → Prop)
      (Ring.init slots) r ∧ ¬ CacheOk cap r .recv := by
  have hpos : cap.size ≠ 0 := by rw [hcap]; decide
  have hq := Quiescent.init cap slots
  obtain ⟨r₁, hstep₁, hcur₁⟩ := Ring.run_fill hq hxs hpos rfl
  have hok₁ : SeqCacheOk cap (Ring.init slots) (.plain (.enqueueBurst xs)) := trivial
  have hq₁ := hq.seqStep hok₁ hstep₁
  have hrecv₁ : r₁.cur .recv = ⟨0, 0, 0⟩ := by
    rw [hcur₁, Function.update_of_ne (by decide)]
    rfl
  have hsend₁ : (r₁.cur .send).tail = (r₁.cur .recv).head + cap.val := by
    rw [hrecv₁, hcur₁, Function.update_self]
    rfl
  obtain ⟨r₂, hstep₂, hcur₂⟩ := Ring.run_drain hq₁ hws hpos hsend₁
  have hok₂ : SeqCacheOk cap r₁ (.plain (.dequeueBurst ws) : SeqOp ω β) := trivial
  refine ⟨r₂, .tail (.single ⟨_, hok₁, hstep₁⟩) ⟨_, hok₂, hstep₂⟩, fun hok => ?_⟩
  -- the ring is empty again, and the consumer's head is `2 ^ 31` above its copy
  have hrecv₂ : r₂.cur .recv = ⟨0 + cap.val, 0 + cap.val, 0⟩ := by
    rw [hcur₂, Function.update_self, hrecv₁]
  have hneg := hok (by rw [hrecv₂, hcur₂, Function.update_of_ne (by decide), hsend₁, hrecv₁])
  rw [hrecv₂, BitVec.toInt_pos_iff] at hneg
  have hlag : (0 + cap.val - 0).toNat = cap.size := by
    rw [RingCap.size]
    bv_omega
  rw [show ((⟨0 + cap.val, 0 + cap.val, 0⟩ : Cursors).head -
    (⟨0 + cap.val, 0 + cap.val, 0⟩ : Cursors).cached).toNat = cap.size from hlag, hcap] at hneg
  exact absurd hneg (by decide)

end Sequence

/-- The capacity of the largest ring. -/
def RingCap.largest : RingCap := ⟨BitVec.ofNat 32 (2 ^ 31), Or.inr ⟨31, le_rfl, by decide⟩⟩

/-- The cached operations do not agree with the plain ones after every sequence of calls: after the
two bursts `ring_spsc_pop` takes an element from an empty ring. -/
theorem spsc_disagrees_after_bursts : ¬ ∀ (cap : RingCap) (slots : U32 → Nat) (r : Ring Nat),
    Reaches (Ring.seqStep cap) (Always : Ring Nat → SeqOp Unit Nat → Prop) (Ring.init slots) r →
    ∀ (w : Unit) (x : Nat),
      Agrees (r.spscRun cap (.push w x)) (r.run cap (.push w x)) ∧
      Agrees (r.spscRun cap (.pop w)) (r.run cap (.pop w)) := by
  intro h
  have hsize : RingCap.largest.size = 2 ^ 31 := by decide
  obtain ⟨r, hrun, hbad⟩ := lag_after_bursts (fun _ => 0) hsize
    (List.length_replicate (n := RingCap.largest.size) (a := ((), 0)))
    (List.length_replicate (n := RingCap.largest.size) (a := ()))
  have hq : Quiescent .largest r := hrun.invariant (Quiescent.init .largest fun _ => 0)
    fun _ _ _ h hok hs => h.seqStep hok hs
  have hpop : (RingOp.pop () : RingOp Unit Nat).Single := trivial
  exact hbad ((hq.agrees_iff hpop).1 (h _ _ r (hrun.mono fun _ _ _ => trivial) () 0).2)

end LibChan
