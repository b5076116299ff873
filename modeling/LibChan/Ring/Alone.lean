import LibChan.Ring.Sequential

/-!
# A ring operation without interference

The accesses of one ring operation, one at a time, when no other thread touches the ring meanwhile.
`RingPc.Alone` and `SpscPc.Alone` say what holds of the cursors at each place of an operation that
found `n` elements, and `Settled` what it leaves: a plain operation fails exactly when the ring is full
or empty, and otherwise moves the count by what it reports. A cached operation does so too when its
private copy refuses whenever the real tail does (`CacheOk`).
-/

set_option autoImplicit false

namespace LibChan

variable {ω β : Type} {cap : RingCap} {r r' : Ring β} {n : Nat} {op : RingOp ω β} {h k : U32}

/-- `ring_lf_count`. -/
def Ring.count (r : Ring β) : Nat := ((r.cur .send).tail - (r.cur .recv).head).toNat

/-- A ring at rest with `n` elements. -/
structure Level (cap : RingCap) (r : Ring β) (n : Nat) : Prop where
  quiet : Quiescent cap r
  count : r.count = n

/-- A producer finds no room, a consumer no element. -/
def Stuck (cap : RingCap) (n : Nat) : ChanOp → Prop
  | .send => n = cap.size
  | .recv => n = 0

/-- What an operation that found `n` elements and moved `d` leaves. -/
structure Settled (cap : RingCap) (r : Ring β) (n d : Nat) (op : RingOp ω β) : Prop where
  quiet : Quiescent cap r
  count : match op.side with
    | .send => r.count = n + d
    | .recv => r.count + d = n
  le : d ≤ op.want
  stuck : d = 0 ↔ Stuck cap n op.side

theorem Level.le (hl : Level cap r n) : n ≤ cap.size := hl.count ▸ hl.quiet.le

theorem Level.init (cap : RingCap) (slots : U32 → β) : Level cap (Ring.init slots) 0 :=
  ⟨.init cap slots, by simp [Ring.count, Ring.init]⟩

/-- The cursors as counts. -/
theorem Level.words (hl : Level cap r n) : ∃ a,
    (r.cur .recv).head = BitVec.ofNat 32 a ∧ (r.cur .recv).tail = BitVec.ofNat 32 a ∧
    (r.cur .send).head = BitVec.ofNat 32 (a + n) ∧ (r.cur .send).tail = BitVec.ofNat 32 (a + n) := by
  have hcons : (r.cur .recv).head = BitVec.ofNat 32 (r.cur .recv).head.toNat := by
    rw [BitVec.ofNat_toNat, BitVec.setWidth_eq]
  have hprod : (r.cur .send).tail = BitVec.ofNat 32 ((r.cur .recv).head.toNat + n) := by
    rw [← hl.count]
    exact (Wrap.ofNat_toNat_add_sub _ _).symm
  exact ⟨_, hcons, (hl.quiet.same .recv).symm.trans hcons, (hl.quiet.same .send).trans hprod, hprod⟩

/-- Phase 1 refuses exactly when there is no room or no element. -/
theorem Level.reserve_eq_none_iff (hl : Level cap r n) (hv : op.Valid) :
    op.reserve cap (r.cur op.side).head (r.cur op.side.other).tail = none ↔ Stuck cap n op.side := by
  obtain ⟨a, hch, hct, hph, hpt⟩ := hl.words
  have hle := hl.le
  cases hside : op.side with
  | send =>
    rw [ChanOp.other_send, hph, hct, RingOp.reserve_send hside hv (by omega) (by omega), Stuck]
    simp
  | recv =>
    rw [ChanOp.other_recv, hch, hpt, RingOp.reserve_recv hside hv (by omega) (by omega), Stuck]
    simp

/-- The checks of the single operations in the same terms. -/
theorem Level.plainBlocked_iff (hl : Level cap r n) (o : ChanOp) :
    plainBlocked cap (r.cur o).head (r.cur o.other).tail o ↔ Stuck cap n o := by
  obtain ⟨a, hch, hct, hph, hpt⟩ := hl.words
  have hle := hl.le
  have hcap := cap.size_le
  have hdiff : (BitVec.ofNat 32 (a + n) - BitVec.ofNat 32 a).toNat = n := by
    rw [Wrap.ofNat_sub_toNat (by omega) (by omega)]
    omega
  cases o with
  | send =>
    show cap.val ≤ (r.cur .send).head - (r.cur .recv).tail ↔ n = cap.size
    rw [hph, hct, BitVec.le_def, hdiff]
    exact ⟨fun hfull => le_antisymm hle hfull, fun heq => heq.ge⟩
  | recv =>
    show (r.cur .send).tail = (r.cur .recv).head ↔ n = 0
    rw [hpt, hch]
    constructor
    · intro heq
      rw [heq, BitVec.sub_self] at hdiff
      exact hdiff.symm
    · rintro rfl
      rfl

theorem Level.of_cur (hl : Level cap r n) (hcur : ∀ o, (r'.cur o).head = (r.cur o).head ∧
    (r'.cur o).tail = (r.cur o).tail) : Level cap r' n := by
  have hcount : r'.count = r.count := by rw [Ring.count, Ring.count, (hcur .send).2, (hcur .recv).1]
  refine ⟨⟨fun o => ?_, hcount.trans_le hl.quiet.le⟩, hcount.trans hl.count⟩
  rw [(hcur o).1, (hcur o).2]
  exact hl.quiet.same o

/-- Moving `k` positions that Phase 1 granted. -/
theorem Level.moved (hl : Level cap r n) (hv : op.Valid)
    (hres : op.reserve cap (r.cur op.side).head (r.cur op.side.other).tail = some k) {v : U32}
    (hcur : r'.cur = Function.update r.cur op.side
      ⟨(r.cur op.side).head + k, (r.cur op.side).head + k, v⟩) :
    Settled cap r' n k.toNat op := by
  obtain ⟨hpos, hwant, hfits⟩ := hl.quiet.fits hv hres
  have hstuck : ¬ Stuck cap n op.side := fun hstuck => by
    rw [(hl.reserve_eq_none_iff hv).2 hstuck] at hres
    cases hres
  refine ⟨hl.quiet.moved hfits hcur, ?_, hwant, fun hzero => absurd hzero hpos.ne', fun h => absurd h hstuck⟩
  obtain ⟨a, hch, hct, hph, hpt⟩ := hl.words
  have hcap := cap.size_le
  have hcount := hl.count
  rw [Ring.count] at hcount
  rw [hcount] at hfits
  cases hside : op.side with
  | send =>
    rw [hside] at hcur hfits
    dsimp only at hfits
    show r'.count = n + k.toNat
    rw [Ring.count, hcur, Function.update_self, Function.update_of_ne (by decide), hch, hph,
      Wrap.ofNat_add_word, Wrap.ofNat_sub_toNat (by omega) (by omega)]
    omega
  | recv =>
    rw [hside] at hcur hfits
    dsimp only at hfits
    have hle := hl.le
    show r'.count + k.toNat = n
    rw [Ring.count, hcur, Function.update_self, Function.update_of_ne (by decide), hch, hpt,
      Wrap.ofNat_add_word, Wrap.ofNat_sub_toNat (by omega) (by omega)]
    omega

theorem Level.failed (hl : Level cap r n) (hstuck : Stuck cap n op.side) : Settled cap r n 0 op := by
  refine ⟨hl.quiet, ?_, Nat.zero_le _, fun _ => hstuck, fun _ => rfl⟩
  cases op.side <;> exact hl.count

/-! ## The plain operations -/

/-- The ring inside an operation that has reserved `k` positions from `h` on and not yet committed
them. -/
def Taking (cap : RingCap) (r : Ring β) (n : Nat) (op : RingOp ω β) (h k : U32) : Prop :=
  ∃ r₀ : Ring β, Level cap r₀ n ∧ (r₀.cur op.side).head = h ∧
    op.reserve cap h (r₀.cur op.side.other).tail = some k ∧
    r.cur = Function.update r₀.cur op.side ⟨h + k, h, (r₀.cur op.side).cached⟩

/-- What holds at each place of an operation that found `n` elements, while nobody interferes. -/
def RingPc.Alone (cap : RingCap) (r : Ring β) (n : Nat) : RingPc ω β → Prop
  | .loadHead op => op.Valid ∧ Level cap r n
  | .loadOpp op h => op.Valid ∧ Level cap r n ∧ h = (r.cur op.side).head
  | .cas op h k => op.Valid ∧ Level cap r n ∧ h = (r.cur op.side).head ∧
      op.reserve cap h (r.cur op.side.other).tail = some k
  | .copy op h k _ _ => op.Valid ∧ Taking cap r n op h k
  | .wait op h k _ => op.Valid ∧ Taking cap r n op h k
  | .store op h k _ => op.Valid ∧ Taking cap r n op h k

theorem Taking.of_cur (ht : Taking cap r n op h k) (hcur : r'.cur = r.cur) :
    Taking cap r' n op h k := by
  obtain ⟨r₀, hl, hh, hres, hr⟩ := ht
  exact ⟨r₀, hl, hh, hres, hcur.trans hr⟩

/-- An access that stays inside the operation. -/
theorem RingPc.Alone.inside {p p' : RingPc ω β} {weak : Bool} (hp : p.Alone cap r n)
    (hstep : (r.step cap weak p).2 = .inl p') : p'.Alone cap (r.step cap weak p).1 n := by
  cases p with
  | loadHead op =>
    cases hstep
    exact ⟨hp.1, hp.2, rfl⟩
  | loadOpp op h =>
    obtain ⟨hv, hl, rfl⟩ := hp
    rw [Ring.step] at hstep ⊢
    cases hres : op.reserve cap (r.cur op.side).head (r.cur op.side.other).tail with
    | none =>
      rw [hres] at hstep
      cases hstep
    | some k =>
      rw [hres] at hstep
      cases hstep
      exact ⟨hv, hl, rfl, hres⟩
  | cas op h k =>
    obtain ⟨hv, hl, rfl, hres⟩ := hp
    rw [Ring.step] at hstep ⊢
    split at hstep
    case isTrue hcas =>
      cases hstep
      rw [if_pos hcas]
      -- the tail stays behind until the store
      refine ⟨hv, r, hl, rfl, hres, ?_⟩
      rw [Ring.setHead, hl.quiet.same op.side]
    case isFalse hcas =>
      cases hstep
      rw [if_neg hcas]
      exact ⟨hv, hl⟩
  | copy op h k i acc =>
    have hcur := Ring.copyElem_cur cap r op h k i acc
    rw [Ring.step] at hstep ⊢
    dsimp only at hstep ⊢
    split at hstep
    case isTrue hlt =>
      cases hstep
      rw [if_pos hlt]
      exact ⟨hp.1, hp.2.of_cur hcur⟩
    case isFalse hlt =>
      cases hstep
      rw [if_neg hlt]
      exact ⟨hp.1, hp.2.of_cur hcur⟩
  | wait op h k acc =>
    rw [Ring.step] at hstep ⊢
    split at hstep
    case isTrue heq =>
      cases hstep
      rw [if_pos heq]
      exact hp
    case isFalse hne =>
      cases hstep
      rw [if_neg hne]
      exact hp
  | store op h k acc => cases hstep

/-- The access that ends the operation. -/
theorem RingPc.Alone.settled {p : RingPc ω β} {weak : Bool} {res : RingRes β} (hp : p.Alone cap r n)
    (hstep : (r.step cap weak p).2 = .inr res) :
    Settled cap (r.step cap weak p).1 n res.moved p.op := by
  cases p with
  | loadHead op => cases hstep
  | loadOpp op h =>
    obtain ⟨hv, hl, rfl⟩ := hp
    rw [Ring.step] at hstep ⊢
    cases hres : op.reserve cap (r.cur op.side).head (r.cur op.side.other).tail with
    | none =>
      rw [hres] at hstep
      cases hstep
      exact hl.failed ((hl.reserve_eq_none_iff hv).1 hres)
    | some k =>
      rw [hres] at hstep
      cases hstep
  | cas op h k =>
    rw [Ring.step] at hstep
    split at hstep <;> cases hstep
  | copy op h k i acc =>
    rw [Ring.step] at hstep
    dsimp only at hstep
    split at hstep <;> cases hstep
  | wait op h k acc =>
    rw [Ring.step] at hstep
    split at hstep <;> cases hstep
  | store op h k acc =>
    obtain ⟨hv, r₀, hl, rfl, hres, hcur⟩ := hp
    cases hstep
    refine hl.moved hv hres (v := (r₀.cur op.side).cached) ?_
    rw [Ring.step, Ring.setTail, hcur, Function.update_self, Function.update_idem]
    rfl

/-- The operation runs to its end. -/
theorem RingPc.Alone.exists_finish (hp : (RingPc.loadHead op).Alone cap r n) :
    ∃ fuel v, r.finish cap fuel (.loadHead op) = some v := by
  obtain ⟨hv, hl⟩ := hp
  obtain ⟨r', res, hrun, -⟩ := hl.quiet.run hv.2
  rw [Ring.run, if_neg hv.1.ne'] at hrun
  exact ⟨_, _, hrun⟩

/-! ## The cached operations -/

/-- What holds at each place of a cached operation that found `n` elements. -/
def SpscPc.Alone (cap : RingCap) (r : Ring β) (n : Nat) : SpscPc ω β → Prop
  | .loadHead op => op.Single ∧ Level cap r n
  | .refresh op h => op.Single ∧ Level cap r n ∧ h = (r.cur op.side).head
  | .copy op h => op.Single ∧ Level cap r n ∧ h = (r.cur op.side).head ∧ ¬ Stuck cap n op.side
  | .storeTail op h _ =>
    op.Single ∧ Level cap r n ∧ h = (r.cur op.side).head ∧ ¬ Stuck cap n op.side
  | .storeHead op h _ => op.Single ∧ ∃ r₀ : Ring β, Level cap r₀ n ∧ (r₀.cur op.side).head = h ∧
      ¬ Stuck cap n op.side ∧
      r.cur = Function.update r₀.cur op.side ⟨h, h + 1, (r₀.cur op.side).cached⟩

/-- The condition on the first access of a cached operation. -/
def SpscPc.CacheOk (cap : RingCap) (r : Ring β) : SpscPc ω β → Prop
  | .loadHead op => LibChan.CacheOk cap r op.side
  | _ => True

instance (cap : RingCap) (r : Ring β) : DecidablePred (LibChan.CacheOk cap r)
  | .send => inferInstanceAs (Decidable (_ → _))
  | .recv => inferInstanceAs (Decidable (_ → _))

instance (cap : RingCap) (r : Ring β) : DecidablePred (SpscPc.CacheOk cap r : SpscPc ω β → Prop)
  | .loadHead op => inferInstanceAs (Decidable (LibChan.CacheOk cap r op.side))
  | .refresh _ _ => .isTrue trivial
  | .copy _ _ => .isTrue trivial
  | .storeTail _ _ _ => .isTrue trivial
  | .storeHead _ _ _ => .isTrue trivial

theorem RingOp.Single.valid (hop : op.Single) : op.Valid := by
  cases op with
  | push w x => exact ⟨by simp [RingOp.want], by simp [RingOp.want]⟩
  | pop w => exact ⟨by simp [RingOp.want], by simp [RingOp.want]⟩
  | enqueueBurst xs => exact hop.elim
  | dequeueBurst ws => exact hop.elim

/-- A single operation that is not refused reserves one position. -/
theorem RingOp.Single.reserve_eq_one (hop : op.Single) {o : U32} (hres : op.reserve cap h o ≠ none) :
    op.reserve cap h o = some 1 := by
  cases op with
  | push w x =>
    rw [RingOp.reserve] at hres ⊢
    split at hres
    · exact absurd rfl hres
    · next hlt => rw [if_neg hlt]
  | pop w =>
    rw [RingOp.reserve] at hres ⊢
    split at hres
    · exact absurd rfl hres
    · next hne => rw [if_neg hne]
  | enqueueBurst xs => exact hop.elim
  | dequeueBurst ws => exact hop.elim

/-- A copy that was just refreshed refuses whenever the tail does. -/
theorem Level.cacheOk_setCached (hl : Level cap r n) (o : ChanOp) :
    LibChan.CacheOk cap (r.setCached o (r.cur o.other).tail) o := by
  have hsame := Ring.sameRing_setCached r o (r.cur o.other).tail
  have hcached : ((r.setCached o (r.cur o.other).tail).cur o).cached = (r.cur o.other).tail := by
    cases o <;> rfl
  rw [cacheOk_iff, hsame.head, hsame.tail, hcached]
  exact (hl.quiet.blocked_iff o).2

theorem Level.setCached (hl : Level cap r n) (o : ChanOp) (v : U32) :
    Level cap (r.setCached o v) n :=
  hl.of_cur fun o' => by
    have hsame := Ring.sameRing_setCached r o v
    exact ⟨hsame.head o', hsame.tail o'⟩

/-- An access that stays inside the cached operation. -/
theorem SpscPc.Alone.inside {p p' : SpscPc ω β} (hp : p.Alone cap r n) (hc : p.CacheOk cap r)
    (hstep : (r.spscStep cap p).2 = .inl p') : p'.Alone cap (r.spscStep cap p).1 n := by
  cases p with
  | loadHead op =>
    obtain ⟨hop, hl⟩ := hp
    rw [Ring.spscStep] at hstep ⊢
    split at hstep
    case isTrue hblocked =>
      cases hstep
      rw [if_pos hblocked]
      exact ⟨hop, hl, rfl⟩
    case isFalse hblocked =>
      cases hstep
      rw [if_neg hblocked]
      -- the private copy would have refused on a full or an empty ring
      refine ⟨hop, hl, rfl, fun hstuck => hblocked ?_⟩
      exact (cacheOk_iff cap r op.side).1 hc ((hl.plainBlocked_iff op.side).2 hstuck)
  | refresh op h =>
    obtain ⟨hop, hl, rfl⟩ := hp
    rw [Ring.spscStep] at hstep ⊢
    split at hstep
    case isTrue hblocked => cases hstep
    case isFalse hblocked =>
      cases hstep
      rw [if_neg hblocked]
      refine ⟨hop, hl.setCached _ _, ?_, fun hstuck => hblocked ?_⟩
      · exact ((Ring.sameRing_setCached r op.side _).head op.side).symm
      · exact (hl.quiet.blocked_iff op.side).2 ((hl.plainBlocked_iff op.side).2 hstuck)
  | copy op h =>
    obtain ⟨hop, hl, rfl, hstuck⟩ := hp
    have hcur := Ring.copyElem_cur cap r op (r.cur op.side).head 1 0 []
    cases hstep
    refine ⟨hop, hl.of_cur fun o => ?_, ?_, hstuck⟩
    · show ((r.copyElem cap op (r.cur op.side).head 1 0 []).1.cur o).head = _ ∧
        ((r.copyElem cap op (r.cur op.side).head 1 0 []).1.cur o).tail = _
      rw [hcur]
      exact ⟨rfl, rfl⟩
    · show _ = ((r.copyElem cap op (r.cur op.side).head 1 0 []).1.cur op.side).head
      rw [hcur]
  | storeTail op h acc =>
    obtain ⟨hop, hl, rfl, hstuck⟩ := hp
    cases hstep
    exact ⟨hop, r, hl, rfl, hstuck, rfl⟩
  | storeHead op h acc => cases hstep

/-- The access that ends the cached operation. -/
theorem SpscPc.Alone.settled {p : SpscPc ω β} {res : RingRes β} (hp : p.Alone cap r n)
    (hstep : (r.spscStep cap p).2 = .inr res) :
    Settled cap (r.spscStep cap p).1 n res.moved p.op := by
  cases p with
  | loadHead op =>
    rw [Ring.spscStep] at hstep
    split at hstep <;> cases hstep
  | refresh op h =>
    obtain ⟨hop, hl, rfl⟩ := hp
    rw [Ring.spscStep] at hstep ⊢
    split at hstep
    case isTrue hblocked =>
      cases hstep
      rw [if_pos hblocked]
      exact (hl.setCached _ _).failed
        ((hl.plainBlocked_iff op.side).1 ((hl.quiet.blocked_iff op.side).1 hblocked))
    case isFalse hblocked => cases hstep
  | copy op h => cases hstep
  | storeTail op h acc => cases hstep
  | storeHead op h acc =>
    obtain ⟨hop, r₀, hl, rfl, hstuck, hcur⟩ := hp
    cases hstep
    have hres := hop.reserve_eq_one fun hnone =>
      hstuck ((hl.reserve_eq_none_iff hop.valid).1 hnone)
    refine hl.moved hop.valid hres (v := (r₀.cur op.side).cached) ?_
    rw [Ring.spscStep, Ring.setHead, hcur, Function.update_self, Function.update_idem]

end LibChan
