import LibChan.Ring.Lanes

/-!
# The cursor-cached operations refine the shared ones

Each access of `ring_spsc_push` and `ring_spsc_pop` keeps the invariant of the ring with one thread on
each half (`LaneInv.cachedAccess`), provided that the private copy of the opposite tail is not too stale.
It is never ahead of the opposite tail, and its owner's half is at most one position further than the copy
allows (`CacheAt`). As long as that is so the check on the copy is exact, with any number of wraps of the
cursors, and what it lets through fits the ring.
-/

set_option autoImplicit false

namespace LibChan

variable {T ω β : Type}

section Preservation

variable [DecidableEq T] {cap : RingCap} {r : Ring β} {g : RingGhost T ω β} {t : T} {o : ChanOp}

/-! ## The cached operations on the settled ring -/

omit [DecidableEq T] in
/-- A half without a run is committed up to its head. -/
theorem RingInv.committed_eq {pc : T → Option (RingPc ω β)} (hinv : RingInv cap r g pc)
    (hnone : ∀ u q k, pc u = some q → q.run ≠ some (o, k)) : g.committed o = g.reserved o := by
  refine Nat.le_antisymm (hinv.ordered.window o).2.1 (Nat.le_of_not_lt fun hlt => ?_)
  obtain ⟨u, q, k, hu, hrun, -⟩ := hinv.covers o _ (Nat.le_refl _) hlt
  exact hnone u q k hu hrun

omit [DecidableEq T] in
/-- A write to a slot that no committed position uses, with no producer in a run. -/
theorem RingInv.freeWrite {pc : T → Option (RingPc ω β)} (hinv : RingInv cap r g pc) {n : Nat} (x : β)
    (hlo : g.committed .send ≤ n) (hhi : n < g.committed .recv + cap.size)
    (hnone : ∀ u q k, pc u = some q → q.run ≠ some (.send, k)) :
    RingInv cap (r.setSlot (Wrap.slotOf cap.size n) x) g pc := by
  have hord := hinv.ordered
  refine ⟨hinv.head_eq, hinv.tail_eq, hord, fun u q hu => ?_, hinv.disjoint, hinv.covers,
    fun m hm hm' => ?_⟩
  · have hq := hinv.thread u q hu
    exact hq.mono hord (Extends.refl g) rfl (fun o k hk => (hq.of_run hk).1)
      (fun k hk => absurd hk (hnone u q k hu)) (fun _ _ _ _ => rfl)
  · have hcap := cap.size_le
    have hne : (Wrap.slotOf cap.size m : U32) ≠ Wrap.slotOf cap.size n := by
      intro heq
      have hmn := Wrap.slotOf_inj (a := g.committed .recv) (by omega) hm (by omega)
        (by have := (hord.window .send).1; omega) hhi heq
      omega
    show some (Function.update r.slots _ x (Wrap.slotOf cap.size m)) = g.valueAt m
    rw [Function.update_of_ne hne]
    exact hinv.slots m hm hm'

omit [DecidableEq T] in
/-- A copy recorded by a consumer ahead of its reservation, with no consumer in a run. -/
theorem RingInv.earlyRead {pc : T → Option (RingPc ω β)} (hinv : RingInv cap r g pc) (n : Nat) (x : β)
    (hnone : ∀ u q k, pc u = some q → q.run ≠ some (.recv, k)) :
    RingInv cap r (g.setCopied n x) pc := by
  have hord := hinv.ordered
  have hext : Extends g (g.setCopied n x) :=
    ⟨⟨[], (List.append_nil _).symm⟩, ⟨[], (List.append_nil _).symm⟩, fun _ => le_rfl⟩
  refine ⟨fun o => ?_, hinv.tail_eq, ⟨hord.1, hord.2, hord.3, hord.4⟩, fun u q hu => ?_, hinv.disjoint,
    fun o m hlo hhi => ?_, hinv.slots⟩
  · rw [reserved_setCopied]
    exact hinv.head_eq o
  · have hq := hinv.thread u q hu
    exact hq.mono hord hext rfl (fun o k hk => (hq.of_run hk).1) (fun _ _ _ _ => rfl)
      (fun k hk => absurd hk (hnone u q k hu))
  · rw [reserved_setCopied] at hhi
    exact hinv.covers o m hlo hhi

omit [DecidableEq T] in
theorem Ring.setSlot_self (r : Ring β) (i : U32) {x : β} (hx : r.slots i = x) : r.setSlot i x = r := by
  rw [Ring.setSlot, ← hx, Function.update_eq_self]

omit [DecidableEq T] in
theorem RingGhost.setCopied_self (g : RingGhost T ω β) (n : Nat) {x : β} (hx : g.copied n = some x) :
    g.setCopied n x = g := by
  rw [RingGhost.setCopied, ← hx, Function.update_eq_self]

omit [DecidableEq T] in
/-- A thread about to reserve one position at the head it has loaded copies at the slot of that
position. -/
theorem RingInv.slot_of_cas {pc : T → Option (RingPc ω β)} (hinv : RingInv cap r g pc)
    {op : RingOp ω β} {a : U32} (ht : pc t = some (.cas op a 1)) (hmark : g.mark t = g.reserved op.side) :
    op.slot cap a 1 0 = Wrap.slotOf cap.size (g.mark t) := by
  have hone : (1 : U32).toNat = 1 := rfl
  obtain ⟨-, ha, -, hfit⟩ := hinv.thread t _ ht
  obtain ⟨-, hwant, hroom⟩ := hfit hmark.symm
  rw [hone] at hroom
  have hpos : 1 ≤ cap.size := by
    have h1 := hinv.ordered.prod_le_cap
    have h2 := hinv.ordered.cons_le_prod
    have h3 := hinv.ordered.cons_le
    have h4 := hinv.ordered.prod_le
    cases hs : op.side <;> rw [hs] at hroom hmark <;> simp only at hroom <;> omega
  rw [ha]
  exact RingOp.slot_eq Nat.one_pos hwant (by rw [hone]; exact hpos)

/-- The tail store of a cached operation does what a shared operation does from its CAS on: with nobody
else on the half the CAS succeeds, the copy changes nothing any more and it is the thread's turn. -/
theorem RingInv.commitOne {pc : T → Option (RingPc ω β)} (hinv : RingInv cap r g pc) {op : RingOp ω β}
    {a : U32} {acc : List β} (ht : pc t = some (.cas op a 1)) (hmark : g.mark t = g.reserved op.side)
    (hrest : g.committed op.side = g.reserved op.side) (hheld : Held cap r g t op acc) :
    RingInv cap ((r.setHead op.side (a + 1)).setTail op.side (a + 1))
      ((g.reserve t op 1).commit op.side 1) (Function.update pc t none) := by
  obtain ⟨hv, ha, -, hfit⟩ := hinv.thread t _ ht
  obtain ⟨-, hwant, hroom⟩ := hfit hmark.symm
  have hone : (1 : U32).toNat = 1 := rfl
  rw [hone] at hwant hroom
  have hcas : (r.cur op.side).head = a := by rw [hinv.head_eq, ha, hmark]
  have hfresh : g.Fresh t op.side := by
    show g.reserved op.side - g.mark t < 2 ^ 32
    omega
  have hslot := hinv.slot_of_cas ht hmark
  have hreserved := hinv.reserve ht hfresh hcas
  rw [hone] at hreserved
  have hmark' : (g.reserve t op 1).mark t = g.mark t := by
    rw [mark_reserve, Function.update_self, hmark]
  -- the copy of the shared operation finds its work done
  have hcopied : ∃ acc', RingInv cap (r.setHead op.side (a + 1)) (g.reserve t op 1)
      (Function.update pc t (some (.wait op a 1 acc'))) := by
    cases hs : op.side with
    | send =>
      have hlen : 0 < op.data.length := by
        rw [op.data_length hs]
        exact hwant
      have hwritten := hheld.written hs
      rw [List.getElem?_eq_getElem hlen] at hwritten
      have hwrite := hreserved.write (Function.update_self ..) hs (List.getElem?_eq_getElem hlen)
      rw [Function.update_idem, Ring.setSlot_self _ _ (by
        rw [hslot]
        exact Option.some.inj hwritten)] at hwrite
      rw [hs] at hwrite
      exact ⟨[], hwrite⟩
    | recv =>
      have hread := hreserved.read (Function.update_self ..) hs
      rw [hs] at hmark hrest hroom
      have hval : some (r.slots (op.slot cap a 1 0)) = g.copied (g.mark t) := by
        rw [hslot, (hheld.read hs).2]
        exact hinv.slots _ (by omega) hroom
      rw [Function.update_idem, Nat.add_zero, RingGhost.setCopied_self _ _ (by
        rw [hmark', copied_reserve]
        exact hval.symm)] at hread
      rw [hs] at hread
      exact ⟨_, hread⟩
  obtain ⟨acc', hwait⟩ := hcopied
  obtain ⟨-, hrun, hcop⟩ := hwait.thread t _ (Function.update_self ..)
  have hstore := hwait.move t (some (.store op a 1 acc')) (by rw [Function.update_self]; rfl) (by
    rintro p hp
    cases hp
    exact ⟨hv, hrun, hcop, by rw [hmark', committed_reserve, hrest, hmark]⟩)
  rw [Function.update_idem] at hstore
  have hdone := hstore.store (Function.update_self ..)
  rwa [Function.update_idem] at hdone

end Preservation

/-! ## The private copies -/

/-- How far the own half may be ahead of the opposite tail. -/
def RingCap.reach (cap : RingCap) : ChanOp → Nat
  | .send => cap.size
  | .recv => 0

/-- The private copy of half `o` is not ahead of the opposite tail, and half `o` is at most `slack`
positions further than the copy allows. -/
def CacheAt (cap : RingCap) (r : Ring β) (g : RingGhost T ω β) (o : ChanOp) (slack : Nat) : Prop :=
  ∃ n, (r.cur o).cached = BitVec.ofNat 32 n ∧ n ≤ g.committed o.other ∧
    g.reserved o ≤ n + cap.reach o + slack

section Cache

variable {cap : RingCap} {r : Ring β} {g : RingGhost T ω β} {o : ChanOp}

theorem Ordered.reserved_le (h : Ordered cap g) (o : ChanOp) :
    g.reserved o ≤ g.committed o.other + cap.reach o := by
  cases o with
  | send => exact h.prod_le_cap
  | recv => exact h.cons_le_prod

theorem Ordered.committed_le (h : Ordered cap g) (o : ChanOp) :
    g.committed o.other + cap.reach o ≤ g.reserved o + cap.size := by
  have h1 := h.cons_le
  have h2 := h.cons_le_prod
  have h3 := h.prod_le
  have h4 := h.prod_le_cap
  cases o with
  | send =>
    show g.committed .recv + cap.size ≤ _
    omega
  | recv =>
    show g.committed .send + 0 ≤ _
    omega

/-- The check of the cached operations on words that stand for counts no further apart than the ring is
long: it is exact, up to one position beyond the limit. -/
theorem spscBlocked_iff (cap : RingCap) {m n : Nat} (o : ChanOp) (hhi : m ≤ n + cap.reach o + 1)
    (hlo : n + cap.reach o ≤ m + cap.size) :
    spscBlocked cap (BitVec.ofNat 32 m) (BitVec.ofNat 32 n) o = true ↔ n + cap.reach o ≤ m := by
  have hcap := cap.size_le
  cases o with
  | send =>
    replace hhi : m ≤ n + cap.size + 1 := hhi
    replace hlo : n + cap.size ≤ m + cap.size := hlo
    show decide (cap.val ≤ BitVec.ofNat 32 m - BitVec.ofNat 32 n) = true ↔ n + cap.size ≤ m
    rw [decide_eq_true_iff, BitVec.le_def, Wrap.ofNat_sub_toNat (by omega) (by omega)]
    show cap.size ≤ m - n ↔ _
    omega
  | recv =>
    replace hhi : m ≤ n + 0 + 1 := hhi
    replace hlo : n + 0 ≤ m + cap.size := hlo
    show decide (0 ≤ (BitVec.ofNat 32 m - BitVec.ofNat 32 n).toInt) = true ↔ n + 0 ≤ m
    rw [decide_eq_true_iff, BitVec.toInt_eq_toNat_cond]
    by_cases hle : n ≤ m
    · rw [Wrap.ofNat_sub_toNat hle (by omega)]
      split <;> omega
    · -- a copy ahead of the own head: the difference is negative as an `int32_t`
      have hneg : (BitVec.ofNat 32 m - BitVec.ofNat 32 n).toNat = 2 ^ 32 - (n - m) := by
        have hsub := Wrap.ofNat_sub_toNat (w := 32) (a := n) (b := m) (by omega) (by omega)
        rw [show BitVec.ofNat 32 m - BitVec.ofNat 32 n = -(BitVec.ofNat 32 n - BitVec.ofNat 32 m) by
          rw [BitVec.neg_sub, BitVec.add_comm, ← BitVec.sub_eq_add_neg], BitVec.toNat_neg, hsub]
        omega
      rw [hneg]
      split <;> omega

/-- One element fits: the Phase 1 check of a shared operation reserves one position. -/
theorem RingOp.reserve_one {op : RingOp ω β} (hord : Ordered cap g) (hwant : op.want = 1)
    (hroom : g.reserved op.side < g.committed op.side.other + cap.reach op.side) :
    op.reserve cap (BitVec.ofNat 32 (g.reserved op.side))
      (BitVec.ofNat 32 (g.committed op.side.other)) = some 1 := by
  have hvalid : op.Valid := by
    rw [RingOp.Valid, hwant]
    decide
  have hle := hord.reserved_le op.side
  have hge := hord.committed_le op.side
  cases hs : op.side with
  | send =>
    rw [hs] at hroom hle hge
    replace hroom : g.reserved .send < g.committed .recv + cap.size := hroom
    replace hge : g.committed .recv + cap.size ≤ g.reserved .send + cap.size := hge
    rw [ChanOp.other_send, RingOp.reserve_send hs hvalid (by omega) (by omega), if_neg (by omega), hwant,
      Nat.min_eq_left (by omega)]
    rfl
  | recv =>
    rw [hs] at hroom hle hge
    replace hroom : g.reserved .recv < g.committed .send + 0 := hroom
    replace hge : g.committed .send + 0 ≤ g.reserved .recv + cap.size := hge
    rw [ChanOp.other_recv, RingOp.reserve_recv hs hvalid (by omega) (by omega), if_neg (by omega), hwant,
      Nat.min_eq_left (by omega)]
    rfl

/-- What the copy allows fits the ring. -/
theorem CacheAt.room (h : CacheAt cap r g o 1) (hord : Ordered cap g)
    (hopen : spscBlocked cap (BitVec.ofNat 32 (g.reserved o)) (r.cur o).cached o = false) :
    g.reserved o < g.committed o.other + cap.reach o ∧ CacheAt cap r g o 0 := by
  obtain ⟨n, hn, hle, hhi⟩ := h
  have hge := hord.committed_le o
  have hiff := spscBlocked_iff cap (m := g.reserved o) (n := n) o hhi (by omega)
  rw [hn] at hopen
  have hlt : ¬ n + cap.reach o ≤ g.reserved o := fun hle => by
    rw [hiff.2 hle] at hopen
    cases hopen
  exact ⟨by omega, n, hn, hle, by omega⟩

/-- The same for a tail that has just been loaded. -/
theorem Ordered.room (hord : Ordered cap g)
    (hopen : spscBlocked cap (BitVec.ofNat 32 (g.reserved o)) (BitVec.ofNat 32 (g.committed o.other)) o =
      false) : g.reserved o < g.committed o.other + cap.reach o := by
  have hle := hord.reserved_le o
  have hge := hord.committed_le o
  have hiff := spscBlocked_iff cap (m := g.reserved o) (n := g.committed o.other) o
    (by omega) (by omega)
  have hlt : ¬ g.committed o.other + cap.reach o ≤ g.reserved o := fun hle => by
    rw [hiff.2 hle] at hopen
    cases hopen
  omega

end Cache

/-! ### Cached accesses -/

section Cached

variable [DecidableEq T] {cap : RingCap} {r : Ring β} {g : RingGhost T ω β} {t : T}
  {pc : T → Option (LanePc ω β)} {op : RingOp ω β} {a : U32} {acc : List β} {p : SpscPc ω β}

omit [DecidableEq T] in
theorem LaneInv.plain_at (ht : pc t = some (.cached p)) {q : Option (RingPc ω β)} (hq : p.plain = q) :
    (fun u => (pc u).bind LanePc.plain) t = q := by
  show (pc t).bind LanePc.plain = q
  rw [ht]
  exact hq

omit [DecidableEq T] in
/-- A thread in a cached operation has its half to itself, so nobody has a run there. -/
theorem LaneInv.no_run (ht : pc t = some (.cached p))
    (halone : ∀ u q, u ≠ t → pc u = some q → q.op.side ≠ p.op.side) (u : T) (q : RingPc ω β) (k : Nat)
    (hu : (pc u).bind LanePc.plain = some q) : q.run ≠ some (p.op.side, k) := by
  intro hrun
  obtain ⟨x, hx, hq⟩ := Option.bind_eq_some_iff.1 hu
  by_cases hut : u = t
  · subst hut
    cases ht.symm.trans hx
    cases (SpscPc.run_of_plain hq).symm.trans hrun
  · refine halone u x hut hx ?_
    rw [← LanePc.op_of_plain hq]
    cases q <;> first | exact congrArg Prod.fst (Option.some.inj hrun) | cases hrun

omit [DecidableEq T] in
/-- The own head is right in a cached operation that has not stored its tail. -/
theorem LaneInv.head_of_cached (h : LaneInv cap r g pc) (ht : pc t = some (.cached p))
    (hp : ∀ op a acc, p ≠ .storeHead op a acc)
    (halone : ∀ u q, u ≠ t → pc u = some q → q.op.side ≠ p.op.side) :
    (r.cur p.op.side).head = BitVec.ofNat 32 (g.reserved p.op.side) := by
  refine h.head _ fun u op a acc hu => ?_
  by_cases hut : u = t
  · subst hut
    cases ht.symm.trans hu
    exact absurd rfl (hp op a acc)
  · exact halone u _ hut hu

theorem LaneFrame.of_spscStep (cap : RingCap) (r : Ring β) (g : RingGhost T ω β) (t : T)
    (p : SpscPc ω β) :
    LaneFrame t p.op.side r (r.spscStep cap p).1 g (g.spscStep cap r t p) := by
  have hsame : Extends g g := Extends.refl g
  cases p with
  | loadHead op =>
    have hring : (r.spscStep cap (.loadHead op : SpscPc ω β)).1 = r := by
      simp only [Ring.spscStep]
      split <;> rfl
    rw [hring]
    exact ⟨⟨hsame.1, hsame.2, hsame.3⟩, fun u hu => g.mark_setMark_of_ne hu _,
      fun o _ => reserved_setMark g t _ o, fun _ _ => rfl, fun _ => rfl, fun _ => rfl⟩
  | refresh op a =>
    have hring : (r.spscStep cap (.refresh op a : SpscPc ω β)).1 =
        r.setCached op.side (r.cur op.side.other).tail := by
      simp only [Ring.spscStep]
      split <;> rfl
    rw [hring]
    exact ⟨hsame, fun _ _ => rfl, fun _ _ => rfl, fun o _ => r.head_setCached _ o _, fun _ => rfl,
      fun _ => rfl⟩
  | copy op a =>
    have hcur := Ring.copyElem_cur cap r op a 1 0 []
    refine ⟨?_, fun u _ => ?_, fun o _ => ?_, fun o _ => congrArg (fun cur => (cur o).head) hcur,
      fun hs => ?_, fun hs => ?_⟩
    · rw [RingGhost.spscStep]
      split
      · exact hsame
      · exact ⟨hsame.1, hsame.2, hsame.3⟩
    · rw [RingGhost.spscStep]
      split <;> rfl
    · rw [RingGhost.spscStep]
      split
      · rfl
      · exact reserved_setCopied ..
    · replace hs : op.side = .recv := hs
      simp only [Ring.spscStep, Ring.copyElem, hs]
    · replace hs : op.side = .send := hs
      simp only [RingGhost.spscStep, hs]
  | storeTail op a acc =>
    have hext := extends_reserve g t op 1
    refine ⟨⟨hext.1, hext.2, fun o => ?_⟩, fun u hu => ?_, fun o ho => ?_,
      fun o _ => r.head_setTail _ o _, fun _ => rfl, fun _ => copied_reserve ..⟩
    · refine (hext.committed o).trans ?_
      show (g.reserve t op 1).committed o ≤ ((g.reserve t op 1).commit op.side 1).committed o
      by_cases ho : o = op.side
      · rw [ho, RingGhost.committed_commit_self]
        exact Nat.le_add_right _ _
      · rw [RingGhost.committed_commit_of_ne _ ho]
    · show (g.reserve t op 1).mark u = g.mark u
      rw [mark_reserve, Function.update_of_ne hu]
    · show ((g.reserve t op 1).commit op.side 1).reserved o = g.reserved o
      rw [reserved_commit]
      cases hs : op.side <;> cases o <;> simp only [RingGhost.reserve, hs, RingGhost.reserved] <;>
        exact absurd hs.symm ho
  | storeHead op a acc =>
    exact ⟨hsame, fun _ _ => rfl, fun _ _ => rfl, fun o ho => r.head_setHead_of_ne _ o _ ho,
      fun _ => rfl, fun _ => rfl⟩

omit [DecidableEq T] in
/-- The own place in a cached operation before its head store. -/
theorem LaneOwn.before {o : ChanOp} {q : SpscPc ω β} (hwant : q.op.want = 1) (hside : q.op.side = o)
    (hmark : g.mark t = g.reserved o) (hhead : (r.cur o).head = BitVec.ofNat 32 (g.reserved o))
    (hnot : ∀ op a acc, q ≠ .storeHead op a acc)
    (hheld : ∀ op a acc, q = .storeTail op a acc → Held cap r g t op acc) :
    LaneOwn cap r g t o (some (.cached q)) := by
  refine ⟨fun p hp _ => ?_, fun p hp => ?_, fun _ => hhead, fun op a acc hp => ?_, fun op a acc hp => ?_⟩
  · rw [SpscPc.op_of_plain hp, hside]
    exact hmark
  · cases hp
    exact hwant
  · cases hp
    exact absurd rfl (hnot op a acc)
  · cases hp
    exact hheld op a acc rfl

omit [DecidableEq T] in
theorem LaneOwn.outside {o : ChanOp} (hhead : (r.cur o).head = BitVec.ofNat 32 (g.reserved o)) :
    LaneOwn cap r g t o none where
  mark _ hp := by cases hp
  single _ hp := by cases hp
  head _ := hhead
  behind _ _ _ hp := by cases hp
  held _ _ _ hp := by cases hp

theorem LaneInv.cachedLoad (h : LaneInv cap r g pc) (ht : pc t = some (.cached (.loadHead op)))
    (halone : ∀ u q, u ≠ t → pc u = some q → q.op.side ≠ op.side) (hcache : CacheAt cap r g op.side 1) :
    LaneInv cap (r.spscStep cap (.loadHead op)).1 (g.spscStep cap r t (.loadHead op))
      (Function.update pc t ((r.spscStep cap (.loadHead op)).2.getLeft?.map .cached)) := by
  have hwant : op.want = 1 := h.single t _ ht
  have hhead : (r.cur op.side).head = BitVec.ofNat 32 (g.reserved op.side) :=
    h.head_of_cached ht (fun _ _ _ => by rintro ⟨⟩) halone
  have hres := reserved_setMark g t (g.reserved op.side)
  have hsettled : r.settled (g.setMark t (g.reserved op.side)) = r.settled g :=
    Ring.settled_congr hres (fun _ => rfl) rfl
  have hload := h.ring.loadHead (LaneInv.plain_at ht rfl)
  replace hload : RingInv cap (r.settled g) (g.setMark t (g.reserved op.side))
      (Function.update (fun u => (pc u).bind LanePc.plain) t
        (some (.loadOpp op (BitVec.ofNat 32 (g.reserved op.side))))) := hload
  have hmark := g.mark_setMark_self t (g.reserved op.side)
  have hframe := LaneFrame.of_spscStep cap r g t (.loadHead op : SpscPc ω β)
  have hside : ∀ p, pc t = some p → p.op.side = op.side := fun p hp => by
    cases ht.symm.trans hp
    rfl
  simp only [Ring.spscStep, RingGhost.spscStep, hhead] at hframe ⊢
  cases hblocked : spscBlocked cap (BitVec.ofNat 32 (g.reserved op.side)) (r.cur op.side).cached
      op.side with
  | true =>
    simp only [hblocked, if_true] at hframe ⊢
    refine h.update hside halone ?_ h.taken hframe (.before hwant rfl ?_ ?_ ?_ ?_)
    · rw [hsettled]
      exact hload
    · rw [hmark, hres]
    · rw [hres]
      exact hhead
    · rintro _ _ _ ⟨⟩
    · rintro _ _ _ ⟨⟩
  | false =>
    -- the copy allows the attempt, so the tail does
    obtain ⟨hroom, -⟩ := hcache.room h.ring.ordered hblocked
    have hone := RingOp.reserve_one h.ring.ordered hwant hroom
    have hopp := hload.loadOpp (Function.update_self ..) (k := 1) (by
      show op.reserve cap _ (r.cur op.side.other).tail = some 1
      rw [show (r.cur op.side.other).tail = BitVec.ofNat 32 (g.committed op.side.other) from
        h.ring.tail_eq op.side.other]
      exact hone)
    rw [Function.update_idem] at hopp
    simp only [hblocked, Bool.false_eq_true, if_false] at hframe ⊢
    refine h.update hside halone ?_ h.taken hframe (.before hwant rfl ?_ ?_ ?_ ?_)
    · rw [hsettled]
      exact hopp
    · rw [hmark, hres]
    · rw [hres]
      exact hhead
    · rintro _ _ _ ⟨⟩
    · rintro _ _ _ ⟨⟩

theorem LaneInv.cachedRefresh (h : LaneInv cap r g pc) (ht : pc t = some (.cached (.refresh op a)))
    (halone : ∀ u q, u ≠ t → pc u = some q → q.op.side ≠ op.side) :
    LaneInv cap (r.spscStep cap (.refresh op a)).1 (g.spscStep cap r t (.refresh op a))
      (Function.update pc t ((r.spscStep cap (.refresh op a)).2.getLeft?.map .cached)) := by
  have hwant : op.want = 1 := h.single t _ ht
  have hhead : (r.cur op.side).head = BitVec.ofNat 32 (g.reserved op.side) :=
    h.head_of_cached ht (fun _ _ _ => by rintro ⟨⟩) halone
  have hmark : g.mark t = g.reserved op.side := h.mark t _ _ ht rfl trivial
  obtain ⟨-, ha, -⟩ := h.checking ht rfl
  rw [hmark] at ha
  have htail : (r.cur op.side.other).tail = BitVec.ofNat 32 (g.committed op.side.other) :=
    h.ring.tail_eq op.side.other
  have hsettled : (r.setCached op.side (r.cur op.side.other).tail).settled g = r.settled g :=
    Ring.settled_congr (fun _ => rfl) (fun o => r.tail_setCached _ o _) rfl
  have hhead' : ((r.setCached op.side (r.cur op.side.other).tail).cur op.side).head =
      BitVec.ofNat 32 (g.reserved op.side) := (r.head_setCached _ _ _).trans hhead
  have hframe := LaneFrame.of_spscStep cap r g t (.refresh op a : SpscPc ω β)
  have hside : ∀ p, pc t = some p → p.op.side = op.side := fun p hp => by
    cases ht.symm.trans hp
    rfl
  simp only [Ring.spscStep, RingGhost.spscStep] at hframe ⊢
  cases hblocked : spscBlocked cap a (r.cur op.side.other).tail op.side with
  | true =>
    simp only [hblocked, if_true] at hframe ⊢
    refine h.update hside halone ?_ h.taken hframe (.outside hhead')
    rw [hsettled]
    exact h.ring.move t none (by rw [ht]; rfl) fun p hp => by cases hp
  | false =>
    simp only [hblocked, Bool.false_eq_true, if_false] at hframe ⊢
    refine h.update hside halone ?_ h.taken hframe (.before hwant rfl hmark hhead' ?_ ?_)
    · rw [hsettled]
      refine h.ring.loadOpp (LaneInv.plain_at ht rfl) (k := 1) ?_
      rw [ha, htail] at hblocked
      show op.reserve cap a (r.cur op.side.other).tail = some 1
      rw [ha, htail]
      exact RingOp.reserve_one h.ring.ordered hwant (h.ring.ordered.room hblocked)
    · rintro _ _ _ ⟨⟩
    · rintro _ _ _ ⟨⟩

theorem LaneInv.cachedCopy (h : LaneInv cap r g pc) (ht : pc t = some (.cached (.copy op a)))
    (halone : ∀ u q, u ≠ t → pc u = some q → q.op.side ≠ op.side) :
    LaneInv cap (r.spscStep cap (.copy op a)).1 (g.spscStep cap r t (.copy op a))
      (Function.update pc t ((r.spscStep cap (.copy op a)).2.getLeft?.map .cached)) := by
  have hwant : op.want = 1 := h.single t _ ht
  have hhead : (r.cur op.side).head = BitVec.ofNat 32 (g.reserved op.side) :=
    h.head_of_cached ht (fun _ _ _ => by rintro ⟨⟩) halone
  have hmark : g.mark t = g.reserved op.side := h.mark t _ _ ht rfl trivial
  have hslot := h.ring.slot_of_cas (LaneInv.plain_at ht rfl) hmark
  have hrest : g.committed op.side = g.reserved op.side :=
    h.ring.committed_eq fun u q k hu => LaneInv.no_run ht halone u q k hu
  obtain ⟨-, -, -, hfit⟩ := h.checking ht rfl
  obtain ⟨-, -, hroom⟩ := hfit hmark.symm
  have hframe := LaneFrame.of_spscStep cap r g t (.copy op a : SpscPc ω β)
  have hside : ∀ p, pc t = some p → p.op.side = op.side := fun p hp => by
    cases ht.symm.trans hp
    rfl
  have hnone := LaneInv.no_run ht halone
  -- the shared place stays the same
  have hsame : Function.update (fun u => (pc u).bind LanePc.plain) t (some (.cas op a 1)) =
      fun u => (pc u).bind LanePc.plain := by
    rw [← (LaneInv.plain_at ht rfl : (fun u => (pc u).bind LanePc.plain) t = some (.cas op a 1)),
      Function.update_eq_self]
  replace hnone : ∀ u q k, (pc u).bind LanePc.plain = some q → q.run ≠ some (op.side, k) := hnone
  replace hframe : LaneFrame t op.side r _ g _ := hframe
  cases hs : op.side with
  | send =>
    have hlen : 0 < op.data.length := by
      rw [op.data_length hs, hwant]
      exact Nat.one_pos
    rw [hs] at hmark hrest hroom hnone hhead hframe hside
    simp only [hs] at halone
    simp only [Ring.spscStep, RingGhost.spscStep, Ring.copyElem, hs, List.getElem?_eq_getElem hlen,
      hslot] at hframe ⊢
    refine h.update hside halone ?_ h.taken hframe (.before hwant hs hmark hhead ?_ ?_)
    · refine Eq.mpr (congrArg (RingInv cap _ g) hsame) ?_
      exact h.ring.freeWrite _ (by omega) hroom hnone
    · rintro _ _ _ ⟨⟩
    · rintro _ _ _ ⟨⟩
      refine ⟨fun _ => ?_, fun hs' => by cases hs.symm.trans hs'⟩
      rw [List.getElem?_eq_getElem hlen, Ring.setSlot]
      simp only [Function.update_self, Option.map_some]
  | recv =>
    rw [hs] at hmark hrest hroom hnone hhead hframe hside
    simp only [hs] at halone
    have hval : some (r.slots (Wrap.slotOf cap.size (g.mark t))) = g.valueAt (g.mark t) :=
      h.ring.slots _ (by omega) hroom
    simp only [Ring.spscStep, RingGhost.spscStep, Ring.copyElem, hs, hslot] at hframe ⊢
    have hres := reserved_setCopied g (g.mark t) (r.slots (Wrap.slotOf cap.size (g.mark t)))
    refine h.update hside halone ?_ ?_ hframe (.before hwant hs ?_ ?_ ?_ ?_)
    · refine Eq.mpr (congrArg (RingInv cap _ _) hsame) ?_
      rw [Ring.settled_congr (r := r) hres (fun _ => rfl) rfl]
      exact h.ring.earlyRead _ _ hnone
    · intro n hn
      have hn : n < g.committed .recv := hn
      exact (g.copied_setCopied_of_ne (by omega) _).trans (h.taken n hn)
    · rw [hres]
      exact hmark
    · rw [hres]
      exact hhead
    · rintro _ _ _ ⟨⟩
    · rintro _ _ _ ⟨⟩
      refine ⟨fun hs' => (by cases hs.symm.trans hs'), fun _ => ?_⟩
      exact ⟨hval, (g.copied_setCopied_self ..).trans hval⟩

theorem LaneInv.cachedStoreTail (h : LaneInv cap r g pc)
    (ht : pc t = some (.cached (.storeTail op a acc)))
    (halone : ∀ u q, u ≠ t → pc u = some q → q.op.side ≠ op.side) :
    LaneInv cap (r.spscStep cap (.storeTail op a acc)).1 (g.spscStep cap r t (.storeTail op a acc))
      (Function.update pc t ((r.spscStep cap (.storeTail op a acc)).2.getLeft?.map .cached)) := by
  have hwant : op.want = 1 := h.single t _ ht
  have hmark : g.mark t = g.reserved op.side := h.mark t _ _ ht rfl trivial
  have hrest : g.committed op.side = g.reserved op.side :=
    h.ring.committed_eq fun u q k hu => LaneInv.no_run ht halone u q k hu
  have hheld := h.held t op a acc ht
  obtain ⟨-, ha, -⟩ := h.checking ht rfl
  rw [hmark] at ha
  have hres := reserved_reserve g t (k := 1) (Nat.le_of_eq hwant.symm)
  have hword : a + 1 = BitVec.ofNat 32 ((g.reserve t op 1).reserved op.side) := by
    rw [hres, if_pos rfl, ha, Wrap.ofNat_succ]
  have hring := h.ring.commitOne (LaneInv.plain_at ht rfl) hmark hrest ⟨hheld.written, hheld.read⟩
  rw [Ring.settled_setHead (d := g.reserve t op 1) r op.side (a + 1) hword fun o ho => by
      rw [hres, if_neg ho, Nat.add_zero],
    Ring.settled_setTail r op.side (a + 1) (reserved_commit (g.reserve t op 1) op.side · 1)] at hring
  have hside : ∀ p, pc t = some p → p.op.side = op.side := fun p hp => by
    cases ht.symm.trans hp
    rfl
  refine h.update hside halone hring ?_ (LaneFrame.of_spscStep cap r g t (.storeTail op a acc)) ?_
  · -- the position of a consumer has been copied
    have hext := extends_reserve g t op 1
    have hle := (h.ring.ordered.window .send).1
    have hprod := h.ring.ordered.prod_le
    intro n hn
    replace hn : n < ((g.reserve t op 1).commit op.side 1).committed .recv := hn
    show (g.reserve t op 1).copied n = (g.reserve t op 1).valueAt n
    rw [copied_reserve]
    by_cases hlt : n < g.committed .recv
    · rw [hext.valueAt_eq (by omega)]
      exact h.taken n hlt
    · cases hs : op.side with
      | send =>
        rw [hs, RingGhost.committed_commit_of_ne _ (by decide), committed_reserve] at hn
        exact absurd hn hlt
      | recv =>
        rw [hs, RingGhost.committed_commit_self, committed_reserve] at hn
        rw [hs] at hmark hrest
        have hpos := h.lt_of_storeTail ht hs
        obtain rfl : n = g.mark t := by omega
        rw [hext.valueAt_eq (by omega)]
        exact (hheld.read hs).2
  · refine ⟨fun p hp => (by cases hp), fun p hp => ?_, fun hnot => absurd rfl (hnot op a acc),
      fun op' a' acc' hp => ?_, fun op' a' acc' hp => (by cases hp)⟩
    · cases hp
      exact hwant
    · cases hp
      refine ⟨rfl, ?_⟩
      show a + 1 = BitVec.ofNat 32 (((g.reserve t op 1).commit op.side 1).reserved op.side)
      rw [reserved_commit]
      exact hword

theorem LaneInv.cachedStoreHead (h : LaneInv cap r g pc)
    (ht : pc t = some (.cached (.storeHead op a acc)))
    (halone : ∀ u q, u ≠ t → pc u = some q → q.op.side ≠ op.side) :
    LaneInv cap (r.spscStep cap (.storeHead op a acc)).1 (g.spscStep cap r t (.storeHead op a acc))
      (Function.update pc t ((r.spscStep cap (.storeHead op a acc)).2.getLeft?.map .cached)) := by
  have hside : ∀ p, pc t = some p → p.op.side = op.side := fun p hp => by
    cases ht.symm.trans hp
    rfl
  refine h.update hside halone ?_ h.taken (LaneFrame.of_spscStep cap r g t (.storeHead op a acc))
    (.outside ?_)
  · have hsettled : (r.setHead op.side (a + 1)).settled g = r.settled g :=
      Ring.settled_congr (fun _ => rfl) (fun o => r.tail_setHead _ o _) rfl
    show RingInv cap ((r.setHead op.side (a + 1)).settled g) g _
    rw [hsettled]
    refine h.ring.move t none (by rw [ht]; rfl) fun p hp => by cases hp
  · exact (r.head_setHead_self _ _).trans (h.behind t op a acc ht)

/-- A cached access by the thread that has a half of the ring to itself keeps the invariant, if its
private copy is not too stale. -/
theorem LaneInv.cachedAccess (h : LaneInv cap r g pc) (ht : pc t = some (.cached p))
    (halone : ∀ u q, u ≠ t → pc u = some q → q.op.side ≠ p.op.side)
    (hcache : CacheAt cap r g p.op.side 1) :
    LaneInv cap (r.spscStep cap p).1 (g.spscStep cap r t p)
      (Function.update pc t ((r.spscStep cap p).2.getLeft?.map .cached)) := by
  cases p with
  | loadHead op => exact h.cachedLoad ht halone hcache
  | refresh op a => exact h.cachedRefresh ht halone
  | copy op a => exact h.cachedCopy ht halone
  | storeTail op a acc => exact h.cachedStoreTail ht halone
  | storeHead op a acc => exact h.cachedStoreHead ht halone

omit [DecidableEq T] in
/-- A cached push writes to a slot whose earlier elements have all been copied out. -/
theorem LaneInv.overwrites (h : LaneInv cap r g pc) (ht : pc t = some (.cached (.copy op a)))
    (hs : op.side = .send) {n : Nat} (hn : n < g.reserved .send)
    (hslot : Wrap.slotOf cap.size n = op.slot cap a 1 0) :
    n < g.committed .recv ∧ g.copied n = g.valueAt n := by
  have hmark : g.mark t = g.reserved op.side := h.mark t _ _ ht rfl trivial
  have hcap := cap.size_le
  obtain ⟨-, -, -, hfit⟩ := h.checking ht rfl
  obtain ⟨-, -, hroom⟩ := hfit hmark.symm
  rw [h.ring.slot_of_cas (LaneInv.plain_at ht rfl) hmark] at hslot
  rw [hs] at hmark hroom
  replace hroom : g.mark t + 1 ≤ g.committed .recv + cap.size := hroom
  have hlt : n < g.committed .recv := by
    by_contra hge
    have := Wrap.slotOf_inj (a := g.committed .recv) (by omega) (by omega) (by omega) (by omega)
      (by omega) hslot
    omega
  exact ⟨hlt, h.taken n hlt⟩

/-! ### Keeping the copies current -/

omit [DecidableEq T] in
theorem CacheAt.mono {r' : Ring β} {g' : RingGhost T ω β} {o : ChanOp} {k k' : Nat}
    (h : CacheAt cap r g o k) (hcached : (r'.cur o).cached = (r.cur o).cached)
    (hcom : g.committed o.other ≤ g'.committed o.other)
    (hres : g'.reserved o + k ≤ g.reserved o + k') : CacheAt cap r' g' o k' := by
  obtain ⟨n, hn, hle, hhi⟩ := h
  exact ⟨n, hcached.trans hn, hle.trans hcom, by omega⟩

omit [DecidableEq T] in
theorem CacheAt.init (cap : RingCap) (slots : U32 → β) (o : ChanOp) (k : Nat) :
    CacheAt cap (Ring.init slots) (RingGhost.init : RingGhost T ω β) o k :=
  ⟨0, rfl, Nat.zero_le _, by cases o <;> exact Nat.zero_le _⟩

omit [DecidableEq T] in
/-- The shared operations do not touch the private copies. -/
theorem Ring.cached_step (cap : RingCap) (r : Ring β) (weak : Bool) (q : RingPc ω β) (o : ChanOp) :
    ((r.step cap weak q).1.cur o).cached = (r.cur o).cached := by
  have hset : ∀ (r : Ring β) o' v, ((r.setHead o' v).cur o).cached = (r.cur o).cached := by
    intro r o' v
    by_cases h : o = o'
    · subst h
      simp only [Ring.setHead, Function.update_self]
    · simp only [Ring.setHead, Function.update_of_ne h]
  cases q with
  | loadHead op => rfl
  | loadOpp op a =>
    simp only [Ring.step]
    split <;> rfl
  | cas op a k =>
    simp only [Ring.step]
    split
    · exact hset r op.side _
    · rfl
  | copy op a k i acc =>
    have hcur := Ring.copyElem_cur cap r op a k i acc
    simp only [Ring.step]
    split <;> exact congrArg (fun cur => (cur o).cached) hcur
  | wait op a k acc =>
    simp only [Ring.step]
    split <;> rfl
  | store op a k acc =>
    by_cases h : o = op.side
    · subst h
      simp only [Ring.step, Ring.setTail, Function.update_self]
    · simp only [Ring.step, Ring.setTail, Function.update_of_ne h]

/-- The cached places after a check that the private copy has passed. -/
def SpscPc.current : SpscPc ω β → Bool
  | copy _ _ => true
  | storeTail _ _ _ => true
  | _ => false

omit [DecidableEq T] in
theorem Ring.cached_spscStep (cap : RingCap) (r : Ring β) (p : SpscPc ω β) (o : ChanOp)
    (h : o = p.op.side → ∀ op a, p ≠ .refresh op a) :
    ((r.spscStep cap p).1.cur o).cached = (r.cur o).cached := by
  cases p with
  | loadHead op =>
    simp only [Ring.spscStep]
    split <;> rfl
  | refresh op a =>
    have ho : o ≠ op.side := fun ho => h ho op a rfl
    simp only [Ring.spscStep]
    split <;> simp only [Ring.setCached, Function.update_of_ne ho]
  | copy op a => exact congrArg (fun cur => (cur o).cached) (Ring.copyElem_cur cap r op a 1 0 [])
  | storeTail op a acc =>
    by_cases ho : o = op.side
    · subst ho
      simp only [Ring.spscStep, Ring.setTail, Function.update_self]
    · simp only [Ring.spscStep, Ring.setTail, Function.update_of_ne ho]
  | storeHead op a acc =>
    by_cases ho : o = op.side
    · subst ho
      simp only [Ring.spscStep, Ring.setHead, Function.update_self]
    · simp only [Ring.spscStep, Ring.setHead, Function.update_of_ne ho]

theorem reserved_spscStep (g : RingGhost T ω β) (cap : RingCap) (r : Ring β) (t : T)
    (hp : ∀ op a acc, p ≠ .storeTail op a acc) (o : ChanOp) :
    (g.spscStep cap r t p).reserved o = g.reserved o := by
  cases p with
  | loadHead op => exact reserved_setMark ..
  | refresh op a => rfl
  | copy op a =>
    rw [RingGhost.spscStep]
    split
    · rfl
    · exact reserved_setCopied ..
  | storeTail op a acc => exact absurd rfl (hp op a acc)
  | storeHead op a acc => rfl

/-- A load of the opposite tail makes the private copy current. -/
theorem CacheAt.of_refresh (h : LaneInv cap r g pc) (op : RingOp ω β) (a : U32) :
    CacheAt cap (r.spscStep cap (.refresh op a : SpscPc ω β)).1
      (g.spscStep cap r t (.refresh op a)) op.side 0 := by
  refine ⟨g.committed op.side.other, ?_, Nat.le_refl _, h.ring.ordered.reserved_le op.side⟩
  have htail : (r.cur op.side.other).tail = BitVec.ofNat 32 (g.committed op.side.other) :=
    h.ring.tail_eq op.side.other
  simp only [Ring.spscStep]
  split <;> simp only [Ring.setCached, Function.update_self, htail]

/-- The private copy is current where a check has passed, and where one has failed on a fresh load. -/
theorem CacheAt.current_step (h : LaneInv cap r g pc) (ht : pc t = some (.cached p))
    (halone : ∀ u q, u ≠ t → pc u = some q → q.op.side ≠ p.op.side)
    (hcache : CacheAt cap r g p.op.side 1) (hcurrent : p.current = true → CacheAt cap r g p.op.side 0)
    (hnext : (∃ p', (r.spscStep cap p).2 = .inl p' ∧ p'.current = true) ∨
      ∃ res, (r.spscStep cap p).2 = .inr res ∧ res.moved = 0) :
    CacheAt cap (r.spscStep cap p).1 (g.spscStep cap r t p) p.op.side 0 := by
  cases p with
  | loadHead op =>
    have hhead : (r.cur op.side).head = BitVec.ofNat 32 (g.reserved op.side) :=
      h.head_of_cached ht (fun _ _ _ => by rintro ⟨⟩) halone
    have hopen : spscBlocked cap (BitVec.ofNat 32 (g.reserved op.side)) (r.cur op.side).cached op.side =
        false := by
      by_contra hblocked
      rw [Bool.not_eq_false] at hblocked
      simp only [Ring.spscStep, hhead, hblocked, if_true] at hnext
      rcases hnext with ⟨p', hp', hcur⟩ | ⟨res, hres, -⟩
      · cases hp'
        cases hcur
      · cases hres
    exact (hcache.room h.ring.ordered hopen).2.mono
      (Ring.cached_spscStep cap r _ _ fun _ _ _ => by rintro ⟨⟩) (Nat.le_refl _)
      (Nat.le_of_eq (congrArg (· + 0) (reserved_setMark ..)))
  | refresh op a => exact CacheAt.of_refresh h op a
  | copy op a =>
    refine (hcurrent rfl).mono (Ring.cached_spscStep cap r _ _ fun _ _ _ => by rintro ⟨⟩)
      ((LaneFrame.of_spscStep cap r g t _).ext.committed _) ?_
    rw [reserved_spscStep g cap r t (fun _ _ _ => by rintro ⟨⟩)]
  | storeTail op a acc =>
    rcases hnext with ⟨p', hp', hcur⟩ | ⟨res, hres, -⟩
    · cases hp'
      cases hcur
    · cases hres
  | storeHead op a acc =>
    rcases hnext with ⟨p', hp', -⟩ | ⟨res, hres, hzero⟩
    · cases hp'
    · cases hres
      cases hzero

/-- The half of a cached access stays at most one position further than its private copy allows. -/
theorem CacheAt.spscStep (h : LaneInv cap r g pc) (ht : pc t = some (.cached p))
    (hcache : CacheAt cap r g p.op.side 1) (hcurrent : p.current = true → CacheAt cap r g p.op.side 0) :
    CacheAt cap (r.spscStep cap p).1 (g.spscStep cap r t p) p.op.side 1 := by
  have hcom := (LaneFrame.of_spscStep cap r g t p).ext.committed p.op.side.other
  cases p with
  | loadHead op =>
    exact hcache.mono (Ring.cached_spscStep cap r _ _ fun _ _ _ => by rintro ⟨⟩) hcom
      (Nat.le_of_eq (congrArg (· + 1) (reserved_spscStep g cap r t (fun _ _ _ => by rintro ⟨⟩) _)))
  | refresh op a =>
    exact (CacheAt.of_refresh h op a).mono rfl (Nat.le_refl _) (Nat.le_succ _)
  | copy op a =>
    exact hcache.mono (Ring.cached_spscStep cap r _ _ fun _ _ _ => by rintro ⟨⟩) hcom
      (Nat.le_of_eq (congrArg (· + 1) (reserved_spscStep g cap r t (fun _ _ _ => by rintro ⟨⟩) _)))
  | storeTail op a acc =>
    have hwant : op.want = 1 := h.single t _ ht
    refine (hcurrent rfl).mono (Ring.cached_spscStep cap r _ _ fun _ _ _ => by rintro ⟨⟩) hcom ?_
    show ((g.reserve t op 1).commit op.side 1).reserved op.side + 0 ≤ g.reserved op.side + 1
    rw [reserved_commit, reserved_reserve g t (Nat.le_of_eq hwant.symm), if_pos rfl]
  | storeHead op a acc =>
    exact hcache.mono (Ring.cached_spscStep cap r _ _ fun _ _ _ => by rintro ⟨⟩) hcom
      (Nat.le_of_eq (congrArg (· + 1) (reserved_spscStep g cap r t (fun _ _ _ => by rintro ⟨⟩) _)))

end Cached

end LibChan
