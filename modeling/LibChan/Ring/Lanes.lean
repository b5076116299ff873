import LibChan.Ring.Spsc
import LibChan.Ring.Verdicts

/-!
# One thread on each half of the ring

`ring_spsc_push` and `ring_spsc_pop` look for room with a private copy of the opposite tail, copy the
slot without a reservation, store the tail and store the head last. Where one thread at a time operates
on each half of the ring, this is an operation of the shared machine. The places before the tail store
stand for the places of the shared operation up to its CAS (`SpscPc.plain`), the tail store does at once
what the shared operation does from its CAS to its commit, and until the head store nobody reads the head
that lags behind. So the invariant of the shared ring holds of the ring with its heads put right
(`Ring.settled`), for threads that mix the two kinds of operations (`LaneInv`). This module has the
invariant and its preservation by the shared operations.
-/

set_option autoImplicit false

namespace LibChan

variable {T ω β : Type}

/-! ## Places -/

/-- The place of a thread on one half of a ring: inside a shared or a cached operation. -/
inductive LanePc (ω β : Type)
  | shared (p : RingPc ω β)
  | cached (p : SpscPc ω β)

/-- The operation of a place. -/
def LanePc.op : LanePc ω β → RingOp ω β
  | shared p => p.op
  | cached p => p.op

/-- The place in a shared operation that a cached place stands for. A thread that has stored its tail has
committed; it only has to catch up with its head. -/
def SpscPc.plain : SpscPc ω β → Option (RingPc ω β)
  | loadHead op => some (.loadHead op)
  | refresh op h => some (.loadOpp op h)
  | copy op h => some (.cas op h 1)
  | storeTail op h _ => some (.cas op h 1)
  | storeHead _ _ _ => none

/-- The place in a shared operation that a place stands for. -/
def LanePc.plain : LanePc ω β → Option (RingPc ω β)
  | shared p => some p
  | cached p => p.plain

theorem SpscPc.op_of_plain {p : SpscPc ω β} {q : RingPc ω β} (h : p.plain = some q) : q.op = p.op := by
  cases p <;> cases h <;> rfl

theorem LanePc.op_of_plain {p : LanePc ω β} {q : RingPc ω β} (h : p.plain = some q) : q.op = p.op := by
  cases p with
  | shared p => cases h; rfl
  | cached p => exact SpscPc.op_of_plain h

/-- No cached place stands for a run. -/
theorem SpscPc.run_of_plain {p : SpscPc ω β} {q : RingPc ω β} (h : p.plain = some q) : q.run = none := by
  cases p <;> cases h <;> rfl

/-- The ring with each head at the count of reserved positions and without the private copies. -/
def Ring.settled (r : Ring β) (g : RingGhost T ω β) : Ring β where
  cur o := ⟨BitVec.ofNat 32 (g.reserved o), (r.cur o).tail, 0⟩
  slots := r.slots

theorem Ring.settled_congr {r r' : Ring β} {g g' : RingGhost T ω β}
    (hres : ∀ o, g'.reserved o = g.reserved o) (htail : ∀ o, (r'.cur o).tail = (r.cur o).tail)
    (hslots : r'.slots = r.slots) : r'.settled g' = r.settled g := by
  simp only [Ring.settled, hres, htail, hslots]

section Words

variable (r : Ring β) (o o' : ChanOp) (v : U32)

@[simp] theorem Ring.tail_setHead : ((r.setHead o v).cur o').tail = (r.cur o').tail := by
  by_cases h : o' = o
  · subst h
    simp only [Ring.setHead, Function.update_self]
  · simp only [Ring.setHead, Function.update_of_ne h]

@[simp] theorem Ring.head_setTail : ((r.setTail o v).cur o').head = (r.cur o').head := by
  by_cases h : o' = o
  · subst h
    simp only [Ring.setTail, Function.update_self]
  · simp only [Ring.setTail, Function.update_of_ne h]

@[simp] theorem Ring.head_setCached : ((r.setCached o v).cur o').head = (r.cur o').head := by
  by_cases h : o' = o
  · subst h
    simp only [Ring.setCached, Function.update_self]
  · simp only [Ring.setCached, Function.update_of_ne h]

@[simp] theorem Ring.tail_setCached : ((r.setCached o v).cur o').tail = (r.cur o').tail := by
  by_cases h : o' = o
  · subst h
    simp only [Ring.setCached, Function.update_self]
  · simp only [Ring.setCached, Function.update_of_ne h]

theorem Ring.head_setHead_self : ((r.setHead o v).cur o).head = v := by
  simp only [Ring.setHead, Function.update_self]

theorem Ring.head_setHead_of_ne (h : o' ≠ o) : ((r.setHead o v).cur o').head = (r.cur o').head := by
  simp only [Ring.setHead, Function.update_of_ne h]

/-- Storing the right head in a settled ring. -/
theorem Ring.settled_setHead {g d : RingGhost T ω β} (hv : v = BitVec.ofNat 32 (d.reserved o))
    (hres : ∀ o', o' ≠ o → d.reserved o' = g.reserved o') :
    (r.settled g).setHead o v = r.settled d := by
  simp only [Ring.settled, Ring.setHead, Ring.mk.injEq, and_true]
  funext o'
  by_cases h : o' = o
  · subst h
    rw [Function.update_self, hv]
  · rw [Function.update_of_ne h, hres o' h]

theorem Ring.settled_setTail {g g' : RingGhost T ω β} (hres : ∀ o, g'.reserved o = g.reserved o) :
    (r.settled g).setTail o v = (r.setTail o v).settled g' := by
  simp only [Ring.settled, Ring.setTail, hres, Ring.mk.injEq, and_true]
  funext o'
  by_cases h : o' = o
  · subst h
    simp only [Function.update_self]
  · simp only [Function.update_of_ne h]

end Words

section Step

variable [DecidableEq T] {cap : RingCap} {r : Ring β} {g : RingGhost T ω β} {t : T} {p : RingPc ω β}

theorem reserved_setMark (g : RingGhost T ω β) (t : T) (m : Nat) (o : ChanOp) :
    (g.setMark t m).reserved o = g.reserved o := by
  cases o <;> rfl

omit [DecidableEq T] in
theorem reserved_commit (g : RingGhost T ω β) (o o' : ChanOp) (k : Nat) :
    (g.commit o k).reserved o' = g.reserved o' := by
  cases o' <;> rfl

omit [DecidableEq T] in
theorem reserved_setCopied (g : RingGhost T ω β) (n : Nat) (x : β) (o : ChanOp) :
    (g.setCopied n x).reserved o = g.reserved o := by
  cases o <;> rfl

/-- A shared access by a thread whose own head is right does the same to the settled ring. -/
theorem Ring.settled_step (cap : RingCap) (weak : Bool) (t : T)
    (hhead : (r.cur p.op.side).head = BitVec.ofNat 32 (g.reserved p.op.side))
    (hfit : ∀ op h k, p = .cas op h k → k.toNat ≤ op.want) :
    ((r.settled g).step cap weak p).2 = (r.step cap weak p).2 ∧
      ((r.settled g).step cap weak p).1 = (r.step cap weak p).1.settled (g.step cap r t weak p) ∧
      g.step cap (r.settled g) t weak p = g.step cap r t weak p := by
  cases p with
  | loadHead op =>
    refine ⟨?_, ?_, rfl⟩
    · exact congrArg (fun v => Sum.inl (RingPc.loadOpp op v)) hhead.symm
    · exact (Ring.settled_congr (reserved_setMark g t _) (fun _ => rfl) rfl).symm
  | loadOpp op h =>
    simp only [Ring.step, RingGhost.step, Ring.settled]
    cases op.reserve cap h (r.cur op.side.other).tail <;> exact ⟨rfl, rfl, trivial⟩
  | cas op h k =>
    replace hhead : (r.cur op.side).head = BitVec.ofNat 32 (g.reserved op.side) := hhead
    have hhead' : ((r.settled g).cur op.side).head = (r.cur op.side).head := hhead.symm
    simp only [Ring.step, RingGhost.step, hhead']
    by_cases hcas : weak = false ∧ (r.cur op.side).head = h
    · rw [if_pos hcas, if_pos hcas, if_pos hcas]
      refine ⟨rfl, ?_, trivial⟩
      have hres := reserved_reserve g t (hfit op h k rfl)
      refine (Ring.settled_setHead (d := g.reserve t op k.toNat) r op.side (h + k) ?_ ?_).trans
        (Ring.settled_congr (fun _ => rfl) (fun o => (r.tail_setHead op.side o _).symm) rfl)
      · rw [hres, if_pos rfl, ← hcas.2, hhead, Wrap.ofNat_add_word]
      · intro o ho
        rw [hres, if_neg ho, Nat.add_zero]
    · rw [if_neg hcas, if_neg hcas, if_neg hcas]
      exact ⟨rfl, rfl, trivial⟩
  | copy op h k i acc =>
    simp only [Ring.step, RingGhost.step, Ring.copyElem]
    cases hs : op.side with
    | send =>
      cases op.data[i]? with
      | none => split <;> exact ⟨rfl, rfl, rfl⟩
      | some x => split <;> exact ⟨rfl, rfl, rfl⟩
    | recv =>
      have hcopied : r.settled (g.setCopied (g.mark t + i) (r.slots (op.slot cap h k i))) =
          r.settled g :=
        Ring.settled_congr (reserved_setCopied g _ _) (fun _ => rfl) rfl
      split <;> exact ⟨rfl, hcopied.symm, rfl⟩
  | wait op h k acc =>
    have htail : ((r.settled g).cur op.side).tail = (r.cur op.side).tail := rfl
    simp only [Ring.step, RingGhost.step, htail]
    by_cases ht : (r.cur op.side).tail = h
    · rw [if_pos ht, if_pos ht]
      exact ⟨rfl, rfl, trivial⟩
    · rw [if_neg ht, if_neg ht]
      exact ⟨rfl, rfl, trivial⟩
  | store op h k acc =>
    exact ⟨rfl, r.settled_setTail op.side (h + k) (reserved_commit g op.side · k.toNat), rfl⟩

/-- A shared access of a thread whose own head is right leaves it right. -/
theorem Ring.head_step (cap : RingCap) (weak : Bool) (t : T)
    (hhead : (r.cur p.op.side).head = BitVec.ofNat 32 (g.reserved p.op.side))
    (hfit : ∀ op h k, p = .cas op h k → k.toNat ≤ op.want) :
    ((r.step cap weak p).1.cur p.op.side).head =
      BitVec.ofNat 32 ((g.step cap r t weak p).reserved p.op.side) := by
  cases p with
  | loadHead op => exact hhead.trans (congrArg _ (reserved_setMark g t _ _).symm)
  | loadOpp op h =>
    simp only [Ring.step, RingGhost.step]
    split <;> exact hhead
  | cas op h k =>
    replace hhead : (r.cur op.side).head = BitVec.ofNat 32 (g.reserved op.side) := hhead
    simp only [Ring.step, RingGhost.step, RingPc.op]
    by_cases hcas : weak = false ∧ (r.cur op.side).head = h
    · rw [if_pos hcas, if_pos hcas, Ring.head_setHead_self, reserved_reserve g t (hfit op h k rfl),
        if_pos rfl, ← hcas.2, hhead, Wrap.ofNat_add_word]
    · rw [if_neg hcas, if_neg hcas]
      exact hhead
  | copy op h k i acc =>
    have hcur := Ring.copyElem_cur cap r op h k i acc
    have hres : (g.step cap r t weak (.copy op h k i acc)).reserved op.side = g.reserved op.side := by
      rw [RingGhost.step]
      split
      · rfl
      · exact reserved_setCopied ..
    simp only [Ring.step, RingPc.op, hres]
    split <;> exact (congrArg (fun cur => (cur op.side).head) hcur).trans hhead
  | wait op h k acc =>
    simp only [Ring.step, RingGhost.step]
    split <;> exact hhead
  | store op h k acc =>
    simp only [Ring.step, RingGhost.step, RingPc.op, Ring.head_setTail, reserved_commit]
    exact hhead

end Step

/-! ## The invariant -/

/-- The element of a cached operation that is about to store its tail is in the slot, or has been copied
out of it. -/
structure Held (cap : RingCap) (r : Ring β) (g : RingGhost T ω β) (t : T) (op : RingOp ω β)
    (acc : List β) : Prop where
  written : op.side = .send →
    some (r.slots (Wrap.slotOf cap.size (g.mark t))) = (op.data[0]?).map Prod.snd
  read : op.side = .recv →
    acc[0]? = g.valueAt (g.mark t) ∧ g.copied (g.mark t) = g.valueAt (g.mark t)

/-- The invariant of a ring on each half of which one thread at a time operates, by shared and by cached
operations. -/
structure LaneInv (cap : RingCap) (r : Ring β) (g : RingGhost T ω β)
    (pc : T → Option (LanePc ω β)) : Prop where
  ring : RingInv cap (r.settled g) g fun t => (pc t).bind LanePc.plain
  taken : ∀ n < g.committed .recv, g.copied n = g.valueAt n
  mark : ∀ t p q, pc t = some p → p.plain = some q → q.Checking → g.mark t = g.reserved q.op.side
  single : ∀ t p, pc t = some (.cached p) → p.op.want = 1
  head : ∀ o, (∀ t op h acc, pc t = some (.cached (.storeHead op h acc)) → op.side ≠ o) →
    (r.cur o).head = BitVec.ofNat 32 (g.reserved o)
  behind : ∀ t op h acc, pc t = some (.cached (.storeHead op h acc)) →
    h + 1 = BitVec.ofNat 32 (g.reserved op.side)
  held : ∀ t op h acc, pc t = some (.cached (.storeTail op h acc)) → Held cap r g t op acc

/-- What a step of thread `t` on half `o` leaves alone. -/
structure LaneFrame (t : T) (o : ChanOp) (r r' : Ring β) (g g' : RingGhost T ω β) : Prop where
  ext : Extends g g'
  mark : ∀ u, u ≠ t → g'.mark u = g.mark u
  reserved : ∀ o', o' ≠ o → g'.reserved o' = g.reserved o'
  head : ∀ o', o' ≠ o → (r'.cur o').head = (r.cur o').head
  slots : o = .recv → r'.slots = r.slots
  copied : o = .send → g'.copied = g.copied

/-- What a step of thread `t` on half `o` has to make true of its own place. -/
structure LaneOwn (cap : RingCap) (r : Ring β) (g : RingGhost T ω β) (t : T) (o : ChanOp)
    (q : Option (LanePc ω β)) : Prop where
  mark : ∀ p, q.bind LanePc.plain = some p → p.Checking → g.mark t = g.reserved p.op.side
  single : ∀ p, q = some (.cached p) → p.op.want = 1
  head : (∀ op h acc, q ≠ some (.cached (.storeHead op h acc))) →
    (r.cur o).head = BitVec.ofNat 32 (g.reserved o)
  behind : ∀ op h acc, q = some (.cached (.storeHead op h acc)) →
    op.side = o ∧ h + 1 = BitVec.ofNat 32 (g.reserved op.side)
  held : ∀ op h acc, q = some (.cached (.storeTail op h acc)) → Held cap r g t op acc

section Preservation

variable [DecidableEq T] {cap : RingCap} {r r' : Ring β} {g g' : RingGhost T ω β} {t u : T}
  {o : ChanOp} {pc : T → Option (LanePc ω β)} {p : LanePc ω β}

/-- The places of the shared machine after a step of one thread. -/
theorem plain_update (pc : T → Option (LanePc ω β)) (t : T) (q : Option (LanePc ω β)) :
    (fun u => (Function.update pc t q u).bind LanePc.plain) =
      Function.update (fun u => (pc u).bind LanePc.plain) t (q.bind LanePc.plain) := by
  funext u
  by_cases h : u = t
  · subst h
    rw [Function.update_self, Function.update_self]
  · rw [Function.update_of_ne h, Function.update_of_ne h]

omit [DecidableEq T] in
theorem LaneInv.checking (h : LaneInv cap r g pc) {q : RingPc ω β} (ht : pc t = some p)
    (hq : p.plain = some q) : PcInv cap (r.settled g) g t q :=
  h.ring.thread t q (by rw [ht]; exact hq)

omit [DecidableEq T] in
/-- A consumer about to store its tail reads a position that a producer has committed. -/
theorem LaneInv.lt_of_storeTail (h : LaneInv cap r g pc) {op : RingOp ω β} {a : U32} {acc : List β}
    (ht : pc t = some (.cached (.storeTail op a acc))) (hs : op.side = .recv) :
    g.mark t < g.committed .send := by
  have hmark := h.mark t _ _ ht rfl trivial
  obtain ⟨-, -, -, hfit⟩ := h.checking ht rfl
  obtain ⟨-, -, hroom⟩ := hfit hmark.symm
  rw [hs] at hroom
  exact hroom

/-- A step of one thread that leaves the other half alone. -/
theorem LaneInv.update (h : LaneInv cap r g pc) {q : Option (LanePc ω β)}
    (hside : ∀ p, pc t = some p → p.op.side = o)
    (halone : ∀ u p, u ≠ t → pc u = some p → p.op.side ≠ o)
    (hring : RingInv cap (r'.settled g') g'
      (Function.update (fun u => (pc u).bind LanePc.plain) t (q.bind LanePc.plain)))
    (htaken : ∀ n < g'.committed .recv, g'.copied n = g'.valueAt n)
    (hframe : LaneFrame t o r r' g g') (hown : LaneOwn cap r' g' t o q) :
    LaneInv cap r' g' (Function.update pc t q) := by
  have hold : ∀ u p, u ≠ t → Function.update pc t q u = some p → pc u = some p := by
    intro u p hu hp
    rwa [Function.update_of_ne hu] at hp
  have hself : ∀ p, Function.update pc t q t = some p → q = some p := by
    intro p hp
    rwa [Function.update_self] at hp
  refine ⟨by rw [plain_update]; exact hring, htaken, ?_, ?_, ?_, ?_, ?_⟩
  · intro u p q' hp hq hcheck
    by_cases hu : u = t
    · subst hu
      exact hown.mark q' (by rw [hself p hp]; exact hq) hcheck
    · have hp := hold u p hu hp
      have hside : q'.op.side ≠ o := by
        rw [LanePc.op_of_plain hq]
        exact halone u p hu hp
      rw [hframe.mark u hu, hframe.reserved _ hside]
      exact h.mark u p q' hp hq hcheck
  · intro u p hp
    by_cases hu : u = t
    · subst hu
      exact hown.single p (hself _ hp)
    · exact h.single u p (hold u _ hu hp)
  · intro o' hnone
    by_cases ho : o' = o
    · subst ho
      refine hown.head fun op a acc hq => ?_
      exact hnone t op a acc (by rw [Function.update_self, hq]) (hown.behind op a acc hq).1
    · rw [hframe.head o' ho, hframe.reserved o' ho]
      refine h.head o' fun u op a acc hu => ?_
      by_cases hut : u = t
      · subst hut
        have hop : op.side = o := hside _ hu
        rw [hop]
        exact Ne.symm ho
      · exact hnone u op a acc (by rw [Function.update_of_ne hut]; exact hu)
  · intro u op a acc hp
    by_cases hu : u = t
    · subst hu
      exact (hown.behind op a acc (hself _ hp)).2
    · have hp := hold u _ hu hp
      have hside : op.side ≠ o := halone u _ hu hp
      rw [hframe.reserved _ hside]
      exact h.behind u op a acc hp
  · intro u op a acc hp
    by_cases hu : u = t
    · subst hu
      exact hown.held op a acc (hself _ hp)
    · have hp := hold u _ hu hp
      have hside : op.side ≠ o := halone u _ hu hp
      have hheld := h.held u op a acc hp
      constructor
      · intro hs
        rw [hframe.mark u hu, hframe.slots (by cases o <;> first | rfl | exact absurd hs hside)]
        exact hheld.written hs
      · intro hs
        have hlt := h.lt_of_storeTail hp hs
        have hle := h.ring.ordered.prod_le
        rw [hframe.mark u hu, hframe.copied (by cases o <;> first | rfl | exact absurd hs hside),
          hframe.ext.valueAt_eq (by omega)]
        exact hheld.read hs

/-! ### Shared operations -/

theorem plain_shared (q : Option (RingPc ω β)) : (q.map LanePc.shared).bind LanePc.plain = q := by
  cases q <;> rfl

section Shared

variable {q : RingPc ω β}

omit [DecidableEq T] in
theorem Ring.head_step_of_ne (cap : RingCap) (r : Ring β) (weak : Bool) (ho : o ≠ q.op.side) :
    ((r.step cap weak q).1.cur o).head = (r.cur o).head := by
  cases q with
  | loadHead op => rfl
  | loadOpp op a =>
    simp only [Ring.step]
    split <;> rfl
  | cas op a k =>
    simp only [Ring.step]
    split
    · exact Ring.head_setHead_of_ne _ _ _ _ ho
    · rfl
  | copy op a k i acc =>
    have hcur := Ring.copyElem_cur cap r op a k i acc
    simp only [Ring.step]
    split <;> exact congrArg (fun cur => (cur o).head) hcur
  | wait op a k acc =>
    simp only [Ring.step]
    split <;> rfl
  | store op a k acc => exact Ring.head_setTail ..

omit [DecidableEq T] in
theorem Ring.slots_step (cap : RingCap) (r : Ring β) (weak : Bool) (hs : q.op.side = .recv) :
    (r.step cap weak q).1.slots = r.slots := by
  cases q with
  | loadHead op => rfl
  | loadOpp op a =>
    simp only [Ring.step]
    split <;> rfl
  | cas op a k =>
    simp only [Ring.step]
    split <;> rfl
  | copy op a k i acc =>
    replace hs : op.side = .recv := hs
    simp only [Ring.step, Ring.copyElem, hs]
    split <;> rfl
  | wait op a k acc =>
    simp only [Ring.step]
    split <;> rfl
  | store op a k acc => rfl

theorem copied_step (g : RingGhost T ω β) (cap : RingCap) (r : Ring β) (t : T) (weak : Bool)
    (hs : q.op.side = .send) : (g.step cap r t weak q).copied = g.copied := by
  cases q with
  | cas op a k =>
    rw [RingGhost.step]
    split
    · exact copied_reserve ..
    · rfl
  | copy op a k i acc =>
    replace hs : op.side = .send := hs
    simp only [RingGhost.step, hs]
  | _ => rfl

theorem LaneFrame.of_step (cap : RingCap) (r : Ring β) (g : RingGhost T ω β) (t : T) (weak : Bool)
    (q : RingPc ω β) :
    LaneFrame t q.op.side r (r.step cap weak q).1 g (g.step cap r t weak q) where
  ext := extends_step ..
  mark _ hu := mark_step_of_ne _ _ _ _ _ _ hu
  reserved _ ho := (cursors_step_of_side _ _ _ _ _ _ ho.symm).1
  head _ ho := Ring.head_step_of_ne cap r weak ho
  slots hs := Ring.slots_step cap r weak hs
  copied hs := copied_step g cap r t weak hs

/-- A shared access keeps the positions before the consumer tail copied. -/
theorem RingInv.taken_step {pc : T → Option (RingPc ω β)} (hinv : RingInv cap r g pc) (weak : Bool)
    (ht : pc t = some q) (htaken : ∀ n < g.committed .recv, g.copied n = g.valueAt n) :
    ∀ n < (g.step cap r t weak q).committed .recv,
      (g.step cap r t weak q).copied n = (g.step cap r t weak q).valueAt n := by
  have hord := hinv.ordered
  have hle : g.committed .recv ≤ g.reserved .send := by
    have h1 := hord.window .send
    omega
  -- a position that was committed before has been copied before
  have hold : ∀ n < g.committed .recv, (g.step cap r t weak q).valueAt n = g.valueAt n := fun n hn =>
    (extends_step g cap r t weak q).valueAt_eq (by omega)
  intro n hn
  cases q with
  | loadHead op => exact htaken n hn
  | loadOpp op a => exact htaken n hn
  | cas op a k =>
    rw [RingGhost.step] at hn hold ⊢
    split
    · next hcas =>
      rw [if_pos hcas] at hn hold
      rw [committed_reserve] at hn
      rw [copied_reserve, hold n hn]
      exact htaken n hn
    · next hcas =>
      rw [if_neg hcas] at hn
      exact htaken n hn
  | copy op a k i acc =>
    obtain ⟨-, hrun, hi, -⟩ := hinv.thread t _ ht
    cases hs : op.side with
    | send =>
      simp only [RingGhost.step, hs] at hn ⊢
      exact htaken n hn
    | recv =>
      have hlo := hrun.lo
      rw [hs] at hlo
      simp only [RingGhost.step, hs] at hn ⊢
      have hn : n < g.committed .recv := hn
      exact (g.copied_setCopied_of_ne (by omega) _).trans (htaken n hn)
  | wait op a k acc => exact htaken n hn
  | store op a k acc =>
    obtain ⟨-, hrun, hcop, heq⟩ := hinv.thread t _ ht
    show g.copied n = g.valueAt n
    by_cases hlt : n < g.committed .recv
    · exact htaken n hlt
    · cases hs : op.side with
      | send =>
        rw [RingGhost.step, hs, g.committed_commit_of_ne (by decide)] at hn
        exact absurd hn hlt
      | recv =>
        rw [RingGhost.step, hs, g.committed_commit_self] at hn
        rw [hs] at heq
        have hj := (hcop.read hs (n - g.mark t) (by omega)).2
        rwa [show g.mark t + (n - g.mark t) = n by omega] at hj

omit [DecidableEq T] in
theorem Ring.op_step {weak : Bool} {q' : RingPc ω β} (hq : (r.step cap weak q).2 = .inl q') :
    q'.op = q.op := by
  cases q with
  | loadHead op => cases hq; rfl
  | loadOpp op a =>
    simp only [Ring.step] at hq
    split at hq <;> cases hq
    rfl
  | cas op a k =>
    simp only [Ring.step] at hq
    split at hq <;> cases hq <;> rfl
  | copy op a k i acc =>
    simp only [Ring.step] at hq
    split at hq <;> cases hq <;> rfl
  | wait op a k acc =>
    simp only [Ring.step] at hq
    split at hq <;> cases hq <;> rfl
  | store op a k acc => cases hq

/-- A thread between its head load and its CAS has the count it loaded as its mark, with nobody else on
its half. -/
theorem mark_of_checking (weak : Bool) {q' : RingPc ω β} (hq : (r.step cap weak q).2 = .inl q')
    (hcheck : q'.Checking) (hmark : q.Checking → g.mark t = g.reserved q.op.side) :
    (g.step cap r t weak q).mark t = (g.step cap r t weak q).reserved q'.op.side := by
  have hrun : q'.run = none := by
    cases q' <;> first | rfl | exact hcheck.elim
  rw [((cursors_step_of_run g cap r t weak q hq hrun).2 _).1, Ring.op_step hq]
  rcases checking_step g cap r t weak q hq hcheck with ⟨op, rfl, h⟩ | ⟨hold, h⟩
  · exact h
  · exact h.trans (hmark hold)

omit [DecidableEq T] in
theorem LaneInv.plain_of_shared (ht : pc t = some (.shared q)) :
    (fun u => (pc u).bind LanePc.plain) t = some q := by
  show (pc t).bind LanePc.plain = some q
  rw [ht]
  rfl

/-- While a shared operation is under way the head word of its side says what is reserved. -/
theorem LaneInv.head_of_shared (h : LaneInv cap r g pc) (ht : pc t = some (.shared q))
    (halone : ∀ u p, u ≠ t → pc u = some p → p.op.side ≠ q.op.side) :
    (r.cur q.op.side).head = BitVec.ofNat 32 (g.reserved q.op.side) := by
  refine h.head _ fun u op a acc hu => ?_
  by_cases hut : u = t
  · subst hut
    cases ht.symm.trans hu
  · exact halone u _ hut hu

omit [DecidableEq T] in
theorem LaneInv.fit_of_shared (h : LaneInv cap r g pc) (ht : pc t = some (.shared q)) (op : RingOp ω β)
    (a k : U32) (hq : q = .cas op a k) : k.toNat ≤ op.want := by
  subst hq
  obtain ⟨-, -, -, hfit⟩ := h.checking ht rfl
  exact (hfit (h.mark t _ _ ht rfl trivial).symm).2.1

/-- A shared pop that returns without an element has seen the ring empty. -/
theorem LaneInv.empty_of_moved (h : LaneInv cap r g pc) {weak : Bool} (ht : pc t = some (.shared q))
    (halone : ∀ u p, u ≠ t → pc u = some p → p.op.side ≠ q.op.side) (hside : q.op.side = .recv)
    {res : RingRes β} (hres : (r.step cap weak q).2 = .inr res) (hzero : res.moved = 0) :
    g.committed .send = g.reserved .recv := by
  have hnext := (Ring.settled_step cap weak t (h.head_of_shared ht halone) (h.fit_of_shared ht)).1
  refine h.ring.empty_of_moved (LaneInv.plain_of_shared ht) hside ?_ (hnext.trans hres) hzero
  refine h.ring.ordered.timely (b := g.total) (fun hcheck => ?_) ?_
  · rw [h.mark t _ q ht rfl hcheck]
    exact h.ring.ordered.total_le q.op.side
  · exact Nat.lt_add_of_pos_right (Nat.two_pow_pos 32)

/-- A shared access by the thread that has a half of the ring to itself keeps the invariant. -/
theorem LaneInv.access (h : LaneInv cap r g pc) (weak : Bool) (ht : pc t = some (.shared q))
    (halone : ∀ u p, u ≠ t → pc u = some p → p.op.side ≠ q.op.side) :
    LaneInv cap (r.step cap weak q).1 (g.step cap r t weak q)
      (Function.update pc t ((r.step cap weak q).2.getLeft?.map .shared)) := by
  have hplain := LaneInv.plain_of_shared ht
  have hmark : q.Checking → g.mark t = g.reserved q.op.side := h.mark t _ q ht rfl
  have hhead := h.head_of_shared ht halone
  have hfit := h.fit_of_shared ht
  have hfresh : g.CasFresh t q := by
    cases q with
    | cas op a k =>
      have hm : g.mark t = g.reserved op.side := hmark trivial
      show g.reserved op.side - g.mark t < 2 ^ 32
      omega
    | _ => trivial
  obtain ⟨hnext, hsettled, hghost⟩ := Ring.settled_step cap weak t hhead hfit
  have hring := h.ring.access weak hplain hfresh
  rw [hnext, hsettled, hghost] at hring
  refine h.update (o := q.op.side) ?_ halone ?_ ?_ (LaneFrame.of_step cap r g t weak q) ?_
  · intro p hp
    cases ht.symm.trans hp
    rfl
  · rw [plain_shared]
    exact hring
  · have htaken := h.ring.taken_step weak hplain h.taken
    rwa [hghost] at htaken
  · refine ⟨fun p hp hcheck => ?_, fun p hp => ?_, fun _ => ?_, fun op a acc hp => ?_,
      fun op a acc hp => ?_⟩
    · rw [plain_shared, Sum.getLeft?_eq_some_iff] at hp
      exact mark_of_checking weak hp hcheck hmark
    · obtain ⟨p', -, hp'⟩ := Option.map_eq_some_iff.1 hp
      cases hp'
    · exact Ring.head_step cap weak t hhead hfit
    · obtain ⟨p', -, hp'⟩ := Option.map_eq_some_iff.1 hp
      cases hp'
    · obtain ⟨p', -, hp'⟩ := Option.map_eq_some_iff.1 hp
      cases hp'

end Shared

/-! ### Starting and the new ring -/

theorem LaneInv.begin (h : LaneInv cap r g pc) (ht : pc t = none) {op : RingOp ω β}
    (hplain : p.plain = some (.loadHead op)) (hv : op.Valid)
    (hsingle : ∀ q, p = .cached q → q.op.want = 1) :
    LaneInv cap r g (Function.update pc t (some p)) := by
  have hold : ∀ u q, Function.update pc t (some p) u = some q →
      u = t ∧ q = p ∨ u ≠ t ∧ pc u = some q := by
    intro u q hq
    by_cases hu : u = t
    · subst hu
      rw [Function.update_self] at hq
      cases hq
      exact Or.inl ⟨rfl, rfl⟩
    · rw [Function.update_of_ne hu] at hq
      exact Or.inr ⟨hu, hq⟩
  refine ⟨?_, h.taken, ?_, ?_, ?_, ?_, ?_⟩
  · rw [plain_update, Option.bind_some, hplain]
    exact h.ring.begin (by rw [ht]; rfl) hv
  · intro u q q' hq hq' hcheck
    rcases hold u q hq with ⟨-, rfl⟩ | ⟨-, hq⟩
    · cases hplain.symm.trans hq'
      exact hcheck.elim
    · exact h.mark u q q' hq hq' hcheck
  · intro u q hq
    rcases hold u _ hq with ⟨-, hp⟩ | ⟨-, hq⟩
    · exact hsingle q hp.symm
    · exact h.single u q hq
  · intro o hnone
    refine h.head o fun u op a acc hu => hnone u op a acc ?_
    have hut : u ≠ t := by
      rintro rfl
      cases ht.symm.trans hu
    rw [Function.update_of_ne hut]
    exact hu
  · intro u op' a acc hq
    rcases hold u _ hq with ⟨-, rfl⟩ | ⟨-, hq⟩
    · cases hplain
    · exact h.behind u op' a acc hq
  · intro u op' a acc hq
    rcases hold u _ hq with ⟨-, rfl⟩ | ⟨-, hq⟩
    · cases hplain
    · exact h.held u op' a acc hq

end Preservation

theorem LaneInv.init (cap : RingCap) (slots : U32 → β) :
    LaneInv cap (Ring.init slots) (RingGhost.init : RingGhost T ω β) fun _ => none where
  ring := by
    have hsettled : (Ring.init slots).settled (RingGhost.init : RingGhost T ω β) = Ring.init slots := by
      simp only [Ring.settled, Ring.init, Ring.mk.injEq, and_true]
      funext o
      cases o <;> rfl
    rw [hsettled]
    exact RingInv.init cap slots
  taken _ hn := absurd hn (Nat.not_lt_zero _)
  mark _ _ _ h := by cases h
  single _ _ h := by cases h
  head o _ := by cases o <;> rfl
  behind _ _ _ _ h := by cases h
  held _ _ _ _ h := by cases h

end LibChan
