import LibChan.Chan.RingUse

/-!
# What a step adds to the histories of a channel

A ring access that reserves positions adds to the log or to the takers, and a hand-over between two
waiters adds to the accepted and to the handed-over elements. `Chan.pushes`, `Chan.pops` and
`Effect.meets` are these additions. What is added belongs to the call that takes the step or to the
waiter in its hands (`Sys.Acts.data`, `Sys.Acts.tags`).
-/

set_option autoImplicit false

namespace LibChan

/-! ## Additions -/

section Ring

variable {T ω β : Type}

/-- The elements a ring access puts into the log. -/
def RingPc.pushes (r : Ring β) (weak : Bool) : RingPc ω β → List (ω × β)
  | cas op h k => if weak = false ∧ (r.cur op.side).head = h then op.data.take k.toNat else []
  | _ => []

/-- The takers a ring access registers. -/
def RingPc.pops (r : Ring β) (weak : Bool) : RingPc ω β → List ω
  | cas op h k => if weak = false ∧ (r.cur op.side).head = h then op.tags.take k.toNat else []
  | _ => []

/-- The elements a cached ring access puts into the log. -/
def SpscPc.pushes : SpscPc ω β → List (ω × β)
  | storeTail op _ _ => op.data.take 1
  | _ => []

/-- The takers a cached ring access registers. -/
def SpscPc.pops : SpscPc ω β → List ω
  | storeTail op _ _ => op.tags.take 1
  | _ => []

theorem RingOp.tags_eq_nil {op : RingOp ω β} (h : op.side = .send) : op.tags = [] := by
  cases op <;> first | rfl | cases h

theorem RingOp.data_eq_nil {op : RingOp ω β} (h : op.side = .recv) : op.data = [] := by
  cases op <;> first | rfl | cases h

theorem RingPc.grants_eq (r : Ring β) (weak : Bool) (p : RingPc ω β) :
    p.grants r weak = (p.pushes r weak).map Prod.fst ++ p.pops r weak := by
  cases p with
  | cas op h k =>
    simp only [grants, pushes, pops]
    split
    · exact op.take_wids k.toNat
    · rfl
  | _ => rfl

theorem SpscPc.grants_eq (p : SpscPc ω β) : p.grants = p.pushes.map Prod.fst ++ p.pops := by
  cases p with
  | storeTail op h acc => exact op.take_wids 1
  | _ => rfl

variable [DecidableEq T]

theorem RingGhost.log_reserve (g : RingGhost T ω β) (t : T) (op : RingOp ω β) (k : Nat) :
    (g.reserve t op k).log = g.log ++ op.data.take k := by
  rw [reserve]
  split
  · rfl
  · next hside => rw [RingOp.data_eq_nil hside, List.take_nil, List.append_nil]

theorem RingGhost.takers_reserve (g : RingGhost T ω β) (t : T) (op : RingOp ω β) (k : Nat) :
    (g.reserve t op k).takers = g.takers ++ op.tags.take k := by
  rw [reserve]
  split
  · next hside => rw [RingOp.tags_eq_nil hside, List.take_nil, List.append_nil]
  · rfl

theorem RingGhost.log_step (g : RingGhost T ω β) (cap : RingCap) (r : Ring β) (t : T) (weak : Bool)
    (p : RingPc ω β) : (g.step cap r t weak p).log = g.log ++ p.pushes r weak := by
  cases p with
  | cas op h k =>
    simp only [step, RingPc.pushes]
    split
    · exact g.log_reserve t op k.toNat
    · exact (List.append_nil _).symm
  | copy op h k i acc =>
    rw [step]
    split <;> exact (List.append_nil _).symm
  | _ => exact (List.append_nil _).symm

theorem RingGhost.takers_step (g : RingGhost T ω β) (cap : RingCap) (r : Ring β) (t : T)
    (weak : Bool) (p : RingPc ω β) :
    (g.step cap r t weak p).takers = g.takers ++ p.pops r weak := by
  cases p with
  | cas op h k =>
    simp only [step, RingPc.pops]
    split
    · exact g.takers_reserve t op k.toNat
    · exact (List.append_nil _).symm
  | copy op h k i acc =>
    rw [step]
    split <;> exact (List.append_nil _).symm
  | _ => exact (List.append_nil _).symm

theorem RingGhost.log_spscStep (g : RingGhost T ω β) (cap : RingCap) (r : Ring β) (t : T)
    (p : SpscPc ω β) : (g.spscStep cap r t p).log = g.log ++ p.pushes := by
  cases p with
  | storeTail op h acc => exact g.log_reserve t op 1
  | copy op h =>
    rw [spscStep]
    split <;> exact (List.append_nil _).symm
  | _ => exact (List.append_nil _).symm

theorem RingGhost.takers_spscStep (g : RingGhost T ω β) (cap : RingCap) (r : Ring β) (t : T)
    (p : SpscPc ω β) : (g.spscStep cap r t p).takers = g.takers ++ p.pops := by
  cases p with
  | storeTail op h acc => exact g.takers_reserve t op 1
  | copy op h =>
    rw [spscStep]
    split <;> exact (List.append_nil _).symm
  | _ => exact (List.append_nil _).symm

end Ring

section Chan

variable {T C α : Type}

/-- The elements a step puts into the ring. -/
def Chan.pushes (ch : Chan T α) : Effect α → List (Wid × α)
  | .ring weak p => p.pushes ch.ring weak
  | .spsc p => p.pushes
  | _ => []

/-- The takers a step registers with the ring. -/
def Chan.pops (ch : Chan T α) : Effect α → List Wid
  | .ring weak p => p.pops ch.ring weak
  | .spsc p => p.pops
  | _ => []

/-- The hand-over of a step: the sender, the receiver and the element. -/
def Effect.meets : Effect α → List (Wid × Wid × α)
  | .pair a b _ x => [(a, b, x)]
  | _ => []

/-- Everything a step accepts. -/
def Chan.sends (ch : Chan T α) (e : Effect α) : List (Wid × α) :=
  ch.pushes e ++ e.meets.map fun x => (x.1, x.2.2)

/-- Everything a step hands over: the new takers get what is logged at their positions. -/
def Chan.recvs (ch : Chan T α) (e : Effect α) : List (Wid × α) :=
  (((ch.pops e).zip ((ch.hist.log ++ ch.pushes e).drop ch.hist.takers.length)).map
    fun x => (x.1, x.2.2)) ++ e.meets.map fun x => (x.2.1, x.2.2)

theorem map_fst_zip_sublist {β γ : Type} (l : List β) (l' : List γ) :
    ((l.zip l').map Prod.fst).Sublist l := by
  induction l generalizing l' with
  | nil => exact List.Sublist.refl _
  | cons a l ih =>
    cases l' with
    | nil => exact List.nil_sublist _
    | cons b l' => exact (ih l').cons_cons a

/-- Whom a step hands something over to. -/
theorem Chan.recvs_sublist (ch : Chan T α) (e : Effect α) :
    ((ch.recvs e).map Prod.fst).Sublist (ch.pops e ++ e.meets.map fun x => x.2.1) := by
  rw [recvs, List.map_append, List.map_map, List.map_map]
  exact (map_fst_zip_sublist _ _).append (List.Sublist.refl _)

@[simp] theorem Chan.sends_ring (ch : Chan T α) (weak : Bool) (p : RingPc Wid α) :
    ch.sends (.ring weak p) = p.pushes ch.ring weak := List.append_nil _

@[simp] theorem Chan.sends_spsc (ch : Chan T α) (p : SpscPc Wid α) : ch.sends (.spsc p) = p.pushes :=
  List.append_nil _

theorem Chan.mem_grants {ch : Chan T α} {e : Effect α} {w : Wid} : w ∈ ch.grants e ↔
    w ∈ (ch.sends e).map Prod.fst ∨ w ∈ ch.pops e ∨ w ∈ e.meets.map fun x => x.2.1 := by
  cases e with
  | ring weak p =>
    simp only [grants, RingPc.grants_eq, sends, pushes, pops, Effect.meets, List.map_nil,
      List.append_nil, List.mem_append, List.not_mem_nil, or_false]
  | spsc p =>
    simp only [grants, SpscPc.grants_eq, sends, pushes, pops, Effect.meets, List.map_nil,
      List.append_nil, List.mem_append, List.not_mem_nil, or_false]
  | pair a b v x =>
    simp only [grants, sends, pushes, pops, Effect.meets, List.map_cons, List.map_nil,
      List.nil_append, List.mem_cons, List.not_mem_nil, or_false, false_or]
  | _ => exact ⟨fun h => absurd h List.not_mem_nil, by rintro (h | h | h) <;> cases h⟩

variable [DecidableEq T] (ch : Chan T α) (cap : RingCap) (t : T) (e : Effect α)

theorem Chan.log_apply : (ch.apply cap t e).hist.log = ch.hist.log ++ ch.pushes e := by
  cases e with
  | ring weak p => exact ch.hist.log_step cap ch.ring t weak p
  | spsc p => exact ch.hist.log_spscStep cap ch.ring t p
  | _ => exact (List.append_nil _).symm

theorem Chan.takers_apply : (ch.apply cap t e).hist.takers = ch.hist.takers ++ ch.pops e := by
  cases e with
  | ring weak p => exact ch.hist.takers_step cap ch.ring t weak p
  | spsc p => exact ch.hist.takers_spscStep cap ch.ring t p
  | _ => exact (List.append_nil _).symm

theorem Chan.sent_apply : (ch.apply cap t e).sent = ch.sent ++ ch.sends e := by
  cases e with
  | ring weak p =>
    rw [apply, ringStep, newSent, RingGhost.log_step, List.drop_left]
    exact congrArg _ (List.append_nil _).symm
  | spsc p =>
    rw [apply, spscStep, newSent, RingGhost.log_spscStep, List.drop_left]
    exact congrArg _ (List.append_nil _).symm
  | pair a b v x => rfl
  | _ => exact (List.append_nil _).symm

theorem Chan.recvd_apply : (ch.apply cap t e).recvd = ch.recvd ++ ch.recvs e := by
  rw [recvs, ← List.append_assoc]
  cases e with
  | ring weak p =>
    rw [apply, ringStep, newRecvd, RingGhost.log_step, RingGhost.takers_step, List.drop_left]
    exact (List.append_nil _).symm
  | spsc p =>
    rw [apply, spscStep, newRecvd, RingGhost.log_spscStep, RingGhost.takers_spscStep, List.drop_left]
    exact (List.append_nil _).symm
  | pair a b v x =>
    simp only [apply, pops, Effect.meets, List.zip_nil_left, List.map_nil, List.append_nil,
      List.map_cons]
  | _ =>
    simp only [pops, Effect.meets, List.zip_nil_left, List.map_nil, List.append_nil]
    rfl

end Chan

/-! ## Whose elements they are -/

section Whose

variable {T C α ω β : Type} {K : Config T C} {m : Mem T C α} {id : Nat} {c : C} {op : Op α}
  {alt : Bool} {w : Wid} {x : α}

/-- The element a direct call offers under index `i`. -/
def Op.offers (i : Nat) : Op α → Option α
  | send x _ => if i = 0 then some x else none
  | sendBurst xs => xs[i]?
  | _ => none

/-- A direct call has room for an element under index `i`. -/
def Op.accepts (i : Nat) : Op α → Bool
  | recv _ => decide (i = 0)
  | recvBurst n => decide (i < n)
  | _ => false

theorem RingPc.mem_data_of_pushes {r : Ring β} {weak : Bool} {p : RingPc ω β} {y : ω × β}
    (h : y ∈ p.pushes r weak) : y ∈ p.op.data := by
  cases p with
  | cas op a k =>
    rw [pushes] at h
    split at h
    · exact List.mem_of_mem_take h
    · cases h
  | _ => cases h

theorem RingPc.mem_tags_of_pops {r : Ring β} {weak : Bool} {p : RingPc ω β} {v : ω}
    (h : v ∈ p.pops r weak) : v ∈ p.op.tags := by
  cases p with
  | cas op a k =>
    rw [pops] at h
    split at h
    · exact List.mem_of_mem_take h
    · cases h
  | _ => cases h

theorem SpscPc.mem_data_of_pushes {p : SpscPc ω β} {y : ω × β} (h : y ∈ p.pushes) :
    y ∈ p.op.data := by
  cases p with
  | storeTail op a acc => exact List.mem_of_mem_take h
  | _ => cases h

theorem SpscPc.mem_tags_of_pops {p : SpscPc ω β} {v : ω} (h : v ∈ p.pops) : v ∈ p.op.tags := by
  cases p with
  | storeTail op a acc => exact List.mem_of_mem_take h
  | _ => cases h

/-- The elements a step can put into the channel. -/
def Effect.data : Effect α → List (Wid × α)
  | .ring _ p => p.op.data
  | .spsc p => p.op.data
  | .pair a _ _ x => [(a, x)]
  | _ => []

/-- The waiters a step can take an element for. -/
def Effect.tags : Effect α → List Wid
  | .ring _ p => p.op.tags
  | .spsc p => p.op.tags
  | .pair _ b _ _ => [b]
  | _ => []

theorem Chan.sends_subset (ch : Chan T α) (e : Effect α) : ch.sends e ⊆ e.data := by
  intro y hy
  cases e with
  | ring weak p =>
    rw [sends_ring] at hy
    exact RingPc.mem_data_of_pushes hy
  | spsc p =>
    rw [sends_spsc] at hy
    exact SpscPc.mem_data_of_pushes hy
  | pair a b v x => exact hy
  | _ => cases hy

theorem Chan.pops_subset (ch : Chan T α) (e : Effect α) : ch.pops e ⊆ e.tags := by
  intro v hv
  cases e with
  | ring weak p => exact RingPc.mem_tags_of_pops hv
  | spsc p => exact SpscPc.mem_tags_of_pops hv
  | _ => cases hv

theorem Effect.meets_subset (e : Effect α) : (e.meets.map fun x => x.2.1) ⊆ e.tags := by
  intro v hv
  cases e with
  | pair a b u x => exact hv
  | _ => cases hv

theorem Op.offers_of_ringOp (h : (w, x) ∈ (op.ringOp id).data) :
    w.call = id ∧ op.offers w.idx = some x := by
  cases op with
  | send y time =>
    cases List.mem_singleton.1 h
    exact ⟨rfl, rfl⟩
  | _ => cases h

theorem Op.offers_of_burstOp (h : (w, x) ∈ (op.burstOp id).data) :
    w.call = id ∧ op.offers w.idx = some x := by
  cases op with
  | sendBurst xs =>
    obtain ⟨⟨y, i⟩, he, heq⟩ := List.mem_map.1 h
    have hget : (xs.take (2 ^ 32 - 1))[i]? = some y := List.mk_mem_zipIdx_iff_getElem?.1 he
    rw [List.getElem?_take] at hget
    cases heq
    split at hget
    · exact ⟨rfl, hget⟩
    · cases hget
  | _ => cases h

theorem Op.accepts_of_ringOp (hop : op.single = true) (h : w ∈ (op.ringOp id).tags) :
    w.call = id ∧ op.accepts w.idx = true := by
  cases op with
  | recv time =>
    cases List.mem_singleton.1 h
    exact ⟨rfl, rfl⟩
  | send y time => cases h
  | _ => cases hop

theorem Op.accepts_of_burstOp (hop : op.burst = true) (h : w ∈ (op.burstOp id).tags) :
    w.call = id ∧ op.accepts w.idx = true := by
  cases op with
  | recvBurst n =>
    obtain ⟨i, hi, rfl⟩ := List.mem_map.1 h
    exact ⟨rfl, decide_eq_true (lt_of_lt_of_le (List.mem_range.1 hi) (Nat.min_le_left _ _))⟩
  | sendBurst xs => cases h
  | _ => cases hop

theorem RingOp.serves_data {v : ω} {o : ChanOp} {rop : RingOp ω β} {y : ω × β} (h : rop.Serves v o)
    (hy : y ∈ rop.data) : y.1 = v ∧ o = .send := by
  cases rop with
  | push u z =>
    obtain ⟨rfl, rfl⟩ := h
    cases List.mem_singleton.1 hy
    exact ⟨rfl, rfl⟩
  | pop u => cases hy
  | _ => exact h.elim

theorem RingOp.serves_tags {u v : ω} {o : ChanOp} {rop : RingOp ω β} (h : rop.Serves v o)
    (hu : u ∈ rop.tags) : u = v ∧ o = .recv := by
  cases rop with
  | pop u =>
    obtain ⟨rfl, rfl⟩ := h
    exact ⟨List.mem_singleton.1 hu, rfl⟩
  | push u z => cases hu
  | _ => exact h.elim

theorem Op.side_of_recv (hop : op.single = true) (h : op.isSend = false) : op.side = .recv := by
  cases op with
  | send y time => cases h
  | _ => first | rfl | cases hop

theorem Op.accepts_of_recv (hop : op.single = true) (h : op.isSend = false) :
    op.accepts 0 = true := by
  cases op with
  | recv time => rfl
  | send y time => cases h
  | _ => cases hop

/-- What a step of a direct call brings is offered by the call itself or by the sender in its hands. -/
theorem Pc.data_of_flow {pc pc' : Pc α} {e : Effect α} (hok : pc.Ok (K.chan c) id op)
    (hflow : Pc.Flow K m id c op alt pc e pc') (hx : (w, x) ∈ e.data) :
    w.call = id ∧ op.offers w.idx = some x ∨
      pc.hand c op = some (w, .claimed c .send) ∧
        ((∃ p, pc.ring? = some p ∧ (w, x) ∈ p.op.data) ∨ (m.waiter w).data = some x) := by
  -- a ring operation of the call on its own behalf
  have hown : ∀ {p : RingPc Wid α}, p.Runs (op.ringOp id) → (w, x) ∈ p.op.data →
      w.call = id ∧ op.offers w.idx = some x := by
    intro p hrun hmem
    rw [hrun.1] at hmem
    exact Op.offers_of_ringOp hmem
  cases pc with
  | fastRing spin p =>
    obtain rfl : e = .ring alt p := by cases hflow <;> rfl
    exact Or.inl (hown hok.2.2.2 hx)
  | slowRing p =>
    obtain rfl : e = .ring alt p := by cases hflow <;> rfl
    exact Or.inl (hown hok.2.2 hx)
  | recheck p =>
    obtain rfl : e = .ring alt p := by cases hflow <;> rfl
    exact Or.inl (hown hok.2.2 hx)
  | backRing p =>
    obtain rfl : e = .ring alt p := by cases hflow <;> rfl
    exact Or.inl (hown hok.2.2 hx)
  | burstRing p =>
    obtain rfl : e = .ring alt p := by cases hflow <;> rfl
    have hmem : (w, x) ∈ p.op.data := hx
    rw [hok.2.2.1] at hmem
    exact Or.inl (Op.offers_of_burstOp hmem)
  | fastSpsc spin p =>
    obtain rfl : e = .spsc p := by cases hflow <;> rfl
    have hmem : (w, x) ∈ p.op.data := hx
    rw [hok.2.2.2] at hmem
    exact Or.inl (Op.offers_of_ringOp hmem)
  | serve k st =>
    cases st with
    | ring v p =>
      obtain rfl : e = .ring alt p := by cases hflow <;> rfl
      obtain ⟨rfl, ho⟩ := RingOp.serves_data hok.2.2.1 hx
      exact Or.inr ⟨by rw [hand, ho], Or.inl ⟨p, rfl, hx⟩⟩
    | _ => cases hflow <;> cases hx
  | helpRing v p =>
    obtain rfl : e = .ring alt p := by cases hflow <;> rfl
    obtain ⟨rfl, -⟩ := RingOp.serves_data hok.2.2.2.1 hx
    exact Or.inr ⟨rfl, Or.inl ⟨p, rfl, hx⟩⟩
  | closeRing v p =>
    obtain rfl : e = .ring alt p := by cases hflow <;> rfl
    cases (RingOp.serves_data hok.2.2.1 hx).2
  | meetCopy v =>
    cases hflow with
    | meetSend hop =>
      cases List.mem_singleton.1 hx
      subst hop
      exact Or.inl ⟨rfl, rfl⟩
    | meetRecv hop hdata =>
      cases List.mem_singleton.1 hx
      refine Or.inr ⟨?_, Or.inr hdata⟩
      rw [hand, Op.side_of_recv hok hop]
      rfl
  | _ => cases hflow <;> cases hx

/-- A step of a direct call takes elements for the call itself or for the receiver in its hands. -/
theorem Pc.tags_of_flow {pc pc' : Pc α} {e : Effect α} (hok : pc.Ok (K.chan c) id op)
    (hflow : Pc.Flow K m id c op alt pc e pc') (hw : w ∈ e.tags) :
    w.call = id ∧ op.accepts w.idx = true ∨ pc.hand c op = some (w, .claimed c .recv) := by
  -- a ring operation of the call on its own behalf
  have hown : ∀ {p : RingPc Wid α}, op.single = true → p.Runs (op.ringOp id) → w ∈ p.op.tags →
      w.call = id ∧ op.accepts w.idx = true := by
    intro p hop hrun hmem
    rw [hrun.1] at hmem
    exact Op.accepts_of_ringOp hop hmem
  cases pc with
  | fastRing spin p =>
    obtain rfl : e = .ring alt p := by cases hflow <;> rfl
    exact Or.inl (hown hok.1 hok.2.2.2 hw)
  | slowRing p =>
    obtain rfl : e = .ring alt p := by cases hflow <;> rfl
    exact Or.inl (hown hok.1 hok.2.2 hw)
  | recheck p =>
    obtain rfl : e = .ring alt p := by cases hflow <;> rfl
    exact Or.inl (hown hok.1 hok.2.2 hw)
  | backRing p =>
    obtain rfl : e = .ring alt p := by cases hflow <;> rfl
    exact Or.inl (hown hok.1 hok.2.2 hw)
  | burstRing p =>
    obtain rfl : e = .ring alt p := by cases hflow <;> rfl
    have hmem : w ∈ p.op.tags := hw
    rw [hok.2.2.1] at hmem
    exact Or.inl (Op.accepts_of_burstOp hok.1 hmem)
  | fastSpsc spin p =>
    obtain rfl : e = .spsc p := by cases hflow <;> rfl
    have hmem : w ∈ p.op.tags := hw
    rw [hok.2.2.2] at hmem
    exact Or.inl (Op.accepts_of_ringOp hok.1 hmem)
  | serve k st =>
    cases st with
    | ring v p =>
      obtain rfl : e = .ring alt p := by cases hflow <;> rfl
      obtain ⟨rfl, ho⟩ := RingOp.serves_tags hok.2.2.1 hw
      exact Or.inr (by rw [hand, ho])
    | _ => cases hflow <;> cases hw
  | helpRing v p =>
    obtain rfl : e = .ring alt p := by cases hflow <;> rfl
    cases (RingOp.serves_tags hok.2.2.2.1 hw).2
  | closeRing v p =>
    obtain rfl : e = .ring alt p := by cases hflow <;> rfl
    obtain ⟨rfl, -⟩ := RingOp.serves_tags hok.2.2.1 hw
    exact Or.inr rfl
  | meetCopy v =>
    cases hflow with
    | meetSend hop =>
      cases List.mem_singleton.1 hw
      subst hop
      exact Or.inr rfl
    | meetRecv hop hdata =>
      cases List.mem_singleton.1 hw
      exact Or.inl ⟨rfl, Op.accepts_of_recv hok hop⟩
  | _ => cases hflow <;> cases hw

/-- The element a call offers to channel `c` under index `i`. -/
def Call.Offers (c : C) (i : Nat) (x : α) : Call C α → Prop
  | direct d op => d = c ∧ op.offers i = some x
  | select cases _ => ∃ k, cases[i]? = some k ∧ k.chan = c ∧ k.elem = some x

/-- A call has room for an element of channel `c` under index `i`. -/
def Call.Accepts (c : C) (i : Nat) : Call C α → Prop
  | direct d op => d = c ∧ op.accepts i = true
  | select cases _ => ∃ k, cases[i]? = some k ∧ k.chan = c ∧ k.elem = none

/-- The places of a select that move an element for case `i`. -/
def SelPc.Runs (cases : List (Case C α)) (i : Nat) : SelPc C α → Prop
  | fast2 start j (.ring _) => index2 cases start j = i
  | exec i' _ => i' = i
  | _ => False

theorem Case.elem_of_data {k : Case C α} {v : Wid} (h : (w, x) ∈ (k.ringOp v).data) :
    w = v ∧ k.elem = some x := by
  obtain ⟨d, elem⟩ := k
  cases elem with
  | none => cases h
  | some y =>
    cases List.mem_singleton.1 h
    exact ⟨rfl, rfl⟩

theorem Case.elem_of_tags {k : Case C α} {v : Wid} (h : w ∈ (k.ringOp v).tags) :
    w = v ∧ k.elem = none := by
  obtain ⟨d, elem⟩ := k
  cases elem with
  | none => exact ⟨List.mem_singleton.1 h, rfl⟩
  | some y => cases h

theorem Case.op_of_elem {k : Case C α} (h : k.elem = some x) : k.op = .send := by
  rw [Case.op, h]

theorem Case.op_of_none {k : Case C α} (h : k.elem = none) : k.op = .recv := by
  rw [Case.op, h]

section Select

variable [DecidableEq C] {t : T} {cases : List (Case C α)} {timeout : Int} {pc pc' : SelPc C α}
  {e : Effect α}

/-- What a step of a select brings is offered by its own case or by the sender in its hands. -/
theorem SelPc.data_of_flow (hok : pc.Ok K id cases)
    (hflow : SelPc.Flow K m t id cases timeout alt pc c e pc') (hx : (w, x) ∈ e.data) :
    w.call = id ∧ (Call.select cases timeout).Offers c w.idx x ∧ pc.Runs cases w.idx ∨
      pc.hand cases = some (w, .claimed c .send) ∧
        ((∃ p, pc.ring? cases = some (c, p) ∧ (w, x) ∈ p.op.data) ∨
          (m.waiter w).data = some x) := by
  -- an access of the lock-free attempt
  have hfast : ∀ {start j : Nat} {k : Case C α} {p : RingPc Wid α},
      (fast2 start j (.ring p)).Ok K id cases → cases[index2 cases start j]? = some k →
      (w, x) ∈ p.op.data → w.call = id ∧ (Call.select cases timeout).Offers k.chan w.idx x ∧
        (fast2 start j (.ring p)).Runs cases w.idx := by
    rintro start j k p ⟨k', hk', -, hruns⟩ hk hmem
    obtain rfl : k = k' := Option.some.inj (hk.symm.trans hk')
    rw [(hruns _ rfl).1] at hmem
    obtain ⟨rfl, helem⟩ := Case.elem_of_data hmem
    exact ⟨rfl, ⟨k, hk, rfl, helem⟩, rfl⟩
  cases hflow with
  | fast2In hk hp | fast2Hit hk hp | fast2Miss hk hp => exact Or.inl (hfast hok hk hx)
  | pick hk hmem he => rcases he with rfl | ⟨v, rfl⟩ <;> cases hx
  | @execGo i k st st' e hk hexec =>
    obtain ⟨k', hk', hok⟩ := hok
    obtain rfl : k = k' := Option.some.inj (hk.symm.trans hk')
    have hring : ∀ {p : RingPc Wid α}, p.Runs (k.ringOp ⟨id, i⟩) → (w, x) ∈ p.op.data →
        w.call = id ∧ (Call.select cases timeout).Offers k.chan w.idx x ∧ i = w.idx := by
      intro p hrun hmem
      rw [hrun.1] at hmem
      obtain ⟨rfl, helem⟩ := Case.elem_of_data hmem
      exact ⟨rfl, ⟨k, hk, rfl, helem⟩, rfl⟩
    have hhelp : ∀ {v : Wid} {p : RingPc Wid α}, k.op = .recv → p.Serves v .send →
        (w, x) ∈ p.op.data → (exec i (.helpRing v p)).hand cases = some (w, .claimed k.chan .send) ∧
          (∃ q, (exec i (.helpRing v p)).ring? cases = some (k.chan, q) ∧ (w, x) ∈ q.op.data) := by
      intro v p hop hserves hmem
      obtain ⟨rfl, -⟩ := RingOp.serves_data hserves.1 hmem
      refine ⟨?_, _, SelPc.ring_exec hk _, hmem⟩
      rw [SelPc.hand, hk, Option.bind_some, execHand, hop]
      rfl
    cases hexec with
    | ringIn hp => exact Or.inl (hring hok.2 hx)
    | ringOut hp => exact Or.inl (hring hok.2 hx)
    | helpIn hp =>
      obtain ⟨hhand, hq⟩ := hhelp hok.2.1 hok.2.2 hx
      exact Or.inr ⟨hhand, Or.inl hq⟩
    | helpOut hp =>
      obtain ⟨hhand, hq⟩ := hhelp hok.2.1 hok.2.2 hx
      exact Or.inr ⟨hhand, Or.inl hq⟩
    | copySend helem =>
      cases List.mem_singleton.1 hx
      exact Or.inl ⟨rfl, ⟨k, hk, rfl, helem⟩, rfl⟩
    | copyRecv helem hdata =>
      cases List.mem_singleton.1 hx
      refine Or.inr ⟨?_, Or.inr hdata⟩
      rw [SelPc.hand, hk, Option.bind_some, execHand, Case.op_of_none helem]
      rfl
    | _ => cases hx
  | execDone hk hexec => cases hexec <;> cases hx
  | _ => cases hx

/-- A step of a select takes elements for its own case or for the receiver in its hands. -/
theorem SelPc.tags_of_flow (hok : pc.Ok K id cases)
    (hflow : SelPc.Flow K m t id cases timeout alt pc c e pc') (hw : w ∈ e.tags) :
    w.call = id ∧ (Call.select cases timeout).Accepts c w.idx ∧ pc.Runs cases w.idx ∨
      pc.hand cases = some (w, .claimed c .recv) := by
  -- an access of the lock-free attempt
  have hfast : ∀ {start j : Nat} {k : Case C α} {p : RingPc Wid α},
      (fast2 start j (.ring p)).Ok K id cases → cases[index2 cases start j]? = some k →
      w ∈ p.op.tags → w.call = id ∧ (Call.select cases timeout).Accepts k.chan w.idx ∧
        (fast2 start j (.ring p)).Runs cases w.idx := by
    rintro start j k p ⟨k', hk', -, hruns⟩ hk hmem
    obtain rfl : k = k' := Option.some.inj (hk.symm.trans hk')
    rw [(hruns _ rfl).1] at hmem
    obtain ⟨rfl, helem⟩ := Case.elem_of_tags hmem
    exact ⟨rfl, ⟨k, hk, rfl, helem⟩, rfl⟩
  cases hflow with
  | fast2In hk hp | fast2Hit hk hp | fast2Miss hk hp => exact Or.inl (hfast hok hk hw)
  | pick hk hmem he => rcases he with rfl | ⟨v, rfl⟩ <;> cases hw
  | @execGo i k st st' e hk hexec =>
    obtain ⟨k', hk', hok⟩ := hok
    obtain rfl : k = k' := Option.some.inj (hk.symm.trans hk')
    have hring : ∀ {p : RingPc Wid α}, p.Runs (k.ringOp ⟨id, i⟩) → w ∈ p.op.tags →
        w.call = id ∧ (Call.select cases timeout).Accepts k.chan w.idx ∧ i = w.idx := by
      intro p hrun hmem
      rw [hrun.1] at hmem
      obtain ⟨rfl, helem⟩ := Case.elem_of_tags hmem
      exact ⟨rfl, ⟨k, hk, rfl, helem⟩, rfl⟩
    cases hexec with
    | ringIn hp => exact Or.inl (hring hok.2 hw)
    | ringOut hp => exact Or.inl (hring hok.2 hw)
    | helpIn hp => cases (RingOp.serves_tags hok.2.2.1 hw).2
    | helpOut hp => cases (RingOp.serves_tags hok.2.2.1 hw).2
    | copySend helem =>
      cases List.mem_singleton.1 hw
      refine Or.inr ?_
      rw [SelPc.hand, hk, Option.bind_some, execHand, Case.op_of_elem helem]
      rfl
    | copyRecv helem hdata =>
      cases List.mem_singleton.1 hw
      exact Or.inl ⟨rfl, ⟨k, hk, rfl, helem⟩, rfl⟩
    | _ => cases hw
  | execDone hk hexec => cases hexec <;> cases hw
  | _ => cases hw

end Select

section Acts

variable [DecidableEq C] {s : Sys T C α} {t : T} {e : Effect α} {th : Thread C α}

/-- What a step brings is offered by the call that takes it or by the sender in its hands. -/
theorem Sys.Acts.data (hacts : s.Acts K t alt c e th) (hok : (s.thread t).Ok K)
    (hx : (w, x) ∈ e.data) :
    (∃ k, (s.thread t).call? = some (w.call, k) ∧ k.Offers c w.idx x) ∨
      (s.thread t).hand = some (w, .claimed c .send) ∧
        ((∃ p, (s.thread t).ring? = some (c, p) ∧ (w, x) ∈ p.op.data) ∨
          (s.mem.waiter w).data = some x) := by
  cases hacts with
  | @direct id c op pc pc' e hth hact =>
    rw [hth] at hok ⊢
    rcases Pc.data_of_flow hok (Pc.flow_of_act hact) hx with ⟨hcall, hoff⟩ | ⟨hhand, hdata⟩
    · rw [hcall]
      exact Or.inl ⟨.direct c op, rfl, rfl, hoff⟩
    · refine Or.inr ⟨hhand, hdata.imp_left ?_⟩
      rintro ⟨p, hp, hmem⟩
      exact ⟨p, by rw [Thread.ring?, hp]; rfl, hmem⟩
  | @select id cases timeout pc pc' c d e hth hact =>
    rw [hth] at hok ⊢
    rcases SelPc.data_of_flow hok (SelPc.flow_of_act hact) hx with ⟨hcall, hoff, -⟩ | h
    · rw [hcall]
      exact Or.inl ⟨.select cases timeout, rfl, hoff⟩
    · exact Or.inr h

/-- A step takes elements for the call that takes it or for the receiver in its hands. -/
theorem Sys.Acts.tags (hacts : s.Acts K t alt c e th) (hok : (s.thread t).Ok K) (hw : w ∈ e.tags) :
    (∃ k, (s.thread t).call? = some (w.call, k) ∧ k.Accepts c w.idx) ∨
      (s.thread t).hand = some (w, .claimed c .recv) := by
  cases hacts with
  | @direct id c op pc pc' e hth hact =>
    rw [hth] at hok ⊢
    rcases Pc.tags_of_flow hok (Pc.flow_of_act hact) hw with ⟨hcall, hacc⟩ | hhand
    · rw [hcall]
      exact Or.inl ⟨.direct c op, rfl, rfl, hacc⟩
    · exact Or.inr hhand
  | @select id cases timeout pc pc' c d e hth hact =>
    rw [hth] at hok ⊢
    rcases SelPc.tags_of_flow hok (SelPc.flow_of_act hact) hw with ⟨hcall, hacc, -⟩ | hhand
    · rw [hcall]
      exact Or.inl ⟨.select cases timeout, rfl, hacc⟩
    · exact Or.inr hhand

end Acts

end Whose

end LibChan
