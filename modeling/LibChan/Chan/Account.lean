import LibChan.Chan.Places

/-!
# Who has moved an element

The bookkeeping of a channel names the waiters whose element has entered it or left it
(`Chan.Took`). A step adds names only for the call that takes it or for the waiter in its hands
(`Sys.Acts.grants`), and the places of a thread say which of its own elements (`Thread.got`) and
whether the one in its hands (`Thread.handGot`) may have been moved.
-/

set_option autoImplicit false

namespace LibChan

/-! ## Ring operations -/

section Ring

variable {ω β : Type} {cap : RingCap} {r : Ring β} {weak : Bool}

/-- The waiters of a ring operation. -/
def RingOp.wids (op : RingOp ω β) : List ω := op.data.map Prod.fst ++ op.tags

/-- The waiters whose positions are reserved at a place. -/
def RingPc.got : RingPc ω β → List ω
  | copy op _ k _ _ => op.wids.take k.toNat
  | wait op _ k _ => op.wids.take k.toNat
  | store op _ k _ => op.wids.take k.toNat
  | _ => []

/-- The waiters whose positions the next access reserves. -/
def RingPc.grants (r : Ring β) (weak : Bool) : RingPc ω β → List ω
  | cas op h k => if weak = false ∧ (r.cur op.side).head = h then op.wids.take k.toNat else []
  | _ => []

/-- The waiters whose positions are taken at a cached place. -/
def SpscPc.got : SpscPc ω β → List ω
  | storeHead op _ _ => op.wids.take 1
  | _ => []

/-- The waiters whose positions the next cached access takes. -/
def SpscPc.grants : SpscPc ω β → List ω
  | storeTail op _ _ => op.wids.take 1
  | _ => []

theorem RingPc.got_of_inl {p p' : RingPc ω β} (h : (r.step cap weak p).2 = .inl p') :
    p'.got = p.got ++ p.grants r weak := by
  cases p with
  | loadHead op =>
    cases h
    rfl
  | loadOpp op a =>
    simp only [Ring.step] at h
    split at h
    · cases h
    · cases h
      rfl
  | cas op a k =>
    simp only [Ring.step] at h
    split at h
    · next hwin =>
      cases h
      rw [grants, if_pos hwin]
      rfl
    · next hlose =>
      cases h
      rw [grants, if_neg hlose]
      rfl
  | copy op a k i acc =>
    simp only [Ring.step] at h
    split at h <;> cases h <;> exact (List.append_nil _).symm
  | wait op a k acc =>
    simp only [Ring.step] at h
    split at h <;> cases h <;> exact (List.append_nil _).symm
  | store op a k acc => cases h

theorem RingPc.got_of_inr {p : RingPc ω β} {res : RingRes β} (h : (r.step cap weak p).2 = .inr res) :
    p.grants r weak = [] ∧ p.got = p.op.wids.take res.moved := by
  cases p with
  | loadHead op => cases h
  | loadOpp op a =>
    simp only [Ring.step] at h
    split at h
    · cases h
      exact ⟨rfl, rfl⟩
    · cases h
  | cas op a k =>
    simp only [Ring.step] at h
    split at h <;> cases h
  | copy op a k i acc =>
    simp only [Ring.step] at h
    split at h <;> cases h
  | wait op a k acc =>
    simp only [Ring.step] at h
    split at h <;> cases h
  | store op a k acc =>
    cases h
    exact ⟨rfl, rfl⟩

theorem SpscPc.got_of_inl {p p' : SpscPc ω β} (h : (r.spscStep cap p).2 = .inl p') :
    p'.got = p.got ++ p.grants := by
  cases p with
  | loadHead op =>
    simp only [Ring.spscStep] at h
    split at h <;> cases h <;> rfl
  | refresh op a =>
    simp only [Ring.spscStep] at h
    split at h
    · cases h
    · cases h
      rfl
  | copy op a =>
    cases h
    rfl
  | storeTail op a acc =>
    cases h
    rfl
  | storeHead op a acc => cases h

theorem SpscPc.got_of_inr {p : SpscPc ω β} {res : RingRes β} (h : (r.spscStep cap p).2 = .inr res) :
    p.grants = [] ∧ p.got = p.op.wids.take res.moved := by
  cases p with
  | loadHead op =>
    simp only [Ring.spscStep] at h
    split at h <;> cases h
  | refresh op a =>
    simp only [Ring.spscStep] at h
    split at h
    · cases h
      exact ⟨rfl, rfl⟩
    · cases h
  | copy op a => cases h
  | storeTail op a acc => cases h
  | storeHead op a acc =>
    cases h
    exact ⟨rfl, rfl⟩

theorem RingOp.take_wids (op : RingOp ω β) (k : Nat) :
    op.wids.take k = (op.data.take k).map Prod.fst ++ op.tags.take k := by
  cases op <;> simp [RingOp.wids, RingOp.data, RingOp.tags]

theorem RingOp.wids_of_serves {w : ω} {o : ChanOp} {op : RingOp ω β} (h : op.Serves w o) :
    op.wids = [w] := by
  cases op with
  | push v x =>
    obtain ⟨-, rfl⟩ := h
    rfl
  | pop v =>
    obtain ⟨-, rfl⟩ := h
    rfl
  | _ => exact h.elim

theorem RingPc.mem_wids_of_got {p : RingPc ω β} {w : ω} (h : w ∈ p.got) : w ∈ p.op.wids := by
  cases p with
  | copy op a k i acc | wait op a k acc | store op a k acc => exact List.mem_of_mem_take h
  | _ => cases h

theorem RingPc.mem_wids_of_grants {p : RingPc ω β} {w : ω} (h : w ∈ p.grants r weak) :
    w ∈ p.op.wids := by
  cases p with
  | cas op a k =>
    rw [grants] at h
    split at h
    · exact List.mem_of_mem_take h
    · cases h
  | _ => cases h

theorem SpscPc.mem_wids_of_got {p : SpscPc ω β} {w : ω} (h : w ∈ p.got) : w ∈ p.op.wids := by
  cases p with
  | storeHead op a acc => exact List.mem_of_mem_take h
  | _ => cases h

theorem SpscPc.mem_wids_of_grants {p : SpscPc ω β} {w : ω} (h : w ∈ p.grants) : w ∈ p.op.wids := by
  cases p with
  | storeTail op a acc => exact List.mem_of_mem_take h
  | _ => cases h

end Ring

/-! ## Channels -/

section Chan

variable {T C α : Type} [DecidableEq T]

/-- The element of waiter `w` has entered the channel, or an element has left it for `w`. -/
def Chan.Took (ch : Chan T α) (w : Wid) : Prop :=
  w ∈ ch.sent.map Prod.fst ∨ w ∈ ch.hist.takers ∨ w ∈ ch.recvd.map Prod.fst

/-- The waiters a step moves an element for. -/
def Chan.grants (ch : Chan T α) : Effect α → List Wid
  | .ring weak p => p.grants ch.ring weak
  | .spsc p => p.grants
  | .pair a b _ _ => [a, b]
  | _ => []

omit [DecidableEq T] in
theorem newSent_of_eq {g g' : RingGhost T Wid α} (h : g'.log = g.log) : newSent g g' = [] := by
  rw [newSent, h, List.drop_length]

omit [DecidableEq T] in
theorem newRecvd_of_eq {g g' : RingGhost T Wid α} (h : g'.takers = g.takers) :
    newRecvd g g' = [] := by
  rw [newRecvd, h, List.drop_length]
  rfl

omit [DecidableEq T] in
theorem mem_takers_of_newRecvd {g g' : RingGhost T Wid α} {w : Wid}
    (h : w ∈ (newRecvd g g').map Prod.fst) : w ∈ g'.takers := by
  obtain ⟨e, he, rfl⟩ := List.mem_map.1 h
  obtain ⟨x, hx, rfl⟩ := List.mem_map.1 he
  exact List.mem_of_mem_drop (List.of_mem_zip hx).1

/-- A history that has grown by one reservation. -/
theorem Chan.took_of_reserve (ch : Chan T α) (t : T) (op : RingOp Wid α) (k : Nat)
    (g' : RingGhost T Wid α) (ring' : Ring α) (hlog : g'.log = (ch.hist.reserve t op k).log)
    (htakers : g'.takers = (ch.hist.reserve t op k).takers) (w : Wid) :
    Chan.Took { ch with ring := ring', hist := g', sent := ch.sent ++ newSent ch.hist g',
                        recvd := ch.recvd ++ newRecvd ch.hist g' } w ↔
      ch.Took w ∨ w ∈ op.wids.take k := by
  rw [RingOp.take_wids, List.mem_append]
  simp only [Took, List.map_append, List.mem_append]
  cases hside : op.side with
  | send =>
    have hlog' : g'.log = ch.hist.log ++ op.data.take k := by
      rw [hlog, RingGhost.reserve, hside]
    have htakers' : g'.takers = ch.hist.takers := by
      rw [htakers, RingGhost.reserve, hside]
    have htags : op.tags = [] := by
      cases op <;> first | rfl | cases hside
    rw [newRecvd_of_eq htakers', newSent, hlog', List.drop_left, htakers', htags]
    simp only [List.take_nil, List.map_nil, List.not_mem_nil, or_false]
    exact or_right_comm
  | recv =>
    have hlog' : g'.log = ch.hist.log := by
      rw [hlog, RingGhost.reserve, hside]
    have htakers' : g'.takers = ch.hist.takers ++ op.tags.take k := by
      rw [htakers, RingGhost.reserve, hside]
    have hdata : op.data = [] := by
      cases op <;> first | rfl | cases hside
    rw [newSent_of_eq hlog', htakers', hdata]
    simp only [List.take_nil, List.map_nil, List.not_mem_nil, or_false, false_or, List.mem_append]
    constructor
    · rintro (h | (h | h) | h | h)
      · exact Or.inl (Or.inl h)
      · exact Or.inl (Or.inr (Or.inl h))
      · exact Or.inr h
      · exact Or.inl (Or.inr (Or.inr h))
      · have hmem := mem_takers_of_newRecvd h
        rw [htakers', List.mem_append] at hmem
        exact hmem.elim (fun h => Or.inl (Or.inr (Or.inl h))) Or.inr
    · rintro ((h | h | h) | h)
      · exact Or.inl h
      · exact Or.inr (Or.inl (Or.inl h))
      · exact Or.inr (Or.inr (Or.inl h))
      · exact Or.inr (Or.inl (Or.inr h))

omit [DecidableEq T] in
/-- A history whose log and takers are the old ones. -/
theorem Chan.took_of_eq (ch : Chan T α) (g' : RingGhost T Wid α) (ring' : Ring α)
    (hlog : g'.log = ch.hist.log) (htakers : g'.takers = ch.hist.takers) (w : Wid) :
    Chan.Took { ch with ring := ring', hist := g', sent := ch.sent ++ newSent ch.hist g',
                        recvd := ch.recvd ++ newRecvd ch.hist g' } w ↔ ch.Took w := by
  simp only [Took, newSent_of_eq hlog, newRecvd_of_eq htakers, htakers, List.append_nil]

theorem Chan.took_ringStep (ch : Chan T α) (cap : RingCap) (t : T) (weak : Bool)
    (p : RingPc Wid α) (w : Wid) :
    (ch.ringStep cap t weak p).Took w ↔ ch.Took w ∨ w ∈ p.grants ch.ring weak := by
  cases p with
  | cas op a k =>
    rw [RingPc.grants]
    by_cases hwin : weak = false ∧ (ch.ring.cur op.side).head = a
    · have hstep : ch.hist.step cap ch.ring t weak (.cas op a k) = ch.hist.reserve t op k.toNat := by
        rw [RingGhost.step, if_pos hwin]
      rw [if_pos hwin, ringStep, hstep]
      exact ch.took_of_reserve t op k.toNat _ _ rfl rfl w
    · have hstep : ch.hist.step cap ch.ring t weak (.cas op a k) = ch.hist := by
        rw [RingGhost.step, if_neg hwin]
      rw [if_neg hwin, ringStep, hstep, List.mem_nil_iff, or_false]
      exact ch.took_of_eq _ _ rfl rfl w
  | copy op a k i acc =>
    refine (ch.took_of_eq _ _ ?_ ?_ w).trans (or_iff_left List.not_mem_nil).symm
    · rw [RingGhost.step]
      split <;> rfl
    · rw [RingGhost.step]
      split <;> rfl
  | loadHead op =>
    exact (ch.took_of_eq (ch.hist.setMark t (ch.hist.reserved op.side)) ch.ring rfl rfl w).trans
      (or_iff_left List.not_mem_nil).symm
  | loadOpp op a =>
    exact (ch.took_of_eq _ _ rfl rfl w).trans (or_iff_left List.not_mem_nil).symm
  | wait op a k acc =>
    exact (ch.took_of_eq _ _ rfl rfl w).trans (or_iff_left List.not_mem_nil).symm
  | store op a k acc =>
    exact (ch.took_of_eq (ch.hist.commit op.side k.toNat) (ch.ring.setTail op.side (a + k)) rfl rfl
      w).trans (or_iff_left List.not_mem_nil).symm

theorem Chan.took_spscStep (ch : Chan T α) (cap : RingCap) (t : T) (p : SpscPc Wid α) (w : Wid) :
    (ch.spscStep cap t p).Took w ↔ ch.Took w ∨ w ∈ p.grants := by
  cases p with
  | storeTail op a acc =>
    exact ch.took_of_reserve t op 1 ((ch.hist.reserve t op 1).commit op.side 1)
      (ch.ring.setTail op.side (a + 1)) rfl rfl w
  | copy op a =>
    refine (ch.took_of_eq _ _ ?_ ?_ w).trans (or_iff_left List.not_mem_nil).symm
    · rw [RingGhost.spscStep]
      split <;> rfl
    · rw [RingGhost.spscStep]
      split <;> rfl
  | loadHead op =>
    exact (ch.took_of_eq (ch.hist.setMark t (ch.hist.reserved op.side))
      (ch.ring.spscStep cap (.loadHead op)).1 rfl rfl w).trans (or_iff_left List.not_mem_nil).symm
  | refresh op a =>
    exact (ch.took_of_eq _ _ rfl rfl w).trans (or_iff_left List.not_mem_nil).symm
  | storeHead op a acc =>
    exact (ch.took_of_eq _ _ rfl rfl w).trans (or_iff_left List.not_mem_nil).symm

/-- A step moves elements for the waiters it grants and for no others. -/
theorem Chan.took_apply (ch : Chan T α) (cap : RingCap) (t : T) (e : Effect α) (w : Wid) :
    (ch.apply cap t e).Took w ↔ ch.Took w ∨ w ∈ ch.grants e := by
  cases e with
  | ring weak p => exact ch.took_ringStep cap t weak p w
  | spsc p => exact ch.took_spscStep cap t p w
  | pair a b v x =>
    simp only [apply, Took, grants, List.map_append, List.map_cons, List.map_nil, List.mem_append,
      List.mem_cons, List.not_mem_nil, or_false]
    constructor
    · rintro ((h | h) | h | h | h)
      · exact Or.inl (Or.inl h)
      · exact Or.inr (Or.inl h)
      · exact Or.inl (Or.inr (Or.inl h))
      · exact Or.inl (Or.inr (Or.inr h))
      · exact Or.inr (Or.inr h)
    · rintro ((h | h | h) | h | h)
      · exact Or.inl (Or.inl h)
      · exact Or.inr (Or.inl h)
      · exact Or.inr (Or.inr (Or.inl h))
      · exact Or.inl (Or.inr h)
      · exact Or.inr (Or.inr (Or.inr h))
  | _ => exact (or_iff_left (List.not_mem_nil)).symm

/-- An element has been moved for waiter `w` on some channel. -/
def Mem.Took (m : Mem T C α) (w : Wid) : Prop := ∃ c, (m.chan c).Took w

theorem Mem.took_apply [DecidableEq C] (K : Config T C) (m : Mem T C α) (t : T) (c : C)
    (e : Effect α) (w : Wid) :
    (m.apply K t c e).Took w ↔ m.Took w ∨ w ∈ (m.chan c).grants e := by
  constructor
  · rintro ⟨d, hd⟩
    by_cases hdc : d = c
    · subst hdc
      rw [Mem.chan_apply_self, Chan.took_apply] at hd
      exact hd.imp_left fun h => ⟨d, h⟩
    · rw [Mem.chan_apply_of_ne K m t c e hdc] at hd
      exact Or.inl ⟨d, hd⟩
  · rintro (⟨d, hd⟩ | hw)
    · refine ⟨d, ?_⟩
      by_cases hdc : d = c
      · subst hdc
        rw [Mem.chan_apply_self, Chan.took_apply]
        exact Or.inl hd
      · rwa [Mem.chan_apply_of_ne K m t c e hdc]
    · refine ⟨c, ?_⟩
      rw [Mem.chan_apply_self, Chan.took_apply]
      exact Or.inr hw

end Chan

/-! ## Threads -/

section Thread

variable {T C α : Type}

/-- The waiters of a call that returns `r`. -/
def Op.gotOf (id : Nat) (op : Op α) : Ret → List Wid
  | .err .ok => if op.single then [⟨id, 0⟩] else []
  | .count n => if op.burst then (op.burstOp id).wids.take n else []
  | _ => []

/-- The waiters of its own that a direct call has moved at a place, unless its waiter may be in the
hands of others. -/
def Pc.got (id : Nat) (op : Op α) : Pc α → List Wid
  | fastRing _ p | burstRing p | slowRing p | recheck p | backRing p => p.got
  | fastSpsc _ p => p.got
  | fastAfter r | serveLock r | serve (.leave r) _ | unlockRet r | ret r => op.gotOf id r
  | meetUnlock _ | wakeRet _ | helpClaim | helpRing _ _ | helpPutBack _ | helpSettle _ => [⟨id, 0⟩]
  | helpUnlock _ | unRemove | unDecr | backSettle .ok => [⟨id, 0⟩]
  | _ => []

/-- The waiter in hand, if its element may have been moved. -/
def Pc.handGot : Pc α → List Wid
  | serve _ (.ring _ p) => p.got
  | serve _ (.settle w) => [w]
  | helpRing _ p => p.got
  | helpSettle w => [w]
  | closeRing _ p => p.got
  | closeSettle _ w .ok => [w]
  | _ => []

/-- The stub of a select that returns `r`. -/
def SelPc.gotOf (id : Nat) : Ret → List Wid
  | .sel (some i) .ok => [⟨id, i⟩]
  | _ => []

/-- The waiter `w` of the case, if its element may have been moved. -/
def ExecPc.got (w : Wid) : ExecPc α → List Wid
  | ring p => p.got
  | helpClaim | helpRing _ _ | helpSettle _ | wake _ => [w]
  | _ => []

/-- The stubs of its own that a select may have moved an element for at a place, apart from what
others do for its registered stubs. -/
def SelPc.got (id : Nat) : SelPc C α → List Wid
  | fast2 _ _ (.ring p) => p.got
  | exec i st => st.got ⟨id, i⟩
  | unlockAll _ (.ret r) => gotOf id r
  | ret r => gotOf id r
  | _ => []

/-- The waiter in hand, if its element may have been moved. -/
def SelPc.handGot : SelPc C α → List Wid
  | exec _ (.helpRing _ p) => p.got
  | exec _ (.helpSettle w) => [w]
  | _ => []

/-- The waiters of its own call that a thread may have moved. -/
def Thread.got : Thread C α → List Wid
  | idle => []
  | direct id _ op pc => pc.got id op
  | select id _ _ pc => pc.got id

/-- The waiter in the hands of a thread, if its element may have been moved. -/
def Thread.handGot : Thread C α → List Wid
  | idle => []
  | direct _ _ _ pc => pc.handGot
  | select _ _ _ pc => pc.handGot

/-- What a step may grant: to its own call, which then has it, or to the waiter in hand, which is then
noted in hand or settled. -/
def Thread.Grants (c : C) (th th' : Thread C α) (w : Wid) : Prop :=
  th.id? = some w.call ∧ w ∈ th'.got ∨
    ∃ o, th.hand = some (w, .claimed c o) ∧
      (w ∈ th'.handGot ∨ th'.hand = some (w, .settled c o))

variable {K : Config T C} {m : Mem T C α} {id : Nat} {c : C} {op : Op α} {alt : Bool}
  {pc pc' : Pc α} {e : Effect α} {w : Wid}

theorem Op.call_of_ringOp (h : w ∈ (op.ringOp id).wids) : w.call = id := by
  cases op <;> · cases List.mem_singleton.1 h; rfl

theorem Op.call_of_burstOp (h : w ∈ (op.burstOp id).wids) : w.call = id := by
  cases op with
  | sendBurst xs =>
    simp only [RingOp.wids, Op.burstOp, RingOp.data, RingOp.tags, List.append_nil, List.map_map,
      List.mem_map] at h
    obtain ⟨x, -, rfl⟩ := h
    rfl
  | recvBurst n =>
    simp only [RingOp.wids, Op.burstOp, RingOp.data, RingOp.tags, List.map_nil, List.nil_append,
      List.mem_map] at h
    obtain ⟨x, -, rfl⟩ := h
    rfl
  | _ => cases h

theorem Case.call_of_ringOp {k : Case C α} {v : Wid} (h : w ∈ (k.ringOp v).wids) : w = v := by
  rw [Case.ringOp] at h
  split at h <;> exact List.mem_singleton.1 h

/-- The grant of a ring access that stays inside its operation. -/
theorem RingPc.mem_got_of_inl {p p' : RingPc Wid α} (hp : m.access K c alt p = .inl p')
    (h : w ∈ (m.chan c).grants (.ring alt p)) : w ∈ p'.got := by
  rw [RingPc.got_of_inl hp]
  exact List.mem_append_right _ h

theorem RingPc.not_grants_of_inr {p : RingPc Wid α} {res : RingRes α}
    (hp : m.access K c alt p = .inr res) (h : w ∈ (m.chan c).grants (.ring alt p)) : False := by
  rw [Chan.grants, (RingPc.got_of_inr hp).1] at h
  cases h

theorem SpscPc.mem_got_of_inl {p p' : SpscPc Wid α} (hp : m.spscAccess K c p = .inl p')
    (h : w ∈ (m.chan c).grants (.spsc p)) : w ∈ p'.got := by
  rw [SpscPc.got_of_inl hp]
  exact List.mem_append_right _ h

theorem SpscPc.not_grants_of_inr {p : SpscPc Wid α} {res : RingRes α}
    (hp : m.spscAccess K c p = .inr res) (h : w ∈ (m.chan c).grants (.spsc p)) : False := by
  rw [Chan.grants, (SpscPc.got_of_inr hp).1] at h
  cases h

/-- A ring access of the own call. -/
theorem RingPc.own_of_grants {p : RingPc Wid α} {rop : RingOp Wid α} (hrun : p.Runs rop)
    (hrop : ∀ v ∈ rop.wids, v.call = id) (h : w ∈ (m.chan c).grants (.ring alt p)) :
    w.call = id := by
  have hw := RingPc.mem_wids_of_grants h
  rw [hrun.1] at hw
  exact hrop w hw

/-- A ring access for the waiter in hand. -/
theorem RingPc.served_of_grants {p : RingPc Wid α} {v : Wid} {o : ChanOp} (hserves : p.Serves v o)
    (h : w ∈ (m.chan c).grants (.ring alt p)) : w = v := by
  have hw := RingPc.mem_wids_of_grants h
  rw [RingOp.wids_of_serves hserves.1] at hw
  exact List.mem_singleton.1 hw

/-- What a step of a direct call grants. -/
theorem Pc.grants_of_flow (hok : pc.Ok (K.chan c) id op) (hflow : Pc.Flow K m id c op alt pc e pc')
    (hw : w ∈ (m.chan c).grants e) :
    Thread.Grants c (.direct id c op pc) (.direct id c op pc') w := by
  have hself : w.call = id → (Thread.direct id c op pc).id? = some w.call := fun h => by
    rw [h]
    rfl
  cases hflow with
  | fastIn hp =>
    exact Or.inl ⟨hself (RingPc.own_of_grants hok.2.2.2 (fun _ => Op.call_of_ringOp) hw),
      RingPc.mem_got_of_inl hp hw⟩
  | spscIn hp =>
    refine Or.inl ⟨hself ?_, SpscPc.mem_got_of_inl hp hw⟩
    have hmem := SpscPc.mem_wids_of_grants hw
    rw [hok.2.2.2] at hmem
    exact Op.call_of_ringOp hmem
  | burstIn hp =>
    exact Or.inl ⟨hself (RingPc.own_of_grants hok.2.2 (fun _ => Op.call_of_burstOp) hw),
      RingPc.mem_got_of_inl hp hw⟩
  | slowIn hp =>
    exact Or.inl ⟨hself (RingPc.own_of_grants hok.2.2 (fun _ => Op.call_of_ringOp) hw),
      RingPc.mem_got_of_inl hp hw⟩
  | recheckIn hp =>
    exact Or.inl ⟨hself (RingPc.own_of_grants hok.2.2 (fun _ => Op.call_of_ringOp) hw),
      RingPc.mem_got_of_inl hp hw⟩
  | backIn hp =>
    exact Or.inl ⟨hself (RingPc.own_of_grants hok.2.2 (fun _ => Op.call_of_ringOp) hw),
      RingPc.mem_got_of_inl hp hw⟩
  | serveIn hp =>
    cases RingPc.served_of_grants hok.2.2 hw
    exact Or.inr ⟨_, rfl, Or.inl (RingPc.mem_got_of_inl hp hw)⟩
  | helpIn hp =>
    cases RingPc.served_of_grants hok.2.2.2 hw
    exact Or.inr ⟨_, rfl, Or.inl (RingPc.mem_got_of_inl hp hw)⟩
  | closeIn hp =>
    cases RingPc.served_of_grants hok.2.2 hw
    exact Or.inr ⟨_, rfl, Or.inl (RingPc.mem_got_of_inl hp hw)⟩
  | meetSend hop =>
    rcases List.mem_cons.1 hw with rfl | hw
    · exact Or.inl ⟨rfl, List.mem_singleton.2 rfl⟩
    · cases List.mem_singleton.1 hw
      exact Or.inr ⟨_, rfl, Or.inr rfl⟩
  | meetRecv hop hdata =>
    rcases List.mem_cons.1 hw with rfl | hw
    · exact Or.inr ⟨_, rfl, Or.inr rfl⟩
    · cases List.mem_singleton.1 hw
      exact Or.inl ⟨rfl, List.mem_singleton.2 rfl⟩
  | fastHit hp | fastMiss hp | fastMissSlow hp => exact (RingPc.not_grants_of_inr hp hw).elim
  | spscHit hp | spscMiss hp | spscMissSlow hp => exact (SpscPc.not_grants_of_inr hp hw).elim
  | burstHit hp | burstMiss hp | serveHit hp | serveMiss hp | slowSendHit hp | slowSendMiss hp
  | slowRecvHit hp | slowRecvMiss hp | helpHit hp | helpMiss hp | recheckHit hp | recheckMiss hp
  | backHit hp | backMissSend hp | backMissRecv hp | closeHit hp | closeMiss hp =>
    exact (RingPc.not_grants_of_inr hp hw).elim
  | _ => cases hw

/-- What is noted of the waiter in hand stays noted until it is settled with `CHAN_OK`. -/
theorem Pc.handGot_of_flow (hok : pc.Ok (K.chan c) id op)
    (hflow : Pc.Flow K m id c op alt pc e pc') (hw : w ∈ pc.handGot) :
    w ∈ pc'.handGot ∨ e = .settle w .ok := by
  -- a finished operation has moved the element of the waiter in hand, or nothing
  have hdone : ∀ {p : RingPc Wid α} {res : RingRes α} {v : Wid} {o : ChanOp},
      m.access K c alt p = .inr res → p.Serves v o → w ∈ p.got → w = v ∧ res.moved ≠ 0 := by
    intro p res v o hp hserves hgot
    have heq := (RingPc.got_of_inr hp).2
    refine ⟨?_, fun hz => ?_⟩
    · have hmem := RingPc.mem_wids_of_got hgot
      rw [RingOp.wids_of_serves hserves.1] at hmem
      exact List.mem_singleton.1 hmem
    · rw [heq, hz] at hgot
      cases hgot
  cases hflow with
  | serveIn hp =>
    refine Or.inl ?_
    rw [handGot, RingPc.got_of_inl hp]
    exact List.mem_append_left _ hw
  | serveHit hp hres =>
    rw [(hdone hp hok.2.2 hw).1]
    exact Or.inl (List.mem_singleton.2 rfl)
  | serveMiss hp hres => exact absurd hres (hdone hp hok.2.2 hw).2
  | serveSettle =>
    cases List.mem_singleton.1 hw
    exact Or.inr rfl
  | helpIn hp =>
    refine Or.inl ?_
    rw [handGot, RingPc.got_of_inl hp]
    exact List.mem_append_left _ hw
  | helpHit hp hres =>
    rw [(hdone hp hok.2.2.2 hw).1]
    exact Or.inl (List.mem_singleton.2 rfl)
  | helpMiss hp hres => exact absurd hres (hdone hp hok.2.2.2 hw).2
  | helpSettle =>
    cases List.mem_singleton.1 hw
    exact Or.inr rfl
  | closeIn hp =>
    refine Or.inl ?_
    rw [handGot, RingPc.got_of_inl hp]
    exact List.mem_append_left _ hw
  | closeHit hp hres =>
    rw [(hdone hp hok.2.2 hw).1]
    exact Or.inl (List.mem_singleton.2 rfl)
  | closeMiss hp hres => exact absurd hres (hdone hp hok.2.2 hw).2
  | @closeSettle o v r =>
    cases r with
    | ok =>
      cases List.mem_singleton.1 hw
      exact Or.inr rfl
    | _ => cases hw
  | _ => cases hw

end Thread

section Select

variable {T C α : Type} [DecidableEq C] {K : Config T C} {m : Mem T C α} {t : T} {id : Nat}
  {cases : List (Case C α)} {timeout : Int} {alt : Bool} {pc pc' : SelPc C α} {c : C}
  {e : Effect α} {w : Wid}

/-- What a step of a select grants. -/
theorem SelPc.grants_of_flow (hok : pc.Ok K id cases)
    (hflow : SelPc.Flow K m t id cases timeout alt pc c e pc') (hw : w ∈ (m.chan c).grants e) :
    Thread.Grants c (.select id cases timeout pc) (.select id cases timeout pc') w := by
  cases hflow with
  | fast2In hk hp =>
    obtain ⟨k, hk', -, hruns⟩ := hok
    refine Or.inl ⟨?_, RingPc.mem_got_of_inl hp hw⟩
    have hmem := RingPc.mem_wids_of_grants hw
    rw [(hruns _ rfl).1] at hmem
    rw [Case.call_of_ringOp hmem]
    rfl
  | fast2Hit hk hp => exact (RingPc.not_grants_of_inr hp hw).elim
  | fast2Miss hk hp => exact (RingPc.not_grants_of_inr hp hw).elim
  | pick hk hmem he =>
    rcases he with rfl | ⟨v, rfl⟩ <;> cases hw
  | @execGo i k st st' e hk hexec =>
    obtain ⟨k', hk', hok⟩ := hok
    obtain rfl : k = k' := Option.some.inj (hk.symm.trans hk')
    have hhand : ∀ st, (Thread.select id cases timeout (.exec i st)).hand = SelPc.execHand k st := by
      intro st
      rw [Thread.hand, SelPc.hand, hk]
      rfl
    cases hexec with
    | ringIn hp =>
      have hmem := RingPc.mem_wids_of_grants hw
      rw [hok.2.1] at hmem
      refine Or.inl ⟨?_, RingPc.mem_got_of_inl hp hw⟩
      rw [Case.call_of_ringOp hmem]
      rfl
    | ringOut hp => exact (RingPc.not_grants_of_inr hp hw).elim
    | helpIn hp =>
      cases RingPc.served_of_grants hok.2.2 hw
      exact Or.inr ⟨_, hhand _, Or.inl (RingPc.mem_got_of_inl hp hw)⟩
    | helpOut hp => exact (RingPc.not_grants_of_inr hp hw).elim
    | copySend hx =>
      rcases List.mem_cons.1 hw with rfl | hw
      · exact Or.inl ⟨rfl, List.mem_singleton.2 rfl⟩
      · cases List.mem_singleton.1 hw
        exact Or.inr ⟨_, hhand _, Or.inr (hhand _)⟩
    | copyRecv hx hdata =>
      rcases List.mem_cons.1 hw with rfl | hw
      · exact Or.inr ⟨_, hhand _, Or.inr (hhand _)⟩
      · cases List.mem_singleton.1 hw
        exact Or.inl ⟨rfl, List.mem_singleton.2 rfl⟩
    | _ => cases hw
  | execDone hk hexec => cases hexec <;> cases hw
  | _ => cases hw

/-- What is noted of the waiter in hand stays noted until it is settled with `CHAN_OK`. -/
theorem SelPc.handGot_of_flow (hok : pc.Ok K id cases)
    (hflow : SelPc.Flow K m t id cases timeout alt pc c e pc') (hw : w ∈ pc.handGot) :
    w ∈ pc'.handGot ∨ e = .settle w .ok := by
  cases hflow with
  | @execGo i k st st' e hk hexec =>
    obtain ⟨k', hk', hok⟩ := hok
    obtain rfl : k = k' := Option.some.inj (hk.symm.trans hk')
    cases hexec with
    | helpIn hp =>
      refine Or.inl ?_
      rw [handGot, RingPc.got_of_inl hp]
      exact List.mem_append_left _ hw
    | helpOut hp =>
      have hmem := RingPc.mem_wids_of_got hw
      rw [RingOp.wids_of_serves hok.2.2.1] at hmem
      exact Or.inl hmem
    | settle =>
      cases List.mem_singleton.1 hw
      exact Or.inr rfl
    | _ => cases hw
  | execDone hk hexec => cases hexec <;> cases hw
  | _ => cases hw

omit [DecidableEq C] in
/-- The only waiter of its own that a case moves is its stub. -/
theorem ExecPc.eq_of_got {k : Case C α} {v : Wid} {st : ExecPc α} {cfg : ChanCfg}
    (hok : st.Ok cfg k v) (hw : w ∈ st.got v) : w = v := by
  cases st with
  | ring p =>
    have hmem := RingPc.mem_wids_of_got hw
    rw [hok.2.1] at hmem
    exact Case.call_of_ringOp hmem
  | helpClaim | helpRing v p | helpSettle v | wake v => exact List.mem_singleton.1 hw
  | _ => cases hw

omit [DecidableEq C] in
theorem SelPc.eq_of_gotOf {i : Nat} {r : ChanErr} (hw : w ∈ gotOf id (.sel (some i) r)) :
    w = ⟨id, i⟩ := by
  cases r with
  | ok => exact List.mem_singleton.1 hw
  | _ => cases hw

omit [DecidableEq C] in
/-- What a case has moved stays noted while it is executed. -/
theorem ExecPc.got_mono {k : Case C α} {v : Wid} {st st' : ExecPc α} (hok : st.Ok (K.chan k.chan) k v)
    (hexec : SelPc.ExecFlow K m k v alt st e (.inl st')) (hw : w ∈ st.got v) : w ∈ st'.got v := by
  cases hexec with
  | ringIn hp =>
    rw [got, RingPc.got_of_inl hp]
    exact List.mem_append_left _ hw
  | ringOut hp =>
    rw [ExecPc.eq_of_got hok hw]
    exact List.mem_singleton.2 rfl
  | helpSend | helpRecv | helpDrop | helpIn | helpOut | settle => exact hw
  | _ => cases hw

end Select

section Acts

variable {T C α : Type} [DecidableEq C] {K : Config T C} {s : Sys T C α} {t : T} {alt : Bool}
  {c : C} {e : Effect α} {th : Thread C α} {w : Wid}

/-- A step moves elements for its own call or for the waiter in its hands. -/
theorem Sys.Acts.grants (hacts : s.Acts K t alt c e th) (hok : (s.thread t).Ok K)
    (hw : w ∈ (s.mem.chan c).grants e) : Thread.Grants c (s.thread t) th w := by
  cases hacts with
  | direct hth hact =>
    rw [hth] at hok ⊢
    exact Pc.grants_of_flow hok (Pc.flow_of_act hact) hw
  | select hth hact =>
    rw [hth] at hok ⊢
    exact SelPc.grants_of_flow hok (SelPc.flow_of_act hact) hw

theorem Sys.Acts.handGot (hacts : s.Acts K t alt c e th) (hok : (s.thread t).Ok K)
    (hw : w ∈ (s.thread t).handGot) : w ∈ th.handGot ∨ e = .settle w .ok := by
  cases hacts with
  | direct hth hact =>
    rw [hth] at hok hw
    exact Pc.handGot_of_flow hok (Pc.flow_of_act hact) hw
  | select hth hact =>
    rw [hth] at hok hw
    exact SelPc.handGot_of_flow hok (SelPc.flow_of_act hact) hw

end Acts

end LibChan
