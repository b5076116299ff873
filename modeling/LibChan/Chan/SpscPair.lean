import LibChan.Chan.SpscCache
import LibChan.Chan.SelectPair

/-!
# An SPSC channel is an exact FIFO

One thread sends on an SPSC channel, one receives from it, anybody may close it. The history tells which
elements the sends have reported as accepted (`Sys.sendsOk`) and what the receives have returned
(`Sys.recvsOk`). In every run in which no call sets up its waiters in a frame that somebody is still about
to signal, of any length and without an assumption on speeds, the second list is a prefix of the first, up
to the element of one send that is under way and can only return `CHAN_OK`; and a cached push writes only
to slots whose elements have been copied out (`spsc_exact_fifo`). A late signal makes a send return whose
waiter is still queued, and its element is lost (`spsc_element_lost`).

An element goes through the ring, or past it from a parked sender to a receiver that has found the ring
empty under the lock. That the ring is still empty then is the subject of `BareInv`; that the buffer of a
cached pop is filled before its position counts as taken is that of `EarlyInv`.
-/

set_option autoImplicit false

namespace LibChan

variable {T C α : Type}

/-! ## What the direct calls have returned -/

/-- The call with number `id`, if this is the event of its start. -/
def Event.call? (id : Nat) : Event T C α → Option (Call C α)
  | .call id' _ k => if id' = id then some k else none
  | .ret _ _ _ _ => none

/-- The call with number `id`. -/
def Sys.callOf (s : Sys T C α) (id : Nat) : Option (Call C α) := s.events.findSome? (Event.call? id)

/-- What a return with `CHAN_OK` of a direct call on `c` contributes: `f` is given the operation and the
output buffers. -/
def Event.directOks {β : Type} [DecidableEq C] (f : Op α → List (Option α) → List β) (c : C)
    (s : Sys T C α) : Event T C α → List β
  | .ret id _ r out =>
    match s.callOf id with
    | some (.direct d op) => if d = c ∧ r = .err .ok then f op out else []
    | _ => []
  | .call _ _ _ => []

/-- The contributions of the returns so far, in their order. -/
def Sys.directOks {β : Type} [DecidableEq C] (f : Op α → List (Option α) → List β) (c : C)
    (s : Sys T C α) : List β :=
  s.events.flatMap (Event.directOks f c s)

/-- The element of a single send. -/
def Op.sentElem : Op α → List (Option α) → List α
  | send x _, _ => [x]
  | _, _ => []

/-- What a single receive returns. -/
def Op.recvdElem : Op α → List (Option α) → List (Option α)
  | recv _, out => out
  | _, _ => []

/-- The elements of the sends on `c` that have returned `CHAN_OK`. -/
def Sys.sendsOk [DecidableEq C] (c : C) (s : Sys T C α) : List α := s.directOks Op.sentElem c

/-- What the receives on `c` that have returned `CHAN_OK` have in their buffers. -/
def Sys.recvsOk [DecidableEq C] (c : C) (s : Sys T C α) : List (Option α) := s.directOks Op.recvdElem c

section Oks

variable [DecidableEq T] [DecidableEq C] {K : Config T C} {s s' : Sys T C α} {t : T} {id : Nat} {β : Type}
  {f : Op α → List (Option α) → List β} {c d : C} {op : Op α} {r : Ret} {out : List (Option α)}

omit [DecidableEq T] [DecidableEq C] in
theorem Sys.callOf_eq (hist : HistInv s) {k : Call C α} (hcall : .call id t k ∈ s.events) :
    s.callOf id = some k := by
  have hself : Event.call? id (Event.call id t k) = some k := if_pos rfl
  cases hfind : s.callOf id with
  | none => cases (List.findSome?_eq_none_iff.1 hfind _ hcall).symm.trans hself
  | some k' =>
    obtain ⟨ev, hev, hk⟩ := List.exists_of_findSome?_eq_some hfind
    cases ev with
    | ret id' t' r out => cases hk
    | call id' t' k'' =>
      obtain ⟨rfl, heq⟩ := Option.ite_none_right_eq_some.1 hk
      obtain ⟨-, rfl⟩ := hist.call_inj _ _ _ _ _ hcall hev
      exact heq.symm

omit [DecidableEq T] in
theorem Event.directOks_ret (hist : HistInv s) (hcall : .call id t (.direct d op) ∈ s.events) :
    Event.directOks f c s (.ret id t r out) = if d = c ∧ r = .err .ok then f op out else [] := by
  rw [Event.directOks, Sys.callOf_eq hist hcall]

omit [DecidableEq T] in
/-- The contributions of the old returns stay when an event is added. -/
theorem Sys.directOks_append (hist : HistInv s) {ev : Event T C α}
    (hevents : s'.events = s.events ++ [ev]) (hnew : ∀ id < s.next, Event.call? id ev = none) :
    s'.directOks f c = s.directOks f c ++ Event.directOks f c s' ev := by
  have hcall : ∀ id < s.next, s'.callOf id = s.callOf id := by
    intro id hlt
    rw [Sys.callOf, hevents, List.findSome?_append, List.findSome?_cons, hnew id hlt]
    exact Option.or_none
  rw [Sys.directOks, hevents, List.flatMap_append, List.flatMap_singleton]
  refine congrArg (· ++ _) (List.flatMap_congr fun ev hev => ?_)
  cases ev with
  | call id' t' k => rfl
  | ret id' t' r out => simp only [Event.directOks, hcall id' (hist.ret_lt id' t' r out hev)]

theorem Sys.directOks_startCall (hist : HistInv s) (k : Call C α) :
    (s.startCall K t k).directOks f c = s.directOks f c := by
  have hnew : ∀ id < s.next, Event.call? id (Event.call s.next t k) = none :=
    fun id hlt => if_neg hlt.ne'
  exact (Sys.directOks_append hist rfl hnew).trans (List.append_nil _)

theorem Sys.directOks_finishCall (hist : HistInv s) :
    (s.finishCall t id r out).directOks f c = s.directOks f c ++
      Event.directOks f c (s.finishCall t id r out) (.ret id t r out) :=
  Sys.directOks_append hist rfl fun _ _ => rfl

end Oks

/-! ## The lock and a parked sender -/

/-- While a receiver is about to meet a sender, the ring is empty if the producer is parked. -/
def BareInv (c : C) (s : Sys T C α) : Prop :=
  ∀ t id op pc, s.thread t = .direct id c op pc → pc.meeting = true →
    op.isSend = false ∧ ∀ u v, (s.thread u).Waits c .send v → (s.mem.chan c).inRing = []

/-- A cached pop has filled the buffer of its call when it stores its tail. -/
def EarlyInv (c : C) (s : Sys T C α) : Prop :=
  ∀ t id op spin rop a acc, s.thread t = .direct id c op (.fastSpsc spin (.storeTail rop a acc)) →
    op.side = .recv → (s.mem.waiter ⟨id, 0⟩).data = acc[0]?

section Use

variable [DecidableEq T] [DecidableEq C] {K : Config T C} {s s' : Sys T C α} {l : Label T C α}
  {p q t u : T} {alt : Bool} {c d : C} {e : Effect α} {th : Thread C α} {id : Nat} {op : Op α}
  {pc pc' : Pc α} {x : LanePc Wid α} {v w : Wid} {o : ChanOp} {z : α}

omit [DecidableEq T] in
/-- Who is in a ring operation on the side of a parked call holds the lock. -/
theorem SpscUse.holds_of_lane (h : SpscUse c p q s) (hv : DirectValid K s)
    (hwaits : (s.thread u).Waits c x.op.side v) (hlane : (s.thread t).laneOn c = some x) :
    c ∈ (s.thread t).holds K := by
  obtain ⟨id, op, pc, hfor⟩ := h.laneFor hv hlane
  have hdirect := hv.direct u
  cases hu : s.thread u with
  | idle =>
    rw [hu] at hwaits
    exact hwaits.elim
  | select id' cases timeout pc' =>
    rw [hu] at hdirect
    cases hdirect
  | direct id' d op' pc' =>
    rw [hu] at hwaits
    obtain ⟨rfl, hside, -, hpc'⟩ := hwaits
    have hop' := Pc.single_of_waits (hv.toSound.direct_ok hu) hpc'
    have howner := (h.usedBy hv.toSound hu).owner hop'
    rw [← hside] at howner
    rcases hfor.place with ⟨ht, hl⟩ | ⟨hheld, -⟩
    · rw [howner] at hu
      cases hu.symm.trans hfor.thread
      rw [← ht]
      exact Sys.held_of_locked hfor.thread (Pc.locked_of_lane hpc' hl)
    · exact hheld

omit [DecidableEq T] in
/-- Nobody but the holder of the lock pushes while the producer is parked. -/
theorem SpscUse.holds_of_push (h : SpscUse c p q s) (hv : DirectValid K s)
    (hwaits : (s.thread u).Waits c .send v) (hacts : s.Acts K t alt c e th)
    (hpush : (s.mem.chan c).pushes e ≠ []) : c ∈ (s.thread t).holds K := by
  obtain ⟨id, op, pc, pc', hth, rfl, hflow⟩ := hv.direct.flow hacts
  have hlane : (s.thread t).laneOn c = pc.lane? := by rw [hth, Thread.laneOn_direct]
  have hside : ∀ {rop : RingOp Wid α}, (∃ y, y ∈ rop.data) → rop.side = .send := by
    rintro rop ⟨y, hy⟩
    cases hs : rop.side with
    | send => rfl
    | recv =>
      rw [RingOp.data_eq_nil hs] at hy
      cases hy
  obtain ⟨y, hy⟩ := List.exists_mem_of_ne_nil _ hpush
  cases Pc.laneStep_of_flow ((hv.toSound.direct_ok hth).flow hflow) hflow with
  | @shared r hr hr' =>
    refine h.holds_of_lane hv (x := .shared r) (u := u) (v := v) ?_ (hlane.trans hr)
    rwa [show (LanePc.shared r).op.side = .send from hside ⟨y, RingPc.mem_data_of_pushes hy⟩]
  | @cached r hr hr' =>
    refine h.holds_of_lane hv (x := .cached r) (u := u) (v := v) ?_ (hlane.trans hr)
    rwa [show (LanePc.cached r).op.side = .send from hside ⟨y, SpscPc.mem_data_of_pushes hy⟩]
  | start hr he hr' hplain hop hone =>
    cases e with
    | ring weak r => cases he
    | spsc r => cases he
    | _ => cases hy
  | away hr he hr' =>
    cases e with
    | ring weak r => cases he
    | spsc r => cases he
    | _ => cases hy

omit [DecidableEq T] in
theorem Sys.LaneSound.takers_le (h : s.LaneSound K c) :
    (s.mem.chan c).hist.takers.length ≤ (s.mem.chan c).hist.log.length :=
  h.ring.ordered.cons_le_prod.trans h.ring.ordered.prod_le

omit [DecidableEq T] in
/-- When the consumer finds the ring empty under the lock, a parked producer has no push under way. -/
theorem Sys.LaneSound.inRing_of_empty (h : s.LaneSound K c) (hv : DirectValid K s)
    (huse : SpscUse c p q s) (hlane : (s.thread t).laneOn c = some x) (hside : x.op.side = .recv)
    (hheld : c ∈ (s.thread t).holds K) (hwaits : (s.thread u).Waits c .send v)
    (hempty : (s.mem.chan c).hist.committed .send = (s.mem.chan c).hist.reserved .recv) :
    (s.mem.chan c).inRing = [] := by
  have hcommitted : (s.mem.chan c).hist.committed .send = (s.mem.chan c).hist.reserved .send := by
    refine RingInv.committed_eq h.ring fun u' r k hu hrun => ?_
    obtain ⟨y, hy, hplain⟩ := Option.bind_eq_some_iff.1 hu
    have hys : y.op.side = .send := by
      rw [← LanePc.op_of_plain hplain]
      exact RingPc.side_of_run hrun
    have hheld' := huse.holds_of_lane hv (u := u) (v := v) (hys.symm ▸ hwaits) hy
    obtain rfl := hv.locks.holds_inj hheld hheld'
    cases hlane.symm.trans hy
    cases hys.symm.trans hside
  exact List.drop_of_length_le (Nat.le_of_eq (hcommitted.symm.trans hempty))

theorem Chan.inRing_of_pushes {ch : Chan T α} {cap : RingCap}
    (hle : ch.hist.takers.length ≤ ch.hist.log.length) (hempty : ch.inRing = [])
    (hpush : ch.pushes e = []) : (ch.apply cap t e).inRing = [] := by
  rw [Chan.inRing_apply hle, hempty, hpush]
  exact List.drop_nil

/-- How a receiver comes to meet a sender. -/
theorem BareInv.own (h : BareInv c s) (hv : DirectValid K s) (huse : SpscUse c p q s)
    (hgood : s.LaneSound K c) (hcap : 0 < (K.chan c).capacity) (hth : s.thread t = .direct id c op pc)
    (hflow : Pc.Flow K s.mem id c op alt pc e pc') (hpc' : pc'.meeting = true) :
    op.isSend = false ∧ (s.mem.chan c).pushes e = [] ∧
      ∀ u v, (s.thread u).Waits c .send v → (s.mem.chan c).inRing = [] := by
  have hok := hv.toSound.direct_ok hth
  cases hflow with
  | slowMeet hfree hop hzero => exact absurd hzero hcap.ne'
  | slowOpenMeet hopen hzero => exact absurd hzero hcap.ne'
  | meetDrop hqueue hclaim => exact ⟨(h t id op _ hth rfl).1, rfl, (h t id op _ hth rfl).2⟩
  | meetClaim hqueue hclaim => exact ⟨(h t id op _ hth rfl).1, rfl, (h t id op _ hth rfl).2⟩
  | @slowRecvMiss r res hp hres hop =>
    have hlane : (s.thread t).laneOn c = some (.shared r) := by
      rw [hth, Thread.laneOn_direct]
      rfl
    have hside : r.op.side = .recv := by
      rw [hok.2.2.1, Op.side_ringOp hok.1, Op.side_of_recv hok.1 hop]
    refine ⟨hop, ?_, fun u v hwaits => ?_⟩
    · exact List.eq_nil_iff_forall_not_mem.2 fun y hy => RingPc.not_grants_of_inr hp
        (Chan.mem_grants.2 (Or.inl (List.mem_map_of_mem (List.mem_append_left _ hy))))
    · refine hgood.inRing_of_empty hv huse hlane hside (Sys.held_of_locked hth rfl) hwaits ?_
      exact LaneInv.empty_of_moved hgood hlane (huse.lane_alone hv hlane) hside hp hres
  | serveStopBlock hstop hblock | serveEmptyBlock hqueue hblock | servePutBackBlock hblock
  | meetEmptySend hqueue hop hblock | emptyOpen hopen hblock => cases hblock <;> cases hpc'
  | _ => cases hpc'

theorem BareInv.move (h : BareInv c s) (hv : DirectValid K s) (huse : SpscUse c p q s)
    (hgood : s.LaneSound K c) (hcap : 0 < (K.chan c).capacity)
    (hnext : (s.thread t).Next K s.mem d th e) (hacts : s.Acts K t alt d e th) :
    BareInv c (s.move K t d e th) := by
  intro u id op pc hth hpc
  -- the ring stays empty if nothing is pushed
  have hkeep : (d = c → (s.mem.chan c).pushes e = []) → (s.mem.chan c).inRing = [] →
      ((s.move K t d e th).mem.chan c).inRing = [] := by
    intro hpush hempty
    by_cases hd : c = d
    · subst hd
      rw [show (s.move K t c e th).mem.chan c = _ from Mem.chan_apply_self K s.mem t c e]
      exact Chan.inRing_of_pushes hgood.takers_le hempty (hpush rfl)
    · rwa [show (s.move K t d e th).mem.chan c = s.mem.chan c from
        Mem.chan_apply_of_ne K s.mem t d e hd]
  by_cases hu : u = t
  · subst hu
    obtain ⟨id', op', pc₁, pc₂, ht, rfl, hflow⟩ := hv.direct.flow hacts
    rw [Sys.thread_move_self] at hth
    cases hth
    obtain ⟨hop, hpush, hbare⟩ := h.own hv huse hgood hcap ht hflow hpc
    refine ⟨hop, fun u' v hwaits => hkeep (fun _ => hpush) (hbare u' v ?_)⟩
    have hne : u' ≠ u := by
      rintro rfl
      rw [Sys.thread_move_self] at hwaits
      cases (Pc.locked_of_meeting hpc).2.symm.trans hwaits.2.2.2
    rwa [Sys.thread_move_of_ne hne] at hwaits
  · rw [Sys.thread_move_of_ne hu] at hth
    obtain ⟨hop, hbare⟩ := h u id op pc hth hpc
    refine ⟨hop, fun u' v hwaits => ?_⟩
    have hheld : c ∈ (s.thread u).holds K := Sys.held_of_locked hth (Pc.locked_of_meeting hpc).1
    have hwaits' := hv.waits_before hnext hheld hu hwaits
    refine hkeep ?_ (hbare u' v hwaits')
    rintro rfl
    by_contra hpush
    exact hu (hv.locks.holds_inj hheld (huse.holds_of_push hv hwaits' hacts hpush))

theorem BareInv.step (h : BareInv c s) (hv : DirectValid K s) (huse : SpscUse c p q s)
    (hgood : s.LaneSound K c) (hcap : 0 < (K.chan c).capacity) (hstep : s.Stepped K l s') :
    BareInv c s' := by
  cases hstep with
  | @call t k hidle =>
    intro u id op pc hth hpc
    have hu : u ≠ t := by
      rintro rfl
      rw [Sys.thread_startCall_self] at hth
      cases k with
      | select cases timeout => cases hth
      | direct d op' =>
        have hbegins := Pc.begins_entry (K.chan d) s.next op'
        cases hth
        generalize Pc.entry (K.chan c) s.next op = pc at hpc hbegins
        cases hbegins <;> cases hpc
    rw [Sys.thread_startCall_of_ne hu] at hth
    refine ⟨(h u id op pc hth hpc).1, fun u' v hwaits => (h u id op pc hth hpc).2 u' v ?_⟩
    have hu' : u' ≠ t := by
      rintro rfl
      rw [Sys.thread_startCall_self] at hwaits
      exact (Sys.begun_startThread K s.next k).waits c .send v hwaits
    rwa [Sys.thread_startCall_of_ne hu'] at hwaits
  | @ret t alt id' r out hdone hret =>
    intro u id op pc hth hpc
    have hu : u ≠ t := by
      rintro rfl
      rw [Sys.thread_finishCall_self] at hth
      cases hth
    rw [Sys.thread_finishCall_of_ne hu] at hth
    refine ⟨(h u id op pc hth hpc).1, fun u' v hwaits => (h u id op pc hth hpc).2 u' v ?_⟩
    have hu' : u' ≠ t := by
      rintro rfl
      rw [Sys.thread_finishCall_self] at hwaits
      exact hwaits.elim
    rwa [Sys.thread_finishCall_of_ne hu'] at hwaits
  | move hnext hacts => exact h.move hv huse hgood hcap hnext hacts

omit [DecidableEq T] in
/-- Elements meet receivers past an empty ring only. -/
theorem BareInv.inRing_of_meet (h : BareInv c s) (hv : DirectValid K s)
    (hacts : s.Acts K t alt c e th) (hmeets : e.meets ≠ []) : (s.mem.chan c).inRing = [] := by
  obtain ⟨id, op, pc, pc', hth, rfl, hflow⟩ := hv.direct.flow hacts
  have hmeet : ∀ w, pc = .meetCopy w → (s.mem.chan c).inRing = [] := by
    rintro w rfl
    have hok := hv.toSound.direct_ok hth
    obtain ⟨hop, hbare⟩ := h t id op _ hth rfl
    have hhand : (s.thread t).hand = some (w, .claimed c .send) := by
      rw [hth]
      show some (w, Stage.claimed c op.side.other) = _
      rw [Op.side_of_recv hok hop]
      rfl
    obtain ⟨u, hwaits⟩ := (hv.queues.claimed t w c .send hhand).1
    exact hbare u w hwaits
  cases hflow with
  | meetSend hop => exact hmeet _ rfl
  | meetRecv hop hdata => exact hmeet _ rfl
  | _ => exact absurd rfl hmeets

/-! ## The buffer of a cached pop -/

omit [DecidableEq T] in
/-- Nobody writes to the buffer of a call that is in its cached operation. -/
theorem DirectValid.not_writes (hv : DirectValid K s) (hacts : s.Acts K t alt d e th)
    (hth : s.thread u = .direct id c op pc) (hpc : pc.waits = false) (hu : u ≠ t) (y : α) :
    e.writes (K.chan d).ringCap (s.mem.chan d) ≠ some (⟨id, 0⟩, y) := by
  intro hw
  rcases hacts.tags (hv.ok t) (Effect.mem_tags_of_writes hw) with ⟨k, hk, -⟩ | hhand
  · exact hu (hv.calls.id_inj u t id (by rw [hth]; rfl) (Thread.id_of_call hk))
  · have hwaits := (hv.toSound.waits_of_direct hth (hv.queues.claimed t _ d .recv hhand).1).2.2
    cases hpc.symm.trans hwaits

omit [DecidableEq T] [DecidableEq C] in
/-- The access before the tail store of a cached pop copies the element. -/
theorem Ring.copy_of_storeTail {cap : RingCap} {r : Ring α} {y : SpscPc Wid α} {rop : RingOp Wid α}
    {a : U32} {acc : List α} (h : (r.spscStep cap y).2 = .inl (.storeTail rop a acc))
    (hside : rop.side = .recv) : y = .copy rop a ∧ acc = [r.slots (rop.slot cap a 1 0)] := by
  cases y with
  | copy rop' a' =>
    cases h
    exact ⟨rfl, by simp only [hside, List.nil_append]⟩
  | loadHead rop' =>
    simp only [Ring.spscStep] at h
    split at h <;> cases h
  | refresh rop' a' =>
    simp only [Ring.spscStep] at h
    split at h <;> cases h
  | storeTail rop' a' acc' => cases h
  | storeHead rop' a' acc' => cases h

omit [DecidableEq T] [DecidableEq C] in
theorem Op.tags_ringOp (hop : op.single = true) (hside : op.side = .recv) :
    (op.ringOp id).tags = [⟨id, 0⟩] := by
  cases op with
  | send y time => cases hside
  | recv time => rfl
  | _ => cases hop

theorem EarlyInv.step (h : EarlyInv c s) (hv : DirectValid K s) (hstep : s.Stepped K l s') :
    EarlyInv c s' := by
  intro u id op spin rop a acc hth hside
  cases hstep with
  | @call t k hidle =>
    have hu : u ≠ t := by
      rintro rfl
      rw [Sys.thread_startCall_self] at hth
      cases k with
      | select cases timeout => cases hth
      | direct d op' =>
        have hbegins := Pc.begins_entry (K.chan d) s.next op'
        obtain ⟨-, -, -, hentry⟩ := Thread.direct.inj hth
        rw [hentry] at hbegins
        cases hbegins
    rw [Sys.thread_startCall_of_ne hu] at hth
    have hne : id ≠ s.next := Nat.ne_of_lt (hv.calls.id_lt u id (by rw [hth]; rfl))
    exact (congrArg Waiter.data (if_neg hne)).trans (h u id op spin rop a acc hth hside)
  | @ret t alt id' r out hdone hret =>
    have hu : u ≠ t := by
      rintro rfl
      rw [Sys.thread_finishCall_self] at hth
      cases hth
    rw [Sys.thread_finishCall_of_ne hu] at hth
    exact h u id op spin rop a acc hth hside
  | @move t alt d e th hnext hacts =>
    by_cases hu : u = t
    · subst hu
      obtain ⟨id', op', pc₁, pc₂, ht, rfl, hflow⟩ := hv.direct.flow hacts
      rw [Sys.thread_move_self] at hth
      cases hth
      have hok := (hv.toSound.direct_ok ht).flow hflow
      cases hflow with
      | spscIn hp =>
        have hrop : rop = op.ringOp id := hok.2.2.2
        have hrecv : rop.side = .recv := by rw [hrop, Op.side_ringOp hok.1, hside]
        obtain ⟨rfl, rfl⟩ := Ring.copy_of_storeTail hp hrecv
        refine Mem.data_apply_self K s.mem u c _ _ ?_
        show (rop.tags[0]?).map _ = _
        rw [hrop, Op.tags_ringOp hok.1 hside]
        rfl
      | serveStopBlock hstop hblock | serveEmptyBlock hqueue hblock | servePutBackBlock hblock
      | meetEmptySend hqueue hop hblock | emptyOpen hopen hblock => cases hblock
    · rw [Sys.thread_move_of_ne hu] at hth
      refine Eq.trans ?_ (h u id op spin rop a acc hth hside)
      exact Mem.data_apply K s.mem t d e _ (hv.not_writes hacts hth rfl hu)

omit [DecidableEq T] [DecidableEq C] in
/-- What a cached pop books as received is the oldest element of the ring. -/
theorem Chan.value_of_recvs {ch : Chan T α} {rop : RingOp Wid α} {a : U32} {acc : List α}
    (hside : rop.side = .recv) (h : (w, z) ∈ ch.recvs (.spsc (.storeTail rop a acc))) :
    ch.hist.valueAt ch.hist.takers.length = some z := by
  rw [Chan.recvs, List.mem_append] at h
  rcases h with h | h
  · obtain ⟨y, hy, heq⟩ := List.mem_map.1 h
    cases heq
    obtain ⟨j, hj⟩ := List.mem_iff_getElem?.1 hy
    obtain ⟨hw, hz⟩ := List.getElem?_zip_eq_some.1 hj
    have hlt : j < 1 := by
      have hlen := (List.getElem?_eq_some_iff.1 hw).1
      exact hlen.trans_le (List.length_take_le 1 rop.tags)
    obtain rfl : j = 0 := by omega
    rw [show ch.pushes (.spsc (.storeTail rop a acc)) = rop.data.take 1 from rfl,
      RingOp.data_eq_nil hside, List.take_nil, List.append_nil, List.getElem?_drop, Nat.add_zero] at hz
    rw [RingGhost.valueAt, hz]
    rfl
  · cases h

omit [DecidableEq T] in
/-- A shared operation is one in a lane. -/
theorem DirectValid.laneOn_of_ring (h : DirectValid K s) {x : RingPc Wid α}
    (hring : (s.thread t).ring? = some (c, x)) : (s.thread t).laneOn c = some (.shared x) := by
  have hdirect := h.direct t
  cases hth : s.thread t with
  | idle =>
    rw [hth] at hring
    cases hring
  | select id cases timeout pc =>
    rw [hth] at hdirect
    cases hdirect
  | direct id d op pc =>
    rw [hth] at hring
    obtain ⟨y, hy, heq⟩ := Option.map_eq_some_iff.1 hring
    cases heq
    rw [Thread.laneOn_direct]
    rcases pc.lane_cases with ⟨spin, z, rfl⟩ | hlane
    · cases hy
    · rw [hlane, hy]
      rfl

omit [DecidableEq T] in
theorem Sys.LaneSound.copying (h : s.LaneSound K c) (hv : DirectValid K s) : s.Copying K c where
  takers_le := h.takers_le
  value _ _ _ _ _ _ _ hring htag :=
    RingInv.copy_value h.ring (LaneInv.plain_of_shared (hv.laneOn_of_ring hring)) htag

theorem Sys.Carried.move_lane (h : s.Carried c) (hv : DirectValid K s) (hgood : s.LaneSound K c)
    (hearly : EarlyInv c s) (hacts : s.Acts K t alt d e th) : (s.move K t d e th).Carried c := by
  refine ⟨h.booked_move hgood.takers_le, fun w v hw => ?_⟩
  refine h.buffer_move hv.toValid (hgood.copying hv) hacts ?_ ?_ hw
  · -- before its tail store a cached pop has taken nothing
    rintro r rfl rfl htag hgot htook
    obtain ⟨id, op, pc, pc', hth, rfl, hflow⟩ := hv.direct.flow hacts
    have hok := hv.toSound.direct_ok hth
    have hmay := hv.waiters.running t
    rw [hth] at hmay
    cases Pc.laneStep_of_flow (hok.flow hflow) hflow with
    | cached hr hr' =>
      obtain ⟨spin, rfl⟩ := Pc.lane_cached hr
      rw [show r.op = op.ringOp id from hok.2.2.2] at htag
      have hcall := (Op.accepts_of_ringOp hok.1 htag).1
      have hmem := hmay.own rfl w.idx (by rwa [← hcall])
      rw [show Pc.mayGot (K.chan d) id op (.fastSpsc spin r) = r.got from rfl, hgot] at hmem
      cases hmem
    | start _ he => cases he
    | away _ he => cases he
  · rintro r rfl rfl hrecv
    obtain ⟨id, op, pc, pc', hth, rfl, hflow⟩ := hv.direct.flow hacts
    have hok := hv.toSound.direct_ok hth
    cases Pc.laneStep_of_flow (hok.flow hflow) hflow with
    | cached hr hr' =>
      obtain ⟨spin, rfl⟩ := Pc.lane_cached hr
      have hlane : (s.thread t).laneOn d = some (.cached r) := by
        rw [hth, Thread.laneOn_direct]
        rfl
      have hpop := (Chan.recvs_cases hrecv).resolve_right (by rintro ⟨_, _, ⟨⟩⟩)
      have htag : w ∈ r.op.tags := SpscPc.mem_tags_of_pops hpop
      have hside : r.op.side = .recv := by
        cases hs : r.op.side with
        | recv => rfl
        | send =>
          rw [RingOp.tags_eq_nil hs] at htag
          cases htag
      have hop : op.side = .recv := by rw [← Op.side_ringOp hok.1 id, ← hok.2.2.2, hside]
      rw [show r.op = op.ringOp id from hok.2.2.2, Op.tags_ringOp hok.1 hop] at htag
      obtain rfl := List.mem_singleton.1 htag
      cases r with
      | storeTail rop a acc =>
        replace hside : rop.side = .recv := hside
        have hmark : (s.mem.chan d).hist.mark t = (s.mem.chan d).hist.reserved .recv := by
          rw [hgood.mark t _ _ hlane rfl trivial, ← hside]
          rfl
        rw [hearly t id op spin rop a acc hth hop, ((hgood.held t rop a acc hlane).read hside).1, hmark]
        exact Chan.value_of_recvs hside hrecv
      | _ => cases hpop
    | start _ he => cases he
    | away _ he => cases he

end Use

/-! ## Runs -/

section Valid

variable [DecidableEq T] [DecidableEq C] {K : Config T C} {s s' : Sys T C α} {l : Label T C α}
  {p q t u : T} {alt : Bool} {c d : C} {e : Effect α} {th : Thread C α} {id : Nat} {op : Op α}
  {k : Call C α} {r : Ret} {out : List (Option α)} {w : Wid} {x : α}

/-- What holds in the runs of one producer and one consumer on an SPSC channel. -/
structure SpscValid (K : Config T C) (c : C) (p q : T) (s : Sys T C α) : Prop
    extends DirectValid K s where
  use : SpscUse c p q s
  ring : s.LaneSound K c
  cache : CacheInv K c s
  carried : s.Carried c
  early : EarlyInv c s
  bare : BareInv c s
  turn : s.InTurn c
  sends : s.Tallied p (s.mem.chan c).sent (s.sendsOk c)
  recvs : ∃ vs, s.recvsOk c = vs.map some ∧ s.Tallied q (s.mem.chan c).recvd vs

omit [DecidableEq T] [DecidableEq C] in
theorem SpscUse.of_offered (h : SpscUse c p q s) (hoff : s.Offered c w x) : s.By p w := by
  obtain ⟨t, k, hcall, hoff⟩ := hoff
  have hk := h _ t k hcall
  cases k with
  | select cases timeout => exact hk.elim
  | direct d op =>
    obtain ⟨rfl, hoff⟩ := hoff
    have hused := hk rfl
    cases op with
    | send y time =>
      obtain rfl : t = p := hused
      exact ⟨_, hcall⟩
    | sendBurst xs => exact hused.elim
    | _ => cases hoff

omit [DecidableEq T] [DecidableEq C] in
theorem SpscUse.of_accepting (h : SpscUse c p q s) (hacc : s.Accepting c w) : s.By q w := by
  obtain ⟨t, k, hcall, hacc⟩ := hacc
  have hk := h _ t k hcall
  cases k with
  | select cases timeout => exact hk.elim
  | direct d op =>
    obtain ⟨rfl, hacc⟩ := hacc
    have hused := hk rfl
    cases op with
    | recv time =>
      obtain rfl : t = q := hused
      exact ⟨_, hcall⟩
    | recvBurst n => exact hused.elim
    | _ => cases hacc

omit [DecidableEq T] in
/-- The contribution of a return to the accepted elements. -/
theorem SpscUse.sends_ret (huse : SpscUse c p q s) (hv : DirectValid K s)
    (hcap : 0 < (K.chan c).capacity) (hcall : .call id t k ∈ s.events) (hret : .ret id t r out ∈ s.events) :
    (ofCall id (s.mem.chan c).sent).map Prod.snd = Event.directOks Op.sentElem c s (.ret id t r out) := by
  have hk := huse id t k hcall
  cases k with
  | select cases timeout => exact hk.elim
  | direct d op =>
    rw [Event.directOks_ret hv.hist hcall]
    have hnil : (∀ i y, (⟨id, i⟩, y) ∉ (s.mem.chan c).sent) →
        (ofCall id (s.mem.chan c).sent).map Prod.snd = [] := by
      intro hnone
      rw [ofCall_eq_nil fun y hy hid => hnone y.1.idx y.2 (by rw [← hid]; exact hy)]
      rfl
    by_cases hd : d = c
    · subst hd
      have hans : s.Answered id (.direct d op) r out := ⟨t, hcall, hret⟩
      have hiff : ∀ {i : Nat} {y : α}, (⟨id, i⟩, y) ∈ (s.mem.chan d).sent ↔
          op.offers i = some y ∧ ⟨id, i⟩ ∈ op.gotOf id r := hv.mem_sent_iff hcap hans
      by_cases hr : r = .err .ok
      · rw [if_pos ⟨rfl, hr⟩]
        subst hr
        cases op with
        | send x time =>
          refine map_snd_ofCall_of_mem (hv.ledger.sent_nodup d) (i := 0) ?_ fun y hy hid => ?_
          · exact hiff.2 ⟨rfl, List.mem_singleton_self _⟩
          · have hmem : ((⟨id, y.1.idx⟩ : Wid), y.2) ∈ (s.mem.chan d).sent := by
              rw [← hid]
              exact hy
            exact congrArg Wid.idx (List.mem_singleton.1 (hiff.1 hmem).2)
        | sendBurst xs => exact (hk rfl).elim
        | _ =>
          refine hnil fun i y hy => ?_
          cases (hiff.1 hy).1
      · rw [if_neg fun h => hr h.2]
        refine hnil fun i y hy => ?_
        obtain ⟨hoff, hgot⟩ := hiff.1 hy
        cases op with
        | send x time =>
          obtain ⟨e, rfl⟩ := hv.reports.fits id _ r out hans
          cases e with
          | ok => exact hr rfl
          | _ => cases hgot
        | sendBurst xs => exact (hk rfl).elim
        | _ => cases hoff
    · rw [if_neg fun h => hd h.1]
      refine hnil fun i y hy => ?_
      obtain ⟨u, k', hcall', hoff⟩ := hv.ledger.sent c _ _ hy
      cases (hv.hist.call_inj _ _ _ _ _ hcall hcall').2
      exact hd hoff.1

omit [DecidableEq T] in
/-- A receive that has returned has in its buffer what the channel has handed to it. -/
theorem Sys.Carried.data_of_answered (h : s.Carried c) (hs : Sound K s)
    (hans : s.Answered id k r out) {i : Nat} (hmem : (⟨id, i⟩, x) ∈ (s.mem.chan c).recvd) :
    (s.mem.waiter ⟨id, i⟩).data = some x := by
  obtain ⟨t, -, hret⟩ := hans
  have hgone : ∀ u, (s.thread u).id? ≠ some id := fun u => hs.calls.ret_ne u id ⟨t, r, out, hret⟩
  refine h.data_of_recvd hs hmem (fun u hu => absurd hu (hgone u)) fun u hu => ?_
  obtain ⟨v, hwaits⟩ := (hs.queues.claimed u _ _ _ hu).1
  exact hgone v (Thread.id_of_waits hwaits)

omit [DecidableEq T] in
/-- The contribution of a return to the received elements. -/
theorem SpscUse.recvs_ret (huse : SpscUse c p q s) (hv : DirectValid K s) (hring : s.LaneSound K c)
    (hcarried : s.Carried c) (hcap : 0 < (K.chan c).capacity) (hcall : .call id t k ∈ s.events)
    (hret : .ret id t r out ∈ s.events) :
    ((ofCall id (s.mem.chan c).recvd).map Prod.snd).map some =
      Event.directOks Op.recvdElem c s (.ret id t r out) := by
  have hk := huse id t k hcall
  cases k with
  | select cases timeout => exact hk.elim
  | direct d op =>
    rw [Event.directOks_ret hv.hist hcall]
    have hnil : (∀ i y, (⟨id, i⟩, y) ∉ (s.mem.chan c).recvd) →
        ((ofCall id (s.mem.chan c).recvd).map Prod.snd).map some = [] := by
      intro hnone
      rw [ofCall_eq_nil fun y hy hid => hnone y.1.idx y.2 (by rw [← hid]; exact hy)]
      rfl
    by_cases hd : d = c
    · subst hd
      have hans : s.Answered id (.direct d op) r out := ⟨t, hcall, hret⟩
      -- what is received by the call has been moved by it, and its operation accepts
      have hmoved : ∀ {i : Nat} {y : α}, (⟨id, i⟩, y) ∈ (s.mem.chan d).recvd →
          op.accepts i = true ∧ ⟨id, i⟩ ∈ op.gotOf id r := by
        intro i y hy
        obtain ⟨u, k', hcall', hacc⟩ := hv.ledger.taken d _ (Or.inr (List.mem_map_of_mem hy))
        cases (hv.hist.call_inj _ _ _ _ _ hcall hcall').2
        exact ⟨hacc.2, (hv.took_iff hcap hans i).1 ⟨d, Or.inr (Or.inr (List.mem_map_of_mem hy))⟩⟩
      by_cases hr : r = .err .ok
      · rw [if_pos ⟨rfl, hr⟩]
        subst hr
        cases op with
        | recv time =>
          have hacc : s.Accepting d ⟨id, 0⟩ := ⟨t, _, hcall, rfl, rfl⟩
          obtain ⟨v, hmem⟩ := hcarried.exists_recvd hv.toValid hring.takers_le hacc
            ((hv.took_iff hcap hans 0).2 (List.mem_singleton_self _))
          have hone : (ofCall id (s.mem.chan d).recvd).map Prod.snd = [v] := by
            refine map_snd_ofCall_of_mem (hv.ledger.recvd_nodup d) hmem fun y hy hid => ?_
            have hmem' : ((⟨id, y.1.idx⟩ : Wid), y.2) ∈ (s.mem.chan d).recvd := by
              rw [← hid]
              exact hy
            exact congrArg Wid.idx (List.mem_singleton.1 (hmoved hmem').2)
          have hout : out = [(s.mem.waiter ⟨id, 0⟩).data] := hv.reports.out id _ _ out hans
          rw [hone, Op.recvdElem, hout, hcarried.data_of_answered hv.toSound hans hmem]
          rfl
        | recvBurst n => exact (hk rfl).elim
        | _ =>
          refine hnil fun i y hy => ?_
          cases (hmoved hy).1
      · rw [if_neg fun h => hr h.2]
        refine hnil fun i y hy => ?_
        obtain ⟨hacc, hgot⟩ := hmoved hy
        cases op with
        | recv time =>
          obtain ⟨e, rfl⟩ := hv.reports.fits id _ r out hans
          cases e with
          | ok => exact hr rfl
          | _ => cases hgot
        | recvBurst n => exact (hk rfl).elim
        | _ => cases hacc
    · rw [if_neg fun h => hd h.1]
      refine hnil fun i y hy => ?_
      obtain ⟨u, k', hcall', hacc⟩ := hv.ledger.taken c _ (Or.inr (List.mem_map_of_mem hy))
      cases (hv.hist.call_inj _ _ _ _ _ hcall hcall').2
      exact hd hacc.1

theorem SpscValid.sends_move (h : SpscValid K c p q s) (hnext : (s.thread t).Next K s.mem d th e)
    (hacts : s.Acts K t alt d e th) :
    (s.move K t d e th).Tallied p ((s.move K t d e th).mem.chan c).sent (s.sendsOk c) := by
  by_cases hd : c = d
  · subst hd
    rw [show (s.move K t c e th).mem.chan c = (s.mem.chan c).apply (K.chan c).ringCap t e from
      Mem.chan_apply_self K s.mem t c e, Chan.sent_apply]
    refine h.sends.move hnext.id fun y hy => ?_
    -- the sender is the producer, in its running call
    obtain ⟨u, hu⟩ := h.running_of_grants hacts (Chan.mem_grants.2 (Or.inl (List.mem_map_of_mem hy)))
    have hoff := h.ledger.offered_of_data h.toSound hacts (Chan.sends_subset _ _ hy)
    rwa [h.hist.eq_of_by hu (h.use.of_offered hoff)]
  · rw [show (s.move K t d e th).mem.chan c = s.mem.chan c from
      Mem.chan_apply_of_ne K s.mem t d e hd, ← List.append_nil (s.mem.chan c).sent]
    exact h.sends.move hnext.id fun y hy => absurd hy List.not_mem_nil

theorem SpscValid.recvs_move (h : SpscValid K c p q s) (hnext : (s.thread t).Next K s.mem d th e)
    (hacts : s.Acts K t alt d e th) {vs : List α} (htally : s.Tallied q (s.mem.chan c).recvd vs) :
    (s.move K t d e th).Tallied q ((s.move K t d e th).mem.chan c).recvd vs := by
  by_cases hd : c = d
  · subst hd
    have hv' := h.toValid.step (.move hnext hacts)
    have hchan : (s.move K t c e th).mem.chan c = (s.mem.chan c).apply (K.chan c).ringCap t e :=
      Mem.chan_apply_self K s.mem t c e
    rw [hchan, Chan.recvd_apply]
    refine htally.move hnext.id fun y hy => ?_
    -- the receiver is the consumer, in its running call
    have hgrants : y.1 ∈ (s.mem.chan c).grants e :=
      Chan.mem_grants.2 (Or.inr (List.mem_append.1
        ((Chan.recvs_sublist _ _).subset (List.mem_map_of_mem hy))))
    obtain ⟨u, hu⟩ := h.running_of_grants hacts hgrants
    have hacc : s.Accepting c y.1 := hv'.ledger.taken c y.1 (Or.inr (List.mem_map_of_mem (by
      rw [hchan, Chan.recvd_apply]
      exact List.mem_append_right _ hy)))
    rwa [h.hist.eq_of_by hu (h.use.of_accepting hacc)]
  · rw [show (s.move K t d e th).mem.chan c = s.mem.chan c from
      Mem.chan_apply_of_ne K s.mem t d e hd, ← List.append_nil (s.mem.chan c).recvd]
    exact htally.move hnext.id fun y hy => absurd hy List.not_mem_nil

omit [DecidableEq T] [DecidableEq C] in
theorem Sys.Tallied.nil : s.Tallied t [] [] :=
  ⟨[], [], rfl, rfl, fun _ h => absurd h List.not_mem_nil, fun _ h => absurd h List.not_mem_nil⟩

omit [DecidableEq T] in
theorem SpscValid.init (slots : C → U32 → α) : SpscValid K c p q (Sys.init slots : Sys T C α) where
  toDirectValid := .init slots
  use _ _ _ h := by cases h
  ring := LaneInv.init _ (slots c)
  cache := .init slots
  carried := .init slots c
  early _ _ _ _ _ _ _ h := by cases h
  bare _ _ _ _ h := by cases h
  turn := rfl
  sends := .nil
  recvs := ⟨[], rfl, .nil⟩

theorem SpscValid.ring_step (h : SpscValid K c p q s) (hl : l.Spsc c p q) (hstep : s.Stepped K l s') :
    s'.LaneSound K c := by
  cases hstep with
  | call hidle => exact h.ring.startCall hl hidle
  | ret hdone hret => exact h.ring.finishCall hret
  | move hnext hacts => exact h.ring.move h.toDirectValid h.use h.cache.near hacts

theorem SpscValid.carried_step (h : SpscValid K c p q s) (hstep : s.Stepped K l s') : s'.Carried c := by
  cases hstep with
  | call hidle => exact h.carried.startCall h.toValid hidle
  | ret hdone hret => exact h.carried.finishCall hret
  | move hnext hacts => exact h.carried.move_lane h.toDirectValid h.ring h.early hacts

theorem SpscValid.turn_step (h : SpscValid K c p q s) (hstep : s.Stepped K l s') : s'.InTurn c := by
  cases hstep with
  | call hidle => exact h.turn
  | ret hdone hret => exact h.turn
  | move hnext hacts =>
    refine h.turn.move h.ring.takers_le ?_
    rintro rfl hmeets
    exact h.bare.inRing_of_meet h.toDirectValid hacts hmeets

omit [DecidableEq C] in
/-- The call and the return of a thread that returns are in the history. -/
theorem Sys.Returns.events (hret : s.Returns t id r out) (hist : HistInv s) :
    ∃ k, .call id t k ∈ (s.finishCall t id r out).events ∧
      .ret id t r out ∈ (s.finishCall t id r out).events := by
  obtain ⟨k, hk⟩ := Thread.call_of_id hret.id_eq
  exact ⟨k, List.mem_append_left _ (hist.running t id k hk),
    List.mem_append_right _ (List.mem_singleton_self _)⟩

theorem SpscValid.sends_step (h : SpscValid K c p q s) (hv' : DirectValid K s') (huse' : SpscUse c p q s')
    (hcap : 0 < (K.chan c).capacity) (hstep : s.Stepped K l s') :
    s'.Tallied p (s'.mem.chan c).sent (s'.sendsOk c) := by
  cases hstep with
  | @call t k hidle =>
    rw [Sys.sendsOk, Sys.directOks_startCall h.hist]
    exact h.sends.startCall hidle k
  | @ret t alt id r out hdone hret =>
    obtain ⟨k, hcall, hmem⟩ := hret.events h.hist
    rw [Sys.sendsOk, Sys.directOks_finishCall h.hist, ← huse'.sends_ret hv' hcap hcall hmem]
    refine h.sends.finishCall h.calls hret.id_eq fun y hy hid => ?_
    exact (h.hist.eq_of_by (hid ▸ hret.id_eq) (h.use.of_offered (h.ledger.sent c _ _ hy))).symm
  | move hnext hacts => exact h.sends_move hnext hacts

theorem SpscValid.recvs_step (h : SpscValid K c p q s) (hv' : DirectValid K s') (huse' : SpscUse c p q s')
    (hring' : s'.LaneSound K c) (hcarried' : s'.Carried c) (hcap : 0 < (K.chan c).capacity)
    (hstep : s.Stepped K l s') :
    ∃ vs, s'.recvsOk c = vs.map some ∧ s'.Tallied q (s'.mem.chan c).recvd vs := by
  obtain ⟨vs, hvs, htally⟩ := h.recvs
  cases hstep with
  | @call t k hidle =>
    refine ⟨vs, ?_, htally.startCall hidle k⟩
    rw [Sys.recvsOk, Sys.directOks_startCall h.hist]
    exact hvs
  | @ret t alt id r out hdone hret =>
    obtain ⟨k, hcall, hmem⟩ := hret.events h.hist
    refine ⟨vs ++ (ofCall id (s.mem.chan c).recvd).map Prod.snd, ?_, ?_⟩
    · rw [Sys.recvsOk, Sys.directOks_finishCall h.hist,
        ← huse'.recvs_ret hv' hring' hcarried' hcap hcall hmem, List.map_append, ← hvs]
      rfl
    · refine htally.finishCall h.calls hret.id_eq fun y hy hid => ?_
      have hacc := h.ledger.taken c y.1 (Or.inr (List.mem_map_of_mem hy))
      exact (h.hist.eq_of_by (hid ▸ hret.id_eq) (h.use.of_accepting hacc)).symm
  | move hnext hacts => exact ⟨vs, hvs, h.recvs_move hnext hacts htally⟩

theorem SpscValid.step (h : SpscValid K c p q s) (hspsc : (K.chan c).spsc = true) (hl : l.Spsc c p q)
    (hstep : s.Stepped K l s') : SpscValid K c p q s' := by
  have hcap := (K.chan c).buffered hspsc
  have hv' := h.toDirectValid.step hl.direct hstep
  have huse' := h.use.step hl hstep
  have hring' := h.ring_step hl hstep
  have hcarried' := h.carried_step hstep
  exact {
    toDirectValid := hv'
    use := huse'
    ring := hring'
    cache := h.cache.step h.toDirectValid h.use h.ring hspsc hstep
    carried := hcarried'
    early := h.early.step h.toDirectValid hstep
    bare := h.bare.step h.toDirectValid h.use h.ring hcap hstep
    turn := h.turn_step hstep
    sends := h.sends_step hv' huse' hcap hstep
    recvs := h.recvs_step hv' huse' hring' hcarried' hcap hstep }

theorem SpscValid.of_reaches_from (hspsc : (K.chan c).spsc = true) (h : SpscValid K c p q s)
    (hrun : Reaches (Sys.step K) (fun _ l => l.Spsc c p q) s s') : SpscValid K c p q s' := by
  apply hrun.invariant h
  intro s l s' hv hl hstep
  exact hv.step hspsc hl (Sys.step_cases hv.locks.wf hstep)

omit [DecidableEq T] in
/-- An accepted element that no return has reported is that of the send the producer is in. -/
theorem SpscValid.running_of_sent (h : SpscValid K c p q s) {y : Wid × α} (hy : y ∈ (s.mem.chan c).sent)
    (hid : (s.thread p).id? = some y.1.call) :
    y.1.idx = 0 ∧ ∃ time pc, s.thread p = .direct y.1.call c (.send y.2 time) pc := by
  obtain ⟨t, k, hcall, hoff⟩ := h.ledger.sent c y.1 y.2 hy
  obtain ⟨k', hk'⟩ := Thread.call_of_id hid
  obtain ⟨rfl, rfl⟩ := h.hist.call_inj _ _ _ _ _ (h.hist.running p _ k' hk') hcall
  have hdirect := h.direct p
  cases hth : s.thread p with
  | idle =>
    rw [hth] at hid
    cases hid
  | select id cases timeout pc =>
    rw [hth] at hdirect
    cases hdirect
  | direct id d op pc =>
    rw [hth] at hk'
    cases hk'
    obtain ⟨rfl, hoff⟩ := hoff
    have hused := h.use.usedBy h.toSound hth
    cases op with
    | send x time =>
      obtain ⟨hidx, hx⟩ := Option.ite_none_right_eq_some.1 hoff
      cases hx
      exact ⟨hidx, time, pc, rfl⟩
    | sendBurst xs => exact hused.elim
    | _ => cases hoff

omit [DecidableEq T] in
/-- The accepted elements are those of the sends that have returned `CHAN_OK`, and at most one more. -/
theorem SpscValid.sent_eq (h : SpscValid K c p q s) :
    ∃ pending : List (Nat × α), pending.length ≤ 1 ∧
      (s.mem.chan c).sent.map Prod.snd = s.sendsOk c ++ pending.map Prod.snd ∧
      ∀ y ∈ pending, s.mem.Took ⟨y.1, 0⟩ ∧
        ∃ time pc, s.thread p = .direct y.1 c (.send y.2 time) pc := by
  obtain ⟨done, cur, hbook, hoks, -, hcur⟩ := h.sends
  have hsent : ∀ y ∈ cur, y ∈ (s.mem.chan c).sent := by
    intro y hy
    rw [hbook]
    exact List.mem_append_right _ hy
  have hwid : ∀ y ∈ cur, ∀ y' ∈ cur, y.1 = y'.1 := by
    intro y hy y' hy'
    refine Wid.ext (Option.some.inj ((hcur y hy).symm.trans (hcur y' hy'))) ?_
    rw [(h.running_of_sent (hsent y hy) (hcur y hy)).1, (h.running_of_sent (hsent y' hy') (hcur y' hy')).1]
  refine ⟨cur.map fun y => (y.1.call, y.2), ?_, ?_, fun z hz => ?_⟩
  · have hnodup : (cur.map Prod.fst).Nodup := by
      refine (h.ledger.sent_nodup c).sublist ?_
      rw [hbook]
      exact (List.sublist_append_right done cur).map _
    rw [List.length_map]
    cases cur with
    | nil => exact Nat.zero_le 1
    | cons y rest =>
      cases rest with
      | nil => exact Nat.le_refl 1
      | cons y' rest =>
        rw [List.map_cons, List.nodup_cons] at hnodup
        refine absurd ?_ hnodup.1
        rw [hwid y List.mem_cons_self y' (List.mem_cons_of_mem _ List.mem_cons_self)]
        exact List.mem_map_of_mem List.mem_cons_self
  · rw [hbook, hoks, List.map_append, List.map_map]
    rfl
  · obtain ⟨y, hy, rfl⟩ := List.mem_map.1 hz
    obtain ⟨hidx, time, pc, hth⟩ := h.running_of_sent (hsent y hy) (hcur y hy)
    refine ⟨⟨c, Or.inl ?_⟩, time, pc, hth⟩
    rw [show (⟨y.1.call, 0⟩ : Wid) = y.1 from Wid.ext rfl hidx.symm]
    exact List.mem_map_of_mem (hsent y hy)

/-- A send whose element is accepted returns `CHAN_OK` whenever it returns. -/
theorem SpscValid.returns_ok (h : SpscValid K c p q s) (hspsc : (K.chan c).spsc = true)
    (htook : s.mem.Took ⟨id, 0⟩) (hrun : Reaches (Sys.step K) (fun _ l => l.Spsc c p q) s s') {time : Int}
    (hans : s'.Answered id (.direct c (.send x time)) r out) : r = .err .ok := by
  obtain ⟨h', htook'⟩ : SpscValid K c p q s' ∧ s'.mem.Took ⟨id, 0⟩ := by
    apply hrun.invariant (P := fun s' => SpscValid K c p q s' ∧ s'.mem.Took ⟨id, 0⟩) ⟨h, htook⟩
    rintro s₁ l s₂ ⟨h₁, htook₁⟩ hl hstep
    have hstep := Sys.step_cases h₁.locks.wf hstep
    refine ⟨h₁.step hspsc hl hstep, ?_⟩
    cases hstep with
    | call hidle => exact htook₁
    | ret hdone hret => exact htook₁
    | move hnext hacts => exact Sys.took_move.2 (Or.inl htook₁)
  have hgot := (h'.took_iff ((K.chan c).buffered hspsc) hans 0).1 htook'
  obtain ⟨e, rfl⟩ := h'.reports.fits id _ r out hans
  cases e with
  | ok => rfl
  | _ => cases hgot

/-- An SPSC channel in runs of `Sys`. -/
theorem Sys.spsc_fifo (slots : C → U32 → α) (hspsc : (K.chan c).spsc = true)
    (hrun : Reaches (Sys.step K) (fun _ l => l.Spsc c p q) (Sys.init slots) s) :
    (∃ pending : List (Nat × α), pending.length ≤ 1 ∧
      s.recvsOk c <+: (s.sendsOk c ++ pending.map Prod.snd).map some ∧
      ∀ y ∈ pending, ∃ time pc, s.thread p = .direct y.1 c (.send y.2 time) pc ∧
        ∀ s', Reaches (Sys.step K) (fun _ l => l.Spsc c p q) s s' → ∀ r out,
          s'.Answered y.1 (.direct c (.send y.2 time)) r out → r = .err .ok) ∧
    ∀ t id op spin rop a, s.thread t = .direct id c op (.fastSpsc spin (.copy rop a)) →
      rop.side = .send → ∀ n < (s.mem.chan c).hist.reserved .send,
        Wrap.slotOf (K.chan c).ringCap.size n = rop.slot (K.chan c).ringCap a 1 0 →
        n < (s.mem.chan c).hist.committed .recv ∧
          (s.mem.chan c).hist.copied n = (s.mem.chan c).hist.valueAt n := by
  have hv : SpscValid K c p q s := SpscValid.of_reaches_from hspsc (.init slots) hrun
  refine ⟨?_, fun t id op spin rop a hth hside n hn hslot => ?_⟩
  · obtain ⟨pending, hlen, hsent, hpending⟩ := hv.sent_eq
    obtain ⟨vs, hvs, htally⟩ := hv.recvs
    refine ⟨pending, hlen, ?_, fun y hy => ?_⟩
    · rw [hvs, ← hsent, hv.turn]
      exact (htally.oks_le.trans (List.prefix_append _ _)).map _
    · obtain ⟨htook, time, pc, hth⟩ := hpending y hy
      exact ⟨time, pc, hth, fun s' hrun' r out hans => hv.returns_ok hspsc htook hrun' hans⟩
  · refine LaneInv.overwrites hv.ring (t := t) (a := a) ?_ hside hn hslot
    rw [hth, Thread.laneOn_direct]
    rfl

/-- One producer that sends single elements on an SPSC channel, one consumer that receives them, and
closes by anybody, in any order of steps and for any number of them, while no call sets up its waiters in a
frame that somebody is still about to signal. What the receives that returned `CHAN_OK` have in their
buffers is a prefix of the elements of the sends that returned `CHAN_OK` and of one that can only return
it. A cached push is about to write to a slot only when every element that was ever put there has been
copied out. -/
theorem spsc_exact_fifo (K : Config T C) (slots : C → U32 → α) (c : C) (p q : T) (r : StackSys T C α)
    (hspsc : (K.chan c).spsc = true)
    (hrun : Reaches (StackSys.step K) (fun r l => l.label.Spsc c p q ∧ r.ReuseOk l)
      (StackSys.init slots) r) :
    (∃ pending : List (Nat × α), pending.length ≤ 1 ∧
      r.seen.recvsOk c <+: (r.seen.sendsOk c ++ pending.map Prod.snd).map some ∧
      ∀ y ∈ pending, ∃ time pc, r.seen.thread p = .direct y.1 c (.send y.2 time) pc ∧
        ∀ r', Reaches (StackSys.step K) (fun r l => l.label.Spsc c p q ∧ r.ReuseOk l) r r' → ∀ x out,
          r'.seen.Answered y.1 (.direct c (.send y.2 time)) x out → x = .err .ok) ∧
    ∀ t id op spin rop a, r.seen.thread t = .direct id c op (.fastSpsc spin (.copy rop a)) →
      rop.side = .send → ∀ n < (r.seen.mem.chan c).hist.reserved .send,
        Wrap.slotOf (K.chan c).ringCap.size n = rop.slot (K.chan c).ringCap a 1 0 →
        n < (r.seen.mem.chan c).hist.committed .recv ∧
          (r.seen.mem.chan c).hist.copied n = (r.seen.mem.chan c).hist.valueAt n := by
  have hok : ∀ (r : StackSys T C α) l, StackInv K r → (l.label.Spsc c p q ∧ r.ReuseOk l) →
      r.ReuseOk l ∧ l.label.Spsc c p q := fun _ _ _ h => h.symm
  obtain ⟨hsys, hinv⟩ := StackSys.reaches_sys (fun _ l => l.Spsc c p q) (.init slots) hok hrun
  obtain ⟨⟨pending, hlen, hpre, hpending⟩, hwrite⟩ := Sys.spsc_fifo slots hspsc hsys
  refine ⟨⟨pending, hlen, hpre, fun y hy => ?_⟩, hwrite⟩
  obtain ⟨time, pc, hth, hret⟩ := hpending y hy
  refine ⟨time, pc, hth, fun r' hrun' => ?_⟩
  exact hret r'.sys (StackSys.reaches_sys (fun _ l => l.Spsc c p q) hinv hok hrun').1

end Valid

/-- Two states on a channel of capacity one. In the first the producer is about to reuse the only slot. In
the second the consumer has received the element of a send that is still parked: it was put into the ring
on the producer's behalf. Each thread has one frame for all its calls. -/
theorem spsc_exact_fifo_reuse : ∃ r r' : StackSys (Fin 3) Unit Nat,
    Reaches (StackSys.step spscOne) (fun r l => l.label.Spsc () 0 1 ∧ r.ReuseOk l)
      (StackSys.init fun _ _ => 0) r ∧
    r.seen.thread 0 = .direct 2 () (.send 8 0) (.fastSpsc 0 (.copy (.push ⟨2, 0⟩ 8) 1)) ∧
    (r.seen.mem.chan ()).hist.copied 0 = (r.seen.mem.chan ()).hist.valueAt 0 ∧
    Reaches (StackSys.step spscOne) (fun r l => l.label.Spsc () 0 1 ∧ r.ReuseOk l)
      (StackSys.init fun _ _ => 0) r' ∧
    r'.home 1 = r'.home 0 ∧ r'.seen.sendsOk () = [7] ∧ r'.seen.recvsOk () = [some 7, some 8] ∧
    ∃ pending : List (Nat × Nat), pending.length ≤ 1 ∧
      r'.seen.recvsOk () <+: (r'.seen.sendsOk () ++ pending.map Prod.snd).map some := by
  obtain ⟨r, hrun, hth, hres⟩ : ∃ r : StackSys (Fin 3) Unit Nat,
      Reaches (StackSys.step spscOne) (fun r l => l.label.Spsc () 0 1 ∧ r.ReuseOk l)
        (StackSys.init fun _ _ => 0) r ∧
      r.seen.thread 0 = .direct 2 () (.send 8 0) (.fastSpsc 0 (.copy (.push ⟨2, 0⟩ 8) 1)) ∧
      0 < (r.seen.mem.chan ()).hist.reserved .send :=
    StackSys.exists_reaches spscOne (fun _ _ => (0 : Nat)) (fun r l => l.label.Spsc () 0 1 ∧ r.ReuseOk l)
      (List.flatten [
        [.call 0 (.direct () (.send 7 0)) 0], List.replicate 7 (.go 0 false),
        [.call 1 (.direct () (.recv 0)) 1], List.replicate 7 (.go 1 false),
        [.call 0 (.direct () (.send 8 0)) 0], List.replicate 3 (.go 0 false)]) _ (by decide +kernel)
  obtain ⟨r', hrun', hhome, hsends, hrecvs⟩ : ∃ r' : StackSys (Fin 3) Unit Nat,
      Reaches (StackSys.step spscOne) (fun r l => l.label.Spsc () 0 1 ∧ r.ReuseOk l)
        (StackSys.init fun _ _ => 0) r' ∧
      r'.home 1 = r'.home 0 ∧ r'.seen.sendsOk () = [7] ∧ r'.seen.recvsOk () = [some 7, some 8] :=
    StackSys.exists_reaches spscOne (fun _ _ => (0 : Nat)) (fun r l => l.label.Spsc () 0 1 ∧ r.ReuseOk l)
      (List.flatten [
        [.call 0 (.direct () (.send 7 0)) 0], List.replicate 7 (.go 0 false),
        [.call 0 (.direct () (.send 8 (-1))) 0], List.replicate 14 (.go 0 false),
        [.call 1 (.direct () (.recv 0)) 1], List.replicate 22 (.go 1 false),
        [.call 1 (.direct () (.recv 0)) 1], List.replicate 12 (.go 1 false)]) _ (by decide +kernel)
  have hcopied := (spsc_exact_fifo spscOne _ () 0 1 r rfl hrun).2 0 2 _ 0 _ 1 hth rfl 0 hres (by decide)
  obtain ⟨⟨pending, hlen, hpre, -⟩, -⟩ := spsc_exact_fifo spscOne _ () 0 1 r' rfl hrun'
  exact ⟨r, r', hrun, hth, hcopied.2, hrun', hhome, hsends, hrecvs, pending, hlen, hpre⟩

/-- A receive admits the element of a parked send to the ring and stops before it signals. The backstop of
the send expires, it finds itself served and returns; the next send of the thread parks in the same frame
and returns by the late signal, with its waiter still queued. Nobody is counted as waiting, so the element
stays there: the next one goes through the ring and is received in its place. -/
theorem spsc_element_lost : ∃ r : StackSys (Fin 3) Unit Nat,
    Reaches (StackSys.step spscOne) (fun _ l => l.label.Spsc () 0 1) (StackSys.init fun _ _ => 0) r ∧
      (∀ t, r.seen.thread t = .idle) ∧ r.seen.sendsOk () = [1, 2, 3, 4] ∧
      r.seen.recvsOk () = [some 1, some 2, some 4] :=
  StackSys.exists_reaches spscOne (fun _ _ => (0 : Nat)) (fun _ l => l.label.Spsc () 0 1)
    (List.flatten [
      [.call 1 (.direct () (.recv (-1))) 1], List.replicate 3 (.go 1 false),
      [.call 0 (.direct () (.send 1 (-1))) 0], List.replicate 7 (.go 0 false),
      [.call 0 (.direct () (.send 2 (-1))) 0], List.replicate 14 (.go 0 false),
      List.replicate 16 (.go 1 false),
      [.go 0 true], List.replicate 5 (.go 0 false),
      [.call 0 (.direct () (.send 3 (-1))) 0], List.replicate 14 (.go 0 false),
      List.replicate 2 (.go 1 false), List.replicate 3 (.go 0 false),
      [.call 1 (.direct () (.recv (-1))) 1], List.replicate 7 (.go 1 false),
      [.call 0 (.direct () (.send 4 (-1))) 0], List.replicate 8 (.go 0 false),
      [.call 1 (.direct () (.recv (-1))) 1], List.replicate 7 (.go 1 false)]) _ (by decide +kernel)

end LibChan
