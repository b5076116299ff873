import LibChan.Ring.Cached
import LibChan.Chan.Duo

/-!
# The two threads of an SPSC channel

One thread sends on an SPSC channel and one receives from it (`SpscUse`). Both use the cursor-cached
operations first and the shared ones under the lock, and each may run a shared operation for the
other while that one waits. At any time at most one thread is in an operation on one side of the ring
(`SpscUse.lane_inj`), so the invariant of the two lanes is kept by every step (`Sys.LaneSound.move`).
-/

set_option autoImplicit false

namespace LibChan

variable {T C α : Type}

/-- The thread that uses one side of the ring, of the producer `p` and the consumer `q`. -/
def sideOwner (p q : T) : ChanOp → T
  | .send => p
  | .recv => q

/-- The producer sends single elements, the consumer receives single elements, anybody may close the
channel or ask for its length. -/
def Op.UsedBy (p q t : T) : Op α → Prop
  | send _ _ => t = p
  | recv _ => t = q
  | sendBurst _ | recvBurst _ => False
  | close | len => True

instance [DecidableEq T] (p q t : T) : DecidablePred (Op.UsedBy (α := α) p q t)
  | .send _ _ => inferInstanceAs (Decidable (t = p))
  | .recv _ => inferInstanceAs (Decidable (t = q))
  | .sendBurst _ => .isFalse id
  | .recvBurst _ => .isFalse id
  | .close => .isTrue trivial
  | .len => .isTrue trivial

/-- The calls of a thread while `c` is an SPSC channel between `p` and `q`. -/
def Call.Spsc (c : C) (p q t : T) : Call C α → Prop
  | .direct d op => d = c → op.UsedBy p q t
  | .select _ _ => False

instance [DecidableEq T] [DecidableEq C] (c : C) (p q t : T) (k : Call C α) :
    Decidable (k.Spsc c p q t) :=
  match k with
  | .direct d op => inferInstanceAs (Decidable (d = c → op.UsedBy p q t))
  | .select _ _ => .isFalse id

/-- Only such calls are made. -/
def Label.Spsc (c : C) (p q : T) : Label T C α → Prop
  | .call t k => k.Spsc c p q t
  | .go _ _ => True

instance [DecidableEq T] [DecidableEq C] (c : C) (p q : T) :
    DecidablePred (Label.Spsc (α := α) c p q)
  | .call t k => inferInstanceAs (Decidable (k.Spsc c p q t))
  | .go _ _ => .isTrue trivial

theorem Label.Spsc.direct {c : C} {p q : T} {l : Label T C α} (h : l.Spsc c p q) : l.direct = true := by
  cases l with
  | go t alt => rfl
  | call t k =>
    cases k with
    | direct d op => rfl
    | select cases timeout => exact h.elim

/-- All calls so far were such calls. -/
def SpscUse (c : C) (p q : T) (s : Sys T C α) : Prop :=
  ∀ id t k, .call id t k ∈ s.events → k.Spsc c p q t

/-! ## The lane of a thread -/

/-- The ring operation of a direct call, shared or cached. -/
def Pc.lane? : Pc α → Option (LanePc Wid α)
  | fastSpsc _ p => some (.cached p)
  | pc => pc.ring?.map .shared

/-- The step is an access to a ring. -/
def Effect.isLane : Effect α → Bool
  | .ring _ _ | .spsc _ => true
  | _ => false

/-- How a step of a direct call uses the ring of its channel. -/
inductive Pc.LaneStep (K : Config T C) (m : Mem T C α) (c : C) (alt : Bool) (pc pc' : Pc α) :
    Effect α → Prop
  | shared {p : RingPc Wid α} (hlane : pc.lane? = some (.shared p))
      (hlane' : pc'.lane? = (m.access K c alt p).getLeft?.map .shared) :
      LaneStep K m c alt pc pc' (.ring alt p)
  | cached {p : SpscPc Wid α} (hlane : pc.lane? = some (.cached p))
      (hlane' : pc'.lane? = (m.spscAccess K c p).getLeft?.map .cached) :
      LaneStep K m c alt pc pc' (.spsc p)
  | start {e : Effect α} {x : LanePc Wid α} {op : RingOp Wid α} (hlane : pc.lane? = none)
      (he : e.isLane = false) (hlane' : pc'.lane? = some x) (hplain : x.plain = some (.loadHead op))
      (hop : op.Valid) (hone : ∀ q, x = .cached q → q.op.want = 1) : LaneStep K m c alt pc pc' e
  | away {e : Effect α} (hlane : pc.lane? = none) (he : e.isLane = false)
      (hlane' : pc'.lane? = none) : LaneStep K m c alt pc pc' e

section Places

variable {K : Config T C} {m : Mem T C α} {id : Nat} {c : C} {op : Op α} {alt : Bool}
  {pc pc' : Pc α} {e : Effect α}

theorem Pc.lane_cases (pc : Pc α) :
    (∃ spin p, pc = .fastSpsc spin p) ∨ pc.lane? = pc.ring?.map .shared := by
  cases pc with
  | fastSpsc spin p => exact Or.inl ⟨spin, p, rfl⟩
  | _ => exact Or.inr rfl

theorem Pc.lane_shared {p : RingPc Wid α} (h : pc.lane? = some (.shared p)) : pc.ring? = some p := by
  rcases pc.lane_cases with ⟨spin, r, rfl⟩ | hlane
  · cases h
  · obtain ⟨r, hr, heq⟩ := Option.map_eq_some_iff.1 (hlane.symm.trans h)
    cases heq
    exact hr

theorem Pc.lane_cached {p : SpscPc Wid α} (h : pc.lane? = some (.cached p)) :
    ∃ spin, pc = .fastSpsc spin p := by
  rcases pc.lane_cases with ⟨spin, r, rfl⟩ | hlane
  · cases h
    exact ⟨spin, rfl⟩
  · obtain ⟨r, hr, heq⟩ := Option.map_eq_some_iff.1 (hlane.symm.trans h)
    cases heq

theorem Pc.lane_of_blocks (h : Blocks op pc) : pc.lane? = none := by
  cases h <;> rfl

/-- The next place inside a shared operation, if it goes on. -/
theorem lane_access_inl {p p' : RingPc Wid α} (h : m.access K c alt p = .inl p') :
    some (LanePc.shared p') = (m.access K c alt p).getLeft?.map .shared := by
  rw [h]
  rfl

theorem lane_access_inr {p : RingPc Wid α} {res : RingRes α} (h : m.access K c alt p = .inr res) :
    none = (m.access K c alt p).getLeft?.map (.shared : RingPc Wid α → LanePc Wid α) := by
  rw [h]
  rfl

theorem lane_spscAccess_inl {p p' : SpscPc Wid α} (h : m.spscAccess K c p = .inl p') :
    some (LanePc.cached p') = (m.spscAccess K c p).getLeft?.map .cached := by
  rw [h]
  rfl

theorem lane_spscAccess_inr {p : SpscPc Wid α} {res : RingRes α} (h : m.spscAccess K c p = .inr res) :
    none = (m.spscAccess K c p).getLeft?.map (.cached : SpscPc Wid α → LanePc Wid α) := by
  rw [h]
  rfl

theorem Pc.laneStep_of_flow (hok : pc'.Ok (K.chan c) id op)
    (hflow : Pc.Flow K m id c op alt pc e pc') : Pc.LaneStep K m c alt pc pc' e := by
  -- a shared operation starts with the load of its head
  have hstart : ∀ {rop : RingOp Wid α} {e : Effect α}, pc.lane? = none → e.isLane = false →
      pc'.lane? = some (.shared (.loadHead rop)) → rop.Valid → Pc.LaneStep K m c alt pc pc' e := by
    intro rop e hlane he hlane' hop
    refine .start hlane he hlane' rfl hop fun q hq => ?_
    cases hq
  cases hflow with
  | fastIn hp => exact .shared rfl (lane_access_inl hp)
  | fastHit hp hres | fastMiss hp hres | fastMissSlow hp hres hop =>
    exact .shared rfl (lane_access_inr hp)
  | spscIn hp => exact .cached rfl (lane_spscAccess_inl hp)
  | spscHit hp hres | spscMiss hp hres | spscMissSlow hp hres hop =>
    exact .cached rfl (lane_spscAccess_inr hp)
  | burstIn hp => exact .shared rfl (lane_access_inl hp)
  | burstHit hp hres => exact .shared rfl (lane_access_inr hp)
  | burstMiss hp hres => exact .shared rfl (lane_access_inr hp)
  | serveIn hp => exact .shared rfl (lane_access_inl hp)
  | serveHit hp hres => exact .shared rfl (lane_access_inr hp)
  | serveMiss hp hres => exact .shared rfl (lane_access_inr hp)
  | slowIn hp => exact .shared rfl (lane_access_inl hp)
  | slowSendHit hp hres hop | slowSendMiss hp hres hop | slowRecvHit hp hres hop
  | slowRecvMiss hp hres hop => exact .shared rfl (lane_access_inr hp)
  | helpIn hp => exact .shared rfl (lane_access_inl hp)
  | helpHit hp hres => exact .shared rfl (lane_access_inr hp)
  | helpMiss hp hres => exact .shared rfl (lane_access_inr hp)
  | recheckIn hp => exact .shared rfl (lane_access_inl hp)
  | recheckHit hp hres => exact .shared rfl (lane_access_inr hp)
  | recheckMiss hp hres => exact .shared rfl (lane_access_inr hp)
  | backIn hp => exact .shared rfl (lane_access_inl hp)
  | backHit hp hres | backMissSend hp hres hop | backMissRecv hp hres hop =>
    exact .shared rfl (lane_access_inr hp)
  | closeIn hp => exact .shared rfl (lane_access_inl hp)
  | closeHit hp hres => exact .shared rfl (lane_access_inr hp)
  | closeMiss hp hres => exact .shared rfl (lane_access_inr hp)
  | openSpsc hopen hspsc =>
    refine .start rfl rfl rfl rfl (op.valid_ringOp id) fun q hq => ?_
    cases hq
    exact op.want_ringOp id
  | cntRecv hcnt => exact hstart rfl rfl rfl hok.2.2.2.2
  | burstOpen hopen | serveClaim hqueue hclaim hrop | slowBuffered hfree hop hcap
  | slowOpenRing hopen hcap => exact hstart rfl rfl rfl hok.2.2.2
  | helpClaim hqueue hclaim hrop => exact hstart rfl rfl rfl hok.2.2.2.2
  | enrollRing hcap | expBackRecv hback hmem hop | backOpenSend hopen hop
  | closeClaimRing hqueue hclaim hcap => exact hstart rfl rfl rfl hok.2.2.2
  | serveStopBlock hstop hblock | serveEmptyBlock hqueue hblock | servePutBackBlock hblock
  | meetEmptySend hqueue hop hblock | emptyOpen hopen hblock =>
    exact .away rfl rfl (lane_of_blocks hblock)
  | _ => exact .away rfl rfl rfl

/-- A direct call starts outside the ring operations, with a cached one or with a burst. -/
theorem Pc.lane_entry (k : ChanCfg) (id : Nat) (op : Op α) (hop : op.burst = false) :
    (Pc.entry k id op).lane? = none ∨
      (Pc.entry k id op).lane? = some (.cached (.loadHead (op.ringOp id))) := by
  have hbegins := Pc.begins_entry k id op
  have hok := Pc.ok_entry k id op
  revert hbegins hok
  generalize Pc.entry k id op = pc
  intro hbegins hok
  cases hbegins with
  | spsc => exact Or.inr rfl
  | burst => cases hop.symm.trans hok.1
  | _ => exact Or.inl rfl

end Places

/-! ## Whose operation it is -/

section Use

variable [DecidableEq T] [DecidableEq C] {K : Config T C} {s s' : Sys T C α} {l : Label T C α}
  {p q t u : T} {alt : Bool} {c d : C} {e : Effect α} {th : Thread C α} {id : Nat} {op : Op α}
  {pc : Pc α} {x y : LanePc Wid α}

theorem SpscUse.step (h : SpscUse c p q s) (hl : l.Spsc c p q) (hstep : s.Stepped K l s') :
    SpscUse c p q s' := by
  cases hstep with
  | call hidle =>
    intro id t k hcall
    rcases Sys.mem_events_startCall.1 hcall with hold | hnew
    · exact h id t k hold
    · cases hnew
      exact hl
  | ret hdone hret =>
    intro id t k hcall
    rcases Sys.mem_events_finishCall.1 hcall with hold | hnew
    · exact h id t k hold
    · cases hnew
  | move hnext hacts => exact h

omit [DecidableEq T] in
theorem SpscUse.usedBy (h : SpscUse c p q s) (hs : Sound K s) (hth : s.thread t = .direct id c op pc) :
    op.UsedBy p q t :=
  h id t (.direct c op) (hs.hist.running t id _ (by rw [hth]; rfl)) rfl

omit [DecidableEq T] in
theorem Op.UsedBy.owner (h : op.UsedBy p q t) (hop : op.single = true) : t = sideOwner p q op.side := by
  cases op with
  | send v time => exact h
  | recv time => exact h
  | _ => cases hop

omit [DecidableEq T] in
theorem Op.UsedBy.not_burst (h : op.UsedBy p q t) : op.burst = false := by
  cases op with
  | sendBurst xs => exact h.elim
  | recvBurst n => exact h.elim
  | _ => rfl

/-- The place of a thread in a ring operation on channel `c`, shared or cached. -/
def Thread.laneOn (c : C) : Thread C α → Option (LanePc Wid α)
  | .direct _ d _ pc => if d = c then pc.lane? else none
  | _ => none

/-- Thread `t` is at place `x` of an operation for the call `id` of thread `u`: for its own call, or
under the lock for a call that waits. -/
structure Sys.LaneFor (K : Config T C) (s : Sys T C α) (c : C) (t u : T) (x : LanePc Wid α) (id : Nat)
    (op : Op α) (pc : Pc α) : Prop where
  thread : s.thread u = .direct id c op pc
  single : op.single = true
  serves : x.op.Serves ⟨id, 0⟩ op.side
  place : u = t ∧ pc.lane? = some x ∨
    c ∈ (s.thread t).holds K ∧ pc.waits = true ∧ ∃ r, x = .shared r ∧ r.Fit

omit [DecidableEq T] in
theorem Thread.laneOn_eq_some (h : (s.thread t).laneOn c = some x) :
    ∃ id op pc, s.thread t = .direct id c op pc ∧ pc.lane? = some x := by
  cases hth : s.thread t with
  | idle =>
    rw [hth] at h
    cases h
  | select id cases timeout pc =>
    rw [hth] at h
    cases h
  | direct id d op pc =>
    rw [hth] at h
    obtain ⟨rfl, hlane⟩ := Option.ite_none_right_eq_some.1 h
    exact ⟨id, op, pc, rfl, hlane⟩

omit [DecidableEq T] in
theorem Thread.laneOn_direct (id : Nat) (c : C) (op : Op α) (pc : Pc α) :
    (Thread.direct id c op pc).laneOn c = pc.lane? := if_pos rfl

omit [DecidableEq T] in
theorem Thread.laneOn_of_ne (id : Nat) {c d : C} (op : Op α) (pc : Pc α) (hd : d ≠ c) :
    (Thread.direct id d op pc).laneOn c = none := if_neg hd

theorem Op.serves_ringOp (hop : op.single = true) (id : Nat) : (op.ringOp id).Serves ⟨id, 0⟩ op.side := by
  cases op with
  | send v time => exact ⟨rfl, rfl⟩
  | recv time => exact ⟨rfl, rfl⟩
  | _ => cases hop

omit [DecidableEq T] in
/-- Every ring operation on the channel is one of the two threads'. -/
theorem SpscUse.laneFor (h : SpscUse c p q s) (hv : DirectValid K s)
    (hlane : (s.thread t).laneOn c = some x) :
    ∃ id op pc, s.LaneFor K c t (sideOwner p q x.op.side) x id op pc := by
  obtain ⟨id, op, pc, hth, hpc⟩ := Thread.laneOn_eq_some hlane
  have hok := hv.toSound.direct_ok hth
  have hused := h.usedBy hv.toSound hth
  have hown : op.single = true → x.op = op.ringOp id →
      ∃ id op pc, s.LaneFor K c t (sideOwner p q x.op.side) x id op pc := by
    intro hop hx
    have hside : x.op.side = op.side := by rw [hx, Op.side_ringOp hop]
    have hwho : t = sideOwner p q x.op.side := by rw [hside]; exact hused.owner hop
    refine ⟨id, op, pc, hwho ▸ hth, hop, ?_, Or.inl ⟨hwho.symm, hpc⟩⟩
    rw [hx]
    exact Op.serves_ringOp hop id
  cases x with
  | cached r =>
    obtain ⟨spin, rfl⟩ := Pc.lane_cached hpc
    exact hown hok.1 hok.2.2.2
  | shared r =>
    have hring : (s.thread t).ring? = some (c, r) := by
      rw [hth, Thread.ring?, Pc.lane_shared hpc]
      rfl
    have hfor := Thread.ringFor (hv.ok t) hring
    rw [hth] at hfor
    generalize hth' : Thread.direct id c op pc = th' at hfor
    cases hfor with
    | single hop hruns =>
      cases hth'
      exact hown hop hruns.1
    | burst hop hruns =>
      cases hth'
      cases hop.symm.trans hused.not_burst
    | case hk hchan hruns => cases hth'
    | @waiter _ _ w o hhand hserves =>
      subst hth'
      rw [← hth] at hhand
      -- the waiter in hand belongs to the thread of its side, which waits
      obtain ⟨u, hwaits⟩ := (hv.queues.claimed t w c o hhand).1
      have hdirect := hv.direct u
      cases hu : s.thread u with
      | idle =>
        rw [hu] at hwaits
        exact hwaits.elim
      | select id' cases timeout pc' =>
        rw [hu] at hdirect
        cases hdirect
      | direct id' d op' pc' =>
        rw [hu] at hwaits
        obtain ⟨rfl, rfl, rfl, hpc'⟩ := hwaits
        have hop' := Pc.single_of_waits (hv.toSound.direct_ok hu) hpc'
        have hside : (LanePc.shared r).op.side = op'.side := hserves.1.side
        refine ⟨id', op', pc', ?_, hop', hserves.1, Or.inr ?_⟩
        · rw [hside, ← (h.usedBy hv.toSound hu).owner hop']
          exact hu
        · exact ⟨Thread.mem_holds_of_hand hhand (Or.inl rfl), hpc', r, rfl, hserves.2⟩

omit [DecidableEq T] in
theorem Sys.LaneFor.side (h : s.LaneFor K c t u x id op pc) : x.op.side = op.side := h.serves.side

theorem Pc.locked_of_lane {pc : Pc α} (h : pc.waits = true) (hlane : pc.lane? = some x) :
    pc.locked = true := by
  cases x with
  | cached r =>
    obtain ⟨spin, rfl⟩ := Pc.lane_cached hlane
    cases h
  | shared r => exact Pc.locked_of_waits h (Pc.lane_shared hlane)

omit [DecidableEq T] in
/-- At most one thread is in an operation on one side of the ring. -/
theorem SpscUse.lane_inj (h : SpscUse c p q s) (hv : DirectValid K s)
    (ht : (s.thread t).laneOn c = some x) (hu : (s.thread u).laneOn c = some y)
    (hside : x.op.side = y.op.side) : t = u := by
  obtain ⟨id, op, pc, hx⟩ := h.laneFor hv ht
  obtain ⟨id', op', pc', hy⟩ := h.laneFor hv hu
  rw [← hside] at hy
  cases hx.thread.symm.trans hy.thread
  have hheld : ∀ {w : T} {z : LanePc Wid α}, sideOwner p q x.op.side = w → pc.lane? = some z →
      pc.waits = true → c ∈ (s.thread w).holds K := by
    rintro w z rfl hz hwaits
    exact Sys.held_of_locked hx.thread (Pc.locked_of_lane hwaits hz)
  rcases hx.place with ⟨hxt, hxl⟩ | ⟨hxh, hxw, -⟩
  · rcases hy.place with ⟨hyu, -⟩ | ⟨hyh, hyw, -⟩
    · exact hxt.symm.trans hyu
    · exact hv.locks.holds_inj (hheld hxt hxl hyw) hyh
  · rcases hy.place with ⟨hyu, hyl⟩ | ⟨hyh, -, -⟩
    · exact hv.locks.holds_inj hxh (hheld hyu hyl hxw)
    · exact hv.locks.holds_inj hxh hyh

omit [DecidableEq T] in
theorem SpscUse.lane_alone (h : SpscUse c p q s) (hv : DirectValid K s)
    (ht : (s.thread t).laneOn c = some x) (u : T) (y : LanePc Wid α) (hne : u ≠ t)
    (hu : (s.thread u).laneOn c = some y) : y.op.side ≠ x.op.side :=
  fun hside => hne (h.lane_inj hv hu ht hside)

end Use

/-! ## The ring of the channel -/

/-- The ring of channel `c` and the operations under way on it, shared and cached, are in order. -/
def Sys.LaneSound [DecidableEq C] (K : Config T C) (c : C) (s : Sys T C α) : Prop :=
  LaneInv (K.chan c).ringCap (s.mem.chan c).ring (s.mem.chan c).hist fun t => (s.thread t).laneOn c

/-- The private copy of side `o` is at most `slack` positions behind what the side has used. -/
def Sys.CacheAt (K : Config T C) (c : C) (s : Sys T C α) (o : ChanOp) (slack : Nat) : Prop :=
  LibChan.CacheAt (K.chan c).ringCap (s.mem.chan c).ring (s.mem.chan c).hist o slack

section Step

variable [DecidableEq T] [DecidableEq C] {K : Config T C} {s s' : Sys T C α} {l : Label T C α}
  {p q t u : T} {alt : Bool} {c d : C} {e : Effect α} {th : Thread C α} {id : Nat} {op : Op α}
  {pc pc' : Pc α} {x y : LanePc Wid α}

theorem Sys.laneOn_move (d : C) :
    (fun u => ((s.move K t c e th).thread u).laneOn d) =
      Function.update (fun u => (s.thread u).laneOn d) t (th.laneOn d) := by
  funext u
  by_cases hu : u = t
  · subst hu
    rw [Sys.thread_move_self, Function.update_self]
  · rw [Sys.thread_move_of_ne hu, Function.update_of_ne hu]

omit [DecidableEq C] in
theorem Chan.ring_apply_of_lane (ch : Chan T α) (cap : RingCap) (he : e.isLane = false) :
    (ch.apply cap t e).ring = ch.ring ∧ (ch.apply cap t e).hist = ch.hist := by
  cases e with
  | ring weak r => cases he
  | spsc r => cases he
  | _ => exact ⟨rfl, rfl⟩

/-- A step on another channel leaves the lanes of `c`. -/
theorem Sys.LaneSound.move_of_ne (h : s.LaneSound K c) (hv : DirectValid K s)
    (hacts : s.Acts K t alt d e th) (hd : c ≠ d) : (s.move K t d e th).LaneSound K c := by
  obtain ⟨id, op, pc, pc', hth, rfl, -⟩ := hv.direct.flow hacts
  have hsame : (Thread.direct id d op pc').laneOn c = (s.thread t).laneOn c := by
    rw [hth, Thread.laneOn_of_ne id op pc' hd.symm, Thread.laneOn_of_ne id op pc hd.symm]
  rw [Sys.LaneSound, Sys.laneOn_move, hsame, Function.update_eq_self,
    show (s.move K t d e _).mem.chan c = s.mem.chan c from Mem.chan_apply_of_ne K s.mem t d e hd]
  exact h

theorem Sys.LaneSound.move (h : s.LaneSound K c) (hv : DirectValid K s) (huse : SpscUse c p q s)
    (hnear : ∀ o, s.CacheAt K c o 1) (hacts : s.Acts K t alt d e th) :
    (s.move K t d e th).LaneSound K c := by
  by_cases hd : c = d
  · subst hd
    obtain ⟨id, op, pc, pc', hth, rfl, hflow⟩ := hv.direct.flow hacts
    have hchan : (s.move K t c e (.direct id c op pc')).mem.chan c =
        (s.mem.chan c).apply (K.chan c).ringCap t e := Mem.chan_apply_self K s.mem t c e
    have hold : (s.thread t).laneOn c = pc.lane? := by rw [hth, Thread.laneOn_direct]
    rw [Sys.LaneSound, Sys.laneOn_move, Thread.laneOn_direct, hchan]
    cases Pc.laneStep_of_flow ((hv.toSound.direct_ok hth).flow hflow) hflow with
    | @shared r hlane hlane' =>
      have hlane := hold.trans hlane
      rw [hlane']
      exact LaneInv.access h alt hlane (huse.lane_alone hv hlane)
    | @cached r hlane hlane' =>
      have hlane := hold.trans hlane
      rw [hlane']
      exact LaneInv.cachedAccess h hlane (huse.lane_alone hv hlane) (hnear _)
    | start hlane he hlane' hplain hop hone =>
      rw [hlane', (Chan.ring_apply_of_lane _ _ he).1, (Chan.ring_apply_of_lane _ _ he).2]
      exact LaneInv.begin h (hold.trans hlane) hplain hop hone
    | away hlane he hlane' =>
      rw [hlane', (Chan.ring_apply_of_lane _ _ he).1, (Chan.ring_apply_of_lane _ _ he).2,
        ← hold.trans hlane, Function.update_eq_self]
      exact h
  · exact h.move_of_ne hv hacts hd

theorem Sys.LaneSound.startCall (h : s.LaneSound K c) {k : Call C α} (hk : k.Spsc c p q t)
    (hidle : s.thread t = .idle) : (s.startCall K t k).LaneSound K c := by
  have hupdate : (fun u => ((s.startCall K t k).thread u).laneOn c) =
      Function.update (fun u => (s.thread u).laneOn c) t ((Sys.startThread K s.next k).laneOn c) := by
    funext u
    by_cases hu : u = t
    · subst hu
      rw [Sys.thread_startCall_self, Function.update_self]
    · rw [Sys.thread_startCall_of_ne hu, Function.update_of_ne hu]
  have hold : (s.thread t).laneOn c = none := by
    rw [hidle]
    rfl
  rw [Sys.LaneSound, hupdate]
  have hnone : (Sys.startThread K s.next k).laneOn c = none →
      LaneInv (K.chan c).ringCap (s.mem.chan c).ring (s.mem.chan c).hist
        (Function.update (fun u => (s.thread u).laneOn c) t ((Sys.startThread K s.next k).laneOn c)) := by
    intro hnew
    rw [hnew, ← hold, Function.update_eq_self]
    exact h
  cases k with
  | select cases timeout => exact hk.elim
  | direct d op =>
    by_cases hd : d = c
    · subst hd
      rcases Pc.lane_entry (K.chan d) s.next op (hk rfl).not_burst with hlane | hlane
      · exact hnone ((Thread.laneOn_direct _ _ _ _).trans hlane)
      · rw [show (Sys.startThread K s.next (Call.direct d op)).laneOn d = _ from
          (Thread.laneOn_direct _ _ _ _).trans hlane]
        refine LaneInv.begin h hold rfl (op.valid_ringOp s.next) fun r hr => ?_
        cases hr
        exact op.want_ringOp s.next
    · exact hnone (Thread.laneOn_of_ne _ _ _ hd)

theorem Sys.LaneSound.finishCall (h : s.LaneSound K c) {r : Ret} {out : List (Option α)}
    (hret : s.Returns t id r out) : (s.finishCall t id r out).LaneSound K c := by
  have hold : (s.thread t).laneOn c = none := by
    cases hret with
    | direct hth =>
      rw [hth, Thread.laneOn]
      split <;> rfl
    | select hth => rw [hth]; rfl
  have hsame : (fun u => ((s.finishCall t id r out).thread u).laneOn c) =
      fun u => (s.thread u).laneOn c := by
    funext u
    by_cases hu : u = t
    · subst hu
      rw [Sys.thread_finishCall_self, hold]
      rfl
    · rw [Sys.thread_finishCall_of_ne hu]
  rw [Sys.LaneSound, hsame]
  exact h

end Step

end LibChan
