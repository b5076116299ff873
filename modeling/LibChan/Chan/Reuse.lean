import LibChan.Chan.Stack
import LibChan.Chan.Places

/-!
# When sharing the stack memory does no harm

As long as no call sets up its waiters in a frame into which somebody is still about to signal
(`StackSys.ReuseOk`), the system with stack memory does what `Sys` does, where every call has memory of its
own: the waiters that are queued or read lie in frames of running calls, and those hold what the calls put
there (`StackInv`). So a run of `StackSys` under that condition is a run of `Sys` (`StackSys.reaches_sys`), and
each run of `Sys` is a run of `StackSys` in which every call has a new frame (`Sys.reaches_stack`).
-/

set_option autoImplicit false

namespace LibChan

variable {T C α : Type}

/-! ## Registered calls -/

/-- The call has registered its waiter and has not executed the matching decrement. -/
def Pc.registered : Pc α → Bool
  | recheck _ | unRemove | unDecr | parkUnlock | park | expLock | expRemove | expUnlock _ => true
  | backClosed | backRing _ | backSettle _ | backUnlock | requeue | reparkUnlock | repark => true
  | decr _ => true
  | _ => false

/-- How many of its `n` stubs a select has set up and not left yet. -/
def SelPc.posted (n : Nat) : SelPc C α → Nat
  | stub i => min i n
  | unlockAll _ .park | park | lockAll _ (.clean _) | clean _ _ _ => n
  | _ => 0

/-- The select may still set up its stubs, and has not begun. -/
def SelPc.fresh : SelPc C α → Bool
  | fast1 _ _ | fast2Start | fast2 _ _ _ | lockAll _ .ready | ready _ _ _ | stub 0 => true
  | _ => false

/-- The waiter `w` of the call is set up and still in use. -/
def Thread.Live (w : Wid) : Thread C α → Prop
  | idle => False
  | direct id _ _ pc => w = ⟨id, 0⟩ ∧ pc.registered = true
  | select id cases _ pc => w.call = id ∧ w.idx < pc.posted cases.length

section Places

variable {K : Config T C} {m : Mem T C α} {id : Nat} {c : C} {op : Op α} {alt : Bool}
  {pc pc' : Pc α} {e : Effect α}

theorem Pc.not_registered_of_begins (h : Pc.Begins id op pc) : pc.registered = false := by
  cases h <;> rfl

theorem Pc.not_registered_of_blocks (h : Pc.Blocks op pc) : pc.registered = false := by
  cases h <;> rfl

theorem Pc.registered_of_waits (h : pc.waits = true) : pc.registered = true := by
  cases pc <;> first | rfl | cases h

/-- A call is registered by its `enroll` step. -/
theorem Pc.registered_of_flow (hflow : Pc.Flow K m id c op alt pc e pc') (h : pc'.registered = true) :
    pc.registered = true ∨ pc = .enroll ∧ e = .enroll op.side ⟨id, 0⟩ := by
  cases hflow with
  | enrollMeet hcap => exact .inr ⟨rfl, rfl⟩
  | enrollRing hcap => exact .inr ⟨rfl, rfl⟩
  | serveStopBlock hstop hblock | serveEmptyBlock hqueue hblock | servePutBackBlock hblock
  | meetEmptySend hqueue hop hblock | emptyOpen hopen hblock =>
    cases h.symm.trans (Pc.not_registered_of_blocks hblock)
  | _ => first | exact .inl rfl | cases h

variable [DecidableEq C] {t : T} {cases : List (Case C α)} {timeout : Int} {sp sp' : SelPc C α}

omit [DecidableEq C] in
theorem SelPc.posted_of_waits {i : Nat} (h : sp.waits i = true) (hi : i < cases.length) :
    i < sp.posted cases.length := by
  cases sp with
  | stub j => exact Nat.lt_min.2 ⟨of_decide_eq_true h, hi⟩
  | unlockAll cs k =>
    cases k with
    | ret r => cases h
    | park => exact hi
  | park => exact hi
  | lockAll cs k =>
    cases k with
    | ready => cases h
    | clean woken => exact hi
  | clean j woken winner => exact hi
  | _ => cases h

omit [DecidableEq C] in
theorem SelPc.not_waits_of_fresh {i : Nat} (h : sp.fresh = true) : sp.waits i = false := by
  cases sp with
  | stub j =>
    cases j with
    | zero => rfl
    | succ j => cases h
  | lockAll cs k =>
    cases k with
    | ready => rfl
    | clean woken => cases h
  | fast1 i st | fast2Start | fast2 a j st | ready i rdy st => rfl
  | _ => cases h

omit [DecidableEq C] in
theorem SelPc.posted_of_begins {n : Nat} (h : SelPc.Begins cases sp) : sp.posted n = 0 := by
  cases h with
  | invalid hnil => rfl
  | scan hstep => cases hstep <;> rfl

theorem SelPc.posted_of_passes {rdy : List Nat} {n : Nat} (h : SelPc.Passes K cases timeout rdy sp) :
    sp.posted n = 0 := by
  cases h with
  | wait hrdy htime => exact Nat.zero_min n
  | _ => rfl

/-- A stub is set up by its own step. -/
theorem SelPc.posted_of_flow (hflow : SelPc.Flow K m t id cases timeout alt sp c e sp') :
    sp'.posted cases.length ≤ sp.posted cases.length ∨
      ∃ i k, sp = .stub i ∧ cases[i]? = some k ∧ e = .stub k.op ⟨id, i⟩ ∧ sp' = .stub (i + 1) := by
  cases hflow with
  | fast1Skip hk hstep | fast2Start hstep | fast2Skip hk hcnt hstep | fast2Miss hk hp hres hstep =>
    cases hstep <;> exact .inl (Nat.zero_le _)
  | pass hpass | readyNot hk hpass | readySend hk hop hopen hpass | readyShut hk hop hclosed hpass
  | readyYes hk hst hpass => exact .inl (by rw [SelPc.posted_of_passes hpass]; exact Nat.zero_le _)
  | @lock c cs k hfree => cases k <;> exact .inl le_rfl
  | @unlock c cs k => cases k <;> exact .inl le_rfl
  | @stub i k hk => exact .inr ⟨i, k, rfl, hk, rfl, rfl⟩
  | @stubbed i d hi =>
    exact .inl (Nat.le_min.2 ⟨List.getElem?_eq_none_iff.1 hi, le_rfl⟩)
  | _ => exact .inl (by first | exact Nat.zero_le _ | exact le_rfl)

/-- A select that has set up no stub before and none in this step. -/
theorem SelPc.fresh_of_next_fresh (hflow : SelPc.Flow K m t id cases timeout alt sp c e sp')
    (h : sp'.fresh = true) : sp.fresh = true := by
  cases hflow with
  | @lock c cs k hfree =>
    cases k with
    | ready => rfl
    | clean woken => cases h
  | _ => first | rfl | cases h

end Places

/-! ## What a step depends on -/

section Congr

variable [DecidableEq C] {K : Config T C} {m m' : Mem T C α} {t : T} {alt : Bool}

/-- The memory `m'` looks like `m` to a thread: the channels are the same, and so is what the thread reads of
its own waiters, of the first waiters of the queues and of the waiter it has in hand. -/
structure Mem.Looks (m m' : Mem T C α) (th : Thread C α) : Prop where
  chan : m'.chan = m.chan
  tls : m'.tls = m.tls
  own : ∀ w, th.Live w → m'.signaled w.call = m.signaled w.call ∧
    (m'.waiter w).result = (m.waiter w).result
  head : ∀ c o w q, (m.chan c).queue o = w :: q → m'.claimable w = m.claimable w ∧
    (m'.waiter w).data = (m.waiter w).data
  hand : ∀ w c o, th.hand = some (w, .claimed c o) → (m'.waiter w).data = (m.waiter w).data

omit [DecidableEq C] in
theorem serveOp_congr {w : Wid} (h : (m'.waiter w).data = (m.waiter w).data) (o : ChanOp) :
    serveOp m' w o = serveOp m w o := by
  cases o with
  | send => rw [serveOp, serveOp, h]
  | recv => rfl

omit [DecidableEq C] in
theorem popNext_congr {q : List Wid} {o : ChanOp} {π : Type} {empty scan : π} {got : Wid → π}
    (h : ∀ w rest, q = w :: rest → m'.claimable w = m.claimable w) :
    popNext m' q o empty scan got = popNext m q o empty scan got := by
  cases q with
  | nil => rfl
  | cons w rest => rw [popNext, popNext, h w rest rfl]

omit [DecidableEq C] in
theorem Pc.act_congr {id : Nat} {c : C} {op : Op α} {pc : Pc α}
    (h : m.Looks m' (.direct id c op pc)) : pc.act K m' id c op alt = pc.act K m id c op alt := by
  obtain ⟨hchan, htls, hown, hhead, hhand⟩ := h
  obtain ⟨chan', waiter', signaled', state', tls'⟩ := m'
  obtain rfl : chan' = m.chan := hchan
  cases pc with
  | serve k st =>
    cases st with
    | claim =>
      show actServe K _ c op alt k .claim = actServe K m c op alt k .claim
      rw [actServe, actServe]
      cases hq : (m.chan c).queue op.side.other with
      | nil => rfl
      | cons w q =>
        obtain ⟨hclaim, hdata⟩ := hhead c _ w q hq
        simp only [hclaim, serveOp_congr hdata]
    | _ => rfl
  | meetClaim =>
    exact congrArg some (popNext_congr fun w q hq => (hhead c _ w q hq).1)
  | meetCopy w =>
    have hdata := hhand w c op.side.other rfl
    cases op with
    | send x timeout => rfl
    | _ => exact congrArg (Option.map fun x => (Effect.pair w ⟨id, 0⟩ w x, meetUnlock w)) hdata
  | helpClaim =>
    rw [act, act]
    cases hq : (m.chan c).queue .send with
    | nil => rfl
    | cons w q =>
      obtain ⟨hclaim, hdata⟩ := hhead c _ w q hq
      simp only [hclaim, serveOp_congr hdata]
  | park =>
    rw [act, act, (hown ⟨id, 0⟩ ⟨rfl, rfl⟩).1]
  | repark =>
    rw [act, act, (hown ⟨id, 0⟩ ⟨rfl, rfl⟩).1]
  | decr r =>
    rw [act, act, (hown ⟨id, 0⟩ ⟨rfl, rfl⟩).2]
  | closeClaim o =>
    exact congrArg some (popNext_congr fun w q hq => (hhead c _ w q hq).1)
  | fastCnt o spin => cases o <;> rfl
  | _ => rfl

theorem SelPc.act_congr {id : Nat} {cases : List (Case C α)} {timeout : Int} {d : C} {pc : SelPc C α}
    (hne : cases ≠ []) (hok : pc.Ok K id cases) (h : m.Looks m' (.select id cases timeout pc)) :
    pc.act K m' t id cases timeout alt d = pc.act K m t id cases timeout alt d := by
  obtain ⟨hchan, htls, hown, hhead, hhand⟩ := h
  obtain ⟨chan', waiter', signaled', state', tls'⟩ := m'
  obtain rfl : chan' = m.chan := hchan
  obtain rfl : tls' = m.tls := htls
  have hpos : 0 < cases.length := List.length_pos_iff.2 hne
  cases pc with
  | exec i st =>
    rw [act, act]
    cases hk : cases[i]? with
    | none => rfl
    | some k =>
      rw [Option.bind_some, Option.bind_some]
      congr 1
      cases st with
      | meetClaim =>
        exact congrArg some (popNext_congr fun w q hq => (hhead k.chan _ w q hq).1)
      | meetCopy w =>
        have hdata := hhand w k.chan k.op.other (by rw [Thread.hand, SelPc.hand, hk]; rfl)
        rw [actExec, actExec]
        cases k.elem with
        | some x => rfl
        | none => exact congrArg (Option.map fun x => (Effect.pair w ⟨id, i⟩ w x, exec i (.wake w))) hdata
      | helpClaim =>
        rw [actExec, actExec]
        cases hq : (m.chan k.chan).queue k.op.other with
        | nil => rfl
        | cons w q =>
          obtain ⟨hclaim, hdata⟩ := hhead k.chan _ w q hq
          simp only [hclaim, serveOp_congr hdata]
      | _ => rfl
  | park =>
    rw [act, act, (hown ⟨id, 0⟩ ⟨rfl, hpos⟩).1]
  | clean i woken winner =>
    rw [act, act]
    cases hk : cases[i]? with
    | none =>
      cases winner with
      | none => rfl
      | some j =>
        have hres := (hown ⟨id, j⟩ ⟨rfl, hok j rfl⟩).2
        exact congrArg (fun x => some (d, Effect.none, unlock K cases (.ret (if woken then
          .sel (some j) x else .sel none .timeout)))) hres
    | some k =>
      have hi : i < cases.length := (List.getElem?_eq_some_iff.1 hk).1
      show (if (waiter' ⟨id, i⟩).result ≠ .wouldblock then _ else _) = _
      rw [show (waiter' ⟨id, i⟩).result = (m.waiter ⟨id, i⟩).result from (hown ⟨id, i⟩ ⟨rfl, hi⟩).2]
  | lockAll cs k =>
    cases cs with
    | nil => cases k <;> rfl
    | cons c cs => rfl
  | unlockAll cs k =>
    cases cs with
    | nil => cases k <;> rfl
    | cons c cs => rfl
  | _ => rfl

/-- A thread does in a memory that looks the same to it what it would have done. -/
theorem Thread.act_congr {th : Thread C α} (hok : th.Ok K) (h : m.Looks m' th) :
    th.act K m' t alt = th.act K m t alt := by
  cases th with
  | idle => rfl
  | direct id c op pc => rw [Thread.act, Thread.act, Pc.act_congr h]
  | select id cases timeout pc =>
    cases cases with
    | nil => rfl
    | cons k rest =>
      rw [Thread.act, Thread.act, List.head?_cons, Option.bind_some, Option.bind_some,
        SelPc.act_congr (List.cons_ne_nil k rest) hok h]

end Congr

/-! ## The invariant -/

section Inv

variable [DecidableEq C] {K : Config T C} {s : Sys T C α} {r : StackSys T C α} {th : Thread C α} {c : C}
  {o : ChanOp} {w : Wid}

/-- The call is running. -/
def Sys.Running (s : Sys T C α) (id : Nat) : Prop := ∃ t, (s.thread t).id? = some id

/-- The frame of the call holds what the call knows of its waiter `w`. -/
structure StackSys.Placed (r : StackSys T C α) (w : Wid) : Prop where
  node : r.node (r.addr w) = ⟨w, (r.sys.mem.waiter w).result⟩
  park : r.park (r.home w.call) = r.sys.mem.signaled w.call
  state : ∀ b, r.sys.mem.selectState w.call = some b → r.state (r.home w.call) = b

/-- What holds in runs without late wakers in reused frames. Running calls have frames of their own, the
waiters in use are in place, the queues lead to the waiters that `Sys` has in them, and whoever has a
waiter in hand has no other call's frame. -/
structure StackInv (K : Config T C) (r : StackSys T C α) : Prop where
  sound : Sound K r.sys
  fresh : ∀ t id cases timeout pc, r.sys.thread t = .select id cases timeout pc → pc.fresh = true →
    r.sys.mem.selectState id = some false
  cases : ∀ t id timeout pc, r.sys.thread t = .select id [] timeout pc → ∃ x, pc = .ret x
  used : ∀ id, r.sys.Running id → r.used (r.home id) = true
  apart : ∀ id id', r.sys.Running id → r.sys.Running id' → r.home id = r.home id' → id = id'
  placed : ∀ t w, (r.sys.thread t).Live w → r.Placed w
  late : ∀ u v st, (r.sys.thread u).hand = some (v, st) → ∀ t w, (r.sys.thread t).Live w →
    r.home v.call = r.home w.call → v.call = w.call
  heap : r.heap.Refines fun p => (r.sys.mem.queues p).map r.addr
  short : ∀ p, (r.sys.mem.queues p).length ≤ r.steps

omit [DecidableEq C] in
theorem Thread.id_of_live (h : th.Live w) : th.id? = some w.call := by
  cases th with
  | idle => exact h.elim
  | direct id c op pc =>
    obtain ⟨rfl, -⟩ := h
    rfl
  | select id cases timeout pc => exact congrArg some h.1.symm

omit [DecidableEq C] in
theorem Thread.live_of_waits (h : th.Waits c o w) : th.Live w := by
  cases th with
  | idle => exact h
  | direct id d op pc => exact ⟨h.2.2.1, Pc.registered_of_waits h.2.2.2⟩
  | select id cases timeout pc =>
    obtain ⟨hid, hwaits, k, hk, -⟩ := h
    exact ⟨hid, SelPc.posted_of_waits hwaits (List.getElem?_eq_some_iff.1 hk).1⟩

omit [DecidableEq C] in
theorem Sys.Owned.running (h : s.Owned c o w) : s.Running w.call :=
  h.imp fun _ hwaits => Thread.id_of_waits hwaits

namespace StackInv

variable (h : StackInv K r)
include h

/-- Waiters of running calls have addresses of their own. -/
theorem addr_inj {w w' : Wid} (hw : r.sys.Running w.call) (hw' : r.sys.Running w'.call)
    (heq : r.addr w = r.addr w') : w = w' :=
  Wid.ext (h.apart _ _ hw hw' (congrArg Wid.call heq)) (show (r.addr w).idx = (r.addr w').idx by rw [heq])

theorem placed_of_owned (howned : r.sys.Owned c o w) : r.Placed w := by
  obtain ⟨t, hwaits⟩ := howned
  exact h.placed t w (Thread.live_of_waits hwaits)

theorem owned_of_mem (hw : w ∈ (r.sys.mem.chan c).queue o) : r.sys.Owned c o w :=
  (h.sound.queues.queue c o w hw).owned

/-- The queues lead to the waiters that are queued. -/
theorem queue_eq (c : C) (o : ChanOp) : r.queue c o = (r.sys.mem.chan c).queue o := by
  have hlen := h.short (c, o)
  rw [StackSys.queue, (h.heap.holds (c, o)).chain.walk_eq (by rwa [List.length_map]), List.map_map]
  refine (List.map_congr_left fun w hw => ?_).trans (List.map_id _)
  exact congrArg Node.data (h.placed_of_owned (h.owned_of_mem hw)).node

theorem view_chan : r.view.chan = r.sys.mem.chan := by
  funext c
  show { r.sys.mem.chan c with queue := r.queue c } = r.sys.mem.chan c
  rw [show r.queue c = (r.sys.mem.chan c).queue from funext (h.queue_eq c)]

end StackInv

omit [DecidableEq C] in
/-- What a waiter in place looks like through the view. -/
theorem StackSys.Placed.view_eq (h : r.Placed w) : r.view.waiter w = r.sys.mem.waiter w ∧
    r.view.signaled w.call = r.sys.mem.signaled w.call ∧
    r.view.selectState w.call = r.sys.mem.selectState w.call := by
  refine ⟨?_, h.park, ?_⟩
  · show Waiter.mk (r.sys.mem.waiter (r.node (r.addr w)).data).data (r.node (r.addr w)).result = _
    rw [h.node]
  · show (r.sys.mem.selectState w.call).map (fun _ => r.state (r.home w.call)) = _
    cases hstate : r.sys.mem.selectState w.call with
    | none => rfl
    | some b => exact congrArg some (h.state b hstate)

/-- What a parked select looks like through the view. -/
theorem StackInv.view_parked (h : StackInv K r) {t : T} {id : Nat} {cases : List (Case C α)} {timeout : Int}
    (hpark : r.sys.thread t = .select id cases timeout .park) :
    (∀ i < cases.length, r.view.waiter ⟨id, i⟩ = r.sys.mem.waiter ⟨id, i⟩) ∧
    r.view.signaled id = r.sys.mem.signaled id ∧ r.view.selectState id = r.sys.mem.selectState id := by
  have hlive : ∀ i < cases.length, (r.sys.thread t).Live ⟨id, i⟩ := by
    intro i hi
    rw [hpark]
    exact ⟨rfl, hi⟩
  have hpos : 0 < cases.length := by
    apply List.length_pos_iff.2
    rintro rfl
    obtain ⟨x, hx⟩ := h.cases t id timeout _ hpark
    cases hx
  exact ⟨fun i hi => (h.placed t _ (hlive i hi)).view_eq.1, (h.placed t _ (hlive 0 hpos)).view_eq.2⟩

/-- The threads see the memory as it is in `Sys`. -/
theorem StackInv.looks (h : StackInv K r) (t : T) : r.sys.mem.Looks r.view (r.sys.thread t) where
  chan := h.view_chan
  tls := rfl
  own w hw := by
    obtain ⟨hwaiter, hsignaled, -⟩ := (h.placed t w hw).view_eq
    exact ⟨hsignaled, congrArg Waiter.result hwaiter⟩
  head c o w q hq := by
    have howned : r.sys.Owned c o w := h.owned_of_mem (by rw [hq]; exact List.mem_cons_self)
    obtain ⟨hwaiter, -, hstate⟩ := (h.placed_of_owned howned).view_eq
    exact ⟨by rw [Mem.claimable, Mem.claimable, hstate], congrArg Waiter.data hwaiter⟩
  hand w c o hw := by
    obtain ⟨hwaiter, -⟩ := (h.placed_of_owned (h.sound.queues.claimed t w c o hw).1).view_eq
    exact congrArg Waiter.data hwaiter

/-- So they take the steps that they take there. -/
theorem StackInv.act_eq (h : StackInv K r) (t : T) (alt : Bool) :
    (r.sys.thread t).act K r.view t alt = (r.sys.thread t).act K r.sys.mem t alt :=
  Thread.act_congr (h.sound.ok t) (h.looks t)

end Inv

/-! ## Moves -/

/-- The waiter an effect writes to, links or unlinks. -/
def Effect.waiter? : Effect α → Option Wid
  | .claim _ w | .enroll _ w | .stub _ w | .remove _ w | .requeue _ w | .putBack _ w => some w
  | .settle w _ | .pair _ _ w _ => some w
  | _ => Option.none

section Move

variable [DecidableEq C] {K : Config T C} {s : Sys T C α} {r : StackSys T C α} {t : T} {alt : Bool} {c : C} {e : Effect α} {th : Thread C α} {w : Wid} {heap : WaitHeap (C × ChanOp) Wid}

/-- Only waiters of running calls are touched. -/
theorem SysInv.running_of_move (h : SysInv K s) (hmove : Move K s.mem c (s.thread t) th e)
    (hw : w ∈ e.waiter?) : s.Running w.call := by
  cases hmove with
  | quiet he hholds hhand hwaits => cases e <;> first | exact he.elim | cases hw
  | self hholds hhand hhand' hwaits hown hnot =>
    cases hw
    exact ⟨t, hown⟩
  | @claim o v q hqueue hclaim hheld hholds hhand hhand' hwaits =>
    cases hw
    exact (h.queues.queue c o w (by rw [hqueue]; exact List.mem_cons_self)).owned.running
  | enter he hheld hholds hhand hhand' hown hhidden hnew hwaits =>
    rcases he with ⟨rfl | rfl, -⟩ | ⟨rfl, -⟩ <;> cases hw <;> exact ⟨t, hown⟩
  | leave hheld hholds hhand hhand' hwait hwaits =>
    cases hw
    exact ⟨t, Thread.id_of_waits hwait⟩
  | @putBack o v hheld hholds hhand hhand' hwaits =>
    cases hw
    exact (h.queues.claimed t w c o hhand).1.running
  | @settle e o v he hheld hholds hhand hhand' hwaits =>
    rcases he with ⟨x, rfl⟩ | ⟨a, b, x, rfl⟩ <;> cases hw <;>
      exact (h.queues.claimed t w c o hhand).1.running
  | _ => cases hw

/-- A waiter that is in use after a step was so before, or is set up by it. -/
theorem Sys.Acts.live (hacts : s.Acts K t alt c e th) (hw : th.Live w) :
    (s.thread t).Live w ∨ ∃ o, e = .enroll o w ∨ e = .stub o w := by
  cases hacts with
  | direct hth hact =>
    obtain ⟨rfl, hreg⟩ := hw
    rw [hth]
    rcases Pc.registered_of_flow (Pc.flow_of_act hact) hreg with hreg | ⟨-, he⟩
    · exact .inl ⟨rfl, hreg⟩
    · exact .inr ⟨_, .inl he⟩
  | select hth hact =>
    obtain ⟨hid, hidx⟩ := hw
    rw [hth]
    rcases SelPc.posted_of_flow (SelPc.flow_of_act hact) with hle | ⟨i, k, rfl, hk, rfl, rfl⟩
    · exact .inl ⟨hid, Nat.lt_of_lt_of_le hidx hle⟩
    · obtain ⟨hlt, hlen⟩ := Nat.lt_min.1 hidx
      rcases Nat.lt_succ_iff_lt_or_eq.1 hlt with hlt | heq
      · exact .inl ⟨hid, Nat.lt_min.2 ⟨hlt, hlen⟩⟩
      · exact .inr ⟨k.op, .inr (by rw [show w = ⟨_, i⟩ from Wid.ext hid heq])⟩

omit [DecidableEq C] in
theorem Thread.id_of_registers {id : Nat} (h : th.registers = some id) : th.id? = some id := by
  unfold Thread.registers at h
  split at h
  · exact h
  · exact h
  · cases h

omit [DecidableEq C] in
theorem Thread.hidden_of_registers {id : Nat} (h : th.registers = some id) : th.Hidden := by
  unfold Thread.registers at h
  split at h
  · rfl
  · rfl
  · cases h

/-- A direct waiter is set up where its call registers, and is not in use before. -/
theorem Sys.Acts.enroll {o : ChanOp} (hacts : s.Acts K t alt c (.enroll o w) th) :
    (s.thread t).registers = some w.call ∧ (s.thread t).isSelect = false ∧
      ∀ v, ¬ (s.thread t).Live v := by
  cases hacts with
  | direct hth hact =>
    rw [hth]
    cases Pc.flow_of_act hact <;> exact ⟨rfl, rfl, fun v hv => absurd hv.2 Bool.false_ne_true⟩
  | select hth hact =>
    have hflow := SelPc.flow_of_act hact
    cases hflow with
    | pick hk hmem he hst => rcases he with he | ⟨v, he⟩ <;> cases he
    | execGo hk hexec => cases hexec
    | execDone hk hexec => cases hexec

/-- The first stub of a select is set up where the call registers, and none is in use before; each later
one after the first. -/
theorem Sys.Acts.stub {o : ChanOp} (hacts : s.Acts K t alt c (.stub o w) th) :
    (w.idx = 0 ∧ (s.thread t).registers = some w.call ∧ (∀ v, ¬ (s.thread t).Live v) ∧
      ∃ cases timeout pc, s.thread t = .select w.call cases timeout pc ∧ pc.fresh = true) ∨
    w.idx ≠ 0 ∧ (s.thread t).Live ⟨w.call, 0⟩ := by
  cases hacts with
  | direct hth hact => cases Pc.flow_of_act hact
  | @select id cases timeout pc pc' c d e hth hact =>
    rw [hth]
    have hflow := SelPc.flow_of_act hact
    cases hflow with
    | pick hk hmem he hst => rcases he with he | ⟨v, he⟩ <;> cases he
    | execGo hk hexec => cases hexec
    | execDone hk hexec => cases hexec
    | @stub i k hk =>
      cases i with
      | zero =>
        refine .inl ⟨rfl, rfl, ?_, cases, timeout, .stub 0, rfl, rfl⟩
        rintro v ⟨-, hlt⟩
        rw [SelPc.posted, Nat.zero_min] at hlt
        exact Nat.not_lt_zero _ hlt
      | succ i =>
        have hlen := (List.getElem?_eq_some_iff.1 hk).1
        exact .inr ⟨Nat.succ_ne_zero i, rfl, Nat.lt_min.2 ⟨Nat.succ_pos i, Nat.zero_lt_of_lt hlen⟩⟩

/-- A copy goes to the waiter that is in hand. -/
theorem StackInv.aim_eq (h : StackInv K r) (hmove : Move K r.sys.mem c (r.sys.thread t) th e) :
    r.aim e = e := by
  have hpair : ∀ a b v x, e = .pair a b v x → (r.node (r.addr v)).data = v := by
    rintro a b v x rfl
    cases hmove with
    | quiet he hholds hhand hwaits => exact he.elim
    | enter he => rcases he with ⟨he | he, -⟩ | ⟨he, -⟩ <;> cases he
    | settle he hheld hholds hhand hhand' hwaits =>
      rcases he with ⟨y, he⟩ | ⟨_, _, _, he⟩ <;> cases he
      rw [(h.placed_of_owned (h.sound.queues.claimed t v c _ hhand).1).node]
  cases e with
  | pair a b v x =>
    rw [StackSys.aim, hpair a b v x rfl]
    refine congrArg₂ (fun a b => Effect.pair a b v x) ?_ ?_
    · split
      · next ha => exact ha.symm
      · rfl
    · split
      · next hb => exact hb.symm
      · rfl
  | _ => rfl

omit [DecidableEq C] in
theorem StackSys.writeNode_eq (hnode : r.node (r.addr w) = ⟨w, (r.sys.mem.waiter w).result⟩)
    (haddr : ∀ v ∈ e.waiter?, r.addr w = r.addr v → w = v) :
    r.writeNode e (r.addr w) = ⟨w, e.resultAfter w (r.sys.mem.waiter w).result⟩ := by
  -- the waiter that is written to is `w`, or it is somewhere else
  have hwrite : ∀ v ∈ e.waiter?, ∀ x : Node, (w = v → x.data = w) →
      (if r.addr w = r.addr v then x else r.node (r.addr w)) =
        ⟨w, if w = v then x.result else (r.sys.mem.waiter w).result⟩ := by
    intro v hv x hx
    by_cases hw : w = v
    · subst hw
      rw [if_pos rfl, if_pos rfl, ← hx rfl]
    · rw [if_neg fun heq => hw (haddr v hv heq), hnode, if_neg hw]
  cases e with
  | enroll o v => exact hwrite v rfl _ Eq.symm
  | stub o v => exact hwrite v rfl _ Eq.symm
  | settle v x => exact hwrite v rfl _ fun _ => congrArg Node.data hnode
  | pair a b v x => exact hwrite v rfl _ fun _ => congrArg Node.data hnode
  | _ => exact hnode

section Stays

variable (h : StackInv K r) (hmove : Move K r.sys.mem c (r.sys.thread t) th e)
  (hacts : r.sys.Acts K t alt c e th) {u : T} (hw : (r.sys.thread u).Live w)
include h hmove hacts hw

omit hmove in
/-- The frame in which a call registers has no waiter in use. -/
theorem StackInv.home_ne_of_registers {id : Nat} (hid : (r.sys.thread t).id? = some id)
    (hnone : ∀ v, ¬ (r.sys.thread t).Live v) : r.home w.call ≠ r.home id := by
  intro heq
  have hidw := Thread.id_of_live hw
  have hcall : w.call = id := h.apart _ _ ⟨u, hidw⟩ ⟨t, hid⟩ heq
  obtain rfl : u = t := h.sound.calls.id_inj u t id (hcall ▸ hidw) hid
  exact hnone w hw

theorem StackInv.writePark_eq :
    r.writePark e (r.home w.call) = e.signalAfter w.call (r.sys.mem.signaled w.call) := by
  have hpark := (h.placed u w hw).park
  cases e with
  | enroll o v =>
    obtain ⟨hid, -, hnone⟩ := hacts.enroll
    exact (if_neg (h.home_ne_of_registers hacts hw (Thread.id_of_registers hid) hnone)).trans hpark
  | stub o v =>
    obtain ⟨id, i⟩ := v
    cases i with
    | zero =>
      rcases hacts.stub with ⟨-, hid, hnone, -⟩ | ⟨hidx, -⟩
      · exact (if_neg (h.home_ne_of_registers hacts hw (Thread.id_of_registers hid) hnone)).trans hpark
      · exact absurd rfl hidx
    | succ i => exact hpark
  | wake v =>
    obtain ⟨st, hhand, -⟩ := hmove.wake_cases
    rw [StackSys.writePark, Effect.signalAfter]
    by_cases hcall : w.call = v.call
    · rw [if_pos hcall, hcall, if_pos rfl]
    · rw [if_neg hcall, if_neg, hpark]
      exact fun heq => hcall (h.late t v st hhand u w hw heq.symm).symm
  | _ => exact hpark

theorem StackInv.writeState_eq {b : Bool}
    (hb : e.stateAfter w.call (r.sys.mem.selectState w.call) = some b) :
    r.writeState e (r.home w.call) = b := by
  have hstate := (h.placed u w hw).state
  cases e with
  | stub o v =>
    obtain ⟨id, i⟩ := v
    cases i with
    | zero =>
      rcases hacts.stub with ⟨-, hid, hnone, -⟩ | ⟨hidx, -⟩
      · have hne := h.home_ne_of_registers hacts hw (Thread.id_of_registers hid) hnone
        exact (if_neg hne).trans (hstate b hb)
      · exact absurd rfl hidx
    | succ i => exact hstate b hb
  | claim o v =>
    rw [Effect.stateAfter] at hb
    rw [StackSys.writeState]
    by_cases hcall : w.call = v.call
    · rw [if_pos hcall] at hb
      obtain ⟨b', hsome, rfl⟩ := Option.map_eq_some_iff.1 hb
      rw [← hcall, hsome, Option.isSome_some, if_pos ⟨rfl, rfl⟩]
    · rw [if_neg hcall] at hb
      have hrun := h.sound.toSysInv.running_of_move hmove (w := v) rfl
      have hne : r.home w.call ≠ r.home v.call := fun heq =>
        hcall (h.apart _ _ ⟨u, Thread.id_of_live hw⟩ hrun heq)
      exact (if_neg fun hand => hne hand.2).trans (hstate b hb)
  | _ => exact hstate b hb

variable [DecidableEq T]

/-- A waiter that stays in use stays in place. -/
theorem StackInv.placed_stays : (r.moved K t c e th heap).Placed w := by
  have hrun : r.sys.Running w.call := ⟨u, Thread.id_of_live hw⟩
  have haim := h.aim_eq hmove
  constructor
  · show r.writeNode e (r.addr w) = ⟨w, ((r.sys.mem.apply K t c (r.aim e)).waiter w).result⟩
    rw [haim, Mem.result_apply]
    exact StackSys.writeNode_eq (h.placed u w hw).node fun v hv =>
      h.addr_inj hrun (h.sound.toSysInv.running_of_move hmove hv)
  · show r.writePark e (r.home w.call) = (r.sys.mem.apply K t c (r.aim e)).signaled w.call
    rw [haim, Mem.signaled_apply]
    exact h.writePark_eq hmove hacts hw
  · intro b hb
    refine h.writeState_eq hmove hacts hw ?_
    rwa [← Mem.selectState_apply K r.sys.mem t c, ← haim]

end Stays

variable [DecidableEq T]

omit [DecidableEq T] in
/-- A call that is going to set up a waiter has not been signalled. -/
theorem StackInv.quiet_of_enter (h : StackInv K r) (hmove : Move K r.sys.mem c (r.sys.thread t) th e)
    {o : ChanOp} (he : e = .enroll o w ∨ e = .stub o w) :
    r.sys.mem.signaled w.call = false ∧ (r.sys.thread t).id? = some w.call := by
  cases hmove with
  | quiet hq => rcases he with rfl | rfl <;> exact hq.elim
  | @enter e o' v henter hheld hholds hhand hhand' hown hhidden hnew hwaits =>
    obtain rfl : v = w := by
      rcases he with rfl | rfl <;> rcases henter with ⟨he | he, -⟩ | ⟨he, -⟩ <;> cases he <;> rfl
    exact ⟨(h.sound.queues.hidden t _ hhidden hown).1, hown⟩
  | settle hs => rcases he with rfl | rfl <;> rcases hs with ⟨y, hs⟩ | ⟨_, _, _, hs⟩ <;> cases hs
  | _ => rcases he with he | he <;> cases he

/-- A waiter that is set up is in place. -/
theorem StackInv.placed_new (h : StackInv K r) (hmove : Move K r.sys.mem c (r.sys.thread t) th e)
    (hacts : r.sys.Acts K t alt c e th) {o : ChanOp} (he : e = .enroll o w ∨ e = .stub o w) :
    (r.moved K t c e th heap).Placed w := by
  obtain ⟨hquiet, hid⟩ := h.quiet_of_enter hmove he
  rcases he with rfl | rfl
  · obtain ⟨-, hsel, -⟩ := hacts.enroll
    have hnone : r.sys.mem.selectState w.call = none := by
      have hkind := h.sound.calls.state t w.call hid
      rw [hsel] at hkind
      exact Option.isSome_eq_false_iff.1 hkind |> Option.isNone_iff_eq_none.1
    have hres : ((r.sys.mem.apply K t c (.enroll o w)).waiter w).result = .ok := by
      rw [Mem.result_apply, Effect.resultAfter, if_pos rfl]
    refine ⟨?_, ?_, ?_⟩
    · exact (if_pos rfl).trans (congrArg (Node.mk w) hres.symm)
    · exact (if_pos rfl).trans hquiet.symm
    · intro b hb
      cases hnone.symm.trans hb
  · have hres : ((r.sys.mem.apply K t c (.stub o w)).waiter w).result = .wouldblock := by
      rw [Mem.result_apply, Effect.resultAfter, if_pos rfl]
    have hnode : (r.moved K t c (.stub o w) th heap).node (r.addr w) =
        ⟨w, ((r.sys.mem.apply K t c (.stub o w)).waiter w).result⟩ :=
      (if_pos rfl).trans (congrArg (Node.mk w) hres.symm)
    rcases hacts.stub with ⟨hidx, -, -, cases, timeout, pc, hth, hfresh⟩ | ⟨hidx, hlive⟩
    · -- the first stub comes with the shared park and the shared state
      obtain ⟨id, i⟩ := w
      obtain rfl : i = 0 := hidx
      refine ⟨hnode, (if_pos rfl).trans hquiet.symm, fun b hb => ?_⟩
      have hfalse := h.fresh t id cases timeout pc hth hfresh
      cases hfalse.symm.trans hb
      exact if_pos rfl
    · obtain ⟨id, i⟩ := w
      obtain ⟨j, rfl⟩ := Nat.exists_eq_succ_of_ne_zero hidx
      obtain ⟨-, hpark, hstate⟩ := h.placed t _ hlive
      exact ⟨hnode, hpark, hstate⟩

omit [DecidableEq C] in
/-- A pushed waiter is one that the step touches. -/
theorem Effect.waiter_of_pushed {op : WaitOp (C × ChanOp) Wid} (hop : e.waitOp? c = some op)
    (hw : w ∈ op.pushed?) : w ∈ e.waiter? := by
  cases e <;> cases hop <;> cases hw <;> rfl

/-- The links after a step lead to the waiters that are queued after it. -/
theorem StackInv.heap_move (h : StackInv K r) (hmove : Move K r.sys.mem c (r.sys.thread t) th e)
    (hinv : SysInv K (r.sys.move K t c e th)) : ∃ heap, r.relink c e = some heap ∧
      heap.Refines fun p => ((r.sys.move K t c e th).mem.queues p).map r.addr := by
  have hqueues : (r.sys.move K t c e th).mem.queues = _ := Mem.queues_apply r.sys.mem t c e
  rw [StackSys.relink]
  cases hop : e.waitOp? c with
  | none =>
    rw [hop, Option.elim_none] at hqueues
    rw [hqueues]
    exact ⟨r.heap, rfl, h.heap⟩
  | some op =>
    rw [hop, Option.elim_some] at hqueues
    rw [hqueues]
    have hrun : ∀ p, ∀ v ∈ r.sys.mem.queues p, r.sys.Running v.call := fun p v hv =>
      (h.owned_of_mem hv).running
    -- the pushed waiter is queued once afterwards, so it was not queued before
    have hnew : ∀ v ∈ op.pushed?, ∀ p, v ∉ r.sys.mem.queues p := by
      apply WaitOp.not_mem_of_pushed
      · rw [← hqueues]
        exact fun p => hinv.queues.nodup p.1 p.2
      · rw [← hqueues]
        exact hinv.queues_apart
    have hfresh : ∀ a ∈ (op.map r.addr).pushed?, ∀ p, a ∉ (r.sys.mem.queues p).map r.addr := by
      intro a ha p hmem
      obtain ⟨v, hv, hva⟩ := List.mem_map.1 hmem
      obtain ⟨w, hw, rfl⟩ : ∃ w ∈ op.pushed?, r.addr w = a := by
        cases op <;> cases ha <;> exact ⟨_, rfl, rfl⟩
      have hroot := h.sound.toSysInv.running_of_move hmove (Effect.waiter_of_pushed hop hw)
      obtain rfl := h.addr_inj (hrun p v hv) hroot hva
      exact hnew v hw p hv
    have hspec := op.spec_map (f := r.addr) (c := r.sys.mem.queues) (by
      rintro q w rfl v hv heq
      have hw : w ∈ e.waiter? := by cases e <;> cases hop; rfl
      exact h.addr_inj (hrun q v hv) (h.sound.toSysInv.running_of_move hmove hw) heq)
    obtain ⟨heap, n, href, hn, hexec⟩ := h.heap.exec (op.map r.addr) hfresh
    rw [hspec] at href
    have htests : n ≤ r.steps + 1 := by
      refine hn.trans ?_
      cases op with
      | remove q w =>
        have hlen := h.short q
        rw [← List.length_map (f := r.addr)] at hlen
        exact Nat.succ_le_succ hlen
      | _ => exact Nat.zero_le _
    refine ⟨heap, ?_, href⟩
    show (r.heap.exec (r.steps + 1) (op.map r.addr)).map Prod.fst = some heap
    rw [hexec, if_pos htests]
    rfl

theorem StackInv.short_move (h : StackInv K r) (p : C × ChanOp) :
    ((r.sys.move K t c e th).mem.queues p).length ≤ r.steps + 1 := by
  have hqueues : (r.sys.move K t c e th).mem.queues = _ := Mem.queues_apply r.sys.mem t c e
  rw [hqueues]
  cases e.waitOp? c with
  | none => exact (h.short p).trans (Nat.le_succ _)
  | some op => exact (op.length_spec_le _ p).trans (Nat.succ_le_succ (h.short p))

omit [DecidableEq C] in
/-- A waker that has released the lock signals in its next step. -/
theorem Thread.wakes_of_late (h : th.hand = some (w, .late)) : th.wakes = some w := by
  cases th with
  | idle => cases h
  | direct id d op pc =>
    cases pc with
    | serve k st => cases st <;> cases h
    | wakeRet v =>
      cases h
      rfl
    | _ => cases h
  | select id cases timeout pc =>
    cases pc with
    | exec i st =>
      obtain ⟨k, hk, hhand⟩ := Option.bind_eq_some_iff.1 h
      rcases SelPc.execHand_stage hhand with hst | hst <;> cases hst
    | _ => cases h

omit [DecidableEq T] in
/-- In a frame in which a call registers nobody else has a waiter in hand. -/
theorem StackInv.home_ne_of_hand (h : StackInv K r) (hreuse : r.ReuseOk (.go t alt)) {id : Nat}
    (hid : (r.sys.thread t).registers = some id) {u : T} {v : Wid} {st : Stage C}
    (hhand : (r.sys.thread u).hand = some (v, st)) (heq : r.home v.call = r.home id) : v.call = id := by
  have hrun : r.sys.Running id := ⟨t, Thread.id_of_registers hid⟩
  cases st with
  | claimed d o => exact h.apart _ _ (h.sound.queues.claimed u v d o hhand).1.running hrun heq
  | settled d o => exact h.apart _ _ (h.sound.queues.settled u v d o hhand).running hrun heq
  | late => exact absurd heq (hreuse id hid u v (Thread.wakes_of_late hhand))

/-- Nobody has a waiter in the frame of another call in hand after a step either. -/
theorem StackInv.late_move (h : StackInv K r) (hnext : (r.sys.thread t).Next K r.sys.mem c th e)
    (hacts : r.sys.Acts K t alt c e th) (hreuse : r.ReuseOk (.go t alt)) {u u' : T} {v : Wid}
    {st : Stage C} (hhand : ((r.sys.move K t c e th).thread u).hand = some (v, st))
    (hlive : ((r.sys.move K t c e th).thread u').Live w) (heq : r.home v.call = r.home w.call) :
    v.call = w.call := by
  have hid : ∀ t', ((r.sys.move K t c e th).thread t').id? = (r.sys.thread t').id? :=
    Sys.move_congr Thread.id? hnext.id
  have hrun : r.sys.Running w.call := ⟨u', (hid u').symm.trans (Thread.id_of_live hlive)⟩
  -- the waiter was in hand before, or it is one of a running call
  obtain ⟨u₀, st₀, hold⟩ | hnew : (∃ u₀ st₀, (r.sys.thread u₀).hand = some (v, st₀)) ∨
      r.sys.Running v.call := by
    rcases Sys.hand_move hhand with ⟨rfl, hth⟩ | ⟨hne, hth⟩
    · rcases hnext.move.hand_source hth with ⟨st₀, hold⟩ | ⟨o, rfl, -, hmem, -⟩
      · exact .inl ⟨_, st₀, hold⟩
      · exact .inr (h.owned_of_mem hmem).running
    · exact .inl ⟨u, st, hth⟩
  swap
  · exact h.apart _ _ hnew hrun heq
  by_cases hu : u' = t
  · subst hu
    rw [Sys.thread_move_self] at hlive
    rcases hacts.live hlive with hlive | ⟨o, rfl | rfl⟩
    · exact h.late u₀ v st₀ hold u' w hlive heq
    · exact h.home_ne_of_hand hreuse hacts.enroll.1 hold heq
    · rcases hacts.stub with ⟨-, hreg, -⟩ | ⟨-, hfirst⟩
      · exact h.home_ne_of_hand hreuse hreg hold heq
      · exact h.late u₀ v st₀ hold u' ⟨w.call, 0⟩ hfirst heq
  · rw [Sys.thread_move_of_ne hu] at hlive
    exact h.late u₀ v st₀ hold u' w hlive heq

omit [DecidableEq T] in
/-- A select that has not begun to set up its stubs has not been claimed. -/
theorem StackInv.unclaimed_of_fresh (h : StackInv K r) {u : T} {id : Nat} {cases : List (Case C α)}
    {timeout : Int} {pc : SelPc C α} (hu : r.sys.thread u = .select id cases timeout pc)
    (hfresh : pc.fresh = true) (hmove : Move K r.sys.mem c (r.sys.thread t) th e) :
    e.stateAfter id (r.sys.mem.selectState id) = some false := by
  have hfalse := h.fresh u id cases timeout pc hu hfresh
  cases e with
  | claim o v =>
    rw [Effect.stateAfter, if_neg, hfalse]
    rintro rfl
    cases hmove with
    | quiet he => exact he.elim
    | enter he => rcases he with ⟨he | he, -⟩ | ⟨he, -⟩ <;> cases he
    | settle he => rcases he with ⟨y, he⟩ | ⟨_, _, _, he⟩ <;> cases he
    | claim hqueue =>
      obtain ⟨t', hwaits⟩ := h.owned_of_mem (o := o) (by rw [hqueue]; exact List.mem_cons_self)
      obtain rfl : t' = u := h.sound.calls.id_inj t' u v.call (Thread.id_of_waits hwaits) (by rw [hu]; rfl)
      rw [hu] at hwaits
      cases hwaits.2.1.symm.trans (SelPc.not_waits_of_fresh hfresh)
  | _ => exact hfalse

/-- The invariant is kept by the steps inside calls. -/
theorem StackInv.move (h : StackInv K r) (hnext : (r.sys.thread t).Next K r.sys.mem c th e)
    (hacts : r.sys.Acts K t alt c e th) (hreuse : r.ReuseOk (.go t alt)) :
    ∃ r', r.move K t c e th = some r' ∧ r'.sys = r.sys.move K t c e th ∧ StackInv K r' := by
  have hsound := h.sound.step (.move hnext hacts)
  have haim := h.aim_eq hnext.move
  obtain ⟨heap, hrelink, hheap⟩ := h.heap_move hnext.move hsound.toSysInv
  have hsys : (r.moved K t c e th heap).sys = r.sys.move K t c e th := by
    rw [StackSys.moved, haim]
  have hid : ∀ t', ((r.sys.move K t c e th).thread t').id? = (r.sys.thread t').id? :=
    Sys.move_congr Thread.id? hnext.id
  have hrun : ∀ id, (r.sys.move K t c e th).Running id → r.sys.Running id := fun id =>
    Exists.imp fun t' ht' => (hid t').symm.trans ht'
  refine ⟨r.moved K t c e th heap, ?_, hsys, ?_⟩
  · rw [StackSys.move, hrelink]
    rfl
  constructor
  · rwa [hsys]
  · rw [hsys]
    intro t' id cases timeout pc hth hfresh
    refine (Mem.selectState_apply K r.sys.mem t c e id).trans ?_
    by_cases ht : t' = t
    · subst ht
      rw [Sys.thread_move_self] at hth
      subst hth
      cases hacts with
      | select hth hact =>
        exact h.unclaimed_of_fresh hth (SelPc.fresh_of_next_fresh (SelPc.flow_of_act hact) hfresh) hnext.move
    · rw [Sys.thread_move_of_ne ht] at hth
      exact h.unclaimed_of_fresh hth hfresh hnext.move
  · rw [hsys]
    intro t' id timeout pc hth
    by_cases ht : t' = t
    · subst ht
      rw [Sys.thread_move_self] at hth
      subst hth
      cases hacts with
      | select hth hact =>
        obtain ⟨x, rfl⟩ := h.cases t' _ _ _ hth
        cases hact
    · rw [Sys.thread_move_of_ne ht] at hth
      exact h.cases t' id timeout pc hth
  · rw [hsys]
    exact fun id hid' => h.used id (hrun id hid')
  · rw [hsys]
    exact fun id id' h₁ h₂ => h.apart id id' (hrun id h₁) (hrun id' h₂)
  · rw [hsys]
    intro t' w hw
    by_cases ht : t' = t
    · subst ht
      rw [Sys.thread_move_self] at hw
      rcases hacts.live hw with hw | ⟨o, he⟩
      · exact h.placed_stays hnext.move hacts hw
      · exact h.placed_new hnext.move hacts he
    · rw [Sys.thread_move_of_ne ht] at hw
      exact h.placed_stays hnext.move hacts hw
  · rw [hsys]
    exact fun u v st hhand t' w hlive heq => h.late_move hnext hacts hreuse hhand hlive heq
  · rw [hsys]
    exact hheap
  · rw [hsys]
    exact h.short_move

end Move

/-! ## Calls and returns -/

section Calls

variable [DecidableEq T] [DecidableEq C] {K : Config T C} {r r' : StackSys T C α} {t : T} {w : Wid}

omit [DecidableEq T] in
/-- A call that starts has set up no waiter. -/
theorem Thread.not_live_startThread (id : Nat) (k : Call C α) : ¬ (Sys.startThread K id k).Live w := by
  cases k with
  | direct c op =>
    rintro ⟨-, hreg⟩
    cases hreg.symm.trans (Pc.not_registered_of_begins (Pc.begins_entry (K.chan c) id op))
  | select cases timeout =>
    rintro ⟨-, hlt⟩
    rw [SelPc.posted_of_begins (SelPc.begins_entry cases)] at hlt
    exact Nat.not_lt_zero _ hlt

theorem StackInv.startCall (h : StackInv K r) {k : Call C α} {f : Nat}
    (hidle : r.sys.thread t = .idle) (hf : r.used f = false) : StackInv K (r.startCall K t k f) := by
  have hlt : ∀ id, r.sys.Running id → id < r.sys.next := by
    rintro id ⟨t', hid⟩
    exact h.sound.calls.id_lt t' id hid
  have hhome : ∀ id, id < r.sys.next → (r.startCall K t k f).home id = r.home id := fun id hid =>
    Function.update_of_ne (Nat.ne_of_lt hid) _ _
  have hnew : (r.startCall K t k f).home r.sys.next = f := Function.update_self _ _ _
  have hrun : ∀ id, (r.startCall K t k f).sys.Running id → r.sys.Running id ∨ id = r.sys.next := by
    rintro id ⟨t', hid⟩
    by_cases ht : t' = t
    · subst ht
      rw [show (r.startCall K t' k f).sys.thread t' = _ from Sys.thread_startCall_self,
        (Sys.begun_startThread K r.sys.next k).id] at hid
      exact .inr (Option.some.inj hid).symm
    · rw [show (r.startCall K t k f).sys.thread t' = _ from Sys.thread_startCall_of_ne ht] at hid
      exact .inl ⟨t', hid⟩
  have hlive : ∀ t' w, ((r.startCall K t k f).sys.thread t').Live w → (r.sys.thread t').Live w := by
    intro t' w hw
    by_cases ht : t' = t
    · subst ht
      rw [show (r.startCall K t' k f).sys.thread t' = _ from Sys.thread_startCall_self] at hw
      exact absurd hw (Thread.not_live_startThread _ _)
    · rwa [show (r.startCall K t k f).sys.thread t' = _ from Sys.thread_startCall_of_ne ht] at hw
  have hstate : ∀ id, id < r.sys.next →
      (r.startCall K t k f).sys.mem.selectState id = r.sys.mem.selectState id := by
    intro id hid
    cases k with
    | direct c op => rfl
    | select cases timeout => exact Function.update_of_ne (Nat.ne_of_lt hid) _ _
  -- a waiter of an earlier call is where it was
  have hqueues : ∀ p, ((r.startCall K t k f).sys.mem.queues p).map (r.startCall K t k f).addr =
      (r.sys.mem.queues p).map r.addr := by
    intro p
    refine List.map_congr_left fun w hw => ?_
    exact Wid.ext (hhome _ (hlt _ (h.owned_of_mem hw).running)) rfl
  have hused : ∀ id, r.sys.Running id → r.home id ≠ f := by
    rintro id hid rfl
    cases hf.symm.trans (h.used id hid)
  constructor
  · exact h.sound.step (.call hidle)
  · intro t' id cases timeout pc hth hfresh
    by_cases ht : t' = t
    · subst ht
      rw [show (r.startCall K t' k f).sys.thread t' = _ from Sys.thread_startCall_self] at hth
      cases k with
      | direct c op => cases hth
      | select cases' timeout' =>
        cases hth
        exact Function.update_self _ _ _
    · rw [show (r.startCall K t k f).sys.thread t' = _ from Sys.thread_startCall_of_ne ht] at hth
      have hid : r.sys.Running id := ⟨t', by rw [hth]; rfl⟩
      rw [hstate id (hlt id hid)]
      exact h.fresh t' id cases timeout pc hth hfresh
  · intro t' id timeout pc hth
    by_cases ht : t' = t
    · subst ht
      rw [show (r.startCall K t' k f).sys.thread t' = _ from Sys.thread_startCall_self] at hth
      cases k with
      | direct c op => cases hth
      | select cases' timeout' =>
        cases hth
        exact ⟨_, rfl⟩
    · rw [show (r.startCall K t k f).sys.thread t' = _ from Sys.thread_startCall_of_ne ht] at hth
      exact h.cases t' id timeout pc hth
  · intro id hid
    rcases hrun id hid with hid | rfl
    · rw [hhome id (hlt id hid)]
      exact (Function.update_of_ne (hused id hid) _ _).trans (h.used id hid)
    · rw [hnew]
      exact Function.update_self _ _ _
  · intro id id' hid hid' heq
    rcases hrun id hid with hid | rfl <;> rcases hrun id' hid' with hid' | rfl
    · rw [hhome id (hlt id hid), hhome id' (hlt id' hid')] at heq
      exact h.apart id id' hid hid' heq
    · rw [hhome id (hlt id hid), hnew] at heq
      exact absurd heq (hused id hid)
    · rw [hhome id' (hlt id' hid'), hnew] at heq
      exact absurd heq.symm (hused id' hid')
    · rfl
  · intro t' w hw
    have hw := hlive t' w hw
    have hcall := hlt w.call ⟨t', Thread.id_of_live hw⟩
    obtain ⟨hnode, hpark, hstate'⟩ := h.placed t' w hw
    have haddr : (r.startCall K t k f).addr w = r.addr w := Wid.ext (hhome _ hcall) rfl
    have hwaiter : (r.startCall K t k f).sys.mem.waiter w = r.sys.mem.waiter w :=
      if_neg (Nat.ne_of_lt hcall)
    refine ⟨?_, ?_, ?_⟩
    · rw [haddr, hwaiter]
      exact hnode
    · rw [hhome _ hcall]
      exact hpark
    · rw [hhome _ hcall, hstate _ hcall]
      exact hstate'
  · intro u v st hhand t' w hw heq
    have hw := hlive t' w hw
    have hhand' : (r.sys.thread u).hand = some (v, st) := by
      by_cases hu : u = t
      · subst hu
        rw [show (r.startCall K u k f).sys.thread u = _ from Sys.thread_startCall_self,
          (Sys.begun_startThread K r.sys.next k).hand] at hhand
        cases hhand
      · rwa [show (r.startCall K t k f).sys.thread u = _ from Sys.thread_startCall_of_ne hu] at hhand
    rw [hhome _ (h.sound.queues.hand u v st hhand').lt,
      hhome _ (hlt w.call ⟨t', Thread.id_of_live hw⟩)] at heq
    exact h.late u v st hhand' t' w hw heq
  · rw [show (fun p => ((r.startCall K t k f).sys.mem.queues p).map (r.startCall K t k f).addr) = _ from
      funext hqueues]
    exact h.heap
  · exact h.short

omit [DecidableEq C] in
theorem StackInv.finishCall [DecidableEq C] (h : StackInv K r) {id : Nat} {x : Ret}
    {out : List (Option α)} (hdone : (r.sys.thread t).Done K id) (hret : r.sys.Returns t id x out) :
    StackInv K (r.finishCall t id x out) := by
  have hthread : ∀ t', (r.finishCall t id x out).sys.thread t' = r.sys.thread t' ∧ t' ≠ t ∨
      (r.finishCall t id x out).sys.thread t' = .idle := by
    intro t'
    by_cases ht : t' = t
    · subst ht
      exact .inr Sys.thread_finishCall_self
    · exact .inl ⟨Sys.thread_finishCall_of_ne ht, ht⟩
  have hrun : ∀ id', (r.finishCall t id x out).sys.Running id' → r.sys.Running id' ∧ id' ≠ id := by
    rintro id' ⟨t', hid⟩
    rcases hthread t' with ⟨hth, hne⟩ | hth
    · rw [hth] at hid
      refine ⟨⟨t', hid⟩, ?_⟩
      rintro rfl
      exact hne (h.sound.calls.id_inj t' t id' hid hdone.id)
    · rw [hth] at hid
      cases hid
  have hlive : ∀ t' w, ((r.finishCall t id x out).sys.thread t').Live w → (r.sys.thread t').Live w := by
    intro t' w hw
    rcases hthread t' with ⟨hth, -⟩ | hth
    · rwa [hth] at hw
    · rw [hth] at hw
      exact hw.elim
  constructor
  · exact h.sound.step (l := .go t false) (.ret hdone hret)
  · intro t' id' cases timeout pc hth hfresh
    rcases hthread t' with ⟨hth', -⟩ | hth'
    · exact h.fresh t' id' cases timeout pc (hth'.symm.trans hth) hfresh
    · cases hth'.symm.trans hth
  · intro t' id' timeout pc hth
    rcases hthread t' with ⟨hth', -⟩ | hth'
    · exact h.cases t' id' timeout pc (hth'.symm.trans hth)
    · cases hth'.symm.trans hth
  · intro id' hid
    obtain ⟨hid', hne⟩ := hrun id' hid
    refine (Function.update_of_ne ?_ _ _).trans (h.used id' hid')
    exact fun heq => hne (h.apart id' id hid' ⟨t, hdone.id⟩ heq)
  · exact fun id₁ id₂ h₁ h₂ => h.apart id₁ id₂ (hrun id₁ h₁).1 (hrun id₂ h₂).1
  · intro t' w hw
    obtain ⟨hnode, hpark, hstate⟩ := h.placed t' w (hlive t' w hw)
    exact ⟨hnode, hpark, hstate⟩
  · intro u v st hhand t' w hw
    rcases hthread u with ⟨hth, -⟩ | hth
    · exact h.late u v st (by rwa [hth] at hhand) t' w (hlive t' w hw)
    · rw [hth] at hhand
      cases hhand
  · exact h.heap
  · exact h.short

/-! ## Runs -/

/-- The invariant is kept by every step, which is a step of `Sys`. -/
theorem StackInv.step (h : StackInv K r) {l : StackLabel T C α} (hreuse : r.ReuseOk l)
    (hstep : r.step K l = some r') : r.sys.step K l.label = some r'.sys ∧ StackInv K r' := by
  cases l with
  | call t k f =>
    simp only [StackSys.step] at hstep
    split at hstep
    · next hidle =>
      obtain ⟨hf, heq⟩ := Option.ite_none_left_eq_some.1 hstep
      cases heq
      refine ⟨?_, h.startCall hidle (Bool.eq_false_iff.2 hf)⟩
      show r.sys.step K (.call t k) = _
      rw [Sys.step, hidle]
      rfl
    · cases hstep
  | go t alt =>
    have hgo := Sys.step_go K r.sys t alt
    rw [StackSys.step] at hstep
    cases hret : (r.sys.thread t).returns r.sys.mem with
    | some x =>
      obtain ⟨id, x, out⟩ := x
      rw [hret] at hstep hgo
      cases hstep
      obtain ⟨hdone, hreturns⟩ := Sys.done_of_returns hret
      exact ⟨hgo, h.finishCall hdone hreturns⟩
    | none =>
      rw [hret] at hstep hgo
      obtain ⟨⟨c, e, th⟩, hact, hmove⟩ := Option.bind_eq_some_iff.1 hstep
      rw [h.act_eq t alt] at hact
      obtain ⟨hnext, hacts⟩ := Sys.acts_of_act (h.sound.locks.wf t) hact
      obtain ⟨r'', hmove', hsys, hinv⟩ := h.move hnext hacts hreuse
      cases hmove.symm.trans hmove'
      refine ⟨hgo.trans ?_, hinv⟩
      rw [hact, hsys]
      rfl

omit [DecidableEq T] in
theorem StackInv.init (slots : C → U32 → α) : StackInv K (StackSys.init slots : StackSys T C α) where
  sound := Sound.init slots
  fresh _ _ _ _ _ h := by cases h
  cases _ _ _ _ h := by cases h
  used _ h := by obtain ⟨t, ht⟩ := h; cases ht
  apart _ _ h := by obtain ⟨t, ht⟩ := h; cases ht
  placed _ _ h := h.elim
  late _ _ _ h := by cases h
  heap := .init _
  short _ := Nat.zero_le _

/-- A run with stack memory in which no call sets up its waiters in a frame that somebody is still about to
signal is a run of `Sys`. -/
theorem StackSys.reaches_sys (ok' : Sys T C α → Label T C α → Prop)
    {ok : StackSys T C α → StackLabel T C α → Prop} {r₀ : StackSys T C α} (h₀ : StackInv K r₀)
    (hok : ∀ r l, StackInv K r → ok r l → r.ReuseOk l ∧ ok' r.sys l.label)
    (hrun : Reaches (StackSys.step K) ok r₀ r) :
    Reaches (Sys.step K) ok' r₀.sys r.sys ∧ StackInv K r := by
  apply hrun.invariant (P := fun r => Reaches (Sys.step K) ok' r₀.sys r.sys ∧ StackInv K r)
  · exact ⟨.refl, h₀⟩
  rintro r l r' ⟨hreach, hinv⟩ hl hstep
  obtain ⟨hreuse, hl'⟩ := hok r l hinv hl
  obtain ⟨hsys, hinv'⟩ := hinv.step hreuse hstep
  exact ⟨hreach.tail ⟨l.label, hl', hsys⟩, hinv'⟩

/-- Every call so far has a frame of its own. -/
structure StackSys.Unshared (r : StackSys T C α) : Prop where
  home : ∀ id < r.sys.next, r.home id = id
  used : ∀ f, r.used f = true → f < r.sys.next

omit [DecidableEq T] in
/-- Nobody signals into a frame that only one call has had. -/
theorem StackSys.Unshared.reuseOk (h : r.Unshared) (hinv : StackInv K r) (l : StackLabel T C α) :
    r.ReuseOk l := by
  cases l with
  | call t k f => trivial
  | go t alt =>
    intro id hid u w hw heq
    have hrun := Thread.id_of_registers hid
    obtain ⟨st, hhand⟩ := Thread.hand_of_wakes hw
    rw [h.home _ (hinv.sound.queues.hand u w st hhand).lt, h.home _ (hinv.sound.calls.id_lt t id hrun)] at heq
    exact (hinv.sound.queues.hidden t id (Thread.hidden_of_registers hid) hrun).2 u w st hhand heq

/-- A step of `Sys` can be taken with stack memory, by a call in a new frame. -/
theorem StackInv.exists_step (h : StackInv K r) (hun : r.Unshared) {l : Label T C α} {s' : Sys T C α}
    (hstep : r.sys.step K l = some s') : ∃ l' r', l'.label = l ∧ r.step K l' = some r' ∧ r'.sys = s' ∧
      StackInv K r' ∧ r'.Unshared := by
  cases l with
  | call t k =>
    simp only [Sys.step] at hstep
    split at hstep
    · next hidle =>
      cases hstep
      have hfree : r.used r.sys.next = false :=
        Bool.eq_false_iff.2 fun hused => Nat.lt_irrefl _ (hun.used _ hused)
      refine ⟨.call t k r.sys.next, r.startCall K t k r.sys.next, rfl, ?_, rfl, h.startCall hidle hfree,
        ?_, ?_⟩
      · rw [StackSys.step, hidle]
        exact if_neg (Bool.eq_false_iff.1 hfree)
      · intro id hid
        by_cases heq : id = r.sys.next
        · subst heq
          exact Function.update_self _ _ _
        · have hlt : id < r.sys.next := Nat.lt_of_le_of_ne (Nat.le_of_lt_succ hid) heq
          exact (Function.update_of_ne heq _ _).trans (hun.home id hlt)
      · intro f hf
        by_cases heq : f = r.sys.next
        · subst heq
          exact Nat.lt_succ_self _
        · have hused : r.used f = true := (Function.update_of_ne heq _ _).symm.trans hf
          exact Nat.lt_succ_of_lt (hun.used f hused)
    · cases hstep
  | go t alt =>
    have hreuse := hun.reuseOk h (.go t alt)
    rw [Sys.step_go] at hstep
    cases hret : (r.sys.thread t).returns r.sys.mem with
    | some x =>
      obtain ⟨id, x, out⟩ := x
      rw [hret] at hstep
      cases hstep
      have hstep : r.step K (.go t alt) = some (r.finishCall t id x out) := by
        rw [StackSys.step, hret]
      refine ⟨.go t alt, _, rfl, hstep, rfl, (h.step hreuse hstep).2, hun.home, fun f hf => ?_⟩
      by_cases heq : f = r.home id
      · rw [heq] at hf
        cases (Function.update_self _ _ _).symm.trans hf
      · exact hun.used f ((Function.update_of_ne heq _ _).symm.trans hf)
    | none =>
      rw [hret] at hstep
      obtain ⟨⟨c, e, th⟩, hact, heq⟩ := Option.map_eq_some_iff.1 hstep
      cases heq
      obtain ⟨hnext, hacts⟩ := Sys.acts_of_act (h.sound.locks.wf t) hact
      obtain ⟨r', hmove, hsys, hinv⟩ := h.move hnext hacts hreuse
      refine ⟨.go t alt, r', rfl, ?_, hsys, hinv, ?_⟩
      · rw [StackSys.step, hret]
        show ((r.sys.thread t).act K r.view t alt).bind _ = _
        rw [h.act_eq t alt, hact]
        exact hmove
      · obtain ⟨heap, -, rfl⟩ := Option.map_eq_some_iff.1 hmove
        exact ⟨hun.home, hun.used⟩

/-- Every run of `Sys` is one with stack memory, in which each call has a new frame. -/
theorem Sys.reaches_stack {ok : StackSys T C α → StackLabel T C α → Prop}
    {ok' : Sys T C α → Label T C α → Prop} {slots : C → U32 → α} {s : Sys T C α}
    (hok : ∀ r l, StackInv K r → r.ReuseOk l → ok' r.sys l.label → ok r l)
    (hrun : Reaches (Sys.step K) ok' (Sys.init slots) s) :
    ∃ r : StackSys T C α, Reaches (StackSys.step K) ok (StackSys.init slots) r ∧ r.sys = s ∧
      StackInv K r ∧ r.Unshared := by
  apply hrun.invariant (P := fun s => ∃ r : StackSys T C α,
    Reaches (StackSys.step K) ok (StackSys.init slots) r ∧ r.sys = s ∧ StackInv K r ∧ r.Unshared)
  · refine ⟨_, .refl, rfl, .init slots, fun id hid => absurd hid (Nat.not_lt_zero id), ?_⟩
    intro f hf
    cases hf
  rintro s l s' ⟨r, hreach, rfl, hinv, hun⟩ hl hstep
  obtain ⟨l', r', rfl, hstep', hsys, hinv', hun'⟩ := hinv.exists_step hun hstep
  exact ⟨r', hreach.tail ⟨l', hok r l' hinv (hun.reuseOk hinv l') hl, hstep'⟩, hsys, hinv', hun'⟩

end Calls

end LibChan
