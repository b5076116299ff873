import LibChan.Chan.System

/-!
# What one step can do to the others

A thread matters to the other threads through three things: the channel locks it holds, the waiter it
has taken off a queue and not woken yet (its hand), and its own waiters that others may find queued.
`Move` lists the ways a step can change these, together with the effect that goes with each change.
Every step of a direct call or of a select is one of them (`Thread.move_of_direct`,
`Thread.move_of_select`), so an invariant about locks, queues and hands is proved by cases on `Move`
and not by cases on the places of the code.
-/

set_option autoImplicit false

namespace LibChan

/-- How far a thread is with a waiter it has taken off queue `o` of channel `c`: claimed, settled
(its result is written) under the lock, or settled with the lock released and still to be woken. -/
inductive Stage (C : Type)
  | claimed (c : C) (o : ChanOp)
  | settled (c : C) (o : ChanOp)
  | late
  deriving DecidableEq

namespace Pc

variable {C α : Type}

/-- The places at which a direct call holds the lock of its channel. -/
def locked : Pc α → Bool
  | fastClosed _ | fastCnt _ _ | fastRing _ _ | fastSpsc _ _ | burstClosed | burstRing _ => false
  | fastAfter _ | serveLock _ | slowLock | wakeRet _ | park | expLock | repark => false
  | decr _ | ret _ | closeLock | lenTail | lenHead _ => false
  | _ => true

/-- The waiter in the hands of a direct call. -/
def hand (c : C) (op : Op α) : Pc α → Option (Wid × Stage C)
  | serve _ (.ring w _) => some (w, .claimed c op.side.other)
  | serve _ (.putBack w) => some (w, .claimed c op.side.other)
  | serve _ (.settle w) => some (w, .claimed c op.side.other)
  | serve _ (.wake w) => some (w, .settled c op.side.other)
  | meetCopy w => some (w, .claimed c op.side.other)
  | meetUnlock w => some (w, .settled c op.side.other)
  | helpRing w _ => some (w, .claimed c .send)
  | helpPutBack w => some (w, .claimed c .send)
  | helpSettle w => some (w, .claimed c .send)
  | helpUnlock w => some (w, .settled c .send)
  | wakeRet w => some (w, .late)
  | closeRing w _ => some (w, .claimed c .recv)
  | closeSettle o w _ => some (w, .claimed c o)
  | closeWake o w => some (w, .settled c o)
  | _ => none

/-- The places at which the waiter of a direct call may be queued or in other hands. -/
def waits : Pc α → Bool
  | recheck _ | unRemove | parkUnlock | park | expLock | expRemove | reparkUnlock | repark => true
  | _ => false

/-- The places at which no other thread can have claimed the waiter of a direct call, and from which
it may still be queued: before the registration, and after the backstop took it back. -/
def hidden : Pc α → Bool
  | fastClosed _ | fastCnt _ _ | fastRing _ _ | fastSpsc _ _ | slowLock | slowClosed => true
  | slowRing _ | serve .block _ | meetClaim | emptyClosed | enroll => true
  | backClosed | backRing _ | requeue => true
  | _ => false

end Pc

namespace SelPc

variable {T C α : Type} [DecidableEq C]

/-- The channels a select holds locked. -/
def held (K : Config T C) (cases : List (Case C α)) : SelPc C α → List C
  | lockAll cs _ => (locks K cases).take ((locks K cases).length - cs.length)
  | ready _ _ _ => locks K cases
  | pick _ => locks K cases
  | exec _ _ => locks K cases
  | stub _ => locks K cases
  | clean _ _ _ => locks K cases
  | unlockAll cs _ => cs
  | _ => []

/-- The waiter in the hands of a select that executes case `k`. -/
def execHand (k : Case C α) : ExecPc α → Option (Wid × Stage C)
  | .meetCopy w => some (w, .claimed k.chan k.op.other)
  | .helpRing w _ => some (w, .claimed k.chan k.op.other)
  | .helpSettle w => some (w, .claimed k.chan k.op.other)
  | .wake w => some (w, .settled k.chan k.op.other)
  | _ => none

/-- The waiter in the hands of a select. -/
def hand (cases : List (Case C α)) : SelPc C α → Option (Wid × Stage C)
  | exec i st => (cases[i]?).bind fun k => execHand k st
  | _ => none

/-- The places at which stub `i` of a select may be queued or in other hands. -/
def waits (i : Nat) : SelPc C α → Bool
  | stub j => i < j
  | unlockAll _ .park => true
  | park => true
  | lockAll _ (.clean _) => true
  | clean j _ _ => j ≤ i
  | _ => false

/-- The places at which no other thread can have claimed a stub of a select, and from which stubs may
still be registered; the stubs that are queued already are protected by the locks. -/
def hidden : SelPc C α → Bool
  | fast1 _ _ | fast2Start | fast2 _ _ _ | lockAll _ .ready | ready _ _ _ | stub _ => true
  | _ => false

/-- `lock_all` works down the list of locks. -/
def Wf (K : Config T C) (cases : List (Case C α)) : SelPc C α → Prop
  | lockAll cs _ => ∃ hs, locks K cases = hs ++ cs
  | _ => True

end SelPc

namespace Thread

variable {T C α : Type} [DecidableEq C]

/-- The number of the call a thread is in. -/
def id? : Thread C α → Option Nat
  | idle => none
  | direct id _ _ _ => some id
  | select id _ _ _ => some id

/-- The channels a thread holds locked. -/
def holds (K : Config T C) : Thread C α → List C
  | idle => []
  | direct _ c _ pc => if pc.locked then [c] else []
  | select _ cases _ pc => pc.held K cases

/-- The waiter a thread has taken off a queue and not woken yet. -/
def hand : Thread C α → Option (Wid × Stage C)
  | idle => none
  | direct _ c op pc => pc.hand c op
  | select _ cases _ pc => pc.hand cases

/-- The thread owns waiter `w`, it belongs to queue `o` of channel `c`, and others may find it there
or have it in their hands. -/
def Waits (c : C) (o : ChanOp) (w : Wid) : Thread C α → Prop
  | idle => False
  | direct id c' op pc => c = c' ∧ o = op.side ∧ w = ⟨id, 0⟩ ∧ pc.waits = true
  | select id cases _ pc =>
    w.call = id ∧ pc.waits w.idx = true ∧ ∃ k, cases[w.idx]? = some k ∧ k.chan = c ∧ k.op = o

/-- No other thread can have claimed a waiter of the call, and it may still register some. -/
def Hidden : Thread C α → Prop
  | idle => False
  | direct _ _ _ pc => pc.hidden = true
  | select _ _ _ pc => pc.hidden = true

/-- The thread is in a select. -/
def isSelect : Thread C α → Bool
  | select _ _ _ _ => true
  | _ => false

/-- The lock list of a select is worked down in order. -/
def Wf (K : Config T C) : Thread C α → Prop
  | select _ cases _ pc => pc.Wf K cases
  | _ => True

end Thread

/-- Effects that touch no lock, queue, park, result or select state. -/
def Effect.Quiet {α : Type} : Effect α → Prop
  | .none | .ring _ _ | .spsc _ | .decr _ _ | .setClosed | .bumpRr | .setRng _ => True
  | _ => False

/-- The ways a step on channel `c` can change what the thread holds, has in hand and waits for. -/
inductive Move {T C α : Type} [DecidableEq C] (K : Config T C) (m : Mem T C α) (c : C)
    (th th' : Thread C α) : Effect α → Prop
  | quiet {e : Effect α} (he : e.Quiet) (hholds : th'.holds K = th.holds K)
      (hhand : th'.hand = th.hand) (hwaits : ∀ d o w, th'.Waits d o w ↔ th.Waits d o w) :
      Move K m c th th' e
  /-- A waiter that waits no longer writes its own result. -/
  | self {w : Wid} {r : ChanErr} (hholds : th'.holds K = th.holds K) (hhand : th.hand = none)
      (hhand' : th'.hand = none) (hwaits : ∀ d o w, th'.Waits d o w ↔ th.Waits d o w)
      (hown : th.id? = some w.call) (hnot : ∀ d o, ¬ th.Waits d o w) :
      Move K m c th th' (.settle w r)
  | lock (hfree : (m.chan c).lock = none) (hholds : th'.holds K = th.holds K ++ [c])
      (hhand : th.hand = none) (hhand' : th'.hand = none)
      (hwaits : ∀ d o w, th'.Waits d o w ↔ th.Waits d o w) : Move K m c th th' .lock
  | unlock (hholds : th.holds K = c :: th'.holds K)
      (hhand : th.hand = none ∧ th'.hand = none ∨
        ∃ w o, th.hand = some (w, .settled c o) ∧ th'.hand = some (w, .late))
      (hwaits : ∀ d o w, th'.Waits d o w ↔ th.Waits d o w) : Move K m c th th' .unlock
  | claim {o : ChanOp} {w : Wid} {q : List Wid} (hqueue : (m.chan c).queue o = w :: q)
      (hclaim : m.claimable w = true) (hheld : c ∈ th.holds K)
      (hholds : th'.holds K = th.holds K) (hhand : th.hand = none)
      (hhand' : th'.hand = some (w, .claimed c o))
      (hwaits : ∀ d o w, th'.Waits d o w ↔ th.Waits d o w) : Move K m c th th' (.claim o w)
  | drop {o : ChanOp} {w : Wid} {q : List Wid} (hqueue : (m.chan c).queue o = w :: q)
      (hclaim : m.claimable w = false) (hheld : c ∈ th.holds K)
      (hholds : th'.holds K = th.holds K) (hhand : th'.hand = th.hand)
      (hwaits : ∀ d o w, th'.Waits d o w ↔ th.Waits d o w) : Move K m c th th' (.drop o)
  | enter {e : Effect α} {o : ChanOp} {w : Wid}
      (he : (e = .enroll o w ∨ e = .requeue o w) ∧ th.isSelect = false ∨
        e = .stub o w ∧ th.isSelect = true) (hheld : c ∈ th.holds K)
      (hholds : th'.holds K = th.holds K) (hhand : th.hand = none) (hhand' : th'.hand = none)
      (hown : th.id? = some w.call) (hhidden : th.Hidden) (hnew : ¬ th.Waits c o w)
      (hwaits : ∀ d o' w', th'.Waits d o' w' ↔ th.Waits d o' w' ∨ d = c ∧ o' = o ∧ w' = w) :
      Move K m c th th' e
  | leave {o : ChanOp} {w : Wid} (hheld : c ∈ th.holds K) (hholds : th'.holds K = th.holds K)
      (hhand : th.hand = none) (hhand' : th'.hand = none) (hwait : th.Waits c o w)
      (hwaits : ∀ d o' w', th'.Waits d o' w' ↔ th.Waits d o' w' ∧ ¬ (d = c ∧ o' = o ∧ w' = w)) :
      Move K m c th th' (.remove o w)
  /-- A select skips a stub that has a result. -/
  | skip {o : ChanOp} {w : Wid} (hselect : th.isSelect = true) (hheld : c ∈ th.holds K) (hholds : th'.holds K = th.holds K)
      (hhand : th.hand = none) (hhand' : th'.hand = none) (hwait : th.Waits c o w)
      (hresult : (m.waiter w).result ≠ .wouldblock)
      (hwaits : ∀ d o' w', th'.Waits d o' w' ↔ th.Waits d o' w' ∧ ¬ (d = c ∧ o' = o ∧ w' = w)) :
      Move K m c th th' .none
  /-- A direct call sees its park signalled. -/
  | woken {o : ChanOp} {w : Wid} {id : Nat} {op : Op α} {pc : Pc α}
      (hth : th = .direct id c op pc) (hsignaled : m.signaled w.call = true)
      (hholds : th'.holds K = th.holds K) (hhand : th.hand = none) (hhand' : th'.hand = none)
      (hwait : th.Waits c o w)
      (hwaits : ∀ d o' w', th'.Waits d o' w' ↔ th.Waits d o' w' ∧ ¬ (d = c ∧ o' = o ∧ w' = w)) :
      Move K m c th th' .none
  | putBack {o : ChanOp} {w : Wid} (hheld : c ∈ th.holds K)
      (hholds : th'.holds K = th.holds K) (hhand : th.hand = some (w, .claimed c o))
      (hhand' : th'.hand = none) (hwaits : ∀ d o w, th'.Waits d o w ↔ th.Waits d o w) :
      Move K m c th th' (.putBack o w)
  | settle {e : Effect α} {o : ChanOp} {w : Wid}
      (he : (∃ r, e = .settle w r) ∨ ∃ s r x, e = .pair s r w x) (hheld : c ∈ th.holds K)
      (hholds : th'.holds K = th.holds K) (hhand : th.hand = some (w, .claimed c o))
      (hhand' : th'.hand = some (w, .settled c o))
      (hwaits : ∀ d o w, th'.Waits d o w ↔ th.Waits d o w) : Move K m c th th' e
  | wake {w : Wid} {st : Stage C} (hholds : th'.holds K = th.holds K)
      (hhand : th.hand = some (w, st))
      (hstage : st = .late ∨ ∃ d o, st = .settled d o ∧ d ∈ th.holds K)
      (hhand' : th'.hand = none) (hwaits : ∀ d o w, th'.Waits d o w ↔ th.Waits d o w) :
      Move K m c th th' (.wake w)

/-! ## Direct calls -/

section Direct

variable {T C α : Type} [DecidableEq C] {K : Config T C} {m : Mem T C α} {id : Nat} {c : C}
  {op : Op α} {alt : Bool} {pc pc' : Pc α} {e : Effect α}

/-- The lock, the hand and the waiting of a direct call in one. -/
def Pc.view (c : C) (op : Op α) (pc : Pc α) : Bool × Option (Wid × Stage C) × Bool :=
  (pc.locked, pc.hand c op, pc.waits)

theorem ringNext_ind {π : Type} {cap : RingCap} {r : Ring α} {weak : Bool} {p : RingPc Wid α}
    {inside : RingPc Wid α → π} {after : RingRes α → π} (P : π → Prop)
    (hinside : ∀ p', P (inside p')) (hafter : ∀ res, P (after res)) :
    P (ringNext cap r weak p inside after) := by
  rw [ringNext]
  split
  · exact hinside _
  · exact hafter _

theorem spscNext_ind {π : Type} {cap : RingCap} {r : Ring α} {p : SpscPc Wid α}
    {inside : SpscPc Wid α → π} {after : RingRes α → π} (P : π → Prop)
    (hinside : ∀ p', P (inside p')) (hafter : ∀ res, P (after res)) :
    P (spscNext cap r p inside after) := by
  rw [spscNext]
  split
  · exact hinside _
  · exact hafter _

omit [DecidableEq C] in
theorem Pc.view_block : (block op).view c op = (true, none, false) := by
  rw [block]
  split <;> rfl

omit [DecidableEq C] in
theorem Pc.view_served (k : ServeEnd) : (served op k).view c op = (true, none, false) := by
  cases k with
  | leave r => rfl
  | block => exact view_block

omit [DecidableEq C] in
theorem Pc.view_attempt (k : ChanCfg) (spin : Nat) :
    (attempt k id op spin).view c op = (false, none, false) := by
  unfold attempt
  split
  · rfl
  · split <;> rfl

omit [DecidableEq C] in
theorem Pc.view_missed (spin : Nat) :
    (missed K c id op spin).view c op = (false, none, false) := by
  unfold missed
  split
  · split
    · rfl
    · exact view_attempt _ _
  · rfl

omit [DecidableEq C] in
theorem Pc.view_entry (k : ChanCfg) : (entry k id op).view c op = (false, none, false) := by
  unfold entry
  split
  · split
    · exact view_attempt _ _
    · rfl
  · split
    · exact view_attempt _ _
    · rfl
  · split <;> rfl
  · split <;> rfl
  · rfl
  · split <;> rfl

/-! The lock, the hand and the waiting of the thread read off the view of its place. -/

theorem Thread.holds_of_view {l b : Bool} {h : Option (Wid × Stage C)}
    (hv : pc.view c op = (l, h, b)) :
    (Thread.direct id c op pc).holds K = if l then [c] else [] := by
  cases hv
  rfl

omit [DecidableEq C] in
theorem Thread.hand_of_view {l b : Bool} {h : Option (Wid × Stage C)}
    (hv : pc.view c op = (l, h, b)) : (Thread.direct id c op pc).hand = h := by
  cases hv
  rfl

omit [DecidableEq C] in
theorem Thread.waits_of_view {l b : Bool} {h : Option (Wid × Stage C)}
    (hv : pc.view c op = (l, h, b)) (d : C) (o : ChanOp) (w : Wid) :
    (Thread.direct id c op pc).Waits d o w ↔ d = c ∧ o = op.side ∧ w = ⟨id, 0⟩ ∧ b = true := by
  cases hv
  rfl

theorem Move.of_view (he : e.Quiet) (hview : pc'.view c op = pc.view c op) :
    Move K m c (.direct id c op pc) (.direct id c op pc') e := by
  refine .quiet he ?_ ?_ fun d o w => ?_
  · rw [Thread.holds_of_view hview, Thread.holds_of_view rfl]
  · rw [Thread.hand_of_view hview, Thread.hand_of_view rfl]
  · rw [Thread.waits_of_view hview, Thread.waits_of_view rfl]

theorem Move.lock_view {b : Bool} (hfree : (m.chan c).lock = none)
    (hv : pc.view c op = (false, none, b)) (hv' : pc'.view c op = (true, none, b)) :
    Move K m c (.direct id c op pc) (.direct id c op pc') .lock := by
  refine .lock hfree ?_ (Thread.hand_of_view hv) (Thread.hand_of_view hv') fun d o w => ?_
  · rw [Thread.holds_of_view hv, Thread.holds_of_view hv']
    rfl
  · rw [Thread.waits_of_view hv, Thread.waits_of_view hv']

theorem Move.unlock_view {b : Bool} {h : Option (Wid × Stage C)}
    (hv : pc.view c op = (true, h, b)) (hv' : pc'.view c op = (false, none, b) ∧ h = none ∨
      ∃ w o, pc'.view c op = (false, some (w, .late), b) ∧ h = some (w, .settled c o)) :
    Move K m c (.direct id c op pc) (.direct id c op pc') .unlock := by
  rcases hv' with ⟨hv', rfl⟩ | ⟨w, o, hv', rfl⟩
  · refine .unlock ?_ (Or.inl ⟨Thread.hand_of_view hv, Thread.hand_of_view hv'⟩) fun d o w => ?_
    · rw [Thread.holds_of_view hv, Thread.holds_of_view hv']
      rfl
    · rw [Thread.waits_of_view hv, Thread.waits_of_view hv']
  · refine .unlock ?_ (Or.inr ⟨w, o, Thread.hand_of_view hv, Thread.hand_of_view hv'⟩)
      fun d o w => ?_
    · rw [Thread.holds_of_view hv, Thread.holds_of_view hv']
      rfl
    · rw [Thread.waits_of_view hv, Thread.waits_of_view hv']

theorem Move.claim_view {b : Bool} {o : ChanOp} {w : Wid} {q : List Wid}
    (hqueue : (m.chan c).queue o = w :: q) (hclaim : m.claimable w = true)
    (hv : pc.view c op = (true, none, b))
    (hv' : pc'.view c op = (true, some (w, .claimed c o), b)) :
    Move K m c (.direct id c op pc) (.direct id c op pc') (.claim o w) := by
  refine .claim hqueue hclaim ?_ ?_ (Thread.hand_of_view hv) (Thread.hand_of_view hv')
    fun d o w => ?_
  · rw [Thread.holds_of_view hv]
    exact List.mem_singleton.2 rfl
  · rw [Thread.holds_of_view hv, Thread.holds_of_view hv']
  · rw [Thread.waits_of_view hv, Thread.waits_of_view hv']

theorem Move.drop_view {b : Bool} {o : ChanOp} {w : Wid} {q : List Wid}
    (hqueue : (m.chan c).queue o = w :: q) (hclaim : m.claimable w = false)
    (hv : pc.view c op = (true, none, b)) :
    Move K m c (.direct id c op pc) (.direct id c op pc) (.drop o) := by
  refine .drop hqueue hclaim ?_ rfl rfl fun _ _ _ => Iff.rfl
  rw [Thread.holds_of_view hv]
  exact List.mem_singleton.2 rfl

theorem Move.enter_view (he : e = .enroll op.side ⟨id, 0⟩ ∨ e = .requeue op.side ⟨id, 0⟩)
    (hhidden : pc.hidden = true) (hv : pc.view c op = (true, none, false)) (hv' : pc'.view c op = (true, none, true)) :
    Move K m c (.direct id c op pc) (.direct id c op pc') e := by
  refine .enter (o := op.side) (w := ⟨id, 0⟩) (Or.inl ⟨he, rfl⟩) ?_ ?_ (Thread.hand_of_view hv)
    (Thread.hand_of_view hv') rfl hhidden ?_ fun d o w => ?_
  · rw [Thread.holds_of_view hv]
    exact List.mem_singleton.2 rfl
  · rw [Thread.holds_of_view hv, Thread.holds_of_view hv']
  · rw [Thread.waits_of_view hv]
    simp
  · rw [Thread.waits_of_view hv, Thread.waits_of_view hv']
    simp

theorem Move.leave_view (hv : pc.view c op = (true, none, true))
    (hv' : pc'.view c op = (true, none, false)) :
    Move K m c (.direct id c op pc) (.direct id c op pc') (.remove op.side ⟨id, 0⟩) := by
  refine .leave ?_ ?_ (Thread.hand_of_view hv) (Thread.hand_of_view hv') ?_ fun d o w => ?_
  · rw [Thread.holds_of_view hv]
    exact List.mem_singleton.2 rfl
  · rw [Thread.holds_of_view hv, Thread.holds_of_view hv']
  · rw [Thread.waits_of_view hv]
    simp
  · rw [Thread.waits_of_view hv, Thread.waits_of_view hv']
    simp

theorem Move.putBack_view {o : ChanOp} {w : Wid} {b : Bool}
    (hv : pc.view c op = (true, some (w, .claimed c o), b))
    (hv' : pc'.view c op = (true, none, b)) :
    Move K m c (.direct id c op pc) (.direct id c op pc') (.putBack o w) := by
  refine .putBack ?_ ?_ (Thread.hand_of_view hv) (Thread.hand_of_view hv') fun d o w => ?_
  · rw [Thread.holds_of_view hv]
    exact List.mem_singleton.2 rfl
  · rw [Thread.holds_of_view hv, Thread.holds_of_view hv']
  · rw [Thread.waits_of_view hv, Thread.waits_of_view hv']

theorem Move.settle_view {o : ChanOp} {w : Wid} {b : Bool}
    (he : (∃ r, e = .settle w r) ∨ ∃ s r x, e = .pair s r w x)
    (hv : pc.view c op = (true, some (w, .claimed c o), b))
    (hv' : pc'.view c op = (true, some (w, .settled c o), b)) :
    Move K m c (.direct id c op pc) (.direct id c op pc') e := by
  refine .settle he ?_ ?_ (Thread.hand_of_view hv) (Thread.hand_of_view hv') fun d o w => ?_
  · rw [Thread.holds_of_view hv]
    exact List.mem_singleton.2 rfl
  · rw [Thread.holds_of_view hv, Thread.holds_of_view hv']
  · rw [Thread.waits_of_view hv, Thread.waits_of_view hv']

theorem Move.wake_view {w : Wid} {l b : Bool} {st : Stage C}
    (hst : st = .late ∨ l = true ∧ ∃ o, st = .settled c o)
    (hv : pc.view c op = (l, some (w, st), b)) (hv' : pc'.view c op = (l, none, b)) :
    Move K m c (.direct id c op pc) (.direct id c op pc') (.wake w) := by
  refine .wake ?_ (Thread.hand_of_view hv) ?_ (Thread.hand_of_view hv') fun d o w => ?_
  · rw [Thread.holds_of_view hv, Thread.holds_of_view hv']
  · rcases hst with hst | ⟨rfl, o, rfl⟩
    · exact Or.inl hst
    · refine Or.inr ⟨c, o, rfl, ?_⟩
      rw [Thread.holds_of_view hv]
      exact List.mem_singleton.2 rfl
  · rw [Thread.waits_of_view hv, Thread.waits_of_view hv']

theorem Move.woken_view {l : Bool} (hsignaled : m.signaled id = true)
    (hv : pc.view c op = (l, none, true)) (hv' : pc'.view c op = (l, none, false)) :
    Move K m c (.direct id c op pc) (.direct id c op pc') .none := by
  refine .woken (o := op.side) (w := ⟨id, 0⟩) rfl hsignaled ?_ (Thread.hand_of_view hv)
    (Thread.hand_of_view hv') ?_ fun d o w => ?_
  · rw [Thread.holds_of_view hv, Thread.holds_of_view hv']
  · rw [Thread.waits_of_view hv]
    simp
  · rw [Thread.waits_of_view hv, Thread.waits_of_view hv']
    simp

theorem Move.self_view {r : ChanErr} {l : Bool} (hv : pc.view c op = (l, none, false))
    (hv' : pc'.view c op = (l, none, false)) :
    Move K m c (.direct id c op pc) (.direct id c op pc') (.settle ⟨id, 0⟩ r) := by
  refine .self ?_ (Thread.hand_of_view hv) (Thread.hand_of_view hv') (fun d o w => ?_) rfl
    fun d o => ?_
  · rw [Thread.holds_of_view hv, Thread.holds_of_view hv']
  · rw [Thread.waits_of_view hv, Thread.waits_of_view hv']
  · rw [Thread.waits_of_view hv]
    simp

/-- One round of `waitq_pop_sender` or `waitq_pop_receiver`. -/
theorem Move.of_popNext {o : ChanOp} {empty scan : Pc α} {got : Wid → Pc α} {b : Bool}
    (h : popNext m ((m.chan c).queue o) o empty scan got = (e, pc'))
    (hv : pc.view c op = (true, none, b)) (hempty : empty.view c op = (true, none, b))
    (hscan : scan = pc) (hgot : ∀ w, (got w).view c op = (true, some (w, .claimed c o), b)) :
    Move K m c (.direct id c op pc) (.direct id c op pc') e := by
  unfold popNext at h
  split at h
  · cases h
    exact .of_view trivial (hempty.trans hv.symm)
  · next w q hq =>
    split at h
    · next hclaim =>
      cases h
      exact .claim_view hq hclaim hv (hgot w)
    · next hclaim =>
      cases h
      subst hscan
      exact .drop_view hq (Bool.eq_false_iff.2 hclaim) hv

/-- The steps of the hand-over loop. -/
theorem Move.of_actServe {k : ServeEnd} {st : ServePc α}
    (h : Pc.actServe K m c op alt k st = some (e, pc')) :
    Move K m c (.direct id c op (.serve k st)) (.direct id c op pc') e := by
  cases st with
  | first =>
    cases h
    exact .of_view trivial rfl
  | second a =>
    simp only [Pc.actServe, Option.some.injEq, Prod.mk.injEq] at h
    obtain ⟨rfl, rfl⟩ := h
    refine .of_view trivial ?_
    split
    · exact Pc.view_served k
    · rfl
  | claim =>
    simp only [Pc.actServe] at h
    split at h
    · cases h
      exact .of_view trivial (Pc.view_served k)
    · next w q hq =>
      split at h
      · next hclaim =>
        obtain ⟨rop, hrop, heq⟩ := Option.map_eq_some_iff.1 h
        cases heq
        exact .claim_view hq hclaim rfl rfl
      · next hclaim =>
        cases h
        exact .drop_view hq (Bool.eq_false_iff.2 hclaim) rfl
  | ring w p =>
    simp only [Pc.actServe, Option.some.injEq, Prod.mk.injEq] at h
    obtain ⟨rfl, rfl⟩ := h
    refine .of_view trivial (ringNext_ind (fun q => Pc.view c op q = _) (fun _ => rfl) fun res => ?_)
    split <;> rfl
  | putBack w =>
    cases h
    exact .putBack_view rfl (Pc.view_served k)
  | settle w =>
    cases h
    exact .settle_view (Or.inl ⟨.ok, rfl⟩) rfl rfl
  | wake w =>
    cases h
    exact .wake_view (Or.inr ⟨rfl, _, rfl⟩) rfl rfl

/-- A ring access of a place whose successors look the same to the others. -/
theorem Move.of_ringNext {cap : RingCap} {r : Ring α} {p : RingPc Wid α}
    {inside : RingPc Wid α → Pc α} {after : RingRes α → Pc α}
    (h : (Effect.ring alt p, ringNext cap r alt p inside after) = (e, pc'))
    (hinside : ∀ p', (inside p').view c op = pc.view c op)
    (hafter : ∀ res, (after res).view c op = pc.view c op) :
    Move K m c (.direct id c op pc) (.direct id c op pc') e := by
  cases h
  exact .of_view trivial (ringNext_ind (fun q => Pc.view c op q = _) hinside hafter)

/-- Every step of a direct call is a move. -/
theorem Move.of_act (h : pc.act K m id c op alt = some (e, pc')) :
    Move K m c (.direct id c op pc) (.direct id c op pc') e := by
  cases pc with
  | fastClosed spin =>
    cases h
    refine .of_view trivial ?_
    split
    · rfl
    · split
      · split <;> rfl
      · split
        · rfl
        · exact Pc.view_attempt _ _
  | fastCnt o spin =>
    cases o with
    | send => cases h; refine .of_view trivial ?_; split <;> rfl
    | recv => cases h; refine .of_view trivial ?_; split <;> rfl
  | fastRing spin p =>
    refine .of_ringNext (Option.some.inj h) (fun _ => rfl) fun res => ?_
    split
    · exact Pc.view_missed spin
    · rfl
  | fastSpsc spin p =>
    cases h
    refine .of_view trivial (spscNext_ind (fun q => Pc.view c op q = _) (fun _ => rfl) fun res => ?_)
    split
    · exact Pc.view_missed spin
    · rfl
  | burstClosed => cases h; refine .of_view trivial ?_; split <;> rfl
  | burstRing p =>
    refine .of_ringNext (Option.some.inj h) (fun _ => rfl) fun res => ?_
    split <;> rfl
  | fastAfter r => cases h; refine .of_view trivial ?_; split <;> rfl
  | serveLock r =>
    obtain ⟨hfree, heq⟩ := Option.ite_none_right_eq_some.1 h
    cases heq
    exact .lock_view hfree rfl rfl
  | serve k st => exact .of_actServe h
  | slowLock =>
    obtain ⟨hfree, heq⟩ := Option.ite_none_right_eq_some.1 h
    cases heq
    refine .lock_view hfree rfl ?_
    split
    · rfl
    · split <;> rfl
  | slowClosed =>
    cases h
    refine .of_view trivial ?_
    split
    · rfl
    · split <;> rfl
  | slowRing p =>
    refine .of_ringNext (Option.some.inj h) (fun _ => rfl) fun res => ?_
    split
    · rfl
    · split <;> rfl
  | meetClaim =>
    refine .of_popNext (Option.some.inj h) rfl ?_ rfl fun _ => rfl
    split
    · exact Pc.view_block
    · rfl
  | meetCopy w =>
    simp only [Pc.act] at h
    split at h
    · cases h
      exact .settle_view (Or.inr ⟨_, _, _, rfl⟩) rfl rfl
    · obtain ⟨x, -, heq⟩ := Option.map_eq_some_iff.1 h
      cases heq
      exact .settle_view (Or.inr ⟨_, _, _, rfl⟩) rfl rfl
  | meetUnlock w => cases h; exact .unlock_view rfl (Or.inr ⟨w, _, rfl, rfl⟩)
  | helpClaim =>
    simp only [Pc.act] at h
    split at h
    · cases h
      exact .of_view trivial rfl
    · next w q hq =>
      split at h
      · next hclaim =>
        obtain ⟨rop, hrop, heq⟩ := Option.map_eq_some_iff.1 h
        cases heq
        exact .claim_view hq hclaim rfl rfl
      · next hclaim =>
        cases h
        exact .drop_view hq (Bool.eq_false_iff.2 hclaim) rfl
  | helpRing w p =>
    refine .of_ringNext (Option.some.inj h) (fun _ => rfl) fun res => ?_
    split <;> rfl
  | helpPutBack w => cases h; exact .putBack_view rfl rfl
  | helpSettle w => cases h; exact .settle_view (Or.inl ⟨_, rfl⟩) rfl rfl
  | helpUnlock w => cases h; exact .unlock_view rfl (Or.inr ⟨w, _, rfl, rfl⟩)
  | wakeRet w => cases h; exact .wake_view (Or.inl rfl) rfl rfl
  | emptyClosed =>
    cases h
    refine .of_view trivial ?_
    split
    · rfl
    · exact Pc.view_block
  | enroll =>
    cases h
    refine .enter_view (Or.inl rfl) rfl rfl ?_
    split <;> rfl
  | recheck p =>
    refine .of_ringNext (Option.some.inj h) (fun _ => rfl) fun res => ?_
    split <;> rfl
  | unRemove => cases h; exact .leave_view rfl rfl
  | unDecr => cases h; refine .of_view trivial ?_; split <;> rfl
  | parkUnlock => cases h; exact .unlock_view rfl (Or.inl ⟨rfl, rfl⟩)
  | park =>
    simp only [Pc.act] at h
    split at h
    · split at h
      · cases h; exact .of_view trivial rfl
      · cases h
    · split at h
      · next hsig =>
        cases h
        exact .woken_view hsig rfl rfl
      · cases h
  | expLock =>
    obtain ⟨hfree, heq⟩ := Option.ite_none_right_eq_some.1 h
    cases heq
    exact .lock_view hfree rfl rfl
  | expRemove =>
    cases h
    refine .leave_view rfl ?_
    split
    · split
      · split <;> rfl
      · rfl
    · rfl
  | expUnlock still => cases h; exact .unlock_view rfl (Or.inl ⟨rfl, rfl⟩)
  | backClosed =>
    cases h
    refine .of_view trivial ?_
    split
    · rfl
    · split <;> rfl
  | backRing p =>
    refine .of_ringNext (Option.some.inj h) (fun _ => rfl) fun res => ?_
    split
    · split <;> rfl
    · rfl
  | backSettle e => cases h; exact .self_view rfl rfl
  | backUnlock => cases h; exact .unlock_view rfl (Or.inl ⟨rfl, rfl⟩)
  | requeue => cases h; exact .enter_view (Or.inr rfl) rfl rfl rfl
  | reparkUnlock => cases h; exact .unlock_view rfl (Or.inl ⟨rfl, rfl⟩)
  | repark =>
    obtain ⟨hsig, heq⟩ := Option.ite_none_right_eq_some.1 h
    cases heq
    exact .woken_view hsig rfl rfl
  | decr r => cases h; exact .of_view trivial rfl
  | unlockRet r => cases h; exact .unlock_view rfl (Or.inl ⟨rfl, rfl⟩)
  | ret r => cases h
  | closeLock =>
    obtain ⟨hfree, heq⟩ := Option.ite_none_right_eq_some.1 h
    cases heq
    exact .lock_view hfree rfl rfl
  | closeTest => cases h; refine .of_view trivial ?_; split <;> rfl
  | closeStore => cases h; exact .of_view trivial rfl
  | closeClaim o =>
    refine .of_popNext (Option.some.inj h) rfl ?_ rfl fun w => ?_
    · split <;> rfl
    · cases o with
      | send => rfl
      | recv => simp only; split <;> rfl
  | closeRing w p =>
    exact .of_ringNext (Option.some.inj h) (fun _ => rfl) fun res => rfl
  | closeSettle o w e => cases h; exact .settle_view (Or.inl ⟨_, rfl⟩) rfl rfl
  | closeWake o w => cases h; exact .wake_view (Or.inr ⟨rfl, _, rfl⟩) rfl rfl
  | lenTail => cases h; exact .of_view trivial rfl
  | lenHead pt => cases h; exact .of_view trivial rfl

/-! ### Waiting and hidden calls -/

omit [DecidableEq C] in
theorem Pc.hand_of_waits (h : pc.waits = true) : pc.hand c op = none := by
  cases pc with
  | recheck p | unRemove | parkUnlock | park | expLock | expRemove | reparkUnlock | repark => rfl
  | _ => cases h

theorem Pc.not_waits_of_hidden (h : pc.hidden = true) : pc.waits = false := by
  cases pc with
  | recheck p | unRemove | parkUnlock | park | expLock | expRemove | reparkUnlock | repark =>
    cases h
  | _ => rfl

omit [DecidableEq C] in
/-- A thread that waits has nothing in its hands. -/
theorem Thread.hand_of_waits {th : Thread C α} {o : ChanOp} {w : Wid} (h : th.Waits c o w) :
    th.hand = none := by
  cases th with
  | idle => rfl
  | direct id d op pc => exact Pc.hand_of_waits h.2.2.2
  | select id cases timeout pc =>
    cases pc with
    | exec i st => exact absurd h.2.1 Bool.false_ne_true
    | _ => rfl

omit [DecidableEq C] in
/-- The hand-over loop of a call that returns after it. -/
theorem Pc.not_hidden_of_actServe {r : Ret} {st : ServePc α}
    (h : actServe K m c op alt (.leave r) st = some (e, pc')) : pc'.hidden = false := by
  cases st with
  | first => cases h; rfl
  | second a => cases h; split <;> rfl
  | claim =>
    simp only [actServe] at h
    split at h
    · cases h; rfl
    · split at h
      · obtain ⟨rop, -, heq⟩ := Option.map_eq_some_iff.1 h
        cases heq
        rfl
      · cases h; rfl
  | ring w p =>
    cases h
    refine ringNext_ind (fun q => hidden q = false) (fun _ => rfl) fun res => ?_
    split <;> rfl
  | putBack w => cases h; rfl
  | settle w => cases h; rfl
  | wake w => cases h; rfl

omit [DecidableEq C] in
/-- After the registration a direct call is not hidden again, unless the backstop takes its waiter
back from the queue. -/
theorem Pc.hidden_of_act (h : pc.act K m id c op alt = some (e, pc')) (hp : pc'.hidden = true) :
    pc.hidden = true ∨ pc.waits = true ∧ e = .remove op.side ⟨id, 0⟩ ∧
      ⟨id, 0⟩ ∈ (m.chan c).queue op.side := by
  cases pc with
  | expRemove =>
    simp only [Pc.act, Option.some.injEq, Prod.mk.injEq] at h
    obtain ⟨rfl, rfl⟩ := h
    by_cases hstill : (⟨id, 0⟩ : Wid) ∈ (m.chan c).queue op.side
    · exact Or.inr ⟨rfl, rfl, hstill⟩
    · simp only [hstill] at hp
      split at hp <;> cases hp
  | burstClosed => cases h; split at hp <;> cases hp
  | burstRing p =>
    cases h
    refine absurd hp (ringNext_ind (fun q => ¬ hidden q = true) (fun _ => Bool.false_ne_true) ?_)
    intro res
    split <;> exact Bool.false_ne_true
  | fastAfter r => cases h; split at hp <;> cases hp
  | serveLock r =>
    obtain ⟨-, heq⟩ := Option.ite_none_right_eq_some.1 h
    cases heq
    cases hp
  | serve k st =>
    cases k with
    | leave r => exact absurd hp (Bool.eq_false_iff.1 (not_hidden_of_actServe h))
    | block => exact Or.inl rfl
  | meetCopy w =>
    simp only [Pc.act] at h
    split at h
    · cases h; cases hp
    · obtain ⟨x, -, heq⟩ := Option.map_eq_some_iff.1 h
      cases heq
      cases hp
  | helpClaim =>
    simp only [Pc.act] at h
    split at h
    · cases h; cases hp
    · split at h
      · obtain ⟨rop, -, heq⟩ := Option.map_eq_some_iff.1 h
        cases heq
        cases hp
      · cases h; cases hp
  | helpRing w p =>
    cases h
    refine absurd hp (ringNext_ind (fun q => ¬ hidden q = true) (fun _ => Bool.false_ne_true) ?_)
    intro res
    split <;> exact Bool.false_ne_true
  | recheck p =>
    cases h
    refine absurd hp (ringNext_ind (fun q => ¬ hidden q = true) (fun _ => Bool.false_ne_true) ?_)
    intro res
    split <;> exact Bool.false_ne_true
  | unDecr => cases h; split at hp <;> cases hp
  | park =>
    simp only [Pc.act] at h
    split at h
    · obtain ⟨-, heq⟩ := Option.ite_none_right_eq_some.1 h
      cases heq
      cases hp
    · obtain ⟨-, heq⟩ := Option.ite_none_right_eq_some.1 h
      cases heq
      cases hp
  | expLock =>
    obtain ⟨-, heq⟩ := Option.ite_none_right_eq_some.1 h
    cases heq
    cases hp
  | repark =>
    obtain ⟨-, heq⟩ := Option.ite_none_right_eq_some.1 h
    cases heq
    cases hp
  | closeLock =>
    obtain ⟨-, heq⟩ := Option.ite_none_right_eq_some.1 h
    cases heq
    cases hp
  | closeTest => cases h; split at hp <;> cases hp
  | closeClaim o =>
    simp only [Pc.act, popNext] at h
    split at h
    · cases h; cases o <;> cases hp
    · split at h
      · cases h
        cases o with
        | send => cases hp
        | recv => simp only at hp; split at hp <;> cases hp
      · cases h; cases hp
  | closeRing w p =>
    cases h
    exact absurd hp (ringNext_ind (fun q => ¬ hidden q = true) (fun _ => Bool.false_ne_true)
      fun _ => Bool.false_ne_true)
  | meetUnlock w | helpPutBack w | helpSettle w | helpUnlock w | wakeRet w | unRemove | parkUnlock
  | expUnlock still | backSettle r | backUnlock | reparkUnlock | decr r | unlockRet r =>
    cases h; cases hp
  | ret r => cases h
  | closeStore | closeSettle o w r | closeWake o w | lenTail | lenHead pt => cases h; cases hp
  | _ => exact Or.inl rfl

end Direct

end LibChan
