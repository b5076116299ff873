import LibChan.Chan.WaitQueue
import LibChan.Chan.Wakes
import LibChan.Chan.SelectFlow

/-!
# Calls in stack memory

`Sys` gives every call a waiter, a park and a select state of its own. In the source these are locals of
`chan_send_impl`, `chan_recv_impl` and `chan_select_impl`: when a call has returned, the next call of the
thread finds its own at the same addresses, while a queue may still lead to the old waiter and a waker may
still be about to signal the old park.

`StackSys` is the system with that memory. A call runs in a frame, which no other running call has and
which later calls may have again. Waiters, parks and shared states lie in frames, and the wait queues are
linked through the waiters (`WaitHeap`). `waiter_init` and the set-up of the stubs overwrite what is in
the frame, whoever still points to it.

The threads run the same code as in `Sys`: they look at the memory through `StackSys.view` and their
effects are carried out in the frames. A waiter goes by the name of the call that initialised it last, so
that the name is also the value of its `data` pointer.
-/

set_option autoImplicit false

namespace LibChan

variable {T C α : Type}

/-! ## The memory -/

/-- `chan_waiter_t` without its queue link: whose buffer the `data` pointer leads to, and the result. -/
structure Node where
  data : Wid
  result : ChanErr

/-- The state of the system with stack memory. `home` is the frame of each call and `used` the frames of
the running ones. `node`, `heap`, `park` and `state` are what lies in the frames: the waiters, their links
and the heads of the queues, the parks, the shared states. `steps` counts the steps so far; no queue is
longer.

`sys` has the threads, the history and the rest of the memory: the channels without their queues, the
buffers, the thread-local variables. What it has of queues, results, parks and select states is
bookkeeping; of these, a step reads whether a call is a select. -/
structure StackSys (T C α : Type) where
  sys : Sys T C α
  home : Nat → Nat
  used : Nat → Bool
  node : Wid → Node
  heap : WaitHeap (C × ChanOp) Wid
  park : Nat → Bool
  state : Nat → Bool
  steps : Nat

/-- Who moves: a thread calls, and its call gets the frame `f`, or it takes the next step of its call. -/
inductive StackLabel (T C α : Type)
  | call (t : T) (k : Call C α) (f : Nat)
  | go (t : T) (alt : Bool)

/-- The label without the frame. -/
def StackLabel.label : StackLabel T C α → Label T C α
  | call t k _ => .call t k
  | go t alt => .go t alt

namespace StackSys

/-- No calls yet. -/
def init (slots : C → U32 → α) : StackSys T C α where
  sys := Sys.init slots
  home := fun _ => 0
  used := fun _ => false
  node := fun w => ⟨w, .ok⟩
  heap := { next := fun _ => none, queue := fun _ => ⟨none, none⟩ }
  park := fun _ => false
  state := fun _ => false
  steps := 0

variable (r : StackSys T C α)

/-- The address of a waiter. -/
def addr (w : Wid) : Wid := ⟨r.home w.call, w.idx⟩

/-- The waiters to which a queue leads, by the calls that initialised them last. -/
def queue (c : C) (o : ChanOp) : List Wid :=
  (walk r.heap.next r.steps (r.heap.queue (c, o)).head).map fun a => (r.node a).data

/-- The memory as the threads see it. -/
def view : Mem T C α where
  chan c := { r.sys.mem.chan c with queue := r.queue c }
  waiter w := ⟨(r.sys.mem.waiter (r.node (r.addr w)).data).data, (r.node (r.addr w)).result⟩
  signaled id := r.park (r.home id)
  selectState id := (r.sys.mem.selectState id).map fun _ => r.state (r.home id)
  tls := r.sys.mem.tls

/-- The system as the threads see it. -/
def seen : Sys T C α := { r.sys with mem := r.view }

/-! ## Steps -/

/-- An element is copied from or to the buffer that the `data` pointer of the waiter leads to. -/
def aim : Effect α → Effect α
  | .pair a b w x =>
    let d := (r.node (r.addr w)).data
    .pair (if a = w then d else a) (if b = w then d else b) w x
  | e => e

/-- The effect of a step on the waiters in the frames. -/
def writeNode : Effect α → Wid → Node
  | .enroll _ w, a => if a = r.addr w then ⟨w, .ok⟩ else r.node a
  | .stub _ w, a => if a = r.addr w then ⟨w, .wouldblock⟩ else r.node a
  | .settle w x, a => if a = r.addr w then { r.node a with result := x } else r.node a
  | .pair _ _ w _, a => if a = r.addr w then { r.node a with result := .ok } else r.node a
  | _, a => r.node a

/-- The effect of a step on the parks: the one of a direct waiter is initialised with it, the shared one
of a select before its first stub. -/
def writePark : Effect α → Nat → Bool
  | .enroll _ w, f => if f = r.home w.call then false else r.park f
  | .stub _ ⟨id, 0⟩, f => if f = r.home id then false else r.park f
  | .wake w, f => if f = r.home w.call then true else r.park f
  | _, f => r.park f

/-- The effect of a step on the shared states. A direct waiter has none to claim. -/
def writeState : Effect α → Nat → Bool
  | .stub _ ⟨id, 0⟩, f => if f = r.home id then false else r.state f
  | .claim _ w, f =>
    if (r.sys.mem.selectState w.call).isSome ∧ f = r.home w.call then true else r.state f
  | _, f => r.state f

section Step

variable [DecidableEq T] [DecidableEq C]

/-- The effect of a step on the links; `none` if the loop of `waitq_remove` runs in a circle. -/
def relink (c : C) (e : Effect α) : Option (WaitHeap (C × ChanOp) Wid) :=
  match e.waitOp? c with
  | none => some r.heap
  | some op => (r.heap.exec (r.steps + 1) (op.map r.addr)).map Prod.fst

/-- A call starts in the frame `f`. -/
def startCall (K : Config T C) (t : T) (k : Call C α) (f : Nat) : StackSys T C α :=
  { r with
    sys := r.sys.startCall K t k
    home := Function.update r.home r.sys.next f
    used := Function.update r.used f true }

/-- A call returns and leaves its frame. -/
def finishCall (t : T) (id : Nat) (x : Ret) (out : List (Option α)) : StackSys T C α :=
  { r with
    sys := r.sys.finishCall t id x out
    used := Function.update r.used (r.home id) false }

/-- A step inside a call that leaves the links `heap`. -/
def moved (K : Config T C) (t : T) (c : C) (e : Effect α) (th : Thread C α)
    (heap : WaitHeap (C × ChanOp) Wid) : StackSys T C α :=
  { r with
    sys := r.sys.move K t c (r.aim e) th
    node := r.writeNode e
    heap := heap
    park := r.writePark e
    state := r.writeState e
    steps := r.steps + 1 }

/-- A step inside a call. -/
def move (K : Config T C) (t : T) (c : C) (e : Effect α) (th : Thread C α) : Option (StackSys T C α) :=
  (r.relink c e).map (r.moved K t c e th)

/-- One step. A call gets a frame that no running call has. -/
def step (K : Config T C) (r : StackSys T C α) : StackLabel T C α → Option (StackSys T C α)
  | .call t k f =>
    match r.sys.thread t with
    | .idle => if r.used f then none else some (r.startCall K t k f)
    | _ => none
  | .go t alt =>
    match (r.sys.thread t).returns r.sys.mem with
    | some (id, x, out) => some (r.finishCall t id x out)
    | none => ((r.sys.thread t).act K r.view t alt).bind fun a => r.move K t a.1 a.2.1 a.2.2

end Step

end StackSys

/-- A run from new channels computed from its labels. -/
theorem StackSys.exists_reaches [DecidableEq T] [DecidableEq C] (K : Config T C) (slots : C → U32 → α)
    (ok : StackSys T C α → StackLabel T C α → Prop) [∀ r, DecidablePred (ok r)]
    (ls : List (StackLabel T C α)) (p : StackSys T C α → Prop) [DecidablePred p]
    (h : (exec (StackSys.step K) ok (StackSys.init slots) ls).any (fun r => decide (p r)) = true) :
    ∃ r, Reaches (StackSys.step K) ok (StackSys.init slots) r ∧ p r :=
  exists_reaches_of_exec ls p h

/-! ## Late wakers -/

/-- The call that sets up its waiter, or its first stub, in the next step of the thread. -/
def Thread.registers : Thread C α → Option Nat
  | .direct id _ _ .enroll => some id
  | .select id _ _ (.stub 0) => some id
  | _ => none

/-- When a call sets up its waiters, nobody is about to signal a park in its frame. -/
def StackSys.ReuseOk (r : StackSys T C α) : StackLabel T C α → Prop
  | .go t _ => ∀ id ∈ (r.sys.thread t).registers, ∀ u, ∀ w ∈ (r.sys.thread u).wakes,
      r.home w.call ≠ r.home id
  | .call _ _ _ => True

instance {n : Nat} (r : StackSys (Fin n) C α) : DecidablePred r.ReuseOk
  | .go _ _ => inferInstanceAs (Decidable (∀ _ ∈ _, ∀ _ : Fin n, ∀ _ ∈ _, _ ≠ _))
  | .call _ _ _ => .isTrue trivial

end LibChan
