import LibChan.Chan.Select
import LibChan.Base.Reach

/-!
# Threads calling channel operations

`Sys` is the memory together with the threads and the history of calls and returns. A label names the
thread that moves: it calls an operation, or performs the next step of the call it is in. A call ends
with a step of its own that records what it returns and what is in its output buffers.
-/

set_option autoImplicit false

namespace LibChan

/-- A call: a direct operation on a channel, or a select over cases. -/
inductive Call (C α : Type)
  | direct (c : C) (op : Op α)
  | select (cases : List (Case C α)) (timeout : Int)
  deriving DecidableEq

/-- What a thread is doing: nothing, or the call with the given number. -/
inductive Thread (C α : Type)
  | idle
  | direct (id : Nat) (c : C) (op : Op α) (pc : Pc α)
  | select (id : Nat) (cases : List (Case C α)) (timeout : Int) (pc : SelPc C α)
  deriving DecidableEq

/-- An entry of the history. `out` has the output buffers the call reports. -/
inductive Event (T C α : Type)
  | call (id : Nat) (t : T) (k : Call C α)
  | ret (id : Nat) (t : T) (r : Ret) (out : List (Option α))
  deriving DecidableEq

/-- The state of the system. -/
structure Sys (T C α : Type) where
  mem : Mem T C α
  next : Nat
  events : List (Event T C α)
  thread : T → Thread C α

/-- Who moves, and how: a thread calls, or takes the next step of its call. -/
inductive Label (T C α : Type)
  | call (t : T) (k : Call C α)
  | go (t : T) (alt : Bool)

/-- The thread that moves. -/
def Label.who {T C α : Type} : Label T C α → T
  | call t _ => t
  | go t _ => t

namespace Sys

variable {T C α : Type}

/-- No calls yet, new channels over arbitrary memory. -/
def init (slots : C → U32 → α) : Sys T C α where
  mem := { chan := fun c => Chan.init (slots c)
           waiter := fun _ => ⟨none, .ok⟩
           signaled := fun _ => false
           selectState := fun _ => none
           tls := fun _ => ⟨0, 0⟩ }
  next := 0
  events := []
  thread := fun _ => .idle

/-- The buffers of a call when it starts: the element of a send, nothing in an output buffer. A stub
that is not registered has no result. -/
def startWaiter (k : Call C α) (i : Nat) : Waiter α :=
  match k with
  | .direct _ (.send x _) => ⟨if i = 0 then some x else none, .ok⟩
  | .direct _ (.sendBurst xs) => ⟨xs[i]?, .ok⟩
  | .direct _ _ => ⟨none, .ok⟩
  | .select cases _ => ⟨(cases[i]?).bind Case.elem, .wouldblock⟩

/-- The first place of a call. -/
def startThread [DecidableEq C] (K : Config T C) (id : Nat) : Call C α → Thread C α
  | .direct c op => .direct id c op (.entry (K.chan c) id op)
  | .select cases timeout => .select id cases timeout (.entry cases)

/-- The output buffers a direct call reports. -/
def directOut (m : Mem T C α) (id : Nat) : Op α → Ret → List (Option α)
  | .recv _, .err .ok => [(m.waiter ⟨id, 0⟩).data]
  | .recvBurst _, .count n => (List.range n).map fun i => (m.waiter ⟨id, i⟩).data
  | _, _ => []

/-- The output buffer a select reports: that of a receive case that won with `CHAN_OK`. -/
def selectOut (m : Mem T C α) (id : Nat) (cases : List (Case C α)) : Ret → List (Option α)
  | .sel (some i) .ok =>
    match cases[i]? with
    | some ⟨_, none⟩ => [(m.waiter ⟨id, i⟩).data]
    | _ => []
  | _ => []

section Step

variable [DecidableEq T] [DecidableEq C]

/-- A thread starts a call. -/
def startCall (K : Config T C) (s : Sys T C α) (t : T) (k : Call C α) : Sys T C α where
  mem := { s.mem with
    waiter := fun w => if w.call = s.next then startWaiter k w.idx else s.mem.waiter w
    selectState := match k with
      | .select _ _ => Function.update s.mem.selectState s.next (some false)
      | .direct _ _ => s.mem.selectState }
  next := s.next + 1
  events := s.events ++ [.call s.next t k]
  thread := Function.update s.thread t (startThread K s.next k)

/-- A call returns. -/
def finishCall (s : Sys T C α) (t : T) (id : Nat) (r : Ret) (out : List (Option α)) :
    Sys T C α where
  mem := s.mem
  next := s.next
  events := s.events ++ [.ret id t r out]
  thread := Function.update s.thread t .idle

/-- A step inside a call. -/
def move (K : Config T C) (s : Sys T C α) (t : T) (c : C) (e : Effect α) (th : Thread C α) :
    Sys T C α where
  mem := s.mem.apply K t c e
  next := s.next
  events := s.events
  thread := Function.update s.thread t th

/-- The next step of a thread inside a direct call. -/
def stepDirect (K : Config T C) (s : Sys T C α) (t : T) (alt : Bool) (id : Nat) (c : C)
    (op : Op α) : Pc α → Option (Sys T C α)
  | .ret r => some (s.finishCall t id r (directOut s.mem id op r))
  | pc => (pc.act K s.mem id c op alt).map fun r => s.move K t c r.1 (.direct id c op r.2)

/-- The next step of a thread inside a select. -/
def stepSelect (K : Config T C) (s : Sys T C α) (t : T) (alt : Bool) (id : Nat)
    (cases : List (Case C α)) (timeout : Int) : SelPc C α → Option (Sys T C α)
  | .ret r => some (s.finishCall t id r (selectOut s.mem id cases r))
  | pc => cases.head?.bind fun k =>
    (pc.act K s.mem t id cases timeout alt k.chan).map fun r =>
      s.move K t r.1 r.2.1 (.select id cases timeout r.2.2)

/-- One step of the system. -/
def step (K : Config T C) (s : Sys T C α) : Label T C α → Option (Sys T C α)
  | .call t k =>
    match s.thread t with
    | .idle => some (s.startCall K t k)
    | _ => none
  | .go t alt =>
    match s.thread t with
    | .idle => none
    | .direct id c op pc => s.stepDirect K t alt id c op pc
    | .select id cases timeout pc => s.stepSelect K t alt id cases timeout pc

end Step

/-- A condition on the thread that takes the next step. -/
def When (f : Mem T C α → Thread C α → Bool) (s : Sys T C α) : Label T C α → Prop
  | .go t _ => f s.mem (s.thread t) = true
  | .call _ _ => True

instance (f : Mem T C α → Thread C α → Bool) (s : Sys T C α) : DecidablePred (When f s)
  | .go _ _ => inferInstanceAs (Decidable (_ = _))
  | .call _ _ => .isTrue trivial

/-- A run from new channels computed from its labels. -/
theorem exists_reaches [DecidableEq T] [DecidableEq C] (K : Config T C) (slots : C → U32 → α)
    (ok : Sys T C α → Label T C α → Prop) [∀ s, DecidablePred (ok s)] (ls : List (Label T C α))
    (p : Sys T C α → Prop) [DecidablePred p]
    (h : (exec (step K) ok (init slots) ls).any (fun s => decide (p s)) = true) :
    ∃ s, Reaches (step K) ok (init slots) s ∧ p s :=
  exists_reaches_of_exec ls p h

/-- The call with number `id` has returned. -/
def Returned (s : Sys T C α) (id : Nat) : Prop := ∃ t r out, Event.ret id t r out ∈ s.events

end Sys

end LibChan
