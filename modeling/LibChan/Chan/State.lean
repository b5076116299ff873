import LibChan.Ring.Spsc

/-!
# The shared memory of the channels

Channels, waiters, parks and select states as the threads see them, and the primitive effects of one
step on them. Every call gets a number; its waiter, or the stub of its case `i`, is named by a `Wid`,
and so are the park and the select state of the call. A waiter's `data` is the buffer its pointer
points to: the element of a send, or the output buffer of a receive, empty until something is written
to it.

`hist`, `sent`, `recvd` and `reg` of a channel are bookkeeping that no step of the code reads.
-/

set_option autoImplicit false

namespace LibChan

/-- `chan_err_t`. -/
inductive ChanErr
  | ok
  | closed
  | timeout
  | wouldblock
  | invalid
  | nomem
  deriving DecidableEq, Repr

/-- A waiter of the call `call`: `idx` is zero for a direct call, the case index for a select stub
and the element index for a burst. -/
@[ext] structure Wid where
  call : Nat
  idx : Nat
  deriving DecidableEq, Repr

/-- What a channel is created with: `chan_create_impl` keeps the SPSC flag for buffered channels
only. -/
structure ChanCfg where
  capacity : Nat
  spsc : Bool
  buffered : spsc = true → 0 < capacity

namespace ChanCfg

/-- `chan_create`. -/
def create (capacity : Nat) : ChanCfg := ⟨capacity, false, fun h => by cases h⟩

/-- `chan_create_spsc`. -/
def createSpsc (capacity : Nat) : ChanCfg :=
  ⟨capacity, decide (0 < capacity), fun h => of_decide_eq_true h⟩

/-- The ring capacity of the channel. -/
def ringCap (k : ChanCfg) : RingCap := RingCap.ofRequest k.capacity

end ChanCfg

/-- What is fixed during a run: the channels, their addresses, the spin limit
`LIBCHAN_FASTPATH_SPIN` and the low word of each thread's `pthread_self`. -/
structure Config (T C : Type) where
  chan : C → ChanCfg
  addr : C → Nat
  spinLimit : Nat
  self : T → U32

/-- `chan_waiter_t` without its queue link: the buffer and the result. -/
structure Waiter (α : Type) where
  data : Option α
  result : ChanErr

/-- The mutable part of `struct chan`. `cnt` are the two waiter counts and `queue` the two wait
queues. In the bookkeeping, `sent` has the accepted elements and `recvd` the handed-over elements with
the waiters they belong to, in the order this was decided, and `reg` the registered direct waiters. -/
structure Chan (T α : Type) where
  ring : Ring α
  lock : Option T
  cnt : ChanOp → Int
  queue : ChanOp → List Wid
  closed : Bool
  hist : RingGhost T Wid α
  sent : List (Wid × α)
  recvd : List (Wid × α)
  reg : ChanOp → List Wid

/-- A new channel; the slots hold whatever was in memory. -/
def Chan.init {T α : Type} (slots : U32 → α) : Chan T α where
  ring := Ring.init slots
  lock := none
  cnt := fun _ => 0
  queue := fun _ => []
  closed := false
  hist := RingGhost.init
  sent := []
  recvd := []
  reg := fun _ => []

/-- The thread-local variables of `select.c`: the round-robin counter `rr` (a `size_t`) and the
generator state `rng_state`. -/
structure Tls where
  rr : Nat
  rng : U32

/-- The memory shared by the threads. `signaled` are the parks and `selectState` the shared states of
the calls; `none` is the `NULL` pointer of a direct waiter, `some true` is `WAITER_WOKEN`. -/
structure Mem (T C α : Type) where
  chan : C → Chan T α
  waiter : Wid → Waiter α
  signaled : Nat → Bool
  selectState : Nat → Option Bool
  tls : T → Tls

/-- The primitive effects of one step on the memory, on a channel named next to it. -/
inductive Effect (α : Type)
  /-- A load, or a plain access to private data. -/
  | none
  | ring (weak : Bool) (p : RingPc Wid α)
  | spsc (p : SpscPc Wid α)
  | lock
  | unlock
  /-- `waitq_pop` of `w` followed by a successful `waiter_try_claim`. -/
  | claim (o : ChanOp) (w : Wid)
  /-- `waitq_pop` of a stub that is already claimed. -/
  | drop (o : ChanOp)
  /-- `waiter_init`, the increment of the waiter count and `waitq_push`. -/
  | enroll (o : ChanOp) (w : Wid)
  /-- `waitq_push` of a select stub. -/
  | stub (o : ChanOp) (w : Wid)
  | remove (o : ChanOp) (w : Wid)
  | requeue (o : ChanOp) (w : Wid)
  | putBack (o : ChanOp) (w : Wid)
  | decr (o : ChanOp) (w : Wid)
  | settle (w : Wid) (r : ChanErr)
  /-- The element `x` is copied from the sender `s` to the receiver `r`; `w` is the one of them that
  was waiting, and its result is set. -/
  | pair (s r w : Wid) (x : α)
  | wake (w : Wid)
  | setClosed
  | bumpRr
  | setRng (v : U32)

section Apply

variable {T C α : Type} [DecidableEq T]

/-- The elements appended to `sent` by a ring access: the new entries of the log. -/
def newSent (g g' : RingGhost T Wid α) : List (Wid × α) := g'.log.drop g.log.length

/-- The elements appended to `recvd` by a ring access: the new takers with the values logged for
their positions. -/
def newRecvd (g g' : RingGhost T Wid α) : List (Wid × α) :=
  ((g'.takers.drop g.takers.length).zip (g'.log.drop g.takers.length)).map
    fun e => (e.1, e.2.2)

/-- Where a ring access copies an element to: the buffer of the taker it copies for. -/
def copyTarget (cap : RingCap) (r : Ring α) : RingPc Wid α → Option (Wid × α)
  | .copy op h k i _ => op.tags[i]?.map fun w => (w, r.slots (op.slot cap h k i))
  | _ => none

/-- Where a cached ring access copies an element to. -/
def spscTarget (cap : RingCap) (r : Ring α) : SpscPc Wid α → Option (Wid × α)
  | .copy op h => op.tags[0]?.map fun w => (w, r.slots (op.slot cap h 1 0))
  | _ => none

/-- Store a copied element in the buffer of its taker. -/
def fillBuffer (ws : Wid → Waiter α) : Option (Wid × α) → Wid → Waiter α
  | none => ws
  | some (w, x) => Function.update ws w { ws w with data := some x }

namespace Chan

variable (ch : Chan T α)

/-- A ring access with its bookkeeping. -/
def ringStep (cap : RingCap) (t : T) (weak : Bool) (p : RingPc Wid α) : Chan T α :=
  let g' := ch.hist.step cap ch.ring t weak p
  { ch with ring := (ch.ring.step cap weak p).1
            hist := g'
            sent := ch.sent ++ newSent ch.hist g'
            recvd := ch.recvd ++ newRecvd ch.hist g' }

/-- A cached ring access with its bookkeeping. -/
def spscStep (cap : RingCap) (t : T) (p : SpscPc Wid α) : Chan T α :=
  let g' := ch.hist.spscStep cap ch.ring t p
  { ch with ring := (ch.ring.spscStep cap p).1
            hist := g'
            sent := ch.sent ++ newSent ch.hist g'
            recvd := ch.recvd ++ newRecvd ch.hist g' }

/-- Overwrite one wait queue. -/
def setQueue (o : ChanOp) (q : List Wid) : Chan T α :=
  { ch with queue := Function.update ch.queue o q }

/-- Add to one waiter count and replace the registered waiters of that side. -/
def addCnt (o : ChanOp) (d : Int) (reg : List Wid) : Chan T α :=
  { ch with cnt := Function.update ch.cnt o (ch.cnt o + d)
            reg := Function.update ch.reg o reg }

/-- The effect of a step of thread `t` on the channel. -/
def apply (cap : RingCap) (t : T) : Effect α → Chan T α
  | .ring weak p => ch.ringStep cap t weak p
  | .spsc p => ch.spscStep cap t p
  | .lock => { ch with lock := some t }
  | .unlock => { ch with lock := none }
  | .claim o _ => ch.setQueue o (ch.queue o).tail
  | .drop o => ch.setQueue o (ch.queue o).tail
  | .enroll o w => (ch.addCnt o 1 (w :: ch.reg o)).setQueue o (ch.queue o ++ [w])
  | .stub o w => ch.setQueue o (ch.queue o ++ [w])
  | .remove o w => ch.setQueue o ((ch.queue o).erase w)
  | .requeue o w => ch.setQueue o (ch.queue o ++ [w])
  | .putBack o w => ch.setQueue o (w :: ch.queue o)
  | .decr o w => ch.addCnt o (-1) ((ch.reg o).erase w)
  | .pair s r _ x => { ch with sent := ch.sent ++ [(s, x)], recvd := ch.recvd ++ [(r, x)] }
  | .setClosed => { ch with closed := true }
  | _ => ch

end Chan

namespace Mem

variable (m : Mem T C α)

/-- `waiter_try_claim` would succeed. -/
def claimable (w : Wid) : Bool := m.selectState w.call != some true

/-- The effect of a step on the waiters. -/
def applyWaiter (cap : RingCap) (ch : Chan T α) : Effect α → Wid → Waiter α
  | .ring _ p => fillBuffer m.waiter (copyTarget cap ch.ring p)
  | .spsc p => fillBuffer m.waiter (spscTarget cap ch.ring p)
  | .enroll _ w => Function.update m.waiter w { m.waiter w with result := .ok }
  | .stub _ w => Function.update m.waiter w { m.waiter w with result := .wouldblock }
  | .settle w r => Function.update m.waiter w { m.waiter w with result := r }
  | .pair _ r w x =>
    let ws := Function.update m.waiter r { m.waiter r with data := some x }
    Function.update ws w { ws w with result := .ok }
  | _ => m.waiter

/-- `waiter_try_claim`: a direct waiter has no state to change. -/
def applyState : Effect α → Nat → Option Bool
  | .claim _ w => Function.update m.selectState w.call ((m.selectState w.call).map fun _ => true)
  | _ => m.selectState

/-- The effect of a step on the thread-local variables; `rr` is a 64-bit `size_t`. -/
def applyTls (t : T) : Effect α → T → Tls
  | .bumpRr => Function.update m.tls t { m.tls t with rr := ((m.tls t).rr + 1) % 2 ^ 64 }
  | .setRng v => Function.update m.tls t { m.tls t with rng := v }
  | _ => m.tls

/-- The effect of a step of thread `t` on channel `c`. -/
def apply [DecidableEq C] (K : Config T C) (t : T) (c : C) (e : Effect α) : Mem T C α where
  chan := Function.update m.chan c ((m.chan c).apply (K.chan c).ringCap t e)
  waiter := m.applyWaiter (K.chan c).ringCap (m.chan c) e
  signaled := match e with
    | .wake w => Function.update m.signaled w.call true
    | _ => m.signaled
  selectState := m.applyState e
  tls := m.applyTls t e

end Mem

end Apply

end LibChan
