import LibChan.Chan.State

/-!
# The direct operations as steps

`chan_send_impl`, `chan_recv_impl`, the bursts, `chan_close` and `chan_len`. `Pc` is the place of a
thread inside such a call, `Pc.act` its next step: the effect on the memory and the place after it,
or `none` when the step has to wait (a lock that is taken, a park that is not signalled). A step is
one atomic access, lock, unlock, park or wake operation, or one plain access under the lock.

Sends and receives share their places; what differs between them is decided by the operation. The
memory orders and fences of the source have no counterpart: the steps interleave sequentially
consistently.
-/

set_option autoImplicit false

namespace LibChan

/-- A call on one channel. `timeout` is in nanoseconds; negative waits forever, zero does not wait. -/
inductive Op (α : Type)
  | send (x : α) (timeout : Int)
  | recv (timeout : Int)
  | sendBurst (xs : List α)
  | recvBurst (n : Nat)
  | close
  | len
  deriving DecidableEq

/-- What a call returns: an error code, a count, or the winning case of a select with its result
(`none` is `-1`, where every case gets the result). -/
inductive Ret
  | err (e : ChanErr)
  | count (n : Nat)
  | sel (winner : Option Nat) (e : ChanErr)
  deriving DecidableEq, Repr

namespace Op

variable {α : Type}

/-- The queue a waiter of the call goes to, and the half of the ring the call advances. -/
def side : Op α → ChanOp
  | send _ _ => .send
  | sendBurst _ => .send
  | _ => .recv

/-- `timeout_ns`. -/
def timeout : Op α → Int
  | send _ t => t
  | recv t => t
  | _ => 0

/-- The ring operation of a single send or receive on its own behalf. -/
def ringOp (id : Nat) : Op α → RingOp Wid α
  | send x _ => .push ⟨id, 0⟩ x
  | _ => .pop ⟨id, 0⟩

/-- The burst clamped to `UINT32_MAX` elements. -/
def burstOp (id : Nat) : Op α → RingOp Wid α
  | sendBurst xs => .enqueueBurst
      ((xs.take (2 ^ 32 - 1)).zipIdx.map fun e => (⟨id, e.2⟩, e.1))
  | recvBurst n => .dequeueBurst ((List.range (min n (2 ^ 32 - 1))).map fun i => ⟨id, i⟩)
  | _ => .dequeueBurst []

end Op

/-- Places inside `chan_deliver_ring_to_receivers_locked` and the loop of
`chan_admit_senders_to_ring`. `first` and `second` are the two loads of `ring_empty` or `ring_full`. -/
inductive ServePc (α : Type)
  | first
  | second (a : U32)
  | claim
  | ring (w : Wid) (p : RingPc Wid α)
  | putBack (w : Wid)
  | settle (w : Wid)
  | wake (w : Wid)
  deriving DecidableEq

/-- What follows such a loop: unlock and return, or (in the send slow path on a full ring) the
decision to park. -/
inductive ServeEnd
  | leave (r : Ret)
  | block
  deriving DecidableEq, Repr

/-- The place of a thread inside a direct call. -/
inductive Pc (α : Type)
  -- lock-free attempts; `spin` counts the iterations
  | fastClosed (spin : Nat)
  | fastCnt (o : ChanOp) (spin : Nat)
  | fastRing (spin : Nat) (p : RingPc Wid α)
  | fastSpsc (spin : Nat) (p : SpscPc Wid α)
  | burstClosed
  | burstRing (p : RingPc Wid α)
  -- the waiter count of the other side after a successful attempt, and the hand-over it asks for
  | fastAfter (r : Ret)
  | serveLock (r : Ret)
  | serve (k : ServeEnd) (st : ServePc α)
  -- the locked path
  | slowLock
  | slowClosed
  | slowRing (p : RingPc Wid α)
  -- hand-over to or from a waiter of the other side
  | meetClaim
  | meetCopy (w : Wid)
  | meetUnlock (w : Wid)
  -- a receiver pushes for a waiting sender
  | helpClaim
  | helpRing (w : Wid) (p : RingPc Wid α)
  | helpPutBack (w : Wid)
  | helpSettle (w : Wid)
  | helpUnlock (w : Wid)
  | wakeRet (w : Wid)
  | emptyClosed
  -- registration, and the second look at the ring after it
  | enroll
  | recheck (p : RingPc Wid α)
  | unRemove
  | unDecr
  | parkUnlock
  | park
  -- an expired park
  | expLock
  | expRemove
  | expUnlock (still : Bool)
  -- the SPSC backstop found the waiter still queued
  | backClosed
  | backRing (p : RingPc Wid α)
  | backSettle (e : ChanErr)
  | backUnlock
  | requeue
  | reparkUnlock
  | repark
  -- `none` returns the result in the waiter
  | decr (r : Option ChanErr)
  | unlockRet (r : Ret)
  | ret (r : Ret)
  -- `chan_close`
  | closeLock
  | closeTest
  | closeStore
  | closeClaim (o : ChanOp)
  | closeRing (w : Wid) (p : RingPc Wid α)
  | closeSettle (o : ChanOp) (w : Wid) (e : ChanErr)
  | closeWake (o : ChanOp) (w : Wid)
  -- `chan_len`
  | lenTail
  | lenHead (pt : U32)
  deriving DecidableEq

section Helpers

variable {T C α : Type}

/-- `ring_full` for the queue of senders, `ring_empty` for the queue of receivers: the first load. -/
def probeFirst (r : Ring α) : ChanOp → U32
  | .send => (r.cur .send).head
  | .recv => (r.cur .send).tail

/-- The second load of `ring_full` or `ring_empty`. -/
def probeSecond (r : Ring α) : ChanOp → U32
  | .send => (r.cur .recv).tail
  | .recv => (r.cur .recv).head

/-- The verdict of `ring_full` or `ring_empty` on its two loads. -/
def probeStops (cap : RingCap) (a b : U32) : ChanOp → Bool
  | .send => cap.val ≤ a - b
  | .recv => a = b

/-- The ring operation for a waiter of queue `o`: push its element, or pop into its buffer. -/
def serveOp (m : Mem T C α) (w : Wid) : ChanOp → Option (RingOp Wid α)
  | .send => (m.waiter w).data.map fun x => .push w x
  | .recv => some (.pop w)

/-- The place after a ring access: inside the operation, or after it with its verdict. -/
def ringNext (cap : RingCap) (r : Ring α) (weak : Bool) (p : RingPc Wid α)
    {π : Type} (inside : RingPc Wid α → π) (after : RingRes α → π) : π :=
  match (r.step cap weak p).2 with
  | .inl p' => inside p'
  | .inr res => after res

/-- The place after a cached ring access. -/
def spscNext (cap : RingCap) (r : Ring α) (p : SpscPc Wid α)
    {π : Type} (inside : SpscPc Wid α → π) (after : RingRes α → π) : π :=
  match (r.spscStep cap p).2 with
  | .inl p' => inside p'
  | .inr res => after res

/-- One round of `waitq_pop_sender` or `waitq_pop_receiver`: the queue is empty, or its first waiter
is claimed, or it is dropped and the scan goes on. -/
def popNext (m : Mem T C α) (q : List Wid) (o : ChanOp) {π : Type} (empty scan : π)
    (got : Wid → π) : Effect α × π :=
  match q with
  | [] => (.none, empty)
  | w :: _ => if m.claimable w then (.claim o w, got w) else (.drop o, scan)

end Helpers

namespace Pc

variable {T C α : Type}

/-- The start of an iteration of the lock-free loop. -/
def attempt (k : ChanCfg) (id : Nat) (op : Op α) (spin : Nat) : Pc α :=
  match op with
  | .send _ _ => fastClosed spin
  | _ => if k.spsc then fastSpsc spin (.loadHead (op.ringOp id)) else fastCnt .send spin

/-- The first place of a call. -/
def entry (k : ChanCfg) (id : Nat) (op : Op α) : Pc α :=
  match op with
  | .send _ _ => if 0 < k.capacity then attempt k id op 0 else slowLock
  | .recv _ => if 0 < k.capacity then attempt k id op 0 else slowLock
  | .sendBurst xs => if xs.length = 0 ∨ k.capacity = 0 then ret (.count 0) else burstClosed
  | .recvBurst n =>
    if n = 0 ∨ k.capacity = 0 then ret (.count 0) else burstRing (.loadHead (op.burstOp id))
  | .close => closeLock
  | .len => if k.capacity = 0 then ret (.count 0) else lenTail

/-- The place after a failed attempt of the lock-free loop. -/
def missed (K : Config T C) (c : C) (id : Nat) (op : Op α) (spin : Nat) : Pc α :=
  match op with
  | .send _ _ => if K.spinLimit ≤ spin then slowLock else attempt (K.chan c) id op (spin + 1)
  | _ => fastClosed spin

/-- Nothing to take or no room: return or register. -/
def block (op : Op α) : Pc α :=
  if op.timeout = 0 then unlockRet (.err .wouldblock) else enroll

/-- What follows the hand-over loop. -/
def served (op : Op α) : ServeEnd → Pc α
  | .leave r => unlockRet r
  | .block => block op

/-- An infinite wait on an SPSC channel parks with the backstop first. -/
def backstop (k : ChanCfg) (op : Op α) : Bool := k.spsc && decide (op.timeout < 0)

/-- The steps of the hand-over loop to the waiters of queue `o`. -/
def actServe (K : Config T C) (m : Mem T C α) (c : C) (op : Op α) (alt : Bool)
    (k : ServeEnd) : ServePc α → Option (Effect α × Pc α)
  | .first => some (.none, serve k (.second (probeFirst (m.chan c).ring op.side.other)))
  | .second a =>
    some (.none, if probeStops (K.chan c).ringCap a (probeSecond (m.chan c).ring op.side.other)
        op.side.other then served op k else serve k .claim)
  | .claim =>
    let o := op.side.other
    match (m.chan c).queue o with
    | [] => some (.none, served op k)
    | w :: _ =>
      if m.claimable w then
        (serveOp m w o).map fun rop => (.claim o w, serve k (.ring w (.loadHead rop)))
      else some (.drop o, serve k .claim)
  | .ring w p =>
    some (.ring alt p, ringNext (K.chan c).ringCap (m.chan c).ring alt p
      (fun p' => serve k (.ring w p'))
      fun res => if res.moved = 0 then serve k (.putBack w) else serve k (.settle w))
  | .putBack w => some (.putBack op.side.other w, served op k)
  | .settle w => some (.settle w .ok, serve k (.wake w))
  | .wake w => some (.wake w, serve k .first)

/-- The next step of a thread inside a direct call: its effect and the place after it. `alt` is a
spurious failure of a weak CAS, or the expiry of a timed park. -/
def act (K : Config T C) (m : Mem T C α) (id : Nat) (c : C) (op : Op α) (alt : Bool) :
    Pc α → Option (Effect α × Pc α)
  | fastClosed spin =>
    some (.none,
      if (m.chan c).closed then slowLock
      else match op with
        | .send _ _ =>
          if (K.chan c).spsc then fastSpsc spin (.loadHead (op.ringOp id)) else fastCnt .send spin
        | _ => if K.spinLimit ≤ spin then slowLock else attempt (K.chan c) id op (spin + 1))
  | fastCnt .send spin =>
    some (.none, if (m.chan c).cnt .send ≠ 0 then slowLock else fastCnt .recv spin)
  | fastCnt .recv spin =>
    some (.none, if (m.chan c).cnt .recv ≠ 0 then slowLock
      else fastRing spin (.loadHead (op.ringOp id)))
  | fastRing spin p =>
    some (.ring alt p, ringNext (K.chan c).ringCap (m.chan c).ring alt p (fastRing spin)
      fun res => if res.moved = 0 then missed K c id op spin else fastAfter (.err .ok))
  | fastSpsc spin p =>
    some (.spsc p, spscNext (K.chan c).ringCap (m.chan c).ring p (fastSpsc spin)
      fun res => if res.moved = 0 then missed K c id op spin else fastAfter (.err .ok))
  | burstClosed =>
    some (.none, if (m.chan c).closed then ret (.count 0)
      else burstRing (.loadHead (op.burstOp id)))
  | burstRing p =>
    some (.ring alt p, ringNext (K.chan c).ringCap (m.chan c).ring alt p burstRing
      fun res => if res.moved = 0 then ret (.count 0) else fastAfter (.count res.moved))
  | fastAfter r =>
    some (.none, if (m.chan c).cnt op.side.other ≠ 0 then serveLock r else ret r)
  | serveLock r =>
    if (m.chan c).lock = none then some (.lock, serve (.leave r) .first) else none
  | serve k st => actServe K m c op alt k st
  | slowLock =>
    if (m.chan c).lock = none then
      some (.lock, match op with
        | .send _ _ => slowClosed
        | _ => if (K.chan c).capacity = 0 then meetClaim else slowRing (.loadHead (op.ringOp id)))
    else none
  | slowClosed =>
    some (.none, if (m.chan c).closed then unlockRet (.err .closed)
      else if (K.chan c).capacity = 0 then meetClaim else slowRing (.loadHead (op.ringOp id)))
  | slowRing p =>
    some (.ring alt p, ringNext (K.chan c).ringCap (m.chan c).ring alt p slowRing fun res =>
      match op with
      | .send _ _ => serve (if res.moved = 0 then .block else .leave (.err .ok)) .first
      | _ => if res.moved = 0 then meetClaim else helpClaim)
  | meetClaim =>
    some (popNext m ((m.chan c).queue op.side.other) op.side.other
      (match op with
        | .send _ _ => block op
        | _ => emptyClosed) meetClaim meetCopy)
  | meetCopy w =>
    match op with
    | .send x _ => some (.pair ⟨id, 0⟩ w w x, meetUnlock w)
    | _ => (m.waiter w).data.map fun x => (.pair w ⟨id, 0⟩ w x, meetUnlock w)
  | meetUnlock w => some (.unlock, wakeRet w)
  | helpClaim =>
    match (m.chan c).queue .send with
    | [] => some (.none, unlockRet (.err .ok))
    | w :: _ =>
      if m.claimable w then
        (serveOp m w .send).map fun rop => (.claim .send w, helpRing w (.loadHead rop))
      else some (.drop .send, helpClaim)
  | helpRing w p =>
    some (.ring alt p, ringNext (K.chan c).ringCap (m.chan c).ring alt p (helpRing w)
      fun res => if res.moved = 0 then helpPutBack w else helpSettle w)
  | helpPutBack w => some (.putBack .send w, unlockRet (.err .ok))
  | helpSettle w => some (.settle w .ok, helpUnlock w)
  | helpUnlock w => some (.unlock, wakeRet w)
  | wakeRet w => some (.wake w, ret (.err .ok))
  | emptyClosed =>
    some (.none, if (m.chan c).closed then unlockRet (.err .closed) else block op)
  | enroll =>
    some (.enroll op.side ⟨id, 0⟩,
      if (K.chan c).capacity = 0 then parkUnlock else recheck (.loadHead (op.ringOp id)))
  | recheck p =>
    some (.ring alt p, ringNext (K.chan c).ringCap (m.chan c).ring alt p recheck
      fun res => if res.moved = 0 then parkUnlock else unRemove)
  | unRemove => some (.remove op.side ⟨id, 0⟩, unDecr)
  | unDecr =>
    some (.decr op.side ⟨id, 0⟩, match op with
      | .send _ _ => serve (.leave (.err .ok)) .first
      | _ => unlockRet (.err .ok))
  | parkUnlock => some (.unlock, park)
  | park =>
    -- a futex wait reports its expiry without looking at the word again, so a park may expire
    -- although it has just been signalled
    if alt then
      if 0 < op.timeout ∨ backstop (K.chan c) op then some (.none, expLock) else none
    else if m.signaled id then some (.none, decr none) else none
  | expLock => if (m.chan c).lock = none then some (.lock, expRemove) else none
  | expRemove =>
    let still := decide ((⟨id, 0⟩ : Wid) ∈ (m.chan c).queue op.side)
    some (.remove op.side ⟨id, 0⟩,
      if backstop (K.chan c) op then
        if still then
          match op with
          | .send _ _ => backClosed
          | _ => backRing (.loadHead (op.ringOp id))
        else backUnlock
      else expUnlock still)
  | expUnlock still =>
    some (.unlock,
      decr (if (K.chan c).capacity = 0 ∨ still = true then some .timeout else none))
  | backClosed =>
    some (.none, if (m.chan c).closed then backSettle .closed
      else match op with
        | .send _ _ => backRing (.loadHead (op.ringOp id))
        | _ => requeue)
  | backRing p =>
    some (.ring alt p, ringNext (K.chan c).ringCap (m.chan c).ring alt p backRing fun res =>
      if res.moved = 0 then
        match op with
        | .send _ _ => requeue
        | _ => backClosed
      else backSettle .ok)
  | backSettle e => some (.settle ⟨id, 0⟩ e, backUnlock)
  | backUnlock => some (.unlock, decr none)
  | requeue => some (.requeue op.side ⟨id, 0⟩, reparkUnlock)
  | reparkUnlock => some (.unlock, repark)
  | repark => if m.signaled id then some (.none, decr none) else none
  | decr r => some (.decr op.side ⟨id, 0⟩, ret (.err (r.getD (m.waiter ⟨id, 0⟩).result)))
  | unlockRet r => some (.unlock, ret r)
  | ret _ => none
  | closeLock => if (m.chan c).lock = none then some (.lock, closeTest) else none
  | closeTest =>
    some (.none, if (m.chan c).closed then unlockRet (.err .closed) else closeStore)
  | closeStore => some (.setClosed, closeClaim .send)
  | closeClaim o =>
    some (popNext m ((m.chan c).queue o) o
      (match o with
        | .send => closeClaim .recv
        | .recv => unlockRet (.err .ok)) (closeClaim o)
      fun w => match o with
        | .send => closeSettle .send w .closed
        | .recv => if 0 < (K.chan c).capacity then closeRing w (.loadHead (.pop w))
          else closeSettle .recv w .closed)
  | closeRing w p =>
    some (.ring alt p, ringNext (K.chan c).ringCap (m.chan c).ring alt p (closeRing w)
      fun res => closeSettle .recv w (if res.moved = 0 then .closed else .ok))
  | closeSettle o w e => some (.settle w e, closeWake o w)
  | closeWake o w => some (.wake w, closeClaim o)
  | lenTail => some (.none, lenHead ((m.chan c).ring.cur .send).tail)
  | lenHead pt => some (.none, ret (.count (pt - ((m.chan c).ring.cur .recv).head).toNat))

end Pc

end LibChan
