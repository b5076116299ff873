import LibChan.Chan.Direct

/-!
# Select as steps

`chan_select_impl` with its lock-free first attempt `chan_select_fast`, the locked pass over the
ready cases, the registration of one stub for each case, the park and the cleanup. `SelPc` is the
place of a thread inside the call and `SelPc.act` its next step, with the channel it touches.
-/

set_option autoImplicit false

namespace LibChan

/-- `chan_select_case_t`: a send of an element or a receive. -/
structure Case (C α : Type) where
  chan : C
  elem : Option α
  deriving DecidableEq

namespace Case

variable {C α : Type}

/-- `op` of the case: a case with an element is a send. -/
def op (k : Case C α) : ChanOp :=
  match k.elem with
  | some _ => .send
  | none => .recv

/-- The ring operation of the case on its own behalf. -/
def ringOp (w : Wid) (k : Case C α) : RingOp Wid α :=
  match k.elem with
  | some x => .push w x
  | none => .pop w

end Case

/-! ## Lock order -/

section Order

variable {C α : Type}

/-- The inner loop of `sort_order` on the reversed sorted part: indices at higher addresses move up
by one and `key` takes the place that becomes free. -/
def sortInsert (addr : Nat → Nat) (key : Nat) : List Nat → List Nat
  | [] => [key]
  | a :: rest => if addr key < addr a then a :: sortInsert addr key rest else key :: a :: rest

/-- `sort_order`: insertion sort of the case indices by channel address. -/
def sortOrder (addr : Nat → Nat) (n : Nat) : List Nat :=
  ((List.range n).foldl (fun acc i => sortInsert addr i acc) []).reverse

/-- `sort_order_2`. -/
def sortOrder2 (addr : Nat → Nat) : List Nat := if addr 0 ≤ addr 1 then [0, 1] else [1, 0]

/-- The order in which the call locks the channels of its cases. -/
def lockOrder (addr : Nat → Nat) (n : Nat) : List Nat :=
  if n = 2 then sortOrder2 addr else sortOrder addr n

/-- The channels that `lock_all` locks and `unlock_all` unlocks, in order: a case whose channel is that
of the case before it, `prev`, is skipped. -/
def lockSeq [DecidableEq C] (chans : List C) (prev : Option C) : List Nat → List C
  | [] => []
  | i :: rest =>
    match chans[i]? with
    | none => lockSeq chans prev rest
    | some c =>
      if prev = some c then lockSeq chans prev rest else c :: lockSeq chans (some c) rest

end Order

/-- The generator of `chan_select_impl`. -/
def xorshift32 (x : U32) : U32 :=
  let x := x ^^^ (x <<< 13)
  let x := x ^^^ (x >>> 17)
  x ^^^ (x <<< 5)

/-- Places in step 1 of `chan_select_fast`. -/
inductive Fast1Pc
  | closed
  | cnt (o : ChanOp)
  | tail
  | head (pt : U32)
  deriving DecidableEq

/-- Places in step 2 of `chan_select_fast`. -/
inductive Fast2Pc (α : Type)
  | cnt (o : ChanOp)
  | closed
  | ring (p : RingPc Wid α)
  deriving DecidableEq

/-- Places in `case_ready`. -/
inductive ReadyPc
  | closed
  | first
  | second (a : U32)
  deriving DecidableEq

/-- Places in `execute_case_locked`. -/
inductive ExecPc (α : Type)
  | first
  | second (a : U32)
  | meetClaim
  | meetCopy (w : Wid)
  | ring (p : RingPc Wid α)
  | helpClaim
  | helpRing (w : Wid) (p : RingPc Wid α)
  | helpSettle (w : Wid)
  | wake (w : Wid)
  | closed
  deriving DecidableEq

/-- What follows `lock_all`: the first pass, or the cleanup after the park. -/
inductive LockNext
  | ready
  | clean (woken : Bool)
  deriving DecidableEq

/-- What follows `unlock_all`: return, or park. -/
inductive UnlockNext
  | ret (r : Ret)
  | park
  deriving DecidableEq

/-- The place of a thread inside a select. `cs` are the channels still to lock or unlock, `rdy` the
ready cases found so far. -/
inductive SelPc (C α : Type)
  | fast1 (i : Nat) (st : Fast1Pc)
  | fast2Start
  | fast2 (start j : Nat) (st : Fast2Pc α)
  | lockAll (cs : List C) (k : LockNext)
  | ready (i : Nat) (rdy : List Nat) (st : ReadyPc)
  | pick (rdy : List Nat)
  | exec (i : Nat) (st : ExecPc α)
  | stub (i : Nat)
  | unlockAll (cs : List C) (k : UnlockNext)
  | park
  | clean (i : Nat) (woken : Bool) (winner : Option Nat)
  | ret (r : Ret)
  deriving DecidableEq

namespace SelPc

variable {T C α : Type} [DecidableEq C]

/-- The channels of the cases in locking order. -/
def locks (K : Config T C) (cases : List (Case C α)) : List C :=
  let chans := cases.map Case.chan
  lockSeq chans none (lockOrder (fun i => (chans[i]?.map K.addr).getD 0) cases.length)

/-- `lock_all` from its start. -/
def lock (K : Config T C) (cases : List (Case C α)) (k : LockNext) : SelPc C α :=
  lockAll (locks K cases) k

/-- `unlock_all` from its start. -/
def unlock (K : Config T C) (cases : List (Case C α)) (k : UnlockNext) : SelPc C α :=
  unlockAll (locks K cases) k

/-- Step 1 of `chan_select_fast` from case `i` on: the next receive case, or step 2. -/
def scan1 (cases : List (Case C α)) (i : Nat) : SelPc C α :=
  match (cases.drop i).findIdx? fun k => k.op = .recv with
  | some d => fast1 (i + d) .closed
  | none => fast2Start

/-- The case of iteration `j` of step 2. -/
def index2 (cases : List (Case C α)) (start j : Nat) : Nat := (start + j) % cases.length

/-- Step 2 of `chan_select_fast` from iteration `j` on: the next case on a buffered channel, or the
locked path. -/
def scan2 (K : Config T C) (cases : List (Case C α)) (start j : Nat) : SelPc C α :=
  match (List.range (cases.length - j)).find? fun d =>
    ((cases[index2 cases start (j + d)]?).map fun k => decide (0 < (K.chan k.chan).capacity)).getD
      false with
  | some d => fast2 start (j + d) (.cnt .send)
  | none => lock K cases .ready

/-- The first place of a call with valid arguments. -/
def entry (cases : List (Case C α)) : SelPc C α :=
  if cases.length = 0 then ret (.sel none .invalid) else scan1 cases 0

/-- After the locked pass: run a ready case, or return, or register. -/
def passed (K : Config T C) (cases : List (Case C α)) (timeout : Int) (rdy : List Nat) :
    SelPc C α :=
  if rdy ≠ [] then pick rdy
  else if timeout = 0 then unlock K cases (.ret (.sel none .wouldblock))
  else stub 0

/-- `case_ready` of case `i` from its start; past the last case the pass is over. -/
def readyFrom (K : Config T C) (m : Mem T C α) (cases : List (Case C α)) (timeout : Int)
    (i : Nat) (rdy : List Nat) : SelPc C α :=
  match cases[i]? with
  | none => passed K cases timeout rdy
  | some k =>
    match k.op with
    | .send => ready i rdy .closed
    | .recv =>
      if (K.chan k.chan).capacity = 0 ∧ (m.chan k.chan).queue .send = [] then ready i rdy .closed
      else ready i rdy .first

/-- `execute_case_locked` of case `i` from its start. -/
def execFrom (K : Config T C) (m : Mem T C α) (w : Wid) (k : Case C α) : ExecPc α :=
  if (K.chan k.chan).capacity = 0 then .meetClaim
  else match k.op with
    | .send =>
      if (m.chan k.chan).queue .recv = [] then .ring (.loadHead (k.ringOp w)) else .first
    | .recv => .first

/-- Steps of `chan_select_fast` in its first loop. -/
def actFast1 (m : Mem T C α) (cases : List (Case C α)) (k : Case C α) (i : Nat) :
    Fast1Pc → SelPc C α
  | .closed => if (m.chan k.chan).closed then fast1 i (.cnt .send) else scan1 cases (i + 1)
  | .cnt .send =>
    if (m.chan k.chan).cnt .send ≠ 0 then scan1 cases (i + 1) else fast1 i (.cnt .recv)
  | .cnt .recv => if (m.chan k.chan).cnt .recv ≠ 0 then scan1 cases (i + 1) else fast1 i .tail
  | .tail => fast1 i (.head ((m.chan k.chan).ring.cur .send).tail)
  | .head pt =>
    if pt = ((m.chan k.chan).ring.cur .recv).head then ret (.sel (some i) .closed)
    else scan1 cases (i + 1)

/-- Steps of `chan_select_fast` in its second loop. -/
def actFast2 (K : Config T C) (m : Mem T C α) (cases : List (Case C α)) (k : Case C α) (w : Wid)
    (alt : Bool) (start j : Nat) : Fast2Pc α → Effect α × SelPc C α
  | .cnt .send =>
    (.none, if (m.chan k.chan).cnt .send ≠ 0 then scan2 K cases start (j + 1)
      else fast2 start j (.cnt .recv))
  | .cnt .recv =>
    (.none, if (m.chan k.chan).cnt .recv ≠ 0 then scan2 K cases start (j + 1)
      else match k.op with
        | .send => fast2 start j .closed
        | .recv => fast2 start j (.ring (.loadHead (k.ringOp w))))
  | .closed =>
    (.none, if (m.chan k.chan).closed then ret (.sel (some w.idx) .closed)
      else fast2 start j (.ring (.loadHead (k.ringOp w))))
  | .ring p =>
    (.ring alt p, ringNext (K.chan k.chan).ringCap (m.chan k.chan).ring alt p
      (fun p' => fast2 start j (.ring p'))
      fun res => if res.moved = 0 then scan2 K cases start (j + 1) else ret (.sel (some w.idx) .ok))

/-- Steps of `case_ready`. -/
def actReady (K : Config T C) (m : Mem T C α) (cases : List (Case C α)) (timeout : Int)
    (k : Case C α) (i : Nat) (rdy : List Nat) : ReadyPc → SelPc C α
  | .closed =>
    match k.op with
    | .send =>
      if (m.chan k.chan).closed then readyFrom K m cases timeout (i + 1) rdy
      else if (K.chan k.chan).capacity = 0 then
        readyFrom K m cases timeout (i + 1)
          (if (m.chan k.chan).queue .recv = [] then rdy else rdy ++ [i])
      else ready i rdy .first
    | .recv =>
      readyFrom K m cases timeout (i + 1) (if (m.chan k.chan).closed then rdy ++ [i] else rdy)
  | .first =>
    if (K.chan k.chan).capacity = 0 then readyFrom K m cases timeout (i + 1) (rdy ++ [i])
    else ready i rdy (.second (probeFirst (m.chan k.chan).ring k.op))
  | .second a =>
    if probeStops (K.chan k.chan).ringCap a (probeSecond (m.chan k.chan).ring k.op) k.op = false ∨
        (m.chan k.chan).queue k.op.other ≠ [] then
      readyFrom K m cases timeout (i + 1) (rdy ++ [i])
    else match k.op with
      | .send => readyFrom K m cases timeout (i + 1) rdy
      | .recv => ready i rdy .closed

/-- Steps of `execute_case_locked`; `done e` unlocks and returns the case with result `e`. -/
def actExec (K : Config T C) (m : Mem T C α) (k : Case C α) (w : Wid) (alt : Bool)
    (go : ExecPc α → SelPc C α) (done : ChanErr → SelPc C α) :
    ExecPc α → Option (Effect α × SelPc C α)
  | .first => some (.none, go (.second (probeFirst (m.chan k.chan).ring .recv)))
  | .second a =>
    some (.none,
      if probeStops (K.chan k.chan).ringCap a (probeSecond (m.chan k.chan).ring .recv) .recv then
        go .meetClaim
      else go (.ring (.loadHead (k.ringOp w))))
  | .meetClaim =>
    some (popNext m ((m.chan k.chan).queue k.op.other) k.op.other
      (match k.op with
        | .send =>
          if (K.chan k.chan).capacity = 0 then done .wouldblock
          else go (.ring (.loadHead (k.ringOp w)))
        | .recv => go .closed) (go .meetClaim) fun w' => go (.meetCopy w'))
  | .meetCopy w' =>
    match k.elem with
    | some x => some (.pair w w' w' x, go (.wake w'))
    | none => (m.waiter w').data.map fun x => (.pair w' w w' x, go (.wake w'))
  | .ring p =>
    -- the verdict of the ring operation is not looked at
    some (.ring alt p, ringNext (K.chan k.chan).ringCap (m.chan k.chan).ring alt p
      (fun p' => go (.ring p')) fun _ => go .helpClaim)
  | .helpClaim =>
    match (m.chan k.chan).queue k.op.other with
    | [] => some (.none, done .ok)
    | w' :: _ =>
      if m.claimable w' then
        match k.op with
        | .send => some (.claim .recv w', go (.helpSettle w'))
        | .recv =>
          (serveOp m w' .send).map fun rop => (.claim .send w', go (.helpRing w' (.loadHead rop)))
      else some (.drop k.op.other, go .helpClaim)
  | .helpRing w' p =>
    some (.ring alt p, ringNext (K.chan k.chan).ringCap (m.chan k.chan).ring alt p
      (fun p' => go (.helpRing w' p')) fun _ => go (.helpSettle w'))
  | .helpSettle w' => some (.settle w' .ok, go (.wake w'))
  | .wake w' => some (.wake w', done .ok)
  | .closed => some (.none, done (if (m.chan k.chan).closed then .closed else .wouldblock))

/-- The choice among several ready cases; a single one needs no random number. -/
def actPick (K : Config T C) (m : Mem T C α) (t : T) (rdy : List Nat) : Effect α × Nat :=
  if rdy.length = 1 then (.none, rdy.headD 0)
  else
    let seed := if (m.tls t).rng = 0 then K.self t ||| 1 else (m.tls t).rng
    let v := xorshift32 seed
    (.setRng v, rdy.getD (v.toNat % rdy.length) 0)

/-- What the cleanup returns. -/
def cleaned (m : Mem T C α) (id : Nat) (woken : Bool) : Option Nat → Ret
  | some i => if woken then .sel (some i) (m.waiter ⟨id, i⟩).result else .sel none .timeout
  | none => .sel none .timeout

/-- The next step of a thread inside a select: the channel, the effect on it and the place after it.
`dummy` stands in where no channel is touched. -/
def act (K : Config T C) (m : Mem T C α) (t : T) (id : Nat) (cases : List (Case C α))
    (timeout : Int) (alt : Bool) (dummy : C) : SelPc C α → Option (C × Effect α × SelPc C α)
  | fast1 i st => (cases[i]?).map fun k => (k.chan, .none, actFast1 m cases k i st)
  | fast2Start => some (dummy, .bumpRr, scan2 K cases ((m.tls t).rr % cases.length) 0)
  | fast2 start j st =>
    (cases[index2 cases start j]?).map fun k =>
      (k.chan, actFast2 K m cases k ⟨id, index2 cases start j⟩ alt start j st)
  | lockAll [] .ready => some (dummy, .none, readyFrom K m cases timeout 0 [])
  | lockAll [] (.clean woken) => some (dummy, .none, clean 0 woken none)
  | lockAll (c :: cs) k =>
    if (m.chan c).lock = none then some (c, .lock, lockAll cs k) else none
  | ready i rdy st =>
    (cases[i]?).map fun k => (k.chan, .none, actReady K m cases timeout k i rdy st)
  | pick rdy =>
    let (e, i) := actPick K m t rdy
    (cases[i]?).map fun k => (k.chan, e, exec i (execFrom K m ⟨id, i⟩ k))
  | exec i st =>
    (cases[i]?).bind fun k =>
      (actExec K m k ⟨id, i⟩ alt (exec i)
        (fun e => unlock K cases (.ret (.sel (some i) e))) st).map fun r => (k.chan, r)
  | stub i =>
    match cases[i]? with
    | some k => some (k.chan, .stub k.op ⟨id, i⟩, stub (i + 1))
    | none => some (dummy, .none, unlock K cases .park)
  | unlockAll [] (.ret r) => some (dummy, .none, ret r)
  | unlockAll [] .park => some (dummy, .none, park)
  | unlockAll (c :: cs) k => some (c, .unlock, unlockAll cs k)
  | park =>
    if alt then
      if 0 < timeout then some (dummy, .none, lock K cases (.clean false)) else none
    else if m.signaled id then some (dummy, .none, lock K cases (.clean true)) else none
  | clean i woken winner =>
    match cases[i]? with
    | some k =>
      if (m.waiter ⟨id, i⟩).result ≠ .wouldblock then
        some (k.chan, .none, clean (i + 1) woken (some i))
      else some (k.chan, .remove k.op ⟨id, i⟩, clean (i + 1) woken winner)
    | none => some (dummy, .none, unlock K cases (.ret (cleaned m id woken winner)))
  | ret _ => none

end SelPc

end LibChan
