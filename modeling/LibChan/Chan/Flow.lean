import LibChan.Chan.Direct

/-!
# The flow graph of the direct calls

`Pc.Flow` lists the edges from one place of a direct call to the next, each with its effect and with
what the step has seen. Every step follows an edge (`Pc.flow_of_act`). A fact about single places is
then checked edge by edge.
-/

set_option autoImplicit false

namespace LibChan

variable {T C α : Type}

/-- The call is a single send. -/
def Op.isSend : Op α → Bool
  | send _ _ => true
  | _ => false

/-- What a ring access on channel `c` leads to. -/
def Mem.access (K : Config T C) (m : Mem T C α) (c : C) (weak : Bool) (p : RingPc Wid α) :
    RingPc Wid α ⊕ RingRes α :=
  ((m.chan c).ring.step (K.chan c).ringCap weak p).2

/-- What a cached ring access on channel `c` leads to. -/
def Mem.spscAccess (K : Config T C) (m : Mem T C α) (c : C) (p : SpscPc Wid α) :
    SpscPc Wid α ⊕ RingRes α :=
  ((m.chan c).ring.spscStep (K.chan c).ringCap p).2

/-- The first places of direct calls. -/
inductive Pc.Begins (id : Nat) (op : Op α) : Pc α → Prop
  | closed : Begins id op (.fastClosed 0)
  | cnt : Begins id op (.fastCnt .send 0)
  | spsc : Begins id op (.fastSpsc 0 (.loadHead (op.ringOp id)))
  | slow : Begins id op .slowLock
  | nothing : Begins id op (.ret (.count 0))
  | burstClosed : Begins id op .burstClosed
  | burst : Begins id op (.burstRing (.loadHead (op.burstOp id)))
  | close : Begins id op .closeLock
  | len : Begins id op .lenTail

theorem Pc.begins_entry (k : ChanCfg) (id : Nat) (op : Op α) : Pc.Begins id op (Pc.entry k id op) := by
  have hattempt : Pc.Begins id op (Pc.attempt k id op 0) := by
    unfold attempt
    split
    · exact .closed
    · split
      · exact .spsc
      · exact .cnt
  cases op with
  | send x time =>
    simp only [entry]
    split
    · exact hattempt
    · exact .slow
  | recv time =>
    simp only [entry]
    split
    · exact hattempt
    · exact .slow
  | sendBurst xs =>
    simp only [entry]
    split
    · exact .nothing
    · exact .burstClosed
  | recvBurst n =>
    simp only [entry]
    split
    · exact .nothing
    · exact .burst
  | close => exact .close
  | len =>
    simp only [entry]
    split
    · exact .nothing
    · exact .len

/-- The two ends of `Pc.block`. -/
inductive Pc.Blocks (op : Op α) : Pc α → Prop
  | now (htime : op.timeout = 0) : Blocks op (.unlockRet (.err .wouldblock))
  | wait (htime : op.timeout ≠ 0) : Blocks op .enroll

theorem Pc.blocks_block (op : Op α) : Pc.Blocks op (Pc.block op) := by
  unfold Pc.block
  split
  · next h => exact .now h
  · next h => exact .wait h

open Pc in
/-- The edges between the places of a direct call. -/
inductive Pc.Flow (K : Config T C) (m : Mem T C α) (id : Nat) (c : C) (op : Op α) (alt : Bool) :
    Pc α → Effect α → Pc α → Prop
  | closed {spin : Nat} (hclosed : (m.chan c).closed = true) :
      Flow K m id c op alt (fastClosed spin) .none slowLock
  | openSpsc {spin spin' : Nat} (hopen : (m.chan c).closed = false)
      (hspsc : (K.chan c).spsc = true) :
      Flow K m id c op alt (fastClosed spin) .none (fastSpsc spin' (.loadHead (op.ringOp id)))
  | openCnt {spin spin' : Nat} (hopen : (m.chan c).closed = false)
      (hspsc : (K.chan c).spsc = false) :
      Flow K m id c op alt (fastClosed spin) .none (fastCnt .send spin')
  | openSlow {spin : Nat} (hopen : (m.chan c).closed = false) (hop : op.isSend = false) :
      Flow K m id c op alt (fastClosed spin) .none slowLock
  | cntBusy {o : ChanOp} {spin : Nat} (hcnt : (m.chan c).cnt o ≠ 0) :
      Flow K m id c op alt (fastCnt o spin) .none slowLock
  | cntSend {spin : Nat} (hcnt : (m.chan c).cnt .send = 0) :
      Flow K m id c op alt (fastCnt .send spin) .none (fastCnt .recv spin)
  | cntRecv {spin : Nat} (hcnt : (m.chan c).cnt .recv = 0) :
      Flow K m id c op alt (fastCnt .recv spin) .none (fastRing spin (.loadHead (op.ringOp id)))
  | fastIn {spin : Nat} {p p' : RingPc Wid α} (hp : m.access K c alt p = .inl p') :
      Flow K m id c op alt (fastRing spin p) (.ring alt p) (fastRing spin p')
  | fastHit {spin : Nat} {p : RingPc Wid α} {res : RingRes α} (hp : m.access K c alt p = .inr res)
      (hres : res.moved ≠ 0) :
      Flow K m id c op alt (fastRing spin p) (.ring alt p) (fastAfter (.err .ok))
  | fastMiss {spin spin' : Nat} {p : RingPc Wid α} {res : RingRes α}
      (hp : m.access K c alt p = .inr res) (hres : res.moved = 0) :
      Flow K m id c op alt (fastRing spin p) (.ring alt p) (fastClosed spin')
  | fastMissSlow {spin : Nat} {p : RingPc Wid α} {res : RingRes α}
      (hp : m.access K c alt p = .inr res) (hres : res.moved = 0) (hop : op.isSend = true) :
      Flow K m id c op alt (fastRing spin p) (.ring alt p) slowLock
  | spscIn {spin : Nat} {p p' : SpscPc Wid α} (hp : m.spscAccess K c p = .inl p') :
      Flow K m id c op alt (fastSpsc spin p) (.spsc p) (fastSpsc spin p')
  | spscHit {spin : Nat} {p : SpscPc Wid α} {res : RingRes α} (hp : m.spscAccess K c p = .inr res)
      (hres : res.moved ≠ 0) :
      Flow K m id c op alt (fastSpsc spin p) (.spsc p) (fastAfter (.err .ok))
  | spscMiss {spin spin' : Nat} {p : SpscPc Wid α} {res : RingRes α}
      (hp : m.spscAccess K c p = .inr res) (hres : res.moved = 0) :
      Flow K m id c op alt (fastSpsc spin p) (.spsc p) (fastClosed spin')
  | spscMissSlow {spin : Nat} {p : SpscPc Wid α} {res : RingRes α}
      (hp : m.spscAccess K c p = .inr res) (hres : res.moved = 0) (hop : op.isSend = true) :
      Flow K m id c op alt (fastSpsc spin p) (.spsc p) slowLock
  | burstShut (hclosed : (m.chan c).closed = true) :
      Flow K m id c op alt burstClosed .none (ret (.count 0))
  | burstOpen (hopen : (m.chan c).closed = false) :
      Flow K m id c op alt burstClosed .none (burstRing (.loadHead (op.burstOp id)))
  | burstIn {p p' : RingPc Wid α} (hp : m.access K c alt p = .inl p') :
      Flow K m id c op alt (burstRing p) (.ring alt p) (burstRing p')
  | burstHit {p : RingPc Wid α} {res : RingRes α} (hp : m.access K c alt p = .inr res)
      (hres : res.moved ≠ 0) :
      Flow K m id c op alt (burstRing p) (.ring alt p) (fastAfter (.count res.moved))
  | burstMiss {p : RingPc Wid α} {res : RingRes α} (hp : m.access K c alt p = .inr res)
      (hres : res.moved = 0) :
      Flow K m id c op alt (burstRing p) (.ring alt p) (ret (.count 0))
  | afterServe {r : Ret} (hcnt : (m.chan c).cnt op.side.other ≠ 0) :
      Flow K m id c op alt (fastAfter r) .none (serveLock r)
  | afterRet {r : Ret} (hcnt : (m.chan c).cnt op.side.other = 0) :
      Flow K m id c op alt (fastAfter r) .none (ret r)
  | serveLock {r : Ret} (hfree : (m.chan c).lock = none) :
      Flow K m id c op alt (serveLock r) .lock (serve (.leave r) .first)
  | serveFirst {k : ServeEnd} :
      Flow K m id c op alt (serve k .first) .none
        (serve k (.second (probeFirst (m.chan c).ring op.side.other)))
  | serveStop {r : Ret} {a : U32}
      (hstop : probeStops (K.chan c).ringCap a (probeSecond (m.chan c).ring op.side.other)
        op.side.other = true) :
      Flow K m id c op alt (serve (.leave r) (.second a)) .none (unlockRet r)
  | serveStopBlock {a : U32} {pc' : Pc α}
      (hstop : probeStops (K.chan c).ringCap a (probeSecond (m.chan c).ring op.side.other)
        op.side.other = true) (hblock : Blocks op pc') :
      Flow K m id c op alt (serve .block (.second a)) .none pc'
  | serveGo {k : ServeEnd} {a : U32}
      (hgo : probeStops (K.chan c).ringCap a (probeSecond (m.chan c).ring op.side.other)
        op.side.other = false) :
      Flow K m id c op alt (serve k (.second a)) .none (serve k .claim)
  | serveEmpty {r : Ret} (hqueue : (m.chan c).queue op.side.other = []) :
      Flow K m id c op alt (serve (.leave r) .claim) .none (unlockRet r)
  | serveEmptyBlock {pc' : Pc α} (hqueue : (m.chan c).queue op.side.other = [])
      (hblock : Blocks op pc') : Flow K m id c op alt (serve .block .claim) .none pc'
  | serveClaim {k : ServeEnd} {w : Wid} {q : List Wid} {rop : RingOp Wid α}
      (hqueue : (m.chan c).queue op.side.other = w :: q) (hclaim : m.claimable w = true)
      (hrop : serveOp m w op.side.other = some rop) :
      Flow K m id c op alt (serve k .claim) (.claim op.side.other w)
        (serve k (.ring w (.loadHead rop)))
  | serveDrop {k : ServeEnd} {w : Wid} {q : List Wid}
      (hqueue : (m.chan c).queue op.side.other = w :: q) (hclaim : m.claimable w = false) :
      Flow K m id c op alt (serve k .claim) (.drop op.side.other) (serve k .claim)
  | serveIn {k : ServeEnd} {w : Wid} {p p' : RingPc Wid α} (hp : m.access K c alt p = .inl p') :
      Flow K m id c op alt (serve k (.ring w p)) (.ring alt p) (serve k (.ring w p'))
  | serveHit {k : ServeEnd} {w : Wid} {p : RingPc Wid α} {res : RingRes α}
      (hp : m.access K c alt p = .inr res) (hres : res.moved ≠ 0) :
      Flow K m id c op alt (serve k (.ring w p)) (.ring alt p) (serve k (.settle w))
  | serveMiss {k : ServeEnd} {w : Wid} {p : RingPc Wid α} {res : RingRes α}
      (hp : m.access K c alt p = .inr res) (hres : res.moved = 0) :
      Flow K m id c op alt (serve k (.ring w p)) (.ring alt p) (serve k (.putBack w))
  | servePutBack {r : Ret} {w : Wid} :
      Flow K m id c op alt (serve (.leave r) (.putBack w)) (.putBack op.side.other w) (unlockRet r)
  | servePutBackBlock {w : Wid} {pc' : Pc α} (hblock : Blocks op pc') :
      Flow K m id c op alt (serve .block (.putBack w)) (.putBack op.side.other w) pc'
  | serveSettle {k : ServeEnd} {w : Wid} :
      Flow K m id c op alt (serve k (.settle w)) (.settle w .ok) (serve k (.wake w))
  | serveWake {k : ServeEnd} {w : Wid} :
      Flow K m id c op alt (serve k (.wake w)) (.wake w) (serve k .first)
  | slowSend (hfree : (m.chan c).lock = none) (hop : op.isSend = true) :
      Flow K m id c op alt slowLock .lock slowClosed
  | slowMeet (hfree : (m.chan c).lock = none) (hop : op.isSend = false)
      (hcap : (K.chan c).capacity = 0) : Flow K m id c op alt slowLock .lock meetClaim
  | slowBuffered (hfree : (m.chan c).lock = none) (hop : op.isSend = false)
      (hcap : (K.chan c).capacity ≠ 0) :
      Flow K m id c op alt slowLock .lock (slowRing (.loadHead (op.ringOp id)))
  | slowShut (hclosed : (m.chan c).closed = true) :
      Flow K m id c op alt slowClosed .none (unlockRet (.err .closed))
  | slowOpenMeet (hopen : (m.chan c).closed = false) (hcap : (K.chan c).capacity = 0) :
      Flow K m id c op alt slowClosed .none meetClaim
  | slowOpenRing (hopen : (m.chan c).closed = false) (hcap : (K.chan c).capacity ≠ 0) :
      Flow K m id c op alt slowClosed .none (slowRing (.loadHead (op.ringOp id)))
  | slowIn {p p' : RingPc Wid α} (hp : m.access K c alt p = .inl p') :
      Flow K m id c op alt (slowRing p) (.ring alt p) (slowRing p')
  | slowSendHit {p : RingPc Wid α} {res : RingRes α} (hp : m.access K c alt p = .inr res)
      (hres : res.moved ≠ 0) (hop : op.isSend = true) :
      Flow K m id c op alt (slowRing p) (.ring alt p) (serve (.leave (.err .ok)) .first)
  | slowSendMiss {p : RingPc Wid α} {res : RingRes α} (hp : m.access K c alt p = .inr res)
      (hres : res.moved = 0) (hop : op.isSend = true) :
      Flow K m id c op alt (slowRing p) (.ring alt p) (serve .block .first)
  | slowRecvHit {p : RingPc Wid α} {res : RingRes α} (hp : m.access K c alt p = .inr res)
      (hres : res.moved ≠ 0) (hop : op.isSend = false) :
      Flow K m id c op alt (slowRing p) (.ring alt p) helpClaim
  | slowRecvMiss {p : RingPc Wid α} {res : RingRes α} (hp : m.access K c alt p = .inr res)
      (hres : res.moved = 0) (hop : op.isSend = false) :
      Flow K m id c op alt (slowRing p) (.ring alt p) meetClaim
  | meetEmptySend {pc' : Pc α} (hqueue : (m.chan c).queue op.side.other = [])
      (hop : op.isSend = true) (hblock : Blocks op pc') :
      Flow K m id c op alt meetClaim .none pc'
  | meetEmptyRecv (hqueue : (m.chan c).queue op.side.other = []) (hop : op.isSend = false) :
      Flow K m id c op alt meetClaim .none emptyClosed
  | meetClaim {w : Wid} {q : List Wid} (hqueue : (m.chan c).queue op.side.other = w :: q)
      (hclaim : m.claimable w = true) :
      Flow K m id c op alt meetClaim (.claim op.side.other w) (meetCopy w)
  | meetDrop {w : Wid} {q : List Wid} (hqueue : (m.chan c).queue op.side.other = w :: q)
      (hclaim : m.claimable w = false) :
      Flow K m id c op alt meetClaim (.drop op.side.other) meetClaim
  | meetSend {w : Wid} {x : α} {time : Int} (hop : op = .send x time) :
      Flow K m id c op alt (meetCopy w) (.pair ⟨id, 0⟩ w w x) (meetUnlock w)
  | meetRecv {w : Wid} {x : α} (hop : op.isSend = false) (hdata : (m.waiter w).data = some x) :
      Flow K m id c op alt (meetCopy w) (.pair w ⟨id, 0⟩ w x) (meetUnlock w)
  | meetUnlock {w : Wid} : Flow K m id c op alt (meetUnlock w) .unlock (wakeRet w)
  | helpEmpty (hqueue : (m.chan c).queue .send = []) :
      Flow K m id c op alt helpClaim .none (unlockRet (.err .ok))
  | helpClaim {w : Wid} {q : List Wid} {rop : RingOp Wid α}
      (hqueue : (m.chan c).queue .send = w :: q) (hclaim : m.claimable w = true)
      (hrop : serveOp m w .send = some rop) :
      Flow K m id c op alt helpClaim (.claim .send w) (helpRing w (.loadHead rop))
  | helpDrop {w : Wid} {q : List Wid} (hqueue : (m.chan c).queue .send = w :: q)
      (hclaim : m.claimable w = false) :
      Flow K m id c op alt helpClaim (.drop .send) helpClaim
  | helpIn {w : Wid} {p p' : RingPc Wid α} (hp : m.access K c alt p = .inl p') :
      Flow K m id c op alt (helpRing w p) (.ring alt p) (helpRing w p')
  | helpHit {w : Wid} {p : RingPc Wid α} {res : RingRes α} (hp : m.access K c alt p = .inr res)
      (hres : res.moved ≠ 0) : Flow K m id c op alt (helpRing w p) (.ring alt p) (helpSettle w)
  | helpMiss {w : Wid} {p : RingPc Wid α} {res : RingRes α} (hp : m.access K c alt p = .inr res)
      (hres : res.moved = 0) : Flow K m id c op alt (helpRing w p) (.ring alt p) (helpPutBack w)
  | helpPutBack {w : Wid} :
      Flow K m id c op alt (helpPutBack w) (.putBack .send w) (unlockRet (.err .ok))
  | helpSettle {w : Wid} : Flow K m id c op alt (helpSettle w) (.settle w .ok) (helpUnlock w)
  | helpUnlock {w : Wid} : Flow K m id c op alt (helpUnlock w) .unlock (wakeRet w)
  | wakeRet {w : Wid} : Flow K m id c op alt (wakeRet w) (.wake w) (ret (.err .ok))
  | emptyShut (hclosed : (m.chan c).closed = true) :
      Flow K m id c op alt emptyClosed .none (unlockRet (.err .closed))
  | emptyOpen {pc' : Pc α} (hopen : (m.chan c).closed = false) (hblock : Blocks op pc') :
      Flow K m id c op alt emptyClosed .none pc'
  | enrollMeet (hcap : (K.chan c).capacity = 0) :
      Flow K m id c op alt enroll (.enroll op.side ⟨id, 0⟩) parkUnlock
  | enrollRing (hcap : (K.chan c).capacity ≠ 0) :
      Flow K m id c op alt enroll (.enroll op.side ⟨id, 0⟩) (recheck (.loadHead (op.ringOp id)))
  | recheckIn {p p' : RingPc Wid α} (hp : m.access K c alt p = .inl p') :
      Flow K m id c op alt (recheck p) (.ring alt p) (recheck p')
  | recheckHit {p : RingPc Wid α} {res : RingRes α} (hp : m.access K c alt p = .inr res)
      (hres : res.moved ≠ 0) : Flow K m id c op alt (recheck p) (.ring alt p) unRemove
  | recheckMiss {p : RingPc Wid α} {res : RingRes α} (hp : m.access K c alt p = .inr res)
      (hres : res.moved = 0) : Flow K m id c op alt (recheck p) (.ring alt p) parkUnlock
  | unRemove : Flow K m id c op alt unRemove (.remove op.side ⟨id, 0⟩) unDecr
  | unDecrSend (hop : op.isSend = true) :
      Flow K m id c op alt unDecr (.decr op.side ⟨id, 0⟩) (serve (.leave (.err .ok)) .first)
  | unDecrRecv (hop : op.isSend = false) :
      Flow K m id c op alt unDecr (.decr op.side ⟨id, 0⟩) (unlockRet (.err .ok))
  | parkUnlock : Flow K m id c op alt parkUnlock .unlock park
  | parkExpire (halt : alt = true) (hexp : 0 < op.timeout ∨ backstop (K.chan c) op = true) :
      Flow K m id c op alt park .none expLock
  | parkWoken (hsig : m.signaled id = true) : Flow K m id c op alt park .none (decr none)
  | expLock (hfree : (m.chan c).lock = none) : Flow K m id c op alt expLock .lock expRemove
  | expBackSend (hback : backstop (K.chan c) op = true)
      (hmem : (⟨id, 0⟩ : Wid) ∈ (m.chan c).queue op.side) (hop : op.isSend = true) :
      Flow K m id c op alt expRemove (.remove op.side ⟨id, 0⟩) backClosed
  | expBackRecv (hback : backstop (K.chan c) op = true)
      (hmem : (⟨id, 0⟩ : Wid) ∈ (m.chan c).queue op.side) (hop : op.isSend = false) :
      Flow K m id c op alt expRemove (.remove op.side ⟨id, 0⟩)
        (backRing (.loadHead (op.ringOp id)))
  | expBackGone (hback : backstop (K.chan c) op = true)
      (hmem : (⟨id, 0⟩ : Wid) ∉ (m.chan c).queue op.side) :
      Flow K m id c op alt expRemove (.remove op.side ⟨id, 0⟩) backUnlock
  | expRemove {still : Bool} (hback : backstop (K.chan c) op = false)
      (hstill : still = true ↔ (⟨id, 0⟩ : Wid) ∈ (m.chan c).queue op.side) :
      Flow K m id c op alt expRemove (.remove op.side ⟨id, 0⟩) (expUnlock still)
  | expTimeout {still : Bool} (hstill : (K.chan c).capacity = 0 ∨ still = true) :
      Flow K m id c op alt (expUnlock still) .unlock (decr (some .timeout))
  | expResult (hcap : (K.chan c).capacity ≠ 0) :
      Flow K m id c op alt (expUnlock false) .unlock (decr none)
  | backShut (hclosed : (m.chan c).closed = true) :
      Flow K m id c op alt backClosed .none (backSettle .closed)
  | backOpenSend (hopen : (m.chan c).closed = false) (hop : op.isSend = true) :
      Flow K m id c op alt backClosed .none (backRing (.loadHead (op.ringOp id)))
  | backOpenRecv (hopen : (m.chan c).closed = false) (hop : op.isSend = false) :
      Flow K m id c op alt backClosed .none requeue
  | backIn {p p' : RingPc Wid α} (hp : m.access K c alt p = .inl p') :
      Flow K m id c op alt (backRing p) (.ring alt p) (backRing p')
  | backHit {p : RingPc Wid α} {res : RingRes α} (hp : m.access K c alt p = .inr res)
      (hres : res.moved ≠ 0) : Flow K m id c op alt (backRing p) (.ring alt p) (backSettle .ok)
  | backMissSend {p : RingPc Wid α} {res : RingRes α} (hp : m.access K c alt p = .inr res)
      (hres : res.moved = 0) (hop : op.isSend = true) :
      Flow K m id c op alt (backRing p) (.ring alt p) requeue
  | backMissRecv {p : RingPc Wid α} {res : RingRes α} (hp : m.access K c alt p = .inr res)
      (hres : res.moved = 0) (hop : op.isSend = false) :
      Flow K m id c op alt (backRing p) (.ring alt p) backClosed
  | backSettle {r : ChanErr} : Flow K m id c op alt (backSettle r) (.settle ⟨id, 0⟩ r) backUnlock
  | backUnlock : Flow K m id c op alt backUnlock .unlock (decr none)
  | requeue : Flow K m id c op alt requeue (.requeue op.side ⟨id, 0⟩) reparkUnlock
  | reparkUnlock : Flow K m id c op alt reparkUnlock .unlock repark
  | reparkWoken (hsig : m.signaled id = true) : Flow K m id c op alt repark .none (decr none)
  | decr {r : Option ChanErr} :
      Flow K m id c op alt (decr r) (.decr op.side ⟨id, 0⟩)
        (ret (.err (r.getD (m.waiter ⟨id, 0⟩).result)))
  | unlockRet {r : Ret} : Flow K m id c op alt (unlockRet r) .unlock (ret r)
  | closeLock (hfree : (m.chan c).lock = none) : Flow K m id c op alt closeLock .lock closeTest
  | closeAgain (hclosed : (m.chan c).closed = true) :
      Flow K m id c op alt closeTest .none (unlockRet (.err .closed))
  | closeFirst (hopen : (m.chan c).closed = false) : Flow K m id c op alt closeTest .none closeStore
  | closeStore : Flow K m id c op alt closeStore .setClosed (closeClaim .send)
  | closeSendEmpty (hqueue : (m.chan c).queue .send = []) :
      Flow K m id c op alt (closeClaim .send) .none (closeClaim .recv)
  | closeRecvEmpty (hqueue : (m.chan c).queue .recv = []) :
      Flow K m id c op alt (closeClaim .recv) .none (unlockRet (.err .ok))
  | closeClaimSend {w : Wid} {q : List Wid} (hqueue : (m.chan c).queue .send = w :: q)
      (hclaim : m.claimable w = true) :
      Flow K m id c op alt (closeClaim .send) (.claim .send w) (closeSettle .send w .closed)
  | closeClaimRing {w : Wid} {q : List Wid} (hqueue : (m.chan c).queue .recv = w :: q)
      (hclaim : m.claimable w = true) (hcap : 0 < (K.chan c).capacity) :
      Flow K m id c op alt (closeClaim .recv) (.claim .recv w)
        (closeRing w (.loadHead (.pop w)))
  | closeClaimMeet {w : Wid} {q : List Wid} (hqueue : (m.chan c).queue .recv = w :: q)
      (hclaim : m.claimable w = true) (hcap : (K.chan c).capacity = 0) :
      Flow K m id c op alt (closeClaim .recv) (.claim .recv w) (closeSettle .recv w .closed)
  | closeDrop {o : ChanOp} {w : Wid} {q : List Wid} (hqueue : (m.chan c).queue o = w :: q)
      (hclaim : m.claimable w = false) :
      Flow K m id c op alt (closeClaim o) (.drop o) (closeClaim o)
  | closeIn {w : Wid} {p p' : RingPc Wid α} (hp : m.access K c alt p = .inl p') :
      Flow K m id c op alt (closeRing w p) (.ring alt p) (closeRing w p')
  | closeHit {w : Wid} {p : RingPc Wid α} {res : RingRes α} (hp : m.access K c alt p = .inr res)
      (hres : res.moved ≠ 0) :
      Flow K m id c op alt (closeRing w p) (.ring alt p) (closeSettle .recv w .ok)
  | closeMiss {w : Wid} {p : RingPc Wid α} {res : RingRes α} (hp : m.access K c alt p = .inr res)
      (hres : res.moved = 0) :
      Flow K m id c op alt (closeRing w p) (.ring alt p) (closeSettle .recv w .closed)
  | closeSettle {o : ChanOp} {w : Wid} {r : ChanErr} :
      Flow K m id c op alt (closeSettle o w r) (.settle w r) (closeWake o w)
  | closeWake {o : ChanOp} {w : Wid} :
      Flow K m id c op alt (closeWake o w) (.wake w) (closeClaim o)
  | lenTail : Flow K m id c op alt lenTail .none (lenHead ((m.chan c).ring.cur .send).tail)
  | lenHead {pt : U32} : Flow K m id c op alt (lenHead pt) .none
      (ret (.count (pt - ((m.chan c).ring.cur .recv).head).toNat))

section Direct

variable {K : Config T C} {m : Mem T C α} {id : Nat} {c : C} {op : Op α} {alt : Bool}
  {pc pc' : Pc α} {e : Effect α}

/-- The two ends of a ring access. -/
theorem ringNext_cases {π : Type} {p : RingPc Wid α} {inside : RingPc Wid α → π}
    {after : RingRes α → π} (P : π → Prop)
    (hinside : ∀ p', m.access K c alt p = .inl p' → P (inside p'))
    (hafter : ∀ res, m.access K c alt p = .inr res → P (after res)) :
    P (ringNext (K.chan c).ringCap (m.chan c).ring alt p inside after) := by
  rw [ringNext]
  split
  · next p' hp => exact hinside p' hp
  · next res hp => exact hafter res hp

/-- The two ends of a cached ring access. -/
theorem spscNext_cases {π : Type} {p : SpscPc Wid α} {inside : SpscPc Wid α → π}
    {after : RingRes α → π} (P : π → Prop)
    (hinside : ∀ p', m.spscAccess K c p = .inl p' → P (inside p'))
    (hafter : ∀ res, m.spscAccess K c p = .inr res → P (after res)) :
    P (spscNext (K.chan c).ringCap (m.chan c).ring p inside after) := by
  rw [spscNext]
  split
  · next p' hp => exact hinside p' hp
  · next res hp => exact hafter res hp

theorem Op.isSend_of_ne (h : ∀ (x : α) (time : Int), op = .send x time → False) :
    op.isSend = false := by
  cases op with
  | send x time => exact (h x time rfl).elim
  | _ => rfl

theorem Pc.flow_of_actServe {k : ServeEnd} {st : ServePc α}
    (h : Pc.actServe K m c op alt k st = some (e, pc')) :
    Pc.Flow K m id c op alt (.serve k st) e pc' := by
  cases st with
  | first =>
    cases h
    exact .serveFirst
  | second a =>
    cases h
    split
    · next hstop =>
      cases k with
      | leave r => exact .serveStop hstop
      | block => exact .serveStopBlock hstop (blocks_block op)
    · next hgo => exact .serveGo (Bool.eq_false_iff.2 hgo)
  | claim =>
    simp only [Pc.actServe] at h
    split at h
    · next hq =>
      cases h
      cases k with
      | leave r => exact .serveEmpty hq
      | block => exact .serveEmptyBlock hq (blocks_block op)
    · next w q hq =>
      split at h
      · next hclaim =>
        obtain ⟨rop, hrop, heq⟩ := Option.map_eq_some_iff.1 h
        cases heq
        exact .serveClaim hq hclaim hrop
      · next hclaim =>
        cases h
        exact .serveDrop hq (Bool.eq_false_iff.2 hclaim)
  | ring w p =>
    cases h
    refine ringNext_cases (Pc.Flow K m id c op alt _ _) (fun p' hp => .serveIn hp) fun res hp => ?_
    split
    · next hres => exact .serveMiss hp hres
    · next hres => exact .serveHit hp hres
  | putBack w =>
    cases h
    cases k with
    | leave r => exact .servePutBack
    | block => exact .servePutBackBlock (blocks_block op)
  | settle w =>
    cases h
    exact .serveSettle
  | wake w =>
    cases h
    exact .serveWake

theorem Pc.flow_of_expired {still : Bool} : Pc.Flow K m id c op alt (.expUnlock still) .unlock
    (.decr (if (K.chan c).capacity = 0 ∨ still = true then some .timeout else none)) := by
  split
  · next hstill => exact .expTimeout hstill
  · next hstill =>
    rw [not_or, Bool.not_eq_true] at hstill
    rw [hstill.2]
    exact .expResult hstill.1

/-- Every step of a direct call follows an edge. -/
theorem Pc.flow_of_act (h : pc.act K m id c op alt = some (e, pc')) :
    Pc.Flow K m id c op alt pc e pc' := by
  cases pc with
  | fastClosed spin =>
    cases h
    split
    · next hclosed => exact .closed hclosed
    · next hopen =>
      rw [Bool.not_eq_true] at hopen
      split
      · split
        · next hspsc => exact .openSpsc hopen hspsc
        · next hspsc => exact .openCnt hopen (Bool.eq_false_iff.2 hspsc)
      · next hop =>
        split
        · exact .openSlow hopen (Op.isSend_of_ne hop)
        · unfold attempt
          split
          · next x time => exact (hop x time rfl).elim
          · split
            · next hspsc => exact .openSpsc hopen hspsc
            · next hspsc => exact .openCnt hopen (Bool.eq_false_iff.2 hspsc)
  | fastCnt o spin =>
    cases o with
    | send =>
      cases h
      split
      · next hcnt => exact .cntBusy hcnt
      · next hcnt => exact .cntSend (not_not.1 hcnt)
    | recv =>
      cases h
      split
      · next hcnt => exact .cntBusy hcnt
      · next hcnt => exact .cntRecv (not_not.1 hcnt)
  | fastRing spin p =>
    cases h
    refine ringNext_cases (Pc.Flow K m id c op alt _ _) (fun p' hp => .fastIn hp) fun res hp => ?_
    split
    · next hres =>
      unfold missed
      split
      · split
        · exact .fastMissSlow hp hres rfl
        · exact .fastMiss hp hres
      · exact .fastMiss hp hres
    · next hres => exact .fastHit hp hres
  | fastSpsc spin p =>
    cases h
    refine spscNext_cases (Pc.Flow K m id c op alt _ _) (fun p' hp => .spscIn hp) fun res hp => ?_
    split
    · next hres =>
      unfold missed
      split
      · split
        · exact .spscMissSlow hp hres rfl
        · exact .spscMiss hp hres
      · exact .spscMiss hp hres
    · next hres => exact .spscHit hp hres
  | burstClosed =>
    cases h
    split
    · next hclosed => exact .burstShut hclosed
    · next hopen => exact .burstOpen (Bool.eq_false_iff.2 hopen)
  | burstRing p =>
    cases h
    refine ringNext_cases (Pc.Flow K m id c op alt _ _) (fun p' hp => .burstIn hp) fun res hp => ?_
    split
    · next hres => exact .burstMiss hp hres
    · next hres => exact .burstHit hp hres
  | fastAfter r =>
    cases h
    split
    · next hcnt => exact .afterServe hcnt
    · next hcnt => exact .afterRet (not_not.1 hcnt)
  | serveLock r =>
    obtain ⟨hfree, heq⟩ := Option.ite_none_right_eq_some.1 h
    cases heq
    exact .serveLock hfree
  | serve k st => exact flow_of_actServe h
  | slowLock =>
    obtain ⟨hfree, heq⟩ := Option.ite_none_right_eq_some.1 h
    cases heq
    split
    · exact .slowSend hfree rfl
    · next hop =>
      split
      · next hcap => exact .slowMeet hfree (Op.isSend_of_ne hop) hcap
      · next hcap => exact .slowBuffered hfree (Op.isSend_of_ne hop) hcap
  | slowClosed =>
    cases h
    split
    · next hclosed => exact .slowShut hclosed
    · next hopen =>
      split
      · next hcap => exact .slowOpenMeet (Bool.eq_false_iff.2 hopen) hcap
      · next hcap => exact .slowOpenRing (Bool.eq_false_iff.2 hopen) hcap
  | slowRing p =>
    cases h
    refine ringNext_cases (Pc.Flow K m id c op alt _ _) (fun p' hp => .slowIn hp) fun res hp => ?_
    split
    · split
      · next hres => exact .slowSendMiss hp hres rfl
      · next hres => exact .slowSendHit hp hres rfl
    · next hop =>
      split
      · next hres => exact .slowRecvMiss hp hres (Op.isSend_of_ne hop)
      · next hres => exact .slowRecvHit hp hres (Op.isSend_of_ne hop)
  | meetClaim =>
    simp only [Pc.act, popNext] at h
    split at h
    · next hq =>
      cases h
      split
      · exact .meetEmptySend hq rfl (blocks_block _)
      · next hop => exact .meetEmptyRecv hq (Op.isSend_of_ne hop)
    · next w q hq =>
      split at h
      · next hclaim =>
        cases h
        exact .meetClaim hq hclaim
      · next hclaim =>
        cases h
        exact .meetDrop hq (Bool.eq_false_iff.2 hclaim)
  | meetCopy w =>
    simp only [Pc.act] at h
    split at h
    · cases h
      exact .meetSend rfl
    · next hop =>
      obtain ⟨x, hx, heq⟩ := Option.map_eq_some_iff.1 h
      cases heq
      exact .meetRecv (Op.isSend_of_ne hop) hx
  | meetUnlock w => cases h; exact .meetUnlock
  | helpClaim =>
    simp only [Pc.act] at h
    split at h
    · next hq =>
      cases h
      exact .helpEmpty hq
    · next w q hq =>
      split at h
      · next hclaim =>
        obtain ⟨rop, hrop, heq⟩ := Option.map_eq_some_iff.1 h
        cases heq
        exact .helpClaim hq hclaim hrop
      · next hclaim =>
        cases h
        exact .helpDrop hq (Bool.eq_false_iff.2 hclaim)
  | helpRing w p =>
    cases h
    refine ringNext_cases (Pc.Flow K m id c op alt _ _) (fun p' hp => .helpIn hp) fun res hp => ?_
    split
    · next hres => exact .helpMiss hp hres
    · next hres => exact .helpHit hp hres
  | helpPutBack w => cases h; exact .helpPutBack
  | helpSettle w => cases h; exact .helpSettle
  | helpUnlock w => cases h; exact .helpUnlock
  | wakeRet w => cases h; exact .wakeRet
  | emptyClosed =>
    cases h
    split
    · next hclosed => exact .emptyShut hclosed
    · next hopen => exact .emptyOpen (Bool.eq_false_iff.2 hopen) (blocks_block op)
  | enroll =>
    cases h
    split
    · next hcap => exact .enrollMeet hcap
    · next hcap => exact .enrollRing hcap
  | recheck p =>
    cases h
    refine ringNext_cases (Pc.Flow K m id c op alt _ _) (fun p' hp => .recheckIn hp) fun res hp => ?_
    split
    · next hres => exact .recheckMiss hp hres
    · next hres => exact .recheckHit hp hres
  | unRemove => cases h; exact .unRemove
  | unDecr =>
    cases h
    split
    · exact .unDecrSend rfl
    · next hop => exact .unDecrRecv (Op.isSend_of_ne hop)
  | parkUnlock => cases h; exact .parkUnlock
  | park =>
    simp only [Pc.act] at h
    split at h
    · next halt =>
      obtain ⟨hexp, heq⟩ := Option.ite_none_right_eq_some.1 h
      cases heq
      exact .parkExpire halt hexp
    · obtain ⟨hsig, heq⟩ := Option.ite_none_right_eq_some.1 h
      cases heq
      exact .parkWoken hsig
  | expLock =>
    obtain ⟨hfree, heq⟩ := Option.ite_none_right_eq_some.1 h
    cases heq
    exact .expLock hfree
  | expRemove =>
    cases h
    split
    · next hback =>
      split
      · next hstill =>
        have hmem := of_decide_eq_true hstill
        split
        · exact .expBackSend hback hmem rfl
        · next hop => exact .expBackRecv hback hmem (Op.isSend_of_ne hop)
      · next hstill => exact .expBackGone hback fun hmem => hstill (decide_eq_true hmem)
    · next hback => exact .expRemove (Bool.eq_false_iff.2 hback) decide_eq_true_iff
  | expUnlock still =>
    cases h
    exact flow_of_expired
  | backClosed =>
    cases h
    split
    · next hclosed => exact .backShut hclosed
    · next hopen =>
      split
      · exact .backOpenSend (Bool.eq_false_iff.2 hopen) rfl
      · next hop => exact .backOpenRecv (Bool.eq_false_iff.2 hopen) (Op.isSend_of_ne hop)
  | backRing p =>
    cases h
    refine ringNext_cases (Pc.Flow K m id c op alt _ _) (fun p' hp => .backIn hp) fun res hp => ?_
    split
    · next hres =>
      split
      · exact .backMissSend hp hres rfl
      · next hop => exact .backMissRecv hp hres (Op.isSend_of_ne hop)
    · next hres => exact .backHit hp hres
  | backSettle r => cases h; exact .backSettle
  | backUnlock => cases h; exact .backUnlock
  | requeue => cases h; exact .requeue
  | reparkUnlock => cases h; exact .reparkUnlock
  | repark =>
    obtain ⟨hsig, heq⟩ := Option.ite_none_right_eq_some.1 h
    cases heq
    exact .reparkWoken hsig
  | decr r => cases h; exact .decr
  | unlockRet r => cases h; exact .unlockRet
  | ret r => cases h
  | closeLock =>
    obtain ⟨hfree, heq⟩ := Option.ite_none_right_eq_some.1 h
    cases heq
    exact .closeLock hfree
  | closeTest =>
    cases h
    split
    · next hclosed => exact .closeAgain hclosed
    · next hopen => exact .closeFirst (Bool.eq_false_iff.2 hopen)
  | closeStore => cases h; exact .closeStore
  | closeClaim o =>
    simp only [Pc.act, popNext] at h
    split at h
    · next hq =>
      cases h
      cases o with
      | send => exact .closeSendEmpty hq
      | recv => exact .closeRecvEmpty hq
    · next w q hq =>
      split at h
      · next hclaim =>
        cases h
        cases o with
        | send => exact .closeClaimSend hq hclaim
        | recv =>
          simp only
          split
          · next hcap => exact .closeClaimRing hq hclaim hcap
          · next hcap => exact .closeClaimMeet hq hclaim (Nat.eq_zero_of_not_pos hcap)
      · next hclaim =>
        cases h
        exact .closeDrop hq (Bool.eq_false_iff.2 hclaim)
  | closeRing w p =>
    cases h
    refine ringNext_cases (Pc.Flow K m id c op alt _ _) (fun p' hp => .closeIn hp) fun res hp => ?_
    split
    · next hres => exact .closeMiss hp hres
    · next hres => exact .closeHit hp hres
  | closeSettle o w r => cases h; exact .closeSettle
  | closeWake o w => cases h; exact .closeWake
  | lenTail => cases h; exact .lenTail
  | lenHead pt => cases h; exact .lenHead

end Direct

end LibChan
