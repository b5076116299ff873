import LibChan.Chan.SelectFlow
import LibChan.Chan.History

/-!
# What a place says about its call

Facts that hold at a place of the code whatever the other threads do: which calls can be there, which
ring operation it runs and on whose behalf, what it is going to return (`Thread.Ok`).
-/

set_option autoImplicit false

namespace LibChan

variable {T C α : Type}

/-- A send or a receive of one element. -/
def Op.single : Op α → Bool
  | send _ _ | recv _ => true
  | _ => false

/-- A burst. -/
def Op.burst : Op α → Bool
  | sendBurst _ | recvBurst _ => true
  | _ => false

/-- The returns of a call: an error code or a count. -/
def Op.Fits (op : Op α) (r : Ret) : Prop :=
  match op with
  | .send _ _ | .recv _ | .close => ∃ e, r = .err e
  | .sendBurst _ | .recvBurst _ | .len => ∃ n, r = .count n

/-- The returns of a call that has moved something. -/
def Op.Moved (op : Op α) (r : Ret) : Prop :=
  match op with
  | .send _ _ | .recv _ => r = .err .ok
  | .sendBurst _ | .recvBurst _ => ∃ n, n ≠ 0 ∧ r = .count n
  | _ => False

/-- A ring operation for the single waiter `w` of queue `o`. -/
def RingOp.Serves {ω β : Type} (w : ω) (o : ChanOp) : RingOp ω β → Prop
  | push v _ => o = .send ∧ v = w
  | pop v => o = .recv ∧ v = w
  | _ => False

theorem serves_of_serveOp {m : Mem T C α} {w : Wid} {o : ChanOp} {rop : RingOp Wid α}
    (h : serveOp m w o = some rop) : rop.Serves w o := by
  cases o with
  | send =>
    obtain ⟨x, -, rfl⟩ := Option.map_eq_some_iff.1 h
    exact ⟨rfl, rfl⟩
  | recv =>
    cases h
    exact ⟨rfl, rfl⟩

section Access

variable {ω β : Type} {cap : RingCap} {r : Ring β} {weak : Bool}

/-- The run a ring operation asks for or has reserved is not empty and no longer than asked for. -/
def RingPc.Fit : RingPc ω β → Prop
  | loadHead op => op.Valid
  | loadOpp op _ => op.Valid
  | cas op _ k => op.Valid ∧ 0 < k.toNat ∧ k.toNat ≤ op.want
  | copy op _ k i _ => op.Valid ∧ i < k.toNat ∧ k.toNat ≤ op.want
  | wait op _ k _ => op.Valid ∧ 0 < k.toNat ∧ k.toNat ≤ op.want
  | store op _ k _ => op.Valid ∧ 0 < k.toNat ∧ k.toNat ≤ op.want

theorem RingOp.reserve_le {op : RingOp ω β} (hop : op.Valid) {a b k : U32}
    (h : op.reserve cap a b = some k) : 0 < k.toNat ∧ k.toNat ≤ op.want := by
  have hburst : ∀ {n : Nat} {v : U32}, 0 < n → n < 2 ^ 32 → v ≠ 0 →
      0 < (if BitVec.ofNat 32 n < v then BitVec.ofNat 32 n else v).toNat ∧
        (if BitVec.ofNat 32 n < v then BitVec.ofNat 32 n else v).toNat ≤ n := by
    intro n v hpos hlt hv
    have hn : (BitVec.ofNat 32 n).toNat = n := by
      rw [BitVec.toNat_ofNat, Nat.mod_eq_of_lt hlt]
    split
    · rw [hn]
      exact ⟨hpos, Nat.le_refl n⟩
    · next hle =>
      rw [BitVec.lt_def, hn, Nat.not_lt] at hle
      exact ⟨Nat.pos_of_ne_zero fun hz => hv (BitVec.eq_of_toNat_eq hz), hle⟩
  cases op with
  | push w x =>
    obtain ⟨-, heq⟩ := Option.ite_none_left_eq_some.1 h
    cases heq
    exact ⟨Nat.one_pos, Nat.le_refl 1⟩
  | pop w =>
    obtain ⟨-, heq⟩ := Option.ite_none_left_eq_some.1 h
    cases heq
    exact ⟨Nat.one_pos, Nat.le_refl 1⟩
  | enqueueBurst xs =>
    obtain ⟨hne, heq⟩ := Option.ite_none_left_eq_some.1 h
    cases heq
    exact hburst hop.1 hop.2 hne
  | dequeueBurst ws =>
    obtain ⟨hne, heq⟩ := Option.ite_none_left_eq_some.1 h
    cases heq
    exact hburst hop.1 hop.2 hne

/-- The place is in operation `op`. -/
def RingPc.Runs (op : RingOp ω β) (p : RingPc ω β) : Prop := p.op = op ∧ p.Fit

/-- The place is in an operation for the single waiter `w` of queue `o`. -/
def RingPc.Serves (w : ω) (o : ChanOp) (p : RingPc ω β) : Prop := p.op.Serves w o ∧ p.Fit

/-- A ring access stays in its operation. -/
theorem Ring.runs_step {op : RingOp ω β} {p p' : RingPc ω β} (hp : p.Runs op)
    (h : (r.step cap weak p).2 = .inl p') : p'.Runs op := by
  obtain ⟨rfl, hfit⟩ := hp
  cases p with
  | loadHead op =>
    cases h
    exact ⟨rfl, hfit⟩
  | loadOpp op a =>
    simp only [Ring.step] at h
    split at h
    · cases h
    · next k hres =>
      cases h
      exact ⟨rfl, hfit, op.reserve_le hfit hres⟩
  | cas op a k =>
    simp only [Ring.step] at h
    split at h
    · cases h
      exact ⟨rfl, hfit⟩
    · cases h
      exact ⟨rfl, hfit.1⟩
  | copy op a k i acc =>
    simp only [Ring.step] at h
    split at h
    · next hlt =>
      cases h
      exact ⟨rfl, hfit.1, hlt, hfit.2.2⟩
    · cases h
      exact ⟨rfl, hfit.1, Nat.lt_of_le_of_lt (Nat.zero_le i) hfit.2.1, hfit.2.2⟩
  | wait op a k acc =>
    simp only [Ring.step] at h
    split at h <;> cases h <;> exact ⟨rfl, hfit⟩
  | store op a k acc => cases h

theorem Ring.serves_step {w : ω} {o : ChanOp} {p p' : RingPc ω β} (hp : p.Serves w o)
    (h : (r.step cap weak p).2 = .inl p') : p'.Serves w o := by
  obtain ⟨hop, hfit⟩ := Ring.runs_step ⟨rfl, hp.2⟩ h
  refine ⟨?_, hfit⟩
  rw [hop]
  exact hp.1

theorem RingOp.Serves.valid {w : ω} {o : ChanOp} {op : RingOp ω β} (h : op.Serves w o) :
    op.Valid := by
  cases op with
  | push v x => exact ⟨Nat.one_pos, Nat.one_lt_two_pow (by decide)⟩
  | pop v => exact ⟨Nat.one_pos, Nat.one_lt_two_pow (by decide)⟩
  | _ => exact h.elim

/-- A cached ring access stays in its operation. -/
theorem Ring.op_spscStep {p p' : SpscPc ω β} (h : (r.spscStep cap p).2 = .inl p') :
    p'.op = p.op := by
  cases p with
  | loadHead op =>
    simp only [Ring.spscStep] at h
    split at h <;> cases h <;> rfl
  | refresh op a =>
    simp only [Ring.spscStep] at h
    split at h
    · cases h
    · cases h
      rfl
  | copy op a =>
    cases h
    rfl
  | storeTail op a acc =>
    cases h
    rfl
  | storeHead op a acc => cases h

end Access

theorem Op.valid_ringOp (op : Op α) (id : Nat) : (op.ringOp id).Valid := by
  cases op <;> exact ⟨Nat.one_pos, Nat.one_lt_two_pow (by decide)⟩

theorem Case.valid_ringOp (k : Case C α) (w : Wid) : (k.ringOp w).Valid := by
  rw [Case.ringOp]
  split <;> exact ⟨Nat.one_pos, Nat.one_lt_two_pow (by decide)⟩

/-! ## Direct calls -/

/-- The hand-over loop runs the ring operation of the waiter in hand. -/
def ServePc.Ok (o : ChanOp) : ServePc α → Prop
  | ring w p => p.Serves w o
  | _ => True

/-- What the hand-over loop is followed by. -/
def ServeEnd.Ok (op : Op α) : ServeEnd → Prop
  | leave r => op.Moved r
  | block => op.isSend = true

namespace Pc

/-- What the places of a direct call say about it. -/
def Ok (k : ChanCfg) (id : Nat) (op : Op α) : Pc α → Prop
  | fastClosed _ => op.single = true ∧ 0 < k.capacity
  | fastCnt _ _ => op.single = true ∧ 0 < k.capacity ∧ k.spsc = false
  | fastRing _ p => op.single = true ∧ 0 < k.capacity ∧ k.spsc = false ∧ p.Runs (op.ringOp id)
  | fastSpsc _ p => op.single = true ∧ 0 < k.capacity ∧ k.spsc = true ∧ p.op = op.ringOp id
  | burstClosed => op.burst = true ∧ 0 < k.capacity ∧ (op.burstOp id).Valid
  | burstRing p => op.burst = true ∧ 0 < k.capacity ∧ p.Runs (op.burstOp id)
  | fastAfter r | serveLock r => 0 < k.capacity ∧ op.Moved r
  | serve n st => 0 < k.capacity ∧ n.Ok op ∧ st.Ok op.side.other
  | slowLock | meetClaim | meetCopy _ | meetUnlock _ | wakeRet _ => op.single = true
  | slowClosed => op.isSend = true
  | emptyClosed => op.single = true ∧ op.isSend = false
  | slowRing p | recheck p => op.single = true ∧ 0 < k.capacity ∧ p.Runs (op.ringOp id)
  | helpClaim | helpPutBack _ | helpSettle _ | helpUnlock _ =>
    op.single = true ∧ op.isSend = false ∧ 0 < k.capacity
  | helpRing w p =>
    op.single = true ∧ op.isSend = false ∧ 0 < k.capacity ∧ p.Serves w .send
  | enroll => op.single = true ∧ op.timeout ≠ 0
  | unRemove | unDecr => op.single = true ∧ 0 < k.capacity
  | parkUnlock | park | expLock | expRemove | expUnlock _ => op.single = true
  | decr r => op.single = true ∧ (r = none ∨ r = some .timeout)
  | backClosed | backUnlock | requeue | reparkUnlock | repark =>
    op.single = true ∧ backstop k op = true
  | backRing p => op.single = true ∧ backstop k op = true ∧ p.Runs (op.ringOp id)
  | backSettle r => op.single = true ∧ backstop k op = true ∧ (r = .ok ∨ r = .closed)
  | unlockRet r | ret r => op.Fits r
  | closeLock | closeTest | closeStore | closeClaim _ | closeWake _ _ => op = .close
  | closeRing w p => op = .close ∧ 0 < k.capacity ∧ p.Serves w .recv
  | closeSettle _ _ r => op = .close ∧ (r = .ok ∨ r = .closed)
  | lenTail | lenHead _ => op = .len

variable {K : Config T C} {m : Mem T C α} {id : Nat} {c : C} {op : Op α} {alt : Bool}
  {pc pc' : Pc α} {e : Effect α}

theorem isSend_single (h : op.isSend = true) : op.single = true := by
  cases op with
  | send x time => rfl
  | _ => cases h

theorem fits_of_single (h : op.single = true) (e : ChanErr) : op.Fits (.err e) := by
  cases op with
  | send x time => exact ⟨e, rfl⟩
  | recv time => exact ⟨e, rfl⟩
  | _ => cases h

theorem fits_of_burst (h : op.burst = true) (n : Nat) : op.Fits (.count n) := by
  cases op with
  | sendBurst xs => exact ⟨n, rfl⟩
  | recvBurst n => exact ⟨_, rfl⟩
  | _ => cases h

theorem fits_of_moved {r : Ret} (h : op.Moved r) : op.Fits r := by
  cases op with
  | send x time => exact ⟨.ok, h⟩
  | recv time => exact ⟨.ok, h⟩
  | sendBurst xs =>
    obtain ⟨n, -, rfl⟩ := h
    exact ⟨n, rfl⟩
  | recvBurst n =>
    obtain ⟨n, -, rfl⟩ := h
    exact ⟨n, rfl⟩
  | _ => exact h.elim

theorem moved_of_single (h : op.single = true) : op.Moved (.err .ok) := by
  cases op with
  | send x time => rfl
  | recv time => rfl
  | _ => cases h

theorem moved_of_burst (h : op.burst = true) {n : Nat} (hn : n ≠ 0) : op.Moved (.count n) := by
  cases op with
  | sendBurst xs => exact ⟨n, hn, rfl⟩
  | recvBurst n => exact ⟨_, hn, rfl⟩
  | _ => cases h

theorem ok_of_blocks {k : ChanCfg} (h : op.single = true) (hb : Blocks op pc) : pc.Ok k id op := by
  cases hb with
  | now htime => exact fits_of_single h _
  | wait htime => exact ⟨h, htime⟩

theorem ok_attempt {k : ChanCfg} {spin : Nat} (h : op.single = true) (hcap : 0 < k.capacity) :
    (attempt k id op spin).Ok k id op := by
  unfold attempt
  split
  · exact ⟨h, hcap⟩
  · split
    · next hspsc => exact ⟨h, hcap, hspsc, rfl⟩
    · next hspsc => exact ⟨h, hcap, Bool.eq_false_iff.2 hspsc⟩

theorem ok_entry (k : ChanCfg) (id : Nat) (op : Op α) : (entry k id op).Ok k id op := by
  cases op with
  | send x time =>
    simp only [entry]
    split
    · next hcap => exact ok_attempt rfl hcap
    · rfl
  | recv time =>
    simp only [entry]
    split
    · next hcap => exact ok_attempt rfl hcap
    · rfl
  | sendBurst xs =>
    simp only [entry]
    split
    · exact ⟨0, rfl⟩
    · next h =>
      obtain ⟨hlen, hcap⟩ := not_or.1 h
      refine ⟨rfl, Nat.pos_of_ne_zero hcap, ?_⟩
      simp only [RingOp.Valid, Op.burstOp, RingOp.want, List.length_map, List.length_zipIdx,
        List.length_take]
      omega
  | recvBurst n =>
    simp only [entry]
    split
    · exact ⟨0, rfl⟩
    · next h =>
      obtain ⟨hlen, hcap⟩ := not_or.1 h
      refine ⟨rfl, Nat.pos_of_ne_zero hcap, rfl, ?_⟩
      simp only [RingPc.Fit, RingOp.Valid, Op.burstOp, RingOp.want, List.length_map,
        List.length_range]
      omega
  | close => rfl
  | len =>
    simp only [entry]
    split
    · exact ⟨0, rfl⟩
    · rfl

/-- The edges keep what the places say. -/
theorem Ok.flow (h : pc.Ok (K.chan c) id op) (hflow : Flow K m id c op alt pc e pc') :
    pc'.Ok (K.chan c) id op := by
  cases hflow with
  | closed hclosed => exact h.1
  | openSpsc hopen hspsc => exact ⟨h.1, h.2, hspsc, rfl⟩
  | openCnt hopen hspsc => exact ⟨h.1, h.2, hspsc⟩
  | openSlow hopen hop => exact h.1
  | cntBusy hcnt => exact h.1
  | cntSend hcnt => exact h
  | cntRecv hcnt => exact ⟨h.1, h.2.1, h.2.2, rfl, op.valid_ringOp id⟩
  | fastIn hp => exact ⟨h.1, h.2.1, h.2.2.1, Ring.runs_step h.2.2.2 hp⟩
  | fastHit hp hres => exact ⟨h.2.1, moved_of_single h.1⟩
  | fastMiss hp hres => exact ⟨h.1, h.2.1⟩
  | fastMissSlow hp hres hop => exact h.1
  | spscIn hp => exact ⟨h.1, h.2.1, h.2.2.1, (Ring.op_spscStep hp).trans h.2.2.2⟩
  | spscHit hp hres => exact ⟨h.2.1, moved_of_single h.1⟩
  | spscMiss hp hres => exact ⟨h.1, h.2.1⟩
  | spscMissSlow hp hres hop => exact h.1
  | burstShut hclosed => exact fits_of_burst h.1 0
  | burstOpen hopen => exact ⟨h.1, h.2.1, rfl, h.2.2⟩
  | burstIn hp => exact ⟨h.1, h.2.1, Ring.runs_step h.2.2 hp⟩
  | burstHit hp hres => exact ⟨h.2.1, moved_of_burst h.1 hres⟩
  | burstMiss hp hres => exact fits_of_burst h.1 0
  | afterServe hcnt => exact h
  | afterRet hcnt => exact fits_of_moved h.2
  | serveLock hfree => exact ⟨h.1, h.2, trivial⟩
  | serveFirst => exact ⟨h.1, h.2.1, trivial⟩
  | serveStop hstop => exact fits_of_moved h.2.1
  | serveStopBlock hstop hblock => exact ok_of_blocks (isSend_single h.2.1) hblock
  | serveGo hgo => exact ⟨h.1, h.2.1, trivial⟩
  | serveEmpty hqueue => exact fits_of_moved h.2.1
  | serveEmptyBlock hqueue hblock => exact ok_of_blocks (isSend_single h.2.1) hblock
  | serveClaim hqueue hclaim hrop => exact ⟨h.1, h.2.1, serves_of_serveOp hrop, (serves_of_serveOp hrop).valid⟩
  | serveDrop hqueue hclaim => exact h
  | serveIn hp => exact ⟨h.1, h.2.1, Ring.serves_step h.2.2 hp⟩
  | serveHit hp hres => exact ⟨h.1, h.2.1, trivial⟩
  | serveMiss hp hres => exact ⟨h.1, h.2.1, trivial⟩
  | servePutBack => exact fits_of_moved h.2.1
  | servePutBackBlock hblock => exact ok_of_blocks (isSend_single h.2.1) hblock
  | serveSettle => exact ⟨h.1, h.2.1, trivial⟩
  | serveWake => exact ⟨h.1, h.2.1, trivial⟩
  | slowSend hfree hop => exact hop
  | slowMeet hfree hop hcap => exact h
  | slowBuffered hfree hop hcap => exact ⟨h, Nat.pos_of_ne_zero hcap, rfl, op.valid_ringOp id⟩
  | slowShut hclosed => exact fits_of_single (isSend_single h) _
  | slowOpenMeet hopen hcap => exact isSend_single h
  | slowOpenRing hopen hcap => exact ⟨isSend_single h, Nat.pos_of_ne_zero hcap, rfl, op.valid_ringOp id⟩
  | slowIn hp => exact ⟨h.1, h.2.1, Ring.runs_step h.2.2 hp⟩
  | slowSendHit hp hres hop => exact ⟨h.2.1, moved_of_single h.1, trivial⟩
  | slowSendMiss hp hres hop => exact ⟨h.2.1, hop, trivial⟩
  | slowRecvHit hp hres hop => exact ⟨h.1, hop, h.2.1⟩
  | slowRecvMiss hp hres hop => exact h.1
  | meetEmptySend hqueue hop hblock => exact ok_of_blocks h hblock
  | meetEmptyRecv hqueue hop => exact ⟨h, hop⟩
  | meetClaim hqueue hclaim | meetDrop hqueue hclaim | meetSend hop | meetRecv hop hdata
  | meetUnlock => exact h
  | helpEmpty hqueue => exact fits_of_single h.1 _
  | helpClaim hqueue hclaim hrop => exact ⟨h.1, h.2.1, h.2.2, serves_of_serveOp hrop, (serves_of_serveOp hrop).valid⟩
  | helpDrop hqueue hclaim => exact h
  | helpIn hp => exact ⟨h.1, h.2.1, h.2.2.1, Ring.serves_step h.2.2.2 hp⟩
  | helpHit hp hres => exact ⟨h.1, h.2.1, h.2.2.1⟩
  | helpMiss hp hres => exact ⟨h.1, h.2.1, h.2.2.1⟩
  | helpPutBack => exact fits_of_single h.1 _
  | helpSettle => exact h
  | helpUnlock => exact h.1
  | wakeRet => exact fits_of_single h _
  | emptyShut hclosed => exact fits_of_single h.1 _
  | emptyOpen hopen hblock => exact ok_of_blocks h.1 hblock
  | enrollMeet hcap => exact h.1
  | enrollRing hcap => exact ⟨h.1, Nat.pos_of_ne_zero hcap, rfl, op.valid_ringOp id⟩
  | recheckIn hp => exact ⟨h.1, h.2.1, Ring.runs_step h.2.2 hp⟩
  | recheckHit hp hres => exact ⟨h.1, h.2.1⟩
  | recheckMiss hp hres => exact h.1
  | unRemove => exact h
  | unDecrSend hop => exact ⟨h.2, moved_of_single h.1, trivial⟩
  | unDecrRecv hop => exact fits_of_single h.1 _
  | parkUnlock => exact h
  | parkExpire halt hexp => exact h
  | parkWoken hsig => exact ⟨h, Or.inl rfl⟩
  | expLock hfree => exact h
  | expBackSend hback hmem hop => exact ⟨h, hback⟩
  | expBackRecv hback hmem hop => exact ⟨h, hback, rfl, op.valid_ringOp id⟩
  | expBackGone hback hmem => exact ⟨h, hback⟩
  | expRemove hback hstill => exact h
  | expTimeout hstill => exact ⟨h, Or.inr rfl⟩
  | expResult hcap => exact ⟨h, Or.inl rfl⟩
  | backShut hclosed => exact ⟨h.1, h.2, Or.inr rfl⟩
  | backOpenSend hopen hop => exact ⟨h.1, h.2, rfl, op.valid_ringOp id⟩
  | backOpenRecv hopen hop => exact h
  | backIn hp => exact ⟨h.1, h.2.1, Ring.runs_step h.2.2 hp⟩
  | backHit hp hres => exact ⟨h.1, h.2.1, Or.inl rfl⟩
  | backMissSend hp hres hop | backMissRecv hp hres hop | backSettle => exact ⟨h.1, h.2.1⟩
  | backUnlock => exact ⟨h.1, Or.inl rfl⟩
  | requeue => exact h
  | reparkUnlock => exact h
  | reparkWoken hsig => exact ⟨h.1, Or.inl rfl⟩
  | decr => exact fits_of_single h.1 _
  | unlockRet => exact h
  | closeLock hfree => exact h
  | closeAgain hclosed =>
    cases h
    exact ⟨_, rfl⟩
  | closeFirst hopen => exact h
  | closeStore => exact h
  | closeSendEmpty hqueue => exact h
  | closeRecvEmpty hqueue =>
    cases h
    exact ⟨_, rfl⟩
  | closeClaimSend hqueue hclaim => exact ⟨h, Or.inr rfl⟩
  | closeClaimRing hqueue hclaim hcap => exact ⟨h, hcap, ⟨rfl, rfl⟩, Nat.one_pos, Nat.one_lt_two_pow (by decide)⟩
  | closeClaimMeet hqueue hclaim hcap => exact ⟨h, Or.inr rfl⟩
  | closeDrop hqueue hclaim => exact h
  | closeIn hp => exact ⟨h.1, h.2.1, Ring.serves_step h.2.2 hp⟩
  | closeHit hp hres => exact ⟨h.1, Or.inl rfl⟩
  | closeMiss hp hres => exact ⟨h.1, Or.inr rfl⟩
  | closeSettle => exact h.1
  | closeWake => exact h
  | lenTail => exact h
  | lenHead =>
    cases h
    exact ⟨_, rfl⟩

end Pc

/-! ## Selects -/

/-- What the places of `execute_case_locked` say about case `k` with stub `w`. -/
def ExecPc.Ok (k : ChanCfg) (case : Case C α) (w : Wid) : ExecPc α → Prop
  | first | second _ | helpClaim => 0 < k.capacity
  | ring p => 0 < k.capacity ∧ p.Runs (case.ringOp w)
  | helpRing v p => 0 < k.capacity ∧ case.op = .recv ∧ p.Serves v .send
  | helpSettle _ => 0 < k.capacity
  | closed => case.op = .recv
  | _ => True

/-- The returns of a select: a case, or nothing. -/
def SelPc.RetOk (cases : List (Case C α)) : Ret → Prop
  | .sel (some i) _ => i < cases.length
  | .sel none e => e = .wouldblock ∨ e = .timeout ∨ cases = []
  | _ => False

/-- What the places of a select say about it. -/
def SelPc.Ok (K : Config T C) (id : Nat) (cases : List (Case C α)) : SelPc C α → Prop
  | fast1 i _ => ∃ k, cases[i]? = some k ∧ k.op = .recv
  | fast2 start j st => ∃ k, cases[index2 cases start j]? = some k ∧ 0 < (K.chan k.chan).capacity ∧
    ∀ p, st = .ring p → p.Runs (k.ringOp ⟨id, index2 cases start j⟩)
  | ready i rdy _ => (∃ k, cases[i]? = some k) ∧ ∀ j ∈ rdy, j < cases.length
  | pick rdy => rdy ≠ [] ∧ ∀ j ∈ rdy, j < cases.length
  | exec i st => ∃ k, cases[i]? = some k ∧ st.Ok (K.chan k.chan) k ⟨id, i⟩
  | clean _ _ winner => ∀ j, winner = some j → j < cases.length
  | unlockAll _ (.ret r) => RetOk cases r
  | ret r => RetOk cases r
  | _ => True

namespace SelPc

variable [DecidableEq C] {K : Config T C} {m : Mem T C α} {t : T} {id : Nat}
  {cases : List (Case C α)} {timeout : Int} {alt : Bool} {pc pc' : SelPc C α} {c : C}
  {e : Effect α} {k : Case C α} {i : Nat}

omit [DecidableEq C] in
theorem ok_of_step1 (h : Step1 cases pc) : pc.Ok K id cases := by
  cases h with
  | found hk hop => exact ⟨_, hk, hop⟩
  | ended => trivial

theorem ok_of_step2 {start : Nat} (h : Step2 K cases start pc) : pc.Ok K id cases := by
  cases h with
  | found hk hcap => exact ⟨_, hk, hcap, fun p hp => by cases hp⟩
  | ended => trivial

theorem ok_of_passes {rdy : List Nat} (hrdy : ∀ j ∈ rdy, j < cases.length)
    (h : Passes K cases timeout rdy pc) : pc.Ok K id cases := by
  cases h with
  | closed hk => exact ⟨⟨_, hk⟩, hrdy⟩
  | first hk hop => exact ⟨⟨_, hk⟩, hrdy⟩
  | pick hne => exact ⟨hne, hrdy⟩
  | now hnil htime => exact Or.inl rfl
  | wait hnil htime => trivial

omit [DecidableEq C] in
theorem lt_of_mem_append {rdy : List Nat} (hk : cases[i]? = some k)
    (hrdy : ∀ j ∈ rdy, j < cases.length) : ∀ j ∈ rdy ++ [i], j < cases.length := by
  intro j hj
  rcases List.mem_append.1 hj with hj | hj
  · exact hrdy j hj
  · rw [List.mem_singleton.1 hj]
    exact (List.getElem?_eq_some_iff.1 hk).1

omit [DecidableEq C] in
theorem ok_execFrom {w : Wid} : (execFrom K m w k).Ok (K.chan k.chan) k w := by
  unfold execFrom
  split
  · trivial
  · next hcap =>
    have hpos := Nat.pos_of_ne_zero hcap
    split
    · split
      · exact ⟨hpos, rfl, k.valid_ringOp w⟩
      · exact hpos
    · exact hpos

omit [DecidableEq C] in
theorem ok_of_execFlow {w : Wid} {st st' : ExecPc α} (h : st.Ok (K.chan k.chan) k w)
    (hflow : ExecFlow K m k w alt st e (.inl st')) : st'.Ok (K.chan k.chan) k w := by
  cases hflow with
  | first => exact h
  | stop hstop => trivial
  | go hgo => exact ⟨h, rfl, k.valid_ringOp w⟩
  | emptySendRing hqueue hop hcap => exact ⟨Nat.pos_of_ne_zero hcap, rfl, k.valid_ringOp w⟩
  | emptyRecv hqueue hop => exact hop
  | claim hqueue hclaim => trivial
  | drop hqueue hclaim => trivial
  | copySend hx => trivial
  | copyRecv hk hx => trivial
  | ringIn hp => exact ⟨h.1, Ring.runs_step h.2 hp⟩
  | ringOut hp => exact h.1
  | helpSend hop hqueue hclaim => exact h
  | helpRecv hop hqueue hclaim hrop => exact ⟨h, hop, serves_of_serveOp hrop, (serves_of_serveOp hrop).valid⟩
  | helpDrop hqueue hclaim => exact h
  | helpIn hp => exact ⟨h.1, h.2.1, Ring.serves_step h.2.2 hp⟩
  | helpOut hp => exact h.1
  | settle => trivial

omit [DecidableEq C] in
theorem ok_entry : (entry cases).Ok K id cases := by
  unfold entry
  split
  · next hlen => exact Or.inr (Or.inr (List.length_eq_zero_iff.1 hlen))
  · exact ok_of_step1 (step1_scan1 0)

omit [DecidableEq C] in
theorem retOk_cleaned {woken : Bool} {winner : Option Nat}
    (h : ∀ j, winner = some j → j < cases.length) : RetOk cases (cleaned m id woken winner) := by
  cases winner with
  | none => exact Or.inr (Or.inl rfl)
  | some j =>
    cases woken with
    | true => exact h j rfl
    | false => exact Or.inr (Or.inl rfl)

/-- The edges keep what the places say. -/
theorem Ok.flow (h : pc.Ok K id cases) (hflow : Flow K m t id cases timeout alt pc c e pc') :
    pc'.Ok K id cases := by
  cases hflow with
  | fast1Shut hk hclosed => exact h
  | fast1Send hk hcnt => exact h
  | fast1Recv hk hcnt => exact h
  | fast1Tail hk => exact h
  | fast1Head hk hempty => exact (List.getElem?_eq_some_iff.1 hk).1
  | fast1Skip hk hstep => exact ok_of_step1 hstep
  | fast2Start hstep => exact ok_of_step2 hstep
  | fast2Skip hk hcnt hstep => exact ok_of_step2 hstep
  | fast2Send hk hcnt =>
    obtain ⟨k', hk', hcap, -⟩ := h
    exact ⟨k', hk', hcap, fun p hp => by cases hp⟩
  | fast2Closed hk hcnt hop =>
    obtain ⟨k', hk', hcap, -⟩ := h
    exact ⟨k', hk', hcap, fun p hp => by cases hp⟩
  | fast2Recv hk hcnt hop =>
    obtain ⟨k', hk', hcap, -⟩ := h
    cases hk.symm.trans hk'
    exact ⟨_, hk', hcap, fun p hp => by cases hp; exact ⟨rfl, Case.valid_ringOp _ _⟩⟩
  | fast2Shut hk hclosed => exact (List.getElem?_eq_some_iff.1 hk).1
  | fast2Open hk hopen =>
    obtain ⟨k', hk', hcap, -⟩ := h
    cases hk.symm.trans hk'
    exact ⟨_, hk', hcap, fun p hp => by cases hp; exact ⟨rfl, Case.valid_ringOp _ _⟩⟩
  | fast2In hk hp =>
    obtain ⟨k', hk', hcap, hop⟩ := h
    refine ⟨k', hk', hcap, fun p hring => ?_⟩
    cases hring
    exact Ring.runs_step (hop _ rfl) hp
  | fast2Hit hk hp hres => exact (List.getElem?_eq_some_iff.1 hk).1
  | fast2Miss hk hp hres hstep => exact ok_of_step2 hstep
  | lock hfree => trivial
  | pass hpass => exact ok_of_passes (fun j hj => by cases hj) hpass
  | clean =>
    intro j hj
    cases hj
  | readyOpen hk hop hopen hcap => exact h
  | readyFirst hk hcap => exact h
  | readyEmpty hk hop => exact h
  | readyNot hk hpass => exact ok_of_passes h.2 hpass
  | readySend hk hop hopen hpass | readyShut hk hop hclosed hpass | readyYes hk hst hpass =>
    exact ok_of_passes (lt_of_mem_append hk h.2) hpass
  | pick hk hmem he hst =>
    rw [hst]
    exact ⟨_, hk, ok_execFrom⟩
  | execGo hk hexec =>
    obtain ⟨k', hk', hok⟩ := h
    cases hk.symm.trans hk'
    exact ⟨_, hk, ok_of_execFlow hok hexec⟩
  | execDone hk hexec => exact (List.getElem?_eq_some_iff.1 hk).1
  | stub hk => trivial
  | stubbed hi => trivial
  | @unlock c cs k =>
    cases k with
    | ret r => exact h
    | park => trivial
  | unlockedRet => exact h
  | unlockedPark => trivial
  | parkExpire halt htime => trivial
  | parkWoken hsig => trivial
  | cleanWon hk hres =>
    intro j hj
    cases hj
    exact (List.getElem?_eq_some_iff.1 hk).1
  | cleanStub hk hres => exact h
  | cleaned hi => exact retOk_cleaned h

end SelPc

/-! ## Runs -/

/-- What the place of a thread says about its call. -/
def Thread.Ok (K : Config T C) : Thread C α → Prop
  | idle => True
  | direct id c op pc => pc.Ok (K.chan c) id op
  | select id cases _ pc => pc.Ok K id cases

section Run

variable [DecidableEq T] [DecidableEq C] {K : Config T C} {s s' : Sys T C α} {l : Label T C α}

omit [DecidableEq T] in
theorem Thread.ok_startThread (id : Nat) (k : Call C α) : (Sys.startThread K id k).Ok K := by
  cases k with
  | direct c op => exact Pc.ok_entry (K.chan c) id op
  | select cases timeout => exact SelPc.ok_entry

omit [DecidableEq T] in
theorem Thread.Ok.acts {t : T} {alt : Bool} {c : C} {e : Effect α} {th : Thread C α}
    (h : (s.thread t).Ok K) (hacts : s.Acts K t alt c e th) : th.Ok K := by
  cases hacts with
  | direct hth hact =>
    rw [hth] at h
    exact Pc.Ok.flow h (Pc.flow_of_act hact)
  | select hth hact =>
    rw [hth] at h
    exact SelPc.Ok.flow h (SelPc.flow_of_act hact)

/-- A fact about single threads that holds at the start of a call and is kept by the steps of its
thread holds of all threads after a step. -/
theorem Sys.Stepped.forall_thread {P : Thread C α → Prop} (hstep : s.Stepped K l s')
    (h : ∀ t, P (s.thread t)) (hidle : P .idle) (hcall : ∀ id k, P (Sys.startThread K id k))
    (hacts : ∀ t alt c e th, s.Acts K t alt c e th → P (s.thread t) → P th) (t' : T) :
    P (s'.thread t') := by
  cases hstep with
  | @call t k hfree =>
    by_cases ht : t' = t
    · rw [ht, Sys.thread_startCall_self]
      exact hcall _ _
    · rw [Sys.thread_startCall_of_ne ht]
      exact h t'
  | @ret t alt id r out hdone hret =>
    by_cases ht : t' = t
    · rw [ht, Sys.thread_finishCall_self]
      exact hidle
    · rw [Sys.thread_finishCall_of_ne ht]
      exact h t'
  | @move t alt c e th hnext hact =>
    by_cases ht : t' = t
    · rw [ht, Sys.thread_move_self]
      exact hacts t alt c e th hact (h t)
    · rw [Sys.thread_move_of_ne ht]
      exact h t'

theorem Thread.Ok.step (h : ∀ t, (s.thread t).Ok K) (hstep : s.Stepped K l s') (t : T) :
    (s'.thread t).Ok K :=
  hstep.forall_thread h trivial Thread.ok_startThread (fun _ _ _ _ _ hact hok => hok.acts hact) t

/-- What holds in every run: the invariant of the calls, locks and queues, what the places say, and
the history. -/
structure Sound (K : Config T C) (s : Sys T C α) : Prop extends SysInv K s where
  ok : ∀ t, (s.thread t).Ok K
  hist : HistInv s

omit [DecidableEq T] in
theorem Sound.direct_ok (h : Sound K s) {t : T} {id : Nat} {c : C} {op : Op α} {pc : Pc α}
    (hth : s.thread t = .direct id c op pc) : pc.Ok (K.chan c) id op := by
  have hok := h.ok t
  rwa [hth] at hok

omit [DecidableEq T] in
theorem Sound.select_ok (h : Sound K s) {t : T} {id : Nat} {cases : List (Case C α)} {timeout : Int}
    {pc : SelPc C α} (hth : s.thread t = .select id cases timeout pc) : pc.Ok K id cases := by
  have hok := h.ok t
  rwa [hth] at hok

omit [DecidableEq T] in
theorem Sound.init (slots : C → U32 → α) : Sound K (Sys.init slots : Sys T C α) :=
  ⟨SysInv.init slots, fun _ => trivial, HistInv.init slots⟩

theorem Sound.step (h : Sound K s) (hstep : s.Stepped K l s') : Sound K s' :=
  ⟨h.toSysInv.step hstep, Thread.Ok.step h.ok hstep, h.hist.step h.calls hstep⟩

/-- The induction principle for runs of the system: a step may use what holds in every run. -/
theorem Sys.invariant_from {ok : Sys T C α → Label T C α → Prop} {s₀ : Sys T C α}
    {P : Sys T C α → Prop} (hrun : Reaches (Sys.step K) ok s₀ s) (hs₀ : Sound K s₀) (hinit : P s₀)
    (hstep : ∀ s l s', Sound K s → P s → ok s l → s.Stepped K l s' → P s') : Sound K s ∧ P s :=
  hrun.invariant (P := fun s => Sound K s ∧ P s) ⟨hs₀, hinit⟩ fun s l s' h hok hs => by
    have hcases := Sys.step_cases h.1.locks.wf hs
    exact ⟨h.1.step hcases, hstep s l s' h.1 h.2 hok hcases⟩

theorem Sys.invariant {ok : Sys T C α → Label T C α → Prop} {slots : C → U32 → α}
    {P : Sys T C α → Prop} (hrun : Reaches (Sys.step K) ok (Sys.init slots) s)
    (hinit : P (Sys.init slots))
    (hstep : ∀ s l s', Sound K s → P s → ok s l → s.Stepped K l s' → P s') : Sound K s ∧ P s :=
  Sys.invariant_from hrun (Sound.init slots) hinit hstep

end Run

end LibChan
