import LibChan.Ring.Alone
import LibChan.Chan.Places

/-!
# One thread that never waits

A single thread calls `chan_try_send`, `chan_try_recv`, the bursts and `chan_len` on one buffered
channel. At each place of a call `Pc.Alone` relates the cursors to the number of elements the call
found, and an answer says how that number changed (`Outcome`). When the ring has the capacity the
channel was created with, `chan_len` never exceeds `chan_cap` and `chan_try_send` refuses exactly at
that length (`try_within_capacity`). The ring rounds the capacity up to a power of two, so a channel
of capacity three takes four elements (`try_exceeds_capacity`).
-/

set_option autoImplicit false

namespace LibChan

variable {T C α : Type}

/-- The calls that return at once. -/
def Op.tries : Op α → Bool
  | send _ t => decide (t = 0)
  | recv t => decide (t = 0)
  | close => false
  | _ => true

/-- The answer of a call that found `n` elements and moved `d`. -/
def Op.Answers (n d : Nat) : Op α → Ret → Prop
  | send _ _, r | recv _, r => r = .err .ok ∧ d = 1 ∨ r = .err .wouldblock ∧ d = 0
  | sendBurst _, r | recvBurst _, r => r = .count d
  | len, r => r = .count n ∧ d = 0
  | close, _ => False

/-- A call that found `n` elements, moved `d` and answers `v` leaves the ring like this. -/
structure Outcome (cap : RingCap) (r : Ring α) (n : Nat) (op : Op α) (v : Ret) (d : Nat) : Prop where
  answers : op.Answers n d v
  quiet : Quiescent cap r
  count : match op.side with
    | .send => r.count = n + d
    | .recv => r.count + d = n
  stuck : op.single = true → (d = 0 ↔ Stuck cap n op.side)

/-- The hand-over loop looks for a waiter. -/
def ServePc.scans : ServePc α → Bool
  | first | second _ | claim => true
  | _ => false

/-- What the end of the hand-over loop will say. -/
def ServeEnd.Alone (cap : RingCap) (r : Ring α) (n : Nat) (op : Op α) : ServeEnd → Prop
  | leave v => ∃ d, Outcome cap r n op v d
  | block => Level cap r n ∧ Stuck cap n op.side

/-- What holds at each place of a call that found `n` elements. The places that are left out are not
reached. -/
def Pc.Alone (cap : RingCap) (r : Ring α) (n : Nat) (op : Op α) : Pc α → Prop
  | fastClosed _ | fastCnt _ _ | slowLock | slowClosed | burstClosed | lenTail => Level cap r n
  | fastRing _ p | burstRing p | slowRing p => p.Alone cap r n
  | fastSpsc _ p => p.Alone cap r n
  | fastAfter v | unlockRet v | ret v => ∃ d, Outcome cap r n op v d
  | serve k st => st.scans = true ∧ k.Alone cap r n op
  | helpClaim => ∃ d, Outcome cap r n op (.err .ok) d
  | meetClaim | emptyClosed => Level cap r n ∧ Stuck cap n op.side
  | lenHead pt => Level cap r n ∧ pt = (r.cur .send).tail
  | _ => False

/-- The place inside a cached ring operation. -/
def Pc.spsc? : Pc α → Option (SpscPc Wid α)
  | fastSpsc _ p => some p
  | _ => none

/-- The effects of calls that meet no waiter. -/
def Effect.mild : Effect α → Bool
  | none | ring _ _ | spsc _ | lock | unlock => true
  | _ => false

/-- An open channel without waiters. -/
structure Chan.Deserted (ch : Chan T α) : Prop where
  opened : ch.closed = false
  queue : ∀ o, ch.queue o = []
  cnt : ∀ o, ch.cnt o = 0

section Flow

variable {cap : RingCap} {r : Ring α} {n : Nat} {op : Op α} {v : Ret}

/-- A ring operation that ran to its end and is the whole call. -/
theorem Settled.outcome {d : Nat} {rop : RingOp Wid α} (h : Settled cap r n d rop)
    (ho : rop.side = op.side) (hans : op.Answers n d v) : Outcome cap r n op v d := by
  have hcount := h.count
  have hstuck := h.stuck
  rw [ho] at hcount hstuck
  exact ⟨hans, h.quiet, hcount, fun _ => hstuck⟩

/-- An operation that moved nothing found the ring full or empty. -/
theorem Settled.level {rop : RingOp Wid α} (h : Settled cap r n 0 rop) (ho : rop.side = op.side) :
    Level cap r n ∧ Stuck cap n op.side := by
  have hcount := h.count
  rw [← ho]
  refine ⟨⟨h.quiet, ?_⟩, h.stuck.1 rfl⟩
  revert hcount
  cases rop.side <;> exact id

theorem Level.outcome_block (hl : Level cap r n) (hop : op.single = true)
    (hstuck : Stuck cap n op.side) : Outcome cap r n op (.err .wouldblock) 0 := by
  refine ⟨?_, hl.quiet, ?_, fun _ => ⟨fun _ => hstuck, fun _ => rfl⟩⟩
  · cases op with
    | send x t => exact .inr ⟨rfl, rfl⟩
    | recv t => exact .inr ⟨rfl, rfl⟩
    | _ => cases hop
  · cases hside : op.side <;> exact hl.count

theorem Op.answers_moved (hop : op.single = true) (n : Nat) : op.Answers n 1 (.err .ok) := by
  cases op with
  | send x t => exact .inl ⟨rfl, rfl⟩
  | recv t => exact .inl ⟨rfl, rfl⟩
  | _ => cases hop

theorem Op.answers_burst (hop : op.burst = true) (n d : Nat) : op.Answers n d (.count d) := by
  cases op with
  | sendBurst xs => rfl
  | recvBurst m => rfl
  | _ => cases hop

theorem Op.side_ringOp (hop : op.single = true) (id : Nat) : (op.ringOp id).side = op.side := by
  cases op with
  | send x t => rfl
  | recv t => rfl
  | _ => cases hop

theorem Op.side_burstOp (hop : op.burst = true) (id : Nat) : (op.burstOp id).side = op.side := by
  cases op with
  | sendBurst xs => rfl
  | recvBurst m => rfl
  | _ => cases hop

theorem Op.want_ringOp (op : Op α) (id : Nat) : (op.ringOp id).want = 1 := by
  cases op <;> rfl

/-- A single operation that moved something moved one element. -/
theorem Settled.outcome_single {d : Nat} {rop : RingOp Wid α} {id : Nat} (h : Settled cap r n d rop)
    (hop : op.single = true) (hrop : rop = op.ringOp id) (hd : d ≠ 0) :
    Outcome cap r n op (.err .ok) d := by
  subst hrop
  have hle := h.le
  rw [Op.want_ringOp] at hle
  obtain rfl : d = 1 := by omega
  exact h.outcome (Op.side_ringOp hop id) (Op.answers_moved hop n)

/-- Nothing to wait for: a call without timeout that is refused returns. -/
theorem Level.alone_of_blocks {pc : Pc α} (hl : Level cap r n ∧ Stuck cap n op.side)
    (hop : op.single = true) (htry : op.tries = true) (hblock : Pc.Blocks op pc) :
    pc.Alone cap r n op := by
  cases hblock with
  | now htime => exact ⟨0, hl.1.outcome_block hop hl.2⟩
  | wait htime =>
    cases op with
    | send x t => exact absurd (of_decide_eq_true htry) htime
    | recv t => exact absurd (of_decide_eq_true htry) htime
    | _ => cases hop

variable {K : Config T C} {m : Mem T C α} {id : Nat} {c : C} {alt : Bool} {pc pc' : Pc α}
  {e : Effect α} [DecidableEq T] {t : T}

/-- One step of the call. -/
theorem Pc.Alone.flow (h : pc.Alone (K.chan c).ringCap (m.chan c).ring n op)
    (hok : pc.Ok (K.chan c) id op) (htry : op.tries = true) (hcap : (K.chan c).capacity ≠ 0)
    (hch : (m.chan c).Deserted)
    (hcache : ∀ p ∈ pc.spsc?, p.CacheOk (K.chan c).ringCap (m.chan c).ring)
    (hflow : Pc.Flow K m id c op alt pc e pc') :
    e.mild = true ∧
      pc'.Alone (K.chan c).ringCap ((m.chan c).apply (K.chan c).ringCap t e).ring n op := by
  have hshut := hch.opened
  -- a single operation that is refused found the ring full or empty
  have hmiss : ∀ {r' : Ring α} {d : Nat} {rop : RingOp Wid α}, Settled (K.chan c).ringCap r' n d rop →
      d = 0 → rop = op.ringOp id → op.single = true →
      Level (K.chan c).ringCap r' n ∧ Stuck (K.chan c).ringCap n op.side := by
    rintro r' d rop hs rfl rfl hop
    exact hs.level (Op.side_ringOp hop id)
  cases hflow with
  | closed hclosed => exact ⟨rfl, h⟩
  | openSpsc hopen hspsc =>
    refine ⟨rfl, ?_, h⟩
    cases op with
    | send x time => trivial
    | recv time => trivial
    | _ => cases hok.1
  | openCnt hopen hspsc => exact ⟨rfl, h⟩
  | openSlow hopen hop => exact ⟨rfl, h⟩
  | cntBusy hcnt => exact absurd (hch.cnt _) hcnt
  | cntSend hcnt => exact ⟨rfl, h⟩
  | cntRecv hcnt => exact ⟨rfl, Op.valid_ringOp op id, h⟩
  | fastIn hp => exact ⟨rfl, h.inside hp⟩
  | fastHit hp hres => exact ⟨rfl, _, (h.settled hp).outcome_single hok.1 hok.2.2.2.1 hres⟩
  | fastMiss hp hres => exact ⟨rfl, (hmiss (h.settled hp) hres hok.2.2.2.1 hok.1).1⟩
  | fastMissSlow hp hres hop => exact ⟨rfl, (hmiss (h.settled hp) hres hok.2.2.2.1 hok.1).1⟩
  | spscIn hp => exact ⟨rfl, h.inside (hcache _ rfl) hp⟩
  | spscHit hp hres => exact ⟨rfl, _, (h.settled hp).outcome_single hok.1 hok.2.2.2 hres⟩
  | spscMiss hp hres => exact ⟨rfl, (hmiss (h.settled hp) hres hok.2.2.2 hok.1).1⟩
  | spscMissSlow hp hres hop => exact ⟨rfl, (hmiss (h.settled hp) hres hok.2.2.2 hok.1).1⟩
  | burstShut hclosed => cases hshut.symm.trans hclosed
  | burstOpen hopen => exact ⟨rfl, hok.2.2, h⟩
  | burstIn hp => exact ⟨rfl, h.inside hp⟩
  | burstHit hp hres =>
    have hside := (congrArg RingOp.side hok.2.2.1).trans (Op.side_burstOp hok.1 id)
    exact ⟨rfl, _, (h.settled hp).outcome hside (Op.answers_burst hok.1 n _)⟩
  | burstMiss hp hres =>
    have hside := (congrArg RingOp.side hok.2.2.1).trans (Op.side_burstOp hok.1 id)
    have hs := h.settled hp
    rw [hres] at hs
    exact ⟨rfl, _, hs.outcome hside (Op.answers_burst hok.1 n _)⟩
  | afterServe hcnt => exact absurd (hch.cnt _) hcnt
  | afterRet hcnt => exact ⟨rfl, h⟩
  | serveFirst => exact ⟨rfl, rfl, h.2⟩
  | serveStop hstop => exact ⟨rfl, h.2⟩
  | serveStopBlock hstop hblock =>
    exact ⟨rfl, Level.alone_of_blocks h.2 (Pc.isSend_single hok.2.1) htry hblock⟩
  | serveGo hgo => exact ⟨rfl, rfl, h.2⟩
  | serveEmpty hqueue => exact ⟨rfl, h.2⟩
  | serveEmptyBlock hqueue hblock =>
    exact ⟨rfl, Level.alone_of_blocks h.2 (Pc.isSend_single hok.2.1) htry hblock⟩
  | serveClaim hqueue => cases (hch.queue _).symm.trans hqueue
  | serveDrop hqueue => cases (hch.queue _).symm.trans hqueue
  | serveIn | serveHit | serveMiss | servePutBack | servePutBackBlock | serveSettle | serveWake =>
    cases h.1
  | slowSend hfree hop => exact ⟨rfl, h⟩
  | slowMeet hfree hop hzero => exact absurd hzero hcap
  | slowBuffered hfree hop hpos => exact ⟨rfl, Op.valid_ringOp op id, h⟩
  | slowShut hclosed => cases hshut.symm.trans hclosed
  | slowOpenMeet hopen hzero => exact absurd hzero hcap
  | slowOpenRing hopen hpos => exact ⟨rfl, Op.valid_ringOp op id, h⟩
  | slowIn hp => exact ⟨rfl, h.inside hp⟩
  | slowSendHit hp hres hop =>
    exact ⟨rfl, rfl, _, (h.settled hp).outcome_single hok.1 hok.2.2.1 hres⟩
  | slowSendMiss hp hres hop => exact ⟨rfl, rfl, hmiss (h.settled hp) hres hok.2.2.1 hok.1⟩
  | slowRecvHit hp hres hop => exact ⟨rfl, _, (h.settled hp).outcome_single hok.1 hok.2.2.1 hres⟩
  | slowRecvMiss hp hres hop => exact ⟨rfl, hmiss (h.settled hp) hres hok.2.2.1 hok.1⟩
  | meetEmptySend hqueue hop hblock => exact ⟨rfl, Level.alone_of_blocks h hok htry hblock⟩
  | meetEmptyRecv hqueue hop => exact ⟨rfl, h⟩
  | meetClaim hqueue => cases (hch.queue _).symm.trans hqueue
  | meetDrop hqueue => cases (hch.queue _).symm.trans hqueue
  | helpEmpty hqueue => exact ⟨rfl, h⟩
  | helpClaim hqueue => cases (hch.queue _).symm.trans hqueue
  | helpDrop hqueue => cases (hch.queue _).symm.trans hqueue
  | emptyShut hclosed => cases hshut.symm.trans hclosed
  | emptyOpen hopen hblock => exact ⟨rfl, Level.alone_of_blocks h hok.1 htry hblock⟩
  | unlockRet => exact ⟨rfl, h⟩
  | lenTail => exact ⟨rfl, h, rfl⟩
  | lenHead =>
    obtain ⟨hl, rfl⟩ := h
    obtain rfl : op = .len := hok
    exact ⟨rfl, 0, ⟨congrArg Ret.count hl.count, rfl⟩, hl.quiet, hl.count, fun hop => by cases hop⟩
  | _ => exact h.elim

end Flow

/-! ## Runs of one thread -/

/-- What holds of the thread that makes the calls; `n` is what its present call found. -/
def Thread.Tries (K : Config T C) (c : C) (r : Ring α) (n : Nat) : Thread C α → Prop
  | .idle => Level (K.chan c).ringCap r n
  | .direct _ d op pc => d = c ∧ op.tries = true ∧ pc.Alone (K.chan c).ringCap r n op
  | .select _ _ _ _ => False

/-- The place of a thread inside a cached ring operation. -/
def Thread.spsc? : Thread C α → Option (SpscPc Wid α)
  | .direct _ _ _ pc => pc.spsc?
  | _ => none

/-- Only thread `t` has ever moved, by calls on `c` that return at once. -/
structure Tried (K : Config T C) (t : T) (c : C) (s : Sys T C α) (n : Nat) : Prop where
  chan : (s.mem.chan c).Deserted
  others : ∀ u, u ≠ t → s.thread u = .idle
  place : (s.thread t).Tries K c (s.mem.chan c).ring n

/-- The steps of thread `t` on channel `c`: calls that return at once, and cached ring operations whose
private copy refuses whenever the real tail does. -/
def Sys.TryOk [DecidableEq C] (K : Config T C) (t : T) (c : C) (s : Sys T C α) : Label T C α → Prop
  | .call u (.direct d op) => u = t ∧ d = c ∧ op.tries = true
  | .call _ (.select _ _) => False
  | .go u _ => u = t ∧ ∀ p ∈ (s.thread t).spsc?, p.CacheOk (K.chan c).ringCap (s.mem.chan c).ring

instance [DecidableEq T] [DecidableEq C] (K : Config T C) (t : T) (c : C) (s : Sys T C α) :
    DecidablePred (s.TryOk K t c)
  | .call u (.direct d op) => inferInstanceAs (Decidable (u = t ∧ d = c ∧ op.tries = true))
  | .call _ (.select _ _) => .isFalse id
  | .go u _ => inferInstanceAs (Decidable (u = t ∧ ∀ p ∈ (s.thread t).spsc?,
      p.CacheOk (K.chan c).ringCap (s.mem.chan c).ring))

section Run

variable [DecidableEq T] [DecidableEq C] {K : Config T C} {s s' : Sys T C α} {l : Label T C α}
  {t : T} {c : C} {n : Nat}

omit [DecidableEq C] in
theorem Chan.Deserted.apply {ch : Chan T α} (h : ch.Deserted) (cap : RingCap) {e : Effect α}
    (he : e.mild = true) : (ch.apply cap t e).Deserted := by
  cases e with
  | none | ring | spsc | lock | unlock => exact ⟨h.opened, h.queue, h.cnt⟩
  | _ => cases he

/-- The first place of a call. -/
theorem Level.alone_entry {k : ChanCfg} {r : Ring α} (hl : Level k.ringCap r n) (id : Nat) (op : Op α)
    (hcap : k.capacity ≠ 0) (htry : op.tries = true) : (Pc.entry k id op).Alone k.ringCap r n op := by
  have hok := Pc.ok_entry k id op
  have hpos := Nat.pos_of_ne_zero hcap
  cases op with
  | send x time =>
    rw [Pc.entry, if_pos hpos]
    exact hl
  | recv time =>
    rw [Pc.entry, if_pos hpos]
    show (if k.spsc then Pc.fastSpsc 0 (.loadHead ((Op.recv time : Op α).ringOp id))
      else Pc.fastCnt .send 0).Alone k.ringCap r n (.recv time)
    split
    · exact ⟨trivial, hl⟩
    · exact hl
  | sendBurst xs =>
    rw [Pc.entry]
    split
    · exact ⟨0, rfl, hl.quiet, hl.count, fun hop => by cases hop⟩
    · exact hl
  | recvBurst m =>
    rw [Pc.entry] at hok ⊢
    split
    · exact ⟨0, rfl, hl.quiet, hl.count, fun hop => by cases hop⟩
    · next hne =>
      rw [if_neg hne] at hok
      exact ⟨hok.2.2.2, hl⟩
  | close => cases htry
  | len =>
    rw [Pc.entry, if_neg hcap]
    exact hl

theorem Tried.call (h : Tried K t c s n) (hcap : (K.chan c).capacity ≠ 0)
    (hidle : s.thread t = .idle) {op : Op α} (htry : op.tries = true) :
    Tried K t c (s.startCall K t (.direct c op)) n := by
  have hl := h.place
  rw [hidle] at hl
  refine ⟨h.chan, fun u hu => ?_, ?_⟩
  · rw [Sys.thread_startCall_of_ne hu]
    exact h.others u hu
  · rw [Sys.thread_startCall_self]
    exact ⟨rfl, htry, hl.alone_entry s.next op hcap htry⟩

theorem Tried.move (h : Tried K t c s n) (hs : Sound K s) (hcap : (K.chan c).capacity ≠ 0)
    {alt : Bool} (hok : s.TryOk K t c (.go t alt)) {d : C} {e : Effect α} {th : Thread C α}
    (hacts : s.Acts K t alt d e th) : Tried K t c (s.move K t d e th) n := by
  have hplace := h.place
  cases hacts with
  | @direct id d op pc pc' e hth hact =>
    rw [hth] at hplace
    obtain ⟨rfl, htry, halone⟩ := hplace
    have hcache := hok.2
    rw [hth] at hcache
    obtain ⟨hmild, hnext⟩ := halone.flow (hs.direct_ok hth) htry hcap h.chan hcache
      (Pc.flow_of_act hact) (t := t)
    refine ⟨?_, fun u hu => ?_, ?_⟩
    · rw [Sys.move, Mem.chan_apply_self]
      exact h.chan.apply _ hmild
    · rw [Sys.thread_move_of_ne hu]
      exact h.others u hu
    · rw [Sys.thread_move_self, Sys.move, Mem.chan_apply_self]
      exact ⟨rfl, htry, hnext⟩
  | select hth hact =>
    rw [hth] at hplace
    exact hplace.elim

omit [DecidableEq C] in
/-- The end of a call: what it leaves is what the next one finds. -/
theorem Tried.ret (h : Tried K t c s n) {id : Nat} {r : Ret} {out : List (Option α)}
    (hret : s.Returns t id r out) : ∃ n', Tried K t c (s.finishCall t id r out) n' := by
  have hplace := h.place
  cases hret with
  | @direct d op _ hth =>
    rw [hth] at hplace
    obtain ⟨rfl, -, k, hout⟩ := hplace
    refine ⟨(s.mem.chan d).ring.count, h.chan, fun u hu => ?_, ?_⟩
    · rw [Sys.thread_finishCall_of_ne hu]
      exact h.others u hu
    · rw [Sys.thread_finishCall_self]
      exact ⟨hout.quiet, rfl⟩
  | select hth =>
    rw [hth] at hplace
    exact hplace.elim

/-- Every step of the run. -/
theorem Tried.step (h : Tried K t c s n) (hs : Sound K s) (hcap : (K.chan c).capacity ≠ 0)
    (hok : s.TryOk K t c l) (hstep : s.Stepped K l s') : ∃ n', Tried K t c s' n' := by
  cases hstep with
  | @call u k hidle =>
    cases k with
    | direct d op =>
      obtain ⟨rfl, rfl, htry⟩ := hok
      exact ⟨n, h.call hcap hidle htry⟩
    | select cases timeout => exact hok.elim
  | @ret u alt id r out hdone hret =>
    obtain ⟨rfl, -⟩ := hok
    exact h.ret hret
  | @move u alt d e th hnext hacts =>
    obtain ⟨rfl, hcond⟩ := hok
    exact ⟨n, h.move hs hcap ⟨rfl, hcond⟩ hacts⟩

theorem Tried.reaches {slots : C → U32 → α} (hcap : (K.chan c).capacity ≠ 0)
    (hrun : Reaches (Sys.step K) (Sys.TryOk K t c) (Sys.init slots) s) :
    Sound K s ∧ ∃ n, Tried K t c s n :=
  Sys.invariant (P := fun s => ∃ n, Tried K t c s n) hrun
    ⟨0, ⟨rfl, fun _ => rfl, fun _ => rfl⟩, fun _ _ => rfl, .init _ _⟩
    fun _ _ _ hs h hok hstep => h.elim fun _ h => h.step hs hcap hok hstep

/-- While the call numbered `id` is in progress, what it found stays the same. -/
theorem Tried.during {id : Nat} (h : Tried K t c s n) (hs : Sound K s)
    (hcap : (K.chan c).capacity ≠ 0) (hid : id < s.next)
    (hrun : Reaches (Sys.step K) (Sys.TryOk K t c) s s') (hth : (s'.thread t).id? = some id) :
    Sound K s' ∧ Tried K t c s' n := by
  have hkeep := Sys.invariant_from (P := fun s => (∃ n, Tried K t c s n) ∧ id < s.next ∧
    ((s.thread t).id? = some id → Tried K t c s n)) hrun hs ⟨⟨n, h⟩, hid, fun _ => h⟩ ?_
  · exact ⟨hkeep.1, hkeep.2.2.2 hth⟩
  rintro s l s' hs ⟨⟨k, hk⟩, hlt, hn⟩ hok hstep
  refine ⟨hk.step hs hcap hok hstep, ?_⟩
  cases hstep with
  | @call u call hidle =>
    refine ⟨Nat.lt_succ_of_lt hlt, fun hth => ?_⟩
    cases call with
    | direct d op =>
      obtain ⟨rfl, rfl, htry⟩ := hok
      rw [Sys.thread_startCall_self] at hth
      cases hth
      exact absurd hlt (Nat.lt_irrefl _)
    | select cases timeout => exact hok.elim
  | @ret u alt id' r out hdone hret =>
    obtain ⟨rfl, -⟩ := hok
    refine ⟨hlt, fun hth => ?_⟩
    rw [Sys.thread_finishCall_self] at hth
    cases hth
  | @move u alt d e th hnext hacts =>
    obtain ⟨rfl, hcond⟩ := hok
    refine ⟨hlt, fun hth => ?_⟩
    rw [Sys.thread_move_self] at hth
    exact (hn (hnext.id ▸ hth)).move hs hcap ⟨rfl, hcond⟩ hacts

end Run

/-! ## A `chan_try_send` returns -/

section Progress

variable [DecidableEq T] [DecidableEq C] {K : Config T C} {s : Sys T C α} {t : T} {c : C} {n id : Nat}
  {x : α} {pc : Pc α}

/-- Thread `t` is at `pc` in its call numbered `id`, a `chan_try_send` that found `n` elements. -/
structure Sending (K : Config T C) (t : T) (c : C) (n id : Nat) (x : α) (s : Sys T C α) (pc : Pc α) :
    Prop where
  sound : Sound K s
  tried : Tried K t c s n
  thread : s.thread t = .direct id c (.send x 0) pc

/-- The call can run to its return. -/
def Ends (K : Config T C) (t : T) (c : C) (id : Nat) (x : α) (s : Sys T C α) : Prop :=
  ∃ s' r, Reaches (Sys.step K) (Sys.TryOk K t c) s s' ∧
    s'.thread t = .direct id c (.send x 0) (.ret r)

/-- One step towards the return. -/
theorem Sending.step (h : Sending K t c n id x s pc) (hcap : (K.chan c).capacity ≠ 0)
    (e : Effect α) (pc' : Pc α)
    (hcache : ∀ p ∈ pc.spsc?, p.CacheOk (K.chan c).ringCap (s.mem.chan c).ring)
    (hact : pc.act K s.mem id c (.send x 0) false = some (e, pc'))
    (hnext : ∀ s', Sending K t c n id x s' pc' →
      (s'.mem.chan c).ring = ((s.mem.chan c).apply (K.chan c).ringCap t e).ring →
      Ends K t c id x s') : Ends K t c id x s := by
  have hok : s.TryOk K t c (.go t false) := by
    refine ⟨rfl, ?_⟩
    rw [h.thread]
    exact hcache
  have hstep := Sys.step_of_act h.thread hact
  have hmove := h.tried.move h.sound hcap hok (.direct h.thread hact)
  obtain ⟨s', r, hrun, hret⟩ := hnext _
    ⟨h.sound.step (Sys.step_cases h.sound.locks.wf hstep), hmove, Sys.thread_move_self⟩
    (by rw [Sys.move, Mem.chan_apply_self])
  exact ⟨s', r, .head ⟨_, hok, hstep⟩ hrun, hret⟩

/-- A step that is not a cached ring access. -/
theorem Sending.plain (h : Sending K t c n id x s pc) (hcap : (K.chan c).capacity ≠ 0)
    (hpc : pc.spsc? = none) (e : Effect α) (pc' : Pc α)
    (hact : pc.act K s.mem id c (.send x 0) false = some (e, pc'))
    (hnext : ∀ s', Sending K t c n id x s' pc' →
      (s'.mem.chan c).ring = ((s.mem.chan c).apply (K.chan c).ringCap t e).ring →
      Ends K t c id x s') : Ends K t c id x s := by
  refine h.step hcap e pc' (fun p hp => ?_) hact hnext
  rw [hpc] at hp
  cases hp

theorem Sending.ends_ret {v : Ret} (h : Sending K t c n id x s (.ret v)) :
    Ends K t c id x s :=
  ⟨s, v, .refl, h.thread⟩

theorem Sending.ends_unlockRet {v : Ret} (hcap : (K.chan c).capacity ≠ 0)
    (h : Sending K t c n id x s (.unlockRet v)) : Ends K t c id x s :=
  h.plain hcap rfl .unlock (.ret v) rfl fun _ h' _ => h'.ends_ret

theorem Sending.ends_fastAfter {v : Ret} (hcap : (K.chan c).capacity ≠ 0)
    (h : Sending K t c n id x s (.fastAfter v)) : Ends K t c id x s := by
  refine h.plain hcap rfl .none (.ret v) ?_ fun _ h' _ => h'.ends_ret
  rw [Pc.act, if_neg (not_not.2 (h.tried.chan.cnt _))]

/-- The hand-over loop finds no waiter. -/
theorem Sending.ends_served {k : ServeEnd} (hcap : (K.chan c).capacity ≠ 0)
    (h : Sending K t c n id x s (.served (.send x 0) k)) : Ends K t c id x s := by
  cases k with
  | leave v => exact h.ends_unlockRet hcap
  | block => exact Sending.ends_unlockRet (v := .err .wouldblock) hcap h

theorem Sending.ends_serve {k : ServeEnd} (hcap : (K.chan c).capacity ≠ 0)
    (h : Sending K t c n id x s (.serve k .first)) : Ends K t c id x s := by
  refine h.plain hcap rfl _ _ rfl fun s' h' _ => ?_
  refine h'.plain hcap rfl _ _ rfl fun s₂ h₂ _ => ?_
  split at h₂
  · exact h₂.ends_served hcap
  · refine h₂.plain hcap rfl .none (.served (.send x 0) k) ?_ fun s₃ h₃ _ => h₃.ends_served hcap
    rw [Pc.act, Pc.actServe, h₂.tried.chan.queue]

/-- A ring operation runs to its end when nobody interferes. -/
theorem Sending.ends_finish {inside : RingPc Wid α → Pc α} {after : RingRes α → Pc α}
    (hcap : (K.chan c).capacity ≠ 0) (hpc : ∀ p, (inside p).spsc? = none)
    (hact : ∀ (m : Mem T C α) p, (inside p).act K m id c (.send x 0) false = some (.ring false p,
      ringNext (K.chan c).ringCap (m.chan c).ring false p inside after))
    (hafter : ∀ s' res, Sending K t c n id x s' (after res) → Ends K t c id x s') :
    ∀ (fuel : Nat) (s : Sys T C α) (p : RingPc Wid α) (v : Ring α × RingRes α),
      (s.mem.chan c).ring.finish (K.chan c).ringCap fuel p = some v →
      Sending K t c n id x s (inside p) → Ends K t c id x s := by
  intro fuel
  induction fuel with
  | zero =>
    intro s p v hfin h
    cases hfin
  | succ fuel ih =>
    intro s p v hfin h
    rw [Ring.finish_succ] at hfin
    refine h.plain hcap (hpc p) _ _ (hact s.mem p) fun s' h' hring => ?_
    rw [ringNext] at h'
    cases hstep : (s.mem.chan c).ring.step (K.chan c).ringCap false p with
    | mk r' q =>
      rw [hstep] at h' hfin
      replace hring : (s'.mem.chan c).ring = r' := hring.trans (congrArg Prod.fst hstep)
      cases q with
      | inl p' =>
        rw [← hring] at hfin
        exact ih s' p' v hfin h'
      | inr res => exact hafter s' res h'

omit [DecidableEq T] in
theorem Sending.alone (h : Sending K t c n id x s pc) :
    pc.Alone (K.chan c).ringCap (s.mem.chan c).ring n (.send x 0) := by
  have hplace := h.tried.place
  rw [h.thread] at hplace
  exact hplace.2.2

theorem Sending.ends_slowRing (hcap : (K.chan c).capacity ≠ 0)
    (h : Sending K t c n id x s (.slowRing (.loadHead (.push ⟨id, 0⟩ x)))) : Ends K t c id x s := by
  obtain ⟨fuel, v, hfin⟩ := RingPc.Alone.exists_finish h.alone
  exact Sending.ends_finish hcap (fun _ => rfl) (fun _ _ => rfl)
    (fun s' res h' => h'.ends_serve hcap) fuel s _ v hfin h

theorem Sending.ends_slowLock (hcap : (K.chan c).capacity ≠ 0)
    (h : Sending K t c n id x s .slowLock) : Ends K t c id x s := by
  have hfree : (s.mem.chan c).lock = none := by
    cases hlock : (s.mem.chan c).lock with
    | none => rfl
    | some u =>
      have hholds := (h.sound.locks.lock c u).1 hlock
      by_cases hu : u = t
      · rw [hu, h.thread] at hholds
        cases hholds
      · rw [h.tried.others u hu] at hholds
        cases hholds
  refine h.plain hcap rfl .lock .slowClosed (by rw [Pc.act, if_pos hfree]) fun s' h' _ => ?_
  refine h'.plain hcap rfl .none (.slowRing (.loadHead (.push ⟨id, 0⟩ x))) ?_
    fun s₂ h₂ _ => h₂.ends_slowRing hcap
  rw [Pc.act, h'.tried.chan.opened, if_neg Bool.false_ne_true, if_neg hcap]
  rfl

/-- The cached push of an iteration: it succeeds, or it is refused after its copy was refreshed. -/
theorem Sending.ends_spsc {spin : Nat} (hcap : (K.chan c).capacity ≠ 0)
    (hmiss : ∀ s', Sending K t c n id x s' (.missed K c id (.send x 0) spin) →
      CacheOk (K.chan c).ringCap (s'.mem.chan c).ring .send → Ends K t c id x s')
    (hok : CacheOk (K.chan c).ringCap (s.mem.chan c).ring .send)
    (h : Sending K t c n id x s (.fastSpsc spin (.loadHead (.push ⟨id, 0⟩ x)))) :
    Ends K t c id x s := by
  have hcopy : ∀ s' a, Sending K t c n id x s' (.fastSpsc spin (.copy (.push ⟨id, 0⟩ x) a)) →
      Ends K t c id x s' := by
    intro s' a h'
    refine h'.step hcap _ _ (by rintro _ ⟨⟩; trivial) rfl fun s₂ h₂ _ => ?_
    refine h₂.step hcap _ _ (by rintro _ ⟨⟩; trivial) rfl fun s₃ h₃ _ => ?_
    exact h₃.step hcap _ _ (by rintro _ ⟨⟩; trivial) rfl fun s₄ h₄ _ => h₄.ends_fastAfter hcap
  refine h.step hcap _ _ (by rintro _ ⟨⟩; exact hok) rfl fun s₁ h₁ _ => ?_
  by_cases hseen : spscBlocked (K.chan c).ringCap ((s.mem.chan c).ring.cur .send).head
      ((s.mem.chan c).ring.cur .send).cached .send = true
  swap
  · simp only [spscNext, Ring.spscStep, RingOp.side, hseen] at h₁
    exact hcopy s₁ _ h₁
  simp only [spscNext, Ring.spscStep, RingOp.side, hseen, if_true] at h₁
  have hl := h₁.alone.2.1
  refine h₁.step hcap _ _ (by rintro _ ⟨⟩; trivial) rfl fun s₂ h₂ hring => ?_
  by_cases hreal : spscBlocked (K.chan c).ringCap ((s.mem.chan c).ring.cur .send).head
      ((s₁.mem.chan c).ring.cur .recv).tail .send = true
  swap
  · simp only [spscNext, Ring.spscStep, RingOp.side, ChanOp.other, hreal] at h₂
    exact hcopy s₂ _ h₂
  simp only [spscNext, Ring.spscStep, RingOp.side, ChanOp.other, hreal, if_true] at h₂
  refine hmiss s₂ h₂ ?_
  have hset : (s₂.mem.chan c).ring = (s₁.mem.chan c).ring.setCached .send
      ((s₁.mem.chan c).ring.cur .recv).tail := by
    rw [hring]
    simp only [Chan.apply, Chan.spscStep, Ring.spscStep, RingOp.side, ChanOp.other, hreal, if_true]
  rw [hset]
  exact hl.cacheOk_setCached .send

/-- One iteration of the lock-free loop. -/
theorem Sending.ends_iteration {spin : Nat} (hcap : (K.chan c).capacity ≠ 0)
    (hmiss : ∀ s', Sending K t c n id x s' (.missed K c id (.send x 0) spin) →
      ((K.chan c).spsc = true → CacheOk (K.chan c).ringCap (s'.mem.chan c).ring .send) →
      Ends K t c id x s')
    (hok : (K.chan c).spsc = true → CacheOk (K.chan c).ringCap (s.mem.chan c).ring .send)
    (h : Sending K t c n id x s (.fastClosed spin)) : Ends K t c id x s := by
  have hopen := h.tried.chan.opened
  cases hspsc : (K.chan c).spsc with
  | true =>
    refine h.plain hcap rfl .none (.fastSpsc spin (.loadHead (.push ⟨id, 0⟩ x))) ?_
      fun s₁ h₁ hring => ?_
    · simp [Pc.act, hopen, hspsc, Op.ringOp]
    · exact h₁.ends_spsc hcap (fun s' h' hok' => hmiss s' h' fun _ => hok') (hring ▸ hok hspsc)
  | false =>
    refine h.plain hcap rfl .none (.fastCnt .send spin) ?_ fun s₁ h₁ _ => ?_
    · simp [Pc.act, hopen, hspsc]
    refine h₁.plain hcap rfl .none (.fastCnt .recv spin) ?_ fun s₂ h₂ _ => ?_
    · rw [Pc.act, if_neg (not_not.2 (h₁.tried.chan.cnt _))]
    refine h₂.plain hcap rfl .none (.fastRing spin (.loadHead (.push ⟨id, 0⟩ x))) ?_ fun s₃ h₃ _ => ?_
    · rw [Pc.act, if_neg (not_not.2 (h₂.tried.chan.cnt _))]
      rfl
    obtain ⟨fuel, v, hfin⟩ := RingPc.Alone.exists_finish h₃.alone
    refine Sending.ends_finish hcap (fun _ => rfl) (fun _ _ => rfl) (fun s' res h' => ?_) fuel s₃ _ v
      hfin h₃
    split at h'
    · exact hmiss s' h' fun htrue => by cases hspsc.symm.trans htrue
    · exact h'.ends_fastAfter hcap

/-- The lock-free loop runs up to the spin limit and goes on with the locked path. -/
theorem Sending.ends_fastClosed (hcap : (K.chan c).capacity ≠ 0) :
    ∀ (left spin : Nat) (s : Sys T C α), K.spinLimit - spin = left →
      ((K.chan c).spsc = true → CacheOk (K.chan c).ringCap (s.mem.chan c).ring .send) →
      Sending K t c n id x s (.fastClosed spin) → Ends K t c id x s := by
  intro left
  induction left with
  | zero =>
    intro spin s hleft hok h
    refine h.ends_iteration hcap (fun s' h' _ => ?_) hok
    rw [Pc.missed, if_pos (Nat.sub_eq_zero_iff_le.1 hleft)] at h'
    exact h'.ends_slowLock hcap
  | succ left ih =>
    intro spin s hleft hok h
    refine h.ends_iteration hcap (fun s' h' hok' => ?_) hok
    rw [Pc.missed, if_neg (by omega)] at h'
    exact ih (spin + 1) s' (by omega) hok' h'

/-- A `chan_try_send` returns. -/
theorem Tried.ends_send (h : Tried K t c s n) (hs : Sound K s) (hcap : (K.chan c).capacity ≠ 0)
    (hidle : s.thread t = .idle)
    (hok : (K.chan c).spsc = true → CacheOk (K.chan c).ringCap (s.mem.chan c).ring .send) (x : α) :
    Ends K t c s.next x (s.startCall K t (.direct c (.send x 0))) := by
  refine Sending.ends_fastClosed (n := n) hcap _ 0 _ rfl hok
    ⟨hs.step (.call hidle), h.call hcap hidle rfl, ?_⟩
  rw [Sys.thread_startCall_self, Sys.startThread, Pc.entry, if_pos (Nat.pos_of_ne_zero hcap)]
  rfl

end Progress

/-! ## Length and capacity -/

section Main

variable [DecidableEq T] [DecidableEq C]

/-- A power of two is what the ring makes of it. -/
theorem ChanCfg.size_ringCap {k : ChanCfg} {e : Nat} (he : e ≤ 31) (hcap : k.capacity = 2 ^ e) :
    k.ringCap.size = k.capacity := by
  have hle : 2 ^ e ≤ 2 ^ 31 := Nat.pow_le_pow_right (by decide) he
  have hleast := nextPow2_isLeast (n := 2 ^ e) Nat.one_le_two_pow hle
  rw [hcap]
  show (nextPow2 (BitVec.ofNat 32 k.capacity)).toNat = 2 ^ e
  rw [hcap]
  exact le_antisymm (hleast.2 ⟨⟨e, rfl⟩, le_rfl⟩) hleast.1.2

/-- One thread makes calls that return at once on a channel whose capacity is a power of two of at most
31 bits, and on an SPSC channel its private copies refuse whenever the real tails do. Between the calls
and in every answer of `chan_len` the length is at most the capacity. A `chan_try_send` returns, and it
returns `CHAN_ERR_WOULDBLOCK` exactly when the length was the capacity. -/
theorem try_within_capacity (K : Config T C) (slots : C → U32 → α) (t : T) (c : C) (e : Nat)
    (he : e ≤ 31) (hcap : (K.chan c).capacity = 2 ^ e) (s : Sys T C α)
    (hrun : Reaches (Sys.step K) (Sys.TryOk K t c) (Sys.init slots) s) :
    (s.thread t = .idle → (s.mem.chan c).ring.count ≤ (K.chan c).capacity) ∧
    (∀ id k, s.thread t = .direct id c .len (.ret (.count k)) →
      k = (s.mem.chan c).ring.count ∧ k ≤ (K.chan c).capacity) ∧
    ∀ x s₁, s.step K (.call t (.direct c (.send x 0))) = some s₁ →
      (∀ s' r, Reaches (Sys.step K) (Sys.TryOk K t c) s₁ s' →
        s'.thread t = .direct s.next c (.send x 0) (.ret r) →
        (r = .err .wouldblock ↔ (s.mem.chan c).ring.count = (K.chan c).capacity)) ∧
      (((K.chan c).spsc = true → CacheOk (K.chan c).ringCap (s.mem.chan c).ring .send) →
        ∃ s' r, Reaches (Sys.step K) (Sys.TryOk K t c) s₁ s' ∧
          s'.thread t = .direct s.next c (.send x 0) (.ret r)) := by
  have hsize := ChanCfg.size_ringCap he hcap
  have hne : (K.chan c).capacity ≠ 0 := hcap ▸ (Nat.two_pow_pos e).ne'
  obtain ⟨hs, n, h⟩ := Tried.reaches hne hrun
  refine ⟨fun hidle => ?_, fun id k hth => ?_, fun x s₁ hstep => ?_⟩
  · have hl := h.place
    rw [hidle] at hl
    exact hsize ▸ hl.quiet.le
  · have hplace := h.place
    rw [hth] at hplace
    obtain ⟨-, -, d, ⟨hans, rfl⟩, hquiet, hcount, -⟩ := hplace
    cases hans
    exact ⟨hcount.symm, hsize ▸ hcount ▸ hquiet.le⟩
  · have hcase := Sys.step_cases hs.locks.wf hstep
    have hs₁ := hs.step hcase
    cases hcase with
    | call hidle =>
      refine ⟨fun s' r hrest hth => ?_, fun hok => h.ends_send hs hne hidle hok x⟩
      have hl := h.place
      rw [hidle] at hl
      obtain ⟨-, hdone⟩ := (h.call hne hidle rfl).during hs₁ hne (Nat.lt_succ_self s.next) hrest
        (by rw [hth]; rfl)
      have hplace := hdone.place
      rw [hth] at hplace
      obtain ⟨-, -, d, hout⟩ := hplace
      have hstuck : d = 0 ↔ n = (K.chan c).ringCap.size := hout.stuck rfl
      rw [hl.count, ← hsize, ← hstuck]
      rcases hout.answers with ⟨rfl, rfl⟩ | ⟨rfl, rfl⟩
      · simp
      · simp

end Main

/-- One thread and one channel with a buffer of two elements. -/
def bufferedTwo : Config Unit Unit where
  chan _ := ChanCfg.create 2
  addr _ := 0
  spinLimit := 0
  self _ := 1

/-- After two sends the length is the capacity, and a third `chan_try_send` is refused. -/
theorem try_within_capacity_two : ∃ s : Sys Unit Unit Nat,
    Reaches (Sys.step bufferedTwo) (Sys.TryOk bufferedTwo () ()) (Sys.init fun _ _ => 0) s ∧
    (s.mem.chan ()).ring.count = 2 ∧
    ∃ s₁ s', s.step bufferedTwo (.call () (.direct () (.send 9 0))) = some s₁ ∧
      Reaches (Sys.step bufferedTwo) (Sys.TryOk bufferedTwo () ()) s₁ s' ∧
      s'.thread () = .direct 2 () (.send 9 0) (.ret (.err .wouldblock)) := by
  obtain ⟨s, hs, hidle, hcount, hnext⟩ := Sys.exists_reaches bufferedTwo (fun _ _ => (0 : Nat))
    (Sys.TryOk bufferedTwo () ())
    (.call () (.direct () (.send 7 0)) :: List.replicate 11 (.go () false) ++
      .call () (.direct () (.send 8 0)) :: List.replicate 11 (.go () false))
    (fun s => s.thread () = .idle ∧ (s.mem.chan ()).ring.count = 2 ∧ s.next = 2) (by decide +kernel)
  have hcall : s.step bufferedTwo (.call () (.direct () (.send 9 0))) =
      some (s.startCall bufferedTwo () (.direct () (.send 9 0))) := by
    rw [Sys.step, hidle]
  obtain ⟨-, -, hsend⟩ := try_within_capacity bufferedTwo _ () () 1 (by decide) rfl s hs
  obtain ⟨hblock, hends⟩ := hsend 9 _ hcall
  obtain ⟨s', r, hrun, hret⟩ := hends fun h => by cases h
  refine ⟨s, hs, hcount, _, s', hcall, hrun, ?_⟩
  rw [← hnext, hret, (hblock s' r hrun hret).2 hcount]

/-- One thread and one channel with a requested capacity of three. -/
def bufferedThree : Config Unit Unit where
  chan _ := ChanCfg.create 3
  addr _ := 0
  spinLimit := 0
  self _ := 1

/-- A channel of capacity three takes a fourth element, and its length is then four. -/
theorem try_exceeds_capacity : ∃ s s' : Sys Unit Unit Nat,
    Reaches (Sys.step bufferedThree) (Sys.TryOk bufferedThree () ()) (Sys.init fun _ _ => 0) s ∧
    Reaches (Sys.step bufferedThree) (Sys.TryOk bufferedThree () ()) s s' ∧
    (bufferedThree.chan ()).capacity = 3 ∧ s.thread () = .idle ∧ (s.mem.chan ()).ring.count = 3 ∧
    s'.events = s.events ++ [.call 3 () (.direct () (.send 9 0)), .ret 3 () (.err .ok) []] ∧
    s'.thread () = .idle ∧ (s'.mem.chan ()).ring.count = 4 := by
  have hpair : ∃ s s' : Sys Unit Unit Nat,
      Reaches (Sys.step bufferedThree) (Sys.TryOk bufferedThree () ()) (Sys.init fun _ _ => 0) s ∧
      Reaches (Sys.step bufferedThree) (Sys.TryOk bufferedThree () ()) s s' ∧
      s.thread () = .idle ∧ (s.mem.chan ()).ring.count = 3 ∧
      s'.events = s.events ++ [.call 3 () (.direct () (.send 9 0)), .ret 3 () (.err .ok) []] ∧
      s'.thread () = .idle ∧ (s'.mem.chan ()).ring.count = 4 :=
    exists_reaches_pair_of_exec
      ([5, 6, 7].flatMap fun x =>
        Label.call () (.direct () (.send x 0)) :: List.replicate 11 (.go () false))
      (.call () (.direct () (.send 9 0)) :: List.replicate 11 (.go () false)) _ (by decide +kernel)
  obtain ⟨s, s', hs, hs', hdone⟩ := hpair
  exact ⟨s, s', hs, hs', rfl, hdone⟩

end LibChan
