import LibChan.Chan.Stubs

/-!
# Who knows that a channel is closed

A channel is closed once and for all, by a thread that holds its lock. So a place that has seen the flag
set can rely on it (`Pc.shut`, `SelPc.Shut`), and a place that has seen it clear can rely on that as long
as it holds the lock (`Pc.opens`, `SelPc.Opens`). A result of `CHAN_ERR_CLOSED` is only given on a closed
channel. All of this holds in every run (`ClosedInv`).
-/

set_option autoImplicit false

namespace LibChan

variable {T C α : Type}

/-- The call is `chan_close`. -/
def Op.isClose : Op α → Bool
  | close => true
  | _ => false

/-- The return of a direct call that says that the channel is closed: `CHAN_ERR_CLOSED`, or any return of
`chan_close`. -/
def Ret.shut (op : Op α) : Ret → Bool
  | .err e => decide (e = .closed) || op.isClose
  | _ => false

/-- The places of a direct call that know the channel closed. -/
def Pc.shut (op : Op α) : Pc α → Bool
  | closeClaim _ | closeRing _ _ | closeSettle _ _ _ | closeWake _ _ | backSettle .closed => true
  | unlockRet r | ret r => r.shut op
  | _ => false

/-- The places of a direct call that hold the lock and know the channel open. -/
def Pc.opens (op : Op α) : Pc α → Bool
  | enroll | requeue | serve .block _ => true
  | slowRing _ | meetClaim | backRing _ => op.isSend
  | _ => false

/-- Case `i` is on channel `d`. -/
def CaseAt (cases : List (Case C α)) (i : Nat) (d : C) : Prop :=
  ∃ k, cases[i]? = some k ∧ k.chan = d

/-- Case `i` is a send on channel `d`. -/
def SendAt (cases : List (Case C α)) (i : Nat) (d : C) : Prop :=
  ∃ k, cases[i]? = some k ∧ k.op = .send ∧ k.chan = d

/-- The return of a select that says that channel `d` is closed. -/
def Ret.ShutCase (cases : List (Case C α)) (d : C) : Ret → Prop
  | .sel (some i) .closed => CaseAt cases i d
  | _ => False

/-- The places of a select that know channel `d` closed. -/
def SelPc.Shut (cases : List (Case C α)) (d : C) : SelPc C α → Prop
  | fast1 _ .closed => False
  | fast1 i _ => CaseAt cases i d
  | unlockAll _ (.ret r) => r.ShutCase cases d
  | ret r => r.ShutCase cases d
  | _ => False

/-- The places of a select that hold the locks and know channel `d` open: that of a send case that is
ready or that has passed its first test. -/
def SelPc.Opens (cases : List (Case C α)) (d : C) : SelPc C α → Prop
  | ready _ rdy .closed => ∃ j ∈ rdy, SendAt cases j d
  | ready i rdy _ => SendAt cases i d ∨ ∃ j ∈ rdy, SendAt cases j d
  | pick rdy => ∃ j ∈ rdy, SendAt cases j d
  | exec i _ => SendAt cases i d
  | _ => False

/-- What a thread knows about the closed flags is right. -/
def Thread.Knows (s : Sys T C α) : Thread C α → Prop
  | .idle => True
  | .direct id c op pc => (pc.shut op = true → (s.mem.chan c).closed = true) ∧
    (pc.opens op = true → (s.mem.chan c).closed = false) ∧
    ((s.mem.waiter ⟨id, 0⟩).result = .closed → (s.mem.chan c).closed = true)
  | .select id cases _ pc => (∀ d, pc.Shut cases d → (s.mem.chan d).closed = true) ∧
    (∀ d, pc.Opens cases d → (s.mem.chan d).closed = false) ∧
    ∀ i d, CaseAt cases i d → (s.mem.waiter ⟨id, i⟩).result = .closed → (s.mem.chan d).closed = true

/-- What a call has reported about the closed flags is right. -/
def Call.Knows (s : Sys T C α) (_ : Nat) (k : Call C α) (r : Ret) : Prop :=
  match k with
  | .direct c op => r.shut op = true → (s.mem.chan c).closed = true
  | .select cases _ => ∀ d, r.ShutCase cases d → (s.mem.chan d).closed = true

/-- What threads know and calls report about the closed flags is right. -/
abbrev ClosedInv (s : Sys T C α) : Prop := Sys.Each Thread.Knows Call.Knows s

/-! ## Places -/

section Places

variable {K : Config T C} {m : Mem T C α} {id : Nat} {c : C} {op : Op α} {alt : Bool}
  {pc pc' : Pc α} {e : Effect α}

theorem Op.isClose_of_single (h : op.single = true) : op.isClose = false := by
  cases op <;> first | rfl | cases h

theorem Ret.shut_of_moved {r : Ret} (h : op.Moved r) : r.shut op = false := by
  cases op with
  | send x time =>
    subst h
    rfl
  | recv time =>
    subst h
    rfl
  | sendBurst xs =>
    obtain ⟨n, -, rfl⟩ := h
    rfl
  | recvBurst n =>
    obtain ⟨n, -, rfl⟩ := h
    rfl
  | _ => exact h.elim

theorem Pc.locked_of_opens (h : pc.opens op = true) : pc.locked = true := by
  cases pc with
  | serve k st | slowRing p | meetClaim | backRing p | enroll | requeue => rfl
  | _ => cases h

/-- A place that knows the channel closed has learnt it from the place before, from the flag, from its
own result, or has just closed the channel. -/
theorem Pc.shut_of_flow (hok : pc.Ok (K.chan c) id op) (hflow : Pc.Flow K m id c op alt pc e pc')
    (h : pc'.shut op = true) : pc.shut op = true ∨ (m.chan c).closed = true ∨
      (m.waiter ⟨id, 0⟩).result = .closed ∨ e = .setClosed := by
  have hblocks : op.single = true → Blocks op pc' → pc.shut op = true := by
    intro hs hb
    cases hb with
    | now => cases (Op.isClose_of_single hs).symm.trans h
    | wait => cases h
  have hmoved : ∀ {r : Ret}, op.Moved r → r.shut op = true → pc.shut op = true := by
    intro r hr h
    cases (Ret.shut_of_moved hr).symm.trans h
  have hsingle : op.single = true → (Ret.err .ok).shut op = true → pc.shut op = true := by
    intro hs h
    cases (Op.isClose_of_single hs).symm.trans h
  cases hflow with
  | afterRet hcnt => exact Or.inl (hmoved hok.2 h)
  | serveStop hstop | serveEmpty hqueue | servePutBack => exact Or.inl (hmoved hok.2.1 h)
  | slowShut hclosed => exact Or.inr (Or.inl hclosed)
  | helpEmpty hqueue => exact Or.inl (hsingle hok.1 h)
  | helpPutBack => exact Or.inl (hsingle hok.1 h)
  | wakeRet => exact Or.inl (hsingle hok h)
  | emptyShut hclosed => exact Or.inr (Or.inl hclosed)
  | unDecrRecv hop => exact Or.inl (hsingle hok.1 h)
  | backShut hclosed => exact Or.inr (Or.inl hclosed)
  | @decr r =>
    obtain ⟨hs, rfl | rfl⟩ := hok
    · refine Or.inr (Or.inr (Or.inl ?_))
      rw [shut, Option.getD_none, Ret.shut, Op.isClose_of_single hs, Bool.or_false] at h
      exact of_decide_eq_true h
    · cases (Op.isClose_of_single hs).symm.trans h
  | closeAgain hclosed => exact Or.inr (Or.inl hclosed)
  | closeStore => exact Or.inr (Or.inr (Or.inr rfl))
  | serveStopBlock hstop hblock | serveEmptyBlock hqueue hblock | servePutBackBlock hblock =>
    exact Or.inl (hblocks (isSend_single hok.2.1) hblock)
  | meetEmptySend hqueue hop hblock => exact Or.inl (hblocks hok hblock)
  | emptyOpen hopen hblock => exact Or.inl (hblocks hok.1 hblock)
  | unlockRet => exact Or.inl h
  | closeSendEmpty | closeRecvEmpty | closeClaimSend | closeClaimRing | closeClaimMeet | closeDrop
  | closeIn | closeHit | closeMiss | closeSettle | closeWake => exact Or.inl rfl
  | _ => cases h

/-- A place that knows the channel open has learnt it from the place before or from the flag. -/
theorem Pc.opens_of_flow (hok : pc.Ok (K.chan c) id op) (hflow : Pc.Flow K m id c op alt pc e pc')
    (h : pc'.opens op = true) : pc.opens op = true ∨ (m.chan c).closed = false := by
  have hnot : op.isSend = false → op.isSend = true → pc.opens op = true := by
    intro hf ht
    cases hf.symm.trans ht
  have hserve : ∀ {k : ServeEnd} {st st' : ServePc α}, (serve k st').opens op = true →
      (serve k st).opens op = true := by
    intro k st st' h
    cases k with
    | leave r => cases h
    | block => rfl
  cases hflow with
  | slowMeet hfree hop hcap => exact Or.inl (hnot hop h)
  | slowBuffered hfree hop hcap => exact Or.inl (hnot hop h)
  | slowOpenMeet hopen hcap => exact Or.inr hopen
  | slowOpenRing hopen hcap => exact Or.inr hopen
  | slowIn hp => exact Or.inl h
  | slowSendMiss hp hres hop => exact Or.inl hop
  | slowRecvMiss hp hres hop => exact Or.inl (hnot hop h)
  | meetEmptySend hqueue hop hblock => exact Or.inl hop
  | meetDrop hqueue hclaim => exact Or.inl h
  | emptyOpen hopen hblock => exact Or.inr hopen
  | expBackRecv hback hmem hop => exact Or.inl (hnot hop h)
  | backOpenSend hopen hop => exact Or.inr hopen
  | backOpenRecv hopen hop => exact Or.inr hopen
  | backIn hp => exact Or.inl h
  | backMissSend hp hres hop => exact Or.inl hop
  | serveFirst | serveGo | serveClaim | serveDrop | serveIn | serveHit | serveMiss | serveSettle
  | serveWake => exact Or.inl (hserve h)
  | serveStopBlock hstop hblock => exact Or.inl rfl
  | serveEmptyBlock hqueue hblock => exact Or.inl rfl
  | servePutBackBlock hblock => exact Or.inl rfl
  | _ => cases h

end Places

section Select

variable [DecidableEq C] {K : Config T C} {m : Mem T C α} {t : T} {id : Nat}
  {cases : List (Case C α)} {timeout : Int} {alt : Bool} {pc pc' : SelPc C α} {c d : C}
  {e : Effect α}

omit [DecidableEq C] in
theorem CaseAt.eq {i : Nat} {k : Case C α} (h : CaseAt cases i d) (hk : cases[i]? = some k) :
    d = k.chan := by
  obtain ⟨k', hk', rfl⟩ := h
  rw [Option.some.inj (hk.symm.trans hk')]

omit [DecidableEq C] in
theorem SendAt.eq {i : Nat} {k : Case C α} (h : SendAt cases i d) (hk : cases[i]? = some k) :
    d = k.chan ∧ k.op = .send := by
  obtain ⟨k', hk', hop, rfl⟩ := h
  obtain rfl := Option.some.inj (hk.symm.trans hk')
  exact ⟨rfl, hop⟩

/-- What a select knows open it holds locked. -/
theorem SelPc.held_of_opens (h : pc.Opens cases d) : d ∈ pc.held K cases := by
  have hlocks : ∀ {j}, SendAt cases j d → d ∈ SelPc.locks K cases := by
    rintro j ⟨k, hk, -, rfl⟩
    exact SelPc.mem_locks hk
  cases pc with
  | ready i rdy st =>
    cases st with
    | closed =>
      obtain ⟨j, -, hj⟩ := h
      exact hlocks hj
    | first =>
      rcases h with h | ⟨j, -, hj⟩
      · exact hlocks h
      · exact hlocks hj
    | second a =>
      rcases h with h | ⟨j, -, hj⟩
      · exact hlocks h
      · exact hlocks hj
  | pick rdy =>
    obtain ⟨j, -, hj⟩ := h
    exact hlocks hj
  | exec i st => exact hlocks h
  | _ => exact h.elim

/-- A place that knows a channel closed has learnt it from the place before, from the flag or from the
result of a stub, or it is the result of a receive that found it closed. -/
theorem SelPc.shut_of_flow (hflow : SelPc.Flow K m t id cases timeout alt pc c e pc')
    (h : pc'.Shut cases d) : pc.Shut cases d ∨ (m.chan d).closed = true ∨
      ∃ i, CaseAt cases i d ∧ (m.waiter ⟨id, i⟩).result = .closed := by
  have hstep1 : Step1 cases pc' → ¬ pc'.Shut cases d := by
    rintro (_ | _) <;> exact not_false
  have hstep2 : ∀ {start}, Step2 K cases start pc' → ¬ pc'.Shut cases d := by
    rintro _ (_ | _) <;> exact not_false
  have hpasses : ∀ {rdy}, Passes K cases timeout rdy pc' → ¬ pc'.Shut cases d := by
    rintro _ (_ | _ | _ | _ | _) <;> exact not_false
  cases hflow with
  | fast1Skip hk hst => exact absurd h (hstep1 hst)
  | fast2Start hst | fast2Skip hk hcnt hst | fast2Miss hk hp hres hst => exact absurd h (hstep2 hst)
  | pass hpass | readyNot hk hpass | readySend hk hop hopen hpass | readyShut hk hop hclosed hpass
  | readyYes hk hst hpass => exact absurd h (hpasses hpass)
  | fast1Shut hk hclosed =>
    rw [CaseAt.eq h hk]
    exact Or.inr (Or.inl hclosed)
  | fast1Send hk hcnt | fast1Recv hk hcnt | fast1Tail hk | fast1Head hk hempty => exact Or.inl h
  | fast2Shut hk hclosed =>
    rw [CaseAt.eq h hk]
    exact Or.inr (Or.inl hclosed)
  | execDone hk hexec =>
    cases hexec with
    | shut hclosed =>
      rw [CaseAt.eq h hk]
      exact Or.inr (Or.inl hclosed)
    | _ => exact h.elim
  | @unlock c cs k =>
    cases k with
    | ret r => exact Or.inl h
    | park => exact h.elim
  | unlockedRet => exact Or.inl h
  | @cleaned i d' woken winner hi =>
    cases winner with
    | none => exact h.elim
    | some j =>
      cases woken with
      | false => exact h.elim
      | true =>
        have h : (Ret.sel (some j) (m.waiter ⟨id, j⟩).result).ShutCase cases d := h
        cases hres : (m.waiter ⟨id, j⟩).result with
        | closed =>
          rw [hres] at h
          exact Or.inr (Or.inr ⟨j, h, hres⟩)
        | _ =>
          rw [hres] at h
          exact h.elim
  | _ => exact h.elim

omit [DecidableEq C] in
/-- The cases known to be ready after one more of them. -/
theorem SendAt.of_append {rdy : List Nat} {i : Nat} (h : ∃ j ∈ rdy ++ [i], SendAt cases j d) :
    (∃ j ∈ rdy, SendAt cases j d) ∨ SendAt cases i d := by
  obtain ⟨j, hj, hsend⟩ := h
  rcases List.mem_append.1 hj with hj | hj
  · exact Or.inl ⟨j, hj, hsend⟩
  · rw [List.mem_singleton.1 hj] at hsend
    exact Or.inr hsend

/-- A place that knows a channel open has learnt it from the place before or from the flag. -/
theorem SelPc.opens_of_flow (hok : pc.Ok K id cases)
    (hflow : SelPc.Flow K m t id cases timeout alt pc c e pc') (h : pc'.Opens cases d) :
    pc.Opens cases d ∨ (m.chan d).closed = false := by
  have hstep1 : Step1 cases pc' → ¬ pc'.Opens cases d := by
    rintro (_ | _) <;> exact not_false
  have hstep2 : ∀ {start}, Step2 K cases start pc' → ¬ pc'.Opens cases d := by
    rintro _ (_ | _) <;> exact not_false
  -- the next test of a receive adds nothing
  have hpasses : ∀ {rdy}, Passes K cases timeout rdy pc' → ∃ j ∈ rdy, SendAt cases j d := by
    intro rdy hpass
    cases hpass with
    | closed => exact h
    | first hk hop =>
      rcases h with h | h
      · cases hop.symm.trans (SendAt.eq h hk).2
      · exact h
    | pick => exact h
    | now => exact h.elim
    | wait => exact h.elim
  cases hflow with
  | fast1Skip hk hst => exact absurd h (hstep1 hst)
  | fast2Start hst | fast2Skip hk hcnt hst | fast2Miss hk hp hres hst => exact absurd h (hstep2 hst)
  | pass hpass =>
    obtain ⟨j, hj, -⟩ := hpasses hpass
    cases hj
  | readyOpen hk hop hopen hcap =>
    rcases h with h | h
    · rw [(SendAt.eq h hk).1]
      exact Or.inr hopen
    · exact Or.inl h
  | readyFirst hk hcap => exact Or.inl h
  | readyEmpty hk hop => exact Or.inl (Or.inr h)
  | @readyNot i rdy k st pc' hk hpass =>
    refine Or.inl ?_
    cases st with
    | closed => exact hpasses hpass
    | first => exact Or.inr (hpasses hpass)
    | second a => exact Or.inr (hpasses hpass)
  | readySend hk hop hopen hpass =>
    rcases SendAt.of_append (hpasses hpass) with h | h
    · exact Or.inl h
    · rw [(SendAt.eq h hk).1]
      exact Or.inr hopen
  | readyShut hk hop hclosed hpass =>
    rcases SendAt.of_append (hpasses hpass) with h | h
    · exact Or.inl h
    · cases hop.symm.trans (SendAt.eq h hk).2
  | readyYes hk hst hpass =>
    refine Or.inl ?_
    have hcases := SendAt.of_append (hpasses hpass)
    rcases hst with rfl | ⟨a, rfl⟩
    · exact hcases.symm
    · exact hcases.symm
  | pick hk hmem he hst => exact Or.inl ⟨_, hmem hok.1, h⟩
  | execGo hk hexec => exact Or.inl h
  | _ => exact h.elim

end Select

/-! ## Steps -/

section Step

variable [DecidableEq T] [DecidableEq C] {K : Config T C} {s s' : Sys T C α} {l : Label T C α}
  {t : T} {alt : Bool} {c d : C} {e : Effect α} {th : Thread C α}

theorem Sys.closed_move : ((s.move K t c e th).mem.chan d).closed = true ↔
    (s.mem.chan d).closed = true ∨ d = c ∧ e = .setClosed := by
  by_cases hd : d = c
  · subst hd
    rw [Sys.move, Mem.chan_apply_self]
    cases e with
    | setClosed => exact iff_of_true rfl (Or.inr ⟨rfl, rfl⟩)
    | _ => exact ⟨Or.inl, fun h => h.resolve_right (by rintro ⟨-, ⟨⟩⟩)⟩
  · rw [Sys.move, Mem.chan_apply_of_ne K s.mem t c e hd]
    exact ⟨Or.inl, fun h => h.resolve_right fun h => hd h.1⟩

/-- A closed channel stays closed. -/
theorem Sys.Stepped.closed_mono (h : s.Stepped K l s') (hd : (s.mem.chan d).closed = true) :
    (s'.mem.chan d).closed = true := by
  cases h with
  | call hidle => exact hd
  | ret hdone hret => exact hd
  | move hnext hacts => exact Sys.closed_move.2 (Or.inl hd)

omit [DecidableEq T] in
/-- A channel is closed by a thread that holds its lock. -/
theorem Sys.Acts.holds_of_setClosed (hacts : s.Acts K t alt c .setClosed th) :
    c ∈ (s.thread t).holds K := by
  cases hacts with
  | direct hth hact =>
    cases Pc.flow_of_act hact
    rw [hth]
    exact List.mem_singleton.2 rfl
  | select hth hact =>
    cases SelPc.flow_of_act hact with
    | pick _ _ he => rcases he with he | ⟨v, he⟩ <;> cases he
    | execGo hk hexec => cases hexec
    | execDone hk hexec => cases hexec

omit [DecidableEq T] in
/-- A waiter gets the result `CHAN_ERR_CLOSED` from a direct call on a closed channel. -/
theorem ClosedInv.closed_of_settle (h : ClosedInv s) {w : Wid}
    (hacts : s.Acts K t alt c (.settle w .closed) th) :
    (s.mem.chan c).closed = true ∧ (s.thread t).isSelect = false := by
  have hP := h.running t
  cases hacts with
  | direct hth hact =>
    rw [hth] at hP ⊢
    cases Pc.flow_of_act hact with
    | backSettle => exact ⟨hP.1 rfl, rfl⟩
    | closeSettle => exact ⟨hP.1 rfl, rfl⟩
  | select hth hact =>
    cases SelPc.flow_of_act hact with
    | pick _ _ he => rcases he with he | ⟨v, he⟩ <;> cases he
    | execGo hk hexec => cases hexec
    | execDone hk hexec => cases hexec

/-- A waiter that has the result `CHAN_ERR_CLOSED` after a step had it before, or its channel is
closed. -/
theorem ClosedInv.result_closed (h : ClosedInv s) {w : Wid}
    (hnext : (s.thread t).Next K s.mem c th e) (hacts : s.Acts K t alt c e th)
    (hres : ((s.move K t c e th).mem.waiter w).result = .closed) :
    (s.mem.waiter w).result = .closed ∨
      ((s.mem.chan c).closed = true ∧ (s.thread t).isSelect = false) ∧
      ((s.thread t).id? = some w.call ∨ ∃ o, (s.thread t).hand = some (w, .claimed c o)) := by
  rw [Sys.result_move] at hres
  cases e with
  | enroll o v =>
    rw [Effect.resultAfter] at hres
    split at hres
    · cases hres
    · exact Or.inl hres
  | stub o v =>
    rw [Effect.resultAfter] at hres
    split at hres
    · cases hres
    · exact Or.inl hres
  | pair a b v x =>
    rw [Effect.resultAfter] at hres
    split at hres
    · cases hres
    · exact Or.inl hres
  | settle v r =>
    rw [Effect.resultAfter] at hres
    split at hres
    · next heq =>
      subst heq hres
      refine Or.inr ⟨h.closed_of_settle hacts, ?_⟩
      cases hnext.move with
      | quiet he => exact he.elim
      | self _ _ _ _ hown => exact Or.inl hown
      | enter he => rcases he with ⟨he | he, -⟩ | ⟨he, -⟩ <;> cases he
      | settle he _ _ hhand =>
        rcases he with ⟨r, he⟩ | ⟨a, b, x, he⟩
        · cases he
          exact Or.inr ⟨_, hhand⟩
        · cases he
    · exact Or.inl hres
  | _ => exact Or.inl hres

/-- A channel that another thread holds locked is not closed by a step. -/
theorem Sys.open_move (hl : LockInv K s) {u : T} (hu : u ≠ t) (hheld : d ∈ (s.thread u).holds K)
    (hacts : s.Acts K t alt c e th) (hopen : (s.mem.chan d).closed = false) :
    ((s.move K t c e th).mem.chan d).closed = false := by
  refine Bool.eq_false_iff.2 fun hclosed => ?_
  rcases Sys.closed_move.1 hclosed with hclosed | ⟨rfl, rfl⟩
  · cases hopen.symm.trans hclosed
  · exact hu (hl.holds_inj hheld hacts.holds_of_setClosed)

/-- What a thread knows is right after a step of its own. -/
theorem ClosedInv.own (h : ClosedInv s) (hs : Sound K s) (hnext : (s.thread t).Next K s.mem c th e)
    (hacts : s.Acts K t alt c e th) : th.Knows (s.move K t c e th) := by
  have hP := h.running t
  have hclosed : ∀ {d}, (s.mem.chan d).closed = true →
      ((s.move K t c e th).mem.chan d).closed = true := fun h => Sys.closed_move.2 (Or.inl h)
  have hown := fun w => h.result_closed (w := w) hnext hacts
  cases hacts with
  | @direct id c op pc pc' e hth hact =>
    have hok := hs.direct_ok hth
    have hflow := Pc.flow_of_act hact
    rw [hth] at hP
    refine ⟨fun hshut => ?_, fun hopens => ?_, fun hres => ?_⟩
    · rcases Pc.shut_of_flow hok hflow hshut with h | h | h | rfl
      · exact hclosed (hP.1 h)
      · exact hclosed h
      · exact hclosed (hP.2.2 h)
      · exact Sys.closed_move.2 (Or.inr ⟨rfl, rfl⟩)
    · have hopen : (s.mem.chan c).closed = false :=
        (Pc.opens_of_flow hok hflow hopens).elim hP.2.1 fun h => h
      refine Bool.eq_false_iff.2 fun h => ?_
      rcases Sys.closed_move.1 h with h | ⟨-, rfl⟩
      · cases hopen.symm.trans h
      · cases hflow
        cases hopens
    · rcases hown ⟨id, 0⟩ hres with h | ⟨⟨h, -⟩, -⟩
      · exact hclosed (hP.2.2 h)
      · exact hclosed h
  | @select id cases timeout pc pc' c d e hth hact =>
    have hok := hs.select_ok hth
    have hflow := SelPc.flow_of_act hact
    rw [hth] at hP
    refine ⟨fun d hshut => ?_, fun d hopens => ?_, fun i d hd hres => ?_⟩
    · rcases SelPc.shut_of_flow hflow hshut with h | h | ⟨i, hi, h⟩
      · exact hclosed (hP.1 d h)
      · exact hclosed h
      · exact hclosed (hP.2.2 i d hi h)
    · have hopen : (s.mem.chan d).closed = false :=
        (SelPc.opens_of_flow hok hflow hopens).elim (hP.2.1 d) fun h => h
      refine Bool.eq_false_iff.2 fun h => ?_
      rcases Sys.closed_move.1 h with h | ⟨-, rfl⟩
      · cases hopen.symm.trans h
      · cases hflow with
        | pick _ _ he => rcases he with he | ⟨v, he⟩ <;> cases he
        | execGo hk hexec => cases hexec
        | execDone hk hexec => cases hexec
    · rcases hown ⟨id, i⟩ hres with h | ⟨⟨-, hsel⟩, -⟩
      · exact hclosed (hP.2.2 i d hd h)
      · -- a select gives no such result
        rw [hth] at hsel
        cases hsel

/-- What a thread knows is right after a step of another thread. -/
theorem ClosedInv.other (h : ClosedInv s) (hs : Sound K s) {u : T} (hu : u ≠ t)
    (hnext : (s.thread t).Next K s.mem c th e) (hacts : s.Acts K t alt c e th) :
    (s.thread u).Knows (s.move K t c e th) := by
  have hP := h.running u
  have hclosed : ∀ {d}, (s.mem.chan d).closed = true →
      ((s.move K t c e th).mem.chan d).closed = true := fun h => Sys.closed_move.2 (Or.inl h)
  -- the waiter in the hands of the one who closes the channel
  have hresult : ∀ {w d} (hw : ∀ d' o, (s.thread u).Waits d' o w → d' = d),
      (s.thread u).id? = some w.call →
      ((s.mem.waiter w).result = .closed → (s.mem.chan d).closed = true) →
      ((s.move K t c e th).mem.waiter w).result = .closed →
      ((s.move K t c e th).mem.chan d).closed = true := by
    intro w d hw hid hold hres
    rcases h.result_closed hnext hacts hres with hres | ⟨⟨hc, -⟩, hown | ⟨o, hhand⟩⟩
    · exact hclosed (hold hres)
    · exact absurd (hs.calls.id_inj u t _ hid hown) hu
    · have hwaits := Sys.waits_of_owned hs.calls (hs.queues.claimed t w c o hhand).1 hid
      rw [← hw c o hwaits]
      exact hclosed hc
  cases hth : s.thread u with
  | idle => trivial
  | direct id d op pc =>
    rw [hth] at hP hresult
    refine ⟨fun hshut => hclosed (hP.1 hshut), fun hopens => ?_, ?_⟩
    · have hheld : d ∈ (s.thread u).holds K := Sys.held_of_locked hth (Pc.locked_of_opens hopens)
      exact Sys.open_move hs.locks hu hheld hacts (hP.2.1 hopens)
    · exact hresult (fun d' o hw => hw.1) rfl hP.2.2
  | select id cases timeout pc =>
    rw [hth] at hP hresult
    refine ⟨fun d hshut => hclosed (hP.1 d hshut), fun d hopens => ?_, fun i d hd => ?_⟩
    · refine Sys.open_move hs.locks hu ?_ hacts (hP.2.1 d hopens)
      rw [hth]
      exact SelPc.held_of_opens hopens
    · refine hresult ?_ rfl (hP.2.2 i d hd)
      rintro d' o ⟨-, -, k, hk, rfl, -⟩
      exact (CaseAt.eq hd hk).symm

omit [DecidableEq T] [DecidableEq C] in
theorem ClosedInv.init (slots : C → U32 → α) : ClosedInv (Sys.init slots : Sys T C α) :=
  Sys.Each.init slots trivial

/-- What threads know and calls report about the closed flags stays right. -/
theorem ClosedInv.step (h : ClosedInv s) (hs : Sound K s) (hstep : s.Stepped K l s') :
    ClosedInv s' := by
  refine Sys.Each.step h hs.hist hstep trivial ?_ ?_ ?_ ?_ ?_
  · rintro t k - rfl
    cases k with
    | direct c op =>
      have hbegins := Pc.begins_entry (K.chan c) s.next op
      have hres : ((s.startCall K t (.direct c op)).mem.waiter ⟨s.next, 0⟩).result = .ok := by
        simp only [Sys.startCall, if_true]
        cases op <;> rfl
      simp only [Sys.startThread]
      revert hbegins
      generalize Pc.entry (K.chan c) s.next op = pc
      intro hbegins
      refine ⟨fun h => ?_, fun h => ?_, fun h => by cases hres.symm.trans h⟩
      · cases hbegins <;> cases h
      · cases hbegins <;> cases h
    | select cases timeout =>
      have hres : ∀ i, ((s.startCall K t (.select cases timeout)).mem.waiter
          ⟨s.next, i⟩).result = .wouldblock := fun i => by
        simp only [Sys.startCall, if_true, Sys.startWaiter]
      have hbegins := SelPc.begins_entry cases
      simp only [Sys.startThread]
      revert hbegins
      generalize SelPc.entry cases = pc
      intro hbegins
      refine ⟨fun d h => ?_, fun d h => ?_, fun i d hd h => by cases (hres i).symm.trans h⟩
      · rcases hbegins with _ | (_ | _) <;> exact h.elim
      · rcases hbegins with _ | (_ | _) <;> exact h.elim
  · rintro t alt c e th - hnext hacts rfl -
    exact h.own hs hnext hacts
  · intro u hu hP
    cases hstep with
    | @call t k hidle =>
      cases hth : s.thread u with
      | idle => trivial
      | direct id c op pc =>
        rw [hth] at hP
        have hne : id ≠ s.next := Nat.ne_of_lt (hs.calls.id_lt u id (by rw [hth]; rfl))
        refine ⟨hP.1, hP.2.1, fun h => hP.2.2 ?_⟩
        simpa only [Sys.startCall, if_neg hne] using h
      | select id cases timeout pc =>
        rw [hth] at hP
        have hne : id ≠ s.next := Nat.ne_of_lt (hs.calls.id_lt u id (by rw [hth]; rfl))
        refine ⟨hP.1, hP.2.1, fun i d hd h => hP.2.2 i d hd ?_⟩
        simpa only [Sys.startCall, if_neg hne] using h
    | ret hdone hret => exact hP
    | move hnext hacts => exact h.other hs hu hnext hacts
  · rintro t id k r out hret hcall rfl hP
    cases hret with
    | direct hth =>
      rw [hth] at hcall hP
      cases hcall
      exact hP.1
    | select hth =>
      rw [hth] at hcall hP
      cases hcall
      exact hP.1
  · intro id k r out hans hR
    cases k with
    | direct c op => exact fun h => hstep.closed_mono (hR h)
    | select cases timeout => exact fun d h => hstep.closed_mono (hR d h)

end Step

end LibChan
