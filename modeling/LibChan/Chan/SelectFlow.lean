import LibChan.Chan.Flow
import LibChan.Chan.Select

/-!
# The flow graph of select

The edges from one place of a select to the next, as in `Pc.Flow`. The scans of the source between
two places that touch shared memory are one edge each.
-/

set_option autoImplicit false

namespace LibChan

variable {T C α : Type}

/-- The ends of the scan of `chan_select_fast` for a receive case. -/
inductive SelPc.Step1 (cases : List (Case C α)) : SelPc C α → Prop
  | found {i : Nat} {k : Case C α} (hk : cases[i]? = some k) (hop : k.op = .recv) :
      Step1 cases (.fast1 i .closed)
  | ended : Step1 cases .fast2Start

/-- The first places of a select. -/
inductive SelPc.Begins (cases : List (Case C α)) : SelPc C α → Prop
  | invalid (h : cases.length = 0) : Begins cases (.ret (.sel none .invalid))
  | scan {pc : SelPc C α} (hstep : Step1 cases pc) : Begins cases pc

/-- The ends of the scan of `chan_select_fast` for a case on a buffered channel. -/
inductive SelPc.Step2 [DecidableEq C] (K : Config T C) (cases : List (Case C α)) (start : Nat) :
    SelPc C α → Prop
  | found {j : Nat} {k : Case C α} (hk : cases[index2 cases start j]? = some k)
      (hcap : 0 < (K.chan k.chan).capacity) : Step2 K cases start (.fast2 start j (.cnt .send))
  | ended : Step2 K cases start (lock K cases .ready)

/-- The places after `case_ready` of one case. -/
inductive SelPc.Passes [DecidableEq C] (K : Config T C) (cases : List (Case C α)) (timeout : Int)
    (rdy : List Nat) : SelPc C α → Prop
  | closed {i : Nat} {k : Case C α} (hk : cases[i]? = some k) :
      Passes K cases timeout rdy (.ready i rdy .closed)
  | first {i : Nat} {k : Case C α} (hk : cases[i]? = some k) (hop : k.op = .recv) :
      Passes K cases timeout rdy (.ready i rdy .first)
  | pick (hrdy : rdy ≠ []) : Passes K cases timeout rdy (.pick rdy)
  | now (hrdy : rdy = []) (htime : timeout = 0) :
      Passes K cases timeout rdy (unlock K cases (.ret (.sel none .wouldblock)))
  | wait (hrdy : rdy = []) (htime : timeout ≠ 0) : Passes K cases timeout rdy (.stub 0)

/-- The edges of `execute_case_locked`: to another place of it, or to its end with a result. -/
inductive SelPc.ExecFlow (K : Config T C) (m : Mem T C α) (k : Case C α) (w : Wid) (alt : Bool) :
    ExecPc α → Effect α → ExecPc α ⊕ ChanErr → Prop
  | first : ExecFlow K m k w alt .first .none (.inl (.second (probeFirst (m.chan k.chan).ring .recv)))
  | stop {a : U32}
      (hstop : probeStops (K.chan k.chan).ringCap a (probeSecond (m.chan k.chan).ring .recv) .recv =
        true) : ExecFlow K m k w alt (.second a) .none (.inl .meetClaim)
  | go {a : U32}
      (hgo : probeStops (K.chan k.chan).ringCap a (probeSecond (m.chan k.chan).ring .recv) .recv =
        false) : ExecFlow K m k w alt (.second a) .none (.inl (.ring (.loadHead (k.ringOp w))))
  | emptySendMeet (hqueue : (m.chan k.chan).queue k.op.other = []) (hop : k.op = .send)
      (hcap : (K.chan k.chan).capacity = 0) :
      ExecFlow K m k w alt .meetClaim .none (.inr .wouldblock)
  | emptySendRing (hqueue : (m.chan k.chan).queue k.op.other = []) (hop : k.op = .send)
      (hcap : (K.chan k.chan).capacity ≠ 0) :
      ExecFlow K m k w alt .meetClaim .none (.inl (.ring (.loadHead (k.ringOp w))))
  | emptyRecv (hqueue : (m.chan k.chan).queue k.op.other = []) (hop : k.op = .recv) :
      ExecFlow K m k w alt .meetClaim .none (.inl .closed)
  | claim {w' : Wid} {q : List Wid} (hqueue : (m.chan k.chan).queue k.op.other = w' :: q)
      (hclaim : m.claimable w' = true) :
      ExecFlow K m k w alt .meetClaim (.claim k.op.other w') (.inl (.meetCopy w'))
  | drop {w' : Wid} {q : List Wid} (hqueue : (m.chan k.chan).queue k.op.other = w' :: q)
      (hclaim : m.claimable w' = false) :
      ExecFlow K m k w alt .meetClaim (.drop k.op.other) (.inl .meetClaim)
  | copySend {w' : Wid} {x : α} (hx : k.elem = some x) :
      ExecFlow K m k w alt (.meetCopy w') (.pair w w' w' x) (.inl (.wake w'))
  | copyRecv {w' : Wid} {x : α} (hk : k.elem = none) (hx : (m.waiter w').data = some x) :
      ExecFlow K m k w alt (.meetCopy w') (.pair w' w w' x) (.inl (.wake w'))
  | ringIn {p p' : RingPc Wid α} (hp : m.access K k.chan alt p = .inl p') :
      ExecFlow K m k w alt (.ring p) (.ring alt p) (.inl (.ring p'))
  | ringOut {p : RingPc Wid α} {res : RingRes α} (hp : m.access K k.chan alt p = .inr res) :
      ExecFlow K m k w alt (.ring p) (.ring alt p) (.inl .helpClaim)
  | helpEmpty (hqueue : (m.chan k.chan).queue k.op.other = []) :
      ExecFlow K m k w alt .helpClaim .none (.inr .ok)
  | helpSend {w' : Wid} {q : List Wid} (hop : k.op = .send)
      (hqueue : (m.chan k.chan).queue .recv = w' :: q) (hclaim : m.claimable w' = true) :
      ExecFlow K m k w alt .helpClaim (.claim .recv w') (.inl (.helpSettle w'))
  | helpRecv {w' : Wid} {q : List Wid} {rop : RingOp Wid α} (hop : k.op = .recv)
      (hqueue : (m.chan k.chan).queue .send = w' :: q) (hclaim : m.claimable w' = true)
      (hrop : serveOp m w' .send = some rop) :
      ExecFlow K m k w alt .helpClaim (.claim .send w') (.inl (.helpRing w' (.loadHead rop)))
  | helpDrop {w' : Wid} {q : List Wid} (hqueue : (m.chan k.chan).queue k.op.other = w' :: q)
      (hclaim : m.claimable w' = false) :
      ExecFlow K m k w alt .helpClaim (.drop k.op.other) (.inl .helpClaim)
  | helpIn {w' : Wid} {p p' : RingPc Wid α} (hp : m.access K k.chan alt p = .inl p') :
      ExecFlow K m k w alt (.helpRing w' p) (.ring alt p) (.inl (.helpRing w' p'))
  | helpOut {w' : Wid} {p : RingPc Wid α} {res : RingRes α}
      (hp : m.access K k.chan alt p = .inr res) :
      ExecFlow K m k w alt (.helpRing w' p) (.ring alt p) (.inl (.helpSettle w'))
  | settle {w' : Wid} : ExecFlow K m k w alt (.helpSettle w') (.settle w' .ok) (.inl (.wake w'))
  | wake {w' : Wid} : ExecFlow K m k w alt (.wake w') (.wake w') (.inr .ok)
  | shut (hclosed : (m.chan k.chan).closed = true) :
      ExecFlow K m k w alt .closed .none (.inr .closed)
  | notShut (hopen : (m.chan k.chan).closed = false) :
      ExecFlow K m k w alt .closed .none (.inr .wouldblock)

open SelPc in
/-- The edges between the places of a select, with the channel the step touches. -/
inductive SelPc.Flow [DecidableEq C] (K : Config T C) (m : Mem T C α) (t : T) (id : Nat)
    (cases : List (Case C α)) (timeout : Int) (alt : Bool) :
    SelPc C α → C → Effect α → SelPc C α → Prop
  | fast1Shut {i : Nat} {k : Case C α} (hk : cases[i]? = some k)
      (hclosed : (m.chan k.chan).closed = true) :
      Flow K m t id cases timeout alt (fast1 i .closed) k.chan .none (fast1 i (.cnt .send))
  | fast1Send {i : Nat} {k : Case C α} (hk : cases[i]? = some k)
      (hcnt : (m.chan k.chan).cnt .send = 0) :
      Flow K m t id cases timeout alt (fast1 i (.cnt .send)) k.chan .none (fast1 i (.cnt .recv))
  | fast1Recv {i : Nat} {k : Case C α} (hk : cases[i]? = some k)
      (hcnt : (m.chan k.chan).cnt .recv = 0) :
      Flow K m t id cases timeout alt (fast1 i (.cnt .recv)) k.chan .none (fast1 i .tail)
  | fast1Tail {i : Nat} {k : Case C α} (hk : cases[i]? = some k) :
      Flow K m t id cases timeout alt (fast1 i .tail) k.chan .none
        (fast1 i (.head ((m.chan k.chan).ring.cur .send).tail))
  | fast1Head {i : Nat} {k : Case C α} {pt : U32} (hk : cases[i]? = some k)
      (hempty : pt = ((m.chan k.chan).ring.cur .recv).head) :
      Flow K m t id cases timeout alt (fast1 i (.head pt)) k.chan .none (ret (.sel (some i) .closed))
  | fast1Skip {i : Nat} {k : Case C α} {st : Fast1Pc} {pc' : SelPc C α} (hk : cases[i]? = some k)
      (hstep : Step1 cases pc') :
      Flow K m t id cases timeout alt (fast1 i st) k.chan .none pc'
  | fast2Start {d : C} {start : Nat} {pc' : SelPc C α} (hstep : Step2 K cases start pc') :
      Flow K m t id cases timeout alt fast2Start d .bumpRr pc'
  | fast2Skip {start j : Nat} {o : ChanOp} {k : Case C α} {pc' : SelPc C α}
      (hk : cases[index2 cases start j]? = some k) (hcnt : (m.chan k.chan).cnt o ≠ 0)
      (hstep : Step2 K cases start pc') :
      Flow K m t id cases timeout alt (fast2 start j (.cnt o)) k.chan .none pc'
  | fast2Send {start j : Nat} {k : Case C α} (hk : cases[index2 cases start j]? = some k)
      (hcnt : (m.chan k.chan).cnt .send = 0) :
      Flow K m t id cases timeout alt (fast2 start j (.cnt .send)) k.chan .none
        (fast2 start j (.cnt .recv))
  | fast2Closed {start j : Nat} {k : Case C α} (hk : cases[index2 cases start j]? = some k)
      (hcnt : (m.chan k.chan).cnt .recv = 0) (hop : k.op = .send) :
      Flow K m t id cases timeout alt (fast2 start j (.cnt .recv)) k.chan .none
        (fast2 start j .closed)
  | fast2Recv {start j : Nat} {k : Case C α} (hk : cases[index2 cases start j]? = some k)
      (hcnt : (m.chan k.chan).cnt .recv = 0) (hop : k.op = .recv) :
      Flow K m t id cases timeout alt (fast2 start j (.cnt .recv)) k.chan .none
        (fast2 start j (.ring (.loadHead (k.ringOp ⟨id, index2 cases start j⟩))))
  | fast2Shut {start j : Nat} {k : Case C α} (hk : cases[index2 cases start j]? = some k)
      (hclosed : (m.chan k.chan).closed = true) :
      Flow K m t id cases timeout alt (fast2 start j .closed) k.chan .none
        (ret (.sel (some (index2 cases start j)) .closed))
  | fast2Open {start j : Nat} {k : Case C α} (hk : cases[index2 cases start j]? = some k)
      (hopen : (m.chan k.chan).closed = false) :
      Flow K m t id cases timeout alt (fast2 start j .closed) k.chan .none
        (fast2 start j (.ring (.loadHead (k.ringOp ⟨id, index2 cases start j⟩))))
  | fast2In {start j : Nat} {k : Case C α} {p p' : RingPc Wid α}
      (hk : cases[index2 cases start j]? = some k) (hp : m.access K k.chan alt p = .inl p') :
      Flow K m t id cases timeout alt (fast2 start j (.ring p)) k.chan (.ring alt p)
        (fast2 start j (.ring p'))
  | fast2Hit {start j : Nat} {k : Case C α} {p : RingPc Wid α} {res : RingRes α}
      (hk : cases[index2 cases start j]? = some k) (hp : m.access K k.chan alt p = .inr res)
      (hres : res.moved ≠ 0) :
      Flow K m t id cases timeout alt (fast2 start j (.ring p)) k.chan (.ring alt p)
        (ret (.sel (some (index2 cases start j)) .ok))
  | fast2Miss {start j : Nat} {k : Case C α} {p : RingPc Wid α} {res : RingRes α}
      {pc' : SelPc C α} (hk : cases[index2 cases start j]? = some k)
      (hp : m.access K k.chan alt p = .inr res) (hres : res.moved = 0)
      (hstep : Step2 K cases start pc') :
      Flow K m t id cases timeout alt (fast2 start j (.ring p)) k.chan (.ring alt p) pc'
  | lock {c : C} {cs : List C} {k : LockNext} (hfree : (m.chan c).lock = none) :
      Flow K m t id cases timeout alt (lockAll (c :: cs) k) c .lock (lockAll cs k)
  | pass {d : C} {pc' : SelPc C α} (hpass : Passes K cases timeout [] pc') :
      Flow K m t id cases timeout alt (lockAll [] .ready) d .none pc'
  | clean {d : C} {woken : Bool} :
      Flow K m t id cases timeout alt (lockAll [] (.clean woken)) d .none (clean 0 woken none)
  | readyOpen {i : Nat} {rdy : List Nat} {k : Case C α} (hk : cases[i]? = some k)
      (hop : k.op = .send) (hopen : (m.chan k.chan).closed = false)
      (hcap : (K.chan k.chan).capacity ≠ 0) :
      Flow K m t id cases timeout alt (ready i rdy .closed) k.chan .none (ready i rdy .first)
  | readyFirst {i : Nat} {rdy : List Nat} {k : Case C α} (hk : cases[i]? = some k)
      (hcap : (K.chan k.chan).capacity ≠ 0) :
      Flow K m t id cases timeout alt (ready i rdy .first) k.chan .none
        (ready i rdy (.second (probeFirst (m.chan k.chan).ring k.op)))
  | readyEmpty {i : Nat} {rdy : List Nat} {k : Case C α} {a : U32} (hk : cases[i]? = some k)
      (hop : k.op = .recv) :
      Flow K m t id cases timeout alt (ready i rdy (.second a)) k.chan .none (ready i rdy .closed)
  | readyNot {i : Nat} {rdy : List Nat} {k : Case C α} {st : ReadyPc} {pc' : SelPc C α}
      (hk : cases[i]? = some k) (hpass : Passes K cases timeout rdy pc') :
      Flow K m t id cases timeout alt (ready i rdy st) k.chan .none pc'
  | readySend {i : Nat} {rdy : List Nat} {k : Case C α} {pc' : SelPc C α}
      (hk : cases[i]? = some k) (hop : k.op = .send) (hopen : (m.chan k.chan).closed = false)
      (hpass : Passes K cases timeout (rdy ++ [i]) pc') :
      Flow K m t id cases timeout alt (ready i rdy .closed) k.chan .none pc'
  | readyShut {i : Nat} {rdy : List Nat} {k : Case C α} {pc' : SelPc C α}
      (hk : cases[i]? = some k) (hop : k.op = .recv) (hclosed : (m.chan k.chan).closed = true)
      (hpass : Passes K cases timeout (rdy ++ [i]) pc') :
      Flow K m t id cases timeout alt (ready i rdy .closed) k.chan .none pc'
  | readyYes {i : Nat} {rdy : List Nat} {k : Case C α} {st : ReadyPc} {pc' : SelPc C α}
      (hk : cases[i]? = some k) (hst : st = .first ∨ ∃ a, st = .second a)
      (hpass : Passes K cases timeout (rdy ++ [i]) pc') :
      Flow K m t id cases timeout alt (ready i rdy st) k.chan .none pc'
  | pick {rdy : List Nat} {i : Nat} {k : Case C α} {e : Effect α} {st : ExecPc α}
      (hk : cases[i]? = some k) (hmem : rdy ≠ [] → i ∈ rdy) (he : e = .none ∨ ∃ v, e = .setRng v)
      (hst : st = execFrom K m ⟨id, i⟩ k) :
      Flow K m t id cases timeout alt (pick rdy) k.chan e (exec i st)
  | execGo {i : Nat} {k : Case C α} {st st' : ExecPc α} {e : Effect α} (hk : cases[i]? = some k)
      (hexec : ExecFlow K m k ⟨id, i⟩ alt st e (.inl st')) :
      Flow K m t id cases timeout alt (exec i st) k.chan e (exec i st')
  | execDone {i : Nat} {k : Case C α} {st : ExecPc α} {e : Effect α} {r : ChanErr}
      (hk : cases[i]? = some k) (hexec : ExecFlow K m k ⟨id, i⟩ alt st e (.inr r)) :
      Flow K m t id cases timeout alt (exec i st) k.chan e
        (unlock K cases (.ret (.sel (some i) r)))
  | stub {i : Nat} {k : Case C α} (hk : cases[i]? = some k) :
      Flow K m t id cases timeout alt (stub i) k.chan (.stub k.op ⟨id, i⟩) (stub (i + 1))
  | stubbed {i : Nat} {d : C} (hi : cases[i]? = none) :
      Flow K m t id cases timeout alt (stub i) d .none (unlock K cases .park)
  | unlock {c : C} {cs : List C} {k : UnlockNext} :
      Flow K m t id cases timeout alt (unlockAll (c :: cs) k) c .unlock (unlockAll cs k)
  | unlockedRet {d : C} {r : Ret} :
      Flow K m t id cases timeout alt (unlockAll [] (.ret r)) d .none (ret r)
  | unlockedPark {d : C} :
      Flow K m t id cases timeout alt (unlockAll [] .park) d .none park
  | parkExpire {d : C} (halt : alt = true) (htime : 0 < timeout) :
      Flow K m t id cases timeout alt park d .none (SelPc.lock K cases (.clean false))
  | parkWoken {d : C} (hsig : m.signaled id = true) :
      Flow K m t id cases timeout alt park d .none (SelPc.lock K cases (.clean true))
  | cleanWon {i : Nat} {k : Case C α} {woken : Bool} {winner : Option Nat}
      (hk : cases[i]? = some k) (hres : (m.waiter ⟨id, i⟩).result ≠ .wouldblock) :
      Flow K m t id cases timeout alt (SelPc.clean i woken winner) k.chan .none
        (SelPc.clean (i + 1) woken (some i))
  | cleanStub {i : Nat} {k : Case C α} {woken : Bool} {winner : Option Nat}
      (hk : cases[i]? = some k) (hres : (m.waiter ⟨id, i⟩).result = .wouldblock) :
      Flow K m t id cases timeout alt (SelPc.clean i woken winner) k.chan (.remove k.op ⟨id, i⟩)
        (SelPc.clean (i + 1) woken winner)
  | cleaned {i : Nat} {d : C} {woken : Bool} {winner : Option Nat} (hi : cases[i]? = none) :
      Flow K m t id cases timeout alt (SelPc.clean i woken winner) d .none
        (SelPc.unlock K cases (.ret (cleaned m id woken winner)))

section Select

variable [DecidableEq C] {K : Config T C} {m : Mem T C α} {t : T} {id : Nat}
  {cases : List (Case C α)} {timeout : Int} {alt : Bool} {pc pc' : SelPc C α} {c d : C}
  {e : Effect α} {k : Case C α} {i : Nat}

omit [DecidableEq C] in
theorem SelPc.step1_scan1 (i : Nat) : SelPc.Step1 cases (SelPc.scan1 cases i) := by
  unfold scan1
  split
  · next j hfind =>
    obtain ⟨hj, hop, -⟩ := List.findIdx?_eq_some_iff_getElem.1 hfind
    rw [List.getElem_drop, decide_eq_true_eq] at hop
    exact .found (List.getElem?_eq_getElem _) hop
  · exact .ended

omit [DecidableEq C] in
theorem SelPc.begins_entry (cases : List (Case C α)) : SelPc.Begins cases (SelPc.entry cases) := by
  unfold entry
  split
  · next h => exact .invalid h
  · exact .scan (SelPc.step1_scan1 0)

theorem SelPc.step2_scan2 (start j : Nat) : SelPc.Step2 K cases start (SelPc.scan2 K cases start j) := by
  unfold scan2
  split
  · next x hfind =>
    have hbuf := List.find?_some hfind
    cases hk : cases[index2 cases start (j + x)]? with
    | none =>
      rw [hk] at hbuf
      cases hbuf
    | some k =>
      rw [hk] at hbuf
      exact .found hk (of_decide_eq_true hbuf)
  · exact .ended

theorem SelPc.passes_readyFrom (i : Nat) (rdy : List Nat) :
    SelPc.Passes K cases timeout rdy (SelPc.readyFrom K m cases timeout i rdy) := by
  unfold readyFrom
  split
  · unfold passed
    split
    · next hrdy => exact .pick hrdy
    · next hrdy =>
      rw [not_not] at hrdy
      split
      · next htime => exact .now hrdy htime
      · next htime => exact .wait hrdy htime
  · next k hk =>
    split
    · exact .closed hk
    · next hop =>
      split
      · exact .closed hk
      · exact .first hk hop

omit [DecidableEq C] in
/-- The first place of `execute_case_locked`. -/
theorem SelPc.execFrom_cases (m : Mem T C α) (w : Wid) (k : Case C α) :
    execFrom K m w k = .meetClaim ∨ execFrom K m w k = .first ∨
      execFrom K m w k = .ring (.loadHead (k.ringOp w)) := by
  unfold execFrom
  split
  · exact Or.inl rfl
  · split
    · split
      · exact Or.inr (Or.inr rfl)
      · exact Or.inr (Or.inl rfl)
    · exact Or.inr (Or.inl rfl)

omit [DecidableEq C] in
theorem SelPc.execFlow_of_actExec {w : Wid} {st : ExecPc α} {go : ExecPc α → SelPc C α}
    {done : ChanErr → SelPc C α} (h : actExec K m k w alt go done st = some (e, pc')) :
    ∃ x, SelPc.ExecFlow K m k w alt st e x ∧ pc' = Sum.elim go done x := by
  cases st with
  | first =>
    cases h
    exact ⟨_, .first, rfl⟩
  | second a =>
    cases h
    split
    · next hstop => exact ⟨_, .stop hstop, rfl⟩
    · next hgo => exact ⟨_, .go (Bool.eq_false_iff.2 hgo), rfl⟩
  | meetClaim =>
    simp only [actExec, popNext] at h
    split at h
    · next hq =>
      cases h
      split
      · next hop =>
        split
        · next hcap => exact ⟨_, .emptySendMeet hq hop hcap, rfl⟩
        · next hcap => exact ⟨_, .emptySendRing hq hop hcap, rfl⟩
      · next hop => exact ⟨_, .emptyRecv hq hop, rfl⟩
    · next w' q hq =>
      split at h
      · next hclaim =>
        cases h
        exact ⟨_, .claim hq hclaim, rfl⟩
      · next hclaim =>
        cases h
        exact ⟨_, .drop hq (Bool.eq_false_iff.2 hclaim), rfl⟩
  | meetCopy w' =>
    simp only [actExec] at h
    split at h
    · next x hx =>
      cases h
      exact ⟨_, .copySend hx, rfl⟩
    · next hx =>
      obtain ⟨x, hdata, heq⟩ := Option.map_eq_some_iff.1 h
      cases heq
      exact ⟨_, .copyRecv hx hdata, rfl⟩
  | ring p =>
    cases h
    exact ringNext_cases (fun q => ∃ x, SelPc.ExecFlow K m k w alt _ _ x ∧ q = Sum.elim go done x)
      (fun p' hp => ⟨_, .ringIn hp, rfl⟩) fun res hp => ⟨_, .ringOut hp, rfl⟩
  | helpClaim =>
    simp only [actExec] at h
    split at h
    · next hq =>
      cases h
      exact ⟨_, .helpEmpty hq, rfl⟩
    · next w' q hq =>
      split at h
      · next hclaim =>
        split at h
        · next hop =>
          cases h
          rw [hop] at hq
          exact ⟨_, .helpSend hop hq hclaim, rfl⟩
        · next hop =>
          obtain ⟨rop, hrop, heq⟩ := Option.map_eq_some_iff.1 h
          cases heq
          rw [hop] at hq
          exact ⟨_, .helpRecv hop hq hclaim hrop, rfl⟩
      · next hclaim =>
        cases h
        exact ⟨_, .helpDrop hq (Bool.eq_false_iff.2 hclaim), rfl⟩
  | helpRing w' p =>
    cases h
    exact ringNext_cases (fun q => ∃ x, SelPc.ExecFlow K m k w alt _ _ x ∧ q = Sum.elim go done x)
      (fun p' hp => ⟨_, .helpIn hp, rfl⟩) fun res hp => ⟨_, .helpOut hp, rfl⟩
  | helpSettle w' =>
    cases h
    exact ⟨_, .settle, rfl⟩
  | wake w' =>
    cases h
    exact ⟨_, .wake, rfl⟩
  | closed =>
    cases h
    split
    · next hclosed => exact ⟨_, .shut hclosed, rfl⟩
    · next hopen => exact ⟨_, .notShut (Bool.eq_false_iff.2 hopen), rfl⟩

omit [DecidableEq C] in
theorem SelPc.actPick_mem {rdy : List Nat} (h : rdy ≠ []) : (actPick K m t rdy).2 ∈ rdy := by
  unfold actPick
  split
  · obtain ⟨a, rest, rfl⟩ := List.exists_cons_of_ne_nil h
    exact List.mem_cons_self
  · have hpos : 0 < rdy.length := List.length_pos_iff.2 h
    simp only [List.getD_eq_getElem?_getD, List.getElem?_eq_getElem (Nat.mod_lt _ hpos),
      Option.getD_some]
    exact List.getElem_mem _

omit [DecidableEq C] in
theorem SelPc.actPick_effect (rdy : List Nat) :
    (actPick K m t rdy).1 = .none ∨ ∃ v, (actPick K m t rdy).1 = .setRng v := by
  unfold actPick
  split
  · exact Or.inl rfl
  · exact Or.inr ⟨_, rfl⟩

theorem SelPc.flow_of_actFast1 {st : Fast1Pc} (hk : cases[i]? = some k) :
    SelPc.Flow K m t id cases timeout alt (.fast1 i st) k.chan .none
      (actFast1 m cases k i st) := by
  cases st with
  | closed =>
    simp only [actFast1]
    split
    · next hclosed => exact .fast1Shut hk hclosed
    · exact .fast1Skip hk (step1_scan1 _)
  | cnt o =>
    cases o with
    | send =>
      simp only [actFast1]
      split
      · exact .fast1Skip hk (step1_scan1 _)
      · next hcnt => exact .fast1Send hk (not_not.1 hcnt)
    | recv =>
      simp only [actFast1]
      split
      · exact .fast1Skip hk (step1_scan1 _)
      · next hcnt => exact .fast1Recv hk (not_not.1 hcnt)
  | tail => exact .fast1Tail hk
  | head pt =>
    simp only [actFast1]
    split
    · next hempty => exact .fast1Head hk hempty
    · exact .fast1Skip hk (step1_scan1 _)

theorem SelPc.flow_of_actFast2 {start j : Nat} {st : Fast2Pc α}
    (hk : cases[index2 cases start j]? = some k)
    (h : actFast2 K m cases k ⟨id, index2 cases start j⟩ alt start j st = (e, pc')) :
    SelPc.Flow K m t id cases timeout alt (.fast2 start j st) k.chan e pc' := by
  cases st with
  | cnt o =>
    cases o with
    | send =>
      cases h
      split
      · next hcnt => exact .fast2Skip hk hcnt (step2_scan2 _ _)
      · next hcnt => exact .fast2Send hk (not_not.1 hcnt)
    | recv =>
      cases h
      split
      · next hcnt => exact .fast2Skip hk hcnt (step2_scan2 _ _)
      · next hcnt =>
        split
        · next hop => exact .fast2Closed hk (not_not.1 hcnt) hop
        · next hop => exact .fast2Recv hk (not_not.1 hcnt) hop
  | closed =>
    cases h
    split
    · next hclosed => exact .fast2Shut hk hclosed
    · next hopen => exact .fast2Open hk (Bool.eq_false_iff.2 hopen)
  | ring p =>
    cases h
    refine ringNext_cases (SelPc.Flow K m t id cases timeout alt _ _ _)
      (fun p' hp => .fast2In hk hp) fun res hp => ?_
    split
    · next hres => exact .fast2Miss hk hp hres (step2_scan2 _ _)
    · next hres => exact .fast2Hit hk hp hres

theorem SelPc.flow_of_actReady {rdy : List Nat} {st : ReadyPc} (hk : cases[i]? = some k) :
    SelPc.Flow K m t id cases timeout alt (.ready i rdy st) k.chan .none
      (actReady K m cases timeout k i rdy st) := by
  cases st with
  | closed =>
    simp only [actReady]
    split
    · next hop =>
      split
      · exact .readyNot hk (passes_readyFrom _ _)
      · next hopen =>
        rw [Bool.not_eq_true] at hopen
        split
        · split
          · exact .readyNot hk (passes_readyFrom _ _)
          · exact .readySend hk hop hopen (passes_readyFrom _ _)
        · next hcap => exact .readyOpen hk hop hopen hcap
    · next hop =>
      split
      · next hclosed => exact .readyShut hk hop hclosed (passes_readyFrom _ _)
      · exact .readyNot hk (passes_readyFrom _ _)
  | first =>
    simp only [actReady]
    split
    · exact .readyYes hk (Or.inl rfl) (passes_readyFrom _ _)
    · next hcap => exact .readyFirst hk hcap
  | second a =>
    simp only [actReady]
    split
    · exact .readyYes hk (Or.inr ⟨a, rfl⟩) (passes_readyFrom _ _)
    · split
      · exact .readyNot hk (passes_readyFrom _ _)
      · next hop => exact .readyEmpty hk hop

/-- Every step of a select follows an edge. -/
theorem SelPc.flow_of_act (h : pc.act K m t id cases timeout alt d = some (c, e, pc')) :
    SelPc.Flow K m t id cases timeout alt pc c e pc' := by
  cases pc with
  | fast1 i st =>
    obtain ⟨k, hk, heq⟩ := Option.map_eq_some_iff.1 h
    cases heq
    exact flow_of_actFast1 hk
  | fast2Start =>
    cases h
    exact .fast2Start (step2_scan2 _ _)
  | fast2 start j st =>
    obtain ⟨k, hk, heq⟩ := Option.map_eq_some_iff.1 h
    obtain ⟨rfl, hrest⟩ := Prod.mk.inj heq
    exact flow_of_actFast2 hk hrest
  | lockAll cs k =>
    cases cs with
    | nil =>
      cases k with
      | ready =>
        cases h
        exact .pass (passes_readyFrom _ _)
      | clean woken =>
        cases h
        exact .clean
    | cons c cs =>
      have h' := h
      simp only [act] at h'
      obtain ⟨hfree, heq⟩ := Option.ite_none_right_eq_some.1 h'
      cases heq
      exact .lock hfree
  | ready i rdy st =>
    obtain ⟨k, hk, heq⟩ := Option.map_eq_some_iff.1 h
    cases heq
    exact flow_of_actReady hk
  | pick rdy =>
    obtain ⟨k, hk, heq⟩ := Option.map_eq_some_iff.1 h
    obtain ⟨rfl, hrest⟩ := Prod.mk.inj heq
    obtain ⟨rfl, rfl⟩ := Prod.mk.inj hrest
    exact .pick hk actPick_mem (actPick_effect rdy) rfl
  | exec i st =>
    obtain ⟨k, hk, hrest⟩ := Option.bind_eq_some_iff.1 h
    obtain ⟨⟨e', q⟩, hexec, heq⟩ := Option.map_eq_some_iff.1 hrest
    cases heq
    obtain ⟨st' | r, hflow, rfl⟩ := execFlow_of_actExec hexec
    · exact .execGo hk hflow
    · exact .execDone hk hflow
  | stub i =>
    simp only [act] at h
    split at h
    · next k hk =>
      cases h
      exact .stub hk
    · next hi =>
      cases h
      exact .stubbed hi
  | unlockAll cs k =>
    cases cs with
    | nil =>
      cases k with
      | ret r =>
        cases h
        exact .unlockedRet
      | park =>
        cases h
        exact .unlockedPark
    | cons c cs =>
      cases h
      exact .unlock
  | park =>
    simp only [act] at h
    split at h
    · next halt =>
      obtain ⟨htime, heq⟩ := Option.ite_none_right_eq_some.1 h
      cases heq
      exact .parkExpire halt htime
    · obtain ⟨hsig, heq⟩ := Option.ite_none_right_eq_some.1 h
      cases heq
      exact .parkWoken hsig
  | clean i woken winner =>
    simp only [act] at h
    split at h
    · next k hk =>
      split at h
      · next hres =>
        cases h
        exact .cleanWon hk hres
      · next hres =>
        cases h
        exact .cleanStub hk (not_not.1 hres)
    · next hi =>
      cases h
      exact .cleaned hi
  | ret r => cases h

end Select

end LibChan
