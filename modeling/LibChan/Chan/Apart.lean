import LibChan.Chan.Counts
import LibChan.Chan.Rendezvous
import LibChan.Chan.Reports

/-!
# Direct waiters of one side only

A receiver registers only when it has found no sender queued, and a select registers a stub only when it
has found the opposite queue empty. A sender on a buffered channel looks at the ring alone: it registers
with receivers queued if the ring is full of slots that are reserved and not yet committed. In runs in
which that does not happen (`Thread.enrollOk`), a waiter of a direct call and a waiter of the other side
are never present at the same time (`ApartInv`).
-/

set_option autoImplicit false

namespace LibChan

variable {T C α : Type}

/-- A send that registers on `c` finds no receiver queued. -/
def Thread.enrollOk [DecidableEq C] (c : C) (m : Mem T C α) : Thread C α → Bool
  | .direct _ d op .enroll => decide (d = c → op.side = .send → (m.chan c).queue .recv = [])
  | _ => true

/-- Waiter `w` is in queue `o` of `c`, or a thread has claimed it there and not yet settled it. -/
def Sys.Present (s : Sys T C α) (c : C) (o : ChanOp) (w : Wid) : Prop :=
  w ∈ (s.mem.chan c).queue o ∨ ∃ t, (s.thread t).hand = some (w, .claimed c o)

/-- The waiter that registers, with its queue. -/
def Effect.newcomer : Effect α → Option (ChanOp × Wid)
  | .enroll o w | .requeue o w | .stub o w => some (o, w)
  | _ => Option.none

/-! ## What the first pass of a select leaves behind -/

/-- Every case that the locked pass has found not ready has `U`, as long as none was ready; a receive
case whose ring and queue have been looked at has `V`. -/
def SelPc.Passed (U V : Case C α → Prop) (cases : List (Case C α)) : SelPc C α → Prop
  | ready i rdy st => rdy = [] → (∀ j < i, ∀ k : Case C α, cases[j]? = some k → U k) ∧
      (st = .closed → ∀ k : Case C α, cases[i]? = some k → k.op = .recv → V k)
  | stub _ => ∀ (j : Nat) (k : Case C α), cases[j]? = some k → U k
  | _ => True

/-- What `case_ready` tells of a case that is not ready. -/
structure Mem.Tells (m : Mem T C α) (U V : Case C α → Prop) (k : Case C α) : Prop where
  closed : k.op = .send → (m.chan k.chan).closed = true → U k
  empty : k.op = .send → (m.chan k.chan).queue .recv = [] → U k
  seen : k.op = .recv → (m.chan k.chan).queue .send = [] → V k
  opened : k.op = .recv → V k → (m.chan k.chan).closed = false → U k

section Pass

variable [DecidableEq C] {K : Config T C} {m : Mem T C α} {t : T} {id i : Nat}
  {cases : List (Case C α)} {timeout : Int} {alt : Bool} {pc pc' : SelPc C α} {c d : C}
  {e : Effect α} {k : Case C α} {rdy : List Nat} {U V U' V' : Case C α → Prop}

omit [DecidableEq C] in
theorem SelPc.passed_of_not_scans (h : pc.scans = false) : pc.Passed U V cases := by
  cases pc with
  | ready i rdy st => cases h
  | stub i => cases h
  | _ => trivial

omit [DecidableEq C] in
theorem SelPc.Passed.mono (h : pc.Passed U V cases) (hU : ∀ k ∈ cases, U k → U' k)
    (hV : ∀ k ∈ cases, V k → V' k) : pc.Passed U' V' cases := by
  cases pc with
  | ready i rdy st =>
    intro hrdy
    obtain ⟨hpassed, hseen⟩ := h hrdy
    exact ⟨fun j hj k hk => hU k (List.mem_of_getElem? hk) (hpassed j hj k hk),
      fun hst k hk hop => hV k (List.mem_of_getElem? hk) (hseen hst k hk hop)⟩
  | stub i => exact fun j k hk => hU k (List.mem_of_getElem? hk) (h j k hk)
  | _ => trivial

theorem SelPc.passed_readyFrom (htell : ∀ k ∈ cases, m.Tells U V k)
    (h : rdy = [] → ∀ j < i, ∀ k, cases[j]? = some k → U k) :
    (readyFrom K m cases timeout i rdy).Passed U V cases := by
  rw [readyFrom]
  cases hk : cases[i]? with
  | none =>
    -- the pass is over: every index of a case is below `i`
    show (passed K cases timeout rdy).Passed U V cases
    rw [passed]
    split
    · trivial
    case isFalse hrdy =>
      split
      · trivial
      · intro j k hj
        have hlt : j < i := by
          have hlen := List.getElem?_eq_none_iff.1 hk
          have := (List.getElem?_eq_some_iff.1 hj).1
          omega
        exact h (not_not.1 hrdy) j hlt k hj
  | some k =>
    have hready : ∀ st : ReadyPc, (st = .closed → k.op = .recv → V k) →
        (ready i rdy st).Passed U V cases := by
      intro st hst hrdy
      refine ⟨h hrdy, fun hclosed k' hk' => ?_⟩
      cases hk.symm.trans hk'
      exact hst hclosed
    cases hop : k.op with
    | send =>
      simp only [hop]
      exact hready .closed fun _ hrecv => by rw [hop] at hrecv; cases hrecv
    | recv =>
      simp only [hop]
      split
      case isTrue hempty =>
        exact hready .closed fun _ _ => (htell k (List.mem_of_getElem? hk)).seen hop hempty.2
      · exact hready .first (by rintro ⟨⟩)

theorem SelPc.passed_actReady {st : ReadyPc} (hk : cases[i]? = some k)
    (htell : ∀ k ∈ cases, m.Tells U V k) (h : (ready i rdy st).Passed U V cases) :
    (actReady K m cases timeout k i rdy st).Passed U V cases := by
  have hthis := htell k (List.mem_of_getElem? hk)
  -- the next case after this one, found not ready
  have hnext : (rdy = [] → U k) → (readyFrom K m cases timeout (i + 1) rdy).Passed U V cases := by
    intro hU
    apply passed_readyFrom htell
    intro hrdy j hj k' hk'
    rcases Nat.lt_succ_iff_lt_or_eq.1 hj with hlt | rfl
    · exact (h hrdy).1 j hlt k' hk'
    · cases hk.symm.trans hk'
      exact hU hrdy
  have hadded : (readyFrom K m cases timeout (i + 1) (rdy ++ [i])).Passed U V cases :=
    passed_readyFrom htell fun hrdy => absurd hrdy (List.append_ne_nil_of_right_ne_nil _ (by simp))
  have hstay : ∀ st' : ReadyPc, (st' = .closed → k.op = .recv → V k) →
      (ready i rdy st').Passed U V cases := by
    intro st' hV hrdy
    refine ⟨(h hrdy).1, fun hst' k' hk' => ?_⟩
    cases hk.symm.trans hk'
    exact hV hst'
  cases st with
  | closed =>
    rw [actReady]
    cases hop : k.op with
    | send =>
      simp only
      split
      case isTrue hclosed => exact hnext fun _ => hthis.closed hop hclosed
      · split
        · split
          case isTrue hempty => exact hnext fun _ => hthis.empty hop hempty
          · exact hadded
        · exact hstay .first (by rintro ⟨⟩)
    | recv =>
      simp only
      split
      · exact hadded
      case isFalse hclosed =>
        exact hnext fun hrdy =>
          hthis.opened hop ((h hrdy).2 rfl k hk hop) (Bool.eq_false_iff.2 hclosed)
  | first =>
    rw [actReady]
    split
    · exact hadded
    · exact hstay _ (by rintro ⟨⟩)
  | second a =>
    rw [actReady]
    split
    · exact hadded
    case isFalse hnot =>
      have hempty : (m.chan k.chan).queue k.op.other = [] := not_not.1 fun hne => hnot (Or.inr hne)
      cases hop : k.op with
      | send =>
        rw [hop] at hempty
        exact hnext fun _ => hthis.empty hop hempty
      | recv =>
        rw [hop] at hempty
        exact hstay .closed fun _ _ => hthis.seen hop hempty

/-- A step of the call itself. -/
theorem SelPc.passed_of_act (hact : pc.act K m t id cases timeout alt d = some (c, e, pc'))
    (htell : ∀ k ∈ cases, m.Tells U V k) (h : pc.Passed U V cases) : pc'.Passed U V cases := by
  cases hscan : pc'.scans with
  | false => exact passed_of_not_scans hscan
  | true =>
    rcases (scans_of_flow (flow_of_act hact) hscan).1 with rfl | hpc
    · simp only [act, Option.some.injEq, Prod.mk.injEq] at hact
      obtain ⟨-, -, rfl⟩ := hact
      exact passed_readyFrom htell fun _ j hj => absurd hj (Nat.not_lt_zero j)
    · cases pc with
      | ready i rdy st =>
        obtain ⟨k, hk, heq⟩ := Option.map_eq_some_iff.1 hact
        cases heq
        exact passed_actReady hk htell h
      | stub i =>
        rw [act] at hact
        split at hact
        · cases hact
          exact h
        · cases hact
          cases hscan
      | _ => cases hpc

end Pass

/-! ## The invariant -/

/-- Opposite to case `k` on `c` only stubs of the call are queued, unless `c` is closed. -/
def Case.Sole (c : C) (m : Mem T C α) (id : Nat) (k : Case C α) : Prop :=
  k.chan = c → (m.chan c).closed = false → ∀ w ∈ (m.chan c).queue k.op.other, w.call = id

/-- While a waiter of a direct call is present on `c`, none of the other side is. -/
structure ApartInv (c : C) (s : Sys T C α) : Prop where
  lone : ∀ t id op pc, s.thread t = .direct id c op pc → s.Present c op.side ⟨id, 0⟩ →
    ∀ w, ¬ s.Present c op.side.other w
  -- a receiver about to register has found no sender
  saw : ∀ t id op pc, s.thread t = .direct id c op pc → pc.registers = true → op.side = .recv →
    (s.mem.chan c).queue .send = []
  sole : ∀ t id cases timeout pc, s.thread t = .select id cases timeout pc →
    pc.Passed (Case.Sole c s.mem id) (Case.Sole c s.mem id) cases

section Inv

variable [DecidableEq T] [DecidableEq C] {K : Config T C} {s s' : Sys T C α} {l : Label T C α}
  {t u : T} {alt : Bool} {c d : C} {e : Effect α} {th : Thread C α} {o : ChanOp} {w : Wid}

/-- A waiter is present by registration only. -/
theorem Sys.present_of_move (hnext : (s.thread t).Next K s.mem d th e)
    (h : (s.move K t d e th).Present c o w) :
    s.Present c o w ∨ d = c ∧ e.newcomer = some (o, w) := by
  rcases h with hqueue | ⟨u, hhand⟩
  · rcases Sys.mem_queue_cases hqueue with hold | ⟨rfl, he⟩
    · exact Or.inl (Or.inl hold)
    · cases e with
      | enroll o' w' =>
        obtain ⟨rfl, rfl⟩ := he
        exact Or.inr ⟨rfl, rfl⟩
      | requeue o' w' =>
        obtain ⟨rfl, rfl⟩ := he
        exact Or.inr ⟨rfl, rfl⟩
      | stub o' w' =>
        obtain ⟨rfl, rfl⟩ := he
        exact Or.inr ⟨rfl, rfl⟩
      | putBack o' w' =>
        obtain ⟨rfl, rfl⟩ := he
        exact Or.inl (Or.inr ⟨t, hnext.move.hand_of_putBack⟩)
      | _ => exact he.elim
  · rcases Sys.hand_move hhand with ⟨rfl, hhand'⟩ | ⟨-, hhand'⟩
    · rcases hnext.move.hand_cases hhand' with hold | ⟨hst, -⟩ | ⟨o', hst, -⟩ | ⟨o', -, hst, hqueue, -⟩
      · exact Or.inl (Or.inr ⟨u, hold⟩)
      · cases hst
      · cases hst
      · cases hst
        exact Or.inl (Or.inl hqueue)
    · exact Or.inl (Or.inr ⟨u, hhand'⟩)

omit [DecidableEq T] in
/-- Who holds the lock and has nobody in hand finds every waiter that is present in its queue. -/
theorem Sys.Present.mem_queue (h : s.Present c o w) (hl : LockInv K s) (hheld : c ∈ (s.thread t).holds K)
    (hhand : (s.thread t).hand = none) : w ∈ (s.mem.chan c).queue o := by
  rcases h with hqueue | ⟨u, hu⟩
  · exact hqueue
  · obtain rfl := hl.holds_inj (Thread.mem_holds_of_hand hu (Or.inl rfl)) hheld
    cases hhand.symm.trans hu

omit [DecidableEq T] in
/-- Who registers on `c` has nobody opposite, or only stubs of its own select. -/
theorem ApartInv.of_enters (h : ApartInv c s) (hv : Valid K s) (hcap : (K.chan c).capacity ≠ 0)
    (hspsc : (K.chan c).spsc = false) (hok : (s.thread t).enrollOk c s.mem = true)
    (hopen : (s.thread t).isSelect = true → (s.mem.chan c).closed = false)
    (hacts : s.Acts K t alt c e th) (he : e.newcomer = some (o, w))
    {v : Wid} (hpresent : s.Present c o.other v) : v.call = w.call ∧ (s.thread t).isSelect = true := by
  cases hacts with
  | @direct id c op pc pc' e hth hact =>
    cases Pc.flow_of_act hact with
    | enrollMeet hzero => exact absurd hzero hcap
    | requeue =>
      have hback : Pc.backstop (K.chan c) op = true := (hv.direct_ok hth).2
      rw [Pc.backstop, hspsc] at hback
      cases hback
    | enrollRing =>
      cases he
      have hmem := hpresent.mem_queue hv.locks (Sys.held_of_locked hth rfl) (by rw [hth]; rfl)
      cases hside : op.side with
      | recv =>
        rw [hside, ChanOp.other_recv, h.saw t id op _ hth rfl hside] at hmem
        cases hmem
      | send =>
        have hok : (s.thread t).enrollOk c s.mem = true := hok
        rw [hth] at hok
        rw [hside, ChanOp.other_send, of_decide_eq_true hok rfl hside] at hmem
        cases hmem
    | _ => cases he
  | @select id cases timeout pc pc' c d e hth hact =>
    have hopen : (s.mem.chan c).closed = false := hopen (by rw [hth]; rfl)
    have hsole := h.sole t id cases timeout pc hth
    cases SelPc.flow_of_act hact with
    | @stub i k hk =>
      cases he
      have hscans : (SelPc.stub i : SelPc C α).scans = true := rfl
      have hheld : k.chan ∈ (s.thread t).holds K := by
        rw [hth]
        exact SelPc.held_of_scans hscans (List.mem_of_getElem? hk)
      have hmem := hpresent.mem_queue hv.locks hheld (by rw [hth]; rfl)
      exact ⟨hsole i k hk rfl hopen v hmem, by rw [hth]; rfl⟩
    | pick _ _ he' => rcases he' with rfl | ⟨x, rfl⟩ <;> cases he
    | execGo hk hexec => cases hexec <;> cases he
    | execDone hk hexec => cases hexec <;> cases he
    | _ => cases he

omit [DecidableEq T] in
theorem Thread.Next.id_of_enters (hnext : (s.thread t).Next K s.mem d th e)
    (he : e.newcomer = some (o, w)) : (s.thread t).id? = some w.call := by
  cases hnext.move with
  | quiet hquiet =>
    cases e with
    | enroll o' w' | requeue o' w' | stub o' w' => exact hquiet.elim
    | _ => cases he
  | enter he' _ _ _ _ hown =>
    rcases he' with ⟨rfl | rfl, -⟩ | ⟨rfl, -⟩ <;> cases he <;> exact hown
  | settle he' => rcases he' with ⟨r, rfl⟩ | ⟨a, r, x, rfl⟩ <;> cases he
  | _ => cases he

/-- A thread in a direct call was in it before the step. -/
theorem Sys.Acts.direct_before (hacts : s.Acts K t alt d e th) {id : Nat} {op : Op α} {pc : Pc α}
    (hth : (s.move K t d e th).thread u = .direct id c op pc) :
    ∃ pc₀, s.thread u = .direct id c op pc₀ := by
  by_cases hu : u = t
  · subst hu
    rw [Sys.thread_move_self] at hth
    cases hacts with
    | @direct _ _ _ pc₀ _ _ hth₀ hact =>
      cases hth
      exact ⟨pc₀, hth₀⟩
    | select hth₀ hact => cases hth
  · rw [Sys.thread_move_of_ne hu] at hth
    exact ⟨pc, hth⟩

theorem ApartInv.lone_move (h : ApartInv c s) (hv : Valid K s) (hcap : (K.chan c).capacity ≠ 0)
    (hspsc : (K.chan c).spsc = false) (hok : (s.thread t).enrollOk c s.mem = true)
    (hopen : (s.thread t).isSelect = true → (s.mem.chan c).closed = false)
    (hnext : (s.thread t).Next K s.mem d th e) (hacts : s.Acts K t alt d e th) {id : Nat} {op : Op α}
    {pc : Pc α} (hth : (s.move K t d e th).thread u = .direct id c op pc)
    (hown : (s.move K t d e th).Present c op.side ⟨id, 0⟩) :
    ¬ (s.move K t d e th).Present c op.side.other w := by
  intro hother
  obtain ⟨pc₀, hth₀⟩ := hacts.direct_before hth
  -- a select does not register for a direct call
  have hself : ∀ {o : ChanOp} {v : Wid}, v.call = id → e.newcomer = some (o, v) →
      (s.thread t).isSelect = true → False := by
    intro o v hid he hselect
    obtain rfl : t = u := hv.calls.id_inj t u id (hid ▸ hnext.id_of_enters he) (by rw [hth₀]; rfl)
    rw [hth₀] at hselect
    cases hselect
  rcases Sys.present_of_move hnext hown with hown | ⟨rfl, henew⟩
  · rcases Sys.present_of_move hnext hother with hother | ⟨rfl, henew⟩
    · exact h.lone u id op pc₀ hth₀ hown w hother
    · have hfresh := h.of_enters hv hcap hspsc hok hopen hacts henew (by rwa [ChanOp.other_other])
      exact hself hfresh.1.symm henew hfresh.2
  · rcases Sys.present_of_move hnext hother with hother | ⟨-, henew'⟩
    · have hfresh := h.of_enters hv hcap hspsc hok hopen hacts henew hother
      exact hself rfl henew hfresh.2
    · exact ChanOp.ne_other _ (Prod.ext_iff.1 (Option.some.inj (henew.symm.trans henew'))).1

omit [DecidableEq T] in
theorem ApartInv.saw_own (h : ApartInv c s) (hv : Valid K s) {id : Nat} {op : Op α} {pc pc' : Pc α}
    (hth : s.thread t = .direct id c op pc) (hflow : Pc.Flow K s.mem id c op alt pc e pc')
    (hpc' : pc'.registers = true) (hside : op.side = .recv) :
    (s.mem.chan c).queue .send = [] ∧ ∀ q, e.queueAfter q = q := by
  have hok := hv.direct_ok hth
  have hsend : op.isSend = true → False := by
    intro hop
    cases op with
    | send x time => cases hside
    | _ => cases hop
  cases hflow with
  | meetEmptySend hqueue hop hblock => exact (hsend hop).elim
  | meetEmptyRecv hqueue hop =>
    rw [hside] at hqueue
    exact ⟨hqueue, fun _ => rfl⟩
  | emptyOpen hopen hblock => exact ⟨h.saw t id op _ hth rfl hside, fun _ => rfl⟩
  | serveStopBlock hstop hblock | serveEmptyBlock hqueue hblock | servePutBackBlock hblock =>
    exact (hsend hok.2.1).elim
  | _ => cases hpc'

/-- What the moving select knows after its step. -/
theorem ApartInv.sole_own (h : ApartInv c s) {id : Nat} {cases : List (Case C α)} {timeout : Int}
    {pc pc' : SelPc C α} (hth : s.thread t = .select id cases timeout pc) {dummy : C}
    (hact : pc.act K s.mem t id cases timeout alt dummy = some (d, e, pc')) :
    pc'.Passed (Case.Sole c (s.move K t d e (.select id cases timeout pc')).mem id)
      (Case.Sole c (s.move K t d e (.select id cases timeout pc')).mem id) cases := by
  have htell : ∀ k ∈ cases, s.mem.Tells (Case.Sole c s.mem id) (Case.Sole c s.mem id) k := by
    intro k _
    have hnil : ∀ {o : ChanOp}, k.op = o → (s.mem.chan k.chan).queue o.other = [] →
        Case.Sole c s.mem id k := by
      rintro o rfl hempty rfl - w hw
      rw [hempty] at hw
      cases hw
    refine ⟨fun _ hclosed hc hopen => ?_, hnil, hnil, fun _ hsole _ => hsole⟩
    rw [hc, hopen] at hclosed
    cases hclosed
  have hafter := SelPc.passed_of_act hact htell (h.sole t id cases timeout pc hth)
  cases hscan : pc'.scans with
  | false => exact SelPc.passed_of_not_scans hscan
  | true =>
    have henters := (SelPc.scans_of_flow (SelPc.flow_of_act hact) hscan).2
    have hmono : ∀ k, Case.Sole c s.mem id k →
        Case.Sole c (s.move K t d e (.select id cases timeout pc')).mem id k := by
      intro k hsole hc hopen w hw
      have hopen : (s.mem.chan c).closed = false :=
        Bool.eq_false_iff.2 fun hclosed => Bool.eq_false_iff.1 hopen (Sys.closed_move.2 (Or.inl hclosed))
      rcases Sys.mem_queue_cases hw with hw | ⟨-, he⟩
      · exact hsole hc hopen w hw
      · exact henters _ w he
    exact hafter.mono (fun k _ => hmono k) fun k _ => hmono k

omit [DecidableEq T] in
/-- A select in its locked pass holds the locks of its cases. -/
theorem Sys.held_of_scans {id : Nat} {cases : List (Case C α)} {timeout : Int} {pc : SelPc C α}
    (hth : s.thread t = .select id cases timeout pc) (hscan : pc.scans = true) {k : Case C α}
    (hk : k ∈ cases) : k.chan ∈ (s.thread t).holds K := by
  rw [hth]
  exact SelPc.held_of_scans hscan hk

/-- The locks protect what the other threads know. -/
theorem ApartInv.sole_other (h : ApartInv c s) (hv : Valid K s) (hu : u ≠ t)
    (hnext : (s.thread t).Next K s.mem d th e) {id : Nat} {cases : List (Case C α)} {timeout : Int}
    {pc : SelPc C α} (hth : s.thread u = .select id cases timeout pc) :
    pc.Passed (Case.Sole c (s.move K t d e th).mem id) (Case.Sole c (s.move K t d e th).mem id) cases := by
  cases hscan : pc.scans with
  | false => exact SelPc.passed_of_not_scans hscan
  | true =>
    have hmono : ∀ k ∈ cases, Case.Sole c s.mem id k → Case.Sole c (s.move K t d e th).mem id k := by
      rintro k hk hsole rfl hopen
      rw [hv.locks.queue_move hnext hu (Sys.held_of_scans hth hscan hk)]
      refine hsole rfl (Bool.eq_false_iff.2 fun hclosed => ?_)
      exact Bool.eq_false_iff.1 hopen (Sys.closed_move.2 (Or.inl hclosed))
    exact (h.sole u id cases timeout pc hth).mono hmono hmono

theorem ApartInv.move (h : ApartInv c s) (hv : Valid K s) (hcap : (K.chan c).capacity ≠ 0)
    (hspsc : (K.chan c).spsc = false) (hok : (s.thread t).enrollOk c s.mem = true)
    (hopen : (s.thread t).isSelect = true → (s.mem.chan c).closed = false)
    (hnext : (s.thread t).Next K s.mem d th e) (hacts : s.Acts K t alt d e th) :
    ApartInv c (s.move K t d e th) where
  lone u id op pc hth hown w := h.lone_move hv hcap hspsc hok hopen hnext hacts hth hown
  saw u id op pc hth hpc hside := by
    by_cases hu : u = t
    · subst hu
      rw [Sys.thread_move_self] at hth
      cases hacts with
      | select hth₀ hact => cases hth
      | direct hth₀ hact =>
        cases hth
        obtain ⟨hempty, hsame⟩ := h.saw_own hv hth₀ (Pc.flow_of_act hact) hpc hside
        show ((s.mem.apply K u c e).chan c).queue .send = []
        rw [Mem.queue_apply, if_pos rfl, hsame]
        exact hempty
    · rw [Sys.thread_move_of_ne hu] at hth
      have hlocked : pc.locked = true := by
        cases pc with
        | emptyClosed => rfl
        | enroll => rfl
        | _ => cases hpc
      rw [hv.locks.queue_move hnext hu (Sys.held_of_locked hth hlocked)]
      exact h.saw u id op pc hth hpc hside
  sole u id cases timeout pc hth := by
    by_cases hu : u = t
    · subst hu
      rw [Sys.thread_move_self] at hth
      cases hacts with
      | direct hth₀ hact => cases hth
      | select hth₀ hact =>
        cases hth
        exact h.sole_own hth₀ hact
    · rw [Sys.thread_move_of_ne hu] at hth
      exact h.sole_other hv hu hnext hth

omit [DecidableEq T] [DecidableEq C] in
theorem ApartInv.init (slots : C → U32 → α) : ApartInv c (Sys.init slots : Sys T C α) where
  lone _ _ _ _ h := by cases h
  saw _ _ _ _ h := by cases h
  sole _ _ _ _ _ h := by cases h

omit [DecidableEq T] [DecidableEq C] in
/-- A thread between two calls, or at the start of one, adds nothing. -/
theorem ApartInv.congr (h : ApartInv c s) (hchan : s'.mem.chan = s.mem.chan)
    (hother : ∀ u, u ≠ t → s'.thread u = s.thread u) (hhand : (s'.thread t).hand = none)
    (hdirect : ∀ id op pc, s'.thread t = .direct id c op pc →
      pc.registers = false ∧ ∀ o, ¬ s.Present c o ⟨id, 0⟩)
    (hselect : ∀ id cases timeout pc, s'.thread t = .select id cases timeout pc → pc.scans = false) :
    ApartInv c s' := by
  have hpresent : ∀ o w, s'.Present c o w → s.Present c o w := by
    rintro o w (hqueue | ⟨u, hu⟩)
    · rw [hchan] at hqueue
      exact Or.inl hqueue
    · by_cases hut : u = t
      · rw [hut, hhand] at hu
        cases hu
      · rw [hother u hut] at hu
        exact Or.inr ⟨u, hu⟩
  constructor
  · intro u id op pc hth hown w hw
    by_cases hut : u = t
    · exact (hdirect id op pc (hut ▸ hth)).2 _ (hpresent _ _ hown)
    · exact h.lone u id op pc (hother u hut ▸ hth) (hpresent _ _ hown) w (hpresent _ _ hw)
  · intro u id op pc hth hpc hside
    rw [hchan]
    by_cases hut : u = t
    · rw [(hdirect id op pc (hut ▸ hth)).1] at hpc
      cases hpc
    · exact h.saw u id op pc (hother u hut ▸ hth) hpc hside
  · intro u id cases timeout pc hth
    by_cases hut : u = t
    · exact SelPc.passed_of_not_scans (hselect id cases timeout pc (hut ▸ hth))
    · have hsole : Case.Sole c s'.mem id = Case.Sole c s.mem id := by
        funext k
        rw [Case.Sole, hchan, ← Case.Sole]
      rw [hsole]
      exact h.sole u id cases timeout pc (hother u hut ▸ hth)

omit [DecidableEq T] in
/-- A waiter that is present belongs to a running call. -/
theorem Sound.lt_of_present (hs : Sound K s) (h : s.Present c o w) : w.call < s.next := by
  have howned : s.Owned c o w := by
    rcases h with hqueue | ⟨u, hhand⟩
    · exact (hs.queues.queue c o w hqueue).owned
    · exact (hs.queues.claimed u w c o hhand).1
  obtain ⟨u, hwaits⟩ := howned
  exact hs.calls.id_lt u _ (Thread.id_of_waits hwaits)

theorem ApartInv.step (h : ApartInv c s) (hv : Valid K s) (hcap : (K.chan c).capacity ≠ 0)
    (hspsc : (K.chan c).spsc = false) (hok : Sys.When (Thread.enrollOk c) s l)
    (hopen : (∃ t, (s.thread t).isSelect = true) → (s.mem.chan c).closed = false)
    (hstep : s.Stepped K l s') : ApartInv c s' := by
  cases hstep with
  | @call t k hidle =>
    have hnew := Sys.begun_startThread K s.next k
    have hself : (s.startCall K t k).thread t = Sys.startThread K s.next k := Sys.thread_startCall_self
    refine h.congr rfl (fun u hu => Sys.thread_startCall_of_ne hu) (by rw [hself]; exact hnew.hand) ?_ ?_
    · intro id op pc hth
      rw [hself] at hth
      cases k with
      | select cases timeout => cases hth
      | direct d op' =>
        cases hth
        refine ⟨Pc.not_registers_of_begins (Pc.begins_entry ..), fun o hpresent => ?_⟩
        exact absurd (hv.lt_of_present hpresent) (Nat.lt_irrefl _)
    · intro id cases timeout pc hth
      rw [hself] at hth
      cases k with
      | direct d op => cases hth
      | select cases' timeout' =>
        cases hth
        exact SelPc.not_scans_of_begins (SelPc.begins_entry _)
  | @ret t alt id r out hdone hret =>
    have hself : (s.finishCall t id r out).thread t = .idle := Sys.thread_finishCall_self
    refine h.congr rfl (fun u hu => Sys.thread_finishCall_of_ne hu) (by rw [hself]; rfl) ?_ ?_
    · intro id op pc hth
      cases hself.symm.trans hth
    · intro id cases timeout pc hth
      cases hself.symm.trans hth
  | @move t alt d e th hnext hacts =>
    exact h.move hv hcap hspsc hok (fun hselect => hopen ⟨t, hselect⟩) hnext hacts

end Inv

end LibChan
