import LibChan.Chan.Claimed

/-!
# The two queues of an unbuffered channel

A direct call registers on an unbuffered channel after it has found the opposite queue empty, a select
after it has found the opposite queue of each of its cases empty, and both keep the lock in between.
So the two queues never hold waiters of different calls (`MeetInv`). The one case that is not tested
is a send case on a closed channel; nobody waits to receive there, because `chan_close` has emptied
the queue and a receive does not register on a closed channel.
-/

set_option autoImplicit false

namespace LibChan

variable {T C α : Type}

/-! ## What a call knows before it registers -/

/-- On an unbuffered channel only the call `id` itself waits opposite the case. -/
def Case.Alone (K : Config T C) (m : Mem T C α) (id : Nat) (k : Case C α) : Prop :=
  (K.chan k.chan).capacity = 0 → ∀ w ∈ (m.chan k.chan).queue k.op.other, w.call = id

/-- The case is not ready: nobody else waits opposite it, and the channel of a receive is open. -/
structure Case.Unmet (K : Config T C) (m : Mem T C α) (id : Nat) (k : Case C α) : Prop where
  alone : k.Alone K m id
  opened : k.op = .recv → (m.chan k.chan).closed = false

/-- What `case_ready` has seen of its case. -/
def ReadyPc.Seen (K : Config T C) (m : Mem T C α) (id : Nat) (k : Case C α) : ReadyPc → Prop
  | closed => k.op = .recv → k.Alone K m id
  | first => True
  | second _ => (K.chan k.chan).capacity ≠ 0

/-- While no case is ready the cases passed so far are unmet; when the stubs are registered all of
them are. -/
def SelPc.Unmet (K : Config T C) (m : Mem T C α) (id : Nat) (cases : List (Case C α)) :
    SelPc C α → Prop
  | ready i rdy st => rdy = [] →
    (∀ j < i, ∀ k : Case C α, cases[j]? = some k → k.Unmet K m id) ∧
    ∀ k : Case C α, cases[i]? = some k → st.Seen K m id k
  | stub _ => ∀ (j : Nat) (k : Case C α), cases[j]? = some k → k.Unmet K m id
  | _ => True

/-- The places of a direct call that has found the opposite queue empty and is about to register. -/
def Pc.registers : Pc α → Bool
  | emptyClosed | enroll => true
  | _ => false

/-- A call about to register on an unbuffered channel has nobody opposite it. -/
def Thread.Unmet (K : Config T C) (m : Mem T C α) : Thread C α → Prop
  | .idle => True
  | .direct _ c op pc => pc.registers = true → (K.chan c).capacity = 0 →
    (m.chan c).queue op.side.other = []
  | .select id cases _ pc => pc.Unmet K m id cases

section Select

variable [DecidableEq C] {K : Config T C} {m m' : Mem T C α} {t : T} {id : Nat}
  {cases : List (Case C α)} {timeout : Int} {alt : Bool} {pc pc' : SelPc C α} {c : C}
  {e : Effect α} {k : Case C α} {i : Nat} {rdy : List Nat}

omit [DecidableEq C] in
theorem SelPc.Unmet.mono (h : pc.Unmet K m id cases)
    (halone : ∀ k ∈ cases, k.Alone K m id → k.Alone K m' id)
    (hopen : ∀ k ∈ cases, (m.chan k.chan).closed = false → (m'.chan k.chan).closed = false) :
    pc.Unmet K m' id cases := by
  have hcase : ∀ {j : Nat} {k : Case C α}, cases[j]? = some k → k.Unmet K m id → k.Unmet K m' id := by
    intro j k hk hu
    have hmem := List.mem_of_getElem? hk
    exact ⟨halone k hmem hu.alone, fun hop => hopen k hmem (hu.opened hop)⟩
  cases pc with
  | ready i rdy st =>
    intro hrdy
    obtain ⟨hpassed, hseen⟩ := h hrdy
    refine ⟨fun j hj k hk => hcase hk (hpassed j hj k hk), fun k hk => ?_⟩
    cases st with
    | closed => exact fun hop => halone k (List.mem_of_getElem? hk) (hseen k hk hop)
    | first => trivial
    | second a => exact hseen k hk
  | stub i => exact fun j k hk => hcase hk (h j k hk)
  | _ => trivial

theorem SelPc.unmet_readyFrom
    (h : rdy = [] → ∀ j < i, ∀ k, cases[j]? = some k → k.Unmet K m id) :
    (readyFrom K m cases timeout i rdy).Unmet K m id cases := by
  rw [readyFrom]
  cases hk : cases[i]? with
  | none =>
    -- the pass is over: every index of a case is below `i`
    show (passed K cases timeout rdy).Unmet K m id cases
    rw [passed]
    split
    · trivial
    case isFalse hrdy =>
      split
      · trivial
      · intro j k hj
        have hlt : j < i := by
          have hlen := List.getElem?_eq_none_iff.1 hk
          have := (List.getElem?_eq_some_iff.1 hj).1
          omega
        exact h (not_not.1 hrdy) j hlt k hj
  | some k =>
    have hready : ∀ st : ReadyPc, st.Seen K m id k → (ready i rdy st).Unmet K m id cases := by
      intro st hst hrdy
      refine ⟨h hrdy, fun k' hk' => ?_⟩
      cases hk.symm.trans hk'
      exact hst
    cases hop : k.op with
    | send =>
      simp only [hop]
      exact hready .closed fun hrecv => by rw [hop] at hrecv; cases hrecv
    | recv =>
      simp only [hop]
      split
      case isTrue hempty =>
        apply hready
        intro _ _ w hw
        rw [hop, ChanOp.other_recv, hempty.2] at hw
        exact absurd hw List.not_mem_nil
      · exact hready .first trivial

theorem SelPc.unmet_actReady {st : ReadyPc} (hk : cases[i]? = some k)
    (h : (ready i rdy st).Unmet K m id cases)
    (hshut : (K.chan k.chan).capacity = 0 → (m.chan k.chan).closed = true →
      (m.chan k.chan).queue .recv = []) :
    (actReady K m cases timeout k i rdy st).Unmet K m id cases := by
  -- the next case after this one, found not ready
  have hnext : (rdy = [] → k.Unmet K m id) →
      (readyFrom K m cases timeout (i + 1) rdy).Unmet K m id cases := by
    intro hthis
    apply unmet_readyFrom
    intro hrdy j hj k' hk'
    rcases Nat.lt_succ_iff_lt_or_eq.1 hj with hlt | rfl
    · exact (h hrdy).1 j hlt k' hk'
    · cases hk.symm.trans hk'
      exact hthis hrdy
  have hadded : (readyFrom K m cases timeout (i + 1) (rdy ++ [i])).Unmet K m id cases :=
    unmet_readyFrom fun hrdy => absurd hrdy (List.append_ne_nil_of_right_ne_nil _ (by simp))
  have hempty : k.op = .send → (m.chan k.chan).queue .recv = [] → k.Unmet K m id := by
    intro hop hq
    refine ⟨fun _ w hw => ?_, fun hrecv => by rw [hop] at hrecv; cases hrecv⟩
    rw [hop, ChanOp.other_send, hq] at hw
    exact absurd hw List.not_mem_nil
  have hbuffered : ∀ st' : ReadyPc, st' = .first ∨ (∃ a, st' = .second a ∧ (K.chan k.chan).capacity ≠ 0) ∨
      (st' = .closed ∧ (K.chan k.chan).capacity ≠ 0) → (ready i rdy st').Unmet K m id cases := by
    intro st' hst' hrdy
    refine ⟨(h hrdy).1, fun k' hk' => ?_⟩
    cases hk.symm.trans hk'
    rcases hst' with rfl | ⟨a, rfl, hcap⟩ | ⟨rfl, hcap⟩
    · trivial
    · exact hcap
    · exact fun _ hzero => absurd hzero hcap
  cases st with
  | closed =>
    rw [actReady]
    cases hop : k.op with
    | send =>
      simp only
      by_cases hclosed : (m.chan k.chan).closed = true
      · rw [if_pos hclosed]
        apply hnext
        intro _
        by_cases hcap : (K.chan k.chan).capacity = 0
        · exact hempty hop (hshut hcap hclosed)
        · exact ⟨fun hzero => absurd hzero hcap, fun hrecv => by rw [hop] at hrecv; cases hrecv⟩
      · rw [if_neg hclosed]
        split
        · split
          case isTrue hq => exact hnext fun _ => hempty hop hq
          · exact hadded
        · exact hbuffered .first (.inl rfl)
    | recv =>
      simp only
      split
      · exact hadded
      case isFalse hclosed =>
        exact hnext fun hrdy => ⟨(h hrdy).2 k hk hop, fun _ => Bool.eq_false_iff.2 hclosed⟩
  | first =>
    rw [actReady]
    split
    · exact hadded
    case isFalse hcap => exact hbuffered _ (.inr (.inl ⟨_, rfl, hcap⟩))
  | second a =>
    rw [actReady]
    split
    · exact hadded
    · cases hop : k.op with
      | send =>
        simp only
        apply hnext
        intro hrdy
        exact ⟨fun hzero => absurd hzero ((h hrdy).2 k hk), fun hrecv => by rw [hop] at hrecv; cases hrecv⟩
      | recv =>
        simp only
        intro hrdy
        exact hbuffered .closed (.inr (.inr ⟨rfl, (h hrdy).2 k hk⟩)) hrdy

/-- The places at which a select knows something about the opposite queues. -/
def SelPc.scans : SelPc C α → Bool
  | ready _ _ _ | stub _ => true
  | _ => false

omit [DecidableEq C] in
theorem SelPc.unmet_of_not_scans (h : pc.scans = false) : pc.Unmet K m id cases := by
  cases pc with
  | ready i rdy st => cases h
  | stub i => cases h
  | _ => trivial

/-- Such a place is reached from `lock_all` and from one another, without touching a queue except by a
stub of the call. -/
theorem SelPc.scans_of_flow (hflow : Flow K m t id cases timeout alt pc c e pc')
    (h : pc'.scans = true) :
    (pc = lockAll [] .ready ∨ pc.scans = true) ∧ ∀ o w, e.enters o w → w.call = id := by
  have hstep1 : ∀ {p : SelPc C α}, Step1 cases p → p.scans = false := by
    intro p hp
    cases hp <;> rfl
  have hstep2 : ∀ {start : Nat} {p : SelPc C α}, Step2 K cases start p → p.scans = false := by
    intro start p hp
    cases hp <;> rfl
  cases hflow with
  | fast1Skip hk hstep => rw [hstep1 hstep] at h; cases h
  | fast2Start hstep | fast2Skip hk hcnt hstep | fast2Miss hk hp hres hstep =>
    rw [hstep2 hstep] at h; cases h
  | pass hpass => exact ⟨.inl rfl, fun _ _ he => he.elim⟩
  | readyOpen | readyFirst | readyEmpty | readyNot | readySend | readyShut | readyYes =>
    exact ⟨.inr rfl, fun _ _ he => he.elim⟩
  | stub hk => exact ⟨.inr rfl, fun _ _ he => he.2 ▸ rfl⟩
  | _ => cases h

/-- A step of the call itself. -/
theorem SelPc.unmet_of_act {d : C} (hact : pc.act K m t id cases timeout alt d = some (c, e, pc'))
    (h : pc.Unmet K m id cases)
    (hshut : ∀ k ∈ cases, pc.scans = true → (K.chan k.chan).capacity = 0 →
      (m.chan k.chan).closed = true → (m.chan k.chan).queue .recv = []) :
    pc'.Unmet K m id cases := by
  cases hscan : pc'.scans with
  | false => exact unmet_of_not_scans hscan
  | true =>
    rcases (scans_of_flow (flow_of_act hact) hscan).1 with rfl | hpc
    · simp only [act, Option.some.injEq, Prod.mk.injEq] at hact
      obtain ⟨-, -, rfl⟩ := hact
      exact unmet_readyFrom fun _ j hj => absurd hj (Nat.not_lt_zero j)
    · cases pc with
      | ready i rdy st =>
        obtain ⟨k, hk, heq⟩ := Option.map_eq_some_iff.1 hact
        cases heq
        exact unmet_actReady hk h (hshut k (List.mem_of_getElem? hk) rfl)
      | stub i =>
        rw [act] at hact
        split at hact
        · cases hact
          exact h
        · cases hact
          cases hscan
      | _ => cases hpc

end Select

/-! ## The invariant -/

section Inv

variable [DecidableEq T] [DecidableEq C] {K : Config T C} {s s' : Sys T C α} {l : Label T C α}
  {t : T} {alt : Bool} {c d : C} {e : Effect α} {th : Thread C α} {o : ChanOp} {w : Wid}

/-- The queues of an unbuffered channel hold waiters of one call only when both are in use, and only
`chan_close` leaves a receiver in the queue of a closed one. -/
structure MeetInv (K : Config T C) (s : Sys T C α) : Prop where
  threads : ∀ t, (s.thread t).Unmet K s.mem
  met : ∀ c, (K.chan c).capacity = 0 → ∀ w ∈ (s.mem.chan c).queue .send,
    ∀ w' ∈ (s.mem.chan c).queue .recv, w.call = w'.call
  drained : ∀ c, (K.chan c).capacity = 0 → (s.mem.chan c).closed = true →
    (s.mem.chan c).queue .recv ≠ [] →
    ∃ t id op pc, s.thread t = .direct id c op pc ∧ pc.drains .recv = true

omit [DecidableEq C] [DecidableEq T] in
theorem MeetInv.init (slots : C → U32 → α) : MeetInv K (Sys.init slots : Sys T C α) where
  threads _ := trivial
  met _ _ _ h := absurd h List.not_mem_nil
  drained _ _ h := by cases h

omit [DecidableEq T] in
/-- A select that holds the lock of a closed unbuffered channel finds no receiver in its queue. -/
theorem MeetInv.recv_eq_nil (h : MeetInv K s) (hv : Valid K s) {id : Nat} {cases : List (Case C α)}
    {timeout : Int} {pc : SelPc C α} (hth : s.thread t = .select id cases timeout pc)
    (hheld : c ∈ pc.held K cases) (hcap : (K.chan c).capacity = 0)
    (hclosed : (s.mem.chan c).closed = true) : (s.mem.chan c).queue .recv = [] := by
  by_contra hne
  obtain ⟨u, id', op, pc', hu, hdrains⟩ := h.drained c hcap hclosed hne
  have hholds : c ∈ (s.thread u).holds K := Sys.held_of_locked hu (Pc.locked_of_drains hdrains)
  obtain rfl : u = t := hv.locks.holds_inj hholds (by rw [hth]; exact hheld)
  cases hu.symm.trans hth

omit [DecidableEq T] in
theorem SelPc.held_of_scans {cases : List (Case C α)} {pc : SelPc C α} (h : pc.scans = true)
    {k : Case C α} (hk : k ∈ cases) : k.chan ∈ pc.held K cases := by
  obtain ⟨j, hj⟩ := List.mem_iff_getElem?.1 hk
  have hmem : k.chan ∈ SelPc.locks K cases := SelPc.mem_locks hj
  cases pc with
  | ready i rdy st => exact hmem
  | stub i => exact hmem
  | _ => cases h

omit [DecidableEq T] in
/-- Who enters a queue of an unbuffered channel has nobody else opposite, and enters the queue of
receivers of an open channel only. -/
theorem MeetInv.unmet_of_enters (h : MeetInv K s) (hv : Valid K s) (hacts : s.Acts K t alt c e th)
    (hcap : (K.chan c).capacity = 0) (he : e.enters o w) :
    (∀ w' ∈ (s.mem.chan c).queue o.other, w'.call = w.call) ∧
      (o = .recv → (s.mem.chan c).closed = false) := by
  have hunmet := h.threads t
  cases hacts with
  | @direct id c op pc pc' e hth hact =>
    have hknows := hv.shut.running t
    have hok := hv.direct_ok hth
    rw [hth] at hunmet hknows
    -- nothing is put back or queued again on an unbuffered channel
    have hspsc : Pc.backstop (K.chan c) op = true → False := by
      intro hback
      have hpos := (K.chan c).buffered (Bool.and_eq_true_iff.1 hback).1
      omega
    cases Pc.flow_of_act hact with
    | enrollMeet =>
      obtain ⟨rfl, rfl⟩ := he
      refine ⟨fun w' hw' => ?_, fun _ => hknows.2.1 rfl⟩
      rw [hunmet rfl hcap] at hw'
      exact absurd hw' List.not_mem_nil
    | enrollRing hcap' => exact absurd hcap hcap'
    | requeue => exact (hspsc hok.2).elim
    | servePutBack => exact absurd hcap (Nat.pos_iff_ne_zero.1 hok.1)
    | servePutBackBlock => exact absurd hcap (Nat.pos_iff_ne_zero.1 hok.1)
    | helpPutBack => exact absurd hcap (Nat.pos_iff_ne_zero.1 hok.2.2)
    | _ => exact he.elim
  | @select id cases timeout pc pc' c d e hth hact =>
    rw [hth] at hunmet
    cases SelPc.flow_of_act hact with
    | @stub i k hk =>
      obtain ⟨rfl, rfl⟩ := he
      have hcase : k.Unmet K s.mem id := hunmet i k hk
      exact ⟨hcase.alone hcap, hcase.opened⟩
    | pick _ _ he' => rcases he' with rfl | ⟨v, rfl⟩ <;> exact he.elim
    | execGo hk hexec => cases hexec <;> exact he.elim
    | execDone hk hexec => cases hexec <;> exact he.elim
    | _ => exact he.elim

/-- What the moving thread knows after its step. -/
theorem MeetInv.own (h : MeetInv K s) (hv : Valid K s) (hacts : s.Acts K t alt c e th) :
    th.Unmet K (s.move K t c e th).mem := by
  have hunmet := h.threads t
  cases hacts with
  | @direct id c op pc pc' e hth hact =>
    rw [hth] at hunmet
    intro hpc hcap
    -- the opposite queue was found empty in this step or in the one before it, which took nothing from
    -- it and put nothing into it
    have hempty : (s.mem.chan c).queue op.side.other = [] ∧ ∀ q, e.queueAfter q = q := by
      have hok := hv.direct_ok hth
      have hblocks : 0 < (K.chan c).capacity → False := fun hpos => by omega
      cases Pc.flow_of_act hact with
      | meetEmptySend hqueue hop hblock => exact ⟨hqueue, fun _ => rfl⟩
      | meetEmptyRecv hqueue hop => exact ⟨hqueue, fun _ => rfl⟩
      | emptyOpen hopen hblock => exact ⟨hunmet rfl hcap, fun _ => rfl⟩
      | serveStopBlock | serveEmptyBlock | servePutBackBlock => exact (hblocks hok.1).elim
      | _ => cases hpc
    show ((s.mem.apply K t c e).chan c).queue op.side.other = []
    rw [Mem.queue_apply, if_pos rfl, hempty.2]
    exact hempty.1
  | @select id cases timeout pc pc' c d e hth hact =>
    rw [hth] at hunmet
    have hafter : pc'.Unmet K s.mem id cases := by
      apply SelPc.unmet_of_act hact hunmet
      intro k hk hscans hcap hclosed
      exact h.recv_eq_nil hv hth (SelPc.held_of_scans hscans hk) hcap hclosed
    cases hscan : pc'.scans with
    | false => exact SelPc.unmet_of_not_scans hscan
    | true =>
      have hflow := SelPc.flow_of_act hact
      have henters := (SelPc.scans_of_flow hflow hscan).2
      apply hafter.mono
      · intro k hk halone hcap w hw
        rcases Sys.mem_queue_cases hw with hw | ⟨-, he⟩
        · exact halone hcap w hw
        · exact henters _ w he
      · intro k hk hopen
        refine Bool.eq_false_iff.2 fun hclosed => ?_
        rcases Sys.closed_move.1 hclosed with hold | ⟨-, rfl⟩
        · cases hold.symm.trans hopen
        · cases hflow with
          | pick _ _ he => rcases he with he | ⟨v, he⟩ <;> cases he
          | execGo hk hexec => cases hexec
          | execDone hk hexec => cases hexec

/-- What another thread knows after the step: it holds the locks of the queues it has looked at. -/
theorem MeetInv.other (h : MeetInv K s) (hv : Valid K s) {u : T} (hu : u ≠ t)
    (hnext : (s.thread t).Next K s.mem c th e) (hacts : s.Acts K t alt c e th) :
    (s.thread u).Unmet K (s.move K t c e th).mem := by
  have hunmet := h.threads u
  cases hth : s.thread u with
  | idle => trivial
  | direct id d op pc =>
    rw [hth] at hunmet
    intro hpc hcap
    have hlocked : pc.locked = true := by
      cases pc with
      | emptyClosed => rfl
      | enroll => rfl
      | _ => cases hpc
    have hheld : d ∈ (s.thread u).holds K := Sys.held_of_locked hth hlocked
    rw [hv.locks.queue_move hnext hu hheld]
    exact hunmet hpc hcap
  | select id cases timeout pc =>
    rw [hth] at hunmet
    cases hscan : pc.scans with
    | false => exact SelPc.unmet_of_not_scans hscan
    | true =>
      have hheld : ∀ k ∈ cases, k.chan ∈ (s.thread u).holds K := by
        intro k hk
        rw [hth]
        exact SelPc.held_of_scans hscan hk
      apply hunmet.mono
      · intro k hk halone hcap
        rw [hv.locks.queue_move hnext hu (hheld k hk)]
        exact halone hcap
      · intro k hk hopen
        exact Sys.open_move hv.locks hu (hheld k hk) hacts hopen

theorem MeetInv.move (h : MeetInv K s) (hv : Valid K s) (hnext : (s.thread t).Next K s.mem c th e)
    (hacts : s.Acts K t alt c e th) : MeetInv K (s.move K t c e th) where
  threads u := by
    by_cases hu : u = t
    · subst hu
      rw [Sys.thread_move_self]
      exact h.own hv hacts
    · rw [Sys.thread_move_of_ne hu]
      exact h.other hv hu hnext hacts
  met d hcap w hw w' hw' := by
    -- a waiter that enters finds only its own call opposite, and an effect has one waiter enter
    rcases Sys.mem_queue_cases hw with hold | ⟨rfl, he⟩
    · rcases Sys.mem_queue_cases hw' with hold' | ⟨rfl, he'⟩
      · exact h.met d hcap w hold w' hold'
      · exact (h.unmet_of_enters hv hacts hcap he').1 w hold
    · rcases Sys.mem_queue_cases hw' with hold' | ⟨-, he'⟩
      · exact ((h.unmet_of_enters hv hacts hcap he).1 w' hold').symm
      · cases e <;> first | exact he.elim | (cases he.1; cases he'.1)
  drained d hcap hclosed hqueue := by
    obtain ⟨w, hw⟩ := List.exists_mem_of_ne_nil _ hqueue
    rcases Sys.mem_queue_cases hw with hw | ⟨rfl, he⟩
    · have hbefore : (s.mem.chan d).queue .recv ≠ [] := List.ne_nil_of_mem hw
      exact Sys.drains_move hacts (fun hold => h.drained d hcap hold hbefore) hbefore hclosed
    · have hopen := (h.unmet_of_enters hv hacts hcap he).2 rfl
      rcases Sys.closed_move.1 hclosed with hold | ⟨-, rfl⟩
      · cases hold.symm.trans hopen
      · exact he.elim

omit [DecidableEq C] [DecidableEq T] in
theorem Thread.Unmet.congr {m m' : Mem T C α} (h : th.Unmet K m) (hchan : m'.chan = m.chan) :
    th.Unmet K m' := by
  cases th with
  | idle => trivial
  | direct id d op pc =>
    intro hpc hcap
    rw [hchan]
    exact h hpc hcap
  | select id cases timeout pc =>
    apply SelPc.Unmet.mono h
    · intro k _ halone
      rwa [Case.Alone, hchan]
    · intro k _ hopen
      rwa [hchan]

omit [DecidableEq C] [DecidableEq T] in
theorem Pc.not_registers_of_begins {id : Nat} {op : Op α} {pc : Pc α} (h : Pc.Begins id op pc) :
    pc.registers = false := by
  cases h <;> rfl

omit [DecidableEq C] in
theorem SelPc.not_scans_of_begins {cases : List (Case C α)} {pc : SelPc C α}
    (h : SelPc.Begins cases pc) : pc.scans = false := by
  cases h with
  | invalid => rfl
  | scan hstep => cases hstep <;> rfl

omit [DecidableEq T] in
theorem Thread.unmet_startThread (m : Mem T C α) (id : Nat) (k : Call C α) :
    (Sys.startThread K id k).Unmet K m := by
  cases k with
  | direct d op =>
    intro hpc
    rw [Pc.not_registers_of_begins (Pc.begins_entry (K.chan d) id op)] at hpc
    cases hpc
  | select cases timeout =>
    exact SelPc.unmet_of_not_scans (SelPc.not_scans_of_begins (SelPc.begins_entry cases))

theorem MeetInv.step (h : MeetInv K s) (hv : Valid K s) (hstep : s.Stepped K l s') :
    MeetInv K s' := by
  cases hstep with
  | @call t k hidle =>
    refine ⟨fun u => ?_, h.met, fun c hcap hclosed hqueue => ?_⟩
    · by_cases hu : u = t
      · subst hu
        rw [Sys.thread_startCall_self]
        exact Thread.unmet_startThread _ _ _
      · rw [Sys.thread_startCall_of_ne hu]
        exact (h.threads u).congr rfl
    · obtain ⟨u, id, op, pc, hu, hpc⟩ := h.drained c hcap hclosed hqueue
      have hut : u ≠ t := by
        rintro rfl
        cases hidle.symm.trans hu
      exact ⟨u, id, op, pc, (Sys.thread_startCall_of_ne hut).trans hu, hpc⟩
  | @ret t alt id r out hdone hret =>
    refine ⟨fun u => ?_, h.met, fun c hcap hclosed hqueue => ?_⟩
    · by_cases hu : u = t
      · subst hu
        rw [Sys.thread_finishCall_self]
        trivial
      · rw [Sys.thread_finishCall_of_ne hu]
        exact h.threads u
    · obtain ⟨u, id', op, pc, hu, hpc⟩ := h.drained c hcap hclosed hqueue
      have hut : u ≠ t := by
        rintro rfl
        cases hret with
        | direct hth =>
          cases hu.symm.trans hth
          cases hpc
        | select hth => cases hu.symm.trans hth
      exact ⟨u, id', op, pc, (Sys.thread_finishCall_of_ne hut).trans hu, hpc⟩
  | move hnext hacts => exact h.move hv hnext hacts

omit [DecidableEq T] in
/-- A call that waits on both sides of a channel is a select. -/
theorem Sound.select_of_both_sides (hs : Sound K s) {w' : Wid} (hw : s.Owned c .send w)
    (hw' : s.Owned c .recv w') (hcall : w.call = w'.call) : s.mem.selectState w.call ≠ none := by
  intro hnone
  obtain ⟨t, ht⟩ := hw
  obtain ⟨t', ht'⟩ := hw'
  have hid := Thread.id_of_waits ht
  obtain rfl : t = t' := hs.calls.id_inj t t' w'.call (hcall ▸ hid) (Thread.id_of_waits ht')
  cases hth : s.thread t with
  | idle => rw [hth] at ht; exact ht
  | direct id d op pc =>
    rw [hth] at ht ht'
    cases ht.2.1.trans ht'.2.1.symm
  | select id cases timeout pc =>
    have hsel := hs.calls.state t w.call hid
    rw [hnone, hth] at hsel
    cases hsel

omit [DecidableEq T] in
/-- The queues of an unbuffered channel in `Sys`. -/
theorem MeetInv.queues (h : MeetInv K s) (hv : Valid K s) (hcap : (K.chan c).capacity = 0) :
    (s.mem.chan c).queue .send = [] ∨ (s.mem.chan c).queue .recv = [] ∨
      ∃ id, s.mem.selectState id ≠ none ∧ ∀ o, ∀ w ∈ (s.mem.chan c).queue o, w.call = id := by
  have hmet := h.met c hcap
  rcases hsend : (s.mem.chan c).queue .send with _ | ⟨w, q⟩
  · exact .inl rfl
  rcases hrecv : (s.mem.chan c).queue .recv with _ | ⟨w', q'⟩
  · exact .inr (.inl rfl)
  have hw : w ∈ (s.mem.chan c).queue .send := by rw [hsend]; exact List.mem_cons_self
  have hw' : w' ∈ (s.mem.chan c).queue .recv := by rw [hrecv]; exact List.mem_cons_self
  have hcall := hmet w hw w' hw'
  refine .inr (.inr ⟨w.call, ?_, ?_⟩)
  · exact hv.toSound.select_of_both_sides (hv.queues.queue c _ w hw).owned
      (hv.queues.queue c _ w' hw').owned hcall
  · rintro (_ | _) v hv'
    · exact (hmet v hv' w' hw').trans hcall.symm
    · exact (hmet w hw v hv').symm

/-! ## Parked opposite each other -/

/-- The thread is parked with its waiter `w` of the channel, its park is not signalled and nobody is about
to signal it. -/
structure Sys.Left (s : Sys T C α) (t : T) (c : C) (o : ChanOp) (w : Wid) : Prop where
  parked : (s.thread t).parked = true
  waits : (s.thread t).Waits c o w
  unsignaled : s.mem.signaled w.call = false
  unclaimed : ¬ s.InHands w.call

omit [DecidableEq T] [DecidableEq C] in
/-- Where a parked direct call waits. -/
theorem Thread.waits_of_parked {th : Thread C α} {id : Nat} {op : Op α}
    (hcall : th.call? = some (id, .direct c op)) (h : th.parked = true) :
    th.Waits c op.side ⟨id, 0⟩ := by
  cases th with
  | idle => cases hcall
  | select => cases hcall
  | direct id' d op' pc =>
    cases hcall
    cases pc with
    | park => exact ⟨rfl, rfl, rfl, rfl⟩
    | repark => exact ⟨rfl, rfl, rfl, rfl⟩
    | _ => cases h

omit [DecidableEq T] [DecidableEq C] in
theorem Sys.not_inHands {id : Nat} (h : ∀ u, (s.thread u).hand.isNone = true) : ¬ s.InHands id := by
  rintro ⟨u, w, st, hhand, -⟩
  cases (Option.isNone_iff_eq_none.1 (h u)).symm.trans hhand

omit [DecidableEq T] [DecidableEq C] in
/-- A call that is left parked is in the queue, unless it is a select that has been claimed. -/
theorem Sys.Left.queued (h : s.Left t c o w) (hwait : WaitInv s) (hdirect : DirectWaitInv s) :
    w ∈ (s.mem.chan c).queue o ∨ s.mem.selectState w.call = some true := by
  cases hsel : (s.thread t).isSelect with
  | true => exact hwait t c o w hsel h.waits
  | false =>
    rcases hdirect t c o w hsel h.waits with hw | hhands | hsig
    · exact .inl hw
    · exact absurd hhands h.unclaimed
    · cases h.unsignaled.symm.trans hsig

omit [DecidableEq T] in
/-- Two calls that are left parked opposite each other: one is a select that has been claimed. -/
theorem MeetInv.left (h : MeetInv K s) (hv : Valid K s) (hwait : WaitInv s) (hdirect : DirectWaitInv s)
    (hcap : (K.chan c).capacity = 0) {u : T} {w' : Wid} (hne : t ≠ u) (hsend : s.Left t c .send w)
    (hrecv : s.Left u c .recv w') :
    s.mem.selectState w.call = some true ∨ s.mem.selectState w'.call = some true := by
  rcases hsend.queued hwait hdirect with hw | hstate
  swap
  · exact .inl hstate
  rcases hrecv.queued hwait hdirect with hw' | hstate
  swap
  · exact .inr hstate
  have hid := Thread.id_of_waits hsend.waits
  rw [h.met c hcap w hw w' hw'] at hid
  exact absurd (hv.calls.id_inj t u w'.call hid (Thread.id_of_waits hrecv.waits)) hne

omit [DecidableEq T] in
/-- What is left parked looks so through the view. -/
theorem StackInv.left {r : StackSys T C α} (h : StackInv K r) (hleft : r.seen.Left t c o w) :
    r.sys.Left t c o w ∧ r.seen.mem.selectState w.call = r.sys.mem.selectState w.call := by
  obtain ⟨-, hsig, hstate⟩ := (h.placed t w (Thread.live_of_waits hleft.waits)).view_eq
  exact ⟨⟨hleft.parked, hleft.waits, hsig.symm.trans hleft.unsignaled, hleft.unclaimed⟩, hstate⟩

/-- Runs in which no call sets up its waiters in a frame that somebody is still about to signal. In every
state, whether the lock of the unbuffered channel is free or not, one of its queues is empty or all waiters
of both are stubs of one select. A sender and a receiver of different threads are not left parked opposite
each other, unless one of them is a select that has been claimed and not been signalled; if no stub of a
select is put back into its queue in the run, there is no such select. -/
theorem no_missed_rendezvous (K : Config T C) (slots : C → U32 → α)
    (ok : StackSys T C α → StackLabel T C α → Prop) (hreuse : ∀ r l, ok r l → r.ReuseOk l)
    (r : StackSys T C α) (hrun : Reaches (StackSys.step K) ok (StackSys.init slots) r) (c : C)
    (hcap : (K.chan c).capacity = 0) :
    ((r.seen.mem.chan c).queue .send = [] ∨ (r.seen.mem.chan c).queue .recv = [] ∨
      ∃ id, r.seen.mem.selectState id ≠ none ∧ ∀ o, ∀ w ∈ (r.seen.mem.chan c).queue o, w.call = id) ∧
    (∀ t t' w w', t ≠ t' → r.seen.Left t c .send w → r.seen.Left t' c .recv w' →
      r.seen.mem.selectState w.call = some true ∨ r.seen.mem.selectState w'.call = some true) ∧
    ((∀ r l, ok r l → Sys.When Thread.putBackOk r.seen l.label) →
      ∀ t t' w w', t ≠ t' → r.seen.Left t c .send w → ¬ r.seen.Left t' c .recv w') := by
  -- what the third part assumes of the run holds of the run of `Sys` too
  obtain ⟨hsys, hinv⟩ := StackSys.reaches_sys
    (fun s l => (∀ r l, ok r l → Sys.When Thread.putBackOk r.seen l.label) → Sys.When Thread.putBackOk s l)
    (.init slots)
    (fun r l _ h => ⟨hreuse r l h, fun hput => StackSys.putBackOk_iff.1 (hput r l h)⟩) hrun
  obtain ⟨hv, hmeet, hwait, hdirect, hclaim⟩ := Sys.valid hsys
    (P := fun s => MeetInv K s ∧ WaitInv s ∧ DirectWaitInv s ∧
      ((∀ r l, ok r l → Sys.When Thread.putBackOk r.seen l.label) → ClaimInv s))
    ⟨MeetInv.init slots, WaitInv.init slots, DirectWaitInv.init slots, fun _ => ClaimInv.init slots⟩
    fun _ _ _ hv h hok hstep => ⟨h.1.step hv hstep, h.2.1.step hv.toSound hstep,
      h.2.2.1.step hv.toSound hstep, fun hput => (h.2.2.2 hput).step (hok hput) hstep⟩
  have hleft : ∀ t t' w w', t ≠ t' → r.seen.Left t c .send w → r.seen.Left t' c .recv w' →
      r.seen.mem.selectState w.call = some true ∨ r.seen.mem.selectState w'.call = some true := by
    intro t t' w w' hne hsend hrecv
    obtain ⟨hsend, hstate⟩ := hinv.left hsend
    obtain ⟨hrecv, hstate'⟩ := hinv.left hrecv
    rw [hstate, hstate']
    exact hmeet.left hv hwait hdirect hcap hne hsend hrecv
  refine ⟨?_, hleft, ?_⟩
  · show r.queue c .send = [] ∨ r.queue c .recv = [] ∨ ∃ id, (r.sys.mem.selectState id).map _ ≠ none ∧
      ∀ o, ∀ w ∈ r.queue c o, w.call = id
    simp only [hinv.queue_eq, ne_eq, Option.map_eq_none_iff]
    exact hmeet.queues hv hcap
  · intro hput t t' w w' hne hsend hrecv
    have hfate : ∀ t o w, r.seen.Left t c o w → r.seen.mem.selectState w.call ≠ some true := by
      intro t o w h hstate
      obtain ⟨hsys, heq⟩ := hinv.left h
      rcases hclaim hput w.call (heq.symm.trans hstate) with hsig | hhands
      · cases hsys.unsignaled.symm.trans hsig
      · exact hsys.unclaimed hhands
    rcases hleft t t' w w' hne hsend hrecv with hstate | hstate
    · exact hfate t .send w hsend hstate
    · exact hfate t' .recv w' hrecv hstate

end Inv

/-- A select that waits to send and to receive on one channel has its stubs in both queues. They are the
only waiters there, and nobody else is left parked to receive. An earlier select of the thread has had the
same frame and has expired. -/
theorem no_missed_rendezvous_both_sides : ∃ r : StackSys (Fin 2) Unit Nat,
    Reaches (StackSys.step unbufferedOne) (fun r l => Sys.When Thread.putBackOk r.seen l.label ∧
        r.ReuseOk l) (StackSys.init fun _ _ => 0) r ∧
      (r.home 1 = r.home 0 ∧ (r.seen.mem.chan ()).queue .send = [⟨1, 0⟩] ∧
        (r.seen.mem.chan ()).queue .recv = [⟨1, 1⟩]) ∧
      ((r.seen.mem.chan ()).queue .send = [] ∨ (r.seen.mem.chan ()).queue .recv = [] ∨
        ∃ id, r.seen.mem.selectState id ≠ none ∧ ∀ o, ∀ w ∈ (r.seen.mem.chan ()).queue o, w.call = id) ∧
      r.seen.Left 0 () .send ⟨1, 0⟩ ∧ ∀ t w, 0 ≠ t → ¬ r.seen.Left t () .recv w := by
  obtain ⟨r, hrun, hqueues, ⟨hcall, hpark⟩, hsig, hhands⟩ := StackSys.exists_reaches unbufferedOne
    (fun _ _ => (0 : Nat)) (fun r l => Sys.When Thread.putBackOk r.seen l.label ∧ r.ReuseOk l)
    (List.flatten [
      [.call 0 (.select [⟨(), some 7⟩, ⟨(), none⟩] 5) 0], List.replicate 11 (.go 0 false),
      [.go 0 true], List.replicate 8 (.go 0 false),
      [.call 0 (.select [⟨(), some 8⟩, ⟨(), none⟩] (-1)) 0], List.replicate 11 (.go 0 false)])
    (fun r => (r.home 1 = r.home 0 ∧ (r.seen.mem.chan ()).queue .send = [⟨1, 0⟩] ∧
        (r.seen.mem.chan ()).queue .recv = [⟨1, 1⟩]) ∧
      ((r.seen.thread 0).call? = some (1, .select [⟨(), some 8⟩, ⟨(), none⟩] (-1)) ∧
        (r.seen.thread 0).parked = true) ∧
      r.seen.mem.signaled 1 = false ∧ ∀ u, (r.seen.thread u).hand.isNone = true) (by decide +kernel)
  obtain ⟨hmet, -, hnone⟩ :=
    no_missed_rendezvous unbufferedOne _ _ (fun _ _ h => h.2) r hrun () rfl
  have hleft : r.seen.Left 0 () .send ⟨1, 0⟩ := by
    refine ⟨hpark, ?_, hsig, Sys.not_inHands hhands⟩
    rw [Thread.select_of_parked hcall hpark]
    exact ⟨rfl, rfl, _, rfl, rfl, rfl⟩
  exact ⟨r, hrun, hqueues, hmet, hleft, fun t w hne => hnone (fun _ _ h => h.1) 0 t _ w hne hleft⟩

/-- Three threads and one unbuffered channel. -/
def unbufferedTrio : Config (Fin 3) Unit where
  chan _ := ChanCfg.create 0
  addr _ := 0
  spinLimit := 0
  self _ := 1

/-- A receiver takes the element of a send with timeout and stops before it signals. The send expires and
returns; the next send of the thread parks in the same frame and returns by the late signal, with its
waiter still queued. Another sender parks behind that waiter. When the thread sends once more its waiter is
initialised again: its link is cleared, and it is what a receiver finds. The queue then leads to nobody,
and the next receiver parks opposite the sender that was behind. -/
theorem rendezvous_missed : ∃ r : StackSys (Fin 3) Unit Nat,
    Reaches (StackSys.step unbufferedTrio) Always (StackSys.init fun _ _ => 0) r ∧
      ((r.seen.mem.chan ()).lock = none ∧ r.seen.mem.selectState 3 = none ∧
        r.seen.mem.selectState 6 = none) ∧
      r.seen.Left 2 () .send ⟨3, 0⟩ ∧ r.seen.Left 1 () .recv ⟨6, 0⟩ := by
  obtain ⟨r, hrun, hlock, ⟨hcall₂, hpark₂, hsig₂⟩, ⟨hcall₁, hpark₁, hsig₁⟩, hhands⟩ :=
    StackSys.exists_reaches unbufferedTrio (fun _ _ => (0 : Nat)) Always
    (List.flatten [
      [.call 0 (.direct () (.send 7 5)) 0], List.replicate 5 (.go 0 false),
      [.call 1 (.direct () (.recv (-1))) 1], List.replicate 4 (.go 1 false),
      [.go 0 true], List.replicate 5 (.go 0 false),
      [.call 0 (.direct () (.send 8 5)) 0], List.replicate 5 (.go 0 false),
      List.replicate 2 (.go 1 false),
      List.replicate 3 (.go 0 false),
      [.call 2 (.direct () (.send 9 (-1))) 2], List.replicate 5 (.go 2 false),
      [.call 0 (.direct () (.send 10 5)) 0], List.replicate 5 (.go 0 false),
      [.call 1 (.direct () (.recv (-1))) 1], List.replicate 6 (.go 1 false),
      List.replicate 3 (.go 0 false),
      [.call 1 (.direct () (.recv (-1))) 1], List.replicate 5 (.go 1 false)])
    (fun r => ((r.seen.mem.chan ()).lock = none ∧ r.seen.mem.selectState 3 = none ∧
        r.seen.mem.selectState 6 = none) ∧
      ((r.seen.thread 2).call? = some (3, .direct () (.send 9 (-1))) ∧
        (r.seen.thread 2).parked = true ∧ r.seen.mem.signaled 3 = false) ∧
      ((r.seen.thread 1).call? = some (6, .direct () (.recv (-1))) ∧
        (r.seen.thread 1).parked = true ∧ r.seen.mem.signaled 6 = false) ∧
      ∀ u, (r.seen.thread u).hand.isNone = true) (by decide +kernel)
  exact ⟨r, hrun, hlock,
    ⟨hpark₂, Thread.waits_of_parked hcall₂ hpark₂, hsig₂, Sys.not_inHands hhands⟩,
    ⟨hpark₁, Thread.waits_of_parked hcall₁ hpark₁, hsig₁, Sys.not_inHands hhands⟩⟩

end LibChan
