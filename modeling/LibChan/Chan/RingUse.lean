import LibChan.Chan.Stubs

/-!
# The ring operations of the threads

`Thread.ring?` is the ring operation a thread is in, with its channel. A step either is the next
access of that operation, or starts one, or has nothing to do with rings (`Sys.Acts.ring`): on each
channel the threads run the machine of the shared ring. The waiters of the reserved positions are
noted (`GotInv`), and buffers are written for them only (`Sys.Acts.data`).
-/

set_option autoImplicit false

namespace LibChan

variable {T C α : Type}

/-- The ring operation of a direct call on its channel. -/
def Pc.ring? : Pc α → Option (RingPc Wid α)
  | fastRing _ p | burstRing p | slowRing p | recheck p | backRing p => some p
  | serve _ (.ring _ p) | helpRing _ p | closeRing _ p => some p
  | _ => none

/-- The ring operation inside `execute_case_locked`. -/
def ExecPc.ring? : ExecPc α → Option (RingPc Wid α)
  | ring p | helpRing _ p => some p
  | _ => none

/-- The ring operation of a select, with its channel. -/
def SelPc.ring? (cases : List (Case C α)) : SelPc C α → Option (C × RingPc Wid α)
  | fast2 start j (.ring p) => (cases[index2 cases start j]?).map fun k => (k.chan, p)
  | exec i st => (cases[i]?).bind fun k => st.ring?.map fun p => (k.chan, p)
  | _ => none

/-- The ring operation a thread is in, with its channel. -/
def Thread.ring? : Thread C α → Option (C × RingPc Wid α)
  | idle => none
  | direct _ c _ pc => pc.ring?.map fun p => (c, p)
  | select _ cases _ pc => pc.ring? cases

/-- The step is an access to a ring by one of the four shared operations. -/
def Effect.isRing : Effect α → Bool
  | .ring _ _ => true
  | _ => false

/-- How a step of a thread uses the ring of channel `c`. -/
inductive Thread.RingStep (K : Config T C) (m : Mem T C α) (alt : Bool) (c : C)
    (th th' : Thread C α) : Effect α → Prop
  /-- The next access of the operation, which goes on. -/
  | inside {p p' : RingPc Wid α} (hring : th.ring? = some (c, p))
      (hp : m.access K c alt p = .inl p') (hring' : th'.ring? = some (c, p')) :
      RingStep K m alt c th th' (.ring alt p)
  /-- The last access of the operation. -/
  | last {p : RingPc Wid α} {res : RingRes α} (hring : th.ring? = some (c, p))
      (hp : m.access K c alt p = .inr res) (hring' : th'.ring? = none) :
      RingStep K m alt c th th' (.ring alt p)
  /-- The thread starts an operation. -/
  | start {e : Effect α} {op : RingOp Wid α} (hring : th.ring? = none)
      (he : e.isRing = false) (hop : op.Valid)
      (hring' : th'.ring? = some (c, .loadHead op)) : RingStep K m alt c th th' e
  | away {e : Effect α} (hring : th.ring? = none) (he : e.isRing = false)
      (hring' : th'.ring? = none) : RingStep K m alt c th th' e

section Direct

variable {K : Config T C} {m : Mem T C α} {id : Nat} {c : C} {op : Op α} {alt : Bool}
  {pc pc' : Pc α} {e : Effect α}

theorem Pc.ringStep_of_flow (hok : pc'.Ok (K.chan c) id op)
    (hflow : Pc.Flow K m id c op alt pc e pc') :
    Thread.RingStep K m alt c (.direct id c op pc) (.direct id c op pc') e := by
  have hblocks : Blocks op pc' → (Thread.direct id c op pc').ring? = none := by
    intro hb
    cases hb <;> rfl
  cases hflow with
  | fastIn hp => exact .inside rfl hp rfl
  | fastHit hp hres | fastMiss hp hres | fastMissSlow hp hres hop => exact .last rfl hp rfl
  | burstIn hp => exact .inside rfl hp rfl
  | burstHit hp hres => exact .last rfl hp rfl
  | burstMiss hp hres => exact .last rfl hp rfl
  | serveIn hp => exact .inside rfl hp rfl
  | serveHit hp hres => exact .last rfl hp rfl
  | serveMiss hp hres => exact .last rfl hp rfl
  | slowIn hp => exact .inside rfl hp rfl
  | slowSendHit hp hres hop | slowSendMiss hp hres hop | slowRecvHit hp hres hop
  | slowRecvMiss hp hres hop => exact .last rfl hp rfl
  | helpIn hp => exact .inside rfl hp rfl
  | helpHit hp hres => exact .last rfl hp rfl
  | helpMiss hp hres => exact .last rfl hp rfl
  | recheckIn hp => exact .inside rfl hp rfl
  | recheckHit hp hres => exact .last rfl hp rfl
  | recheckMiss hp hres => exact .last rfl hp rfl
  | backIn hp => exact .inside rfl hp rfl
  | backHit hp hres | backMissSend hp hres hop | backMissRecv hp hres hop => exact .last rfl hp rfl
  | closeIn hp => exact .inside rfl hp rfl
  | closeHit hp hres => exact .last rfl hp rfl
  | closeMiss hp hres => exact .last rfl hp rfl
  | cntRecv hcnt => exact .start rfl rfl hok.2.2.2.2 rfl
  | burstOpen hopen | serveClaim hqueue hclaim hrop | slowBuffered hfree hop hcap
  | slowOpenRing hopen hcap => exact .start rfl rfl hok.2.2.2 rfl
  | helpClaim hqueue hclaim hrop => exact .start rfl rfl hok.2.2.2.2 rfl
  | enrollRing hcap | expBackRecv hback hmem hop | backOpenSend hopen hop
  | closeClaimRing hqueue hclaim hcap => exact .start rfl rfl hok.2.2.2 rfl
  | serveStopBlock hstop hblock | serveEmptyBlock hqueue hblock | servePutBackBlock hblock
  | meetEmptySend hqueue hop hblock | emptyOpen hopen hblock => exact .away rfl rfl (hblocks hblock)
  | _ => exact .away rfl rfl rfl

end Direct

section Select

variable [DecidableEq C] {K : Config T C} {m : Mem T C α} {t : T} {id : Nat}
  {cases : List (Case C α)} {timeout : Int} {alt : Bool} {pc pc' : SelPc C α} {c : C}
  {e : Effect α}

omit [DecidableEq C] in
theorem SelPc.ring_of_step1 (h : Step1 cases pc) : pc.ring? cases = none := by
  cases h <;> rfl

theorem SelPc.ring_of_step2 {start : Nat} (h : Step2 K cases start pc) : pc.ring? cases = none := by
  cases h <;> rfl

theorem SelPc.ring_of_passes {rdy : List Nat} (h : Passes K cases timeout rdy pc) :
    pc.ring? cases = none := by
  cases h <;> rfl

omit [DecidableEq C] in
theorem SelPc.ring_fast2 {start j : Nat} {k : Case C α} {p : RingPc Wid α}
    (hk : cases[index2 cases start j]? = some k) :
    (fast2 start j (.ring p)).ring? cases = some (k.chan, p) := by
  rw [ring?, hk]
  rfl

omit [DecidableEq C] in
theorem SelPc.ring_exec {i : Nat} {k : Case C α} (hk : cases[i]? = some k) (st : ExecPc α) :
    (exec i st).ring? cases = st.ring?.map fun p => (k.chan, p) := by
  rw [ring?, hk]
  rfl

theorem SelPc.ringStep_of_flow (hok : pc'.Ok K id cases)
    (hflow : SelPc.Flow K m t id cases timeout alt pc c e pc') :
    Thread.RingStep K m alt c (.select id cases timeout pc) (.select id cases timeout pc') e := by
  cases hflow with
  | fast2In hk hp => exact .inside (ring_fast2 hk) hp (ring_fast2 hk)
  | fast2Hit hk hp hres => exact .last (ring_fast2 hk) hp rfl
  | fast2Miss hk hp hres hstep => exact .last (ring_fast2 hk) hp (ring_of_step2 hstep)
  | fast2Recv hk hcnt hop =>
    obtain ⟨k', hk', -, hruns⟩ := hok
    exact .start rfl rfl (hruns _ rfl).2 (ring_fast2 hk)
  | fast2Open hk hopen =>
    obtain ⟨k', hk', -, hruns⟩ := hok
    exact .start rfl rfl (hruns _ rfl).2 (ring_fast2 hk)
  | @pick rdy i k e st hk hmem he hst =>
    have hnot : e.isRing = false := by
      rcases he with rfl | ⟨v, rfl⟩ <;> rfl
    obtain ⟨k', hk', hok⟩ := hok
    cases st with
    | ring p =>
      unfold execFrom at hst
      split at hst
      · cases hst
      · split at hst
        · split at hst
          · cases hst
            exact .start rfl hnot (Case.valid_ringOp _ _) (ring_exec hk _)
          · cases hst
        · cases hst
    | helpRing w p =>
      unfold execFrom at hst
      split at hst
      · cases hst
      · split at hst
        · split at hst <;> cases hst
        · cases hst
    | _ => exact .away rfl hnot (ring_exec hk _)
  | @execGo i k st st' e hk hexec =>
    obtain ⟨k', hk', hok⟩ := hok
    cases hexec with
    | ringIn hp => exact .inside (ring_exec hk _) hp (ring_exec hk _)
    | ringOut hp => exact .last (ring_exec hk _) hp (ring_exec hk _)
    | helpIn hp => exact .inside (ring_exec hk _) hp (ring_exec hk _)
    | helpOut hp => exact .last (ring_exec hk _) hp (ring_exec hk _)
    | go hgo => exact .start (ring_exec hk _) rfl (Case.valid_ringOp _ _) (ring_exec hk _)
    | emptySendRing hqueue hop hcap =>
      exact .start (ring_exec hk _) rfl (Case.valid_ringOp _ _) (ring_exec hk _)
    | helpRecv hop hqueue hclaim hrop =>
      exact .start (ring_exec hk _) rfl (serves_of_serveOp hrop).valid (ring_exec hk _)
    | _ => exact .away (ring_exec hk _) rfl (ring_exec hk _)
  | @execDone i k st e r hk hexec =>
    cases hexec <;> exact .away (ring_exec hk _) rfl rfl
  | fast1Skip hk hstep => exact .away rfl rfl (ring_of_step1 hstep)
  | fast2Start hstep => exact .away rfl rfl (ring_of_step2 hstep)
  | fast2Skip hk hcnt hstep => exact .away rfl rfl (ring_of_step2 hstep)
  | pass hpass | readyNot hk hpass | readySend hk hop hopen hpass | readyShut hk hop hclosed hpass
  | readyYes hk hst hpass => exact .away rfl rfl (ring_of_passes hpass)
  | _ => exact .away rfl rfl rfl

end Select

section Acts

variable [DecidableEq C] {K : Config T C} {s : Sys T C α} {t : T} {alt : Bool} {c : C}
  {e : Effect α} {th : Thread C α}

/-- How a step uses the ring of its channel. -/
theorem Sys.Acts.ring (hacts : s.Acts K t alt c e th) (hok : (s.thread t).Ok K) :
    Thread.RingStep K s.mem alt c (s.thread t) th e := by
  have hok' := hok.acts hacts
  cases hacts with
  | direct hth hact =>
    rw [hth]
    exact Pc.ringStep_of_flow hok' (Pc.flow_of_act hact)
  | select hth hact =>
    rw [hth]
    exact SelPc.ringStep_of_flow hok' (SelPc.flow_of_act hact)

/-- A thread that accesses a ring is in a ring operation there. -/
theorem Sys.Acts.ring_of_effect {weak : Bool} {p : RingPc Wid α}
    (hacts : s.Acts K t alt c (.ring weak p) th) (hok : (s.thread t).Ok K) :
    (s.thread t).ring? = some (c, p) := by
  cases hacts.ring hok with
  | inside hring => exact hring
  | last hring => exact hring
  | start _ he => cases he
  | away _ he => cases he

end Acts

/-! ## Buffers -/

/-- The buffer a step writes, with the element written. -/
def Effect.writes {T : Type} (cap : RingCap) (ch : Chan T α) : Effect α → Option (Wid × α)
  | .ring _ p => copyTarget cap ch.ring p
  | .spsc p => spscTarget cap ch.ring p
  | .pair _ b _ x => some (b, x)
  | _ => Option.none

theorem data_fillBuffer (ws : Wid → Waiter α) (x : Option (Wid × α)) (w : Wid)
    (h : ∀ y, x ≠ some (w, y)) : (fillBuffer ws x w).data = (ws w).data := by
  cases x with
  | none => rfl
  | some x =>
    have hw : w ≠ x.1 := by
      rintro rfl
      exact h x.2 rfl
    rw [fillBuffer, Function.update_of_ne hw]

theorem data_fillBuffer_self (ws : Wid → Waiter α) (w : Wid) (x : α) :
    (fillBuffer ws (some (w, x)) w).data = some x := by
  rw [fillBuffer, Function.update_self]

theorem Waiter.data_setResult (ws : Wid → Waiter α) (v w : Wid) (r : ChanErr) :
    (Function.update ws v { ws v with result := r } w).data = (ws w).data := by
  rw [Function.update_apply]
  split
  · next heq => rw [heq]
  · rfl

section Data

variable [DecidableEq T] [DecidableEq C] (K : Config T C) (m : Mem T C α) (t : T) (c : C)
  (e : Effect α) (w : Wid)

/-- A step that writes to another buffer or to none leaves a buffer as it is. -/
theorem Mem.data_apply (h : ∀ x, e.writes (K.chan c).ringCap (m.chan c) ≠ some (w, x)) :
    ((m.apply K t c e).waiter w).data = (m.waiter w).data := by
  cases e with
  | ring weak p => exact data_fillBuffer _ _ _ h
  | spsc p => exact data_fillBuffer _ _ _ h
  | enroll o v | stub o v | settle v r => exact Waiter.data_setResult _ _ w _
  | pair a b v x =>
    have hw : w ≠ b := by
      rintro rfl
      exact h x rfl
    refine (Waiter.data_setResult _ _ w _).trans ?_
    rw [Function.update_of_ne hw]
  | _ => rfl

/-- What a step writes to a buffer. -/
theorem Mem.data_apply_self {x : α}
    (h : e.writes (K.chan c).ringCap (m.chan c) = some (w, x)) :
    ((m.apply K t c e).waiter w).data = some x := by
  cases e with
  | ring weak p =>
    refine Eq.trans ?_ (data_fillBuffer_self m.waiter w x)
    rw [← (show copyTarget (K.chan c).ringCap (m.chan c).ring p = some (w, x) from h)]
    rfl
  | spsc p =>
    refine Eq.trans ?_ (data_fillBuffer_self m.waiter w x)
    rw [← (show spscTarget (K.chan c).ringCap (m.chan c).ring p = some (w, x) from h)]
    rfl
  | pair a b v y =>
    cases h
    refine (Waiter.data_setResult _ _ w _).trans ?_
    rw [Function.update_self]
  | _ => cases h

end Data

/-- Whose ring operation a thread is in: that of its own call, or that of the waiter in its hands. -/
inductive Thread.RingFor (c : C) : Thread C α → RingPc Wid α → Prop
  | single {id : Nat} {op : Op α} {pc : Pc α} {p : RingPc Wid α} (hop : op.single = true)
      (hruns : p.Runs (op.ringOp id)) : RingFor c (.direct id c op pc) p
  | burst {id : Nat} {op : Op α} {pc : Pc α} {p : RingPc Wid α} (hop : op.burst = true)
      (hruns : p.Runs (op.burstOp id)) : RingFor c (.direct id c op pc) p
  | case {id : Nat} {cases : List (Case C α)} {timeout : Int} {pc : SelPc C α} {p : RingPc Wid α}
      {i : Nat} {k : Case C α} (hk : cases[i]? = some k) (hchan : k.chan = c)
      (hruns : p.Runs (k.ringOp ⟨id, i⟩)) : RingFor c (.select id cases timeout pc) p
  | waiter {th : Thread C α} {p : RingPc Wid α} {w : Wid} {o : ChanOp}
      (hhand : th.hand = some (w, .claimed c o)) (hserves : p.Serves w o) : RingFor c th p

theorem Thread.ringFor {K : Config T C} {th : Thread C α} {c : C} {p : RingPc Wid α}
    (hok : th.Ok K) (hring : th.ring? = some (c, p)) : th.RingFor c p := by
  cases th with
  | idle => cases hring
  | direct id d op pc =>
    obtain ⟨q, hq, heq⟩ := Option.map_eq_some_iff.1 hring
    cases heq
    cases pc with
    | fastRing spin q => cases hq; exact .single hok.1 hok.2.2.2
    | burstRing q => cases hq; exact .burst hok.1 hok.2.2
    | slowRing q | recheck q | backRing q => cases hq; exact .single hok.1 hok.2.2
    | serve k st =>
      cases st with
      | ring w q => cases hq; exact .waiter rfl hok.2.2
      | _ => cases hq
    | helpRing w q => cases hq; exact .waiter rfl hok.2.2.2
    | closeRing w q => cases hq; exact .waiter rfl hok.2.2
    | _ => cases hq
  | select id cases timeout pc =>
    cases pc with
    | fast2 start j st =>
      cases st with
      | ring q =>
        obtain ⟨k, hk, heq⟩ := Option.map_eq_some_iff.1 hring
        cases heq
        obtain ⟨k', hk', -, hruns⟩ := hok
        cases hk.symm.trans hk'
        exact .case hk rfl (hruns _ rfl)
      | _ => cases hring
    | exec i st =>
      obtain ⟨k, hk, hrest⟩ := Option.bind_eq_some_iff.1 hring
      obtain ⟨q, hq, heq⟩ := Option.map_eq_some_iff.1 hrest
      cases heq
      obtain ⟨k', hk', hok⟩ := hok
      cases hk.symm.trans hk'
      cases st with
      | ring q => cases hq; exact .case hk rfl hok.2
      | helpRing w q =>
        cases hq
        refine .waiter (w := w) (o := .send) ?_ hok.2.2
        show (cases[i]?.bind fun k => SelPc.execHand k (.helpRing w p)) = _
        rw [hk, Option.bind_some, SelPc.execHand, hok.2.1]
        rfl
      | _ => cases hq
    | _ => cases hring

/-- The ring operations in progress ask for what their operation wants. -/
theorem Thread.fit_of_ring {K : Config T C} {th : Thread C α} {c : C} {p : RingPc Wid α}
    (hok : th.Ok K) (hring : th.ring? = some (c, p)) : p.Fit := by
  cases Thread.ringFor hok hring with
  | single hop hruns => exact hruns.2
  | burst hop hruns => exact hruns.2
  | case hk hchan hruns => exact hruns.2
  | waiter hhand hserves => exact hserves.2

/-- A ring access writes to the buffers of reserved positions. -/
theorem RingPc.mem_got_of_copyTarget {cap : RingCap} {r : Ring α} {p : RingPc Wid α} {w : Wid}
    {x : α} (hfit : p.Fit) (h : copyTarget cap r p = some (w, x)) : w ∈ p.got := by
  cases p with
  | copy op a k i acc =>
    obtain ⟨v, hv, heq⟩ := Option.map_eq_some_iff.1 h
    cases heq
    rw [got, RingOp.take_wids]
    refine List.mem_append_right _ (List.mem_of_getElem? (i := i) ?_)
    rw [List.getElem?_take, if_pos hfit.2.1]
    exact hv
  | _ => cases h

/-- The buffers a step writes: those of positions reserved before, those of the elements it moves, and
that of its own call. -/
theorem Sys.Acts.writes [DecidableEq C] {K : Config T C} {s : Sys T C α} {t : T} {alt : Bool}
    {c : C} {e : Effect α} {th : Thread C α} {w : Wid} {x : α} (hacts : s.Acts K t alt c e th)
    (hok : (s.thread t).Ok K)
    (hw : e.writes (K.chan c).ringCap (s.mem.chan c) = some (w, x)) :
    (∃ p, (s.thread t).ring? = some (c, p) ∧ w ∈ p.got) ∨ w ∈ (s.mem.chan c).grants e ∨
      (s.thread t).id? = some w.call ∧ (s.thread t).isSelect = false := by
  cases e with
  | ring weak p =>
    have hring := hacts.ring_of_effect hok
    exact Or.inl ⟨p, hring, RingPc.mem_got_of_copyTarget (Thread.fit_of_ring hok hring) hw⟩
  | spsc p =>
    refine Or.inr (Or.inr ?_)
    cases hacts with
    | @direct id c op pc pc' e hth hact =>
      rw [hth] at hok ⊢
      refine ⟨?_, rfl⟩
      have hop : p.op = op.ringOp id := by
        cases Pc.flow_of_act hact <;> exact hok.2.2.2
      have hmem : w ∈ (op.ringOp id).wids := by
        rw [← hop]
        cases p with
        | copy rop a =>
          obtain ⟨v, hv, heq⟩ := Option.map_eq_some_iff.1 hw
          cases heq
          exact List.mem_append_right _ (List.mem_of_getElem? hv)
        | _ => cases hw
      rw [Op.call_of_ringOp hmem]
      rfl
    | select hth hact =>
      cases SelPc.flow_of_act hact with
      | pick _ _ he => rcases he with he | ⟨v, he⟩ <;> cases he
      | execGo _ hexec => cases hexec
      | execDone _ hexec => cases hexec
  | pair a b v y =>
    cases hw
    exact Or.inr (Or.inl (List.mem_cons_of_mem _ List.mem_cons_self))
  | _ => cases hw

/-! ## Runs -/

section Run

variable [DecidableEq T] [DecidableEq C] {K : Config T C} {s s' : Sys T C α} {l : Label T C α}

theorem Chan.took_move {t : T} {c d : C} {e : Effect α} {th : Thread C α} {w : Wid}
    (h : (s.mem.chan d).Took w) : ((s.move K t c e th).mem.chan d).Took w := by
  by_cases hd : d = c
  · subst hd
    refine (congrArg (Chan.Took · w) (Mem.chan_apply_self K s.mem t d e)).mpr ?_
    exact ((s.mem.chan d).took_apply _ t e w).2 (Or.inl h)
  · refine (congrArg (Chan.Took · w) (Mem.chan_apply_of_ne K s.mem t c e hd)).mpr ?_
    exact h

/-- The waiters of reserved positions are noted in the channel, and the buffers of a select are
written only for noted stubs. -/
structure GotInv (s : Sys T C α) : Prop where
  ring : ∀ t c p, (s.thread t).ring? = some (c, p) → ∀ w ∈ p.got, (s.mem.chan c).Took w
  data : ∀ id t cases timeout, .call id t (.select cases timeout) ∈ s.events → ∀ i,
    (s.mem.waiter ⟨id, i⟩).data = (cases[i]?).bind Case.elem ∨ s.mem.Took ⟨id, i⟩

omit [DecidableEq T] [DecidableEq C] in
theorem GotInv.init (slots : C → U32 → α) : GotInv (Sys.init slots : Sys T C α) where
  ring _ _ _ h := by cases h
  data _ _ _ _ h := by cases h

omit [DecidableEq T] in
theorem Thread.ring_startThread (id : Nat) (k : Call C α) :
    (Sys.startThread K id k).ring? = none ∨
      ∃ c op, (Sys.startThread K id k).ring? = some (c, .loadHead op) := by
  cases k with
  | direct c op =>
    simp only [Sys.startThread, Thread.ring?]
    have hbegins := Pc.begins_entry (K.chan c) id op
    revert hbegins
    generalize Pc.entry (K.chan c) id op = pc
    intro hbegins
    cases hbegins with
    | burst => exact Or.inr ⟨_, _, rfl⟩
    | _ => exact Or.inl rfl
  | select cases timeout =>
    refine Or.inl ?_
    simp only [Sys.startThread, Thread.ring?]
    have hbegins := SelPc.begins_entry cases
    revert hbegins
    generalize SelPc.entry cases = pc
    rintro (_ | hstep)
    · rfl
    · exact SelPc.ring_of_step1 hstep

theorem GotInv.step (h : GotInv s) (hs : Sound K s) (hstep : s.Stepped K l s') : GotInv s' := by
  cases hstep with
  | @call t k hidle =>
    constructor
    · intro u c p hring w hw
      by_cases hu : u = t
      · rw [hu, Sys.thread_startCall_self] at hring
        rcases Thread.ring_startThread (K := K) s.next k with hnone | ⟨d, op, hsome⟩
        · cases hnone.symm.trans hring
        · cases hsome.symm.trans hring
          cases hw
      · rw [Sys.thread_startCall_of_ne hu] at hring
        exact h.ring u c p hring w hw
    · intro id u cases timeout hcall i
      rcases Sys.mem_events_startCall.1 hcall with hold | heq
      · have hne : id ≠ s.next := Nat.ne_of_lt (hs.hist.call_lt _ _ _ hold)
        have hsame : ((s.startCall K t k).mem.waiter ⟨id, i⟩).data =
            (s.mem.waiter ⟨id, i⟩).data := by
          simp only [Sys.startCall, if_neg hne]
        rw [hsame]
        exact h.data id u cases timeout hold i
      · cases heq
        refine Or.inl ?_
        simp only [Sys.startCall, if_true, Sys.startWaiter]
  | @ret t alt id r out hdone hret =>
    constructor
    · intro u c p hring w hw
      by_cases hu : u = t
      · rw [hu, Sys.thread_finishCall_self] at hring
        cases hring
      · rw [Sys.thread_finishCall_of_ne hu] at hring
        exact h.ring u c p hring w hw
    · intro id' u cases timeout hcall i
      rcases Sys.mem_events_finishCall.1 hcall with hold | heq
      · exact h.data id' u cases timeout hold i
      · cases heq
  | @move t alt c e th hnext hacts =>
    have hok := hs.ok t
    constructor
    · intro u d p hring w hw
      by_cases hu : u = t
      · rw [hu, Sys.thread_move_self] at hring
        cases hacts.ring hok with
        | inside hold hp hring' =>
          cases hring'.symm.trans hring
          rw [RingPc.got_of_inl hp] at hw
          refine (congrArg (Chan.Took · w) (Mem.chan_apply_self K s.mem t c _)).mpr ?_
          refine ((s.mem.chan c).took_apply _ t _ w).2 ?_
          rcases List.mem_append.1 hw with hw | hw
          · exact Or.inl (h.ring t c _ hold w hw)
          · exact Or.inr hw
        | last _ _ hring' => cases hring'.symm.trans hring
        | start _ _ _ hring' =>
          cases hring'.symm.trans hring
          cases hw
        | away _ _ hring' => cases hring'.symm.trans hring
      · rw [Sys.thread_move_of_ne hu] at hring
        exact Chan.took_move (h.ring u d p hring w hw)
    · intro id u cases timeout hcall i
      by_cases hwrites : ∃ x, e.writes (K.chan c).ringCap (s.mem.chan c) = some (⟨id, i⟩, x)
      · refine Or.inr ?_
        obtain ⟨x, hx⟩ := hwrites
        rcases hacts.writes hok hx with ⟨p, hring, hgot⟩ | hgrant | ⟨hid, hsel⟩
        · exact Sys.took_move.2 (Or.inl ⟨c, h.ring t c p hring _ hgot⟩)
        · exact Sys.took_move.2 (Or.inr hgrant)
        · -- the call is a select, so this is not its thread
          obtain ⟨k, hk⟩ := Thread.call_of_id hid
          obtain ⟨-, rfl⟩ := hs.hist.call_inj _ _ _ _ _ (hs.hist.running t _ _ hk) hcall
          cases hth : s.thread t with
          | idle =>
            rw [hth] at hk
            cases hk
          | direct id' c' op pc =>
            rw [hth] at hk
            cases hk
          | select id' cases' timeout' pc =>
            rw [hth] at hsel
            cases hsel
      · rw [show ((s.move K t c e th).mem.waiter ⟨id, i⟩).data = (s.mem.waiter ⟨id, i⟩).data from
          Mem.data_apply K s.mem t c e _ (not_exists.1 hwrites)]
        exact (h.data id u cases timeout hcall i).imp_right fun htook =>
          Sys.took_move.2 (Or.inl htook)

end Run

end LibChan
