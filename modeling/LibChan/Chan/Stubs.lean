import LibChan.Chan.Account

/-!
# The stubs of a select

A select that has registered its stubs shares one state with everyone who may claim one of them, so at
most one of its stubs is ever claimed. `Sys.Stubs` says what this means for the results of the stubs,
for the hands they are in and for the elements moved on their behalf, and `SelPc.Inv` what holds at
the other places of a select. Both hold in every run (`SelectInv`).
-/

set_option autoImplicit false

namespace LibChan

variable {T C α : Type}

/-- Nothing has been moved for a stub, and it has no result. -/
structure Sys.Untouched (s : Sys T C α) (w : Wid) : Prop where
  took : ¬ s.mem.Took w
  result : (s.mem.waiter w).result = .wouldblock

/-- The registered stubs of the select `id` with `n` cases. -/
structure Sys.Stubs (s : Sys T C α) (id n : Nat) : Prop where
  one : ∃ i₀, ∀ i, i ≠ i₀ → s.Untouched ⟨id, i⟩ ∧ ∀ t st, (s.thread t).hand ≠ some (⟨id, i⟩, st)
  free : s.mem.selectState id = some false → ∀ i, s.Untouched ⟨id, i⟩
  value : ∀ i, (s.mem.waiter ⟨id, i⟩).result = .wouldblock ∨
    (s.mem.waiter ⟨id, i⟩).result = .ok ∨ (s.mem.waiter ⟨id, i⟩).result = .closed
  hand : ∀ t w st, (s.thread t).hand = some (w, st) → w.call = id →
    w.idx < n ∧ ((∃ c o, st = .claimed c o) ∨ (s.mem.waiter w).result ≠ .wouldblock)
  signal : s.mem.signaled id = true → ∃ i < n, (s.mem.waiter ⟨id, i⟩).result ≠ .wouldblock
  took : ∀ i, s.mem.Took ⟨id, i⟩ → (s.mem.waiter ⟨id, i⟩).result = .ok ∨
    ∃ t c o, (s.thread t).hand = some (⟨id, i⟩, .claimed c o) ∧ ⟨id, i⟩ ∈ (s.thread t).handGot

/-- A select that returns an index has done nothing for its other cases; one that returns `-1` may
have done something for one case. -/
def Sys.Decided (s : Sys T C α) (id : Nat) : Ret → Prop
  | .sel (some i) _ => ∀ j, j ≠ i → s.Untouched ⟨id, j⟩
  | _ => ∃ i, ∀ j, j ≠ i → s.Untouched ⟨id, j⟩

/-- A select that has no registered stubs has moved elements for the stubs in `ws` only. -/
def Sys.Unregistered (s : Sys T C α) (id : Nat) (ws : List Wid) : Prop :=
  ∀ i, (s.mem.waiter ⟨id, i⟩).result = .wouldblock ∧ (s.mem.Took ⟨id, i⟩ → ⟨id, i⟩ ∈ ws)

/-- What the cleanup has found in the first `i` stubs. -/
structure Sys.Winner (s : Sys T C α) (id i : Nat) (winner : Option Nat) : Prop where
  none : winner = none → ∀ j < i, (s.mem.waiter ⟨id, j⟩).result = .wouldblock
  some : ∀ j, winner = some j → (s.mem.waiter ⟨id, j⟩).result ≠ .wouldblock

/-- What holds of the stubs of a select at its places. -/
def SelPc.Inv (s : Sys T C α) (id n : Nat) : SelPc C α → Prop
  | unlockAll _ (.ret r) => s.Decided id r
  | ret r => s.Decided id r
  | unlockAll _ .park => s.Stubs id n
  | park => s.Stubs id n
  | lockAll _ (.clean woken) => s.Stubs id n ∧ (woken = true → s.mem.signaled id = true)
  | clean i woken winner =>
    s.Stubs id n ∧ (woken = true → s.mem.signaled id = true) ∧ s.Winner id i winner
  | pc => s.Unregistered id (pc.got id)

/-- The stubs of all selects, running and returned. -/
structure SelectInv (s : Sys T C α) : Prop where
  running : ∀ t id cases timeout pc, s.thread t = .select id cases timeout pc →
    pc.Inv s id cases.length
  returned : ∀ id cases timeout r out, s.Answered id (.select cases timeout) r out → s.Decided id r
  fresh : ∀ w, s.next ≤ w.call → ¬ s.mem.Took w

/-! ## What one step does to results and hands -/

section Moves

variable [DecidableEq C] {K : Config T C} {m : Mem T C α} {c : C} {th₀ th : Thread C α}
  {e : Effect α} {w : Wid}

/-- A step writes the result of a waiter of another call only if it settles it. -/
theorem Move.result_cases (h : Move K m c th₀ th e) (hid : th₀.id? ≠ some w.call) (r : ChanErr) :
    e.resultAfter w r = r ∨ ∃ o, th₀.hand = some (w, .claimed c o) ∧
      th.hand = some (w, .settled c o) ∧ ((∃ r', e = .settle w r') ∨ ∃ a b x, e = .pair a b w x) := by
  cases h with
  | quiet he => exact Or.inl (by cases e <;> first | rfl | exact he.elim)
  | @self v r' _ _ _ _ hown =>
    refine Or.inl (if_neg ?_)
    rintro rfl
    exact hid hown
  | lock | unlock | claim | drop => exact Or.inl rfl
  | @enter _ o v he _ _ _ _ hown =>
    have hne : w ≠ v := by
      rintro rfl
      exact hid hown
    rcases he with ⟨rfl | rfl, -⟩ | ⟨rfl, -⟩
    · exact Or.inl (if_neg hne)
    · exact Or.inl rfl
    · exact Or.inl (if_neg hne)
  | leave | skip | woken | putBack => exact Or.inl rfl
  | @settle _ o v he _ _ hhand hhand' =>
    by_cases hw : w = v
    · subst hw
      refine Or.inr ⟨o, hhand, hhand', ?_⟩
      exact he
    · rcases he with ⟨r', rfl⟩ | ⟨a, b, x, rfl⟩
      · exact Or.inl (if_neg hw)
      · exact Or.inl (if_neg hw)
  | wake => exact Or.inl rfl

/-- How a waiter comes into the hands of a thread and on to the next stage. -/
theorem Move.hand_cases (h : Move K m c th₀ th e) {st : Stage C} (hw : th.hand = some (w, st)) :
    th₀.hand = some (w, st) ∨ (st = .late ∧ ∃ o, th₀.hand = some (w, .settled c o)) ∨
      (∃ o, st = .settled c o ∧ th₀.hand = some (w, .claimed c o) ∧
        ((∃ r', e = .settle w r') ∨ ∃ a b x, e = .pair a b w x)) ∨
      ∃ o, e = .claim o w ∧ st = .claimed c o ∧ w ∈ (m.chan c).queue o ∧ m.claimable w = true := by
  cases h with
  | quiet _ _ hhand => exact Or.inl (hhand ▸ hw)
  | self _ _ hhand' => cases hhand'.symm.trans hw
  | lock _ _ _ hhand' => cases hhand'.symm.trans hw
  | unlock _ hhand =>
    rcases hhand with ⟨-, hhand'⟩ | ⟨v, o, hhand, hhand'⟩
    · cases hhand'.symm.trans hw
    · cases hhand'.symm.trans hw
      exact Or.inr (Or.inl ⟨rfl, o, hhand⟩)
  | claim hqueue hclaim _ _ _ hhand' =>
    cases hhand'.symm.trans hw
    refine Or.inr (Or.inr (Or.inr ⟨_, rfl, rfl, ?_, hclaim⟩))
    rw [hqueue]
    exact List.mem_cons_self
  | drop _ _ _ _ hhand => exact Or.inl (hhand ▸ hw)
  | enter _ _ _ _ hhand' | leave _ _ _ hhand' | skip _ _ _ _ hhand' | woken _ _ _ _ hhand'
  | putBack _ _ _ hhand' => cases hhand'.symm.trans hw
  | settle he _ _ hhand hhand' =>
    cases hhand'.symm.trans hw
    exact Or.inr (Or.inr (Or.inl ⟨_, rfl, hhand, he⟩))
  | wake _ _ _ hhand' => cases hhand'.symm.trans hw

end Moves

section Places

variable [DecidableEq C] {K : Config T C} {s : Sys T C α} {t : T} {alt : Bool} {c : C}
  {e : Effect α} {th : Thread C α} {w : Wid}

/-- A waiter is settled with `CHAN_OK` or `CHAN_ERR_CLOSED`. -/
theorem Sys.Acts.settle_value {r : ChanErr} (hacts : s.Acts K t alt c (.settle w r) th)
    (hok : (s.thread t).Ok K) : r = .ok ∨ r = .closed := by
  cases hacts with
  | direct hth hact =>
    rw [hth] at hok
    cases Pc.flow_of_act hact with
    | serveSettle => exact Or.inl rfl
    | helpSettle => exact Or.inl rfl
    | backSettle => exact hok.2.2
    | closeSettle => exact hok.2
  | select hth hact =>
    rw [hth] at hok
    cases SelPc.flow_of_act hact with
    | pick _ _ he => rcases he with he | ⟨v, he⟩ <;> cases he
    | execGo hk hexec =>
      cases hexec
      exact Or.inl rfl
    | execDone hk hexec => cases hexec

omit [DecidableEq C] in
/-- What is noted in hand is in hand. -/
theorem Thread.hand_of_handGot (hok : th.Ok K) (hw : w ∈ th.handGot) :
    ∃ c o, th.hand = some (w, .claimed c o) := by
  have hring : ∀ {p : RingPc Wid α} {v : Wid} {o : ChanOp}, p.Serves v o → w ∈ p.got → w = v := by
    intro p v o hserves hgot
    have hmem := RingPc.mem_wids_of_got hgot
    rw [RingOp.wids_of_serves hserves.1] at hmem
    exact List.mem_singleton.1 hmem
  cases th with
  | idle => cases hw
  | direct id c op pc =>
    cases pc with
    | serve k st =>
      cases st with
      | ring v p =>
        cases hring hok.2.2 hw
        exact ⟨_, _, rfl⟩
      | settle v =>
        cases List.mem_singleton.1 hw
        exact ⟨_, _, rfl⟩
      | _ => cases hw
    | helpRing v p =>
      cases hring hok.2.2.2 hw
      exact ⟨_, _, rfl⟩
    | helpSettle v =>
      cases List.mem_singleton.1 hw
      exact ⟨_, _, rfl⟩
    | closeRing v p =>
      cases hring hok.2.2 hw
      exact ⟨_, _, rfl⟩
    | closeSettle o v r =>
      cases r with
      | ok =>
        cases List.mem_singleton.1 hw
        exact ⟨_, _, rfl⟩
      | _ => cases hw
    | _ => cases hw
  | select id cases timeout pc =>
    cases pc with
    | exec i st =>
      obtain ⟨k, hk, hok⟩ := hok
      cases st with
      | helpRing v p =>
        cases hring hok.2.2 hw
        exact ⟨_, _, by rw [Thread.hand, SelPc.hand, hk]; rfl⟩
      | helpSettle v =>
        cases List.mem_singleton.1 hw
        exact ⟨_, _, by rw [Thread.hand, SelPc.hand, hk]; rfl⟩
      | _ => cases hw
    | fast2 start j st => cases st <;> cases hw
    | _ => cases hw

omit [DecidableEq C] in
theorem Thread.handGot_eq_nil (hok : th.Ok K) (hhand : th.hand = none) : th.handGot = [] := by
  refine List.eq_nil_iff_forall_not_mem.2 fun w hw => ?_
  obtain ⟨c, o, hw⟩ := Thread.hand_of_handGot hok hw
  cases hhand.symm.trans hw

end Places

/-! ## Steps of other threads -/

section Other

variable [DecidableEq T] [DecidableEq C] {K : Config T C} {s : Sys T C α} {t : T} {alt : Bool}
  {c : C} {e : Effect α} {th : Thread C α} {id n : Nat}

theorem Sys.took_move {w : Wid} : (s.move K t c e th).mem.Took w ↔
    s.mem.Took w ∨ w ∈ (s.mem.chan c).grants e := Mem.took_apply K s.mem t c e w

theorem Sys.result_move {w : Wid} : ((s.move K t c e th).mem.waiter w).result =
    e.resultAfter w (s.mem.waiter w).result := Mem.result_apply K s.mem t c e w

/-- A step leaves a stub alone that is neither its own nor in its hands. -/
theorem Sys.Untouched.move {w : Wid} (h : s.Untouched w) (hok : (s.thread t).Ok K)
    (hnext : (s.thread t).Next K s.mem c th e) (hacts : s.Acts K t alt c e th)
    (hid : (s.thread t).id? ≠ some w.call)
    (hhand : ∀ o, (s.thread t).hand ≠ some (w, .claimed c o)) :
    (s.move K t c e th).Untouched w := by
  constructor
  · intro htook
    rcases Sys.took_move.1 htook with hold | hgrant
    · exact h.took hold
    · rcases hacts.grants hok hgrant with ⟨hown, -⟩ | ⟨o, hclaimed, -⟩
      · exact hid hown
      · exact hhand o hclaimed
  · rw [Sys.result_move]
    rcases hnext.move.result_cases hid (s.mem.waiter w).result with hsame | ⟨o, hclaimed, -⟩
    · rw [hsame]
      exact h.result
    · exact absurd hclaimed (hhand o)

/-- A result of another call changes only when its claimed stub is settled. -/
theorem Sys.result_of_other {w : Wid} (hok : (s.thread t).Ok K)
    (hnext : (s.thread t).Next K s.mem c th e) (hacts : s.Acts K t alt c e th)
    (hid : (s.thread t).id? ≠ some w.call) :
    ((s.move K t c e th).mem.waiter w).result = (s.mem.waiter w).result ∨
      (∃ o, (s.thread t).hand = some (w, .claimed c o)) ∧
      (((s.move K t c e th).mem.waiter w).result = .ok ∨
        ((s.move K t c e th).mem.waiter w).result = .closed) := by
  rw [Sys.result_move]
  rcases hnext.move.result_cases hid (s.mem.waiter w).result with
    hsame | ⟨o, hclaimed, -, ⟨r, rfl⟩ | ⟨a, b, x, rfl⟩⟩
  · exact Or.inl hsame
  · refine Or.inr ⟨⟨o, hclaimed⟩, ?_⟩
    rw [Effect.resultAfter, if_pos rfl]
    exact hacts.settle_value hok
  · refine Or.inr ⟨⟨o, hclaimed⟩, Or.inl ?_⟩
    rw [Effect.resultAfter, if_pos rfl]

theorem Effect.free_of_stateAfter {st : Option Bool} (h : e.stateAfter id st = some false) :
    st = some false := by
  cases e with
  | claim o w =>
    rw [Effect.stateAfter] at h
    split at h
    · obtain ⟨b, -, hb⟩ := Option.map_eq_some_iff.1 h
      cases hb
    · exact h
  | _ => exact h

/-- The registered stubs of a select while another thread moves. -/
theorem Sys.Stubs.move (h : s.Stubs id n) (hs : Sound K s)
    (hnext : (s.thread t).Next K s.mem c th e) (hacts : s.Acts K t alt c e th)
    (hid : (s.thread t).id? ≠ some id) (hsel : s.mem.selectState id ≠ none)
    (hlen : ∀ d o w, s.Owned d o w → w.call = id → w.idx < n) :
    (s.move K t c e th).Stubs id n := by
  have hok := hs.ok t
  have hok' := hok.acts hacts
  have hwb : ∀ u w d o, (s.thread u).hand = some (w, .claimed d o) → w.call = id →
      (s.mem.waiter w).result = .wouldblock := by
    rintro u w d o hu rfl
    exact (hs.queues.claimed u w d o hu).2 hsel
  have hbusy : ∀ u i st, (s.thread u).hand = some (⟨id, i⟩, st) →
      s.mem.selectState id ≠ some false := fun u i st hu => (hs.queues.hand u _ st hu).state
  have hres : ∀ i, _ := fun i => Sys.result_of_other (w := ⟨id, i⟩) hok hnext hacts hid
  have hkeep : ∀ w, w.call = id → (s.mem.waiter w).result ≠ .wouldblock →
      ((s.move K t c e th).mem.waiter w).result ≠ .wouldblock := by
    rintro w rfl hne
    rcases Sys.result_of_other hok hnext hacts hid with hsame | ⟨-, hval | hval⟩
    · rwa [hsame]
    · rw [hval]
      exact nofun
    · rw [hval]
      exact nofun
  have hnoted : ∀ w, w ∈ th.handGot → ∃ u d o, ((s.move K t c e th).thread u).hand =
      some (w, .claimed d o) ∧ w ∈ ((s.move K t c e th).thread u).handGot := by
    intro w hw
    obtain ⟨d, o, hhand⟩ := Thread.hand_of_handGot hok' hw
    refine ⟨t, d, o, ?_⟩
    rw [Sys.thread_move_self]
    exact ⟨hhand, hw⟩
  refine ⟨?_, ?_, ?_, ?_, ?_, ?_⟩
  · -- a claim picks the one stub; without one the old pick stays
    by_cases hcl : ∃ o w, e = .claim o w ∧ w.call = id
    · obtain ⟨o, w, rfl, rfl⟩ := hcl
      obtain ⟨-, hclaim, hth⟩ := hnext.move.claim_cases
      have hstate : s.mem.selectState w.call = some false := by
        rw [Mem.claimable] at hclaim
        cases hst : s.mem.selectState w.call with
        | none => exact absurd hst hsel
        | some b =>
          cases b with
          | false => rfl
          | true =>
            rw [hst] at hclaim
            cases hclaim
      refine ⟨w.idx, fun i hi => ⟨?_, ?_⟩⟩
      · exact (h.free hstate i).move hok hnext hacts hid fun o' ho' => hbusy t i _ ho' hstate
      · intro u st hu
        rcases Sys.hand_move hu with ⟨-, hmine⟩ | ⟨-, hother⟩
        · have heq := (Prod.mk.inj (Option.some.inj (hth.symm.trans hmine))).1
          exact hi (congrArg Wid.idx heq).symm
        · exact hbusy u i st hother hstate
    · obtain ⟨i₀, h₀⟩ := h.one
      refine ⟨i₀, fun i hi => ⟨?_, ?_⟩⟩
      · exact (h₀ i hi).1.move hok hnext hacts hid fun o ho => (h₀ i hi).2 t _ ho
      · intro u st hu
        rcases Sys.hand_move hu with ⟨-, hmine⟩ | ⟨-, hother⟩
        · rcases hnext.move.hand_cases hmine with
            hold | ⟨-, o, hold⟩ | ⟨o, -, hold, -⟩ | ⟨o, rfl, -⟩
          · exact (h₀ i hi).2 t _ hold
          · exact (h₀ i hi).2 t _ hold
          · exact (h₀ i hi).2 t _ hold
          · exact hcl ⟨o, _, rfl, rfl⟩
        · exact (h₀ i hi).2 u st hother
  · intro hst i
    have hstate : s.mem.selectState id = some false :=
      Effect.free_of_stateAfter ((Mem.selectState_apply K s.mem t c e id).symm.trans hst)
    exact (h.free hstate i).move hok hnext hacts hid fun o ho => hbusy t i _ ho hstate
  · intro i
    rcases hres i with hsame | ⟨-, hval⟩
    · rw [hsame]
      exact h.value i
    · exact Or.inr hval
  · intro u w st hu hw
    rcases Sys.hand_move hu with ⟨-, hmine⟩ | ⟨-, hother⟩
    · rcases hnext.move.hand_cases hmine with
        hold | ⟨rfl, o, hold⟩ | ⟨o, rfl, hold, he⟩ | ⟨o, rfl, rfl, hmem, -⟩
      · obtain ⟨hlt, hst⟩ := h.hand t w st hold hw
        exact ⟨hlt, hst.imp_right (hkeep w hw)⟩
      · obtain ⟨hlt, ⟨d, o', hst⟩ | hst⟩ := h.hand t w _ hold hw
        · cases hst
        · exact ⟨hlt, Or.inr (hkeep w hw hst)⟩
      · refine ⟨(h.hand t w _ hold hw).1, Or.inr ?_⟩
        rw [Sys.result_move]
        rcases he with ⟨r, rfl⟩ | ⟨a, b, x, rfl⟩
        · rw [Effect.resultAfter, if_pos rfl]
          rcases hacts.settle_value hok with rfl | rfl <;> exact nofun
        · rw [Effect.resultAfter, if_pos rfl]
          exact nofun
      · exact ⟨hlen c o w (hs.queues.queue c o w hmem).owned hw, Or.inl ⟨c, o, rfl⟩⟩
    · obtain ⟨hlt, hst⟩ := h.hand u w st hother hw
      exact ⟨hlt, hst.imp_right (hkeep w hw)⟩
  · intro hsig
    have hsig' := (Mem.signaled_apply K s.mem t c e id).symm.trans hsig
    have hold : s.mem.signaled id = true ∨ ∃ w, e = .wake w ∧ w.call = id := by
      cases e with
      | wake w =>
        rw [Effect.signalAfter] at hsig'
        split at hsig'
        · next hw => exact Or.inr ⟨w, rfl, hw.symm⟩
        · exact Or.inl hsig'
      | _ => exact Or.inl hsig'
    rcases hold with hold | ⟨w, rfl, rfl⟩
    · obtain ⟨i, hi, hne⟩ := h.signal hold
      exact ⟨i, hi, hkeep ⟨id, i⟩ rfl hne⟩
    · obtain ⟨st, hhand, hst⟩ := hnext.move.wake_cases
      obtain ⟨hlt, hcase⟩ := h.hand t w st hhand rfl
      exact ⟨w.idx, hlt, hkeep w rfl (hcase.resolve_left hst)⟩
  · intro i htook
    rcases Sys.took_move.1 htook with hold | hgrant
    · rcases h.took i hold with hval | ⟨u, d, o, hhand, hgot⟩
      · rcases hres i with hsame | ⟨⟨o, hclaimed⟩, -⟩
        · exact Or.inl (hsame.trans hval)
        · rw [hwb t _ c o hclaimed rfl] at hval
          cases hval
      · by_cases hu : u = t
        · subst hu
          rcases hacts.handGot hok hgot with hgot' | rfl
          · exact Or.inr (hnoted _ hgot')
          · refine Or.inl ?_
            rw [Sys.result_move, Effect.resultAfter, if_pos rfl]
        · refine Or.inr ⟨u, d, o, ?_⟩
          rw [Sys.thread_move_of_ne hu]
          exact ⟨hhand, hgot⟩
    · rcases hacts.grants hok hgrant with ⟨hown, -⟩ | ⟨o, hclaimed, hgot | hsettled⟩
      · exact absurd hown hid
      · exact Or.inr (hnoted _ hgot)
      · refine Or.inl ?_
        rcases hnext.move.hand_cases hsettled with
          hold | ⟨hst, -⟩ | ⟨o', -, -, ⟨r, rfl⟩ | ⟨a, b, x, rfl⟩⟩ | ⟨o', -, hst, -⟩
        · cases hclaimed.symm.trans hold
        · cases hst
        · cases hgrant
        · rw [Sys.result_move, Effect.resultAfter, if_pos rfl]
        · cases hst

/-- The places of a select at which its stubs may be in the hands of others. -/
def SelPc.registered : SelPc C α → Bool
  | unlockAll _ .park | park | lockAll _ (.clean _) | clean _ _ _ => true
  | _ => false

omit [DecidableEq T] in
/-- The stubs of a select that has not registered them, or is done with them, are not claimed. -/
theorem Sound.not_claimed (hs : Sound K s) {u u' : T} {cases : List (Case C α)} {timeout : Int}
    {pc : SelPc C α} (hth : s.thread u = .select id cases timeout pc)
    (hreg : pc.registered = false) {w : Wid} {d : C} {o : ChanOp}
    (hhand : (s.thread u').hand = some (w, .claimed d o)) : w.call ≠ id := by
  rintro rfl
  have hwaits := Sys.waits_of_owned hs.calls (hs.queues.claimed u' w d o hhand).1
    (t := u) (by rw [hth]; rfl)
  rw [hth] at hwaits
  cases pc with
  | stub j =>
    -- the locks keep the registered stubs from the others
    exact (hs.queues.hidden u w.call (by rw [hth]; rfl) (by rw [hth]; rfl)).2 u' w _ hhand rfl
  | unlockAll cs k =>
    cases k with
    | ret r => cases hwaits.2.1
    | park => cases hreg
  | lockAll cs k =>
    cases k with
    | ready => cases hwaits.2.1
    | clean woken => cases hreg
  | park => cases hreg
  | clean i woken winner => cases hreg
  | _ => cases hwaits.2.1

omit [DecidableEq C] [DecidableEq T] in
theorem Sys.Decided.mono {s' : Sys T C α} {r : Ret} (h : s.Decided id r)
    (hsame : ∀ j, s.Untouched ⟨id, j⟩ → s'.Untouched ⟨id, j⟩) : s'.Decided id r := by
  unfold Sys.Decided at h ⊢
  split at h
  · exact fun j hj => hsame j (h j hj)
  · obtain ⟨i, h⟩ := h
    exact ⟨i, fun j hj => hsame j (h j hj)⟩

theorem Sys.Decided.move {r : Ret} (h : s.Decided id r) (hok : (s.thread t).Ok K)
    (hnext : (s.thread t).Next K s.mem c th e) (hacts : s.Acts K t alt c e th)
    (hid : (s.thread t).id? ≠ some id)
    (hhand : ∀ w o, (s.thread t).hand = some (w, .claimed c o) → w.call ≠ id) :
    (s.move K t c e th).Decided id r :=
  h.mono fun _ hj => hj.move hok hnext hacts hid fun o ho => hhand _ o ho rfl

theorem Sys.Unregistered.move {ws : List Wid} (h : s.Unregistered id ws) (hok : (s.thread t).Ok K)
    (hnext : (s.thread t).Next K s.mem c th e) (hacts : s.Acts K t alt c e th)
    (hid : (s.thread t).id? ≠ some id)
    (hhand : ∀ w o, (s.thread t).hand = some (w, .claimed c o) → w.call ≠ id) :
    (s.move K t c e th).Unregistered id ws := by
  intro i
  constructor
  · rcases Sys.result_of_other (w := ⟨id, i⟩) hok hnext hacts hid with hsame | ⟨⟨o, ho⟩, -⟩
    · rw [hsame]
      exact (h i).1
    · exact absurd rfl (hhand _ o ho)
  · intro htook
    rcases Sys.took_move.1 htook with hold | hgrant
    · exact (h i).2 hold
    · rcases hacts.grants hok hgrant with ⟨hown, -⟩ | ⟨o, ho, -⟩
      · exact absurd hown hid
      · exact absurd rfl (hhand _ o ho)

omit [DecidableEq C] [DecidableEq T] in
theorem Effect.signalAfter_of_true (h : s.mem.signaled id = true) :
    e.signalAfter id (s.mem.signaled id) = true := by
  cases e with
  | wake w =>
    rw [Effect.signalAfter, h]
    split <;> rfl
  | _ => exact h

/-- What holds of the stubs of a select while another thread moves. -/
theorem SelPc.Inv.move {u : T} {cases : List (Case C α)} {timeout : Int} {pc : SelPc C α}
    (h : pc.Inv s id cases.length) (hs : Sound K s) (hth : s.thread u = .select id cases timeout pc)
    (hu : u ≠ t) (hnext : (s.thread t).Next K s.mem c th e) (hacts : s.Acts K t alt c e th) :
    pc.Inv (s.move K t c e th) id cases.length := by
  have hok := hs.ok t
  have hrun : (s.thread u).id? = some id := by rw [hth]; rfl
  have hid : (s.thread t).id? ≠ some id := fun hid => hu (hs.calls.id_inj u t id hrun hid)
  have hun : pc.registered = false → ∀ w o, (s.thread t).hand = some (w, .claimed c o) →
      w.call ≠ id := fun hreg w o ho => hs.not_claimed hth hreg ho
  have hstubs : s.Stubs id cases.length → (s.move K t c e th).Stubs id cases.length := by
    intro hst
    refine hst.move hs hnext hacts hid ?_ ?_
    · have hsome := hs.calls.state u id hrun
      rw [hth] at hsome
      exact Option.isSome_iff_ne_none.1 hsome
    · rintro d o w howned rfl
      have hwaits := Sys.waits_of_owned hs.calls howned hrun
      rw [hth] at hwaits
      obtain ⟨-, -, k, hk, -⟩ := hwaits
      exact (List.getElem?_eq_some_iff.1 hk).1
  have hsignal : s.mem.signaled id = true → (s.move K t c e th).mem.signaled id = true := fun hsig =>
    (Mem.signaled_apply K s.mem t c e id).trans (Effect.signalAfter_of_true hsig)
  cases pc with
  | unlockAll cs k =>
    cases k with
    | ret r => exact Sys.Decided.move h hok hnext hacts hid (hun rfl)
    | park => exact hstubs h
  | ret r => exact Sys.Decided.move h hok hnext hacts hid (hun rfl)
  | park => exact hstubs h
  | lockAll cs k =>
    cases k with
    | ready => exact Sys.Unregistered.move h hok hnext hacts hid (hun rfl)
    | clean woken => exact ⟨hstubs h.1, fun hw => hsignal (h.2 hw)⟩
  | clean i woken winner =>
    obtain ⟨hst, hwoken, hwinner⟩ := h
    -- the select holds the locks of its stubs, so none of them is claimed
    have hsame : ∀ j, ((s.move K t c e th).mem.waiter ⟨id, j⟩).result =
        (s.mem.waiter ⟨id, j⟩).result := by
      intro j
      rcases Sys.result_of_other (w := ⟨id, j⟩) hok hnext hacts hid with hsame | ⟨⟨o, ho⟩, -⟩
      · exact hsame
      · have hwaits := Sys.waits_of_owned hs.calls (hs.queues.claimed t _ c o ho).1 hrun
        rw [hth] at hwaits
        obtain ⟨-, -, k, hk, hc, -⟩ := hwaits
        refine absurd (hs.locks.holds_inj (c := c) ?_ (Thread.mem_holds_of_hand ho (Or.inl rfl))) hu
        rw [hth, ← hc]
        exact SelPc.mem_locks hk
    refine ⟨hstubs hst, fun hw => hsignal (hwoken hw), fun hnone j hj => ?_, fun j hj => ?_⟩
    · rw [hsame]
      exact hwinner.none hnone j hj
    · rw [hsame]
      exact hwinner.some j hj
  | fast1 i st | fast2Start | fast2 start j st | ready i rdy st | pick rdy | exec i st | stub i =>
    exact Sys.Unregistered.move h hok hnext hacts hid (hun rfl)

end Other

/-! ## Steps of the select itself -/

section Own

variable [DecidableEq T] [DecidableEq C] {K : Config T C} {s s' : Sys T C α} {t : T} {alt : Bool}
  {c : C} {e : Effect α} {id n : Nat} {cases : List (Case C α)} {timeout : Int}
  {pc pc' : SelPc C α}

omit [DecidableEq T] in
/-- The steps of a select give no result to its own stubs. -/
theorem SelPc.result_of_flow {m : Mem T C α}
    (hflow : SelPc.Flow K m t id cases timeout alt pc c e pc') {w : Wid}
    (hhand : ∀ o, pc.hand cases ≠ some (w, .claimed c o)) :
    e.resultAfter w .wouldblock = .wouldblock := by
  cases hflow with
  | pick hk hmem he => rcases he with rfl | ⟨v, rfl⟩ <;> rfl
  | @execGo i k st st' e hk hexec =>
    have hne : ∀ w', SelPc.execHand k st = some (w', .claimed k.chan k.op.other) → w ≠ w' := by
      rintro w' hw' rfl
      refine hhand k.op.other ?_
      rw [SelPc.hand, hk]
      exact hw'
    cases hexec with
    | copySend hx | copyRecv hx hdata | settle => exact if_neg (hne _ rfl)
    | _ => rfl
  | execDone hk hexec => cases hexec <;> rfl
  | stub hk =>
    rw [Effect.resultAfter]
    split <;> rfl
  | _ => rfl

/-- A step of a select without registered stubs. -/
theorem Sys.Unregistered.own (h : s.Unregistered id (pc.got id)) (hs : Sound K s)
    (hth : s.thread t = .select id cases timeout pc) (hreg : pc.registered = false)
    (hflow : SelPc.Flow K s.mem t id cases timeout alt pc c e pc')
    (hacts : s.Acts K t alt c e (.select id cases timeout pc')) (i : Nat) :
    ((s.move K t c e (.select id cases timeout pc')).mem.waiter ⟨id, i⟩).result = .wouldblock ∧
      ((s.move K t c e (.select id cases timeout pc')).mem.Took ⟨id, i⟩ →
        ⟨id, i⟩ ∈ pc.got id ∨ ⟨id, i⟩ ∈ pc'.got id) := by
  have hhand : ∀ o, (s.thread t).hand ≠ some (⟨id, i⟩, .claimed c o) := fun o ho =>
    hs.not_claimed hth hreg ho rfl
  constructor
  · rw [Sys.result_move, (h i).1]
    rw [hth] at hhand
    exact SelPc.result_of_flow hflow hhand
  · intro htook
    rcases Sys.took_move.1 htook with hold | hgrant
    · exact Or.inl ((h i).2 hold)
    · rcases hacts.grants (hs.ok t) hgrant with ⟨-, hgot⟩ | ⟨o, ho, -⟩
      · exact Or.inr hgot
      · exact absurd ho (hhand o)

omit [DecidableEq T] [DecidableEq C] in
/-- The registered stubs depend on the memory of the call and on the hands only. -/
theorem Sys.Stubs.congr (h : s.Stubs id n)
    (hresult : ∀ i, (s'.mem.waiter ⟨id, i⟩).result = (s.mem.waiter ⟨id, i⟩).result)
    (htook : ∀ i, s'.mem.Took ⟨id, i⟩ ↔ s.mem.Took ⟨id, i⟩)
    (hstate : s'.mem.selectState id = s.mem.selectState id)
    (hsignal : s'.mem.signaled id = s.mem.signaled id)
    (hhand : ∀ t, (s'.thread t).hand = (s.thread t).hand ∧
      (s'.thread t).handGot = (s.thread t).handGot) : s'.Stubs id n := by
  have hsame : ∀ i, s'.Untouched ⟨id, i⟩ ↔ s.Untouched ⟨id, i⟩ := by
    intro i
    constructor
    · rintro ⟨h₁, h₂⟩
      exact ⟨fun h => h₁ ((htook i).2 h), (hresult i).symm.trans h₂⟩
    · rintro ⟨h₁, h₂⟩
      exact ⟨fun h => h₁ ((htook i).1 h), (hresult i).trans h₂⟩
  refine ⟨?_, ?_, ?_, ?_, ?_, ?_⟩
  · obtain ⟨i₀, h₀⟩ := h.one
    refine ⟨i₀, fun i hi => ⟨(hsame i).2 (h₀ i hi).1, fun t st => ?_⟩⟩
    rw [(hhand t).1]
    exact (h₀ i hi).2 t st
  · intro hfree i
    rw [hstate] at hfree
    exact (hsame i).2 (h.free hfree i)
  · intro i
    rw [hresult i]
    exact h.value i
  · rintro t w st hw rfl
    rw [(hhand t).1] at hw
    rw [hresult w.idx]
    exact h.hand t w st hw rfl
  · intro hsig
    rw [hsignal] at hsig
    obtain ⟨i, hi, hne⟩ := h.signal hsig
    exact ⟨i, hi, by rwa [hresult i]⟩
  · intro i hi
    rw [hresult i]
    refine (h.took i ((htook i).1 hi)).imp_right ?_
    rintro ⟨t, d, o, h₁, h₂⟩
    exact ⟨t, d, o, (hhand t).1.trans h₁, (hhand t).2 ▸ h₂⟩

/-- A step of a select with registered stubs touches nothing of them. -/
theorem Sys.Stubs.own (h : s.Stubs id n) (hth : s.thread t = .select id cases timeout pc)
    (he : (∀ w r, e.resultAfter w r = r) ∧ (s.mem.chan c).grants e = [] ∧
      (∀ id st, e.stateAfter id st = st) ∧ ∀ id b, e.signalAfter id b = b)
    (hhand : pc.hand cases = none ∧ pc'.hand cases = none)
    (hgot : pc.handGot = [] ∧ pc'.handGot = []) :
    (s.move K t c e (.select id cases timeout pc')).Stubs id n := by
  refine h.congr ?_ ?_ ?_ ?_ ?_
  · intro i
    rw [Sys.result_move, he.1]
  · intro i
    rw [Sys.took_move, he.2.1]
    exact or_iff_left List.not_mem_nil
  · exact (Mem.selectState_apply K s.mem t c e id).trans (he.2.2.1 id _)
  · exact (Mem.signaled_apply K s.mem t c e id).trans (he.2.2.2 id _)
  · intro u
    by_cases hu : u = t
    · subst hu
      rw [Sys.thread_move_self, hth]
      exact ⟨hhand.2.trans hhand.1.symm, hgot.2.trans hgot.1.symm⟩
    · rw [Sys.thread_move_of_ne hu]
      exact ⟨rfl, rfl⟩

/-- What holds of the stubs of a select after a step of its own. -/
theorem SelPc.Inv.flow (h : pc.Inv s id cases.length) (hs : Sound K s)
    (hth : s.thread t = .select id cases timeout pc)
    (hflow : SelPc.Flow K s.mem t id cases timeout alt pc c e pc')
    (hacts : s.Acts K t alt c e (.select id cases timeout pc')) :
    pc'.Inv (s.move K t c e (.select id cases timeout pc')) id cases.length := by
  -- a step without registered stubs keeps what it has moved for, and adds what the new place says
  have hown : s.Unregistered id (pc.got id) → pc.registered = false →
      (∀ w ∈ pc.got id, w ∈ pc'.got id) →
      (s.move K t c e (.select id cases timeout pc')).Unregistered id (pc'.got id) := by
    intro hun hreg hsub i
    obtain ⟨hres, htook⟩ := hun.own hs hth hreg hflow hacts i
    exact ⟨hres, fun hi => (htook hi).elim (hsub _) fun h => h⟩
  have hdone : s.Unregistered id (pc.got id) → pc.registered = false → ∀ i,
      (∀ j, ⟨id, j⟩ ∈ pc.got id ∨ ⟨id, j⟩ ∈ pc'.got id → j = i) → ∀ j, j ≠ i →
      (s.move K t c e (.select id cases timeout pc')).Untouched ⟨id, j⟩ := by
    intro hun hreg i hgot j hj
    obtain ⟨hres, htook⟩ := hun.own hs hth hreg hflow hacts j
    exact ⟨fun hi => hj (hgot j (htook hi)), hres⟩
  have hnil : ∀ i j, (⟨id, j⟩ : Wid) ∈ ([] : List Wid) ∨ (⟨id, j⟩ : Wid) ∈ ([] : List Wid) → j = i :=
    fun i j hj => hj.elim nofun nofun
  have hstep1 : s.Unregistered id (pc.got id) → pc.registered = false → pc.got id = [] →
      Step1 cases pc' → pc'.Inv (s.move K t c e (.select id cases timeout pc')) id cases.length := by
    intro hun hreg hgot hst
    rw [hgot] at hun hown
    cases hst with
    | found => exact hown hun hreg nofun
    | ended => exact hown hun hreg nofun
  have hstep2 : s.Unregistered id (pc.got id) → pc.registered = false → pc.got id = [] →
      ∀ start, Step2 K cases start pc' →
      pc'.Inv (s.move K t c e (.select id cases timeout pc')) id cases.length := by
    intro hun hreg hgot start hst
    rw [hgot] at hun hown
    cases hst with
    | found => exact hown hun hreg nofun
    | ended => exact hown hun hreg nofun
  have hpasses : s.Unregistered id (pc.got id) → pc.registered = false → pc.got id = [] →
      ∀ rdy, Passes K cases timeout rdy pc' →
      pc'.Inv (s.move K t c e (.select id cases timeout pc')) id cases.length := by
    intro hun hreg hgot rdy hpass
    rw [hgot] at hun hown hdone
    cases hpass with
    | closed | first | pick => exact hown hun hreg nofun
    | now => exact ⟨0, hdone hun hreg 0 (hnil 0)⟩
    | wait => exact hown hun hreg nofun
  cases hflow with
  | fast1Shut hk hclosed | fast1Send hk hcnt | fast1Recv hk hcnt | fast1Tail hk =>
    exact hown h rfl nofun
  | fast1Head hk hempty => exact hdone h rfl _ (hnil _)
  | fast1Skip hk hst => exact hstep1 h rfl rfl hst
  | fast2Start hst => exact hstep2 h rfl rfl _ hst
  | fast2Skip hk hcnt hst => exact hstep2 h rfl rfl _ hst
  | fast2Send hk hcnt | fast2Closed hk hcnt hop | fast2Recv hk hcnt hop => exact hown h rfl nofun
  | fast2Shut hk hclosed => exact hdone h rfl _ (hnil _)
  | fast2Open hk hopen => exact hown h rfl nofun
  | fast2In hk hp =>
    refine hown h rfl fun w hw => ?_
    rw [got, RingPc.got_of_inl hp]
    exact List.mem_append_left _ hw
  | fast2Hit hk hp hres =>
    refine hdone h rfl _ fun j hj => ?_
    rcases hj with hj | hj
    · have hok := hs.ok t
      rw [hth] at hok
      obtain ⟨k', hk', -, hruns⟩ := hok
      have hmem := RingPc.mem_wids_of_got hj
      rw [(hruns _ rfl).1] at hmem
      exact congrArg Wid.idx (Case.call_of_ringOp hmem)
    · exact congrArg Wid.idx (List.mem_singleton.1 hj)
  | fast2Miss hk hp hres hst =>
    refine hstep2 h rfl ?_ _ hst
    rw [got, (RingPc.got_of_inr hp).2, hres]
    rfl
  | @lock c cs k hfree =>
    cases k with
    | ready => exact hown h rfl nofun
    | clean woken =>
      refine ⟨h.1.own hth ⟨fun _ _ => rfl, rfl, fun _ _ => rfl, fun _ _ => rfl⟩ ⟨rfl, rfl⟩ ⟨rfl, rfl⟩,
        h.2⟩
  | pass hpass => exact hpasses h rfl rfl _ hpass
  | clean =>
    refine ⟨h.1.own hth ⟨fun _ _ => rfl, rfl, fun _ _ => rfl, fun _ _ => rfl⟩ ⟨rfl, rfl⟩ ⟨rfl, rfl⟩,
      h.2, fun _ j hj => absurd hj (Nat.not_lt_zero j), nofun⟩
  | readyOpen hk hop hopen hcap | readyFirst hk hcap | readyEmpty hk hop => exact hown h rfl nofun
  | readyNot hk hpass | readySend hk hop hopen hpass | readyShut hk hop hclosed hpass
  | readyYes hk hst hpass => exact hpasses h rfl rfl _ hpass
  | pick hk hmem he hst => exact hown h rfl nofun
  | @execGo i k st st' e hk hexec =>
    obtain ⟨k', hk', hok⟩ := hs.select_ok hth
    obtain rfl : k = k' := Option.some.inj (hk.symm.trans hk')
    exact hown h rfl fun w hw => ExecPc.got_mono hok hexec hw
  | @execDone i k st e r hk hexec =>
    obtain ⟨k', hk', hok⟩ := hs.select_ok hth
    refine hdone h rfl _ fun j hj => ?_
    rcases hj with hj | hj
    · exact congrArg Wid.idx (ExecPc.eq_of_got hok hj)
    · exact congrArg Wid.idx (SelPc.eq_of_gotOf hj)
  | stub hk => exact hown h rfl nofun
  | stubbed hi =>
    -- nobody has seen the stubs yet
    obtain ⟨hquiet, hfree⟩ := hs.queues.hidden t id (by rw [hth]; rfl) (by rw [hth]; rfl)
    have hun : s.Unregistered id [] := h
    have hclean : ∀ i, s.Untouched ⟨id, i⟩ := fun i =>
      ⟨fun hi => List.not_mem_nil ((hun i).2 hi), (hun i).1⟩
    have hstubs : s.Stubs id cases.length := by
      refine ⟨⟨0, fun i _ => ⟨hclean i, fun u st hu => hfree u _ st hu rfl⟩⟩, fun _ => hclean,
        fun i => Or.inl (hclean i).result, fun u w st hu hw => absurd hw (hfree u w st hu), ?_,
        fun i hi => absurd hi (hclean i).took⟩
      intro hsig
      rw [hquiet] at hsig
      cases hsig
    exact hstubs.own hth ⟨fun _ _ => rfl, rfl, fun _ _ => rfl, fun _ _ => rfl⟩ ⟨rfl, rfl⟩ ⟨rfl, rfl⟩
  | @unlock c cs k =>
    cases k with
    | ret r =>
      refine Sys.Decided.mono h fun j hj => ⟨fun htook => ?_, hj.result⟩
      exact (Sys.took_move.1 htook).elim hj.took nofun
    | park =>
      exact Sys.Stubs.own h hth ⟨fun _ _ => rfl, rfl, fun _ _ => rfl, fun _ _ => rfl⟩ ⟨rfl, rfl⟩
        ⟨rfl, rfl⟩
  | unlockedRet =>
    refine Sys.Decided.mono h fun j hj => ⟨fun htook => ?_, hj.result⟩
    exact (Sys.took_move.1 htook).elim hj.took nofun
  | unlockedPark =>
    exact Sys.Stubs.own h hth ⟨fun _ _ => rfl, rfl, fun _ _ => rfl, fun _ _ => rfl⟩ ⟨rfl, rfl⟩
      ⟨rfl, rfl⟩
  | parkExpire halt htime =>
    exact ⟨Sys.Stubs.own h hth ⟨fun _ _ => rfl, rfl, fun _ _ => rfl, fun _ _ => rfl⟩ ⟨rfl, rfl⟩
      ⟨rfl, rfl⟩, nofun⟩
  | parkWoken hsig =>
    exact ⟨Sys.Stubs.own h hth ⟨fun _ _ => rfl, rfl, fun _ _ => rfl, fun _ _ => rfl⟩ ⟨rfl, rfl⟩
      ⟨rfl, rfl⟩, fun _ => hsig⟩
  | cleanWon hk hres =>
    refine ⟨h.1.own hth ⟨fun _ _ => rfl, rfl, fun _ _ => rfl, fun _ _ => rfl⟩ ⟨rfl, rfl⟩ ⟨rfl, rfl⟩,
      h.2.1, nofun, fun j hj => ?_⟩
    cases hj
    exact hres
  | cleanStub hk hres =>
    refine ⟨h.1.own hth ⟨fun _ _ => rfl, rfl, fun _ _ => rfl, fun _ _ => rfl⟩ ⟨rfl, rfl⟩ ⟨rfl, rfl⟩,
      h.2.1, fun hnone j hj => ?_, h.2.2.some⟩
    rcases Nat.lt_succ_iff_lt_or_eq.1 hj with hlt | rfl
    · exact h.2.2.none hnone j hlt
    · exact hres
  | @cleaned i d woken winner hi =>
    obtain ⟨hst, -, hwinner⟩ := h
    obtain ⟨i₀, h₀⟩ := hst.one
    have hsame : ∀ j, j ≠ i₀ → (s.move K t c .none (.select id cases timeout
        (.unlock K cases (.ret (cleaned s.mem id woken winner))))).Untouched ⟨id, j⟩ := by
      intro j hj
      refine ⟨fun htook => ?_, (h₀ j hj).1.result⟩
      exact (Sys.took_move.1 htook).elim (h₀ j hj).1.took nofun
    cases winner with
    | none => exact ⟨i₀, hsame⟩
    | some j =>
      cases woken with
      | false => exact ⟨i₀, hsame⟩
      | true =>
        have hj : j = i₀ := by
          by_contra hj
          exact hwinner.some j rfl (h₀ j hj).1.result
        rw [← hj] at hsame
        exact hsame

end Own

/-! ## Runs -/

section Run

variable [DecidableEq T] [DecidableEq C] {K : Config T C} {s s' : Sys T C α} {l : Label T C α}

omit [DecidableEq T] [DecidableEq C] in
theorem SelectInv.init (slots : C → U32 → α) : SelectInv (Sys.init slots : Sys T C α) where
  running _ _ _ _ _ h := by cases h
  returned _ _ _ _ _ h := by
    obtain ⟨t, h, -⟩ := h
    cases h
  fresh _ _ h := by
    obtain ⟨c, h | h | h⟩ := h <;> cases h

omit [DecidableEq T] [DecidableEq C] in
/-- What is said of the stubs of one call depends on its memory and on the hands only. -/
theorem SelPc.Inv.congr {id n : Nat} {pc : SelPc C α} (h : pc.Inv s id n)
    (hresult : ∀ i, (s'.mem.waiter ⟨id, i⟩).result = (s.mem.waiter ⟨id, i⟩).result)
    (htook : ∀ i, s'.mem.Took ⟨id, i⟩ ↔ s.mem.Took ⟨id, i⟩)
    (hstate : s'.mem.selectState id = s.mem.selectState id)
    (hsignal : s'.mem.signaled id = s.mem.signaled id)
    (hhand : ∀ t, (s'.thread t).hand = (s.thread t).hand ∧
      (s'.thread t).handGot = (s.thread t).handGot) : pc.Inv s' id n := by
  have hsame : ∀ i, s.Untouched ⟨id, i⟩ → s'.Untouched ⟨id, i⟩ := fun i hi =>
    ⟨fun h => hi.took ((htook i).1 h), (hresult i).trans hi.result⟩
  have hdec : ∀ r, s.Decided id r → s'.Decided id r := fun r hr => hr.mono hsame
  have hun : ∀ ws, s.Unregistered id ws → s'.Unregistered id ws := fun ws hw i =>
    ⟨(hresult i).trans (hw i).1, fun hi => (hw i).2 ((htook i).1 hi)⟩
  have hstubs : s.Stubs id n → s'.Stubs id n := fun hst =>
    hst.congr hresult htook hstate hsignal hhand
  cases pc with
  | unlockAll cs k =>
    cases k with
    | ret r => exact hdec r h
    | park => exact hstubs h
  | ret r => exact hdec r h
  | park => exact hstubs h
  | lockAll cs k =>
    cases k with
    | ready => exact hun _ h
    | clean woken => exact ⟨hstubs h.1, fun hw => hsignal.trans (h.2 hw)⟩
  | clean i woken winner =>
    refine ⟨hstubs h.1, fun hw => hsignal.trans (h.2.1 hw), fun hnone j hj => ?_, fun j hj => ?_⟩
    · exact (hresult j).trans (h.2.2.none hnone j hj)
    · rw [hresult j]
      exact h.2.2.some j hj
  | fast1 i st | fast2Start | fast2 start j st | ready i rdy st | pick rdy | exec i st | stub i =>
    exact hun _ h

theorem SelectInv.startCall (h : SelectInv s) (hs : Sound K s) {t : T} {k : Call C α}
    (hidle : s.thread t = .idle) : SelectInv (s.startCall K t k) := by
  have hresult : ∀ w : Wid, w.call ≠ s.next →
      ((s.startCall K t k).mem.waiter w).result = (s.mem.waiter w).result := fun w hw => by
    simp only [Sys.startCall, if_neg hw]
  have htook : ∀ w, (s.startCall K t k).mem.Took w ↔ s.mem.Took w := fun w => Iff.rfl
  refine ⟨?_, ?_, ?_⟩
  · intro u id cases timeout pc hth
    by_cases hu : u = t
    · rw [hu, Sys.thread_startCall_self] at hth
      cases k with
      | direct c op => cases hth
      | select cases' timeout' =>
        simp only [Sys.startThread, Thread.select.injEq] at hth
        obtain ⟨rfl, rfl, rfl, rfl⟩ := hth
        -- a new select has done nothing
        have hres : ∀ i, ((s.startCall K t (.select cases' timeout')).mem.waiter
            ⟨s.next, i⟩).result = .wouldblock := fun i => by
          simp only [Sys.startCall, if_true, Sys.startWaiter]
        have hnot : ∀ i, ¬ s.mem.Took ⟨s.next, i⟩ := fun i => h.fresh _ (Nat.le_refl _)
        have hbegins := SelPc.begins_entry cases'
        revert hbegins
        generalize SelPc.entry cases' = pc
        intro hbegins
        cases hbegins with
        | invalid h => exact ⟨0, fun j _ => ⟨hnot j, hres j⟩⟩
        | scan hstep =>
          cases hstep with
          | found hk hop => exact fun i => ⟨hres i, fun hi => absurd hi (hnot i)⟩
          | ended => exact fun i => ⟨hres i, fun hi => absurd hi (hnot i)⟩
    · rw [Sys.thread_startCall_of_ne hu] at hth
      have hne : id ≠ s.next := Nat.ne_of_lt (hs.calls.id_lt u id (by rw [hth]; rfl))
      refine (h.running u id cases timeout pc hth).congr (fun i => hresult _ hne)
        (fun i => htook _) ?_ rfl fun v => ?_
      · cases k with
        | direct c op => rfl
        | select cases' timeout' => exact Function.update_of_ne hne _ _
      · by_cases hv : v = t
        · have hhand := (Sys.begun_startThread K s.next k).hand
          rw [hv, Sys.thread_startCall_self, hidle, hhand]
          exact ⟨rfl, Thread.handGot_eq_nil (Thread.ok_startThread s.next k) hhand⟩
        · rw [Sys.thread_startCall_of_ne hv]
          exact ⟨rfl, rfl⟩
  · intro id cases timeout r out hret
    rcases (Sys.Stepped.call hidle).ret_cases hs.hist hret with hold | ⟨u, heq, hret', -⟩
    · have hne : id ≠ s.next := by
        obtain ⟨u, hcall, -⟩ := hold
        exact Nat.ne_of_lt (hs.hist.call_lt _ _ _ hcall)
      refine (h.returned id cases timeout r out hold).mono fun j hj => ?_
      exact ⟨hj.took, (hresult _ hne).trans hj.result⟩
    · have hlen := congrArg (fun s => s.next) heq
      exact absurd hlen (Nat.succ_ne_self s.next)
  · intro w hw
    exact h.fresh w (Nat.le_of_succ_le hw)

theorem SelectInv.finishCall (h : SelectInv s) (hs : Sound K s) {t : T} {id : Nat} {r : Ret}
    {out : List (Option α)} (hdone : (s.thread t).Done K id)
    (hstep : s.Stepped K l (s.finishCall t id r out)) : SelectInv (s.finishCall t id r out) := by
  refine ⟨?_, ?_, h.fresh⟩
  · intro u id' cases timeout pc hth
    by_cases hu : u = t
    · rw [hu, Sys.thread_finishCall_self] at hth
      cases hth
    · rw [Sys.thread_finishCall_of_ne hu] at hth
      refine (h.running u id' cases timeout pc hth).congr (fun _ => rfl) (fun _ => Iff.rfl) rfl rfl
        fun v => ?_
      by_cases hv : v = t
      · rw [hv, Sys.thread_finishCall_self, hdone.hand,
          Thread.handGot_eq_nil (hs.ok t) hdone.hand]
        exact ⟨rfl, rfl⟩
      · rw [Sys.thread_finishCall_of_ne hv]
        exact ⟨rfl, rfl⟩
  · intro id' cases timeout r' out' hans
    rcases hstep.ret_cases hs.hist hans with hold | ⟨u, heq, hret', hcall⟩
    · exact (h.returned id' cases timeout r' out' hold).mono fun j hj => ⟨hj.took, hj.result⟩
    · have hinv : s.Decided id' r' := by
        cases hret' with
        | direct hth =>
          rw [hth] at hcall
          cases hcall
        | select hth =>
          rw [hth] at hcall
          cases hcall
          exact h.running u id' cases timeout _ hth
      exact hinv.mono fun j hj => ⟨hj.took, hj.result⟩

theorem SelectInv.step (h : SelectInv s) (hs : Sound K s) (hstep : s.Stepped K l s') :
    SelectInv s' := by
  have hstep₀ := hstep
  cases hstep with
  | call hidle => exact h.startCall hs hidle
  | ret hdone hret => exact h.finishCall hs hdone hstep₀
  | @move t alt c e th hnext hacts =>
    refine ⟨?_, ?_, ?_⟩
    · intro u id cases timeout pc hth
      by_cases hu : u = t
      · rw [hu, Sys.thread_move_self] at hth
        subst hth
        cases hacts with
        | select hth' hact =>
          exact (h.running t id cases timeout _ hth').flow hs hth' (SelPc.flow_of_act hact)
            (.select hth' hact)
      · rw [Sys.thread_move_of_ne hu] at hth
        exact (h.running u id cases timeout pc hth).move hs hth hu hnext hacts
    · intro id cases timeout r out hans
      rcases hstep₀.ret_cases hs.hist hans with hold | ⟨u, heq, hret', -⟩
      · -- a call that has returned is in nobody's hands
        have hreturned : s.Returned id := by
          obtain ⟨u, -, hu⟩ := hold
          exact ⟨u, r, out, hu⟩
        refine (h.returned id cases timeout r out hold).move (hs.ok t) hnext hacts
          (hs.calls.ret_ne t id hreturned) ?_
        rintro w o ho rfl
        obtain ⟨v, hv⟩ := (hs.queues.claimed t w c o ho).1
        exact hs.calls.ret_ne v w.call hreturned (Thread.id_of_waits hv)
      · have hlen := congrArg (fun s => s.events.length) heq
        simp [Sys.move, Sys.finishCall] at hlen
    · intro w hw htook
      rcases Sys.took_move.1 htook with hold | hgrant
      · exact h.fresh w hw hold
      · rcases hacts.grants (hs.ok t) hgrant with ⟨hown, -⟩ | ⟨o, ho, -⟩
        · exact absurd (hs.calls.id_lt t w.call hown) (Nat.not_lt.2 hw)
        · exact absurd (hs.queues.hand t w _ ho).lt (Nat.not_lt.2 hw)

end Run

end LibChan
