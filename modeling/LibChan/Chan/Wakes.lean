import LibChan.Chan.Queues

/-!
# Waiters outlive their wakers

Some hand-overs release the channel lock before they signal the park of the waiter they have served.
A timed wait may expire in between, find itself dequeued and return, and the signal then goes to a
waiter that is gone (`wake_after_return`). Whenever an expired wait that has the lock again is still
queued or already signalled, every waiter that is about to be signalled still has a waiting owner
(`wake_before_return`).
-/

set_option autoImplicit false

namespace LibChan

variable {T C α : Type} [DecidableEq C]

/-- The waiter whose park is signalled in the next step of the thread. -/
def Thread.wakes : Thread C α → Option Wid
  | direct _ _ _ (.serve _ (.wake w)) => some w
  | direct _ _ _ (.wakeRet w) => some w
  | direct _ _ _ (.closeWake _ w) => some w
  | select _ cases _ (.exec i (.wake w)) => (cases[i]?).map fun _ => w
  | _ => none

/-- An expired wait that holds the lock again is still queued or has been signalled; for a select, if
one of its stubs has been claimed then it has been signalled. -/
def Thread.expiryOk (m : Mem T C α) : Thread C α → Bool
  | direct id c op .expRemove => decide ((⟨id, 0⟩ : Wid) ∈ (m.chan c).queue op.side) || m.signaled id
  | select id _ _ (.lockAll [] (.clean _)) => m.selectState id != some true || m.signaled id
  | _ => true

/-! ## Leaving a queue -/

section Leave

variable {K : Config T C} {m : Mem T C α} {t : T} {id : Nat} {c d : C} {op : Op α} {alt : Bool}
  {e : Effect α}

omit [DecidableEq C] in
/-- A direct waiter stops waiting when it takes itself out of the queue, or when it is signalled. -/
theorem Pc.leave_cases {pc pc' : Pc α} (h : pc.act K m id c op alt = some (e, pc'))
    (hw : pc.waits = true) (hw' : pc'.waits = false) :
    pc = .unRemove ∨ pc = .expRemove ∨ m.signaled id = true := by
  cases pc with
  | recheck p =>
    cases h
    refine absurd hw' (ringNext_ind (fun q => ¬ waits q = false) (fun _ => nofun) fun res => ?_)
    split <;> exact nofun
  | unRemove => exact Or.inl rfl
  | parkUnlock => cases h; cases hw'
  | park =>
    simp only [Pc.act] at h
    split at h
    · obtain ⟨-, heq⟩ := Option.ite_none_right_eq_some.1 h
      cases heq
      cases hw'
    · exact Or.inr (Or.inr (Option.ite_none_right_eq_some.1 h).1)
  | expLock =>
    obtain ⟨-, heq⟩ := Option.ite_none_right_eq_some.1 h
    cases heq
    cases hw'
  | expRemove => exact Or.inr (Or.inl rfl)
  | reparkUnlock => cases h; cases hw'
  | repark => exact Or.inr (Or.inr (Option.ite_none_right_eq_some.1 h).1)
  | _ => cases hw

/-- A stub stops waiting in the cleanup. -/
theorem SelPc.leave_cases {cases : List (Case C α)} {timeout : Int} {pc pc' : SelPc C α} {i : Nat}
    (h : pc.act K m t id cases timeout alt d = some (c, e, pc')) (hw : pc.waits i = true)
    (hw' : pc'.waits i = false) : ∃ j b x, pc = .clean j b x := by
  cases pc with
  | clean j b x => exact ⟨j, b, x, rfl⟩
  | stub j =>
    simp only [act] at h
    split at h
    · cases h
      exact absurd (Nat.lt_succ_of_lt (of_decide_eq_true hw)) (of_decide_eq_false hw')
    · cases h
      cases hw'
  | unlockAll cs n =>
    cases cs with
    | nil =>
      cases n with
      | ret r => cases hw
      | park => cases h; cases hw'
    | cons a rest =>
      cases h
      cases n with
      | ret r => cases hw
      | park => cases hw'
  | park =>
    simp only [act] at h
    split at h
    · obtain ⟨-, heq⟩ := Option.ite_none_right_eq_some.1 h
      cases heq
      cases hw'
    · obtain ⟨-, heq⟩ := Option.ite_none_right_eq_some.1 h
      cases heq
      cases hw'
  | lockAll cs n =>
    cases n with
    | ready => cases hw
    | clean woken =>
      cases cs with
      | nil =>
        cases h
        exact absurd (Nat.zero_le i) (of_decide_eq_false hw')
      | cons a rest =>
        obtain ⟨-, heq⟩ := Option.ite_none_right_eq_some.1 h
        cases heq
        cases hw'
  | _ => cases hw

/-- The place of a select before its cleanup goes on. -/
theorem SelPc.clean_of_act {cases : List (Case C α)} {timeout : Int} {pc : SelPc C α} {i : Nat}
    {b : Bool} {x : Option Nat}
    (h : pc.act K m t id cases timeout alt d = some (c, e, .clean i b x)) :
    (pc = .lockAll [] (.clean b) ∨ ∃ j y, pc = .clean j b y) ∧
      (∀ id st, e.stateAfter id st = st) ∧ ∀ id v, e.signalAfter id v = v := by
  -- at a cleanup stubs wait, so it does not follow a place at which none may
  have hwaits : ∀ pc' : SelPc C α, pc' = .clean i b x → pc'.waits i ≠ false := by
    rintro _ rfl h
    exact of_decide_eq_false h (Nat.le_refl i)
  cases pc with
  | fast1 j st =>
    obtain ⟨k, -, heq⟩ := Option.map_eq_some_iff.1 h
    simp only [Prod.mk.injEq] at heq
    exact absurd ((free_actFast1 (K := K) st).2.2.1 i) (hwaits _ heq.2.2)
  | clean j b' y =>
    simp only [act] at h
    split at h
    · split at h <;> cases h <;> exact ⟨Or.inr ⟨_, _, rfl⟩, fun _ _ => rfl, fun _ _ => rfl⟩
    · cases h
  | lockAll cs n =>
    cases cs with
    | nil =>
      cases n with
      | ready =>
        simp only [act, Option.some.injEq, Prod.mk.injEq] at h
        exact absurd ((busy_readyFrom (K := K) 0 []).2.2.1 i) (hwaits _ h.2.2)
      | clean woken =>
        cases h
        exact ⟨Or.inl rfl, fun _ _ => rfl, fun _ _ => rfl⟩
    | cons a rest =>
      obtain ⟨-, heq⟩ := Option.ite_none_right_eq_some.1 h
      cases heq
  | fast2Start =>
    simp only [act, Option.some.injEq, Prod.mk.injEq] at h
    exact absurd ((free_scan2 _ _).2.2.1 i) (hwaits _ h.2.2)
  | fast2 start j st =>
    obtain ⟨k, -, heq⟩ := Option.map_eq_some_iff.1 h
    have hfree : (SelPc.clean i b x : SelPc C α).Free K cases := (free_actFast2 (Prod.mk.inj heq).2).2
    exact absurd (hfree.2.2.1 i) (hwaits _ rfl)
  | ready j rdy st =>
    obtain ⟨k, -, heq⟩ := Option.map_eq_some_iff.1 h
    simp only [Prod.mk.injEq] at heq
    exact absurd ((busy_actReady (K := K) rdy st).2.2.1 i) (hwaits _ heq.2.2)
  | pick rdy =>
    obtain ⟨k, -, heq⟩ := Option.map_eq_some_iff.1 h
    cases (Prod.mk.inj (Prod.mk.inj heq).2).2
  | exec j st =>
    obtain ⟨k, -, hrest⟩ := Option.bind_eq_some_iff.1 h
    obtain ⟨⟨e', pc''⟩, hact, heq⟩ := Option.map_eq_some_iff.1 hrest
    cases heq
    rcases actExec_next hact with ⟨st', heq⟩ | ⟨r, heq⟩ <;> cases heq
  | stub j =>
    simp only [act] at h
    split at h <;> cases h
  | unlockAll cs n =>
    cases cs with
    | nil => cases n <;> cases h
    | cons a rest => cases h
  | park =>
    simp only [act] at h
    split at h
    · obtain ⟨-, heq⟩ := Option.ite_none_right_eq_some.1 h
      cases heq
    · obtain ⟨-, heq⟩ := Option.ite_none_right_eq_some.1 h
      cases heq
  | ret r => cases h

end Leave

section Inv

variable [DecidableEq T] {K : Config T C} {s s' : Sys T C α} {l : Label T C α}

/-- Every waiter in someone's hands still has a waiting owner, and a select that cleans up has been
signalled if one of its stubs was claimed. -/
structure WakeInv (s : Sys T C α) : Prop where
  owned : ∀ t w st, (s.thread t).hand = some (w, st) → ∃ c o, s.Owned c o w
  clean : ∀ t id cases timeout i b x, s.thread t = .select id cases timeout (.clean i b x) →
    s.mem.selectState id = some true → s.mem.signaled id = true

omit [DecidableEq C] [DecidableEq T] in
theorem WakeInv.init (slots : C → U32 → α) : WakeInv (Sys.init slots : Sys T C α) where
  owned _ _ _ h := by cases h
  clean _ _ _ _ _ _ _ h := by cases h

/-- Owners stay while no waiter leaves that is in someone's hands. -/
theorem WakeInv.owned_move (h : WakeInv s) (hq : QueueInv s) {t : T} {c : C} {e : Effect α}
    {th : Thread C α} (hnext : (s.thread t).Next K s.mem c th e)
    (hleave : ∀ d o w, (s.thread t).Waits d o w → ¬ th.Waits d o w →
      ∀ t' st, (s.thread t').hand ≠ some (w, st)) {t' : T} {w : Wid} {st : Stage C}
    (hw : ((s.move K t c e th).thread t').hand = some (w, st)) :
    ∃ d o, (s.move K t c e th).Owned d o w := by
  -- an owner that does not leave is still there
  have hkeep : ∀ d o, s.Owned d o w →
      ((∃ t₁ st₁, (s.thread t₁).hand = some (w, st₁)) ∨
        ∀ d o, (s.thread t).Waits d o w → th.Waits d o w) →
      (s.move K t c e th).Owned d o w := by
    rintro d o ⟨t₁, ht₁⟩ hcase
    refine ⟨t₁, ?_⟩
    by_cases ht : t₁ = t
    · subst ht
      rw [Sys.thread_move_self]
      rcases hcase with ⟨t₂, st₂, hhand⟩ | hsame
      · by_contra hnot
        exact hleave d o w ht₁ hnot t₂ st₂ hhand
      · exact hsame d o ht₁
    · rwa [Sys.thread_move_of_ne ht]
  rcases Sys.hand_move hw with ⟨rfl, hmine⟩ | ⟨-, hother⟩
  · rcases hnext.move.hand_source hmine with ⟨st₀, hold⟩ | ⟨o, he, -, hmem, -⟩
    · obtain ⟨d, o, howned⟩ := h.owned t' w st₀ hold
      exact ⟨d, o, hkeep d o howned (Or.inl ⟨t', st₀, hold⟩)⟩
    · refine ⟨c, o, hkeep c o (hq.queue c o w hmem).owned (Or.inr fun d o' hwaits => ?_)⟩
      subst he
      cases hnext.move with
      | quiet he => exact he.elim
      | claim _ _ _ _ _ _ hiff => exact (hiff d o' w).2 hwaits
      | enter he => rcases he with ⟨he | he, -⟩ | ⟨he, -⟩ <;> cases he
      | settle he => rcases he with ⟨r, he⟩ | ⟨a, r, x, he⟩ <;> cases he
  · obtain ⟨d, o, howned⟩ := h.owned t' w st hother
    exact ⟨d, o, hkeep d o howned (Or.inl ⟨t', st, hother⟩)⟩

omit [DecidableEq T] in
/-- Under the condition on expired waits, no waiter leaves that is in someone's hands. -/
theorem WakeInv.not_hand_of_leave (h : WakeInv s) (hinv : SysInv K s) {t : T} {alt : Bool} {c : C}
    {e : Effect α} {th : Thread C α} (hacts : s.Acts K t alt c e th)
    (hok : (s.thread t).expiryOk s.mem = true) {d : C} {o : ChanOp} {w : Wid}
    (hw : (s.thread t).Waits d o w) (hw' : ¬ th.Waits d o w) (t' : T) (st : Stage C) :
    (s.thread t').hand ≠ some (w, st) := by
  intro hhand
  have hin := hinv.queues.hand t' w st hhand
  cases hacts with
  | @direct id c op pc pc' e hth hact =>
    rw [hth] at hw hok
    obtain ⟨rfl, rfl, rfl, hwaits⟩ := hw
    have hwaits' : pc'.waits = false := Bool.eq_false_iff.2 fun hp => hw' ⟨rfl, rfl, rfl, hp⟩
    rcases Pc.leave_cases hact hwaits hwaits' with rfl | rfl | hsig
    · exact hin.queue _ _ (hinv.enrolled t id _ op _ hth rfl)
    · rcases Bool.or_eq_true_iff.1 hok with hmem | hsig
      · exact hin.queue _ _ (of_decide_eq_true hmem)
      · rw [hin.quiet] at hsig
        cases hsig
    · rw [hin.quiet] at hsig
      cases hsig
  | @select id cases timeout pc pc' c d' e hth hact =>
    rw [hth] at hw
    obtain ⟨rfl, hwaits, k, hk, hrest⟩ := hw
    have hwaits' : pc'.waits w.idx = false :=
      Bool.eq_false_iff.2 fun hp => hw' ⟨rfl, hp, k, hk, hrest⟩
    obtain ⟨j, b, x, rfl⟩ := SelPc.leave_cases hact hwaits hwaits'
    -- the stub is claimed, so the select has been signalled, but a waiter in hand has not
    have hstate : s.mem.selectState w.call = some true := by
      have hsome := hinv.calls.state t w.call (by rw [hth]; rfl)
      rw [hth] at hsome
      obtain ⟨v, hv⟩ := Option.isSome_iff_exists.1 hsome
      cases v with
      | false => exact absurd hv hin.state
      | true => exact hv
    have hsig := h.clean t w.call cases timeout j b x hth hstate
    rw [hin.quiet] at hsig
    cases hsig

/-- The stubs of a select that holds all its locks are claimed by nobody else. -/
theorem QueueInv.selectState_move (hq : QueueInv s) (hc : CallInv s) (hl : LockInv K s) {t t' : T}
    {c : C} {e : Effect α} {th : Thread C α} (hnext : (s.thread t).Next K s.mem c th e)
    (ht : t' ≠ t) {id : Nat} {cases : List (Case C α)} {timeout : Int} {pc : SelPc C α}
    (hth : s.thread t' = .select id cases timeout pc) (hheld : pc.held K cases = SelPc.locks K cases) :
    (s.move K t c e th).mem.selectState id = s.mem.selectState id := by
  refine (Mem.selectState_apply K s.mem t c e id).trans ?_
  cases e with
  | claim o w =>
    refine if_neg fun hid => ?_
    cases hnext.move with
    | quiet he => exact he.elim
    | claim hqueue _ hmine =>
      have hmem : w ∈ (s.mem.chan c).queue o := by
        rw [hqueue]
        exact List.mem_cons_self
      have hwaits : (s.thread t').Waits c o w :=
        Sys.waits_of_owned hc (hq.queue c o w hmem).owned (by rw [hth, ← hid]; rfl)
      rw [hth] at hwaits
      obtain ⟨-, -, k, hk, rfl, -⟩ := hwaits
      refine ht (hl.holds_inj ?_ hmine)
      rw [hth, Thread.holds, hheld]
      exact SelPc.mem_locks hk
    | enter he => rcases he with ⟨he | he, -⟩ | ⟨he, -⟩ <;> cases he
    | settle he => rcases he with ⟨r, he⟩ | ⟨a, r, x, he⟩ <;> cases he
  | _ => rfl

theorem WakeInv.step (h : WakeInv s) (hinv : SysInv K s) (hok : s.When Thread.expiryOk l)
    (hstep : s.Stepped K l s') : WakeInv s' := by
  cases hstep with
  | @call t k hidle =>
    have hnew := Sys.begun_startThread K s.next k
    refine ⟨fun t' w st hw => ?_, fun t' id cases timeout i b x hth hstate => ?_⟩
    · have ht : t' ≠ t := by
        rintro rfl
        rw [Sys.thread_startCall_self, hnew.hand] at hw
        cases hw
      rw [Sys.thread_startCall_of_ne ht] at hw
      obtain ⟨c, o, t₁, ht₁⟩ := h.owned t' w st hw
      refine ⟨c, o, t₁, ?_⟩
      rwa [Sys.thread_startCall_of_ne]
      rintro rfl
      rw [hidle] at ht₁
      exact ht₁
    · by_cases ht : t' = t
      · rw [ht, Sys.thread_startCall_self] at hth
        cases k with
        | direct c op => cases hth
        | select cases' timeout' =>
          have hfree : (SelPc.entry cases').Free K cases' := SelPc.free_entry
          simp only [Sys.startThread, Thread.select.injEq] at hth
          rw [hth.2.2.2] at hfree
          exact absurd (Nat.le_refl i) (of_decide_eq_false (hfree.2.2.1 i))
      · rw [Sys.thread_startCall_of_ne ht] at hth
        have hid := hinv.calls.id_lt t' id (by rw [hth]; rfl)
        refine h.clean t' id cases timeout i b x hth ?_
        rw [← hstate]
        cases k with
        | direct c op => rfl
        | select cases' timeout' => exact (Function.update_of_ne (Nat.ne_of_lt hid) _ _).symm
  | @ret t alt id' r out hdone hret =>
    refine ⟨fun t' w st hw => ?_, fun t' id cases timeout i b x hth hstate => ?_⟩
    · have ht : t' ≠ t := by
        rintro rfl
        rw [Sys.thread_finishCall_self] at hw
        cases hw
      rw [Sys.thread_finishCall_of_ne ht] at hw
      obtain ⟨c, o, t₁, ht₁⟩ := h.owned t' w st hw
      refine ⟨c, o, t₁, ?_⟩
      rwa [Sys.thread_finishCall_of_ne]
      rintro rfl
      exact hdone.waits c o w ht₁
    · have ht : t' ≠ t := by
        rintro rfl
        rw [Sys.thread_finishCall_self] at hth
        cases hth
      rw [Sys.thread_finishCall_of_ne ht] at hth
      exact h.clean t' id cases timeout i b x hth hstate
  | @move t alt c e th hnext hacts =>
    refine ⟨fun t' w st hw => ?_, fun t' id cases timeout i b x hth hstate => ?_⟩
    · exact h.owned_move hinv.queues hnext
        (fun d o w hw hw' => h.not_hand_of_leave hinv hacts hok hw hw') hw
    · have hsig : s.mem.signaled id = true → (s.move K t c e th).mem.signaled id = true := by
        intro hold
        refine (Mem.signaled_apply K s.mem t c e id).trans ?_
        cases e with
        | wake w =>
          rw [Effect.signalAfter, hold]
          split <;> rfl
        | _ => exact hold
      by_cases ht : t' = t
      · rw [ht, Sys.thread_move_self] at hth
        subst hth
        cases hacts with
        | select hth' hact =>
          obtain ⟨hplace, hst, -⟩ := SelPc.clean_of_act hact
          have hold : s.mem.selectState id = some true := by
            rw [← hstate]
            exact ((Mem.selectState_apply K s.mem t c e id).trans (hst id _)).symm
          refine hsig ?_
          rcases hplace with rfl | ⟨j, y, rfl⟩
          · rw [Sys.When, hth', Thread.expiryOk, hold] at hok
            exact hok
          · exact h.clean t id cases timeout j b y hth' hold
      · rw [Sys.thread_move_of_ne ht] at hth
        refine hsig (h.clean t' id cases timeout i b x hth ?_)
        rw [← hstate]
        exact (hinv.queues.selectState_move hinv.calls hinv.locks hnext ht hth rfl).symm

omit [DecidableEq C] in
theorem Thread.hand_of_wakes {th : Thread C α} {w : Wid} (h : th.wakes = some w) :
    ∃ st, th.hand = some (w, st) := by
  cases th with
  | idle => cases h
  | direct id c op pc =>
    cases pc with
    | serve k st =>
      cases st with
      | wake v => cases h; exact ⟨_, rfl⟩
      | _ => cases h
    | wakeRet v => cases h; exact ⟨_, rfl⟩
    | closeWake o v => cases h; exact ⟨_, rfl⟩
    | _ => cases h
  | select id cases timeout pc =>
    cases pc with
    | exec i st =>
      cases st with
      | wake v =>
        obtain ⟨k, hk, rfl⟩ := Option.map_eq_some_iff.1 h
        exact ⟨_, by rw [Thread.hand, SelPc.hand, hk]; rfl⟩
      | _ => cases h
    | _ => cases h

end Inv

/-- In every run in which expired waits find themselves queued or signalled, no thread is ever about
to signal the park of a call that has returned. -/
theorem wake_before_return [DecidableEq T] (K : Config T C) (slots : C → U32 → α) (s : Sys T C α)
    (hs : Reaches (Sys.step K) (Sys.When Thread.expiryOk) (Sys.init slots) s) (t : T) (w : Wid)
    (hw : (s.thread t).wakes = some w) : ¬ s.Returned w.call := by
  have hinv : SysInv K s ∧ WakeInv s := by
    refine hs.invariant (P := fun s => SysInv K s ∧ WakeInv s)
      ⟨SysInv.init slots, WakeInv.init slots⟩ ?_
    rintro s l s' ⟨hinv, hwake⟩ hok hstep
    have hcases := Sys.step_cases hinv.locks.wf hstep
    exact ⟨hinv.step hcases, hwake.step hinv hok hcases⟩
  obtain ⟨st, hhand⟩ := Thread.hand_of_wakes hw
  obtain ⟨c, o, t', ht'⟩ := hinv.2.owned t w st hhand
  intro hret
  exact hinv.1.calls.ret_ne t' w.call hret (Thread.id_of_waits ht')

/-! ## A late signal -/

/-- One unbuffered channel. -/
def unbufferedOne : Config (Fin 2) Unit where
  chan _ := ChanCfg.create 0
  addr _ := 0
  spinLimit := 0
  self _ := 1

/-- One channel with a buffer of one element. -/
def bufferedOne : Config (Fin 3) Unit where
  chan _ := ChanCfg.create 1
  addr _ := 0
  spinLimit := 0
  self _ := 1

/-- Three threads on one SPSC channel of capacity one. -/
def spscOne : Config (Fin 3) Unit where
  chan _ := ChanCfg.createSpsc 1
  addr _ := 0
  spinLimit := 0
  self _ := 1

/-- The steps of a receiver that meets a queued sender, up to the signal: a sender with timeout parks,
the receiver takes its element and unlocks. -/
def meetTrace : List (Label (Fin 2) Unit Nat) :=
  [.call 0 (.direct () (.send 7 5)), .go 0 false, .go 0 false, .go 0 false, .go 0 false, .go 0 false,
   .call 1 (.direct () (.recv (-1))), .go 1 false, .go 1 false, .go 1 false, .go 1 false]

theorem wake_before_return_after_meet :
    ∃ s, Reaches (Sys.step unbufferedOne) (Sys.When Thread.expiryOk) (Sys.init fun _ _ => 0) s ∧
      (s.thread 1).wakes = some ⟨0, 0⟩ ∧ ¬ s.Returned 0 := by
  obtain ⟨s, hs, hw⟩ := Sys.exists_reaches unbufferedOne (fun _ _ => 0)
    (Sys.When Thread.expiryOk) meetTrace (fun s => (s.thread 1).wakes = some ⟨0, 0⟩) (by decide +kernel)
  exact ⟨s, hs, hw, wake_before_return _ _ s hs 1 ⟨0, 0⟩ hw⟩

/-- After the receiver has unlocked, the park of the sender expires; the sender finds itself dequeued
and returns, and the receiver still has to signal it. -/
theorem wake_after_return :
    ∃ s, Reaches (Sys.step unbufferedOne) Always (Sys.init fun _ _ => 0) s ∧
      (s.thread 1).wakes = some ⟨0, 0⟩ ∧ s.Returned 0 := by
  obtain ⟨s, hs, hw, hret⟩ := Sys.exists_reaches unbufferedOne (fun _ _ => 0) Always
    (meetTrace ++ [.go 0 true, .go 0 false, .go 0 false, .go 0 false, .go 0 false, .go 0 false])
    (fun s => (s.thread 1).wakes = some ⟨0, 0⟩ ∧ Event.ret 0 0 (.err .timeout) [] ∈ s.events)
    (by decide +kernel)
  exact ⟨s, hs, hw, 0, _, _, hret⟩

end LibChan
