import LibChan.Chan.Steps

/-!
# Calls and locks

What holds in every run, whatever the threads call: call numbers identify threads (`CallInv`), and
locks are where the places say (`LockInv`).
-/

set_option autoImplicit false

namespace LibChan

variable {T C α : Type} [DecidableEq C]

omit [DecidableEq C] in
/-- A direct call has a waiter of its own channel in hand, and the lock until it is to be woken. -/
theorem Pc.hand_stage {c : C} {w : Wid} {op : Op α} {pc : Pc α} {st : Stage C}
    (h : pc.hand c op = some (w, st)) :
    st = .late ∨ pc.locked = true ∧ ∃ o, st = .claimed c o ∨ st = .settled c o := by
  cases pc with
  | serve k sp =>
    cases sp with
    | ring v p | putBack v | settle v => cases h; exact Or.inr ⟨rfl, _, Or.inl rfl⟩
    | wake v => cases h; exact Or.inr ⟨rfl, _, Or.inr rfl⟩
    | _ => cases h
  | meetCopy v => cases h; exact Or.inr ⟨rfl, _, Or.inl rfl⟩
  | meetUnlock v => cases h; exact Or.inr ⟨rfl, _, Or.inr rfl⟩
  | helpRing v p | helpPutBack v | helpSettle v => cases h; exact Or.inr ⟨rfl, _, Or.inl rfl⟩
  | helpUnlock v => cases h; exact Or.inr ⟨rfl, _, Or.inr rfl⟩
  | wakeRet v => cases h; exact Or.inl rfl
  | closeRing v p => cases h; exact Or.inr ⟨rfl, _, Or.inl rfl⟩
  | closeSettle o v r => cases h; exact Or.inr ⟨rfl, _, Or.inl rfl⟩
  | closeWake o v => cases h; exact Or.inr ⟨rfl, _, Or.inr rfl⟩
  | _ => cases h

omit [DecidableEq C] in
theorem SelPc.execHand_stage {w : Wid} {k : Case C α} {sp : ExecPc α} {st : Stage C}
    (h : SelPc.execHand k sp = some (w, st)) :
    st = .claimed k.chan k.op.other ∨ st = .settled k.chan k.op.other := by
  cases sp with
  | meetCopy v | helpRing v p | helpSettle v => cases h; exact Or.inl rfl
  | wake v => cases h; exact Or.inr rfl
  | _ => cases h

namespace Thread

variable {th : Thread C α} {c d : C} {o o' : ChanOp} {w : Wid} {K : Config T C}

omit [DecidableEq C] in
theorem id_of_waits (h : th.Waits c o w) : th.id? = some w.call := by
  cases th with
  | idle => exact h.elim
  | direct id c' op pc =>
    obtain ⟨-, -, rfl, -⟩ := h
    rfl
  | select id cases timeout pc =>
    obtain ⟨rfl, -⟩ := h
    rfl

omit [DecidableEq C] in
/-- The only waiter of a direct call has index zero. -/
theorem idx_of_waits (hsel : th.isSelect = false) (h : th.Waits c o w) : w.idx = 0 := by
  cases th with
  | idle => exact h.elim
  | direct id c' op pc =>
    obtain ⟨-, -, rfl, -⟩ := h
    rfl
  | select id cases timeout pc => cases hsel

omit [DecidableEq C] in
/-- A waiter belongs to one queue. -/
theorem waits_unique (h : th.Waits c o w) (h' : th.Waits d o' w) : c = d ∧ o = o' := by
  cases th with
  | idle => exact h.elim
  | direct id c' op pc => exact ⟨h.1.trans h'.1.symm, h.2.1.trans h'.2.1.symm⟩
  | select id cases timeout pc =>
    obtain ⟨-, -, k, hk, rfl, rfl⟩ := h
    obtain ⟨-, -, k', hk', rfl, rfl⟩ := h'
    cases hk.symm.trans hk'
    exact ⟨rfl, rfl⟩

/-- A waiter is claimed and settled under the lock of its channel. -/
theorem mem_holds_of_hand {st : Stage C} (h : th.hand = some (w, st))
    (hst : st = .claimed c o ∨ st = .settled c o) : c ∈ th.holds K := by
  cases th with
  | idle => cases h
  | direct id c' op pc =>
    rcases Pc.hand_stage h with rfl | ⟨hlocked, o', hst'⟩
    · rcases hst with hst | hst <;> cases hst
    · have hc : c = c' := by
        rcases hst with rfl | rfl <;> rcases hst' with hst' | hst' <;> cases hst' <;> rfl
      rw [holds, if_pos hlocked, hc]
      exact List.mem_singleton.2 rfl
  | select id cases timeout pc =>
    cases pc with
    | exec i sp =>
      obtain ⟨k, hk, hexec⟩ := Option.bind_eq_some_iff.1 h
      have hc : c = k.chan := by
        rcases hst with rfl | rfl <;> rcases SelPc.execHand_stage hexec with hst' | hst' <;>
          cases hst' <;> rfl
      rw [hc]
      exact SelPc.mem_locks hk
    | _ => cases h

end Thread

section Inv

variable [DecidableEq T] {K : Config T C} {s s' : Sys T C α} {l : Label T C α}

/-! ## Call numbers -/

/-- Call numbers: the running calls have different numbers below the counter, numbers that have
returned are not running, and a call has a select state iff it is a select. -/
structure CallInv (s : Sys T C α) : Prop where
  id_lt : ∀ t id, (s.thread t).id? = some id → id < s.next
  id_inj : ∀ t t' id, (s.thread t).id? = some id → (s.thread t').id? = some id → t = t'
  ret_lt : ∀ id, s.Returned id → id < s.next
  ret_ne : ∀ t id, s.Returned id → (s.thread t).id? ≠ some id
  state : ∀ t id, (s.thread t).id? = some id →
    (s.mem.selectState id).isSome = (s.thread t).isSelect
  fresh : ∀ id, s.next ≤ id → s.mem.selectState id = none

omit [DecidableEq C] [DecidableEq T] in
theorem CallInv.init (slots : C → U32 → α) : CallInv (Sys.init slots : Sys T C α) where
  id_lt _ _ h := by cases h
  id_inj _ _ _ h := by cases h
  ret_lt _ h := by
    obtain ⟨t, r, out, hmem⟩ := h
    cases hmem
  ret_ne _ _ h := by
    obtain ⟨t, r, out, hmem⟩ := h
    cases hmem
  state _ _ h := by cases h
  fresh _ _ := rfl

theorem Sys.returned_startCall {t : T} {k : Call C α} {id : Nat} :
    (s.startCall K t k).Returned id ↔ s.Returned id := by
  simp [Sys.Returned, Sys.startCall]

omit [DecidableEq C] in
theorem Sys.returned_finishCall {t : T} {id id' : Nat} {r : Ret} {out : List (Option α)} :
    (s.finishCall t id r out).Returned id' ↔ s.Returned id' ∨ id' = id := by
  simp only [Sys.Returned, Sys.finishCall, List.mem_append, List.mem_singleton, Event.ret.injEq]
  constructor
  · rintro ⟨t', r', out', hmem | ⟨rfl, -⟩⟩
    · exact Or.inl ⟨t', r', out', hmem⟩
    · exact Or.inr rfl
  · rintro (⟨t', r', out', hmem⟩ | rfl)
    · exact ⟨t', r', out', Or.inl hmem⟩
    · exact ⟨t, r, out, Or.inr ⟨rfl, rfl, rfl, rfl⟩⟩

theorem Effect.isSome_stateAfter (e : Effect α) (id : Nat) (st : Option Bool) :
    (e.stateAfter id st).isSome = st.isSome := by
  cases e with
  | claim o w =>
    rw [Effect.stateAfter]
    split
    · cases st <;> rfl
    · rfl
  | _ => rfl

theorem CallInv.startCall (h : CallInv s) (t : T) (k : Call C α) :
    CallInv (s.startCall K t k) := by
  have hnew := Sys.begun_startThread K s.next k
  have hstate : ∀ id, id ≠ s.next →
      (s.startCall K t k).mem.selectState id = s.mem.selectState id := by
    intro id hid
    cases k with
    | direct c op => rfl
    | select cases timeout => exact Function.update_of_ne hid _ _
  refine ⟨?_, ?_, ?_, ?_, ?_, ?_⟩
  · intro t' id hid
    by_cases ht : t' = t
    · rw [ht, Sys.thread_startCall_self, hnew.id] at hid
      cases hid
      exact Nat.lt_succ_self _
    · rw [Sys.thread_startCall_of_ne ht] at hid
      exact Nat.lt_succ_of_lt (h.id_lt t' id hid)
  · intro t₁ t₂ id h₁ h₂
    by_cases ht₁ : t₁ = t <;> by_cases ht₂ : t₂ = t
    · rw [ht₁, ht₂]
    · rw [ht₁, Sys.thread_startCall_self, hnew.id] at h₁
      rw [Sys.thread_startCall_of_ne ht₂] at h₂
      cases h₁
      exact absurd (h.id_lt t₂ _ h₂) (Nat.lt_irrefl _)
    · rw [ht₂, Sys.thread_startCall_self, hnew.id] at h₂
      rw [Sys.thread_startCall_of_ne ht₁] at h₁
      cases h₂
      exact absurd (h.id_lt t₁ _ h₁) (Nat.lt_irrefl _)
    · rw [Sys.thread_startCall_of_ne ht₁] at h₁
      rw [Sys.thread_startCall_of_ne ht₂] at h₂
      exact h.id_inj t₁ t₂ id h₁ h₂
  · intro id hret
    exact Nat.lt_succ_of_lt (h.ret_lt id (Sys.returned_startCall.1 hret))
  · intro t' id hret hid
    have hret' := Sys.returned_startCall.1 hret
    by_cases ht : t' = t
    · rw [ht, Sys.thread_startCall_self, hnew.id] at hid
      cases hid
      exact absurd (h.ret_lt _ hret') (Nat.lt_irrefl _)
    · rw [Sys.thread_startCall_of_ne ht] at hid
      exact h.ret_ne t' id hret' hid
  · intro t' id hid
    by_cases ht : t' = t
    · rw [ht, Sys.thread_startCall_self, hnew.id] at hid
      cases hid
      rw [ht, Sys.thread_startCall_self, hnew.select]
      cases k with
      | direct c op => exact (congrArg Option.isSome (h.fresh _ (Nat.le_refl _))).trans rfl
      | select cases timeout =>
        exact congrArg Option.isSome (Function.update_self s.next (some false) s.mem.selectState)
    · rw [Sys.thread_startCall_of_ne ht] at hid ⊢
      rw [hstate id (Nat.ne_of_lt (h.id_lt t' id hid))]
      exact h.state t' id hid
  · intro id hid
    rw [hstate id (Nat.ne_of_gt (Nat.lt_of_succ_le hid))]
    exact h.fresh id (Nat.le_of_succ_le hid)

theorem CallInv.finishCall (h : CallInv s) {t : T} {id : Nat} {r : Ret} {out : List (Option α)}
    (hdone : (s.thread t).Done K id) : CallInv (s.finishCall t id r out) := by
  have hother : ∀ t' id', ((s.finishCall t id r out).thread t').id? = some id' →
      t' ≠ t ∧ (s.finishCall t id r out).thread t' = s.thread t' := by
    intro t' id' hid
    by_cases ht : t' = t
    · rw [ht, Sys.thread_finishCall_self] at hid
      cases hid
    · exact ⟨ht, Sys.thread_finishCall_of_ne ht⟩
  refine ⟨?_, ?_, ?_, ?_, ?_, h.fresh⟩
  · intro t' id' hid
    rw [(hother t' id' hid).2] at hid
    exact h.id_lt t' id' hid
  · intro t₁ t₂ id' h₁ h₂
    rw [(hother t₁ id' h₁).2] at h₁
    rw [(hother t₂ id' h₂).2] at h₂
    exact h.id_inj t₁ t₂ id' h₁ h₂
  · intro id' hret
    rcases Sys.returned_finishCall.1 hret with hret | rfl
    · exact h.ret_lt id' hret
    · exact h.id_lt t id' hdone.id
  · intro t' id' hret hid
    obtain ⟨hne, heq⟩ := hother t' id' hid
    rw [heq] at hid
    rcases Sys.returned_finishCall.1 hret with hret | rfl
    · exact h.ret_ne t' id' hret hid
    · exact hne (h.id_inj t' t id' hid hdone.id)
  · intro t' id' hid
    have heq := (hother t' id' hid).2
    rw [heq] at hid ⊢
    exact h.state t' id' hid

section Move

variable {t : T} {c : C} {e : Effect α} {th : Thread C α}

theorem CallInv.move (h : CallInv s) (hnext : (s.thread t).Next K s.mem c th e) :
    CallInv (s.move K t c e th) := by
  have hid : ∀ t', ((s.move K t c e th).thread t').id? = (s.thread t').id? :=
    Sys.move_congr Thread.id? hnext.id
  refine ⟨?_, ?_, h.ret_lt, ?_, ?_, ?_⟩
  · intro t' id h'
    exact h.id_lt t' id ((hid t').symm.trans h')
  · intro t₁ t₂ id h₁ h₂
    exact h.id_inj t₁ t₂ id ((hid t₁).symm.trans h₁) ((hid t₂).symm.trans h₂)
  · intro t' id hret h'
    exact h.ret_ne t' id hret ((hid t').symm.trans h')
  · intro t' id h'
    rw [Sys.move_congr Thread.isSelect hnext.select, ← h.state t' id ((hid t').symm.trans h')]
    exact (congrArg Option.isSome (Mem.selectState_apply K s.mem t c e id)).trans
      (e.isSome_stateAfter id _)
  · intro id hle
    have hnone := h.fresh id hle
    refine (Mem.selectState_apply K s.mem t c e id).trans ?_
    rw [← Option.isNone_iff_eq_none, ← Option.not_isSome, e.isSome_stateAfter, hnone]
    rfl

theorem CallInv.step (h : CallInv s) (hstep : s.Stepped K l s') : CallInv s' := by
  cases hstep with
  | call hidle => exact h.startCall _ _
  | ret hdone => exact h.finishCall hdone
  | move hnext => exact h.move hnext

end Move

/-! ## Locks -/

/-- The locks are held where the places say, each once. -/
structure LockInv (K : Config T C) (s : Sys T C α) : Prop where
  wf : ∀ t, (s.thread t).Wf K
  lock : ∀ c t, (s.mem.chan c).lock = some t ↔ c ∈ (s.thread t).holds K
  nodup : ∀ t, ((s.thread t).holds K).Nodup

omit [DecidableEq T] in
theorem LockInv.init (slots : C → U32 → α) : LockInv K (Sys.init slots : Sys T C α) where
  wf _ := trivial
  lock _ _ := by
    constructor
    · intro h
      cases h
    · intro h
      cases h
  nodup _ := List.nodup_nil

omit [DecidableEq T] in
theorem Sys.held_of_locked {t : T} {id : Nat} {c : C} {op : Op α} {pc : Pc α}
    (hth : s.thread t = .direct id c op pc) (hpc : pc.locked = true) : c ∈ (s.thread t).holds K := by
  rw [hth, Thread.holds, if_pos hpc]
  exact List.mem_singleton.2 rfl

omit [DecidableEq T] in
/-- Two threads do not hold one lock. -/
theorem LockInv.holds_inj (h : LockInv K s) {t t' : T} {c : C} (hc : c ∈ (s.thread t).holds K)
    (hc' : c ∈ (s.thread t').holds K) : t = t' :=
  Option.some.inj (((h.lock c t).2 hc).symm.trans ((h.lock c t').2 hc'))

theorem LockInv.startCall (h : LockInv K s) {t : T} {k : Call C α} (hidle : s.thread t = .idle) :
    LockInv K (s.startCall K t k) := by
  have hnew := Sys.begun_startThread K s.next k
  have hholds : ∀ t', ((s.startCall K t k).thread t').holds K = (s.thread t').holds K := by
    intro t'
    by_cases ht : t' = t
    · rw [ht, Sys.thread_startCall_self, hnew.holds, hidle]
      rfl
    · rw [Sys.thread_startCall_of_ne ht]
  refine ⟨fun t' => ?_, fun c t' => ?_, fun t' => ?_⟩
  · by_cases ht : t' = t
    · rw [ht, Sys.thread_startCall_self]
      exact hnew.wf
    · rw [Sys.thread_startCall_of_ne ht]
      exact h.wf t'
  · rw [hholds]
    exact h.lock c t'
  · rw [hholds]
    exact h.nodup t'

theorem LockInv.finishCall (h : LockInv K s) {t : T} {id : Nat} {r : Ret} {out : List (Option α)}
    (hdone : (s.thread t).Done K id) : LockInv K (s.finishCall t id r out) := by
  have hholds : ∀ t', ((s.finishCall t id r out).thread t').holds K = (s.thread t').holds K := by
    intro t'
    by_cases ht : t' = t
    · rw [ht, Sys.thread_finishCall_self, hdone.holds]
      rfl
    · rw [Sys.thread_finishCall_of_ne ht]
  refine ⟨fun t' => ?_, fun c t' => ?_, fun t' => ?_⟩
  · by_cases ht : t' = t
    · rw [ht, Sys.thread_finishCall_self]
      exact trivial
    · rw [Sys.thread_finishCall_of_ne ht]
      exact h.wf t'
  · rw [hholds]
    exact h.lock c t'
  · rw [hholds]
    exact h.nodup t'

section Move

variable {t : T} {c : C} {e : Effect α} {th : Thread C α}

omit [DecidableEq T] in
/-- A move takes a free lock, releases one, or leaves the locks alone. -/
theorem Move.locks {m : Mem T C α} {th₀ : Thread C α} (h : Move K m c th₀ th e) :
    (∀ l : Option T, e.lockAfter t l = l) ∧ th.holds K = th₀.holds K ∨
    e = .lock ∧ (m.chan c).lock = none ∧ th.holds K = th₀.holds K ++ [c] ∨
    e = .unlock ∧ th₀.holds K = c :: th.holds K := by
  cases h with
  | quiet he hholds =>
    refine Or.inl ⟨fun l => ?_, hholds⟩
    cases e <;> first | rfl | exact he.elim
  | self hholds => exact Or.inl ⟨fun _ => rfl, hholds⟩
  | lock hfree hholds => exact Or.inr (Or.inl ⟨rfl, hfree, hholds⟩)
  | unlock hholds => exact Or.inr (Or.inr ⟨rfl, hholds⟩)
  | claim _ _ _ hholds => exact Or.inl ⟨fun _ => rfl, hholds⟩
  | drop _ _ _ hholds => exact Or.inl ⟨fun _ => rfl, hholds⟩
  | enter he _ hholds =>
    refine Or.inl ⟨fun l => ?_, hholds⟩
    rcases he with ⟨rfl | rfl, -⟩ | ⟨rfl, -⟩ <;> rfl
  | leave _ hholds | skip _ _ hholds | woken _ _ hholds | putBack _ hholds =>
    exact Or.inl ⟨fun _ => rfl, hholds⟩
  | settle he _ hholds =>
    refine Or.inl ⟨fun l => ?_, hholds⟩
    rcases he with ⟨r, rfl⟩ | ⟨a, r, x, rfl⟩ <;> rfl
  | wake hholds => exact Or.inl ⟨fun _ => rfl, hholds⟩

theorem LockInv.move (h : LockInv K s) (hnext : (s.thread t).Next K s.mem c th e) :
    LockInv K (s.move K t c e th) := by
  have hlock : ∀ d, ((s.move K t c e th).mem.chan d).lock =
      if d = c then e.lockAfter t (s.mem.chan d).lock else (s.mem.chan d).lock :=
    Mem.lock_apply K s.mem t c e
  have hwf : ∀ t', ((s.move K t c e th).thread t').Wf K := by
    intro t'
    by_cases ht : t' = t
    · rw [ht, Sys.thread_move_self]
      exact hnext.wf
    · rw [Sys.thread_move_of_ne ht]
      exact h.wf t'
  rcases hnext.move.locks (t := t) with ⟨hsame, hholds⟩ | ⟨rfl, hfree, hholds⟩ | ⟨rfl, hholds⟩
  · have hall : ∀ t', ((s.move K t c e th).thread t').holds K = (s.thread t').holds K :=
      Sys.move_congr (Thread.holds K) hholds
    refine ⟨hwf, fun d t' => ?_, fun t' => ?_⟩
    · rw [hall, hlock, hsame, ite_self]
      exact h.lock d t'
    · rw [hall]
      exact h.nodup t'
  · -- the lock is taken: nobody held it before
    have hnot : ∀ t', c ∉ (s.thread t').holds K := by
      intro t' hc
      rw [(h.lock c t').2 hc] at hfree
      cases hfree
    refine ⟨hwf, fun d t' => ?_, fun t' => ?_⟩
    · rw [hlock]
      by_cases ht : t' = t
      · rw [ht, Sys.thread_move_self, hholds, List.mem_append, List.mem_singleton, ← h.lock d t]
        by_cases hd : d = c
        · simp [hd, Effect.lockAfter]
        · simp [hd]
      · rw [Sys.thread_move_of_ne ht, ← h.lock d t']
        by_cases hd : d = c
        · simp [hd, hfree, Effect.lockAfter, Ne.symm ht]
        · simp [hd]
    · by_cases ht : t' = t
      · rw [ht, Sys.thread_move_self, hholds, List.nodup_append]
        refine ⟨h.nodup t, List.nodup_singleton c, fun a ha b hb heq => ?_⟩
        rw [List.mem_singleton.1 hb] at heq
        exact hnot t (heq ▸ ha)
      · rw [Sys.thread_move_of_ne ht]
        exact h.nodup t'
  · -- the lock is released: it was the first of those held
    have hnodup := h.nodup t
    rw [hholds, List.nodup_cons] at hnodup
    have hmine : (s.mem.chan c).lock = some t := by
      rw [h.lock, hholds]
      exact List.mem_cons_self
    refine ⟨hwf, fun d t' => ?_, fun t' => ?_⟩
    · rw [hlock]
      by_cases hd : d = c
      · rw [if_pos hd, hd]
        constructor
        · intro hl
          cases hl
        · intro hc
          by_cases ht : t' = t
          · rw [ht, Sys.thread_move_self] at hc
            exact absurd hc hnodup.1
          · rw [Sys.thread_move_of_ne ht, ← h.lock, hmine] at hc
            exact absurd (Option.some.inj hc).symm ht
      · rw [if_neg hd, h.lock d t']
        by_cases ht : t' = t
        · rw [ht, Sys.thread_move_self, hholds, List.mem_cons]
          exact or_iff_right hd
        · rw [Sys.thread_move_of_ne ht]
    · by_cases ht : t' = t
      · rw [ht, Sys.thread_move_self]
        exact hnodup.2
      · rw [Sys.thread_move_of_ne ht]
        exact h.nodup t'

theorem LockInv.step (h : LockInv K s) (hstep : s.Stepped K l s') : LockInv K s' := by
  cases hstep with
  | call hidle => exact h.startCall hidle
  | ret hdone => exact h.finishCall hdone
  | move hnext => exact h.move hnext

end Move

end Inv

end LibChan
