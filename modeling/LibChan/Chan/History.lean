import LibChan.Chan.Queues

/-!
# The history of calls and returns

A running call has its call event, a call number has one call event and at most one return, and a call
that has not returned is running (`HistInv`). `Sys.Answered` is a call with what it has returned.
-/

set_option autoImplicit false

namespace LibChan

variable {T C α : Type}

/-- The call a thread is in. -/
def Thread.call? : Thread C α → Option (Nat × Call C α)
  | idle => none
  | direct id c op _ => some (id, .direct c op)
  | select id cases timeout _ => some (id, .select cases timeout)

/-- The call `k` with number `id` has returned `r` with the output buffers `out`. -/
def Sys.Answered (s : Sys T C α) (id : Nat) (k : Call C α) (r : Ret) (out : List (Option α)) : Prop :=
  ∃ t, .call id t k ∈ s.events ∧ .ret id t r out ∈ s.events

/-- Calls and returns in the history belong to the threads and to each other. -/
structure HistInv (s : Sys T C α) : Prop where
  running : ∀ t id k, (s.thread t).call? = some (id, k) → .call id t k ∈ s.events
  call_lt : ∀ id t k, .call id t k ∈ s.events → id < s.next
  call_inj : ∀ id t t' k k', .call id t k ∈ s.events → .call id t' k' ∈ s.events → t = t' ∧ k = k'
  ret_lt : ∀ id t r out, .ret id t r out ∈ s.events → id < s.next
  ret_inj : ∀ id t t' r r' out out', .ret id t r out ∈ s.events → .ret id t' r' out' ∈ s.events →
    r = r' ∧ out = out'
  pending : ∀ id t k, .call id t k ∈ s.events →
    (s.thread t).call? = some (id, k) ∨ ∃ r out, .ret id t r out ∈ s.events

theorem Thread.id_of_call {th : Thread C α} {id : Nat} {k : Call C α}
    (h : th.call? = some (id, k)) : th.id? = some id := by
  cases th with
  | idle => cases h
  | direct id' c op pc =>
    cases h
    rfl
  | select id' cases timeout pc =>
    cases h
    rfl

theorem Thread.call_of_id {th : Thread C α} {id : Nat} (h : th.id? = some id) :
    ∃ k, th.call? = some (id, k) := by
  cases th with
  | idle => cases h
  | direct id' c op pc =>
    cases h
    exact ⟨_, rfl⟩
  | select id' cases timeout pc =>
    cases h
    exact ⟨_, rfl⟩

theorem Thread.select_of_call {th : Thread C α} {id : Nat} {cases : List (Case C α)} {timeout : Int}
    (h : th.call? = some (id, .select cases timeout)) : ∃ pc, th = .select id cases timeout pc := by
  cases th with
  | idle => cases h
  | direct id' c op pc => cases h
  | select id' cases' timeout' pc =>
    cases h
    exact ⟨pc, rfl⟩

section Step

variable [DecidableEq T] [DecidableEq C] {K : Config T C} {s s' : Sys T C α} {l : Label T C α}

omit [DecidableEq T] in
theorem Thread.call_startThread (id : Nat) (k : Call C α) :
    (Sys.startThread K id k).call? = some (id, k) := by
  cases k <;> rfl

omit [DecidableEq T] in
theorem Sys.Acts.call_eq {t : T} {alt : Bool} {c : C} {e : Effect α} {th : Thread C α}
    (h : s.Acts K t alt c e th) : th.call? = (s.thread t).call? := by
  cases h with
  | direct hth hact =>
    rw [hth]
    rfl
  | select hth hact =>
    rw [hth]
    rfl

omit [DecidableEq T] [DecidableEq C] in
theorem HistInv.init (slots : C → U32 → α) : HistInv (Sys.init slots : Sys T C α) where
  running _ _ _ h := by cases h
  call_lt _ _ _ h := by cases h
  call_inj _ _ _ _ _ h := by cases h
  ret_lt _ _ _ _ h := by cases h
  ret_inj _ _ _ _ _ _ _ h := by cases h
  pending _ _ _ h := by cases h

theorem Sys.mem_events_startCall {t : T} {k : Call C α} {ev : Event T C α} :
    ev ∈ (s.startCall K t k).events ↔ ev ∈ s.events ∨ ev = .call s.next t k := by
  simp [Sys.startCall]

omit [DecidableEq C] in
theorem Sys.mem_events_finishCall {t : T} {id : Nat} {r : Ret} {out : List (Option α)}
    {ev : Event T C α} :
    ev ∈ (s.finishCall t id r out).events ↔ ev ∈ s.events ∨ ev = .ret id t r out := by
  simp [Sys.finishCall]

theorem HistInv.startCall (h : HistInv s) {t : T} (hidle : s.thread t = .idle) (k : Call C α) :
    HistInv (s.startCall K t k) := by
  have hold : ∀ id t' k', Event.call id t' k' ∈ (s.startCall K t k).events →
      Event.call id t' k' ∈ s.events ∧ id < s.next ∨ id = s.next ∧ t' = t ∧ k' = k := by
    intro id t' k' hmem
    rcases Sys.mem_events_startCall.1 hmem with hmem | heq
    · exact Or.inl ⟨hmem, h.call_lt id t' k' hmem⟩
    · cases heq
      exact Or.inr ⟨rfl, rfl, rfl⟩
  have hret : ∀ id t' r out, Event.ret id t' r out ∈ (s.startCall K t k).events →
      Event.ret id t' r out ∈ s.events := by
    intro id t' r out hmem
    rcases Sys.mem_events_startCall.1 hmem with hmem | heq
    · exact hmem
    · cases heq
  refine ⟨?_, ?_, ?_, ?_, ?_, ?_⟩
  · intro t' id k' hcall
    apply Sys.mem_events_startCall.2
    by_cases ht : t' = t
    · rw [ht, Sys.thread_startCall_self, Thread.call_startThread] at hcall
      cases hcall
      exact Or.inr (by rw [ht])
    · rw [Sys.thread_startCall_of_ne ht] at hcall
      exact Or.inl (h.running t' id k' hcall)
  · intro id t' k' hmem
    rcases hold id t' k' hmem with ⟨-, hlt⟩ | ⟨rfl, -⟩
    · exact Nat.lt_succ_of_lt hlt
    · exact Nat.lt_succ_self _
  · intro id t₁ t₂ k₁ k₂ h₁ h₂
    rcases hold id t₁ k₁ h₁ with ⟨h₁, hlt⟩ | ⟨rfl, rfl, rfl⟩
    · rcases hold id t₂ k₂ h₂ with ⟨h₂, -⟩ | ⟨rfl, -⟩
      · exact h.call_inj id t₁ t₂ k₁ k₂ h₁ h₂
      · exact absurd hlt (Nat.lt_irrefl _)
    · rcases hold _ t₂ k₂ h₂ with ⟨-, hlt⟩ | ⟨-, rfl, rfl⟩
      · exact absurd hlt (Nat.lt_irrefl _)
      · exact ⟨rfl, rfl⟩
  · intro id t' r out hmem
    exact Nat.lt_succ_of_lt (h.ret_lt id t' r out (hret id t' r out hmem))
  · intro id t₁ t₂ r₁ r₂ out₁ out₂ h₁ h₂
    exact h.ret_inj id t₁ t₂ r₁ r₂ out₁ out₂ (hret _ _ _ _ h₁) (hret _ _ _ _ h₂)
  · intro id t' k' hmem
    rcases hold id t' k' hmem with ⟨hmem, -⟩ | ⟨rfl, rfl, rfl⟩
    · rcases h.pending id t' k' hmem with hcall | ⟨r, out, hr⟩
      · refine Or.inl ?_
        have ht : t' ≠ t := by
          rintro rfl
          rw [hidle] at hcall
          cases hcall
        rw [Sys.thread_startCall_of_ne ht]
        exact hcall
      · exact Or.inr ⟨r, out, Sys.mem_events_startCall.2 (Or.inl hr)⟩
    · refine Or.inl ?_
      rw [Sys.thread_startCall_self]
      exact Thread.call_startThread _ _

omit [DecidableEq T] [DecidableEq C] in
theorem Sys.Returns.id_eq {t : T} {id : Nat} {r : Ret} {out : List (Option α)}
    (h : s.Returns t id r out) : (s.thread t).id? = some id := by
  cases h with
  | direct hth =>
    rw [hth]
    rfl
  | select hth =>
    rw [hth]
    rfl

omit [DecidableEq C] in
theorem HistInv.finishCall (h : HistInv s) (hcalls : CallInv s) {t : T} {id : Nat}
    {r : Ret} {out : List (Option α)} (hret : s.Returns t id r out) :
    HistInv (s.finishCall t id r out) := by
  have hcallOld : ∀ id' t' k', Event.call id' t' k' ∈ (s.finishCall t id r out).events →
      Event.call id' t' k' ∈ s.events := by
    intro id' t' k' hmem
    rcases Sys.mem_events_finishCall.1 hmem with hmem | heq
    · exact hmem
    · cases heq
  have hid := hret.id_eq
  have hfresh : ∀ t' r' out', Event.ret id t' r' out' ∉ s.events := fun t' r' out' hmem =>
    hcalls.ret_ne t id ⟨t', r', out', hmem⟩ hid
  refine ⟨?_, ?_, ?_, ?_, ?_, ?_⟩
  · intro t' id' k' hcall
    apply Sys.mem_events_finishCall.2
    by_cases ht : t' = t
    · rw [ht, Sys.thread_finishCall_self] at hcall
      cases hcall
    · rw [Sys.thread_finishCall_of_ne ht] at hcall
      exact Or.inl (h.running t' id' k' hcall)
  · intro id' t' k' hmem
    exact h.call_lt id' t' k' (hcallOld id' t' k' hmem)
  · intro id' t₁ t₂ k₁ k₂ h₁ h₂
    exact h.call_inj id' t₁ t₂ k₁ k₂ (hcallOld _ _ _ h₁) (hcallOld _ _ _ h₂)
  · intro id' t' r' out' hmem
    rcases Sys.mem_events_finishCall.1 hmem with hmem | heq
    · exact h.ret_lt id' t' r' out' hmem
    · cases heq
      exact hcalls.id_lt t id hid
  · intro id' t₁ t₂ r₁ r₂ out₁ out₂ h₁ h₂
    rcases Sys.mem_events_finishCall.1 h₁ with h₁ | h₁
    · rcases Sys.mem_events_finishCall.1 h₂ with h₂ | h₂
      · exact h.ret_inj id' t₁ t₂ r₁ r₂ out₁ out₂ h₁ h₂
      · cases h₂
        exact absurd h₁ (hfresh _ _ _)
    · cases h₁
      rcases Sys.mem_events_finishCall.1 h₂ with h₂ | h₂
      · exact absurd h₂ (hfresh _ _ _)
      · cases h₂
        exact ⟨rfl, rfl⟩
  · intro id' t' k' hmem
    rcases h.pending id' t' k' (hcallOld id' t' k' hmem) with hcall | ⟨r', out', hr⟩
    · by_cases ht : t' = t
      · subst ht
        have hid' := Thread.id_of_call hcall
        rw [hid] at hid'
        cases hid'
        exact Or.inr ⟨r, out, Sys.mem_events_finishCall.2 (Or.inr rfl)⟩
      · refine Or.inl ?_
        rw [Sys.thread_finishCall_of_ne ht]
        exact hcall
    · exact Or.inr ⟨r', out', Sys.mem_events_finishCall.2 (Or.inl hr)⟩

theorem HistInv.step (h : HistInv s) (hcalls : CallInv s) (hstep : s.Stepped K l s') :
    HistInv s' := by
  cases hstep with
  | call hidle => exact h.startCall hidle _
  | ret hdone hret => exact h.finishCall hcalls hret
  | @move t alt c e th hnext hacts =>
    have hcall : ∀ t', ((s.move K t c e th).thread t').call? = (s.thread t').call? :=
      Sys.move_congr Thread.call? hacts.call_eq
    refine ⟨fun t id k hrun => ?_, h.call_lt, h.call_inj, h.ret_lt, h.ret_inj, fun id t k hmem => ?_⟩
    · rw [hcall] at hrun
      exact h.running t id k hrun
    · rcases h.pending id t k hmem with hrun | hret
      · exact Or.inl ((hcall t).trans hrun)
      · exact Or.inr hret

/-- A call that has returned after a step had returned before it, or returns in this step. -/
theorem Sys.Stepped.ret_cases (hstep : s.Stepped K l s') (h : HistInv s) {id : Nat} {k : Call C α}
    {r : Ret} {out : List (Option α)} (hret : s'.Answered id k r out) :
    s.Answered id k r out ∨ ∃ t, s' = s.finishCall t id r out ∧ s.Returns t id r out ∧
      (s.thread t).call? = some (id, k) := by
  obtain ⟨t', hcall, hret⟩ := hret
  cases hstep with
  | @call t k' hidle =>
    refine Or.inl ⟨t', ?_⟩
    rcases Sys.mem_events_startCall.1 hret with hold | heq
    · rcases Sys.mem_events_startCall.1 hcall with hcallOld | heq
      · exact ⟨hcallOld, hold⟩
      · cases heq
        exact absurd (h.ret_lt _ _ _ _ hold) (Nat.lt_irrefl _)
    · cases heq
  | @ret t alt id' r' out' hdone hreturn =>
    have hcallOld : Event.call id t' k ∈ s.events := by
      rcases Sys.mem_events_finishCall.1 hcall with hold | heq
      · exact hold
      · cases heq
    rcases Sys.mem_events_finishCall.1 hret with hold | heq
    · exact Or.inl ⟨t', hcallOld, hold⟩
    · cases heq
      obtain ⟨k', hk'⟩ := Thread.call_of_id hreturn.id_eq
      obtain ⟨-, rfl⟩ := h.call_inj _ _ _ _ _ hcallOld (h.running _ _ _ hk')
      exact Or.inr ⟨t', rfl, hreturn, hk'⟩
  | move hnext hacts => exact Or.inl ⟨t', hcall, hret⟩

/-! ## One call at a time -/

omit [DecidableEq T] [DecidableEq C] in
/-- `P` holds of each thread, and `R` of each call that has returned. -/
structure Sys.Each (P : Sys T C α → Thread C α → Prop)
    (R : Sys T C α → Nat → Call C α → Ret → Prop) (s : Sys T C α) : Prop where
  running : ∀ t, P s (s.thread t)
  returned : ∀ id k r out, s.Answered id k r out → R s id k r

omit [DecidableEq T] [DecidableEq C] in
theorem Sys.Each.init {P : Sys T C α → Thread C α → Prop}
    {R : Sys T C α → Nat → Call C α → Ret → Prop} (slots : C → U32 → α)
    (hidle : P (Sys.init slots) .idle) : Sys.Each P R (Sys.init slots) where
  running _ := hidle
  returned _ _ _ _ h := by
    obtain ⟨t, h, -⟩ := h
    cases h

/-- One step keeps a statement about calls: the thread that moves has to be looked at, and the other
threads and the returned calls have to bear with the step. -/
theorem Sys.Each.step {P : Sys T C α → Thread C α → Prop}
    {R : Sys T C α → Nat → Call C α → Ret → Prop} (h : Sys.Each P R s) (hist : HistInv s)
    (hstep : s.Stepped K l s') (hidle : P s' .idle)
    (hstart : ∀ t k, s.thread t = .idle → s' = s.startCall K t k →
      P s' (Sys.startThread K s.next k))
    (hown : ∀ t alt c e th, l = .go t alt → (s.thread t).Next K s.mem c th e →
      s.Acts K t alt c e th → s' = s.move K t c e th → P s (s.thread t) → P s' th)
    (hother : ∀ u, u ≠ l.who → P s (s.thread u) → P s' (s.thread u))
    (hret : ∀ t id k r out, s.Returns t id r out → (s.thread t).call? = some (id, k) →
      s' = s.finishCall t id r out → P s (s.thread t) → R s' id k r)
    (hold : ∀ id k r out, s.Answered id k r out → R s id k r → R s' id k r) :
    Sys.Each P R s' := by
  refine ⟨fun u => ?_, fun id k r out hans => ?_⟩
  · cases hstep with
    | @call t k hfree =>
      by_cases hu : u = t
      · rw [hu, Sys.thread_startCall_self]
        exact hstart t k hfree rfl
      · rw [Sys.thread_startCall_of_ne hu]
        exact hother u hu (h.running u)
    | @ret t alt id r out hdone hreturn =>
      by_cases hu : u = t
      · rw [hu, Sys.thread_finishCall_self]
        exact hidle
      · rw [Sys.thread_finishCall_of_ne hu]
        exact hother u hu (h.running u)
    | @move t alt c e th hnext hacts =>
      by_cases hu : u = t
      · rw [hu, Sys.thread_move_self]
        exact hown t alt c e th rfl hnext hacts rfl (h.running t)
      · rw [Sys.thread_move_of_ne hu]
        exact hother u hu (h.running u)
  · rcases hstep.ret_cases hist hans with hprev | ⟨t, heq, hreturn, hcall⟩
    · exact hold id k r out hprev (h.returned id k r out hprev)
    · exact hret t id k r out hreturn hcall heq (h.running t)

end Step

end LibChan
