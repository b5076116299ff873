import LibChan.Chan.Truth
import LibChan.Chan.Ledger

/-!
# What calls report

The output buffers that a call has reported are not written any more once it has returned, and what it
returned is of the kind its operation returns (`ReportInv`). In runs without selects everything that is
said to have been moved has been moved, with no condition on the steps (`DirectValid`).
-/

set_option autoImplicit false

namespace LibChan

variable {T C α : Type}

/-- The output buffers a call reports with its result. -/
def Call.out (m : Mem T C α) (id : Nat) (k : Call C α) (r : Ret) : List (Option α) :=
  match k with
  | .direct _ op => Sys.directOut m id op r
  | .select cases _ => Sys.selectOut m id cases r

/-- The results of a call. -/
def Call.Fits (k : Call C α) (r : Ret) : Prop :=
  match k with
  | .direct _ op => op.Fits r
  | .select cases _ => SelPc.RetOk cases r

/-- The reports of the calls that have returned. -/
structure ReportInv (s : Sys T C α) : Prop where
  out : ∀ id k r out, s.Answered id k r out → out = k.out s.mem id r
  fits : ∀ id k r out, s.Answered id k r out → k.Fits r

theorem Call.out_congr {m m' : Mem T C α} {id : Nat}
    (h : ∀ i, (m'.waiter ⟨id, i⟩).data = (m.waiter ⟨id, i⟩).data) (k : Call C α) (r : Ret) :
    k.out m' id r = k.out m id r := by
  cases k with
  | direct c op =>
    show Sys.directOut m' id op r = Sys.directOut m id op r
    unfold Sys.directOut
    split
    · rw [h]
    · simp only [h]
    · rfl
  | select cases timeout =>
    show Sys.selectOut m' id cases r = Sys.selectOut m id cases r
    unfold Sys.selectOut
    split
    · split
      · rw [h]
      · rfl
    · rfl

section Step

variable [DecidableEq T] [DecidableEq C] {K : Config T C} {s s' : Sys T C α} {l : Label T C α}
  {id : Nat} {k : Call C α} {r : Ret} {out : List (Option α)}

/-- Nobody writes to the buffers of a call that has returned. -/
theorem Sys.Stepped.data_of_answered (hstep : s.Stepped K l s') (hs : Sound K s)
    (hans : s.Answered id k r out) (i : Nat) :
    (s'.mem.waiter ⟨id, i⟩).data = (s.mem.waiter ⟨id, i⟩).data := by
  obtain ⟨t₀, hcall, hret⟩ := hans
  have hreturned : s.Returned id := ⟨t₀, r, out, hret⟩
  cases hstep with
  | @call t k' hidle =>
    have hne : id ≠ s.next := Nat.ne_of_lt (hs.hist.call_lt id t₀ k hcall)
    show (if id = s.next then _ else s.mem.waiter ⟨id, i⟩).data = _
    rw [if_neg hne]
  | ret hdone hreturns => rfl
  | @move t alt c e th hnext hacts =>
    apply Mem.data_apply K s.mem t c e
    intro x hw
    -- the buffers a step writes to belong to its own call or to the waiter in its hands
    rcases hacts.tags (hs.ok t) (Effect.mem_tags_of_writes hw) with ⟨k', hk', -⟩ | hhand
    · exact hs.calls.ret_ne t id hreturned (Thread.id_of_call hk')
    · obtain ⟨u, hu⟩ := (hs.queues.claimed t _ _ _ hhand).1
      exact hs.calls.ret_ne u id hreturned (Thread.id_of_waits hu)

omit [DecidableEq T] [DecidableEq C] in
theorem ReportInv.init (slots : C → U32 → α) : ReportInv (Sys.init slots : Sys T C α) where
  out _ _ _ _ := fun ⟨_, h, _⟩ => by cases h
  fits _ _ _ _ := fun ⟨_, h, _⟩ => by cases h

theorem ReportInv.step (h : ReportInv s) (hs : Sound K s) (hstep : s.Stepped K l s') :
    ReportInv s' where
  out id k r out hans := by
    rcases hstep.ret_cases hs.hist hans with hans | ⟨t, rfl, hret, hcall⟩
    · rw [Call.out_congr (hstep.data_of_answered hs hans)]
      exact h.out id k r out hans
    · cases hret with
      | direct hth =>
        rw [hth] at hcall
        cases hcall
        rfl
      | select hth =>
        rw [hth] at hcall
        cases hcall
        rfl
  fits id k r out hans := by
    rcases hstep.ret_cases hs.hist hans with hans | ⟨t, -, hret, hcall⟩
    · exact h.fits id k r out hans
    · have hok := hs.ok t
      cases hret with
      | direct hth =>
        rw [hth] at hcall hok
        cases hcall
        exact hok
      | select hth =>
        rw [hth] at hcall hok
        cases hcall
        exact hok

end Step

/-! ## The counts of bursts -/

/-- The number of elements a burst may move: what it was asked for, clamped to `UINT32_MAX`. -/
def Op.room : Op α → Nat
  | .sendBurst xs => min xs.length (2 ^ 32 - 1)
  | .recvBurst n => min n (2 ^ 32 - 1)
  | _ => 0

/-- The count in a result. -/
def Ret.count? : Ret → Option Nat
  | .count n => some n
  | _ => none

/-- The count that is returned after a hand-over loop. -/
def ServeEnd.count? : ServeEnd → Option Nat
  | leave r => r.count?
  | block => none

/-- The count that a call at a place is going to return. -/
def Pc.count? : Pc α → Option Nat
  | fastAfter r | serveLock r | unlockRet r | ret r => r.count?
  | serve k _ => k.count?
  | _ => none

/-- A burst is going to return no more than it was asked for. -/
def Thread.Within : Thread C α → Prop
  | .direct _ _ op pc => op.burst = true → ∀ n ∈ pc.count?, n ≤ op.room
  | _ => True

/-- A burst has returned no more than it was asked for. -/
def Call.Within (k : Call C α) (r : Ret) : Prop :=
  match k with
  | .direct _ op => op.burst = true → ∀ n ∈ r.count?, n ≤ op.room
  | .select _ _ => True

/-- The counts of bursts are within what they were asked for. -/
abbrev BurstInv (s : Sys T C α) : Prop := Sys.Each (fun _ => Thread.Within) (fun _ _ => Call.Within) s

theorem Op.want_burstOp {op : Op α} (h : op.burst = true) (id : Nat) :
    (op.burstOp id).want = op.room := by
  cases op with
  | sendBurst xs => simp [burstOp, RingOp.want, room, Nat.min_comm]
  | recvBurst n => simp [burstOp, RingOp.want, room]
  | _ => cases h

/-- The waiters of a burst, in order. -/
theorem Op.wids_burstOp {op : Op α} (h : op.burst = true) (id : Nat) :
    (op.burstOp id).wids = (List.range op.room).map fun i => ⟨id, i⟩ := by
  cases op with
  | sendBurst xs =>
    have hlen : (xs.take (2 ^ 32 - 1)).length = min xs.length (2 ^ 32 - 1) := by
      rw [List.length_take, Nat.min_comm]
    rw [room, ← hlen, List.range_eq_range', ← List.zipIdx_map_snd, List.map_map]
    show ((xs.take (2 ^ 32 - 1)).zipIdx.map _).map Prod.fst ++ [] = _
    rw [List.append_nil, List.map_map]
    rfl
  | recvBurst n => rfl
  | _ => cases h

/-- The waiters for which a burst that returns `k` has moved an element. -/
theorem Op.mem_gotOf_burst {op : Op α} (h : op.burst = true) {id i k : Nat} :
    ⟨id, i⟩ ∈ op.gotOf id (.count k) ↔ i < k ∧ i < op.room := by
  rw [Op.gotOf, if_pos h, Op.wids_burstOp h, ← List.map_take, List.take_range]
  simp

theorem RingPc.Runs.moved_le {ω β : Type} {cap : RingCap} {r : Ring β} {weak : Bool} {op : RingOp ω β}
    {p : RingPc ω β} {res : RingRes β} (h : p.Runs op) (hstep : (r.step cap weak p).2 = .inr res) :
    res.moved ≤ op.want := by
  obtain ⟨rfl, hfit⟩ := h
  cases p with
  | loadHead op => cases hstep
  | loadOpp op a =>
    simp only [Ring.step] at hstep
    split at hstep <;> cases hstep
    exact Nat.zero_le _
  | cas op a k =>
    simp only [Ring.step] at hstep
    split at hstep <;> cases hstep
  | copy op a k i acc =>
    simp only [Ring.step] at hstep
    split at hstep <;> cases hstep
  | wait op a k acc =>
    simp only [Ring.step] at hstep
    split at hstep <;> cases hstep
  | store op a k acc =>
    cases hstep
    exact hfit.2.2

section Counts

variable {K : Config T C} {m : Mem T C α} {id : Nat} {c : C} {op : Op α} {alt : Bool}
  {pc pc' : Pc α} {e : Effect α}

/-- A count comes from the place before, or from the ring. -/
theorem Pc.count_of_flow (hflow : Pc.Flow K m id c op alt pc e pc') (hok : pc.Ok (K.chan c) id op)
    (hburst : op.burst = true) {n : Nat} (h : pc'.count? = some n) :
    pc.count? = some n ∨ n ≤ op.room := by
  have hzero : ∀ {n : Nat}, (Ret.count 0).count? = some n → n ≤ op.room := by
    intro n hn
    cases hn
    exact Nat.zero_le _
  cases hflow with
  | burstShut hshut => exact Or.inr (hzero h)
  | burstMiss hp hres => exact Or.inr (hzero h)
  | burstHit hp hres =>
    cases h
    rw [← Op.want_burstOp hburst id]
    exact Or.inr (hok.2.2.moved_le hp)
  | afterServe hcnt | afterRet hcnt | serveLock hfree | unlockRet => exact Or.inl h
  | serveFirst | serveGo hgo | serveClaim hqueue hclaim hrop | serveDrop hqueue hclaim => exact Or.inl h
  | serveIn hp | serveHit hp hres | serveMiss hp hres | serveSettle | serveWake => exact Or.inl h
  | serveStop hstop | serveEmpty hqueue | servePutBack => exact Or.inl h
  | lenHead =>
    cases op with
    | len => cases hburst
    | _ => cases hok
  | serveStopBlock hstop hblock | serveEmptyBlock hqueue hblock | servePutBackBlock hblock
  | meetEmptySend hqueue hop hblock | emptyOpen hopen hblock => cases hblock <;> cases h
  | _ => cases h

variable [DecidableEq T] [DecidableEq C] {s s' : Sys T C α} {l : Label T C α}

theorem BurstInv.step (h : BurstInv s) (hs : Sound K s) (hstep : s.Stepped K l s') : BurstInv s' := by
  refine Sys.Each.step h hs.hist hstep trivial ?_ ?_ (fun _ _ hP => hP) ?_ (fun _ _ _ _ _ hR => hR)
  · rintro t k - -
    cases k with
    | select cases timeout => trivial
    | direct c op =>
      have hbegins := Pc.begins_entry (K.chan c) s.next op
      simp only [Sys.startThread]
      revert hbegins
      generalize Pc.entry (K.chan c) s.next op = pc
      intro hbegins _ n hn
      cases hbegins <;> cases hn
      exact Nat.zero_le _
  · rintro t alt c e th - - hacts - hP
    cases hacts with
    | select hth hact => trivial
    | direct hth hact =>
      rw [hth] at hP
      intro hburst n hn
      rcases Pc.count_of_flow (Pc.flow_of_act hact) (hs.direct_ok hth) hburst hn with hold | hle
      · exact hP hburst n hold
      · exact hle
  · rintro t id k r out hret hcall - hP
    cases hret with
    | select hth =>
      rw [hth] at hcall
      cases hcall
      trivial
    | direct hth =>
      rw [hth] at hcall hP
      cases hcall
      exact hP

end Counts

/-! ## Runs without selects -/

/-- The step does not call a select. -/
def Label.direct : Label T C α → Bool
  | .call _ k => !k.isSelect
  | .go _ _ => true

/-- No thread is in a select. -/
def Sys.NoSelect (s : Sys T C α) : Prop := ∀ t, (s.thread t).isSelect = false

section Direct

variable [DecidableEq T] [DecidableEq C] {K : Config T C} {s s' : Sys T C α} {l : Label T C α}

theorem Sys.NoSelect.step (h : s.NoSelect) (hl : l.direct = true) (hstep : s.Stepped K l s') :
    s'.NoSelect := by
  intro u
  cases hstep with
  | @call t k hidle =>
    by_cases hu : u = t
    · rw [hu, Sys.thread_startCall_self, (Sys.begun_startThread K s.next k).select]
      simpa [Label.direct] using hl
    · rw [Sys.thread_startCall_of_ne hu]
      exact h u
  | @ret t alt id r out hdone hret =>
    by_cases hu : u = t
    · rw [hu, Sys.thread_finishCall_self]
      rfl
    · rw [Sys.thread_finishCall_of_ne hu]
      exact h u
  | move hnext hacts =>
    rw [Sys.move_congr Thread.isSelect hnext.select]
    exact h u

omit [DecidableEq T] [DecidableEq C] in
/-- A condition on the steps of selects is met in a run without them. -/
theorem Sys.NoSelect.when (h : s.NoSelect) {f : Mem T C α → Thread C α → Bool}
    (hidle : f s.mem .idle = true) (hdirect : ∀ id c op pc, f s.mem (.direct id c op pc) = true)
    (l : Label T C α) : Sys.When f s l := by
  cases l with
  | call t k => trivial
  | go t alt =>
    show f s.mem (s.thread t) = true
    have ht := h t
    cases hth : s.thread t with
    | idle => exact hidle
    | direct id c op pc => exact hdirect id c op pc
    | select id cases timeout pc =>
      rw [hth] at ht
      cases ht

omit [DecidableEq T] in
/-- The steps of a run without selects are steps of direct calls. -/
theorem Sys.NoSelect.flow (h : s.NoSelect) {t : T} {alt : Bool} {c : C} {e : Effect α}
    {th : Thread C α} (hacts : s.Acts K t alt c e th) :
    ∃ id op pc pc', s.thread t = .direct id c op pc ∧ th = .direct id c op pc' ∧
      Pc.Flow K s.mem id c op alt pc e pc' := by
  cases hacts with
  | direct hth hact => exact ⟨_, _, _, _, hth, rfl, Pc.flow_of_act hact⟩
  | select hth hact =>
    have ht := h t
    rw [hth] at ht
    cases ht

/-- What holds in every run without selects. -/
structure DirectValid (K : Config T C) (s : Sys T C α) : Prop extends Valid K s where
  direct : s.NoSelect
  must : MustInv s
  reports : ReportInv s

omit [DecidableEq T] in
theorem DirectValid.init (slots : C → U32 → α) : DirectValid K (Sys.init slots : Sys T C α) :=
  ⟨.init slots, fun _ => rfl, .init slots, .init slots⟩

theorem DirectValid.step (h : DirectValid K s) (hl : l.direct = true) (hstep : s.Stepped K l s') :
    DirectValid K s' :=
  ⟨h.toValid.step hstep, h.direct.step hl hstep,
    h.must.step h.toSound h.waiters (h.direct.when rfl (fun _ _ _ _ => rfl) l) hstep,
    h.reports.step h.toSound hstep⟩

end Direct

end LibChan
