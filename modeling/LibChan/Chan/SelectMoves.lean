import LibChan.Chan.Moves

/-!
# The moves of a select

Every step of `chan_select_impl` is a `Move`. The lock order is needed for it only so far that the
channel of every case is among the locks taken.
-/

set_option autoImplicit false

namespace LibChan

/-! ## Lock order -/

section Order

variable {T C α : Type} [DecidableEq C]

theorem mem_sortInsert {addr : Nat → Nat} {key i : Nat} {l : List Nat} :
    i ∈ sortInsert addr key l ↔ i = key ∨ i ∈ l := by
  induction l with
  | nil => simp [sortInsert]
  | cons a rest ih =>
    rw [sortInsert]
    split
    · rw [List.mem_cons, ih, List.mem_cons]
      tauto
    · rw [List.mem_cons]

theorem mem_sortOrder {addr : Nat → Nat} {n i : Nat} : i ∈ sortOrder addr n ↔ i < n := by
  have hfold : ∀ (is acc : List Nat),
      i ∈ is.foldl (fun acc i => sortInsert addr i acc) acc ↔ i ∈ is ∨ i ∈ acc := by
    intro is
    induction is with
    | nil => simp
    | cons a rest ih =>
      intro acc
      rw [List.foldl_cons, ih, mem_sortInsert, List.mem_cons]
      tauto
  rw [sortOrder, List.mem_reverse, hfold, List.mem_range]
  simp

theorem mem_lockOrder {addr : Nat → Nat} {n i : Nat} (hi : i < n) : i ∈ lockOrder addr n := by
  unfold lockOrder sortOrder2
  split
  · split <;> simp <;> omega
  · exact mem_sortOrder.2 hi

theorem mem_lockSeq {chans : List C} {order : List Nat} {i : Nat} {c : C} (prev : Option C)
    (hi : i ∈ order) (hc : chans[i]? = some c) : prev = some c ∨ c ∈ lockSeq chans prev order := by
  induction order generalizing prev with
  | nil => cases hi
  | cons a rest ih =>
    rw [lockSeq]
    rcases List.mem_cons.1 hi with rfl | hrest
    · rw [hc]
      by_cases hp : prev = some c
      · exact Or.inl hp
      · simp only [if_neg hp]
        exact Or.inr List.mem_cons_self
    · split
      · exact ih prev hrest
      · next d hd =>
        split
        · exact ih prev hrest
        · rcases ih (some d) hrest with heq | hmem
          · exact Or.inr (Option.some.inj heq ▸ List.mem_cons_self)
          · exact Or.inr (List.mem_cons_of_mem _ hmem)

/-- Every case's channel is locked. -/
theorem SelPc.mem_locks {K : Config T C} {cases : List (Case C α)} {i : Nat} {k : Case C α}
    (hk : cases[i]? = some k) : k.chan ∈ locks K cases := by
  have hi : i < cases.length := (List.getElem?_eq_some_iff.1 hk).1
  have hc : (cases.map Case.chan)[i]? = some k.chan := by
    rw [List.getElem?_map, hk]
    rfl
  rcases mem_lockSeq none (mem_lockOrder hi) hc with h | h
  · cases h
  · exact h

end Order

/-! ## Select -/

section Select

variable {T C α : Type} [DecidableEq C] {K : Config T C} {m : Mem T C α} {t : T} {id : Nat} {c d : C}
  {cases : List (Case C α)} {timeout : Int} {alt : Bool} {pc pc' : SelPc C α} {e : Effect α}
  {k : Case C α} {i : Nat} {v v' : Option (Wid × Stage C)}

/-- Two places of a select that look the same to the others. -/
structure SelPc.Alike (K : Config T C) (cases : List (Case C α)) (pc pc' : SelPc C α) : Prop where
  held : pc'.held K cases = pc.held K cases
  hand : pc'.hand cases = pc.hand cases
  waits : ∀ i k, cases[i]? = some k → pc'.waits i = pc.waits i

omit [DecidableEq C] in
theorem Thread.waits_congr (h : ∀ i k, cases[i]? = some k → pc'.waits i = pc.waits i)
    (d : C) (o : ChanOp) (w : Wid) : (Thread.select id cases timeout pc').Waits d o w ↔
      (Thread.select id cases timeout pc).Waits d o w := by
  refine and_congr_right fun _ => ?_
  constructor
  · rintro ⟨hw, k, hk, hrest⟩
    exact ⟨(h _ k hk).symm.trans hw, k, hk, hrest⟩
  · rintro ⟨hw, k, hk, hrest⟩
    exact ⟨(h _ k hk).trans hw, k, hk, hrest⟩

theorem Move.of_alike (he : e.Quiet) (h : SelPc.Alike K cases pc pc') :
    Move K m c (.select id cases timeout pc) (.select id cases timeout pc') e :=
  .quiet he h.held h.hand (Thread.waits_congr h.waits)

/-- A place before the locks are taken or after the call is decided. -/
def SelPc.Free (K : Config T C) (cases : List (Case C α)) (pc : SelPc C α) : Prop :=
  pc.held K cases = [] ∧ pc.hand cases = none ∧ (∀ i, pc.waits i = false) ∧ pc.Wf K cases

/-- A place with all locks taken and no stub registered, with the given hand. -/
def SelPc.Busy (K : Config T C) (cases : List (Case C α)) (v : Option (Wid × Stage C))
    (pc : SelPc C α) : Prop :=
  pc.held K cases = locks K cases ∧ pc.hand cases = v ∧ (∀ i, pc.waits i = false) ∧ pc.Wf K cases

theorem SelPc.Alike.of_free (h : pc.Free K cases) (h' : pc'.Free K cases) :
    SelPc.Alike K cases pc pc' :=
  ⟨h'.1.trans h.1.symm, h'.2.1.trans h.2.1.symm, fun i _ _ => (h'.2.2.1 i).trans (h.2.2.1 i).symm⟩

theorem SelPc.Alike.of_busy (h : pc.Busy K cases v) (h' : pc'.Busy K cases v) :
    SelPc.Alike K cases pc pc' :=
  ⟨h'.1.trans h.1.symm, h'.2.1.trans h.2.1.symm, fun i _ _ => (h'.2.2.1 i).trans (h.2.2.1 i).symm⟩

theorem SelPc.Busy.waits_iff (h : pc.Busy K cases v) (h' : pc'.Busy K cases v') (d : C)
    (o : ChanOp) (w : Wid) : (Thread.select id cases timeout pc').Waits d o w ↔
      (Thread.select id cases timeout pc).Waits d o w :=
  Thread.waits_congr (fun i _ _ => (h'.2.2.1 i).trans (h.2.2.1 i).symm) d o w

theorem SelPc.free_scan1 (i : Nat) : (scan1 cases i).Free K cases := by
  unfold scan1
  split
  · exact ⟨rfl, rfl, fun _ => rfl, trivial⟩
  · exact ⟨rfl, rfl, fun _ => rfl, trivial⟩

theorem SelPc.held_lock (k : LockNext) : (SelPc.lock K cases k).held K cases = [] := by
  rw [SelPc.lock, SelPc.held, Nat.sub_self, List.take_zero]

theorem SelPc.free_scan2 (start j : Nat) : (scan2 K cases start j).Free K cases := by
  unfold scan2
  split
  · exact ⟨rfl, rfl, fun _ => rfl, trivial⟩
  · exact ⟨held_lock .ready, rfl, fun _ => rfl, [], rfl⟩

theorem SelPc.free_entry : (entry cases).Free K cases := by
  unfold entry
  split
  · exact ⟨rfl, rfl, fun _ => rfl, trivial⟩
  · exact free_scan1 0

theorem SelPc.busy_passed (rdy : List Nat) : (passed K cases timeout rdy).Busy K cases none := by
  unfold passed
  split
  · exact ⟨rfl, rfl, fun _ => rfl, trivial⟩
  · split
    · exact ⟨rfl, rfl, fun _ => rfl, trivial⟩
    · exact ⟨rfl, rfl, fun i => decide_eq_false (Nat.not_lt_zero i), trivial⟩

theorem SelPc.busy_readyFrom (i : Nat) (rdy : List Nat) :
    (readyFrom K m cases timeout i rdy).Busy K cases none := by
  unfold readyFrom
  split
  · exact busy_passed rdy
  · split
    · exact ⟨rfl, rfl, fun _ => rfl, trivial⟩
    · split
      · exact ⟨rfl, rfl, fun _ => rfl, trivial⟩
      · exact ⟨rfl, rfl, fun _ => rfl, trivial⟩

theorem SelPc.busy_actReady (rdy : List Nat) (st : ReadyPc) :
    (actReady K m cases timeout k i rdy st).Busy K cases none := by
  cases st with
  | closed =>
    simp only [actReady]
    split
    · split
      · exact busy_readyFrom _ _
      · split
        · exact busy_readyFrom _ _
        · exact ⟨rfl, rfl, fun _ => rfl, trivial⟩
    · exact busy_readyFrom _ _
  | first =>
    simp only [actReady]
    split
    · exact busy_readyFrom _ _
    · exact ⟨rfl, rfl, fun _ => rfl, trivial⟩
  | second a =>
    simp only [actReady]
    split
    · exact busy_readyFrom _ _
    · split
      · exact busy_readyFrom _ _
      · exact ⟨rfl, rfl, fun _ => rfl, trivial⟩

theorem SelPc.free_actFast1 (st : Fast1Pc) : (actFast1 m cases k i st).Free K cases := by
  have hfast : ∀ st', (fast1 i st' : SelPc C α).Free K cases := fun _ => ⟨rfl, rfl, fun _ => rfl, trivial⟩
  cases st with
  | closed =>
    simp only [actFast1]
    split
    · exact hfast _
    · exact free_scan1 _
  | cnt o =>
    cases o with
    | send =>
      simp only [actFast1]
      split
      · exact free_scan1 _
      · exact hfast _
    | recv =>
      simp only [actFast1]
      split
      · exact free_scan1 _
      · exact hfast _
  | tail => exact hfast _
  | head pt =>
    simp only [actFast1]
    split
    · exact ⟨rfl, rfl, fun _ => rfl, trivial⟩
    · exact free_scan1 _

theorem SelPc.free_actFast2 {w : Wid} {start j : Nat} {st : Fast2Pc α}
    (h : actFast2 K m cases k w alt start j st = (e, pc')) : e.Quiet ∧ pc'.Free K cases := by
  have hfast : ∀ st', (fast2 start j st' : SelPc C α).Free K cases :=
    fun _ => ⟨rfl, rfl, fun _ => rfl, trivial⟩
  cases st with
  | cnt o =>
    cases o with
    | send =>
      cases h
      refine ⟨trivial, ?_⟩
      split
      · exact free_scan2 _ _
      · exact hfast _
    | recv =>
      cases h
      refine ⟨trivial, ?_⟩
      split
      · exact free_scan2 _ _
      · split
        · exact hfast _
        · exact hfast _
  | closed =>
    cases h
    refine ⟨trivial, ?_⟩
    split
    · exact ⟨rfl, rfl, fun _ => rfl, trivial⟩
    · exact hfast _
  | ring p =>
    cases h
    refine ⟨trivial, ringNext_ind (SelPc.Free K cases) (fun _ => hfast _) fun res => ?_⟩
    split
    · exact free_scan2 _ _
    · exact ⟨rfl, rfl, fun _ => rfl, trivial⟩

/-! The moves of `execute_case_locked`, which holds all locks. -/

theorem SelPc.busy_exec (hk : cases[i]? = some k) (st : ExecPc α) :
    (exec i st : SelPc C α).Busy K cases (execHand k st) := by
  refine ⟨rfl, ?_, fun _ => rfl, trivial⟩
  rw [hand, hk]
  rfl

theorem SelPc.Busy.mem_holds (h : pc.Busy K cases v) (hk : cases[i]? = some k) :
    k.chan ∈ (Thread.select id cases timeout pc).holds K := by
  rw [Thread.holds, h.1]
  exact mem_locks hk

theorem Move.of_busy (he : e.Quiet) (h : pc.Busy K cases v) (h' : pc'.Busy K cases v) :
    Move K m c (.select id cases timeout pc) (.select id cases timeout pc') e :=
  .of_alike he (.of_busy h h')

theorem Move.claim_busy {o : ChanOp} {w : Wid} {q : List Wid} (hk : cases[i]? = some k)
    (hqueue : (m.chan k.chan).queue o = w :: q) (hclaim : m.claimable w = true)
    (h : pc.Busy K cases none) (h' : pc'.Busy K cases (some (w, .claimed k.chan o))) :
    Move K m k.chan (.select id cases timeout pc) (.select id cases timeout pc') (.claim o w) :=
  .claim hqueue hclaim (h.mem_holds hk) (h'.1.trans h.1.symm) h.2.1 h'.2.1 (h.waits_iff h')

theorem Move.drop_busy {o : ChanOp} {w : Wid} {q : List Wid} (hk : cases[i]? = some k)
    (hqueue : (m.chan k.chan).queue o = w :: q) (hclaim : m.claimable w = false)
    (h : pc.Busy K cases none) :
    Move K m k.chan (.select id cases timeout pc) (.select id cases timeout pc) (.drop o) :=
  .drop hqueue hclaim (h.mem_holds hk) rfl rfl fun _ _ _ => Iff.rfl

theorem Move.settle_busy {o : ChanOp} {w : Wid} (hk : cases[i]? = some k)
    (he : (∃ r, e = .settle w r) ∨ ∃ s r x, e = .pair s r w x)
    (h : pc.Busy K cases (some (w, .claimed k.chan o)))
    (h' : pc'.Busy K cases (some (w, .settled k.chan o))) :
    Move K m k.chan (.select id cases timeout pc) (.select id cases timeout pc') e :=
  .settle he (h.mem_holds hk) (h'.1.trans h.1.symm) h.2.1 h'.2.1 (h.waits_iff h')

/-- The steps of `execute_case_locked`. -/
theorem Move.of_actExec {st : ExecPc α} {w : Wid} {r : ChanErr → Ret} (hk : cases[i]? = some k)
    (h : SelPc.actExec K m k w alt (.exec i) (fun e => .unlock K cases (.ret (r e))) st =
      some (e, pc')) :
    Move K m k.chan (.select id cases timeout (.exec i st)) (.select id cases timeout pc') e := by
  have hexec : ∀ st', (SelPc.exec i st').Busy K cases (SelPc.execHand k st') := SelPc.busy_exec hk
  have hdone : ∀ e, (SelPc.unlock K cases (.ret (r e))).Busy K cases none :=
    fun _ => ⟨rfl, rfl, fun _ => rfl, trivial⟩
  cases st with
  | first =>
    cases h
    exact .of_busy trivial (hexec _) (hexec _)
  | second a =>
    cases h
    refine .of_busy (v := none) trivial (hexec _) ?_
    split
    · exact hexec _
    · exact hexec _
  | meetClaim =>
    simp only [SelPc.actExec, popNext] at h
    split at h
    · cases h
      refine .of_busy (v := none) trivial (hexec _) ?_
      split
      · split
        · exact hdone _
        · exact hexec _
      · exact hexec _
    · next w' q hq =>
      split at h
      · next hclaim =>
        cases h
        exact .claim_busy hk hq hclaim (hexec _) (hexec _)
      · next hclaim =>
        cases h
        exact .drop_busy hk hq (Bool.eq_false_iff.2 hclaim) (hexec _)
  | meetCopy w' =>
    simp only [SelPc.actExec] at h
    split at h
    · cases h
      exact .settle_busy hk (Or.inr ⟨_, _, _, rfl⟩) (hexec _) (hexec _)
    · obtain ⟨x, -, heq⟩ := Option.map_eq_some_iff.1 h
      cases heq
      exact .settle_busy hk (Or.inr ⟨_, _, _, rfl⟩) (hexec _) (hexec _)
  | ring p =>
    cases h
    exact .of_busy (v := none) trivial (hexec _)
      (ringNext_ind (SelPc.Busy K cases none) (fun _ => hexec _) fun _ => hexec _)
  | helpClaim =>
    simp only [SelPc.actExec] at h
    split at h
    · cases h
      exact .of_busy (v := none) trivial (hexec _) (hdone _)
    · next w' q hq =>
      split at h
      · next hclaim =>
        split at h
        · next hop =>
          cases h
          rw [hop] at hq
          refine .claim_busy hk hq hclaim (hexec _) ?_
          have := hexec (.helpSettle w')
          rwa [SelPc.execHand, hop] at this
        · next hop =>
          obtain ⟨rop, -, heq⟩ := Option.map_eq_some_iff.1 h
          cases heq
          rw [hop] at hq
          refine .claim_busy hk hq hclaim (hexec _) ?_
          have := hexec (.helpRing w' (.loadHead rop))
          rwa [SelPc.execHand, hop] at this
      · next hclaim =>
        cases h
        exact .drop_busy hk hq (Bool.eq_false_iff.2 hclaim) (hexec _)
  | helpRing w' p =>
    cases h
    exact .of_busy (v := some (w', .claimed k.chan k.op.other)) trivial (hexec _)
      (ringNext_ind (SelPc.Busy K cases _) (fun _ => hexec _) fun _ => hexec _)
  | helpSettle w' =>
    cases h
    exact .settle_busy hk (Or.inl ⟨_, rfl⟩) (hexec _) (hexec _)
  | wake w' =>
    cases h
    refine .wake ((hdone .ok).1.trans (hexec (.wake w')).1.symm) (hexec (.wake w')).2.1 ?_
      (hdone .ok).2.1 ((hexec (.wake w')).waits_iff (hdone .ok))
    exact Or.inr ⟨_, _, rfl, (hexec (.wake w')).mem_holds hk⟩
  | closed =>
    cases h
    exact .of_busy (v := none) trivial (hexec _) (hdone _)

theorem SelPc.held_lockAll {hs cs : List C} (h : locks K cases = hs ++ cs) (k : LockNext) :
    (lockAll cs k : SelPc C α).held K cases = hs := by
  rw [held, h, List.length_append, Nat.add_sub_cancel, List.take_left]

theorem SelPc.busy_execFrom (hk : cases[i]? = some k) (w : Wid) :
    (exec i (execFrom K m w k) : SelPc C α).Busy K cases none := by
  unfold execFrom
  split
  · exact busy_exec hk .meetClaim
  · split
    · split
      · exact busy_exec hk (.ring _)
      · exact busy_exec hk .first
    · exact busy_exec hk .first

omit [DecidableEq C] in
theorem SelPc.actPick_quiet (rdy : List Nat) : (actPick K m t rdy).1.Quiet := by
  unfold actPick
  split <;> exact trivial

omit [DecidableEq C] in
/-- The stub that is registered next joins the waiting ones. -/
theorem Thread.waits_stub (hk : cases[i]? = some k) (d : C) (o : ChanOp) (w : Wid) :
    (Thread.select id cases timeout (.stub (i + 1))).Waits d o w ↔
      (Thread.select id cases timeout (.stub i)).Waits d o w ∨
        d = k.chan ∧ o = k.op ∧ w = ⟨id, i⟩ := by
  simp only [Thread.Waits, SelPc.waits, decide_eq_true_eq]
  constructor
  · rintro ⟨hcall, hlt, k', hk', hc, ho⟩
    rcases Nat.lt_succ_iff_lt_or_eq.1 hlt with hlt | heq
    · exact Or.inl ⟨hcall, hlt, k', hk', hc, ho⟩
    · rw [heq, hk] at hk'
      cases hk'
      exact Or.inr ⟨hc.symm, ho.symm, by cases w; cases hcall; cases heq; rfl⟩
  · rintro (⟨hcall, hlt, hrest⟩ | ⟨rfl, rfl, rfl⟩)
    · exact ⟨hcall, Nat.lt_succ_of_lt hlt, hrest⟩
    · exact ⟨rfl, Nat.lt_succ_self i, k, hk, rfl, rfl⟩

omit [DecidableEq C] in
/-- The stub that is cleaned up leaves the waiting ones. -/
theorem Thread.waits_clean {b : Bool} {x y : Option Nat} (hk : cases[i]? = some k) (d : C)
    (o : ChanOp) (w : Wid) :
    (Thread.select id cases timeout (.clean (i + 1) b x)).Waits d o w ↔
      (Thread.select id cases timeout (.clean i b y)).Waits d o w ∧
        ¬ (d = k.chan ∧ o = k.op ∧ w = ⟨id, i⟩) := by
  simp only [Thread.Waits, SelPc.waits, decide_eq_true_eq]
  constructor
  · rintro ⟨hcall, hlt, hrest⟩
    refine ⟨⟨hcall, Nat.le_of_lt hlt, hrest⟩, ?_⟩
    rintro ⟨-, -, rfl⟩
    exact Nat.lt_irrefl i hlt
  · rintro ⟨⟨hcall, hle, k', hk', hc, ho⟩, hnot⟩
    refine ⟨hcall, ?_, k', hk', hc, ho⟩
    rcases Nat.eq_or_lt_of_le hle with heq | hlt
    · rw [← heq, hk] at hk'
      cases hk'
      exact absurd ⟨hc.symm, ho.symm, by cases w; cases hcall; cases heq; rfl⟩ hnot
    · exact hlt

omit [DecidableEq C] in
theorem Thread.waits_clean_self {b : Bool} {x : Option Nat} (hk : cases[i]? = some k) :
    (Thread.select id cases timeout (.clean i b x)).Waits k.chan k.op ⟨id, i⟩ :=
  ⟨rfl, decide_eq_true (Nat.le_refl i), k, hk, rfl, rfl⟩

/-- Every step of a select is a move. -/
theorem Move.of_select (hwf : pc.Wf K cases)
    (h : pc.act K m t id cases timeout alt d = some (c, e, pc')) :
    Move K m c (.select id cases timeout pc) (.select id cases timeout pc') e := by
  cases pc with
  | fast1 i st =>
    obtain ⟨k, hk, heq⟩ := Option.map_eq_some_iff.1 h
    cases heq
    exact .of_alike trivial (.of_free ⟨rfl, rfl, fun _ => rfl, trivial⟩ (SelPc.free_actFast1 st))
  | fast2Start =>
    cases h
    exact .of_alike trivial (.of_free ⟨rfl, rfl, fun _ => rfl, trivial⟩ (SelPc.free_scan2 _ _))
  | fast2 start j st =>
    obtain ⟨k, hk, heq⟩ := Option.map_eq_some_iff.1 h
    obtain ⟨rfl, hrest⟩ := Prod.mk.inj heq
    obtain ⟨he, hfree⟩ := SelPc.free_actFast2 hrest
    exact .of_alike he (.of_free ⟨rfl, rfl, fun _ => rfl, trivial⟩ hfree)
  | lockAll cs k =>
    obtain ⟨hs, hlocks⟩ := hwf
    have hheld := SelPc.held_lockAll hlocks
    cases cs with
    | nil =>
      rw [List.append_nil] at hlocks
      cases k with
      | ready =>
        cases h
        refine .of_busy trivial ⟨?_, rfl, fun _ => rfl, hs, ?_⟩ (SelPc.busy_readyFrom 0 [])
        · rw [hheld, hlocks]
        · rw [hlocks, List.append_nil]
      | clean woken =>
        cases h
        refine .of_alike trivial ⟨?_, rfl, fun i _ _ => rfl⟩
        rw [hheld, ← hlocks]
        rfl
    | cons a rest =>
      obtain ⟨hfree, heq⟩ := Option.ite_none_right_eq_some.1 h
      cases heq
      refine .lock hfree ?_ rfl rfl (Thread.waits_congr fun i _ _ => ?_)
      · rw [Thread.holds, Thread.holds, hheld]
        exact SelPc.held_lockAll (by rw [hlocks, List.append_assoc]; rfl) k
      · cases k <;> rfl
  | ready i rdy st =>
    obtain ⟨k, hk, heq⟩ := Option.map_eq_some_iff.1 h
    cases heq
    exact .of_busy trivial ⟨rfl, rfl, fun _ => rfl, trivial⟩ (SelPc.busy_actReady rdy st)
  | pick rdy =>
    obtain ⟨k, hk, heq⟩ := Option.map_eq_some_iff.1 h
    obtain ⟨rfl, hrest⟩ := Prod.mk.inj heq
    obtain ⟨rfl, rfl⟩ := Prod.mk.inj hrest
    exact .of_busy (SelPc.actPick_quiet rdy) ⟨rfl, rfl, fun _ => rfl, trivial⟩ (SelPc.busy_execFrom hk _)
  | exec i st =>
    obtain ⟨k, hk, hrest⟩ := Option.bind_eq_some_iff.1 h
    obtain ⟨⟨e', pc''⟩, hact, heq⟩ := Option.map_eq_some_iff.1 hrest
    cases heq
    exact .of_actExec hk hact
  | stub i =>
    simp only [SelPc.act] at h
    split at h
    · next k hk =>
      cases h
      refine .enter (Or.inr ⟨rfl, rfl⟩) (SelPc.mem_locks hk) rfl rfl rfl rfl rfl ?_
        (Thread.waits_stub hk)
      rintro ⟨-, hlt, -⟩
      exact Nat.lt_irrefl i (of_decide_eq_true hlt)
    · next hnone =>
      cases h
      refine .of_alike trivial ⟨rfl, rfl, fun j k hk => ?_⟩
      have hj : j < i :=
        (List.getElem?_eq_some_iff.1 hk).1.trans_le (List.getElem?_eq_none_iff.1 hnone)
      exact (decide_eq_true hj).symm
  | unlockAll cs k =>
    cases cs with
    | nil =>
      cases k with
      | ret r => cases h; exact .of_alike trivial ⟨rfl, rfl, fun _ _ _ => rfl⟩
      | park => cases h; exact .of_alike trivial ⟨rfl, rfl, fun _ _ _ => rfl⟩
    | cons a rest =>
      cases h
      exact .unlock rfl (Or.inl ⟨rfl, rfl⟩) (Thread.waits_congr fun i _ _ => by cases k <;> rfl)
  | park =>
    simp only [SelPc.act] at h
    split at h
    · obtain ⟨-, heq⟩ := Option.ite_none_right_eq_some.1 h
      cases heq
      exact .of_alike trivial ⟨SelPc.held_lock _, rfl, fun _ _ _ => rfl⟩
    · obtain ⟨-, heq⟩ := Option.ite_none_right_eq_some.1 h
      cases heq
      exact .of_alike trivial ⟨SelPc.held_lock _, rfl, fun _ _ _ => rfl⟩
  | clean i woken winner =>
    simp only [SelPc.act] at h
    split at h
    · next k hk =>
      split at h
      · next hresult =>
        cases h
        exact .skip rfl (SelPc.mem_locks hk) rfl rfl rfl (Thread.waits_clean_self hk) hresult
          (Thread.waits_clean hk)
      · cases h
        exact .leave (SelPc.mem_locks hk) rfl rfl rfl (Thread.waits_clean_self hk)
          (Thread.waits_clean hk)
    · next hnone =>
      cases h
      refine .of_alike trivial ⟨rfl, rfl, fun j k hk => ?_⟩
      have hj : j < i :=
        (List.getElem?_eq_some_iff.1 hk).1.trans_le (List.getElem?_eq_none_iff.1 hnone)
      exact (decide_eq_false (Nat.not_le_of_lt hj)).symm
  | ret r => cases h

/-! ### Lock lists and hidden calls -/

omit [DecidableEq C] in
/-- `execute_case_locked` goes on or starts to unlock. -/
theorem SelPc.actExec_next {st : ExecPc α} {w : Wid} {go : ExecPc α → SelPc C α}
    {done : ChanErr → SelPc C α} (h : actExec K m k w alt go done st = some (e, pc')) :
    (∃ st', pc' = go st') ∨ ∃ r, pc' = done r := by
  cases st with
  | first => cases h; exact Or.inl ⟨_, rfl⟩
  | second a => cases h; split <;> exact Or.inl ⟨_, rfl⟩
  | meetClaim =>
    simp only [actExec, popNext] at h
    split at h
    · cases h
      split
      · split
        · exact Or.inr ⟨_, rfl⟩
        · exact Or.inl ⟨_, rfl⟩
      · exact Or.inl ⟨_, rfl⟩
    · split at h <;> cases h <;> exact Or.inl ⟨_, rfl⟩
  | meetCopy w' =>
    simp only [actExec] at h
    split at h
    · cases h; exact Or.inl ⟨_, rfl⟩
    · obtain ⟨x, -, heq⟩ := Option.map_eq_some_iff.1 h
      cases heq
      exact Or.inl ⟨_, rfl⟩
  | ring p =>
    cases h
    exact ringNext_ind (fun q => (∃ st', q = go st') ∨ ∃ r, q = done r)
      (fun _ => Or.inl ⟨_, rfl⟩) fun _ => Or.inl ⟨_, rfl⟩
  | helpClaim =>
    simp only [actExec] at h
    split at h
    · cases h; exact Or.inr ⟨_, rfl⟩
    · split at h
      · split at h
        · cases h; exact Or.inl ⟨_, rfl⟩
        · obtain ⟨rop, -, heq⟩ := Option.map_eq_some_iff.1 h
          cases heq
          exact Or.inl ⟨_, rfl⟩
      · cases h; exact Or.inl ⟨_, rfl⟩
  | helpRing w' p =>
    cases h
    exact ringNext_ind (fun q => (∃ st', q = go st') ∨ ∃ r, q = done r)
      (fun _ => Or.inl ⟨_, rfl⟩) fun _ => Or.inl ⟨_, rfl⟩
  | helpSettle w' => cases h; exact Or.inl ⟨_, rfl⟩
  | wake w' => cases h; exact Or.inr ⟨_, rfl⟩
  | closed => cases h; exact Or.inr ⟨_, rfl⟩

/-- Once a select is past its registration it is not hidden again; its lock list stays in order. -/
theorem SelPc.wf_hidden_of_act (hwf : pc.Wf K cases)
    (h : pc.act K m t id cases timeout alt d = some (c, e, pc')) :
    pc'.Wf K cases ∧ (pc'.hidden = true → pc.hidden = true) := by
  cases pc with
  | fast1 i st =>
    obtain ⟨k, hk, heq⟩ := Option.map_eq_some_iff.1 h
    cases heq
    exact ⟨(free_actFast1 st).2.2.2, fun _ => rfl⟩
  | fast2Start =>
    cases h
    exact ⟨(free_scan2 _ _).2.2.2, fun _ => rfl⟩
  | fast2 start j st =>
    obtain ⟨k, hk, heq⟩ := Option.map_eq_some_iff.1 h
    exact ⟨(free_actFast2 (Prod.mk.inj heq).2).2.2.2.2, fun _ => rfl⟩
  | lockAll cs k =>
    obtain ⟨hs, hlocks⟩ := hwf
    cases cs with
    | nil =>
      cases k with
      | ready =>
        cases h
        exact ⟨(busy_readyFrom 0 []).2.2.2, fun _ => rfl⟩
      | clean woken =>
        cases h
        exact ⟨trivial, fun hp => by cases hp⟩
    | cons a rest =>
      obtain ⟨-, heq⟩ := Option.ite_none_right_eq_some.1 h
      cases heq
      refine ⟨⟨hs ++ [c], by rw [hlocks, List.append_assoc]; rfl⟩, fun hp => ?_⟩
      cases k with
      | ready => rfl
      | clean woken => cases hp
  | ready i rdy st =>
    obtain ⟨k, hk, heq⟩ := Option.map_eq_some_iff.1 h
    cases heq
    exact ⟨(busy_actReady rdy st).2.2.2, fun _ => rfl⟩
  | pick rdy =>
    obtain ⟨k, hk, heq⟩ := Option.map_eq_some_iff.1 h
    obtain ⟨rfl, hrest⟩ := Prod.mk.inj heq
    obtain ⟨rfl, rfl⟩ := Prod.mk.inj hrest
    exact ⟨trivial, fun hp => by cases hp⟩
  | exec i st =>
    obtain ⟨k, hk, hrest⟩ := Option.bind_eq_some_iff.1 h
    obtain ⟨⟨e', pc''⟩, hact, heq⟩ := Option.map_eq_some_iff.1 hrest
    cases heq
    rcases actExec_next hact with ⟨st', rfl⟩ | ⟨r, rfl⟩
    · exact ⟨trivial, fun hp => by cases hp⟩
    · exact ⟨trivial, fun hp => by cases hp⟩
  | stub i =>
    simp only [act] at h
    split at h
    · cases h
      exact ⟨trivial, fun _ => rfl⟩
    · cases h
      exact ⟨trivial, fun _ => rfl⟩
  | unlockAll cs k =>
    cases cs with
    | nil => cases k <;> cases h <;> exact ⟨trivial, fun hp => by cases hp⟩
    | cons a rest => cases h; exact ⟨trivial, fun hp => by cases hp⟩
  | park =>
    simp only [act] at h
    split at h
    · obtain ⟨-, heq⟩ := Option.ite_none_right_eq_some.1 h
      cases heq
      exact ⟨⟨[], rfl⟩, fun hp => by cases hp⟩
    · obtain ⟨-, heq⟩ := Option.ite_none_right_eq_some.1 h
      cases heq
      exact ⟨⟨[], rfl⟩, fun hp => by cases hp⟩
  | clean i woken winner =>
    simp only [act] at h
    split at h
    · split at h <;> cases h <;> exact ⟨trivial, fun hp => by cases hp⟩
    · cases h
      exact ⟨trivial, fun hp => by cases hp⟩
  | ret r => cases h

/-- While a call is hidden, the locks keep its queued waiters from the others. -/
theorem Thread.holds_of_hidden {th : Thread C α} {o : ChanOp} {w : Wid} (hp : th.Hidden)
    (h : th.Waits c o w) : c ∈ th.holds K := by
  cases th with
  | idle => exact hp.elim
  | direct id d op pc =>
    exact absurd h.2.2.2 (Bool.eq_false_iff.1 (Pc.not_waits_of_hidden hp))
  | select id cases timeout pc =>
    obtain ⟨-, hwaits, k, hk, rfl, -⟩ := h
    cases pc with
    | stub i => exact SelPc.mem_locks hk
    | lockAll cs n =>
      cases n with
      | ready => cases hwaits
      | clean woken => cases hp
    | unlockAll cs n => cases hp
    | park => cases hp
    | clean i b x => cases hp
    | _ => cases hwaits

end Select

end LibChan
