import LibChan.Chan.Reuse
import Mathlib.Data.Set.Card

/-!
# The waiter counts

`send_waiter_cnt` and `recv_waiter_cnt` are incremented where a direct call registers its waiter and
decremented at each of its exits. `Pc.registered` are the places in between. `CountInv` ties the count
to the list of registered waiters and that list to the threads at those places, and
`waiter_counts_exact` reads the count off the threads.

The queue can lead to more direct waiters than are counted: a waker that is late signals the park of the
next call in the same frame, which then returns and leaves its waiter queued (`waiter_count_below_queue`).
-/

set_option autoImplicit false

namespace LibChan

variable {T C α : Type}

/-! ## Registered calls -/

/-- The thread is in a direct call that is registered with waiter `w` on side `o` of channel `c`. -/
def Thread.Registered (c : C) (o : ChanOp) (w : Wid) : Thread C α → Prop
  | direct id c' op pc => c = c' ∧ o = op.side ∧ w = ⟨id, 0⟩ ∧ pc.registered = true
  | _ => False

/-- The threads whose direct call is registered on side `o` of channel `c`. -/
def Sys.registered (s : Sys T C α) (c : C) (o : ChanOp) : Set T :=
  { t | ∃ w, (s.thread t).Registered c o w }

/-- The waiters of direct calls in a wait queue; the stubs of selects have a shared state. -/
def Mem.directWaiters (m : Mem T C α) (c : C) (o : ChanOp) : List Wid :=
  ((m.chan c).queue o).filter fun w => (m.selectState w.call).isNone

/-- The registered waiters after a step. -/
def Effect.regAfter (reg : ChanOp → List Wid) : Effect α → ChanOp → List Wid
  | .enroll o w => Function.update reg o (w :: reg o)
  | .decr o w => Function.update reg o ((reg o).erase w)
  | _ => reg

/-- The waiter counts after a step. -/
def Effect.cntAfter (cnt : ChanOp → Int) : Effect α → ChanOp → Int
  | .enroll o _ => Function.update cnt o (cnt o + 1)
  | .decr o _ => Function.update cnt o (cnt o - 1)
  | _ => cnt

/-- How a step of a direct call bears on its registration. -/
inductive Pc.Counts (id : Nat) (op : Op α) (pc pc' : Pc α) : Effect α → Prop
  | enroll (hpc : pc.registered = false) (hpc' : pc'.registered = true) :
      Counts id op pc pc' (.enroll op.side ⟨id, 0⟩)
  | decr (hpc : pc.registered = true) (hpc' : pc'.registered = false) :
      Counts id op pc pc' (.decr op.side ⟨id, 0⟩)
  | same {e : Effect α} (hreg : ∀ reg, e.regAfter reg = reg) (hcnt : ∀ cnt, e.cntAfter cnt = cnt)
      (hpc : pc'.registered = pc.registered) : Counts id op pc pc' e

section Steps

variable {K : Config T C} {m : Mem T C α} {id : Nat} {c : C} {op : Op α} {alt : Bool}
  {pc pc' : Pc α} {e : Effect α}

/-- Registration is the only way in, the two decrements are the only ways out. -/
theorem Pc.counts_of_flow (hflow : Pc.Flow K m id c op alt pc e pc') : Pc.Counts id op pc pc' e := by
  cases hflow with
  | enrollMeet hcap => exact .enroll rfl rfl
  | enrollRing hcap => exact .enroll rfl rfl
  | unDecrSend hop | unDecrRecv hop | decr => exact .decr rfl rfl
  | serveStopBlock hstop hblock =>
    exact .same (fun _ => rfl) (fun _ => rfl) (Pc.not_registered_of_blocks hblock)
  | serveEmptyBlock hqueue hblock =>
    exact .same (fun _ => rfl) (fun _ => rfl) (Pc.not_registered_of_blocks hblock)
  | servePutBackBlock hblock =>
    exact .same (fun _ => rfl) (fun _ => rfl) (Pc.not_registered_of_blocks hblock)
  | meetEmptySend hqueue hop hblock =>
    exact .same (fun _ => rfl) (fun _ => rfl) (Pc.not_registered_of_blocks hblock)
  | emptyOpen hopen hblock =>
    exact .same (fun _ => rfl) (fun _ => rfl) (Pc.not_registered_of_blocks hblock)
  | _ => exact .same (fun _ => rfl) (fun _ => rfl) rfl

variable [DecidableEq C] {t : T} {cases : List (Case C α)} {timeout : Int} {sp sp' : SelPc C α}

theorem SelPc.regAfter_of_flow (hflow : SelPc.Flow K m t id cases timeout alt sp c e sp') :
    (∀ reg, e.regAfter reg = reg) ∧ ∀ cnt, e.cntAfter cnt = cnt := by
  cases hflow with
  | pick hk hmem he hst =>
    rcases he with rfl | ⟨v, rfl⟩ <;> exact ⟨fun _ => rfl, fun _ => rfl⟩
  | execGo hk hexec => cases hexec <;> exact ⟨fun _ => rfl, fun _ => rfl⟩
  | execDone hk hexec => cases hexec <;> exact ⟨fun _ => rfl, fun _ => rfl⟩
  | _ => exact ⟨fun _ => rfl, fun _ => rfl⟩

end Steps

/-! ## The invariant -/

section Inv

variable [DecidableEq T] [DecidableEq C] {K : Config T C} {s s' : Sys T C α} {l : Label T C α}

/-- The count is the number of registered waiters, and these are the waiters of the calls that are
between registration and decrement. -/
structure CountInv (s : Sys T C α) : Prop where
  cnt : ∀ c o, (s.mem.chan c).cnt o = ((s.mem.chan c).reg o).length
  nodup : ∀ c o, ((s.mem.chan c).reg o).Nodup
  reg : ∀ c o w, w ∈ (s.mem.chan c).reg o ↔ ∃ t, (s.thread t).Registered c o w

omit [DecidableEq C] [DecidableEq T] in
theorem CountInv.init (slots : C → U32 → α) : CountInv (Sys.init slots : Sys T C α) where
  cnt _ _ := rfl
  nodup _ _ := List.nodup_nil
  reg _ _ _ := ⟨fun h => absurd h List.not_mem_nil, fun ⟨_, h⟩ => h.elim⟩

omit [DecidableEq C] in
theorem Thread.Registered.id_eq {c : C} {o : ChanOp} {w : Wid} {th : Thread C α}
    (h : th.Registered c o w) : th.id? = some w.call := by
  cases th with
  | direct id d op pc =>
    obtain ⟨_, _, rfl, _⟩ := h
    rfl
  | _ => exact h.elim

/-- The waiter of the call a thread is in. -/
def Thread.ownWid (th : Thread C α) : Wid := ⟨th.id?.getD 0, 0⟩

omit [DecidableEq C] in
theorem Thread.Registered.ownWid_eq {c : C} {o : ChanOp} {w : Wid} {th : Thread C α}
    (h : th.Registered c o w) : th.ownWid = w := by
  cases th with
  | direct id d op pc => exact h.2.2.1.symm
  | _ => exact h.elim

omit [DecidableEq C] [DecidableEq T] in
/-- A waiter is registered by one thread. -/
theorem CallInv.registered_inj (h : CallInv s) {t t' : T} {c d : C} {o o' : ChanOp} {w : Wid}
    (ht : (s.thread t).Registered c o w) (ht' : (s.thread t').Registered d o' w) : t = t' :=
  h.id_inj t t' w.call ht.id_eq ht'.id_eq

omit [DecidableEq C] [DecidableEq T] in
/-- Nothing changes for the counts when the channels keep theirs and the threads their
registrations. -/
theorem CountInv.congr (h : CountInv s)
    (hcnt : ∀ c, (s'.mem.chan c).cnt = (s.mem.chan c).cnt)
    (hreg : ∀ c, (s'.mem.chan c).reg = (s.mem.chan c).reg)
    (hthread : ∀ t c o w, (s'.thread t).Registered c o w ↔ (s.thread t).Registered c o w) :
    CountInv s' where
  cnt c o := by
    rw [hcnt, hreg]
    exact h.cnt c o
  nodup c o := by
    rw [hreg]
    exact h.nodup c o
  reg c o w := by
    rw [hreg, h.reg c o w]
    exact exists_congr fun t => (hthread t c o w).symm

section Move

variable {t : T} {c : C} {e : Effect α} {th : Thread C α}

theorem Mem.reg_apply (m : Mem T C α) (d : C) : ((m.apply K t c e).chan d).reg =
    if d = c then e.regAfter (m.chan d).reg else (m.chan d).reg := by
  by_cases hd : d = c
  · subst hd
    rw [Mem.chan_apply_self, if_pos rfl]
    cases e <;> rfl
  · rw [Mem.chan_apply_of_ne K m t c e hd, if_neg hd]

theorem Mem.cnt_apply (m : Mem T C α) (d : C) : ((m.apply K t c e).chan d).cnt =
    if d = c then e.cntAfter (m.chan d).cnt else (m.chan d).cnt := by
  by_cases hd : d = c
  · subst hd
    rw [Mem.chan_apply_self, if_pos rfl]
    cases e <;> rfl
  · rw [Mem.chan_apply_of_ne K m t c e hd, if_neg hd]

/-- A step that touches no count and leaves the thread as registered as it was. -/
theorem CountInv.move_same (h : CountInv s) (hreg : ∀ reg, e.regAfter reg = reg)
    (hcnt : ∀ cnt, e.cntAfter cnt = cnt)
    (hth : ∀ d o w, th.Registered d o w ↔ (s.thread t).Registered d o w) :
    CountInv (s.move K t c e th) := by
  apply h.congr
  · intro d
    exact (Mem.cnt_apply s.mem d).trans (by rw [hcnt, ite_self])
  · intro d
    exact (Mem.reg_apply s.mem d).trans (by rw [hreg, ite_self])
  · intro u d o w
    by_cases hu : u = t
    · subst hu
      rw [Sys.thread_move_self]
      exact hth d o w
    · rw [Sys.thread_move_of_ne hu]

variable {id : Nat} {op : Op α} {pc pc' : Pc α}

omit [DecidableEq C] [DecidableEq T] in
/-- Whether the waiter of a direct call is registered is decided by the place of its thread. -/
theorem CallInv.registered_own (h : CallInv s) (hth : s.thread t = .direct id c op pc) {d : C}
    {o : ChanOp} : (∃ u, (s.thread u).Registered d o ⟨id, 0⟩) ↔
      d = c ∧ o = op.side ∧ pc.registered = true := by
  have hid : (s.thread t).id? = some id := by rw [hth]; rfl
  constructor
  · rintro ⟨u, hu⟩
    obtain rfl := h.id_inj u t id hu.id_eq hid
    rw [hth] at hu
    exact ⟨hu.1, hu.2.1, hu.2.2.2⟩
  · rintro ⟨rfl, rfl, hpc⟩
    exact ⟨t, by rw [hth]; exact ⟨rfl, rfl, rfl, hpc⟩⟩

/-- A step of a direct call changes the registration of its own waiter only. -/
theorem Sys.registered_other (hth : s.thread t = .direct id c op pc) {d : C} {o : ChanOp} {w : Wid}
    (hw : w ≠ ⟨id, 0⟩) : (∃ u, ((s.move K t c e (.direct id c op pc')).thread u).Registered d o w) ↔
      ∃ u, (s.thread u).Registered d o w := by
  apply exists_congr
  intro u
  by_cases hu : u = t
  · subst hu
    rw [Sys.thread_move_self, hth]
    exact ⟨fun h => absurd h.2.2.1 hw, fun h => absurd h.2.2.1 hw⟩
  · rw [Sys.thread_move_of_ne hu]

/-- A step that replaces the registered waiters of one side by `L`, which has the waiter of the call
exactly when the call is registered after the step. -/
theorem CountInv.change (h : CountInv s) (hcalls : CallInv s)
    (hcalls' : CallInv (s.move K t c e (.direct id c op pc')))
    (hth : s.thread t = .direct id c op pc) {L : List Wid}
    (hreg : e.regAfter (s.mem.chan c).reg = Function.update (s.mem.chan c).reg op.side L)
    (hcnt : e.cntAfter (s.mem.chan c).cnt = Function.update (s.mem.chan c).cnt op.side L.length)
    (hnodup : L.Nodup) (hself : ⟨id, 0⟩ ∈ L ↔ pc'.registered = true)
    (hother : ∀ w, w ≠ ⟨id, 0⟩ → (w ∈ L ↔ w ∈ (s.mem.chan c).reg op.side)) :
    CountInv (s.move K t c e (.direct id c op pc')) := by
  have hreg' : ∀ d o, ((s.move K t c e (.direct id c op pc')).mem.chan d).reg o =
      if d = c ∧ o = op.side then L else (s.mem.chan d).reg o := by
    intro d o
    refine (congrFun (Mem.reg_apply s.mem d) o).trans ?_
    by_cases hd : d = c
    · subst hd
      by_cases ho : o = op.side
      · rw [if_pos rfl, if_pos ⟨rfl, ho⟩, hreg, ho, Function.update_self]
      · rw [if_pos rfl, if_neg fun h => ho h.2, hreg, Function.update_of_ne ho]
    · rw [if_neg hd, if_neg fun h => hd h.1]
  have hcnt' : ∀ d o, ((s.move K t c e (.direct id c op pc')).mem.chan d).cnt o =
      if d = c ∧ o = op.side then (L.length : Int) else (s.mem.chan d).cnt o := by
    intro d o
    refine (congrFun (Mem.cnt_apply s.mem d) o).trans ?_
    by_cases hd : d = c
    · subst hd
      by_cases ho : o = op.side
      · rw [if_pos rfl, if_pos ⟨rfl, ho⟩, hcnt, ho, Function.update_self]
      · rw [if_pos rfl, if_neg fun h => ho h.2, hcnt, Function.update_of_ne ho]
    · rw [if_neg hd, if_neg fun h => hd h.1]
  constructor
  · intro d o
    rw [hcnt', hreg']
    split
    · rfl
    · exact h.cnt d o
  · intro d o
    rw [hreg']
    split
    · exact hnodup
    · exact h.nodup d o
  · intro d o w
    rw [hreg']
    by_cases hw : w = ⟨id, 0⟩
    · subst hw
      rw [hcalls'.registered_own Sys.thread_move_self]
      split
      case isTrue heq => rw [hself, and_iff_right heq.1, and_iff_right heq.2]
      case isFalse hne =>
        rw [h.reg, hcalls.registered_own hth]
        exact ⟨fun hd => absurd ⟨hd.1, hd.2.1⟩ hne, fun hd => absurd ⟨hd.1, hd.2.1⟩ hne⟩
    · rw [Sys.registered_other hth hw, ← h.reg]
      split
      case isTrue heq => rw [hother w hw, heq.1, heq.2]
      case isFalse => rfl

theorem CountInv.move (h : CountInv s) (hcalls : CallInv s) {alt : Bool}
    (hacts : s.Acts K t alt c e th) (hcalls' : CallInv (s.move K t c e th)) :
    CountInv (s.move K t c e th) := by
  cases hacts with
  | select hth hact =>
    obtain ⟨hreg, hcnt⟩ := SelPc.regAfter_of_flow (SelPc.flow_of_act hact)
    apply h.move_same hreg hcnt
    intro d o w
    rw [hth]
    exact Iff.rfl
  | @direct id c op pc pc' e hth hact =>
    cases Pc.counts_of_flow (Pc.flow_of_act hact) with
    | same hreg hcnt hpc =>
      apply h.move_same hreg hcnt
      intro d o w
      rw [hth]
      simp only [Thread.Registered, hpc]
    | enroll hpc hpc' =>
      have hnew : ⟨id, 0⟩ ∉ (s.mem.chan c).reg op.side := by
        rw [h.reg, hcalls.registered_own hth, hpc]
        exact fun hd => absurd hd.2.2 Bool.false_ne_true
      apply h.change hcalls hcalls' hth (L := ⟨id, 0⟩ :: (s.mem.chan c).reg op.side) rfl
      · rw [Effect.cntAfter, h.cnt, List.length_cons, Int.natCast_succ]
      · exact List.nodup_cons.2 ⟨hnew, h.nodup c _⟩
      · exact iff_of_true List.mem_cons_self hpc'
      · exact fun w hw => List.mem_cons.trans (or_iff_right hw)
    | decr hpc hpc' =>
      have hmem : ⟨id, 0⟩ ∈ (s.mem.chan c).reg op.side := by
        rw [h.reg, hcalls.registered_own hth]
        exact ⟨rfl, rfl, hpc⟩
      apply h.change hcalls hcalls' hth (L := ((s.mem.chan c).reg op.side).erase ⟨id, 0⟩) rfl
      · have hpos := List.length_pos_of_mem hmem
        rw [Effect.cntAfter, h.cnt, List.length_erase_of_mem hmem, Nat.cast_sub hpos, Nat.cast_one]
      · exact (h.nodup c _).erase _
      · rw [hpc']
        exact iff_of_false (fun hd => ((h.nodup c _).mem_erase_iff.1 hd).1 rfl) Bool.false_ne_true
      · exact fun w hw => List.mem_erase_of_ne hw

end Move

omit [DecidableEq T] in
theorem Thread.not_registered_startThread (id : Nat) (k : Call C α) (c : C) (o : ChanOp) (w : Wid) :
    ¬ (Sys.startThread K id k).Registered c o w := by
  cases k with
  | direct d op =>
    intro h
    have hpc := h.2.2.2
    rw [Pc.not_registered_of_begins (Pc.begins_entry (K.chan d) id op)] at hpc
    cases hpc
  | select cases timeout => exact fun h => h

omit [DecidableEq C] [DecidableEq T] in
theorem Sys.Returns.not_registered {t : T} {id : Nat} {r : Ret} {out : List (Option α)}
    (h : s.Returns t id r out) (c : C) (o : ChanOp) (w : Wid) :
    ¬ (s.thread t).Registered c o w := by
  cases h with
  | direct hth =>
    rw [hth]
    exact fun hreg => absurd hreg.2.2.2 Bool.false_ne_true
  | select hth =>
    rw [hth]
    exact fun hreg => hreg

theorem CountInv.step (h : CountInv s) (hs : Sound K s) (hs' : Sound K s')
    (hstep : s.Stepped K l s') : CountInv s' := by
  cases hstep with
  | @call t k hidle =>
    refine h.congr ?_ ?_ ?_
    · exact fun _ => rfl
    · exact fun _ => rfl
    intro u c o w
    by_cases hu : u = t
    · subst hu
      rw [Sys.thread_startCall_self, hidle]
      exact iff_of_false (Thread.not_registered_startThread _ _ _ _ _) id
    · rw [Sys.thread_startCall_of_ne hu]
  | @ret t alt id r out hdone hret =>
    refine h.congr ?_ ?_ ?_
    · exact fun _ => rfl
    · exact fun _ => rfl
    intro u c o w
    by_cases hu : u = t
    · subst hu
      rw [Sys.thread_finishCall_self]
      exact iff_of_false (fun hreg => hreg) (hret.not_registered c o w)
    · rw [Sys.thread_finishCall_of_ne hu]
  | move hnext hacts => exact h.move hs.calls hacts hs'.calls

theorem CountInv.reaches {ok : Sys T C α → Label T C α → Prop} {slots : C → U32 → α}
    (hrun : Reaches (Sys.step K) ok (Sys.init slots) s) : Sound K s ∧ CountInv s :=
  Sys.invariant hrun (CountInv.init slots) fun _ _ _ hs h _ hstep => h.step hs (hs.step hstep) hstep

/-! ## What the counts say -/

omit [DecidableEq C] [DecidableEq T] in
/-- The registered waiters are those of the registered threads, one each. -/
theorem CountInv.ncard_registered (h : CountInv s) (hcalls : CallInv s) (c : C) (o : ChanOp) :
    (s.registered c o).Finite ∧ (s.registered c o).ncard = ((s.mem.chan c).reg o).length := by
  classical
  have hbij : Set.BijOn (fun t => (s.thread t).ownWid) (s.registered c o)
      { w | w ∈ (s.mem.chan c).reg o } := by
    refine ⟨?_, ?_, ?_⟩
    · rintro t ⟨w, hw⟩
      show (s.thread t).ownWid ∈ (s.mem.chan c).reg o
      rw [hw.ownWid_eq]
      exact (h.reg c o w).2 ⟨t, hw⟩
    · rintro t ⟨w, hw⟩ t' ⟨w', hw'⟩ heq
      obtain rfl : w = w' := hw.ownWid_eq.symm.trans (heq.trans hw'.ownWid_eq)
      exact hcalls.registered_inj hw hw'
    · intro w hw
      obtain ⟨t, ht⟩ := (h.reg c o w).1 hw
      exact ⟨t, ⟨w, ht⟩, ht.ownWid_eq⟩
  have hset : { w | w ∈ (s.mem.chan c).reg o } = ↑((s.mem.chan c).reg o).toFinset := by
    ext w
    simp
  rw [hset] at hbij
  constructor
  · exact hbij.finite_iff_finite.2 (Finset.finite_toSet _)
  · rw [hbij.ncard_eq, Set.ncard_coe_finset, List.toFinset_card_of_nodup (h.nodup c o)]

omit [DecidableEq T] in
/-- A queued waiter of a direct call is registered. -/
theorem CountInv.directWaiters_subset (h : CountInv s) (hs : Sound K s) (c : C) (o : ChanOp) :
    s.mem.directWaiters c o ⊆ (s.mem.chan c).reg o := by
  intro w hw
  obtain ⟨hqueue, hstate⟩ := List.mem_filter.1 hw
  obtain ⟨t, ht⟩ := (hs.queues.queue c o w hqueue).owned
  have hsel := hs.calls.state t w.call (Thread.id_of_waits ht)
  rw [h.reg]
  refine ⟨t, ?_⟩
  cases hth : s.thread t with
  | idle => rw [hth] at ht; exact ht.elim
  | direct id d op pc =>
    rw [hth] at ht
    obtain ⟨hd, ho, hw, hpc⟩ := ht
    refine ⟨hd, ho, hw, ?_⟩
    cases pc <;> first | rfl | cases hpc
  | select id cases timeout pc =>
    rw [hth, Option.isNone_iff_eq_none.1 hstate] at hsel
    cases hsel

omit [DecidableEq T] in
/-- What the counts say in `Sys`. -/
theorem CountInv.counts (h : CountInv s) (hs : Sound K s) (c : C) (o : ChanOp) :
    (s.registered c o).Finite ∧ (s.mem.chan c).cnt o = (s.registered c o).ncard ∧
      0 ≤ (s.mem.chan c).cnt o ∧ (s.mem.directWaiters c o).length ≤ (s.mem.chan c).cnt o ∧
      ((∀ t id op pc, s.thread t ≠ .direct id c op pc) → (s.mem.chan c).cnt o = 0) := by
  obtain ⟨hfin, hcard⟩ := h.ncard_registered hs.calls c o
  have hlen := (((hs.queues.nodup c o).filter _).subperm (h.directWaiters_subset hs c o)).length_le
  refine ⟨hfin, by rw [h.cnt, hcard], by rw [h.cnt]; exact Int.natCast_nonneg _,
    by rw [h.cnt]; exact Int.ofNat_le.2 hlen, ?_⟩
  intro hnone
  have hempty : s.registered c o = ∅ := by
    apply Set.eq_empty_of_forall_notMem
    rintro t ⟨w, hw⟩
    cases hth : s.thread t with
    | direct id d op pc =>
      rw [hth] at hw
      obtain ⟨rfl, _⟩ := hw
      exact hnone t id op pc hth
    | _ => rw [hth] at hw; exact hw
  rw [h.cnt, ← hcard, hempty, Set.ncard_empty]
  rfl

omit [DecidableEq T] in
theorem StackInv.directWaiters_eq {r : StackSys T C α} (h : StackInv K r) (c : C) (o : ChanOp) :
    r.seen.mem.directWaiters c o = r.sys.mem.directWaiters c o := by
  show (r.queue c o).filter (fun w => ((r.sys.mem.selectState w.call).map _).isNone) = _
  simp only [Option.isNone_map, h.queue_eq]
  rfl

/-- Runs in which no call sets up its waiters in a frame that somebody is still about to signal. In every
state each waiter count is the number of direct calls that have registered a waiter on that side of the
channel and have not executed their decrement. The count is not negative, it bounds the waiters of direct
calls to which the queue leads, and it is zero when no direct call is running on the channel. -/
theorem waiter_counts_exact (K : Config T C) (slots : C → U32 → α) (r : StackSys T C α)
    (hrun : Reaches (StackSys.step K) StackSys.ReuseOk (StackSys.init slots) r) (c : C) (o : ChanOp) :
    (r.seen.registered c o).Finite ∧ (r.seen.mem.chan c).cnt o = (r.seen.registered c o).ncard ∧
      0 ≤ (r.seen.mem.chan c).cnt o ∧
      (r.seen.mem.directWaiters c o).length ≤ (r.seen.mem.chan c).cnt o ∧
      ((∀ t id op pc, r.seen.thread t ≠ .direct id c op pc) → (r.seen.mem.chan c).cnt o = 0) := by
  obtain ⟨hsys, hinv⟩ := StackSys.reaches_sys Always (.init slots)
    (fun _ _ _ hreuse => ⟨hreuse, trivial⟩) hrun
  obtain ⟨hs, h⟩ := CountInv.reaches hsys
  rw [hinv.directWaiters_eq]
  exact h.counts hs c o

/-- A receiver is served, and parks again in the same frame: it is counted, and the queue leads to it. -/
theorem waiter_counts_exact_parked : ∃ r : StackSys (Fin 2) Unit Nat,
    Reaches (StackSys.step unbufferedOne) StackSys.ReuseOk (StackSys.init fun _ _ => 0) r ∧
      r.home 2 = r.home 0 ∧ r.seen.mem.directWaiters () .recv = [⟨2, 0⟩] ∧
      (r.seen.mem.chan ()).cnt .recv = 1 ∧ (r.seen.registered () .recv).ncard = 1 ∧
      (r.seen.registered () .send).ncard = 0 := by
  obtain ⟨r, hrun, hhome, hqueue, hrecv, hsend⟩ := StackSys.exists_reaches unbufferedOne
    (fun _ _ => (0 : Nat)) StackSys.ReuseOk
    (List.flatten [
      [.call 0 (.direct () (.recv (-1))) 0], List.replicate 5 (.go 0 false),
      [.call 1 (.direct () (.send 7 0)) 1], List.replicate 7 (.go 1 false),
      List.replicate 3 (.go 0 false),
      [.call 0 (.direct () (.recv (-1))) 0], List.replicate 5 (.go 0 false)])
    (fun r => r.home 2 = r.home 0 ∧ r.seen.mem.directWaiters () .recv = [⟨2, 0⟩] ∧
      (r.seen.mem.chan ()).cnt .recv = 1 ∧ (r.seen.mem.chan ()).cnt .send = 0) (by decide +kernel)
  refine ⟨r, hrun, hhome, hqueue, hrecv, ?_, ?_⟩
  · exact Int.ofNat_inj.1 ((waiter_counts_exact unbufferedOne _ r hrun () .recv).2.1.symm.trans hrecv)
  · exact Int.ofNat_inj.1 ((waiter_counts_exact unbufferedOne _ r hrun () .send).2.1.symm.trans hsend)

end Inv

/-- A send with timeout is admitted to the ring by a receive that stops before it signals. The send expires
and returns, and the next send of the thread parks in the same frame: the signal makes it return, with its
waiter still queued. No call is running, the count is zero, and the queue leads to a direct waiter. -/
theorem waiter_count_below_queue : ∃ r : StackSys (Fin 3) Unit Nat,
    Reaches (StackSys.step bufferedOne) Always (StackSys.init fun _ _ => 0) r ∧
      (∀ t, r.seen.thread t = .idle) ∧ (r.seen.mem.chan ()).cnt .send = 0 ∧
      r.seen.mem.directWaiters () .send = [⟨3, 0⟩] :=
  StackSys.exists_reaches bufferedOne (fun _ _ => (0 : Nat)) Always
    (List.flatten [
      [.call 0 (.direct () (.send 1 0)) 0], List.replicate 11 (.go 0 false),
      [.call 0 (.direct () (.send 2 5)) 0], List.replicate 16 (.go 0 false),
      [.call 1 (.direct () (.recv 0)) 1], List.replicate 17 (.go 1 false),
      [.go 0 true], List.replicate 5 (.go 0 false),
      [.call 0 (.direct () (.send 3 5)) 0], List.replicate 16 (.go 0 false),
      List.replicate 2 (.go 1 false),
      List.replicate 3 (.go 0 false)]) _ (by decide +kernel)

end LibChan
