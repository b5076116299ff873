import LibChan.Chan.SharedRing
import LibChan.Chan.Ledger

/-!
# What the receivers get

The elements that have passed through a channel are those that met a receiver directly and those whose
positions in the ring have a taker; each receiver gets the value logged for its position
(`Chan.Booked`), and the value is in its buffer once its position has been copied (`TransferInv`).
-/

set_option autoImplicit false

namespace LibChan

variable {T C α : Type}

/-- The takers of the ring with the values of their positions. -/
def RingGhost.matched (g : RingGhost T Wid α) : List (Wid × α) :=
  (g.takers.zip g.log).map fun x => (x.1, x.2.2)

/-- Every accepted element is in the log of the ring or met a receiver, and every receiver took a
position of the ring or met a sender. -/
def Chan.Booked (ch : Chan T α) : Prop :=
  ∃ met : List (Wid × Wid × α),
    ch.sent.Perm (ch.hist.log ++ met.map fun x => (x.1, x.2.2)) ∧
    ch.recvd.Perm (ch.hist.matched ++ met.map fun x => x.2)

/-- The takers whose positions have been reserved and not copied yet. -/
def RingPc.pending {ω β : Type} : RingPc ω β → List ω
  | copy op _ k i _ => (op.tags.take k.toNat).drop i
  | _ => []

/-- The books of channel `c` are right, and every receiver has its element in its buffer or a thread is
about to copy it there. -/
structure Sys.Carried (c : C) (s : Sys T C α) : Prop where
  booked : (s.mem.chan c).Booked
  buffer : ∀ w v, (w, v) ∈ (s.mem.chan c).recvd → (s.mem.waiter w).data = some v ∨
    ∃ t p, (s.thread t).ring? = some (c, p) ∧ w ∈ p.pending

/-- The books of the channels that are not SPSC are right, and every receiver has its element in its
buffer or a thread is about to copy it there. -/
structure TransferInv (K : Config T C) (s : Sys T C α) : Prop where
  booked : ∀ c, (K.chan c).spsc = false → (s.mem.chan c).Booked
  buffer : ∀ c, (K.chan c).spsc = false → ∀ w v, (w, v) ∈ (s.mem.chan c).recvd →
    (s.mem.waiter w).data = some v ∨
      ∃ t p, (s.thread t).ring? = some (c, p) ∧ w ∈ p.pending

/-- The elements noted for a waiter. -/
def entriesOf (w : Wid) (l : List (Wid × α)) : List α :=
  (l.filter fun y => decide (y.1 = w)).map Prod.snd

theorem entriesOf_of_not_mem {w : Wid} {l : List (Wid × α)} (h : w ∉ l.map Prod.fst) :
    entriesOf w l = [] := by
  rw [entriesOf, List.filter_eq_nil_iff.2, List.map_nil]
  intro y hy heq
  exact h (List.mem_map.2 ⟨y, hy, of_decide_eq_true heq⟩)

/-- A waiter that is noted once has the element noted with it. -/
theorem entriesOf_of_mem {w : Wid} {x : α} : ∀ {l : List (Wid × α)}, (l.map Prod.fst).Nodup →
    (w, x) ∈ l → entriesOf w l = [x]
  | y :: l, hl, hw => by
    rw [List.map_cons, List.nodup_cons] at hl
    rcases List.mem_cons.1 hw with rfl | hw
    · have hrest := entriesOf_of_not_mem hl.1
      rw [entriesOf] at hrest ⊢
      rw [List.filter_cons, if_pos (decide_eq_true rfl), List.map_cons, hrest]
    · have hne : y.1 ≠ w := by
        rintro rfl
        exact hl.1 (List.mem_map.2 ⟨_, hw, rfl⟩)
      rw [entriesOf, List.filter_cons, if_neg (by rwa [decide_eq_true_eq])]
      exact entriesOf_of_mem hl.2 hw

/-! ## The books -/

section Books

variable {ch : Chan T α} {cap : RingCap} {t : T} {e : Effect α}

theorem zip_take_of_le {β γ : Type} {l : List β} {m : List γ} (h : l.length ≤ m.length) :
    l.zip m = l.zip (m.take l.length) := by
  rw [List.zip_eq_zip_take_min, Nat.min_eq_left h, List.take_length]

theorem zip_append_of_le {β γ : Type} {l l' : List β} {m m' : List γ} (h : l.length ≤ m.length) :
    (l ++ l').zip (m ++ m') = l.zip m ++ l'.zip ((m ++ m').drop l.length) := by
  conv_lhs => rw [← List.take_append_drop l.length (m ++ m')]
  rw [List.take_append_of_le_length h, List.zip_append, ← zip_take_of_le h]
  rw [List.length_take, Nat.min_eq_left h]

theorem append_append_perm {β : Type} (a b m n : List β) :
    ((a ++ m) ++ (b ++ n)).Perm ((a ++ b) ++ (m ++ n)) := by
  simp only [List.append_assoc]
  refine List.Perm.append_left a ?_
  rw [← List.append_assoc, ← List.append_assoc]
  exact List.Perm.append_right n List.perm_append_comm

/-- The taker of a position gets its value. -/
theorem RingGhost.mem_matched {g : RingGhost T Wid α} {n : Nat} {w : Wid} {v : α}
    (hw : g.takers[n]? = some w) (hv : g.valueAt n = some v) : (w, v) ∈ g.matched := by
  obtain ⟨x, hx, rfl⟩ := Option.map_eq_some_iff.1 hv
  refine List.mem_map.2 ⟨(w, x), ?_, rfl⟩
  exact List.mem_of_getElem? (List.getElem?_zip_eq_some.2 ⟨hw, hx⟩)

theorem Chan.Booked.apply [DecidableEq T] (h : ch.Booked)
    (hle : ch.hist.takers.length ≤ ch.hist.log.length) : (ch.apply cap t e).Booked := by
  obtain ⟨met, hsent, hrecvd⟩ := h
  refine ⟨met ++ e.meets, ?_, ?_⟩
  · rw [Chan.sent_apply, Chan.log_apply, Chan.sends, List.map_append]
    exact (hsent.append_right _).trans (append_append_perm _ _ _ _)
  · have hmatched : (ch.apply cap t e).hist.matched = ch.hist.matched ++
        (((ch.pops e).zip ((ch.hist.log ++ ch.pushes e).drop ch.hist.takers.length)).map
          fun x => (x.1, x.2.2)) := by
      rw [RingGhost.matched, Chan.takers_apply, Chan.log_apply, zip_append_of_le hle, List.map_append]
      rfl
    rw [Chan.recvd_apply, Chan.recvs, hmatched, List.map_append]
    exact (hrecvd.append_right _).trans (append_append_perm _ _ _ _)

theorem Chan.Booked.mem_recvd (h : ch.Booked) {w : Wid} {v : α} (hw : (w, v) ∈ ch.hist.matched) :
    (w, v) ∈ ch.recvd := by
  obtain ⟨met, -, hrecvd⟩ := h
  exact hrecvd.mem_iff.2 (List.mem_append_left _ hw)

/-- The accepted elements are the received ones and those without a taker. -/
theorem Chan.Booked.perm (h : ch.Booked) (hle : ch.hist.takers.length ≤ ch.hist.log.length) :
    (ch.sent.map Prod.snd).Perm
      (ch.recvd.map Prod.snd ++ (ch.hist.log.drop ch.hist.takers.length).map Prod.snd) := by
  obtain ⟨met, hsent, hrecvd⟩ := h
  have hlog : ch.hist.log.map Prod.snd =
      ch.hist.matched.map Prod.snd ++ (ch.hist.log.drop ch.hist.takers.length).map Prod.snd := by
    have htake : ch.hist.matched.map Prod.snd =
        (ch.hist.log.take ch.hist.takers.length).map Prod.snd := by
      rw [RingGhost.matched, List.map_map]
      rw [show (Prod.snd ∘ fun x : Wid × Wid × α => (x.1, x.2.2)) = Prod.snd ∘ Prod.snd from rfl,
        ← List.map_map, zip_take_of_le hle, List.map_snd_zip (List.length_take_le _ _)]
    rw [htake, ← List.map_append, List.take_append_drop]
  refine (hsent.map Prod.snd).trans ?_
  rw [List.map_append, hlog]
  refine List.Perm.trans ?_ ((hrecvd.map Prod.snd).symm.append_right _)
  simp only [List.map_append, List.map_map, List.append_assoc]
  exact List.Perm.append_left _ List.perm_append_comm

end Books

/-! ## The buffers -/

section Buffers

variable [DecidableEq T] [DecidableEq C] {K : Config T C} {s s' : Sys T C α} {l : Label T C α}
  {t : T} {alt : Bool} {c d : C} {e : Effect α} {th : Thread C α} {w : Wid} {v x : α}

omit [DecidableEq T] [DecidableEq C] in
theorem Call.Accepts.chan_eq {k : Call C α} {i : Nat} (h : k.Accepts c i) (h' : k.Accepts d i) :
    c = d := by
  cases k with
  | direct c' op => exact h.1.symm.trans h'.1
  | select cases timeout =>
    obtain ⟨k, hk, rfl, -⟩ := h
    obtain ⟨k', hk', rfl, -⟩ := h'
    cases hk.symm.trans hk'
    rfl

omit [DecidableEq T] [DecidableEq C] in
theorem Sys.Accepting.chan_eq (hist : HistInv s) (h : s.Accepting c w) (h' : s.Accepting d w) :
    c = d := by
  obtain ⟨u, k, hcall, hacc⟩ := h
  obtain ⟨u', k', hcall', hacc'⟩ := h'
  obtain ⟨-, rfl⟩ := hist.call_inj _ u u' k k' hcall hcall'
  exact hacc.chan_eq hacc'

omit [DecidableEq T] in
theorem Sys.RingSound.takers_le (h : s.RingSound K c) :
    (s.mem.chan c).hist.takers.length ≤ (s.mem.chan c).hist.log.length :=
  h.ordered.cons_le_prod.trans h.ordered.prod_le

omit [DecidableEq T] in
theorem SharedInv.takers_le (h : SharedInv K s) (hc : (K.chan c).spsc = false) :
    (s.mem.chan c).hist.takers.length ≤ (s.mem.chan c).hist.log.length :=
  Sys.RingSound.takers_le (h c hc)

omit [DecidableEq T] in
/-- A consumer copies the value logged for the position of its taker. -/
theorem RingInv.copy_value {cap : RingCap} {r : Ring α} {g : RingGhost T Wid α}
    {pc : T → Option (RingPc Wid α)} (h : RingInv cap r g pc) {op : RingOp Wid α} {a k : U32} {i : Nat}
    {acc : List α} (ht : pc t = some (.copy op a k i acc)) (hw : op.tags[i]? = some w) :
    (w, r.slots (op.slot cap a k i)) ∈ g.matched := by
  have hord := h.ordered
  obtain ⟨hvalid, hrun, hi, -⟩ := h.thread t _ ht
  have hside : op.side = .recv := by
    cases hs : op.side with
    | recv => rfl
    | send =>
      rw [RingOp.tags_eq_nil hs] at hw
      cases hw
  rw [hrun.slot_eq hord hi]
  refine RingGhost.mem_matched ((hrun.tags hside i hi).trans hw) (h.slots _ ?_ ?_).symm
  · have hlo := hrun.lo
    rw [hside] at hlo
    omega
  · have hhi := hrun.hi
    rw [hside] at hhi
    have hle := hord.cons_le_prod
    omega

/-- No more takers than elements, and the shared operations copy the logged values. -/
structure Sys.Copying (K : Config T C) (c : C) (s : Sys T C α) : Prop where
  takers_le : (s.mem.chan c).hist.takers.length ≤ (s.mem.chan c).hist.log.length
  value : ∀ t op a k i acc w, (s.thread t).ring? = some (c, .copy op a k i acc) →
    op.tags[i]? = some w →
    (w, (s.mem.chan c).ring.slots (op.slot (K.chan c).ringCap a k i)) ∈ (s.mem.chan c).hist.matched

omit [DecidableEq T] in
theorem Sys.RingSound.copying (h : s.RingSound K c) : s.Copying K c where
  takers_le := h.takers_le
  value _ _ _ _ _ _ _ hring hw := RingInv.copy_value h (Thread.ringOn_eq_some.2 hring) hw

theorem copyTarget_eq_some {cap : RingCap} {r : Ring α} {p : RingPc Wid α}
    (h : copyTarget cap r p = some (w, x)) :
    ∃ op a k i acc, p = .copy op a k i acc ∧ op.tags[i]? = some w ∧ x = r.slots (op.slot cap a k i) := by
  cases p with
  | copy op a k i acc =>
    obtain ⟨w', hw', heq⟩ := Option.map_eq_some_iff.1 h
    cases heq
    exact ⟨op, a, k, i, acc, rfl, hw', rfl⟩
  | _ => cases h

omit [DecidableEq T] in
/-- A step that writes to the buffer of a receiver writes the element it has received. -/
theorem Sys.Carried.value_of_writes (h : s.Carried c) (hv : Valid K s) (hcopy : s.Copying K c)
    (hacts : s.Acts K t alt d e th)
    (hcached : ∀ p, d = c → e = .spsc p → w ∈ p.op.tags → p.got = [] → ¬ s.mem.Took w)
    (hw : e.writes (K.chan d).ringCap (s.mem.chan d) = some (w, x))
    (hrecvd : (w, v) ∈ (s.mem.chan c).recvd) : x = v := by
  have htook : s.mem.Took w := ⟨c, Or.inr (Or.inr (List.mem_map.2 ⟨_, hrecvd, rfl⟩))⟩
  -- the step is on the channel the receiver waits for
  obtain rfl : d = c := Sys.Accepting.chan_eq hv.hist
    (hv.toSound.accepting_of_tags hacts (Effect.mem_tags_of_writes hw))
    (hv.ledger.taken c w (Or.inr (List.mem_map.2 ⟨_, hrecvd, rfl⟩)))
  cases e with
  | ring weak p =>
    obtain ⟨op, a, k, i, acc, rfl, htag, rfl⟩ := copyTarget_eq_some hw
    have hmem := h.booked.mem_recvd
      (hcopy.value t op a k i acc w (hacts.ring_of_effect (hv.ok t)) htag)
    exact List.inj_on_of_nodup_map (hv.ledger.recvd_nodup d) hmem hrecvd rfl |> congrArg Prod.snd
  | spsc p =>
    -- a cached pop writes before it takes its position
    have hgot : p.got = [] := by
      cases p with
      | copy op a => rfl
      | _ => cases hw
    exact absurd htook (hcached p rfl rfl (Effect.mem_tags_of_writes hw) hgot)
  | pair a b w' y =>
    -- a receiver that meets a sender has received nothing before
    cases hw
    refine absurd htook (Sys.fresh_of_grants hv.toSound hv.selects hv.waiters hacts ?_)
    exact List.mem_cons_of_mem _ (List.mem_singleton.2 rfl)
  | _ => cases hw

/-- An access of a thread that has takers to copy for writes for the first of them. -/
theorem RingPc.pending_cases (cap : RingCap) (r : Ring α) (weak : Bool) {p : RingPc Wid α}
    (hw : w ∈ p.pending) : (∃ x, copyTarget cap r p = some (w, x)) ∨
      ∃ p', (r.step cap weak p).2 = .inl p' ∧ w ∈ p'.pending := by
  cases p with
  | copy op a k i acc =>
    obtain ⟨j, hj⟩ := List.mem_iff_getElem?.1 hw
    rw [RingPc.pending, List.getElem?_drop] at hj
    cases j with
    | zero =>
      refine Or.inl ⟨r.slots (op.slot cap a k i), ?_⟩
      rw [Nat.add_zero, List.getElem?_take, Option.ite_none_right_eq_some] at hj
      rw [copyTarget, hj.2]
      rfl
    | succ j =>
      have hlt : i + (j + 1) < (op.tags.take k.toNat).length := by
        obtain ⟨hlt, -⟩ := List.getElem?_eq_some_iff.1 hj
        exact hlt
      rw [List.length_take] at hlt
      have hk : i + 1 < k.toNat := by omega
      refine Or.inr ⟨.copy op a k (i + 1) (r.copyElem cap op a k i acc).2, ?_, ?_⟩
      · simp only [Ring.step, if_pos hk]
      · refine List.mem_iff_getElem?.2 ⟨j, ?_⟩
        rw [RingPc.pending, List.getElem?_drop, ← hj]
        congr 1
        omega
  | _ => cases hw

/-- The takers of a successful reservation are to be copied for. -/
theorem RingPc.pending_of_pops (cap : RingCap) {r : Ring α} {weak : Bool} {p : RingPc Wid α}
    (hw : w ∈ p.pops r weak) : ∃ p', (r.step cap weak p).2 = .inl p' ∧ w ∈ p'.pending := by
  cases p with
  | cas op a k =>
    rw [RingPc.pops] at hw
    split at hw
    · next hcas =>
      refine ⟨.copy op a k 0 [], ?_, hw⟩
      simp only [Ring.step, if_pos hcas]
    · cases hw
  | _ => cases hw

omit [DecidableEq T] in
/-- The receivers of a step take a position of the ring or meet a sender. -/
theorem Chan.recvs_cases {ch : Chan T α} (h : (w, v) ∈ ch.recvs e) :
    w ∈ ch.pops e ∨ ∃ a b, e = .pair a w b v := by
  rcases List.mem_append.1 h with h | h
  · obtain ⟨y, hy, heq⟩ := List.mem_map.1 h
    cases heq
    exact Or.inl (List.of_mem_zip hy).1
  · obtain ⟨y, hy, heq⟩ := List.mem_map.1 h
    cases heq
    cases e with
    | pair a b w' x =>
      cases List.mem_singleton.1 hy
      exact Or.inr ⟨a, w', rfl⟩
    | _ => cases hy

theorem Sys.Carried.buffer_move (h : s.Carried c) (hv : Valid K s) (hcopy : s.Copying K c)
    (hacts : s.Acts K t alt d e th)
    (hcached : ∀ p, d = c → e = .spsc p → w ∈ p.op.tags → p.got = [] → ¬ s.mem.Took w)
    (hearly : ∀ p, d = c → e = .spsc p → (w, v) ∈ (s.mem.chan c).recvs e →
      (s.mem.waiter w).data = some v)
    (hrecvd : (w, v) ∈ ((s.move K t d e th).mem.chan c).recvd) :
    ((s.move K t d e th).mem.waiter w).data = some v ∨
      ∃ u p, ((s.move K t d e th).thread u).ring? = some (c, p) ∧ w ∈ p.pending := by
  have hring := hacts.ring (hv.ok t)
  by_cases hold : (w, v) ∈ (s.mem.chan c).recvd
  · -- received before: the step writes its element, or another buffer
    by_cases hwrites : ∃ x, e.writes (K.chan d).ringCap (s.mem.chan d) = some (w, x)
    · obtain ⟨x, hx⟩ := hwrites
      obtain rfl := h.value_of_writes hv hcopy hacts hcached hx hold
      exact Or.inl (Mem.data_apply_self K s.mem t d e w hx)
    · have hdata : ((s.move K t d e th).mem.waiter w).data = (s.mem.waiter w).data :=
        Mem.data_apply K s.mem t d e w fun x hx => hwrites ⟨x, hx⟩
      rcases h.buffer w v hold with hbuf | ⟨u, p, hu, hw⟩
      · exact Or.inl (hdata.trans hbuf)
      · refine Or.inr ?_
        by_cases hut : u = t
        · subst hut
          -- the thread goes on copying
          cases hring with
          | inside hring₀ hp hring' =>
            cases hu.symm.trans hring₀
            rcases RingPc.pending_cases (K.chan c).ringCap (s.mem.chan c).ring alt hw
              with hx | ⟨p', hp', hw'⟩
            · exact absurd hx hwrites
            · cases hp.symm.trans hp'
              exact ⟨u, _, by rw [Sys.thread_move_self]; exact hring', hw'⟩
          | last hring₀ hp hring' =>
            cases hu.symm.trans hring₀
            rcases RingPc.pending_cases (K.chan c).ringCap (s.mem.chan c).ring alt hw
              with hx | ⟨p', hp', hw'⟩
            · exact absurd hx hwrites
            · cases hp.symm.trans hp'
          | start hring₀ => cases hu.symm.trans hring₀
          | away hring₀ => cases hu.symm.trans hring₀
        · exact ⟨u, p, by rw [Sys.thread_move_of_ne hut]; exact hu, hw⟩
  · -- the step gives it its element
    obtain rfl : c = d := by
      by_contra hne
      rw [show (s.move K t d e th).mem.chan c = s.mem.chan c from
        Mem.chan_apply_of_ne K s.mem t d e hne] at hrecvd
      exact hold hrecvd
    rw [show (s.move K t c e th).mem.chan c = (s.mem.chan c).apply (K.chan c).ringCap t e from
      Mem.chan_apply_self K s.mem t c e, Chan.recvd_apply] at hrecvd
    have hnew := (List.mem_append.1 hrecvd).resolve_left hold
    rcases Chan.recvs_cases hnew with hpop | ⟨a, b, rfl⟩
    · cases e with
      | ring weak p =>
        obtain ⟨p', hp', hw'⟩ := RingPc.pending_of_pops (K.chan c).ringCap hpop
        cases hring with
        | inside hring₀ hp hring' =>
          cases hp.symm.trans hp'
          exact Or.inr ⟨t, p', by rw [Sys.thread_move_self]; exact hring', hw'⟩
        | last hring₀ hp hring' => cases hp.symm.trans hp'
        | start hring₀ he => cases he
        | away hring₀ he => cases he
      | spsc p =>
        have hwrites : ∀ x, (Effect.spsc p).writes (K.chan c).ringCap (s.mem.chan c) ≠ some (w, x) := by
          intro x hx
          cases p with
          | storeTail op a acc => cases hx
          | _ => cases hpop
        exact Or.inl ((Mem.data_apply K s.mem t c _ w hwrites).trans (hearly p rfl rfl hnew))
      | _ => cases hpop
    · exact Or.inl (Mem.data_apply_self K s.mem t c _ w rfl)

omit [DecidableEq T] [DecidableEq C] in
theorem Sys.Carried.init (slots : C → U32 → α) (c : C) : (Sys.init slots : Sys T C α).Carried c where
  booked := ⟨[], List.Perm.refl _, List.Perm.refl _⟩
  buffer _ _ h := by cases h

theorem Sys.Carried.startCall (h : s.Carried c) (hv : Valid K s) {k : Call C α}
    (hidle : s.thread t = .idle) : (s.startCall K t k).Carried c := by
  refine ⟨h.booked, fun w v hw => ?_⟩
  -- the call has a new number, so its buffers are not those of a receiver
  have hne : w.call ≠ s.next := by
    obtain ⟨u, k', hcall, -⟩ := hv.ledger.taken c w (Or.inr (List.mem_map.2 ⟨_, hw, rfl⟩))
    exact Nat.ne_of_lt (hv.hist.call_lt _ u k' hcall)
  refine (h.buffer w v hw).imp (fun hdata => ?_) ?_
  · exact (congrArg Waiter.data (if_neg hne)).trans hdata
  · rintro ⟨u, p, hu, hp⟩
    have hut : u ≠ t := by
      rintro rfl
      rw [hidle] at hu
      cases hu
    exact ⟨u, p, by rw [Sys.thread_startCall_of_ne hut]; exact hu, hp⟩

omit [DecidableEq C] in
theorem Sys.Carried.finishCall (h : s.Carried c) {id : Nat} {r : Ret} {out : List (Option α)}
    (hret : s.Returns t id r out) : (s.finishCall t id r out).Carried c := by
  refine ⟨h.booked, fun w v hw => (h.buffer w v hw).imp_right ?_⟩
  rintro ⟨u, p, hu, hp⟩
  have hut : u ≠ t := by
    rintro rfl
    cases hu.symm.trans hret.ring_eq_none
  exact ⟨u, p, by rw [Sys.thread_finishCall_of_ne hut]; exact hu, hp⟩

theorem Sys.Carried.booked_move (h : s.Carried c) (hle : (s.mem.chan c).hist.takers.length ≤
    (s.mem.chan c).hist.log.length) : ((s.move K t d e th).mem.chan c).Booked := by
  by_cases hcd : c = d
  · subst hcd
    rw [show (s.move K t c e th).mem.chan c = (s.mem.chan c).apply (K.chan c).ringCap t e from
      Mem.chan_apply_self K s.mem t c e]
    exact h.booked.apply hle
  · rw [show (s.move K t d e th).mem.chan c = s.mem.chan c from
      Mem.chan_apply_of_ne K s.mem t d e hcd]
    exact h.booked

theorem Sys.Carried.move (h : s.Carried c) (hv : Valid K s) (hgood : s.RingSound K c)
    (hacts : s.Acts K t alt d e th) (hspsc : d = c → ∀ p, e ≠ .spsc p) :
    (s.move K t d e th).Carried c where
  booked := h.booked_move hgood.takers_le
  buffer _ _ hw := h.buffer_move hv hgood.copying hacts (fun p hd he => absurd he (hspsc hd p))
    (fun p hd he => absurd he (hspsc hd p)) hw

omit [DecidableEq T] [DecidableEq C] in
theorem TransferInv.carried (h : TransferInv K s) (hc : (K.chan c).spsc = false) : s.Carried c :=
  ⟨h.booked c hc, h.buffer c hc⟩

omit [DecidableEq T] [DecidableEq C] in
theorem TransferInv.of_carried (h : ∀ c, (K.chan c).spsc = false → s.Carried c) : TransferInv K s :=
  ⟨fun c hc => (h c hc).booked, fun c hc => (h c hc).buffer⟩

omit [DecidableEq T] [DecidableEq C] in
theorem TransferInv.init (slots : C → U32 → α) : TransferInv K (Sys.init slots : Sys T C α) :=
  .of_carried fun c _ => .init slots c

theorem TransferInv.step (h : TransferInv K s) (hv : Valid K s) (hshared : SharedInv K s)
    (hstep : s.Stepped K l s') : TransferInv K s' := by
  apply TransferInv.of_carried
  intro c hc
  have hcarried := h.carried hc
  cases hstep with
  | call hidle => exact hcarried.startCall hv hidle
  | ret hdone hret => exact hcarried.finishCall hret
  | @move t alt d e th hnext hacts =>
    refine hcarried.move hv (hshared c hc) hacts ?_
    rintro rfl p rfl
    cases hc.symm.trans (hacts.spsc (hv.ok t))

/-! ## Who has what -/

omit [DecidableEq T] [DecidableEq C] in
theorem Call.Offers.eq {k : Call C α} {i : Nat} {y : α} (h : k.Offers c i x) (h' : k.Offers d i y) :
    c = d ∧ x = y := by
  cases k with
  | direct c' op => exact ⟨h.1.symm.trans h'.1, Option.some.inj (h.2.symm.trans h'.2)⟩
  | select cases timeout =>
    obtain ⟨k, hk, rfl, hx⟩ := h
    obtain ⟨k', hk', rfl, hy⟩ := h'
    cases hk.symm.trans hk'
    exact ⟨rfl, Option.some.inj (hx.symm.trans hy)⟩

omit [DecidableEq T] [DecidableEq C] in
theorem Sys.Offered.eq {y : α} (hist : HistInv s) (h : s.Offered c w x) (h' : s.Offered d w y) :
    c = d ∧ x = y := by
  obtain ⟨u, k, hcall, hoff⟩ := h
  obtain ⟨u', k', hcall', hoff'⟩ := h'
  obtain ⟨-, rfl⟩ := hist.call_inj _ u u' k k' hcall hcall'
  exact hoff.eq hoff'

omit [DecidableEq T] [DecidableEq C] in
theorem Sys.Offered.not_accepting (hist : HistInv s) (h : s.Offered c w x) : ¬ s.Accepting d w := by
  rintro ⟨u', k', hcall', hacc⟩
  obtain ⟨u, k, hcall, hoff⟩ := h
  obtain ⟨-, rfl⟩ := hist.call_inj _ u u' k k' hcall hcall'
  exact Call.not_accepts_of_offers hoff hacc

omit [DecidableEq T] in
/-- A sender that has moved its element has it accepted. -/
theorem Valid.sent_of_took (hv : Valid K s) (hoff : s.Offered c w x) (htook : s.mem.Took w) :
    (w, x) ∈ (s.mem.chan c).sent := by
  obtain ⟨d, hsent | htaken | hrecvd⟩ := htook
  · obtain ⟨⟨w', y⟩, hy, rfl⟩ := List.mem_map.1 hsent
    obtain ⟨rfl, rfl⟩ := hoff.eq hv.hist (hv.ledger.sent d w' y hy)
    exact hy
  · exact absurd (hv.ledger.taken d w (Or.inl htaken)) (hoff.not_accepting hv.hist)
  · exact absurd (hv.ledger.taken d w (Or.inr hrecvd)) (hoff.not_accepting hv.hist)

theorem RingPc.mem_tags_of_pending {p : RingPc Wid α} (h : w ∈ p.pending) : w ∈ p.op.tags := by
  cases p with
  | copy op a k i acc => exact List.mem_of_mem_take (List.mem_of_mem_drop h)
  | _ => cases h

omit [DecidableEq T] [DecidableEq C] in
/-- The takers of a ring operation belong to the call of the thread, or it has them in its hands. -/
theorem Thread.tags_of_ring {p : RingPc Wid α} (hok : th.Ok K) (hring : th.ring? = some (c, p))
    (hw : w ∈ p.op.tags) : th.id? = some w.call ∨ th.hand = some (w, .claimed c .recv) := by
  cases Thread.ringFor hok hring with
  | single hop hruns =>
    rw [hruns.1] at hw
    exact Or.inl (congrArg some (Op.accepts_of_ringOp hop hw).1.symm)
  | burst hop hruns =>
    rw [hruns.1] at hw
    exact Or.inl (congrArg some (Op.accepts_of_burstOp hop hw).1.symm)
  | case hk hchan hruns =>
    rw [hruns.1] at hw
    rw [(Case.elem_of_tags hw).1]
    exact Or.inl rfl
  | waiter hhand hserves =>
    obtain ⟨rfl, rfl⟩ := RingOp.serves_tags hserves.1 hw
    exact Or.inr hhand

/-- What holds in every state of a run in which no thread is overtaken by a lap. -/
structure RingValid (K : Config T C) (s : Sys T C α) : Prop extends Valid K s where
  shared : SharedInv K s
  transfer : TransferInv K s

omit [DecidableEq T] in
theorem RingValid.init (slots : C → U32 → α) : RingValid K (Sys.init slots : Sys T C α) :=
  ⟨.init slots, .init slots, .init slots⟩

theorem RingValid.step (h : RingValid K s) (htime : s.Timely l) (hstep : s.Stepped K l s') :
    RingValid K s' :=
  ⟨h.toValid.step hstep, h.shared.step h.toSound (htime.shared K) hstep,
    h.transfer.step h.toValid h.shared hstep⟩

omit [DecidableEq T] in
/-- A receiver that has moved an element has received it. -/
theorem Sys.Carried.exists_recvd (h : s.Carried c) (hv : Valid K s)
    (hle : (s.mem.chan c).hist.takers.length ≤ (s.mem.chan c).hist.log.length)
    (hacc : s.Accepting c w) (htook : s.mem.Took w) : ∃ v, (w, v) ∈ (s.mem.chan c).recvd := by
  obtain ⟨d, hsent | htaken | hrecvd⟩ := htook
  · obtain ⟨⟨w', y⟩, hy, rfl⟩ := List.mem_map.1 hsent
    exact absurd hacc ((hv.ledger.sent d w' y hy).not_accepting hv.hist)
  · obtain rfl := hacc.chan_eq hv.hist (hv.ledger.taken d w (Or.inl htaken))
    obtain ⟨n, hn⟩ := List.mem_iff_getElem?.1 htaken
    have hlt : n < (s.mem.chan c).hist.log.length := by
      obtain ⟨hlt, -⟩ := List.getElem?_eq_some_iff.1 hn
      exact hlt.trans_le hle
    refine ⟨((s.mem.chan c).hist.log[n]).2, h.booked.mem_recvd ?_⟩
    refine RingGhost.mem_matched hn ?_
    rw [RingGhost.valueAt, List.getElem?_eq_getElem hlt]
    rfl
  · obtain rfl := hacc.chan_eq hv.hist (hv.ledger.taken d w (Or.inr hrecvd))
    obtain ⟨⟨w', v⟩, hv, rfl⟩ := List.mem_map.1 hrecvd
    exact ⟨v, hv⟩

omit [DecidableEq T] in
theorem Sys.Carried.recvd_of_took (h : s.Carried c) (hv : Valid K s) (hgood : s.RingSound K c)
    (hacc : s.Accepting c w) (htook : s.mem.Took w) : ∃ v, (w, v) ∈ (s.mem.chan c).recvd :=
  h.exists_recvd hv hgood.takers_le hacc htook

omit [DecidableEq T] in
/-- A receiver that is in nobody's hands has its element in its buffer. -/
theorem Sys.Carried.data_of_recvd (h : s.Carried c) (hs : Sound K s)
    (hw : (w, v) ∈ (s.mem.chan c).recvd)
    (hown : ∀ u, (s.thread u).id? = some w.call → (s.thread u).ring? = none)
    (hhand : ∀ u, (s.thread u).hand ≠ some (w, .claimed c .recv)) :
    (s.mem.waiter w).data = some v := by
  rcases h.buffer w v hw with hdata | ⟨u, p, hring, hp⟩
  · exact hdata
  · rcases Thread.tags_of_ring (hs.ok u) hring (RingPc.mem_tags_of_pending hp) with hid | hclaim
    · cases (hown u hid).symm.trans hring
    · exact absurd hclaim (hhand u)

omit [DecidableEq T] in
theorem RingValid.recvd_of_took (h : RingValid K s) (hc : (K.chan c).spsc = false)
    (hacc : s.Accepting c w) (htook : s.mem.Took w) : ∃ v, (w, v) ∈ (s.mem.chan c).recvd :=
  (h.transfer.carried hc).recvd_of_took h.toValid (h.shared c hc) hacc htook

omit [DecidableEq T] in
theorem RingValid.data_of_recvd (h : RingValid K s) (hc : (K.chan c).spsc = false)
    (hw : (w, v) ∈ (s.mem.chan c).recvd)
    (hown : ∀ u, (s.thread u).id? = some w.call → (s.thread u).ring? = none)
    (hhand : ∀ u, (s.thread u).hand ≠ some (w, .claimed c .recv)) :
    (s.mem.waiter w).data = some v :=
  (h.transfer.carried hc).data_of_recvd h.toSound hw hown hhand

end Buffers

end LibChan
