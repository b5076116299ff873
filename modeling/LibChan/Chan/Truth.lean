import LibChan.Chan.Waiters
import LibChan.Chan.Closed
import LibChan.Chan.Selects
import LibChan.Chan.Reuse

/-!
# When the locked select tells the truth

`execute_case_locked` ignores the verdicts of its ring operations, wakes a queued receiver after its own
push without an element for it, and can end with `CHAN_ERR_WOULDBLOCK`. `Thread.execOk` is the condition
that none of this happens in a step. In runs that meet it, whoever is said to have moved an element has
moved one (`MustInv`): the ring verdicts the direct operations look at are right, and so are the results
of settled waiters.
-/

set_option autoImplicit false

namespace LibChan

variable {T C α : Type}

/-- The next access finds the ring full or empty and ends the operation. -/
def RingPc.fails {ω β : Type} (cap : RingCap) (r : Ring β) : RingPc ω β → Bool
  | loadOpp op h => (op.reserve cap h (r.cur op.side.other).tail).isNone
  | _ => false

/-- What `execute_case_locked` reports as moved is moved: its ring operations do not fail, and a send that
has pushed its element finds no receiver to wake. -/
def ExecPc.moves (K : Config T C) (m : Mem T C α) (k : Case C α) : ExecPc α → Bool
  | ring p => !p.fails (K.chan k.chan).ringCap (m.chan k.chan).ring
  | helpClaim => decide (k.op = .recv) ||
      !(((m.chan k.chan).queue .recv).head?.any fun w => m.claimable w)
  | helpRing _ p => !p.fails (K.chan k.chan).ringCap (m.chan k.chan).ring
  | _ => true

/-- The condition on the steps of `execute_case_locked` under which it moves what it reports. -/
def Thread.moveOk (K : Config T C) (m : Mem T C α) : Thread C α → Bool
  | .select _ cases _ (.exec i st) => (cases[i]?).all fun k => st.moves K m k
  | _ => true

theorem Sys.moves_of_moveOk {K : Config T C} {s : Sys T C α} {t : T} {alt : Bool} {id : Nat}
    {cases : List (Case C α)} {timeout : Int} {pc : SelPc C α}
    (h : Sys.When (Thread.moveOk K) s (.go t alt)) (hth : s.thread t = .select id cases timeout pc)
    (i : Nat) (k : Case C α) (st : ExecPc α) (hpc : pc = .exec i st) (hk : cases[i]? = some k) :
    st.moves K s.mem k = true := by
  subst hpc
  have htrue : (s.thread t).moveOk K s.mem = true := h
  rw [hth, Thread.moveOk, hk] at htrue
  exact htrue

/-- What a running call says it has moved, it has moved. -/
structure Thread.Must (s : Sys T C α) (th : Thread C α) : Prop where
  hand : ∀ w ∈ th.handGot, s.mem.Took w
  own : ∀ w ∈ th.got, s.mem.Took w

/-- The waiters that a call reports to have moved with its return `r`. -/
def Call.gotOf (id : Nat) (k : Call C α) (r : Ret) : List Wid :=
  match k with
  | .direct _ op => op.gotOf id r
  | .select _ _ => SelPc.gotOf id r

/-- What a call has reported to have moved, it has moved. -/
def Call.Must (s : Sys T C α) (id : Nat) (k : Call C α) (r : Ret) : Prop :=
  ∀ w ∈ k.gotOf id r, s.mem.Took w

/-- Reports are right: those of the calls, and the results of stubs and waiters. -/
structure MustInv (s : Sys T C α) : Prop where
  calls : Sys.Each Thread.Must Call.Must s
  stub : ∀ w, s.mem.selectState w.call ≠ none → (s.mem.waiter w).result = .ok → s.mem.Took w
  shared : ∀ t id c op pc, s.thread t = .direct id c op pc → pc.shared = true →
    (s.mem.waiter ⟨id, 0⟩).result = .ok → s.Settled ⟨id, 0⟩ → s.mem.Took ⟨id, 0⟩

/-! ## Direct calls -/

section Direct

variable {K : Config T C} {m : Mem T C α} {id : Nat} {c : C} {op : Op α} {alt : Bool}
  {pc pc' : Pc α} {e : Effect α} {w : Wid}

/-- A single operation that ends with an element has moved one for its waiter. -/
theorem RingPc.mem_got_of_hit {p : RingPc Wid α} {res : RingRes α} {v : Wid}
    (hp : m.access K c alt p = .inr res) (hres : res.moved ≠ 0) (hop : p.op.wids = [v]) :
    p.got = [v] := by
  rw [(RingPc.got_of_inr hp).2, hop]
  exact List.take_of_length_le (Nat.one_le_iff_ne_zero.2 hres)

theorem Op.wids_ringOp (op : Op α) (id : Nat) : (op.ringOp id).wids = [⟨id, 0⟩] := by
  cases op <;> rfl

theorem Op.gotOf_subset_single (r : ChanErr) : op.gotOf id (.err r) ⊆ [⟨id, 0⟩] := by
  cases r with
  | ok =>
    rw [Op.gotOf]
    split
    · exact List.Subset.refl _
    · exact List.nil_subset _
  | _ => exact List.nil_subset _

/-- What a place of a direct call says it has moved, the place before it said, or the step has moved
it, or the waiter has been settled with `CHAN_OK`. -/
theorem Pc.got_of_flow (hok : pc.Ok (K.chan c) id op) (hflow : Pc.Flow K m id c op alt pc e pc')
    (hw : w ∈ pc'.got id op) : w ∈ pc.got id op ∨ w ∈ (m.chan c).grants e ∨
      pc = .decr none ∧ w = ⟨id, 0⟩ ∧ (m.waiter w).result = .ok := by
  have hin : ∀ {p p' : RingPc Wid α}, m.access K c alt p = .inl p' → w ∈ p'.got →
      w ∈ p.got ∨ w ∈ p.grants (m.chan c).ring alt := by
    intro p p' hp h
    rw [RingPc.got_of_inl hp] at h
    exact List.mem_append.1 h
  have hhit : ∀ {p : RingPc Wid α} {res : RingRes α}, m.access K c alt p = .inr res →
      res.moved ≠ 0 → p.Runs (op.ringOp id) → w ∈ [(⟨id, 0⟩ : Wid)] → w ∈ p.got := by
    intro p res hp hres hruns h
    rwa [RingPc.mem_got_of_hit hp hres (by rw [hruns.1, op.wids_ringOp])]
  have hok' : w ∈ op.gotOf id (.err .ok) → w ∈ [(⟨id, 0⟩ : Wid)] := fun h => op.gotOf_subset_single _ h
  have hblocks : Blocks op pc' → w ∈ pc.got id op := by
    intro hb
    cases hb <;> cases hw
  have hserve : ∀ {k : ServeEnd} {st st' : ServePc α}, w ∈ (serve k st').got id op →
      w ∈ (serve k st).got id op := by
    intro k st st' h
    cases k <;> exact h
  cases hflow with
  | fastIn hp => exact (hin hp hw).imp_right Or.inl
  | fastHit hp hres => exact Or.inl (hhit hp hres hok.2.2.2 (hok' hw))
  | @spscIn _ p p' hp =>
    have hw : w ∈ p'.got := hw
    rw [SpscPc.got_of_inl hp] at hw
    exact (List.mem_append.1 hw).imp_right Or.inl
  | @spscHit _ p res hp hres =>
    refine Or.inl ?_
    have hgot : p.got = [⟨id, 0⟩] := by
      rw [(SpscPc.got_of_inr hp).2, hok.2.2.2, op.wids_ringOp]
      exact List.take_of_length_le (Nat.one_le_iff_ne_zero.2 hres)
    show w ∈ p.got
    rw [hgot]
    exact hok' hw
  | burstIn hp => exact (hin hp hw).imp_right Or.inl
  | @burstHit p res hp hres =>
    refine Or.inl ?_
    have hw : w ∈ op.gotOf id (.count res.moved) := hw
    rw [Op.gotOf, if_pos hok.1] at hw
    show w ∈ p.got
    rwa [(RingPc.got_of_inr hp).2, hok.2.2.1]
  | slowIn hp => exact (hin hp hw).imp_right Or.inl
  | slowSendHit hp hres hop => exact Or.inl (hhit hp hres hok.2.2 (hok' hw))
  | slowRecvHit hp hres hop => exact Or.inl (hhit hp hres hok.2.2 hw)
  | meetSend hop =>
    rw [List.mem_singleton.1 hw]
    exact Or.inr (Or.inl List.mem_cons_self)
  | meetRecv hop hdata =>
    rw [List.mem_singleton.1 hw]
    exact Or.inr (Or.inl (List.mem_cons_of_mem _ List.mem_cons_self))
  | recheckIn hp => exact (hin hp hw).imp_right Or.inl
  | recheckHit hp hres => exact Or.inl (hhit hp hres hok.2.2 hw)
  | backIn hp => exact (hin hp hw).imp_right Or.inl
  | backHit hp hres => exact Or.inl (hhit hp hres hok.2.2 hw)
  | helpEmpty hqueue | helpPutBack | wakeRet | unDecrSend hop | unDecrRecv hop =>
    exact Or.inl (hok' hw)
  | @decr r =>
    obtain ⟨-, rfl | rfl⟩ := hok
    · have heq := List.mem_singleton.1 (op.gotOf_subset_single _ hw)
      subst heq
      refine Or.inr (Or.inr ⟨rfl, rfl, ?_⟩)
      revert hw
      rw [got, Option.getD_none]
      cases (m.waiter ⟨id, 0⟩).result with
      | ok => exact fun _ => rfl
      | _ => rintro ⟨⟩
    · cases hw
  | closeRecvEmpty hqueue =>
    subst hok
    cases hw
  | burstMiss hp hres =>
    refine absurd hw ?_
    rw [got, Op.gotOf]
    split <;> exact List.not_mem_nil
  | burstShut hclosed =>
    refine absurd hw ?_
    rw [got, Op.gotOf]
    split <;> exact List.not_mem_nil
  | lenHead =>
    subst hok
    cases hw
  | serveStopBlock hstop hblock | serveEmptyBlock hqueue hblock | servePutBackBlock hblock
  | meetEmptySend hqueue hop hblock | emptyOpen hopen hblock => exact Or.inl (hblocks hblock)
  | serveFirst | serveGo | serveClaim | serveDrop | serveIn | serveHit | serveMiss | serveSettle
  | serveWake => exact Or.inl (hserve hw)
  | afterServe | afterRet | serveLock | serveStop | serveEmpty | servePutBack | unlockRet =>
    exact Or.inl hw
  | meetUnlock | helpClaim | helpDrop | helpIn | helpHit | helpMiss | helpSettle | helpUnlock
  | unRemove => exact Or.inl hw
  | _ => cases hw

/-- What is noted in hand was noted before, or the step has moved it. -/
theorem Pc.handGot_source (hok : pc.Ok (K.chan c) id op)
    (hflow : Pc.Flow K m id c op alt pc e pc') (hw : w ∈ pc'.handGot) :
    w ∈ pc.handGot ∨ w ∈ (m.chan c).grants e := by
  have hin : ∀ {p p' : RingPc Wid α}, m.access K c alt p = .inl p' → w ∈ p'.got →
      w ∈ p.got ∨ w ∈ p.grants (m.chan c).ring alt := by
    intro p p' hp h
    rw [RingPc.got_of_inl hp] at h
    exact List.mem_append.1 h
  have hhit : ∀ {p : RingPc Wid α} {res : RingRes α} {v : Wid} {o : ChanOp},
      m.access K c alt p = .inr res → res.moved ≠ 0 → p.Serves v o → w ∈ [v] → w ∈ p.got := by
    intro p res v o hp hres hserves h
    rwa [RingPc.mem_got_of_hit hp hres (RingOp.wids_of_serves hserves.1)]
  have hblocks : Blocks op pc' → w ∈ pc.handGot := by
    intro hb
    cases hb <;> cases hw
  cases hflow with
  | serveIn hp => exact hin hp hw
  | serveHit hp hres => exact Or.inl (hhit hp hres hok.2.2 hw)
  | helpIn hp => exact hin hp hw
  | helpHit hp hres => exact Or.inl (hhit hp hres hok.2.2.2 hw)
  | closeIn hp => exact hin hp hw
  | closeHit hp hres => exact Or.inl (hhit hp hres hok.2.2 hw)
  | serveStopBlock hstop hblock | serveEmptyBlock hqueue hblock | servePutBackBlock hblock
  | meetEmptySend hqueue hop hblock | emptyOpen hopen hblock => exact Or.inl (hblocks hblock)
  | _ => cases hw

end Direct

/-! ## Selects -/

section Select

variable [DecidableEq C] {K : Config T C} {m : Mem T C α} {t : T} {id : Nat}
  {cases : List (Case C α)} {timeout : Int} {alt : Bool} {pc pc' : SelPc C α} {c : C}
  {e : Effect α} {w : Wid}

omit [DecidableEq C] in
/-- An operation that is not about to fail ends with an element. -/
theorem RingPc.moved_of_not_fails {p : RingPc Wid α} {res : RingRes α} (hfit : p.Fit)
    (hp : m.access K c alt p = .inr res)
    (hnot : (!p.fails (K.chan c).ringCap (m.chan c).ring) = true) : res.moved ≠ 0 := by
  cases p with
  | loadOpp op a =>
    simp only [Mem.access, Ring.step] at hp
    split at hp
    · next hres =>
      simp only [fails, hres] at hnot
      cases hnot
    · cases hp
  | store op a k acc =>
    cases hp
    exact Nat.pos_iff_ne_zero.1 hfit.2.1
  | loadHead op => cases hp
  | cas op a k =>
    simp only [Mem.access, Ring.step] at hp
    split at hp <;> cases hp
  | copy op a k i acc =>
    simp only [Mem.access, Ring.step] at hp
    split at hp <;> cases hp
  | wait op a k acc =>
    simp only [Mem.access, Ring.step] at hp
    split at hp <;> cases hp

omit [DecidableEq C] in
theorem Case.wids_ringOp (k : Case C α) (v : Wid) : (k.ringOp v).wids = [v] := by
  rw [Case.ringOp]
  split <;> rfl

omit [DecidableEq C] in
/-- `execute_case_locked` says of no case but its own that it has moved an element. -/
theorem ExecPc.eq_of_got_next {k : Case C α} {v : Wid} {st st' : ExecPc α}
    (hok : st.Ok (K.chan k.chan) k v) (hexec : SelPc.ExecFlow K m k v alt st e (.inl st'))
    (hw : w ∈ st'.got v) : w = v := by
  cases hexec with
  | @ringIn p p' hp =>
    have hw : w ∈ p'.got := hw
    rw [RingPc.got_of_inl hp] at hw
    have hmem : w ∈ p.op.wids :=
      (List.mem_append.1 hw).elim RingPc.mem_wids_of_got RingPc.mem_wids_of_grants
    rw [hok.2.1, k.wids_ringOp] at hmem
    exact List.mem_singleton.1 hmem
  | ringOut | copySend | copyRecv | helpSend | helpRecv | helpDrop | helpIn | helpOut | settle =>
    exact List.mem_singleton.1 hw
  | _ => cases hw

omit [DecidableEq C] in
/-- A step of `execute_case_locked` that moves what it reports says of its case only what is so. -/
theorem ExecPc.got_source {k : Case C α} {v : Wid} {st st' : ExecPc α}
    (hok : st.Ok (K.chan k.chan) k v) (htrue : st.moves K m k = true)
    (hexec : SelPc.ExecFlow K m k v alt st e (.inl st')) (hw : w ∈ st'.got v) :
    w ∈ st.got v ∨ w ∈ (m.chan k.chan).grants e := by
  cases hexec with
  | @ringIn p p' hp =>
    have hw : w ∈ p'.got := hw
    rw [RingPc.got_of_inl hp] at hw
    exact List.mem_append.1 hw
  | @ringOut p res hp =>
    refine Or.inl ?_
    show w ∈ p.got
    rw [RingPc.mem_got_of_hit hp (RingPc.moved_of_not_fails hok.2.2 hp htrue)
      (by rw [hok.2.1, k.wids_ringOp])]
    exact hw
  | copySend hx =>
    rw [List.mem_singleton.1 hw]
    exact Or.inr List.mem_cons_self
  | copyRecv hx hdata =>
    rw [List.mem_singleton.1 hw]
    exact Or.inr (List.mem_cons_of_mem _ List.mem_cons_self)
  | helpSend | helpRecv | helpDrop | helpIn | helpOut | settle => exact Or.inl hw
  | _ => cases hw

omit [DecidableEq C] in
/-- A step of `execute_case_locked` that moves what it reports says of the waiter in hand only what is so. -/
theorem ExecPc.handGot_source {k : Case C α} {v : Wid} {st st' : ExecPc α} {i : Nat}
    (hok : st.Ok (K.chan k.chan) k v) (htrue : st.moves K m k = true)
    (hexec : SelPc.ExecFlow K m k v alt st e (.inl st'))
    (hw : w ∈ (SelPc.exec (C := C) i st').handGot) :
    w ∈ (SelPc.exec (C := C) i st).handGot ∨ w ∈ (m.chan k.chan).grants e := by
  cases hexec with
  | @helpIn v p p' hp =>
    have hw : w ∈ p'.got := hw
    rw [RingPc.got_of_inl hp] at hw
    exact List.mem_append.1 hw
  | @helpOut v p res hp =>
    refine Or.inl ?_
    show w ∈ p.got
    rw [RingPc.mem_got_of_hit hp (RingPc.moved_of_not_fails hok.2.2.2 hp htrue)
      (RingOp.wids_of_serves hok.2.2.1)]
    exact hw
  | @helpSend v q hop hqueue hclaim =>
    -- the receiver would be woken without an element
    simp only [moves, hop, hqueue, List.head?_cons, Option.any_some, hclaim] at htrue
    cases htrue
  | _ => cases hw

/-- What a place of a select says it has moved, the place before it said, or the step has moved it, or
the stub has been settled with `CHAN_OK`. -/
theorem SelPc.got_of_flow (hok : pc.Ok K id cases)
    (htrue : ∀ k st, pc = .exec w.idx st → cases[w.idx]? = some k → st.moves K m k = true)
    (hflow : SelPc.Flow K m t id cases timeout alt pc c e pc') (hw : w ∈ pc'.got id) :
    w ∈ pc.got id ∨ w ∈ (m.chan c).grants e ∨ w.call = id ∧ (m.waiter w).result = .ok := by
  have hstep1 : Step1 cases pc' → w ∉ pc'.got id := by
    rintro (_ | _) <;> exact List.not_mem_nil
  have hstep2 : ∀ {start}, Step2 K cases start pc' → w ∉ pc'.got id := by
    rintro _ (_ | _) <;> exact List.not_mem_nil
  have hpasses : ∀ {rdy}, Passes K cases timeout rdy pc' → w ∉ pc'.got id := by
    rintro _ (_ | _ | _ | _ | _) <;> exact List.not_mem_nil
  cases hflow with
  | fast1Skip hk hst => exact absurd hw (hstep1 hst)
  | fast2Start hst | fast2Skip hk hcnt hst | fast2Miss hk hp hres hst =>
    exact absurd hw (hstep2 hst)
  | pass hpass | readyNot hk hpass | readySend hk hop hopen hpass | readyShut hk hop hclosed hpass
  | readyYes hk hst hpass => exact absurd hw (hpasses hpass)
  | @fast2In _ _ _ p p' hk hp =>
    have hw : w ∈ p'.got := hw
    rw [RingPc.got_of_inl hp] at hw
    exact (List.mem_append.1 hw).imp_right Or.inl
  | @fast2Hit _ _ _ p res hk hp hres =>
    obtain ⟨k, -, -, hruns⟩ := hok
    refine Or.inl ?_
    show w ∈ p.got
    rw [RingPc.mem_got_of_hit hp hres (by rw [(hruns p rfl).1, k.wids_ringOp])]
    exact hw
  | @pick rdy i k e st hk hmem he hst =>
    refine absurd hw ?_
    show w ∉ st.got ⟨id, i⟩
    rw [hst, execFrom]
    split
    · exact List.not_mem_nil
    · split
      · split <;> exact List.not_mem_nil
      · exact List.not_mem_nil
  | @execGo i k st st' e hk hexec =>
    obtain ⟨k', hk', hok⟩ := hok
    obtain rfl : k = k' := Option.some.inj (hk.symm.trans hk')
    obtain rfl : w = ⟨id, i⟩ := ExecPc.eq_of_got_next hok hexec hw
    exact (ExecPc.got_source hok (htrue k st rfl hk) hexec hw).imp_right Or.inl
  | execDone hk hexec =>
    cases hexec with
    | helpEmpty hqueue => exact Or.inl hw
    | wake => exact Or.inl hw
    | _ => cases hw
  | @unlock c cs k =>
    cases k with
    | ret r => exact Or.inl hw
    | park => cases hw
  | unlockedRet => exact Or.inl hw
  | @cleaned i d woken winner hi =>
    cases winner with
    | none => cases hw
    | some j =>
      cases woken with
      | false => cases hw
      | true =>
        have hw : w ∈ gotOf id (.sel (some j) (m.waiter ⟨id, j⟩).result) := hw
        have heq := SelPc.eq_of_gotOf hw
        subst heq
        refine Or.inr (Or.inr ⟨rfl, ?_⟩)
        revert hw
        cases (m.waiter ⟨id, j⟩).result with
        | ok => exact fun _ => rfl
        | _ => exact nofun
  | _ => cases hw

/-- A select gives the result `CHAN_OK` only to the waiter in its hands. -/
theorem SelPc.result_ok_of_flow (hflow : SelPc.Flow K m t id cases timeout alt pc c e pc')
    {r : ChanErr} (hr : e.resultAfter w r = .ok) :
    r = .ok ∨ ∃ d o, (Thread.select id cases timeout pc).hand = some (w, .claimed d o) := by
  have hite : ∀ {v : Wid}, (if w = v then .ok else r) = ChanErr.ok → r = .ok ∨ w = v := by
    intro v h
    split at h
    · next heq => exact Or.inr heq
    · exact Or.inl h
  cases hflow with
  | pick hk hmem he => rcases he with rfl | ⟨v, rfl⟩ <;> exact Or.inl hr
  | @execGo i k st st' e hk hexec =>
    have hhand : ∀ v, execHand k st = some (v, .claimed k.chan k.op.other) → w = v →
        ∃ d o, (Thread.select id cases timeout (.exec i st)).hand = some (w, .claimed d o) := by
      rintro v hv rfl
      refine ⟨k.chan, k.op.other, ?_⟩
      rw [Thread.hand, SelPc.hand, hk]
      exact hv
    cases hexec with
    | copySend hx | copyRecv hx hdata | settle => exact (hite hr).imp_right (hhand _ rfl)
    | _ => exact Or.inl hr
  | execDone hk hexec => cases hexec <;> exact Or.inl hr
  | stub hk =>
    rw [Effect.resultAfter] at hr
    split at hr
    · cases hr
    · exact Or.inl hr
  | _ => exact Or.inl hr

theorem SelPc.handGot_source (hok : pc.Ok K id cases)
    (htrue : ∀ i k st st', pc = .exec i st → cases[i]? = some k → pc' = .exec i st' →
      st.moves K m k = true)
    (hflow : SelPc.Flow K m t id cases timeout alt pc c e pc') (hw : w ∈ pc'.handGot) :
    w ∈ pc.handGot ∨ w ∈ (m.chan c).grants e := by
  have hstep1 : Step1 cases pc' → w ∉ pc'.handGot := by
    rintro (_ | _) <;> exact List.not_mem_nil
  have hstep2 : ∀ {start}, Step2 K cases start pc' → w ∉ pc'.handGot := by
    rintro _ (_ | _) <;> exact List.not_mem_nil
  have hpasses : ∀ {rdy}, Passes K cases timeout rdy pc' → w ∉ pc'.handGot := by
    rintro _ (_ | _ | _ | _ | _) <;> exact List.not_mem_nil
  cases hflow with
  | fast1Skip hk hst => exact absurd hw (hstep1 hst)
  | fast2Start hst | fast2Skip hk hcnt hst | fast2Miss hk hp hres hst =>
    exact absurd hw (hstep2 hst)
  | pass hpass | readyNot hk hpass | readySend hk hop hopen hpass | readyShut hk hop hclosed hpass
  | readyYes hk hst hpass => exact absurd hw (hpasses hpass)
  | @pick rdy i k e st hk hmem he hst =>
    refine absurd hw ?_
    rw [hst, execFrom]
    split
    · exact List.not_mem_nil
    · split
      · split <;> exact List.not_mem_nil
      · exact List.not_mem_nil
  | @execGo i k st st' e hk hexec =>
    obtain ⟨k', hk', hok⟩ := hok
    obtain rfl : k = k' := Option.some.inj (hk.symm.trans hk')
    exact ExecPc.handGot_source hok (htrue i k st st' rfl hk rfl) hexec hw
  | _ => cases hw

end Select

/-! ## Steps -/

section Step

variable [DecidableEq T] [DecidableEq C] {K : Config T C} {s s' : Sys T C α} {l : Label T C α}
  {t : T} {alt : Bool} {c : C} {e : Effect α} {th : Thread C α} {w : Wid}

omit [DecidableEq T] in
/-- A waiter of another call gets the result `CHAN_OK` from the one who has noted it in hand or moves
its element in this step. -/
theorem Sys.Acts.result_ok (hacts : s.Acts K t alt c e th)
    (he : (∃ r, e = .settle w r) ∨ ∃ a b x, e = .pair a b w x)
    (hid : (s.thread t).id? ≠ some w.call) {r : ChanErr} (hr : e.resultAfter w r = .ok) :
    w ∈ (s.thread t).handGot ∨ w ∈ (s.mem.chan c).grants e := by
  rcases he with ⟨r', rfl⟩ | ⟨a, b, x, rfl⟩
  · rw [Effect.resultAfter, if_pos rfl] at hr
    subst hr
    refine Or.inl ?_
    cases hacts with
    | direct hth hact =>
      rw [hth] at hid ⊢
      cases Pc.flow_of_act hact with
      | serveSettle => exact List.mem_singleton.2 rfl
      | helpSettle => exact List.mem_singleton.2 rfl
      | backSettle => exact absurd rfl hid
      | closeSettle => exact List.mem_singleton.2 rfl
    | select hth hact =>
      rw [hth]
      cases SelPc.flow_of_act hact with
      | pick _ _ he => rcases he with he | ⟨v, he⟩ <;> cases he
      | execGo hk hexec =>
        cases hexec
        exact List.mem_singleton.2 rfl
      | execDone hk hexec => cases hexec
  · refine Or.inr ?_
    cases hacts with
    | direct hth hact =>
      cases Pc.flow_of_act hact with
      | meetSend hop => exact List.mem_cons_of_mem _ List.mem_cons_self
      | meetRecv hop hdata => exact List.mem_cons_self
    | select hth hact =>
      cases SelPc.flow_of_act hact with
      | pick _ _ he => rcases he with he | ⟨v, he⟩ <;> cases he
      | execGo hk hexec =>
        cases hexec with
        | copySend hx => exact List.mem_cons_of_mem _ List.mem_cons_self
        | copyRecv hx hdata => exact List.mem_cons_self
      | execDone hk hexec => cases hexec

omit [DecidableEq T] in
/-- A call that starts has moved nothing. -/
theorem Thread.got_startThread (id : Nat) (k : Call C α) : (Sys.startThread K id k).got = [] := by
  cases k with
  | direct c op =>
    simp only [Sys.startThread, Thread.got]
    have hbegins := Pc.begins_entry (K.chan c) id op
    revert hbegins
    generalize Pc.entry (K.chan c) id op = pc
    intro hbegins
    cases hbegins with
    | nothing =>
      rw [Pc.got, Op.gotOf]
      split <;> rfl
    | _ => rfl
  | select cases timeout =>
    simp only [Sys.startThread, Thread.got]
    have hbegins := SelPc.begins_entry cases
    revert hbegins
    generalize SelPc.entry cases = pc
    rintro (_ | (_ | _)) <;> rfl

theorem MustInv.calls_step (h : MustInv s) (hs : Sound K s) (hmay : WaiterInv K s)
    (hok : Sys.When (Thread.moveOk K) s l) (hstep : s.Stepped K l s') :
    Sys.Each Thread.Must Call.Must s' := by
  have hmono : ∀ v, s.mem.Took v → s'.mem.Took v := by
    intro v hv
    cases hstep with
    | call hidle => exact hv
    | ret hdone hret => exact hv
    | move hnext hacts => exact Sys.took_move.2 (Or.inl hv)
  refine h.calls.step hs.hist hstep ⟨nofun, nofun⟩ ?_ ?_ ?_ ?_ ?_
  · rintro t k - rfl
    have hhand := (Sys.begun_startThread K s.next k).hand
    have hgot := Thread.handGot_eq_nil (Thread.ok_startThread (K := K) s.next k) hhand
    refine ⟨fun v hv => ?_, fun v hv => ?_⟩
    · rw [hgot] at hv
      cases hv
    · rw [Thread.got_startThread] at hv
      cases hv
  · rintro t alt c e th rfl hnext hacts rfl hP
    have hgrants : ∀ v, v ∈ (s.mem.chan c).grants e → (s.move K t c e th).mem.Took v :=
      fun v hv => Sys.took_move.2 (Or.inr hv)
    cases hacts with
    | @direct id c op pc pc' e hth hact =>
      have hplace := hs.direct_ok hth
      have hflow := Pc.flow_of_act hact
      rw [hth] at hP
      refine ⟨fun v hv => ?_, fun v hv => ?_⟩
      · exact (Pc.handGot_source hplace hflow hv).elim (fun hv => hmono v (hP.hand v hv)) (hgrants v)
      · rcases Pc.got_of_flow hplace hflow hv with hv | hv | ⟨rfl, rfl, hres⟩
        · exact hmono v (hP.own v hv)
        · exact hgrants v hv
        · -- the result of a settled waiter
          have hMay := hmay.running t
          rw [hth] at hMay
          exact hmono _ (h.shared t id c op _ hth rfl hres (hMay.finished rfl))
    | @select id cases timeout pc pc' c d e hth hact =>
      have hplace := hs.select_ok hth
      have hflow := SelPc.flow_of_act hact
      have htrue := Sys.moves_of_moveOk hok hth
      rw [hth] at hP
      refine ⟨fun v hv => ?_, fun v hv => ?_⟩
      · exact (SelPc.handGot_source hplace (fun i k st _ hpc hk _ => htrue i k st hpc hk) hflow hv).elim
          (fun hv => hmono v (hP.hand v hv)) (hgrants v)
      · rcases SelPc.got_of_flow hplace (fun k st => htrue _ k st) hflow hv with hv | hv | ⟨rfl, hres⟩
        · exact hmono v (hP.own v hv)
        · exact hgrants v hv
        · refine hmono v (h.stub v ?_ hres)
          have hstate := hs.calls.state t v.call (by rw [hth]; rfl)
          rw [hth] at hstate
          exact Option.isSome_iff_ne_none.1 hstate
  · intro u hu hP
    exact ⟨fun v hv => hmono v (hP.hand v hv), fun v hv => hmono v (hP.own v hv)⟩
  · rintro t id k r out hret hcall rfl hP
    cases hret with
    | direct hth =>
      rw [hth] at hcall hP
      cases hcall
      exact hP.own
    | select hth =>
      rw [hth] at hcall hP
      cases hcall
      exact hP.own
  · intro id k r out hans hR v hv
    exact hmono v (hR v hv)

/-- A direct waiter that is settled with `CHAN_OK` after a step of another thread has been served. -/
theorem MustInv.shared_other (h : MustInv s) (hs : Sound K s) {u : T} {id : Nat} {d : C} {op : Op α}
    {pc : Pc α} (hth : s.thread u = .direct id d op pc) (hsh : pc.shared = true) (hu : u ≠ t)
    (hnext : (s.thread t).Next K s.mem c th e) (hacts : s.Acts K t alt c e th)
    (hres : ((s.move K t c e th).mem.waiter ⟨id, 0⟩).result = .ok)
    (hset : (s.move K t c e th).Settled ⟨id, 0⟩) : (s.move K t c e th).mem.Took ⟨id, 0⟩ := by
  have hid : (s.thread t).id? ≠ some id := fun hid =>
    hu (hs.calls.id_inj u t id (by rw [hth]; rfl) hid)
  cases Sys.fate (w := ⟨id, 0⟩) hs hnext hid with
  | same hqueue hclaimed hsame =>
    refine Sys.took_move.2 (Or.inl (h.shared u id d op pc hth hsh (hsame.symm.trans hres) ?_))
    exact ⟨fun hq => hset.queue (hqueue.2 hq), fun v hv => hset.hand v ((hclaimed v).2 hv)⟩
  | claim he hqueue hclaimed => exact absurd hclaimed (hset.hand t)
  | drop he hqueue hnot =>
    rw [Mem.claimable, hs.selectState_direct hth] at hnot
    cases hnot
  | putBack he hclaimed hqueue => exact absurd hqueue hset.queue
  | settle he hclaimed =>
    rw [Sys.result_move] at hres
    exact Sys.took_move.2 ((hacts.result_ok he hid hres).imp_left ((h.calls.running t).hand _))

/-- A direct waiter that is settled with `CHAN_OK` after a step of its own thread has been served. -/
theorem MustInv.shared_own (h : MustInv s) {id : Nat} {op : Op α} {pc pc' : Pc α}
    (hth : s.thread t = .direct id c op pc) (hflow : Pc.Flow K s.mem id c op alt pc e pc')
    (hs' : Sound K (s.move K t c e (.direct id c op pc'))) (hsh : pc'.shared = true)
    (hres : ((s.move K t c e (.direct id c op pc')).mem.waiter ⟨id, 0⟩).result = .ok)
    (hset : (s.move K t c e (.direct id c op pc')).Settled ⟨id, 0⟩) :
    (s.move K t c e (.direct id c op pc')).mem.Took ⟨id, 0⟩ := by
  rw [Sys.result_move] at hres
  -- a waiter in the queue is not settled
  have henter : pc'.enrolled = true → (s.move K t c e (.direct id c op pc')).mem.Took ⟨id, 0⟩ := by
    intro henr
    exact absurd ⟨c, op.side, hs'.enrolled t id c op pc' Sys.thread_move_self henr⟩ hset.queue
  have hstay : pc.shared = true → (∀ o, (⟨id, 0⟩ : Wid) ∈ e.queueAfter (s.mem.chan c).queue o ↔
        (⟨id, 0⟩ : Wid) ∈ (s.mem.chan c).queue o) → (∀ r, e.resultAfter ⟨id, 0⟩ r = r) →
      pc.hand c op = none ∧ pc'.hand c op = none →
      (s.move K t c e (.direct id c op pc')).mem.Took ⟨id, 0⟩ := by
    intro hsh₀ hqueue hsame hhand
    rw [hsame] at hres
    refine Sys.took_move.2 (Or.inl (h.shared t id c op pc hth hsh₀ hres ⟨fun hq => ?_, fun v hv => ?_⟩))
    · exact hset.queue ((Sys.inQueue_move_of_iff hqueue).2 hq)
    · refine hset.hand v ((Sys.claimedBy_move_of_iff (fun d o => ?_) v).2 hv)
      rw [hth, Thread.hand, Thread.hand, hhand.1, hhand.2]
  have hblocks : Pc.Blocks op pc' → (s.move K t c e (.direct id c op pc')).mem.Took ⟨id, 0⟩ := by
    intro hb
    cases hb <;> cases hsh
  cases hflow with
  | serveStopBlock hstop hblock | serveEmptyBlock hqueue hblock | servePutBackBlock hblock
  | meetEmptySend hqueue hop hblock | emptyOpen hopen hblock => exact hblocks hblock
  | enrollMeet hcap | recheckMiss hp hmiss | requeue => exact henter rfl
  | expBackGone hback hmem =>
    refine hstay rfl ?_ (fun _ => rfl) ⟨rfl, rfl⟩
    exact mem_update_iff (by rw [List.erase_of_not_mem hmem])
  | @expRemove still hback hstill =>
    cases still with
    | true => cases hsh
    | false =>
      refine hstay rfl ?_ (fun _ => rfl) ⟨rfl, rfl⟩
      have hmem : (⟨id, 0⟩ : Wid) ∉ (s.mem.chan c).queue op.side := fun hmem => by
        cases hstill.2 hmem
      exact mem_update_iff (by rw [List.erase_of_not_mem hmem])
  | backSettle =>
    rw [Effect.resultAfter, if_pos rfl] at hres
    subst hres
    refine Sys.took_move.2 (Or.inl ((h.calls.running t).own _ ?_))
    rw [hth]
    exact List.mem_singleton.2 rfl
  | parkUnlock | parkExpire | parkWoken | expLock | expResult | backUnlock | reparkUnlock
  | reparkWoken => exact hstay rfl (fun _ => Iff.rfl) (fun _ => rfl) ⟨rfl, rfl⟩
  | _ => cases hsh

theorem MustInv.stub_step (h : MustInv s) (hs : Sound K s) (hstep : s.Stepped K l s') (w : Wid)
    (hsel : s'.mem.selectState w.call ≠ none) (hres : (s'.mem.waiter w).result = .ok) :
    s'.mem.Took w := by
  cases hstep with
  | @call t k hidle =>
    by_cases hw : w.call = s.next
    · simp only [Sys.startCall, if_pos hw] at hres
      cases k with
      | direct c op =>
        refine absurd (hs.calls.fresh w.call (Nat.le_of_eq hw.symm)) hsel
      | select cases timeout => cases hres
    · simp only [Sys.startCall, if_neg hw] at hres
      refine h.stub w ?_ hres
      cases k with
      | direct c op => exact hsel
      | select cases timeout =>
        simp only [Sys.startCall] at hsel
        rwa [Function.update_of_ne hw] at hsel
  | ret hdone hret => exact h.stub w hsel hres
  | @move t alt c e th hnext hacts =>
    have hsel' : s.mem.selectState w.call ≠ none := by
      intro hnone
      refine hsel ((Mem.selectState_apply K s.mem t c e w.call).trans ?_)
      rw [hnone]
      cases e with
      | claim o v =>
        rw [Effect.stateAfter]
        split <;> rfl
      | _ => rfl
    by_cases hid : (s.thread t).id? = some w.call
    · -- a select writes results of its own only when it registers
      cases hacts with
      | direct hth hact =>
        rw [hth] at hid
        cases hid
        exact absurd (hs.selectState_direct hth) hsel'
      | @select id cases timeout pc pc' c d e hth hact =>
        have hsame : (s.mem.waiter w).result = .ok := by
          rw [Sys.result_move] at hres
          rcases SelPc.result_ok_of_flow (SelPc.flow_of_act hact) hres with hsame | ⟨d, o, hhand⟩
          · exact hsame
          · rw [← hth] at hhand
            exact absurd hid (hs.hand_call_ne hhand)
        exact Sys.took_move.2 (Or.inl (h.stub w hsel' hsame))
    · cases Sys.fate hs hnext hid with
      | same hqueue hclaimed hsame =>
        exact Sys.took_move.2 (Or.inl (h.stub w hsel' (hsame.symm.trans hres)))
      | claim he hqueue hclaimed hsame =>
        exact Sys.took_move.2 (Or.inl (h.stub w hsel' (hsame.symm.trans hres)))
      | drop he hqueue hnot =>
        subst he
        exact Sys.took_move.2 (Or.inl (h.stub w hsel' hres))
      | putBack he hclaimed hqueue hsame =>
        exact Sys.took_move.2 (Or.inl (h.stub w hsel' (hsame.symm.trans hres)))
      | settle he hclaimed =>
        rw [Sys.result_move] at hres
        exact Sys.took_move.2 ((hacts.result_ok he hid hres).imp_left ((h.calls.running t).hand _))

omit [DecidableEq T] [DecidableEq C] in
theorem MustInv.init (slots : C → U32 → α) : MustInv (Sys.init slots : Sys T C α) where
  calls := Sys.Each.init slots ⟨nofun, nofun⟩
  stub _ h := absurd rfl h
  shared _ _ _ _ _ h := by cases h

theorem MustInv.step (h : MustInv s) (hs : Sound K s) (hmay : WaiterInv K s)
    (hok : Sys.When (Thread.moveOk K) s l) (hstep : s.Stepped K l s') : MustInv s' := by
  refine ⟨h.calls_step hs hmay hok hstep, h.stub_step hs hstep, ?_⟩
  intro u id c op pc hth hsh hres hset
  have hs' := hs.step hstep
  cases hstep with
  | @call t k hidle =>
    by_cases hu : u = t
    · rw [hu, Sys.thread_startCall_self] at hth
      cases k with
      | select cases timeout => cases hth
      | direct d op' =>
        have hbegins := Pc.begins_entry (K.chan d) s.next op'
        simp only [Sys.startThread, Thread.direct.injEq] at hth
        obtain ⟨-, -, -, rfl⟩ := hth
        revert hbegins hsh
        generalize Pc.entry (K.chan d) s.next op' = pc
        intro hbegins hsh
        cases hbegins <;> cases hsh
    · rw [Sys.thread_startCall_of_ne hu] at hth
      have hne : id ≠ s.next := Nat.ne_of_lt (hs.calls.id_lt u id (by rw [hth]; rfl))
      refine h.shared u id c op pc hth hsh ?_ ⟨hset.queue, ?_⟩
      · simpa only [Sys.startCall, if_neg hne] using hres
      · rintro v ⟨d, o, hv⟩
        refine hset.hand v ⟨d, o, ?_⟩
        have hvt : v ≠ t := by
          rintro rfl
          rw [hidle] at hv
          cases hv
        rwa [Sys.thread_startCall_of_ne hvt]
  | @ret t alt id' r out hdone hret =>
    by_cases hu : u = t
    · rw [hu, Sys.thread_finishCall_self] at hth
      cases hth
    · rw [Sys.thread_finishCall_of_ne hu] at hth
      refine h.shared u id c op pc hth hsh hres ⟨hset.queue, ?_⟩
      rintro v ⟨d, o, hv⟩
      refine hset.hand v ⟨d, o, ?_⟩
      have hvt : v ≠ t := by
        rintro rfl
        rw [hdone.hand] at hv
        cases hv
      rwa [Sys.thread_finishCall_of_ne hvt]
  | @move t alt d e th hnext hacts =>
    by_cases hu : u = t
    · subst hu
      rw [Sys.thread_move_self] at hth
      subst hth
      cases hacts with
      | direct hth hact => exact h.shared_own hth (Pc.flow_of_act hact) hs' hsh hres hset
    · rw [Sys.thread_move_of_ne hu] at hth
      exact h.shared_other hs hth hsh hu hnext hacts hres hset

end Step

/-! ## The winner of a select -/

/-- A select returns a case with `CHAN_OK` or `CHAN_ERR_CLOSED`, or it was not to wait forever. -/
def Ret.Fair (cases : List (Case C α)) (timeout : Int) : Ret → Prop
  | .sel (some _) e => e = .ok ∨ e = .closed
  | .sel none _ => 0 ≤ timeout ∨ cases = []
  | _ => True

/-- The places of a select that lead to its return. -/
def SelPc.Fair (cases : List (Case C α)) (timeout : Int) : SelPc C α → Prop
  | unlockAll _ (.ret r) => r.Fair cases timeout
  | ret r => r.Fair cases timeout
  | lockAll _ (.clean false) => 0 < timeout
  | clean _ false _ => 0 < timeout
  | _ => True

def Thread.Fair (_ : Sys T C α) : Thread C α → Prop
  | .select _ cases timeout pc => pc.Fair cases timeout
  | _ => True

def Call.Fair (_ : Sys T C α) (_ : Nat) (k : Call C α) (r : Ret) : Prop :=
  match k with
  | .select cases timeout => r.Fair cases timeout ∧ SelPc.RetOk cases r
  | .direct _ _ => True

section Winner

variable [DecidableEq T] [DecidableEq C] {K : Config T C} {s s' : Sys T C α} {l : Label T C α}

end Winner

end LibChan
