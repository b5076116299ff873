import LibChan.Chan.Stubs

/-!
# The waiter of a direct call

A direct call that has to wait queues its waiter and parks. From then on the waiter is queued, or
claimed by another thread, or settled. `Sys.Fate` says how one step of another thread moves it from one
to the next, and `WaiterInv` what this means for its element: a queued waiter has moved nothing, a
claimed one only what is noted in the hand, and one settled with `CHAN_ERR_CLOSED` nothing. At the other
places a direct call has moved what its place says (`Pc.mayGot`). All of this holds in every run.
-/

set_option autoImplicit false

namespace LibChan

variable {T C α : Type}

/-- Waiter `w` is in a queue. -/
def Sys.InQueue (s : Sys T C α) (w : Wid) : Prop := ∃ c o, w ∈ (s.mem.chan c).queue o

/-- Thread `t` has claimed waiter `w` and not completed it. -/
def Sys.ClaimedBy (s : Sys T C α) (t : T) (w : Wid) : Prop :=
  ∃ c o, (s.thread t).hand = some (w, .claimed c o)

/-- Waiter `w` is neither queued nor claimed. -/
structure Sys.Settled (s : Sys T C α) (w : Wid) : Prop where
  queue : ¬ s.InQueue w
  hand : ∀ t, ¬ s.ClaimedBy t w

/-- What a step of thread `u` does to a waiter of another call. -/
inductive Sys.Fate (s s' : Sys T C α) (u : T) (w : Wid) (e : Effect α) : Prop
  | same (hqueue : s'.InQueue w ↔ s.InQueue w)
      (hclaimed : ∀ t, s'.ClaimedBy t w ↔ s.ClaimedBy t w)
      (hres : (s'.mem.waiter w).result = (s.mem.waiter w).result)
  | claim {o : ChanOp} (he : e = .claim o w) (hqueue : s.InQueue w) (hclaimed : s'.ClaimedBy u w)
      (hres : (s'.mem.waiter w).result = (s.mem.waiter w).result)
  | drop {o : ChanOp} (he : e = .drop o) (hqueue : s.InQueue w) (hnot : s.mem.claimable w = false)
  | putBack {o : ChanOp} (he : e = .putBack o w) (hclaimed : s.ClaimedBy u w) (hqueue : s'.InQueue w)
      (hres : (s'.mem.waiter w).result = (s.mem.waiter w).result)
  | settle (he : (∃ r, e = .settle w r) ∨ ∃ a b x, e = .pair a b w x) (hclaimed : s.ClaimedBy u w)
      (hsettled : s'.Settled w)

section Fate

variable [DecidableEq T] [DecidableEq C] {K : Config T C} {s : Sys T C α} {t : T} {alt : Bool}
  {c : C} {e : Effect α} {th : Thread C α} {w : Wid}

theorem Sys.inQueue_move_of_iff
    (h : ∀ o, w ∈ e.queueAfter (s.mem.chan c).queue o ↔ w ∈ (s.mem.chan c).queue o) :
    (s.move K t c e th).InQueue w ↔ s.InQueue w := by
  refine exists_congr fun d => exists_congr fun o => ?_
  rw [Sys.mem_queue_move]
  by_cases hd : d = c
  · subst hd
    simp [h o]
  · simp [hd]

theorem Sys.claimedBy_move_of_iff
    (h : ∀ d o, th.hand = some (w, .claimed d o) ↔ (s.thread t).hand = some (w, .claimed d o))
    (u : T) : (s.move K t c e th).ClaimedBy u w ↔ s.ClaimedBy u w := by
  refine exists_congr fun d => exists_congr fun o => ?_
  by_cases hu : u = t
  · rw [hu, Sys.thread_move_self, h]
  · rw [Sys.thread_move_of_ne hu]

/-- A queue whose first waiter is another one loses only that one. -/
theorem mem_tail_update {q : ChanOp → List Wid} {o : ChanOp} {v : Wid} {r : List Wid}
    (hq : q o = v :: r) (hw : w ≠ v) (o' : ChanOp) :
    w ∈ Function.update q o (q o).tail o' ↔ w ∈ q o' := by
  by_cases ho : o' = o
  · subst ho
    rw [Function.update_self, hq, List.tail_cons, List.mem_cons]
    exact (or_iff_right hw).symm
  · rw [Function.update_of_ne ho]

/-- A queue changed only at another waiter. -/
theorem mem_update_iff {q : ChanOp → List Wid} {o : ChanOp} {q' : List Wid}
    (h : w ∈ q' ↔ w ∈ q o) (o' : ChanOp) : w ∈ Function.update q o q' o' ↔ w ∈ q o' := by
  by_cases ho : o' = o
  · subst ho
    rw [Function.update_self, h]
  · rw [Function.update_of_ne ho]

/-- What a step of thread `t` does to a waiter of another call. -/
theorem Sys.fate (hs : Sound K s) (hnext : (s.thread t).Next K s.mem c th e)
    (hid : (s.thread t).id? ≠ some w.call) : s.Fate (s.move K t c e th) t w e := by
  have hsame : (∀ o, w ∈ e.queueAfter (s.mem.chan c).queue o ↔ w ∈ (s.mem.chan c).queue o) →
      (∀ d o, th.hand = some (w, .claimed d o) ↔ (s.thread t).hand = some (w, .claimed d o)) →
      (∀ r, e.resultAfter w r = r) → s.Fate (s.move K t c e th) t w e :=
    fun hqueue hhand hres => .same (Sys.inQueue_move_of_iff hqueue) (Sys.claimedBy_move_of_iff hhand)
      (Sys.result_move.trans (hres _))
  -- two hands neither of which has claimed `w`
  have hnone : ∀ {a b : Option (Wid × Stage C)}, (∀ d o, a ≠ some (w, .claimed d o)) →
      (∀ d o, b ≠ some (w, .claimed d o)) →
      ∀ d o, a = some (w, .claimed d o) ↔ b = some (w, .claimed d o) :=
    fun ha hb d o => iff_of_false (ha d o) (hb d o)
  have hne : ∀ {v : Wid}, (s.thread t).id? = some v.call → w ≠ v := by
    rintro v hv rfl
    exact hid hv
  cases hnext.move with
  | quiet he hholds hhand hwaits =>
    refine hsame ?_ (fun d o => by rw [hhand]) ?_
    · intro o
      cases e <;> first | rfl | exact he.elim
    · intro r
      cases e <;> first | rfl | exact he.elim
  | self hholds hhand hhand' hwaits hown =>
    refine hsame (fun _ => Iff.rfl) (hnone ?_ ?_) fun r => if_neg (hne hown)
    · rw [hhand']
      exact nofun
    · rw [hhand]
      exact nofun
  | lock hfree hholds hhand hhand' =>
    refine hsame (fun _ => Iff.rfl) (hnone ?_ ?_) fun _ => rfl
    · rw [hhand']
      exact nofun
    · rw [hhand]
      exact nofun
  | unlock hholds hhand =>
    refine hsame (fun _ => Iff.rfl) (hnone ?_ ?_) fun _ => rfl
    · rcases hhand with ⟨-, hhand'⟩ | ⟨v, o, -, hhand'⟩
      · rw [hhand']
        exact nofun
      · rw [hhand']
        exact nofun
    · rcases hhand with ⟨hhand, -⟩ | ⟨v, o, hhand, -⟩
      · rw [hhand]
        exact nofun
      · rw [hhand]
        exact nofun
  | @claim o v q hqueue hclaim hheld hholds hhand hhand' =>
    by_cases hw : w = v
    · subst hw
      refine .claim rfl ⟨c, o, ?_⟩ ⟨c, o, ?_⟩ Sys.result_move
      · rw [hqueue]
        exact List.mem_cons_self
      · rw [Sys.thread_move_self]
        exact hhand'
    · refine hsame (mem_tail_update hqueue hw) (hnone ?_ ?_) fun _ => rfl
      · intro d o' h
        rw [hhand'] at h
        cases h
        exact hw rfl
      · rw [hhand]
        exact nofun
  | @drop o v q hqueue hclaim hheld hholds hhand =>
    by_cases hw : w = v
    · subst hw
      refine .drop rfl ⟨c, o, ?_⟩ hclaim
      rw [hqueue]
      exact List.mem_cons_self
    · exact hsame (mem_tail_update hqueue hw) (fun d o => by rw [hhand]) fun _ => rfl
  | @enter _ o v he hheld hholds hhand hhand' hown =>
    have hvw : w ∈ (s.mem.chan c).queue o ++ [v] ↔ w ∈ (s.mem.chan c).queue o := by
      rw [List.mem_append, List.mem_singleton]
      exact or_iff_left (hne hown)
    have hhands : ∀ d o', th.hand = some (w, .claimed d o') ↔
        (s.thread t).hand = some (w, .claimed d o') := by
      rw [hhand, hhand']
      exact fun _ _ => Iff.rfl
    rcases he with ⟨rfl | rfl, -⟩ | ⟨rfl, -⟩
    · exact hsame (mem_update_iff hvw) hhands fun r => if_neg (hne hown)
    · exact hsame (mem_update_iff hvw) hhands fun r => rfl
    · exact hsame (mem_update_iff hvw) hhands fun r => if_neg (hne hown)
  | @leave o v hheld hholds hhand hhand' hwait =>
    refine hsame (mem_update_iff (List.mem_erase_of_ne (hne (Thread.id_of_waits hwait)))) ?_
      fun _ => rfl
    rw [hhand, hhand']
    exact fun _ _ => Iff.rfl
  | skip hselect hheld hholds hhand hhand' =>
    refine hsame (fun _ => Iff.rfl) ?_ fun _ => rfl
    rw [hhand, hhand']
    exact fun _ _ => Iff.rfl
  | woken hth hsignaled hholds hhand hhand' =>
    refine hsame (fun _ => Iff.rfl) ?_ fun _ => rfl
    rw [hhand, hhand']
    exact fun _ _ => Iff.rfl
  | @putBack o v hheld hholds hhand hhand' =>
    by_cases hw : w = v
    · subst hw
      refine .putBack rfl ⟨c, o, hhand⟩ ⟨c, o, ?_⟩ Sys.result_move
      refine Sys.mem_queue_move.2 (Or.inl ⟨rfl, ?_⟩)
      rw [Effect.queueAfter, Function.update_self]
      exact List.mem_cons_self
    · refine hsame (mem_update_iff ?_) (hnone ?_ ?_) fun _ => rfl
      · rw [List.mem_cons]
        exact or_iff_right hw
      · rw [hhand']
        exact nofun
      · intro d o' h
        rw [hhand] at h
        cases h
        exact hw rfl
  | @settle _ o v he hheld hholds hhand hhand' =>
    have hqueue : e.queueAfter (s.mem.chan c).queue = (s.mem.chan c).queue := by
      rcases he with ⟨r, rfl⟩ | ⟨a, b, x, rfl⟩ <;> rfl
    by_cases hw : w = v
    · subst hw
      refine .settle he ⟨c, o, hhand⟩ ⟨?_, ?_⟩
      · rw [Sys.inQueue_move_of_iff fun o => by rw [hqueue]]
        rintro ⟨d, o', hd⟩
        exact (hs.queues.hand t w _ hhand).queue d o' hd
      · rintro u ⟨d, o', hu⟩
        by_cases hut : u = t
        · rw [hut, Sys.thread_move_self, hhand'] at hu
          cases hu
        · rw [Sys.thread_move_of_ne hut] at hu
          exact hut (hs.queues.hand_inj u t w w _ _ hu hhand rfl)
    · refine hsame (fun o => by rw [hqueue]) (hnone ?_ ?_) ?_
      · intro d o' h
        rw [hhand'] at h
        cases h
      · intro d o' h
        rw [hhand] at h
        cases h
        exact hw rfl
      · intro r
        rcases he with ⟨r', rfl⟩ | ⟨a, b, x, rfl⟩
        · exact if_neg hw
        · exact if_neg hw
  | @wake v st hholds hhand hstage hhand' =>
    refine hsame (fun _ => Iff.rfl) (hnone ?_ ?_) fun _ => rfl
    · rw [hhand']
      exact nofun
    · intro d o h
      rw [hhand] at h
      cases h
      rcases hstage with h | ⟨d', o', h, -⟩ <;> cases h

end Fate

/-! ## Places -/

/-- The places at which the waiter of a direct call is with others, or they are done with it. -/
def Pc.shared : Pc α → Bool
  | parkUnlock | park | expLock | expRemove | reparkUnlock | repark => true
  | expUnlock false | backUnlock | decr none => true
  | _ => false

/-- The places at which others are done with it. -/
def Pc.finished : Pc α → Bool
  | expUnlock false | backUnlock | decr none => true
  | _ => false

/-- The waiters of its own that a direct call may have moved at a place that is not shared. On an
unbuffered channel a call whose park has expired does not look whether it was still queued. -/
def Pc.mayGot (k : ChanCfg) (id : Nat) (op : Op α) : Pc α → List Wid
  | decr (some .timeout) | ret (.err .timeout) => if k.capacity = 0 then [⟨id, 0⟩] else []
  | pc => pc.got id op

/-- The waiters of a direct call that it may have moved when it returns `r`. -/
def Op.mayOf (k : ChanCfg) (id : Nat) (op : Op α) (r : Ret) : List Wid := (Pc.ret r).mayGot k id op

/-- The waiter of the direct call `id` while it is with others. -/
structure Sys.Shared (s : Sys T C α) (id : Nat) : Prop where
  idx : ∀ i, s.mem.Took ⟨id, i⟩ → i = 0
  queued : s.InQueue ⟨id, 0⟩ → ¬ s.mem.Took ⟨id, 0⟩
  claimed : ∀ t, s.ClaimedBy t ⟨id, 0⟩ → s.mem.Took ⟨id, 0⟩ → ⟨id, 0⟩ ∈ (s.thread t).handGot
  closed : s.Settled ⟨id, 0⟩ → (s.mem.waiter ⟨id, 0⟩).result = .closed → ¬ s.mem.Took ⟨id, 0⟩

/-- What a direct call may have moved at its place. -/
structure Pc.May (s : Sys T C α) (k : ChanCfg) (id : Nat) (op : Op α) (pc : Pc α) : Prop where
  value : (s.mem.waiter ⟨id, 0⟩).result = .ok ∨ (s.mem.waiter ⟨id, 0⟩).result = .closed
  shared : pc.shared = true → s.Shared id
  finished : pc.finished = true → s.Settled ⟨id, 0⟩
  own : pc.shared = false → ∀ i, s.mem.Took ⟨id, i⟩ → ⟨id, i⟩ ∈ pc.mayGot k id op

/-- What a running direct call may have moved. -/
def Thread.May (K : Config T C) (s : Sys T C α) : Thread C α → Prop
  | .direct id c op pc => pc.May s (K.chan c) id op
  | _ => True

/-- What a direct call that has returned may have moved. -/
def Call.May (K : Config T C) (s : Sys T C α) (id : Nat) (k : Call C α) (r : Ret) : Prop :=
  match k with
  | .direct c op => ∀ i, s.mem.Took ⟨id, i⟩ → ⟨id, i⟩ ∈ op.mayOf (K.chan c) id r
  | .select _ _ => True

section Places

variable {K : Config T C} {m : Mem T C α} {id : Nat} {c : C} {op : Op α} {alt : Bool}
  {pc pc' : Pc α} {e : Effect α} {w : Wid}

theorem Pc.shared_of_finished (h : pc.finished = true) : pc.shared = true := by
  cases pc with
  | expUnlock still => cases still <;> first | rfl | cases h
  | decr r => cases r <;> first | rfl | cases h
  | backUnlock => rfl
  | _ => cases h

theorem Op.gotOf_subset (k : ChanCfg) (r : Ret) : op.gotOf id r ⊆ op.mayOf k id r := by
  cases r with
  | err e =>
    cases e with
    | timeout => exact List.nil_subset _
    | _ => exact List.Subset.refl _
  | _ => exact List.Subset.refl _

/-- A finished ring operation that has moved something for a single call. -/
theorem RingPc.got_subset {p : RingPc Wid α} (hp : p.Runs (op.ringOp id)) : p.got ⊆ [⟨id, 0⟩] := by
  intro w hw
  have hmem := RingPc.mem_wids_of_got hw
  rw [hp.1] at hmem
  cases op <;> exact hmem

theorem RingPc.got_of_miss {p : RingPc Wid α} {res : RingRes α} (hp : m.access K c alt p = .inr res)
    (hres : res.moved = 0) : p.got = [] := by
  rw [(RingPc.got_of_inr hp).2, hres]
  rfl

theorem SpscPc.got_of_miss {p : SpscPc Wid α} {res : RingRes α} (hp : m.spscAccess K c p = .inr res)
    (hres : res.moved = 0) : p.got = [] := by
  rw [(SpscPc.got_of_inr hp).2, hres]
  rfl

theorem Pc.gotOf_ok (h : op.single = true) : op.gotOf id (.err .ok) = [⟨id, 0⟩] := by
  rw [Op.gotOf, if_pos h]

/-- Between places that are not shared a direct call keeps what it may have moved. -/
theorem Pc.mayGot_mono (hok : pc.Ok (K.chan c) id op) (hflow : Pc.Flow K m id c op alt pc e pc')
    (hshared : pc.shared = false) (hshared' : pc'.shared = false) :
    pc.mayGot (K.chan c) id op ⊆ pc'.mayGot (K.chan c) id op := by
  have hin : ∀ {p p' : RingPc Wid α}, m.access K c alt p = .inl p' → p.got ⊆ p'.got := by
    intro p p' hp
    rw [RingPc.got_of_inl hp]
    exact List.subset_append_left _ _
  have hhit : ∀ {p : RingPc Wid α}, op.single = true → p.Runs (op.ringOp id) →
      p.got ⊆ op.gotOf id (.err .ok) := by
    intro p hsingle hruns
    rw [gotOf_ok hsingle]
    exact RingPc.got_subset hruns
  have hmiss : ∀ {p : RingPc Wid α} {res : RingRes α} {l : List Wid},
      m.access K c alt p = .inr res → res.moved = 0 → p.got ⊆ l := by
    intro p res l hp hres
    rw [RingPc.got_of_miss hp hres]
    exact List.nil_subset _
  have hspscMiss : ∀ {p : SpscPc Wid α} {res : RingRes α} {l : List Wid},
      m.spscAccess K c p = .inr res → res.moved = 0 → p.got ⊆ l := by
    intro p res l hp hres
    rw [SpscPc.got_of_miss hp hres]
    exact List.nil_subset _
  have hsingle : ∀ {l : List Wid}, op.single = true → l ⊆ [⟨id, 0⟩] →
      l ⊆ op.gotOf id (.err .ok) := by
    intro l h hl
    rwa [gotOf_ok h]
  have hserve : ∀ (k : ServeEnd) (st st' : ServePc α),
      (serve k st).mayGot (K.chan c) id op ⊆ (serve k st').mayGot (K.chan c) id op := by
    intro k st st'
    cases k <;> exact List.Subset.refl _
  cases hflow with
  | fastIn hp => exact hin hp
  | fastHit hp hres => exact hhit hok.1 hok.2.2.2
  | fastMiss hp hres => exact hmiss hp hres
  | fastMissSlow hp hres hop => exact hmiss hp hres
  | @spscIn _ p p' hp =>
    have hgot : p.got ⊆ p'.got := by
      rw [SpscPc.got_of_inl hp]
      exact List.subset_append_left _ _
    exact hgot
  | @spscHit _ p res hp hres =>
    refine hsingle hok.1 ?_
    intro w hw
    have hmem := SpscPc.mem_wids_of_got hw
    rw [hok.2.2.2] at hmem
    cases op <;> exact hmem
  | spscMiss hp hres => exact hspscMiss hp hres
  | spscMissSlow hp hres hop => exact hspscMiss hp hres
  | burstIn hp => exact hin hp
  | @burstHit p res hp hres =>
    have hgot : p.got ⊆ op.gotOf id (.count res.moved) := by
      rw [Op.gotOf, if_pos hok.1, (RingPc.got_of_inr hp).2, hok.2.2.1]
      exact List.Subset.refl _
    exact hgot
  | burstMiss hp hres => exact hmiss hp hres
  | afterRet hcnt => exact op.gotOf_subset _ _
  | unlockRet => exact op.gotOf_subset _ _
  | slowIn hp => exact hin hp
  | slowSendHit hp hres hop => exact hhit hok.1 hok.2.2
  | slowSendMiss hp hres hop => exact hmiss hp hres
  | slowRecvHit hp hres hop => exact RingPc.got_subset hok.2.2
  | slowRecvMiss hp hres hop => exact hmiss hp hres
  | helpEmpty hqueue => exact hsingle hok.1 (List.Subset.refl _)
  | helpPutBack => exact hsingle hok.1 (List.Subset.refl _)
  | wakeRet => exact hsingle hok (List.Subset.refl _)
  | recheckIn hp => exact hin hp
  | recheckHit hp hres => exact RingPc.got_subset hok.2.2
  | recheckMiss hp hres => cases hshared'
  | unDecrSend hop => exact hsingle hok.1 (List.Subset.refl _)
  | unDecrRecv hop => exact hsingle hok.1 (List.Subset.refl _)
  | @expTimeout still hstill => exact List.nil_subset _
  | backIn hp => exact hin hp
  | backHit hp hres => exact RingPc.got_subset hok.2.2
  | backMissSend hp hres hop => exact hmiss hp hres
  | backMissRecv hp hres hop => exact hmiss hp hres
  | backSettle => cases hshared'
  | @decr r =>
    cases r with
    | none => cases hshared
    | some r =>
      cases r with
      | timeout => exact List.Subset.refl _
      | _ => exact List.nil_subset _
  | serveFirst | serveGo | serveClaim | serveDrop | serveIn | serveHit | serveMiss | serveSettle
  | serveWake => exact hserve _ _ _
  | afterServe | serveLock | serveStop | serveEmpty | servePutBack => exact List.Subset.refl _
  | meetUnlock | helpClaim | helpDrop | helpIn | helpHit | helpMiss | helpSettle | helpUnlock
  | unRemove => exact List.Subset.refl _
  | _ => exact List.nil_subset _

theorem Pc.got_subset_mayGot (k : ChanCfg) : pc.got id op ⊆ pc.mayGot k id op := by
  cases pc with
  | ret r => exact op.gotOf_subset k r
  | decr r => exact List.nil_subset _
  | _ => exact List.Subset.refl _

/-- The result of a waiter that is settled is `CHAN_OK` or `CHAN_ERR_CLOSED`. -/
theorem Pc.value_of_flow (hok : pc.Ok (K.chan c) id op) (hflow : Pc.Flow K m id c op alt pc e pc')
    {r : ChanErr} (hr : r = .ok ∨ r = .closed) :
    e.resultAfter w r = .ok ∨ e.resultAfter w r = .closed := by
  have hite : ∀ {v : Wid} {r' : ChanErr}, r' = .ok ∨ r' = .closed →
      (if w = v then r' else r) = .ok ∨ (if w = v then r' else r) = .closed := by
    intro v r' hr'
    split
    · exact hr'
    · exact hr
  cases hflow with
  | serveSettle | meetSend hop | meetRecv hop hdata | helpSettle | enrollMeet hcap
  | enrollRing hcap => exact hite (Or.inl rfl)
  | backSettle => exact hite hok.2.2
  | closeSettle => exact hite hok.2
  | _ => exact hr

end Places

/-! ## When a waiter is settled -/

section Settled

variable [DecidableEq C] {K : Config T C} {s : Sys T C α} {t : T} {id : Nat} {c : C} {op : Op α}
  {pc : Pc α}

/-- The waiter in the hands of a thread is not its own. -/
theorem Sound.hand_call_ne (hs : Sound K s) {w : Wid} {d : C} {o : ChanOp}
    (hhand : (s.thread t).hand = some (w, .claimed d o)) : (s.thread t).id? ≠ some w.call := by
  intro hid
  have hwaits := Sys.waits_of_owned hs.calls (hs.queues.claimed t w d o hhand).1 hid
  cases (Thread.hand_of_waits hwaits).symm.trans hhand

theorem Sound.selectState_direct (hs : Sound K s) (hth : s.thread t = .direct id c op pc) :
    s.mem.selectState id = none := by
  have hstate := hs.calls.state t id (by rw [hth]; rfl)
  rw [hth] at hstate
  exact Option.isNone_iff_eq_none.1 (by rw [← Option.not_isSome, hstate]; rfl)

/-- A queued or claimed waiter of a direct call belongs to a place where it waits. -/
theorem Sound.waits_of_direct (hs : Sound K s) (hth : s.thread t = .direct id c op pc) {d : C}
    {o : ChanOp} (h : s.Owned d o ⟨id, 0⟩) : d = c ∧ o = op.side ∧ pc.waits = true := by
  have hwaits := Sys.waits_of_owned hs.calls h (t := t) (by rw [hth]; rfl)
  rw [hth] at hwaits
  exact ⟨hwaits.1, hwaits.2.1, hwaits.2.2.2⟩

theorem Sound.settled_of_not_waits (hs : Sound K s) (hth : s.thread t = .direct id c op pc)
    (hpc : pc.waits = false) : s.Settled ⟨id, 0⟩ := by
  constructor
  · rintro ⟨d, o, hmem⟩
    exact Bool.eq_false_iff.1 hpc (hs.waits_of_direct hth (hs.queues.queue d o _ hmem).owned).2.2
  · rintro u ⟨d, o, hhand⟩
    exact Bool.eq_false_iff.1 hpc (hs.waits_of_direct hth (hs.queues.claimed u _ d o hhand).1).2.2

end Settled

/-! ## Steps -/

section Step

variable [DecidableEq T] [DecidableEq C] {K : Config T C} {s s' : Sys T C α} {l : Label T C α}
  {t : T} {alt : Bool} {id : Nat} {c : C} {op : Op α} {pc pc' : Pc α} {e : Effect α}

/-- What a direct call moves in one step is noted at its next place. -/
theorem Sys.took_own (hs : Sound K s) (hth : s.thread t = .direct id c op pc)
    (hacts : s.Acts K t alt c e (.direct id c op pc')) {i : Nat}
    (h : (s.move K t c e (.direct id c op pc')).mem.Took ⟨id, i⟩) :
    s.mem.Took ⟨id, i⟩ ∨ ⟨id, i⟩ ∈ pc'.got id op := by
  refine (Sys.took_move.1 h).imp_right fun hgrant => ?_
  rcases hacts.grants (hs.ok t) hgrant with ⟨-, hgot⟩ | ⟨o, hhand, -⟩
  · exact hgot
  · refine absurd ?_ (hs.hand_call_ne hhand)
    rw [hth]
    rfl

/-- A step of a direct call between places with its waiter shared leaves the waiter alone. -/
theorem Sys.Shared.own (h : s.Shared id) (hth : s.thread t = .direct id c op pc)
    (hqueue : ∀ o, (⟨id, 0⟩ : Wid) ∈ e.queueAfter (s.mem.chan c).queue o ↔
      (⟨id, 0⟩ : Wid) ∈ (s.mem.chan c).queue o)
    (hres : ∀ r, e.resultAfter ⟨id, 0⟩ r = r) (hgrants : (s.mem.chan c).grants e = [])
    (hhand : pc.hand c op = none ∧ pc'.hand c op = none) :
    (s.move K t c e (.direct id c op pc')).Shared id := by
  have htook : ∀ i, (s.move K t c e (.direct id c op pc')).mem.Took ⟨id, i⟩ → s.mem.Took ⟨id, i⟩ := by
    intro i hi
    rcases Sys.took_move.1 hi with hi | hi
    · exact hi
    · rw [hgrants] at hi
      cases hi
  have hclaimed : ∀ u, (s.move K t c e (.direct id c op pc')).ClaimedBy u ⟨id, 0⟩ ↔
      s.ClaimedBy u ⟨id, 0⟩ := by
    refine Sys.claimedBy_move_of_iff fun d o => ?_
    rw [hth, Thread.hand, Thread.hand, hhand.1, hhand.2]
  have hin : (s.move K t c e (.direct id c op pc')).InQueue ⟨id, 0⟩ ↔ s.InQueue ⟨id, 0⟩ :=
    Sys.inQueue_move_of_iff hqueue
  refine ⟨fun i hi => h.idx i (htook i hi), fun hq hi => h.queued (hin.1 hq) (htook 0 hi), ?_, ?_⟩
  · intro u hu hi
    have hgot := h.claimed u ((hclaimed u).1 hu) (htook 0 hi)
    by_cases hut : u = t
    · obtain ⟨d, o, hd⟩ := (hclaimed u).1 hu
      rw [hut, hth, Thread.hand, hhand.1] at hd
      cases hd
    · rwa [Sys.thread_move_of_ne hut]
  · intro hset hclosed hi
    refine h.closed ⟨fun hq => hset.queue (hin.2 hq), fun u hu => hset.hand u ((hclaimed u).2 hu)⟩ ?_
      (htook 0 hi)
    rw [Sys.result_move, hres] at hclosed
    exact hclosed

omit [DecidableEq T] [DecidableEq C] in
/-- A waiter that has moved nothing is queued. -/
theorem Sys.Shared.enter (hnot : ∀ i, ¬ s.mem.Took ⟨id, i⟩) (hq : s.InQueue ⟨id, 0⟩) :
    s.Shared id where
  idx i hi := absurd hi (hnot i)
  queued _ := hnot 0
  claimed _ _ hi := absurd hi (hnot 0)
  closed hset := absurd hq hset.queue

/-- A step of a direct call keeps what it may have moved. -/
theorem Pc.May.flow (h : pc.May s (K.chan c) id op) (hs : Sound K s)
    (hth : s.thread t = .direct id c op pc) (hflow : Pc.Flow K s.mem id c op alt pc e pc')
    (hacts : s.Acts K t alt c e (.direct id c op pc'))
    (hs' : Sound K (s.move K t c e (.direct id c op pc'))) :
    pc'.May (s.move K t c e (.direct id c op pc')) (K.chan c) id op := by
  have hok := hs.direct_ok hth
  have hth' : (s.move K t c e (.direct id c op pc')).thread t = .direct id c op pc' :=
    Sys.thread_move_self
  have hvalue : ((s.move K t c e (.direct id c op pc')).mem.waiter ⟨id, 0⟩).result = .ok ∨
      ((s.move K t c e (.direct id c op pc')).mem.waiter ⟨id, 0⟩).result = .closed := by
    rw [Sys.result_move]
    exact Pc.value_of_flow hok hflow h.value
  -- from one place of its own to another
  have hkeep : pc.shared = false → pc'.shared = false →
      pc'.May (s.move K t c e (.direct id c op pc')) (K.chan c) id op := by
    intro hsh hsh'
    refine ⟨hvalue, fun h => ?_, fun h => ?_, fun _ i hi => ?_⟩
    · cases hsh'.symm.trans h
    · cases hsh'.symm.trans (shared_of_finished h)
    · rcases Sys.took_own hs hth hacts hi with hi | hi
      · exact Pc.mayGot_mono hok hflow hsh hsh' (h.own hsh i hi)
      · exact Pc.got_subset_mayGot _ hi
  -- the waiter stays with others
  have hstay : pc.shared = true → pc'.shared = true →
      (∀ o, (⟨id, 0⟩ : Wid) ∈ e.queueAfter (s.mem.chan c).queue o ↔
        (⟨id, 0⟩ : Wid) ∈ (s.mem.chan c).queue o) →
      (∀ r, e.resultAfter ⟨id, 0⟩ r = r) → (s.mem.chan c).grants e = [] →
      pc.hand c op = none ∧ pc'.hand c op = none →
      (pc'.finished = true → (s.move K t c e (.direct id c op pc')).Settled ⟨id, 0⟩) →
      pc'.May (s.move K t c e (.direct id c op pc')) (K.chan c) id op := by
    intro hsh hsh' hqueue hres hgrants hhand hfin
    refine ⟨hvalue, fun _ => (h.shared hsh).own hth hqueue hres hgrants hhand, hfin, fun h => ?_⟩
    cases hsh'.symm.trans h
  -- the waiter is put into the queue
  have henter : pc.shared = false → pc.mayGot (K.chan c) id op = [] → pc'.got id op = [] →
      pc'.finished = false → (pc'.enrolled = true) →
      pc'.May (s.move K t c e (.direct id c op pc')) (K.chan c) id op := by
    intro hsh hgot hgot' hfin henr
    have hnot : ∀ i, ¬ (s.move K t c e (.direct id c op pc')).mem.Took ⟨id, i⟩ := by
      intro i hi
      rcases Sys.took_own hs hth hacts hi with hi | hi
      · have hmem := h.own hsh i hi
        rw [hgot] at hmem
        cases hmem
      · rw [hgot'] at hi
        cases hi
    refine ⟨hvalue, fun _ => .enter hnot ⟨c, op.side, ?_⟩, fun h => ?_, fun _ i hi => absurd hi (hnot i)⟩
    · exact hs'.enrolled t id c op pc' hth' henr
    · cases hfin.symm.trans h
  -- the waiter is taken back
  have hback : ∀ {q : Pc α}, pc = .expRemove → (⟨id, 0⟩ : Wid) ∈ (s.mem.chan c).queue op.side →
      pc' = q → q.shared = false → q.got id op = [] →
      pc'.May (s.move K t c e (.direct id c op pc')) (K.chan c) id op := by
    rintro q rfl hmem rfl hsh' hgot'
    refine ⟨hvalue, fun h => ?_, fun h => ?_, fun _ i hi => ?_⟩
    · cases hsh'.symm.trans h
    · cases hsh'.symm.trans (shared_of_finished h)
    · rcases Sys.took_own hs hth hacts hi with hi | hi
      · have hshared := h.shared rfl
        rw [hshared.idx i hi] at hi
        exact absurd hi (hshared.queued ⟨c, op.side, hmem⟩)
      · rw [hgot'] at hi
        cases hi
  have hblocks : pc.shared = false → Blocks op pc' →
      pc'.May (s.move K t c e (.direct id c op pc')) (K.chan c) id op := by
    intro hsh hb
    cases hb with
    | now => exact hkeep hsh rfl
    | wait => exact hkeep hsh rfl
  -- nobody touches a settled waiter
  have hsettled : ∀ {q : Pc α}, pc' = q → q.waits = false →
      (s.move K t c e (.direct id c op pc')).Settled ⟨id, 0⟩ := by
    rintro q rfl hq
    exact hs'.settled_of_not_waits hth' hq
  cases hflow with
  | serveStopBlock hstop hblock | serveEmptyBlock hqueue hblock | servePutBackBlock hblock
  | meetEmptySend hqueue hop hblock | emptyOpen hopen hblock => exact hblocks rfl hblock
  | enrollMeet hcap => exact henter rfl rfl rfl rfl rfl
  | recheckMiss hp hres => exact henter rfl (RingPc.got_of_miss hp hres) rfl rfl rfl
  | requeue => exact henter rfl rfl rfl rfl rfl
  | parkUnlock =>
    exact hstay rfl rfl (fun _ => Iff.rfl) (fun _ => rfl) rfl ⟨rfl, rfl⟩ (by rintro ⟨⟩)
  | parkExpire halt hexp =>
    exact hstay rfl rfl (fun _ => Iff.rfl) (fun _ => rfl) rfl ⟨rfl, rfl⟩ (by rintro ⟨⟩)
  | parkWoken hsig =>
    exact hstay rfl rfl (fun _ => Iff.rfl) (fun _ => rfl) rfl ⟨rfl, rfl⟩ fun _ => hsettled rfl rfl
  | expLock hfree =>
    exact hstay rfl rfl (fun _ => Iff.rfl) (fun _ => rfl) rfl ⟨rfl, rfl⟩ (by rintro ⟨⟩)
  | expBackSend hback' hmem hop => exact hback rfl hmem rfl rfl rfl
  | expBackRecv hback' hmem hop => exact hback rfl hmem rfl rfl rfl
  | expBackGone hback' hmem =>
    refine hstay rfl rfl ?_ (fun _ => rfl) rfl ⟨rfl, rfl⟩ fun _ => hsettled rfl rfl
    exact mem_update_iff (by rw [List.erase_of_not_mem hmem])
  | @expRemove still hback' hstill =>
    cases still with
    | true => exact hback rfl (hstill.1 rfl) rfl rfl rfl
    | false =>
      refine hstay rfl rfl ?_ (fun _ => rfl) rfl ⟨rfl, rfl⟩ fun _ => hsettled rfl rfl
      have hmem : (⟨id, 0⟩ : Wid) ∉ (s.mem.chan c).queue op.side := fun hmem => by
        cases hstill.2 hmem
      exact mem_update_iff (by rw [List.erase_of_not_mem hmem])
  | @expTimeout still hstill =>
    cases still with
    | true => exact hkeep rfl rfl
    | false =>
      -- only an unbuffered channel gets here without looking
      refine ⟨hvalue, by rintro ⟨⟩, by rintro ⟨⟩, fun _ i hi => ?_⟩
      rcases Sys.took_own hs hth hacts hi with hi | hi
      · have hcap : (K.chan c).capacity = 0 := hstill.resolve_right (by rintro ⟨⟩)
        rw [(h.shared rfl).idx i hi, mayGot, if_pos hcap]
        exact List.mem_singleton.2 rfl
      · cases hi
  | expResult hcap =>
    exact hstay rfl rfl (fun _ => Iff.rfl) (fun _ => rfl) rfl ⟨rfl, rfl⟩ fun _ => hsettled rfl rfl
  | @backSettle r =>
    have hset := hsettled rfl rfl
    refine ⟨hvalue, fun _ => ⟨fun i hi => ?_, fun hq => absurd hq hset.queue,
      fun u hu => absurd hu (hset.hand u), fun _ hclosed hi => ?_⟩, fun _ => hset, by rintro ⟨⟩⟩
    · rcases Sys.took_own hs hth hacts hi with hi | hi
      · have hmem := h.own rfl i hi
        cases r with
        | ok => exact congrArg Wid.idx (List.mem_singleton.1 hmem)
        | _ => cases hmem
      · cases hi
    · rw [Sys.result_move, Effect.resultAfter, if_pos rfl] at hclosed
      subst hclosed
      rcases Sys.took_own hs hth hacts hi with hi | hi
      · cases h.own rfl 0 hi
      · cases hi
  | backUnlock =>
    exact hstay rfl rfl (fun _ => Iff.rfl) (fun _ => rfl) rfl ⟨rfl, rfl⟩ fun _ => hsettled rfl rfl
  | reparkUnlock =>
    exact hstay rfl rfl (fun _ => Iff.rfl) (fun _ => rfl) rfl ⟨rfl, rfl⟩ (by rintro ⟨⟩)
  | reparkWoken hsig =>
    exact hstay rfl rfl (fun _ => Iff.rfl) (fun _ => rfl) rfl ⟨rfl, rfl⟩ fun _ => hsettled rfl rfl
  | @decr r =>
    cases r with
    | some r => exact hkeep (by cases r <;> rfl) rfl
    | none =>
      refine ⟨hvalue, by rintro ⟨⟩, by rintro ⟨⟩, fun _ i hi => ?_⟩
      have hshared := h.shared rfl
      rcases Sys.took_own hs hth hacts hi with hi | hi
      · obtain rfl := hshared.idx i hi
        rcases h.value with hres | hres
        · refine Pc.got_subset_mayGot _ ?_
          rw [Option.getD_none, hres, got, gotOf_ok hok.1]
          exact List.mem_singleton.2 rfl
        · exact absurd hi (hshared.closed (h.finished rfl) hres)
      · exact Pc.got_subset_mayGot _ hi
  | _ => exact hkeep rfl rfl

/-- A step of another thread on a waiter that is with others. -/
theorem Sys.Shared.other {u : T} (h : s.Shared id) (hs : Sound K s)
    (hth : s.thread u = .direct id c op pc) {d : C} {th : Thread C α} (hu : u ≠ t)
    (hnext : (s.thread t).Next K s.mem d th e) (hacts : s.Acts K t alt d e th) :
    (s.move K t d e th).Shared id := by
  have hid : (s.thread t).id? ≠ some id := fun hid =>
    hu (hs.calls.id_inj u t id (by rw [hth]; rfl) hid)
  have hsel := hs.selectState_direct hth
  -- what the step moves for the call, it moves for the waiter in its hands
  have htook : ∀ i, (s.move K t d e th).mem.Took ⟨id, i⟩ → s.mem.Took ⟨id, i⟩ ∨
      ∃ o, (s.thread t).hand = some (⟨id, i⟩, .claimed d o) ∧
        (⟨id, i⟩ ∈ th.handGot ∨ th.hand = some (⟨id, i⟩, .settled d o)) := by
    intro i hi
    refine (Sys.took_move.1 hi).imp_right fun hgrant => ?_
    rcases hacts.grants (hs.ok t) hgrant with ⟨hown, -⟩ | ⟨o, hhand, hnew⟩
    · exact absurd hown hid
    · exact ⟨o, hhand, hnew⟩
  have hidx : ∀ i, (s.move K t d e th).mem.Took ⟨id, i⟩ → i = 0 := by
    intro i hi
    rcases htook i hi with hi | ⟨o, hhand, -⟩
    · exact h.idx i hi
    · exact (hs.queues.hand t _ _ hhand).idx hsel
  cases Sys.fate (w := ⟨id, 0⟩) hs hnext hid with
  | same hqueue hclaimed hres =>
    refine ⟨hidx, fun hq hi => ?_, fun v hv hi => ?_, fun hset hclosed hi => ?_⟩
    · rcases htook 0 hi with hi | ⟨o, hhand, -⟩
      · exact h.queued (hqueue.1 hq) hi
      · obtain ⟨d', o', hq⟩ := hqueue.1 hq
        exact (hs.queues.hand t _ _ hhand).queue d' o' hq
    · rcases htook 0 hi with hi | ⟨o, hhand, hnew⟩
      · have hgot := h.claimed v ((hclaimed v).1 hv) hi
        by_cases hvt : v = t
        · rw [hvt] at hgot hv ⊢
          rw [Sys.thread_move_self]
          rcases hacts.handGot (hs.ok t) hgot with hgot | he
          · exact hgot
          · -- a settled waiter is claimed no longer
            obtain ⟨d', o', hv⟩ := hv
            rw [Sys.thread_move_self] at hv
            subst he
            cases hnext.move with
            | quiet he => exact he.elim
            | self _ _ hhand' => cases hhand'.symm.trans hv
            | enter he => rcases he with ⟨he | he, -⟩ | ⟨he, -⟩ <;> cases he
            | settle _ _ _ _ hhand' => cases hhand'.symm.trans hv
        · rwa [Sys.thread_move_of_ne hvt]
      · have hvt : v = t := by
          obtain ⟨d', o', hv⟩ := (hclaimed v).1 hv
          exact hs.queues.hand_inj v t _ _ _ _ hv hhand rfl
        rw [hvt] at hv ⊢
        rw [Sys.thread_move_self]
        refine hnew.resolve_right fun hsettled => ?_
        obtain ⟨d', o', hv⟩ := hv
        rw [Sys.thread_move_self] at hv
        cases hsettled.symm.trans hv
    · have hset' : s.Settled ⟨id, 0⟩ :=
        ⟨fun hq => hset.queue (hqueue.2 hq), fun v hv => hset.hand v ((hclaimed v).2 hv)⟩
      rcases htook 0 hi with hi | ⟨o, hhand, -⟩
      · exact h.closed hset' (hres.symm.trans hclosed) hi
      · exact hset'.hand t ⟨d, o, hhand⟩
  | @claim o he hqueue hclaimed hres =>
    subst he
    have hnot : ¬ (s.move K t d (.claim o ⟨id, 0⟩) th).mem.Took ⟨id, 0⟩ := fun hi =>
      (Sys.took_move.1 hi).elim (h.queued hqueue) (by rintro ⟨⟩)
    exact ⟨hidx, fun _ => hnot, fun _ _ hi => absurd hi hnot, fun hset => absurd hclaimed (hset.hand t)⟩
  | drop he hqueue hnot =>
    rw [Mem.claimable, hsel] at hnot
    cases hnot
  | @putBack o he hclaimed hqueue hres =>
    subst he
    have hnot : ¬ (s.move K t d (.putBack o ⟨id, 0⟩) th).mem.Took ⟨id, 0⟩ := by
      intro hi
      have hgot := h.claimed t hclaimed ((Sys.took_move.1 hi).resolve_right (by rintro ⟨⟩))
      rcases hacts.handGot (hs.ok t) hgot with hgot | he
      · obtain ⟨d', o', hhand⟩ := Thread.hand_of_handGot ((hs.ok t).acts hacts) hgot
        cases hnext.move with
        | quiet he => exact he.elim
        | enter he => rcases he with ⟨he | he, -⟩ | ⟨he, -⟩ <;> cases he
        | putBack _ _ _ hhand' => cases hhand'.symm.trans hhand
        | settle he => rcases he with ⟨r, he⟩ | ⟨a, b, x, he⟩ <;> cases he
      · cases he
    exact ⟨hidx, fun _ => hnot, fun _ _ hi => absurd hi hnot, fun hset => absurd hqueue hset.queue⟩
  | settle he hclaimed hset =>
    refine ⟨hidx, fun hq => absurd hq hset.queue, fun v hv => absurd hv (hset.hand v), ?_⟩
    intro _ hclosed hi
    rw [Sys.result_move] at hclosed
    rcases he with ⟨r, rfl⟩ | ⟨a, b, x, rfl⟩
    · rw [Effect.resultAfter, if_pos rfl] at hclosed
      subst hclosed
      have hgot := h.claimed t hclaimed ((Sys.took_move.1 hi).resolve_right (by rintro ⟨⟩))
      rcases hacts.handGot (hs.ok t) hgot with hgot | he
      · obtain ⟨d', o', hhand⟩ := Thread.hand_of_handGot ((hs.ok t).acts hacts) hgot
        refine hset.hand t ⟨d', o', ?_⟩
        rw [Sys.thread_move_self]
        exact hhand
      · cases he
    · rw [Effect.resultAfter, if_pos rfl] at hclosed
      cases hclosed

/-- A step of another thread keeps what a direct call may have moved. -/
theorem Pc.May.other {u : T} (h : pc.May s (K.chan c) id op) (hs : Sound K s)
    (hth : s.thread u = .direct id c op pc) {d : C} {th : Thread C α} (hu : u ≠ t)
    (hnext : (s.thread t).Next K s.mem d th e) (hacts : s.Acts K t alt d e th)
    (hs' : Sound K (s.move K t d e th)) : pc.May (s.move K t d e th) (K.chan c) id op := by
  have hid : (s.thread t).id? ≠ some id := fun hid =>
    hu (hs.calls.id_inj u t id (by rw [hth]; rfl) hid)
  have hth' : (s.move K t d e th).thread u = .direct id c op pc := by
    rw [Sys.thread_move_of_ne hu, hth]
  refine ⟨?_, fun hsh => (h.shared hsh).other hs hth hu hnext hacts, fun hfin => ?_, ?_⟩
  · rcases Sys.result_of_other (w := ⟨id, 0⟩) (hs.ok t) hnext hacts hid with hsame | ⟨-, hval⟩
    · rw [hsame]
      exact h.value
    · exact hval
  · refine hs'.settled_of_not_waits hth' ?_
    cases pc with
    | expUnlock still => rfl
    | decr r => rfl
    | backUnlock => rfl
    | _ => cases hfin
  · intro hsh i hi
    rcases Sys.took_move.1 hi with hi | hgrant
    · exact h.own hsh i hi
    · rcases hacts.grants (hs.ok t) hgrant with ⟨hown, -⟩ | ⟨o, hhand, -⟩
      · exact absurd hown hid
      · -- the waiter is still in the queue, out of the reach of others
        have hi0 := (hs.queues.hand t _ _ hhand).idx (hs.selectState_direct hth)
        simp only at hi0
        subst hi0
        have hwaits := (hs.waits_of_direct hth (hs.queues.claimed t _ _ _ hhand).1).2.2
        refine absurd ?_ ((hs.queues.hand t _ _ hhand).queue c op.side)
        refine hs.enrolled u id c op pc hth ?_
        cases pc with
        | recheck p | unRemove | parkUnlock | reparkUnlock => rfl
        | park | expLock | expRemove | repark => cases hsh
        | _ => cases hwaits

omit [DecidableEq T] [DecidableEq C] in
/-- What a direct call may have moved depends on its memory and on the hands only. -/
theorem Pc.May.congr {k : ChanCfg} (h : pc.May s k id op)
    (hres : (s'.mem.waiter ⟨id, 0⟩).result = (s.mem.waiter ⟨id, 0⟩).result)
    (htook : ∀ i, s'.mem.Took ⟨id, i⟩ ↔ s.mem.Took ⟨id, i⟩)
    (hqueue : s'.InQueue ⟨id, 0⟩ ↔ s.InQueue ⟨id, 0⟩)
    (hhand : ∀ t, (s'.thread t).hand = (s.thread t).hand ∧
      (s'.thread t).handGot = (s.thread t).handGot) : pc.May s' k id op := by
  have hclaimed : ∀ t, s'.ClaimedBy t ⟨id, 0⟩ ↔ s.ClaimedBy t ⟨id, 0⟩ := fun t => by
    rw [Sys.ClaimedBy, Sys.ClaimedBy, (hhand t).1]
  have hsettled : s'.Settled ⟨id, 0⟩ ↔ s.Settled ⟨id, 0⟩ :=
    ⟨fun h => ⟨fun hq => h.queue (hqueue.2 hq), fun t ht => h.hand t ((hclaimed t).2 ht)⟩,
      fun h => ⟨fun hq => h.queue (hqueue.1 hq), fun t ht => h.hand t ((hclaimed t).1 ht)⟩⟩
  refine ⟨by rw [hres]; exact h.value, fun hsh => ?_, fun hfin => hsettled.2 (h.finished hfin),
    fun hsh i hi => h.own hsh i ((htook i).1 hi)⟩
  have hshared := h.shared hsh
  refine ⟨fun i hi => hshared.idx i ((htook i).1 hi),
    fun hq hi => hshared.queued (hqueue.1 hq) ((htook 0).1 hi), fun t ht hi => ?_,
    fun hset hclosed hi => hshared.closed (hsettled.1 hset) (hres.symm.trans hclosed) ((htook 0).1 hi)⟩
  rw [(hhand t).2]
  exact hshared.claimed t ((hclaimed t).1 ht) ((htook 0).1 hi)

omit [DecidableEq T] in
/-- A call that has returned is in nobody's hands. -/
theorem Sound.not_granted (hs : Sound K s) (hret : s.Returned id) {d : C} {th : Thread C α}
    (hacts : s.Acts K t alt d e th) {i : Nat} : ⟨id, i⟩ ∉ (s.mem.chan d).grants e := by
  intro hgrant
  rcases hacts.grants (hs.ok t) hgrant with ⟨hown, -⟩ | ⟨o, hhand, -⟩
  · exact hs.calls.ret_ne t id hret hown
  · obtain ⟨u, hu⟩ := (hs.queues.claimed t _ _ _ hhand).1
    exact hs.calls.ret_ne u id hret (Thread.id_of_waits hu)

/-! ## Runs -/

/-- What direct calls may have moved, running and returned. -/
abbrev WaiterInv (K : Config T C) (s : Sys T C α) : Prop :=
  Sys.Each (Thread.May K) (Call.May K) s

omit [DecidableEq T] [DecidableEq C] in
theorem WaiterInv.init (slots : C → U32 → α) : WaiterInv K (Sys.init slots : Sys T C α) :=
  Sys.Each.init slots trivial

theorem WaiterInv.step (h : WaiterInv K s) (hs : Sound K s) (hsel : SelectInv s)
    (hstep : s.Stepped K l s') : WaiterInv K s' := by
  have hs' := hs.step hstep
  refine Sys.Each.step h hs.hist hstep trivial ?_ ?_ ?_ ?_ ?_
  · rintro t k - rfl
    cases k with
    | select cases timeout => trivial
    | direct c op =>
      have hnot : ∀ i, ¬ s.mem.Took ⟨s.next, i⟩ := fun i => hsel.fresh _ (Nat.le_refl _)
      refine ⟨Or.inl ?_, fun hsh => ?_, fun hfin => ?_, fun _ i hi => absurd hi (hnot i)⟩
      · simp only [Sys.startCall, if_true]
        cases op <;> rfl
      · exact ⟨fun i hi => absurd hi (hnot i), fun _ => hnot 0, fun _ _ hi => absurd hi (hnot 0),
          fun _ _ => hnot 0⟩
      · refine hs'.settled_of_not_waits Sys.thread_startCall_self ?_
        exact congrArg (fun v => v.2.2) (Pc.view_entry (c := c) (K.chan c))
  · rintro t alt c e th - hnext hacts rfl hP
    cases hacts with
    | select hth hact => trivial
    | direct hth hact =>
      rw [hth] at hP
      exact Pc.May.flow hP hs hth (Pc.flow_of_act hact) (.direct hth hact) hs'
  · intro u hu hP
    cases hth : s.thread u with
    | idle => trivial
    | select id cases timeout pc => trivial
    | direct id c op pc =>
      rw [hth] at hP
      cases hstep with
      | @call t k hidle =>
        have hne : id ≠ s.next := Nat.ne_of_lt (hs.calls.id_lt u id (by rw [hth]; rfl))
        refine Pc.May.congr hP ?_ (fun _ => Iff.rfl) Iff.rfl fun v => ?_
        · simp only [Sys.startCall, if_neg hne]
        · by_cases hv : v = t
          · have hhand := (Sys.begun_startThread K s.next k).hand
            rw [hv, Sys.thread_startCall_self, hidle, hhand]
            exact ⟨rfl, Thread.handGot_eq_nil (Thread.ok_startThread s.next k) hhand⟩
          · rw [Sys.thread_startCall_of_ne hv]
            exact ⟨rfl, rfl⟩
      | @ret t alt id' r out hdone hret =>
        refine Pc.May.congr hP rfl (fun _ => Iff.rfl) Iff.rfl fun v => ?_
        by_cases hv : v = t
        · rw [hv, Sys.thread_finishCall_self, hdone.hand, Thread.handGot_eq_nil (hs.ok t) hdone.hand]
          exact ⟨rfl, rfl⟩
        · rw [Sys.thread_finishCall_of_ne hv]
          exact ⟨rfl, rfl⟩
      | move hnext hacts => exact Pc.May.other hP hs hth hu hnext hacts hs'
  · rintro t id k r out hret hcall rfl hP
    cases hret with
    | select hth =>
      rw [hth] at hcall
      cases hcall
      trivial
    | direct hth =>
      rw [hth] at hcall hP
      cases hcall
      exact hP.own rfl
  · intro id k r out hans hR
    cases k with
    | select cases timeout => trivial
    | direct c op =>
      intro i hi
      refine hR i ?_
      cases hstep with
      | call hidle => exact hi
      | ret hdone hret => exact hi
      | @move t alt d e th hnext hacts =>
        obtain ⟨u, -, hu⟩ := hans
        exact (Sys.took_move.1 hi).resolve_right (hs.not_granted ⟨u, r, out, hu⟩ hacts)

end Step

end LibChan
