import LibChan.Chan.Calls

/-!
# Queues and hands

What holds of the waiters in every run, whatever the threads call (`QueueInv`). A waiter is in at most
one place: in one queue, and then owned by a thread that waits there, or in the hands of one thread,
which may be about to wake its owner and is the only one that can. A call that has not let go of its
waiters yet is in no one's hands.
-/

set_option autoImplicit false

namespace LibChan

variable {T C α : Type} [DecidableEq C]

section Inv

variable [DecidableEq T] {K : Config T C} {s s' : Sys T C α} {l : Label T C α}

/-! ## Queues and hands -/

/-- Some thread waits with `w` in queue `o` of channel `c`. -/
def Sys.Owned (s : Sys T C α) (c : C) (o : ChanOp) (w : Wid) : Prop :=
  ∃ t, (s.thread t).Waits c o w

/-- What is known of a waiter in a queue: it has an owner, it is not signalled unless another stub of
its select has been claimed, and a stub has no result. -/
structure Sys.Queued (s : Sys T C α) (c : C) (o : ChanOp) (w : Wid) : Prop where
  owned : s.Owned c o w
  quiet : s.mem.claimable w = true → s.mem.signaled w.call = false
  result : s.mem.selectState w.call ≠ none → (s.mem.waiter w).result = .wouldblock

/-- What is known of a waiter in someone's hands: it is in no queue, its park is not signalled, and
its select is claimed. -/
structure Sys.InHand (s : Sys T C α) (w : Wid) : Prop where
  queue : ∀ c o, w ∉ (s.mem.chan c).queue o
  quiet : s.mem.signaled w.call = false
  state : s.mem.selectState w.call ≠ some false
  lt : w.call < s.next
  idx : s.mem.selectState w.call = none → w.idx = 0

/-- Queues and hands: see `Sys.Queued` and `Sys.InHand`. Hands are apart from each other even as to
the call, and away from the calls that are still hidden. -/
structure QueueInv (s : Sys T C α) : Prop where
  signal_lt : ∀ id, s.mem.signaled id = true → id < s.next
  signal : ∀ id, s.mem.signaled id = true → s.mem.selectState id ≠ some false
  nodup : ∀ c o, ((s.mem.chan c).queue o).Nodup
  queue : ∀ c o w, w ∈ (s.mem.chan c).queue o → s.Queued c o w
  hand : ∀ t w st, (s.thread t).hand = some (w, st) → s.InHand w
  hand_inj : ∀ t t' w w' st st', (s.thread t).hand = some (w, st) →
    (s.thread t').hand = some (w', st') → w.call = w'.call → t = t'
  claimed : ∀ t w c o, (s.thread t).hand = some (w, .claimed c o) → s.Owned c o w ∧
    (s.mem.selectState w.call ≠ none → (s.mem.waiter w).result = .wouldblock)
  settled : ∀ t w c o, (s.thread t).hand = some (w, .settled c o) → s.Owned c o w
  hidden : ∀ t id, (s.thread t).Hidden → (s.thread t).id? = some id →
    s.mem.signaled id = false ∧ ∀ t' w st, (s.thread t').hand = some (w, st) → w.call ≠ id

omit [DecidableEq C] [DecidableEq T] in
theorem QueueInv.init (slots : C → U32 → α) : QueueInv (Sys.init slots : Sys T C α) where
  signal_lt _ h := by cases h
  signal _ h := by cases h
  nodup _ _ := List.nodup_nil
  queue _ _ _ h := by cases h
  hand _ _ _ h := by cases h
  hand_inj _ _ _ _ _ _ h := by cases h
  claimed _ _ _ _ h := by cases h
  settled _ _ _ _ h := by cases h
  hidden _ _ h := h.elim

/-- A step that adds nothing to the queues and hands and signals nobody. A waiter may cease to be
owned only if it is neither queued nor in the hands of someone who holds its lock. -/
structure Sys.Shrinks (s s' : Sys T C α) : Prop where
  next : s'.next = s.next
  signaled : s'.mem.signaled = s.mem.signaled
  state : s'.mem.selectState = s.mem.selectState
  queue : ∀ c o, ((s'.mem.chan c).queue o).Sublist ((s.mem.chan c).queue o)
  result : ∀ c o w, s.Owned c o w → (s'.mem.waiter w).result = (s.mem.waiter w).result
  owned : ∀ c o w, s.Owned c o w → (w ∈ (s'.mem.chan c).queue o ∨
    ∃ t st, (s.thread t).hand = some (w, st) ∧ (st = .claimed c o ∨ st = .settled c o)) →
    s'.Owned c o w
  hand : ∀ t w st, (s'.thread t).hand = some (w, st) →
    ∃ st₀, (s.thread t).hand = some (w, st₀) ∧ (st = st₀ ∨ st = .late)
  hidden : ∀ t id, (s'.thread t).Hidden → (s'.thread t).id? = some id →
    s.mem.signaled id = false ∧ ∀ t' w st, (s.thread t').hand = some (w, st) → w.call ≠ id

omit [DecidableEq C] [DecidableEq T] in
theorem QueueInv.shrink (h : QueueInv s) (hs : s.Shrinks s') : QueueInv s' where
  signal_lt id hid := by
    rw [hs.next]
    exact h.signal_lt id (hs.signaled ▸ hid)
  signal id hid := by
    rw [hs.state]
    exact h.signal id (hs.signaled ▸ hid)
  nodup c o := (h.nodup c o).sublist (hs.queue c o)
  queue c o w hw := by
    have hold := h.queue c o w ((hs.queue c o).subset hw)
    refine ⟨hs.owned c o w hold.owned (Or.inl hw), ?_, ?_⟩
    · rw [hs.signaled]
      simp only [Mem.claimable, hs.state]
      exact hold.quiet
    · rw [hs.state, hs.result c o w hold.owned]
      exact hold.result
  hand t w st hw := by
    obtain ⟨st₀, hold, -⟩ := hs.hand t w st hw
    obtain ⟨hqueue, hquiet, hstate, hlt, hidx⟩ := h.hand t w st₀ hold
    refine ⟨fun c o hmem => hqueue c o ((hs.queue c o).subset hmem), ?_, ?_, ?_, ?_⟩
    · rwa [hs.signaled]
    · rwa [hs.state]
    · rwa [hs.next]
    · rwa [hs.state]
  hand_inj t t' w w' st st' hw hw' := by
    obtain ⟨st₀, hold, -⟩ := hs.hand t w st hw
    obtain ⟨st₀', hold', -⟩ := hs.hand t' w' st' hw'
    exact h.hand_inj t t' w w' st₀ st₀' hold hold'
  claimed t w c o hw := by
    obtain ⟨st₀, hold, rfl | hlate⟩ := hs.hand t w _ hw
    · obtain ⟨howned, hresult⟩ := h.claimed t w c o hold
      refine ⟨hs.owned c o w howned (Or.inr ⟨t, _, hold, Or.inl rfl⟩), ?_⟩
      rw [hs.state, hs.result c o w howned]
      exact hresult
    · cases hlate
  settled t w c o hw := by
    obtain ⟨st₀, hold, rfl | hlate⟩ := hs.hand t w _ hw
    · exact hs.owned c o w (h.settled t w c o hold) (Or.inr ⟨t, _, hold, Or.inr rfl⟩)
    · cases hlate
  hidden t id hp hid := by
    obtain ⟨hquiet, hhand⟩ := hs.hidden t id hp hid
    refine ⟨by rwa [hs.signaled], fun t' w st hw => ?_⟩
    obtain ⟨st₀, hold, -⟩ := hs.hand t' w st hw
    exact hhand t' w st₀ hold

section Move

variable {t : T} {c : C} {e : Effect α} {th : Thread C α}

theorem Sys.owned_move_of_iff (hwaits : ∀ d o w, th.Waits d o w ↔ (s.thread t).Waits d o w)
    {d : C} {o : ChanOp} {w : Wid} : (s.move K t c e th).Owned d o w ↔ s.Owned d o w := by
  refine exists_congr fun t' => ?_
  by_cases ht : t' = t
  · rw [ht, thread_move_self]
    exact hwaits d o w
  · rw [thread_move_of_ne ht]

/-- A waiter other than the one that leaves stays owned. -/
theorem Sys.owned_move_of_sub {d' : C} {o' : ChanOp} {v : Wid}
    (hwaits : ∀ d o w, th.Waits d o w ↔
      (s.thread t).Waits d o w ∧ ¬ (d = d' ∧ o = o' ∧ w = v))
    {d : C} {o : ChanOp} {w : Wid} (h : s.Owned d o w) (hne : ¬ (d = d' ∧ o = o' ∧ w = v)) :
    (s.move K t c e th).Owned d o w := by
  obtain ⟨t', ht'⟩ := h
  refine ⟨t', ?_⟩
  by_cases ht : t' = t
  · rw [ht, thread_move_self]
    exact (hwaits d o w).2 ⟨ht ▸ ht', hne⟩
  · rwa [thread_move_of_ne ht]

/-- The hands after a move are those before it, apart from the thread's own. -/
theorem Sys.hand_move {t' : T} {x : Option (Wid × Stage C)}
    (h : ((s.move K t c e th).thread t').hand = x) :
    t' = t ∧ th.hand = x ∨ t' ≠ t ∧ (s.thread t').hand = x := by
  by_cases ht : t' = t
  · rw [ht, thread_move_self] at h
    exact Or.inl ⟨ht, h⟩
  · rw [thread_move_of_ne ht] at h
    exact Or.inr ⟨ht, h⟩

omit [DecidableEq C] [DecidableEq T] in
/-- A waiter whose owner is known belongs to that thread. -/
theorem Sys.waits_of_owned (hc : CallInv s) {d : C} {o : ChanOp} {w : Wid} (h : s.Owned d o w)
    (hid : (s.thread t).id? = some w.call) : (s.thread t).Waits d o w := by
  obtain ⟨t', ht'⟩ := h
  rwa [hc.id_inj t t' w.call hid (Thread.id_of_waits ht')]

omit [DecidableEq C] [DecidableEq T] in
/-- A direct call has one waiter. -/
theorem Sys.idx_of_owned (hc : CallInv s) {d : C} {o : ChanOp} {w : Wid} (h : s.Owned d o w)
    (hstate : s.mem.selectState w.call = none) : w.idx = 0 := by
  obtain ⟨t', ht'⟩ := h
  refine Thread.idx_of_waits ?_ ht'
  rw [← hc.state t' w.call (Thread.id_of_waits ht'), hstate]
  rfl

omit [DecidableEq C] [DecidableEq T] in
/-- The queue of a waiter is the one its owner waits in. -/
theorem Sys.owned_unique (hc : CallInv s) {d d' : C} {o o' : ChanOp} {w : Wid}
    (h : s.Owned d o w) (h' : s.Owned d' o' w) : d = d' ∧ o = o' := by
  obtain ⟨t', ht'⟩ := h
  exact Thread.waits_unique ht' (Sys.waits_of_owned hc h' (Thread.id_of_waits ht'))

omit [DecidableEq C] [DecidableEq T] in
/-- A claimable waiter in a queue shares its call with no hand. -/
theorem QueueInv.call_ne_hand (h : QueueInv s) (hc : CallInv s) {t' : T} {d : C} {o : ChanOp}
    {w w' : Wid} {st : Stage C} (hw : w ∈ (s.mem.chan d).queue o) (hclaim : s.mem.claimable w = true)
    (hw' : (s.thread t').hand = some (w', st)) : w.call ≠ w'.call := by
  intro hcall
  have hin := h.hand t' w' st hw'
  have hstate : s.mem.selectState w.call = none := by
    have hnot := hin.state
    rw [← hcall] at hnot
    rw [Mem.claimable] at hclaim
    cases hs : s.mem.selectState w.call with
    | none => rfl
    | some b =>
      rw [hs] at hclaim hnot
      cases b with
      | false => exact absurd rfl hnot
      | true => cases hclaim
  have hww : w = w' := Wid.ext hcall
    ((Sys.idx_of_owned hc (h.queue d o w hw).owned hstate).trans (hin.idx (hcall ▸ hstate)).symm)
  exact hin.queue d o (hww ▸ hw)

/-- A call that is hidden after a move was hidden before it, unless the move takes a direct waiter
out of its queue. -/
theorem QueueInv.hidden_move (h : QueueInv s) (hc : CallInv s)
    (hnext : (s.thread t).Next K s.mem c th e) (t' : T) (id : Nat)
    (hp : ((s.move K t c e th).thread t').Hidden)
    (hid : ((s.move K t c e th).thread t').id? = some id) :
    s.mem.signaled id = false ∧ ∀ t' w st, (s.thread t').hand = some (w, st) → w.call ≠ id := by
  by_cases ht : t' = t
  · rw [ht, Sys.thread_move_self] at hp hid
    rw [hnext.id] at hid
    rcases hnext.hidden hp with hold | ⟨o, w, hwaits, -, hmem, hsel⟩
    · exact h.hidden t id hold hid
    · -- the waiter was queued, so it is in no one's hands
      have hcall : w.call = id := Option.some.inj ((Thread.id_of_waits hwaits).symm.trans hid)
      have hstate : s.mem.selectState w.call = none := by
        rw [← Option.isNone_iff_eq_none, ← Option.not_isSome, hc.state t w.call (hcall ▸ hid), hsel]
        rfl
      have hclaim : s.mem.claimable w = true := by
        rw [Mem.claimable, hstate]
        rfl
      refine ⟨hcall ▸ (h.queue c o w hmem).quiet hclaim, fun t'' w' st hw heq => ?_⟩
      have hin := h.hand t'' w' st hw
      have hidx : w'.idx = w.idx :=
        (hin.idx (by rw [heq, ← hcall, hstate])).trans (Thread.idx_of_waits hsel hwaits).symm
      exact hin.queue c o (Wid.ext (heq.trans hcall.symm) hidx ▸ hmem)
  · rw [Sys.thread_move_of_ne ht] at hp hid
    exact h.hidden t' id hp hid

/-- A move whose effect touches no park and no select state, only shrinks queues and writes no result
of an owned waiter. -/
theorem Sys.Shrinks.of_move (h : QueueInv s) (hc : CallInv s)
    (hnext : (s.thread t).Next K s.mem c th e)
    (hsig : ∀ id b, e.signalAfter id b = b) (hst : ∀ id st, e.stateAfter id st = st)
    (hqueue : ∀ o, (e.queueAfter (s.mem.chan c).queue o).Sublist ((s.mem.chan c).queue o))
    (hres : ∀ d o w, s.Owned d o w →
      e.resultAfter w (s.mem.waiter w).result = (s.mem.waiter w).result)
    (howned : ∀ d o w, s.Owned d o w → (w ∈ ((s.move K t c e th).mem.chan d).queue o ∨
      ∃ t' st, (s.thread t').hand = some (w, st) ∧ (st = .claimed d o ∨ st = .settled d o)) →
      (s.move K t c e th).Owned d o w)
    (hhand : ∀ w st, th.hand = some (w, st) →
      ∃ st₀, (s.thread t).hand = some (w, st₀) ∧ (st = st₀ ∨ st = .late)) :
    s.Shrinks (s.move K t c e th) where
  next := rfl
  signaled := by
    funext id
    exact (Mem.signaled_apply K s.mem t c e id).trans (hsig id _)
  state := by
    funext id
    exact (Mem.selectState_apply K s.mem t c e id).trans (hst id _)
  queue d o := by
    have heq := congrFun (Mem.queue_apply K s.mem t c e d) o
    rw [Sys.move, heq]
    by_cases hd : d = c
    · rw [if_pos hd, hd]
      exact hqueue o
    · rw [if_neg hd]
  result d o w hw := (Mem.result_apply K s.mem t c e w).trans (hres d o w hw)
  owned := howned
  hand t' w st hw := by
    rcases Sys.hand_move hw with ⟨rfl, hmine⟩ | ⟨-, hother⟩
    · exact hhand w st hmine
    · exact ⟨st, hother, Or.inl rfl⟩
  hidden := h.hidden_move hc hnext

/-! What the queues are after the moves that change them. -/

theorem Sys.mem_queue_move {d : C} {o : ChanOp} {w : Wid} :
    w ∈ ((s.move K t c e th).mem.chan d).queue o ↔
      d = c ∧ w ∈ e.queueAfter (s.mem.chan c).queue o ∨ d ≠ c ∧ w ∈ (s.mem.chan d).queue o := by
  have heq := congrFun (Mem.queue_apply K s.mem t c e d) o
  rw [Sys.move, heq]
  by_cases hd : d = c
  · subst hd
    simp
  · simp [hd]

/-- Only one queue changes in a step. -/
theorem QueueInv.nodup_move (h : QueueInv s) {o : ChanOp} {q : List Wid} (hq : q.Nodup)
    (he : e.queueAfter (s.mem.chan c).queue = Function.update (s.mem.chan c).queue o q)
    (d : C) (o' : ChanOp) : (((s.move K t c e th).mem.chan d).queue o').Nodup := by
  have heq := congrFun (Mem.queue_apply K s.mem t c e d) o'
  rw [Sys.move, heq]
  by_cases hd : d = c
  · subst hd
    rw [if_pos rfl, he]
    by_cases ho : o' = o
    · rw [ho, Function.update_self]
      exact hq
    · rw [Function.update_of_ne ho]
      exact h.nodup d o'
  · rw [if_neg hd]
    exact h.nodup d o'

/-- One waiter is taken out of a queue. -/
theorem QueueInv.mem_queue_erase (h : QueueInv s) {o o' : ChanOp} {d : C} {v w : Wid}
    (he : e.queueAfter (s.mem.chan c).queue =
      Function.update (s.mem.chan c).queue o (((s.mem.chan c).queue o).erase v)) :
    w ∈ ((s.move K t c e th).mem.chan d).queue o' ↔
      w ∈ (s.mem.chan d).queue o' ∧ ¬ (d = c ∧ o' = o ∧ w = v) := by
  rw [Sys.mem_queue_move, he]
  by_cases hd : d = c
  · subst hd
    by_cases ho : o' = o
    · subst ho
      simp [(h.nodup d o').mem_erase_iff, and_comm]
    · simp [ho]
  · simp [hd]

/-- One waiter is put into a queue. -/
theorem Sys.mem_queue_insert {o o' : ChanOp} {d : C} {v w : Wid}
    (he : ∀ o' w, w ∈ e.queueAfter (s.mem.chan c).queue o' ↔
      w ∈ (s.mem.chan c).queue o' ∨ o' = o ∧ w = v) :
    w ∈ ((s.move K t c e th).mem.chan d).queue o' ↔
      w ∈ (s.mem.chan d).queue o' ∨ d = c ∧ o' = o ∧ w = v := by
  rw [Sys.mem_queue_move, he]
  by_cases hd : d = c
  · subst hd
    simp
  · simp [hd]

/-- A waiter is claimed. -/
theorem QueueInv.claim (h : QueueInv s) (hc : CallInv s) (hl : LockInv K s) {o : ChanOp} {w : Wid}
    {q : List Wid} (hnext : (s.thread t).Next K s.mem c th (.claim o w))
    (hqueue : (s.mem.chan c).queue o = w :: q) (hclaim : s.mem.claimable w = true)
    (hheld : c ∈ (s.thread t).holds K) (hhand' : th.hand = some (w, .claimed c o))
    (hwaits : ∀ d o w, th.Waits d o w ↔ (s.thread t).Waits d o w) :
    QueueInv (s.move K t c (.claim o w) th) := by
  have hmem : w ∈ (s.mem.chan c).queue o := by
    rw [hqueue]
    exact List.mem_cons_self
  have hold := h.queue c o w hmem
  obtain ⟨t₀, ht₀⟩ := hold.owned
  have herase : (.claim o w : Effect α).queueAfter (s.mem.chan c).queue =
      Function.update (s.mem.chan c).queue o (((s.mem.chan c).queue o).erase w) := by
    rw [Effect.queueAfter, hqueue, List.tail_cons, List.erase_cons_head]
  have hstate : ∀ id, (s.move K t c (.claim o w) th).mem.selectState id =
      if id = w.call then (s.mem.selectState id).map fun _ => true else s.mem.selectState id :=
    Mem.selectState_apply K s.mem t c (.claim o w)
  have hresult : ∀ w', ((s.move K t c (.claim o w) th).mem.waiter w').result =
      (s.mem.waiter w').result :=
    Mem.result_apply K s.mem t c (.claim o w)
  have hmem_iff : ∀ d o' w', w' ∈ ((s.move K t c (.claim o w) th).mem.chan d).queue o' ↔
      w' ∈ (s.mem.chan d).queue o' ∧ ¬ (d = c ∧ o' = o ∧ w' = w) :=
    fun _ _ _ => h.mem_queue_erase herase
  have hnone : ∀ id, (s.move K t c (.claim o w) th).mem.selectState id = none ↔
      s.mem.selectState id = none := by
    intro id
    rw [hstate]
    split
    · exact Option.map_eq_none_iff
    · exact Iff.rfl
  have htrue : ∀ id, s.mem.selectState id = some true →
      (s.move K t c (.claim o w) th).mem.selectState id = some true := by
    intro id hid
    rw [hstate, hid]
    split <;> rfl
  have hfalse : ∀ id, s.mem.selectState id ≠ some false →
      (s.move K t c (.claim o w) th).mem.selectState id ≠ some false := by
    intro id hid
    rw [hstate]
    split
    · cases s.mem.selectState id <;> simp
    · exact hid
  have howned : ∀ d o' w', s.Owned d o' w' → (s.move K t c (.claim o w) th).Owned d o' w' :=
    fun d o' w' => (Sys.owned_move_of_iff hwaits).2
  -- the new hand shares its call with no other
  have hinj : ∀ t' w' st, t' ≠ t → (s.thread t').hand = some (w', st) → w.call ≠ w'.call :=
    fun t' w' st _ hw' => h.call_ne_hand hc hmem hclaim hw'
  refine ⟨h.signal_lt, fun id hid => hfalse id (h.signal id hid),
    h.nodup_move ((h.nodup c o).erase w) herase, ?_, ?_, ?_, ?_, ?_, ?_⟩
  · intro d o' w' hw'
    obtain ⟨howned', hquiet, hres⟩ := h.queue d o' w' ((hmem_iff d o' w').1 hw').1
    refine ⟨howned d o' w' howned', fun hcl => hquiet ?_, fun hne => ?_⟩
    · rw [Mem.claimable, bne_iff_ne] at hcl ⊢
      exact fun heq => hcl (htrue _ heq)
    · rw [hresult]
      exact hres fun heq => hne ((hnone _).2 heq)
  · intro t' w' st hw'
    rcases Sys.hand_move hw' with ⟨-, hmine⟩ | ⟨-, hother⟩
    · cases hhand'.symm.trans hmine
      refine ⟨fun d o' hw => ?_, hold.quiet hclaim, ?_, hc.id_lt t₀ _ (Thread.id_of_waits ht₀),
        fun heq => Sys.idx_of_owned hc hold.owned ((hnone _).1 heq)⟩
      · obtain ⟨hwq, hne⟩ := (hmem_iff d o' w).1 hw
        obtain ⟨rfl, rfl⟩ := Sys.owned_unique hc (h.queue d o' w hwq).owned hold.owned
        exact hne ⟨rfl, rfl, rfl⟩
      · rw [hstate, if_pos rfl]
        cases s.mem.selectState w.call <;> simp
    · obtain ⟨hqueue', hquiet, hst, hlt, hidx⟩ := h.hand t' w' st hother
      exact ⟨fun d o' hw => hqueue' d o' ((hmem_iff d o' w').1 hw).1, hquiet, hfalse _ hst, hlt,
        fun heq => hidx ((hnone _).1 heq)⟩
  · intro t₁ t₂ w₁ w₂ st₁ st₂ h₁ h₂ hcall
    rcases Sys.hand_move h₁ with ⟨rfl, hmine₁⟩ | ⟨hne₁, hother₁⟩ <;>
      rcases Sys.hand_move h₂ with ⟨rfl, hmine₂⟩ | ⟨hne₂, hother₂⟩
    · rfl
    · cases hhand'.symm.trans hmine₁
      exact absurd hcall (hinj t₂ w₂ st₂ hne₂ hother₂)
    · cases hhand'.symm.trans hmine₂
      exact absurd hcall.symm (hinj t₁ w₁ st₁ hne₁ hother₁)
    · exact h.hand_inj t₁ t₂ w₁ w₂ st₁ st₂ hother₁ hother₂ hcall
  · intro t' w' d o' hw'
    rw [hresult]
    rcases Sys.hand_move hw' with ⟨-, hmine⟩ | ⟨-, hother⟩
    · cases hhand'.symm.trans hmine
      exact ⟨howned c o w hold.owned, fun hne => hold.result fun heq => hne ((hnone _).2 heq)⟩
    · obtain ⟨howned', hres⟩ := h.claimed t' w' d o' hother
      exact ⟨howned d o' w' howned', fun hne => hres fun heq => hne ((hnone _).2 heq)⟩
  · intro t' w' d o' hw'
    rcases Sys.hand_move hw' with ⟨-, hmine⟩ | ⟨-, hother⟩
    · cases hhand'.symm.trans hmine
    · exact howned d o' w' (h.settled t' w' d o' hother)
  · intro t' id hp hid
    obtain ⟨hquiet, hhands⟩ := h.hidden_move hc hnext t' id hp hid
    refine ⟨hquiet, fun t'' w' st hw' => ?_⟩
    rcases Sys.hand_move hw' with ⟨-, hmine⟩ | ⟨-, hother⟩
    · cases hhand'.symm.trans hmine
      intro hcall
      -- the owner of `w` would be hidden and hold the lock that this thread holds
      have hwaits' : ((s.move K t c (.claim o w) th).thread t').Waits c o w := by
        have hinv := hc.move hnext
        exact Sys.waits_of_owned hinv (howned c o w hold.owned) (hid.trans (by rw [hcall]))
      have hholds : c ∈ ((s.move K t c (.claim o w) th).thread t').holds K :=
        Thread.holds_of_hidden hp hwaits'
      have htt : t' = t := by
        by_contra hne
        rw [Sys.thread_move_of_ne hne] at hholds
        exact hne (hl.holds_inj hholds hheld)
      rw [htt, Sys.thread_move_self] at hwaits'
      rw [Thread.hand_of_waits hwaits'] at hhand'
      cases hhand'
    · exact hhands t'' w' st hother

/-- A waiter is queued by its owner. -/
theorem QueueInv.enter (h : QueueInv s) (hc : CallInv s) {o : ChanOp} {w : Wid}
    (hnext : (s.thread t).Next K s.mem c th e)
    (he : (e = .enroll o w ∨ e = .requeue o w) ∧ (s.thread t).isSelect = false ∨
      e = .stub o w ∧ (s.thread t).isSelect = true)
    (hhand' : th.hand = none) (hown : (s.thread t).id? = some w.call)
    (hhidden : (s.thread t).Hidden) (hnew : ¬ (s.thread t).Waits c o w)
    (hwaits : ∀ d o' w', th.Waits d o' w' ↔ (s.thread t).Waits d o' w' ∨ d = c ∧ o' = o ∧ w' = w) :
    QueueInv (s.move K t c e th) := by
  have hsig : (s.move K t c e th).mem.signaled = s.mem.signaled := by
    funext id
    refine (Mem.signaled_apply K s.mem t c e id).trans ?_
    rcases he with ⟨rfl | rfl, -⟩ | ⟨rfl, -⟩ <;> rfl
  have hst : (s.move K t c e th).mem.selectState = s.mem.selectState := by
    funext id
    refine (Mem.selectState_apply K s.mem t c e id).trans ?_
    rcases he with ⟨rfl | rfl, -⟩ | ⟨rfl, -⟩ <;> rfl
  have hres : ∀ w', w' ≠ w → ((s.move K t c e th).mem.waiter w').result =
      (s.mem.waiter w').result := by
    intro w' hne
    refine (Mem.result_apply K s.mem t c e w').trans ?_
    rcases he with ⟨rfl | rfl, -⟩ | ⟨rfl, -⟩ <;> simp [Effect.resultAfter, hne]
  have happend : e.queueAfter (s.mem.chan c).queue =
      Function.update (s.mem.chan c).queue o ((s.mem.chan c).queue o ++ [w]) := by
    rcases he with ⟨rfl | rfl, -⟩ | ⟨rfl, -⟩ <;> rfl
  have hmem_iff : ∀ d o' w', w' ∈ ((s.move K t c e th).mem.chan d).queue o' ↔
      w' ∈ (s.mem.chan d).queue o' ∨ d = c ∧ o' = o ∧ w' = w := by
    intro d o' w'
    refine Sys.mem_queue_insert fun o' w' => ?_
    rw [happend]
    by_cases ho : o' = o
    · subst ho
      simp
    · simp [ho]
  have howned : ∀ d o' w', s.Owned d o' w' → (s.move K t c e th).Owned d o' w' := by
    rintro d o' w' ⟨t', ht'⟩
    refine ⟨t', ?_⟩
    by_cases ht : t' = t
    · rw [ht, Sys.thread_move_self]
      exact (hwaits d o' w').2 (Or.inl (ht ▸ ht'))
    · rwa [Sys.thread_move_of_ne ht]
  have hmine : (s.move K t c e th).Owned c o w := by
    refine ⟨t, ?_⟩
    rw [Sys.thread_move_self]
    exact (hwaits c o w).2 (Or.inr ⟨rfl, rfl, rfl⟩)
  -- before the step the waiter was in no queue
  have hfree : ∀ d o', ¬ s.Owned d o' w := by
    intro d o' hd
    obtain ⟨rfl, rfl⟩ := Sys.owned_unique (hc.move hnext) (howned d o' w hd) hmine
    exact hnew (Sys.waits_of_owned hc hd hown)
  have hne : ∀ d o' w', s.Owned d o' w' → w' ≠ w := fun d o' w' hw' heq => hfree d o' (heq ▸ hw')
  obtain ⟨hquiet, hhands⟩ := h.hidden t w.call hhidden hown
  have hother : ∀ t' w' st, ((s.move K t c e th).thread t').hand = some (w', st) →
      (s.thread t').hand = some (w', st) ∧ w' ≠ w := by
    intro t' w' st hw'
    rcases Sys.hand_move hw' with ⟨-, hmine⟩ | ⟨-, hold⟩
    · cases hhand'.symm.trans hmine
    · exact ⟨hold, fun heq => hhands t' w' st hold (by rw [heq])⟩
  have hnodup : ((s.mem.chan c).queue o ++ [w]).Nodup := by
    refine List.nodup_append.2 ⟨h.nodup c o, List.nodup_singleton w, fun a ha b hb heq => ?_⟩
    rw [List.mem_singleton.1 hb] at heq
    exact hne c o a (h.queue c o a ha).owned heq
  refine ⟨?_, ?_, h.nodup_move hnodup happend, ?_, ?_, ?_, ?_, ?_, ?_⟩
  · rw [hsig]
    exact h.signal_lt
  · rw [hsig, hst]
    exact h.signal
  · intro d o' w' hw'
    rcases (hmem_iff d o' w').1 hw' with hw' | ⟨rfl, rfl, rfl⟩
    · obtain ⟨howned', hquiet', hres'⟩ := h.queue d o' w' hw'
      refine ⟨howned d o' w' howned', ?_, ?_⟩
      · rw [hsig, Mem.claimable, hst]
        exact hquiet'
      · rw [hst, hres w' (hne d o' w' howned')]
        exact hres'
    · refine ⟨hmine, fun _ => ?_, fun hsel => ?_⟩
      · rw [hsig]
        exact hquiet
      · -- a direct waiter has no select state
        rw [hst] at hsel
        rcases he with ⟨-, hdirect⟩ | ⟨rfl, -⟩
        · have hstate := hc.state t _ hown
          rw [hdirect] at hstate
          exact absurd (Option.not_isSome_iff_eq_none.1 (Bool.eq_false_iff.1 hstate)) hsel
        · exact (Mem.result_apply K s.mem t d _ w').trans (if_pos rfl)
  · intro t' w' st hw'
    obtain ⟨hold, hww⟩ := hother t' w' st hw'
    obtain ⟨hqueue', hquiet', hstate', hlt, hidx⟩ := h.hand t' w' st hold
    refine ⟨fun d o' hw => ?_, by rwa [hsig], by rwa [hst], hlt, by rwa [hst]⟩
    rcases (hmem_iff d o' w').1 hw with hw | ⟨-, -, heq⟩
    · exact hqueue' d o' hw
    · exact hww heq
  · intro t₁ t₂ w₁ w₂ st₁ st₂ h₁ h₂
    exact h.hand_inj t₁ t₂ w₁ w₂ st₁ st₂ (hother t₁ w₁ st₁ h₁).1 (hother t₂ w₂ st₂ h₂).1
  · intro t' w' d o' hw'
    obtain ⟨hold, hww⟩ := hother t' w' _ hw'
    obtain ⟨howned', hres'⟩ := h.claimed t' w' d o' hold
    refine ⟨howned d o' w' howned', ?_⟩
    rw [hst, hres w' hww]
    exact hres'
  · intro t' w' d o' hw'
    exact howned d o' w' (h.settled t' w' d o' (hother t' w' _ hw').1)
  · intro t' id hp hid
    obtain ⟨hquiet', hhands'⟩ := h.hidden_move hc hnext t' id hp hid
    rw [hsig]
    exact ⟨hquiet', fun t'' w' st hw' => hhands' t'' w' st (hother t'' w' st hw').1⟩

/-- A claimed waiter is put back. -/
theorem QueueInv.putBack (h : QueueInv s) (hc : CallInv s) {o : ChanOp} {w : Wid}
    (hnext : (s.thread t).Next K s.mem c th (.putBack o w))
    (hhand : (s.thread t).hand = some (w, .claimed c o)) (hhand' : th.hand = none)
    (hwaits : ∀ d o w, th.Waits d o w ↔ (s.thread t).Waits d o w) :
    QueueInv (s.move K t c (.putBack o w) th) := by
  have hin := h.hand t w _ hhand
  obtain ⟨hclaimed, hres⟩ := h.claimed t w c o hhand
  have hmem_iff : ∀ d o' w', w' ∈ ((s.move K t c (.putBack o w) th).mem.chan d).queue o' ↔
      w' ∈ (s.mem.chan d).queue o' ∨ d = c ∧ o' = o ∧ w' = w := by
    intro d o' w'
    refine Sys.mem_queue_insert fun o' w' => ?_
    rw [Effect.queueAfter]
    by_cases ho : o' = o
    · subst ho
      simp [or_comm]
    · simp [ho]
  have howned : ∀ d o' w', s.Owned d o' w' → (s.move K t c (.putBack o w) th).Owned d o' w' :=
    fun d o' w' => (Sys.owned_move_of_iff hwaits).2
  have hother : ∀ t' w' st, ((s.move K t c (.putBack o w) th).thread t').hand = some (w', st) →
      (s.thread t').hand = some (w', st) ∧ w' ≠ w := by
    intro t' w' st hw'
    rcases Sys.hand_move hw' with ⟨-, hmine⟩ | ⟨hne, hold⟩
    · cases hhand'.symm.trans hmine
    · exact ⟨hold, fun heq => hne (h.hand_inj t' t w' w st _ hold hhand (by rw [heq]))⟩
  refine ⟨h.signal_lt, h.signal, h.nodup_move (List.nodup_cons.2 ⟨hin.queue c o, h.nodup c o⟩) rfl,
    ?_, ?_, ?_, ?_, ?_, ?_⟩
  · intro d o' w' hw'
    rcases (hmem_iff d o' w').1 hw' with hw' | ⟨rfl, rfl, rfl⟩
    · obtain ⟨howned', hquiet', hres'⟩ := h.queue d o' w' hw'
      exact ⟨howned d o' w' howned', hquiet', hres'⟩
    · exact ⟨howned d o' w' hclaimed, fun _ => hin.quiet, hres⟩
  · intro t' w' st hw'
    obtain ⟨hold, hww⟩ := hother t' w' st hw'
    obtain ⟨hqueue', hrest⟩ := h.hand t' w' st hold
    refine ⟨fun d o' hw => ?_, by assumption, by assumption, by assumption, by assumption⟩
    rcases (hmem_iff d o' w').1 hw with hw | ⟨-, -, heq⟩
    · exact hqueue' d o' hw
    · exact hww heq
  · intro t₁ t₂ w₁ w₂ st₁ st₂ h₁ h₂
    exact h.hand_inj t₁ t₂ w₁ w₂ st₁ st₂ (hother t₁ w₁ st₁ h₁).1 (hother t₂ w₂ st₂ h₂).1
  · intro t' w' d o' hw'
    obtain ⟨howned', hres'⟩ := h.claimed t' w' d o' (hother t' w' _ hw').1
    exact ⟨howned d o' w' howned', hres'⟩
  · intro t' w' d o' hw'
    exact howned d o' w' (h.settled t' w' d o' (hother t' w' _ hw').1)
  · intro t' id hp hid
    obtain ⟨hquiet', hhands'⟩ := h.hidden_move hc hnext t' id hp hid
    exact ⟨hquiet', fun t'' w' st hw' => hhands' t'' w' st (hother t'' w' st hw').1⟩

/-- The result of a claimed waiter is written. -/
theorem QueueInv.settle (h : QueueInv s) (hc : CallInv s) {o : ChanOp} {w : Wid}
    (hnext : (s.thread t).Next K s.mem c th e)
    (he : (∃ r, e = .settle w r) ∨ ∃ a r x, e = .pair a r w x)
    (hhand : (s.thread t).hand = some (w, .claimed c o))
    (hhand' : th.hand = some (w, .settled c o))
    (hwaits : ∀ d o w, th.Waits d o w ↔ (s.thread t).Waits d o w) :
    QueueInv (s.move K t c e th) := by
  have hin := h.hand t w _ hhand
  have hsig : (s.move K t c e th).mem.signaled = s.mem.signaled := by
    funext id
    refine (Mem.signaled_apply K s.mem t c e id).trans ?_
    rcases he with ⟨r, rfl⟩ | ⟨a, r, x, rfl⟩ <;> rfl
  have hst : (s.move K t c e th).mem.selectState = s.mem.selectState := by
    funext id
    refine (Mem.selectState_apply K s.mem t c e id).trans ?_
    rcases he with ⟨r, rfl⟩ | ⟨a, r, x, rfl⟩ <;> rfl
  have hqueue : ∀ d, ((s.move K t c e th).mem.chan d).queue = (s.mem.chan d).queue := by
    intro d
    refine (Mem.queue_apply K s.mem t c e d).trans ?_
    rcases he with ⟨r, rfl⟩ | ⟨a, r, x, rfl⟩ <;> exact ite_self _
  have hres : ∀ w', w' ≠ w → ((s.move K t c e th).mem.waiter w').result =
      (s.mem.waiter w').result := by
    intro w' hne
    refine (Mem.result_apply K s.mem t c e w').trans ?_
    rcases he with ⟨r, rfl⟩ | ⟨a, r, x, rfl⟩ <;> exact if_neg hne
  have howned : ∀ d o' w', s.Owned d o' w' → (s.move K t c e th).Owned d o' w' :=
    fun d o' w' => (Sys.owned_move_of_iff hwaits).2
  have hold : ∀ t' w' st, ((s.move K t c e th).thread t').hand = some (w', st) →
      ∃ st₀, (s.thread t').hand = some (w', st₀) ∧ (t' ≠ t → st = st₀ ∧ w' ≠ w) := by
    intro t' w' st hw'
    rcases Sys.hand_move hw' with ⟨rfl, hmine⟩ | ⟨hne, hother⟩
    · cases hhand'.symm.trans hmine
      exact ⟨_, hhand, fun hne => absurd rfl hne⟩
    · refine ⟨st, hother, fun _ => ⟨rfl, fun heq => hne ?_⟩⟩
      exact h.hand_inj t' t w' w st _ hother hhand (by rw [heq])
  refine ⟨?_, ?_, ?_, ?_, ?_, ?_, ?_, ?_, ?_⟩
  · rw [hsig]
    exact h.signal_lt
  · rw [hsig, hst]
    exact h.signal
  · intro d o'
    rw [hqueue]
    exact h.nodup d o'
  · intro d o' w' hw'
    rw [hqueue] at hw'
    obtain ⟨howned', hquiet', hres'⟩ := h.queue d o' w' hw'
    refine ⟨howned d o' w' howned', ?_, ?_⟩
    · rw [hsig, Mem.claimable, hst]
      exact hquiet'
    · rw [hst, hres w' fun heq => hin.queue d o' (heq ▸ hw')]
      exact hres'
  · intro t' w' st hw'
    obtain ⟨st₀, hw₀, -⟩ := hold t' w' st hw'
    obtain ⟨hqueue', hquiet', hstate', hlt, hidx⟩ := h.hand t' w' st₀ hw₀
    refine ⟨fun d o' => ?_, by rwa [hsig], by rwa [hst], hlt, by rwa [hst]⟩
    rw [hqueue]
    exact hqueue' d o'
  · intro t₁ t₂ w₁ w₂ st₁ st₂ h₁ h₂
    obtain ⟨st₁', h₁', -⟩ := hold t₁ w₁ st₁ h₁
    obtain ⟨st₂', h₂', -⟩ := hold t₂ w₂ st₂ h₂
    exact h.hand_inj t₁ t₂ w₁ w₂ st₁' st₂' h₁' h₂'
  · intro t' w' d o' hw'
    obtain ⟨st₀, hw₀, hne⟩ := hold t' w' _ hw'
    have ht : t' ≠ t := by
      rintro rfl
      rw [Sys.thread_move_self, hhand'] at hw'
      cases hw'
    obtain ⟨rfl, hww⟩ := hne ht
    obtain ⟨howned', hres'⟩ := h.claimed t' w' d o' hw₀
    refine ⟨howned d o' w' howned', ?_⟩
    rw [hst, hres w' hww]
    exact hres'
  · intro t' w' d o' hw'
    obtain ⟨st₀, hw₀, hne⟩ := hold t' w' _ hw'
    by_cases ht : t' = t
    · rw [ht, Sys.thread_move_self, hhand'] at hw'
      cases hw'
      exact howned c o w (h.claimed t w c o hhand).1
    · obtain ⟨rfl, -⟩ := hne ht
      exact howned d o' w' (h.settled t' w' d o' hw₀)
  · intro t' id hp hid
    obtain ⟨hquiet', hhands'⟩ := h.hidden_move hc hnext t' id hp hid
    rw [hsig]
    refine ⟨hquiet', fun t'' w' st hw' => ?_⟩
    obtain ⟨st₀, hw₀, -⟩ := hold t'' w' st hw'
    exact hhands' t'' w' st₀ hw₀

/-- The owner of the waiter in hand is signalled. -/
theorem QueueInv.wake (h : QueueInv s) (hc : CallInv s) {w : Wid} {st : Stage C}
    (hnext : (s.thread t).Next K s.mem c th (.wake w))
    (hhand : (s.thread t).hand = some (w, st)) (hhand' : th.hand = none)
    (hwaits : ∀ d o w, th.Waits d o w ↔ (s.thread t).Waits d o w) :
    QueueInv (s.move K t c (.wake w) th) := by
  have hin := h.hand t w _ hhand
  have hsig : ∀ id, (s.move K t c (.wake w) th).mem.signaled id =
      if id = w.call then true else s.mem.signaled id :=
    Mem.signaled_apply K s.mem t c (.wake w)
  have hqueue : ∀ d, ((s.move K t c (.wake w) th).mem.chan d).queue = (s.mem.chan d).queue :=
    fun d => (Mem.queue_apply K s.mem t c (.wake w) d).trans (ite_self _)
  have howned : ∀ d o' w', s.Owned d o' w' → (s.move K t c (.wake w) th).Owned d o' w' :=
    fun d o' w' => (Sys.owned_move_of_iff hwaits).2
  have hother : ∀ t' w' st, ((s.move K t c (.wake w) th).thread t').hand = some (w', st) →
      (s.thread t').hand = some (w', st) ∧ w'.call ≠ w.call := by
    intro t' w' st hw'
    rcases Sys.hand_move hw' with ⟨-, hmine⟩ | ⟨hne, hold⟩
    · cases hhand'.symm.trans hmine
    · exact ⟨hold, fun heq => hne (h.hand_inj t' t w' w st _ hold hhand heq)⟩
  refine ⟨?_, ?_, ?_, ?_, ?_, ?_, ?_, ?_, ?_⟩
  · intro id hid
    rw [hsig] at hid
    split at hid
    · next heq => exact heq ▸ hin.lt
    · exact h.signal_lt id hid
  · intro id hid
    rw [hsig] at hid
    split at hid
    · next heq => exact heq ▸ hin.state
    · exact h.signal id hid
  · intro d o'
    rw [hqueue]
    exact h.nodup d o'
  · intro d o' w' hw'
    rw [hqueue] at hw'
    obtain ⟨howned', hquiet', hres'⟩ := h.queue d o' w' hw'
    refine ⟨howned d o' w' howned', fun hcl => ?_, hres'⟩
    rw [hsig, if_neg (h.call_ne_hand hc hw' hcl hhand)]
    exact hquiet' hcl
  · intro t' w' st' hw'
    obtain ⟨hold, hne⟩ := hother t' w' st' hw'
    obtain ⟨hqueue', hquiet', hrest⟩ := h.hand t' w' st' hold
    refine ⟨fun d o' => ?_, ?_, by assumption, by assumption, by assumption⟩
    · rw [hqueue]
      exact hqueue' d o'
    · rw [hsig, if_neg hne]
      exact hquiet'
  · intro t₁ t₂ w₁ w₂ st₁ st₂ h₁ h₂
    exact h.hand_inj t₁ t₂ w₁ w₂ st₁ st₂ (hother t₁ w₁ st₁ h₁).1 (hother t₂ w₂ st₂ h₂).1
  · intro t' w' d o' hw'
    obtain ⟨howned', hres'⟩ := h.claimed t' w' d o' (hother t' w' _ hw').1
    exact ⟨howned d o' w' howned', hres'⟩
  · intro t' w' d o' hw'
    exact howned d o' w' (h.settled t' w' d o' (hother t' w' _ hw').1)
  · intro t' id hp hid
    obtain ⟨hquiet', hhands'⟩ := h.hidden_move hc hnext t' id hp hid
    refine ⟨?_, fun t'' w' st' hw' => hhands' t'' w' st' (hother t'' w' st' hw').1⟩
    rw [hsig, if_neg (Ne.symm (hhands' t w st hhand))]
    exact hquiet'

/-- Every move keeps the queue invariant. -/
theorem QueueInv.move (h : QueueInv s) (hc : CallInv s) (hl : LockInv K s)
    (hnext : (s.thread t).Next K s.mem c th e) : QueueInv (s.move K t c e th) := by
  cases hnext.move with
  | quiet he hholds hhand hwaits =>
    refine h.shrink (.of_move h hc hnext ?_ ?_ ?_ ?_ ?_ ?_)
    · intro id b
      cases e <;> first | rfl | exact he.elim
    · intro id st
      cases e <;> first | rfl | exact he.elim
    · intro o
      cases e <;> first | exact List.Sublist.refl _ | exact he.elim
    · intro d o w _
      cases e <;> first | rfl | exact he.elim
    · intro d o w hw _
      exact (Sys.owned_move_of_iff hwaits).2 hw
    · intro w st hw
      exact ⟨st, hhand ▸ hw, Or.inl rfl⟩
  | @self w r hholds hhand hhand' hwaits hown hnot =>
    refine h.shrink (.of_move h hc hnext (fun _ _ => rfl) (fun _ _ => rfl)
      (fun _ => List.Sublist.refl _) ?_ ?_ ?_)
    · intro d o w' hw'
      refine if_neg fun heq => hnot d o ?_
      exact Sys.waits_of_owned hc (heq ▸ hw') hown
    · intro d o w' hw' _
      exact (Sys.owned_move_of_iff hwaits).2 hw'
    · intro w' st hw'
      cases hhand'.symm.trans hw'
  | lock hfree hholds hhand hhand' hwaits =>
    refine h.shrink (.of_move h hc hnext (fun _ _ => rfl) (fun _ _ => rfl)
      (fun _ => List.Sublist.refl _) (fun _ _ _ _ => rfl) ?_ ?_)
    · intro d o w' hw' _
      exact (Sys.owned_move_of_iff hwaits).2 hw'
    · intro w' st hw'
      cases hhand'.symm.trans hw'
  | unlock hholds hhand hwaits =>
    refine h.shrink (.of_move h hc hnext (fun _ _ => rfl) (fun _ _ => rfl)
      (fun _ => List.Sublist.refl _) (fun _ _ _ _ => rfl) ?_ ?_)
    · intro d o w' hw' _
      exact (Sys.owned_move_of_iff hwaits).2 hw'
    · intro w' st hw'
      rcases hhand with ⟨-, hhand'⟩ | ⟨w, o, hold, hhand'⟩
      · cases hhand'.symm.trans hw'
      · cases hhand'.symm.trans hw'
        exact ⟨_, hold, Or.inr rfl⟩
  | claim hqueue hclaim hheld hholds hhand hhand' hwaits =>
    exact h.claim hc hl hnext hqueue hclaim hheld hhand' hwaits
  | drop hqueue hclaim hheld hholds hhand hwaits =>
    refine h.shrink (.of_move h hc hnext (fun _ _ => rfl) (fun _ _ => rfl) ?_
      (fun _ _ _ _ => rfl) ?_ ?_)
    · intro o'
      rw [Effect.queueAfter, Function.update_apply]
      split
      · next heq => exact heq ▸ List.tail_sublist _
      · exact List.Sublist.refl _
    · intro d o w' hw' _
      exact (Sys.owned_move_of_iff hwaits).2 hw'
    · intro w' st hw'
      exact ⟨st, hhand ▸ hw', Or.inl rfl⟩
  | enter he hheld hholds hhand hhand' hown hhidden hnew hwaits =>
    exact h.enter hc hnext he hhand' hown hhidden hnew hwaits
  | @leave o w hheld hholds hhand hhand' hwait hwaits =>
    have herase : (.remove o w : Effect α).queueAfter (s.mem.chan c).queue =
        Function.update (s.mem.chan c).queue o (((s.mem.chan c).queue o).erase w) := rfl
    refine h.shrink (.of_move h hc hnext (fun _ _ => rfl) (fun _ _ => rfl) ?_
      (fun _ _ _ _ => rfl) ?_ ?_)
    · intro o'
      rw [herase, Function.update_apply]
      split
      · next heq => exact heq ▸ List.erase_sublist
      · exact List.Sublist.refl _
    · -- the leaving waiter is out of its queue, and its lock keeps it out of other hands
      rintro d o' w' hw' hplace
      refine Sys.owned_move_of_sub hwaits hw' ?_
      rintro ⟨rfl, rfl, rfl⟩
      rcases hplace with hmem | ⟨t', st, hhand₀, hst⟩
      · exact ((h.mem_queue_erase herase).1 hmem).2 ⟨rfl, rfl, rfl⟩
      · have htt := hl.holds_inj hheld (Thread.mem_holds_of_hand hhand₀ hst)
        rw [← htt, hhand] at hhand₀
        cases hhand₀
    · intro w' st hw'
      cases hhand'.symm.trans hw'
  | @skip o w hselect hheld hholds hhand hhand' hwait hresult hwaits =>
    refine h.shrink (.of_move h hc hnext (fun _ _ => rfl) (fun _ _ => rfl)
      (fun _ => List.Sublist.refl _) (fun _ _ _ _ => rfl) ?_ ?_)
    · rintro d o' w' hw' hplace
      refine Sys.owned_move_of_sub hwaits hw' ?_
      rintro ⟨rfl, rfl, rfl⟩
      rcases hplace with hmem | ⟨t', st, hhand₀, hst⟩
      · -- a queued stub has no result
        rcases Sys.mem_queue_move.1 hmem with ⟨-, hmem⟩ | ⟨hne, -⟩
        · refine hresult ((h.queue d o' w' hmem).result fun hnone => ?_)
          have hstate := hc.state t w'.call (Thread.id_of_waits hwait)
          rw [hnone, hselect] at hstate
          cases hstate
        · exact hne rfl
      · have htt := hl.holds_inj hheld (Thread.mem_holds_of_hand hhand₀ hst)
        rw [← htt, hhand] at hhand₀
        cases hhand₀
    · intro w' st hw'
      cases hhand'.symm.trans hw'
  | @woken o w id op pc hth hsignaled hholds hhand hhand' hwait hwaits =>
    refine h.shrink (.of_move h hc hnext (fun _ _ => rfl) (fun _ _ => rfl)
      (fun _ => List.Sublist.refl _) (fun _ _ _ _ => rfl) ?_ ?_)
    · rintro d o' w' hw' hplace
      refine Sys.owned_move_of_sub hwaits hw' ?_
      rintro ⟨rfl, rfl, rfl⟩
      rcases hplace with hmem | ⟨t', st, hhand₀, hst⟩
      · -- a queued direct waiter is not signalled
        rcases Sys.mem_queue_move.1 hmem with ⟨-, hmem⟩ | ⟨hne, -⟩
        · have hstate := hc.state t w'.call (Thread.id_of_waits hwait)
          rw [hth] at hstate
          have hclaim : s.mem.claimable w' = true := by
            rw [Mem.claimable, Option.not_isSome_iff_eq_none.1 (Bool.eq_false_iff.1 hstate)]
            rfl
          rw [(h.queue d o' w' hmem).quiet hclaim] at hsignaled
          cases hsignaled
        · exact hne rfl
      · rw [(h.hand t' w' st hhand₀).quiet] at hsignaled
        cases hsignaled
    · intro w' st hw'
      cases hhand'.symm.trans hw'
  | putBack hheld hholds hhand hhand' hwaits => exact h.putBack hc hnext hhand hhand' hwaits
  | settle he hheld hholds hhand hhand' hwaits =>
    exact h.settle hc hnext he hhand hhand' hwaits
  | wake hholds hhand hstage hhand' hwaits => exact h.wake hc hnext hhand hhand' hwaits

end Move

/-! ## Calls and returns -/

theorem QueueInv.startCall (h : QueueInv s) (hc : CallInv s) {t : T} {k : Call C α}
    (hidle : s.thread t = .idle) : QueueInv (s.startCall K t k) := by
  have hnew := Sys.begun_startThread K s.next k
  have hstate : ∀ id, id < s.next →
      (s.startCall K t k).mem.selectState id = s.mem.selectState id := by
    intro id hid
    cases k with
    | direct c op => rfl
    | select cases timeout => exact Function.update_of_ne (Nat.ne_of_lt hid) _ _
  have hresult : ∀ w, w.call < s.next →
      ((s.startCall K t k).mem.waiter w).result = (s.mem.waiter w).result := by
    intro w hw
    exact congrArg Waiter.result (if_neg (Nat.ne_of_lt hw))
  have howned : ∀ d o w, s.Owned d o w → (s.startCall K t k).Owned d o w := by
    rintro d o w ⟨t', ht'⟩
    refine ⟨t', ?_⟩
    by_cases ht : t' = t
    · rw [ht, hidle] at ht'
      exact ht'.elim
    · rwa [Sys.thread_startCall_of_ne ht]
  have hlt : ∀ d o w, s.Owned d o w → w.call < s.next := by
    rintro d o w ⟨t', ht'⟩
    exact hc.id_lt t' _ (Thread.id_of_waits ht')
  have hhand : ∀ t' w st, ((s.startCall K t k).thread t').hand = some (w, st) →
      (s.thread t').hand = some (w, st) := by
    intro t' w st hw
    by_cases ht : t' = t
    · rw [ht, Sys.thread_startCall_self, hnew.hand] at hw
      cases hw
    · rwa [Sys.thread_startCall_of_ne ht] at hw
  refine ⟨?_, ?_, h.nodup, ?_, ?_, ?_, ?_, ?_, ?_⟩
  · intro id hid
    exact Nat.lt_succ_of_lt (h.signal_lt id hid)
  · intro id hid
    rw [hstate id (h.signal_lt id hid)]
    exact h.signal id hid
  · intro d o w hw
    obtain ⟨howned', hquiet, hres⟩ := h.queue d o w hw
    have hw' := hlt d o w howned'
    refine ⟨howned d o w howned', ?_, ?_⟩
    · rw [Mem.claimable, hstate _ hw']
      exact hquiet
    · rw [hstate _ hw', hresult w hw']
      exact hres
  · intro t' w st hw
    obtain ⟨hqueue, hquiet, hst, hw', hidx⟩ := h.hand t' w st (hhand t' w st hw)
    refine ⟨hqueue, hquiet, ?_, Nat.lt_succ_of_lt hw', ?_⟩
    · rwa [hstate _ hw']
    · rwa [hstate _ hw']
  · intro t₁ t₂ w₁ w₂ st₁ st₂ h₁ h₂
    exact h.hand_inj t₁ t₂ w₁ w₂ st₁ st₂ (hhand t₁ w₁ st₁ h₁) (hhand t₂ w₂ st₂ h₂)
  · intro t' w d o hw
    obtain ⟨howned', hres⟩ := h.claimed t' w d o (hhand t' w _ hw)
    have hw' := hlt d o w howned'
    refine ⟨howned d o w howned', ?_⟩
    rw [hstate _ hw', hresult w hw']
    exact hres
  · intro t' w d o hw
    exact howned d o w (h.settled t' w d o (hhand t' w _ hw))
  · intro t' id hp hid
    by_cases ht : t' = t
    · rw [ht, Sys.thread_startCall_self, hnew.id] at hid
      cases hid
      refine ⟨Bool.eq_false_iff.2 fun hsig => Nat.lt_irrefl _ (h.signal_lt _ hsig), ?_⟩
      intro t'' w st hw
      exact Nat.ne_of_lt (h.hand t'' w st (hhand t'' w st hw)).lt
    · rw [Sys.thread_startCall_of_ne ht] at hp hid
      obtain ⟨hquiet, hhands⟩ := h.hidden t' id hp hid
      exact ⟨hquiet, fun t'' w st hw => hhands t'' w st (hhand t'' w st hw)⟩

theorem QueueInv.finishCall (h : QueueInv s) {t : T} {id : Nat} {r : Ret}
    {out : List (Option α)} (hdone : (s.thread t).Done K id) :
    QueueInv (s.finishCall t id r out) := by
  refine h.shrink ⟨rfl, rfl, rfl, fun _ _ => List.Sublist.refl _, fun _ _ _ _ => rfl, ?_, ?_, ?_⟩
  · rintro d o w ⟨t', ht'⟩ -
    refine ⟨t', ?_⟩
    by_cases ht : t' = t
    · exact absurd (ht ▸ ht') (hdone.waits d o w)
    · rwa [Sys.thread_finishCall_of_ne ht]
  · intro t' w st hw
    by_cases ht : t' = t
    · rw [ht, Sys.thread_finishCall_self] at hw
      cases hw
    · rw [Sys.thread_finishCall_of_ne ht] at hw
      exact ⟨st, hw, Or.inl rfl⟩
  · intro t' id' hp hid
    by_cases ht : t' = t
    · rw [ht, Sys.thread_finishCall_self] at hp
      exact hp.elim
    · rw [Sys.thread_finishCall_of_ne ht] at hp hid
      exact h.hidden t' id' hp hid

/-! ## Queues under their lock -/

section Frame

variable {t t' : T} {c d : C} {e : Effect α} {th th₀ : Thread C α} {m : Mem T C α}

omit [DecidableEq T] in
/-- The queues of a channel change only under its lock. -/
theorem Move.queueAfter_of_not_held (h : Move K m c th₀ th e) (hc : c ∉ th₀.holds K)
    (q : ChanOp → List Wid) : e.queueAfter q = q := by
  cases h with
  | quiet he => cases e <;> first | rfl | exact he.elim
  | self => rfl
  | lock => rfl
  | unlock => rfl
  | claim _ _ hheld | drop _ _ hheld | enter _ hheld | leave hheld => exact absurd hheld hc
  | skip => rfl
  | woken => rfl
  | putBack hheld => exact absurd hheld hc
  | settle he => rcases he with ⟨r, rfl⟩ | ⟨a, r, x, rfl⟩ <;> rfl
  | wake => rfl

/-- A thread that holds a lock keeps the others from the queues of the channel. -/
theorem LockInv.queue_move (hl : LockInv K s) (hnext : (s.thread t).Next K s.mem c th e)
    (ht : t' ≠ t) (hd : d ∈ (s.thread t').holds K) :
    ((s.move K t c e th).mem.chan d).queue = (s.mem.chan d).queue := by
  refine (Mem.queue_apply K s.mem t c e d).trans ?_
  split
  · next heq =>
    subst heq
    exact hnext.move.queueAfter_of_not_held (fun hc => ht (hl.holds_inj hd hc)) _
  · rfl

omit [DecidableEq T] in
/-- A waiter begins to wait when it is queued, which takes the lock. -/
theorem Move.waits_source (h : Move K m c th₀ th e) {o : ChanOp} {w : Wid} (hw : th.Waits d o w) :
    th₀.Waits d o w ∨ d = c ∧ (e = .enroll o w ∨ e = .requeue o w ∨ e = .stub o w) ∧
      c ∈ th₀.holds K := by
  cases h with
  | quiet _ _ _ hwaits | self _ _ _ hwaits | lock _ _ _ _ hwaits | unlock _ _ hwaits
  | claim _ _ _ _ _ _ hwaits | drop _ _ _ _ _ hwaits => exact Or.inl ((hwaits d o w).1 hw)
  | enter he hheld _ _ _ _ _ _ hwaits =>
    rcases (hwaits d o w).1 hw with hw | ⟨rfl, rfl, rfl⟩
    · exact Or.inl hw
    · refine Or.inr ⟨rfl, ?_, hheld⟩
      rcases he with ⟨he | he, -⟩ | ⟨he, -⟩
      · exact Or.inl he
      · exact Or.inr (Or.inl he)
      · exact Or.inr (Or.inr he)
  | leave _ _ _ _ _ hwaits | skip _ _ _ _ _ _ _ hwaits | woken _ _ _ _ _ _ hwaits =>
    exact Or.inl ((hwaits d o w).1 hw).1
  | putBack _ _ _ _ hwaits | settle _ _ _ _ _ hwaits | wake _ _ _ _ hwaits =>
    exact Or.inl ((hwaits d o w).1 hw)

omit [DecidableEq T] in
/-- What is in hand after a move was in hand before it, or it has just been claimed. -/
theorem Move.hand_source (h : Move K m c th₀ th e) {w : Wid} {st : Stage C}
    (hw : th.hand = some (w, st)) :
    (∃ st₀, th₀.hand = some (w, st₀)) ∨ ∃ o, e = .claim o w ∧ st = .claimed c o ∧
      w ∈ (m.chan c).queue o ∧ m.claimable w = true := by
  cases h with
  | quiet _ _ hhand => exact Or.inl ⟨st, hhand ▸ hw⟩
  | self _ _ hhand' => cases hhand'.symm.trans hw
  | lock _ _ _ hhand' => cases hhand'.symm.trans hw
  | unlock _ hhand =>
    rcases hhand with ⟨-, hhand'⟩ | ⟨v, o, hhand, hhand'⟩
    · cases hhand'.symm.trans hw
    · cases hhand'.symm.trans hw
      exact Or.inl ⟨_, hhand⟩
  | claim hqueue hclaim _ _ _ hhand' =>
    cases hhand'.symm.trans hw
    refine Or.inr ⟨_, rfl, rfl, ?_, hclaim⟩
    rw [hqueue]
    exact List.mem_cons_self
  | drop _ _ _ _ hhand => exact Or.inl ⟨st, hhand ▸ hw⟩
  | enter _ _ _ _ hhand' | leave _ _ _ hhand' | skip _ _ _ _ hhand' | woken _ _ _ _ hhand'
  | putBack _ _ _ hhand' => cases hhand'.symm.trans hw
  | settle _ _ _ hhand hhand' =>
    cases hhand'.symm.trans hw
    exact Or.inl ⟨_, hhand⟩
  | wake _ _ _ hhand' => cases hhand'.symm.trans hw

omit [DecidableEq T] in
/-- A thread signals the waiter it has settled. -/
theorem Move.wake_cases {w : Wid} (h : Move K m c th₀ th (.wake w)) :
    ∃ st, th₀.hand = some (w, st) ∧ ¬ ∃ d o, st = .claimed d o := by
  cases h with
  | quiet he => exact he.elim
  | enter he => rcases he with ⟨he | he, -⟩ | ⟨he, -⟩ <;> cases he
  | settle he => rcases he with ⟨r, he⟩ | ⟨a, r, x, he⟩ <;> cases he
  | wake _ hhand hstage =>
    refine ⟨_, hhand, ?_⟩
    rintro ⟨d, o, rfl⟩
    rcases hstage with hst | ⟨d', o', hst, -⟩ <;> cases hst

omit [DecidableEq T] in
/-- A thread claims a claimable waiter from a queue. -/
theorem Move.claim_cases {o : ChanOp} {w : Wid} (h : Move K m c th₀ th (.claim o w)) :
    w ∈ (m.chan c).queue o ∧ m.claimable w = true ∧ th.hand = some (w, .claimed c o) := by
  cases h with
  | quiet he => exact he.elim
  | claim hqueue hclaim _ _ _ hhand' =>
    refine ⟨?_, hclaim, hhand'⟩
    rw [hqueue]
    exact List.mem_cons_self
  | enter he => rcases he with ⟨he | he, -⟩ | ⟨he, -⟩ <;> cases he
  | settle he => rcases he with ⟨r, he⟩ | ⟨a, r, x, he⟩ <;> cases he

omit [DecidableEq T] in
/-- A thread puts back the waiter it has claimed. -/
theorem Move.hand_of_putBack {o : ChanOp} {w : Wid} (h : Move K m c th₀ th (.putBack o w)) :
    th₀.hand = some (w, .claimed c o) := by
  cases h with
  | quiet he => exact he.elim
  | enter he => rcases he with ⟨he | he, -⟩ | ⟨he, -⟩ <;> cases he
  | putBack _ _ hhand => exact hhand
  | settle he => rcases he with ⟨r, he⟩ | ⟨a, r, x, he⟩ <;> cases he

omit [DecidableEq T] in
/-- A thread removes a waiter of its own, which then waits no longer. -/
theorem Move.remove_cases {o : ChanOp} {w : Wid} (h : Move K m c th₀ th (.remove o w)) :
    th₀.Waits c o w ∧ ¬ th.Waits c o w := by
  cases h with
  | quiet he => exact he.elim
  | enter he => rcases he with ⟨he | he, -⟩ | ⟨he, -⟩ <;> cases he
  | leave _ _ _ _ hwait hwaits => exact ⟨hwait, fun hw => ((hwaits c o w).1 hw).2 ⟨rfl, rfl, rfl⟩⟩
  | settle he => rcases he with ⟨r, he⟩ | ⟨a, r, x, he⟩ <;> cases he

end Frame

/-! ## Registered waiters -/

/-- The places at which a direct call has its waiter in the queue and the lock still in hand. -/
def Pc.enrolled : Pc α → Bool
  | .recheck _ | .unRemove | .parkUnlock | .reparkUnlock => true
  | _ => false

omit [DecidableEq T] in
/-- A call is registered by queueing its waiter, and stays so without touching the queue. -/
theorem Pc.enrolled_of_act {m : Mem T C α} {id : Nat} {c : C} {op : Op α} {alt : Bool}
    {pc pc' : Pc α} {e : Effect α} (h : pc.act K m id c op alt = some (e, pc'))
    (hp : pc'.enrolled = true) :
    (e = .enroll op.side ⟨id, 0⟩ ∨ e = .requeue op.side ⟨id, 0⟩) ∨
      pc.enrolled = true ∧ ∀ q, e.queueAfter q = q := by
  have hw' : (Thread.direct id c op pc').Waits c op.side ⟨id, 0⟩ := by
    refine ⟨rfl, rfl, rfl, ?_⟩
    cases pc' <;> first | rfl | cases hp
  rcases (Move.of_act h).waits_source hw' with ⟨-, -, -, hw⟩ | ⟨-, he | he | he, -⟩
  · cases pc with
    | recheck p =>
      cases h
      exact Or.inr ⟨rfl, fun _ => rfl⟩
    | unRemove => cases h; cases hp
    | parkUnlock => cases h; cases hp
    | park =>
      simp only [Pc.act] at h
      split at h
      · obtain ⟨-, heq⟩ := Option.ite_none_right_eq_some.1 h
        cases heq
        cases hp
      · obtain ⟨-, heq⟩ := Option.ite_none_right_eq_some.1 h
        cases heq
        cases hp
    | expLock =>
      obtain ⟨-, heq⟩ := Option.ite_none_right_eq_some.1 h
      cases heq
      cases hp
    | expRemove =>
      simp only [Pc.act, Option.some.injEq, Prod.mk.injEq] at h
      obtain ⟨-, rfl⟩ := h
      split at hp
      · split at hp
        · split at hp <;> cases hp
        · cases hp
      · cases hp
    | reparkUnlock => cases h; cases hp
    | repark =>
      obtain ⟨-, heq⟩ := Option.ite_none_right_eq_some.1 h
      cases heq
      cases hp
    | _ => cases hw
  · exact Or.inl (Or.inl he)
  · exact Or.inl (Or.inr he)
  · -- a direct call registers no stubs
    subst he
    cases Move.of_act h with
    | quiet he => exact he.elim
    | enter he =>
      rcases he with ⟨he | he, -⟩ | ⟨-, hsel⟩
      · cases he
      · cases he
      · cases hsel
    | settle he => rcases he with ⟨r, he⟩ | ⟨a, r, x, he⟩ <;> cases he

/-- Between its registration and the unlock a direct waiter is in its queue. -/
def EnrollInv (s : Sys T C α) : Prop :=
  ∀ t id c op pc, s.thread t = .direct id c op pc → pc.enrolled = true →
    ⟨id, 0⟩ ∈ (s.mem.chan c).queue op.side

omit [DecidableEq C] in
theorem Pc.locked_of_enrolled {pc : Pc α} (h : pc.enrolled = true) : pc.locked = true := by
  cases pc <;> first | rfl | cases h

theorem EnrollInv.step (h : EnrollInv s) (hl : LockInv K s) (hstep : s.Stepped K l s') :
    EnrollInv s' := by
  intro t' id c op pc hth hp
  cases hstep with
  | @call t k hidle =>
    by_cases ht : t' = t
    · rw [ht, Sys.thread_startCall_self] at hth
      cases k with
      | direct d op' =>
        cases hth
        have hview : (Pc.entry (K.chan c) s.next op).view c op = (false, none, false) :=
          Pc.view_entry (K.chan c)
        have hlocked : (Pc.entry (K.chan c) s.next op).locked = false := congrArg Prod.fst hview
        rw [Pc.locked_of_enrolled hp] at hlocked
        cases hlocked
      | select cases timeout => cases hth
    · rw [Sys.thread_startCall_of_ne ht] at hth
      exact h t' id c op pc hth hp
  | @ret t alt id' r out hdone hret =>
    by_cases ht : t' = t
    · rw [ht, Sys.thread_finishCall_self] at hth
      cases hth
    · rw [Sys.thread_finishCall_of_ne ht] at hth
      exact h t' id c op pc hth hp
  | @move t alt d e th hnext hacts =>
    by_cases ht : t' = t
    · rw [ht, Sys.thread_move_self] at hth
      subst hth
      cases hacts with
      | direct hth' hact =>
        refine Sys.mem_queue_move.2 (Or.inl ⟨rfl, ?_⟩)
        rcases Pc.enrolled_of_act hact hp with (rfl | rfl) | ⟨hold, hsame⟩
        · simp [Effect.queueAfter]
        · simp [Effect.queueAfter]
        · rw [hsame]
          exact h t id c op _ hth' hold
    · rw [Sys.thread_move_of_ne ht] at hth
      have hheld : c ∈ (s.thread t').holds K := Sys.held_of_locked hth (Pc.locked_of_enrolled hp)
      rw [hl.queue_move hnext ht hheld]
      exact h t' id c op pc hth hp

/-! ## The invariant of every run -/

/-- Calls, locks, queues and hands together. -/
structure SysInv (K : Config T C) (s : Sys T C α) : Prop where
  calls : CallInv s
  locks : LockInv K s
  queues : QueueInv s
  enrolled : EnrollInv s

omit [DecidableEq T] in
theorem SysInv.init (slots : C → U32 → α) : SysInv K (Sys.init slots : Sys T C α) :=
  ⟨CallInv.init slots, LockInv.init slots, QueueInv.init slots, fun _ _ _ _ _ h => by cases h⟩

theorem SysInv.step (h : SysInv K s) (hstep : s.Stepped K l s') : SysInv K s' := by
  refine ⟨h.calls.step hstep, h.locks.step hstep, ?_, h.enrolled.step h.locks hstep⟩
  cases hstep with
  | call hidle => exact h.queues.startCall h.calls hidle
  | ret hdone => exact h.queues.finishCall hdone
  | move hnext => exact h.queues.move h.calls h.locks hnext

/-- The invariant holds in every state of every run. -/
theorem SysInv.reaches {slots : C → U32 → α} {ok : Sys T C α → Label T C α → Prop}
    (h : Reaches (Sys.step K) ok (Sys.init slots) s) : SysInv K s :=
  h.invariant (SysInv.init slots) fun _ _ _ hinv _ hstep =>
    hinv.step (Sys.step_cases hinv.locks.wf hstep)

end Inv

end LibChan
