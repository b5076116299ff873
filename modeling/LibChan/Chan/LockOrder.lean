import LibChan.Chan.Queues

/-!
# Lock order of select

`sort_order` sorts the cases by channel address, `lock_all` skips a case on the channel of the case
before it, so the locks are taken in strictly increasing address order (`SelPc.pairwise_locks`). A
thread that waits for a lock holds only locks at lower addresses, and the direct operations and
`chan_close` wait with no lock at all; hence the threads that wait for each other's locks form no cycle
(`lock_order_acyclic`).
-/

set_option autoImplicit false

namespace LibChan

/-! ## The sort -/

section SortOrder

variable {C : Type} [DecidableEq C] {addr : Nat → Nat}

/-- The reversed sorted part stays sorted when the next index is put in its place. -/
theorem pairwise_sortInsert {key : Nat} {l : List Nat}
    (h : l.Pairwise fun i j => addr j ≤ addr i) :
    (sortInsert addr key l).Pairwise fun i j => addr j ≤ addr i := by
  induction l with
  | nil => exact List.pairwise_singleton _ _
  | cons a rest ih =>
    rw [List.pairwise_cons] at h
    rw [sortInsert]
    split
    · next hlt =>
      refine List.pairwise_cons.2 ⟨fun i hi => ?_, ih h.2⟩
      rcases mem_sortInsert.1 hi with rfl | hi
      · exact Nat.le_of_lt hlt
      · exact h.1 i hi
    · next hge =>
      refine List.pairwise_cons.2 ⟨fun i hi => ?_, List.pairwise_cons.2 h⟩
      rcases List.mem_cons.1 hi with rfl | hi
      · exact Nat.le_of_not_lt hge
      · exact Nat.le_trans (h.1 i hi) (Nat.le_of_not_lt hge)

/-- `sort_order` sorts by address. -/
theorem pairwise_sortOrder (n : Nat) :
    (sortOrder addr n).Pairwise fun i j => addr i ≤ addr j := by
  have hfold : ∀ (is acc : List Nat), (acc.Pairwise fun i j => addr j ≤ addr i) →
      (is.foldl (fun acc i => sortInsert addr i acc) acc).Pairwise fun i j => addr j ≤ addr i := by
    intro is
    induction is with
    | nil =>
      intro acc hacc
      exact hacc
    | cons i rest ih =>
      intro acc hacc
      exact ih _ (pairwise_sortInsert hacc)
  rw [sortOrder, List.pairwise_reverse]
  exact hfold _ [] List.Pairwise.nil

/-- The specialised sort of two cases agrees with the general one. -/
theorem sortOrder2_eq : sortOrder2 addr = sortOrder addr 2 := by
  by_cases h : addr 1 < addr 0
  · have h' : ¬ addr 0 ≤ addr 1 := Nat.not_le_of_lt h
    simp [sortOrder2, sortOrder, List.range_succ, sortInsert, h, h']
  · have h' : addr 0 ≤ addr 1 := Nat.le_of_not_lt h
    simp [sortOrder2, sortOrder, List.range_succ, sortInsert, h, h']

theorem lockOrder_eq (n : Nat) : lockOrder addr n = sortOrder addr n := by
  rw [lockOrder]
  split
  · next h => rw [h, sortOrder2_eq]
  · rfl

/-- Skipping repeated channels in an order sorted by address leaves strictly increasing addresses:
equal channels are adjacent, because distinct channels have distinct addresses. -/
theorem pairwise_lockSeq {chans : List C} {a : C → Nat} (ha : Function.Injective a)
    (haddr : ∀ i c, chans[i]? = some c → addr i = a c) {order : List Nat} (prev : Option C)
    (hsorted : order.Pairwise fun i j => addr i ≤ addr j)
    (hprev : ∀ p ∈ prev, ∀ i ∈ order, a p ≤ addr i) :
    ((lockSeq chans prev order).Pairwise fun c d => a c < a d) ∧
      ∀ p ∈ prev, ∀ c ∈ lockSeq chans prev order, a p < a c := by
  induction order generalizing prev with
  | nil => exact ⟨List.Pairwise.nil, fun _ _ c hc => by cases hc⟩
  | cons i rest ih =>
    rw [List.pairwise_cons] at hsorted
    have hrest : ∀ p ∈ prev, ∀ j ∈ rest, a p ≤ addr j :=
      fun p hp j hj => hprev p hp j (List.mem_cons_of_mem _ hj)
    rw [lockSeq]
    split
    · exact ih prev hsorted.2 hrest
    · next c hc =>
      split
      · exact ih prev hsorted.2 hrest
      · next hne =>
        have hstep : ∀ p ∈ some c, ∀ j ∈ rest, a p ≤ addr j := by
          rintro p hp j hj
          cases hp
          rw [← haddr i c hc]
          exact hsorted.1 j hj
        obtain ⟨hpair, hfirst⟩ := ih (some c) hsorted.2 hstep
        refine ⟨List.pairwise_cons.2 ⟨hfirst c rfl, hpair⟩, fun p hp d hd => ?_⟩
        have hpc : a p < a c := by
          refine Nat.lt_of_le_of_ne ?_ fun heq => hne ?_
          · rw [← haddr i c hc]
            exact hprev p hp i List.mem_cons_self
          · rw [← ha heq]
            exact hp
        rcases List.mem_cons.1 hd with rfl | hd
        · exact hpc
        · exact Nat.lt_trans hpc (hfirst c rfl d hd)

theorem mem_chans_of_lockSeq {chans : List C} {prev : Option C} {order : List Nat} {c : C}
    (h : c ∈ lockSeq chans prev order) : c ∈ chans := by
  induction order generalizing prev with
  | nil => cases h
  | cons i rest ih =>
    rw [lockSeq] at h
    split at h
    · exact ih h
    · next d hd =>
      split at h
      · exact ih h
      · rcases List.mem_cons.1 h with rfl | h
        · exact List.mem_of_getElem? hd
        · exact ih h

end SortOrder

section Locks

variable {T C α : Type} [DecidableEq C] {K : Config T C} {cases : List (Case C α)}

/-- The locks of a select are taken in strictly increasing address order. -/
theorem SelPc.pairwise_locks (haddr : Function.Injective K.addr) :
    (locks K cases).Pairwise fun c d => K.addr c < K.addr d := by
  rw [locks, lockOrder_eq]
  refine (pairwise_lockSeq haddr (fun i c hc => ?_) none (pairwise_sortOrder _) ?_).1
  · rw [hc]
    rfl
  · rintro p hp
    cases hp

/-- A select locks the channels of its cases and no others. -/
theorem SelPc.mem_locks_iff {c : C} : c ∈ locks K cases ↔ ∃ k ∈ cases, k.chan = c := by
  constructor
  · intro h
    exact List.mem_map.1 (mem_chans_of_lockSeq h)
  · rintro ⟨k, hk, rfl⟩
    obtain ⟨i, hi⟩ := List.mem_iff_getElem?.1 hk
    exact mem_locks hi

end Locks

/-! ## Waiting for locks -/

section Waiting

variable {T C α : Type} [DecidableEq C] {K : Config T C}

/-- The lock a thread has to take in its next step. -/
def Thread.awaits : Thread C α → Option C
  | direct _ c _ (.serveLock _) => some c
  | direct _ c _ .slowLock => some c
  | direct _ c _ .expLock => some c
  | direct _ c _ .closeLock => some c
  | select _ _ _ (.lockAll (c :: _) _) => some c
  | _ => none

/-- Thread `t` cannot go on until thread `t'` releases a channel lock. -/
def Sys.WaitsFor (s : Sys T C α) (t t' : T) : Prop :=
  ∃ c, (s.thread t).awaits = some c ∧ (s.mem.chan c).lock = some t'

/-- A thread that waits for a taken lock cannot move. -/
theorem Sys.step_of_waitsFor [DecidableEq T] {s : Sys T C α} {t t' : T} (h : s.WaitsFor t t')
    (alt : Bool) : s.step K (.go t alt) = none := by
  obtain ⟨c, hawaits, hlock⟩ := h
  have hfree : (s.mem.chan c).lock ≠ none := by
    rw [hlock]
    exact Option.some_ne_none _
  cases hth : s.thread t with
  | idle =>
    rw [hth] at hawaits
    cases hawaits
  | direct id d op pc =>
    rw [hth] at hawaits
    cases pc <;> cases hawaits <;>
      simp [Sys.step, hth, Sys.stepDirect, Pc.act, hfree]
  | select id cases timeout pc =>
    rw [hth] at hawaits
    cases pc with
    | lockAll cs k =>
      cases cs with
      | nil => cases hawaits
      | cons d rest =>
        cases hawaits
        simp [Sys.step, hth, Sys.stepSelect, SelPc.act, hfree]
    | _ => cases hawaits

/-- A thread that waits for a lock holds only locks at lower addresses. -/
theorem Thread.addr_lt_of_awaits (haddr : Function.Injective K.addr) {th : Thread C α} {c d : C}
    (hwf : th.Wf K) (hawaits : th.awaits = some c) (hd : d ∈ th.holds K) :
    K.addr d < K.addr c := by
  cases th with
  | idle => cases hawaits
  | direct id e op pc => cases pc <;> cases hawaits <;> cases hd
  | select id cases timeout pc =>
    cases pc with
    | lockAll cs k =>
      cases cs with
      | nil => cases hawaits
      | cons e rest =>
        cases hawaits
        obtain ⟨hs, hlocks⟩ := hwf
        rw [Thread.holds, SelPc.held_lockAll hlocks] at hd
        have hpair : (SelPc.locks K cases).Pairwise fun c d => K.addr c < K.addr d :=
          SelPc.pairwise_locks haddr
        rw [hlocks, List.pairwise_append] at hpair
        exact hpair.2.2 d hd c List.mem_cons_self
    | _ => cases hawaits

/-- Along a chain of waiting threads the awaited addresses increase. -/
theorem Sys.addr_lt_of_transGen [DecidableEq T] (haddr : Function.Injective K.addr)
    {s : Sys T C α} (hl : LockInv K s) {t u : T} (h : Relation.TransGen s.WaitsFor t u) {c d : C}
    (hc : (s.thread t).awaits = some c) (hd : (s.thread u).awaits = some d) :
    K.addr c < K.addr d := by
  -- one link: `t` waits for a lock that `u` holds while it waits for `d`
  have hlink : ∀ {t u : T} {c d : C}, s.WaitsFor t u → (s.thread t).awaits = some c →
      (s.thread u).awaits = some d → K.addr c < K.addr d := by
    rintro t u c d ⟨c', hc', hlock⟩ hc hd
    cases hc.symm.trans hc'
    exact Thread.addr_lt_of_awaits haddr (hl.wf u) hd ((hl.lock c u).1 hlock)
  induction h generalizing d with
  | single h => exact hlink h hc hd
  | tail _ h ih =>
    obtain ⟨e, he, hlock⟩ := h
    exact Nat.lt_trans (ih he) (hlink ⟨e, he, hlock⟩ he hd)

end Waiting

/-- Distinct channels having distinct addresses: `lock_all` takes each channel of the cases once, in
strictly increasing address order, with `sort_order_2` and `sort_order` alike. In every state of every
run a select holds the locks its place says (`SelPc.held`): those before the rest of the list in
`lock_all`, all of them until `unlock_all`, the rest of the list in `unlock_all` and none elsewhere, so
that what is released is what was acquired. And no threads wait for each other's locks in a cycle. -/
theorem lock_order_acyclic {T C α : Type} [DecidableEq T] [DecidableEq C] (K : Config T C)
    (haddr : Function.Injective K.addr) :
    (∀ cases : List (Case C α),
      ((SelPc.locks K cases).Pairwise fun c d => K.addr c < K.addr d) ∧
      (∀ c, c ∈ SelPc.locks K cases ↔ ∃ k ∈ cases, k.chan = c)) ∧
    (∀ addr : Nat → Nat, sortOrder2 addr = sortOrder addr 2) ∧
    ∀ (slots : C → U32 → α) (s : Sys T C α), Reaches (Sys.step K) Always (Sys.init slots) s →
      (∀ t id cases timeout pc, s.thread t = .select id cases timeout pc →
        ∀ c, (s.mem.chan c).lock = some t ↔ c ∈ pc.held K cases) ∧
      ∀ t, ¬ Relation.TransGen s.WaitsFor t t := by
  refine ⟨fun cases => ⟨SelPc.pairwise_locks haddr, fun c => SelPc.mem_locks_iff⟩,
    fun addr => sortOrder2_eq, fun slots s hs => ⟨?_, ?_⟩⟩
  · intro t id cases timeout pc hth c
    rw [(SysInv.reaches hs).locks.lock c t, hth]
    rfl
  · intro t hcycle
    obtain ⟨u, ⟨c, hc, -⟩, -⟩ := Relation.TransGen.head'_iff.1 hcycle
    exact Nat.lt_irrefl _
      (Sys.addr_lt_of_transGen haddr (SysInv.reaches hs).locks hcycle hc hc)

/-- Three threads on three unbuffered channels, with addresses that fall. -/
def fallingThree : Config (Fin 3) (Fin 3) where
  chan _ := ChanCfg.create 0
  addr c := 8 * (2 - c.val)
  spinLimit := 0
  self _ := 0

/-- A send has the lock of channel zero. A select on all three channels has locked the other two, in the
order of their addresses, and waits for that one; another select waits for the lock of channel one. -/
theorem lock_order_acyclic_three_channels :
    SelPc.locks fallingThree [⟨0, none⟩, ⟨2, none⟩, ⟨0, some 7⟩, ⟨1, none⟩] = [2, 1, 0] ∧
    ∃ s : Sys (Fin 3) (Fin 3) Nat,
      Reaches (Sys.step fallingThree) Always (Sys.init fun _ _ => 0) s ∧ s.WaitsFor 1 0 ∧ s.WaitsFor 0 2 ∧
      (∀ c, (s.mem.chan c).lock = some 0 ↔ c ∈ (SelPc.lockAll [0] .ready).held fallingThree
        [⟨0, none⟩, ⟨2, none⟩, ⟨0, some 7⟩, ⟨1, none⟩]) ∧
      ∀ t, ¬ Relation.TransGen s.WaitsFor t t := by
  have haddr : Function.Injective fallingThree.addr := by decide
  obtain ⟨s, hs, hth, ⟨hawaits₁, hlock₁⟩, hawaits₀, hlock₀⟩ :=
    Sys.exists_reaches fallingThree (fun _ _ => (0 : Nat)) Always
      (List.flatten [
        [.call 2 (.direct 0 (.send 7 0)), .go 2 false],
        [.call 0 (.select [⟨0, none⟩, ⟨2, none⟩, ⟨0, some 7⟩, ⟨1, none⟩] (-1))],
        List.replicate 6 (.go 0 false),
        [.call 1 (.select [⟨0, none⟩, ⟨1, none⟩] (-1))], List.replicate 3 (.go 1 false)])
      (fun s => s.thread 0 = .select 1 [⟨0, none⟩, ⟨2, none⟩, ⟨0, some 7⟩, ⟨1, none⟩] (-1)
          (.lockAll [0] .ready) ∧
        ((s.thread 1).awaits = some 1 ∧ (s.mem.chan 1).lock = some 0) ∧
        (s.thread 0).awaits = some 0 ∧ (s.mem.chan 0).lock = some 2) (by decide +kernel)
  obtain ⟨hheld, hacyclic⟩ := (lock_order_acyclic fallingThree haddr).2.2 _ s hs
  exact ⟨by decide, s, hs, ⟨1, hawaits₁, hlock₁⟩, ⟨0, hawaits₀, hlock₀⟩, hheld 0 _ _ _ _ hth, hacyclic⟩

end LibChan
