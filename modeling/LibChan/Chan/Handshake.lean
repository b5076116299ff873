import LibChan.Chan.Apart
import LibChan.Chan.SharedRing
import LibChan.Chan.Looks

/-!
# The handshake between the ring and the parked waiters

A direct call that finds the ring in its way registers, looks at the ring once more and parks. Whoever
moves the ring in its favour commits first and looks at the waiter count afterwards. One of the two sees
the other. The module says who sleeps (`Sys.Asleep`), who is bound to look after the sleepers
(`Thread.Owes`) and where a thread can be that has just committed (`Sys.Acts.committed`).

A thread that holds the lock judges the ring by a cursor it has loaded a while ago. Its verdict is out of
date only if somebody has committed since, and that thread waits for the lock then (`Sys.Alert`).
-/

set_option autoImplicit false

namespace LibChan

variable {T C α : Type}

/-! ## Room in the ring -/

/-- The positions that half `o` of the ring can still reserve: free slots for the producers, committed
elements for the consumers. -/
def RingGhost.room {ω β : Type} (g : RingGhost T ω β) (cap : RingCap) : ChanOp → Nat
  | .send => g.committed .recv + cap.size - g.reserved .send
  | .recv => g.committed .send - g.reserved .recv

theorem RingGhost.room_le {ω β : Type} {g g' : RingGhost T ω β} {cap : RingCap} {o : ChanOp}
    (hres : g.reserved o ≤ g'.reserved o)
    (hcom : g'.committed o.other ≤ g.committed o.other) : g'.room cap o ≤ g.room cap o := by
  cases o with
  | send =>
    rw [ChanOp.other_send] at hcom
    rw [RingGhost.room, RingGhost.room]
    omega
  | recv =>
    rw [ChanOp.other_recv] at hcom
    rw [RingGhost.room, RingGhost.room]
    omega

/-- The cursor that `ring_full` or `ring_empty` loads first. -/
def RingGhost.probeAt {ω β : Type} (g : RingGhost T ω β) : ChanOp → Nat
  | .send => g.reserved .send
  | .recv => g.committed .send

section Probe

variable {ω : Type} {g : RingGhost T ω α} {cap : RingCap} {r : Ring α} {pc : T → Option (RingPc ω α)}
  {o : ChanOp} {n : Nat}

theorem RingInv.probeFirst_eq (h : RingInv cap r g pc) (o : ChanOp) :
    probeFirst r o = BitVec.ofNat 32 (g.probeAt o) := by
  cases o with
  | send => exact h.head_eq .send
  | recv => exact h.tail_eq .send

theorem Ordered.committed_le_probeAt (h : Ordered cap g) (o : ChanOp) :
    g.committed o.other ≤ g.probeAt o := by
  have h1 := h.cons_le
  have h2 := h.cons_le_prod
  have h3 := h.prod_le
  cases o with
  | send =>
    show g.committed .recv ≤ g.reserved .send
    omega
  | recv => exact Nat.le_refl _

/-- A verdict against half `o` is right if nobody has committed past the cursor loaded first. -/
theorem RingInv.room_eq_zero (h : RingInv cap r g pc) (hcom : g.committed o.other ≤ n)
    (hn : n ≤ g.probeAt o)
    (hstop : probeStops cap (BitVec.ofNat 32 n) (probeSecond r o) o = true) : g.room cap o = 0 := by
  have h1 := h.ordered.cons_le
  have h2 := h.ordered.cons_le_prod
  have h3 := h.ordered.prod_le
  have h4 := h.ordered.prod_le_cap
  have hsize := cap.size_le
  cases o with
  | send =>
    rw [probeStops, probeSecond, h.tail_eq .recv, decide_eq_true_eq, BitVec.le_def] at hstop
    have hcom : g.committed .recv ≤ n := hcom
    have hn : n ≤ g.reserved .send := hn
    rw [Wrap.ofNat_sub_toNat hcom (by omega)] at hstop
    have hval : cap.val.toNat = cap.size := rfl
    rw [RingGhost.room]
    omega
  | recv =>
    rw [probeStops, probeSecond, h.head_eq .recv, decide_eq_true_eq] at hstop
    obtain rfl : n = g.committed .send := Nat.le_antisymm hn hcom
    have heq := Wrap.ofNat_inj_of_window h2 (by omega) hstop
    rw [RingGhost.room, heq, Nat.sub_self]

/-- A verdict for the consumers is right if nobody has committed past the tail loaded first. -/
theorem RingInv.room_pos (h : RingInv cap r g pc)
    (hgo : probeStops cap (BitVec.ofNat 32 (g.committed .send)) (probeSecond r .recv) .recv = false) :
    0 < g.room cap .recv := by
  have hne : g.reserved .recv ≠ g.committed .send := by
    intro heq
    rw [probeStops, probeSecond, h.head_eq .recv, heq, decide_eq_false_iff_not] at hgo
    exact hgo rfl
  have h2 := h.ordered.cons_le_prod
  rw [RingGhost.room]
  omega

end Probe

section Step

variable {ω β : Type} [DecidableEq T] {g : RingGhost T ω β} {cap : RingCap} {r : Ring β} {t : T}
  {weak : Bool} {p p' : RingPc ω β} {o : ChanOp}

/-- An operation that makes its reservation starts it at the head. -/
theorem mark_step_of_run (hp : (r.step cap weak p).2 = .inl p') (hnone : p.run = none)
    (hrun : p'.run ≠ none) : (g.step cap r t weak p).mark t = g.reserved p.op.side := by
  cases p with
  | loadHead op =>
    cases hp
    exact absurd rfl hrun
  | loadOpp op a =>
    simp only [Ring.step] at hp
    split at hp
    · cases hp
    · cases hp
      exact absurd rfl hrun
  | cas op a k =>
    simp only [Ring.step] at hp
    rw [RingGhost.step]
    split at hp
    · next hcas =>
      rw [if_pos hcas, mark_reserve, Function.update_self]
      rfl
    · cases hp
      exact absurd rfl hrun
  | copy op a k i acc | wait op a k acc | store op a k acc => cases hnone

/-- Only the last access of an operation commits. -/
theorem committed_step (h : g.committed o < (g.step cap r t weak p).committed o) :
    ∃ op a k acc, p = .store op a k acc ∧ op.side = o ∧
      (g.step cap r t weak p).committed o = g.committed o + k.toNat := by
  by_cases hside : p.op.side = o
  · cases p with
    | store op a k acc =>
      obtain rfl : op.side = o := hside
      exact ⟨op, a, k, acc, rfl, rfl, RingGhost.committed_commit_self ..⟩
    | cas op a k =>
      have hsame : (g.step cap r t weak (.cas op a k)).committed = g.committed := by
        rw [RingGhost.step]
        split
        · exact committed_reserve ..
        · rfl
      rw [hsame] at h
      exact absurd h (Nat.lt_irrefl _)
    | copy op a k i acc =>
      have hsame : (g.step cap r t weak (.copy op a k i acc)).committed = g.committed := by
        rw [RingGhost.step]
        split <;> rfl
      rw [hsame] at h
      exact absurd h (Nat.lt_irrefl _)
    | loadHead op | loadOpp op a | wait op a k acc => exact absurd h (Nat.lt_irrefl _)
  · rw [(cursors_step_of_side g cap r t weak p hside).2] at h
    exact absurd h (Nat.lt_irrefl _)

end Step

/-! ## Who sleeps and who comes -/

/-- The places of a waiter that has looked at the ring for the second time and parks. -/
def Pc.asleep : Pc α → Bool
  | parkUnlock | park | expLock | expRemove => true
  | _ => false

theorem Pc.registered_of_asleep {pc : Pc α} (h : pc.asleep = true) : pc.registered = true := by
  cases pc with
  | parkUnlock | park | expLock | expRemove => rfl
  | _ => cases h

/-- A direct call sleeps in queue `o` of `c`. -/
def Sys.Asleep (s : Sys T C α) (c : C) (o : ChanOp) : Prop :=
  ∃ t id op pc, s.thread t = .direct id c op pc ∧ op.side = o ∧ pc.asleep = true ∧
    s.Present c o ⟨id, 0⟩

/-- The waiter count of queue `o` is not zero. -/
def Sys.Awaited (s : Sys T C α) (c : C) (o : ChanOp) : Prop := ∃ t w, (s.thread t).Registered c o w

/-- The thread has committed on the other half and not yet taken the lock: it looks at the waiter count
next, and serves queue `o` if it is not zero. -/
def Thread.Comes (c : C) (o : ChanOp) : Thread C α → Prop
  | .direct _ d op (.fastAfter _) | .direct _ d op (.serveLock _) => d = c ∧ op.side = o.other
  | _ => False

/-- The places of the hand-over loop, up to a failed ring operation. -/
def ServePc.live : ServePc α → Bool
  | putBack _ => false
  | _ => true

/-- The thread serves queue `o` in the hand-over loop. -/
def Thread.Tends (c : C) (o : ChanOp) : Thread C α → Prop
  | .direct _ d op (.serve _ st) => d = c ∧ op.side = o.other ∧ st.live = true
  | _ => False

/-- A receiver that has freed a slot is about to fill it for a waiting sender. -/
def Thread.Helps (c : C) : Thread C α → Prop
  | .direct _ d _ .helpClaim => d = c
  | .direct _ d _ (.helpRing _ p) => d = c ∧ p.run = none
  | .select _ cases _ (.exec i .helpClaim) => ∃ k, cases[i]? = some k ∧ k.chan = c ∧ k.op = .recv
  | .select _ cases _ (.exec i (.helpRing _ p)) => (∃ k, cases[i]? = some k ∧ k.chan = c) ∧ p.run = none
  | _ => False

/-- The thread is bound to look after queue `o`. -/
def Thread.Owes (c : C) (o : ChanOp) (th : Thread C α) : Prop :=
  th.Comes c o ∨ th.Tends c o ∨ o = .send ∧ th.Helps c

/-- Some thread comes to serve queue `o`. -/
def Sys.Coming (s : Sys T C α) (c : C) (o : ChanOp) : Prop := ∃ t, (s.thread t).Comes c o

/-- Whoever has committed past `n` while a waiter was registered comes. -/
def Sys.Alert (s : Sys T C α) (c : C) (o : ChanOp) (n : Nat) : Prop :=
  s.Awaited c o → n < (s.mem.chan c).hist.committed o.other → s.Coming c o

/-- The ring operation of `chan_select_fast` commits on `c` with no waiter counted that it would have to
serve. -/
def Thread.gateOk [DecidableEq C] (c : C) (m : Mem T C α) : Thread C α → Bool
  | .select _ cases _ (.fast2 start j (.ring (.store _ _ _ _))) =>
    (cases[SelPc.index2 cases start j]?).all fun k =>
      decide (k.chan = c → (m.chan c).cnt k.op.other = 0)
  | _ => true

section Sleep

variable [DecidableEq T] [DecidableEq C] {K : Config T C} {s s' : Sys T C α} {l : Label T C α}
  {t u : T} {alt : Bool} {c d : C} {e : Effect α} {th : Thread C α} {o : ChanOp} {w : Wid} {n : Nat}

omit [DecidableEq T] [DecidableEq C] in
theorem CountInv.cnt_eq_zero (h : CountInv s) : (s.mem.chan c).cnt o = 0 ↔ ¬ s.Awaited c o := by
  rw [h.cnt c o, Nat.cast_eq_zero, List.length_eq_zero_iff, List.eq_nil_iff_forall_not_mem]
  constructor
  · rintro hnone ⟨t, w, ht⟩
    exact hnone w ((h.reg c o w).2 ⟨t, ht⟩)
  · rintro hnone w hw
    obtain ⟨t, ht⟩ := (h.reg c o w).1 hw
    exact hnone ⟨t, w, ht⟩

omit [DecidableEq T] [DecidableEq C] in
theorem Sys.Asleep.awaited (h : s.Asleep c o) : s.Awaited c o := by
  obtain ⟨t, id, op, pc, hth, rfl, hpc, -⟩ := h
  refine ⟨t, ⟨id, 0⟩, ?_⟩
  rw [hth]
  exact ⟨rfl, rfl, rfl, Pc.registered_of_asleep hpc⟩

/-- A call falls asleep when its second look at the ring fails. -/
theorem Sys.asleep_of_move (hs : Sound K s) (hcap : (K.chan c).capacity ≠ 0) (hnext : (s.thread t).Next K s.mem d th e)
    (hacts : s.Acts K t alt d e th) (h : (s.move K t d e th).Asleep c o) :
    s.Asleep c o ∨ ∃ id op p res, s.thread t = .direct id c op (.recheck p) ∧ op.side = o ∧ d = c ∧
      s.mem.access K c alt p = .inr res ∧ res.moved = 0 := by
  obtain ⟨u, id, op, pc, hth, hside, hpc, hpresent⟩ := h
  by_cases hu : u = t
  · subst hu
    rw [Sys.thread_move_self] at hth
    cases hacts with
    | select hth₀ hact => cases hth
    | @direct _ _ _ pc₀ _ _ hth₀ hact =>
      cases hth
      have hold : pc₀.asleep = true → e.newcomer = none → s.Asleep c o := by
        intro hpc₀ he
        refine ⟨u, id, op, pc₀, hth₀, hside, hpc₀, ?_⟩
        rcases Sys.present_of_move hnext hpresent with hold | ⟨-, hnew⟩
        · exact hold
        · cases he.symm.trans hnew
      cases Pc.flow_of_act hact with
      | enrollMeet hzero => exact absurd hzero hcap
      | recheckMiss hp hres => exact Or.inr ⟨id, op, _, _, hth₀, hside, rfl, hp, hres⟩
      | parkUnlock | parkExpire | expLock => exact Or.inl (hold rfl rfl)
      | serveStopBlock _ hblock | serveEmptyBlock _ hblock | servePutBackBlock hblock
      | meetEmptySend _ _ hblock | emptyOpen _ hblock => cases hblock <;> cases hpc
      | _ => cases hpc
  · rw [Sys.thread_move_of_ne hu] at hth
    refine Or.inl ⟨u, id, op, pc, hth, hside, hpc, ?_⟩
    rcases Sys.present_of_move hnext hpresent with hold | ⟨-, hnew⟩
    · exact hold
    · -- nobody registers for another call
      refine absurd (hs.calls.id_inj u t id (by rw [hth]; rfl) (hnext.id_of_enters hnew)) hu

omit [DecidableEq T] in
theorem Thread.Next.held_of_enters (hnext : (s.thread t).Next K s.mem d th e)
    (he : e.newcomer = some (o, w)) : d ∈ (s.thread t).holds K := by
  cases hnext.move with
  | quiet hquiet =>
    cases e with
    | enroll o' w' | requeue o' w' | stub o' w' => exact hquiet.elim
    | _ => cases he
  | enter _ hheld => exact hheld
  | settle he' => rcases he' with ⟨r, rfl⟩ | ⟨a, r, x, rfl⟩ <;> cases he
  | _ => cases he

omit [DecidableEq T] in
/-- Who does not hold the lock counts no new waiter. -/
theorem Thread.Next.newcomer_eq_none (hnext : (s.thread t).Next K s.mem d th e)
    (hfree : c ∉ (s.thread t).holds K) (hd : d = c) : e.newcomer = none := by
  subst hd
  cases he : e.newcomer with
  | none => rfl
  | some x => exact absurd (hnext.held_of_enters he) hfree

theorem Sys.awaited_of_move (hacts : s.Acts K t alt d e th) (hnew : d = c → e.newcomer = none)
    (h : (s.move K t d e th).Awaited c o) : s.Awaited c o := by
  obtain ⟨u, w, hu⟩ := h
  refine ⟨u, w, ?_⟩
  by_cases hut : u = t
  · subst hut
    rw [Sys.thread_move_self] at hu
    cases hacts with
    | select hth hact => exact hu.elim
    | direct hth hact =>
      obtain ⟨rfl, rfl, rfl, hpc'⟩ := hu
      rw [hth]
      refine ⟨rfl, rfl, rfl, ?_⟩
      cases Pc.counts_of_flow (Pc.flow_of_act hact) with
      | enroll hpc hpc' => cases hnew rfl
      | decr hpc hnot => cases hnot.symm.trans hpc'
      | same _ _ hpc => exact hpc.symm.trans hpc'
  · rwa [Sys.thread_move_of_ne hut] at hu

/-- Who comes goes on coming while there are waiters and the lock is taken. -/
theorem Sys.Coming.move (h : s.Coming c o) (hcount : CountInv s) (hawait : s.Awaited c o)
    (hlock : (s.mem.chan c).lock ≠ none) (hacts : s.Acts K t alt d e th) :
    (s.move K t d e th).Coming c o := by
  obtain ⟨u, hu⟩ := h
  refine ⟨u, ?_⟩
  by_cases hut : u = t
  · subst hut
    rw [Sys.thread_move_self]
    cases hacts with
    | select hth hact =>
      rw [hth] at hu
      exact hu.elim
    | @direct id d op pc pc' e hth hact =>
      rw [hth] at hu
      cases pc with
      | fastAfter r =>
        obtain ⟨rfl, hside⟩ := hu
        cases Pc.flow_of_act hact with
        | afterServe hcnt => exact ⟨rfl, hside⟩
        | afterRet hcnt =>
          rw [hside, ChanOp.other_other] at hcnt
          exact absurd hawait (hcount.cnt_eq_zero.1 hcnt)
      | serveLock r =>
        obtain ⟨rfl, hside⟩ := hu
        cases Pc.flow_of_act hact with
        | serveLock hfree => exact absurd hfree hlock
      | _ => exact hu.elim
  · rwa [Sys.thread_move_of_ne hut]

end Sleep

/-! ## Commits -/

section Commit

variable [DecidableEq T] [DecidableEq C] {K : Config T C} {s s' : Sys T C α} {l : Label T C α}
  {t u : T} {alt : Bool} {c d : C} {e : Effect α} {th : Thread C α} {o : ChanOp} {w : Wid} {n : Nat}

/-- Where a thread is that has just committed on the half opposite to queue `o`. -/
inductive Sys.Committed (K : Config T C) (s : Sys T C α) (c : C) (o : ChanOp) (t : T) (th : Thread C α) :
    Prop
  /-- It looks at the waiter count next. -/
  | comes (hcomes : th.Comes c o)
  /-- A select has committed in its lock-free path. -/
  | gate (hnone : (s.mem.chan c).cnt o = 0)
  /-- It goes on under the lock, in the hand-over loop or with a sender to help. -/
  | tends (hheld : c ∈ (s.thread t).holds K) (htends : th.Tends c o)
  | helps (hheld : c ∈ (s.thread t).holds K) (ho : o = .send) (hhelps : th.Helps c)
  /-- It has moved an element for a waiter of the other side. -/
  | met {w : Wid} (hheld : c ∈ (s.thread t).holds K) (hpresent : s.Present c o.other w)
  /-- A send case of a select has pushed under the lock. -/
  | exec {id i : Nat} {cases : List (Case C α)} {timeout : Int} {p : RingPc Wid α} {k : Case C α}
      (hheld : c ∈ (s.thread t).holds K)
      (hth : s.thread t = .select id cases timeout (.exec i (.ring p))) (hk : cases[i]? = some k)
      (hc : k.chan = c) (hop : k.op = .send) (ho : o = .recv)

omit [DecidableEq T] in
theorem Pc.committed_of_flow (hs : Sound K s) (hspsc : (K.chan c).spsc = false) {id : Nat} {op : Op α}
    {pc pc' : Pc α} (hth : s.thread t = .direct id c op pc) {p : RingPc Wid α}
    (hflow : Pc.Flow K s.mem id c op alt pc (.ring alt p) pc') {rop : RingOp Wid α} {a k : U32}
    {acc : List α} (hstore : p = .store rop a k acc) (hk : 0 < k.toNat) (hside : rop.side = o.other) :
    s.Committed K c o t (.direct id c op pc') := by
  have hok := hs.direct_ok hth
  have hp : s.mem.access K c alt p = .inr ⟨k.toNat, acc⟩ := by
    rw [hstore]
    rfl
  have hside : p.op.side = o.other := by
    rw [hstore]
    exact hside
  -- the operation went on, or it moved nothing
  have hin : ∀ {p' : RingPc Wid α}, s.mem.access K c alt p = .inl p' → False := by
    intro p' hp'
    cases hp.symm.trans hp'
  have hmiss : ∀ {res : RingRes α}, s.mem.access K c alt p = .inr res → res.moved = 0 → False := by
    intro res hres hzero
    cases hp.symm.trans hres
    exact hk.ne' hzero
  have hsingle : op.single = true → p.Runs (op.ringOp id) → op.side = o.other := by
    intro hop hruns
    rw [← Op.side_ringOp hop id, ← hruns.1, hside]
  have hserves : ∀ {w : Wid} {o' : ChanOp}, p.Serves w o' → o' = o.other := by
    intro w o' h
    rw [← h.1.side, hside]
  have hother : op.side = o.other → op.side.other = o := by
    intro h
    rw [h, ChanOp.other_other]
  cases hflow with
  | fastHit hp' hres => exact .comes ⟨rfl, hsingle hok.1 hok.2.2.2⟩
  | burstHit hp' hres =>
    refine .comes ⟨rfl, ?_⟩
    rw [← Op.side_burstOp hok.1 id, ← hok.2.2.1, hside]
  | slowSendHit hp' hres hop =>
    exact .tends (Sys.held_of_locked hth rfl) ⟨rfl, hsingle hok.1 hok.2.2, rfl⟩
  | slowRecvHit hp' hres hop =>
    have hrecv := Op.side_of_recv hok.1 hop
    refine .helps (Sys.held_of_locked hth rfl) ?_ rfl
    have := hsingle hok.1 hok.2.2
    rw [← hother this, hrecv]
    rfl
  | recheckHit hp' hres =>
    have hmem := hs.enrolled t id c op _ hth rfl
    rw [hsingle hok.1 hok.2.2] at hmem
    exact .met (Sys.held_of_locked hth rfl) (Or.inl hmem)
  | backHit hp' hres =>
    have hback : Pc.backstop (K.chan c) op = true := hok.2.1
    rw [Pc.backstop, hspsc] at hback
    cases hback
  | @serveHit n w p res hp' hres =>
    have hhand : (s.thread t).hand = some (w, .claimed c op.side.other) := by rw [hth]; rfl
    rw [hserves hok.2.2] at hhand
    exact .met (Sys.held_of_locked hth rfl) (Or.inr ⟨t, hhand⟩)
  | @helpHit w p res hp' hres =>
    have hhand : (s.thread t).hand = some (w, .claimed c .send) := by rw [hth]; rfl
    rw [hserves hok.2.2.2] at hhand
    exact .met (Sys.held_of_locked hth rfl) (Or.inr ⟨t, hhand⟩)
  | @closeHit w p res hp' hres =>
    have hhand : (s.thread t).hand = some (w, .claimed c .recv) := by rw [hth]; rfl
    rw [hserves hok.2.2] at hhand
    exact .met (Sys.held_of_locked hth rfl) (Or.inr ⟨t, hhand⟩)
  | _ =>
    first
    | exact (hin (by assumption)).elim
    | exact (hmiss (by assumption) (by assumption)).elim

omit [DecidableEq C] [DecidableEq T] in
theorem Case.side_ringOp (k : Case C α) (w : Wid) : (k.ringOp w).side = k.op := by
  rw [Case.ringOp, Case.op]
  cases k.elem <;> rfl

omit [DecidableEq T] in
theorem SelPc.committed_of_flow (hs : Sound K s) (hgate : (s.thread t).gateOk c s.mem = true) {id : Nat}
    {cases : List (Case C α)} {timeout : Int} {pc pc' : SelPc C α}
    (hth : s.thread t = .select id cases timeout pc) {p : RingPc Wid α}
    (hflow : SelPc.Flow K s.mem t id cases timeout alt pc c (.ring alt p) pc') {op : RingOp Wid α}
    {a k : U32} {acc : List α} (hstore : p = .store op a k acc) (hk : 0 < k.toNat)
    (hside : op.side = o.other) : s.Committed K c o t (.select id cases timeout pc') := by
  have hok := hs.select_ok hth
  have hp : ∀ d, s.mem.access K d alt p = .inr ⟨k.toNat, acc⟩ := by
    intro d
    rw [hstore]
    rfl
  cases hflow with
  | fast2In hk' hp' => cases (hp _).symm.trans hp'
  | fast2Miss hk' hp' hres =>
    cases (hp _).symm.trans hp'
    exact absurd hres hk.ne'
  | @fast2Hit start j kase p res hk' hp' hres =>
    obtain ⟨k', hk'', -, hruns⟩ := hok
    cases hk'.symm.trans hk''
    rw [hth, hstore, Thread.gateOk, hk', Option.all_some] at hgate
    have hcnt := of_decide_eq_true hgate rfl
    refine .gate ?_
    have hsame : kase.op = o.other := by
      rw [← Case.side_ringOp kase ⟨id, SelPc.index2 cases start j⟩, ← (hruns p rfl).1, hstore]
      exact hside
    rwa [hsame, ChanOp.other_other] at hcnt
  | @pick rdy i kase e st hk' hmem he => rcases he with he | ⟨v, he⟩ <;> cases he
  | @execGo i kase st st' e hk' hexec =>
    obtain ⟨k', hk'', hst⟩ := hok
    cases hk'.symm.trans hk''
    have hheld : kase.chan ∈ (s.thread t).holds K := Sys.held_of_exec hth hk'
    cases hexec with
    | ringIn hp' => cases (hp _).symm.trans hp'
    | helpIn hp' => cases (hp _).symm.trans hp'
    | ringOut hp' =>
      have hsame : kase.op = o.other := by
        rw [← Case.side_ringOp kase ⟨id, i⟩, ← hst.2.1, hstore]
        exact hside
      cases o with
      | send => exact .helps hheld rfl ⟨kase, hk', rfl, hsame⟩
      | recv => exact .exec hheld hth hk' rfl hsame rfl
    | @helpOut w p res hp' =>
      have hhand := Sys.hand_helpRing hth hk' hst.2.1
      have hsend : ChanOp.send = o.other := by
        rw [← hside, ← hst.2.2.1.side, hstore]
        rfl
      rw [hsend] at hhand
      exact .met hheld (Or.inr ⟨t, hhand⟩)
  | execDone hk' hexec => cases hexec

/-- What a step can be that commits on the half opposite to queue `o`. -/
theorem Sys.Acts.committed (hacts : s.Acts K t alt d e th) (hs : Sound K s)
    (hspsc : (K.chan c).spsc = false) (hgate : (s.thread t).gateOk c s.mem = true)
    (h : (s.mem.chan c).hist.committed o.other <
      ((s.move K t d e th).mem.chan c).hist.committed o.other) : s.Committed K c o t th := by
  have hnot : c = d → ∀ x, e ≠ .spsc x := by
    rintro rfl x rfl
    cases hspsc.symm.trans (hacts.spsc (hs.ok t))
  rcases hacts.hist_cases (hs.ok t) hnot with heq | ⟨p, rfl, rfl, hring, heq⟩
  · rw [heq] at h
    exact absurd h (Nat.lt_irrefl _)
  · rw [heq] at h
    obtain ⟨op, a, k, acc, rfl, hside, hcom⟩ := committed_step h
    have hk : 0 < k.toNat := by omega
    cases hacts with
    | direct hth hact =>
      exact Pc.committed_of_flow hs hspsc hth (Pc.flow_of_act hact) rfl hk hside
    | select hth hact =>
      exact SelPc.committed_of_flow hs hgate hth (SelPc.flow_of_act hact) rfl hk hside

/-- Who commits without the lock while there are waiters comes to serve them. -/
theorem Sys.Committed.coming (h : s.Committed K c o t th) (hcount : CountInv s) (hawait : s.Awaited c o)
    (hfree : c ∉ (s.thread t).holds K) : (s.move K t d e th).Coming c o := by
  cases h with
  | comes hcomes =>
    refine ⟨t, ?_⟩
    rwa [Sys.thread_move_self]
  | gate hnone => exact absurd hawait (hcount.cnt_eq_zero.1 hnone)
  | tends hheld | helps hheld | met hheld | exec hheld => exact absurd hheld hfree

/-- The steps of the others keep the alert of a thread that holds the lock. -/
theorem Sys.Alert.move (h : s.Alert c o n) (hs : Sound K s) (hcount : CountInv s)
    (hspsc : (K.chan c).spsc = false) (hgate : (s.thread t).gateOk c s.mem = true)
    (hlock : (s.mem.chan c).lock ≠ none) (hfree : c ∉ (s.thread t).holds K)
    (hnext : (s.thread t).Next K s.mem d th e) (hacts : s.Acts K t alt d e th) :
    (s.move K t d e th).Alert c o n := by
  intro hawait' hlt
  have hawait := Sys.awaited_of_move hacts (hnext.newcomer_eq_none hfree) hawait'
  by_cases hadv : (s.mem.chan c).hist.committed o.other <
      ((s.move K t d e th).mem.chan c).hist.committed o.other
  · exact (hacts.committed hs hspsc hgate hadv).coming hcount hawait hfree
  · exact (h hawait (hlt.trans_le (not_lt.1 hadv))).move hcount hawait hlock hacts

end Commit

end LibChan
