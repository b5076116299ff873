import LibChan.Chan.Drained
import LibChan.Chan.Handshake

/-!
# Nobody sleeps unattended

While a direct call sleeps in a queue of a buffered channel, either the ring gives it nothing to do or a
thread is bound to look after the queue (`AttendInv.owed`). The other clauses of `AttendInv` carry the
argument through the places where a thread judges the ring under the lock: its verdict is right, or
somebody who has committed since waits for the lock.

Two things have to be kept out. A sender must not register while receivers are queued (`Thread.enrollOk`),
since who hands an element over to a receiver does not look at the senders. And a select must not commit in
its lock-free path while waiters of the other side are counted (`Thread.gateOk`), since it does not look
at the counts again.
-/

set_option autoImplicit false

namespace LibChan

variable {T C α : Type}

/-- The positions of the ring of `c` that half `o` can still reserve. -/
def Sys.room (K : Config T C) (s : Sys T C α) (c : C) (o : ChanOp) : Nat :=
  (s.mem.chan c).hist.room (K.chan c).ringCap o

/-- The word `a` is a cursor as `ring_full` or `ring_empty` has loaded it under the lock. -/
def Sys.Probed (s : Sys T C α) (c : C) (o : ChanOp) (a : U32) : Prop :=
  ∃ n, a = BitVec.ofNat 32 n ∧ n ≤ (s.mem.chan c).hist.probeAt o ∧ s.Alert c o n

/-- What `execute_case_locked` knows of the receivers that sleep in `c`. -/
def ExecPc.Sees (s : Sys T C α) (c : C) (k : Case C α) : ExecPc α → Prop
  | second a => s.Probed c .recv a
  -- the send case has found an element in the ring, or nobody waiting
  | ring _ => k.op = .send → s.Asleep c .recv → s.Coming c .recv
  | _ => True

/-- Somebody is bound to look after queue `o`, or there is nothing its waiters could do. -/
def Sys.Attended (K : Config T C) (s : Sys T C α) (c : C) (o : ChanOp) : Prop :=
  (∃ t, (s.thread t).Owes c o) ∨ s.room K c o = 0

/-- Nobody sleeps in `c` unattended. -/
structure AttendInv [DecidableEq C] (K : Config T C) (c : C) (s : Sys T C α) : Prop where
  owed : ∀ o, s.Asleep c o → s.Attended K c o
  -- a receiver that has freed a slot fills it for one sender only
  help : ∀ t, (s.thread t).Helps c → s.Asleep c .send → s.Coming c .send ∨ s.room K c .send ≤ 1
  probe : ∀ t id op k a, s.thread t = .direct id c op (.serve k (.second a)) →
    s.Probed c op.side.other a
  push : ∀ t p, (s.thread t).ring? = some (c, p) → p.op.side = .send → p.Checking →
    c ∈ (s.thread t).holds K → s.Alert c .send ((s.mem.chan c).hist.mark t)
  look : ∀ t id cases timeout i st k, s.thread t = .select id cases timeout (.exec i st) →
    cases[i]? = some k → k.chan = c → st.Sees s c k

section Verdicts

variable [DecidableEq C] {K : Config T C} {s : Sys T C α} {t : T} {alt : Bool} {c : C} {o : ChanOp}
  {a : U32} {p : RingPc Wid α} {res : RingRes α}

/-- What `ring_full` or `ring_empty` loads first is up to date. -/
theorem Sys.probed_first (hgood : s.RingSound K c) :
    s.Probed c o (probeFirst (s.mem.chan c).ring o) := by
  refine ⟨_, hgood.probeFirst_eq o, Nat.le_refl _, fun _ hlt => ?_⟩
  exact absurd (hgood.ordered.committed_le_probeAt o) (not_le.2 hlt)

/-- A verdict against the waiters is right, or somebody comes. -/
theorem Sys.Probed.stops (h : s.Probed c o a) (hgood : s.RingSound K c) (hawait : s.Awaited c o)
    (hstop : probeStops (K.chan c).ringCap a (probeSecond (s.mem.chan c).ring o) o = true) :
    s.Coming c o ∨ s.room K c o = 0 := by
  obtain ⟨n, rfl, hn, halert⟩ := h
  by_cases hlt : n < (s.mem.chan c).hist.committed o.other
  · exact Or.inl (halert hawait hlt)
  · exact Or.inr (hgood.room_eq_zero (not_lt.1 hlt) hn hstop)

/-- A verdict for the receivers is right, or somebody comes. -/
theorem Sys.Probed.goes (h : s.Probed c .recv a) (hgood : s.RingSound K c) (hawait : s.Awaited c .recv)
    (hgo : probeStops (K.chan c).ringCap a (probeSecond (s.mem.chan c).ring .recv) .recv = false) :
    s.Coming c .recv ∨ 0 < s.room K c .recv := by
  obtain ⟨n, rfl, hn, halert⟩ := h
  by_cases hlt : n < (s.mem.chan c).hist.committed .send
  · exact Or.inl (halert hawait hlt)
  · obtain rfl : n = (s.mem.chan c).hist.committed .send := Nat.le_antisymm hn (not_lt.1 hlt)
    exact Or.inr (hgood.room_pos hgo)

/-- A ring operation that fails under the lock has found nothing to do, or somebody comes. -/
theorem AttendInv.of_miss (h : AttendInv K c s) (hgood : s.RingSound K c)
    (hring : (s.thread t).ring? = some (c, p)) (hheld : c ∈ (s.thread t).holds K)
    (htime : (s.mem.chan c).hist.Timely t p) (hp : s.mem.access K c alt p = .inr res)
    (hres : res.moved = 0) (hside : p.op.side = o) (hawait : s.Awaited c o) :
    s.Coming c o ∨ s.room K c o = 0 := by
  have hon := Thread.ringOn_eq_some.2 hring
  cases o with
  | recv =>
    have hempty := hgood.empty_of_moved hon hside htime hp hres
    refine Or.inr ?_
    rw [Sys.room, RingGhost.room, hempty, Nat.sub_self]
  | send =>
    obtain ⟨op, b, rfl, hnone⟩ := hgood.check_of_moved hon hp hres
    by_cases hbehind : (s.mem.chan c).hist.committed .recv ≤ (s.mem.chan c).hist.mark t
    · have hfull := hgood.full_of_none hon hside hbehind hnone
      refine Or.inr ?_
      rw [Sys.room, RingGhost.room, hfull, Nat.sub_self]
    · -- the consumers have passed the head that the operation has loaded
      exact Or.inl (h.push t _ hring hside trivial hheld hawait (not_le.1 hbehind))

theorem Thread.Tends.held {th : Thread C α} (h : th.Tends c o) : c ∈ th.holds K := by
  cases th with
  | idle => exact h.elim
  | select id cases timeout pc => exact h.elim
  | direct id d op pc =>
    cases pc with
    | serve k st =>
      obtain ⟨rfl, -⟩ := h
      exact List.mem_singleton.2 rfl
    | _ => exact h.elim

theorem Thread.Helps.held {th : Thread C α} (h : th.Helps c) : c ∈ th.holds K := by
  cases th with
  | idle => exact h.elim
  | select id cases timeout pc =>
    cases pc with
    | exec i st =>
      cases st with
      | helpClaim =>
        obtain ⟨k, hk, rfl, -⟩ := h
        exact SelPc.mem_locks hk
      | helpRing w p =>
        obtain ⟨⟨k, hk, rfl⟩, -⟩ := h
        exact SelPc.mem_locks hk
      | _ => exact h.elim
    | _ => exact h.elim
  | direct id d op pc =>
    cases pc with
    | helpClaim =>
      obtain rfl : d = c := h
      exact List.mem_singleton.2 rfl
    | helpRing w p =>
      obtain ⟨rfl, -⟩ := h
      exact List.mem_singleton.2 rfl
    | _ => exact h.elim

/-- Who looks after a queue holds the lock or comes for it. -/
theorem Thread.Owes.comes_or_held {th : Thread C α} (h : th.Owes c o) :
    th.Comes c o ∨ c ∈ th.holds K := by
  rcases h with hcomes | htends | ⟨-, hhelps⟩
  · exact Or.inl hcomes
  · exact Or.inr htends.held
  · exact Or.inr hhelps.held

/-- To a thread with the lock that owes nothing itself, the others come. -/
theorem AttendInv.coming (h : AttendInv K c s) (hl : LockInv K s) (hheld : c ∈ (s.thread t).holds K)
    (hnot : ¬ (s.thread t).Owes c o) (hasleep : s.Asleep c o) :
    s.Coming c o ∨ s.room K c o = 0 := by
  rcases h.owed o hasleep with ⟨v, hv⟩ | hzero
  · rcases hv.comes_or_held with hcomes | hheld'
    · exact Or.inl ⟨v, hcomes⟩
    · obtain rfl := hl.holds_inj hheld hheld'
      exact absurd hv hnot
  · exact Or.inr hzero

end Verdicts

/-- A step of `t` together with what is known of the state it is made in. -/
structure Sys.GoodMove [DecidableEq T] [DecidableEq C] (K : Config T C) (c : C) (s : Sys T C α) (t : T)
    (alt : Bool) (d : C) (e : Effect α) (th : Thread C α) : Prop where
  sound : Sound K s
  count : CountInv s
  apart : ApartInv c s
  good : s.RingSound K c
  good' : (s.move K t d e th).RingSound K c
  cap : (K.chan c).capacity ≠ 0
  spsc : (K.chan c).spsc = false
  timely : ∀ p, (s.thread t).ring? = some (c, p) → (s.mem.chan c).hist.Timely t p
  gate : (s.thread t).gateOk c s.mem = true
  next : (s.thread t).Next K s.mem d th e
  acts : s.Acts K t alt d e th

section Moves

variable [DecidableEq T] [DecidableEq C] {K : Config T C} {s s' : Sys T C α} {l : Label T C α}
  {t u : T} {alt : Bool} {c d : C} {e : Effect α} {th : Thread C α} {o : ChanOp} {w : Wid} {n : Nat}
  {a : U32} {p p' : RingPc Wid α} {res : RingRes α}

theorem Sys.GoodMove.not_spsc (m : s.GoodMove K c t alt d e th) (hc : c = d) (x : SpscPc Wid α) :
    e ≠ .spsc x := by
  rintro rfl
  subst hc
  cases m.spsc.symm.trans (m.acts.spsc (m.sound.ok t))

theorem Sys.GoodMove.extends (m : s.GoodMove K c t alt d e th) :
    Extends (s.mem.chan c).hist ((s.move K t d e th).mem.chan c).hist :=
  m.acts.extends_hist (m.sound.ok t) m.not_spsc

/-- Room grows by commits of the other half only. -/
theorem Sys.GoodMove.room_le (m : s.GoodMove K c t alt d e th)
    (hno : ¬ (s.mem.chan c).hist.committed o.other <
      ((s.move K t d e th).mem.chan c).hist.committed o.other) :
    (s.move K t d e th).room K c o ≤ s.room K c o :=
  RingGhost.room_le (m.extends.reserved_le o) (not_lt.1 hno)

/-- A thread in an operation of half `o` does not make room for that half. -/
theorem Sys.GoodMove.no_commit (m : s.GoodMove K c t alt d e th)
    (hside : ∀ p, (s.thread t).ring? = some (c, p) → p.op.side = o) :
    ¬ (s.mem.chan c).hist.committed o.other <
      ((s.move K t d e th).mem.chan c).hist.committed o.other := by
  rcases m.acts.hist_cases (m.sound.ok t) m.not_spsc with heq | ⟨p, -, -, hring, heq⟩
  · rw [heq]
    exact Nat.lt_irrefl _
  · have hne : p.op.side ≠ o.other := by
      rw [hside p hring]
      cases o <;> decide
    rw [heq, (cursors_step_of_side _ _ _ _ _ _ hne).2]
    exact Nat.lt_irrefl _

theorem Sys.GoodMove.locked (m : s.GoodMove K c t alt d e th) {v : T}
    (hheld : c ∈ (s.thread v).holds K) : (s.mem.chan c).lock ≠ none := by
  rw [(m.sound.locks.lock c v).2 hheld]
  exact Option.some_ne_none v

theorem Sys.GoodMove.coming (m : s.GoodMove K c t alt d e th) {v : T}
    (hheld : c ∈ (s.thread v).holds K) (hawait : s.Awaited c o) (h : s.Coming c o) :
    (s.move K t d e th).Coming c o :=
  h.move m.count hawait (m.locked hheld) m.acts

theorem Sys.GoodMove.asleep (m : s.GoodMove K c t alt d e th) (hfree : c ∉ (s.thread t).holds K)
    (h : (s.move K t d e th).Asleep c o) : s.Asleep c o := by
  rcases Sys.asleep_of_move m.sound m.cap m.next m.acts h with hold | ⟨id, op, p, res, hth, -⟩
  · exact hold
  · exact absurd (Sys.held_of_locked hth rfl) hfree

theorem Sys.GoodMove.alert (m : s.GoodMove K c t alt d e th) {v : T} (hheld : c ∈ (s.thread v).holds K)
    (hfree : c ∉ (s.thread t).holds K) (h : s.Alert c o n) : (s.move K t d e th).Alert c o n :=
  h.move m.sound m.count m.spsc m.gate (m.locked hheld) hfree m.next m.acts

theorem Sys.GoodMove.probed (m : s.GoodMove K c t alt d e th) {v : T}
    (hheld : c ∈ (s.thread v).holds K) (hfree : c ∉ (s.thread t).holds K) (h : s.Probed c o a) :
    (s.move K t d e th).Probed c o a := by
  obtain ⟨n, ha, hn, halert⟩ := h
  refine ⟨n, ha, hn.trans ?_, m.alert hheld hfree halert⟩
  cases o with
  | send => exact m.extends.reserved_le .send
  | recv => exact m.extends.committed .send

/-- What a thread with the lock has found stays true through its own step. -/
theorem Sys.GoodMove.attended (m : s.GoodMove K c t alt d e th) (hheld : c ∈ (s.thread t).holds K)
    (hawait : s.Awaited c o)
    (hno : ¬ (s.mem.chan c).hist.committed o.other <
      ((s.move K t d e th).mem.chan c).hist.committed o.other)
    (h : s.Coming c o ∨ s.room K c o = 0) : (s.move K t d e th).Attended K c o := by
  rcases h with hcoming | hzero
  · obtain ⟨v, hv⟩ := m.coming hheld hawait hcoming
    exact Or.inl ⟨v, Or.inl hv⟩
  · exact Or.inr (Nat.le_zero.1 (hzero ▸ m.room_le hno))

/-- The step of a failed ring operation. -/
theorem Sys.GoodMove.attended_of_miss (m : s.GoodMove K c t alt d e th) (h : AttendInv K c s)
    (hring : (s.thread t).ring? = some (c, p)) (hheld : c ∈ (s.thread t).holds K)
    (hp : s.mem.access K c alt p = .inr res) (hres : res.moved = 0) (hside : p.op.side = o)
    (hawait : s.Awaited c o) : (s.move K t d e th).Attended K c o := by
  refine m.attended hheld hawait (m.no_commit fun q hq => ?_)
    (h.of_miss m.good hring hheld (m.timely p hring) hp hres hside hawait)
  cases hring.symm.trans hq
  exact hside

/-- The reservation of a slot takes it from the room. -/
theorem Sys.GoodMove.room_of_reserve (m : s.GoodMove K c t alt d e th)
    (hring : (s.thread t).ring? = some (c, p)) (hside : p.op.side = .send) (hd : d = c)
    (he : e = .ring alt p) (hp : s.mem.access K c alt p = .inl p') (hnone : p.run = none)
    (hrun : p'.run ≠ none) (hring' : th.ring? = some (c, p')) :
    (s.move K t d e th).room K c .send ≤ s.room K c .send - 1 := by
  subst hd he
  have hhist : ((s.move K t d (.ring alt p) th).mem.chan d).hist = (s.mem.chan d).hist.step
      (K.chan d).ringCap (s.mem.chan d).ring t alt p :=
    congrArg Chan.hist (Mem.chan_apply_self K s.mem t d _)
  have hmark : ((s.move K t d (.ring alt p) th).mem.chan d).hist.mark t =
      (s.mem.chan d).hist.reserved .send := by
    rw [hhist, mark_step_of_run hp hnone hrun, hside]
  have hcom : ((s.move K t d (.ring alt p) th).mem.chan d).hist.committed .recv =
      (s.mem.chan d).hist.committed .recv := by
    rw [hhist]
    exact (cursors_step_of_side _ _ _ _ _ _ (by rw [hside]; decide)).2
  obtain ⟨⟨o', k⟩, hok⟩ := Option.ne_none_iff_exists'.1 hrun
  have hnew : ((s.move K t d (.ring alt p) th).thread t).ringOn d = some p' := by
    rw [Sys.thread_move_self]
    exact Thread.ringOn_eq_some.2 hring'
  obtain ⟨-, hhi, hpos⟩ := (m.good'.thread t _ hnew).of_run hok
  have hsame : o' = .send := by
    rw [← RingPc.side_of_run hok, ← hside]
    exact congrArg RingOp.side (RingPc.op_of_inl hp)
  rw [hsame, hmark] at hhi
  rw [Sys.room, Sys.room, RingGhost.room, RingGhost.room, hcom]
  omega

omit [DecidableEq T] in
/-- Nobody sleeps in a queue that a thread with the lock and nothing in hand has found empty. -/
theorem Sys.Asleep.queue_ne_nil (h : s.Asleep c o) (hl : LockInv K s) (hheld : c ∈ (s.thread t).holds K)
    (hhand : (s.thread t).hand = none) : (s.mem.chan c).queue o ≠ [] := by
  obtain ⟨u, id, op, pc, -, -, -, hpresent⟩ := h
  exact List.ne_nil_of_mem (hpresent.mem_queue hl hheld hhand)

omit [DecidableEq T] [DecidableEq C] in
/-- A push that has not reserved its slot ends by a failure only. -/
theorem RingPc.moved_of_run {m : Mem T C α} (hp : m.access K c alt p = .inr res) (hrun : p.run = none) :
    res.moved = 0 := by
  cases p with
  | loadHead op => cases hp
  | loadOpp op b =>
    simp only [Mem.access, Ring.step] at hp
    split at hp
    · cases hp
      rfl
    · cases hp
  | cas op b k =>
    simp only [Mem.access, Ring.step] at hp
    split at hp <;> cases hp
  | copy op b k i acc | wait op b k acc | store op b k acc => cases hrun

/-- The own steps of a direct call that looks after a queue. -/
theorem AttendInv.owed_direct (h : AttendInv K c s) {id : Nat} {op : Op α} {pc pc' : Pc α}
    (m : s.GoodMove K c t alt d e (.direct id d op pc')) (hth : s.thread t = .direct id d op pc)
    (hflow : Pc.Flow K s.mem id d op alt pc e pc') (howes : (s.thread t).Owes c o)
    (hasleep : s.Asleep c o)
    (hno : ¬ (s.mem.chan c).hist.committed o.other <
      ((s.move K t d e (.direct id d op pc')).mem.chan c).hist.committed o.other) :
    (s.move K t d e (.direct id d op pc')).Attended K c o := by
  have hawait := hasleep.awaited
  have hok := m.sound.direct_ok hth
  have hself : (Thread.direct id d op pc').Owes c o →
      (s.move K t d e (.direct id d op pc')).Attended K c o := by
    intro hnew
    refine Or.inl ⟨t, ?_⟩
    rwa [Sys.thread_move_self]
  have hempty : pc.hand d op = none → pc.locked = true → d = c → (s.mem.chan c).queue o = [] → False := by
    rintro hhand hlock rfl hqueue
    refine hasleep.queue_ne_nil (t := t) m.sound.locks (Sys.held_of_locked hth hlock) ?_ hqueue
    rw [hth]
    exact hhand
  rw [hth] at howes
  cases pc with
  | fastAfter r =>
    obtain ⟨rfl, hside⟩ := howes.resolve_right (by rintro (hnot | ⟨-, hnot⟩) <;> exact hnot.elim)
    cases hflow with
    | afterServe hcnt => exact hself (Or.inl ⟨rfl, hside⟩)
    | afterRet hcnt =>
      rw [hside, ChanOp.other_other] at hcnt
      exact absurd hawait (m.count.cnt_eq_zero.1 hcnt)
  | serveLock r =>
    obtain ⟨rfl, hside⟩ := howes.resolve_right (by rintro (hnot | ⟨-, hnot⟩) <;> exact hnot.elim)
    cases hflow with
    | serveLock hfree => exact hself (Or.inr (Or.inl ⟨rfl, hside, rfl⟩))
  | serve k st =>
    obtain ⟨rfl, hside, hlive⟩ : (Thread.direct id d op (.serve k st)).Tends c o := by
      rcases howes with hnot | htends | ⟨-, hnot⟩
      · exact hnot.elim
      · exact htends
      · exact hnot.elim
    have hheld : d ∈ (s.thread t).holds K := Sys.held_of_locked hth rfl
    have hother : op.side.other = o := by rw [hside, ChanOp.other_other]
    have hstop : ∀ {a}, st = .second a → probeStops (K.chan d).ringCap a
        (probeSecond (s.mem.chan d).ring op.side.other) op.side.other = true →
        (s.move K t d e (.direct id d op pc')).Attended K d o := by
      rintro a rfl hstop
      have hprobe := h.probe t id op k a hth
      rw [hother] at hprobe hstop
      exact m.attended hheld hawait hno (hprobe.stops m.good hawait hstop)
    cases hflow with
    | serveFirst => exact hself (Or.inr (Or.inl ⟨rfl, hside, rfl⟩))
    | serveStop hverdict => exact hstop rfl hverdict
    | serveStopBlock hverdict hblock => exact hstop rfl hverdict
    | serveGo hgo => exact hself (Or.inr (Or.inl ⟨rfl, hside, rfl⟩))
    | serveEmpty hqueue => exact (hempty rfl rfl rfl (hother ▸ hqueue)).elim
    | serveEmptyBlock hqueue hblock => exact (hempty rfl rfl rfl (hother ▸ hqueue)).elim
    | serveClaim hqueue hclaim hrop | serveDrop hqueue hclaim | serveIn hp | serveHit hp hres =>
      exact hself (Or.inr (Or.inl ⟨rfl, hside, rfl⟩))
    | @serveMiss k w p res hp hres =>
      refine m.attended_of_miss h (p := p) (by rw [hth]; rfl) hheld hp hres ?_ hawait
      exact hok.2.2.1.side.trans hother
    | servePutBack => cases hlive
    | servePutBackBlock hblock => cases hlive
    | serveSettle => exact hself (Or.inr (Or.inl ⟨rfl, hside, rfl⟩))
    | serveWake => exact hself (Or.inr (Or.inl ⟨rfl, hside, rfl⟩))
  | helpClaim =>
    obtain ⟨rfl, rfl⟩ : o = .send ∧ d = c := by
      rcases howes with hnot | hnot | ⟨ho, hhelps⟩
      · exact hnot.elim
      · exact hnot.elim
      · exact ⟨ho, hhelps⟩
    cases hflow with
    | helpEmpty hqueue => exact (hempty rfl rfl rfl hqueue).elim
    | helpClaim hqueue hclaim hrop => exact hself (Or.inr (Or.inr ⟨rfl, rfl, rfl⟩))
    | helpDrop hqueue hclaim => exact hself (Or.inr (Or.inr ⟨rfl, rfl⟩))
  | helpRing w p =>
    obtain ⟨rfl, rfl, hrun⟩ : o = .send ∧ d = c ∧ p.run = none := by
      rcases howes with hnot | hnot | ⟨ho, hhelps⟩
      · exact hnot.elim
      · exact hnot.elim
      · exact ⟨ho, hhelps⟩
    have hheld : d ∈ (s.thread t).holds K := Sys.held_of_locked hth rfl
    have hside : p.op.side = .send := hok.2.2.2.1.side
    have hring : (s.thread t).ring? = some (d, p) := by
      rw [hth]
      rfl
    cases hflow with
    | @helpIn w p p' hp =>
      by_cases hrun' : p'.run = none
      · exact hself (Or.inr (Or.inr ⟨rfl, rfl, hrun'⟩))
      · -- the slot is reserved: at most the one the receiver has freed was there
        have hhelps : (s.thread t).Helps d := by
          rw [hth]
          exact ⟨rfl, hrun⟩
        have hless := m.room_of_reserve hring hside rfl rfl hp hrun hrun' rfl
        rcases h.help t hhelps hasleep with hcoming | hone
        · exact m.attended hheld hawait hno (Or.inl hcoming)
        · exact Or.inr (by omega)
    | helpHit hp hres => exact absurd (RingPc.moved_of_run hp hrun) hres
    | helpMiss hp hres => exact m.attended_of_miss h hring hheld hp hres hside hawait
  | _ => rcases howes with hnot | hnot | ⟨-, hnot⟩ <;> exact hnot.elim

/-- The own steps of a receive case that looks after the senders. -/
theorem AttendInv.owed_select (h : AttendInv K c s) {id : Nat} {cases : List (Case C α)} {timeout : Int}
    {pc pc' : SelPc C α} (m : s.GoodMove K c t alt d e (.select id cases timeout pc'))
    (hth : s.thread t = .select id cases timeout pc)
    (hflow : SelPc.Flow K s.mem t id cases timeout alt pc d e pc') (howes : (s.thread t).Owes c o)
    (hasleep : s.Asleep c o)
    (hno : ¬ (s.mem.chan c).hist.committed o.other <
      ((s.move K t d e (.select id cases timeout pc')).mem.chan c).hist.committed o.other) :
    (s.move K t d e (.select id cases timeout pc')).Attended K c o := by
  have hawait := hasleep.awaited
  have hhelps : (s.thread t).Helps c := by
    rw [hth] at howes ⊢
    rcases howes with hnot | hnot | ⟨-, hhelps⟩
    · exact hnot.elim
    · exact hnot.elim
    · exact hhelps
  obtain rfl : o = .send := by
    rw [hth] at howes
    rcases howes with hnot | hnot | ⟨ho, -⟩
    · exact hnot.elim
    · exact hnot.elim
    · exact ho
  have hheld : c ∈ (s.thread t).holds K := hhelps.held
  have hself : (Thread.select id cases timeout pc').Helps c →
      (s.move K t d e (.select id cases timeout pc')).Attended K c .send := by
    intro hnew
    refine Or.inl ⟨t, Or.inr (Or.inr ⟨rfl, ?_⟩)⟩
    rwa [Sys.thread_move_self]
  have hhelps' := hhelps
  rw [hth] at hhelps'
  have hok := m.sound.select_ok hth
  cases pc with
  | exec i st =>
    cases st with
    | helpClaim =>
      obtain ⟨k, hk, rfl, hop⟩ := hhelps'
      cases hflow with
      | execGo hk' hexec =>
        cases hk.symm.trans hk'
        cases hexec with
        | helpSend hop' => cases hop.symm.trans hop'
        | helpRecv _ hqueue hclaim hrop => exact hself ⟨⟨k, hk, rfl⟩, rfl⟩
        | helpDrop hqueue hclaim => exact hself ⟨k, hk, rfl, hop⟩
      | execDone hk' hexec =>
        cases hk.symm.trans hk'
        cases hexec with
        | helpEmpty hqueue =>
          rw [hop] at hqueue
          refine absurd hqueue (hasleep.queue_ne_nil (t := t) m.sound.locks hheld ?_)
          rw [hth, Thread.hand, SelPc.hand, hk]
          rfl
    | helpRing w p =>
      obtain ⟨⟨k, hk, rfl⟩, hrun⟩ := hhelps'
      obtain ⟨k', hk', hst⟩ := hok
      cases hk.symm.trans hk'
      have hside : p.op.side = .send := hst.2.2.1.side
      have hring : (s.thread t).ring? = some (k.chan, p) := by
        rw [hth]
        exact SelPc.ring_exec hk _
      cases hflow with
      | execGo hk' hexec =>
        cases hk.symm.trans hk'
        cases hexec with
        | @helpIn w p p' hp =>
          by_cases hrun' : p'.run = none
          · exact hself ⟨⟨k, hk, rfl⟩, hrun'⟩
          · have hless := m.room_of_reserve hring hside rfl rfl hp hrun hrun' (SelPc.ring_exec hk _)
            rcases h.help t hhelps hasleep with hcoming | hone
            · exact m.attended hheld hawait hno (Or.inl hcoming)
            · exact Or.inr (by omega)
        | helpOut hp =>
          exact m.attended_of_miss h hring hheld hp (RingPc.moved_of_run hp hrun) hside hawait
      | execDone hk' hexec => cases hexec
    | _ => exact hhelps'.elim
  | _ => exact hhelps'.elim

/-- A step leaves nobody asleep unattended. -/
theorem AttendInv.owed_move (h : AttendInv K c s) (m : s.GoodMove K c t alt d e th)
    (hasleep' : (s.move K t d e th).Asleep c o) : (s.move K t d e th).Attended K c o := by
  rcases Sys.asleep_of_move m.sound m.cap m.next m.acts hasleep' with
    hasleep | ⟨id, op, p, res, hth, hside, -, hp, hres⟩
  · have hawait := hasleep.awaited
    by_cases hadv : (s.mem.chan c).hist.committed o.other <
        ((s.move K t d e th).mem.chan c).hist.committed o.other
    · cases m.acts.committed m.sound m.spsc m.gate hadv with
      | comes hcomes =>
        refine Or.inl ⟨t, Or.inl ?_⟩
        rwa [Sys.thread_move_self]
      | gate hnone => exact absurd hawait (m.count.cnt_eq_zero.1 hnone)
      | tends hheld htends =>
        refine Or.inl ⟨t, Or.inr (Or.inl ?_)⟩
        rwa [Sys.thread_move_self]
      | helps hheld ho hhelps =>
        refine Or.inl ⟨t, Or.inr (Or.inr ⟨ho, ?_⟩)⟩
        rwa [Sys.thread_move_self]
      | met hheld hpresent =>
        -- nobody waits on the side that the element was moved for
        obtain ⟨u, id, op, pc, hth, rfl, -, hown⟩ := hasleep
        exact absurd hpresent (m.apart.lone u id op pc hth hown _)
      | exec hheld hth hk hc hop ho =>
        subst ho
        obtain ⟨v, hv⟩ := m.coming hheld hawait (h.look _ _ _ _ _ _ _ hth hk hc hop hasleep)
        exact Or.inl ⟨v, Or.inl hv⟩
    · rcases h.owed o hasleep with ⟨v, hv⟩ | hzero
      · by_cases hvt : v = t
        · subst hvt
          cases m.acts with
          | direct hth hact => exact h.owed_direct m hth (Pc.flow_of_act hact) hv hasleep hadv
          | select hth hact => exact h.owed_select m hth (SelPc.flow_of_act hact) hv hasleep hadv
        · refine Or.inl ⟨v, ?_⟩
          rwa [Sys.thread_move_of_ne hvt]
      · exact Or.inr (Nat.le_zero.1 (hzero ▸ m.room_le hadv))
  · -- the second look of a new waiter has failed
    have hok := m.sound.direct_ok hth
    refine m.attended_of_miss h (p := p) (by rw [hth]; rfl) (Sys.held_of_locked hth rfl) hp hres ?_
      ⟨t, ⟨id, 0⟩, ?_⟩
    · rw [hok.2.2.1, Op.side_ringOp hok.1, hside]
    · rw [hth]
      exact ⟨rfl, hside.symm, rfl, rfl⟩

/-! ### The helping receiver -/

/-- A step of an operation on a single element makes room for one. -/
theorem Sys.GoodMove.room_le_succ (m : s.GoodMove K c t alt d e th)
    (hring : (s.thread t).ring? = some (c, p)) (hwant : p.op.want = 1) :
    (s.move K t d e th).room K c .send ≤ s.room K c .send + 1 := by
  have hres := m.extends.reserved_le .send
  have hcom : ((s.move K t d e th).mem.chan c).hist.committed .recv ≤
      (s.mem.chan c).hist.committed .recv + 1 := by
    by_contra hnot
    have hadv : (s.mem.chan c).hist.committed .recv <
        ((s.move K t d e th).mem.chan c).hist.committed .recv := by omega
    rcases m.acts.hist_cases (m.sound.ok t) m.not_spsc with heq | ⟨q, -, -, hring', heq⟩
    · rw [heq] at hadv
      exact Nat.lt_irrefl _ hadv
    · cases hring.symm.trans hring'
      rw [heq] at hadv hnot
      obtain ⟨op, b, k, acc, rfl, -, hcom⟩ := committed_step hadv
      obtain ⟨-, hrun, -⟩ := m.good.thread t _ (Thread.ringOn_eq_some.2 hring)
      have hle := hrun.le_want
      have hwant : op.want = 1 := hwant
      omega
  rw [Sys.room, Sys.room, RingGhost.room, RingGhost.room]
  omega

omit [DecidableEq T] in
/-- A helping receiver pushes. -/
theorem Thread.Helps.side (h : (s.thread t).Helps c) (hs : Sound K s)
    (hring : (s.thread t).ring? = some (d, p)) : p.op.side = .send := by
  cases hth : s.thread t with
  | idle =>
    rw [hth] at h
    exact h.elim
  | direct id c' op pc =>
    have hok := hs.direct_ok hth
    rw [hth] at h hring
    cases pc with
    | helpClaim => cases hring
    | helpRing w q =>
      cases hring
      exact hok.2.2.2.1.side
    | _ => exact h.elim
  | select id cases timeout pc =>
    have hok := hs.select_ok hth
    rw [hth] at h hring
    cases pc with
    | exec i st =>
      cases st with
      | helpClaim =>
        obtain ⟨k, hk, -⟩ := h
        rw [Thread.ring?, SelPc.ring_exec hk] at hring
        cases hring
      | helpRing w q =>
        obtain ⟨⟨k, hk, -⟩, -⟩ := h
        obtain ⟨k', hk', hst⟩ := hok
        cases hk.symm.trans hk'
        rw [Thread.ring?, SelPc.ring_exec hk] at hring
        cases hring
        exact hst.2.2.1.side
      | _ => exact h.elim
    | _ => exact h.elim

/-- A receiver starts to help when it has popped under the lock. -/
theorem Sys.GoodMove.helps (m : s.GoodMove K c t alt d e th) (h : th.Helps c) :
    (s.thread t).Helps c ∨ c ∈ (s.thread t).holds K ∧ (∀ o, ¬ (s.thread t).Owes c o) ∧
      ∃ p, (s.thread t).ring? = some (c, p) ∧ p.op.want = 1 := by
  have hs := m.sound
  cases m.acts with
  | @direct id d op pc pc' e hth hact =>
    have hok := hs.direct_ok hth
    rw [hth]
    cases Pc.flow_of_act hact with
    | @slowRecvHit p res hp hres hop =>
      obtain rfl : d = c := h
      refine Or.inr ⟨List.mem_singleton.2 rfl, ?_, p, rfl, ?_⟩
      · rintro o (hnot | hnot | ⟨-, hnot⟩) <;> exact hnot.elim
      · rw [hok.2.2.1, Op.want_ringOp]
    | helpClaim hqueue hclaim hrop => exact Or.inl h.1
    | helpDrop hqueue hclaim => exact Or.inl h
    | helpIn hp => exact Or.inl ⟨h.1, (cursors_step_of_run (s.mem.chan d).hist _ _ t _ _ hp h.2).1⟩
    | serveStopBlock _ hblock | serveEmptyBlock _ hblock | servePutBackBlock hblock
    | meetEmptySend _ _ hblock | emptyOpen _ hblock => cases hblock <;> exact h.elim
    | _ => exact h.elim
  | @select id cases timeout pc pc' d dummy e hth hact =>
    have hok := hs.select_ok hth
    rw [hth]
    cases pc' with
    | exec i st' =>
      obtain ⟨k, hk, rfl, rfl | ⟨st, rfl, hexec⟩⟩ := SelPc.exec_of_flow (SelPc.flow_of_act hact)
      · rcases SelPc.execFrom_cases (K := K) s.mem ⟨id, i⟩ k with heq | heq | heq
        all_goals
          rw [heq] at h
          exact h.elim
      · obtain ⟨k', hk', hst⟩ := hok
        cases hk.symm.trans hk'
        cases hexec with
        | @ringOut p res hp =>
          obtain ⟨k', hk', rfl, hop⟩ := h
          cases hk.symm.trans hk'
          refine Or.inr ⟨SelPc.mem_locks hk, ?_, p, SelPc.ring_exec hk _, ?_⟩
          · rintro o (hnot | hnot | ⟨-, hnot⟩) <;> exact hnot.elim
          · rw [hst.2.1, Case.ringOp]
            cases k.elem <;> rfl
        | helpRecv hop hqueue hclaim hrop =>
          obtain ⟨⟨k', hk', hc⟩, -⟩ := h
          cases hk.symm.trans hk'
          exact Or.inl ⟨k, hk, hc, hop⟩
        | helpDrop hqueue hclaim => exact Or.inl h
        | helpIn hp => exact Or.inl ⟨h.1, (cursors_step_of_run (s.mem.chan k.chan).hist _ _ t _ _ hp h.2).1⟩
        | _ => exact h.elim
    | _ => exact h.elim

theorem AttendInv.help_move (h : AttendInv K c s) (m : s.GoodMove K c t alt d e th)
    (hhelps : ((s.move K t d e th).thread u).Helps c)
    (hasleep' : (s.move K t d e th).Asleep c .send) :
    (s.move K t d e th).Coming c .send ∨ (s.move K t d e th).room K c .send ≤ 1 := by
  by_cases hut : u = t
  · subst hut
    rw [Sys.thread_move_self] at hhelps
    rcases Sys.asleep_of_move m.sound m.cap m.next m.acts hasleep' with
      hasleep | ⟨id, op, p, res, hth, -⟩
    · rcases m.helps hhelps with hold | ⟨hheld, hnot, p, hring, hwant⟩
      · have hno := m.no_commit fun q hq => hold.side m.sound hq
        refine (h.help u hold hasleep).imp (m.coming hold.held hasleep.awaited) ?_
        exact (m.room_le hno).trans
      · -- before the pop there was no room, or somebody comes
        refine (h.coming m.sound.locks hheld (hnot .send) hasleep).imp
          (m.coming hheld hasleep.awaited) fun hzero => ?_
        have hsucc := m.room_le_succ hring hwant
        omega
    · rcases m.helps hhelps with hold | ⟨-, -, q, hring, -⟩
      · rw [hth] at hold
        exact hold.elim
      · -- a waiter that looks for the second time does not help
        cases m.acts with
        | select hth' hact => cases hth.symm.trans hth'
        | direct hth' hact =>
          cases hth.symm.trans hth'
          cases Pc.flow_of_act hact <;> exact hhelps.elim
  · rw [Sys.thread_move_of_ne hut] at hhelps
    have hheld : c ∈ (s.thread u).holds K := hhelps.held
    have hfree : c ∉ (s.thread t).holds K := fun hheld' => hut (m.sound.locks.holds_inj hheld hheld')
    have hasleep := m.asleep hfree hasleep'
    by_cases hadv : (s.mem.chan c).hist.committed (ChanOp.other .send) <
        ((s.move K t d e th).mem.chan c).hist.committed (ChanOp.other .send)
    · exact Or.inl ((m.acts.committed m.sound m.spsc m.gate hadv).coming m.count hasleep.awaited hfree)
    · exact (h.help u hhelps hasleep).imp (m.coming hheld hasleep.awaited) (m.room_le hadv).trans

/-! ### What is known under the lock -/

theorem AttendInv.probe_move (h : AttendInv K c s) (m : s.GoodMove K c t alt d e th) {id : Nat}
    {op : Op α} {k : ServeEnd}
    (hth : (s.move K t d e th).thread u = .direct id c op (.serve k (.second a))) :
    (s.move K t d e th).Probed c op.side.other a := by
  by_cases hut : u = t
  · subst hut
    rw [Sys.thread_move_self] at hth
    subst hth
    have hgood' := m.good'
    cases m.acts with
    | direct hth hact =>
      generalize hpc' : Pc.serve k (.second a) = pc' at hact
      cases Pc.flow_of_act hact with
      | serveFirst =>
        cases hpc'
        have hring : ((s.move K u c .none (.direct id c op (.serve k (.second
            (probeFirst (s.mem.chan c).ring op.side.other))))).mem.chan c).ring = (s.mem.chan c).ring :=
          congrArg Chan.ring (Mem.chan_apply_self K s.mem u c _)
        have hfirst := Sys.probed_first hgood' (o := op.side.other)
        rw [hring] at hfirst
        exact hfirst
      | serveStopBlock _ hblock | serveEmptyBlock _ hblock | servePutBackBlock hblock
      | meetEmptySend _ _ hblock | emptyOpen _ hblock => cases hblock <;> cases hpc'
      | _ => cases hpc'
  · rw [Sys.thread_move_of_ne hut] at hth
    have hheld : c ∈ (s.thread u).holds K := Sys.held_of_locked hth rfl
    have hfree : c ∉ (s.thread t).holds K := fun hheld' => hut (m.sound.locks.holds_inj hheld hheld')
    exact m.probed hheld hfree (h.probe u id op k a hth)

theorem AttendInv.push_move (h : AttendInv K c s) (m : s.GoodMove K c t alt d e th)
    (hring' : ((s.move K t d e th).thread u).ring? = some (c, p')) (hside : p'.op.side = .send)
    (hcheck : p'.Checking) (hheld' : c ∈ ((s.move K t d e th).thread u).holds K) :
    (s.move K t d e th).Alert c .send (((s.move K t d e th).mem.chan c).hist.mark u) := by
  by_cases hut : u = t
  · subst hut
    rw [Sys.thread_move_self] at hring' hheld'
    cases m.acts.ring (m.sound.ok u) with
    | @inside p q hring hp hq =>
      cases hq.symm.trans hring'
      have hhist : ((s.move K u c (.ring alt p) th).mem.chan c).hist = (s.mem.chan c).hist.step
          (K.chan c).ringCap (s.mem.chan c).ring u alt p :=
        congrArg Chan.hist (Mem.chan_apply_self K s.mem u c _)
      have hop : p.op.side = .send := by rw [← RingPc.op_of_inl hp, hside]
      have hno := m.no_commit (o := .send) fun q hq => by
        cases hring.symm.trans hq
        exact hop
      intro hawait' hlt
      have hlt := hlt.trans_le (not_lt.1 hno)
      rw [hhist] at hlt
      rcases checking_step (s.mem.chan c).hist (K.chan c).ringCap (s.mem.chan c).ring u alt p hp hcheck with
        ⟨op, rfl, hmark⟩ | ⟨hcheck', hmark⟩
      · -- the head that was just loaded is not behind the consumers
        have hside : op.side = .send := hop
        rw [hmark, hside] at hlt
        have h1 := m.good.ordered.cons_le
        have h2 := m.good.ordered.cons_le_prod
        have h3 := m.good.ordered.prod_le
        have hlt : (s.mem.chan c).hist.reserved .send < (s.mem.chan c).hist.committed .recv := hlt
        omega
      · rw [hmark] at hlt
        have hheld : c ∈ (s.thread u).holds K := by
          rcases m.next.move.locks (t := u) with ⟨-, hsame⟩ | ⟨he, -⟩ | ⟨he, -⟩
          · rwa [← hsame]
          · cases he
          · cases he
        have hawait := Sys.awaited_of_move m.acts (fun _ => rfl) hawait'
        exact m.coming hheld hawait (h.push u p hring hop hcheck' hheld hawait hlt)
    | last hring hp hnone => cases hnone.symm.trans hring'
    | start hnone he hv hstart =>
      cases hstart.symm.trans hring'
      exact hcheck.elim
    | away hnone he hnone' => cases hnone'.symm.trans hring'
  · rw [Sys.thread_move_of_ne hut] at hring' hheld'
    have hfree : c ∉ (s.thread t).holds K := fun hheld => hut (m.sound.locks.holds_inj hheld' hheld)
    rw [(m.acts.extends (m.sound.ok t) m.spsc).2 u hut]
    exact m.alert hheld' hfree (h.push u p' hring' hside hcheck hheld')

omit [DecidableEq T] in
theorem SelPc.before_exec {id i : Nat} {cases : List (Case C α)} {timeout : Int} {m : Mem T C α}
    {pc : SelPc C α} {st : ExecPc α}
    (hflow : SelPc.Flow K m t id cases timeout alt pc d e (.exec i st)) :
    (∃ rdy, pc = .pick rdy) ∨ ∃ st₀, pc = .exec i st₀ := by
  generalize hpc' : SelPc.exec i st = pc' at hflow
  cases hflow with
  | pick hk hmem he hst => exact Or.inl ⟨_, rfl⟩
  | execGo hk hexec =>
    cases hpc'
    exact Or.inr ⟨_, rfl⟩
  | fast1Skip hk hst | fast2Start hst | fast2Skip hk hcnt hst | fast2Miss hk hp hres hst =>
    cases hst <;> cases hpc'
  | pass hpass | readyNot hk hpass | readySend hk hop hopen hpass | readyShut hk hop hclosed hpass
  | readyYes hk hst hpass => cases hpass <;> cases hpc'
  | _ => cases hpc'

/-- The steps of the others keep what a locked case sees. -/
theorem ExecPc.Sees.other {st : ExecPc α} {k : Case C α} (h : st.Sees s c k)
    (m : s.GoodMove K c t alt d e th) (hheld : c ∈ (s.thread u).holds K)
    (hfree : c ∉ (s.thread t).holds K) : st.Sees (s.move K t d e th) c k := by
  cases st with
  | second a => exact m.probed hheld hfree h
  | ring p =>
    intro hop hasleep'
    have hasleep := m.asleep hfree hasleep'
    exact m.coming hheld hasleep.awaited (h hop hasleep)
  | _ => trivial

/-- The own steps of a locked case. -/
theorem AttendInv.look_own (h : AttendInv K c s) {id i : Nat} {cases : List (Case C α)} {timeout : Int}
    {st st' : ExecPc α} {k : Case C α}
    (m : s.GoodMove K c t alt k.chan e (.select id cases timeout (.exec i st')))
    (hth : s.thread t = .select id cases timeout (.exec i st)) (hk : cases[i]? = some k)
    (hc : k.chan = c) (hexec : SelPc.ExecFlow K s.mem k ⟨id, i⟩ alt st e (.inl st')) :
    st'.Sees (s.move K t k.chan e (.select id cases timeout (.exec i st'))) c k := by
  subst hc
  have hheld : k.chan ∈ (s.thread t).holds K := Sys.held_of_exec hth hk
  have hold : (s.move K t k.chan e (.select id cases timeout (.exec i st'))).Asleep k.chan .recv →
      s.Asleep k.chan .recv := by
    intro hasleep'
    rcases Sys.asleep_of_move m.sound m.cap m.next m.acts hasleep' with hold | ⟨id', op, p, res, hth', -⟩
    · exact hold
    · cases hth.symm.trans hth'
  have hsees := h.look t id cases timeout i st k hth hk rfl
  cases hexec with
  | first =>
    have hring : ((s.move K t k.chan .none (.select id cases timeout (.exec i (.second
        (probeFirst (s.mem.chan k.chan).ring .recv))))).mem.chan k.chan).ring =
          (s.mem.chan k.chan).ring :=
      congrArg Chan.ring (Mem.chan_apply_self K s.mem t k.chan _)
    have hfirst := Sys.probed_first m.good' (o := .recv)
    rw [hring] at hfirst
    exact hfirst
  | go hgo =>
    intro hop hasleep'
    have hasleep := hold hasleep'
    have hnot : ¬ (s.thread t).Owes k.chan .recv := by
      rw [hth]
      rintro (hnot | hnot | ⟨-, hnot⟩) <;> exact hnot.elim
    refine m.coming hheld hasleep.awaited ?_
    rcases hsees.goes m.good hasleep.awaited hgo with hcoming | hroom
    · exact hcoming
    · exact (h.coming m.sound.locks hheld hnot hasleep).resolve_right hroom.ne'
  | emptySendRing hqueue hop hcap =>
    intro _ hasleep'
    rw [hop] at hqueue
    refine absurd hqueue ((hold hasleep').queue_ne_nil (t := t) m.sound.locks hheld ?_)
    rw [hth, Thread.hand, SelPc.hand, hk]
    rfl
  | ringIn hp =>
    intro hop hasleep'
    have hasleep := hold hasleep'
    exact m.coming hheld hasleep.awaited (hsees hop hasleep)
  | _ => trivial

/-- A send case starts with its push only if no receiver is queued. -/
theorem Sys.GoodMove.sees_pick {id i : Nat} {cases : List (Case C α)} {timeout : Int}
    {rdy : List Nat} {st : ExecPc α} {k : Case C α}
    (m : s.GoodMove K k.chan t alt k.chan e (.select id cases timeout (.exec i st)))
    (hth : s.thread t = .select id cases timeout (.pick rdy)) (hk : cases[i]? = some k)
    (hst : st = SelPc.execFrom K s.mem ⟨id, i⟩ k) :
    st.Sees (s.move K t k.chan e (.select id cases timeout (.exec i st))) k.chan k := by
  cases st with
  | second a =>
    rcases SelPc.execFrom_cases (K := K) s.mem ⟨id, i⟩ k with heq | heq | heq <;> cases hst.trans heq
  | ring p =>
    intro hop hasleep'
    rcases Sys.asleep_of_move m.sound m.cap m.next m.acts hasleep' with hasleep | ⟨_, _, _, _, hth', -⟩
    · rw [SelPc.execFrom, if_neg m.cap, hop] at hst
      dsimp only at hst
      split at hst
      · next hqueue =>
        refine absurd hqueue (hasleep.queue_ne_nil (t := t) m.sound.locks ?_ ?_)
        · rw [hth]
          exact SelPc.mem_locks hk
        · rw [hth]
          rfl
      · cases hst
    · cases hth.symm.trans hth'
  | _ => trivial

theorem AttendInv.look_move (h : AttendInv K c s) (m : s.GoodMove K c t alt d e th) {id i : Nat}
    {cases : List (Case C α)} {timeout : Int} {st : ExecPc α} {k : Case C α}
    (hth : (s.move K t d e th).thread u = .select id cases timeout (.exec i st))
    (hk : cases[i]? = some k) (hc : k.chan = c) : st.Sees (s.move K t d e th) c k := by
  by_cases hut : u = t
  · subst hut
    rw [Sys.thread_move_self] at hth
    subst hth
    cases m.acts with
    | select hth hact =>
      have hflow := SelPc.flow_of_act hact
      rcases SelPc.before_exec hflow with ⟨rdy, rfl⟩ | ⟨st₀, rfl⟩
      · cases hflow with
        | pick hk' hmem he hst =>
          cases hk.symm.trans hk'
          subst hc
          exact m.sees_pick hth hk hst
      · cases hflow with
        | execGo hk' hexec =>
          cases hk.symm.trans hk'
          exact h.look_own m hth hk hc hexec
  · rw [Sys.thread_move_of_ne hut] at hth
    have hheld : c ∈ (s.thread u).holds K := hc ▸ Sys.held_of_exec hth hk
    have hfree : c ∉ (s.thread t).holds K := fun hheld' => hut (m.sound.locks.holds_inj hheld hheld')
    exact (h.look u id cases timeout i st k hth hk hc).other m hheld hfree

theorem AttendInv.move (h : AttendInv K c s) (m : s.GoodMove K c t alt d e th) :
    AttendInv K c (s.move K t d e th) where
  owed _ hasleep := h.owed_move m hasleep
  help _ hhelps hasleep := h.help_move m hhelps hasleep
  probe _ _ _ _ _ hth := h.probe_move m hth
  push _ _ hring hside hcheck hheld := h.push_move m hring hside hcheck hheld
  look _ _ _ _ _ _ _ hth hk hc := h.look_move m hth hk hc

/-! ### Calls and returns -/

omit [DecidableEq T] in
/-- A thread that begins or ends a call changes nothing for the sleepers. -/
theorem AttendInv.congr (h : AttendInv K c s) (hchan : s'.mem.chan = s.mem.chan)
    (hother : ∀ v, v ≠ t → s'.thread v = s.thread v) (hnot : ∀ o, ¬ (s.thread t).Owes c o)
    (hreg : ∀ o w, ¬ (s'.thread t).Registered c o w) (hhand : (s'.thread t).hand = none)
    (hfree : c ∉ (s'.thread t).holds K) : AttendInv K c s' := by
  have hawait : ∀ {o}, s'.Awaited c o → s.Awaited c o := by
    rintro o ⟨v, w, hv⟩
    by_cases hvt : v = t
    · subst hvt
      exact absurd hv (hreg o w)
    · exact ⟨v, w, hother v hvt ▸ hv⟩
  have hasleep : ∀ {o}, s'.Asleep c o → s.Asleep c o := by
    rintro o ⟨v, id, op, pc, hth, hside, hpc, hpresent⟩
    have hvt : v ≠ t := by
      rintro rfl
      refine hreg o ⟨id, 0⟩ ?_
      rw [hth]
      exact ⟨rfl, hside.symm, rfl, Pc.registered_of_asleep hpc⟩
    refine ⟨v, id, op, pc, hother v hvt ▸ hth, hside, hpc, ?_⟩
    rcases hpresent with hmem | ⟨v', hv'⟩
    · exact Or.inl (hchan ▸ hmem)
    · by_cases hv't : v' = t
      · subst hv't
        cases hhand.symm.trans hv'
      · exact Or.inr ⟨v', hother v' hv't ▸ hv'⟩
  have howes : ∀ {o v}, (s.thread v).Owes c o → (s'.thread v).Owes c o := by
    intro o v hv
    have hvt : v ≠ t := by
      rintro rfl
      exact hnot o hv
    exact (hother v hvt).symm ▸ hv
  have hcoming : ∀ {o}, s.Coming c o → s'.Coming c o := by
    rintro o ⟨v, hv⟩
    have hvt : v ≠ t := by
      rintro rfl
      exact hnot o (Or.inl hv)
    exact ⟨v, (hother v hvt).symm ▸ hv⟩
  have halert : ∀ {o n}, s.Alert c o n → s'.Alert c o n := by
    intro o n halert hawait' hlt
    rw [hchan] at hlt
    exact hcoming (halert (hawait hawait') hlt)
  have hprobed : ∀ {o a}, s.Probed c o a → s'.Probed c o a := by
    rintro o a ⟨n, ha, hn, hal⟩
    exact ⟨n, ha, hchan ▸ hn, halert hal⟩
  have hroom : ∀ o, s'.room K c o = s.room K c o := by
    intro o
    rw [Sys.room, hchan]
    rfl
  -- the thread itself does not hold the lock
  have hne : ∀ {v}, c ∈ (s'.thread v).holds K → v ≠ t := by
    rintro v hv rfl
    exact hfree hv
  refine ⟨fun o hsleep => ?_, fun v hhelps hsleep => ?_, fun v id op k a hth => ?_,
    fun v p hring hside hcheck hheld => ?_, fun v id cases timeout i st k hth hk hc => ?_⟩
  · rcases h.owed o (hasleep hsleep) with ⟨v, hv⟩ | hzero
    · exact Or.inl ⟨v, howes hv⟩
    · exact Or.inr ((hroom o).trans hzero)
  · rw [hother v (hne hhelps.held)] at hhelps
    rw [hroom]
    exact (h.help v hhelps (hasleep hsleep)).imp_left hcoming
  · rw [hother v (hne (Sys.held_of_locked hth rfl))] at hth
    exact hprobed (h.probe v id op k a hth)
  · rw [hother v (hne hheld)] at hring hheld
    rw [hchan]
    exact halert (h.push v p hring hside hcheck hheld)
  · rw [hother v (hne (hc ▸ Sys.held_of_exec hth hk))] at hth
    have hsees := h.look v id cases timeout i st k hth hk hc
    cases st with
    | second a => exact hprobed hsees
    | ring p => exact fun hop hsleep => hcoming (hsees hop (hasleep hsleep))
    | _ => trivial

omit [DecidableEq T] in
theorem AttendInv.init (slots : C → U32 → α) : AttendInv K c (Sys.init slots : Sys T C α) where
  owed _ hasleep := by
    obtain ⟨t, id, op, pc, hth, -⟩ := hasleep
    cases hth
  help _ hhelps := hhelps.elim
  probe _ _ _ _ _ hth := by cases hth
  push _ _ hring := by cases hring
  look _ _ _ _ _ _ _ hth := by cases hth

omit [DecidableEq T] [DecidableEq C] in
/-- A thread that is about to return looks after nobody. -/
theorem Sys.Returns.not_owes {id : Nat} {r : Ret} {out : List (Option α)} (h : s.Returns t id r out) :
    ¬ (s.thread t).Owes c o := by
  cases h with
  | direct hth | select hth =>
    rw [hth]
    rintro (hnot | hnot | ⟨-, hnot⟩) <;> exact hnot.elim

end Moves

/-! ## Runs -/

/-- What holds in every state of a run that keeps the two conditions on channel `c`. -/
structure AttendValid [DecidableEq C] (K : Config T C) (c : C) (s : Sys T C α) : Prop extends
    Valid K s where
  count : CountInv s
  ring : s.RingSound K c
  apart : ApartInv c s
  attend : AttendInv K c s

section Runs

variable [DecidableEq T] [DecidableEq C] {K : Config T C} {s s' : Sys T C α} {l : Label T C α} {c : C}

omit [DecidableEq T] in
theorem AttendValid.init (slots : C → U32 → α) : AttendValid K c (Sys.init slots : Sys T C α) where
  toValid := .init slots
  count := .init slots
  ring := .init slots c
  apart := .init slots
  attend := .init slots

theorem AttendValid.ring_step (h : AttendValid K c s) (hspsc : (K.chan c).spsc = false)
    (htime : s.Timely l) (hstep : s.Stepped K l s') : s'.RingSound K c := by
  cases hstep with
  | call hidle => exact h.ring.startCall hidle
  | ret hdone hret => exact h.ring.finishCall hret
  | move hnext hacts =>
    refine h.ring.move (h.ok _) hacts ?_ fun p hp => htime _ hp
    rintro rfl x rfl
    cases hspsc.symm.trans (hacts.spsc (h.ok _))

theorem AttendValid.step (h : AttendValid K c s) (hcap : (K.chan c).capacity ≠ 0)
    (hspsc : (K.chan c).spsc = false) (htime : s.Timely l)
    (henroll : Sys.When (Thread.enrollOk c) s l) (hgate : Sys.When (Thread.gateOk c) s l)
    (hopen : (∃ t, (s.thread t).isSelect = true) → (s.mem.chan c).closed = false)
    (hstep : s.Stepped K l s') : AttendValid K c s' where
  toValid := h.toValid.step hstep
  count := h.count.step h.toSound (h.toValid.step hstep).toSound hstep
  ring := h.ring_step hspsc htime hstep
  apart := h.apart.step h.toValid hcap hspsc henroll hopen hstep
  attend := by
    have hring' := h.ring_step hspsc htime hstep
    cases hstep with
    | @call t k hidle =>
      have hself : (s.startCall K t k).thread t = Sys.startThread K s.next k := Sys.thread_startCall_self
      have hbegun := Sys.begun_startThread K s.next k
      refine h.attend.congr rfl (fun v hv => Sys.thread_startCall_of_ne hv) ?_ ?_ ?_ ?_
      · rw [hidle]
        rintro o (hnot | hnot | ⟨-, hnot⟩) <;> exact hnot.elim
      · rw [hself]
        exact Thread.not_registered_startThread s.next k c
      · rw [hself]
        exact hbegun.hand
      · rw [hself, hbegun.holds]
        exact List.not_mem_nil
    | @ret t alt id r out hdone hret =>
      have hself : (s.finishCall t id r out).thread t = .idle := Sys.thread_finishCall_self
      refine h.attend.congr rfl (fun v hv => Sys.thread_finishCall_of_ne hv) (fun o => hret.not_owes) ?_ ?_ ?_
      · rw [hself]
        exact fun _ _ hnot => hnot.elim
      · rw [hself]
        rfl
      · rw [hself]
        exact List.not_mem_nil
    | move hnext hacts =>
      exact h.attend.move ⟨h.toSound, h.count, h.apart, h.ring, hring', hcap, hspsc,
        fun p hp => htime _ hp, hgate, hnext, hacts⟩

end Runs

end LibChan
