import LibChan.Ring.Contents
import LibChan.Chan.TryOnly
import LibChan.Chan.Reports

/-!
# A thread that runs alone, and a lap of the ring

Calls that one thread performs while the others stand still, on an open channel on which nobody waits:
`Solo` is the state of the system inside such a call, `Did` after it. What the call does to the ring is
what the ring operation does when it runs alone, so bursts append to and take from the contents of the
ring (`exists_sendBurst`, `exists_recvBurst`), and a receive reports the element (`exists_recv`).

`exists_lap` puts such calls together: a send is stopped before its CAS while the producer cursor goes
once around its 32 bits. The CAS then succeeds on a full ring, and the element is received twice.
-/

set_option autoImplicit false

namespace LibChan

variable {T C α : Type} [DecidableEq T] [DecidableEq C]

/-- From `s₀` on, thread `t` has run alone inside its call, up to the place `pc`. -/
structure Solo (K : Config T C) (t : T) (c : C) (id : Nat) (op : Op α) (s₀ s : Sys T C α) (pc : Pc α) :
    Prop where
  run : Reaches (Sys.step K) (fun _ l => l.direct = true) s₀ s
  thread : s.thread = Function.update s₀.thread t (.direct id c op pc)
  chan : (s.mem.chan c).Deserted
  events : s.events = s₀.events
  next : s.next = s₀.next

/-- From `s` on, thread `t` has performed one call and returned. -/
structure Did (K : Config T C) (t : T) (c : C) (s s' : Sys T C α) (op : Op α) (r : Ret)
    (out : List (Option α)) : Prop where
  run : Reaches (Sys.step K) (fun _ l => l.direct = true) s s'
  thread : s'.thread = s.thread
  chan : (s'.mem.chan c).Deserted
  events : s'.events = s.events ++ [.call s.next t (.direct c op), .ret s.next t r out]
  next : s'.next = s.next + 1

/-- What a pop has copied out is in the buffer of its taker. -/
def RingPc.Popped {ω β : Type} (data : Option β) : RingPc ω β → Prop
  | copy _ _ k i acc => acc = [] ∧ k = 1 ∧ i = 0
  | wait _ _ _ acc | store _ _ _ acc => ∀ x, acc = [x] → data = some x
  | cas _ _ k => k = 1
  | _ => True

section Steps

variable {K : Config T C} {s₀ s : Sys T C α} {t : T} {c : C} {id : Nat} {op : Op α} {pc pc' : Pc α}
  {e : Effect α}

theorem Solo.step (h : Solo K t c id op s₀ s pc) (hact : pc.act K s.mem id c op false = some (e, pc'))
    (he : e.mild = true) : Solo K t c id op s₀ (s.move K t c e (.direct id c op pc')) pc' where
  run := by
    have hth : s.thread t = .direct id c op pc := by rw [h.thread, Function.update_self]
    exact h.run.tail ⟨.go t false, rfl, Sys.step_of_act hth hact⟩
  thread := by
    show Function.update s.thread t _ = _
    rw [h.thread, Function.update_idem]
  chan := by
    rw [Sys.move, Mem.chan_apply_self]
    exact h.chan.apply _ he
  events := h.events
  next := h.next

/-- A step that only reads. -/
theorem Solo.look (h : Solo K t c id op s₀ s pc)
    (hact : pc.act K s.mem id c op false = some (.none, pc')) :
    ∃ s', Solo K t c id op s₀ s' pc' ∧ s'.mem.chan c = s.mem.chan c ∧ s'.mem.waiter = s.mem.waiter :=
  ⟨_, h.step hact rfl, Function.update_self _ _ _, rfl⟩

omit [DecidableEq T] [DecidableEq C] in
theorem RingPc.Popped.step {cap : RingCap} {r : Ring α} {ws : Wid → Waiter α} {p : RingPc Wid α} {w : Wid}
    (h : p.Popped (ws w).data) (hop : p.op = .pop w) :
    (∀ p', (r.step cap false p).2 = .inl p' →
      p'.Popped (fillBuffer ws (copyTarget cap r p) w).data ∧ p'.op = .pop w) ∧
    ∀ res x, (r.step cap false p).2 = .inr res → res.vals = [x] →
      (fillBuffer ws (copyTarget cap r p) w).data = some x := by
  cases p with
  | loadHead op =>
    refine ⟨fun p' hp => ?_, fun res x hp => by cases hp⟩
    cases hp
    exact ⟨trivial, hop⟩
  | loadOpp op a =>
    obtain rfl : op = .pop w := hop
    rw [Ring.step]
    refine ⟨fun p' hp => ?_, fun res x hp hx => ?_⟩
    · split at hp <;> cases hp
      next hres =>
        obtain ⟨-, heq⟩ := Option.ite_none_left_eq_some.1 hres
        exact ⟨(Option.some.inj heq).symm, rfl⟩
    · split at hp <;> cases hp
      cases hx
  | cas op a k =>
    rw [Ring.step]
    refine ⟨fun p' hp => ?_, fun res x hp => by split at hp <;> cases hp⟩
    split at hp <;> cases hp
    · exact ⟨⟨rfl, h, rfl⟩, hop⟩
    · exact ⟨trivial, hop⟩
  | copy op a k i acc =>
    obtain ⟨rfl, rfl, rfl⟩ := h
    obtain rfl : op = .pop w := hop
    refine ⟨fun p' hp => ?_, fun res x hp => by cases hp⟩
    cases hp
    refine ⟨fun x hx => ?_, rfl⟩
    cases hx
    show (Function.update ws w { ws w with data := some _ } w).data = _
    rw [Function.update_self]
  | wait op a k acc =>
    rw [Ring.step]
    refine ⟨fun p' hp => ?_, fun res x hp => by split at hp <;> cases hp⟩
    split at hp <;> cases hp <;> exact ⟨h, hop⟩
  | store op a k acc =>
    constructor
    · intro p' hp
      cases hp
    · intro res x hp hx
      cases hp
      exact h x hx

/-- A ring operation that runs alone ends as it does on the ring by itself. -/
theorem Solo.finish {inside : RingPc Wid α → Pc α} {after : RingRes α → Pc α}
    (hact : ∀ (m : Mem T C α) p, (inside p).act K m id c op false = some (.ring false p,
      ringNext (K.chan c).ringCap (m.chan c).ring false p inside after)) :
    ∀ (fuel : Nat) (s : Sys T C α) (p : RingPc Wid α) (v : Ring α × RingRes α),
      (s.mem.chan c).ring.finish (K.chan c).ringCap fuel p = some v →
      Solo K t c id op s₀ s (inside p) →
      ∃ s', Solo K t c id op s₀ s' (after v.2) ∧ (s'.mem.chan c).ring = v.1 ∧
        ∀ w x, p.op = .pop w → p.Popped (s.mem.waiter w).data → v.2.vals = [x] →
          (s'.mem.waiter w).data = some x := by
  intro fuel
  induction fuel with
  | zero =>
    intro s p v hfin h
    cases hfin
  | succ fuel ih =>
    intro s p v hfin h
    rw [Ring.finish_succ] at hfin
    have h' := h.step (hact s.mem p) rfl
    have hring : ((s.move K t c (.ring false p) (.direct id c op (ringNext (K.chan c).ringCap
        (s.mem.chan c).ring false p inside after))).mem.chan c).ring =
          ((s.mem.chan c).ring.step (K.chan c).ringCap false p).1 := by
      rw [Sys.move, Mem.chan_apply_self]
      rfl
    generalize hs' : s.move K t c (.ring false p) (.direct id c op (ringNext (K.chan c).ringCap
      (s.mem.chan c).ring false p inside after)) = s' at h' hring
    have hwaiter : s'.mem.waiter = fillBuffer s.mem.waiter
        (copyTarget (K.chan c).ringCap (s.mem.chan c).ring p) := by
      rw [← hs']
      rfl
    rw [ringNext] at h'
    cases hstep : (s.mem.chan c).ring.step (K.chan c).ringCap false p with
    | mk r' q =>
      rw [hstep] at h' hfin hring
      replace hring : (s'.mem.chan c).ring = r' := hring
      cases q with
      | inl p' =>
        rw [← hring] at hfin
        obtain ⟨s₁, h₁, hring₁, hdata⟩ := ih s' p' v hfin h'
        refine ⟨s₁, h₁, hring₁, fun w x hop hpop hvals => ?_⟩
        obtain ⟨hpop', hop'⟩ := (hpop.step hop).1 p' (by rw [hstep])
        rw [← hwaiter] at hpop'
        exact hdata w x hop' hpop' hvals
      | inr res =>
        cases hfin
        refine ⟨s', h', hring, fun w x hop hpop hvals => ?_⟩
        rw [hwaiter]
        exact (hpop.step hop).2 res x (by rw [hstep]) hvals

/-- A call begins. -/
theorem Solo.start (hch : (s.mem.chan c).Deserted) (op : Op α) :
    Solo K t c s.next op (s.startCall K t (.direct c op)) (s.startCall K t (.direct c op))
      (.entry (K.chan c) s.next op) :=
  ⟨.refl, (Function.update_idem _ _ _).symm, hch, rfl, rfl⟩

/-- A call returns. -/
theorem Solo.returned {r : Ret} (h : Solo K t c id op s₀ s (.ret r)) :
    ∃ s', Reaches (Sys.step K) (fun _ l => l.direct = true) s₀ s' ∧
      s'.thread = Function.update s₀.thread t .idle ∧ s'.mem = s.mem ∧ s'.next = s₀.next ∧
      s'.events = s₀.events ++ [.ret id t r (Sys.directOut s.mem id op r)] := by
  have hth : s.thread t = .direct id c op (.ret r) := by rw [h.thread, Function.update_self]
  have hret : s.step K (.go t false) = some (s.finishCall t id r (Sys.directOut s.mem id op r)) := by
    rw [Sys.step, hth]
    rfl
  refine ⟨_, h.run.tail ⟨_, rfl, hret⟩, ?_, rfl, h.next, ?_⟩
  · show Function.update s.thread t .idle = _
    rw [h.thread, Function.update_idem]
  · show s.events ++ _ = _
    rw [h.events]

/-- A call is over. -/
theorem Solo.did {r : Ret} (hidle : s.thread t = .idle) {s₁ : Sys T C α}
    (h : Solo K t c s.next op (s.startCall K t (.direct c op)) s₁ (.ret r)) :
    ∃ s', Did K t c s s' op r (Sys.directOut s₁.mem s.next op r) ∧ s'.mem = s₁.mem := by
  obtain ⟨s', hrun, hthread, hmem, hnext, hevents⟩ := h.returned
  have hcall : s.step K (.call t (.direct c op)) = some (s.startCall K t (.direct c op)) := by
    rw [Sys.step, hidle]
  refine ⟨s', ⟨hrun.head ⟨_, rfl, hcall⟩, ?_, by rw [hmem]; exact h.chan, ?_, hnext⟩, hmem⟩
  · rw [hthread, Sys.startCall, Function.update_idem, ← hidle, Function.update_eq_self]
  · rw [hevents, Sys.startCall, List.append_assoc]
    rfl

/-- After a ring operation has moved something, nobody has to be served. -/
theorem Solo.after {r : Ret} (h : Solo K t c id op s₀ s (.fastAfter r)) :
    ∃ s', Solo K t c id op s₀ s' (.ret r) ∧ s'.mem.chan c = s.mem.chan c ∧
      s'.mem.waiter = s.mem.waiter := by
  apply h.look
  rw [Pc.act, if_neg (not_not.2 (h.chan.cnt _))]

end Steps

/-! ## Calls -/

section Calls

variable {K : Config T C} {s : Sys T C α} {t : T} {c : C} {n : Nat} {q : List α}

/-- A burst that runs alone. -/
theorem exists_burst {op : Op α} (hidle : s.thread t = .idle)
    {s₁ : Sys T C α} (h : Solo K t c s.next op (s.startCall K t (.direct c op)) s₁
      (.burstRing (.loadHead (op.burstOp s.next)))) (hring : (s₁.mem.chan c).ring = (s.mem.chan c).ring)
    (hwant : (op.burstOp s.next).want ≠ 0) {r' : Ring α} {res : RingRes α}
    (hrun : (s.mem.chan c).ring.run (K.chan c).ringCap (op.burstOp s.next) = some (r', res))
    (hmoved : res.moved ≠ 0) :
    ∃ s' out, Did K t c s s' op (.count res.moved) out ∧ (s'.mem.chan c).ring = r' := by
  rw [Ring.run, if_neg hwant, ← hring] at hrun
  obtain ⟨s₂, h₂, hring₂, -⟩ := Solo.finish (fun _ _ => rfl) _ s₁ _ _ hrun h
  rw [if_neg hmoved] at h₂
  obtain ⟨s₃, h₃, hchan, -⟩ := h₂.after
  obtain ⟨s', hdid, hmem⟩ := h₃.did hidle
  refine ⟨s', _, hdid, ?_⟩
  rw [hmem, hchan, hring₂]

/-- A burst send that runs alone appends its elements. -/
theorem exists_sendBurst (hidle : s.thread t = .idle) (hch : (s.mem.chan c).Deserted)
    (hcap : (K.chan c).capacity ≠ 0) (h : HoldsAt (K.chan c).ringCap (s.mem.chan c).ring n q)
    (xs : List α) (hpos : 0 < xs.length) (hlt : xs.length < 2 ^ 32)
    (hroom : q.length + xs.length ≤ (K.chan c).ringCap.size) :
    ∃ s' out, Did K t c s s' (.sendBurst xs) (.count xs.length) out ∧
      HoldsAt (K.chan c).ringCap (s'.mem.chan c).ring n (q ++ xs) := by
  have hentry : Pc.entry (K.chan c) s.next (.sendBurst xs) = .burstClosed := by
    rw [Pc.entry, if_neg]
    omega
  have hstart := Solo.start (K := K) (t := t) hch (.sendBurst xs)
  rw [hentry] at hstart
  have hact : Pc.burstClosed.act K (s.startCall K t (.direct c (.sendBurst xs))).mem s.next c
      (.sendBurst xs) false = some (.none, .burstRing (.loadHead ((Op.sendBurst xs).burstOp s.next))) := by
    rw [Pc.act, if_neg (Bool.eq_false_iff.1 hstart.chan.opened)]
  obtain ⟨s₁, h₁, hchan₁, -⟩ := hstart.look hact
  have hwant : ((Op.sendBurst xs).burstOp s.next).want = xs.length := by
    rw [Op.want_burstOp rfl, Op.room]
    omega
  have hdata : ((Op.sendBurst xs).burstOp s.next).data.map Prod.snd = xs := by
    show ((xs.take (2 ^ 32 - 1)).zipIdx.map _).map Prod.snd = xs
    rw [List.map_map, List.take_of_length_le (by omega)]
    exact List.zipIdx_map_fst 0 xs
  have hside : ((Op.sendBurst xs).burstOp s.next).side = .send := rfl
  obtain ⟨r', hrun, hholds⟩ := h.run_send hside (by omega)
  have hk : min xs.length ((K.chan c).ringCap.size - q.length) = xs.length := by omega
  rw [hdata, BoundedQueue.pushMany, hk] at hrun hholds
  rw [List.take_length] at hholds
  obtain ⟨s', out, hdid, hring⟩ := exists_burst hidle h₁ (by rw [hchan₁]; rfl) (by omega) hrun
    (Nat.ne_of_gt hpos)
  exact ⟨s', out, hdid, by rw [hring]; exact hholds⟩

/-- A burst receive that runs alone takes as many elements as it asks for, if there are so many. -/
theorem exists_recvBurst (hidle : s.thread t = .idle) (hch : (s.mem.chan c).Deserted)
    (hcap : (K.chan c).capacity ≠ 0) (h : HoldsAt (K.chan c).ringCap (s.mem.chan c).ring n q) {d : Nat}
    (hpos : 0 < d) (hlt : d < 2 ^ 32) (hthere : d ≤ q.length) :
    ∃ s' out, Did K t c s s' (.recvBurst d) (.count d) out ∧
      HoldsAt (K.chan c).ringCap (s'.mem.chan c).ring (n + d) (q.drop d) := by
  have hentry : Pc.entry (K.chan c) s.next (.recvBurst d : Op α) =
      .burstRing (.loadHead ((Op.recvBurst d : Op α).burstOp s.next)) := by
    rw [Pc.entry, if_neg]
    omega
  have hstart := Solo.start (K := K) (t := t) hch (.recvBurst d)
  rw [hentry] at hstart
  have hwant : ((Op.recvBurst d : Op α).burstOp s.next).want = d := by
    rw [Op.want_burstOp rfl, Op.room]
    omega
  have hside : ((Op.recvBurst d : Op α).burstOp s.next).side = .recv := rfl
  obtain ⟨r', hrun, hholds⟩ := h.run_recv hside (by omega)
  have hlen : (q.take d).length = d := by
    rw [List.length_take]
    omega
  rw [hwant, BoundedQueue.popMany, hlen] at hrun hholds
  obtain ⟨s', out, hdid, hring⟩ := exists_burst hidle hstart rfl (by omega) hrun (Nat.ne_of_gt hpos)
  exact ⟨s', out, hdid, by rw [hring]; exact hholds⟩

/-- A receive that runs alone reports the element it pops. -/
theorem exists_recv (hidle : s.thread t = .idle) (hch : (s.mem.chan c).Deserted)
    (hcap : (K.chan c).capacity ≠ 0) (hspsc : (K.chan c).spsc = false) {r' : Ring α} {x : α}
    (hrun : (s.mem.chan c).ring.run (K.chan c).ringCap (.pop ⟨s.next, 0⟩ : RingOp Wid α) =
      some (r', ⟨1, [x]⟩)) :
    ∃ s', Did K t c s s' (.recv 0) (.err .ok) [some x] ∧ (s'.mem.chan c).ring = r' := by
  have hentry : Pc.entry (K.chan c) s.next (.recv 0 : Op α) = .fastCnt .send 0 := by
    rw [Pc.entry, if_pos (Nat.pos_of_ne_zero hcap), Pc.attempt]
    · rw [hspsc]
      rfl
    · rintro _ _ ⟨⟩
  have hstart := Solo.start (K := K) (t := t) hch (.recv 0)
  rw [hentry] at hstart
  -- nobody waits, so the lock-free attempt goes ahead
  have hsend : ∀ {m : Mem T C α}, (m.chan c).cnt .send = 0 →
      (Pc.fastCnt .send 0).act K m s.next c (.recv 0) false = some (.none, .fastCnt .recv 0) := by
    intro m hcnt
    rw [Pc.act, if_neg (not_not.2 hcnt)]
  have hrecv : ∀ {m : Mem T C α}, (m.chan c).cnt .recv = 0 →
      (Pc.fastCnt .recv 0).act K m s.next c (.recv 0) false =
        some (.none, .fastRing 0 (.loadHead (.pop ⟨s.next, 0⟩))) := by
    intro m hcnt
    rw [Pc.act, if_neg (not_not.2 hcnt)]
    rfl
  obtain ⟨s₁, h₁, hchan₁, -⟩ := hstart.look (hsend (hstart.chan.cnt .send))
  obtain ⟨s₂, h₂, hchan₂, -⟩ := h₁.look (hrecv (h₁.chan.cnt .recv))
  have hring : (s₂.mem.chan c).ring = (s.mem.chan c).ring := by
    rw [hchan₂, hchan₁]
    rfl
  have hfin : (s.mem.chan c).ring.finish (K.chan c).ringCap 6
    (.loadHead (.pop (⟨s.next, 0⟩ : Wid))) = some (r', ⟨1, [x]⟩) := hrun
  rw [← hring] at hfin
  obtain ⟨s₃, h₃, hring₃, hdata⟩ := Solo.finish (fun _ _ => rfl) _ s₂ _ _ hfin h₂
  obtain ⟨s₄, h₄, hchan₄, hwaiter⟩ := h₃.after
  obtain ⟨s', hdid, hmem⟩ := h₄.did hidle
  refine ⟨s', ?_, by rw [hmem, hchan₄, hring₃]⟩
  have hout : Sys.directOut s₄.mem s.next (.recv 0) (.err .ok) = [some x] := by
    show [(s₄.mem.waiter ⟨s.next, 0⟩).data] = _
    rw [hwaiter, hdata ⟨s.next, 0⟩ x rfl trivial rfl]
  rw [hout] at hdid
  exact hdid

end Calls

/-! ## A lap -/

/-- One channel with the largest ring there is. -/
def bufferedLargest : Config Bool Unit where
  chan _ := ChanCfg.create (2 ^ 31)
  addr _ := 0
  spinLimit := 0
  self _ := 1

theorem bufferedLargest_size : (bufferedLargest.chan ()).ringCap.size = 2 ^ 31 :=
  ChanCfg.size_ringCap (Nat.le_refl 31) rfl

/-- A send is stopped before its CAS. -/
theorem exists_stopped : ∃ s : Sys Bool Unit Nat,
    Reaches (Sys.step bufferedLargest) (fun _ l => l.direct = true) (Sys.init fun _ _ => 0) s ∧
    s.thread false = .direct 0 () (.send 7 0) (.fastRing 0 (.cas (.push ⟨0, 0⟩ 7) 0 1)) ∧
    s.thread true = .idle ∧ s.events = [.call 0 false (.direct () (.send 7 0))] ∧ s.next = 1 ∧
    (s.mem.chan ()).Deserted ∧ HoldsAt (bufferedLargest.chan ()).ringCap (s.mem.chan ()).ring 0 [] := by
  obtain ⟨s, hs, hth, hev, hch, hring⟩ := Sys.exists_reaches bufferedLargest (fun _ _ => (0 : Nat))
    (fun _ l => l.direct = true) (.call false (.direct () (.send 7 0)) :: List.replicate 5 (.go false false))
    (fun s => (s.thread false = .direct 0 () (.send 7 0) (.fastRing 0 (.cas (.push ⟨0, 0⟩ 7) 0 1)) ∧
        s.thread true = .idle) ∧
      (s.events = [.call 0 false (.direct () (.send 7 0))] ∧ s.next = 1) ∧
      ((s.mem.chan ()).closed = false ∧ ((s.mem.chan ()).queue .send = [] ∧
        (s.mem.chan ()).queue .recv = []) ∧ (s.mem.chan ()).cnt .send = 0 ∧ (s.mem.chan ()).cnt .recv = 0) ∧
      ((((s.mem.chan ()).ring.cur .recv).head = 0 ∧ ((s.mem.chan ()).ring.cur .recv).tail = 0) ∧
        ((s.mem.chan ()).ring.cur .send).head = 0 ∧ ((s.mem.chan ()).ring.cur .send).tail = 0))
    (by decide +kernel)
  refine ⟨s, hs, hth.1, hth.2, hev.1, hev.2, ⟨hch.1, ?_, ?_⟩, hring.1, hring.2, Nat.zero_le _, ?_⟩
  · intro o
    cases o with
    | send => exact hch.2.1.1
    | recv => exact hch.2.1.2
  · intro o
    cases o with
    | send => exact hch.2.2.1
    | recv => exact hch.2.2.2
  · intro i hi
    cases hi

/-- A push whose CAS succeeds. -/
theorem Ring.finish_cas {ω β : Type} {cap : RingCap} {r : Ring β} {h : U32} (w : ω) (x : β)
    (hhead : (r.cur .send).head = h) (htail : (r.cur .send).tail = h) :
    r.finish cap 4 (.cas (.push w x) h 1) =
      some (((r.setHead .send (h + 1)).setSlot (h &&& cap.mask) x).setTail .send (h + 1), ⟨1, []⟩) := by
  have hcas : r.step cap false (.cas (.push w x) h 1) =
      (r.setHead .send (h + 1), .inl (.copy (.push w x) h 1 0 [])) := if_pos ⟨rfl, hhead⟩
  rw [Ring.finish_succ, hcas]
  refine Ring.finish_copy 1 _ 0 [] 3 rfl Nat.one_pos (Nat.le_refl 3) ?_
  show (Function.update r.cur .send _ .send).tail = h
  rw [Function.update_self]
  exact htail

/-- A pop that finds an element. -/
theorem Ring.run_pop {ω β : Type} {cap : RingCap} {r : Ring β} {h : U32} (w : ω)
    (hhead : (r.cur .recv).head = h) (htail : (r.cur .recv).tail = h) (hprod : (r.cur .send).tail ≠ h) :
    r.run cap (.pop w : RingOp ω β) =
      some ((r.setHead .recv (h + 1)).setTail .recv (h + 1), ⟨1, [r.slots (h &&& cap.mask)]⟩) := by
  have hres : (RingOp.pop w : RingOp ω β).reserve cap (r.cur .recv).head (r.cur .send).tail = some 1 :=
    if_neg (by rw [hhead]; exact hprod)
  have hdone : r.run cap (.pop w : RingOp ω β) = some (r.done cap (.pop w) 1) :=
    Ring.run_some Nat.one_ne_zero (hhead.trans htail.symm) (by decide) (Nat.le_refl 1) hres
  rw [hdone]
  subst hhead
  rfl

/-- A push on a full ring whose producer cursor is back at `0`: the element lands in the slot of the
oldest position, which the next pop takes, and it is in the slot of the newest position as well. -/
theorem HoldsAt.lapped {cap : RingCap} {r : Ring α} {q : List α} (hsize : cap.size + cap.size = 2 ^ 32)
    (h : HoldsAt cap r cap.size q) (hlen : q.length = cap.size) (w w' : Wid) (x : α) :
    ∃ r' r'' : Ring α, r.finish cap 4 (.cas (.push w x) 0 1) = some (r', ⟨1, []⟩) ∧
      r'.run cap (.pop w' : RingOp Wid α) = some (r'', ⟨1, [x]⟩) ∧
      HoldsAt cap r'' (cap.size + 1) (q.drop 1 ++ [x]) := by
  have hpos : 0 < cap.size := by omega
  have hzero : BitVec.ofNat 32 (cap.size + q.length) = (0 : U32) := by
    rw [hlen, hsize]
    rfl
  have hmask : ∀ n, n % cap.size = 0 → (0 : U32) &&& cap.mask = Wrap.slotOf cap.size n := by
    intro n hn
    have hfirst := cap.and_mask hpos 0
    rw [Wrap.slotOf, Nat.zero_mod] at hfirst
    rw [Wrap.slotOf, hn]
    exact hfirst
  have hpush : r.finish cap 4 (.cas (.push w x) 0 1) = _ :=
    Ring.finish_cas w x (h.prod.1.trans hzero) (h.prod.2.trans hzero)
  generalize hr' : ((r.setHead .send (0 + 1)).setSlot (0 &&& cap.mask) x).setTail .send (0 + 1) = r' at hpush
  have hrecv : r'.cur .recv = r.cur .recv := by
    rw [← hr']
    rfl
  have hsend : (r'.cur .send).head = 1 ∧ (r'.cur .send).tail = 1 := by
    rw [← hr']
    exact ⟨rfl, rfl⟩
  have hslots : r'.slots = Function.update r.slots (0 &&& cap.mask) x := by
    rw [← hr']
    rfl
  have hcons := h.cons
  rw [← hrecv] at hcons
  have hne : (r'.cur .send).tail ≠ BitVec.ofNat 32 cap.size := by
    rw [hsend.2, show cap.size = 2 ^ 31 by omega]
    decide
  have hpop : r'.run cap (.pop w' : RingOp Wid α) = _ := Ring.run_pop w' hcons.1 hcons.2 hne
  have hoccupied : r'.slots (BitVec.ofNat 32 cap.size &&& cap.mask) = x := by
    rw [hslots, cap.and_mask hpos, hmask _ (Nat.mod_self _), Function.update_self]
  have hsucc : BitVec.ofNat 32 cap.size + 1 = BitVec.ofNat 32 (cap.size + 1) := (BitVec.ofNat_add _ _).symm
  rw [hoccupied, hsucc] at hpop
  have hlen' : (q.drop 1).length = cap.size - 1 := by rw [List.length_drop, hlen]
  have hlast : (q.drop 1 ++ [x]).length = cap.size := by
    rw [List.length_append, hlen', List.length_singleton]
    omega
  refine ⟨r', _, hpush, hpop, ⟨rfl, rfl⟩, ?_, Nat.le_of_eq hlast, fun i hi => ?_⟩
  · have hnext : BitVec.ofNat 32 (cap.size + 1 + (q.drop 1 ++ [x]).length) = (1 : U32) := by
      rw [hlast, Nat.add_right_comm, hsize]
      rfl
    rw [hnext]
    exact hsend
  · rw [hlast] at hi
    show _ = some (r'.slots _)
    rw [hslots]
    by_cases hold : i < cap.size - 1
    · -- the other slots are as they were
      rw [Function.update_of_ne, List.getElem?_append_left (by omega), List.getElem?_drop,
        h.slots (1 + i) (by omega), Nat.add_assoc]
      rw [hmask 0 (Nat.zero_mod _)]
      intro heq
      have hnat := congrArg BitVec.toNat heq
      rw [cap.toNat_slotOf hpos, cap.toNat_slotOf hpos, Nat.zero_mod, Nat.add_assoc,
        Nat.add_mod_left, Nat.mod_eq_of_lt (by omega)] at hnat
      omega
    · have hi' : i = cap.size - 1 := by omega
      rw [List.getElem?_append_right (by omega), hlen', hi', Nat.sub_self, ← hmask, Function.update_self]
      · rfl
      · rw [show cap.size + 1 + (cap.size - 1) = cap.size + cap.size by omega, Nat.add_mod_left, Nat.mod_self]

/-- The history of the lapped run on a ring of `n` slots: a send of `7`, whose return comes after bursts
of zeros have gone around the cursors, and receives. -/
def lapEvents (n : Nat) (o₁ o₂ o₃ o₅ : List (Option Nat)) : List (Event Bool Unit Nat) :=
  [.call 0 false (.direct () (.send 7 0)),
    .call 1 true (.direct () (.sendBurst (List.replicate n 0))), .ret 1 true (.count n) o₁,
    .call 2 true (.direct () (.recvBurst n)), .ret 2 true (.count n) o₂,
    .call 3 true (.direct () (.sendBurst (List.replicate n 0))), .ret 3 true (.count n) o₃,
    .ret 0 false (.err .ok) [],
    .call 4 true (.direct () (.recv 0)), .ret 4 true (.err .ok) [some 7],
    .call 5 true (.direct () (.recvBurst (n - 1))), .ret 5 true (.count (n - 1)) o₅,
    .call 6 true (.direct () (.recv 0)), .ret 6 true (.err .ok) [some 7]]

/-- The one element that was sent as `7` is received twice. -/
theorem exists_lap {n : Nat} (hn : n = 2 ^ 31) : ∃ (s : Sys Bool Unit Nat) (o₁ o₂ o₃ o₅ : List (Option Nat)),
    Reaches (Sys.step bufferedLargest) (fun _ l => l.direct = true) (Sys.init fun _ _ => 0) s ∧
    (∀ t, s.thread t = .idle) ∧ s.events = lapEvents n o₁ o₂ o₃ o₅ := by
  have hsize : (bufferedLargest.chan ()).ringCap.size = n := hn ▸ bufferedLargest_size
  have hcap : (bufferedLargest.chan ()).capacity ≠ 0 := by decide
  generalize hring : (bufferedLargest.chan ()).ringCap = cap at hsize
  subst hsize
  obtain ⟨s₀, hrun₀, hstop, hidle, hev₀, hnext₀, hch₀, hholds₀⟩ := exists_stopped
  have hzeros : (List.replicate cap.size 0).length = cap.size := List.length_replicate
  have hfits : ([] : List Nat).length + (List.replicate cap.size 0).length ≤
      (bufferedLargest.chan ()).ringCap.size := by
    rw [hring, hzeros, List.length_nil, Nat.zero_add]
  -- two bursts in and one out bring the producer cursor back to where the send read it
  obtain ⟨s₁, o₁, h₁, hholds₁⟩ := exists_sendBurst hidle hch₀ hcap hholds₀ _ (by omega) (by omega) hfits
  obtain ⟨s₂, o₂, h₂, hholds₂⟩ := exists_recvBurst (h₁.thread ▸ hidle) h₁.chan hcap hholds₁
    (by omega) (by omega) (Nat.le_of_eq hzeros.symm)
  rw [List.nil_append, List.drop_of_length_le (Nat.le_of_eq hzeros), Nat.zero_add] at hholds₂
  have hth₂ : s₂.thread = s₀.thread := h₂.thread.trans h₁.thread
  obtain ⟨s₃, o₃, h₃, hholds₃⟩ := exists_sendBurst (hth₂ ▸ hidle) h₂.chan hcap hholds₂ _ (by omega)
    (by omega) hfits
  rw [List.nil_append, hring] at hholds₃
  have hth₃ : s₃.thread = s₀.thread := h₃.thread.trans hth₂
  obtain ⟨r₄, r₅, hpush, hpop, hholds₅⟩ := hholds₃.lapped (by omega) hzeros ⟨0, 0⟩ ⟨s₃.next, 0⟩ 7
  -- the send goes on as if nothing had happened
  have hsolo : Solo bufferedLargest false () 0 (.send 7 0) s₃ s₃
      (.fastRing 0 (.cas (.push ⟨0, 0⟩ 7) 0 1)) := by
    refine ⟨.refl, ?_, h₃.chan, rfl, rfl⟩
    rw [← hstop, ← hth₃, Function.update_eq_self]
  obtain ⟨s₄, h₄, hring₄, -⟩ := Solo.finish (fun _ _ => rfl) 4 s₃ _ (r₄, ⟨1, []⟩) (hring ▸ hpush) hsolo
  obtain ⟨s₄', h₄', hchan₄, -⟩ := h₄.after
  obtain ⟨s₅, hrun₅, hth₅, hmem₅, hnext₅, hev₅⟩ := h₄'.returned
  have hidle₅ : ∀ t, s₅.thread t = .idle := by
    intro t
    rw [hth₅, hth₃]
    cases t with
    | false => exact Function.update_self _ _ _
    | true => exact hidle
  have hring₅ : (s₅.mem.chan ()).ring = r₄ := by rw [hmem₅, hchan₄, hring₄]
  have hch₅ : (s₅.mem.chan ()).Deserted := by
    rw [hmem₅]
    exact h₄'.chan
  -- the element is at the place of the oldest of the zeros, and behind all of them
  rw [← hnext₅, ← hring₅, ← hring] at hpop
  obtain ⟨s₆, h₆, hring₆⟩ := exists_recv (hidle₅ true) hch₅ hcap rfl hpop
  have hholds₆ : HoldsAt (bufferedLargest.chan ()).ringCap (s₆.mem.chan ()).ring (cap.size + 1)
      ((List.replicate cap.size 0).drop 1 ++ [7]) := by
    rw [hring, hring₆]
    exact hholds₅
  have hidle₆ : ∀ t, s₆.thread t = .idle := by
    rw [h₆.thread]
    exact hidle₅
  have hrest : ((List.replicate cap.size 0).drop 1).length = cap.size - 1 := by
    rw [List.length_drop, hzeros]
  obtain ⟨s₇, o₅, h₇, hholds₇⟩ := exists_recvBurst (d := cap.size - 1) (hidle₆ true) h₆.chan hcap hholds₆
    (by omega) (by omega) (by rw [List.length_append, hrest]; exact Nat.le_add_right _ _)
  rw [List.drop_append_of_le_length (Nat.le_of_eq hrest.symm), List.drop_of_length_le (Nat.le_of_eq hrest),
    List.nil_append] at hholds₇
  have hidle₇ : ∀ t, s₇.thread t = .idle := by
    rw [h₇.thread]
    exact hidle₆
  have hside : (RingOp.pop ⟨s₇.next, 0⟩ : RingOp Wid Nat).side = .recv := rfl
  obtain ⟨r₈, hpop₈, -⟩ := hholds₇.run_recv hside (Nat.one_lt_two_pow (by decide))
  obtain ⟨s₈, h₈, -⟩ := exists_recv (hidle₇ true) h₇.chan hcap rfl hpop₈
  refine ⟨s₈, o₁, o₂, o₃, o₅, ?_, ?_, ?_⟩
  · exact hrun₀.trans (h₁.run.trans (h₂.run.trans (h₃.run.trans (hrun₅.trans (h₆.run.trans
      (h₇.run.trans h₈.run))))))
  · rw [h₈.thread]
    exact hidle₇
  · rw [h₈.events, h₇.events, h₆.events, hev₅, h₃.events, h₂.events, h₁.events, hev₀, h₇.next, h₆.next, hnext₅,
      h₃.next, h₂.next, h₁.next, hnext₀, hzeros]
    rfl

/-- Only the first call sends a `7`. -/
theorem offered_of_lapEvents {s : Sys Bool Unit Nat} {n : Nat} {o₁ o₂ o₃ o₅ : List (Option Nat)}
    (hevents : s.events = lapEvents n o₁ o₂ o₃ o₅) {w : Wid} (h : s.Offered () w 7) : w = ⟨0, 0⟩ := by
  obtain ⟨id, i⟩ := w
  obtain ⟨t, k, hcall, hoff⟩ := h
  have hzero : ∀ {j : Nat}, (List.replicate n 0)[j]? ≠ some 7 := by
    intro j hj
    cases List.eq_of_mem_replicate (List.mem_of_getElem? hj)
  rw [hevents, lapEvents] at hcall
  simp only [List.mem_cons, Event.call.injEq, List.not_mem_nil, or_false, reduceCtorEq, false_or] at hcall
  rcases hcall with ⟨rfl, -, rfl⟩ | ⟨-, -, rfl⟩ | ⟨-, -, rfl⟩ | ⟨-, -, rfl⟩ | ⟨-, -, rfl⟩ |
    ⟨-, -, rfl⟩ | ⟨-, -, rfl⟩
  · have hi : (if i = 0 then some 7 else none) = some 7 := hoff.2
    obtain ⟨rfl, -⟩ := Option.ite_none_right_eq_some.1 hi
    rfl
  · exact absurd hoff.2 hzero
  · cases hoff.2
  · exact absurd hoff.2 hzero
  · cases hoff.2
  · cases hoff.2
  · cases hoff.2

end LibChan
