import LibChan.Chan.Reports
import LibChan.Chan.Transfer
import LibChan.Chan.Wakes

/-!
# Exactly-once rendezvous

On an unbuffered channel an element goes straight from a send to a receive. Sends and receives that have
met are matched one to one, with equal elements, and a call that is matched returns `CHAN_OK` and no
other call does (`rendezvous_once`), as long as no wait expires after a peer has served it: the call of an
expired wait removes its waiter and reports `CHAN_ERR_TIMEOUT` without asking whether it was still queued
(`rendezvous_lost`).
-/

set_option autoImplicit false

namespace LibChan

variable {T C α : Type}

/-- An expired wait on an unbuffered channel that holds the lock again is still queued, or
`chan_close` has taken it out. -/
def Thread.lapseOk (K : Config T C) (m : Mem T C α) : Thread C α → Bool
  | .direct id c op .expRemove => decide ((K.chan c).capacity ≠ 0) ||
      decide ((⟨id, 0⟩ : Wid) ∈ (m.chan c).queue op.side) ||
      decide ((m.waiter ⟨id, 0⟩).result = .closed)
  | _ => true

/-- The places of a wait that has expired. -/
def Pc.lapsed : Pc α → Bool
  | expUnlock _ | decr (some .timeout) | ret (.err .timeout) => true
  | _ => false

/-- A direct call whose wait on an unbuffered channel has expired has moved nothing. -/
def Thread.Lapsed (K : Config T C) (s : Sys T C α) : Thread C α → Prop
  | .direct id c _ pc => (K.chan c).capacity = 0 → pc.lapsed = true → ∀ i, ¬ s.mem.Took ⟨id, i⟩
  | _ => True

/-- A direct call on an unbuffered channel that has returned `CHAN_ERR_TIMEOUT` has moved nothing. -/
def Call.Lapsed (K : Config T C) (s : Sys T C α) (id : Nat) (k : Call C α) (r : Ret) : Prop :=
  match k with
  | .direct c _ => (K.chan c).capacity = 0 → r = .err .timeout → ∀ i, ¬ s.mem.Took ⟨id, i⟩
  | .select _ _ => True

/-- Call `id` is a send of `x` on channel `c`. -/
def Sys.Sends (s : Sys T C α) (c : C) (id : Nat) (x : α) : Prop :=
  ∃ t time, .call id t (.direct c (.send x time)) ∈ s.events

/-- Call `id` is a receive on channel `c`. -/
def Sys.Recvs (s : Sys T C α) (c : C) (id : Nat) : Prop :=
  ∃ t time, .call id t (.direct c (.recv time)) ∈ s.events

/-- The channel has handed over the elements of `met`, each from a send to a receive. -/
structure Chan.Met (ch : Chan T α) (met : List (Nat × Nat × α)) : Prop where
  takers : ch.hist.takers = []
  sent : ch.sent = met.map fun m => (⟨m.1, 0⟩, m.2.2)
  recvd : ch.recvd = met.map fun m => (⟨m.2.1, 0⟩, m.2.2)

/-- What is handed over on an unbuffered channel goes from a send to a receive, and is then in the
receiver's buffer. -/
structure MeetingInv (K : Config T C) (s : Sys T C α) : Prop where
  met : ∀ c, (K.chan c).capacity = 0 → ∃ met, (s.mem.chan c).Met met ∧
    ∀ m ∈ met, s.Sends c m.1 m.2.2 ∧ s.Recvs c m.2.1
  buffer : ∀ c w v, (K.chan c).capacity = 0 → s.Accepting c w →
    ((s.mem.waiter w).data = some v ↔ (w, v) ∈ (s.mem.chan c).recvd)

section Lapse

variable [DecidableEq T] [DecidableEq C] {K : Config T C} {s s' : Sys T C α} {l : Label T C α}
  {t : T} {alt : Bool} {id : Nat} {c : C} {op : Op α} {pc pc' : Pc α} {e : Effect α}

omit [DecidableEq T] in
/-- A wait that has expired under the condition has not been served. -/
theorem Valid.not_took_of_lapseOk (hv : Valid K s) (hcap : (K.chan c).capacity = 0)
    (hth : s.thread t = .direct id c op .expRemove)
    (hok : (Thread.direct id c op .expRemove).lapseOk K s.mem = true) (i : Nat) :
    ¬ s.mem.Took ⟨id, i⟩ := by
  have hmay := hv.waiters.running t
  rw [hth] at hmay
  have hshared : s.Shared id := hmay.shared rfl
  intro hi
  obtain rfl := hshared.idx i hi
  by_cases hq : (⟨id, 0⟩ : Wid) ∈ (s.mem.chan c).queue op.side
  · exact hshared.queued ⟨c, op.side, hq⟩ hi
  · -- whoever has claimed the waiter has the lock, and so has this thread
    have hset : s.Settled ⟨id, 0⟩ := by
      constructor
      · rintro ⟨d, o, hmem⟩
        obtain ⟨rfl, rfl, -⟩ := hv.waits_of_direct hth (hv.queues.queue d o _ hmem).owned
        exact hq hmem
      · rintro u ⟨d, o, hhand⟩
        obtain ⟨rfl, -, -⟩ := hv.waits_of_direct hth (hv.queues.claimed u _ d o hhand).1
        have hheld : d ∈ (s.thread t).holds K := by
          rw [hth]
          exact List.mem_singleton_self d
        obtain rfl := hv.locks.holds_inj (Thread.mem_holds_of_hand hhand (Or.inl rfl)) hheld
        rw [hth] at hhand
        cases hhand
    refine hshared.closed hset ?_ hi
    simpa [Thread.lapseOk, hcap, hq] using hok

/-- The steps of a call keep what its expired wait says. -/
theorem Thread.Lapsed.flow (h : (Thread.direct id c op pc).Lapsed K s) (hv : Valid K s)
    (hth : s.thread t = .direct id c op pc) (hok : (s.thread t).lapseOk K s.mem = true)
    (hflow : Pc.Flow K s.mem id c op alt pc e pc')
    (hacts : s.Acts K t alt c e (.direct id c op pc')) :
    (Thread.direct id c op pc').Lapsed K (s.move K t c e (.direct id c op pc')) := by
  intro hcap hpc' i hi
  have hmay := hv.waiters.running t
  rw [hth] at hmay
  -- what is moved in this step would be noted at the next place
  have hbefore : pc'.got id op = [] → s.mem.Took ⟨id, i⟩ := by
    intro hgot
    refine (Sys.took_own hv.toSound hth hacts hi).resolve_right fun hmem => ?_
    rw [hgot] at hmem
    cases hmem
  cases hflow with
  | expRemove hback hstill =>
    rw [hth] at hok
    exact hv.not_took_of_lapseOk hcap hth hok i (hbefore rfl)
  | expTimeout hstill => exact h hcap rfl i (hbefore rfl)
  | @decr r =>
    cases r with
    | some r =>
      cases r with
      | timeout => exact h hcap rfl i (hbefore rfl)
      | _ => cases hpc'
    | none =>
      rcases hmay.value with hres | hres
      · rw [Option.getD_none, hres] at hpc'
        cases hpc'
      · rw [Option.getD_none, hres] at hpc'
        cases hpc'
  | @unlockRet r =>
    cases r with
    | err r =>
      cases r with
      | timeout =>
        have hmem := hmay.own rfl i (hbefore rfl)
        cases hmem
      | _ => cases hpc'
    | _ => cases hpc'
  | @afterRet r hcnt =>
    have hmoved := (hv.direct_ok hth).1
    rw [hcap] at hmoved
    exact absurd hmoved (Nat.lt_irrefl 0)
  | serveStopBlock hstop hblock | serveEmptyBlock hqueue hblock | servePutBackBlock hblock
  | meetEmptySend hqueue hop hblock | emptyOpen hopen hblock => cases hblock <;> cases hpc'
  | _ => cases hpc'

/-- Nobody moves anything for a call whose wait has expired. -/
theorem Thread.Lapsed.other {u : T} (h : (Thread.direct id c op pc).Lapsed K s) (hs : Sound K s)
    (hth : s.thread u = .direct id c op pc) {d : C} {th : Thread C α} (hu : u ≠ t)
    (hacts : s.Acts K t alt d e th) :
    (Thread.direct id c op pc).Lapsed K (s.move K t d e th) := by
  intro hcap hpc i hi
  rcases Sys.took_move.1 hi with hi | hgrant
  · exact h hcap hpc i hi
  · rcases hacts.grants (hs.ok t) hgrant with ⟨hown, -⟩ | ⟨o, hhand, -⟩
    · exact hu (hs.calls.id_inj u t id (by rw [hth]; rfl) hown)
    · have hi0 := (hs.queues.hand t _ _ hhand).idx (hs.selectState_direct hth)
      simp only at hi0
      subst hi0
      have hwaits := (hs.waits_of_direct hth (hs.queues.claimed t _ _ _ hhand).1).2.2
      cases pc with
      | expUnlock still | decr r | ret r => cases hwaits
      | _ => cases hpc

/-- What expired waits have not moved, in running and in returned calls. -/
abbrev LapseInv (K : Config T C) (s : Sys T C α) : Prop :=
  Sys.Each (Thread.Lapsed K) (Call.Lapsed K) s

theorem LapseInv.step (h : LapseInv K s) (hv : Valid K s) (hok : Sys.When (Thread.lapseOk K) s l)
    (hstep : s.Stepped K l s') : LapseInv K s' := by
  refine Sys.Each.step h hv.hist hstep trivial ?_ ?_ ?_ ?_ ?_
  · rintro t k - rfl
    cases k with
    | select cases timeout => trivial
    | direct c op => exact fun _ _ i => hv.selects.fresh _ (Nat.le_refl _)
  · rintro t alt c e th rfl hnext hacts rfl hP
    cases hacts with
    | select hth hact => trivial
    | direct hth hact =>
      rw [hth] at hP
      exact hP.flow hv hth hok (Pc.flow_of_act hact) (.direct hth hact)
  · intro u hu hP
    cases hth : s.thread u with
    | idle => trivial
    | select id cases timeout pc => trivial
    | direct id c op pc =>
      rw [hth] at hP
      cases hstep with
      | call hidle => exact hP
      | ret hdone hret => exact hP
      | move hnext hacts => exact hP.other hv.toSound hth hu hacts
  · rintro t id k r out hret hcall rfl hP
    cases hret with
    | select hth =>
      rw [hth] at hcall
      cases hcall
      trivial
    | direct hth =>
      rw [hth] at hcall hP
      cases hcall
      rintro hcap rfl
      exact hP hcap rfl
  · intro id k r out hans hR
    cases k with
    | select cases timeout => trivial
    | direct c op =>
      intro hcap hr i hi
      refine hR hcap hr i ?_
      cases hstep with
      | call hidle => exact hi
      | ret hdone hret => exact hi
      | move hnext hacts =>
        obtain ⟨u, -, hu⟩ := hans
        exact (Sys.took_move.1 hi).resolve_right (hv.not_granted ⟨u, r, out, hu⟩ hacts)

end Lapse

/-! ## Sends and receives meet -/

section Meeting

variable [DecidableEq C] {K : Config T C} {s : Sys T C α} {t : T} {alt : Bool} {c : C} {e : Effect α}
  {th : Thread C α}

omit [DecidableEq C] in
/-- Only buffered channels have their ring used. -/
theorem Thread.pos_of_ring {p : RingPc Wid α} (hok : th.Ok K) (hring : th.ring? = some (c, p)) :
    0 < (K.chan c).capacity := by
  cases th with
  | idle => cases hring
  | direct id d op pc =>
    obtain ⟨q, hq, heq⟩ := Option.map_eq_some_iff.1 hring
    cases heq
    cases pc with
    | serve k st => exact hok.1
    | fastRing spin q | burstRing q | slowRing q | recheck q => exact hok.2.1
    | backRing q => exact (K.chan c).buffered (Bool.and_eq_true_iff.1 hok.2.1).1
    | helpRing w q => exact hok.2.2.1
    | closeRing w q => exact hok.2.1
    | _ => cases hq
  | select id cases timeout pc =>
    cases pc with
    | fast2 start j st =>
      obtain ⟨k, hk, hcap, -⟩ := hok
      cases st with
      | ring q =>
        rw [Thread.ring?, SelPc.ring_fast2 hk] at hring
        cases hring
        exact hcap
      | _ => cases hring
    | exec i st =>
      obtain ⟨k, hk, hst⟩ := hok
      rw [Thread.ring?, SelPc.ring_exec hk] at hring
      obtain ⟨q, hq, heq⟩ := Option.map_eq_some_iff.1 hring
      cases heq
      cases st with
      | ring q => exact hst.1
      | helpRing w q => exact hst.1
      | _ => cases hq
    | _ => cases hring

/-- A step on an unbuffered channel does not use the ring. -/
theorem Sys.Acts.not_ring (hacts : s.Acts K t alt c e th) (hok : (s.thread t).Ok K)
    (hcap : (K.chan c).capacity = 0) : e.isRing = false ∧ ∀ p, e ≠ .spsc p := by
  have hno : ∀ p, (s.thread t).ring? ≠ some (c, p) := by
    intro p hring
    have hpos := Thread.pos_of_ring hok hring
    omega
  constructor
  · cases hacts.ring hok with
    | inside hring => exact absurd hring (hno _)
    | last hring => exact absurd hring (hno _)
    | start hring he => exact he
    | away hring he => exact he
  · rintro p rfl
    have hpos := (K.chan c).buffered (hacts.spsc hok)
    omega

/-- Without selects the waiters belong to single sends and receives. -/
theorem Sys.NoSelect.single_of_owned (h : s.NoSelect) (hs : Sound K s) {o : ChanOp} {w : Wid}
    (how : s.Owned c o w) : ∃ u op, .call w.call u (.direct c op) ∈ s.events ∧ op.single = true ∧
      op.side = o ∧ w.idx = 0 := by
  obtain ⟨u, hwaits⟩ := how
  have hu := h u
  cases hth : s.thread u with
  | idle =>
    rw [hth] at hwaits
    exact hwaits.elim
  | direct id d op pc =>
    rw [hth] at hwaits
    obtain ⟨rfl, rfl, rfl, hpc⟩ := hwaits
    refine ⟨u, op, hs.hist.running u id _ (by rw [hth]; rfl), ?_, rfl, rfl⟩
    exact Pc.single_of_waits (hs.direct_ok hth) hpc
  | select id cases timeout pc =>
    rw [hth] at hu
    cases hu

/-- Two calls that meet are a send of the element handed over and a receive. -/
theorem DirectValid.calls_of_pair (h : DirectValid K s) {a b w : Wid} {x : α}
    (hacts : s.Acts K t alt c (.pair a b w x) th) :
    (a.idx = 0 ∧ b.idx = 0) ∧ s.Sends c a.call x ∧ s.Recvs c b.call := by
  have hoff : s.Offered c a x := h.ledger.offered_of_data h.toSound hacts (List.mem_singleton_self _)
  obtain ⟨id, op, pc, pc', hth, -, hflow⟩ := h.direct.flow hacts
  have hown : .call id t (.direct c op) ∈ s.events := h.hist.running t id _ (by rw [hth]; rfl)
  have hok := h.direct_ok hth
  -- the waiter in hand belongs to a single call of the other side
  have hother : ∀ {v : Wid}, pc = .meetCopy v → ∃ u op', .call v.call u (.direct c op') ∈ s.events ∧
      op'.single = true ∧ op'.side = op.side.other ∧ v.idx = 0 := by
    rintro v rfl
    refine h.direct.single_of_owned h.toSound (h.queues.claimed t v c op.side.other ?_).1
    rw [hth]
    rfl
  cases hflow with
  | @meetSend v y time hop =>
    subst hop
    obtain ⟨u, op', hcall, hsingle, hside, hidx⟩ := hother rfl
    refine ⟨⟨rfl, hidx⟩, ⟨t, time, hown⟩, u, ?_⟩
    cases op' with
    | recv time' => exact ⟨time', hcall⟩
    | send z time' => cases hside
    | _ => cases hsingle
  | @meetRecv v y hop hdata =>
    obtain ⟨u, op', hcall, hsingle, hside, hidx⟩ := hother rfl
    obtain ⟨time, rfl⟩ : ∃ time, op = .recv time := by
      cases op with
      | recv time => exact ⟨time, rfl⟩
      | send z time => cases hop
      | _ => cases hok
    refine ⟨⟨hidx, rfl⟩, ⟨u, ?_⟩, t, time, hown⟩
    cases op' with
    | send z time' =>
      -- the element copied is the one that was offered
      obtain ⟨-, rfl⟩ := hoff.eq h.hist ⟨u, _, hcall, rfl, if_pos hidx⟩
      exact ⟨time', hcall⟩
    | recv time' => cases hside
    | _ => cases hsingle

end Meeting

section Step

variable [DecidableEq T] [DecidableEq C] {K : Config T C} {s s' : Sys T C α} {l : Label T C α}
  {t : T} {alt : Bool} {c : C} {e : Effect α} {th : Thread C α} {met : List (Nat × Nat × α)}

omit [DecidableEq C] in
theorem Chan.Met.pair {ch : Chan T α} (h : ch.Met met) {cap : RingCap} {a b : Nat} {w : Wid} {x : α} :
    (ch.apply cap t (.pair ⟨a, 0⟩ ⟨b, 0⟩ w x)).Met (met ++ [(a, b, x)]) where
  takers := h.takers
  sent := by
    show ch.sent ++ [(⟨a, 0⟩, x)] = _
    rw [h.sent, List.map_append]
    rfl
  recvd := by
    show ch.recvd ++ [(⟨b, 0⟩, x)] = _
    rw [h.recvd, List.map_append]
    rfl

omit [DecidableEq C] in
theorem Chan.Met.apply {ch : Chan T α} (h : ch.Met met) {cap : RingCap} (hring : e.isRing = false)
    (hspsc : ∀ p, e ≠ .spsc p) (hpair : e.meets = []) : (ch.apply cap t e).Met met := by
  cases e with
  | ring weak p => cases hring
  | spsc p => exact absurd rfl (hspsc p)
  | pair a b w x => cases hpair
  | _ => exact ⟨h.takers, h.sent, h.recvd⟩

omit [DecidableEq T] [DecidableEq C] in
theorem MeetingInv.init (slots : C → U32 → α) : MeetingInv K (Sys.init slots : Sys T C α) where
  met _ _ := ⟨[], ⟨rfl, rfl, rfl⟩, nofun⟩
  buffer _ _ _ _ := fun ⟨_, _, h, _⟩ => by cases h

theorem MeetingInv.met_move (h : MeetingInv K s) (hv : DirectValid K s)
    (hacts : s.Acts K t alt c e th) {d : C} (hd : (K.chan d).capacity = 0) :
    ∃ met, ((s.move K t c e th).mem.chan d).Met met ∧
      ∀ m ∈ met, s.Sends d m.1 m.2.2 ∧ s.Recvs d m.2.1 := by
  obtain ⟨met, hmet, hcalls⟩ := h.met d hd
  show ∃ met, ((s.mem.apply K t c e).chan d).Met met ∧ _
  by_cases hdc : d = c
  · subst hdc
    rw [Mem.chan_apply_self]
    obtain ⟨hring, hspsc⟩ := hacts.not_ring (hv.ok t) hd
    cases e with
    | pair a b w x =>
      obtain ⟨⟨ha, hb⟩, hsends, hrecvs⟩ := hv.calls_of_pair hacts
      obtain ⟨a, i⟩ := a
      obtain ⟨b, j⟩ := b
      obtain rfl : i = 0 := ha
      obtain rfl : j = 0 := hb
      refine ⟨met ++ [(a, b, x)], hmet.pair, fun m hm => ?_⟩
      rcases List.mem_append.1 hm with hm | hm
      · exact hcalls m hm
      · rw [List.mem_singleton.1 hm]
        exact ⟨hsends, hrecvs⟩
    | _ => exact ⟨met, hmet.apply hring hspsc rfl, hcalls⟩
  · rw [Mem.chan_apply_of_ne K s.mem t c e hdc]
    exact ⟨met, hmet, hcalls⟩

/-- A step on an unbuffered channel writes to a buffer exactly when it hands an element over. -/
theorem MeetingInv.buffer_move (h : MeetingInv K s) (hv : DirectValid K s)
    (hacts : s.Acts K t alt c e th) {d : C} (hd : (K.chan d).capacity = 0) {w : Wid} {v : α}
    (hacc : s.Accepting d w) : ((s.move K t c e th).mem.waiter w).data = some v ↔
      (w, v) ∈ ((s.move K t c e th).mem.chan d).recvd := by
  show ((s.mem.apply K t c e).waiter w).data = some v ↔ (w, v) ∈ ((s.mem.apply K t c e).chan d).recvd
  have hold := h.buffer d w v hd hacc
  by_cases hw : w ∈ e.tags
  · obtain rfl : c = d := Sys.Accepting.chan_eq hv.hist (hv.accepting_of_tags hacts hw) hacc
    obtain ⟨hring, hspsc⟩ := hacts.not_ring (hv.ok t) hd
    cases e with
    | ring weak p => cases hring
    | spsc p => exact absurd rfl (hspsc p)
    | pair a b u x =>
      obtain rfl : w = b := List.mem_singleton.1 hw
      have hfresh : ¬ s.mem.Took w := Sys.fresh_of_grants hv.toSound hv.selects hv.waiters hacts
        (List.mem_cons_of_mem _ (List.mem_singleton_self w))
      rw [Mem.data_apply_self K s.mem t c _ w rfl, Mem.chan_apply_self]
      show some x = some v ↔ (w, v) ∈ (s.mem.chan c).recvd ++ [(w, x)]
      constructor
      · intro hx
        cases hx
        exact List.mem_append_right _ (List.mem_singleton_self _)
      · intro hmem
        rcases List.mem_append.1 hmem with hmem | hmem
        · exact absurd ⟨c, Or.inr (Or.inr (List.mem_map_of_mem hmem))⟩ hfresh
        · cases List.mem_singleton.1 hmem
          rfl
    | _ => cases hw
  · rw [Mem.data_apply K s.mem t c e w fun x hx => hw (Effect.mem_tags_of_writes hx), hold]
    by_cases hdc : d = c
    · subst hdc
      rw [Mem.chan_apply_self, Chan.recvd_apply, List.mem_append]
      refine ⟨Or.inl, fun hmem => hmem.resolve_right fun hmem => hw ?_⟩
      have hfst := (Chan.recvs_sublist _ _).subset (List.mem_map_of_mem (f := Prod.fst) hmem)
      rcases List.mem_append.1 hfst with hfst | hfst
      · exact Chan.pops_subset _ e hfst
      · exact Effect.meets_subset e hfst
    · rw [Mem.chan_apply_of_ne K s.mem t c e hdc]

omit [DecidableEq T] [DecidableEq C] in
/-- The output buffers of a call are empty when it starts. -/
theorem Sys.data_startWaiter {k : Call C α} {i : Nat} (h : k.Accepts c i) :
    (Sys.startWaiter k i).data = none := by
  cases k with
  | direct d op =>
    obtain ⟨-, hop⟩ := h
    cases op with
    | send x time => cases hop
    | sendBurst xs => cases hop
    | _ => rfl
  | select cases timeout =>
    obtain ⟨k, hk, -, helem⟩ := h
    rw [Sys.startWaiter, hk]
    exact helem

theorem MeetingInv.step (h : MeetingInv K s) (hv : DirectValid K s) (hstep : s.Stepped K l s') :
    MeetingInv K s' := by
  have hkeep : ∀ {s' : Sys T C α}, s.events ⊆ s'.events → s'.mem.chan = s.mem.chan →
      ∀ c, (K.chan c).capacity = 0 → ∃ met, (s'.mem.chan c).Met met ∧
        ∀ m ∈ met, s'.Sends c m.1 m.2.2 ∧ s'.Recvs c m.2.1 := by
    intro s' hsub hmem c hc
    obtain ⟨met, hmet, hcalls⟩ := h.met c hc
    rw [hmem]
    refine ⟨met, hmet, fun m hm => ?_⟩
    obtain ⟨⟨t, time, hsend⟩, u, time', hrecv⟩ := hcalls m hm
    exact ⟨⟨t, time, hsub hsend⟩, u, time', hsub hrecv⟩
  cases hstep with
  | @call t k hidle =>
    refine ⟨hkeep (List.subset_append_left _ _) rfl, fun d w v hd hacc => ?_⟩
    obtain ⟨u, k', hcall, hacc⟩ := hacc
    show (if w.call = s.next then _ else s.mem.waiter w).data = some v ↔ (w, v) ∈ (s.mem.chan d).recvd
    rcases Sys.mem_events_startCall.1 hcall with hcall | hnew
    · rw [if_neg (Nat.ne_of_lt (hv.hist.call_lt _ _ _ hcall))]
      exact h.buffer d w v hd ⟨u, k', hcall, hacc⟩
    · obtain ⟨hid, -, rfl⟩ := Event.call.inj hnew
      rw [if_pos hid, Sys.data_startWaiter hacc]
      refine ⟨nofun, fun hmem => ?_⟩
      obtain ⟨v, k'', hold, -⟩ := hv.ledger.taken d w (Or.inr (List.mem_map_of_mem hmem))
      exact absurd hid (Nat.ne_of_lt (hv.hist.call_lt _ _ _ hold))
  | ret hdone hret =>
    refine ⟨hkeep (List.subset_append_left _ _) rfl, fun d w v hd hacc => ?_⟩
    obtain ⟨u, k, hcall, hacc⟩ := hacc
    refine h.buffer d w v hd ⟨u, k, ?_, hacc⟩
    exact (Sys.mem_events_finishCall.1 hcall).resolve_right nofun
  | move hnext hacts =>
    exact ⟨fun c hc => h.met_move hv hacts hc, fun d w v hd hacc => h.buffer_move hv hacts hd hacc⟩

omit [DecidableEq T] in
/-- A receive on an unbuffered channel that has moved an element was handed one. -/
theorem MeetingInv.recvd_of_took (h : MeetingInv K s) (hv : Valid K s)
    (hc : (K.chan c).capacity = 0) {w : Wid} (hacc : s.Accepting c w) (htook : s.mem.Took w) :
    ∃ v, (w, v) ∈ (s.mem.chan c).recvd := by
  obtain ⟨d, hsent | htaken | hrecvd⟩ := htook
  · obtain ⟨⟨w', x⟩, hmem, rfl⟩ := List.mem_map.1 hsent
    exact absurd hacc (Sys.Offered.not_accepting hv.hist (hv.ledger.sent d _ x hmem))
  · obtain rfl := Sys.Accepting.chan_eq hv.hist (hv.ledger.taken d w (Or.inl htaken)) hacc
    obtain ⟨met, hmet, -⟩ := h.met d hc
    rw [hmet.takers] at htaken
    cases htaken
  · obtain rfl := Sys.Accepting.chan_eq hv.hist (hv.ledger.taken d w (Or.inr hrecvd)) hacc
    obtain ⟨⟨w', v⟩, hmem, rfl⟩ := List.mem_map.1 hrecvd
    exact ⟨v, hmem⟩

end Step

end LibChan
