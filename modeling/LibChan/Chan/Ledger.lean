import LibChan.Chan.Waiters
import LibChan.Chan.Entries
import LibChan.Chan.Closed

/-!
# The histories of a channel are in order

No waiter is granted an element twice (`Sys.fresh_of_grants`), so nobody occurs twice in the histories
of a channel. Every element in them belongs to a call that offers it, and every taker to a call that
asks for one (`LedgerInv`).
-/

set_option autoImplicit false

namespace LibChan

/-! ## No waiter is granted an element twice -/

section Fresh

variable {T C α : Type} {K : Config T C} {m : Mem T C α} {id : Nat} {c : C} {op : Op α} {alt : Bool}
  {w : Wid}

theorem RingPc.got_of_grants {p : RingPc Wid α} (h : w ∈ (m.chan c).grants (.ring alt p)) :
    p.got = [] := by
  cases p with
  | cas op a k => rfl
  | _ => cases h

theorem SpscPc.got_of_grants {p : SpscPc Wid α} (h : w ∈ (m.chan c).grants (.spsc p)) :
    p.got = [] := by
  cases p with
  | storeTail op a acc => rfl
  | _ => cases h

/-- A step of a direct call grants an element to the caller, for whom nothing is noted yet, or to the
waiter in its hands, for whom nothing is noted either. -/
theorem Pc.fresh_of_flow {pc pc' : Pc α} {e : Effect α} (hok : pc.Ok (K.chan c) id op)
    (hflow : Pc.Flow K m id c op alt pc e pc') (hw : w ∈ (m.chan c).grants e) :
    w.call = id ∧ pc.shared = false ∧ pc.mayGot (K.chan c) id op = [] ∨
      (∃ o, pc.hand c op = some (w, .claimed c o)) ∧ pc.handGot = [] := by
  cases pc with
  | fastRing spin p =>
    obtain rfl : e = .ring alt p := by cases hflow <;> rfl
    exact Or.inl ⟨RingPc.own_of_grants hok.2.2.2 (fun _ => Op.call_of_ringOp) hw, rfl,
      RingPc.got_of_grants hw⟩
  | fastSpsc spin p =>
    obtain rfl : e = .spsc p := by cases hflow <;> rfl
    refine Or.inl ⟨?_, rfl, SpscPc.got_of_grants hw⟩
    have hmem := SpscPc.mem_wids_of_grants hw
    rw [hok.2.2.2] at hmem
    exact Op.call_of_ringOp hmem
  | burstRing p =>
    obtain rfl : e = .ring alt p := by cases hflow <;> rfl
    exact Or.inl ⟨RingPc.own_of_grants hok.2.2 (fun _ => Op.call_of_burstOp) hw, rfl,
      RingPc.got_of_grants hw⟩
  | slowRing p =>
    obtain rfl : e = .ring alt p := by cases hflow <;> rfl
    exact Or.inl ⟨RingPc.own_of_grants hok.2.2 (fun _ => Op.call_of_ringOp) hw, rfl,
      RingPc.got_of_grants hw⟩
  | recheck p =>
    obtain rfl : e = .ring alt p := by cases hflow <;> rfl
    exact Or.inl ⟨RingPc.own_of_grants hok.2.2 (fun _ => Op.call_of_ringOp) hw, rfl,
      RingPc.got_of_grants hw⟩
  | backRing p =>
    obtain rfl : e = .ring alt p := by cases hflow <;> rfl
    exact Or.inl ⟨RingPc.own_of_grants hok.2.2 (fun _ => Op.call_of_ringOp) hw, rfl,
      RingPc.got_of_grants hw⟩
  | serve k st =>
    cases st with
    | ring v p =>
      obtain rfl : e = .ring alt p := by cases hflow <;> rfl
      cases RingPc.served_of_grants hok.2.2 hw
      exact Or.inr ⟨⟨_, rfl⟩, RingPc.got_of_grants hw⟩
    | _ => cases hflow <;> cases hw
  | helpRing v p =>
    obtain rfl : e = .ring alt p := by cases hflow <;> rfl
    cases RingPc.served_of_grants hok.2.2.2 hw
    exact Or.inr ⟨⟨_, rfl⟩, RingPc.got_of_grants hw⟩
  | closeRing v p =>
    obtain rfl : e = .ring alt p := by cases hflow <;> rfl
    cases RingPc.served_of_grants hok.2.2 hw
    exact Or.inr ⟨⟨_, rfl⟩, RingPc.got_of_grants hw⟩
  | meetCopy v =>
    cases hflow with
    | meetSend hop =>
      rcases List.mem_cons.1 hw with rfl | hw
      · exact Or.inl ⟨rfl, rfl, rfl⟩
      · cases List.mem_singleton.1 hw
        exact Or.inr ⟨⟨_, rfl⟩, rfl⟩
    | meetRecv hop hdata =>
      rcases List.mem_cons.1 hw with rfl | hw
      · exact Or.inr ⟨⟨_, rfl⟩, rfl⟩
      · cases List.mem_singleton.1 hw
        exact Or.inl ⟨rfl, rfl, rfl⟩
  | _ => cases hflow <;> cases hw

/-- A step of a select grants an element to its own case, for which nothing is noted yet, or to the
waiter in its hands, for whom nothing is noted either. -/
theorem SelPc.fresh_of_flow [DecidableEq C] {t : T} {cases : List (Case C α)} {timeout : Int}
    {pc pc' : SelPc C α} {e : Effect α} (hok : pc.Ok K id cases)
    (hflow : SelPc.Flow K m t id cases timeout alt pc c e pc') (hw : w ∈ (m.chan c).grants e) :
    w.call = id ∧ (∀ (s : Sys T C α) n, pc.Inv s id n → s.Unregistered id []) ∨
      (∃ o, pc.hand cases = some (w, .claimed c o)) ∧ pc.handGot = [] := by
  have hring : ∀ {p : RingPc Wid α} (s : Sys T C α), w ∈ (m.chan c).grants (.ring alt p) →
      s.Unregistered id p.got → s.Unregistered id [] := by
    intro p s hw h
    rwa [RingPc.got_of_grants hw] at h
  cases hflow with
  | fast2In hk hp =>
    obtain ⟨k, hk', -, hruns⟩ := hok
    have hmem := RingPc.mem_wids_of_grants hw
    rw [(hruns _ rfl).1] at hmem
    exact Or.inl ⟨by rw [Case.call_of_ringOp hmem], fun s _ => hring s hw⟩
  | fast2Hit hk hp => exact (RingPc.not_grants_of_inr hp hw).elim
  | fast2Miss hk hp => exact (RingPc.not_grants_of_inr hp hw).elim
  | pick hk hmem he => rcases he with rfl | ⟨v, rfl⟩ <;> cases hw
  | @execGo i k st st' e hk hexec =>
    obtain ⟨k', hk', hok⟩ := hok
    obtain rfl : k = k' := Option.some.inj (hk.symm.trans hk')
    have hhand : ∀ st, (exec i st).hand cases = SelPc.execHand k st := by
      intro st
      rw [SelPc.hand, hk]
      rfl
    cases hexec with
    | ringIn hp =>
      have hmem := RingPc.mem_wids_of_grants hw
      rw [hok.2.1] at hmem
      exact Or.inl ⟨by rw [Case.call_of_ringOp hmem], fun s _ => hring s hw⟩
    | ringOut hp => exact (RingPc.not_grants_of_inr hp hw).elim
    | helpIn hp =>
      cases RingPc.served_of_grants hok.2.2 hw
      exact Or.inr ⟨⟨_, hhand _⟩, RingPc.got_of_grants hw⟩
    | helpOut hp => exact (RingPc.not_grants_of_inr hp hw).elim
    | copySend hx =>
      rcases List.mem_cons.1 hw with rfl | hw
      · exact Or.inl ⟨rfl, fun _ _ h => h⟩
      · cases List.mem_singleton.1 hw
        exact Or.inr ⟨⟨_, hhand _⟩, rfl⟩
    | copyRecv hx hdata =>
      rcases List.mem_cons.1 hw with rfl | hw
      · exact Or.inr ⟨⟨_, hhand _⟩, rfl⟩
      · cases List.mem_singleton.1 hw
        exact Or.inl ⟨rfl, fun _ _ h => h⟩
    | _ => cases hw
  | execDone hk hexec => cases hexec <;> cases hw
  | _ => cases hw

end Fresh

section Step

variable {T C α : Type} [DecidableEq T] [DecidableEq C] {K : Config T C} {s s' : Sys T C α}
  {l : Label T C α} {t : T} {alt : Bool} {c : C} {e : Effect α} {th : Thread C α} {w : Wid}

omit [DecidableEq T] [DecidableEq C] in
/-- What holds of the stubs of a parked select. -/
theorem SelPc.Inv.stubs {id n : Nat} {pc : SelPc C α} (h : pc.Inv s id n)
    (hreg : pc.registered = true) : s.Stubs id n := by
  cases pc with
  | unlockAll cs k =>
    cases k with
    | ret r => cases hreg
    | park => exact h
  | park => exact h
  | lockAll cs k =>
    cases k with
    | ready => cases hreg
    | clean woken => exact h.1
  | clean i woken winner => exact h.1
  | _ => cases hreg

omit [DecidableEq T] in
/-- The waiter in the hands of a thread that has noted nothing for it has no element yet. -/
theorem Sys.not_took_of_hand (hs : Sound K s) (hsel : SelectInv s) (hmay : WaiterInv K s) {o : ChanOp}
    (hhand : (s.thread t).hand = some (w, .claimed c o)) (hgot : (s.thread t).handGot = []) :
    ¬ s.mem.Took w := by
  intro htook
  obtain ⟨⟨u, hwaits⟩, hres⟩ := hs.queues.claimed t w c o hhand
  cases hth : s.thread u with
  | idle =>
    rw [hth] at hwaits
    exact hwaits.elim
  | direct id d op pc =>
    rw [hth] at hwaits
    obtain ⟨-, -, rfl, hpc⟩ := hwaits
    have hown := hmay.running u
    rw [hth] at hown
    cases hsh : pc.shared with
    | true =>
      have hmem := (hown.shared hsh).claimed t ⟨_, _, hhand⟩ htook
      rw [hgot] at hmem
      cases hmem
    | false =>
      -- the caller still has its lock, and its waiter is in the queue
      have henr : pc.enrolled = true := by
        cases pc with
        | recheck p => rfl
        | unRemove => rfl
        | parkUnlock | park | expLock | expRemove | reparkUnlock | repark => cases hsh
        | _ => cases hpc
      exact (hs.queues.hand t _ _ hhand).queue d _ (hs.enrolled u id d op pc hth henr)
  | select id cases timeout pc =>
    rw [hth] at hwaits
    have hcall : w = ⟨id, w.idx⟩ := Wid.ext hwaits.1 rfl
    cases hreg : pc.registered with
    | false => exact hs.not_claimed hth hreg hhand hwaits.1
    | true =>
      have hstubs := (hsel.running u id cases timeout pc hth).stubs hreg
      rw [hcall] at htook
      rcases hstubs.took _ htook with hok | ⟨v, d, o', hv, hmem⟩
      · have hstate := hs.calls.state u id (by rw [hth]; rfl)
        have hne : s.mem.selectState w.call ≠ none := by
          intro hnone
          rw [← hwaits.1, hnone, hth] at hstate
          cases hstate
        rw [← hcall, hres hne] at hok
        cases hok
      · cases hs.queues.hand_inj v t _ _ _ _ hv hhand hwaits.1.symm
        rw [hgot] at hmem
        cases hmem

omit [DecidableEq T] in
/-- A step moves elements only for waiters that have none yet. -/
theorem Sys.fresh_of_grants (hs : Sound K s) (hsel : SelectInv s) (hmay : WaiterInv K s)
    (hacts : s.Acts K t alt c e th) (hw : w ∈ (s.mem.chan c).grants e) : ¬ s.mem.Took w := by
  cases hacts with
  | @direct id c op pc pc' e hth hact =>
    rcases Pc.fresh_of_flow (hs.direct_ok hth) (Pc.flow_of_act hact) hw with
      ⟨hcall, hshared, hgot⟩ | ⟨⟨o, hhand⟩, hgot⟩
    · have hown := hmay.running t
      rw [hth] at hown
      intro htook
      have hmem := hown.own hshared w.idx (by rw [← hcall]; exact htook)
      rw [hgot] at hmem
      cases hmem
    · refine Sys.not_took_of_hand hs hsel hmay (t := t) (c := c) (o := o) ?_ ?_
      · rw [hth]
        exact hhand
      · rw [hth]
        exact hgot
  | @select id cases timeout pc pc' c d e hth hact =>
    rcases SelPc.fresh_of_flow (hs.select_ok hth) (SelPc.flow_of_act hact) hw with
      ⟨hcall, hinv⟩ | ⟨⟨o, hhand⟩, hgot⟩
    · intro htook
      have hnone := hinv s cases.length (hsel.running t id cases timeout pc hth) w.idx
      exact List.not_mem_nil (hnone.2 (by rw [← hcall]; exact htook))
    · refine Sys.not_took_of_hand hs hsel hmay (t := t) (c := c) (o := o) ?_ ?_
      · rw [hth]
        exact hhand
      · rw [hth]
        exact hgot

end Step

/-! ## The histories -/

section Inv

variable {T C α ω β : Type}

/-- Waiter `w` belongs to a call that offers `x` to channel `c`. -/
def Sys.Offered (s : Sys T C α) (c : C) (w : Wid) (x : α) : Prop :=
  ∃ t k, .call w.call t k ∈ s.events ∧ k.Offers c w.idx x

/-- Waiter `w` belongs to a call that takes an element from channel `c`. -/
def Sys.Accepting (s : Sys T C α) (c : C) (w : Wid) : Prop :=
  ∃ t k, .call w.call t k ∈ s.events ∧ k.Accepts c w.idx

/-- The histories are in order: every element belongs to a call that offers it, every taker to a call
that asks for one, and no waiter occurs twice. The buffer of a sender keeps its element. -/
structure LedgerInv (s : Sys T C α) : Prop where
  sent : ∀ c w x, (w, x) ∈ (s.mem.chan c).sent → s.Offered c w x
  log : ∀ c, (s.mem.chan c).hist.log.Sublist (s.mem.chan c).sent
  taken : ∀ c w, w ∈ (s.mem.chan c).hist.takers ∨ w ∈ (s.mem.chan c).recvd.map Prod.fst →
    s.Accepting c w
  data : ∀ c w x, s.Offered c w x → (s.mem.waiter w).data = some x
  hand : ∀ t c w p x, (s.thread t).hand = some (w, .claimed c .send) →
    (s.thread t).ring? = some (c, p) → (w, x) ∈ p.op.data → s.Offered c w x
  sent_nodup : ∀ c, ((s.mem.chan c).sent.map Prod.fst).Nodup
  takers_nodup : ∀ c, (s.mem.chan c).hist.takers.Nodup
  recvd_nodup : ∀ c, ((s.mem.chan c).recvd.map Prod.fst).Nodup

/-- The elements and the takers of a ring operation have different tags. -/
def RingOp.Distinct (op : RingOp ω β) : Prop := (op.data.map Prod.fst).Nodup ∧ op.tags.Nodup

theorem RingOp.Serves.distinct {w : ω} {o : ChanOp} {op : RingOp ω β} (h : op.Serves w o) :
    op.Distinct := by
  cases op with
  | push v x => exact ⟨List.nodup_singleton _, List.nodup_nil⟩
  | pop v => exact ⟨List.nodup_nil, List.nodup_singleton _⟩
  | _ => exact h.elim

theorem Op.distinct_ringOp (op : Op α) (id : Nat) : (op.ringOp id).Distinct := by
  cases op with
  | send x time => exact ⟨List.nodup_singleton _, List.nodup_nil⟩
  | _ => exact ⟨List.nodup_nil, List.nodup_singleton _⟩

theorem Case.distinct_ringOp (k : Case C α) (w : Wid) : (k.ringOp w).Distinct := by
  obtain ⟨d, elem⟩ := k
  cases elem with
  | none => exact ⟨List.nodup_nil, List.nodup_singleton _⟩
  | some x => exact ⟨List.nodup_singleton _, List.nodup_nil⟩

theorem Op.distinct_burstOp (op : Op α) (id : Nat) : (op.burstOp id).Distinct := by
  have hinj : Function.Injective fun i : Nat => (⟨id, i⟩ : Wid) := fun a b h => congrArg Wid.idx h
  cases op with
  | sendBurst xs =>
    refine ⟨?_, List.nodup_nil⟩
    have hmap : ((Op.sendBurst xs).burstOp id).data.map Prod.fst =
        ((xs.take (2 ^ 32 - 1)).zipIdx.map Prod.snd).map fun i => (⟨id, i⟩ : Wid) := by
      rw [burstOp, RingOp.data, List.map_map, List.map_map]
      rfl
    rw [hmap, List.zipIdx_map_snd]
    exact List.Nodup.map hinj List.nodup_range'
  | recvBurst n => exact ⟨List.nodup_nil, List.Nodup.map hinj List.nodup_range⟩
  | _ => exact ⟨List.nodup_nil, List.nodup_nil⟩

theorem Thread.distinct_of_ring {K : Config T C} {th : Thread C α} {c : C} {p : RingPc Wid α}
    (hok : th.Ok K) (hring : th.ring? = some (c, p)) : p.op.Distinct := by
  cases Thread.ringFor hok hring with
  | @single id op pc p hop hruns =>
    rw [hruns.1]
    exact op.distinct_ringOp id
  | @burst id op pc p hop hruns =>
    rw [hruns.1]
    exact op.distinct_burstOp id
  | @case id cases timeout pc p i k hk hchan hruns =>
    rw [hruns.1]
    exact k.distinct_ringOp _
  | waiter hhand hserves => exact hserves.1.distinct

/-- A call does not both offer and take an element under one index. -/
theorem Call.not_accepts_of_offers {k : Call C α} {c d : C} {i : Nat} {x : α}
    (h : k.Offers c i x) : ¬ k.Accepts d i := by
  cases k with
  | direct e op =>
    rintro ⟨-, hacc⟩
    obtain ⟨-, hoff⟩ := h
    cases op with
    | send y time => cases hacc
    | sendBurst xs => cases hacc
    | _ => cases hoff
  | select cases timeout =>
    rintro ⟨k', hk', -, hnone⟩
    obtain ⟨k, hk, -, hsome⟩ := h
    obtain rfl := Option.some.inj (hk.symm.trans hk')
    cases hnone.symm.trans hsome

section Places

variable {K : Config T C} {m : Mem T C α} {id : Nat} {c : C} {op : Op α} {alt : Bool} {w : Wid}
  {x : α}

theorem data_of_serveOp {rop : RingOp Wid α} {v : Wid} (hrop : serveOp m v .send = some rop)
    (hx : (w, x) ∈ rop.data) : w = v ∧ (m.waiter v).data = some x := by
  obtain ⟨y, hy, rfl⟩ := Option.map_eq_some_iff.1 hrop
  cases List.mem_singleton.1 hx
  exact ⟨rfl, hy⟩

theorem RingPc.op_of_inl {p p' : RingPc Wid α} (hp : m.access K c alt p = .inl p') :
    p'.op = p.op := by
  unfold Mem.access at hp
  cases p with
  | loadHead op => cases hp; rfl
  | store op a k acc => cases hp
  | _ =>
    simp only [Ring.step] at hp
    split at hp <;> cases hp <;> rfl

/-- The element that is pushed for the sender in hand has been read from its buffer. -/
theorem Pc.handData_of_flow {pc pc' : Pc α} {e : Effect α} {p : RingPc Wid α}
    (hflow : Pc.Flow K m id c op alt pc e pc') (hhand : pc'.hand c op = some (w, .claimed c .send))
    (hring : pc'.ring? = some p) (hx : (w, x) ∈ p.op.data) :
    (pc.hand c op = some (w, .claimed c .send) ∧ ∃ q, pc.ring? = some q ∧ (w, x) ∈ q.op.data) ∨
      w ∈ (m.chan c).queue .send ∧ (m.waiter w).data = some x := by
  cases hflow with
  | @serveClaim k v q rop hqueue hclaim hrop =>
    cases hring
    cases hside : op.side with
    | send =>
      rw [Pc.hand, hside] at hhand
      cases hhand
    | recv =>
      rw [hside] at hqueue hrop
      obtain ⟨rfl, hdata⟩ := data_of_serveOp hrop hx
      refine Or.inr ⟨?_, hdata⟩
      rw [ChanOp.other_recv] at hqueue
      rw [hqueue]
      exact List.mem_cons_self
  | serveIn hp =>
    cases hring
    rw [RingPc.op_of_inl hp] at hx
    exact Or.inl ⟨hhand, _, rfl, hx⟩
  | helpClaim hqueue hclaim hrop =>
    cases hring
    obtain ⟨rfl, hdata⟩ := data_of_serveOp hrop hx
    refine Or.inr ⟨?_, hdata⟩
    rw [hqueue]
    exact List.mem_cons_self
  | helpIn hp =>
    cases hring
    rw [RingPc.op_of_inl hp] at hx
    exact Or.inl ⟨hhand, _, rfl, hx⟩
  | closeClaimRing => cases hhand
  | closeIn => cases hhand
  | serveStopBlock hstop hblock | serveEmptyBlock hqueue hblock | servePutBackBlock hblock
  | meetEmptySend hqueue hop hblock | emptyOpen hopen hblock => cases hblock <;> cases hring
  | _ => first | (cases hhand; done) | cases hring

/-- The element that is pushed for the sender in hand has been read from its buffer. -/
theorem SelPc.handData_of_flow [DecidableEq C] {t : T} {cases : List (Case C α)} {timeout : Int}
    {pc pc' : SelPc C α} {d : C} {e : Effect α} {p : RingPc Wid α}
    (hflow : SelPc.Flow K m t id cases timeout alt pc d e pc')
    (hhand : pc'.hand cases = some (w, .claimed c .send)) (hring : pc'.ring? cases = some (c, p))
    (hx : (w, x) ∈ p.op.data) :
    (pc.hand cases = some (w, .claimed c .send) ∧
      ∃ q, pc.ring? cases = some (c, q) ∧ (w, x) ∈ q.op.data) ∨
      w ∈ (m.chan c).queue .send ∧ (m.waiter w).data = some x := by
  have hring1 : Step1 cases pc' → False := fun h => by
    cases (SelPc.ring_of_step1 h).symm.trans hring
  have hring2 : ∀ {start}, Step2 K cases start pc' → False := fun h => by
    cases (SelPc.ring_of_step2 h).symm.trans hring
  have hpasses : ∀ {rdy}, Passes K cases timeout rdy pc' → False := fun h => by
    cases (SelPc.ring_of_passes h).symm.trans hring
  cases hflow with
  | fast1Skip hk hst => exact (hring1 hst).elim
  | fast2Start hst | fast2Skip hk hcnt hst | fast2Miss hk hp hres hst => exact (hring2 hst).elim
  | pass hpass | readyNot hk hpass | readySend hk hop hopen hpass | readyShut hk hop hclosed hpass
  | readyYes hk hst hpass => exact (hpasses hpass).elim
  | pick hk hmem he hst =>
    rw [SelPc.hand, hk, Option.bind_some, hst] at hhand
    unfold execFrom at hhand
    split at hhand
    · cases hhand
    · split at hhand
      · split at hhand <;> cases hhand
      · cases hhand
  | @execGo i k st st' e hk hexec =>
    rw [SelPc.hand, hk, Option.bind_some] at hhand
    rw [SelPc.ring_exec hk] at hring
    obtain ⟨q, hq, heq⟩ := Option.map_eq_some_iff.1 hring
    cases heq
    cases hexec with
    | helpIn hp =>
      cases hq
      rw [RingPc.op_of_inl hp] at hx
      refine Or.inl ⟨?_, _, SelPc.ring_exec hk _, hx⟩
      rw [SelPc.hand, hk]
      exact hhand
    | helpRecv hop hqueue hclaim hrop =>
      cases hq
      obtain ⟨rfl, hdata⟩ := data_of_serveOp hrop hx
      refine Or.inr ⟨?_, hdata⟩
      rw [hqueue]
      exact List.mem_cons_self
    | _ => first | cases hhand | cases hq
  | _ => cases hhand

end Places

/-! ## Steps -/

section Step

variable [DecidableEq T] [DecidableEq C] {K : Config T C} {s s' : Sys T C α} {l : Label T C α}
  {t : T} {alt : Bool} {c : C} {e : Effect α} {th : Thread C α} {w : Wid} {x : α}

omit [DecidableEq T] [DecidableEq C] in
theorem Pc.single_of_waits {k : ChanCfg} {id : Nat} {op : Op α} {pc : Pc α} (hok : pc.Ok k id op)
    (h : pc.waits = true) : op.single = true := by
  cases pc with
  | recheck p => exact hok.1
  | unRemove | reparkUnlock | repark => exact hok.1
  | parkUnlock | park | expLock | expRemove => exact hok
  | _ => cases h

omit [DecidableEq T] in
/-- A waiter in the queue of the senders offers an element. -/
theorem Sound.offered_of_owned (hs : Sound K s) (how : s.Owned c .send w) : ∃ x, s.Offered c w x := by
  obtain ⟨u, hwaits⟩ := how
  cases hth : s.thread u with
  | idle =>
    rw [hth] at hwaits
    exact hwaits.elim
  | direct id d op pc =>
    rw [hth] at hwaits
    obtain ⟨rfl, hside, rfl, hpc⟩ := hwaits
    have hcall := hs.hist.running u id (.direct c op) (by rw [hth]; rfl)
    have hok := hs.direct_ok hth
    cases op with
    | send y time => exact ⟨y, u, _, hcall, rfl, rfl⟩
    | sendBurst xs => cases Pc.single_of_waits hok hpc
    | _ => cases hside
  | select id cases timeout pc =>
    rw [hth] at hwaits
    obtain ⟨rfl, -, k, hk, rfl, hop⟩ := hwaits
    have hcall := hs.hist.running u w.call (.select cases timeout) (by rw [hth]; rfl)
    cases helem : k.elem with
    | none => cases (Case.op_of_none helem).symm.trans hop
    | some y => exact ⟨y, u, _, hcall, k, hk, rfl, helem⟩

omit [DecidableEq T] in
/-- What it offers is in its buffer. -/
theorem LedgerInv.offered_of_owned (h : LedgerInv s) (hs : Sound K s) (how : s.Owned c .send w)
    (hx : (s.mem.waiter w).data = some x) : s.Offered c w x := by
  obtain ⟨y, hy⟩ := hs.offered_of_owned how
  cases (h.data c w y hy).symm.trans hx
  exact hy

omit [DecidableEq T] in
/-- A waiter in the queue of the receivers takes an element. -/
theorem Sound.accepting_of_owned (hs : Sound K s) (how : s.Owned c .recv w) : s.Accepting c w := by
  obtain ⟨u, hwaits⟩ := how
  cases hth : s.thread u with
  | idle =>
    rw [hth] at hwaits
    exact hwaits.elim
  | direct id d op pc =>
    rw [hth] at hwaits
    obtain ⟨rfl, hside, rfl, hpc⟩ := hwaits
    have hcall := hs.hist.running u id (.direct c op) (by rw [hth]; rfl)
    have hok := hs.direct_ok hth
    cases op with
    | recv time => exact ⟨u, _, hcall, rfl, rfl⟩
    | send y time => cases hside
    | sendBurst xs => cases hside
    | _ => cases Pc.single_of_waits hok hpc
  | select id cases timeout pc =>
    rw [hth] at hwaits
    obtain ⟨rfl, -, k, hk, rfl, hop⟩ := hwaits
    have hcall := hs.hist.running u w.call (.select cases timeout) (by rw [hth]; rfl)
    cases helem : k.elem with
    | none => exact ⟨u, _, hcall, k, hk, rfl, helem⟩
    | some y => cases (Case.op_of_elem helem).symm.trans hop

omit [DecidableEq T] in
/-- What a step brings is offered by a call. -/
theorem LedgerInv.offered_of_data (h : LedgerInv s) (hs : Sound K s) (hacts : s.Acts K t alt c e th)
    (hx : (w, x) ∈ e.data) : s.Offered c w x := by
  rcases hacts.data (hs.ok t) hx with ⟨k, hk, hoff⟩ | ⟨hhand, ⟨p, hring, hmem⟩ | hdata⟩
  · exact ⟨t, k, hs.hist.running t _ _ hk, hoff⟩
  · exact h.hand t c w p x hhand hring hmem
  · exact h.offered_of_owned hs (hs.queues.claimed t w c .send hhand).1 hdata

omit [DecidableEq T] in
/-- A step takes elements for calls that ask for one. -/
theorem Sound.accepting_of_tags (hs : Sound K s) (hacts : s.Acts K t alt c e th) (hw : w ∈ e.tags) :
    s.Accepting c w := by
  rcases hacts.tags (hs.ok t) hw with ⟨k, hk, hacc⟩ | hhand
  · exact ⟨t, k, hs.hist.running t _ _ hk, hacc⟩
  · exact hs.accepting_of_owned (hs.queues.claimed t w c .recv hhand).1

omit [DecidableEq T] [DecidableEq C] in
theorem Effect.mem_tags_of_writes {cap : RingCap} {ch : Chan T α}
    (h : e.writes cap ch = some (w, x)) : w ∈ e.tags := by
  cases e with
  | ring weak p =>
    cases p with
    | copy op a k i acc =>
      obtain ⟨v, hv, heq⟩ := Option.map_eq_some_iff.1 h
      cases heq
      exact List.mem_of_getElem? hv
    | _ => cases h
  | spsc p =>
    cases p with
    | copy op a =>
      obtain ⟨v, hv, heq⟩ := Option.map_eq_some_iff.1 h
      cases heq
      exact List.mem_of_getElem? hv
    | _ => cases h
  | pair a b v y =>
    cases h
    exact List.mem_singleton.2 rfl
  | _ => cases h

theorem RingOp.Distinct.pushes {r : Ring α} {weak : Bool} {p : RingPc Wid α} (h : p.op.Distinct) :
    ((p.pushes r weak).map Prod.fst).Nodup ∧ (p.pops r weak).Nodup := by
  cases p with
  | cas op a k =>
    simp only [RingPc.pushes, RingPc.pops]
    split
    · rw [List.map_take]
      exact ⟨h.1.sublist (List.take_sublist _ _), h.2.sublist (List.take_sublist _ _)⟩
    · exact ⟨List.nodup_nil, List.nodup_nil⟩
  | _ => exact ⟨List.nodup_nil, List.nodup_nil⟩

omit [DecidableEq T] in
/-- The waiters a step moves elements for are different. -/
theorem Sys.Acts.distinct (hacts : s.Acts K t alt c e th) (hok : (s.thread t).Ok K) :
    (((s.mem.chan c).sends e).map Prod.fst).Nodup ∧ ((s.mem.chan c).pops e).Nodup := by
  cases e with
  | ring weak p =>
    rw [Chan.sends_ring]
    exact (Thread.distinct_of_ring hok (hacts.ring_of_effect hok)).pushes
  | spsc p =>
    rw [Chan.sends_spsc]
    have hp : p.op.Distinct := by
      cases hacts with
      | direct hth hact =>
        rw [hth] at hok
        cases Pc.flow_of_act hact <;> (rw [hok.2.2.2]; exact Op.distinct_ringOp _ _)
      | select hth hact =>
        cases SelPc.flow_of_act hact with
        | pick _ _ he => rcases he with he | ⟨v, he⟩ <;> cases he
        | execGo hk hexec => cases hexec
        | execDone hk hexec => cases hexec
    cases p with
    | storeTail op a acc =>
      refine ⟨?_, hp.2.sublist (List.take_sublist _ _)⟩
      rw [SpscPc.pushes, List.map_take]
      exact hp.1.sublist (List.take_sublist _ _)
    | _ => exact ⟨List.nodup_nil, List.nodup_nil⟩
  | pair a b v x => exact ⟨List.nodup_singleton _, List.nodup_nil⟩
  | _ => exact ⟨List.nodup_nil, List.nodup_nil⟩

omit [DecidableEq T] [DecidableEq C] in
theorem LedgerInv.init (slots : C → U32 → α) : LedgerInv (Sys.init slots : Sys T C α) where
  sent _ _ _ h := by cases h
  log _ := List.Sublist.refl _
  taken _ _ h := by rcases h with h | h <;> cases h
  data _ _ _ h := by
    obtain ⟨t, k, hcall, -⟩ := h
    cases hcall
  hand _ _ _ _ _ h := by cases h
  sent_nodup _ := List.nodup_nil
  takers_nodup _ := List.nodup_nil
  recvd_nodup _ := List.nodup_nil

omit [DecidableEq T] [DecidableEq C] in
theorem Sys.Offered.mono (h : s.Offered c w x) (hsub : s.events ⊆ s'.events) : s'.Offered c w x := by
  obtain ⟨t, k, hcall, hoff⟩ := h
  exact ⟨t, k, hsub hcall, hoff⟩

omit [DecidableEq T] [DecidableEq C] in
theorem Sys.Accepting.mono (h : s.Accepting c w) (hsub : s.events ⊆ s'.events) : s'.Accepting c w := by
  obtain ⟨t, k, hcall, hacc⟩ := h
  exact ⟨t, k, hsub hcall, hacc⟩

theorem LedgerInv.startCall (h : LedgerInv s) (hs : Sound K s) {k : Call C α} :
    LedgerInv (s.startCall K t k) := by
  have hsub : s.events ⊆ (s.startCall K t k).events := List.subset_append_left _ _
  refine ⟨fun d w x hx => (h.sent d w x hx).mono hsub, h.log,
    fun d w hw => (h.taken d w hw).mono hsub, fun d w x hoff => ?_, fun u d w p x hhand hring hx => ?_,
    h.sent_nodup, h.takers_nodup, h.recvd_nodup⟩
  · obtain ⟨u, k', hcall, hoff⟩ := hoff
    rcases Sys.mem_events_startCall.1 hcall with hold | hnew
    · have hne : w.call ≠ s.next := Nat.ne_of_lt (hs.hist.call_lt _ _ _ hold)
      simp only [Sys.startCall, if_neg hne]
      exact h.data d w x ⟨u, k', hold, hoff⟩
    · obtain ⟨hid, -, rfl⟩ := Event.call.inj hnew
      simp only [Sys.startCall, if_pos hid]
      -- the buffers of the new call
      cases k' with
      | direct d' op =>
        obtain ⟨-, hoff⟩ := hoff
        cases op with
        | send y time => exact hoff
        | sendBurst xs => exact hoff
        | _ => cases hoff
      | select cases timeout =>
        obtain ⟨k, hk, -, helem⟩ := hoff
        rw [Sys.startWaiter, hk]
        exact helem
  · by_cases hu : u = t
    · subst hu
      rw [Sys.thread_startCall_self, (Sys.begun_startThread K s.next k).hand] at hhand
      cases hhand
    · rw [Sys.thread_startCall_of_ne hu] at hhand hring
      exact (h.hand u d w p x hhand hring hx).mono hsub

omit [DecidableEq C] in
theorem LedgerInv.finishCall (h : LedgerInv s) {id : Nat} {r : Ret} {out : List (Option α)} :
    LedgerInv (s.finishCall t id r out) := by
  have hsub : s.events ⊆ (s.finishCall t id r out).events := List.subset_append_left _ _
  refine ⟨fun d w x hx => (h.sent d w x hx).mono hsub, h.log,
    fun d w hw => (h.taken d w hw).mono hsub, fun d w x hoff => ?_, fun u d w p x hhand hring hx => ?_,
    h.sent_nodup, h.takers_nodup, h.recvd_nodup⟩
  · obtain ⟨u, k, hcall, hoff⟩ := hoff
    rcases Sys.mem_events_finishCall.1 hcall with hold | hnew
    · exact h.data d w x ⟨u, k, hold, hoff⟩
    · cases hnew
  · by_cases hu : u = t
    · subst hu
      rw [Sys.thread_finishCall_self] at hhand
      cases hhand
    · rw [Sys.thread_finishCall_of_ne hu] at hhand hring
      exact (h.hand u d w p x hhand hring hx).mono hsub

omit [DecidableEq T] in
/-- The thread that moves pushes for the sender in its hands what that call offers. -/
theorem LedgerInv.hand_own (h : LedgerInv s) (hs : Sound K s) (hacts : s.Acts K t alt c e th) {d : C}
    {p : RingPc Wid α} (hhand : th.hand = some (w, .claimed d .send)) (hring : th.ring? = some (d, p))
    (hx : (w, x) ∈ p.op.data) : s.Offered d w x := by
  have hqueue : w ∈ (s.mem.chan d).queue .send → (s.mem.waiter w).data = some x → s.Offered d w x :=
    fun hw hdata => h.offered_of_owned hs (hs.queues.queue d .send w hw).owned hdata
  cases hacts with
  | @direct id c op pc pc' e hth hact =>
    obtain ⟨q, hq, heq⟩ := Option.map_eq_some_iff.1 hring
    cases heq
    rcases Pc.handData_of_flow (Pc.flow_of_act hact) hhand hq hx with ⟨hhand, q', hq', hx⟩ | ⟨hw, hdata⟩
    · refine h.hand t c w q' x ?_ ?_ hx
      · rw [hth]
        exact hhand
      · rw [hth, Thread.ring?, hq']
        rfl
    · exact hqueue hw hdata
  | @select id cases timeout pc pc' c d' e hth hact =>
    rcases SelPc.handData_of_flow (SelPc.flow_of_act hact) hhand hring hx with
      ⟨hhand, q', hq', hx⟩ | ⟨hw, hdata⟩
    · refine h.hand t d w q' x ?_ ?_ hx
      · rw [hth]
        exact hhand
      · rw [hth]
        exact hq'
    · exact hqueue hw hdata

/-- A list of waiters that had no element, added to a history. -/
theorem nodup_append_of_fresh {l l' : List Wid} (hl : l.Nodup) (hl' : l'.Nodup)
    (hfresh : ∀ w ∈ l', w ∉ l) : (l ++ l').Nodup :=
  List.nodup_append'.2 ⟨hl, hl', fun w hw hw' => hfresh w hw' hw⟩

theorem LedgerInv.move (h : LedgerInv s) (hs : Sound K s) (hsel : SelectInv s) (hmay : WaiterInv K s)
    (hacts : s.Acts K t alt c e th) : LedgerInv (s.move K t c e th) := by
  have hok := hs.ok t
  have hfresh : ∀ w, w ∈ (s.mem.chan c).grants e → ¬ s.mem.Took w := fun w hw =>
    Sys.fresh_of_grants hs hsel hmay hacts hw
  obtain ⟨hsends, hpops⟩ := hacts.distinct hok
  -- only the channel of the step changes
  have hchan : ∀ (P : C → Chan T α → Prop), (∀ d, P d (s.mem.chan d)) →
      P c ((s.mem.chan c).apply (K.chan c).ringCap t e) → ∀ d, P d ((s.move K t c e th).mem.chan d) := by
    intro P hold hnew d
    by_cases hd : d = c
    · rw [hd, Sys.move, Mem.chan_apply_self]
      exact hnew
    · rw [Sys.move, Mem.chan_apply_of_ne K s.mem t c e hd]
      exact hold d
  constructor
  · refine hchan (fun d ch => ∀ w x, (w, x) ∈ ch.sent → s.Offered d w x) h.sent fun w x hx => ?_
    rw [Chan.sent_apply] at hx
    rcases List.mem_append.1 hx with hx | hx
    · exact h.sent c w x hx
    · exact h.offered_of_data hs hacts (Chan.sends_subset _ e hx)
  · refine hchan (fun _ ch => ch.hist.log.Sublist ch.sent) h.log ?_
    rw [Chan.sent_apply, Chan.log_apply]
    exact (h.log c).append (List.sublist_append_left _ _)
  · refine hchan (fun d ch => ∀ w, w ∈ ch.hist.takers ∨ w ∈ ch.recvd.map Prod.fst → s.Accepting d w)
      h.taken fun w hw => ?_
    rw [Chan.takers_apply, Chan.recvd_apply, List.map_append, List.mem_append, List.mem_append] at hw
    rcases hw with (hw | hw) | (hw | hw)
    · exact h.taken c w (Or.inl hw)
    · exact hs.accepting_of_tags hacts (Chan.pops_subset _ e hw)
    · exact h.taken c w (Or.inr hw)
    · rcases List.mem_append.1 ((Chan.recvs_sublist _ e).subset hw) with hw | hw
      · exact hs.accepting_of_tags hacts (Chan.pops_subset _ e hw)
      · exact hs.accepting_of_tags hacts (e.meets_subset hw)
  · intro d w x hoff
    -- the step does not write to the buffer of a sender
    rw [show ((s.move K t c e th).mem.waiter w).data = (s.mem.waiter w).data from
      Mem.data_apply K s.mem t c e w fun y hy => ?_]
    · exact h.data d w x hoff
    · obtain ⟨u, k, hcall, hoff⟩ := hoff
      obtain ⟨u', k', hcall', hacc⟩ := hs.accepting_of_tags hacts (Effect.mem_tags_of_writes hy)
      obtain ⟨-, rfl⟩ := hs.hist.call_inj _ _ _ _ _ hcall hcall'
      exact Call.not_accepts_of_offers hoff hacc
  · intro u d w p x hhand hring hx
    by_cases hu : u = t
    · rw [hu, Sys.thread_move_self] at hhand hring
      exact h.hand_own hs hacts hhand hring hx
    · rw [Sys.thread_move_of_ne hu] at hhand hring
      exact h.hand u d w p x hhand hring hx
  · refine hchan (fun _ ch => (ch.sent.map Prod.fst).Nodup) h.sent_nodup ?_
    rw [Chan.sent_apply, List.map_append]
    refine nodup_append_of_fresh (h.sent_nodup c) hsends fun w hw hold => ?_
    exact hfresh w (Chan.mem_grants.2 (Or.inl hw)) ⟨c, Or.inl hold⟩
  · refine hchan (fun _ ch => ch.hist.takers.Nodup) h.takers_nodup ?_
    rw [Chan.takers_apply]
    refine nodup_append_of_fresh (h.takers_nodup c) hpops fun w hw hold => ?_
    exact hfresh w (Chan.mem_grants.2 (Or.inr (Or.inl hw))) ⟨c, Or.inr (Or.inl hold)⟩
  · refine hchan (fun _ ch => (ch.recvd.map Prod.fst).Nodup) h.recvd_nodup ?_
    rw [Chan.recvd_apply, List.map_append]
    refine nodup_append_of_fresh (h.recvd_nodup c) ?_ fun w hw hold => ?_
    · refine List.Nodup.sublist (Chan.recvs_sublist _ e) ?_
      cases e with
      | pair a b v x => exact List.nodup_singleton _
      | _ => exact (List.append_nil _).symm ▸ hpops
    · have hmem := List.mem_append.1 ((Chan.recvs_sublist _ e).subset hw)
      exact hfresh w (Chan.mem_grants.2 (Or.inr hmem)) ⟨c, Or.inr (Or.inr hold)⟩

/-- The histories stay in order. -/
theorem LedgerInv.step (h : LedgerInv s) (hs : Sound K s) (hsel : SelectInv s) (hmay : WaiterInv K s)
    (hstep : s.Stepped K l s') : LedgerInv s' := by
  cases hstep with
  | call hidle => exact h.startCall hs
  | ret hdone hret => exact h.finishCall
  | move hnext hacts => exact h.move hs hsel hmay hacts

end Step

end Inv

/-! ## What holds in every run -/

section Valid

variable {T C α : Type} [DecidableEq T] [DecidableEq C] {K : Config T C} {s s' : Sys T C α}
  {l : Label T C α}

/-- What holds in every state, whatever the schedule. -/
structure Valid (K : Config T C) (s : Sys T C α) : Prop extends Sound K s where
  selects : SelectInv s
  waiters : WaiterInv K s
  shut : ClosedInv s
  ledger : LedgerInv s

omit [DecidableEq T] in
theorem Valid.init (slots : C → U32 → α) : Valid K (Sys.init slots : Sys T C α) :=
  ⟨.init slots, .init slots, .init slots, .init slots, .init slots⟩

theorem Valid.step (h : Valid K s) (hstep : s.Stepped K l s') : Valid K s' :=
  have hs := h.toSound
  ⟨hs.step hstep, h.selects.step hs hstep, h.waiters.step hs h.selects hstep, h.shut.step hs hstep,
    h.ledger.step hs h.selects h.waiters hstep⟩

/-- An invariant of the steps that meet a condition, next to what holds anyway. -/
theorem Sys.valid_from {ok : Sys T C α → Label T C α → Prop} {s₀ : Sys T C α}
    {P : Sys T C α → Prop} (hrun : Reaches (Sys.step K) ok s₀ s) (hs₀ : Valid K s₀) (hinit : P s₀)
    (hstep : ∀ s l s', Valid K s → P s → ok s l → s.Stepped K l s' → P s') : Valid K s ∧ P s := by
  refine (Sys.invariant_from (P := fun s => Valid K s ∧ P s) hrun hs₀.toSound ⟨hs₀, hinit⟩ ?_).2
  rintro s l s' - ⟨hv, hP⟩ hok hst
  exact ⟨hv.step hst, hstep s l s' hv hP hok hst⟩

theorem Sys.valid {ok : Sys T C α → Label T C α → Prop} {slots : C → U32 → α}
    {P : Sys T C α → Prop} (hrun : Reaches (Sys.step K) ok (Sys.init slots) s)
    (hinit : P (Sys.init slots))
    (hstep : ∀ s l s', Valid K s → P s → ok s l → s.Stepped K l s' → P s') : Valid K s ∧ P s :=
  Sys.valid_from hrun (.init slots) hinit hstep

end Valid

end LibChan
