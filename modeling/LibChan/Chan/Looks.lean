import LibChan.Chan.Duo

/-!
# What a locked case knows of the ring

`execute_case_locked` compares the two cursors of a ring and then acts on what it has seen, while the
other party may go on in its lock-free path. `LookInv` says at each of its places what still holds of the
ring. The consumer may have taken more than was seen and the producer may have pushed more, so that the
comparison that found elements is still right for a receive case, and the one that found none is right as
long as nobody pushes (`Sys.Still`). A receive case therefore moves what it reports (`LookInv.moves`); of
a send case nothing of the kind holds.
-/

set_option autoImplicit false

namespace LibChan

variable {T C α : Type}

/-- Nobody but the thread that runs case `k` pushes: it is the producer, or the producer waits. -/
def Sys.Still (s : Sys T C α) (c : C) (p : T) (k : Case C α) : Prop :=
  k.op = .send ∨ ∃ v, (s.thread p).Waits c .send v

/-- What `execute_case_locked` knows of the ring of `c` at its places. -/
def ExecPc.Looked (K : Config T C) (c : C) (p : T) (s : Sys T C α) (k : Case C α) : ExecPc α → Prop
  | second a => ∃ n, a = BitVec.ofNat 32 n ∧ (s.mem.chan c).hist.reserved .recv ≤ n ∧
      n ≤ (s.mem.chan c).hist.committed .send ∧ (s.Still c p k → n = (s.mem.chan c).hist.reserved .send)
  | meetClaim | meetCopy _ => s.Still c p k →
      (s.mem.chan c).hist.reserved .recv = (s.mem.chan c).hist.reserved .send
  | ring pr => k.op = .recv → pr.run = none →
      (s.mem.chan c).hist.reserved .recv < (s.mem.chan c).hist.committed .send
  | helpClaim => k.op = .recv → s.Still c p k →
      (s.mem.chan c).hist.reserved .send < (s.mem.chan c).hist.committed .recv + (K.chan c).ringCap.size
  | helpRing _ pr => pr.run = none →
      (s.mem.chan c).hist.reserved .send < (s.mem.chan c).hist.committed .recv + (K.chan c).ringCap.size
  | _ => True

/-- What `execute_case_locked` knows wherever it runs a case on `c`. -/
def LookInv (K : Config T C) (c : C) (p : T) (s : Sys T C α) : Prop :=
  ∀ t id cases timeout i st k, s.thread t = .select id cases timeout (.exec i st) → cases[i]? = some k →
    k.chan = c → st.Looked K c p s k

section Look

variable [DecidableEq T] [DecidableEq C] {K : Config T C} {s s' : Sys T C α} {l : Label T C α}
  {p q t u : T} {alt : Bool} {c d : C} {e : Effect α} {th : Thread C α} {w : Wid} {id i : Nat}
  {cases : List (Case C α)} {timeout : Int} {k : Case C α} {st st' : ExecPc α} {pr : RingPc Wid α}

omit [DecidableEq T] in
/-- While the producer is still, a push on the ring is one of the thread that runs the case. -/
theorem DuoInv.eq_of_push (h : DuoInv c p q s) (hs : Sound K s)
    (hth : s.thread t = .select id cases timeout (.exec i st)) (hk : cases[i]? = some k)
    (hc : k.chan = c) (hstill : s.Still c p k) (hring : (s.thread u).ring? = some (c, pr))
    (hside : pr.op.side = .send) : u = t := by
  -- the producer does not wait while it runs a case
  have hbusy : t = p → ∀ v, ¬ (s.thread p).Waits c .send v := by
    rintro rfl v hv
    rw [hth] at hv
    cases hv.2.1
  have hwho := (h.case hs hth hk hc).2
  rcases h.ring hs hring with ⟨hu, -⟩ | ⟨-, hrecv⟩ | ⟨hu, -, v, hv⟩
  · rcases hwho with ⟨-, ht⟩ | ⟨hop, -⟩
    · rw [hu, ht]
    · obtain ⟨v, hv⟩ := hstill.resolve_left fun hsend => by cases hop.symm.trans hsend
      rw [hu, (h.waits hs hv).2] at hring
      cases hring
  · cases hside.symm.trans hrecv
  · rcases hwho with ⟨-, ht⟩ | ⟨-, ht⟩
    · exact absurd hv (hbusy ht v)
    · rw [hu, ht]

omit [DecidableEq T] in
/-- While the producer is still and the thread that runs the case is in no ring operation, every push is
committed. -/
theorem DuoInv.committed_eq (h : DuoInv c p q s) (hs : Sound K s) (hgood : s.RingSound K c)
    (hth : s.thread t = .select id cases timeout (.exec i st)) (hk : cases[i]? = some k)
    (hc : k.chan = c) (hstill : s.Still c p k) (hring : (s.thread t).ring? = none) :
    (s.mem.chan c).hist.committed .send = (s.mem.chan c).hist.reserved .send := by
  apply Nat.le_antisymm hgood.ordered.prod_le
  by_contra hlt
  obtain ⟨u, pr, n, hpr, hrun, -⟩ := hgood.covers .send _ (Nat.le_refl _) (Nat.lt_of_not_le hlt)
  have hu := Thread.ringOn_eq_some.1 hpr
  obtain rfl := h.eq_of_push hs hth hk hc hstill hu (RingPc.side_of_run hrun)
  cases hring.symm.trans hu

omit [DecidableEq T] in
theorem Sys.held_of_exec (hth : s.thread t = .select id cases timeout (.exec i st))
    (hk : cases[i]? = some k) : k.chan ∈ (s.thread t).holds K := by
  rw [hth]
  exact SelPc.mem_locks hk

theorem Sys.Acts.extends_hist (hacts : s.Acts K t alt d e th) (hok : (s.thread t).Ok K)
    (hspsc : c = d → ∀ x, e ≠ .spsc x) :
    Extends (s.mem.chan c).hist ((s.move K t d e th).mem.chan c).hist := by
  rcases hacts.hist_cases hok hspsc with heq | ⟨pr, -, -, -, heq⟩
  · rw [heq]
    exact .refl _
  · rw [heq]
    exact extends_step ..

/-- The steps of the others keep what the thread that runs a case knows: they wait for its lock to
register, the consumer takes its elements one by one, and the producer adds to the ring or is still. -/
theorem ExecPc.Looked.other (h : st.Looked K c p s k) (hs : Sound K s) (hduo : DuoInv c p q s)
    (hth : s.thread t = .select id cases timeout (.exec i st)) (hk : cases[i]? = some k)
    (hc : k.chan = c) (hu : u ≠ t) (hnext : (s.thread u).Next K s.mem d th e)
    (hacts : s.Acts K u alt d e th) (hgood' : (s.move K u d e th).RingSound K c) :
    st.Looked K c p (s.move K u d e th) k := by
  have hspsc := hduo.not_spsc hs hacts
  have hext := hacts.extends_hist (hs.ok u) hspsc
  have hord := hgood'.ordered
  have hstill : (s.move K u d e th).Still c p k → s.Still c p k := fun h =>
    h.imp_right fun ⟨v, hv⟩ => ⟨v, hs.waits_before hnext (hc ▸ Sys.held_of_exec hth hk) hu.symm hv⟩
  have hpush : s.Still c p k →
      ((s.move K u d e th).mem.chan c).hist.reserved .send = (s.mem.chan c).hist.reserved .send := by
    intro hstill
    refine (hacts.cursors_eq (hs.ok u) hspsc fun pr hring hside => ?_).1
    exact hu (hduo.eq_of_push hs hth hk hc hstill hring hside)
  have hpop : k.op = .recv →
      ((s.move K u d e th).mem.chan c).hist.reserved .recv = (s.mem.chan c).hist.reserved .recv ∧
      ((s.move K u d e th).mem.chan c).hist.committed .recv = (s.mem.chan c).hist.committed .recv := by
    intro hop
    refine hacts.cursors_eq (hs.ok u) hspsc fun pr hring hside => hu ?_
    have ht := ((hduo.case hs hth hk hc).2.resolve_left fun hsend => by cases hop.symm.trans hsend.1).2
    rcases hduo.ring hs hring with ⟨-, hsend⟩ | ⟨hq, -⟩ | ⟨hq, -⟩
    · cases hside.symm.trans hsend
    · rw [hq, ht]
    · rw [hq, ht]
  have hcom := hext.committed .send
  have hle := hext.reserved_le .recv
  have h1 := hord.cons_le_prod
  have h2 := hord.prod_le
  have hbound : k.op = .send ∨
      ((s.move K u d e th).mem.chan c).hist.reserved .recv = (s.mem.chan c).hist.reserved .recv := by
    cases hop : k.op with
    | send => exact Or.inl rfl
    | recv => exact Or.inr (hpop hop).1
  cases st with
  | second a =>
    obtain ⟨n, ha, hlo, hhi, heq⟩ := h
    refine ⟨n, ha, ?_, hhi.trans hcom, fun hst => (heq (hstill hst)).trans (hpush (hstill hst)).symm⟩
    rcases hbound with hop | hsame
    · have hn := heq (Or.inl hop)
      have hL := hpush (Or.inl hop)
      omega
    · omega
  | meetClaim | meetCopy v =>
    intro hst
    have hR := h (hstill hst)
    have hL := hpush (hstill hst)
    omega
  | ring pr =>
    intro hop hrun
    have hR := h hop hrun
    have hR' := (hpop hop).1
    omega
  | helpClaim =>
    intro hop hst
    have hlt := h hop (hstill hst)
    rw [hpush (hstill hst), (hpop hop).2]
    exact hlt
  | helpRing v pr =>
    intro hrun
    have hlt := h hrun
    obtain ⟨k', hk', hok⟩ := hs.select_ok hth
    cases hk.symm.trans hk'
    obtain ⟨-, hop, -⟩ := hok
    have how := (hs.queues.claimed t v _ _ (Sys.hand_helpRing hth hk hop)).1
    rw [hc] at how
    rw [hpush (Or.inr ⟨v, hduo.waits_of_owned hs how⟩), (hpop hop).2]
    exact hlt
  | _ => trivial

/-- The own steps of the thread that runs a case. -/
theorem ExecPc.Looked.own (h : st.Looked K c p s k) (hs : Sound K s) (hduo : DuoInv c p q s)
    (hgood : s.RingSound K c) (hmark : MarkInv c s)
    (hth : s.thread t = .select id cases timeout (.exec i st)) (hk : cases[i]? = some k)
    (hc : k.chan = c) (hexec : SelPc.ExecFlow K s.mem k ⟨id, i⟩ alt st e (.inl st'))
    (hacts : s.Acts K t alt c e (.select id cases timeout (.exec i st'))) :
    st'.Looked K c p (s.move K t c e (.select id cases timeout (.exec i st'))) k := by
  subst hc
  have hspsc := hduo.not_spsc hs hacts
  obtain ⟨k', hk', hok⟩ := hs.select_ok hth
  cases hk.symm.trans hk'
  have hord := hgood.ordered
  have hring : (s.thread t).ring? = st.ring?.map fun pr => (k.chan, pr) := by
    rw [hth]
    exact SelPc.ring_exec hk st
  have hwindow : ∀ {n}, n ≤ (s.mem.chan k.chan).hist.committed .send →
      n - (s.mem.chan k.chan).hist.reserved .recv < 2 ^ 32 := by
    intro n hn
    have hsize := (K.chan k.chan).ringCap.size_le
    have h1 := hord.cons_le
    have h2 := hord.prod_le
    have h3 := hord.prod_le_cap
    omega
  -- the step of the thread does not make the producer wait
  have hstill : (s.move K t k.chan e (.select id cases timeout (.exec i st'))).Still k.chan p k →
      s.Still k.chan p k := by
    intro hst
    refine hst.imp_right fun ⟨v, hv⟩ => ⟨v, ?_⟩
    by_cases hp : p = t
    · subst hp
      rw [Sys.thread_move_self] at hv
      cases hv.2.1
    · rwa [Sys.thread_move_of_ne hp] at hv
  -- a step that is no ring access leaves the history
  have hsame : e.isRing = false →
      ((s.move K t k.chan e (.select id cases timeout (.exec i st'))).mem.chan k.chan).hist =
        (s.mem.chan k.chan).hist := by
    intro he
    rcases hacts.hist_cases (hs.ok t) hspsc with heq | ⟨pr, -, rfl, -⟩
    · exact heq
    · cases he
  -- an access that leaves the operation without a reservation moves no cursor
  have hinside : ∀ {pr pr' : RingPc Wid α}, e = .ring alt pr → s.mem.access K k.chan alt pr = .inl pr' →
      pr'.run = none → pr.run = none ∧ ∀ o,
        ((s.move K t k.chan e (.select id cases timeout (.exec i st'))).mem.chan k.chan).hist.reserved o =
          (s.mem.chan k.chan).hist.reserved o ∧
        ((s.move K t k.chan e (.select id cases timeout (.exec i st'))).mem.chan k.chan).hist.committed o =
          (s.mem.chan k.chan).hist.committed o := by
    rintro pr pr' rfl hp hrun
    have hhist : ((s.move K t k.chan (.ring alt pr) (.select id cases timeout (.exec i st'))).mem.chan
        k.chan).hist = (s.mem.chan k.chan).hist.step (K.chan k.chan).ringCap (s.mem.chan k.chan).ring t alt
          pr := congrArg Chan.hist (Mem.chan_apply_self K s.mem t k.chan _)
    rw [hhist]
    exact cursors_step_of_run _ _ _ _ _ _ hp hrun
  cases hexec with
  | first =>
    refine ⟨(s.mem.chan k.chan).hist.committed .send, hgood.tail_eq .send, ?_⟩
    rw [hsame rfl]
    refine ⟨hord.cons_le_prod, Nat.le_refl _, fun hst => ?_⟩
    exact hduo.committed_eq hs hgood hth hk rfl (hstill hst) hring
  | @stop a hstop =>
    intro hst
    obtain ⟨n, rfl, hlo, hhi, heq⟩ := h
    have hword : BitVec.ofNat 32 n = BitVec.ofNat 32 ((s.mem.chan k.chan).hist.reserved .recv) :=
      (of_decide_eq_true hstop).trans (hgood.head_eq .recv)
    have hn := Wrap.ofNat_inj_of_window hlo (hwindow hhi) hword
    rw [hsame rfl, ← hn]
    exact heq (hstill hst)
  | @go a hgo =>
    intro hop hrun
    obtain ⟨n, rfl, hlo, hhi, -⟩ := h
    have hne : n ≠ (s.mem.chan k.chan).hist.reserved .recv := by
      rintro rfl
      exact of_decide_eq_false hgo (hgood.head_eq .recv).symm
    rw [hsame rfl]
    omega
  | emptySendRing hqueue hop hcap =>
    intro hop'
    cases hop.symm.trans hop'
  | claim hqueue hclaim =>
    intro hst
    rw [hsame rfl]
    exact h (hstill hst)
  | drop hqueue hclaim =>
    intro hst
    rw [hsame rfl]
    exact h (hstill hst)
  | @ringIn pr pr' hp =>
    intro hop hrun
    obtain ⟨hrun₀, hcur⟩ := hinside rfl hp hrun
    rw [(hcur .recv).1, (hcur .send).2]
    exact h hop hrun₀
  | @ringOut pr res hp =>
    intro hop hst
    have hside : pr.op.side = .recv := by
      rw [hok.2.1, ← hop, Case.ringOp, Case.op]
      split <;> rfl
    cases pr with
    | loadOpp op a =>
      -- the ring is not empty, so the pop does not fail
      have hnone : op.reserve (K.chan k.chan).ringCap a ((s.mem.chan k.chan).ring.cur op.side.other).tail =
          none := by
        simp only [Mem.access, Ring.step] at hp
        split at hp
        · next hnone => exact hnone
        · cases hp
      have hempty := hgood.empty_of_none (Thread.ringOn_eq_some.2 hring) hside (hmark.timely hgood hring)
        hnone
      exact absurd hempty (h hop rfl).ne'
    | store op a n acc =>
      have hside : op.side = .recv := hside
      obtain ⟨-, hrun, -⟩ := hgood.thread t _ (Thread.ringOn_eq_some.2 hring)
      have hpos := hrun.pos
      have hroom := hord.prod_le_cap
      have hhist : ((s.move K t k.chan (.ring alt (.store op a n acc))
          (.select id cases timeout (.exec i .helpClaim))).mem.chan k.chan).hist =
            (s.mem.chan k.chan).hist.commit .recv n.toNat := by
        rw [← hside]
        exact congrArg Chan.hist (Mem.chan_apply_self K s.mem t k.chan _)
      rw [hhist, RingGhost.committed_commit_self]
      show (s.mem.chan k.chan).hist.reserved .send < _
      omega
    | loadHead op => cases hp
    | cas op a n | copy op a n j acc | wait op a n acc =>
      simp only [Mem.access, Ring.step] at hp
      split at hp <;> cases hp
  | @helpRecv w' q' rop hop hqueue hclaim hrop =>
    intro hrun
    have how := (hs.queues.queue _ .send w' (by rw [hqueue]; exact List.mem_cons_self)).owned
    rw [hsame rfl]
    exact h hop (Or.inr ⟨w', hduo.waits_of_owned hs how⟩)
  | helpDrop hqueue hclaim =>
    intro hop hst
    rw [hsame rfl]
    exact h hop (hstill hst)
  | @helpIn w' pr pr' hp =>
    intro hrun
    obtain ⟨hrun₀, hcur⟩ := hinside rfl hp hrun
    rw [(hcur .send).1, (hcur .recv).2]
    exact h hrun₀
  | _ => trivial

omit [DecidableEq T] in
/-- `execute_case_locked` is entered at its start. -/
theorem SelPc.exec_of_flow {m : Mem T C α} {pc : SelPc C α}
    (hflow : SelPc.Flow K m t id cases timeout alt pc d e (.exec i st)) :
    ∃ k, cases[i]? = some k ∧ d = k.chan ∧ (st = execFrom K m ⟨id, i⟩ k ∨
      ∃ st₀, pc = .exec i st₀ ∧ SelPc.ExecFlow K m k ⟨id, i⟩ alt st₀ e (.inl st)) := by
  generalize hpc' : SelPc.exec i st = pc' at hflow
  cases hflow with
  | pick hk hmem he hst =>
    cases hpc'
    exact ⟨_, hk, rfl, Or.inl hst⟩
  | execGo hk hexec =>
    cases hpc'
    exact ⟨_, hk, rfl, Or.inr ⟨_, rfl, hexec⟩⟩
  | fast1Skip hk hst | fast2Start hst | fast2Skip hk hcnt hst | fast2Miss hk hp hres hst =>
    cases hst <;> cases hpc'
  | pass hpass | readyNot hk hpass | readySend hk hop hopen hpass | readyShut hk hop hclosed hpass
  | readyYes hk hst hpass => cases hpass <;> cases hpc'
  | _ => cases hpc'

omit [DecidableEq T] [DecidableEq C] in
theorem ExecPc.looked_execFrom {v : Wid} (hcap : (K.chan k.chan).capacity ≠ 0) :
    (SelPc.execFrom K s.mem v k).Looked K c p s' k := by
  rw [SelPc.execFrom, if_neg hcap]
  split
  · next hop =>
    split
    · intro hop'
      cases hop.symm.trans hop'
    · trivial
  · trivial

omit [DecidableEq T] [DecidableEq C] in
theorem ExecPc.Looked.congr (h : st.Looked K c p s k) (hchan : s'.mem.chan c = s.mem.chan c)
    (hstill : s'.Still c p k → s.Still c p k) : st.Looked K c p s' k := by
  cases st with
  | second a =>
    obtain ⟨n, ha, hlo, hhi, heq⟩ := h
    rw [Looked, hchan]
    exact ⟨n, ha, hlo, hhi, fun hst => heq (hstill hst)⟩
  | meetClaim | meetCopy v =>
    rw [Looked, hchan]
    exact fun hst => h (hstill hst)
  | ring pr =>
    rw [Looked, hchan]
    exact h
  | helpClaim =>
    rw [Looked, hchan]
    exact fun hop hst => h hop (hstill hst)
  | helpRing v pr =>
    rw [Looked, hchan]
    exact h
  | _ => trivial

theorem LookInv.step (h : LookInv K c p s) (hs : Sound K s) (hduo : DuoInv c p q s)
    (hgood : s.RingSound K c) (hmark : MarkInv c s) (hgood' : s'.RingSound K c)
    (hcap : (K.chan c).capacity ≠ 0) (hstep : s.Stepped K l s') : LookInv K c p s' := by
  intro t id cases timeout i st k hth hk hc
  cases hstep with
  | @call u call hidle =>
    by_cases ht : t = u
    · subst ht
      rw [Sys.thread_startCall_self] at hth
      cases call with
      | direct d op => cases hth
      | select cases' timeout' =>
        have hbegins := SelPc.begins_entry cases'
        simp only [Sys.startThread, Thread.select.injEq] at hth
        rw [hth.2.2.2] at hbegins
        rcases hbegins with _ | (_ | _)
    · rw [Sys.thread_startCall_of_ne ht] at hth
      refine (h t id cases timeout i st k hth hk hc).congr rfl fun hst => hst.imp_right ?_
      rintro ⟨v, hv⟩
      refine ⟨v, ?_⟩
      by_cases hp : p = u
      · subst hp
        rw [Sys.thread_startCall_self] at hv
        exact absurd hv ((Sys.begun_startThread K s.next call).waits c .send v)
      · rwa [Sys.thread_startCall_of_ne hp] at hv
  | @ret u alt id' r out hdone hret =>
    by_cases ht : t = u
    · subst ht
      rw [Sys.thread_finishCall_self] at hth
      cases hth
    · rw [Sys.thread_finishCall_of_ne ht] at hth
      refine (h t id cases timeout i st k hth hk hc).congr rfl fun hst => hst.imp_right ?_
      rintro ⟨v, hv⟩
      refine ⟨v, ?_⟩
      by_cases hp : p = u
      · subst hp
        rw [Sys.thread_finishCall_self] at hv
        exact hv.elim
      · rwa [Sys.thread_finishCall_of_ne hp] at hv
  | @move u alt d e th hnext hacts =>
    by_cases ht : t = u
    · subst ht
      rw [Sys.thread_move_self] at hth
      subst hth
      cases hacts with
      | select hth hact =>
        obtain ⟨k', hk', rfl, rfl | ⟨st₀, rfl, hexec⟩⟩ := SelPc.exec_of_flow (SelPc.flow_of_act hact)
        · cases hk.symm.trans hk'
          subst hc
          exact ExecPc.looked_execFrom hcap
        · cases hk.symm.trans hk'
          subst hc
          exact (h t id cases timeout i st₀ k hth hk rfl).own hs hduo hgood hmark hth hk rfl hexec
            (.select hth hact)
    · rw [Sys.thread_move_of_ne ht] at hth
      exact (h t id cases timeout i st k hth hk hc).other hs hduo hth hk hc (Ne.symm ht) hnext hacts hgood'

omit [DecidableEq T] in
/-- A receive case moves what it reports: its pop finds the element it has seen, and its push for the
producer the slot it has freed. -/
theorem LookInv.moves (h : LookInv K c p s) (hs : Sound K s) (hgood : s.RingSound K c)
    (hmark : MarkInv c s) (hth : s.thread t = .select id cases timeout (.exec i st))
    (hk : cases[i]? = some k) (hc : k.chan = c) (hop : k.op = .recv) : st.moves K s.mem k = true := by
  subst hc
  have hlook := h t id cases timeout i st k hth hk rfl
  obtain ⟨k', hk', hok⟩ := hs.select_ok hth
  cases hk.symm.trans hk'
  have hring : (s.thread t).ring? = st.ring?.map fun pr => (k.chan, pr) := by
    rw [hth]
    exact SelPc.ring_exec hk st
  cases st with
  | ring pr =>
    cases pr with
    | loadOpp op a =>
      have hside : op.side = .recv := by
        rw [show op = k.ringOp ⟨id, i⟩ from hok.2.1, ← hop, Case.ringOp, Case.op]
        split <;> rfl
      rw [ExecPc.moves, RingPc.fails, Bool.not_eq_true', Option.isNone_eq_false_iff,
        ← Option.ne_none_iff_isSome]
      intro hnone
      exact (hlook hop rfl).ne' (hgood.empty_of_none (Thread.ringOn_eq_some.2 hring) hside
        (hmark.timely hgood hring) hnone)
    | _ => rfl
  | helpRing w pr =>
    cases pr with
    | loadOpp op a =>
      have hside : op.side = .send := hok.2.2.1.side
      have hsaw : (s.mem.chan k.chan).hist.mark t = (s.mem.chan k.chan).hist.reserved op.side :=
        hmark t _ hring trivial
      have hord := hgood.ordered
      rw [ExecPc.moves, RingPc.fails, Bool.not_eq_true', Option.isNone_eq_false_iff,
        ← Option.ne_none_iff_isSome]
      intro hnone
      refine (hlook rfl).ne (hgood.full_of_none (Thread.ringOn_eq_some.2 hring) hside ?_ hnone)
      rw [hsaw, hside]
      exact hord.cons_le.trans (hord.cons_le_prod.trans hord.prod_le)
    | _ => rfl
  | helpClaim => rw [ExecPc.moves, hop]; rfl
  | _ => rfl

end Look

end LibChan
