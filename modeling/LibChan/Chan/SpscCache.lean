import LibChan.Chan.SpscUse

/-!
# How old the private cursor copies get

A cached operation compares with its private copy of the opposite tail, and the shared operations that
the locked paths run move the cursors without touching that copy. It stays close all the same
(`CacheInv`): a call reaches the locked paths only after its cached operation has looked at the real
tail and failed, and then it moves at most one element, whoever moves it. The next call of the thread
begins with a cached operation again. The one way around it, a send that finds the channel closed
before its first attempt, moves nothing.
-/

set_option autoImplicit false

namespace LibChan

variable {T C α : Type}

/-- The places of a call whose private copy has been current since its last attempt, as long as the
call has not moved its element. -/
def Pc.tried (op : Op α) : Pc α → Bool
  | fastClosed _ => !op.isSend
  | fastSpsc _ r => r.current
  | slowLock | slowClosed | slowRing _ | serve .block _ | meetClaim | emptyClosed | enroll => true
  | recheck _ | unRemove | parkUnlock | park | expLock | expRemove => true
  | backClosed | backRing _ | requeue | reparkUnlock | repark => true
  | _ => false

/-- The places before the locked path looks at the closed flag. -/
def Pc.early : Pc α → Bool
  | slowLock | slowClosed => true
  | _ => false

/-- The call is a send that will be refused. -/
def Mem.Refuses (m : Mem T C α) (c : C) (op : Op α) (pc : Pc α) : Prop :=
  (m.chan c).closed = true ∧ op.isSend = true ∧ pc.early = true

/-- The private copies are at most one position behind, and current at the places that have tried. -/
structure CacheInv (K : Config T C) (c : C) (s : Sys T C α) : Prop where
  near : ∀ o, s.CacheAt K c o 1
  tried : ∀ t id op pc, s.thread t = .direct id c op pc → pc.tried op = true →
    ¬ s.mem.Took ⟨id, 0⟩ → s.mem.Refuses c op pc ∨ s.CacheAt K c op.side 0

section Places

variable {K : Config T C} {m : Mem T C α} {id : Nat} {c : C} {op : Op α} {alt : Bool}
  {pc pc' : Pc α} {e : Effect α}

theorem Op.burst_of_single (h : op.single = true) : op.burst = false := by
  cases op with
  | send x time => rfl
  | recv time => rfl
  | _ => cases h

theorem Pc.tried_of_waits (h : pc.waits = true) : pc.tried op = true ∧ pc.early = false := by
  cases pc with
  | recheck r | unRemove | parkUnlock | park | expLock | expRemove | reparkUnlock | repark =>
    exact ⟨rfl, rfl⟩
  | _ => cases h

theorem Pc.single_of_tried {k : ChanCfg} (hok : pc.Ok k id op) (h : pc.tried op = true) :
    op.single = true := by
  cases pc with
  | fastClosed spin => exact hok.1
  | fastSpsc spin r => exact hok.1
  | slowLock => exact hok
  | slowClosed => exact Pc.isSend_single hok
  | slowRing r => exact hok.1
  | serve n st =>
    cases n with
    | leave r => cases h
    | block => exact Pc.isSend_single hok.2.1
  | meetClaim => exact hok
  | emptyClosed | enroll | recheck r | unRemove => exact hok.1
  | parkUnlock | park | expLock | expRemove => exact hok
  | backClosed | requeue | reparkUnlock | repark => exact hok.1
  | backRing r => exact hok.1
  | _ => cases h

/-- Only a cached attempt makes a call reach the places that have tried. -/
theorem Pc.tried_of_flow (hok : pc.Ok (K.chan c) id op) (hspsc : (K.chan c).spsc = true)
    (hflow : Pc.Flow K m id c op alt pc e pc') (he : ∀ r, e ≠ .spsc r) (h : pc'.tried op = true) :
    m.Refuses c op pc' ∨ pc.tried op = true ∧ ¬ m.Refuses c op pc := by
  have hnot : pc.early = false → ¬ m.Refuses c op pc := by
    rintro hearly ⟨-, -, h'⟩
    cases hearly.symm.trans h'
  have hserve : ∀ {k : ServeEnd} {st st' : ServePc α}, (Pc.serve k st).tried op = true →
      (Pc.serve k st').tried op = true := by
    intro k st st' hk
    cases k with
    | leave r => cases hk
    | block => rfl
  cases hflow with
  | closed hclosed =>
    cases hop : op.isSend with
    | true => exact Or.inl ⟨hclosed, hop, rfl⟩
    | false => exact Or.inr ⟨by rw [Pc.tried, hop]; rfl, hnot rfl⟩
  | openSpsc hopen hs => cases h
  | openSlow hopen hop => exact Or.inr ⟨by rw [Pc.tried, hop]; rfl, hnot rfl⟩
  | cntBusy hcnt => cases hspsc.symm.trans hok.2.2
  | fastMiss hp hres => cases hspsc.symm.trans hok.2.2.1
  | fastMissSlow hp hres hop => cases hspsc.symm.trans hok.2.2.1
  | spscIn hp | spscMiss hp hres | spscMissSlow hp hres hop => exact absurd rfl (he _)
  | serveFirst | serveGo hgo | serveClaim hqueue hclaim hrop | serveDrop hqueue hclaim | serveIn hp
  | serveHit hp hres | serveMiss hp hres | serveSettle | serveWake =>
    exact Or.inr ⟨hserve h, hnot rfl⟩
  | slowSend hfree hop =>
    by_cases hclosed : (m.chan c).closed = true
    · exact Or.inl ⟨hclosed, hop, rfl⟩
    · exact Or.inr ⟨rfl, fun hr => hclosed hr.1⟩
  | slowMeet hfree hop hcap =>
    refine Or.inr ⟨rfl, fun hr => ?_⟩
    cases hop.symm.trans hr.2.1
  | slowBuffered hfree hop hcap =>
    refine Or.inr ⟨rfl, fun hr => ?_⟩
    cases hop.symm.trans hr.2.1
  | slowOpenMeet hopen hcap =>
    refine Or.inr ⟨rfl, fun hr => ?_⟩
    cases hopen.symm.trans hr.1
  | slowOpenRing hopen hcap =>
    refine Or.inr ⟨rfl, fun hr => ?_⟩
    cases hopen.symm.trans hr.1
  | _ => first | exact Or.inr ⟨rfl, hnot rfl⟩ | cases h

/-- The two ways a cached access leads to a place that has tried: it passes its check, or it has
loaded the real tail and fails. -/
theorem Pc.tried_of_spsc {r : SpscPc Wid α} (hflow : Pc.Flow K m id c op alt pc (.spsc r) pc')
    (h : pc'.tried op = true) :
    (∃ r', m.spscAccess K c r = .inl r' ∧ r'.current = true) ∨
      ∃ res, m.spscAccess K c r = .inr res ∧ res.moved = 0 := by
  cases hflow with
  | spscIn hp => exact Or.inl ⟨_, hp, h⟩
  | spscHit hp hres => cases h
  | spscMiss hp hres => exact Or.inr ⟨_, hp, hres⟩
  | spscMissSlow hp hres hop => exact Or.inr ⟨_, hp, hres⟩

/-- A call on an SPSC channel does not start at a place that has tried. -/
theorem Pc.tried_entry {k : ChanCfg} (hspsc : k.spsc = true) (id : Nat) (op : Op α) :
    (Pc.entry k id op).tried op = false := by
  have hcap := k.buffered hspsc
  have hattempt : (Pc.attempt k id op 0).tried op = false := by
    unfold Pc.attempt
    split
    · rfl
    · rw [if_pos hspsc]
      rfl
  cases op with
  | send x time =>
    rw [Pc.entry, if_pos hcap]
    exact hattempt
  | recv time =>
    rw [Pc.entry, if_pos hcap]
    exact hattempt
  | sendBurst xs =>
    simp only [Pc.entry]
    split <;> rfl
  | recvBurst n =>
    simp only [Pc.entry]
    split <;> rfl
  | close => rfl
  | len =>
    simp only [Pc.entry]
    split <;> rfl

end Places

section Ring

variable {ω β : Type} [DecidableEq T] {cap : RingCap} {r r' : Ring β} {g g' : RingGhost T ω β} {t : T}
  {o o' : ChanOp} {slack : Nat}

omit [DecidableEq T] in
/-- Steps on one side leave the private copy of the other side as good as it was. -/
theorem CacheAt.frame (h : CacheAt cap r g o slack) (hframe : LaneFrame t o' r r' g g') (ho : o ≠ o')
    (hcached : (r'.cur o).cached = (r.cur o).cached) : CacheAt cap r' g' o slack :=
  h.mono hcached (hframe.ext.committed o.other) (Nat.le_of_eq (by rw [hframe.reserved o ho]))

/-- A shared operation for one waiter takes at most one position, for this waiter. -/
theorem reserved_step_serves (g : RingGhost T ω β) (cap : RingCap) (r : Ring β) (t : T) (weak : Bool)
    {x : RingPc ω β} {w : ω} (hserves : x.op.Serves w o) (hfit : x.Fit) :
    (g.step cap r t weak x).reserved o = g.reserved o ∨
      (g.step cap r t weak x).reserved o = g.reserved o + 1 ∧ w ∈ x.grants r weak := by
  cases x with
  | cas op a k =>
    simp only [RingGhost.step, RingPc.grants]
    split
    · refine Or.inr ?_
      replace hserves : op.Serves w o := hserves
      have hk : k.toNat = 1 ∧ w ∈ op.wids.take 1 := by
        cases op with
        | push v y =>
          obtain ⟨-, rfl⟩ := hserves
          exact ⟨Nat.le_antisymm hfit.2.2 hfit.2.1, List.mem_cons_self⟩
        | pop v =>
          obtain ⟨-, rfl⟩ := hserves
          exact ⟨Nat.le_antisymm hfit.2.2 hfit.2.1, List.mem_cons_self⟩
        | _ => exact hserves.elim
      rw [reserved_reserve g t hfit.2.2, if_pos hserves.side.symm, hk.1]
      exact ⟨rfl, hk.2⟩
    · exact Or.inl rfl
  | copy op a k i acc =>
    rw [RingGhost.step]
    split
    · exact Or.inl rfl
    · exact Or.inl (reserved_setCopied ..)
  | loadHead op => exact Or.inl (reserved_setMark ..)
  | store op a k acc => exact Or.inl (reserved_commit ..)
  | _ => exact Or.inl rfl

end Ring

section Step

variable [DecidableEq T] [DecidableEq C] {K : Config T C} {s s' : Sys T C α} {l : Label T C α}
  {p q t u : T} {alt : Bool} {c d : C} {e : Effect α} {th : Thread C α} {id : Nat} {op : Op α}
  {pc pc' : Pc α} {slack : Nat} {o : ChanOp}

omit [DecidableEq T] in
/-- A cached operation that has passed its check finds its copy current. -/
theorem CacheInv.current (h : CacheInv K c s) (hv : DirectValid K s) {r : SpscPc Wid α} {spin : Nat}
    (hth : s.thread t = .direct id c op (.fastSpsc spin r)) (hr : r.current = true) :
    s.CacheAt K c r.op.side 0 := by
  have hok := hv.toSound.direct_ok hth
  have hmay := hv.waiters.running t
  rw [hth] at hmay
  have hfresh : ¬ s.mem.Took ⟨id, 0⟩ := by
    intro htook
    have hmem := hmay.own rfl 0 htook
    cases r with
    | storeHead rop a acc => cases hr
    | _ => cases hmem
  rw [hok.2.2.2, Op.side_ringOp hok.1]
  rcases h.tried t id op _ hth hr hfresh with hrefuses | hcache
  · cases hrefuses.2.2
  · exact hcache

omit [DecidableEq T] in
/-- Before a shared operation takes a position, the private copy of its side is current. -/
theorem CacheInv.current_of_grants (h : CacheInv K c s) (hv : DirectValid K s) {r : RingPc Wid α}
    (hfor : s.LaneFor K c t u (.shared r) id op pc) (hspsc : (K.chan c).spsc = true)
    (hacts : s.Acts K t alt c e th) (hmem : ⟨id, 0⟩ ∈ (s.mem.chan c).grants e) :
    s.CacheAt K c op.side 0 := by
  have hfresh := Sys.fresh_of_grants hv.toSound hv.selects hv.waiters hacts hmem
  have htried : pc.tried op = true ∧ pc.early = false := by
    rcases hfor.place with ⟨-, hlane⟩ | ⟨-, hwaits, -⟩
    · have hok := hv.toSound.direct_ok hfor.thread
      have hring := Pc.lane_shared hlane
      have hop := hfor.single
      have hside : r.op.side = op.side := hfor.side
      -- where the operation is for the waiter in hand it is on the other side
      cases pc with
      | fastRing spin x => cases hspsc.symm.trans hok.2.2.1
      | burstRing x => cases hok.1.symm.trans (Op.burst_of_single hop)
      | slowRing x | recheck x | backRing x => exact ⟨rfl, rfl⟩
      | serve n st =>
        cases st with
        | ring w x =>
          cases hring
          exact absurd (hok.2.2.1.side.symm.trans hside) op.side.other_ne
        | _ => cases hring
      | helpRing w x =>
        cases hring
        cases (hok.2.2.2.1.side.symm.trans hside).trans (Op.side_of_recv hop hok.2.1)
      | closeRing w x =>
        rw [hok.1] at hop
        cases hop
      | _ => cases hring
    · exact Pc.tried_of_waits hwaits
  rcases h.tried u id op pc hfor.thread htried.1 hfresh with hrefuses | hcache
  · cases htried.2.symm.trans hrefuses.2.2
  · exact hcache

/-- A step keeps the bound of a side, unless it takes a position for the call of that side or is a
cached access on it. -/
theorem Sys.CacheAt.move (h : s.CacheAt K c op.side slack) (hv : DirectValid K s)
    (huse : SpscUse c p q s) (hth : s.thread u = .direct id c op pc) (hop : op.single = true)
    (hacts : s.Acts K t alt c e th) (hnot : ⟨id, 0⟩ ∉ (s.mem.chan c).grants e)
    (hown : ∀ r, e = .spsc r → u ≠ t) : (s.move K t c e th).CacheAt K c op.side slack := by
  obtain ⟨id', op', pc₁, pc₂, ht, rfl, hflow⟩ := hv.direct.flow hacts
  have hlane : (s.thread t).laneOn c = pc₁.lane? := by rw [ht, Thread.laneOn_direct]
  have huowner : u = sideOwner p q op.side := (huse.usedBy hv.toSound hth).owner hop
  rw [Sys.CacheAt, show (s.move K t c e _).mem.chan c = _ from Mem.chan_apply_self K s.mem t c e]
  cases Pc.laneStep_of_flow ((hv.toSound.direct_ok ht).flow hflow) hflow with
  | @shared r hr hr' =>
    have hcached : ∀ o, (((s.mem.chan c).ring.step (K.chan c).ringCap alt r).1.cur o).cached =
        ((s.mem.chan c).ring.cur o).cached := Ring.cached_step _ _ alt r
    have hframe := LaneFrame.of_step (K.chan c).ringCap (s.mem.chan c).ring (s.mem.chan c).hist t alt r
    by_cases hside : op.side = r.op.side
    · -- the operation is for the call of this side
      obtain ⟨id₁, op₁, pc₃, hfor⟩ := huse.laneFor hv (hlane.trans hr)
      have hsame : sideOwner p q (LanePc.shared r).op.side = u := by
        rw [huowner, hside]
        rfl
      rw [hsame] at hfor
      cases hth.symm.trans hfor.thread
      have hring : (s.thread t).ring? = some (c, r) := by
        rw [ht, Thread.ring?, Pc.lane_shared hr]
        rfl
      rcases reserved_step_serves (s.mem.chan c).hist (K.chan c).ringCap (s.mem.chan c).ring t alt
        hfor.serves (Thread.fit_of_ring (hv.ok t) hring) with heq | ⟨-, hmem⟩
      · exact CacheAt.mono h (hcached _) (hframe.ext.committed _)
          (Nat.le_of_eq (congrArg (· + slack) heq))
      · exact absurd hmem hnot
    · exact CacheAt.frame h hframe hside (hcached _)
  | @cached r hr hr' =>
    have hside : op.side ≠ r.op.side := by
      intro hside
      obtain ⟨id₁, op₁, pc₃, hfor⟩ := huse.laneFor hv (hlane.trans hr)
      refine hown r rfl ?_
      rcases hfor.place with ⟨howner, -⟩ | ⟨-, -, x, hx, -⟩
      · rw [huowner, hside]
        exact howner
      · cases hx
    refine CacheAt.frame h (LaneFrame.of_spscStep _ _ _ t r) hside ?_
    exact Ring.cached_spscStep _ _ r _ fun ho => absurd ho hside
  | start hr he hr' hplain hrop hone =>
    rw [(Chan.ring_apply_of_lane _ _ he).1, (Chan.ring_apply_of_lane _ _ he).2]
    exact h
  | away hr he hr' =>
    rw [(Chan.ring_apply_of_lane _ _ he).1, (Chan.ring_apply_of_lane _ _ he).2]
    exact h

theorem CacheInv.near_move (h : CacheInv K c s) (hv : DirectValid K s) (huse : SpscUse c p q s)
    (hgood : s.LaneSound K c) (hspsc : (K.chan c).spsc = true) (hacts : s.Acts K t alt c e th)
    (o : ChanOp) : (s.move K t c e th).CacheAt K c o 1 := by
  have hnear := h.near o
  obtain ⟨id, op, pc₁, pc₂, ht, rfl, hflow⟩ := hv.direct.flow hacts
  have hlane : (s.thread t).laneOn c = pc₁.lane? := by rw [ht, Thread.laneOn_direct]
  rw [Sys.CacheAt, show (s.move K t c e _).mem.chan c = _ from Mem.chan_apply_self K s.mem t c e]
  cases Pc.laneStep_of_flow ((hv.toSound.direct_ok ht).flow hflow) hflow with
  | @shared r hr hr' =>
    have hcached : ∀ o, (((s.mem.chan c).ring.step (K.chan c).ringCap alt r).1.cur o).cached =
        ((s.mem.chan c).ring.cur o).cached := Ring.cached_step _ _ alt r
    have hframe := LaneFrame.of_step (K.chan c).ringCap (s.mem.chan c).ring (s.mem.chan c).hist t alt r
    by_cases hside : o = r.op.side
    · obtain ⟨id', op', pc₃, hfor⟩ := huse.laneFor hv (hlane.trans hr)
      have hring : (s.thread t).ring? = some (c, r) := by
        rw [ht, Thread.ring?, Pc.lane_shared hr]
        rfl
      obtain rfl : o = op'.side := hside.trans hfor.side
      rcases reserved_step_serves (s.mem.chan c).hist (K.chan c).ringCap (s.mem.chan c).ring t alt
        hfor.serves (Thread.fit_of_ring (hv.ok t) hring) with heq | ⟨heq, hmem⟩
      · exact CacheAt.mono hnear (hcached _) (hframe.ext.committed _)
          (Nat.le_of_eq (congrArg (· + 1) heq))
      · exact CacheAt.mono (h.current_of_grants hv hfor hspsc hacts hmem) (hcached _)
          (hframe.ext.committed _) (Nat.le_of_eq heq)
    · exact CacheAt.frame hnear hframe hside (hcached _)
  | @cached r hr hr' =>
    by_cases hside : o = r.op.side
    · subst hside
      obtain ⟨spin, rfl⟩ := Pc.lane_cached hr
      exact CacheAt.spscStep hgood (hlane.trans hr) hnear fun hcurrent => h.current hv ht hcurrent
    · refine CacheAt.frame hnear (LaneFrame.of_spscStep _ _ _ t r) hside ?_
      exact Ring.cached_spscStep _ _ r _ fun ho => absurd ho hside
  | start hr he hr' hplain hrop hone =>
    rw [(Chan.ring_apply_of_lane _ _ he).1, (Chan.ring_apply_of_lane _ _ he).2]
    exact hnear
  | away hr he hr' =>
    rw [(Chan.ring_apply_of_lane _ _ he).1, (Chan.ring_apply_of_lane _ _ he).2]
    exact hnear

theorem Mem.Refuses.move (h : s.mem.Refuses c op pc) : (s.move K t d e th).mem.Refuses c op pc :=
  ⟨Sys.closed_move.2 (Or.inl h.1), h.2⟩

/-- The thread that moves: a cached access leaves its copy current at a place that has tried, and the
other steps start from such a place. -/
theorem CacheInv.tried_own (h : CacheInv K c s) (hv : DirectValid K s) (huse : SpscUse c p q s)
    (hgood : s.LaneSound K c) (hspsc : (K.chan c).spsc = true)
    (hth : s.thread t = .direct id c op pc) (hflow : Pc.Flow K s.mem id c op alt pc e pc')
    (hacts : s.Acts K t alt c e (.direct id c op pc')) (htried : pc'.tried op = true)
    (hfresh : ¬ (s.move K t c e (.direct id c op pc')).mem.Took ⟨id, 0⟩) :
    (s.move K t c e (.direct id c op pc')).mem.Refuses c op pc' ∨
      (s.move K t c e (.direct id c op pc')).CacheAt K c op.side 0 := by
  have hok := hv.toSound.direct_ok hth
  have hop := Pc.single_of_tried (hok.flow hflow) htried
  rw [Sys.took_move, not_or] at hfresh
  by_cases he : ∃ r, e = .spsc r
  · obtain ⟨r, rfl⟩ := he
    refine Or.inr ?_
    cases Pc.laneStep_of_flow (hok.flow hflow) hflow with
    | cached hr hr' =>
      have hlane : (s.thread t).laneOn c = some (.cached r) := by
        rw [hth, Thread.laneOn_direct]
        exact hr
      obtain ⟨spin, rfl⟩ := Pc.lane_cached hr
      have hside : r.op.side = op.side := by rw [hok.2.2.2, Op.side_ringOp hop]
      rw [Sys.CacheAt, show (s.move K t c (.spsc r) _).mem.chan c = _ from
        Mem.chan_apply_self K s.mem t c _, ← hside]
      exact CacheAt.current_step hgood hlane (huse.lane_alone hv hlane) (h.near _)
        (fun hcurrent => h.current hv hth hcurrent) (Pc.tried_of_spsc hflow htried)
    | start _ he => cases he
    | away _ he => cases he
  · rcases Pc.tried_of_flow hok hspsc hflow (fun r hr => he ⟨r, hr⟩) htried with hrefuses | ⟨hpc, hnot⟩
    · exact Or.inl hrefuses.move
    · have hcache := (h.tried t id op pc hth hpc hfresh.1).resolve_left hnot
      exact Or.inr (hcache.move hv huse hth hop hacts hfresh.2 fun r hr => absurd ⟨r, hr⟩ he)

theorem CacheInv.tried_move (h : CacheInv K c s) (hv : DirectValid K s) (huse : SpscUse c p q s)
    (hgood : s.LaneSound K c) (hspsc : (K.chan c).spsc = true) (hacts : s.Acts K t alt d e th)
    (hth : (s.move K t d e th).thread u = .direct id c op pc) (htried : pc.tried op = true)
    (hfresh : ¬ (s.move K t d e th).mem.Took ⟨id, 0⟩) :
    (s.move K t d e th).mem.Refuses c op pc ∨ (s.move K t d e th).CacheAt K c op.side 0 := by
  obtain ⟨id', op', pc₁, pc₂, ht, rfl, hflow⟩ := hv.direct.flow hacts
  by_cases hu : u = t
  · subst hu
    rw [Sys.thread_move_self] at hth
    cases hth
    exact h.tried_own hv huse hgood hspsc ht hflow hacts htried hfresh
  · rw [Sys.thread_move_of_ne hu] at hth
    rw [Sys.took_move, not_or] at hfresh
    refine (h.tried u id op pc hth htried hfresh.1).imp Mem.Refuses.move fun hcache => ?_
    by_cases hd : c = d
    · subst hd
      exact hcache.move hv huse hth (Pc.single_of_tried (hv.toSound.direct_ok hth) htried) hacts
        hfresh.2 fun r _ => hu
    · rw [Sys.CacheAt, show (s.move K t d e _).mem.chan c = s.mem.chan c from
        Mem.chan_apply_of_ne K s.mem t d e hd]
      exact hcache

omit [DecidableEq T] [DecidableEq C] in
theorem CacheInv.init (slots : C → U32 → α) : CacheInv K c (Sys.init slots : Sys T C α) where
  near o := CacheAt.init _ (slots c) o 1
  tried _ _ _ _ h := by cases h

theorem CacheInv.step (h : CacheInv K c s) (hv : DirectValid K s) (huse : SpscUse c p q s)
    (hgood : s.LaneSound K c) (hspsc : (K.chan c).spsc = true) (hstep : s.Stepped K l s') :
    CacheInv K c s' := by
  cases hstep with
  | @call t k hidle =>
    refine ⟨h.near, fun u id op pc hth htried hfresh => ?_⟩
    by_cases hu : u = t
    · subst hu
      rw [Sys.thread_startCall_self] at hth
      cases k with
      | select cases timeout => cases hth
      | direct d op' =>
        cases hth
        cases (Pc.tried_entry hspsc s.next op).symm.trans htried
    · rw [Sys.thread_startCall_of_ne hu] at hth
      exact h.tried u id op pc hth htried hfresh
  | @ret t alt id r out hdone hret =>
    refine ⟨h.near, fun u id' op pc hth htried hfresh => ?_⟩
    by_cases hu : u = t
    · subst hu
      rw [Sys.thread_finishCall_self] at hth
      cases hth
    · rw [Sys.thread_finishCall_of_ne hu] at hth
      exact h.tried u id' op pc hth htried hfresh
  | @move t alt d e th hnext hacts =>
    refine ⟨fun o => ?_, fun u id op pc hth htried hfresh => ?_⟩
    · by_cases hd : c = d
      · subst hd
        exact h.near_move hv huse hgood hspsc hacts o
      · rw [Sys.CacheAt, show (s.move K t d e th).mem.chan c = s.mem.chan c from
          Mem.chan_apply_of_ne K s.mem t d e hd]
        exact h.near o
    · exact h.tried_move hv huse hgood hspsc hacts hth htried hfresh

end Step

end LibChan
