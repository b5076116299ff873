import LibChan.Chan.SpscPair

/-!
# `chan_len` between two loads

`ring_lf_count` loads the producer tail, then the consumer head, and subtracts. The difference is at most
the ring capacity while the loaded tail stays at or above what the consumers have taken and at most one
capacity above the head word (`InRange`). The consumers break the first if they take, between the two
loads, elements that were committed after the first load: the difference then wraps. The second holds by
itself on an ordinary channel, where the head word is what has been taken. On an SPSC channel it is behind
while a cached pop is between its two stores, since `ring_spsc_pop` stores its tail first, and a push that
commits at that moment breaks it. Without these two steps every `chan_len` returns at most the capacity
(`len_le_capacity`); with either of them one does not (`len_exceeds_capacity`).
-/

set_option autoImplicit false

namespace LibChan

variable {T C α : Type}

/-! ## The two conditions -/

/-- The tail that a `chan_len` on channel `c` has loaded. -/
def Thread.lenLoaded [DecidableEq C] (c : C) : Thread C α → Option U32
  | .direct _ d .len (.lenHead pt) => if d = c then some pt else none
  | _ => none

/-- What a `chan_len` on channel `c` is about to return. -/
def Thread.lenCount [DecidableEq C] (c : C) : Thread C α → Option Nat
  | .direct _ d .len (.unlockRet (.count n)) | .direct _ d .len (.ret (.count n)) =>
    if d = c then some n else none
  | _ => none

/-- The place of a thread in a cached operation on channel `c`. -/
def Thread.cachedOn [DecidableEq C] (c : C) : Thread C α → Option (SpscPc Wid α)
  | .direct _ d _ (.fastSpsc _ p) => if d = c then some p else none
  | _ => none

section Places

variable {ω β : Type}

/-- A consumer CAS that succeeds reserves positions before `pt` only. -/
def RingPc.TakesBelow (r : Ring β) (weak : Bool) (pt : U32) : RingPc ω β → Prop
  | .cas op h k => op.side = .recv → weak = false → (r.cur .recv).head = h →
      k.toNat ≤ (pt - h).toNat
  | _ => True

instance (r : Ring β) (weak : Bool) (pt : U32) : DecidablePred (RingPc.TakesBelow (ω := ω) r weak pt)
  | .cas op h k => inferInstanceAs (Decidable (op.side = .recv → weak = false →
      (r.cur .recv).head = h → k.toNat ≤ (pt - h).toNat))
  | .loadHead _ | .loadOpp _ _ | .copy _ _ _ _ _ | .wait _ _ _ _ | .store _ _ _ _ => .isTrue trivial

/-- A cached pop that stores its tail takes a position before `pt`. -/
def SpscPc.TakesBelow (pt : U32) : SpscPc ω β → Prop
  | .storeTail op h _ => op.side = .recv → 1 ≤ (pt - h).toNat
  | _ => True

instance (pt : U32) : DecidablePred (SpscPc.TakesBelow (ω := ω) (β := β) pt)
  | .storeTail op h _ => inferInstanceAs (Decidable (op.side = .recv → 1 ≤ (pt - h).toNat))
  | .loadHead _ | .refresh _ _ | .copy _ _ | .storeHead _ _ _ => .isTrue trivial

/-- The access stores the producer tail. -/
def LanePc.publishes : LanePc ω β → Bool
  | .shared (.store op _ _ _) => op.side == .send
  | .cached (.storeTail op _ _) => op.side == .send
  | _ => false

/-- A cached pop between its two stores: the tail is stored, the head is not. -/
def LanePc.lagging : LanePc ω β → Bool
  | .cached (.storeHead op _ _) => op.side == .recv
  | _ => false

end Places

/-- What thread `t` takes from the ring of `c` in its next step lies before `pt`. -/
def Sys.TakesBelow [DecidableEq C] (c : C) (s : Sys T C α) (t : T) (alt : Bool) (pt : U32) : Prop :=
  (∀ x ∈ (s.thread t).ringOn c, x.TakesBelow (s.mem.chan c).ring alt pt) ∧
    ∀ x ∈ (s.thread t).cachedOn c, x.TakesBelow pt

/-- The consumers of `c` take nothing that was committed after the first load of a `chan_len` in
progress. -/
def Sys.LenOk [DecidableEq C] (c : C) (s : Sys T C α) : Label T C α → Prop
  | .go t alt => ∀ u, ∀ pt ∈ (s.thread u).lenLoaded c, s.TakesBelow c t alt pt
  | .call _ _ => True

/-- The producer tail of `c` is not stored while a cached pop is between its two stores. -/
def Sys.StoresOk [DecidableEq C] (c : C) (s : Sys T C α) : Label T C α → Prop
  | .go t _ => ∀ x ∈ (s.thread t).laneOn c, x.publishes = true →
      ∀ u, ∀ y ∈ (s.thread u).laneOn c, y.lagging = false
  | .call _ _ => True

/-- How channel `c` is used: without laps if it is an ordinary one; by one producer and one consumer, and
without a push between the two stores of a cached pop, if it is an SPSC channel. -/
def Sys.LenUse [DecidableEq C] (K : Config T C) (c : C) (p q : T) (s : Sys T C α)
    (l : Label T C α) : Prop :=
  if (K.chan c).spsc = true then l.Spsc c p q ∧ s.StoresOk c l else s.Timely l

section Decide

variable [DecidableEq C] {n : Nat}

instance (c : C) (s : Sys T C α) (t : T) (alt : Bool) : DecidablePred (s.TakesBelow c t alt) :=
  fun _ => inferInstanceAs (Decidable (_ ∧ _))

-- the tails are in options: instance search would go through all words instead
instance (c : C) (s : Sys (Fin n) C α) : DecidablePred (s.LenOk c)
  | .go _ _ => @Nat.decidableForallFin n _ fun _ => Option.decidableForallMem _
  | .call _ _ => .isTrue trivial

instance (c : C) (s : Sys (Fin n) C α) : DecidablePred (s.StoresOk c)
  | .go _ _ => inferInstanceAs (Decidable (∀ _ ∈ _, _ = true → ∀ _ : Fin n, ∀ _ ∈ _, _ = false))
  | .call _ _ => .isTrue trivial

instance (K : Config (Fin n) C) (c : C) (p q : Fin n) (s : Sys (Fin n) C α) (l : Label (Fin n) C α) :
    Decidable (s.LenUse K c p q l) :=
  inferInstanceAs (Decidable (if (K.chan c).spsc = true then _ else _))

end Decide

/-! ## What the words stand for -/

/-- A count that the consumers have not passed, and that lies at most one capacity above the count in the
head word. -/
def InRange (cap : RingCap) (r : Ring α) (g : RingGhost T Wid α) (m : Nat) : Prop :=
  ∃ n, (r.cur .recv).head = BitVec.ofNat 32 n ∧ n ≤ g.reserved .recv ∧ g.reserved .recv ≤ m ∧
    m ≤ n + cap.size

/-- What a thread inside a `chan_len` on `c` knows: the tail it has loaded is in range, what it is about to
return is at most the capacity. -/
structure Thread.LenKnows [DecidableEq C] (K : Config T C) (c : C) (m : Mem T C α)
    (th : Thread C α) : Prop where
  loaded : ∀ pt ∈ th.lenLoaded c, ∃ k, pt = BitVec.ofNat 32 k ∧
    InRange (K.chan c).ringCap (m.chan c).ring (m.chan c).hist k
  counted : ∀ n ∈ th.lenCount c, n ≤ (K.chan c).ringCap.size

/-- The tail of `c`, and every tail that a `chan_len` on it has loaded, is in range. -/
structure LenInv [DecidableEq C] (K : Config T C) (c : C) (s : Sys T C α) : Prop where
  tail : ((s.mem.chan c).ring.cur .send).tail = BitVec.ofNat 32 ((s.mem.chan c).hist.committed .send)
  range : InRange (K.chan c).ringCap (s.mem.chan c).ring (s.mem.chan c).hist
    ((s.mem.chan c).hist.committed .send)
  knows : ∀ t, (s.thread t).LenKnows K c s.mem

/-- The consumers take only positions before the tails that the `chan_len` in progress on `c` have
loaded. -/
structure Sys.Taken [DecidableEq C] (K : Config T C) (c : C) (s s' : Sys T C α) : Prop where
  grows : (s.mem.chan c).hist.reserved .recv ≤ (s'.mem.chan c).hist.reserved .recv
  below : ∀ u m, BitVec.ofNat 32 m ∈ (s.thread u).lenLoaded c →
    (s.mem.chan c).hist.reserved .recv ≤ m →
    m ≤ (s.mem.chan c).hist.reserved .recv + (K.chan c).ringCap.size →
    (s'.mem.chan c).hist.reserved .recv ≤ m

/-- What a step does to the words that `chan_len` reads: it leaves both counts, or the head word tells
afterwards what has been taken. -/
structure Sys.Counts [DecidableEq C] (K : Config T C) (c : C) (s s' : Sys T C α) : Prop
    extends Sys.Taken K c s s' where
  ordered : Ordered (K.chan c).ringCap (s'.mem.chan c).hist
  tail : ((s'.mem.chan c).ring.cur .send).tail = BitVec.ofNat 32 ((s'.mem.chan c).hist.committed .send)
  head : ((s'.mem.chan c).ring.cur .recv).head = ((s.mem.chan c).ring.cur .recv).head ∧
      (s'.mem.chan c).hist.committed .send = (s.mem.chan c).hist.committed .send ∨
    ((s'.mem.chan c).ring.cur .recv).head = BitVec.ofNat 32 ((s'.mem.chan c).hist.reserved .recv)

section Words

variable [DecidableEq C] {K : Config T C} {s s' : Sys T C α} {c : C} {cap : RingCap} {r : Ring α}
  {g : RingGhost T Wid α} {m : Nat}

omit [DecidableEq C] in
/-- The producer tail is in range while the head word tells what has been taken. -/
theorem Ordered.inRange (h : Ordered cap g)
    (hhead : (r.cur .recv).head = BitVec.ofNat 32 (g.reserved .recv)) :
    InRange cap r g (g.committed .send) := by
  have hcons := h.cons_le
  have hprod := h.prod_le
  have hcap := h.prod_le_cap
  exact ⟨_, hhead, le_rfl, h.cons_le_prod, by omega⟩

omit [DecidableEq C] in
theorem InRange.sub_le (h : InRange cap r g m) :
    (BitVec.ofNat 32 m - (r.cur .recv).head).toNat ≤ cap.size := by
  obtain ⟨n, hhead, hle, hlo, hhi⟩ := h
  have hcap := cap.size_le
  rw [hhead, Wrap.ofNat_sub_toNat (hle.trans hlo) (by omega)]
  omega

/-- A count in range that the consumers do not pass in a step stays in range. -/
theorem Sys.Counts.inRange (h : s.Counts K c s')
    (hm : InRange (K.chan c).ringCap (s.mem.chan c).ring (s.mem.chan c).hist m)
    (htaken : (s'.mem.chan c).hist.reserved .recv ≤ m) :
    InRange (K.chan c).ringCap (s'.mem.chan c).ring (s'.mem.chan c).hist m := by
  obtain ⟨n, hhead, hle, -, hhi⟩ := hm
  have hgrows := h.grows
  rcases h.head with ⟨hsame, -⟩ | hright
  · exact ⟨n, hsame.trans hhead, hle.trans hgrows, htaken, hhi⟩
  · exact ⟨_, hright, le_rfl, htaken, by omega⟩

theorem Sys.Counts.range (h : s.Counts K c s')
    (hrange : InRange (K.chan c).ringCap (s.mem.chan c).ring (s.mem.chan c).hist
      ((s.mem.chan c).hist.committed .send)) :
    InRange (K.chan c).ringCap (s'.mem.chan c).ring (s'.mem.chan c).hist
      ((s'.mem.chan c).hist.committed .send) := by
  rcases h.head with ⟨-, hsame⟩ | hright
  · refine h.inRange ?_ h.ordered.cons_le_prod
    rw [hsame]
    exact hrange
  · exact h.ordered.inRange hright

/-- What a thread inside `chan_len` knows while it does not move. -/
theorem Thread.LenKnows.stays {u : T} (h : (s.thread u).LenKnows K c s.mem) (hcounts : s.Counts K c s') :
    (s.thread u).LenKnows K c s'.mem := by
  refine ⟨fun pt hpt => ?_, h.counted⟩
  obtain ⟨k, rfl, hk⟩ := h.loaded pt hpt
  obtain ⟨n, -, hle, hlo, hhi⟩ := id hk
  exact ⟨k, rfl, hcounts.inRange hk (hcounts.below u k hpt hlo (by omega))⟩

theorem Thread.LenKnows.outside {mem : Mem T C α} {th : Thread C α} (hloaded : th.lenLoaded c = none)
    (hcount : th.lenCount c = none) : th.LenKnows K c mem := by
  constructor
  · intro pt hpt
    cases hloaded.symm.trans hpt
  · intro n hn
    cases hcount.symm.trans hn

end Words

section Step

variable [DecidableEq T] [DecidableEq C] {K : Config T C} {s s' : Sys T C α} {l : Label T C α}
  {t : T} {alt : Bool} {c : C} {e : Effect α} {id : Nat} {pc pc' : Pc α}

omit [DecidableEq T] [DecidableEq C] in
/-- The places of a `chan_len`. -/
theorem Pc.len_cases {k : ChanCfg} (hok : pc.Ok k id .len) :
    pc = .lenTail ∨ (∃ pt, pc = .lenHead pt) ∨ (∃ r, pc = .unlockRet r) ∨ ∃ r, pc = .ret r := by
  cases pc with
  | lenTail => exact .inl rfl
  | lenHead pt => exact .inr (.inl ⟨pt, rfl⟩)
  | unlockRet r => exact .inr (.inr (.inl ⟨r, rfl⟩))
  | ret r => exact .inr (.inr (.inr ⟨r, rfl⟩))
  | serve n st =>
    cases n with
    | leave r => exact hok.2.1.elim
    | block => cases hok.2.1
  | _ => simp [Pc.Ok, Op.single, Op.burst, Op.Moved, Op.isSend] at hok

omit [DecidableEq T] in
theorem Thread.lenLoaded_lenHead (id : Nat) (c : C) (pt : U32) :
    (Thread.direct id c (.len : Op α) (.lenHead pt)).lenLoaded c = some pt := if_pos rfl

omit [DecidableEq T] in
theorem Thread.lenLoaded_of_ne (id : Nat) (pc : Pc α) {c d : C} (hd : d ≠ c) :
    (Thread.direct id d (.len : Op α) pc).lenLoaded c = none := by
  cases pc with
  | lenHead pt => exact if_neg hd
  | _ => rfl

omit [DecidableEq T] in
theorem Thread.lenCount_of_ne (id : Nat) (pc : Pc α) {c d : C} (hd : d ≠ c) :
    (Thread.direct id d (.len : Op α) pc).lenCount c = none := by
  cases pc with
  | unlockRet r =>
    cases r with
    | count n => exact if_neg hd
    | _ => rfl
  | ret r =>
    cases r with
    | count n => exact if_neg hd
    | _ => rfl
  | _ => rfl

/-- The steps of `chan_len`: the tail it loads is in range, the count it returns is at most the
capacity. -/
theorem LenInv.flow (h : LenInv K c s) (hth : s.thread t = .direct id c .len pc)
    (hok : pc.Ok (K.chan c) id (.len : Op α)) (hflow : Pc.Flow K s.mem id c .len alt pc e pc') :
    (Thread.direct id c .len pc').LenKnows K c (s.mem.apply K t c e) := by
  have hknows := h.knows t
  rw [hth] at hknows
  rcases Pc.len_cases hok with rfl | ⟨pt, rfl⟩ | ⟨r, rfl⟩ | ⟨r, rfl⟩
  · cases hflow
    refine ⟨fun pt hpt => ?_, fun n hn => ?_⟩
    · rw [Thread.lenLoaded_lenHead] at hpt
      cases hpt
      rw [Mem.chan_apply_self]
      exact ⟨_, h.tail, h.range⟩
    · cases hn
  · obtain ⟨m, rfl, hm⟩ := hknows.loaded pt (Thread.lenLoaded_lenHead id c pt)
    cases hflow
    refine ⟨fun pt hpt => ?_, fun n hn => ?_⟩
    · cases hpt
    · obtain ⟨-, hn⟩ := Option.ite_none_right_eq_some.1 hn
      cases hn
      exact hm.sub_le
  · cases hflow
    refine ⟨fun pt hpt => ?_, ?_⟩
    · cases hpt
    · cases r <;> exact hknows.counted
  · cases hflow

/-- The invariant is kept by every step that leaves both words, or leaves the head word right. -/
theorem LenInv.step (h : LenInv K c s) (hs : Sound K s) (hcounts : s.Counts K c s')
    (hstep : s.Stepped K l s') : LenInv K c s' := by
  have hstays := fun u => (h.knows u).stays hcounts
  refine ⟨hcounts.tail, hcounts.range h.range, fun t => ?_⟩
  cases hstep with
  | @call u k hidle =>
    by_cases ht : t = u
    · subst ht
      rw [Sys.thread_startCall_self]
      cases k with
      | select cases timeout => exact .outside rfl rfl
      | direct d op =>
        cases op with
        | len =>
          show (Thread.direct s.next d .len (Pc.entry (K.chan d) s.next .len)).LenKnows K c _
          rw [Pc.entry]
          split
          · refine ⟨fun pt hpt => ?_, fun n hn => ?_⟩
            · cases hpt
            · obtain ⟨-, hn⟩ := Option.ite_none_right_eq_some.1 hn
              cases hn
              exact Nat.zero_le _
          · exact .outside rfl rfl
        | _ => exact .outside rfl rfl
    · rw [Sys.thread_startCall_of_ne ht]
      exact hstays t
  | @ret u alt id r out hdone hret =>
    by_cases ht : t = u
    · subst ht
      rw [Sys.thread_finishCall_self]
      exact .outside rfl rfl
    · rw [Sys.thread_finishCall_of_ne ht]
      exact hstays t
  | @move u alt d e th hnext hacts =>
    by_cases ht : t = u
    · subst ht
      rw [Sys.thread_move_self]
      cases hacts with
      | select hth hact => exact .outside rfl rfl
      | @direct id d op pc pc' e hth hact =>
        cases op with
        | len =>
          by_cases hd : d = c
          · subst hd
            exact h.flow hth (hs.direct_ok hth) (Pc.flow_of_act hact)
          · exact .outside (Thread.lenLoaded_of_ne id pc' hd) (Thread.lenCount_of_ne id pc' hd)
        | _ => exact .outside rfl rfl
    · rw [Sys.thread_move_of_ne ht]
      exact hstays t

end Step

/-! ## The steps on an ordinary channel -/

section Shared

variable [DecidableEq T] [DecidableEq C] {K : Config T C} {s s' : Sys T C α} {l : Label T C α}
  {t : T} {alt : Bool} {c : C} {cap : RingCap} {r : Ring α} {g : RingGhost T Wid α} {m : Nat}

omit [DecidableEq T] in
theorem Sys.Taken.of_hist (h : (s'.mem.chan c).hist = (s.mem.chan c).hist) : s.Taken K c s' := by
  refine ⟨?_, fun u m hm hlo hhi => ?_⟩
  · rw [h]
  · rw [h]
    exact hlo

/-- A reservation moves one of the counts by at most what it asks for. -/
theorem reserved_reserve_le {ω β : Type} (g : RingGhost T ω β) (t : T) (op : RingOp ω β) (k : Nat) :
    (g.reserve t op k).reserved .recv ≤
      g.reserved .recv + if op.side = .recv then k else 0 := by
  rw [RingGhost.reserve]
  cases hside : op.side with
  | send => exact le_rfl
  | recv =>
    show (g.takers ++ op.tags.take k).length ≤ g.takers.length + k
    rw [List.length_append, List.length_take]
    omega

/-- One access takes nothing at or above a count in range, if the head word is right for a consumer. -/
theorem RingPc.TakesBelow.reserved_le {x : RingPc Wid α} (h : x.TakesBelow r alt (BitVec.ofNat 32 m))
    (hhead : x.op.side = .recv → (r.cur .recv).head = BitVec.ofNat 32 (g.reserved .recv))
    (hlo : g.reserved .recv ≤ m) (hhi : m ≤ g.reserved .recv + cap.size) :
    (g.step cap r t alt x).reserved .recv ≤ m := by
  have hcap := cap.size_le
  cases x with
  | cas op a k =>
    rw [RingGhost.step]
    split
    case isTrue hcas =>
      have hle := reserved_reserve_le g t op k.toNat
      cases hside : op.side with
      | send =>
        rw [hside, if_neg (by decide)] at hle
        omega
      | recv =>
        -- the positions taken lie between the consumer count and the loaded tail
        rw [hside] at hcas
        have hk := h hside hcas.1 hcas.2
        rw [← hcas.2, hhead hside, Wrap.ofNat_sub_toNat hlo (by omega)] at hk
        rw [hside, if_pos rfl] at hle
        omega
    case isFalse => exact hlo
  | copy op a k i acc =>
    rw [RingGhost.step]
    split <;> exact hlo
  | _ => exact hlo

theorem SharedInv.taken (h : SharedInv K s) (hs : Sound K s) (hspsc : (K.chan c).spsc = false)
    (hlen : s.LenOk c l) (hstep : s.Stepped K l s') : s.Taken K c s' := by
  cases hstep with
  | call hidle => exact .of_hist rfl
  | ret hdone hret => exact .of_hist rfl
  | @move t alt d e th hnext hacts =>
    by_cases hd : c = d
    · subst hd
      have hchan : (s.move K t c e th).mem.chan c = (s.mem.chan c).apply (K.chan c).ringCap t e :=
        Mem.chan_apply_self K s.mem t c e
      cases e with
      | ring weak x =>
        have hring : (s.thread t).ring? = some (c, x) ∧ weak = alt := by
          cases hacts.ring (hs.ok t) with
          | inside hold => exact ⟨hold, rfl⟩
          | last hold => exact ⟨hold, rfl⟩
          | start hold he => cases he
          | away hold he => cases he
        obtain ⟨hring, rfl⟩ := hring
        refine ⟨?_, fun u m hm hlo hhi => ?_⟩
        · rw [hchan]
          exact (extends_step _ _ _ t weak x).reserved_le .recv
        · rw [hchan]
          have hbelow := (hlen u _ hm).1 x (Thread.ringOn_eq_some.2 hring)
          exact hbelow.reserved_le (fun _ => (h c hspsc).head_eq .recv) hlo hhi
      | spsc x => cases hspsc.symm.trans (hacts.spsc (hs.ok t))
      | _ =>
        refine .of_hist ?_
        rw [hchan]
        rfl
    · refine .of_hist ?_
      rw [show (s.move K t d e th).mem.chan c = _ from Mem.chan_apply_of_ne K s.mem t d e hd]

/-- On an ordinary channel the head word always tells what has been taken. -/
theorem SharedInv.counts (h : SharedInv K s) (h' : SharedInv K s') (hs : Sound K s)
    (hspsc : (K.chan c).spsc = false) (hlen : s.LenOk c l) (hstep : s.Stepped K l s') :
    s.Counts K c s' where
  toTaken := h.taken hs hspsc hlen hstep
  ordered := (h' c hspsc).ordered
  tail := (h' c hspsc).tail_eq .send
  head := .inr ((h' c hspsc).head_eq .recv)

end Shared

/-! ## The steps on an SPSC channel -/

section Ring

variable {ω β : Type} [DecidableEq T] {cap : RingCap} {r : Ring β} {g : RingGhost T ω β} {t : T}

theorem committed_step_of_publishes (g : RingGhost T ω β) (cap : RingCap) (r : Ring β) (t : T)
    (weak : Bool) {x : RingPc ω β} (h : (LanePc.shared x).publishes = false) :
    (g.step cap r t weak x).committed .send = g.committed .send := by
  cases x with
  | store op a k acc =>
    rw [RingGhost.step]
    refine g.committed_commit_of_ne ?_ k.toNat
    rintro hside
    rw [LanePc.publishes, ← hside] at h
    cases h
  | cas op a k =>
    rw [RingGhost.step]
    split
    · rw [committed_reserve]
    · rfl
  | copy op a k i acc =>
    rw [RingGhost.step]
    split <;> rfl
  | _ => rfl

theorem committed_spscStep_of_publishes (g : RingGhost T ω β) (cap : RingCap) (r : Ring β) (t : T)
    {x : SpscPc ω β} (h : (LanePc.cached x).publishes = false) :
    (g.spscStep cap r t x).committed .send = g.committed .send := by
  cases x with
  | storeTail op a acc =>
    rw [RingGhost.spscStep, RingGhost.committed_commit_of_ne, committed_reserve]
    rintro hside
    rw [LanePc.publishes, ← hside] at h
    cases h
  | copy op a =>
    rw [RingGhost.spscStep]
    split <;> rfl
  | _ => rfl

/-- A cached pop that has just stored its tail has left its head. -/
theorem Ring.lagging_spscStep {x x' : SpscPc ω β} (hx : (r.spscStep cap x).2 = .inl x')
    (hlag : (LanePc.cached x').lagging = true) :
    (LanePc.cached x).publishes = false ∧ ((r.spscStep cap x).1.cur .recv).head = (r.cur .recv).head := by
  cases x with
  | loadHead op =>
    simp only [Ring.spscStep] at hx
    split at hx <;> cases hx <;> cases hlag
  | refresh op a =>
    simp only [Ring.spscStep] at hx
    split at hx
    · cases hx
    · cases hx
      cases hlag
  | copy op a =>
    cases hx
    cases hlag
  | storeTail op a acc =>
    cases hx
    have hside : op.side = .recv := beq_iff_eq.1 hlag
    refine ⟨?_, r.head_setTail ..⟩
    rw [LanePc.publishes, hside]
    rfl
  | storeHead op a acc => cases hx

/-- A cached pop whose position lies below a count in range. -/
theorem SpscPc.TakesBelow.reserved_le {pc : T → Option (LanePc ω β)} {x : SpscPc ω β} {m : Nat}
    (h : x.TakesBelow (BitVec.ofNat 32 m)) (hinv : LaneInv cap r g pc) (ht : pc t = some (.cached x))
    (hlo : g.reserved .recv ≤ m) (hhi : m ≤ g.reserved .recv + cap.size) :
    (g.spscStep cap r t x).reserved .recv ≤ m := by
  have hcap := cap.size_le
  cases x with
  | storeTail op a acc =>
    rw [RingGhost.spscStep, reserved_commit]
    have hle := reserved_reserve_le g t op 1
    cases hside : op.side with
    | send =>
      rw [hside, if_neg (by decide)] at hle
      omega
    | recv =>
      obtain ⟨-, hword, -⟩ := hinv.checking ht rfl
      have hone := h hside
      rw [hword, hinv.mark t _ _ ht rfl trivial] at hone
      rw [show (RingPc.cas op a 1).op.side = .recv from hside,
        Wrap.ofNat_sub_toNat hlo (by omega)] at hone
      rw [hside, if_pos rfl] at hle
      omega
  | _ =>
    rw [reserved_spscStep g cap r t (fun op a acc hx => by cases hx)]
    exact hlo

end Ring

section Spsc

variable [DecidableEq T] [DecidableEq C] {K : Config T C} {s s' : Sys T C α} {l : Label T C α}
  {p q t : T} {alt : Bool} {c d : C} {e : Effect α} {th : Thread C α} {x : LanePc Wid α}

/-- An access of thread `t` to the ring of `c`, at place `x`. -/
structure Sys.LaneAccess (K : Config T C) (c : C) (t : T) (x : LanePc Wid α) (s s' : Sys T C α) : Prop
    extends Sys.Taken K c s s' where
  place : (s.thread t).laneOn c = some x
  frame : LaneFrame t x.op.side (s.mem.chan c).ring (s'.mem.chan c).ring (s.mem.chan c).hist
    (s'.mem.chan c).hist
  commits : x.publishes = false →
    (s'.mem.chan c).hist.committed .send = (s.mem.chan c).hist.committed .send
  lags : ∀ y, (s'.thread t).laneOn c = some y → y.lagging = true → x.publishes = false ∧
    ((s'.mem.chan c).ring.cur .recv).head = ((s.mem.chan c).ring.cur .recv).head
  others : ∀ u, u ≠ t → s'.thread u = s.thread u

omit [DecidableEq T] in
theorem Thread.ringOn_of_lane {y : RingPc Wid α} (h : (s.thread t).laneOn c = some (.shared y)) :
    (s.thread t).ringOn c = some y := by
  obtain ⟨id, op, pc, hth, hpc⟩ := Thread.laneOn_eq_some h
  rw [Thread.ringOn_eq_some, hth, Thread.ring?, Pc.lane_shared hpc]
  rfl

omit [DecidableEq T] in
theorem Thread.cachedOn_of_lane {y : SpscPc Wid α} (h : (s.thread t).laneOn c = some (.cached y)) :
    (s.thread t).cachedOn c = some y := by
  obtain ⟨id, op, pc, hth, hpc⟩ := Thread.laneOn_eq_some h
  obtain ⟨spin, rfl⟩ := Pc.lane_cached hpc
  rw [hth]
  exact if_pos rfl

/-- A step leaves the ring of `c`, or is an access to it by a thread in one of its lanes. -/
theorem SpscValid.access (h : SpscValid K c p q s) (hlen : s.LenOk c (.go t alt))
    (hacts : s.Acts K t alt d e th) :
    ((s.move K t d e th).mem.chan c).ring = (s.mem.chan c).ring ∧
      ((s.move K t d e th).mem.chan c).hist = (s.mem.chan c).hist ∨
    ∃ x, s.LaneAccess K c t x (s.move K t d e th) := by
  by_cases hd : c = d
  · subst hd
    obtain ⟨id, op, pc, pc', hth, rfl, hflow⟩ := h.direct.flow hacts
    have hchan : (s.move K t c e (.direct id c op pc')).mem.chan c =
        (s.mem.chan c).apply (K.chan c).ringCap t e := Mem.chan_apply_self K s.mem t c e
    have hold : (s.thread t).laneOn c = pc.lane? := by rw [hth, Thread.laneOn_direct]
    have hnew : ((s.move K t c e (.direct id c op pc')).thread t).laneOn c = pc'.lane? := by
      rw [Sys.thread_move_self, Thread.laneOn_direct]
    cases Pc.laneStep_of_flow ((h.toSound.direct_ok hth).flow hflow) hflow with
    | @shared x hlane hlane' =>
      have hlane := hold.trans hlane
      have hframe := LaneFrame.of_step (K.chan c).ringCap (s.mem.chan c).ring (s.mem.chan c).hist t alt x
      have halone := h.use.lane_alone h.toDirectValid hlane
      refine .inr ⟨.shared x, ⟨?_, fun u m hm hlo hhi => ?_⟩, hlane, ?_, fun hx => ?_, fun y hy hlag => ?_,
        fun u hu => Sys.thread_move_of_ne hu⟩
      · rw [hchan]
        exact hframe.ext.reserved_le .recv
      · rw [hchan]
        have hbelow := (hlen u _ hm).1 x (Thread.ringOn_of_lane hlane)
        refine hbelow.reserved_le (fun hside => ?_) hlo hhi
        have hhead := LaneInv.head_of_shared h.ring hlane halone
        rwa [hside] at hhead
      · rw [hchan]
        exact hframe
      · rw [hchan]
        exact committed_step_of_publishes _ _ _ t alt hx
      · rw [hnew, hlane'] at hy
        obtain ⟨y', -, rfl⟩ := Option.map_eq_some_iff.1 hy
        cases hlag
    | @cached x hlane hlane' =>
      have hlane := hold.trans hlane
      have hframe := LaneFrame.of_spscStep (K.chan c).ringCap (s.mem.chan c).ring (s.mem.chan c).hist t x
      refine .inr ⟨.cached x, ⟨?_, fun u m hm hlo hhi => ?_⟩, hlane, ?_, fun hx => ?_, fun y hy hlag => ?_,
        fun u hu => Sys.thread_move_of_ne hu⟩
      · rw [hchan]
        exact hframe.ext.reserved_le .recv
      · rw [hchan]
        have hbelow := (hlen u _ hm).2 x (Thread.cachedOn_of_lane hlane)
        exact hbelow.reserved_le h.ring hlane hlo hhi
      · rw [hchan]
        exact hframe
      · rw [hchan]
        exact committed_spscStep_of_publishes _ _ _ t hx
      · rw [hnew, hlane'] at hy
        obtain ⟨y', hy', rfl⟩ := Option.map_eq_some_iff.1 hy
        rw [hchan]
        exact Ring.lagging_spscStep (Sum.getLeft?_eq_some_iff.1 hy') hlag
    | start hlane he hlane' hplain hop hone =>
      rw [hchan]
      exact .inl (Chan.ring_apply_of_lane _ _ he)
    | away hlane he hlane' =>
      rw [hchan]
      exact .inl (Chan.ring_apply_of_lane _ _ he)
  · rw [show (s.move K t d e th).mem.chan c = _ from Mem.chan_apply_of_ne K s.mem t d e hd]
    exact .inl ⟨rfl, rfl⟩

/-- After an access the head word is right, or a cached pop is between its two stores; then it is the
access that stored the tail, or one of the producer that does not commit. -/
theorem SpscValid.head_words (h : SpscValid K c p q s) (h' : SpscValid K c p q s')
    (hstores : s.StoresOk c (.go t alt)) (hacc : s.LaneAccess K c t x s') :
    ((s'.mem.chan c).ring.cur .recv).head = ((s.mem.chan c).ring.cur .recv).head ∧
      (s'.mem.chan c).hist.committed .send = (s.mem.chan c).hist.committed .send ∨
    ((s'.mem.chan c).ring.cur .recv).head = BitVec.ofNat 32 ((s'.mem.chan c).hist.reserved .recv) := by
  by_cases hlag : ∃ u y, (s'.thread u).laneOn c = some y ∧ y.lagging = true
  · obtain ⟨u, y, hu, hy⟩ := hlag
    by_cases hut : u = t
    · subst hut
      obtain ⟨hx, hhead⟩ := hacc.lags y hu hy
      exact .inl ⟨hhead, hacc.commits hx⟩
    · rw [hacc.others u hut] at hu
      have hside : y.op.side = .recv := by
        cases y with
        | shared y => cases hy
        | cached y =>
          cases y with
          | storeHead op a acc => exact beq_iff_eq.1 hy
          | _ => cases hy
      have hne := h.use.lane_alone h.toDirectValid hacc.place u y hut hu
      rw [hside] at hne
      have hx : x.publishes = false := by
        by_contra hpub
        have hnot := hstores x hacc.place (Bool.not_eq_false _ ▸ hpub) u y hu
        cases hy.symm.trans hnot
      exact .inl ⟨hacc.frame.head _ hne, hacc.commits hx⟩
  · refine .inr (LaneInv.head h'.ring .recv fun u op a acc hu hside => ?_)
    exact hlag ⟨u, _, hu, beq_iff_eq.2 hside⟩

theorem SpscValid.counts (h : SpscValid K c p q s) (h' : SpscValid K c p q s') (hlen : s.LenOk c l)
    (hstores : s.StoresOk c l) (hstep : s.Stepped K l s') : s.Counts K c s' := by
  have hordered : Ordered (K.chan c).ringCap (s'.mem.chan c).hist := h'.ring.ring.ordered
  have htail := h'.ring.ring.tail_eq .send
  cases hstep with
  | call hidle => exact ⟨.of_hist rfl, hordered, htail, .inl ⟨rfl, rfl⟩⟩
  | ret hdone hret => exact ⟨.of_hist rfl, hordered, htail, .inl ⟨rfl, rfl⟩⟩
  | @move t alt d e th hnext hacts =>
    rcases h.access hlen hacts with ⟨hring, hhist⟩ | ⟨x, hacc⟩
    · refine ⟨.of_hist hhist, hordered, htail, .inl ?_⟩
      rw [hring, hhist]
      exact ⟨rfl, rfl⟩
    · exact ⟨hacc.toTaken, hordered, htail, h.head_words h' hstores hacc⟩

end Spsc

/-! ## Every run -/

section Run

variable [DecidableEq T] [DecidableEq C] {K : Config T C} {s : Sys T C α} {c : C} {p q : T}

omit [DecidableEq T] in
theorem LenInv.init (slots : C → U32 → α) : LenInv K c (Sys.init slots : Sys T C α) where
  tail := rfl
  range := ⟨0, rfl, le_rfl, le_rfl, Nat.zero_le _⟩
  knows _ := .outside rfl rfl

theorem LenInv.of_reaches (slots : C → U32 → α)
    (hrun : Reaches (Sys.step K) (fun s l => s.LenOk c l ∧ s.LenUse K c p q l) (Sys.init slots) s) :
    LenInv K c s := by
  cases hspsc : (K.chan c).spsc with
  | false =>
    have hshared := Sys.invariant (P := fun s => SharedInv K s ∧ LenInv K c s) hrun
      ⟨.init slots, .init slots⟩ fun s l s' hs h hok hstep => by
        have htime : s.Timely l := by
          have huse := hok.2
          rwa [Sys.LenUse, if_neg (by rw [hspsc]; decide)] at huse
        have h' := h.1.step hs (htime.shared K) hstep
        exact ⟨h', h.2.step hs (h.1.counts h' hs hspsc hok.1 hstep) hstep⟩
    exact hshared.2.2
  | true =>
    have hpair := Sys.invariant (P := fun s => SpscValid K c p q s ∧ LenInv K c s) hrun
      ⟨.init slots, .init slots⟩ fun s l s' hs h hok hstep => by
        have huse : l.Spsc c p q ∧ s.StoresOk c l := by
          have huse := hok.2
          rwa [Sys.LenUse, if_pos hspsc] at huse
        have h' := h.1.step hspsc huse.1 hstep
        exact ⟨h', h.2.step hs (h.1.counts h' hok.1 huse.2 hstep) hstep⟩
    exact hpair.2.2

omit [DecidableEq T] in
/-- The conditions look the same through the view of the stack. -/
theorem StackSys.lenOk_iff (r : StackSys T C α) (l : Label T C α) :
    r.seen.LenOk c l ∧ r.seen.LenUse K c p q l ↔ r.sys.LenOk c l ∧ r.sys.LenUse K c p q l := by
  cases l <;> exact Iff.rfl

/-- Runs in which no consumer of `c` takes an element that was committed after the first load of a
`chan_len` in progress, without laps if `c` is an ordinary channel, and on an SPSC channel without a push
that commits between the two stores of a pop: every `chan_len` on `c` returns at most the capacity of the
ring. -/
theorem len_le_capacity (K : Config T C) (slots : C → U32 → α) (c : C) (p q : T) (r : StackSys T C α)
    (hrun : Reaches (StackSys.step K) (fun r l => (r.seen.LenOk c l.label ∧
      r.seen.LenUse K c p q l.label) ∧ r.ReuseOk l) (StackSys.init slots) r)
    (t : T) (id n : Nat) (hth : r.seen.thread t = .direct id c .len (.ret (.count n))) :
    n ≤ (K.chan c).ringCap.size := by
  obtain ⟨hsys, -⟩ := StackSys.reaches_sys (fun s l => s.LenOk c l ∧ s.LenUse K c p q l) (.init slots)
    (fun r l _ h => ⟨h.2, (StackSys.lenOk_iff r l.label).1 h.1⟩) hrun
  have hcounted := ((LenInv.of_reaches slots hsys).knows t).counted n
  refine hcounted ?_
  rw [show r.sys.thread t = _ from hth]
  exact if_pos rfl

end Run

/-- Two runs on channels of capacity one. On the ordinary one a `chan_len` overlaps with a send and reports
the element that was there before. On the SPSC channel it overlaps with a pop that has stored its tail and
not its head, while the next push has found the slot free and not yet committed. -/
theorem len_le_capacity_overlap :
    (∃ r : StackSys (Fin 3) Unit Nat, Reaches (StackSys.step bufferedOne) (fun r l =>
        (r.seen.LenOk () l.label ∧ r.seen.LenUse bufferedOne () 0 1 l.label) ∧ r.ReuseOk l)
        (StackSys.init fun _ _ => 0) r ∧
      r.seen.thread 2 = .direct 1 () .len (.ret (.count 1)) ∧ 1 ≤ (bufferedOne.chan ()).ringCap.size) ∧
    ∃ r : StackSys (Fin 3) Unit Nat, Reaches (StackSys.step spscOne) (fun r l =>
        (r.seen.LenOk () l.label ∧ r.seen.LenUse spscOne () 0 1 l.label) ∧ r.ReuseOk l)
        (StackSys.init fun _ _ => 0) r ∧
      r.seen.thread 2 = .direct 3 () .len (.ret (.count 1)) ∧
      (r.seen.mem.chan ()).hist.reserved .recv = 1 ∧ 1 ≤ (spscOne.chan ()).ringCap.size := by
  constructor
  · obtain ⟨r, hrun, hth⟩ : ∃ r : StackSys (Fin 3) Unit Nat, Reaches (StackSys.step bufferedOne) (fun r l =>
        (r.seen.LenOk () l.label ∧ r.seen.LenUse bufferedOne () 0 1 l.label) ∧ r.ReuseOk l)
        (StackSys.init fun _ _ => 0) r ∧ r.seen.thread 2 = .direct 1 () .len (.ret (.count 1)) :=
      StackSys.exists_reaches bufferedOne (fun _ _ => (0 : Nat)) _ (List.flatten [
        [.call 0 (.direct () (.send 7 0)) 0], List.replicate 11 (.go 0 false),
        [.call 2 (.direct () .len) 1, .go 2 false],
        [.call 0 (.direct () (.send 8 0)) 0, .go 0 false, .go 2 false]]) _ (by decide +kernel)
    exact ⟨r, hrun, hth, len_le_capacity bufferedOne _ () 0 1 r hrun 2 1 1 hth⟩
  · obtain ⟨r, hrun, hth, htaken⟩ : ∃ r : StackSys (Fin 3) Unit Nat, Reaches (StackSys.step spscOne)
        (fun r l => (r.seen.LenOk () l.label ∧ r.seen.LenUse spscOne () 0 1 l.label) ∧ r.ReuseOk l)
        (StackSys.init fun _ _ => 0) r ∧ r.seen.thread 2 = .direct 3 () .len (.ret (.count 1)) ∧
        (r.seen.mem.chan ()).hist.reserved .recv = 1 :=
      StackSys.exists_reaches spscOne (fun _ _ => (0 : Nat)) _ (List.flatten [
        [.call 0 (.direct () (.send 7 0)) 0], List.replicate 7 (.go 0 false),
        [.call 1 (.direct () (.recv 0)) 1], List.replicate 4 (.go 1 false),
        [.call 0 (.direct () (.send 8 0)) 0], List.replicate 4 (.go 0 false),
        [.call 2 (.direct () .len) 2, .go 2 false, .go 2 false]]) _ (by decide +kernel)
    exact ⟨r, hrun, hth, htaken, len_le_capacity spscOne _ () 0 1 r hrun 2 3 1 hth⟩

/-- On an ordinary channel of capacity one, an element is sent and received between the two loads of a
`chan_len`, which then returns `2 ^ 32 - 1`. On an SPSC channel of capacity one, a receive has stored its
tail and not yet its head when the next element is sent, and a `chan_len` returns two. -/
theorem len_exceeds_capacity :
    (∃ s : Sys (Fin 3) Unit Nat, Reaches (Sys.step bufferedOne) Always (Sys.init fun _ _ => 0) s ∧
      (bufferedOne.chan ()).ringCap.size = 1 ∧
      s.thread 0 = .direct 0 () .len (.ret (.count (2 ^ 32 - 1)))) ∧
    ∃ s : Sys (Fin 3) Unit Nat, Reaches (Sys.step spscOne) Always (Sys.init fun _ _ => 0) s ∧
      (spscOne.chan ()).ringCap.size = 1 ∧ s.thread 0 = .direct 3 () .len (.ret (.count 2)) := by
  constructor
  · obtain ⟨s, hs, hth⟩ := Sys.exists_reaches bufferedOne (fun _ _ => (0 : Nat)) Always
      (List.flatten [
        [.call 0 (.direct () .len), .go 0 false],
        [.call 1 (.direct () (.send 7 0))], List.replicate 11 (.go 1 false),
        [.call 2 (.direct () (.recv 0))], List.replicate 10 (.go 2 false), [.go 0 false]])
      (fun s => s.thread 0 = .direct 0 () .len (.ret (.count (2 ^ 32 - 1)))) (by decide +kernel)
    exact ⟨s, hs, by decide, hth⟩
  · obtain ⟨s, hs, hth⟩ := Sys.exists_reaches spscOne (fun _ _ => (0 : Nat)) Always
      (List.flatten [
        [.call 1 (.direct () (.send 7 0))], List.replicate 7 (.go 1 false),
        [.call 2 (.direct () (.recv 0))], List.replicate 4 (.go 2 false),
        [.call 1 (.direct () (.send 8 0))], List.replicate 6 (.go 1 false),
        [.call 0 (.direct () .len), .go 0 false, .go 0 false]])
      (fun s => s.thread 0 = .direct 3 () .len (.ret (.count 2))) (by decide +kernel)
    exact ⟨s, hs, by decide, hth⟩

end LibChan
