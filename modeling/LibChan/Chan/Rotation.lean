import LibChan.Chan.Truth

/-!
# The round-robin start of select

Step 2 of `chan_select_fast` starts at case `rr % n` of a list of `n` cases, where `rr` counts the
selects of the thread over all lists. When every case of a list `L` can be executed without a lock,
each call on `L` chooses the case it starts at. So `n` consecutive calls on `L` choose every case, unless
the number of selects of the thread from one of them to another is a multiple of `n` (`select_rotates`;
`TurnSys` counts the selects). Selects on other lists move the same counter: with a second list in
alternation, a list of two cases starts at the same case every time (`select_stuck`).
-/

set_option autoImplicit false

namespace LibChan

variable {T C α : Type}

/-! ## Counts that differ modulo `n` -/

/-- Any two of `n` consecutive entries differ modulo `n`. -/
def Spread (n : Nat) (xs : List Nat) : Prop :=
  ∀ i j x y, i < j → j < i + n → xs[i]? = some x → xs[j]? = some y → x % n ≠ y % n

/-- An entry that differs from the last `n - 1` ones. -/
theorem Spread.append {n x : Nat} {xs : List Nat} (h : Spread n xs)
    (hx : ∀ y ∈ xs.drop (xs.length + 1 - n), y % n ≠ x % n) : Spread n (xs ++ [x]) := by
  intro i j a b hij hjn ha hb
  have hj : j < xs.length + 1 := by
    have hlen := (List.getElem?_eq_some_iff.1 hb).1
    rwa [List.length_append, List.length_singleton] at hlen
  have hi : i < xs.length := by omega
  rw [List.getElem?_append_left hi] at ha
  rcases Nat.lt_or_ge j xs.length with hlt | hge
  · rw [List.getElem?_append_left hlt] at hb
    exact h i j a b hij hjn ha hb
  · obtain rfl : j = xs.length := by omega
    rw [List.getElem?_append_right (Nat.le_refl _), Nat.sub_self, List.getElem?_cons_zero] at hb
    cases hb
    refine hx a (List.mem_of_getElem? (i := i - (xs.length + 1 - n)) ?_)
    rw [List.getElem?_drop, Nat.add_sub_cancel' (by omega), ha]

/-- Any `n` consecutive entries have all remainders: they are `n` different ones. -/
theorem Spread.exists_mem {n k i : Nat} {xs : List Nat} (h : Spread n xs) (hk : k + n ≤ xs.length)
    (hi : i < n) : ∃ x ∈ (xs.drop k).take n, x % n = i := by
  have hpos : 0 < n := Nat.zero_lt_of_lt hi
  have hget : ∀ j : Fin n, ∃ x, xs[k + j]? = some x := fun j =>
    ⟨_, List.getElem?_eq_getElem (by omega)⟩
  choose f hf using hget
  have hinj : Function.Injective fun j : Fin n => (⟨f j % n, Nat.mod_lt _ hpos⟩ : Fin n) := by
    intro a b hab
    have heq : f a % n = f b % n := congrArg Fin.val hab
    by_contra hne
    rcases Nat.lt_or_gt_of_ne (fun hval => hne (Fin.ext hval)) with hlt | hgt
    · exact h (k + a) (k + b) _ _ (by omega) (by omega) (hf a) (hf b) heq
    · exact h (k + b) (k + a) _ _ (by omega) (by omega) (hf b) (hf a) heq.symm
  obtain ⟨j, hj⟩ := Finite.surjective_of_injective hinj ⟨i, hi⟩
  refine ⟨f j, List.mem_of_getElem? (i := j) ?_, congrArg Fin.val hj⟩
  rw [List.getElem?_take_of_lt j.isLt, List.getElem?_drop, hf j]

/-! ## The winners on a list -/

section Winners

variable [DecidableEq T] [DecidableEq C] [DecidableEq α]

/-- The winner that a return of thread `t` reports, if its call was a `chan_select_try` on `L`. -/
def Event.winner? (t : T) (L : List (Case C α)) (es : List (Event T C α)) :
    Event T C α → Option (Option Nat)
  | .ret id u (.sel w _) _ => if u = t ∧ .call id t (.select L 0) ∈ es then some w else none
  | _ => none

/-- The winners of the `chan_select_try` calls of thread `t` on `L`, in the order they returned. -/
def Sys.winners (s : Sys T C α) (t : T) (L : List (Case C α)) : List (Option Nat) :=
  s.events.filterMap (Event.winner? t L s.events)

/-- The place of a thread in a `chan_select_try` on `L`. -/
def Thread.selects? (L : List (Case C α)) : Thread C α → Option (SelPc C α)
  | .select _ cases timeout pc => if cases = L ∧ timeout = 0 then some pc else none
  | _ => none

/-- The case that the next access is about can be executed without a lock: its channel is open, nobody
waits there, and the ring operation does not fail. -/
def SelPc.lockFree (K : Config T C) (m : Mem T C α) (L : List (Case C α)) : SelPc C α → Bool
  | .fast1 i .closed => (L[i]?).all fun k => !(m.chan k.chan).closed
  | .fast2 start j (.cnt o) =>
    (L[index2 L start j]?).all fun k => decide ((m.chan k.chan).cnt o = 0)
  | .fast2 start j .closed => (L[index2 L start j]?).all fun k => !(m.chan k.chan).closed
  | .fast2 start j (.ring p) => (L[index2 L start j]?).all fun k =>
      !p.fails (K.chan k.chan).ringCap (m.chan k.chan).ring
  | _ => true

/-- Thread `t` finds the cases of `L` executable without a lock. -/
def Sys.LockFreeOk (K : Config T C) (t : T) (L : List (Case C α)) (s : Sys T C α) :
    Label T C α → Prop
  | .go u _ => u = t → ∀ pc ∈ (s.thread t).selects? L, pc.lockFree K s.mem L = true
  | .call _ _ => True

instance (K : Config T C) (t : T) (L : List (Case C α)) (s : Sys T C α) :
    DecidablePred (s.LockFreeOk K t L)
  | .go u _ => inferInstanceAs (Decidable (u = t → ∀ pc ∈ (s.thread t).selects? L, _ = true))
  | .call _ _ => .isTrue trivial

/-- The thread starts step 2 of a select in its next step. -/
def Thread.atTurn : Thread C α → Bool
  | .select _ _ _ .fast2Start => true
  | _ => false

/-- The system, how many selects of a thread have started step 2, and how many had when those on a list did
so. -/
structure TurnSys (T C α : Type) where
  sys : Sys T C α
  count : Nat
  turns : List Nat

namespace TurnSys

/-- No calls yet. -/
def init (slots : C → U32 → α) : TurnSys T C α := ⟨Sys.init slots, 0, []⟩

/-- The count of the thread that moves, if it starts step 2 of a `chan_select_try` on `L`. -/
def turn? (t : T) (L : List (Case C α)) (r : TurnSys T C α) (l : Label T C α) : Option Nat :=
  if l.who = t ∧ (r.sys.thread t).selects? L = some .fast2Start then some r.count else none

/-- The counts after a step of the system to `s'`. -/
def after (t : T) (L : List (Case C α)) (r : TurnSys T C α) (l : Label T C α) (s' : Sys T C α) :
    TurnSys T C α where
  sys := s'
  count := if l.who = t ∧ (r.sys.thread t).atTurn = true then r.count + 1 else r.count
  turns := r.turns ++ (r.turn? t L l).toList

/-- One step of the system. -/
def step (K : Config T C) (t : T) (L : List (Case C α)) (r : TurnSys T C α) (l : Label T C α) :
    Option (TurnSys T C α) :=
  (r.sys.step K l).map (r.after t L l)

/-- When thread `t` starts step 2 of a call on `L`, the number of its selects that have done so since one of
the last `L.length - 1` calls on `L`, that one included, is not a multiple of `L.length`. The counter has
not wrapped. -/
def TurnOk (t : T) (L : List (Case C α)) (r : TurnSys T C α) (l : Label T C α) : Prop :=
  ∀ n ∈ r.turn? t L l, n < 2 ^ 64 ∧
    ∀ m ∈ r.turns.drop (r.turns.length + 1 - L.length), ¬ L.length ∣ n - m

instance (t : T) (L : List (Case C α)) (r : TurnSys T C α) : DecidablePred (r.TurnOk t L) := fun l =>
  inferInstanceAs (Decidable (∀ n ∈ r.turn? t L l, n < 2 ^ 64 ∧
    ∀ m ∈ r.turns.drop (r.turns.length + 1 - L.length), ¬ L.length ∣ n - m))

end TurnSys

variable {K : Config T C} {s s' : Sys T C α} {t : T} {L : List (Case C α)}

/-- A new call does not change the winners. -/
theorem Sys.winners_startCall (hs : HistInv s) (u : T) (k : Call C α) :
    (s.startCall K u k).winners t L = s.winners t L := by
  show (s.events ++ [Event.call s.next u k]).filterMap _ = _
  rw [List.filterMap_append]
  have hnone : [Event.call s.next u k].filterMap
      (Event.winner? t L (s.startCall K u k).events) = [] := rfl
  refine (congrArg (_ ++ ·) hnone).trans ?_
  rw [List.append_nil]
  refine List.filterMap_congr fun ev hev => ?_
  cases ev with
  | call id u' k' => rfl
  | ret id u' r out =>
    cases r with
    | err e => rfl
    | count n => rfl
    | sel w e =>
      -- the call of an earlier return is not the new one
      have hne : id ≠ s.next := (hs.ret_lt id u' _ out hev).ne
      have hmem : Event.call id t (.select L 0) ∈ (s.startCall K u k).events ↔
          Event.call id t (.select L 0) ∈ s.events := by
        rw [Sys.mem_events_startCall]
        refine or_iff_left fun heq => ?_
        cases heq
        exact hne rfl
      simp only [Event.winner?, hmem]

/-- A return adds at most the winner it reports. -/
theorem Sys.winners_finishCall (u : T) (id : Nat) (r : Ret) (out : List (Option α)) :
    (s.finishCall u id r out).winners t L =
      s.winners t L ++ (Event.winner? t L s.events (.ret id u r out)).toList := by
  have hmem : ∀ ev : Event T C α, Event.winner? t L (s.finishCall u id r out).events ev =
      Event.winner? t L s.events ev := by
    intro ev
    cases ev with
    | call id' u' k' => rfl
    | ret id' u' r' out' =>
      cases r' with
      | err e => rfl
      | count n => rfl
      | sel w e =>
        have hiff : Event.call id' t (.select L 0) ∈ (s.finishCall u id r out).events ↔
            Event.call id' t (.select L 0) ∈ s.events := by
          rw [Sys.mem_events_finishCall]
          exact or_iff_left fun heq => by cases heq
        simp only [Event.winner?, hiff]
  show (s.events ++ [Event.ret id u r out]).filterMap _ = _
  rw [List.filterMap_append]
  refine congrArg₂ (· ++ ·) (List.filterMap_congr fun ev _ => hmem ev) ?_
  rw [List.filterMap_cons, hmem]
  cases Event.winner? t L s.events (.ret id u r out) <;> rfl

end Winners

/-! ## One call -/

/-- The places of a call whose first try succeeds, with what is known before it has started step 2 and, after
that, of the case it starts at. -/
def SelPc.Direct (before : Prop) (next : Nat → Prop) : SelPc C α → Prop
  | .fast1 _ st => st = .closed ∧ before
  | .fast2Start => before
  | .fast2 start j _ => j = 0 ∧ next start
  | .ret (.sel w _) => ∃ start, w = some start ∧ next start
  | _ => False

section Places

variable [DecidableEq C] {K : Config T C} {m : Mem T C α} {t : T} {L : List (Case C α)} {id : Nat}
  {before : Prop} {next : Nat → Prop} {pc pc' : SelPc C α} {alt : Bool} {c d : C} {e : Effect α}

omit [DecidableEq C] in
theorem SelPc.Step1.direct (h : SelPc.Step1 L pc) (hbefore : before) : pc.Direct before next := by
  cases h with
  | found hk hop => exact ⟨rfl, hbefore⟩
  | ended => exact hbefore

omit [DecidableEq C] in
theorem SelPc.Direct.known (h : pc.Direct before next) : before ∨ ∃ start, next start := by
  cases pc with
  | fast1 i st => exact .inl h.2
  | fast2Start => exact .inl h
  | fast2 start j st => exact .inr ⟨start, h.2⟩
  | ret r =>
    cases r with
    | sel w e =>
      obtain ⟨start, -, hnext⟩ := h
      exact .inr ⟨start, hnext⟩
    | _ => exact h.elim
  | _ => exact h.elim

/-- The first iteration of step 2 is on a buffered channel. -/
theorem SelPc.scan2_zero (hbuf : ∀ k ∈ L, 0 < (K.chan k.chan).capacity) {start : Nat}
    (hlt : start < L.length) : SelPc.scan2 K L start 0 = .fast2 start 0 (.cnt .send) := by
  obtain ⟨n, hn⟩ : ∃ n, L.length = n + 1 := ⟨L.length - 1, by omega⟩
  have hindex : index2 L start 0 < L.length := Nat.mod_lt _ (by omega)
  have hfirst : ((L[index2 L start 0]?).map fun k =>
      decide (0 < (K.chan k.chan).capacity)).getD false = true := by
    rw [List.getElem?_eq_getElem hindex]
    exact decide_eq_true (hbuf _ (List.getElem_mem hindex))
  rw [scan2, Nat.sub_zero, hn, List.range_succ_eq_map, List.find?_cons_of_pos]
  exact hfirst

/-- The start of step 2. -/
theorem SelPc.direct_of_start (hpos : 0 < L.length) (hbuf : ∀ k ∈ L, 0 < (K.chan k.chan).capacity)
    (hnext : next ((m.tls t).rr % L.length))
    (hact : SelPc.fast2Start.act K m t id L 0 alt d = some (c, e, pc')) : pc'.Direct before next := by
  cases hact
  rw [SelPc.scan2_zero hbuf (Nat.mod_lt _ hpos)]
  exact ⟨rfl, hnext⟩

/-- Another step of such a call. -/
theorem SelPc.Direct.act (h : pc.Direct before next) (hpc : pc ≠ .fast2Start) (hok : pc.Ok K id L)
    (hfree : pc.lockFree K m L = true) (hlt : ∀ start, next start → start < L.length)
    (hact : pc.act K m t id L 0 alt d = some (c, e, pc')) : pc'.Direct before next := by
  cases pc with
  | fast1 i st =>
    obtain ⟨rfl, hbefore⟩ := h
    obtain ⟨k, hk, heq⟩ := Option.map_eq_some_iff.1 hact
    rw [lockFree, hk, Option.all_some, Bool.not_eq_true'] at hfree
    simp only [actFast1, hfree, Bool.false_eq_true, if_false] at heq
    cases heq
    exact (SelPc.step1_scan1 (i + 1)).direct hbefore
  | fast2Start => exact absurd rfl hpc
  | fast2 start j st =>
    obtain ⟨rfl, hnext⟩ := h
    obtain ⟨k, hk, heq⟩ := Option.map_eq_some_iff.1 hact
    have hindex : index2 L start 0 = start := Nat.mod_eq_of_lt (hlt start hnext)
    cases st with
    | cnt o =>
      rw [lockFree, hk, Option.all_some, decide_eq_true_eq] at hfree
      cases o with
      | send =>
        simp only [actFast2, hfree, ne_eq, not_true, if_false] at heq
        cases heq
        exact ⟨rfl, hnext⟩
      | recv =>
        simp only [actFast2, hfree, ne_eq, not_true, if_false] at heq
        cases hop : k.op with
        | send =>
          rw [hop] at heq
          cases heq
          exact ⟨rfl, hnext⟩
        | recv =>
          rw [hop] at heq
          cases heq
          exact ⟨rfl, hnext⟩
    | closed =>
      rw [lockFree, hk, Option.all_some, Bool.not_eq_true'] at hfree
      simp only [actFast2, hfree, Bool.false_eq_true, if_false] at heq
      cases heq
      exact ⟨rfl, hnext⟩
    | ring p =>
      rw [lockFree, hk, Option.all_some] at hfree
      simp only [actFast2, ringNext] at heq
      cases hp : ((m.chan k.chan).ring.step (K.chan k.chan).ringCap alt p).2 with
      | inl p' =>
        rw [hp] at heq
        cases heq
        exact ⟨rfl, hnext⟩
      | inr res =>
        obtain ⟨k', -, -, hruns⟩ := hok
        have hmoved := RingPc.moved_of_not_fails (hruns p rfl).2 hp hfree
        rw [hp] at heq
        simp only [hmoved, if_false] at heq
        cases heq
        exact ⟨start, congrArg some hindex, hnext⟩
  | ret r => cases hact
  | _ => exact h.elim

end Places

/-! ## The counter -/

section Counter

variable [DecidableEq T] [DecidableEq C] {K : Config T C} {s s' : Sys T C α} {l : Label T C α} {t : T}

omit [DecidableEq T] [DecidableEq C] in
theorem Pc.act_ne_bumpRr {m : Mem T C α} {id : Nat} {c : C} {op : Op α} {alt : Bool} {pc pc' : Pc α}
    {e : Effect α} (h : pc.act K m id c op alt = some (e, pc')) : e ≠ .bumpRr := by
  rintro rfl
  cases Pc.flow_of_act h

omit [DecidableEq T] in
/-- A select moves the counter when it starts step 2. -/
theorem SelPc.bumpRr_iff {m : Mem T C α} {id : Nat} {c d : C} {cases : List (Case C α)} {timeout : Int}
    {alt : Bool} {pc pc' : SelPc C α} {e : Effect α}
    (h : pc.act K m t id cases timeout alt d = some (c, e, pc')) : e = .bumpRr ↔ pc = .fast2Start := by
  constructor
  · rintro rfl
    cases SelPc.flow_of_act h with
    | fast2Start => rfl
    | pick hk hmem he => rcases he with he | ⟨v, he⟩ <;> cases he
    | execGo hk hexec => cases hexec
    | execDone hk hexec => cases hexec
  · rintro rfl
    cases h
    rfl

omit [DecidableEq T] in
theorem Sys.Acts.bumpRr_iff {alt : Bool} {c : C} {e : Effect α} {th : Thread C α}
    (h : s.Acts K t alt c e th) : e = .bumpRr ↔ (s.thread t).atTurn = true := by
  cases h with
  | direct hth hact =>
    rw [hth]
    exact iff_of_false (Pc.act_ne_bumpRr hact) Bool.false_ne_true
  | @select id cases timeout pc _ _ _ _ hth hact =>
    rw [SelPc.bumpRr_iff hact, hth]
    constructor
    · rintro rfl
      rfl
    · intro hturn
      cases pc with
      | fast2Start => rfl
      | _ => cases hturn

/-- The counter of a thread counts its selects that start step 2. -/
theorem Sys.Stepped.rr_eq (hstep : s.Stepped K l s') (t : T) :
    (s'.mem.tls t).rr = if l.who = t ∧ (s.thread t).atTurn = true then ((s.mem.tls t).rr + 1) % 2 ^ 64
      else (s.mem.tls t).rr := by
  cases hstep with
  | @call u k hidle =>
    rw [if_neg]
    · cases k <;> rfl
    · rintro ⟨hu, hturn⟩
      obtain rfl : u = t := hu
      rw [hidle] at hturn
      cases hturn
  | @ret u alt id r out hdone hret =>
    rw [if_neg]
    · rfl
    · rintro ⟨hu, hturn⟩
      obtain rfl : u = t := hu
      cases hret with
      | direct hth =>
        rw [hth] at hturn
        cases hturn
      | select hth =>
        rw [hth] at hturn
        cases hturn
  | @move u alt c e th hnext hacts =>
    show (s.mem.applyTls u e t).rr = _
    by_cases hu : u = t
    · subst hu
      by_cases he : e = .bumpRr
      · rw [if_pos ⟨rfl, hacts.bumpRr_iff.1 he⟩, he, Mem.applyTls, Function.update_self]
      · rw [if_neg fun h => he (hacts.bumpRr_iff.2 h.2)]
        cases e with
        | bumpRr => exact absurd rfl he
        | setRng v => rw [Mem.applyTls, Function.update_self]
        | _ => rfl
    · rw [if_neg fun h => hu h.1]
      cases e with
      | bumpRr => rw [Mem.applyTls, Function.update_of_ne (Ne.symm hu)]
      | setRng v => rw [Mem.applyTls, Function.update_of_ne (Ne.symm hu)]
      | _ => rfl

end Counter

/-! ## Runs -/

section Run

variable [DecidableEq T] [DecidableEq C] [DecidableEq α] {K : Config T C} {s s' : Sys T C α}
  {l : Label T C α} {t : T} {L : List (Case C α)}

/-- The cases at which the calls on `L` have started. -/
def TurnSys.starts (L : List (Case C α)) (r : TurnSys T C α) : List (Option Nat) :=
  r.turns.map fun n => some (n % L.length)

/-- The counter of the thread counts its selects, the calls on `L` have started at different cases, and
those that have returned have chosen the case they started at. -/
structure Rotates (t : T) (L : List (Case C α)) (r : TurnSys T C α) : Prop where
  rr : (r.sys.mem.tls t).rr = r.count % 2 ^ 64
  old : ∀ n ∈ r.turns, n ≤ r.count
  spread : Spread L.length r.turns
  place : ∀ pc ∈ (r.sys.thread t).selects? L, pc.Direct (r.starts L = r.sys.winners t L)
    fun start => r.starts L = r.sys.winners t L ++ [some start]
  idle : (r.sys.thread t).selects? L = none → r.starts L = r.sys.winners t L

omit [DecidableEq T] in
theorem Thread.eq_select_of_selects {th : Thread C α} {pc : SelPc C α}
    (h : pc ∈ th.selects? L) : ∃ id, th = .select id L 0 pc := by
  cases th with
  | select id cases timeout pc' =>
    obtain ⟨⟨rfl, rfl⟩, heq⟩ := Option.ite_none_right_eq_some.1 h
    cases heq
    exact ⟨id, rfl⟩
  | _ => cases h

/-- A thread that is not in a call on `L` returns no winner on `L`. -/
theorem TurnSys.winner_none (hs : Sound K s) {id : Nat} {r : Ret} {out : List (Option α)}
    (hret : s.Returns t id r out) (hnot : (s.thread t).selects? L = none) :
    Event.winner? t L s.events (.ret id t r out) = none := by
  cases r with
  | err e => rfl
  | count n => rfl
  | sel w e =>
    rw [Event.winner?, if_neg]
    rintro ⟨-, hcall⟩
    cases hret with
    | direct hth =>
      have hrunning := hs.hist.running t _ _ (by rw [hth]; rfl)
      cases (hs.hist.call_inj _ _ _ _ _ hcall hrunning).2
    | select hth =>
      have hrunning := hs.hist.running t _ _ (by rw [hth]; rfl)
      cases (hs.hist.call_inj _ _ _ _ _ hcall hrunning).2
      rw [hth, Thread.selects?, if_pos ⟨rfl, rfl⟩] at hnot
      cases hnot

/-! ## The calls on the list -/

section Turns

variable {r : TurnSys T C α}

theorem TurnSys.turn?_eq {n : Nat} (h : n ∈ r.turn? t L l) :
    l.who = t ∧ (r.sys.thread t).selects? L = some .fast2Start ∧ n = r.count := by
  obtain ⟨⟨hwho, hsel⟩, heq⟩ := Option.ite_none_right_eq_some.1 h
  exact ⟨hwho, hsel, (Option.some.inj heq).symm⟩

/-- The counts at the calls on `L` stay different. -/
theorem Rotates.spread_step (h : Rotates t L r) (hok : r.TurnOk t L l) :
    Spread L.length (r.turns ++ (r.turn? t L l).toList) := by
  cases hturn : r.turn? t L l with
  | none =>
    rw [Option.toList_none, List.append_nil]
    exact h.spread
  | some n =>
    obtain ⟨-, -, rfl⟩ := TurnSys.turn?_eq hturn
    refine h.spread.append fun m hm heq => (hok _ hturn).2 m hm ?_
    exact (Nat.modEq_iff_dvd' (h.old m (List.mem_of_mem_drop hm))).1 heq

theorem Rotates.old_step (h : Rotates t L r) :
    ∀ n ∈ r.turns ++ (r.turn? t L l).toList,
      n ≤ if l.who = t ∧ (r.sys.thread t).atTurn = true then r.count + 1 else r.count := by
  intro n hn
  have hle : n ≤ r.count := by
    rcases List.mem_append.1 hn with hn | hn
    · exact h.old n hn
    · obtain ⟨-, -, rfl⟩ := TurnSys.turn?_eq (Option.mem_toList.1 hn)
      exact Nat.le_refl _
  split <;> omega

theorem Rotates.rr_step (h : Rotates t L r) (hstep : r.sys.Stepped K l s') :
    (s'.mem.tls t).rr =
      (if l.who = t ∧ (r.sys.thread t).atTurn = true then r.count + 1 else r.count) % 2 ^ 64 := by
  rw [hstep.rr_eq t, h.rr]
  split
  · exact Nat.mod_add_mod _ _ _
  · rfl

/-- A step that is not the start of a call on `L` leaves the starts as they are. -/
theorem TurnSys.starts_after (h : l.who = t → (r.sys.thread t).selects? L ≠ some .fast2Start) :
    (r.after t L l s').starts L = r.starts L := by
  have hnone : r.turn? t L l = none := if_neg fun hturn => h hturn.1 hturn.2
  rw [TurnSys.starts, TurnSys.after, hnone, Option.toList_none, List.append_nil]
  rfl

/-- Where thread `t` is in a call on `L` after a step, and what it has chosen. -/
theorem Rotates.place_step (h : Rotates t L r) (hs : Sound K r.sys) (hne : L ≠ [])
    (hbuf : ∀ k ∈ L, 0 < (K.chan k.chan).capacity) (hfree : r.sys.LockFreeOk K t L l)
    (hok : r.TurnOk t L l) (hstep : r.sys.Stepped K l s') :
    (∀ pc ∈ (s'.thread t).selects? L, pc.Direct ((r.after t L l s').starts L = s'.winners t L)
      fun start => (r.after t L l s').starts L = s'.winners t L ++ [some start]) ∧
    ((s'.thread t).selects? L = none → (r.after t L l s').starts L = s'.winners t L) := by
  have hpos : 0 < L.length := List.length_pos_iff.2 hne
  cases hstep with
  | @call u k hidle =>
    have hwin : (r.sys.startCall K u k).winners t L = r.sys.winners t L :=
      Sys.winners_startCall hs.hist u k
    have hnot : ∀ {p}, u = t → (r.sys.thread t).selects? L ≠ some p := by
      rintro p rfl hsel
      rw [show r.sys.thread u = .idle from hidle] at hsel
      cases hsel
    rw [hwin, TurnSys.starts_after (l := .call u k) fun hu => hnot hu]
    by_cases ht : t = u
    · subst ht
      have hstarts := h.idle (Option.eq_none_iff_forall_ne_some.2 fun p => hnot rfl)
      refine ⟨fun pc hpc => ?_, fun _ => hstarts⟩
      rw [Sys.thread_startCall_self] at hpc
      obtain ⟨id, hth⟩ := Thread.eq_select_of_selects hpc
      cases k with
      | direct c op => cases hth
      | select cases timeout =>
        cases hth
        rw [SelPc.entry, if_neg hpos.ne']
        exact (SelPc.step1_scan1 0).direct hstarts
    · rw [Sys.thread_startCall_of_ne ht]
      exact ⟨h.place, h.idle⟩
  | @ret u alt id x out hdone hret =>
    have hwin := Sys.winners_finishCall (s := r.sys) (t := t) (L := L) u id x out
    rw [TurnSys.starts_after]
    swap
    · rintro rfl hsel
      obtain ⟨id', hth⟩ := Thread.eq_select_of_selects hsel
      cases hret with
      | direct hth' => cases hth.symm.trans hth'
      | select hth' => cases hth.symm.trans hth'
    by_cases ht : t = u
    · subst ht
      rw [Sys.thread_finishCall_self]
      refine ⟨fun pc hpc => (by cases hpc), fun _ => ?_⟩
      cases hsel : (r.sys.thread t).selects? L with
      | none =>
        rw [hwin, TurnSys.winner_none hs hret hsel, Option.toList_none, List.append_nil]
        exact h.idle hsel
      | some pc =>
        obtain ⟨id', hth⟩ := Thread.eq_select_of_selects hsel
        have hplace := h.place pc hsel
        cases hret with
        | direct hth' => cases hth.symm.trans hth'
        | select hth' =>
          cases hth.symm.trans hth'
          cases x with
          | err e => exact hplace.elim
          | count n => exact hplace.elim
          | sel w e =>
            obtain ⟨start, rfl, hstarts⟩ := hplace
            have hcall := hs.hist.running t _ _ (by rw [hth]; rfl)
            rw [hwin, Event.winner?, if_pos ⟨rfl, hcall⟩, Option.toList_some]
            exact hstarts
    · have hnone : Event.winner? t L r.sys.events (.ret id u x out) = none := by
        cases x with
        | sel w e => exact if_neg fun hu => ht hu.1.symm
        | _ => rfl
      rw [hnone, Option.toList_none, List.append_nil] at hwin
      rw [hwin, Sys.thread_finishCall_of_ne ht]
      exact ⟨h.place, h.idle⟩
  | @move u alt c e th hnext hacts =>
    rw [show (r.sys.move K u c e th).winners t L = r.sys.winners t L from rfl]
    by_cases ht : t = u
    swap
    · rw [Sys.thread_move_of_ne ht, TurnSys.starts_after fun hu => absurd hu.symm ht]
      exact ⟨h.place, h.idle⟩
    subst ht
    rw [Sys.thread_move_self]
    cases hacts with
    | direct hth hact =>
      have hnone : (r.sys.thread t).selects? L = none := by rw [hth]; rfl
      rw [TurnSys.starts_after fun _ hsel => by cases hnone.symm.trans hsel]
      exact ⟨fun pc hpc => (by cases hpc), fun _ => h.idle hnone⟩
    | @select id cases timeout pc₀ _ _ d pc' hth hact =>
      by_cases hL : cases = L ∧ timeout = 0
      swap
      · have hnone : ∀ pc, (Thread.select id cases timeout pc).selects? L = none := fun pc => if_neg hL
        have hold : (r.sys.thread t).selects? L = none := by rw [hth]; exact hnone pc₀
        rw [TurnSys.starts_after (fun _ hsel => by cases hold.symm.trans hsel), hnone]
        exact ⟨fun pc hpc => (by cases hpc), fun _ => h.idle hold⟩
      obtain ⟨rfl, rfl⟩ := hL
      have hsome : ∀ pc, (Thread.select id cases 0 pc).selects? cases = some pc := fun pc =>
        if_pos ⟨rfl, rfl⟩
      have hsel : (r.sys.thread t).selects? cases = some pc₀ := by rw [hth]; exact hsome pc₀
      rw [hsome]
      refine ⟨fun pc hpc => ?_, fun hnone => by cases hnone⟩
      cases hpc
      have hplace := h.place pc₀ hsel
      by_cases hpc₀ : pc₀ = .fast2Start
      · -- the call gets its turn
        subst hpc₀
        have hturn : r.turn? t cases (.go t alt) = some r.count := if_pos ⟨rfl, hsel⟩
        have hrr : (r.sys.mem.tls t).rr = r.count :=
          h.rr.trans (Nat.mod_eq_of_lt (hok _ hturn).1)
        refine SelPc.direct_of_start hpos hbuf ?_ hact
        rw [TurnSys.starts, TurnSys.after, hturn, hrr, Option.toList_some, List.map_append]
        exact congrArg (· ++ _) hplace
      · rw [TurnSys.starts_after fun _ hstart => hpc₀ (Option.some.inj (hsel.symm.trans hstart))]
        refine hplace.act hpc₀ (hs.select_ok hth) (hfree rfl pc₀ hsel) (fun start hstart => ?_) hact
        have hmem : some start ∈ r.starts cases := by
          rw [hstart]
          exact List.mem_append_right _ (List.mem_singleton_self _)
        obtain ⟨n, -, hn⟩ := List.mem_map.1 hmem
        cases hn
        exact Nat.mod_lt _ hpos

theorem Rotates.step (h : Rotates t L r) (hs : Sound K r.sys) (hne : L ≠ [])
    (hbuf : ∀ k ∈ L, 0 < (K.chan k.chan).capacity) (hfree : r.sys.LockFreeOk K t L l)
    (hok : r.TurnOk t L l) (hstep : r.sys.Stepped K l s') :
    Rotates t L (r.after t L l s') where
  rr := h.rr_step hstep
  old := h.old_step
  spread := h.spread_step hok
  place := (h.place_step hs hne hbuf hfree hok hstep).1
  idle := (h.place_step hs hne hbuf hfree hok hstep).2

theorem Rotates.init (slots : C → U32 → α) : Rotates t L (TurnSys.init slots : TurnSys T C α) where
  rr := rfl
  old _ h := by cases h
  spread _ _ _ _ _ _ h := by cases h
  place _ h := by cases h
  idle _ := rfl

/-- What has been chosen is where the calls have started. -/
theorem Rotates.winners_prefix (h : Rotates t L r) : r.sys.winners t L <+: r.starts L := by
  cases hsel : (r.sys.thread t).selects? L with
  | none => rw [h.idle hsel]
  | some pc =>
    rcases (h.place pc hsel).known with heq | ⟨start, heq⟩
    · rw [heq]
    · rw [heq]
      exact List.prefix_append _ _

end Turns

/-- Thread `t` runs `chan_select_try` on `L` among other calls. The channels of `L` are buffered, every
case it looks at can be executed without a lock, and the number of its selects from one call on `L` to
another that is fewer than `L.length` calls on `L` later is not a multiple of `L.length`. Then any
`L.length` consecutive calls on `L` choose every case. -/
theorem select_rotates (K : Config T C) (slots : C → U32 → α) (t : T) (L : List (Case C α))
    (hbuf : ∀ k ∈ L, 0 < (K.chan k.chan).capacity) (r : TurnSys T C α)
    (hrun : Reaches (TurnSys.step K t L) (fun r l => r.sys.LockFreeOk K t L l ∧ r.TurnOk t L l)
      (TurnSys.init slots) r)
    (k : Nat) (hk : k + L.length ≤ (r.sys.winners t L).length) (i : Nat) (hi : i < L.length) :
    some i ∈ ((r.sys.winners t L).drop k).take L.length := by
  have hne : L ≠ [] := List.length_pos_iff.1 (Nat.zero_lt_of_lt hi)
  obtain ⟨-, hrot⟩ : Sound K r.sys ∧ Rotates t L r := by
    apply hrun.invariant (P := fun r => Sound K r.sys ∧ Rotates t L r)
    · exact ⟨.init slots, .init slots⟩
    · rintro r l r' ⟨hs, h⟩ ⟨hfree, hok⟩ hstep
      obtain ⟨s', hs', rfl⟩ := Option.map_eq_some_iff.1 hstep
      have hstep := Sys.step_cases hs.locks.wf hs'
      exact ⟨hs.step hstep, h.step hs hne hbuf hfree hok hstep⟩
  obtain ⟨rest, hrest⟩ := hrot.winners_prefix
  have hlen : (r.sys.winners t L).length ≤ r.turns.length := by
    have := congrArg List.length hrest
    rw [List.length_append, TurnSys.starts, List.length_map] at this
    omega
  obtain ⟨n, hn, rfl⟩ := hrot.spread.exists_mem (hk.trans hlen) hi
  have hmem : some (n % L.length) ∈ ((r.starts L).drop k).take L.length := by
    rw [TurnSys.starts, ← List.map_drop, ← List.map_take]
    exact List.mem_map_of_mem hn
  rwa [← hrest, List.drop_append_of_le_length (by omega), List.take_append_of_le_length
    (by rw [List.length_drop]; omega)] at hmem

end Run

/-- One thread and three channels with a buffer of four elements. -/
def bufferedThrice : Config Unit (Fin 3) where
  chan _ := ChanCfg.create 4
  addr c := c
  spinLimit := 0
  self _ := 1

/-- The labels of a call on `cases` by the only thread, up to its return. -/
def selectTry (cases : List (Case (Fin 3) Nat)) : List (Label Unit (Fin 3) Nat) :=
  .call () (.select cases 0) :: List.replicate 11 (.go () false)

/-- Two sends on different channels. -/
def twoSends : List (Case (Fin 3) Nat) := [⟨0, some 7⟩, ⟨1, some 8⟩]

/-- Three sends on different channels. -/
def threeSends : List (Case (Fin 3) Nat) := [⟨0, some 7⟩, ⟨1, some 8⟩, ⟨2, some 9⟩]

/-- Three calls on a list of three sends, with a select on a single channel between two of them, choose the
cases 0, 2 and 1. -/
theorem select_rotates_alternating : ∃ r : TurnSys Unit (Fin 3) Nat,
    Reaches (TurnSys.step bufferedThrice () threeSends)
      (fun r l => r.sys.LockFreeOk bufferedThrice () threeSends l ∧ r.TurnOk () threeSends l)
      (TurnSys.init fun _ _ => 0) r ∧
    r.sys.winners () threeSends = [some 0, some 2, some 1] ∧
    some 1 ∈ ((r.sys.winners () threeSends).drop 0).take threeSends.length := by
  obtain ⟨r, hr, hwin⟩ : ∃ r : TurnSys Unit (Fin 3) Nat,
      Reaches (TurnSys.step bufferedThrice () threeSends)
        (fun r l => r.sys.LockFreeOk bufferedThrice () threeSends l ∧ r.TurnOk () threeSends l)
        (TurnSys.init fun _ _ => 0) r ∧ r.sys.winners () threeSends = [some 0, some 2, some 1] :=
    exists_reaches_of_exec (List.flatten [selectTry threeSends, selectTry [⟨0, some 1⟩],
      selectTry threeSends, selectTry [⟨0, some 2⟩], selectTry threeSends]) _ (by decide +kernel)
  exact ⟨r, hr, hwin, select_rotates bufferedThrice _ () threeSends (fun _ _ => Nat.succ_pos 3) r hr 0
    (by rw [hwin]; decide) 1 (by decide)⟩

/-- With a select on a third channel between them, two calls in a row on the same list choose case
zero. All channels are open, nobody waits, and no ring is ever full. -/
theorem select_stuck : ∃ s : Sys Unit (Fin 3) Nat,
    Reaches (Sys.step bufferedThrice) (Sys.LockFreeOk bufferedThrice () twoSends)
      (Sys.init fun _ _ => 0) s ∧
    s.winners () twoSends = [some 0, some 0] ∧
    ∀ c, (s.mem.chan c).closed = false ∧ (s.mem.chan c).cnt .send = 0 ∧
      (s.mem.chan c).cnt .recv = 0 ∧ (s.mem.chan c).hist.reserved .send < 4 :=
  Sys.exists_reaches bufferedThrice (fun _ _ => (0 : Nat)) _
    (selectTry twoSends ++ selectTry [⟨2, some 9⟩] ++ selectTry twoSends) _ (by decide +kernel)

end LibChan
