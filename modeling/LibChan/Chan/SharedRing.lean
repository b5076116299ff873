import LibChan.Ring.Verdicts
import LibChan.Chan.RingUse

/-!
# The ring of a channel

On a channel that is not SPSC the threads use the ring by the four shared operations only, so the
invariant of the shared ring holds on it (`SharedInv`), in every run in which a thread that has loaded
its head performs its next two accesses before the cursors have moved on by `2 ^ 32` positions
(`Sys.Timely`).
-/

set_option autoImplicit false

namespace LibChan

variable {T C α : Type}

/-- The thread that moves is not overtaken by a whole lap of the 32-bit cursors. -/
def Sys.Timely (s : Sys T C α) : Label T C α → Prop
  | .go t _ => ∀ x ∈ (s.thread t).ring?, (s.mem.chan x.1).hist.Timely t x.2
  | .call _ _ => True

instance (s : Sys T C α) : DecidablePred s.Timely
  | .go t _ => inferInstanceAs
    (Decidable (∀ x ∈ (s.thread t).ring?, (s.mem.chan x.1).hist.Timely t x.2))
  | .call _ _ => .isTrue trivial

/-- The same for the channels that are not SPSC only. -/
def Sys.SharedTimely (K : Config T C) (s : Sys T C α) : Label T C α → Prop
  | .go t _ => ∀ x ∈ (s.thread t).ring?, (K.chan x.1).spsc = false →
      (s.mem.chan x.1).hist.Timely t x.2
  | .call _ _ => True

theorem Sys.Timely.shared {s : Sys T C α} {l : Label T C α} (h : s.Timely l) (K : Config T C) :
    s.SharedTimely K l := by
  cases l with
  | call t k => trivial
  | go t alt => exact fun x hx _ => h x hx

section Inv

variable [DecidableEq C]

/-- The place of a thread in a ring operation on channel `c`. -/
def Thread.ringOn (c : C) (th : Thread C α) : Option (RingPc Wid α) :=
  th.ring?.bind fun x => if x.1 = c then some x.2 else none

/-- The ring of channel `c` and the operations under way on it are in order. -/
def Sys.RingSound (K : Config T C) (c : C) (s : Sys T C α) : Prop :=
  RingInv (K.chan c).ringCap (s.mem.chan c).ring (s.mem.chan c).hist fun t => (s.thread t).ringOn c

/-- The rings of the channels that are not SPSC are sound. -/
def SharedInv (K : Config T C) (s : Sys T C α) : Prop :=
  ∀ c, (K.chan c).spsc = false →
    RingInv (K.chan c).ringCap (s.mem.chan c).ring (s.mem.chan c).hist fun t => (s.thread t).ringOn c

theorem Thread.ringOn_eq_some {c : C} {th : Thread C α} {p : RingPc Wid α} :
    th.ringOn c = some p ↔ th.ring? = some (c, p) := by
  rw [Thread.ringOn, Option.bind_eq_some_iff]
  constructor
  · rintro ⟨⟨d, q⟩, hring, hq⟩
    obtain ⟨rfl, heq⟩ := Option.ite_none_right_eq_some.1 hq
    cases heq
    exact hring
  · intro hring
    exact ⟨(c, p), hring, if_pos rfl⟩

theorem Thread.ringOn_of_none {c : C} {th : Thread C α} (h : th.ring? = none) : th.ringOn c = none := by
  rw [Thread.ringOn, h]
  rfl

theorem Thread.ringOn_of_ne {c d : C} {th : Thread C α} {p : RingPc Wid α}
    (h : th.ring? = some (c, p)) (hd : d ≠ c) : th.ringOn d = none := by
  rw [Thread.ringOn, h]
  exact if_neg hd.symm

end Inv

section Step

variable [DecidableEq T] [DecidableEq C] {K : Config T C} {s s' : Sys T C α} {l : Label T C α}
  {t : T} {alt : Bool} {c : C} {e : Effect α} {th : Thread C α}

omit [DecidableEq T] in
/-- The cached operations are used on SPSC channels only. -/
theorem Sys.Acts.spsc {p : SpscPc Wid α} (hacts : s.Acts K t alt c (.spsc p) th)
    (hok : (s.thread t).Ok K) : (K.chan c).spsc = true := by
  cases hacts with
  | direct hth hact =>
    rw [hth] at hok
    cases Pc.flow_of_act hact with
    | spscIn hp | spscHit hp hres | spscMiss hp hres | spscMissSlow hp hres hop => exact hok.2.2.1
  | select hth hact =>
    cases SelPc.flow_of_act hact with
    | pick _ _ he => rcases he with he | ⟨v, he⟩ <;> cases he
    | execGo hk hexec => cases hexec
    | execDone hk hexec => cases hexec

omit [DecidableEq C] in
/-- The other effects leave the ring and its history alone. -/
theorem Chan.ring_apply (ch : Chan T α) (cap : RingCap) (hring : e.isRing = false)
    (hspsc : ∀ p, e ≠ .spsc p) :
    (ch.apply cap t e).ring = ch.ring ∧ (ch.apply cap t e).hist = ch.hist := by
  cases e with
  | ring weak p => cases hring
  | spsc p => exact absurd rfl (hspsc p)
  | _ => exact ⟨rfl, rfl⟩

theorem Sys.ringOn_move (d : C) :
    (fun u => ((s.move K t c e th).thread u).ringOn d) =
      Function.update (fun u => (s.thread u).ringOn d) t (th.ringOn d) := by
  funext u
  by_cases hu : u = t
  · subst hu
    rw [Sys.thread_move_self, Function.update_self]
  · rw [Sys.thread_move_of_ne hu, Function.update_of_ne hu]

/-- A step keeps the ring of a channel in order if its access is timely and does not go through the
cursor caches. -/
theorem Sys.RingSound.move {d : C} (h : s.RingSound K d) (hok : (s.thread t).Ok K)
    (hacts : s.Acts K t alt c e th) (hspsc : d = c → ∀ p, e ≠ .spsc p)
    (htime : ∀ p, (s.thread t).ring? = some (d, p) → (s.mem.chan d).hist.Timely t p) :
    (s.move K t c e th).RingSound K d := by
  rw [Sys.RingSound, Sys.ringOn_move]
  have hstep := hacts.ring hok
  by_cases hdc : d = c
  · subst hdc
    have hchan : (s.move K t d e th).mem.chan d = (s.mem.chan d).apply (K.chan d).ringCap t e :=
      Mem.chan_apply_self K s.mem t d e
    -- a step that does not touch the ring
    have hsame : e.isRing = false →
        ((s.move K t d e th).mem.chan d).ring = (s.mem.chan d).ring ∧
          ((s.move K t d e th).mem.chan d).hist = (s.mem.chan d).hist := by
      intro he
      rw [hchan]
      exact Chan.ring_apply _ _ he (hspsc rfl)
    cases hstep with
    | @inside p p' hring hp hring' =>
      rw [hchan, Thread.ringOn_eq_some.2 hring']
      have hacc := h.access alt (Thread.ringOn_eq_some.2 hring) (htime p hring).casFresh
      rwa [show ((s.mem.chan d).ring.step (K.chan d).ringCap alt p).2 = .inl p' from hp] at hacc
    | @last p res hring hp hring' =>
      rw [hchan, Thread.ringOn_of_none hring']
      have hacc := h.access alt (Thread.ringOn_eq_some.2 hring) (htime p hring).casFresh
      rwa [show ((s.mem.chan d).ring.step (K.chan d).ringCap alt p).2 = .inr res from hp] at hacc
    | start hring he hop hring' =>
      rw [(hsame he).1, (hsame he).2, Thread.ringOn_eq_some.2 hring']
      exact h.begin (Thread.ringOn_of_none hring) hop
    | away hring he hring' =>
      rw [(hsame he).1, (hsame he).2, Thread.ringOn_of_none hring', ← Thread.ringOn_of_none hring,
        Function.update_eq_self]
      exact h
  · -- the thread is in no operation on the ring of `d`, before or after
    have hchan : (s.move K t c e th).mem.chan d = s.mem.chan d := Mem.chan_apply_of_ne K s.mem t c e hdc
    have hpc : th.ringOn d = (s.thread t).ringOn d := by
      cases hstep with
      | inside hring hp hring' =>
        rw [Thread.ringOn_of_ne hring hdc, Thread.ringOn_of_ne hring' hdc]
      | last hring hp hring' => rw [Thread.ringOn_of_ne hring hdc, Thread.ringOn_of_none hring']
      | start hring he hop hring' =>
        rw [Thread.ringOn_of_none hring, Thread.ringOn_of_ne hring' hdc]
      | away hring he hring' => rw [Thread.ringOn_of_none hring, Thread.ringOn_of_none hring']
    rw [hchan, hpc, Function.update_eq_self]
    exact h

theorem Sys.RingSound.startCall (h : s.RingSound K c) {k : Call C α} (hidle : s.thread t = .idle) :
    (s.startCall K t k).RingSound K c := by
  have hbegin : (Sys.startThread K s.next k).Ok K := Thread.ok_startThread s.next k
  have hupdate : (fun u => ((s.startCall K t k).thread u).ringOn c) =
      Function.update (fun u => (s.thread u).ringOn c) t ((Sys.startThread K s.next k).ringOn c) := by
    funext u
    by_cases hu : u = t
    · subst hu
      rw [Sys.thread_startCall_self, Function.update_self]
    · rw [Sys.thread_startCall_of_ne hu, Function.update_of_ne hu]
  have hold : (s.thread t).ringOn c = none := by
    rw [hidle]
    rfl
  rw [Sys.RingSound, hupdate]
  -- only a burst starts inside a ring operation
  cases hring : (Sys.startThread K s.next k).ringOn c with
  | none =>
    rw [← hold, Function.update_eq_self]
    exact h
  | some p =>
    rw [Thread.ringOn_eq_some] at hring
    rcases Thread.ring_startThread (K := K) s.next k with hnone | ⟨d, op, hsome⟩
    · cases hring.symm.trans hnone
    · cases hring.symm.trans hsome
      exact h.begin hold (Thread.fit_of_ring hbegin hring)

omit [DecidableEq T] [DecidableEq C] in
theorem Sys.Returns.ring_eq_none {id : Nat} {r : Ret} {out : List (Option α)}
    (hret : s.Returns t id r out) : (s.thread t).ring? = none := by
  cases hret with
  | direct hth => rw [hth]; rfl
  | select hth => rw [hth]; rfl

theorem Sys.RingSound.finishCall (h : s.RingSound K c) {id : Nat} {r : Ret} {out : List (Option α)}
    (hret : s.Returns t id r out) : (s.finishCall t id r out).RingSound K c := by
  have hsame : (fun u => ((s.finishCall t id r out).thread u).ringOn c) =
      fun u => (s.thread u).ringOn c := by
    funext u
    by_cases hu : u = t
    · subst hu
      rw [Sys.thread_finishCall_self, Thread.ringOn_of_none hret.ring_eq_none]
      rfl
    · rw [Sys.thread_finishCall_of_ne hu]
  rw [Sys.RingSound, hsame]
  exact h

omit [DecidableEq T] in
theorem Sys.RingSound.init (slots : C → U32 → α) (c : C) : (Sys.init slots : Sys T C α).RingSound K c :=
  RingInv.init (K.chan c).ringCap (slots c)

omit [DecidableEq T] in
theorem SharedInv.init (slots : C → U32 → α) : SharedInv K (Sys.init slots : Sys T C α) :=
  fun c _ => Sys.RingSound.init slots c

theorem SharedInv.step (h : SharedInv K s) (hs : Sound K s) (htime : s.SharedTimely K l)
    (hstep : s.Stepped K l s') : SharedInv K s' := by
  intro d hd
  have hring : s.RingSound K d := h d hd
  cases hstep with
  | call hidle => exact hring.startCall hidle
  | ret hdone hret => exact hring.finishCall hret
  | @move t alt c e th hnext hacts =>
    refine hring.move (hs.ok t) hacts ?_ fun p hp => htime (d, p) hp hd
    rintro rfl p rfl
    cases hd.symm.trans (hacts.spsc (hs.ok t))

end Step

end LibChan
