import LibChan.Chan.SpscPair

/-!
# Nothing is received after `CHAN_ERR_CLOSED`

Both kinds of buffered channels look into their ring reliably (`QuietRuns`): an ordinary channel in runs
without laps, an SPSC channel while one thread sends on it and one receives. So once a receive has returned
`CHAN_ERR_CLOSED`, no later one gets an element, if no lock-free send is past its test of the closed flag
when the flag is set (`closed_receive_final`). Without that condition a send that has passed its test pushes
after the fact (`closed_receive_reopened`).
-/

set_option autoImplicit false

namespace LibChan

variable {T C α : Type}

/-- When the closed flag of `c` is set, no send on it is past its test of the flag outside the lock. If `c`
is an ordinary channel there are no selects and no laps; if it is an SPSC channel it has one producer and
one consumer. -/
def Sys.CloseUse [DecidableEq C] (K : Config T C) (c : C) (p q : T) (s : Sys T C α)
    (l : Label T C α) : Prop :=
  s.CloseOk c l ∧ if (K.chan c).spsc = true then l.Spsc c p q else l.direct = true ∧ s.Timely l

instance [Fintype T] [DecidableEq T] [DecidableEq C] (K : Config T C) (c : C) (p q : T) (s : Sys T C α)
    (l : Label T C α) : Decidable (s.CloseUse K c p q l) :=
  inferInstanceAs (Decidable (s.CloseOk c l ∧
    if (K.chan c).spsc = true then l.Spsc c p q else l.direct = true ∧ s.Timely l))

section Spsc

variable [DecidableEq T] [DecidableEq C] {K : Config T C} {s s' : Sys T C α} {l : Label T C α}
  {p q t : T} {c : C}

/-- What holds in the runs of one producer and one consumer on an SPSC channel whose closed flag is set in
time. -/
structure SpscHush (K : Config T C) (c : C) (p q : T) (s : Sys T C α) : Prop
    extends SpscValid K c p q s where
  drain : DrainInv s
  hush : HushInv c s

omit [DecidableEq T] in
theorem SpscHush.init (slots : C → U32 → α) : SpscHush K c p q (Sys.init slots : Sys T C α) where
  toSpscValid := .init slots
  drain := .init slots
  hush _ _ _ _ h := by cases h

theorem SpscHush.step (h : SpscHush K c p q s) (hspsc : (K.chan c).spsc = true) (hl : l.Spsc c p q)
    (hok : s.CloseOk c l) (hstep : s.Stepped K l s') : SpscHush K c p q s' where
  toSpscValid := h.toSpscValid.step hspsc hl hstep
  drain := h.drain.step h.toValid (h.direct.when rfl (fun _ _ _ _ => rfl) l) hstep
  hush := h.hush.step h.toDirectValid h.drain hok hstep

/-- A pop that fails has seen the producer tail at the consumer head, and nobody is about to commit. -/
theorem SpscHush.tellsEmpty (h : SpscHush K c p q s) (l : Label T C α) : s.TellsEmpty K c l := by
  rintro t alt x res rfl hclosed hring hx hres
  have hhush := h.hush.hushed h.toDirectValid h.drain
  have hlane := h.laneOn_of_ring hring
  have hempty := LaneInv.empty_of_moved h.ring hlane (h.use.lane_alone h.toDirectValid hlane)
    (hhush.ring hclosed t x hring) hx hres
  have hcommitted : (s.mem.chan c).hist.committed .send = (s.mem.chan c).hist.reserved .send := by
    refine RingInv.committed_eq h.ring.ring fun u y k hu hrun => ?_
    obtain ⟨z, hz, hplain⟩ := Option.bind_eq_some_iff.1 hu
    cases z with
    | cached z => cases (SpscPc.run_of_plain hplain).symm.trans hrun
    | shared z =>
      cases hplain
      obtain ⟨id, op, pc, hth, hpc⟩ := Thread.laneOn_eq_some hz
      have hring' : (s.thread u).ring? = some (c, y) := by
        rw [hth, Thread.ring?, Pc.lane_shared hpc]
        rfl
      cases (hhush.ring hclosed u y hring').symm.trans (RingPc.side_of_run hrun)
  exact hcommitted.symm.trans hempty

theorem SpscHush.quietRuns (hspsc : (K.chan c).spsc = true) : QuietRuns K c
    (fun s l => s.CloseOk c l ∧ l.Spsc c p q) (SpscHush K c p q : Sys T C α → Prop) where
  quiet _ h := ⟨h.toDirectValid, h.hush.hushed h.toDirectValid h.drain, h.ring.takers_le⟩
  step _ _ _ h hok hstep := h.step hspsc hok.2 hok.1 hstep
  tells _ l h _ := h.tellsEmpty l

end Spsc

section Run

variable [DecidableEq T] [DecidableEq C]

omit [DecidableEq T] in
theorem StackSys.closeUse {K : Config T C} {c : C} {p q : T} {r : StackSys T C α}
    {l : StackLabel T C α} (h : r.seen.CloseUse K c p q l.label ∧ r.ReuseOk l) :
    r.ReuseOk l ∧ r.sys.CloseUse K c p q l.label := by
  obtain ⟨huse, hreuse⟩ := h
  refine ⟨hreuse, ?_⟩
  cases l <;> exact huse

/-- Once a receive from a buffered channel has returned `CHAN_ERR_CLOSED`, the ring is empty and stays so,
and no receive or burst receive that starts later obtains an element: in runs in which no lock-free send on
the channel is past its test of the closed flag when the flag is set, without selects and laps on an
ordinary channel, with one producer and one consumer on an SPSC channel. -/
theorem closed_receive_final (K : Config T C) (slots : C → U32 → α) (c : C) (p q : T)
    (r₁ r : StackSys T C α)
    (hrun₁ : Reaches (StackSys.step K) (fun r l => r.seen.CloseUse K c p q l.label ∧ r.ReuseOk l)
      (StackSys.init slots) r₁)
    (hrun : Reaches (StackSys.step K) (fun r l => r.seen.CloseUse K c p q l.label ∧ r.ReuseOk l) r₁ r)
    (hcap : 0 < (K.chan c).capacity) (id₀ : Nat) (time₀ : Int) (out₀ : List (Option α))
    (hclosed : r₁.seen.Answered id₀ (.direct c (.recv time₀)) (.err .closed) out₀) :
    (∀ id, r₁.seen.next ≤ id →
      (∀ time x out, r.seen.Answered id (.direct c (.recv time)) x out → x ≠ .err .ok) ∧
      (∀ n x out, r.seen.Answered id (.direct c (.recvBurst n)) x out → x = .count 0) ∧
      ∀ i x, (⟨id, i⟩, x) ∉ (r.seen.mem.chan c).recvd) ∧
    (r.seen.mem.chan c).Emptied := by
  obtain ⟨hsys₁, hinv₁⟩ := StackSys.reaches_sys (fun s l => s.CloseUse K c p q l) (.init slots)
    (fun _ _ _ h => StackSys.closeUse h) hrun₁
  obtain ⟨hsys, -⟩ := StackSys.reaches_sys (fun s l => s.CloseUse K c p q l) hinv₁
    (fun _ _ _ h => StackSys.closeUse h) hrun
  cases hspsc : (K.chan c).spsc with
  | false =>
    have hok : ∀ (s : Sys T C α) l, s.CloseUse K c p q l →
        s.CloseOk c l ∧ l.direct = true ∧ s.Timely l := by
      intro s l h
      rwa [Sys.CloseUse, if_neg (by rw [hspsc]; decide)] at h
    have hfinal := (HushValid.quietRuns hspsc).closed_final (.init slots) (hsys₁.mono hok)
      (hsys.mono hok) hcap hclosed
    exact hfinal
  | true =>
    have hok : ∀ (s : Sys T C α) l, s.CloseUse K c p q l → s.CloseOk c l ∧ l.Spsc c p q := by
      intro s l h
      rwa [Sys.CloseUse, if_pos hspsc] at h
    have hfinal := (SpscHush.quietRuns hspsc).closed_final (.init slots) (hsys₁.mono hok)
      (hsys.mono hok) hcap hclosed
    exact hfinal

end Run

/-- Two channels of capacity one. After `chan_close` has returned, a receive from the ordinary one returns
`CHAN_ERR_CLOSED`, and so does the next. On the SPSC channel an element is sent before the close: the first
receive gets it, the second returns `CHAN_ERR_CLOSED`, and so does the third. -/
theorem closed_receive_final_twice :
    (∃ r₁ r : StackSys (Fin 3) Unit Nat,
      Reaches (StackSys.step bufferedOne)
        (fun r l => r.seen.CloseUse bufferedOne () 0 1 l.label ∧ r.ReuseOk l)
        (StackSys.init fun _ _ => 0) r₁ ∧
      Reaches (StackSys.step bufferedOne)
        (fun r l => r.seen.CloseUse bufferedOne () 0 1 l.label ∧ r.ReuseOk l) r₁ r ∧
      r₁.seen.Answered 1 (.direct () (.recv 0)) (.err .closed) [] ∧ r₁.seen.next = 2 ∧
      r.seen.Answered 2 (.direct () (.recv 0)) (.err .closed) [] ∧
      (∀ i x, (⟨2, i⟩, x) ∉ (r.seen.mem.chan ()).recvd) ∧ (r.seen.mem.chan ()).Emptied) ∧
    ∃ r₁ r : StackSys (Fin 3) Unit Nat,
      Reaches (StackSys.step spscOne)
        (fun r l => r.seen.CloseUse spscOne () 0 1 l.label ∧ r.ReuseOk l) (StackSys.init fun _ _ => 0) r₁ ∧
      Reaches (StackSys.step spscOne)
        (fun r l => r.seen.CloseUse spscOne () 0 1 l.label ∧ r.ReuseOk l) r₁ r ∧
      r₁.seen.recvsOk () = [some 7] ∧
      r₁.seen.Answered 3 (.direct () (.recv 0)) (.err .closed) [] ∧ r₁.seen.next = 4 ∧
      r.seen.Answered 4 (.direct () (.recv 0)) (.err .closed) [] ∧
      (∀ i x, (⟨4, i⟩, x) ∉ (r.seen.mem.chan ()).recvd) ∧ (r.seen.mem.chan ()).Emptied := by
  constructor
  · obtain ⟨r₁, r, hr₁, hr, h₁, hnext, h₂⟩ : ∃ r₁ r : StackSys (Fin 3) Unit Nat,
        Reaches (StackSys.step bufferedOne)
          (fun r l => r.seen.CloseUse bufferedOne () 0 1 l.label ∧ r.ReuseOk l)
          (StackSys.init fun _ _ => 0) r₁ ∧
        Reaches (StackSys.step bufferedOne)
          (fun r l => r.seen.CloseUse bufferedOne () 0 1 l.label ∧ r.ReuseOk l) r₁ r ∧
        (.call 1 2 (.direct () (.recv 0)) ∈ r₁.seen.events ∧
          .ret 1 2 (.err .closed) [] ∈ r₁.seen.events) ∧ r₁.seen.next = 2 ∧
        .call 2 2 (.direct () (.recv 0)) ∈ r.seen.events ∧ .ret 2 2 (.err .closed) [] ∈ r.seen.events :=
      exists_reaches_pair_of_exec
        (List.flatten [
          [.call 1 (.direct () .close) 0], List.replicate 7 (.go 1 false),
          [.call 2 (.direct () (.recv 0)) 1], List.replicate 12 (.go 2 false)])
        (List.flatten [
          [.call 2 (.direct () (.recv 0)) 1], List.replicate 12 (.go 2 false)]) _ (by decide +kernel)
    obtain ⟨hlater, hempty⟩ := closed_receive_final bufferedOne _ () 0 1 r₁ r hr₁ hr (by decide) 1 0 []
      ⟨2, h₁⟩
    exact ⟨r₁, r, hr₁, hr, ⟨2, h₁⟩, hnext, ⟨2, h₂⟩, (hlater 2 hnext.le).2.2, hempty⟩
  · obtain ⟨r₁, r, hr₁, hr, hgot, h₁, hnext, h₂⟩ : ∃ r₁ r : StackSys (Fin 3) Unit Nat,
        Reaches (StackSys.step spscOne)
          (fun r l => r.seen.CloseUse spscOne () 0 1 l.label ∧ r.ReuseOk l)
          (StackSys.init fun _ _ => 0) r₁ ∧
        Reaches (StackSys.step spscOne)
          (fun r l => r.seen.CloseUse spscOne () 0 1 l.label ∧ r.ReuseOk l) r₁ r ∧
        r₁.seen.recvsOk () = [some 7] ∧
        (.call 3 1 (.direct () (.recv 0)) ∈ r₁.seen.events ∧
          .ret 3 1 (.err .closed) [] ∈ r₁.seen.events) ∧ r₁.seen.next = 4 ∧
        .call 4 1 (.direct () (.recv 0)) ∈ r.seen.events ∧ .ret 4 1 (.err .closed) [] ∈ r.seen.events :=
      exists_reaches_pair_of_exec
        (List.flatten [
          [.call 0 (.direct () (.send 7 0)) 0], List.replicate 7 (.go 0 false),
          [.call 2 (.direct () .close) 1], List.replicate 7 (.go 2 false),
          [.call 1 (.direct () (.recv 0)) 2], List.replicate 7 (.go 1 false),
          [.call 1 (.direct () (.recv 0)) 2], List.replicate 10 (.go 1 false)])
        (List.flatten [
          [.call 1 (.direct () (.recv 0)) 2], List.replicate 10 (.go 1 false)]) _ (by decide +kernel)
    obtain ⟨hlater, hempty⟩ := closed_receive_final spscOne _ () 0 1 r₁ r hr₁ hr (by decide) 3 0 []
      ⟨1, h₁⟩
    exact ⟨r₁, r, hr₁, hr, hgot, ⟨1, h₁⟩, hnext, ⟨1, h₂⟩, (hlater 4 hnext.le).2.2, hempty⟩

/-- A send that has passed its test of the closed flag is stopped, `chan_close` returns, a receive
returns `CHAN_ERR_CLOSED`; then the send returns `CHAN_OK` and another receive gets its element. -/
theorem closed_receive_reopened : ∃ s₁ s : Sys (Fin 3) Unit Nat,
    Reaches (Sys.step bufferedOne) (fun s l => l.direct = true ∧ s.Timely l) (Sys.init fun _ _ => 0) s₁ ∧
    Reaches (Sys.step bufferedOne) (fun s l => l.direct = true ∧ s.Timely l) s₁ s ∧
    s₁.Answered 2 (.direct () (.recv 0)) (.err .closed) [] ∧ s₁.next = 3 ∧
    s.Answered 0 (.direct () (.send 7 0)) (.err .ok) [] ∧
    s.Answered 3 (.direct () (.recv 0)) (.err .ok) [some 7] := by
  obtain ⟨s₁, s, hs₁, hs, h₂, hnext, hlater⟩ : ∃ s₁ s : Sys (Fin 3) Unit Nat,
      Reaches (Sys.step bufferedOne) (fun s l => l.direct = true ∧ s.Timely l)
        (Sys.init fun _ _ => 0) s₁ ∧
      Reaches (Sys.step bufferedOne) (fun s l => l.direct = true ∧ s.Timely l) s₁ s ∧
      (.call 2 2 (.direct () (.recv 0)) ∈ s₁.events ∧ .ret 2 2 (.err .closed) [] ∈ s₁.events) ∧
      s₁.next = 3 ∧
      [.call 0 0 (.direct () (.send 7 0)), .ret 0 0 (.err .ok) [], .call 3 2 (.direct () (.recv 0)),
        .ret 3 2 (.err .ok) [some 7]] ⊆ s.events :=
    exists_reaches_pair_of_exec
      (List.flatten [
        [.call 0 (.direct () (.send 7 0)), .go 0 false],
        [.call 1 (.direct () .close)], List.replicate 7 (.go 1 false),
        [.call 2 (.direct () (.recv 0))], List.replicate 12 (.go 2 false)])
      (List.flatten [List.replicate 10 (.go 0 false),
        [.call 2 (.direct () (.recv 0))], List.replicate 10 (.go 2 false)]) _ (by decide +kernel)
  exact ⟨s₁, s, hs₁, hs, ⟨2, h₂⟩, hnext, ⟨0, hlater (by simp), hlater (by simp)⟩,
    2, hlater (by simp), hlater (by simp)⟩

end LibChan
