import OneShot.Proofs.Chain.Lineage

/-!
# Handles

The machine knows promises by number, and a program of the machine could make numbers up. A program
that goes through handles cannot: it makes calls about promises that it was given, and it completes
only those that it was given as promises that their holder can complete. A derived promise is not
given so by the call that derives it, but it is lent so to its own listeners and callbacks.

- **What is given** (`Moment.lends`, `Moment.gives`) and **what is asked** (`Moment.asks`,
  `Moment.completes?`) at a moment.
- **Honest programs** (`Chronicle.Honest`): nothing is asked that was not given before.
- **Lent promises** (`Reached.callee_of_lends`, `Reached.not_lent`): a derived promise is lent to
  its own listeners and callbacks only, and to nobody while it is unclaimed.
-/

namespace OneShot

variable {H : Host} {b : Behaviour H}

namespace Moment

/-- The promises that are given to the program at a moment so that it can complete them: one that
it has made, and those that a listener, a chain callback or a cancellation hook is called with. -/
def lends (μ : Moment H) : List PromiseId :=
  match μ.frame, μ.next with
  | .building _ _ _, .answer (.promise p) => [p]
  | .cancelling p none, .goto _ => [p]
  | _, .enter (.notifying p _) _ => [p]
  | _, _ => []

/-- The promises that are given to the program at a moment, be it only to look at them. -/
def gives (μ : Moment H) : List PromiseId :=
  match μ.next with
  | .answer (.derived d) => [d]
  | _ => μ.lends

/-- The promises that the program makes a call about at a moment. -/
def asks (μ : Moment H) : List PromiseId :=
  match μ.next with
  | .enter g f => if f.code?.isSome then g.handles else []
  | _ => []

/-- The promise that the program sets out to complete at a moment. -/
def completes? (μ : Moment H) : Option PromiseId :=
  match μ.next with
  | .enter (.completing p _) f => if f.code?.isSome then some p else none
  | _ => none

end Moment

namespace Chronicle

/-- The program makes calls only about promises that it was given, and completes only promises that
it was given to complete. -/
structure Honest (c : Chronicle H) : Prop where
  asks : ∀ l μ l', c.past = l ++ μ :: l' → ∀ p ∈ μ.asks, ∃ ν ∈ l, p ∈ ν.gives
  completes : ∀ l μ l', c.past = l ++ μ :: l' → ∀ p, μ.completes? = some p → ∃ ν ∈ l, p ∈ ν.lends

/-- Whether the program of a run is honest. -/
def isHonest (c : Chronicle H) : Bool :=
  (List.range c.past.length).all fun n => c.past[n]?.all fun μ =>
    (μ.asks.all fun p => (c.past.take n).any fun ν => ν.gives.contains p) &&
    μ.completes?.all fun p => (c.past.take n).any fun ν => ν.lends.contains p

theorem honest_of_isHonest {c : Chronicle H} (h : c.isHonest = true) : c.Honest := by
  have hat : ∀ l μ l', c.past = l ++ μ :: l' →
      (∀ p ∈ μ.asks, ∃ ν ∈ l, p ∈ ν.gives) ∧
        ∀ p, μ.completes? = some p → ∃ ν ∈ l, p ∈ ν.lends := by
    intro l μ l' hpast
    have hn := List.all_eq_true.1 h l.length (by simp [hpast])
    have hget : c.past[l.length]? = some μ := by simp [hpast]
    have htake : c.past.take l.length = l := by simp [hpast]
    rw [hget, htake, Option.all_some, Bool.and_eq_true] at hn
    refine ⟨fun p hp => ?_, fun p hp => ?_⟩
    · simpa using List.all_eq_true.1 hn.1 p hp
    · simpa [hp] using hn.2
  exact ⟨fun l μ l' hpast => (hat l μ l' hpast).1, fun l μ l' hpast => (hat l μ l' hpast).2⟩

variable {c c' : Chronicle H} {μ ν κ : Moment H} {p s d : PromiseId} {f : H.Closure .transform}

theorem Honest.of_past {l : List (Moment H)} (h : c'.Honest) (hl : c'.past = c.past ++ l) :
    c.Honest := by
  refine ⟨fun l₁ μ l₂ hpast => ?_, fun l₁ μ l₂ hpast => ?_⟩
  · exact h.asks l₁ μ (l₂ ++ l) (by rw [hl, hpast, List.append_assoc]; rfl)
  · exact h.completes l₁ μ (l₂ ++ l) (by rw [hl, hpast, List.append_assoc]; rfl)

theorem Honest.of_reaches (hc : c.Reached b) (h : c'.Honest) (hl : c.Reaches b c') : c.Honest := by
  obtain ⟨l, hpast⟩ := hl.exists_past hc
  exact h.of_past hpast

theorem Honest.asked (h : (c.record μ).Honest) (hp : p ∈ μ.asks) : ∃ ν ∈ c.past, p ∈ ν.gives :=
  h.asks c.past μ [] past_record p hp

theorem Honest.completed (h : (c.record μ).Honest) (hp : μ.completes? = some p) :
    ∃ ν ∈ c.past, p ∈ ν.lends :=
  h.completes c.past μ [] past_record p hp

end Chronicle

/-! ## Lent promises -/

/-- A promise that is made for the program to complete is derived from no other. -/
theorem Moment.Sound.built {μ : Moment H} {p : PromiseId} {builder : Builder H}
    {clock : H.Closure .clock} {code : H.Code .clock} (h : μ.Sound b)
    (hf : μ.frame = .building builder clock code) (hn : μ.next = .answer (.promise p)) :
    ∃ pr, μ.after.cells? p = some pr ∧ pr.origin = none := by
  cases h.made with
  | wake _ hf' => rw [hf] at hf'; cases hf'
  | step _ _ hs ha =>
    rw [ha, Machine.cells?_proceed]
    rw [hf, hn] at hs
    replace hs : builder.step b μ.before μ.call.thread clock μ.control code = _ := hs
    generalize hm : Next.answer (.promise p) = n at hs
    cases Machine.ran_of_runCode hs with
    | call | stay | panic => cases hm
    | finish _ hd =>
      cases hd
      cases hm
      exact ⟨_, by simp [Machine.cells?, Machine.promise?]; rfl, rfl⟩

/-- A cancellation goes to the hook, if there is one. -/
theorem Moment.Sound.cancelling {μ : Moment H} {p : PromiseId} (h : μ.Sound b)
    (hf : μ.frame = .cancelling p none) : ∃ pr, μ.before.cells? p = some pr ∧
      μ.next = match pr.hook with
        | none => .answer (.settled (.ok false))
        | some hook => .goto (.cancelling p (some (H.invoke .hook hook p))) := by
  cases h.made with
  | wake _ hf' => rw [hf] at hf'; cases hf'
  | step _ _ hs _ =>
    rw [hf] at hs
    have hk : μ.control = .go := h.control.resolve_right (by rw [hf]; exact Bool.false_ne_true)
    obtain ⟨pr, hp, hs⟩ := Option.bind_eq_some_iff.1 (Machine.eq_of_runStage hs hk)
    refine ⟨pr.bare, Machine.cells?_eq_some hp, ?_⟩
    show _ = match pr.hook with
      | none => _
      | some hook => _
    cases hh : pr.hook with
    | none => rw [hh] at hs; exact (Prod.mk.inj (Option.some.inj hs)).2.symm
    | some hook => rw [hh] at hs; exact (Prod.mk.inj (Option.some.inj hs)).2.symm

theorem Frame.Enters.of_cancelling {f : Frame H} {p : PromiseId} {code : Option (H.Code .hook)}
    (h : f.Enters (.cancelling p code)) : code = none := by
  generalize hg : Frame.cancelling p code = g at h
  cases h with
  | @code f callee hf => cases callee <;> cases hg; rfl
  | deliver | check | enroll | transform => cases hg

namespace Chronicle

variable {c c' : Chronicle H} {μ ν κ : Moment H} {p s d : PromiseId} {f : H.Closure .transform}

/-- A hook runs only for a promise that has one. -/
theorem Reached.hooked (hc : c.Reached b) : ∀ i p code,
    c.frame? i = some (.cancelling p (some code)) →
    ∃ pr, c.machine.cells? p = some pr ∧ pr.hook.isSome = true := by
  induction c, hc using Reached.induction with
  | start m hm =>
    intro i p code hi
    obtain ⟨work, hw⟩ := frame?_start hm hi
    cases hw
  | record c μ hc hμ hc' ih =>
    intro i p code hi
    -- A hook is set when the promise is made and stays with it.
    have hkeep : ∀ pr, c.machine.cells? p = some pr → pr.hook.isSome = true →
        ∃ pr, (c.record μ).machine.cells? p = some pr ∧ pr.hook.isSome = true := by
      intro pr hp hh
      obtain ⟨pr', hp', hmade⟩ := hμ.made_eq hp
      exact ⟨pr', hp', by rw [(Promise.eq_of_made_eq hmade).2.2.1, hh]⟩
    rcases steady_record hc.tracked hμ hi rfl with ⟨rfl, hown⟩ | ⟨rfl, hcal⟩ | ⟨-, -, hold⟩
    · obtain ⟨k, hf⟩ : ∃ k, μ.frame = .cancelling p k := by
        rcases hμ.made.leads.sameCall hown with h | h
        · exact ⟨_, h⟩
        · generalize μ.frame = g at h
          cases h
          exact ⟨_, rfl⟩
      cases k with
      | none =>
        obtain ⟨pr, hp, hn⟩ := (hμ.sound hc.tracked).cancelling hf
        rw [hμ.before] at hp
        cases hh : pr.hook with
        | none => rw [hh] at hn; rw [hn] at hown; cases hown
        | some hook => exact hkeep pr hp (by rw [hh]; rfl)
      | some code' =>
        obtain ⟨pr, hp, hh⟩ := ih _ p code' (by rw [hμ.frame? hc.tracked, hf])
        exact hkeep pr hp hh
    · cases (hμ.made.leads.enters hcal).of_cancelling
    · obtain ⟨pr, hp, hh⟩ := ih i p code hold
      exact hkeep pr hp hh

/-- A derived promise is lent only to its own listeners and chain callbacks. -/
theorem Reached.callee_of_lends (hc : c.Reached b) (hκ : κ ∈ c.past) (hd : κ.Derives s f d)
    (hν : ν ∈ c.past) (h : d ∈ ν.lends) : ∃ r, ν.next.callee? = some (.notifying d r) := by
  obtain ⟨-, pr, -, hp, -, -, hhook, horigin⟩ := hc.derived hκ hd
  have hsound := (hc.sound ν hν).1
  -- What is built, and what has a hook to run, is not a derived promise.
  unfold Moment.lends at h
  split at h
  · rename_i hf hn
    cases List.mem_singleton.1 h
    obtain ⟨c₀, hc₀, -, hturn, hl⟩ := hc.reaches_of_mem hν
    obtain ⟨pr₀, hp₀, ho⟩ := hsound.built hf hn
    obtain ⟨pr', hp', hmade⟩ := (hc₀.reaches hturn).made hl hp₀
    rw [hp] at hp'
    cases hp'
    rw [(Promise.eq_of_made_eq hmade).2.2.2, ho] at horigin
    cases horigin
  · rename_i hf hn
    cases List.mem_singleton.1 h
    obtain ⟨pr₀, hp₀, hgo⟩ := hsound.cancelling hf
    obtain ⟨pr', hp', hmade⟩ := hc.made_since hν hp₀
    rw [hp] at hp'
    cases hp'
    rw [← (Promise.eq_of_made_eq hmade).2.2.1, hhook, hn] at hgo
    cases hgo
  · rename_i hn
    cases List.mem_singleton.1 h
    exact ⟨_, by rw [hn]; rfl⟩
  · cases h

/-- A derived promise is lent to nobody before it is claimed. -/
theorem Reached.not_lent (hc : c.Reached b) (hκ : κ ∈ c.past) (hd : κ.Derives s f d)
    (hu : c.Unclaimed d) (hν : ν ∈ c.past) : d ∉ ν.lends := by
  intro hlent
  obtain ⟨r, hn⟩ := hc.callee_of_lends hκ hd hν hlent
  obtain ⟨pr, hp, hopen⟩ := hc.cells_of_run hν hn
  have hpend := hu.shown ν hν pr hp
  rw [hpend.isDone, hpend.drained] at hopen
  simp at hopen

end Chronicle

end OneShot
