import OneShot.Proofs.Times.Stamp

/-!
# How durations settle

A duration call looks at the end time first and asks the clock later, and it does not look again. So
even on a clock that never goes back, a completion that falls in between has read the clock before
the duration call has, and the call then answers more than the promise took. All other duration
calls settle: they answer more and more while the promise is pending, and then how long it took.

- **Clocks that never go back** (`Moment.told?`, `Chronicle.Forward`).
- **Overtaken calls** (`Chronicle.Overtaken`): the winner has read the clock before them.
- **All other calls** (`Reached.running_le`, `durations_settle`).
- **A call that is overtaken** (`durations_decrease_overtaking`) answers more than all later ones.
-/

namespace OneShot

variable {H : Host} {b : Behaviour H}

/-- What the clock of `p` tells at a moment a call that measures a duration of `p` or completes
it. -/
def Moment.told? (b : Behaviour H) (p : PromiseId) (μ : Moment H) : Option UInt64 :=
  match μ.frame with
  | .measuring q (some _) | .completing q (.stamp _) => if q = p then μ.clocked? b else none
  | _ => none

namespace Chronicle

/-- What the clock of `p` tells these calls is never less than what it has told before. -/
def Forward (b : Behaviour H) (c : Chronicle H) (p : PromiseId) : Prop :=
  ∀ σ ∈ c.past, ∀ ρ ∈ c.past, σ.number < ρ.number →
    ∀ x ∈ σ.told? b p, ∀ y ∈ ρ.told? b p, x ≤ y

instance (b : Behaviour H) (c : Chronicle H) (p : PromiseId) : Decidable (c.Forward b p) :=
  -- The times are looked up in the two moments: there are too many to try them all.
  let _ (σ ρ : Moment H) : Decidable (∀ x ∈ σ.told? b p, ∀ y ∈ ρ.told? b p, x ≤ y) :=
    let _ (x : UInt64) : Decidable (∀ y ∈ ρ.told? b p, x ≤ y) := Option.decidableForallMem _
    Option.decidableForallMem _
  inferInstanceAs (Decidable (∀ σ ∈ c.past, ∀ ρ ∈ c.past, σ.number < ρ.number →
    ∀ x ∈ σ.told? b p, ∀ y ∈ ρ.told? b p, x ≤ y))

/-- The clock tells a duration call of `p` something at moment `ρ`, after it has told something to
the winner of `p`. -/
structure Overtaken (b : Behaviour H) (c : Chronicle H) (p : PromiseId) (ρ : Moment H) : Prop where
  running : ∃ code, ρ.frame = .measuring p (some code)
  stamped : ∃ σ ∈ c.past, ∃ code, σ.frame = .completing p (.stamp code) ∧
    (σ.clocked? b).isSome ∧ σ.number < ρ.number

variable {c : Chronicle H} {μ ν ρ ρ' : Moment H} {p : PromiseId} {pr : Promise H}
  {reading d d' : UInt64}

/-! ## Before and after -/

theorem Reached.isDone_of_number_lt (hc : c.Reached b) (hμ : μ ∈ c.past) (hν : ν ∈ c.past)
    (hlt : μ.number < ν.number) (hd : μ.before.isDone p = true) : ν.before.isDone p = true := by
  obtain ⟨c₀, hc₀, h, hμ⟩ := hc.reaches_of_number_lt hν hμ hlt
  obtain ⟨c₁, hc₁, h₁, hturn, hl⟩ := hc₀.reaches_of_mem hμ
  rw [h₁.before] at hd
  rw [h.before]
  exact hc₁.isDone_of_reaches (hturn.trans hl) hd

/-- A promise whose duration has been measured exists. -/
theorem Reached.exists_promise_of_duration (hc : c.Reached b) (hρ : ρ ∈ c.past)
    (hd : ρ.duration? p = some d) : ∃ pr, c.machine.promise? p = some pr := by
  obtain ⟨code, hf, hn⟩ := Moment.exists_of_duration? hd
  obtain ⟨pr₀, hp₀⟩ : ∃ pr₀, ρ.before.cells? p = some pr₀ := by
    have hm := (hc.sound ρ hρ).1.measuring hf
    generalize ρ.next = n at hm hn
    cases hm with
    | settled hp | ask hp | tell hp => exact ⟨_, hp⟩
    | run _ hown => rw [hn] at hown; cases hown
    | panic => cases hn
  obtain ⟨pr, hp, -⟩ := hc.exists_climbs hρ hp₀
  exact ⟨pr, hp⟩

/-- A duration call that is told something by the clock is running it. -/
theorem told_of_duration (hd : ρ.duration? p = some d) (hr : ρ.clocked? b = some reading) :
    ρ.told? b p = some reading ∧ ∃ code, ρ.frame = .measuring p (some code) := by
  obtain ⟨code, hf, -⟩ := Moment.exists_of_duration? hd
  cases code with
  | none =>
    rw [Moment.clocked?, hf] at hr
    cases hr
  | some code => exact ⟨by rw [Moment.told?, hf]; simpa using hr, code, hf⟩

theorem elapsed_le (pr : Promise H) {r r' : UInt64} (h : r ≤ r') :
    pr.elapsed r ≤ pr.elapsed r' := by
  rw [UInt64.le_iff_toNat_le] at h ⊢
  rw [pr.toNat_elapsed, pr.toNat_elapsed]
  omega

theorem le_stamp (pr : Promise H) (r : UInt64) : r ≤ pr.stamp r := by
  rw [UInt64.le_iff_toNat_le, pr.toNat_stamp]
  omega

/-! ## Calls that are not overtaken -/

/-- On a clock that never goes back, a duration call that finds the promise pending answers no more
than the completion takes, unless it is overtaken. -/
theorem Reached.running_le (hc : c.Reached b) (hfwd : c.Forward b p) (hρ : ρ ∈ c.past)
    (hd : ρ.duration? p = some d) (hr : ρ.clocked? b = some reading)
    (hp : c.machine.promise? p = some pr) (hne : pr.endTime ≠ 0) :
    pr.elapsed reading ≤ pr.endTime - pr.startTime ∨ c.Overtaken b p ρ := by
  obtain ⟨htold, hrunning⟩ := told_of_duration hd hr
  obtain ⟨ω, hω, time, hf⟩ := hc.exists_opening hp hne
  obtain ⟨r, hstamps, hend⟩ := hc.endTime_of_opening_mem hω hf hp
  obtain ⟨σ, hσ, code, -, hfσ, hrσ⟩ :=
    hc.exists_stamping hω hf (by rw [hstamps]; exact List.mem_cons_self)
  -- The two moments are told their readings in some order; the later reading is no smaller.
  by_cases hlt : σ.number < ρ.number
  · exact .inr ⟨hrunning, σ, hσ, code, hfσ, by rw [hrσ]; rfl, hlt⟩
  · refine .inl ?_
    have hnumber : ρ.number < σ.number := by
      refine Nat.lt_of_le_of_ne (Nat.not_lt.1 hlt) fun heq => ?_
      obtain rfl := hc.number_inj hσ hρ heq
      obtain ⟨code', hf'⟩ := hrunning
      rw [hfσ] at hf'
      cases hf'
    have htoldσ : σ.told? b p = some r := by
      rw [Moment.told?, hfσ]
      simpa using hrσ
    have hle : reading ≤ pr.endTime := by
      rw [hend]
      exact UInt64.le_trans (hfwd ρ hρ σ hσ hnumber reading htold r htoldσ) (le_stamp pr r)
    rw [← hc.elapsed_endTime hp hne]
    exact elapsed_le pr hle

/-- On a clock that never goes back, no duration call answers more than a later one, unless it is
overtaken. -/
theorem Reached.durations_le (hc : c.Reached b) (hfwd : c.Forward b p) (hρ : ρ ∈ c.past)
    (hρ' : ρ' ∈ c.past) (hd : ρ.duration? p = some d) (hd' : ρ'.duration? p = some d')
    (hlt : ρ.number < ρ'.call.entry) : d ≤ d' ∨ c.Overtaken b p ρ := by
  obtain ⟨pr, hp⟩ := hc.exists_promise_of_duration hρ hd
  have hentry := (hc.sound ρ' hρ').2.1
  cases hc.measured hρ hd hp with
  | @settled μ hlook hdone =>
    cases hc.measured hρ' hd' hp with
    | settled => exact .inl (UInt64.le_refl _)
    | @running μ' _ hlook' hpend =>
      -- The later call has looked when the promise was done.
      have hlater := (hc.sound μ' hlook'.mem).2.1
      rw [hlook'.call] at hlater
      have hnumber := hlook.number
      have hdone' := hc.isDone_of_number_lt hlook.mem hlook'.mem (by omega) hdone
      exact absurd (hpend.symm.trans hdone') Bool.false_ne_true
  | @running μ reading hlook hpend hr =>
    cases hc.measured hρ' hd' hp with
    | @settled μ' hlook' hdone =>
      obtain ⟨pr₀, hp₀, hd₀⟩ := Machine.isDone_iff_cells?.1 hdone
      have hcl := hc.climbs_of_mem hlook'.mem hp₀ hp
      have hne : pr.endTime ≠ 0 := Promise.endTime_ne_zero_iff.2 (hcl.isDone hd₀)
      exact hc.running_le hfwd hρ hd hr hp hne
    | @running μ' reading' _ _ hr' =>
      have hle := hfwd ρ hρ ρ' hρ' (by omega) reading (told_of_duration hd hr).1 reading'
        (told_of_duration hd' hr').1
      exact .inl (elapsed_le pr hle)

/-- On a clock that never goes back, durations settle, apart from calls that are overtaken: no call
answers more than one that starts later, and none answers more than the completion takes. -/
theorem durations_settle (hc : c.Reached b) (hfwd : c.Forward b p) :
    (∀ ρ ∈ c.past, ∀ ρ' ∈ c.past, ∀ d d', ρ.duration? p = some d → ρ'.duration? p = some d' →
      ρ.number < ρ'.call.entry → d ≤ d' ∨ c.Overtaken b p ρ) ∧
    ∀ ρ ∈ c.past, ∀ d pr, ρ.duration? p = some d → c.machine.promise? p = some pr →
      pr.endTime ≠ 0 → d ≤ pr.endTime - pr.startTime ∨ c.Overtaken b p ρ := by
  refine ⟨fun ρ hρ ρ' hρ' d d' hd hd' hlt => hc.durations_le hfwd hρ hρ' hd hd' hlt,
    fun ρ hρ d pr hd hp hne => ?_⟩
  cases hc.measured hρ hd hp with
  | settled => exact .inl (UInt64.le_refl _)
  | running _ _ hr => exact hc.running_le hfwd hρ hd hr hp hne

/-- A thread makes a promise, asks how long it has been pending, completes it and asks again. -/
def unhurried : (r : Role) → Nat → Act Tabled r
  | .task, 0 => .call (.build {}) 1
  | .task, 1 => .call (.duration 0) 2
  | .task, 2 => .call (.complete 0 (.value .unit)) 3
  | .task, 3 => .call (.duration 0) 4
  | .clock, 0 => .finish 5
  | r, _ => Tabled.quiet r

/-- The run up to the second answer. -/
def passing : Option (Chronicle Tabled) :=
  (Tabled.start [0]).turns? (Tabled.lateClocks unhurried) (List.replicate 21 (.step 0))

theorem durations_settle_passing : ∃ c pr, passing = some c ∧
    c.Reached (Tabled.lateClocks unhurried) ∧ c.Forward (Tabled.lateClocks unhurried) 0 ∧
    c.machine.promise? 0 = some pr ∧ pr.endTime ≠ 0 ∧
    c.past.filterMap (Moment.duration? 0) = [4, 4] ∧
    (∀ ρ ∈ c.past, ∀ ρ' ∈ c.past, ∀ d d', ρ.duration? 0 = some d → ρ'.duration? 0 = some d' →
      ρ.number < ρ'.call.entry → d ≤ d' ∨ c.Overtaken (Tabled.lateClocks unhurried) 0 ρ) ∧
    ∀ ρ ∈ c.past, ∀ d, ρ.duration? 0 = some d → d ≤ pr.endTime - pr.startTime ∨
      c.Overtaken (Tabled.lateClocks unhurried) 0 ρ := by
  have hrun : (passing.any fun c =>
      decide (c.Forward (Tabled.lateClocks unhurried) 0) &&
      ((c.machine.promise? 0).any fun pr => pr.endTime != 0) &&
      c.past.filterMap (Moment.duration? 0) == [4, 4]) = true := by
    decide +kernel
  obtain ⟨c, hc, hrun⟩ := (Option.any_eq_true _ _).1 hrun
  simp only [Bool.and_eq_true, beq_iff_eq, decide_eq_true_eq] at hrun
  obtain ⟨⟨hfwd, hpr⟩, hds⟩ := hrun
  obtain ⟨pr, hp, hne⟩ := (Option.any_eq_true _ _).1 hpr
  have hne : pr.endTime ≠ 0 := by simpa using hne
  have hreach := Tabled.reached hc
  obtain ⟨hle, hend⟩ := durations_settle hreach hfwd
  exact ⟨c, pr, hc, hreach, hfwd, hp, hne, hds, hle, fun ρ hρ d hd => hend ρ hρ d pr hd hp hne⟩

/-- The clock of that program never goes back. But the first duration call is overtaken: it answers
8 when the promise is done and has taken 2, and the next call answers 2. -/
theorem durations_decrease_overtaking : ∃ c pr ρ ρ', overtaking = some c ∧ c.Reached hasty ∧
    c.past.filterMap (Moment.clocked? hasty) = [1, 3, 9] ∧ c.Forward hasty 0 ∧
    ρ ∈ c.past ∧ ρ' ∈ c.past ∧ ρ.number < ρ'.call.entry ∧
    ρ.duration? 0 = some 8 ∧ ρ'.duration? 0 = some 2 ∧ ρ.after.isDone 0 = true ∧
    c.machine.promise? 0 = some pr ∧ pr.endTime - pr.startTime = 2 := by
  have hrun : (overtaking.any fun c =>
      c.past.filterMap (Moment.clocked? hasty) == [1, 3, 9] &&
      decide (c.Forward hasty 0) &&
      (c.past.any fun ρ => ρ.duration? 0 == some 8 && ρ.after.isDone 0 &&
        c.past.any fun ρ' => ρ'.duration? 0 == some 2 && decide (ρ.number < ρ'.call.entry)) &&
      (c.machine.promise? 0).any fun pr => pr.endTime - pr.startTime == 2) = true := by
    decide +kernel
  obtain ⟨c, hc, hrun⟩ := (Option.any_eq_true _ _).1 hrun
  simp only [Bool.and_eq_true, List.any_eq_true, beq_iff_eq, decide_eq_true_eq] at hrun
  obtain ⟨⟨⟨hclock, hfwd⟩, ρ, hρ, ⟨hd, hdone⟩, ρ', hρ', hd', hlt⟩, hpr⟩ := hrun
  obtain ⟨pr, hp, htook⟩ := (Option.any_eq_true _ _).1 hpr
  exact ⟨c, pr, ρ, ρ', hc, Tabled.reached hc, hclock, hfwd, hρ, hρ', hlt, hd, hd', hdone, hp,
    by simpa using htook⟩

end Chronicle

end OneShot
