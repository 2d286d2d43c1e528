import OneShot.Proofs.Completion.Course
import OneShot.Proofs.Reading.Sleep

/-!
# The times of a promise

Whatever the clock of a promise tells, and whenever, the promise starts when it was made, and it
ends when it was completed and never before it started. Zero stands for a promise that is pending,
so no end time is zero.

- **The end time** (`Reached.exists_opening`, `Reached.endTime_of_opening_mem`): it is zero until
  the latch is opened, and then it stands for the only reading of the winner.
- **What is logged** (`Reached.logged`).
- **Durations** (`Chronicle.Measured`, `Reached.measured`): from the end time if there is one when
  the call looks, else from a reading of its own. The call answers as soon as it has been told that
  (`Reached.answer_of_clocked`), and it is never stuck (`Reached.measuring_goes_on`).
- **All of it** (`Chronicle.Timed`, `keeps_time`).
-/

namespace OneShot

variable {H : Host} {b : Behaviour H}

namespace Chronicle

variable {c c' : Chronicle H} {ω ρ : Moment H} {p : PromiseId} {pr : Promise H} {time : UInt64}

/-! ## The end time -/

/-- What its clock has told to the completion calls of `p`. -/
def stamps (b : Behaviour H) (c : Chronicle H) (p : PromiseId) : List UInt64 :=
  (c.deeds b p).filterMap Deed.reading?

/-- A promise that has ended was opened. -/
theorem Reached.exists_opening (hc : c.Reached b) (hp : c.machine.promise? p = some pr)
    (hne : pr.endTime ≠ 0) : ∃ ω ∈ c.past, ∃ time, ω.frame = .completing p (.openLatch time) := by
  have hd := Machine.isDone_iff.2 ⟨pr, hp, Promise.endTime_ne_zero_iff.1 hne⟩
  clear hp hne
  induction c, hc using Reached.induction with
  | start m hm =>
    obtain ⟨pr, hp, -⟩ := Machine.isDone_iff.1 hd
    have hnone : m.promise? p = none := by simp [Machine.promise?, hm.promises]
    cases hnone.symm.trans hp
  | record c μ hc hμ hc' ih =>
    rcases hμ.opens hd with hd | ⟨time, hf⟩
    · obtain ⟨ω, hω, h⟩ := ih hd
      exact ⟨ω, mem_record_of_mem hω, h⟩
    · exact ⟨μ, mem_record_self, time, hf⟩

theorem Reached.endTime_of_opening_mem (hc : c.Reached b) (hω : ω ∈ c.past)
    (hf : ω.frame = .completing p (.openLatch time)) (hp : c.machine.promise? p = some pr) :
    ∃ r, c.stamps b p = [r] ∧ pr.endTime = pr.stamp r := by
  obtain ⟨s, hcourse⟩ := hc.course_of_moment hω hf hp
  obtain ⟨pr₀, -, hp₀, -, -⟩ := hc.moved ω hω p _ hf
  refine hcourse.of_opened (mem_deeds (d := .opened time) hω ?_)
  rw [(hc.sound ω hω).1.deeds_eq hf hp₀]
  exact List.mem_cons_self

/-- What is stamped was told to the call that has opened the latch. -/
theorem Reached.exists_stamping (hc : c.Reached b) (hω : ω ∈ c.past)
    (hf : ω.frame = .completing p (.openLatch time)) {r : UInt64} (hr : r ∈ c.stamps b p) :
    ∃ σ ∈ c.past, ∃ code, σ.call = ω.call ∧ σ.frame = .completing p (.stamp code) ∧
      σ.clocked? b = some r := by
  obtain ⟨d, hd, hread⟩ := List.mem_filterMap.1 hr
  obtain rfl : d = .read r := by cases d <;> cases hread; rfl
  obtain ⟨σ, hσ, hd⟩ := List.mem_flatMap.1 hd
  obtain ⟨code, hfσ, hr⟩ := Moment.read_of_mem_deeds hd
  obtain ⟨w, o, r', hw⟩ := hc.exists_won hω hf
  refine ⟨σ, hσ, code, ?_, hfσ, hr⟩
  rw [hw.call_eq hσ hfσ nofun, hw.call_eq hω hf nofun]

theorem Reached.endTime_of_isDone (hc : c.Reached b) (hp : c.machine.promise? p = some pr)
    (hd : pr.endTime ≠ 0) : ∃ r, c.stamps b p = [r] ∧ pr.endTime = pr.stamp r := by
  obtain ⟨ω, hω, time, hf⟩ := hc.exists_opening hp hd
  exact hc.endTime_of_opening_mem hω hf hp

theorem startTime_le_stamp (pr : Promise H) (r : UInt64) : pr.startTime ≤ pr.stamp r := by
  rw [UInt64.le_iff_toNat_le, pr.toNat_stamp]
  omega

/-! ## What is logged -/

/-- The completion of `p` is logged when it is done, with the time that it took. -/
theorem Reached.logged (hc : c.Reached b) {d : UInt64} (hd : d ∈ c.past.flatMap (Moment.traces p)) :
    ∃ pr, c.machine.promise? p = some pr ∧ pr.endTime ≠ 0 ∧ d = pr.endTime - pr.startTime := by
  obtain ⟨α, hα, hdα⟩ := List.mem_flatMap.1 hd
  have hf : α.frame = .completing p .announce := by
    by_contra hf
    rw [(hc.sound α hα).1.traces_of_ne hf] at hdα
    cases hdα
  obtain ⟨w, o, r, hw⟩ := hc.exists_won hα hf
  obtain ⟨pr', s', hp', hcourse, -⟩ := hc.course hw
  obtain ⟨pr, hp, rfl⟩ := Option.map_eq_some_iff.1 hp'
  have hmem : .traced d ∈ α.deeds b p :=
    List.mem_append_right _ (List.mem_map.2 ⟨d, hdα, rfl⟩)
  exact ⟨pr, hp, hcourse.of_traced (mem_deeds hα hmem)⟩

/-! ## Durations -/

/-- At moment `μ` the duration call of `ρ` has looked at the end time, which it does once. -/
structure Looks (c : Chronicle H) (p : PromiseId) (μ ρ : Moment H) : Prop where
  mem : μ ∈ c.past
  call : μ.call = ρ.call
  frame : μ.frame = .measuring p none
  number : μ.number ≤ ρ.number
  only : ∀ μ' ∈ c.past, μ'.call = ρ.call → μ'.frame = .measuring p none → μ' = μ

/-- What a duration call has answered at `ρ`, where `pr` is the promise. If the promise was done
when the call looked, that is how long it took. Else it is how long it was pending when the clock
told something to the call. -/
inductive Measured (b : Behaviour H) (c : Chronicle H) (p : PromiseId) (pr : Promise H)
    (ρ : Moment H) : UInt64 → Prop
  | settled {μ} (hμ : c.Looks p μ ρ) (hd : μ.before.isDone p = true) :
    Measured b c p pr ρ (pr.endTime - pr.startTime)
  | running {μ reading} (hμ : c.Looks p μ ρ) (hd : μ.before.isDone p = false)
    (hr : ρ.clocked? b = some reading) :
    Measured b c p pr ρ (if reading < pr.startTime then 0 else reading - pr.startTime)

/-- Each moment of a duration call comes after its look, or is this. -/
theorem Reached.exists_looks (hc : c.Reached b) (hρ : ρ ∈ c.past) {code : Option (H.Code .clock)}
    (hf : ρ.frame = .measuring p code) :
    ∃ μ, c.Looks p μ ρ ∧ (code = none → μ = ρ) ∧ (code ≠ none → μ.before.isDone p = false) := by
  cases code with
  | none =>
    exact ⟨ρ, ⟨hρ, rfl, hf, Nat.le_refl _, fun μ' hμ' hi hf' => hc.look_unique hρ hμ' hi hf hf'⟩,
      fun _ => rfl, fun h => absurd rfl h⟩
  | some code =>
    obtain ⟨c₀, hc₀, h, hmono, -⟩ := hc.extends_of_mem hρ
    obtain ⟨hnone, -⟩ | ⟨-, μ, hμ, hi, hfμ, hd⟩ :=
      hc₀.measuring (by rw [h.frame? hc₀.tracked, hf])
    · cases hnone
    · have hle : μ.number ≤ ρ.number := by
        have hμle := (hc₀.sound μ hμ).2.2
        have hρn := h.number
        omega
      exact ⟨μ, ⟨hmono μ hμ, hi, hfμ, hle, fun μ' hμ' hi' hf' =>
        hc.look_unique (hmono μ hμ) hμ' (hi'.trans hi.symm) hfμ hf'⟩, nofun, fun _ => hd⟩

theorem Reached.exists_climbs (hc : c.Reached b) (hρ : ρ ∈ c.past) {pr₀ : Promise H}
    (hp₀ : ρ.before.cells? p = some pr₀) :
    ∃ pr, c.machine.promise? p = some pr ∧ pr₀.Climbs pr.bare := by
  obtain ⟨c₀, hc₀, h, hturn, hl⟩ := hc.reaches_of_mem hρ
  rw [h.before] at hp₀
  obtain ⟨pr₁, hp₁, rfl⟩ := Option.map_eq_some_iff.1 hp₀
  obtain ⟨pr, hp, hcl⟩ := hc₀.climbs (hturn.trans hl) hp₁
  exact ⟨pr, hp, hcl.startTime, hcl.status, hcl.outcome, hcl.endTime, hcl.taken, hcl.drained⟩

theorem Reached.climbs_of_mem (hc : c.Reached b) (hρ : ρ ∈ c.past) {pr₀ : Promise H}
    (hp₀ : ρ.before.cells? p = some pr₀) (hp : c.machine.promise? p = some pr) :
    pr₀.Climbs pr.bare := by
  obtain ⟨pr', hp', hcl⟩ := hc.exists_climbs hρ hp₀
  obtain rfl := Option.some.inj (hp'.symm.trans hp)
  exact hcl

/-- The time between the start and the end is what is left when the start is taken off the end. -/
theorem Reached.elapsed_endTime (hc : c.Reached b) (hp : c.machine.promise? p = some pr)
    (hd : pr.endTime ≠ 0) : pr.elapsed pr.endTime = pr.endTime - pr.startTime := by
  obtain ⟨r, -, hr⟩ := hc.endTime_of_isDone hp hd
  rw [Promise.elapsed, if_neg]
  rw [UInt64.not_lt, hr]
  exact startTime_le_stamp pr r

/-- A duration call that finds the promise done answers at once. -/
theorem Reached.duration_of_isDone (hc : c.Reached b) (hρ : ρ ∈ c.past)
    (hf : ρ.frame = .measuring p none) (hd : ρ.before.isDone p = true)
    (hp : c.machine.promise? p = some pr) :
    ρ.next = .answer (.time (pr.endTime - pr.startTime)) := by
  obtain ⟨pr₀, hp₀, hd₀⟩ := Machine.isDone_iff_cells?.1 hd
  have hcl := hc.climbs_of_mem hρ hp₀ hp
  have hend : pr.endTime = pr₀.endTime := hcl.endTime (Promise.endTime_ne_zero_iff.2 hd₀)
  have hne : pr.endTime ≠ 0 := hend ▸ Promise.endTime_ne_zero_iff.2 hd₀
  have hm := (hc.sound ρ hρ).1.measuring hf
  generalize ρ.next = n at hm ⊢
  cases hm with
  | settled hp₁ _ =>
    obtain rfl := Option.some.inj (hp₁.symm.trans hp₀)
    rw [← hc.elapsed_endTime hp hne, hend]
    exact congrArg _ (congrArg _ (by rw [Promise.elapsed, Promise.elapsed, ← hcl.startTime]; rfl))
  | ask hp₁ hd₁ =>
    obtain rfl := Option.some.inj (hp₁.symm.trans hp₀)
    exact absurd (hd₁.symm.trans hd₀) Bool.false_ne_true

/-- A duration call that finds the promise pending asks its clock. -/
theorem Reached.asks_of_not_isDone (hc : c.Reached b) (hρ : ρ ∈ c.past)
    (hf : ρ.frame = .measuring p none) (hd : ρ.before.isDone p = false)
    (hp : c.machine.promise? p = some pr) :
    ρ.next = .goto (.measuring p (some (H.invoke .clock pr.clock ()))) := by
  have hm := (hc.sound ρ hρ).1.measuring hf
  generalize ρ.next = n at hm ⊢
  cases hm with
  | settled hp₀ hdone =>
    rw [Machine.isDone_iff_cells?.2 ⟨_, hp₀, hdone⟩] at hd
    cases hd
  | @ask pr₀ hp₀ =>
    -- The clock of a promise is the one that it was made with.
    obtain ⟨pr₁, hp₁, hmade⟩ := hc.made_since hρ hp₀
    obtain rfl := Option.some.inj (hp₁.symm.trans (Machine.cells?_eq_some hp))
    obtain ⟨hclock, -⟩ := Promise.eq_of_made_eq hmade
    rw [← hclock]
    rfl

/-- A duration call that its clock has told something answers how much later than the start that
is. -/
theorem Reached.answer_of_clocked (hc : c.Reached b) (hρ : ρ ∈ c.past) {code : H.Code .clock}
    (hf : ρ.frame = .measuring p (some code)) {reading : UInt64}
    (hr : ρ.clocked? b = some reading) (hp : c.machine.promise? p = some pr) :
    ρ.next = .answer (.time (if reading < pr.startTime then 0 else reading - pr.startTime)) := by
  have hm := (hc.sound ρ hρ).1.measuring hf
  generalize ρ.next = n at hm ⊢
  cases hm with
  | run hnone | panic hnone => cases hnone.symm.trans hr
  | tell hp₀ hr₀ =>
    obtain rfl := Option.some.inj (hr₀.symm.trans hr)
    have hcl := hc.climbs_of_mem hρ hp₀ hp
    rw [Promise.elapsed, ← hcl.startTime]
    rfl

/-- A duration call waits for nobody: on top of its thread it can make its next step. -/
theorem Reached.measuring_goes_on (hc : c.Reached b) {i : CallId} {code : Option (H.Code .clock)}
    (hi : c.frame? i = some (.measuring p code)) (hp : c.machine.promise? p = some pr)
    (htop : (c.calls i.thread).head? = some i) (hab : c.machine.aborted = false) :
    ∃ m, c.machine.step b i.thread = some m := by
  obtain ⟨k, rest, token, ht, hk, -⟩ := hc.top hi htop hab
  refine Machine.exists_step hab ht ?_
  cases code with
  | none =>
    rw [hk.resolve_right Bool.false_ne_true]
    simp only [Frame.step, Machine.stepMeasuring, Machine.runStage, hp, Option.bind_eq_bind,
      Option.bind_some]
    split <;> rfl
  | some code =>
    refine Machine.isSome_runCode fun m₁ v hm => ?_
    rw [hm.promise?, hp]
    rfl

/-- What a duration call answers. -/
theorem Reached.measured (hc : c.Reached b) (hρ : ρ ∈ c.past) {d : UInt64}
    (hd : ρ.duration? p = some d) (hp : c.machine.promise? p = some pr) :
    c.Measured b p pr ρ d := by
  obtain ⟨code, hf, hn⟩ := Moment.exists_of_duration? hd
  obtain ⟨μ, hlook, hself, hpend⟩ := hc.exists_looks hρ hf
  have hm := (hc.sound ρ hρ).1.measuring hf
  cases code with
  | none =>
    obtain rfl := hself rfl
    have hdone : μ.before.isDone p = true := by
      generalize μ.next = n at hm hn
      cases hm with
      | settled hp₀ hd => exact Machine.isDone_iff_cells?.2 ⟨_, hp₀, hd⟩
      | ask => cases hn
    have hsettled := hc.duration_of_isDone hρ hf hdone hp
    rw [hn] at hsettled
    cases hsettled
    exact .settled hlook hdone
  | some code =>
    cases hr : ρ.clocked? b with
    | some reading =>
      have hans := hc.answer_of_clocked hρ hf hr hp
      rw [hn] at hans
      cases hans
      exact .running hlook (hpend nofun) hr
    | none =>
      -- A call whose clock has told nothing does not answer.
      generalize ρ.next = n at hm hn
      cases hm with
      | run _ hown => rw [hn] at hown; cases hown
      | tell _ hr' => cases hr.symm.trans hr'
      | panic => cases hn

/-! ## All of it -/

/-- The times of promise `p` in a run, where `pr` is what it is in the end. -/
structure Timed (b : Behaviour H) (c : Chronicle H) (p : PromiseId) (pr : Promise H) : Prop where
  /-- The start time is what the clock told when the promise was made, which it was once. -/
  made : ∃ κ ∈ c.past, (∃ pr₀, κ.Makes b p pr₀) ∧ κ.clocked? b = some pr.startTime ∧
    ∀ κ' ∈ c.past, ∀ pr₀, κ'.Makes b p pr₀ → κ' = κ
  /-- The end time is zero until the latch is opened. -/
  pending : (∀ ω ∈ c.past, ∀ time, ω.frame ≠ .completing p (.openLatch time)) → pr.endTime = 0
  /-- From then on it stands for the only reading of the call that opened it. -/
  opened : ∀ ω ∈ c.past, ∀ time, ω.frame = .completing p (.openLatch time) →
    ∃ reading, c.stamps b p = [reading] ∧ pr.endTime = max (max reading pr.startTime) 1 ∧
      ∃ σ ∈ c.past, ∃ code, σ.call = ω.call ∧ σ.frame = .completing p (.stamp code) ∧
        σ.clocked? b = some reading
  /-- Neither time changes once it is there. -/
  kept : ∀ c', c.Reaches b c' → ∃ pr', c'.machine.promise? p = some pr' ∧
    pr'.startTime = pr.startTime ∧ (pr.endTime ≠ 0 → pr'.endTime = pr.endTime)
  /-- No promise ends before it starts. -/
  ordered : pr.endTime ≠ 0 → pr.startTime ≤ pr.endTime
  /-- What is logged of the completion is the time from the start to the end. -/
  logged : ∀ d ∈ c.past.flatMap (Moment.traces p), pr.endTime ≠ 0 ∧
    d = pr.endTime - pr.startTime ∧ d.toNat = pr.endTime.toNat - pr.startTime.toNat
  /-- A duration call that finds the promise done answers that at once. -/
  settled : ∀ μ ∈ c.past, μ.frame = .measuring p none → μ.before.isDone p = true →
    μ.next = .answer (.time (pr.endTime - pr.startTime))
  /-- One that finds the promise pending asks its clock. -/
  asks : ∀ μ ∈ c.past, μ.frame = .measuring p none → μ.before.isDone p = false →
    μ.next = .goto (.measuring p (some (H.invoke .clock pr.clock ())))
  /-- When the clock tells something, the call answers at once how much later than the start that
  is. -/
  told : ∀ ρ ∈ c.past, ∀ code reading, ρ.frame = .measuring p (some code) →
    ρ.clocked? b = some reading →
    ρ.next = .answer (.time (if reading < pr.startTime then 0 else reading - pr.startTime))
  /-- A duration call is never stuck: on top of its thread it can make its next step. -/
  goes_on : ∀ i code, c.frame? i = some (.measuring p code) →
    (c.calls i.thread).head? = some i → c.machine.aborted = false →
    ∃ m, c.machine.step b i.thread = some m
  /-- The answer of a duration call depends on what it finds, and on its own reading if it asks the
  clock. -/
  measured : ∀ ρ ∈ c.past, ∀ d, ρ.duration? p = some d → c.Measured b p pr ρ d

/-- Whatever clocks tell and whatever the threads do, every promise keeps the start time that its
clock told when it was made. Its end time is zero until the latch is opened, and from then on it is
the only reading of the winner, or the start time if that is later, and at least one. So no promise
ends before it starts, what is logged is the time between the two, and a duration call answers the
same if it finds the promise done. A call that finds it pending asks the clock, and as soon as that
has told something, the call answers how much later than the start its own reading is. -/
theorem keeps_time (hc : c.Reached b) (hp : c.machine.promise? p = some pr) :
    c.Timed b p pr := by
  have hordered : pr.endTime ≠ 0 → pr.startTime ≤ pr.endTime := fun hd => by
    obtain ⟨r, -, hr⟩ := hc.endTime_of_isDone hp hd
    rw [hr]
    exact startTime_le_stamp pr r
  refine ⟨?_, fun hclosed => ?_, fun ω hω time hf => ?_, fun c' hl => ?_, hordered, fun d hd => ?_,
    fun μ hμ hf hd => hc.duration_of_isDone hμ hf hd hp,
    fun μ hμ hf hd => hc.asks_of_not_isDone hμ hf hd hp,
    fun ρ hρ code reading hf hr => hc.answer_of_clocked hρ hf hr hp,
    fun i code hi htop hab => hc.measuring_goes_on hi hp htop hab,
    fun ρ hρ d hd => hc.measured hρ hd hp⟩
  · obtain ⟨κ, hκ, pr₀, hmakes, hmade⟩ := hc.exists_makes (Machine.cells?_eq_some hp)
    have hstart : pr.startTime = pr₀.startTime := by
      change pr.bare.made.startTime = pr₀.made.startTime
      rw [hmade]
    exact ⟨κ, hκ, ⟨pr₀, hmakes⟩, by rw [hstart]; exact hmakes.clocked,
      fun κ' hκ' pr₁ hmakes' => hc.makes_unique hκ hmakes hκ' hmakes'⟩
  · by_contra hd
    obtain ⟨ω, hω, time, hf⟩ := hc.exists_opening hp hd
    exact hclosed ω hω time hf
  · obtain ⟨r, hstamps, hend⟩ := hc.endTime_of_opening_mem hω hf hp
    exact ⟨r, hstamps, hend, hc.exists_stamping hω hf (by rw [hstamps]; exact List.mem_cons_self)⟩
  · obtain ⟨pr', hp', hcl⟩ := hc.climbs hl hp
    exact ⟨pr', hp', hcl.startTime, hcl.endTime⟩
  · obtain ⟨pr', hp', hne, rfl⟩ := hc.logged hd
    obtain rfl := Option.some.inj (hp'.symm.trans hp)
    exact ⟨hne, rfl, UInt64.toNat_sub_of_le _ _ (hordered hne)⟩

/-- A program with one thread that makes a promise, asks twice how long it has been pending and
completes it. The clock tells 1 when the promise is made. When it is asked for the first time after
that, it completes the promise itself before it tells 9, and it tells 3 to all others. -/
def hasty : Behaviour Tabled where
  resume m _ r code _ := { state := (), act :=
    match r, code with
    | .task, 0 => .call (.build {}) 1
    | .task, 1 => .call (.duration 0) 2
    | .task, 2 => .call (.duration 0) 3
    | .clock, 0 =>
      match m.status? 0 with
      | none => .finish 1
      | some .init => .call (.complete 0 (.value .unit)) 1
      | some _ => .finish 3
    | .clock, 1 => .finish 9
    | r, _ => Tabled.quiet r }

/-- The first duration call has its promise completed while it asks the clock. -/
def overtaking : Option (Chronicle Tabled) :=
  (Tabled.start [0]).turns? hasty (List.replicate 22 (.step 0))

theorem keeps_time_overtaking : ∃ c pr, overtaking = some c ∧ c.Reached hasty ∧
    c.machine.promise? 0 = some pr ∧ pr.startTime = 1 ∧ pr.endTime = 3 ∧
    c.past.filterMap (Moment.duration? 0) = [8, 2] ∧ c.past.flatMap (Moment.traces 0) = [2] ∧
    c.Timed hasty 0 pr := by
  have hrun : (overtaking.any fun c =>
      ((c.machine.promise? 0).any fun pr => pr.startTime == 1 && pr.endTime == 3) &&
      c.past.filterMap (Moment.duration? 0) == [8, 2] &&
      c.past.flatMap (Moment.traces 0) == [2]) = true := by
    decide +kernel
  obtain ⟨c, hc, hrun⟩ := (Option.any_eq_true _ _).1 hrun
  simp only [Bool.and_eq_true, beq_iff_eq] at hrun
  obtain ⟨⟨hpr, hds⟩, htraces⟩ := hrun
  obtain ⟨pr, hp, hpr⟩ := (Option.any_eq_true _ _).1 hpr
  simp only [Bool.and_eq_true, beq_iff_eq] at hpr
  have hreach := Tabled.reached hc
  exact ⟨c, pr, hc, hreach, hp, hpr.1, hpr.2, hds, htraces, keeps_time hreach hp⟩

end Chronicle

end OneShot
