import OneShot.Proofs.Listener.Registration
import OneShot.Proofs.Reading.Stages
import OneShot.Proofs.Waking.Waits

/-!
# The phases of a completion

A completion changes five cells of its promise one after the other, with code of the program running
in between. This module says that the cells keep to that order whatever happens, be it a panic half
way, and that none of them goes back.

- **Nested phases** (`Promise.Nested`, `Reached.nested`): drained, taken, open, stored, claimed;
  each of them stands for all that come after it in this list.
- **No way back** (`Promise.Climbs`, `Reached.climbs`): over one moment (`Extends.climbs`), and so
  over every run.
- **What relies on the order** (`phases_nested`): reads, polls and registrations.
-/

namespace OneShot

variable {H : Host} {b : Behaviour H}

namespace Promise

variable {pr pr' pr'' : Promise H}

theorem endTime_ne_zero_iff : pr.endTime ≠ 0 ↔ pr.isDone = true := by
  simp [endTime, isDone, Latch.isOpen]

/-! ## Nested phases -/

/-- Each phase of a completion stands for those before it, and the status fits the outcome. -/
structure Nested (pr : Promise H) : Prop where
  taken : pr.listeners.data.isDrained = true → pr.wakers.data.taken = true
  opened : pr.wakers.data.taken = true → pr.endTime ≠ 0
  stored : pr.endTime ≠ 0 → ∃ o, pr.outcome = some o
  claimed : ∀ o, pr.outcome = some o → pr.status ≠ .init
  cancelled : ∀ o, pr.outcome = some o → (pr.status = .cancelled ↔ o = .cancelled)

theorem Pending.nested (h : pr.Pending) : pr.Nested := by
  constructor
  · simp [h.drained]
  · simp [h.taken]
  · simp [endTime_ne_zero_iff, h.isDone]
  · simp [h.outcome]
  · simp [h.outcome]

theorem Shows.nested {o : Outcome} {r : Progress} (h : pr.Shows o r) : pr.Nested := by
  have hstored : ∀ o', pr.outcome = some o' → o' = o := by
    intro o' ho
    rw [h.outcome] at ho
    split at ho
    · cases ho
    · exact (Option.some.inj ho).symm
  constructor
  · rw [h.drained, h.taken]
    cases r <;> simp [Progress.isDrained, Progress.isTaken]
  · rw [h.taken, endTime_ne_zero_iff, h.isDone]
    cases r <;> simp [Progress.isTaken, Progress.isOpen]
  · rw [endTime_ne_zero_iff, h.isDone, h.outcome]
    cases r <;> simp [Progress.isOpen]
  · intro o' _
    rw [h.status]
    exact o.status_ne_init
  · intro o' ho
    rw [h.status, hstored o' ho]
    exact o.status_eq_cancelled_iff

/-! ## No way back -/

/-- `pr'` is what has become of `pr`: its start time is the same, and no phase was undone or made
again. -/
structure Climbs (pr pr' : Promise H) : Prop where
  startTime : pr'.startTime = pr.startTime
  status : pr.status ≠ .init → pr'.status = pr.status
  outcome : ∀ o, pr.outcome = some o → pr'.outcome = some o
  endTime : pr.endTime ≠ 0 → pr'.endTime = pr.endTime
  taken : pr.wakers.data.taken = true → pr'.wakers.data.taken = true
  drained : pr.listeners.data.isDrained = true → pr'.listeners.data.isDrained = true

theorem Climbs.refl (pr : Promise H) : pr.Climbs pr :=
  ⟨rfl, fun _ => rfl, fun _ h => h, fun _ => rfl, fun h => h, fun h => h⟩

theorem Climbs.trans (h : pr.Climbs pr') (h' : pr'.Climbs pr'') : pr.Climbs pr'' := by
  constructor
  · rw [h'.startTime, h.startTime]
  · intro hs
    rw [h'.status (by rw [h.status hs]; exact hs), h.status hs]
  · exact fun o ho => h'.outcome o (h.outcome o ho)
  · intro ht
    rw [h'.endTime (by rw [h.endTime ht]; exact ht), h.endTime ht]
  · exact fun ht => h'.taken (h.taken ht)
  · exact fun hd => h'.drained (h.drained hd)

theorem Climbs.isDone (h : pr.Climbs pr') (hd : pr.isDone = true) : pr'.isDone = true := by
  rw [← endTime_ne_zero_iff] at hd ⊢
  rwa [h.endTime hd]

/-- No change of a promise undoes a phase, if its latch opens only once. -/
theorem Change.climbs {m : Machine H} {p : PromiseId} {f : Frame H} {n : Next H}
    (h : Promise.Change m p f n (some pr) (some pr'))
    (ho : ∀ time, f = .completing p (.openLatch time) → pr.endTime = 0) : pr.Climbs pr' := by
  have ⟨hstart, hst, hout, hend, htaken, hdrained⟩ := Climbs.refl pr
  cases h with
  | same => exact .refl pr
  | claim hi => exact ⟨hstart, fun hs => absurd hi hs, hout, hend, htaken, hdrained⟩
  | store hn =>
    refine ⟨hstart, hst, fun o ho => ?_, hend, htaken, hdrained⟩
    rw [hn] at ho
    cases ho
  | openLatch => exact ⟨hstart, hst, hout, fun hne => absurd (ho _ rfl) hne, htaken, hdrained⟩
  | takeWakers => exact ⟨hstart, hst, hout, hend, fun _ => rfl, hdrained⟩
  | drain => exact ⟨hstart, hst, hout, hend, htaken, fun _ => rfl⟩
  | enroll => exact ⟨hstart, hst, hout, hend, htaken, fun hd => by simpa using hd⟩
  | register => exact ⟨hstart, hst, hout, hend, fun ht => by simpa using ht, hdrained⟩
  | remove => exact ⟨hstart, hst, hout, hend, htaken, hdrained⟩

end Promise

namespace Chronicle

variable {c : Chronicle H} {μ : Moment H} {p : PromiseId} {pr : Promise H}

/-- The phases of a promise are nested at every time of a run. -/
theorem Reached.nested (hc : c.Reached b) (hp : c.machine.promise? p = some pr) : pr.Nested := by
  have h : pr.bare.Nested := by
    rcases hc.shows (Machine.cells?_eq_some hp) with h | ⟨o, r, h⟩
    · exact h.nested
    · exact h.nested
  exact ⟨h.taken, h.opened, h.stored, h.claimed, h.cancelled⟩

/-- A latch that is about to be opened is still closed. -/
theorem Reached.endTime_of_opening (hc : c.Reached b) (hp : c.machine.cells? p = some pr)
    {i : CallId} {time : UInt64} (hi : c.frame? i = some (.completing p (.openLatch time))) :
    pr.endTime = 0 := by
  suffices hd : pr.isDone = false by
    by_contra hne
    rw [Promise.endTime_ne_zero_iff.1 hne] at hd
    cases hd
  cases hc.contest p with
  | unclaimed hu => exact (hu.cells pr hp).isDone
  | @won w o r hw =>
    obtain ⟨pr₀, hp₀, hsh⟩ := hw.cells
    obtain rfl : pr₀ = pr := Option.some.inj (hp₀.symm.trans hp)
    by_cases hiw : i = w
    · obtain ⟨s, hs, hat⟩ := hw.winner _ (hiw ▸ hi)
      cases hs
      cases hat
      exact hsh.isDone
    · obtain ⟨o', ho'⟩ := hw.others i _ hi hiw
      cases ho'

theorem Extends.climbs (hc : c.Reached b) (h : c.Extends b μ)
    (hp : c.machine.cells? p = some pr) :
    ∃ pr', μ.after.cells? p = some pr' ∧ pr.Climbs pr' := by
  have hch := h.made.effect.promise p
  rw [h.before, hp] at hch
  obtain ⟨pr', hp'⟩ := hch.exists_after
  rw [hp'] at hch
  refine ⟨pr', hp', hch.climbs fun time hf => ?_⟩
  apply hc.endTime_of_opening hp
  rw [h.frame? hc.tracked, hf]

/-- No run takes a promise back. -/
theorem Reached.climbs {c' : Chronicle H} (hc : c.Reached b) (hl : c.Reaches b c')
    (hp : c.machine.promise? p = some pr) :
    ∃ pr', c'.machine.promise? p = some pr' ∧ pr.Climbs pr' := by
  have hcells : ∃ pr', c'.machine.cells? p = some pr' ∧ pr.bare.Climbs pr' := by
    induction hl with
    | refl => exact ⟨pr.bare, Machine.cells?_eq_some hp, .refl _⟩
    | tail e hl he ih =>
      obtain ⟨pr₁, hp₁, h₁⟩ := ih
      have hr := hc.reaches hl
      obtain ⟨μ, hμ, rfl⟩ := exists_extends_of_turn? hr.tracked he
      obtain ⟨pr₂, hp₂, h₂⟩ := hμ.climbs hr hp₁
      exact ⟨pr₂, hp₂, h₁.trans h₂⟩
  obtain ⟨_, hcell, h⟩ := hcells
  obtain ⟨pr', hp', rfl⟩ := Option.map_eq_some_iff.1 hcell
  exact ⟨pr', hp', h.startTime, h.status, h.outcome, h.endTime, h.taken, h.drained⟩

/-! ## What relies on the order -/

theorem Reached.settled_of_isDone (hc : c.Reached b) (hp : c.machine.promise? p = some pr)
    (hd : pr.isDone = true) : ∃ o, pr.settled = some o ∧ c.machine.outcome? p = some o := by
  obtain ⟨o, ho⟩ := (hc.nested hp).stored (Promise.endTime_ne_zero_iff.2 hd)
  exact ⟨o, by rw [Promise.settled, if_pos hd, ho], by rw [Machine.outcome?, hp]; exact ho⟩

/-- A read that fetches the outcome finds it. -/
theorem Reached.fetched (hc : c.Reached b) (hμ : μ ∈ c.past) {limited : Bool}
    (hf : μ.frame = .reading p limited .fetch) :
    ∃ o, μ.before.outcome? p = some o ∧ μ.next = .answer (.read o.read) := by
  obtain ⟨c₀, hc₀, h, -, -⟩ := hc.extends_of_mem hμ
  have hi : c₀.frame? μ.call = some (.reading p limited .fetch) := by
    rw [h.frame? hc₀.tracked, hf]
  have hm := (h.sound hc₀.tracked).reading hf
  rw [h.before] at hm ⊢
  generalize μ.next = n at hm ⊢
  cases hm with
  | «open» hs => rcases hs with hs | hs <;> cases hs
  | @fetch pr o hp ho =>
    refine ⟨o, ?_, rfl⟩
    obtain ⟨o', ho', hout⟩ := hc₀.settled_of_isDone hp (by
      by_contra hd
      simp [Promise.settled, hd] at ho)
    rw [ho] at ho'
    rw [hout, Option.some.inj ho']
  | early hp ho => exact absurd (.fetch hp ho) (hc₀.not_impossible hi)

/-- A poll that looks again finds the outcome. -/
theorem Reached.reread (hc : c.Reached b) (hμ : μ ∈ c.past) {v : WaitId} {x : H.Closure .waker}
    (hf : μ.frame = .polling v x .reread) :
    ∃ wait o, μ.before.wait? v = some wait ∧ μ.before.outcome? wait.promise = some o ∧
      μ.next = .answer (.polled (some o.read)) := by
  obtain ⟨c₀, hc₀, h, -, -⟩ := hc.extends_of_mem hμ
  obtain ⟨wait, hw, hd⟩ := hc₀.assured μ.call _ (by rw [h.frame? hc₀.tracked, hf])
  obtain ⟨pr, hp, hd⟩ := Machine.isDone_iff.1 hd
  obtain ⟨o, ho, hout⟩ := hc₀.settled_of_isDone hp hd
  refine ⟨wait, o, by rw [h.before, hw], by rw [h.before, hout], ?_⟩
  have hk := h.control hc₀.tracked
  cases h.made with
  | step _ _ hs _ =>
    rw [hf] at hs hk
    rw [h.before, hk.resolve_right Bool.false_ne_true] at hs
    simp [Frame.step, Polling.step, Machine.runStage, hw, hp, Promise.tryGet, ho] at hs
    exact hs.2.symm
  | wake _ hf' => rw [hf] at hf'; cases hf'

theorem Reached.registry_of_pending (hc : c.Reached b) (hp : c.machine.cells? p = some pr)
    (hd : pr.isDone = false) : pr.listeners.data.isDrained = false := by
  cases hdr : pr.listeners.data.isDrained with
  | false => rfl
  | true =>
    rw [hc.isDone_of_drained hp hdr] at hd
    cases hd

/-- A registration that finds the promise pending under the guard stores its listener. -/
theorem Reached.enrolled (hc : c.Reached b) (hμ : μ ∈ c.past) {l : Listener H} {closing : Closing}
    (hf : μ.frame = .registering p (.enroll l) closing) :
    ∃ pr, μ.before.promise? p = some pr ∧
      (pr.isDone = false → pr.listeners.data.isDrained = false ∧
        μ.next = .answer (closing.answer (.ok ()))) := by
  obtain ⟨c₀, hc₀, h, -, -⟩ := hc.extends_of_mem hμ
  have hm := (h.sound hc₀.tracked).registering hf
  rw [h.before] at hm ⊢
  generalize μ.control = k, μ.next = n, μ.after.cells? p = x' at hm ⊢
  cases hm with
  | store hcell hd hr =>
    obtain ⟨pr, hp, rfl⟩ := Option.map_eq_some_iff.1 hcell
    exact ⟨pr, hp, fun _ => ⟨hr, rfl⟩⟩
  | hand hcell hd =>
    have hreg := hc₀.registry_of_pending hcell
    obtain ⟨pr, hp, rfl⟩ := Option.map_eq_some_iff.1 hcell
    refine ⟨pr, hp, fun hpend => ?_⟩
    rcases hd with hd | hdr
    · exact absurd (hd.symm.trans hpend) (by simp)
    · exact absurd (hdr.symm.trans (hreg hpend)) (by simp)

/-- Whatever the threads do, and wherever code of the program panics: the phases of every promise
are nested, none of them is ever undone, and neither the start time nor an end time changes. So a
promise that was seen done shows its outcome at every later look. A read that has waited for the
latch fetches the outcome, a poll that could not leave its waker finds it, and a registration that
finds the promise pending while it holds the guard finds the registry still there. -/
theorem phases_nested (hc : c.Reached b) :
    (∀ p pr, c.machine.promise? p = some pr → pr.Nested ∧
      ∀ c', c.Reaches b c' → ∃ pr', c'.machine.promise? p = some pr' ∧ pr.Climbs pr' ∧
        (pr.isDone = true → ∃ o, pr'.settled = some o)) ∧
    ∀ μ ∈ c.past,
      (∀ p limited, μ.frame = .reading p limited .fetch →
        ∃ o, μ.before.outcome? p = some o ∧ μ.next = .answer (.read o.read)) ∧
      (∀ v x, μ.frame = .polling v x .reread →
        ∃ wait o, μ.before.wait? v = some wait ∧ μ.before.outcome? wait.promise = some o ∧
          μ.next = .answer (.polled (some o.read))) ∧
      ∀ p l closing, μ.frame = .registering p (.enroll l) closing →
        ∃ pr, μ.before.promise? p = some pr ∧
          (pr.isDone = false → pr.listeners.data.isDrained = false ∧
            μ.next = .answer (closing.answer (.ok ()))) := by
  refine ⟨fun p pr hp => ⟨hc.nested hp, fun c' hl => ?_⟩, fun μ hμ => ⟨?_, ?_, ?_⟩⟩
  · obtain ⟨pr', hp', hcl⟩ := hc.climbs hl hp
    refine ⟨pr', hp', hcl, fun hd => ?_⟩
    obtain ⟨o, ho, -⟩ := (hc.reaches hl).settled_of_isDone hp' (hcl.isDone hd)
    exact ⟨o, ho⟩
  · exact fun p limited hf => hc.fetched hμ hf
  · exact fun v x hf => hc.reread hμ hf
  · exact fun p l closing hf => hc.enrolled hμ hf

/-- A thread makes a promise and completes it. A second one polls a wait on it, and a third one
reads it. -/
def consumers : (r : Role) → Nat → Act Tabled r
  | .task, 0 => .call (.build {}) 1
  | .task, 1 => .call (.complete 0 (.value .unit)) 2
  | .task, 10 => .call (.wait 0) 11
  | .task, 11 => .call (.poll 0 7) 12
  | .task, 20 => .call (.get 0) 21
  | r, _ => Tabled.quiet r

/-- The latch opens while the poll is about to take the guard and the read sleeps. -/
def meeting : Option (Chronicle Tabled) :=
  (Tabled.start [0, 10, 20]).turns? (Tabled.behaviour consumers)
    (List.replicate 2 (.step 0) ++ List.replicate 4 (.step 1) ++ List.replicate 8 (.step 2) ++
      List.replicate 7 (.step 0) ++ List.replicate 3 (.step 1) ++ List.replicate 6 (.step 2))

theorem phases_nested_meeting : ∃ c, meeting = some c ∧ c.Reached (Tabled.behaviour consumers) ∧
    (∃ pr, c.machine.promise? 0 = some pr ∧ pr.Nested) ∧
    (∃ μ ∈ c.past, μ.frame = .polling 0 7 .reread ∧
      ∃ wait o, μ.before.wait? 0 = some wait ∧ μ.before.outcome? wait.promise = some o ∧
        μ.next = .answer (.polled (some o.read))) ∧
    ∃ μ ∈ c.past, μ.frame = .reading 0 false .fetch ∧
      ∃ o, μ.before.outcome? 0 = some o ∧ μ.next = .answer (.read o.read) := by
  have hrun : (meeting.any fun c =>
      (c.machine.promise? 0).isSome &&
      (c.past.any fun μ => μ.frame.polling? == some (0, 7, .reread)) &&
      c.past.any fun μ => μ.frame.reading? == some (0, false, .fetch)) = true := by
    decide +kernel
  obtain ⟨c, hc, hrun⟩ := (Option.any_eq_true _ _).1 hrun
  simp only [Bool.and_eq_true, List.any_eq_true] at hrun
  obtain ⟨⟨hpr, μ, hμ, hpoll⟩, ν, hν, hread⟩ := hrun
  obtain ⟨pr, hp⟩ := Option.isSome_iff_exists.1 hpr
  have hpoll : μ.frame = .polling 0 7 .reread := Frame.eq_polling (by simpa using hpoll)
  have hread : ν.frame = .reading 0 false .fetch := Frame.eq_reading (by simpa using hread)
  have hreach := Tabled.reached hc
  obtain ⟨hnested, hpast⟩ := phases_nested hreach
  exact ⟨c, hc, hreach, ⟨pr, hp, (hnested 0 pr hp).1⟩,
    ⟨μ, hμ, hpoll, (hpast μ hμ).2.1 0 7 hpoll⟩, ν, hν, hread, (hpast ν hν).1 0 false hread⟩

end Chronicle

end OneShot
