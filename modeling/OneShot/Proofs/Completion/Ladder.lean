import OneShot.Proofs.Completion.Winner
import OneShot.Proofs.Listener.Fate
import OneShot.Proofs.Step.Throw

/-!
# What an open latch stands for

A promise that is done stays done and has an outcome, and its waker set and its listeners are taken
out only after that. So the states that the library takes to be impossible are, and a panic that
leaves a call comes from the program's code.

- **The ladder** (`Reached.outcome_of_isDone`, `Reached.isDone_of_taken`,
  `Reached.isDone_of_drained`, `Extends.isDone`).
- **Assured calls** (`Frame.Assured`): reads and polls that rely on the latch being open.
- **Impossible states** (`Reached.not_impossible`) and **panics** (`Reached.not_throw`): if no code
  of the program panics, no call is left by a panic.
-/

namespace OneShot

variable {H : Host} {b : Behaviour H}

namespace Machine

variable {m : Machine H} {p : PromiseId}

theorem isDone_iff : m.isDone p = true ↔ ∃ pr, m.promise? p = some pr ∧ pr.isDone = true := by
  rw [isDone, Option.any_eq_true]

theorem isDone_iff_cells? :
    m.isDone p = true ↔ ∃ pr, m.cells? p = some pr ∧ pr.isDone = true := by
  rw [isDone_iff]
  constructor
  · rintro ⟨pr, hp, hd⟩
    exact ⟨pr.bare, cells?_eq_some hp, hd⟩
  · rintro ⟨pr, hp, hd⟩
    obtain ⟨pr₀, hp₀, rfl⟩ := Option.map_eq_some_iff.1 hp
    exact ⟨pr₀, hp₀, hd⟩

end Machine

/-- Whether a completion call at this stage has opened the latch. -/
def Completing.isOpened : Completing H → Bool
  | claim _ | store _ | stamp _ | lockGate _ | openLatch _ => false
  | _ => true

namespace Chronicle

variable {c : Chronicle H} {μ : Moment H} {p : PromiseId} {pr : Promise H}

/-! ## The ladder -/

/-- How the cells of a promise look in a run. -/
theorem Reached.shows (hc : c.Reached b) (hp : c.machine.cells? p = some pr) :
    pr.Pending ∨ ∃ o r, pr.Shows o r := by
  cases hc.contest p with
  | unclaimed hu => exact .inl (hu.cells pr hp)
  | won hw =>
    obtain ⟨pr', hp', hsh⟩ := hw.cells
    rw [hp] at hp'
    cases hp'
    exact .inr ⟨_, _, hsh⟩

theorem Reached.outcome_of_isDone (hc : c.Reached b) (hp : c.machine.cells? p = some pr)
    (hd : pr.isDone = true) : ∃ o, pr.outcome = some o := by
  rcases hc.shows hp with h | ⟨o, r, h⟩
  · rw [h.isDone] at hd; cases hd
  · rw [h.isDone] at hd
    refine ⟨o, ?_⟩
    rw [h.outcome]
    cases r <;> first | rfl | cases hd

theorem Reached.isDone_of_taken (hc : c.Reached b) (hp : c.machine.cells? p = some pr)
    (ht : pr.wakers.data.taken = true) : pr.isDone = true := by
  rcases hc.shows hp with h | ⟨o, r, h⟩
  · rw [h.taken] at ht; cases ht
  · rw [h.taken] at ht
    rw [h.isDone]
    cases r <;> first | rfl | cases ht

theorem Reached.isDone_of_drained (hc : c.Reached b) (hp : c.machine.cells? p = some pr)
    (ht : pr.listeners.data.isDrained = true) : pr.isDone = true := by
  rcases hc.shows hp with h | ⟨o, r, h⟩
  · rw [h.drained] at ht; cases ht
  · rw [h.drained] at ht
    rw [h.isDone]
    cases r <;> first | rfl | cases ht

/-- A call that opens a latch does so at a time other than zero. -/
theorem Reached.time_ne_zero (hc : c.Reached b) {i : CallId} {time : UInt64}
    (hi : c.frame? i = some (.completing p (.openLatch time))) : time ≠ 0 := by
  cases hc.contest p with
  | unclaimed hu => obtain ⟨o, ho⟩ := hu.calls i _ hi; cases ho
  | @won w o r hw =>
    by_cases hiw : i = w
    · subst hiw
      obtain ⟨s, hs, hat⟩ := hw.winner _ hi
      cases hs
      cases hat with
      | openLatch h0 => exact h0
    · obtain ⟨o', ho⟩ := hw.others i _ hi hiw
      cases ho

/-- A promise that is done stays done. -/
theorem Extends.isDone (hc : c.Reached b) (h : c.Extends b μ) (hd : c.machine.isDone p = true) :
    μ.after.isDone p = true := by
  obtain ⟨pr, hp, hd⟩ := Machine.isDone_iff_cells?.1 hd
  have hch := h.made.effect.promise p
  rw [h.before, hp] at hch
  obtain ⟨pr', hp'⟩ := hch.exists_after
  rw [hp'] at hch
  refine Machine.isDone_iff_cells?.2 ⟨pr', hp', ?_⟩
  have hframe := h.frame? hc.tracked
  generalize μ.frame = f, μ.next = n at hch hframe
  cases hch with
  | openLatch =>
    simpa [Promise.isDone, Latch.isOpen, Promise.openLatch] using hc.time_ne_zero hframe
  | _ => exact hd

theorem Reached.isDone_of_reaches {c' : Chronicle H} (hc : c.Reached b) (hl : c.Reaches b c')
    (hd : c.machine.isDone p = true) : c'.machine.isDone p = true := by
  induction hl with
  | refl => exact hd
  | tail e hl he ih =>
    have hr := hc.reaches hl
    obtain ⟨μ, hμ, rfl⟩ := exists_extends_of_turn? hr.tracked he
    exact hμ.isDone hr ih

/-- A completion call finds its promise done when it has opened the latch. -/
theorem Reached.isDone_of_opened (hc : c.Reached b) : ∀ ν ∈ c.past, ∀ s,
    ν.frame = .completing p s → s.isOpened = true →
    ∃ pr, ν.before.cells? p = some pr ∧ pr.isDone = true := by
  intro ν hν s hf hs
  obtain ⟨c₀, hc₀, h, -, -⟩ := hc.extends_of_mem hν
  have hi : c₀.frame? ν.call = some (.completing p s) := by rw [h.frame? hc₀.tracked, hf]
  have hclaim : ∀ o, s ≠ .claim o := by
    intro o ho
    rw [ho] at hs
    cases hs
  cases hc₀.contest p with
  | unclaimed hu =>
    obtain ⟨o, ho⟩ := hu.calls _ _ hi
    exact absurd ho (hclaim o)
  | @won w o r hw =>
    -- A call that has not won stays at its claim, which is before the latch opens.
    by_cases hiw : ν.call = w
    · rw [hiw] at hi
      obtain ⟨s', hs', hat⟩ := hw.winner _ hi
      cases hs'
      obtain ⟨pr, hp, hsh⟩ := hw.cells
      refine ⟨pr, by rw [h.before, hp], ?_⟩
      rw [hsh.isDone]
      cases hat <;> first | rfl | cases hs
    · obtain ⟨o', ho'⟩ := hw.others _ _ hi hiw
      exact absurd ho' (hclaim o')

end Chronicle

/-! ## Assured calls -/

/-- Stages of a read that has seen the latch open. -/
def Reading.isAssured : Reading → Bool
  | fetch | unlockGate .opened | relockParked .opened | unpark .opened => true
  | _ => false

/-- A read or a poll that relies on the latch being open finds it open. -/
def Frame.Assured (m : Machine H) : Frame H → Prop
  | .reading p _ s => s.isAssured = true → m.isDone p = true
  | .polling w _ .reread => ∃ wait, m.wait? w = some wait ∧ m.isDone wait.promise = true
  | _ => True

section

variable {m m' : Machine H} {t : ThreadId} {p : PromiseId} {c : Control} {n : Next H}

/-- A read relies on the latch from the moment at which it has seen it open. -/
theorem Reading.isDone_of_step {limited : Bool} {s s' : Reading}
    (h : s.step m t p limited c = some (m', n)) (hs : s.isAssured = true → m.isDone p = true)
    (hn : n.own (.reading p limited s) = some (.reading p limited s')) (hs' : s'.isAssured = true) :
    m.isDone p = true := by
  rcases Machine.runStage_eq_some h with ⟨-, h⟩ | ⟨x, -, h⟩
  · obtain ⟨pr, hp, h⟩ := Option.bind_eq_some_iff.1 h
    obtain ⟨th, -, h⟩ := Option.bind_eq_some_iff.1 h
    have hdone : pr.isDone = true → m.isDone p = true := fun hd =>
      Machine.isDone_iff.2 ⟨pr, hp, hd⟩
    -- A read comes to an assured stage by a look at the latch, or it has been at one before.
    cases s with
    | peek | attempt =>
      cases h
      cases hn
      by_cases hd : pr.isDone = true
      · exact hdone hd
      · simp only [if_neg hd] at hs'; cases hs'
    | check late =>
      cases h
      cases hn
      by_cases hd : pr.isDone = true
      · exact hdone hd
      · simp only [if_neg hd] at hs'
        cases late <;> cases hs'
    | checkFlag =>
      cases h
      cases hn
      cases hf : th.token.flag <;> simp only [hf] at hs' <;> cases hs'
    | lockParked | lockGate late =>
      obtain ⟨_, -, h⟩ := Option.bind_eq_some_iff.1 h
      cases h
      cases hn
      cases hs'
    | relockParked r =>
      obtain ⟨_, -, h⟩ := Option.bind_eq_some_iff.1 h
      cases h
      cases hn
      cases r <;> first | exact hs rfl | cases hs'
    | park | sleep => cases h; cases hn; cases hs'
    | asleep => cases h
    | unlockGate r => cases h; cases hn; cases r <;> first | exact hs rfl | cases hs'
    | unpark r =>
      cases r <;> cases h <;> cases hn
      exact hs rfl
    | fetch =>
      dsimp only at h
      split at h <;> cases h <;> cases hn
  · cases h
    cases hn

/-- A poll looks again only if it cannot register its waker. -/
theorem Polling.closed_of_step {w : WaitId} {waker : H.Closure .waker} {s : Polling}
    (h : s.step m t w waker c = some (m', n))
    (hn : n.own (.polling w waker s) = some (.polling w waker .reread)) :
    ∃ wait pr, m.wait? w = some wait ∧ m.promise? wait.promise = some pr ∧
      (pr.wakers.data.taken || pr.isDone) = true := by
  rcases Machine.runStage_eq_some h with ⟨-, h⟩ | ⟨x, -, h⟩
  · obtain ⟨wait, hw, h⟩ := Option.bind_eq_some_iff.1 h
    obtain ⟨pr, hp, h⟩ := Option.bind_eq_some_iff.1 h
    refine ⟨wait, pr, hw, hp, ?_⟩
    cases s with
    | attempt | reread =>
      dsimp only at h
      split at h <;> cases h <;> cases hn
    | lock =>
      obtain ⟨_, -, h⟩ := Option.bind_eq_some_iff.1 h
      cases h
      cases hn
    | register =>
      dsimp only at h
      split at h
      · cases h
        cases hn
      · rename_i hkey
        exact (WakerSet.register_refused hkey).2
  · cases h
    cases hn

theorem Frame.Enters.assured {f g : Frame H} (h : f.Enters g) : g.Assured m := by
  cases h with
  | @code f callee hf => cases callee <;> first | trivial | exact fun hs => by cases hs
  | deliver | check | enroll | transform => trivial

end

namespace Chronicle

variable {c : Chronicle H} {μ : Moment H}

/-- What a call relies on goes on to hold. -/
theorem Extends.assured_after (hc : c.Reached b) (h : c.Extends b μ) {f : Frame H}
    (hf : f.Assured c.machine) : f.Assured μ.after := by
  cases f with
  | reading p limited s => exact fun hs => h.isDone hc (hf hs)
  | polling w waker s =>
    cases s with
    | reread =>
      obtain ⟨wait, hw, hd⟩ := hf
      obtain ⟨wait', hw', hp⟩ := h.wait hw
      exact ⟨wait', hw', hp ▸ h.isDone hc hd⟩
    | _ => trivial
  | _ => trivial

/-- A call that moves relies only on what holds. -/
theorem Extends.assured_own (hc : c.Reached b) (h : c.Extends b μ) (ha : μ.frame.Assured c.machine)
    {f : Frame H} (hf : μ.next.own μ.frame = some f) : f.Assured c.machine := by
  rcases h.made.leads.sameCall hf with rfl | hsame
  · exact ha
  · cases f with
    | reading p limited s =>
      obtain ⟨s₀, hs₀⟩ := hsame.of_reading
      rw [hs₀] at ha hf
      intro hs
      cases h.made with
      | step _ _ hstep _ =>
        rw [hs₀, h.before] at hstep
        exact Reading.isDone_of_step hstep ha hf hs
      | wake _ hasleep hn _ =>
        rw [hn] at hf
        cases hf
        cases hs
    | polling w waker s =>
      obtain ⟨s₀, hs₀⟩ := hsame.of_polling
      rw [hs₀] at hf
      cases s with
      | reread =>
        cases h.made with
        | step _ _ hstep _ =>
          rw [hs₀, h.before] at hstep
          obtain ⟨wait, pr, hw, hp, hclosed⟩ := Polling.closed_of_step hstep hf
          refine ⟨wait, hw, Machine.isDone_iff.2 ⟨pr, hp, ?_⟩⟩
          -- The set takes no more wakers: it has been taken after the latch, or the latch is open.
          rcases Bool.or_eq_true_iff.1 hclosed with ht | hd
          · have hd : pr.bare.isDone = true := hc.isDone_of_taken (Machine.cells?_eq_some hp) ht
            exact hd
          · exact hd
        | wake _ hasleep _ _ => rw [hs₀] at hasleep; cases hasleep
      | _ => trivial
    | _ => trivial

/-- Calls that rely on the latch being open find it open. -/
theorem Reached.assured (hc : c.Reached b) :
    ∀ i f, c.frame? i = some f → f.Assured c.machine := by
  induction c, hc using Reached.induction with
  | start m hm =>
    intro i f hf
    obtain ⟨work, rfl⟩ := frame?_start hm hf
    trivial
  | record c μ hc hμ hc' ih =>
    intro i f hf
    have ht := hc.tracked
    show f.Assured μ.after
    by_cases hi : i = μ.call
    · subst hi
      rw [frame?_record_self ht hμ] at hf
      exact hμ.assured_after hc (hμ.assured_own hc (ih _ _ (hμ.frame? ht)) hf)
    · by_cases hi' : i = μ.entered
      · subst hi'
        rw [frame?_record_entered ht hμ] at hf
        exact (hμ.made.leads.enters hf).assured
      · have hk := frame?_record_of_ne ht hμ hi hi'
        rw [hf] at hk
        generalize hx : c.frame? i = x at hk
        cases hk with
        | same => exact hμ.assured_after hc (ih i f hx)
        | rouse => exact fun hs => by cases hs
        | work => trivial

/-- No call finds the library in a state that it takes to be impossible. -/
theorem Reached.not_impossible (hc : c.Reached b) {i : CallId} {f : Frame H}
    (hi : c.frame? i = some f) : ¬f.Impossible c.machine := by
  intro hf
  have ha := hc.assured i f hi
  have hsettled : ∀ p pr, c.machine.promise? p = some pr → c.machine.isDone p = true →
      pr.settled ≠ none := by
    intro p pr hp hd
    obtain ⟨pr', hp', hd⟩ := Machine.isDone_iff.1 hd
    rw [hp] at hp'
    cases hp'
    obtain ⟨o, ho⟩ := hc.outcome_of_isDone (Machine.cells?_eq_some hp) hd
    change pr.outcome = some o at ho
    rw [Promise.settled, if_pos hd, ho]
    exact Option.some_ne_none o
  cases hf with
  -- The winner stores once, and a call that has not won never comes to its store.
  | @twice p o pr hp ho =>
    cases hc.contest p with
    | unclaimed hu => obtain ⟨_, h⟩ := hu.calls i _ hi; cases h
    | @won w o' r hw =>
      obtain ⟨pr', hp', hsh⟩ := hw.cells
      rw [Machine.cells?_eq_some hp] at hp'
      cases hp'
      by_cases hiw : i = w
      · subst hiw
        obtain ⟨s, hs, hat⟩ := hw.winner _ hi
        cases hs
        cases hat
        exact ho hsh.outcome
      · obtain ⟨_, h⟩ := hw.others i _ hi hiw
        cases h
  | fetch hp hs => exact hsettled _ _ hp (ha rfl) hs
  | reread hw hp hs =>
    obtain ⟨wait, hw', hd⟩ := ha
    rw [hw] at hw'
    cases hw'
    exact hsettled _ _ hp hd hs

/-! ## Panics -/

end Chronicle

/-- The program's code panics that a call is running. The work of a thread is not meant: no call of
the library runs it. -/
def Moment.Panics (b : Behaviour H) (μ : Moment H) : Prop :=
  ∃ r code m x, μ.frame.code? = some ⟨r, code⟩ ∧ r ≠ .task ∧
    μ.before.resume b μ.call.thread code μ.control = (m, .panic x)

/-- No notification starts with a cleanup. -/
theorem Frame.Enters.ne_cleaning {f g : Frame H} (h : f.Enters g) {p target : PromiseId}
    {x : String} : g ≠ .notifying p (.cleaning target x) := by
  cases h with
  | @code f callee hf => cases callee <;> exact nofun
  | @deliver p l rest | @check p l closing | @enroll p l closing => cases l <;> exact nofun
  | transform => exact nofun

/-- Only a chain callback that panics leads to a cleanup. -/
theorem Notifying.Moves.clean_of_own {m : Machine H} {t : ThreadId} {p target : PromiseId}
    {c : Control} {s : Notifying H} {n : Next H} {fs : List Failure} {x : String}
    (h : s.Moves b m t p c n fs)
    (hn : n.own (.notifying p s) = some (.notifying p (.cleaning target x))) :
    s = .cleaning target x ∨
      ∃ d code m', s = .transforming d code ∧ m.resume b t code c = (m', .panic x) := by
  cases h with
  | run _ hs' hown => rw [hown] at hn; cases hn; cases hs'
  | clean hr => cases hn; exact .inr ⟨_, _, _, rfl, hr⟩
  | @result s r hr => cases r <;> cases hn
  | panic | cleaned | decide => cases hn
  | ask _ he hown => rw [hown] at hn; cases hn; cases he
  | abort => cases hn; exact .inl rfl

namespace Chronicle

variable {c : Chronicle H} {μ : Moment H}

/-- Without panics of the program's code there is nothing to clean up. -/
theorem Reached.not_cleaning (hc : c.Reached b) (hp : ∀ ν ∈ c.past, ¬ν.Panics b) :
    ∀ i p target x, c.frame? i ≠ some (.notifying p (.cleaning target x)) := by
  induction c, hc using Reached.induction with
  | start m hm =>
    intro i p target x hi
    obtain ⟨work, hwork⟩ := frame?_start hm hi
    cases hwork
  | record c μ hc hμ hc' ih =>
    intro i p target x hi
    have ht := hc.tracked
    have ih := ih fun ν hν => hp ν (mem_record_of_mem hν)
    rcases steady_record ht hμ hi rfl with ⟨rfl, hown⟩ | ⟨rfl, hcal⟩ | ⟨-, -, hold⟩
    · obtain ⟨s, hs⟩ : ∃ s, μ.frame = .notifying p s := by
        rcases hμ.made.leads.sameCall hown with h | h
        · exact ⟨_, h⟩
        · exact h.of_notifying
      rw [hs] at hown
      rcases ((hc'.sound μ mem_record_self).1.notifying hs).clean_of_own hown with
        rfl | ⟨d, code, m, rfl, hr⟩
      · exact ih μ.call p target x (by rw [hμ.frame? ht, hs])
      · exact hp μ mem_record_self ⟨.transform, code, m, x, by rw [hs]; rfl, nofun, hr⟩
    · exact (hμ.made.leads.enters hcal).ne_cleaning rfl
    · exact ih i p target x hold

/-- If no code of the program panics, no call of the library is left by a panic. -/
theorem Reached.not_throw (hc : c.Reached b) (hp : ∀ ν ∈ c.past, ¬ν.Panics b) :
    ∀ ν ∈ c.past, ∀ x, ν.next = .throw x → ∃ k, ν.frame = .task k := by
  induction c, hc using Reached.induction with
  | start m hm =>
    intro ν hν
    cases hν
  | record c μ hc hμ hc' ih =>
    intro ν hν x hn
    have ht := hc.tracked
    have hp' : ∀ ν ∈ c.past, ¬ν.Panics b := fun ν hν => hp ν (mem_record_of_mem hν)
    rcases mem_record.1 hν with hν' | rfl
    · exact ih hp' ν hν' x hn
    · cases hμ.made with
      | wake _ _ hw _ => rw [hn] at hw; cases hw
      | step hab hth hs _ =>
        rw [hn] at hs
        have hthrows := Frame.throws_of_step hs
        generalize hf : ν.frame = f at hthrows
        cases hthrows with
        | passed hk =>
          -- The panic left a call that was entered, which is not the work of a thread.
          obtain ⟨is, rest, his, hst, -⟩ := hμ.stack ht
          have htold := hc.linked.top (hμ.before ▸ hab) _ _ _ _ hst (by rw [his]; rfl)
          rw [hk] at htold
          generalize hlast : (c.moments ν.call).getLast? = last at htold
          cases htold with
          | @callee μ' ρ g f' _ hent hρ hi ht =>
            have hx : ρ.next = .throw x := by
              cases hρn : ρ.next <;> rw [hρn] at ht <;> cases ht
              rfl
            obtain ⟨k, hk⟩ := ih hp' ρ hρ x hx
            have hμ' := (mem_moments.1 (List.mem_of_getLast? hlast)).1
            exact absurd hk (hc.entered_ne_task ρ hρ μ' hμ' g (by rw [hent]; rfl) hi k)
        | @code _ r code m hcode hr =>
          by_cases htask : r = .task
          · subst htask
            cases f <;> first
              | exact ⟨_, rfl⟩
              | (rename_i s; cases s <;> cases hcode)
              | cases hcode
          · exact absurd ⟨r, code, m, x, hf ▸ hcode, htask, hr⟩ (hp ν hν)
        | cleaned =>
          exact absurd (by rw [hμ.frame? ht, hf]) (hc.not_cleaning hp' ν.call _ _ _)
        | impossible hi =>
          rw [hμ.before] at hi
          exact absurd hi (hc.not_impossible (by rw [hμ.frame? ht, hf]))

end Chronicle

end OneShot
