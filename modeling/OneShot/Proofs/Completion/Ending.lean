import OneShot.Proofs.Completion.Order
import OneShot.Proofs.History.Guards
import OneShot.Proofs.Waking.Wakes

/-!
# How a completion ends

The call that has won a promise ends after its last listener, or at a listener that stops the
delivery, or it is left by a panic of the clock or of a waker. How far the completion has come then
is how far it ever comes: no other call takes over.

- **Panics of the clock** (`Moment.ClockPanics`); those of a waker are `Moment.WakerPanics`.
- **One winner, one progress** (`Won.unique`), which stays when the winner is over (`Won.stays`).
- **The end and its cause** (`Won.over`, `Won.exists_last`, `Won.cause`).
- **Claimed and not done** (`Chronicle.Between`, `claimed_iff_done`): while the winner is on its way
  to the latch, and for ever if the clock has panicked on that way.
-/

namespace OneShot

variable {H : Host} {b : Behaviour H}

/-- The clock that a completion call of `p` reads panics at a moment. -/
def Moment.ClockPanics (p : PromiseId) (μ : Moment H) : Prop :=
  ∃ code x, μ.frame = .completing p (.stamp code) ∧ μ.next = .throw x

/-! ## One winner, one progress -/

theorem Promise.Shows.progress_eq {pr : Promise H} {o o' : Outcome} {r r' : Progress}
    (h : pr.Shows o r) (h' : pr.Shows o' r') : r = r' := by
  have hstored := h.outcome.symm.trans h'.outcome
  have hopen := h.isDone.symm.trans h'.isDone
  have htaken := h.taken.symm.trans h'.taken
  have hdrained := h.drained.symm.trans h'.drained
  cases r <;> cases r' <;>
    simp_all [Progress.isOpen, Progress.isTaken, Progress.isDrained]

namespace Chronicle

variable {c c' : Chronicle H} {μ : Moment H} {p : PromiseId} {w w' : CallId} {o o' : Outcome}
  {r r' : Progress}

/-- A promise has one winner, with one outcome and one progress. -/
theorem Won.unique (h : c.Won p w o r) (h' : c.Won p w' o' r') : w' = w ∧ o' = o ∧ r' = r := by
  have hwins := h'.wins.symm.trans h.wins
  simp only [List.cons.injEq, Prod.mk.injEq, and_true] at hwins
  obtain ⟨rfl, rfl⟩ := hwins
  obtain ⟨pr, hp, hsh⟩ := h.cells
  obtain ⟨pr', hp', hsh'⟩ := h'.cells
  rw [hp] at hp'
  cases hp'
  exact ⟨rfl, rfl, hsh'.progress_eq hsh⟩

/-- When the winner is over, the completion stays where it is. -/
theorem Won.stays (hc : c.Reached b) (hw : c.Won p w o r) (hn : c.frame? w = none)
    (hl : c.Reaches b c') : c'.Won p w o r ∧ c'.frame? w = none := by
  induction hl with
  | refl => exact ⟨hw, hn⟩
  | tail e hl he ih =>
    obtain ⟨hw₁, hn₁⟩ := ih
    have ht := (hc.reaches hl).tracked
    obtain ⟨μ, hμ, rfl⟩ := exists_extends_of_turn? ht he
    have hne : μ.call ≠ w := by
      intro heq
      have hframe := hμ.frame? ht
      rw [heq, hn₁] at hframe
      cases hframe
    exact ⟨hw₁.other ht hμ hne, frame?_record_eq_none ht hμ hw₁.entry hn₁⟩

end Chronicle

/-! ## The end and its cause -/

section

variable {p : PromiseId} {pr pr' : Promise H} {s : Completing H} {k : Control} {n : Next H}
  {o : Outcome} {r : Progress}

theorem Completing.Moves.eq_of_end (h : s.Moves p pr k n pr')
    (hn : n.own (.completing p s) = none) : pr' = pr := by
  cases h <;> first | rfl | cases hn

/-- A winner that ends without a panic of the library has been left by a panic of the clock or of a
waker, or it has drained the listeners. -/
theorem Completing.At.cause (hs : s.At o r) (h : s.Moves p pr k n pr')
    (hn : n.own (.completing p s) = none) (hstore : ∀ o' x, s = .store o' → n ≠ .throw x) :
    r = .stored ∧ (∃ code x, s = .stamp code ∧ n = .throw x) ∨
      r = .taken ∧ (∃ code rest x, s = .waking code rest ∧ n = .throw x) ∨ r = .drained := by
  cases h with
  | lose => cases hs
  | twice => exact absurd rfl (hstore _ _ rfl)
  | stampPanic => cases hs; exact .inl ⟨rfl, _, _, rfl, rfl⟩
  | wakePanic => cases hs; exact .inr (.inl ⟨rfl, _, _, _, rfl, rfl⟩)
  | finish | propagate | pass => cases hs; exact .inr (.inr rfl)
  | _ => cases hn

end

namespace Chronicle

variable {c c' : Chronicle H} {μ κ : Moment H} {p : PromiseId} {w : CallId} {o : Outcome}
  {r : Progress} {s : Completing H}

/-- A moment after which the winner is over was its last one, and the completion has come as far as
it was then. -/
theorem Won.over (hc : c.Reached b) (hw : c.Won p w o r) (hκ : κ ∈ c.past)
    (hf : κ.frame = .completing p s) (hs : ∀ o', s ≠ .claim o')
    (hn : κ.next.own κ.frame = none) : c.frame? w = none ∧ s.At o r := by
  obtain ⟨c₀, hc₀, h, hturn, hl⟩ := hc.reaches_of_mem hκ
  have ht := hc₀.tracked
  have hi : c₀.frame? κ.call = some (.completing p s) := by rw [h.frame? ht, hf]
  cases hc₀.contest p with
  | unclaimed hu =>
    obtain ⟨o', ho'⟩ := hu.calls _ _ hi
    exact absurd ho' (hs o')
  | @won w₀ o₀ r₀ hw₀ =>
    have hcall : κ.call = w₀ := by
      by_contra hne
      obtain ⟨o', ho'⟩ := hw₀.others _ _ hi hne
      exact hs o' ho'
    obtain ⟨s', hs', hat⟩ := hw₀.winner _ (hcall ▸ hi)
    cases hs'
    obtain ⟨pr, hp, hsh⟩ := hw₀.cells
    obtain ⟨pr', hp', hm⟩ := h.completing ht hf hp
    -- The last moment moves no cell, so the progress is the same before and after it.
    obtain ⟨r₁, hw₁⟩ := hw₀.go ht h hcall
    have hr : r₁ = r₀ := by
      obtain ⟨pr₁, hp₁, hsh₁⟩ := hw₁.cells
      obtain rfl := hm.eq_of_end (hf ▸ hn)
      obtain rfl : pr₁ = pr' := Option.some.inj (hp₁.symm.trans hp')
      exact hsh₁.progress_eq hsh
    have hover : (c₀.record κ).frame? w₀ = none := by
      rw [← hcall, frame?_record_self ht h, hn]
    obtain ⟨hw', hn'⟩ := hw₁.stays (hc₀.reaches hturn) hover hl
    obtain ⟨rfl, rfl, rfl⟩ := hw.unique hw'
    exact ⟨hn', hr ▸ hat⟩

theorem Path.exists_end {g : Frame H} {l : List (Moment H)} {x : Option (Frame H)}
    (hp : c.Path g l x) (hx : x = none) : ∃ κ ∈ l, κ.next.own κ.frame = none := by
  cases hp with
  | nil => cases hx
  | @snoc l κ => exact ⟨κ, by simp, hx⟩

/-- A winner that is over has a last moment, at a stage to which the completion has come. -/
theorem Won.exists_last (hc : c.Reached b) (hw : c.Won p w o r) (hn : c.frame? w = none) :
    ∃ κ ∈ c.past, κ.call = w ∧ ∃ s, κ.frame = .completing p s ∧ s.At o r ∧
      κ.next.own κ.frame = none := by
  obtain ⟨ν, hν, rfl, s₀, hs₀⟩ := hw.exists_moment
  obtain ⟨o₀, hpath⟩ := hc.completing_path hν hs₀
  obtain ⟨κ, hκ, hend⟩ := hpath.exists_end hn
  obtain ⟨s, hf⟩ := ((hpath.becomes hc).2 κ hκ).completing
  obtain ⟨hκ, hcall⟩ := mem_moments.1 hκ
  -- The winner has gone on from its claim, so the last moment is another one.
  have hclaim : ∀ o', s ≠ .claim o' := by
    rintro o' rfl
    obtain ⟨pr, pr', -, -, hm⟩ := hc.moved κ hκ p _ hf
    rcases hw.verdict κ hκ _ hf with ⟨-, hlost⟩ | ⟨hne, -⟩
    · rw [hf] at hend
      generalize κ.control = k, κ.next = n at hm hend hlost
      cases hm with
      | win => cases hend
      | lose => exact hlost rfl
    · exact hne hcall
  exact ⟨κ, hκ, hcall, s, hf, (hw.over hc hκ hf hclaim hend).2, hend⟩

/-- A winner that is over has been left by a panic of the clock or of a waker, or it has drained the
listeners. -/
theorem Won.cause (hc : c.Reached b) (hw : c.Won p w o r) (hn : c.frame? w = none) :
    r = .stored ∧ (∃ κ ∈ c.past, κ.ClockPanics p) ∨
      r = .taken ∧ (∃ κ ∈ c.past, κ.WakerPanics p) ∨ r = .drained := by
  obtain ⟨κ, hκ, -, s, hf, hat, hend⟩ := hw.exists_last hc hn
  obtain ⟨pr, pr', -, -, hm⟩ := hc.moved κ hκ p s hf
  rw [hf] at hend
  rcases hat.cause hm hend fun o' x hs => hw.stores κ hκ o' x (hs ▸ hf) with
    ⟨hr, code, x, rfl, hx⟩ | ⟨hr, code, rest, x, rfl, hx⟩ | hr
  · exact .inl ⟨hr, κ, hκ, code, x, hf, hx⟩
  · exact .inr (.inl ⟨hr, κ, hκ, code, rest, x, hf, hx⟩)
  · exact .inr (.inr hr)

/-- A winner that is over has drained the listeners if neither clock nor wakers have panicked. -/
theorem Won.drained (hc : c.Reached b) (hw : c.Won p w o r) (hn : c.frame? w = none)
    (hclock : ∀ κ ∈ c.past, ¬κ.ClockPanics p) (hwaker : ∀ κ ∈ c.past, ¬κ.WakerPanics p) :
    r = .drained := by
  rcases hw.cause hc hn with ⟨-, κ, hκ, h⟩ | ⟨-, κ, hκ, h⟩ | hr
  · exact absurd h (hclock κ hκ)
  · exact absurd h (hwaker κ hκ)
  · exact hr

/-- Where nothing panics, neither the clock nor a waker does. -/
theorem not_panics_of_thrown? (h : ∀ κ ∈ c.past, κ.next.thrown? = none) (p : PromiseId) :
    (∀ κ ∈ c.past, ¬κ.ClockPanics p) ∧ ∀ κ ∈ c.past, ¬κ.WakerPanics p := by
  refine ⟨fun κ hκ hpanic => ?_, fun κ hκ hpanic => ?_⟩
  · obtain ⟨_, x, -, hx⟩ := hpanic
    exact Next.ne_throw (h κ hκ) x hx
  · obtain ⟨_, _, x, -, hx⟩ := hpanic
    exact Next.ne_throw (h κ hκ) x hx

theorem Won.of_clockPanics (hc : c.Reached b) (hw : c.Won p w o r) (hκ : κ ∈ c.past)
    (h : κ.ClockPanics p) : c.frame? w = none ∧ r = .stored := by
  obtain ⟨code, x, hf, hx⟩ := h
  obtain ⟨hn, hat⟩ := hw.over hc hκ hf nofun (by rw [hx]; rfl)
  cases hat
  exact ⟨hn, rfl⟩

theorem Won.of_wakerPanics (hc : c.Reached b) (hw : c.Won p w o r) (hκ : κ ∈ c.past)
    (h : κ.WakerPanics p) : c.frame? w = none ∧ r = .taken := by
  obtain ⟨code, rest, x, hf, hx⟩ := h
  obtain ⟨hn, hat⟩ := hw.over hc hκ hf nofun (by rw [hx]; rfl)
  cases hat
  exact ⟨hn, rfl⟩

end Chronicle

/-! ## Claimed and not done -/

/-- Stages of the winner before the latch is open. -/
def Completing.isOpening : Completing H → Bool
  | store _ | stamp _ | lockGate _ | openLatch _ => true
  | _ => false

theorem Completing.At.isOpening_eq {s : Completing H} {o : Outcome} {r : Progress} (h : s.At o r) :
    s.isOpening = !r.isOpen := by
  cases h <;> rfl

namespace Chronicle

variable {c : Chronicle H} {p : PromiseId} {w : CallId} {o : Outcome} {r : Progress}
  {pr : Promise H}

/-- The completion of `p` is between its claim and the opening of the latch: its winner is on the
way there, or a panic of the clock has left it there. -/
inductive Between (c : Chronicle H) (p : PromiseId) : Prop
  | opening {i s} (hi : c.frame? i = some (.completing p s)) (hs : s.isOpening = true)
  | torn {κ} (hκ : κ ∈ c.past) (h : κ.ClockPanics p)

/-- A completion is there until the latch is open. -/
theorem Won.between_iff (hc : c.Reached b) (hw : c.Won p w o r) :
    c.Between p ↔ r.isOpen = false := by
  constructor
  · intro h
    cases h with
    | @opening i s hi hs =>
      have hiw : i = w := by
        by_contra hne
        obtain ⟨o', rfl⟩ := hw.others i s hi hne
        cases hs
      obtain ⟨s', hs', hat⟩ := hw.winner _ (hiw ▸ hi)
      cases hs'
      simpa [hat.isOpening_eq] using hs
    | torn hκ h =>
      obtain ⟨-, rfl⟩ := hw.of_clockPanics hc hκ h
      rfl
  · intro hr
    -- If the winner is over and the latch shut, nothing but a panic of the clock has ended it.
    cases hn : c.frame? w with
    | some f =>
      obtain ⟨s, rfl, hat⟩ := hw.winner f hn
      exact .opening hn (by simp [hat.isOpening_eq, hr])
    | none =>
      rcases hw.cause hc hn with ⟨-, κ, hκ, h⟩ | ⟨rfl, -⟩ | rfl
      · exact .torn hκ h
      · cases hr
      · cases hr

theorem Unclaimed.not_between (hu : c.Unclaimed p) : ¬c.Between p := by
  intro h
  cases h with
  | opening hi hs =>
    obtain ⟨o, rfl⟩ := hu.calls _ _ hi
    cases hs
  | torn hκ h =>
    obtain ⟨code, x, hf, -⟩ := h
    exact hu.past _ hκ _ hf

/-- A completion is there exactly while its promise is claimed and has no end time. -/
theorem Reached.between_iff (hc : c.Reached b) (hp : c.machine.promise? p = some pr) :
    c.Between p ↔ pr.status ≠ .init ∧ pr.endTime = 0 := by
  have hcells := Machine.cells?_eq_some hp
  have hopen : pr.endTime = 0 ↔ pr.bare.isDone = false := by
    rw [← not_iff_not, ← ne_eq, Promise.endTime_ne_zero_iff, Bool.not_eq_false]
    rfl
  rw [hopen]
  cases hc.contest p with
  | unclaimed hu =>
    have hpend := hu.cells _ hcells
    exact ⟨fun h => absurd h hu.not_between, fun h => absurd hpend.status h.1⟩
  | @won w o r hw =>
    obtain ⟨pr', hp', hsh⟩ := hw.cells
    rw [hcells] at hp'
    cases hp'
    rw [hw.between_iff hc, hsh.isDone]
    have hclaimed : pr.status ≠ .init := by
      rw [show pr.status = o.status from hsh.status]
      exact o.status_ne_init
    exact ⟨fun h => ⟨hclaimed, h⟩, fun h => h.2⟩

/-- A completion call that loses has found its promise done, or its completion between claim and
latch. -/
theorem Reached.isDone_of_lost (hc : c.Reached b) {t : ThreadId} {m : Machine H}
    (hs : (Frame.completing p (.claim o)).step b c.machine t .go = some (m, .lost))
    (hb : ¬c.Between p) : c.machine.isDone p = true := by
  obtain ⟨pr, hp⟩ := Completing.exists_promise?_of_claim hs rfl
  replace hs : (Completing.claim o).step b c.machine t p .go = some (m, .lost) := hs
  obtain ⟨pr', -, hm⟩ := Completing.moves_of_step hs hp (.inl rfl)
  have hclaimed : pr.status ≠ .init := by
    generalize hn : Next.lost = n at hm
    cases hm with
    | win => cases hn
    | lose h => exact h
  rw [Machine.isDone_of_promise? hp, ← Promise.endTime_ne_zero_iff]
  intro hend
  exact hb ((hc.between_iff hp).2 ⟨hclaimed, hend⟩)

/-- A promise is claimed exactly if it is done, a cancelled one is done, and a completion call loses
only if it finds the promise done, but for one time: from the claim of a promise until its latch
opens, it is claimed and not done. The winner runs none of the program's code in that time but its
clock; so on its thread nobody else can look. If the clock panics, that time never ends. -/
theorem claimed_iff_done (hc : c.Reached b) :
    (∀ p pr, c.machine.promise? p = some pr →
      (¬c.Between p → (pr.endTime ≠ 0 ↔ pr.status ≠ .init) ∧
        (pr.isCancelled = true → pr.isDone = true)) ∧
      (c.Between p → pr.status ≠ .init ∧ pr.endTime = 0)) ∧
    (∀ p o t m, (Frame.completing p (.claim o)).step b c.machine t .go = some (m, .lost) →
      ¬c.Between p → c.machine.isDone p = true) ∧
    (∀ p i s, c.frame? i = some (.completing p s) → s.isOpening = true →
      (c.calls i.thread).head? = some i ∨ ∃ code, s = .stamp code) ∧
    ∀ p, (∃ κ ∈ c.past, κ.ClockPanics p) → ∀ c', c.Reaches b c' → c'.Between p := by
  refine ⟨fun p pr hp => ⟨fun hb => ?_, (hc.between_iff hp).1⟩,
    fun p o t m hs hb => hc.isDone_of_lost hs hb, fun p i s hi hs => ?_, fun p hpanic c' hl => ?_⟩
  · have hdone : pr.status ≠ .init → pr.endTime ≠ 0 := fun hst hend =>
      hb ((hc.between_iff hp).2 ⟨hst, hend⟩)
    have hnest := hc.nested hp
    refine ⟨⟨fun hend => ?_, hdone⟩, fun hcan => Promise.endTime_ne_zero_iff.1 (hdone ?_)⟩
    · obtain ⟨o, ho⟩ := hnest.stored hend
      exact hnest.claimed o ho
    · have hst : pr.status = .cancelled := by simpa [Promise.isCancelled] using hcan
      rw [hst]
      decide
  · cases s with
    | stamp code => exact .inr ⟨code, rfl⟩
    | store | lockGate | openLatch => exact .inl (hc.tracked.top_of_not_awaits hi rfl)
    | _ => cases hs
  · obtain ⟨κ, hκ, h⟩ := hpanic
    obtain ⟨l, hpast⟩ := hl.exists_past hc
    exact .torn (hpast ▸ List.mem_append_left l hκ) h

/-- A thread makes a promise and completes it with a value; the clock of the promise cancels it. -/
def meddlers : (r : Role) → Nat → Act Tabled r
  | .task, 0 => .call (.build { clock := some 5 }) 1
  | .task, 1 => .call (.complete 0 (.value .unit)) 2
  | .clock, 5 => .call (.complete 0 .cancelled) 6
  | r, _ => Tabled.quiet r

/-- The run up to the answer that the clock gets. -/
def glimpse : Option (Chronicle Tabled) :=
  (Tabled.start [0]).turns? (Tabled.lateClocks meddlers) (List.replicate 7 (.step 0))

/-- At the end of that run the clock is told that it has lost, and finds the promise claimed and not
done. -/
theorem claimed_not_done_glimpse : ∃ c pr μ, glimpse = some c ∧
    c.Reached (Tabled.lateClocks meddlers) ∧ c.machine.promise? 0 = some pr ∧
    pr.status = .done ∧ pr.endTime = 0 ∧ pr.isDone = false ∧ μ ∈ c.past ∧
    μ.frame = .completing 0 (.claim .cancelled) ∧ μ.next = .lost := by
  have hrun : (glimpse.any fun c =>
      ((c.machine.promise? 0).any fun pr =>
        pr.status == .done && pr.endTime == 0 && !pr.isDone) &&
      c.past.any fun μ => μ.frame.claim? == some (0, .cancelled) && μ.next.isLost) = true := by
    decide +kernel
  obtain ⟨c, hc, hrun⟩ := (Option.any_eq_true _ _).1 hrun
  obtain ⟨hpr, hlost⟩ := Bool.and_eq_true_iff.1 hrun
  obtain ⟨pr, hp, hpr⟩ := (Option.any_eq_true _ _).1 hpr
  obtain ⟨μ, hμ, hlost⟩ := List.any_eq_true.1 hlost
  obtain ⟨hf, hn⟩ := Bool.and_eq_true_iff.1 hlost
  simp only [Bool.and_eq_true, beq_iff_eq, Bool.not_eq_true'] at hpr
  obtain ⟨⟨hst, hend⟩, hd⟩ := hpr
  exact ⟨c, pr, μ, hc, Tabled.reached hc, hp, hst, hend, hd, hμ, Frame.eq_claim (by simpa using hf),
    Next.eq_lost hn⟩

theorem claimed_iff_done_glimpse : ∃ c pr, glimpse = some c ∧
    c.Reached (Tabled.lateClocks meddlers) ∧ c.Between 0 ∧ c.machine.promise? 0 = some pr ∧
    pr.status ≠ .init ∧ pr.endTime = 0 := by
  have hrun : (glimpse.any fun c =>
      (c.machine.promise? 0).isSome &&
      ((c.frame? ⟨0, 3⟩).bind Frame.completing?).any fun e =>
        e.1 == 0 && e.2.isOpening) = true := by
    decide +kernel
  obtain ⟨c, hc, hrun⟩ := (Option.any_eq_true _ _).1 hrun
  obtain ⟨hpr, hf⟩ := Bool.and_eq_true_iff.1 hrun
  obtain ⟨pr, hp⟩ := Option.isSome_iff_exists.1 hpr
  have hb : c.Between 0 := by
    obtain ⟨⟨p, s⟩, hs, hopening⟩ := (Option.any_eq_true _ _).1 hf
    obtain ⟨f, hi, hs⟩ := Option.bind_eq_some_iff.1 hs
    simp only [Bool.and_eq_true, beq_iff_eq] at hopening
    obtain ⟨rfl, hopening⟩ := hopening
    exact .opening (by rw [hi, Frame.eq_completing hs]) hopening
  have hreach := Tabled.reached hc
  obtain ⟨hst, hend⟩ := ((claimed_iff_done hreach).1 0 pr hp).2 hb
  exact ⟨c, pr, hc, hreach, hb, hp, hst, hend⟩

end Chronicle

end OneShot
