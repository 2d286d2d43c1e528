import OneShot.Proofs.Chain.Relaying

/-!
# No failure is lost

The library throws results away in three places: where an observer is registered, where a chain
listener is registered, and where a derived promise is cancelled because its callback panicked. The
first two of these are never failures. This module accounts for all failures.

- **The policy goes on** (`Reached.judging_goes_on`).
- **What is done about a failure**: by the call that ran the listener (`Taken`), and by whoever is
  told of one (`Heeded`). What is dropped was logged before (`Reached.dropped`).
- **All failures** (`Accounted`, `loses_no_failure`).
-/

namespace OneShot

variable {H : Host} {b : Behaviour H}

namespace Chronicle

variable {c : Chronicle H} {p : PromiseId} {e : ListenerError} {i : CallId}

/-! ## The policy goes on -/

theorem Reached.exists_promise (hc : c.Reached b) {r : Notifying H}
    (hi : c.frame? i = some (.notifying p r)) : ∃ pr, c.machine.promise? p = some pr := by
  obtain ⟨ν, hν, rfl, g, hg, hs⟩ := hc.entered i _ hi rfl
  have hb := ((hc.path ν hν g hg hs).becomes hc).1 _ hi
  obtain ⟨r', rfl⟩ := hb.of_notifying
  obtain ⟨pr₀, hp₀, -⟩ := hc.cells_of_run hν hg
  obtain ⟨pr, hp, -⟩ := hc.made_since hν hp₀
  obtain ⟨pr', hp', -⟩ := Option.map_eq_some_iff.1 hp
  exact ⟨pr', hp'⟩

/-- A notification that has a failure judged can go on when it is its turn, which it is if the
policy is yet to be asked. -/
theorem Reached.judging_goes_on (hc : c.Reached b) {s : Notifying H}
    (hi : c.frame? i = some (.notifying p s)) (hs : s.failure? = some e)
    (htop : s = .settle e ∨ (c.calls i.thread).head? = some i)
    (hab : c.machine.aborted = false) : ∃ m, c.machine.step b i.thread = some m := by
  have hhead : (c.calls i.thread).head? = some i := by
    rcases htop with rfl | hhead
    · exact hc.tracked.top_of_not_awaits hi rfl
    · exact hhead
  obtain ⟨k, rest, token, ht, hk, -⟩ := hc.top hi hhead hab
  refine Machine.exists_step hab ht ?_
  cases s with
  | settle e' =>
    rw [hk.resolve_right Bool.false_ne_true]
    obtain ⟨pr, hp⟩ := hc.exists_promise hi
    exact Notifying.isSome_settle hp
  | settling e' code => exact Notifying.isSome_settling
  | _ => cases hs

end Chronicle

/-! ## What is done about a failure -/

/-- What the call that ran a listener of `p` at the moment `ν` makes of its failure `e`, as that was
judged. -/
inductive Taken (b : Behaviour H) (c : Chronicle H) (p : PromiseId) (ν : Moment H)
    (e : ListenerError) : Disposition → Prop
  /-- The call is to go on. -/
  | due {d f g} (hn : ν.next = .enter g f) (hi : c.frame? ν.call = some f)
    (hgo : c.machine.aborted = false → ∃ m, c.machine.step b ν.call.thread = some m) :
    Taken b c p ν e d
  /-- The delivery goes on as if the listener had gone well. -/
  | delivery {τ rest} (hτ : τ ∈ c.moments ν.call) (hf : τ.frame = .completing p (.delivering rest))
    (hk : τ.control = .ret (.notified (.ok ())))
    (hn : τ.next = .goto (.completing p (.deliver rest))) : Taken b c p ν e .absorb
  /-- The registration answers as if the listener had gone well. -/
  | registration {τ closing} (hτ : τ ∈ c.moments ν.call)
    (hf : τ.frame = .registering p .inline closing) (hk : τ.control = .ret (.notified (.ok ())))
    (hn : τ.next = .answer (closing.answer (.ok ()))) : Taken b c p ν e .absorb
  /-- The completion call answers the failure. -/
  | completer {τ rest} (hτ : τ ∈ c.moments ν.call) (hf : τ.frame = .completing p (.delivering rest))
    (hk : τ.control = .ret (.notified (.error e))) (hn : τ.next = .answer (.settled (.error e))) :
    Taken b c p ν e .propagate
  /-- The registration answers the failure. -/
  | registrant {τ} (hτ : τ ∈ c.moments ν.call) (hf : τ.frame = .registering p .inline .report)
    (hk : τ.control = .ret (.notified (.error e))) (hn : τ.next = .answer (.notified (.error e))) :
    Taken b c p ν e .propagate

/-- The failure `e` of a listener of `p` is accounted for, to which notification `i` has come. -/
structure Accounted (b : Behaviour H) (c : Chronicle H) (p : PromiseId) (e : ListenerError)
    (i : CallId) : Prop where
  /-- It is put to the policy once, and what that judges is logged once. -/
  judging : Judging b p e (c.moments i) (c.frame? i)
  /-- The policy is that of the promise. -/
  policy : ∀ γ ∈ c.moments i, γ.frame = .notifying p (.settle e) →
    ∃ pr, c.machine.promise? p = some pr ∧ pr.policy.Treats p e γ.next
  /-- Nothing keeps the policy from being asked. -/
  goes_on : ∀ f, c.frame? i = some f →
    f = .notifying p (.settle e) ∨ (c.calls i.thread).head? = some i →
    c.machine.aborted = false → ∃ m, c.machine.step b i.thread = some m
  /-- What was judged is taken by the call that ran the listener. -/
  taken : ∀ d, (c.moments i).flatMap Moment.failures = [(d, p, e)] →
    ∃ ν ∈ c.past, ν.entered = i ∧ Taken b c p ν e d

/-- What the call that is told of the failure `e` at the moment `τ`, after the moments `l`, makes of
it. -/
inductive Heeded (b : Behaviour H) (l : List (Moment H)) (τ : Moment H) (e : ListenerError) : Prop
  /-- The program is told. -/
  | program (hf : τ.frame.code?.isSome = true)
  /-- A completion call answers it. -/
  | completer {p rest} (hf : τ.frame = .completing p (.delivering rest))
    (hn : τ.next = .answer (.settled (.error e)))
  /-- A registration answers it. -/
  | registrant {p} (hf : τ.frame = .registering p .inline .report)
    (hn : τ.next = .answer (.notified (.error e)))
  /-- It is a failure of the chain listener that has completed its target. -/
  | relayed {p d} (hf : τ.frame = .notifying p (.relaying d)) (h : τ.Fails b p e)
  /-- It is dropped, by the cancellation of a derived promise whose callback has panicked. It was
  logged before. -/
  | dropped {p d x ε code m} (hf : τ.frame = .notifying p (.cleaning d x)) (hn : τ.next = .throw x)
    (hε : ε ∈ l) (hcall : ε.call = τ.call) (hfε : ε.frame = .notifying p (.transforming d code))
    (hx : ε.before.resume b ε.call.thread code ε.control = (m, .panic x))
    (hlog : (.propagate, d, e) ∈ l.flatMap Moment.failures)

theorem Fate.eq_judged_of_failures {fate : Fate} {p : PromiseId} {d : Disposition}
    {e : ListenerError} (h : fate.failures p = [(d, p, e)]) : fate = .judged d e := by
  cases fate <;> cases h
  rfl

/-- A chain listener that is told of a failure when its callback has panicked goes on with the
panic. -/
theorem Moment.Sound.next_of_cleaning {τ : Moment H} (h : τ.Sound b) {p d : PromiseId} {x : String}
    {e : ListenerError} (hf : τ.frame = .notifying p (.cleaning d x))
    (he : τ.control.error? = some e) : τ.next = .throw x := by
  have hm := h.notifying hf
  generalize τ.next = n, τ.control = k, τ.failures = fs at hm he
  cases hm with
  | run hs => cases hs
  | result hres => cases hres
  | panic hx => cases hx
  | cleaned => rfl
  | ask hs => cases hs
  | decide hd => cases hd
  | abort hc => rw [hc] at he; cases he

namespace Chronicle

variable {c : Chronicle H} {μ ν κ ρ τ : Moment H} {p s d : PromiseId} {f : Frame H}
  {e : ListenerError} {a : Listener H} {k : Control} {i : CallId} {v : Disposition}

/-- What was judged is taken by the call that ran the listener. -/
theorem Reached.taken (hc : c.Reached b) (hh : c.Honest) (hν : ν ∈ c.past)
    (hn : ν.next = .enter (.notifying p (a.begin p)) f) (hr : ν.Runs p a f)
    (hover : c.frame? ν.entered = none)
    (hl : (c.moments ν.entered).flatMap Moment.failures = [(v, p, e)]) : Taken b c p ν e v := by
  have hsteady : ν.frame.steady = true := by
    cases hr with
    | delivery hf | registration hf => rw [hf]; rfl
  obtain ⟨g, hp, -⟩ := hc.path_of_moment ν hν hsteady
  -- The call that runs the listener has not been told yet, or `τ` is the step at which it is.
  rcases hp.following ν (mem_moments.2 ⟨hν, rfl⟩) with ⟨hlast, hx⟩ | ⟨τ, hτ, hown, htold⟩
  · have hi : c.frame? ν.call = some f := by rw [hx, hn]; rfl
    exact .due hn hi fun hab => hc.run_goes_on hν hn hr hi hlast hover hab
  · have hτf : τ.frame = f := by
      rw [hn] at hown
      exact (Option.some.inj hown).symm
    obtain ⟨fate, ho, hk⟩ := hc.exists_fate_of_told hν (l := a) (by rw [hn]; rfl) htold
    obtain rfl := Fate.eq_judged_of_failures (ho.failures.symm.trans hl)
    have hτp := (mem_moments.1 hτ).1
    cases hr with
    | delivery =>
      obtain ⟨pr, pr', -, -, hm⟩ := hc.moved τ hτp p _ hτf
      generalize hx : τ.next = n at hm
      rw [hk] at hm
      cases v <;> cases hm
      · exact .delivery hτ hτf hk hx
      · exact .completer hτ hτf hk hx
    | @registration r closing =>
      have hm := (hc.sound τ hτp).1.registering hτf
      generalize hx : τ.next = n, τ.after.cells? p = x' at hm
      rw [hk] at hm
      cases v with
      | absorb => cases hm; exact .registration hτ hτf hk hx
      | propagate =>
        obtain rfl := hc.reports hh hτp hτf hk
        cases hm
        exact .registrant hτ hτf hk hx

/-- Every failure of a listener is accounted for. -/
theorem Reached.accounted (hc : c.Reached b) (hh : c.Honest) (hμ : μ ∈ c.past)
    (h : μ.Fails b p e) : Accounted b c p e μ.call := by
  have hjudge := hc.judging hμ h
  obtain ⟨r, hf, -⟩ := id h
  obtain ⟨ν, hν, hent, a, f, hn, hr, -⟩ := hc.exists_runs hμ hf
  refine ⟨hjudge, fun γ hγ hfγ => ?_, fun f' hf' htop hab => ?_, fun v hl => ?_⟩
  · have hγ := (mem_moments.1 hγ).1
    obtain ⟨pr₀, hp₀, htreat⟩ := (hc.sound γ hγ).1.treats hfγ
    obtain ⟨pr, hp, hmade⟩ := hc.made_since hγ hp₀
    obtain ⟨pr', hp', rfl⟩ := Option.map_eq_some_iff.1 hp
    have hpolicy : pr'.policy = pr₀.policy := (Promise.eq_of_made_eq hmade).2.1
    exact ⟨pr', hp', hpolicy ▸ htreat⟩
  · generalize hx : c.frame? μ.call = x at hjudge
    cases hjudge with
    | due => exact hc.judging_goes_on hx rfl (.inl rfl) hab
    | asked =>
      rw [hx] at hf'
      refine hc.judging_goes_on hx rfl (.inr ?_) hab
      rcases htop with rfl | hhead
      · cases hf'
      · exact hhead
    | judged | panicked => rw [hx] at hf'; cases hf'
  · refine ⟨ν, hν, hent, ?_⟩
    rw [← hent] at hl hjudge
    refine hc.taken hh hν hn hr ?_ hl
    generalize c.frame? ν.entered = x at hjudge
    cases hjudge with
    | due _ hl' | asked _ hl' | panicked _ hl' => cases hl'.symm.trans hl
    | judged => rfl

/-- A failure that a chain listener is told of when its callback has panicked is dropped, and it was
logged before. -/
theorem Reached.dropped (hc : (c.record τ).Reached b) {x : String}
    (hf : τ.frame = .notifying p (.cleaning d x)) (he : τ.control.error? = some e) :
    Heeded b c.past τ e := by
  have hsound := (hc.sound τ mem_record_self).1
  obtain ⟨ε, hε, o, hcall, hends, hn, ρ, hρ, -, ⟨r, hfρ⟩, htold⟩ :=
    hc.relayed mem_record_self hf (.inr ⟨x, rfl⟩)
  -- The step that drops the failure is none of those looked for: they are earlier.
  have hback : ∀ ν ∈ (c.record τ).past, (∀ y, ν.frame ≠ .notifying p (.cleaning d y)) →
      ν ∈ c.past := fun ν hν hne =>
    (mem_record.1 hν).resolve_right fun heq => hne x (heq ▸ hf)
  cases hends with
  | returned _ _ hn' => rw [hn'] at hn; cases hn
  | panicked hfε hx hn' =>
    rw [hn'] at hn
    cases hn
    obtain ⟨ω, hω, a, -, ho⟩ := hc.handed_back hρ hfρ htold he
    have hmem : ((.propagate, d, e) : Failure) ∈
        ((c.record τ).moments ω.entered).flatMap Moment.failures := by
      rw [ho.failures]
      exact List.mem_cons_self
    obtain ⟨ξ, hξ, hlog⟩ := List.mem_flatMap.1 hmem
    have hξ := (mem_moments.1 hξ).1
    refine .dropped hf (hsound.next_of_cleaning hf he) (hback ε hε fun y hy => ?_) hcall hfε hx
      (List.mem_flatMap.2 ⟨ξ, hback ξ hξ fun y hy => ?_, hlog⟩)
    · rw [hfε] at hy
      cases hy
    · obtain ⟨v, q, e', s', -, hfξ, hd, -⟩ := (hc.sound ξ hξ).1.exists_decides hlog
      rw [hfξ] at hy
      cases hy
      cases hd

/-- Whoever is told of a failure hands it on, has it judged, or drops it as one that was logged. -/
theorem Reached.heeded (hc : c.Reached b) (hh : c.Honest) {l l' : List (Moment H)}
    (hpast : c.past = l ++ τ :: l') (he : τ.control.error? = some e) : Heeded b l τ e := by
  obtain ⟨c₀, hc₀, rfl, h, hturn, hl⟩ := hc.exists_reaches hpast
  have hc₁ := hc₀.reaches hturn
  have hh₁ : (c₀.record τ).Honest := hh.of_reaches hc₁ hl
  have hsound := (hc₁.sound τ mem_record_self).1
  have hk := Control.cases_of_error? he
  have hawaits : τ.frame.awaits = true := by
    refine hsound.control.resolve_left fun hgo => ?_
    rw [hgo] at he
    cases he
  -- Only a call that awaits another is told of an error, and of these there are five kinds.
  rcases Frame.cases_of_awaits hawaits with hcode | ⟨p, rest, hf⟩ | ⟨p, closing, hf⟩ |
    ⟨p, d, hf | ⟨x, hf⟩⟩
  · exact .program hcode
  · obtain ⟨pr, pr', -, -, hm⟩ := hc₁.moved τ mem_record_self p _ hf
    generalize hn : τ.next = n, τ.control = k at hm hk
    cases hm with
    | propagate =>
      rcases hk with hk | hk <;> cases hk
      exact .completer hf hn
    | delivered | pass => rcases hk with hk | hk <;> cases hk
  · have hm := hsound.registering hf
    have hreport := fun hk => hc₁.reports (e := e) hh₁ mem_record_self hf hk
    generalize hn : τ.next = n, τ.control = k, τ.after.cells? p = x' at hm hk hreport
    cases hm with
    | back =>
      rcases hk with hk | hk <;> cases hk
      obtain rfl := hreport rfl
      exact .registrant hf hn
    | pass => rcases hk with hk | hk <;> cases hk
  · refine .relayed hf ⟨_, hf, .relayedError (hk.resolve_left fun hk => ?_)⟩
    cases hsound.made with
    | wake _ hf' => rw [hf] at hf'; cases hf'
    | step _ _ hs _ => rw [hf, hk] at hs; cases hs
  · exact hc₁.dropped hf he

/-! ## All failures -/

/-- No failure of a listener is lost. Each is put once to the policy of its promise; if that judges
it, it is logged once and then absorbed, or answered by the call that ran the listener; and nothing
else is logged about failures. What observers and chainings throw away is no failure, since a
derived promise has no listeners before the call that derives it is over. Whoever is told of a
failure hands it on, has it judged in turn, or drops it when it cancels a derived promise whose
callback has panicked, and in that case it was logged before. -/
theorem loses_no_failure (hc : c.Reached b) (hh : c.Honest) :
    (∀ μ ∈ c.past, ∀ p e, μ.Fails b p e → Accounted b c p e μ.call) ∧
    (∀ μ ∈ c.past, ∀ φ ∈ μ.failures, ∃ d p e, φ = (d, p, e) ∧ μ.failures = [φ] ∧
      ∃ ρ ∈ c.past, ρ.call = μ.call ∧ ρ.Fails b p e) ∧
    (∀ τ ∈ c.past, ∀ p closing r, τ.frame = .registering p .inline closing →
      τ.control = .ret (.notified r) → closing ≠ .report → r = .ok ()) ∧
    (∀ κ ∈ c.past, ∀ s f d, κ.Derives s f d → c.frame? κ.call ≠ none →
      c.stored d = [] ∧ ∀ ν ∈ c.past, ∀ r, ν.next.callee? ≠ some (.notifying d r)) ∧
    ∀ l τ l', c.past = l ++ τ :: l' → ∀ e, τ.control.error? = some e → Heeded b l τ e := by
  refine ⟨fun μ hμ p e h => hc.accounted hh hμ h, fun μ hμ φ hφ => hc.exists_fails hμ hφ,
    fun τ hτ p closing r hf hk hne => ?_, fun κ hκ s f d hd hi => ⟨?_, fun ν hν r => ?_⟩,
    fun l τ l' hpast e he => hc.heeded hh hpast he⟩
  · cases r with
    | ok u => rfl
    | error e => exact absurd (hc.reports hh hτ hf hk) hne
  · refine List.eq_nil_iff_forall_not_mem.2 fun x hx => ?_
    obtain ⟨ν, hν, -, -, closing, hf⟩ := exists_of_mem_stored (i := x.1) (a := x.2) hx
    exact hc.unshared hh hκ hd hi hν hf
  · exact hc.not_run_of_unshared hh hκ hd hi hν

/-- A thread makes a promise, chains another one from it, registers a listener with that one that
fails, and completes the first promise. -/
def brittle : (r : Role) → Nat → Act Tabled r
  | .task, 0 => .call (.build {}) 1
  | .task, 1 => .call (.chain 0 5) 2
  | .task, 2 => .call (.listen 1 0) 3
  | .task, 3 => .call (.complete 0 (.value .unit)) 4
  | .listener, 0 => .finish (.error (.failed "broken"))
  | r, _ => Tabled.quiet r

/-- The run of that thread to its end. -/
def breakage : Option (Chronicle Tabled) :=
  (Tabled.start [0]).turns? (Tabled.behaviour brittle) (List.replicate 47 (.step 0))

theorem loses_no_failure_breakage : ∃ c, breakage = some c ∧
    c.Reached (Tabled.behaviour brittle) ∧ c.Honest ∧
    c.past.flatMap Moment.failures =
      [(.propagate, 1, .failed "broken"), (.propagate, 0, .failed "broken")] ∧
    ∀ φ ∈ c.past.flatMap Moment.failures, ∃ μ ∈ c.past,
      μ.Fails (Tabled.behaviour brittle) φ.2.1 φ.2.2 ∧
        Accounted (Tabled.behaviour brittle) c φ.2.1 φ.2.2 μ.call := by
  have hrun : (breakage.any fun c => c.isHonest && c.past.flatMap Moment.failures ==
      [(.propagate, 1, .failed "broken"), (.propagate, 0, .failed "broken")]) = true := by
    decide +kernel
  obtain ⟨c, hc, hrun⟩ := (Option.any_eq_true _ _).1 hrun
  simp only [Bool.and_eq_true, beq_iff_eq] at hrun
  obtain ⟨hh, hlog⟩ := hrun
  have hreach := Tabled.reached hc
  obtain ⟨haccounted, hfails, -⟩ := loses_no_failure hreach (honest_of_isHonest hh)
  refine ⟨c, hc, hreach, honest_of_isHonest hh, hlog, fun φ hφ => ?_⟩
  obtain ⟨ν, hν, hφ⟩ := List.mem_flatMap.1 hφ
  obtain ⟨d, p, e, rfl, -, μ, hμ, -, h⟩ := hfails ν hν φ hφ
  exact ⟨μ, hμ, h, haccounted μ hμ p e h⟩

end Chronicle

end OneShot
