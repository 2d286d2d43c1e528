import OneShot.Proofs.Chain.Handles
import OneShot.Proofs.Completion.Ending

/-!
# Who decides a derived promise

A derived promise is completed by its chain listener, with what the callback came to, and by nobody
else.

- **The end of a callback** (`Moment.Ends`): its result, or a cancellation if it panicked, is what
  the completion of the derived promise is entered with.
- **Calls that are entered** (`Moment.Sound.enters`): by the program's code, as notifications, or at
  the end of a callback.
- **One end** (`Callback`, `Path.callback`): a chain listener ends its callback once at most.
- **The decision** (`Won.ends`, `Derivation`, `Reached.derivation`): who has won a derived promise
  was entered at the end of its callback.
-/

namespace OneShot

variable {H : Host} {b : Behaviour H}

/-! ## The end of a callback -/

/-- At this moment the chain callback ends that is to complete `d`: it has returned or panicked, and
the completion of `d` is entered with the outcome `o`. -/
inductive Moment.Ends (b : Behaviour H) (μ : Moment H) (d : PromiseId) : Outcome → Prop
  | returned {p code m r} (hf : μ.frame = .notifying p (.transforming d code))
    (hr : μ.before.resume b μ.call.thread code μ.control = (m, .finish r))
    (hn : μ.next =
      .enter (.completing d (.claim (.ofExcept r))) (.notifying p (.relaying d))) :
    Ends b μ d (.ofExcept r)
  | panicked {p code m x} (hf : μ.frame = .notifying p (.transforming d code))
    (hr : μ.before.resume b μ.call.thread code μ.control = (m, .panic x))
    (hn : μ.next =
      .enter (.completing d (.claim .cancelled)) (.notifying p (.cleaning d x))) :
    Ends b μ d .cancelled

section

variable {μ : Moment H} {p d : PromiseId} {o o' : Outcome} {code : H.Code .transform}

theorem Moment.Ends.callee? (h : μ.Ends b d o) :
    μ.next.callee? = some (.completing d (.claim o)) := by
  cases h with
  | returned _ _ hn | panicked _ _ hn => rw [hn]; rfl

theorem Moment.Ends.frame (h : μ.Ends b d o) :
    ∃ p code, μ.frame = .notifying p (.transforming d code) := by
  cases h with
  | returned hf | panicked hf => exact ⟨_, _, hf⟩

theorem Moment.Ends.unique (h : μ.Ends b d o) (h' : μ.Ends b d o') : o' = o := by
  have hn := h.callee?
  rw [h'.callee?] at hn
  cases hn
  rfl

theorem Moment.Ends.own_ne (h : μ.Ends b d o) :
    μ.next.own μ.frame ≠ some (.notifying p (.transforming d code)) := by
  cases h with
  | returned _ _ hn | panicked _ _ hn => rw [hn]; nofun

/-- A chain callback goes on or ends. -/
theorem Moment.Sound.transforming (h : μ.Sound b)
    (hf : μ.frame = .notifying p (.transforming d code)) :
    (∃ code', μ.next.own μ.frame = some (.notifying p (.transforming d code'))) ∨
      ∃ o, μ.Ends b d o := by
  cases h.made with
  | wake _ hf' => rw [hf] at hf'; cases hf'
  | step _ _ hs _ =>
    rw [hf] at hs
    replace hs : (Notifying.transforming d code).step b μ.before μ.call.thread p μ.control = _ := hs
    simp only [Notifying.step] at hs
    generalize hn : μ.next = n at hs
    split at hs <;> rename_i hr <;> cases hs
    · exact .inl ⟨_, rfl⟩
    · exact .inl ⟨_, rfl⟩
    · exact .inr ⟨_, .returned hf hr hn⟩
    · exact .inr ⟨_, .panicked hf hr hn⟩

/-- A notification comes to a chain callback only as one that runs it already. -/
theorem Notifying.transforming_of_step {m m' : Machine H} {t : ThreadId} {k : Control} {n : Next H}
    {s : Notifying H} (h : s.step b m t p k = some (m', n))
    (hn : n.own (.notifying p s) = some (.notifying p (.transforming d code))) :
    ∃ code', s = .transforming d code' := by
  have hresult : ∀ r, (ofResult p r).own (.notifying p s) ≠
      some (.notifying p (.transforming d code)) := by
    intro r
    cases r <;> nofun
  have hconclude : ∀ (m₁ : Machine H) e (v : Disposition), m₁.conclude p e v = (m', n) → False := by
    intro m₁ e v heq
    have hx := m₁.conclude_next (p := p) e v
    rw [heq] at hx
    rw [show n = _ from hx] at hn
    cases hn
  -- Only the case of the callback itself leads to it again; all others go elsewhere.
  cases s with
  | listening =>
    cases Machine.ran_of_runCode h with
    | call | stay | panic => cases hn
    | finish _ hd => cases hd; exact absurd hn (hresult _)
  | observing =>
    cases Machine.ran_of_runCode h with
    | call | stay | panic => cases hn
    | finish _ hd => cases hd; cases hn
  | transforming target code' =>
    simp only [step] at h
    split at h <;> cases h <;> cases hn <;> exact ⟨_, rfl⟩
  | relaying target =>
    simp only [step] at h
    split at h <;> cases h
    · exact absurd hn (hresult _)
    · exact absurd hn (hresult _)
    · cases hn
  | cleaning target x =>
    simp only [step] at h
    split at h <;> cases h <;> cases hn
  | settle e =>
    rcases Machine.runStage_eq_some h with ⟨-, h⟩ | ⟨x, -, h⟩
    · obtain ⟨pr, -, h⟩ := Option.bind_eq_some_iff.1 h
      split at h
      · cases h
        cases hn
      · obtain ⟨v, -, heq⟩ := Option.map_eq_some_iff.1 h
        exact (hconclude m e v heq).elim
    · cases h
      cases hn
  | settling e code' =>
    cases Machine.ran_of_runCode h with
    | call | stay | panic => cases hn
    | finish _ hd => exact (hconclude _ e _ (Option.some.inj hd)).elim

theorem Moment.Sound.transforming_of_own {s : Notifying H} (h : μ.Sound b)
    (hf : μ.frame = .notifying p s)
    (hn : μ.next.own μ.frame = some (.notifying p (.transforming d code))) :
    ∃ code', s = .transforming d code' := by
  cases h.made with
  | wake _ hf' => rw [hf] at hf'; cases hf'
  | step _ _ hs _ =>
    rw [hf] at hs hn
    exact Notifying.transforming_of_step hs hn

end

/-! ## Calls that are entered -/

/-- A call that waits without running code is a delivery, an inline notification, or a chain
listener at the completion of its target. -/
theorem Frame.cases_of_awaits {f : Frame H} (h : f.awaits = true) : f.code?.isSome = true ∨
    (∃ p rest, f = .completing p (.delivering rest)) ∨
    (∃ p closing, f = .registering p .inline closing) ∨
    ∃ p d, f = .notifying p (.relaying d) ∨ ∃ x, f = .notifying p (.cleaning d x) := by
  unfold awaits at h
  split at h
  · exact .inr (.inl ⟨_, _, rfl⟩)
  · exact .inr (.inr (.inr ⟨_, _, .inl rfl⟩))
  · exact .inr (.inr (.inr ⟨_, _, .inr ⟨_, rfl⟩⟩))
  · exact .inr (.inr (.inl ⟨_, _, rfl⟩))
  · exact .inl h

/-- Code that calls the library waits for the call as code. -/
theorem Machine.own_of_runCode {m m' : Machine H} {t : ThreadId} {r : Role} {code : H.Code r}
    {k : Control} {wrap : H.Code r → Frame H} {done : Machine H → r.Reply → Move H} {g f : Frame H}
    (h : m.runCode b t code k wrap done = some (m', .enter g f))
    (hd : ∀ m₁ v, done m₁ v ≠ some (m', .enter g f)) : ∃ code', f = wrap code' := by
  generalize hn : Next.enter g f = n at h
  cases Machine.ran_of_runCode h with
  | call => cases hn; exact ⟨_, rfl⟩
  | stay | panic => cases hn
  | finish _ hv => exact absurd (hn ▸ hv) (hd _ _)

section

variable {m m' : Machine H} {t : ThreadId} {p : PromiseId} {k : Control} {g f : Frame H}

/-- A completion call waits for what its code calls as one that runs code. -/
theorem Completing.code_of_enter {s : Completing H} (h : s.step b m t p k = some (m', .enter g f))
    (hs : (Frame.completing p s).code?.isSome = true) : f.code?.isSome = true := by
  cases s with
  | stamp code =>
    obtain ⟨_, rfl⟩ := Machine.own_of_runCode h fun m₁ v hv => by
      obtain ⟨pr, -, hv⟩ := Option.bind_eq_some_iff.1 hv
      cases hv
    rfl
  | waking code rest =>
    obtain ⟨_, rfl⟩ := Machine.own_of_runCode h fun m₁ v => nofun
    rfl
  | _ => cases hs

/-- A notification waits for what its code calls as one that runs code, unless its chain callback
has ended. -/
theorem Notifying.code_of_enter {s : Notifying H} (h : s.step b m t p k = some (m', .enter g f))
    (hs : (Frame.notifying p s).code?.isSome = true) (ht : ∀ d code, s ≠ .transforming d code) :
    f.code?.isSome = true := by
  cases s with
  | listening code =>
    obtain ⟨_, rfl⟩ := Machine.own_of_runCode h fun m₁ v hv => by cases v <;> cases hv
    rfl
  | observing code =>
    obtain ⟨_, rfl⟩ := Machine.own_of_runCode h fun m₁ v => nofun
    rfl
  | transforming d code => exact absurd rfl (ht d code)
  | settling e code =>
    obtain ⟨_, rfl⟩ := Machine.own_of_runCode h fun m₁ v hv => by cases v <;> cases hv
    rfl
  | _ => cases hs

end

/-- A call is entered by the program's code, or it is a notification, or it completes a derived
promise at the end of its callback. -/
theorem Moment.Sound.enters {μ : Moment H} {g f : Frame H} (h : μ.Sound b)
    (hn : μ.next = .enter g f) : f.code?.isSome = true ∨ (∃ p s, g = .notifying p s) ∨
      ∃ d o, g = .completing d (.claim o) ∧ μ.Ends b d o := by
  cases h.made with
  | wake _ _ hn' => rw [hn] at hn'; cases hn'
  | step _ _ hstep _ =>
    have hleads := h.made.leads
    rw [hn] at hleads hstep
    generalize hfr : μ.frame = fr at hleads hstep
    -- A chain callback enters what its code calls, and at its end the completion of `d`.
    have hends : ∀ p d code, fr = .notifying p (.transforming d code) → f.code?.isSome = true ∨
        ∃ d o, g = .completing d (.claim o) ∧ μ.Ends b d o := by
      rintro p d code rfl
      rcases h.transforming hfr with ⟨code', hown⟩ | ⟨o, hends⟩
      · rw [hn] at hown
        cases hown
        exact .inl rfl
      · have hcal := hends.callee?
        rw [hn] at hcal
        cases hcal
        exact .inr ⟨_, _, rfl, hends⟩
    cases hleads with
    | enter hs ha hent =>
      cases hent with
      | deliver | check | enroll => exact .inr (.inl ⟨_, _, rfl⟩)
      | transform => exact (hends _ _ _ rfl).imp_right .inr
      | @code _ callee hcode =>
        rcases Frame.cases_of_awaits ha with hf | ⟨p, rest, rfl⟩ | ⟨p, closing, rfl⟩ | ⟨p, d, hf⟩
        · exact .inl hf
        · obtain ⟨s, rfl⟩ := hs.of_completing
          exact .inl (Completing.code_of_enter hstep hcode)
        · rcases hs.of_registering with ⟨s, rfl⟩ | ⟨l, k, rfl⟩
          · cases hcode
          · cases hs
        · obtain ⟨s, rfl⟩ : ∃ s, fr = .notifying p s := by
            rcases hf with rfl | ⟨x, rfl⟩ <;> exact hs.of_notifying
          by_cases ht : ∃ d code, s = .transforming d code
          · obtain ⟨d', code, rfl⟩ := ht
            exact (hends _ _ _ rfl).imp_right .inr
          · exact .inl (Notifying.code_of_enter hstep hcode fun d code hd => ht ⟨d, code, hd⟩)

theorem Moment.Sound.stores {μ : Moment H} {p : PromiseId} (h : μ.Sound b)
    (hw : μ.after.outcome? p ≠ μ.before.outcome? p) : ∃ o, μ.frame = .completing p (.store o) := by
  have hch := h.made.effect.promise p
  rw [Machine.outcome?_eq, Machine.outcome?_eq] at hw
  generalize μ.before.cells? p = x, μ.after.cells? p = x', μ.frame = f, μ.next = n at hch hw
  cases hch with
  | store => exact ⟨_, rfl⟩
  | _ => exact absurd rfl hw

/-! ## One end -/

/-- How far a notification that runs the chain callback for `d` has come after the moments `l`. -/
inductive Callback (b : Behaviour H) (s d : PromiseId) (l : List (Moment H))
    (x : Option (Frame H)) : Prop
  | running {code} (hx : x = some (.notifying s (.transforming d code)))
    (hl : ∀ ρ ∈ l, ∀ o, ¬ρ.Ends b d o)
  | ended {ε o} (hε : ε ∈ l) (h : ε.Ends b d o) (hl : ∀ ρ ∈ l, ∀ o', ρ.Ends b d o' → ρ = ε)
    (hx : ∀ code, x ≠ some (.notifying s (.transforming d code)))

namespace Chronicle

variable {c c' : Chronicle H} {μ ν κ ε : Moment H} {p s d : PromiseId} {f : H.Closure .transform}
  {o : Outcome} {w : CallId} {r : Progress}

theorem Path.callback (hc : c.Reached b) {code : H.Code .transform} {l : List (Moment H)}
    {x : Option (Frame H)} (hp : c.Path (.notifying s (.transforming d code)) l x) :
    Callback b s d l x := by
  induction hp with
  | nil => exact .running rfl fun ρ hρ => by cases hρ
  | @snoc l μ hp hμ ht ih =>
    have hsound := (hc.sound μ hμ).1
    cases ih with
    | @running code' hx hl =>
      have hf := Option.some.inj hx
      rcases hsound.transforming hf with ⟨code'', hown⟩ | ⟨o, hends⟩
      · refine .running hown (List.forall_mem_append.2 ⟨hl, List.forall_mem_singleton.2 ?_⟩)
        exact fun o hends => hends.own_ne hown
      · refine .ended List.mem_concat_self hends (fun ρ hρ o' hρo => ?_) fun _ => hends.own_ne
        rcases List.mem_append.1 hρ with hρ | hρ
        · exact absurd hρo (hl ρ hρ o')
        · exact List.mem_singleton.1 hρ
    | @ended ε o hε h hl hx =>
      -- The notification is past the stage of its callback and does not come to it again.
      obtain ⟨s', hf⟩ := ((hp.becomes hc).1 _ rfl).notifying
      have hnot : ∀ code, μ.next.own μ.frame ≠ some (.notifying s (.transforming d code)) := by
        intro code'' hown
        obtain ⟨code₀, rfl⟩ := hsound.transforming_of_own hf hown
        exact hx code₀ (by rw [hf])
      refine .ended (List.mem_append_left _ hε) h (fun ρ hρ o' hρo => ?_) hnot
      rcases List.mem_append.1 hρ with hρ | hρ
      · exact hl ρ hρ o' hρo
      · obtain rfl := List.mem_singleton.1 hρ
        obtain ⟨p', code', hf'⟩ := hρo.frame
        rw [hf] at hf'
        cases hf'
        exact absurd (congrArg some hf) (hx code')

/-! ## The decision -/

/-- A completion call that is about to claim has been entered with the outcome it claims for. -/
theorem Reached.claiming (hc : c.Reached b) : ∀ i p o,
    c.frame? i = some (.completing p (.claim o)) →
    ∃ ε ∈ c.past, ε.entered = i ∧ ε.next.callee? = some (.completing p (.claim o)) := by
  intro i p o hi
  obtain ⟨ε, hε, rfl, g, hg, hs⟩ := hc.entered i _ hi rfl
  have hp := hc.path ε hε g hg hs
  rw [hi] at hp
  generalize hl : c.moments ε.entered = l, hx : some (Frame.completing p (.claim o)) = x at hp
  cases hp with
  | nil => cases hx; exact ⟨ε, hε, rfl, hg⟩
  | @snoc l μ hp hμ =>
    -- No step of a completion call leads to a claim.
    obtain ⟨s, hf⟩ : ∃ s, μ.frame = .completing p s := by
      rcases (hc.sound μ hμ).1.made.leads.sameCall hx.symm with h | h
      · exact ⟨_, h⟩
      · exact h.of_completing
    obtain ⟨pr, pr', -, -, hm⟩ := hc.moved μ hμ p s hf
    rw [hf] at hx
    generalize μ.next = n, μ.control = k at hm hx
    cases hm <;> cases hx

/-- Before a derived promise is claimed, completion calls on it are entered at the end of its
callback only. -/
theorem Unclaimed.ends (hc : c.Reached b) (hh : c.Honest) (hκ : κ ∈ c.past) (hd : κ.Derives s f d)
    (hu : c.Unclaimed d) {i : CallId} (hi : c.frame? i = some (.completing d (.claim o))) :
    ∃ ε ∈ c.past, ε.entered = i ∧ ε.Ends b d o := by
  obtain ⟨ε, hε, hent, hcal⟩ := hc.claiming i d o hi
  obtain ⟨g, hn⟩ := Next.eq_enter hcal
  rcases (hc.sound ε hε).1.enters hn with hcode | ⟨p, s', hg⟩ | ⟨d', o', hg, hends⟩
  · obtain ⟨l, l', hpast⟩ := List.append_of_mem hε
    have hasks : ε.completes? = some d := by
      simp only [Moment.completes?, hn]
      exact if_pos hcode
    obtain ⟨ν, hν, hlent⟩ := hh.completes l ε l' hpast d hasks
    exact absurd hlent (hc.not_lent hκ hd hu (hpast ▸ List.mem_append_left _ hν))
  · cases hg
  · cases hg
    exact ⟨ε, hε, hent, hends⟩

/-- A promise is derived before anything can be done about it. -/
theorem Reached.derives_before (hc : c.Reached b) (hl : c.Reaches b c') (hκ : κ ∈ c'.past)
    (hd : κ.Derives s f d) {pr : Promise H} (hp : c.machine.cells? d = some pr) : κ ∈ c.past := by
  induction hl with
  | refl => exact hκ
  | tail e hl he ih =>
    have hc₁ := hc.reaches hl
    obtain ⟨μ, hμ, rfl⟩ := exists_extends_of_turn? hc₁.tracked he
    rcases mem_record.1 hκ with hκ | rfl
    · exact ih hκ
    · obtain ⟨hnone, -⟩ := (hμ.sound hc₁.tracked).derives hd
      obtain ⟨pr', hp', -⟩ := hc.made hl hp
      rw [hμ.before, hp'] at hnone
      cases hnone

/-- The moment at which a promise is won, and the run before it. -/
theorem Won.exists_claim (hc : c.Reached b) (hw : c.Won p w o r) :
    ∃ (c₀ : Chronicle H) (ω : Moment H), c₀.Reached b ∧ c₀.Extends b ω ∧ c₀.Reaches b c ∧
      (∀ ν ∈ c₀.past, ν ∈ c.past) ∧ c₀.Unclaimed p ∧ ω.frame = .completing p (.claim o) ∧
      ω.call = w := by
  have hmem : (w, o) ∈ c.past.filterMap (Moment.won? p) := by
    rw [hw.wins]
    exact List.mem_cons_self
  obtain ⟨ω, hω, hwon⟩ := List.mem_filterMap.1 hmem
  obtain ⟨hf, hcall⟩ : ω.frame = .completing p (.claim o) ∧ ω.call = w := by
    unfold Moment.won? at hwon
    split at hwon
    · rename_i q o' _ hf _
      split at hwon
      · rename_i hq
        cases hwon
        exact ⟨hq ▸ hf, rfl⟩
      · cases hwon
    · cases hwon
  obtain ⟨l, l', hpast⟩ := List.append_of_mem hω
  obtain ⟨c₀, hc₀, rfl, h, hturn, hl⟩ := hc.exists_reaches hpast
  refine ⟨c₀, ω, hc₀, h, hturn.trans hl, fun ν hν => hpast ▸ List.mem_append_left _ hν, ?_, hf,
    hcall⟩
  cases hc₀.contest p with
  | unclaimed hu => exact hu
  | won hw₀ =>
    -- There would be two winners.
    have hwins := hw.wins
    rw [hpast, List.filterMap_append, hw₀.wins, List.filterMap_cons, hwon] at hwins
    simp at hwins

/-- A derived promise is won only by the completion that its callback has ended with. -/
theorem Won.ends (hc : c.Reached b) (hh : c.Honest) (hκ : κ ∈ c.past) (hd : κ.Derives s f d)
    (hw : c.Won d w o r) : ∃ ε ∈ c.past, ε.entered = w ∧ ε.Ends b d o := by
  obtain ⟨c₀, ω, hc₀, h, hl, hmem, hu, hf, rfl⟩ := hw.exists_claim hc
  obtain ⟨pr, hp⟩ := h.exists_cells? hc₀.tracked hf
  obtain ⟨ε, hε, hent, hends⟩ := hu.ends hc₀ (hh.of_reaches hc₀ hl)
    (hc₀.derives_before hl hκ hd hp) hd (by rw [h.frame? hc₀.tracked, hf])
  exact ⟨ε, hmem ε hε, hent, hends⟩

/-- A notification that runs a chain callback has invoked it. -/
theorem Path.transforming (hc : c.Reached b) {g : Frame H} {l : List (Moment H)}
    {x : Option (Frame H)} (hp : c.Path g l x) : ∀ code,
    x = some (.notifying p (.transforming d code)) →
    ∃ code', g = .notifying p (.transforming d code') := by
  induction hp with
  | nil => exact fun code hx => ⟨code, Option.some.inj hx⟩
  | @snoc l μ hp hμ ht ih =>
    intro code hx
    have hsound := (hc.sound μ hμ).1
    obtain ⟨s', hf⟩ : ∃ s', μ.frame = .notifying p s' := by
      rcases hsound.made.leads.sameCall hx with h | h
      · exact ⟨_, h⟩
      · exact h.of_notifying
    obtain ⟨code', rfl⟩ := hsound.transforming_of_own hf hx
    exact ih code' (by rw [hf])

theorem Reached.callback_of_frame? (hc : c.Reached b) {i : CallId} {code : H.Code .transform}
    (hi : c.frame? i = some (.notifying p (.transforming d code))) : i ∈ c.callbacks d := by
  obtain ⟨ν, hν, rfl, g, hg, hs⟩ := hc.entered i _ hi rfl
  have hp := hc.path ν hν g hg hs
  obtain ⟨code', rfl⟩ := hp.transforming hc code hi
  exact mem_callbacks hν hg

theorem Reached.callback_of_ends (hc : c.Reached b) (hε : ε ∈ c.past) (h : ε.Ends b d o) :
    ε.call ∈ c.callbacks d := by
  obtain ⟨p, code, hf⟩ := h.frame
  obtain ⟨c₀, hc₀, hext, hmono, -⟩ := hc.extends_of_mem hε
  have hmem := hc₀.callback_of_frame? (by rw [hext.frame? hc₀.tracked, hf])
  obtain ⟨ν, hν, hcb⟩ := List.mem_filterMap.1 hmem
  exact List.mem_filterMap.2 ⟨ν, hmono ν hν, hcb⟩

/-- How far the derivation of `d` from `s` has come. -/
inductive Derivation (b : Behaviour H) (c : Chronicle H) (s d : PromiseId) : Prop
  /-- The callback has not been invoked. -/
  | waiting (h : c.callbacks d = []) (hu : c.Unclaimed d)
  | running {i : CallId} {code : H.Code .transform} (h : c.callbacks d = [i])
    (hi : c.frame? i = some (.notifying s (.transforming d code))) (hu : c.Unclaimed d)
  /-- The callback has ended, and the completion call that it has entered is about to claim. -/
  | ended {ε : Moment H} {o : Outcome} (h : c.callbacks d = [ε.call]) (hε : ε ∈ c.past)
    (he : ε.Ends b d o) (hi : c.frame? ε.entered = some (.completing d (.claim o)))
    (hu : c.Unclaimed d)
  /-- That call has completed the promise. -/
  | decided {ε : Moment H} {o : Outcome} (h : c.callbacks d = [ε.call]) (hε : ε ∈ c.past)
    (he : ε.Ends b d o) (hd : ∀ c', c.Reaches b c' → c'.DecidedBy d ε.entered o)

/-- A promise is unclaimed as long as the only completion call on it has not made its claim. -/
theorem Unclaimed.claiming (hc : c.Reached b) (hu : c.Unclaimed p) (hε : ε ∈ c.past)
    (hn : ε.next.callee? = some (.completing p (.claim o))) :
    c.frame? ε.entered = some (.completing p (.claim o)) := by
  have hp := hc.path ε hε _ hn rfl
  have hnil : ∀ ρ ∈ c.moments ε.entered, False := by
    intro ρ hρ
    obtain ⟨s', hf⟩ := ((hp.becomes hc).2 ρ hρ).completing
    exact hu.past ρ (mem_moments.1 hρ).1 s' hf
  generalize c.moments ε.entered = l, c.frame? ε.entered = x at hp hnil
  cases hp with
  | nil => rfl
  | snoc => exact (hnil _ List.mem_concat_self).elim

/-- Every derivation has come as far as one of these. -/
theorem Reached.derivation (hc : c.Reached b) (hh : c.Honest) (hκ : κ ∈ c.past)
    (hd : κ.Derives s f d) : c.Derivation b s d := by
  have hcontest := hc.contest d
  rcases hc.callbacks_cases hκ hd with hnil | ⟨ν, hν, hone, hcal⟩
  · cases hcontest with
    | unclaimed hu => exact .waiting hnil hu
    | won hw =>
      obtain ⟨ε, hε, -, hends⟩ := hw.ends hc hh hκ hd
      have hmem := hc.callback_of_ends hε hends
      rw [hnil] at hmem
      cases hmem
  · -- Every end of the callback is a moment of the one notification that has invoked it.
    have hown : ∀ ε ∈ c.past, ∀ o, ε.Ends b d o → ε ∈ c.moments ν.entered := by
      intro ε hε o hends
      have hmem := hc.callback_of_ends hε hends
      rw [hone, List.mem_singleton] at hmem
      exact mem_moments.2 ⟨hε, hmem⟩
    cases (hc.path ν hν _ hcal rfl).callback hc with
    | running hx hl =>
      cases hcontest with
      | unclaimed hu => exact .running hone hx hu
      | won hw =>
        obtain ⟨ε, hε, -, hends⟩ := hw.ends hc hh hκ hd
        exact absurd hends (hl ε (hown ε hε _ hends) _)
    | ended hε hends hl =>
      obtain ⟨hε, hcall⟩ := mem_moments.1 hε
      rw [← hcall] at hone
      cases hcontest with
      | unclaimed hu => exact .ended hone hε hends (hu.claiming hc hε hends.callee?) hu
      | won hw =>
        obtain ⟨ε', hε', rfl, hends'⟩ := hw.ends hc hh hκ hd
        obtain rfl := hl ε' (hown ε' hε' _ hends') _ hends'
        obtain rfl := hends.unique hends'
        refine .decided hone hε hends fun c' hl => ?_
        obtain ⟨r', hw'⟩ := hw.reaches hc hl
        exact hw'.decidedBy

/-- A cancellation of a derived promise does nothing but say so. -/
theorem Reached.cancel_of_derived (hc : c.Reached b) (hκ : κ ∈ c.past) (hd : κ.Derives s f d)
    (hν : ν ∈ c.past) {code : Option (H.Code .hook)} (hf : ν.frame = .cancelling d code) :
    code = none ∧ ν.next = .answer (.settled (.ok false)) := by
  obtain ⟨-, pr, -, hp, -, -, hhook, -⟩ := hc.derived hκ hd
  have hnone : ∀ pr₀, ν.before.cells? d = some pr₀ → pr₀.hook = none := by
    intro pr₀ hp₀
    obtain ⟨pr', hp', hmade⟩ := hc.made_since hν hp₀
    rw [hp] at hp'
    cases hp'
    rw [← (Promise.eq_of_made_eq hmade).2.2.1, hhook]
  cases code with
  | none =>
    obtain ⟨pr₀, hp₀, hn⟩ := (hc.sound ν hν).1.cancelling hf
    rw [hnone pr₀ hp₀] at hn
    exact ⟨rfl, hn⟩
  | some code =>
    obtain ⟨c₀, hc₀, h, -, -⟩ := hc.extends_of_mem hν
    obtain ⟨pr₀, hp₀, hh⟩ := hc₀.hooked _ _ code (by rw [h.frame? hc₀.tracked, hf])
    rw [hnone pr₀ (h.before ▸ hp₀)] at hh
    cases hh

/-! ## Discarded callbacks -/

/-- A chain callback is invoked by the call that has registered its chain listener, or by the
delivery of its source. -/
theorem Reached.call_of_callback (hc : c.Reached b) (hκ : κ ∈ c.past) (hd : κ.Derives s f d)
    (hν : ν ∈ c.past) {code : H.Code .transform}
    (hn : ν.next.callee? = some (.notifying p (.transforming d code))) :
    ν.call = κ.call ∨ ∃ rest, ν.frame = .completing s (.deliver rest) := by
  have hinline : ∀ q closing a, ν.frame = .registering p q closing → q.listener? = some a →
      .transforming d code = a.begin p → ν.call = κ.call := by
    intro q closing a hf hq ha
    cases a with
    | fallible | observer => cases ha
    | chain f' d' =>
      cases ha
      obtain ⟨-, κ', hκ', hcall, hd'⟩ := hc.derives_of_chain hν hf hq
      rw [← hcall, hc.derives_unique hκ' hd' hκ hd]
  rcases ((hc.sound ν hν).1.made.leads.enters hn).of_notifying with
    ⟨a, ha, ⟨rest, hf⟩ | ⟨closing, hf⟩ | ⟨closing, hf⟩⟩
  · obtain ⟨κ', hκ', f', hd', -, -⟩ := hc.derives_of_callee hν hn
    obtain ⟨rfl, rfl, rfl⟩ := hc.derives_inj hκ hd hκ' hd'
    exact .inr ⟨_, hf⟩
  · exact .inl (hinline _ _ _ hf rfl ha)
  · exact .inl (hinline _ _ _ hf rfl ha)

/-- A callback that has not been invoked when both its registration and the delivery of its source
are over is never invoked. -/
theorem Won.callbacks_eq_nil (hc : c.Reached b) (hκ : κ ∈ c.past) (hd : κ.Derives s f d)
    (hw : c.Won s w o r) (hwn : c.frame? w = none) (hκn : c.frame? κ.call = none)
    (h : c.callbacks d = []) (hl : c.Reaches b c') : c'.callbacks d = [] := by
  obtain ⟨l, hpast⟩ := hl.exists_past hc
  have hc' := hc.reaches hl
  have hκ' : κ ∈ c'.past := hpast ▸ List.mem_append_left _ hκ
  obtain ⟨r', hw'⟩ := hw.reaches hc hl
  refine List.filterMap_eq_nil_iff.2 fun ν hν => Option.eq_none_iff_forall_ne_some.2 fun i hi => ?_
  obtain ⟨-, p, code, hn⟩ := Moment.callback?_eq_some_iff.1 hi
  have hmem : ν ∈ c.past := by
    rcases hc'.call_of_callback hκ' hd hν hn with hcall | ⟨rest, hf⟩
    · have hle : κ.call.entry ≤ c.past.length := by
        obtain ⟨-, hlt, hle⟩ := hc.sound κ hκ
        omega
      have hm : ν ∈ c'.moments κ.call := mem_moments.2 ⟨hν, hcall⟩
      rw [(moments_of_over hc hl hle hκn).1] at hm
      exact (mem_moments.1 hm).1
    · have hm : ν ∈ c'.moments w := mem_moments.2 ⟨hν, hw'.call_eq hν hf nofun⟩
      rw [(moments_of_over hc hl hw.entry hwn).1] at hm
      exact (mem_moments.1 hm).1
  have hcb : i ∈ c.callbacks d := List.mem_filterMap.2 ⟨ν, hmem, hi⟩
  rw [h] at hcb
  cases hcb

end Chronicle

end OneShot
