import OneShot.Proofs.Chain.Deciding
import OneShot.Proofs.Listener.Failure

/-!
# Where a failure comes from

A call is told of a failure by a listener that it has run, and a chain listener by the completion of
its target. Where an observer or a chain listener is registered, the result is thrown away. This
module follows failures back to the listeners that they come from, and it says that none is thrown
away there.

- **Promises that nobody has** (`Reached.answered_of_gives`, `Reached.unshared`): a derived promise
  is given to the program by the call that derives it, and it has no listeners before that.
- **Which listener runs** (`Notifying.Suits`, `Reached.exists_chain_run`): from its first stage on,
  a notification runs the listener that it was made for.
- **Where a failure comes from** (`Reached.run_of_told`, `Reached.handed_back`,
  `Reached.relayed`): a call is told of a failure by a listener that it has run.
- **What is thrown away** (`Reached.reports`): no failure, since a derived promise has no listeners
  when a chaining runs its chain listener itself.
-/

namespace OneShot

variable {H : Host} {b : Behaviour H}

namespace Chronicle

variable {c : Chronicle H} {μ ν κ ρ τ : Moment H} {p s d : PromiseId} {f : H.Closure .transform}
  {e : ListenerError} {a : Listener H}

/-! ## Promises that nobody has -/

/-- A registration with a promise was asked for, or a chaining from it that has led to one. -/
theorem Reached.exists_asks (hc : c.Reached b) (hρ : ρ ∈ c.past) {r : Registering H}
    {closing : Closing} (hf : ρ.frame = .registering p r closing) :
    ∃ ε ∈ c.past, ε.entered = ρ.call ∧ p ∈ ε.asks := by
  obtain ⟨g, hp, ε, hε, hent, hg⟩ := hc.path_of_moment ρ hρ (by rw [hf]; rfl)
  refine ⟨ε, hε, hent, ?_⟩
  have hb := (hp.becomes hc).2 ρ (mem_moments.2 ⟨hρ, rfl⟩)
  rw [hf] at hb
  have hhandle : p ∈ g.handles := by
    rcases hb.of_registering with ⟨r', rfl⟩ | ⟨f, k, rfl⟩ <;> exact List.mem_cons_self
  obtain ⟨f, hn⟩ := Next.eq_enter hg
  rcases (hc.sound ε hε).1.enters hn with hcode | ⟨q, s', rfl⟩ | ⟨d, o, rfl, -⟩
  · simpa [Moment.asks, hn, hcode] using hhandle
  · rcases hb.of_registering with ⟨r', h⟩ | ⟨f, k, h⟩ <;> cases h
  · rcases hb.of_registering with ⟨r', h⟩ | ⟨f, k, h⟩ <;> cases h

/-- Whoever is given a derived promise has it, in the end, from the call that derives it, which is
over then. -/
theorem Reached.answered_of_gives (hc : c.Reached b) (hh : c.Honest) (hκ : κ ∈ c.past)
    (hd : κ.Derives s f d) (n : Nat) : ∀ l ν l', l.length = n → c.past = l ++ ν :: l' →
      d ∈ ν.gives → ∃ ρ ∈ c.past, ρ.call = κ.call ∧ ρ.next = .answer (.derived d) := by
  -- On the position of the moment: what one moment gives may go back to what another gave.
  induction n using Nat.strongRecOn with
  | ind n ih =>
    intro l ν l' hn hpast hgive
    have hν : ν ∈ c.past := hpast ▸ List.mem_append_right l List.mem_cons_self
    unfold Moment.gives at hgive
    split at hgive
    · rename_i hnext
      cases List.mem_singleton.1 hgive
      obtain ⟨p, r, hf⟩ := (hc.sound ν hν).1.registering_of_derived hnext
      obtain ⟨κ', hκ', hcall, f', hd', -⟩ := (hc.traced_of_mem hν hf).2 d rfl
      rw [hc.derives_unique hκ' hd' hκ hd] at hcall
      exact ⟨ν, hν, hcall.symm, hnext⟩
    · -- A listener of `d` is run, and whoever has registered it was given `d` before.
      obtain ⟨r, hcal⟩ := hc.callee_of_lends hκ hd hν hgive
      obtain ⟨c₀, hc₀, rfl, h, hturn, -⟩ := hc.exists_reaches hpast
      have hc₁ := hc₀.reaches hturn
      obtain ⟨i, a, -, -, ρ, hρ, -, q, closing, hf, -⟩ := hc₁.exists_run mem_record_self hcal
      obtain ⟨ε, hε, hent, hask⟩ := hc₁.exists_asks hρ hf
      have hε₀ : ε ∈ c₀.past := by
        refine (mem_record.1 hε).resolve_right fun heq => ?_
        obtain ⟨-, hlt, hle⟩ := hc₁.sound ρ hρ
        have hnum : ρ.call.entry = ν.number := by rw [← hent, heq]; rfl
        rw [past_record, List.length_append, List.length_singleton, ← h.number] at hle
        omega
      obtain ⟨l₁, l₂, hl⟩ := List.append_of_mem hε₀
      rw [hl, List.append_assoc] at hpast
      obtain ⟨ν', hν', hgive'⟩ := hh.asks l₁ ε _ hpast d hask
      obtain ⟨l₃, l₄, rfl⟩ := List.append_of_mem hν'
      rw [List.append_assoc] at hpast
      refine ih l₃.length ?_ l₃ ν' _ rfl hpast hgive'
      rw [← hn, hl]
      simp only [List.length_append, List.length_cons]
      omega

/-- A derived promise has no listeners as long as the call that derives it is in progress. -/
theorem Reached.unshared (hc : c.Reached b) (hh : c.Honest) (hκ : κ ∈ c.past)
    (hd : κ.Derives s f d) (hi : c.frame? κ.call ≠ none) {r : Registering H} {closing : Closing}
    (hρ : ρ ∈ c.past) : ρ.frame ≠ .registering d r closing := by
  intro hf
  obtain ⟨ε, hε, -, hask⟩ := hc.exists_asks hρ hf
  obtain ⟨l, l', hpast⟩ := List.append_of_mem hε
  obtain ⟨ν, hν, hgive⟩ := hh.asks l ε l' hpast d hask
  obtain ⟨l₁, l₂, rfl⟩ := List.append_of_mem hν
  rw [List.append_assoc] at hpast
  obtain ⟨ω, hω, hcall, hn⟩ := hc.answered_of_gives hh hκ hd _ l₁ ν _ rfl hpast hgive
  obtain ⟨⟨code, hfκ⟩, -⟩ := hd
  obtain ⟨g, hp, -⟩ := hc.path_of_moment κ hκ (by rw [hfκ]; rfl)
  exact hi (hp.last_of_over (mem_moments.2 ⟨hω, hcall⟩) (by rw [hn]; rfl)).2

theorem Reached.not_run_of_unshared (hc : c.Reached b) (hh : c.Honest) (hκ : κ ∈ c.past)
    (hd : κ.Derives s f d) (hi : c.frame? κ.call ≠ none) (hν : ν ∈ c.past) {r : Notifying H} :
    ν.next.callee? ≠ some (.notifying d r) := by
  intro hn
  obtain ⟨i, a, -, -, ρ, hρ, -, q, closing, hf, -⟩ := hc.exists_run hν hn
  exact hc.unshared hh hκ hd hi hρ hf

end Chronicle

/-! ## Which listener runs -/

/-- A notification at this stage can be that of such a listener. -/
inductive Notifying.Suits : Notifying H → Listener H → Prop
  | listening {code l} : Suits (.listening code) (.fallible l)
  | observing {code l} : Suits (.observing code) (.observer l)
  | transforming {d code f} : Suits (.transforming d code) (.chain f d)
  | relaying {d f} : Suits (.relaying d) (.chain f d)
  | cleaning {d x f} : Suits (.cleaning d x) (.chain f d)
  | settle {e a} : Suits (.settle e) a
  | settling {e code a} : Suits (.settling e code) a

section

variable {m m' : Machine H} {t : ThreadId} {p d : PromiseId} {k : Control} {n : Next H}
  {μ : Moment H} {a : Listener H} {e : ListenerError}

/-- A notification goes on running its listener. -/
theorem Notifying.suits_of_step {s s' : Notifying H} (h : s.step b m t p k = some (m', n))
    (hn : n.own (.notifying p s) = some (.notifying p s')) (hs : s.Suits a) : s'.Suits a := by
  have hresult : ∀ r, (ofResult p r).own (.notifying p s) = some (.notifying p s') →
      s'.Suits a := by
    intro r hr
    cases r <;> cases hr
    exact .settle
  have hconclude : ∀ (m₁ : Machine H) e (v : Disposition), m₁.conclude p e v = (m', n) →
      s'.Suits a := by
    intro m₁ e v heq
    have hx := m₁.conclude_next (p := p) e v
    rw [heq] at hx
    rw [show n = _ from hx] at hn
    cases hn
  -- Each listener has its stages, and leaves them only for those that settle a failure.
  cases s with
  | listening =>
    cases Machine.ran_of_runCode h with
    | call | stay => cases hs; cases hn; exact .listening
    | panic => cases hn
    | finish _ hd => cases hd; exact hresult _ hn
  | observing =>
    cases Machine.ran_of_runCode h with
    | call | stay => cases hs; cases hn; exact .observing
    | panic => cases hn
    | finish _ hd => cases hd; cases hn
  | transforming target code' =>
    cases hs
    simp only [step] at h
    split at h <;> cases h <;> cases hn
    · exact .transforming
    · exact .transforming
    · exact .relaying
    · exact .cleaning
  | relaying target =>
    simp only [step] at h
    split at h <;> cases h
    · exact hresult _ hn
    · exact hresult _ hn
    · cases hn
  | cleaning target x =>
    simp only [step] at h
    split at h <;> cases h <;> cases hn
    exact hs
  | settle e =>
    rcases Machine.runStage_eq_some h with ⟨-, h⟩ | ⟨x, -, h⟩
    · obtain ⟨pr, -, h⟩ := Option.bind_eq_some_iff.1 h
      split at h
      · cases h
        cases hn
        exact .settling
      · obtain ⟨v, -, heq⟩ := Option.map_eq_some_iff.1 h
        exact hconclude m e v heq
    · cases h
      cases hn
  | settling e code' =>
    cases Machine.ran_of_runCode h with
    | call | stay => cases hn; exact .settling
    | panic => cases hn
    | finish _ hd => exact hconclude _ e _ (Option.some.inj hd)

/-- A listener that fails is one that can fail, or a chain listener to which the completion of its
target has handed back a failure. -/
theorem Notifying.Results.cases_of_suits {s : Notifying H} (hr : s.Results b m t k (.error e))
    (hs : s.Suits a) : (∃ l, a = .fallible l) ∨ ∃ f d, a = .chain f d ∧ s = .relaying d ∧
      k = .ret (.settled (.error e)) := by
  cases hr with
  | listening => cases hs; exact .inl ⟨_, rfl⟩
  | relayedError hc => cases hs; exact .inr ⟨_, _, rfl, rfl, hc⟩

end

namespace Chronicle

variable {c : Chronicle H} {μ ν κ ρ τ : Moment H} {p s d : PromiseId} {f : H.Closure .transform}
  {e : ListenerError} {a : Listener H} {k : Control}

theorem Path.suits (hc : c.Reached b) {r : Notifying H} (hr : r.Suits a) {l : List (Moment H)}
    {x : Option (Frame H)} (hp : c.Path (.notifying p r) l x) :
    (∀ f, x = some f → ∃ r', f = .notifying p r' ∧ r'.Suits a) ∧
      ∀ ρ ∈ l, ∃ r', ρ.frame = .notifying p r' ∧ r'.Suits a := by
  induction hp with
  | nil => exact ⟨fun f hf => ⟨r, (Option.some.inj hf).symm, hr⟩, fun ρ hρ => by cases hρ⟩
  | @snoc l μ hp hμ _ ih =>
    obtain ⟨r', hf, hs⟩ := ih.1 _ rfl
    refine ⟨fun g hg => ?_,
      List.forall_mem_append.2 ⟨ih.2, List.forall_mem_singleton.2 ⟨r', hf, hs⟩⟩⟩
    have hsound := (hc.sound μ hμ).1
    obtain ⟨r'', rfl⟩ : ∃ r'', g = .notifying p r'' := by
      rcases hsound.made.leads.sameCall hg with h | h
      · exact ⟨r', h ▸ hf⟩
      · rw [hf] at h
        cases h
        exact ⟨_, rfl⟩
    refine ⟨r'', rfl, ?_⟩
    cases hsound.made with
    | wake _ hf' => rw [hf] at hf'; cases hf'
    | step _ _ hstep _ =>
      rw [hf] at hstep hg
      exact Notifying.suits_of_step hstep hg hs

theorem suits_begin (p : PromiseId) (a : Listener H) : (a.begin p).Suits a := by
  cases a <;> constructor

/-- A chain listener that is run was made when its target was derived. -/
theorem Reached.derives_of_runs (hc : c.Reached b) {ω : Moment H} (hω : ω ∈ c.past)
    {g : Frame H} (hr : ω.Runs p (.chain f d) g) : ∃ κ ∈ c.past, κ.Derives p f d := by
  cases hr with
  | delivery hf =>
    obtain ⟨i, hzip⟩ := hc.exists_stored (mem_deliveries hω hf)
    obtain ⟨ρ, hρ, -, -, closing, hfρ⟩ := exists_of_mem_stored (List.of_mem_zip hzip).1
    obtain ⟨-, κ, hκ, -, hd⟩ := hc.derives_of_chain hρ hfρ rfl
    exact ⟨κ, hκ, hd⟩
  | registration hf hr =>
    obtain ⟨-, κ, hκ, -, hd⟩ := hc.derives_of_chain hω hf (by rcases hr with rfl | rfl <;> rfl)
    exact ⟨κ, hκ, hd⟩

/-- A notification that runs the callback for `d` was made to run the chain listener of `d`. -/
theorem Reached.exists_chain_run (hc : c.Reached b) (hκ : κ ∈ c.past) (hd : κ.Derives s f d)
    {ε : Moment H} (hε : ε ∈ c.past) {code : H.Code .transform}
    (hf : ε.frame = .notifying p (.transforming d code)) :
    p = s ∧ ∃ ω ∈ c.past, ω.entered = ε.call ∧ ∃ g,
      ω.next = .enter (.notifying s (.transforming d (H.invoke .transform f s))) g ∧
      ω.Runs s (.chain f d) g := by
  obtain ⟨ω, hω, hent, a, g, hn, hruns, hp⟩ := hc.exists_runs hε hf
  obtain ⟨r, hr, hsuits⟩ := (hp.suits hc (suits_begin p a)).2 ε (mem_moments.2 ⟨hε, rfl⟩)
  rw [hf] at hr
  cases hr
  cases hsuits with
  | transforming =>
    obtain ⟨κ', hκ', hd'⟩ := hc.derives_of_runs hω hruns
    obtain ⟨rfl, rfl, rfl⟩ := hc.derives_inj hκ hd hκ' hd'
    exact ⟨rfl, ω, hω, hent, g, hn, hruns⟩

end Chronicle

/-! ## Where a failure comes from -/

/-- The failure that a call is told of. -/
def Control.error? : Control → Option ListenerError
  | .ret (.notified (.error e)) | .ret (.settled (.error e)) => some e
  | _ => none

theorem Control.cases_of_error? {k : Control} {e : ListenerError} (h : k.error? = some e) :
    k = .ret (.notified (.error e)) ∨ k = .ret (.settled (.error e)) := by
  unfold error? at h
  split at h <;> cases h
  · exact .inl rfl
  · exact .inr rfl

namespace Chronicle

variable {c : Chronicle H} {ν ρ τ : Moment H} {p d : PromiseId} {e : ListenerError} {k : Control}

/-- A call that is about to wait for a listener of `p` runs it. -/
theorem Reached.runs_of_own (hc : c.Reached b) (hν : ν ∈ c.past) {g : Frame H}
    (hg : (∃ rest, g = .completing p (.delivering rest)) ∨
      ∃ closing, g = .registering p .inline closing) (hown : ν.next.own ν.frame = some g) :
    ∃ a : Listener H, ν.next = .enter (.notifying p (a.begin p)) g ∧ ν.Runs p a g := by
  -- A steady call keeps its kind, so only the moves of its own kind have to be looked at.
  have hsame := (hc.sound ν hν).1.made.leads.sameCall hown
  rcases hg with ⟨rest, rfl⟩ | ⟨closing, rfl⟩
  · obtain ⟨r, hr⟩ : ∃ r, ν.frame = .completing p r := by
      rcases hsame with h | h
      · exact ⟨_, h⟩
      · exact h.of_completing
    obtain ⟨pr, pr', -, -, hm⟩ := hc.moved ν hν p r hr
    rw [hr] at hown
    generalize ν.next = n, ν.control = k at hm hown
    cases hm <;> cases hown
    exact ⟨_, rfl, .delivery hr⟩
  · obtain ⟨r, hr⟩ : ∃ r, ν.frame = .registering p r closing := by
      rcases hsame with h | h
      · exact ⟨_, h⟩
      · rcases h.of_registering with h' | ⟨g', k', hg'⟩
        · exact h'
        · rw [hg'] at h
          cases h
    have hm := (hc.sound ν hν).1.registering hr
    rw [hr] at hown
    generalize ν.next = n, ν.control = k, ν.after.cells? p = x' at hm hown ⊢
    cases hm with
    | now => cases hown; exact ⟨_, rfl, .registration hr (.inl rfl)⟩
    | hand => cases hown; exact ⟨_, rfl, .registration hr (.inr rfl)⟩
    | _ => cases hown

/-- A call that waits for a listener of `p` has run it, and it is told how that ended. -/
theorem Reached.run_of_told (hc : c.Reached b) (hτ : τ ∈ c.past)
    (hf : (∃ rest, τ.frame = .completing p (.delivering rest)) ∨
      ∃ closing, τ.frame = .registering p .inline closing) :
    ∃ ν ∈ c.past, ν.call = τ.call ∧ ∃ a : Listener H,
      ν.next = .enter (.notifying p (a.begin p)) τ.frame ∧
      ν.Runs p a τ.frame ∧
      ∃ fate, Over b p (c.moments ν.entered) fate ∧ τ.control = fate.told := by
  have hsteady : τ.frame.steady = true := by
    rcases hf with ⟨rest, hf⟩ | ⟨closing, hf⟩ <;> rw [hf] <;> rfl
  obtain ⟨g, hp, μ, hμ, -, hg⟩ := hc.path_of_moment τ hτ hsteady
  have henters := (hc.sound μ hμ).1.made.leads.enters hg
  rcases hp.previous τ (mem_moments.2 ⟨hτ, rfl⟩) with ⟨hfirst, -⟩ | ⟨ν, hν, hown, htold⟩
  · -- A call is not entered as one that waits.
    rcases hf with ⟨rest, hf⟩ | ⟨closing, hf⟩
    · rw [← hfirst, hf] at henters
      obtain ⟨o, ho⟩ := henters.of_completing
      cases ho
    · rw [← hfirst, hf] at henters
      obtain ⟨l, hl⟩ := henters.of_registering
      cases hl
  · obtain ⟨hν, hcall⟩ := mem_moments.1 hν
    obtain ⟨a, hn, hr⟩ := hc.runs_of_own hν hf hown
    obtain ⟨fate, ho, hk⟩ := hc.exists_fate_of_told hν (l := a) (by rw [hn]; rfl) htold
    exact ⟨ν, hν, hcall, a, hn, hr, fate, ho, hk⟩

/-- A completion call that tells of a failure has it from a listener that it has run, whose promise
has judged it so. -/
theorem Reached.handed_back (hc : c.Reached b) (hρ : ρ ∈ c.past) {r : Completing H}
    (hf : ρ.frame = .completing d r) (htold : ρ.next.told? = some k) (he : k.error? = some e) :
    ∃ ν ∈ c.past, ∃ a : Listener H, ν.next.callee? = some (.notifying d (a.begin d)) ∧
      Over b d (c.moments ν.entered) (.judged .propagate e) := by
  -- The listener has told it: a completion makes no error of its own.
  obtain ⟨rest, hf', hk⟩ : ∃ rest, ρ.frame = .completing d (.delivering rest) ∧
      ρ.control = .ret (.notified (.error e)) := by
    obtain ⟨pr, pr', -, -, hm⟩ := hc.moved ρ hρ d r hf
    rw [hf]
    generalize ρ.next = n, ρ.control = k' at hm htold
    rcases Control.cases_of_error? he with rfl | rfl <;> cases hm <;> cases htold
    exact ⟨_, rfl, rfl⟩
  obtain ⟨ν, hν, -, a, hnext, -, fate, ho, hfate⟩ := hc.run_of_told hρ (.inl ⟨rest, hf'⟩)
  obtain rfl := Fate.eq_judged_of_told (hfate.symm.trans hk)
  exact ⟨ν, hν, a, by rw [hnext]; rfl, ho⟩

end Chronicle

/-- A chain listener whose callback has ended has the completion of its target to deal with. -/
theorem Moment.Sound.control_ne_go {τ : Moment H} {p d : PromiseId} {r : Notifying H}
    (h : τ.Sound b) (hf : τ.frame = .notifying p r)
    (hr : r = .relaying d ∨ ∃ x, r = .cleaning d x) : τ.control ≠ .go := by
  intro hk
  cases h.made with
  | wake _ hf' => rw [hf] at hf'; cases hf'
  | step _ _ hs _ =>
    rw [hf, hk] at hs
    rcases hr with rfl | ⟨x, rfl⟩ <;> cases hs

namespace Chronicle

variable {c : Chronicle H} {μ ν κ ρ τ : Moment H} {p s d : PromiseId} {f : H.Closure .transform}
  {e : ListenerError} {a : Listener H} {k : Control}

/-- A chain listener that goes on after its callback is told how the completion of its target has
ended, which it has entered at the end of the callback. -/
theorem Reached.relayed (hc : c.Reached b) (hτ : τ ∈ c.past) {r : Notifying H}
    (hf : τ.frame = .notifying p r) (hr : r = .relaying d ∨ ∃ x, r = .cleaning d x) :
    ∃ ε ∈ c.past, ∃ o, ε.call = τ.call ∧ ε.Ends b d o ∧
      ε.next = .enter (.completing d (.claim o)) (.notifying p r) ∧
      ∃ ρ ∈ c.past, ρ.call = ε.entered ∧ (∃ s, ρ.frame = .completing d s) ∧
        ρ.next.told? = some τ.control := by
  have hgo := (hc.sound τ hτ).1.control_ne_go hf hr
  obtain ⟨-, -, -, a, -, -, -, hp⟩ := hc.exists_runs hτ hf
  rcases hp.previous τ (mem_moments.2 ⟨hτ, rfl⟩) with ⟨-, hfirst⟩ | ⟨ε, hε, hown, htold⟩
  · exact absurd hfirst hgo
  · obtain ⟨hε, hcall⟩ := mem_moments.1 hε
    generalize hk : τ.control = k, hlast : some ε = last at htold
    cases htold with
    | first => cases hlast
    | own => exact absurd hk hgo
    | @callee ε' ρ g f' _ hn hρ hi htold =>
      cases hlast
      have hf' : f' = .notifying p r := by
        rw [hn, hf] at hown
        exact Option.some.inj hown
      subst hf'
      -- The one call that a chain listener enters, apart from its program, is the completion.
      rcases (hc.sound ε hε).1.enters hn with hcode | ⟨q, s', rfl⟩ | ⟨d', o, rfl, hends⟩
      · rcases hr with rfl | ⟨x, rfl⟩ <;> cases hcode
      · obtain ⟨a', f', -, hn', hruns⟩ := hc.runs_of_callee hε (s := s') (by rw [hn]; rfl)
        rw [hn] at hn'
        cases hn'
        cases hruns
      · obtain rfl : d' = d := by
          have hnext := hn
          cases hends with
          | returned _ _ hn' =>
            rw [hn'] at hnext
            rcases hr with rfl | ⟨x, rfl⟩ <;> cases hnext
            rfl
          | panicked _ _ hn' =>
            rw [hn'] at hnext
            rcases hr with rfl | ⟨x, rfl⟩ <;> cases hnext
            rfl
        have hpath := hc.path ε hε _ (by rw [hn]; rfl) rfl
        exact ⟨ε, hε, o, hcall, hends, hn, ρ, hρ, hi,
          ((hpath.becomes hc).2 ρ (mem_moments.2 ⟨hρ, hi⟩)).completing, htold⟩

/-! ## What is thrown away -/

/-- A registration that is told of a failure reports it: none of the results is thrown away. -/
theorem Reached.reports (hc : c.Reached b) (hh : c.Honest) (hτ : τ ∈ c.past) {closing : Closing}
    (hf : τ.frame = .registering p .inline closing)
    (hk : τ.control = .ret (.notified (.error e))) : closing = .report := by
  obtain ⟨c₀, hc₀, h, hturn, hl⟩ := hc.reaches_of_mem hτ
  have hh₀ : c₀.Honest := hh.of_reaches hc₀ (hturn.trans hl)
  have hc₁ := hc₀.reaches hturn
  have hframe : c₀.frame? τ.call = some (.registering p .inline closing) := by
    rw [h.frame? hc₀.tracked, hf]
  obtain ⟨ν, hν, hcall, a, hn, hruns, fate, ho, hfate⟩ :=
    hc₁.run_of_told mem_record_self (.inr ⟨closing, hf⟩)
  obtain rfl := Fate.eq_judged_of_told (hfate.symm.trans hk)
  -- The listener suits what the registration is to answer.
  obtain ⟨r, hr, hν'⟩ : ∃ r, r.listener? = some a ∧ ν.frame = .registering p r closing := by
    rw [hf] at hruns
    cases hruns with
    | registration hν' hr => rcases hr with rfl | rfl <;> exact ⟨_, rfl, hν'⟩
  have hfits := (hc₁.traced_of_mem hν hν').1 a hr
  generalize hd : Fate.judged .propagate e = fate at ho
  cases ho.met with
  | fine | panicked | cleaned => cases hd
  | judged hμ hfμ hres =>
    cases hd
    have hpath := hc₁.path ν hν _ (by rw [hn]; rfl) rfl
    obtain ⟨s', hs', hsuits⟩ := (hpath.suits hc₁ (suits_begin p a)).2 _ hμ
    rw [hfμ] at hs'
    cases hs'
    rcases hres.cases_of_suits hsuits with ⟨l, rfl⟩ | ⟨f, d, rfl, rfl, hkμ⟩
    · cases closing <;> first | rfl | cases hfits
    · -- The completion of the derived promise has handed back a failure of one of its listeners.
      have hμ := (mem_moments.1 hμ).1
      obtain ⟨ε, -, o, -, -, -, ρ, hρ, -, ⟨r', hfρ⟩, htold⟩ := hc₁.relayed hμ hfμ (.inl rfl)
      obtain ⟨ω, hω, a', hω', -⟩ := hc₁.handed_back hρ hfρ htold (by rw [hkμ]; rfl)
      cases closing with
      | report => rfl
      | discard => cases hfits
      | derived d' =>
        obtain rfl : d = d' := hfits
        obtain ⟨κ, hκ, f', hκd, -⟩ := (hc₀.traced _ _ hframe).2 d rfl
        obtain ⟨hκ, hκcall⟩ := mem_moments.1 hκ
        have hgo : c₀.frame? κ.call ≠ none := by rw [hκcall, hframe]; nofun
        rcases mem_record.1 hω with hω | rfl
        · exact absurd hω' (hc₀.not_run_of_unshared hh₀ hκ hκd hgo hω)
        · obtain ⟨a'', f'', -, hn', hruns'⟩ := hc₁.runs_of_callee mem_record_self hω'
          cases hruns' with
          | delivery hf' => rw [hf] at hf'; cases hf'
          | registration hf' hr' =>
            rw [hf] at hf'
            cases hf'
            rcases hr' with hr' | hr' <;> cases hr'

end Chronicle

end OneShot
