import OneShot.Proofs.Completion.Ladder
import OneShot.Proofs.Listener.Registration

/-!
# Every registered listener is run once

A registration can fall anywhere into a completion: before the claim, between the claim and the
opening of the latch, between that and the drain, or after it. Wherever it falls, its listener is
run once.

- **Runs of a listener** (`Chronicle.runs`): by its registration, or by the completion call that
  took it out of the registry, in the order in which the listeners were stored.
- **Runs start when the promise is done** (`Won.open_of_run`).
- **At rest** (`Chronicle.AtRest`): nothing panicked, no failure was handed back, and the calls have
  returned. Then everything that was stored has been delivered (`AtRest.stored_eq`), and every
  registration has had one run (`runs_each_listener_once`).
-/

namespace OneShot

variable {H : Host} {b : Behaviour H}

namespace Chronicle

variable {c : Chronicle H} {p : PromiseId}

/-- The notifications of the listener that call `i` registered with `p`: those that the call made
itself, and those that were made of what it had stored. What was stored first is delivered first. -/
def runs (c : Chronicle H) (p : PromiseId) (i : CallId) : List CallId :=
  (c.moments i).filterMap (Moment.inline? p) ++
    (((c.stored p).zip (c.deliveries p)).filter (·.1.1 = i)).map (·.2.2)

/-- A registration that notifies its listener itself runs it. -/
theorem mem_runs_of_registering {μ : Moment H} (hμ : μ ∈ c.past) {s : Registering H}
    {closing : Closing} (hf : μ.frame = .registering p s closing) {r : Notifying H}
    (hn : μ.next.callee? = some (.notifying p r)) : μ.entered ∈ c.runs p μ.call := by
  obtain ⟨g, hx⟩ := Next.eq_enter hn
  exact List.mem_append_left _ (List.mem_filterMap.2
    ⟨μ, mem_moments.2 ⟨hμ, rfl⟩, by simp [Moment.inline?, hf, hx]⟩)

/-! ## What was stored by one call -/

theorem filter_stored (c : Chronicle H) (p : PromiseId) (i : CallId) :
    (c.stored p).filter (·.1 = i) = ((c.moments i).filterMap (Moment.stored? p)).map (i, ·) := by
  unfold stored moments
  induction c.past with
  | nil => rfl
  | cons μ l ih =>
    cases hs : μ.stored? p with
    | none =>
      rw [List.filterMap_cons_none (by rw [hs]; rfl), ih]
      by_cases hi : μ.call = i
      · rw [List.filter_cons_of_pos (by simpa using hi), List.filterMap_cons_none hs]
      · rw [List.filter_cons_of_neg (by simpa using hi)]
    | some a =>
      rw [List.filterMap_cons_some (by rw [hs]; rfl)]
      by_cases hi : μ.call = i
      · rw [List.filter_cons_of_pos (by simpa using hi),
          List.filter_cons_of_pos (by simpa using hi), List.filterMap_cons_some hs, ih,
          List.map_cons, hi]
      · rw [List.filter_cons_of_neg (by simpa using hi),
          List.filter_cons_of_neg (by simpa using hi), ih]

/-- In two lists that go together, what belongs to `i` in the first is found beside it in the
second. -/
theorem map_filter_zip {α β γ : Type} [DecidableEq α] {s : List (α × β)} {d : List (β × γ)}
    (h : s.map Prod.snd = d.map Prod.fst) (i : α) :
    ((s.zip d).filter (·.1.1 = i)).map (·.2.1) = (s.filter (·.1 = i)).map Prod.snd := by
  induction s generalizing d with
  | nil => rfl
  | cons x s ih =>
    cases d with
    | nil => cases h
    | cons y d =>
      obtain ⟨hxy, h⟩ := List.cons.inj h
      by_cases hi : x.1 = i
      · rw [List.zip_cons_cons, List.filter_cons_of_pos (by simpa using hi),
          List.filter_cons_of_pos (by simpa using hi), List.map_cons, List.map_cons, ih h, hxy]
      · rw [List.zip_cons_cons, List.filter_cons_of_neg (by simpa using hi),
          List.filter_cons_of_neg (by simpa using hi), ih h]

/-! ## Runs start when the promise is done -/

/-- A promise whose listener is run is done, or its listeners have been drained. -/
theorem Reached.cells_of_run (hc : c.Reached b) {ν : Moment H} (hν : ν ∈ c.past)
    {s : Notifying H} (hn : ν.next.callee? = some (.notifying p s)) :
    ∃ pr, ν.before.cells? p = some pr ∧
      (pr.isDone = true ∨ pr.listeners.data.isDrained = true) := by
  have hsound := (hc.sound ν hν).1
  rcases (hsound.made.leads.enters hn).of_notifying with
    ⟨l, -, ⟨rest, hf⟩ | ⟨closing, hf⟩ | ⟨closing, hf⟩⟩
  · obtain ⟨pr, hp, hd⟩ := hc.isDone_of_opened ν hν _ hf rfl
    exact ⟨pr, hp, .inl hd⟩
  · have hm := hsound.registering hf
    generalize ν.next = n, ν.control = k, ν.after.cells? p = x' at hm hn
    cases hm with
    | now hp hd => exact ⟨_, hp, .inl hd⟩
    | later => cases hn
  · have hm := hsound.registering hf
    generalize ν.next = n, ν.control = k, ν.after.cells? p = x' at hm hn
    cases hm with
    | hand hp hd => exact ⟨_, hp, hd⟩
    | store => cases hn

/-- When a listener of a promise is run, the promise is done and a look at it gives the winner's
outcome. -/
theorem Won.open_of_run {w : CallId} {o : Outcome} {r : Progress} (hc : c.Reached b)
    (hw : c.Won p w o r) {ν : Moment H} (hν : ν ∈ c.past) {s : Notifying H}
    (hn : ν.next.callee? = some (.notifying p s)) :
    ∃ pr, ν.before.promise? p = some pr ∧ pr.isDone = true ∧ pr.tryGet = some o.read := by
  obtain ⟨pr, hp, hopen⟩ := hc.cells_of_run hν hn
  -- A pending promise is neither open nor drained, so it shows what the winner has done.
  obtain ⟨r', hsh⟩ : ∃ r', pr.Shows o r' := by
    rcases hw.shown ν hν pr hp with hpend | hsh
    · rcases hopen with hd | hd
      · rw [hpend.isDone] at hd; cases hd
      · rw [hpend.drained] at hd; cases hd
    · exact hsh
  have hr : r'.isOpen = true := by
    rcases hopen with hd | hd
    · rw [← hsh.isDone]
      exact hd
    · rw [hsh.drained] at hd
      cases r' <;> first | rfl | cases hd
  have hd : pr.isDone = true := hsh.isDone.trans hr
  have ho : pr.outcome = some o := by
    rw [hsh.outcome]
    cases r' <;> first | rfl | cases hr
  obtain ⟨pr₀, hp₀, rfl⟩ := Option.map_eq_some_iff.1 hp
  refine ⟨pr₀, hp₀, hd, ?_⟩
  change pr₀.isDone = true at hd
  change pr₀.outcome = some o at ho
  rw [Promise.tryGet, Promise.settled, if_pos hd, ho, Option.map_some]

/-! ## At rest -/

/-- A run in which no code of the program panics and no failure of a listener of `p` is handed back,
at a time when `p` has been completed and its completion calls and registrations have returned. -/
structure AtRest (b : Behaviour H) (c : Chronicle H) (p : PromiseId) : Prop where
  panics : ∀ ν ∈ c.past, ¬ν.Panics b
  propagates : ∀ ν ∈ c.past, ∀ s e, ν.frame = .notifying p s →
    ν.next ≠ .answer (.notified (.error e))
  completed : ∃ ν ∈ c.past, ∃ o, ν.frame = .completing p (.claim o)
  completions : ∀ i s, c.frame? i ≠ some (.completing p s)
  registrations : ∀ i s closing, c.frame? i ≠ some (.registering p s closing)

/-- Notification `j` is the only run of the listener `l` that call `i` registered with `p`. It was
made by that call or by the winner `w`, when the promise was done with the outcome `o`, and it has
ended without a failure that is handed back. -/
structure RanOnce (b : Behaviour H) (c : Chronicle H) (p : PromiseId) (w : CallId) (o : Outcome)
    (i : CallId) (l : Listener H) (j : CallId) : Prop where
  runs : c.runs p i = [j]
  begun : ∃ ν ∈ c.past, ν.entered = j ∧ ν.next.callee? = some (.notifying p (l.begin p)) ∧
    (ν.call = i ∨ ν.call = w) ∧
    ∃ pr, ν.before.promise? p = some pr ∧ pr.isDone = true ∧ pr.tryGet = some o.read
  ended : c.Benign b p j

/-- The fate of every listener is benign. -/
theorem AtRest.isBenign (hc : c.Reached b) (h : c.AtRest b p) {μ : Moment H} (hμ : μ ∈ c.past)
    {s : Notifying H} (hn : μ.next.callee? = some (.notifying p s)) {fate : Fate}
    (ho : Over b p (c.moments μ.entered) fate) : fate.isBenign = true := by
  obtain ⟨ρ, hlast, ht⟩ := Option.bind_eq_some_iff.1 ho.told
  have hmem := List.mem_of_getLast? hlast
  have hρ := (mem_moments.1 hmem).1
  obtain ⟨s', hs'⟩ := (((hc.path μ hμ _ hn rfl).becomes hc).2 ρ hmem).notifying
  cases fate with
  | fine => rfl
  | judged d e =>
    cases d with
    | absorb => rfl
    | propagate =>
      have hanswer : ρ.next = .answer (.notified (.error e)) := by
        cases hρn : ρ.next <;> rw [hρn] at ht <;> cases ht
        rfl
      exact absurd hanswer (h.propagates ρ hρ s' e hs')
  | panicked x =>
    have hthrow : ρ.next = .throw x := by
      cases hρn : ρ.next <;> rw [hρn] at ht <;> cases ht
      rfl
    obtain ⟨k, hk⟩ := hc.not_throw h.panics ρ hρ x hthrow
    rw [hs'] at hk
    cases hk

/-- The winner has notified all listeners that it took out. -/
theorem AtRest.delivered (hc : c.Reached b) (h : c.AtRest b p) {w : CallId} {o : Outcome}
    {r : Progress} (hw : c.Won p w o r) :
    ∃ δ ∈ c.past, δ.frame = .completing p .drain ∧
      δ.next = .goto (.completing p (.deliver ((c.deliveries p).map Prod.fst))) ∧
      ∀ d ∈ c.deliveries p, c.Benign b p d.2 := by
  have hgone : c.frame? w = none := by
    cases hx : c.frame? w with
    | none => rfl
    | some f =>
      obtain ⟨s, rfl, -⟩ := hw.winner f hx
      exact absurd hx (h.completions w s)
  obtain ⟨ν, hν, hcall, s, hf⟩ := hw.exists_moment
  obtain ⟨o', hpath⟩ := hc.completing_path hν hf
  rw [hcall, hgone] at hpath
  -- A delivery that stops early has met a fate that is not benign.
  have hstop : ∀ d ∈ c.deliveries p, ∀ fate, Over b p (c.moments d.2) fate →
      fate.isBenign = true := by
    intro d hd fate ho
    obtain ⟨μ, hμ, -, hent, hn⟩ := hc.notifies d hd
    rw [← hent] at ho
    exact h.isBenign hc hμ hn ho
  rw [hw.deliveries_eq] at hstop ⊢
  cases hpath.delivered hc with
  | earlier _ _ _ hn =>
    rcases hn rfl with ⟨ρ, hρ, ⟨s, hs⟩, hlost | ⟨y, hy⟩⟩
    · obtain ⟨hρ, hcall⟩ := mem_moments.1 hρ
      rcases hw.verdict ρ hρ s hs with ⟨-, hne⟩ | ⟨hne, -⟩
      · exact absurd hlost hne
      · exact absurd hcall hne
    · obtain ⟨k, hk⟩ := hc.not_throw h.panics ρ (mem_moments.1 hρ).1 y hy
      rw [hs] at hk
      cases hk
  | @later ls hex hd hdel _ =>
    obtain ⟨δ, hδ, hdr⟩ := hex
    refine ⟨δ, (mem_moments.1 hδ).1, hdr, ?_⟩
    rw [hd δ hδ hdr]
    generalize (c.moments w).filterMap (Moment.delivery? p) = ds,
      (c.moments w).getLast?.map Moment.next = n, hx : (none : Option (Frame H)) = x at hdel hstop
    cases hdel with
    | ready | waiting => cases hx
    | finished hls hb => exact ⟨by rw [hls], hb⟩
    | propagated _ _ ho =>
      cases hstop _ List.mem_concat_self _ ho
    | panicked _ _ ho =>
      cases hstop _ List.mem_concat_self _ ho

theorem AtRest.stored_eq (hc : c.Reached b) (h : c.AtRest b p) {w : CallId} {o : Outcome}
    {r : Progress} (hw : c.Won p w o r) :
    (c.stored p).map Prod.snd = (c.deliveries p).map Prod.fst := by
  obtain ⟨δ, hδ, hf, hn, -⟩ := h.delivered hc hw
  have hn' := (hc.delivery hδ hf).1
  rw [hn] at hn'
  simpa using hn'.symm

/-- The run of a listener that its registration notifies. -/
theorem AtRest.ran (hc : c.Reached b) (h : c.AtRest b p) {w : CallId} {o : Outcome} {r : Progress}
    (hw : c.Won p w o r) {i : CallId} {l : Listener H} {ν : Moment H} {fate : Fate}
    (ht : Tally p (c.moments i) [l] [] [ν.entered]) (hν : ν ∈ c.moments i)
    (hn : ν.next.callee? = some (.notifying p (l.begin p)))
    (ho : Over b p (c.moments ν.entered) fate) : c.RanOnce b p w o i l ν.entered := by
  obtain ⟨hν, hi⟩ := mem_moments.1 hν
  refine ⟨?_, ⟨ν, hν, rfl, hn, .inl hi, hw.open_of_run hc hν hn⟩, fate, ho, h.isBenign hc hν hn ho⟩
  have hf := c.filter_stored p i
  rw [ht.stored, List.map_nil] at hf
  have hz := map_filter_zip (h.stored_eq hc hw) i
  rw [hf, List.map_nil, List.map_eq_nil_iff] at hz
  rw [Chronicle.runs, ht.runs, hz, List.map_nil, List.append_nil]

/-- The run of a listener that was stored. -/
theorem AtRest.ran_stored (hc : c.Reached b) (h : c.AtRest b p) {w : CallId} {o : Outcome}
    {r : Progress} (hw : c.Won p w o r) {i : CallId} {l : Listener H}
    (ht : Tally p (c.moments i) [l] [l] []) : ∃ j, c.RanOnce b p w o i l j := by
  have hf := c.filter_stored p i
  rw [ht.stored, List.map_singleton] at hf
  have hz := map_filter_zip (h.stored_eq hc hw) i
  rw [hf, List.map_singleton] at hz
  obtain ⟨⟨s, d⟩, hsd, hl⟩ := List.map_eq_singleton_iff.1 hz
  obtain rfl : l = d.1 := hl.symm
  have hmem : (s, d) ∈ (c.stored p).zip (c.deliveries p) :=
    (List.mem_filter.1 (hsd ▸ List.mem_cons_self)).1
  have hd := (List.of_mem_zip hmem).2
  obtain ⟨-, -, -, -, hb⟩ := h.delivered hc hw
  refine ⟨d.2, ?_, ?_, hb d hd⟩
  · rw [Chronicle.runs, ht.runs, hsd, List.map_singleton, List.nil_append]
  · obtain ⟨μ, hμ, ⟨rest, hfr⟩, hent, hn⟩ := hc.notifies d hd
    exact ⟨μ, hμ, hent, hn, .inr (hw.call_eq hμ hfr nofun), hw.open_of_run hc hμ hn⟩

/-- A listener that is to be registered belongs to the first look of a registration. -/
theorem check_of_asked? {μ : Moment H} {l : Listener H} (h : μ.asked? p = some l) :
    ∃ closing, μ.frame = .registering p (.check l) closing := by
  unfold Moment.asked? at h
  split at h
  · rename_i q l' closing hf
    split at h
    · rename_i hq
      cases h
      exact ⟨closing, hq ▸ hf⟩
    · cases h
  · cases h

/-- A registration that starts when the promise is done notifies its listener in that step. -/
theorem Reached.enters_of_isDone (hc : c.Reached b) {μ : Moment H} (hμ : μ ∈ c.past)
    {l : Listener H} {closing : Closing} (hf : μ.frame = .registering p (.check l) closing)
    (hd : μ.before.isDone p = true) :
    μ.next = .enter (.notifying p (l.begin p)) (.registering p .inline closing) := by
  have hm := (hc.sound μ hμ).1.registering hf
  generalize μ.next = n, μ.control = k, μ.after.cells? p = x' at hm ⊢
  cases hm with
  | now => rfl
  | later hp hnot =>
    obtain ⟨pr, hp', hd⟩ := Machine.isDone_iff_cells?.1 hd
    rw [hp] at hp'
    cases hp'
    rw [hnot] at hd
    cases hd

/-- Every run of a listener of `p` is one of some registration. -/
theorem AtRest.mem_runs (hc : c.Reached b) (h : c.AtRest b p) {w : CallId} {o : Outcome}
    {r : Progress} (hw : c.Won p w o r) {μ : Moment H} (hμ : μ ∈ c.past) {s : Notifying H}
    (hn : μ.next.callee? = some (.notifying p s)) : ∃ i, μ.entered ∈ c.runs p i := by
  rcases ((hc.sound μ hμ).1.made.leads.enters hn).of_notifying with
    ⟨l, -, ⟨rest, hf⟩ | ⟨closing, hf⟩ | ⟨closing, hf⟩⟩
  · have hd := mem_deliveries hμ hf
    have hlen : (c.deliveries p).length ≤ (c.stored p).length := by
      have := congrArg List.length (h.stored_eq hc hw)
      simp only [List.length_map] at this
      exact Nat.le_of_eq this.symm
    rw [← List.map_snd_zip hlen] at hd
    obtain ⟨⟨s, d⟩, hsd, rfl⟩ := List.mem_map.1 hd
    exact ⟨s.1, List.mem_append_right _
      (List.mem_map.2 ⟨_, List.mem_filter.2 ⟨hsd, by simp⟩, rfl⟩)⟩
  · exact ⟨_, mem_runs_of_registering hμ hf hn⟩
  · exact ⟨_, mem_runs_of_registering hμ hf hn⟩

/-- What has become of a registration whose call has returned. -/
theorem AtRest.ranOnce (hc : c.Reached b) (h : c.AtRest b p) {w : CallId} {o : Outcome}
    {r : Progress} (hw : c.Won p w o r) {μ : Moment H} (hμ : μ ∈ c.past) {l : Listener H}
    (ha : μ.asked? p = some l) : ∃ j, c.RanOnce b p w o μ.call l j ∧
      (μ.before.isDone p = true → μ.entered = j ∧ ∀ s ∈ c.stored p, s.1 ≠ μ.call) := by
  obtain ⟨closing, hf⟩ := check_of_asked? ha
  have hmem : μ ∈ c.moments μ.call := mem_moments.2 ⟨hμ, rfl⟩
  have hask : ∀ {as ss rs}, Tally p (c.moments μ.call) as ss rs → l ∈ as := fun ht =>
    ht.asked ▸ List.mem_filterMap.2 ⟨μ, hmem, ha⟩
  have hnow : ∀ {as ss rs}, Tally p (c.moments μ.call) as ss rs → μ.before.isDone p = true →
      μ.entered ∈ rs := fun ht hd => ht.runs ▸ List.mem_filterMap.2
    ⟨μ, hmem, by simp [Moment.inline?, hf, hc.enters_of_isDone hμ hf hd]⟩
  have hpl := hc.placing hμ hf
  generalize hx : c.frame? μ.call = x at hpl
  -- The call has returned, so it has run its listener or stored it.
  cases hpl with
  | early _ ht => cases hask ht
  | pending | running => exact absurd hx (h.registrations _ _ _)
  | ran ht hν hn ho =>
    obtain rfl := List.mem_singleton.1 (hask ht)
    refine ⟨_, h.ran hc hw ht hν hn ho, fun hd => ⟨List.mem_singleton.1 (hnow ht hd), ?_⟩⟩
    intro s hs hi
    have hstored := c.filter_stored p μ.call
    rw [ht.stored, List.map_nil] at hstored
    have : s ∈ (c.stored p).filter (·.1 = μ.call) := List.mem_filter.2 ⟨hs, by simpa using hi⟩
    rw [hstored] at this
    cases this
  | stored ht =>
    obtain rfl := List.mem_singleton.1 (hask ht)
    obtain ⟨j, hj⟩ := h.ran_stored hc hw ht
    exact ⟨j, hj, fun hd => absurd (hnow ht hd) List.not_mem_nil⟩

/-- Once the calls on a promise have returned, and if nothing panicked and no failure was handed
back, every registration has had exactly one run of its listener, whatever the interleaving. The run
was made by the registration itself or by the winner, and it started when the promise was done and
had the winner's outcome to show. What was stored has been delivered in that order. A registration
that starts when the promise is done notifies its listener in that step and stores nothing. Nothing
else was run. -/
theorem runs_each_listener_once (hc : c.Reached b) (h : c.AtRest b p) :
    ∃ w o, c.past.filterMap (Moment.won? p) = [(w, o)] ∧ c.machine.outcome? p = some o ∧
      (c.stored p).map Prod.snd = (c.deliveries p).map Prod.fst ∧
      (∀ μ ∈ c.past, ∀ l, μ.asked? p = some l → ∃ j, c.RanOnce b p w o μ.call l j ∧
        (μ.before.isDone p = true → μ.entered = j ∧ ∀ s ∈ c.stored p, s.1 ≠ μ.call)) ∧
      ∀ μ ∈ c.past, ∀ s, μ.next.callee? = some (.notifying p s) →
        ∃ i, μ.entered ∈ c.runs p i := by
  obtain ⟨μ, hμ, o', hf⟩ := h.completed
  obtain ⟨w, o, r, hw⟩ := hc.exists_won hμ hf
  have hr : r ≠ .claimed := fun hr => h.completions w _ (hw.storing hr)
  exact ⟨w, o, hw.wins, by rw [hw.outcome?, if_neg hr], h.stored_eq hc hw,
    fun μ hμ l ha => h.ranOnce hc hw hμ ha, fun μ hμ s hn => h.mem_runs hc hw hμ hn⟩

theorem frame?_of_isIdle (h : ∀ th ∈ c.machine.threads, th.isIdle = true) (i : CallId) :
    c.frame? i = none := by
  unfold frame? Machine.stack?
  cases ht : c.machine.thread? i.thread with
  | none => rfl
  | some th =>
    have hf : th.frames = [] := List.isEmpty_iff.1 (h th (Array.mem_of_getElem? ht))
    simp [hf]

/-- A thread makes a promise, registers a listener that registers another one, and completes the
promise. A second thread registers two listeners. -/
def gathering : (r : Role) → Nat → Act Tabled r
  | .task, 0 => .call (.build {}) 1
  | .task, 1 => .call (.listen 0 0) 2
  | .task, 2 => .call (.complete 0 (.value .unit)) 3
  | .task, 10 => .call (.listen 0 1) 11
  | .task, 11 => .call (.listen 0 2) 12
  | .listener, 0 => .call (.observe 0 0) 1
  | r, _ => Tabled.quiet r

/-- The second thread registers its first listener between the claim and the opening of the latch,
and its second one between that and the drain. -/
def gathered : Option (Chronicle Tabled) :=
  (Tabled.start [0, 10]).turns? (Tabled.behaviour gathering)
    (List.replicate 10 (.step 0) ++ List.replicate 4 (.step 1) ++ List.replicate 4 (.step 0) ++
      List.replicate 5 (.step 1) ++ List.replicate 17 (.step 0))

theorem runs_each_listener_once_gathered : ∃ c, gathered = some c ∧
    c.Reached (Tabled.behaviour gathering) ∧ c.AtRest (Tabled.behaviour gathering) 0 ∧
    (c.past.filterMap (Moment.asked? 0)).length = 4 ∧ (c.stored 0).length = 2 ∧
    ∃ w o, c.past.filterMap (Moment.won? 0) = [(w, o)] ∧
      ∀ μ ∈ c.past, ∀ l, μ.asked? 0 = some l →
        ∃ j, c.RanOnce (Tabled.behaviour gathering) 0 w o μ.call l j := by
  have hrun : (gathered.any fun c =>
      c.machine.threads.all Thread.isIdle &&
      (c.past.all fun ν => !ν.next.isFailure) &&
      (c.past.any fun ν => ν.frame.claim? == some (0, .value .unit)) &&
      (c.past.filterMap (Moment.asked? 0)).length == 4 && (c.stored 0).length == 2) = true := by
    decide +kernel
  obtain ⟨c, hc, hrun⟩ := (Option.any_eq_true _ _).1 hrun
  simp only [Bool.and_eq_true, beq_iff_eq] at hrun
  obtain ⟨⟨⟨⟨hidle, hprop⟩, hclaim⟩, hasked⟩, hstored⟩ := hrun
  have hreach := Tabled.reached hc
  have hnone := frame?_of_isIdle (c := c) fun th hth =>
    Array.all_eq_true_iff_forall_mem.1 hidle th hth
  have hrest : c.AtRest (Tabled.behaviour gathering) 0 := by
    refine ⟨fun ν _ => ?_, fun ν hν s e hf hn => ?_, ?_, fun i s hi => ?_, fun i s closing hi => ?_⟩
    · rintro ⟨r, code, m, x, -, -, hr⟩
      have hact : gathering r code = .panic x := (Prod.mk.inj hr).2
      unfold gathering at hact
      split at hact <;> first | cases hact | (cases r <;> cases hact)
    · have := List.all_eq_true.1 hprop ν hν
      rw [hn] at this
      cases this
    · obtain ⟨ν, hν, hf⟩ := List.any_eq_true.1 hclaim
      exact ⟨ν, hν, _, Frame.eq_claim (by simpa using hf)⟩
    · rw [hnone] at hi; cases hi
    · rw [hnone] at hi; cases hi
  obtain ⟨w, o, hwins, -, -, hran, -⟩ := runs_each_listener_once hreach hrest
  refine ⟨c, hc, hreach, hrest, hasked, hstored, w, o, hwins, fun μ hμ l ha => ?_⟩
  obtain ⟨j, hj, -⟩ := hran μ hμ l ha
  exact ⟨j, hj⟩

end Chronicle

end OneShot
