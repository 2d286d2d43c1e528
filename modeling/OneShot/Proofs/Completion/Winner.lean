import OneShot.Proofs.Completion.Stages
import OneShot.Proofs.History.Paths

/-!
# One call completes a promise

However the completion calls of a promise and the steps of all threads fall together, one call wins,
and its outcome is the one that the promise keeps.

- **What is looked for in a run**: who won (`Moment.won?`) and who changed the outcome cell
  (`Moment.wrote?`).
- **The contest** (`Chronicle.Contest`): either nobody has claimed the promise, or one call has won
  it (`Chronicle.Won`). In the second case the cells, the stage of the winner and the past agree.
- **The decision** (`Chronicle.DecidedBy`, `exists_decidedBy`): from the first claim on there is one
  winner, all other calls have lost, and neither the status nor a stored outcome changes.
- **The way of a completion call** (`Reached.completing_path`) starts at its claim.
-/

namespace OneShot

variable {H : Host} {b : Behaviour H}

/-- The status of a promise. -/
def Machine.status? (m : Machine H) (p : PromiseId) : Option Status :=
  (m.promise? p).map Promise.status

/-- What is in the outcome cell of a promise. -/
def Machine.outcome? (m : Machine H) (p : PromiseId) : Option Outcome :=
  (m.promise? p).bind Promise.outcome

namespace Machine

variable (m : Machine H) (p : PromiseId)

theorem status?_eq : m.status? p = (m.cells? p).map Promise.status := by
  simp [status?, cells?, Function.comp_def, Promise.bare]

theorem outcome?_eq : m.outcome? p = (m.cells? p).bind Promise.outcome := by
  cases h : m.promise? p <;> simp [outcome?, cells?, h, Promise.bare]

end Machine

namespace Moment

/-- The completion call that wins `p` at a moment, and its outcome. -/
def won? (p : PromiseId) (μ : Moment H) : Option (CallId × Outcome) :=
  match μ.frame, μ.next with
  | .completing q (.claim o), .goto _ => if q = p then some (μ.call, o) else none
  | _, _ => none

/-- The call that changes the outcome cell of `p` at a moment, and what is there afterwards. -/
def wrote? (p : PromiseId) (μ : Moment H) : Option (CallId × Option Outcome) :=
  if μ.before.outcome? p = μ.after.outcome? p then none else some (μ.call, μ.after.outcome? p)

theorem won?_eq_none {p : PromiseId} {μ : Moment H} (h : ∀ s, μ.frame ≠ .completing p s) :
    μ.won? p = none := by
  unfold won?
  split
  · rename_i q o _ hf _
    rw [if_neg fun hq => h _ (hq ▸ hf)]
  · rfl

theorem won?_of_stage {p : PromiseId} {μ : Moment H} {s : Completing H}
    (hf : μ.frame = .completing p s) (hs : ∀ o, s ≠ .claim o) : μ.won? p = none := by
  unfold won?
  split
  · rename_i hf' _
    rw [hf] at hf'
    cases hf'
    exact absurd rfl (hs _)
  · rfl

theorem won?_of_lost {p : PromiseId} {μ : Moment H} {a : Answer} (hn : μ.next = .answer a) :
    μ.won? p = none := by
  unfold won?
  split
  · rename_i hn'
    rw [hn] at hn'
    cases hn'
  · rfl

end Moment

namespace Chronicle

/-! ## The contest -/

/-- Call `w` has won `p` with outcome `o`, and its completion has come as far as `r`. -/
structure Won (c : Chronicle H) (p : PromiseId) (w : CallId) (o : Outcome)
    (r : Progress) : Prop where
  cells : ∃ pr, c.machine.cells? p = some pr ∧ pr.Shows o r
  /-- All other completion calls are about to claim. -/
  others : ∀ i s, c.frame? i = some (.completing p s) → i ≠ w → ∃ o', s = .claim o'
  winner : ∀ f, c.frame? w = some f → ∃ s, f = .completing p s ∧ s.At o r
  storing : r = .claimed → c.frame? w = some (.completing p (.store o))
  entry : w.entry ≤ c.past.length
  wins : c.past.filterMap (Moment.won? p) = [(w, o)]
  verdict : ∀ μ ∈ c.past, ∀ s, μ.frame = .completing p s →
    μ.call = w ∧ μ.next ≠ .lost ∨ μ.call ≠ w ∧ (∃ o', s = .claim o') ∧ μ.next = .lost
  stores : ∀ μ ∈ c.past, ∀ o' x, μ.frame = .completing p (.store o') → μ.next ≠ .throw x
  writes : c.past.filterMap (Moment.wrote? p) = if r = .claimed then [] else [(w, some o)]
  /-- The cells were pending, or showed the same outcome, at every moment. -/
  shown : ∀ μ ∈ c.past, ∀ pr, μ.before.cells? p = some pr → pr.Pending ∨ ∃ r', pr.Shows o r'

/-- Nobody has claimed `p`. -/
structure Unclaimed (c : Chronicle H) (p : PromiseId) : Prop where
  cells : ∀ pr, c.machine.cells? p = some pr → pr.Pending
  calls : ∀ i s, c.frame? i = some (.completing p s) → ∃ o, s = .claim o
  past : ∀ μ ∈ c.past, ∀ s, μ.frame ≠ .completing p s
  writes : c.past.filterMap (Moment.wrote? p) = []
  shown : ∀ μ ∈ c.past, ∀ pr, μ.before.cells? p = some pr → pr.Pending

/-- Nobody has claimed a promise, or one call has won it. -/
inductive Contest (c : Chronicle H) (p : PromiseId) : Prop
  | unclaimed (h : c.Unclaimed p)
  | won {w o r} (h : c.Won p w o r)

section

variable {c : Chronicle H} {μ : Moment H} {p : PromiseId} {w : CallId} {o : Outcome} {r : Progress}

theorem Unclaimed.wins (hu : c.Unclaimed p) : c.past.filterMap (Moment.won? p) = [] :=
  List.filterMap_eq_nil_iff.2 fun μ hμ => Moment.won?_eq_none (hu.past μ hμ)

theorem Unclaimed.outcome? (hu : c.Unclaimed p) : c.machine.outcome? p = none := by
  rw [Machine.outcome?_eq]
  cases hp : c.machine.cells? p with
  | none => rfl
  | some pr => exact (hu.cells pr hp).outcome

theorem Unclaimed.shown_record (h : c.Extends b μ) (hu : c.Unclaimed p) :
    ∀ ν ∈ (c.record μ).past, ∀ pr, ν.before.cells? p = some pr → pr.Pending := by
  intro ν hν pr hp
  rcases mem_record.1 hν with hν | rfl
  · exact hu.shown ν hν pr hp
  · rw [h.before] at hp
    exact hu.cells pr hp

/-- A moment of another kind leaves a promise unclaimed. -/
theorem Unclaimed.record (hc : c.Tracked) (h : c.Extends b μ) (hu : c.Unclaimed p)
    (hf : ∀ s, μ.frame ≠ .completing p s) : (c.record μ).Unclaimed p := by
  have hcells : ∀ pr, μ.after.cells? p = some pr → pr.Pending := by
    intro pr hp
    have hch := h.made.effect.promise p
    rw [h.before, hp] at hch
    cases hb : c.machine.cells? p with
    | none => rw [hb] at hch; exact Promise.pending_of_make hch
    | some pr₀ => rw [hb] at hch; exact (hu.cells pr₀ hb).change hch hf
  -- No other call takes a promise out of its pending state, or enters a stage past the claim.
  refine ⟨hcells, fun i s hi => ?_, fun ν hν => ?_, ?_, hu.shown_record h⟩
  · rcases completing_record hc h hi with ⟨s', -, hs', -⟩ | ⟨o, -, ho⟩ | ⟨-, hold⟩
    · exact absurd hs' (hf s')
    · exact ⟨o, ho⟩
    · exact hu.calls i s hold
  · rcases mem_record.1 hν with hν | rfl
    · exact hu.past ν hν
    · exact hf
  · have hafter : μ.after.outcome? p = none := by
      rw [Machine.outcome?_eq]
      cases hp : μ.after.cells? p with
      | none => rfl
      | some pr => exact (hcells pr hp).outcome
    have hw : μ.wrote? p = none := by
      rw [Moment.wrote?, h.before, hu.outcome?, hafter, if_pos rfl]
    simp [Chronicle.record, hu.writes, hw]

/-- The first claim wins. -/
theorem Unclaimed.claim (hc : c.Tracked) (h : c.Extends b μ) (hu : c.Unclaimed p)
    {s : Completing H} (hf : μ.frame = .completing p s) :
    ∃ o, (c.record μ).Won p μ.call o .claimed := by
  obtain ⟨o, rfl⟩ := hu.calls μ.call s (by rw [← hf]; exact h.frame? hc)
  obtain ⟨pr, hp⟩ := h.exists_cells? hc hf
  obtain ⟨pr', hp', hm⟩ := h.completing hc hf hp
  -- The promise is pending, so the exchange succeeds and the call goes over to its store.
  obtain ⟨hn, hsh⟩ := hm.win_of_pending (hu.cells pr hp) rfl
  have hself : (c.record μ).frame? μ.call = some (.completing p (.store o)) := by
    rw [frame?_record_self hc h, hn]; rfl
  refine ⟨o, ⟨pr', hp', hsh⟩, fun i s hi hne => ?_, fun f hw => ?_, fun _ => hself, ?_, ?_, ?_, ?_,
    ?_, fun ν hν pr hp => .inl (hu.shown_record h ν hν pr hp)⟩
  · rcases completing_record hc h hi with ⟨s', hi', -⟩ | ⟨o', -, ho⟩ | ⟨-, hold⟩
    · exact absurd hi' hne
    · exact ⟨o', ho⟩
    · exact hu.calls i s hold
  · rw [hself] at hw
    exact ⟨_, (Option.some.inj hw).symm, .store⟩
  · have := hc.entry_le (h.frame? hc)
    simp only [Chronicle.record, List.length_append]
    omega
  · have hwon : μ.won? p = some (μ.call, o) := by simp [Moment.won?, hf, hn]
    simp [Chronicle.record, hu.wins, hwon]
  · intro ν hν s hs
    rcases mem_record.1 hν with hν | rfl
    · exact absurd hs (hu.past ν hν s)
    · refine .inl ⟨rfl, fun hlost => ?_⟩
      rw [hn] at hlost
      cases hlost
  · intro ν hν o' x hs
    rcases mem_record.1 hν with hν | rfl
    · exact absurd hs (hu.past ν hν _)
    · rw [hf] at hs
      cases hs
  · have hafter : μ.after.outcome? p = none := by
      rw [Machine.outcome?_eq, hp']
      exact hsh.outcome
    have hw : μ.wrote? p = none := by
      rw [Moment.wrote?, h.before, hu.outcome?, hafter, if_pos rfl]
    simp [Chronicle.record, hu.writes, hw]

theorem Won.outcome? (hw : c.Won p w o r) :
    c.machine.outcome? p = if r = .claimed then none else some o := by
  obtain ⟨pr, hp, hsh⟩ := hw.cells
  rw [Machine.outcome?_eq, hp]
  exact hsh.outcome

theorem Won.shown_record (h : c.Extends b μ) (hw : c.Won p w o r) :
    ∀ ν ∈ (c.record μ).past, ∀ pr, ν.before.cells? p = some pr →
      pr.Pending ∨ ∃ r', pr.Shows o r' := by
  intro ν hν pr hp
  rcases mem_record.1 hν with hν | rfl
  · exact hw.shown ν hν pr hp
  · obtain ⟨pr', hp', hsh⟩ := hw.cells
    rw [h.before, hp'] at hp
    cases hp
    exact .inr ⟨r, hsh⟩

theorem Won.claims (hc : c.Tracked) (h : c.Extends b μ) (hw : c.Won p w o r) (hi : μ.call ≠ w)
    {s : Completing H} (hf : μ.frame = .completing p s) : ∃ o', s = .claim o' :=
  hw.others μ.call s (by rw [← hf]; exact h.frame? hc) hi

/-- What is written down of the outcome cell at a moment after which it shows `r'`. -/
theorem Won.wrote? (h : c.Extends b μ) (hw : c.Won p w o r) {pr' : Promise H} {r' : Progress}
    (hp : μ.after.cells? p = some pr') (hsh : pr'.Shows o r') :
    μ.wrote? p =
      if (if r = .claimed then none else some o) = (if r' = .claimed then none else some o) then
        none
      else some (μ.call, if r' = .claimed then none else some o) := by
  have hafter : μ.after.outcome? p = if r' = .claimed then none else some o := by
    rw [Machine.outcome?_eq, hp]
    exact hsh.outcome
  rw [Moment.wrote?, h.before, hw.outcome?, hafter]

/-- The winner goes on. -/
theorem Won.go (hc : c.Tracked) (h : c.Extends b μ) (hw : c.Won p w o r) (hi : μ.call = w) :
    ∃ r', (c.record μ).Won p w o r' := by
  subst hi
  obtain ⟨s, hf, hs⟩ := hw.winner _ (h.frame? hc)
  obtain ⟨pr, hp, hsh⟩ := hw.cells
  obtain ⟨pr', hp', hm⟩ := h.completing hc hf hp
  obtain ⟨r', -, hr', hsh', hown⟩ := hs.moves hsh hm
  -- The winner is past its claim: it can neither win again nor lose.
  have hclaim : ∀ o', s ≠ .claim o' := fun o' he => by subst he; cases hs
  refine ⟨r', ⟨pr', hp', hsh'⟩, fun i s' hi hne => ?_, fun f hf' => ?_, fun he => absurd he hr', ?_,
    ?_, ?_, ?_, ?_, hw.shown_record h⟩
  · rcases completing_record hc h hi with ⟨_, hi', -⟩ | ⟨o', -, ho⟩ | ⟨-, hold⟩
    · exact absurd hi' hne
    · exact ⟨o', ho⟩
    · exact hw.others i s' hold hne
  · rw [frame?_record_self hc h, hf] at hf'
    exact hown f hf'
  · have := hw.entry
    simp only [Chronicle.record, List.length_append]
    omega
  · simp [Chronicle.record, hw.wins, Moment.won?_of_stage hf hclaim]
  · intro ν hν s' hs'
    rcases mem_record.1 hν with hν | rfl
    · exact hw.verdict ν hν s' hs'
    · refine .inl ⟨rfl, fun hl => ?_⟩
      obtain ⟨o', ho'⟩ := hm.claim_of_lost hl
      exact hclaim o' ho'
  · intro ν hν o' x hs'
    rcases mem_record.1 hν with hν | rfl
    · exact hw.stores ν hν o' x hs'
    · rw [hf] at hs'
      cases hs'
      cases hs
      exact fun hn => hm.outcome_of_throw rfl hn hsh.outcome
  · have hwr := hw.wrote? h hp' hsh'
    rw [if_neg hr'] at hwr ⊢
    rw [Chronicle.record, List.filterMap_append, hw.writes]
    by_cases hr : r = .claimed
    · simp [hr, hwr]
    · simp [hr, hwr]

/-- A moment of another call leaves the winner and the cells alone. -/
theorem Won.other (hc : c.Tracked) (h : c.Extends b μ) (hw : c.Won p w o r) (hi : μ.call ≠ w) :
    (c.record μ).Won p w o r := by
  obtain ⟨pr, hp, hsh⟩ := hw.cells
  obtain ⟨pr', hp', hsh'⟩ : ∃ pr', μ.after.cells? p = some pr' ∧ pr'.Shows o r := by
    have hch := h.made.effect.promise p
    rw [h.before, hp] at hch
    obtain ⟨pr', hp'⟩ := hch.exists_after
    rw [hp'] at hch
    exact ⟨pr', hp', hsh.change hch fun s hf => hw.claims hc h hi hf⟩
  -- A completion call that moves now loses.
  have hlost : ∀ s, μ.frame = .completing p s → (∃ o', s = .claim o') ∧ μ.next = .lost := by
    intro s hf
    obtain ⟨o', rfl⟩ := hw.claims hc h hi hf
    obtain ⟨pr'', -, hm⟩ := h.completing hc hf hp
    exact ⟨⟨o', rfl⟩, (hm.lose_of_shows hsh rfl).1⟩
  have hwinner : ∀ f, (c.record μ).frame? w = some f → c.frame? w = some f := by
    intro f hf
    cases hold : c.frame? w with
    | none => rw [frame?_record_eq_none hc h hw.entry hold] at hf; cases hf
    | some g =>
      obtain ⟨s, rfl, -⟩ := hw.winner g hold
      rw [frame?_record_of_steady hc h hold rfl (Ne.symm hi)] at hf
      exact hf
  refine ⟨⟨pr', hp', hsh'⟩, fun i s hf hne => ?_, fun f hf => hw.winner f (hwinner f hf), ?_, ?_,
    ?_, ?_, ?_, ?_, hw.shown_record h⟩
  · rcases completing_record hc h hf with ⟨s', rfl, hs', hown⟩ | ⟨o', -, ho⟩ | ⟨-, hold⟩
    · rw [(hlost s' hs').2] at hown
      cases hown
    · exact ⟨o', ho⟩
    · exact hw.others i s hold hne
  · exact fun hr => frame?_record_of_steady hc h (hw.storing hr) rfl (Ne.symm hi)
  · have := hw.entry
    simp only [Chronicle.record, List.length_append]
    omega
  · have hwon : μ.won? p = none := by
      by_cases hf : ∃ s, μ.frame = .completing p s
      · obtain ⟨s, hf⟩ := hf
        exact Moment.won?_of_lost (hlost s hf).2
      · exact Moment.won?_eq_none fun s hs => hf ⟨s, hs⟩
    simp [Chronicle.record, hw.wins, hwon]
  · intro ν hν s hs
    rcases mem_record.1 hν with hν | rfl
    · exact hw.verdict ν hν s hs
    · exact .inr ⟨hi, hlost s hs⟩
  · intro ν hν o' x hs
    rcases mem_record.1 hν with hν | rfl
    · exact hw.stores ν hν o' x hs
    · obtain ⟨_, he⟩ := (hlost _ hs).1
      cases he
  · have hwr := hw.wrote? h hp' hsh'
    rw [if_pos rfl] at hwr
    simp [Chronicle.record, hw.writes, hwr]

theorem Won.record (hc : c.Tracked) (h : c.Extends b μ) (hw : c.Won p w o r) :
    ∃ r', (c.record μ).Won p w o r' := by
  by_cases hi : μ.call = w
  · exact hw.go hc h hi
  · exact ⟨r, hw.other hc h hi⟩

theorem Contest.record (hc : c.Tracked) (h : c.Extends b μ) (hp : c.Contest p) :
    (c.record μ).Contest p := by
  cases hp with
  | unclaimed hu =>
    by_cases hf : ∃ s, μ.frame = .completing p s
    · obtain ⟨s, hf⟩ := hf
      obtain ⟨o, hw⟩ := hu.claim hc h hf
      exact .won hw
    · exact .unclaimed (hu.record hc h fun s hs => hf ⟨s, hs⟩)
  | won hw =>
    obtain ⟨r', hw⟩ := hw.record hc h
    exact .won hw

theorem unclaimed_start {m : Machine H} (hm : m.Initial) (p : PromiseId) :
    (start m).Unclaimed p := by
  have hnone : m.cells? p = none := by simp [Machine.cells?, Machine.promise?, hm.promises]
  refine ⟨fun pr hp => ?_, fun i s hi => ?_, fun μ hμ => ?_, rfl, fun μ hμ => by cases hμ⟩
  · change m.cells? p = some pr at hp
    rw [hnone] at hp
    cases hp
  · obtain ⟨work, hwork⟩ := frame?_start hm hi
    cases hwork
  · cases hμ

theorem Reached.contest (hc : c.Reached b) (p : PromiseId) : c.Contest p := by
  induction c, hc using Reached.induction with
  | start m hm => exact .unclaimed (unclaimed_start hm p)
  | record c μ hc hμ hc' ih => exact ih.record hc.tracked hμ

/-- Once somebody has won, the same call has won in every continuation. -/
theorem Won.reaches {c' : Chronicle H} (hc : c.Reached b) (hw : c.Won p w o r)
    (hl : c.Reaches b c') : ∃ r', c'.Won p w o r' := by
  induction hl with
  | refl => exact ⟨r, hw⟩
  | tail e hl he ih =>
    obtain ⟨r', ih⟩ := ih
    have ht := (hc.reaches hl).tracked
    obtain ⟨μ, hμ, rfl⟩ := exists_extends_of_turn? ht he
    exact ih.record ht hμ

/-- A promise stays unclaimed as long as nobody claims it. -/
theorem Unclaimed.reaches {c' : Chronicle H} (hc : c.Reached b) (hu : c.Unclaimed p)
    (hl : c.Reaches b c') {l : List (Moment H)} (hpast : c'.past = c.past ++ l)
    (hno : ∀ ν ∈ l, ∀ o, ν.frame ≠ .completing p (.claim o)) : c'.Unclaimed p := by
  induction hl generalizing l with
  | refl => exact hu
  | @tail c₁ _ e hl he ih =>
    have ht := (hc.reaches hl).tracked
    obtain ⟨l₁, hpast₁⟩ := hl.exists_past hc
    obtain ⟨μ, hμ, rfl⟩ := exists_extends_of_turn? ht he
    obtain rfl : l = l₁ ++ [μ] := by
      rw [past_record, hpast₁, List.append_assoc] at hpast
      exact (List.append_cancel_left hpast).symm
    have hu₁ := ih hpast₁ fun ν hν => hno ν (List.mem_append_left _ hν)
    refine hu₁.record ht hμ fun s hf => ?_
    obtain ⟨o, rfl⟩ := hu₁.calls μ.call s (by rw [hμ.frame? ht, hf])
    exact hno μ (by simp) o hf

/-- The winner has made a moment of a completion call. -/
theorem Won.exists_moment (hw : c.Won p w o r) :
    ∃ ν ∈ c.past, ν.call = w ∧ ∃ s, ν.frame = .completing p s := by
  have hmem : (w, o) ∈ c.past.filterMap (Moment.won? p) := by
    rw [hw.wins]
    exact List.mem_cons_self
  obtain ⟨ν, hν, hwon⟩ := List.mem_filterMap.1 hmem
  unfold Moment.won? at hwon
  split at hwon
  · rename_i q o' _ hf _
    split at hwon
    · rename_i hq
      cases hwon
      exact ⟨ν, hν, rfl, _, hq ▸ hf⟩
    · cases hwon
  · cases hwon

theorem Won.call_eq (hw : c.Won p w o r) {ν : Moment H} (hν : ν ∈ c.past) {s : Completing H}
    (hf : ν.frame = .completing p s) (hs : ∀ o', s ≠ .claim o') : ν.call = w := by
  rcases hw.verdict ν hν s hf with ⟨h, -⟩ | ⟨-, ⟨o', h⟩, -⟩
  · exact h
  · exact absurd h (hs o')

/-- What is looked for in a run and found only at moments of completion calls after their claim is
found at moments of the winner. -/
theorem Won.filterMap_moments {α : Type} {f : Moment H → Option α} (hw : c.Won p w o r)
    (hf : ∀ μ, (∀ s, μ.frame = .completing p s → ∃ o', s = .claim o') → f μ = none) :
    c.past.filterMap f = (c.moments w).filterMap f := by
  have hnone : ∀ μ ∈ c.past, μ.call ≠ w → f μ = none := by
    intro μ hμ hne
    refine hf μ fun s hs => ?_
    rcases hw.verdict μ hμ s hs with ⟨h, -⟩ | ⟨-, h, -⟩
    · exact absurd h hne
    · exact h
  unfold moments
  generalize c.past = l at hnone
  induction l with
  | nil => rfl
  | cons μ l ih =>
    have ih := ih fun ν hν => hnone ν (List.mem_cons_of_mem μ hν)
    by_cases hμ : μ.call = w
    · rw [List.filter_cons_of_pos (by simpa using hμ), List.filterMap_cons, List.filterMap_cons, ih]
    · rw [List.filterMap_cons_none (hnone μ List.mem_cons_self hμ), ih,
        List.filter_cons_of_neg (by simpa using hμ)]

theorem Reached.exists_won (hc : c.Reached b) {ν : Moment H} (hν : ν ∈ c.past) {s : Completing H}
    (hf : ν.frame = .completing p s) : ∃ w o r, c.Won p w o r := by
  cases hc.contest p with
  | unclaimed hu => exact absurd hf (hu.past ν hν s)
  | won hw => exact ⟨_, _, _, hw⟩

end

/-- What happened at the moments of completion calls. -/
theorem Reached.moved {c : Chronicle H} (hc : c.Reached b) : ∀ ν ∈ c.past, ∀ p s,
    ν.frame = .completing p s → ∃ pr pr', ν.before.cells? p = some pr ∧
      ν.after.cells? p = some pr' ∧ s.Moves p pr ν.control ν.next pr' := by
  intro ν hν p s hf
  obtain ⟨c₀, hc₀, h, -, -⟩ := hc.extends_of_mem hν
  have ht := hc₀.tracked
  obtain ⟨pr, hp⟩ : ∃ pr, c₀.machine.cells? p = some pr := by
    cases hc₀.contest p with
    | unclaimed hu =>
      obtain ⟨o, rfl⟩ := hu.calls ν.call s (by rw [← hf]; exact h.frame? ht)
      exact h.exists_cells? ht hf
    | won hw =>
      obtain ⟨pr, hp, -⟩ := hw.cells
      exact ⟨pr, hp⟩
  obtain ⟨pr', hp', hm⟩ := h.completing ht hf hp
  exact ⟨pr, pr', by rw [h.before]; exact hp, hp', hm⟩

/-! ## The way of a completion call -/

section

variable {c : Chronicle H} {p : PromiseId}

theorem Reached.entered_at_claim (hc : c.Reached b) {μ : Moment H} (hμ : μ ∈ c.past) {g : Frame H}
    (hg : μ.next.callee? = some g) {s : Completing H} (hb : g.Becomes (.completing p s)) :
    ∃ o, g = .completing p (.claim o) := by
  obtain ⟨s', rfl⟩ := hb.of_completing
  obtain ⟨o, rfl⟩ := ((hc.sound μ hμ).1.made.leads.enters hg).of_completing
  exact ⟨o, rfl⟩

theorem Reached.completing_path (hc : c.Reached b) {ν : Moment H} (hν : ν ∈ c.past)
    {s : Completing H} (hf : ν.frame = .completing p s) :
    ∃ o, c.Path (.completing p (.claim o)) (c.moments ν.call) (c.frame? ν.call) := by
  obtain ⟨g, hp, μ, hμ, -, hg⟩ := hc.path_of_moment ν hν (by rw [hf]; rfl)
  have hb := (hp.becomes hc).2 ν (mem_moments.2 ⟨hν, rfl⟩)
  rw [hf] at hb
  obtain ⟨o, rfl⟩ := hc.entered_at_claim hμ hg hb
  exact ⟨o, hp⟩

theorem Reached.completing_path_of_frame? (hc : c.Reached b) {i : CallId} {s : Completing H}
    (hf : c.frame? i = some (.completing p s)) :
    ∃ o, c.Path (.completing p (.claim o)) (c.moments i) (some (.completing p s)) := by
  obtain ⟨μ, hμ, rfl, g, hg, hs⟩ := hc.entered i _ hf rfl
  have hp := hc.path μ hμ g hg hs
  rw [hf] at hp
  obtain ⟨o, rfl⟩ := hc.entered_at_claim hμ hg ((hp.becomes hc).1 _ rfl)
  exact ⟨o, hp⟩

end

/-! ## The decision -/

/-- The completion of `p` is decided: by call `w`, and with outcome `o`. -/
structure DecidedBy (c : Chronicle H) (p : PromiseId) (w : CallId) (o : Outcome) : Prop where
  /-- One call has won. -/
  wins : c.past.filterMap (Moment.won? p) = [(w, o)]
  /-- Every other completion call does nothing but lose, and the winner does not lose. -/
  verdict : ∀ μ ∈ c.past, ∀ s, μ.frame = .completing p s →
    μ.call = w ∧ μ.next ≠ .lost ∨ μ.call ≠ w ∧ (∃ o', s = .claim o') ∧ μ.next = .lost
  /-- No call that is about to store its outcome finds one. -/
  stores : ∀ μ ∈ c.past, ∀ o' x, μ.frame = .completing p (.store o') → μ.next ≠ .throw x
  /-- The outcome cell has changed once, by the winner and to its outcome, or the winner is about
  to do that. -/
  outcome : c.machine.outcome? p = some o ∧ c.past.filterMap (Moment.wrote? p) = [(w, some o)] ∨
    c.machine.outcome? p = none ∧ c.past.filterMap (Moment.wrote? p) = [] ∧
      c.frame? w = some (.completing p (.store o))
  status : c.machine.status? p = some (if o = .cancelled then .cancelled else .done)

theorem Won.decidedBy {c : Chronicle H} {p : PromiseId} {w : CallId} {o : Outcome} {r : Progress}
    (hw : c.Won p w o r) : c.DecidedBy p w o := by
  refine ⟨hw.wins, hw.verdict, hw.stores, ?_, ?_⟩
  · rw [hw.outcome?, hw.writes]
    by_cases hr : r = .claimed
    · exact .inr ⟨if_pos hr, if_pos hr, hw.storing hr⟩
    · exact .inl ⟨if_neg hr, if_neg hr⟩
  · obtain ⟨pr, hp, hsh⟩ := hw.cells
    rw [Machine.status?_eq, hp, Option.map_some, hsh.status]
    cases o <;> rfl

/-- As soon as one completion call of `p` has made its claim, one call has won it with one outcome,
and that stays so whatever happens. -/
theorem exists_decidedBy {c : Chronicle H} (hc : c.Reached b) {p : PromiseId}
    (hp : ∃ μ ∈ c.past, ∃ o, μ.frame = .completing p (.claim o)) :
    ∃ w o, ∀ c', c.Reaches b c' → c'.DecidedBy p w o := by
  obtain ⟨μ, hμ, o, hf⟩ := hp
  obtain ⟨w, o, r, hw⟩ := hc.exists_won hμ hf
  refine ⟨w, o, fun c' hl => ?_⟩
  obtain ⟨r', hw'⟩ := hw.reaches hc hl
  exact hw'.decidedBy

/-- Two threads complete a promise: the first makes it and completes it with a value, the second
cancels it. -/
def rivals : (r : Role) → Nat → Act Tabled r
  | .task, 0 => .call (.build {}) 1
  | .task, 1 => .call (.complete 0 (.value .unit)) 2
  | .task, 10 => .call (.complete 0 .cancelled) 2
  | r, _ => Tabled.quiet r

/-- The first thread wins, and the second one asks before the outcome is stored. -/
def race : Option (Chronicle Tabled) :=
  (Tabled.start [0, 10]).turns? (Tabled.behaviour rivals)
    [.step 0, .step 0, .step 0, .step 1, .step 0, .step 1]

theorem exists_decidedBy_race : ∃ c, race = some c ∧ c.Reached (Tabled.behaviour rivals) ∧
    (∃ μ ∈ c.past, ∃ o, μ.frame = .completing 0 (.claim o)) ∧
    ∃ w o, ∀ c', c.Reaches (Tabled.behaviour rivals) c' → c'.DecidedBy 0 w o := by
  have hs : race.isSome = true := rfl
  have hc : (race.get hs).Reached (Tabled.behaviour rivals) :=
    Tabled.reached (Option.some_get hs).symm
  have hp : ∃ μ ∈ (race.get hs).past, ∃ o, μ.frame = .completing 0 (.claim o) :=
    ⟨_, List.mem_of_getElem? (show (race.get hs).past[4]? = some _ from rfl), .value .unit, rfl⟩
  exact ⟨race.get hs, (Option.some_get hs).symm, hc, hp, exists_decidedBy hc hp⟩

end Chronicle

end OneShot
