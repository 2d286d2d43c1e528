import OneShot.Proofs.Times.Clock
import OneShot.Proofs.Completion.Winner

/-!
# When the library reads a clock

The library calls a clock and then runs its code, which may make calls of its own before it tells
something. This module says which calls read a clock at a time, and when they start to.

- **Reading** (`Frame.isReading`, `Frame.clock?`): the stages at which a call of the library reads a
  clock, and which one. What the program reads for itself is not counted.
- **Reads** (`Moment.read?`, `Chronicle.reads`): a call starts to read a clock.
- **Occasions** (`Moment.Asks`, `Reached.asks`): a promise is built or derived, a winner has stored
  its outcome, or a duration call has found the promise pending.
- **All reads** (`Reached.exists_read`): whichever call is reading a clock has started to.
- **Once** (`Reached.nodup_reads`): a call reads one clock, and that once.
-/

namespace OneShot

variable {H : Host} {b : Behaviour H}

/-! ## Reading -/

/-- The clock of a promise. -/
def Machine.clock? (m : Machine H) (p : PromiseId) : Option (H.Closure .clock) :=
  (m.cells? p).map Promise.clock

theorem Machine.clock?_eq_some {m : Machine H} {p : PromiseId} {pr : Promise H}
    (h : m.cells? p = some pr) : m.clock? p = some pr.clock := by
  rw [clock?, h, Option.map_some]

namespace Frame

/-- Whether a call of the library reads a clock. -/
def isReading : Frame H → Bool
  | building _ _ _ | completing _ (.stamp _) | chaining _ _ (some _) | measuring _ (some _) => true
  | _ => false

/-- The clock that a call of the library reads. -/
def clock? (m : Machine H) : Frame H → Option (H.Closure .clock)
  | building _ k _ => some k
  | completing p (.stamp _) | chaining p _ (some _) | measuring p (some _) => m.clock? p
  | _ => none

/-- Whether a call of the library that is to read a clock has not started to. -/
def isUnread : Frame H → Bool
  | completing _ (.claim _) | completing _ (.store _) | chaining _ _ none | measuring _ none => true
  | _ => false

variable {f g : Frame H} {m : Machine H} {k : H.Closure .clock}

/-- The code of clocks is run by such calls, and by the program for itself. -/
theorem eq_timing_or_isReading {code : H.Code .clock} (h : f.code? = some ⟨.clock, code⟩) :
    f = .timing code ∨ f.isReading = true := by
  unfold code? at h
  split at h <;> cases h
  case h_2 => exact .inr rfl
  case h_3 => exact .inr rfl
  case h_4 => exact .inr rfl
  case h_5 => exact .inr rfl
  case h_6 => exact .inl rfl

theorem isReading_of_clock? (h : f.clock? m = some k) : f.isReading = true := by
  unfold clock? at h
  split at h <;> first | rfl | cases h

/-- What a promise has as its clock, a call that reads it has. -/
theorem clock?_mono {m' : Machine H} (hm : ∀ p, m.clock? p = some k → m'.clock? p = some k)
    (h : f.clock? m = some k) : f.clock? m' = some k := by
  unfold clock? at h ⊢
  split at h
  · exact h
  · exact hm _ h
  · exact hm _ h
  · exact hm _ h
  · cases h

/-- A call that goes on reading reads the same clock. -/
theorem SameCall.clock? (h : f.SameCall g) (hf : f.clock? m = some k)
    (hg : g.isReading = true) : g.clock? m = some k := by
  have hread := isReading_of_clock? hf
  cases h with
  | building => exact hf
  | @completing p s s' =>
    cases s with
    | stamp =>
      cases s' with
      | stamp => exact hf
      | _ => cases hg
    | _ => cases hread
  | @chaining p _ code code' | @measuring p code code' =>
    cases code with
    | none => cases hread
    | some =>
      cases code' with
      | none => cases hg
      | some => exact hf
  | _ => cases hg

/-- Of the calls that are entered only those to build a promise read a clock at once. -/
theorem Enters.eq_building (h : f.Enters g) (hg : g.isReading = true) :
    ∃ builder k, g = .building builder k (H.invoke .clock k ()) := by
  cases h with
  | @code f callee hf =>
    cases callee with
    | build builder => exact ⟨builder, _, rfl⟩
    | _ => cases hg
  | deliver | check | enroll | transform => cases hg

end Frame

/-! ## Reads -/

/-- The call of the library that starts to read a clock at a moment, and the clock: the call of the
moment if it comes to read one, or the one that it enters. -/
def Moment.read? (μ : Moment H) : Option (CallId × H.Closure .clock) :=
  match μ.next with
  | .goto f => if μ.frame.isReading then none else (f.clock? μ.after).map (μ.call, ·)
  | .enter f _ => (f.clock? μ.after).map (μ.entered, ·)
  | _ => none

/-- All reads of a run. -/
def Chronicle.reads (c : Chronicle H) : List (CallId × H.Closure .clock) :=
  c.past.filterMap Moment.read?

/-- On which occasions a call starts to read a clock, and what code it runs then. -/
inductive Moment.Asks (μ : Moment H) : CallId → H.Closure .clock → Prop
  /-- A promise is to be built on the clock. -/
  | build {builder k} (hn : μ.next.callee? = some (.building builder k (H.invoke .clock k ()))) :
    Asks μ μ.entered k
  /-- A promise is to be derived from one on the clock. -/
  | chain {p f pr} (hf : μ.frame = .chaining p f none) (hp : μ.before.cells? p = some pr)
    (hn : μ.next = .goto (.chaining p f (some (H.invoke .clock pr.clock ())))) :
    Asks μ μ.call pr.clock
  /-- The call has won a promise on the clock and stores the outcome. -/
  | complete {p o pr} (hf : μ.frame = .completing p (.store o)) (hp : μ.before.cells? p = some pr)
    (hs : pr.status = o.status) (ho : pr.outcome = none)
    (ha : μ.after.cells? p = some { pr with outcome := some o })
    (hn : μ.next = .goto (.completing p (.stamp (H.invoke .clock pr.clock ())))) :
    Asks μ μ.call pr.clock
  /-- The call is to tell how long a promise on the clock has been pending. -/
  | duration {p pr} (hf : μ.frame = .measuring p none) (hp : μ.before.cells? p = some pr)
    (he : pr.endTime = 0)
    (hn : μ.next = .goto (.measuring p (some (H.invoke .clock pr.clock ())))) :
    Asks μ μ.call pr.clock

/-- A moment starts a read of its own call, or of the one that it enters. -/
theorem Moment.call_of_read? {μ : Moment H} {i : CallId} {k : H.Closure .clock}
    (h : μ.read? = some (i, k)) : i = μ.call ∨ i = μ.entered := by
  unfold read? at h
  split at h
  · split at h
    · cases h
    · obtain ⟨_, -, h⟩ := Option.map_eq_some_iff.1 h
      cases h
      exact .inl rfl
  · obtain ⟨_, -, h⟩ := Option.map_eq_some_iff.1 h
    cases h
    exact .inr rfl
  · cases h

theorem Moment.Sound.clock? {μ : Moment H} {p : PromiseId} {k : H.Closure .clock}
    (h : μ.Sound b) (hp : μ.before.clock? p = some k) : μ.after.clock? p = some k := by
  obtain ⟨pr, hcells, rfl⟩ := Option.map_eq_some_iff.1 hp
  obtain ⟨pr', hp', hmade⟩ := h.made.made_eq hcells
  rw [Machine.clock?_eq_some hp', (Promise.eq_of_made_eq hmade).1]

/-- A chaining starts to read the clock of its source. -/
theorem Moment.Sound.asks_chain {μ : Moment H} {p : PromiseId} {f : H.Closure .transform}
    (h : μ.Sound b) (hf : μ.frame = .chaining p f none) :
    ∃ pr, μ.before.cells? p = some pr ∧
      μ.next = .goto (.chaining p f (some (H.invoke .clock pr.clock ()))) := by
  have hk := h.control
  cases h.made with
  | wake _ hf' => rw [hf] at hf'; cases hf'
  | step _ _ hs _ =>
    rw [hf] at hs hk
    have hgo : μ.control = .go := hk.resolve_right Bool.false_ne_true
    obtain ⟨pr, hp, hs⟩ := Option.bind_eq_some_iff.1 (Machine.eq_of_runStage hs hgo)
    exact ⟨pr.bare, Machine.cells?_eq_some hp, (Prod.mk.inj (Option.some.inj hs)).2.symm⟩

/-- A duration call that looks at the end time starts to read the clock if that is still zero, and
is over otherwise. -/
theorem Moment.Sound.asks_duration {μ : Moment H} {p : PromiseId} (h : μ.Sound b)
    (hf : μ.frame = .measuring p none) :
    (∃ pr, μ.before.cells? p = some pr ∧ pr.endTime = 0 ∧
        μ.next = .goto (.measuring p (some (H.invoke .clock pr.clock ())))) ∨
      μ.before.isDone p = true ∧ μ.next.own μ.frame = none := by
  have hm := h.measuring hf
  generalize μ.next = n at hm ⊢
  cases hm with
  | settled hp hd => exact .inr ⟨Machine.isDone_iff_cells?.2 ⟨_, hp, hd⟩, rfl⟩
  | @ask pr hp hd =>
    refine .inl ⟨pr, hp, ?_, rfl⟩
    simpa [Promise.isDone, Promise.endTime, Latch.isOpen] using hd

namespace Chronicle

variable {c : Chronicle H} {μ : Moment H} {i : CallId} {p : PromiseId} {f : Frame H}
  {k : H.Closure .clock}

/-- The winner that is about to store has claimed the promise, and there is no outcome yet. -/
theorem Reached.storing (hc : c.Reached b) (hμ : μ ∈ c.past) {o : Outcome} {pr : Promise H}
    (hf : μ.frame = .completing p (.store o)) (hp : μ.before.cells? p = some pr) :
    pr.status = o.status ∧ pr.outcome = none := by
  obtain ⟨c₀, hc₀, h, -, -⟩ := hc.extends_of_mem hμ
  have hframe : c₀.frame? μ.call = some (.completing p (.store o)) := by
    rw [h.frame? hc₀.tracked, hf]
  cases hc₀.contest p with
  | unclaimed hu =>
    obtain ⟨o', ho⟩ := hu.calls _ _ hframe
    cases ho
  | @won w o' r hw =>
    -- Only the winner comes to a store.
    have hwin : μ.call = w := Decidable.byContradiction fun hne => by
      obtain ⟨o', ho⟩ := hw.others _ _ hframe hne
      cases ho
    subst hwin
    obtain ⟨s, hs, hat⟩ := hw.winner _ hframe
    cases hs
    obtain ⟨pr', hp', hsh⟩ := hw.cells
    rw [h.before, hp'] at hp
    cases hp
    cases hat
    exact ⟨hsh.status, hsh.outcome⟩

/-- What a completion call does when it has won: it stores its outcome and calls the clock. -/
theorem Reached.asks_complete (hc : c.Reached b) (hμ : μ ∈ c.past) {o : Outcome}
    (hf : μ.frame = .completing p (.store o)) :
    ∃ pr, μ.before.cells? p = some pr ∧ pr.status = o.status ∧ pr.outcome = none ∧
      μ.after.cells? p = some { pr with outcome := some o } ∧
      μ.next = .goto (.completing p (.stamp (H.invoke .clock pr.clock ()))) := by
  obtain ⟨pr, pr', hp, hp', hm⟩ := hc.moved μ hμ p _ hf
  obtain ⟨hs, ho⟩ := hc.storing hμ hf hp
  generalize μ.control = x, μ.next = n at hm
  cases hm with
  | store => exact ⟨pr, hp, hs, ho, hp', rfl⟩
  | twice ho' => exact absurd ho ho'

/-- A call that comes to read a clock does so on one of these occasions. -/
theorem Reached.asks_of_own (hc : c.Reached b) (hμ : μ ∈ c.past)
    (hold : μ.frame.isReading = false) (hown : μ.next.own μ.frame = some f)
    (hf : f.isReading = true) :
    ∃ k, μ.next = .goto f ∧ f.clock? μ.after = some k ∧ μ.Asks μ.call k := by
  have hsound := (hc.sound μ hμ).1
  have hclock : ∀ {p pr}, μ.before.cells? p = some pr → μ.after.clock? p = some pr.clock :=
    fun hp => hsound.clock? (Machine.clock?_eq_some hp)
  rcases hsound.made.leads.sameCall hown with heq | hsame
  · rw [heq, hf] at hold
    cases hold
  -- A call begins to read by a move of its own kind, so one case for each kind that reads.
  generalize hfr : μ.frame = fr at hsame hold hown
  cases hsame with
  | building => cases hold
  | @completing p s s' =>
    obtain ⟨pr₀, pr', hp₀, -, hm⟩ := hc.moved μ hμ p s hfr
    cases s' with
    | stamp code =>
      generalize hn : μ.next = n, μ.control = x at hm hown
      cases hm with
      | store =>
        obtain ⟨pr, hp, hs, ho, hp', -⟩ := hc.asks_complete hμ hfr
        cases hp₀.symm.trans hp
        cases hown
        exact ⟨_, rfl, hclock hp, .complete hfr hp hs ho hp' hn⟩
      | stampCall | stampStay => cases hold
      | _ => cases hown
    | _ => cases hf
  | @chaining p f code code' =>
    cases code with
    | some code => cases hold
    | none =>
      obtain ⟨pr, hp, hn⟩ := hsound.asks_chain hfr
      rw [hn] at hown
      cases hown
      exact ⟨_, hn, hclock hp, .chain hfr hp hn⟩
  | @measuring p code code' =>
    cases code with
    | some code => cases hold
    | none =>
      obtain ⟨pr, hp, he, hn⟩ | ⟨-, hover⟩ := hsound.asks_duration hfr
      · rw [hn] at hown
        cases hown
        exact ⟨_, hn, hclock hp, .duration hfr hp he hn⟩
      · rw [hfr, hown] at hover
        cases hover
  | _ => cases hf

/-- The library reads a clock on these occasions only. -/
theorem Reached.asks (hc : c.Reached b) (hμ : μ ∈ c.past) (hr : μ.read? = some (i, k)) :
    μ.Asks i k := by
  unfold Moment.read? at hr
  split at hr
  · rename_i g hn
    split at hr
    · cases hr
    · rename_i hold
      obtain ⟨k, hk, hr⟩ := Option.map_eq_some_iff.1 hr
      cases hr
      obtain ⟨k', -, hk', hasks⟩ := hc.asks_of_own hμ (Bool.not_eq_true _ |>.mp hold)
        (by rw [hn]; rfl) (Frame.isReading_of_clock? hk)
      cases hk.symm.trans hk'
      exact hasks
  · rename_i g f' hn
    obtain ⟨k, hk, hr⟩ := Option.map_eq_some_iff.1 hr
    cases hr
    have hcal : μ.next.callee? = some g := by rw [hn]; rfl
    have hent := (hc.sound μ hμ).1.made.leads.enters hcal
    obtain ⟨builder, k', rfl⟩ := hent.eq_building (Frame.isReading_of_clock? hk)
    cases hk
    exact .build hcal
  · cases hr

theorem mem_reads {x : CallId × H.Closure .clock} :
    x ∈ c.reads ↔ ∃ μ ∈ c.past, μ.read? = some x := List.mem_filterMap

/-- What is looked for in a run is found once more if it is found at its last moment. -/
theorem filterMap_record {α : Type} (g : Moment H → Option α) :
    (c.record μ).past.filterMap g = c.past.filterMap g ++ (g μ).toList := by
  rw [past_record, List.filterMap_append]
  cases h : g μ <;> simp [h]

theorem reads_record : (c.record μ).reads = c.reads ++ μ.read?.toList := filterMap_record _

theorem mem_reads_record {x : CallId × H.Closure .clock} :
    x ∈ (c.record μ).reads ↔ x ∈ c.reads ∨ μ.read? = some x := by
  rw [reads_record, List.mem_append, Option.mem_toList]

theorem Reached.call_ne_entered (hc : c.Reached b) (hμ : μ ∈ c.past) : μ.call ≠ μ.entered := by
  obtain ⟨-, hlt, -⟩ := hc.sound μ hμ
  exact fun he => Nat.ne_of_lt hlt (congrArg CallId.entry he)

theorem Reached.entry_of_mem_reads (hc : c.Reached b) (hr : (i, k) ∈ c.reads) :
    i.entry ≤ c.past.length := by
  obtain ⟨μ, hμ, hr⟩ := mem_reads.1 hr
  obtain ⟨-, hlt, hle⟩ := hc.sound μ hμ
  rcases Moment.call_of_read? hr with rfl | rfl
  · omega
  · exact hle

/-! ## All reads -/

/-- Whichever call is reading a clock has started to, and it reads that of its promise. -/
theorem Reached.exists_read (hc : c.Reached b) : ∀ i f, c.frame? i = some f →
    f.isReading = true → ∃ k, f.clock? c.machine = some k ∧ (i, k) ∈ c.reads := by
  induction c, hc using Reached.induction with
  | start m hm =>
    intro i f hi hf
    obtain ⟨work, rfl⟩ := frame?_start hm hi
    cases hf
  | record c μ hc hμ hc' ih =>
    intro i f hi hf
    have ht := hc.tracked
    have hsound := hμ.sound ht
    have hsteady : f.steady = true := by cases f <;> first | rfl | cases hf
    have hclock : ∀ p k, c.machine.clock? p = some k → μ.after.clock? p = some k :=
      fun p k hp => hsound.clock? (by rw [hμ.before, hp])
    rcases steady_record ht hμ hi hsteady with ⟨rfl, hown⟩ | ⟨rfl, hcal⟩ | ⟨-, -, hold⟩
    · -- It was reading before the moment, or this is the moment at which it starts to.
      cases hold : μ.frame.isReading with
      | true =>
        obtain ⟨k, hk, hr⟩ := ih _ _ (hμ.frame? ht) hold
        refine ⟨k, Frame.clock?_mono (hclock · k) ?_, mem_reads_record.2 (.inl hr)⟩
        rcases hμ.made.leads.sameCall hown with rfl | hsame
        · exact hk
        · exact hsame.clock? hk hf
      | false =>
        obtain ⟨k, hn, hk, -⟩ := hc'.asks_of_own mem_record_self hold hown hf
        exact ⟨k, hk, mem_reads_record.2 (.inr (by simp [Moment.read?, hn, hold, hk]))⟩
    · obtain ⟨builder, k, rfl⟩ := (hμ.made.leads.enters hcal).eq_building hf
      obtain ⟨g, hn⟩ := Next.eq_enter hcal
      exact ⟨k, rfl, mem_reads_record.2 (.inr (by rw [Moment.read?, hn]; rfl))⟩
    · obtain ⟨k, hk, hr⟩ := ih i f hold hf
      exact ⟨k, Frame.clock?_mono (hclock · k) hk, mem_reads_record.2 (.inl hr)⟩

/-! ## Once -/

/-- A call whose clock is still unread has been at such stages only, and does not start to read. -/
theorem Reached.isUnread_of_own (hc : c.Reached b) (hμ : μ ∈ c.past)
    (hown : μ.next.own μ.frame = some f) (hf : f.isUnread = true) :
    μ.frame.isUnread = true ∧ ∀ k, μ.read? ≠ some (μ.call, k) := by
  have hsound := (hc.sound μ hμ).1
  refine ⟨?_, fun k hr => ?_⟩
  · -- Backwards: no stage after the clock leads to one before it.
    rcases hsound.made.leads.sameCall hown with rfl | hsame
    · exact hf
    generalize hfr : μ.frame = fr at hsame hown ⊢
    cases hsame with
    | @completing p s s' =>
      obtain ⟨_, _, -, -, hm⟩ := hc.moved μ hμ p s hfr
      generalize μ.next = n, μ.control = x at hm hown
      cases hm <;> cases hown <;> first | rfl | cases hf
    | @chaining p g code code' =>
      have hm := hsound.deriving hfr
      generalize μ.next = n at hm hown
      cases hm with
      | ask => rfl
      | run hn => cases hn.symm.trans hown; cases hf
      | make | panic => cases hown
    | @measuring p code code' =>
      have hm := hsound.measuring hfr
      generalize μ.next = n at hm hown
      cases hm with
      | ask => rfl
      | run _ hn => cases hn.symm.trans hown; cases hf
      | settled | tell | panic => cases hown
    | _ => cases hf
  · generalize hi : μ.call = i at hr
    cases hc.asks hμ hr with
    | build => exact hc.call_ne_entered hμ hi
    | chain _ _ hn | complete _ _ _ _ _ hn | duration _ _ _ hn =>
      rw [hn] at hown
      cases hown
      cases hf

/-- A call that is to read a clock and has not started to has read none. -/
theorem Reached.not_mem_reads (hc : c.Reached b) : ∀ i f, c.frame? i = some f →
    f.isUnread = true → ∀ k, (i, k) ∉ c.reads := by
  induction c, hc using Reached.induction with
  | start m hm => exact fun i f hi hf k hr => by cases hr
  | record c μ hc hμ hc' ih =>
    intro i f hi hf k hr
    have ht := hc.tracked
    have hsteady : f.steady = true := by cases f <;> first | rfl | cases hf
    rcases steady_record ht hμ hi hsteady with ⟨rfl, hown⟩ | ⟨rfl, hcal⟩ | ⟨hne, hne', hold⟩
    · obtain ⟨hfr, hno⟩ := hc'.isUnread_of_own mem_record_self hown hf
      rcases mem_reads_record.1 hr with hr | hr
      · exact ih _ _ (hμ.frame? ht) hfr k hr
      · exact hno k hr
    · rcases mem_reads_record.1 hr with hr | hr
      · have hle := hc.entry_of_mem_reads hr
        rw [Moment.entered, hμ.number] at hle
        exact Nat.not_succ_le_self _ hle
      · -- Only a call to build a promise reads a clock as soon as it is entered.
        generalize hi : μ.entered = i at hr
        cases hc'.asks mem_record_self hr with
        | build hn => cases hn.symm.trans hcal; cases hf
        | chain | complete | duration => exact hc'.call_ne_entered mem_record_self hi.symm
    · rcases mem_reads_record.1 hr with hr | hr
      · exact ih i f hold hf k hr
      · exact (Moment.call_of_read? hr).elim hne hne'

/-- A call that starts to read a clock has read none before. -/
theorem Reached.not_mem_of_read? (hc : c.Reached b) (hμ : c.Extends b μ)
    (hc' : (c.record μ).Reached b) (hr : μ.read? = some (i, k)) (k' : H.Closure .clock) :
    (i, k') ∉ c.reads := by
  have hframe := hμ.frame? hc.tracked
  cases hc'.asks mem_record_self hr with
  | build =>
    intro hr'
    have hle := hc.entry_of_mem_reads hr'
    rw [Moment.entered, hμ.number] at hle
    exact Nat.not_succ_le_self _ hle
  | chain hf | complete hf | duration hf =>
    rw [hf] at hframe
    exact hc.not_mem_reads _ _ hframe rfl k'

/-- A call reads one clock, and that once. -/
theorem Reached.nodup_reads (hc : c.Reached b) : (c.reads.map Prod.fst).Nodup := by
  induction c, hc using Reached.induction with
  | start m hm => exact .nil
  | record c μ hc hμ hc' ih =>
    rw [reads_record, List.map_append]
    cases hr : μ.read? with
    | none => simpa using ih
    | some x =>
      obtain ⟨i, k⟩ := x
      have hnew : i ∉ c.reads.map Prod.fst := by
        intro hi
        obtain ⟨⟨_, k'⟩, hmem, rfl⟩ := List.mem_map.1 hi
        exact hc.not_mem_of_read? hμ hc' hr k' hmem
      refine List.nodup_append.2 ⟨ih, List.nodup_cons.2 ⟨List.not_mem_nil, .nil⟩, ?_⟩
      rintro j hj j' hj' rfl
      rw [List.mem_singleton.1 hj'] at hj
      exact hnew hj

end Chronicle

end OneShot
