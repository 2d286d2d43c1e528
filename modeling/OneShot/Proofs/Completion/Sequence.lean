import OneShot.Proofs.Completion.Course
import OneShot.Proofs.Guard.Progress
import OneShot.Proofs.Listener.Delivery

/-!
# The order in which a completion is seen

Everybody sees the same of the completion of a promise, in the same order, whatever else is going
on: the clock is read, the latch is opened, the wakers are called, the completion is logged, and the
listeners are notified.

- **What is done** (`Reached.deeds_prefix`, `Reached.deeds_of_drain`) is a part of that, up to where
  a panic has ended it, and the whole of it before a listener is notified.
- **Who does it** (`Won.deeds_of_call_ne`): the winner.
- **What the promise looks like then** (`Reached.shows_of_frame`): it is pending while the clock is
  read, done and still with its listeners while the wakers are called, and then without listeners.
- **How it goes on** (`Reached.completing_goes_on`, `Reached.nears`): each step brings the winner
  closer to its end, but for those of the code that it runs, and what it waits for is at most a guard
  that another thread gives back soon.
- **How it ends** (`Won.exists_drain`): with all of this done, if neither the clock nor a waker
  panics.
- **All of it** (`Chronicle.Sequenced`, `completes_in_order`).
-/

namespace OneShot

variable {H : Host} {b : Behaviour H}

/-- What is logged of a completion is one of its deeds. -/
theorem Moment.filterMap_deeds (μ : Moment H) (p : PromiseId) :
    (μ.deeds b p).filterMap Deed.traced? = μ.traces p := by
  have hnone : (μ.deed? b p).toList.filterMap Deed.traced? = [] := by
    refine List.filterMap_eq_nil_iff.2 fun d hd => ?_
    obtain ⟨s, pr, -, hd⟩ := exists_of_deed? (Option.mem_toList.1 hd)
    unfold Completing.deed? at hd
    split at hd
    · obtain ⟨r, -, rfl⟩ := Option.map_eq_some_iff.1 hd
      rfl
    all_goals first | (cases hd; rfl) | cases hd
  rw [deeds, List.filterMap_append, hnone, List.nil_append, List.filterMap_map]
  exact List.filterMap_some

/-! ## How it goes on -/

/-- What a completion call has still before it: how many stages, and at a stage that goes through a
list, what is left of that. -/
def Completing.ahead : Completing H → Nat × Nat
  | claim _ => (12, 0)
  | store _ => (11, 0)
  | stamp _ => (10, 0)
  | lockGate _ => (9, 0)
  | openLatch _ => (8, 0)
  | notify => (7, 0)
  | lockWakers => (6, 0)
  | takeWakers => (5, 0)
  | wake rest => (4, 2 * rest.length)
  | waking _ rest => (4, 2 * rest.length + 1)
  | announce => (3, 0)
  | lockListeners => (2, 0)
  | drain => (1, 0)
  | deliver rest => (0, 2 * rest.length)
  | delivering rest => (0, 2 * rest.length + 1)

/-- Whether a completion call comes closer to its end by going from stage `s` to stage `s'`. -/
def Completing.Nears (s s' : Completing H) : Prop := Prod.Lex (· < ·) (· < ·) s'.ahead s.ahead

/-- No call comes closer to its end for ever. -/
theorem Completing.nears_wellFounded : WellFounded fun s' s : Completing H => s.Nears s' :=
  InvImage.wf ahead (Prod.lex Nat.lt_wfRel Nat.lt_wfRel).wf

section

variable {p : PromiseId} {pr pr' : Promise H} {s : Completing H} {k : Control} {n : Next H}

/-- A step of a completion call ends it, or brings it closer to its end, or is one of the clock or
of a waker. -/
theorem Completing.Moves.nears (h : s.Moves p pr k n pr') : n.own (.completing p s) = none ∨
    ∃ s', n.own (.completing p s) = some (.completing p s') ∧
      (s.Nears s' ∨ s'.ahead = s.ahead ∧ (Frame.completing p s).code?.isSome = true) := by
  cases h with
  | lose | twice | stampPanic | wakePanic | finish | propagate | pass => exact .inl rfl
  | stampCall | stampStay | wakeCall | wakeStay => exact .inr ⟨_, rfl, .inr ⟨rfl, rfl⟩⟩
  -- At these stages a list is gone through, and less of it is left then.
  | wake | deliver =>
    refine .inr ⟨_, rfl, .inl (.right _ ?_)⟩
    rw [List.length_cons]
    omega
  | wakeDone | delivered => exact .inr ⟨_, rfl, .inl (.right _ (Nat.lt_succ_self _))⟩
  | _ => exact .inr ⟨_, rfl, .inl (.left _ _ (by decide))⟩

/-- Where a completion call neither takes nor holds a guard nor notifies listeners, there is a step
for it. -/
theorem Completing.isSome_step {m : Machine H} {t : ThreadId} (hp : m.promise? p = some pr)
    (hw : (Frame.completing p s).wants? m t = none) (hg : (Frame.completing p s).guard? m t = none)
    (hd : s.isDelivering = false) (hk : k = .go ∨ (Frame.completing p s).awaits = true) :
    (s.step b m t p k).isSome = true := by
  cases s with
  | claim o | store o =>
    rw [hk.resolve_right Bool.false_ne_true]
    simp only [step, Machine.runStage, hp, Option.bind_eq_bind, Option.bind_some]
    split <;> rfl
  | stamp code =>
    refine Machine.isSome_runCode fun m₁ v hm => ?_
    rw [hm.promise?, hp]
    rfl
  | wake ws =>
    rw [hk.resolve_right Bool.false_ne_true]
    cases ws <;> rfl
  | waking code ws => exact Machine.isSome_runCode fun _ _ _ => rfl
  | announce =>
    rw [hk.resolve_right Bool.false_ne_true]
    simp only [step, Machine.runStage, hp, Option.bind_eq_bind, Option.bind_some,
      Option.isSome_some]
  | lockGate | lockWakers | lockListeners => cases hw
  | openLatch | notify | takeWakers | drain => cases hg
  | deliver | delivering => cases hd

end

namespace Chronicle

variable {c : Chronicle H} {μ δ : Moment H} {p : PromiseId} {w : CallId} {o : Outcome}
  {r : Progress} {pr : Promise H}

/-- A completion call is never stuck: on top of its thread it can make its next step, unless that
takes a guard which a call of another thread holds, and not for long. -/
theorem Reached.completing_goes_on (hc : c.Reached b) {i : CallId} {s : Completing H}
    (hi : c.frame? i = some (.completing p s)) (hp : c.machine.promise? p = some pr)
    (htop : (c.calls i.thread).head? = some i) (hab : c.machine.aborted = false) :
    (∃ m, c.machine.step b i.thread = some m) ∨
      ∃ x j, (Frame.completing p s).wants? c.machine i.thread = some x ∧ j.thread ≠ i.thread ∧
        c.Brief b j x := by
  -- Four kinds of stage: those that want a guard, hold one, wait for a listener, and others.
  cases hw : (Frame.completing p s).wants? c.machine i.thread with
  | some x =>
    have hx : c.machine.HasGuard x := by
      cases s <;> cases hw <;> exact ⟨pr, hp⟩
    cases howner : c.machine.owner? x with
    | none => exact .inl ((hc.step_iff_of_wants? hi hw hx hab).2 howner)
    | some u =>
      obtain ⟨j, rfl, hj⟩ := hc.exists_holder howner
      refine .inr ⟨x, j, rfl, fun heq => ?_, hj.brief hc⟩
      exact hc.not_owner hi htop (Frame.guard?_of_wants? hw) x (heq ▸ howner)
  | none =>
    left
    cases hg : (Frame.completing p s).guard? c.machine i.thread with
    | some x => exact Holds.goes_on hc ⟨_, hi, hg⟩ hab
    | none =>
      cases hd : s.isDelivering with
      | true => exact hc.delivery_goes_on hi hd htop hab
      | false =>
        obtain ⟨k, rest, token, ht, hk, -⟩ := hc.top hi htop hab
        exact Machine.exists_step hab ht (Completing.isSome_step hp hw hg hd hk)

theorem Reached.nears (hc : c.Reached b) (hμ : μ ∈ c.past) {s : Completing H}
    (hf : μ.frame = .completing p s) : μ.next.own μ.frame = none ∨
      ∃ s', μ.next.own μ.frame = some (.completing p s') ∧
        (s.Nears s' ∨ s'.ahead = s.ahead ∧ μ.frame.code?.isSome = true) := by
  obtain ⟨pr, pr', -, -, hm⟩ := hc.moved μ hμ p s hf
  rw [hf]
  exact hm.nears

/-! ## How it ends -/

/-- A winner that is over has taken the listeners, unless the clock or a waker has panicked. -/
theorem Won.exists_drain (hc : c.Reached b) (hw : c.Won p w o r) (hn : c.frame? w = none)
    (hclock : ∀ κ ∈ c.past, ¬κ.ClockPanics p) (hwaker : ∀ κ ∈ c.past, ¬κ.WakerPanics p) :
    ∃ δ ∈ c.past, δ.call = w ∧ δ.frame = .completing p .drain := by
  obtain rfl := hw.drained hc hn hclock hwaker
  -- Its last moment is one of the delivery, which comes after the taking.
  obtain ⟨κ, hκ, rfl, s, hf, hat, -⟩ := hw.exists_last hc hn
  have hs : s.isDelivering = true := by cases hat <;> rfl
  exact hc.exists_drain hκ hf hs

theorem flatMap_traces : c.past.flatMap (Moment.traces p) =
    (c.deeds b p).filterMap Deed.traced? := by
  rw [deeds, List.filterMap_flatMap]
  exact List.flatMap_congr fun μ _ => (μ.filterMap_deeds p).symm

/-! ## What is done -/

/-- Whatever ends the winner, it has done what comes first in a whole completion. -/
theorem Reached.deeds_prefix (hc : c.Reached b) (hp : c.machine.promise? p = some pr) :
    ∃ reading ws ls, c.deeds b p <+: Deed.delivering pr reading ws ls ls := by
  cases hc.contest p with
  | unclaimed hu => exact ⟨0, [], [], by rw [hu.deeds hc]; exact List.nil_prefix⟩
  | won hw =>
    obtain ⟨pr', s, hp', hcourse, -⟩ := hc.course hw
    obtain rfl := Option.some.inj (hp'.symm.trans (Machine.cells?_eq_some hp))
    exact hcourse.isPrefix

/-- A winner that has taken the listeners has done all that comes before. It has taken all listeners
that were ever stored. -/
theorem Reached.deeds_of_drain (hc : c.Reached b) (hδ : δ ∈ c.past)
    (hf : δ.frame = .completing p .drain) (hp : c.machine.promise? p = some pr) :
    ∃ reading ws ls, c.deeds b p =
        Deed.delivering pr reading ws ((c.stored p).map Prod.snd) ls ∧
      ls <+: (c.stored p).map Prod.snd ∧ pr.endTime = pr.stamp reading := by
  obtain ⟨s, hcourse⟩ := hc.course_of_moment hδ hf hp
  obtain ⟨pr₀, pr₁, hp₀, -, hm⟩ := hc.moved δ hδ p _ hf
  have hlist : pr₀.listeners.data.toList = (c.stored p).map Prod.snd := by
    rw [(hc.delivery hδ hf).1] at hm
    exact (hm.eq_of_drain rfl).symm
  have hmem : .drained ((c.stored p).map Prod.snd) ∈ δ.deeds b p := by
    rw [(hc.sound δ hδ).1.deeds_eq hf hp₀, ← hlist]
    exact List.mem_cons_self
  obtain ⟨r, ws, ls, hr, hls, hds⟩ := hcourse.of_drained (mem_deeds hδ hmem)
  exact ⟨r, ws, ls, hds, hls, hr⟩

theorem Reached.traces_of_drain (hc : c.Reached b) (hδ : δ ∈ c.past)
    (hf : δ.frame = .completing p .drain) (hp : c.machine.promise? p = some pr) :
    c.past.flatMap (Moment.traces p) = [pr.endTime - pr.startTime] := by
  obtain ⟨reading, ws, ls, hds, -⟩ := hc.deeds_of_drain hδ hf hp
  rw [flatMap_traces, hds, Deed.traces_delivering]

/-! ## Who does it -/

/-- No call but the winner does any of it. -/
theorem Won.deeds_of_call_ne (hc : c.Reached b) (hw : c.Won p w o r) (hμ : μ ∈ c.past)
    (hne : μ.call ≠ w) : μ.deeds b p = [] := by
  have hsound := (hc.sound μ hμ).1
  by_cases hf : ∃ s, μ.frame = .completing p s
  · obtain ⟨s, hf⟩ := hf
    rcases hw.verdict μ hμ s hf with ⟨hcall, -⟩ | ⟨-, ⟨o', rfl⟩, -⟩
    · exact absurd hcall hne
    · exact hsound.deeds_of_claim hf
  · exact hsound.deeds_of_ne fun s hs => hf ⟨s, hs⟩

/-- A call that loses does none of it. -/
theorem Reached.deeds_of_lost (hc : c.Reached b) (hμ : μ ∈ c.past) {s : Completing H}
    (hf : μ.frame = .completing p s) (hn : μ.next = .lost) (hδ : δ ∈ c.past)
    (hi : δ.call = μ.call) : δ.deeds b p = [] := by
  obtain ⟨w, o, r, hw⟩ := hc.exists_won hμ hf
  rcases hw.verdict μ hμ s hf with ⟨-, hwins⟩ | ⟨hne, -⟩
  · exact absurd hn hwins
  · exact hw.deeds_of_call_ne hc hδ (hi ▸ hne)

/-! ## What the promise looks like then -/

/-- How a promise looks while a completion call is at a stage after its claim. -/
theorem Reached.shows_of_frame (hc : c.Reached b) {i : CallId} {s : Completing H}
    (hi : c.frame? i = some (.completing p s)) (hs : ∀ o, s ≠ .claim o)
    (hp : c.machine.promise? p = some pr) : ∃ o r, s.At o r ∧ pr.bare.Shows o r := by
  cases hc.contest p with
  | unclaimed hu =>
    obtain ⟨o, ho⟩ := hu.calls i s hi
    exact absurd ho (hs o)
  | @won w o r hw =>
    obtain ⟨pr', hp', hsh⟩ := hw.cells
    obtain rfl := Option.some.inj (hp'.symm.trans (Machine.cells?_eq_some hp))
    by_cases hiw : i = w
    · obtain ⟨s', hs', hat⟩ := hw.winner _ (hiw ▸ hi)
      cases hs'
      exact ⟨o, r, hat, hsh⟩
    · obtain ⟨o', ho'⟩ := hw.others i s hi hiw
      exact absurd ho' (hs o')

theorem Reached.pending_of_stamp (hc : c.Reached b) {i : CallId} {code : H.Code .clock}
    (hi : c.frame? i = some (.completing p (.stamp code)))
    (hp : c.machine.promise? p = some pr) : pr.isDone = false := by
  obtain ⟨o, r, hat, hsh⟩ := hc.shows_of_frame hi nofun hp
  cases hat
  exact hsh.isDone

/-- While a waker runs, the promise is done, and all listeners that were stored are still there. -/
theorem Reached.listed_of_waking (hc : c.Reached b) {i : CallId} {code : H.Code .waker}
    {rest : List (H.Closure .waker)} (hi : c.frame? i = some (.completing p (.waking code rest)))
    (hp : c.machine.promise? p = some pr) : pr.isDone = true ∧
      pr.listeners.data.toList = (c.stored p).map Prod.snd ∧
      pr.listenerCount = (c.stored p).length := by
  obtain ⟨o, r, hat, hsh⟩ := hc.shows_of_frame hi nofun hp
  cases hat
  have hlist : pr.listeners.data = .pending ((c.stored p).map Prod.snd) := by
    have hq := hc.queue p
    rw [Machine.cells?_eq_some hp] at hq
    cases hq with
    | pending h => exact h
    | drained h =>
      have hdrained := hsh.drained
      rw [h] at hdrained
      cases hdrained
  refine ⟨hsh.isDone, by rw [hlist]; rfl, ?_⟩
  rw [Promise.listenerCount, hlist]
  exact List.length_map ..

/-! ## All of it -/

/-- What is seen of the completion of `p` in a run, where `pr` is what the promise is in the end. -/
structure Sequenced (b : Behaviour H) (c : Chronicle H) (p : PromiseId) (pr : Promise H) :
    Prop where
  /-- Whatever ends the winner, what it has done is what comes first in a whole completion. -/
  begun : ∃ reading ws ls, c.deeds b p <+: Deed.delivering pr reading ws ls ls
  /-- Once it has taken the listeners, it has done all that comes before, each thing once. It has
  taken what was stored and notifies it from the front. -/
  drained : ∀ δ ∈ c.past, δ.frame = .completing p .drain → ∃ reading ws ls,
    c.deeds b p = Deed.delivering pr reading ws ((c.stored p).map Prod.snd) ls ∧
      ls <+: (c.stored p).map Prod.snd ∧ pr.endTime = max (max reading pr.startTime) 1
  /-- A call that has won and is over has taken them, unless the clock or a waker has panicked. -/
  finished : ∀ ν ∈ c.past, ∀ o, ν.frame = .completing p (.claim o) → ν.next ≠ .lost →
    c.frame? ν.call = none → (∀ κ ∈ c.past, ¬κ.ClockPanics p) →
    (∀ κ ∈ c.past, ¬κ.WakerPanics p) →
    ∃ δ ∈ c.past, δ.call = ν.call ∧ δ.frame = .completing p .drain
  /-- Until it is over, it can make its next step on top of its thread, unless that takes a guard
  which a call of another thread holds, and not for long. -/
  goes_on : ∀ i s, c.frame? i = some (.completing p s) → (c.calls i.thread).head? = some i →
    c.machine.aborted = false → (∃ m, c.machine.step b i.thread = some m) ∨
      ∃ x j, (Frame.completing p s).wants? c.machine i.thread = some x ∧ j.thread ≠ i.thread ∧
        c.Brief b j x
  /-- Each step ends it, or brings it closer to its end, or is one of the clock or of a waker. -/
  nears : ∀ μ ∈ c.past, ∀ s, μ.frame = .completing p s → μ.next.own μ.frame = none ∨
    ∃ s', μ.next.own μ.frame = some (.completing p s') ∧
      (s.Nears s' ∨ s'.ahead = s.ahead ∧ μ.frame.code?.isSome = true)
  /-- A call that loses does none of it. -/
  lost : ∀ μ ∈ c.past, ∀ s, μ.frame = .completing p s → μ.next = .lost →
    ∀ ν ∈ c.past, ν.call = μ.call → ν.deeds b p = []
  /-- While the clock is read, the promise is pending. -/
  reading : ∀ i code, c.frame? i = some (.completing p (.stamp code)) → pr.isDone = false
  /-- While a waker runs, the promise is done and has all listeners that were stored. -/
  waking : ∀ i code rest, c.frame? i = some (.completing p (.waking code rest)) →
    pr.isDone = true ∧ pr.listeners.data.toList = (c.stored p).map Prod.snd ∧
      pr.listenerCount = (c.stored p).length
  /-- When the listeners have been taken, there are none. -/
  emptied : ∀ δ ∈ c.past, δ.frame = .completing p .drain →
    pr.isDone = true ∧ pr.listenerCount = 0
  /-- The completion is logged once at most. -/
  traced : (c.past.flatMap (Moment.traces p)).length ≤ 1
  /-- When the listeners have been taken, it has been logged, with the time from the start to the
  end. -/
  logged : ∀ δ ∈ c.past, δ.frame = .completing p .drain →
    c.past.flatMap (Moment.traces p) = [pr.endTime - pr.startTime]

/-- Whatever runs in between, what a completion does is seen in one order: one reading of the clock,
while the promise is pending; the opening of the latch; a call of each waker that was taken, with
the promise done and its listeners still there; one entry of the log, with the time from the start
to the end; and the listeners that were stored, when there are none left. A panic of the clock or of
a waker can end this at some place. If there is none, every call that has won goes through all of it
up to the listeners: it can go on, each step of its own takes it further, and it is not over before
it has taken the listeners. No call that loses does any of it. -/
theorem completes_in_order (hc : c.Reached b) (hp : c.machine.promise? p = some pr) :
    c.Sequenced b p pr := by
  refine ⟨hc.deeds_prefix hp, fun δ hδ hf => hc.deeds_of_drain hδ hf hp,
    fun ν hν o hf hwins hn hclock hwaker => ?_,
    fun i s hi htop hab => hc.completing_goes_on hi hp htop hab, fun μ hμ s hf => hc.nears hμ hf,
    fun μ hμ s hf hn ν hν hi => hc.deeds_of_lost hμ hf hn hν hi,
    fun i code hi => hc.pending_of_stamp hi hp, fun i code rest hi => hc.listed_of_waking hi hp,
    fun δ hδ hf => ?_, ?_, fun δ hδ hf => hc.traces_of_drain hδ hf hp⟩
  · obtain ⟨w, o', r, hw⟩ := hc.exists_won hν hf
    rcases hw.verdict ν hν _ hf with ⟨rfl, -⟩ | ⟨-, -, hlost⟩
    · exact hw.exists_drain hc hn hclock hwaker
    · exact absurd hlost hwins
  · obtain ⟨w, o, r, hw⟩ := hc.exists_won hδ hf
    obtain ⟨pr', hp', hd, -, hcount⟩ := hw.done (hc.isDrained hδ hf)
    obtain rfl := Option.some.inj (hp'.symm.trans hp)
    exact ⟨hd, hcount⟩
  · obtain ⟨reading, ws, ls, hpre⟩ := hc.deeds_prefix hp
    have hlen := (hpre.filterMap Deed.traced?).length_le
    rwa [Deed.traces_delivering, ← flatMap_traces] at hlen

/-- A thread makes a promise, leaves a listener with it and completes it. The clock leaves another
listener with it when it is read for that. A second thread polls a wait on it. The waker and the
first listener count the listeners. -/
def crowd : (r : Role) → Nat → Act Tabled r
  | .task, 0 => .call (.build {}) 1
  | .task, 1 => .call (.observe 0 7) 2
  | .task, 2 => .call (.complete 0 (.value .unit)) 3
  | .task, 10 => .call (.wait 0) 11
  | .task, 11 => .call (.poll 0 8) 12
  | .clock, 0 => .call (.observe 0 9) 1
  | .clock, 1 => .finish 5
  | .waker, 8 | .observer, 7 => .call (.count 0) 0
  | r, _ => Tabled.quiet r

/-- The poll comes after the first listener and before the completion. -/
def parade : Option (Chronicle Tabled) :=
  (Tabled.start [0, 10]).turns? (Tabled.lateClocks crowd)
    (List.replicate 6 (.step 0) ++ List.replicate 7 (.step 1) ++ List.replicate 33 (.step 0))

theorem completes_in_order_parade : ∃ c pr ν δ, parade = some c ∧
    c.Reached (Tabled.lateClocks crowd) ∧ c.machine.promise? 0 = some pr ∧ ν ∈ c.past ∧
    ν.frame = .completing 0 (.claim (.value .unit)) ∧ ν.next ≠ .lost ∧ c.frame? ν.call = none ∧
    (∀ κ ∈ c.past, ¬κ.ClockPanics 0) ∧ (∀ κ ∈ c.past, ¬κ.WakerPanics 0) ∧ δ ∈ c.past ∧
    δ.call = ν.call ∧ δ.frame = .completing 0 .drain ∧ (c.stored 0).length = 2 ∧
    (c.deeds (Tabled.lateClocks crowd) 0).length = 8 ∧
    c.past.flatMap (Moment.traces 0) = [4] ∧ c.Sequenced (Tabled.lateClocks crowd) 0 pr := by
  have hrun : (parade.any fun c =>
      (c.machine.promise? 0).isSome &&
      (c.past.any fun ν => ν.frame.claim? == some (0, .value .unit) && !ν.next.isLost &&
        (c.frame? ν.call).isNone) &&
      (c.past.all fun κ => κ.next.thrown?.isNone) &&
      (c.stored 0).length == 2 && (c.deeds (Tabled.lateClocks crowd) 0).length == 8 &&
      c.past.flatMap (Moment.traces 0) == [4]) = true := by
    decide +kernel
  obtain ⟨c, hc, hrun⟩ := (Option.any_eq_true _ _).1 hrun
  simp only [Bool.and_eq_true, List.any_eq_true, List.all_eq_true, beq_iff_eq,
    Option.isNone_iff_eq_none, Bool.not_eq_true'] at hrun
  obtain ⟨⟨⟨⟨⟨hpr, ν, hν, ⟨hf, hwins⟩, hover⟩, hthrow⟩, hstored⟩, hlen⟩, htraces⟩ := hrun
  obtain ⟨pr, hp⟩ := Option.isSome_iff_exists.1 hpr
  have hreach := Tabled.reached hc
  have hframe : ν.frame = .completing 0 (.claim (.value .unit)) := Frame.eq_claim hf
  have hwon : ν.next ≠ .lost := by
    intro hlost
    rw [hlost] at hwins
    cases hwins
  obtain ⟨hclock, hwaker⟩ := not_panics_of_thrown? hthrow 0
  have hseq := completes_in_order hreach hp
  obtain ⟨δ, hδ, hcall, hdrain⟩ := hseq.finished ν hν _ hframe hwon hover hclock hwaker
  exact ⟨c, pr, ν, δ, hc, hreach, hp, hν, hframe, hwon, hover, hclock, hwaker, hδ, hcall, hdrain,
    hstored, hlen, htraces, hseq⟩

end Chronicle

end OneShot
