import OneShot.Proofs.History.Lookup

/-!
# The stages of a completion call

How far a completion has come, told from the cells of the promise and from the stage of the call
that won it.

- **One step** (`Completing.Moves`): what each stage does to the cells and where it goes on. It is
  what every moment of a completion call does (`Moment.Made.completing`).
- **Progress** (`Progress`): claimed, stored, opened, taken, drained. `Promise.Shows` says how the
  cells look, and `Completing.At` at which stages the winner then is.
- **The winner's steps** (`Completing.At.moves`) lead from stage to stage and take the cells along.
  Nothing else moves the cells on (`Promise.Shows.change`).
-/

namespace OneShot

variable {H : Host} {b : Behaviour H}

/-- The answer of a completion call that has lost. -/
abbrev Next.lost : Next H := .answer (.settled (.ok false))

/-! ## One step -/

/-- What a step of a completion call on `p` does: its stage and what it has to deal with, how it
goes on, and the cells of `p` before (`pr`) and after. -/
inductive Completing.Moves (p : PromiseId) (pr : Promise H) :
    Completing H → Control → Next H → Promise H → Prop
  | win {o} (h : pr.status = .init) :
    Moves p pr (.claim o) .go (.goto (.completing p (.store o))) { pr with status := o.status }
  | lose {o} (h : pr.status ≠ .init) :
    Moves p pr (.claim o) .go .lost pr
  | store {o} (h : pr.outcome = none) :
    Moves p pr (.store o) .go (.goto (.completing p (.stamp (H.invoke .clock pr.clock ()))))
      { pr with outcome := some o }
  | twice {o} (h : pr.outcome ≠ none) : Moves p pr (.store o) .go (.throw outcomeWrittenTwice) pr
  | stampCall {code k c} {callee : Call H} :
    Moves p pr (.stamp code) c (.enter callee.frame (.completing p (.stamp k))) pr
  | stampStay {code k c} : Moves p pr (.stamp code) c (.goto (.completing p (.stamp k))) pr
  | stampDone {code c} (reading : UInt64) :
    Moves p pr (.stamp code) c (.goto (.completing p (.lockGate (pr.stamp reading)))) pr
  | stampPanic {code c x} : Moves p pr (.stamp code) c (.throw x) pr
  | lockGate {time} : Moves p pr (.lockGate time) .go (.goto (.completing p (.openLatch time))) pr
  | openLatch {time} :
    Moves p pr (.openLatch time) .go (.goto (.completing p .notify)) (pr.openLatch time)
  | notify : Moves p pr .notify .go (.goto (.completing p .lockWakers)) pr
  | lockWakers : Moves p pr .lockWakers .go (.goto (.completing p .takeWakers)) pr
  | takeWakers :
    Moves p pr .takeWakers .go (.goto (.completing p (.wake pr.wakers.data.takeAll.2)))
      { pr with wakers := { data := pr.wakers.data.takeAll.1 } }
  | woken : Moves p pr (.wake []) .go (.goto (.completing p .announce)) pr
  | wake {w rest} :
    Moves p pr (.wake (w :: rest)) .go
      (.goto (.completing p (.waking (H.invoke .waker w ()) rest))) pr
  | wakeCall {code k rest c} {callee : Call H} :
    Moves p pr (.waking code rest) c (.enter callee.frame (.completing p (.waking k rest))) pr
  | wakeStay {code k rest c} :
    Moves p pr (.waking code rest) c (.goto (.completing p (.waking k rest))) pr
  | wakeDone {code rest c} :
    Moves p pr (.waking code rest) c (.goto (.completing p (.wake rest))) pr
  | wakePanic {code rest c x} : Moves p pr (.waking code rest) c (.throw x) pr
  | announce : Moves p pr .announce .go (.goto (.completing p .lockListeners)) pr
  | lockListeners : Moves p pr .lockListeners .go (.goto (.completing p .drain)) pr
  | drain :
    Moves p pr .drain .go (.goto (.completing p (.deliver pr.listeners.data.toList)))
      { pr with listeners := { data := pr.listeners.data.drain.1 } }
  | finish : Moves p pr (.deliver []) .go (.answer (.settled (.ok true))) pr
  | deliver {l rest} :
    Moves p pr (.deliver (l :: rest)) .go
      (.enter (.notifying p (l.begin p)) (.completing p (.delivering rest))) pr
  | delivered {rest} :
    Moves p pr (.delivering rest) (.ret (.notified (.ok ())))
      (.goto (.completing p (.deliver rest)))
      pr
  | propagate {rest e} :
    Moves p pr (.delivering rest) (.ret (.notified (.error e))) (.answer (.settled (.error e))) pr
  | pass {rest x} : Moves p pr (.delivering rest) (.raise x) (.throw x) pr

namespace Machine

variable {m m' : Machine H}

theorem cells?_eq_some {p : PromiseId} {pr : Promise H} (h : m.promise? p = some pr) :
    m.cells? p = some pr.bare := by simp [cells?, h]

theorem cells?_modifyPromise {p : PromiseId} {pr : Promise H} {g : Promise H → Promise H}
    (h : m.promise? p = some pr) : (m.modifyPromise p g).cells? p = some (g pr).bare := by
  simp [cells?, h]

theorem Alike.cells? (h : m.Alike m') (p : PromiseId) : m'.cells? p = m.cells? p := by
  rw [Machine.cells?, Machine.cells?, h.promise?]

end Machine

section

variable {m m' : Machine H} {t : ThreadId} {p : PromiseId} {c : Control} {n : Next H}

open Machine

theorem Machine.eq_of_runStage_promise {g : Promise H → Move H} {pr : Promise H}
    (h : m.runStage c (m.promise? p >>= g) = some (m', n)) (hp : m.promise? p = some pr)
    (hk : c = .go) : g pr = some (m', n) := by
  have h := eq_of_runStage h hk
  rwa [hp] at h

/-- Every step of a completion call is such a move. -/
theorem Completing.moves_of_step {s : Completing H} {pr : Promise H}
    (h : s.step b m t p c = some (m', n)) (hp : m.promise? p = some pr)
    (hk : c = .go ∨ (Frame.completing p s).awaits = true) :
    ∃ pr', m'.cells? p = some pr' ∧ s.Moves p pr.bare c n pr' := by
  have hsame : ∀ m₁ : Machine H, m.Alike m₁ → m₁.cells? p = some pr.bare := by
    intro m₁ ha
    rw [ha.cells?, cells?_eq_some hp]
  -- A stage that awaits no call is stepped only when its call goes on.
  have hgo : (Frame.completing p s).awaits = false → c = .go := fun hf =>
    hk.resolve_right (by rw [hf]; exact Bool.false_ne_true)
  cases s with
  | claim o =>
    replace h := eq_of_runStage_promise h hp (hgo rfl)
    obtain rfl := hgo rfl
    unfold Promise.claim at h
    by_cases hs : pr.status = .init
    · simp only [if_pos hs] at h
      cases h
      exact ⟨_, cells?_modifyPromise hp, .win hs⟩
    · simp only [if_neg hs] at h
      cases h
      exact ⟨_, cells?_eq_some hp, .lose hs⟩
  | store o =>
    replace h := eq_of_runStage_promise h hp (hgo rfl)
    obtain rfl := hgo rfl
    split at h <;> rename_i ho <;> cases h
    · exact ⟨_, cells?_eq_some hp, .twice (Option.isSome_iff_ne_none.1 ho)⟩
    · exact ⟨_, cells?_modifyPromise hp, .store (show pr.outcome = none by simpa using ho)⟩
  | stamp code =>
    cases ran_of_runCode h with
    | call hr => exact ⟨_, hsame _ (alike_resume hr), .stampCall⟩
    | stay hr => exact ⟨_, hsame _ (alike_resume hr), .stampStay⟩
    | panic hr => exact ⟨_, hsame _ (alike_resume hr), .stampPanic⟩
    | @finish m₁ reading _ _ hr hd =>
      obtain ⟨pr', hp', hd⟩ := Option.bind_eq_some_iff.1 hd
      cases hd
      have hc := hsame _ (alike_resume hr)
      rw [cells?_eq_some hp'] at hc
      refine ⟨_, cells?_eq_some hp', ?_⟩
      rw [Option.some.inj hc, show pr'.stamp reading = pr'.bare.stamp reading from rfl,
        Option.some.inj hc]
      exact .stampDone reading
  | lockGate time =>
    replace h := eq_of_runStage_promise h hp (hgo rfl)
    obtain rfl := hgo rfl
    obtain ⟨gate, -, h⟩ := Option.bind_eq_some_iff.1 h
    cases h
    exact ⟨_, cells?_modifyPromise hp, .lockGate⟩
  | openLatch time =>
    replace h := eq_of_runStage h (hgo rfl)
    obtain rfl := hgo rfl
    cases h
    exact ⟨_, cells?_modifyPromise hp, .openLatch⟩
  | notify =>
    replace h := eq_of_runStage h (hgo rfl)
    obtain rfl := hgo rfl
    cases h
    exact ⟨_, cells?_modifyPromise (m := m.rouse p) hp, .notify⟩
  | lockWakers =>
    replace h := eq_of_runStage_promise h hp (hgo rfl)
    obtain rfl := hgo rfl
    obtain ⟨wakers, hw, h⟩ := Option.bind_eq_some_iff.1 h
    obtain ⟨-, rfl⟩ := Mutex.acquire?_eq_some_iff.1 hw
    cases h
    exact ⟨_, cells?_modifyPromise hp, .lockWakers⟩
  | takeWakers =>
    replace h := eq_of_runStage_promise h hp (hgo rfl)
    obtain rfl := hgo rfl
    cases h
    exact ⟨_, cells?_modifyPromise hp, .takeWakers⟩
  | wake rest =>
    cases rest with
    | nil =>
      replace h := eq_of_runStage h (hgo rfl)
      obtain rfl := hgo rfl
      cases h
      exact ⟨_, cells?_eq_some hp, .woken⟩
    | cons w rest =>
      replace h := eq_of_runStage h (hgo rfl)
      obtain rfl := hgo rfl
      cases h
      exact ⟨_, cells?_eq_some hp, .wake⟩
  | waking code rest =>
    cases ran_of_runCode h with
    | call hr => exact ⟨_, hsame _ (alike_resume hr), .wakeCall⟩
    | stay hr => exact ⟨_, hsame _ (alike_resume hr), .wakeStay⟩
    | panic hr => exact ⟨_, hsame _ (alike_resume hr), .wakePanic⟩
    | finish hr hd => cases hd; exact ⟨_, hsame _ (alike_resume hr), .wakeDone⟩
  | announce =>
    replace h := eq_of_runStage_promise h hp (hgo rfl)
    obtain rfl := hgo rfl
    cases h
    exact ⟨_, cells?_eq_some hp, .announce⟩
  | lockListeners =>
    replace h := eq_of_runStage_promise h hp (hgo rfl)
    obtain rfl := hgo rfl
    obtain ⟨listeners, hl, h⟩ := Option.bind_eq_some_iff.1 h
    obtain ⟨-, rfl⟩ := Mutex.acquire?_eq_some_iff.1 hl
    cases h
    exact ⟨_, cells?_modifyPromise hp, .lockListeners⟩
  | drain =>
    replace h := eq_of_runStage_promise h hp (hgo rfl)
    obtain rfl := hgo rfl
    cases h
    exact ⟨_, cells?_modifyPromise hp, .drain⟩
  | deliver rest =>
    cases rest with
    | nil =>
      replace h := eq_of_runStage h (hgo rfl)
      obtain rfl := hgo rfl
      cases h
      exact ⟨_, cells?_eq_some hp, .finish⟩
    | cons l rest =>
      replace h := eq_of_runStage h (hgo rfl)
      obtain rfl := hgo rfl
      cases h
      exact ⟨_, cells?_eq_some hp, .deliver⟩
  | delivering rest =>
    simp only [step] at h
    split at h <;> cases h
    · exact ⟨_, cells?_eq_some hp, .delivered⟩
    · exact ⟨_, cells?_eq_some hp, .propagate⟩
    · exact ⟨_, cells?_eq_some hp, .pass⟩

theorem Completing.exists_promise?_of_claim {o : Outcome}
    (h : (Frame.completing p (.claim o)).step b m t c = some (m', n)) (hk : c = .go) :
    ∃ pr, m.promise? p = some pr := by
  obtain ⟨pr, hp, -⟩ := Option.bind_eq_some_iff.1 (eq_of_runStage h hk)
  exact ⟨pr, hp⟩

end

/-- What happens at a moment of a completion call. -/
theorem Chronicle.Extends.completing {c : Chronicle H} {μ : Moment H} {p : PromiseId}
    {s : Completing H} {pr : Promise H} (hc : c.Tracked) (h : c.Extends b μ)
    (hf : μ.frame = .completing p s) (hp : c.machine.cells? p = some pr) :
    ∃ pr', μ.after.cells? p = some pr' ∧ s.Moves p pr μ.control μ.next pr' := by
  obtain ⟨pr₀, hp₀, rfl⟩ := Option.map_eq_some_iff.1 hp
  have hk := h.control hc
  cases h.made with
  | step hn ht hs ha =>
    rw [hf] at hs hk
    rw [h.before] at hs
    obtain ⟨pr', hp', hm⟩ := Completing.moves_of_step hs hp₀ hk
    exact ⟨pr', by rw [ha, Machine.cells?_proceed]; exact hp', hm⟩
  | wake ht hf' hn ha => rw [hf] at hf'; cases hf'

/-- A promise that is claimed exists. -/
theorem Chronicle.Extends.exists_cells? {c : Chronicle H} {μ : Moment H} {p : PromiseId}
    {o : Outcome} (hc : c.Tracked) (h : c.Extends b μ) (hf : μ.frame = .completing p (.claim o)) :
    ∃ pr, c.machine.cells? p = some pr := by
  have hk := h.control hc
  cases h.made with
  | step hn ht hs ha =>
    rw [hf] at hs hk
    rw [h.before] at hs
    obtain ⟨pr, hp⟩ :=
      Completing.exists_promise?_of_claim hs (hk.resolve_right Bool.false_ne_true)
    exact ⟨_, Machine.cells?_eq_some hp⟩
  | wake ht hf' hn ha => rw [hf] at hf'; cases hf'

/-- Where a completion call that is found after a moment comes from. -/
theorem Chronicle.completing_record {c : Chronicle H} {μ : Moment H} {i : CallId} {p : PromiseId}
    {s : Completing H} (hc : c.Tracked) (h : c.Extends b μ)
    (hf : (c.record μ).frame? i = some (.completing p s)) :
    (∃ s', i = μ.call ∧ μ.frame = .completing p s' ∧
        μ.next.own μ.frame = some (.completing p s)) ∨
      (∃ o, i = μ.entered ∧ s = .claim o) ∨ i ≠ μ.call ∧ c.frame? i = some (.completing p s) := by
  rcases steady_record hc h hf rfl with ⟨hi, hown⟩ | ⟨hi, hcal⟩ | ⟨hi, -, hold⟩
  · rcases h.made.leads.sameCall hown with hs | hs
    · exact .inl ⟨s, hi, hs, hown⟩
    · obtain ⟨s', hs'⟩ := hs.of_completing
      exact .inl ⟨s', hi, hs', hown⟩
  · obtain ⟨o, ho⟩ := (h.made.leads.enters hcal).of_completing
    exact .inr (.inl ⟨o, hi, ho⟩)
  · exact .inr (.inr ⟨hi, hold⟩)

/-! ## Progress -/

/-- How far a completion has come. -/
inductive Progress where
  /-- The status is claimed. -/
  | claimed
  /-- The outcome is stored. -/
  | stored
  /-- The latch is open. -/
  | opened
  /-- The wakers are taken. -/
  | taken
  /-- The listeners are drained. -/
  | drained
  deriving DecidableEq

namespace Progress

/-- The place of a stage of progress among all. -/
def rank : Progress → Nat
  | claimed => 0
  | stored => 1
  | opened => 2
  | taken => 3
  | drained => 4

/-- Whether the latch is open. -/
def isOpen : Progress → Bool
  | claimed | stored => false
  | _ => true

/-- Whether the wakers are taken. -/
def isTaken : Progress → Bool
  | taken | drained => true
  | _ => false

/-- Whether the listeners are drained. -/
def isDrained : Progress → Bool
  | drained => true
  | _ => false

end Progress

/-- How the cells of a promise look that is being completed with `o`. -/
structure Promise.Shows (pr : Promise H) (o : Outcome) (r : Progress) : Prop where
  status : pr.status = o.status
  outcome : pr.outcome = if r = .claimed then none else some o
  isDone : pr.isDone = r.isOpen
  taken : pr.wakers.data.taken = r.isTaken
  drained : pr.listeners.data.isDrained = r.isDrained

/-- How the cells of a promise look that nobody has claimed. -/
structure Promise.Pending (pr : Promise H) : Prop where
  status : pr.status = .init
  outcome : pr.outcome = none
  isDone : pr.isDone = false
  taken : pr.wakers.data.taken = false
  drained : pr.listeners.data.isDrained = false

/-- The stages at which the winner of a completion with `o` can be. -/
inductive Completing.At (o : Outcome) : Progress → Completing H → Prop
  | store : At o .claimed (.store o)
  | stamp {code} : At o .stored (.stamp code)
  | lockGate {time} (h : time ≠ 0) : At o .stored (.lockGate time)
  | openLatch {time} (h : time ≠ 0) : At o .stored (.openLatch time)
  | notify : At o .opened .notify
  | lockWakers : At o .opened .lockWakers
  | takeWakers : At o .opened .takeWakers
  | wake {rest} : At o .taken (.wake rest)
  | waking {code rest} : At o .taken (.waking code rest)
  | announce : At o .taken .announce
  | lockListeners : At o .taken .lockListeners
  | drain : At o .taken .drain
  | deliver {rest} : At o .drained (.deliver rest)
  | delivering {rest} : At o .drained (.delivering rest)

namespace WakerSet

variable {ω : Type}

@[simp] theorem taken_register (s : WakerSet ω) (same : ω → ω → Bool) (key : Option Nat) (w : ω)
    (done : Bool) : (s.register same key w done).1.taken = s.taken := by
  unfold register
  split
  · rfl
  · cases key <;> rfl

end WakerSet

section

variable {m : Machine H} {p : PromiseId} {f : Frame H} {n : Next H} {pr pr' : Promise H}
  {o : Outcome} {r : Progress}

theorem Promise.Change.exists_after {x : Option (Promise H)}
    (h : Promise.Change m p f n (some pr) x) : ∃ pr', x = some pr' := by
  cases h <;> exact ⟨_, rfl⟩

theorem Promise.pending_of_make (h : Promise.Change m p f n none (some pr)) : pr.Pending := by
  cases h
  exact ⟨rfl, rfl, rfl, rfl, rfl⟩

/-- Only a claim moves the cells of a pending promise on. -/
theorem Promise.Pending.change (hp : pr.Pending) (h : Promise.Change m p f n (some pr) (some pr'))
    (hf : ∀ s, f ≠ .completing p s) : pr'.Pending := by
  cases h with
  | same => exact hp
  | claim | store | openLatch | takeWakers | drain => exact absurd rfl (hf _)
  | enroll => exact ⟨hp.status, hp.outcome, hp.isDone, hp.taken, by simpa using hp.drained⟩
  | register => exact ⟨hp.status, hp.outcome, hp.isDone, by simpa using hp.taken, hp.drained⟩
  | remove => exact ⟨hp.status, hp.outcome, hp.isDone, hp.taken, hp.drained⟩

/-- Only the winner moves the cells of a claimed promise on. -/
theorem Promise.Shows.change (hp : pr.Shows o r)
    (h : Promise.Change m p f n (some pr) (some pr'))
    (hf : ∀ s, f = .completing p s → ∃ o', s = .claim o') : pr'.Shows o r := by
  cases h with
  | same => exact hp
  | claim hs => exact absurd (hp.status.symm.trans hs) o.status_ne_init
  | store | openLatch | takeWakers | drain => obtain ⟨_, h⟩ := hf _ rfl; cases h
  | enroll => exact ⟨hp.status, hp.outcome, hp.isDone, hp.taken, by simpa using hp.drained⟩
  | register => exact ⟨hp.status, hp.outcome, hp.isDone, by simpa using hp.taken, hp.drained⟩
  | remove => exact ⟨hp.status, hp.outcome, hp.isDone, hp.taken, hp.drained⟩

theorem Completing.Moves.win_of_pending {c : Control} {s : Completing H} (hp : pr.Pending)
    (h : s.Moves p pr c n pr') (hs : s = .claim o) :
    n = .goto (.completing p (.store o)) ∧ pr'.Shows o .claimed := by
  subst hs
  cases h with
  | win => exact ⟨rfl, rfl, hp.outcome, hp.isDone, hp.taken, hp.drained⟩
  | lose hs => exact absurd hp.status hs

theorem Completing.Moves.lose_of_shows {c : Control} {s : Completing H} (hp : pr.Shows o r)
    {o' : Outcome} (h : s.Moves p pr c n pr') (hs : s = .claim o') :
    n = .lost ∧ pr' = pr := by
  subst hs
  cases h with
  | win hs => exact absurd (hp.status.symm.trans hs) o.status_ne_init
  | lose => exact ⟨rfl, rfl⟩

theorem Completing.Moves.claim_of_lost {c : Control} {s : Completing H}
    (h : s.Moves p pr c n pr') (hn : n = .lost) : ∃ o, s = .claim o := by
  subst hn
  cases h
  exact ⟨_, rfl⟩

theorem Completing.Moves.outcome_of_throw {c : Control} {s : Completing H}
    (h : s.Moves p pr c n pr') (hs : s = .store o) {x : String} (hn : n = .throw x) :
    pr.outcome ≠ none := by
  subst hs hn
  cases h with
  | twice hp => exact hp

/-- The cells after a step that leads to a stage of the winner. -/
theorem Completing.At.after {s' : Completing H} {r' : Progress} (hs : s'.At o r')
    (hp : pr'.Shows o r') (hn : n.own f = some (.completing p s')) (hr : r.rank ≤ r'.rank)
    (hc : r' ≠ .claimed) :
    ∃ r', r.rank ≤ r'.rank ∧ r' ≠ .claimed ∧ pr'.Shows o r' ∧
      ∀ g, n.own f = some g → ∃ s', g = .completing p s' ∧ s'.At o r' :=
  ⟨r', hr, hc, hp, fun g hg => ⟨s', by rw [hn] at hg; exact (Option.some.inj hg).symm, hs⟩⟩

/-- The winner goes from stage to stage, and the cells go along. -/
theorem Completing.At.moves {c : Control} {s : Completing H} (hs : s.At o r) (hp : pr.Shows o r)
    (h : s.Moves p pr c n pr') :
    ∃ r', r.rank ≤ r'.rank ∧ r' ≠ .claimed ∧ pr'.Shows o r' ∧
      ∀ g, n.own (.completing p s) = some g → ∃ s', g = .completing p s' ∧ s'.At o r' := by
  -- The latch, the sets of wakers and listeners and the outcome each change at one stage.
  have ⟨hst, hout, hdone, htaken, hdrained⟩ := hp
  cases h with
  | win | lose => cases hs
  | store =>
    cases hs
    exact after .stamp ⟨hst, rfl, hdone, htaken, hdrained⟩ rfl (by decide) (by decide)
  | twice hn => cases hs; exact absurd hout hn
  | stampCall | stampStay => cases hs; exact after .stamp hp rfl (by decide) (by decide)
  | stampDone reading =>
    cases hs
    exact after (.lockGate (pr.stamp_ne_zero reading)) hp rfl (by decide) (by decide)
  | lockGate =>
    cases hs with | lockGate h0 => exact after (.openLatch h0) hp rfl (by decide) (by decide)
  | @openLatch time =>
    cases hs with
    | openLatch h0 =>
      have hopen : (pr.openLatch time).isDone = true := by
        simpa [Promise.isDone, Latch.isOpen, Promise.openLatch] using h0
      exact after .notify ⟨hst, hout, hopen, htaken, hdrained⟩ rfl (by decide) (by decide)
  | notify => cases hs; exact after .lockWakers hp rfl (by decide) (by decide)
  | lockWakers => cases hs; exact after .takeWakers hp rfl (by decide) (by decide)
  | takeWakers =>
    cases hs
    exact after .wake ⟨hst, hout, hdone, rfl, hdrained⟩ rfl (by decide) (by decide)
  | woken => cases hs; exact after .announce hp rfl (by decide) (by decide)
  | wake | wakeCall | wakeStay => cases hs; exact after .waking hp rfl (by decide) (by decide)
  | wakeDone => cases hs; exact after .wake hp rfl (by decide) (by decide)
  | announce => cases hs; exact after .lockListeners hp rfl (by decide) (by decide)
  | lockListeners => cases hs; exact after .drain hp rfl (by decide) (by decide)
  | drain =>
    cases hs
    exact after .deliver ⟨hst, hout, hdone, htaken, rfl⟩ rfl (by decide) (by decide)
  | deliver => cases hs; exact after .delivering hp rfl (by decide) (by decide)
  | delivered => cases hs; exact after .deliver hp rfl (by decide) (by decide)
  | stampPanic | wakePanic | finish | propagate | pass =>
    cases hs
    exact ⟨_, Nat.le_refl _, by decide, hp, fun g hg => by cases hg⟩

end

end OneShot
