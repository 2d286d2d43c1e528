import OneShot.Proofs.Guard.Holders
import OneShot.Proofs.Reading.Sleep

/-!
# Nobody waits for a guard for ever

A call waits for a guard only at the stage at which it takes it (`Frame.wants?`), and only while
another thread holds it. Whoever holds a guard can go on, and gives it back by its third step at the
latest, whatever the other threads do. So calls do not wait for each other in a circle, and a call
that is made from inside another one never waits for what its own thread holds.

- **Taking** (`Frame.isSome_step_of_wants?`): a call can take a guard if and only if it is free.
- **Holding** (`Frame.isSome_step_of_guard?`, `Frame.span`): a call can go on while it holds a
  guard, and each of its steps brings it closer to giving the guard back.
- **Runs** (`Holds.reaches`, `Chronicle.Brief`): the same for every continuation of a run.
- **All guards** (`Chronicle.Orderly`, `guards_never_block`).
-/

namespace OneShot

variable {H : Host} {b : Behaviour H}

/-! ## Taking and holding -/

/-- The guard that a call on thread `t` is about to take. -/
def Frame.wants? (m : Machine H) (t : ThreadId) : Frame H → Option Guard
  | completing p (.lockGate _) | reading p _ (.lockGate _) => some (.part p .gate)
  | interrupting _ (.next (p :: _)) => some (.part p .gate)
  | completing p .lockWakers | removing p _ .lock => some (.part p .wakers)
  | polling w _ .lock => (m.wait? w).map fun wait => .part wait.promise .wakers
  | completing p .lockListeners | registering p (.lock _) _ | counting p .lock =>
    some (.part p .listeners)
  | reading _ _ .lockParked | reading _ _ (.relockParked _) => some (.parked t)
  | interrupting u .lock => some (.parked u)
  | _ => none

/-- Whether the promise or the thread of a guard exists. -/
def Machine.HasGuard (m : Machine H) : Guard → Prop
  | .part p _ => ∃ pr, m.promise? p = some pr
  | .parked u => ∃ th, m.thread? u = some th

/-- After how many steps at the latest a call gives back the guard that it holds. -/
def Frame.span : Frame H → Nat
  | reading _ _ (.check _) => 3
  | reading _ _ .checkFlag | completing _ (.openLatch _) => 2
  | _ => 1

/-- The promise of a read exists. -/
def Frame.Grounded (m : Machine H) : Frame H → Prop
  | reading p _ _ => ∃ pr, m.promise? p = some pr
  | _ => True

theorem Mutex.isSome_bind_acquire? {α β : Type} (g : Mutex α) (t : ThreadId)
    (k : Mutex α → β) :
    ((g.acquire? t).bind fun g' => some (k g')).isSome = g.owner.isNone := by
  unfold acquire?
  cases g.owner <;> rfl

theorem Machine.hasGuard_of_owner? {m : Machine H} {x : Guard} {t : ThreadId}
    (h : m.owner? x = some t) : m.HasGuard x := by
  cases x with
  | part p k =>
    obtain ⟨pr, hp, -⟩ := Option.bind_eq_some_iff.1 h
    exact ⟨pr, hp⟩
  | parked u =>
    obtain ⟨th, hu, -⟩ := Option.bind_eq_some_iff.1 h
    exact ⟨th, hu⟩

namespace Frame

variable {m m' : Machine H} {t : ThreadId} {f g : Frame H} {x y : Guard} {n : Next H}

theorem awaits_of_wants? (h : f.wants? m t = some x) : f.awaits = false := by
  cases f with
  | completing p s | registering p s closing | reading p limited s | polling w waker s
  | counting p s | removing p key s | interrupting u s =>
    cases s <;> first | rfl | cases h
  | _ => cases h

theorem guard?_of_wants? (h : f.wants? m t = some x) : f.guard? m t = none := by
  cases f with
  | completing p s | registering p s closing | reading p limited s | polling w waker s
  | counting p s | removing p key s | interrupting u s =>
    cases s <;> first | rfl | cases h
  | _ => rfl

/-- A call can take a guard if and only if it is free. -/
theorem isSome_step_of_wants? (hx : f.wants? m t = some x) (hm : m.HasGuard x)
    (hf : f.Grounded m) (ht : m.HasGuard (.parked t)) :
    (f.step b m t .go).isSome = (m.owner? x).isNone := by
  obtain ⟨th, ht⟩ := ht
  -- Each stage that wants a guard is one attempt to acquire its lock.
  cases f with
  | completing p s =>
    cases s <;> cases hx
    all_goals
      obtain ⟨pr, hp⟩ := hm
      simp only [step, Completing.step, Machine.runStage, Machine.owner?, hp,
        Option.bind_eq_bind, Option.bind_some]
      exact Mutex.isSome_bind_acquire? ..
  | registering p s closing =>
    cases s <;> cases hx
    obtain ⟨pr, hp⟩ := hm
    simp only [step, Registering.step, Machine.runStage, Machine.owner?, hp,
      Option.bind_eq_bind, Option.bind_some]
    exact Mutex.isSome_bind_acquire? ..
  | counting p s =>
    cases s <;> cases hx
    obtain ⟨pr, hp⟩ := hm
    simp only [step, Machine.stepCounting, Machine.runStage, Machine.owner?, hp,
      Option.bind_eq_bind, Option.bind_some]
    exact Mutex.isSome_bind_acquire? ..
  | removing p key s =>
    cases s <;> cases hx
    obtain ⟨pr, hp⟩ := hm
    simp only [step, Machine.stepRemoving, Machine.runStage, Machine.owner?, hp,
      Option.bind_eq_bind, Option.bind_some]
    exact Mutex.isSome_bind_acquire? ..
  | polling w waker s =>
    cases s with
    | lock =>
      obtain ⟨wait, hw, rfl⟩ := Option.map_eq_some_iff.1 hx
      obtain ⟨pr, hp⟩ := hm
      simp only [step, Polling.step, Machine.runStage, Machine.owner?, hw, hp,
        Option.bind_eq_bind, Option.bind_some]
      exact Mutex.isSome_bind_acquire? ..
    | _ => cases hx
  | reading p limited s =>
    obtain ⟨pr, hp⟩ := hf
    cases s <;> cases hx
    all_goals
      simp only [step, Reading.step, Machine.runStage, Machine.owner?, hp, ht,
        Option.bind_eq_bind, Option.bind_some]
      exact Mutex.isSome_bind_acquire? ..
  | interrupting u s =>
    cases s with
    | lock =>
      cases hx
      obtain ⟨th', hu⟩ := hm
      simp only [step, Interrupting.step, Machine.runStage, Machine.owner?, hu,
        Option.bind_eq_bind, Option.bind_some]
      exact Mutex.isSome_bind_acquire? ..
    | next latches =>
      cases latches <;> cases hx
      obtain ⟨pr, hp⟩ := hm
      simp only [step, Interrupting.step, Machine.runStage, Machine.owner?, hp,
        Option.bind_eq_bind, Option.bind_some]
      exact Mutex.isSome_bind_acquire? ..
    | _ => cases hx
  | _ => cases hx

/-- A call that holds a guard can go on. -/
theorem isSome_step_of_guard? (hx : f.guard? m t = some x) (hm : m.HasGuard x)
    (hf : f.Grounded m) (ht : m.HasGuard (.parked t)) : (f.step b m t .go).isSome = true := by
  obtain ⟨th, ht⟩ := ht
  cases f with
  | completing p s =>
    cases s <;> cases hx
    all_goals
      obtain ⟨pr, hp⟩ := hm
      simp only [step, Completing.step, Machine.runStage, hp, Option.bind_eq_bind,
        Option.bind_some, Option.isSome_some]
  | registering p s closing =>
    cases s <;> cases hx
    obtain ⟨pr, hp⟩ := hm
    simp only [step, Registering.step, Machine.runStage, hp, Option.bind_eq_bind,
      Option.bind_some]
    split <;> rfl
  | counting p s =>
    cases s <;> cases hx
    obtain ⟨pr, hp⟩ := hm
    simp only [step, Machine.stepCounting, Machine.runStage, hp, Option.bind_eq_bind,
      Option.bind_some, Option.isSome_some]
  | removing p key s =>
    cases s <;> cases hx
    obtain ⟨pr, hp⟩ := hm
    simp only [step, Machine.stepRemoving, Machine.runStage, hp, Option.bind_eq_bind,
      Option.bind_some, Option.isSome_some]
  | polling w waker s =>
    cases s with
    | register =>
      obtain ⟨wait, hw, rfl⟩ := Option.map_eq_some_iff.1 hx
      obtain ⟨pr, hp⟩ := hm
      simp only [step, Polling.step, Machine.runStage, hw, hp, Option.bind_eq_bind,
        Option.bind_some]
      split <;> rfl
    | _ => cases hx
  | reading p limited s =>
    obtain ⟨pr, hp⟩ := hf
    -- No stage of a read under its guard depends on more than its promise and its token.
    have hgo : ∀ k : Promise H → Thread H → Machine H × Next H,
        (m.runStage .go do
          let pr ← m.promise? p
          let th ← m.thread? t
          some (k pr th)).isSome = true := by
      intro k
      simp only [Machine.runStage, hp, ht, Option.bind_eq_bind, Option.bind_some,
        Option.isSome_some]
    cases s with
    | unpark r => cases r <;> exact hgo _
    | park | check late | checkFlag | sleep | unlockGate r => exact hgo _
    | _ => cases hx
  | interrupting u s =>
    cases s with
    | copy =>
      cases hx
      obtain ⟨th', hu⟩ := hm
      simp only [step, Interrupting.step, Machine.runStage, hu, Option.bind_eq_bind,
        Option.bind_some, Option.isSome_some]
    | notify p rest => rfl
    | _ => cases hx
  | _ => cases hx

/-- A step that leaves a call with a guard brings the call closer to giving it back. -/
theorem span_of_step (h : f.step b m t .go = some (m', n)) (hx : f.guard? m t = some x)
    (hg : n.own f = some g) (hy : g.guard? m t = some y) : g.span < f.span := by
  -- Only reads and openings keep a guard for more than one step.
  cases f with
  | completing p s =>
    cases s with
    | openLatch time =>
      cases h
      cases hg
      exact Nat.lt_succ_self 1
    | notify =>
      cases h
      cases hg
      cases hy
    | takeWakers | drain =>
      obtain ⟨pr, -, h⟩ := Option.bind_eq_some_iff.1 h
      cases h
      cases hg
      cases hy
    | _ => cases hx
  | registering p s closing =>
    cases s <;> cases hx
    obtain ⟨pr, -, h⟩ := Option.bind_eq_some_iff.1 h
    dsimp only at h
    split at h <;> cases h <;> cases hg
    cases hy
  | counting p s | removing p key s =>
    cases s <;> cases hx
    obtain ⟨pr, -, h⟩ := Option.bind_eq_some_iff.1 h
    cases h
    cases hg
  | polling w waker s =>
    cases s with
    | register =>
      obtain ⟨wait, -, h⟩ := Option.bind_eq_some_iff.1 h
      obtain ⟨pr, -, h⟩ := Option.bind_eq_some_iff.1 h
      dsimp only at h
      split at h <;> cases h <;> cases hg
      cases hy
    | _ => cases hx
  | reading p limited s =>
    replace h : s.step m t p limited .go = some (m', n) := h
    cases Reading.moves_of_step h rfl with
    | opened | expired | flagged | closed | clear => cases hg; simp [span]
    | park | sleep | unlockGate | acquire => cases hg; cases hy
    | timeout | interrupt => cases hg
    | «open» hs => rcases hs with rfl | rfl <;> cases hx
    | _ => cases hx
  | interrupting u s =>
    replace h : s.step m t u .go = some (m', n) := h
    cases Interrupting.moves_of_step h rfl with
    | copy | notify => cases hg; cases hy
    | _ => cases hx
  | _ => cases hx

theorem span_pos (f : Frame H) : 0 < f.span := by
  unfold span
  split <;> decide

theorem span_le (f : Frame H) : f.span ≤ 3 := by
  unfold span
  split <;> decide

end Frame

namespace Chronicle

variable {c c' : Chronicle H} {μ : Moment H} {i : CallId} {f : Frame H} {x : Guard}
  {p : PromiseId}

/-! ## What is there -/

theorem Extends.exists_promise? (h : c.Extends b μ) {pr : Promise H}
    (hp : c.machine.promise? p = some pr) : ∃ pr', μ.after.promise? p = some pr' := by
  have hch := h.made.effect.promise p
  rw [h.before, Machine.cells?, hp, Option.map_some] at hch
  obtain ⟨pr', hp'⟩ := hch.exists_after
  obtain ⟨pr₁, hp₁, -⟩ := Option.map_eq_some_iff.1 hp'
  exact ⟨pr₁, hp₁⟩

/-- A read that has got as far as to a guard has found its promise. -/
theorem Reached.exists_promise_of_reading (hc : c.Reached b) {limited : Bool} {s : Reading}
    (hi : c.frame? i = some (.reading p limited s)) (hs : s ≠ .peek) (hs' : s ≠ .attempt) :
    ∃ pr, c.machine.promise? p = some pr := by
  induction c, hc using Reached.induction generalizing s with
  | start m hm =>
    obtain ⟨work, hwork⟩ := frame?_start hm hi
    cases hwork
  | record c μ hc hμ hc' ih =>
    have ht := hc.tracked
    have hkept : (∃ pr, c.machine.promise? p = some pr) →
        ∃ pr, (c.record μ).machine.promise? p = some pr := by
      rintro ⟨pr, hp⟩
      exact hμ.exists_promise? hp
    rcases reading_record ht hμ hi with
      ⟨s₀, rfl, hf, hown⟩ | ⟨-, rfl | rfl⟩ | ⟨-, hold | ⟨hold, rfl⟩⟩
    · refine hkept ?_
      have hread := (hμ.sound ht).control
      cases hμ.made with
      | step _ _ hstep _ =>
        rw [hf] at hstep hread
        rw [hμ.before, hread.resolve_right Bool.false_ne_true] at hstep
        -- Every step of a read looks its promise up first.
        obtain ⟨pr, hp, -⟩ := Option.bind_eq_some_iff.1 hstep
        exact ⟨pr, hp⟩
      | wake _ hf' =>
        rw [hf] at hf'
        cases hf'
        have hi : c.frame? μ.call = some (.reading p limited .asleep) := by rw [hμ.frame? ht, hf]
        exact ih hi nofun nofun
    · exact absurd rfl hs
    · exact absurd rfl hs'
    · exact hkept (ih hold hs hs')
    · exact hkept (ih hold nofun nofun)

theorem Reached.top_of_not_awaits (hc : c.Reached b) (hi : c.frame? i = some f)
    (hf : f.awaits = false) (hab : c.machine.aborted = false) :
    ∃ rest token, c.machine.thread? i.thread = some ⟨.go, f :: rest, token⟩ := by
  obtain ⟨k, rest, token, ht, hk, -⟩ := hc.top hi (hc.tracked.top_of_not_awaits hi hf) hab
  rw [hk.resolve_right (by rw [hf]; exact Bool.false_ne_true)] at ht
  exact ⟨rest, token, ht⟩

theorem Reached.grounded (hc : c.Reached b) (hi : c.frame? i = some f)
    (hf : f.wants? c.machine i.thread = some x ∨ f.guard? c.machine i.thread = some x) :
    f.Grounded c.machine := by
  cases f with
  | reading p limited s =>
    refine hc.exists_promise_of_reading hi ?_ ?_ <;> rintro rfl <;> rcases hf with hf | hf <;>
      cases hf
  | _ => trivial

/-! ## Going on -/

/-- A call that takes a guard can go on if and only if the guard is free. -/
theorem Reached.step_iff_of_wants? (hc : c.Reached b) (hi : c.frame? i = some f)
    (hf : f.wants? c.machine i.thread = some x) (hx : c.machine.HasGuard x)
    (hab : c.machine.aborted = false) :
    (∃ m, c.machine.step b i.thread = some m) ↔ c.machine.owner? x = none := by
  obtain ⟨rest, token, ht⟩ := hc.top_of_not_awaits hi (Frame.awaits_of_wants? hf) hab
  have hstep := Frame.isSome_step_of_wants? (b := b) hf hx (hc.grounded hi (.inl hf)) ⟨_, ht⟩
  constructor
  · rintro ⟨m, hm⟩
    simp only [Machine.step, hab, Bool.false_eq_true, if_false, ht] at hm
    obtain ⟨r, hr, -⟩ := Option.map_eq_some_iff.1 hm
    rw [hr] at hstep
    exact Option.isNone_iff_eq_none.1 hstep.symm
  · intro hfree
    rw [hfree] at hstep
    exact Machine.exists_step hab ht hstep

theorem Holds.goes_on (hc : c.Reached b) (hi : c.Holds i x) (hab : c.machine.aborted = false) :
    ∃ m, c.machine.step b i.thread = some m := by
  obtain ⟨f, hf, hx⟩ := hi
  obtain ⟨rest, token, ht⟩ := hc.top_of_not_awaits hf (Frame.awaits_of_guard? hx) hab
  have hm := Machine.hasGuard_of_owner? (hc.owned.owner i f x hf hx)
  exact Machine.exists_step hab ht
    (Frame.isSome_step_of_guard? hx hm (hc.grounded hf (.inr hx)) ⟨_, ht⟩)

/-- A moment of a call that holds a guard gives it back or brings the call closer to that. -/
theorem Extends.guard?_next (hc : c.Reached b) (h : c.Extends b μ)
    (hx : μ.frame.guard? c.machine μ.call.thread = some x) :
    μ.after.owner? x = none ∨ ∃ g, μ.next.own μ.frame = some g ∧
      g.guard? c.machine μ.call.thread = some x ∧ g.span < μ.frame.span := by
  have hs := h.sound hc.tracked
  have hk := hs.keeping.guards
  rw [h.before, hx] at hk
  generalize hg : ((μ.next.own μ.frame).bind fun f => f.guard? c.machine μ.call.thread) = y at hk
  generalize hy : some x = z at hk
  cases hk with
  | keep hk =>
    subst hy
    obtain ⟨g, hown, hgx⟩ := Option.bind_eq_some_iff.1 hg
    refine .inr ⟨g, hown, hgx, ?_⟩
    cases h.made with
    | step _ _ hstep _ =>
      have hgo : μ.control = .go := hs.control.resolve_right (by
        rw [Frame.awaits_of_guard? hx]
        exact Bool.false_ne_true)
      rw [h.before, hgo] at hstep
      exact Frame.span_of_step hstep hx hown hgx
    | wake _ hf => rw [hf] at hx; cases hx
  | take hfree => cases hy
  | give hfree =>
    cases hy
    exact .inl hfree

/-- While a call holds a guard, each of its moments brings it closer to giving the guard back, and
no other moment takes the guard from it. -/
theorem Holds.reaches (hc : c.Reached b) (hi : c.frame? i = some f)
    (hx : f.guard? c.machine i.thread = some x) (hl : c.Reaches b c') :
    (∃ g, c'.frame? i = some g ∧ g.guard? c'.machine i.thread = some x ∧
      (c'.moments i).length + g.span ≤ (c.moments i).length + f.span) ∨
    ∃ μ ∈ c'.past, c.past.length < μ.number ∧ μ.call = i ∧ μ.after.owner? x = none := by
  induction hl with
  | refl => exact .inl ⟨f, hi, hx, Nat.le_refl _⟩
  | @tail c₁ _ e hl he ih =>
    have hc₁ := hc.reaches hl
    have ht := hc₁.tracked
    obtain ⟨μ, hμ, rfl⟩ := exists_extends_of_turn? ht he
    rcases ih with ⟨g, hg, hgx, hn⟩ | ⟨ν, hν, hlate, hcall, hfree⟩
    · by_cases hne : i = μ.call
      · subst hne
        obtain rfl := hμ.frame_eq ht hg
        rw [moments_record_self, List.length_append, List.length_singleton]
        rcases hμ.guard?_next hc₁ hgx with hfree | ⟨g, hown, hgx', hspan⟩
        · refine .inr ⟨μ, mem_record_self, ?_, rfl, hfree⟩
          obtain ⟨l, hpast⟩ := hl.exists_past hc
          rw [hμ.number, hpast, List.length_append]
          omega
        · obtain ⟨hg', hgx'⟩ := hμ.guard?_own hc₁ hown hgx'
          exact .inl ⟨g, hg', hgx', by omega⟩
      · rw [moments_record_of_ne (Ne.symm hne)]
        obtain ⟨hg', hgx'⟩ := hμ.guard?_other hc₁ hg hgx hne
        exact .inl ⟨g, hg', hgx', hn⟩
    · exact .inr ⟨ν, mem_record_of_mem hν, hlate, hcall, hfree⟩

/-- Call `i` works under the guard `x`, and not for long. -/
structure Brief (b : Behaviour H) (c : Chronicle H) (i : CallId) (x : Guard) : Prop where
  holds : c.Holds i x
  goes_on : c.machine.aborted = false → ∃ m, c.machine.step b i.thread = some m
  /-- Of the next three steps of the call, one gives the guard back. -/
  gives_back : ∀ c', c.Reaches b c' → (c.moments i).length + 3 ≤ (c'.moments i).length →
    ∃ μ ∈ c'.past, c.past.length < μ.number ∧ μ.call = i ∧ μ.after.owner? x = none

theorem Holds.brief (hc : c.Reached b) (h : c.Holds i x) : c.Brief b i x := by
  obtain ⟨f, hi, hx⟩ := id h
  refine ⟨h, h.goes_on hc, fun c' hl hn => ?_⟩
  rcases Holds.reaches hc hi hx hl with ⟨g, -, -, hspan⟩ | hgiven
  · have hpos := g.span_pos
    have hle := f.span_le
    omega
  · exact hgiven

/-! ## All guards -/

/-- No call waits for a guard for ever. -/
structure Orderly (b : Behaviour H) (c : Chronicle H) : Prop where
  /-- A guard that is taken is held by a call on top of its owner's thread, and not for long. -/
  held : ∀ x t, c.machine.owner? x = some t →
    ∃ i, i.thread = t ∧ (c.calls t).head? = some i ∧ c.Brief b i x
  /-- No thread holds two guards. -/
  single : ∀ t x y, c.machine.owner? x = some t → c.machine.owner? y = some t → x = y
  /-- While the program's code runs on a thread, the thread holds no guard. -/
  code : ∀ i f, c.frame? i = some f → (c.calls i.thread).head? = some i →
    f.code?.isSome = true → ∀ x, c.machine.owner? x ≠ some i.thread
  /-- When a call has returned or was left by a panic, its thread holds no guard. -/
  ended : ∀ μ ∈ c.past, μ.next.own μ.frame = none → ∀ x, μ.after.owner? x ≠ some μ.call.thread
  /-- A call that takes a guard can do so unless another thread holds it. -/
  taking : ∀ i f x, c.frame? i = some f → f.wants? c.machine i.thread = some x →
    c.machine.HasGuard x → c.machine.aborted = false →
    c.machine.owner? x ≠ some i.thread ∧
      ((∃ m, c.machine.step b i.thread = some m) ↔ c.machine.owner? x = none)

/-- A thread holds one guard at most, and none while it runs the program's code or after a call of
it has ended in whatever way. So a call waits for a guard only while another thread holds it, and
that thread can go on and gives the guard back soon. -/
theorem guards_never_block (hc : c.Reached b) : c.Orderly b := by
  refine ⟨fun x t hx => ?_, fun t x y hx hy => hc.owner_unique hx hy,
    fun i f hi htop hf => hc.not_owner_of_code hi htop hf,
    fun μ hμ hn => hc.not_owner_of_over hμ hn, fun i f x hi hf hx hab => ⟨?_, ?_⟩⟩
  · obtain ⟨i, rfl, hi⟩ := hc.exists_holder hx
    exact ⟨i, rfl, hi.top hc.tracked, hi.brief hc⟩
  · have htop := hc.tracked.top_of_not_awaits hi (Frame.awaits_of_wants? hf)
    exact hc.not_owner hi htop (Frame.guard?_of_wants? hf) x
  · exact hc.step_iff_of_wants? hi hf hx hab

/-- A thread makes a promise and leaves a listener with it that counts the listeners and panics; it
completes the promise and counts the listeners itself. A second one counts them too. -/
def outburst : (r : Role) → Nat → Act Tabled r
  | .task, 0 => .call (.build { clock := some 0 }) 1
  | .task, 1 => .call (.listen 0 7) 2
  | .task, 2 => .call (.complete 0 (.value .unit)) 3
  | .task, 3 => .call (.count 0) 4
  | .task, 10 => .call (.count 0) 11
  | .listener, 7 => .call (.count 0) 8
  | .listener, 8 => .panic "boom"
  | r, _ => Tabled.quiet r

/-- The run up to where the second thread takes the guard that the first one holds again after the
panic. -/
def outbreak : Option (Chronicle Tabled) :=
  (Tabled.start [0, 10]).turns? (Tabled.behaviour outburst)
    (List.replicate 27 (.step 0) ++ [.step 1])

theorem guards_never_block_outbreak : ∃ c i f, outbreak = some c ∧
    c.Reached (Tabled.behaviour outburst) ∧
    (∃ μ ∈ c.past, μ.frame.completing?.isSome ∧ μ.next.thrown? = some "boom") ∧
    c.frame? i = some f ∧ i.thread = 1 ∧
    f.wants? c.machine i.thread = some (.part 0 .listeners) ∧
    c.machine.owner? (.part 0 .listeners) = some 0 ∧
    c.Orderly (Tabled.behaviour outburst) := by
  have hrun : (outbreak.any fun c =>
      (c.past.any fun μ =>
        μ.frame.completing?.isSome && μ.next.thrown? == some "boom") &&
      ((c.frame? ⟨1, 28⟩).any fun f =>
        f.wants? c.machine 1 == some (.part 0 .listeners)) &&
      c.machine.owner? (.part 0 .listeners) == some 0) = true := by
    decide +kernel
  obtain ⟨c, hc, hrun⟩ := (Option.any_eq_true _ _).1 hrun
  simp only [Bool.and_eq_true, List.any_eq_true, Option.any_eq_true, beq_iff_eq] at hrun
  obtain ⟨⟨⟨μ, hμ, hf, hthrow⟩, f, hi, hwants⟩, howner⟩ := hrun
  have hreach := Tabled.reached hc
  exact ⟨c, ⟨1, 28⟩, f, hc, hreach, ⟨μ, hμ, hf, hthrow⟩, hi, rfl, hwants, howner,
    guards_never_block hreach⟩

end Chronicle

end OneShot
