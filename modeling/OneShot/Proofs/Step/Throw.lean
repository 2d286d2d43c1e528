import OneShot.Proofs.Step.Code

/-!
# Where panics come from

A step leaves a call by a panic if the program's code panics, if a panic passes the call, after the
clean-up of a chain callback that panicked, or because the library finds itself in a state that it
takes to be impossible.

- **Causes** (`Frame.Throws`), and all calls (`Frame.throws_of_step`).
- **Impossible states** (`Frame.Impossible`): a second outcome, an open latch without an outcome, a
  waker set that was closed before the latch opened.
-/

namespace OneShot

variable {H : Host}

/-- The states that the library takes to be impossible. -/
inductive Frame.Impossible (m : Machine H) : Frame H → Prop
  | twice {p o pr} (hp : m.promise? p = some pr) (ho : pr.outcome ≠ none) :
    Impossible m (.completing p (.store o))
  | fetch {p limited pr} (hp : m.promise? p = some pr) (hs : pr.settled = none) :
    Impossible m (.reading p limited .fetch)
  | reread {w waker wait pr} (hw : m.wait? w = some wait) (hp : m.promise? wait.promise = some pr)
    (hs : pr.settled = none) : Impossible m (.polling w waker .reread)

/-- Why a step of the call at stage `f` leaves it by the panic `x`. -/
inductive Frame.Throws (b : Behaviour H) (m : Machine H) (t : ThreadId) (c : Control) (x : String) :
    Frame H → Prop
  | passed {f} (hc : c = .raise x) : Throws b m t c x f
  | code {f} {r : Role} {code : H.Code r} {m'} (hf : f.code? = some ⟨r, code⟩)
    (hr : m.resume b t code c = (m', .panic x)) : Throws b m t c x f
  | cleaned {p target} : Throws b m t c x (.notifying p (.cleaning target x))
  | impossible {f} (hf : f.Impossible m) : Throws b m t c x f

section

variable {b : Behaviour H} {m m' : Machine H} {t : ThreadId} {c : Control} {x : String}
  {f : Frame H}

open Machine OneShot.Frame

theorem Frame.throws_of_runStage {k : Move H} (h : m.runStage c k = some (m', .throw x))
    (hk : k = some (m', .throw x) → f.Throws b m t c x) : f.Throws b m t c x := by
  rcases runStage_eq_some h with ⟨-, h⟩ | ⟨y, hc, h⟩
  · exact hk h
  · cases h
    exact .passed hc

theorem Frame.throws_of_runCode {r : Role} {code : H.Code r} {wrap : H.Code r → Frame H}
    {done : Machine H → r.Reply → Move H}
    (h : m.runCode b t code c wrap done = some (m', .throw x)) (hf : f.code? = some ⟨r, code⟩)
    (hd : ∀ m₁ v, done m₁ v ≠ some (m', .throw x)) : f.Throws b m t c x := by
  generalize hn : Next.throw x = n at h
  cases ran_of_runCode h with
  | call | stay => cases hn
  | finish _ hv => subst hn; exact absurd hv (hd _ _)
  | panic hr => cases hn; exact .code hf hr

theorem Completing.throws_of_step {p : PromiseId} {s : Completing H}
    (h : s.step b m t p c = some (m', .throw x)) : (Frame.completing p s).Throws b m t c x := by
  cases s with
  | claim o =>
    refine throws_of_runStage h fun h => ?_
    obtain ⟨pr, -, h⟩ := Option.bind_eq_some_iff.1 h
    split at h <;> cases h
  | store o =>
    refine throws_of_runStage h fun h => ?_
    obtain ⟨pr, hp, h⟩ := Option.bind_eq_some_iff.1 h
    split at h
    · rename_i ho
      exact .impossible (.twice hp (Option.isSome_iff_ne_none.1 ho))
    · cases h
  | stamp code =>
    refine throws_of_runCode h rfl fun m₁ v hd => ?_
    obtain ⟨pr, -, hd⟩ := Option.bind_eq_some_iff.1 hd
    cases hd
  | waking code rest => exact throws_of_runCode h rfl fun m₁ v hd => by cases hd
  | lockGate time | lockWakers | lockListeners =>
    refine throws_of_runStage h fun h => ?_
    obtain ⟨pr, -, h⟩ := Option.bind_eq_some_iff.1 h
    obtain ⟨_, -, h⟩ := Option.bind_eq_some_iff.1 h
    cases h
  | takeWakers | announce | drain =>
    refine throws_of_runStage h fun h => ?_
    obtain ⟨pr, -, h⟩ := Option.bind_eq_some_iff.1 h
    cases h
  | openLatch time | notify => exact throws_of_runStage h fun h => by cases h
  | wake rest | deliver rest => cases rest <;> exact throws_of_runStage h fun h => by cases h
  | delivering rest =>
    simp only [step] at h
    split at h <;> cases h
    exact .passed rfl

theorem Notifying.throws_of_step {p : PromiseId} {s : Notifying H}
    (h : s.step b m t p c = some (m', .throw x)) : (Frame.notifying p s).Throws b m t c x := by
  cases s with
  | listening code =>
    refine throws_of_runCode h rfl fun m₁ v hd => ?_
    cases v <;> cases hd
  | observing code => exact throws_of_runCode h rfl fun m₁ v hd => by cases hd
  | transforming target code =>
    simp only [step] at h
    split at h <;> cases h
  | relaying target =>
    simp only [step] at h
    split at h <;> cases h
    exact .passed rfl
  | cleaning target y =>
    simp only [step] at h
    split at h <;> cases h
    exact .cleaned
  | settle e =>
    refine throws_of_runStage h fun h => ?_
    obtain ⟨pr, -, h⟩ := Option.bind_eq_some_iff.1 h
    split at h
    · cases h
    · obtain ⟨d, -, hd⟩ := Option.map_eq_some_iff.1 h
      cases d <;> cases hd
  | settling e code =>
    refine throws_of_runCode h rfl fun m₁ d hd => ?_
    cases d <;> cases hd

theorem Registering.throws_of_step {p : PromiseId} {s : Registering H} {closing : Closing}
    (h : s.step m t p closing c = some (m', .throw x)) :
    (Frame.registering p s closing).Throws b m t c x := by
  cases s with
  | check l =>
    refine throws_of_runStage h fun h => ?_
    obtain ⟨pr, -, h⟩ := Option.bind_eq_some_iff.1 h
    split at h <;> cases h
  | lock l =>
    refine throws_of_runStage h fun h => ?_
    obtain ⟨pr, -, h⟩ := Option.bind_eq_some_iff.1 h
    obtain ⟨_, -, h⟩ := Option.bind_eq_some_iff.1 h
    cases h
  | enroll l =>
    refine throws_of_runStage h fun h => ?_
    obtain ⟨pr, -, h⟩ := Option.bind_eq_some_iff.1 h
    dsimp only at h
    split at h <;> cases h
  | inline =>
    simp only [step] at h
    split at h <;> cases h
    exact .passed rfl

theorem Reading.throws_of_step {p : PromiseId} {limited : Bool} {s : Reading}
    (h : s.step m t p limited c = some (m', .throw x)) :
    (Frame.reading p limited s).Throws b m t c x := by
  refine throws_of_runStage h fun h => ?_
  obtain ⟨pr, hp, h⟩ := Option.bind_eq_some_iff.1 h
  obtain ⟨th, -, h⟩ := Option.bind_eq_some_iff.1 h
  cases s with
  | fetch =>
    dsimp only at h
    split at h
    · cases h
    · rename_i hs
      exact .impossible (.fetch hp hs)
  | lockParked | relockParked r | lockGate late =>
    obtain ⟨_, -, h⟩ := Option.bind_eq_some_iff.1 h
    cases h
  | unpark r => cases r <;> cases h
  | _ => cases h

theorem Interrupting.throws_of_step {u : ThreadId} {s : Interrupting}
    (h : s.step m t u c = some (m', .throw x)) :
    (Frame.interrupting u s).Throws b m t c x := by
  refine throws_of_runStage h fun h => ?_
  cases s with
  | raise | notify p rest => cases h
  | lock =>
    obtain ⟨th, -, h⟩ := Option.bind_eq_some_iff.1 h
    obtain ⟨_, -, h⟩ := Option.bind_eq_some_iff.1 h
    cases h
  | copy =>
    obtain ⟨th, -, h⟩ := Option.bind_eq_some_iff.1 h
    cases h
  | next latches =>
    cases latches with
    | nil => cases h
    | cons p rest =>
      obtain ⟨pr, -, h⟩ := Option.bind_eq_some_iff.1 h
      obtain ⟨gate, -, h⟩ := Option.bind_eq_some_iff.1 h
      cases h

theorem Polling.throws_of_step {w : WaitId} {waker : H.Closure .waker} {s : Polling}
    (h : s.step m t w waker c = some (m', .throw x)) :
    (Frame.polling w waker s).Throws b m t c x := by
  refine throws_of_runStage h fun h => ?_
  obtain ⟨wait, hw, h⟩ := Option.bind_eq_some_iff.1 h
  obtain ⟨pr, hp, h⟩ := Option.bind_eq_some_iff.1 h
  cases s with
  | attempt =>
    dsimp only at h
    split at h <;> cases h
  | lock =>
    obtain ⟨_, -, h⟩ := Option.bind_eq_some_iff.1 h
    cases h
  | register =>
    dsimp only at h
    split at h <;> cases h
  | reread =>
    dsimp only at h
    split at h
    · cases h
    · rename_i hs
      exact .impossible (.reread hw hp (by simpa [Promise.tryGet] using hs))

/-- Every panic that leaves a call has one of these causes. -/
theorem Frame.throws_of_step (h : f.step b m t c = some (m', .throw x)) :
    f.Throws b m t c x := by
  cases f with
  | task code | timing code | building builder clock code =>
    exact throws_of_runCode h rfl fun m₁ v hd => by cases hd
  | completing p s => exact s.throws_of_step h
  | notifying p s => exact s.throws_of_step h
  | registering p s closing => exact s.throws_of_step h
  | chaining p f code =>
    cases code with
    | none =>
      refine throws_of_runStage h fun h => ?_
      obtain ⟨pr, -, h⟩ := Option.bind_eq_some_iff.1 h
      cases h
    | some code =>
      refine throws_of_runCode h rfl fun m₁ v hd => ?_
      obtain ⟨pr, -, hd⟩ := Option.bind_eq_some_iff.1 hd
      cases hd
  | measuring p code =>
    cases code with
    | none =>
      refine throws_of_runStage h fun h => ?_
      obtain ⟨pr, -, h⟩ := Option.bind_eq_some_iff.1 h
      split at h <;> cases h
    | some code =>
      refine throws_of_runCode h rfl fun m₁ v hd => ?_
      obtain ⟨pr, -, hd⟩ := Option.bind_eq_some_iff.1 hd
      cases hd
  | counting p s =>
    refine throws_of_runStage h fun h => ?_
    obtain ⟨pr, -, h⟩ := Option.bind_eq_some_iff.1 h
    cases s with
    | lock =>
      obtain ⟨_, -, h⟩ := Option.bind_eq_some_iff.1 h
      cases h
    | work => cases h
  | cancelling p code =>
    cases code with
    | none =>
      refine throws_of_runStage h fun h => ?_
      obtain ⟨pr, -, h⟩ := Option.bind_eq_some_iff.1 h
      split at h <;> cases h
    | some code => exact throws_of_runCode h rfl fun m₁ v hd => by cases hd
  | reading p limited s => exact s.throws_of_step h
  | waiting p => exact throws_of_runStage h fun h => by cases h
  | polling w waker s => exact s.throws_of_step h
  | dropping w =>
    refine throws_of_runStage h fun h => ?_
    obtain ⟨wait, -, h⟩ := Option.bind_eq_some_iff.1 h
    dsimp only at h
    split at h <;> cases h
  | removing p key s =>
    refine throws_of_runStage h fun h => ?_
    obtain ⟨pr, -, h⟩ := Option.bind_eq_some_iff.1 h
    cases s with
    | lock =>
      obtain ⟨_, -, h⟩ := Option.bind_eq_some_iff.1 h
      cases h
    | work => cases h
  | interrupting u s => exact s.throws_of_step h
  | clearing u tell =>
    refine throws_of_runStage h fun h => ?_
    obtain ⟨th, -, h⟩ := Option.bind_eq_some_iff.1 h
    cases h
  | judging policy e code =>
    cases code with
    | none =>
      refine throws_of_runStage h fun h => ?_
      split at h
      · cases h
      · obtain ⟨d, -, hd⟩ := Option.map_eq_some_iff.1 h
        cases hd
    | some code => exact throws_of_runCode h rfl fun m₁ v hd => by cases hd
  | spawning => exact throws_of_runStage h fun h => by cases h
  | forking u work =>
    refine throws_of_runStage h fun h => ?_
    obtain ⟨th, -, h⟩ := Option.bind_eq_some_iff.1 h
    split at h <;> cases h

end

end OneShot
