import OneShot.Proofs.Step.Lead

/-!
# What a step keeps alive

The calls of a thread, and the answer that its top call has to deal with, keep promises alive. A
step does not come by promises from nowhere: what its thread keeps alive afterwards was kept alive
by the call before, or the program has asked about it, or it was taken over from a promise or a
wait, or it is new.

- **After a step** (`Next.handles`).
- **Where that comes from** (`Frame.Hands`).
- **All calls** (`Frame.hands_of_step`).
-/

namespace OneShot

variable {H : Host}

/-- The promises that the calls which a step leaves on top, or its answer, keep alive. -/
def Next.handles : Next H → List PromiseId
  | .goto f => f.handles
  | .enter g f => g.handles ++ f.handles
  | .answer a => a.handles
  | .throw _ | .abort => []

/-- How a thread comes to keep `p` alive after a step of the call at stage `f`. -/
inductive Frame.Hands (m : Machine H) (f : Frame H) (n : Next H) (p : PromiseId) : Prop
  /-- The call has kept it alive before. -/
  | kept (h : p ∈ f.handles)
  /-- The program makes a call about it. -/
  | asked {g f'} (hn : n = .enter g f') (hf : f'.code?.isSome = true) (h : p ∈ g.handles)
  /-- A chain listener was drained that completes it. -/
  | drained {q pr} (hf : f = .completing q .drain) (hq : m.promise? q = some pr)
    (h : p ∈ targets pr.listeners.data.toList)
  /-- A wait on it was dropped. -/
  | dropped {w wait} (hf : f = .dropping w) (hw : m.wait? w = some wait) (h : p = wait.promise)
  /-- It was made. -/
  | made (h : m.promise? p = none)

section

variable {b : Behaviour H} {m m' : Machine H} {t : ThreadId} {c : Control} {n : Next H}
  {f : Frame H} {p : PromiseId}

open Machine

theorem Frame.hands_nil : ∀ q ∈ ([] : List PromiseId), f.Hands m n q :=
  fun _ hq => absurd hq List.not_mem_nil

theorem Frame.hands_of_runStage {k : Move H} (h : m.runStage c k = some (m', n))
    (hk : k = some (m', n) → ∀ p ∈ n.handles, f.Hands m n p) : ∀ p ∈ n.handles, f.Hands m n p := by
  rcases runStage_eq_some h with ⟨-, h⟩ | ⟨x, -, h⟩
  · exact hk h
  · cases h
    nofun

/-- A step of code keeps alive what the call has kept alive, and what the code asks about. -/
theorem Frame.hands_of_runCode {r : Role} {code : H.Code r} {wrap : H.Code r → Frame H}
    {done : Machine H → r.Reply → Move H} (h : m.runCode b t code c wrap done = some (m', n))
    (hw : ∀ k, (wrap k).handles = f.handles ∧ (wrap k).code?.isSome = true)
    (hd : ∀ m₁ v, m.Alike m₁ → done m₁ v = some (m', n) → ∀ p ∈ n.handles, f.Hands m n p) :
    ∀ p ∈ n.handles, f.Hands m n p := by
  cases ran_of_runCode h with
  | call =>
    intro p hp
    rcases List.mem_append.1 hp with hp | hp
    · exact .asked rfl (hw _).2 hp
    · exact .kept ((hw _).1 ▸ hp)
  | stay =>
    intro p hp
    exact .kept ((hw _).1 ▸ hp)
  | panic => nofun
  | finish hr hv => exact hd _ _ (alike_resume hr) hv

open OneShot.Frame

theorem Listener.handles_begin (l : Listener H) : (l.begin p).handles = targets [l] := by
  cases l <;> rfl

theorem mem_targets_cons {l : Listener H} {rest : List (Listener H)} {q : PromiseId} :
    q ∈ targets (l :: rest) ↔ q ∈ targets [l] ∨ q ∈ targets rest := by
  cases l <;> simp [targets, List.filterMap_cons, Listener.target?]

theorem Completing.hands_of_step {s : Completing H} (h : s.step b m t p c = some (m', n)) :
    ∀ q ∈ n.handles, (Frame.completing p s).Hands m n q := by
  have hown : ∀ q ∈ [p], (Frame.completing p s).Hands m n q := fun q hq =>
    .kept (List.mem_cons.2 (.inl (List.mem_singleton.1 hq)))
  cases s with
  | claim o | store o =>
    refine hands_of_runStage h fun h => ?_
    obtain ⟨pr, -, h⟩ := Option.bind_eq_some_iff.1 h
    split at h <;> cases h <;> first | exact hown | exact hands_nil
  | stamp code =>
    refine hands_of_runCode h (fun k => ⟨rfl, rfl⟩) fun m₁ v _ hd => ?_
    obtain ⟨pr, -, hd⟩ := Option.bind_eq_some_iff.1 hd
    cases hd
    exact hown
  | lockGate time | lockWakers | lockListeners =>
    refine hands_of_runStage h fun h => ?_
    obtain ⟨pr, -, h⟩ := Option.bind_eq_some_iff.1 h
    obtain ⟨_, -, h⟩ := Option.bind_eq_some_iff.1 h
    cases h
    exact hown
  | openLatch time | notify =>
    exact hands_of_runStage h fun h => by cases h; exact hown
  | takeWakers | announce =>
    refine hands_of_runStage h fun h => ?_
    obtain ⟨pr, -, h⟩ := Option.bind_eq_some_iff.1 h
    cases h
    exact hown
  | wake rest =>
    cases rest <;> exact hands_of_runStage h fun h => by cases h; exact hown
  | waking code rest =>
    exact hands_of_runCode h (fun k => ⟨rfl, rfl⟩) fun m₁ v _ hd => by cases hd; exact hown
  | drain =>
    refine hands_of_runStage h fun h => ?_
    obtain ⟨pr, hp, h⟩ := Option.bind_eq_some_iff.1 h
    cases h
    intro q hq
    rcases List.mem_cons.1 hq with rfl | hq
    · exact hown _ (List.mem_singleton.2 rfl)
    · exact .drained rfl hp hq
  | deliver rest =>
    cases rest with
    | nil => exact hands_of_runStage h fun h => by cases h; exact hands_nil
    | cons l rest =>
      refine hands_of_runStage h fun h => ?_
      cases h
      intro q hq
      refine .kept ?_
      simp only [Next.handles, Frame.handles, Completing.handles, List.mem_append, List.mem_cons,
        Listener.handles_begin] at hq ⊢
      rw [mem_targets_cons]
      grind
  | delivering rest =>
    simp only [step] at h
    split at h <;> cases h
    · exact fun q hq => .kept hq
    · exact hands_nil
    · exact hands_nil

theorem Notifying.hands_ofResult {s : Notifying H} (r : Except ListenerError Unit) :
    ∀ q ∈ (ofResult p r : Next H).handles, (Frame.notifying p s).Hands m n q := by
  cases r with
  | ok u => exact hands_nil
  | error e => exact fun q hq => .kept (List.mem_cons.2 (.inl (List.mem_singleton.1 hq)))

theorem Machine.hands_conclude (e : ListenerError) (d : Disposition) :
    ∀ q ∈ (m'.conclude p e d).2.handles, f.Hands m n q := by
  cases d <;> exact hands_nil

theorem Notifying.hands_of_step {s : Notifying H} (h : s.step b m t p c = some (m', n)) :
    ∀ q ∈ n.handles, (Frame.notifying p s).Hands m n q := by
  cases s with
  | listening code =>
    refine hands_of_runCode h (fun k => ⟨rfl, rfl⟩) fun m₁ v _ hd => ?_
    cases hd
    exact hands_ofResult v
  | observing code =>
    exact hands_of_runCode h (fun k => ⟨rfl, rfl⟩) fun m₁ v _ hd => by cases hd; exact hands_nil
  | transforming target code =>
    simp only [step] at h
    split at h <;> cases h
    · intro q hq
      rcases List.mem_append.1 hq with hq | hq
      · exact .asked rfl rfl hq
      · exact .kept hq
    · exact fun q hq => .kept hq
    all_goals
      intro q hq
      refine .kept ?_
      simp only [Next.handles, Frame.handles, Completing.handles, Notifying.handles,
        List.mem_append, List.mem_cons] at hq ⊢
      grind
  | relaying target =>
    simp only [step] at h
    split at h <;> cases h
    · exact hands_nil
    · exact hands_ofResult (.error _)
    · exact hands_nil
  | cleaning target x =>
    simp only [step] at h
    split at h <;> cases h <;> exact hands_nil
  | settle e =>
    refine hands_of_runStage h fun h => ?_
    obtain ⟨pr, -, h⟩ := Option.bind_eq_some_iff.1 h
    split at h
    · cases h
      exact fun q hq => .kept hq
    · obtain ⟨d, -, hd⟩ := Option.map_eq_some_iff.1 h
      rw [show n = (m.conclude p e d).2 by rw [hd]]
      exact hands_conclude e d
  | settling e code =>
    refine hands_of_runCode h (fun k => ⟨rfl, rfl⟩) fun m₁ d _ hd => ?_
    rw [show n = (m₁.conclude p e d).2 by rw [Option.some.inj hd]]
    exact hands_conclude e d

theorem Registering.hands_of_step {s : Registering H} {closing : Closing}
    (h : s.step m t p closing c = some (m', n)) :
    ∀ q ∈ n.handles, (Frame.registering p s closing).Hands m n q := by
  have hanswer : ∀ r, ∀ q ∈ (closing.answer r).handles,
      (Frame.registering p s closing).Hands m n q := by
    intro r q hq
    cases closing with
    | report | discard => exact hands_nil q hq
    | derived d =>
      exact .kept (List.mem_cons.2 (.inr (List.mem_append.2 (.inr hq))))
  have hinline : ∀ l : Listener H, s.handles = l.target?.toList →
      ∀ q ∈ (Next.enter (.notifying p (l.begin p)) (.registering p .inline closing)).handles,
        (Frame.registering p s closing).Hands m n q := by
    intro l hl q hq
    have htarget : targets [l] = l.target?.toList := by
      cases hx : l.target? <;> simp [targets, hx]
    replace hq : q ∈ (p :: (l.begin p).handles) ++ (p :: ([] ++ closing.handles)) := hq
    rw [Listener.handles_begin, htarget, ← hl] at hq
    refine .kept (?_ : q ∈ p :: (s.handles ++ closing.handles))
    grind
  cases s with
  | check l =>
    refine hands_of_runStage h fun h => ?_
    obtain ⟨pr, -, h⟩ := Option.bind_eq_some_iff.1 h
    split at h <;> cases h
    · exact hinline l rfl
    · exact fun q hq => .kept hq
  | lock l =>
    refine hands_of_runStage h fun h => ?_
    obtain ⟨pr, -, h⟩ := Option.bind_eq_some_iff.1 h
    obtain ⟨_, -, h⟩ := Option.bind_eq_some_iff.1 h
    cases h
    exact fun q hq => .kept hq
  | enroll l =>
    refine hands_of_runStage h fun h => ?_
    obtain ⟨pr, -, h⟩ := Option.bind_eq_some_iff.1 h
    dsimp only at h
    split at h
    · cases h
      exact hanswer _
    · rename_i l' hl
      cases h
      obtain rfl : l = l' := by rw [Registry.enroll_snd] at hl; split at hl <;> cases hl; rfl
      exact hinline l rfl
  | inline =>
    simp only [step] at h
    split at h <;> cases h
    · exact hanswer _
    · exact hands_nil

theorem Frame.hands_of_stepChaining {g : H.Closure .transform} {code : Option (H.Code .clock)}
    (h : m.stepChaining b t p g c code = some (m', n)) :
    ∀ q ∈ n.handles, (Frame.chaining p g code).Hands m n q := by
  cases code with
  | none =>
    refine hands_of_runStage h fun h => ?_
    obtain ⟨pr, -, h⟩ := Option.bind_eq_some_iff.1 h
    cases h
    exact fun q hq => .kept hq
  | some code =>
    refine hands_of_runCode h (fun k => ⟨rfl, rfl⟩) fun m₁ v ha hd => ?_
    obtain ⟨pr, -, hd⟩ := Option.bind_eq_some_iff.1 hd
    cases hd
    intro q hq
    have hnew : m.promise? m₁.promises.size = none := by simp [promise?, ha.promises]
    have hmem : q = p ∨ q = m₁.promises.size := by
      simpa [Next.handles, Frame.handles, Registering.handles, Closing.handles,
        Listener.target?, addPromise, or_assoc] using hq
    rcases hmem with rfl | rfl
    · exact .kept List.mem_cons_self
    · exact .made hnew

theorem Reading.hands_of_step {limited : Bool} {s : Reading}
    (h : s.step m t p limited c = some (m', n)) :
    ∀ q ∈ n.handles, (Frame.reading p limited s : Frame H).Hands m n q := by
  refine hands_of_runStage h fun h => ?_
  obtain ⟨pr, -, h⟩ := Option.bind_eq_some_iff.1 h
  obtain ⟨th, -, h⟩ := Option.bind_eq_some_iff.1 h
  cases s with
  | peek | attempt | check late | checkFlag | park | sleep | unlockGate r =>
    cases h
    exact fun q hq => .kept hq
  | lockParked | relockParked r | lockGate late =>
    obtain ⟨_, -, h⟩ := Option.bind_eq_some_iff.1 h
    cases h
    exact fun q hq => .kept hq
  | asleep => cases h
  | unpark r =>
    cases r <;> cases h
    · exact fun q hq => .kept hq
    · exact hands_nil
    · exact hands_nil
  | fetch =>
    dsimp only at h
    split at h <;> cases h <;> exact hands_nil

theorem Interrupting.hands_of_step {u : ThreadId} {s : Interrupting}
    (h : s.step m t u c = some (m', n)) :
    ∀ q ∈ n.handles, (Frame.interrupting u s : Frame H).Hands m n q := by
  refine hands_of_runStage h fun h => ?_
  cases s with
  | raise | notify p rest => cases h; exact hands_nil
  | lock =>
    obtain ⟨th, -, h⟩ := Option.bind_eq_some_iff.1 h
    obtain ⟨_, -, h⟩ := Option.bind_eq_some_iff.1 h
    cases h
    exact hands_nil
  | copy =>
    obtain ⟨th, -, h⟩ := Option.bind_eq_some_iff.1 h
    cases h
    exact hands_nil
  | next latches =>
    cases latches with
    | nil => cases h; exact hands_nil
    | cons p rest =>
      obtain ⟨pr, -, h⟩ := Option.bind_eq_some_iff.1 h
      obtain ⟨gate, -, h⟩ := Option.bind_eq_some_iff.1 h
      cases h
      exact hands_nil

theorem Polling.hands_of_step {w : WaitId} {waker : H.Closure .waker} {s : Polling}
    (h : s.step m t w waker c = some (m', n)) :
    ∀ q ∈ n.handles, (Frame.polling w waker s).Hands m n q := by
  refine hands_of_runStage h fun h => ?_
  obtain ⟨wait, -, h⟩ := Option.bind_eq_some_iff.1 h
  obtain ⟨pr, -, h⟩ := Option.bind_eq_some_iff.1 h
  cases s with
  | lock =>
    obtain ⟨_, -, h⟩ := Option.bind_eq_some_iff.1 h
    cases h
    exact hands_nil
  | attempt | register | reread =>
    dsimp only at h
    split at h <;> cases h <;> exact hands_nil

/-- Every step of every call keeps alive only what comes from there. -/
theorem Frame.hands_of_step (h : f.step b m t c = some (m', n)) :
    ∀ p ∈ n.handles, f.Hands m n p := by
  -- Constructions and chainings make a handle, drains and drops take one out; others keep theirs.
  cases f with
  | task code | timing code =>
    exact hands_of_runCode h (fun k => ⟨rfl, rfl⟩) fun m₁ v _ hd => by cases hd; exact hands_nil
  | building builder clock code =>
    refine hands_of_runCode h (fun k => ⟨rfl, rfl⟩) fun m₁ v ha hd => ?_
    cases hd
    intro q hq
    obtain rfl : q = m₁.promises.size := List.mem_singleton.1 hq
    exact .made (by simp [promise?, ha.promises])
  | completing p s => exact s.hands_of_step h
  | notifying p s => exact s.hands_of_step h
  | registering p s closing => exact s.hands_of_step h
  | chaining p g code => exact hands_of_stepChaining h
  | measuring p code =>
    cases code with
    | none =>
      refine hands_of_runStage h fun h => ?_
      obtain ⟨pr, -, h⟩ := Option.bind_eq_some_iff.1 h
      split at h <;> cases h
      · exact hands_nil
      · exact fun q hq => .kept hq
    | some code =>
      refine hands_of_runCode h (fun k => ⟨rfl, rfl⟩) fun m₁ v _ hd => ?_
      obtain ⟨pr, -, hd⟩ := Option.bind_eq_some_iff.1 hd
      cases hd
      exact hands_nil
  | counting p s =>
    refine hands_of_runStage h fun h => ?_
    obtain ⟨pr, -, h⟩ := Option.bind_eq_some_iff.1 h
    cases s with
    | lock =>
      obtain ⟨_, -, h⟩ := Option.bind_eq_some_iff.1 h
      cases h
      exact fun q hq => .kept hq
    | work => cases h; exact hands_nil
  | cancelling p code =>
    cases code with
    | none =>
      refine hands_of_runStage h fun h => ?_
      obtain ⟨pr, -, h⟩ := Option.bind_eq_some_iff.1 h
      split at h <;> cases h
      · exact hands_nil
      · exact fun q hq => .kept hq
    | some code =>
      exact hands_of_runCode h (fun k => ⟨rfl, rfl⟩) fun m₁ v _ hd => by cases hd; exact hands_nil
  | reading p limited s => exact s.hands_of_step h
  | waiting p => exact hands_of_runStage h fun h => by cases h; exact hands_nil
  | polling w waker s => exact s.hands_of_step h
  | dropping w =>
    refine hands_of_runStage h fun h => ?_
    obtain ⟨wait, hw, h⟩ := Option.bind_eq_some_iff.1 h
    dsimp only at h
    split at h <;> cases h
    · exact hands_nil
    · exact fun q hq => .dropped rfl hw (List.mem_singleton.1 hq)
  | removing p key s =>
    refine hands_of_runStage h fun h => ?_
    obtain ⟨pr, -, h⟩ := Option.bind_eq_some_iff.1 h
    cases s with
    | lock =>
      obtain ⟨_, -, h⟩ := Option.bind_eq_some_iff.1 h
      cases h
      exact fun q hq => .kept hq
    | work => cases h; exact hands_nil
  | interrupting u s => exact s.hands_of_step h
  | clearing u tell =>
    refine hands_of_runStage h fun h => ?_
    obtain ⟨th, -, h⟩ := Option.bind_eq_some_iff.1 h
    cases h
    cases tell <;> exact hands_nil
  | judging policy e code =>
    cases code with
    | none =>
      refine hands_of_runStage h fun h => ?_
      split at h
      · cases h
        exact hands_nil
      · obtain ⟨d, -, hd⟩ := Option.map_eq_some_iff.1 h
        cases hd
        exact hands_nil
    | some code =>
      exact hands_of_runCode h (fun k => ⟨rfl, rfl⟩) fun m₁ v _ hd => by cases hd; exact hands_nil
  | spawning => exact hands_of_runStage h fun h => by cases h; exact hands_nil
  | forking u work =>
    refine hands_of_runStage h fun h => ?_
    obtain ⟨th, -, h⟩ := Option.bind_eq_some_iff.1 h
    split at h <;> cases h
    exact hands_nil

end

end OneShot
