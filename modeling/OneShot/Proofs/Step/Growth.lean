import OneShot.Machine.Step
import OneShot.Proofs.Step.Code

/-!
# What a step adds

Promises are made and the log is written by a few stages only. This module says once which ones, and
what they add.

- **Growth** (`Machine.Grows`): what code of the program has written, after it one record of the
  library at most, and one new promise at most.
- **Still moves** (`Machine.Still`): they add neither. Most stages of most calls make such moves
  (`Frame.still_step`).
- **All calls** (`Frame.Produces`, `Frame.produces_of_step`): a record tells of a completion, of a
  failed listener or of a chain callback that has panicked, and a new promise starts at what its
  clock has told.
-/

namespace OneShot

variable {H : Host}

/-- In addition to the log of `m`, that of `m'` has what code of the program has written, and then a
record of the library if `r` is one. In addition to the promises of `m`, there is one if `x` is
one. -/
structure Machine.Grows (m m' : Machine H) (r : Option LogRecord) (x : Option (Promise H)) :
    Prop where
  log : ∃ es : List H.Event,
    m'.log.toList = m.log.toList ++ (es.map Entry.program ++ r.toList.map Entry.library)
  size : m'.promises.size = m.promises.size + x.toList.length
  made : ∀ pr, x = some pr → m'.promise? m.promises.size = some pr

/-- The record and the promise that a step of the call at stage `f` on thread `t` adds. -/
inductive Frame.Produces (b : Behaviour H) (m : Machine H) (t : ThreadId) (c : Control) :
    Frame H → Option LogRecord → Option (Promise H) → Prop
  | nothing {f} : Produces b m t c f none none
  | announce {p pr} (hp : m.promise? p = some pr) :
    Produces b m t c (.completing p .announce)
      (some (.completed p (m.display p) (pr.endTime - pr.startTime))) none
  | absorb {p s shown e} : Produces b m t c (.notifying p s) (some (.absorbed p shown e)) none
  | propagate {p s shown e} : Produces b m t c (.notifying p s) (some (.propagated p shown e)) none
  | clean {p s target shown} :
    Produces b m t c (.notifying p s) (some (.chainPanicked target shown)) none
  | build {builder clock code m₁ reading} (hr : m.resume b t code c = (m₁, .finish reading)) :
    Produces b m t c (.building builder clock code) none
      (some (.make reading clock builder.policy builder.hook none))
  | chain {p f code m₁ reading pr} (hr : m.resume b t code c = (m₁, .finish reading))
    (hp : m.promise? p = some pr) :
    Produces b m t c (.chaining p f (some code)) none
      (some (.make reading pr.clock pr.policy none (some p)))

variable {b : Behaviour H} {m m' m'' : Machine H} {t : ThreadId} {c : Control} {n : Next H}

namespace Machine

namespace Grows

variable {r : Option LogRecord} {x : Option (Promise H)}

theorem of_eq (hl : m'.log = m.log) (hs : m'.promises.size = m.promises.size) :
    m.Grows m' none none :=
  ⟨⟨[], by simp [hl]⟩, by simp [hs], fun _ h => by cases h⟩

/-- What is added after nothing was is all that is added. -/
theorem trans (h : m.Grows m' none none) (h' : m'.Grows m'' r x) : m.Grows m'' r x := by
  obtain ⟨⟨es, hl⟩, hs, -⟩ := h
  obtain ⟨⟨es', hl'⟩, hs', hm'⟩ := h'
  have hsize : m'.promises.size = m.promises.size := by simpa using hs
  refine ⟨⟨es ++ es', ?_⟩, ?_, fun pr hx => ?_⟩
  · rw [hl', hl]
    simp
  · rw [hs', hsize]
  · rw [← hsize]
    exact hm' pr hx

theorem proceed {rest : List (Frame H)} (h : m.Grows m' r x) :
    m.Grows (m'.proceed t rest n) r x := by
  have hlog : (m'.proceed t rest n).log = m'.log := by cases n <;> rfl
  have hpromises : (m'.proceed t rest n).promises = m'.promises := by cases n <;> rfl
  obtain ⟨hl, hs, hm⟩ := h
  refine ⟨by rwa [hlog], by rwa [hpromises], fun pr hx => ?_⟩
  rw [promise?_proceed]
  exact hm pr hx

theorem of_resume {role : Role} {code : H.Code role} {a : Act H role}
    (h : m.resume b t code c = (m', a)) : m.Grows m' none none := by
  obtain ⟨rfl, -⟩ := Prod.mk.inj h
  exact ⟨⟨(b.resume m t role code c).events, by simp⟩, by simp, fun _ h => by cases h⟩

theorem of_record (r : LogRecord) : m.Grows (m.record r) (some r) none :=
  ⟨⟨[], by simp [Machine.record]⟩, rfl, fun _ h => by cases h⟩

theorem of_addPromise (pr : Promise H) : m.Grows (m.addPromise pr).1 none (some pr) := by
  refine ⟨⟨[], by simp [Machine.addPromise]⟩, by simp [Machine.addPromise], fun pr' h => ?_⟩
  cases h
  rw [promise?_addPromise, if_pos rfl]

end Grows

/-! ## Still moves -/

/-- The move adds neither a record nor a promise. -/
def Still (m : Machine H) (k : Move H) : Prop :=
  ∀ m' n, k = some (m', n) → m.Grows m' none none

theorem still_none : m.Still none := fun _ _ h => by cases h

theorem still_some (hl : m'.log = m.log) (hs : m'.promises.size = m.promises.size) :
    m.Still (some (m', n)) := fun _ _ h => by
  cases h
  exact .of_eq hl hs

/-- A step that at most changes a promise that there is. -/
theorem still_promise {p : PromiseId} {g : Promise H → Promise H} :
    m.Still (some (m.modifyPromise p g, n)) :=
  still_some rfl (by simp [modifyPromise])

theorem still_bind {α : Type} {x : Option α} {k : α → Move H} (h : ∀ a, m.Still (k a)) :
    m.Still (x.bind k) := fun m' n hx => by
  obtain ⟨a, -, ha⟩ := Option.bind_eq_some_iff.1 hx
  exact h a m' n ha

theorem still_runStage {k : Move H} (h : m.Still k) : m.Still (m.runStage c k) := fun m' n hk => by
  rcases runStage_eq_some hk with ⟨-, hk⟩ | ⟨x, -, hk⟩
  · exact h m' n hk
  · cases hk
    exact .of_eq rfl rfl

theorem still_runCode {r : Role} {code : H.Code r} {wrap : H.Code r → Frame H}
    {done : Machine H → r.Reply → Move H} (hd : ∀ (m₁ : Machine H) v, m₁.Still (done m₁ v)) :
    m.Still (m.runCode b t code c wrap done) := fun m' n h => by
  cases ran_of_runCode h with
  | call hr | stay hr | panic hr => exact .of_resume hr
  | finish hr hv => exact (Grows.of_resume hr).trans (hd _ _ m' n hv)

end Machine

open Machine

section

variable {p : PromiseId}

/-- All stages of a completion but the announcement make still moves. -/
theorem Completing.still_step {s : Completing H} (hs : s ≠ .announce) :
    m.Still (s.step b m t p c) := by
  cases s with
  | claim o =>
    refine still_runStage (still_bind fun pr => ?_)
    split
    · exact still_promise
    · exact still_some rfl rfl
  | store o =>
    refine still_runStage (still_bind fun pr => ?_)
    split
    · exact still_some rfl rfl
    · exact still_promise
  | stamp code => exact still_runCode fun m₁ v => still_bind fun pr => still_some rfl rfl
  | lockGate | lockWakers | lockListeners =>
    exact still_runStage (still_bind fun pr => still_bind fun _ => still_promise)
  | openLatch => exact still_runStage still_promise
  | notify => exact still_runStage (still_some rfl (by simp [modifyPromise, rouse]))
  | takeWakers | drain => exact still_runStage (still_bind fun pr => still_promise)
  | wake rest => cases rest <;> exact still_runStage (still_some rfl rfl)
  | waking code rest => exact still_runCode fun m₁ v => still_some rfl rfl
  | announce => exact absurd rfl hs
  | deliver rest => cases rest <;> exact still_runStage (still_some rfl rfl)
  | delivering rest =>
    intro m' n h
    simp only [step] at h
    split at h <;> cases h <;> exact .of_eq rfl rfl

theorem Registering.still_step {s : Registering H} {closing : Closing} :
    m.Still (s.step m t p closing c) := by
  cases s with
  | check l =>
    refine still_runStage (still_bind fun pr => ?_)
    split <;> exact still_some rfl rfl
  | lock l => exact still_runStage (still_bind fun pr => still_bind fun _ => still_promise)
  | enroll l =>
    refine still_runStage (still_bind fun pr => ?_)
    dsimp only
    split <;> exact still_promise
  | inline =>
    intro m' n h
    simp only [step] at h
    split at h <;> cases h <;> exact .of_eq rfl rfl

theorem Reading.still_step {limited : Bool} {s : Reading} : m.Still (s.step m t p limited c) := by
  refine still_runStage (still_bind fun pr => still_bind fun th => ?_)
  cases s with
  | lockParked | relockParked => exact still_bind fun _ => still_some rfl rfl
  | lockGate => exact still_bind fun _ => still_promise
  | sleep | unlockGate => exact still_promise
  | unpark r => cases r <;> exact still_some rfl rfl
  | fetch =>
    dsimp only
    split <;> exact still_some rfl rfl
  | asleep => exact still_none
  | _ => exact still_some rfl rfl

theorem Polling.still_step {w : WaitId} {waker : H.Closure .waker} {s : Polling} :
    m.Still (s.step m t w waker c) := by
  refine still_runStage (still_bind fun wait => still_bind fun pr => ?_)
  cases s with
  | lock => exact still_bind fun _ => still_promise
  | attempt | reread =>
    dsimp only
    split <;> exact still_some rfl rfl
  | register =>
    dsimp only
    split <;> exact still_some rfl (by simp [modifyPromise, modifyWait])

theorem Interrupting.still_step {u : ThreadId} {s : Interrupting} :
    m.Still (s.step m t u c) := by
  refine still_runStage ?_
  cases s with
  | raise => exact still_some rfl rfl
  | notify => exact still_some rfl (by simp [modifyPromise, rouse])
  | lock => exact still_bind fun th => still_bind fun _ => still_some rfl rfl
  | copy => exact still_bind fun th => still_some rfl rfl
  | next latches =>
    cases latches with
    | nil => exact still_some rfl rfl
    | cons q rest => exact still_bind fun pr => still_bind fun _ => still_promise

/-- Whatever makes no promise, announces no completion and notifies no listener makes still
moves. -/
theorem Frame.still_step {f : Frame H} (hbuild : ∀ builder clock code,
      f ≠ .building builder clock code) (hchain : ∀ p g code, f ≠ .chaining p g (some code))
    (hcomplete : ∀ p, f ≠ .completing p .announce) (hnotify : ∀ p s, f ≠ .notifying p s) :
    m.Still (f.step b m t c) := by
  cases f with
  | task code | timing code => exact still_runCode fun m₁ v => still_some rfl rfl
  | building builder clock code => exact absurd rfl (hbuild builder clock code)
  | completing p s => exact s.still_step fun hs => hcomplete p (by rw [hs])
  | notifying p s => exact absurd rfl (hnotify p s)
  | registering p s closing => exact s.still_step
  | chaining p f code =>
    cases code with
    | none => exact still_runStage (still_bind fun pr => still_some rfl rfl)
    | some code => exact absurd rfl (hchain p f code)
  | measuring p code =>
    cases code with
    | none =>
      refine still_runStage (still_bind fun pr => ?_)
      split <;> exact still_some rfl rfl
    | some code => exact still_runCode fun m₁ v => still_bind fun pr => still_some rfl rfl
  | counting p s | removing p key s =>
    refine still_runStage (still_bind fun pr => ?_)
    cases s with
    | lock => exact still_bind fun _ => still_promise
    | work => exact still_promise
  | cancelling p code =>
    cases code with
    | none =>
      refine still_runStage (still_bind fun pr => ?_)
      split <;> exact still_some rfl rfl
    | some code => exact still_runCode fun m₁ v => still_some rfl rfl
  | reading p limited s => exact s.still_step
  | waiting p => exact still_runStage (still_some rfl rfl)
  | polling w waker s => exact s.still_step
  | dropping w =>
    refine still_runStage (still_bind fun wait => ?_)
    dsimp only
    split <;> exact still_some rfl rfl
  | interrupting u s => exact s.still_step
  | clearing u tell => exact still_runStage (still_bind fun th => still_some rfl rfl)
  | judging policy e code =>
    cases code with
    | none =>
      refine still_runStage ?_
      cases policy <;> exact still_some rfl rfl
    | some code => exact still_runCode fun m₁ v => still_some rfl rfl
  | spawning => exact still_runStage (still_some rfl rfl)
  | forking u work =>
    refine still_runStage (still_bind fun th => ?_)
    split
    · exact still_some rfl rfl
    · exact still_none

/-! ## Moves that add something -/

/-- A step adds a record and a promise that its stage produces. -/
def Frame.Yields (b : Behaviour H) (m : Machine H) (t : ThreadId) (c : Control) (f : Frame H)
    (m' : Machine H) : Prop :=
  ∃ r x, m.Grows m' r x ∧ f.Produces b m t c r x

theorem Frame.yields_of_grows {f : Frame H} (h : m.Grows m' none none) : f.Yields b m t c m' :=
  ⟨none, none, h, .nothing⟩

/-- A failure of a listener is logged as it has been judged. -/
theorem Notifying.yields_conclude {s : Notifying H} (hm : m.Grows m'' none none)
    (e : ListenerError) (d : Disposition) :
    (Frame.notifying p s).Yields b m t c (m''.conclude p e d).1 := by
  cases d with
  | absorb => exact ⟨_, _, hm.trans (.of_record _), .absorb⟩
  | propagate => exact ⟨_, _, hm.trans (.of_record _), .propagate⟩

theorem Notifying.yields_of_step {s : Notifying H} (h : s.step b m t p c = some (m', n)) :
    (Frame.notifying p s).Yields b m t c m' := by
  have hstill : m.Still (some (m', n)) → (Frame.notifying p s).Yields b m t c m' := fun hk =>
    Frame.yields_of_grows (hk m' n rfl)
  cases s with
  | listening code | observing code =>
    exact Frame.yields_of_grows (still_runCode (fun m₁ v => still_some rfl rfl) m' n h)
  | transforming target code =>
    simp only [step] at h
    split at h <;> rename_i hr <;> cases h
    · exact Frame.yields_of_grows (.of_resume hr)
    · exact Frame.yields_of_grows (.of_resume hr)
    · exact Frame.yields_of_grows (.of_resume hr)
    · exact ⟨_, _, (Grows.of_resume hr).trans (.of_record _), .clean⟩
  | relaying target | cleaning target x =>
    simp only [step] at h
    split at h <;> cases h <;> exact Frame.yields_of_grows (.of_eq rfl rfl)
  | settle e =>
    rcases runStage_eq_some h with ⟨-, h⟩ | ⟨x, -, h⟩
    · obtain ⟨pr, -, h⟩ := Option.bind_eq_some_iff.1 h
      split at h
      · cases h
        exact Frame.yields_of_grows (.of_eq rfl rfl)
      · obtain ⟨d, -, hd⟩ := Option.map_eq_some_iff.1 h
        rw [show m' = (m.conclude p e d).1 by rw [hd]]
        exact yields_conclude (.of_eq rfl rfl) e d
    · cases h
      exact Frame.yields_of_grows (.of_eq rfl rfl)
  | settling e code =>
    cases ran_of_runCode h with
    | call hr | stay hr | panic hr => exact Frame.yields_of_grows (.of_resume hr)
    | @finish m₁ d _ _ hr hd =>
      rw [show m' = (m₁.conclude p e d).1 by rw [Option.some.inj hd]]
      exact yields_conclude (.of_resume hr) e d

/-- Every step of every call adds only what its stage produces. -/
theorem Frame.produces_of_step {f : Frame H} (h : f.step b m t c = some (m', n)) :
    f.Yields b m t c m' := by
  -- Four kinds of stage produce something. They are taken first; the rest is still.
  by_cases hnotify : ∃ p s, f = .notifying p s
  · obtain ⟨p, s, rfl⟩ := hnotify
    exact s.yields_of_step h
  by_cases hbuild : ∃ builder clock code, f = .building builder clock code
  · obtain ⟨builder, clock, code, rfl⟩ := hbuild
    replace h : builder.step b m t clock c code = _ := h
    cases ran_of_runCode h with
    | call hr | stay hr | panic hr => exact yields_of_grows (.of_resume hr)
    | finish hr hd =>
      cases hd
      exact ⟨_, _, (Grows.of_resume hr).trans (.of_addPromise _), .build hr⟩
  by_cases hchain : ∃ p g code, f = .chaining p g (some code)
  · obtain ⟨p, g, code, rfl⟩ := hchain
    replace h : m.stepChaining b t p g c (some code) = _ := h
    cases ran_of_runCode h with
    | call hr | stay hr | panic hr => exact yields_of_grows (.of_resume hr)
    | finish hr hd =>
      obtain ⟨pr, hp, hd⟩ := Option.bind_eq_some_iff.1 hd
      cases hd
      rw [promise?, (alike_resume hr).promises] at hp
      exact ⟨_, _, (Grows.of_resume hr).trans (.of_addPromise _), .chain hr hp⟩
  by_cases hannounce : ∃ p, f = .completing p .announce
  · obtain ⟨p, rfl⟩ := hannounce
    replace h : Completing.announce.step b m t p c = _ := h
    rcases runStage_eq_some h with ⟨-, h⟩ | ⟨x, -, h⟩
    · obtain ⟨pr, hp, h⟩ := Option.bind_eq_some_iff.1 h
      cases h
      exact ⟨_, _, .of_record _, .announce hp⟩
    · cases h
      exact yields_of_grows (.of_eq rfl rfl)
  refine yields_of_grows (still_step (fun builder clock code hf => ?_) (fun p g code hf => ?_)
    (fun p hf => ?_) (fun p s hf => ?_) m' n h)
  · exact hbuild ⟨builder, clock, code, hf⟩
  · exact hchain ⟨p, g, code, hf⟩
  · exact hannounce ⟨p, hf⟩
  · exact hnotify ⟨p, s, hf⟩

end

end OneShot
