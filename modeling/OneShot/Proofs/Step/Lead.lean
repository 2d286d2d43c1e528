import OneShot.Proofs.Step.Code

/-!
# Where a call goes from a stage

A step of a call leads to another stage of the same call, puts another call on top of it, or ends
it. This module says which stages can follow one another and which calls a stage can make.

- **The same call** (`Frame.SameCall`), **calls made** (`Frame.Enters`).
- **Waiting** (`Frame.awaits`): the stages in which a call can have another call on top of it. Only
  these can be told of an answer or a panic.
- **All calls** (`Frame.leads_of_step`).
-/

namespace OneShot

variable {H : Host}

/-- Where the call at stage `f` is after a step, if it is still in progress. -/
def Next.own (f : Frame H) : Next H → Option (Frame H)
  | .goto g | .enter _ g => some g
  | .abort => some f
  | .answer _ | .throw _ => none

/-- The call that a step puts on top. -/
def Next.callee? : Next H → Option (Frame H)
  | .enter g _ => some g
  | _ => none

theorem Next.eq_enter {n : Next H} {g : Frame H} (h : n.callee? = some g) :
    ∃ f, n = .enter g f := by
  cases n <;> cases h
  exact ⟨_, rfl⟩

/-- Whether a call at this stage can have another call on top of it. -/
def Frame.awaits : Frame H → Bool
  | .completing _ (.delivering _) | .notifying _ (.relaying _) | .notifying _ (.cleaning _ _)
  | .registering _ .inline _ => true
  | f => f.code?.isSome

/-- Stages of one call. -/
inductive Frame.SameCall : Frame H → Frame H → Prop
  | task {k k'} : SameCall (.task k) (.task k')
  | building {builder clock k k'} :
    SameCall (.building builder clock k) (.building builder clock k')
  | completing {p s s'} : SameCall (.completing p s) (.completing p s')
  | notifying {p s s'} : SameCall (.notifying p s) (.notifying p s')
  | registering {p s s' closing} : SameCall (.registering p s closing) (.registering p s' closing)
  | chaining {p f k k'} : SameCall (.chaining p f k) (.chaining p f k')
  | chained {p f k d} :
    SameCall (.chaining p f k) (.registering p (.check (.chain f d)) (.derived d))
  | measuring {p k k'} : SameCall (.measuring p k) (.measuring p k')
  | counting {p s s'} : SameCall (.counting p s) (.counting p s')
  | cancelling {p k k'} : SameCall (.cancelling p k) (.cancelling p k')
  | reading {p limited s s'} : SameCall (.reading p limited s) (.reading p limited s')
  | polling {w waker s s'} : SameCall (.polling w waker s) (.polling w waker s')
  | dropped {w p key} : SameCall (.dropping w) (.removing p key .lock)
  | removing {p key s s'} : SameCall (.removing p key s) (.removing p key s')
  | interrupting {u s s'} : SameCall (.interrupting u s) (.interrupting u s')
  | timing {k k'} : SameCall (.timing k) (.timing k')
  | judging {policy e k k'} : SameCall (.judging policy e k) (.judging policy e k')

/-- Where the own steps of a call lead in the end. -/
inductive Frame.Becomes (g : Frame H) : Frame H → Prop
  | refl : Becomes g g
  | step {f f'} : Becomes g f → f.SameCall f' → Becomes g f'

/-- The calls that a stage can put on top of its own. -/
inductive Frame.Enters : Frame H → Frame H → Prop
  | code {f} {callee : Call H} (h : f.code?.isSome) : Enters f callee.frame
  | deliver {p l rest} : Enters (.completing p (.deliver (l :: rest))) (.notifying p (l.begin p))
  | check {p l closing} : Enters (.registering p (.check l) closing) (.notifying p (l.begin p))
  | enroll {p l closing} : Enters (.registering p (.enroll l) closing) (.notifying p (l.begin p))
  | transform {p target k o} :
    Enters (.notifying p (.transforming target k)) (.completing target (.claim o))

/-- What a step of the call at stage `f` can lead to. -/
inductive Frame.Leads (f : Frame H) : Next H → Prop
  | goto {g} (h : f.SameCall g) : Leads f (.goto g)
  | enter {callee g} (h : f.SameCall g) (ha : g.awaits = true) (hc : f.Enters callee) :
    Leads f (.enter callee g)
  | answer {a} : Leads f (.answer a)
  | throw {x} : Leads f (.throw x)
  | abort {p target x} (h : f = .notifying p (.cleaning target x)) : Leads f .abort

namespace Frame

variable {f g : Frame H} {n : Next H}

theorem Leads.sameCall (h : f.Leads n) (hg : n.own f = some g) : f = g ∨ f.SameCall g := by
  cases h with
  | goto hs | enter hs => cases hg; exact .inr hs
  | answer | throw => cases hg
  | abort => cases hg; exact .inl rfl

theorem Leads.enters (h : f.Leads n) (hg : n.callee? = some g) : f.Enters g := by
  cases h with
  | enter hs ha hc => cases hg; exact hc
  | goto | answer | throw | abort => cases hg

theorem SameCall.of_completing {p : PromiseId} {s : Completing H}
    (h : f.SameCall (.completing p s)) :
    ∃ s', f = .completing p s' := by
  cases h
  exact ⟨_, rfl⟩

theorem Becomes.of_completing {p : PromiseId} {s : Completing H}
    (h : f.Becomes (.completing p s)) : ∃ s', f = .completing p s' := by
  generalize hg : Frame.completing p s = g at h
  induction h generalizing s with
  | refl => exact ⟨s, hg.symm⟩
  | step _ hs ih =>
    subst hg
    obtain ⟨s', hs'⟩ := hs.of_completing
    exact ih hs'.symm

theorem Becomes.completing {p : PromiseId} {s : Completing H}
    (h : (Frame.completing p s).Becomes f) : ∃ s', f = .completing p s' := by
  induction h with
  | refl => exact ⟨s, rfl⟩
  | step _ hs ih =>
    obtain ⟨s', rfl⟩ := ih
    cases hs
    exact ⟨_, rfl⟩

theorem SameCall.of_notifying {p : PromiseId} {s : Notifying H} (h : f.SameCall (.notifying p s)) :
    ∃ s', f = .notifying p s' := by
  cases h
  exact ⟨_, rfl⟩

theorem Becomes.of_notifying {p : PromiseId} {s : Notifying H}
    (h : f.Becomes (.notifying p s)) : ∃ s', f = .notifying p s' := by
  generalize hg : Frame.notifying p s = g at h
  induction h generalizing s with
  | refl => exact ⟨s, hg.symm⟩
  | step _ hs ih =>
    subst hg
    obtain ⟨s', hs'⟩ := hs.of_notifying
    exact ih hs'.symm

theorem Becomes.notifying {p : PromiseId} {s : Notifying H}
    (h : (Frame.notifying p s).Becomes f) : ∃ s', f = .notifying p s' := by
  induction h with
  | refl => exact ⟨s, rfl⟩
  | step _ hs ih =>
    obtain ⟨s', rfl⟩ := ih
    cases hs
    exact ⟨_, rfl⟩

theorem SameCall.of_task {k : H.Code .task} (h : f.SameCall (.task k)) : ∃ k', f = .task k' := by
  cases h
  exact ⟨_, rfl⟩

theorem SameCall.of_chaining {p : PromiseId} {g : H.Closure .transform}
    {k : Option (H.Code .clock)} (h : f.SameCall (.chaining p g k)) :
    ∃ k', f = .chaining p g k' := by
  cases h
  exact ⟨_, rfl⟩

theorem SameCall.of_reading {p : PromiseId} {limited : Bool} {s : Reading}
    (h : f.SameCall (.reading p limited s)) : ∃ s', f = .reading p limited s' := by
  cases h
  exact ⟨_, rfl⟩

theorem SameCall.of_polling {w : WaitId} {waker : H.Closure .waker} {s : Polling}
    (h : f.SameCall (.polling w waker s)) : ∃ s', f = .polling w waker s' := by
  cases h
  exact ⟨_, rfl⟩

theorem SameCall.of_registering {p : PromiseId} {s : Registering H} {closing : Closing}
    (h : f.SameCall (.registering p s closing)) :
    (∃ s', f = .registering p s' closing) ∨ ∃ g k, f = .chaining p g k := by
  cases h with
  | registering => exact .inl ⟨_, rfl⟩
  | chained => exact .inr ⟨_, _, rfl⟩

theorem Becomes.of_registering {p : PromiseId} {s : Registering H} {closing : Closing}
    (h : f.Becomes (.registering p s closing)) :
    (∃ s', f = .registering p s' closing) ∨ ∃ g k, f = .chaining p g k := by
  have key : ∀ f', f.Becomes f' →
      (∃ s', f' = .registering p s' closing) ∨ (∃ g k, f' = .chaining p g k) →
      (∃ s', f = .registering p s' closing) ∨ ∃ g k, f = .chaining p g k := by
    intro f' hf'
    induction hf' with
    | refl => exact id
    | step _ hs ih =>
      rintro (⟨s', rfl⟩ | ⟨g, k, rfl⟩)
      · exact ih hs.of_registering
      · obtain ⟨k', hk⟩ := hs.of_chaining
        exact ih (.inr ⟨g, k', hk⟩)
  exact key _ h (.inl ⟨s, rfl⟩)

theorem SameCall.of_removing {p : PromiseId} {key : Nat} {s : Guarded}
    (h : f.SameCall (.removing p key s)) :
    (∃ s', f = .removing p key s') ∨ ∃ w, f = .dropping w := by
  cases h with
  | dropped => exact .inr ⟨_, rfl⟩
  | removing => exact .inl ⟨_, rfl⟩

theorem Enters.ne_removing {p : PromiseId} {key : Nat} {s : Guarded} (h : f.Enters g) :
    g ≠ .removing p key s := by
  cases h with
  | @code f callee hf => cases callee <;> exact nofun
  | deliver | check | enroll | transform => exact nofun

theorem Enters.of_registering {p : PromiseId} {s : Registering H} {closing : Closing}
    (h : f.Enters (.registering p s closing)) : ∃ l, s = .check l := by
  generalize hg : Frame.registering p s closing = g at h
  cases h with
  | @code f callee hf => cases callee <;> cases hg <;> exact ⟨_, rfl⟩
  | deliver | check | enroll | transform => cases hg

/-- Listeners are notified by the delivery of a completion and by their registrations. -/
theorem Enters.of_notifying {p : PromiseId} {s : Notifying H} (h : f.Enters (.notifying p s)) :
    ∃ l, s = l.begin p ∧ ((∃ rest, f = .completing p (.deliver (l :: rest))) ∨
      (∃ closing, f = .registering p (.check l) closing) ∨
      ∃ closing, f = .registering p (.enroll l) closing) := by
  generalize hg : Frame.notifying p s = g at h
  cases h with
  | @code f callee hf => cases callee <;> cases hg
  | deliver => cases hg; exact ⟨_, rfl, .inl ⟨_, rfl⟩⟩
  | check => cases hg; exact ⟨_, rfl, .inr (.inl ⟨_, rfl⟩)⟩
  | enroll => cases hg; exact ⟨_, rfl, .inr (.inr ⟨_, rfl⟩)⟩
  | transform => cases hg

theorem Enters.ne_task {k : H.Code .task} (h : f.Enters g) : g ≠ .task k := by
  cases h with
  | @code f callee hf => cases callee <;> exact nofun
  | deliver | check | enroll | transform => exact nofun

theorem Enters.of_completing {p : PromiseId} {s : Completing H} (h : f.Enters (.completing p s)) :
    ∃ o, s = .claim o := by
  generalize hg : Frame.completing p s = g at h
  cases h with
  | @code f callee hf => cases callee <;> cases hg; exact ⟨_, rfl⟩
  | deliver | check | enroll => cases hg
  | transform => cases hg; exact ⟨_, rfl⟩

end Frame

section

variable {b : Behaviour H} {m m' : Machine H} {t : ThreadId} {c : Control} {n : Next H}
  {f : Frame H}

open Machine

/-- A step of a call that runs code leads on with that code, apart from what follows when the code
returns. -/
theorem Frame.leads_of_runCode {r : Role} {code : H.Code r} {wrap : H.Code r → Frame H}
    {done : Machine H → r.Reply → Move H} (h : m.runCode b t code c wrap done = some (m', n))
    (hf : f.code?.isSome) (hw : ∀ k, f.SameCall (wrap k) ∧ (wrap k).awaits = true)
    (hd : ∀ m₁ v, done m₁ v = some (m', n) → f.Leads n) : f.Leads n := by
  cases ran_of_runCode h with
  | call hr => exact .enter (hw _).1 (hw _).2 (.code hf)
  | stay hr => exact .goto (hw _).1
  | finish hr hv => exact hd _ _ hv
  | panic hr => exact .throw

theorem Frame.leads_of_runStage {k : Move H} (h : m.runStage c k = some (m', n))
    (hk : k = some (m', n) → f.Leads n) : f.Leads n := by
  rcases runStage_eq_some h with ⟨-, h⟩ | ⟨x, -, h⟩
  · exact hk h
  · cases h
    exact .throw

open OneShot.Frame

theorem Completing.leads_of_step {p : PromiseId} {s : Completing H}
    (h : s.step b m t p c = some (m', n)) : (Frame.completing p s).Leads n := by
  cases s with
  | claim o =>
    refine leads_of_runStage h fun h => ?_
    obtain ⟨pr, -, h⟩ := Option.bind_eq_some_iff.1 h
    split at h <;> cases h
    · exact .goto .completing
    · exact .answer
  | store o =>
    refine leads_of_runStage h fun h => ?_
    obtain ⟨pr, -, h⟩ := Option.bind_eq_some_iff.1 h
    split at h <;> cases h
    · exact .throw
    · exact .goto .completing
  | stamp code =>
    refine leads_of_runCode h rfl (fun k => ⟨.completing, rfl⟩) fun m₁ v hd => ?_
    obtain ⟨pr, -, hd⟩ := Option.bind_eq_some_iff.1 hd
    cases hd
    exact .goto .completing
  | lockGate time | lockWakers | lockListeners =>
    refine leads_of_runStage h fun h => ?_
    obtain ⟨pr, -, h⟩ := Option.bind_eq_some_iff.1 h
    obtain ⟨_, -, h⟩ := Option.bind_eq_some_iff.1 h
    cases h
    exact .goto .completing
  | openLatch time | notify =>
    exact leads_of_runStage h fun h => by cases h; exact .goto .completing
  | takeWakers | announce | drain =>
    refine leads_of_runStage h fun h => ?_
    obtain ⟨pr, -, h⟩ := Option.bind_eq_some_iff.1 h
    cases h
    exact .goto .completing
  | wake rest =>
    cases rest <;> exact leads_of_runStage h fun h => by cases h; exact .goto .completing
  | waking code rest =>
    refine leads_of_runCode h rfl (fun k => ⟨.completing, rfl⟩) fun m₁ v hd => ?_
    cases hd
    exact .goto .completing
  | deliver rest =>
    cases rest with
    | nil => exact leads_of_runStage h fun h => by cases h; exact .answer
    | cons l rest =>
      exact leads_of_runStage h fun h => by cases h; exact .enter .completing rfl .deliver
  | delivering rest =>
    simp only [step] at h
    split at h <;> cases h
    · exact .goto .completing
    · exact .answer
    · exact .throw

theorem Machine.leads_conclude (p : PromiseId) (e : ListenerError) (d : Disposition) :
    f.Leads (m.conclude p e d).2 := by
  cases d <;> exact .answer

theorem Notifying.leads_ofResult {p : PromiseId} {s : Notifying H}
    (r : Except ListenerError Unit) : (Frame.notifying p s).Leads (Notifying.ofResult p r) := by
  cases r with
  | ok u => exact .answer
  | error e => exact .goto .notifying

theorem Notifying.leads_of_step {p : PromiseId} {s : Notifying H}
    (h : s.step b m t p c = some (m', n)) : (Frame.notifying p s).Leads n := by
  cases s with
  | listening code =>
    refine leads_of_runCode h rfl (fun k => ⟨.notifying, rfl⟩) fun m₁ v hd => ?_
    cases hd
    exact leads_ofResult v
  | observing code =>
    refine leads_of_runCode h rfl (fun k => ⟨.notifying, rfl⟩) fun m₁ v hd => ?_
    cases hd
    exact .answer
  | transforming target code =>
    simp only [step] at h
    split at h <;> cases h
    · exact .enter .notifying rfl (.code rfl)
    · exact .goto .notifying
    · exact .enter .notifying rfl .transform
    · exact .enter .notifying rfl .transform
  | relaying target =>
    simp only [step] at h
    split at h <;> cases h
    · exact leads_ofResult _
    · exact leads_ofResult _
    · exact .throw
  | cleaning target x =>
    simp only [step] at h
    split at h <;> cases h
    · exact .throw
    · exact .abort rfl
  | settle e =>
    refine leads_of_runStage h fun h => ?_
    obtain ⟨pr, -, h⟩ := Option.bind_eq_some_iff.1 h
    split at h
    · cases h
      exact .goto .notifying
    · obtain ⟨d, -, hd⟩ := Option.map_eq_some_iff.1 h
      rw [show n = (m.conclude p e d).2 by rw [hd]]
      exact leads_conclude p e d
  | settling e code =>
    refine leads_of_runCode h rfl (fun k => ⟨.notifying, rfl⟩) fun m₁ d hd => ?_
    rw [show n = (m₁.conclude p e d).2 by rw [Option.some.inj hd]]
    exact leads_conclude p e d

theorem Registering.leads_of_step {p : PromiseId} {s : Registering H} {closing : Closing}
    (h : s.step m t p closing c = some (m', n)) : (Frame.registering p s closing).Leads n := by
  cases s with
  | check l =>
    refine leads_of_runStage h fun h => ?_
    obtain ⟨pr, -, h⟩ := Option.bind_eq_some_iff.1 h
    split at h <;> cases h
    · exact .enter .registering rfl .check
    · exact .goto .registering
  | lock l =>
    refine leads_of_runStage h fun h => ?_
    obtain ⟨pr, -, h⟩ := Option.bind_eq_some_iff.1 h
    obtain ⟨_, -, h⟩ := Option.bind_eq_some_iff.1 h
    cases h
    exact .goto .registering
  | enroll l =>
    refine leads_of_runStage h fun h => ?_
    obtain ⟨pr, -, h⟩ := Option.bind_eq_some_iff.1 h
    dsimp only at h
    split at h
    · cases h
      exact .answer
    · rename_i l' hl
      cases h
      obtain rfl : l = l' := by rw [Registry.enroll_snd] at hl; split at hl <;> cases hl; rfl
      exact .enter .registering rfl .enroll
  | inline =>
    simp only [step] at h
    split at h <;> cases h
    · exact .answer
    · exact .throw

theorem Reading.leads_of_step {p : PromiseId} {limited : Bool} {s : Reading}
    (h : s.step m t p limited c = some (m', n)) :
    (Frame.reading p limited s : Frame H).Leads n := by
  refine leads_of_runStage h fun h => ?_
  obtain ⟨pr, -, h⟩ := Option.bind_eq_some_iff.1 h
  obtain ⟨th, -, h⟩ := Option.bind_eq_some_iff.1 h
  cases s with
  | peek | attempt | check late | checkFlag | park | sleep | unlockGate r =>
    cases h
    exact .goto .reading
  | lockParked | relockParked r | lockGate late =>
    obtain ⟨_, -, h⟩ := Option.bind_eq_some_iff.1 h
    cases h
    exact .goto .reading
  | asleep => cases h
  | unpark r =>
    cases r <;> cases h
    · exact .goto .reading
    · exact .answer
    · exact .answer
  | fetch =>
    dsimp only at h
    split at h <;> cases h
    · exact .answer
    · exact .throw

theorem Interrupting.leads_of_step {u : ThreadId} {s : Interrupting}
    (h : s.step m t u c = some (m', n)) : (Frame.interrupting u s : Frame H).Leads n := by
  refine leads_of_runStage h fun h => ?_
  cases s with
  | raise | notify p rest =>
    cases h
    exact .goto .interrupting
  | lock =>
    obtain ⟨th, -, h⟩ := Option.bind_eq_some_iff.1 h
    obtain ⟨_, -, h⟩ := Option.bind_eq_some_iff.1 h
    cases h
    exact .goto .interrupting
  | copy =>
    obtain ⟨th, -, h⟩ := Option.bind_eq_some_iff.1 h
    cases h
    exact .goto .interrupting
  | next latches =>
    cases latches with
    | nil => cases h; exact .answer
    | cons p rest =>
      obtain ⟨pr, -, h⟩ := Option.bind_eq_some_iff.1 h
      obtain ⟨gate, -, h⟩ := Option.bind_eq_some_iff.1 h
      cases h
      exact .goto .interrupting

theorem Polling.leads_of_step {w : WaitId} {waker : H.Closure .waker} {s : Polling}
    (h : s.step m t w waker c = some (m', n)) : (Frame.polling w waker s).Leads n := by
  refine leads_of_runStage h fun h => ?_
  obtain ⟨wait, -, h⟩ := Option.bind_eq_some_iff.1 h
  obtain ⟨pr, -, h⟩ := Option.bind_eq_some_iff.1 h
  cases s with
  | attempt =>
    dsimp only at h
    split at h <;> cases h
    · exact .answer
    · exact .goto .polling
  | lock =>
    obtain ⟨_, -, h⟩ := Option.bind_eq_some_iff.1 h
    cases h
    exact .goto .polling
  | register =>
    dsimp only at h
    split at h <;> cases h
    · exact .answer
    · exact .goto .polling
  | reread =>
    dsimp only at h
    split at h <;> cases h
    · exact .answer
    · exact .throw

/-- Every step of every call leads on in such a way. -/
theorem Frame.leads_of_step (h : f.step b m t c = some (m', n)) : f.Leads n := by
  cases f with
  | task code =>
    exact leads_of_runCode h rfl (fun k => ⟨.task, rfl⟩) fun m₁ v hd => by cases hd; exact .answer
  | building builder clock code =>
    exact leads_of_runCode h rfl (fun k => ⟨.building, rfl⟩) fun m₁ v hd => by
      cases hd; exact .answer
  | completing p s => exact s.leads_of_step h
  | notifying p s => exact s.leads_of_step h
  | registering p s closing => exact s.leads_of_step h
  | chaining p f code =>
    cases code with
    | none =>
      refine leads_of_runStage h fun h => ?_
      obtain ⟨pr, -, h⟩ := Option.bind_eq_some_iff.1 h
      cases h
      exact .goto .chaining
    | some code =>
      refine leads_of_runCode h rfl (fun k => ⟨.chaining, rfl⟩) fun m₁ v hd => ?_
      obtain ⟨pr, -, hd⟩ := Option.bind_eq_some_iff.1 hd
      cases hd
      exact .goto .chained
  | measuring p code =>
    cases code with
    | none =>
      refine leads_of_runStage h fun h => ?_
      obtain ⟨pr, -, h⟩ := Option.bind_eq_some_iff.1 h
      split at h <;> cases h
      · exact .answer
      · exact .goto .measuring
    | some code =>
      refine leads_of_runCode h rfl (fun k => ⟨.measuring, rfl⟩) fun m₁ v hd => ?_
      obtain ⟨pr, -, hd⟩ := Option.bind_eq_some_iff.1 hd
      cases hd
      exact .answer
  | counting p s =>
    refine leads_of_runStage h fun h => ?_
    obtain ⟨pr, -, h⟩ := Option.bind_eq_some_iff.1 h
    cases s with
    | lock =>
      obtain ⟨_, -, h⟩ := Option.bind_eq_some_iff.1 h
      cases h
      exact .goto .counting
    | work => cases h; exact .answer
  | cancelling p code =>
    cases code with
    | none =>
      refine leads_of_runStage h fun h => ?_
      obtain ⟨pr, -, h⟩ := Option.bind_eq_some_iff.1 h
      split at h <;> cases h
      · exact .answer
      · exact .goto .cancelling
    | some code =>
      exact leads_of_runCode h rfl (fun k => ⟨.cancelling, rfl⟩) fun m₁ v hd => by
        cases hd; exact .answer
  | reading p limited s => exact s.leads_of_step h
  | waiting p => exact leads_of_runStage h fun h => by cases h; exact .answer
  | polling w waker s => exact s.leads_of_step h
  | dropping w =>
    refine leads_of_runStage h fun h => ?_
    obtain ⟨wait, -, h⟩ := Option.bind_eq_some_iff.1 h
    dsimp only at h
    split at h <;> cases h
    · exact .answer
    · exact .goto .dropped
  | removing p key s =>
    refine leads_of_runStage h fun h => ?_
    obtain ⟨pr, -, h⟩ := Option.bind_eq_some_iff.1 h
    cases s with
    | lock =>
      obtain ⟨_, -, h⟩ := Option.bind_eq_some_iff.1 h
      cases h
      exact .goto .removing
    | work => cases h; exact .answer
  | interrupting u s => exact s.leads_of_step h
  | clearing u tell =>
    refine leads_of_runStage h fun h => ?_
    obtain ⟨th, -, h⟩ := Option.bind_eq_some_iff.1 h
    cases h
    exact .answer
  | timing code =>
    exact leads_of_runCode h rfl (fun k => ⟨.timing, rfl⟩) fun m₁ v hd => by
      cases hd; exact .answer
  | judging policy e code =>
    cases code with
    | none =>
      refine leads_of_runStage h fun h => ?_
      split at h
      · cases h
        exact .goto .judging
      · obtain ⟨d, -, hd⟩ := Option.map_eq_some_iff.1 h
        cases hd
        exact .answer
    | some code =>
      exact leads_of_runCode h rfl (fun k => ⟨.judging, rfl⟩) fun m₁ v hd => by
        cases hd; exact .answer
  | spawning => exact leads_of_runStage h fun h => by cases h; exact .answer
  | forking u work =>
    refine leads_of_runStage h fun h => ?_
    obtain ⟨th, -, h⟩ := Option.bind_eq_some_iff.1 h
    split at h <;> cases h
    exact .answer

end

end OneShot
