import OneShot.Proofs.Step.Code

/-!
# What a step changes

A step of a call changes at most one cell of one promise, one wait, or the stacks of other threads.
This module says once, for all calls, which steps change what; the invariants of the library are
derived from that and never open the steps again.

- **Cells** (`Promise.bare`, `Machine.cells?`): a promise with its guards given back. Taking a
  guard or giving it back changes no cell.
- **Changes** (`Promise.Change`, `Wait.Change`, `Stack.Change`): of one promise, one wait and the
  stack of one thread.
- **All calls** (`Frame.effect_of_step`): every step of every call makes such changes only.
-/

namespace OneShot

variable {H : Host}

/-- A promise with its guards given back. -/
def Promise.bare (pr : Promise H) : Promise H :=
  { pr with
    latch := { endTime := pr.latch.endTime }
    listeners := { data := pr.listeners.data }
    wakers := { data := pr.wakers.data } }

namespace Machine

/-- The cells of a promise. -/
def cells? (m : Machine H) (p : PromiseId) : Option (Promise H) := (m.promise? p).map Promise.bare

/-- The calls in progress on a thread and what the top one has to deal with: the thread without its
token. -/
def stack? (m : Machine H) (t : ThreadId) : Option (Control × List (Frame H)) :=
  (m.thread? t).map fun th => (th.control, th.frames)

end Machine

/-! ## Changes -/

/-- How a step may change the cells of promise `q`: from the call it belongs to, how its thread
goes on, and the cells before and after. -/
inductive Promise.Change (m : Machine H) (q : PromiseId) :
    Frame H → Next H → Option (Promise H) → Option (Promise H) → Prop
  | same {f n x} : Change m q f n x x
  | claim {o pr} (h : pr.status = .init) :
    Change m q (.completing q (.claim o)) (.goto (.completing q (.store o))) (some pr)
      (some { pr with status := o.status })
  | store {o n pr} (h : pr.outcome = none) :
    Change m q (.completing q (.store o)) n (some pr) (some { pr with outcome := some o })
  | openLatch {time n pr} :
    Change m q (.completing q (.openLatch time)) n (some pr) (some (pr.openLatch time))
  | takeWakers {n pr} :
    Change m q (.completing q .takeWakers) n (some pr)
      (some { pr with wakers := { data := pr.wakers.data.takeAll.1 } })
  | drain {n pr} :
    Change m q (.completing q .drain) n (some pr)
      (some { pr with listeners := { data := pr.listeners.data.drain.1 } })
  | enroll {l closing n pr} :
    Change m q (.registering q (.enroll l) closing) n (some pr)
      (some { pr with listeners := { data := (pr.listeners.data.enroll l pr.isDone).1 } })
  | register {w wait waker n pr} (hw : m.wait? w = some wait) (hq : wait.promise = q) :
    Change m q (.polling w waker .register) n (some pr)
      (some { pr with
        wakers := { data :=
          (pr.wakers.data.register H.sameTask wait.key waker pr.isDone).1 } })
  | remove {key n pr} :
    Change m q (.removing q key .work) n (some pr)
      (some { pr with wakers := { data := pr.wakers.data.remove key } })
  | make {f n reading clock policy hook origin} (h : q = m.promises.size)
    (ho : ∀ s, origin = some s → s < m.promises.size) :
    Change m q f n none (some (.make reading clock policy hook origin))

/-- How a step may change wait `v`. -/
inductive Wait.Change (m : Machine H) (v : WaitId) :
    Frame H → Next H → Option Wait → Option Wait → Prop
  | same {f n x} : Change m v f n x x
  | make {p n} (h : v = m.waits.size) : Change m v (.waiting p) n none (some { promise := p })
  | poll {waker n wait pr} (hp : m.cells? wait.promise = some pr) :
    Change m v (.polling v waker .register) n (some wait)
      (some { wait with
        key := (pr.wakers.data.register H.sameTask wait.key waker pr.isDone).2 })
  | drop {n wait} :
    Change m v (.dropping v) n (some wait) (some { wait with key := none, dropped := true })

/-- How a step may change the stack of a thread, apart from what its own call does next. -/
inductive Stack.Change (u : ThreadId) : Frame H → Next H → Option (Control × List (Frame H)) →
    Option (Control × List (Frame H)) → Prop
  | same {f n x} : Change u f n x x
  | rouse {f n k p limited rest} :
    Change u f n (some (k, .reading p limited .asleep :: rest))
      (some (k, .reading p limited (.lockGate false) :: rest))
  | spawn {f n} : Change u f n none (some (.ret .unit, []))
  | fork {work a k} :
    Change u (.forking u work) (.answer a) (some (k, []))
      (some (.go, [.task (H.invoke .task work ())]))

/-- What a step of a call does to the machine. -/
structure Frame.Effect (m : Machine H) (f : Frame H) (n : Next H) (m' : Machine H) : Prop where
  promise : ∀ q, Promise.Change m q f n (m.cells? q) (m'.cells? q)
  wait : ∀ v, Wait.Change m v f n (m.wait? v) (m'.wait? v)
  stack : ∀ u, Stack.Change u f n (m.stack? u) (m'.stack? u)
  aborted : m'.aborted = m.aborted

namespace Frame.Effect

variable {m m' : Machine H} {f : Frame H} {n : Next H}

/-! ## Steps of one kind -/

theorem of_alike (h : m.Alike m') : Effect m f n m' := by
  refine ⟨fun q => ?_, fun v => ?_, fun u => ?_, h.aborted⟩
  · rw [Machine.cells?, Machine.cells?, Machine.promise?, Machine.promise?, h.promises]
    exact .same
  · rw [Machine.wait?, Machine.wait?, h.waits]
    exact .same
  · rw [Machine.stack?, Machine.stack?, Machine.thread?, Machine.thread?, h.threads]
    exact .same

/-- A panic that passes a call changes nothing. -/
theorem of_runStage {c : Control} {k : Move H} (h : m.runStage c k = some (m', n))
    (hk : k = some (m', n) → Effect m f n m') : Effect m f n m' := by
  rcases Machine.runStage_eq_some h with ⟨-, h⟩ | ⟨x, -, h⟩
  · exact hk h
  · cases h
    exact of_alike (.refl m)

/-- A step that changes one promise. -/
theorem of_promise {p : PromiseId} {g : Promise H → Promise H}
    (h : ∀ pr, m.promise? p = some pr →
      Promise.Change m p f n (some pr.bare) (some (g pr).bare)) :
    Effect m f n (m.modifyPromise p g) := by
  refine ⟨fun q => ?_, fun v => .same, fun u => .same, rfl⟩
  simp only [Machine.cells?, Machine.promise?_modifyPromise]
  split
  · rename_i hq
    subst hq
    cases hp : m.promise? p with
    | none => exact .same
    | some pr => exact h pr hp
  · exact .same

/-- A step that changes one promise, which it has looked up. -/
theorem of_found {p : PromiseId} {pr : Promise H} {g : Promise H → Promise H}
    (hp : m.promise? p = some pr)
    (h : Promise.Change m p f n (some pr.bare) (some (g pr).bare)) :
    Effect m f n (m.modifyPromise p g) :=
  of_promise fun pr' hp' => by rw [hp] at hp'; cases hp'; exact h

/-- A guard of a promise is taken or given back. -/
theorem of_guard {p : PromiseId} {g : Promise H → Promise H} (h : ∀ pr, (g pr).bare = pr.bare) :
    Effect m f n (m.modifyPromise p g) :=
  of_promise fun pr _ => by rw [h]; exact .same

theorem of_token {u : ThreadId} {g : Thread H → Thread H}
    (h : ∀ th, (g th).control = th.control ∧ (g th).frames = th.frames) :
    Effect m f n (m.modifyThread u g) := by
  refine ⟨fun q => .same, fun v => .same, fun v => ?_, rfl⟩
  simp only [Machine.stack?, Machine.thread?_modifyThread]
  split
  · cases m.thread? v with
    | none => exact .same
    | some th => simpa [h] using Stack.Change.same
  · exact .same

/-- The sleepers of a latch are woken and its gate is given back. -/
theorem of_rouse {p : PromiseId} {g : Promise H → Promise H} (h : ∀ pr, (g pr).bare = pr.bare) :
    Effect m f n ((m.rouse p).modifyPromise p g) := by
  have hg := of_guard (m := m) (f := f) (n := n) (p := p) h
  refine ⟨hg.promise, fun v => .same, fun u => ?_, rfl⟩
  simp only [Machine.stack?, Machine.thread?_modifyPromise, Machine.thread?_rouse]
  cases m.thread? u with
  | none => exact .same
  | some th =>
    simp only [Option.map_some, Thread.rouse]
    split
    · rename_i hs
      split
      · rw [hs]; exact .rouse
      · exact .same
    · exact .same

theorem of_addPromise {reading : UInt64} {clock : H.Closure .clock} {policy : Policy H}
    {hook : Option (H.Closure .hook)} {origin : Option PromiseId} (ha : m.Alike m')
    (ho : ∀ s, origin = some s → s < m.promises.size) :
    Effect m f n (m'.addPromise (.make reading clock policy hook origin)).1 := by
  have he := of_alike (f := f) (n := n) ha
  refine ⟨fun q => ?_, he.wait, he.stack, ha.aborted⟩
  simp only [Machine.cells?, Machine.promise?_addPromise, ha.promises]
  split
  · rename_i hq
    rw [hq, Machine.promise?_size]
    exact .make rfl ho
  · rw [Machine.promise?, Machine.promise?, ha.promises]
    exact .same

theorem of_addWait {p : PromiseId} {w : Wait} (hw : w = { promise := p }) :
    Effect m (.waiting p) n (m.addWait w).1 := by
  refine ⟨fun q => .same, fun v => ?_, fun u => .same, rfl⟩
  rw [Machine.wait?_addWait]
  split
  · rename_i hv
    have hn : m.wait? v = none := by simp [Machine.wait?, hv]
    rw [hn, hw]
    exact .make hv
  · exact .same

/-- A step that changes one wait. -/
theorem of_wait {w : WaitId} {g : Wait → Wait}
    (h : ∀ wait, Wait.Change m w f n (some wait) (some (g wait))) :
    Effect m f n (m.modifyWait w g) := by
  refine ⟨fun q => .same, fun v => ?_, fun u => .same, rfl⟩
  rw [Machine.wait?_modifyWait]
  split
  · rename_i hv
    subst hv
    cases m.wait? w with
    | none => exact .same
    | some wait => exact h wait
  · exact .same

/-- A poll registers its waker with the promise, and the wait notes the key. -/
theorem of_register {w : WaitId} {wait : Wait} {waker : H.Closure .waker} {pr : Promise H}
    (hw : m.wait? w = some wait) (hp : m.promise? wait.promise = some pr)
    (hm : m' = ((m.modifyPromise wait.promise fun pr' => { pr' with
        wakers := pr'.wakers.release
          (pr.wakers.data.register H.sameTask wait.key waker pr.isDone).1 }).modifyWait w
        fun wait' => { wait' with
          key := (pr.wakers.data.register H.sameTask wait.key waker pr.isDone).2 })) :
    Effect m (.polling w waker .register) n m' := by
  subst hm
  have hc : Wait.Change m w (.polling w waker .register) n (some wait) (some { wait with
      key := (pr.bare.wakers.data.register H.sameTask wait.key waker pr.bare.isDone).2 }) :=
    .poll (by simp [Machine.cells?, hp])
  refine ⟨(of_found hp (.register hw rfl)).promise, fun v => ?_, fun u => .same, rfl⟩
  rw [Machine.wait?_modifyWait]
  split
  · rename_i hv
    subst hv
    rw [Machine.wait?_modifyPromise, hw]
    exact hc
  · exact .same

theorem of_fork {u : ThreadId} {work : H.Closure .task} {th : Thread H} {a : Answer}
    (hu : m.thread? u = some th) (hi : th.isIdle = true) :
    Effect m (.forking u work) (.answer a)
      (m.modifyThread u fun th =>
        { th with control := .go, frames := [.task (H.invoke .task work ())] }) := by
  refine ⟨fun q => .same, fun v => .same, fun v => ?_, rfl⟩
  simp only [Machine.stack?, Machine.thread?_modifyThread]
  split
  · rename_i hv
    subst hv
    rw [hu]
    have hf : th.frames = [] := List.isEmpty_iff.1 hi
    simp only [Option.map_some, hf]
    exact .fork
  · exact .same

theorem of_addThread : Effect m f n m.addThread.1 := by
  refine ⟨fun q => .same, fun v => .same, fun u => ?_, rfl⟩
  simp only [Machine.stack?, Machine.thread?_addThread]
  split
  · rename_i hu
    have hn : m.thread? u = none := by simp [Machine.thread?, hu]
    rw [hn]
    exact .spawn
  · exact .same

end Frame.Effect

/-! ## Steps of each call -/

section

variable {b : Behaviour H} {m m' : Machine H} {t : ThreadId} {c : Control} {n : Next H}

open Frame.Effect Machine

theorem Completing.effect_of_step {p : PromiseId} {s : Completing H}
    (h : s.step b m t p c = some (m', n)) : Frame.Effect m (.completing p s) n m' := by
  cases s with
  | claim o =>
    refine of_runStage h fun h => ?_
    obtain ⟨pr, hp, h⟩ := Option.bind_eq_some_iff.1 h
    unfold Promise.claim at h
    by_cases hs : pr.status = .init
    · simp only [if_pos hs] at h
      cases h
      exact of_found hp (.claim hs)
    · simp only [if_neg hs] at h
      cases h
      exact of_alike (.refl m)
  | store o =>
    refine of_runStage h fun h => ?_
    obtain ⟨pr, hp, h⟩ := Option.bind_eq_some_iff.1 h
    split at h
    · cases h
      exact of_alike (.refl m)
    · rename_i ho
      cases h
      exact of_found hp (.store (show pr.outcome = none by simpa using ho))
  | stamp code =>
    cases ran_of_runCode h with
    | call hr | stay hr | panic hr => exact of_alike (alike_resume hr)
    | finish hr hd =>
      obtain ⟨pr, -, hd⟩ := Option.bind_eq_some_iff.1 hd
      cases hd
      exact of_alike (alike_resume hr)
  | lockGate time =>
    refine of_runStage h fun h => ?_
    obtain ⟨pr, -, h⟩ := Option.bind_eq_some_iff.1 h
    obtain ⟨gate, -, h⟩ := Option.bind_eq_some_iff.1 h
    cases h
    exact of_guard fun _ => rfl
  | openLatch time =>
    refine of_runStage h fun h => ?_
    cases h
    exact of_promise fun _ _ => .openLatch
  | notify =>
    refine of_runStage h fun h => ?_
    cases h
    exact of_rouse fun _ => rfl
  | lockWakers =>
    refine of_runStage h fun h => ?_
    obtain ⟨pr, hp, h⟩ := Option.bind_eq_some_iff.1 h
    obtain ⟨wakers, hw, h⟩ := Option.bind_eq_some_iff.1 h
    cases h
    obtain ⟨-, rfl⟩ := Mutex.acquire?_eq_some_iff.1 hw
    exact of_found hp .same
  | takeWakers =>
    refine of_runStage h fun h => ?_
    obtain ⟨pr, hp, h⟩ := Option.bind_eq_some_iff.1 h
    cases h
    exact of_found hp .takeWakers
  | wake rest =>
    cases rest <;> exact of_runStage h fun h => by cases h; exact of_alike (.refl m)
  | waking code rest =>
    cases ran_of_runCode h with
    | call hr | stay hr | panic hr => exact of_alike (alike_resume hr)
    | finish hr hd => cases hd; exact of_alike (alike_resume hr)
  | announce =>
    refine of_runStage h fun h => ?_
    obtain ⟨pr, -, h⟩ := Option.bind_eq_some_iff.1 h
    cases h
    exact of_alike (.record (.refl m) _)
  | lockListeners =>
    refine of_runStage h fun h => ?_
    obtain ⟨pr, hp, h⟩ := Option.bind_eq_some_iff.1 h
    obtain ⟨listeners, hl, h⟩ := Option.bind_eq_some_iff.1 h
    cases h
    obtain ⟨-, rfl⟩ := Mutex.acquire?_eq_some_iff.1 hl
    exact of_found hp .same
  | drain =>
    refine of_runStage h fun h => ?_
    obtain ⟨pr, hp, h⟩ := Option.bind_eq_some_iff.1 h
    cases h
    exact of_found hp .drain
  | deliver rest =>
    cases rest <;> exact of_runStage h fun h => by cases h; exact of_alike (.refl m)
  | delivering rest =>
    simp only [step] at h
    split at h <;> cases h <;> exact of_alike (.refl m)

theorem alike_conclude (m : Machine H) (p : PromiseId) (e : ListenerError) (d : Disposition) :
    m.Alike (m.conclude p e d).1 := by
  cases d <;> exact .record (.refl m) _

theorem Notifying.alike_of_step {p : PromiseId} {s : Notifying H}
    (h : s.step b m t p c = some (m', n)) : m.Alike m' := by
  cases s with
  | listening code | observing code =>
    cases ran_of_runCode h with
    | call hr | stay hr | panic hr => exact alike_resume hr
    | finish hr hd => cases hd; exact alike_resume hr
  | transforming target code =>
    simp only [step] at h
    split at h <;> rename_i hr <;> cases h
    · exact alike_resume hr
    · exact alike_resume hr
    · exact alike_resume hr
    · exact (alike_resume hr).record _
  | relaying target =>
    simp only [step] at h
    split at h <;> cases h <;> exact .refl m
  | cleaning target x =>
    simp only [step] at h
    split at h <;> cases h <;> exact .refl m
  | settle e =>
    rcases runStage_eq_some h with ⟨-, h⟩ | ⟨x, -, h⟩
    · obtain ⟨pr, hp, h⟩ := Option.bind_eq_some_iff.1 h
      split at h
      · cases h
        exact .refl m
      · obtain ⟨d, -, hd⟩ := Option.map_eq_some_iff.1 h
        rw [show m' = (m.conclude p e d).1 by rw [hd]]
        exact alike_conclude m p e d
    · cases h
      exact .refl m
  | settling e code =>
    cases ran_of_runCode h with
    | call hr | stay hr | panic hr => exact alike_resume hr
    | @finish m₁ d _ _ hr hd =>
      rw [show m' = (m₁.conclude p e d).1 by rw [Option.some.inj hd]]
      exact (alike_resume hr).trans (alike_conclude m₁ p e d)

theorem Notifying.effect_of_step {p : PromiseId} {s : Notifying H}
    (h : s.step b m t p c = some (m', n)) : Frame.Effect m (.notifying p s) n m' :=
  of_alike (alike_of_step h)

theorem Registering.effect_of_step {p : PromiseId} {s : Registering H} {closing : Closing}
    (h : s.step m t p closing c = some (m', n)) :
    Frame.Effect m (.registering p s closing) n m' := by
  cases s with
  | check l =>
    refine of_runStage h fun h => ?_
    obtain ⟨pr, -, h⟩ := Option.bind_eq_some_iff.1 h
    split at h <;> cases h <;> exact of_alike (.refl m)
  | lock l =>
    refine of_runStage h fun h => ?_
    obtain ⟨pr, hp, h⟩ := Option.bind_eq_some_iff.1 h
    obtain ⟨listeners, hl, h⟩ := Option.bind_eq_some_iff.1 h
    cases h
    obtain ⟨-, rfl⟩ := Mutex.acquire?_eq_some_iff.1 hl
    exact of_found hp .same
  | enroll l =>
    refine of_runStage h fun h => ?_
    obtain ⟨pr, hp, h⟩ := Option.bind_eq_some_iff.1 h
    dsimp only at h
    split at h <;> cases h <;> exact of_found hp .enroll
  | inline =>
    simp only [step] at h
    split at h <;> cases h <;> exact of_alike (.refl m)

theorem Builder.effect_of_step {builder : Builder H} {clock : H.Closure .clock}
    {code : H.Code .clock} (h : builder.step b m t clock c code = some (m', n)) :
    Frame.Effect m (.building builder clock code) n m' := by
  cases ran_of_runCode h with
  | call hr | stay hr | panic hr => exact of_alike (alike_resume hr)
  | finish hr hd => cases hd; exact of_addPromise (alike_resume hr) nofun

theorem Frame.effect_of_stepChaining {p : PromiseId} {f : H.Closure .transform}
    {code : Option (H.Code .clock)} (h : m.stepChaining b t p f c code = some (m', n)) :
    Frame.Effect m (.chaining p f code) n m' := by
  cases code with
  | none =>
    refine of_runStage h fun h => ?_
    obtain ⟨pr, -, h⟩ := Option.bind_eq_some_iff.1 h
    cases h
    exact of_alike (.refl m)
  | some code =>
    cases ran_of_runCode h with
    | call hr | stay hr | panic hr => exact of_alike (alike_resume hr)
    | finish hr hd =>
      obtain ⟨pr, hp, hd⟩ := Option.bind_eq_some_iff.1 hd
      cases hd
      have ha := alike_resume hr
      rw [Machine.promise?, ha.promises] at hp
      refine of_addPromise ha fun s hs => ?_
      obtain rfl := Option.some.inj hs
      exact (Array.getElem?_eq_some_iff.1 hp).1

theorem Machine.alike_of_stepMeasuring {p : PromiseId} {code : Option (H.Code .clock)}
    (h : m.stepMeasuring b t p c code = some (m', n)) : m.Alike m' := by
  cases code with
  | none =>
    rcases runStage_eq_some h with ⟨-, h⟩ | ⟨x, -, h⟩
    · obtain ⟨pr, -, h⟩ := Option.bind_eq_some_iff.1 h
      split at h <;> cases h <;> exact .refl m
    · cases h
      exact .refl m
  | some code =>
    cases ran_of_runCode h with
    | call hr | stay hr | panic hr => exact alike_resume hr
    | finish hr hd =>
      obtain ⟨pr, -, hd⟩ := Option.bind_eq_some_iff.1 hd
      cases hd
      exact alike_resume hr

theorem Frame.effect_of_stepCounting {p : PromiseId} {s : Guarded}
    (h : m.stepCounting t p c s = some (m', n)) : Frame.Effect m (.counting p s) n m' := by
  refine of_runStage h fun h => ?_
  obtain ⟨pr, hp, h⟩ := Option.bind_eq_some_iff.1 h
  cases s with
  | lock =>
    obtain ⟨listeners, hl, h⟩ := Option.bind_eq_some_iff.1 h
    cases h
    obtain ⟨-, rfl⟩ := Mutex.acquire?_eq_some_iff.1 hl
    exact of_found hp .same
  | work =>
    cases h
    exact of_found hp .same

theorem Machine.alike_of_stepCancelling {p : PromiseId} {code : Option (H.Code .hook)}
    (h : m.stepCancelling b t p c code = some (m', n)) : m.Alike m' := by
  cases code with
  | none =>
    rcases runStage_eq_some h with ⟨-, h⟩ | ⟨x, -, h⟩
    · obtain ⟨pr, -, h⟩ := Option.bind_eq_some_iff.1 h
      split at h <;> cases h <;> exact .refl m
    · cases h
      exact .refl m
  | some code =>
    cases ran_of_runCode h with
    | call hr | stay hr | panic hr => exact alike_resume hr
    | finish hr hd => cases hd; exact alike_resume hr

theorem Reading.effect_of_step {p : PromiseId} {limited : Bool} {s : Reading}
    (h : s.step m t p limited c = some (m', n)) :
    Frame.Effect m (.reading p limited s) n m' := by
  refine of_runStage h fun h => ?_
  obtain ⟨pr, hp, h⟩ := Option.bind_eq_some_iff.1 h
  obtain ⟨th, ht, h⟩ := Option.bind_eq_some_iff.1 h
  cases s with
  | peek | attempt | check late | checkFlag => cases h; exact of_alike (.refl m)
  | lockParked | relockParked r =>
    obtain ⟨parked, -, h⟩ := Option.bind_eq_some_iff.1 h
    cases h
    exact of_token fun _ => ⟨rfl, rfl⟩
  | park => cases h; exact of_token fun _ => ⟨rfl, rfl⟩
  | lockGate late =>
    obtain ⟨gate, -, h⟩ := Option.bind_eq_some_iff.1 h
    cases h
    exact of_guard fun _ => rfl
  | sleep | unlockGate r => cases h; exact of_guard fun _ => rfl
  | asleep => cases h
  | unpark r => cases r <;> cases h <;> exact of_token fun _ => ⟨rfl, rfl⟩
  | fetch =>
    dsimp only at h
    split at h <;> cases h <;> exact of_alike (.refl m)

theorem Interrupting.effect_of_step {u : ThreadId} {s : Interrupting}
    (h : s.step m t u c = some (m', n)) : Frame.Effect m (.interrupting u s) n m' := by
  refine of_runStage h fun h => ?_
  cases s with
  | raise => cases h; exact of_token fun _ => ⟨rfl, rfl⟩
  | lock =>
    obtain ⟨th, -, h⟩ := Option.bind_eq_some_iff.1 h
    obtain ⟨parked, -, h⟩ := Option.bind_eq_some_iff.1 h
    cases h
    exact of_token fun _ => ⟨rfl, rfl⟩
  | copy =>
    obtain ⟨th, -, h⟩ := Option.bind_eq_some_iff.1 h
    cases h
    exact of_token fun _ => ⟨rfl, rfl⟩
  | next latches =>
    cases latches with
    | nil => cases h; exact of_alike (.refl m)
    | cons p rest =>
      obtain ⟨pr, -, h⟩ := Option.bind_eq_some_iff.1 h
      obtain ⟨gate, -, h⟩ := Option.bind_eq_some_iff.1 h
      cases h
      exact of_guard fun _ => rfl
  | notify p rest => cases h; exact of_rouse fun _ => rfl

theorem Polling.effect_of_step {w : WaitId} {waker : H.Closure .waker} {s : Polling}
    (h : s.step m t w waker c = some (m', n)) : Frame.Effect m (.polling w waker s) n m' := by
  refine of_runStage h fun h => ?_
  obtain ⟨wait, hw, h⟩ := Option.bind_eq_some_iff.1 h
  obtain ⟨pr, hp, h⟩ := Option.bind_eq_some_iff.1 h
  cases s with
  | attempt | reread =>
    dsimp only at h
    split at h <;> cases h <;> exact of_alike (.refl m)
  | lock =>
    obtain ⟨wakers, hl, h⟩ := Option.bind_eq_some_iff.1 h
    cases h
    obtain ⟨-, rfl⟩ := Mutex.acquire?_eq_some_iff.1 hl
    exact of_found hp .same
  | register => exact of_register hw hp (by dsimp only at h; split at h <;> cases h <;> rfl)

theorem Frame.effect_of_stepDropping {w : WaitId} (h : m.stepDropping w c = some (m', n)) :
    Frame.Effect m (.dropping w) n m' := by
  refine of_runStage h fun h => ?_
  obtain ⟨wait, hw, h⟩ := Option.bind_eq_some_iff.1 h
  dsimp only at h
  split at h <;> cases h <;> exact of_wait fun _ => .drop

theorem Frame.effect_of_stepRemoving {p : PromiseId} {key : Nat} {s : Guarded}
    (h : m.stepRemoving t p key c s = some (m', n)) :
    Frame.Effect m (.removing p key s) n m' := by
  refine of_runStage h fun h => ?_
  obtain ⟨pr, hp, h⟩ := Option.bind_eq_some_iff.1 h
  cases s with
  | lock =>
    obtain ⟨wakers, hl, h⟩ := Option.bind_eq_some_iff.1 h
    cases h
    obtain ⟨-, rfl⟩ := Mutex.acquire?_eq_some_iff.1 hl
    exact of_found hp .same
  | work =>
    cases h
    exact of_found hp .remove

theorem Machine.alike_of_stepJudging {policy : Policy H} {e : ListenerError}
    {code : Option (H.Code .policy)} (h : m.stepJudging b t policy e c code = some (m', n)) :
    m.Alike m' := by
  cases code with
  | none =>
    rcases runStage_eq_some h with ⟨-, h⟩ | ⟨x, -, h⟩
    · split at h
      · cases h
        exact .refl m
      · obtain ⟨d, -, hd⟩ := Option.map_eq_some_iff.1 h
        cases hd
        exact .refl m
    · cases h
      exact .refl m
  | some code =>
    cases ran_of_runCode h with
    | call hr | stay hr | panic hr => exact alike_resume hr
    | finish hr hd => cases hd; exact alike_resume hr

theorem Frame.effect_of_stepForking {u : ThreadId} {work : H.Closure .task}
    (h : m.stepForking u work c = some (m', n)) : Frame.Effect m (.forking u work) n m' := by
  refine of_runStage h fun h => ?_
  obtain ⟨th, hu, h⟩ := Option.bind_eq_some_iff.1 h
  split at h
  · rename_i hi
    cases h
    exact of_fork hu hi
  · cases h

/-- Every step of every call has such an effect. -/
theorem Frame.effect_of_step {f : Frame H} (h : f.step b m t c = some (m', n)) :
    f.Effect m n m' := by
  -- One case a kind of call; those with stages of their own have a lemma each.
  cases f with
  | task code | timing code =>
    cases ran_of_runCode h with
    | call hr | stay hr | panic hr => exact of_alike (alike_resume hr)
    | finish hr hd => cases hd; exact of_alike (alike_resume hr)
  | building builder clock code => exact builder.effect_of_step h
  | completing p s => exact s.effect_of_step h
  | notifying p s => exact s.effect_of_step h
  | registering p s closing => exact s.effect_of_step h
  | chaining p f code => exact effect_of_stepChaining h
  | measuring p code => exact of_alike (alike_of_stepMeasuring h)
  | counting p s => exact effect_of_stepCounting h
  | cancelling p code => exact of_alike (alike_of_stepCancelling h)
  | reading p limited s => exact s.effect_of_step h
  | waiting p => exact of_runStage h fun h => by cases h; exact of_addWait rfl
  | polling w waker s => exact s.effect_of_step h
  | dropping w => exact effect_of_stepDropping h
  | removing p key s => exact effect_of_stepRemoving h
  | interrupting u s => exact s.effect_of_step h
  | clearing u tell =>
    refine of_runStage h fun h => ?_
    obtain ⟨th, -, h⟩ := Option.bind_eq_some_iff.1 h
    cases h
    exact of_token fun _ => ⟨rfl, rfl⟩
  | judging policy e code => exact of_alike (alike_of_stepJudging h)
  | spawning => exact of_runStage h fun h => by cases h; exact of_addThread
  | forking u work => exact effect_of_stepForking h

end

end OneShot
