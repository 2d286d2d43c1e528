import OneShot.Proofs.Step.Effect
import OneShot.Proofs.Step.Lead

/-!
# Guards and tokens

What a step does besides changing cells: it takes a guard or gives one back, and it may change the
interrupt token of a thread. Every call holds at most one guard, and which one it is can be told
from its stage.

- **Guards** (`Guard`, `Machine.owner?`), and which of them a call holds at a stage
  (`Frame.guard?`).
- **One step of the guards** (`Guarding`): it leaves them alone, takes a free one, or gives back the
  one that its call holds.
- **One step of the tokens** (`Frame.mark`, `Token.Change`): only an interrupt sets a flag and only
  a clearing takes it back; only reads of the thread itself change what it is parked on.
- **All calls** (`Frame.keeping_of_step`).
-/

namespace OneShot

variable {H : Host}

/-! ## Guards -/

/-- The parts of a promise that are guarded. -/
inductive Promise.Part where
  | gate
  | listeners
  | wakers
  deriving DecidableEq

/-- The thread that holds the guard of a part. -/
def Promise.owner? (pr : Promise H) : Promise.Part → Option ThreadId
  | .gate => pr.latch.gate.owner
  | .listeners => pr.listeners.owner
  | .wakers => pr.wakers.owner

/-- The guards of a machine: those of its promises, and those of the parked lists of its threads. -/
inductive Guard where
  | part (p : PromiseId) (k : Promise.Part)
  | parked (u : ThreadId)
  deriving DecidableEq

/-- The thread that holds a guard. -/
def Machine.owner? (m : Machine H) : Guard → Option ThreadId
  | .part p k => (m.promise? p).bind (·.owner? k)
  | .parked u => (m.thread? u).bind (·.token.parked.owner)

/-- The guard that a call on thread `t` holds at a stage. -/
def Frame.guard? (m : Machine H) (t : ThreadId) : Frame H → Option Guard
  | completing p (.openLatch _) | completing p .notify => some (.part p .gate)
  | completing p .takeWakers => some (.part p .wakers)
  | completing p .drain => some (.part p .listeners)
  | registering p (.enroll _) _ | counting p .work => some (.part p .listeners)
  | reading _ _ .park | reading _ _ (.unpark _) => some (.parked t)
  | reading p _ (.check _) | reading p _ .checkFlag | reading p _ .sleep
  | reading p _ (.unlockGate _) => some (.part p .gate)
  | polling w _ .register => (m.wait? w).map fun wait => .part wait.promise .wakers
  | removing p _ .work => some (.part p .wakers)
  | interrupting u .copy => some (.parked u)
  | interrupting _ (.notify p _) => some (.part p .gate)
  | _ => none

/-- What a step on thread `t` does to the guards, and which of them its call holds before and
afterwards. -/
inductive Guarding (m : Machine H) (t : ThreadId) :
    Option Guard → Option Guard → Machine H → Prop
  | keep {g m'} (h : ∀ x, m'.owner? x = m.owner? x) : Guarding m t g g m'
  | take {g m'} (hf : m.owner? g = none) (ht : m'.owner? g = some t)
    (h : ∀ x, x ≠ g → m'.owner? x = m.owner? x) : Guarding m t none (some g) m'
  | give {g m'} (ht : m'.owner? g = none) (h : ∀ x, x ≠ g → m'.owner? x = m.owner? x) :
    Guarding m t (some g) none m'

/-! ## Tokens -/

/-- A token with its guard given back. -/
def Token.bare (tk : Token) : Token := { tk with parked := { data := tk.parked.data } }

/-- The token of a thread, apart from its guard. -/
def Machine.token? (m : Machine H) (u : ThreadId) : Option Token :=
  (m.thread? u).map (·.token.bare)

/-- What a step of the call at stage `f` on thread `t` makes of the token of thread `u`. -/
def Frame.mark (t u : ThreadId) (f : Frame H) (tk : Token) : Token :=
  match f with
  | interrupting v .raise => if v = u then { tk with flag := true } else tk
  | clearing v _ => if v = u then { tk with flag := false } else tk
  | reading p _ .park =>
    if t = u then { tk with parked := { data := Token.park tk.parked.data p } } else tk
  | reading p _ (.unpark _) =>
    if t = u then { tk with parked := { data := Token.unpark tk.parked.data p } } else tk
  | _ => tk

/-- The token of a thread before and after a step that makes `g` of it. The thread may be new. -/
inductive Token.Change (g : Token → Token) : Option Token → Option Token → Prop
  | kept {x} : Change g x (x.map g)
  | spawn : Change g none (some {})

theorem Token.Change.same {g : Token → Token} {x : Option Token} (h : ∀ tk, g tk = tk) :
    Token.Change g x x := by
  have hk := Change.kept (g := g) (x := x)
  rwa [show x.map g = x by cases x <;> simp [h]] at hk

/-- What a step of the call at stage `f` on thread `t` does to the guards and the tokens. -/
structure Frame.Keeping (m : Machine H) (t : ThreadId) (f : Frame H) (n : Next H)
    (m' : Machine H) : Prop where
  guards : Guarding m t (f.guard? m t) ((n.own f).bind fun g => g.guard? m t) m'
  tokens : ∀ u, Token.Change (f.mark t u) (m.token? u) (m'.token? u)

/-! ## Guards after a change -/

namespace Machine

variable {m m' : Machine H} {t : ThreadId}

theorem Alike.owner? (h : m.Alike m') (x : Guard) : m'.owner? x = m.owner? x := by
  cases x <;> simp [Machine.owner?, Machine.promise?, thread?, h.promises, h.threads]

theorem Alike.token? (h : m.Alike m') (u : ThreadId) : m'.token? u = m.token? u := by
  simp [Machine.token?, thread?, h.threads]

@[simp] theorem owner?_modifyWait (w : WaitId) (g : Wait → Wait) (x : Guard) :
    (m.modifyWait w g).owner? x = m.owner? x := by
  cases x <;> rfl

@[simp] theorem owner?_rouse (p : PromiseId) (x : Guard) : (m.rouse p).owner? x = m.owner? x := by
  cases x with
  | part => rfl
  | parked u => cases h : m.thread? u <;> simp [owner?, h]

@[simp] theorem token?_rouse (p : PromiseId) (u : ThreadId) :
    (m.rouse p).token? u = m.token? u := by
  cases h : m.thread? u <;> simp [token?, h]

theorem owner?_modifyPromise (p : PromiseId) (g : Promise H → Promise H) (x : Guard) :
    (m.modifyPromise p g).owner? x = match x with
      | .part q k => if p = q then (m.promise? q).bind fun pr => (g pr).owner? k
        else m.owner? (.part q k)
      | .parked u => m.owner? (.parked u) := by
  cases x with
  | part q k =>
    by_cases hq : p = q
    · subst hq
      simp only [owner?, promise?_modifyPromise, if_true, Option.bind_map]
      rfl
    · simp [owner?, hq]
  | parked u => rfl

theorem owner?_modifyThread (u : ThreadId) (g : Thread H → Thread H) (x : Guard) :
    (m.modifyThread u g).owner? x = match x with
      | .part q k => m.owner? (.part q k)
      | .parked v => if u = v then (m.thread? v).bind fun th => (g th).token.parked.owner
        else m.owner? (.parked v) := by
  cases x with
  | part q k => rfl
  | parked v =>
    by_cases hv : u = v
    · subst hv
      simp only [owner?, thread?_modifyThread, if_true, Option.bind_map]
      rfl
    · simp [owner?, hv]

end Machine

namespace Guarding

variable {m m' m'' : Machine H} {t : ThreadId} {x x' : Option Guard}

theorem congr (h : Guarding m t x x' m') (he : ∀ y, m''.owner? y = m'.owner? y) :
    Guarding m t x x' m'' := by
  cases h with
  | keep h => exact .keep fun y => (he y).trans (h y)
  | take hf ht h => exact .take hf ((he _).trans ht) fun y hy => (he y).trans (h y hy)
  | give ht h => exact .give ((he _).trans ht) fun y hy => (he y).trans (h y hy)

/-- A promise changes and its guards do not. -/
theorem of_kept {p : PromiseId} {g : Promise H → Promise H}
    (h : ∀ pr, m.promise? p = some pr → ∀ k, (g pr).owner? k = pr.owner? k) :
    Guarding m t x x (m.modifyPromise p g) := by
  apply keep
  intro y
  rw [Machine.owner?_modifyPromise]
  split
  · rename_i q k
    split
    · rename_i hq
      subst hq
      cases hp : m.promise? p with
      | none => simp [Machine.owner?, hp]
      | some pr => simp [Machine.owner?, hp, h pr hp]
    · rfl
  · rfl

/-- The guard of one part of a promise is taken. -/
theorem of_taken {p : PromiseId} {pr : Promise H} {k : Promise.Part} {g : Promise H → Promise H}
    (hp : m.promise? p = some pr) (hf : pr.owner? k = none)
    (h : ∀ k', (g pr).owner? k' = if k' = k then some t else pr.owner? k') :
    Guarding m t none (some (.part p k)) (m.modifyPromise p g) := by
  apply take
  · simp [Machine.owner?, hp, hf]
  · simp [Machine.owner?_modifyPromise, hp, h]
  · intro y hy
    rw [Machine.owner?_modifyPromise]
    split
    · rename_i q k'
      split
      · rename_i hq
        subst hq
        have hk : k' ≠ k := fun hk => hy (by rw [hk])
        simp [Machine.owner?, hp, h, hk]
      · rfl
    · rfl

/-- The guard of one part of a promise is given back. -/
theorem of_given {p : PromiseId} {k : Promise.Part} {g : Promise H → Promise H}
    (h : ∀ pr k', (g pr).owner? k' = if k' = k then none else pr.owner? k') :
    Guarding m t (some (.part p k)) none (m.modifyPromise p g) := by
  apply give
  · simp [Machine.owner?_modifyPromise, h]
  · intro y hy
    rw [Machine.owner?_modifyPromise]
    split
    · rename_i q k'
      split
      · rename_i hq
        subst hq
        have hk : k' ≠ k := fun hk => hy (by rw [hk])
        simp [Machine.owner?, h, hk]
      · rfl
    · rfl

/-- The guard of a parked list is taken. -/
theorem of_taken_parked {u : ThreadId} {th : Thread H} {g : Thread H → Thread H}
    (hu : m.thread? u = some th) (hf : th.token.parked.owner = none)
    (h : (g th).token.parked.owner = some t) :
    Guarding m t none (some (.parked u)) (m.modifyThread u g) := by
  apply take
  · simp [Machine.owner?, hu, hf]
  · simp [Machine.owner?_modifyThread, hu, h]
  · intro y hy
    rw [Machine.owner?_modifyThread]
    split
    · rfl
    · rename_i v
      rw [if_neg fun hv => hy (by rw [hv])]

/-- The guard of a parked list is given back. -/
theorem of_given_parked {u : ThreadId} {g : Thread H → Thread H}
    (h : ∀ th, (g th).token.parked.owner = none) :
    Guarding m t (some (.parked u)) none (m.modifyThread u g) := by
  apply give
  · simp [Machine.owner?_modifyThread, h]
  · intro y hy
    rw [Machine.owner?_modifyThread]
    split
    · rfl
    · rename_i v
      rw [if_neg fun hv => hy (by rw [hv])]

/-- A thread changes and the guard of its parked list does not. -/
theorem of_kept_parked {u : ThreadId} {g : Thread H → Thread H}
    (h : ∀ th, (g th).token.parked.owner = th.token.parked.owner) :
    Guarding m t x x (m.modifyThread u g) := by
  apply keep
  intro y
  rw [Machine.owner?_modifyThread]
  split
  · rfl
  · split
    · simp [h, Machine.owner?]
    · rfl

end Guarding

namespace Frame.Keeping

variable {m m' : Machine H} {t : ThreadId} {f : Frame H} {n : Next H}

/-- A step that leaves promises and threads alone, of a call that holds no guard. -/
theorem of_alike (ha : m.Alike m') (hf : f.guard? m t = none)
    (hm : ∀ u tk, f.mark t u tk = tk)
    (hn : ∀ g, n.own f = some g → g.guard? m t = none) : Keeping m t f n m' := by
  constructor
  · have hown : ((n.own f).bind fun g => g.guard? m t) = none := by
      rw [Option.bind_eq_none_iff]
      exact hn
    rw [hf, hown]
    exact .keep ha.owner?
  · intro u
    rw [ha.token?]
    exact .same (hm u)

/-- The sleepers of a latch are woken and its gate is given back. -/
theorem of_notify {p : PromiseId} {g : Promise H → Promise H}
    (hf : f.guard? m t = some (.part p .gate)) (hn : ((n.own f).bind fun g => g.guard? m t) = none)
    (hm : ∀ u tk, f.mark t u tk = tk)
    (h : ∀ pr k, (g pr).owner? k = if k = .gate then none else pr.owner? k) :
    Keeping m t f n ((m.rouse p).modifyPromise p g) := by
  have hown : ∀ y, ((m.rouse p).modifyPromise p g).owner? y = (m.modifyPromise p g).owner? y := by
    intro y
    rw [Machine.owner?_modifyPromise, Machine.owner?_modifyPromise]
    cases y <;> simp
  refine ⟨?_, fun u => ?_⟩
  · rw [hf, hn]
    exact (Guarding.of_given h).congr hown
  · rw [show ((m.rouse p).modifyPromise p g).token? u = (m.rouse p).token? u from rfl,
      Machine.token?_rouse]
    exact .same (hm u)

/-- A step that changes one thread. -/
theorem of_thread {u : ThreadId} {g : Thread H → Thread H}
    (hg : Guarding m t (f.guard? m t) ((n.own f).bind fun g => g.guard? m t) (m.modifyThread u g))
    (h : ∀ th, m.thread? u = some th → (g th).token.bare = f.mark t u th.token.bare)
    (ho : ∀ v tk, u ≠ v → f.mark t v tk = tk) : Keeping m t f n (m.modifyThread u g) := by
  refine ⟨hg, fun v => ?_⟩
  simp only [Machine.token?, Machine.thread?_modifyThread]
  split
  · rename_i hv
    subst hv
    cases ht : m.thread? u with
    | none => exact .kept
    | some th =>
      simp only [Option.map_some, h th ht]
      exact .kept
  · rename_i hv
    exact .same fun tk => ho v tk hv

end Frame.Keeping

/-! ## Steps of each call -/

section

variable {b : Behaviour H} {m m' : Machine H} {t : ThreadId} {c : Control} {n : Next H}

open Machine OneShot.Frame

/-- A step of code, of a call that holds no guard while it runs code. -/
theorem Frame.keeping_of_runCode {f : Frame H} {r : Role} {code : H.Code r}
    {wrap : H.Code r → Frame H} {done : Machine H → r.Reply → Move H}
    (h : m.runCode b t code c wrap done = some (m', n)) (hf : f.guard? m t = none)
    (hm : ∀ u tk, f.mark t u tk = tk) (hw : ∀ k, (wrap k).guard? m t = none)
    (hd : ∀ m₁ v, m.Alike m₁ → done m₁ v = some (m', n) → Keeping m t f n m') :
    Keeping m t f n m' := by
  cases ran_of_runCode h with
  | call hr | stay hr =>
    exact .of_alike (alike_resume hr) hf hm fun g hg => by cases hg; exact hw _
  | panic hr => exact .of_alike (alike_resume hr) hf hm fun g hg => by cases hg
  | finish hr hv => exact hd _ _ (alike_resume hr) hv

theorem Completing.keeping_of_step {p : PromiseId} {s : Completing H}
    (h : s.step b m t p c = some (m', n))
    (hk : c = .go ∨ (Frame.completing p s).awaits = true) :
    Keeping m t (.completing p s) n m' := by
  have hgo : (Frame.completing p s).awaits = false → c = .go := fun hf =>
    hk.resolve_right (by rw [hf]; exact Bool.false_ne_true)
  -- A claim, a store and the code of clock, wakers and listeners leave all guards alone.
  cases s with
  | claim o =>
    obtain ⟨pr, hp, h⟩ := Option.bind_eq_some_iff.1 (eq_of_runStage h (hgo rfl))
    unfold Promise.claim at h
    split at h
    · rename_i heq
      split at heq <;> cases heq
      cases h
      refine ⟨.of_kept fun pr' hp' k => ?_, fun _ => .same fun _ => rfl⟩
      rw [hp] at hp'
      cases hp'
      cases k <;> rfl
    · cases h
      exact ⟨.keep fun _ => rfl, fun _ => .same fun _ => rfl⟩
  | store o =>
    obtain ⟨pr, hp, h⟩ := Option.bind_eq_some_iff.1 (eq_of_runStage h (hgo rfl))
    split at h <;> cases h
    · exact ⟨.keep fun _ => rfl, fun _ => .same fun _ => rfl⟩
    · exact ⟨.of_kept fun pr _ k => by cases k <;> rfl, fun _ => .same fun _ => rfl⟩
  | stamp code =>
    refine keeping_of_runCode h rfl (fun _ _ => rfl) (fun _ => rfl) fun m₁ v ha hd => ?_
    obtain ⟨pr, -, hd⟩ := Option.bind_eq_some_iff.1 hd
    cases hd
    exact .of_alike ha rfl (fun _ _ => rfl) fun g hg => by cases hg; rfl
  | lockGate time =>
    obtain ⟨pr, hp, h⟩ := Option.bind_eq_some_iff.1 (eq_of_runStage h (hgo rfl))
    obtain ⟨gate, hl, h⟩ := Option.bind_eq_some_iff.1 h
    obtain ⟨hfree, rfl⟩ := Mutex.acquire?_eq_some_iff.1 hl
    cases h
    exact ⟨.of_taken hp hfree fun k => by cases k <;> rfl, fun _ => .same fun _ => rfl⟩
  | openLatch time =>
    cases eq_of_runStage h (hgo rfl)
    exact ⟨.of_kept fun pr _ k => by cases k <;> rfl, fun _ => .same fun _ => rfl⟩
  | notify =>
    cases eq_of_runStage h (hgo rfl)
    exact .of_notify rfl rfl (fun _ _ => rfl) fun pr k => by cases k <;> rfl
  | lockWakers | lockListeners =>
    obtain ⟨pr, hp, h⟩ := Option.bind_eq_some_iff.1 (eq_of_runStage h (hgo rfl))
    obtain ⟨_, hl, h⟩ := Option.bind_eq_some_iff.1 h
    obtain ⟨hfree, rfl⟩ := Mutex.acquire?_eq_some_iff.1 hl
    cases h
    exact ⟨.of_taken hp hfree fun k => by cases k <;> rfl, fun _ => .same fun _ => rfl⟩
  | takeWakers | drain =>
    obtain ⟨pr, hp, h⟩ := Option.bind_eq_some_iff.1 (eq_of_runStage h (hgo rfl))
    cases h
    exact ⟨.of_given fun pr k => by cases k <;> rfl, fun _ => .same fun _ => rfl⟩
  | wake rest =>
    cases rest <;> cases eq_of_runStage h (hgo rfl) <;>
      exact ⟨.keep fun _ => rfl, fun _ => .same fun _ => rfl⟩
  | waking code rest =>
    refine keeping_of_runCode h rfl (fun _ _ => rfl) (fun _ => rfl) fun m₁ v ha hd => ?_
    cases hd
    exact .of_alike ha rfl (fun _ _ => rfl) fun g hg => by cases hg; rfl
  | announce =>
    obtain ⟨pr, hp, h⟩ := Option.bind_eq_some_iff.1 (eq_of_runStage h (hgo rfl))
    cases h
    exact ⟨.keep fun _ => by rename_i y; cases y <;> rfl, fun _ => .same fun _ => rfl⟩
  | deliver rest =>
    cases rest <;> cases eq_of_runStage h (hgo rfl) <;>
      exact ⟨.keep fun _ => rfl, fun _ => .same fun _ => rfl⟩
  | delivering rest =>
    simp only [step] at h
    split at h <;> cases h <;> exact ⟨.keep fun _ => rfl, fun _ => .same fun _ => rfl⟩

theorem Registering.keeping_of_step {p : PromiseId} {s : Registering H} {closing : Closing}
    (h : s.step m t p closing c = some (m', n))
    (hk : c = .go ∨ (Frame.registering p s closing).awaits = true) :
    Keeping m t (.registering p s closing) n m' := by
  have hgo : (Frame.registering p s closing).awaits = false → c = .go := fun hf =>
    hk.resolve_right (by rw [hf]; exact Bool.false_ne_true)
  cases s with
  | check l =>
    obtain ⟨pr, -, h⟩ := Option.bind_eq_some_iff.1 (eq_of_runStage h (hgo rfl))
    split at h <;> cases h <;> exact ⟨.keep fun _ => rfl, fun _ => .same fun _ => rfl⟩
  | lock l =>
    obtain ⟨pr, hp, h⟩ := Option.bind_eq_some_iff.1 (eq_of_runStage h (hgo rfl))
    obtain ⟨_, hl, h⟩ := Option.bind_eq_some_iff.1 h
    obtain ⟨hfree, rfl⟩ := Mutex.acquire?_eq_some_iff.1 hl
    cases h
    exact ⟨.of_taken hp hfree fun k => by cases k <;> rfl, fun _ => .same fun _ => rfl⟩
  | enroll l =>
    obtain ⟨pr, hp, h⟩ := Option.bind_eq_some_iff.1 (eq_of_runStage h (hgo rfl))
    dsimp only at h
    split at h <;> cases h <;>
      exact ⟨.of_given fun pr k => by cases k <;> rfl, fun _ => .same fun _ => rfl⟩
  | inline =>
    simp only [step] at h
    split at h <;> cases h <;> exact ⟨.keep fun _ => rfl, fun _ => .same fun _ => rfl⟩

theorem Reading.keeping_of_step {p : PromiseId} {limited : Bool} {s : Reading}
    (h : s.step m t p limited c = some (m', n)) (hk : c = .go) :
    Keeping m t (.reading p limited s) n m' := by
  obtain ⟨pr, hp, h⟩ := Option.bind_eq_some_iff.1 (eq_of_runStage h hk)
  obtain ⟨th, ht, h⟩ := Option.bind_eq_some_iff.1 h
  cases s with
  | peek | attempt =>
    cases h
    cases hd : pr.isDone <;> exact ⟨.keep fun _ => rfl, fun _ => .same fun _ => rfl⟩
  | lockParked | relockParked r =>
    obtain ⟨_, hl, h⟩ := Option.bind_eq_some_iff.1 h
    obtain ⟨hfree, rfl⟩ := Mutex.acquire?_eq_some_iff.1 hl
    cases h
    refine .of_thread (.of_taken_parked ht hfree rfl) (fun th' ht' => ?_) fun _ _ _ => rfl
    rw [ht] at ht'
    cases ht'
    rfl
  | park =>
    cases h
    refine .of_thread (.of_given_parked fun _ => rfl) (fun th' ht' => ?_) fun v tk hv => if_neg hv
    rw [ht] at ht'
    cases ht'
    simp [mark, Token.bare]
  | lockGate late =>
    obtain ⟨_, hl, h⟩ := Option.bind_eq_some_iff.1 h
    obtain ⟨hfree, rfl⟩ := Mutex.acquire?_eq_some_iff.1 hl
    cases h
    exact ⟨.of_taken hp hfree fun k => by cases k <;> rfl, fun _ => .same fun _ => rfl⟩
  | check late =>
    cases h
    cases hd : pr.isDone <;> cases late <;> exact ⟨.keep fun _ => rfl, fun _ => .same fun _ => rfl⟩
  | checkFlag =>
    cases h
    cases hf : th.token.flag <;> exact ⟨.keep fun _ => rfl, fun _ => .same fun _ => rfl⟩
  | sleep | unlockGate r =>
    cases h
    exact ⟨.of_given fun pr k => by cases k <;> rfl, fun _ => .same fun _ => rfl⟩
  | asleep => cases h
  | unpark r =>
    have hkeep : ∀ n, ((n.own (.reading p limited (.unpark r))).bind fun g => g.guard? m t) = none →
        Keeping m t (.reading p limited (.unpark r)) n (m.modifyThread t fun th' =>
          { th' with token := { th'.token with
              parked := th.token.parked.release (Token.unpark th.token.parked.data p) } }) := by
      intro n hn
      refine .of_thread (by rw [hn]; exact .of_given_parked fun _ => rfl) (fun th' ht' => ?_)
        fun v tk hv => if_neg hv
      rw [ht] at ht'
      cases ht'
      simp [mark, Token.bare]
    cases r <;> cases h <;> exact hkeep _ rfl
  | fetch =>
    dsimp only at h
    split at h <;> cases h <;> exact ⟨.keep fun _ => rfl, fun _ => .same fun _ => rfl⟩

theorem Interrupting.keeping_of_step {u : ThreadId} {s : Interrupting}
    (h : s.step m t u c = some (m', n)) (hk : c = .go) :
    Keeping m t (.interrupting u s) n m' := by
  replace h := eq_of_runStage h hk
  cases s with
  | raise =>
    cases h
    refine .of_thread (.of_kept_parked fun _ => rfl) (fun th _ => ?_) fun v tk hv => if_neg hv
    simp [mark, Token.bare]
  | lock =>
    obtain ⟨th, ht, h⟩ := Option.bind_eq_some_iff.1 h
    obtain ⟨_, hl, h⟩ := Option.bind_eq_some_iff.1 h
    obtain ⟨hfree, rfl⟩ := Mutex.acquire?_eq_some_iff.1 hl
    cases h
    refine .of_thread (.of_taken_parked ht hfree rfl) (fun th' ht' => ?_) fun _ _ _ => rfl
    rw [ht] at ht'
    cases ht'
    rfl
  | copy =>
    obtain ⟨th, ht, h⟩ := Option.bind_eq_some_iff.1 h
    cases h
    refine .of_thread (.of_given_parked fun _ => rfl) (fun th' ht' => ?_) fun _ _ _ => rfl
    rw [ht] at ht'
    cases ht'
    rfl
  | next latches =>
    cases latches with
    | nil => cases h; exact ⟨.keep fun _ => rfl, fun _ => .same fun _ => rfl⟩
    | cons p rest =>
      obtain ⟨pr, hp, h⟩ := Option.bind_eq_some_iff.1 h
      obtain ⟨_, hl, h⟩ := Option.bind_eq_some_iff.1 h
      obtain ⟨hfree, rfl⟩ := Mutex.acquire?_eq_some_iff.1 hl
      cases h
      exact ⟨.of_taken hp hfree fun k => by cases k <;> rfl, fun _ => .same fun _ => rfl⟩
  | notify p rest =>
    cases h
    exact .of_notify rfl rfl (fun _ _ => rfl) fun pr k => by cases k <;> rfl

theorem Polling.keeping_of_step {w : WaitId} {waker : H.Closure .waker} {s : Polling}
    (h : s.step m t w waker c = some (m', n)) (hk : c = .go) :
    Keeping m t (.polling w waker s) n m' := by
  obtain ⟨wait, hw, h⟩ := Option.bind_eq_some_iff.1 (eq_of_runStage h hk)
  obtain ⟨pr, hp, h⟩ := Option.bind_eq_some_iff.1 h
  have hguard :
      (Frame.polling w waker .register).guard? m t = some (.part wait.promise .wakers) := by
    simp [guard?, hw]
  cases s with
  | attempt | reread =>
    dsimp only at h
    split at h <;> cases h <;> exact ⟨.keep fun _ => rfl, fun _ => .same fun _ => rfl⟩
  | lock =>
    obtain ⟨_, hl, h⟩ := Option.bind_eq_some_iff.1 h
    obtain ⟨hfree, rfl⟩ := Mutex.acquire?_eq_some_iff.1 hl
    cases h
    refine ⟨?_, fun _ => .same fun _ => rfl⟩
    simp only [Next.own, Option.bind_some, hguard]
    exact .of_taken hp hfree fun k => by cases k <;> rfl
  | register =>
    -- The guard is given back whether the waker was registered or not.
    have hkeep : ∀ n m' set key, ((n.own (.polling w waker .register)).bind fun g =>
          g.guard? m t) = none →
        m' = (m.modifyPromise wait.promise fun pr =>
          { pr with wakers := pr.wakers.release set }).modifyWait w
            (fun wait => { wait with key }) →
        Keeping m t (.polling w waker .register) n m' := by
      intro n m' set key hn hm
      subst hm
      refine ⟨?_, fun _ => .same fun _ => rfl⟩
      rw [hguard, hn]
      exact (Guarding.of_given fun pr k => by cases k <;> rfl).congr fun y =>
        owner?_modifyWait _ _ _
    dsimp only at h
    split at h <;> cases h <;> exact hkeep _ _ _ _ rfl rfl

theorem Frame.keeping_of_stepCounting {p : PromiseId} {s : Guarded}
    (h : m.stepCounting t p c s = some (m', n)) (hk : c = .go) :
    Keeping m t (.counting p s) n m' := by
  obtain ⟨pr, hp, h⟩ := Option.bind_eq_some_iff.1 (eq_of_runStage h hk)
  cases s with
  | lock =>
    obtain ⟨_, hl, h⟩ := Option.bind_eq_some_iff.1 h
    obtain ⟨hfree, rfl⟩ := Mutex.acquire?_eq_some_iff.1 hl
    cases h
    exact ⟨.of_taken hp hfree fun k => by cases k <;> rfl, fun _ => .same fun _ => rfl⟩
  | work =>
    cases h
    exact ⟨.of_given fun pr k => by cases k <;> rfl, fun _ => .same fun _ => rfl⟩

theorem Frame.keeping_of_stepRemoving {p : PromiseId} {key : Nat} {s : Guarded}
    (h : m.stepRemoving t p key c s = some (m', n)) (hk : c = .go) :
    Keeping m t (.removing p key s) n m' := by
  obtain ⟨pr, hp, h⟩ := Option.bind_eq_some_iff.1 (eq_of_runStage h hk)
  cases s with
  | lock =>
    obtain ⟨_, hl, h⟩ := Option.bind_eq_some_iff.1 h
    obtain ⟨hfree, rfl⟩ := Mutex.acquire?_eq_some_iff.1 hl
    cases h
    exact ⟨.of_taken hp hfree fun k => by cases k <;> rfl, fun _ => .same fun _ => rfl⟩
  | work =>
    cases h
    exact ⟨.of_given fun pr k => by cases k <;> rfl, fun _ => .same fun _ => rfl⟩

/-- A new promise comes with its guards free. -/
theorem Frame.Keeping.of_addPromise {f : Frame H} {m₁ : Machine H} {reading : UInt64}
    {clock : H.Closure .clock} {policy : Policy H} {hook : Option (H.Closure .hook)}
    {origin : Option PromiseId} (ha : m.Alike m₁) (hf : f.guard? m t = none)
    (hm : ∀ u tk, f.mark t u tk = tk) (hn : ∀ g, n.own f = some g → g.guard? m t = none) :
    Keeping m t f n (m₁.addPromise (.make reading clock policy hook origin)).1 := by
  have hk := of_alike ha hf hm hn
  refine ⟨hk.guards.congr fun y => ?_, hk.tokens⟩
  cases y with
  | part q k =>
    simp only [owner?, promise?_addPromise]
    split
    · rename_i hq
      rw [hq, promise?_size]
      cases k <;> rfl
    · rfl
  | parked u => rfl

/-- A step that leaves promises and threads alone, of a call that holds no guard at any stage. -/
theorem Frame.Keeping.of_leads {f : Frame H} (ha : m.Alike m') (hl : f.Leads n)
    (hm : ∀ u tk, f.mark t u tk = tk)
    (hf : ∀ g, f = g ∨ f.SameCall g → g.guard? m t = none) : Keeping m t f n m' :=
  of_alike ha (hf f (.inl rfl)) hm fun g hg => hf g (hl.sameCall hg)

theorem Frame.keeping_of_stepChaining {p : PromiseId} {f : H.Closure .transform}
    {code : Option (H.Code .clock)} (h : m.stepChaining b t p f c code = some (m', n))
    (hk : c = .go ∨ (Frame.chaining p f code).awaits = true) :
    Keeping m t (.chaining p f code) n m' := by
  cases code with
  | none =>
    have hgo : c = .go := hk.resolve_right Bool.false_ne_true
    obtain ⟨pr, -, h⟩ := Option.bind_eq_some_iff.1 (eq_of_runStage h hgo)
    cases h
    exact ⟨.keep fun _ => rfl, fun _ => .same fun _ => rfl⟩
  | some code =>
    refine keeping_of_runCode h rfl (fun _ _ => rfl) (fun _ => rfl) fun m₁ v ha hd => ?_
    obtain ⟨pr, -, hd⟩ := Option.bind_eq_some_iff.1 hd
    cases hd
    exact .of_addPromise ha rfl (fun _ _ => rfl) fun g hg => by cases hg; rfl

theorem Frame.keeping_of_stepDropping {w : WaitId} (h : m.stepDropping w c = some (m', n))
    (hk : c = .go) : Keeping m t (.dropping w) n m' := by
  obtain ⟨wait, hw, h⟩ := Option.bind_eq_some_iff.1 (eq_of_runStage h hk)
  dsimp only at h
  split at h <;> cases h <;>
    exact ⟨.keep fun y => owner?_modifyWait _ _ _, fun _ => .same fun _ => rfl⟩

/-- A new thread comes with its guard free and a token of its own. -/
theorem Frame.Keeping.of_addThread {a : Answer} :
    Keeping m t .spawning (.answer a) m.addThread.1 := by
  constructor
  · refine .keep fun y => ?_
    cases y with
    | part q k => rfl
    | parked u =>
      simp only [owner?, thread?_addThread]
      split
      · rename_i hu
        simp [hu, thread?]
      · rfl
  · intro u
    simp only [Machine.token?, thread?_addThread]
    split
    · rename_i hu
      have hn : m.thread? u = none := by simp [thread?, hu]
      rw [hn]
      exact .spawn
    · exact .same fun _ => rfl

/-- Every step of every call does this to the guards and the tokens. -/
theorem Frame.keeping_of_step {f : Frame H} (h : f.step b m t c = some (m', n))
    (hk : c = .go ∨ f.awaits = true) : Keeping m t f n m' := by
  have hgo : f.awaits = false → c = .go := fun hf =>
    hk.resolve_right (by rw [hf]; exact Bool.false_ne_true)
  -- Calls that run code change no guard; the others have lemmas of their own.
  cases f with
  | task code | timing code =>
    refine keeping_of_runCode h rfl (fun _ _ => rfl) (fun _ => rfl) fun m₁ v ha hd => ?_
    cases hd
    exact .of_alike ha rfl (fun _ _ => rfl) fun g hg => by cases hg
  | building builder clock code =>
    refine keeping_of_runCode h rfl (fun _ _ => rfl) (fun _ => rfl) fun m₁ v ha hd => ?_
    cases hd
    exact .of_addPromise ha rfl (fun _ _ => rfl) fun g hg => by cases hg
  | completing p s => exact s.keeping_of_step h hk
  | notifying p s =>
    refine .of_leads (Notifying.alike_of_step h) (leads_of_step h) (fun _ _ => rfl) ?_
    rintro g (rfl | hs)
    · rfl
    · cases hs; rfl
  | registering p s closing => exact s.keeping_of_step h hk
  | chaining p f code => exact keeping_of_stepChaining h hk
  | measuring p code =>
    refine .of_leads (alike_of_stepMeasuring h) (leads_of_step h) (fun _ _ => rfl) ?_
    rintro g (rfl | hs)
    · rfl
    · cases hs; rfl
  | counting p s => exact keeping_of_stepCounting h (hgo rfl)
  | cancelling p code =>
    refine .of_leads (alike_of_stepCancelling h) (leads_of_step h) (fun _ _ => rfl) ?_
    rintro g (rfl | hs)
    · rfl
    · cases hs; rfl
  | reading p limited s => exact s.keeping_of_step h (hgo rfl)
  | waiting p =>
    cases eq_of_runStage h (hgo rfl)
    exact ⟨.keep fun y => by cases y <;> rfl, fun _ => .same fun _ => rfl⟩
  | polling w waker s => exact s.keeping_of_step h (hgo rfl)
  | dropping w => exact keeping_of_stepDropping h (hgo rfl)
  | removing p key s => exact keeping_of_stepRemoving h (hgo rfl)
  | interrupting u s => exact s.keeping_of_step h (hgo rfl)
  | clearing u tell =>
    obtain ⟨th, ht, h⟩ := Option.bind_eq_some_iff.1 (eq_of_runStage h (hgo rfl))
    cases h
    refine .of_thread (.of_kept_parked fun _ => rfl) (fun th _ => ?_) fun v tk hv => if_neg hv
    simp [mark, Token.bare]
  | judging policy e code =>
    refine .of_leads (alike_of_stepJudging h) (leads_of_step h) (fun _ _ => rfl) ?_
    rintro g (rfl | hs)
    · rfl
    · cases hs; rfl
  | spawning =>
    cases eq_of_runStage h (hgo rfl)
    exact .of_addThread
  | forking u work =>
    obtain ⟨th, hu, h⟩ := Option.bind_eq_some_iff.1 (eq_of_runStage h (hgo rfl))
    split at h
    · cases h
      exact .of_thread (.of_kept_parked fun _ => rfl) (fun _ _ => rfl) fun _ _ _ => rfl
    · cases h

end

end OneShot
