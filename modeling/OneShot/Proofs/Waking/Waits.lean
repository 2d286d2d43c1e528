import OneShot.Proofs.Completion.Ladder
import OneShot.Proofs.Waking.Keys

/-!
# Waits and their wakers

A poll that finds the promise pending leaves its waker in the promise's waker set, under the key of
its wait. This module follows what the polls of each wait have left there.

- **One step** (`Polling.Moves`, `Dropping`): of a poll, and of a wait that is dropped.
- **What is looked for in a run** (`Chronicle.polls`, `Chronicle.pends`): the polls of a wait that
  have returned, and the keys and wakers that they have left.
- **One wait at a moment** (`Wait.Moves`, `Extends.wait_moves`).
-/

namespace OneShot

variable {H : Host} {b : Behaviour H}

/-! ## One step -/

/-- What a poll of wait `v` with waker `x` does in a step from `m` to `m'`, and how it goes on. -/
inductive Polling.Moves (m m' : Machine H) (v : WaitId) (x : H.Closure .waker) :
    Polling → Next H → Prop
  | ready {s wait pr r} (hs : s = .attempt ∨ s = .reread) (hw : m.wait? v = some wait)
    (hp : m.promise? wait.promise = some pr) (hr : pr.tryGet = some r) :
    Moves m m' v x s (.answer (.polled (some r)))
  | look : Moves m m' v x .attempt (.goto (.polling v x .lock))
  | lock : Moves m m' v x .lock (.goto (.polling v x .register))
  | pend {wait pr k} (hw : m.wait? v = some wait) (hp : m.cells? wait.promise = some pr)
    (hk : (pr.wakers.data.register H.sameTask wait.key x pr.isDone).2 = some k)
    (hw' : m'.wait? v = some { wait with key := some k })
    (hp' : m'.cells? wait.promise = some { pr with
      wakers := { data := (pr.wakers.data.register H.sameTask wait.key x pr.isDone).1 } }) :
    Moves m m' v x .register (.answer (.polled none))
  | refuse {wait pr} (hw : m.wait? v = some wait) (hp : m.cells? wait.promise = some pr)
    (hd : (pr.wakers.data.taken || pr.isDone) = true)
    (hw' : m'.wait? v = some { wait with key := none }) (hp' : m'.cells? wait.promise = some pr) :
    Moves m m' v x .register (.goto (.polling v x .reread))
  | closed : Moves m m' v x .reread (.throw closedTooEarly)

/-- What happens to wait `v` when it is dropped in a step from `m` to `m'`, and how the call goes on
that drops it. -/
inductive Dropping (m m' : Machine H) (v : WaitId) : Next H → Prop
  | bare {wait} (hw : m.wait? v = some wait) (hk : wait.key = none)
    (hw' : m'.wait? v = some { wait with key := none, dropped := true }) :
    Dropping m m' v (.answer .unit)
  | keyed {wait k} (hw : m.wait? v = some wait) (hk : wait.key = some k)
    (hw' : m'.wait? v = some { wait with key := none, dropped := true }) :
    Dropping m m' v (.goto (.removing wait.promise k .lock))

section

variable {m m' m'' : Machine H} {t : ThreadId} {v : WaitId} {c : Control} {n : Next H}

open Machine

/-- Every step of a poll is such a move. -/
theorem Polling.moves_of_step {x : H.Closure .waker} {s : Polling}
    (h : s.step m t v x c = some (m', n)) (hk : c = .go) : s.Moves m m' v x n := by
  replace h := eq_of_runStage h hk
  obtain ⟨wait, hw, h⟩ := Option.bind_eq_some_iff.1 h
  obtain ⟨pr, hp, h⟩ := Option.bind_eq_some_iff.1 h
  cases s with
  | attempt =>
    dsimp only at h
    split at h <;> rename_i hr <;> cases h
    · exact .ready (.inl rfl) hw hp hr
    · exact .look
  | lock =>
    obtain ⟨_, -, h⟩ := Option.bind_eq_some_iff.1 h
    cases h
    exact .lock
  | register =>
    have hreg : (pr.bare.wakers.data.register H.sameTask wait.key x pr.bare.isDone) =
      pr.wakers.data.register H.sameTask wait.key x pr.isDone := rfl
    dsimp only at h
    split at h <;> rename_i hkey <;> cases h
    · -- The key is noted in the wait; on a refusal what is noted is that there is none.
      refine .pend hw (cells?_eq_some hp) (hreg ▸ hkey) ?_ (cells?_modifyPromise hp)
      rw [wait?_modifyWait, if_pos rfl, wait?_modifyPromise, hw, hkey]
      rfl
    · obtain ⟨hset, hclosed⟩ := WakerSet.register_refused hkey
      refine .refuse hw (cells?_eq_some hp) hclosed ?_ ?_
      · rw [wait?_modifyWait, if_pos rfl, wait?_modifyPromise, hw, hkey]
        rfl
      · rw [hset]
        exact cells?_modifyPromise hp
  | reread =>
    dsimp only at h
    split at h <;> rename_i hr <;> cases h
    · exact .ready (.inr rfl) hw hp hr
    · exact .closed

theorem Polling.Moves.congr {x : H.Closure .waker} {s : Polling} (h : s.Moves m m' v x n)
    (hw : ∀ u, m''.wait? u = m'.wait? u) (hp : ∀ q, m''.cells? q = m'.cells? q) :
    s.Moves m m'' v x n := by
  cases h with
  | ready hs hw hp hr => exact .ready hs hw hp hr
  | look => exact .look
  | lock => exact .lock
  | pend hw₀ hp₀ hk hw' hp' => exact .pend hw₀ hp₀ hk (by rw [hw, hw']) (by rw [hp, hp'])
  | refuse hw₀ hp₀ hd hw' hp' => exact .refuse hw₀ hp₀ hd (by rw [hw, hw']) (by rw [hp, hp'])
  | closed => exact .closed

theorem Dropping.of_step (h : m.stepDropping v c = some (m', n)) (hk : c = .go) :
    Dropping m m' v n := by
  replace h := eq_of_runStage h hk
  obtain ⟨wait, hw, h⟩ := Option.bind_eq_some_iff.1 h
  have hw' : (m.modifyWait v fun wait => { wait with key := none, dropped := true }).wait? v =
      some { wait with key := none, dropped := true } := by
    rw [wait?_modifyWait, if_pos rfl, hw, Option.map_some]
  dsimp only at h
  split at h <;> rename_i hkey <;> cases h
  · exact .bare hw hkey hw'
  · exact .keyed hw hkey hw'

end

namespace Moment.Sound

variable {μ : Moment H} {v : WaitId}

theorem polling {x : H.Closure .waker} {s : Polling} (h : μ.Sound b)
    (hf : μ.frame = .polling v x s) : s.Moves μ.before μ.after v x μ.next := by
  have hk := h.control
  cases h.made with
  | step _ _ hs ha =>
    rw [hf] at hs hk
    rw [ha]
    exact (Polling.moves_of_step hs (hk.resolve_right Bool.false_ne_true)).congr
      (fun u => Machine.wait?_proceed ..) fun q => Machine.cells?_proceed ..
  | wake _ hf' => rw [hf] at hf'; cases hf'

/-- What happens at the moment at which a wait is dropped. -/
theorem dropping (h : μ.Sound b) (hf : μ.frame = .dropping v) :
    Dropping μ.before μ.after v μ.next := by
  have hk := h.control
  cases h.made with
  | step _ _ hs ha =>
    rw [hf] at hs hk
    have hd := Dropping.of_step hs (hk.resolve_right Bool.false_ne_true)
    rw [ha]
    generalize μ.next = n at hd
    cases hd with
    | bare hw hkey hw' => exact .bare hw hkey (by rw [Machine.wait?_proceed, hw'])
    | keyed hw hkey hw' => exact .keyed hw hkey (by rw [Machine.wait?_proceed, hw'])
  | wake _ hf' => rw [hf] at hf'; cases hf'

end Moment.Sound

/-! ## What is looked for -/

namespace Moment

/-- The waker of the poll of wait `v` that returns at a moment, and what it returns. -/
def polled? (v : WaitId) (μ : Moment H) :
    Option (H.Closure .waker × Option (Except ReadError Value)) :=
  match μ.frame, μ.next with
  | .polling u x _, .answer (.polled r) => if u = v then some (x, r) else none
  | _, _ => none

/-- The waker that a poll of wait `v` leaves with the promise at a moment, and the key that the wait
then has. -/
def pend? (v : WaitId) (μ : Moment H) : Option (Nat × H.Closure .waker) :=
  match μ.frame, μ.next with
  | .polling u x .register, .answer _ =>
    if u = v then ((μ.after.wait? v).bind Wait.key).map (·, x) else none
  | _, _ => none

variable {v : WaitId} {μ : Moment H}

theorem pend?_eq_none (hf : ∀ x, μ.frame ≠ .polling v x .register) : μ.pend? v = none := by
  unfold pend?
  split
  · rename_i u x _ hu _
    rw [if_neg fun he : u = v => hf x (he ▸ hu)]
  · rfl

end Moment

namespace Chronicle

/-- The polls of wait `v` that have returned: their wakers, and what they returned. -/
def polls (c : Chronicle H) (v : WaitId) :
    List (H.Closure .waker × Option (Except ReadError Value)) :=
  c.past.filterMap (Moment.polled? v)

/-- The wakers that the polls of wait `v` have left with the promise, with the keys. -/
def pends (c : Chronicle H) (v : WaitId) : List (Nat × H.Closure .waker) :=
  c.past.filterMap (Moment.pend? v)

end Chronicle

/-! ## One wait at a moment -/

/-- What a moment after `c` does to wait `v`: how the wait was and is, and what its poll leaves with
the promise. -/
inductive Wait.Moves (c : Chronicle H) (μ : Moment H) (v : WaitId) :
    Option Wait → Wait → List (Nat × H.Closure .waker) → Prop
  | same {wait} (hf : ∀ x, μ.frame ≠ .polling v x .register) : Moves c μ v (some wait) wait []
  | new {p} : Moves c μ v none { promise := p } []
  | pend {wait x pr k} (hf : μ.frame = .polling v x .register)
    (hp : c.machine.cells? wait.promise = some pr)
    (hk : (pr.wakers.data.register H.sameTask wait.key x pr.isDone).2 = some k)
    (hp' : μ.after.cells? wait.promise = some { pr with
      wakers := { data := (pr.wakers.data.register H.sameTask wait.key x pr.isDone).1 } }) :
    Moves c μ v (some wait) { wait with key := some k } [(k, x)]
  | refuse {wait x} (hf : μ.frame = .polling v x .register)
    (hp : μ.after.cells? wait.promise = c.machine.cells? wait.promise)
    (hd : c.machine.isDone wait.promise = true) :
    Moves c μ v (some wait) { wait with key := none } []
  | drop {wait} (hf : μ.frame = .dropping v) :
    Moves c μ v (some wait) { wait with key := none, dropped := true } []

/-- What a moment leaves with the promise of a wait is the waker of a poll of the wait. -/
theorem Wait.Moves.pend_of_mem {c : Chronicle H} {μ : Moment H} {v : WaitId} {wait wait' : Wait}
    {es : List (Nat × H.Closure .waker)} {e : Nat × H.Closure .waker}
    (h : Wait.Moves c μ v (some wait) wait' es) (he : e ∈ es) :
    ∃ pr, μ.frame = .polling v e.2 .register ∧ c.machine.cells? wait.promise = some pr ∧
      (pr.wakers.data.register H.sameTask wait.key e.2 pr.isDone).2 = some e.1 ∧
      μ.after.cells? wait.promise = some { pr with
        wakers := { data := (pr.wakers.data.register H.sameTask wait.key e.2 pr.isDone).1 } } := by
  cases h with
  | same | refuse | drop => cases he
  | pend hf hp hk hp' =>
    obtain rfl := List.mem_singleton.1 he
    exact ⟨_, hf, hp, hk, hp'⟩

namespace Chronicle

variable {c : Chronicle H} {μ : Moment H} {v : WaitId}

theorem pends_record_of_none (h : μ.pend? v = none) : (c.record μ).pends v = c.pends v := by
  simp [pends, h]

/-- Every moment does such a thing to every wait. -/
theorem Extends.wait_moves (hc : c.Reached b) (h : c.Extends b μ) {wait' : Wait}
    (hw' : μ.after.wait? v = some wait') : ∃ es,
    Wait.Moves c μ v (c.machine.wait? v) wait' es ∧ (c.record μ).pends v = c.pends v ++ es := by
  have hs := h.sound hc.tracked
  -- Three kinds of moment write to a wait: its registering poll, its drop, and its making.
  by_cases hreg : ∃ x, μ.frame = .polling v x .register
  · obtain ⟨x, hf⟩ := hreg
    have hm := hs.polling hf
    rw [h.before] at hm
    generalize hn : μ.next = n at hm
    cases hm with
    | @pend wait pr k hw hp hk hwa hp' =>
      rw [hw'] at hwa
      obtain rfl := Option.some.inj hwa
      refine ⟨[(k, x)], ?_, by simp [pends, Moment.pend?, hf, hn, hw']⟩
      rw [hw]
      exact .pend hf hp hk hp'
    | @refuse wait pr hw hp hd hwa hp' =>
      rw [hw'] at hwa
      obtain rfl := Option.some.inj hwa
      have hdone : c.machine.isDone wait.promise = true := by
        rcases Bool.or_eq_true_iff.1 hd with ht | hd
        · exact Machine.isDone_iff_cells?.2 ⟨_, hp, hc.isDone_of_taken hp ht⟩
        · exact Machine.isDone_iff_cells?.2 ⟨_, hp, hd⟩
      refine ⟨[], ?_, by simp [pends, Moment.pend?, hf, hn]⟩
      rw [hw]
      exact .refuse hf (by rw [hp', hp]) hdone
    | ready hs => obtain h | h := hs <;> cases h
  · have hreg : ∀ x, μ.frame ≠ .polling v x .register := fun x hf => hreg ⟨x, hf⟩
    have hpends : (c.record μ).pends v = c.pends v ++ [] := by
      rw [pends_record_of_none (Moment.pend?_eq_none hreg), List.append_nil]
    refine ⟨[], ?_, hpends⟩
    by_cases hdrop : μ.frame = .dropping v
    · have hd := hs.dropping hdrop
      rw [h.before] at hd
      generalize μ.next = n at hd
      cases hd with
      | bare hw _ hwa | keyed hw _ hwa =>
        rw [hw'] at hwa
        obtain rfl := Option.some.inj hwa
        rw [hw]
        exact .drop hdrop
    · have hch := h.made.effect.wait v
      rw [h.before, hw'] at hch
      generalize c.machine.wait? v = x, hx' : some wait' = x', hf : μ.frame = f, μ.next = n at hch
      cases hch with
      | same => exact hx' ▸ .same hreg
      | make => cases hx'; exact .new
      | poll => exact absurd hf (hreg _)
      | drop => exact absurd hf hdrop

end Chronicle

end OneShot
