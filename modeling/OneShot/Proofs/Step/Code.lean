import OneShot.Machine.Lemmas

/-!
# Steps that run code and steps that do not

A step of a call either runs the program's code or does one piece of the library's own work. This
module says once what each of the two can come to.

- **Own work** (`runStage_eq_some`): done of the call's own accord, or passed by a panic.
- **Code** (`Ran`, `ran_of_runCode`): it calls the library, goes on, returns or panics, and one of
  these it can always do (`isSome_runCode`).
- **What code leaves alone** (`Alike`): it changes neither promises nor waits nor threads.
-/

namespace OneShot.Machine

variable {H : Host} {m m' m'' : Machine H}

/-- The same promises, waits and threads; the program's data and the log may differ. -/
structure Alike (m m' : Machine H) : Prop where
  promises : m'.promises = m.promises
  waits : m'.waits = m.waits
  threads : m'.threads = m.threads
  aborted : m'.aborted = m.aborted

theorem Alike.promise? (h : m.Alike m') (p : PromiseId) : m'.promise? p = m.promise? p := by
  rw [Machine.promise?, h.promises]
  rfl

theorem Alike.refl (m : Machine H) : m.Alike m := ⟨rfl, rfl, rfl, rfl⟩

theorem Alike.trans (h : m.Alike m') (h' : m'.Alike m'') : m.Alike m'' :=
  ⟨h'.promises.trans h.promises, h'.waits.trans h.waits, h'.threads.trans h.threads,
    h'.aborted.trans h.aborted⟩

theorem Alike.record (h : m.Alike m') (r : LogRecord) : m.Alike (m'.record r) :=
  ⟨h.promises, h.waits, h.threads, h.aborted⟩

theorem alike_resume {b : Behaviour H} {t : ThreadId} {r : Role} {code : H.Code r} {c : Control}
    {a : Act H r} (h : m.resume b t code c = (m', a)) : m.Alike m' := by
  obtain ⟨rfl, -⟩ := Prod.mk.inj h
  exact ⟨rfl, rfl, rfl, rfl⟩

/-- A step that runs no code is made of the call's own accord, or a panic passes it. -/
theorem runStage_eq_some {c : Control} {k : Move H} {r : Machine H × Next H}
    (h : m.runStage c k = some r) :
    c = .go ∧ k = some r ∨ ∃ x, c = .raise x ∧ r = (m, .throw x) := by
  cases c with
  | go => exact .inl ⟨rfl, h⟩
  | ret a => cases h
  | raise x => exact .inr ⟨x, rfl, (Option.some.inj h).symm⟩

/-- A step that runs no code is made of the call's own accord, if the call cannot be told of a
panic. -/
theorem eq_of_runStage {c : Control} {k : Move H} {r : Machine H × Next H}
    (h : m.runStage c k = some r) (hk : c = .go) : k = some r := by
  subst hk
  exact h

/-- What a step of code comes to. -/
inductive Ran (b : Behaviour H) (m : Machine H) (t : ThreadId) {r : Role} (code : H.Code r)
    (c : Control) (wrap : H.Code r → Frame H) (done : Machine H → r.Reply → Move H) :
    Machine H → Next H → Prop
  | call {m₁ callee k} (hr : m.resume b t code c = (m₁, .call callee k)) :
    Ran b m t code c wrap done m₁ (.enter callee.frame (wrap k))
  | stay {m₁ k} (hr : m.resume b t code c = (m₁, .stay k)) :
    Ran b m t code c wrap done m₁ (.goto (wrap k))
  | finish {m₁ v m' n} (hr : m.resume b t code c = (m₁, .finish v))
    (hd : done m₁ v = some (m', n)) : Ran b m t code c wrap done m' n
  | panic {m₁ x} (hr : m.resume b t code c = (m₁, .panic x)) :
    Ran b m t code c wrap done m₁ (.throw x)

theorem ran_of_runCode {b : Behaviour H} {t : ThreadId} {r : Role} {code : H.Code r}
    {c : Control} {wrap : H.Code r → Frame H} {done : Machine H → r.Reply → Move H} {n : Next H}
    (h : m.runCode b t code c wrap done = some (m', n)) : Ran b m t code c wrap done m' n := by
  unfold runCode at h
  split at h
  · rename_i hr; cases h; exact .call hr
  · rename_i hr; cases h; exact .stay hr
  · rename_i hr; exact .finish hr h
  · rename_i hr; cases h; exact .panic hr

/-- Nothing keeps code from running, if the call can go on whatever the code returns. -/
theorem isSome_runCode {b : Behaviour H} {t : ThreadId} {r : Role} {code : H.Code r} {c : Control}
    {wrap : H.Code r → Frame H} {done : Machine H → r.Reply → Move H}
    (h : ∀ m₁ v, m.Alike m₁ → (done m₁ v).isSome = true) :
    (m.runCode b t code c wrap done).isSome = true := by
  unfold runCode
  split
  · rfl
  · rfl
  · rename_i hr
    exact h _ _ (alike_resume hr)
  · rfl

end OneShot.Machine
