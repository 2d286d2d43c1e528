import OneShot.Machine.Step

/-!
# The parts of a machine after a change

What is found under a number after one part of a machine has been changed: the changed part if it is
asked for, and else what was there before. Changing a part of one kind leaves the parts of the other
kinds as they are.

- **Changed parts**: by `modifyPromise`, `modifyThread`, `modifyWait`, and by what is built from
  them (`rouse`, `resume`, `proceed`).
- **New parts** (`promise?_addPromise`, `thread?_addThread`, `wait?_addWait`): under the first
  number that was free.
-/

namespace OneShot.Machine

variable {H : Host} (m : Machine H)

/-! ## Promises -/

@[simp] theorem promise?_modifyPromise (p q : PromiseId) (f : Promise H → Promise H) :
    (m.modifyPromise p f).promise? q = if p = q then (m.promise? q).map f else m.promise? q := by
  simp [modifyPromise, promise?, Array.getElem?_modify]

@[simp] theorem promise?_modifyThread (t : ThreadId) (f : Thread H → Thread H) (q : PromiseId) :
    (m.modifyThread t f).promise? q = m.promise? q := rfl

@[simp] theorem promise?_modifyWait (w : WaitId) (f : Wait → Wait) (q : PromiseId) :
    (m.modifyWait w f).promise? q = m.promise? q := rfl

@[simp] theorem promise?_rouse (p q : PromiseId) : (m.rouse p).promise? q = m.promise? q := rfl

@[simp] theorem promise?_record (r : LogRecord) (q : PromiseId) :
    (m.record r).promise? q = m.promise? q := rfl

@[simp] theorem promise?_resume (b : Behaviour H) (t : ThreadId) {r : Role} (code : H.Code r)
    (c : Control) (q : PromiseId) : (m.resume b t code c).1.promise? q = m.promise? q := rfl

@[simp] theorem promise?_proceed (t : ThreadId) (rest : List (Frame H)) (n : Next H)
    (q : PromiseId) : (m.proceed t rest n).promise? q = m.promise? q := by
  cases n <;> rfl

theorem promise?_addPromise (pr : Promise H) (q : PromiseId) :
    (m.addPromise pr).1.promise? q = if q = m.promises.size then some pr else m.promise? q := by
  simp [addPromise, promise?, Array.getElem?_push]

theorem promise?_size : m.promise? m.promises.size = none := by
  simp [promise?]

/-! ## Threads -/

@[simp] theorem thread?_modifyThread (t u : ThreadId) (f : Thread H → Thread H) :
    (m.modifyThread t f).thread? u = if t = u then (m.thread? u).map f else m.thread? u := by
  simp [modifyThread, thread?, Array.getElem?_modify]

@[simp] theorem thread?_modifyPromise (p : PromiseId) (f : Promise H → Promise H)
    (u : ThreadId) : (m.modifyPromise p f).thread? u = m.thread? u := rfl

@[simp] theorem thread?_modifyWait (w : WaitId) (f : Wait → Wait) (u : ThreadId) :
    (m.modifyWait w f).thread? u = m.thread? u := rfl

@[simp] theorem thread?_rouse (p : PromiseId) (u : ThreadId) :
    (m.rouse p).thread? u = (m.thread? u).map (·.rouse p) := by
  simp [rouse, thread?]

@[simp] theorem thread?_record (r : LogRecord) (u : ThreadId) :
    (m.record r).thread? u = m.thread? u := rfl

@[simp] theorem thread?_resume (b : Behaviour H) (t : ThreadId) {r : Role} (code : H.Code r)
    (c : Control) (u : ThreadId) : (m.resume b t code c).1.thread? u = m.thread? u := rfl

theorem thread?_addThread (u : ThreadId) :
    m.addThread.1.thread? u = if u = m.threads.size then some {} else m.thread? u := by
  simp [addThread, thread?, Array.getElem?_push]

@[simp] theorem promise?_addThread (q : PromiseId) : m.addThread.1.promise? q = m.promise? q := rfl

@[simp] theorem thread?_addPromise (pr : Promise H) (u : ThreadId) :
    (m.addPromise pr).1.thread? u = m.thread? u := rfl

/-! ## Waits -/

theorem wait?_addWait (w : Wait) (v : WaitId) :
    (m.addWait w).1.wait? v = if v = m.waits.size then some w else m.wait? v := by
  simp [addWait, wait?, Array.getElem?_push]

@[simp] theorem wait?_addPromise (pr : Promise H) (v : WaitId) :
    (m.addPromise pr).1.wait? v = m.wait? v := rfl

@[simp] theorem wait?_addThread (v : WaitId) : m.addThread.1.wait? v = m.wait? v := rfl

@[simp] theorem wait?_rouse (p : PromiseId) (v : WaitId) : (m.rouse p).wait? v = m.wait? v := rfl

@[simp] theorem wait?_record (r : LogRecord) (v : WaitId) :
    (m.record r).wait? v = m.wait? v := rfl

@[simp] theorem wait?_resume (b : Behaviour H) (t : ThreadId) {r : Role} (code : H.Code r)
    (c : Control) (v : WaitId) : (m.resume b t code c).1.wait? v = m.wait? v := rfl

@[simp] theorem wait?_proceed (t : ThreadId) (rest : List (Frame H)) (n : Next H)
    (v : WaitId) : (m.proceed t rest n).wait? v = m.wait? v := by
  cases n <;> rfl

@[simp] theorem wait?_modifyWait (w v : WaitId) (f : Wait → Wait) :
    (m.modifyWait w f).wait? v = if w = v then (m.wait? v).map f else m.wait? v := by
  simp [modifyWait, wait?, Array.getElem?_modify]

@[simp] theorem wait?_modifyPromise (p : PromiseId) (f : Promise H → Promise H) (v : WaitId) :
    (m.modifyPromise p f).wait? v = m.wait? v := rfl

@[simp] theorem wait?_modifyThread (t : ThreadId) (f : Thread H → Thread H) (v : WaitId) :
    (m.modifyThread t f).wait? v = m.wait? v := rfl

/-! ## Waking -/

@[simp] theorem token_rouse (th : Thread H) (p : PromiseId) : (th.rouse p).token = th.token := by
  unfold Thread.rouse
  split
  · split <;> rfl
  · rfl

@[simp] theorem control_rouse (th : Thread H) (p : PromiseId) :
    (th.rouse p).control = th.control := by
  unfold Thread.rouse
  split
  · split <;> rfl
  · rfl

end OneShot.Machine
