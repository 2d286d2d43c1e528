/-!
# Listener registries

The listeners that wait for a promise: a list that grows while the promise is pending and is taken
out once, when it completes.

- **Registering** (`Registry.register`): asks twice whether the promise is done, before and after
  the guard is taken, and hands the listener back if either answer is yes or the list is gone.
- **Draining** (`Registry.drain`): takes the whole list, in registration order; after that nothing
  is stored.
-/

namespace OneShot

/-- The listeners of one promise. -/
inductive Registry (α : Type) where
  /-- Listeners in registration order. -/
  | pending (listeners : List α)
  /-- The listeners have been taken out. -/
  | drained

namespace Registry

variable {α : Type}

/-- No listeners yet. -/
def empty : Registry α := pending []

instance : Inhabited (Registry α) := ⟨empty⟩

/-- The listeners stored. -/
def toList : Registry α → List α
  | pending ls => ls
  | drained => []

/-- How many listeners are stored. -/
def length (r : Registry α) : Nat := r.toList.length

/-- Whether the listeners have been taken out. -/
def isDrained : Registry α → Bool
  | pending _ => false
  | drained => true

/-- What registration does under the guard: stores the listener, or hands it back if the promise
is done by then or the list is gone. -/
def enroll (r : Registry α) (l : α) (done : Bool) : Registry α × Option α :=
  if done then (r, some l)
  else
    match r with
    | pending ls => (pending (ls ++ [l]), none)
    | drained => (drained, some l)

/-- Registers a listener. `before` and `under` say whether the promise was done before the guard
was taken and while it was held. A listener handed back is for the caller to run. -/
def register (r : Registry α) (l : α) (before under : Bool) : Registry α × Option α :=
  if before then (r, some l) else r.enroll l under

/-- Takes every listener out, in registration order. -/
def drain (r : Registry α) : Registry α × List α := (drained, r.toList)

@[simp] theorem toList_empty : (empty : Registry α).toList = [] := rfl

@[simp] theorem toList_drain (r : Registry α) : r.drain.1.toList = [] := rfl

@[simp] theorem drain_snd (r : Registry α) : r.drain.2 = r.toList := rfl

theorem enroll_snd (r : Registry α) (l : α) (done : Bool) :
    (r.enroll l done).2 = if done || r.isDrained then some l else none := by
  cases done <;> cases r <;> rfl

theorem enroll_fst (r : Registry α) (l : α) (done : Bool) :
    (r.enroll l done).1 = if done || r.isDrained then r else pending (r.toList ++ [l]) := by
  cases done <;> cases r <;> rfl

@[simp] theorem isDrained_enroll (r : Registry α) (l : α) (done : Bool) :
    (r.enroll l done).1.isDrained = r.isDrained := by
  cases done <;> cases r <;> rfl

@[simp] theorem isDrained_drain (r : Registry α) : r.drain.1.isDrained = true := rfl

theorem toList_enroll (r : Registry α) (l : α) (done : Bool) :
    (r.enroll l done).1.toList =
      if (r.enroll l done).2.isNone then r.toList ++ [l] else r.toList := by
  unfold enroll
  split
  · simp
  · cases r <;> simp [toList]

end Registry

end OneShot
