/-!
# Guarded data

Data that one thread at a time may touch. A thread takes the guard, works on the data and gives the
guard back; a thread that finds the guard taken, be it by itself, has to wait.

- **Taking** (`Mutex.acquire?`): gives nothing if the guard is taken.
- **Giving back** (`Mutex.release`): with the data as it is now.
-/

namespace OneShot

/-- Threads are known by number. -/
abbrev ThreadId := Nat

/-- Promises are known by number, in the order of their construction. -/
abbrev PromiseId := Nat

/-- Data behind a guard. -/
structure Mutex (α : Type) where
  /-- The guarded data. -/
  data : α
  /-- The thread that holds the guard. -/
  owner : Option ThreadId := none
  deriving Inhabited

namespace Mutex

variable {α : Type}

/-- Takes the guard for thread `t` if nobody holds it. -/
def acquire? (m : Mutex α) (t : ThreadId) : Option (Mutex α) :=
  match m.owner with
  | none => some { m with owner := some t }
  | some _ => none

/-- Gives the guard back, leaving `a` as the data. -/
def release (_ : Mutex α) (a : α) : Mutex α := { data := a }

@[simp] theorem data_release (m : Mutex α) (a : α) : (m.release a).data = a := rfl

@[simp] theorem owner_release (m : Mutex α) (a : α) : (m.release a).owner = none := rfl

theorem acquire?_eq_some_iff {m m' : Mutex α} {t : ThreadId} :
    m.acquire? t = some m' ↔ m.owner = none ∧ m' = { m with owner := some t } := by
  unfold acquire?
  cases m.owner <;> simp [eq_comm]

end Mutex

end OneShot
