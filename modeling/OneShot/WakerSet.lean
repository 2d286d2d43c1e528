/-!
# Waker sets

The wakers of the pending waits on one promise. Each wait that registers gets a key of its own and
keeps it, so that it can renew its waker in place and take it back out.

- **Registering** (`WakerSet.register`): under a new key or the wait's old one, unless the promise
  is done or the set has been taken.
- **Removing** (`WakerSet.remove`): by key; a key without entry removes nothing.
- **Taking** (`WakerSet.takeAll`): all wakers at once, for good.

Main statements: registering or removing under one key leaves what is found under every other key
(`get?_register`, `get?_remove`).
-/

namespace OneShot

/-- The wakers waiting on one promise. -/
structure WakerSet (ω : Type) where
  /-- The last key handed out. Keys are numbers without bound here. A 64-bit counter hands out the
  same ones in every run with fewer than `2 ^ 64` polls, since each takes a poll of its own
  (`Reached.last_le_countP`). -/
  last : Nat := 0
  /-- The wakers by key. -/
  entries : List (Nat × ω) := []
  /-- The set has been taken, and nothing registers any more. -/
  taken : Bool := false

namespace WakerSet

variable {ω : Type}

instance : Inhabited (WakerSet ω) := ⟨{}⟩

/-- The waker under a key. -/
def get? (s : WakerSet ω) (key : Nat) : Option ω := s.entries.lookup key

/-- Puts a waker under a key. A stored waker that wakes the same task stays. -/
def store (same : ω → ω → Bool) (key : Nat) (w : ω) : List (Nat × ω) → List (Nat × ω)
  | [] => [(key, w)]
  | (k, v) :: es =>
    if k = key then (k, if same v w then v else w) :: es else (k, v) :: store same key w es

/-- Registers a waker for a wait that holds `key`, or none yet, which is given the next number
(see `WakerSet.last`). Gives the key under which the waker is stored, or none if the promise is
done. -/
def register (s : WakerSet ω) (same : ω → ω → Bool) (key : Option Nat) (w : ω) (done : Bool) :
    WakerSet ω × Option Nat :=
  if s.taken || done then (s, none)
  else
    match key with
    | some k => ({ s with entries := store same k w s.entries }, some k)
    | none =>
      ({ s with last := s.last + 1, entries := store same (s.last + 1) w s.entries },
        some (s.last + 1))

/-- Takes out the waker under a key. -/
def remove (s : WakerSet ω) (key : Nat) : WakerSet ω :=
  { s with entries := s.entries.filter (·.1 != key) }

/-- Takes out all wakers and closes the set. A waker set promises no order of its wakers; the one in
which their waits have registered first stands for whichever order there is. -/
def takeAll (s : WakerSet ω) : WakerSet ω × List ω :=
  ({ s with entries := [], taken := true }, s.entries.map (·.2))

/-! ## What is found under a key -/

/-- The waker that stays under a key when `w` is stored and `old` was there before. -/
def renewed (same : ω → ω → Bool) (old : Option ω) (w : ω) : ω :=
  match old with
  | some v => if same v w then v else w
  | none => w

theorem lookup_store (same : ω → ω → Bool) (key k : Nat) (w : ω) (es : List (Nat × ω)) :
    (store same key w es).lookup k =
      if k = key then some (renewed same (es.lookup key) w) else es.lookup k := by
  induction es with
  | nil =>
    by_cases h : k = key
    · simp [store, renewed, h]
    · have hk : (k == key) = false := by simpa using h
      simp [store, h, hk, List.lookup_cons]
  | cons e es ih =>
    obtain ⟨j, v⟩ := e
    by_cases hj : j = key
    · subst hj
      by_cases h : k = j
      · simp [store, renewed, h]
      · have hk : (k == j) = false := by simpa using h
        simp [store, h, hk, List.lookup_cons]
    · by_cases h : k = j
      · subst h
        simp [store, hj]
      · have hk : (k == j) = false := by simpa using h
        have hkey : (key == j) = false := by simpa using Ne.symm hj
        simp only [store, if_neg hj, List.lookup_cons, hk, hkey, ih]

/-- A registration that gives a key has stored the waker there, and nowhere else. -/
theorem get?_register {s : WakerSet ω} {same : ω → ω → Bool} {key : Option Nat} {w : ω}
    {done : Bool} {n : Nat} (h : (s.register same key w done).2 = some n) (k : Nat) :
    (s.register same key w done).1.get? k =
      if k = n then some (renewed same (s.get? n) w) else s.get? k := by
  unfold register at h ⊢
  split at h
  · simp at h
  · rename_i hopen
    rw [if_neg hopen]
    cases key with
    | none =>
      obtain rfl : s.last + 1 = n := by simpa using h
      exact lookup_store same (s.last + 1) k w s.entries
    | some key =>
      obtain rfl : key = n := by simpa using h
      exact lookup_store same key k w s.entries

theorem get?_remove (s : WakerSet ω) (key k : Nat) :
    (s.remove key).get? k = if k = key then none else s.get? k := by
  obtain ⟨last, es, taken⟩ := s
  simp only [remove, get?]
  induction es with
  | nil => simp
  | cons e es ih =>
    obtain ⟨j, v⟩ := e
    by_cases hj : j = key
    · subst hj
      by_cases h : k = j
      · subst h
        simpa using ih
      · have hk : (k == j) = false := by simpa using h
        simpa [List.lookup_cons, hk, h] using ih
    · by_cases h : k = j
      · subst h
        simp [hj]
      · have hk : (k == j) = false := by simpa using h
        simpa [List.lookup_cons, hk, hj] using ih

@[simp] theorem get?_takeAll (s : WakerSet ω) (key : Nat) : s.takeAll.1.get? key = none := rfl

theorem register_refused {s : WakerSet ω} {same : ω → ω → Bool} {key : Option Nat} {w : ω}
    {done : Bool} (h : (s.register same key w done).2 = none) :
    (s.register same key w done).1 = s ∧ (s.taken || done) = true := by
  unfold register at h ⊢
  split at h
  · rename_i hclosed
    simp [hclosed]
  · cases key <;> simp at h

end WakerSet

end OneShot
