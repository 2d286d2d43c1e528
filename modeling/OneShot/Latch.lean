import OneShot.Mutex

/-!
# Latches and interrupts

What a blocked reader waits for, and what can pull it back out.

- **The latch** (`Latch`) opens once, by storing an end time other than zero. Sleepers are woken
  and fall asleep under its gate.
- **The token** (`Token`) of a thread holds its interrupt flag and the latches its reads are
  parked on, one entry for each read (`Token.park`, `Token.unpark`).
- **Leaving the list** (`Token.perm_unpark`): takes out one entry and changes nothing but the order
  of the others.
-/

namespace OneShot

/-- A latch. Its end time is zero until it opens. -/
structure Latch where
  endTime : UInt64 := 0
  /-- Held to fall asleep, to open the latch and to wake sleepers. -/
  gate : Mutex Unit := { data := () }
  deriving Inhabited

/-- Whether the latch is open. -/
def Latch.isOpen (l : Latch) : Bool := l.endTime != 0

/-- Takes the element at position `i` out of a list and moves the last one into the gap. -/
def swapRemove {α : Type} (l : List α) (i : Nat) : List α :=
  match l.getLast? with
  | none => []
  | some z => (l.set i z).dropLast

theorem perm_swapRemove {α : Type} {l : List α} {i : Nat} (h : i < l.length) :
    (swapRemove l i).Perm (l.eraseIdx i) := by
  have hne : l ≠ [] := by rintro rfl; simp at h
  obtain ⟨s, z, rfl⟩ : ∃ s z, l = s ++ [z] :=
    ⟨l.dropLast, l.getLast hne, (List.dropLast_concat_getLast hne).symm⟩
  have hl : i ≤ s.length := by simpa [Nat.lt_succ_iff] using h
  rw [swapRemove, List.getLast?_concat]
  rcases Nat.lt_or_eq_of_le hl with hi | rfl
  · obtain ⟨a, b, x, rfl, rfl⟩ : ∃ a b x, s = a ++ x :: b ∧ i = a.length :=
      ⟨s.take i, s.drop (i + 1), s[i], by simp, by simp; omega⟩
    have hset : ((a ++ x :: b) ++ [z]).set a.length z = (a ++ z :: b) ++ [z] := by simp
    have hidx : ((a ++ x :: b) ++ [z]).eraseIdx a.length = a ++ (b ++ [z]) := by
      simp [List.eraseIdx_append_of_length_le]
    change List.Perm ((((a ++ x :: b) ++ [z]).set a.length z).dropLast) _
    rw [hset, List.dropLast_concat, hidx]
    exact (List.perm_append_singleton z b).symm.append_left a
  · simp [List.eraseIdx_append_of_length_le]

/-- The interrupt token of one thread. -/
structure Token where
  /-- An interrupt was requested and not cleared since. -/
  flag : Bool := false
  /-- The latches that reads of this thread are parked on. -/
  parked : Mutex (List PromiseId) := { data := [] }
  deriving Inhabited

namespace Token

/-- The parked list with one more entry for the latch of `p`. -/
def park (parked : List PromiseId) (p : PromiseId) : List PromiseId := parked ++ [p]

/-- The parked list with one entry for the latch of `p` less. -/
def unpark (parked : List PromiseId) (p : PromiseId) : List PromiseId :=
  match parked.findIdx? (· == p) with
  | some i => swapRemove parked i
  | none => parked

theorem perm_unpark (parked : List PromiseId) (p : PromiseId) :
    (unpark parked p).Perm (parked.erase p) := by
  unfold unpark
  rw [List.erase_eq_eraseIdx]
  cases h : parked.findIdx? (· == p) with
  | none =>
    have hn : parked.idxOf? p = none := by simpa [List.idxOf?] using h
    simp [hn]
  | some i =>
    have hi : parked.idxOf? p = some i := by simpa [List.idxOf?] using h
    rw [hi]
    obtain ⟨hlt, -⟩ := List.findIdx?_eq_some_iff_getElem.1 h
    exact perm_swapRemove hlt

end Token

end OneShot
