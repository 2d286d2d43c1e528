import Mathlib.Data.List.Induction
import OneShot.WakerSet

/-!
# The keys of a waker set

Keys are handed out in ascending order and never twice, so an entry belongs to the one wait whose
key it is under.

- **Sound sets** (`WakerSet.Sound`): no key is in use twice and none is in use that was not handed
  out. All operations keep that.
- **One entry** (`WakerSet.filter_entries`): what is found under a key is the only entry of that
  key.
- **What stays in a slot** (`slot`): when one wait registers wakers one after the other, a waker
  stays until one comes that wakes another task (`exists_of_slot`).
-/

namespace OneShot.WakerSet

variable {ω : Type} {s : WakerSet ω} {same : ω → ω → Bool} {key : Option Nat} {w : ω} {done : Bool}
  {n k : Nat}

/-- No key is in use twice, and none that was not handed out. -/
structure Sound (s : WakerSet ω) : Prop where
  nodup : (s.entries.map Prod.fst).Nodup
  le : ∀ k ∈ s.entries.map Prod.fst, k ≤ s.last

theorem sound_empty : ({} : WakerSet ω).Sound := ⟨List.nodup_nil, fun k hk => by cases hk⟩

theorem map_fst_store (same : ω → ω → Bool) (key : Nat) (w : ω) (es : List (Nat × ω)) :
    (store same key w es).map Prod.fst =
      if key ∈ es.map Prod.fst then es.map Prod.fst else es.map Prod.fst ++ [key] := by
  induction es with
  | nil => rfl
  | cons e es ih =>
    obtain ⟨j, v⟩ := e
    by_cases hj : j = key
    · subst hj
      simp [store]
    · simp only [store, if_neg hj, List.map_cons, ih, List.mem_cons, Ne.symm hj, false_or]
      split <;> rfl

theorem nodup_store {es : List (Nat × ω)} (h : (es.map Prod.fst).Nodup) (key : Nat) :
    ((store same key w es).map Prod.fst).Nodup := by
  rw [map_fst_store]
  split
  · exact h
  · rename_i hk
    exact List.nodup_append.2 ⟨h, by simp, fun a ha b hb hab =>
      hk (List.mem_singleton.1 hb ▸ hab ▸ ha)⟩

theorem mem_store {es : List (Nat × ω)} (key : Nat)
    (h : k ∈ (store same key w es).map Prod.fst) : k ∈ es.map Prod.fst ∨ k = key := by
  rw [map_fst_store] at h
  split at h
  · exact .inl h
  · exact (List.mem_append.1 h).imp_right List.mem_singleton.1

/-- A registration hands out the next key, or none. -/
theorem last_register (s : WakerSet ω) (same : ω → ω → Bool) (key : Option Nat) (w : ω)
    (done : Bool) : s.last ≤ (s.register same key w done).1.last ∧
      (s.register same key w done).1.last ≤ s.last + 1 := by
  unfold register
  split
  · exact ⟨Nat.le_refl _, Nat.le_succ _⟩
  · cases key with
    | none => exact ⟨Nat.le_succ _, Nat.le_refl _⟩
    | some k => exact ⟨Nat.le_refl _, Nat.le_succ _⟩

/-- The key under which a registration stores, and the last key handed out after it. -/
theorem register_eq_some (h : (s.register same key w done).2 = some n) :
    (s.taken || done) = false ∧ (s.register same key w done).1.taken = false ∧
      (key = some n ∧ (s.register same key w done).1.last = s.last ∨
        key = none ∧ n = s.last + 1 ∧ (s.register same key w done).1.last = n) := by
  unfold register at h ⊢
  split at h
  · cases h
  · rename_i hopen
    have hopen := eq_false_of_ne_true hopen
    have htaken := (Bool.or_eq_false_iff.1 hopen).1
    rw [if_neg (by rw [hopen]; exact Bool.false_ne_true)]
    cases key with
    | none =>
      cases h
      exact ⟨hopen, htaken, .inr ⟨rfl, rfl, rfl⟩⟩
    | some key =>
      cases h
      exact ⟨hopen, htaken, .inl ⟨rfl, rfl⟩⟩

theorem Sound.register (h : s.Sound) (hk : ∀ k, key = some k → k ≤ s.last) :
    (s.register same key w done).1.Sound := by
  unfold WakerSet.register
  split
  · exact h
  · cases key with
    | none =>
      refine ⟨nodup_store h.nodup _, fun k hk => ?_⟩
      rcases mem_store _ hk with hk | rfl
      · exact Nat.le_succ_of_le (h.le k hk)
      · exact Nat.le_refl _
    | some key =>
      refine ⟨nodup_store h.nodup _, fun k hk' => ?_⟩
      rcases mem_store _ hk' with hk' | rfl
      · exact h.le k hk'
      · exact hk _ rfl

theorem Sound.remove (h : s.Sound) (key : Nat) : (s.remove key).Sound := by
  have hsub : ((s.remove key).entries.map Prod.fst).Sublist (s.entries.map Prod.fst) :=
    List.filter_sublist.map _
  exact ⟨hsub.nodup h.nodup, fun k hk => h.le k (hsub.subset hk)⟩

theorem Sound.takeAll (_h : s.Sound) : s.takeAll.1.Sound :=
  ⟨List.nodup_nil, fun k hk => by cases hk⟩

theorem mem_of_lookup {es : List (Nat × ω)} (h : es.lookup k = some w) : (k, w) ∈ es := by
  induction es with
  | nil => cases h
  | cons e es ih =>
    obtain ⟨j, v⟩ := e
    by_cases hj : k = j
    · subst hj
      simp only [List.lookup_cons, beq_self_eq_true, Option.some.injEq] at h
      exact h ▸ List.mem_cons_self
    · have hb : (k == j) = false := by simpa using hj
      rw [List.lookup_cons, hb] at h
      exact List.mem_cons_of_mem _ (ih h)

theorem Sound.get?_eq_none (h : s.Sound) (hk : s.last < k) : s.get? k = none := by
  cases hg : s.get? k with
  | none => rfl
  | some w =>
    have := h.le k (List.mem_map.2 ⟨_, mem_of_lookup hg, rfl⟩)
    omega

/-- What is found under a key is the only entry of that key. -/
theorem Sound.filter_entries (h : s.Sound) (hg : s.get? k = some w) :
    s.entries.filter (·.1 = k) = [(k, w)] := by
  have hd := h.nodup
  unfold get? at hg
  generalize s.entries = es at hg hd
  induction es with
  | nil => cases hg
  | cons e es ih =>
    obtain ⟨j, v⟩ := e
    obtain ⟨hj, hd⟩ := List.nodup_cons.1 hd
    by_cases hk : j = k
    · subst hk
      simp only [List.lookup_cons, beq_self_eq_true, Option.some.injEq] at hg
      rw [List.filter_cons_of_pos (by simp), hg, List.filter_eq_nil_iff.2]
      exact fun e he heq => hj (List.mem_map.2 ⟨e, he, by simpa using heq⟩)
    · have hb : (k == j) = false := by simpa using Ne.symm hk
      rw [List.lookup_cons, hb] at hg
      rw [List.filter_cons_of_neg (by simpa using hk)]
      exact ih hg hd

/-! ## What stays in a slot -/

/-- The waker that stays under one key when these wakers are registered under it in turn. -/
def slot (same : ω → ω → Bool) (ws : List ω) : Option ω :=
  ws.foldl (fun old w => some (renewed same old w)) none

@[simp] theorem slot_concat (same : ω → ω → Bool) (ws : List ω) (w : ω) :
    slot same (ws ++ [w]) = some (renewed same (slot same ws) w) := by
  simp [slot]

/-- The waker that stays was registered at some time, and all that came later wake the same task. -/
theorem exists_of_slot (same : ω → ω → Bool) (ws : List ω) (w : ω) :
    ∃ l v l', ws ++ [w] = l ++ v :: l' ∧ slot same (ws ++ [w]) = some v ∧
      ∀ u ∈ l', same v u = true := by
  induction ws using List.reverseRecOn generalizing w with
  | nil => exact ⟨[], w, [], rfl, rfl, fun u hu => by cases hu⟩
  | append_singleton ws x ih =>
    obtain ⟨l, v, l', hl, hv, hsame⟩ := ih x
    rw [slot_concat, hv, renewed]
    by_cases hw : same v w = true
    · exact ⟨l, v, l' ++ [w], by rw [hl]; simp, by simp [hw],
        List.forall_mem_append.2 ⟨hsame, List.forall_mem_singleton.2 hw⟩⟩
    · exact ⟨ws ++ [x], w, [], rfl, by simp [hw], fun u hu => by cases hu⟩

end OneShot.WakerSet
