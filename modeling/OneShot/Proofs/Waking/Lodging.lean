import Mathlib.Data.Set.Function
import OneShot.Proofs.Waking.Tenancy

/-!
# The entries of a waker set

While a promise is pending its waker set has one entry for each wait that has registered and is
alive, and no other.

- **Alive** (`Chronicle.Lodges`): not dropped, or the call that drops it is not over.
- **What touches an entry** (`Extends.touches`): the polls of its wait, the drop of its wait, and
  the completion that takes the set. So every entry is under the key of a wait
  (`Reached.exists_owns`).
- **All of it** (`entries_match_waits`).
-/

namespace OneShot

variable {H : Host} {b : Behaviour H}

theorem WakerSet.get?_ne_none {ω : Type} {s : WakerSet ω} {e : Nat × ω} (he : e ∈ s.entries) :
    s.get? e.1 ≠ none := by
  intro hnone
  simpa using List.lookup_eq_none_iff.1 hnone e he

/-- The waker under a key of the waker set of `p`. -/
def Machine.waker? (m : Machine H) (p : PromiseId) (k : Nat) : Option (H.Closure .waker) :=
  (m.promise? p).bind fun pr => pr.wakers.data.get? k

namespace Frame

variable {f g : Frame H} {v : WaitId}

theorem Becomes.eq_dropping (h : g.Becomes (.dropping v)) : g = .dropping v := by
  cases h with
  | refl => rfl
  | step _ hs => cases hs

theorem Becomes.of_dropping (h : (Frame.dropping v).Becomes f) :
    f = .dropping v ∨ ∃ p k s, f = .removing p k s := by
  induction h with
  | refl => exact .inl rfl
  | step _ hs ih =>
    rcases ih with rfl | ⟨p, k, s, rfl⟩ <;> cases hs
    · exact .inr ⟨_, _, _, rfl⟩
    · exact .inr ⟨_, _, _, rfl⟩

end Frame

namespace Chronicle

variable {c : Chronicle H} {μ ν : Moment H} {p : PromiseId} {v : WaitId} {wait : Wait} {k : Nat}
  {pr : Promise H}

/-! ## What touches an entry -/

theorem waker?_eq (m : Machine H) (p : PromiseId) (k : Nat) :
    m.waker? p k = (m.cells? p).bind fun pr => pr.wakers.data.get? k := by
  unfold Machine.waker? Machine.cells?
  cases m.promise? p <;> rfl

theorem waker?_of_cells {m : Machine H} (hp : m.cells? p = some pr) :
    m.waker? p k = pr.wakers.data.get? k := by
  rw [waker?_eq, hp, Option.bind_some]

/-- What is under a key changes only when the set is taken, when the key is removed, or when a poll
registers that is given the key. -/
theorem Extends.touches (hc : c.Reached b) (h : c.Extends b μ)
    (hne : μ.after.waker? p k ≠ c.machine.waker? p k) :
    μ.after.waker? p k = none ∧
        (μ.frame = .completing p .takeWakers ∨ μ.frame = .removing p k .work) ∨
      ∃ v x, μ.frame = .polling v x .register ∧ (c.record μ).Owns p v k := by
  have hch := h.made.effect.promise p
  rw [h.before] at hch
  rw [waker?_eq, waker?_eq] at hne
  rw [waker?_eq]
  generalize hx : c.machine.cells? p = x, hx' : μ.after.cells? p = x', hf : μ.frame = f,
    μ.next = n at hch hne
  cases hch with
  | takeWakers => exact .inl ⟨rfl, .inl rfl⟩
  | @remove key _ pr =>
    by_cases hk : k = key
    · exact .inl ⟨by simp [WakerSet.get?_remove, hk], .inr (by rw [hk])⟩
    · simp [WakerSet.get?_remove, hk] at hne
  -- Only the entry under the key that the poll is given has changed, so `k` is that key.
  | @register v wait x _ pr hw hq =>
    obtain ⟨wait', hw', hpe⟩ := h.wait hw
    obtain ⟨es, hm, hes⟩ := h.wait_moves hc hw'
    rw [hw] at hm
    cases hm with
    | same hf' => exact absurd hf (hf' x)
    | drop hf' => rw [hf] at hf'; cases hf'
    | refuse _ hp' =>
      rw [hq, hx, hx'] at hp'
      rw [hp'] at hne
      exact absurd rfl hne
    | @pend _ x' pr' n hf' hp hreg hp' =>
      rw [hq] at hp hp'
      obtain rfl := Option.some.inj (hx.symm.trans hp)
      refine .inr ⟨v, x, rfl, _, hw', hpe.trans hq, (n, x'), by rw [hes]; simp, ?_⟩
      by_contra hk
      rw [hx'] at hp'
      rw [hp', Option.bind_some, Option.bind_some, WakerSet.get?_register hreg,
        if_neg (Ne.symm hk)] at hne
      exact hne rfl
  | make => exact absurd rfl hne
  | _ => exact absurd rfl hne

theorem Reached.exists_owns (hc : c.Reached b) (hk : c.machine.waker? p k ≠ none) :
    ∃ v, c.Owns p v k := by
  induction c, hc using Reached.induction with
  | start m hm => simp [Machine.waker?, Machine.promise?, start, hm.promises] at hk
  | record c μ hc hμ hc' ih =>
    by_cases heq : μ.after.waker? p k = c.machine.waker? p k
    · obtain ⟨v, ho⟩ := ih (heq ▸ hk)
      exact ⟨v, ho.record hc hμ⟩
    · rcases hμ.touches hc heq with ⟨hnone, -⟩ | ⟨v, x, -, ho⟩
      · exact absurd hnone hk
      · exact ⟨v, ho⟩

/-- A set that has been taken is empty for good. -/
theorem Reached.entries_eq_nil (hc : c.Reached b) (hp : c.machine.cells? p = some pr)
    (ht : pr.wakers.data.taken = true) : pr.wakers.data.entries = [] := by
  induction c, hc using Reached.induction generalizing pr with
  | start m hm => simp [Machine.cells?, Machine.promise?, start, hm.promises] at hp
  | record c μ hc hμ hc' ih =>
    change μ.after.cells? p = some pr at hp
    cases hold : c.machine.cells? p with
    | none =>
      have hch := hμ.made.effect.promise p
      rw [hμ.before, hold, hp] at hch
      generalize μ.frame = f, μ.next = n at hch
      cases hch
      rfl
    | some pr₀ =>
      have hm := hμ.set_moves hold hp
      generalize pr.wakers.data = s at hm ht
      cases hm with
      | same => exact ih hold ht
      | take => rfl
      | remove =>
        rw [WakerSet.remove, ih hold ht]
        rfl
      | @register v x wait done =>
        -- A set that has been taken refuses to register.
        rw [WakerSet.taken_register] at ht
        unfold WakerSet.register
        rw [if_pos (by rw [ht, Bool.true_or])]
        exact ih hold ht

/-! ## Waits that are alive -/

/-- Wait `v` on `p` has registered and is alive: it is not dropped, or a call that drops it is not
over. -/
def Lodges (c : Chronicle H) (p : PromiseId) (v : WaitId) : Prop :=
  ∃ wait, c.machine.wait? v = some wait ∧ wait.promise = p ∧ c.pends v ≠ [] ∧
    (wait.dropped = false ∨ ∃ i, c.Leaving v i)

/-- The key under which the polls of wait `v` have registered. -/
def key? (c : Chronicle H) (v : WaitId) : Option Nat := (c.pends v).head?.map Prod.fst

/-- All polls of a wait register under one key. -/
theorem Reached.keys_eq (hc : c.Reached b) (hx : c.Exclusive) (ho : c.Owns p v k) :
    ∀ e ∈ c.pends v, e.1 = k := by
  obtain ⟨wait, hw, hwp, e, he, rfl⟩ := ho
  obtain ⟨k, hk⟩ : ∃ k, ∀ e ∈ c.pends v, e.1 = k := by
    cases hd : wait.dropped with
    | false =>
      obtain ⟨k, hs, -⟩ := hc.lodged hw hwp hd (List.ne_nil_of_mem he)
      exact ⟨k, hs.keys⟩
    | true =>
      cases (hc.departed hx hw hwp hd).2 with
      | fresh hn => rw [hn] at he; cases he
      | leaving hs | gone hs | stale hs => exact ⟨_, hs.keys⟩
  exact fun e' he' => (hk e' he').trans (hk e he).symm

theorem Reached.key?_eq (hc : c.Reached b) (hx : c.Exclusive) (ho : c.Owns p v k) :
    c.key? v = some k := by
  have hk := hc.keys_eq hx ho
  obtain ⟨wait, -, -, e, he, -⟩ := ho
  unfold key?
  cases hes : c.pends v with
  | nil => rw [hes] at he; cases he
  | cons e' es =>
    rw [List.head?_cons, Option.map_some, hk e' (by rw [hes]; exact List.mem_cons_self)]

/-- A wait that has registered and is alive is lodged. -/
theorem Reached.lodged_of_lodges (hc : c.Reached b) (hx : c.Exclusive) (hl : c.Lodges p v) :
    ∃ k, c.Owns p v k ∧ c.Lodged p v k := by
  obtain ⟨wait, hw, hwp, hne, halive⟩ := hl
  obtain ⟨k, hs⟩ : ∃ k, c.Lodged p v k := by
    cases hd : wait.dropped with
    | false =>
      obtain ⟨k, hs, -⟩ := hc.lodged hw hwp hd hne
      exact ⟨k, hs⟩
    | true =>
      obtain ⟨i, hi⟩ := halive.resolve_left (by rw [hd]; exact Bool.noConfusion)
      cases (hc.departed hx hw hwp hd).2 with
      | fresh _ hl | gone _ hl => exact absurd hi (hl i)
      | leaving hs | stale hs => exact ⟨_, hs⟩
  obtain ⟨e, he⟩ := List.exists_mem_of_ne_nil _ hne
  exact ⟨k, ⟨wait, hw, hwp, e, he, hs.keys e he⟩, hs⟩

/-- The entry of a wait holds a waker of the task of the last waker that the wait has registered. -/
theorem Lodged.exists_waker (hs : c.Lodged p v k) (hp : c.machine.cells? p = some pr)
    (ht : pr.wakers.data.taken = false) :
    ∃ s x, pr.wakers.data.get? k = some s ∧ (c.pends v).getLast? = some (k, x) ∧
      (s = x ∨ H.sameTask s x = true) := by
  obtain ⟨hne, hk, pr', hp', hentry⟩ := hs
  obtain rfl := Option.some.inj (hp.symm.trans hp')
  obtain ⟨es, ⟨k', x⟩, hes⟩ := (List.eq_nil_or_concat (c.pends v)).resolve_left hne
  rw [List.concat_eq_append] at hes
  obtain rfl : k' = k := hk (k', x) (by rw [hes]; simp)
  rw [hes, List.map_append, List.map_singleton] at hentry
  obtain ⟨ws, s, us, hws, hslot, hsame⟩ :=
    WakerSet.exists_of_slot H.sameTask (es.map Prod.snd) x
  refine ⟨s, x, (hentry ht).trans hslot, by rw [hes, List.getLast?_concat], ?_⟩
  rcases List.eq_nil_or_concat us with rfl | ⟨us', u, rfl⟩
  · exact .inl (List.append_singleton_inj.1 hws).2.symm
  · rw [List.concat_eq_append, ← List.cons_append, ← List.append_assoc] at hws
    obtain rfl : x = u := (List.append_singleton_inj.1 hws).2
    exact .inr (hsame x (by simp))

/-- While a promise is pending, an entry is that of a wait that has registered and is alive. -/
theorem Reached.exists_lodges (hc : c.Reached b) (hx : c.Exclusive)
    (hopen : c.machine.isDone p = false) (hk : c.machine.waker? p k ≠ none) :
    ∃ v, c.Lodges p v ∧ c.Owns p v k := by
  obtain ⟨v, ho⟩ := hc.exists_owns hk
  obtain ⟨wait, hw, hwp, e, he, hek⟩ := ho
  refine ⟨v, ⟨wait, hw, hwp, List.ne_nil_of_mem he, ?_⟩, wait, hw, hwp, e, he, hek⟩
  cases hd : wait.dropped with
  | false => exact .inl rfl
  | true =>
    refine .inr ?_
    cases (hc.departed hx hw hwp hd).2 with
    | fresh hn => rw [hn] at he; cases he
    | leaving _ hi => exact ⟨_, hi⟩
    | gone hs =>
      obtain ⟨-, hkeys, pr, hp, hnone⟩ := hs
      rw [waker?_of_cells hp, ← hek, hkeys e he, hnone] at hk
      exact absurd rfl hk
    | stale _ _ hf =>
      rw [← hwp, hc.isDone_of_forfeited hw hf] at hopen
      cases hopen

/-! ## What a poll or a drop leaves alone -/

/-- A moment of a poll of wait `v`, or of a call that drops it. -/
def Attends (c : Chronicle H) (v : WaitId) (μ : Moment H) : Prop :=
  (∃ x s, μ.frame = .polling v x s) ∨ ∃ ν ∈ c.past, ν.call = μ.call ∧ ν.frame = .dropping v

/-- A call that drops a wait drops it and no other. -/
theorem Reached.dropping_path (hc : c.Reached b) (hν : ν ∈ c.past) (hf : ν.frame = .dropping v)
    (hμ : μ ∈ c.past) (hi : ν.call = μ.call) : (Frame.dropping v).Becomes μ.frame := by
  obtain ⟨g, hp, -⟩ := hc.path_of_moment ν hν (by rw [hf]; rfl)
  have hb := (hp.becomes hc).2
  obtain rfl := (hf ▸ hb ν (mem_moments.2 ⟨hν, rfl⟩)).eq_dropping
  exact hb μ (mem_moments.2 ⟨hμ, hi.symm⟩)

/-- The stages at a moment of a poll or a drop. -/
theorem Attends.stage (hc : c.Reached b) (hμ : μ ∈ c.past) (hs : c.Attends v μ) :
    (∃ x s, μ.frame = .polling v x s) ∨ μ.frame = .dropping v ∨
      ∃ p k g, μ.frame = .removing p k g := by
  refine hs.imp_right fun ⟨ν, hν, hi, hf⟩ => ?_
  exact (hc.dropping_path hν hf hμ hi).of_dropping

/-- A moment of a poll or a drop of one wait leaves what is under the key of another. -/
theorem Attends.waker?_eq (hc : c.Reached b) (hμ : μ ∈ c.past) (hs : c.Attends v μ) {v' : WaitId}
    (ho : c.Owns p v' k) (hne : v' ≠ v) : μ.after.waker? p k = μ.before.waker? p k := by
  by_contra hch
  obtain ⟨c₀, hc₀, h, hturn, hl⟩ := hc.reaches_of_mem hμ
  rw [h.before] at hch
  have hr := (hturn.trans hl)
  -- A change under the key is by the winner, by a drop or by a poll, and then of `v'` itself.
  rcases h.touches hc₀ hch with ⟨-, hf | hf⟩ | ⟨u, x, hf, hu⟩
  · rcases hs.stage hc hμ with ⟨_, _, hf'⟩ | hf' | ⟨_, _, _, hf'⟩ <;> rw [hf] at hf' <;> cases hf'
  · obtain ⟨u, ⟨⟨ρ, hρ, hi, hfρ⟩, -⟩, hu⟩ := hc₀.removing (by rw [h.frame? hc₀.tracked, hf])
    rcases hs with ⟨_, _, hf'⟩ | ⟨ν, hν, hi', hfν⟩
    · rw [hf] at hf'
      cases hf'
    · obtain ⟨l, hpast⟩ := hr.exists_past hc₀
      have hρ' : ρ ∈ c.past := hpast ▸ List.mem_append_left _ hρ
      have hb := hc.dropping_path hν hfν hρ' (hi'.trans hi.symm)
      rw [hfρ] at hb
      cases hb.eq_dropping
      exact hne (ho.eq hc (hu.reaches hc₀ hr))
  · rcases hs.stage hc hμ with ⟨_, _, hf'⟩ | hf' | ⟨_, _, _, hf'⟩ <;> rw [hf] at hf' <;> cases hf'
    exact hne (ho.eq hc (hu.reaches (hc₀.reaches hturn) hl))

/-- A moment of a poll or a drop leaves the listeners of every promise. -/
theorem Attends.listeners_eq (hc : c.Reached b) (hμ : μ ∈ c.past) (hs : c.Attends v μ)
    {q : PromiseId} (hp : μ.before.promise? q = some pr) :
    ∃ pr', μ.after.promise? q = some pr' ∧ pr'.listeners.data = pr.listeners.data := by
  have hch := (hc.sound μ hμ).1.made.effect.promise q
  have hst := hs.stage hc hμ
  rw [Machine.cells?_eq_some hp] at hch
  obtain ⟨pr', hp', hdata⟩ : ∃ pr', μ.after.cells? q = some pr' ∧
      pr'.listeners.data = pr.listeners.data := by
    generalize μ.frame = f, μ.next = n, μ.after.cells? q = x at hch hst
    cases hch with
    | same | register | remove => exact ⟨_, rfl, rfl⟩
    | _ => rcases hst with ⟨_, _, hf⟩ | hf | ⟨_, _, _, hf⟩ <;> cases hf
  obtain ⟨pr₁, hp₁, rfl⟩ := Option.map_eq_some_iff.1 hp'
  exact ⟨pr₁, hp₁, hdata⟩

/-! ## All of it -/

/-- What holds of the waits on `p` and of its waker set, where `pr` is the state of the promise. -/
structure Lodgings (c : Chronicle H) (p : PromiseId) (pr : Promise H) : Prop where
  /-- While the promise is pending, each wait that has registered and is alive has an entry under
  its key, and there is no other entry. -/
  matched : pr.isDone = false → Set.BijOn c.key? {v | c.Lodges p v}
    {k | ∃ e ∈ pr.wakers.data.entries, k = some e.1}
  /-- It is the only entry of the key, which the wait has unless it is being dropped, and its waker
  is of the task of the last waker that the wait has registered. -/
  entry : pr.isDone = false → ∀ v wait, c.machine.wait? v = some wait → c.Lodges p v →
    ∃ k s x, c.key? v = some k ∧ (wait.dropped = false → wait.key = some k) ∧
      pr.wakers.data.entries.filter (·.1 = k) = [(k, s)] ∧
      (c.pends v).getLast? = some (k, x) ∧ (s = x ∨ H.sameTask s x = true)
  /-- If all waits have been dropped, they have left nothing behind. -/
  abandoned : pr.isDone = false → (∀ v wait, c.machine.wait? v = some wait → wait.promise = p →
    wait.dropped = true ∧ ∀ i, ¬c.Leaving v i) → pr.wakers.data.entries = []
  /-- Each wait is given one key, and each key is given to one wait. -/
  keys : ∀ v v' k k', c.Owns p v k → c.Owns p v' k' → (k = k' ↔ v = v')
  /-- Once the set has been taken it is empty. -/
  taken : (∃ τ ∈ c.past, τ.frame = .completing p .takeWakers) → pr.wakers.data.entries = []
  /-- No poll and no drop of a wait changes the entry of another one. -/
  others : ∀ μ ∈ c.past, ∀ v, c.Attends v μ → ∀ v' k, c.Owns p v' k → v' ≠ v →
    μ.after.waker? p k = μ.before.waker? p k
  /-- No poll and no drop changes the listeners of a promise. -/
  listeners : ∀ μ ∈ c.past, ∀ v, c.Attends v μ → ∀ q pr, μ.before.promise? q = some pr →
    ∃ pr', μ.after.promise? q = some pr' ∧ pr'.listeners.data = pr.listeners.data

/-- A set has been taken once a completion call has taken it. -/
theorem Reached.taken_of_take (hc : c.Reached b) (hp : c.machine.promise? p = some pr)
    {τ : Moment H} (hτ : τ ∈ c.past) (hf : τ.frame = .completing p .takeWakers) :
    pr.wakers.data.taken = true := by
  obtain ⟨c₀, hc₀, h, hturn, hl⟩ := hc.reaches_of_mem hτ
  obtain ⟨pr₀, pr₁, -, hp₁, hm⟩ := hc.moved τ hτ p _ hf
  obtain ⟨pr₂, hp₂, rfl⟩ := Option.map_eq_some_iff.1 hp₁
  obtain ⟨pr', hp', hclimb⟩ := (hc₀.reaches hturn).climbs hl hp₂
  obtain rfl := Option.some.inj (hp.symm.trans hp')
  refine hclimb.taken ?_
  change pr₂.bare.wakers.data.taken = true
  generalize pr₂.bare = pr', τ.control = k, τ.next = n, hs : Completing.takeWakers = s at hm
  cases hm <;> cases hs
  rfl

section

variable (hc : c.Reached b) (hx : c.Exclusive) (hp : c.machine.promise? p = some pr)
include hc hp

theorem Reached.pending (hd : pr.isDone = false) :
    c.machine.isDone p = false ∧ pr.wakers.data.taken = false := by
  refine ⟨by rw [Machine.isDone, hp]; exact hd, eq_false_of_ne_true fun ht => ?_⟩
  have hd' := hc.isDone_of_taken (Machine.cells?_eq_some hp) ht
  exact Bool.false_ne_true (hd.symm.trans hd')

include hx

theorem Reached.lodges_of_mem (hd : pr.isDone = false) {e : Nat × H.Closure .waker}
    (he : e ∈ pr.wakers.data.entries) : ∃ v, c.Lodges p v ∧ c.Owns p v e.1 := by
  refine hc.exists_lodges hx (hc.pending hp hd).1 ?_
  rw [waker?_of_cells (Machine.cells?_eq_some hp)]
  exact WakerSet.get?_ne_none he

/-- The waits that have registered and are alive correspond to the entries. -/
theorem Reached.bijOn_entries (hd : pr.isDone = false) : Set.BijOn c.key? {v | c.Lodges p v}
    {k | ∃ e ∈ pr.wakers.data.entries, k = some e.1} := by
  refine ⟨fun v hl => ?_, fun v hl v' hl' heq => ?_, ?_⟩
  · obtain ⟨k, ho, hs⟩ := hc.lodged_of_lodges hx hl
    obtain ⟨s, x, hget, -⟩ := hs.exists_waker (Machine.cells?_eq_some hp) (hc.pending hp hd).2
    exact ⟨(k, s), WakerSet.mem_of_lookup hget, hc.key?_eq hx ho⟩
  · obtain ⟨k, ho, -⟩ := hc.lodged_of_lodges hx hl
    obtain ⟨k', ho', -⟩ := hc.lodged_of_lodges hx hl'
    rw [hc.key?_eq hx ho, hc.key?_eq hx ho'] at heq
    exact ho.eq hc (Option.some.inj heq ▸ ho')
  · rintro _ ⟨e, he, rfl⟩
    obtain ⟨v, hl, ho⟩ := hc.lodges_of_mem hx hp hd he
    exact ⟨v, hl, hc.key?_eq hx ho⟩

/-- The entry of a wait that has registered and is alive. -/
theorem Reached.entry_of_lodges (hd : pr.isDone = false) (hw : c.machine.wait? v = some wait)
    (hl : c.Lodges p v) : ∃ k s x, c.key? v = some k ∧ (wait.dropped = false → wait.key = some k) ∧
      pr.wakers.data.entries.filter (·.1 = k) = [(k, s)] ∧
      (c.pends v).getLast? = some (k, x) ∧ (s = x ∨ H.sameTask s x = true) := by
  have hcells := Machine.cells?_eq_some hp
  obtain ⟨hopen, ht⟩ := hc.pending hp hd
  obtain ⟨k, ho, hs⟩ := hc.lodged_of_lodges hx hl
  obtain ⟨s, x, hget, hlast, hsame⟩ := hs.exists_waker hcells ht
  refine ⟨k, s, x, hc.key?_eq hx ho, fun halive => ?_,
    ((hc.held p).sound _ hcells).filter_entries hget, hlast, hsame⟩
  obtain ⟨wait', hw', hwp, e, he, hek⟩ := ho
  obtain rfl := Option.some.inj (hw.symm.trans hw')
  obtain ⟨k', hs', hkey⟩ := hc.lodged hw hwp halive (List.ne_nil_of_mem he)
  rw [← hek, hs'.keys e he]
  exact hkey.resolve_right fun ⟨_, hdone⟩ => Bool.false_ne_true (hopen.symm.trans hdone)

end

/-- Waits and entries match in every run in which no wait is polled once it has been dropped. -/
theorem entries_match_waits (hc : c.Reached b) (hx : c.Exclusive)
    (hp : c.machine.promise? p = some pr) : c.Lodgings p pr where
  matched := hc.bijOn_entries hx hp
  entry hd v wait hw hl := hc.entry_of_lodges hx hp hd hw hl
  abandoned := by
    intro hd hall
    refine List.eq_nil_iff_forall_not_mem.2 fun e he => ?_
    obtain ⟨v, ⟨wait, hw, hwp, -, halive⟩, -⟩ := hc.lodges_of_mem hx hp hd he
    obtain ⟨hdrop, hover⟩ := hall v wait hw hwp
    rcases halive with halive | ⟨i, hi⟩
    · rw [hdrop] at halive
      cases halive
    · exact hover i hi
  keys := by
    intro v v' k k' ho ho'
    refine ⟨fun heq => ho.eq hc (heq ▸ ho'), ?_⟩
    rintro rfl
    obtain ⟨-, -, -, e, he, rfl⟩ := ho'
    exact (hc.keys_eq hx ho e he).symm
  taken := by
    rintro ⟨τ, hτ, hf⟩
    have ht := hc.taken_of_take hp hτ hf
    have hnil := hc.entries_eq_nil (Machine.cells?_eq_some hp) ht
    exact hnil
  others μ hμ v hs v' k ho hne := hs.waker?_eq hc hμ ho hne
  listeners μ hμ v hs q pr hq := hs.listeners_eq hc hμ hq

/-- A thread makes a promise and three waits on it, polls the first one with two wakers in turn and
the others once, and drops the third one and then the second one. -/
def boarders : (r : Role) → Nat → Act Tabled r
  | .task, 0 => .call (.build {}) 1
  | .task, 1 => .call (.wait 0) 2
  | .task, 2 => .call (.wait 0) 3
  | .task, 3 => .call (.wait 0) 4
  | .task, 4 => .call (.poll 0 7) 5
  | .task, 5 => .call (.poll 1 8) 6
  | .task, 6 => .call (.poll 2 6) 7
  | .task, 7 => .call (.poll 0 9) 8
  | .task, 8 => .call (.dropWait 2) 9
  | .task, 9 => .call (.dropWait 1) 10
  | r, _ => Tabled.quiet r

/-- The run of the thread, up to where the second drop is about to remove its entry. -/
def boarding : Option (Chronicle Tabled) :=
  (Tabled.start [0]).turns? (Tabled.behaviour boarders) (List.replicate 30 (.step 0))

theorem entries_match_waits_boarding : ∃ c pr, boarding = some c ∧
    c.Reached (Tabled.behaviour boarders) ∧ c.Exclusive ∧ c.machine.promise? 0 = some pr ∧
    pr.isDone = false ∧ pr.wakers.data.entries = [(1, 9), (2, 8)] ∧
    Set.BijOn c.key? {v | c.Lodges 0 v} {some 1, some 2} := by
  have hrun : (boarding.any fun c =>
      (c.past.all fun μ => μ.frame.polling?.all fun e =>
        (μ.before.wait? e.1).all fun wait => !wait.dropped) &&
      (c.machine.promise? 0).any fun pr =>
        !pr.isDone && pr.wakers.data.entries == [(1, 9), (2, 8)]) = true := by
    decide +kernel
  obtain ⟨c, hc, hrun⟩ := (Option.any_eq_true _ _).1 hrun
  obtain ⟨hall, hrun⟩ := Bool.and_eq_true_iff.1 hrun
  obtain ⟨pr, hp, hrun⟩ := (Option.any_eq_true _ _).1 hrun
  obtain ⟨hopen, hes⟩ := Bool.and_eq_true_iff.1 hrun
  have hreach := Tabled.reached hc
  have hx := exclusive_of_all hall
  have hopen : pr.isDone = false := by simpa using hopen
  have hes : pr.wakers.data.entries = [(1, 9), (2, 8)] := by simpa using hes
  refine ⟨c, pr, hc, hreach, hx, hp, hopen, hes, ?_⟩
  have hmatched := (entries_match_waits hreach hx hp).matched hopen
  rw [hes] at hmatched
  convert hmatched using 1
  ext k
  simp

end Chronicle

end OneShot
