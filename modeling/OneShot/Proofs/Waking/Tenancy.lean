import OneShot.Proofs.Completion.Aftermath

/-!
# Waits that are dropped

A drop takes the key of the wait, and a little later the entry under that key. This module follows
each wait from its first registration until its entry is gone.

- **One owner** (`Chronicle.Exclusive`): a wait is not polled any more once it has been dropped.
- **Keys** (`Chronicle.Owns`): no key is given to two waits.
- **Drops under way** (`Chronicle.Leaving`): what a call removes is the entry of the wait that it
  drops (`Reached.removing`, `Reached.leaving`).
- **Keys given up** (`Moment.Forfeits`): a poll that comes too late to register gives up the key
  that its wait had, while the entry stays (`Reached.forfeited_iff`).
- **What a dropped wait has left** (`Departed`, `Reached.departed`): nothing, or the entry that is
  about to be removed, or the one whose key it had given up.
-/

namespace OneShot

variable {H : Host} {b : Behaviour H}

/-! ## One step -/

/-- What a call that removes the waker under key `k` of `p` does in a step from `m` to `m'`, and how
it goes on. -/
inductive Removing (m m' : Machine H) (p : PromiseId) (k : Nat) : Guarded → Next H → Prop
  | lock : Removing m m' p k .lock (.goto (.removing p k .work))
  | work {pr} (hp : m.cells? p = some pr)
    (hp' : m'.cells? p = some { pr with wakers := { data := pr.wakers.data.remove k } }) :
    Removing m m' p k .work (.answer .unit)

theorem Removing.of_step {m m' : Machine H} {t : ThreadId} {p : PromiseId} {k : Nat} {c : Control}
    {g : Guarded} {n : Next H} (h : m.stepRemoving t p k c g = some (m', n)) (hk : c = .go) :
    Removing m m' p k g n := by
  replace h := Machine.eq_of_runStage h hk
  obtain ⟨pr, hp, h⟩ := Option.bind_eq_some_iff.1 h
  cases g with
  | lock =>
    obtain ⟨_, -, h⟩ := Option.bind_eq_some_iff.1 h
    cases h
    exact .lock
  | work =>
    cases h
    exact .work (Machine.cells?_eq_some hp) (Machine.cells?_modifyPromise hp)

namespace Moment

variable {μ : Moment H} {v : WaitId}

/-- What happens at a moment at which a waker is about to be removed. -/
theorem Sound.removing {p : PromiseId} {k : Nat} {g : Guarded} (h : μ.Sound b)
    (hf : μ.frame = .removing p k g) : Removing μ.before μ.after p k g μ.next := by
  have hk := h.control
  cases h.made with
  | step _ _ hs ha =>
    rw [hf] at hs hk
    have hr := Removing.of_step hs (hk.resolve_right Bool.false_ne_true)
    rw [ha]
    generalize μ.next = n at hr
    cases hr with
    | lock => exact .lock
    | work hp hp' => exact .work hp (by rw [Machine.cells?_proceed, hp'])
  | wake _ hf' => rw [hf] at hf'; cases hf'

/-- A poll of wait `v` is refused at a moment and gives up the key that the wait had. -/
def Forfeits (v : WaitId) (μ : Moment H) : Prop :=
  (∃ x, μ.frame = .polling v x .register) ∧ (∃ k, (μ.before.wait? v).bind Wait.key = some k) ∧
    (μ.after.wait? v).bind Wait.key = none

end Moment

namespace Chronicle

variable {c : Chronicle H} {μ : Moment H} {p : PromiseId} {v : WaitId} {wait : Wait} {i : CallId}
  {k : Nat}

/-- No wait is polled once it has been dropped: it has one owner, and to drop it is the last thing
that its owner does with it. -/
def Exclusive (c : Chronicle H) : Prop :=
  ∀ μ ∈ c.past, ∀ v x s, μ.frame = .polling v x s →
    ∀ wait, μ.before.wait? v = some wait → wait.dropped = false

theorem Exclusive.of_record (h : (c.record μ).Exclusive) : c.Exclusive :=
  fun ν hν => h ν (mem_record_of_mem hν)

theorem Exclusive.of_reaches {c' : Chronicle H} (h : c'.Exclusive) (hc : c.Reached b)
    (hl : c.Reaches b c') : c.Exclusive := by
  obtain ⟨l, hpast⟩ := hl.exists_past hc
  exact fun ν hν => h ν (hpast ▸ List.mem_append_left l hν)

/-- It can be decided on a run whether its waits are used so. -/
theorem exclusive_of_all (h : (c.past.all fun μ => μ.frame.polling?.all fun e =>
    (μ.before.wait? e.1).all fun wait => !wait.dropped) = true) : c.Exclusive := by
  intro μ hμ v x s hf wait hw
  have hall := List.all_eq_true.1 h μ hμ
  simpa [hf, Frame.polling?, hw] using hall

theorem Exclusive.dropped_eq (h : (c.record μ).Exclusive) (hμ : c.Extends b μ)
    {x : H.Closure .waker} {s : Polling} (hf : μ.frame = .polling v x s)
    (hw : c.machine.wait? v = some wait) : wait.dropped = false :=
  h μ mem_record_self v x s hf wait (by rw [hμ.before, hw])

/-! ## Keys -/

/-- Key `k` has been given to wait `v`, which is on `p`. -/
def Owns (c : Chronicle H) (p : PromiseId) (v : WaitId) (k : Nat) : Prop :=
  ∃ wait, c.machine.wait? v = some wait ∧ wait.promise = p ∧ ∃ e ∈ c.pends v, e.1 = k

theorem Owns.record (hc : c.Reached b) (h : c.Extends b μ) (ho : c.Owns p v k) :
    (c.record μ).Owns p v k := by
  obtain ⟨wait, hw, hwp, e, he, hk⟩ := ho
  obtain ⟨wait', hw', hpe⟩ := h.wait hw
  obtain ⟨es, -, hes⟩ := h.wait_moves hc hw'
  exact ⟨wait', hw', hpe.trans hwp, e, by rw [hes]; exact List.mem_append_left _ he, hk⟩

theorem Owns.reaches {c' : Chronicle H} (hc : c.Reached b) (hl : c.Reaches b c')
    (ho : c.Owns p v k) : c'.Owns p v k := by
  induction hl with
  | refl => exact ho
  | tail e hl he ih =>
    have hr := hc.reaches hl
    obtain ⟨μ, hμ, rfl⟩ := exists_extends_of_turn? hr.tracked he
    exact ih.record hr hμ

theorem Owns.eq (hc : c.Reached b) {v' : WaitId} (ho : c.Owns p v k) (ho' : c.Owns p v' k) :
    v = v' := by
  obtain ⟨wait, hw, hwp, e, he, rfl⟩ := ho
  obtain ⟨wait', hw', hwp', e', he', hk⟩ := ho'
  exact (hc.held p).unique v v' wait wait' hw hwp hw' hwp' e he e' he' hk.symm

theorem Reached.owns (hc : c.Reached b) (hw : c.machine.wait? v = some wait)
    (hwp : wait.promise = p) (hk : wait.key = some k) : c.Owns p v k :=
  ⟨wait, hw, hwp, (hc.held p).noted v wait hw hwp k hk⟩

/-! ## Drops under way -/

/-- Call `i` has begun to drop wait `v` and is not over. -/
def Leaving (c : Chronicle H) (v : WaitId) (i : CallId) : Prop :=
  (∃ μ ∈ c.past, μ.call = i ∧ μ.frame = .dropping v) ∧ c.frame? i ≠ none

/-- A drop that is under way after a moment was so before, or is begun at it. -/
theorem Extends.leaving (hc : c.Reached b) (h : c.Extends b μ) (hl : (c.record μ).Leaving v i) :
    c.Leaving v i ∨ i = μ.call ∧ μ.frame = .dropping v ∧ μ.next.own μ.frame ≠ none := by
  obtain ⟨⟨ν, hν, rfl, hf⟩, hi⟩ := hl
  rcases mem_record.1 hν with hν | rfl
  · refine .inl ⟨⟨ν, hν, rfl, hf⟩, fun hnone => hi ?_⟩
    obtain ⟨-, hlt, hle⟩ := hc.sound ν hν
    exact frame?_record_eq_none hc.tracked h (by omega) hnone
  · rw [frame?_record_self hc.tracked h] at hi
    exact .inr ⟨rfl, hf, hi⟩

/-- A call that drops a wait and is not over is about to remove an entry of that wait. -/
theorem Reached.leaving (hc : c.Reached b) (hl : c.Leaving v i) : ∃ wait k g,
    c.machine.wait? v = some wait ∧ wait.dropped = true ∧ c.Owns wait.promise v k ∧
      c.frame? i = some (.removing wait.promise k g) := by
  induction c, hc using Reached.induction with
  | start m hm => obtain ⟨⟨ν, hν, -⟩, -⟩ := hl; cases hν
  | record c μ hc hμ hc' ih =>
    have ht := hc.tracked
    rcases hμ.leaving hc hl with hold | ⟨rfl, hf, hown⟩
    · -- The removal has two steps, and the second is the last of its call.
      obtain ⟨wait, k, g, hw, hd, ho, hi⟩ := ih hold
      obtain ⟨wait', hw', hpe⟩ := hμ.wait hw
      obtain ⟨es, hm, -⟩ := hμ.wait_moves hc hw'
      rw [hw] at hm
      have hd' : wait'.dropped = true := by
        cases hx : wait'.dropped with
        | true => rfl
        | false => rw [hm.of_some.2 hx] at hd; cases hd
      rw [← hpe] at ho hi
      by_cases hiμ : i = μ.call
      · subst hiμ
        have hnext := hl.2
        rw [frame?_record_self ht hμ] at hnext
        have hr := (hμ.sound ht).removing (hμ.frame_eq ht hi)
        generalize hn : μ.next = n at hr hnext
        cases hr with
        | lock =>
          exact ⟨wait', k, .work, hw', hd', ho.record hc hμ,
            by rw [frame?_record_self ht hμ, hn]; rfl⟩
        | work => exact absurd rfl hnext
      · exact ⟨wait', k, g, hw', hd', ho.record hc hμ, frame?_record_of_steady ht hμ hi rfl hiμ⟩
    · have hd := (hμ.sound ht).dropping hf
      rw [hμ.before] at hd
      generalize hn : μ.next = n at hd hown
      cases hd with
      | bare => exact absurd rfl hown
      | @keyed wait k hw hkey hw' =>
        exact ⟨_, k, .lock, hw', rfl, (hc.owns hw rfl hkey).record hc hμ,
          by rw [frame?_record_self ht hμ, hn]; rfl⟩

/-- What a call is about to remove is the entry of the wait that it drops. -/
theorem Reached.removing (hc : c.Reached b) {g : Guarded}
    (hi : c.frame? i = some (.removing p k g)) : ∃ v, c.Leaving v i ∧ c.Owns p v k := by
  suffices ∃ v, c.Leaving v i by
    obtain ⟨v, hl⟩ := this
    obtain ⟨wait, k', g', -, -, ho, hi'⟩ := hc.leaving hl
    rw [hi] at hi'
    cases hi'
    exact ⟨v, hl, ho⟩
  induction c, hc using Reached.induction generalizing g with
  | start m hm => obtain ⟨work, hwork⟩ := frame?_start hm hi; cases hwork
  | record c μ hc hμ hc' ih =>
    have hne : (c.record μ).frame? i ≠ none := by rw [hi]; exact Option.some_ne_none _
    rcases hμ.removes hc.tracked hi with ⟨g', hold⟩ | ⟨rfl, v, wait, hf, -⟩
    · obtain ⟨v, ⟨ν, hν, hcall, hf⟩, -⟩ := ih hold
      exact ⟨v, ⟨ν, mem_record_of_mem hν, hcall, hf⟩, hne⟩
    · exact ⟨v, ⟨μ, mem_record_self, rfl, hf⟩, hne⟩

theorem Extends.leaving_of_removing (hc : c.Reached b) (h : c.Extends b μ) (ho : c.Owns p v k)
    {g : Guarded} (hf : μ.frame = .removing p k g) : c.Leaving v μ.call := by
  obtain ⟨u, hl, hu⟩ := hc.removing (by rw [h.frame? hc.tracked, hf])
  exact ho.eq hc hu ▸ hl

/-- A drop that is under way stays so unless its call ends. -/
theorem Leaving.record (hc : c.Reached b) (h : c.Extends b μ) (hl : c.Leaving v i)
    (hi : i = μ.call → μ.next.own μ.frame ≠ none) : (c.record μ).Leaving v i := by
  obtain ⟨wait, k, g, -, -, -, hf⟩ := hc.leaving hl
  obtain ⟨⟨ν, hν, hcall, hν'⟩, -⟩ := hl
  refine ⟨⟨ν, mem_record_of_mem hν, hcall, hν'⟩, ?_⟩
  by_cases hiμ : i = μ.call
  · rw [hiμ, frame?_record_self hc.tracked h]
    exact hi hiμ
  · rw [frame?_record_of_steady hc.tracked h hf rfl hiμ]
    exact Option.some_ne_none _

theorem Reached.not_leaving (hc : c.Reached b) (hw : c.machine.wait? v = some wait)
    (hd : wait.dropped = false) : ¬c.Leaving v i := by
  intro hl
  obtain ⟨wait', _, _, hw', hd', -⟩ := hc.leaving hl
  rw [hw] at hw'
  cases hw'
  rw [hd] at hd'
  cases hd'

/-! ## Keys given up -/

/-- A poll of wait `v` has been refused and has given up the key that the wait had. -/
def Forfeited (c : Chronicle H) (v : WaitId) : Prop := ∃ μ ∈ c.past, μ.Forfeits v

theorem forfeited_record : (c.record μ).Forfeited v ↔ c.Forfeited v ∨ μ.Forfeits v := by
  unfold Forfeited
  simp only [mem_record, or_and_right, exists_or, exists_eq_left]

/-- The moment gives up no key of a wait that is not registering. -/
theorem forfeited_record_of_ne (hf : ∀ x, μ.frame ≠ .polling v x .register) :
    (c.record μ).Forfeited v ↔ c.Forfeited v := by
  rw [forfeited_record, or_iff_left]
  rintro ⟨⟨x, hx⟩, -⟩
  exact hf x hx

theorem Reached.pends_ne_nil (hc : c.Reached b) (hf : c.Forfeited v) : c.pends v ≠ [] := by
  obtain ⟨μ, hμ, -, ⟨k, hk⟩, -⟩ := hf
  obtain ⟨c₀, hc₀, h, hsub, -⟩ := hc.extends_of_mem hμ
  obtain ⟨wait, hw, hkey⟩ := Option.bind_eq_some_iff.1 hk
  obtain ⟨e, he, -⟩ := (hc₀.held wait.promise).noted v wait (h.before ▸ hw) rfl k hkey
  obtain ⟨ν, hν, hpend⟩ := List.mem_filterMap.1 he
  exact List.ne_nil_of_mem (List.mem_filterMap.2 ⟨ν, hsub ν hν, hpend⟩)

/-- A poll that gives up the key of its wait finds the promise done. -/
theorem Extends.isDone_of_forfeits (hc : c.Reached b) (h : c.Extends b μ) (hf : μ.Forfeits v) :
    ∃ wait, c.machine.wait? v = some wait ∧ c.machine.isDone wait.promise = true := by
  obtain ⟨⟨x, hf⟩, -, hnone⟩ := hf
  have hm := (h.sound hc.tracked).polling hf
  rw [h.before] at hm
  generalize μ.next = n at hm
  cases hm with
  | ready hs => obtain hs | hs := hs <;> cases hs
  | pend _ _ _ hw' => rw [hw'] at hnone; cases hnone
  | refuse hw hp hd =>
    refine ⟨_, hw, Machine.isDone_iff_cells?.2 ⟨_, hp, ?_⟩⟩
    exact (Bool.or_eq_true_iff.1 hd).elim (hc.isDone_of_taken hp) id

/-- A promise is done once a wait on it has given up its key. -/
theorem Reached.isDone_of_forfeited (hc : c.Reached b) (hw : c.machine.wait? v = some wait)
    (hf : c.Forfeited v) : c.machine.isDone wait.promise = true := by
  obtain ⟨μ, hμ, hf⟩ := hf
  obtain ⟨c₀, hc₀, h, hturn, hl⟩ := hc.reaches_of_mem hμ
  obtain ⟨wait₀, hw₀, hdone⟩ := h.isDone_of_forfeits hc₀ hf
  obtain ⟨wait', hw', hpe, -⟩ := (hturn.trans hl).wait hc₀ hw₀
  obtain rfl := Option.some.inj (hw.symm.trans hw')
  rw [hpe]
  exact hc₀.isDone_of_reaches (hturn.trans hl) hdone

/-- A wait that is not dropped has given up its key if it has none though it has registered. -/
theorem Reached.forfeited_iff (hc : c.Reached b) (hw : c.machine.wait? v = some wait)
    (hd : wait.dropped = false) : c.Forfeited v ↔ c.pends v ≠ [] ∧ wait.key = none := by
  induction c, hc using Reached.induction generalizing wait with
  | start m hm => simp [Machine.wait?, start, hm.waits] at hw
  | record c μ hc hμ hc' ih =>
    change μ.after.wait? v = some wait at hw
    obtain ⟨es, hm, hes⟩ := hμ.wait_moves hc hw
    rw [hes]
    generalize hold : c.machine.wait? v = o at hm
    cases hm with
    | same hf =>
      rw [forfeited_record_of_ne hf, List.append_nil]
      exact ih hold hd
    | new =>
      have hnil := hc.pends_eq_nil hold
      rw [hnil]
      refine iff_of_false (fun hf => ?_) fun h => h.1 rfl
      exact hc'.pends_ne_nil hf (by rw [hes, hnil]; rfl)
    | @pend wait x pr k hf hp hreg =>
      refine iff_of_false (fun hf => ?_) fun h => by cases h.2
      rcases forfeited_record.1 hf with hf | ⟨-, -, hnone⟩
      · -- The promise is done once a poll has been refused, and so it gives out no more keys.
        obtain ⟨hne, hkey⟩ := (ih hold hd).1 hf
        cases (hc.held wait.promise).kept v wait hold rfl hd with
        | fresh hnil => exact hne hnil
        | held _ _ hpr hkey' _ =>
          rw [hkey] at hkey'
          rcases hkey' with hkey' | ⟨-, hdone⟩
          · cases hkey'
          · obtain ⟨pr', hp', hd'⟩ := Machine.isDone_iff_cells?.1 hdone
            rw [hp] at hp'
            cases hp'
            rw [(Bool.or_eq_false_iff.1 (WakerSet.register_eq_some hreg).1).2] at hd'
            cases hd'
      · rw [hw] at hnone
        cases hnone
    | @refuse wait x hf =>
      rw [List.append_nil, forfeited_record, ih hold hd]
      refine ⟨?_, ?_⟩
      · rintro (⟨hne, -⟩ | ⟨-, ⟨k, hk⟩, -⟩)
        · exact ⟨hne, rfl⟩
        · rw [hμ.before, hold] at hk
          obtain ⟨e, he, -⟩ := (hc.held wait.promise).noted v wait hold rfl k hk
          exact ⟨List.ne_nil_of_mem he, rfl⟩
      · rintro ⟨hne, -⟩
        cases hkey : wait.key with
        | none => exact .inl ⟨hne, rfl⟩
        | some k =>
          exact .inr ⟨⟨x, hf⟩, ⟨k, by rw [hμ.before, hold]; exact hkey⟩, by rw [hw]; rfl⟩
    | drop => cases hd

/-! ## What a dropped wait has left -/

/-- All polls of wait `v` on `p` that have registered were given key `k`, and until the set is taken
what is found under it is what these polls have left there. -/
structure Lodged (c : Chronicle H) (p : PromiseId) (v : WaitId) (k : Nat) : Prop where
  ne_nil : c.pends v ≠ []
  keys : ∀ e ∈ c.pends v, e.1 = k
  entry : ∃ pr, c.machine.cells? p = some pr ∧ (pr.wakers.data.taken = false →
    pr.wakers.data.get? k = WakerSet.slot H.sameTask ((c.pends v).map Prod.snd))

/-- All polls of wait `v` on `p` that have registered were given key `k`, and nothing is found under
it. -/
structure Vacated (c : Chronicle H) (p : PromiseId) (v : WaitId) (k : Nat) : Prop where
  ne_nil : c.pends v ≠ []
  keys : ∀ e ∈ c.pends v, e.1 = k
  entry : ∃ pr, c.machine.cells? p = some pr ∧ pr.wakers.data.get? k = none

/-- What wait `v` on `p`, which is dropped, has left in the waker set. -/
inductive Departed (c : Chronicle H) (p : PromiseId) (v : WaitId) : Prop
  /-- Nothing, since it has never registered. -/
  | fresh (hn : c.pends v = []) (hl : ∀ i, ¬c.Leaving v i)
  /-- Its entry, which the call that drops it is about to remove. -/
  | leaving {k : Nat} {i : CallId} (hs : c.Lodged p v k) (hi : c.Leaving v i)
    (hl : ∀ j, c.Leaving v j → j = i) (hf : ¬c.Forfeited v)
  /-- Nothing, since its entry has been removed. -/
  | gone {k : Nat} (hs : c.Vacated p v k) (hl : ∀ i, ¬c.Leaving v i) (hf : ¬c.Forfeited v)
  /-- Its entry, whose key it had given up. -/
  | stale {k : Nat} (hs : c.Lodged p v k) (hl : ∀ i, ¬c.Leaving v i) (hf : c.Forfeited v)

/-- A wait that is not dropped and has registered is lodged, under the key that it has unless it has
given that up. -/
theorem Reached.lodged (hc : c.Reached b) (hw : c.machine.wait? v = some wait)
    (hwp : wait.promise = p) (hd : wait.dropped = false) (hne : c.pends v ≠ []) :
    ∃ k, c.Lodged p v k ∧ (wait.key = some k ∨ wait.key = none ∧ c.machine.isDone p = true) := by
  cases (hc.held p).kept v wait hw hwp hd with
  | fresh hnil => exact absurd hnil hne
  | held hne hk hp hkey hs => exact ⟨_, ⟨hne, hk, _, hp, hs⟩, hkey⟩

/-- An entry stays at a moment at which its wait does not register and its key is not removed. -/
theorem Lodged.record (hs : c.Lodged p v k) (hc : c.Reached b) (h : c.Extends b μ)
    (hw : c.machine.wait? v = some wait) (hwp : wait.promise = p)
    (hf : ∀ x, μ.frame ≠ .polling v x .register) (hr : μ.frame ≠ .removing p k .work) :
    (c.record μ).Lodged p v k := by
  have hpends : (c.record μ).pends v = c.pends v :=
    pends_record_of_none (Moment.pend?_eq_none hf)
  obtain ⟨hne, hk, pr, hp, hentry⟩ := hs
  obtain ⟨pr', hp', -⟩ := h.last_le hp
  refine ⟨hpends ▸ hne, hpends ▸ hk, pr', hp', fun ht => ?_⟩
  obtain ⟨e, he⟩ := List.exists_mem_of_ne_nil _ hne
  obtain rfl := hk e he
  rcases (hc.held p).get?_cases hw hwp hf he hp (h.set_moves hp hp') with
    ⟨htaken, hget⟩ | htake | ⟨hrem, -⟩
  · rw [hpends, hget]
    exact hentry (htaken ▸ ht)
  · rw [htake] at ht
    cases ht
  · exact absurd hrem hr

/-- An entry that is gone does not come back unless its wait registers. -/
theorem Vacated.record (hs : c.Vacated p v k) (hc : c.Reached b) (h : c.Extends b μ)
    (hw : c.machine.wait? v = some wait) (hwp : wait.promise = p)
    (hf : ∀ x, μ.frame ≠ .polling v x .register) : (c.record μ).Vacated p v k := by
  have hpends : (c.record μ).pends v = c.pends v :=
    pends_record_of_none (Moment.pend?_eq_none hf)
  obtain ⟨hne, hk, pr, hp, hentry⟩ := hs
  obtain ⟨pr', hp', -⟩ := h.last_le hp
  refine ⟨hpends ▸ hne, hpends ▸ hk, pr', hp', ?_⟩
  obtain ⟨e, he⟩ := List.exists_mem_of_ne_nil _ hne
  obtain rfl := hk e he
  rcases (hc.held p).get?_cases hw hwp hf he hp (h.set_moves hp hp') with
    ⟨-, hget⟩ | htake | ⟨-, hrem⟩
  · rw [hget, hentry]
  · rw [htake, WakerSet.get?_takeAll]
  · rw [hrem, WakerSet.get?_remove, if_pos rfl]

/-- An entry is gone when its key has been removed. -/
theorem Lodged.vacated (hs : c.Lodged p v k) (hc : c.Reached b) (h : c.Extends b μ)
    (hr : μ.frame = .removing p k .work) :
    (c.record μ).Vacated p v k ∧ (c.record μ).frame? μ.call = none := by
  have hpends : (c.record μ).pends v = c.pends v :=
    pends_record_of_none (Moment.pend?_eq_none fun x hf => by rw [hr] at hf; cases hf)
  have hm := (h.sound hc.tracked).removing hr
  generalize hn : μ.next = n at hm
  cases hm with
  | work hp hp' =>
    refine ⟨⟨hpends ▸ hs.ne_nil, hpends ▸ hs.keys, _, hp', ?_⟩, ?_⟩
    · rw [WakerSet.get?_remove, if_pos rfl]
    · rw [frame?_record_self hc.tracked h, hn]
      rfl

/-- What a dropped wait has left after a moment that is neither its poll's nor its drop's. -/
theorem Departed.record (hs : c.Departed p v) (hc : c.Reached b) (h : c.Extends b μ)
    (hw : c.machine.wait? v = some wait) (hwp : wait.promise = p)
    (hf : ∀ x, μ.frame ≠ .polling v x .register)
    (hdrop : μ.frame = .dropping v → μ.next.own μ.frame = none) : (c.record μ).Departed p v := by
  have hpends : (c.record μ).pends v = c.pends v :=
    pends_record_of_none (Moment.pend?_eq_none hf)
  have hold : ∀ i, (c.record μ).Leaving v i → c.Leaving v i := fun i hl =>
    (h.leaving hc hl).resolve_right fun ⟨_, hf, hown⟩ => hown (hdrop hf)
  have hforf : (c.record μ).Forfeited v ↔ c.Forfeited v := forfeited_record_of_ne hf
  -- Only a drop of `v` removes under its key, since no other wait is given that key.
  have hremoves : ∀ k, c.Lodged p v k → μ.frame = .removing p k .work → c.Leaving v μ.call := by
    intro k hs hr
    obtain ⟨e, he⟩ := List.exists_mem_of_ne_nil _ hs.ne_nil
    exact h.leaving_of_removing hc ⟨wait, hw, hwp, e, he, hs.keys e he⟩ hr
  cases hs with
  | fresh hn hl => exact .fresh (hpends.trans hn) fun i hi => hl i (hold i hi)
  | gone hs hl hn =>
    exact .gone (hs.record hc h hw hwp hf) (fun i hi => hl i (hold i hi)) (hforf.not.2 hn)
  | stale hs hl hn =>
    exact .stale (hs.record hc h hw hwp hf fun hr => hl _ (hremoves _ hs hr))
      (fun i hi => hl i (hold i hi)) (hforf.2 hn)
  | @leaving k i hs hi hl hn =>
    by_cases hr : μ.frame = .removing p k .work
    · obtain rfl := hl _ (hremoves k hs hr)
      obtain ⟨hvac, hnone⟩ := hs.vacated hc h hr
      refine .gone hvac (fun j hj => ?_) (hforf.not.2 hn)
      obtain rfl := hl j (hold j hj)
      exact hj.2 hnone
    · have hstay : μ.call = i → μ.next.own μ.frame ≠ none := by
        rintro rfl
        obtain ⟨wait', k', g, hw', -, ⟨-, -, -, e, he, rfl⟩, hi'⟩ := hc.leaving hi
        obtain rfl := Option.some.inj (hw.symm.trans hw')
        have hfr := h.frame_eq hc.tracked hi'
        rw [hs.keys e he, hwp] at hfr
        have hm := (h.sound hc.tracked).removing hfr
        generalize μ.next = n at hm
        cases hm with
        | lock => exact Option.some_ne_none _
        | work => exact absurd hfr hr
      exact .leaving (hs.record hc h hw hwp hf hr) (hi.record hc h fun he => hstay he.symm)
        (fun j hj => hl j (hold j hj)) (hforf.not.2 hn)

/-- What a wait has left at the moment at which it is dropped, if it has not been dropped before. -/
theorem Extends.departed (hc : c.Reached b) (h : c.Extends b μ)
    (hw : c.machine.wait? v = some wait) (hwp : wait.promise = p) (hd : wait.dropped = false)
    (hf : μ.frame = .dropping v) : (c.record μ).Departed p v := by
  have hreg : ∀ x, μ.frame ≠ .polling v x .register := fun x hx => by rw [hf] at hx; cases hx
  have hrem : ∀ k, μ.frame ≠ .removing p k .work := fun k hk => by rw [hf] at hk; cases hk
  have hpends : (c.record μ).pends v = c.pends v :=
    pends_record_of_none (Moment.pend?_eq_none hreg)
  have hforf := hc.forfeited_iff hw hd
  rw [← forfeited_record_of_ne hreg] at hforf
  have hown : ∀ i, (c.record μ).Leaving v i → i = μ.call ∧ μ.next.own μ.frame ≠ none :=
    fun i hl => ((h.leaving hc hl).resolve_left (hc.not_leaving hw hd)).imp_right And.right
  have hm := (h.sound hc.tracked).dropping hf
  rw [h.before] at hm
  generalize hn : μ.next = n at hm hown
  -- With its key the drop goes on to remove; without one it is over, whatever is left.
  cases hm with
  | bare hw' hkey =>
    obtain rfl := Option.some.inj (hw.symm.trans hw')
    have hl : ∀ i, ¬(c.record μ).Leaving v i := fun i hl => (hown i hl).2 rfl
    by_cases hne : c.pends v = []
    · exact .fresh (hpends.trans hne) hl
    · obtain ⟨k, hs, -⟩ := hc.lodged hw hwp hd hne
      exact .stale (hs.record hc h hw hwp hreg (hrem k)) hl (hforf.2 ⟨hne, hkey⟩)
  | @keyed wait' k hw' hkey =>
    obtain rfl := Option.some.inj (hw.symm.trans hw')
    obtain ⟨e, he, -⟩ := (hc.held p).noted v wait hw hwp k hkey
    obtain ⟨k, hs, -⟩ := hc.lodged hw hwp hd (List.ne_nil_of_mem he)
    refine .leaving (hs.record hc h hw hwp hreg (hrem k)) ⟨⟨μ, mem_record_self, rfl, hf⟩, ?_⟩
      (fun i hi => (hown i hi).1) fun hx => ?_
    · rw [frame?_record_self hc.tracked h, hn]
      exact Option.some_ne_none _
    · rw [(hforf.1 hx).2] at hkey
      cases hkey

/-- What a wait that is dropped has left, in every run in which it is not polled afterwards. It has
no key any more. -/
theorem Reached.departed (hc : c.Reached b) (hx : c.Exclusive)
    (hw : c.machine.wait? v = some wait) (hwp : wait.promise = p) (hd : wait.dropped = true) :
    wait.key = none ∧ c.Departed p v := by
  induction c, hc using Reached.induction generalizing wait with
  | start m hm => simp [Machine.wait?, start, hm.waits] at hw
  | record c μ hc hμ hc' ih =>
    change μ.after.wait? v = some wait at hw
    have hx' := hx.of_record
    by_cases hf : μ.frame = .dropping v
    · have hreg : ∀ x, μ.frame ≠ .polling v x .register := fun x hr => by rw [hf] at hr; cases hr
      have hm := (hμ.sound hc.tracked).dropping hf
      rw [hμ.before] at hm
      obtain ⟨wait₀, hold, hw', hown⟩ : ∃ wait₀, c.machine.wait? v = some wait₀ ∧
          μ.after.wait? v = some { wait₀ with key := none, dropped := true } ∧
            (wait₀.key = none → μ.next.own μ.frame = none) := by
        generalize μ.next = n at hm
        cases hm with
        | bare hold _ hw' => exact ⟨_, hold, hw', fun _ => rfl⟩
        | keyed hold hkey hw' =>
          exact ⟨_, hold, hw', fun hnone => by rw [hnone] at hkey; cases hkey⟩
      obtain rfl := Option.some.inj (hw.symm.trans hw')
      refine ⟨rfl, ?_⟩
      cases hd₀ : wait₀.dropped with
      | false => exact hμ.departed hc hold hwp hd₀ hf
      | true =>
        obtain ⟨hnone, hs⟩ := ih hx' hold hwp hd₀
        exact hs.record hc hμ hold hwp hreg fun _ => hown hnone
    · obtain ⟨es, hm, -⟩ := hμ.wait_moves hc hw
      generalize hold : c.machine.wait? v = o at hm
      cases hm with
      | same hreg =>
        obtain ⟨hkey, hs⟩ := ih hx' hold hwp hd
        exact ⟨hkey, hs.record hc hμ hold hwp hreg fun hf' => absurd hf' hf⟩
      | new => cases hd
      | pend hf' | refuse hf' => rw [hx.dropped_eq hμ hf' hold] at hd; cases hd
      | drop hf' => exact absurd hf' hf

end Chronicle

end OneShot
