import OneShot.Proofs.Chain.Deciding
import OneShot.Proofs.Step.Handle

/-!
# Dropped promises

A promise lives as long as something holds it: the program, a call in progress, a wait, or a chain
listener that is stored with a promise that lives. What is not alive any more stays so if the
program goes about handles as it has to.

- **Held** (`Machine.Held`, `Reached.alive_iff`): what being alive comes to.
- **Handles** (`Moment.Minds`): the program asks only about promises that are alive and waits that
  are not dropped, and it has no handles but of promises that are alive or new.
- **Gone for good** (`Extends.held`, `Extends.not_alive`): who is not alive never is again.
- **A source that is dropped** (`Reached.discarded`): its derived promises stay pending for ever.
- **Derived promises** (`derives_from_callback`): all that a derivation can come to.
-/

namespace OneShot

variable {H : Host} {b : Behaviour H}

/-! ## Held -/

namespace Machine

/-- Something holds a promise: a root, or a chain listener of a promise that is held. -/
inductive Held (m : Machine H) : PromiseId → Prop
  | root {p} (h : p ∈ m.roots) : Held m p
  | stored {s d pr} (hp : m.promise? d = some pr) (ho : pr.origin = some s)
    (hs : m.stores s d = true) (h : Held m s) : Held m d

variable {m : Machine H} {p : PromiseId}

theorem held_of_aliveFrom {n : Nat} (h : m.aliveFrom m.roots n p = true) : m.Held p := by
  induction n generalizing p with
  | zero => exact .root (by simpa [aliveFrom] using h)
  | succ n ih =>
    unfold aliveFrom at h
    rcases Bool.or_eq_true_iff.1 h with h | h
    · exact .root (by simpa using h)
    · split at h
      · rename_i s hs
        obtain ⟨pr, hp, ho⟩ := Option.bind_eq_some_iff.1 hs
        obtain ⟨hst, ha⟩ := Bool.and_eq_true_iff.1 h
        exact .stored hp ho hst (ih ha)
      · cases h

/-- Sources are older than what is chained from them, so a promise has no more sources than its
number says. -/
theorem Held.aliveFrom (h : m.Held p)
    (hlt : ∀ d pr s, m.promise? d = some pr → pr.origin = some s → s < d) :
    ∀ n, p ≤ n → m.aliveFrom m.roots n p = true := by
  induction h with
  | root h =>
    intro n _
    cases n <;> simp [Machine.aliveFrom, h]
  | @stored s d pr hp ho hs _ ih =>
    intro n hn
    have hsd := hlt d pr s hp ho
    cases n with
    | zero => exact absurd (Nat.lt_of_lt_of_le hsd hn) (Nat.not_lt_zero s)
    | succ n =>
      have hbind : (m.promise? d).bind Promise.origin = some s := by rw [hp]; exact ho
      have hs' := ih n (Nat.le_of_lt_succ (Nat.lt_of_lt_of_le hsd hn))
      simp [Machine.aliveFrom, hbind, hs, hs']

/-- Where the roots come from. -/
theorem mem_roots_iff : p ∈ m.roots ↔ p ∈ H.handles m.program ∨
    (∃ v wait, m.wait? v = some wait ∧ wait.dropped = false ∧ wait.promise = p) ∨
    ∃ u k fs, m.stack? u = some (k, fs) ∧ (p ∈ k.handles ∨ ∃ f ∈ fs, p ∈ f.handles) := by
  rw [roots, List.mem_append, List.mem_append, or_assoc]
  refine or_congr .rfl (or_congr ?_ ?_)
  · simp only [List.mem_map, List.mem_filter, Array.mem_toList_iff, Bool.not_eq_true', wait?]
    constructor
    · rintro ⟨wait, ⟨hw, hd⟩, rfl⟩
      obtain ⟨v, hv⟩ := Array.getElem?_of_mem hw
      exact ⟨v, wait, hv, hd, rfl⟩
    · rintro ⟨v, wait, hv, hd, rfl⟩
      exact ⟨wait, ⟨Array.mem_of_getElem? hv, hd⟩, rfl⟩
  · simp only [List.mem_flatMap, Array.mem_toList_iff, Thread.handles, List.mem_append, stack?,
      thread?]
    constructor
    · rintro ⟨th, hth, h⟩
      obtain ⟨u, hu⟩ := Array.getElem?_of_mem hth
      exact ⟨u, th.control, th.frames, by rw [hu]; rfl, h⟩
    · rintro ⟨u, k, fs, hu, h⟩
      obtain ⟨th, hth, heq⟩ := Option.map_eq_some_iff.1 hu
      cases heq
      exact ⟨th, Array.mem_of_getElem? hth, h⟩

end Machine

namespace Chronicle

variable {c c' : Chronicle H} {μ κ : Moment H} {p s d : PromiseId} {f : H.Closure .transform}

/-- A promise is younger than its source. -/
theorem Reached.origin_lt (hc : c.Reached b) : ∀ p pr s, c.machine.cells? p = some pr →
    pr.origin = some s → s < p := by
  induction c, hc using Reached.induction with
  | start m hm =>
    intro p pr s hp
    have hnone : m.cells? p = none := by simp [Machine.cells?, Machine.promise?, hm.promises]
    rw [show (start m).machine.cells? p = none from hnone] at hp
    cases hp
  | record c μ hc hμ hc' ih =>
    intro p pr s hp ho
    change μ.after.cells? p = some pr at hp
    cases hx : c.machine.cells? p with
    | some pr₀ =>
      obtain ⟨pr', hp', hmade⟩ := hμ.made_eq hx
      rw [hp] at hp'
      cases hp'
      exact ih p pr₀ s hx (by rw [← (Promise.eq_of_made_eq hmade).2.2.2, ho])
    | none =>
      -- The promise is new: it is made under the next free number, above that of its source.
      have hch := hμ.made.effect.promise p
      rw [hμ.before, hx, hp] at hch
      generalize hy : some pr = y, μ.frame = f, μ.next = n at hch
      cases hch with
      | same => cases hy
      | make hq hlt =>
        cases hy
        exact hq ▸ hlt s ho

/-- A promise is alive exactly if something holds it. -/
theorem Reached.alive_iff (hc : c.Reached b) : c.machine.alive p = true ↔ c.machine.Held p := by
  refine ⟨Machine.held_of_aliveFrom, fun h => ?_⟩
  have hlt : ∀ d pr s, c.machine.promise? d = some pr → pr.origin = some s → s < d :=
    fun d pr s hp ho => hc.origin_lt d pr.bare s (Machine.cells?_eq_some hp) ho
  cases h with
  | root h =>
    unfold Machine.alive
    cases c.machine.promises.size <;> simp [Machine.aliveFrom, h]
  | stored hp ho hs h =>
    have hsize := (Array.getElem?_eq_some_iff.1 hp).1
    exact (Machine.Held.stored hp ho hs h).aliveFrom hlt _ (Nat.le_of_lt hsize)

end Chronicle

/-! ## Handles -/

/-- The program goes about handles at a moment as it has to: it asks only about promises that are
alive, it drops no wait twice, and it has no handles but of promises that are alive or new. -/
structure Moment.Minds (μ : Moment H) : Prop where
  asks : ∀ p ∈ μ.asks, μ.before.alive p = true
  drops : ∀ w wait, μ.frame = .dropping w → μ.before.wait? w = some wait → wait.dropped = false
  holds : ∀ p ∈ H.handles μ.after.program, μ.before.alive p = true ∨ μ.before.promise? p = none

/-! ## Gone for good -/

namespace Chronicle

variable {c c' : Chronicle H} {μ κ : Moment H} {p s d : PromiseId} {f : H.Closure .transform}

/-- The chain listeners that a promise stores complete promises that are chained from it. -/
theorem Reached.origin_of_target (hc : c.Reached b) {pr : Promise H}
    (hs : c.machine.cells? s = some pr) (hd : d ∈ targets pr.listeners.data.toList) :
    ∃ pr', c.machine.promise? d = some pr' ∧ pr'.origin = some s := by
  obtain ⟨a, ha, htarget⟩ := List.mem_filterMap.1 hd
  have hst : a ∈ (c.stored s).map Prod.snd := by
    have hq := hc.queue s
    rw [hs] at hq
    cases hq with
    | pending hl => rw [hl] at ha; exact ha
    | drained hl => rw [hl] at ha; cases ha
  obtain ⟨⟨i, a'⟩, hmem, ha'⟩ := List.mem_map.1 hst
  obtain rfl : a' = a := ha'
  obtain ⟨ν, hν, -, -, closing, hf⟩ := exists_of_mem_stored hmem
  cases a' with
  | fallible | observer => cases htarget
  | chain f d' =>
    cases htarget
    obtain ⟨-, κ, hκ, -, hκd⟩ := hc.derives_of_chain hν hf rfl
    obtain ⟨-, pr', -, hp', -, -, -, ho⟩ := hc.derived hκ hκd
    obtain ⟨pr₀, hp₀, rfl⟩ := Option.map_eq_some_iff.1 hp'
    exact ⟨pr₀, hp₀, ho⟩

theorem Extends.held_of_frame (hc : c.Tracked) (h : c.Extends b μ) (hp : p ∈ μ.frame.handles) :
    c.machine.Held p := by
  obtain ⟨is, rest, -, hs, -⟩ := h.stack hc
  exact .root (Machine.mem_roots_iff.2
    (.inr (.inr ⟨_, _, _, hs, .inr ⟨_, List.mem_cons_self, hp⟩⟩)))

end Chronicle

/-- What a thread keeps alive after a step of its top call is what that step leaves, or was there
before. -/
theorem Next.mem_handles_of_stack {f : Frame H} {rest : List (Frame H)} {k k' : Control}
    {fs : List (Frame H)} {n : Next H} {p : PromiseId} (hs : n.stack f rest k = (k', fs))
    (hp : p ∈ k'.handles ∨ ∃ g ∈ fs, p ∈ g.handles) :
    p ∈ n.handles ∨ p ∈ k.handles ∨ ∃ g ∈ f :: rest, p ∈ g.handles := by
  cases n <;> cases hs <;>
    simp only [Next.handles, Control.handles, List.mem_cons, List.mem_append, List.not_mem_nil,
      exists_eq_or_imp] at hp ⊢ <;> grind

namespace Chronicle

variable {c c' : Chronicle H} {μ κ : Moment H} {p s d : PromiseId} {f : H.Closure .transform}

/-- What a moment's own call leaves alive on its thread was held before, or it is new. -/
theorem Extends.held_of_next (hc : c.Reached b) (h : c.Extends b μ) (hm : μ.Minds)
    (hp : p ∈ μ.next.handles) : c.machine.Held p ∨ c.machine.promise? p = none := by
  cases h.made with
  | wake _ hf hn =>
    rw [hn] at hp
    exact .inl (h.held_of_frame hc.tracked (hf ▸ hp))
  | step _ _ hs _ =>
    have hands := Frame.hands_of_step hs p hp
    rw [h.before] at hands
    cases hands with
    | kept hp => exact .inl (h.held_of_frame hc.tracked hp)
    | asked hn hcode hp =>
      have hask : p ∈ μ.asks := by
        simp only [Moment.asks, hn, if_pos hcode]
        exact hp
      exact .inl (hc.alive_iff.1 (h.before ▸ hm.asks p hask))
    -- A drained chain listener was stored, and the call that drains holds its source.
    | @drained q pr hf hq hp =>
      obtain ⟨pr', hp', ho⟩ := hc.origin_of_target (Machine.cells?_eq_some hq) hp
      have hst : c.machine.stores q p = true := by simpa [Machine.stores, hq] using hp
      exact .inl (.stored hp' ho hst (h.held_of_frame hc.tracked (hf ▸ List.mem_cons_self)))
    | @dropped w wait hf hw hp =>
      have hd := hm.drops w wait hf (h.before ▸ hw)
      exact .inl (.root (Machine.mem_roots_iff.2 (.inr (.inl ⟨w, wait, hw, hd, hp.symm⟩))))
    | made hp => exact .inr hp

/-- The roots after a moment were held before, or they are new. -/
theorem Extends.held_of_root (hc : c.Reached b) (h : c.Extends b μ) (hm : μ.Minds)
    (hp : p ∈ μ.after.roots) : c.machine.Held p ∨ c.machine.promise? p = none := by
  -- The roots are what the program holds, the waits it has not dropped, and the stacks.
  rcases Machine.mem_roots_iff.1 hp with hp | ⟨v, wait, hw, hd, rfl⟩ | ⟨u, k, fs, hs, hp⟩
  · rcases hm.holds p hp with ha | hn
    · exact .inl (hc.alive_iff.1 (h.before ▸ ha))
    · exact .inr (h.before ▸ hn)
  · have hch := h.made.effect.wait v
    rw [h.before, hw] at hch
    have hroot : ∀ wait₀, c.machine.wait? v = some wait₀ → wait₀.dropped = false →
        c.machine.Held wait₀.promise := fun wait₀ hw₀ hd₀ =>
      .root (Machine.mem_roots_iff.2 (.inr (.inl ⟨v, wait₀, hw₀, hd₀, rfl⟩)))
    generalize hx : c.machine.wait? v = x, hy : some wait = y, hf : μ.frame = fr, μ.next = n at hch
    cases hch with
    | same => exact .inl (hroot wait (hx.trans hy.symm) hd)
    | make => cases hy; exact .inl (h.held_of_frame hc.tracked (hf ▸ List.mem_cons_self))
    | poll =>
      cases hy
      have hheld := hroot _ hx hd
      exact .inl hheld
    | drop => cases hy; cases hd
  · by_cases hu : u = μ.call.thread
    · subst hu
      obtain ⟨is, rest, -, hs₀, hs'⟩ := h.stack hc.tracked
      rw [hs] at hs'
      rcases Next.mem_handles_of_stack (Option.some.inj hs').symm hp with hp | hp
      · exact h.held_of_next hc hm hp
      · exact .inl (.root (Machine.mem_roots_iff.2 (.inr (.inr ⟨_, _, _, hs₀, hp⟩))))
    · -- The stacks of other threads change only as these wake, start or fork: no handle is added.
      have hch := h.made.effect.stack u hu
      rw [h.before, hs] at hch
      have hroot : ∀ fs₀, c.machine.stack? u = some (k, fs₀) →
          (p ∈ k.handles ∨ ∃ f ∈ fs₀, p ∈ f.handles) → c.machine.Held p := fun fs₀ hu₀ hp₀ =>
        .root (Machine.mem_roots_iff.2 (.inr (.inr ⟨u, k, fs₀, hu₀, hp₀⟩)))
      generalize hx : c.machine.stack? u = x, hy : some (k, fs) = y, μ.frame = fr,
        μ.next = n at hch
      cases hch with
      | same => exact .inl (hroot fs (hx.trans hy.symm) hp)
      | rouse =>
        cases hy
        refine .inl (hroot _ hx (hp.imp_right ?_))
        simp [Frame.handles]
      | spawn => cases hy; simp [Control.handles, Answer.handles] at hp
      | fork => cases hy; simp [Control.handles, Frame.handles] at hp

end Chronicle

/-- The chain listeners that a promise stores after a step were stored before, or the step stores
one that its call holds. -/
theorem Promise.Change.targets {m : Machine H} {s d : PromiseId} {f : Frame H} {n : Next H}
    {x : Option (Promise H)} {pr : Promise H} (h : Promise.Change m s f n x (some pr))
    (hd : d ∈ targets pr.listeners.data.toList) :
    (∃ pr₀, x = some pr₀ ∧ d ∈ OneShot.targets pr₀.listeners.data.toList) ∨ d ∈ f.handles := by
  generalize hy : some pr = y at h
  cases h with
  | same => exact .inl ⟨pr, hy.symm, hd⟩
  | drain => cases hy; rw [Registry.toList_drain] at hd; cases hd
  | make => cases hy; cases hd
  | @enroll l closing _ pr₀ =>
    cases hy
    rw [Registry.toList_enroll] at hd
    split at hd
    · rw [OneShot.targets, List.filterMap_append] at hd
      rcases List.mem_append.1 hd with hd | hd
      · exact .inl ⟨pr₀, rfl, hd⟩
      · refine .inr ?_
        obtain ⟨l', hl', htarget⟩ := List.mem_filterMap.1 hd
        obtain rfl := List.mem_singleton.1 hl'
        simp [Frame.handles, Registering.handles, htarget]
    · exact .inl ⟨pr₀, rfl, hd⟩
  | _ => cases hy; exact .inl ⟨_, rfl, hd⟩

namespace Chronicle

variable {c c' : Chronicle H} {μ κ : Moment H} {p s d : PromiseId} {f : H.Closure .transform}

/-- What is held after a moment was held before, or it is new. -/
theorem Extends.held (hc : c.Reached b) (h : c.Extends b μ) (hm : μ.Minds)
    (hp : μ.after.Held p) : c.machine.Held p ∨ c.machine.promise? p = none := by
  induction hp with
  | root hp => exact h.held_of_root hc hm hp
  | @stored s d pr hp ho hst _ ih =>
    cases hd : c.machine.promise? d with
    | none => exact .inr rfl
    | some pr₀ =>
      have ho₀ : pr₀.origin = some s := by
        obtain ⟨pr', hp', hmade⟩ := h.made_eq (Machine.cells?_eq_some hd)
        rw [Machine.cells?_eq_some hp] at hp'
        cases hp'
        exact (Promise.eq_of_made_eq hmade).2.2.2.symm.trans ho
      obtain ⟨prs, hs, hmem⟩ : ∃ prs, μ.after.promise? s = some prs ∧
          d ∈ targets prs.listeners.data.toList := by
        unfold Machine.stores at hst
        split at hst
        · rename_i prs hs
          exact ⟨prs, hs, by simpa using hst⟩
        · cases hst
      have hch := h.made.effect.promise s
      rw [h.before, Machine.cells?_eq_some hs] at hch
      -- Its source stored it before, or the call that stores it now has held it.
      rcases hch.targets hmem with ⟨prs₀, hs₀, hmem₀⟩ | hframe
      · obtain ⟨prs₁, hs₁, rfl⟩ := Option.map_eq_some_iff.1 hs₀
        replace hmem₀ : d ∈ targets prs₁.listeners.data.toList := hmem₀
        have hst₀ : c.machine.stores s d = true := by simpa [Machine.stores, hs₁] using hmem₀
        rcases ih with hheld | hnone
        · exact .inl (.stored hd ho₀ hst₀ hheld)
        · rw [hs₁] at hnone
          cases hnone
      · exact .inl (h.held_of_frame hc.tracked hframe)

/-- A promise that is not alive is not alive after a moment either. -/
theorem Extends.not_alive (hc : c.Reached b) (h : c.Extends b μ) (hc' : (c.record μ).Reached b)
    (hm : μ.Minds) {pr : Promise H} (hp : c.machine.cells? p = some pr)
    (ha : c.machine.alive p = false) : (c.record μ).machine.alive p = false := by
  refine eq_false_of_ne_true fun halive => ?_
  rcases h.held hc hm (hc'.alive_iff.1 halive) with hheld | hnone
  · rw [hc.alive_iff.2 hheld] at ha
    cases ha
  · rw [Machine.cells?, hnone] at hp
    cases hp

/-- A promise that is pending and not alive is never claimed, as long as the program goes about
handles as it has to. -/
theorem Unclaimed.dropped (hc : c.Reached b) (hu : c.Unclaimed p) (hl : c.Reaches b c')
    {l : List (Moment H)} (hpast : c'.past = c.past ++ l) (hm : ∀ μ ∈ l, μ.Minds) {pr : Promise H}
    (hp : c.machine.cells? p = some pr) (ha : c.machine.alive p = false) :
    c'.Unclaimed p ∧ c'.machine.alive p = false := by
  induction hl generalizing l with
  | refl => exact ⟨hu, ha⟩
  | tail e hl he ih =>
    have hc₁ := hc.reaches hl
    have hc₂ := hc₁.reaches (.tail e .refl he)
    obtain ⟨μ, hμ, rfl⟩ := exists_extends_of_turn? hc₁.tracked he
    obtain ⟨l₁, hl₁⟩ := hl.exists_past hc
    obtain rfl : l = l₁ ++ [μ] := by
      rw [past_record, hl₁, List.append_assoc] at hpast
      exact (List.append_cancel_left hpast).symm
    obtain ⟨hu₁, ha₁⟩ := ih hl₁ fun ν hν => hm ν (List.mem_append_left _ hν)
    obtain ⟨pr₁, hp₁, -⟩ := hc.made hl hp
    refine ⟨hu₁.record hc₁.tracked hμ fun s hf => ?_,
      hμ.not_alive hc₁ hc₂ (hm μ List.mem_concat_self) hp₁ ha₁⟩
    have hheld := hμ.held_of_frame hc₁.tracked (by rw [hf]; exact List.mem_cons_self)
    rw [hc₁.alive_iff.2 hheld] at ha₁
    cases ha₁

end Chronicle

theorem Frame.Becomes.of_chaining {g : Frame H} {p : PromiseId} {f : H.Closure .transform}
    {k : Option (H.Code .clock)} (h : g.Becomes (.chaining p f k)) :
    ∃ k', g = .chaining p f k' := by
  generalize hx : Frame.chaining p f k = x at h
  induction h generalizing k with
  | refl => exact ⟨k, hx.symm⟩
  | step _ hs ih =>
    subst hx
    obtain ⟨k', hk'⟩ := hs.of_chaining
    exact ih hk'.symm

/-- A chaining keeps its source alive to its end. -/
theorem Frame.Becomes.mem_handles {g : Frame H} {p : PromiseId} {f : H.Closure .transform}
    {k : Option (H.Code .clock)} (h : (Frame.chaining p f k).Becomes g) : p ∈ g.handles := by
  have key : (∃ k', g = .chaining p f k') ∨ ∃ s closing, g = .registering p s closing := by
    induction h with
    | refl => exact .inl ⟨k, rfl⟩
    | step _ hs ih =>
      rcases ih with ⟨k', rfl⟩ | ⟨s, closing, rfl⟩
      · cases hs with
        | chaining => exact .inl ⟨_, rfl⟩
        | chained => exact .inr ⟨_, _, rfl⟩
      · cases hs
        exact .inr ⟨_, _, rfl⟩
  rcases key with ⟨k', rfl⟩ | ⟨s, closing, rfl⟩ <;> exact List.mem_cons_self

namespace Chronicle

variable {c c' : Chronicle H} {μ κ : Moment H} {p s d : PromiseId} {f : H.Closure .transform}

/-- As long as its source is not claimed, a callback is not invoked. -/
theorem Unclaimed.callbacks_eq_nil (hc : c.Reached b) (hκ : κ ∈ c.past) (hd : κ.Derives s f d)
    (hu : c.Unclaimed s) : c.callbacks d = [] := by
  refine List.filterMap_eq_nil_iff.2 fun ν hν => Option.eq_none_iff_forall_ne_some.2 fun i hi => ?_
  obtain ⟨-, p, code, hn⟩ := Moment.callback?_eq_some_iff.1 hi
  obtain ⟨κ', hκ', f', hd', -, -⟩ := hc.derives_of_callee hν hn
  obtain ⟨rfl, rfl, rfl⟩ := hc.derives_inj hκ hd hκ' hd'
  obtain ⟨pr, hp, hopen⟩ := hc.cells_of_run hν hn
  have hpend := hu.shown ν hν pr hp
  rw [hpend.isDone, hpend.drained] at hopen
  simp at hopen

theorem Reached.alive_of_frame? (hc : c.Reached b) {i : CallId} {g : Frame H}
    (hi : c.frame? i = some g) (hp : p ∈ g.handles) : c.machine.alive p = true := by
  obtain ⟨⟨k, fs⟩, hs, hl⟩ := Option.bind_eq_some_iff.1 hi
  obtain ⟨l₁, l₂, hzip, -⟩ := List.lookup_eq_some_iff.1 hl
  have hg : g ∈ fs := (List.of_mem_zip (hzip ▸ List.mem_append_right l₁ List.mem_cons_self)).2
  exact hc.alive_iff.2
    (.root (Machine.mem_roots_iff.2 (.inr (.inr ⟨_, k, fs, hs, .inr ⟨g, hg, hp⟩⟩))))

/-- A call that has derived a promise from `s` keeps `s` alive to its end. -/
theorem Reached.alive_of_derives (hc : c.Reached b) (hκ : κ ∈ c.past) (hd : κ.Derives s f d)
    {g : Frame H} (hi : c.frame? κ.call = some g) : c.machine.alive s = true := by
  obtain ⟨⟨code, hf⟩, -⟩ := hd
  obtain ⟨g₀, hp, -⟩ := hc.path_of_moment κ hκ (by rw [hf]; rfl)
  obtain ⟨hend, hmem⟩ := hp.becomes hc
  have hfirst := hmem κ (mem_moments.2 ⟨hκ, rfl⟩)
  rw [hf] at hfirst
  obtain ⟨k, rfl⟩ := hfirst.of_chaining
  exact hc.alive_of_frame? hi ((hend g hi).mem_handles)

/-- A chain listener with `s`, which was made at `κ`, is discarded if it has not been run when the
call that has won `s` is over, or when nothing holds `s` any more and the program goes about handles
as it has to from then on, at the moments `l`. -/
inductive Discards (c : Chronicle H) (s : PromiseId) (κ : Moment H) (l : List (Moment H)) : Prop
  | aborted {w : CallId} {o : Outcome} (hw : (w, o) ∈ c.past.filterMap (Moment.won? s))
    (hover : c.frame? w = none) (hκ : c.frame? κ.call = none)
  | dropped (ha : c.machine.alive s = false) (hm : ∀ μ ∈ l, μ.Minds)

/-- A chain listener that is discarded is never run. -/
theorem Reached.discarded (hc : c.Reached b) (hκ : κ ∈ c.past) (hd : κ.Derives s f d)
    (hl : c.Reaches b c') {l : List (Moment H)} (hpast : c'.past = c.past ++ l)
    (h : c.Discards s κ l) (hnil : c.callbacks d = []) : c'.callbacks d = [] := by
  cases h with
  | aborted hw hover hκn =>
    cases hc.contest s with
    | unclaimed hu => rw [hu.wins] at hw; cases hw
    | won hw' =>
      rw [hw'.wins] at hw
      cases List.mem_singleton.1 hw
      exact hw'.callbacks_eq_nil hc hκ hd hover hκn hnil hl
  | dropped ha hm =>
    -- A call in progress on `s` would keep it alive, so the winner and the chaining are over.
    have hgone : ∀ i g, c.frame? i = some g → s ∉ g.handles := by
      intro i g hi hs
      rw [hc.alive_of_frame? hi hs] at ha
      cases ha
    cases hc.contest s with
    | unclaimed hu =>
      obtain ⟨pr, -, hp, -⟩ := hc.derived hκ hd
      obtain ⟨hu', -⟩ := hu.dropped hc hl hpast hm hp ha
      exact hu'.callbacks_eq_nil (hc.reaches hl) (hpast ▸ List.mem_append_left l hκ) hd
    | @won w o r hw =>
      have hwn : c.frame? w = none := by
        cases hx : c.frame? w with
        | none => rfl
        | some g =>
          obtain ⟨s', rfl, -⟩ := hw.winner g hx
          exact absurd List.mem_cons_self (hgone w _ hx)
      have hκn : c.frame? κ.call = none := by
        cases hx : c.frame? κ.call with
        | none => rfl
        | some g =>
          rw [hc.alive_of_derives hκ hd hx] at ha
          cases ha
      exact hw.callbacks_eq_nil hc hκ hd hwn hκn hnil hl

/-! ## Derived promises -/

/-- What is chained from a promise is completed by its callback: that is invoked once at most, when
the source is done, and what it returns, or a cancellation if it panics, is the outcome, which no
other completion call changes. Until the callback has ended the promise is pending, and for ever if
its chain listener is discarded. Its cancellation does nothing, and only the completion of the
source itself changes the outcome of the source. -/
theorem derives_from_callback (hc : c.Reached b) (hh : c.Honest) (hκ : κ ∈ c.past)
    (hd : κ.Derives s f d) :
    c.Derivation b s d ∧
    (∀ i ∈ c.callbacks d, ∃ ν ∈ c.past, ν.entered = i ∧
      ν.next.callee? = some (.notifying s (.transforming d (H.invoke .transform f s))) ∧
      ∃ pr, ν.before.promise? s = some pr ∧ pr.isDone = true) ∧
    (∀ μ ∈ c.past, ∀ code, μ.frame = .cancelling d code →
      code = none ∧ μ.next = .answer (.settled (.ok false))) ∧
    (s ≠ d ∧ ∀ μ ∈ c.past, μ.after.outcome? s ≠ μ.before.outcome? s →
      ∃ o, μ.frame = .completing s (.store o)) ∧
    (c.callbacks d = [] → ∀ c' l, c.Reaches b c' → c'.Honest → c'.past = c.past ++ l →
      c.Discards s κ l → c'.callbacks d = [] ∧ c'.Unclaimed d) := by
  refine ⟨hc.derivation hh hκ hd, fun i hi => ?_,
    fun μ hμ code hf => hc.cancel_of_derived hκ hd hμ hf,
    ⟨?_, fun μ hμ hw => (hc.sound μ hμ).1.stores hw⟩, fun hnil c' l hl hh' hpast hdis => ?_⟩
  · rcases hc.callbacks_cases hκ hd with hnil | ⟨ν, hν, hone, hcal⟩
    · rw [hnil] at hi
      cases hi
    · rw [hone, List.mem_singleton] at hi
      refine ⟨ν, hν, hi.symm, hcal, ?_⟩
      cases hc.contest s with
      | unclaimed hu => rw [hu.callbacks_eq_nil hc hκ hd] at hone; cases hone
      | won hw =>
        obtain ⟨pr, hp, hdone, -⟩ := hw.open_of_run hc hν hcal
        exact ⟨pr, hp, hdone⟩
  · obtain ⟨-, pr, -, hp, -, -, -, ho⟩ := hc.derived hκ hd
    exact Nat.ne_of_lt (hc.origin_lt d pr s hp ho)
  · have hc' := hc.reaches hl
    have hκ' : κ ∈ c'.past := hpast ▸ List.mem_append_left l hκ
    have hnil' := hc.discarded hκ hd hl hpast hdis hnil
    refine ⟨hnil', ?_⟩
    cases hc'.derivation hh' hκ' hd with
    | waiting _ hu => exact hu
    | running h | ended h | decided h => rw [hnil'] at h; cases h

/-- A thread makes a promise, chains another one from it and completes it. -/
def pipeline : (r : Role) → Nat → Act Tabled r
  | .task, 0 => .call (.build {}) 1
  | .task, 1 => .call (.chain 0 5) 2
  | .task, 2 => .call (.complete 0 (.value .unit)) 3
  | r, _ => Tabled.quiet r

/-- The run of that thread to its end. -/
def flow : Option (Chronicle Tabled) :=
  (Tabled.start [0]).turns? (Tabled.behaviour pipeline) (List.replicate 40 (.step 0))

theorem derives_from_callback_flow : ∃ c κ, flow = some c ∧
    c.Reached (Tabled.behaviour pipeline) ∧ c.Honest ∧ κ ∈ c.past ∧ κ.Derives 0 5 1 ∧
    c.machine.isDone 1 = true ∧ (c.callbacks 1).length = 1 ∧
    c.Derivation (Tabled.behaviour pipeline) 0 1 := by
  have hrun : (flow.any fun c => c.isHonest && c.machine.isDone 1 && (c.callbacks 1).length == 1 &&
      c.past.any fun κ => κ.derives? == some (0, 5, 1)) = true := by
    decide +kernel
  obtain ⟨c, hc, hrun⟩ := (Option.any_eq_true _ _).1 hrun
  simp only [Bool.and_eq_true, List.any_eq_true, beq_iff_eq] at hrun
  obtain ⟨⟨⟨hh, hdone⟩, hone⟩, κ, hκ, hd⟩ := hrun
  have hreach := Tabled.reached hc
  have hd := (hreach.sound κ hκ).1.derives_of_derives? hd
  have hh := honest_of_isHonest hh
  exact ⟨c, κ, hc, hreach, hh, hκ, hd, hdone, hone, (derives_from_callback hreach hh hκ hd).1⟩

end Chronicle

end OneShot
