import OneShot.Proofs.History.Guards

/-!
# Who holds a guard

A guard that is taken is held by a call in progress, and that call is on top of its thread. So a
thread holds one guard at most, and none while it runs the program's code or after one of its calls
has ended.

- **Holders** (`Reached.exists_holder`): the owner of a guard works under it.
- **One moment** (`Extends.owner_after`, `Extends.owner_of_ne`): who owns a guard afterwards owned
  it before, or has taken it; what the other threads own stays as it was.
- **One guard for each thread** (`Reached.owner_unique`).
- **Without guards**: the program's code runs (`Reached.not_owner_of_code`), and calls end
  (`Reached.not_owner_of_over`).
-/

namespace OneShot

variable {H : Host} {b : Behaviour H}

theorem Frame.awaits_of_code? {f : Frame H} (h : f.code?.isSome = true) : f.awaits = true := by
  cases f with
  | completing p s | notifying p s | registering p s closing => cases s <;> first | rfl | exact h
  | _ => exact h

theorem Frame.code?_of_guard? {f : Frame H} {m : Machine H} {t : ThreadId} {x : Guard}
    (h : f.guard? m t = some x) : f.code? = none := by
  cases hcode : f.code? with
  | none => rfl
  | some code =>
    have hawaits := Frame.awaits_of_code? (f := f) (by rw [hcode]; rfl)
    rw [Frame.awaits_of_guard? h] at hawaits
    cases hawaits

theorem Machine.Initial.owner? {m : Machine H} (hm : m.Initial) (x : Guard) :
    m.owner? x = none := by
  cases x with
  | part p k => simp [Machine.owner?, Machine.promise?, hm.promises]
  | parked u =>
    cases hu : m.thread? u with
    | none => simp [Machine.owner?, hu]
    | some th =>
      have htoken := hm.tokens th (Array.mem_of_getElem? hu)
      simp [Machine.owner?, hu, htoken]

namespace Chronicle

variable {c : Chronicle H} {μ : Moment H} {x y : Guard} {t : ThreadId} {i : CallId} {f : Frame H}

/-- Call `i` works under the guard `x`. -/
def Holds (c : Chronicle H) (i : CallId) (x : Guard) : Prop :=
  ∃ f, c.frame? i = some f ∧ f.guard? c.machine i.thread = some x

theorem Holds.top (hc : c.Tracked) (h : c.Holds i x) : (c.calls i.thread).head? = some i := by
  obtain ⟨f, hi, hx⟩ := h
  exact hc.top_of_not_awaits hi (Frame.awaits_of_guard? hx)

/-- The guard that goes with the stage to which a moment takes its call goes with it afterwards. -/
theorem Extends.guard?_own (hc : c.Reached b) (h : c.Extends b μ)
    (hf : μ.next.own μ.frame = some f) (hx : f.guard? c.machine μ.call.thread = some x) :
    (c.record μ).frame? μ.call = some f ∧
      f.guard? (c.record μ).machine μ.call.thread = some x := by
  have hi : (c.record μ).frame? μ.call = some f := by rw [frame?_record_self hc.tracked h, hf]
  have hroot := hc.owned.rooted_record hc.tracked h hi
  exact ⟨hi, (h.guard?_after hroot _).trans hx⟩

/-- A moment of another call takes no guard from a call. -/
theorem Extends.guard?_other (hc : c.Reached b) (h : c.Extends b μ) (hf : c.frame? i = some f)
    (hx : f.guard? c.machine i.thread = some x) (hne : i ≠ μ.call) :
    (c.record μ).frame? i = some f ∧ f.guard? (c.record μ).machine i.thread = some x := by
  have hk := frame?_record_of_ne hc.tracked h hne (h.ne_entered hc.tracked hf)
  rw [hf] at hk
  generalize hg : (c.record μ).frame? i = g at hk
  cases hk with
  | same => exact ⟨rfl, (h.guard?_after (hc.owned.rooted i f hf) _).trans hx⟩
  | rouse => cases hx

theorem Holds.guard?_eq (hc : c.Tracked) (h : c.Extends b μ) (hi : c.Holds μ.call x) :
    μ.frame.guard? c.machine μ.call.thread = some x := by
  obtain ⟨f, hf, hx⟩ := hi
  rw [h.frame_eq hc hf, hx]

/-- Who owns a guard after a moment owned it before, or has taken it with the moment. -/
theorem Extends.owner_after (hc : c.Reached b) (h : c.Extends b μ)
    (hold : ∀ x t, c.machine.owner? x = some t → ∃ i, i.thread = t ∧ c.Holds i x)
    (hx : μ.after.owner? x = some t) : ∃ i, i.thread = t ∧ (c.record μ).Holds i x := by
  have hk := (h.sound hc.tracked).keeping.guards
  rw [h.before] at hk
  -- A guard that was owned before is still held, unless the call of the moment gave it back.
  have hkept : c.machine.owner? x = some t → (c.Holds μ.call x → (c.record μ).Holds μ.call x) →
      ∃ i, i.thread = t ∧ (c.record μ).Holds i x := by
    intro howner hself
    obtain ⟨i, rfl, hi⟩ := hold x t howner
    by_cases hne : i = μ.call
    · exact ⟨i, rfl, hne ▸ hself (hne ▸ hi)⟩
    · obtain ⟨f, hf, hfx⟩ := hi
      exact ⟨i, rfl, f, h.guard?_other hc hf hfx hne⟩
  generalize hg : μ.frame.guard? c.machine μ.call.thread = g at hk
  generalize hg' : ((μ.next.own μ.frame).bind fun f => f.guard? c.machine μ.call.thread) = g' at hk
  cases hk with
  | keep hk =>
    rw [hk] at hx
    refine hkept hx fun hi => ?_
    rw [hi.guard?_eq hc.tracked h] at hg
    rw [← hg] at hg'
    obtain ⟨f, hf, hfx⟩ := Option.bind_eq_some_iff.1 hg'
    exact ⟨f, h.guard?_own hc hf hfx⟩
  | @take z _ hfree htaken hk =>
    by_cases hz : x = z
    · subst hz
      obtain ⟨f, hf, hfx⟩ := Option.bind_eq_some_iff.1 hg'
      rw [htaken] at hx
      exact ⟨μ.call, Option.some.inj hx, f, h.guard?_own hc hf hfx⟩
    · rw [hk x hz] at hx
      refine hkept hx fun hi => ?_
      rw [hi.guard?_eq hc.tracked h] at hg
      cases hg
  | @give z _ hfree hk =>
    by_cases hz : x = z
    · subst hz
      rw [hfree] at hx
      cases hx
    · rw [hk x hz] at hx
      refine hkept hx fun hi => ?_
      rw [hi.guard?_eq hc.tracked h] at hg
      exact absurd (Option.some.inj hg) hz

/-- A moment does not change what the other threads own. -/
theorem Extends.owner_of_ne (hc : c.Reached b) (h : c.Extends b μ) (ht : t ≠ μ.call.thread) :
    μ.after.owner? x = some t ↔ c.machine.owner? x = some t := by
  have hk := (h.sound hc.tracked).keeping.guards
  rw [h.before] at hk
  generalize hg : μ.frame.guard? c.machine μ.call.thread = g at hk
  generalize ((μ.next.own μ.frame).bind fun f => f.guard? c.machine μ.call.thread) = g' at hk
  cases hk with
  | keep hk => rw [hk]
  | @take z _ hfree htaken hk =>
    by_cases hz : x = z
    · rw [hz, hfree, htaken]
      exact ⟨fun he => absurd (Option.some.inj he).symm ht, nofun⟩
    · rw [hk x hz]
  | @give z _ hfree hk =>
    by_cases hz : x = z
    · rw [hz, hfree, hc.owned.owner _ _ z (h.frame? hc.tracked) hg]
      exact ⟨nofun, fun he => absurd (Option.some.inj he).symm ht⟩
    · rw [hk x hz]

/-- A guard that is taken is held by a call of its owner. -/
theorem Reached.exists_holder (hc : c.Reached b) (hx : c.machine.owner? x = some t) :
    ∃ i, i.thread = t ∧ c.Holds i x := by
  induction c, hc using Reached.induction generalizing x t with
  | start m hm =>
    rw [show (start m).machine.owner? x = none from hm.owner? x] at hx
    cases hx
  | record c μ hc hμ hc' ih => exact hμ.owner_after hc (fun x t => ih) hx

theorem Reached.holds_of_top (hc : c.Reached b) (hi : (c.calls i.thread).head? = some i)
    (hx : c.machine.owner? x = some i.thread) : c.Holds i x := by
  obtain ⟨j, hj, hh⟩ := hc.exists_holder hx
  have htop := hh.top hc.tracked
  rw [hj, hi] at htop
  rw [Option.some.inj htop]
  exact hh

theorem Reached.owner_unique (hc : c.Reached b) (hx : c.machine.owner? x = some t)
    (hy : c.machine.owner? y = some t) : x = y := by
  obtain ⟨i, rfl, hi⟩ := hc.exists_holder hx
  obtain ⟨f, hf, hfx⟩ := hi
  obtain ⟨f', hf', hfy⟩ := hc.holds_of_top (Holds.top hc.tracked ⟨f, hf, hfx⟩) hy
  rw [hf] at hf'
  cases hf'
  rw [hfx] at hfy
  exact Option.some.inj hfy

theorem Reached.not_owner (hc : c.Reached b) (hi : c.frame? i = some f)
    (htop : (c.calls i.thread).head? = some i) (hf : f.guard? c.machine i.thread = none)
    (x : Guard) : c.machine.owner? x ≠ some i.thread := by
  intro hx
  obtain ⟨g, hg, hgx⟩ := hc.holds_of_top htop hx
  rw [hi] at hg
  cases hg
  rw [hf] at hgx
  cases hgx

theorem Reached.not_owner_of_code (hc : c.Reached b) (hi : c.frame? i = some f)
    (htop : (c.calls i.thread).head? = some i) (hf : f.code?.isSome = true) (x : Guard) :
    c.machine.owner? x ≠ some i.thread := by
  refine hc.not_owner hi htop ?_ x
  cases hx : f.guard? c.machine i.thread with
  | none => rfl
  | some y =>
    rw [Frame.code?_of_guard? hx] at hf
    cases hf

/-- When a call ends, however it does, its thread owns no guard. -/
theorem Reached.not_owner_of_over (hc : c.Reached b) (hμ : μ ∈ c.past)
    (hn : μ.next.own μ.frame = none) (x : Guard) : μ.after.owner? x ≠ some μ.call.thread := by
  intro hx
  obtain ⟨c₀, hc₀, h, hturn, -⟩ := hc.reaches_of_mem hμ
  have ht := hc₀.tracked
  obtain ⟨i, hi, f, hf, hfx⟩ := (hc₀.reaches hturn).exists_holder (x := x) hx
  have hne : i ≠ μ.call := by
    rintro rfl
    rw [frame?_record_self ht h, hn] at hf
    cases hf
  have hne' : i ≠ μ.entered := by
    rintro rfl
    rw [frame?_record_entered ht h] at hf
    cases hnext : μ.next with
    | enter g g' => rw [hnext] at hn; cases hn
    | _ => rw [hnext] at hf; cases hf
  -- The calls under the one that has ended wait, and what holds a guard does not.
  have hk := frame?_record_of_ne ht h hne hne'
  rw [hf] at hk
  generalize hg : c₀.frame? i = g at hk
  cases hk with
  | same =>
    have htop := ht.top_of_not_awaits hg (Frame.awaits_of_guard? hfx)
    rw [hi, h.top] at htop
    exact hne (Option.some.inj htop).symm
  | rouse | work => cases hfx

end Chronicle

end OneShot
