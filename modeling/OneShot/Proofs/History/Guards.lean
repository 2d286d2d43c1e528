import OneShot.Proofs.History.Paths
import OneShot.Proofs.Step.Guard

/-!
# Guards and tokens in a run

A call at a stage that holds a guard is the one call that holds it, and so what it has seen under
the guard stays as it is until it gives the guard back.

- **One moment** (`Moment.Sound.keeping`): what a step does to the guards and the tokens.
- **The call on top** (`Tracked.top_of_not_awaits`): a call that waits for no other one.
- **Holders** (`Owned`, `Reached.owned`): the owner of a guard is the thread of the call that holds
  it.
- **Exclusion** (`Reached.eq_of_guard?`): two calls that hold the same guard are the same.
-/

namespace OneShot

variable {H : Host} {b : Behaviour H}

namespace Machine

variable (m : Machine H) (t : ThreadId) (rest : List (Frame H)) (n : Next H)

@[simp] theorem token?_proceed (u : ThreadId) : (m.proceed t rest n).token? u = m.token? u := by
  cases n with
  | abort => rfl
  | _ =>
    simp only [proceed, token?, thread?_modifyThread]
    split
    · simp [Function.comp_def]
    · rfl

@[simp] theorem owner?_proceed (x : Guard) : (m.proceed t rest n).owner? x = m.owner? x := by
  cases x with
  | part q k => simp [owner?]
  | parked u =>
    cases n with
    | abort => rfl
    | _ =>
      simp only [proceed, owner?, thread?_modifyThread]
      split
      · rw [Option.bind_map]
        rfl
      · rfl

end Machine

/-- What happens to the guards and the tokens at a moment. -/
theorem Moment.Sound.keeping {μ : Moment H} (h : μ.Sound b) :
    μ.frame.Keeping μ.before μ.call.thread μ.next μ.after := by
  cases h.made with
  | step _ _ hs ha =>
    have hk := Frame.keeping_of_step hs h.control
    rw [ha]
    refine ⟨hk.guards.congr fun x => Machine.owner?_proceed .., fun u => ?_⟩
    rw [Machine.token?_proceed]
    exact hk.tokens u
  | wake ht hf hn ha =>
    rw [hf, hn, ha]
    exact .of_thread (.of_kept_parked fun _ => rfl) (fun _ _ => rfl) fun _ _ _ => rfl

theorem Frame.Enters.guard?_eq_none {f g : Frame H} (h : f.Enters g) (m : Machine H)
    (t : ThreadId) : g.guard? m t = none := by
  cases h with
  | @code f callee hf => cases callee <;> rfl
  | deliver | check | enroll | transform => rfl

theorem Frame.awaits_of_guard? {f : Frame H} {m : Machine H} {t : ThreadId} {x : Guard}
    (h : f.guard? m t = some x) : f.awaits = false := by
  cases f with
  | completing p s | notifying p s | registering p s closing | reading p limited s
  | polling w waker s | counting p s | removing p key s | interrupting u s =>
    cases s <;> first | rfl | cases h
  | _ => cases h

/-- A poll that is registering is one of a wait that exists. -/
def Frame.Rooted (m : Machine H) : Frame H → Prop
  | .polling w _ .register => ∃ wait, m.wait? w = some wait
  | _ => True

theorem Frame.Enters.rooted {f g : Frame H} (h : f.Enters g) (m : Machine H) : g.Rooted m := by
  cases h with
  | @code f callee hf => cases callee <;> trivial
  | deliver | check | enroll | transform => trivial

/-- A step of a poll looks up the wait, unless a panic passes. -/
theorem Polling.exists_wait {m m' : Machine H} {t : ThreadId} {w : WaitId}
    {waker : H.Closure .waker} {c : Control} {s : Polling} {n : Next H}
    (h : s.step m t w waker c = some (m', n)) (hn : ∀ x, n ≠ .throw x) :
    ∃ wait, m.wait? w = some wait := by
  rcases Machine.runStage_eq_some h with ⟨-, h⟩ | ⟨x, -, h⟩
  · obtain ⟨wait, hw, -⟩ := Option.bind_eq_some_iff.1 h
    exact ⟨wait, hw⟩
  · cases h
    exact absurd rfl (hn x)

theorem Frame.rooted_of_step {m m' : Machine H} {t : ThreadId} {c : Control} {f g : Frame H}
    {n : Next H} (h : f.step b m t c = some (m', n)) (hg : n.own f = some g) : g.Rooted m := by
  have hthrow : ∀ x, n ≠ .throw x := by
    rintro x rfl
    cases hg
  have hsame := (leads_of_step h).sameCall hg
  cases g with
  | polling w waker s =>
    obtain ⟨s', rfl⟩ : ∃ s', f = .polling w waker s' := by
      rcases hsame with rfl | hsame
      · exact ⟨s, rfl⟩
      · exact hsame.of_polling
    cases s with
    | register => exact Polling.exists_wait h hthrow
    | _ => trivial
  | _ => trivial

namespace Chronicle

variable {c : Chronicle H} {μ : Moment H}

/-- A call that waits for no other call is on top of its thread. -/
theorem Tracked.top_of_not_awaits (hc : c.Tracked) {i : CallId} {f : Frame H}
    (hi : c.frame? i = some f) (hf : f.awaits = false) :
    (c.calls i.thread).head? = some i := by
  obtain ⟨⟨k, fs⟩, hs, hl⟩ := Option.bind_eq_some_iff.1 hi
  have hst := hc.stack _ _ _ hs
  cases his : c.calls i.thread with
  | nil => rw [his] at hl; cases hl
  | cons j is =>
    cases fs with
    | nil => rw [List.zip_nil_right] at hl; cases hl
    | cons g rest =>
      rw [his, List.zip_cons_cons, lookup_cons_name] at hl
      split at hl
      · rename_i hij
        rw [hij]
        rfl
      · obtain ⟨l, l', hzip, -⟩ := List.lookup_eq_some_iff.1 hl
        have hmem : (i, f) ∈ is.zip rest := by simp [hzip]
        rw [hst.awaits f (List.of_mem_zip hmem).2] at hf
        cases hf

/-- The thread of a call that waits for no other call. -/
theorem Tracked.thread?_of_not_awaits (hc : c.Tracked) {i : CallId} {f : Frame H}
    (hi : c.frame? i = some f) (hf : f.awaits = false) :
    ∃ k rest token, c.machine.thread? i.thread = some ⟨k, f :: rest, token⟩ := by
  have htop := hc.top_of_not_awaits hi hf
  obtain ⟨st, hst, hl⟩ := Option.bind_eq_some_iff.1 hi
  obtain ⟨⟨k, fs, token⟩, ht, rfl⟩ := Option.map_eq_some_iff.1 hst
  cases his : c.calls i.thread with
  | nil => rw [his] at htop; cases htop
  | cons j is =>
    rw [his] at htop hl
    obtain rfl := Option.some.inj htop
    cases fs with
    | nil => cases hl
    | cons g rest =>
      rw [List.zip_cons_cons, lookup_cons_name, if_pos rfl] at hl
      obtain rfl := Option.some.inj hl
      exact ⟨k, rest, token, ht⟩

theorem Tracked.eq_of_not_awaits (hc : c.Tracked) {i j : CallId} {f g : Frame H}
    (hi : c.frame? i = some f) (hf : f.awaits = false) (hj : c.frame? j = some g)
    (hg : g.awaits = false) (ht : i.thread = j.thread) : i = j := by
  have htop := hc.top_of_not_awaits hi hf
  rw [ht, hc.top_of_not_awaits hj hg] at htop
  exact (Option.some.inj htop).symm

/-- The owner of each guard is the thread of the call that holds it. -/
structure Owned (c : Chronicle H) : Prop where
  rooted : ∀ i f, c.frame? i = some f → f.Rooted c.machine
  owner : ∀ i f x, c.frame? i = some f → f.guard? c.machine i.thread = some x →
    c.machine.owner? x = some i.thread

theorem Owned.eq_of_guard? (hg : c.Owned) (hc : c.Tracked) {i j : CallId} {f g : Frame H}
    {x : Guard} (hi : c.frame? i = some f) (hf : f.guard? c.machine i.thread = some x)
    (hj : c.frame? j = some g) (hx : g.guard? c.machine j.thread = some x) : i = j := by
  have howner := hg.owner i f x hi hf
  rw [hg.owner j g x hj hx] at howner
  exact hc.eq_of_not_awaits hi (Frame.awaits_of_guard? hf) hj (Frame.awaits_of_guard? hx)
    (Option.some.inj howner).symm

/-- A moment does not change which guard goes with a stage. -/
theorem Extends.guard?_after (h : c.Extends b μ) {f : Frame H} (hf : f.Rooted c.machine)
    (t : ThreadId) : f.guard? μ.after t = f.guard? c.machine t := by
  cases f with
  | polling w waker s =>
    cases s with
    | register =>
      obtain ⟨wait, hw⟩ := hf
      obtain ⟨wait', hw', hp⟩ := h.wait hw
      simp only [Frame.guard?, hw, hw', Option.map_some, hp]
    | _ => rfl
  | completing p s | registering p s closing | reading p limited s | counting p s
  | removing p key s | interrupting u s => cases s <;> rfl
  | _ => rfl

theorem Extends.rooted_after (h : c.Extends b μ) {f : Frame H} (hf : f.Rooted c.machine) :
    f.Rooted μ.after := by
  cases f with
  | polling w waker s =>
    cases s with
    | register =>
      obtain ⟨wait, hw⟩ := hf
      obtain ⟨wait', hw', -⟩ := h.wait hw
      exact ⟨wait', hw'⟩
    | _ => trivial
  | _ => trivial

theorem Owned.rooted_record (hg : c.Owned) (hc : c.Tracked) (h : c.Extends b μ) {i : CallId}
    {f : Frame H} (hf : (c.record μ).frame? i = some f) : f.Rooted c.machine := by
  by_cases hs : f.steady = true
  · rcases steady_record hc h hf hs with ⟨rfl, hown⟩ | ⟨rfl, hcal⟩ | ⟨-, -, hold⟩
    · cases h.made with
      | step _ _ hstep _ =>
        rw [h.before] at hstep
        exact Frame.rooted_of_step hstep hown
      | wake _ _ hn _ =>
        rw [hn] at hown
        cases hown
        trivial
    · exact (h.made.leads.enters hcal).rooted _
    · exact hg.rooted i f hold
  · cases f <;> trivial

/-- A guard that another call takes or gives back at a moment is not the one that a call holds. -/
theorem Owned.owner_other (hg : c.Owned) (hc : c.Tracked) (h : c.Extends b μ) {i : CallId}
    {f : Frame H} {x : Guard} (hi : c.frame? i = some f)
    (hx : f.guard? c.machine i.thread = some x) (hne : i ≠ μ.call) :
    μ.after.owner? x = some i.thread := by
  have howner := hg.owner i f x hi hx
  have hk := (h.sound hc).keeping.guards
  rw [h.before] at hk
  generalize hy : μ.frame.guard? c.machine μ.call.thread = y at hk
  generalize ((μ.next.own μ.frame).bind fun g => g.guard? c.machine μ.call.thread) = y' at hk
  cases hk with
  | keep hk => rw [hk, howner]
  | @take g _ hf ht hk =>
    by_cases hxg : x = g
    · rw [hxg, hf] at howner
      cases howner
    · rw [hk x hxg, howner]
  | @give g _ ht hk =>
    by_cases hxg : x = g
    · subst hxg
      exact absurd (hg.eq_of_guard? hc hi hx (h.frame? hc) hy) hne
    · rw [hk x hxg, howner]

/-- The call that moves owns what it holds afterwards. -/
theorem Owned.owner_own (hg : c.Owned) (hc : c.Tracked) (h : c.Extends b μ) {f : Frame H}
    {x : Guard} (hf : μ.next.own μ.frame = some f)
    (hx : f.guard? c.machine μ.call.thread = some x) :
    μ.after.owner? x = some μ.call.thread := by
  have hk := (h.sound hc).keeping.guards
  rw [h.before, hf, Option.bind_some, hx] at hk
  generalize hy : μ.frame.guard? c.machine μ.call.thread = y at hk
  generalize hy' : some x = y' at hk
  cases hk with
  | keep hk =>
    subst hy'
    rw [hk, hg.owner _ _ x (h.frame? hc) hy]
  | take hfree ht => cases hy'; exact ht
  | give => cases hy'

theorem Owned.record (hg : c.Owned) (hc : c.Tracked) (h : c.Extends b μ) :
    (c.record μ).Owned := by
  refine ⟨fun i f hf => h.rooted_after (hg.rooted_record hc h hf), fun i f x hf hx => ?_⟩
  change f.guard? μ.after i.thread = some x at hx
  show μ.after.owner? x = some i.thread
  rw [h.guard?_after (hg.rooted_record hc h hf)] at hx
  by_cases hi : i = μ.call
  · subst hi
    rw [frame?_record_self hc h] at hf
    exact hg.owner_own hc h hf hx
  · by_cases hi' : i = μ.entered
    · subst hi'
      rw [frame?_record_entered hc h] at hf
      rw [(h.made.leads.enters hf).guard?_eq_none] at hx
      cases hx
    · have hk := frame?_record_of_ne hc h hi hi'
      rw [hf] at hk
      generalize hold : c.frame? i = o at hk
      cases hk with
      | same => exact hg.owner_other hc h hold hx hi
      | rouse | work => cases hx

theorem Reached.owned (hc : c.Reached b) : c.Owned := by
  induction c, hc using Reached.induction with
  | start m hm =>
    constructor
    · intro i f hf
      obtain ⟨work, rfl⟩ := frame?_start hm hf
      trivial
    · intro i f x hf hx
      obtain ⟨work, rfl⟩ := frame?_start hm hf
      cases hx
  | record c μ hc hμ hc' ih => exact ih.record hc.tracked hμ

theorem Reached.eq_of_guard? (hc : c.Reached b) {i j : CallId} {f g : Frame H} {x : Guard}
    (hi : c.frame? i = some f) (hf : f.guard? c.machine i.thread = some x)
    (hj : c.frame? j = some g) (hx : g.guard? c.machine j.thread = some x) : i = j :=
  hc.owned.eq_of_guard? hc.tracked hi hf hj hx

end Chronicle

end OneShot
