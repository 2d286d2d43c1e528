import OneShot.Proofs.Chain.Levels
import OneShot.Proofs.Completion.Aftermath

/-!
# Calls within a call

A completion notifies listeners, and the notification of a chain listener completes another promise.
So one completion call can go through a whole tree of promises. This module says which calls the
library makes on its way, and what they have in common.

- **Panics** of chain callbacks (`Moment.Breaks`).
- **Told before** (`Reached.told_before`): what a call is told of has come out of a call that it has
  made, at an earlier moment.
- **Within a call** (`Chronicle.Within`): what the library calls on its way. Calls that the
  program's code makes in between are not meant; how they end is told to that code.
- **Over together** (`Within.over`): when a call is over, so is everything within it.
- **Without panics** (`Reached.not_left`): unless code within a call panics, nothing within it is
  left by a panic.
- **Completed within** (`Reached.won_within`): a derived promise whose callback ends within a call
  has been completed when that call is over.
-/

namespace OneShot

variable {H : Host} {b : Behaviour H}

/-! ## Told before -/

/-- Code by which a call is left with a panic has panicked. -/
theorem Machine.panics_of_runCode {m m' : Machine H} {t : ThreadId} {r : Role} {code : H.Code r}
    {k : Control} {wrap : H.Code r → Frame H} {done : Machine H → r.Reply → Move H} {x : String}
    (h : m.runCode b t code k wrap done = some (m', .throw x))
    (hd : ∀ m₁ v, done m₁ v ≠ some (m', .throw x)) :
    ∃ m₁, m.resume b t code k = (m₁, .panic x) := by
  generalize hn : Next.throw x = n at h
  cases Machine.ran_of_runCode h with
  | call | stay => cases hn
  | finish _ hv => exact absurd (hn ▸ hv) (hd _ _)
  | panic hr => cases hn; exact ⟨_, hr⟩

/-- A completion call that its code leaves by a panic runs code that panics. -/
theorem Moment.Sound.panics_of_completing {μ : Moment H} (h : μ.Sound b) {p : PromiseId}
    {s : Completing H} {x : String} (hf : μ.frame = .completing p s)
    (hs : (Frame.completing p s).code?.isSome = true) (hn : μ.next = .throw x) : μ.Panics b := by
  cases h.made with
  | wake _ hf' => rw [hf] at hf'; cases hf'
  | step _ _ hstep _ =>
    rw [hf, hn] at hstep
    cases s with
    | stamp code =>
      obtain ⟨m, hr⟩ := Machine.panics_of_runCode hstep fun m₁ v hv => by
        obtain ⟨pr, -, hv⟩ := Option.bind_eq_some_iff.1 hv
        cases hv
      exact ⟨.clock, code, m, x, by rw [hf]; rfl, nofun, hr⟩
    | waking code rest =>
      obtain ⟨m, hr⟩ := Machine.panics_of_runCode hstep fun m₁ v => nofun
      exact ⟨.waker, code, m, x, by rw [hf]; rfl, nofun, hr⟩
    | _ => cases hs

/-- The chain callback that is to complete `d` panics with `x` at this moment. It was run for a
listener of `s`. -/
def Moment.Breaks (b : Behaviour H) (ε : Moment H) (s d : PromiseId) (x : String) : Prop :=
  ∃ code m, ε.frame = .notifying s (.transforming d code) ∧
    ε.before.resume b ε.call.thread code ε.control = (m, .panic x)

theorem Moment.Breaks.panics {ε : Moment H} {s d : PromiseId} {x : String}
    (h : ε.Breaks b s d x) : ε.Panics b := by
  obtain ⟨code, m, hf, hr⟩ := h
  exact ⟨.transform, code, m, x, by rw [hf]; rfl, nofun, hr⟩

namespace Chronicle

variable {c : Chronicle H} {ρ τ : Moment H} {p d : PromiseId} {x : String}

/-- What a call is told of has come out of a call that it has made, at an earlier moment. -/
theorem Reached.told_before (hc : c.Reached b) (hρ : ρ ∈ c.past) (hs : ρ.frame.steady = true)
    (hk : ρ.control ≠ .go) : ∃ ν ∈ c.past, ν.call = ρ.call ∧ (∃ g, ν.next = .enter g ρ.frame) ∧
      ∃ τ ∈ c.past, τ.call = ν.entered ∧ τ.next.told? = some ρ.control ∧
        τ.number < ρ.number := by
  obtain ⟨c₀, hc₀, h, hturn, hl⟩ := hc.reaches_of_mem hρ
  have hc₁ := hc₀.reaches hturn
  obtain ⟨l, hpast⟩ := hl.exists_past hc₁
  have hmono : ∀ ω ∈ (c₀.record ρ).past, ω ∈ c.past := fun ω hω =>
    hpast ▸ List.mem_append_left _ hω
  obtain ⟨_, hp, -⟩ := hc₁.path_of_moment ρ mem_record_self hs
  rcases hp.previous ρ (mem_moments.2 ⟨mem_record_self, rfl⟩) with ⟨-, hgo⟩ | ⟨ν, hν, hown, htold⟩
  · exact absurd hgo hk
  · obtain ⟨hν, hcall⟩ := mem_moments.1 hν
    generalize hlast : some ν = last, hcontrol : ρ.control = k at htold hk
    cases htold with
    | first | own => exact absurd rfl hk
    | @callee _ τ g f _ hn hτ hi ht =>
      cases hlast
      have hf : f = ρ.frame := by
        rw [hn] at hown
        exact Option.some.inj hown
      refine ⟨ν, hmono ν hν, hcall, ⟨g, hf ▸ hn⟩, τ, hmono τ hτ, hi, hcontrol ▸ ht, ?_⟩
      rcases mem_record.1 hτ with hτ | rfl
      · have hle := (hc₀.sound τ hτ).2.2
        have hnum := h.number
        omega
      · -- A call is not entered by itself.
        have hlt := (hc₁.sound ν hν).2.1
        rw [hcall, hi] at hlt
        exact absurd hlt (Nat.lt_irrefl _)

/-- A chain listener that cleans up has a callback that has panicked. -/
theorem Reached.breaks_of_cleaning (hc : c.Reached b) (hτ : τ ∈ c.past)
    (hf : τ.frame = .notifying p (.cleaning d x)) :
    ∃ ε ∈ c.past, ε.call = τ.call ∧ ε.Breaks b p d x := by
  obtain ⟨ε, hε, o, hcall, hends, hn, -⟩ := hc.relayed hτ hf (.inr ⟨x, rfl⟩)
  cases hends with
  | returned _ _ hn' => rw [hn'] at hn; cases hn
  | panicked hfε hr hn' => rw [hn'] at hn; cases hn; exact ⟨ε, hε, hcall, _, _, hfε, hr⟩

end Chronicle

/-! ## Within a call -/

/-- A completion or a notification: what the library calls of its own accord. -/
inductive Frame.Serves : Frame H → Prop
  | completing {p s} : Serves (.completing p s)
  | notifying {p s} : Serves (.notifying p s)

theorem Frame.Serves.steady {f : Frame H} (h : f.Serves) : f.steady = true := by
  cases h <;> rfl

theorem Frame.Becomes.serves {f g : Frame H} (h : g.Becomes f) (hg : g.Serves) : f.Serves := by
  induction h with
  | refl => exact hg
  | step _ hs ih => cases ih <;> cases hs <;> constructor

/-- What is entered without the program's code is a completion or a notification. -/
theorem Moment.Sound.serves {μ : Moment H} {f g : Frame H} (h : μ.Sound b)
    (hn : μ.next = .enter g f) (hf : f.code? = none) : g.Serves := by
  rcases h.enters hn with hcode | ⟨p, s, rfl⟩ | ⟨d, o, rfl, -⟩
  · rw [hf] at hcode
    cases hcode
  · exact .notifying
  · exact .completing

namespace Chronicle

/-- Call `j` is call `i`, or the library has called it on the way of `i`. -/
inductive Within (c : Chronicle H) (i : CallId) : CallId → Prop
  | self : Within c i i
  | enter {ν g f} (h : Within c i ν.call) (hν : ν ∈ c.past) (hn : ν.next = .enter g f)
    (hf : f.code? = none) : Within c i ν.entered

/-- Call `i` was entered as a completion or a notification. -/
def Serves (c : Chronicle H) (i : CallId) : Prop :=
  ∃ ν ∈ c.past, ν.entered = i ∧ ∃ g, ν.next.callee? = some g ∧ g.Serves

variable {c : Chronicle H} {ν ρ : Moment H} {i j : CallId}

theorem Within.entry_le (hc : c.Reached b) (h : c.Within i j) : i.entry ≤ j.entry := by
  induction h with
  | self => exact Nat.le_refl _
  | @enter ν g f _ hν _ _ ih => exact Nat.le_trans ih (Nat.le_of_lt (hc.sound ν hν).2.1)

theorem Within.serves (hc : c.Reached b) (h : c.Within i j) (hi : c.Serves i) : c.Serves j := by
  cases h with
  | self => exact hi
  | @enter ν g f _ hν hn hf =>
    exact ⟨ν, hν, rfl, g, by rw [hn]; rfl, (hc.sound ν hν).1.serves hn hf⟩

/-- A call that was entered as a completion or a notification is one at each of its moments. -/
theorem Serves.frame (hc : c.Reached b) (hi : c.Serves ρ.call) (hρ : ρ ∈ c.past) :
    ρ.frame.Serves := by
  obtain ⟨ν, hν, hent, g, hg, hs⟩ := hi
  exact (((hc.path ν hν g hg hs.steady).becomes hc).2 ρ (mem_moments.2 ⟨hρ, hent.symm⟩)).serves hs

theorem Reached.over_of_caller (hc : c.Reached b) (hν : ν ∈ c.past) {g f : Frame H}
    (hn : ν.next = .enter g f) (hg : g.steady = true) (hf : ν.frame.steady = true)
    (h : c.frame? ν.call = none) : c.frame? ν.entered = none := by
  refine Classical.byContradiction fun hne => ?_
  obtain ⟨-, hwaits⟩ := hc.waits hν hn hg hf hne
  rw [h] at hwaits
  cases hwaits

theorem Within.over (hc : c.Reached b) (h : c.Within i j) (hs : c.Serves i)
    (hi : c.frame? i = none) : c.frame? j = none := by
  induction h with
  | self => exact hi
  | enter h hν hn hf ih =>
    exact hc.over_of_caller hν hn ((hc.sound _ hν).1.serves hn hf).steady
      ((h.serves hc hs).frame hc hν).steady ih

/-! ## Without panics -/

/-- Unless code within a call panics, nothing within it is left by a panic. -/
theorem Reached.not_left (hc : c.Reached b) (hs : c.Serves i)
    (hno : ∀ ρ ∈ c.past, c.Within i ρ.call → ¬ρ.Panics b) (n : Nat) :
    ∀ ρ ∈ c.past, ρ.number = n → c.Within i ρ.call → ρ.next ≠ .abort ∧ ∀ x, ρ.next ≠ .throw x := by
  induction n using Nat.strongRecOn with
  | ind n ih =>
    intro ρ hρ hnum hin
    have hserves := (hin.serves hc hs).frame hc hρ
    have hsound := (hc.sound ρ hρ).1
    -- A panic that passes has left a call within, at an earlier moment.
    have hpass : ρ.frame.code? = none → ∀ y, ρ.control ≠ .raise y := by
      intro hf y hk
      obtain ⟨ν, hν, hcall, ⟨g, hn⟩, τ, hτ, hi, ht, hlt⟩ :=
        hc.told_before hρ hserves.steady (by rw [hk]; nofun)
      have hin' : c.Within i τ.call := hi ▸ .enter (hcall ▸ hin) hν hn hf
      refine (ih τ.number (hnum ▸ hlt) τ hτ rfl hin').2 y ?_
      rw [hk] at ht
      cases hx : τ.next <;> rw [hx] at ht <;> cases ht
      rfl
    have hclean : ∀ p d y, ρ.frame ≠ .notifying p (.cleaning d y) := by
      intro p d y hf
      obtain ⟨ε, hε, hcall, hx⟩ := hc.breaks_of_cleaning hρ hf
      exact hno ε hε (hcall ▸ hin) hx.panics
    refine ⟨fun hn => ?_, fun x hn => ?_⟩
    · have hleads := hsound.made.leads
      rw [hn] at hleads
      cases hleads with
      | abort hf => exact hclean _ _ _ hf
    generalize hf : ρ.frame = fr at hserves hpass hclean
    cases hserves with
    | @completing p s =>
      have hcode : (Frame.completing p s).code?.isSome = true → False := fun hs =>
        hno ρ hρ hin (hsound.panics_of_completing hf hs hn)
      obtain ⟨w, o, r, hw⟩ := hc.exists_won hρ hf
      have hstore := hw.stores ρ hρ
      obtain ⟨pr, pr', -, -, hm⟩ := hc.moved ρ hρ p s hf
      generalize hx : ρ.next = n', hk : ρ.control = k at hm
      cases hm with
      | twice => exact hstore _ _ hf hx
      | stampPanic | wakePanic => exact hcode rfl
      | pass => exact hpass rfl _ hk
      | _ => rw [hn] at hx; cases hx
    | @notifying p s =>
      have hm := hsound.notifying hf
      rw [hn] at hm
      generalize hx : Next.throw x = n', ρ.failures = fs at hm
      cases hm with
      | cleaned => exact hclean _ _ _ rfl
      | @result _ r => cases r <;> cases hx
      | run _ _ hown | ask _ _ hown => cases hx; cases hown
      | panic hp =>
        cases hp with
        | listening hr => exact hno ρ hρ hin ⟨.listener, _, _, _, by rw [hf]; rfl, nofun, hr⟩
        | observing hr => exact hno ρ hρ hin ⟨.observer, _, _, _, by rw [hf]; rfl, nofun, hr⟩
        | settling hr => exact hno ρ hρ hin ⟨.policy, _, _, _, by rw [hf]; rfl, nofun, hr⟩
        | relaying hk => exact hpass rfl _ hk
      | _ => cases hx

end Chronicle

/-! ## Completed within -/

/-- The completion of `p` has been decided by call `w`, with outcome `o`, and whoever had left
something with `p` has been served. -/
structure Chronicle.Cleared (b : Behaviour H) (c : Chronicle H) (p : PromiseId) (w : CallId)
    (o : Outcome) : Prop where
  decided : c.DecidedBy p w o
  released : c.Released b p o
  served : c.Served p

/-- The completion with which a callback ends is within the calls that its notification is in. -/
theorem Moment.Ends.within {c : Chronicle H} {ε : Moment H} {d : PromiseId} {o : Outcome}
    {i : CallId} (h : ε.Ends b d o) (hε : ε ∈ c.past) (hin : c.Within i ε.call) :
    c.Within i ε.entered := by
  cases h with
  | returned _ _ hn | panicked _ _ hn => exact .enter hin hε hn rfl

namespace Chronicle

variable {c c' : Chronicle H} {ν κ ε ρ : Moment H} {p s d : PromiseId} {i w : CallId}
  {f : H.Closure .transform} {o o' : Outcome} {r : Progress}

/-- A callback ends once. -/
theorem Reached.ends_unique (hc : c.Reached b) (hκ : κ ∈ c.past) (hd : κ.Derives s f d)
    (hε : ε ∈ c.past) (h : ε.Ends b d o) (hρ : ρ ∈ c.past) (h' : ρ.Ends b d o') : ρ = ε := by
  have hmem := hc.callback_of_ends hε h
  have hmem' := hc.callback_of_ends hρ h'
  rcases hc.callbacks_cases hκ hd with hnil | ⟨ν, hν, hone, hcal⟩
  · rw [hnil] at hmem
    cases hmem
  · rw [hone, List.mem_singleton] at hmem hmem'
    have hε' : ε ∈ c.moments ν.entered := mem_moments.2 ⟨hε, hmem⟩
    have hρ' : ρ ∈ c.moments ν.entered := mem_moments.2 ⟨hρ, hmem'⟩
    cases (hc.path ν hν _ hcal rfl).callback hc with
    | running _ hl => exact absurd h (hl ε hε' o)
    | ended _ _ hl => rw [hl ε hε' o h, hl ρ hρ' o' h']

/-- The completion with which a callback has ended is about to claim the derived promise, or it has
won it. -/
theorem Reached.won_of_ends (hc : c.Reached b) (hh : c.Honest) (hκ : κ ∈ c.past)
    (hd : κ.Derives s f d) (hε : ε ∈ c.past) (h : ε.Ends b d o) :
    c.frame? ε.entered = some (.completing d (.claim o)) ∧ c.Unclaimed d ∨
      ∃ r, c.Won d ε.entered o r := by
  cases hc.contest d with
  | unclaimed hu => exact .inl ⟨hu.claiming hc hε h.callee?, hu⟩
  | won hw =>
    obtain ⟨ε', hε', rfl, h'⟩ := hw.ends hc hh hκ hd
    obtain rfl := hc.ends_unique hκ hd hε h hε' h'
    obtain rfl := h.unique h'
    exact .inr ⟨_, hw⟩

/-- A completion within a call that is over and in which nothing panicked has gone through all its
stages. -/
theorem Won.drained_of_within (hc : c.Reached b) (hw : c.Won p w o r) (hin : c.Within i w)
    (hs : c.Serves i) (hno : ∀ ρ ∈ c.past, c.Within i ρ.call → ¬ρ.Panics b)
    (hi : c.frame? i = none) : r = .drained := by
  have hleft : ∀ κ ∈ c.past, ∀ s x, κ.frame = .completing p s → (∀ o', s ≠ .claim o') →
      κ.next ≠ .throw x := fun κ hκ s x hf hclaim =>
    (hc.not_left hs hno _ κ hκ rfl (hw.call_eq hκ hf hclaim ▸ hin)).2 x
  rcases hw.cause hc (hin.over hc hs hi) with ⟨-, κ, hκ, code, x, hf, hn⟩ |
    ⟨-, κ, hκ, code, rest, x, hf, hn⟩ | hr
  · exact absurd hn (hleft κ hκ _ x hf nofun)
  · exact absurd hn (hleft κ hκ _ x hf nofun)
  · exact hr

/-- A promise that is done stays so, with its winner's outcome. -/
theorem Won.done_for_good (hc : c.Reached b) (hw : c.Won p w o r)
    (hd : c.machine.isDone p = true) (hl : c.Reaches b c') :
    c'.DecidedBy p w o ∧ c'.machine.isDone p = true ∧ c'.machine.outcome? p = some o := by
  obtain ⟨r', hw'⟩ := hw.reaches hc hl
  have hd' := hc.isDone_of_reaches hl hd
  refine ⟨hw'.decidedBy, hd', ?_⟩
  obtain ⟨pr, hp, hsh⟩ := hw'.cells
  obtain ⟨pr', hp', hopen⟩ := Machine.isDone_iff_cells?.1 hd'
  rw [hp] at hp'
  cases hp'
  rw [hsh.isDone] at hopen
  rw [hw'.outcome?, if_neg fun hr => by rw [hr] at hopen; cases hopen]

/-- When the winner is over and has drained the listeners, everybody has been served. -/
theorem Won.cleared (hc : c.Reached b) (hw : c.Won p w o .drained) (hn : c.frame? w = none) :
    c.Cleared b p w o :=
  ⟨hw.decidedBy, hw.released hc hn rfl, hw.served hc hn⟩

/-- When the winner is over and has drained the listeners, its delivery has come to an end. -/
theorem Won.delivery (hc : c.Reached b) (hw : c.Won p w o .drained) (hn : c.frame? w = none) :
    Delivery b c p ((c.stored p).map Prod.snd) (c.deliveries p)
      ((c.moments w).getLast?.map Moment.next) none := by
  obtain ⟨pr, hp, hsh⟩ := hw.cells
  have hdrained : pr.listeners.data.isDrained = true := hsh.drained
  have hq := hc.queue p
  rw [hp] at hq
  cases hq with
  | pending hl => rw [hl] at hdrained; cases hdrained
  | @drained _ δ _ hδ hf _ =>
    have hdel := (hc.delivery hδ hf).2
    rwa [hw.call_eq hδ hf nofun, hn] at hdel

/-- A derived promise whose callback has ended within a call that is over, and in which nothing
panicked, has been completed. -/
theorem Reached.won_within (hc : c.Reached b) (hh : c.Honest) (hκ : κ ∈ c.past)
    (hd : κ.Derives s f d) (hε : ε ∈ c.past) (h : ε.Ends b d o) (hin : c.Within i ε.call)
    (hs : c.Serves i) (hno : ∀ ρ ∈ c.past, c.Within i ρ.call → ¬ρ.Panics b)
    (hi : c.frame? i = none) : c.Won d ε.entered o .drained ∧ c.frame? ε.entered = none := by
  have hin' := h.within hε hin
  have hover := hin'.over hc hs hi
  rcases hc.won_of_ends hh hκ hd hε h with ⟨hclaim, -⟩ | ⟨r, hw⟩
  · rw [hover] at hclaim
    cases hclaim
  · obtain rfl := hw.drained_of_within hc hin' hs hno hi
    exact ⟨hw, hover⟩

/-- A chain callback that was invoked within a call that is over, and in which nothing panicked, has
returned. -/
theorem Reached.returned_within (hc : c.Reached b) (hν : ν ∈ c.past) (hin : c.Within i ν.entered)
    {code : H.Code .transform} (hn : ν.next.callee? = some (.notifying p (.transforming d code)))
    (hs : c.Serves i) (hi : c.frame? i = none) : ∃ ε ∈ c.past, ε.call = ν.entered ∧
      ∃ o, ε.Ends b d o := by
  have hover := hin.over hc hs hi
  cases (hc.path ν hν _ hn rfl).callback hc with
  | running hx => rw [hover] at hx; cases hx
  | @ended ε o hε h =>
    obtain ⟨hε, hcall⟩ := mem_moments.1 hε
    exact ⟨ε, hε, hcall, o, h⟩

end Chronicle

end OneShot
