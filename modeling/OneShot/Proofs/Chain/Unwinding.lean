import OneShot.Proofs.Chain.Within

/-!
# A chain callback that panics

A panic of a chain callback is held back until the derived promise has been cancelled, with all that
this brings with it. Then it goes on, as it was, through the call that ran the chain listener.

- **The panic** (`Moment.Sound.breaks`, `Reached.pending_of_ends`): it is logged while the derived
  promise is pending, and the cancellation is entered in the same step.
- **The source** (`Reached.won_of_run`): it is done when a listener of it is run.
- **The cancellation** (`Chronicle.Cancelled`): what it has come to when it is over.
- **On its way** (`Unwinding`): where the panic is, and that nothing keeps it there.
- **What is left out** (`Reached.deliveries_at`, `Chronicle.Cut`): the listeners that were to
  follow.
- **All of it** (`Breakdown`, `cancels_before_unwinding`).
-/

namespace OneShot

variable {H : Host} {b : Behaviour H}

/-! ## The panic -/

/-- A panic of a chain callback is logged, and the cancellation of the derived promise is entered in
the same step. -/
theorem Moment.Sound.breaks {ε : Moment H} {s d : PromiseId} {x : String} (h : ε.Sound b)
    (hx : ε.Breaks b s d x) : ε.Ends b d .cancelled ∧
      ε.next = .enter (.completing d (.claim .cancelled)) (.notifying s (.cleaning d x)) ∧
      ∃ code m, ε.frame = .notifying s (.transforming d code) ∧
        ε.before.resume b ε.call.thread code ε.control = (m, .panic x) ∧
        ε.after.log = m.log.push (.library (.chainPanicked d (m.display d))) := by
  obtain ⟨code, m, hf, hr⟩ := hx
  cases h.made with
  | wake _ hf' => rw [hf] at hf'; cases hf'
  | step _ _ hs ha =>
    rw [hf] at hs
    replace hs : (Notifying.transforming d code).step b ε.before ε.call.thread s ε.control = _ := hs
    simp only [Notifying.step, hr, Option.some.injEq, Prod.mk.injEq] at hs
    obtain ⟨rfl, hn⟩ := hs
    refine ⟨.panicked hf hr hn.symm, hn.symm, code, m, hf, hr, ?_⟩
    rw [ha, Machine.log_proceed]
    rfl

namespace Chronicle

variable {c c' : Chronicle H} {κ ε ν ω τ : Moment H} {p s d : PromiseId} {f : H.Closure .transform}
  {o : Outcome} {x : String} {g : Frame H} {a : Listener H} {rest : List (Listener H)}

/-- A derived promise is pending when its callback ends, and still after that. -/
theorem Reached.pending_of_ends (hc : c.Reached b) (hh : c.Honest) (hε : ε ∈ c.past)
    (h : ε.Ends b d o) : (∃ pr, ε.before.promise? d = some pr ∧ pr.Pending) ∧
      ∃ pr, ε.after.promise? d = some pr ∧ pr.Pending := by
  obtain ⟨c₀, hc₀, hext, hturn, hl⟩ := hc.reaches_of_mem hε
  have hc₁ := hc₀.reaches hturn
  have hh₁ : (c₀.record ε).Honest := hh.of_reaches hc₁ hl
  have hmem : ε ∈ (c₀.record ε).past := mem_record_self
  obtain ⟨ν, hν, hcb⟩ := List.mem_filterMap.1 (hc₁.callback_of_ends hmem h)
  obtain ⟨-, p, code, hn⟩ := Moment.callback?_eq_some_iff.1 hcb
  obtain ⟨κ, hκ, f, hd, -⟩ := hc₁.derives_of_callee hν hn
  -- The cancellation that the end enters has made no step yet.
  have hu : (c₀.record ε).Unclaimed d := by
    rcases hc₁.won_of_ends hh₁ hκ hd hmem h with ⟨-, hu⟩ | ⟨r, hw⟩
    · exact hu
    · obtain ⟨ρ, hρ, hcall, -⟩ := hw.exists_moment
      obtain ⟨-, hlt, hle⟩ := hc₁.sound ρ hρ
      rw [hcall, past_record, List.length_append, List.length_singleton, ← hext.number] at *
      exact absurd hlt (Nat.not_lt.2 hle)
  have hκ₀ : κ ∈ c₀.past := (mem_record.1 hκ).resolve_right fun heq => by
    obtain ⟨⟨_, hf⟩, -⟩ := hd
    obtain ⟨_, _, hf'⟩ := h.frame
    rw [heq, hf'] at hf
    cases hf
  obtain ⟨-, pr, -, hp, -⟩ := hc₀.derived hκ₀ hd
  obtain ⟨-, pr', -, hp', -⟩ := hc₁.derived hκ hd
  have hpending := hu.shown ε hmem pr (hext.before ▸ hp)
  have hpending' := hu.cells pr' hp'
  rw [← hext.before] at hp
  obtain ⟨pr, hpr, rfl⟩ := Option.map_eq_some_iff.1 hp
  obtain ⟨pr', hpr', rfl⟩ := Option.map_eq_some_iff.1 hp'
  have hbare : ∀ {pr : Promise H}, pr.bare.Pending → pr.Pending := fun h =>
    ⟨h.status, h.outcome, h.isDone, h.taken, h.drained⟩
  exact ⟨⟨pr, hpr, hbare hpending⟩, pr', hpr', hbare hpending'⟩

/-! ## The source -/

/-- A promise whose listener has been run is done, and it has a winner. -/
theorem Reached.won_of_run (hc : c.Reached b) (hω : ω ∈ c.past) {r : Notifying H}
    (hn : ω.next.callee? = some (.notifying p r)) :
    c.machine.isDone p = true ∧ ∃ w o r, c.Won p w o r := by
  obtain ⟨c₀, hc₀, h, hturn, hl⟩ := hc.reaches_of_mem hω
  obtain ⟨pr, hp, hopen⟩ := hc.cells_of_run hω hn
  rw [h.before] at hp
  have hd : c.machine.isDone p = true := hc₀.isDone_of_reaches (hturn.trans hl)
    (Machine.isDone_iff_cells?.2 ⟨pr, hp, hopen.elim id (hc₀.isDone_of_drained hp)⟩)
  refine ⟨hd, ?_⟩
  cases hc.contest p with
  | unclaimed hu =>
    obtain ⟨pr', hp', hd'⟩ := Machine.isDone_iff_cells?.1 hd
    rw [(hu.cells pr' hp').isDone] at hd'
    cases hd'
  | won hw => exact ⟨_, _, _, hw⟩

/-! ## What is left out -/

/-- Where the delivery stands when a listener is about to be notified. -/
theorem Reached.deliveries_at (hc : c.Reached b) (hω : ω ∈ c.past)
    (hf : ω.frame = .completing p (.deliver (a :: rest))) : ∃ ds ds',
      (c.stored p).map Prod.snd = ds.map Prod.fst ++ a :: rest ∧
      c.deliveries p = ds ++ (a, ω.entered) :: ds' := by
  obtain ⟨l, l', hpast⟩ := List.append_of_mem hω
  obtain ⟨c₀, hc₀, rfl, h, hturn, hl⟩ := hc.exists_reaches hpast
  have hi : c₀.frame? ω.call = some (.completing p (.deliver (a :: rest))) := by
    rw [h.frame? hc₀.tracked, hf]
  obtain ⟨δ, hδ, hfδ⟩ := hc₀.exists_drain_of_frame? hi rfl
  obtain ⟨hδ, hcall⟩ := mem_moments.1 hδ
  -- What the drain has taken out is all that is ever stored.
  obtain ⟨hn₀, hdel⟩ := hc₀.delivery hδ hfδ
  obtain ⟨hn, -⟩ := hc.delivery (hpast ▸ List.mem_append_left _ hδ) hfδ
  have hstored : (c.stored p).map Prod.snd = (c₀.stored p).map Prod.snd := by
    rw [hn₀] at hn
    simpa using hn.symm
  rw [hcall, hi] at hdel
  refine ⟨c₀.deliveries p, l'.filterMap (Moment.delivery? p), ?_, ?_⟩
  · rw [hstored]
    generalize (c₀.stored p).map Prod.snd = ls, c₀.deliveries p = ds,
      (c₀.moments ω.call).getLast?.map Moment.next = n,
      hx : some (Frame.completing p (.deliver (a :: rest))) = x at hdel ⊢
    cases hdel with
    | ready hls => cases hx; exact hls
    | waiting | finished | propagated | panicked => cases hx
  · rw [deliveries, hpast, List.filterMap_append,
      List.filterMap_cons_some (Moment.delivery?_of_deliver hf)]
    rfl

/-- The delivery of `p` has stopped at the notification `i` of the listener `a`. The listeners that
follow, which are `rest`, are gone and will never be notified. -/
structure Cut (b : Behaviour H) (c : Chronicle H) (p : PromiseId) (a : Listener H) (i : CallId)
    (rest : List (Listener H)) : Prop where
  stored : ∃ ds, (c.stored p).map Prod.snd = ds.map Prod.fst ++ a :: rest ∧
    ∀ c', c.Reaches b c' → c'.deliveries p = ds ++ [(a, i)]
  gone : ∀ c', c.Reaches b c' →
    ∃ pr, c'.machine.promise? p = some pr ∧ pr.listenerCount = 0

/-- A delivery that a panic has left has stopped at the listener that the panic has come out of. -/
theorem Reached.cut (hc : c.Reached b) (hω : ω ∈ c.past)
    (hf : ω.frame = .completing p (.deliver (a :: rest))) (hover : c.frame? ω.call = none)
    (hx : (c.moments ω.entered).getLast?.map Moment.next = some (.throw x)) :
    c.Cut b p a ω.entered rest := by
  obtain ⟨w, o, r, hw⟩ := hc.exists_won hω hf
  obtain rfl : ω.call = w := hw.call_eq hω hf nofun
  obtain ⟨δ, hδ, hcall, hfδ⟩ := hc.exists_drain hω hf rfl
  obtain ⟨ds, ds', hls, hdel⟩ := hc.deliveries_at hω hf
  have hbenign : ¬c.Benign b p ω.entered := by
    rintro ⟨fate, ho, hb⟩
    obtain ⟨ρ, hlast, ht⟩ := Option.bind_eq_some_iff.1 ho.told
    rw [hlast] at hx
    rw [Option.some.inj hx] at ht
    obtain rfl := Fate.eq_panicked_of_told (Option.some.inj ht).symm
    cases hb
  -- A delivery does not go on past such a listener.
  have hend : ∀ l n, Delivery b c p ((c.stored p).map Prod.snd) l n none →
      (a, ω.entered) ∈ l → ∃ l₀, l = l₀ ++ [(a, ω.entered)] ∧ (a, ω.entered) ∉ l₀ := by
    intro l n h hmem
    generalize hy : (none : Option (Frame H)) = y at h
    cases h with
    | ready | waiting => cases hy
    | finished _ hb => exact absurd (hb _ hmem) hbenign
    | @propagated l₀ _ _ _ _ hb | @panicked l₀ _ _ _ _ hb =>
      rcases List.mem_append.1 hmem with hmem | hmem
      · exact absurd (hb _ hmem) hbenign
      · exact ⟨l₀, by rw [List.mem_singleton.1 hmem], fun hl₀ => hbenign (hb _ hl₀)⟩
  have hdelivery := (hc.delivery hδ hfδ).2
  rw [hcall, hover] at hdelivery
  obtain ⟨l₀, hl₀, hnot⟩ := hend _ _ hdelivery (by rw [hdel]; simp)
  obtain rfl : ds' = [] := by
    rcases List.eq_nil_or_concat ds' with hnil | ⟨ds'', e, rfl⟩
    · exact hnil
    · rw [hdel, List.concat_eq_append, ← List.cons_append, ← List.append_assoc] at hl₀
      rw [← (List.append_singleton_inj.1 hl₀).1] at hnot
      simp at hnot
  refine ⟨⟨ds, hls, fun c' hl => ?_⟩, fun c' hl => ?_⟩
  · obtain ⟨r', hw'⟩ := hw.reaches hc hl
    rw [hw'.deliveries_eq, (moments_of_over hc hl hw.entry hover).1, ← hw.deliveries_eq, hdel]
  · obtain ⟨r', hw'⟩ := hw.reaches hc hl
    obtain ⟨l, hpast⟩ := hl.exists_past hc
    obtain ⟨pr, hp, -, -, hcount⟩ :=
      hw'.done ((hc.reaches hl).isDrained (hpast ▸ List.mem_append_left _ hδ) hfδ)
    exact ⟨pr, hp, hcount⟩

end Chronicle

/-! ## On its way -/

/-- What the cancellation of `d` by call `w` has come to when it is over: whoever waited for `d` has
been served, its listeners were notified in the order in which they were stored, up to the first
failure that was handed back, and every derived promise that was come to on the way is completed
too, with what its callback came to. -/
structure Chronicle.Cancelled (b : Behaviour H) (c : Chronicle H) (d : PromiseId)
    (w : CallId) : Prop where
  cleared : c.Cleared b d w .cancelled
  delivered : ∃ r, Delivery b c d ((c.stored d).map Prod.snd) (c.deliveries d)
    (some (.answer (.settled r))) none
  below : ∀ ν ∈ c.past, c.Within w ν.call → ∀ p e code,
    ν.next.callee? = some (.notifying p (.transforming e code)) →
    ∃ ε ∈ c.past, ε.call = ν.entered ∧ ∃ o, ε.Ends b e o ∧ c.Cleared b e ε.entered o

/-- Where the panic `x` is that has come out of the callback for `d` at the moment `ε`. The chain
listener was run at the moment `ω`, by a call that waits for it at stage `g`. -/
inductive Unwinding (b : Behaviour H) (c : Chronicle H) (s d : PromiseId) (x : String)
    (ε ω : Moment H) (g : Frame H) : Prop
  /-- It is held back while `d` is cancelled. -/
  | held (h : c.frame? ε.entered ≠ none)
    (hε : c.frame? ε.call = some (.notifying s (.cleaning d x))) (hω : c.frame? ω.call = some g)
  /-- It is about to leave the chain listener. -/
  | freed (h : c.frame? ε.entered = none)
    (hε : c.frame? ε.call = some (.notifying s (.cleaning d x))) (hω : c.frame? ω.call = some g)
    (hgo : c.machine.aborted = false → ∃ m, c.machine.step b ε.call.thread = some m)
  /-- It has left the chain listener and is about to leave the call that ran it. -/
  | passing (h : c.frame? ε.entered = none) (hε : c.frame? ε.call = none)
    (hx : (c.moments ε.call).getLast?.map Moment.next = some (.throw x))
    (hω : c.frame? ω.call = some g)
    (hgo : c.machine.aborted = false → ∃ m, c.machine.step b ω.call.thread = some m)
  /-- It has left both. -/
  | passed (h : c.frame? ε.entered = none) (hε : c.frame? ε.call = none)
    (hx : (c.moments ε.call).getLast?.map Moment.next = some (.throw x))
    (hω : c.frame? ω.call = none)
    (hx' : (c.moments ω.call).getLast?.map Moment.next = some (.throw x))

/-- A chain listener that is told of an answer when its callback has panicked goes on with the
panic. -/
theorem Moment.Sound.throw_of_cleaning {τ : Moment H} (h : τ.Sound b) {p d : PromiseId} {x : String}
    {a : Answer} (hf : τ.frame = .notifying p (.cleaning d x)) (hk : τ.control = .ret a) :
    τ.next = .throw x := by
  cases h.made with
  | wake _ hf' => rw [hf] at hf'; cases hf'
  | step _ _ hs _ =>
    rw [hf, hk] at hs
    exact (Prod.mk.inj (Option.some.inj hs)).2.symm

namespace Chronicle

variable {c c' : Chronicle H} {κ ε ν ω τ : Moment H} {p s d : PromiseId} {f : H.Closure .transform}
  {o : Outcome} {x : String} {g : Frame H} {a : Listener H} {rest : List (Listener H)}

/-- A call that is told of a panic of the listener that it has run is left by that panic. -/
theorem Reached.throw_of_runs (hc : c.Reached b) (hr : ω.Runs p a g) (hτ : τ ∈ c.past)
    (hf : τ.frame = g) (hk : τ.control = .raise x) : τ.next = .throw x := by
  cases (hc.sound τ hτ).1.made with
  | wake _ hf' => rw [hf] at hf'; cases hr <;> cases hf'
  | step _ _ hs _ =>
    rw [hf, hk] at hs
    cases hr <;> exact (Prod.mk.inj (Option.some.inj hs)).2.symm

theorem Path.last_of_told {l : List (Moment H)} {y : Option (Frame H)} {k : Control}
    (hp : c.Path g l y) (hτ : τ ∈ l) (hk : τ.next.told? = some k) :
    l.getLast? = some τ ∧ y = none := by
  refine hp.last_of_over hτ ?_
  cases hn : τ.next <;> rw [hn] at hk <;> first | rfl | cases hk

/-- The panic is in one of these places. -/
theorem Reached.unwinding (hc : c.Reached b) (hε : ε ∈ c.past) (hx : ε.Breaks b s d x)
    (hω : ω ∈ c.past) (hent : ω.entered = ε.call)
    (hnω : ω.next = .enter (.notifying s (a.begin s)) g) (hr : ω.Runs s a g)
    (hno : ∀ ρ ∈ c.past, c.Within ε.entered ρ.call → ¬ρ.Panics b) :
    Unwinding b c s d x ε ω g := by
  obtain ⟨hends, hn, code, m, hf, -⟩ := (hc.sound ε hε).1.breaks hx
  have hserves : c.Serves ε.entered := ⟨ε, hε, rfl, _, hends.callee?, .completing⟩
  have hsteady : ω.frame.steady = true := by
    cases hr with
    | delivery hfω | registration hfω => rw [hfω]; rfl
  obtain ⟨_, hp, -⟩ := hc.path_of_moment ε hε (by rw [hf]; rfl)
  obtain ⟨_, hpω, -⟩ := hc.path_of_moment ω hω hsteady
  have hpd := hc.path ε hε _ hends.callee? rfl
  -- The cases follow the panic outwards: the cancellation, the notification, who ran it.
  rcases hp.following ε (mem_moments.2 ⟨hε, rfl⟩) with ⟨hlast, hframe⟩ | ⟨τ, hτ, hown, htold⟩
  · rw [hn] at hframe
    obtain ⟨-, hwaits⟩ := hc.waits hω hnω rfl hsteady (by rw [hent, hframe]; nofun)
    by_cases hover : c.frame? ε.entered = none
    · refine .freed hover hframe hwaits fun hab => ?_
      obtain ⟨k, rest, token, ht, -, htold⟩ :=
        hc.top hframe (hc.head_of_over hframe hlast hover) hab
      refine Machine.exists_step hab ht ?_
      rw [hlast] at htold
      generalize hl : some ε = last at htold
      cases htold with
      | first => cases hl
      | own hgoto => cases hl; rw [hn] at hgoto; cases hgoto
      | @callee _ ρ _ _ _ _ _ _ hk => cases hρ : ρ.next <;> rw [hρ] at hk <;> cases hk <;> rfl
    · exact .held hover hframe hwaits
  · -- The chain listener was told how the cancellation ended, which was not by a panic.
    obtain ⟨ρ, hρ, hi, hk⟩ : ∃ ρ ∈ c.past, ρ.call = ε.entered ∧
        ρ.next.told? = some τ.control := by
      generalize hl : some ε = last, τ.control = k at htold
      cases htold with
      | first => cases hl
      | own hgoto => cases hl; rw [hn] at hgoto; cases hgoto
      | callee _ hρ hi hk => cases hl; exact ⟨_, hρ, hi, hk⟩
    have hover := (hpd.last_of_told (mem_moments.2 ⟨hρ, hi⟩) hk).2
    have hτx : τ.next = .throw x := by
      have hfτ : τ.frame = .notifying s (.cleaning d x) := by
        rw [hn] at hown
        exact (Option.some.inj hown).symm
      have hleft := (hc.not_left hserves hno _ ρ hρ rfl (hi ▸ .self)).2
      cases hρn : ρ.next with
      | answer a =>
        rw [hρn] at hk
        exact (hc.sound τ (mem_moments.1 hτ).1).1.throw_of_cleaning hfτ (Option.some.inj hk).symm
      | throw y => exact absurd hρn (hleft y)
      | goto | enter | abort => rw [hρn] at hk; cases hk
    obtain ⟨hlast, hgone⟩ := hp.last_of_told hτ (k := .raise x) (by rw [hτx]; rfl)
    have hx' : (c.moments ε.call).getLast?.map Moment.next = some (.throw x) := by
      rw [hlast, Option.map_some, hτx]
    -- The panic has left the notification; the call that ran it has been told so, or is next.
    rcases hpω.following ω (mem_moments.2 ⟨hω, rfl⟩) with ⟨hlastω, hframe⟩ | ⟨υ, hυ, hown', htold'⟩
    · rw [hnω] at hframe
      exact .passing hover hgone hx' hframe fun hab =>
        hc.run_goes_on hω hnω hr hframe hlastω (hent ▸ hgone) hab
    · have hfυ : υ.frame = g := by
        rw [hnω] at hown'
        exact (Option.some.inj hown').symm
      have hkυ : υ.control = .raise x := by
        generalize hl : some ω = last, υ.control = k at htold'
        cases htold' with
        | first => cases hl
        | own hgoto => cases hl; rw [hnω] at hgoto; cases hgoto
        | @callee _ ρ' _ _ _ _ hρ' hi' hk' =>
          cases hl
          rw [hent] at hi'
          obtain ⟨hlast', -⟩ := hp.last_of_told (mem_moments.2 ⟨hρ', hi'⟩) hk'
          obtain rfl : τ = ρ' := Option.some.inj (hlast.symm.trans hlast')
          rw [hτx] at hk'
          exact (Option.some.inj hk').symm
      have hυx := hc.throw_of_runs hr (mem_moments.1 hυ).1 hfυ hkυ
      obtain ⟨hlastω, hgoneω⟩ := hpω.last_of_told hυ (k := .raise x) (by rw [hυx]; rfl)
      exact .passed hover hgone hx' hgoneω (by rw [hlastω, Option.map_some, hυx])

/-- What the cancellation has come to. -/
theorem Reached.cancelled (hc : c.Reached b) (hh : c.Honest) (hκ : κ ∈ c.past)
    (hd : κ.Derives s f d) (hε : ε ∈ c.past) (hends : ε.Ends b d .cancelled)
    (hno : ∀ ρ ∈ c.past, c.Within ε.entered ρ.call → ¬ρ.Panics b)
    (hover : c.frame? ε.entered = none) : c.Cancelled b d ε.entered := by
  have hserves : c.Serves ε.entered := ⟨ε, hε, rfl, _, hends.callee?, .completing⟩
  obtain ⟨r, hw⟩ : ∃ r, c.Won d ε.entered .cancelled r := by
    refine (hc.won_of_ends hh hκ hd hε hends).resolve_left fun h => ?_
    rw [hover] at h
    cases h.1
  obtain rfl := hw.drained_of_within hc .self hserves hno hover
  refine ⟨hw.cleared hc hover, ?_, fun ν hν hin p e code hn => ?_⟩
  · -- The winner is over and did not panic, which leaves two of the ends of a delivery.
    have hdel := hw.delivery hc hover
    have hthrow : ∀ x, (c.moments ε.entered).getLast?.map Moment.next ≠ some (.throw x) := by
      intro x hlast
      obtain ⟨ρ, hρ, hn⟩ := Option.map_eq_some_iff.1 hlast
      obtain ⟨hρ, hi⟩ := mem_moments.1 (List.mem_of_getLast? hρ)
      exact (hc.not_left hserves hno _ ρ hρ rfl (hi ▸ .self)).2 x hn
    generalize (c.moments ε.entered).getLast?.map Moment.next = n, c.deliveries d = ds,
      hy : (none : Option (Frame H)) = y at hdel hthrow ⊢
    cases hdel with
    | ready | waiting => cases hy
    | finished hls hb => exact ⟨_, .finished hls hb⟩
    | propagated hls hb ho => exact ⟨_, .propagated hls hb ho⟩
    | panicked => exact absurd rfl (hthrow _)
  · obtain ⟨a, g, -, hnext, hr⟩ := hc.runs_of_callee hν hn
    have hin' : c.Within ε.entered ν.entered := by
      refine .enter hin hν hnext ?_
      cases hr <;> rfl
    obtain ⟨ε', hε', hcall, o, h'⟩ := hc.returned_within hν hin' hn hserves hover
    obtain ⟨κ', hκ', f', hd', -⟩ := hc.derives_of_callee hν hn
    obtain ⟨hw', hn'⟩ := hc.won_within hh hκ' hd' hε' h' (hcall ▸ hin') hserves hno hover
    exact ⟨ε', hε', hcall, o, h', hw'.cleared hc hn'⟩

/-! ## All of it -/

/-- What a panic `x` of the callback `f` does, which was to complete `d` when `s` was done, and
which panicked at the moment `ε`. -/
structure Breakdown (b : Behaviour H) (c : Chronicle H) (s : PromiseId) (f : H.Closure .transform)
    (d : PromiseId) (x : String) (ε : Moment H) : Prop where
  /-- The panic is logged as an event of `d`. -/
  logged : ∃ code m, ε.frame = .notifying s (.transforming d code) ∧
    ε.before.resume b ε.call.thread code ε.control = (m, .panic x) ∧
    ε.after.log = m.log.push (.library (.chainPanicked d (m.display d)))
  /-- That is while `d` is pending. -/
  pending : (∃ pr, ε.before.promise? d = some pr ∧ pr.Pending) ∧
    ∃ pr, ε.after.promise? d = some pr ∧ pr.Pending
  /-- The cancellation of `d` is entered next, and the panic is held back for it. -/
  entered : ε.next = .enter (.completing d (.claim .cancelled)) (.notifying s (.cleaning d x))
  /-- This happens once. -/
  once : ∀ ρ ∈ c.past, ∀ o, ρ.Ends b d o → ρ = ε ∧ o = .cancelled
  /-- The cancellation is about to decide `d`, or `d` is cancelled for good. -/
  decided : c.frame? ε.entered = some (.completing d (.claim .cancelled)) ∧ c.Unclaimed d ∨
    ∀ c', c.Reaches b c' → c'.DecidedBy d ε.entered .cancelled
  /-- When it is over, `d` has been completed by the ordinary rule. -/
  cancelled : c.frame? ε.entered = none → c.Cancelled b d ε.entered
  /-- The source stays done, with its own outcome. -/
  source : ∃ w o, ∀ c', c.Reaches b c' →
    c'.DecidedBy s w o ∧ c'.machine.isDone s = true ∧ c'.machine.outcome? s = some o
  /-- The panic goes on unchanged: out of the chain listener, and out of the call that has run it.
  The listeners that follow in a delivery of the source are left out. -/
  unwinding : ∃ ω ∈ c.past, ω.entered = ε.call ∧ ∃ g,
    ω.next = .enter (.notifying s (.transforming d (H.invoke .transform f s))) g ∧
    ω.Runs s (.chain f d) g ∧ Unwinding b c s d x ε ω g ∧
    ∀ rest, g = .completing s (.delivering rest) → c.frame? ω.call = none →
      c.Cut b s (.chain f d) ε.call rest

/-- For every chain callback that panics, in a delivery of its source or in the call that chains:
the panic is logged while the derived promise is pending; that promise is then cancelled, with all
that belongs to its completion, where a failure that is handed back changes nothing; and the panic
goes on as it was, past the listeners that were to follow. Nothing that is run within the
cancellation is to panic itself. -/
theorem cancels_before_unwinding (hc : c.Reached b) (hh : c.Honest) (hκ : κ ∈ c.past)
    (hd : κ.Derives s f d) (hε : ε ∈ c.past) {q : PromiseId} (hx : ε.Breaks b q d x)
    (hno : ∀ ρ ∈ c.past, c.Within ε.entered ρ.call → ¬ρ.Panics b) :
    c.Breakdown b s f d x ε := by
  obtain ⟨hends, hn, code, m, hf, hr, hlog⟩ := (hc.sound ε hε).1.breaks hx
  obtain ⟨rfl, ω, hω, hent, g, hnω, hruns⟩ := hc.exists_chain_run hκ hd hε hf
  have hway := hc.unwinding (a := .chain f d) hε hx hω hent hnω hruns hno
  obtain ⟨hdone, w, o, r, hw⟩ := hc.won_of_run hω (p := q) (by rw [hnω]; rfl)
  refine ⟨⟨code, m, hf, hr, hlog⟩, hc.pending_of_ends hh hε hends, hn, fun ρ hρ o' h' => ?_, ?_,
    hc.cancelled hh hκ hd hε hends hno, ⟨w, o, fun c' hl => hw.done_for_good hc hdone hl⟩,
    ω, hω, hent, g, hnω, hruns, hway, ?_⟩
  · obtain rfl := hc.ends_unique hκ hd hε hends hρ h'
    exact ⟨rfl, hends.unique h'⟩
  · refine (hc.won_of_ends hh hκ hd hε hends).imp_right fun ⟨r, hw⟩ c' hl => ?_
    obtain ⟨r', hw'⟩ := hw.reaches hc hl
    exact hw'.decidedBy
  · rintro rest rfl hover
    have hfω : ω.frame = .completing q (.deliver (.chain f d :: rest)) := by
      generalize hg : Frame.completing q (.delivering rest) = g' at hruns
      cases hruns with
      | delivery hfω => cases hg; exact hfω
      | registration => cases hg
    rw [← hent]
    refine hc.cut (x := x) hω hfω hover ?_
    cases hway with
    | held _ _ hω' | freed _ _ hω' | passing _ _ _ hω' => rw [hover] at hω'; cases hω'
    | passed _ _ hx' => rw [hent]; exact hx'

/-- A thread makes a promise and chains a second one by a callback that panics, and from that a
third one. It registers two listeners with the second promise, the first of which fails, and one
with the first promise. Then it completes the first promise. -/
def fuse : (r : Role) → Nat → Act Tabled r
  | .task, 0 => .call (.build { clock := some 0 }) 1
  | .task, 1 => .call (.chain 0 5) 2
  | .task, 2 => .call (.chain 1 6) 3
  | .task, 3 => .call (.listen 1 0) 4
  | .task, 4 => .call (.observe 1 0) 5
  | .task, 5 => .call (.observe 0 0) 6
  | .task, 6 => .call (.complete 0 (.value .unit)) 7
  | .transform, 5 => .panic "blown"
  | .listener, 0 => .finish (.error (.failed "broken"))
  | r, _ => Tabled.quiet r

/-- The run of that thread to its end. -/
def blown : Option (Chronicle Tabled) :=
  (Tabled.start [0]).turns? (Tabled.behaviour fuse) (List.replicate 77 (.step 0))

/-- The callback that panics is the only code that does. -/
theorem eq_of_fuse {r : Role} {code : Nat} {x : String} (h : fuse r code = .panic x) :
    (⟨r, code⟩ : (r : Role) × Tabled.Code r) = ⟨.transform, 5⟩ := by
  unfold fuse at h
  split at h <;> first | rfl | cases h | (cases r <;> cases h)

theorem cancels_before_unwinding_blown : ∃ c κ ε, blown = some c ∧
    c.Reached (Tabled.behaviour fuse) ∧ c.Honest ∧ κ ∈ c.past ∧ κ.Derives 0 5 1 ∧ ε ∈ c.past ∧
    ε.Breaks (Tabled.behaviour fuse) 0 1 "blown" ∧
    (∀ ρ ∈ c.past, c.Within ε.entered ρ.call → ¬ρ.Panics (Tabled.behaviour fuse)) ∧
    c.Breakdown (Tabled.behaviour fuse) 0 5 1 "blown" ε ∧ c.frame? ε.entered = none ∧
    c.machine.outcome? 1 = some .cancelled ∧ (c.machine.outcome? 2).isSome = true ∧
    (c.deliveries 0).length < (c.stored 0).length := by
  -- The callback that panics is not run within the cancellation.
  have hrun : (blown.any fun c => c.isHonest &&
      (c.past.any fun κ => κ.derives? == some (0, 5, 1)) &&
      (c.past.any fun ε => ε.frame.callback? == some (0, 1, 5) &&
        (c.frame? ε.entered).isNone &&
        c.past.all fun ρ => ρ.frame.callback?.all fun k =>
          k.2.2 != 5 || decide (ρ.call.entry < ε.entered.entry)) &&
      c.machine.outcome? 1 == some .cancelled && (c.machine.outcome? 2).isSome &&
      decide ((c.deliveries 0).length < (c.stored 0).length)) = true := by
    decide +kernel
  obtain ⟨c, hc, hrun⟩ := (Option.any_eq_true _ _).1 hrun
  simp only [Bool.and_eq_true, List.any_eq_true, List.all_eq_true, Option.all_eq_true,
    Bool.or_eq_true, beq_iff_eq, bne_iff_ne, decide_eq_true_eq, Option.isNone_iff_eq_none] at hrun
  obtain ⟨⟨⟨⟨⟨hh, κ, hκ, hd⟩, ε, hε, ⟨hf, hover⟩, hall⟩, hone⟩, htwo⟩, hcut⟩ := hrun
  have hreach := Tabled.reached hc
  have hd := (hreach.sound κ hκ).1.derives_of_derives? hd
  have hx : ε.Breaks (Tabled.behaviour fuse) 0 1 "blown" := ⟨5, _, Frame.eq_callback hf, rfl⟩
  have hno : ∀ ρ ∈ c.past, c.Within ε.entered ρ.call → ¬ρ.Panics (Tabled.behaviour fuse) := by
    rintro ρ hρ hin ⟨r, code, m, x, hcode, -, hr⟩
    rw [eq_of_fuse (Prod.mk.inj hr).2] at hcode
    obtain ⟨p, d, hfρ⟩ := Frame.exists_callback hcode
    have hlt := (hall ρ hρ _ hfρ).resolve_left (· rfl)
    exact absurd (hin.entry_le hreach) (Nat.not_le.2 hlt)
  exact ⟨c, κ, ε, hc, hreach, honest_of_isHonest hh, hκ, hd, hε, hx, hno,
    cancels_before_unwinding hreach (honest_of_isHonest hh) hκ hd hε hx hno, hover, hone,
    htwo, hcut⟩

end Chronicle

end OneShot
