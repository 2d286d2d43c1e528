import OneShot.Proofs.Chain.Within

/-!
# Chaining early or late

A derived promise can be chained before its source is completed, while the listeners of the source
are delivered, or afterwards. This module says that it makes no difference: the outcomes in a tree
of chain calls are those that the callbacks make of the outcome of the root.

- **Trees** (`ChainTree`, `ChainTree.outcome`): chain calls over a root promise, and the outcome of
  each place.
- **Calm promises** (`Chronicle.Calm`): their completion calls answer well. A promise is calm if its
  listeners are mild (`Reached.calm`), and a chain listener is mild if its target is calm
  (`Reached.mild_of_chain`).
- **One derived promise** (`Won.derives`): once its source has been completed and the chaining has
  returned, it has been completed with what its callback gave.
- **A tree in a run** (`Chronicle.Grown`): from the leaves to the root all listeners are mild
  (`Grown.mild`), and from the root to the leaves all promises are completed (`Grown.won`).
- **Two runs** (`chaining_order_irrelevant`).
-/

namespace OneShot

variable {H : Host} {b : Behaviour H}

/-! ## Trees of chain calls -/

/-- A tree of `n` chain calls over a root promise. The root is at place 0. Chain call `k` chains
from an earlier place and makes the promise at the place `k.succ`. -/
structure ChainTree (H : Host) (n : Nat) where
  source : Fin n → Fin (n + 1)
  callback : Fin n → H.Closure .transform
  source_lt (k : Fin n) : source k < k.succ

namespace ChainTree

variable {n : Nat} (tree : ChainTree H n)
  (F : H.Closure .transform → Outcome → Except Value Value) (o : Outcome)

/-- The outcome of each place when that of the root is `o` and the callbacks are the functions `F`:
a callback is applied to the outcome of its source. -/
def outcome (k : Fin (n + 1)) : Outcome :=
  if h : k = 0 then o
  else .ofExcept (F (tree.callback (k.pred h)) (outcome (tree.source (k.pred h))))
termination_by k.val
decreasing_by
  have hlt := tree.source_lt (k.pred h)
  rwa [Fin.succ_pred] at hlt

@[simp] theorem outcome_zero : tree.outcome F o 0 = o := by
  rw [outcome, dif_pos rfl]

@[simp] theorem outcome_succ (k : Fin n) : tree.outcome F o k.succ =
    .ofExcept (F (tree.callback k) (tree.outcome F o (tree.source k))) := by
  rw [outcome, dif_neg (Fin.succ_ne_zero k), Fin.pred_succ]

end ChainTree

/-! ## Calm promises -/

/-- The chain callback that is to complete `d` returns `r` at this moment. It was run for a listener
of `s`. -/
def Moment.Returns (b : Behaviour H) (ε : Moment H) (s d : PromiseId) (r : Except Value Value) :
    Prop :=
  ∃ code m, ε.frame = .notifying s (.transforming d code) ∧
    ε.before.resume b ε.call.thread code ε.control = (m, .finish r)

theorem Fate.told_of_isBenign {fate : Fate} (h : fate.isBenign = true) :
    fate.told = .ret (.notified (.ok ())) := by
  cases fate with
  | fine => rfl
  | judged d e => cases d <;> first | rfl | cases h
  | panicked x => cases h

namespace Chronicle

/-- Notification `i` of a listener of `p` does not keep the listeners that follow from being run,
whatever its fate is. -/
def Mild (b : Behaviour H) (c : Chronicle H) (p : PromiseId) (i : CallId) : Prop :=
  ∀ fate, Over b p (c.moments i) fate → fate.isBenign = true

/-- Every completion call of `p` that has ended has answered well. -/
def Calm (c : Chronicle H) (p : PromiseId) : Prop :=
  ∀ ρ ∈ c.past, ∀ s k, ρ.frame = .completing p s → ρ.next.told? = some k →
    ∃ v, k = .ret (.settled (.ok v))

variable {c c' : Chronicle H} {κ ν μ ρ : Moment H} {p s d : PromiseId} {w : CallId} {o : Outcome}
  {f : H.Closure .transform} {e : ListenerError}

/-- A promise is calm if the listeners that are delivered are mild and neither its clock nor its
wakers panic. -/
theorem Reached.calm (hc : c.Reached b) (hclock : ∀ κ ∈ c.past, ¬κ.ClockPanics p)
    (hwaker : ∀ κ ∈ c.past, ¬κ.WakerPanics p) (hmild : ∀ d ∈ c.deliveries p, c.Mild b p d.2) :
    c.Calm p := by
  intro ρ hρ s k hf hk
  have htold : ∀ rest, s = .delivering rest → ρ.control = .ret (.notified (.ok ())) := by
    rintro rest rfl
    obtain ⟨ν, hν, -, a, -, hr, fate, ho, hcontrol⟩ := hc.run_of_told hρ (.inl ⟨rest, hf⟩)
    rw [hf] at hr
    cases hr with
    | delivery hfν =>
      rw [hcontrol, Fate.told_of_isBenign (hmild _ (mem_deliveries hν hfν) fate ho)]
  obtain ⟨w, o, r, hw⟩ := hc.exists_won hρ hf
  obtain ⟨pr, pr', -, -, hm⟩ := hc.moved ρ hρ p s hf
  have hstore := hw.stores ρ hρ
  generalize hn : ρ.next = n, hcontrol : ρ.control = j at hm hk htold
  cases hm with
  | lose | finish => exact ⟨_, (Option.some.inj hk).symm⟩
  | twice => exact absurd hn (hstore _ _ hf)
  | stampPanic => exact absurd ⟨_, _, hf, hn⟩ (hclock ρ hρ)
  | wakePanic => exact absurd ⟨_, _, _, hf, hn⟩ (hwaker ρ hρ)
  | propagate | pass => cases htold _ rfl
  | _ => cases hk

/-! ## Chain listeners -/

/-- A failure that is judged was met in the same call. -/
theorem Reached.exists_fails_of_judging (hc : c.Reached b) (hμ : μ ∈ c.past) {r : Notifying H}
    (hf : μ.frame = .notifying p r) (he : r.failure? = some e) :
    ∃ ρ ∈ c.past, ρ.call = μ.call ∧ ρ.Fails b p e := by
  obtain ⟨c₀, hc₀, h, hturn, hl⟩ := hc.reaches_of_mem hμ
  have hc₁ := hc₀.reaches hturn
  obtain ⟨l, hpast⟩ := hl.exists_past hc₁
  obtain ⟨ω, hω, hent, a, g, hn, -, -⟩ := hc₁.exists_runs mem_record_self hf
  -- The run of the listener is known to the chronicle before `μ`, so its phase there is too.
  have hω₀ : ω ∈ c₀.past := (mem_record.1 hω).resolve_right fun heq => by
    have hlt := (hc₁.sound ω hω).2.1
    rw [heq, ← hent, heq] at hlt
    exact absurd hlt (Nat.lt_irrefl _)
  have hphase := hc₀.notified hω₀ (by rw [hn]; rfl)
  rw [hent, h.frame? hc₀.tracked, hf] at hphase
  cases hphase with
  | running hx hr =>
    cases hx
    rw [Notifying.failure?_of_isRunning hr] at he
    cases he
  | cleaning hx => cases hx; cases he
  | judging hx he' hρ hfρ hr =>
    cases hx
    obtain rfl := Option.some.inj (he'.symm.trans he)
    obtain ⟨hρ, hcall⟩ := mem_moments.1 hρ
    exact ⟨_, hpast ▸ List.mem_append_left _ (mem_record_of_mem hρ), hcall, _, hfρ, hr⟩
  | ended hx => cases hx

/-- A chain listener is mild if its target is calm and its callback does not panic. -/
theorem Reached.mild_of_chain (hc : c.Reached b) (hν : ν ∈ c.past)
    (hn : ν.next.callee? = some (.notifying s ((Listener.chain f d).begin s))) (hcalm : c.Calm d)
    (hno : ∀ ε ∈ c.past, ∀ x, ¬ε.Breaks b s d x) : c.Mild b s ν.entered := by
  intro fate ho
  have hsuits := ((hc.path ν hν _ hn rfl).suits hc (suits_begin s (.chain f d))).2
  have hrelayed : ∀ μ ∈ c.moments ν.entered, μ.frame = .notifying s (.relaying d) →
      ∃ v, μ.control = .ret (.settled (.ok v)) := by
    intro μ hμ hf
    obtain ⟨-, -, -, -, -, -, ρ, hρ, -, ⟨r, hfρ⟩, htold⟩ :=
      hc.relayed (mem_moments.1 hμ).1 hf (.inl rfl)
    exact hcalm ρ hρ r _ hfρ htold
  have hfails : ∀ μ ∈ c.moments ν.entered, ∀ e, ¬μ.Fails b s e := by
    rintro μ hμ e ⟨r, hf, hr⟩
    obtain ⟨r', hf', hsuit⟩ := hsuits μ hμ
    rw [hf] at hf'
    cases hf'
    rcases hr.cases_of_suits hsuit with ⟨l, ha⟩ | ⟨f', d', ha, rfl, hk⟩
    · cases ha
    · cases ha
      obtain ⟨v, hv⟩ := hrelayed μ hμ hf
      rw [hk] at hv
      cases hv
  -- A listener that is not fine has failed, or its policy or its callback has panicked.
  cases ho.met with
  | fine => rfl
  | judged hμ hf hr => exact absurd ⟨_, hf, hr⟩ (hfails _ hμ _)
  | @panicked μ r x hμ hf hx =>
    obtain ⟨r', hf', hsuit⟩ := hsuits μ hμ
    rw [hf] at hf'
    cases hf'
    cases hx with
    | listening | observing => cases hsuit
    | relaying hk =>
      cases hsuit
      obtain ⟨v, hv⟩ := hrelayed μ hμ hf
      rw [hk] at hv
      cases hv
    | settling =>
      obtain ⟨hμ, hcall⟩ := mem_moments.1 hμ
      obtain ⟨ρ, hρ, hi, hfail⟩ := hc.exists_fails_of_judging hμ hf rfl
      exact absurd hfail (hfails ρ (mem_moments.2 ⟨hρ, hi.trans hcall⟩) _)
  | @cleaned μ target code m x hμ hf hr =>
    obtain ⟨r', hf', hsuit⟩ := hsuits μ hμ
    rw [hf] at hf'
    cases hf'
    cases hsuit
    exact absurd ⟨code, m, hf, hr⟩ (hno μ (mem_moments.1 hμ).1 x)

/-! ## One derived promise -/

/-- When the winner is over and the listeners that it has notified are mild, it has notified all
that were stored. -/
theorem Won.stored_eq (hc : c.Reached b) (hw : c.Won p w o .drained) (hover : c.frame? w = none)
    (hmild : ∀ d ∈ c.deliveries p, c.Mild b p d.2) :
    (c.stored p).map Prod.snd = (c.deliveries p).map Prod.fst := by
  have hdel := hw.delivery hc hover
  generalize (c.moments w).getLast?.map Moment.next = n, c.deliveries p = ds,
    hx : (none : Option (Frame H)) = x at hdel hmild ⊢
  cases hdel with
  | ready | waiting => cases hx
  | finished hls => exact hls
  | propagated _ _ ho | panicked _ _ ho => cases hmild _ List.mem_concat_self _ ho

theorem Reached.won_of_wins (hc : c.Reached b) (h : c.past.filterMap (Moment.won? p) = [(w, o)]) :
    ∃ r, c.Won p w o r := by
  cases hc.contest p with
  | unclaimed hu => rw [hu.wins] at h; cases h
  | won hw =>
    rw [hw.wins] at h
    cases h
    exact ⟨_, hw⟩

theorem Reached.exists_check (hc : c.Reached b) (hκ : κ ∈ c.past) (hd : κ.Derives s f d)
    (hreturned : c.frame? κ.call = none) : ∃ μ ∈ c.moments κ.call,
      μ.frame = .registering s (.check (.chain f d)) (.derived d) := by
  obtain ⟨⟨code, hf⟩, hnext⟩ := hd
  obtain ⟨_, hp, -⟩ := hc.path_of_moment κ hκ (by rw [hf]; rfl)
  rcases hp.following κ (mem_moments.2 ⟨hκ, rfl⟩) with ⟨-, hframe⟩ | ⟨μ, hμ, hown, -⟩
  · rw [hreturned, hnext] at hframe
    cases hframe
  · rw [hnext] at hown
    exact ⟨μ, hμ, (Option.some.inj hown).symm⟩

/-- The callback of a derived promise has been invoked when its source has been completed and the
chaining has returned. -/
theorem Won.exists_callback (hc : c.Reached b) (hκ : κ ∈ c.past) (hd : κ.Derives s f d)
    (hw : c.Won s w o .drained) (hover : c.frame? w = none)
    (hmild : ∀ d ∈ c.deliveries s, c.Mild b s d.2) (hreturned : c.frame? κ.call = none) :
    ∃ ν ∈ c.past, c.callbacks d = [ν.entered] ∧
      ν.next.callee? = some (.notifying s (.transforming d (H.invoke .transform f s))) := by
  refine (hc.callbacks_cases hκ hd).resolve_left fun hnil => ?_
  have hnot : ∀ ν ∈ c.past, ν.next.callee? ≠
      some (.notifying s ((Listener.chain f d).begin s)) := by
    intro ν hν hn
    have hmem := mem_callbacks hν hn
    rw [hnil] at hmem
    cases hmem
  obtain ⟨μ, hμ, hfμ⟩ := hc.exists_check hκ hd hreturned
  have hasked : ∀ {as ss rs}, Tally s (c.moments κ.call) as ss rs → .chain f d ∈ as := by
    intro as ss rs ht
    rw [← ht.asked]
    exact List.mem_filterMap.2 ⟨μ, hμ, by rw [Moment.asked?, hfμ]; exact if_pos rfl⟩
  have hplacing := hc.placing (mem_moments.1 hμ).1 hfμ
  rw [(mem_moments.1 hμ).2, hreturned] at hplacing
  generalize hx : (none : Option (Frame H)) = x at hplacing
  cases hplacing with
  | early _ ht => cases hasked ht
  | pending | running => cases hx
  -- The chaining has notified the listener itself, or it has left it to the delivery.
  | @ran a ν _ ht hν hn =>
    obtain rfl := List.mem_singleton.1 (hasked ht)
    exact hnot ν (mem_moments.1 hν).1 hn
  | @stored a ht =>
    obtain rfl := List.mem_singleton.1 (hasked ht)
    have hstored : Listener.chain f d ∈ (c.stored s).map Prod.snd := by
      have hmem : (κ.call, Listener.chain f d) ∈ (c.stored s).filter (·.1 = κ.call) := by
        rw [filter_stored, ht.stored]
        exact List.mem_cons_self
      exact List.mem_map.2 ⟨_, (List.mem_filter.1 hmem).1, rfl⟩
    rw [hw.stored_eq hc hover hmild] at hstored
    obtain ⟨a, hdel, ha⟩ := List.mem_map.1 hstored
    obtain ⟨ν, hν, -, -, hn⟩ := hc.notifies a hdel
    exact hnot ν hν (ha ▸ hn)

/-- A derived promise has been completed, with what its callback gave, when its source has been
completed and the chaining has returned. -/
theorem Won.derives (hc : c.Reached b) (hh : c.Honest) (hκ : κ ∈ c.past) (hd : κ.Derives s f d)
    (hw : c.Won s w o .drained) (hover : c.frame? w = none)
    (hmild : ∀ d ∈ c.deliveries s, c.Mild b s d.2) (hreturned : c.frame? κ.call = none)
    (hclock : ∀ κ ∈ c.past, ¬κ.ClockPanics d) (hwaker : ∀ κ ∈ c.past, ¬κ.WakerPanics d) :
    ∃ ε ∈ c.past, (∃ code, ε.frame = .notifying s (.transforming d code)) ∧ ∃ o', ε.Ends b d o' ∧
      c.callbacks d = [ε.call] ∧ c.Won d ε.entered o' .drained ∧ c.frame? ε.entered = none := by
  obtain ⟨ν, hν, hone, hcal⟩ := hw.exists_callback hc hκ hd hover hmild hreturned
  obtain ⟨a, g, -, hnext, hruns⟩ := hc.runs_of_callee hν hcal
  have hsteady : ν.frame.steady = true := by
    cases hruns with
    | delivery hfν | registration hfν => rw [hfν]; rfl
  -- The call that has invoked the callback has returned, and so has what it has entered.
  have hcaller : c.frame? ν.call = none := by
    rcases hc.call_of_callback hκ hd hν hcal with hcall | ⟨rest, hfν⟩
    · rw [hcall, hreturned]
    · rw [hw.call_eq hν hfν nofun, hover]
  have hnotified := hc.over_of_caller hν hnext rfl hsteady hcaller
  obtain ⟨ε, hε, hcall, o', hends⟩ : ∃ ε ∈ c.past, ε.call = ν.entered ∧ ∃ o', ε.Ends b d o' := by
    cases (hc.path ν hν _ hcal rfl).callback hc with
    | running hx => rw [hnotified] at hx; cases hx
    | ended hε hends => exact ⟨_, (mem_moments.1 hε).1, (mem_moments.1 hε).2, _, hends⟩
  obtain ⟨p, code, hfε⟩ := hends.frame
  obtain ⟨rfl, -⟩ := hc.exists_chain_run hκ hd hε hfε
  have hended : c.frame? ε.entered = none := by
    obtain ⟨g', hn⟩ := Next.eq_enter hends.callee?
    exact hc.over_of_caller hε hn rfl (by rw [hfε]; rfl) (hcall ▸ hnotified)
  refine ⟨ε, hε, ⟨code, hfε⟩, o', hends, hcall ▸ hone, ?_, hended⟩
  rcases hc.won_of_ends hh hκ hd hε hends with ⟨hclaim, -⟩ | ⟨r, hw'⟩
  · rw [hended] at hclaim
    cases hclaim
  · obtain rfl := hw'.drained hc hended hclock hwaker
    exact hw'

/-- A callback that has been invoked is not invoked again. -/
theorem Reached.callbacks_of_reaches (hc : c.Reached b) (hκ : κ ∈ c.past) (hd : κ.Derives s f d)
    {i : CallId} (h : c.callbacks d = [i]) (hl : c.Reaches b c') : c'.callbacks d = [i] := by
  obtain ⟨l, hpast⟩ := hl.exists_past hc
  have hmem : i ∈ c'.callbacks d := by
    have hi : i ∈ c.callbacks d := by simp [h]
    rw [callbacks, hpast, List.filterMap_append]
    exact List.mem_append_left _ hi
  rcases (hc.reaches hl).callbacks_cases (hpast ▸ List.mem_append_left _ hκ) hd with
    hnil | ⟨ν, -, hone, -⟩
  · rw [hnil] at hmem
    cases hmem
  · rw [hone, List.mem_singleton] at hmem
    rw [hone, hmem]

/-! ## A tree in a run -/

/-- A run in which the chain calls of a tree have been made: its places are these promises. The root
has been completed with `o`, and the callbacks are the functions `F` of what their sources have come
to. -/
structure Grown (b : Behaviour H) (c : Chronicle H) {n : Nat} (tree : ChainTree H n)
    (F : H.Closure .transform → Outcome → Except Value Value) (o : Outcome)
    (place : Fin (n + 1) → PromiseId) : Prop where
  reached : c.Reached b
  honest : c.Honest
  /-- Different places are different promises. -/
  injective : Function.Injective place
  /-- The root has been completed, and the completion call has returned. -/
  rooted : ∃ w, c.DecidedBy (place 0) w o ∧ c.frame? w = none
  /-- The chain calls have been made, in whatever order, and they have returned. -/
  chained : ∀ k, ∃ κ ∈ c.past, c.frame? κ.call = none ∧
    κ.Derives (place (tree.source k)) (tree.callback k) (place k.succ)
  /-- What a callback returns is a function of the outcome of its source. -/
  computes : ∀ k, ∀ ε ∈ c.past, ∀ r,
    ε.Returns b (place (tree.source k)) (place k.succ) r →
    ∀ o', c.machine.outcome? (place (tree.source k)) = some o' → r = F (tree.callback k) o'
  /-- No callback panics. -/
  unbroken : ∀ k, ∀ ε ∈ c.past, ∀ x, ¬ε.Breaks b (place (tree.source k)) (place k.succ) x
  clocks : ∀ k, ∀ μ ∈ c.past, ¬μ.ClockPanics (place k)
  wakers : ∀ k, ∀ μ ∈ c.past, ¬μ.WakerPanics (place k)
  /-- All other listeners that are delivered go well, or their failures are absorbed. -/
  others : ∀ k, ∀ d ∈ c.deliveries (place k), (∀ j : Fin n, d.1.target? ≠ some (place j.succ)) →
    c.Mild b (place k) d.2

/-- Every place has the outcome that the tree gives it, for good, and every callback has been called
exactly once. -/
structure Borne (b : Behaviour H) (c : Chronicle H) {n : Nat} (tree : ChainTree H n)
    (F : H.Closure .transform → Outcome → Except Value Value) (o : Outcome)
    (place : Fin (n + 1) → PromiseId) : Prop where
  decided : ∀ k, ∃ w, ∀ c', c.Reaches b c' → c'.DecidedBy (place k) w (tree.outcome F o k) ∧
    c'.machine.isDone (place k) = true ∧
    c'.machine.outcome? (place k) = some (tree.outcome F o k)
  once : ∀ k : Fin n, ∃ i, ∀ c', c.Reaches b c' → c'.callbacks (place k.succ) = [i]

namespace Grown

variable {n : Nat} {tree : ChainTree H n}
  {F : H.Closure .transform → Outcome → Except Value Value} {place : Fin (n + 1) → PromiseId}

/-- From the leaves to the root: every listener that is delivered is mild. -/
theorem mild (h : c.Grown b tree F o place) (k : Fin (n + 1)) :
    ∀ d ∈ c.deliveries (place k), c.Mild b (place k) d.2 := by
  induction hm : n - k.val using Nat.strongRecOn generalizing k with
  | ind m ih =>
    rintro ⟨a, i⟩ hd
    by_cases htarget : ∃ j : Fin n, a.target? = some (place j.succ)
    · obtain ⟨j, hj⟩ := htarget
      cases a with
      | fallible | observer => cases hj
      | chain f t =>
        obtain rfl : t = place j.succ := Option.some.inj hj
        obtain ⟨ν, hν, -, rfl, hn⟩ := h.reached.notifies _ hd
        obtain ⟨κ, hκ, -, hdκ⟩ := h.chained j
        obtain ⟨κ', hκ', f', hd', -⟩ := h.reached.derives_of_callee hν hn
        obtain ⟨-, hs, -⟩ := h.reached.derives_inj hκ hdκ hκ' hd'
        have hk : tree.source j = k := h.injective hs.symm
        -- The target is at a place above, where everything is calm.
        have hlt := tree.source_lt j
        have hcalm : c.Calm (place j.succ) :=
          h.reached.calm (h.clocks _) (h.wakers _) (ih (n - j.succ) (by omega) j.succ rfl)
        exact h.reached.mild_of_chain hν hn hcalm (hk ▸ h.unbroken j)
    · exact h.others k _ hd fun j hj => htarget ⟨j, hj⟩

/-- A place has been completed if its source has. -/
theorem won_succ (h : c.Grown b tree F o place) (k : Fin n) {w : CallId} {o' : Outcome}
    (hw : c.Won (place (tree.source k)) w o' .drained) (hover : c.frame? w = none) :
    ∃ i, c.callbacks (place k.succ) = [i] ∧ ∃ w',
      c.Won (place k.succ) w' (.ofExcept (F (tree.callback k) o')) .drained ∧
      c.frame? w' = none := by
  obtain ⟨κ, hκ, hreturned, hd⟩ := h.chained k
  obtain ⟨ε, hε, ⟨code, hf⟩, o'', hends, hone, hw', hover'⟩ :=
    hw.derives h.reached h.honest hκ hd hover (h.mild _) hreturned (h.clocks _) (h.wakers _)
  refine ⟨ε.call, hone, ε.entered, ?_, hover'⟩
  cases hends with
  | @returned _ _ m r hf' hr =>
    rw [hf] at hf'
    cases hf'
    rwa [← h.computes k ε hε r ⟨code, m, hf, hr⟩ o' (by rw [hw.outcome?, if_neg nofun])]
  | @panicked _ _ m x hf' hr =>
    rw [hf] at hf'
    cases hf'
    exact absurd ⟨code, m, hf, hr⟩ (h.unbroken k ε hε x)

/-- From the root to the leaves: every place has been completed. -/
theorem won (h : c.Grown b tree F o place) (k : Fin (n + 1)) :
    ∃ w, c.Won (place k) w (tree.outcome F o k) .drained ∧ c.frame? w = none := by
  induction hm : k.val using Nat.strongRecOn generalizing k with
  | ind m ih =>
    cases k using Fin.cases with
    | zero =>
      obtain ⟨w, hdec, hover⟩ := h.rooted
      obtain ⟨r, hw⟩ := h.reached.won_of_wins hdec.wins
      obtain rfl := hw.drained h.reached hover (h.clocks 0) (h.wakers 0)
      exact ⟨w, by rwa [ChainTree.outcome_zero], hover⟩
    | succ k =>
      obtain ⟨w, hw, hover⟩ := ih _ (hm ▸ tree.source_lt k) (tree.source k) rfl
      obtain ⟨-, -, w', hw', hover'⟩ := h.won_succ k hw hover
      exact ⟨w', by rwa [ChainTree.outcome_succ], hover'⟩

theorem borne (h : c.Grown b tree F o place) : c.Borne b tree F o place := by
  refine ⟨fun k => ?_, fun k => ?_⟩
  · obtain ⟨w, hw, -⟩ := h.won k
    obtain ⟨pr, hp, hsh⟩ := hw.cells
    have hdone := Machine.isDone_iff_cells?.2 ⟨pr, hp, hsh.isDone⟩
    exact ⟨w, fun c' hl => hw.done_for_good h.reached hdone hl⟩
  · obtain ⟨w, hw, hover⟩ := h.won (tree.source k)
    obtain ⟨i, hone, -⟩ := h.won_succ k hw hover
    obtain ⟨κ, hκ, -, hd⟩ := h.chained k
    exact ⟨i, fun c' hl => h.reached.callbacks_of_reaches hκ hd hone hl⟩

end Grown

/-! ## Two runs -/

/-- Two runs in which the same chain calls are made over a root with the same outcome come to the
same outcomes, in whatever order the chain calls and the completion of the root are made, and call
every callback once. -/
theorem chaining_order_irrelevant {n : Nat} (tree : ChainTree H n)
    {F : H.Closure .transform → Outcome → Except Value Value} {b₁ b₂ : Behaviour H}
    {c₁ c₂ : Chronicle H} {place₁ place₂ : Fin (n + 1) → PromiseId}
    (h₁ : c₁.Grown b₁ tree F o place₁) (h₂ : c₂.Grown b₂ tree F o place₂) :
    c₁.Borne b₁ tree F o place₁ ∧ c₂.Borne b₂ tree F o place₂ ∧
      ∀ k, c₁.machine.outcome? (place₁ k) = c₂.machine.outcome? (place₂ k) := by
  refine ⟨h₁.borne, h₂.borne, fun k => ?_⟩
  obtain ⟨w₁, hw₁⟩ := h₁.borne.decided k
  obtain ⟨w₂, hw₂⟩ := h₂.borne.decided k
  rw [(hw₁ c₁ .refl).2.2, (hw₂ c₂ .refl).2.2]

/-- Two threads that make a promise and complete it, and chain a second promise from it and from
that a third one. The first thread chains before it completes the promise. With the second thread, a
listener chains when it is notified, and the thread does so after the completion. -/
def gardeners : (r : Role) → Nat → Act Tabled r
  | .task, 0 => .call (.build { clock := some 0 }) 1
  | .task, 1 => .call (.chain 0 5) 2
  | .task, 2 => .call (.chain 1 6) 3
  | .task, 3 => .call (.complete 0 (.value .unit)) 4
  | .task, 10 => .call (.build { clock := some 0 }) 11
  | .task, 11 => .call (.observe 0 0) 12
  | .task, 12 => .call (.complete 0 (.value .unit)) 13
  | .task, 13 => .call (.chain 1 6) 14
  | .observer, 0 => .call (.chain 0 5) 1
  | .transform, 6 => .finish (.error .unit)
  | r, _ => Tabled.quiet r

/-- The run of the first thread to its end. -/
def planted : Option (Chronicle Tabled) :=
  (Tabled.start [0]).turns? (Tabled.behaviour gardeners) (List.replicate 63 (.step 0))

/-- The run of the second thread to its end. -/
def grafted : Option (Chronicle Tabled) :=
  (Tabled.start [10]).turns? (Tabled.behaviour gardeners) (List.replicate 64 (.step 0))

/-- The chain calls of both threads. -/
def sapling : ChainTree Tabled 2 where
  source := Fin.castSucc
  callback k := 5 + k.val
  source_lt _ := Fin.castSucc_lt_succ

/-- What their callbacks return. -/
def fruit (f : Tabled.Closure .transform) (_ : Outcome) : Except Value Value :=
  if f = (6 : Nat) then .error .unit else .ok .unit

/-- What there is to check of such a run. -/
def thrives (c : Chronicle Tabled) : Bool :=
  c.isHonest && c.machine.threads.all Thread.isIdle &&
    (c.past.filterMap (Moment.won? 0)).map Prod.snd == [.value .unit] &&
    (c.past.any fun κ => κ.derives? == some (0, 5, 1)) &&
    (c.past.any fun κ => κ.derives? == some (1, 6, 2)) &&
    c.past.all fun ρ => ρ.next.thrown? == none && !ρ.next.isFailure &&
      ρ.frame.callback?.all fun k => (k.1, k.2.2) == (0, 5) || (k.1, k.2.2) == (1, 6)

theorem grown_of_thrives {c : Chronicle Tabled} (hc : c.Reached (Tabled.behaviour gardeners))
    (h : c.thrives = true) :
    c.Grown (Tabled.behaviour gardeners) sapling fruit (.value .unit) Fin.val := by
  simp only [thrives, Bool.and_eq_true, List.any_eq_true, List.all_eq_true, beq_iff_eq,
    Bool.not_eq_true'] at h
  obtain ⟨⟨⟨⟨⟨hh, hidle⟩, hwins⟩, κ₁, hκ₁, hd₁⟩, κ₂, hκ₂, hd₂⟩, hall⟩ := h
  have hnone := frame?_of_isIdle (c := c) fun th hth =>
    Array.all_eq_true_iff_forall_mem.1 hidle th hth
  have hthrow : ∀ ρ ∈ c.past, ρ.next.thrown? = none := fun ρ hρ => (hall ρ hρ).1.1
  have hcode : ∀ ρ ∈ c.past, ∀ s d code, ρ.frame = .notifying s (.transforming d code) →
      s = 0 ∧ code = (5 : Nat) ∨ s = 1 ∧ code = (6 : Nat) := by
    intro ρ hρ s d code hf
    have hk := (hall ρ hρ).2
    rw [hf] at hk
    simpa [Frame.callback?] using hk
  obtain ⟨⟨w, o⟩, hw, rfl⟩ := List.map_eq_singleton_iff.1 hwins
  refine ⟨hc, honest_of_isHonest hh, fun _ _ => Fin.ext, ?_, ?_, ?_, ?_,
    fun _ => (not_panics_of_thrown? hthrow _).1, fun _ => (not_panics_of_thrown? hthrow _).2, ?_⟩
  · obtain ⟨r, hwon⟩ := hc.won_of_wins hw
    exact ⟨w, hwon.decidedBy, hnone w⟩
  · refine Fin.cases ⟨κ₁, hκ₁, hnone _, ?_⟩ (Fin.cases ⟨κ₂, hκ₂, hnone _, ?_⟩ nofun)
    · exact (hc.sound κ₁ hκ₁).1.derives_of_derives? hd₁
    · exact (hc.sound κ₂ hκ₂).1.derives_of_derives? hd₂
  · rintro k ε hε r ⟨code, m, hf, hr⟩ o' -
    have hact : gardeners .transform code = .finish r := (Prod.mk.inj hr).2
    rcases hcode ε hε _ _ _ hf with ⟨hk, rfl⟩ | ⟨hk, rfl⟩
    · have hk : k.val = 0 := hk
      cases hact
      simp [fruit, sapling, hk]
    · have hk : k.val = 1 := hk
      cases hact
      simp [fruit, sapling, hk]
  · rintro k ε hε x ⟨code, m, hf, hr⟩
    have hact : gardeners .transform code = .panic x := (Prod.mk.inj hr).2
    rcases hcode ε hε _ _ _ hf with ⟨-, rfl⟩ | ⟨-, rfl⟩ <;> cases hact
  · intro k d _ _ fate ho
    obtain ⟨ρ, hlast, ht⟩ := Option.bind_eq_some_iff.1 ho.told
    have hρ := (mem_moments.1 (List.mem_of_getLast? hlast)).1
    have hfail := (hall ρ hρ).1.2
    cases fate with
    | fine => rfl
    | judged d e =>
      cases d with
      | absorb => rfl
      | propagate =>
        cases hn : ρ.next <;> rw [hn] at ht hfail <;> cases ht
        cases hfail
    | panicked x =>
      cases hn : ρ.next <;> rw [hn] at ht <;> cases ht
      exact absurd hn (Next.ne_throw (hthrow ρ hρ) _)

theorem chaining_order_irrelevant_grafted : ∃ c₁ c₂, planted = some c₁ ∧ grafted = some c₂ ∧
    c₁.Grown (Tabled.behaviour gardeners) sapling fruit (.value .unit) Fin.val ∧
    c₂.Grown (Tabled.behaviour gardeners) sapling fruit (.value .unit) Fin.val ∧
    (c₁.stored 0).length = 1 ∧ (c₁.stored 1).length = 1 ∧ c₂.stored 1 = [] ∧
    c₁.Borne (Tabled.behaviour gardeners) sapling fruit (.value .unit) Fin.val ∧
    c₂.Borne (Tabled.behaviour gardeners) sapling fruit (.value .unit) Fin.val ∧
    ∀ k : Fin 3, c₁.machine.outcome? k.val = c₂.machine.outcome? k.val := by
  have hrun : (planted.any fun c => c.thrives && (c.stored 0).length == 1 &&
      (c.stored 1).length == 1) = true := by
    decide +kernel
  have hrun' : (grafted.any fun c => c.thrives && (c.stored 1).length == 0) = true := by
    decide +kernel
  obtain ⟨c₁, hc₁, hrun⟩ := (Option.any_eq_true _ _).1 hrun
  obtain ⟨c₂, hc₂, hrun'⟩ := (Option.any_eq_true _ _).1 hrun'
  simp only [Bool.and_eq_true, beq_iff_eq, List.length_eq_zero_iff] at hrun hrun'
  have h₁ := grown_of_thrives (Tabled.reached hc₁) hrun.1.1
  have h₂ := grown_of_thrives (Tabled.reached hc₂) hrun'.1
  exact ⟨c₁, c₂, hc₁, hc₂, h₁, h₂, hrun.1.2, hrun.2, hrun'.2,
    chaining_order_irrelevant sapling h₁ h₂⟩

end Chronicle

end OneShot
