import OneShot.Proofs.Listener.Once

/-!
# Where derived promises come from

A promise that is chained from another one is made together with the chain listener that is to
complete it. Nobody else ever holds such a listener, and whoever holds it takes it no further than
to one run.

- **As made** (`Promise.made`, `Reached.made`): what is fixed of a promise from its start on.
- **Making** (`Moment.Derives`, `Moment.Sound.derives`): with the clock and the policy of its
  source, and without a hook. It happens once (`Reached.derives_unique`).
- **Lineage** (`Frame.Traced`, `Reached.traced`): a registration holds the listener that it was
  called with, or the chain listener that it was called to make.
- **Runs** (`Reached.runs_length_le`, `Reached.exists_run`): every registration has one run of its
  listener at most, in whatever way calls end, and there are no other runs.
- **Callbacks** (`Chronicle.callbacks`, `Reached.callbacks_cases`): the one run of a chain listener.
-/

namespace OneShot

variable {H : Host} {b : Behaviour H}

/-! ## As made -/

/-- The promise as it was made. -/
def Promise.made (pr : Promise H) : Promise H :=
  .make pr.startTime pr.clock pr.policy pr.hook pr.origin

theorem Promise.eq_of_made_eq {pr pr' : Promise H} (h : pr'.made = pr.made) :
    pr'.clock = pr.clock ∧ pr'.policy = pr.policy ∧ pr'.hook = pr.hook ∧
      pr'.origin = pr.origin := by
  simp only [made, make, mk.injEq] at h
  obtain ⟨-, -, -, -, -, -, h⟩ := h
  exact h

theorem Promise.Change.made {m : Machine H} {p : PromiseId} {f : Frame H} {n : Next H}
    {pr pr' : Promise H} (h : Promise.Change m p f n (some pr) (some pr')) :
    pr'.made = pr.made := by
  cases h <;> rfl

theorem Moment.Made.made_eq {μ : Moment H} {p : PromiseId} {pr : Promise H} (h : μ.Made b)
    (hp : μ.before.cells? p = some pr) :
    ∃ pr', μ.after.cells? p = some pr' ∧ pr'.made = pr.made := by
  have hch := h.effect.promise p
  rw [hp] at hch
  obtain ⟨pr', hp'⟩ := hch.exists_after
  rw [hp'] at hch
  exact ⟨pr', hp', hch.made⟩

namespace Chronicle

variable {c c' : Chronicle H} {μ κ κ' : Moment H} {p s s' d : PromiseId} {pr : Promise H}

theorem Extends.made_eq (h : c.Extends b μ) (hp : c.machine.cells? p = some pr) :
    ∃ pr', μ.after.cells? p = some pr' ∧ pr'.made = pr.made :=
  h.made.made_eq (by rw [h.before, hp])

theorem Reached.made (hc : c.Reached b) (hl : c.Reaches b c')
    (hp : c.machine.cells? p = some pr) :
    ∃ pr', c'.machine.cells? p = some pr' ∧ pr'.made = pr.made := by
  induction hl with
  | refl => exact ⟨pr, hp, rfl⟩
  | tail e hl he ih =>
    obtain ⟨pr₁, hp₁, h₁⟩ := ih
    obtain ⟨μ, hμ, rfl⟩ := exists_extends_of_turn? (hc.reaches hl).tracked he
    obtain ⟨pr₂, hp₂, h₂⟩ := hμ.made_eq hp₁
    exact ⟨pr₂, hp₂, h₂.trans h₁⟩

theorem Reached.made_since (hc : c.Reached b) (hμ : μ ∈ c.past)
    (hp : μ.before.cells? p = some pr) :
    ∃ pr', c.machine.cells? p = some pr' ∧ pr'.made = pr.made := by
  obtain ⟨c₀, hc₀, h, hturn, hl⟩ := hc.reaches_of_mem hμ
  rw [h.before] at hp
  exact hc₀.made (hturn.trans hl) hp

end Chronicle

/-! ## Making -/

/-- At this moment the promise `d` is made that is chained from `s` with the callback `f`, and its
chain listener is about to be registered. -/
def Moment.Derives (μ : Moment H) (s : PromiseId) (f : H.Closure .transform) (d : PromiseId) :
    Prop :=
  (∃ code, μ.frame = .chaining s f (some code)) ∧
    μ.next = .goto (.registering s (.check (.chain f d)) (.derived d))

/-- What a step of chaining from `s` with `f` does: it reads the clock of `s` and then makes the
derived promise. -/
inductive Deriving (m m' : Machine H) (s : PromiseId) (f : H.Closure .transform) :
    Option (H.Code .clock) → Next H → Prop
  | ask {code} : Deriving m m' s f none (.goto (.chaining s f (some code)))
  | run {code code' n} (hn : n.own (.chaining s f code) = some (.chaining s f (some code'))) :
    Deriving m m' s f code n
  | make {code reading pr d} (hs : m.cells? s = some pr) (hd : m.cells? d = none)
    (hd' : m'.cells? d = some (.make reading pr.clock pr.policy none (some s))) :
    Deriving m m' s f (some code) (.goto (.registering s (.check (.chain f d)) (.derived d)))
  | panic {code x} : Deriving m m' s f code (.throw x)

theorem Deriving.of_step {m m' : Machine H} {t : ThreadId} {s : PromiseId}
    {f : H.Closure .transform} {code : Option (H.Code .clock)} {k : Control} {n : Next H}
    (h : (Frame.chaining s f code).step b m t k = some (m', n)) : Deriving m m' s f code n := by
  cases code with
  | none =>
    rcases Machine.runStage_eq_some h with ⟨-, h⟩ | ⟨x, -, h⟩
    · obtain ⟨pr, -, h⟩ := Option.bind_eq_some_iff.1 h
      cases h
      exact .ask
    · cases h
      exact .panic
  | some code =>
    cases Machine.ran_of_runCode h with
    | call | stay => exact .run rfl
    | panic => exact .panic
    | @finish m₁ reading _ _ hr hd =>
      have hm := Machine.alike_resume hr
      obtain ⟨pr, hp, hd⟩ := Option.bind_eq_some_iff.1 hd
      cases hd
      rw [Machine.promise?, hm.promises] at hp
      refine .make (Machine.cells?_eq_some hp) ?_
        (?_ : _ = some (Promise.make reading pr.bare.clock pr.bare.policy none (some s)))
      · simp [Machine.cells?, Machine.promise?, hm.promises]
      · simp [Machine.cells?, Machine.promise?, Promise.bare, Promise.make]

/-- What happens at a moment of a chaining. -/
theorem Moment.Sound.deriving {μ : Moment H} {s : PromiseId} {f : H.Closure .transform}
    {code : Option (H.Code .clock)} (h : μ.Sound b) (hf : μ.frame = .chaining s f code) :
    Deriving μ.before μ.after s f code μ.next := by
  cases h.made with
  | wake _ hf' => rw [hf] at hf'; cases hf'
  | step _ _ hstep ha =>
    rw [hf] at hstep
    have hm := Deriving.of_step hstep
    generalize hn : μ.next = n at hm
    cases hm with
    | ask => exact .ask
    | run hown => exact .run hown
    | make hs hd hd' => exact .make hs hd (by rw [ha, Machine.cells?_proceed]; exact hd')
    | panic => exact .panic

/-- A derived promise is new, and it is made with the clock and the policy of its source. -/
theorem Moment.Sound.derives {μ : Moment H} {s d : PromiseId} {f : H.Closure .transform}
    (h : μ.Sound b) (hd : μ.Derives s f d) :
    μ.before.cells? d = none ∧ ∃ reading pr, μ.before.cells? s = some pr ∧
      μ.after.cells? d = some (.make reading pr.clock pr.policy none (some s)) := by
  obtain ⟨⟨code, hf⟩, hn⟩ := hd
  have hm := h.deriving hf
  rw [hn] at hm
  cases hm with
  | run hn => cases hn
  | make hs hd hd' => exact ⟨hd, _, _, hs, hd'⟩

/-- The source, the callback and the derived promise, if one is derived at a moment. -/
def Moment.derives? (μ : Moment H) : Option (PromiseId × H.Closure .transform × PromiseId) :=
  match μ.frame, μ.next with
  | .chaining s f (some _), .goto (.registering _ _ (.derived d)) => some (s, f, d)
  | _, _ => none

theorem Moment.Sound.derives_of_derives? {μ : Moment H} {s d : PromiseId}
    {f : H.Closure .transform} (h : μ.Sound b) (hd : μ.derives? = some (s, f, d)) :
    μ.Derives s f d := by
  unfold derives? at hd
  split at hd
  · rename_i s' f' code q r d' hf hn
    cases hd
    have hm := h.deriving hf
    rw [hn] at hm
    generalize hx : Next.goto (.registering q r (.derived d)) = n at hm
    cases hm with
    | run hown => cases hx; cases hown
    | make => cases hx; exact ⟨⟨code, hf⟩, hn⟩
    | panic => cases hx
  · cases hd

namespace Chronicle

variable {c c' : Chronicle H} {μ κ κ' : Moment H} {p s s' d : PromiseId}
  {f f' : H.Closure .transform}

/-- A derived promise has the clock and the policy of its source for ever, and no hook. -/
theorem Reached.derived (hc : c.Reached b) (hκ : κ ∈ c.past) (hd : κ.Derives s f d) :
    ∃ pr pr', c.machine.cells? s = some pr ∧ c.machine.cells? d = some pr' ∧
      pr'.clock = pr.clock ∧ pr'.policy = pr.policy ∧ pr'.hook = none ∧ pr'.origin = some s := by
  obtain ⟨c₀, hc₀, hext, hturn, hl⟩ := hc.reaches_of_mem hκ
  obtain ⟨-, reading, pr₀, hs, hd'⟩ := (hc.sound κ hκ).1.derives hd
  obtain ⟨pr, hp, hmade⟩ := hc.made_since hκ hs
  obtain ⟨pr', hp', hmade'⟩ := (hc₀.reaches hturn).made hl hd'
  obtain ⟨hc₁, hp₁, -, -⟩ := Promise.eq_of_made_eq hmade
  obtain ⟨hc₂, hp₂, hh₂, ho₂⟩ := Promise.eq_of_made_eq hmade'
  exact ⟨pr, pr', hp, hp', hc₂.trans hc₁.symm, hp₂.trans hp₁.symm, hh₂, ho₂⟩

theorem Reached.derives_unique (hc : c.Reached b) (hκ : κ ∈ c.past) (hd : κ.Derives s f d)
    (hκ' : κ' ∈ c.past) (hd' : κ'.Derives s' f' d) : κ = κ' := by
  -- What a moment derives is new, so no earlier moment has derived it.
  refine hc.eq_of_first (P := fun ν => ∃ s f, ν.Derives s f d) ?_ hκ' ⟨s', f', hd'⟩ hκ ⟨s, f, hd⟩
  rintro c₀ μ hc₀ hμ ⟨s, f, hdμ⟩ ν hν ⟨s', f', hdν⟩
  obtain ⟨-, pr, -, hp, -⟩ := hc₀.derived hν hdν
  obtain ⟨hnone, -⟩ := (hμ.sound hc₀.tracked).derives hdμ
  rw [hμ.before, hp] at hnone
  cases hnone

theorem Reached.derives_inj (hc : c.Reached b) (hκ : κ ∈ c.past) (hd : κ.Derives s f d)
    (hκ' : κ' ∈ c.past) (hd' : κ'.Derives s' f' d) : κ' = κ ∧ s' = s ∧ f' = f := by
  obtain rfl := hc.derives_unique hκ hd hκ' hd'
  obtain ⟨⟨_, hf⟩, -⟩ := hd
  obtain ⟨⟨_, hf'⟩, -⟩ := hd'
  rw [hf] at hf'
  cases hf'
  exact ⟨rfl, rfl, rfl⟩

end Chronicle

/-! ## Lineage -/

/-- The listener that a registration holds. -/
def Registering.listener? : Registering H → Option (Listener H)
  | check l | lock l | enroll l => some l
  | inline => none

/-- What a call is to answer tells which kind of listener it registers. -/
def Closing.Fits : Closing → Listener H → Prop
  | report, .fallible _ => True
  | discard, .observer _ => True
  | derived d, .chain _ target => target = d
  | _, _ => False

/-- A registration that has made the moments `l` holds the listener that it was called with or, if
it is part of a chaining, the chain listener that was made at one of these moments. -/
def Frame.Traced (l : List (Moment H)) : Frame H → Prop
  | .registering p s closing => (∀ a, s.listener? = some a → closing.Fits a) ∧
      ∀ d, closing = .derived d → ∃ κ ∈ l, ∃ f, κ.Derives p f d ∧
        ∀ a, s.listener? = some a → a = .chain f d
  | _ => True

theorem Frame.Traced.mono {l l' : List (Moment H)} {f : Frame H} (h : f.Traced l)
    (hl : ∀ κ ∈ l, κ ∈ l') : f.Traced l' := by
  cases f with
  | registering p s closing =>
    refine ⟨h.1, fun d hd => ?_⟩
    obtain ⟨κ, hκ, h⟩ := h.2 d hd
    exact ⟨κ, hl κ hκ, h⟩
  | _ => trivial

/-- The program registers no chain listeners of its own making. -/
theorem Frame.Enters.traced {f g : Frame H} (h : f.Enters g) : g.Traced [] := by
  cases h with
  | @code f callee hf =>
    cases callee with
    | listen p l => exact ⟨fun a ha => by cases ha; trivial, nofun⟩
    | observe p l => exact ⟨fun a ha => by cases ha; trivial, nofun⟩
    | _ => trivial
  | deliver | check | enroll | transform => trivial

theorem Registering.Moves.listener? {p : PromiseId} {closing : Closing} {x x' : Option (Promise H)}
    {s s' : Registering H} {k : Control} {n : Next H} (h : s.Moves p closing x k n x')
    (hn : n.own (.registering p s closing) = some (.registering p s' closing)) {a : Listener H}
    (ha : s'.listener? = some a) : s.listener? = some a := by
  cases h <;> cases hn <;> first | exact ha | cases ha

namespace Chronicle

variable {c c' : Chronicle H} {μ κ κ' : Moment H} {p s s' d : PromiseId}
  {f f' : H.Closure .transform}

/-- A call that moves stays traced. -/
theorem Extends.traced (hc : c.Reached b) (h : c.Extends b μ)
    (hf : μ.frame.Traced (c.moments μ.call)) {g : Frame H} (hg : μ.next.own μ.frame = some g) :
    g.Traced ((c.record μ).moments μ.call) := by
  rw [moments_record_self]
  cases g with
  | registering p s closing =>
    rcases h.made.leads.sameCall hg with heq | hsame
    · rw [heq] at hf
      exact hf.mono fun κ hκ => List.mem_append_left _ hκ
    · generalize hfr : μ.frame = fr at hsame hg hf
      cases hsame with
      | registering =>
        have hm := (h.sound hc.tracked).registering hfr
        have hf := hf.mono fun κ hκ => List.mem_append_left [μ] hκ
        refine ⟨fun a ha => hf.1 a (hm.listener? hg ha), fun d hd => ?_⟩
        obtain ⟨κ, hκ, f, hκd, hl⟩ := hf.2 d hd
        exact ⟨κ, hκ, f, hκd, fun a ha => hl a (hm.listener? hg ha)⟩
      -- The chaining goes over into the registration of the listener that it has made.
      | @chained _ f k d =>
        refine ⟨fun a ha => by cases ha; rfl, fun d' hd' => ?_⟩
        cases hd'
        refine ⟨μ, List.mem_concat_self, f, ?_, fun a ha => by cases ha; rfl⟩
        have hm := (h.sound hc.tracked).deriving hfr
        generalize hn : μ.next = n at hm hg
        cases hm with
        | ask | panic => cases hg
        | run hown => rw [hown] at hg; cases hg
        | make => cases hg; exact ⟨⟨_, hfr⟩, hn⟩
  | _ => trivial

/-- Every registration holds a listener that it was called with, or one that it has made. -/
theorem Reached.traced (hc : c.Reached b) :
    ∀ i f, c.frame? i = some f → f.Traced (c.moments i) := by
  induction c, hc using Reached.induction with
  | start m hm =>
    intro i f hi
    obtain ⟨work, rfl⟩ := frame?_start hm hi
    trivial
  | record c μ hc hμ hc' ih =>
    intro i f hi
    cases f with
    | registering p s closing =>
      rcases steady_record hc.tracked hμ hi rfl with ⟨rfl, hown⟩ | ⟨rfl, hcal⟩ | ⟨hne, -, hold⟩
      · exact hμ.traced hc (ih _ _ (hμ.frame? hc.tracked)) hown
      · have hent := (hμ.made.leads.enters hcal).traced
        exact hent.mono fun κ hκ => by cases hκ
      · rw [moments_record_of_ne (Ne.symm hne)]
        exact ih i _ hold
    | _ => trivial

/-- What a registration holds at a moment was made before. -/
theorem Reached.traced_of_mem (hc : c.Reached b) {ν : Moment H} (hν : ν ∈ c.past)
    {r : Registering H} {closing : Closing} (hf : ν.frame = .registering p r closing) :
    (∀ a, r.listener? = some a → closing.Fits a) ∧
      ∀ d, closing = .derived d → ∃ κ ∈ c.past, κ.call = ν.call ∧ ∃ f, κ.Derives p f d ∧
        ∀ a, r.listener? = some a → a = .chain f d := by
  obtain ⟨c₀, hc₀, h, hmono, -⟩ := hc.extends_of_mem hν
  obtain ⟨hfits, hder⟩ := hc₀.traced ν.call _ (by rw [h.frame? hc₀.tracked, hf])
  refine ⟨hfits, fun d hd => ?_⟩
  obtain ⟨κ, hκ, hκd⟩ := hder d hd
  obtain ⟨hκ, hcall⟩ := mem_moments.1 hκ
  exact ⟨κ, hmono κ hκ, hcall, hκd⟩

/-- A chain listener is registered only by the call that has made it. -/
theorem Reached.derives_of_chain (hc : c.Reached b) {ν : Moment H} (hν : ν ∈ c.past)
    {r : Registering H} {closing : Closing} (hf : ν.frame = .registering p r closing)
    (hr : r.listener? = some (.chain f d)) :
    closing = .derived d ∧ ∃ κ ∈ c.past, κ.call = ν.call ∧ κ.Derives p f d := by
  obtain ⟨hfits, hder⟩ := hc.traced_of_mem hν hf
  have hfit := hfits _ hr
  cases closing with
  | report | discard => cases hfit
  | derived d' =>
    obtain rfl : d = d' := hfit
    obtain ⟨κ, hκ, hcall, f', hκd, hl⟩ := hder d rfl
    cases hl _ hr
    exact ⟨rfl, κ, hκ, hcall, hκd⟩

/-! ## Runs -/

/-- What was stored was stored by a registration that holds it. -/
theorem exists_of_mem_stored {i : CallId} {a : Listener H} (h : (i, a) ∈ c.stored p) :
    ∃ ν ∈ c.past, ν.call = i ∧ ν.stored? p = some a ∧
      ∃ closing, ν.frame = .registering p (.enroll a) closing := by
  obtain ⟨ν, hν, hs⟩ := List.mem_filterMap.1 h
  obtain ⟨a', hst, heq⟩ := Option.map_eq_some_iff.1 hs
  obtain ⟨rfl, rfl⟩ := Prod.mk.inj heq
  refine ⟨ν, hν, rfl, hst, ?_⟩
  unfold Moment.stored? at hst
  split at hst
  · rename_i q a closing _ hf _
    split at hst
    · rename_i hq
      cases hst
      exact ⟨closing, hq ▸ hf⟩
    · cases hst
  · cases hst

/-- Listeners are delivered in the order in which they were stored; what follows is not delivered
yet, or never. -/
theorem Reached.stored_eq_append (hc : c.Reached b) (p : PromiseId) :
    ∃ rest, (c.stored p).map Prod.snd = (c.deliveries p).map Prod.fst ++ rest := by
  by_cases hdr : ∃ δ ∈ c.past, δ.frame = .completing p .drain
  · obtain ⟨δ, hδ, hf⟩ := hdr
    have hdel := (hc.delivery hδ hf).2
    generalize c.deliveries p = ds, (c.moments δ.call).getLast?.map Moment.next = n,
      c.frame? δ.call = x at hdel
    cases hdel with
    | ready hls => exact ⟨_, hls⟩
    | finished hls => exact ⟨[], by rw [hls, List.append_nil]⟩
    | waiting hls | propagated hls | panicked hls =>
      exact ⟨_, by rw [hls, List.map_append, List.append_assoc]; rfl⟩
  · -- Nothing is delivered before the drain.
    have hnil : c.deliveries p = [] := List.eq_nil_iff_forall_not_mem.2 fun d hd => by
      obtain ⟨ν, hν, ⟨rest, hf⟩, -, -⟩ := hc.notifies d hd
      obtain ⟨δ, hδ, -, hf'⟩ := hc.exists_drain hν hf rfl
      exact hdr ⟨δ, hδ, hf'⟩
    exact ⟨_, by rw [hnil, List.map_nil, List.nil_append]⟩

theorem Reached.deliveries_length_le (hc : c.Reached b) (p : PromiseId) :
    (c.deliveries p).length ≤ (c.stored p).length := by
  obtain ⟨rest, h⟩ := hc.stored_eq_append p
  have := congrArg List.length h
  simp only [List.length_map, List.length_append] at this
  omega

/-- What a call has stored or run so far is one listener at most. -/
theorem Reached.tally_le (hc : c.Reached b) (p : PromiseId) (i : CallId) :
    ((c.moments i).filterMap (Moment.inline? p)).length +
      ((c.moments i).filterMap (Moment.stored? p)).length ≤ 1 := by
  by_cases h : ∃ ν ∈ c.past, ν.call = i ∧ ∃ r closing, ν.frame = .registering p r closing
  · obtain ⟨ν, hν, rfl, r, closing, hf⟩ := h
    have hpl := hc.placing hν hf
    generalize c.frame? ν.call = x at hpl
    cases hpl with
    | early _ ht | pending _ ht | running ht | ran ht | stored ht => simp [ht.runs, ht.stored]
  · have hnone : ∀ ν ∈ c.moments i, ν.inline? p = none ∧ ν.stored? p = none := by
      intro ν hν
      obtain ⟨hν, hi⟩ := mem_moments.1 hν
      refine ⟨?_, Moment.stored?_eq_none fun l closing hf => h ⟨ν, hν, hi, _, _, hf⟩⟩
      unfold Moment.inline?
      split
      · rename_i q r closing _ _ hf _
        rw [if_neg fun hq : q = p => h ⟨ν, hν, hi, r, closing, hq ▸ hf⟩]
      · rfl
    rw [List.filterMap_eq_nil_iff.2 fun ν hν => (hnone ν hν).1,
      List.filterMap_eq_nil_iff.2 fun ν hν => (hnone ν hν).2]
    exact Nat.zero_le 1

/-- The partners of what goes together with something are found in the same order. -/
theorem sublist_map_fst_zip {α β : Type} (xs : List α) (ys : List β) :
    ((xs.zip ys).map Prod.fst).Sublist xs := by
  induction xs generalizing ys with
  | nil => simp
  | cons x xs ih =>
    cases ys with
    | nil => simp
    | cons y ys => simpa using ih ys

/-- However the calls on a promise end, what a call registers is run once at most. -/
theorem Reached.runs_length_le (hc : c.Reached b) (p : PromiseId) (i : CallId) :
    (c.runs p i).length ≤ 1 := by
  have hzip : (((c.stored p).zip (c.deliveries p)).filter (·.1.1 = i)).length ≤
      ((c.stored p).filter (·.1 = i)).length := by
    have hle := ((sublist_map_fst_zip (c.stored p) (c.deliveries p)).filter
      fun s => decide (s.1 = i)).length_le
    rwa [List.filter_map, List.length_map] at hle
  rw [c.filter_stored p i, List.length_map] at hzip
  have htally := hc.tally_le p i
  rw [runs, List.length_append, List.length_map]
  omega

/-- What is delivered n-th was stored n-th. -/
theorem Reached.exists_stored (hc : c.Reached b) {d : Listener H × CallId}
    (hd : d ∈ c.deliveries p) : ∃ i, ((i, d.1), d) ∈ (c.stored p).zip (c.deliveries p) := by
  obtain ⟨rest, happ⟩ := hc.stored_eq_append p
  obtain ⟨n, hlt, hget⟩ := List.mem_iff_getElem.1 hd
  have hlt' : n < (c.stored p).length := Nat.lt_of_lt_of_le hlt (hc.deliveries_length_le p)
  have hsnd : ((c.stored p)[n]).2 = d.1 := by
    have h : ((c.stored p).map Prod.snd)[n]? = some d.1 := by
      rw [happ, List.getElem?_append_left (by simpa using hlt), List.getElem?_map,
        List.getElem?_eq_getElem hlt, hget]
      rfl
    rw [List.getElem?_map, List.getElem?_eq_getElem hlt'] at h
    exact Option.some.inj h
  refine ⟨((c.stored p)[n]).1, List.mem_iff_getElem.2 ⟨n, by rw [List.length_zip]; omega, ?_⟩⟩
  rw [List.getElem_zip, hget, ← hsnd]

/-- Every run of a listener is one of what some call has set out to register. -/
theorem Reached.exists_run (hc : c.Reached b) {ν : Moment H} (hν : ν ∈ c.past) {r : Notifying H}
    (hn : ν.next.callee? = some (.notifying p r)) :
    ∃ i a, r = a.begin p ∧ ν.entered ∈ c.runs p i ∧
      ∃ ρ ∈ c.past, ρ.call = i ∧ ∃ q closing, ρ.frame = .registering p q closing ∧
        q.listener? = some a := by
  rcases ((hc.sound ν hν).1.made.leads.enters hn).of_notifying with
    ⟨a, rfl, ⟨rest, hf⟩ | ⟨closing, hf⟩ | ⟨closing, hf⟩⟩
  · obtain ⟨i, hmem⟩ := hc.exists_stored (mem_deliveries hν hf)
    obtain ⟨ρ, hρ, hcall, -, closing, hρf⟩ := exists_of_mem_stored (List.of_mem_zip hmem).1
    refine ⟨i, a, rfl, List.mem_append_right _ (List.mem_map.2 ⟨_, List.mem_filter.2
      ⟨hmem, by simp⟩, rfl⟩), ρ, hρ, hcall, _, closing, hρf, rfl⟩
  · exact ⟨_, a, rfl, mem_runs_of_registering hν hf hn, ν, hν, rfl, _, closing, hf, rfl⟩
  · exact ⟨_, a, rfl, mem_runs_of_registering hν hf hn, ν, hν, rfl, _, closing, hf, rfl⟩

end Chronicle

/-! ## Callbacks -/

/-- The notification at whose start the chain callback is invoked that is to complete `d`. -/
def Moment.callback? (d : PromiseId) (μ : Moment H) : Option CallId :=
  match μ.next with
  | .enter (.notifying _ (.transforming target _)) _ =>
    if target = d then some μ.entered else none
  | _ => none

/-- The notifications that have invoked the chain callback that is to complete `d`. -/
def Chronicle.callbacks (c : Chronicle H) (d : PromiseId) : List CallId :=
  c.past.filterMap (Moment.callback? d)

theorem Moment.callback?_eq_some_iff {μ : Moment H} {d : PromiseId} {i : CallId} :
    μ.callback? d = some i ↔ i = μ.entered ∧
      ∃ p code, μ.next.callee? = some (.notifying p (.transforming d code)) := by
  unfold callback?
  constructor
  · intro h
    split at h
    · rename_i p target code g hn
      split at h
      · rename_i ht
        subst ht
        exact ⟨(Option.some.inj h).symm, p, code, by rw [hn]; rfl⟩
      · cases h
    · cases h
  · rintro ⟨rfl, p, code, hn⟩
    obtain ⟨g, hx⟩ := Next.eq_enter hn
    simp [hx]

namespace Chronicle

variable {c c' : Chronicle H} {μ κ κ' : Moment H} {p s s' d : PromiseId}
  {f f' : H.Closure .transform}

theorem mem_callbacks {ν : Moment H} (hν : ν ∈ c.past) {code : H.Code .transform}
    (hn : ν.next.callee? = some (.notifying p (.transforming d code))) :
    ν.entered ∈ c.callbacks d :=
  List.mem_filterMap.2 ⟨ν, hν, Moment.callback?_eq_some_iff.2 ⟨rfl, p, code, hn⟩⟩

/-- A chain callback is run for the promise that its chain listener was made for. -/
theorem Reached.derives_of_callee (hc : c.Reached b) {ν : Moment H} (hν : ν ∈ c.past)
    {code : H.Code .transform} (hn : ν.next.callee? = some (.notifying p (.transforming d code))) :
    ∃ κ ∈ c.past, ∃ f, κ.Derives p f d ∧ code = H.invoke .transform f p ∧
      ν.entered ∈ c.runs p κ.call := by
  obtain ⟨i, a, ha, hrun, ρ, hρ, rfl, q, closing, hf, hq⟩ := hc.exists_run hν hn
  cases a with
  | fallible | observer => cases ha
  | chain f d' =>
    cases ha
    obtain ⟨-, κ, hκ, hcall, hκd⟩ := hc.derives_of_chain hρ hf hq
    exact ⟨κ, hκ, f, hκd, rfl, hcall ▸ hrun⟩

theorem Reached.entered_inj (hc : c.Reached b) :
    c.past.Pairwise fun μ ν => μ.entered ≠ ν.entered := by
  have hnodup : (c.past.map Moment.number).Nodup := hc.numbered ▸ List.nodup_range'
  refine (List.pairwise_map.1 hnodup).imp fun hne he => hne ?_
  exact congrArg CallId.entry he

/-- The callback of a derived promise is invoked once at most, for its source. -/
theorem Reached.callbacks_cases (hc : c.Reached b) (hκ : κ ∈ c.past) (hd : κ.Derives s f d) :
    c.callbacks d = [] ∨ ∃ ν ∈ c.past, c.callbacks d = [ν.entered] ∧
      ν.next.callee? = some (.notifying s (.transforming d (H.invoke .transform f s))) := by
  have hmem : ∀ i ∈ c.callbacks d, i ∈ c.runs s κ.call ∧ ∃ ν ∈ c.past, i = ν.entered ∧
      ν.next.callee? = some (.notifying s (.transforming d (H.invoke .transform f s))) := by
    intro i hi
    obtain ⟨ν, hν, hcb⟩ := List.mem_filterMap.1 hi
    obtain ⟨rfl, p, code, hn⟩ := Moment.callback?_eq_some_iff.1 hcb
    obtain ⟨κ', hκ', f', hd', rfl, hrun⟩ := hc.derives_of_callee hν hn
    obtain ⟨rfl, rfl, rfl⟩ := hc.derives_inj hκ hd hκ' hd'
    exact ⟨hrun, ν, hν, rfl, hn⟩
  have hnodup : (c.callbacks d).Nodup := by
    refine List.pairwise_filterMap.2 (hc.entered_inj.imp fun hne i hi j hj => ?_)
    rw [(Moment.callback?_eq_some_iff.1 hi).1, (Moment.callback?_eq_some_iff.1 hj).1]
    exact hne
  -- All invocations are runs of what the chaining has registered, and that has one run at most.
  have hrun := hc.runs_length_le s κ.call
  cases hcb : c.callbacks d with
  | nil => exact .inl rfl
  | cons i l =>
    rw [hcb] at hmem hnodup
    obtain ⟨hi, ν, hν, rfl, hn⟩ := hmem i List.mem_cons_self
    obtain rfl : l = [] := by
      refine List.eq_nil_iff_forall_not_mem.2 fun j hj => (List.nodup_cons.1 hnodup).1 ?_
      obtain ⟨x, hx⟩ := List.length_eq_one_iff.1
        (Nat.le_antisymm hrun (List.length_pos_of_mem hi))
      have hj' := (hmem j (List.mem_cons_of_mem _ hj)).1
      rw [hx, List.mem_singleton] at hi hj'
      rwa [hi, ← hj']
    exact .inr ⟨ν, hν, rfl, hn⟩

end Chronicle

end OneShot
