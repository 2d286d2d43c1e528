import OneShot.Proofs.Chain.Cascade

/-!
# What a failure at the end of a chain path comes to

A listener that fails at the end of a chain path is in the innermost one of several deliveries. If
the policy absorbs the failure, that is logged once and all deliveries go on. If it propagates it,
each delivery ends with it, from the innermost to the outermost.

- **The start** (`Reached.exists_stage`): the failure is about to be put to the policy of the first
  level, and no level has logged anything yet.
- **The end** (`Level.Left`): a delivery that was ended by the failure.
- **All levels** (`Settled`, `settles_along_chain`): they have the policy of the source to ask
  (`ChainPath.ruled`).
-/

namespace OneShot

variable {H : Host} {b : Behaviour H}

namespace Level

variable {c c' : Chronicle H} {L : Level H} {ls : List (Level H)} {v : Disposition}
  {e : ListenerError}

theorem mem_names (h : L ∈ ls) : L.notification ∈ names ls := by
  induction ls with
  | nil => cases h
  | cons L' ls ih =>
    rcases List.mem_cons.1 h with rfl | h
    · exact List.mem_cons_self
    · exact List.mem_cons_of_mem _ (List.mem_cons_of_mem _ (ih h))

theorem Nested.mono (h : Nested b c ls) (hm : ∀ ν ∈ c.past, ν ∈ c'.past) : Nested b c' ls := by
  refine ⟨fun L hL => ?_, h.inside.imp fun L L' hi => ?_⟩
  · obtain ⟨ν, hν, hd⟩ := h.delivers L hL
    exact ⟨ν, hm ν hν, hd⟩
  · obtain ⟨ε, hε, hi⟩ := hi
    exact ⟨ε, hm ε hε, hi⟩

theorem Delivers.exists_moment (hc : c.Reached b) (h : L.Delivers c) :
    ∃ ν ∈ c.past, ν.entered = L.notification ∧
      ∃ a : Listener H, ν.next.callee? = some (.notifying L.promise (a.begin L.promise)) := by
  obtain ⟨ν, hν, -, hent, a, hf⟩ := h
  exact ⟨ν, hν, hent, a, by rw [hc.next_of_deliver hν hf]; rfl⟩

/-- A notification that has had a failure judged is over, and that was its fate. -/
theorem Judged.over (hc : c.Reached b) (hd : L.Delivers c) (h : L.Judged c v e) :
    c.frame? L.notification = none ∧
      Over b L.promise (c.moments L.notification) (.judged v e) := by
  obtain ⟨ν, hν, hent, a, hcal⟩ := hd.exists_moment hc
  obtain ⟨δ, hδ, hcall, hn, hfs⟩ := h
  rw [← hent] at hcall ⊢
  have hδ' : δ ∈ c.moments ν.entered := Chronicle.mem_moments.2 ⟨hδ, hcall⟩
  have hover := ((hc.path ν hν _ hcal rfl).last_of_over hδ' (by rw [hn]; rfl)).2
  refine ⟨hover, ?_⟩
  cases hc.notified hν hcal with
  | running hx | cleaning hx | judging hx => rw [hover] at hx; cases hx
  | @ended fate _ ho =>
    have hmem : (v, L.promise, e) ∈ fate.failures L.promise := by
      rw [← ho.failures]
      exact List.mem_flatMap.2 ⟨δ, hδ', by rw [hfs]; exact List.mem_cons_self⟩
    cases fate with
    | fine | panicked => cases hmem
    | judged d e' =>
      cases List.mem_singleton.1 hmem
      exact ho

end Level

namespace Chronicle

variable {c c' : Chronicle H} {μ ν ρ : Moment H} {t : ThreadId} {p s : PromiseId}
  {ps : List PromiseId} {e : ListenerError} {v : Disposition} {N : Nat} {a : Listener H}
  {rest : List (Listener H)} {L : Level H} {ls : List (Level H)}

/-! ## The start -/

/-- Notifications that are in progress have logged nothing about failures. -/
theorem Reached.logged_eq_nil (hc : c.Reached b) (hd : ∀ L ∈ ls, L.Delivers c)
    (hi : ∀ L ∈ ls, c.frame? L.notification ≠ none) : c.logged ls = [] := by
  refine List.flatMap_eq_nil_iff.2 fun ρ hρ => ?_
  obtain ⟨hρ, hm⟩ := List.mem_filter.1 hρ
  obtain ⟨L, hL, hcall⟩ := List.mem_map.1 (of_decide_eq_true hm)
  obtain ⟨ν, hν, hent, a, hcal⟩ := (hd L hL).exists_moment hc
  have hgo := hi L hL
  rw [← hent] at hgo hcall
  have hnil : (c.moments ν.entered).flatMap Moment.failures = [] := by
    cases hc.notified hν hcal with
    | running _ _ hl | cleaning _ _ _ _ hl | judging _ _ _ _ _ hl => exact hl
    | ended hx => exact absurd hx hgo
  exact List.flatMap_eq_nil_iff.1 hnil ρ (mem_moments.2 ⟨hρ, hcall.symm⟩)

/-- When a listener fails at the end of a chain path, its failure is about to be put to the policy
of the first level. -/
theorem Reached.exists_stage (hc : c.Reached b) (hh : c.Honest) (h : c.Extends b μ)
    (hc' : (c.record μ).Reached b) (hno : ∀ ρ ∈ c.past, ρ.call.thread = μ.call.thread →
      ¬ρ.Panics b) (hp : c.ChainPath s (p :: ps)) (hμ : μ.Fails b p e) (hν : ν ∈ c.past)
    (hf : ν.frame = .completing p (.deliver (a :: rest))) (hent : ν.entered = μ.call)
    (v : Disposition) (N : Nat) :
    ∃ (L : Level H) (ls : List (Level H)) (is : List CallId) (fs : List (Frame H)),
      L = ⟨p, ν.call, μ.call, rest⟩ ∧ (L :: ls).map Level.promise = p :: ps ∧
      Level.Nested b c (L :: ls) ∧ (∀ L' ∈ L :: ls, L'.notification.thread = μ.call.thread) ∧
      Stage b (c.record μ) μ.call.thread e v N is fs [] (L :: ls)
        (ls.length * (N + 3) + (N + 2)) := by
  obtain ⟨is, fs, his, hstack, -⟩ := h.stack hc.tracked
  have hs : c.Stands μ.call.thread μ.control (μ.call :: is) (μ.frame :: fs) := ⟨his, hstack⟩
  obtain ⟨ls, is', fs', hmap, hnested, hnames, hstages⟩ :=
    hc.exists_levels hh hs hno hp p rfl ν hν a rest hf 0 (by rw [hent]; rfl)
  rw [hent] at hmap hnested hnames
  obtain rfl : is = ν.call :: (Level.names ls ++ is') := (List.cons.inj hnames).2
  obtain rfl : fs = .completing p (.delivering rest) :: (Level.stages p ls ++ fs') := hstages
  obtain ⟨-, -, -, hs'⟩ := hs.record hc.tracked h rfl
  rw [hμ.next (h.sound hc.tracked)] at hs'
  have hmem : ∀ L' ∈ (⟨p, ν.call, μ.call, rest⟩ :: ls : List (Level H)),
      L'.notification ∈ (c.record μ).calls μ.call.thread := by
    intro L' hL'
    rw [hs'.names]
    exact List.mem_append_left is' (Level.mem_names hL')
  have hthread := fun L' hL' => (hc'.tracked.names (hmem L' hL')).1
  refine ⟨_, ls, is', fs', rfl, hmap, hnested, hthread, .due hs' ?_⟩
  -- Every level's notification is still on the stack, so none has logged a failure yet.
  refine hc'.logged_eq_nil (fun L' hL' => ?_) fun L' hL' hx => ?_
  · exact (hnested.mono fun ν hν => mem_record_of_mem hν).delivers L' hL'
  · have hno := hc'.tracked.frame?_eq_none_iff.1 hx
    rw [hthread L' hL'] at hno
    exact hno (hmem L' hL')

/-! ## The end -/

/-- Notifications that are over log nothing more. -/
theorem logged_of_over (hc : c.Reached b) (hl : c.Reaches b c')
    (hle : ∀ L ∈ ls, L.notification.entry ≤ c.past.length)
    (hi : ∀ L ∈ ls, c.frame? L.notification = none) : c'.logged ls = c.logged ls := by
  obtain ⟨l, hpast⟩ := hl.exists_past hc
  have hnil : l.filter (·.call ∈ ls.map Level.notification) = [] := by
    refine List.filter_eq_nil_iff.2 fun ρ hρ hm => ?_
    obtain ⟨L, hL, hcall⟩ := List.mem_map.1 (of_decide_eq_true hm)
    have hmoments := (moments_of_over hc hl (hle L hL) (hi L hL)).1
    rw [moments, moments, hpast, List.filter_append, List.append_right_eq_self] at hmoments
    exact absurd (decide_eq_true hcall.symm) (List.filter_eq_nil_iff.1 hmoments ρ hρ)
  rw [logged, hpast, List.filter_append, hnil, List.append_nil, logged]

/-- A completion call that hands back a failure leaves the listeners that are to follow undelivered
for ever. -/
theorem Reached.discards (hc : c.Reached b) (hρ : ρ ∈ c.past)
    (hf : ρ.frame = .completing p (.delivering rest))
    (hn : ρ.next = .answer (.settled (.error e))) :
    (c.stored p).map Prod.snd = (c.deliveries p).map Prod.fst ++ rest := by
  obtain ⟨l, l', hpast⟩ := List.append_of_mem hρ
  obtain ⟨c₀, hc₀, rfl, h, hturn, hl⟩ := hc.exists_reaches hpast
  have hi : c₀.frame? ρ.call = some (.completing p (.delivering rest)) := by
    rw [h.frame? hc₀.tracked, hf]
  obtain ⟨δ, hδ, hdr⟩ := hc₀.exists_drain_of_frame? hi rfl
  obtain ⟨hδ, hcall⟩ := mem_moments.1 hδ
  obtain ⟨hdrain, hdel⟩ := hc₀.delivery hδ hdr
  have hδ' : δ ∈ c.past := hpast ▸ List.mem_append_left _ hδ
  obtain ⟨w, o, r, hw⟩ := hc.exists_won hρ hf
  obtain ⟨w₀, o₀, r₀, hw₀⟩ := hc₀.exists_won hδ hdr
  obtain rfl := hw.call_eq hρ hf nofun
  obtain rfl := hcall.symm.trans (hw₀.call_eq hδ hdr nofun)
  -- Nothing is stored after the drain, and nothing delivered once the call is over.
  have hstored : (c.stored p).map Prod.snd = (c₀.stored p).map Prod.snd := by
    have := (hc.delivery hδ' hdr).1
    rw [hdrain] at this
    simpa using this.symm
  have hdeliveries : c.deliveries p = c₀.deliveries p := by
    have hc₁ := hc₀.reaches hturn
    have hover : (c₀.record ρ).frame? ρ.call = none := by
      rw [frame?_record_self hc₀.tracked h, hn]
      rfl
    have hle : ρ.call.entry ≤ (c₀.record ρ).past.length := by
      obtain ⟨-, hlt, hle⟩ := hc₁.sound ρ mem_record_self
      omega
    have hnone : ρ.delivery? p = none := by rw [Moment.delivery?, hf]
    rw [hw.deliveries_eq, hw₀.deliveries_eq, (moments_of_over hc₁ hl hle hover).1,
      moments_record_self]
    simp [hnone]
  rw [hstored, hdeliveries]
  rw [hcall, hi] at hdel
  generalize c₀.deliveries p = ds, (c₀.moments ρ.call).getLast?.map Moment.next = n at hdel
  cases hdel with
  | waiting hls => rw [hls, List.map_append, List.append_assoc]; rfl

/-- A promise that has run a listener of a delivery is done, with the outcome of the call that
delivers. -/
theorem Reached.done_of_delivers (hc : c.Reached b) (hd : L.Delivers c) :
    ∃ o, ∀ c', c.Reaches b c' → c'.past.filterMap (Moment.won? L.promise) = [(L.completer, o)] ∧
      ∃ pr, c'.machine.promise? L.promise = some pr ∧ pr.isDone = true ∧ pr.outcome = some o := by
  obtain ⟨ν, hν, hcall, -, a, hf⟩ := hd
  obtain ⟨w, o, r, hw⟩ := hc.exists_won hν hf
  obtain rfl := hcall.symm.trans (hw.call_eq hν hf nofun)
  obtain ⟨δ, hδ, -, hdr⟩ := hc.exists_drain hν hf rfl
  refine ⟨o, fun c' hl => ?_⟩
  obtain ⟨r', hw'⟩ := hw.reaches hc hl
  obtain ⟨l, hpast⟩ := hl.exists_past hc
  have hδ' : δ ∈ c'.past := hpast ▸ List.mem_append_left l hδ
  obtain ⟨pr, hp, hdone, ho, -⟩ := hw'.done ((hc.reaches hl).isDrained hδ' hdr)
  exact ⟨hw'.wins, pr, hp, hdone, ho⟩

end Chronicle

/-- The delivery of a level was ended by the failure `e`. -/
structure Level.Left (b : Behaviour H) (c : Chronicle H) (e : ListenerError) (L : Level H) :
    Prop where
  /-- The policy has propagated the failure, which was logged once by the notification. -/
  judged : Over b L.promise (c.moments L.notification) (.judged .propagate e)
  /-- The completion call is over, and it has answered the failure. -/
  ended : c.frame? L.completer = none
  answer : (c.moments L.completer).getLast?.map Moment.next = some (.answer (.settled (.error e)))
  /-- Of the listeners that were stored, those that were to follow are never delivered. -/
  discards : ∀ c', c.Reaches b c' →
    (c'.stored L.promise).map Prod.snd = (c'.deliveries L.promise).map Prod.fst ++ L.rest

theorem Level.HandsBack.left {c : Chronicle H} {L : Level H} {e : ListenerError}
    (hc : c.Reached b) (hd : L.Delivers c) (h : L.HandsBack c e) : L.Left b c e := by
  obtain ⟨ρ, hρ, hcall, hf, hn⟩ := h.returns
  obtain ⟨o, hp⟩ := hc.completing_path hρ hf
  obtain ⟨hlast, hover⟩ :=
    hp.last_of_over (Chronicle.mem_moments.2 ⟨hρ, rfl⟩) (by rw [hn]; rfl)
  rw [hcall] at hlast hover
  refine ⟨(h.judged.over hc hd).2, hover, by rw [hlast, Option.map_some, hn], fun c' hl => ?_⟩
  obtain ⟨l, hpast⟩ := hl.exists_past hc
  exact (hc.reaches hl).discards (hpast ▸ List.mem_append_left l hρ) hf hn

namespace Chronicle

/-! ## All levels -/

/-- The failure `e` of a listener at the first one of the levels is settled, as it was judged. -/
inductive Settled (b : Behaviour H) (c : Chronicle H) (t : ThreadId) (e : ListenerError) :
    List (Level H) → Disposition → Prop
  /-- It was logged once, by the first level. When that was done, the delivery there was about to go
  on with the listeners that follow, and all other deliveries were waiting for it. -/
  | absorbed {c₁ : Chronicle H} {L : Level H} {ls is fs} (hc : c₁.Reached b)
    (hl : c₁.Reaches b c) (hlog : c₁.logged (L :: ls) = [(.absorb, L.promise, e)])
    (hs : c₁.Stands t .go (L.completer :: (Level.names ls ++ is))
      (.completing L.promise (.deliver L.rest) :: (Level.stages L.promise ls ++ fs)))
    (hj : Over b L.promise (c.moments L.notification) (.judged .absorb e)) :
    Settled b c t e (L :: ls) .absorb
  /-- It was logged once by each level, from the first to the last, and all deliveries have ended
  with it. -/
  | propagated {ls : List (Level H)}
    (hlog : c.logged ls = ls.map fun L => (.propagate, L.promise, e))
    (hleft : ∀ L ∈ ls, L.Left b c e) : Settled b c t e ls .propagate

section

variable {c c' : Chronicle H} {μ ν ρ : Moment H} {t : ThreadId} {p s : PromiseId}
  {ps : List PromiseId} {e : ListenerError} {v : Disposition} {N : Nat} {a : Listener H}
  {rest : List (Listener H)} {L : Level H} {ls : List (Level H)}

theorem Final.settled {is : List CallId} {fs : List (Frame H)} (hc : c.Reached b)
    (hl : c.Reaches b c') (hn : Level.Nested b c ls) (h : Final c t e is fs ls v) :
    Settled b c' t e ls v := by
  have hc' := hc.reaches hl
  obtain ⟨l, hpast⟩ := hl.exists_past hc
  have hmono : ∀ ν ∈ c.past, ν ∈ c'.past := fun ν hν => hpast ▸ List.mem_append_left l hν
  have hn' := hn.mono hmono
  cases h with
  | absorbed hs hj hlog =>
    refine .absorbed hc hl hlog hs ?_
    obtain ⟨δ, hδ, hj⟩ := hj
    exact (Level.Judged.over hc' (hn'.delivers _ List.mem_cons_self) ⟨δ, hmono δ hδ, hj⟩).2
  | propagated hb hlog =>
    refine .propagated (Eq.trans ?_ hlog) fun L hL => ?_
    · refine logged_of_over hc hl (fun L hL => ?_) fun L hL =>
        ((hb L hL).judged.over hc (hn.delivers L hL)).1
      obtain ⟨δ, hδ, hcall, -⟩ := (hb L hL).judged
      obtain ⟨-, hlt, hle⟩ := hc.sound δ hδ
      rw [hcall] at hlt
      omega
    · obtain ⟨⟨δ, hδ, hj⟩, ρ, hρ, hret⟩ := hb L hL
      exact Level.HandsBack.left hc' (hn'.delivers L hL) ⟨⟨δ, hmono δ hδ, hj⟩, ρ, hmono ρ hρ, hret⟩

theorem Reached.mem_of_entered (hc : c.Reached b) {l l' : List (Moment H)}
    (hpast : c.past = l ++ μ :: l') (hν : ν ∈ c.past) (hent : ν.entered = μ.call) : ν ∈ l := by
  refine hc.mem_of_number_lt hpast hν ?_
  have := (hc.sound μ (hpast ▸ List.mem_append_right _ List.mem_cons_self)).2.1
  rwa [← hent] at this

/-- The deliveries on a chain path have the policy of its source to ask. -/
theorem ChainPath.ruled (hp : c'.ChainPath s ps) (hc : c.Reached b) (hl : c.Reaches b c')
    {pr : Promise H} (hs : c'.machine.promise? s = some pr) (hv : pr.policy.Judges b e v N)
    (hn : Level.Nested b c ls) (hmap : ls.map Level.promise = ps) : c.Ruled b e v N ls := by
  intro L hL
  obtain ⟨ν, hν, -, -, a, hf⟩ := hn.delivers L hL
  obtain ⟨w, o, r, hw⟩ := hc.exists_won hν hf
  obtain ⟨pr₁, hp₁, -⟩ := hw.cells
  obtain ⟨pr₂, hp₂, hmade⟩ := hc.made hl hp₁
  obtain ⟨pr₃, hp₃, hpol⟩ := hp.policy (hc.reaches hl) (Machine.cells?_eq_some hs) L.promise
    (hmap ▸ List.mem_map_of_mem hL)
  obtain rfl : pr₂ = pr₃ := Option.some.inj (hp₂.symm.trans hp₃)
  refine ⟨pr₁, hp₁, ?_⟩
  rw [← (Promise.eq_of_made_eq hmade).2.1, hpol]
  exact hv

/-- A listener that fails at the end of a chain path, whose promises have a pure policy, has its
failure settled at all levels of the path. If it is absorbed, it is logged once, and all deliveries
go on as if the listener had gone well. If it is propagated, it is logged once for each promise on
the path, from the last to the first; every delivery ends with it and discards the listeners that it
has not run; and every completion call answers it, that of the first promise as well. The promises
stay done, each with its own outcome. The thread needs a bounded number of steps for that, and
nothing keeps it from making them. -/
theorem settles_along_chain (hc : c.Reached b) (hh : c.Honest) {l l' : List (Moment H)}
    (hpast : c.past = l ++ μ :: l') (hp : c.ChainPath s (p :: ps)) {pr : Promise H}
    (hs : c.machine.promise? s = some pr) (hv : pr.policy.Judges b e v N)
    (hμ : μ.Fails b p e) (hν : ν ∈ c.past)
    (hf : ν.frame = .completing p (.deliver (a :: rest))) (hent : ν.entered = μ.call)
    (hno : ∀ ρ ∈ l, ρ.call.thread = μ.call.thread → ¬ρ.Panics b) :
    ∃ L ls, L = ⟨p, ν.call, μ.call, rest⟩ ∧ (L :: ls).map Level.promise = p :: ps ∧
      Level.Nested b c (L :: ls) ∧
      (∀ L' ∈ L :: ls, ∃ o, ∀ c', c.Reaches b c' →
        c'.past.filterMap (Moment.won? L'.promise) = [(L'.completer, o)] ∧
        ∃ pr', c'.machine.promise? L'.promise = some pr' ∧ pr'.isDone = true ∧
          pr'.outcome = some o) ∧
      (Settled b c μ.call.thread e (L :: ls) v ∨
        (l'.filter (·.call.thread = μ.call.thread)).length + 1 < (ps.length + 1) * (N + 3) ∧
        (c.machine.aborted = false → ∃ m, c.machine.step b μ.call.thread = some m)) := by
  have hν := hc.mem_of_entered hpast hν hent
  obtain ⟨c₀, hc₀, rfl, h, hturn, hl⟩ := hc.exists_reaches hpast
  have hc₁ := hc₀.reaches hturn
  have hp₀ : c₀.ChainPath s (p :: ps) := hp.before hc₀ (hturn.trans hl) fun q hq => by
    cases hq
    obtain ⟨w, o, r, hw⟩ := hc₀.exists_won hν hf
    obtain ⟨pr, hp, -⟩ := hw.cells
    exact ⟨pr, hp⟩
  obtain ⟨L, ls, is, fs, hL, hmap, hnested, hthread, hst⟩ :=
    hc₀.exists_stage (hh.of_past hpast) h hc₁ hno hp₀ hμ hν hf hent v N
  obtain ⟨l, hmono⟩ := (hturn.trans hl).exists_past hc₀
  have hnested' := hnested.mono fun ν hν => hmono ▸ List.mem_append_left l hν
  refine ⟨L, ls, hL, hmap, hnested',
    fun L' hL' => hc.done_of_delivers (hnested'.delivers L' hL'), ?_⟩
  have hruled : (c₀.record μ).Ruled b e v N (L :: ls) :=
    hp.ruled hc₁ hl hs hv (hnested.mono fun ν hν => mem_record_of_mem hν) hmap
  rcases hst.reaches hc₁ hl hruled hthread nofun with
    ⟨ds', ls', r', heq, hle, -, hst'⟩ | ⟨c₂, h₁, h₂, hfin⟩
  · refine .inr ⟨?_, hst'.goes_on (heq ▸ hruled.reaches hc₁ hl)⟩
    have hsteps : c.steps μ.call.thread = (c₀.record μ).steps μ.call.thread +
        (l'.filter (·.call.thread = μ.call.thread)).length := by
      rw [steps, steps, hpast, past_record, ← List.length_append, ← List.filter_append,
        List.append_assoc, List.singleton_append]
    have hlen : ls.length = ps.length := by
      have := congrArg List.length hmap
      simpa using this
    have hpos := hst'.pos
    rw [Nat.succ_mul, ← hlen]
    omega
  · refine .inl (hfin.settled (hc₁.reaches h₁) h₂ (hnested.mono fun ν hν => ?_))
    obtain ⟨l₂, hpast₂⟩ := (hturn.trans h₁).exists_past hc₀
    exact hpast₂ ▸ List.mem_append_left l₂ hν

end

/-- A thread makes a promise with a policy of its own, and chains a second one and from that a third
one. It registers two listeners with the third promise, the first of which fails, and one more with
the first promise. Then it completes the first promise. -/
def relay : (r : Role) → Nat → Act Tabled r
  | .task, 0 => .call (.build { policy := .custom 0 }) 1
  | .task, 1 => .call (.chain 0 5) 2
  | .task, 2 => .call (.chain 1 5) 3
  | .task, 3 => .call (.listen 2 0) 4
  | .task, 4 => .call (.observe 2 0) 5
  | .task, 5 => .call (.observe 0 0) 6
  | .task, 6 => .call (.complete 0 (.value .unit)) 7
  | .listener, 0 => .finish (.error (.failed "broken"))
  | .policy, 0 => .stay 1
  | .policy, 1 => .finish .propagate
  | r, _ => Tabled.quiet r

/-- The run of that thread to its end. -/
def relayed : Option (Chronicle Tabled) :=
  (Tabled.start [0]).turns? (Tabled.behaviour relay) (List.replicate 84 (.step 0))

theorem settles_along_chain_relayed : ∃ c l μ l' ν a rest pr, relayed = some c ∧
    c.Reached (Tabled.behaviour relay) ∧ c.Honest ∧ c.past = l ++ μ :: l' ∧
    c.ChainPath 0 [2, 1, 0] ∧ c.machine.promise? 0 = some pr ∧
    pr.policy.Judges (Tabled.behaviour relay) (.failed "broken") .propagate 2 ∧
    μ.Fails (Tabled.behaviour relay) 2 (.failed "broken") ∧ ν ∈ c.past ∧
    ν.frame = .completing 2 (.deliver (a :: rest)) ∧ ν.entered = μ.call ∧
    (∀ ρ ∈ l, ρ.call.thread = μ.call.thread → ¬ρ.Panics (Tabled.behaviour relay)) ∧
    ∃ ls : List (Level Tabled), ls.map Level.promise = [2, 1, 0] ∧
      Settled (Tabled.behaviour relay) c μ.call.thread (.failed "broken") ls .propagate := by
  have hrun : (relayed.any fun c =>
      c.isHonest && (c.past.any fun κ => κ.derives? == some (0, 5, 1)) &&
      (c.past.any fun κ => κ.derives? == some (1, 5, 2)) &&
      (c.machine.promise? 0).any (fun pr => pr.policy.classify? == some 0) &&
      (c.past.any fun ρ => ρ.failures == [(.propagate, 2, .failed "broken")]) &&
      (c.past.all fun ρ => (ρ.inline? 2).isNone && ρ.call.thread == 0) &&
      !c.machine.aborted && (c.machine.step (Tabled.behaviour relay) 0).isNone) = true := by
    decide +kernel
  obtain ⟨c, hc, hrun⟩ := (Option.any_eq_true _ _).1 hrun
  simp only [Bool.and_eq_true, List.any_eq_true, List.all_eq_true, beq_iff_eq,
    Bool.not_eq_true', Option.isNone_iff_eq_none] at hrun
  obtain ⟨⟨⟨⟨⟨⟨⟨hh, κ₁, hκ₁, hd₁⟩, κ₂, hκ₂, hd₂⟩, hpr⟩, ρ, hρ, hfs⟩, hall⟩, hab⟩, hstep⟩ := hrun
  have hreach := Tabled.reached hc
  obtain ⟨pr, hp, hcode⟩ := (Option.any_eq_true _ _).1 hpr
  have hpath : c.ChainPath 0 [2, 1, 0] :=
    .chained hκ₂ ((hreach.sound κ₂ hκ₂).1.derives_of_derives? hd₂)
      (.chained hκ₁ ((hreach.sound κ₁ hκ₁).1.derives_of_derives? hd₁) .source)
  have hv : pr.policy.Judges (Tabled.behaviour relay) (.failed "broken") .propagate 2 := by
    rw [Policy.eq_custom (eq_of_beq hcode)]
    exact .code fun m t => .inr ⟨1, rfl, fun m t => .inl rfl⟩
  obtain ⟨d, p, e, hφ, -, μ, hμ, -, hfail⟩ :=
    hreach.exists_fails hρ (by rw [hfs]; exact List.mem_cons_self)
  cases hφ
  obtain ⟨l, l', hpast⟩ := List.append_of_mem hμ
  obtain ⟨s, hf, -⟩ := id hfail
  obtain ⟨ν, hν, hent, a, f, hn, hruns, -⟩ := hreach.exists_runs hμ hf
  have hno : ∀ ρ ∈ l, ρ.call.thread = μ.call.thread → ¬ρ.Panics (Tabled.behaviour relay) := by
    rintro ρ - - ⟨r, code, m, x, -, -, hr⟩
    have hact : relay r code = .panic x := (Prod.mk.inj hr).2
    unfold relay at hact
    split at hact <;> first | cases hact | (cases r <;> cases hact)
  cases hruns with
  | registration hf' =>
    have hinline := (hall ν hν).1
    rw [Moment.inline?, hf', hn] at hinline
    cases hinline
  | @delivery rest hf' =>
    obtain ⟨L, ls, -, hmap, -, -, hset⟩ := settles_along_chain hreach (honest_of_isHonest hh) hpast
      hpath hp hv hfail hν hf' hent hno
    refine ⟨c, l, μ, l', ν, a, rest, pr, hc, hreach, honest_of_isHonest hh, hpast, hpath, hp, hv,
      hfail, hν, hf', hent, hno, L :: ls, hmap, hset.resolve_right fun hgo => ?_⟩
    obtain ⟨m, hm⟩ := hgo.2 hab
    rw [(hall μ hμ).2, hstep] at hm
    cases hm

end Chronicle

end OneShot
