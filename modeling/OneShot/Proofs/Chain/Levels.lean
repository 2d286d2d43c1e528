import OneShot.Proofs.Chain.Relaying

/-!
# Deliveries inside deliveries

A derived promise is completed inside the notification of its chain listener, and that notification
is part of the delivery of its source. So when a listener runs at the end of a chain path, the
deliveries of all promises on the path are waiting under it on the same thread.

- **One thread** (`Chronicle.Stands`): the calls in progress on it, and what a moment makes of them.
- **Under a call** (`Reached.under`) lies the one that has entered it.
- **Chain paths** (`Chronicle.ChainPath`): promises that are chained from one another, which all
  have one policy (`ChainPath.policy`).
- **Levels** (`Level`, `Nested`, `Reached.exists_levels`): the deliveries on a chain path.
-/

namespace OneShot

variable {H : Host} {b : Behaviour H}

namespace Chronicle

variable {c c' : Chronicle H} {μ ν κ : Moment H} {t : ThreadId} {k : Control} {i : CallId}
  {is : List CallId} {f g : Frame H} {fs : List (Frame H)} {p q s : PromiseId}
  {ps : List PromiseId}

/-! ## One thread -/

/-- The calls in progress on thread `t` are `is`, the innermost first, at the stages `fs`, and the
top one has `k` to deal with. -/
structure Stands (c : Chronicle H) (t : ThreadId) (k : Control) (is : List CallId)
    (fs : List (Frame H)) : Prop where
  names : c.calls t = is
  stack : c.machine.stack? t = some (k, fs)

/-- A thread stays where it is when another one moves, unless it sleeps. -/
theorem Stands.record_of_ne (hc : c.Tracked) (h : c.Extends b μ) (hs : c.Stands t k is (f :: fs))
    (hf : f.steady = true) (ht : t ≠ μ.call.thread) : (c.record μ).Stands t k is (f :: fs) := by
  have hch := h.made.effect.stack t ht
  have hlen := (hc.stack _ _ _ hs.stack).length
  rw [hs.names] at hlen
  rw [h.before, hs.stack] at hch
  have hcalls : (c.record μ).calls t = Stack.names ⟨t, μ.number⟩ is (μ.after.stack? t) := by
    simp only [Chronicle.record, Moment.calls, if_neg ht, hs.names]
  have hafter : μ.after.stack? t = some (k, f :: fs) := by
    generalize μ.frame = f', μ.next = n, μ.after.stack? t = x at hch
    cases hch with
    | same => rfl
    | rouse => cases hf
  exact ⟨by rw [hcalls, hafter, Stack.names_of_length hlen], hafter⟩

/-- When a thread moves, its top call makes a step. -/
theorem Stands.record (hc : c.Tracked) (h : c.Extends b μ) (hs : c.Stands t k (i :: is) (f :: fs))
    (ht : t = μ.call.thread) : μ.call = i ∧ μ.frame = f ∧ μ.control = k ∧
      (c.record μ).Stands t (μ.next.stack f fs k).1 (μ.next.names μ.entered (i :: is))
        (μ.next.stack f fs k).2 := by
  subst ht
  obtain ⟨is', rest, his, hb, ha⟩ := h.stack hc
  obtain ⟨rfl, rfl⟩ := List.cons.inj (hs.names.symm.trans his)
  have hst := hb.symm.trans hs.stack
  simp only [Option.some.injEq, Prod.mk.injEq, List.cons.injEq] at hst
  obtain ⟨rfl, rfl, rfl⟩ := hst
  exact ⟨rfl, rfl, rfl, by simp [Chronicle.record, Moment.calls, his], ha⟩

theorem Stands.exists_step (hs : c.Stands t k is (f :: fs)) (hab : c.machine.aborted = false)
    (h : (f.step b c.machine t k).isSome = true) : ∃ m, c.machine.step b t = some m := by
  obtain ⟨⟨k', frames, token⟩, ht, heq⟩ := Option.map_eq_some_iff.1 hs.stack
  cases heq
  exact Machine.exists_step hab ht h

/-! ## Under a call -/

/-- The calls of a thread were entered after the ones under them. -/
theorem Reached.entry_lt (hc : c.Reached b) (t : ThreadId) :
    (c.calls t).Pairwise fun i j => j.entry < i.entry := by
  cases hs : c.machine.stack? t with
  | none => rw [hc.tracked.absent t hs]; exact .nil
  | some st =>
    obtain ⟨k, fs⟩ := st
    have hlen := (hc.tracked.stack _ _ _ hs).length
    have : IsTrans CallId fun i j => j.entry < i.entry := ⟨fun _ _ _ h h' => Nat.lt_trans h' h⟩
    refine List.isChain_iff_pairwise.1 (List.isChain_iff_getElem.2 fun n hn => ?_)
    have hn' : n + 1 < fs.length := hlen ▸ hn
    obtain ⟨ν, g, hlast, hent, -⟩ := hc.linked.below _ _ _ hs n _ _ _
      (List.getElem?_eq_getElem (Nat.lt_of_succ_lt hn)) (List.getElem?_eq_getElem hn)
      (List.getElem?_eq_getElem hn')
    obtain ⟨hν, hcall⟩ := mem_moments.1 (List.mem_of_getLast? hlast)
    rw [← hent, ← hcall]
    exact (hc.sound ν hν).2.1

/-- A call waits as long as the one that it has entered is in progress. -/
theorem Reached.waits (hc : c.Reached b) (hν : ν ∈ c.past) (hn : ν.next = .enter g f)
    (hg : g.steady = true) (hf : ν.frame.steady = true) (hi : c.frame? ν.entered ≠ none) :
    (c.moments ν.call).getLast? = some ν ∧ c.frame? ν.call = some f := by
  obtain ⟨g', hp, -⟩ := hc.path_of_moment ν hν hf
  rcases hp.following ν (mem_moments.2 ⟨hν, rfl⟩) with ⟨hlast, hx⟩ | ⟨τ, -, -, htold⟩
  · exact ⟨hlast, by rw [hx, hn]; rfl⟩
  · generalize hlast : some ν = last, τ.control = k at htold
    cases htold with
    | first => cases hlast
    | own hown => cases hlast; rw [hown] at hn; cases hn
    | @callee _ ρ _ _ _ _ hρ hcall hk =>
      cases hlast
      have hover : ρ.next.own ρ.frame = none := by
        cases hx : ρ.next <;> rw [hx] at hk <;> first | rfl | cases hk
      have hp' := hc.path ν hν g (by rw [hn]; rfl) hg
      exact absurd (hp'.last_of_over (mem_moments.2 ⟨hρ, hcall⟩) hover).2 hi

/-- Under a call in progress lies the one that has entered it. -/
theorem Reached.under (hc : c.Reached b) (hs : c.Stands t k is fs) (hν : ν ∈ c.past)
    (hn : ν.next = .enter g f) (hg : g.steady = true) (hf : ν.frame.steady = true) {n : Nat}
    (hi : is[n]? = some ν.entered) : is[n + 1]? = some ν.call ∧ fs[n + 1]? = some f := by
  obtain ⟨rfl, hstack⟩ := hs
  have ht := hc.tracked
  have hst := ht.stack _ _ _ hstack
  have hthread : ν.call.thread = t := (ht.names (List.mem_of_getElem? hi)).1
  subst hthread
  obtain ⟨hlast, hframe⟩ := hc.waits hν hn hg hf fun h =>
    ht.frame?_eq_none_iff.1 h (List.mem_of_getElem? hi)
  have hmem : ν.call ∈ c.calls ν.call.thread := Classical.byContradiction fun hno => by
    rw [ht.frame?_eq_none_iff.2 hno] at hframe
    cases hframe
  obtain ⟨j, hj⟩ := List.getElem?_of_mem hmem
  -- What was entered later lies above.
  have hlt : n < j := by
    obtain ⟨hnl, hn'⟩ := List.getElem?_eq_some_iff.1 hi
    obtain ⟨hjl, hj'⟩ := List.getElem?_eq_some_iff.1 hj
    have hentry : ν.call.entry < ν.entered.entry := (hc.sound ν hν).2.1
    rcases Nat.lt_trichotomy n j with h | rfl | h
    · exact h
    · rw [← hj', ← hn'] at hentry
      exact absurd hentry (Nat.lt_irrefl _)
    · have := List.pairwise_iff_getElem.1 (hc.entry_lt ν.call.thread) j n hjl hnl h
      rw [hn', hj'] at this
      omega
  obtain ⟨m, rfl⟩ : ∃ m, j = m + 1 := ⟨j - 1, by omega⟩
  obtain ⟨hml, -⟩ := List.getElem?_eq_some_iff.1 hj
  have hm := List.getElem?_eq_getElem (Nat.lt_of_succ_lt hml)
  have hfm := List.getElem?_eq_getElem (hst.length ▸ hml)
  obtain ⟨ν', g', hlast', hent, hnext⟩ := hc.linked.below _ _ _ hstack m _ _ _ hm hj hfm
  obtain rfl : ν = ν' := Option.some.inj (hlast.symm.trans hlast')
  obtain rfl : n = m := by
    obtain ⟨hnl, -⟩ := List.getElem?_eq_some_iff.1 hi
    exact (List.getElem?_inj hnl hst.nodup).1 (hi.trans (hent ▸ hm.symm))
  rw [hn] at hnext
  cases hnext
  exact ⟨hj, hfm⟩

/-! ## Chain paths -/

/-- Each of the promises is chained from the next one, and the last one is `s`. -/
inductive ChainPath (c : Chronicle H) (s : PromiseId) : List PromiseId → Prop
  | source : ChainPath c s [s]
  | chained {κ : Moment H} {q p : PromiseId} {f : H.Closure .transform} {ps : List PromiseId}
    (hκ : κ ∈ c.past) (hd : κ.Derives q f p)
    (h : ChainPath c s (q :: ps)) : ChainPath c s (p :: q :: ps)

theorem ChainPath.policy (hc : c.Reached b) (hp : c.ChainPath s ps) {pr : Promise H}
    (hs : c.machine.cells? s = some pr) :
    ∀ q ∈ ps, ∃ pr', c.machine.cells? q = some pr' ∧ pr'.policy = pr.policy := by
  induction hp with
  | source => exact List.forall_mem_singleton.2 ⟨pr, hs, rfl⟩
  | chained hκ hd _ ih =>
    refine List.forall_mem_cons.2 ⟨?_, ih⟩
    obtain ⟨pr₁, hp₁, hpol⟩ := ih _ List.mem_cons_self
    obtain ⟨pr₂, pr', hp₂, hp', -, hpol', -⟩ := hc.derived hκ hd
    obtain rfl : pr₁ = pr₂ := Option.some.inj (hp₁.symm.trans hp₂)
    exact ⟨pr', hp', hpol'.trans hpol⟩

/-- A chain path was there as soon as its first promise was. -/
theorem ChainPath.before (hc : c.Reached b) (hl : c.Reaches b c') (hp : c'.ChainPath s ps)
    (hex : ∀ q ∈ ps.head?, ∃ pr, c.machine.cells? q = some pr) : c.ChainPath s ps := by
  induction hp with
  | source => exact .source
  | chained hκ hd _ ih =>
    obtain ⟨pr, hpr⟩ := hex _ rfl
    have hκ := hc.derives_before hl hκ hd hpr
    refine .chained hκ hd (ih fun q hq => ?_)
    cases hq
    obtain ⟨pr', -, hp', -⟩ := hc.derived hκ hd
    exact ⟨pr', hp'⟩

end Chronicle

/-! ## Levels -/

/-- A delivery that waits for the notification of a listener. -/
structure Level (H : Host) where
  promise : PromiseId
  /-- The completion call that delivers. -/
  completer : CallId
  /-- The notification that it waits for. -/
  notification : CallId
  /-- The listeners that are to follow. -/
  rest : List (Listener H)

namespace Level

/-- The calls of levels that lie one under the other, the innermost first. -/
def names : List (Level H) → List CallId
  | [] => []
  | L :: ls => L.notification :: L.completer :: names ls

/-- Where the calls of levels are that lie one under the other, the first one of which has its chain
listener wait for the completion of `p`. -/
def stages (p : PromiseId) : List (Level H) → List (Frame H)
  | [] => []
  | L :: ls =>
    .notifying L.promise (.relaying p) :: .completing L.promise (.delivering L.rest) ::
      stages L.promise ls

/-- The delivery of a level has run the listener that it waits for. -/
def Delivers (c : Chronicle H) (L : Level H) : Prop :=
  ∃ ν ∈ c.past, ν.call = L.completer ∧ ν.entered = L.notification ∧
    ∃ a, ν.frame = .completing L.promise (.deliver (a :: L.rest))

/-- The completion of a level was entered by the chain listener of the next one. -/
def Inside (b : Behaviour H) (c : Chronicle H) (L L' : Level H) : Prop :=
  ∃ ε ∈ c.past, ε.call = L'.notification ∧ ε.entered = L.completer ∧ ∃ o, ε.Ends b L.promise o

/-- The levels lie one under the other, the innermost first. -/
structure Nested (b : Behaviour H) (c : Chronicle H) (ls : List (Level H)) : Prop where
  delivers : ∀ L ∈ ls, L.Delivers c
  inside : ls.IsChain (Inside b c)

end Level

namespace Chronicle

variable {c c' : Chronicle H} {μ ν ε κ : Moment H} {t : ThreadId} {k : Control}
  {is : List CallId} {fs : List (Frame H)} {p q s : PromiseId} {ps : List PromiseId}
  {a : Listener H} {rest : List (Listener H)}

/-- The completion call that delivers a derived promise was entered by its chain listener, when the
callback returned; and that was run by the delivery of its source. -/
theorem Reached.exists_source (hc : c.Reached b) (hh : c.Honest) (hs : c.Stands t k is fs)
    (hno : ∀ ρ ∈ c.past, ρ.call.thread = t → ¬ρ.Panics b) (hκ : κ ∈ c.past)
    {f : H.Closure .transform} (hd : κ.Derives q f p) (hν : ν ∈ c.past)
    (hf : ν.frame = .completing p (.deliver (a :: rest))) {n : Nat}
    (hi : is[n]? = some ν.call) :
    ∃ ε ∈ c.past, ∃ o, ε.Ends b p o ∧ ε.entered = ν.call ∧ is[n + 1]? = some ε.call ∧
      fs[n + 1]? = some (.notifying q (.relaying p)) ∧
      ∃ ω ∈ c.past, ω.entered = ε.call ∧ ∃ a' rest',
        ω.frame = .completing q (.deliver (a' :: rest')) := by
  obtain ⟨w, o, r, hw⟩ := hc.exists_won hν hf
  obtain ⟨ε, hε, hent, hends⟩ := hw.ends hc hh hκ hd
  rw [← hw.call_eq hν hf nofun] at hent
  have hthread : ε.call.thread = t := by
    obtain ⟨rfl, -⟩ := hs
    have := (hc.tracked.names (List.mem_of_getElem? hi)).1
    rwa [← hent] at this
  obtain ⟨q', code, hfε, hn⟩ : ∃ q' code, ε.frame = .notifying q' (.transforming p code) ∧
      ε.next = .enter (.completing p (.claim o)) (.notifying q' (.relaying p)) := by
    cases hends with
    | returned hfε _ hn => exact ⟨_, _, hfε, hn⟩
    | panicked hfε hx =>
      have hpanics : ε.Panics b := ⟨.transform, _, _, _, by rw [hfε]; rfl, nofun, hx⟩
      exact absurd hpanics (hno ε hε hthread)
  obtain ⟨hcall, hframe⟩ := hc.under hs hε hn rfl (by rw [hfε]; rfl) (hent ▸ hi)
  -- The listener that this notification runs is the chain listener of `p`.
  obtain ⟨rfl, ω, hω, hentω, g, hnω, hruns⟩ := hc.exists_chain_run hκ hd hε hfε
  refine ⟨ε, hε, o, hends, hent, hcall, hframe, ω, hω, hentω, ?_⟩
  cases hruns with
  | delivery hfω => exact ⟨_, _, hfω⟩
  | registration hfω hr =>
    -- A promise has no listeners before the call that derives it is over.
    obtain ⟨-, κ', hκ', hcall', hd'⟩ :=
      hc.derives_of_chain hω hfω (by rcases hr with rfl | rfl <;> rfl)
    obtain ⟨hup, -⟩ := hc.under hs hω hnω rfl (by rw [hfω]; rfl) (hentω ▸ hcall)
    have hgo : c.frame? κ'.call ≠ none := by
      obtain ⟨rfl, -⟩ := hs
      have hmem := List.mem_of_getElem? hup
      rw [hcall']
      have hth := (hc.tracked.names hmem).1
      exact fun h => hc.tracked.frame?_eq_none_iff.1 h (hth.symm ▸ hmem)
    exact absurd (by rw [hc.next_of_deliver hν hf]; rfl)
      (hc.not_run_of_unshared hh hκ' hd' hgo hν (r := a.begin p))

theorem drop_eq_cons {α : Type} {l : List α} {n : Nat} {x : α} (h : l[n]? = some x) :
    l.drop n = x :: l.drop (n + 1) := by
  obtain ⟨hlt, rfl⟩ := List.getElem?_eq_some_iff.1 h
  exact List.drop_eq_getElem_cons hlt

/-- When a listener is run at the end of a chain path, the deliveries of all promises on the path
wait under it. -/
theorem Reached.exists_levels (hc : c.Reached b) (hh : c.Honest) (hs : c.Stands t k is fs)
    (hno : ∀ ρ ∈ c.past, ρ.call.thread = t → ¬ρ.Panics b) (hp : c.ChainPath s ps) :
    ∀ p ∈ ps.head?, ∀ ν ∈ c.past, ∀ a rest, ν.frame = .completing p (.deliver (a :: rest)) →
      ∀ n, is[n]? = some ν.entered → ∃ ls is' fs',
        (⟨p, ν.call, ν.entered, rest⟩ :: ls : List (Level H)).map Level.promise = ps ∧
        Level.Nested b c (⟨p, ν.call, ν.entered, rest⟩ :: ls) ∧
        is.drop n = ν.entered :: ν.call :: (Level.names ls ++ is') ∧
        fs.drop (n + 1) = .completing p (.delivering rest) :: (Level.stages p ls ++ fs') := by
  -- Along the chain path, from its source; the listener runs `n` frames below the top.
  induction hp with
  | source =>
    intro p hp ν hν a rest hf n hi
    cases hp
    obtain ⟨hcall, hframe⟩ := hc.under hs hν (hc.next_of_deliver hν hf) rfl (by rw [hf]; rfl) hi
    refine ⟨[], is.drop (n + 2), fs.drop (n + 2), rfl, ⟨?_, .singleton _⟩, ?_, drop_eq_cons hframe⟩
    · exact List.forall_mem_singleton.2 ⟨ν, hν, rfl, rfl, a, hf⟩
    · rw [drop_eq_cons hi, drop_eq_cons hcall]
      rfl
  | @chained κ q f p ps hκ hd _ ih =>
    intro p' hp' ν hν a rest hf n hi
    cases hp'
    obtain ⟨hcall, hframe⟩ := hc.under hs hν (hc.next_of_deliver hν hf) rfl (by rw [hf]; rfl) hi
    -- Below the delivery stand its claim and the callback, which the source's delivery runs.
    obtain ⟨ε, hε, o, hends, hent, hi', hf', ω, hω, hentω, a', rest', hfω⟩ :=
      hc.exists_source hh hs hno hκ hd hν hf hcall
    rw [← hentω] at hi'
    obtain ⟨ls, is', fs', hmap, hnested, his, hfs⟩ := ih q rfl ω hω a' rest' hfω (n + 2) hi'
    refine ⟨_, is', fs', by rw [List.map_cons, hmap], ⟨?_, ?_⟩, ?_, ?_⟩
    · exact List.forall_mem_cons.2 ⟨⟨ν, hν, rfl, rfl, a, hf⟩, hnested.delivers⟩
    · exact .cons_cons ⟨ε, hε, hentω.symm, hent, o, hends⟩ hnested.inside
    · rw [drop_eq_cons hi, drop_eq_cons hcall, his]
      rfl
    · rw [drop_eq_cons hframe, drop_eq_cons hf', hfs]
      rfl

end Chronicle

end OneShot
