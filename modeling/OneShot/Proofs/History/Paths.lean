import OneShot.Proofs.History.Lookup

/-!
# The way of one call through a run

The moments of one call, taken out of a run, form a path: each moment begins at the stage where the
one before it ended, and what the call has to deal with is what the call above it has told it. What
is proved of a call along its path needs no look at the rest of the run.

- **Moments of a call** (`Chronicle.moments`), in the order of their numbers (`Reached.numbered`).
- **Each moment** came next in a shorter run (`Reached.extends_of_mem`).
- **What a call is told** (`Chronicle.Told`): nothing if it went on by itself, else how the call
  ended that it entered last.
- **Paths** (`Chronicle.Path`, `Reached.path`): from the stage at which the call was entered to
  where it is now, for calls that only their own moments move.
-/

namespace OneShot

variable {H : Host} {b : Behaviour H}

/-- What the caller is told when a call ends. -/
def Next.told? : Next H → Option Control
  | .answer a => some (.ret a)
  | .throw x => some (.raise x)
  | _ => none

/-- A moment that happened, to a call that waits if it has an answer or a panic to deal with. -/
structure Moment.Sound (b : Behaviour H) (μ : Moment H) : Prop where
  made : μ.Made b
  control : μ.control = .go ∨ μ.frame.awaits = true

theorem Moment.Made.not_aborted {μ : Moment H} (h : μ.Made b) (ha : μ.after.aborted = false) :
    μ.before.aborted = false := by
  cases h with
  | step hn => exact hn
  | wake ht hf hn hafter => rw [hafter] at ha; exact ha

theorem Machine.exists_step {m : Machine H} {t : ThreadId} {k : Control} {f : Frame H}
    {rest : List (Frame H)} {token : Token} (hab : m.aborted = false)
    (ht : m.thread? t = some ⟨k, f :: rest, token⟩) (hs : (f.step b m t k).isSome = true) :
    ∃ m', m.step b t = some m' := by
  obtain ⟨⟨m₁, n⟩, hs⟩ := Option.isSome_iff_exists.1 hs
  refine ⟨m₁.proceed t rest n, ?_⟩
  simp only [Machine.step, hab, Bool.false_eq_true, if_false, ht]
  rw [hs]
  rfl

namespace Chronicle

variable {c : Chronicle H} {μ : Moment H}

theorem Extends.sound (hc : c.Tracked) (h : c.Extends b μ) : μ.Sound b := ⟨h.made, h.control hc⟩

/-- The moments of a call so far. -/
def moments (c : Chronicle H) (i : CallId) : List (Moment H) := c.past.filter (·.call = i)

theorem mem_moments {i : CallId} : μ ∈ c.moments i ↔ μ ∈ c.past ∧ μ.call = i := by
  simp [moments]

@[simp] theorem past_record : (c.record μ).past = c.past ++ [μ] := rfl

theorem mem_record {ν : Moment H} : ν ∈ (c.record μ).past ↔ ν ∈ c.past ∨ ν = μ := by
  rw [past_record, List.mem_append, List.mem_singleton]

theorem mem_record_self : μ ∈ (c.record μ).past := mem_record.2 (.inr rfl)

theorem mem_record_of_mem {ν : Moment H} (h : ν ∈ c.past) : ν ∈ (c.record μ).past :=
  mem_record.2 (.inl h)

theorem moments_record_self : (c.record μ).moments μ.call = c.moments μ.call ++ [μ] := by
  simp [moments]

theorem moments_record_of_ne {i : CallId} (h : μ.call ≠ i) :
    (c.record μ).moments i = c.moments i := by
  simp [moments, h]

/-! ## Moments in a row -/

theorem Reached.numbered (hc : c.Reached b) :
    c.past.map Moment.number = List.range' 1 c.past.length := by
  induction c, hc using Reached.induction with
  | start m hm => rfl
  | record c μ hc hμ hc' ih =>
    rw [past_record, List.map_append, ih, List.length_append, List.length_singleton,
      List.range'_concat, List.map_singleton, hμ.number, Nat.one_mul, Nat.add_comm 1]

/-- A run on from somewhere, up to one of its moments and on from there. -/
theorem Reaches.exists_reaches {c₀ : Chronicle H} (hc : c₀.Reached b) (hr : c₀.Reaches b c)
    {l l' : List (Moment H)} (h : c.past = c₀.past ++ l ++ μ :: l') :
    ∃ c₁ : Chronicle H, c₀.Reaches b c₁ ∧ c₁.past = c₀.past ++ l ∧ c₁.Extends b μ ∧
      c₁.Reaches b (c₁.record μ) ∧ (c₁.record μ).Reaches b c := by
  induction hr generalizing l' with
  | refl => simp at h
  | @tail c₁ _ e hr he ih =>
    obtain ⟨ν, hν, rfl⟩ := exists_extends_of_turn? (hc.reaches hr).tracked he
    rw [past_record] at h
    rcases List.eq_nil_or_concat l' with rfl | ⟨l'', ρ, rfl⟩
    · obtain ⟨hpast, rfl⟩ := List.append_singleton_inj.1 h
      exact ⟨c₁, hr, hpast, hν, .tail e .refl he, .refl⟩
    · rw [List.concat_eq_append, ← List.cons_append, ← List.append_assoc] at h
      obtain ⟨c₂, hc₂, hl, hext, hturn, hr'⟩ := ih (List.append_singleton_inj.1 h).1
      exact ⟨c₂, hc₂, hl, hext, hturn, .tail e hr' he⟩

/-- A run up to one of its moments, and on from there. -/
theorem Reached.exists_reaches (hc : c.Reached b) {l l' : List (Moment H)}
    (h : c.past = l ++ μ :: l') : ∃ c₀ : Chronicle H, c₀.Reached b ∧ c₀.past = l ∧
      c₀.Extends b μ ∧ c₀.Reaches b (c₀.record μ) ∧ (c₀.record μ).Reaches b c := by
  obtain ⟨m, hm, hr⟩ := hc
  obtain ⟨c₀, hr₀, hpast, hext⟩ := hr.exists_reaches ⟨m, hm, .refl⟩ (l := l) h
  exact ⟨c₀, ⟨m, hm, hr₀⟩, hpast, hext⟩

theorem Reached.reaches_of_mem (hc : c.Reached b) (hμ : μ ∈ c.past) : ∃ c₀ : Chronicle H,
    c₀.Reached b ∧ c₀.Extends b μ ∧ c₀.Reaches b (c₀.record μ) ∧ (c₀.record μ).Reaches b c := by
  obtain ⟨l, l', h⟩ := List.append_of_mem hμ
  obtain ⟨c₀, hc₀, -, hr⟩ := hc.exists_reaches h
  exact ⟨c₀, hc₀, hr⟩

theorem Reached.exists_extends (hc : c.Reached b) {l l' : List (Moment H)}
    (h : c.past = l ++ μ :: l') :
    ∃ c₀ : Chronicle H, c₀.Reached b ∧ c₀.past = l ∧ c₀.Extends b μ := by
  obtain ⟨c₀, hc₀, hl, hext, -⟩ := hc.exists_reaches h
  exact ⟨c₀, hc₀, hl, hext⟩

/-- Each moment of a run comes next in a run that it has not ended yet. -/
theorem Reached.extends_of_mem (hc : c.Reached b) (hμ : μ ∈ c.past) :
    ∃ c₀ : Chronicle H, c₀.Reached b ∧ c₀.Extends b μ ∧ (∀ ν ∈ c₀.past, ν ∈ c.past) ∧
      c₀.past.length < c.past.length := by
  obtain ⟨l, l', h⟩ := List.append_of_mem hμ
  obtain ⟨c₀, hc₀, rfl, hext⟩ := hc.exists_extends h
  refine ⟨c₀, hc₀, hext, fun ν hν => ?_, ?_⟩
  · rw [h]
    exact List.mem_append_left _ hν
  · rw [h, List.length_append, List.length_cons]
    omega

theorem Reached.number_of_getElem? (hc : c.Reached b) {k : Nat} (hk : c.past[k]? = some μ) :
    μ.number = 1 + k := by
  have hnum := congrArg (·[k]?) hc.numbered
  simp only [List.getElem?_map, hk, Option.map_some] at hnum
  obtain ⟨hlt, -⟩ := List.getElem?_eq_some_iff.1 hk
  rw [List.getElem?_range' (by omega)] at hnum
  simpa using hnum

theorem Reached.number_inj (hc : c.Reached b) {ν : Moment H} (hμ : μ ∈ c.past) (hν : ν ∈ c.past)
    (h : ν.number = μ.number) : ν = μ := by
  obtain ⟨k, hk⟩ := List.getElem?_of_mem hμ
  obtain ⟨j, hj⟩ := List.getElem?_of_mem hν
  have hkn := hc.number_of_getElem? hk
  have hjn := hc.number_of_getElem? hj
  obtain rfl : j = k := by omega
  exact Option.some.inj (hj.symm.trans hk)

theorem Reached.mem_of_number_lt (hc : c.Reached b) {l l' : List (Moment H)} {ν : Moment H}
    (hpast : c.past = l ++ μ :: l') (hν : ν ∈ c.past) (hlt : ν.number < μ.number) : ν ∈ l := by
  obtain ⟨c₀, hc₀, rfl, h, -, -⟩ := hc.exists_reaches hpast
  obtain ⟨k, hk⟩ := List.getElem?_of_mem hν
  have hnum := hc.number_of_getElem? hk
  rw [hpast, List.getElem?_append_left (by rw [h.number] at hlt; omega)] at hk
  exact List.mem_of_getElem? hk

theorem Reached.reaches_of_number_lt (hc : c.Reached b) {ν : Moment H} (hμ : μ ∈ c.past)
    (hν : ν ∈ c.past) (hlt : ν.number < μ.number) : ∃ c₀ : Chronicle H,
      c₀.Reached b ∧ c₀.Extends b μ ∧ ν ∈ c₀.past := by
  obtain ⟨l, l', h⟩ := List.append_of_mem hμ
  obtain ⟨c₀, hc₀, rfl, hext, -⟩ := hc.exists_reaches h
  exact ⟨c₀, hc₀, hext, hc.mem_of_number_lt h hν hlt⟩

/-- What happens only if it has not happened before happens once. -/
theorem Reached.eq_of_first (hc : c.Reached b) {P : Moment H → Prop}
    (hfirst : ∀ (c₀ : Chronicle H) (κ : Moment H), c₀.Reached b → c₀.Extends b κ → P κ →
      ∀ ν ∈ c₀.past, ¬P ν)
    (hμ : μ ∈ c.past) (h : P μ) {ν : Moment H} (hν : ν ∈ c.past) (h' : P ν) : ν = μ := by
  rcases Nat.lt_trichotomy ν.number μ.number with hlt | heq | hlt
  · obtain ⟨c₀, hc₀, hext, hmem⟩ := hc.reaches_of_number_lt hμ hν hlt
    exact absurd h' (hfirst c₀ μ hc₀ hext h ν hmem)
  · exact hc.number_inj hμ hν heq
  · obtain ⟨c₀, hc₀, hext, hmem⟩ := hc.reaches_of_number_lt hν hμ hlt
    exact absurd h (hfirst c₀ ν hc₀ hext h' μ hmem)

theorem Reaches.exists_past {c' : Chronicle H} (hc : c.Reached b) (h : c.Reaches b c') :
    ∃ l, c'.past = c.past ++ l := by
  induction h with
  | refl => exact ⟨[], (List.append_nil _).symm⟩
  | tail e hl he ih =>
    obtain ⟨l, hpast⟩ := ih
    obtain ⟨μ, -, rfl⟩ := exists_extends_of_turn? (hc.reaches hl).tracked he
    exact ⟨l ++ [μ], by rw [past_record, hpast, List.append_assoc]⟩

/-- Every moment of a run happened, to a call that was entered before it. -/
theorem Reached.sound (hc : c.Reached b) :
    ∀ ν ∈ c.past, ν.Sound b ∧ ν.call.entry < ν.number ∧ ν.number ≤ c.past.length := by
  intro ν hν
  obtain ⟨c₀, hc₀, h, -, hlt⟩ := hc.extends_of_mem hν
  have ht := hc₀.tracked
  have hle := ht.entry_le (h.frame? ht)
  have hnum := h.number
  exact ⟨⟨h.made, h.control ht⟩, by omega, by omega⟩

theorem Reached.moments_eq_nil (hc : c.Reached b) {i : CallId} (h : c.past.length < i.entry) :
    c.moments i = [] := by
  refine List.filter_eq_nil_iff.2 fun ν hν hi => ?_
  obtain ⟨-, hlt, hle⟩ := hc.sound ν hν
  rw [of_decide_eq_true hi] at hlt
  omega

/-! ## What a call is told -/

/-- What a call has to deal with whose last moment so far is given: nothing after a moment of its
own, and else how the call ended that it entered. -/
inductive Told (c : Chronicle H) : Option (Moment H) → Control → Prop
  | first : Told c none .go
  | own {ν f} (h : ν.next = .goto f) : Told c (some ν) .go
  | callee {ν ρ g f k} (h : ν.next = .enter g f) (hρ : ρ ∈ c.past) (hi : ρ.call = ν.entered)
    (hk : ρ.next.told? = some k) : Told c (some ν) k

theorem Told.mono {c' : Chronicle H} {last : Option (Moment H)} {k : Control}
    (h : ∀ ν ∈ c.past, ν ∈ c'.past) (ht : c.Told last k) : c'.Told last k := by
  cases ht with
  | first => exact .first
  | own hn => exact .own hn
  | callee hn hρ hi hk => exact .callee hn (h _ hρ) hi hk

/-- The calls under the top one have entered the call above them at their last moment. -/
def Below (c : Chronicle H) (is : List CallId) (fs : List (Frame H)) : Prop :=
  ∀ n j i f, is[n]? = some j → is[n + 1]? = some i → fs[n + 1]? = some f →
    ∃ ν g, (c.moments i).getLast? = some ν ∧ ν.entered = j ∧ ν.next = .enter g f

namespace Below

variable {i j : CallId} {is : List CallId} {f g : Frame H} {fs fs' : List (Frame H)}

theorem nil : c.Below [] fs := fun _ _ _ _ hj => by simp at hj

theorem singleton : c.Below [i] fs := fun _ _ _ _ _ hi => by simp at hi

theorem tail (h : c.Below (i :: is) (f :: fs)) : c.Below is fs :=
  fun n j i f hj hi hf => h (n + 1) j i f hj hi hf

/-- A moment changes nothing for calls under the top one, none of which it is of. -/
theorem record (h : c.Below is fs) (hi : μ.call ∉ is.tail) (hf : fs'.tail = fs.tail) :
    (c.record μ).Below is fs' := by
  intro n j i f hj hi' hf'
  rw [← List.getElem?_tail, hf, List.getElem?_tail] at hf'
  obtain ⟨ν, g, hν, hg⟩ := h n j i f hj hi' hf'
  have hne : μ.call ≠ i := fun he => hi (List.mem_iff_getElem?.2 ⟨n, by
    rw [List.getElem?_tail, hi', he]⟩)
  exact ⟨ν, g, by rw [moments_record_of_ne hne]; exact hν, hg⟩

theorem enter (h : c.Below (i :: is) (f :: fs)) {ν : Moment H}
    (hl : (c.moments i).getLast? = some ν)
    (hj : ν.entered = j) (hn : ν.next = .enter g f) : c.Below (j :: i :: is) (g :: f :: fs) := by
  intro n j' i' f' hj' hi' hf'
  cases n with
  | zero =>
    cases hj'
    cases hi'
    cases hf'
    exact ⟨ν, g, hl, hj, hn⟩
  | succ n => exact h n j' i' f' hj' hi' hf'

end Below

/-- The calls of each thread are told what they have to deal with by the calls above them. -/
structure Linked (c : Chronicle H) : Prop where
  below : ∀ t k fs, c.machine.stack? t = some (k, fs) → c.Below (c.calls t) fs
  top : c.machine.aborted = false → ∀ t k fs i, c.machine.stack? t = some (k, fs) →
    (c.calls t).head? = some i → c.Told (c.moments i).getLast? k

theorem linked_start {m : Machine H} (hm : m.Initial) : (start m).Linked := by
  have hcalls : ∀ t k fs, m.stack? t = some (k, fs) →
      (start m).calls t = [] ∨ k = .go ∧ ∃ i, (start m).calls t = [i] := by
    intro t k fs hs
    have hl := ((tracked_start hm).stack t k fs hs).length
    obtain ⟨th, ht, heq⟩ := Option.map_eq_some_iff.1 hs
    cases heq
    rcases hm.threads th (Array.mem_of_getElem? ht) with hf | ⟨work, hf, hk⟩
    · rw [hf] at hl
      exact .inl (List.length_eq_zero_iff.1 hl)
    · rw [hf] at hl
      exact .inr ⟨hk, List.length_eq_one_iff.1 hl⟩
  refine ⟨fun t k fs hs => ?_, fun _ t k fs i hs hi => ?_⟩
  · rcases hcalls t k fs hs with hc | ⟨-, i, hc⟩
    · rw [hc]; exact .nil
    · rw [hc]; exact .singleton
  · rcases hcalls t k fs hs with hc | ⟨rfl, -⟩
    · rw [hc] at hi; cases hi
    · exact .first

/-- The calls of the thread that moves, after the moment. -/
theorem Extends.below (hc : c.Tracked) (h : c.Extends b μ) (hl : c.Linked) {k : Control}
    {fs : List (Frame H)} (hs : μ.after.stack? μ.call.thread = some (k, fs)) :
    (c.record μ).Below ((c.record μ).calls μ.call.thread) fs := by
  obtain ⟨is, rest, his, hb, ha⟩ := h.stack hc
  have hst := hc.stack _ _ _ hb
  have hbelow := hl.below _ _ _ hb
  rw [his] at hst hbelow
  have hnot : μ.call ∉ is := (List.nodup_cons.1 hst.nodup).1
  have hown : (c.record μ).calls μ.call.thread = μ.next.names μ.entered (μ.call :: is) := by
    simp only [Chronicle.record, Moment.calls, his, if_true]
  have hgo : ∀ f', (c.record μ).Below (μ.call :: is) (f' :: rest) := fun f' =>
    hbelow.record hnot rfl
  rw [hown]
  rw [ha] at hs
  cases hn : μ.next with
  | goto f => rw [hn] at hs; cases hs; exact hgo f
  | enter g f =>
    rw [hn] at hs
    cases hs
    exact (hgo f).enter (by rw [moments_record_self, List.getLast?_concat]) rfl hn
  | answer a | throw x => rw [hn] at hs; cases hs; exact (hgo μ.frame).tail
  | abort => rw [hn] at hs; cases hs; exact hgo μ.frame

/-- What the top call of the thread that moves has to deal with after the moment. -/
theorem Extends.told (hc : c.Reached b) (h : c.Extends b μ) (hl : c.Linked)
    (hab : μ.after.aborted = false) {k : Control} {fs : List (Frame H)} {i : CallId}
    (hs : μ.after.stack? μ.call.thread = some (k, fs))
    (hi : ((c.record μ).calls μ.call.thread).head? = some i) :
    (c.record μ).Told ((c.record μ).moments i).getLast? k := by
  obtain ⟨is, rest, his, hb, ha⟩ := h.stack hc.tracked
  have hst := hc.tracked.stack _ _ _ hb
  have hbelow := hl.below _ _ _ hb
  rw [his] at hst hbelow
  have hnot : μ.call ∉ is := (List.nodup_cons.1 hst.nodup).1
  have hown : (c.record μ).calls μ.call.thread = μ.next.names μ.entered (μ.call :: is) := by
    simp only [Chronicle.record, Moment.calls, his, if_true]
  rw [hown] at hi
  rw [ha] at hs
  cases hn : μ.next with
  | goto f =>
    rw [hn] at hs hi
    cases hs
    cases hi
    rw [moments_record_self, List.getLast?_concat]
    exact .own hn
  | enter g f =>
    rw [hn] at hs hi
    cases hs
    cases hi
    have hne := h.ne_entered hc.tracked (h.frame? hc.tracked)
    rw [moments_record_of_ne hne, hc.moments_eq_nil (by simp [Moment.entered, h.number])]
    exact .first
  | answer a | throw x =>
    rw [hn] at hs hi
    cases hs
    cases is with
    | nil => cases hi
    | cons i' is =>
      cases hi
      obtain ⟨f, fs', rfl⟩ : ∃ f fs', fs = f :: fs' := by
        cases fs with
        | nil => exact absurd hst.length (by simp)
        | cons f fs' => exact ⟨f, fs', rfl⟩
      -- The call under the one that ends has entered it at its last moment.
      obtain ⟨ν, g, hν, hj, hg⟩ := hbelow 0 _ _ _ rfl rfl rfl
      rw [moments_record_of_ne (List.ne_of_not_mem_cons hnot), hν]
      exact .callee hg mem_record_self hj.symm (by rw [hn]; rfl)
  | abort =>
    cases h.made with
    | step _ _ _ hafter => rw [hafter, hn] at hab; cases hab
    | wake _ _ hn' _ => rw [hn] at hn'; cases hn'

theorem Linked.record (hc : c.Reached b) (h : c.Extends b μ) (hl : c.Linked) :
    (c.record μ).Linked := by
  have ht := hc.tracked
  -- A call stands on one thread only, so the moments of other threads' calls are not its own.
  have hno : ∀ u, u ≠ μ.call.thread → μ.call ∉ c.calls u := fun u hu hi =>
    hu (ht.names hi).1.symm
  refine ⟨fun u k fs hu => ?_, fun hab u k fs i hu hi => ?_⟩
  · by_cases heq : u = μ.call.thread
    · subst heq
      exact h.below ht hl hu
    · rcases h.other ht heq hu with ⟨fs₀, hs, htail, hcalls⟩ | ⟨rfl, hcalls⟩ | ⟨-, hcalls⟩
      · rw [hcalls]
        exact (hl.below u k fs₀ hs).record (fun hm => hno u heq (List.mem_of_mem_tail hm)) htail
      · rw [hcalls]; exact .nil
      · rw [hcalls]; exact .singleton
  · have hbefore : c.machine.aborted = false := by
      rw [← h.before]
      exact h.made.not_aborted hab
    by_cases heq : u = μ.call.thread
    · subst heq
      exact h.told hc hl hab hu hi
    · rcases h.other ht heq hu with ⟨fs₀, hs, -, hcalls⟩ | ⟨-, hcalls⟩ | ⟨rfl, hcalls⟩
      · rw [hcalls] at hi
        rw [moments_record_of_ne fun he => hno u heq (he ▸ List.mem_of_head? hi)]
        exact (hl.top hbefore u k fs₀ i hs hi).mono fun ν hν => mem_record_of_mem hν
      · rw [hcalls] at hi; cases hi
      · rw [hcalls] at hi
        cases hi
        rw [moments_record_of_ne fun he => heq (by rw [he]), hc.moments_eq_nil (by simp [h.number])]
        exact .first

theorem Reached.linked (hc : c.Reached b) : c.Linked := by
  induction c, hc using Reached.induction with
  | start m hm => exact linked_start hm
  | record c μ hc hμ hc' ih => exact ih.record hc hμ

/-- The call on top of a thread, and what it has been told. -/
theorem Reached.top (hc : c.Reached b) {i : CallId} {f : Frame H} (hi : c.frame? i = some f)
    (htop : (c.calls i.thread).head? = some i) (hab : c.machine.aborted = false) :
    ∃ k rest token, c.machine.thread? i.thread = some ⟨k, f :: rest, token⟩ ∧
      (k = .go ∨ f.awaits = true) ∧ c.Told (c.moments i).getLast? k := by
  obtain ⟨is, his⟩ : ∃ is, c.calls i.thread = i :: is := by
    cases hcs : c.calls i.thread with
    | nil => rw [hcs] at htop; cases htop
    | cons j is => rw [hcs] at htop; cases htop; exact ⟨is, rfl⟩
  obtain ⟨st, hst, hl⟩ := Option.bind_eq_some_iff.1 hi
  obtain ⟨⟨k, frames, token⟩, ht, rfl⟩ := Option.map_eq_some_iff.1 hst
  rw [his] at hl
  cases frames with
  | nil => cases hl
  | cons g rest =>
    rw [List.zip_cons_cons, lookup_cons_name, if_pos rfl] at hl
    obtain rfl := Option.some.inj hl
    exact ⟨k, rest, token, ht, (hc.tracked.stack _ _ _ hst).control _ rfl,
      hc.linked.top hab _ _ _ _ hst htop⟩

/-! ## Work -/

/-- The work of a thread is not entered by a call. -/
theorem Reached.work (hc : c.Reached b) : ∀ i k, c.frame? i = some (.task k) →
    ∀ ν ∈ c.past, ∀ g, ν.next.callee? = some g → ν.entered ≠ i := by
  induction c, hc using Reached.induction with
  | start m hm =>
    intro i k _ ν hν
    cases hν
  | record c μ hc hμ hc' ih =>
    intro i k hi ν hν g hg heq
    have ht := hc.tracked
    -- What a moment enters is a call of the library or of the program, and no work.
    by_cases hi' : i = μ.entered
    · rw [hi', frame?_record_entered ht hμ] at hi
      exact (hμ.made.leads.enters hi).ne_task rfl
    · have hν : ν ∈ c.past := (mem_record.1 hν).resolve_right fun h => hi' (by rw [← heq, h])
      have hle : i.entry ≤ c.past.length := by
        obtain ⟨-, -, hle⟩ := hc.sound ν hν
        exact heq ▸ hle
      by_cases hic : i = μ.call
      · rw [hic, frame?_record_self ht hμ] at hi
        obtain ⟨k', hk'⟩ : ∃ k', μ.frame = .task k' := by
          rcases hμ.made.leads.sameCall hi with h | h
          · exact ⟨k, h⟩
          · exact h.of_task
        exact ih μ.call k' (by rw [hμ.frame? ht, hk']) ν hν g hg (heq.trans hic)
      · have hk := frame?_record_of_ne ht hμ hic hi'
        have hn := frame?_record_eq_none ht hμ hle
        generalize hx : c.frame? i = x at hk hn
        rw [hi] at hk hn
        cases hk with
        | same => exact ih i k hx ν hν g hg heq
        | work => cases hn rfl

/-- A call that was entered is not the work of a thread. -/
theorem Reached.entered_ne_task (hc : c.Reached b) : ∀ ρ ∈ c.past, ∀ ν ∈ c.past, ∀ g,
    ν.next.callee? = some g → ρ.call = ν.entered → ∀ k, ρ.frame ≠ .task k := by
  induction c, hc using Reached.induction with
  | start m hm =>
    intro ρ hρ
    cases hρ
  | record c μ hc hμ hc' ih =>
    intro ρ hρ ν hν g hg heq k hf
    obtain ⟨-, hlt, hle⟩ := hc'.sound ρ hρ
    have hnum : ρ.call.entry = ν.number := by rw [heq]; rfl
    rw [past_record, List.length_append, List.length_singleton] at hle
    have hμn := hμ.number
    rcases mem_record.1 hν with hν' | rfl
    · rcases mem_record.1 hρ with hρ' | rfl
      · exact ih ρ hρ' ν hν' g hg heq k hf
      · exact hc.work ρ.call k (by rw [hμ.frame? hc.tracked, hf]) ν hν' g hg heq.symm
    · omega

/-! ## Paths -/

/-- A way of a call from the stage at which it is entered: its moments, and where it is after them
if it is still in progress. -/
inductive Path (c : Chronicle H) (g : Frame H) : List (Moment H) → Option (Frame H) → Prop
  | nil : Path c g [] (some g)
  | snoc {l μ} (h : Path c g l (some μ.frame)) (hs : μ ∈ c.past)
    (ht : c.Told l.getLast? μ.control) :
    Path c g (l ++ [μ]) (μ.next.own μ.frame)

theorem Path.mono {c' : Chronicle H} {g : Frame H} {l : List (Moment H)} {x : Option (Frame H)}
    (h : ∀ ν ∈ c.past, ν ∈ c'.past) (hp : c.Path g l x) : c'.Path g l x := by
  induction hp with
  | nil => exact .nil
  | snoc _ hs ht ih => exact .snoc ih (h _ hs) (ht.mono h)

theorem Path.mem {g : Frame H} {l : List (Moment H)} {x : Option (Frame H)} (hp : c.Path g l x) :
    ∀ ν ∈ l, ν ∈ c.past := by
  induction hp with
  | nil =>
    intro ν hν
    cases hν
  | snoc _ hs _ ih => exact List.forall_mem_append.2 ⟨ih, List.forall_mem_singleton.2 hs⟩

/-- Only its own moments move a call that was entered as one that only they move. -/
theorem Path.steady {g : Frame H} {l : List (Moment H)} {x : Option (Frame H)} (hc : c.Reached b)
    (hp : c.Path g l x) (hg : g.steady = true) : ∀ f, x = some f → f.steady = true := by
  induction hp with
  | nil => exact fun f hf => Option.some.inj hf ▸ hg
  | @snoc l μ _ hs _ ih =>
    intro f hf
    have hμ := ih μ.frame rfl
    rcases (hc.sound μ hs).1.made.leads.sameCall hf with rfl | hsame
    · exact hμ
    · rw [hsame.steady_eq] at hμ
      exact hμ

/-- A call is at stages that its own steps lead to. -/
theorem Path.becomes {g : Frame H} {l : List (Moment H)} {x : Option (Frame H)} (hc : c.Reached b)
    (hp : c.Path g l x) : (∀ f, x = some f → g.Becomes f) ∧ ∀ ρ ∈ l, g.Becomes ρ.frame := by
  induction hp with
  | nil => exact ⟨fun f hf => by cases hf; exact .refl, fun ρ hρ => by cases hρ⟩
  | @snoc l μ _ hs _ ih =>
    have hμ := ih.1 μ.frame rfl
    refine ⟨fun f hf => ?_, List.forall_mem_append.2 ⟨ih.2, List.forall_mem_singleton.2 hμ⟩⟩
    rcases (hc.sound μ hs).1.made.leads.sameCall hf with rfl | hsame
    · exact hμ
    · exact hμ.step hsame

/-- A moment takes the path of a call on, if it is one of the call. -/
theorem Path.record {ν : Moment H} {g : Frame H} (hc : c.Reached b) (h : c.Extends b ν)
    (hp : c.Path g (c.moments μ.entered) (c.frame? μ.entered)) (hμ : μ ∈ c.past)
    (hg : g.steady = true) :
    (c.record ν).Path g ((c.record ν).moments μ.entered) ((c.record ν).frame? μ.entered) := by
  have ht := hc.tracked
  have hmono : ∀ ρ ∈ c.past, ρ ∈ (c.record ν).past := fun ρ hρ => mem_record_of_mem hρ
  -- Nothing but its own moments moves a steady call, and after its end nothing does.
  by_cases hi : ν.call = μ.entered
  · rw [← hi] at hp ⊢
    rw [h.frame? ht] at hp
    rw [moments_record_self, frame?_record_self ht h]
    refine (hp.mono hmono).snoc mem_record_self ?_
    obtain ⟨is, rest, his, hs, -⟩ := h.stack ht
    have hab : c.machine.aborted = false := by
      cases h.made with
      | step hn => rw [← h.before]; exact hn
      | wake _ hf => have := hp.steady hc hg _ rfl; rw [hf] at this; cases this
    exact (hc.linked.top hab _ _ _ _ hs (by rw [his]; rfl)).mono hmono
  · rw [moments_record_of_ne hi]
    cases hf : c.frame? μ.entered with
    | none =>
      obtain ⟨-, -, hle⟩ := hc.sound μ hμ
      rw [frame?_record_eq_none ht h hle hf]
      rw [hf] at hp
      exact hp.mono hmono
    | some f =>
      rw [hf] at hp
      rw [frame?_record_of_steady ht h hf (hp.steady hc hg f rfl) (Ne.symm hi)]
      exact hp.mono hmono

/-- A call that only its own moments move has gone a path from where it was entered to where it
is. -/
theorem Reached.path (hc : c.Reached b) : ∀ μ ∈ c.past, ∀ g, μ.next.callee? = some g →
    g.steady = true → c.Path g (c.moments μ.entered) (c.frame? μ.entered) := by
  induction c, hc using Reached.induction with
  | start m hm =>
    intro μ hμ
    cases hμ
  | record c ν hc hν hc' ih =>
    intro μ hμ g hg hst
    rcases mem_record.1 hμ with hμ | rfl
    · exact (ih μ hμ g hg hst).record hc hν hμ hst
    · have ht := hc.tracked
      have hne := hν.ne_entered ht (hν.frame? ht)
      rw [moments_record_of_ne hne, hc.moments_eq_nil (by simp [Moment.entered, hν.number]),
        frame?_record_entered ht hν, hg]
      exact .nil

/-- Every call but the work of a thread was entered at some moment. -/
theorem Reached.entered (hc : c.Reached b) : ∀ i f, c.frame? i = some f → f.steady = true →
    ∃ μ ∈ c.past, μ.entered = i ∧ ∃ g, μ.next.callee? = some g ∧ g.steady = true := by
  induction c, hc using Reached.induction with
  | start m hm =>
    intro i f hf hs
    obtain ⟨work, rfl⟩ := frame?_start hm hf
    cases hs
  | record c ν hc hν hc' ih =>
    intro i f hf hs
    have hold : ∀ i f, c.frame? i = some f → f.steady = true →
        ∃ μ ∈ (c.record ν).past,
          μ.entered = i ∧ ∃ g, μ.next.callee? = some g ∧ g.steady = true := by
      intro i f hf hs
      obtain ⟨μ, hμ, h⟩ := ih i f hf hs
      exact ⟨μ, mem_record_of_mem hμ, h⟩
    rcases steady_record hc.tracked hν hf hs with ⟨rfl, hown⟩ | ⟨rfl, hcal⟩ | ⟨-, -, hf⟩
    · refine hold _ _ (hν.frame? hc.tracked) ?_
      rcases hν.made.leads.sameCall hown with h | h
      · rw [h]; exact hs
      · rw [h.steady_eq]; exact hs
    · exact ⟨ν, mem_record_self, rfl, f, hcal, hs⟩
    · exact hold i f hf hs

theorem Reached.path_of_moment (hc : c.Reached b) : ∀ ν ∈ c.past, ν.frame.steady = true →
    ∃ g, c.Path g (c.moments ν.call) (c.frame? ν.call) ∧
      ∃ μ ∈ c.past, μ.entered = ν.call ∧ μ.next.callee? = some g := by
  intro ν hν hs
  obtain ⟨c₀, hc₀, h, hmono, -⟩ := hc.extends_of_mem hν
  obtain ⟨μ, hμ, hi, g, hg, hgs⟩ := hc₀.entered _ _ (h.frame? hc₀.tracked) hs
  exact ⟨g, hi ▸ hc.path μ (hmono μ hμ) g hg hgs, μ, hmono μ hμ, hi, hg⟩

/-- A moment after which a call is over is the last one of the call. -/
theorem Path.last_of_over {g : Frame H} {l : List (Moment H)} {x : Option (Frame H)}
    (hp : c.Path g l x) {ρ : Moment H} (hρ : ρ ∈ l) (hn : ρ.next.own ρ.frame = none) :
    l.getLast? = some ρ ∧ x = none := by
  induction hp with
  | nil => cases hρ
  | @snoc l μ _ _ _ ih =>
    rcases List.mem_append.1 hρ with hρ | hρ
    · have := (ih hρ).2
      cases this
    · obtain rfl := List.mem_singleton.1 hρ
      exact ⟨List.getLast?_concat, hn⟩

/-- Each moment of a call is its first one, or it goes on from one before it. -/
theorem Path.previous {g : Frame H} {l : List (Moment H)} {x : Option (Frame H)}
    (hp : c.Path g l x) : ∀ ρ ∈ l, ρ.frame = g ∧ ρ.control = .go ∨
      ∃ ν ∈ l, ν.next.own ν.frame = some ρ.frame ∧ c.Told (some ν) ρ.control := by
  induction hp with
  | nil => exact fun ρ hρ => by cases hρ
  | @snoc l μ hp _ ht ih =>
    intro ρ hρ
    rcases List.mem_append.1 hρ with hρ | hρ
    · rcases ih ρ hρ with h | ⟨ν, hν, h⟩
      · exact .inl h
      · exact .inr ⟨ν, List.mem_append_left _ hν, h⟩
    · obtain rfl := List.mem_singleton.1 hρ
      generalize hx : some ρ.frame = x, hk : ρ.control = k at hp ht
      cases hp with
      | nil =>
        cases ht
        exact .inl ⟨Option.some.inj hx, rfl⟩
      | @snoc l ν =>
        rw [List.getLast?_concat] at ht
        exact .inr ⟨ν, List.mem_append_left _ List.mem_concat_self, rfl, ht⟩

/-- Each moment of a call is its last one so far, or the call goes on from it. -/
theorem Path.following {g : Frame H} {l : List (Moment H)} {x : Option (Frame H)}
    (hp : c.Path g l x) : ∀ ρ ∈ l, l.getLast? = some ρ ∧ x = ρ.next.own ρ.frame ∨
      ∃ ν ∈ l, ρ.next.own ρ.frame = some ν.frame ∧ c.Told (some ρ) ν.control := by
  induction hp with
  | nil => exact fun ρ hρ => by cases hρ
  | @snoc l μ _ _ ht ih =>
    intro ρ hρ
    rcases List.mem_append.1 hρ with hρ | hρ
    · rcases ih ρ hρ with ⟨hlast, hx⟩ | ⟨ν, hν, h⟩
      · exact .inr ⟨μ, List.mem_concat_self, hx.symm, hlast ▸ ht⟩
      · exact .inr ⟨ν, List.mem_append_left _ hν, h⟩
    · obtain rfl := List.mem_singleton.1 hρ
      exact .inl ⟨List.getLast?_concat, rfl⟩

/-- A call that is over has no more moments. -/
theorem moments_of_over {c' : Chronicle H} (hc : c.Reached b) (hl : c.Reaches b c') {i : CallId}
    (hi : i.entry ≤ c.past.length) (hn : c.frame? i = none) :
    c'.moments i = c.moments i ∧ c'.frame? i = none ∧ i.entry ≤ c'.past.length := by
  induction hl with
  | refl => exact ⟨rfl, hn, hi⟩
  | tail e hl he ih =>
    obtain ⟨hm, hn', hi'⟩ := ih
    have ht := (hc.reaches hl).tracked
    obtain ⟨μ, hμ, rfl⟩ := exists_extends_of_turn? ht he
    have hne : μ.call ≠ i := by
      intro h
      have := hμ.frame? ht
      rw [h, hn'] at this
      cases this
    refine ⟨by rw [moments_record_of_ne hne, hm], frame?_record_eq_none ht hμ hi' hn', ?_⟩
    rw [past_record, List.length_append]
    omega

end Chronicle

end OneShot
