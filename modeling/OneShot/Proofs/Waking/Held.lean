import OneShot.Proofs.Waking.Waits

/-!
# What a waker set holds

A promise's waker set holds one waker for each wait that is polled and not dropped: the one that the
polls of that wait have left.

- **Keys** (`Held.given`, `Held.unique`): a key that was given to one wait is never given to
  another.
- **Dropped waits** (`Held.removing`): what is about to be removed belonged to a wait that was
  dropped.
- **Waits that are kept** (`Keeps`): all polls of such a wait have used one key, and what is found
  under it until the set is taken is what these polls have left there.

All of this holds in every run (`Reached.held`). Keys are numbers, and how great they become is
bounded by the number of polls (`Reached.last_le_countP`).
-/

namespace OneShot

variable {H : Host} {b : Behaviour H}

/-- Whether a poll comes to register its waker at a moment. -/
def Moment.registers (μ : Moment H) : Bool := μ.frame matches .polling _ _ .register

namespace Chronicle

variable {c : Chronicle H} {μ : Moment H} {p : PromiseId} {v : WaitId}

/-- What is held for wait `v` on `p`, which is not dropped. -/
inductive Keeps (c : Chronicle H) (p : PromiseId) (v : WaitId) (wait : Wait) : Prop
  | fresh (h : c.pends v = [])
  | held {k pr} (hne : c.pends v ≠ []) (hk : ∀ e ∈ c.pends v, e.1 = k)
    (hp : c.machine.cells? p = some pr)
    (hw : wait.key = some k ∨ wait.key = none ∧ c.machine.isDone p = true)
    (hs : pr.wakers.data.taken = false →
      pr.wakers.data.get? k = WakerSet.slot H.sameTask ((c.pends v).map Prod.snd))

/-- What the waker set of `p` holds for the waits on `p`. -/
structure Held (c : Chronicle H) (p : PromiseId) : Prop where
  sound : ∀ pr, c.machine.cells? p = some pr → pr.wakers.data.Sound
  given : ∀ v wait, c.machine.wait? v = some wait → wait.promise = p → ∀ e ∈ c.pends v,
    ∃ pr, c.machine.cells? p = some pr ∧ e.1 ≤ pr.wakers.data.last
  unique : ∀ v v' wait wait', c.machine.wait? v = some wait → wait.promise = p →
    c.machine.wait? v' = some wait' → wait'.promise = p →
    ∀ e ∈ c.pends v, ∀ e' ∈ c.pends v', e.1 = e'.1 → v = v'
  noted : ∀ v wait, c.machine.wait? v = some wait → wait.promise = p → ∀ k, wait.key = some k →
    ∃ e ∈ c.pends v, e.1 = k
  removing : ∀ i k g, c.frame? i = some (.removing p k g) → ∃ v wait,
    c.machine.wait? v = some wait ∧ wait.promise = p ∧ wait.dropped = true ∧
      ∃ e ∈ c.pends v, e.1 = k
  kept : ∀ v wait, c.machine.wait? v = some wait → wait.promise = p → wait.dropped = false →
    c.Keeps p v wait

/-- A wait that does not exist has left nothing. -/
theorem Reached.pends_eq_nil (hc : c.Reached b) (hv : c.machine.wait? v = none) :
    c.pends v = [] := by
  induction c, hc using Reached.induction with
  | start m hm => rfl
  | record c μ hc hμ hc' ih =>
    change μ.after.wait? v = none at hv
    have hbefore : c.machine.wait? v = none := by
      cases hw : c.machine.wait? v with
      | none => rfl
      | some wait =>
        obtain ⟨wait', hw', -⟩ := hμ.wait hw
        rw [hv] at hw'
        cases hw'
    have hnone : μ.pend? v = none := by
      unfold Moment.pend?
      split
      · rw [hv]
        split <;> rfl
      · rfl
    rw [pends_record_of_none hnone]
    exact ih hbefore

/-! ## The set at a moment -/

/-- What a moment after `c` does to the waker set of `p`. -/
inductive SetMoves (c : Chronicle H) (μ : Moment H) (p : PromiseId)
    (s : WakerSet (H.Closure .waker)) : WakerSet (H.Closure .waker) → Prop
  | same : SetMoves c μ p s s
  | take : SetMoves c μ p s s.takeAll.1
  | register {v x wait done} (hf : μ.frame = .polling v x .register)
    (hw : c.machine.wait? v = some wait) (hp : wait.promise = p) :
    SetMoves c μ p s (s.register H.sameTask wait.key x done).1
  | remove {k} (hf : μ.frame = .removing p k .work) : SetMoves c μ p s (s.remove k)

theorem Extends.set_moves (h : c.Extends b μ) {pr pr' : Promise H}
    (hp : c.machine.cells? p = some pr) (hp' : μ.after.cells? p = some pr') :
    SetMoves c μ p pr.wakers.data pr'.wakers.data := by
  have hch := h.made.effect.promise p
  rw [h.before, hp, hp'] at hch
  generalize hf : μ.frame = f, μ.next = n at hch
  cases hch with
  | takeWakers => exact .take
  | register hw hq => exact .register hf hw hq
  | remove => exact .remove hf
  | _ => exact .same

theorem SetMoves.last_le {s s' : WakerSet (H.Closure .waker)} (h : SetMoves c μ p s s') :
    s.last ≤ s'.last := by
  cases h with
  | same | take | remove => exact Nat.le_refl _
  | register => exact (s.last_register ..).1

/-- Only a poll that registers its waker is given a key, and one is enough for it. -/
theorem SetMoves.last_le_succ {s s' : WakerSet (H.Closure .waker)} (h : SetMoves c μ p s s') :
    s'.last ≤ s.last + if μ.registers then 1 else 0 := by
  cases h with
  | same | take | remove => exact Nat.le_add_right _ _
  | register hf =>
    rw [if_pos (by rw [Moment.registers, hf])]
    exact (s.last_register ..).2

theorem Extends.last_le (h : c.Extends b μ) {pr : Promise H} (hp : c.machine.cells? p = some pr) :
    ∃ pr', μ.after.cells? p = some pr' ∧ pr.wakers.data.last ≤ pr'.wakers.data.last := by
  have hch := h.made.effect.promise p
  rw [h.before, hp] at hch
  obtain ⟨pr', hp'⟩ := hch.exists_after
  exact ⟨pr', hp', (h.set_moves hp hp').last_le⟩

end Chronicle

theorem Wait.Moves.of_some {c : Chronicle H} {μ : Moment H} {v : WaitId} {wait wait' : Wait}
    {es : List (Nat × H.Closure .waker)} (h : Wait.Moves c μ v (some wait) wait' es) :
    wait'.promise = wait.promise ∧ (wait'.dropped = false → wait.dropped = false) := by
  cases h with
  | same | pend | refuse => exact ⟨rfl, id⟩
  | drop => exact ⟨rfl, nofun⟩

namespace Chronicle

variable {c : Chronicle H} {μ : Moment H} {p : PromiseId} {v : WaitId}

/-- A wait after a moment: new, or moved on. -/
theorem Extends.wait_after (hc : c.Reached b) (h : c.Extends b μ) {wait' : Wait}
    (hw' : μ.after.wait? v = some wait') :
    wait'.key = none ∧ (c.record μ).pends v = [] ∨
      ∃ wait es, c.machine.wait? v = some wait ∧ wait'.promise = wait.promise ∧
        Wait.Moves c μ v (some wait) wait' es ∧ (c.record μ).pends v = c.pends v ++ es := by
  obtain ⟨es, hm, hes⟩ := h.wait_moves hc hw'
  cases hw : c.machine.wait? v with
  | none =>
    rw [hw] at hm
    cases hm
    exact .inl ⟨rfl, by rw [hes, hc.pends_eq_nil hw]; rfl⟩
  | some wait =>
    rw [hw] at hm
    exact .inr ⟨wait, es, rfl, hm.of_some.1, hm, hes⟩

/-! ## Keys -/

/-- The key under which a poll leaves its waker: that of the wait, or the next one. -/
theorem Held.key_of_pend (hh : c.Held p) {wait : Wait} {pr : Promise H} {x : H.Closure .waker}
    {done : Bool} {k : Nat} (hw : c.machine.wait? v = some wait) (hwp : wait.promise = p)
    (hk : (pr.wakers.data.register H.sameTask wait.key x done).2 = some k) :
    (∃ e ∈ c.pends v, e.1 = k) ∨ wait.key = none ∧ k = pr.wakers.data.last + 1 := by
  rcases WakerSet.register_eq_some hk with ⟨-, -, ⟨hkey, -⟩ | ⟨hkey, hn, -⟩⟩
  · exact .inl (hh.noted v wait hw hwp k hkey)
  · exact .inr ⟨hkey, hn⟩

theorem Held.sound_record (h : c.Extends b μ) (hh : c.Held p) (pr' : Promise H)
    (hp' : μ.after.cells? p = some pr') : pr'.wakers.data.Sound := by
  cases hp : c.machine.cells? p with
  | none =>
    have hch := h.made.effect.promise p
    rw [h.before, hp, hp'] at hch
    generalize μ.frame = f, μ.next = n at hch
    cases hch
    exact WakerSet.sound_empty
  | some pr =>
    have hs := hh.sound pr hp
    have hm := h.set_moves hp hp'
    generalize pr'.wakers.data = s' at hm
    cases hm with
    | same => exact hs
    | take => exact hs.takeAll
    | remove => exact hs.remove _
    | @register u x wait done hf hw hwp =>
      -- A key that a wait has noted was given by the set, so it is no larger than the last.
      refine hs.register fun k hk => ?_
      obtain ⟨e, he, rfl⟩ := hh.noted u wait hw hwp k hk
      obtain ⟨pr₁, hp₁, hle⟩ := hh.given u wait hw hwp e he
      rw [hp] at hp₁
      cases hp₁
      exact hle

theorem Held.given_record (hc : c.Reached b) (h : c.Extends b μ) (hh : c.Held p) {wait' : Wait}
    (hw' : μ.after.wait? v = some wait') (hwp' : wait'.promise = p) :
    ∀ e ∈ (c.record μ).pends v, ∃ pr, μ.after.cells? p = some pr ∧ e.1 ≤ pr.wakers.data.last := by
  intro e he
  rcases h.wait_after hc hw' with ⟨-, hes⟩ | ⟨wait, es, hw, hpe, hm, hes⟩
  · rw [hes] at he
    cases he
  · have hwp : wait.promise = p := hpe ▸ hwp'
    have hold : ∀ e ∈ c.pends v, ∃ pr, μ.after.cells? p = some pr ∧ e.1 ≤ pr.wakers.data.last := by
      intro e he
      obtain ⟨pr, hp, hle⟩ := hh.given v wait hw hwp e he
      obtain ⟨pr', hp', hle'⟩ := h.last_le hp
      exact ⟨pr', hp', Nat.le_trans hle hle'⟩
    rw [hes] at he
    rcases List.mem_append.1 he with he | he
    · exact hold e he
    · obtain ⟨pr, -, hp, hk, hp'⟩ := hm.pend_of_mem he
      -- The key of an earlier poll, which the set has given out before, or the next new one.
      rcases hh.key_of_pend hw hwp hk with ⟨e₀, he₀, hk₀⟩ | ⟨hkey, hlast⟩
      · obtain ⟨pr', hp₁, hle⟩ := hold e₀ he₀
        exact ⟨pr', hp₁, hk₀ ▸ hle⟩
      · rw [hwp] at hp'
        refine ⟨_, hp', ?_⟩
        rcases WakerSet.register_eq_some hk with ⟨-, -, ⟨hsome, -⟩ | ⟨-, -, hl⟩⟩
        · rw [hkey] at hsome
          cases hsome
        · exact Nat.le_of_eq hl.symm

/-- A key that a poll of `v` is given has not been given to another wait. -/
theorem Held.eq_of_pend (hh : c.Held p) {v' : WaitId} {wait wait' : Wait} {pr : Promise H}
    {x : H.Closure .waker} {done : Bool} {k : Nat} (hw : c.machine.wait? v = some wait)
    (hwp : wait.promise = p) (hw' : c.machine.wait? v' = some wait') (hwp' : wait'.promise = p)
    (hp : c.machine.cells? p = some pr)
    (hk : (pr.wakers.data.register H.sameTask wait.key x done).2 = some k)
    {e : Nat × H.Closure .waker} (he : e ∈ c.pends v') (hek : e.1 = k) : v = v' := by
  rcases hh.key_of_pend hw hwp hk with ⟨e₀, he₀, hk₀⟩ | ⟨-, hlast⟩
  · exact hh.unique v v' wait wait' hw hwp hw' hwp' e₀ he₀ e he (hk₀.trans hek.symm)
  · obtain ⟨pr₁, hp₁, hle⟩ := hh.given v' wait' hw' hwp' e he
    rw [hp] at hp₁
    cases hp₁
    omega

theorem Held.unique_record (hc : c.Reached b) (h : c.Extends b μ) (hh : c.Held p) {v' : WaitId}
    {wait wait' : Wait} (hw : μ.after.wait? v = some wait) (hwp : wait.promise = p)
    (hw' : μ.after.wait? v' = some wait') (hwp' : wait'.promise = p) :
    ∀ e ∈ (c.record μ).pends v, ∀ e' ∈ (c.record μ).pends v', e.1 = e'.1 → v = v' := by
  intro e he e' he' heq
  rcases h.wait_after hc hw with ⟨-, hes⟩ | ⟨wait₀, es, hw₀, hpe, hm, hes⟩
  · rw [hes] at he
    cases he
  rcases h.wait_after hc hw' with ⟨-, hes'⟩ | ⟨wait₀', es', hw₀', hpe', hm', hes'⟩
  · rw [hes'] at he'
    cases he'
  have hp₀ : wait₀.promise = p := hpe ▸ hwp
  have hp₀' : wait₀'.promise = p := hpe' ▸ hwp'
  rw [hes] at he
  rw [hes'] at he'
  rcases List.mem_append.1 he with he | he <;> rcases List.mem_append.1 he' with he' | he'
  · exact hh.unique v v' wait₀ wait₀' hw₀ hp₀ hw₀' hp₀' e he e' he' heq
  · obtain ⟨pr, -, hp, hk, -⟩ := hm'.pend_of_mem he'
    exact (hh.eq_of_pend hw₀' hp₀' hw₀ hp₀ (hp₀' ▸ hp) hk he heq).symm
  · obtain ⟨pr, -, hp, hk, -⟩ := hm.pend_of_mem he
    exact hh.eq_of_pend hw₀ hp₀ hw₀' hp₀' (hp₀ ▸ hp) hk he' heq.symm
  · -- One moment is of one poll.
    obtain ⟨-, hf, -⟩ := hm.pend_of_mem he
    obtain ⟨-, hf', -⟩ := hm'.pend_of_mem he'
    rw [hf] at hf'
    injection hf'

theorem Held.noted_record (hc : c.Reached b) (h : c.Extends b μ) (hh : c.Held p) {wait' : Wait}
    (hw' : μ.after.wait? v = some wait') (hwp' : wait'.promise = p) {k : Nat}
    (hkey : wait'.key = some k) : ∃ e ∈ (c.record μ).pends v, e.1 = k := by
  rcases h.wait_after hc hw' with ⟨hnone, -⟩ | ⟨wait, es, hw, hpe, hm, hes⟩
  · rw [hnone] at hkey
    cases hkey
  · rw [hes]
    cases hm with
    | same =>
      obtain ⟨e, he, hk⟩ := hh.noted v wait' hw hwp' k hkey
      exact ⟨e, List.mem_append_left _ he, hk⟩
    | pend =>
      cases hkey
      exact ⟨_, List.mem_concat_self, rfl⟩
    | refuse | drop => cases hkey

/-! ## Dropped waits -/

/-- A wait that is dropped and the keys that it was given are still there after a moment. -/
theorem Extends.dropped (hc : c.Reached b) (h : c.Extends b μ) {k : Nat}
    (hd : ∃ v wait, c.machine.wait? v = some wait ∧ wait.promise = p ∧ wait.dropped = true ∧
      ∃ e ∈ c.pends v, e.1 = k) :
    ∃ v wait, μ.after.wait? v = some wait ∧ wait.promise = p ∧ wait.dropped = true ∧
      ∃ e ∈ (c.record μ).pends v, e.1 = k := by
  obtain ⟨v, wait, hw, hwp, hdrop, e, he, hk⟩ := hd
  obtain ⟨wait', hw', hpe⟩ := h.wait hw
  obtain ⟨es, hm, hes⟩ := h.wait_moves hc hw'
  rw [hw] at hm
  refine ⟨v, wait', hw', hpe.trans hwp, ?_, e, by rw [hes]; exact List.mem_append_left _ he, hk⟩
  cases hx : wait'.dropped with
  | true => rfl
  | false => rw [hm.of_some.2 hx] at hdrop; cases hdrop

/-- A call that is about to remove a waker was so before a moment, or drops the wait at it that has
the key. -/
theorem Extends.removes (ht : c.Tracked) (h : c.Extends b μ) {i : CallId} {k : Nat} {g : Guarded}
    (hi : (c.record μ).frame? i = some (.removing p k g)) :
    (∃ g', c.frame? i = some (.removing p k g')) ∨
      i = μ.call ∧ ∃ v wait, μ.frame = .dropping v ∧ c.machine.wait? v = some wait ∧
        wait.promise = p ∧ wait.key = some k := by
  rcases steady_record ht h hi rfl with ⟨rfl, hown⟩ | ⟨-, hcal⟩ | ⟨-, -, hold⟩
  · -- A removal goes on from itself, or from the drop of a wait with a key.
    have hback : (∃ g', μ.frame = .removing p k g') ∨ ∃ w, μ.frame = .dropping w := by
      rcases h.made.leads.sameCall hown with hs | hs
      · exact .inl ⟨g, hs⟩
      · exact hs.of_removing
    rcases hback with ⟨g', hf⟩ | ⟨w, hf⟩
    · exact .inl ⟨g', by rw [h.frame? ht, hf]⟩
    · have hd := (h.sound ht).dropping hf
      rw [h.before] at hd
      generalize μ.next = n at hd hown
      cases hd with
      | bare => cases hown
      | keyed hw hkey =>
        cases hown
        exact .inr ⟨rfl, w, _, hf, hw, rfl, hkey⟩
  · exact absurd rfl (h.made.leads.enters hcal).ne_removing
  · exact .inl ⟨g, hold⟩

theorem Held.removing_record (hc : c.Reached b) (h : c.Extends b μ) (hh : c.Held p) {i : CallId}
    {k : Nat} {g : Guarded} (hi : (c.record μ).frame? i = some (.removing p k g)) :
    ∃ v wait, μ.after.wait? v = some wait ∧ wait.promise = p ∧ wait.dropped = true ∧
      ∃ e ∈ (c.record μ).pends v, e.1 = k := by
  rcases h.removes hc.tracked hi with ⟨g', hold⟩ | ⟨-, v, wait, hf, hw, hwp, hkey⟩
  · exact h.dropped hc (hh.removing i k g' hold)
  · have hd := (h.sound hc.tracked).dropping hf
    rw [h.before] at hd
    obtain ⟨e, he, hk⟩ := hh.noted v wait hw hwp k hkey
    generalize μ.next = n at hd
    cases hd with
    | bare hw' _ hwa | keyed hw' _ hwa =>
      cases Option.some.inj (hw.symm.trans hw')
      obtain ⟨es, -, hes⟩ := h.wait_moves hc hwa
      exact ⟨v, _, hwa, hwp, rfl, e, by rw [hes]; exact List.mem_append_left _ he, hk⟩

/-! ## Waits that are kept -/

/-- What is found under a key of a wait stays as it is at a moment that is not its poll's, unless
the key is removed or the set is taken. -/
theorem Held.get?_cases (hh : c.Held p) {wait : Wait} (hw : c.machine.wait? v = some wait)
    (hwp : wait.promise = p) (hf : ∀ x, μ.frame ≠ .polling v x .register)
    {e : Nat × H.Closure .waker} (he : e ∈ c.pends v) {pr : Promise H}
    (hp : c.machine.cells? p = some pr) {s' : WakerSet (H.Closure .waker)}
    (hm : SetMoves c μ p pr.wakers.data s') :
    s'.taken = pr.wakers.data.taken ∧ s'.get? e.1 = pr.wakers.data.get? e.1 ∨
      s' = pr.wakers.data.takeAll.1 ∨
      μ.frame = .removing p e.1 .work ∧ s' = pr.wakers.data.remove e.1 := by
  cases hm with
  | same => exact .inl ⟨rfl, rfl⟩
  | take => exact .inr (.inl rfl)
  | @remove k hrem =>
    by_cases hk : e.1 = k
    · exact .inr (.inr ⟨hk ▸ hrem, by rw [hk]⟩)
    · exact .inl ⟨rfl, by rw [WakerSet.get?_remove, if_neg hk]⟩
  -- A registration changes one entry, and the key of that belongs to the wait which polls.
  | @register u x wait' done hreg hu hup =>
    cases hk : (pr.wakers.data.register H.sameTask wait'.key x done).2 with
    | none =>
      rw [(WakerSet.register_refused hk).1]
      exact .inl ⟨rfl, rfl⟩
    | some n =>
      obtain ⟨hopen, ht, -⟩ := WakerSet.register_eq_some hk
      refine .inl ⟨ht.trans (Bool.or_eq_false_iff.1 hopen).1.symm, ?_⟩
      rw [WakerSet.get?_register hk, if_neg]
      intro hen
      obtain rfl := hh.eq_of_pend hu hup hw hwp hp hk he hen
      exact hf x hreg

/-- A moment of another call leaves what is found under the key of a wait that is not dropped,
unless it takes the set. -/
theorem Held.get?_eq (hc : c.Reached b) (h : c.Extends b μ) (hh : c.Held p) {wait : Wait}
    (hw : c.machine.wait? v = some wait) (hwp : wait.promise = p) (hd : wait.dropped = false)
    (hf : ∀ x, μ.frame ≠ .polling v x .register) {e : Nat × H.Closure .waker} (he : e ∈ c.pends v)
    {pr : Promise H} (hp : c.machine.cells? p = some pr) {s' : WakerSet (H.Closure .waker)}
    (hm : SetMoves c μ p pr.wakers.data s') (ht : s'.taken = false) :
    pr.wakers.data.taken = false ∧ s'.get? e.1 = pr.wakers.data.get? e.1 := by
  rcases hh.get?_cases hw hwp hf he hp hm with ⟨htaken, hget⟩ | rfl | ⟨hrem, -⟩
  · exact ⟨htaken ▸ ht, hget⟩
  · cases ht
  · -- Only the key of a wait that is dropped is removed.
    obtain ⟨u, wait', hu, hup, hdrop, e', he', hk'⟩ :=
      hh.removing μ.call e.1 .work (by rw [h.frame? hc.tracked, hrem])
    obtain rfl := hh.unique v u wait wait' hw hwp hu hup e he e' he' hk'.symm
    rw [hw] at hu
    cases hu
    rw [hd] at hdrop
    cases hdrop

/-- What is found under the key that a poll is given is what the earlier polls of its wait have
left there, if there were any. -/
theorem Held.slot_of_pend (hh : c.Held p) {wait : Wait} (hw : c.machine.wait? v = some wait)
    (hwp : wait.promise = p) (hkept : c.Keeps p v wait) {pr : Promise H} {x : H.Closure .waker}
    {k : Nat} (hp : c.machine.cells? p = some pr)
    (hreg : (pr.wakers.data.register H.sameTask wait.key x pr.isDone).2 = some k) :
    (∀ e ∈ c.pends v, e.1 = k) ∧
      pr.wakers.data.get? k = WakerSet.slot H.sameTask ((c.pends v).map Prod.snd) := by
  obtain ⟨hclosed, -, hgiven⟩ := WakerSet.register_eq_some hreg
  obtain ⟨htaken, hopen⟩ := Bool.or_eq_false_iff.1 hclosed
  cases hkept with
  | fresh hnil =>
    refine ⟨fun e he => absurd (hnil ▸ he) List.not_mem_nil, ?_⟩
    rcases hh.key_of_pend hw hwp hreg with ⟨e, he, -⟩ | ⟨-, hlast⟩
    · rw [hnil] at he
      cases he
    · rw [hnil, (hh.sound pr hp).get?_eq_none (by omega)]
      rfl
  | held hne hk hpr hkey hs =>
    rw [hp] at hpr
    cases hpr
    rcases hkey with hkey | ⟨-, hdone⟩
    · rcases hgiven with ⟨hsome, -⟩ | ⟨hnone, -⟩
      · rw [hkey] at hsome
        cases hsome
        exact ⟨hk, hs htaken⟩
      · rw [hkey] at hnone
        cases hnone
    · -- A promise that is done hands out no more keys.
      obtain ⟨pr₁, hp₁, hd₁⟩ := Machine.isDone_iff_cells?.1 hdone
      rw [hp] at hp₁
      cases hp₁
      rw [hopen] at hd₁
      cases hd₁

theorem Held.kept_record (hc : c.Reached b) (h : c.Extends b μ) (hh : c.Held p) {wait' : Wait}
    (hw' : μ.after.wait? v = some wait') (hwp' : wait'.promise = p) (hd : wait'.dropped = false) :
    (c.record μ).Keeps p v wait' := by
  rcases h.wait_after hc hw' with ⟨-, hes⟩ | ⟨wait, es, hw, hpe, hm, hes⟩
  · exact .fresh hes
  have hwp : wait.promise = p := hpe ▸ hwp'
  have hkept := hh.kept v wait hw hwp (hm.of_some.2 hd)
  -- A poll may register or be refused; any other moment leaves the wait and its entry alone.
  cases hm with
  | drop => cases hd
  | refuse hf hp hdone =>
    rw [List.append_nil] at hes
    cases hkept with
    | fresh hnil => exact .fresh (hes.trans hnil)
    | held hne hk hpr _ hs =>
      rw [hwp] at hp hdone
      exact .held (hes ▸ hne) (hes ▸ hk) (hp.trans hpr) (.inr ⟨rfl, h.isDone hc hdone⟩)
        (by rw [hes]; exact hs)
  | same hf =>
    rw [List.append_nil] at hes
    cases hkept with
    | fresh hnil => exact .fresh (hes.trans hnil)
    | @held k pr hne hk hpr hkey hs =>
      obtain ⟨pr', hpr', -⟩ := h.last_le hpr
      refine .held (hes ▸ hne) (hes ▸ hk) hpr' (hkey.imp_right fun hd => ⟨hd.1, h.isDone hc hd.2⟩)
        fun ht => ?_
      obtain ⟨e, he⟩ := List.exists_mem_of_ne_nil _ hne
      obtain ⟨ht, hget⟩ := hh.get?_eq hc h hw hwp hd hf he hpr (h.set_moves hpr hpr') ht
      rw [hes, ← hk e he, hget, hk e he]
      exact hs ht
  | @pend _ x pr k hf hp hreg hp' =>
    rw [hwp] at hp hp'
    obtain ⟨hall, hslot⟩ := hh.slot_of_pend hw hwp hkept hp hreg
    have hall' : ∀ e ∈ (c.record μ).pends v, e.1 = k := by
      rw [hes]
      exact List.forall_mem_append.2 ⟨hall, List.forall_mem_singleton.2 rfl⟩
    refine .held (by rw [hes]; simp) hall' hp' (.inl rfl) fun _ => ?_
    rw [hes, List.map_append, List.map_singleton, WakerSet.slot_concat, ← hslot]
    exact (WakerSet.get?_register hreg k).trans (if_pos rfl)

theorem held_start {m : Machine H} (hm : m.Initial) (p : PromiseId) : (start m).Held p := by
  have hcells : (start m).machine.cells? p = none := by
    simp [start, Machine.cells?, Machine.promise?, hm.promises]
  have hwait : ∀ v wait, (start m).machine.wait? v ≠ some wait := by
    simp [start, Machine.wait?, hm.waits]
  refine ⟨fun pr hp => ?_, fun v _ hw => absurd hw (hwait _ _),
    fun v _ _ _ hw => absurd hw (hwait _ _), fun v _ hw => absurd hw (hwait _ _),
    fun i k g hi => ?_, fun v _ hw => absurd hw (hwait _ _)⟩
  · rw [hcells] at hp
    cases hp
  · obtain ⟨work, hwork⟩ := frame?_start hm hi
    cases hwork

/-- What the waker set of a promise holds, in every run. -/
theorem Reached.held (hc : c.Reached b) (p : PromiseId) : c.Held p := by
  induction c, hc using Reached.induction with
  | start m hm => exact held_start hm p
  | record c μ hc hμ hc' ih =>
    exact ⟨ih.sound_record hμ, fun v wait hw hwp => ih.given_record hc hμ hw hwp,
      fun v v' wait wait' hw hwp hw' hwp' => ih.unique_record hc hμ hw hwp hw' hwp',
      fun v wait hw hwp k hk => ih.noted_record hc hμ hw hwp hk,
      fun i k g hi => ih.removing_record hc hμ hi,
      fun v wait hw hwp hd => ih.kept_record hc hμ hw hwp hd⟩

/-! ## How great keys become -/

/-- No promise hands out more keys than there are polls that come to register their waker. So with
fewer than `2 ^ 64` of these, all keys fit into 64 bits. -/
theorem Reached.last_le_countP (hc : c.Reached b) {pr : Promise H}
    (hp : c.machine.cells? p = some pr) :
    pr.wakers.data.last ≤ c.past.countP Moment.registers := by
  induction c, hc using Reached.induction generalizing pr with
  | start m hm =>
    have hnone : m.cells? p = none := by simp [Machine.cells?, Machine.promise?, hm.promises]
    cases hnone.symm.trans hp
  | record c μ hc hμ hc' ih =>
    rw [past_record, List.countP_append, List.countP_singleton]
    change μ.after.cells? p = some pr at hp
    cases hp₀ : c.machine.cells? p with
    | none =>
      have hch := hμ.made.effect.promise p
      rw [hμ.before, hp₀, hp] at hch
      generalize μ.frame = f, μ.next = n at hch
      cases hch
      exact Nat.zero_le _
    | some pr₀ =>
      exact Nat.le_trans (hμ.set_moves hp₀ hp).last_le_succ (Nat.add_le_add_right (ih hp₀) _)

end Chronicle

end OneShot
