import OneShot.Proofs.Completion.Ending
import OneShot.Proofs.Reading.Sleep

/-!
# What a completion leaves behind

When the winner of a promise is over, nobody else goes on with the completion. This module says what
those find then who wait for the promise: readers, waits and listeners.

- **Reads** (`Reading.rank`, `Reading.Moves.descends`): with the latch open, each of its steps takes
  a read closer to its answer.
- **Released** (`Chronicle.Released`, `Won.released`): the latch is open and nobody waits for ever.
- **Pending polls** (`Reached.last_poll`): a wait that is pending was so when the wakers were taken.
- **Served** (`Chronicle.Served`, `Won.served`): the waits are woken and the listeners drained.
- **All ends** (`ends_released_or_torn`).
-/

namespace OneShot

variable {H : Host} {b : Behaviour H}

/-! ## Reads -/

/-- How many steps of its own a read has left at most when the latch is open. -/
def Reading.rank : Reading → Nat
  | peek => 10
  | attempt => 9
  | lockParked => 8
  | park => 7
  | asleep | sleep | checkFlag | lockGate _ => 6
  | check _ => 5
  | unlockGate _ => 4
  | relockParked _ => 3
  | unpark _ => 2
  | fetch => 1

/-- A read that has decided to leave without the outcome. -/
inductive Reading.Leaves : Reading → Except ReadError Value → Prop
  | timeout : Leaves (.unpark .expired) (.error .timeout)
  | interrupt : Leaves (.unpark .interrupted) (.error .interrupted)

/-- With the latch open, a step of a read that is awake takes it closer to its answer, which is the
outcome unless it has decided to leave before. -/
theorem Reading.Moves.descends {m : Machine H} {t : ThreadId} {p : PromiseId} {limited : Bool}
    {s : Reading} {n : Next H} (h : s.Moves m t p limited n) (hd : m.isDone p = true)
    (hs : s.isClosed = false) (ha : s ≠ .asleep) (hf : ∀ x, n ≠ .throw x) :
    (∃ s', n = .goto (.reading p limited s') ∧ s'.rank < s.rank) ∨
      (∃ o, s = .fetch ∧ m.outcome? p = some o ∧ n = .answer (.read o.read)) ∨
      ∃ e, s.Leaves e ∧ n = .answer (.read e) := by
  cases h with
  | «open» ho => exact .inl ⟨_, rfl, by rcases ho with rfl | rfl <;> decide⟩
  | peek hd' | attempt hd' | expired hd' | closed hd' => simp [hd] at hd'
  | lockParked | park | lockGate | opened | unlockGate | relockParked | acquire =>
    exact .inl ⟨_, rfl, by simp [rank]⟩
  | flagged | clear | sleep => cases hs
  | wake => exact absurd rfl ha
  | timeout => exact .inr (.inr ⟨_, .timeout, rfl⟩)
  | interrupt => exact .inr (.inr ⟨_, .interrupt, rfl⟩)
  | @fetch pr o hp ho =>
    refine .inr (.inl ⟨o, rfl, ?_, rfl⟩)
    rw [Machine.outcome?, hp, Option.bind_some]
    unfold Promise.settled at ho
    split at ho
    · exact ho
    · cases ho
  | early => exact absurd rfl (hf _)

namespace Chronicle

variable {c c' : Chronicle H} {μ : Moment H} {p : PromiseId} {w : CallId} {o : Outcome}
  {r : Progress}

/-! ## Released -/

/-- Nobody waits for ever for promise `p`, which is done with outcome `o`. -/
structure Released (b : Behaviour H) (c : Chronicle H) (p : PromiseId) (o : Outcome) : Prop where
  isDone : c.machine.isDone p = true
  outcome : c.machine.outcome? p = some o
  awake : ∀ i limited, c.frame? i ≠ some (.reading p limited .asleep)
  /-- A read takes a bounded number of steps to its answer, and only one that has decided to leave
  before answers anything but the outcome. -/
  reads : ∀ μ, c.Extends b μ → ∀ limited s, μ.frame = .reading p limited s →
    (∃ s', μ.next = .goto (.reading p limited s') ∧ s'.rank < s.rank) ∨
      (s = .fetch ∧ μ.next = .answer (.read o.read)) ∨
      ∃ e, s.Leaves e ∧ μ.next = .answer (.read e)
  polls : ∀ v wait x t, c.machine.wait? v = some wait → wait.promise = p →
    (Frame.polling v x .attempt).step b c.machine t .go =
      some (c.machine, .answer (.polled (some o.read)))

/-- When the winner is over and the latch is open, nobody waits for ever. -/
theorem Won.released (hc : c.Reached b) (hw : c.Won p w o r) (hn : c.frame? w = none)
    (hr : r.isOpen = true) : c.Released b p o := by
  obtain ⟨pr, hp, hsh⟩ := hw.cells
  have hd : c.machine.isDone p = true :=
    Machine.isDone_iff_cells?.2 ⟨pr, hp, by rw [hsh.isDone, hr]⟩
  have hout : c.machine.outcome? p = some o := by
    rw [hw.outcome?, if_neg]
    rintro rfl
    cases hr
  -- Only the winner leaves a sleeper on a done promise, to wake it next, and it is over.
  have hawake : ∀ i limited, c.frame? i ≠ some (.reading p limited .asleep) := by
    intro i limited hi
    obtain ⟨w', hw'⟩ := hc.opener hi hd
    by_cases hww : w' = w
    · rw [hww, hn] at hw'
      cases hw'
    · obtain ⟨o', ho'⟩ := hw.others w' _ hw' hww
      cases ho'
  refine ⟨hd, hout, hawake, fun μ hμ limited s hf => ?_, fun v wait x t hv hwp => ?_⟩
  · have ht := hc.tracked
    have hi : c.frame? μ.call = some (.reading p limited s) := by rw [hμ.frame? ht, hf]
    have hm := (hμ.sound ht).reading hf
    rw [hμ.before] at hm
    have hclosed : s.isClosed = false := by
      apply eq_false_of_ne_true
      intro hs
      rw [hc.closed hi hs] at hd
      cases hd
    have hasleep : s ≠ .asleep := by
      rintro rfl
      exact hawake _ _ hi
    -- A read of a done promise panics only in the state that is never reached.
    have hthrow : ∀ x, μ.next ≠ .throw x := by
      intro x hx
      rw [hx] at hm
      generalize hn : Next.throw x = n at hm
      cases hm with
      | early hp ho => exact hc.not_impossible hi (.fetch hp ho)
      | _ => cases hn
    rcases hm.descends hd hclosed hasleep hthrow with h | ⟨o', hs, ho', h⟩ | h
    · exact .inl h
    · rw [hout] at ho'
      cases ho'
      exact .inr (.inl ⟨hs, h⟩)
    · exact .inr (.inr h)
  · obtain ⟨o', ho', hpoll⟩ := hc.poll_of_isDone hd
    rw [hout] at ho'
    cases ho'
    exact hpoll v wait x t hv hwp

/-! ## Pending polls -/

/-- A set that is taken was taken by a completion call. -/
theorem Reached.exists_take (hc : c.Reached b) {pr : Promise H}
    (hp : c.machine.cells? p = some pr) (ht : pr.wakers.data.taken = true) :
    ∃ τ ∈ c.past, τ.frame = .completing p .takeWakers := by
  induction c, hc using Reached.induction generalizing pr with
  | start m hm =>
    have hnone : m.cells? p = none := by simp [Machine.cells?, Machine.promise?, hm.promises]
    rw [show m.cells? p = some pr from hp] at hnone
    cases hnone
  | record c μ hc hμ hc' ih =>
    -- A set that was taken before the moment was taken by a call of the past.
    have hold : ∀ pr₀, c.machine.cells? p = some pr₀ → pr₀.wakers.data.taken = true →
        ∃ τ ∈ (c.record μ).past, τ.frame = .completing p .takeWakers := by
      intro pr₀ hp₀ ht₀
      obtain ⟨τ, hτ, hf⟩ := ih hp₀ ht₀
      exact ⟨τ, mem_record_of_mem hτ, hf⟩
    have hch := hμ.made.effect.promise p
    change μ.after.cells? p = some pr at hp
    rw [hμ.before, hp] at hch
    generalize hx : c.machine.cells? p = x, hx' : some pr = x', hf : μ.frame = f,
      μ.next = n at hch
    cases hch with
    | same => exact hold pr (hx.trans hx'.symm) ht
    | takeWakers => exact ⟨μ, mem_record_self, hf⟩
    | make => cases hx'; cases ht
    | register => cases hx'; exact hold _ hx (by simpa using ht)
    | _ => cases hx'; exact hold _ hx ht

/-- A poll returns pending only while the promise is. -/
theorem Reached.isDone_of_pending (hc : c.Reached b) (hμ : μ ∈ c.past) {v : WaitId}
    {x : H.Closure .waker} (h : μ.polled? v = some (x, none)) :
    ∃ wait, μ.before.wait? v = some wait ∧ μ.before.isDone wait.promise = false := by
  obtain ⟨hf, hn⟩ : (∃ s, μ.frame = .polling v x s) ∧ μ.next = .answer (.polled none) := by
    unfold Moment.polled? at h
    split at h
    · rename_i u y s r hf hn
      split at h
      · rename_i hu
        cases h
        exact ⟨⟨s, hu ▸ hf⟩, hn⟩
      · cases h
    · cases h
  obtain ⟨s, hf⟩ := hf
  have hm := (hc.sound μ hμ).1.polling hf
  rw [hn] at hm
  generalize hx : Next.answer (.polled none) = n at hm
  cases hm with
  | ready => cases hx
  | @pend wait pr k hw hp hk =>
    refine ⟨wait, hw, ?_⟩
    -- The registration looks at the state under the lock, and has found it pending.
    obtain ⟨hopen, -⟩ := WakerSet.register_eq_some hk
    apply eq_false_of_ne_true
    intro hd
    obtain ⟨pr', hp', hd⟩ := Machine.isDone_iff_cells?.1 hd
    rw [hp] at hp'
    cases hp'
    rw [hd, Bool.or_true] at hopen
    cases hopen
  | _ => cases hx

/-- A wait stays one on its promise, and once dropped it stays dropped. -/
theorem Reaches.wait (hc : c.Reached b) (hl : c.Reaches b c') {v : WaitId} {wait : Wait}
    (hw : c.machine.wait? v = some wait) : ∃ wait', c'.machine.wait? v = some wait' ∧
      wait'.promise = wait.promise ∧ (wait'.dropped = false → wait.dropped = false) := by
  induction hl with
  | refl => exact ⟨wait, hw, rfl, id⟩
  | tail e hl he ih =>
    obtain ⟨wait₁, hw₁, hp₁, hd₁⟩ := ih
    have hc₁ := hc.reaches hl
    obtain ⟨μ, hμ, rfl⟩ := exists_extends_of_turn? hc₁.tracked he
    obtain ⟨wait₂, hw₂, hp₂⟩ := hμ.wait hw₁
    obtain ⟨es, hm, -⟩ := hμ.wait_moves hc₁ hw₂
    rw [hw₁] at hm
    exact ⟨wait₂, hw₂, hp₂.trans hp₁, fun hd => hd₁ (hm.of_some.2 hd)⟩

/-- From the taking of the wakers on, no poll of a wait on the promise returns pending. -/
theorem Reached.not_pending_after (hc : c.Reached b) {l l' : List (Moment H)} {τ ρ : Moment H}
    (hpast : c.past = l ++ τ :: l') (hf : τ.frame = .completing p .takeWakers) (hρ : ρ ∈ τ :: l')
    {v : WaitId} {wait : Wait} (hw : c.machine.wait? v = some wait) (hwp : wait.promise = p)
    (x : H.Closure .waker) : ρ.polled? v ≠ some (x, none) := by
  intro hpoll
  have hmem : ρ ∈ c.past := hpast ▸ List.mem_append_right l hρ
  obtain ⟨wait₁, hw₁, hd₁⟩ := hc.isDone_of_pending hmem hpoll
  rcases List.mem_cons.1 hρ with rfl | hρ
  · rw [Moment.polled?, hf] at hpoll
    cases hpoll
  · obtain ⟨a, d, rfl⟩ := List.append_of_mem hρ
    rw [← List.cons_append, ← List.append_assoc] at hpast
    obtain ⟨c₁, hc₁, hpast₁, h₁, hturn₁, hl₁⟩ := hc.exists_reaches hpast
    obtain ⟨c₂, hc₂, -, h₂, hturn₂, hl₂⟩ := hc₁.exists_reaches hpast₁
    rw [h₁.before] at hw₁ hd₁
    -- The wait is on `p`, which was done at the taking and still is.
    obtain ⟨wait', hw', hpe, -⟩ := (hturn₁.trans hl₁).wait hc₁ hw₁
    rw [hw] at hw'
    cases hw'
    rw [← hpe, hwp] at hd₁
    have hτ : τ ∈ c₁.past := hpast₁ ▸ by simp
    have hd₂ : c₂.machine.isDone p = true := by
      rw [← h₂.before]
      exact Machine.isDone_iff_cells?.2 (hc₁.isDone_of_opened τ hτ _ hf rfl)
    rw [hc₂.isDone_of_reaches (hturn₂.trans hl₂) hd₂] at hd₁
    cases hd₁

/-- A wait whose last poll has returned pending was so when the wakers were taken. -/
theorem Reached.last_poll (hc : c.Reached b) {l l' : List (Moment H)} {τ : Moment H}
    (hpast : c.past = l ++ τ :: l') (hf : τ.frame = .completing p .takeWakers)
    {v : WaitId} {wait : Wait} (hw : c.machine.wait? v = some wait) (hwp : wait.promise = p)
    {x : H.Closure .waker} (hlast : (c.polls v).getLast? = some (x, none)) :
    (l.filterMap (Moment.polled? v)).getLast? = some (x, none) := by
  rw [polls, hpast, List.filterMap_append] at hlast
  rcases List.eq_nil_or_concat ((τ :: l').filterMap (Moment.polled? v)) with hnil | ⟨es, e, hes⟩
  · rw [hnil, List.append_nil] at hlast
    exact hlast
  · rw [hes, List.concat_eq_append, ← List.append_assoc, List.getLast?_concat] at hlast
    obtain rfl := Option.some.inj hlast
    have he : (x, none) ∈ (τ :: l').filterMap (Moment.polled? v) := by rw [hes]; simp
    obtain ⟨ρ, hρ, hpoll⟩ := List.mem_filterMap.1 he
    exact absurd hpoll (hc.not_pending_after hpast hf hρ hw hwp x)

/-! ## Served -/

/-- Whoever had left something with promise `p` has been served: its registry is drained, and every
wait that is pending has been woken. -/
structure Served (c : Chronicle H) (p : PromiseId) : Prop where
  drained : ∃ pr, c.machine.promise? p = some pr ∧ pr.listeners.data.isDrained = true ∧
    pr.listenerCount = 0
  woken : ∀ v wait x, c.machine.wait? v = some wait → wait.promise = p → wait.dropped = false →
    (c.polls v).getLast? = some (x, none) → ∃ s ∈ c.wakes p, s = x ∨ H.sameTask s x = true

/-- A winner that is over and has not been left by a panic of a waker has woken every wait that is
pending. -/
theorem Won.woken (hc : c.Reached b) (hw : c.Won p w o r) (hn : c.frame? w = none)
    (ht : r.isTaken = true) (hpanic : ∀ κ ∈ c.past, ¬κ.WakerPanics p) {v : WaitId} {wait : Wait}
    {x : H.Closure .waker} (hv : c.machine.wait? v = some wait) (hwp : wait.promise = p)
    (hd : wait.dropped = false) (hlast : (c.polls v).getLast? = some (x, none)) :
    ∃ s ∈ c.wakes p, s = x ∨ H.sameTask s x = true := by
  obtain ⟨pr, hp, hsh⟩ := hw.cells
  obtain ⟨τ, hτ, hf⟩ := hc.exists_take hp (by rw [hsh.taken, ht])
  obtain ⟨l, l', hpast⟩ := List.append_of_mem hτ
  have hlast₀ := hc.last_poll hpast hf hv hwp hlast
  obtain ⟨c₀, hc₀, rfl, h, hturn, hl⟩ := hc.exists_reaches hpast
  -- The wait was there already, since it had been polled.
  obtain ⟨wait₀, hv₀⟩ : ∃ wait₀, c₀.machine.wait? v = some wait₀ := by
    obtain ⟨ρ, hρ, hpoll⟩ := List.mem_filterMap.1 (List.mem_of_getLast? hlast₀)
    obtain ⟨wait₁, hw₁, -⟩ := hc₀.isDone_of_pending hρ hpoll
    obtain ⟨l₁, l₂, hsplit⟩ := List.append_of_mem hρ
    obtain ⟨c₁, hc₁, -, h₁, hturn₁, hl₁⟩ := hc₀.exists_reaches hsplit
    rw [h₁.before] at hw₁
    obtain ⟨wait₀, hv₀, -⟩ := (hturn₁.trans hl₁).wait hc₁ hw₁
    exact ⟨wait₀, hv₀⟩
  obtain ⟨wait', hv', hpe, hdrop⟩ := (hturn.trans hl).wait hc₀ hv₀
  rw [hv] at hv'
  cases hv'
  obtain ⟨pr₀, k, s, hp₀, hentry, hs⟩ :=
    h.exists_entryOf hc₀ hf hv₀ (hpe.symm.trans hwp) (hdrop hd) hlast₀
  rw [← h.before] at hp₀
  obtain ⟨rest, hrest, hdue⟩ := hc.waking hτ hf hp₀
  obtain rfl : rest = [] := by
    rcases hdue with hnil | ⟨κ, hκ, hx⟩ | ⟨s', hs', -⟩
    · exact hnil
    · exact absurd hx (hpanic κ hκ)
    · rw [hw.call_eq hτ hf nofun, hn] at hs'
      cases hs'
  have hmem : (k, s) ∈ pr₀.wakers.data.entries := by
    have hfilter : (k, s) ∈ pr₀.wakers.data.entries.filter (·.1 = k) := by simp [hentry.entry]
    exact List.mem_of_mem_filter hfilter
  have hsnd : s ∈ pr₀.wakers.data.entries.map Prod.snd := List.mem_map_of_mem hmem
  rw [hrest, List.append_nil] at hsnd
  exact ⟨s, hsnd, hs⟩

/-- A winner that is over and has drained the listeners has served everybody. -/
theorem Won.served (hc : c.Reached b) (hw : c.Won p w o .drained) (hn : c.frame? w = none) :
    c.Served p := by
  refine ⟨?_, fun v wait x hv hwp hd hlast => hw.woken hc hn rfl (fun κ hκ h => ?_) hv hwp hd hlast⟩
  · obtain ⟨_, hcells, hsh⟩ := hw.cells
    obtain ⟨pr, hp, rfl⟩ := Option.map_eq_some_iff.1 hcells
    have hdrained : pr.listeners.data.isDrained = true := hsh.drained
    refine ⟨pr, hp, hdrained, ?_⟩
    unfold Promise.listenerCount
    cases hreg : pr.listeners.data with
    | pending ls => rw [hreg] at hdrained; cases hdrained
    | drained => rfl
  · obtain ⟨-, hr⟩ := hw.of_wakerPanics hc hκ h
    cases hr

/-! ## All ends -/

/-- How a promise looks whose completion has come as far as `r` and no further. -/
def Halted (c : Chronicle H) (p : PromiseId) (r : Progress) : Prop :=
  ∃ pr, c.machine.promise? p = some pr ∧ pr.status ≠ .init ∧ pr.isDone = r.isOpen ∧
    pr.wakers.data.taken = r.isTaken ∧ pr.listeners.data.isDrained = r.isDrained

/-- When the winner is over, its promise stays as it is. -/
theorem Won.halted (hc : c.Reached b) (hw : c.Won p w o r) (hn : c.frame? w = none)
    (hl : c.Reaches b c') : c'.Halted p r := by
  obtain ⟨hw', -⟩ := hw.stays hc hn hl
  obtain ⟨_, hcells, hsh⟩ := hw'.cells
  obtain ⟨pr, hp, rfl⟩ := Option.map_eq_some_iff.1 hcells
  refine ⟨pr, hp, ?_, hsh.isDone, hsh.taken, hsh.drained⟩
  rw [show pr.status = o.status from hsh.status]
  exact o.status_ne_init

/-- However the completion call that has won a promise has ended: unless the clock has panicked in
it, nobody waits for ever; and unless a waker has panicked either, every wait that is pending has
been woken and no listener is left. A panic of the clock leaves the promise claimed and not done for
ever, with its wakers and its listeners; a panic of a waker leaves the listeners there for ever. -/
theorem ends_released_or_torn (hc : c.Reached b) {ν : Moment H} (hν : ν ∈ c.past)
    (hwon : ν.won? p = some (w, o)) (hover : c.frame? w = none) :
    ((∀ κ ∈ c.past, ¬κ.ClockPanics p) → ∀ c', c.Reaches b c' → c'.Released b p o) ∧
    ((∀ κ ∈ c.past, ¬κ.ClockPanics p) → (∀ κ ∈ c.past, ¬κ.WakerPanics p) → c.Served p) ∧
    ((∃ κ ∈ c.past, κ.ClockPanics p) → ∀ c', c.Reaches b c' → c'.Halted p .stored) ∧
    ((∃ κ ∈ c.past, κ.WakerPanics p) → ∀ c', c.Reaches b c' → c'.Halted p .taken) := by
  have hmem : (w, o) ∈ c.past.filterMap (Moment.won? p) := List.mem_filterMap.2 ⟨ν, hν, hwon⟩
  cases hc.contest p with
  | unclaimed hu => rw [hu.wins] at hmem; cases hmem
  | @won w₀ o₀ r hw =>
    rw [hw.wins] at hmem
    cases List.mem_singleton.1 hmem
    refine ⟨fun hclock c' hl => ?_, fun hclock hwaker => ?_, ?_, ?_⟩
    · have hopen : r.isOpen = true := by
        rcases hw.cause hc hover with ⟨-, κ, hκ, h⟩ | ⟨rfl, -⟩ | rfl
        · exact absurd h (hclock κ hκ)
        · rfl
        · rfl
      obtain ⟨hw', hn'⟩ := hw.stays hc hover hl
      exact hw'.released (hc.reaches hl) hn' hopen
    · rcases hw.cause hc hover with ⟨-, κ, hκ, h⟩ | ⟨-, κ, hκ, h⟩ | rfl
      · exact absurd h (hclock κ hκ)
      · exact absurd h (hwaker κ hκ)
      · exact hw.served hc hover
    · rintro ⟨κ, hκ, h⟩ c' hl
      obtain ⟨-, rfl⟩ := hw.of_clockPanics hc hκ h
      exact hw.halted hc hover hl
    · rintro ⟨κ, hκ, h⟩ c' hl
      obtain ⟨-, rfl⟩ := hw.of_wakerPanics hc hκ h
      exact hw.halted hc hover hl

/-- A thread makes a promise with a clock, leaves a listener with it and completes it. A second one
polls a wait on it, and a third one reads it. One clock panics. -/
def farewell (clock : Nat) : (r : Role) → Nat → Act Tabled r
  | .task, 0 => .call (.build { clock := some clock }) 1
  | .task, 1 => .call (.observe 0 7) 2
  | .task, 2 => .call (.complete 0 (.value .unit)) 3
  | .task, 10 => .call (.wait 0) 11
  | .task, 11 => .call (.poll 0 8) 12
  | .task, 20 => .call (.get 0) 21
  | .clock, 5 => .panic "boom"
  | r, _ => Tabled.quiet r

/-- The run in which the completion call makes its last `n` steps when the others wait. -/
def parting (clock n : Nat) : Option (Chronicle Tabled) :=
  (Tabled.start [0, 10, 20]).turns? (Tabled.lateClocks (farewell clock))
    (List.replicate 6 (.step 0) ++ List.replicate 6 (.step 1) ++ List.replicate 8 (.step 2) ++
      List.replicate n (.step 0))

/-- If the clock panics, the winner ends, and the reader sleeps on, the wait is not woken and the
listener is left. -/
theorem ends_torn_parting : ∃ c ν, parting 5 4 = some c ∧
    c.Reached (Tabled.lateClocks (farewell 5)) ∧ ν ∈ c.past ∧
    ν.won? 0 = some (⟨0, 21⟩, .value .unit) ∧ c.frame? ⟨0, 21⟩ = none ∧
    c.machine.isDone 0 = false ∧ c.frame? ⟨2, 13⟩ = some (.reading 0 false .asleep) ∧
    (c.polls 0).getLast? = some (8, none) ∧ c.wakes 0 = [] ∧
    ∃ pr, c.machine.promise? 0 = some pr ∧ pr.listenerCount = 1 := by
  have hrun : ((parting 5 4).any fun c =>
      (c.past.any fun ν => ν.won? 0 == some (⟨0, 21⟩, .value .unit)) &&
      (c.frame? ⟨0, 21⟩).isNone && !c.machine.isDone 0 &&
      ((c.frame? ⟨2, 13⟩).any fun f => f.reading? == some (0, false, .asleep)) &&
      ((c.polls 0).getLast?.any fun e => e.1 == 8 && e.2.isNone) &&
      c.wakes 0 == [] &&
      (c.machine.promise? 0).any fun pr => pr.listenerCount == 1) = true := by
    decide +kernel
  obtain ⟨c, hc, hrun⟩ := (Option.any_eq_true _ _).1 hrun
  simp only [Bool.and_eq_true, List.any_eq_true, beq_iff_eq, Bool.not_eq_true',
    Option.isNone_iff_eq_none] at hrun
  obtain ⟨⟨⟨⟨⟨⟨⟨ν, hν, hwon⟩, hover⟩, hd⟩, hasleep⟩, hpoll⟩, hwakes⟩, hpr⟩ := hrun
  obtain ⟨pr, hp, hcount⟩ := (Option.any_eq_true _ _).1 hpr
  refine ⟨c, ν, hc, Tabled.reached hc, hν, hwon, hover, hd, ?_, ?_, hwakes, pr, hp,
    by simpa using hcount⟩
  · obtain ⟨f, hi, hf⟩ := (Option.any_eq_true _ _).1 hasleep
    have hf : f = .reading 0 false .asleep := Frame.eq_reading (by simpa using hf)
    rw [hi, hf]
  · obtain ⟨⟨x, r⟩, hl, hxr⟩ := (Option.any_eq_true _ _).1 hpoll
    simp only [Bool.and_eq_true, beq_iff_eq, Option.isNone_iff_eq_none] at hxr
    rw [hl, hxr.1, hxr.2]

theorem ends_released_or_torn_parting : ∃ c ν, parting 0 20 = some c ∧
    c.Reached (Tabled.lateClocks (farewell 0)) ∧ ν ∈ c.past ∧
    ν.won? 0 = some (⟨0, 21⟩, .value .unit) ∧ c.frame? ⟨0, 21⟩ = none ∧
    c.Released (Tabled.lateClocks (farewell 0)) 0 (.value .unit) ∧ c.Served 0 := by
  have hrun : ((parting 0 20).any fun c =>
      (c.past.any fun ν => ν.won? 0 == some (⟨0, 21⟩, .value .unit)) &&
      (c.frame? ⟨0, 21⟩).isNone &&
      c.past.all fun κ => κ.next.thrown?.isNone) = true := by
    decide +kernel
  obtain ⟨c, hc, hrun⟩ := (Option.any_eq_true _ _).1 hrun
  simp only [Bool.and_eq_true, List.any_eq_true, List.all_eq_true, beq_iff_eq,
    Option.isNone_iff_eq_none] at hrun
  obtain ⟨⟨⟨ν, hν, hwon⟩, hover⟩, hthrow⟩ := hrun
  obtain ⟨hclock, hwaker⟩ := not_panics_of_thrown? hthrow 0
  have hreach := Tabled.reached hc
  obtain ⟨hreleased, hserved, -, -⟩ := ends_released_or_torn hreach hν hwon hover
  exact ⟨c, ν, hc, hreach, hν, hwon, hover, hreleased hclock c .refl, hserved hclock hwaker⟩

end Chronicle

end OneShot
