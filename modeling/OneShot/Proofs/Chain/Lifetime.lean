import Mathlib.Logic.Function.Iterate
import OneShot.Proofs.Chain.Dropping
import OneShot.Proofs.Reading.Sleep

/-!
# Lifetimes and how promises are shown

A source holds what is chained from it, by the chain listeners that it stores or is delivering; a
derived promise does not hold its source, it only knows where it came from. So what is alive is
found downwards from the roots, and a promise is shown upwards, as far as its sources are alive.

- **Alive** (`Machine.Lives`, `Reached.alive_iff_lives`): the least set that holds what is held and
  what is chained from its members.
- **Weak edges** (`Machine.aliveFrom_congr`): what is younger does not keep a promise alive.
- **Shown** (`Reached.display_of_source`, `Machine.Lineal`): the sources of a promise up to the
  first that is dropped, and no further.
- **Pending for ever** (`Reached.stays_pending`, `Chronicle.Heir`): a promise that is dropped while
  it is pending takes with it what it alone has held, and no listener of these ever runs.
- **All lifetimes** (`Lifetimes`, `shows_what_lives`).
-/

namespace OneShot

variable {H : Host} {b : Behaviour H}

/-! ## Alive -/

/-- The promises that a call works on or with, apart from what its delivery has still to do. -/
def Frame.works : Frame H → List PromiseId
  | completing p _ => [p]
  | f => f.handles

namespace Machine

/-- The least set of promises that holds what the program has a handle of, what a wait, an answer
or a call in progress holds, and with a promise what is chained from it by a chain listener that the
promise stores or that a delivery of it has still to notify. -/
inductive Lives (m : Machine H) : PromiseId → Prop
  | handle {p} (h : p ∈ H.handles m.program) : Lives m p
  | wait {w wait} (hw : m.wait? w = some wait) (hd : wait.dropped = false) : Lives m wait.promise
  | answer {t th p} (ht : m.thread? t = some th) (hp : p ∈ th.control.handles) : Lives m p
  | call {t th f p} (ht : m.thread? t = some th) (hf : f ∈ th.frames) (hp : p ∈ f.works) :
    Lives m p
  | stored {s pr d} (hs : m.promise? s = some pr) (hd : d ∈ targets pr.listeners.data.toList)
    (h : Lives m s) : Lives m d
  | delivered {t th s stage d} (ht : m.thread? t = some th)
    (hf : .completing s stage ∈ th.frames) (hd : d ∈ stage.handles) (h : Lives m s) : Lives m d

variable {m : Machine H} {p s d : PromiseId}

theorem Held.lives (h : m.Held p) : m.Lives p := by
  induction h with
  | root h =>
    rcases mem_roots_iff.1 h with hp | ⟨w, wait, hw, hd, rfl⟩ | ⟨t, k, fs, hs, hp⟩
    · exact .handle hp
    · exact .wait hw hd
    · obtain ⟨th, ht, heq⟩ := Option.map_eq_some_iff.1 hs
      cases heq
      rcases hp with hp | ⟨f, hf, hp⟩
      · exact .answer ht hp
      · cases f with
        | completing s stage =>
          have hs : m.Lives s := .call ht hf List.mem_cons_self
          rcases List.mem_cons.1 hp with rfl | hp
          · exact hs
          · exact .delivered ht hf hp hs
        | _ => exact .call ht hf hp
  | @stored s d pr _ _ hs _ ih =>
    unfold stores at hs
    split at hs
    · rename_i prs hprs
      exact .stored hprs (by simpa using hs) ih
    · cases hs

end Machine

namespace Chronicle

variable {c c' : Chronicle H} {μ κ : Moment H} {p s d : PromiseId} {f : H.Closure .transform}

/-- A promise is alive exactly if it is in the least set. -/
theorem Reached.alive_iff_lives (hc : c.Reached b) :
    c.machine.alive p = true ↔ c.machine.Lives p := by
  rw [hc.alive_iff]
  refine ⟨Machine.Held.lives, fun h => ?_⟩
  have hroot : ∀ {p t th}, c.machine.thread? t = some th →
      (p ∈ th.control.handles ∨ ∃ f ∈ th.frames, p ∈ f.handles) → c.machine.Held p := by
    intro p t th ht hp
    refine .root (Machine.mem_roots_iff.2 (.inr (.inr ⟨t, th.control, th.frames, ?_, hp⟩)))
    rw [Machine.stack?, ht]
    rfl
  induction h with
  | handle h => exact .root (Machine.mem_roots_iff.2 (.inl h))
  | wait hw hd => exact .root (Machine.mem_roots_iff.2 (.inr (.inl ⟨_, _, hw, hd, rfl⟩)))
  | answer ht hp => exact hroot ht (.inl hp)
  | @call t th f p ht hf hp =>
    refine hroot ht (.inr ⟨f, hf, ?_⟩)
    cases f with
    | completing q stage => exact List.mem_cons.2 (.inl (List.mem_singleton.1 hp))
    | _ => exact hp
  | @stored s pr d hs hd _ ih =>
    obtain ⟨pr', hp', ho⟩ := hc.origin_of_target (Machine.cells?_eq_some hs) hd
    exact .stored hp' ho (by simpa [Machine.stores, hs] using hd) ih
  | delivered ht hf hd => exact hroot ht (.inr ⟨_, hf, List.mem_cons_of_mem _ hd⟩)

end Chronicle

/-! ## Weak edges -/

namespace Machine

/-- The promise that a promise is chained from. -/
def source? (m : Machine H) (d : PromiseId) : Option PromiseId :=
  (m.promise? d).bind Promise.origin

/-- Going from `d` to its source again and again, `a` is reached after `k` times, and all that were
reached are alive. -/
inductive Lineal (m : Machine H) : PromiseId → Nat → PromiseId → Prop
  | refl {d} : Lineal m d 0 d
  | step {d s k a} (hs : m.source? d = some s) (ha : m.alive s = true) (h : Lineal m s k a) :
    Lineal m d (k + 1) a

variable {m : Machine H} {p s d : PromiseId}

/-- Whether a promise is alive depends only on the roots that are not younger than it. -/
theorem aliveFrom_congr (hlt : ∀ d s, m.source? d = some s → s < d) {roots roots' : List PromiseId}
    {n : Nat} (h : ∀ p ≤ s, p ∈ roots ↔ p ∈ roots') :
    m.aliveFrom roots n s = m.aliveFrom roots' n s := by
  have hself : ∀ {p}, p ≤ s → roots.contains p = roots'.contains p := by
    intro p hp
    rw [Bool.eq_iff_iff, List.contains_iff_mem, List.contains_iff_mem]
    exact h p hp
  induction n generalizing s with
  | zero => exact hself (Nat.le_refl s)
  | succ n ih =>
    unfold aliveFrom
    rw [hself (Nat.le_refl s)]
    cases hs : (m.promise? s).bind Promise.origin with
    | none => rfl
    | some q =>
      have hq : q < s := hlt s q hs
      dsimp only
      have hle : ∀ {p}, p ≤ q → p ≤ s := fun hp => Nat.le_trans hp (Nat.le_of_lt hq)
      rw [ih (fun p hp => h p (hle hp)) fun hp => hself (hle hp)]

/-! ## Shown -/

/-- How a promise is shown whose source is shown as `x`. -/
def chainShown (x : String) : String := "ChainFuture [orig=" ++ x ++ ", doneCb=CB]"

/-- More room than a promise has sources makes no difference to how it is shown. -/
theorem displayFrom_eq (hlt : ∀ d s, m.source? d = some s → s < d) {n n' : Nat} (hn : d < n)
    (hn' : d < n') : m.displayFrom n d = m.displayFrom n' d := by
  induction n generalizing d n' with
  | zero => exact absurd hn (Nat.not_lt_zero d)
  | succ n ih =>
    cases n' with
    | zero => exact absurd hn' (Nat.not_lt_zero d)
    | succ n' =>
      unfold displayFrom
      cases hp : m.promise? d with
      | none => rfl
      | some pr =>
        cases ho : pr.origin with
        | none => simp only [ho]
        | some s =>
          have hsd : s < d := hlt d s (by rw [source?, hp]; exact ho)
          simp only [ho]
          rw [ih (Nat.lt_of_lt_of_le hsd (Nat.le_of_lt_succ hn))
            (Nat.lt_of_lt_of_le hsd (Nat.le_of_lt_succ hn'))]

/-- A promise that is chained shows its source while that is alive. -/
theorem display_of_source (hlt : ∀ d s, m.source? d = some s → s < d)
    (hs : m.source? d = some s) :
    m.display d = chainShown (if m.alive s then m.display s else "<dropped>") := by
  obtain ⟨pr, hp, ho⟩ := Option.bind_eq_some_iff.1 hs
  have hsd := hlt d s hs
  rw [display, displayFrom]
  simp only [hp, ho]
  rw [displayFrom_eq hlt hsd (Nat.lt_succ_self s)]
  rfl

/-- A promise shows each of its sources as long as these are alive. -/
theorem Lineal.display {k : Nat} {a : PromiseId} (h : m.Lineal d k a)
    (hlt : ∀ d s, m.source? d = some s → s < d) : m.display d = chainShown^[k] (m.display a) := by
  induction h with
  | refl => rfl
  | step hs ha _ ih =>
    rw [display_of_source hlt hs, if_pos ha, ih, Function.iterate_succ_apply']

/-- The sources of a promise come to an end: there is none any more, or it is dropped. -/
theorem exists_lineal (hlt : ∀ d s, m.source? d = some s → s < d) (d : PromiseId) :
    ∃ k a, m.Lineal d k a ∧ ∀ s, m.source? a = some s → m.alive s = false := by
  induction d using Nat.strongRecOn with
  | ind d ih =>
    cases hs : m.source? d with
    | none =>
      refine ⟨0, d, .refl, fun s hs' => ?_⟩
      rw [hs] at hs'
      cases hs'
    | some s =>
      cases ha : m.alive s with
      | false =>
        refine ⟨0, d, .refl, fun s' hs' => ?_⟩
        rw [hs] at hs'
        cases hs'
        exact ha
      | true =>
        obtain ⟨k, a, hl, hend⟩ := ih s (hlt d s hs)
        exact ⟨k + 1, a, .step hs ha hl, hend⟩

end Machine

/-- Whether the program goes about handles at a moment as it has to. -/
def Moment.isMinding (μ : Moment H) : Bool :=
  μ.asks.all μ.before.alive &&
  (match μ.frame with
    | .dropping w => (μ.before.wait? w).all (!·.dropped)
    | _ => true) &&
  (H.handles μ.after.program).all fun p => μ.before.alive p || (μ.before.promise? p).isNone

theorem Moment.minds_of_isMinding {μ : Moment H} (h : μ.isMinding = true) : μ.Minds := by
  simp only [isMinding, Bool.and_eq_true, List.all_eq_true, Bool.or_eq_true,
    Option.isNone_iff_eq_none] at h
  obtain ⟨⟨hasks, hdrops⟩, hholds⟩ := h
  refine ⟨hasks, fun w wait hf hw => ?_, hholds⟩
  simpa [hf, hw] using hdrops

namespace Chronicle

variable {c c' : Chronicle H} {μ κ : Moment H} {p s d : PromiseId} {f : H.Closure .transform}

theorem Reached.source_lt (hc : c.Reached b) :
    ∀ d s, c.machine.source? d = some s → s < d := by
  intro d s hs
  obtain ⟨pr, hp, ho⟩ := Option.bind_eq_some_iff.1 hs
  exact hc.origin_lt d pr.bare s (Machine.cells?_eq_some hp) ho

theorem Reached.source?_of_derives (hc : c.Reached b) (hκ : κ ∈ c.past) (hd : κ.Derives s f d) :
    c.machine.source? d = some s := by
  obtain ⟨-, pr', -, hp', -, -, -, ho⟩ := hc.derived hκ hd
  obtain ⟨pr, hp, rfl⟩ := Option.map_eq_some_iff.1 hp'
  rw [Machine.source?, hp]
  exact ho

/-- A promise that is not a root and whose source is not alive is not alive. -/
theorem Reached.not_alive_of_source (hc : c.Reached b) (hs : c.machine.source? d = some s)
    (hr : d ∉ c.machine.roots) (ha : c.machine.alive s = false) : c.machine.alive d = false := by
  refine eq_false_of_ne_true fun halive => ?_
  cases hc.alive_iff.1 halive with
  | root h => exact hr h
  | @stored s' _ pr hp ho _ hheld =>
    rw [Machine.source?, hp, Option.bind_some, ho] at hs
    cases hs
    rw [hc.alive_iff.2 hheld] at ha
    cases ha

/-! ## Pending for ever -/

/-- A promise that is dropped while it is pending stays so, as long as the program goes about
handles as it has to. -/
theorem Reached.stays_pending (hc : c.Reached b) {pr : Promise H}
    (hp : c.machine.promise? p = some pr) (hd : c.machine.isDone p = false)
    (ha : c.machine.alive p = false) (hl : c.Reaches b c') {l : List (Moment H)}
    (hpast : c'.past = c.past ++ l) (hm : ∀ μ ∈ l, μ.Minds) :
    c'.machine.isDone p = false ∧ c'.machine.alive p = false := by
  induction hl generalizing l with
  | refl => exact ⟨hd, ha⟩
  | tail e hl he ih =>
    have hc₁ := hc.reaches hl
    have hc₂ := hc₁.reaches (.tail e .refl he)
    obtain ⟨μ, hμ, rfl⟩ := exists_extends_of_turn? hc₁.tracked he
    obtain ⟨l₁, hl₁⟩ := hl.exists_past hc
    obtain rfl : l = l₁ ++ [μ] := by
      rw [past_record, hl₁, List.append_assoc] at hpast
      exact (List.append_cancel_left hpast).symm
    obtain ⟨hd₁, ha₁⟩ := ih hl₁ fun ν hν => hm ν (List.mem_append_left _ hν)
    obtain ⟨pr₁, hp₁, -⟩ := hc.made hl (Machine.cells?_eq_some hp)
    refine ⟨eq_false_of_ne_true fun hdone => ?_,
      hμ.not_alive hc₁ hc₂ (hm μ List.mem_concat_self) hp₁ ha₁⟩
    -- Who opens the latch holds the promise.
    rcases hμ.opens hdone with hdone | ⟨time, hf⟩
    · rw [hd₁] at hdone
      cases hdone
    · have hheld := hμ.held_of_frame hc₁.tracked (by rw [hf]; exact List.mem_cons_self)
      rw [hc₁.alive_iff.2 hheld] at ha₁
      cases ha₁

/-- No listener of a promise that is not done has been run. -/
theorem Reached.not_run_of_pending (hc : c.Reached b) (hd : c.machine.isDone p = false)
    {ν : Moment H} (hν : ν ∈ c.past) (r : Notifying H) :
    ν.next.callee? ≠ some (.notifying p r) := by
  intro hn
  obtain ⟨c₀, hc₀, h, hturn, hl⟩ := hc.reaches_of_mem hν
  obtain ⟨pr, hp, hopen⟩ := hc.cells_of_run hν hn
  rw [h.before] at hp
  have hdone : c₀.machine.isDone p = true := by
    refine Machine.isDone_iff_cells?.2 ⟨pr, hp, ?_⟩
    rcases hopen with hdone | hdrained
    · exact hdone
    · exact hc₀.isDone_of_drained hp hdrained
  rw [hc₀.isDone_of_reaches (hturn.trans hl) hdone] at hd
  cases hd

/-- What is chained from a promise that is not done is not done. -/
theorem Reached.pending_of_source (hc : c.Reached b) (hh : c.Honest) (hκ : κ ∈ c.past)
    (hκd : κ.Derives s f d) (hs : c.machine.isDone s = false) : c.machine.isDone d = false := by
  have hnil : c.callbacks d = [] := by
    rcases hc.callbacks_cases hκ hκd with hnil | ⟨ν, hν, -, hcal⟩
    · exact hnil
    · exact absurd hcal (hc.not_run_of_pending hs hν _)
  have hu : c.Unclaimed d := by
    cases hc.derivation hh hκ hκd with
    | waiting _ hu => exact hu
    | running h | ended h | decided h => rw [hnil] at h; cases h
  refine eq_false_of_ne_true fun hdone => ?_
  obtain ⟨pr, hp, hdone⟩ := Machine.isDone_iff_cells?.1 hdone
  rw [(hu.cells pr hp).isDone] at hdone
  cases hdone

/-- A promise that is held by `p` alone, or by such a promise alone: it was chained from it, and
nothing but its chain listener holds it. -/
inductive Heir (c : Chronicle H) (p : PromiseId) : PromiseId → Prop
  | self : Heir c p p
  | chained {q e κ g} (h : Heir c p q) (hκ : κ ∈ c.past) (hd : Moment.Derives κ q g e)
    (hr : e ∉ c.machine.roots) : Heir c p e

/-- What a promise that is dropped while it is pending has held alone is dropped and pending too. -/
theorem Heir.dropped (hc : c.Reached b) (hh : c.Honest) (h : c.Heir p d) {pr : Promise H}
    (hp : c.machine.promise? p = some pr) (hd : c.machine.isDone p = false)
    (ha : c.machine.alive p = false) :
    (∃ pr, c.machine.promise? d = some pr) ∧ c.machine.isDone d = false ∧
      c.machine.alive d = false := by
  induction h with
  | self => exact ⟨⟨pr, hp⟩, hd, ha⟩
  | chained _ hκ hκd hr ih =>
    obtain ⟨-, hd', ha'⟩ := ih
    have hs := hc.source?_of_derives hκ hκd
    obtain ⟨pr', hp', -⟩ := Option.bind_eq_some_iff.1 hs
    exact ⟨⟨pr', hp'⟩, hc.pending_of_source hh hκ hκd hd', hc.not_alive_of_source hs hr ha'⟩

/-! ## All lifetimes -/

/-- How long promises live and what they show of each other. -/
structure Lifetimes (b : Behaviour H) (c : Chronicle H) : Prop where
  /-- Alive is what is in the least set. -/
  alive : ∀ p, c.machine.alive p = true ↔ c.machine.Lives p
  /-- What is chained from `s` has `s` as its source for ever. -/
  source : ∀ κ ∈ c.past, ∀ s f d, κ.Derives s f d → c.machine.source? d = some s
  /-- A derived promise shows its source while that is alive. -/
  shown : ∀ d s, c.machine.source? d = some s → c.machine.display d =
    Machine.chainShown (if c.machine.alive s then c.machine.display s else "<dropped>")
  /-- A promise is shown after looking at no more sources than its number says. -/
  ends : ∀ d n, d < n → c.machine.displayFrom n d = c.machine.display d
  /-- All sources are shown up to the first that is dropped, or up to the one that is chained from
  no other. -/
  cut : ∀ d,
    (∀ k a s, c.machine.Lineal d k a → c.machine.source? a = some s →
      c.machine.alive s = false → c.machine.display d = Machine.chainShown^[k + 1] "<dropped>") ∧
    (∀ k a, c.machine.Lineal d k a →
      c.machine.display d = Machine.chainShown^[k] (c.machine.display a)) ∧
    ∃ k a, c.machine.Lineal d k a ∧ ∀ s, c.machine.source? a = some s → c.machine.alive s = false
  /-- Whether something holds a derived promise makes no difference to whether its source is
  alive. -/
  weak : ∀ d s roots, c.machine.source? d = some s →
    (∀ p, p ≠ d → (p ∈ roots ↔ p ∈ c.machine.roots)) →
    c.machine.aliveFrom roots c.machine.promises.size s = c.machine.alive s
  /-- A promise that is alive keeps alive what is chained from it by a listener that it stores. -/
  strong : ∀ s pr f d, c.machine.alive s = true → c.machine.promise? s = some pr →
    .chain f d ∈ pr.listeners.data.toList → c.machine.alive d = true
  /-- A promise that is dropped while it is pending, and what it alone has held, stay dropped and
  pending, and none of their listeners is ever run. -/
  dropped : ∀ p pr, c.machine.promise? p = some pr → c.machine.isDone p = false →
    c.machine.alive p = false → ∀ c' l, c.Reaches b c' → c'.past = c.past ++ l →
    (∀ μ ∈ l, μ.Minds) → c'.Honest → ∀ d, c.Heir p d →
      c'.machine.alive d = false ∧ c'.machine.isDone d = false ∧
      ∀ ν ∈ c'.past, ∀ r, ν.next.callee? ≠ some (.notifying d r)

/-- A promise is alive as long as something holds it, be it a chain listener of a promise that is
alive, and a derived promise shows its sources as far as they are alive. What is dropped while it is
pending stays pending, with what it alone has held. -/
theorem shows_what_lives (hc : c.Reached b) : c.Lifetimes b := by
  have hlt := hc.source_lt
  refine ⟨fun p => hc.alive_iff_lives, fun κ hκ s f d hd => hc.source?_of_derives hκ hd,
    fun d s hs => Machine.display_of_source hlt hs,
    fun d n hn => Machine.displayFrom_eq hlt hn (Nat.lt_succ_self d),
    fun d => ⟨fun k a s hl hs ha => ?_, fun k a hl => hl.display hlt, Machine.exists_lineal hlt d⟩,
    fun d s roots hs hr => ?_, fun s pr f d ha hp hf => ?_,
    fun p pr hp hd ha c' l hl hpast hm hh e he => ?_⟩
  · rw [hl.display hlt, Machine.display_of_source hlt hs, if_neg (by rw [ha]; decide),
      Function.iterate_succ_apply]
  · refine Machine.aliveFrom_congr hlt fun p hp => hr p ?_
    rintro rfl
    exact absurd (hlt p s hs) (Nat.not_lt.2 hp)
  · rw [hc.alive_iff_lives] at ha ⊢
    exact .stored hp (List.mem_filterMap.2 ⟨_, hf, rfl⟩) ha
  · obtain ⟨⟨pr', hp'⟩, hd', ha'⟩ := he.dropped hc (hh.of_past hpast) hp hd ha
    obtain ⟨hd'', ha''⟩ := hc.stays_pending hp' hd' ha' hl hpast hm
    exact ⟨ha'', hd'', fun ν hν r => (hc.reaches hl).not_run_of_pending hd'' hν r⟩

/-- A thread makes a promise, holds it by a wait and chains two promises from it. It holds the
second of these by another wait, drops the first wait, and chains a promise from the second. -/
def estate : (r : Role) → Nat → Act Tabled r
  | .task, 0 => .call (.build { clock := some 0 }) 1
  | .task, 1 => .call (.wait 0) 2
  | .task, 2 => .call (.chain 0 5) 3
  | .task, 3 => .call (.chain 0 6) 4
  | .task, 4 => .call (.wait 2) 5
  | .task, 5 => .call (.dropWait 0) 6
  | .task, 6 => .call (.chain 2 7) 7
  | r, _ => Tabled.quiet r

/-- The run of that thread up to where it has dropped the wait. -/
def bequest : Option (Chronicle Tabled) :=
  (Tabled.start [0]).turns? (Tabled.behaviour estate) (List.replicate 20 (.step 0))

/-- What was chained first is dropped with the source, and the last promise shows its own source and
not the one above that. -/
theorem shows_what_lives_bequest : ∃ c c' l, bequest = some c ∧
    c.Reached (Tabled.behaviour estate) ∧ c.Lifetimes (Tabled.behaviour estate) ∧
    c.Heir 0 1 ∧ c.machine.alive 0 = false ∧ c.machine.alive 2 = true ∧
    c.Reaches (Tabled.behaviour estate) c' ∧ c'.past = c.past ++ l ∧ l ≠ [] ∧
    (∀ μ ∈ l, μ.Minds) ∧ c'.Honest ∧ c'.machine.alive 1 = false ∧ c'.machine.isDone 1 = false ∧
    c'.machine.display 3 = Machine.chainShown (Machine.chainShown "<dropped>") := by
  have hrun : (bequest.any fun c =>
      c.machine.isDone 0 == false && c.machine.alive 0 == false && c.machine.alive 2 &&
      (c.machine.promise? 0).isSome && !c.machine.roots.contains 1 &&
      (c.past.any fun κ => κ.derives? == some (0, 5, 1)) &&
      (c.turns? (Tabled.behaviour estate) (List.replicate 7 (.step 0))).any fun c' =>
        c'.isHonest && c'.past.all Moment.isMinding && c.past.length != c'.past.length &&
        c'.machine.display 3 ==
          Machine.chainShown (Machine.chainShown "<dropped>")) = true := by
    decide +kernel
  obtain ⟨c, hc, hrun⟩ := (Option.any_eq_true _ _).1 hrun
  simp only [Bool.and_eq_true, List.any_eq_true, Option.any_eq_true, beq_iff_eq, bne_iff_ne,
    Bool.not_eq_true', List.contains_eq_mem, decide_eq_false_iff_not] at hrun
  obtain ⟨⟨⟨⟨⟨⟨hdone, hgone⟩, hkept⟩, hp⟩, hroot⟩, κ, hκ, hd⟩, c', hc', ⟨⟨hh, hm⟩, hlen⟩, hshown⟩ :=
    hrun
  have hreach := Tabled.reached hc
  have hl := reaches_of_turns? hc'
  obtain ⟨l, hpast⟩ := hl.exists_past hreach
  have hminds : ∀ μ ∈ l, μ.Minds := fun μ hμ => Moment.minds_of_isMinding
    (List.all_eq_true.1 hm μ (hpast ▸ List.mem_append_right _ hμ))
  have hheir : c.Heir 0 1 :=
    .chained .self hκ ((hreach.sound κ hκ).1.derives_of_derives? hd) hroot
  obtain ⟨pr, hp⟩ := Option.isSome_iff_exists.1 hp
  have hlife := shows_what_lives hreach
  obtain ⟨hgone', hdone', -⟩ := hlife.dropped 0 pr hp hdone hgone c' l hl hpast hminds
    (honest_of_isHonest hh) 1 hheir
  refine ⟨c, c', l, hc, hreach, hlife, hheir, hgone, hkept, hl, hpast, ?_, hminds,
    honest_of_isHonest hh, hgone', hdone', hshown⟩
  rintro rfl
  rw [hpast, List.append_nil] at hlen
  exact hlen rfl

end Chronicle

end OneShot
