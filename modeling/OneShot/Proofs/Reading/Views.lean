import OneShot.Proofs.Completion.Order

/-!
# What consumers see

A promise can be looked at in many ways, some of which read the status, some the latch and some the
outcome cell, and there are four ways to read it that take steps of their own. This module says that
they all tell the same, whenever one looks, and that what they tell of a promise that is done they
tell for ever.

- **Looks** (`Promise.Agrees`, `Promise.Nested.agrees`): what is seen in one glance.
- **Calls that cannot wait** (`Chronicle.Soon`, `Chronicle.Answers`): a call whose next steps lead
  straight to an answer, whatever happens in between, gives that answer.
- **Reads and polls** of a promise that is done are such calls (`Reached.soon_read`,
  `Reached.soon_poll`).
- **All of it** (`views_agree`).
-/

namespace OneShot

variable {H : Host} {b : Behaviour H}

/-! ## Looks -/

theorem Promise.tryGet_eq_some_iff {pr : Promise H} {r : Except ReadError Value} :
    pr.tryGet = some r ↔ pr.isDone = true ∧ ∃ o, pr.outcome = some o ∧ o.read = r := by
  cases hd : pr.isDone <;> simp [tryGet, settled, hd]

/-- Everything that consumers see of a promise in one glance fits together. -/
structure Promise.Agrees (pr : Promise H) : Prop where
  timed : pr.isDone = true ↔ pr.endTime ≠ 0
  readable : pr.isDone = true ↔ pr.tryGet.isSome = true
  result : ∀ v, pr.result = some v ↔ pr.tryGet = some (.ok v)
  error : ∀ e, pr.error = some e ↔ pr.tryGet = some (.error (.execution e))
  failed : pr.isFailed = true ↔ ∃ e, pr.tryGet = some (.error (.execution e))
  cancelled : (pr.isDone = true ∧ pr.isCancelled = true) ↔ pr.tryGet = some (.error .cancelled)
  /-- A promise that is done has a value, or has failed, or was cancelled, and only one of these. -/
  one : pr.isDone = true → (pr.result.isSome, pr.isFailed, pr.isCancelled) ∈
    [(true, false, false), (false, true, false), (false, false, true)]

/-- Since the phases of a completion are nested, no two looks contradict each other. -/
theorem Promise.Nested.agrees {pr : Promise H} (h : pr.Nested) : pr.Agrees := by
  cases hd : pr.isDone with
  | false =>
    have hs : pr.settled = none := by simp [settled, hd]
    constructor
    · exact endTime_ne_zero_iff.symm
    all_goals simp [tryGet, Promise.result, Promise.error, isFailed, hs, hd]
  | true =>
    obtain ⟨o, ho⟩ := h.stored (endTime_ne_zero_iff.2 hd)
    have hs : pr.settled = some o := by simp [settled, hd, ho]
    have hcl := h.claimed o ho
    have hca := h.cancelled o ho
    constructor
    · exact endTime_ne_zero_iff.symm
    all_goals
      cases o <;>
        simp_all [tryGet, Promise.result, Promise.error, isFailed, isCancelled, Outcome.read,
          Outcome.value?, Outcome.error?]

namespace Chronicle

variable {c c' : Chronicle H} {p : PromiseId} {i : CallId} {a : Answer} {n : Nat} {f : Frame H}

/-! ## Calls that cannot wait -/

/-- Whatever happens from now on, a call at stage `f` leads to the answer `a` in at most `n` steps
of its own, none of which has to wait or changes anything. -/
def Soon (b : Behaviour H) (c : Chronicle H) (a : Answer) : Nat → Frame H → Prop
  | 0, _ => False
  | n + 1, f => f.awaits = false ∧ ∀ c', c.Reaches b c' → ∀ t th, c'.machine.thread? t = some th →
      f.step b c'.machine t .go = some (c'.machine, .answer a) ∨
        ∃ g, f.step b c'.machine t .go = some (c'.machine, .goto g) ∧ c.Soon b a n g

/-- Call `i` answers `a` within `n` steps of its own: it makes no more, it is never stuck, and if it
is over it has answered that. -/
structure Answers (b : Behaviour H) (c : Chronicle H) (i : CallId) (a : Answer) (n : Nat) :
    Prop where
  few : (c.moments i).length ≤ n
  ended : c.frame? i = none → ∃ l ν, c.moments i = l ++ [ν] ∧ ν.next = .answer a
  runs : c.frame? i ≠ none → (c.calls i.thread).head? = some i → c.machine.aborted = false →
    ∃ m, c.machine.step b i.thread = some m

theorem Soon.mono (h : c.Soon b a n f) (hl : c.Reaches b c') : c'.Soon b a n f := by
  induction n generalizing f with
  | zero => exact h
  | succ n ih =>
    refine ⟨h.1, fun c'' hl' t th ht => ?_⟩
    rcases h.2 c'' (hl.trans hl') t th ht with ha | ⟨g, hg, hs⟩
    · exact .inl ha
    · exact .inr ⟨g, hg, ih hs⟩

/-- A call that was entered at such a stage is still at one, or it has answered. -/
inductive Soon.Kept (b : Behaviour H) (c : Chronicle H) (i : CallId) (a : Answer) (n : Nat) : Prop
  | going {f k} (hi : c.frame? i = some f) (hs : c.Soon b a k f)
    (hn : (c.moments i).length + k = n)
  | gone {l ν} (hi : c.frame? i = none) (he : i.entry ≤ c.past.length)
    (hm : c.moments i = l ++ [ν]) (hν : ν.next = .answer a) (hn : (c.moments i).length ≤ n)

theorem step_asleep {m : Machine H} {t : ThreadId} {limited : Bool} :
    (Frame.reading p limited .asleep).step b m t .go = none := by
  simp only [Frame.step, Reading.step, Machine.runStage]
  cases m.promise? p with
  | none => rfl
  | some pr => cases m.thread? t <;> rfl

/-- What the next moment of such a call is. -/
theorem Extends.soon {μ : Moment H} (hc : c.Reached b) (h : c.Extends b μ)
    (hs : c.Soon b a (n + 1) μ.frame) :
    μ.next = .answer a ∨ ∃ g, μ.next = .goto g ∧ c.Soon b a n g := by
  have hk := (h.control hc.tracked).resolve_right (by rw [hs.1]; exact Bool.false_ne_true)
  -- The step that is known to come next is the one that was made.
  cases h.made with
  | step _ ht hstep _ =>
    rw [h.before] at ht hstep
    rw [hk] at hstep
    rcases hs.2 c .refl _ _ ht with ha | ⟨g, hg, hs⟩
    · rw [ha] at hstep
      exact .inl (congrArg Prod.snd (Option.some.inj hstep)).symm
    · rw [hg] at hstep
      exact .inr ⟨g, (congrArg Prod.snd (Option.some.inj hstep)).symm, hs⟩
  | wake ht hf _ _ =>
    rw [h.before] at ht
    rcases hs.2 c .refl _ _ ht with ha | ⟨g, hg, -⟩
    · rw [hf, step_asleep] at ha
      cases ha
    · rw [hf, step_asleep] at hg
      cases hg

/-- A moment takes such a call on, if it is one of the call, and else leaves it alone. -/
theorem Soon.Kept.record {μ : Moment H} (hc : c.Reached b) (h : c.Extends b μ)
    (hl : c.Reaches b (c.record μ)) (hk : Kept b c i a n) : Kept b (c.record μ) i a n := by
  have ht := hc.tracked
  cases hk with
  | @going f k hi hs hn =>
    obtain _ | k := k
    · exact hs.elim
    by_cases hiμ : i = μ.call
    · subst hiμ
      obtain rfl : μ.frame = f := h.frame_eq ht hi
      have hlen : ((c.record μ).moments μ.call).length = (c.moments μ.call).length + 1 := by
        simp [moments_record_self]
      have hown := frame?_record_self ht h
      rcases h.soon hc hs with hans | ⟨g, hgo, hs'⟩
      · rw [hans] at hown
        refine .gone hown ?_ moments_record_self hans (by omega)
        have := ht.entry_le hi
        simp only [past_record, List.length_append]
        omega
      · rw [hgo] at hown
        exact .going hown (hs'.mono hl) (by omega)
    · have hkept := frame?_record_of_ne ht h hiμ (h.ne_entered ht hi)
      rw [hi] at hkept
      generalize hx : (c.record μ).frame? i = x at hkept
      have hm : (c.record μ).moments i = c.moments i := moments_record_of_ne (Ne.symm hiμ)
      cases hkept with
      | same => exact .going hx (hs.mono hl) (by rw [hm]; exact hn)
      | rouse =>
        -- A sleeper is at no such stage.
        obtain ⟨st, hst, -⟩ := Option.bind_eq_some_iff.1 hi
        obtain ⟨th, hth, -⟩ := Option.map_eq_some_iff.1 hst
        rcases hs.2 c .refl _ _ hth with ha | ⟨g, hg, -⟩
        · rw [step_asleep] at ha
          cases ha
        · rw [step_asleep] at hg
          cases hg
  | @gone l ν hi he hm hν hn =>
    have hne : μ.call ≠ i := by
      intro heq
      have := h.frame? ht
      rw [heq, hi] at this
      cases this
    have hm' : (c.record μ).moments i = c.moments i := moments_record_of_ne hne
    refine .gone (frame?_record_eq_none ht h he hi) ?_ (by rw [hm', hm]) hν (by rw [hm']; exact hn)
    simp only [past_record, List.length_append]
    omega

theorem Soon.Kept.answers (hc : c.Reached b) (hk : Kept b c i a n) : c.Answers b i a n := by
  cases hk with
  | @going f k hi hs hn =>
    refine ⟨by omega, fun hnone => ?_, fun _ htop hab => ?_⟩
    · rw [hi] at hnone
      cases hnone
    · obtain _ | k := k
      · exact hs.elim
      obtain ⟨ctl, rest, token, ht, hctl, -⟩ := hc.top hi htop hab
      obtain rfl : ctl = .go := hctl.resolve_right (by rw [hs.1]; exact Bool.false_ne_true)
      refine Machine.exists_step hab ht ?_
      rcases hs.2 c .refl _ _ ht with ha | ⟨g, hg, -⟩
      · rw [ha]
        rfl
      · rw [hg]
        rfl
  | @gone l ν hi _ hm hν hn => exact ⟨hn, fun _ => ⟨l, ν, hm, hν⟩, fun hne => absurd hi hne⟩

/-- A call that is entered at such a stage gives its answer. -/
theorem Soon.answers (hc : c.Reached b) (hi : c.frame? i = some f) (hm : c.moments i = [])
    (hs : c.Soon b a n f) (hl : c.Reaches b c') : c'.Answers b i a n := by
  suffices hk : Kept b c' i a n from hk.answers (hc.reaches hl)
  induction hl with
  | refl => exact .going hi hs (by simp [hm])
  | tail e hl he ih =>
    have hr := hc.reaches hl
    obtain ⟨μ, hμ, rfl⟩ := exists_extends_of_turn? hr.tracked he
    exact ih.record hr hμ (.tail e .refl he)

/-! ## Reads and polls -/

variable {pr : Promise H} {r : Except ReadError Value}

/-- What a read of a promise that is done tells, now and ever after. -/
theorem Reached.tryGet_of_reaches (hc : c.Reached b) (hp : c.machine.promise? p = some pr)
    (hr : pr.tryGet = some r) (hl : c.Reaches b c') :
    ∃ pr', c'.machine.promise? p = some pr' ∧ pr'.isDone = true ∧ pr'.tryGet = some r := by
  obtain ⟨hd, o, ho, rfl⟩ := Promise.tryGet_eq_some_iff.1 hr
  obtain ⟨pr', hp', hcl⟩ := hc.climbs hl hp
  have hd' := hcl.isDone hd
  exact ⟨pr', hp', hd', Promise.tryGet_eq_some_iff.2 ⟨hd', o, hcl.outcome o ho, rfl⟩⟩

/-- A read that fetches the outcome answers with it. -/
theorem Reached.soon_fetch (hc : c.Reached b) (hp : c.machine.promise? p = some pr)
    (hr : pr.tryGet = some r) (limited : Bool) :
    c.Soon b (.read r) 1 (.reading p limited .fetch) := by
  refine ⟨rfl, fun c' hl t th ht => .inl ?_⟩
  obtain ⟨pr', hp', hd, hr'⟩ := hc.tryGet_of_reaches hp hr hl
  obtain ⟨-, o, ho, rfl⟩ := Promise.tryGet_eq_some_iff.1 hr'
  simp [Frame.step, Reading.step, Machine.runStage, hp', ht, Promise.settled, hd, ho]

/-- A read of a promise that is done looks at the latch, and never at its flag or its deadline. -/
theorem Reached.soon_read (hc : c.Reached b) (hp : c.machine.promise? p = some pr)
    (hr : pr.tryGet = some r) (limited : Bool) {s : Reading} (hs : s = .peek ∨ s = .attempt) :
    c.Soon b (.read r) 2 (.reading p limited s) := by
  refine ⟨rfl, fun c' hl t th ht => .inr ⟨_, ?_, hc.soon_fetch hp hr limited⟩⟩
  obtain ⟨pr', hp', hd, -⟩ := hc.tryGet_of_reaches hp hr hl
  rcases hs with rfl | rfl <;>
    simp [Frame.step, Reading.step, Machine.runStage, hp', ht, hd]

theorem Reached.wait_of_reaches (hc : c.Reached b) {v : WaitId} {wait : Wait}
    (hw : c.machine.wait? v = some wait) (hl : c.Reaches b c') :
    ∃ wait', c'.machine.wait? v = some wait' ∧ wait'.promise = wait.promise := by
  induction hl with
  | refl => exact ⟨wait, hw, rfl⟩
  | tail e hl he ih =>
    obtain ⟨wait₁, hw₁, hp₁⟩ := ih
    obtain ⟨μ, hμ, rfl⟩ := exists_extends_of_turn? (hc.reaches hl).tracked he
    obtain ⟨wait₂, hw₂, hp₂⟩ := hμ.wait hw₁
    exact ⟨wait₂, hw₂, hp₂.trans hp₁⟩

/-- A poll of a wait on a promise that is done answers at its first look. -/
theorem Reached.soon_poll (hc : c.Reached b) (hp : c.machine.promise? p = some pr)
    (hr : pr.tryGet = some r) {v : WaitId} {wait : Wait} (hw : c.machine.wait? v = some wait)
    (hwp : wait.promise = p) (x : H.Closure .waker) :
    c.Soon b (.polled (some r)) 1 (.polling v x .attempt) := by
  refine ⟨rfl, fun c' hl t th ht => .inl ?_⟩
  obtain ⟨pr', hp', hd, hr'⟩ := hc.tryGet_of_reaches hp hr hl
  obtain ⟨wait', hw', hwp'⟩ := hc.wait_of_reaches hw hl
  rw [hwp] at hwp'
  simp [Frame.step, Polling.step, Machine.runStage, hw', hwp', hp', hr']

/-- A call that is entered at a moment has no moments yet. -/
theorem Extends.entered {μ : Moment H} (hc : c.Reached b) (h : c.Extends b μ) {g : Frame H}
    (hg : μ.next.callee? = some g) :
    (c.record μ).frame? μ.entered = some g ∧ (c.record μ).moments μ.entered = [] := by
  have ht := hc.tracked
  refine ⟨by rw [frame?_record_entered ht h, hg], ?_⟩
  rw [moments_record_of_ne (h.ne_entered ht (h.frame? ht))]
  exact hc.moments_eq_nil (by simp [Moment.entered, h.number])

/-- A call that is made gives its answer if, in the run up to then, the stage at which it is entered
leads straight to it. -/
theorem Reached.answers (hc : c.Reached b) {μ : Moment H} (hμ : μ ∈ c.past) {g : Frame H}
    (hg : μ.next.callee? = some g)
    (hs : ∀ c₀ : Chronicle H, c₀.Reached b → c₀.Extends b μ → c₀.Reaches b c → c₀.Soon b a n g) :
    c.Answers b μ.entered a n := by
  obtain ⟨c₀, hc₀, h, hturn, hl⟩ := hc.reaches_of_mem hμ
  obtain ⟨hi, hm⟩ := h.entered hc₀ hg
  exact ((hs c₀ hc₀ h (hturn.trans hl)).mono hturn).answers (hc₀.reaches hturn) hi hm hl

/-- Whenever somebody looks at a promise, all that can be seen of it agrees, and of a promise that
is done it stays so for ever: every read of it, with or without a deadline, answers with what is
seen within two steps of its own and every poll of a wait on it in its first, whatever the interrupt
flags are and whatever else happens in between. -/
theorem views_agree (hc : c.Reached b) :
    (∀ p pr, c.machine.promise? p = some pr → pr.Agrees) ∧
    ∀ p pr, c.machine.promise? p = some pr → pr.isDone = true →
      ∃ r, pr.tryGet = some r ∧ ∀ c', c.Reaches b c' →
        (∃ pr', c'.machine.promise? p = some pr' ∧ pr'.tryGet = some r) ∧
        ∀ μ ∈ c'.past, μ.before.isDone p = true →
          (∀ k : Call H, k = .get p ∨ (∃ limited, k = .getTimeout p limited) →
            μ.next.callee? = some k.frame → c'.Answers b μ.entered (.read r) 2) ∧
          ∀ v x wait, μ.before.wait? v = some wait → wait.promise = p →
            μ.next.callee? = some (Call.poll v x).frame →
              c'.Answers b μ.entered (.polled (some r)) 1 := by
  refine ⟨fun p pr hp => (hc.nested hp).agrees, fun p pr hp hd => ?_⟩
  obtain ⟨r, hr⟩ := Option.isSome_iff_exists.1 ((hc.nested hp).agrees.readable.1 hd)
  refine ⟨r, hr, fun c' hl => ?_⟩
  have hc' := hc.reaches hl
  obtain ⟨pr', hp', -, hr'⟩ := hc.tryGet_of_reaches hp hr hl
  -- The read tells the same at the moment of the call, be it before or after now.
  have hread : ∀ (c₀ : Chronicle H) μ, c₀.Reached b → c₀.Extends b μ → c₀.Reaches b c' →
      μ.before.isDone p = true → ∃ pr₀, c₀.machine.promise? p = some pr₀ ∧ pr₀.tryGet = some r := by
    intro c₀ μ hc₀ h hl₀ hdone
    rw [h.before] at hdone
    obtain ⟨pr₀, hp₀, hd₀⟩ := Machine.isDone_iff.1 hdone
    obtain ⟨r₀, hr₀⟩ := Option.isSome_iff_exists.1 ((hc₀.nested hp₀).agrees.readable.1 hd₀)
    obtain ⟨pr₁, hp₁, -, hr₁⟩ := hc₀.tryGet_of_reaches hp₀ hr₀ hl₀
    rw [hp'] at hp₁
    cases hp₁
    exact ⟨pr₀, hp₀, hr₀.trans (hr₁.symm.trans hr')⟩
  refine ⟨⟨pr', hp', hr'⟩, fun μ hμ hdone => ⟨fun k hk hcal => ?_, fun v x wait hw hwp hcal => ?_⟩⟩
  · refine hc'.answers hμ hcal fun c₀ hc₀ h hl₀ => ?_
    obtain ⟨pr₀, hp₀, hr₀⟩ := hread c₀ μ hc₀ h hl₀ hdone
    rcases hk with rfl | ⟨limited, rfl⟩
    · exact hc₀.soon_read hp₀ hr₀ false (.inr rfl)
    · exact hc₀.soon_read hp₀ hr₀ limited (.inl rfl)
  · refine hc'.answers hμ hcal fun c₀ hc₀ h hl₀ => ?_
    obtain ⟨pr₀, hp₀, hr₀⟩ := hread c₀ μ hc₀ h hl₀ hdone
    rw [h.before] at hw
    exact hc₀.soon_poll hp₀ hr₀ hw hwp x

/-- A thread makes a promise, completes it and interrupts a second one, which then reads the promise
with a deadline and polls a wait on it. -/
def onlookers : (r : Role) → Nat → Act Tabled r
  | .task, 0 => .call (.build {}) 1
  | .task, 1 => .call (.complete 0 (.failed .unit)) 2
  | .task, 2 => .call (.interrupt 1) 3
  | .task, 10 => .call (.getTimeout 0 true) 11
  | .task, 11 => .call (.wait 0) 12
  | .task, 12 => .call (.poll 0 7) 13
  | r, _ => Tabled.quiet r

/-- The run of the two threads one after the other. -/
def glance : Option (Chronicle Tabled) :=
  (Tabled.start [0, 10]).turns? (Tabled.behaviour onlookers)
    (List.replicate 22 (.step 0) ++ List.replicate 8 (.step 1))

theorem views_agree_glance : ∃ c pr, glance = some c ∧ c.Reached (Tabled.behaviour onlookers) ∧
    c.machine.promise? 0 = some pr ∧ pr.isDone = true ∧ pr.Agrees ∧
    pr.tryGet = some (.error (.execution .unit)) ∧
    (∃ μ ∈ c.past, μ.next.callee? = some (.reading 0 true .peek) ∧ μ.before.isFlagged 1 = true ∧
      c.Answers (Tabled.behaviour onlookers) μ.entered (.read (.error (.execution .unit))) 2) ∧
    ∃ μ ∈ c.past, μ.next.callee? = some (.polling 0 7 .attempt) ∧
      c.Answers (Tabled.behaviour onlookers) μ.entered
        (.polled (some (.error (.execution .unit)))) 1 := by
  have hrun : (glance.any fun c =>
      ((c.machine.promise? 0).any fun pr =>
        pr.isDone && pr.tryGet == some (.error (.execution .unit))) &&
      (c.past.any fun μ => μ.before.isDone 0 && μ.before.isFlagged 1 &&
        μ.next.callee?.any fun f => f.reading? == some (0, true, .peek)) &&
      c.past.any fun μ => μ.before.isDone 0 &&
        ((μ.before.wait? 0).any fun wait => wait.promise == 0) &&
        μ.next.callee?.any fun f => f.polling? == some (0, 7, .attempt)) = true := by
    decide +kernel
  obtain ⟨c, hc, hrun⟩ := (Option.any_eq_true _ _).1 hrun
  simp only [Bool.and_eq_true, List.any_eq_true, Option.any_eq_true, beq_iff_eq] at hrun
  obtain ⟨⟨⟨pr, hp, hd, hr⟩, μ, hμ, ⟨hdone, hflag⟩, f, hf, hread⟩,
    ν, hν, ⟨hdone', wait, hw, hwp⟩, g, hg, hpoll⟩ := hrun
  rw [Frame.eq_reading hread] at hf
  rw [Frame.eq_polling hpoll] at hg
  have hreach := Tabled.reached hc
  obtain ⟨hagree, hviews⟩ := views_agree hreach
  obtain ⟨r, hr', hviews⟩ := hviews 0 pr hp hd
  obtain rfl : r = _ := Option.some.inj (hr'.symm.trans hr)
  obtain ⟨-, hcalls⟩ := hviews c .refl
  exact ⟨c, pr, hc, hreach, hp, hd, hagree 0 pr hp, hr,
    ⟨μ, hμ, hf, hflag, (hcalls μ hμ hdone).1 (.getTimeout 0 true) (.inr ⟨true, rfl⟩) hf⟩,
    ν, hν, hg, (hcalls ν hν hdone').2 0 7 wait hw hwp hg⟩

end Chronicle

end OneShot
