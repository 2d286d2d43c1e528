import OneShot.Proofs.History.Chronicle

/-!
# The bookkeeping of a chronicle

What a chronicle writes down is what happened, and the names that it gives to calls are in order.

- **Moments** (`Moment.Made`, `Moment.Effect`): a step of the call, or the end of its sleep. A turn
  writes down one (`exists_extends_of_turn?`).
- **Names** (`Chronicle.Tracked`): each call in progress has one name and each name is used once.
  The calls under a thread's top call all wait, and an answer or a panic meets only a call that
  does. This holds in every run (`Reached.tracked`).
- **Induction over a run** (`Reached.induction`): one moment at a time.
- **Runs of the machine** are the runs of its chronicles (`machine_of_turn?`, `exists_reached`).
-/

namespace OneShot

variable {H : Host} {b : Behaviour H}

/-! ## Moments that happened -/

/-- What is written down at a moment is what happened: a step of the call, or the end of its sleep
other than by being woken. -/
inductive Moment.Made (b : Behaviour H) (μ : Moment H) : Prop
  | step {rest token m} (hn : μ.before.aborted = false)
    (ht : μ.before.thread? μ.call.thread = some ⟨μ.control, μ.frame :: rest, token⟩)
    (hs : μ.frame.step b μ.before μ.call.thread μ.control = some (m, μ.next))
    (ha : μ.after = m.proceed μ.call.thread rest μ.next)
  | wake {p limited late rest token}
    (ht : μ.before.thread? μ.call.thread = some ⟨μ.control, μ.frame :: rest, token⟩)
    (hf : μ.frame = .reading p limited .asleep)
    (hn : μ.next = .goto (.reading p limited (.lockGate late)))
    (ha : μ.after = μ.before.modifyThread μ.call.thread fun th =>
      { th with frames := .reading p limited (.lockGate late) :: rest })
    (hl : late = true → limited = true)

namespace Machine

@[simp] theorem cells?_proceed (m : Machine H) (t : ThreadId) (rest : List (Frame H)) (n : Next H)
    (q : PromiseId) : (m.proceed t rest n).cells? q = m.cells? q := by
  cases n <;> rfl

theorem thread?_proceed_of_ne (m : Machine H) {t u : ThreadId} (rest : List (Frame H)) (n : Next H)
    (hu : u ≠ t) : (m.proceed t rest n).thread? u = m.thread? u := by
  cases n with
  | abort => rfl
  | _ => simp [proceed, hu.symm]

theorem stack?_proceed_of_ne (m : Machine H) {t u : ThreadId} (rest : List (Frame H)) (n : Next H)
    (hu : u ≠ t) : (m.proceed t rest n).stack? u = m.stack? u := by
  rw [stack?, stack?, thread?_proceed_of_ne m rest n hu]

end Machine

/-- The stack of a thread after a step of the call at stage `f` on top of it, which had `k` to deal
with. -/
def Next.stack (f : Frame H) (rest : List (Frame H)) (k : Control) :
    Next H → Control × List (Frame H)
  | .goto g => (.go, g :: rest)
  | .enter callee g => (.go, callee :: g :: rest)
  | .answer a => (.ret a, rest)
  | .throw x => (.raise x, rest)
  | .abort => (k, f :: rest)

namespace Moment

variable {μ : Moment H}

/-- What a moment changes, apart from the stack of its own thread. -/
structure Effect (μ : Moment H) : Prop where
  promise : ∀ q,
    Promise.Change μ.before q μ.frame μ.next (μ.before.cells? q) (μ.after.cells? q)
  wait : ∀ v, Wait.Change μ.before v μ.frame μ.next (μ.before.wait? v) (μ.after.wait? v)
  stack : ∀ u, u ≠ μ.call.thread →
    Stack.Change u μ.frame μ.next (μ.before.stack? u) (μ.after.stack? u)

theorem Made.effect (h : μ.Made b) : μ.Effect := by
  cases h with
  | step hn ht hs ha =>
    have he := Frame.effect_of_step hs
    refine ⟨fun q => ?_, fun v => ?_, fun u hu => ?_⟩
    · rw [ha, Machine.cells?_proceed]
      exact he.promise q
    · rw [ha, Machine.wait?_proceed]
      exact he.wait v
    · rw [ha, Machine.stack?_proceed_of_ne _ _ _ hu]
      exact he.stack u
  | wake ht hf hn ha =>
    refine ⟨fun q => ?_, fun v => ?_, fun u hu => ?_⟩
    · rw [ha]; exact .same
    · rw [ha]; exact .same
    · rw [ha, Machine.stack?, Machine.stack?, Machine.thread?_modifyThread, if_neg (Ne.symm hu)]
      exact .same

theorem Made.leads (h : μ.Made b) : μ.frame.Leads μ.next := by
  cases h with
  | step hn ht hs ha => exact Frame.leads_of_step hs
  | wake ht hf hn ha => rw [hf, hn]; exact .goto .reading

/-- The stack of a moment's own thread. -/
theorem Made.stack (h : μ.Made b) (hk : μ.control = .go ∨ μ.frame.awaits = true) :
    ∃ rest, μ.before.stack? μ.call.thread = some (μ.control, μ.frame :: rest) ∧
      μ.after.stack? μ.call.thread = some (μ.next.stack μ.frame rest μ.control) := by
  obtain ⟨number, ⟨t, entry⟩, frame, control, next, before, after⟩ := μ
  cases h with
  | @step rest token m hn ht hs ha =>
    dsimp only at hn ht hs ha ⊢
    subst ha
    have hb : before.stack? t = some (control, frame :: rest) := by simp [Machine.stack?, ht]
    refine ⟨rest, hb, ?_⟩
    have hc := (Frame.effect_of_step hs).stack t
    rw [hb] at hc
    obtain ⟨th, hth⟩ : ∃ th, m.thread? t = some th := by
      cases hm : m.thread? t with
      | none => rw [show m.stack? t = none by simp [Machine.stack?, hm]] at hc; cases hc
      | some th => exact ⟨th, rfl⟩
    cases next with
    | abort =>
      -- Only a cleanup can be aborted, and that is not asleep.
      cases Frame.leads_of_step hs with
      | abort hf =>
        subst hf
        generalize hx : m.stack? t = x at hc
        cases hc
        exact hx
    | _ => simp [Machine.proceed, Machine.stack?, Next.stack, hth]
  | @wake p limited late rest token ht hf hn ha =>
    dsimp only at ht hf hn ha hk ⊢
    subst hf hn ha
    rcases hk with rfl | haw
    · exact ⟨rest, by simp [Machine.stack?, ht], by simp [Machine.stack?, ht, Next.stack]⟩
    · cases haw

end Moment

/-! ## Names in use -/

/-- The bookkeeping of one thread: each of its calls has a name of its own, given before now, and
all calls but the top one wait for the call above them. -/
structure Stack.Tracked (now : Nat) (t : ThreadId) (is : List CallId) (k : Control)
    (fs : List (Frame H)) : Prop where
  length : is.length = fs.length
  names : ∀ i ∈ is, i.thread = t ∧ i.entry ≤ now
  nodup : is.Nodup
  awaits : ∀ f ∈ fs.tail, f.awaits = true
  /-- An answer or a panic meets only a call that waits. -/
  control : ∀ f ∈ fs.head?, k = .go ∨ f.awaits = true

theorem Stack.names_of_length {i : CallId} {is : List CallId} {k : Control} {fs : List (Frame H)}
    (h : is.length = fs.length) : Stack.names i is (some (k, fs)) = is := by
  cases is with
  | nil => rw [List.length_eq_zero_iff.1 h.symm]; rfl
  | cons j is => rfl

namespace Stack.Tracked

variable {now : Nat} {t : ThreadId} {is : List CallId} {k : Control} {fs : List (Frame H)}

theorem later (h : Stack.Tracked now t is k fs) : Stack.Tracked (now + 1) t is k fs :=
  { h with names := fun i hi => ⟨(h.names i hi).1, Nat.le_succ_of_le (h.names i hi).2⟩ }

/-- The bookkeeping of a thread after a step of its top call. -/
theorem next {i : CallId} {f : Frame H} {n : Next H}
    (h : Stack.Tracked now t (i :: is) k (f :: fs)) (hl : f.Leads n) :
    Stack.Tracked (now + 1) t (n.names ⟨t, now + 1⟩ (i :: is)) (n.stack f fs k).1
      (n.stack f fs k).2 := by
  have hs := h.later
  -- The number of this moment is above those of all calls that are in progress.
  have hnew : (⟨t, now + 1⟩ : CallId) ∉ i :: is := fun hm =>
    Nat.not_succ_le_self now (h.names _ hm).2
  cases hl with
  | goto hsame => exact ⟨hs.length, hs.names, hs.nodup, hs.awaits, fun _ _ => .inl rfl⟩
  | enter hsame haw hc =>
    refine ⟨by simpa [Next.names, Next.stack] using h.length, ?_, ?_, ?_, fun _ _ => .inl rfl⟩
    · intro j hj
      rcases List.mem_cons.1 hj with rfl | hj
      · exact ⟨rfl, Nat.le_refl _⟩
      · exact hs.names j hj
    · exact List.nodup_cons.2 ⟨hnew, h.nodup⟩
    · intro g hg
      rcases List.mem_cons.1 hg with rfl | hg
      · exact haw
      · exact h.awaits g hg
  | answer | throw =>
    refine ⟨by simpa [Next.names, Next.stack] using h.length, ?_, ?_, ?_, ?_⟩
    · exact fun j hj => hs.names j (List.mem_of_mem_tail hj)
    · exact (List.nodup_cons.1 h.nodup).2
    · exact fun g hg => h.awaits g (List.mem_of_mem_tail hg)
    · exact fun g hg => .inr (h.awaits g (List.mem_of_mem_head? hg))
  | abort hf => exact hs

/-- The bookkeeping of a thread that did not move. -/
theorem other {f : Frame H} {n : Next H} {k' : Control} {fs' : List (Frame H)}
    (h : Stack.Tracked now t is k fs)
    (hc : Stack.Change t f n (some (k, fs)) (some (k', fs'))) :
    Stack.Tracked (now + 1) t (Stack.names ⟨t, now + 1⟩ is (some (k', fs'))) k' fs' := by
  have hs := h.later
  cases hc with
  | same =>
    cases is with
    | nil =>
      obtain rfl : fs = [] := List.length_eq_zero_iff.1 h.length.symm
      exact hs
    | cons i is => exact hs
  | rouse =>
    cases is with
    | nil => have := h.length; simp at this
    | cons i is =>
      refine ⟨hs.length, hs.names, hs.nodup, hs.awaits, ?_⟩
      -- A sleeper has nothing else to deal with.
      rcases h.control _ rfl with hgo | haw
      · exact fun _ _ => .inl hgo
      · cases haw
  | fork =>
    obtain rfl : is = [] := List.length_eq_zero_iff.1 h.length
    exact ⟨rfl, by simp [Stack.names], by simp [Stack.names], by simp, fun _ _ => .inl rfl⟩

end Stack.Tracked

namespace Chronicle

/-- The bookkeeping of a chronicle. -/
structure Tracked (c : Chronicle H) : Prop where
  stack : ∀ t k fs, c.machine.stack? t = some (k, fs) →
    Stack.Tracked c.past.length t (c.calls t) k fs
  absent : ∀ t, c.machine.stack? t = none → c.calls t = []

theorem Tracked.names {c : Chronicle H} (hc : c.Tracked) {t : ThreadId} {i : CallId}
    (hi : i ∈ c.calls t) : i.thread = t ∧ i.entry ≤ c.past.length := by
  cases hs : c.machine.stack? t with
  | none => rw [hc.absent t hs] at hi; cases hi
  | some s => exact (hc.stack t _ _ hs).names i hi

/-- A moment that happened to the call on top of a thread of `c`, as the next one. -/
structure Extends (b : Behaviour H) (c : Chronicle H) (μ : Moment H) : Prop where
  made : μ.Made b
  before : μ.before = c.machine
  number : μ.number = c.past.length + 1
  top : (c.calls μ.call.thread).head? = some μ.call

/-- A turn writes down one moment, which happened to the call on top of the thread that moved. -/
theorem exists_extends_of_turn? {c c' : Chronicle H} {e : Turn} (hc : c.Tracked)
    (h : c.turn? b e = some c') : ∃ μ : Moment H, c.Extends b μ ∧ c' = c.record μ := by
  obtain ⟨after, ha, h⟩ := Option.bind_eq_some_iff.1 h
  obtain ⟨⟨control, frames, token⟩, ht, h⟩ := Option.bind_eq_some_iff.1 h
  obtain ⟨frame, hf, h⟩ := Option.bind_eq_some_iff.1 h
  obtain ⟨call, hi, h⟩ := Option.bind_eq_some_iff.1 h
  obtain ⟨next, hn, h⟩ := Option.bind_eq_some_iff.1 h
  cases h
  obtain ⟨rest, rfl⟩ : ∃ rest, frames = frame :: rest := by
    cases frames with
    | nil => cases hf
    | cons f fs => cases hf; exact ⟨fs, rfl⟩
  have hcall : call.thread = e.thread := (hc.names (List.mem_of_head? hi)).1
  refine ⟨_, ⟨?_, rfl, rfl, by simpa only [hcall] using hi⟩, rfl⟩
  cases e with
  | step t =>
    simp only [Turn.thread] at ht hcall
    simp only [Machine.move?, Machine.step, ht] at ha
    simp only [Machine.next?, ht] at hn
    split at ha
    · cases ha
    · rename_i hab
      obtain ⟨⟨m, n⟩, hs, rfl⟩ := Option.map_eq_some_iff.1 ha
      rw [hs] at hn
      cases hn
      exact .step (by simpa using hab) (by simpa only [hcall] using ht)
        (by simpa only [hcall] using hs) (by simp only [hcall])
  | expire t | disturb t =>
    simp only [Turn.thread] at ht hcall
    subst hcall
    simp only [Machine.move?, Machine.expire, Machine.disturb, ht] at ha
    simp only [Machine.next?, ht] at hn
    split at ha
    · rename_i heq
      cases heq
      cases ha
      cases hn
      exact .wake ht rfl rfl rfl (by simp)
    · cases ha

variable {c : Chronicle H} {μ : Moment H}

theorem Extends.wait (h : c.Extends b μ) {w : WaitId} {wait : Wait}
    (hw : c.machine.wait? w = some wait) :
    ∃ wait', μ.after.wait? w = some wait' ∧ wait'.promise = wait.promise := by
  have hch := h.made.effect.wait w
  rw [h.before, hw] at hch
  generalize μ.frame = f, μ.next = n, μ.after.wait? w = x at hch ⊢
  cases hch <;> exact ⟨_, rfl, rfl⟩

/-- The stack of a moment's thread and the names of its calls. -/
theorem Extends.stack (hc : c.Tracked) (h : c.Extends b μ) :
    ∃ is rest, c.calls μ.call.thread = μ.call :: is ∧
      c.machine.stack? μ.call.thread = some (μ.control, μ.frame :: rest) ∧
      μ.after.stack? μ.call.thread = some (μ.next.stack μ.frame rest μ.control) := by
  obtain ⟨is, his⟩ : ∃ is, c.calls μ.call.thread = μ.call :: is := by
    cases hi : c.calls μ.call.thread with
    | nil => have := h.top; rw [hi] at this; cases this
    | cons i is => have := h.top; rw [hi] at this; cases this; exact ⟨is, rfl⟩
  have hs : ∃ rest, c.machine.stack? μ.call.thread = some (μ.control, μ.frame :: rest) := by
    rw [← h.before]
    cases h.made with
    | step hn ht hs ha | wake ht hf hn ha => exact ⟨_, by rw [Machine.stack?, ht]; rfl⟩
  obtain ⟨rest, hs⟩ := hs
  obtain ⟨rest', hb, ha⟩ := h.made.stack ((hc.stack _ _ _ hs).control _ rfl)
  rw [h.before, hs] at hb
  cases hb
  exact ⟨is, rest, his, hs, ha⟩

/-- Where a thread that did not move is after a moment: where it was, but that its sleeping read may
have been woken; new and without work; or at the start of new work. -/
theorem Extends.other (hc : c.Tracked) (h : c.Extends b μ) {u : ThreadId}
    (hu : u ≠ μ.call.thread) {k : Control} {fs : List (Frame H)}
    (hs : μ.after.stack? u = some (k, fs)) :
    (∃ fs₀, c.machine.stack? u = some (k, fs₀) ∧ fs.tail = fs₀.tail ∧
        (c.record μ).calls u = c.calls u) ∨
      fs = [] ∧ (c.record μ).calls u = [] ∨
      k = .go ∧ (c.record μ).calls u = [⟨u, μ.number⟩] := by
  have hch := h.made.effect.stack u hu
  rw [h.before, hs] at hch
  simp only [Chronicle.record, Moment.calls, if_neg hu, hs]
  generalize μ.frame = f, μ.next = n at hch
  cases hb : c.machine.stack? u with
  | none =>
    rw [hb] at hch
    cases hch
    exact .inr (.inl ⟨rfl, by rw [hc.absent u hb]; rfl⟩)
  | some s =>
    obtain ⟨k₀, fs₀⟩ := s
    have hl := (hc.stack u _ _ hb).length
    rw [hb] at hch
    cases hch with
    | same => exact .inl ⟨fs, rfl, rfl, Stack.names_of_length hl⟩
    | rouse => exact .inl ⟨_, rfl, rfl, Stack.names_of_length hl⟩
    | fork => exact .inr (.inr ⟨rfl, by rw [List.length_eq_zero_iff.1 hl]; rfl⟩)

theorem Tracked.record (hc : c.Tracked) (h : c.Extends b μ) : (c.record μ).Tracked := by
  obtain ⟨is, rest, his, hs, ha⟩ := h.stack hc
  have ht := hc.stack _ _ _ hs
  rw [his] at ht
  have hlen : (c.record μ).past.length = c.past.length + 1 := by simp [Chronicle.record]
  refine ⟨fun u k fs hu => ?_, fun u hu => ?_⟩
  · rw [hlen]
    change μ.after.stack? u = some (k, fs) at hu
    -- Its own thread takes the step; on another a sleeper may be woken, or work begin.
    by_cases heq : u = μ.call.thread
    · subst heq
      rw [ha] at hu
      have hn := ht.next h.made.leads
      rw [Option.some.inj hu, ← h.number, ← his] at hn
      simpa [Chronicle.record, Moment.calls, Moment.entered, ← h.number] using hn
    · have hch := h.made.effect.stack u heq
      rw [h.before, hu] at hch
      simp only [Chronicle.record, Moment.calls, if_neg heq, hu, h.number]
      cases hb : c.machine.stack? u with
      | some s =>
        rw [hb] at hch
        exact (hc.stack u _ _ hb).other hch
      | none =>
        rw [hb] at hch
        rw [hc.absent u hb]
        generalize μ.frame = f, μ.next = n at hch
        cases hch
        exact ⟨rfl, by simp [Stack.names], by simp [Stack.names], by simp, by simp⟩
  · change μ.after.stack? u = none at hu
    by_cases heq : u = μ.call.thread
    · subst heq
      rw [ha] at hu
      cases hu
    · have hch := h.made.effect.stack u heq
      rw [h.before, hu] at hch
      simp only [Chronicle.record, Moment.calls, if_neg heq, hu]
      generalize μ.frame = f, μ.next = n at hch
      cases hb : c.machine.stack? u with
      | some s => rw [hb] at hch; cases hch
      | none => rw [hc.absent u hb]; rfl

theorem tracked_start {m : Machine H} (hm : m.Initial) : (start m).Tracked := by
  refine ⟨fun t k fs hs => ?_, fun t hs => ?_⟩
  · obtain ⟨th, ht, heq⟩ := Option.map_eq_some_iff.1 hs
    cases heq
    have hcalls : (start m).calls t = th.frames.map fun _ => ⟨t, 0⟩ := by
      simp only [start]
      change m.stack? t = _ at hs
      rw [hs]
      rfl
    rw [hcalls]
    rcases hm.threads th (Array.mem_of_getElem? ht) with hf | ⟨work, hf, -⟩
    · simp only [hf]
      exact ⟨rfl, by simp, by simp, by simp, by simp⟩
    · simp only [hf]
      exact ⟨rfl, by simp, by simp, by simp, fun g hg => by cases hg; exact .inr rfl⟩
  · change m.stack? t = none at hs
    simp [start, hs]

theorem Reached.tracked (hc : c.Reached b) : c.Tracked := by
  refine hc.induct (fun m hm => tracked_start hm) fun c c' e _ ih he => ?_
  obtain ⟨μ, hμ, rfl⟩ := exists_extends_of_turn? ih he
  exact ih.record hμ

/-- What holds at the start and is kept by every moment holds of every run. -/
@[elab_as_elim]
theorem Reached.induction {motive : (c : Chronicle H) → c.Reached b → Prop}
    (start : ∀ (m : Machine H) (hm : m.Initial), motive (.start m) ⟨m, hm, .refl⟩)
    (record : ∀ (c : Chronicle H) (μ : Moment H) (hc : c.Reached b) (_ : c.Extends b μ)
      (hc' : (c.record μ).Reached b), motive c hc → motive (c.record μ) hc')
    (c : Chronicle H) (hc : c.Reached b) : motive c hc := by
  refine hc.induct (P := fun c => ∀ hc : c.Reached b, motive c hc) (fun m hm _ => start m hm)
    (fun c c' e hc ih he hc' => ?_) hc
  obtain ⟨μ, hμ, rfl⟩ := exists_extends_of_turn? hc.tracked he
  exact record c μ hc hμ hc' (ih hc)

/-! ## Runs of the machine -/

theorem machine_of_turn? {c' : Chronicle H} {e : Turn} (h : c.turn? b e = some c') :
    c.machine.move? b e = some c'.machine := by
  obtain ⟨after, ha, h⟩ := Option.bind_eq_some_iff.1 h
  obtain ⟨th, -, h⟩ := Option.bind_eq_some_iff.1 h
  obtain ⟨frame, -, h⟩ := Option.bind_eq_some_iff.1 h
  obtain ⟨call, -, h⟩ := Option.bind_eq_some_iff.1 h
  obtain ⟨next, -, h⟩ := Option.bind_eq_some_iff.1 h
  cases h
  exact ha

/-- Every turn of the machine can be written down. -/
theorem Tracked.exists_turn? (hc : c.Tracked) {m : Machine H} {e : Turn}
    (h : c.machine.move? b e = some m) : ∃ c', c.turn? b e = some c' ∧ c'.machine = m := by
  obtain ⟨th, f, rest, n, ht, hf, hn⟩ : ∃ th f rest n, c.machine.thread? e.thread = some th ∧
      th.frames = f :: rest ∧ c.machine.next? b e = some n := by
    cases e with
    | step t =>
      simp only [Machine.move?, Machine.step] at h
      split at h
      · cases h
      · split at h
        · rename_i control f rest token ht
          obtain ⟨⟨m', n⟩, hs, -⟩ := Option.map_eq_some_iff.1 h
          exact ⟨_, f, rest, n, ht, rfl, by simp [Machine.next?, ht, hs]⟩
        · cases h
    | expire t | disturb t =>
      simp only [Machine.move?, Machine.expire, Machine.disturb] at h
      split at h
      · rename_i ht
        exact ⟨_, _, _, _, ht, rfl, by rw [Machine.next?, ht]⟩
      · cases h
  have hst := hc.stack e.thread th.control th.frames (by simp [Machine.stack?, ht])
  obtain ⟨i, is, hi⟩ : ∃ i is, c.calls e.thread = i :: is := by
    cases hi : c.calls e.thread with
    | nil => have := hst.length; rw [hi, hf] at this; cases this
    | cons i is => exact ⟨i, is, rfl⟩
  exact ⟨_, by rw [turn?, h, ht, hi, hn, Option.bind_eq_bind, Option.bind_some, Option.bind_eq_bind,
    Option.bind_some, hf]; rfl, rfl⟩

/-- Every run of a machine has a chronicle. -/
theorem exists_reached {m m' : Machine H} (hm : m.Initial) (h : m.Reaches b m') :
    ∃ c : Chronicle H, c.Reached b ∧ c.machine = m' := by
  induction h with
  | refl => exact ⟨start m, ⟨m, hm, .refl⟩, rfl⟩
  | tail e _ he ih =>
    obtain ⟨c, hc, rfl⟩ := ih
    obtain ⟨c', hc', rfl⟩ := hc.tracked.exists_turn? he
    exact ⟨c', hc.reaches (.tail e .refl hc'), rfl⟩

end Chronicle

end OneShot
