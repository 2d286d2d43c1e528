import OneShot.Proofs.Listener.Delivery

/-!
# What becomes of a registration

A registration looks at the latch twice. It notifies its listener by itself if the promise is done
by then, and else it stores the listener. This module says that it does one of the two, and what is
stored in which order.

- **One step** (`Registering.Moves`).
- **What is looked for in a run** (`Moment.asked?`, `Moment.stored?`, `Moment.inline?`): a listener
  that is to be registered, is stored, or is notified by its own registration.
- **The queue** (`Chronicle.Queue`, `Reached.queue`): the registry holds the listeners that were
  stored, in that order, until they are drained all together, to be delivered
  (`Reached.delivery`).
- **One registration** (`Placing`, `Path.placing`): how far it has come, from what was looked for at
  its own moments.
-/

namespace OneShot

variable {H : Host} {b : Behaviour H}

/-! ## One step -/

/-- What a step of a registration with `p` does: its stage and what it has to deal with, how it goes
on, and the cells of `p` before (`x`) and after. -/
inductive Registering.Moves (p : PromiseId) (closing : Closing) (x : Option (Promise H)) :
    Registering H → Control → Next H → Option (Promise H) → Prop
  | now {l pr} (hp : x = some pr) (hd : pr.isDone = true) :
    Moves p closing x (.check l) .go
      (.enter (.notifying p (l.begin p)) (.registering p .inline closing)) x
  | later {l pr} (hp : x = some pr) (hd : pr.isDone = false) :
    Moves p closing x (.check l) .go (.goto (.registering p (.lock l) closing)) x
  | lock {l} : Moves p closing x (.lock l) .go (.goto (.registering p (.enroll l) closing)) x
  | store {l pr} (hp : x = some pr) (hd : pr.isDone = false)
    (hr : pr.listeners.data.isDrained = false) :
    Moves p closing x (.enroll l) .go (.answer (closing.answer (.ok ())))
      (some { pr with listeners := { data := .pending (pr.listeners.data.toList ++ [l]) } })
  | hand {l pr} (hp : x = some pr)
    (hd : pr.isDone = true ∨ pr.listeners.data.isDrained = true) :
    Moves p closing x (.enroll l) .go
      (.enter (.notifying p (l.begin p)) (.registering p .inline closing)) x
  | back {r} : Moves p closing x .inline (.ret (.notified r)) (.answer (closing.answer r)) x
  | pass {y} : Moves p closing x .inline (.raise y) (.throw y) x

section

variable {m m' : Machine H} {t : ThreadId} {p : PromiseId} {c : Control} {n : Next H}

open Machine

/-- Every step of a registration is such a move. -/
theorem Registering.moves_of_step {s : Registering H} {closing : Closing}
    (h : s.step m t p closing c = some (m', n))
    (hk : c = .go ∨ (Frame.registering p s closing).awaits = true) :
    s.Moves p closing (m.cells? p) c n (m'.cells? p) := by
  have hgo : (Frame.registering p s closing).awaits = false → c = .go := fun hf =>
    hk.resolve_right (by rw [hf]; exact Bool.false_ne_true)
  cases s with
  | check l =>
    replace h := eq_of_runStage h (hgo rfl)
    obtain rfl := hgo rfl
    obtain ⟨pr, hp, h⟩ := Option.bind_eq_some_iff.1 h
    split at h <;> rename_i hd <;> cases h
    · exact .now (cells?_eq_some hp) hd
    · exact .later (cells?_eq_some hp) (eq_false_of_ne_true hd)
  | lock l =>
    replace h := eq_of_runStage h (hgo rfl)
    obtain rfl := hgo rfl
    obtain ⟨pr, hp, h⟩ := Option.bind_eq_some_iff.1 h
    obtain ⟨listeners, hl, h⟩ := Option.bind_eq_some_iff.1 h
    cases h
    obtain ⟨-, rfl⟩ := Mutex.acquire?_eq_some_iff.1 hl
    rw [cells?_modifyPromise hp, cells?_eq_some hp]
    exact .lock
  | enroll l =>
    replace h := eq_of_runStage h (hgo rfl)
    obtain rfl := hgo rfl
    obtain ⟨pr, hp, h⟩ := Option.bind_eq_some_iff.1 h
    dsimp only at h
    -- What `enroll` answers is decided as it stores: by the latch and by whether it is drained.
    rw [Registry.enroll_snd, Registry.enroll_fst] at h
    by_cases hd : (pr.isDone || pr.listeners.data.isDrained) = true
    · simp only [if_pos hd] at h
      cases h
      rw [cells?_modifyPromise hp, cells?_eq_some hp]
      exact .hand rfl (Bool.or_eq_true_iff.1 hd)
    · simp only [if_neg hd] at h
      cases h
      rw [cells?_modifyPromise hp, cells?_eq_some hp]
      obtain ⟨hd, hr⟩ := Bool.or_eq_false_iff.1 (eq_false_of_ne_true hd)
      exact .store rfl hd hr
  | inline =>
    simp only [step] at h
    split at h <;> cases h
    · exact .back
    · exact .pass

end

theorem Moment.Sound.registering {μ : Moment H} {p : PromiseId} {s : Registering H}
    {closing : Closing} (h : μ.Sound b) (hf : μ.frame = .registering p s closing) :
    s.Moves p closing (μ.before.cells? p) μ.control μ.next (μ.after.cells? p) := by
  have hk := h.control
  cases h.made with
  | step _ _ hs ha =>
    rw [hf] at hs hk
    rw [ha, Machine.cells?_proceed]
    exact Registering.moves_of_step hs hk
  | wake _ hf' => rw [hf] at hf'; cases hf'

/-! ## What is looked for -/

namespace Moment

/-- The listener that a call sets out to register with `p` at a moment. -/
def asked? (p : PromiseId) (μ : Moment H) : Option (Listener H) :=
  match μ.frame with
  | .registering q (.check l) _ => if q = p then some l else none
  | _ => none

/-- The listener that a registration stores in `p` at a moment. -/
def stored? (p : PromiseId) (μ : Moment H) : Option (Listener H) :=
  match μ.frame, μ.next with
  | .registering q (.enroll l) _, .answer _ => if q = p then some l else none
  | _, _ => none

/-- The notification that a registration with `p` makes at a moment: that of its own listener. -/
def inline? (p : PromiseId) (μ : Moment H) : Option CallId :=
  match μ.frame, μ.next with
  | .registering q _ _, .enter _ _ => if q = p then some μ.entered else none
  | _, _ => none

variable {p : PromiseId} {μ : Moment H}

theorem stored?_eq_none (hf : ∀ l closing, μ.frame ≠ .registering p (.enroll l) closing) :
    μ.stored? p = none := by
  unfold stored?
  split
  · rename_i q l closing _ hq _
    rw [if_neg fun he : q = p => hf l closing (he ▸ hq)]
  · rfl

theorem stored?_of_enter {g f : Frame H} (hn : μ.next = .enter g f) : μ.stored? p = none := by
  unfold stored?
  split
  · rename_i hn'
    rw [hn] at hn'
    cases hn'
  · rfl

end Moment

namespace Chronicle

/-- The registrations that have stored their listeners in `p`, in that order, with the listeners. -/
def stored (c : Chronicle H) (p : PromiseId) : List (CallId × Listener H) :=
  c.past.filterMap fun μ => (μ.stored? p).map (μ.call, ·)

/-! ## The queue -/

/-- How the listeners that were stored in `p` lie in its cells. -/
inductive Queue (c : Chronicle H) (p : PromiseId) : Option (Promise H) → Prop
  | absent (h : c.stored p = []) : Queue c p none
  | pending {pr} (h : pr.listeners.data = .pending ((c.stored p).map Prod.snd)) :
    Queue c p (some pr)
  | drained {pr δ} (h : pr.listeners.data = .drained) (hδ : δ ∈ c.past)
    (hf : δ.frame = .completing p .drain)
    (hn : δ.next = .goto (.completing p (.deliver ((c.stored p).map Prod.snd)))) :
    Queue c p (some pr)

variable {c : Chronicle H} {μ : Moment H} {p : PromiseId}

theorem stored_record_of_none (h : μ.stored? p = none) : (c.record μ).stored p = c.stored p := by
  simp [stored, h]

/-- A moment that stores nothing and leaves the registry alone leaves the queue alone. -/
theorem Queue.mono {pr pr' : Promise H} (h : c.Queue p (some pr)) (hs : μ.stored? p = none)
    (hd : pr'.listeners.data = pr.listeners.data) : (c.record μ).Queue p (some pr') := by
  cases h with
  | pending h => exact .pending (by rw [stored_record_of_none hs, hd, h])
  | drained h hδ hf hn =>
    exact .drained (by rw [hd, h]) (mem_record_of_mem hδ) hf
      (by rw [stored_record_of_none hs, hn])

/-- A registration that stores its listener puts it last. -/
theorem Queue.store {l : Listener H} {pr pr' : Promise H} (h : c.Queue p (some pr))
    (hs : μ.stored? p = some l) (hr : pr.listeners.data.isDrained = false)
    (hd : pr'.listeners.data = .pending (pr.listeners.data.toList ++ [l])) :
    (c.record μ).Queue p (some pr') := by
  cases h with
  | pending h =>
    refine .pending ?_
    rw [hd, h]
    simp [stored, hs, Registry.toList]
  | drained h => rw [h] at hr; cases hr

/-- A drain takes the queue as it is. -/
theorem Queue.drain {pr pr' : Promise H} (h : c.Queue p (some pr))
    (hf : μ.frame = .completing p .drain)
    (hn : μ.next = .goto (.completing p (.deliver pr.listeners.data.toList)))
    (hd : pr'.listeners.data = .drained) : (c.record μ).Queue p (some pr') := by
  have hs : μ.stored? p = none := Moment.stored?_eq_none fun l closing he => by
    rw [hf] at he
    cases he
  cases h with
  | pending h =>
    refine .drained hd mem_record_self hf ?_
    rw [stored_record_of_none hs, hn, h]
    rfl
  | drained _ hδ hf' hn' =>
    exact .drained hd (mem_record_of_mem hδ) hf' (by rw [stored_record_of_none hs, hn'])

/-- The registry holds the listeners that were stored, in that order, until they are drained. -/
theorem Reached.queue (hc : c.Reached b) (p : PromiseId) : c.Queue p (c.machine.cells? p) := by
  induction c, hc using Reached.induction with
  | start m hm =>
    have hnone : m.cells? p = none := by simp [Machine.cells?, Machine.promise?, hm.promises]
    exact hnone ▸ .absent rfl
  | record c μ hc hμ hc' ih =>
    show (c.record μ).Queue p (μ.after.cells? p)
    -- Two moments change the registry: one that stores a listener, and the drain.
    by_cases hf : ∃ l closing, μ.frame = .registering p (.enroll l) closing
    · obtain ⟨l, closing, hf⟩ := hf
      have hm := (hc'.sound μ mem_record_self).1.registering hf
      rw [hμ.before] at hm
      generalize hn : μ.next = n, μ.control = k, hx' : μ.after.cells? p = x' at hm
      cases hm with
      | store hp _ hr =>
        rw [hp] at ih
        exact ih.store (by simp [Moment.stored?, hf, hn]) hr rfl
      | hand hp =>
        rw [hp] at ih ⊢
        exact ih.mono (Moment.stored?_of_enter hn) rfl
    · have hs : μ.stored? p = none :=
        Moment.stored?_eq_none fun l closing he => hf ⟨l, closing, he⟩
      by_cases hdr : μ.frame = .completing p .drain
      · obtain ⟨pr, pr', hp, hp', hm⟩ := hc'.moved μ mem_record_self p _ hdr
        rw [hμ.before] at hp
        rw [hp] at ih
        rw [hp']
        generalize hn : μ.next = n, μ.control = k at hm
        cases hm
        exact ih.drain hdr hn rfl
      · have hch := hμ.made.effect.promise p
        rw [hμ.before] at hch
        generalize hx : c.machine.cells? p = x, μ.after.cells? p = x', hframe : μ.frame = f,
          μ.next = n at hch ih
        cases hch with
        | same =>
          cases ih with
          | absent h => exact .absent (by rw [stored_record_of_none hs, h])
          | pending h => exact (Queue.pending h).mono hs rfl
          | drained h hδ hf hn => exact (Queue.drained h hδ hf hn).mono hs rfl
        | claim | store | openLatch | takeWakers | register | remove => exact ih.mono hs rfl
        | drain => exact absurd hframe hdr
        | enroll => exact absurd ⟨_, _, hframe⟩ hf
        | make =>
          cases ih with
          | absent h => exact .pending (by rw [stored_record_of_none hs, h]; rfl)

/-- A drain takes out all listeners that are ever stored, and the delivery is one of these. -/
theorem Reached.delivery (hc : c.Reached b) {δ : Moment H} (hδ : δ ∈ c.past)
    (hf : δ.frame = .completing p .drain) :
    δ.next = .goto (.completing p (.deliver ((c.stored p).map Prod.snd))) ∧
      Delivery b c p ((c.stored p).map Prod.snd) (c.deliveries p)
        ((c.moments δ.call).getLast?.map Moment.next) (c.frame? δ.call) := by
  obtain ⟨w, o, r, hw⟩ := hc.exists_won hδ hf
  -- There is one drain, since only the winner makes one and it makes each step once.
  have hcall : ∀ ρ ∈ c.past, ρ.frame = .completing p .drain → ρ ∈ c.moments w :=
    fun ρ hρ hfρ => mem_moments.2 ⟨hρ, hw.call_eq hρ hfρ nofun⟩
  obtain ⟨o', hpath⟩ := hc.completing_path hδ hf
  rw [(mem_moments.1 (hcall δ hδ hf)).2] at hpath ⊢
  cases hpath.delivered hc with
  | earlier _ _ hd _ => exact absurd hf (hd δ (hcall δ hδ hf))
  | @later ls _ hd hdel _ =>
    obtain ⟨pr, hp, hdrained⟩ := hc.isDrained hδ hf
    have hq := hc.queue p
    rw [hp] at hq
    cases hq with
    | pending hl => rw [hl] at hdrained; cases hdrained
    | @drained _ δ' _ hδ' hf' hn' =>
      have hn := hd δ' (hcall δ' hδ' hf') hf'
      rw [hn'] at hn
      obtain rfl : (c.stored p).map Prod.snd = ls := by simpa using hn
      exact ⟨hd δ (hcall δ hδ hf) hf, hw.deliveries_eq ▸ hdel⟩

end Chronicle

/-! ## One registration -/

/-- A call that has not yet set out to register its listener with `p`. -/
inductive Frame.Asks (p : PromiseId) : Frame H → Prop
  | chain {f k} : Asks p (.chaining p f k)
  | check {l closing} : Asks p (.registering p (.check l) closing)

/-- What was looked for at the moments `l` of one call: the listeners that it set out to register
with `p` and those that it stored, and the notifications that it made. -/
structure Tally (p : PromiseId) (l : List (Moment H)) (asked stored : List (Listener H))
    (runs : List CallId) : Prop where
  asked : l.filterMap (Moment.asked? p) = asked
  stored : l.filterMap (Moment.stored? p) = stored
  runs : l.filterMap (Moment.inline? p) = runs

/-- How far a registration with `p` has come after the moments `l`. -/
inductive Placing (b : Behaviour H) (c : Chronicle H) (p : PromiseId) (l : List (Moment H)) :
    Option (Frame H) → Prop
  | early {x} (hx : ∀ f, x = some f → f.Asks p) (h : Tally p l [] [] []) : Placing b c p l x
  | pending {a s closing} (hs : s = .lock a ∨ s = .enroll a) (h : Tally p l [a] [] []) :
    Placing b c p l (some (.registering p s closing))
  /-- The listener is notified by its registration. -/
  | running {a ν closing} (h : Tally p l [a] [] [ν.entered]) (hν : l.getLast? = some ν)
    (hn : ν.next.callee? = some (.notifying p (a.begin p))) :
    Placing b c p l (some (.registering p .inline closing))
  | ran {a ν fate} (h : Tally p l [a] [] [ν.entered]) (hν : ν ∈ l)
    (hn : ν.next.callee? = some (.notifying p (a.begin p)))
    (ho : Over b p (c.moments ν.entered) fate) : Placing b c p l none
  /-- The listener was stored. -/
  | stored {a} (h : Tally p l [a] [a] []) : Placing b c p l none

section

variable {p : PromiseId} {l : List (Moment H)} {μ : Moment H} {as ss : List (Listener H)}
  {rs : List CallId}

theorem Tally.snoc (h : Tally p l as ss rs) :
    Tally p (l ++ [μ]) (as ++ (μ.asked? p).toList) (ss ++ (μ.stored? p).toList)
      (rs ++ (μ.inline? p).toList) := by
  constructor
  · rw [List.filterMap_append, h.asked]
    cases hx : μ.asked? p <;> simp [hx]
  · rw [List.filterMap_append, h.stored]
    cases hx : μ.stored? p <;> simp [hx]
  · rw [List.filterMap_append, h.runs]
    cases hx : μ.inline? p <;> simp [hx]

variable {c : Chronicle H} {a : Listener H} {closing : Closing}

/-- A registration looks at the latch, or a chaining goes on. -/
theorem Placing.of_early (hμ : μ.Sound b) (hf : μ.frame.Asks p) (h : Tally p l [] [] []) :
    Placing b c p (l ++ [μ]) (μ.next.own μ.frame) := by
  have hs := h.snoc (μ := μ)
  generalize hframe : μ.frame = f at hf
  cases hf with
  | chain =>
    simp only [Moment.asked?, Moment.stored?, Moment.inline?, hframe] at hs
    refine .early (fun g hg => ?_) hs
    rcases (hframe ▸ hμ.made.leads).sameCall hg with hg | hg
    · exact hg ▸ .chain
    · cases hg
      · exact .chain
      · exact .check
  | @check a closing =>
    have hm := hμ.registering hframe
    generalize hn : μ.next = n, μ.control = k, μ.after.cells? p = x' at hm
    cases hm with
    | now =>
      simp only [Moment.asked?, Moment.stored?, Moment.inline?, hframe, hn, if_true] at hs
      exact .running hs List.getLast?_concat (by rw [hn]; rfl)
    | later =>
      simp only [Moment.asked?, Moment.stored?, Moment.inline?, hframe, hn, if_true] at hs
      exact .pending (.inl rfl) hs

/-- A registration takes the guard, and then stores its listener or notifies it. -/
theorem Placing.of_pending (hμ : μ.Sound b) {s : Registering H} (hs : s = .lock a ∨ s = .enroll a)
    (hf : μ.frame = .registering p s closing) (h : Tally p l [a] [] []) :
    Placing b c p (l ++ [μ]) (μ.next.own μ.frame) := by
  have ht := h.snoc (μ := μ)
  have hm := hμ.registering hf
  generalize hn : μ.next = n, μ.control = k, μ.after.cells? p = x' at hm
  rcases hs with rfl | rfl
  · cases hm
    simp only [Moment.asked?, Moment.stored?, Moment.inline?, hf, hn] at ht
    exact .pending (.inr rfl) ht
  · cases hm with
    | store =>
      simp only [Moment.asked?, Moment.stored?, Moment.inline?, hf, hn, if_true] at ht
      exact .stored ht
    | hand =>
      simp only [Moment.asked?, Moment.stored?, Moment.inline?, hf, hn, if_true] at ht
      exact .running ht List.getLast?_concat (by rw [hn]; rfl)

/-- A registration is told how its listener ended. -/
theorem Placing.of_running (hμ : μ.Sound b) {ν : Moment H} {fate : Fate}
    (hf : μ.frame = .registering p .inline closing) (h : Tally p l [a] [] [ν.entered])
    (hν : ν ∈ l) (hn : ν.next.callee? = some (.notifying p (a.begin p)))
    (ho : Over b p (c.moments ν.entered) fate) :
    Placing b c p (l ++ [μ]) (μ.next.own μ.frame) := by
  have ht := h.snoc (μ := μ)
  have hm := hμ.registering hf
  generalize hn' : μ.next = n, μ.control = k, μ.after.cells? p = x' at hm
  cases hm with
  | back | pass =>
    simp only [Moment.asked?, Moment.stored?, Moment.inline?, hf, hn'] at ht
    exact .ran ht (List.mem_append_left _ hν) hn ho

end

namespace Chronicle

variable {c : Chronicle H} {p : PromiseId}

/-- How far a registration has come along its path. -/
theorem Path.placing (hc : c.Reached b) {g : Frame H} (hg : g.Asks p) {l : List (Moment H)}
    {x : Option (Frame H)} (hp : c.Path g l x) : Placing b c p l x := by
  induction hp with
  | nil => exact .early (fun f hf => Option.some.inj hf ▸ hg) ⟨rfl, rfl, rfl⟩
  | @snoc l μ hp hμ ht ih =>
    have hsound := (hc.sound μ hμ).1
    generalize hx : some μ.frame = x at ih
    cases ih with
    | early hask h => exact .of_early hsound (hask μ.frame hx.symm) h
    | pending hs h => exact .of_pending hsound hs (Option.some.inj hx) h
    | @running a ν closing h hν hn =>
      obtain ⟨fate, ho, -⟩ := hc.exists_fate_of_told (hp.mem ν (List.mem_of_getLast? hν)) hn
        (by rw [← hν]; exact ht)
      exact .of_running hsound (Option.some.inj hx) h (List.mem_of_getLast? hν) hn ho
    | ran | stored => cases hx

/-- How far the registration has come whose moment is given. -/
theorem Reached.placing (hc : c.Reached b) {ν : Moment H} (hν : ν ∈ c.past) {s : Registering H}
    {closing : Closing} (hf : ν.frame = .registering p s closing) :
    Placing b c p (c.moments ν.call) (c.frame? ν.call) := by
  obtain ⟨g, hp, μ, hμ, -, hg⟩ := hc.path_of_moment ν hν (by rw [hf]; rfl)
  refine hp.placing hc ?_
  have hb := (hp.becomes hc).2 ν (mem_moments.2 ⟨hν, rfl⟩)
  rw [hf] at hb
  rcases hb.of_registering with ⟨s', rfl⟩ | ⟨f, k, rfl⟩
  · obtain ⟨l, rfl⟩ := ((hc.sound μ hμ).1.made.leads.enters hg).of_registering
    exact .check
  · exact .chain

end Chronicle

end OneShot
