import OneShot.Proofs.Idle.Untouched
import OneShot.Proofs.Reading.Sharing
import OneShot.Proofs.Completion.Sequence

/-!
# Calls that leave no trace

A completion call that comes too late, a read, however it ends, and a cancellation without a hook
leave nothing behind. On its way a read takes guards and puts itself on the parked list of its
thread; when it is over it has given all that back.

- **Promises and their guards** (`Promise.eq_of_bare_eq`), **machines**
  (`Machine.Untouched.eq_answered`): nothing else is left to differ.
- **Alone** (`Since`, `Reached.since`): what is the same as before while only one call has moved.
- **Harmless calls** (`Call.Harmless`) and **their end** (`Reached.parked_of_harmless`,
  `Reached.eq_answered`).
- **The next completion** (`Reached.decidedBy_of_claim`, `Reached.claim_goes_on`).
- **All of it** (`Traceless`, `leaves_no_trace`): nothing happens at their moments, what they took
  they give back, without company they leave the machine as they found it, and a promise that is
  pending afterwards goes to the next call that completes it.
-/

namespace OneShot

variable {H : Host} {b : Behaviour H}

/-! ## Nothing else to differ -/

/-- A promise is made up of its cells and of who holds its guards. -/
theorem Promise.eq_of_bare_eq {pr pr' : Promise H} (h : pr'.bare = pr.bare)
    (ho : ∀ k, pr'.owner? k = pr.owner? k) : pr' = pr := by
  obtain ⟨_, _, _, ⟨_, ⟨_, gate⟩⟩, ⟨_, listeners⟩, ⟨_, wakers⟩, _, _, _, _⟩ := pr
  obtain ⟨_, _, _, ⟨_, ⟨_, gate'⟩⟩, ⟨_, listeners'⟩, ⟨_, wakers'⟩, _, _, _, _⟩ := pr'
  obtain rfl : gate' = gate := ho .gate
  obtain rfl : listeners' = listeners := ho .listeners
  obtain rfl : wakers' = wakers := ho .wakers
  simpa [bare] using h

namespace Machine

/-- The parked list of a thread. -/
def parked? (m : Machine H) (u : ThreadId) : Option (List PromiseId) :=
  (m.thread? u).map (·.token.parked.data)

/-- The machine in which the top call of thread `t` has just answered. -/
def answered (m : Machine H) (t : ThreadId) (a : Answer) : Machine H :=
  m.modifyThread t fun th => { th with control := .ret a, frames := th.frames.tail }

namespace Untouched

variable {m m' : Machine H} {t : ThreadId}

theorem promises_eq (h : m.Untouched t m') (ho : ∀ x, m'.owner? x = m.owner? x) :
    m'.promises = m.promises := by
  refine Array.ext_getElem? fun q => ?_
  change m'.promise? q = m.promise? q
  have hcell := h.cells q
  have howner := fun k => ho (.part q k)
  simp only [cells?, owner?] at hcell howner
  cases hq : m.promise? q with
  | none =>
    rw [hq, Option.map_none] at hcell
    exact Option.map_eq_none_iff.1 hcell
  | some pr =>
    rw [hq] at hcell howner
    obtain ⟨pr', hq', hbare⟩ := Option.map_eq_some_iff.1 hcell
    rw [hq'] at howner ⊢
    rw [Promise.eq_of_bare_eq hbare howner]

/-- The token of the thread itself is made up of its flag, its parked list and who holds the guard
of that. -/
theorem token_eq (h : m.Untouched t m') (ho : ∀ x, m'.owner? x = m.owner? x)
    (hp : m'.parked? t = m.parked? t) {th th' : Thread H} (ht : m.thread? t = some th)
    (ht' : m'.thread? t = some th') : th'.token = th.token := by
  have hflag := h.flags t
  have howner := ho (.parked t)
  simp only [isFlagged, parked?, owner?, ht, ht', Option.any_some, Option.map_some,
    Option.bind_some, Option.some.injEq] at hflag hp howner
  obtain ⟨_, _, ⟨flag, ⟨parked, owner⟩⟩⟩ := th
  obtain ⟨_, _, ⟨flag', ⟨parked', owner'⟩⟩⟩ := th'
  cases hflag
  cases hp
  cases howner
  rfl

/-- If the guards and the parked list are as they were, too, nothing has happened but the answer. -/
theorem eq_answered (h : m.Untouched t m') (ho : ∀ x, m'.owner? x = m.owner? x)
    (hp : m'.parked? t = m.parked? t) {k : Control} {f : Frame H} {rest : List (Frame H)}
    (hs : m.stack? t = some (k, f :: rest)) {a : Answer} (hs' : m'.stack? t = some (.ret a, rest)) :
    m' = m.answered t a := by
  have hpromises := h.promises_eq ho
  -- Of the threads it is only `t` that moves, and of `t` only the top of the stack.
  have hthreads : m'.threads = (m.answered t a).threads := by
    refine Array.ext_getElem? fun u => ?_
    change m'.thread? u = (m.answered t a).thread? u
    rw [answered, thread?_modifyThread]
    split
    · rename_i hu
      subst hu
      obtain ⟨th, ht, hst⟩ := Option.map_eq_some_iff.1 hs
      obtain ⟨⟨_, _, token⟩, ht', hst'⟩ := Option.map_eq_some_iff.1 hs'
      obtain rfl : token = th.token := h.token_eq ho hp ht ht'
      have hframes : th.frames = f :: rest := (Prod.mk.inj hst).2
      cases hst'
      rw [ht, ht', Option.map_some, hframes]
      rfl
    · rename_i hu
      exact h.others u (Ne.symm hu)
  obtain ⟨promises', waits', threads', program', log', aborted'⟩ := m'
  obtain rfl := hpromises
  obtain rfl := hthreads
  obtain rfl := h.waits
  obtain rfl := h.program
  obtain rfl := h.log
  obtain rfl := h.aborted
  rfl

end Untouched

end Machine

namespace Chronicle

variable {c c₀ c₁ : Chronicle H} {μ : Moment H} {i : CallId} {f g : Frame H}

/-! ## Alone -/

/-- What is the same in `c` as it was in `c₀`, since when only the top call of thread `t` has moved:
all that an idle call leaves, what the other threads own, and the calls that wait under it. -/
structure Since (c₀ c : Chronicle H) (t : ThreadId) (rest : List (Frame H)) : Prop where
  untouched : c₀.machine.Untouched t c.machine
  owners : ∀ x u, u ≠ t → (c.machine.owner? x = some u ↔ c₀.machine.owner? x = some u)
  stack : ∃ k f, c.machine.stack? t = some (k, f :: rest)

theorem Since.record (hc : c.Reached b) (h : c.Extends b μ) {rest : List (Frame H)}
    (hs : Since c₀ c μ.call.thread rest) (hf : μ.frame.Idles c.machine)
    (hg : μ.next.own μ.frame = some g) : Since c₀ (c.record μ) μ.call.thread rest := by
  have hidle := (h.idle hc hf).untouched
  rw [h.before] at hidle
  refine ⟨hs.untouched.trans hidle,
    fun x u hu => (h.owner_of_ne hc hu).trans (hs.owners x u hu), ?_⟩
  obtain ⟨k, f, hst⟩ := hs.stack
  obtain ⟨is, rest', -, hst', ha⟩ := h.stack hc.tracked
  rw [hst] at hst'
  cases hst'
  refine ⟨.go, g, ?_⟩
  change μ.after.stack? μ.call.thread = _
  rcases h.next_of_idles hc hf with ⟨a, hn⟩ | ⟨p, limited, s, hn⟩ <;> rw [hn] at hg ha <;> cases hg
  exact ha

/-- As long as only an idle call has moved, all this is as it was. -/
theorem Reached.since (hc₀ : c₀.Reached b) (hi : c₀.frame? i = some f) (hf : f.Idles c₀.machine)
    {k : Control} {rest : List (Frame H)} (hs : c₀.machine.stack? i.thread = some (k, f :: rest))
    (hl : c₀.Reaches b c) {l : List (Moment H)} (hpast : c.past = c₀.past ++ l)
    (hown : ∀ ν ∈ l, ν.call = i) (hg : c.frame? i = some g) : Since c₀ c i.thread rest := by
  induction hl generalizing l g with
  | refl => exact ⟨.refl _ _, fun _ _ _ => Iff.rfl, k, f, hs⟩
  | @tail c₁ _ e hl he ih =>
    have hc₁ := hc₀.reaches hl
    have ht := hc₁.tracked
    obtain ⟨l₁, hpast₁⟩ := hl.exists_past hc₀
    obtain ⟨μ, hμ, rfl⟩ := exists_extends_of_turn? ht he
    obtain rfl : l = l₁ ++ [μ] := by
      rw [past_record, hpast₁, List.append_assoc] at hpast
      exact (List.append_cancel_left hpast).symm
    obtain rfl : μ.call = i := hown μ (by simp)
    have hframe := hμ.frame? ht
    rw [frame?_record_self ht hμ] at hg
    exact (ih hpast₁ (fun ν hν => hown ν (List.mem_append_left _ hν)) hframe).record hc₁ hμ
      (hc₀.idles hl hi hf hframe) hg

end Chronicle

/-! ## Harmless calls -/

/-- The calls that are to leave no trace: completing a promise that is claimed already, cancelling a
promise without a hook or one that is chained from another, and reading, with or without a
deadline. -/
inductive Call.Harmless (m : Machine H) : Call H → Prop
  | complete {p o pr} (hp : m.promise? p = some pr) (hs : pr.status ≠ .init) :
    Harmless m (.complete p o)
  | cancel {p pr} (hp : m.promise? p = some pr) (hh : pr.hook = none ∨ pr.origin ≠ none) :
    Harmless m (.cancel p)
  | get {p} : Harmless m (.get p)
  | getTimeout {p limited} : Harmless m (.getTimeout p limited)

namespace Call.Harmless

variable {m : Machine H} {call : Call H}

/-- At its beginning a harmless call waits for nobody, holds no guard and is not parked. -/
theorem begins (h : call.Harmless m) (t : ThreadId) :
    call.frame.awaits = false ∧ call.frame.guard? m t = none ∧ call.frame.parks = [] := by
  cases h <;> exact ⟨rfl, rfl, rfl⟩

theorem idles {c : Chronicle H} (hc : c.Reached b) (h : call.Harmless c.machine) :
    call.frame.Idles c.machine := by
  cases h with
  | complete hp hs => exact .late (Machine.cells?_eq_some hp) hs
  | cancel hp hh =>
    have hcell := Machine.cells?_eq_some hp
    rcases hh with hh | ho
    · exact .hookless hcell hh
    · exact .hookless hcell (hc.hook_of_origin hcell ho)
  | get | getTimeout => exact .read

end Call.Harmless

namespace Chronicle

variable {c c₀ c₁ : Chronicle H} {μ : Moment H} {i : CallId} {call : Call H}
  {l l' : List (Moment H)} {p : PromiseId}

/-! ## Their end -/

theorem Extends.parked_of_answer (hc : c.Reached b) (h : c.Extends b μ)
    (hc' : (c.record μ).Reached b) {a : Answer} (hn : μ.next = .answer a) :
    μ.after.parked? μ.call.thread = some [] := by
  obtain ⟨is, rest, -, hs, ha⟩ := h.stack hc.tracked
  rw [hn] at ha
  obtain ⟨th, hth, hst⟩ := Option.map_eq_some_iff.1 ha
  have hnil : th.token.parked.data = [] := by
    refine hc'.parked_eq_nil hth fun f hf => Frame.parks_of_awaits ?_
    rw [show th.frames = rest from (Prod.mk.inj hst).2] at hf
    exact (hc.tracked.stack _ _ _ hs).awaits f (List.mem_of_mem_head? hf)
  rw [Machine.parked?, hth, Option.map_some, hnil]

/-- When a harmless call has answered, the parked list of its thread is as it was. -/
theorem Reached.parked_of_harmless (hc₀ : c₀.Reached b) (hi : c₀.frame? μ.call = some call.frame)
    (hcall : call.Harmless c₀.machine) (hc₁ : c₁.Reached b) (h : c₁.Extends b μ)
    (hc₁' : (c₁.record μ).Reached b) {a : Answer} (hn : μ.next = .answer a) :
    μ.after.parked? μ.call.thread = c₀.machine.parked? μ.call.thread := by
  obtain ⟨hawaits, -, hparks⟩ := hcall.begins μ.call.thread
  obtain ⟨k, rest, token, ht₀⟩ := hc₀.tracked.thread?_of_not_awaits hi hawaits
  have hnil : token.parked.data = [] :=
    hc₀.parked_eq_nil ht₀ fun f hf => Option.some.inj hf ▸ hparks
  rw [h.parked_of_answer hc₁ hc₁' hn, Machine.parked?, ht₀, Option.map_some, hnil]

/-- When a harmless call has answered and nobody else has moved, nothing has happened but the
answer. -/
theorem Reached.eq_answered (hc₀ : c₀.Reached b) (hi : c₀.frame? μ.call = some call.frame)
    (hcall : call.Harmless c₀.machine) (hl : c₀.Reaches b c₁) (hpast : c₁.past = c₀.past ++ l)
    (hown : ∀ ν ∈ l, ν.call = μ.call) (h : c₁.Extends b μ) (hc₁' : (c₁.record μ).Reached b)
    {a : Answer} (hn : μ.next = .answer a) : μ.after = c₀.machine.answered μ.call.thread a := by
  have hc₁ := hc₀.reaches hl
  have ht := hc₁.tracked
  have hidles := hcall.idles hc₀
  obtain ⟨hawaits, hguard, -⟩ := hcall.begins μ.call.thread
  obtain ⟨k, rest, token, ht₀⟩ := hc₀.tracked.thread?_of_not_awaits hi hawaits
  have hs₀ : c₀.machine.stack? μ.call.thread = some (k, call.frame :: rest) := by
    rw [Machine.stack?, ht₀]
    rfl
  have hsince := hc₀.since hi hidles hs₀ hl hpast hown (h.frame? ht)
  have hidle := (h.idle hc₁ (hc₀.idles hl hi hidles (h.frame? ht))).untouched
  rw [h.before] at hidle
  -- Its thread owns nothing before and afterwards, and what the others own is as it was.
  have howner : ∀ x, μ.after.owner? x = c₀.machine.owner? x := by
    intro x
    refine Option.ext fun u => ?_
    by_cases hu : u = μ.call.thread
    · subst hu
      have hafter := hc₁'.not_owner_of_over mem_record_self (by rw [hn]; rfl) x
      have hbefore := hc₀.not_owner hi (hc₀.tracked.top_of_not_awaits hi hawaits) hguard x
      exact ⟨fun hx => absurd hx hafter, fun hx => absurd hx hbefore⟩
    · exact (h.owner_of_ne hc₁ hu).trans (hsince.owners x u hu)
  obtain ⟨k', f, hs⟩ := hsince.stack
  obtain ⟨is, rest', -, hs', ha⟩ := h.stack ht
  rw [hs] at hs'
  cases hs'
  rw [hn] at ha
  exact (hsince.untouched.trans hidle).eq_answered howner
    (hc₀.parked_of_harmless hi hcall hc₁ h hc₁' hn) hs₀ ha

/-! ## The next completion -/

/-- A promise that nobody has claimed goes to the next call that claims it. -/
theorem Reached.decidedBy_of_claim (hc : c.Reached b) (hu : c.machine.status? p = some .init)
    (hl : c.Reaches b c₁) (hpast : c₁.past = c.past ++ l ++ μ :: l')
    (hno : ∀ κ ∈ l, ∀ o, κ.frame ≠ .completing p (.claim o)) {o : Outcome}
    (hf : μ.frame = .completing p (.claim o)) : c₁.DecidedBy p μ.call o := by
  have hunclaimed : c.Unclaimed p := by
    cases hc.contest p with
    | unclaimed h => exact h
    | @won w o' r hw =>
      have hstatus := hw.decidedBy.status
      rw [hu] at hstatus
      split at hstatus <;> cases hstatus
  obtain ⟨c₂, hl₂, hpast₂, h, hturn, hr⟩ := hl.exists_reaches hc hpast
  have hc₂ := hc.reaches hl₂
  have ht := hc₂.tracked
  have hu₂ := hunclaimed.reaches hc hl₂ hpast₂ hno
  obtain ⟨o', hw⟩ := hu₂.claim ht h hf
  -- The call that claims goes on to store what it claims for.
  obtain rfl : o' = o := by
    have hstore := hw.storing rfl
    rw [frame?_record_self ht h] at hstore
    obtain ⟨pr, hp⟩ := h.exists_cells? ht hf
    obtain ⟨pr', -, hm⟩ := h.completing ht hf hp
    generalize μ.next = n, μ.control = k at hm hstore
    cases hm <;> cases hstore
    rfl
  obtain ⟨r, hw'⟩ := hw.reaches (hc₂.reaches hturn) hr
  exact hw'.decidedBy

theorem Reached.claim_goes_on (hc : c.Reached b) {o : Outcome}
    (hi : c.frame? i = some (.completing p (.claim o))) {pr : Promise H}
    (hp : c.machine.promise? p = some pr) (hab : c.machine.aborted = false) :
    ∃ m, c.machine.step b i.thread = some m := by
  have htop := hc.tracked.top_of_not_awaits hi rfl
  rcases hc.completing_goes_on hi hp htop hab with h | ⟨x, j, hx, -⟩
  · exact h
  · cases hx

/-! ## All of it -/

/-- What call `i` has left behind after its last moment `μ`. It was made in `c₀`, the moments `l`
came before `μ`, and the moments `l'` have come since. -/
structure Traceless (b : Behaviour H) (c₀ c : Chronicle H) (i : CallId) (l : List (Moment H))
    (μ : Moment H) (l' : List (Moment H)) : Prop where
  /-- The parked list of its thread is as it was. -/
  parked : μ.after.parked? i.thread = c₀.machine.parked? i.thread
  /-- It has given back the guards that it took. -/
  guards : ∀ x, μ.after.owner? x ≠ some i.thread
  /-- It has answered, and if nobody else has moved, that is all that has happened. -/
  answer : ∃ a, μ.next = .answer a ∧
    ((∀ ν ∈ l, ν.call = i) → μ.after = c₀.machine.answered i.thread a)
  /-- A promise that it has left pending can be claimed. -/
  goes_on : ∀ p, μ.after.status? p = some .init → ∀ j o,
    c.frame? j = some (.completing p (.claim o)) → c.machine.aborted = false →
      ∃ m, c.machine.step b j.thread = some m
  /-- The next call that claims it completes it. -/
  decides : ∀ p, μ.after.status? p = some .init → ∀ l₁ ν l₂ o, l' = l₁ ++ ν :: l₂ →
    (∀ κ ∈ l₁, ∀ o', κ.frame ≠ .completing p (.claim o')) → ν.frame = .completing p (.claim o) →
      c.DecidedBy p ν.call o

/-- A call that began harmless has left no trace when it is over. -/
theorem Reached.traceless (hc₀ : c₀.Reached b) (hi : c₀.frame? μ.call = some call.frame)
    (hcall : call.Harmless c₀.machine) (hl : c₀.Reaches b c₁) (hpast : c₁.past = c₀.past ++ l)
    (h : c₁.Extends b μ) (hturn : c₁.Reaches b (c₁.record μ)) (hr : (c₁.record μ).Reaches b c)
    (hpast' : c.past = (c₁.record μ).past ++ l') (hover : μ.next.own μ.frame = none) :
    Traceless b c₀ c μ.call l μ l' := by
  have hc₁ := hc₀.reaches hl
  have hc₁' := hc₁.reaches hturn
  obtain ⟨a, hn⟩ : ∃ a, μ.next = .answer a := by
    have hidles := hc₀.idles hl hi (hcall.idles hc₀) (h.frame? hc₁.tracked)
    rcases h.next_of_idles hc₁ hidles with ha | ⟨p, limited, s, hn⟩
    · exact ha
    · rw [hn] at hover
      cases hover
  refine ⟨hc₀.parked_of_harmless hi hcall hc₁ h hc₁' hn,
    hc₁'.not_owner_of_over mem_record_self hover,
    ⟨a, hn, fun hown => hc₀.eq_answered hi hcall hl hpast hown h hc₁' hn⟩,
    fun p hp j o hj hab => ?_, fun p hp l₁ ν l₂ o hl' hno hf => ?_⟩
  · obtain ⟨pr, hpr, -⟩ := Option.map_eq_some_iff.1 hp
    obtain ⟨pr', hpr', -⟩ := hc₁'.climbs hr hpr
    exact (hc₁'.reaches hr).claim_goes_on hj hpr' hab
  · have hpast₁ : c.past = (c₁.record μ).past ++ l₁ ++ ν :: l₂ := by
      rw [hpast', hl', List.append_assoc]
    exact hc₁'.decidedBy_of_claim hp hr hpast₁ hno hf

/-- Whatever else goes on: nothing happens at the moments of a completion call that comes too late,
of a cancellation without a hook or on a chained promise, and of a read, however it ends; when the
call is over it has left no trace; and code that looks at promises changes nothing but the program's
own data, and finds no result exactly while the promise is pending. -/
theorem leaves_no_trace (hc₀ : c₀.Reached b) :
    (∀ i call, c₀.frame? i = some (Call.frame call) → call.Harmless c₀.machine →
      ∀ c l μ l', c₀.Reaches b c → c.past = c₀.past ++ l ++ μ :: l' → μ.call = i →
        μ.Idle ∧ (μ.next.own μ.frame = none → Traceless b c₀ c i l μ l')) ∧
    (∀ p pr, c₀.machine.promise? p = some pr → (pr.tryGet = none ↔ pr.isDone = false)) ∧
    ∀ t r (code : H.Code r) k, ∃ state events, (c₀.machine.resume b t code k).1 =
      { c₀.machine with
        program := state
        log := c₀.machine.log ++ (List.map Entry.program events).toArray } := by
  refine ⟨fun i call hi hcall c l μ l' hl hpast hμ => ?_, fun p pr hp => ?_,
    fun t r code k => ⟨_, _, rfl⟩⟩
  · subst hμ
    obtain ⟨c₁, hl₁, hpast₁, h, hturn, hr⟩ := hl.exists_reaches hc₀ hpast
    have hc₁ := hc₀.reaches hl₁
    have hidles := hc₀.idles hl₁ hi (hcall.idles hc₀) (h.frame? hc₁.tracked)
    refine ⟨h.idle hc₁ hidles, hc₀.traceless hi hcall hl₁ hpast₁ h hturn hr ?_⟩
    rw [hpast, past_record, hpast₁, List.append_assoc _ [μ]]
    rfl
  · cases hd : pr.isDone with
    | false => simp [Promise.tryGet, Promise.settled, hd]
    | true =>
      obtain ⟨o, ho, -⟩ := hc₀.settled_of_isDone hp hd
      simp [Promise.tryGet, ho]

/-- A thread makes a promise and completes it. Of three others one reads it with a deadline, one
completes it as well, and one cancels it. -/
def visitors : (r : Role) → Nat → Act Tabled r
  | .task, 0 => .call (.build {}) 1
  | .task, 1 => .call (.complete 0 (.value .unit)) 2
  | .task, 10 => .call (.getTimeout 0 true) 11
  | .task, 20 => .call (.complete 0 .cancelled) 21
  | .task, 30 => .call (.cancel 0) 31
  | r, _ => Tabled.quiet r

/-- The first thread has claimed the promise, and the others make their calls. -/
def arrival : Option (Chronicle Tabled) :=
  (Tabled.start [0, 10, 20, 30]).turns? (Tabled.behaviour visitors)
    (List.replicate 4 (.step 0) ++ [.step 1, .step 2, .step 3])

/-- The three calls end, the read by its deadline, before the first thread goes on. -/
def departure : Option (Chronicle Tabled) :=
  arrival.bind fun c => c.turns? (Tabled.behaviour visitors)
    ([.step 2, .step 3] ++ List.replicate 8 (.step 1) ++ .expire 1 :: List.replicate 5 (.step 1))

theorem leaves_no_trace_departure : ∃ c₀ c, arrival = some c₀ ∧ departure = some c ∧
    c₀.Reached (Tabled.behaviour visitors) ∧ c₀.Reaches (Tabled.behaviour visitors) c ∧
    ∀ i call, (i, call) ∈ [((⟨1, 5⟩ : CallId), Call.getTimeout (H := Tabled) 0 true),
        (⟨2, 6⟩, .complete 0 .cancelled), (⟨3, 7⟩, .cancel 0)] →
      c₀.frame? i = some call.frame ∧ call.Harmless c₀.machine ∧
        ∃ l μ l', c.past = c₀.past ++ l ++ μ :: l' ∧ μ.call = i ∧ μ.next.own μ.frame = none ∧
          μ.Idle ∧ Traceless (Tabled.behaviour visitors) c₀ c i l μ l' := by
  have hrun : (arrival.any fun c₀ => departure.any fun c =>
      (c₀.machine.promise? 0).any (fun pr => pr.status == .done && pr.hook.isNone) &&
      [(⟨1, 5⟩ : CallId), ⟨2, 6⟩, ⟨3, 7⟩].all fun i =>
        (c.past.drop c₀.past.length).any fun μ =>
          μ.call == i && (μ.next.own μ.frame).isNone) = true := by
    decide +kernel
  obtain ⟨c₀, hc₀, hrun⟩ := (Option.any_eq_true _ _).1 hrun
  obtain ⟨c, hc, hrun⟩ := (Option.any_eq_true _ _).1 hrun
  have hlook : ∀ i f, arrival.bind (·.frame? i) = some f → c₀.frame? i = some f := by
    intro i f h
    rwa [hc₀] at h
  have hreached := Tabled.reached hc₀
  have hreaches : c₀.Reaches (Tabled.behaviour visitors) c := by
    obtain ⟨c₁, hc₁, hturns⟩ := Option.bind_eq_some_iff.1 hc
    rw [hc₀] at hc₁
    rw [Option.some.inj hc₁]
    exact reaches_of_turns? hturns
  simp only [Bool.and_eq_true, List.all_eq_true, List.any_eq_true] at hrun
  obtain ⟨hp, hends⟩ := hrun
  obtain ⟨pr, hp, hpr⟩ := (Option.any_eq_true _ _).1 hp
  simp only [Bool.and_eq_true, beq_iff_eq, Option.isNone_iff_eq_none] at hpr hends
  obtain ⟨L, hL⟩ := hreaches.exists_past hreached
  refine ⟨c₀, c, hc₀, hc, hreached, hreaches, fun i call hi => ?_⟩
  have hframe : c₀.frame? i = some call.frame ∧ call.Harmless c₀.machine := by
    simp only [List.mem_cons, List.not_mem_nil, or_false, Prod.mk.injEq] at hi
    rcases hi with ⟨rfl, rfl⟩ | ⟨rfl, rfl⟩ | ⟨rfl, rfl⟩
    · exact ⟨hlook _ _ rfl, .getTimeout⟩
    · exact ⟨hlook _ _ rfl, .complete hp (by rw [hpr.1]; decide)⟩
    · exact ⟨hlook _ _ rfl, .cancel hp (.inl hpr.2)⟩
  obtain ⟨μ, hμ, hcall, hover⟩ := hends i (List.mem_map_of_mem (f := Prod.fst) hi)
  rw [hL, List.drop_left] at hμ
  obtain ⟨l, l', rfl⟩ := List.append_of_mem hμ
  rw [← List.append_assoc] at hL
  obtain ⟨hidle, htrace⟩ := (leaves_no_trace hreached).1 i call hframe.1 hframe.2 c l μ l' hreaches
    hL hcall
  exact ⟨hframe.1, hframe.2, l, μ, l', hL, hcall, hover, hidle, htrace hover⟩

end Chronicle

end OneShot
