import OneShot.Proofs.Completion.Ladder

/-!
# The stages of a read and of an interrupt

What a blocking read and a call that interrupts a thread do at each of their stages.

- **One step of a read** (`Reading.Moves`, `Moment.Sound.reading`): its two looks under the gate, at
  the latch and at the flag of its own thread, decide where it goes on.
- **One step of an interrupt** (`Interrupting.Moves`, `Moment.Sound.interrupting`): it sets the
  flag, copies the parked list, and wakes the sleepers of one latch after the other.
-/

namespace OneShot

variable {H : Host} {b : Behaviour H}

/-- Whether the interrupt flag of a thread is set. -/
def Machine.isFlagged (m : Machine H) (u : ThreadId) : Bool := (m.thread? u).any (·.token.flag)

theorem Machine.isFlagged_of_thread? {m : Machine H} {u : ThreadId} {th : Thread H}
    (h : m.thread? u = some th) : m.isFlagged u = th.token.flag := by
  rw [isFlagged, h, Option.any_some]

theorem Machine.isDone_of_promise? {m : Machine H} {p : PromiseId} {pr : Promise H}
    (h : m.promise? p = some pr) : m.isDone p = pr.isDone := by
  rw [isDone, h, Option.any_some]

/-! ## One step -/

/-- What a step of a read of `p` on thread `t` does: its stage and how it goes on, and what it has
seen in the machine before. -/
inductive Reading.Moves (m : Machine H) (t : ThreadId) (p : PromiseId) (limited : Bool) :
    Reading → Next H → Prop
  | «open» {s} (hs : s = .peek ∨ s = .attempt) (hd : m.isDone p = true) :
    Moves m t p limited s (.goto (.reading p limited .fetch))
  | peek (hd : m.isDone p = false) : Moves m t p limited .peek (.goto (.reading p limited .attempt))
  | attempt (hd : m.isDone p = false) :
    Moves m t p limited .attempt (.goto (.reading p limited .lockParked))
  | lockParked : Moves m t p limited .lockParked (.goto (.reading p limited .park))
  | park : Moves m t p limited .park (.goto (.reading p limited (.lockGate false)))
  | lockGate {late} :
    Moves m t p limited (.lockGate late) (.goto (.reading p limited (.check late)))
  | opened {late} (hd : m.isDone p = true) :
    Moves m t p limited (.check late) (.goto (.reading p limited (.unlockGate .opened)))
  | expired (hd : m.isDone p = false) :
    Moves m t p limited (.check true) (.goto (.reading p limited (.unlockGate .expired)))
  | closed (hd : m.isDone p = false) :
    Moves m t p limited (.check false) (.goto (.reading p limited .checkFlag))
  | flagged (hf : m.isFlagged t = true) :
    Moves m t p limited .checkFlag (.goto (.reading p limited (.unlockGate .interrupted)))
  | clear (hf : m.isFlagged t = false) :
    Moves m t p limited .checkFlag (.goto (.reading p limited .sleep))
  | sleep : Moves m t p limited .sleep (.goto (.reading p limited .asleep))
  | wake {late} (hl : late = true → limited = true) :
    Moves m t p limited .asleep (.goto (.reading p limited (.lockGate late)))
  | unlockGate {r} :
    Moves m t p limited (.unlockGate r) (.goto (.reading p limited (.relockParked r)))
  | relockParked {r} :
    Moves m t p limited (.relockParked r) (.goto (.reading p limited (.unpark r)))
  | acquire : Moves m t p limited (.unpark .opened) (.goto (.reading p limited .fetch))
  | timeout : Moves m t p limited (.unpark .expired) (.answer (.read (.error .timeout)))
  | interrupt : Moves m t p limited (.unpark .interrupted) (.answer (.read (.error .interrupted)))
  | fetch {pr o} (hp : m.promise? p = some pr) (ho : pr.settled = some o) :
    Moves m t p limited .fetch (.answer (.read o.read))
  | early {pr} (hp : m.promise? p = some pr) (ho : pr.settled = none) :
    Moves m t p limited .fetch (.throw openedTooEarly)

/-- What a step of interrupting thread `u` does: its stage and how it goes on. -/
inductive Interrupting.Moves (m : Machine H) (u : ThreadId) : Interrupting → Next H → Prop
  | raise : Moves m u .raise (.goto (.interrupting u .lock))
  | lock : Moves m u .lock (.goto (.interrupting u .copy))
  | copy {th} (ht : m.thread? u = some th) :
    Moves m u .copy (.goto (.interrupting u (.next th.token.parked.data)))
  | finish : Moves m u (.next []) (.answer .unit)
  | next {p rest} : Moves m u (.next (p :: rest)) (.goto (.interrupting u (.notify p rest)))
  | notify {p rest} : Moves m u (.notify p rest) (.goto (.interrupting u (.next rest)))

section

variable {m m' : Machine H} {t : ThreadId} {c : Control} {n : Next H}

open Machine

/-- Every step of a read is such a move. -/
theorem Reading.moves_of_step {p : PromiseId} {limited : Bool} {s : Reading}
    (h : s.step m t p limited c = some (m', n)) (hk : c = .go) : s.Moves m t p limited n := by
  replace h := eq_of_runStage h hk
  obtain ⟨pr, hp, h⟩ := Option.bind_eq_some_iff.1 h
  obtain ⟨th, ht, h⟩ := Option.bind_eq_some_iff.1 h
  have hdone := isDone_of_promise? hp
  have hflag := isFlagged_of_thread? ht
  cases s with
  | peek | attempt =>
    cases hd : pr.isDone <;> rw [hd] at hdone <;> simp only [hd] at h <;> cases h
    · first | exact .peek hdone | exact .attempt hdone
    · first | exact .open (.inl rfl) hdone | exact .open (.inr rfl) hdone
  | lockParked =>
    obtain ⟨_, -, h⟩ := Option.bind_eq_some_iff.1 h
    cases h
    exact .lockParked
  | park => cases h; exact .park
  | lockGate late =>
    obtain ⟨_, -, h⟩ := Option.bind_eq_some_iff.1 h
    cases h
    exact .lockGate
  | check late =>
    cases hd : pr.isDone <;> rw [hd] at hdone <;> simp only [hd] at h
    · cases late <;> cases h
      · exact .closed hdone
      · exact .expired hdone
    · cases h
      exact .opened hdone
  | checkFlag =>
    cases hf : th.token.flag <;> rw [hf] at hflag <;> simp only [hf] at h <;> cases h
    · exact .clear hflag
    · exact .flagged hflag
  | sleep => cases h; exact .sleep
  | asleep => cases h
  | unlockGate r => cases h; exact .unlockGate
  | relockParked r =>
    obtain ⟨_, -, h⟩ := Option.bind_eq_some_iff.1 h
    cases h
    exact .relockParked
  | unpark r =>
    cases r <;> cases h
    · exact .acquire
    · exact .timeout
    · exact .interrupt
  | fetch =>
    dsimp only at h
    split at h <;> rename_i ho <;> cases h
    · exact .fetch hp ho
    · exact .early hp ho

/-- Every step of interrupting a thread is such a move. -/
theorem Interrupting.moves_of_step {u : ThreadId} {s : Interrupting}
    (h : s.step m t u c = some (m', n)) (hk : c = .go) : s.Moves m u n := by
  replace h := eq_of_runStage h hk
  cases s with
  | raise => cases h; exact .raise
  | lock =>
    obtain ⟨th, -, h⟩ := Option.bind_eq_some_iff.1 h
    obtain ⟨_, -, h⟩ := Option.bind_eq_some_iff.1 h
    cases h
    exact .lock
  | copy =>
    obtain ⟨th, ht, h⟩ := Option.bind_eq_some_iff.1 h
    cases h
    exact .copy ht
  | next latches =>
    cases latches with
    | nil => cases h; exact .finish
    | cons p rest =>
      obtain ⟨pr, -, h⟩ := Option.bind_eq_some_iff.1 h
      obtain ⟨_, -, h⟩ := Option.bind_eq_some_iff.1 h
      cases h
      exact .next
  | notify p rest => cases h; exact .notify

end

namespace Moment.Sound

variable {μ : Moment H}

theorem reading {p : PromiseId} {limited : Bool} {s : Reading} (h : μ.Sound b)
    (hf : μ.frame = .reading p limited s) : s.Moves μ.before μ.call.thread p limited μ.next := by
  have hk := h.control
  cases h.made with
  | step _ _ hs _ =>
    rw [hf] at hs hk
    exact Reading.moves_of_step hs (hk.resolve_right Bool.false_ne_true)
  | wake _ hf' hn _ hl =>
    rw [hf] at hf'
    cases hf'
    exact hn ▸ .wake hl

theorem interrupting {u : ThreadId} {s : Interrupting} (h : μ.Sound b)
    (hf : μ.frame = .interrupting u s) : s.Moves μ.before u μ.next := by
  have hk := h.control
  cases h.made with
  | step _ _ hs _ =>
    rw [hf] at hs hk
    exact Interrupting.moves_of_step hs (hk.resolve_right Bool.false_ne_true)
  | wake _ hf' => rw [hf] at hf'; cases hf'

end Moment.Sound

end OneShot
