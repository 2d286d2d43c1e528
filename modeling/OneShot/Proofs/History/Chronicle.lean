import OneShot.Proofs.Step.Effect
import OneShot.Proofs.Step.Lead

/-!
# Chronicles of runs

A run of a machine, written down turn by turn. The machine itself forgets: it does not tell which
call claimed a promise or who ran a listener. A chronicle keeps the machine as it is and beside it
the moments so far, and it gives each call a name of its own.

- **Calls** (`CallId`): by the thread and the number of the moment at which the call was entered.
- **Moments** (`Moment`): which call moved, from which stage, and how its thread went on.
- **Chronicles** (`Chronicle`, `Chronicle.turn?`): the machine makes its own turns, and the
  chronicle only writes them down (`machine_of_turn?`).
- **Runs** (`Chronicle.Reaches`, `Chronicle.Reached`): any order of turns, from a machine without
  promises whose threads have work of any kind or nothing to do (`Machine.Initial`).
-/

namespace OneShot

variable {H : Host}

/-- The name of a call: its thread, and the number of the moment at which it was entered. What a
thread starts with was entered at moment zero. -/
structure CallId where
  thread : ThreadId
  entry : Nat
  deriving DecidableEq, Repr, Inhabited

/-- A moment of a run: one turn, told from the call that moves. -/
structure Moment (H : Host) where
  /-- Moments are numbered from one. -/
  number : Nat
  call : CallId
  /-- The stage of the call. -/
  frame : Frame H
  /-- What the call has to deal with. -/
  control : Control
  /-- How the thread goes on. -/
  next : Next H
  before : Machine H
  after : Machine H

/-- The names of a thread's calls after a step of the top one, which enters `i` if it enters a
call. -/
def Next.names (i : CallId) (is : List CallId) : Next H → List CallId
  | .enter _ _ => i :: is
  | .answer _ | .throw _ => is.tail
  | .goto _ | .abort => is

/-- The names of the calls on a thread that did not move. If it has work and had none, the work is
called `i`. -/
def Stack.names (i : CallId) :
    List CallId → Option (Control × List (Frame H)) → List CallId
  | [], some (_, _ :: _) => [i]
  | is, _ => is

namespace Moment

/-- The name of the call that is entered at a moment, if one is. -/
def entered (μ : Moment H) : CallId := ⟨μ.call.thread, μ.number⟩

/-- The names of the calls in progress on thread `u` after a moment, given those before it. -/
def calls (μ : Moment H) (u : ThreadId) (is : List CallId) : List CallId :=
  if u = μ.call.thread then μ.next.names μ.entered is
  else Stack.names ⟨u, μ.number⟩ is (μ.after.stack? u)

end Moment

/-- The thread that moves in a turn. -/
def Turn.thread : Turn → ThreadId
  | step t | expire t | disturb t => t

/-- How the thread that moves in a turn goes on. -/
def Machine.next? (b : Behaviour H) (m : Machine H) : Turn → Option (Next H)
  | .step t =>
    match m.thread? t with
    | some { control, frames := f :: _, .. } => (f.step b m t control).map (·.2)
    | _ => none
  | .expire t =>
    match m.thread? t with
    | some { frames := .reading p limited .asleep :: _, .. } =>
      some (.goto (.reading p limited (.lockGate true)))
    | _ => none
  | .disturb t =>
    match m.thread? t with
    | some { frames := .reading p limited .asleep :: _, .. } =>
      some (.goto (.reading p limited (.lockGate false)))
    | _ => none

/-- A machine on which no call has been made yet. Each thread has nothing to do, or work that it
starts with. -/
structure Machine.Initial (m : Machine H) : Prop where
  promises : m.promises = #[]
  waits : m.waits = #[]
  tokens : ∀ th ∈ m.threads, th.token = {}
  threads : ∀ th ∈ m.threads,
    th.frames = [] ∨ ∃ work, th.frames = [.task work] ∧ th.control = .go

/-- A machine and how it came about. -/
structure Chronicle (H : Host) where
  machine : Machine H
  /-- The names of the calls in progress on each thread, the innermost first. -/
  calls : ThreadId → List CallId
  /-- The moments so far. -/
  past : List (Moment H) := []

namespace Chronicle

/-- The chronicle of a machine at its start. -/
def start (m : Machine H) : Chronicle H where
  machine := m
  calls t := ((m.stack? t).map Prod.snd).getD [] |>.map fun _ => ⟨t, 0⟩

/-- The chronicle with one more moment. -/
def record (c : Chronicle H) (μ : Moment H) : Chronicle H where
  machine := μ.after
  calls u := μ.calls u (c.calls u)
  past := c.past ++ [μ]

/-- The chronicle after a turn, if it can be taken. -/
def turn? (b : Behaviour H) (c : Chronicle H) (e : Turn) : Option (Chronicle H) := do
  let after ← c.machine.move? b e
  let th ← c.machine.thread? e.thread
  let frame ← th.frames.head?
  let call ← (c.calls e.thread).head?
  let next ← c.machine.next? b e
  some (c.record
    { number := c.past.length + 1, call, frame, control := th.control, next
      before := c.machine, after })

/-- `c'` continues `c` by some turns. -/
inductive Reaches (b : Behaviour H) (c : Chronicle H) : Chronicle H → Prop
  | refl : Reaches b c c
  | tail {c' c'' : Chronicle H} (e : Turn) :
    Reaches b c c' → c'.turn? b e = some c'' → Reaches b c c''

/-- The chronicles of runs. -/
def Reached (b : Behaviour H) (c : Chronicle H) : Prop :=
  ∃ m : Machine H, m.Initial ∧ (start m).Reaches b c

/-- The chronicle after a list of turns, if they can be taken. -/
def turns? (b : Behaviour H) (c : Chronicle H) : List Turn → Option (Chronicle H)
  | [] => some c
  | e :: es => (c.turn? b e).bind fun c' => c'.turns? b es

/-- What holds at the start and is kept by every turn holds of every run. -/
theorem Reached.induct {b : Behaviour H} {P : Chronicle H → Prop}
    (hstart : ∀ m : Machine H, m.Initial → P (start m))
    (hturn : ∀ c c' e, c.Reached b → P c → c.turn? b e = some c' → P c')
    {c : Chronicle H} (hc : c.Reached b) : P c := by
  obtain ⟨m, hm, hl⟩ := hc
  induction hl with
  | refl => exact hstart m hm
  | tail e hl he ih => exact hturn _ _ e ⟨m, hm, hl⟩ ih he

theorem Reached.reaches {b : Behaviour H} {c c' : Chronicle H} (hc : c.Reached b)
    (hl : c.Reaches b c') : c'.Reached b := by
  obtain ⟨m, hm, hc⟩ := hc
  induction hl with
  | refl => exact ⟨m, hm, hc⟩
  | tail e _ he ih =>
    obtain ⟨m, hm, ih⟩ := ih
    exact ⟨m, hm, .tail e ih he⟩

theorem Reaches.trans {b : Behaviour H} {c c' c'' : Chronicle H} (h : c.Reaches b c')
    (h' : c'.Reaches b c'') : c.Reaches b c'' := by
  induction h' with
  | refl => exact h
  | tail e _ he ih => exact .tail e ih he

theorem reaches_of_turns? {b : Behaviour H} {c c' : Chronicle H} {es : List Turn}
    (h : c.turns? b es = some c') : c.Reaches b c' := by
  induction es generalizing c with
  | nil => cases h; exact .refl
  | cons e es ih =>
    obtain ⟨c₁, h₁, h⟩ := Option.bind_eq_some_iff.1 h
    exact (Reaches.tail e .refl h₁).trans (ih h)

end Chronicle

/-! ## Programs known by number -/

/-- Programs whose closures and code are numbers. What a number does is said by a table. -/
abbrev Tabled : Host where
  Closure _ := Nat
  Code _ := Nat
  invoke _ closure _ := closure
  State := Unit
  Event := Empty
  handles _ := []
  wallClock := 0
  sameTask v w := v == w

/-- How a program runs whose code does what a table says. -/
def Tabled.behaviour (table : (r : Role) → Nat → Act Tabled r) : Behaviour Tabled where
  resume _ _ r code _ := { state := (), act := table r code }

/-- How a program runs whose clocks do what the table says only once there is a promise. -/
def Tabled.lateClocks (table : (r : Role) → Nat → Act Tabled r) : Behaviour Tabled where
  resume m _ r code _ := { state := (), act :=
    match r with
    | .clock => if m.promises.isEmpty then .finish 1 else table .clock code
    | r => table r code }

/-- Code that does nothing but return. -/
def Tabled.quiet : (r : Role) → Act Tabled r
  | .task | .observer | .waker => .finish ()
  | .clock => .finish 1
  | .policy => .finish .absorb
  | .listener => .finish (.ok ())
  | .transform => .finish (.ok .unit)
  | .hook => .finish (.ok false)

/-- The chronicle at the start of a program whose threads have these works. -/
def Tabled.start (works : List Nat) : Chronicle Tabled :=
  .start {
    threads := (works.map fun work => { control := .go, frames := [.task work] }).toArray
    program := () }

theorem Tabled.initial (works : List Nat) : (start works).machine.Initial := by
  refine ⟨rfl, rfl, fun th hth => ?_, fun th hth => ?_⟩
  all_goals
    simp only [start, Chronicle.start, List.mem_toArray, List.mem_map] at hth
    obtain ⟨work, -, rfl⟩ := hth
  · rfl
  · exact .inr ⟨work, rfl, rfl⟩

theorem Tabled.reached {b : Behaviour Tabled} {works : List Nat} {es : List Turn}
    {c : Chronicle Tabled} (h : (start works).turns? b es = some c) : c.Reached b :=
  ⟨_, initial works, Chronicle.reaches_of_turns? h⟩

/-! ## What a run shows

Looks at a frame, at how its call goes on and at a policy, which can be decided on a run of such a
program. -/

section

variable {H : Host} {f : Frame H} {n : Next H} {p : PromiseId}

/-- The promise and the stage of a completion call. -/
def Frame.completing? : Frame H → Option (PromiseId × Completing H)
  | .completing p s => some (p, s)
  | _ => none

/-- The promise and the outcome of a completion call that is about to claim. -/
def Frame.claim? : Frame H → Option (PromiseId × Outcome)
  | .completing p (.claim o) => some (p, o)
  | _ => none

/-- The promise of a completion call that is about to take the wakers. -/
def Frame.take? : Frame H → Option PromiseId
  | .completing p .takeWakers => some p
  | _ => none

/-- The promise of a completion call that is about to drain the listeners. -/
def Frame.drain? : Frame H → Option PromiseId
  | .completing p .drain => some p
  | _ => none

/-- The source, the target and the code of a chain callback that is run. -/
def Frame.callback? : Frame H → Option (PromiseId × PromiseId × H.Code .transform)
  | .notifying p (.transforming d code) => some (p, d, code)
  | _ => none

/-- The promise and the stage of a read, and whether it has a deadline. -/
def Frame.reading? : Frame H → Option (PromiseId × Bool × Reading)
  | .reading p limited s => some (p, limited, s)
  | _ => none

/-- The wait, the waker and the stage of a poll. -/
def Frame.polling? : Frame H → Option (WaitId × H.Closure .waker × Polling)
  | .polling v x s => some (v, x, s)
  | _ => none

/-- What a policy of the program is made from. -/
def Policy.classify? : Policy H → Option (H.Closure .policy)
  | .custom classify => some classify
  | _ => none

/-- Whether a completion call answers that it has lost. -/
def Next.isLost : Next H → Bool
  | .answer (.settled (.ok false)) => true
  | _ => false

/-- Whether a read answers that it was interrupted. -/
def Next.isInterrupted : Next H → Bool
  | .answer (.read (.error .interrupted)) => true
  | _ => false

/-- Whether a notification answers a failure. -/
def Next.isFailure : Next H → Bool
  | .answer (.notified (.error _)) => true
  | _ => false

/-- The panic by which a call is left. -/
def Next.thrown? : Next H → Option String
  | .throw x => some x
  | _ => none

theorem Frame.eq_completing {s : Completing H} (h : f.completing? = some (p, s)) :
    f = .completing p s := by
  cases f <;> cases h
  rfl

theorem Frame.eq_claim {o : Outcome} (h : f.claim? = some (p, o)) :
    f = .completing p (.claim o) := by
  unfold claim? at h
  split at h <;> cases h
  rfl

theorem Frame.eq_take (h : f.take? = some p) : f = .completing p .takeWakers := by
  unfold take? at h
  split at h <;> cases h
  rfl

theorem Frame.eq_drain (h : f.drain? = some p) : f = .completing p .drain := by
  unfold drain? at h
  split at h <;> cases h
  rfl

theorem Frame.eq_callback {d : PromiseId} {code : H.Code .transform}
    (h : f.callback? = some (p, d, code)) : f = .notifying p (.transforming d code) := by
  unfold callback? at h
  split at h <;> cases h
  rfl

theorem Frame.exists_callback {code : H.Code .transform} (h : f.code? = some ⟨.transform, code⟩) :
    ∃ p d, f.callback? = some (p, d, code) := by
  unfold code? at h
  split at h <;> cases h
  exact ⟨_, _, rfl⟩

theorem Frame.eq_reading {limited : Bool} {s : Reading}
    (h : f.reading? = some (p, limited, s)) : f = .reading p limited s := by
  cases f <;> cases h
  rfl

theorem Frame.eq_polling {v : WaitId} {x : H.Closure .waker} {s : Polling}
    (h : f.polling? = some (v, x, s)) : f = .polling v x s := by
  cases f <;> cases h
  rfl

theorem Policy.eq_custom {policy : Policy H} {classify : H.Closure .policy}
    (h : policy.classify? = some classify) : policy = .custom classify := by
  cases policy <;> cases h
  rfl

theorem Next.eq_lost (h : n.isLost = true) : n = .answer (.settled (.ok false)) := by
  unfold isLost at h
  split at h
  · rfl
  · cases h

theorem Next.eq_interrupted (h : n.isInterrupted = true) :
    n = .answer (.read (.error .interrupted)) := by
  unfold isInterrupted at h
  split at h
  · rfl
  · cases h

theorem Next.ne_throw (h : n.thrown? = none) (x : String) : n ≠ .throw x := by
  rintro rfl
  cases h

end

end OneShot
