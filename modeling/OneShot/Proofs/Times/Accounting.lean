import OneShot.Proofs.Times.Balance
import OneShot.Proofs.Chain.Lifetime
import Mathlib.Logic.Relation

/-!
# Accounts of a clock

The library reads a clock once to make a promise on it, once to complete one, and once whenever it
is asked how long one has been pending. Promises that are chained from one another share a clock,
and their calls nest in each other and in code of the clock; nothing of that shows in the accounts.

- **Losing calls** (`Reached.not_mem_of_lost`) read no clock.
- **Chains** (`Reached.clock?_of_source?`): a derived promise is on the clock of its source.
- **The accounts** (`Chronicle.ClockAccounts`, `clock_accounts`): what the reads of a clock are for,
  and how many there are.
-/

namespace OneShot

variable {H : Host} {b : Behaviour H}

namespace Chronicle

variable {c : Chronicle H} {μ : Moment H} {i : CallId} {k : H.Closure .clock}

/-- A completion call that loses reads no clock. -/
theorem Reached.not_mem_of_lost (hc : c.Reached b) (hμ : μ ∈ c.past) {p : PromiseId}
    {s : Completing H} (hf : μ.frame = .completing p s) (hn : μ.next = .lost) :
    (μ.call, k) ∉ c.reads := by
  intro hr
  obtain ⟨o, hpath⟩ := hc.completing_path hμ hf
  have hcall : ∀ ν ∈ c.past, ν.call = μ.call → ∃ s', ν.frame = .completing p s' :=
    fun ν hν hi => ((hpath.becomes hc).2 ν (mem_moments.2 ⟨hν, hi⟩)).completing
  obtain ⟨ν, hν, hread⟩ := mem_reads.1 hr
  generalize hi : μ.call = i at hread
  cases hc.asks hν hread with
  | build hcal =>
    have hmem : μ ∈ c.moments ν.entered := mem_moments.2 ⟨hμ, hi⟩
    have hb := ((hc.path ν hν _ hcal rfl).becomes hc).2 μ hmem
    rw [hf] at hb
    obtain ⟨s', hs'⟩ := hb.of_completing
    cases hs'
  | chain hf' | duration hf' =>
    obtain ⟨s', hs'⟩ := hcall ν hν hi.symm
    rw [hf'] at hs'
    cases hs'
  | complete hf' =>
    obtain ⟨s', hs'⟩ := hcall ν hν hi.symm
    rw [hf'] at hs'
    cases hs'
    -- The call that stores is the winner, and the winner has not lost.
    obtain ⟨w, o', r, hw⟩ := hc.exists_won hμ hf
    have hwin := hw.call_eq hν hf' nofun
    rcases hw.verdict μ hμ s hf with ⟨-, hne⟩ | ⟨hne, -⟩
    · exact hne hn
    · exact hne (hi.trans hwin)

/-- A derived promise is on the clock of its source. -/
theorem Reached.clock?_of_source? (hc : c.Reached b) {s d : PromiseId}
    (h : c.machine.source? d = some s) : c.machine.clock? d = c.machine.clock? s := by
  obtain ⟨pr, hp, ho⟩ := Option.bind_eq_some_iff.1 h
  have hcells := Machine.cells?_eq_some hp
  obtain ⟨κ, hκ, pr₀, hmakes, hmade⟩ := hc.exists_makes hcells
  obtain ⟨hclock, -, -, horigin⟩ := Promise.eq_of_made_eq hmade
  rcases hmakes.caller with ⟨_, _, -, hnone⟩ | ⟨s', _, _, source, -, hs, heq, hsome, -⟩
  · exact absurd (horigin.symm.trans ho) (by rw [hnone]; nofun)
  · obtain rfl : s' = s := Option.some.inj (hsome.symm.trans (horigin.symm.trans ho))
    obtain ⟨pr', hp', hmade'⟩ := hc.made_since hκ hs
    rw [Machine.clock?_eq_some hcells, Machine.clock?_eq_some hp', hclock,
      (Promise.eq_of_made_eq hmade').1, heq]

/-- Whose winner has not stored an outcome is about to. -/
theorem Reached.exists_storing (hc : c.Reached b) {p : PromiseId} {pr : Promise H}
    (hp : c.machine.cells? p = some pr) (hs : pr.status ≠ .init) (ho : pr.outcome = none) :
    ∃ i o, c.frame? i = some (.completing p (.store o)) := by
  cases hc.contest p with
  | unclaimed hu => exact absurd (hu.cells pr hp).status hs
  | @won w o r hw =>
    refine ⟨w, o, hw.storing (Decidable.byContradiction fun hr => ?_)⟩
    obtain ⟨pr', hp', hsh⟩ := hw.cells
    cases hp.symm.trans hp'
    have hout := hsh.outcome
    rw [ho, if_neg hr] at hout
    cases hout

/-- When no call is in progress, all winners have read the clock. -/
theorem Reached.due_eq_zero [DecidableEq (H.Closure .clock)] (hc : c.Reached b)
    (hidle : ∀ i, c.frame? i = none) (k : H.Closure .clock) : c.machine.due k = 0 := by
  refine List.countP_eq_zero.2 fun pr hpr hdue => ?_
  obtain ⟨-, hs, ho⟩ := of_decide_eq_true hdue
  obtain ⟨p, hp⟩ := List.getElem?_of_mem hpr
  rw [Array.getElem?_toList] at hp
  obtain ⟨i, o, hi⟩ := hc.exists_storing (Machine.cells?_eq_some hp) hs ho
  rw [hidle i] at hi
  cases hi

theorem making_eq_zero [DecidableEq (H.Closure .clock)] (hidle : ∀ i, c.frame? i = none)
    (k : H.Closure .clock) : c.making k = 0 :=
  List.countP_eq_zero.2 fun x _ => by simp [hidle x.1]

/-! ## The accounts -/

/-- Where the reads of clock `k` have gone. -/
structure ClockAccounts [DecidableEq (H.Closure .clock)] (c : Chronicle H)
    (k : H.Closure .clock) : Prop where
  /-- There is one read for each call that has set out to make a promise on the clock, one for each
  promise on it that was won, but for those whose winner has not come to it yet, and one for each
  duration call that has found such a promise pending. -/
  balance : onClock k c.reads + c.machine.due k =
    onClock k c.constructions + c.machine.claimed k + onClock k c.looks
  /-- Who has set out to make a promise has made one, or is making it, or was left by a panic of the
  clock. -/
  constructed : onClock k c.constructions = c.machine.made k + c.making k + onClock k c.wrecks
  /-- When nothing is in progress, no promise is in the making and no winner has a read to come. -/
  closed : (∀ i, c.frame? i = none) → onClock k c.reads =
    c.machine.made k + onClock k c.wrecks + c.machine.claimed k + onClock k c.looks
  /-- A winner with a read to come is in progress and goes on to it. -/
  due : ∀ p pr, c.machine.cells? p = some pr → pr.clock = k → pr.status ≠ .init →
    pr.outcome = none → ∃ i o, c.frame? i = some (.completing p (.store o))
  /-- The clock is called on these occasions, and on no others. -/
  occasions : ∀ μ ∈ c.past, ∀ i, μ.read? = some (i, k) → μ.Asks i k
  /-- Whoever runs the code of a clock is the program, which reads it for itself, or has been
  counted with the clock of its promise. -/
  readers : ∀ i f code, c.frame? i = some f → f.code? = some ⟨.clock, code⟩ →
    f = .timing code ∨ ∃ k', f.clock? c.machine = some k' ∧ (i, k') ∈ c.reads
  /-- No call reads twice. -/
  once : (c.reads.map Prod.fst).Nodup
  /-- A completion call that loses does not read. -/
  losers : ∀ μ ∈ c.past, ∀ p s, μ.frame = .completing p s → μ.next = .lost →
    (μ.call, k) ∉ c.reads
  /-- Through however many chains a promise is derived from another one, both are on one clock. -/
  lineage : ∀ s d, Relation.ReflTransGen (fun a e => c.machine.source? e = some a) s d →
    c.machine.clock? d = c.machine.clock? s

/-- Every read of a clock by the library is accounted for. -/
theorem clock_accounts [DecidableEq (H.Closure .clock)] (hc : c.Reached b)
    (k : H.Closure .clock) : c.ClockAccounts k := by
  have hbalance : onClock k c.reads + c.machine.due k =
      onClock k c.constructions + c.machine.claimed k + onClock k c.looks := by
    have hreads := hc.balance k
    have hclaimed := hc.claimed_eq k
    omega
  have hconstructed := hc.constructed k
  refine ⟨hbalance, hconstructed, fun hidle => ?_, fun p pr hp _ => hc.exists_storing hp,
    fun μ hμ i => hc.asks hμ, fun i f code hi hf => ?_, hc.nodup_reads,
    fun μ hμ p s hf hn => hc.not_mem_of_lost hμ hf hn, fun s d h => ?_⟩
  · have hdue : c.machine.due k = 0 := hc.due_eq_zero hidle k
    have hmaking : c.making k = 0 := making_eq_zero hidle k
    omega
  · rcases Frame.eq_timing_or_isReading hf with htiming | hread
    · exact .inl htiming
    · exact .inr (hc.exists_read i f hi hread)
  · induction h with
    | refl => rfl
    | tail _ hs ih => exact (hc.clock?_of_source? hs).trans ih

/-- A thread makes a promise, asks how long it has been pending, chains another one from it, and
completes it with a value. Then it tries to cancel it. -/
def ledger : (r : Role) → Nat → Act Tabled r
  | .task, 0 => .call (.build {}) 1
  | .task, 1 => .call (.duration 0) 2
  | .task, 2 => .call (.chain 0 7) 3
  | .task, 3 => .call (.complete 0 (.value .unit)) 4
  | .task, 4 => .call (.complete 0 .cancelled) 5
  | r, _ => Tabled.quiet r

/-- The run to its end, when two promises have been made and won. -/
def audit : Option (Chronicle Tabled) :=
  (Tabled.start [0]).turns? (Tabled.behaviour ledger) (List.replicate 45 (.step 0))

/-- Five reads: two promises are made, two are won, and one was asked for while it was pending. -/
theorem clock_accounts_audit : ∃ c, audit = some c ∧ c.Reached (Tabled.behaviour ledger) ∧
    c.ClockAccounts 0 ∧ onClock (H := Tabled) 0 c.reads = 5 ∧ c.machine.made 0 = 2 ∧
    c.machine.claimed 0 = 2 ∧ onClock (H := Tabled) 0 c.looks = 1 := by
  have hrun : (audit.any fun c => onClock (H := Tabled) 0 c.reads == 5 && c.machine.made 0 == 2 &&
      c.machine.claimed 0 == 2 && onClock (H := Tabled) 0 c.looks == 1) = true := by
    decide +kernel
  obtain ⟨c, hrun, hcount⟩ := (Option.any_eq_true _ _).1 hrun
  simp only [Bool.and_eq_true, beq_iff_eq] at hcount
  obtain ⟨⟨⟨hreads, hmade⟩, hclaimed⟩, hlooks⟩ := hcount
  have hc : c.Reached (Tabled.behaviour ledger) := Tabled.reached hrun
  exact ⟨c, hrun, hc, clock_accounts hc 0, hreads, hmade, hclaimed, hlooks⟩

end Chronicle

end OneShot
