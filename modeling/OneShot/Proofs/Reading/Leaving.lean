import OneShot.Proofs.Reading.Sleep

/-!
# How a read leaves its wait

A read that waits looks at the latch and at the flag of its thread each time that it wakes. It
leaves its wait when one of these looks gives it a reason, and however often it is woken without
one, it goes back to sleep.

- **Waiting** (`Reading.isWaiting`, `Reached.goes_on_waiting`): without a reason of its own a read
  goes on waiting, whoever wakes it.
- **What was seen** (`looks`, `Reasoned`, `Reached.sighted`): a read that is on its way out has had
  its reason at its last looks.
- **All of it** (`waits_soundly`): answers come with their reasons, waits without a reason go on,
  and nobody sleeps on who has been missed.
-/

namespace OneShot

variable {H : Host} {b : Behaviour H}

/-! ## Waiting -/

/-- Stages of a read that waits and whose deadline has not passed. -/
def Reading.isWaiting : Reading → Bool
  | lockGate false | check false | checkFlag | sleep | asleep => true
  | _ => false

/-- A read that waits goes on waiting if the latch is closed, its flag is clear and its deadline
does not pass. -/
theorem Reading.Moves.waits {m : Machine H} {t : ThreadId} {p : PromiseId} {limited : Bool}
    {s : Reading} {n : Next H} (h : s.Moves m t p limited n) (hs : s.isWaiting = true)
    (hd : m.isDone p = false) (hf : m.isFlagged t = false)
    (hl : n ≠ .goto (.reading p limited (.lockGate true))) :
    ∃ s', n = .goto (.reading p limited s') ∧ s'.isWaiting = true := by
  cases h with
  | «open» ho => rcases ho with rfl | rfl <;> cases hs
  | opened hd' => simp [hd] at hd'
  | flagged hf' => simp [hf] at hf'
  | @lockGate late =>
    cases late with
    | false => exact ⟨_, rfl, rfl⟩
    | true => cases hs
  | @wake late =>
    cases late with
    | false => exact ⟨_, rfl, rfl⟩
    | true => exact absurd rfl hl
  | closed | clear | sleep => exact ⟨_, rfl, rfl⟩
  | _ => cases hs

namespace Chronicle

variable {c c' : Chronicle H} {μ : Moment H} {p : PromiseId} {i : CallId} {limited : Bool}
  {s : Reading}

/-- As long as the latch is closed, nobody interrupts its thread and its deadline does not pass, a
read goes on waiting. -/
theorem Reached.goes_on_waiting (hc : c.Reached b) (hl : c.Reaches b c') {l : List (Moment H)}
    (hpast : c'.past = c.past ++ l) (hi : c.frame? i = some (.reading p limited s))
    (hs : s.isWaiting = true) (hd : c'.machine.isDone p = false)
    (hflag : c.machine.isFlagged i.thread = false)
    (hraise : ∀ ν ∈ l, ν.frame ≠ .interrupting i.thread .raise)
    (hlate : ∀ ν ∈ l, ν.call = i → ν.next ≠ .goto (.reading p limited (.lockGate true))) :
    c'.machine.isFlagged i.thread = false ∧
      ∃ s', c'.frame? i = some (.reading p limited s') ∧ s'.isWaiting = true := by
  induction hl generalizing l with
  | refl => exact ⟨hflag, s, hi, hs⟩
  | @tail c₁ _ e hl he ih =>
    have hc₁ := hc.reaches hl
    have ht := hc₁.tracked
    obtain ⟨l₁, hpast₁⟩ := hl.exists_past hc
    obtain ⟨μ, hμ, rfl⟩ := exists_extends_of_turn? ht he
    obtain rfl : l = l₁ ++ [μ] := by
      rw [past_record, hpast₁, List.append_assoc] at hpast
      exact (List.append_cancel_left hpast).symm
    -- The latch does not shut again, so it has been shut all the while.
    have hd₁ : c₁.machine.isDone p = false := by
      apply eq_false_of_ne_true
      intro hd₁
      have hd' : (c₁.record μ).machine.isDone p = true := hμ.isDone hc₁ hd₁
      rw [hd] at hd'
      cases hd'
    obtain ⟨hflag₁, s', hs', hw⟩ := ih hpast₁ hd₁
      (fun ν hν => hraise ν (List.mem_append_left _ hν))
      (fun ν hν => hlate ν (List.mem_append_left _ hν))
    have hμl : μ ∈ l₁ ++ [μ] := by simp
    refine ⟨?_, ?_⟩
    · apply eq_false_of_ne_true
      intro hf
      rcases hμ.raises ht hf with hf | hf
      · rw [hflag₁] at hf
        cases hf
      · exact hraise μ hμl hf
    · by_cases hiμ : i = μ.call
      · subst hiμ
        have hf : μ.frame = .reading p limited s' := hμ.frame_eq ht hs'
        have hm := (hμ.sound ht).reading hf
        rw [hμ.before] at hm
        obtain ⟨s'', hn, hw'⟩ := hm.waits hw hd₁ hflag₁ (hlate μ hμl rfl)
        exact ⟨s'', by rw [frame?_record_self ht hμ, hn]; rfl, hw'⟩
      · rcases reading_record_of_ne ht hμ hs' hiμ with hsame | ⟨-, hwoken⟩
        · exact ⟨s', hsame, hw⟩
        · exact ⟨_, hwoken, rfl⟩

end Chronicle

/-! ## What was seen -/

/-- Whether a read looks at the latch or at its flag under the gate. -/
def Moment.isLook (μ : Moment H) : Bool :=
  match μ.frame with
  | .reading _ _ (.check _) | .reading _ _ .checkFlag => true
  | _ => false

/-- The looks of call `i` among the moments `l`. -/
def looks (i : CallId) (l : List (Moment H)) : List (Moment H) :=
  l.filter fun μ => decide (μ.call = i) && μ.isLook

theorem looks_concat_of_not {i : CallId} {l : List (Moment H)} {μ : Moment H}
    (h : μ.call = i → μ.isLook = false) : looks i (l ++ [μ]) = looks i l := by
  by_cases hi : μ.call = i
  · simp [looks, h hi]
  · simp [looks, hi]

theorem looks_concat {l : List (Moment H)} {μ : Moment H} (h : μ.isLook = true) :
    looks μ.call (l ++ [μ]) = looks μ.call l ++ [μ] := by
  simp [looks, h]

/-- The deadline of read `i` has passed while it slept. -/
def Expired (p : PromiseId) (limited : Bool) (i : CallId) (l : List (Moment H)) : Prop :=
  limited = true ∧ ∃ ε ∈ l, ε.call = i ∧ ε.frame = .reading p limited .asleep ∧
    ε.next = .goto (.reading p limited (.lockGate true))

/-- The last looks of call `i` among the moments `l` have given it a reason to leave its wait. -/
inductive Reasoned (p : PromiseId) (limited : Bool) (i : CallId) (l : List (Moment H)) :
    Acquired → Prop
  | opened {ls κ late} (hl : looks i l = ls ++ [κ])
    (hκ : κ.frame = .reading p limited (.check late)) (hd : κ.before.isDone p = true) :
    Reasoned p limited i l .opened
  /-- It has seen the latch closed, and then its flag set while the latch was still closed. -/
  | interrupted {ls κ φ} (hl : looks i l = ls ++ [κ, φ])
    (hκ : κ.frame = .reading p limited (.check false)) (hd : κ.before.isDone p = false)
    (hφ : φ.frame = .reading p limited .checkFlag) (hd' : φ.before.isDone p = false)
    (hf : φ.before.isFlagged i.thread = true) : Reasoned p limited i l .interrupted
  /-- Its deadline has passed, and it has seen the latch closed once more. -/
  | expired {ls χ} (he : Expired p limited i l) (hl : looks i l = ls ++ [χ])
    (hχ : χ.frame = .reading p limited (.check true)) (hd : χ.before.isDone p = false) :
    Reasoned p limited i l .expired

/-- What read `i` has seen before it is at a stage. -/
def Reading.Sighted (p : PromiseId) (limited : Bool) (i : CallId) (l : List (Moment H)) :
    Reading → Prop
  | lockGate late | check late => late = true → Expired p limited i l
  | checkFlag => ∃ ls κ, looks i l = ls ++ [κ] ∧ κ.frame = .reading p limited (.check false) ∧
      κ.before.isDone p = false
  | unlockGate r | relockParked r | unpark r => Reasoned p limited i l r
  | _ => True

section

variable {p : PromiseId} {limited : Bool} {i : CallId} {l : List (Moment H)} {μ : Moment H}
  {s : Reading}

theorem Expired.mono (h : Expired p limited i l) : Expired p limited i (l ++ [μ]) := by
  obtain ⟨hlim, ε, hε, h⟩ := h
  exact ⟨hlim, ε, List.mem_append_left _ hε, h⟩

/-- A moment that is no look of the read leaves what it has seen. -/
theorem Reading.Sighted.mono (h : s.Sighted p limited i l)
    (hl : μ.call = i → μ.isLook = false) : s.Sighted p limited i (l ++ [μ]) := by
  have hlooks := looks_concat_of_not (l := l) hl
  cases s with
  | lockGate late | check late => exact fun he => (h he).mono
  | checkFlag =>
    obtain ⟨ls, κ, hls, h⟩ := h
    exact ⟨ls, κ, by rw [hlooks, hls], h⟩
  | unlockGate r | relockParked r | unpark r =>
    cases h with
    | opened hls hκ hd => exact .opened (by rw [hlooks, hls]) hκ hd
    | interrupted hls hκ hd hφ hd' hf => exact .interrupted (by rw [hlooks, hls]) hκ hd hφ hd' hf
    | expired he hls hχ hd => exact .expired he.mono (by rw [hlooks, hls]) hχ hd
  | _ => trivial

end

namespace Chronicle

variable {c c' : Chronicle H} {μ : Moment H} {p : PromiseId} {i : CallId} {limited : Bool}
  {s s' : Reading}

/-- A read that moves has seen what it needs for the stage that it comes to. -/
theorem Extends.sighted (hc : c.Reached b) (h : c.Extends b μ)
    (hf : μ.frame = .reading p limited s) (hs : s.Sighted p limited μ.call c.past)
    (hown : μ.next.own μ.frame = some (.reading p limited s')) :
    s'.Sighted p limited μ.call (c.past ++ [μ]) := by
  have ht := hc.tracked
  have hm := (h.sound ht).reading hf
  -- The list of looks grows at looks only; the cases split by what the read has looked at.
  have hlooks : μ.isLook = true → looks μ.call (c.past ++ [μ]) = looks μ.call c.past ++ [μ] :=
    looks_concat
  rw [hf] at hown
  generalize hn : μ.next = n at hm hown
  cases hm with
  | opened hd =>
    cases hown
    exact .opened (hlooks (by simp [Moment.isLook, hf])) hf hd
  | expired hd =>
    cases hown
    exact .expired (hs rfl).mono (hlooks (by simp [Moment.isLook, hf])) hf hd
  | closed hd =>
    cases hown
    exact ⟨_, μ, hlooks (by simp [Moment.isLook, hf]), hf, hd⟩
  | flagged hflag =>
    cases hown
    obtain ⟨ls, κ, hls, hκ, hd⟩ := hs
    have hclosed := hc.closed (by rw [h.frame? ht, hf]) rfl
    rw [← h.before] at hclosed
    exact .interrupted (by rw [hlooks (by simp [Moment.isLook, hf]), hls, List.append_assoc]; rfl)
      hκ hd hf hclosed hflag
  | wake hl =>
    cases hown
    exact fun he => ⟨hl he, μ, by simp, rfl, hf, he ▸ hn⟩
  | lockGate | unlockGate | relockParked =>
    cases hown
    exact hs.mono fun _ => by simp [Moment.isLook, hf]
  | park => cases hown; exact nofun
  | timeout | interrupt | fetch | early => cases hown
  | _ => cases hown; trivial

/-- A read has seen what it needs for the stage that it is at. -/
theorem Reached.sighted (hc : c.Reached b) (hi : c.frame? i = some (.reading p limited s)) :
    s.Sighted p limited i c.past := by
  induction c, hc using Reached.induction generalizing s with
  | start m hm =>
    obtain ⟨work, hwork⟩ := frame?_start hm hi
    cases hwork
  | record c μ hc hμ hc' ih =>
    have ht := hc.tracked
    rcases reading_record ht hμ hi with ⟨s', rfl, hf, hown⟩ | ⟨-, hs⟩ | ⟨hne, hold | ⟨-, rfl⟩⟩
    · exact hμ.sighted hc hf (ih (by rw [hμ.frame? ht, hf])) hown
    · rcases hs with rfl | rfl <;> trivial
    · exact (ih hold).mono fun he => absurd he.symm hne
    · exact nofun

/-- The answer of a read comes with its reason: it takes the outcome only if the latch is open, it
is interrupted only if it has seen its own flag set after seeing the latch closed, and it times out
only if its own deadline has passed and it has seen the latch closed after that. -/
theorem Extends.reasoned (hc : c.Reached b) (h : c.Extends b μ)
    (hf : μ.frame = .reading p limited s) :
    (μ.next = .goto (.reading p limited .fetch) → c.machine.isDone p = true) ∧
      (μ.next = .answer (.read (.error .interrupted)) →
        Reasoned p limited μ.call c.past .interrupted) ∧
      (μ.next = .answer (.read (.error .timeout)) →
        Reasoned p limited μ.call c.past .expired) := by
  have ht := hc.tracked
  have hi : c.frame? μ.call = some (.reading p limited s) := by rw [h.frame? ht, hf]
  have hs := hc.sighted hi
  have hd := hc.assured _ _ hi
  have hm := (h.sound ht).reading hf
  rw [h.before] at hm
  generalize μ.next = n at hm
  cases hm with
  | «open» _ hdone => exact ⟨fun _ => hdone, nofun, nofun⟩
  | acquire => exact ⟨fun _ => hd rfl, nofun, nofun⟩
  | timeout => exact ⟨nofun, nofun, fun _ => hs⟩
  | interrupt => exact ⟨nofun, fun _ => hs, nofun⟩
  | @fetch _ o => cases o <;> exact ⟨nofun, nofun, nofun⟩
  | _ => exact ⟨nofun, nofun, nofun⟩

/-- Whoever reads, completes, interrupts and clears, and however sleepers are disturbed: a read
leaves its wait only with its reason; without one of its own it goes on waiting, whoever wakes it;
and while somebody sleeps whose latch is open or whose flag is set, the call that has opened the
latch, and every call that has set the flag since it was last clear, is still in progress and about
to wake the sleepers of that latch. -/
theorem waits_soundly (hc : c.Reached b) :
    (∀ l ν l', c.past = l ++ ν :: l' → ∀ p limited s, ν.frame = .reading p limited s →
      (ν.next = .goto (.reading p limited .fetch) → ν.before.isDone p = true) ∧
        (ν.next = .answer (.read (.error .interrupted)) →
          Reasoned p limited ν.call l .interrupted) ∧
        (ν.next = .answer (.read (.error .timeout)) → Reasoned p limited ν.call l .expired)) ∧
    (∀ i p limited s, c.frame? i = some (.reading p limited s) → s.isWaiting = true →
      c.machine.isFlagged i.thread = false →
      ∀ c' l, c.Reaches b c' → c'.past = c.past ++ l → c'.machine.isDone p = false →
        (∀ ν ∈ l, ν.frame ≠ .interrupting i.thread .raise) →
        (∀ ν ∈ l, ν.call = i → ν.next ≠ .goto (.reading p limited (.lockGate true))) →
        ∃ s', c'.frame? i = some (.reading p limited s') ∧ s'.isWaiting = true) ∧
    ∀ i p limited, c.frame? i = some (.reading p limited .asleep) →
      (c.machine.isDone p = true → ∃ w, c.frame? w = some (.completing p .notify)) ∧
        (c.machine.isFlagged i.thread = true → c.raisers i.thread ≠ [] ∧
          ∀ j ∈ c.raisers i.thread,
            ∃ s', c.frame? j = some (.interrupting i.thread s') ∧ s'.Owes p) := by
  refine ⟨fun l ν l' hpast p limited s hf => ?_,
    fun i p limited s hi hs hflag c' l hl hpast hd hraise hlate => ?_,
    fun i p limited hi => ⟨hc.opener hi, fun hflag => ⟨hc.raisers_ne_nil hflag, fun j hj => ?_⟩⟩⟩
  · obtain ⟨c₀, hc₀, rfl, h⟩ := hc.exists_extends hpast
    rw [h.before]
    exact h.reasoned hc₀ hf
  · exact (hc.goes_on_waiting hl hpast hi hs hd hflag hraise hlate).2
  · exact hc.owes hi (.inr rfl) hj

/-- A thread makes a promise and completes it. Two threads read it, and a fourth one interrupts the
second of them. -/
def dozers : (r : Role) → Nat → Act Tabled r
  | .task, 0 => .call (.build {}) 1
  | .task, 1 => .call (.complete 0 (.value .unit)) 2
  | .task, 10 => .call (.get 0) 11
  | .task, 20 => .call (.interrupt 3) 21
  | .task, 30 => .call (.get 0) 31
  | r, _ => Tabled.quiet r

/-- The run of the four threads, up to the opening of the latch. -/
def doze : Option (Chronicle Tabled) :=
  (Tabled.start [0, 10, 20, 30]).turns? (Tabled.behaviour dozers)
    (List.replicate 2 (.step 0) ++ List.replicate 8 (.step 1) ++ List.replicate 8 (.step 3) ++
      List.replicate 6 (.step 2) ++ List.replicate 4 (.step 1) ++ List.replicate 6 (.step 3) ++
      List.replicate 6 (.step 0))

theorem waits_soundly_doze : ∃ c l ν l', doze = some c ∧ c.Reached (Tabled.behaviour dozers) ∧
    c.past = l ++ ν :: l' ∧ ν.next = .answer (.read (.error .interrupted)) ∧
    Reasoned (H := Tabled) 0 false ν.call l .interrupted ∧
    c.frame? ⟨1, 3⟩ = some (.reading 0 false .asleep) ∧ c.machine.isDone 0 = true ∧
    ∃ w, c.frame? w = some (.completing 0 .notify) := by
  have hrun : (doze.any fun c =>
      c.machine.isDone 0 &&
      ((c.frame? ⟨1, 3⟩).any fun f => f.reading? == some (0, false, .asleep)) &&
      c.past.any fun ν => ν.next.isInterrupted &&
        ν.frame.reading? == some (0, false, .unpark .interrupted)) = true := by
    decide +kernel
  obtain ⟨c, hc, hrun⟩ := (Option.any_eq_true _ _).1 hrun
  simp only [Bool.and_eq_true, List.any_eq_true] at hrun
  obtain ⟨⟨hd, hasleep⟩, ν, hν, hn, hf⟩ := hrun
  have hi : c.frame? ⟨1, 3⟩ = some (.reading 0 false .asleep) := by
    obtain ⟨f, hi, hf⟩ := (Option.any_eq_true _ _).1 hasleep
    have hf : f = .reading 0 false .asleep := Frame.eq_reading (by simpa using hf)
    rw [hi, hf]
  have hf : ν.frame = .reading 0 false (.unpark .interrupted) :=
    Frame.eq_reading (by simpa using hf)
  have hn := Next.eq_interrupted hn
  obtain ⟨l, l', hpast⟩ := List.append_of_mem hν
  have hreach := Tabled.reached hc
  obtain ⟨hanswers, -, hsleepers⟩ := waits_soundly hreach
  exact ⟨c, l, ν, l', hc, hreach, hpast, hn, (hanswers l ν l' hpast 0 false _ hf).2.1 hn, hi, hd,
    (hsleepers _ 0 false hi).1 hd⟩

end Chronicle

end OneShot
