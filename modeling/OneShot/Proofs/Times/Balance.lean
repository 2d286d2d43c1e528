import OneShot.Proofs.Times.Reads
import Mathlib.Data.List.Nodup

/-!
# What the reads of a clock balance with

A read of a clock shows nowhere but in the clock itself. This module counts the reads of each clock
over a run, and the promises on it, and balances the two.

- **Promises** (`Machine.made`, `Machine.claimed`, `Machine.stored`, `Machine.due`): how many there
  are on a clock, how many of them are claimed, and how far their winners have come.
- **Calls** (`Chronicle.constructions`, `Chronicle.wrecks`, `Chronicle.looks`): which set out to
  make a promise, which of these the clock has made panic, and which have found a promise pending.
-/

namespace OneShot

variable {H : Host} {b : Behaviour H}

/-! ## Counting -/

/-- What is counted at the places of a list. -/
theorem countP_eq_countP_range {α : Type} (l : List α) (P : α → Bool) {n : Nat}
    (h : l.length ≤ n) : l.countP P = (List.range n).countP fun i => l[i]?.any P := by
  suffices htake : ∀ n, (l.take n).countP P = (List.range n).countP fun i => l[i]?.any P by
    rw [← htake, List.take_of_length_le h]
  intro n
  induction n with
  | zero => rfl
  | succ n ih =>
    rw [List.take_add_one, List.countP_append, ih, List.range_succ, List.countP_append,
      List.countP_singleton]
    congr 1
    cases l[n]? <;> simp

/-- If one element more is counted, the count is one more. -/
theorem countP_eq_succ {α : Type} [DecidableEq α] {l : List α} (hl : l.Nodup) {a : α}
    (ha : a ∈ l) {P Q : α → Bool} (hP : P a = false) (hQ : Q a = true)
    (h : ∀ x ∈ l, x ≠ a → Q x = P x) : l.countP Q = l.countP P + 1 := by
  have hperm := List.perm_cons_erase ha
  have hrest : (l.erase a).countP Q = (l.erase a).countP P := by
    refine List.countP_congr fun x hx => ?_
    rw [h x (List.mem_of_mem_erase hx) fun hxa => hl.not_mem_erase (hxa ▸ hx)]
  rw [hperm.countP_eq, hperm.countP_eq, List.countP_cons, List.countP_cons, hrest, hP, hQ]
  rfl

namespace Machine

/-- How many promises are such. -/
def countP (m : Machine H) (P : Promise H → Bool) : Nat := m.promises.toList.countP P

variable {m m' : Machine H} {P : Promise H → Bool} {p : PromiseId}

theorem countP_eq_range (hP : ∀ pr, P pr.bare = P pr) {n : Nat} (hn : m.promises.size ≤ n) :
    m.countP P = (List.range n).countP fun q => (m.cells? q).any P := by
  rw [countP, countP_eq_countP_range _ _ (by simpa using hn)]
  refine List.countP_congr fun q _ => ?_
  rw [cells?, promise?, Array.getElem?_toList]
  cases m.promises[q]? <;> simp [hP]

theorem countP_eq_of_any (hP : ∀ pr, P pr.bare = P pr) (hn : m.promises.size ≤ m'.promises.size)
    (h : ∀ q, (m'.cells? q).any P = (m.cells? q).any P) : m'.countP P = m.countP P := by
  rw [countP_eq_range hP (Nat.le_refl _), countP_eq_range hP hn]
  exact List.countP_congr fun q _ => by rw [h q]

theorem countP_eq_succ_of_any (hP : ∀ pr, P pr.bare = P pr)
    (hn : m.promises.size ≤ m'.promises.size) (hp : (m.cells? p).any P = false)
    (hp' : (m'.cells? p).any P = true) (h : ∀ q ≠ p, (m'.cells? q).any P = (m.cells? q).any P) :
    m'.countP P = m.countP P + 1 := by
  obtain ⟨pr, hpr, -⟩ := (Option.any_eq_true _ _).1 hp'
  obtain ⟨pr', hpr', -⟩ := Option.map_eq_some_iff.1 hpr
  have hlt : p < m'.promises.size := (Array.getElem?_eq_some_iff.1 hpr').1
  rw [countP_eq_range hP (Nat.le_refl _), countP_eq_range hP hn]
  exact countP_eq_succ List.nodup_range (List.mem_range.2 hlt) hp hp' fun q _ hq => h q hq

end Machine

/-! ## Promises on a clock -/

section

variable [DecidableEq (H.Closure .clock)] (m : Machine H) (k : H.Closure .clock)

namespace Machine

/-- How many promises there are on a clock. -/
def made : Nat := m.countP fun pr => decide (pr.clock = k)

/-- How many promises on a clock have been won by a completion call. -/
def claimed : Nat := m.countP fun pr => decide (pr.clock = k ∧ pr.status ≠ .init)

/-- For how many promises on a clock the winner has stored its outcome. -/
def stored : Nat := m.countP fun pr => decide (pr.clock = k ∧ pr.outcome ≠ none)

/-- For how many promises on a clock the winner is yet to store its outcome. -/
def due : Nat := m.countP fun pr => decide (pr.clock = k ∧ pr.status ≠ .init ∧ pr.outcome = none)

end Machine

/-- How many entries are for a clock. -/
def onClock (l : List (CallId × H.Closure .clock)) : Nat := l.countP fun x => decide (x.2 = k)

end

/-! ## Calls -/

/-- Whether a call is making a promise, that is, reads the clock which tells its start time. -/
def Frame.isMaking : Frame H → Bool
  | building _ _ _ | chaining _ _ (some _) => true
  | _ => false

theorem Frame.isReading_of_isMaking {f : Frame H} (h : f.isMaking = true) :
    f.isReading = true := by
  unfold isMaking at h
  split at h <;> first | rfl | cases h

namespace Moment

/-- The call that sets out to make a promise at a moment, and its clock: one to build a promise is
entered, or a chaining makes its first step. -/
def construction? (μ : Moment H) : Option (CallId × H.Closure .clock) :=
  match μ.frame, μ.next with
  | .chaining p _ none, .goto _ => (μ.before.clock? p).map (μ.call, ·)
  | _, .enter (.building _ k _) _ => some (μ.entered, k)
  | _, _ => none

/-- The call that was making a promise and is left by a panic of the clock at a moment. -/
def wreck? (μ : Moment H) : Option (CallId × H.Closure .clock) :=
  match μ.next with
  | .throw _ =>
    if μ.frame.isMaking then (μ.frame.clock? μ.before).map (μ.call, ·) else none
  | _ => none

/-- The duration call that finds the end time zero at a moment, and the clock of the promise. -/
def look? (μ : Moment H) : Option (CallId × H.Closure .clock) :=
  match μ.frame with
  | .measuring p none => if μ.before.isDone p then none else (μ.before.clock? p).map (μ.call, ·)
  | _ => none

end Moment

namespace Chronicle

/-- The calls that have set out to make a promise. -/
def constructions (c : Chronicle H) : List (CallId × H.Closure .clock) :=
  c.past.filterMap Moment.construction?

/-- The calls that were to make a promise and were left by a panic of the clock. -/
def wrecks (c : Chronicle H) : List (CallId × H.Closure .clock) := c.past.filterMap Moment.wreck?

/-- The duration calls that have found the end time zero. -/
def looks (c : Chronicle H) : List (CallId × H.Closure .clock) := c.past.filterMap Moment.look?

/-- How many calls of a list of reads are making a promise on a clock. -/
def makingAmong [DecidableEq (H.Closure .clock)] (c : Chronicle H)
    (l : List (CallId × H.Closure .clock)) (k : H.Closure .clock) : Nat :=
  l.countP fun x => decide (x.2 = k) && (c.frame? x.1).any Frame.isMaking

/-- How many calls are making a promise on a clock, of all that have started to read it. -/
def making [DecidableEq (H.Closure .clock)] (c : Chronicle H) (k : H.Closure .clock) : Nat :=
  c.makingAmong c.reads k

variable {c : Chronicle H} {μ : Moment H} {i : CallId} {k : H.Closure .clock}

theorem constructions_record :
    (c.record μ).constructions = c.constructions ++ μ.construction?.toList := filterMap_record _

theorem wrecks_record : (c.record μ).wrecks = c.wrecks ++ μ.wreck?.toList := filterMap_record _

theorem looks_record : (c.record μ).looks = c.looks ++ μ.look?.toList := filterMap_record _

end Chronicle

/-! ## What a read is for -/

namespace Moment.Sound

variable {μ : Moment H} {p : PromiseId}

theorem size_le (h : μ.Sound b) : μ.before.promises.size ≤ μ.after.promises.size := by
  obtain ⟨r, x, hg, -⟩ := h.grows
  rw [hg.size]
  exact Nat.le_add_right _ _

/-- Only the winner that stores its outcome changes for how many promises that has been done. -/
theorem stored_eq [DecidableEq (H.Closure .clock)] (h : μ.Sound b)
    (hf : ∀ p o, μ.frame ≠ .completing p (.store o)) (k : H.Closure .clock) :
    μ.after.stored k = μ.before.stored k := by
  refine Machine.countP_eq_of_any (fun _ => rfl) h.size_le fun q => ?_
  have hch := h.made.effect.promise q
  generalize μ.frame = f, μ.next = n, μ.before.cells? q = x, μ.after.cells? q = x' at hch hf ⊢
  cases hch with
  | store => exact absurd rfl (hf _ _)
  | make => simp [Promise.make]
  | _ => rfl

end Moment.Sound

theorem onClock_append [DecidableEq (H.Closure .clock)] (k : H.Closure .clock)
    (l l' : List (CallId × H.Closure .clock)) : onClock k (l ++ l') = onClock k l + onClock k l' :=
  List.countP_append

namespace Chronicle

variable {c : Chronicle H} {μ : Moment H} {p : PromiseId}

/-- All other reads are those of constructions and of duration calls, and each of these is one. -/
theorem Reached.read?_eq (hc : c.Reached b) (hμ : μ ∈ c.past)
    (hstore : ∀ p o, μ.frame ≠ .completing p (.store o)) :
    μ.read? = μ.construction? ∧ μ.look? = none ∨ μ.read? = μ.look? ∧ μ.construction? = none := by
  have hsound := (hc.sound μ hμ).1
  have hclock : ∀ {p pr}, μ.before.cells? p = some pr →
      μ.before.clock? p = some pr.clock ∧ μ.after.clock? p = some pr.clock := fun hp =>
    ⟨Machine.clock?_eq_some hp, hsound.clock? (Machine.clock?_eq_some hp)⟩
  -- A chaining and a duration turn to the clock of a promise; a construction comes with its own.
  by_cases hchain : ∃ p f, μ.frame = .chaining p f none
  · obtain ⟨p, f, hf⟩ := hchain
    obtain ⟨pr, hp, hn⟩ := hsound.asks_chain hf
    obtain ⟨hk, hk'⟩ := hclock hp
    refine .inl ⟨?_, by simp [Moment.look?, hf]⟩
    simp [Moment.read?, Moment.construction?, hf, hn, Frame.isReading, Frame.clock?, hk, hk']
  by_cases hlook : ∃ p, μ.frame = .measuring p none
  · obtain ⟨p, hf⟩ := hlook
    right
    obtain ⟨pr, hp, he, hn⟩ | ⟨hdone, hover⟩ := hsound.asks_duration hf
    · obtain ⟨hk, hk'⟩ := hclock hp
      have hdone : μ.before.isDone p = false := Bool.eq_false_iff.2 fun hd => by
        obtain ⟨pr', hp', hd⟩ := Machine.isDone_iff_cells?.1 hd
        cases hp.symm.trans hp'
        rw [Promise.endTime] at he
        simp [Promise.isDone, Latch.isOpen, he] at hd
      simp [Moment.read?, Moment.look?, Moment.construction?, hf, hn, Frame.isReading,
        Frame.clock?, hk, hk', hdone]
    · have hlook : μ.look? = none := by simp [Moment.look?, hf, hdone]
      rw [hlook]
      generalize hn : μ.next = n at hover
      cases n with
      | answer | throw => exact ⟨by rw [Moment.read?, hn], by simp [Moment.construction?, hf, hn]⟩
      | goto | enter | abort => cases hover
  left
  have hnone : μ.look? = none := by
    unfold Moment.look?
    split
    · rename_i p hf
      exact absurd ⟨p, hf⟩ hlook
    · rfl
  refine ⟨?_, hnone⟩
  unfold Moment.construction?
  split
  · rename_i p f g hf hn
    exact absurd ⟨p, f, hf⟩ hchain
  · rename_i builder k code f' hn
    rw [Moment.read?, hn]
    rfl
  · rename_i hbuild _
    refine Option.eq_none_iff_forall_ne_some.2 fun x hr => ?_
    obtain ⟨i, k⟩ := x
    cases hc.asks hμ hr with
    | build hn =>
      obtain ⟨g, hn⟩ := Next.eq_enter hn
      exact hbuild _ _ _ _ hn
    | chain hf => exact hchain ⟨_, _, hf⟩
    | complete hf => exact hstore _ _ hf
    | duration hf => exact hlook ⟨_, hf⟩

section

variable [DecidableEq (H.Closure .clock)]

/-- The winner stores an outcome for one promise more. -/
theorem Reached.stored_eq_succ (hc : c.Reached b) (hμ : μ ∈ c.past) {o : Outcome} {pr : Promise H}
    (hf : μ.frame = .completing p (.store o)) (hp : μ.before.cells? p = some pr)
    (ho : pr.outcome = none) (ha : μ.after.cells? p = some { pr with outcome := some o }) :
    μ.after.stored pr.clock = μ.before.stored pr.clock + 1 ∧
      ∀ k, k ≠ pr.clock → μ.after.stored k = μ.before.stored k := by
  have hsound := (hc.sound μ hμ).1
  -- The other promises are on their clocks as before, and without an outcome if they were.
  have hother : ∀ k q, q ≠ p →
      (μ.after.cells? q).any (fun pr => decide (pr.clock = k ∧ pr.outcome ≠ none)) =
        (μ.before.cells? q).any fun pr => decide (pr.clock = k ∧ pr.outcome ≠ none) := by
    intro k q hq
    have hch := hsound.made.effect.promise q
    rw [hf] at hch
    generalize μ.next = n, μ.before.cells? q = x, μ.after.cells? q = x' at hch ⊢
    cases hch with
    | same => rfl
    | store => exact absurd rfl hq
    | make => simp [Promise.make]
  refine ⟨Machine.countP_eq_succ_of_any (fun _ => rfl) hsound.size_le (p := p) ?_ ?_ (hother _),
    fun k hk => Machine.countP_eq_of_any (fun _ => rfl) hsound.size_le fun q => ?_⟩
  · simp [hp, ho]
  · simp [ha]
  · by_cases hq : q = p
    · subst hq
      simp [hp, ha, Ne.symm hk]
    · exact hother k q hq

/-- What a moment adds to both sides of the balance. -/
theorem Reached.balance_step (hc : c.Reached b) (hμ : μ ∈ c.past) (k : H.Closure .clock) :
    μ.before.stored k + onClock k μ.read?.toList =
      μ.after.stored k + onClock k μ.construction?.toList + onClock k μ.look?.toList := by
  have hsound := (hc.sound μ hμ).1
  have hclock : ∀ {p pr}, μ.before.cells? p = some pr → μ.after.clock? p = some pr.clock :=
    fun hp => hsound.clock? (Machine.clock?_eq_some hp)
  -- A store adds one to the promises stored on its clock; no other moment does.
  by_cases hstore : ∃ p o, μ.frame = .completing p (.store o)
  · obtain ⟨p, o, hf⟩ := hstore
    obtain ⟨pr, hp, -, ho, ha, hn⟩ := hc.asks_complete hμ hf
    obtain ⟨hone, hother⟩ := hc.stored_eq_succ hμ hf hp ho ha
    have hread : μ.read? = some (μ.call, pr.clock) := by
      simp [Moment.read?, hn, hf, Frame.isReading, Frame.clock?, hclock hp]
    have hcon : μ.construction? = none := by simp [Moment.construction?, hf, hn]
    have hlook : μ.look? = none := by simp [Moment.look?, hf]
    by_cases hk : k = pr.clock
    · subst hk
      simp [hread, hcon, hlook, hone, onClock]
    · simp [hread, hcon, hlook, hother k hk, onClock, Ne.symm hk]
  have hne : ∀ p o, μ.frame ≠ .completing p (.store o) := fun p o hf => hstore ⟨p, o, hf⟩
  rw [hsound.stored_eq hne k]
  rcases hc.read?_eq hμ hne with ⟨hread, hnone⟩ | ⟨hread, hnone⟩
  · rw [hread, hnone]
    rfl
  · rw [hread, hnone, Nat.add_assoc]
    simp [onClock]

/-- The reads of a clock are those of the constructions on it, of the winners that have stored their
outcome, and of the duration calls that have found a promise pending. -/
theorem Reached.balance (hc : c.Reached b) (k : H.Closure .clock) :
    onClock k c.reads = onClock k c.constructions + c.machine.stored k + onClock k c.looks := by
  induction c, hc using Reached.induction with
  | start m hm => simp [reads, constructions, looks, start, onClock, Machine.stored,
      Machine.countP, hm.promises]
  | record c μ hc hμ hc' ih =>
    have hstep := hc'.balance_step mem_record_self k
    rw [hμ.before] at hstep
    rw [reads_record, constructions_record, looks_record, onClock_append, onClock_append,
      onClock_append]
    change _ = _ + μ.after.stored k + _
    omega

/-- A promise that has been won has an outcome, or its winner is about to store one. -/
theorem Reached.claimed_eq (hc : c.Reached b) (k : H.Closure .clock) :
    c.machine.claimed k = c.machine.stored k + c.machine.due k := by
  -- The promises that are won fall into those with an outcome and those still without.
  have hstatus : ∀ pr ∈ c.machine.promises.toList, pr.outcome ≠ none → pr.status ≠ .init := by
    intro pr hpr ho hs
    obtain ⟨p, hp⟩ := List.getElem?_of_mem hpr
    rw [Array.getElem?_toList] at hp
    have hcells : c.machine.cells? p = some pr.bare := Machine.cells?_eq_some hp
    cases hc.contest p with
    | unclaimed hu => exact ho (hu.cells _ hcells).outcome
    | won hw =>
      obtain ⟨pr', hp', hsh⟩ := hw.cells
      cases hcells.symm.trans hp'
      exact Outcome.status_ne_init _ (hsh.status.symm.trans hs)
  simp only [Machine.claimed, Machine.countP, List.countP_eq_length_filter]
  rw [List.length_eq_countP_add_countP fun pr => decide (pr.outcome ≠ none), List.countP_filter,
    List.countP_filter]
  congr 1
  · refine List.countP_congr fun pr hpr => ?_
    simp only [Bool.and_eq_true, decide_eq_true_eq]
    exact ⟨fun ⟨ho, hk, _⟩ => ⟨hk, ho⟩, fun ⟨hk, ho⟩ => ⟨ho, hk, hstatus pr hpr ho⟩⟩
  · refine List.countP_congr fun pr _ => ?_
    simp only [Bool.and_eq_true, decide_eq_true_eq, not_not]
    exact ⟨fun ⟨ho, hk, hs⟩ => ⟨hk, hs, ho⟩, fun ⟨hk, hs, ho⟩ => ⟨ho, hk, hs⟩⟩

end

end Chronicle

/-! ## What becomes of a construction -/

namespace Moment.Sound

variable {μ : Moment H}

theorem size_eq (h : μ.Sound b) (hf : μ.frame.isMaking = false) :
    μ.after.promises.size = μ.before.promises.size := by
  obtain ⟨r, x, hg, hx⟩ := h.grows
  rw [hg.size]
  generalize μ.frame = f at hx hf
  cases hx with
  | build | chain => cases hf
  | _ => rfl

variable [DecidableEq (H.Closure .clock)]

/-- What is no new promise has the clock that it had. -/
theorem any_clock_eq (h : μ.Sound b) {q : Nat}
    (hq : q < μ.before.promises.size ∨ μ.after.promises.size ≤ q) (k : H.Closure .clock) :
    (μ.after.cells? q).any (fun pr => decide (pr.clock = k)) =
      (μ.before.cells? q).any fun pr => decide (pr.clock = k) := by
  cases hb : μ.before.cells? q with
  | some pr =>
    obtain ⟨pr', hp', hmade⟩ := h.made.made_eq hb
    rw [hp', Option.any_some, Option.any_some, (Promise.eq_of_made_eq hmade).1]
  | none =>
    have hge : μ.before.promises.size ≤ q :=
      Array.getElem?_eq_none_iff.1 (Option.map_eq_none_iff.1 hb)
    have hnone : μ.after.cells? q = none :=
      Option.map_eq_none_iff.2 (Array.getElem?_eq_none_iff.2 (hq.resolve_left (Nat.not_lt.2 hge)))
    rw [hnone]

theorem made_eq (h : μ.Sound b) (hsize : μ.after.promises.size = μ.before.promises.size)
    (k : H.Closure .clock) : μ.after.made k = μ.before.made k :=
  Machine.countP_eq_of_any (fun _ => rfl) h.size_le fun q =>
    h.any_clock_eq (by rw [hsize]; exact Nat.lt_or_ge q _) k

/-- A new promise is one more on its clock. -/
theorem made_eq_succ (h : μ.Sound b)
    (hsize : μ.after.promises.size = μ.before.promises.size + 1) {pr : Promise H}
    (hp : μ.after.cells? μ.before.promises.size = some pr) (k : H.Closure .clock) :
    μ.after.made k = μ.before.made k + if pr.clock = k then 1 else 0 := by
  have hnone : μ.before.cells? μ.before.promises.size = none := by
    simp [Machine.cells?, Machine.promise?]
  have hother : ∀ q ≠ μ.before.promises.size,
      (μ.after.cells? q).any (fun pr => decide (pr.clock = k)) =
        (μ.before.cells? q).any fun pr => decide (pr.clock = k) :=
    fun q hq => h.any_clock_eq (by omega) k
  split
  · rename_i hk
    exact Machine.countP_eq_succ_of_any (fun _ => rfl) h.size_le (by rw [hnone]; rfl)
      (by simp [hp, hk]) hother
  · rename_i hk
    refine Machine.countP_eq_of_any (fun _ => rfl) h.size_le fun q => ?_
    by_cases hq : q = μ.before.promises.size
    · subst hq
      simp [hp, hnone, hk]
    · exact hother q hq

end Moment.Sound

/-- What becomes of a call that is making a promise on a clock, at a moment of it. -/
inductive Moment.Constructs (μ : Moment H) (k : H.Closure .clock) : Prop
  /-- It goes on. -/
  | run {g} (hn : μ.next.own μ.frame = some g) (hg : g.isMaking = true)
    (hsize : μ.after.promises.size = μ.before.promises.size) (hw : μ.wreck? = none)
  /-- There is one promise more. -/
  | make {pr} (hn : (μ.next.own μ.frame).any Frame.isMaking = false)
    (hsize : μ.after.promises.size = μ.before.promises.size + 1)
    (hp : μ.after.cells? μ.before.promises.size = some pr) (hk : pr.clock = k)
    (hw : μ.wreck? = none)
  /-- It is left by a panic. -/
  | wreck (hn : μ.next.own μ.frame = none)
    (hsize : μ.after.promises.size = μ.before.promises.size) (hw : μ.wreck? = some (μ.call, k))

/-- What becomes of a call that is making a promise is one of these. -/
theorem Moment.Sound.constructs {μ : Moment H} {k : H.Closure .clock} (h : μ.Sound b)
    (hf : μ.frame.isMaking = true) (hk : μ.frame.clock? μ.before = some k) : μ.Constructs k := by
  cases h.made with
  | wake _ hf' => rw [hf'] at hf; cases hf
  | @step rest token m _ _ hs ha =>
    have hpromises : μ.after.promises = m.promises := by
      rw [ha]
      cases μ.next <;> rfl
    have hrun : ∀ {m₁ : Machine H}, μ.before.Alike m₁ → m = m₁ →
        μ.after.promises.size = μ.before.promises.size := by
      rintro m₁ halike rfl
      rw [hpromises, halike.promises]
    -- A promise is made at the end of the code, and under the next number.
    have hmake : ∀ {m₁ : Machine H} {pr : Promise H}, μ.before.Alike m₁ →
        m = (m₁.addPromise pr).1 → μ.after.promises.size = μ.before.promises.size + 1 ∧
          μ.after.cells? μ.before.promises.size = some pr.bare := by
      rintro m₁ pr halike rfl
      simp [Machine.cells?, Machine.promise?, hpromises, Machine.addPromise, halike.promises]
    generalize hfr : μ.frame = f at hs hf hk
    cases f with
    | building builder k' code =>
      cases hk
      replace hs : builder.step b _ _ _ _ _ = _ := hs
      generalize hn : μ.next = n at hs
      cases Machine.ran_of_runCode hs with
      | call hr | stay hr =>
        exact .run (by rw [hn]; rfl) rfl (hrun (Machine.alike_resume hr) rfl)
          (by simp [wreck?, hn])
      | panic hr =>
        exact .wreck (by rw [hn]; rfl) (hrun (Machine.alike_resume hr) rfl)
          (by simp [wreck?, hn, hfr, Frame.isMaking, Frame.clock?])
      | @finish m₁ reading _ _ hr hd =>
        cases hd
        obtain ⟨hsize, hp⟩ := hmake (Machine.alike_resume hr) rfl
        exact .make (by rw [hn]; rfl) hsize hp rfl (by simp [wreck?, hn])
    | chaining p f code =>
      cases code with
      | none => cases hf
      | some code =>
        replace hs : μ.before.stepChaining b _ _ _ _ (some code) = _ := hs
        generalize hn : μ.next = n at hs
        cases Machine.ran_of_runCode hs with
        | call hr | stay hr =>
          exact .run (by rw [hn]; rfl) rfl (hrun (Machine.alike_resume hr) rfl)
            (by simp [wreck?, hn])
        | panic hr =>
          exact .wreck (by rw [hn]; rfl) (hrun (Machine.alike_resume hr) rfl)
            (by simp [wreck?, hn, hfr, Frame.isMaking, hk])
        | @finish m₁ reading _ _ hr hd =>
          have halike := Machine.alike_resume hr
          obtain ⟨pr, hpr, hd⟩ := Option.bind_eq_some_iff.1 hd
          cases hd
          obtain ⟨hsize, hp⟩ := hmake halike rfl
          refine .make (by rw [hn]; rfl) hsize hp ?_ (by simp [wreck?, hn])
          rw [Machine.promise?, halike.promises] at hpr
          cases (Machine.clock?_eq_some (Machine.cells?_eq_some hpr)).symm.trans hk
          rfl
    | _ => cases hf

namespace Chronicle

variable {c : Chronicle H} {μ : Moment H} {i : CallId} {k k' : H.Closure .clock}

theorem Reached.read_inj (hc : c.Reached b) (hr : (i, k) ∈ c.reads) (hr' : (i, k') ∈ c.reads) :
    k' = k := by
  have heq := List.inj_on_of_nodup_map hc.nodup_reads hr' hr rfl
  exact congrArg Prod.snd heq

/-- Only a chaining whose clock is unread comes to make a promise. -/
theorem Extends.isMaking_of_own (h : c.Extends b μ) {f : Frame H}
    (hown : μ.next.own μ.frame = some f) (hf : f.isMaking = true) :
    μ.frame.isMaking = true ∨ μ.frame.isUnread = true := by
  rcases h.made.leads.sameCall hown with rfl | hsame
  · exact .inl hf
  generalize μ.frame = fr at hsame
  cases hsame with
  | building => exact .inl rfl
  | @chaining p g code => cases code with
    | none => exact .inr rfl
    | some => exact .inl rfl
  | _ => cases hf

/-- No other call comes to make a promise at a moment, or leaves off. -/
theorem Extends.any_isMaking (hc : c.Reached b) (h : c.Extends b μ) (hr : (i, k) ∈ c.reads)
    (hi : i ≠ μ.call) : ((c.record μ).frame? i).any Frame.isMaking =
      (c.frame? i).any Frame.isMaking := by
  have hle := hc.entry_of_mem_reads hr
  have hnew : i ≠ μ.entered := by
    rintro rfl
    rw [Moment.entered, h.number] at hle
    exact Nat.not_succ_le_self _ hle
  have hk := frame?_record_of_ne hc.tracked h hi hnew
  generalize c.frame? i = x, (c.record μ).frame? i = x' at hk
  cases hk <;> rfl

section

variable [DecidableEq (H.Closure .clock)]

/-- If the call of a moment is still making a promise, or still not, as many are. -/
theorem Extends.makingAmong_eq (hc : c.Reached b) (h : c.Extends b μ)
    (hcall : ∀ k, (μ.call, k) ∈ c.reads →
      (μ.next.own μ.frame).any Frame.isMaking = μ.frame.isMaking) (k : H.Closure .clock) :
    (c.record μ).makingAmong c.reads k = c.making k := by
  refine List.countP_congr fun ⟨i, k'⟩ hr => ?_
  by_cases hi : i = μ.call
  · subst hi
    rw [frame?_record_self hc.tracked h, h.frame? hc.tracked, Option.any_some, hcall k' hr]
  · rw [h.any_isMaking hc hr hi]

/-- If the call of a moment leaves off making a promise, one less is on its clock. -/
theorem Extends.making_eq_succ (hc : c.Reached b) (h : c.Extends b μ) (hr : (μ.call, k') ∈ c.reads)
    (hf : μ.frame.isMaking = true) (hover : (μ.next.own μ.frame).any Frame.isMaking = false)
    (k : H.Closure .clock) :
    c.making k = (c.record μ).makingAmong c.reads k + if k' = k then 1 else 0 := by
  have hself := frame?_record_self hc.tracked h
  split
  · rename_i hk
    subst hk
    refine countP_eq_succ hc.nodup_reads.of_map hr ?_ ?_ fun ⟨i, k⟩ hr' hne => ?_
    · rw [hself, hover, Bool.and_false]
    · rw [h.frame? hc.tracked, Option.any_some, hf]
      simp
    · have hi : i ≠ μ.call := fun hi => hne (by rw [hi] at hr' ⊢; rw [hc.read_inj hr hr'])
      rw [h.any_isMaking hc hr' hi]
  · rename_i hk
    refine List.countP_congr fun ⟨i, k₀⟩ hr' => ?_
    by_cases hi : i = μ.call
    · rw [hi] at hr'
      simp [hc.read_inj hr hr', hk]
    · rw [h.any_isMaking hc hr' hi]

/-- A call that was making a promise at a moment still is, or it has made one, or it was left by a
panic. -/
theorem Extends.making_record (hc : c.Reached b) (h : c.Extends b μ) (k : H.Closure .clock) :
    μ.before.made k + c.making k =
      μ.after.made k + (c.record μ).makingAmong c.reads k + onClock k μ.wreck?.toList := by
  have hsound := h.sound hc.tracked
  have hframe := h.frame? hc.tracked
  -- Only a call that is making a promise can leave off, and it has read its clock.
  cases hf : μ.frame.isMaking with
  | false =>
    have hwreck : μ.wreck? = none := by
      unfold Moment.wreck?
      split <;> simp [hf]
    rw [hwreck, hsound.made_eq (hsound.size_eq hf) k, h.makingAmong_eq hc fun k' hr => ?_]
    · rfl
    · rw [hf]
      refine Bool.eq_false_iff.2 fun hany => ?_
      obtain ⟨f, hown, hmaking⟩ := (Option.any_eq_true _ _).1 hany
      rcases h.isMaking_of_own hown hmaking with hf' | hunread
      · exact Bool.false_ne_true (hf.symm.trans hf')
      · exact hc.not_mem_reads _ _ hframe hunread k' hr
  | true =>
    obtain ⟨k₀, hk₀, hr₀⟩ := hc.exists_read _ _ hframe (Frame.isReading_of_isMaking hf)
    rw [← h.before] at hk₀
    cases hsound.constructs hf hk₀ with
    | run hn hg hsize hw =>
      rw [hw, hsound.made_eq hsize k, h.makingAmong_eq hc fun _ _ => by rw [hn, hf]; exact hg]
      rfl
    | make hn hsize hp hk hw =>
      rw [hw, hsound.made_eq_succ hsize hp k, h.making_eq_succ hc hr₀ hf hn k, hk]
      simp only [Option.toList_none, onClock, List.countP_nil]
      omega
    | wreck hn hsize hw =>
      rw [hw, hsound.made_eq hsize k, h.making_eq_succ hc hr₀ hf (by rw [hn]; rfl) k]
      by_cases hk : k₀ = k
      · simp [onClock, hk, Nat.add_assoc]
      · simp [onClock, hk]

/-- Of the calls that start to read a clock at a moment, those are making a promise that set out to
make one. -/
theorem Extends.makingAmong_read? (hc : c.Reached b) (h : c.Extends b μ)
    (hc' : (c.record μ).Reached b) (k : H.Closure .clock) :
    (c.record μ).makingAmong μ.read?.toList k = onClock k μ.construction?.toList := by
  have hown := frame?_record_self hc.tracked h
  have hcal := frame?_record_entered hc.tracked h
  -- It is enough that a call which starts to read sets out to make a promise if it is making one.
  suffices hcon : (∀ i k, μ.read? = some (i, k) → ∃ f, (c.record μ).frame? i = some f ∧
      μ.construction? = if f.isMaking then some (i, k) else none) ∧
      (μ.read? = none → μ.construction? = none) by
    cases hr : μ.read? with
    | none => rw [hcon.2 hr]; rfl
    | some x =>
      obtain ⟨f, hf, hcon⟩ := hcon.1 x.1 x.2 hr
      cases hmaking : f.isMaking <;> simp [makingAmong, onClock, hcon, hf, hmaking]
  refine ⟨fun i k hr => ?_, fun hr => ?_⟩
  · cases hc'.asks mem_record_self hr with
    | build hn =>
      refine ⟨_, hcal.trans hn, ?_⟩
      obtain ⟨g, hn⟩ := Next.eq_enter hn
      simp [Moment.construction?, hn, Frame.isMaking]
    | chain hf hp hn =>
      refine ⟨_, hown.trans (by rw [hn]; rfl), ?_⟩
      simp [Moment.construction?, hf, hn, Machine.clock?_eq_some hp, Frame.isMaking]
    | complete hf _ _ _ _ hn | duration hf _ _ hn =>
      refine ⟨_, hown.trans (by rw [hn]; rfl), ?_⟩
      simp [Moment.construction?, hf, hn, Frame.isMaking]
  · by_cases hstore : ∃ p o, μ.frame = .completing p (.store o)
    · obtain ⟨p, o, hf⟩ := hstore
      obtain ⟨pr, -, -, -, -, hn⟩ := hc'.asks_complete mem_record_self hf
      simp [Moment.construction?, hf, hn]
    · rcases hc'.read?_eq mem_record_self fun p o hf => hstore ⟨p, o, hf⟩ with ⟨heq, -⟩ | ⟨-, hnone⟩
      · rw [← heq, hr]
      · exact hnone

/-- Each construction is still going on, has made a promise, or was left by a panic. -/
theorem Reached.constructed (hc : c.Reached b) (k : H.Closure .clock) :
    onClock k c.constructions = c.machine.made k + c.making k + onClock k c.wrecks := by
  induction c, hc using Reached.induction with
  | start m hm => simp [making, makingAmong, reads, constructions, wrecks, start, onClock,
      Machine.made, Machine.countP, hm.promises]
  | record c μ hc hμ hc' ih =>
    have hstep := hμ.making_record hc k
    have hnew := hμ.makingAmong_read? hc hc' k
    have hmaking : (c.record μ).making k = (c.record μ).makingAmong c.reads k +
        (c.record μ).makingAmong μ.read?.toList k := by
      rw [making, reads_record]
      exact List.countP_append
    rw [hμ.before] at hstep
    rw [constructions_record, wrecks_record, onClock_append, onClock_append, hmaking, hnew]
    change _ = μ.after.made k + _ + _
    omega

end

end Chronicle

end OneShot
