import Mathlib.Data.List.Perm.Basic
import OneShot.Registry

/-!
# Who has a listener

A registry that any number of calls use at once. Each registration looks twice whether the promise
is done, and whatever it is told, and whatever the other calls do in between, the listener that it
was given ends up in one place.

- **Calls on a registry** (`Registry.Step`, `Registry.Reply`, `Registry.Desk`): the steps that the
  calls make, in any order, and what they answer. A registration that nothing comes in between is
  `Registry.register` (`Desk.run_register`).
- **One step** (`Desk.toList_move`, `Desk.passed_move`): what is stored and not yet taken, and which
  registrations are in progress.
- **All steps** (`Conserved`, `hands_over_each_listener_once`): every listener is handed back by its
  own registration, or stored and taken out by the first drain. It is stored if the registration is
  told twice that the promise is pending and no drain has come before (`Desk.kept_of_run`).
-/

namespace OneShot.Registry

variable {α : Type}

/-! ## Calls on a registry -/

/-- A step of one of the calls on a registry. -/
inductive Step (α : Type) where
  /-- A registration of `l` begins. It looks whether the promise is done, without the guard. -/
  | look (l : α) (done : Bool)
  /-- Of the registrations in progress, the one at place `i` looks again, under the guard. -/
  | enroll (i : Nat) (done : Bool)
  /-- Everything is taken out. -/
  | drain
  /-- The listeners are counted. -/
  | count

/-- What a call on a registry answers. -/
inductive Reply (α : Type) where
  /-- The registration of `l` hands something back, or nothing. -/
  | registered (l : α) (back : Option α)
  | drained (ls : List α)
  | counted (n : Nat)
  deriving DecidableEq

/-- A registry in use. -/
structure Desk (α : Type) where
  registry : Registry α := .empty
  /-- The listeners of the registrations in progress: the promise was pending when they looked. -/
  waiting : List α := []

namespace Desk

/-- The desk after a step, and the answer of the call if it is over. No registration is in progress
at a place that is not there, and nothing happens then. -/
def move (d : Desk α) : Step α → Desk α × Option (Reply α)
  | .look l true => (d, some (.registered l (some l)))
  | .look l false => ({ d with waiting := d.waiting ++ [l] }, none)
  | .enroll i done =>
    match d.waiting[i]? with
    | some l =>
      let (registry, back) := d.registry.enroll l done
      ({ registry, waiting := d.waiting.eraseIdx i }, some (.registered l back))
    | none => (d, none)
  | .drain =>
    let (registry, ls) := d.registry.drain
    ({ d with registry }, some (.drained ls))
  | .count => (d, some (.counted d.registry.length))

theorem move_enroll {d : Desk α} {i : Nat} {l : α} (h : d.waiting[i]? = some l) (done : Bool) :
    d.move (.enroll i done) =
      ({ registry := (d.registry.enroll l done).1, waiting := d.waiting.eraseIdx i },
        some (.registered l (d.registry.enroll l done).2)) := by
  simp only [move, h]

theorem move_enroll_none {d : Desk α} {i : Nat} (h : d.waiting[i]? = none) (done : Bool) :
    d.move (.enroll i done) = (d, none) := by
  simp only [move, h]

/-- The desk after steps in a row, and what has been answered. -/
def run (d : Desk α) : List (Step α) → Desk α × List (Reply α)
  | [] => (d, [])
  | s :: ss => (((d.move s).1.run ss).1, (d.move s).2.toList ++ ((d.move s).1.run ss).2)

/-- The steps of a registration that nothing comes in between. -/
def registration (d : Desk α) (l : α) (before under : Bool) : List (Step α) :=
  if before then [.look l true] else [.look l false, .enroll d.waiting.length under]

theorem run_register (d : Desk α) (l : α) (before under : Bool) :
    d.run (d.registration l before under) =
      ({ d with registry := (d.registry.register l before under).1 },
        [.registered l (d.registry.register l before under).2]) := by
  cases before with
  | true => rfl
  | false => simp [registration, run, move, register, List.eraseIdx_append_of_length_le]

end Desk

/-! ## Looks at steps and answers -/

/-- The listener that a step passes in. -/
def Step.passed? : Step α → Option α
  | look l _ => some l
  | _ => none

namespace Reply

/-- The listener of a registration that is over. -/
def settled? : Reply α → Option α
  | registered l _ => some l
  | _ => none

/-- The listener of a registration that has handed nothing back. -/
def stored? : Reply α → Option α
  | registered l none => some l
  | _ => none

/-- What a drain has taken out. -/
def taken : Reply α → List α
  | drained ls => ls
  | _ => []

/-- An answer of a registry whose listeners are gone. -/
inductive Late : Reply α → Prop
  | registered {l} : Late (.registered l (some l))
  | drained : Late (.drained [])
  | counted : Late (.counted 0)

end Reply

/-- The listeners that were stored, in that order. -/
def stored (rs : List (Reply α)) : List α := rs.filterMap Reply.stored?

/-- The listeners that were taken out, in that order. -/
def taken (rs : List (Reply α)) : List α := rs.flatMap Reply.taken

/-! ## One step -/

namespace Desk

variable {d : Desk α} {s : Step α} {ss : List (Step α)} {r : Reply α} {rs rs' : List (Reply α)}

/-- What was there and what a step stores is what it takes out and what is there then. -/
theorem toList_move (d : Desk α) (s : Step α) :
    d.registry.toList ++ stored (d.move s).2.toList =
      taken (d.move s).2.toList ++ (d.move s).1.registry.toList := by
  cases s with
  | look l done => cases done <;> simp [move, stored, taken, Reply.stored?, Reply.taken]
  | enroll i done =>
    cases hl : d.waiting[i]? with
    | none => simp [move_enroll_none hl, stored, taken]
    | some l =>
      have h := toList_enroll d.registry l done
      rw [move_enroll hl]
      generalize d.registry.enroll l done = e at h
      obtain ⟨registry, _ | back⟩ := e
      · simpa [stored, taken, Reply.stored?, Reply.taken] using h.symm
      · simpa [stored, taken, List.filterMap_cons, Reply.stored?, Reply.taken] using h.symm
  | drain | count => simp [move, stored, taken, List.filterMap_cons, Reply.stored?, Reply.taken]

/-- The registrations that were in progress and the one that begins are those that end and those
that are in progress then. -/
theorem passed_move (d : Desk α) (s : Step α) :
    (d.waiting ++ s.passed?.toList).Perm
      ((d.move s).2.toList.filterMap Reply.settled? ++ (d.move s).1.waiting) := by
  cases s with
  | look l done =>
    cases done with
    | true => exact List.perm_append_singleton l d.waiting
    | false => exact .refl _
  | enroll i done =>
    cases hl : d.waiting[i]? with
    | none => simp [move_enroll_none hl, Step.passed?]
    | some l =>
      rw [move_enroll hl]
      obtain ⟨hi, rfl⟩ := List.getElem?_eq_some_iff.1 hl
      simpa [Step.passed?, Reply.settled?] using (List.getElem_cons_eraseIdx_perm hi).symm
  | drain | count => simp [move, List.filterMap_cons, Step.passed?, Reply.settled?]

/-- A registration hands back its own listener, or nothing. -/
theorem back_of_move {l : α} {back : Option α} (h : (d.move s).2 = some (.registered l back)) :
    back = none ∨ back = some l := by
  cases s with
  | look l' done =>
    cases done <;> cases h
    exact .inr rfl
  | enroll i done =>
    cases hl : d.waiting[i]? with
    | none => rw [move_enroll_none hl] at h; cases h
    | some l =>
      rw [move_enroll hl] at h
      cases h
      rw [enroll_snd]
      split
      · exact .inr rfl
      · exact .inl rfl
  | drain | count => cases h

/-- Once the listeners are gone, they stay so, and no call is given any. -/
theorem late_of_move (hd : d.registry.isDrained = true) (s : Step α) :
    (d.move s).1.registry.isDrained = true ∧ ∀ r, (d.move s).2 = some r → r.Late := by
  have hlist : d.registry.toList = [] := by
    cases hr : d.registry with
    | pending ls => rw [hr] at hd; cases hd
    | drained => rfl
  cases s with
  | look l done =>
    cases done
    · exact ⟨hd, nofun⟩
    · exact ⟨hd, fun r hr => by cases hr; exact .registered⟩
  | enroll i done =>
    cases hl : d.waiting[i]? with
    | none => rw [move_enroll_none hl]; exact ⟨hd, nofun⟩
    | some l =>
      rw [move_enroll hl]
      refine ⟨(isDrained_enroll ..).trans hd, fun r hr => ?_⟩
      cases hr
      rw [enroll_snd, hd, Bool.or_true, if_pos rfl]
      exact .registered
  | drain =>
    refine ⟨rfl, fun r hr => ?_⟩
    cases hr
    rw [hlist]
    exact .drained
  | count =>
    refine ⟨hd, fun r hr => ?_⟩
    cases hr
    rw [length, hlist]
    exact .counted

/-- Nothing but a drain takes the listeners away. -/
theorem isDrained_move (d : Desk α) (hs : s ≠ .drain) :
    (d.move s).1.registry.isDrained = d.registry.isDrained := by
  cases s with
  | look l done => cases done <;> rfl
  | enroll i done =>
    cases hl : d.waiting[i]? with
    | none => rw [move_enroll_none hl]
    | some l =>
      rw [move_enroll hl]
      exact isDrained_enroll ..
  | drain => exact absurd rfl hs
  | count => rfl

/-! ## All steps -/

theorem run_append (d : Desk α) (ss ss' : List (Step α)) :
    (d.run (ss ++ ss')).2 = (d.run ss).2 ++ ((d.run ss).1.run ss').2 := by
  induction ss generalizing d with
  | nil => rfl
  | cons s ss ih => simp only [List.cons_append, run, ih, List.append_assoc]

theorem isDrained_run (d : Desk α) (h : .drain ∉ ss) :
    (d.run ss).1.registry.isDrained = d.registry.isDrained := by
  induction ss generalizing d with
  | nil => rfl
  | cons s ss ih =>
    have hs : s ≠ .drain := Ne.symm (List.ne_of_not_mem_cons h)
    exact (ih _ (List.not_mem_of_not_mem_cons h)).trans (d.isDrained_move hs)

theorem toList_run (d : Desk α) (ss : List (Step α)) :
    d.registry.toList ++ stored (d.run ss).2 =
      taken (d.run ss).2 ++ (d.run ss).1.registry.toList := by
  induction ss generalizing d with
  | nil => simp [run, stored, taken]
  | cons s ss ih =>
    have hmove := d.toList_move s
    have hrun := ih (d.move s).1
    simp only [run, stored, taken, List.filterMap_append, List.flatMap_append] at hmove hrun ⊢
    rw [← List.append_assoc, hmove, List.append_assoc, hrun, List.append_assoc]

theorem passed_run (d : Desk α) (ss : List (Step α)) :
    (d.waiting ++ ss.filterMap Step.passed?).Perm
      ((d.run ss).2.filterMap Reply.settled? ++ (d.run ss).1.waiting) := by
  induction ss generalizing d with
  | nil => simp [run]
  | cons s ss ih =>
    have hcons : (s :: ss).filterMap Step.passed? =
        s.passed?.toList ++ ss.filterMap Step.passed? := by
      cases h : s.passed? <;> simp [h]
    simp only [run, List.filterMap_append, hcons]
    calc d.waiting ++ (s.passed?.toList ++ ss.filterMap Step.passed?)
      _ = (d.waiting ++ s.passed?.toList) ++ ss.filterMap Step.passed? :=
          (List.append_assoc ..).symm
      List.Perm _ (((d.move s).2.toList.filterMap Reply.settled? ++ (d.move s).1.waiting) ++
            ss.filterMap Step.passed?) := (d.passed_move s).append_right _
      _ = (d.move s).2.toList.filterMap Reply.settled? ++
            ((d.move s).1.waiting ++ ss.filterMap Step.passed?) := List.append_assoc ..
      List.Perm _ ((d.move s).2.toList.filterMap Reply.settled? ++
            (((d.move s).1.run ss).2.filterMap Reply.settled? ++
              ((d.move s).1.run ss).1.waiting)) := (ih _).append_left _
      _ = _ := (List.append_assoc ..).symm

theorem late_of_run (hd : d.registry.isDrained = true) (ss : List (Step α)) :
    ∀ r ∈ (d.run ss).2, r.Late := by
  induction ss generalizing d with
  | nil => exact fun r hr => absurd hr List.not_mem_nil
  | cons s ss ih =>
    obtain ⟨hd', hlate⟩ := late_of_move hd s
    intro r hr
    rcases List.mem_append.1 hr with hr | hr
    · exact hlate r (Option.mem_toList.1 hr)
    · exact ih hd' r hr

/-- Each answer was given in a step that comes between those that gave the others. -/
theorem exists_of_replies (h : (d.run ss).2 = rs ++ r :: rs') : ∃ ss₁ s ss₂,
    (d.run ss₁).2 = rs ∧ ((d.run ss₁).1.move s).2 = some r ∧
      (((d.run ss₁).1.move s).1.run ss₂).2 = rs' := by
  induction ss generalizing d rs with
  | nil => simp [run] at h
  | cons s ss ih =>
    cases hr : (d.move s).2 with
    | none =>
      simp only [run, hr, Option.toList_none, List.nil_append] at h
      obtain ⟨ss₁, s', ss₂, h₁, h₂, h₃⟩ := ih h
      exact ⟨s :: ss₁, s', ss₂, by simp [run, hr, h₁], h₂, h₃⟩
    | some r' =>
      simp only [run, hr, Option.toList_some, List.singleton_append] at h
      cases rs with
      | nil =>
        obtain ⟨rfl, hrest⟩ := List.cons.inj h
        exact ⟨[], s, ss, rfl, hr, hrest⟩
      | cons r'' rs =>
        obtain ⟨rfl, hrest⟩ := List.cons.inj h
        obtain ⟨ss₁, s', ss₂, h₁, h₂, h₃⟩ := ih hrest
        exact ⟨s :: ss₁, s', ss₂, by simp [run, hr, h₁], h₂, h₃⟩

theorem drained_of_move {ls : List α} (h : (d.move s).2 = some (.drained ls)) :
    ls = d.registry.toList ∧ (d.move s).1.registry.isDrained = true := by
  cases s with
  | look l done => cases done <;> cases h
  | enroll i done =>
    cases hl : d.waiting[i]? with
    | none => rw [move_enroll_none hl] at h; cases h
    | some l => rw [move_enroll hl] at h; cases h
  | drain => cases h; exact ⟨rfl, rfl⟩
  | count => cases h

/-- As long as nothing was drained, a registration that looks for the second time and finds the
promise pending hands nothing back. -/
theorem kept_of_run {ss₁ ss₂ : List (Step α)} {i : Nat} {l : α} (hd : d.registry.isDrained = false)
    (hss : .drain ∉ ss₁) (hl : (d.run ss₁).1.waiting[i]? = some l) :
    ∃ rs₂, (d.run (ss₁ ++ .enroll i false :: ss₂)).2 =
      (d.run ss₁).2 ++ .registered l none :: rs₂ := by
  have hback : ((d.run ss₁).1.registry.enroll l false).2 = none := by
    rw [enroll_snd, isDrained_run d hss, hd]
    rfl
  refine ⟨(((d.run ss₁).1.move (.enroll i false)).1.run ss₂).2, ?_⟩
  rw [run_append, run, move_enroll hl, hback]
  rfl

theorem counted_of_move {n : Nat} (h : (d.move s).2 = some (.counted n)) :
    n = d.registry.toList.length := by
  cases s with
  | look l done => cases done <;> cases h
  | enroll i done =>
    cases hl : d.waiting[i]? with
    | none => rw [move_enroll_none hl] at h; cases h
    | some l => rw [move_enroll hl] at h; cases h
  | drain => cases h
  | count => cases h; rfl

end Desk

/-- Where the listeners are that were passed in by the steps `ss`, after which the registry is in
use as `d` and the calls have answered `rs`. -/
structure Conserved (ss : List (Step α)) (d : Desk α) (rs : List (Reply α)) : Prop where
  /-- Each registration is over or in progress. -/
  passed : (ss.filterMap Step.passed?).Perm (rs.filterMap Reply.settled? ++ d.waiting)
  /-- A registration that is over has handed its own listener back, or nothing. -/
  own : ∀ l back, .registered l back ∈ rs → back = none ∨ back = some l
  /-- It has handed back nothing if it was told twice that the promise was pending, and no drain had
  come before that. -/
  kept : ∀ ss₁ i ss₂ l, ss = ss₁ ++ .enroll i false :: ss₂ → .drain ∉ ss₁ →
    (Desk.run {} ss₁).1.waiting[i]? = some l →
    ∃ rs₂, rs = (Desk.run {} ss₁).2 ++ .registered l none :: rs₂
  /-- If nothing, the listener was stored, and it was taken out once or is still there. -/
  once : stored rs = taken rs ++ d.registry.toList
  /-- A drain leaves none of those that were stored before it. -/
  drain : ∀ rs₁ ls rs₂, rs = rs₁ ++ .drained ls :: rs₂ → stored rs₁ = taken rs₁ ++ ls
  /-- The first drain takes out all that were stored before it, in that order. -/
  first : ∀ rs₁ ls rs₂, rs = rs₁ ++ .drained ls :: rs₂ → (∀ ls', .drained ls' ∉ rs₁) →
    ls = stored rs₁
  /-- After a drain, no drain takes anything out and each registration hands its listener back. -/
  later : ∀ rs₁ ls rs₂, rs = rs₁ ++ .drained ls :: rs₂ →
    (∀ ls', .drained ls' ∈ rs₂ → ls' = []) ∧ ∀ l back, .registered l back ∈ rs₂ → back = some l
  /-- What is counted is stored and has not been taken out. -/
  counted : ∀ rs₁ n rs₂, rs = rs₁ ++ .counted n :: rs₂ →
    (stored rs₁).length = (taken rs₁).length + n

theorem taken_eq_nil {rs : List (Reply α)} (h : ∀ ls, .drained ls ∉ rs) : taken rs = [] := by
  refine List.flatMap_eq_nil_iff.2 fun r hr => ?_
  cases r with
  | registered l back | counted n => rfl
  | drained ls => exact absurd hr (h ls)

/-- Whatever steps the calls on a registry make, in whatever order, and whatever the registrations
are told when they look whether the promise is done: every listener that is passed in is handed back
by its own registration, or it is stored and taken out by the first drain, and never both. It is
handed back only if the registration was told that the promise was done, or came after a drain. A
registration that nothing comes in between is a call of `Registry.register`. -/
theorem hands_over_each_listener_once :
    (∀ (d : Desk α) l before under, d.run (d.registration l before under) =
      ({ d with registry := (d.registry.register l before under).1 },
        [.registered l (d.registry.register l before under).2])) ∧
    ∀ ss : List (Step α), Conserved ss (Desk.run {} ss).1 (Desk.run {} ss).2 := by
  refine ⟨Desk.run_register, fun ss => ?_⟩
  -- What was stored before an answer and not taken is what the registry holds at its step.
  have hsplit : ∀ {rs₁ r rs₂}, (Desk.run {} ss).2 = rs₁ ++ r :: rs₂ → ∃ (d : Desk α) (s : Step α),
      stored rs₁ = taken rs₁ ++ d.registry.toList ∧ (d.move s).2 = some r ∧
        ∃ ss', ((d.move s).1.run ss').2 = rs₂ := by
    intro rs₁ r rs₂ h
    obtain ⟨ss₁, s, ss₂, rfl, hr, hrs₂⟩ := Desk.exists_of_replies h
    exact ⟨_, s, Desk.toList_run {} ss₁, hr, ss₂, hrs₂⟩
  refine ⟨Desk.passed_run {} ss, fun l back hr => ?_, fun ss₁ i ss₂ l h hno hl => ?_,
    Desk.toList_run {} ss, fun rs₁ ls rs₂ h => ?_, fun rs₁ ls rs₂ h hno => ?_,
    fun rs₁ ls rs₂ h => ?_, fun rs₁ n rs₂ h => ?_⟩
  · obtain ⟨rs₁, rs₂, h⟩ := List.append_of_mem hr
    obtain ⟨d, s, -, hs, -⟩ := hsplit h
    exact Desk.back_of_move hs
  · rw [h]
    exact Desk.kept_of_run rfl hno hl
  · obtain ⟨d, s, hstored, hs, -⟩ := hsplit h
    rw [hstored, (Desk.drained_of_move hs).1]
  · obtain ⟨d, s, hstored, hs, -⟩ := hsplit h
    rw [hstored, (Desk.drained_of_move hs).1, taken_eq_nil hno, List.nil_append]
  · obtain ⟨d, s, -, hs, ss', rfl⟩ := hsplit h
    have hlate := Desk.late_of_run (Desk.drained_of_move hs).2 ss'
    refine ⟨fun ls' hr => ?_, fun l back hr => ?_⟩
    · cases hlate _ hr
      rfl
    · cases hlate _ hr
      rfl
  · obtain ⟨d, s, hstored, hs, -⟩ := hsplit h
    rw [hstored, List.length_append, Desk.counted_of_move hs]

/-- The listeners are taken out between the two looks of a registration. -/
example : (Desk.run {} [.look 1 false, .look 2 false, .enroll 0 false, .drain, .enroll 0 false,
    .count]).2 = [.registered 1 none, .drained [1], .registered 2 (some 2), .counted 0] := by
  decide

end OneShot.Registry
