import OneShot.Proofs.Chain.Lineage
import OneShot.Proofs.Step.Growth

/-!
# What clocks tell

A clock is code of the program and may tell anything. This module says at which moments a clock has
told something, and what the calls make of it that have asked.

- **Readings** (`Moment.clocked?`): what the code of a clock returns at a moment.
- **Construction** (`Moment.Makes`, `Reached.exists_makes`): every promise was made once, and its
  start time is what its clock told then.
- **Completion** (`Moment.Sound.stamping`): the winner turns what the clock tells into the end time.
- **Durations** (`Measuring`, `Moment.Sound.measuring`): a call looks at the end time, once
  (`Reached.look_unique`), and asks the clock if there is none.
-/

namespace OneShot

variable {H : Host} {b : Behaviour H}

/-! ## Readings -/

/-- What the program's code gives back if it returns. -/
def Act.finish? {r : Role} : Act H r → Option r.Reply
  | .finish v => some v
  | _ => none

/-- What a clock tells at a moment, if the code of one returns then. -/
def Moment.clocked? (b : Behaviour H) (μ : Moment H) : Option UInt64 :=
  match μ.frame.code? with
  | some ⟨.clock, code⟩ => (μ.before.resume b μ.call.thread code μ.control).2.finish?
  | _ => none

theorem Moment.clocked?_eq {μ : Moment H} {code : H.Code .clock} {m : Machine H} {a : Act H .clock}
    (hf : μ.frame.code? = some ⟨.clock, code⟩)
    (hr : μ.before.resume b μ.call.thread code μ.control = (m, a)) :
    μ.clocked? b = a.finish? := by
  unfold clocked?
  rw [hf]
  dsimp only
  rw [hr]

/-! ## Construction -/

/-- A moment adds what the step of its call produces. -/
theorem Moment.Sound.grows {μ : Moment H} (h : μ.Sound b) : ∃ r x, μ.before.Grows μ.after r x ∧
    μ.frame.Produces b μ.before μ.call.thread μ.control r x := by
  cases h.made with
  | wake _ _ _ ha =>
    refine ⟨none, none, ?_, .nothing⟩
    rw [ha]
    exact .of_eq rfl rfl
  | step _ _ hs ha =>
    obtain ⟨r, x, hg, hx⟩ := Frame.produces_of_step hs
    refine ⟨r, x, ?_, hx⟩
    rw [ha]
    exact hg.proceed

namespace Moment

/-- Promise `p` is made at a moment with the start time that its clock tells then: by a call that
makes a promise with that clock, or by one that chains a promise without a hook from one that has
the same clock. -/
structure Makes (b : Behaviour H) (μ : Moment H) (p : PromiseId) (pr : Promise H) : Prop where
  absent : μ.before.cells? p = none
  present : μ.after.cells? p = some pr
  clocked : μ.clocked? b = some pr.startTime
  caller : (∃ builder code, μ.frame = .building builder pr.clock code ∧ pr.origin = none) ∨
    ∃ s g code source, μ.frame = .chaining s g (some code) ∧ μ.before.cells? s = some source ∧
      source.clock = pr.clock ∧ pr.origin = some s ∧ pr.hook = none

variable {μ : Moment H} {p : PromiseId} {pr : Promise H}

/-- A promise that is new after a moment is made at it. -/
theorem Sound.makes (h : μ.Sound b) (hb : μ.before.cells? p = none)
    (ha : μ.after.cells? p = some pr) : μ.Makes b p pr := by
  obtain ⟨r, x, hg, hx⟩ := h.grows
  obtain ⟨pr', hp', hbare⟩ := Option.map_eq_some_iff.1 ha
  -- The promises grow by one at most, so a new one is the last.
  have hlt : p < μ.after.promises.size := (Array.getElem?_eq_some_iff.1 hp').1
  have hge : μ.before.promises.size ≤ p :=
    Array.getElem?_eq_none_iff.1 (Option.map_eq_none_iff.1 hb)
  rw [hg.size] at hlt
  have hmade := hg.made
  generalize hf : μ.frame = f at hx
  cases hx with
  | build hr =>
    obtain rfl : p = μ.before.promises.size := Nat.le_antisymm (Nat.lt_succ_iff.1 hlt) hge
    obtain rfl := Option.some.inj ((hmade _ rfl).symm.trans hp')
    refine ⟨hb, ha, ?_, .inl ⟨_, _, by rw [hf, ← hbare]; rfl, by rw [← hbare]; rfl⟩⟩
    rw [clocked?_eq (by rw [hf]; rfl) hr, ← hbare]
    rfl
  | chain hr hs =>
    obtain rfl : p = μ.before.promises.size := Nat.le_antisymm (Nat.lt_succ_iff.1 hlt) hge
    obtain rfl := Option.some.inj ((hmade _ rfl).symm.trans hp')
    refine ⟨hb, ha, ?_, .inr ⟨_, _, _, _, hf, Machine.cells?_eq_some hs, ?_, ?_, ?_⟩⟩
    · rw [clocked?_eq (by rw [hf]; rfl) hr, ← hbare]
      rfl
    · rw [← hbare]; rfl
    · rw [← hbare]; rfl
    · rw [← hbare]; rfl
  | _ =>
    simp only [Option.toList, List.length_nil, Nat.add_zero] at hlt
    exact absurd hlt (Nat.not_lt.2 hge)

end Moment

namespace Chronicle

variable {c : Chronicle H} {p : PromiseId} {pr : Promise H}

/-- Every promise of a run was made at one of its moments, as it is. -/
theorem Reached.exists_makes (hc : c.Reached b) (hp : c.machine.cells? p = some pr) :
    ∃ κ ∈ c.past, ∃ pr₀, κ.Makes b p pr₀ ∧ pr.made = pr₀.made := by
  induction c, hc using Reached.induction generalizing pr with
  | start m hm =>
    have hnone : m.cells? p = none := by simp [Machine.cells?, Machine.promise?, hm.promises]
    cases hnone.symm.trans hp
  | record c μ hc hμ hc' ih =>
    cases hb : c.machine.cells? p with
    | none =>
      have hmakes := (hμ.sound hc.tracked).makes (by rw [hμ.before, hb]) hp
      exact ⟨μ, mem_record_self, pr, hmakes, rfl⟩
    | some pr₁ =>
      obtain ⟨pr', hp', hmade⟩ := hμ.made_eq hb
      obtain rfl := Option.some.inj (hp.symm.trans hp')
      obtain ⟨κ, hκ, pr₀, hmakes, hmade₀⟩ := ih hb
      exact ⟨κ, mem_record_of_mem hκ, pr₀, hmakes, hmade.trans hmade₀⟩

theorem Reached.makes_unique (hc : c.Reached b) {κ κ' : Moment H} {pr pr' : Promise H}
    (hκ : κ ∈ c.past) (hm : κ.Makes b p pr) (hκ' : κ' ∈ c.past) (hm' : κ'.Makes b p pr') :
    κ' = κ := by
  -- What a moment makes is there from then on.
  refine hc.eq_of_first (P := fun ν => ∃ pr, ν.Makes b p pr) ?_ hκ ⟨pr, hm⟩ hκ' ⟨pr', hm'⟩
  rintro c₀ μ hc₀ hμ ⟨pr₁, hmμ⟩ ν hν ⟨pr₀, hmν⟩
  obtain ⟨c₁, hc₁, -, hturn, hl⟩ := hc₀.reaches_of_mem hν
  obtain ⟨pr₂, hp₂, -⟩ := (hc₁.reaches hturn).made hl hmν.present
  have hnone := hmμ.absent
  rw [hμ.before, hp₂] at hnone
  cases hnone

theorem Reached.hook_of_origin (hc : c.Reached b) (hp : c.machine.cells? p = some pr)
    (ho : pr.origin ≠ none) : pr.hook = none := by
  obtain ⟨κ, -, pr₀, hmakes, hmade⟩ := hc.exists_makes hp
  obtain ⟨-, -, hhook, horigin⟩ := Promise.eq_of_made_eq hmade
  rcases hmakes.caller with ⟨_, _, -, hnone⟩ | ⟨_, _, _, _, -, -, -, -, hnone⟩
  · exact absurd (horigin.trans hnone) ho
  · rw [hhook, hnone]

end Chronicle

/-! ## Completion -/

namespace Moment.Sound

variable {μ : Moment H} {p : PromiseId}

/-- A completion goes on from its clock when that has told something, to open the latch at the time
that this stands for. -/
theorem stamping (h : μ.Sound b) {code : H.Code .clock}
    (hf : μ.frame = .completing p (.stamp code)) :
    (∃ reading pr, μ.clocked? b = some reading ∧ μ.before.cells? p = some pr ∧
        μ.next = .goto (.completing p (.lockGate (pr.stamp reading)))) ∨
      μ.clocked? b = none ∧ ∀ time, μ.next.own μ.frame ≠ some (.completing p (.lockGate time)) := by
  have hcode : μ.frame.code? = some ⟨.clock, code⟩ := by rw [hf]; rfl
  cases h.made with
  | wake _ hf' => rw [hf] at hf'; cases hf'
  | step _ _ hs _ =>
    rw [hf] at hs ⊢
    generalize μ.next = n at hs ⊢
    cases Machine.ran_of_runCode hs with
    | call hr | stay hr | panic hr =>
      exact .inr ⟨by rw [clocked?_eq hcode hr]; rfl, fun time hn => by cases hn⟩
    | @finish m₁ reading _ _ hr hd =>
      obtain ⟨pr, hp, hd⟩ := Option.bind_eq_some_iff.1 hd
      cases hd
      rw [(Machine.alike_resume hr).promise?] at hp
      exact .inl ⟨reading, pr.bare, by rw [clocked?_eq hcode hr]; rfl, Machine.cells?_eq_some hp,
        rfl⟩

end Moment.Sound

/-! ## Durations -/

/-- What a call does at a moment that measures how long `p` has been pending or took to complete:
its stage and how it goes on. -/
inductive Measuring (b : Behaviour H) (μ : Moment H) (p : PromiseId) :
    Option (H.Code .clock) → Next H → Prop
  | settled {pr} (hp : μ.before.cells? p = some pr) (hd : pr.isDone = true) :
    Measuring b μ p none (.answer (.time (pr.elapsed pr.endTime)))
  | ask {pr} (hp : μ.before.cells? p = some pr) (hd : pr.isDone = false) :
    Measuring b μ p none (.goto (.measuring p (some (H.invoke .clock pr.clock ()))))
  | run {code code' n} (hr : μ.clocked? b = none)
    (hn : n.own (.measuring p (some code)) = some (.measuring p (some code'))) :
    Measuring b μ p (some code) n
  | tell {code pr reading} (hp : μ.before.cells? p = some pr) (hr : μ.clocked? b = some reading) :
    Measuring b μ p (some code) (.answer (.time (pr.elapsed reading)))
  | panic {code x} (hr : μ.clocked? b = none) : Measuring b μ p (some code) (.throw x)

/-- What a duration call of `p` answers at a moment. -/
def Moment.duration? (p : PromiseId) (μ : Moment H) : Option UInt64 :=
  match μ.frame, μ.next with
  | .measuring q _, .answer (.time d) => if q = p then some d else none
  | _, _ => none

theorem Moment.exists_of_duration? {μ : Moment H} {p : PromiseId} {d : UInt64}
    (h : μ.duration? p = some d) :
    ∃ code, μ.frame = .measuring p code ∧ μ.next = .answer (.time d) := by
  unfold duration? at h
  split at h
  · rename_i q code d' hf hn
    split at h
    · rename_i hq
      cases h
      exact ⟨code, hq ▸ hf, hn⟩
    · cases h
  · cases h

namespace Moment.Sound

variable {μ : Moment H} {p : PromiseId}

/-- What happens at a moment of a call that measures a duration. -/
theorem measuring (h : μ.Sound b) {code : Option (H.Code .clock)}
    (hf : μ.frame = .measuring p code) : Measuring b μ p code μ.next := by
  have hk := h.control
  cases h.made with
  | wake _ hf' => rw [hf] at hf'; cases hf'
  | step _ _ hs _ =>
    rw [hf] at hs hk
    generalize μ.next = n at hs ⊢
    cases code with
    | none =>
      have hgo : μ.control = .go := hk.resolve_right Bool.false_ne_true
      obtain ⟨pr, hp, hs⟩ := Option.bind_eq_some_iff.1 (Machine.eq_of_runStage hs hgo)
      split at hs
      · rename_i hd
        cases hs
        show Measuring b μ p none (.answer (.time (pr.bare.elapsed pr.bare.endTime)))
        exact .settled (Machine.cells?_eq_some hp) hd
      · rename_i hd
        cases hs
        show Measuring b μ p none (.goto (.measuring p (some (H.invoke .clock pr.bare.clock ()))))
        exact .ask (Machine.cells?_eq_some hp) (Bool.not_eq_true _ |>.mp hd)
    | some code =>
      have hcode : μ.frame.code? = some ⟨.clock, code⟩ := by rw [hf]; rfl
      cases Machine.ran_of_runCode hs with
      | call hr | stay hr => exact .run (by rw [clocked?_eq hcode hr]; rfl) rfl
      | panic hr => exact .panic (by rw [clocked?_eq hcode hr]; rfl)
      | @finish m₁ reading _ _ hr hd =>
        obtain ⟨pr, hp, hd⟩ := Option.bind_eq_some_iff.1 hd
        cases hd
        rw [(Machine.alike_resume hr).promise?] at hp
        show Measuring b μ p (some code) (.answer (.time (pr.bare.elapsed reading)))
        exact .tell (Machine.cells?_eq_some hp) (by rw [clocked?_eq hcode hr]; rfl)

end Moment.Sound

namespace Frame

variable {f : Frame H} {p : PromiseId} {code : Option (H.Code .clock)}

theorem SameCall.of_measuring (h : f.SameCall (.measuring p code)) :
    ∃ code', f = .measuring p code' := by
  cases h
  exact ⟨_, rfl⟩

theorem Enters.of_measuring (h : f.Enters (.measuring p code)) : code = none := by
  generalize hg : Frame.measuring p code = g at h
  cases h with
  | @code f callee hf => cases callee <;> cases hg; rfl
  | deliver | check | enroll | transform => cases hg

end Frame

namespace Chronicle

variable {c : Chronicle H} {μ μ' ρ : Moment H} {p : PromiseId} {i : CallId}
  {code : Option (H.Code .clock)}

/-- A call that is about to look at the end time has made no step, and one that asks the clock has
found the promise pending. -/
theorem Reached.measuring (hc : c.Reached b) (hi : c.frame? i = some (.measuring p code)) :
    code = none ∧ c.moments i = [] ∨ code ≠ none ∧
      ∃ μ ∈ c.past, μ.call = i ∧ μ.frame = .measuring p none ∧ μ.before.isDone p = false := by
  induction c, hc using Reached.induction generalizing code with
  | start m hm =>
    obtain ⟨work, hwork⟩ := frame?_start hm hi
    cases hwork
  | record c μ hc hμ hc' ih =>
    have ht := hc.tracked
    -- Its own moment takes the call from the look to the clock and then answers.
    rcases steady_record ht hμ hi rfl with ⟨rfl, hown⟩ | ⟨rfl, hcal⟩ | ⟨hne, -, hold⟩
    · obtain ⟨code', hf⟩ : ∃ code', μ.frame = .measuring p code' := by
        rcases hμ.made.leads.sameCall hown with hf | hs
        · exact ⟨code, hf⟩
        · exact hs.of_measuring
      cases code' with
      | none =>
        have hm := (hμ.sound ht).measuring hf
        generalize μ.next = n at hm hown
        cases hm with
        | settled => cases hown
        | ask hp hd =>
          cases hown
          refine .inr ⟨nofun, μ, mem_record_self, rfl, hf, Bool.eq_false_iff.2 fun hdone => ?_⟩
          obtain ⟨pr, hp', hd'⟩ := Machine.isDone_iff_cells?.1 hdone
          obtain rfl := Option.some.inj (hp.symm.trans hp')
          exact absurd (hd.symm.trans hd') Bool.false_ne_true
      | some code' =>
        obtain ⟨hnone, -⟩ | ⟨-, ν, hν, h⟩ := ih (by rw [hμ.frame? ht, hf])
        · cases hnone
        · refine .inr ⟨?_, ν, mem_record_of_mem hν, h⟩
          have hm := (hμ.sound ht).measuring hf
          rw [hf] at hown
          generalize μ.next = n at hm hown
          cases hm with
          | run hr hn => cases hn.symm.trans hown; exact nofun
          | tell | panic => cases hown
    · refine .inl ⟨(hμ.made.leads.enters hcal).of_measuring, ?_⟩
      rw [moments_record_of_ne (hμ.ne_entered ht (hμ.frame? ht))]
      exact hc.moments_eq_nil (by simp [Moment.entered, hμ.number])
    · rw [moments_record_of_ne (Ne.symm hne)]
      obtain h | ⟨hcode, ν, hν, h⟩ := ih hold
      · exact .inl h
      · exact .inr ⟨hcode, ν, mem_record_of_mem hν, h⟩

/-- A call that measures a duration looks at the end time once. -/
theorem Reached.look_unique (hc : c.Reached b) (hμ : μ ∈ c.past) (hμ' : μ' ∈ c.past)
    (hi : μ'.call = μ.call) (hf : μ.frame = .measuring p none)
    (hf' : μ'.frame = .measuring p none) : μ' = μ := by
  refine hc.eq_of_first (P := fun ν => ν.call = μ.call ∧ ν.frame = .measuring p none) ?_
    hμ ⟨rfl, hf⟩ hμ' ⟨hi, hf'⟩
  -- A call that is about to look has not made a step.
  rintro c₀ κ hc₀ hκ ⟨hiκ, hfκ⟩ ν hν ⟨hiν, -⟩
  have hframe : c₀.frame? κ.call = some (.measuring p none) := by
    rw [hκ.frame? hc₀.tracked, hfκ]
  obtain ⟨-, hnil⟩ | ⟨hne, -⟩ := hc₀.measuring hframe
  · have hmem := mem_moments.2 ⟨hν, hiν.trans hiκ.symm⟩
    rw [hnil] at hmem
    cases hmem
  · exact absurd rfl hne

end Chronicle

end OneShot
