import OneShot.Proofs.Completion.Order
import OneShot.Proofs.Chain.Handles
import OneShot.Proofs.Reading.Stages

/-!
# Calls that change nothing

A completion call that comes too late, a cancellation without a hook and a read only look at the
promise. A read takes guards on its way and puts itself on the parked list of its thread; the other
two do not even that.

- **Left as it was** (`Machine.Untouched`): all but the stack of one thread, its parked list and who
  holds which guard.
- **Idle calls** (`Frame.Idles`), and what their steps leave (`Frame.Idles.untouched_of_step`).
- **Idle moments** (`Moment.Idle`, `Extends.idle`): nothing changes, no code of the program runs and
  no call is made.
- **Whole calls** (`Reached.idles`): what has begun idle goes on idle.
-/

namespace OneShot

variable {H : Host} {b : Behaviour H}

/-! ## Left as it was -/

/-- `m'` is `m`, apart from what thread `t` has to do, from its parked list, and from who holds
which guard. -/
structure Machine.Untouched (m : Machine H) (t : ThreadId) (m' : Machine H) : Prop where
  /-- Status, outcome, times, listeners and wakers of every promise. -/
  cells : ∀ q, m'.cells? q = m.cells? q
  waits : m'.waits = m.waits
  flags : ∀ u, m'.isFlagged u = m.isFlagged u
  /-- Every other thread, with its parked list. -/
  others : ∀ u, u ≠ t → m'.thread? u = m.thread? u
  program : m'.program = m.program
  log : m'.log = m.log
  aborted : m'.aborted = m.aborted

namespace Machine.Untouched

variable {m m' m'' : Machine H} {t : ThreadId}

theorem refl (m : Machine H) (t : ThreadId) : m.Untouched t m :=
  ⟨fun _ => rfl, rfl, fun _ => rfl, fun _ _ => rfl, rfl, rfl, rfl⟩

theorem trans (h : m.Untouched t m') (h' : m'.Untouched t m'') : m.Untouched t m'' where
  cells q := (h'.cells q).trans (h.cells q)
  waits := h'.waits.trans h.waits
  flags u := (h'.flags u).trans (h.flags u)
  others u hu := (h'.others u hu).trans (h.others u hu)
  program := h'.program.trans h.program
  log := h'.log.trans h.log
  aborted := h'.aborted.trans h.aborted

theorem of_guard {p : PromiseId} {g : Promise H → Promise H} (h : ∀ pr, (g pr).bare = pr.bare) :
    m.Untouched t (m.modifyPromise p g) := by
  refine ⟨fun q => ?_, rfl, fun _ => rfl, fun _ _ => rfl, rfl, rfl, rfl⟩
  simp only [cells?, promise?_modifyPromise]
  split
  · rw [Option.map_map]
    exact congrArg (Option.map · _) (funext h)
  · rfl

theorem of_thread {g : Thread H → Thread H} (h : ∀ th, (g th).token.flag = th.token.flag) :
    m.Untouched t (m.modifyThread t g) := by
  refine ⟨fun _ => rfl, rfl, fun u => ?_, fun u hu => ?_, rfl, rfl, rfl⟩
  · simp only [isFlagged, thread?_modifyThread]
    split
    · cases m.thread? u with
      | none => rfl
      | some th => exact h th
    · rfl
  · rw [thread?_modifyThread, if_neg hu.symm]

theorem proceed (m : Machine H) (t : ThreadId) (rest : List (Frame H)) {n : Next H}
    (hn : n ≠ .abort) : m.Untouched t (m.proceed t rest n) := by
  cases n with
  | abort => exact absurd rfl hn
  | _ => exact of_thread fun _ => rfl

end Machine.Untouched

/-! ## Idle calls -/

/-- A call at a stage of a call that only looks: a completion call that finds the promise claimed, a
cancellation without a hook, or a read. -/
inductive Frame.Idles (m : Machine H) : Frame H → Prop
  | late {p o pr} (hp : m.cells? p = some pr) (hs : pr.status ≠ .init) :
    Idles m (.completing p (.claim o))
  | hookless {p pr} (hp : m.cells? p = some pr) (hh : pr.hook = none) : Idles m (.cancelling p none)
  | read {p limited s} : Idles m (.reading p limited s)

section

variable {m m' : Machine H} {t : ThreadId} {c : Control} {n : Next H} {f : Frame H}

open Machine

theorem Reading.untouched_of_step {p : PromiseId} {limited : Bool} {s : Reading}
    (h : s.step m t p limited c = some (m', n)) (hk : c = .go) : m.Untouched t m' := by
  obtain ⟨pr, hp, h⟩ := Option.bind_eq_some_iff.1 (eq_of_runStage h hk)
  obtain ⟨th, ht, h⟩ := Option.bind_eq_some_iff.1 h
  cases s with
  | peek | attempt | check | checkFlag => cases h; exact .refl m t
  | lockParked | relockParked r =>
    obtain ⟨_, -, h⟩ := Option.bind_eq_some_iff.1 h
    cases h
    exact .of_thread fun _ => rfl
  | lockGate late =>
    obtain ⟨_, -, h⟩ := Option.bind_eq_some_iff.1 h
    cases h
    exact .of_guard fun _ => rfl
  | park => cases h; exact .of_thread fun _ => rfl
  | sleep | unlockGate r => cases h; exact .of_guard fun _ => rfl
  | asleep => cases h
  | unpark r => cases r <;> cases h <;> exact .of_thread fun _ => rfl
  | fetch =>
    dsimp only at h
    split at h <;> cases h <;> exact .refl m t

/-- A step of an idle call leaves the machine as it was. -/
theorem Frame.Idles.untouched_of_step (hf : f.Idles m) (h : f.step b m t c = some (m', n))
    (hk : c = .go) : m.Untouched t m' := by
  cases hf with
  | late hcell hs =>
    obtain ⟨pr, hp, h⟩ := Option.bind_eq_some_iff.1 (eq_of_runStage h hk)
    rw [cells?_eq_some hp] at hcell
    obtain rfl := Option.some.inj hcell
    rw [Promise.claim, if_neg (show pr.status ≠ .init from hs)] at h
    cases h
    exact .refl m t
  | hookless hcell hh =>
    obtain ⟨pr, hp, h⟩ := Option.bind_eq_some_iff.1 (eq_of_runStage h hk)
    rw [cells?_eq_some hp] at hcell
    obtain rfl := Option.some.inj hcell
    change pr.hook = none at hh
    simp only [hh] at h
    cases h
    exact .refl m t
  | read => exact Reading.untouched_of_step h hk

end

/-! ## Idle moments -/

/-- A moment that leaves everything as it was but its own thread's stack, its parked list and who
holds which guard. -/
structure Moment.Idle (μ : Moment H) : Prop where
  untouched : μ.before.Untouched μ.call.thread μ.after
  /-- No clock, listener or other code of the program is run. -/
  code : μ.frame.code? = none
  /-- No call is made. -/
  callee : μ.next.callee? = none

namespace Chronicle

variable {c c' : Chronicle H} {μ : Moment H} {i : CallId} {f g : Frame H}

/-- An idle call answers, or it goes on as a read. -/
theorem Extends.next_of_idles (hc : c.Reached b) (h : c.Extends b μ)
    (hf : μ.frame.Idles c.machine) :
    (∃ a, μ.next = .answer a) ∨ ∃ p limited s, μ.next = .goto (.reading p limited s) := by
  have ht := hc.tracked
  generalize hframe : μ.frame = f at hf
  cases hf with
  | late hp hs =>
    obtain ⟨pr', -, hm⟩ := h.completing ht hframe hp
    generalize μ.next = n, μ.control = k at hm ⊢
    cases hm with
    | win hi => exact absurd hi hs
    | lose => exact .inl ⟨_, rfl⟩
  | hookless hp hh =>
    obtain ⟨pr, hp', hn⟩ := (h.sound ht).cancelling hframe
    rw [h.before, hp] at hp'
    obtain rfl := Option.some.inj hp'
    rw [hh] at hn
    exact .inl ⟨_, hn⟩
  | read =>
    have hm := (h.sound ht).reading hframe
    rw [h.before] at hm
    generalize μ.next = n at hm ⊢
    cases hm with
    | timeout | interrupt | fetch => exact .inl ⟨_, rfl⟩
    -- A read fetches only once the latch is open, and then the outcome is there.
    | early hp ho =>
      exact absurd (.fetch hp ho) (hc.not_impossible (by rw [h.frame? ht, hframe]))
    | _ => exact .inr ⟨_, _, _, rfl⟩

/-- A moment of an idle call leaves everything as it was. -/
theorem Extends.idle (hc : c.Reached b) (h : c.Extends b μ) (hf : μ.frame.Idles c.machine) :
    μ.Idle := by
  have hnext := h.next_of_idles hc hf
  have hcode : μ.frame.code? = none := by
    generalize μ.frame = f at hf
    cases hf <;> rfl
  have hcallee : μ.next.callee? = none := by
    rcases hnext with ⟨a, hn⟩ | ⟨p, limited, s, hn⟩ <;> rw [hn] <;> rfl
  refine ⟨?_, hcode, hcallee⟩
  have hk : μ.control = .go := (h.control hc.tracked).resolve_right (by
    generalize μ.frame = f at hf
    cases hf <;> exact Bool.false_ne_true)
  rw [← h.before] at hf
  cases h.made with
  | step _ _ hs ha =>
    have hgo : μ.next ≠ .abort := by
      rcases hnext with ⟨a, hn⟩ | ⟨p, limited, s, hn⟩ <;> rw [hn] <;> nofun
    rw [ha]
    exact (hf.untouched_of_step hs hk).trans (.proceed _ _ _ hgo)
  | wake _ _ _ ha =>
    rw [ha]
    exact .of_thread fun _ => rfl

/-! ## Whole calls -/

theorem Extends.idles_after (hc : c.Reached b) (h : c.Extends b μ) (hf : f.Idles c.machine) :
    f.Idles μ.after := by
  cases hf with
  | late hp hs =>
    obtain ⟨pr', hp', hcl⟩ := h.climbs hc hp
    exact .late hp' (by rwa [hcl.status hs])
  | hookless hp hh =>
    obtain ⟨pr', hp', hmade⟩ := h.made_eq hp
    exact .hookless hp' (by rw [(Promise.eq_of_made_eq hmade).2.2.1, hh])
  | read => exact .read

/-- What has begun idle goes on idle. -/
theorem Reached.idles (hc : c.Reached b) (hl : c.Reaches b c') (hi : c.frame? i = some f)
    (hf : f.Idles c.machine) (hg : c'.frame? i = some g) : g.Idles c'.machine := by
  induction hl generalizing g with
  | refl =>
    rw [hi] at hg
    exact Option.some.inj hg ▸ hf
  | @tail c₁ _ e hl he ih =>
    have hc₁ := hc.reaches hl
    have ht := hc₁.tracked
    obtain ⟨μ, hμ, rfl⟩ := exists_extends_of_turn? ht he
    cases hx : c₁.frame? i with
    | none =>
      -- A call that is over is not found again.
      have hentry : i.entry ≤ c₁.past.length := by
        obtain ⟨l, hpast⟩ := hl.exists_past hc
        rw [hpast, List.length_append]
        exact Nat.le_add_right_of_le (hc.tracked.entry_le hi)
      rw [frame?_record_eq_none ht hμ hentry hx] at hg
      cases hg
    | some f₁ =>
      have hf₁ := ih hx
      by_cases hiμ : i = μ.call
      · subst hiμ
        obtain rfl := hμ.frame_eq ht hx
        rw [frame?_record_self ht hμ] at hg
        rcases hμ.next_of_idles hc₁ hf₁ with ⟨a, hn⟩ | ⟨p, limited, s, hn⟩ <;> rw [hn] at hg <;>
          cases hg
        exact .read
      · have hk := frame?_record_of_ne ht hμ hiμ (hμ.ne_entered ht hx)
        rw [hx, hg] at hk
        cases hk with
        | same => exact hμ.idles_after hc₁ hf₁
        | rouse => exact .read

end Chronicle

end OneShot
