import OneShot.Proofs.Listener.Registration

/-!
# Who writes about failed listeners

Failed listeners are written about by the notification that ran them, when their failure has been
judged. Nothing else that a machine does adds such an entry to its log. In the same way derived
promises are answered by the registrations that chain them, and by nothing else.

- **Quiet steps** (`Machine.Quiet`): what they add to the log tells of no failure.
- **Plain moves** (`Machine.Plain`): they are quiet and answer no derived promise. All calls but
  notifications and registrations make plain moves (`Frame.plain_step`).
- **Each failure in the log** was judged by the step that wrote it (`Moment.Sound.exists_decides`).
- **Each derived promise** is answered by a registration that chains it
  (`Moment.Sound.registering_of_derived`).
-/

namespace OneShot

variable {H : Host} {b : Behaviour H} {m m' m'' : Machine H} {t : ThreadId} {c : Control}
  {n : Next H}

/-- What `m'` has in its log in addition to that of `m` tells of no failure. -/
def Machine.Quiet (m m' : Machine H) : Prop :=
  ∃ es, m'.log.toList = m.log.toList ++ es ∧ es.filterMap Entry.failure? = []

namespace Machine.Quiet

theorem of_log (h : m'.log = m.log) : m.Quiet m' := ⟨[], by rw [h, List.append_nil], rfl⟩

theorem trans (h : m.Quiet m') (h' : m'.Quiet m'') : m.Quiet m'' := by
  obtain ⟨es, hl, hes⟩ := h
  obtain ⟨es', hl', hes'⟩ := h'
  refine ⟨es ++ es', by rw [hl', hl, List.append_assoc], ?_⟩
  rw [List.filterMap_append, hes, hes', List.append_nil]

theorem failuresSince (h : m.Quiet m') : m.failuresSince m' = [] := by
  obtain ⟨es, hl, hes⟩ := h
  rw [failuresSince_of_log hl, hes]

end Machine.Quiet

/-- The move writes nothing about failures, and it answers no derived promise. -/
def Machine.Plain (m : Machine H) (k : Move H) : Prop :=
  ∀ m' n, k = some (m', n) → m.Quiet m' ∧ ∀ d, n ≠ .answer (.derived d)

namespace Machine

theorem plain_none : m.Plain none := fun _ _ h => by cases h

theorem plain_some (h : m'.log = m.log) (hn : ∀ d, n ≠ .answer (.derived d)) :
    m.Plain (some (m', n)) := fun _ _ heq => by
  cases heq
  exact ⟨.of_log h, hn⟩

theorem plain_bind {α : Type} {x : Option α} {k : α → Move H} (h : ∀ a, m.Plain (k a)) :
    m.Plain (x.bind k) := fun m' n hx => by
  obtain ⟨a, -, ha⟩ := Option.bind_eq_some_iff.1 hx
  exact h a m' n ha

theorem plain_runStage {k : Move H} (h : m.Plain k) : m.Plain (m.runStage c k) :=
  fun m' n hk => by
    rcases runStage_eq_some hk with ⟨-, hk⟩ | ⟨x, -, hk⟩
    · exact h m' n hk
    · cases hk
      exact ⟨.of_log rfl, nofun⟩

theorem plain_runCode {r : Role} {code : H.Code r} {wrap : H.Code r → Frame H}
    {done : Machine H → r.Reply → Move H} (hd : ∀ (m₁ : Machine H) v, m₁.Plain (done m₁ v)) :
    m.Plain (m.runCode b t code c wrap done) := fun m' n h => by
  cases ran_of_runCode h with
  | call hr | stay hr | panic hr => exact ⟨log_resume hr, nofun⟩
  | finish hr hv =>
    obtain ⟨hq, hn⟩ := hd _ _ m' n hv
    exact ⟨Quiet.trans (log_resume hr) hq, hn⟩

end Machine

open Machine

section

variable {p : PromiseId}

theorem Completing.plain_step {s : Completing H} : m.Plain (s.step b m t p c) := by
  cases s with
  | claim o | store o =>
    refine plain_runStage (plain_bind fun pr => ?_)
    split <;> exact plain_some rfl nofun
  | stamp code => exact plain_runCode fun m₁ v => plain_bind fun pr => plain_some rfl nofun
  | lockGate | lockWakers | lockListeners =>
    exact plain_runStage (plain_bind fun pr => plain_bind fun _ => plain_some rfl nofun)
  | openLatch | notify => exact plain_runStage (plain_some rfl nofun)
  | takeWakers | drain => exact plain_runStage (plain_bind fun pr => plain_some rfl nofun)
  | wake rest => cases rest <;> exact plain_runStage (plain_some rfl nofun)
  | waking code rest => exact plain_runCode fun m₁ v => plain_some rfl nofun
  | announce =>
    refine plain_runStage (plain_bind fun pr m' n h => ?_)
    cases h
    exact ⟨⟨_, Array.toList_push, rfl⟩, nofun⟩
  | deliver rest => cases rest <;> exact plain_runStage (plain_some rfl nofun)
  | delivering rest =>
    intro m' n h
    simp only [step] at h
    split at h <;> cases h <;> exact ⟨.of_log rfl, fun d hd => by cases hd⟩

theorem Reading.plain_step {limited : Bool} {s : Reading} :
    m.Plain (s.step m t p limited c) := by
  refine plain_runStage (plain_bind fun pr => plain_bind fun th => ?_)
  cases s with
  | lockParked | lockGate | relockParked => exact plain_bind fun _ => plain_some rfl nofun
  | unpark r => cases r <;> exact plain_some rfl nofun
  | fetch =>
    dsimp only
    split <;> exact plain_some rfl nofun
  | asleep => exact plain_none
  | _ => exact plain_some rfl nofun

theorem Polling.plain_step {w : WaitId} {waker : H.Closure .waker} {s : Polling} :
    m.Plain (s.step m t w waker c) := by
  refine plain_runStage (plain_bind fun wait => plain_bind fun pr => ?_)
  cases s with
  | lock => exact plain_bind fun _ => plain_some rfl nofun
  | attempt | reread | register =>
    dsimp only
    split <;> exact plain_some rfl nofun

theorem Interrupting.plain_step {u : ThreadId} {s : Interrupting} :
    m.Plain (s.step m t u c) := by
  refine plain_runStage ?_
  cases s with
  | raise | notify => exact plain_some rfl nofun
  | lock => exact plain_bind fun th => plain_bind fun _ => plain_some rfl nofun
  | copy => exact plain_bind fun th => plain_some rfl nofun
  | next latches =>
    cases latches with
    | nil => exact plain_some rfl nofun
    | cons q rest => exact plain_bind fun pr => plain_bind fun _ => plain_some rfl nofun

/-- All calls but notifications and registrations make plain moves. -/
theorem Frame.plain_step {f : Frame H} (hf : ∀ p s, f ≠ .notifying p s)
    (hf' : ∀ p s closing, f ≠ .registering p s closing) : m.Plain (f.step b m t c) := by
  cases f with
  | task code | timing code => exact plain_runCode fun m₁ v => plain_some rfl nofun
  | building builder clock code => exact plain_runCode fun m₁ v => plain_some rfl nofun
  | completing p s => exact s.plain_step
  | notifying p s => exact absurd rfl (hf p s)
  | registering p s closing => exact absurd rfl (hf' p s closing)
  | chaining p f code =>
    cases code with
    | none => exact plain_runStage (plain_bind fun pr => plain_some rfl nofun)
    | some code => exact plain_runCode fun m₁ v => plain_bind fun pr => plain_some rfl nofun
  | measuring p code =>
    cases code with
    | none =>
      refine plain_runStage (plain_bind fun pr => ?_)
      split <;> exact plain_some rfl nofun
    | some code => exact plain_runCode fun m₁ v => plain_bind fun pr => plain_some rfl nofun
  | counting p s | removing p key s =>
    refine plain_runStage (plain_bind fun pr => ?_)
    cases s with
    | lock => exact plain_bind fun _ => plain_some rfl nofun
    | work => exact plain_some rfl nofun
  | cancelling p code =>
    cases code with
    | none =>
      refine plain_runStage (plain_bind fun pr => ?_)
      split <;> exact plain_some rfl nofun
    | some code => exact plain_runCode fun m₁ v => plain_some rfl nofun
  | reading p limited s => exact s.plain_step
  | waiting p => exact plain_runStage (plain_some rfl nofun)
  | polling w waker s => exact s.plain_step
  | dropping w =>
    refine plain_runStage (plain_bind fun wait => ?_)
    dsimp only
    split <;> exact plain_some rfl nofun
  | interrupting u s => exact s.plain_step
  | clearing u tell =>
    exact plain_runStage (plain_bind fun th => plain_some rfl fun d => by cases tell <;> nofun)
  | judging policy e code =>
    cases code with
    | none =>
      refine plain_runStage ?_
      cases policy <;> exact plain_some rfl nofun
    | some code => exact plain_runCode fun m₁ v => plain_some rfl nofun
  | spawning => exact plain_runStage (plain_some rfl nofun)
  | forking u work =>
    refine plain_runStage (plain_bind fun th => ?_)
    split
    · exact plain_some rfl nofun
    · exact plain_none

theorem Registering.quiet_step {s : Registering H} {closing : Closing}
    (h : s.step m t p closing c = some (m', n)) : m.Quiet m' := by
  refine .of_log ?_
  cases s with
  | check l =>
    rcases runStage_eq_some h with ⟨-, h⟩ | ⟨x, -, h⟩
    · obtain ⟨pr, -, h⟩ := Option.bind_eq_some_iff.1 h
      split at h <;> cases h <;> rfl
    · cases h
      rfl
  | lock l =>
    rcases runStage_eq_some h with ⟨-, h⟩ | ⟨x, -, h⟩
    · obtain ⟨pr, -, h⟩ := Option.bind_eq_some_iff.1 h
      obtain ⟨_, -, h⟩ := Option.bind_eq_some_iff.1 h
      cases h
      rfl
    · cases h
      rfl
  | enroll l =>
    rcases runStage_eq_some h with ⟨-, h⟩ | ⟨x, -, h⟩
    · obtain ⟨pr, -, h⟩ := Option.bind_eq_some_iff.1 h
      split at h
      split at h <;> cases h <;> rfl
    · cases h
      rfl
  | inline =>
    simp only [step] at h
    split at h <;> cases h <;> rfl

end

section

variable {μ : Moment H}

/-- Only notifications write about failed listeners. -/
theorem Moment.Sound.failures_eq_nil (h : μ.Sound b) (hf : ∀ p s, μ.frame ≠ .notifying p s) :
    μ.failures = [] := by
  have hquiet : μ.before.Quiet μ.after := by
    cases h.made with
    | wake _ _ _ ha => exact .of_log (by rw [ha]; rfl)
    | @step rest token m _ _ hs ha =>
      have hproceed : m.Quiet μ.after := .of_log (by rw [ha, Machine.log_proceed])
      refine Machine.Quiet.trans ?_ hproceed
      by_cases hr : ∃ p s closing, μ.frame = .registering p s closing
      · obtain ⟨p, s, closing, hr⟩ := hr
        rw [hr] at hs
        exact Registering.quiet_step hs
      · exact (Frame.plain_step hf (fun p s closing hr' => hr ⟨p, s, closing, hr'⟩) _ _ hs).1
  exact hquiet.failuresSince

/-- A failure is written to the log by the notification that has it judged, and by no other step. -/
theorem Moment.Sound.exists_decides {φ : Failure} (h : μ.Sound b) (hφ : φ ∈ μ.failures) :
    ∃ d p e s, φ = (d, p, e) ∧ μ.frame = .notifying p s ∧
      s.Decides b μ.before μ.call.thread p μ.control e d ∧ μ.failures = [φ] := by
  by_cases hf : ∃ p s, μ.frame = .notifying p s
  · obtain ⟨p, s, hf⟩ := hf
    have hm := h.notifying hf
    generalize μ.next = n, hfs : μ.failures = fs at hm hφ
    cases hm with
    | @decide _ e d hd =>
      obtain rfl := List.mem_singleton.1 hφ
      exact ⟨d, p, e, s, rfl, hf, hd, rfl⟩
    | _ => cases hφ
  · rw [h.failures_eq_nil fun p s hps => hf ⟨p, s, hps⟩] at hφ
    cases hφ

/-- A derived promise is answered only by a registration that chains it. -/
theorem Moment.Sound.registering_of_derived {d : PromiseId} (h : μ.Sound b)
    (hn : μ.next = .answer (.derived d)) : ∃ p s, μ.frame = .registering p s (.derived d) := by
  by_cases hr : ∃ p s closing, μ.frame = .registering p s closing
  · obtain ⟨p, s, closing, hr⟩ := hr
    have hm := h.registering hr
    have hclosing : ∀ r, closing.answer r = .derived d → closing = .derived d := by
      intro r hc
      cases closing <;> cases hc
      rfl
    rw [hn] at hm
    generalize hx : Next.answer (.derived d) = n, μ.control = k, μ.after.cells? p = x' at hm
    cases hm with
    | store | back =>
      cases hclosing _ (Next.answer.inj hx).symm
      exact ⟨p, _, hr⟩
    | _ => cases hx
  · -- No other call than a registration or a notification needs more than its plain move.
    by_cases hf : ∃ p s, μ.frame = .notifying p s
    · obtain ⟨p, s, hf⟩ := hf
      have hm := h.notifying hf
      rw [hn] at hm
      generalize hx : Next.answer (.derived d) = n, μ.failures = fs at hm
      cases hm with
      | result hres => rename_i r; cases r <;> cases hx
      | @decide _ e d' => cases d' <;> cases hx
      | run _ _ hown => cases hx; cases hown
      | ask _ _ hown => cases hx; cases hown
      | _ => cases hx
    · cases h.made with
      | wake _ _ hn' => rw [hn] at hn'; cases hn'
      | step _ _ hs _ =>
        have hplain := Frame.plain_step (fun p s hps => hf ⟨p, s, hps⟩)
          (fun p s closing hr' => hr ⟨p, s, closing, hr'⟩) _ _ hs
        exact absurd hn (hplain.2 d)

end

end OneShot
