import OneShot.Proofs.History.Guards
import OneShot.Proofs.Listener.Log

/-!
# What becomes of a failed listener

A listener that fails has its failure put to the policy of its promise. This module follows the
failure to the end of the notification that ran the listener, and to the call that made it.

- **Failures** (`Moment.Fails`) and what a policy makes of them (`Policy.Treats`).
- **Judging** (`Judging`, `Path.course`, `Reached.judging`): a failure is put to the policy once,
  and if the policy judges it, that is logged once.
- **Runs** (`Moment.Runs`, `Reached.exists_runs`): the deliveries and registrations that notify a
  listener.
- **The log** (`Reached.exists_fails`): what is logged about a failure belongs to a listener that
  has failed.
- **On top** (`Reached.head_of_over`): a call that has run a listener to its end is the next to move
  on its thread, and it can (`Reached.run_goes_on`).
-/

namespace OneShot

variable {H : Host} {b : Behaviour H}

/-! ## Failures -/

namespace Moment

/-- At this moment a listener of `p` turns out to have failed with `e`. -/
def Fails (b : Behaviour H) (μ : Moment H) (p : PromiseId) (e : ListenerError) : Prop :=
  ∃ s, μ.frame = .notifying p s ∧ s.Results b μ.before μ.call.thread μ.control (.error e)

/-- The failure that is put to the policy of `p` at a moment. -/
def referred? (p : PromiseId) (μ : Moment H) : Option ListenerError :=
  match μ.frame with
  | .notifying q (.settle e) => if q = p then some e else none
  | _ => none

end Moment

/-- What a policy makes of a failure of a listener of `p`: it judges it, or the program's code is
asked about it. -/
inductive Policy.Treats (policy : Policy H) (p : PromiseId) (e : ListenerError) : Next H → Prop
  | judge {d} (h : policy.decide? e = some d) : Treats policy p e (.answer (d.answer e))
  | ask {classify} (h : policy = .custom classify) :
    Treats policy p e (.goto (.notifying p (.settling e (H.invoke .policy classify e))))

section

variable {m m' : Machine H} {t : ThreadId} {k : Control} {n : Next H} {μ : Moment H}
  {p : PromiseId} {e e' : ListenerError} {s : Notifying H}

theorem Notifying.Results.eq_ofResult {r : Except ListenerError Unit} (hr : s.Results b m t k r)
    (h : s.step b m t p k = some (m', n)) : n = ofResult p r := by
  cases hr with
  | listening hr | observing hr =>
    simp only [step, Machine.runCode, hr] at h
    cases h
    rfl
  | relayed hc | relayedError hc =>
    simp only [step, hc] at h
    cases h
    rfl

/-- A failure is put to the policy next. -/
theorem Moment.Fails.next (hμ : μ.Sound b) (h : μ.Fails b p e) :
    μ.next = .goto (.notifying p (.settle e)) := by
  obtain ⟨s, hf, hr⟩ := h
  cases hμ.made with
  | wake _ hf' => rw [hf] at hf'; cases hf'
  | step _ _ hs _ =>
    rw [hf] at hs
    exact hr.eq_ofResult hs

theorem Moment.Fails.unique (hμ : μ.Sound b) (h : μ.Fails b p e) (h' : μ.Fails b p e') :
    e' = e := by
  have hn := h.next hμ
  rw [h'.next hμ] at hn
  cases hn
  rfl

theorem Moment.not_fails (hf : μ.frame = .notifying p s) (hs : s.isRunning = false) :
    ¬μ.Fails b p e := by
  rintro ⟨s', hf', hr⟩
  rw [hf] at hf'
  cases hf'
  cases hr <;> cases hs

theorem Notifying.Decides.failure? {d : Disposition} (h : s.Decides b m t p k e d) :
    s.failure? = some e := by
  cases h <;> rfl

/-- A failure is put to the policy of its promise. -/
theorem Moment.Sound.treats (h : μ.Sound b) (hf : μ.frame = .notifying p (.settle e)) :
    ∃ pr, μ.before.cells? p = some pr ∧ pr.policy.Treats p e μ.next := by
  have hk : μ.control = .go := h.control.resolve_right (by rw [hf]; exact Bool.false_ne_true)
  cases h.made with
  | wake _ hf' => rw [hf] at hf'; cases hf'
  | step _ _ hs _ =>
    rw [hf] at hs
    obtain ⟨pr, hp, hs⟩ := Option.bind_eq_some_iff.1 (Machine.eq_of_runStage hs hk)
    refine ⟨pr.bare, Machine.cells?_eq_some hp, ?_⟩
    change pr.policy.Treats p e μ.next
    generalize μ.next = n, pr.policy = policy at hs ⊢
    split at hs
    · cases hs
      exact .ask rfl
    · obtain ⟨d, hd, heq⟩ := Option.map_eq_some_iff.1 hs
      have hn := μ.before.conclude_next (p := p) e d
      rw [heq] at hn
      obtain rfl : n = _ := hn
      exact .judge hd

theorem Notifying.isSome_settle {pr : Promise H} (hp : m.promise? p = some pr) :
    ((Frame.notifying p (.settle e)).step b m t .go).isSome = true := by
  cases hpol : pr.policy <;>
    simp [Frame.step, Notifying.step, Machine.runStage, hp, hpol, Policy.decide?]

theorem Notifying.isSome_settling {code : H.Code .policy} :
    ((Frame.notifying p (.settling e code)).step b m t k).isSome = true :=
  Machine.isSome_runCode fun _ _ _ => rfl

/-- A policy that runs goes on running until it has judged or panics. -/
theorem Moment.Sound.settling {code : H.Code .policy} (h : μ.Sound b)
    (hf : μ.frame = .notifying p (.settling e code)) {g : Frame H}
    (hg : μ.next.own μ.frame = some g) : ∃ code', g = .notifying p (.settling e code') := by
  cases h.made with
  | wake _ hf' => rw [hf] at hf'; cases hf'
  | step _ _ hs _ =>
    rw [hf] at hs hg
    generalize μ.next = n at hs hg
    cases Machine.ran_of_runCode hs with
    | call | stay => cases hg; exact ⟨_, rfl⟩
    | panic => cases hg
    | @finish m₁ d _ _ _ hd =>
      have hn := m₁.conclude_next (p := p) e d
      rw [Option.some.inj hd] at hn
      rw [show n = _ from hn] at hg
      cases hg

theorem Moment.referred?_eq_none (hf : μ.frame = .notifying p s) (hs : ∀ e, s ≠ .settle e) :
    μ.referred? p = none := by
  unfold referred?
  split
  · rename_i hf'
    rw [hf] at hf'
    cases hf'
    exact absurd rfl (hs _)
  · rfl

theorem Moment.referred?_eq_some (hf : μ.frame = .notifying p (.settle e)) :
    μ.referred? p = some e := by
  rw [referred?, hf]
  exact if_pos rfl

end

/-! ## Judging -/

/-- How far the failure `e` of a listener of `p` has come after the moments `l` of the notification
that ran the listener, and where that is. The failure is put to the policy once. -/
inductive Judging (b : Behaviour H) (p : PromiseId) (e : ListenerError) (l : List (Moment H)) :
    Option (Frame H) → Prop
  /-- The policy is about to be asked. -/
  | due (hr : l.filterMap (Moment.referred? p) = []) (hl : l.flatMap Moment.failures = []) :
    Judging b p e l (some (.notifying p (.settle e)))
  /-- The policy is running. -/
  | asked {code} (hr : l.filterMap (Moment.referred? p) = [e])
    (hl : l.flatMap Moment.failures = []) :
    Judging b p e l (some (.notifying p (.settling e code)))
  /-- The policy has judged, and that was logged once. -/
  | judged {δ s d} (hr : l.filterMap (Moment.referred? p) = [e])
    (hl : l.flatMap Moment.failures = [(d, p, e)]) (hδ : δ ∈ l) (hf : δ.frame = .notifying p s)
    (hd : s.Decides b δ.before δ.call.thread p δ.control e d) : Judging b p e l none
  /-- The policy has panicked. -/
  | panicked {δ s x} (hr : l.filterMap (Moment.referred? p) = [e])
    (hl : l.flatMap Moment.failures = []) (hδ : δ ∈ l) (hf : δ.frame = .notifying p s)
    (hs : s.failure? = some e) (hx : s.Panics b δ.before δ.call.thread δ.control x) :
    Judging b p e l none

/-- What the moments `l` of a notification show of a failure: none so far, or one and what has
become of it. -/
inductive Course (b : Behaviour H) (p : PromiseId) (l : List (Moment H)) (x : Option (Frame H)) :
    Prop
  | unfailed (hx : ∀ f, x = some f → ∃ s, f = .notifying p s ∧ s.failure? = none)
    (hf : ∀ μ ∈ l, ∀ e, ¬μ.Fails b p e) (hr : l.filterMap (Moment.referred? p) = [])
    (hl : l.flatMap Moment.failures = [])
  | failed {e} (hf : ∀ μ ∈ l, ∀ e', μ.Fails b p e' → e' = e) (h : Judging b p e l x)

section

variable {p : PromiseId} {l : List (Moment H)} {μ : Moment H} {s : Notifying H}
  {e : ListenerError}

/-- A notification without a failure goes on without one, or its listener fails. -/
theorem Course.of_unfailed (hμ : μ.Sound b) (hf : μ.frame = .notifying p s)
    (hs : s.failure? = none) (hno : ∀ μ ∈ l, ∀ e, ¬μ.Fails b p e)
    (hr : l.filterMap (Moment.referred? p) = []) (hl : l.flatMap Moment.failures = []) :
    Course b p (l ++ [μ]) (μ.next.own μ.frame) := by
  have href : μ.referred? p = none := Moment.referred?_eq_none hf fun e he => by
    rw [he] at hs
    cases hs
  have hr' : (l ++ [μ]).filterMap (Moment.referred? p) = [] := by simp [hr, href]
  have hm := hμ.notifying hf
  -- The step at which the listener fails is the one that hands its failure to the policy.
  by_cases hfail : ∃ e, μ.Fails b p e
  · obtain ⟨e, hfail⟩ := hfail
    have hn := hfail.next hμ
    have hl' : (l ++ [μ]).flatMap Moment.failures = [] := by
      rw [Phase.flatMap_concat hl]
      generalize μ.failures = fs at hm
      rw [hn] at hm
      generalize hx : Next.goto (.notifying p (.settle e)) = n at hm
      cases hm with
      | decide => cases hx
      | _ => rfl
    refine .failed (List.forall_mem_append.2 ⟨fun ν hν e' he => absurd he (hno ν hν e'),
      List.forall_mem_singleton.2 fun e' he => hfail.unique hμ he⟩) ?_
    rw [hn]
    exact .due hr' hl'
  · have hno' : ∀ ν ∈ l ++ [μ], ∀ e, ¬ν.Fails b p e := List.forall_mem_append.2
      ⟨hno, List.forall_mem_singleton.2 fun e he => hfail ⟨e, he⟩⟩
    have hout : μ.failures = [] ∧ ∀ f, μ.next.own μ.frame = some f →
        ∃ s', f = .notifying p s' ∧ s'.failure? = none := by
      generalize hn : μ.next = n, μ.failures = fs at hm
      rw [hf]
      cases hm with
      | run _ hs' hown =>
        rw [hown]
        exact ⟨rfl, fun f hf => ⟨_, (Option.some.inj hf).symm, Notifying.failure?_of_isRunning hs'⟩⟩
      | clean => exact ⟨rfl, fun f hf => ⟨_, (Option.some.inj hf).symm, rfl⟩⟩
      | @result _ r hres =>
        cases r with
        | ok => exact ⟨rfl, nofun⟩
        | error e => exact absurd ⟨e, _, hf, hres⟩ hfail
      | panic | cleaned => exact ⟨rfl, nofun⟩
      | ask hs' => rw [hs] at hs'; cases hs'
      | decide hd => rw [hd.failure?] at hs; cases hs
      | abort => exact ⟨rfl, fun f hf => ⟨_, (Option.some.inj hf).symm, rfl⟩⟩
    exact .unfailed hout.2 hno' hr' (by rw [Phase.flatMap_concat hl, hout.1])

/-- A failure that is put to the policy is judged at once, or the policy is asked. -/
theorem Judging.of_due (hμ : μ.Sound b) (hf : μ.frame = .notifying p (.settle e))
    (hr : l.filterMap (Moment.referred? p) = []) (hl : l.flatMap Moment.failures = []) :
    Judging b p e (l ++ [μ]) (μ.next.own μ.frame) := by
  have hr' : (l ++ [μ]).filterMap (Moment.referred? p) = [e] := by
    simp [hr, Moment.referred?_eq_some hf]
  have hl' := Phase.flatMap_concat (μ := μ) hl
  have hm := hμ.notifying hf
  obtain ⟨pr, -, htreat⟩ := hμ.treats hf
  generalize hn : μ.next = n, μ.failures = fs at hm htreat hl'
  cases hm with
  | run hs => cases hs
  | result hres => cases hres
  | panic hx => cases hx
  | ask _ _ _ htold =>
    cases htreat with
    | judge => cases htold
    | ask => exact .asked hr' hl'
  | @decide _ e' d hd =>
    obtain rfl : e = e' := Option.some.inj hd.failure?
    exact .judged hr' hl' List.mem_concat_self hf hd

/-- A policy that runs goes on, judges or panics. -/
theorem Judging.of_asked {code : H.Code .policy} (hμ : μ.Sound b)
    (hf : μ.frame = .notifying p (.settling e code))
    (hr : l.filterMap (Moment.referred? p) = [e]) (hl : l.flatMap Moment.failures = []) :
    Judging b p e (l ++ [μ]) (μ.next.own μ.frame) := by
  have hr' : (l ++ [μ]).filterMap (Moment.referred? p) = [e] := by
    simp [hr, Moment.referred?_eq_none hf nofun]
  have hl' := Phase.flatMap_concat (μ := μ) hl
  have hm := hμ.notifying hf
  have hown : ∀ g, μ.next.own μ.frame = some g → _ := fun g => hμ.settling hf
  rw [hf] at hown ⊢
  generalize hn : μ.next = n, μ.failures = fs at hm hl' hown
  cases hm with
  | run hs => cases hs
  | result hres => cases hres
  | panic hx => exact .panicked hr' hl' List.mem_concat_self hf rfl hx
  | ask _ _ hnext =>
    obtain ⟨code', hg⟩ := hown _ hnext
    rw [hnext, hg]
    exact .asked hr' hl'
  | @decide _ e' d hd =>
    obtain rfl : e = e' := Option.some.inj hd.failure?
    exact .judged hr' hl' List.mem_concat_self hf hd

end

namespace Chronicle

variable {c : Chronicle H} {p : PromiseId}

/-- What becomes of a failure along the path of the notification. -/
theorem Path.course (hc : c.Reached b) {s : Notifying H} {l : List (Moment H)}
    {x : Option (Frame H)} (hp : c.Path (.notifying p s) l x) (hs : s.isRunning = true) :
    Course b p l x := by
  induction hp with
  | nil =>
    refine .unfailed (fun f hf => ⟨s, (Option.some.inj hf).symm, ?_⟩) (fun μ hμ => by cases hμ)
      rfl rfl
    exact Notifying.failure?_of_isRunning hs
  | @snoc l μ _ hμ _ ih =>
    have hsound := (hc.sound μ hμ).1
    cases ih with
    | unfailed hx hf hr hl =>
      obtain ⟨s', hframe, hs'⟩ := hx _ rfl
      exact .of_unfailed hsound hframe hs' hf hr hl
    | @failed e hf h =>
      have hf' : ∀ {s'}, μ.frame = .notifying p s' → s'.isRunning = false →
          ∀ ν ∈ l ++ [μ], ∀ e', ν.Fails b p e' → e' = e := fun hframe hs' =>
        List.forall_mem_append.2 ⟨hf, List.forall_mem_singleton.2 fun e' he =>
          absurd he (Moment.not_fails hframe hs')⟩
      generalize hx : some μ.frame = x at h
      cases h with
      | due hr hl =>
        have hframe := Option.some.inj hx
        exact .failed (hf' hframe rfl) (.of_due hsound hframe hr hl)
      | asked hr hl =>
        have hframe := Option.some.inj hx
        exact .failed (hf' hframe rfl) (.of_asked hsound hframe hr hl)
      | judged | panicked => cases hx

end Chronicle

/-! ## Runs -/

/-- A call runs the listener `a` of `p` at a moment, and waits for it at the given stage. -/
inductive Moment.Runs (ν : Moment H) (p : PromiseId) (a : Listener H) : Frame H → Prop
  | delivery {rest} (hf : ν.frame = .completing p (.deliver (a :: rest))) :
    Runs ν p a (.completing p (.delivering rest))
  | registration {r closing} (hf : ν.frame = .registering p r closing)
    (hr : r = .check a ∨ r = .enroll a) : Runs ν p a (.registering p .inline closing)

namespace Chronicle

variable {c : Chronicle H} {μ ν : Moment H} {p : PromiseId} {a : Listener H} {i : CallId}
  {f g : Frame H} {e : ListenerError}

/-- Notifications are made by deliveries and registrations. -/
theorem Reached.runs_of_callee (hc : c.Reached b) (hν : ν ∈ c.past) {s : Notifying H}
    (hn : ν.next.callee? = some (.notifying p s)) :
    ∃ a f, s = a.begin p ∧ ν.next = .enter (.notifying p (a.begin p)) f ∧ ν.Runs p a f := by
  have hsound := (hc.sound ν hν).1
  rcases (hsound.made.leads.enters hn).of_notifying with
    ⟨a, rfl, ⟨rest, hf⟩ | ⟨closing, hf⟩ | ⟨closing, hf⟩⟩
  · exact ⟨a, _, rfl, hc.next_of_deliver hν hf, .delivery hf⟩
  · have hm := hsound.registering hf
    refine ⟨a, _, rfl, ?_, .registration hf (.inl rfl)⟩
    generalize ν.next = n, ν.control = k, ν.after.cells? p = x' at hm hn ⊢
    cases hm with
    | now => rfl
    | later => cases hn
  · have hm := hsound.registering hf
    refine ⟨a, _, rfl, ?_, .registration hf (.inr rfl)⟩
    generalize ν.next = n, ν.control = k, ν.after.cells? p = x' at hm hn ⊢
    cases hm with
    | hand => rfl
    | store => cases hn

/-- A notification was made at some moment to run some listener. -/
theorem Reached.exists_runs (hc : c.Reached b) (hμ : μ ∈ c.past) {s : Notifying H}
    (hf : μ.frame = .notifying p s) : ∃ ν ∈ c.past, ν.entered = μ.call ∧ ∃ a f,
      ν.next = .enter (.notifying p (a.begin p)) f ∧ ν.Runs p a f ∧
      c.Path (.notifying p (a.begin p)) (c.moments μ.call) (c.frame? μ.call) := by
  obtain ⟨g, hp, ν, hν, hent, hg⟩ := hc.path_of_moment μ hμ (by rw [hf]; rfl)
  obtain ⟨s', rfl⟩ : ∃ s', g = .notifying p s' := by
    have hb := (hp.becomes hc).2 μ (mem_moments.2 ⟨hμ, rfl⟩)
    rw [hf] at hb
    exact hb.of_notifying
  obtain ⟨a, f, rfl, hn, hr⟩ := hc.runs_of_callee hν hg
  exact ⟨ν, hν, hent, a, f, hn, hr, hp⟩

/-- Every failure of a listener is put to the policy of its promise once; if that judges it, one
entry is logged about it, and else none. -/
theorem Reached.judging (hc : c.Reached b) (hμ : μ ∈ c.past) (h : μ.Fails b p e) :
    Judging b p e (c.moments μ.call) (c.frame? μ.call) := by
  obtain ⟨s, hf, hr⟩ := id h
  obtain ⟨ν, -, -, a, f, -, -, hp⟩ := hc.exists_runs hμ hf
  have hmem : μ ∈ c.moments μ.call := mem_moments.2 ⟨hμ, rfl⟩
  cases hp.course hc (isRunning_begin a) with
  | unfailed _ hno => exact absurd h (hno μ hmem e)
  | failed hone h' =>
    obtain rfl := hone μ hmem e h
    exact h'

/-- What is logged about a failure is logged by the notification of the listener that has failed. -/
theorem Reached.exists_fails (hc : c.Reached b) (hμ : μ ∈ c.past) {φ : Failure}
    (hφ : φ ∈ μ.failures) : ∃ d p e, φ = (d, p, e) ∧ μ.failures = [φ] ∧
      ∃ ρ ∈ c.past, ρ.call = μ.call ∧ ρ.Fails b p e := by
  obtain ⟨d, p, e, s, rfl, hf, -, hone⟩ := (hc.sound μ hμ).1.exists_decides hφ
  refine ⟨d, p, e, rfl, hone, ?_⟩
  obtain ⟨ν, hν, hent, a, f, hn, -, -⟩ := hc.exists_runs hμ hf
  have hmem : (d, p, e) ∈ (c.moments ν.entered).flatMap Moment.failures :=
    List.mem_flatMap.2 ⟨μ, mem_moments.2 ⟨hμ, hent.symm⟩, hφ⟩
  cases hc.notified hν (l := a) (by rw [hn]; rfl) with
  | running _ _ hl | cleaning _ _ _ _ hl | judging _ _ _ _ _ hl => rw [hl] at hmem; cases hmem
  | @ended fate _ ho =>
    rw [ho.failures] at hmem
    cases ho.met with
    | fine | panicked | cleaned => cases hmem
    | judged hρ hfρ hr =>
      cases List.mem_singleton.1 hmem
      obtain ⟨hρ, hcall⟩ := mem_moments.1 hρ
      exact ⟨_, hρ, hcall.trans hent, _, hfρ, hr⟩

/-! ## On top -/

/-- A call whose last step has entered a call that is over is on top of its thread. -/
theorem Reached.head_of_over (hc : c.Reached b) (hi : c.frame? i = some f)
    (hlast : (c.moments i).getLast? = some ν) (hover : c.frame? ν.entered = none) :
    (c.calls i.thread).head? = some i := by
  have ht := hc.tracked
  obtain ⟨⟨k, fs⟩, hs, -⟩ := Option.bind_eq_some_iff.1 hi
  have hmem : i ∈ c.calls i.thread := Classical.byContradiction fun hno => by
    rw [ht.frame?_eq_none_iff.2 hno] at hi
    cases hi
  have hst := ht.stack _ _ _ hs
  obtain ⟨n, hn⟩ := List.getElem?_of_mem hmem
  cases n with
  | zero => rw [List.head?_eq_getElem?, hn]
  | succ n =>
    obtain ⟨hlt, -⟩ := List.getElem?_eq_some_iff.1 hn
    have hj := List.getElem?_eq_getElem (Nat.lt_of_succ_lt hlt)
    have hg := List.getElem?_eq_getElem (hst.length ▸ hlt)
    obtain ⟨ν', g, hlast', hent, -⟩ := hc.linked.below _ _ _ hs n _ _ _ hj hn hg
    obtain rfl : ν = ν' := Option.some.inj (hlast.symm.trans hlast')
    have hjmem := List.mem_of_getElem? hj
    rw [← hent] at hjmem
    have hthread := (ht.names hjmem).1
    exact absurd (hthread.symm ▸ hjmem) (ht.frame?_eq_none_iff.1 hover)

/-- A call that has run a listener to its end can go on. -/
theorem Reached.run_goes_on (hc : c.Reached b) (hν : ν ∈ c.past)
    (hn : ν.next = .enter (.notifying p (a.begin p)) f) (hr : ν.Runs p a f)
    (hi : c.frame? ν.call = some f) (hlast : (c.moments ν.call).getLast? = some ν)
    (hover : c.frame? ν.entered = none) (hab : c.machine.aborted = false) :
    ∃ m, c.machine.step b ν.call.thread = some m := by
  obtain ⟨k, rest, token, ht, -, htold⟩ := hc.top hi (hc.head_of_over hi hlast hover) hab
  obtain ⟨fate, -, rfl⟩ := hc.exists_fate_of_told hν (l := a) (by rw [hn]; rfl) (hlast ▸ htold)
  refine Machine.exists_step hab ht ?_
  cases hr with
  | delivery | registration =>
    cases fate with
    | fine | panicked => rfl
    | judged d e => cases d <;> rfl

end Chronicle

end OneShot
