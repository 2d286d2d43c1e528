import OneShot.Proofs.Chain.Levels

/-!
# How a failure goes up a chain path

A failure that a policy propagates is handed back by the delivery to the call that has entered it,
and that is the chain listener of the next promise on the path. So it is put to the policy again, at
one level after the other. This module follows it from the listener to the end.

- **Pure policies** (`Behaviour.Computes`, `Policy.Judges`): what they make of a failure depends on
  nothing else, and they make no calls.
- **One step of a judgement** (`Moment.Sound.settles`, `Moment.Sound.computes`).
- **Stages of a failure** (`Stage`): how far it has come, and how many steps of its thread it takes
  to settle it. A moment takes it on (`Stage.record`), and so it goes on through a run
  (`Stage.reaches`) until it is settled (`Final`).
-/

namespace OneShot

variable {H : Host} {b : Behaviour H}

/-! ## Pure policies -/

/-- The code of a policy judges as `v` after at most `n` steps, whatever else goes on, and it does
nothing else. -/
def Behaviour.Computes (b : Behaviour H) (v : Disposition) : Nat → H.Code .policy → Prop
  | 0, _ => False
  | n + 1, code => ∀ m t, (b.resume m t .policy code .go).act = .finish v ∨
      ∃ code', (b.resume m t .policy code .go).act = .stay code' ∧ Computes b v n code'

/-- The policy judges the failure `e` as `v`, and its code takes at most `N` steps. -/
inductive Policy.Judges (b : Behaviour H) (e : ListenerError) (v : Disposition) (N : Nat) :
    Policy H → Prop
  | own {policy : Policy H} (h : policy.decide? e = some v) : Judges b e v N policy
  | code {classify} (h : b.Computes v N (H.invoke .policy classify e)) :
    Judges b e v N (.custom classify)

/-! ## One step of a judgement -/

namespace Moment.Sound

variable {μ : Moment H} {p : PromiseId} {s : Notifying H} {e : ListenerError} {v : Disposition}
  {N n : Nat}

/-- A notification that goes on writes nothing about failures. -/
theorem failures_of_goto (h : μ.Sound b) (hf : μ.frame = .notifying p s) {g : Frame H}
    (hn : μ.next = .goto g) : μ.failures = [] := by
  have hm := h.notifying hf
  generalize hx : μ.next = x, μ.failures = fs at hm ⊢
  rw [hn] at hx
  cases hm with
  | decide => cases hx
  | _ => rfl

/-- A notification that answers how a failure was judged has logged that. -/
theorem failures_of_answer (h : μ.Sound b) (hf : μ.frame = .notifying p s)
    (hs : s.failure? = some e) (hn : μ.next = .answer (v.answer e)) :
    μ.failures = [(v, p, e)] := by
  have hm := h.notifying hf
  generalize hx : μ.next = x, μ.failures = fs at hm ⊢
  rw [hn] at hx
  cases hm with
  | run hrun => rw [Notifying.failure?_of_isRunning hrun] at hs; cases hs
  | clean | cleaned | abort => cases hs
  | result hres => cases hres <;> cases hs
  | panic => cases hx
  | ask _ _ hown => cases hx; cases hown
  | @decide _ e' d hd =>
    obtain rfl : e' = e := Option.some.inj (hd.failure?.symm.trans hs)
    cases v <;> cases d <;> first | rfl | cases hx

/-- A failure that is put to a pure policy is judged at once, or the policy runs. -/
theorem settles (h : μ.Sound b) (hf : μ.frame = .notifying p (.settle e)) {pr : Promise H}
    (hp : μ.before.cells? p = some pr) (hv : pr.policy.Judges b e v N) :
    μ.next = .answer (v.answer e) ∨
      ∃ code, μ.next = .goto (.notifying p (.settling e code)) ∧ b.Computes v N code := by
  obtain ⟨pr', hp', htreat⟩ := h.treats hf
  obtain rfl : pr = pr' := Option.some.inj (hp.symm.trans hp')
  generalize μ.next = x, pr.policy = policy at htreat hv
  cases htreat with
  | judge hd =>
    cases hv with
    | own hd' =>
      cases hd.symm.trans hd'
      exact .inl rfl
    | code => cases hd
  | ask hc =>
    subst hc
    cases hv with
    | own hd' => cases hd'
    | code hcode => exact .inr ⟨_, rfl, hcode⟩

/-- The code of a pure policy judges or goes on. -/
theorem computes (h : μ.Sound b) {code : H.Code .policy}
    (hf : μ.frame = .notifying p (.settling e code)) (hk : μ.control = .go)
    (hcode : b.Computes v n code) :
    μ.next = .answer (v.answer e) ∨ ∃ n' code', n = n' + 1 ∧
      μ.next = .goto (.notifying p (.settling e code')) ∧ b.Computes v n' code' := by
  cases h.made with
  | wake _ hf' => rw [hf] at hf'; cases hf'
  | step _ _ hs _ =>
    rw [hf, hk] at hs
    cases n with
    | zero => cases hcode
    | succ n =>
      have hact := hcode μ.before μ.call.thread
      generalize hx : μ.next = x at hs
      cases Machine.ran_of_runCode hs with
      | call hr | panic hr =>
        rcases hact with hact | ⟨code', hact, -⟩
        · cases (congrArg Prod.snd hr).symm.trans hact
        · cases (congrArg Prod.snd hr).symm.trans hact
      | stay hr =>
        rcases hact with hact | ⟨code', hact, hcode'⟩
        · cases (congrArg Prod.snd hr).symm.trans hact
        · cases (congrArg Prod.snd hr).symm.trans hact
          exact .inr ⟨n, _, rfl, rfl, hcode'⟩
      | @finish m₁ d _ _ hr hd =>
        rcases hact with hact | ⟨code', hact, -⟩
        · cases (congrArg Prod.snd hr).symm.trans hact
          have hnext := m₁.conclude_next (p := p) e v
          rw [Option.some.inj hd] at hnext
          exact .inl hnext
        · cases (congrArg Prod.snd hr).symm.trans hact

end Moment.Sound

/-! ## What is left behind -/

namespace Level

variable {c : Chronicle H} {μ : Moment H} {L : Level H} {v : Disposition} {e : ListenerError}

/-- The notification of a level has had the failure `e` judged as `v`. -/
def Judged (c : Chronicle H) (L : Level H) (v : Disposition) (e : ListenerError) : Prop :=
  ∃ δ ∈ c.past, δ.call = L.notification ∧ δ.next = .answer (v.answer e) ∧
    δ.failures = [(v, L.promise, e)]

/-- The delivery of a level has handed back the failure `e`. -/
structure HandsBack (c : Chronicle H) (L : Level H) (e : ListenerError) : Prop where
  judged : L.Judged c .propagate e
  returns : ∃ ρ ∈ c.past, ρ.call = L.completer ∧
    ρ.frame = .completing L.promise (.delivering L.rest) ∧ ρ.next = .answer (.settled (.error e))

theorem Judged.record (h : L.Judged c v e) : L.Judged (c.record μ) v e := by
  obtain ⟨δ, hδ, h⟩ := h
  exact ⟨δ, Chronicle.mem_record_of_mem hδ, h⟩

theorem HandsBack.record (h : L.HandsBack c e) : L.HandsBack (c.record μ) e := by
  obtain ⟨ρ, hρ, hret⟩ := h.returns
  exact ⟨h.judged.record, ρ, Chronicle.mem_record_of_mem hρ, hret⟩

end Level

namespace Chronicle

/-- What the notifications of some levels have logged about failures, in the order of the log. -/
def logged (c : Chronicle H) (ls : List (Level H)) : List Failure :=
  (c.past.filter (·.call ∈ ls.map Level.notification)).flatMap Moment.failures

/-- How many steps a thread has made. -/
def steps (c : Chronicle H) (t : ThreadId) : Nat := (c.past.filter (·.call.thread = t)).length

section

variable {c : Chronicle H} {μ : Moment H} {t : ThreadId} {ls : List (Level H)}

theorem logged_record_of_mem (h : μ.call ∈ ls.map Level.notification) :
    (c.record μ).logged ls = c.logged ls ++ μ.failures := by
  rw [logged, past_record, List.filter_append, List.filter_singleton, decide_eq_true h, cond_true,
    List.flatMap_append, List.flatMap_singleton, logged]

theorem logged_record_of_not_mem (h : μ.call ∉ ls.map Level.notification) :
    (c.record μ).logged ls = c.logged ls := by
  rw [logged, past_record, List.filter_append, List.filter_singleton, decide_eq_false h, cond_false,
    List.append_nil, logged]

theorem logged_record_of_nil (h : μ.failures = []) : (c.record μ).logged ls = c.logged ls := by
  by_cases hm : μ.call ∈ ls.map Level.notification
  · rw [logged_record_of_mem hm, h, List.append_nil]
  · exact logged_record_of_not_mem hm

theorem steps_record_of_eq (h : μ.call.thread = t) :
    (c.record μ).steps t = c.steps t + 1 := by
  simp [steps, List.filter_append, h]

theorem steps_record_of_ne (h : μ.call.thread ≠ t) : (c.record μ).steps t = c.steps t := by
  simp [steps, List.filter_append, h]

end

/-! ## Stages of a failure -/

/-- How far a failure `e` has come that the policy of all levels judges as `v`: it has left the
levels `ds` and is at the first one of `ls`, under which there are the calls `is` at the stages
`fs`. It takes at most `r` steps of the thread to settle it. -/
inductive Stage (b : Behaviour H) (c : Chronicle H) (t : ThreadId) (e : ListenerError)
    (v : Disposition) (N : Nat) (is : List CallId) (fs : List (Frame H)) (ds : List (Level H)) :
    List (Level H) → Nat → Prop
  /-- The policy is about to be asked. -/
  | due {L ls} (hs : c.Stands t .go (Level.names (L :: ls) ++ is)
      (.notifying L.promise (.settle e) :: .completing L.promise (.delivering L.rest) ::
        (Level.stages L.promise ls ++ fs)))
    (hlog : c.logged (ds ++ L :: ls) = ds.map fun L => (v, L.promise, e)) :
    Stage b c t e v N is fs ds (L :: ls) (ls.length * (N + 3) + (N + 2))
  /-- The policy is running. -/
  | asked {L ls code n} (hs : c.Stands t .go (Level.names (L :: ls) ++ is)
      (.notifying L.promise (.settling e code) :: .completing L.promise (.delivering L.rest) ::
        (Level.stages L.promise ls ++ fs)))
    (hn : n ≤ N) (hcode : b.Computes v n code)
    (hlog : c.logged (ds ++ L :: ls) = ds.map fun L => (v, L.promise, e)) :
    Stage b c t e v N is fs ds (L :: ls) (ls.length * (N + 3) + (n + 1))
  /-- The policy has judged, and the delivery is told. -/
  | judged {L ls} (hs : c.Stands t (.ret (v.answer e)) (L.completer :: (Level.names ls ++ is))
      (.completing L.promise (.delivering L.rest) :: (Level.stages L.promise ls ++ fs)))
    (hj : L.Judged c v e)
    (hlog : c.logged (ds ++ L :: ls) = (ds ++ [L]).map fun L => (v, L.promise, e)) :
    Stage b c t e v N is fs ds (L :: ls) (ls.length * (N + 3) + 1)
  /-- The delivery of `q` has handed the failure back to the chain listener of the next level. -/
  | handed {q L ls} (hs : c.Stands t (.ret (.settled (.error e))) (Level.names (L :: ls) ++ is)
      (Level.stages q (L :: ls) ++ fs))
    (hlog : c.logged (ds ++ L :: ls) = ds.map fun L => (v, L.promise, e)) :
    Stage b c t e v N is fs ds (L :: ls) ((ls.length + 1) * (N + 3))

/-- The failure `e` is settled. If it was absorbed, that was at the first level; the delivery there
goes on, and so will those that wait for it. If it was propagated, it has left all levels. -/
inductive Final (c : Chronicle H) (t : ThreadId) (e : ListenerError) (is : List CallId)
    (fs : List (Frame H)) : List (Level H) → Disposition → Prop
  | absorbed {L ls} (hs : c.Stands t .go (L.completer :: (Level.names ls ++ is))
      (.completing L.promise (.deliver L.rest) :: (Level.stages L.promise ls ++ fs)))
    (hj : L.Judged c .absorb e)
    (hlog : c.logged (L :: ls) = [(.absorb, L.promise, e)]) :
    Final c t e is fs (L :: ls) .absorb
  | propagated {ls} (hb : ∀ L ∈ ls, L.HandsBack c e)
    (hlog : c.logged ls = ls.map fun L => (.propagate, L.promise, e)) :
    Final c t e is fs ls .propagate

/-- The promises of the levels have a policy that judges `e` as `v`. -/
def Ruled (b : Behaviour H) (c : Chronicle H) (e : ListenerError) (v : Disposition) (N : Nat)
    (ls : List (Level H)) : Prop :=
  ∀ L ∈ ls, ∃ pr, c.machine.cells? L.promise = some pr ∧ pr.policy.Judges b e v N

section

variable {c c' : Chronicle H} {μ : Moment H} {t : ThreadId} {e : ListenerError} {v : Disposition}
  {N r : Nat} {is : List CallId} {fs : List (Frame H)} {ds ls : List (Level H)}

theorem Ruled.reaches (hc : c.Reached b) (hl : c.Reaches b c') (hr : c.Ruled b e v N ls) :
    c'.Ruled b e v N ls := by
  intro L hL
  obtain ⟨pr, hp, hv⟩ := hr L hL
  obtain ⟨pr', hp', hmade⟩ := hc.made hl hp
  exact ⟨pr', hp', (Promise.eq_of_made_eq hmade).2.1 ▸ hv⟩

/-- When another thread moves, the failure stays where it is. -/
theorem Stage.record_of_ne (hc : c.Tracked) (h : c.Extends b μ) (ht : μ.call.thread ≠ t)
    (hls : ∀ L ∈ ds ++ ls, L.notification.thread = t) (hst : Stage b c t e v N is fs ds ls r) :
    Stage b (c.record μ) t e v N is fs ds ls r := by
  have hlog : (c.record μ).logged (ds ++ ls) = c.logged (ds ++ ls) := by
    refine logged_record_of_not_mem fun hm => ?_
    obtain ⟨L, hL, heq⟩ := List.mem_map.1 hm
    exact ht (heq ▸ hls L hL)
  cases hst with
  | due hs hl => exact .due (hs.record_of_ne hc h rfl ht.symm) (hlog.trans hl)
  | asked hs hn hcode hl =>
    exact .asked (hs.record_of_ne hc h rfl ht.symm) hn hcode (hlog.trans hl)
  | judged hs hj hl => exact .judged (hs.record_of_ne hc h rfl ht.symm) hj.record (hlog.trans hl)
  | handed hs hl => exact .handed (hs.record_of_ne hc h rfl ht.symm) (hlog.trans hl)

/-- A judgement is told to the delivery. -/
theorem Stage.of_answer (hc : c.Tracked) (h : c.Extends b μ) {L : Level H} {s : Notifying H}
    (hs : c.Stands t .go (Level.names (L :: ls) ++ is)
      (.notifying L.promise s :: .completing L.promise (.delivering L.rest) ::
        (Level.stages L.promise ls ++ fs)))
    (ht : t = μ.call.thread) (hs' : s.failure? = some e) (hn : μ.next = .answer (v.answer e))
    (hlog : c.logged (ds ++ L :: ls) = ds.map fun L => (v, L.promise, e)) :
    Stage b (c.record μ) t e v N is fs ds (L :: ls) (ls.length * (N + 3) + 1) := by
  obtain ⟨hcall, hf, -, hs⟩ := hs.record hc h ht
  rw [hn] at hs
  have hfs := (h.sound hc).failures_of_answer hf hs' hn
  refine .judged hs ⟨μ, mem_record_self, hcall, hn, hfs⟩ ?_
  rw [logged_record_of_mem (by simp [hcall]), hlog, hfs, List.map_append, List.map_singleton]

/-- A step of the thread takes the failure on, or settles it. -/
theorem Stage.record (hc : c.Reached b) (h : c.Extends b μ) (hc' : (c.record μ).Reached b)
    (ht : t = μ.call.thread)
    (hr : c.Ruled b e v N (ds ++ ls)) (hds : ∀ L ∈ ds, v = .propagate ∧ L.HandsBack c e)
    (hst : Stage b c t e v N is fs ds ls r) :
    (∃ ds' ls' r', ds' ++ ls' = ds ++ ls ∧ r' < r ∧
      (∀ L ∈ ds', v = .propagate ∧ L.HandsBack (c.record μ) e) ∧
      Stage b (c.record μ) t e v N is fs ds' ls' r') ∨
    Final (c.record μ) t e is fs (ds ++ ls) v := by
  have ht' := hc.tracked
  have hsound := h.sound ht'
  have hds' : ∀ L ∈ ds, v = .propagate ∧ L.HandsBack (c.record μ) e := fun L hL =>
    ⟨(hds L hL).1, (hds L hL).2.record⟩
  -- One case a stage; `ds` are the levels that have handed the failure on.
  cases hst with
  | @due L ls hs hlog =>
    obtain ⟨-, hf, -, hs'⟩ := hs.record ht' h ht
    obtain ⟨pr, hp, hv⟩ := hr L (List.mem_append_right ds List.mem_cons_self)
    rcases hsound.settles hf (h.before ▸ hp) hv with hn | ⟨code, hn, hcode⟩
    · exact .inl ⟨ds, L :: ls, _, rfl, by omega, hds', .of_answer ht' h hs ht rfl hn hlog⟩
    · rw [hn] at hs'
      exact .inl ⟨ds, L :: ls, _, rfl, by omega, hds', .asked hs' (Nat.le_refl N) hcode
        ((logged_record_of_nil (hsound.failures_of_goto hf hn)).trans hlog)⟩
  | @asked L ls code n hs hn' hcode hlog =>
    obtain ⟨-, hf, hk, hs'⟩ := hs.record ht' h ht
    rcases hsound.computes hf hk hcode with hn | ⟨n', code', rfl, hn, hcode'⟩
    · have hpos : 0 < n := Nat.pos_of_ne_zero fun h0 => by subst h0; exact hcode
      exact .inl ⟨ds, L :: ls, _, rfl, by omega, hds', .of_answer ht' h hs ht rfl hn hlog⟩
    · rw [hn] at hs'
      exact .inl ⟨ds, L :: ls, _, rfl, by omega, hds', .asked hs' (by omega) hcode'
        ((logged_record_of_nil (hsound.failures_of_goto hf hn)).trans hlog)⟩
  | @judged L ls hs hj hlog =>
    obtain ⟨hcall, hf, hk, hs'⟩ := hs.record ht' h ht
    have hlog' : (c.record μ).logged (ds ++ L :: ls) =
        (ds ++ [L]).map fun L => (v, L.promise, e) :=
      (logged_record_of_nil (hsound.failures_eq_nil fun p s => by rw [hf]; nofun)).trans hlog
    obtain ⟨pr, pr', -, -, hm⟩ := hc'.moved μ mem_record_self _ _ hf
    generalize hn : μ.next = n at hm hs'
    rw [hk] at hm
    cases v with
    | absorb =>
      cases hm
      obtain rfl : ds = [] := List.eq_nil_iff_forall_not_mem.2 fun L' hL' => by
        cases (hds L' hL').1
      exact .inr (.absorbed hs' hj.record hlog')
    | propagate =>
      cases hm
      have hback : ∀ L' ∈ ds ++ [L], L'.HandsBack (c.record μ) e := List.forall_mem_append.2
        ⟨fun L' hL' => (hds' L' hL').2,
          List.forall_mem_singleton.2 ⟨hj.record, μ, mem_record_self, hcall, hf, hn⟩⟩
      cases ls with
      | nil => exact .inr (.propagated hback hlog')
      | cons L' ls =>
        have heq : (ds ++ [L]) ++ L' :: ls = ds ++ L :: L' :: ls := by simp
        exact .inl ⟨ds ++ [L], L' :: ls, _, heq, Nat.lt_succ_self _, fun L' hL' =>
          ⟨rfl, hback L' hL'⟩, .handed hs' (heq ▸ hlog')⟩
  | @handed q L ls hs hlog =>
    obtain ⟨hcall, hf, hk, hs'⟩ := hs.record ht' h ht
    have hn := Moment.Fails.next hsound ⟨_, hf, .relayedError hk⟩
    rw [hn] at hs'
    refine .inl ⟨ds, L :: ls, _, rfl, ?_, hds', .due hs'
      ((logged_record_of_nil (hsound.failures_of_goto hf hn)).trans hlog)⟩
    rw [Nat.succ_mul]
    omega

/-- A failure goes on until it is settled, and that takes a bounded number of steps of its
thread. -/
theorem Stage.reaches (hst : Stage b c t e v N is fs ds ls r) (hc : c.Reached b)
    (hl : c.Reaches b c') (hr : c.Ruled b e v N (ds ++ ls))
    (hls : ∀ L ∈ ds ++ ls, L.notification.thread = t)
    (hds : ∀ L ∈ ds, v = .propagate ∧ L.HandsBack c e) :
    (∃ ds' ls' r', ds' ++ ls' = ds ++ ls ∧ r' + c'.steps t ≤ r + c.steps t ∧
      (∀ L ∈ ds', v = .propagate ∧ L.HandsBack c' e) ∧ Stage b c' t e v N is fs ds' ls' r') ∨
    ∃ c₁, c.Reaches b c₁ ∧ c₁.Reaches b c' ∧ Final c₁ t e is fs (ds ++ ls) v := by
  induction hl with
  | refl => exact .inl ⟨ds, ls, r, rfl, Nat.le_refl _, hds, hst⟩
  | tail x hl he ih =>
    rcases ih with ⟨ds', ls', r', heq, hle, hds', hst'⟩ | ⟨c₁, h₁, h₂, hfin⟩
    · have hc₁ := hc.reaches hl
      have hturn : Reaches b _ _ := .tail x .refl he
      obtain ⟨μ, hμ, rfl⟩ := exists_extends_of_turn? hc₁.tracked he
      -- Only steps of its own thread lower the rank; those of others leave the stage as it is.
      by_cases ht : μ.call.thread = t
      · rcases hst'.record hc₁ hμ (hc₁.reaches hturn) ht.symm (heq ▸ hr.reaches hc hl) hds' with
          ⟨ds'', ls'', r'', heq', hlt, hds'', hst''⟩ | hfin
        · refine .inl ⟨ds'', ls'', r'', heq'.trans heq, ?_, hds'', hst''⟩
          rw [steps_record_of_eq ht]
          omega
        · exact .inr ⟨_, .tail x hl he, .refl, heq ▸ hfin⟩
      · refine .inl ⟨ds', ls', r', heq, ?_, fun L hL => ?_,
          hst'.record_of_ne hc₁.tracked hμ ht (heq ▸ hls)⟩
        · rw [steps_record_of_ne ht]
          exact hle
        · exact ⟨(hds' L hL).1, (hds' L hL).2.record⟩
    · exact .inr ⟨c₁, h₁, .tail x h₂ he, hfin⟩

theorem Stage.pos (hst : Stage b c t e v N is fs ds ls r) : 0 < r := by
  cases hst with
  | due | asked | judged => exact Nat.succ_pos _
  | handed => exact Nat.mul_pos (Nat.succ_pos _) (Nat.succ_pos _)

/-- As long as a failure is not settled, its thread can make a step. -/
theorem Stage.goes_on (hr : c.Ruled b e v N (ds ++ ls)) (hst : Stage b c t e v N is fs ds ls r)
    (hab : c.machine.aborted = false) : ∃ m, c.machine.step b t = some m := by
  cases hst with
  | @due L ls hs =>
    obtain ⟨pr, hp, -⟩ := hr L (List.mem_append_right ds List.mem_cons_self)
    obtain ⟨pr', hp', -⟩ := Option.map_eq_some_iff.1 hp
    exact hs.exists_step hab (Notifying.isSome_settle hp')
  | asked hs => exact hs.exists_step hab Notifying.isSome_settling
  | judged hs => exact hs.exists_step hab (by cases v <;> rfl)
  | handed hs => exact hs.exists_step hab rfl

end

end Chronicle

end OneShot
