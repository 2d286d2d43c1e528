import OneShot.Proofs.History.Paths

/-!
# What becomes of a listener that is notified

A notification runs one listener and, if that fails, has the failure judged. This module says in
which ways it can end and what it leaves in the log.

- **One step** (`Notifying.Moves`): the listener runs, gives a result (`Notifying.Results`), its
  failure is judged (`Notifying.Decides`), or a panic leaves it (`Notifying.Panics`).
- **Failures in the log** (`Moment.failures`): what the library writes about failed listeners.
- **Fates** (`Fate`, `Met`): the listener went well, its failure was judged, or a panic came out.
  Each fate tells the caller one thing and leaves one record for a judged failure and else none.
- **All notifications** (`Reached.notified`): still running, or met with a fate.
-/

namespace OneShot

variable {H : Host} {b : Behaviour H}

/-! ## Failures in the log -/

/-- A failed listener as the log tells of it: how it was judged, whose listener it was, and the
failure. -/
abbrev Failure := Disposition × PromiseId × ListenerError

/-- The failed listener that an entry tells of. -/
def Entry.failure? : Entry H → Option Failure
  | .library (.absorbed p _ e) => some (.absorb, p, e)
  | .library (.propagated p _ e) => some (.propagate, p, e)
  | _ => none

/-- The failures that `m'` tells of in addition to the log of `m`. -/
def Machine.failuresSince (m m' : Machine H) : List Failure :=
  (m'.log.toList.drop m.log.size).filterMap Entry.failure?

/-- The failures that a moment writes to the log. -/
def Moment.failures (μ : Moment H) : List Failure := μ.before.failuresSince μ.after

namespace Machine

variable {m m' : Machine H}

theorem failuresSince_self (m : Machine H) : m.failuresSince m = [] := by
  rw [failuresSince, ← Array.length_toList, List.drop_length, List.filterMap_nil]

/-- What the program writes tells of no failure. -/
theorem log_resume {t : ThreadId} {r : Role} {code : H.Code r} {c : Control} {a : Act H r}
    (h : m.resume b t code c = (m', a)) :
    ∃ es, m'.log.toList = m.log.toList ++ es ∧ es.filterMap Entry.failure? = [] := by
  obtain ⟨rfl, -⟩ := Prod.mk.inj h
  refine ⟨(b.resume m t r code c).events.map Entry.program, by simp, ?_⟩
  refine List.filterMap_eq_nil_iff.2 fun e he => ?_
  obtain ⟨_, -, rfl⟩ := List.mem_map.1 he
  rfl

theorem failuresSince_of_log {es : List (Entry H)} (h : m'.log.toList = m.log.toList ++ es) :
    m.failuresSince m' = es.filterMap Entry.failure? := by
  rw [failuresSince, h, ← Array.length_toList, List.drop_left]

theorem failuresSince_resume {t : ThreadId} {r : Role} {code : H.Code r} {c : Control}
    {a : Act H r} (h : m.resume b t code c = (m', a)) : m.failuresSince m' = [] := by
  obtain ⟨es, hes, hn⟩ := log_resume h
  rw [failuresSince_of_log hes, hn]

theorem failuresSince_record (r : LogRecord) :
    m.failuresSince (m.record r) = ([.library r] : List (Entry H)).filterMap Entry.failure? :=
  failuresSince_of_log (by simp [record])

theorem failuresSince_resume_record {t : ThreadId} {r : Role} {code : H.Code r} {c : Control}
    {a : Act H r} (h : m.resume b t code c = (m', a)) (rec : LogRecord) :
    m.failuresSince (m'.record rec) =
      ([.library rec] : List (Entry H)).filterMap Entry.failure? := by
  obtain ⟨es, hes, hn⟩ := log_resume h
  have hlog : (m'.record rec).log.toList = m.log.toList ++ (es ++ [.library rec]) := by
    simp [record, hes]
  rw [failuresSince_of_log hlog, List.filterMap_append, hn, List.nil_append]

@[simp] theorem log_proceed (m : Machine H) (t : ThreadId) (rest : List (Frame H)) (n : Next H) :
    (m.proceed t rest n).log = m.log := by
  cases n <;> rfl

end Machine

/-! ## One step -/

/-- What a notification answers when the failure of its listener was judged. -/
def Disposition.answer (e : ListenerError) : Disposition → Answer
  | .absorb => .notified (.ok ())
  | .propagate => .notified (.error e)

namespace Notifying

/-- Whether the listener is running, which includes the completion of a chained promise. -/
def isRunning : Notifying H → Bool
  | listening _ | observing _ | transforming _ _ | relaying _ => true
  | _ => false

/-- The failure that is being judged. -/
def failure? : Notifying H → Option ListenerError
  | settle e | settling e _ => some e
  | _ => none

theorem failure?_of_isRunning {s : Notifying H} (h : s.isRunning = true) : s.failure? = none := by
  cases s <;> first | rfl | cases h

/-- The listener has run and this is its result. That of a chain listener is what the completion of
its target gave. -/
inductive Results (b : Behaviour H) (m : Machine H) (t : ThreadId) (c : Control) :
    Notifying H → Except ListenerError Unit → Prop
  | listening {code m' r} (hr : m.resume b t code c = (m', .finish r)) :
    Results b m t c (.listening code) r
  | observing {code m' r} (hr : m.resume b t code c = (m', .finish r)) :
    Results b m t c (.observing code) (.ok ())
  | relayed {target v} (hc : c = .ret (.settled (.ok v))) :
    Results b m t c (.relaying target) (.ok ())
  | relayedError {target e} (hc : c = .ret (.settled (.error e))) :
    Results b m t c (.relaying target) (.error e)

/-- The failure `e` of a listener of `p` is judged, by a policy of the library or by the program. -/
inductive Decides (b : Behaviour H) (m : Machine H) (t : ThreadId) (p : PromiseId) (c : Control)
    (e : ListenerError) : Notifying H → Disposition → Prop
  | policy {pr d} (hp : m.promise? p = some pr) (hd : pr.policy.decide? e = some d) :
    Decides b m t p c e (.settle e) d
  | code {code m' d} (hr : m.resume b t code c = (m', .finish d)) :
    Decides b m t p c e (.settling e code) d

/-- A panic leaves the notification: that of the listener, of the completion of a chained promise,
or of the policy. -/
inductive Panics (b : Behaviour H) (m : Machine H) (t : ThreadId) (c : Control) :
    Notifying H → String → Prop
  | listening {code m' x} (hr : m.resume b t code c = (m', .panic x)) :
    Panics b m t c (.listening code) x
  | observing {code m' x} (hr : m.resume b t code c = (m', .panic x)) :
    Panics b m t c (.observing code) x
  | relaying {target x} (hc : c = .raise x) : Panics b m t c (.relaying target) x
  | settling {e code m' x} (hr : m.resume b t code c = (m', .panic x)) :
    Panics b m t c (.settling e code) x

/-- What a step of notifying a listener of `p` does: how it goes on, and the failures that it writes
to the log. -/
inductive Moves (b : Behaviour H) (m : Machine H) (t : ThreadId) (p : PromiseId) (c : Control) :
    Notifying H → Next H → List Failure → Prop
  | run {s s' n} (h : s.isRunning = true) (h' : s'.isRunning = true)
    (hn : n.own (.notifying p s) = some (.notifying p s')) (ht : n.told? = none) :
    Moves b m t p c s n []
  | clean {target code m' x} (hr : m.resume b t code c = (m', .panic x)) :
    Moves b m t p c (.transforming target code)
      (.enter (.completing target (.claim .cancelled)) (.notifying p (.cleaning target x))) []
  | result {s r} (h : s.Results b m t c r) : Moves b m t p c s (ofResult p r) []
  | panic {s x} (h : s.Panics b m t c x) : Moves b m t p c s (.throw x) []
  | cleaned {target x a} (hc : c = .ret a) : Moves b m t p c (.cleaning target x) (.throw x) []
  | ask {s s' e n} (h : s.failure? = some e) (h' : s'.failure? = some e)
    (hn : n.own (.notifying p s) = some (.notifying p s')) (ht : n.told? = none) :
    Moves b m t p c s n []
  | decide {s e d} (h : s.Decides b m t p c e d) :
    Moves b m t p c s (.answer (d.answer e)) [(d, p, e)]
  | abort {target x y} (hc : c = .raise y) : Moves b m t p c (.cleaning target x) .abort []

end Notifying

section

variable {m m' : Machine H} {t : ThreadId} {p : PromiseId} {c : Control} {n : Next H}

open Machine

theorem Machine.conclude_next (e : ListenerError) (d : Disposition) :
    (m.conclude p e d).2 = .answer (d.answer e) := by
  cases d <;> rfl

/-- Every step of a notification is such a move. -/
theorem Notifying.moves_of_step {s : Notifying H} (h : s.step b m t p c = some (m', n))
    (hk : c = .go ∨ (Frame.notifying p s).awaits = true) :
    s.Moves b m t p c n (m.failuresSince m') := by
  -- What the step logs as failures is read off the log: only a verdict adds to them.
  cases s with
  | listening code =>
    cases ran_of_runCode h with
    | call hr | stay hr => rw [failuresSince_resume hr]; exact .run rfl rfl rfl rfl
    | panic hr => rw [failuresSince_resume hr]; exact .panic (.listening hr)
    | finish hr hd =>
      cases hd
      rw [failuresSince_resume hr]
      exact .result (.listening hr)
  | observing code =>
    cases ran_of_runCode h with
    | call hr | stay hr => rw [failuresSince_resume hr]; exact .run rfl rfl rfl rfl
    | panic hr => rw [failuresSince_resume hr]; exact .panic (.observing hr)
    | finish hr hd =>
      cases hd
      rw [failuresSince_resume hr]
      exact .result (.observing hr)
  | transforming target code =>
    simp only [step] at h
    split at h <;> rename_i hr <;> cases h
    · rw [failuresSince_resume hr]; exact .run rfl rfl rfl rfl
    · rw [failuresSince_resume hr]; exact .run rfl rfl rfl rfl
    · rw [failuresSince_resume hr]; exact .run rfl rfl rfl rfl
    · rw [failuresSince_resume_record hr]; exact .clean hr
  | relaying target =>
    simp only [step] at h
    split at h <;> cases h <;> rw [failuresSince_self]
    · exact .result (.relayed rfl)
    · exact .result (.relayedError rfl)
    · exact .panic (.relaying rfl)
  | cleaning target x =>
    simp only [step] at h
    split at h <;> cases h <;> rw [failuresSince_self]
    · exact .cleaned rfl
    · exact .abort rfl
  | settle e =>
    obtain rfl : c = .go := hk.resolve_right Bool.false_ne_true
    obtain ⟨pr, hp, h⟩ := Option.bind_eq_some_iff.1 h
    split at h
    · cases h
      rw [failuresSince_self]
      exact .ask rfl rfl rfl rfl
    · obtain ⟨d, hd, heq⟩ := Option.map_eq_some_iff.1 h
      have hn := m.conclude_next (p := p) e d
      rw [heq] at hn
      subst hn
      obtain rfl : (m.conclude p e d).1 = m' := by rw [heq]
      have hf : m.failuresSince (m.conclude p e d).1 = [(d, p, e)] := by
        cases d <;> exact failuresSince_record _
      rw [hf]
      exact .decide (.policy hp hd)
  | settling e code =>
    cases ran_of_runCode h with
    | call hr | stay hr => rw [failuresSince_resume hr]; exact .ask rfl rfl rfl rfl
    | panic hr => rw [failuresSince_resume hr]; exact .panic (.settling hr)
    | @finish m₁ d _ _ hr hd =>
      have heq : m₁.conclude p e d = (m', n) := Option.some.inj hd
      have hn := m₁.conclude_next (p := p) e d
      rw [heq] at hn
      subst hn
      obtain rfl : (m₁.conclude p e d).1 = m' := by rw [heq]
      have hf : m.failuresSince (m₁.conclude p e d).1 = [(d, p, e)] := by
        cases d <;> exact failuresSince_resume_record hr _
      rw [hf]
      exact .decide (.code hr)

end

theorem Moment.Sound.notifying {μ : Moment H} {p : PromiseId} {s : Notifying H} (h : μ.Sound b)
    (hf : μ.frame = .notifying p s) :
    s.Moves b μ.before μ.call.thread p μ.control μ.next μ.failures := by
  have hk := h.control
  cases h.made with
  | step hn ht hs ha =>
    rw [hf] at hs hk
    rw [Moment.failures, Machine.failuresSince, ha, Machine.log_proceed]
    exact Notifying.moves_of_step hs hk
  | wake ht hf' hn ha => rw [hf] at hf'; cases hf'

/-! ## Fates -/

/-- How a notification can end. -/
inductive Fate where
  /-- The listener went well. -/
  | fine
  /-- The listener failed, and its failure was judged. -/
  | judged (d : Disposition) (e : ListenerError)
  /-- A panic came out. -/
  | panicked (x : String)

namespace Fate

/-- What the caller is told. -/
def told : Fate → Control
  | fine => .ret (.notified (.ok ()))
  | judged d e => .ret (d.answer e)
  | panicked x => .raise x

/-- What the log tells of a listener of `p` with this fate. -/
def failures (p : PromiseId) : Fate → List Failure
  | judged d e => [(d, p, e)]
  | _ => []

/-- Whether the listeners that follow are run. -/
def isBenign : Fate → Bool
  | fine | judged .absorb _ => true
  | _ => false

theorem isBenign_of_told {f : Fate} (h : f.told = .ret (.notified (.ok ()))) :
    f.isBenign = true := by
  cases f with
  | fine => rfl
  | judged d e => cases d <;> first | rfl | cases h
  | panicked x => cases h

theorem eq_judged_of_told {f : Fate} {e : ListenerError}
    (h : f.told = .ret (.notified (.error e))) : f = .judged .propagate e := by
  cases f with
  | fine => cases h
  | judged d e' => cases d <;> cases h; rfl
  | panicked x => cases h

theorem eq_panicked_of_told {f : Fate} {x : String} (h : f.told = .raise x) : f = .panicked x := by
  cases f with
  | fine => cases h
  | judged d e => cases h
  | panicked y => cases h; rfl

end Fate

/-- What the moments of a notification show of its fate. -/
inductive Met (b : Behaviour H) (p : PromiseId) (l : List (Moment H)) : Fate → Prop
  | fine {ν s} (hν : ν ∈ l) (hf : ν.frame = .notifying p s)
    (hr : s.Results b ν.before ν.call.thread ν.control (.ok ())) : Met b p l .fine
  | judged {μ s ν s' e d} (hμ : μ ∈ l) (hf : μ.frame = .notifying p s)
    (hr : s.Results b μ.before μ.call.thread μ.control (.error e)) (hν : ν ∈ l)
    (hf' : ν.frame = .notifying p s')
    (hd : s'.Decides b ν.before ν.call.thread p ν.control e d) : Met b p l (.judged d e)
  | panicked {ν s x} (hν : ν ∈ l) (hf : ν.frame = .notifying p s)
    (hx : s.Panics b ν.before ν.call.thread ν.control x) : Met b p l (.panicked x)
  /-- A chain callback panicked. Its panic went on when the target was cancelled. -/
  | cleaned {μ target code m x} (hμ : μ ∈ l)
    (hf : μ.frame = .notifying p (.transforming target code))
    (hr : μ.before.resume b μ.call.thread code μ.control = (m, .panic x)) : Met b p l (.panicked x)

/-- A notification is over, after these moments and with this fate. -/
structure Over (b : Behaviour H) (p : PromiseId) (l : List (Moment H)) (fate : Fate) : Prop where
  met : Met b p l fate
  failures : l.flatMap Moment.failures = fate.failures p
  told : l.getLast?.bind (·.next.told?) = some fate.told

/-- How far a notification has come after these moments. -/
inductive Phase (b : Behaviour H) (p : PromiseId) (l : List (Moment H))
    (x : Option (Frame H)) : Prop
  | running {s} (hx : x = some (.notifying p s)) (hs : s.isRunning = true)
    (hl : l.flatMap Moment.failures = [])
  | cleaning {target y μ code m} (hx : x = some (.notifying p (.cleaning target y))) (hμ : μ ∈ l)
    (hf : μ.frame = .notifying p (.transforming target code))
    (hr : μ.before.resume b μ.call.thread code μ.control = (m, .panic y))
    (hl : l.flatMap Moment.failures = [])
  | judging {s e μ s'} (hx : x = some (.notifying p s)) (hs : s.failure? = some e) (hμ : μ ∈ l)
    (hf : μ.frame = .notifying p s')
    (hr : s'.Results b μ.before μ.call.thread μ.control (.error e))
    (hl : l.flatMap Moment.failures = [])
  | ended {fate} (hx : x = none) (h : Over b p l fate)

namespace Phase

variable {p : PromiseId} {l : List (Moment H)} {μ : Moment H} {s : Notifying H}

theorem flatMap_concat (hl : l.flatMap Moment.failures = []) :
    (l ++ [μ]).flatMap Moment.failures = μ.failures := by
  rw [List.flatMap_append, hl, List.nil_append, List.flatMap_singleton]

theorem over_concat {fate : Fate} (hm : Met b p (l ++ [μ]) fate)
    (hl : l.flatMap Moment.failures = []) (hf : μ.failures = fate.failures p)
    (ht : μ.next.told? = some fate.told) (hn : μ.next.own μ.frame = none) :
    Phase b p (l ++ [μ]) (μ.next.own μ.frame) :=
  .ended hn ⟨hm, by rw [flatMap_concat hl, hf], by rw [List.getLast?_concat]; exact ht⟩

/-- The listener goes on running, gives its result, or panics. -/
theorem of_running (hf : μ.frame = .notifying p s) (hs : s.isRunning = true)
    (hl : l.flatMap Moment.failures = [])
    (h : s.Moves b μ.before μ.call.thread p μ.control μ.next μ.failures) :
    Phase b p (l ++ [μ]) (μ.next.own μ.frame) := by
  have hmem : μ ∈ l ++ [μ] := List.mem_concat_self
  generalize hn : μ.next = n, hfs : μ.failures = fs at h
  have hnil : fs = [] → (l ++ [μ]).flatMap Moment.failures = [] := by
    intro he
    rw [flatMap_concat hl, hfs, he]
  rw [← hn]
  cases h with
  | run _ hs' hown => exact .running (by rw [hf, hn]; exact hown) hs' (hnil rfl)
  | clean hr => exact .cleaning (by rw [hn]; rfl) hmem hf hr (hnil rfl)
  | @result _ r hr =>
    cases r with
    | ok u => exact over_concat (.fine hmem hf hr) hl hfs (by rw [hn]; rfl) (by rw [hn]; rfl)
    | error e => exact .judging (by rw [hn]; rfl) rfl hmem hf hr (hnil rfl)
  | panic hx => exact over_concat (.panicked hmem hf hx) hl hfs (by rw [hn]; rfl) (by rw [hn]; rfl)
  | cleaned | abort => cases hs
  | ask he => rw [Notifying.failure?_of_isRunning hs] at he; cases he
  | decide hd => cases hd <;> cases hs

/-- The cancellation of a chain target ends, and the panic goes on. -/
theorem of_cleaning {target : PromiseId} {y : String} {ν : Moment H} {code : H.Code .transform}
    {m : Machine H} (hf : μ.frame = .notifying p (.cleaning target y)) (hν : ν ∈ l)
    (hf' : ν.frame = .notifying p (.transforming target code))
    (hr : ν.before.resume b ν.call.thread code ν.control = (m, .panic y))
    (hl : l.flatMap Moment.failures = [])
    (h : (Notifying.cleaning target y).Moves b μ.before μ.call.thread p μ.control μ.next
      μ.failures) :
    Phase b p (l ++ [μ]) (μ.next.own μ.frame) := by
  have hν' : ν ∈ l ++ [μ] := List.mem_append_left _ hν
  generalize hn : μ.next = n, hfs : μ.failures = fs at h
  rw [← hn]
  cases h with
  | run hs => cases hs
  | result hr => cases hr
  | panic hx => cases hx
  | cleaned => exact over_concat (.cleaned hν' hf' hr) hl hfs (by rw [hn]; rfl) (by rw [hn]; rfl)
  | ask he => cases he
  | decide hd => cases hd
  | abort => exact .cleaning (by rw [hn, hf]; rfl) hν' hf' hr (by rw [flatMap_concat hl, hfs])

/-- The failure goes on being judged, or is, or the policy panics. -/
theorem of_judging {e : ListenerError} {ν : Moment H} {s' : Notifying H}
    (hf : μ.frame = .notifying p s) (hs : s.failure? = some e) (hν : ν ∈ l)
    (hf' : ν.frame = .notifying p s')
    (hr : s'.Results b ν.before ν.call.thread ν.control (.error e))
    (hl : l.flatMap Moment.failures = [])
    (h : s.Moves b μ.before μ.call.thread p μ.control μ.next μ.failures) :
    Phase b p (l ++ [μ]) (μ.next.own μ.frame) := by
  have hmem : μ ∈ l ++ [μ] := List.mem_concat_self
  have hν' : ν ∈ l ++ [μ] := List.mem_append_left _ hν
  generalize hn : μ.next = n, hfs : μ.failures = fs at h
  rw [← hn]
  cases h with
  | run hrun => rw [Notifying.failure?_of_isRunning hrun] at hs; cases hs
  | clean | cleaned => cases hs
  | result hres => cases hres <;> cases hs
  | panic hx => exact over_concat (.panicked hmem hf hx) hl hfs (by rw [hn]; rfl) (by rw [hn]; rfl)
  | ask he he' hown =>
    obtain rfl : e = _ := Option.some.inj (hs.symm.trans he)
    exact .judging (by rw [hf, hn]; exact hown) he' hν' hf' hr (by rw [flatMap_concat hl, hfs])
  | @decide _ e' d hd =>
    obtain rfl : e = e' := by cases hd <;> exact (Option.some.inj hs).symm
    exact over_concat (.judged hν' hf' hr hmem hf hd) hl hfs (by rw [hn]; rfl) (by rw [hn]; rfl)
  | abort => cases hs

end Phase

namespace Chronicle

variable {c : Chronicle H} {p : PromiseId}

/-- How far a notification has come along its path. -/
theorem Path.phase (hc : c.Reached b) {s : Notifying H} {l : List (Moment H)} {x : Option (Frame H)}
    (hp : c.Path (.notifying p s) l x) (hs : s.isRunning = true) : Phase b p l x := by
  induction hp with
  | nil => exact .running rfl hs rfl
  | @snoc l μ _ hμ _ ih =>
    have hsound := (hc.sound μ hμ).1
    cases ih with
    | running hx hs' hl =>
      have hf := Option.some.inj hx
      exact .of_running hf hs' hl (hsound.notifying hf)
    | cleaning hx hν hf' hr hl =>
      have hf := Option.some.inj hx
      exact .of_cleaning hf hν hf' hr hl (hsound.notifying hf)
    | judging hx he hν hf' hr hl =>
      have hf := Option.some.inj hx
      exact .of_judging hf he hν hf' hr hl (hsound.notifying hf)
    | ended hx => cases hx

theorem isRunning_begin (l : Listener H) : (l.begin p).isRunning = true := by
  cases l <;> rfl

/-- A notification is still in progress, or it is over with a fate. -/
theorem Reached.notified (hc : c.Reached b) {μ : Moment H} (hμ : μ ∈ c.past) {l : Listener H}
    (hn : μ.next.callee? = some (.notifying p (l.begin p))) :
    Phase b p (c.moments μ.entered) (c.frame? μ.entered) :=
  (hc.path μ hμ _ hn rfl).phase hc (isRunning_begin l)

end Chronicle

end OneShot
