import OneShot.Proofs.Completion.Ending
import OneShot.Proofs.Times.Clock

/-!
# What a completion lets others see

The winner of a promise reads the clock, opens the latch, takes and calls the wakers, writes to the
log, takes the listeners out and notifies them. This module takes these deeds out of a run, whatever
lies between them, and says in which order they stand.

- **Deeds** (`Deed`, `Moment.deeds`): what the completion calls of a promise do at a moment. What is
  logged is read off the log, whoever has written it.
- **The order** (`Deed.opening`, `Deed.waking`, `Deed.tracing`, `Deed.delivering`): each of these
  lists goes on from the one before it.
- **The course** (`Completing.Course`, `Reached.course`): at each stage the winner has done so much
  of that.
-/

namespace OneShot

variable {H : Host} {b : Behaviour H}

/-! ## Deeds -/

/-- What a completion of a promise does for others to see, and what it takes out in between. -/
inductive Deed (H : Host) where
  /-- The clock has told something. -/
  | read (reading : UInt64)
  /-- The latch is opened at a time. -/
  | opened (time : UInt64)
  /-- The wakers of all waits that have registered are taken. -/
  | took (wakers : List (H.Closure .waker))
  /-- A waker is called. -/
  | woke (waker : H.Closure .waker)
  /-- The completion is logged, after this many milliseconds. -/
  | traced (duration : UInt64)
  /-- All listeners are taken. -/
  | drained (listeners : List (Listener H))
  /-- A listener is notified. -/
  | ran (l : Listener H)

/-- How long the completion of `p` took, if the record tells of it. -/
def LogRecord.completed? (p : PromiseId) : LogRecord → Option UInt64
  | completed q _ duration => if q = p then some duration else none
  | _ => none

/-- How long the completion of `p` took, if the entry tells of it. -/
def Entry.completed? (p : PromiseId) : Entry H → Option UInt64
  | library r => r.completed? p
  | program _ => none

/-- What a completion call of `pr` does at a stage, if its clock tells `reading` then. -/
def Completing.deed? (pr : Promise H) (reading : Option UInt64) : Completing H → Option (Deed H)
  | stamp _ => reading.map .read
  | openLatch time => some (.opened time)
  | takeWakers => some (.took (pr.wakers.data.entries.map Prod.snd))
  | wake (x :: _) => some (.woke x)
  | drain => some (.drained pr.listeners.data.toList)
  | deliver (l :: _) => some (.ran l)
  | _ => none

/-- What a completion call of `pr` logs at a stage. -/
def Completing.traces (pr : Promise H) : Completing H → List UInt64
  | announce => [pr.endTime - pr.startTime]
  | _ => []

namespace Moment

/-- What is logged of the completion of `p` at a moment. -/
def traces (p : PromiseId) (μ : Moment H) : List UInt64 :=
  (μ.after.log.toList.drop μ.before.log.size).filterMap (Entry.completed? p)

/-- What a completion call of `p` does at a moment. -/
def deed? (b : Behaviour H) (p : PromiseId) (μ : Moment H) : Option (Deed H) :=
  match μ.frame with
  | .completing q s =>
    if q = p then (μ.before.cells? p).bind fun pr => s.deed? pr (μ.clocked? b) else none
  | _ => none

/-- What is done at a moment to complete `p`. -/
def deeds (b : Behaviour H) (p : PromiseId) (μ : Moment H) : List (Deed H) :=
  (μ.deed? b p).toList ++ (μ.traces p).map .traced

variable {μ : Moment H} {p : PromiseId} {s : Completing H} {pr : Promise H}

/-- Only a completion call does something to complete a promise. -/
theorem exists_of_deed? {d : Deed H} (h : μ.deed? b p = some d) :
    ∃ s pr, μ.frame = .completing p s ∧ s.deed? pr (μ.clocked? b) = some d := by
  unfold deed? at h
  split at h
  · rename_i q s hf
    split at h
    · rename_i hq
      obtain ⟨pr, -, hd⟩ := Option.bind_eq_some_iff.1 h
      exact ⟨s, pr, hq ▸ hf, hd⟩
    · cases h
  · cases h

theorem traces_of_grows {r : Option LogRecord} {x : Option (Promise H)}
    (h : μ.before.Grows μ.after r x) :
    μ.traces p = r.toList.filterMap (LogRecord.completed? p) := by
  obtain ⟨es, hl⟩ := h.log
  have hnil : (es.map Entry.program).filterMap (Entry.completed? (H := H) p) = [] := by
    refine List.filterMap_eq_nil_iff.2 fun e he => ?_
    obtain ⟨_, -, rfl⟩ := List.mem_map.1 he
    rfl
  rw [traces, hl, ← Array.length_toList, List.drop_left, List.filterMap_append, hnil,
    List.filterMap_map, List.nil_append]
  rfl

/-- Nothing but the announcement of `p` logs that `p` has completed. -/
theorem Sound.traces_of_ne (h : μ.Sound b) (hf : μ.frame ≠ .completing p .announce) :
    μ.traces p = [] := by
  obtain ⟨r, x, hg, hx⟩ := h.grows
  rw [traces_of_grows hg]
  generalize hf' : μ.frame = f at hx
  cases hx with
  | @announce q pr hp =>
    have hq : q ≠ p := fun hq => hf (hf'.trans (hq ▸ rfl))
    simp [LogRecord.completed?, hq]
  | _ => rfl

/-- What a completion call logs. -/
theorem Sound.traces_eq (h : μ.Sound b) (hf : μ.frame = .completing p s)
    (hp : μ.before.cells? p = some pr) : μ.traces p = s.traces pr := by
  by_cases hs : s = .announce
  · subst hs
    obtain ⟨pr₀, hp₀, rfl⟩ := Option.map_eq_some_iff.1 hp
    have hk := h.control
    cases h.made with
    | wake _ hf' => rw [hf] at hf'; cases hf'
    | step _ _ hm ha =>
      rw [hf] at hm hk
      have hm := Machine.eq_of_runStage_promise hm hp₀ (hk.resolve_right Bool.false_ne_true)
      have hg : μ.before.Grows μ.after (some (.completed p (μ.before.display p)
          (pr₀.endTime - pr₀.startTime))) none := by
        rw [ha, ← (Prod.mk.inj (Option.some.inj hm)).1]
        exact .proceed (.of_record _)
      rw [traces_of_grows hg]
      simp [LogRecord.completed?, Completing.traces, Promise.bare, Promise.endTime]
  · rw [h.traces_of_ne fun he => hs (by rw [hf] at he; cases he; rfl)]
    cases s <;> first | rfl | exact absurd rfl hs

theorem Sound.deeds_eq (h : μ.Sound b) (hf : μ.frame = .completing p s)
    (hp : μ.before.cells? p = some pr) :
    μ.deeds b p = (s.deed? pr (μ.clocked? b)).toList ++ (s.traces pr).map .traced := by
  rw [deeds, h.traces_eq hf hp, deed?, hf]
  simp [hp]

theorem Sound.deeds_of_ne (h : μ.Sound b) (hf : ∀ s, μ.frame ≠ .completing p s) :
    μ.deeds b p = [] := by
  have hnone : μ.deed? b p = none := Option.eq_none_iff_forall_ne_some.2 fun d hd => by
    obtain ⟨s, -, hs, -⟩ := exists_of_deed? hd
    exact hf s hs
  rw [deeds, hnone, h.traces_of_ne (hf _)]
  rfl

theorem Sound.deeds_of_claim (h : μ.Sound b) {o : Outcome}
    (hf : μ.frame = .completing p (.claim o)) : μ.deeds b p = [] := by
  rw [deeds, h.traces_of_ne (by rw [hf]; nofun), deed?, hf]
  cases μ.before.cells? p <;> simp [Completing.deed?]

/-- What is read is told by the clock of a completion call. -/
theorem read_of_mem_deeds {reading : UInt64} (h : .read reading ∈ μ.deeds b p) :
    ∃ code, μ.frame = .completing p (.stamp code) ∧ μ.clocked? b = some reading := by
  rcases List.mem_append.1 h with h | h
  · obtain ⟨s, pr, hf, hd⟩ := exists_of_deed? (Option.mem_toList.1 h)
    unfold Completing.deed? at hd
    split at hd
    · obtain ⟨r, hr, hread⟩ := Option.map_eq_some_iff.1 hd
      cases hread
      exact ⟨_, hf, hr⟩
    all_goals cases hd
  · obtain ⟨_, -, hd⟩ := List.mem_map.1 h
    cases hd

end Moment

/-! ## The order -/

namespace Deed

variable (pr : Promise H) (reading : UInt64)

/-- The clock is read once, and then the latch is opened. -/
def opening : List (Deed H) := [.read reading, .opened pr.endTime]

/-- Then the wakers are taken, and of these `called` have been called. -/
def waking (taken called : List (H.Closure .waker)) : List (Deed H) :=
  opening pr reading ++ .took taken :: called.map .woke

/-- When all have been called, the completion is logged. -/
def tracing (taken : List (H.Closure .waker)) : List (Deed H) :=
  waking pr reading taken taken ++ [.traced (pr.endTime - pr.startTime)]

/-- Then the listeners are taken, and of these `notified` have been notified. -/
def delivering (taken : List (H.Closure .waker)) (drained notified : List (Listener H)) :
    List (Deed H) :=
  tracing pr reading taken ++ .drained drained :: notified.map .ran

/-- What the clock has told, if that is the deed. -/
def reading? : Deed H → Option UInt64
  | read r => some r
  | _ => none

theorem readings_waking (ws ws' : List (H.Closure .waker)) :
    (waking pr reading ws ws').filterMap reading? = [reading] := by
  simp [waking, opening, reading?]

theorem readings_tracing (ws : List (H.Closure .waker)) :
    (tracing pr reading ws).filterMap reading? = [reading] := by
  rw [tracing, List.filterMap_append, readings_waking]
  rfl

theorem readings_delivering (ws : List (H.Closure .waker)) (ls ls' : List (Listener H)) :
    (delivering pr reading ws ls ls').filterMap reading? = [reading] := by
  rw [delivering, List.filterMap_append, readings_tracing]
  simp [reading?]

/-- How long the completion took, if the deed is to log that. -/
def traced? : Deed H → Option UInt64
  | traced duration => some duration
  | _ => none

theorem traces_delivering (ws : List (H.Closure .waker)) (ls ls' : List (Listener H)) :
    (delivering pr reading ws ls ls').filterMap traced? = [pr.endTime - pr.startTime] := by
  simp [delivering, tracing, waking, opening, traced?, List.filterMap_cons, Function.comp_def]

variable {pr reading}

/-- As long as wakers are called, the log and the listeners are still to come. -/
theorem prefix_waking (ws rest : List (H.Closure .waker)) (ls : List (Listener H)) :
    waking pr reading (ws ++ rest) ws <+: delivering pr reading (ws ++ rest) ls ls := by
  have hall : waking pr reading (ws ++ rest) ws <+:
      waking pr reading (ws ++ rest) (ws ++ rest) := by
    rw [waking, waking, List.map_append]
    exact (List.prefix_append_right_inj _).2 ((List.prefix_cons_inj _).2 (List.prefix_append _ _))
  exact (hall.trans (List.prefix_append _ _)).trans (List.prefix_append _ _)

theorem prefix_opening (ws : List (H.Closure .waker)) (ls : List (Listener H)) :
    opening pr reading <+: delivering pr reading ws ls ls :=
  (List.prefix_append _ _).trans (prefix_waking [] ws ls)

theorem prefix_tracing (ws : List (H.Closure .waker)) (ls : List (Listener H)) :
    tracing pr reading ws <+: delivering pr reading ws ls ls :=
  List.prefix_append _ _

/-- As long as listeners are notified, the rest of them is still to come. -/
theorem prefix_delivering (ws : List (H.Closure .waker)) (ls rest : List (Listener H)) :
    delivering pr reading ws (ls ++ rest) ls <+:
      delivering pr reading ws (ls ++ rest) (ls ++ rest) := by
  rw [delivering, delivering, List.map_append]
  exact (List.prefix_append_right_inj _).2 ((List.prefix_cons_inj _).2 (List.prefix_append _ _))

variable (pr reading)

theorem waking_concat (ws rest : List (H.Closure .waker)) (w : H.Closure .waker) :
    waking pr reading (ws ++ w :: rest) ws ++ [.woke w] =
      waking pr reading ((ws ++ [w]) ++ rest) (ws ++ [w]) := by
  simp [waking]

theorem delivering_concat (ws : List (H.Closure .waker)) (ls rest : List (Listener H))
    (l : Listener H) : delivering pr reading ws (ls ++ l :: rest) ls ++ [.ran l] =
      delivering pr reading ws ((ls ++ [l]) ++ rest) (ls ++ [l]) := by
  simp [delivering]

end Deed

/-- What the winner of `pr` has done when it comes to a stage. -/
inductive Completing.Course (pr : Promise H) : List (Deed H) → Completing H → Prop
  | store {o} : Course pr [] (.store o)
  | stamp {code} : Course pr [] (.stamp code)
  | lockGate {r} : Course pr [.read r] (.lockGate (pr.stamp r))
  | openLatch {r} : Course pr [.read r] (.openLatch (pr.stamp r))
  | notify {r} (hr : pr.endTime = pr.stamp r) : Course pr (Deed.opening pr r) .notify
  | lockWakers {r} (hr : pr.endTime = pr.stamp r) : Course pr (Deed.opening pr r) .lockWakers
  | takeWakers {r} (hr : pr.endTime = pr.stamp r) : Course pr (Deed.opening pr r) .takeWakers
  | wake {r ws rest} (hr : pr.endTime = pr.stamp r) :
    Course pr (Deed.waking pr r (ws ++ rest) ws) (.wake rest)
  | waking {r ws rest code} (hr : pr.endTime = pr.stamp r) :
    Course pr (Deed.waking pr r (ws ++ rest) ws) (.waking code rest)
  | announce {r ws} (hr : pr.endTime = pr.stamp r) : Course pr (Deed.waking pr r ws ws) .announce
  | lockListeners {r ws} (hr : pr.endTime = pr.stamp r) :
    Course pr (Deed.tracing pr r ws) .lockListeners
  | drain {r ws} (hr : pr.endTime = pr.stamp r) : Course pr (Deed.tracing pr r ws) .drain
  | deliver {r ws ls rest} (hr : pr.endTime = pr.stamp r) :
    Course pr (Deed.delivering pr r ws (ls ++ rest) ls) (.deliver rest)
  | delivering {r ws ls rest} (hr : pr.endTime = pr.stamp r) :
    Course pr (Deed.delivering pr r ws (ls ++ rest) ls) (.delivering rest)

namespace Completing.Course

variable {pr pr' : Promise H} {ds : List (Deed H)} {s : Completing H} {p : PromiseId}

/-- A promise that was not taken back is on the same course. -/
theorem climbs (h : Course pr ds s) (hcl : pr.Climbs pr') : Course pr' ds s := by
  -- The course shows the end time and what it is reckoned from, and neither changes.
  have hstamp : ∀ r, pr'.stamp r = pr.stamp r := fun r => by
    rw [Promise.stamp, Promise.stamp, hcl.startTime]
  have hopening : ∀ r, pr.endTime = pr.stamp r →
      pr'.endTime = pr'.stamp r ∧ Deed.opening pr' r = Deed.opening pr r := fun r hr => by
    have hend := hcl.endTime (by rw [hr]; exact pr.stamp_ne_zero r)
    exact ⟨by rw [hend, hr, hstamp], by rw [Deed.opening, Deed.opening, hend]⟩
  have hwaking : ∀ r, pr.endTime = pr.stamp r → ∀ ws ws',
      Deed.waking pr' r ws ws' = Deed.waking pr r ws ws' := fun r hr ws ws' => by
    rw [Deed.waking, Deed.waking, (hopening r hr).2]
  have htracing : ∀ r, pr.endTime = pr.stamp r → ∀ ws,
      Deed.tracing pr' r ws = Deed.tracing pr r ws := fun r hr ws => by
    rw [Deed.tracing, Deed.tracing, hwaking r hr, (hopening r hr).1, hstamp, ← hr, hcl.startTime]
  have hdelivering : ∀ r, pr.endTime = pr.stamp r → ∀ ws ls ls',
      Deed.delivering pr' r ws ls ls' = Deed.delivering pr r ws ls ls' := fun r hr ws ls ls' => by
    rw [Deed.delivering, Deed.delivering, htracing r hr]
  cases h with
  | store => exact .store
  | stamp => exact .stamp
  | lockGate => rw [← hstamp]; exact .lockGate
  | openLatch => rw [← hstamp]; exact .openLatch
  | notify hr => rw [← (hopening _ hr).2]; exact .notify (hopening _ hr).1
  | lockWakers hr => rw [← (hopening _ hr).2]; exact .lockWakers (hopening _ hr).1
  | takeWakers hr => rw [← (hopening _ hr).2]; exact .takeWakers (hopening _ hr).1
  | wake hr => rw [← hwaking _ hr]; exact .wake (hopening _ hr).1
  | waking hr => rw [← hwaking _ hr]; exact .waking (hopening _ hr).1
  | announce hr => rw [← hwaking _ hr]; exact .announce (hopening _ hr).1
  | lockListeners hr => rw [← htracing _ hr]; exact .lockListeners (hopening _ hr).1
  | drain hr => rw [← htracing _ hr]; exact .drain (hopening _ hr).1
  | deliver hr => rw [← hdelivering _ hr]; exact .deliver (hopening _ hr).1
  | delivering hr => rw [← hdelivering _ hr]; exact .delivering (hopening _ hr).1

/-! ## What the deeds tell -/

/-- Once the latch has been opened, the clock has been read once, and the end time stands for what
it has told. -/
theorem of_opened {time : UInt64} (h : Course pr ds s) (ht : .opened time ∈ ds) :
    ∃ r, ds.filterMap Deed.reading? = [r] ∧ pr.endTime = pr.stamp r := by
  cases h with
  | store | stamp => cases ht
  | lockGate | openLatch => simp at ht
  | notify hr | lockWakers hr | takeWakers hr => exact ⟨_, rfl, hr⟩
  | wake hr | waking hr | announce hr => exact ⟨_, Deed.readings_waking .., hr⟩
  | lockListeners hr | drain hr => exact ⟨_, Deed.readings_tracing .., hr⟩
  | deliver hr | delivering hr => exact ⟨_, Deed.readings_delivering .., hr⟩

/-- What is logged is how long the completion took. -/
theorem of_traced {d : UInt64} (h : Course pr ds s) (hd : .traced d ∈ ds) :
    pr.endTime ≠ 0 ∧ d = pr.endTime - pr.startTime := by
  have hend : ∀ r, pr.endTime = pr.stamp r → pr.endTime ≠ 0 := fun r hr => by
    rw [hr]
    exact pr.stamp_ne_zero r
  cases h with
  | store | stamp => cases hd
  | lockGate | openLatch => simp at hd
  | notify | lockWakers | takeWakers => simp [Deed.opening] at hd
  | wake | waking | announce => simp [Deed.opening, Deed.waking] at hd
  | lockListeners hr | drain hr =>
    exact ⟨hend _ hr, by simpa [Deed.opening, Deed.waking, Deed.tracing] using hd⟩
  | deliver hr | delivering hr =>
    exact ⟨hend _ hr, by
      simpa [Deed.opening, Deed.waking, Deed.tracing, Deed.delivering] using hd⟩

/-- The deeds are those of a whole completion, up to some place. -/
theorem isPrefix (h : Course pr ds s) : ∃ r ws ls, ds <+: Deed.delivering pr r ws ls ls := by
  cases h with
  | store | stamp => exact ⟨0, [], [], List.nil_prefix⟩
  | @lockGate r | @openLatch r =>
    have hread : [Deed.read r] <+: Deed.opening pr r := List.prefix_append _ _
    exact ⟨r, [], [], hread.trans (Deed.prefix_opening [] [])⟩
  | notify | lockWakers | takeWakers => exact ⟨_, [], [], Deed.prefix_opening [] []⟩
  | @wake r ws rest | @waking r ws rest => exact ⟨r, ws ++ rest, [], Deed.prefix_waking ws rest []⟩
  | @announce r ws =>
    have hpre : Deed.waking pr r (ws ++ []) ws <+: Deed.delivering pr r (ws ++ []) [] [] :=
      Deed.prefix_waking ws [] []
    rw [List.append_nil] at hpre
    exact ⟨r, ws, [], hpre⟩
  | lockListeners | drain => exact ⟨_, _, [], Deed.prefix_tracing _ []⟩
  | @deliver r ws ls rest | @delivering r ws ls rest =>
    exact ⟨r, ws, ls ++ rest, Deed.prefix_delivering ws ls rest⟩

/-- Once the listeners are taken, all that comes before has been done. -/
theorem of_drained {ls : List (Listener H)} (h : Course pr ds s) (hd : .drained ls ∈ ds) :
    ∃ r ws ls', pr.endTime = pr.stamp r ∧ ls' <+: ls ∧ ds = Deed.delivering pr r ws ls ls' := by
  cases h with
  | store | stamp => cases hd
  | lockGate | openLatch => simp at hd
  | notify | lockWakers | takeWakers => simp [Deed.opening] at hd
  | wake | waking | announce => simp [Deed.opening, Deed.waking] at hd
  | lockListeners | drain => simp [Deed.opening, Deed.waking, Deed.tracing] at hd
  | @deliver r ws ls' rest hr | @delivering r ws ls' rest hr =>
    obtain rfl : ls = ls' ++ rest := by
      simpa [Deed.opening, Deed.waking, Deed.tracing, Deed.delivering] using hd
    exact ⟨r, ws, ls', hr, List.prefix_append _ _, rfl⟩

/-! ## The steps of the winner -/

/-- After the deeds `ds` the winner is over, or at the stage to which these belong. -/
def Onward (pr : Promise H) (p : PromiseId) (f : Frame H) (ds : List (Deed H)) (n : Next H) :
    Prop :=
  ∃ s, Course pr ds s ∧ ∀ g, n.own f = some g → g = .completing p s

section

variable {f : Frame H} {n : Next H}

theorem onward (h : Course pr ds s) (hn : n.own f = some (.completing p s)) :
    Onward pr p f ds n :=
  ⟨s, h, fun _ hg => Option.some.inj (hg.symm.trans hn)⟩

/-- A step that nobody sees. -/
theorem onward_append_nil (h : Course pr ds s) (hn : n.own f = some (.completing p s)) :
    Onward pr p f (ds ++ []) n :=
  onward (by rwa [List.append_nil]) hn

/-- The last step, which nobody sees. -/
theorem of_last (h : Course pr ds s) (hn : n.own f = none) : Onward pr p f (ds ++ []) n :=
  ⟨s, by rwa [List.append_nil], fun g hg => by rw [hn] at hg; cases hg⟩

end

/-- The winner keeps to its course. What the clock tells, if it tells something, is what the latch
is opened at. -/
theorem moves {k : Control} {n : Next H} {x : Option UInt64} (h : Course pr ds s)
    (hm : s.Moves p pr k n pr') (hcl : pr.Climbs pr')
    (hx : ∀ code, s = .stamp code →
      (∃ r, x = some r ∧ n = .goto (.completing p (.lockGate (pr.stamp r)))) ∨
        x = none ∧ ∀ time, n.own (.completing p s) ≠ some (.completing p (.lockGate time))) :
    Onward pr' p (.completing p s)
      (ds ++ ((s.deed? pr x).toList ++ (s.traces pr).map .traced)) n := by
  have hsame := h.climbs hcl
  -- One case a move: its deed takes the course to the stage that the move leads to.
  cases hm with
  | win | lose => cases h
  | store => cases h; exact onward_append_nil .stamp rfl
  | twice => cases h; exact of_last hsame rfl
  | stampCall | stampStay =>
    obtain ⟨r, -, hn⟩ | ⟨rfl, -⟩ := hx _ rfl
    · cases hn
    · cases h; exact onward_append_nil .stamp rfl
  | stampPanic =>
    obtain ⟨r, -, hn⟩ | ⟨rfl, -⟩ := hx _ rfl
    · cases hn
    · cases h; exact of_last hsame rfl
  | stampDone reading =>
    obtain ⟨r, rfl, hn⟩ | ⟨-, hn⟩ := hx _ rfl
    · cases h
      rw [hn]
      exact onward .lockGate rfl
    · exact absurd rfl (hn _)
  | lockGate => cases h; exact onward_append_nil .openLatch rfl
  | openLatch => cases h; exact onward (.notify rfl) rfl
  | notify => cases h with | notify hr => exact onward_append_nil (.lockWakers hr) rfl
  | lockWakers => cases h with | lockWakers hr => exact onward_append_nil (.takeWakers hr) rfl
  | takeWakers =>
    cases h with
    | @takeWakers r hr =>
      have hwake : Course { pr with wakers := { data := pr.wakers.data.takeAll.1 } }
          (Deed.waking _ r ([] ++ pr.wakers.data.entries.map Prod.snd) [])
          (.wake (pr.wakers.data.entries.map Prod.snd)) := .wake hr
      exact onward hwake rfl
  | woken =>
    cases h with
    | @wake r ws _ hr =>
      have hannounce : Course pr (Deed.waking pr r (ws ++ []) ws) .announce := by
        rw [List.append_nil]
        exact .announce hr
      exact onward_append_nil hannounce rfl
  | @wake w rest =>
    cases h with
    | @wake r ws _ hr =>
      have hwaking : ∀ code, Course pr (Deed.waking pr r (ws ++ w :: rest) ws ++ [.woke w])
          (.waking code rest) := fun code => by
        rw [Deed.waking_concat]
        exact .waking hr
      exact onward (hwaking _) rfl
  | wakeCall | wakeStay => cases h with | waking hr => exact onward_append_nil (.waking hr) rfl
  | wakeDone => cases h with | waking hr => exact onward_append_nil (.wake hr) rfl
  | announce => cases h with | announce hr => exact onward (.lockListeners hr) rfl
  | lockListeners => cases h with | lockListeners hr => exact onward_append_nil (.drain hr) rfl
  | drain =>
    cases h with
    | @drain r ws hr =>
      have hdeliver : Course { pr with listeners := { data := pr.listeners.data.drain.1 } }
          (Deed.delivering _ r ws ([] ++ pr.listeners.data.toList) [])
          (.deliver pr.listeners.data.toList) := .deliver hr
      exact onward hdeliver rfl
  | @deliver l rest =>
    cases h with
    | @deliver r ws ls _ hr =>
      have hdelivering : Course pr (Deed.delivering pr r ws (ls ++ l :: rest) ls ++ [.ran l])
          (.delivering rest) := by
        rw [Deed.delivering_concat]
        exact .delivering hr
      exact onward hdelivering rfl
  | delivered => cases h with | delivering hr => exact onward_append_nil (.deliver hr) rfl
  | wakePanic | finish | propagate | pass => exact of_last hsame rfl

end Completing.Course

namespace Chronicle

variable {c : Chronicle H} {μ : Moment H} {p : PromiseId} {w : CallId} {o : Outcome} {r : Progress}

/-- What has been done so far to complete `p`. -/
def deeds (b : Behaviour H) (c : Chronicle H) (p : PromiseId) : List (Deed H) :=
  c.past.flatMap (Moment.deeds b p)

theorem deeds_record : (c.record μ).deeds b p = c.deeds b p ++ μ.deeds b p := by
  simp [deeds]

theorem Unclaimed.deeds (hc : c.Reached b) (hu : c.Unclaimed p) : c.deeds b p = [] :=
  List.flatMap_eq_nil_iff.2 fun μ hμ => (hc.sound μ hμ).1.deeds_of_ne (hu.past μ hμ)

theorem Won.deeds_of_ne (hc : c.Reached b) (h : c.Extends b μ) (hw : c.Won p w o r)
    (hi : μ.call ≠ w) : μ.deeds b p = [] := by
  have hsound := h.sound hc.tracked
  by_cases hf : ∃ s, μ.frame = .completing p s
  · obtain ⟨s, hf⟩ := hf
    obtain ⟨o', rfl⟩ := hw.claims hc.tracked h hi hf
    exact hsound.deeds_of_claim hf
  · exact hsound.deeds_of_ne fun s hs => hf ⟨s, hs⟩

/-- How far the winner of `p` has come, and what it has done. -/
def OnCourse (b : Behaviour H) (c : Chronicle H) (p : PromiseId) (w : CallId) : Prop :=
  ∃ pr s, c.machine.cells? p = some pr ∧ Completing.Course pr (c.deeds b p) s ∧
    ∀ f, c.frame? w = some f → f = .completing p s

/-- The winner goes on along its course. -/
theorem OnCourse.go (hc : c.Reached b) (h : c.Extends b μ) (ho : c.OnCourse b p μ.call) :
    (c.record μ).OnCourse b p μ.call := by
  obtain ⟨pr, s, hp, hcourse, hs⟩ := ho
  have hf := hs _ (h.frame? hc.tracked)
  have hsound := h.sound hc.tracked
  obtain ⟨pr', hp', hm⟩ := h.completing hc.tracked hf hp
  obtain ⟨pr'', hp'', hcl⟩ := h.climbs hc hp
  obtain rfl := Option.some.inj (hp'.symm.trans hp'')
  rw [← h.before] at hp
  have hnext := hcourse.moves (x := μ.clocked? b) hm hcl fun code hcode => by
    obtain ⟨reading, pr₀, hr, hp₀, hn⟩ | hn := hsound.stamping (hcode ▸ hf)
    · obtain rfl := Option.some.inj (hp₀.symm.trans hp)
      exact .inl ⟨reading, hr, hn⟩
    · exact .inr (hf ▸ hn)
  rw [← hsound.deeds_eq hf hp, ← deeds_record] at hnext
  obtain ⟨s', hcourse', hs'⟩ := hnext
  refine ⟨pr', s', hp', hcourse', fun f hf' => hs' f ?_⟩
  rw [← hf, ← frame?_record_self hc.tracked h]
  exact hf'

/-- The moments of other calls leave the winner where it is. -/
theorem OnCourse.other (hc : c.Reached b) (h : c.Extends b μ) (hw : c.Won p w o r)
    (hi : μ.call ≠ w) (ho : c.OnCourse b p w) : (c.record μ).OnCourse b p w := by
  obtain ⟨pr, s, hp, hcourse, hs⟩ := ho
  obtain ⟨pr', hp', hcl⟩ := h.climbs hc hp
  have hw' := hw.other hc.tracked h hi
  refine ⟨pr', s, hp', ?_, fun f hf => ?_⟩
  · rw [deeds_record, hw.deeds_of_ne hc h hi, List.append_nil]
    exact hcourse.climbs hcl
  · obtain ⟨s', rfl, hat⟩ := hw'.winner f hf
    rcases completing_record hc.tracked h hf with ⟨_, hw, -⟩ | ⟨o', -, rfl⟩ | ⟨-, hold⟩
    · exact absurd hw.symm hi
    · cases hat
    · exact hs _ hold

/-- The winner of a promise is on its course, whatever else happens. -/
theorem Reached.course (hc : c.Reached b) (hw : c.Won p w o r) : c.OnCourse b p w := by
  induction c, hc using Reached.induction generalizing w o r with
  | start m hm => exact absurd ((unclaimed_start hm p).wins.symm.trans hw.wins) nofun
  | record c μ hc hμ hc' ih =>
    cases hc.contest p with
    | unclaimed hu =>
      by_cases hf : ∃ s, μ.frame = .completing p s
      · obtain ⟨s, hf⟩ := hf
        -- The claim: nothing has been done for the promise yet.
        obtain ⟨o', hw'⟩ := hu.claim hc.tracked hμ hf
        obtain ⟨rfl, -, -⟩ := hw'.unique hw
        obtain ⟨_, rfl⟩ := hu.calls μ.call s (by rw [← hf]; exact hμ.frame? hc.tracked)
        obtain ⟨pr, hp, -⟩ := hw'.cells
        refine ⟨pr, .store o', hp, ?_, fun f hf' => ?_⟩
        · rw [deeds_record, hu.deeds hc, (hμ.sound hc.tracked).deeds_of_claim hf]
          exact .store
        · rw [hw'.storing rfl] at hf'
          exact (Option.some.inj hf').symm
      · have hu' := hu.record hc.tracked hμ fun s hs => hf ⟨s, hs⟩
        exact absurd (hu'.wins.symm.trans hw.wins) nofun
    | won hw₀ =>
      obtain ⟨r', hw'⟩ := hw₀.record hc.tracked hμ
      obtain ⟨rfl, -, -⟩ := hw'.unique hw
      by_cases hi : μ.call = w
      · subst hi
        exact (ih hw₀).go hc hμ
      · exact (ih hw₀).other hc hμ hw₀ hi

theorem mem_deeds {d : Deed H} (hμ : μ ∈ c.past) (hd : d ∈ μ.deeds b p) : d ∈ c.deeds b p :=
  List.mem_flatMap.2 ⟨μ, hμ, hd⟩

theorem Reached.course_of_moment (hc : c.Reached b) (hμ : μ ∈ c.past) {s : Completing H}
    (hf : μ.frame = .completing p s) {pr : Promise H} (hp : c.machine.promise? p = some pr) :
    ∃ s', Completing.Course pr.bare (c.deeds b p) s' := by
  obtain ⟨w, o, r, hw⟩ := hc.exists_won hμ hf
  obtain ⟨pr', s', hp', hcourse, -⟩ := hc.course hw
  obtain rfl := Option.some.inj (hp'.symm.trans (Machine.cells?_eq_some hp))
  exact ⟨s', hcourse⟩

end Chronicle

end OneShot
