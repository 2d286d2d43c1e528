import Mathlib.Data.List.Basic
import OneShot.Proofs.Waking.Held

/-!
# The wakes of a completion

The winner of a promise takes its waker set when the latch is open, and calls the wakers that were
in it one after the other. For each wait that is pending then, one of them is what its polls have
left there.

- **Wakes** (`Chronicle.wakes`): the wakers that completion calls of a promise have called.
- **How the waking stands** (`Waking`, `Path.waking`): what was taken is what has been called and
  what is due.
- **The entry of a wait** (`EntryOf`, `Extends.exists_entryOf`).
- **Polls of a promise that is done** (`Reached.poll_of_isDone`).
- **All of it** (`wakes_each_wait_once`): every wait that is pending when the set is taken is woken
  by one of the wakes.
-/

namespace OneShot

variable {H : Host} {b : Behaviour H}

namespace Completing

/-- The wakers that are still due at a stage, once the set has been taken. -/
def due? : Completing H → Option (List (H.Closure .waker))
  | wake rest | waking _ rest => some rest
  | announce | lockListeners | drain | deliver _ | delivering _ => some []
  | _ => none

/-- The waker that is called at a stage. -/
def called? : Completing H → Option (H.Closure .waker)
  | wake (x :: _) => some x
  | _ => none

theorem called?_eq_none {s : Completing H} (h : s.due? = none) : s.called? = none := by
  cases s <;> first | rfl | cases h

end Completing

/-- The waker of a wait on `p` that a completion call calls at a moment. -/
def Moment.wake? (p : PromiseId) (μ : Moment H) : Option (H.Closure .waker) :=
  match μ.frame with
  | .completing q s => if q = p then s.called? else none
  | _ => none

/-- The wakers that completion calls of `p` have called, in that order. -/
def Chronicle.wakes (c : Chronicle H) (p : PromiseId) : List (H.Closure .waker) :=
  c.past.filterMap (Moment.wake? p)

/-- A waker that a completion call of `p` runs panics at a moment. -/
def Moment.WakerPanics (p : PromiseId) (μ : Moment H) : Prop :=
  ∃ code rest x, μ.frame = .completing p (.waking code rest) ∧ μ.next = .throw x

/-! ## How the waking stands -/

/-- How the waking by a completion call stands after the moments `l`, which include the take or do
not. -/
inductive Waking (p : PromiseId) (l : List (Moment H)) (x : Option (Frame H)) : Prop
  | earlier (hx : ∀ f, x = some f → ∃ s, f = .completing p s ∧ s.due? = none)
    (hl : l.filterMap (Moment.wake? p) = []) (ht : ∀ τ ∈ l, τ.frame ≠ .completing p .takeWakers)
  | later {ws rest} (ht : ∀ τ ∈ l, τ.frame = .completing p .takeWakers →
      τ.next = .goto (.completing p (.wake ws)))
    (hl : ws = l.filterMap (Moment.wake? p) ++ rest)
    (hx : ∀ f, x = some f → ∃ s, f = .completing p s ∧ s.due? = some rest)
    (hn : x = none → rest = [] ∨ ∃ ν ∈ l, ν.WakerPanics p)

section

variable {p : PromiseId} {μ : Moment H} {s : Completing H} {pr pr' : Promise H} {k : Control}
  {n : Next H}

theorem Moment.wake?_of_frame (hf : μ.frame = .completing p s) : μ.wake? p = s.called? := by
  unfold wake?
  rw [hf]
  exact if_pos rfl

/-- A step before the take leads to a stage before it, or it is the take. -/
theorem Completing.Moves.before_take (h : s.Moves p pr k n pr') (hs : s.due? = none)
    (ht : s ≠ .takeWakers) :
    ∀ f, n.own (.completing p s) = some f → ∃ s', f = .completing p s' ∧ s'.due? = none := by
  intro f hf
  cases h <;> cases hf <;> first | exact ⟨_, rfl, rfl⟩ | exact absurd rfl ht | cases hs

/-- A step after the take calls the first waker that is due, or none. -/
theorem Completing.Moves.due {rest : List (H.Closure .waker)} (h : s.Moves p pr k n pr')
    (hs : s.due? = some rest) : ∃ rest', rest = s.called?.toList ++ rest' ∧
      (∀ f, n.own (.completing p s) = some f → ∃ s', f = .completing p s' ∧ s'.due? = some rest') ∧
      (n.own (.completing p s) = none →
        rest' = [] ∨ ∃ code ws x, s = .waking code ws ∧ n = .throw x) := by
  cases h with
  | woken => cases hs; exact ⟨[], rfl, fun f hf => ⟨_, by cases hf; rfl, rfl⟩, nofun⟩
  | @wake w ws => cases hs; exact ⟨ws, rfl, fun f hf => ⟨_, by cases hf; rfl, rfl⟩, nofun⟩
  | wakeCall | wakeStay | wakeDone =>
    cases hs
    exact ⟨rest, rfl, fun f hf => ⟨_, by cases hf; rfl, rfl⟩, nofun⟩
  | wakePanic =>
    cases hs
    exact ⟨rest, rfl, nofun, fun _ => .inr ⟨_, _, _, rfl, rfl⟩⟩
  | announce | lockListeners | drain | deliver | delivered =>
    cases hs
    exact ⟨[], rfl, fun f hf => ⟨_, by cases hf; rfl, rfl⟩, nofun⟩
  | finish | propagate | pass =>
    cases hs
    exact ⟨[], rfl, nofun, fun _ => .inl rfl⟩
  | _ => cases hs

variable {l : List (Moment H)}

/-- How the waking stands after a step before the take. -/
theorem Waking.of_earlier (hf : μ.frame = .completing p s) (hs : s.due? = none)
    (hl : l.filterMap (Moment.wake? p) = []) (ht : ∀ τ ∈ l, τ.frame ≠ .completing p .takeWakers)
    (hm : s.Moves p pr μ.control μ.next pr') : Waking p (l ++ [μ]) (μ.next.own μ.frame) := by
  have hnil : (l ++ [μ]).filterMap (Moment.wake? p) = [] := by
    simp [hl, Moment.wake?_of_frame hf, Completing.called?_eq_none hs]
  -- The take makes the wakers due; before it nothing is.
  by_cases htk : s = .takeWakers
  · subst htk
    obtain ⟨ws, hn⟩ : ∃ ws, μ.next = .goto (.completing p (.wake ws)) := by
      generalize μ.next = n, μ.control = k at hm
      cases hm
      exact ⟨_, rfl⟩
    have ht' : ∀ τ ∈ l ++ [μ], τ.frame = .completing p .takeWakers →
        τ.next = .goto (.completing p (.wake ws)) :=
      List.forall_mem_append.2
        ⟨fun τ hτ hfτ => absurd hfτ (ht τ hτ), List.forall_mem_singleton.2 fun _ => hn⟩
    have hl' : ws = (l ++ [μ]).filterMap (Moment.wake? p) ++ ws := by rw [hnil, List.nil_append]
    rw [hn]
    exact .later ht' hl' (fun f hown => ⟨_, by cases hown; rfl, rfl⟩) nofun
  · have ht' : ∀ τ ∈ l ++ [μ], τ.frame ≠ .completing p .takeWakers :=
      List.forall_mem_append.2 ⟨ht, List.forall_mem_singleton.2 fun he => by
        rw [hf] at he
        exact htk (by cases he; rfl)⟩
    refine .earlier (fun f hown => ?_) hnil ht'
    rw [hf] at hown
    exact hm.before_take hs htk f hown

/-- How the waking stands after a step after the take. -/
theorem Waking.of_later {ws rest : List (H.Closure .waker)} (hf : μ.frame = .completing p s)
    (hs : s.due? = some rest) (hl : ws = l.filterMap (Moment.wake? p) ++ rest)
    (ht : ∀ τ ∈ l, τ.frame = .completing p .takeWakers → τ.next = .goto (.completing p (.wake ws)))
    (hm : s.Moves p pr μ.control μ.next pr') : Waking p (l ++ [μ]) (μ.next.own μ.frame) := by
  obtain ⟨rest', hrest, hown, hnone⟩ := hm.due hs
  have ht' : ∀ τ ∈ l ++ [μ], τ.frame = .completing p .takeWakers →
      τ.next = .goto (.completing p (.wake ws)) :=
    List.forall_mem_append.2 ⟨ht, List.forall_mem_singleton.2 fun he => by
      rw [hf] at he
      cases he
      cases hs⟩
  have hl' : ws = (l ++ [μ]).filterMap (Moment.wake? p) ++ rest' := by
    rw [List.filterMap_append, hl, hrest, List.append_assoc]
    cases hc : s.called? <;> simp [Moment.wake?_of_frame hf, hc]
  rw [hf]
  refine .later ht' hl' hown fun hn => ?_
  rcases hnone hn with hr | ⟨code, ws', x, rfl, hx⟩
  · exact .inl hr
  · exact .inr ⟨μ, List.mem_concat_self, code, ws', x, hf, hx⟩

end

namespace Chronicle

variable {c : Chronicle H} {p : PromiseId}

/-- How the waking stands along the path of a completion call. -/
theorem Path.waking (hc : c.Reached b) {o : Outcome} {l : List (Moment H)} {x : Option (Frame H)}
    (hp : c.Path (.completing p (.claim o)) l x) : Waking p l x := by
  induction hp with
  | nil =>
    refine .earlier (fun f hf => ?_) rfl fun τ hτ => by cases hτ
    cases hf
    exact ⟨_, rfl, rfl⟩
  | @snoc l μ hp hμ ht ih =>
    cases ih with
    | earlier hx hl ht =>
      obtain ⟨s, hf, hs⟩ := hx _ rfl
      obtain ⟨pr, pr', -, -, hm⟩ := hc.moved μ hμ p s hf
      exact .of_earlier hf hs hl ht hm
    | later ht hl hx _ =>
      obtain ⟨s, hf, hs⟩ := hx _ rfl
      obtain ⟨pr, pr', -, -, hm⟩ := hc.moved μ hμ p s hf
      exact .of_later hf hs hl ht hm

/-- What the winner has taken is what has been called and what is due. While something is due, the
winner is about to call it, unless a waker panicked. -/
theorem Reached.waking (hc : c.Reached b) {τ : Moment H} (hτ : τ ∈ c.past)
    (hf : τ.frame = .completing p .takeWakers) {pr : Promise H} (hp : τ.before.cells? p = some pr) :
    ∃ rest, pr.wakers.data.entries.map Prod.snd = c.wakes p ++ rest ∧
      (rest = [] ∨ (∃ ν ∈ c.past, ν.WakerPanics p) ∨
        ∃ s, c.frame? τ.call = some (.completing p s) ∧ s.due? = some rest) := by
  obtain ⟨w, o, r, hw⟩ := hc.exists_won hτ hf
  obtain rfl : τ.call = w := hw.call_eq hτ hf nofun
  -- The calls of wakers are stages past the claim, so all of them are the winner's.
  have hwakes : c.wakes p = (c.moments τ.call).filterMap (Moment.wake? p) := by
    refine hw.filterMap_moments fun μ hclaim => ?_
    unfold Moment.wake?
    split
    · rename_i q s hs
      split
      · rename_i hq
        obtain ⟨o', rfl⟩ := hclaim s (hq ▸ hs)
        rfl
      · rfl
    · rfl
  have hmem : τ ∈ c.moments τ.call := mem_moments.2 ⟨hτ, rfl⟩
  obtain ⟨o', hpath⟩ := hc.completing_path hτ hf
  cases hpath.waking hc with
  | earlier _ _ ht => exact absurd hf (ht τ hmem)
  | @later ws rest ht hl hx hn =>
    have hnext := ht τ hmem hf
    obtain ⟨pr₁, pr₂, hp₁, -, hm⟩ := hc.moved τ hτ p _ hf
    rw [hp] at hp₁
    cases hp₁
    have hws : pr.wakers.data.entries.map Prod.snd = ws := by
      rw [hnext] at hm
      generalize τ.control = k, hs : Completing.takeWakers = s at hm
      cases hm <;> cases hs
      rfl
    refine ⟨rest, by rw [hws, hl, hwakes], ?_⟩
    cases hfr : c.frame? τ.call with
    | some f =>
      obtain ⟨s, rfl, hs⟩ := hx f hfr
      exact .inr (.inr ⟨s, rfl, hs⟩)
    | none =>
      rcases hn hfr with hr | ⟨ν, hν, hpanic⟩
      · exact .inl hr
      · exact .inr (.inl ⟨ν, (mem_moments.1 hν).1, hpanic⟩)

/-- Only the winner calls wakers, and only when the promise is done. -/
theorem Reached.wake (hc : c.Reached b) {τ ν : Moment H} (hτ : τ ∈ c.past)
    (hf : τ.frame = .completing p .takeWakers) (hν : ν ∈ c.past) {x : H.Closure .waker}
    (hx : ν.wake? p = some x) : ν.call = τ.call ∧ ν.before.isDone p = true := by
  obtain ⟨s, hs, hcalled⟩ : ∃ s, ν.frame = .completing p s ∧ s.called? = some x := by
    unfold Moment.wake? at hx
    split at hx
    · rename_i q s hs
      split at hx
      · rename_i hq
        exact ⟨s, hq ▸ hs, hx⟩
      · cases hx
    · cases hx
  have hopened : s.isOpened = true := by cases s <;> first | rfl | cases hcalled
  obtain ⟨w, o, r, hw⟩ := hc.exists_won hτ hf
  refine ⟨?_, Machine.isDone_iff_cells?.2 (hc.isDone_of_opened ν hν s hs hopened)⟩
  have hclaim : ∀ o', s ≠ .claim o' := by
    rintro o' rfl
    cases hcalled
  rw [hw.call_eq hν hs hclaim, hw.call_eq hτ hf nofun]

/-- A call that has a waker to call can make its next step. -/
theorem Reached.waking_goes_on (hc : c.Reached b) {w : CallId} {s : Completing H}
    (hw : c.frame? w = some (.completing p s)) {rest : List (H.Closure .waker)}
    (hs : s.due? = some rest) (hne : rest ≠ []) (htop : (c.calls w.thread).head? = some w)
    (hab : c.machine.aborted = false) : ∃ m, c.machine.step b w.thread = some m := by
  obtain ⟨k, _, _, ht, hk, -⟩ := hc.top hw htop hab
  refine Machine.exists_step hab ht ?_
  cases s with
  | wake ws =>
    rw [hk.resolve_right Bool.false_ne_true]
    cases ws <;> rfl
  | waking code ws => exact Machine.isSome_runCode fun _ _ _ => rfl
  | announce | lockListeners | drain | deliver | delivering =>
    cases hs
    exact absurd rfl hne
  | _ => cases hs

/-! ## The entry of a wait -/

end Chronicle

/-- Of the entries `es` of the waker set of `p`, `(k, s)` is the one of wait `v`, as the moments `l`
and the machine `m` tell that they have led to. -/
structure EntryOf (p : PromiseId) (l : List (Moment H)) (m : Machine H) (v : WaitId)
    (es : List (Nat × H.Closure .waker)) (k : Nat) (s : H.Closure .waker) : Prop where
  /-- It is the only entry of its key. -/
  entry : es.filter (·.1 = k) = [(k, s)]
  /-- All polls of the wait that returned pending have used this key. -/
  own : ∀ e ∈ l.filterMap (Moment.pend? v), e.1 = k
  /-- No poll of another wait has used it. -/
  others : ∀ v' wait', m.wait? v' = some wait' → wait'.promise = p → v' ≠ v →
    ∀ e ∈ l.filterMap (Moment.pend? v'), e.1 ≠ k
  /-- Its waker came with one of the polls, and all later ones came with wakers of the same task. -/
  waker : ∃ ws us, (l.filterMap (Moment.pend? v)).map Prod.snd = ws ++ s :: us ∧
    ∀ u ∈ us, H.sameTask s u = true

namespace Chronicle

variable {c : Chronicle H} {p : PromiseId} {v : WaitId}

/-- The polls that leave their waker with the promise are those that return pending. -/
theorem Reached.pends_map_snd (hc : c.Reached b) (v : WaitId) : (c.pends v).map Prod.snd =
    (c.polls v).filterMap fun e => if e.2.isNone then some e.1 else none := by
  unfold pends polls
  rw [List.map_filterMap, List.filterMap_filterMap]
  refine List.filterMap_congr fun μ hμ => ?_
  by_cases hf : ∃ x s, μ.frame = .polling v x s
  · obtain ⟨x, s, hf⟩ := hf
    have hm := (hc.sound μ hμ).1.polling hf
    generalize hn : μ.next = n at hm
    cases hm with
    | ready hs =>
      rcases hs with rfl | rfl <;> simp [Moment.pend?, Moment.polled?, hf, hn]
    | pend _ _ _ hw' => simp [Moment.pend?, Moment.polled?, hf, hn, hw']
    | look | lock | refuse | closed => simp [Moment.pend?, Moment.polled?, hf, hn]
  · have hnone : μ.polled? v = none := by
      unfold Moment.polled?
      split
      · rename_i u x s r hu _
        rw [if_neg fun he : u = v => hf ⟨x, s, he ▸ hu⟩]
      · rfl
    rw [hnone, Moment.pend?_eq_none fun x he => hf ⟨x, _, he⟩]
    rfl

/-- The set of a promise is still there when it is taken. -/
theorem Extends.not_taken (hc : c.Reached b) {τ : Moment H} (h : c.Extends b τ)
    (hf : τ.frame = .completing p .takeWakers) :
    ∃ pr, c.machine.cells? p = some pr ∧ pr.wakers.data.taken = false := by
  have hi : c.frame? τ.call = some (.completing p .takeWakers) := by rw [h.frame? hc.tracked, hf]
  cases hc.contest p with
  | unclaimed hu => obtain ⟨_, ho⟩ := hu.calls _ _ hi; cases ho
  | @won w o r hw =>
    by_cases hiw : τ.call = w
    · rw [hiw] at hi
      obtain ⟨s, hs, hat⟩ := hw.winner _ hi
      cases hs
      obtain ⟨pr, hp, hsh⟩ := hw.cells
      cases hat
      exact ⟨pr, hp, hsh.taken⟩
    · obtain ⟨_, ho⟩ := hw.others _ _ hi hiw
      cases ho

/-- When the set is taken, a wait that is not dropped and whose last poll returned pending has an
entry in it, of a waker of the task of that poll. -/
theorem Extends.exists_entryOf (hc : c.Reached b) {τ : Moment H} (h : c.Extends b τ)
    (hf : τ.frame = .completing p .takeWakers) {wait : Wait} {x : H.Closure .waker}
    (hw : c.machine.wait? v = some wait) (hwp : wait.promise = p) (hd : wait.dropped = false)
    (hlast : (c.polls v).getLast? = some (x, none)) :
    ∃ pr k s, c.machine.cells? p = some pr ∧
      EntryOf p c.past c.machine v pr.wakers.data.entries k s ∧
        (s = x ∨ H.sameTask s x = true) := by
  obtain ⟨pr, hp, ht⟩ := h.not_taken hc hf
  have hh := hc.held p
  obtain ⟨ps, hps⟩ := List.getLast?_eq_some_iff.1 hlast
  obtain ⟨ws, hws⟩ : ∃ ws, (c.pends v).map Prod.snd = ws ++ [x] :=
    ⟨_, by rw [hc.pends_map_snd, hps, List.filterMap_append]; rfl⟩
  -- A waker stays in its slot as long as those that follow wake the same task.
  obtain ⟨l, s, us, hsplit, hslot, hsame⟩ := WakerSet.exists_of_slot H.sameTask ws x
  cases hh.kept v wait hw hwp hd with
  | fresh hnil => rw [hnil] at hws; simp at hws
  | @held k pr₁ hne hk hp₁ _ hs =>
    rw [hp] at hp₁
    cases hp₁
    have hget := hs ht
    rw [hws, hslot] at hget
    refine ⟨pr, k, s, hp, ⟨(hh.sound pr hp).filter_entries hget, hk, ?_, l, us, ?_, hsame⟩, ?_⟩
    · intro v' wait' hw' hwp' hne' e he hek
      obtain ⟨e₀, he₀⟩ := List.exists_mem_of_ne_nil _ hne
      have hkey : e.1 = e₀.1 := hek.trans (hk e₀ he₀).symm
      exact hne' (hh.unique v' v wait' wait hw' hwp' hw hwp e he e₀ he₀ hkey)
    · exact hws.trans hsplit
    · rcases List.eq_nil_or_concat us with rfl | ⟨us, u, rfl⟩
      · exact .inl (List.append_singleton_inj.1 hsplit).2.symm
      · rw [List.concat_eq_append, ← List.cons_append, ← List.append_assoc] at hsplit
        rw [(List.append_singleton_inj.1 hsplit).2]
        exact .inr (hsame u (by simp))

/-- A poll of a wait on a promise that is done returns the outcome in its first step. -/
theorem Reached.poll_of_isDone (hc : c.Reached b) (hd : c.machine.isDone p = true) :
    ∃ o, c.machine.outcome? p = some o ∧ ∀ v wait x t, c.machine.wait? v = some wait →
      wait.promise = p → (Frame.polling v x .attempt).step b c.machine t .go =
        some (c.machine, .answer (.polled (some o.read))) := by
  obtain ⟨pr, hp, hdone⟩ := Machine.isDone_iff.1 hd
  obtain ⟨o, ho⟩ := hc.outcome_of_isDone (Machine.cells?_eq_some hp) hdone
  change pr.outcome = some o at ho
  refine ⟨o, by rw [Machine.outcome?, hp]; exact ho, fun v wait x t hw hwp => ?_⟩
  subst hwp
  simp [Frame.step, Polling.step, Machine.runStage, hw, hp, Promise.tryGet, Promise.settled, hdone,
    ho]

/-- If no waker of a promise panics, the winner calls the wakers that it takes, each once and when
the promise is done: what it has not called yet it is about to call, and it is never stuck before
that. Among what it takes, each wait that is not dropped and whose last poll returned pending has
one entry, of the waker that its polls have left, which wakes the task of that poll. And as soon as
the promise is done, every poll that starts returns the outcome. -/
theorem wakes_each_wait_once (hc : c.Reached b) (hpanic : ∀ ν ∈ c.past, ¬ν.WakerPanics p) :
    (∀ l τ l', c.past = l ++ τ :: l' → τ.frame = .completing p .takeWakers →
      ∃ pr rest, τ.before.promise? p = some pr ∧
        pr.wakers.data.entries.map Prod.snd = c.wakes p ++ rest ∧
        (rest ≠ [] → (∃ s, c.frame? τ.call = some (.completing p s) ∧ s.due? = some rest) ∧
          ((c.calls τ.call.thread).head? = some τ.call → c.machine.aborted = false →
            ∃ m, c.machine.step b τ.call.thread = some m)) ∧
        (∀ ν ∈ c.past, ∀ x, ν.wake? p = some x → ν.call = τ.call ∧ ν.before.isDone p = true) ∧
        ∀ v wait x, τ.before.wait? v = some wait → wait.promise = p → wait.dropped = false →
          (l.filterMap (Moment.polled? v)).getLast? = some (x, none) →
          ∃ k s, EntryOf p l τ.before v pr.wakers.data.entries k s ∧
            (s = x ∨ H.sameTask s x = true)) ∧
    (c.machine.isDone p = true → ∃ o, c.machine.outcome? p = some o ∧
      ∀ v wait x t, c.machine.wait? v = some wait → wait.promise = p →
        (Frame.polling v x .attempt).step b c.machine t .go =
          some (c.machine, .answer (.polled (some o.read)))) := by
  refine ⟨fun l τ l' hpast hf => ?_, hc.poll_of_isDone⟩
  have hτ : τ ∈ c.past := hpast ▸ List.mem_append_right _ List.mem_cons_self
  obtain ⟨c₀, hc₀, rfl, h⟩ := hc.exists_extends hpast
  obtain ⟨_, hcells, -⟩ := h.not_taken hc₀ hf
  rw [← h.before] at hcells
  obtain ⟨pr, hp, rfl⟩ := Option.map_eq_some_iff.1 hcells
  obtain ⟨rest, hrest, hdue⟩ := hc.waking hτ hf hcells
  refine ⟨pr, rest, hp, hrest, fun hne => ?_, fun ν hν x hx => hc.wake hτ hf hν hx,
    fun v wait x hw hwp hd hlast => ?_⟩
  · rcases hdue with hnil | ⟨ν, hν, hx⟩ | ⟨s, hs, hsd⟩
    · exact absurd hnil hne
    · exact absurd hx (hpanic ν hν)
    · exact ⟨⟨s, hs, hsd⟩, hc.waking_goes_on hs hsd hne⟩
  · rw [h.before] at hw
    obtain ⟨pr', k, s, hp', he, hs⟩ := h.exists_entryOf hc₀ hf hw hwp hd hlast
    rw [← h.before] at hp' he
    rw [hcells] at hp'
    cases hp'
    exact ⟨k, s, he, hs⟩

/-- A thread makes a promise and a wait on it, polls the wait with two wakers in turn, and completes
the promise. A second thread polls a wait of its own. -/
def sleepers : (r : Role) → Nat → Act Tabled r
  | .task, 0 => .call (.build {}) 1
  | .task, 1 => .call (.wait 0) 2
  | .task, 2 => .call (.poll 0 7) 3
  | .task, 3 => .call (.poll 0 8) 4
  | .task, 4 => .call (.complete 0 (.value .unit)) 5
  | .task, 10 => .call (.wait 0) 11
  | .task, 11 => .call (.poll 1 9) 12
  | r, _ => Tabled.quiet r

/-- The run of the two threads, up to the end of the waking. -/
def awakening : Option (Chronicle Tabled) :=
  (Tabled.start [0, 10]).turns? (Tabled.behaviour sleepers)
    (List.replicate 8 (.step 0) ++ List.replicate 6 (.step 1) ++ List.replicate 20 (.step 0))

theorem wakes_each_wait_once_awakening : ∃ c l τ l', awakening = some c ∧
    c.Reached (Tabled.behaviour sleepers) ∧ (∀ ν ∈ c.past, ¬ν.WakerPanics 0) ∧
    c.past = l ++ τ :: l' ∧ τ.frame = .completing 0 .takeWakers ∧ c.wakes 0 = [8, 9] ∧
    ∃ pr k, τ.before.promise? 0 = some pr ∧
      EntryOf (H := Tabled) 0 l τ.before 0 pr.wakers.data.entries k 8 := by
  have hrun : (awakening.any fun c =>
      (c.past.all fun ν => ν.next.thrown?.isNone) &&
      c.wakes 0 == [8, 9] &&
      (((c.past.take 26).filterMap (Moment.polled? 0)).getLast?.any fun e =>
        e.1 == 8 && e.2.isNone) &&
      (c.past.drop 26).head?.any fun τ =>
        τ.frame.take? == some 0 &&
        (τ.before.wait? 0).any fun wait => wait.promise == 0 && !wait.dropped) = true := by
    decide +kernel
  obtain ⟨c, hc, hrun⟩ := (Option.any_eq_true _ _).1 hrun
  obtain ⟨hrun, hτ⟩ := Bool.and_eq_true_iff.1 hrun
  obtain ⟨hrun, hlast⟩ := Bool.and_eq_true_iff.1 hrun
  obtain ⟨hthrow, hwakes⟩ := Bool.and_eq_true_iff.1 hrun
  obtain ⟨τ, hhead, hτ⟩ := (Option.any_eq_true _ _).1 hτ
  cases hdrop : c.past.drop 26 with
  | nil => rw [hdrop] at hhead; cases hhead
  | cons τ' l' =>
    rw [hdrop] at hhead
    obtain rfl : τ' = τ := Option.some.inj hhead
    obtain ⟨hframe, hwait⟩ := Bool.and_eq_true_iff.1 hτ
    obtain ⟨wait, hw, hwait⟩ := (Option.any_eq_true _ _).1 hwait
    obtain ⟨hwp, hd⟩ := Bool.and_eq_true_iff.1 hwait
    have hpast : c.past = c.past.take 26 ++ τ' :: l' := by
      rw [← hdrop, List.take_append_drop]
    have hf : τ'.frame = .completing 0 .takeWakers := Frame.eq_take (by simpa using hframe)
    have hpoll : ((c.past.take 26).filterMap (Moment.polled? 0)).getLast? = some (8, none) := by
      obtain ⟨⟨x, r⟩, hl, hxr⟩ := (Option.any_eq_true _ _).1 hlast
      simp only [Bool.and_eq_true, beq_iff_eq, Option.isNone_iff_eq_none] at hxr
      rw [hl, hxr.1, hxr.2]
    have hreach := Tabled.reached hc
    have hpanic : ∀ ν ∈ c.past, ¬ν.WakerPanics 0 := by
      rintro ν hν ⟨code, rest, x, -, hn⟩
      exact Next.ne_throw (by simpa using List.all_eq_true.1 hthrow ν hν) x hn
    obtain ⟨pr, rest, hp, -, -, -, hentry⟩ :=
      (wakes_each_wait_once hreach hpanic).1 _ τ' l' hpast hf
    obtain ⟨k, s, he, hs⟩ := hentry 0 wait 8 hw (by simpa using hwp) (by simpa using hd) hpoll
    obtain rfl : s = 8 := hs.elim id fun h => by simpa using h
    exact ⟨c, _, τ', l', hc, hreach, hpanic, hpast, hf, by simpa using hwakes, pr, k, hp, he⟩

end Chronicle

end OneShot
