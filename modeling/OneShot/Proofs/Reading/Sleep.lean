import OneShot.Proofs.Reading.Sharing

/-!
# Sleeping readers

A read looks at the latch and at its flag while it holds the gate, and it falls asleep and gives the
gate back in one step. Whoever opens the latch takes the gate for that and wakes the sleepers before
giving it back; whoever sets a flag takes the gate of every latch that the thread is parked on, one
after the other, and wakes the sleepers there. So nobody sleeps on who has been missed.

- **Under the gate** (`Reached.closed`): the latch is closed from the look at it until the read
  sleeps.
- **Waking** (`Frame.Rouses`, `Extends.roused`): afterwards nobody sleeps on that latch.
- **Sleepers and the latch** (`Reached.opener`): while somebody sleeps on an open latch, the call
  that has opened it is about to wake them.
- **Raisers** (`Chronicle.raisers`): the calls that have set a flag since it was last clear.
- **Sleepers and their flags** (`Reached.owes`): while somebody sleeps whose flag is set, every
  raiser of the flag is still in progress and about to wake them.
-/

namespace OneShot

variable {H : Host} {b : Behaviour H}

theorem Machine.isFlagged_eq (m : Machine H) (u : ThreadId) :
    m.isFlagged u = (m.token? u).any (·.flag) := by
  cases h : m.thread? u <;> simp [isFlagged, token?, Token.bare, h]

namespace Chronicle

variable {c : Chronicle H} {μ : Moment H} {p : PromiseId} {i : CallId} {limited : Bool}
  {s : Reading}

/-! ## One moment -/

/-- Where a read that is found after a moment comes from: its own moment, its start, or where it was
before, but that its sleep may have been ended. -/
theorem reading_record (hc : c.Tracked) (h : c.Extends b μ)
    (hf : (c.record μ).frame? i = some (.reading p limited s)) :
    (∃ s', i = μ.call ∧ μ.frame = .reading p limited s' ∧
        μ.next.own μ.frame = some (.reading p limited s)) ∨
      (i = μ.entered ∧ (s = .peek ∨ s = .attempt)) ∨
      i ≠ μ.call ∧ (c.frame? i = some (.reading p limited s) ∨
        c.frame? i = some (.reading p limited .asleep) ∧ s = .lockGate false) := by
  -- The call has moved itself, has been entered just now, or stood by.
  by_cases hi : i = μ.call
  · subst hi
    rw [frame?_record_self hc h] at hf
    refine .inl ?_
    rcases h.made.leads.sameCall hf with hs | hs
    · exact ⟨s, rfl, hs, hf⟩
    · obtain ⟨s', hs'⟩ := hs.of_reading
      exact ⟨s', rfl, hs', hf⟩
  · by_cases hi' : i = μ.entered
    · subst hi'
      rw [frame?_record_entered hc h] at hf
      exact .inr (.inl ⟨rfl, (h.made.leads.enters hf).of_reading⟩)
    · have hk := frame?_record_of_ne hc h hi hi'
      rw [hf] at hk
      refine .inr (.inr ⟨hi, ?_⟩)
      generalize c.frame? i = x at hk ⊢
      cases hk with
      | same => exact .inl rfl
      | rouse => exact .inr ⟨rfl, rfl⟩

/-- A moment of another call leaves a read where it is, or ends its sleep. -/
theorem reading_record_of_ne (hc : c.Tracked) (h : c.Extends b μ)
    (hi : c.frame? i = some (.reading p limited s)) (hne : i ≠ μ.call) :
    (c.record μ).frame? i = some (.reading p limited s) ∨
      s = .asleep ∧ (c.record μ).frame? i = some (.reading p limited (.lockGate false)) := by
  have hk := frame?_record_of_ne hc h hne (h.ne_entered hc hi)
  rw [hi] at hk
  generalize (c.record μ).frame? i = x at hk ⊢
  cases hk with
  | same => exact .inl rfl
  | rouse => exact .inr ⟨rfl, rfl⟩

/-- A latch that is open after a moment was open before, or is opened by a completion call. -/
theorem Extends.opens (h : c.Extends b μ) (hd : μ.after.isDone p = true) :
    c.machine.isDone p = true ∨ ∃ time, μ.frame = .completing p (.openLatch time) := by
  obtain ⟨pr', hp', hd⟩ := Machine.isDone_iff_cells?.1 hd
  have hch := h.made.effect.promise p
  rw [h.before, hp'] at hch
  have hsame : ∀ pr, c.machine.cells? p = some pr → pr.isDone = true →
      c.machine.isDone p = true := fun pr hp hd => Machine.isDone_iff_cells?.2 ⟨pr, hp, hd⟩
  generalize hx : c.machine.cells? p = x, hx' : some pr' = x', μ.frame = f, μ.next = n at hch
  cases hch with
  | same => exact .inl (hsame pr' (hx.trans hx'.symm) hd)
  | openLatch => exact .inr ⟨_, rfl⟩
  | make => cases hx'; cases hd
  | _ => cases hx'; exact .inl (hsame _ hx hd)

end Chronicle

/-! ## Under the gate -/

/-- Stages at which a read has seen the latch closed and holds the gate. -/
def Reading.isClosed : Reading → Bool
  | checkFlag | sleep => true
  | _ => false

namespace Chronicle

variable {c : Chronicle H} {μ : Moment H} {p : PromiseId} {i : CallId} {limited : Bool}
  {s : Reading}

/-- The latch is closed while a read that has seen it closed holds the gate. -/
theorem Reached.closed (hc : c.Reached b) (hi : c.frame? i = some (.reading p limited s))
    (hs : s.isClosed = true) : c.machine.isDone p = false := by
  induction c, hc using Reached.induction generalizing s with
  | start m hm =>
    obtain ⟨work, hwork⟩ := frame?_start hm hi
    cases hwork
  | record c μ hc hμ hc' ih =>
    have ht := hc.tracked
    apply eq_false_of_ne_true
    intro hd
    rcases reading_record ht hμ hi with ⟨s', rfl, hf, hown⟩ | ⟨-, hs'⟩ | ⟨hne, hold | ⟨-, hs'⟩⟩
    · have hbefore : c.machine.isDone p = true := by
        rcases hμ.opens hd with hd | ⟨time, ho⟩
        · exact hd
        · rw [hf] at ho; cases ho
      have hm := (hμ.sound ht).reading hf
      rw [hf] at hown
      rw [hμ.before] at hm
      generalize μ.next = n at hm hown
      cases hm <;> cases hown <;> try cases hs
      · rename_i hclosed
        rw [hclosed] at hbefore
        cases hbefore
      · rw [ih (by rw [hμ.frame? ht, hf]) rfl] at hbefore
        cases hbefore
    · rcases hs' with rfl | rfl <;> cases hs
    · rcases hμ.opens hd with hd | ⟨time, ho⟩
      · rw [ih hold hs] at hd
        cases hd
      · -- Opening the latch takes the gate, which the read holds.
        have hgate : (Frame.reading p limited s).guard? c.machine i.thread =
            some (.part p .gate) := by
          cases s <;> first | rfl | cases hs
        exact hne (hc.eq_of_guard? hold hgate (hμ.frame? ht) (by rw [ho]; rfl))
    · rw [hs'] at hs
      cases hs

end Chronicle

/-! ## Waking -/

/-- A call that is about to wake the sleepers of the latch of `p`. -/
inductive Frame.Rouses (p : PromiseId) : Frame H → Prop
  | release : Rouses p (.completing p .notify)
  | interrupt {u rest} : Rouses p (.interrupting u (.notify p rest))

/-- A thread that was woken does not sleep. -/
theorem Thread.frames_rouse (th : Thread H) (p : PromiseId) (limited : Bool)
    (rest : List (Frame H)) : (th.rouse p).frames ≠ .reading p limited .asleep :: rest := by
  intro h
  unfold rouse at h
  split at h
  · rename_i q limited' rest' hs
    split at h
    · cases h
    · rename_i hq
      rw [hs] at h
      cases h
      exact hq rfl
  · rename_i hs
    exact hs p limited rest h

/-- A call that rouses a latch wakes the threads that sleep on it. -/
theorem Frame.Rouses.thread?_of_step {m m' : Machine H} {t u : ThreadId} {p : PromiseId}
    {f : Frame H} {n : Next H} (hf : f.Rouses p) (h : f.step b m t .go = some (m', n)) :
    m'.thread? u = (m.thread? u).map (·.rouse p) := by
  cases hf <;> cases h <;> simp

namespace Chronicle

variable {c : Chronicle H} {μ : Moment H} {p : PromiseId} {i : CallId} {limited : Bool}

/-- After a moment that wakes the sleepers of a latch, nobody sleeps on it. -/
theorem Extends.roused (hc : c.Reached b) (h : c.Extends b μ) (hf : μ.frame.Rouses p) :
    (c.record μ).frame? i ≠ some (.reading p limited .asleep) := by
  intro hi
  have ht := hc.tracked
  have hawaits : μ.frame.awaits = false := by
    generalize μ.frame = f at hf
    cases hf <;> rfl
  rcases reading_record ht h hi with ⟨s', -, hs', -⟩ | ⟨-, hs'⟩ | ⟨hne, hold | ⟨-, hs'⟩⟩
  · rw [hs'] at hf
    cases hf
  · rcases hs' with hs' | hs' <;> cases hs'
  · have hthread : i.thread ≠ μ.call.thread := fun he =>
      hne (ht.eq_of_not_awaits hold rfl (h.frame? ht) hawaits he)
    obtain ⟨k, rest, token, hth⟩ := (ht.record h).thread?_of_not_awaits hi rfl
    change μ.after.thread? i.thread = _ at hth
    cases h.made with
    | @step rest' token' m hn hth' hs ha =>
      rw [(h.control ht).resolve_right (by rw [hawaits]; exact Bool.false_ne_true)] at hs
      rw [ha, Machine.thread?_proceed_of_ne _ _ _ hthread, hf.thread?_of_step hs] at hth
      obtain ⟨th, -, hth⟩ := Option.map_eq_some_iff.1 hth
      exact th.frames_rouse p limited rest (by rw [hth])
    | wake _ hf' => rw [hf'] at hf; cases hf
  · cases hs'

/-! ## Sleepers and the latch -/

/-- While somebody sleeps on a latch that is open, the call that has opened it is about to wake the
sleepers. -/
theorem Reached.opener (hc : c.Reached b) (hi : c.frame? i = some (.reading p limited .asleep))
    (hd : c.machine.isDone p = true) : ∃ w, c.frame? w = some (.completing p .notify) := by
  induction c, hc using Reached.induction with
  | start m hm =>
    obtain ⟨work, hwork⟩ := frame?_start hm hi
    cases hwork
  | record c μ hc hμ hc' ih =>
    have ht := hc.tracked
    rcases reading_record ht hμ hi with ⟨s', rfl, hf, hown⟩ | ⟨-, hs'⟩ | ⟨hne, hold | ⟨-, hs'⟩⟩
    · -- The read falls asleep now, and has seen the latch closed.
      have hm := (hμ.sound ht).reading hf
      rw [hf] at hown
      generalize μ.next = n at hm hown
      cases hm <;> cases hown
      have hclosed := hc.closed (by rw [hμ.frame? ht, hf]) rfl
      rcases hμ.opens hd with hd | ⟨time, ho⟩
      · rw [hclosed] at hd
        cases hd
      · rw [hf] at ho
        cases ho
    · rcases hs' with hs' | hs' <;> cases hs'
    · rcases hμ.opens hd with hd | ⟨time, ho⟩
      · obtain ⟨w, hw⟩ := ih hold hd
        by_cases hwμ : w = μ.call
        · have hf : μ.frame = .completing p .notify := hμ.frame_eq ht (hwμ ▸ hw)
          exact absurd hi (hμ.roused hc (by rw [hf]; exact .release))
        · exact ⟨w, frame?_record_of_steady ht hμ hw rfl hwμ⟩
      · obtain ⟨pr, pr', -, -, hm⟩ := hc'.moved μ mem_record_self p _ ho
        generalize hn : μ.next = n, μ.control = k at hm
        cases hm
        refine ⟨μ.call, ?_⟩
        rw [frame?_record_self ht hμ, hn]
        rfl
    · cases hs'

end Chronicle

/-! ## Raisers -/

/-- The call that sets the flag of thread `u` at a moment. -/
def Moment.raiser? (u : ThreadId) (μ : Moment H) : Option CallId :=
  match μ.frame with
  | .interrupting v .raise => if v = u then some μ.call else none
  | _ => none

/-- A step leaves a flag as it is unless it raises or clears it. -/
theorem Frame.flag_mark {f : Frame H} {t u : ThreadId} {tk : Token}
    (h : (f.mark t u tk).flag = true) : tk.flag = true ∨ f = .interrupting u .raise := by
  unfold mark at h
  split at h
  · split at h
    · rename_i hv
      exact .inr (by rw [hv])
    · exact .inl h
  · split at h
    · cases h
    · exact .inl h
  · split at h <;> exact .inl h
  · split at h <;> exact .inl h
  · exact .inl h

namespace Chronicle

variable {c : Chronicle H} {μ : Moment H} {p : PromiseId} {i j : CallId} {limited : Bool}
  {s : Reading} {u : ThreadId}

/-- The calls that have set the flag of thread `u` since it was last clear. -/
def raisers (c : Chronicle H) (u : ThreadId) : List CallId :=
  c.past.foldl (fun js μ => if μ.after.isFlagged u then js ++ (μ.raiser? u).toList else []) []

theorem raisers_record (c : Chronicle H) (μ : Moment H) (u : ThreadId) :
    (c.record μ).raisers u =
      if μ.after.isFlagged u then c.raisers u ++ (μ.raiser? u).toList else [] := by
  simp [raisers]

/-- A flag that is set after a moment was set before, or is set by an interrupt of the thread. -/
theorem Extends.raises (hc : c.Tracked) (h : c.Extends b μ) (hf : μ.after.isFlagged u = true) :
    c.machine.isFlagged u = true ∨ μ.frame = .interrupting u .raise := by
  have ht := h.token hc u
  rw [Machine.isFlagged_eq] at hf ⊢
  generalize c.machine.token? u = x, μ.after.token? u = x' at ht hf ⊢
  cases ht with
  | kept =>
    cases x with
    | none => cases hf
    | some tk => exact Frame.flag_mark hf
  | spawn => cases hf

theorem Reached.raisers_eq_nil (hc : c.Reached b) (hf : c.machine.isFlagged u = false) :
    c.raisers u = [] := by
  cases c, hc using Reached.induction with
  | start m hm => rfl
  | record c μ hc hμ hc' ih =>
    rw [raisers_record, if_neg]
    rw [show μ.after.isFlagged u = false from hf]
    exact Bool.false_ne_true

/-- Somebody has set a flag that is set. -/
theorem Reached.raisers_ne_nil (hc : c.Reached b) (hf : c.machine.isFlagged u = true) :
    c.raisers u ≠ [] := by
  induction c, hc using Reached.induction with
  | start m hm =>
    obtain ⟨th, hth, hflag⟩ := (Option.any_eq_true _ _).1 hf
    rw [hm.tokens th (Array.mem_of_getElem? hth)] at hflag
    cases hflag
  | record c μ hc hμ hc' ih =>
    change μ.after.isFlagged u = true at hf
    rw [raisers_record, if_pos hf]
    rcases hμ.raises hc.tracked hf with hf | hf
    · exact List.append_ne_nil_of_left_ne_nil (ih hf) _
    · simp [Moment.raiser?, hf]

end Chronicle

/-! ## Sleepers and their flags -/

/-- Stages of an interrupt at which it has set the flag and the latch of `p`, if it is parked, is
still to be visited. -/
def Interrupting.Owes (p : PromiseId) : Interrupting → Prop
  | raise => False
  | lock | copy => True
  | next latches => p ∈ latches
  | notify q rest => p = q ∨ p ∈ rest

namespace Chronicle

variable {c : Chronicle H} {μ : Moment H} {p : PromiseId} {i j : CallId} {limited : Bool}
  {s : Reading} {u : ThreadId}

/-- A read that sleeps or is about to was doing so before, if somebody had set its flag. -/
theorem Extends.sleeping (hc : c.Reached b) (h : c.Extends b μ)
    (hi : (c.record μ).frame? i = some (.reading p limited s)) (hs : s = .sleep ∨ s = .asleep)
    (hr : c.raisers i.thread ≠ []) :
    ∃ s₀, c.frame? i = some (.reading p limited s₀) ∧ (s₀ = .sleep ∨ s₀ = .asleep) := by
  have ht := hc.tracked
  rcases reading_record ht h hi with ⟨s', rfl, hf, hown⟩ | ⟨-, hs'⟩ | ⟨-, hold | ⟨-, hs'⟩⟩
  · have hm := (h.sound ht).reading hf
    rw [hf] at hown
    rw [h.before] at hm
    generalize μ.next = n at hm hown
    rcases hs with rfl | rfl
    · cases hm <;> cases hown
      rename_i hflag
      exact absurd (hc.raisers_eq_nil hflag) hr
    · cases hm <;> cases hown
      exact ⟨.sleep, by rw [h.frame? ht, hf], .inl rfl⟩
  · rcases hs' with rfl | rfl <;> rcases hs with hs | hs <;> cases hs
  · exact ⟨s, hold, hs⟩
  · rw [hs'] at hs
    rcases hs with hs | hs <;> cases hs

/-- A raiser that moves still owes the visit to a latch on which somebody still sleeps. -/
theorem Extends.owes (hc : c.Reached b) (h : c.Extends b μ) {s₀ : Reading} {s' : Interrupting}
    (hi : c.frame? i = some (.reading p limited s₀)) (hs₀ : s₀ = .sleep ∨ s₀ = .asleep)
    (hasleep : s₀ = .asleep → ¬μ.frame.Rouses p) (hf : μ.frame = .interrupting i.thread s')
    (ho : s'.Owes p) :
    ∃ s'', μ.next.own μ.frame = some (.interrupting i.thread s'') ∧ s''.Owes p := by
  have ht := hc.tracked
  have hm := (h.sound ht).interrupting hf
  rw [h.before] at hm
  generalize hn : μ.next = n at hm
  -- The visit is owed as long as the latch is on the copy of the parked list.
  cases hm with
  | raise => cases ho
  | lock => exact ⟨.copy, rfl, trivial⟩
  | @copy th hth =>
    obtain ⟨tk, htk, hp⟩ := hc.parked hi (by rcases hs₀ with rfl | rfl <;> rfl)
    rw [Machine.token?, hth] at htk
    cases htk
    exact ⟨_, rfl, hp⟩
  | finish => cases ho
  | next => exact ⟨_, rfl, List.mem_cons.1 ho⟩
  | @notify q rest =>
    rcases ho with rfl | ho
    · rcases hs₀ with rfl | rfl
      · -- The read holds the gate, and so does the raiser.
        have hij := hc.eq_of_guard? hi rfl (h.frame? ht) (by rw [hf]; rfl)
        rw [hij, h.frame? ht, hf] at hi
        cases hi
      · exact absurd (hf ▸ .interrupt) (hasleep rfl)
    · exact ⟨_, rfl, ho⟩

/-- While a read sleeps, or is about to, the raisers of its flag are still to visit its latch. -/
theorem Reached.owes (hc : c.Reached b) (hi : c.frame? i = some (.reading p limited s))
    (hs : s = .sleep ∨ s = .asleep) (hj : j ∈ c.raisers i.thread) :
    ∃ s', c.frame? j = some (.interrupting i.thread s') ∧ s'.Owes p := by
  induction c, hc using Reached.induction generalizing s with
  | start m hm =>
    obtain ⟨work, hwork⟩ := frame?_start hm hi
    cases hwork
  | record c μ hc hμ hc' ih =>
    have ht := hc.tracked
    rw [raisers_record] at hj
    split at hj
    · rcases List.mem_append.1 hj with hj | hj
      · -- A raiser from before, which goes on if it is the call that moves.
        obtain ⟨s₀, hold, hs₀⟩ := hμ.sleeping hc hi hs (List.ne_nil_of_mem hj)
        obtain ⟨s', hs', ho⟩ := ih hold hs₀ hj
        by_cases hjμ : j = μ.call
        · subst hjμ
          have hf : μ.frame = .interrupting i.thread s' := hμ.frame_eq ht hs'
          have hasleep : s₀ = .asleep → ¬μ.frame.Rouses p := by
            rintro rfl hr
            have hne : i ≠ μ.call := by
              intro hij
              rw [hij, hs'] at hold
              cases hold
            rcases reading_record_of_ne ht hμ hold hne with hsame | ⟨-, hwoken⟩
            · exact hμ.roused hc hr hsame
            · rw [hi] at hwoken
              cases hwoken
              rcases hs with hs | hs <;> cases hs
          rw [frame?_record_self ht hμ]
          exact hμ.owes hc hold hs₀ hasleep hf ho
        · exact ⟨s', frame?_record_of_steady ht hμ hs' rfl hjμ, ho⟩
      · obtain ⟨hf, rfl⟩ : μ.frame = .interrupting i.thread .raise ∧ μ.call = j := by
          unfold Moment.raiser? at hj
          split at hj
          · rename_i hf
            split at hj
            · rename_i hv
              exact ⟨by rw [hf, hv], (List.mem_singleton.1 hj).symm⟩
            · cases hj
          · cases hj
        have hm := (hμ.sound ht).interrupting hf
        generalize hn : μ.next = n at hm
        cases hm
        exact ⟨.lock, by rw [frame?_record_self ht hμ, hn]; rfl, trivial⟩
    · cases hj

end Chronicle

end OneShot
