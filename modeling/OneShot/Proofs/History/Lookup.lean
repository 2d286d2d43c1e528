import OneShot.Proofs.History.Calls

/-!
# Where the calls of a run are

A call in progress is looked up by its name. A moment moves its own call on, adds the call that it
enters, and leaves all other calls where they are, but that a sleeper may be woken and a thread may
be given work.

- **Look-up** (`Chronicle.frame?`): the stage of a call in progress.
- **One moment** (`frame?_record_self`, `frame?_record_entered`, `frame?_record_of_ne`).
- **Steady calls** (`Frame.steady`): only the moments of a call itself move it, unless it is a read
  or the work of a thread. What is found of a steady call comes from one of three places
  (`steady_record`), and a call that is over is not found again (`frame?_record_eq_none`).
-/

namespace OneShot

variable {H : Host} {b : Behaviour H}

/-- How what is found of a call may change at a moment of another call: a sleeper is woken, or a
thread is given work. -/
inductive Frame.Kept : Option (Frame H) → Option (Frame H) → Prop
  | same {x} : Kept x x
  | rouse {p limited} :
    Kept (some (.reading p limited .asleep)) (some (.reading p limited (.lockGate false)))
  | work {code} : Kept none (some (.task code))

/-- Whether nothing but its own moments moves a call. A sleeping read can be woken, and a thread can
be given work. -/
def Frame.steady : Frame H → Bool
  | .task _ | .reading _ _ _ => false
  | _ => true

theorem Frame.SameCall.steady_eq {f g : Frame H} (h : f.SameCall g) : f.steady = g.steady := by
  cases h <;> rfl

theorem lookup_cons_name {i j : CallId} {f : Frame H} {l : List (CallId × Frame H)} :
    ((i, f) :: l).lookup j = if j = i then some f else l.lookup j := by
  by_cases h : j = i
  · simp [h]
  · have hb : (j == i) = false := by simpa using h
    simp [List.lookup_cons, h, hb]

theorem lookup_zip_eq_none {i : CallId} {is : List CallId} {fs : List (Frame H)} (h : i ∉ is) :
    (is.zip fs).lookup i = none := by
  induction is generalizing fs with
  | nil => rfl
  | cons j is ih =>
    cases fs with
    | nil => rfl
    | cons f fs =>
      rw [List.zip_cons_cons, lookup_cons_name, if_neg (List.ne_of_not_mem_cons h)]
      exact ih (List.not_mem_of_not_mem_cons h)

theorem lookup_zip_ne_none {i : CallId} {is : List CallId} {fs : List (Frame H)}
    (hl : is.length = fs.length) (hi : i ∈ is) : (is.zip fs).lookup i ≠ none := by
  induction is generalizing fs with
  | nil => cases hi
  | cons j is ih =>
    cases fs with
    | nil => cases hl
    | cons f fs =>
      rw [List.zip_cons_cons, lookup_cons_name]
      split
      · exact Option.some_ne_none f
      · rename_i hne
        exact ih (Nat.succ.inj hl) ((List.mem_cons.1 hi).resolve_left hne)

/-- A name in use after a moment was in use before, or was given at it. -/
theorem Moment.mem_of_mem_calls {μ : Moment H} {u : ThreadId} {i : CallId} {is : List CallId}
    (hi : i ≠ μ.entered) (h : i ∈ μ.calls u is) (hn : i.entry ≠ μ.number) : i ∈ is := by
  unfold Moment.calls at h
  split at h
  · cases hx : μ.next <;> rw [hx] at h <;> simp only [Next.names] at h
    · exact h
    · exact (List.mem_cons.1 h).resolve_left hi
    · exact List.mem_of_mem_tail h
    · exact List.mem_of_mem_tail h
    · exact h
  · unfold Stack.names at h
    split at h
    · exact absurd (congrArg CallId.entry (List.mem_singleton.1 h)) hn
    · exact h

/-- What is found of a call on a thread whose sleeping read is woken. -/
theorem Frame.kept_of_rouse {i : CallId} {is : List CallId} {p : PromiseId} {limited : Bool}
    {rest : List (Frame H)} :
    Frame.Kept ((is.zip (.reading p limited .asleep :: rest)).lookup i)
      ((is.zip (.reading p limited (.lockGate false) :: rest)).lookup i) := by
  cases is with
  | nil => exact .same
  | cons j is =>
    rw [List.zip_cons_cons, List.zip_cons_cons, lookup_cons_name, lookup_cons_name]
    split
    · exact .rouse
    · exact .same

namespace Chronicle

variable {c : Chronicle H} {μ : Moment H}

/-- The stage of a call in progress. -/
def frame? (c : Chronicle H) (i : CallId) : Option (Frame H) :=
  (c.machine.stack? i.thread).bind fun s => ((c.calls i.thread).zip s.2).lookup i

theorem frame?_eq_none_of_not_mem {i : CallId} (h : i ∉ c.calls i.thread) : c.frame? i = none := by
  unfold frame?
  cases c.machine.stack? i.thread with
  | none => rfl
  | some s => exact lookup_zip_eq_none h

theorem Tracked.entry_le (hc : c.Tracked) {i : CallId} {f : Frame H} (h : c.frame? i = some f) :
    i.entry ≤ c.past.length := by
  by_cases hi : i ∈ c.calls i.thread
  · exact (hc.names hi).2
  · rw [frame?_eq_none_of_not_mem hi] at h; cases h

/-- At the start threads have nothing to do but their work. -/
theorem frame?_start {m : Machine H} (hm : m.Initial) {i : CallId} {f : Frame H}
    (h : (start m).frame? i = some f) : ∃ work, f = .task work := by
  obtain ⟨s, hs, hl⟩ := Option.bind_eq_some_iff.1 h
  obtain ⟨th, ht, rfl⟩ := Option.map_eq_some_iff.1 hs
  rcases hm.threads th (Array.mem_of_getElem? ht) with hf | ⟨work, hf, -⟩
  · rw [hf, List.zip_nil_right] at hl
    cases hl
  · refine ⟨work, ?_⟩
    have hst := (tracked_start hm).stack _ _ _ hs
    simp only [hf] at hl hst
    obtain ⟨j, hj⟩ : ∃ j, (start m).calls i.thread = [j] :=
      List.length_eq_one_iff.1 (by rw [hst.length]; rfl)
    rw [hj, List.zip_cons_cons, lookup_cons_name] at hl
    split at hl
    · exact (Option.some.inj hl).symm
    · cases hl

theorem Extends.frame? (hc : c.Tracked) (h : c.Extends b μ) : c.frame? μ.call = some μ.frame := by
  obtain ⟨is, rest, his, hs, -⟩ := h.stack hc
  simp [Chronicle.frame?, hs, his]

theorem Extends.frame_eq (hc : c.Tracked) (h : c.Extends b μ) {f : Frame H}
    (hi : c.frame? μ.call = some f) : μ.frame = f := by
  rw [h.frame? hc] at hi
  exact Option.some.inj hi

theorem Extends.entered_not_mem (hc : c.Tracked) (h : c.Extends b μ) (u : ThreadId) :
    μ.entered ∉ c.calls u := by
  intro hm
  have hle := (hc.names hm).2
  rw [Moment.entered, h.number] at hle
  exact Nat.not_succ_le_self _ hle

theorem Extends.ne_entered (hc : c.Tracked) (h : c.Extends b μ) {i : CallId} {f : Frame H}
    (hi : c.frame? i = some f) : i ≠ μ.entered := by
  rintro rfl
  rw [frame?_eq_none_of_not_mem (h.entered_not_mem hc _)] at hi
  cases hi

theorem Extends.control (hc : c.Tracked) (h : c.Extends b μ) :
    μ.control = .go ∨ μ.frame.awaits = true := by
  obtain ⟨is, rest, -, hs, -⟩ := h.stack hc
  exact (hc.stack _ _ _ hs).control _ rfl

theorem frame?_record_self (hc : c.Tracked) (h : c.Extends b μ) :
    (c.record μ).frame? μ.call = μ.next.own μ.frame := by
  obtain ⟨is, rest, his, hs, ha⟩ := h.stack hc
  have hst := hc.stack _ _ _ hs
  rw [his] at hst
  have hout : μ.call ∉ is := (List.nodup_cons.1 hst.nodup).1
  have hnew := h.ne_entered hc (h.frame? hc)
  simp only [Chronicle.frame?, Chronicle.record, ha, Moment.calls, his, if_true,
    Option.bind_some]
  cases μ.next <;>
    simp [Next.stack, Next.names, Next.own, lookup_cons_name, hnew, lookup_zip_eq_none hout]

theorem frame?_record_entered (hc : c.Tracked) (h : c.Extends b μ) :
    (c.record μ).frame? μ.entered = μ.next.callee? := by
  obtain ⟨is, rest, his, hs, ha⟩ := h.stack hc
  have hout : μ.entered ∉ μ.call :: is := his ▸ h.entered_not_mem hc μ.call.thread
  have hne := List.ne_of_not_mem_cons hout
  have hnot := List.not_mem_of_not_mem_cons hout
  have ht : μ.entered.thread = μ.call.thread := rfl
  simp only [Chronicle.frame?, Chronicle.record, ht, ha, Moment.calls, his, if_true,
    Option.bind_some]
  cases μ.next <;>
    simp [Next.stack, Next.names, Next.callee?, lookup_cons_name, hne, lookup_zip_eq_none hnot]

/-- A moment leaves all other calls where they are, but for sleepers and for new work. -/
theorem frame?_record_of_ne (hc : c.Tracked) (h : c.Extends b μ) {i : CallId} (hi : i ≠ μ.call)
    (hi' : i ≠ μ.entered) : Frame.Kept (c.frame? i) ((c.record μ).frame? i) := by
  obtain ⟨is, rest, his, hs, ha⟩ := h.stack hc
  by_cases ht : i.thread = μ.call.thread
  · simp only [Chronicle.frame?, Chronicle.record, ht, hs, ha, Moment.calls, his, if_true,
      Option.bind_some]
    cases μ.next <;> simp [Next.stack, Next.names, lookup_cons_name, hi, hi'] <;> exact .same
  · -- On another thread a moment may wake the read on top, or give the thread its first work.
    have hch := h.made.effect.stack i.thread ht
    rw [h.before] at hch
    simp only [Chronicle.frame?, Chronicle.record, Moment.calls, if_neg ht]
    generalize μ.frame = f, μ.next = n, μ.after.stack? i.thread = x at hch ⊢
    cases hb : c.machine.stack? i.thread with
    | none =>
      rw [hb] at hch
      rw [hc.absent _ hb]
      cases hch <;> exact .same
    | some s =>
      obtain ⟨k, fs⟩ := s
      have hst := hc.stack _ _ _ hb
      rw [hb] at hch
      cases hch with
      | same => rw [Stack.names_of_length hst.length]; exact .same
      | @rouse _ _ _ p limited rest =>
        have hl : (c.calls i.thread).length =
            (Frame.reading p limited (.lockGate false) :: rest).length := hst.length
        rw [Stack.names_of_length hl]
        exact Frame.kept_of_rouse
      | @fork work a _ =>
        rw [List.length_eq_zero_iff.1 hst.length]
        change Frame.Kept none
          (List.lookup i [(⟨i.thread, μ.number⟩, Frame.task (H.invoke .task work ()))])
        rw [lookup_cons_name]
        split
        · exact .work
        · exact .same

/-! ## Steady calls -/

theorem Tracked.frame?_eq_none_iff (hc : c.Tracked) {i : CallId} :
    c.frame? i = none ↔ i ∉ c.calls i.thread := by
  refine ⟨fun h hi => ?_, frame?_eq_none_of_not_mem⟩
  cases hs : c.machine.stack? i.thread with
  | none => rw [hc.absent _ hs] at hi; cases hi
  | some s =>
    obtain ⟨k, fs⟩ := s
    have hl := (hc.stack _ _ _ hs).length
    simp only [Chronicle.frame?, hs, Option.bind_some] at h
    exact lookup_zip_ne_none hl hi h

theorem frame?_record_eq_none (hc : c.Tracked) (h : c.Extends b μ) {i : CallId}
    (hi : i.entry ≤ c.past.length) (hn : c.frame? i = none) : (c.record μ).frame? i = none := by
  refine frame?_eq_none_of_not_mem fun hm => ?_
  have hnew : i.entry ≠ μ.number := by have := h.number; omega
  refine (hc.frame?_eq_none_iff.1 hn) (Moment.mem_of_mem_calls ?_ hm hnew)
  exact fun he => hnew (by rw [he]; rfl)

/-- What is found of a steady call after a moment: its own call moved on, it was entered, or it was
found before. -/
theorem steady_record (hc : c.Tracked) (h : c.Extends b μ) {i : CallId} {f : Frame H}
    (hf : (c.record μ).frame? i = some f) (hs : f.steady = true) :
    i = μ.call ∧ μ.next.own μ.frame = some f ∨ i = μ.entered ∧ μ.next.callee? = some f ∨
      i ≠ μ.call ∧ i ≠ μ.entered ∧ c.frame? i = some f := by
  by_cases hi : i = μ.call
  · subst hi
    rw [frame?_record_self hc h] at hf
    exact .inl ⟨rfl, hf⟩
  · by_cases hi' : i = μ.entered
    · subst hi'
      rw [frame?_record_entered hc h] at hf
      exact .inr (.inl ⟨rfl, hf⟩)
    · have hk := frame?_record_of_ne hc h hi hi'
      rw [hf] at hk
      generalize c.frame? i = x at hk ⊢
      cases hk with
      | same => exact .inr (.inr ⟨hi, hi', rfl⟩)
      | rouse => cases hs
      | work => cases hs

/-- A steady call is still found where it was after a moment of another call. -/
theorem frame?_record_of_steady (hc : c.Tracked) (h : c.Extends b μ) {i : CallId} {f : Frame H}
    (hf : c.frame? i = some f) (hs : f.steady = true) (hi : i ≠ μ.call) :
    (c.record μ).frame? i = some f := by
  have hk := frame?_record_of_ne hc h hi (h.ne_entered hc hf)
  rw [hf] at hk
  generalize (c.record μ).frame? i = x at hk ⊢
  cases hk with
  | same => rfl
  | rouse => cases hs

end Chronicle

end OneShot
