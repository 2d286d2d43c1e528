import OneShot.Proofs.History.Guards
import OneShot.Proofs.Reading.Stages

/-!
# Parked reads

Before a read takes the gate of its latch it puts an entry for the latch on the parked list of the
token that it waits under, where an interrupt finds it. It takes an entry for that latch off again
on every way out of its wait. A read calls nobody, so a thread makes one read at a time.

- **Entries** (`Reading.isParked`, `Reading.latch?`, `Frame.parks`): what a read has on the parked
  list at a stage.
- **One step** (`Parks`, `Reading.Moves.parks`): nothing happens to the list, or the read enters it,
  or leaves it.
- **One moment** (`Chronicle.Extends.parks`): so it is with the read on top of the thread that
  moves, and the reads on top of other threads keep their entries (`Stack.Change.latch?_eq`).
-/

namespace OneShot

variable {H : Host} {b : Behaviour H}

/-! ## Entries -/

/-- Stages of a read between the two moments at which it enters the parked list and leaves it. -/
def Reading.isParked : Reading → Bool
  | lockGate _ | check _ | checkFlag | sleep | asleep => true
  | unlockGate _ | relockParked _ | unpark _ => true
  | _ => false

/-- The latch for which a read under the token of `t` is on the parked list of `u`. -/
def Reading.latch? (u t : ThreadId) : PromiseId × Reading → Option PromiseId
  | (p, s) => if t = u ∧ s.isParked = true then some p else none

theorem Reading.latch?_of_ne {u t : ThreadId} (h : t ≠ u) (r : PromiseId × Reading) :
    Reading.latch? u t r = none :=
  if_neg fun hr => h hr.1

/-- What a call has on the parked list of its thread. -/
def Frame.parks : Frame H → List PromiseId
  | reading p _ s => if s.isParked then [p] else []
  | _ => []

theorem Frame.parks_of_awaits {f : Frame H} (h : f.awaits = true) : f.parks = [] := by
  cases f with
  | reading => cases h
  | _ => rfl

theorem Frame.parks_of_ne_reading {f : Frame H} (h : ∀ p limited s, f ≠ .reading p limited s) :
    f.parks = [] := by
  cases f with
  | reading p limited s => exact absurd rfl (h p limited s)
  | _ => rfl

theorem Frame.SameCall.parks_of_ne_reading {f g : Frame H} (hg : f.SameCall g)
    (h : ∀ p limited s, f ≠ .reading p limited s) : g.parks = [] := by
  refine Frame.parks_of_ne_reading fun p limited s hgr => ?_
  obtain ⟨s', hs'⟩ := (hgr ▸ hg).of_reading
  exact h p limited s' hs'

/-- Calls that are made do not read yet. -/
theorem Frame.Enters.of_reading {f : Frame H} {p : PromiseId} {limited : Bool} {s : Reading}
    (h : f.Enters (.reading p limited s)) : s = .peek ∨ s = .attempt := by
  generalize hg : Frame.reading p limited s = g at h
  cases h with
  | @code f callee hf => cases callee <;> cases hg <;> simp
  | deliver | check | enroll | transform => cases hg

theorem Frame.Enters.parks_eq_nil {f g : Frame H} (h : f.Enters g) : g.parks = [] := by
  cases g with
  | reading p limited s => rcases h.of_reading with rfl | rfl <;> rfl
  | _ => rfl

/-- After a step of a call that is no read, the top call has nothing on the parked list. -/
theorem Frame.Leads.parks_eq_nil {f : Frame H} {n : Next H} {rest : List (Frame H)} {k : Control}
    (h : f.Leads n) (hf : ∀ p limited s, f ≠ .reading p limited s)
    (hrest : ∀ g ∈ rest, g.awaits = true) : ∀ g ∈ (n.stack f rest k).2.head?, g.parks = [] := by
  intro g hg
  cases h with
  | goto hs => exact Option.some.inj hg ▸ hs.parks_of_ne_reading hf
  | enter _ _ he => exact Option.some.inj hg ▸ he.parks_eq_nil
  | answer | throw => exact Frame.parks_of_awaits (hrest g (List.mem_of_mem_head? hg))
  | abort => exact Option.some.inj hg ▸ Frame.parks_of_ne_reading hf

/-- The read on top of a stack. Reads call nobody, so there is none further down. -/
def Stack.read? : Option (Control × List (Frame H)) → Option (PromiseId × Reading)
  | some (_, .reading p _ s :: _) => some (p, s)
  | _ => none

/-- A stack whose top call has nothing on the parked list has no entry. -/
theorem Stack.latch?_eq_none {u v : ThreadId} {k : Control} {fs : List (Frame H)}
    (h : ∀ f ∈ fs.head?, f.parks = []) :
    (Stack.read? (some (k, fs))).bind (Reading.latch? u v) = none := by
  unfold read?
  split
  · rename_i p limited s rest heq
    cases heq
    have hparks : (Frame.reading p limited s).parks = [] := h _ rfl
    have hs : s.isParked = false := by simpa [Frame.parks] using hparks
    simp [Reading.latch?, hs]
  · rfl

/-- The stack of a thread that does not move keeps its entry. -/
theorem Stack.Change.latch?_eq {u v : ThreadId} {f : Frame H} {n : Next H}
    {x x' : Option (Control × List (Frame H))} (h : Stack.Change v f n x x') :
    (Stack.read? x').bind (Reading.latch? u v) = (Stack.read? x).bind (Reading.latch? u v) := by
  cases h with
  | same | spawn | fork | rouse => rfl

/-! ## One step -/

/-- The parked list of a thread. That of a thread which is not there yet is empty. -/
def Machine.parked (m : Machine H) (u : ThreadId) : List PromiseId :=
  ((m.token? u).map (·.parked.data)).getD []

/-- What a step does to the entry of a read and to the list that it is on: nothing, or the read
enters, or it leaves. -/
inductive Parks : Option PromiseId → Option PromiseId → List PromiseId → List PromiseId → Prop
  | keep {x l} : Parks x x l l
  | enter {p l} : Parks none (some p) l (Token.park l p)
  | leave {p l} : Parks (some p) none l (Token.unpark l p)

/-- Only a read puts entries on the parked list of a thread or takes them off, and only on that of
its own. -/
theorem Frame.parked_mark {f : Frame H} {t u : ThreadId} (tk : Token)
    (h : ∀ p limited s, f = .reading p limited s → t ≠ u) :
    (f.mark t u tk).parked.data = tk.parked.data := by
  unfold mark
  split
  · split <;> rfl
  · split <;> rfl
  · rw [if_neg (h _ _ _ rfl)]
  · rw [if_neg (h _ _ _ rfl)]
  · rfl

/-- A step that changes no entry of a parked list leaves the list as it is. -/
theorem Token.Change.parked_eq {m m' : Machine H} {u : ThreadId} {g : Token → Token}
    (h : Token.Change g (m.token? u) (m'.token? u))
    (hg : ∀ tk, (g tk).parked.data = tk.parked.data) : m'.parked u = m.parked u := by
  rw [Machine.parked, Machine.parked]
  generalize m.token? u = x, m'.token? u = x' at h
  cases h with
  | kept => cases x <;> simp [hg]
  | spawn => rfl

/-- The stage at which a read goes on after a step, if it does. -/
def Next.reading? : Next H → Option Reading
  | .goto (.reading _ _ s) => some s
  | _ => none

/-- What a step of a read under the token of `t` does to its entry and to the parked list of `u`. -/
theorem Reading.Moves.parks {m m' : Machine H} {t u : ThreadId} {p : PromiseId} {limited : Bool}
    {s : Reading} {n : Next H} (h : s.Moves m t p limited n) (ht : m.token? t ≠ none)
    (hc : Token.Change ((Frame.reading (H := H) p limited s).mark t u) (m.token? u) (m'.token? u)) :
    Parks (latch? u t (p, s)) (n.reading?.bind fun s' => latch? u t (p, s')) (m.parked u)
      (m'.parked u) := by
  by_cases htu : t = u
  · subst htu
    obtain ⟨tk, htk⟩ := Option.ne_none_iff_exists'.1 ht
    rw [htk] at hc
    rw [Machine.parked, Machine.parked, htk]
    generalize m'.token? t = x at hc ⊢
    cases hc
    simp only [Option.map_some, Option.getD_some]
    -- A read enters the list as it parks, and leaves it at one of its three ways out.
    cases h with
    | «open» hs =>
      rcases hs with rfl | rfl <;>
        simpa [latch?, isParked, Next.reading?, Frame.mark] using Parks.keep
    | park => simpa [latch?, isParked, Next.reading?, Frame.mark] using Parks.enter
    | acquire | timeout | interrupt =>
      simpa [latch?, isParked, Next.reading?, Frame.mark] using Parks.leave
    | _ => simpa [latch?, isParked, Next.reading?, Frame.mark] using Parks.keep
  · rw [latch?_of_ne htu, Option.bind_eq_none_iff.2 fun s' _ => latch?_of_ne htu (p, s'),
      hc.parked_eq fun tk => Frame.parked_mark tk fun _ _ _ _ => htu]
    exact .keep

namespace Chronicle

variable {c : Chronicle H} {μ : Moment H}

theorem Extends.token (hc : c.Tracked) (h : c.Extends b μ) (u : ThreadId) :
    Token.Change (μ.frame.mark μ.call.thread u) (c.machine.token? u) (μ.after.token? u) := by
  rw [← h.before]
  exact (h.sound hc).keeping.tokens u

/-- What a moment does to the entry of the read on top of its thread and to the parked list of
`u`. -/
theorem Extends.parks (hc : c.Tracked) (h : c.Extends b μ) (u : ThreadId) :
    Parks ((Stack.read? (c.machine.stack? μ.call.thread)).bind (Reading.latch? u μ.call.thread))
      ((Stack.read? (μ.after.stack? μ.call.thread)).bind (Reading.latch? u μ.call.thread))
      (c.machine.parked u) (μ.after.parked u) := by
  obtain ⟨is, rest, -, hs, ha⟩ := h.stack hc
  have hrest : ∀ f ∈ rest, f.awaits = true := (hc.stack _ _ _ hs).awaits
  have htok := h.token hc u
  rw [hs, ha]
  by_cases hr : ∃ p limited s, μ.frame = .reading p limited s
  · obtain ⟨p, limited, s, hf⟩ := hr
    have hmoves := (h.sound hc).reading hf
    rw [h.before] at hmoves
    rw [hf] at htok ⊢
    have ht : c.machine.token? μ.call.thread ≠ none := by
      obtain ⟨th, hth, -⟩ := Option.map_eq_some_iff.1 hs
      simp [Machine.token?, hth]
    have hparks := hmoves.parks ht htok
    generalize μ.next = n at hmoves hparks ⊢
    cases hmoves with
    | timeout | interrupt | fetch | early =>
      -- The read is over, and the call under it waits for it and is no read.
      rw [Next.stack, Stack.latch?_eq_none fun f hf =>
        Frame.parks_of_awaits (hrest f (List.mem_of_mem_head? hf))]
      exact hparks
    | _ => exact hparks
  · have hnot : ∀ p limited s, μ.frame ≠ .reading p limited s :=
      fun p limited s hf => hr ⟨p, limited, s, hf⟩
    have hbefore : ∀ f ∈ (μ.frame :: rest).head?, f.parks = [] :=
      fun f hf => Option.some.inj hf ▸ Frame.parks_of_ne_reading hnot
    have hlist : μ.after.parked u = c.machine.parked u :=
      htok.parked_eq fun tk =>
        Frame.parked_mark tk fun p limited s hf => absurd hf (hnot p limited s)
    rw [Stack.latch?_eq_none hbefore, Stack.latch?_eq_none (h.made.leads.parks_eq_nil hnot hrest),
      hlist]
    exact .keep

end Chronicle

end OneShot
