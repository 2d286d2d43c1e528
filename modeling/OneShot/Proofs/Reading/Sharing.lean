import Mathlib.Data.List.Dedup
import OneShot.Proofs.Reading.Parking

/-!
# Shared tokens

The token of a thread can be handed on, and then any number of calls wait under it at once, for the
same latch or for different ones. An entry of a parked list tells its latch and not whose it is.

- **Guests** (`Guest`, `Sharing.move?`): calls that wait under the token of a thread and are no
  reads of that thread. They make the steps of a read, in between the turns of the machine.
- **Who is parked** (`Sharing.read?`, `Sharing.parked?`): the calls that have entered a parked list
  and have not left it, and the latch that each of them waits for.
- **One turn** (`Shift`, `Sharing.Tracked.shift`): at most one call enters the list or leaves it,
  and nobody else's entry is touched.
- **All runs** (`Sharing.Reached.perm`, `Sharing.accounts_for_parked`): the list holds the latches
  of the calls that are parked, each as often as there are such calls.
- **Without guests** (`Chronicle.Reached.parked`, `Chronicle.Reached.parked_eq_nil`): the list of a
  thread holds the entry of its own read.
-/

namespace OneShot

variable {H : Host} {b : Behaviour H}

/-! ## Guests -/

/-- A call that waits for a latch under the token of a thread and is no read of that thread. -/
structure Guest where
  /-- The thread whose token it is. -/
  token : ThreadId
  latch : PromiseId
  limited : Bool
  /-- What the call is about to do. Nothing is left once it is over. -/
  stage : Option Reading := some .attempt
  deriving DecidableEq, Repr

/-- A machine, and the calls that the tokens of its threads were handed to. -/
structure Sharing (H : Host) where
  machine : Machine H
  guests : List Guest := []

namespace Sharing

/-- What may happen next. -/
inductive Turn where
  /-- The machine takes a turn. Its threads interrupt, clear, complete and read as they like. -/
  | own (e : OneShot.Turn)
  /-- A guest comes. -/
  | arrive (token : ThreadId) (latch : PromiseId) (limited : Bool)
  /-- A guest makes a step. -/
  | step (i : Nat)
  /-- A sleeping guest wakes: it has been woken, or its deadline passes, or for no reason. -/
  | wake (i : Nat) (late : Bool)
  deriving DecidableEq, Repr

/-- What there is after a turn, if it can be taken. A guest makes the steps of a read, and it takes
guards in the name of the thread whose token it has. -/
def move? (b : Behaviour H) (s : Sharing H) : Sharing.Turn → Option (Sharing H)
  | .own e => (s.machine.move? b e).map fun machine => { s with machine }
  | .arrive token latch limited => some { s with guests := s.guests ++ [{ token, latch, limited }] }
  | .step i => do
    let g ← s.guests[i]?
    let stage ← g.stage
    let (machine, next) ← stage.step s.machine g.token g.latch g.limited .go
    some { machine, guests := s.guests.set i { g with stage := next.reading? } }
  | .wake i late => do
    let g ← s.guests[i]?
    if g.stage = some .asleep ∧ (late = true → g.limited = true) then
      some { s with guests := s.guests.set i { g with stage := some (.lockGate late) } }
    else none

/-- `s'` continues `s` by some turns. -/
inductive Reaches (b : Behaviour H) (s : Sharing H) : Sharing H → Prop
  | refl : Reaches b s s
  | tail {s' s'' : Sharing H} (e : Sharing.Turn) :
    Reaches b s s' → s'.move? b e = some s'' → Reaches b s s''

/-- What is reached from a machine on which no call has been made yet and no guest has come. -/
def Reached (b : Behaviour H) (s : Sharing H) : Prop :=
  ∃ m : Machine H, m.Initial ∧ Reaches b { machine := m } s

/-- What there is after a list of turns, if they can be taken. -/
def moves? (b : Behaviour H) (s : Sharing H) : List Sharing.Turn → Option (Sharing H)
  | [] => some s
  | e :: es => (s.move? b e).bind fun s' => s'.moves? b es

theorem Reaches.trans {s s' s'' : Sharing H} (h : s.Reaches b s') (h' : s'.Reaches b s'') :
    s.Reaches b s'' := by
  induction h' with
  | refl => exact h
  | tail e _ he ih => exact .tail e ih he

theorem Reached.reaches {s s' : Sharing H} (hs : s.Reached b) (h : s.Reaches b s') :
    s'.Reached b := by
  obtain ⟨m, hm, hr⟩ := hs
  exact ⟨m, hm, hr.trans h⟩

theorem reaches_of_moves? {s s' : Sharing H} {es : List Sharing.Turn}
    (h : s.moves? b es = some s') : s.Reaches b s' := by
  induction es generalizing s with
  | nil => cases h; exact .refl
  | cons e es ih =>
    obtain ⟨s₁, h₁, h⟩ := Option.bind_eq_some_iff.1 h
    exact (Reaches.tail e .refl h₁).trans (ih h)

end Sharing

/-! ## Who is parked -/

/-- The latch for which a guest is on the parked list of `u`. -/
def Guest.latch? (u : ThreadId) (g : Guest) : Option PromiseId :=
  g.stage.bind fun s => Reading.latch? u g.token (g.latch, s)

/-- Who can wait under a token. -/
inductive Caller where
  | thread (t : ThreadId)
  | guest (i : Nat)
  deriving DecidableEq, Repr

namespace Sharing

/-- The read that a caller is in: the thread whose token it waits under, its latch and its stage. -/
def read? (s : Sharing H) : Caller → Option (ThreadId × PromiseId × Reading)
  | .thread t => (Stack.read? (s.machine.stack? t)).map (t, ·)
  | .guest i => (s.guests[i]?).bind fun g => g.stage.map (g.token, g.latch, ·)

/-- The latch for which a caller is on the parked list of `u`: it has entered the list and has not
left it. -/
def parked? (s : Sharing H) (u : ThreadId) (x : Caller) : Option PromiseId :=
  (s.read? x).bind fun (t, r) => Reading.latch? u t r

theorem parked?_thread (s : Sharing H) (u t : ThreadId) :
    s.parked? u (.thread t) = (Stack.read? (s.machine.stack? t)).bind (Reading.latch? u t) := by
  simp only [parked?, read?, Option.bind_map]
  rfl

theorem parked?_guest (s : Sharing H) (u : ThreadId) (i : Nat) :
    s.parked? u (.guest i) = (s.guests[i]?).bind (Guest.latch? u) := by
  simp only [parked?, read?, Option.bind_assoc, Option.bind_map]
  rfl

/-- All callers that there are. -/
def callers (s : Sharing H) : List Caller :=
  (List.range s.machine.threads.size).map .thread ++ (List.range s.guests.length).map .guest

end Sharing

/-! ## One turn -/

/-- What a turn does to the entries of all callers and to the list that they are on: one caller may
enter or leave, and the others have the entries that they had. -/
def Shift (before after : Caller → Option PromiseId) (l l' : List PromiseId) : Prop :=
  ∃ x, Parks (before x) (after x) l l' ∧ ∀ y, y ≠ x → after y = before y

theorem Shift.of_eq {before after : Caller → Option PromiseId} (h : ∀ x, after x = before x)
    (l : List PromiseId) : Shift before after l l :=
  ⟨.thread 0, by rw [h]; exact .keep, fun y _ => h y⟩

/-- A step of a read leaves all stacks as they are. -/
theorem Reading.stack?_of_step {m m' : Machine H} {t : ThreadId} {p : PromiseId} {limited : Bool}
    {s : Reading} {n : Next H} (h : s.step m t p limited .go = some (m', n)) (u : ThreadId) :
    m'.stack? u = m.stack? u := by
  -- A read writes to the token of its thread and to the gate, and neither is on a stack.
  have htoken : ∀ g : Token → Token,
      (m.modifyThread t fun th => { th with token := g th.token }).stack? u = m.stack? u := by
    intro g
    simp only [Machine.stack?, Machine.thread?_modifyThread]
    split
    · simp [Function.comp_def]
    · rfl
  obtain ⟨pr, -, h⟩ := Option.bind_eq_some_iff.1 h
  obtain ⟨th, -, h⟩ := Option.bind_eq_some_iff.1 h
  cases s with
  | lockParked | relockParked =>
    obtain ⟨parked, -, h⟩ := Option.bind_eq_some_iff.1 h
    cases h
    exact htoken fun tk => { tk with parked }
  | park => cases h; exact htoken fun tk => { tk with parked := _ }
  | unpark r =>
    cases r <;> cases h <;> exact htoken fun tk => { tk with parked := _ }
  | lockGate =>
    obtain ⟨gate, -, h⟩ := Option.bind_eq_some_iff.1 h
    cases h
    rfl
  | asleep => cases h
  | fetch =>
    dsimp only at h
    split at h <;> cases h <;> rfl
  | _ => cases h; rfl

namespace Sharing

variable {s s' : Sharing H}

/-- The machine of a sharing can be written down: its stacks are those of a chronicle. -/
def Tracked (s : Sharing H) : Prop := ∃ c : Chronicle H, c.Tracked ∧ c.machine = s.machine

theorem Tracked.of_stack? {m : Machine H} {l : List Guest} (hs : s.Tracked)
    (h : ∀ u, m.stack? u = s.machine.stack? u) : Tracked { machine := m, guests := l } := by
  obtain ⟨c, hc, hm⟩ := hs
  have hstack : ∀ u, m.stack? u = c.machine.stack? u := fun u => by rw [h, hm]
  exact ⟨{ c with machine := m },
    ⟨fun t k fs ht => hc.stack t k fs ((hstack t).symm.trans ht),
      fun t ht => hc.absent t ((hstack t).symm.trans ht)⟩, rfl⟩

/-- What a turn of the machine makes of the entries and of a parked list. -/
theorem Tracked.shift_own (hs : s.Tracked) {e : OneShot.Turn} {m : Machine H}
    (h : s.machine.move? b e = some m) :
    Tracked { s with machine := m } ∧ ∀ u,
      Shift (s.parked? u) (parked? { s with machine := m } u) (s.machine.parked u)
        (m.parked u) := by
  obtain ⟨machine, guests⟩ := s
  obtain ⟨c, hc, rfl⟩ := hs
  obtain ⟨c', he, rfl⟩ := hc.exists_turn? h
  obtain ⟨μ, hμ, rfl⟩ := Chronicle.exists_extends_of_turn? hc he
  refine ⟨⟨_, hc.record hμ, rfl⟩, fun u => ⟨.thread μ.call.thread, ?_, fun y hy => ?_⟩⟩
  · rw [parked?_thread, parked?_thread]
    exact hμ.parks hc u
  · cases y with
    | guest i => rfl
    | thread v =>
      have hv : v ≠ μ.call.thread := fun hv => hy (by rw [hv])
      have hch := hμ.made.effect.stack v hv
      rw [hμ.before] at hch
      rw [parked?_thread, parked?_thread]
      exact hch.latch?_eq

/-- The entries after a guest has changed. -/
theorem parked?_set {i : Nat} {g : Guest} (hg : s.guests[i]? = some g) {m : Machine H}
    (hm : ∀ v, m.stack? v = s.machine.stack? v) (g' : Guest) (u : ThreadId) (x : Caller) :
    parked? { machine := m, guests := s.guests.set i g' } u x =
      if x = .guest i then g'.latch? u else s.parked? u x := by
  cases x with
  | thread v => rw [parked?_thread, parked?_thread, hm, if_neg Caller.noConfusion]
  | guest j =>
    have hi : i < s.guests.length := (List.getElem?_eq_some_iff.1 hg).1
    rw [parked?_guest, parked?_guest, List.getElem?_set]
    by_cases hij : i = j
    · subst hij
      simp [hi]
    · simp [hij, Ne.symm hij]

/-- What a step of a guest makes of the entries and of a parked list. -/
theorem Tracked.shift_step (hs : s.Tracked) {i : Nat} {g : Guest} {stage : Reading}
    (hg : s.guests[i]? = some g) (hstage : g.stage = some stage) {m : Machine H} {n : Next H}
    (h : stage.step s.machine g.token g.latch g.limited .go = some (m, n)) :
    let s' : Sharing H := { machine := m, guests := s.guests.set i { g with stage := n.reading? } }
    s'.Tracked ∧ ∀ u, Shift (s.parked? u) (s'.parked? u) (s.machine.parked u) (m.parked u) := by
  have hstack := Reading.stack?_of_step h
  refine ⟨hs.of_stack? hstack, fun u => ⟨.guest i, ?_, fun y hy => ?_⟩⟩
  · have ht : s.machine.token? g.token ≠ none := by
      obtain ⟨pr, -, h⟩ := Option.bind_eq_some_iff.1 h
      obtain ⟨th, ht, h⟩ := Option.bind_eq_some_iff.1 h
      simp [Machine.token?, ht]
    have hparks := (Reading.moves_of_step h rfl).parks ht
      ((Reading.keeping_of_step h rfl).tokens u)
    rw [parked?_set hg hstack, if_pos rfl, parked?_guest, hg, Option.bind_some, Guest.latch?,
      hstage]
    exact hparks
  · rw [parked?_set hg hstack, if_neg hy]

/-- A turn makes at most one call enter a parked list or leave it. -/
theorem Tracked.shift (hs : s.Tracked) {e : Sharing.Turn} (h : s.move? b e = some s') :
    s'.Tracked ∧
      ∀ u, Shift (s.parked? u) (s'.parked? u) (s.machine.parked u) (s'.machine.parked u) := by
  cases e with
  | own e =>
    obtain ⟨m, hm, rfl⟩ := Option.map_eq_some_iff.1 h
    exact hs.shift_own hm
  | arrive token latch limited =>
    cases h
    refine ⟨hs.of_stack? fun _ => rfl, fun u => .of_eq (fun x => ?_) _⟩
    cases x with
    | thread t => rfl
    | guest i =>
      -- A guest that comes has not entered the list.
      rw [parked?_guest, parked?_guest, List.getElem?_append]
      split
      · rfl
      · rename_i hi
        rw [List.getElem?_eq_none (Nat.le_of_not_lt hi), List.getElem?_singleton]
        split
        · simp [Guest.latch?, Reading.latch?, Reading.isParked]
        · rfl
  | step i =>
    obtain ⟨g, hg, h⟩ := Option.bind_eq_some_iff.1 h
    obtain ⟨stage, hstage, h⟩ := Option.bind_eq_some_iff.1 h
    obtain ⟨⟨m, n⟩, hstep, h⟩ := Option.bind_eq_some_iff.1 h
    cases h
    exact hs.shift_step hg hstage hstep
  | wake i late =>
    obtain ⟨g, hg, h⟩ := Option.bind_eq_some_iff.1 h
    split at h
    · rename_i hw
      cases h
      refine ⟨hs.of_stack? fun _ => rfl, fun u => .of_eq (fun x => ?_) _⟩
      rw [parked?_set hg fun _ => rfl]
      split
      · rename_i hx
        -- It sleeps and is about to take the gate: it is parked all the while.
        rw [hx, parked?_guest, hg, Option.bind_some, Guest.latch?, Guest.latch?, hw.1]
        rfl
      · rfl
    · cases h

end Sharing

/-! ## Entries of all callers -/

section

variable {α β : Type} {l l' : List α} {f g : α → Option β}

/-- A list without repetitions gives all values of a function if it has all places where there are
any. -/
theorem perm_filterMap (hl : l.Nodup) (hl' : l'.Nodup) (h : ∀ x, f x ≠ none → x ∈ l)
    (h' : ∀ x, f x ≠ none → x ∈ l') : (l.filterMap f).Perm (l'.filterMap f) := by
  have hfilter : ∀ k : List α, k.filterMap f = (k.filter fun x => (f x).isSome).filterMap f := by
    intro k
    rw [List.filterMap_filter]
    exact List.filterMap_congr fun x _ => by cases f x <;> rfl
  rw [hfilter l, hfilter l']
  refine List.Perm.filterMap f ((List.perm_ext_iff_of_nodup (hl.filter _) (hl'.filter _)).2 ?_)
  intro x
  simp only [List.mem_filter, Option.isSome_iff_ne_none]
  exact ⟨fun hx => ⟨h' x hx.2, hx.2⟩, fun hx => ⟨h x hx.2, hx.2⟩⟩

/-- If two functions differ at one place only, so do their values. -/
theorem perm_filterMap_of_eq_off [DecidableEq α] (hl : l.Nodup) (hl' : l'.Nodup)
    (h : ∀ x, f x ≠ none → x ∈ l) (h' : ∀ x, g x ≠ none → x ∈ l') {x : α}
    (hx : ∀ y, y ≠ x → g y = f y) :
    ((f x).toList ++ l'.filterMap g).Perm ((g x).toList ++ l.filterMap f) := by
  -- Both lists are replaced by one that has all places of both, and `x`.
  have hmem : x ∈ (x :: (l ++ l')).dedup := by simp
  have hnodup := List.nodup_dedup (x :: (l ++ l'))
  have hf : ∀ y, f y ≠ none → y ∈ (x :: (l ++ l')).dedup := fun y hy => by simp [h y hy]
  have hg : ∀ y, g y ≠ none → y ∈ (x :: (l ++ l')).dedup := fun y hy => by simp [h' y hy]
  generalize (x :: (l ++ l')).dedup = k at hmem hnodup hf hg
  have hsplit : ∀ e : α → Option β,
      (k.filterMap e).Perm ((e x).toList ++ (k.erase x).filterMap e) := by
    intro e
    have hperm := (List.perm_cons_erase hmem).filterMap e
    cases he : e x with
    | none => simpa [List.filterMap_cons, he] using hperm
    | some v => simpa [List.filterMap_cons, he] using hperm
  have hrest : (k.erase x).filterMap g = (k.erase x).filterMap f :=
    List.filterMap_congr fun y hy => hx y fun hyx => hnodup.not_mem_erase (hyx ▸ hy)
  calc (f x).toList ++ l'.filterMap g
    List.Perm _ ((f x).toList ++ ((g x).toList ++ (k.erase x).filterMap g)) :=
        ((perm_filterMap hl' hnodup h' hg).trans (hsplit g)).append_left _
    _ = (f x).toList ++ ((g x).toList ++ (k.erase x).filterMap f) := by rw [hrest]
    List.Perm _ ((g x).toList ++ ((f x).toList ++ (k.erase x).filterMap f)) :=
        List.perm_append_comm_assoc ..
    List.Perm _ ((g x).toList ++ l.filterMap f) :=
        ((perm_filterMap hl hnodup h hf).trans (hsplit f)).symm.append_left _

end

/-- A list that holds the entries of all callers does so after a turn. -/
theorem Shift.perm {before after : Caller → Option PromiseId} {l l' : List PromiseId}
    (h : Shift before after l l') {k k' : List Caller} (hk : k.Nodup) (hk' : k'.Nodup)
    (hb : ∀ x, before x ≠ none → x ∈ k) (ha : ∀ x, after x ≠ none → x ∈ k')
    (hl : l.Perm (k.filterMap before)) : l'.Perm (k'.filterMap after) := by
  obtain ⟨x, hx, hy⟩ := h
  have hperm := perm_filterMap_of_eq_off hk hk' hb ha hy
  generalize before x = v, after x = v' at hx hperm
  cases hx with
  | keep => exact hl.trans ((List.perm_append_left_iff _).1 hperm).symm
  | @enter p =>
    calc Token.park l p
      List.Perm _ (p :: l) := List.perm_append_singleton p l
      List.Perm _ (p :: k.filterMap before) := hl.cons p
      List.Perm _ (k'.filterMap after) := hperm.symm
  | @leave p =>
    calc Token.unpark l p
      List.Perm _ (l.erase p) := Token.perm_unpark l p
      List.Perm _ ((k.filterMap before).erase p) := hl.erase p
      List.Perm _ ((p :: k'.filterMap after).erase p) := hperm.symm.erase p
      _ = k'.filterMap after := List.erase_cons_head ..

/-- A caller that leaves a list takes an entry for its own latch off. -/
theorem Shift.leave {before after : Caller → Option PromiseId} {l l' : List PromiseId}
    (h : Shift before after l l') {x : Caller} {p : PromiseId} (hb : before x = some p)
    (ha : after x = none) : l' = Token.unpark l p ∧ ∀ y, y ≠ x → after y = before y := by
  obtain ⟨y, hy, hne⟩ := h
  obtain rfl : x = y := by
    by_contra hxy
    have hx := hne x hxy
    rw [hb, ha] at hx
    cases hx
  rw [hb, ha] at hy
  cases hy
  exact ⟨rfl, hne⟩

namespace Sharing

variable {s s' : Sharing H}

theorem nodup_callers (s : Sharing H) : s.callers.Nodup := by
  refine List.nodup_append'.2 ⟨?_, ?_, ?_⟩
  · exact List.nodup_range.map fun _ _ h => Caller.thread.inj h
  · exact List.nodup_range.map fun _ _ h => Caller.guest.inj h
  · intro x hx hx'
    obtain ⟨t, -, rfl⟩ := List.mem_map.1 hx
    obtain ⟨i, -, hi⟩ := List.mem_map.1 hx'
    cases hi

theorem mem_callers_of_parked? {u : ThreadId} {x : Caller} (h : s.parked? u x ≠ none) :
    x ∈ s.callers := by
  obtain ⟨p, hp⟩ := Option.ne_none_iff_exists'.1 h
  refine List.mem_append.2 ?_
  cases x with
  | thread t =>
    rw [parked?_thread] at hp
    obtain ⟨r, hr, -⟩ := Option.bind_eq_some_iff.1 hp
    refine .inl (List.mem_map_of_mem (List.mem_range.2 (Nat.lt_of_not_le fun ht => ?_)))
    have hnone : s.machine.stack? t = none := by
      simp [Machine.stack?, Machine.thread?, Array.getElem?_eq_none ht]
    rw [hnone] at hr
    cases hr
  | guest i =>
    rw [parked?_guest] at hp
    obtain ⟨g, hg, -⟩ := Option.bind_eq_some_iff.1 hp
    exact .inr (List.mem_map_of_mem (List.mem_range.2 (List.getElem?_eq_some_iff.1 hg).1))

/-! ## All runs -/

theorem tracked_of_initial {m : Machine H} (hm : m.Initial) : Tracked { machine := m } :=
  ⟨.start m, Chronicle.tracked_start hm, rfl⟩

/-- At the start nobody is parked. -/
theorem parked?_of_initial {m : Machine H} (hm : m.Initial) (u : ThreadId) (x : Caller) :
    parked? { machine := m } u x = none := by
  cases x with
  | guest i => rfl
  | thread t =>
    rw [parked?_thread]
    cases ht : m.thread? t with
    | none => simp [Machine.stack?, ht, Stack.read?]
    | some th =>
      have hstack : m.stack? t = some (th.control, th.frames) := by rw [Machine.stack?, ht]; rfl
      rw [hstack]
      refine Stack.latch?_eq_none fun f hf => ?_
      rcases hm.threads th (Array.mem_of_getElem? ht) with hnil | ⟨work, hwork, -⟩
      · rw [hnil] at hf
        cases hf
      · rw [hwork] at hf
        cases hf
        rfl

theorem parked_of_initial {m : Machine H} (hm : m.Initial) (u : ThreadId) : m.parked u = [] := by
  rw [Machine.parked, Machine.token?]
  cases hu : m.thread? u with
  | none => rfl
  | some th =>
    simp only [Option.map_some, Option.getD_some, hm.tokens th (Array.mem_of_getElem? hu)]
    rfl

theorem Reached.tracked (hs : s.Reached b) : s.Tracked := by
  obtain ⟨m, hm, hr⟩ := hs
  induction hr with
  | refl => exact tracked_of_initial hm
  | tail e _ he ih => exact (ih.shift he).1

/-- The parked list of a thread holds the latches of the calls that are parked under its token, each
as often as there are such calls. -/
theorem Reached.perm (hs : s.Reached b) (u : ThreadId) :
    (s.machine.parked u).Perm (s.callers.filterMap (s.parked? u)) := by
  obtain ⟨m, hm, hr⟩ := hs
  induction hr with
  | refl =>
    rw [parked_of_initial hm, List.filterMap_eq_nil_iff.2 fun x _ => parked?_of_initial hm u x]
  | @tail s s' e hr he ih =>
    have hreached : s.Reached b := ⟨m, hm, hr⟩
    exact ((hreached.tracked.shift he).2 u).perm s.nodup_callers s'.nodup_callers
      (fun _ => mem_callers_of_parked?) (fun _ => mem_callers_of_parked?) ih

theorem Reached.mem (hs : s.Reached b) {u : ThreadId} {x : Caller} {p : PromiseId}
    (hx : s.parked? u x = some p) : p ∈ s.machine.parked u := by
  have hcaller : x ∈ s.callers := mem_callers_of_parked? (hx ▸ Option.some_ne_none p)
  exact (hs.perm u).mem_iff.2 (List.mem_filterMap.2 ⟨x, hcaller, hx⟩)

theorem Reached.eq_nil (hs : s.Reached b) {u : ThreadId} (h : ∀ x, s.parked? u x = none) :
    s.machine.parked u = [] := by
  have hperm := hs.perm u
  rw [List.filterMap_eq_nil_iff.2 fun x _ => h x] at hperm
  exact hperm.eq_nil

end Sharing

/-! ## Without guests -/

namespace Chronicle

variable {c : Chronicle H} {u : ThreadId} {th : Thread H}

/-- A run of a machine is one to which no guest comes. -/
theorem Reached.sharing (hc : c.Reached b) : Sharing.Reached b { machine := c.machine } := by
  obtain ⟨m, hm, hr⟩ := hc
  refine ⟨m, hm, ?_⟩
  induction hr with
  | refl => exact .refl
  | tail e _ he ih =>
    exact .tail (.own e) ih (by rw [Sharing.move?, machine_of_turn? he, Option.map_some])

/-- The parked list of a thread whose top call is no parked read is empty. -/
theorem Reached.parked_eq_nil (hc : c.Reached b) (hu : c.machine.thread? u = some th)
    (hf : ∀ f ∈ th.frames.head?, f.parks = []) : th.token.parked.data = [] := by
  have hnil : c.machine.parked u = [] := by
    refine hc.sharing.eq_nil fun x => ?_
    cases x with
    | guest i => rfl
    | thread t =>
      rw [Sharing.parked?_thread]
      by_cases htu : t = u
      · subst htu
        have hstack : c.machine.stack? t = some (th.control, th.frames) := by
          rw [Machine.stack?, hu, Option.map_some]
        rw [hstack]
        exact Stack.latch?_eq_none hf
      · exact Option.bind_eq_none_iff.2 fun r _ => Reading.latch?_of_ne htu r
  rwa [Machine.parked, Machine.token?, hu] at hnil

/-- The latch of a parked read is on the parked list of its thread. -/
theorem Reached.parked (hc : c.Reached b) {i : CallId} {p : PromiseId} {limited : Bool}
    {s : Reading} (hi : c.frame? i = some (.reading p limited s)) (hs : s.isParked = true) :
    ∃ tk, c.machine.token? i.thread = some tk ∧ p ∈ tk.parked.data := by
  obtain ⟨k, rest, token, hth⟩ := hc.tracked.thread?_of_not_awaits hi rfl
  have hmem : p ∈ c.machine.parked i.thread := by
    refine hc.sharing.mem (x := .thread i.thread) ?_
    rw [Sharing.parked?_thread, Machine.stack?, hth]
    simp [Stack.read?, Reading.latch?, hs]
  rw [Machine.parked, Machine.token?, hth] at hmem
  exact ⟨token.bare, by rw [Machine.token?, hth, Option.map_some], hmem⟩

end Chronicle

/-! ## The accounts -/

namespace Sharing

variable {s s' : Sharing H}

theorem parked?_of_read? {x : Caller} (hx : s.read? x = none) (u : ThreadId) :
    s.parked? u x = none := by
  rw [parked?, hx, Option.bind_none]

/-- What the parked lists of a machine with guests hold. -/
structure Accounted (b : Behaviour H) (s : Sharing H) : Prop where
  /-- The list of a thread holds the latches of the calls that have entered it and have not left it,
  each as often as there are such calls. -/
  listed : ∀ u, (s.machine.parked u).Perm (s.callers.filterMap (s.parked? u))
  /-- The latch of every sleeper is on the list that an interrupt copies. -/
  asleep : ∀ x u p, s.read? x = some (u, p, .asleep) → p ∈ s.machine.parked u
  /-- When no call waits under a token, its list is empty. -/
  idle : ∀ u, (∀ x p r, s.read? x ≠ some (u, p, r)) → s.machine.parked u = []
  /-- A turn makes one call enter the list of a thread, or one leave it, or does nothing to it. -/
  turn : ∀ e s' u, s.move? b e = some s' →
    Shift (s.parked? u) (s'.parked? u) (s.machine.parked u) (s'.machine.parked u)
  /-- A call that leaves takes one entry off, which is for its own latch. All other calls keep the
  entries that they have. -/
  leave : ∀ e s' u x p, s.move? b e = some s' → s.parked? u x = some p → s'.parked? u x = none →
    (s.machine.parked u).Perm (p :: s'.machine.parked u) ∧
      ∀ y, y ≠ x → s'.parked? u y = s.parked? u y
  /-- The list holds what it held before if each caller is as it was or is in no read, whatever
  reads it has made in between. -/
  back : ∀ s' u, s.Reaches b s' →
    (∀ x, s.read? x = none ∧ s'.read? x = none ∨ s'.parked? u x = s.parked? u x) →
    (s'.machine.parked u).Perm (s.machine.parked u)

/-- Whatever a machine does and however many other calls wait under the tokens of its threads, in
whatever order: the parked list of a token holds the latches of the calls that are parked under it,
and each of them takes off what it has put on. -/
theorem accounts_for_parked (hs : s.Reached b) : s.Accounted b := by
  refine ⟨hs.perm, fun x u p hx => ?_, fun u hidle => ?_,
    fun e s' u he => (hs.tracked.shift he).2 u, fun e s' u x p he hx hx' => ?_,
    fun s' u hr hsame => ?_⟩
  · exact hs.mem (x := x) (by simp [parked?, hx, Reading.latch?, Reading.isParked])
  · refine hs.eq_nil fun x => ?_
    cases hx : s.read? x with
    | none => exact parked?_of_read? hx u
    | some r =>
      obtain ⟨t, p, stage⟩ := r
      have htu : t ≠ u := fun htu => hidle x p stage (htu ▸ hx)
      rw [parked?, hx, Option.bind_some]
      exact Reading.latch?_of_ne htu (p, stage)
  · obtain ⟨hl, hy⟩ := ((hs.tracked.shift he).2 u).leave hx hx'
    refine ⟨?_, hy⟩
    rw [hl]
    exact (List.perm_cons_erase (hs.mem hx)).trans ((Token.perm_unpark _ p).symm.cons p)
  · -- Each list is a permutation of what the parked calls hold, and these hold what they held.
    have heq : s'.parked? u = s.parked? u := by
      funext x
      rcases hsame x with ⟨hx, hx'⟩ | hx
      · rw [parked?_of_read? hx, parked?_of_read? hx']
      · exact hx
    calc s'.machine.parked u
      List.Perm _ (s'.callers.filterMap (s'.parked? u)) := (hs.reaches hr).perm u
      List.Perm _ (s.callers.filterMap (s'.parked? u)) :=
          perm_filterMap s'.nodup_callers s.nodup_callers (fun _ => mem_callers_of_parked?)
            fun x hx => mem_callers_of_parked? (heq ▸ hx)
      List.Perm _ (s.machine.parked u) := by
          rw [heq]
          exact (hs.perm u).symm

/-- A thread makes two promises and interrupts itself, or others who have its token. -/
def crowd : (r : Role) → Nat → Act Tabled r
  | .task, 0 => .call (.build {}) 1
  | .task, 1 => .call (.build {}) 2
  | .task, 2 => .call (.interrupt 0) 3
  | r, _ => Tabled.quiet r

/-- Three guests wait under the token of the thread, the first and the last of them for the same
latch. The thread interrupts, and the first guest leaves. -/
def visit : Option (Sharing Tabled) :=
  moves? (Tabled.behaviour crowd) { machine := (Tabled.start [0]).machine }
    (List.replicate 4 (.own (.step 0)) ++
      [.arrive 0 0 false, .arrive 0 1 true, .arrive 0 0 false] ++
      [0, 1, 2].flatMap (fun i => List.replicate 7 (.step i)) ++
      List.replicate 6 (.own (.step 0)) ++ [.wake 0 false] ++ List.replicate 6 (.step 0))

/-- Both guests that sleep on have their entries, and that of the last one fills the gap. -/
theorem accounts_for_parked_visit : ∃ s, visit = some s ∧ s.Reached (Tabled.behaviour crowd) ∧
    s.Accounted (Tabled.behaviour crowd) ∧ s.machine.parked 0 = [0, 1] ∧
    s.guests.map (·.stage) = [none, some .asleep, some .asleep] := by
  have hrun : (visit.any fun s => s.machine.parked 0 == [0, 1] &&
      s.guests.map (·.stage) == [none, some .asleep, some .asleep]) = true := by
    decide +kernel
  obtain ⟨s, hrun, hend⟩ := (Option.any_eq_true _ _).1 hrun
  simp only [Bool.and_eq_true, beq_iff_eq] at hend
  have hs : s.Reached (Tabled.behaviour crowd) :=
    ⟨_, Tabled.initial [0], reaches_of_moves? hrun⟩
  exact ⟨s, hrun, hs, accounts_for_parked hs, hend⟩

end Sharing

end OneShot
