import OneShot.Proofs.Waking.Lodging

/-!
# What a dropped wait leaves behind

A wait that has been dropped leaves no entry behind, with one exception. If the latch opens between
the first look of a poll and its registration, the poll is refused and forgets the key that the wait
had. The drop then has nothing to remove, and the entry stays until the winner takes the set and
calls its waker.

- **Polls that are overtaken** (`Reached.overtaken`): the latch has opened since the poll looked.
- **Dropped for good** (`Chronicle.Gone`, `Gone.reaches`).
- **What is left** (`leaves_entry_iff_forfeited`), and the run in which an entry is (`eviction`).
-/

namespace OneShot

variable {H : Host} {b : Behaviour H}

theorem Frame.Enters.of_polling {f : Frame H} {v : WaitId} {x : H.Closure .waker} {s : Polling}
    (h : f.Enters (.polling v x s)) : s = .attempt := by
  generalize hg : Frame.polling v x s = g at h
  cases h with
  | @code f callee hf => cases callee <;> cases hg; rfl
  | deliver | check | enroll | transform => cases hg

/-- The wait that is dropped at a stage. -/
def Frame.dropping? : Frame H → Option WaitId
  | .dropping v => some v
  | _ => none

namespace Chronicle

variable {c c' : Chronicle H} {μ : Moment H} {p : PromiseId} {v : WaitId} {wait : Wait} {k : Nat}
  {pr : Promise H} {x : H.Closure .waker} {s : Polling} {i : CallId}

/-! ## Polls that are overtaken -/

/-- A poll goes on from its first look only if it finds the promise pending. -/
theorem Extends.pending_of_look (hc : c.Reached b) (h : c.Extends b μ)
    (hf : μ.frame = .polling v x .attempt) (hn : μ.next.own μ.frame ≠ none) :
    ∃ wait, μ.before.wait? v = some wait ∧ μ.before.isDone wait.promise = false := by
  have hgo := h.control hc.tracked
  rw [hf] at hgo
  cases h.made with
  | step _ _ hs _ =>
    rw [hf, hgo.resolve_right Bool.false_ne_true] at hs
    have hs' : Polling.step μ.before μ.call.thread v x .go .attempt = some (_, μ.next) := hs
    obtain ⟨wait, hw⟩ := Polling.exists_wait hs' fun y hy => hn (by rw [hy]; rfl)
    refine ⟨wait, hw, eq_false_of_ne_true fun hd => hn ?_⟩
    rw [h.before] at hs hw hd
    obtain ⟨o, -, hpoll⟩ := hc.poll_of_isDone hd
    rw [hpoll v wait x _ hw rfl] at hs
    obtain ⟨-, hnext⟩ := Prod.mk.inj (Option.some.inj hs)
    rw [← hnext]
    rfl
  | wake _ hf' => rw [hf] at hf'; cases hf'

/-- A poll that is past its first look has found the promise pending. -/
theorem Reached.looked (hc : c.Reached b) (hi : c.frame? i = some (.polling v x s))
    (hs : s ≠ .attempt) : ∃ ν ∈ c.past, ν.call = i ∧ ν.frame = .polling v x .attempt ∧
      ∃ wait, ν.before.wait? v = some wait ∧ ν.before.isDone wait.promise = false := by
  induction c, hc using Reached.induction generalizing s with
  | start m hm => obtain ⟨work, hwork⟩ := frame?_start hm hi; cases hwork
  | record c μ hc hμ hc' ih =>
    -- What was found before the moment is found among the moments after it.
    have hmono : ∀ s', c.frame? i = some (.polling v x s') → s' ≠ .attempt →
        ∃ ν ∈ (c.record μ).past, ν.call = i ∧ ν.frame = .polling v x .attempt ∧
          ∃ wait, ν.before.wait? v = some wait ∧ ν.before.isDone wait.promise = false := by
      intro s' hi' hs'
      obtain ⟨ν, hν, hν'⟩ := ih hi' hs'
      exact ⟨ν, mem_record_of_mem hν, hν'⟩
    rcases steady_record hc.tracked hμ hi rfl with ⟨rfl, hown⟩ | ⟨-, hcal⟩ | ⟨-, -, hold⟩
    · obtain ⟨s', hf⟩ : ∃ s', μ.frame = .polling v x s' := by
        rcases hμ.made.leads.sameCall hown with hf | hsame
        · exact ⟨s, hf⟩
        · exact hsame.of_polling
      by_cases hs' : s' = .attempt
      · subst hs'
        exact ⟨μ, mem_record_self, rfl, hf,
          hμ.pending_of_look hc hf (by rw [hown]; exact Option.some_ne_none _)⟩
      · exact hmono s' (by rw [hμ.frame? hc.tracked, hf]) hs'
    · exact absurd (hμ.made.leads.enters hcal).of_polling hs
    · exact hmono s hold hs

/-- A poll that gives up the key of its wait has been overtaken by the opening of the latch. -/
theorem Reached.overtaken (hc : c.Reached b) (hw : c.machine.wait? v = some wait)
    (hμ : μ ∈ c.past) (hf : μ.Forfeits v) : ∃ ν ∈ c.past, ν.call = μ.call ∧
      (∃ x, ν.frame = .polling v x .attempt) ∧ ν.before.isDone wait.promise = false ∧
        μ.before.isDone wait.promise = true := by
  obtain ⟨c₀, hc₀, h, hturn, hl⟩ := hc.reaches_of_mem hμ
  obtain ⟨wait₀, hw₀, hdone⟩ := h.isDone_of_forfeits hc₀ hf
  obtain ⟨⟨x, hreg⟩, -⟩ := hf
  obtain ⟨ν, hν, hi, hlook, wait₁, hw₁, hopen⟩ :=
    hc₀.looked (by rw [h.frame? hc₀.tracked, hreg]) (s := .register) nofun
  obtain ⟨l, hpast⟩ := (hturn.trans hl).exists_past hc₀
  -- All three look at one promise.
  have hsame : ∀ {c₁ : Chronicle H} {wait₁}, c₁.Reached b → c₁.Reaches b c →
      c₁.machine.wait? v = some wait₁ → wait₁.promise = wait.promise := by
    intro c₁ wait₁ hc₁ hl₁ hw₁
    obtain ⟨wait', hw', hpe, -⟩ := hl₁.wait hc₁ hw₁
    obtain rfl := Option.some.inj (hw.symm.trans hw')
    exact hpe.symm
  obtain ⟨c₁, hc₁, h₁, hturn₁, hl₁⟩ := hc₀.reaches_of_mem hν
  have hp₁ := hsame hc₁ ((hturn₁.trans hl₁).trans (hturn.trans hl)) (h₁.before ▸ hw₁)
  have hp₀ := hsame hc₀ (hturn.trans hl) hw₀
  exact ⟨ν, hpast ▸ List.mem_append_left _ hν, hi, ⟨x, hlook⟩, hp₁ ▸ hopen,
    by rw [h.before, ← hp₀, hdone]⟩

/-! ## Dropped for good -/

/-- Wait `v` has been dropped and no call that drops it is under way. -/
def Gone (c : Chronicle H) (v : WaitId) : Prop :=
  (∃ wait, c.machine.wait? v = some wait ∧ wait.dropped = true) ∧ ∀ i, ¬c.Leaving v i

/-- It can be decided on a run whether a wait is gone. -/
theorem gone_of_all (hw : ((c.machine.wait? v).any Wait.dropped) = true)
    (h : (c.past.all fun μ => μ.frame.dropping? != some v || (c.frame? μ.call).isNone) = true) :
    c.Gone v := by
  refine ⟨(Option.any_eq_true _ _).1 hw, ?_⟩
  rintro i ⟨⟨μ, hμ, rfl, hf⟩, hne⟩
  have hall := List.all_eq_true.1 h μ hμ
  rw [hf, Frame.dropping?, bne_self_eq_false, Bool.false_or] at hall
  exact hne (Option.isNone_iff_eq_none.1 hall)

theorem Gone.record (hc : c.Reached b) (h : c.Extends b μ) (hx : (c.record μ).Exclusive)
    (hg : c.Gone v) : (c.record μ).Gone v ∧ ((c.record μ).Forfeited v ↔ c.Forfeited v) := by
  obtain ⟨⟨wait, hw, hd⟩, hl⟩ := hg
  have hf : ∀ x, μ.frame ≠ .polling v x .register := by
    intro x hf
    rw [hx.dropped_eq h hf hw] at hd
    cases hd
  obtain ⟨wait', hw', -⟩ := h.wait hw
  obtain ⟨es, hm, -⟩ := h.wait_moves hc hw'
  rw [hw] at hm
  refine ⟨⟨⟨wait', hw', ?_⟩, fun i hi => ?_⟩, forfeited_record_of_ne hf⟩
  · cases hx : wait'.dropped with
    | true => rfl
    | false => rw [hm.of_some.2 hx] at hd; cases hd
  · rcases h.leaving hc hi with hi | ⟨-, hdrop, hown⟩
    · exact hl i hi
    · -- A wait that has been dropped has no key whose entry could be removed.
      obtain ⟨hkey, -⟩ := hc.departed hx.of_record hw rfl hd
      have hm := (h.sound hc.tracked).dropping hdrop
      rw [h.before] at hm
      generalize μ.next = n at hm hown
      cases hm with
      | bare => exact hown rfl
      | keyed hw₀ hkey₀ =>
        obtain rfl := Option.some.inj (hw.symm.trans hw₀)
        rw [hkey] at hkey₀
        cases hkey₀

/-- A wait that is gone stays gone, and gives up no key any more. -/
theorem Gone.reaches (hc : c.Reached b) (hl : c.Reaches b c') (hx : c'.Exclusive)
    (hg : c.Gone v) : c'.Gone v ∧ (c'.Forfeited v ↔ c.Forfeited v) := by
  induction hl with
  | refl => exact ⟨hg, .rfl⟩
  | tail e hl he ih =>
    have hr := hc.reaches hl
    obtain ⟨μ, hμ, rfl⟩ := exists_extends_of_turn? hr.tracked he
    obtain ⟨hg', hiff⟩ := ih hx.of_record
    obtain ⟨hg'', hiff'⟩ := hg'.record hr hμ hx
    exact ⟨hg'', hiff'.trans hiff⟩

/-! ## What is left -/

/-- An entry is left under the key of a wait that is gone exactly if a poll had given the key up and
the set has not been taken yet. -/
theorem Gone.entry_iff (hc : c.Reached b) (hx : c.Exclusive) (hg : c.Gone v)
    (hp : c.machine.promise? p = some pr) (ho : c.Owns p v k) :
    c.machine.waker? p k ≠ none ↔ c.Forfeited v ∧ pr.wakers.data.taken = false := by
  obtain ⟨⟨wait, hw, hd⟩, hl⟩ := hg
  obtain ⟨wait', hw', hwp, e, he, rfl⟩ := ho
  obtain rfl := Option.some.inj (hw.symm.trans hw')
  have hcells := Machine.cells?_eq_some hp
  rw [waker?_of_cells hcells]
  -- The drop has removed the entry, unless there was no key to remove it by.
  cases (hc.departed hx hw hwp hd).2 with
  | fresh hn => rw [hn] at he; cases he
  | leaving _ hi => exact absurd hi (hl _)
  | gone hs _ hf =>
    obtain ⟨-, hkeys, pr', hp', hnone⟩ := hs
    obtain rfl := Option.some.inj (hcells.symm.trans hp')
    rw [hkeys e he, hnone]
    exact iff_of_false (fun h => h rfl) fun h => hf h.1
  | stale hs _ hf =>
    rw [hs.keys e he]
    refine ⟨fun hne => ⟨hf, eq_false_of_ne_true fun ht => hne ?_⟩, fun ⟨_, ht⟩ hnone => ?_⟩
    · rw [WakerSet.get?, hc.entries_eq_nil hcells ht, List.lookup_nil]
    · obtain ⟨s, x, hget, -⟩ := hs.exists_waker hcells ht
      rw [hget] at hnone
      cases hnone

/-- What is left of wait `v` on `p` once it is gone. -/
structure Residue (b : Behaviour H) (c : Chronicle H) (p : PromiseId) (v : WaitId) : Prop where
  /-- Its entry, exactly if a poll had given up its key and the set has not been taken yet. -/
  entry : ∀ pr k, c.machine.promise? p = some pr → c.Owns p v k →
    (c.machine.waker? p k ≠ none ↔ c.Forfeited v ∧ pr.wakers.data.taken = false)
  /-- A completion that takes the set afterwards takes a waker of the wait in just that case. -/
  taken : ∀ c' τ k, c.Reaches b c' → c'.Exclusive → c'.Extends b τ →
    τ.frame = .completing p .takeWakers → c.Owns p v k →
    (c'.machine.waker? p k ≠ none ↔ c.Forfeited v)
  /-- A poll gives up the key only if the latch has opened since its first look. -/
  overtaken : ∀ μ ∈ c.past, μ.Forfeits v → ∃ ν ∈ c.past, ν.call = μ.call ∧
    (∃ x, ν.frame = .polling v x .attempt) ∧ ν.before.isDone p = false ∧
      μ.before.isDone p = true

/-- A wait that is gone leaves no entry behind, except that of a poll that was overtaken by the
opening of the latch and lost the key of its wait. -/
theorem leaves_entry_iff_forfeited (hc : c.Reached b) (hx : c.Exclusive) (hg : c.Gone v)
    (hw : c.machine.wait? v = some wait) (hwp : wait.promise = p) : Residue b c p v where
  entry pr k hp ho := hg.entry_iff hc hx hp ho
  taken := by
    intro c' τ k hl hx' hτ hf ho
    have hc' := hc.reaches hl
    obtain ⟨hg', hiff⟩ := hg.reaches hc hl hx'
    obtain ⟨_, hcells, ht⟩ := hτ.not_taken hc' hf
    obtain ⟨pr, hp, rfl⟩ := Option.map_eq_some_iff.1 hcells
    rw [hg'.entry_iff hc' hx' hp (ho.reaches hc hl), hiff]
    exact and_iff_left ht
  overtaken μ hμ hf := hwp ▸ hc.overtaken hw hμ hf

/-- A thread makes a promise and two waits on it, polls both, drops the second one, polls the first
one again and drops it too. Another thread completes the promise. -/
def lodgers : (r : Role) → Nat → Act Tabled r
  | .task, 0 => .call (.build {}) 1
  | .task, 1 => .call (.wait 0) 2
  | .task, 2 => .call (.wait 0) 3
  | .task, 3 => .call (.poll 0 7) 4
  | .task, 4 => .call (.poll 1 8) 5
  | .task, 5 => .call (.dropWait 1) 6
  | .task, 6 => .call (.poll 0 7) 7
  | .task, 7 => .call (.dropWait 0) 8
  | .task, 20 => .call (.complete 0 (.value .unit)) 21
  | r, _ => Tabled.quiet r

/-- The run in which the latch opens after the first look of the last poll. It ends when both waits
are gone and the completion is about to take the wakers. -/
def eviction : Option (Chronicle Tabled) :=
  (Tabled.start [0, 20]).turns? (Tabled.behaviour lodgers)
    (List.replicate 20 (Turn.step 0) ++ List.replicate 7 (Turn.step 1) ++
      List.replicate 5 (Turn.step 0))

/-- It can be decided on a run whether a key has been given to a wait. -/
theorem owns_of_any (h : ((c.machine.wait? v).any (·.promise == p) &&
    (c.pends v).any (·.1 == k)) = true) : c.Owns p v k := by
  obtain ⟨hw, he⟩ := Bool.and_eq_true_iff.1 h
  obtain ⟨wait, hw, hwp⟩ := (Option.any_eq_true _ _).1 hw
  obtain ⟨e, he, hek⟩ := List.any_eq_true.1 he
  exact ⟨wait, hw, by simpa using hwp, e, he, by simpa using hek⟩

/-- What the run shows there, and a little later. -/
theorem exists_eviction : ∃ c c', eviction = some c ∧
    c.Reached (Tabled.behaviour lodgers) ∧ c.Reaches (Tabled.behaviour lodgers) c' ∧
    c'.Exclusive ∧ (c.Gone 0 ∧ c.Owns 0 0 1 ∧ c.machine.waker? 0 1 = some 7) ∧
    (c.Gone 1 ∧ c.Owns 0 1 2 ∧ c.machine.waker? 0 2 = none) ∧
    (c.polls 0).map (fun e => e.2.isNone) = [true, false] ∧ c.wakes 0 = [] ∧ c'.wakes 0 = [7] := by
  have hrun : (eviction.any fun c =>
      ((c.machine.wait? 0).any Wait.dropped &&
        (c.past.all fun μ => μ.frame.dropping? != some 0 || (c.frame? μ.call).isNone) &&
        ((c.machine.wait? 0).any (·.promise == 0) && (c.pends 0).any (·.1 == 1)) &&
        c.machine.waker? 0 1 == some 7) &&
      ((c.machine.wait? 1).any Wait.dropped &&
        (c.past.all fun μ => μ.frame.dropping? != some 1 || (c.frame? μ.call).isNone) &&
        ((c.machine.wait? 1).any (·.promise == 0) && (c.pends 1).any (·.1 == 2)) &&
        (c.machine.waker? 0 2).isNone) &&
      ((c.polls 0).map (fun e => e.2.isNone) == [true, false] && (c.wakes 0).isEmpty) &&
      ((c.turns? (Tabled.behaviour lodgers) (List.replicate 3 (.step 1))).any fun c' =>
        c'.wakes 0 == [7] && c'.past.all fun μ => μ.frame.polling?.all fun e =>
          (μ.before.wait? e.1).all fun wait => !wait.dropped)) = true := by
    decide +kernel
  obtain ⟨c, hc, hrun⟩ := (Option.any_eq_true _ _).1 hrun
  simp only [Bool.and_eq_true] at hrun
  obtain ⟨⟨⟨⟨⟨⟨hw₀, hd₀⟩, ho₀⟩, hk₀⟩, ⟨⟨hw₁, hd₁⟩, ho₁⟩, hk₁⟩, hpolls, hwakes⟩, hlater⟩ := hrun
  obtain ⟨c', hc', hlater⟩ := (Option.any_eq_true _ _).1 hlater
  obtain ⟨hwakes', hx⟩ := Bool.and_eq_true_iff.1 hlater
  exact ⟨c, c', hc, Tabled.reached hc, reaches_of_turns? hc', exclusive_of_all hx,
    ⟨gone_of_all hw₀ hd₀, owns_of_any (Bool.and_eq_true_iff.2 ho₀), by simpa using hk₀⟩,
    ⟨gone_of_all hw₁ hd₁, owns_of_any (Bool.and_eq_true_iff.2 ho₁), by simpa using hk₁⟩,
    by simpa using hpolls, by simpa using hwakes, by simpa using hwakes'⟩

/-- The first wait is gone, and its last poll has returned the outcome; but its waker is called. -/
theorem wakes_gone_eviction : ∃ c c', eviction = some c ∧
    c.Reached (Tabled.behaviour lodgers) ∧ c.Reaches (Tabled.behaviour lodgers) c' ∧
    c'.Exclusive ∧ c.Gone 0 ∧ (c.polls 0).map (fun e => e.2.isNone) = [true, false] ∧
    c.Owns 0 0 1 ∧ c.machine.waker? 0 1 = some 7 ∧ c.wakes 0 = [] ∧ c'.wakes 0 = [7] := by
  obtain ⟨c, c', hc, hreach, hl, hx, ⟨hg, ho, hk⟩, -, hpolls, hwakes, hwakes'⟩ := exists_eviction
  exact ⟨c, c', hc, hreach, hl, hx, hg, hpolls, ho, hk, hwakes, hwakes'⟩

/-- Of the two waits the first one has given up its key, and the second one has not. -/
theorem leaves_entry_iff_forfeited_eviction : ∃ c, eviction = some c ∧
    c.Reached (Tabled.behaviour lodgers) ∧ c.Exclusive ∧ c.Gone 0 ∧ c.Gone 1 ∧
    c.Forfeited 0 ∧ ¬c.Forfeited 1 := by
  obtain ⟨c, c', hc, hreach, hl, hx, ⟨hg₀, ho₀, hk₀⟩, ⟨hg₁, ho₁, hk₁⟩, -⟩ := exists_eviction
  have hxc := hx.of_reaches hreach hl
  obtain ⟨⟨wait₀, hw₀, hwp₀, -⟩, wait₁, hw₁, hwp₁, -⟩ := And.intro ho₀ ho₁
  have h₀ := leaves_entry_iff_forfeited hreach hxc hg₀ hw₀ hwp₀
  have h₁ := leaves_entry_iff_forfeited hreach hxc hg₁ hw₁ hwp₁
  obtain ⟨pr, hp, hget⟩ := Option.bind_eq_some_iff.1 hk₀
  have hf₀ := (h₀.entry pr 1 hp ho₀).1 (by rw [hk₀]; exact Option.some_ne_none 7)
  exact ⟨c, hc, hreach, hxc, hg₀, hg₁, hf₀.1, fun hf₁ =>
    (h₁.entry pr 2 hp ho₁).2 ⟨hf₁, hf₀.2⟩ hk₁⟩

end Chronicle

end OneShot
