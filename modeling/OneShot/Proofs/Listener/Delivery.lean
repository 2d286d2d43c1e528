import OneShot.Proofs.Completion.Winner
import OneShot.Proofs.Listener.Fate

/-!
# The delivery of a completion to its listeners

The winner of a promise takes the listeners out and notifies them one after the other. This module
says how far that goes and how it ends.

- **Deliveries** (`Chronicle.deliveries`): the listeners notified by completion calls of a promise,
  each with the notification that ran it.
- **How a delivery stands** (`Delivery`): between two listeners, at one of them, or over. It goes on
  past every listener with a benign fate and stops at the first other one.
- **All deliveries** (`Path.delivered`, `delivers_in_order`): what was in the registry is delivered
  in that order. Whoever delivers has taken it out before (`Reached.exists_drain`), and every
  listener that is delivered is notified (`Reached.notifies`).
-/

namespace OneShot

variable {H : Host} {b : Behaviour H}

/-- The listener of `p` that a completion call notifies at a moment, and the notification. -/
def Moment.delivery? (p : PromiseId) (μ : Moment H) : Option (Listener H × CallId) :=
  match μ.frame with
  | .completing q (.deliver (l :: _)) => if q = p then some (l, μ.entered) else none
  | _ => none

/-- The listeners of `p` that completion calls have notified, in that order. -/
def Chronicle.deliveries (c : Chronicle H) (p : PromiseId) : List (Listener H × CallId) :=
  c.past.filterMap (Moment.delivery? p)

/-- Whether the listeners have been taken out by this stage. -/
def Completing.isDelivering : Completing H → Bool
  | deliver _ | delivering _ => true
  | _ => false

/-- The notification `i` of a listener of `p` has ended, and the listeners that follow are run. -/
def Chronicle.Benign (b : Behaviour H) (c : Chronicle H) (p : PromiseId) (i : CallId) : Prop :=
  ∃ fate, Over b p (c.moments i) fate ∧ fate.isBenign = true

/-- How the delivery of the listeners `ls` stands: who has been notified, how the last step of the
completion call went on, and where that call is if it is still in progress. -/
inductive Delivery (b : Behaviour H) (c : Chronicle H) (p : PromiseId) (ls : List (Listener H)) :
    List (Listener H × CallId) → Option (Next H) → Option (Frame H) → Prop
  /-- The next listener is about to be notified. -/
  | ready {ds rest n} (hls : ls = ds.map Prod.fst ++ rest) (hb : ∀ d ∈ ds, c.Benign b p d.2) :
    Delivery b c p ls ds n (some (.completing p (.deliver rest)))
  /-- A listener is notified. -/
  | waiting {ds d rest n} (hls : ls = ds.map Prod.fst ++ d.1 :: rest)
    (hb : ∀ d ∈ ds, c.Benign b p d.2) :
    Delivery b c p ls (ds ++ [d]) n (some (.completing p (.delivering rest)))
  /-- All listeners were notified. -/
  | finished {ds} (hls : ls = ds.map Prod.fst) (hb : ∀ d ∈ ds, c.Benign b p d.2) :
    Delivery b c p ls ds (some (.answer (.settled (.ok true)))) none
  /-- The failure of a listener was handed back; the rest is not run. -/
  | propagated {ds d rest e} (hls : ls = ds.map Prod.fst ++ d.1 :: rest)
    (hb : ∀ d ∈ ds, c.Benign b p d.2) (hd : Over b p (c.moments d.2) (.judged .propagate e)) :
    Delivery b c p ls (ds ++ [d]) (some (.answer (.settled (.error e)))) none
  /-- A panic came out of a listener or of the policy; the rest is not run. -/
  | panicked {ds d rest x} (hls : ls = ds.map Prod.fst ++ d.1 :: rest)
    (hb : ∀ d ∈ ds, c.Benign b p d.2) (hd : Over b p (c.moments d.2) (.panicked x)) :
    Delivery b c p ls (ds ++ [d]) (some (.throw x)) none

/-- How the delivery by a completion call stands after the moments `l`, which include the drain or
do not. -/
inductive Delivered (b : Behaviour H) (c : Chronicle H) (p : PromiseId) (l : List (Moment H))
    (x : Option (Frame H)) : Prop
  | earlier (hx : ∀ f, x = some f → ∃ s, f = .completing p s ∧ s.isDelivering = false)
    (hl : l.filterMap (Moment.delivery? p) = []) (hd : ∀ δ ∈ l, δ.frame ≠ .completing p .drain)
    (hn : x = none → ∃ ν ∈ l, (∃ s, ν.frame = .completing p s) ∧
      (ν.next = .lost ∨ ∃ y, ν.next = .throw y))
  | later {ls} (hex : ∃ δ ∈ l, δ.frame = .completing p .drain)
    (hd : ∀ δ ∈ l, δ.frame = .completing p .drain → δ.next = .goto (.completing p (.deliver ls)))
    (h : Delivery b c p ls (l.filterMap (Moment.delivery? p)) (l.getLast?.map Moment.next) x)
    (hlast : ∀ rest, x = some (.completing p (.delivering rest)) → ∃ ν ds d, l.getLast? = some ν ∧
      l.filterMap (Moment.delivery? p) = ds ++ [d] ∧ ν.entered = d.2 ∧
      ν.next.callee? = some (.notifying p (d.1.begin p)))

namespace Moment

variable {p : PromiseId} {μ : Moment H} {s : Completing H}

theorem delivery?_eq_none (hf : μ.frame = .completing p s) (hs : s.isDelivering = false) :
    μ.delivery? p = none := by
  unfold delivery?
  rw [hf]
  cases s <;> first | rfl | cases hs

theorem delivery?_of_ne (hf : ∀ s, μ.frame ≠ .completing p s) : μ.delivery? p = none := by
  unfold delivery?
  split
  · rename_i q l rest hq
    rw [if_neg fun he => hf _ (he ▸ hq)]
  · rfl

theorem delivery?_of_deliver {a : Listener H} {rest : List (Listener H)}
    (hf : μ.frame = .completing p (.deliver (a :: rest))) :
    μ.delivery? p = some (a, μ.entered) := by
  unfold delivery?
  rw [hf]
  exact if_pos rfl

end Moment

namespace Chronicle

variable {c : Chronicle H} {p : PromiseId}

theorem mem_deliveries {μ : Moment H} (hμ : μ ∈ c.past) {a : Listener H}
    {rest : List (Listener H)} (hf : μ.frame = .completing p (.deliver (a :: rest))) :
    (a, μ.entered) ∈ c.deliveries p :=
  List.mem_filterMap.2 ⟨μ, hμ, Moment.delivery?_of_deliver hf⟩

/-- What a notification tells its caller is its fate. -/
theorem Reached.exists_fate_of_told (hc : c.Reached b) {μ : Moment H} (hμ : μ ∈ c.past)
    {l : Listener H} (hn : μ.next.callee? = some (.notifying p (l.begin p))) {k : Control}
    (ht : c.Told (some μ) k) : ∃ fate, Over b p (c.moments μ.entered) fate ∧ k = fate.told := by
  generalize hlast : some μ = last at ht
  cases ht with
  | first => cases hlast
  | own hown => cases hlast; rw [hown] at hn; cases hn
  | @callee _ ρ _ _ _ _ hρ hi hk =>
    cases hlast
    have hover : ρ.next.own ρ.frame = none := by
      cases hx : ρ.next <;> rw [hx] at hk <;> first | rfl | cases hk
    obtain ⟨hlast, hx⟩ :=
      (hc.path μ hμ _ hn rfl).last_of_over (mem_moments.2 ⟨hρ, hi⟩) hover
    cases hc.notified hμ hn with
    | running hx' | cleaning hx' | judging hx' => rw [hx] at hx'; cases hx'
    | ended _ h =>
      have ht := h.told
      rw [hlast, Option.bind_some, hk] at ht
      exact ⟨_, h, Option.some.inj ht⟩

end Chronicle

section

variable {c : Chronicle H} {p : PromiseId}

/-- A step before the drain leads to a stage before it, or it is the drain. -/
theorem Completing.Moves.earlier {s : Completing H} {pr pr' : Promise H}
    {k : Control} {n : Next H} (h : s.Moves p pr k n pr') (hs : s.isDelivering = false)
    (hd : s ≠ .drain) :
    ∀ f, n.own (.completing p s) = some f →
      ∃ s', f = .completing p s' ∧ s'.isDelivering = false := by
  intro f hf
  cases h <;> cases hf <;> first | exact ⟨_, rfl, rfl⟩ | exact absurd rfl hd | cases hs

theorem Completing.Moves.ended {s : Completing H} {pr pr' : Promise H}
    {k : Control} {n : Next H} (h : s.Moves p pr k n pr') (hs : s.isDelivering = false)
    (hn : n.own (.completing p s) = none) : n = .lost ∨ ∃ y, n = .throw y := by
  cases h <;> cases hn <;> first | exact .inl rfl | exact .inr ⟨_, rfl⟩ | cases hs

/-- How the delivery stands after a step before the drain. -/
theorem Delivered.of_earlier {l : List (Moment H)} {μ : Moment H} {s : Completing H}
    {pr pr' : Promise H} (hf : μ.frame = .completing p s) (hs : s.isDelivering = false)
    (hl : l.filterMap (Moment.delivery? p) = []) (hd : ∀ δ ∈ l, δ.frame ≠ .completing p .drain)
    (hm : s.Moves p pr μ.control μ.next pr') :
    Delivered b c p (l ++ [μ]) (μ.next.own μ.frame) := by
  have hnil : (l ++ [μ]).filterMap (Moment.delivery? p) = [] := by
    simp [hl, Moment.delivery?_eq_none hf hs]
  -- The drain begins the delivery; every stage before it stays before it.
  by_cases hdr : s = .drain
  · subst hdr
    obtain ⟨ls, hn⟩ : ∃ ls, μ.next = .goto (.completing p (.deliver ls)) := by
      generalize μ.next = n, μ.control = k at hm
      cases hm
      exact ⟨_, rfl⟩
    have hdrain : ∀ δ ∈ l ++ [μ], δ.frame = .completing p .drain →
        δ.next = .goto (.completing p (.deliver ls)) :=
      List.forall_mem_append.2 ⟨fun δ hδ hfδ => absurd hfδ (hd δ hδ),
        List.forall_mem_singleton.2 fun _ => hn⟩
    refine .later ⟨μ, List.mem_concat_self, hf⟩ hdrain ?_ ?_
    · rw [hnil, hn]
      exact .ready rfl fun d hd => by cases hd
    · rw [hn]
      exact fun rest hr => by cases hr
  · have hdrain : ∀ δ ∈ l ++ [μ], δ.frame ≠ .completing p .drain := by
      refine List.forall_mem_append.2 ⟨hd, List.forall_mem_singleton.2 fun he => hdr ?_⟩
      rw [hf] at he
      cases he
      rfl
    refine .earlier (fun f hown => ?_) hnil hdrain fun hnone => ?_
    · rw [hf] at hown
      exact hm.earlier hs hdr f hown
    · rw [hf] at hnone
      exact ⟨μ, List.mem_concat_self, ⟨s, hf⟩, hm.ended hs hnone⟩

/-- A call that has drained the listeners has drained them once it has made another step. -/
theorem drain_snoc {l : List (Moment H)} {μ : Moment H} {ls : List (Listener H)}
    (hex : ∃ δ ∈ l, δ.frame = .completing p .drain)
    (hd : ∀ δ ∈ l, δ.frame = .completing p .drain → δ.next = .goto (.completing p (.deliver ls)))
    (hf : μ.frame ≠ .completing p .drain) :
    (∃ δ ∈ l ++ [μ], δ.frame = .completing p .drain) ∧
      ∀ δ ∈ l ++ [μ], δ.frame = .completing p .drain →
        δ.next = .goto (.completing p (.deliver ls)) := by
  obtain ⟨δ, hδ, hfδ⟩ := hex
  exact ⟨⟨δ, List.mem_append_left _ hδ, hfδ⟩, List.forall_mem_append.2
    ⟨hd, List.forall_mem_singleton.2 fun he => absurd he hf⟩⟩

/-- How the delivery stands after a step between two listeners. -/
theorem Delivered.of_ready {l : List (Moment H)} {μ : Moment H} {ls rest : List (Listener H)}
    {ds : List (Listener H × CallId)} {pr pr' : Promise H}
    (hf : μ.frame = .completing p (.deliver rest)) (hds : l.filterMap (Moment.delivery? p) = ds)
    (hls : ls = ds.map Prod.fst ++ rest) (hb : ∀ d ∈ ds, c.Benign b p d.2)
    (hex : ∃ δ ∈ l, δ.frame = .completing p .drain)
    (hd : ∀ δ ∈ l, δ.frame = .completing p .drain → δ.next = .goto (.completing p (.deliver ls)))
    (hm : (Completing.deliver rest).Moves p pr μ.control μ.next pr') :
    Delivered b c p (l ++ [μ]) (μ.next.own μ.frame) := by
  obtain ⟨hex', hd'⟩ := drain_snoc hex hd (by rw [hf]; nofun)
  cases rest with
  | nil =>
    have hn : μ.next = .answer (.settled (.ok true)) := by
      generalize μ.next = n, μ.control = k at hm
      cases hm
      rfl
    have hnone : μ.delivery? p = none := by rw [Moment.delivery?, hf]
    refine .later hex' hd' ?_ fun rest hr => ?_
    · rw [show (l ++ [μ]).filterMap (Moment.delivery? p) = ds by simp [hds, hnone],
        List.getLast?_concat, Option.map_some, hn]
      exact .finished (by rw [hls, List.append_nil]) hb
    · rw [hn] at hr
      cases hr
  | cons l' rest =>
    have hn : μ.next = .enter (.notifying p (l'.begin p)) (.completing p (.delivering rest)) := by
      generalize μ.next = n, μ.control = k at hm
      cases hm
      rfl
    have hsome := Moment.delivery?_of_deliver hf
    have hds' : (l ++ [μ]).filterMap (Moment.delivery? p) = ds ++ [(l', μ.entered)] := by
      simp [hds, hsome]
    refine .later hex' hd' ?_ fun rest' _ => ?_
    · rw [hds', hn]
      exact .waiting hls hb
    · exact ⟨μ, ds, _, List.getLast?_concat, hds', rfl, by rw [hn]; rfl⟩

/-- How the delivery stands after the completion call has been told how a notification ended. -/
theorem Delivered.of_waiting {l : List (Moment H)} {μ : Moment H} {ls rest : List (Listener H)}
    {ds : List (Listener H × CallId)} {d : Listener H × CallId} {fate : Fate} {pr pr' : Promise H}
    (hf : μ.frame = .completing p (.delivering rest))
    (hds : l.filterMap (Moment.delivery? p) = ds ++ [d])
    (hls : ls = ds.map Prod.fst ++ d.1 :: rest) (hb : ∀ d ∈ ds, c.Benign b p d.2)
    (hex : ∃ δ ∈ l, δ.frame = .completing p .drain)
    (hd : ∀ δ ∈ l, δ.frame = .completing p .drain → δ.next = .goto (.completing p (.deliver ls)))
    (ho : Over b p (c.moments d.2) fate) (hk : μ.control = fate.told)
    (hm : (Completing.delivering rest).Moves p pr μ.control μ.next pr') :
    Delivered b c p (l ++ [μ]) (μ.next.own μ.frame) := by
  obtain ⟨hex', hd'⟩ := drain_snoc hex hd (by rw [hf]; nofun)
  have hnone : μ.delivery? p = none := by rw [Moment.delivery?, hf]
  have hds' : (l ++ [μ]).filterMap (Moment.delivery? p) = ds ++ [d] := by
    simp [hds, hnone]
  have hlast : (l ++ [μ]).getLast?.map Moment.next = some μ.next := by
    rw [List.getLast?_concat, Option.map_some]
  generalize hn : μ.next = n at hm hlast ⊢
  rw [hk] at hm
  generalize hk' : fate.told = k at hm
  cases hm with
  | delivered =>
    refine .later hex' hd' ?_ fun rest' hr => by cases hr
    rw [hds']
    exact .ready (by rw [hls]; simp) (List.forall_mem_append.2
      ⟨hb, List.forall_mem_singleton.2 ⟨fate, ho, Fate.isBenign_of_told hk'⟩⟩)
  | propagate =>
    refine .later hex' hd' ?_ fun rest' hr => by cases hr
    rw [hds', hlast]
    obtain rfl := Fate.eq_judged_of_told hk'
    exact .propagated hls hb ho
  | pass =>
    refine .later hex' hd' ?_ fun rest' hr => by cases hr
    rw [hds', hlast]
    obtain rfl := Fate.eq_panicked_of_told hk'
    exact .panicked hls hb ho

theorem Promise.Change.isDrained {m : Machine H} {f : Frame H} {n : Next H} {pr pr' : Promise H}
    (h : Promise.Change m p f n (some pr) (some pr')) (hd : pr.listeners.data.isDrained = true) :
    pr'.listeners.data.isDrained = true := by
  cases h with
  | enroll => simpa using hd
  | drain => rfl
  | _ => exact hd

theorem Completing.Moves.eq_of_drain {s : Completing H} {pr pr' : Promise H} {k : Control}
    {ls : List (Listener H)} (h : s.Moves p pr k (.goto (.completing p (.deliver ls))) pr')
    (hs : s = .drain) : ls = pr.listeners.data.toList := by
  subst hs
  cases h
  rfl

theorem Completing.Moves.isDrained {s : Completing H} {pr pr' : Promise H} {k : Control}
    {n : Next H} (h : s.Moves p pr k n pr') (hs : s = .drain) :
    pr'.listeners.data.isDrained = true := by
  subst hs
  cases h
  rfl

end

namespace Chronicle

variable {c : Chronicle H} {p : PromiseId}

/-- How a delivery stands along the path of the completion call. -/
theorem Path.delivered (hc : c.Reached b) {o : Outcome} {l : List (Moment H)}
    {x : Option (Frame H)} (hp : c.Path (.completing p (.claim o)) l x) : Delivered b c p l x := by
  induction hp with
  | nil =>
    refine .earlier (fun f hf => ?_) rfl (fun δ hδ => by cases hδ) fun hn => by cases hn
    cases hf
    exact ⟨_, rfl, rfl⟩
  | @snoc l μ hp hμ ht ih =>
    -- Before the drain, between two listeners, or waiting for one; over, nothing follows.
    cases ih with
    | earlier hx hl hd =>
      obtain ⟨s, hf, hs⟩ := hx _ rfl
      obtain ⟨pr, pr', -, -, hm⟩ := hc.moved μ hμ p s hf
      exact .of_earlier hf hs hl hd hm
    | later hex hd h hlast =>
      generalize hds : l.filterMap (Moment.delivery? p) = ds, hx : some μ.frame = x,
        l.getLast?.map Moment.next = n at h
      cases h with
      | ready hls hb =>
        have hf := Option.some.inj hx
        obtain ⟨pr, pr', -, -, hm⟩ := hc.moved μ hμ p _ hf
        exact .of_ready hf hds hls hb hex hd hm
      | waiting hls hb =>
        have hf := Option.some.inj hx
        obtain ⟨pr, pr', -, -, hm⟩ := hc.moved μ hμ p _ hf
        obtain ⟨ν, ds', d', hν, hds', hent, hcal⟩ := hlast _ hx
        rw [hds] at hds'
        obtain ⟨rfl, rfl⟩ := List.append_singleton_inj.1 hds'
        obtain ⟨fate, ho, hk⟩ := hc.exists_fate_of_told (hp.mem ν (List.mem_of_getLast? hν)) hcal
          (by rw [← hν]; exact ht)
        rw [hent] at ho
        exact .of_waiting hf hds hls hb hex hd ho hk hm
      | finished | propagated | panicked => cases hx

/-- Once a completion call has drained the listeners of a promise, they stay drained. -/
theorem Reached.isDrained (hc : c.Reached b) {δ : Moment H} (hδ : δ ∈ c.past)
    (hf : δ.frame = .completing p .drain) :
    ∃ pr, c.machine.cells? p = some pr ∧ pr.listeners.data.isDrained = true := by
  induction c, hc using Reached.induction with
  | start m hm => cases hδ
  | record c μ hc hμ hc' ih =>
    rcases mem_record.1 hδ with hδ' | rfl
    · obtain ⟨pr, hp, hd⟩ := ih hδ'
      have hch := hμ.made.effect.promise p
      rw [hμ.before, hp] at hch
      obtain ⟨pr', hp'⟩ := hch.exists_after
      rw [hp'] at hch
      exact ⟨pr', hp', hch.isDrained hd⟩
    · obtain ⟨pr, pr', -, hp', hm⟩ := hc'.moved δ hδ p _ hf
      exact ⟨pr', hp', hm.isDrained rfl⟩

theorem Reached.exists_drain_of_frame? (hc : c.Reached b) {i : CallId} {s : Completing H}
    (hi : c.frame? i = some (.completing p s)) (hs : s.isDelivering = true) :
    ∃ δ ∈ c.moments i, δ.frame = .completing p .drain := by
  obtain ⟨o, hp⟩ := hc.completing_path_of_frame? hi
  cases hp.delivered hc with
  | earlier hx =>
    obtain ⟨s', heq, hs'⟩ := hx _ rfl
    cases heq
    rw [hs] at hs'
    cases hs'
  | later hex => exact hex

theorem Reached.exists_drain (hc : c.Reached b) {ν : Moment H} (hν : ν ∈ c.past)
    {s : Completing H} (hf : ν.frame = .completing p s) (hs : s.isDelivering = true) :
    ∃ δ ∈ c.past, δ.call = ν.call ∧ δ.frame = .completing p .drain := by
  obtain ⟨c₀, hc₀, h, hmono, -⟩ := hc.extends_of_mem hν
  obtain ⟨δ, hδ, hdr⟩ :=
    hc₀.exists_drain_of_frame? (by rw [h.frame? hc₀.tracked, hf]) hs
  obtain ⟨hδ, hcall⟩ := mem_moments.1 hδ
  exact ⟨δ, hmono δ hδ, hcall, hdr⟩

theorem Won.deliveries_eq {w : CallId} {o : Outcome} {r : Progress} (hw : c.Won p w o r) :
    c.deliveries p = (c.moments w).filterMap (Moment.delivery? p) := by
  refine hw.filterMap_moments fun μ hclaim => ?_
  by_cases hf : ∃ s, μ.frame = .completing p s
  · obtain ⟨s, hf⟩ := hf
    obtain ⟨o', rfl⟩ := hclaim s hf
    exact Moment.delivery?_eq_none hf rfl
  · exact Moment.delivery?_of_ne fun s hs => hf ⟨s, hs⟩

theorem Reached.next_of_deliver (hc : c.Reached b) {ν : Moment H} (hν : ν ∈ c.past)
    {l : Listener H} {rest : List (Listener H)}
    (hf : ν.frame = .completing p (.deliver (l :: rest))) :
    ν.next = .enter (.notifying p (l.begin p)) (.completing p (.delivering rest)) := by
  obtain ⟨pr, pr', -, -, hm⟩ := hc.moved ν hν p _ hf
  generalize ν.next = n, ν.control = k at hm ⊢
  cases hm
  rfl

/-- A notification of a delivery is that of its listener, and a completion call makes it. -/
theorem Reached.notifies (hc : c.Reached b) : ∀ d ∈ c.deliveries p,
    ∃ μ ∈ c.past, (∃ rest, μ.frame = .completing p (.deliver (d.1 :: rest))) ∧ μ.entered = d.2 ∧
      μ.next.callee? = some (.notifying p (d.1.begin p)) := by
  intro d hmem
  obtain ⟨μ, hμ, hd⟩ := List.mem_filterMap.1 hmem
  unfold Moment.delivery? at hd
  split at hd
  · rename_i q l rest hf
    split at hd
    · rename_i hq
      subst hq
      cases hd
      exact ⟨μ, hμ, ⟨rest, hf⟩, rfl, by rw [hc.next_of_deliver hμ hf]; rfl⟩
    · cases hd
  · cases hd

/-- The call that delivers is never stuck: on top of its thread it can make its next step. -/
theorem Reached.delivery_goes_on (hc : c.Reached b) {w : CallId} {s : Completing H}
    (hw : c.frame? w = some (.completing p s)) (hs : s.isDelivering = true)
    (htop : (c.calls w.thread).head? = some w) (hab : c.machine.aborted = false) :
    ∃ m, c.machine.step b w.thread = some m := by
  obtain ⟨k, rest, token, ht, hk, htold⟩ := hc.top hw htop hab
  refine Machine.exists_step hab ht ?_
  cases s with
  | deliver rest' =>
    rw [hk.resolve_right Bool.false_ne_true]
    cases rest' <;> rfl
  | delivering rest' =>
    obtain ⟨o, hp⟩ := hc.completing_path_of_frame? hw
    cases hp.delivered hc with
    | earlier hx => obtain ⟨s', hs', hd⟩ := hx _ rfl; cases hs'; cases hd
    | later _ _ _ hlast =>
      obtain ⟨ν, ds, d, hν, -, -, hcal⟩ := hlast rest' rfl
      obtain ⟨fate, hfate⟩ := hc.exists_fate_of_told (hp.mem ν (List.mem_of_getLast? hν)) hcal
        (by rw [← hν]; exact htold)
      rw [hfate.2]
      cases fate with
      | fine | panicked => rfl
      | judged d e => cases d <;> rfl
  | _ => cases hs

/-- Once its listeners are drained, a promise is done with the winner's outcome and has no listeners
left. -/
theorem Won.done {w : CallId} {o : Outcome} {r : Progress} (hw : c.Won p w o r)
    (hd : ∃ pr, c.machine.cells? p = some pr ∧ pr.listeners.data.isDrained = true) :
    ∃ pr, c.machine.promise? p = some pr ∧ pr.isDone = true ∧ pr.outcome = some o ∧
      pr.listenerCount = 0 := by
  obtain ⟨pr, hp, hsh⟩ := hw.cells
  obtain ⟨pr', hp', hd⟩ := hd
  obtain rfl : pr' = pr := Option.some.inj (hp'.symm.trans hp)
  obtain rfl : r = .drained := by
    have hr := hsh.drained
    rw [hd] at hr
    cases r <;> first | rfl | cases hr
  obtain ⟨pr₀, hp₀, rfl⟩ := Option.map_eq_some_iff.1 hp
  refine ⟨pr₀, hp₀, hsh.isDone, hsh.outcome, ?_⟩
  change pr₀.listeners.data.isDrained = true at hd
  unfold Promise.listenerCount Registry.length
  cases hl : pr₀.listeners.data with
  | pending ls => rw [hl] at hd; cases hd
  | drained => rfl

/-- The listeners that a promise holds when its winner drains them are notified in their order, each
once, up to the first one that panics, whose policy panics, or whose failure is handed back. The
winner ends as that listener did, or well if there is none; the listeners that follow are never
notified; and the promise is done throughout, with the winner's outcome and without listeners. -/
theorem delivers_in_order (hc : c.Reached b) {δ : Moment H} (hδ : δ ∈ c.past)
    (hf : δ.frame = .completing p .drain) {pr : Promise H} (hp : δ.before.promise? p = some pr) :
    ∃ o, c.past.filterMap (Moment.won? p) = [(δ.call, o)] ∧
      Delivery b c p pr.listeners.data.toList (c.deliveries p)
        ((c.moments δ.call).getLast?.map Moment.next) (c.frame? δ.call) ∧
      (∀ d ∈ c.deliveries p,
        ∃ μ ∈ c.past, μ.entered = d.2 ∧ μ.next.callee? = some (.notifying p (d.1.begin p))) ∧
      (∃ pr', c.machine.promise? p = some pr' ∧ pr'.isDone = true ∧ pr'.outcome = some o ∧
        pr'.listenerCount = 0) ∧
      ((c.calls δ.call.thread).head? = some δ.call → c.machine.aborted = false →
        ∃ m, c.machine.step b δ.call.thread = some m) ∧
      (c.frame? δ.call = none → ∀ c', c.Reaches b c' → c'.deliveries p = c.deliveries p) := by
  obtain ⟨w, o, r, hw⟩ := hc.exists_won hδ hf
  obtain rfl : δ.call = w := hw.call_eq hδ hf nofun
  obtain ⟨o', hpath⟩ := hc.completing_path hδ hf
  have hδ' : δ ∈ c.moments δ.call := mem_moments.2 ⟨hδ, rfl⟩
  have hstand : Delivery b c p pr.listeners.data.toList (c.deliveries p)
      ((c.moments δ.call).getLast?.map Moment.next) (c.frame? δ.call) := by
    cases hpath.delivered hc with
    | earlier _ _ hd _ => exact absurd hf (hd δ hδ')
    | @later ls _ hd h _ =>
      obtain ⟨pr₁, pr₂, hp₁, -, hm⟩ := hc.moved δ hδ p _ hf
      obtain rfl : pr.bare = pr₁ := Option.some.inj ((Machine.cells?_eq_some hp).symm.trans hp₁)
      have hn := hd δ hδ' hf
      obtain rfl : pr.listeners.data.toList = ls := by
        rw [hn] at hm
        exact (hm.eq_of_drain rfl).symm
      rw [hw.deliveries_eq]
      exact h
  have hle : δ.call.entry ≤ c.past.length := by
    obtain ⟨-, hlt, hle⟩ := hc.sound δ hδ
    omega
  refine ⟨o, hw.wins, hstand, fun d hd => ?_, hw.done (hc.isDrained hδ hf), fun htop hab => ?_,
    fun hover c' hl => ?_⟩
  · obtain ⟨μ, hμ, -, h⟩ := hc.notifies d hd
    exact ⟨μ, hμ, h⟩
  · cases hx : c.frame? δ.call with
    | none =>
      have hmem := List.mem_of_head? htop
      exact absurd hmem (hc.tracked.frame?_eq_none_iff.1 hx)
    | some f =>
      rw [hx] at hstand
      obtain ⟨s, rfl, hs⟩ : ∃ s, f = .completing p s ∧ s.isDelivering = true := by
        generalize c.deliveries p = ds, (c.moments δ.call).getLast?.map Moment.next = n at hstand
        cases hstand <;> exact ⟨_, rfl, rfl⟩
      exact hc.delivery_goes_on hx hs htop hab
  · obtain ⟨r', hw'⟩ := hw.reaches hc hl
    rw [hw'.deliveries_eq, hw.deliveries_eq, (moments_of_over hc hl hle hover).1]

/-- A thread makes a promise, registers four listeners with it and completes it. The first listener
goes well, the target of the second is gone, the third fails, and the fourth would go well. -/
def audience : (r : Role) → Nat → Act Tabled r
  | .task, 0 => .call (.build {}) 1
  | .task, 1 => .call (.listen 0 0) 2
  | .task, 2 => .call (.listen 0 1) 3
  | .task, 3 => .call (.listen 0 2) 4
  | .task, 4 => .call (.observe 0 0) 5
  | .task, 5 => .call (.complete 0 (.value .unit)) 6
  | .listener, 1 => .finish (.error (.unavailable "gone"))
  | .listener, 2 => .finish (.error (.failed "broken"))
  | r, _ => Tabled.quiet r

/-- The run of that thread up to the end of its completion call. -/
def audition : Option (Chronicle Tabled) :=
  (Tabled.start [0]).turns? (Tabled.behaviour audience) (List.replicate 42 (.step 0))

theorem delivers_in_order_audition : ∃ c δ pr, audition = some c ∧
    c.Reached (Tabled.behaviour audience) ∧ δ ∈ c.past ∧ δ.frame = .completing 0 .drain ∧
    δ.before.promise? 0 = some pr ∧ pr.listeners.data.length = 4 ∧
    ∃ o, c.past.filterMap (Moment.won? 0) = [(δ.call, o)] ∧
      Delivery (Tabled.behaviour audience) c 0 pr.listeners.data.toList (c.deliveries 0)
        ((c.moments δ.call).getLast?.map Moment.next) (c.frame? δ.call) := by
  have hrun : (audition.any fun c => c.past.any fun δ =>
      δ.frame.drain? == some 0 &&
      (δ.before.promise? 0).any fun pr => pr.listeners.data.length == 4) = true := by
    decide +kernel
  obtain ⟨c, hc, hrun⟩ := (Option.any_eq_true _ _).1 hrun
  obtain ⟨δ, hδ, hrun⟩ := List.any_eq_true.1 hrun
  obtain ⟨hf, hrun⟩ := Bool.and_eq_true_iff.1 hrun
  obtain ⟨pr, hp, hlen⟩ := (Option.any_eq_true _ _).1 hrun
  have hframe : δ.frame = .completing 0 .drain := Frame.eq_drain (by simpa using hf)
  have hreach := Tabled.reached hc
  obtain ⟨o, hwin, hdel, -⟩ := delivers_in_order hreach hδ hframe hp
  exact ⟨c, δ, pr, hc, hreach, hδ, hframe, hp, by simpa using hlen, o, hwin, hdel⟩

end Chronicle

end OneShot
