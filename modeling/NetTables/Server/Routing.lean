import NetTables.Server.Tables

namespace NetTables.Server

open Lib Lib.Fallible Spec

variable {s s' : InnerServer} {e : Option Event} {op : Op}

/-- Every subscription that cares about a topic is listed for it. -/
def Routed (s : InnerServer) : Prop :=
  ∀ t topic, s.topics.lookup t = some topic → ∀ i sub c, s.subscriptions.lookup i = some (sub, c) →
    sub.caresAbout topic.name = true → Listed s.topicSubMap t i

/-- None of the names that are still missing is one that a live subscription cares about. -/
def Unheard (names : String → Prop) (s : InnerServer) : Prop :=
  ∀ name, names name → s.topicMap.lookup name = none →
    ∀ i sub c, s.subscriptions.lookup i = some (sub, c) → sub.caresAbout name = false

/-- A removal that finds the `$pub$` metatopic finds the `$sub$` metatopic too, which is not to be
removed itself. -/
def Uncut (removes : TopicIdx → Prop) (s : InnerServer) : Prop :=
  ∀ t topic, removes t → s.topics.lookup t = some topic →
    ∀ p, s.topicMap.lookup (metaPubName topic.name) = some p →
      ∃ q, s.topicMap.lookup (metaSubName topic.name) = some q ∧ ¬removes q

/-- The operation creates no topic that a live subscription cares about, and removes none whose
`$pub$` metatopic is there without the `$sub$` metatopic. -/
def KeepsRouting (s : InnerServer) (op : Op) : Prop :=
  Unheard (op.Adds s) s ∧ Uncut (op.Removes s) s

theorem Uncut.step {removes : TopicIdx → Prop} (h : Uncut removes s) (hi : Indexed s)
    (he : Effect s e s') (hadd : ∀ name, e = some (.topic name) → ∀ t, ¬removes t)
    (hgone : ∀ t how, e = some (.gone t how) → removes t) : Uncut removes s' := by
  intro t topic' hr ht p' hp'
  cases he with
  | topicAdded topic => exact (hadd _ rfl t hr).elim
  | topicRemoved hu hp hq =>
    obtain ⟨htu, htp, htq, ht⟩ := lookup_topics_withoutTopic.mp ht
    obtain ⟨q', hq', hnot⟩ := h t topic' hr ht p' (lookup_topicMap_withoutTopic.mp hp').2.2.2
    refine ⟨q', lookup_metaSub_withoutTopic hi ht hu htu hq' ?_, hnot⟩
    rintro rfl
    exact hnot (hgone _ _ rfl)
  | topicLost =>
    simp only [KeyMap.lookup_erase] at ht
    split_ifs at ht
    exact h t topic' hr ht p' hp'
  | topicHalfLost hu hp hq =>
    obtain ⟨q, hq', -⟩ := h _ _ (hgone _ _ rfl) hu _ hp
    rw [hq] at hq'
    cases hq'
  | propertiesSet properties hu =>
    obtain ⟨topic₀, ht₀, hname⟩ := lookup_insert_properties hu ht
    rw [← hname] at hp' ⊢
    exact h t topic₀ hr ht₀ p' hp'
  | _ => exact h t topic' hr ht p' hp'

theorem Unheard.step {names : String → Prop} (h : Unheard names s) (he : Effect s e s')
    (hsub : e = some .sub → ∀ name, ¬names name)
    (hgone : ∀ t how, e = some (.gone t how) → ∀ name, ¬names name) : Unheard names s' := by
  intro name hname hmap i sub c hi
  cases he with
  | topicAdded topic hfresh =>
    refine h name hname ?_ i sub c hi
    simp only [InnerServer.withTopic, KeyMap.lookup_insert] at hmap
    split_ifs at hmap
    exact hmap
  | topicRemoved | topicLost | topicHalfLost => exact (hgone _ _ rfl name hname).elim
  | subscribed | subscribeFailed => exact (hsub rfl name hname).elim
  | unsubscribed =>
    simp only [KeyMap.lookup_erase] at hi
    split_ifs at hi
    exact h name hname hmap i sub c hi
  | _ => exact h name hname hmap i sub c hi

theorem Routed.step (h : Routed s) (hi : Indexed s) (he : Effect s e s')
    (hunheard : ∀ name, e = some (.topic name) → ∀ i sub c,
      s.subscriptions.lookup i = some (sub, c) → sub.caresAbout name = false) : Routed s' := by
  intro t topic' ht i sub c hsub hcares
  cases he with
  | topicAdded topic hfresh =>
    rcases lookup_topics_withTopic.mp ht with ⟨rfl, rfl⟩ | ⟨hne, ht⟩
    · rw [hunheard _ rfl i sub c hsub] at hcares
      cases hcares
    · obtain ⟨subs, hl, hmem⟩ := h t topic' ht i sub c hsub hcares
      exact ⟨subs, by simpa [InnerServer.withTopic, hne] using hl, hmem⟩
  | topicRemoved hu hp hq =>
    obtain ⟨htu, htp, htq, ht⟩ := lookup_topics_withoutTopic.mp ht
    have hlisted := h t topic' ht i sub c hsub hcares
    exact listed_erase.mpr ⟨htq, listed_erase.mpr ⟨htp, listed_erase.mpr ⟨htu, hlisted⟩⟩⟩
  | topicLost | topicHalfLost =>
    simp only [KeyMap.lookup_erase] at ht
    split_ifs at ht
    exact h t topic' ht i sub c hsub hcares
  | propertiesSet properties hu =>
    obtain ⟨topic₀, ht₀, hname⟩ := lookup_insert_properties hu ht
    exact h t topic₀ ht₀ i sub c hsub (hname ▸ hcares)
  | subscribed sub₀ now stored interest messages frames hc hinterest =>
    rw [KeyMap.lookup_insert] at hsub
    split_ifs at hsub with hidx
    · cases hsub
      have hmem : (topic'.name, t) ∈ interest := (hinterest _).mpr ⟨hi t topic' ht, hcares⟩
      exact listed_pushAll.mpr (.inr ⟨List.mem_map.mpr ⟨_, hmem, rfl⟩, hidx⟩)
    · exact listed_pushAll.mpr (.inl (h t topic' ht i sub c hsub hcares))
  | subscribeFailed =>
    exact listed_pushAll.mpr (.inl (h t topic' ht i sub c hsub hcares))
  | unsubscribed =>
    rw [KeyMap.lookup_erase] at hsub
    split_ifs at hsub with hidx
    exact listed_filter.mpr ⟨hidx, h t topic' ht i sub c hsub hcares⟩
  | _ => exact h t topic' ht i sub c hsub hcares

/-- One operation that meets the guard, effect by effect. -/
theorem routed_of_effects {es : List Event} (hes : Effects s es s')
    (hall : ∀ a ∈ es, op.MayDo s a) (hg : KeepsRouting s op) (hs : Indexed s ∧ Routed s) :
    Indexed s' ∧ Routed s' := by
  have hrun := hes.invariant
    (fun u => (Indexed u ∧ Routed u) ∧ Unheard (op.Adds s) u ∧ Uncut (op.Removes s) u)
    (op.MayDo s) hall ?_ ⟨hs, hg⟩
  · exact hrun.1
  intro u e u' he hp hu
  obtain ⟨⟨hi, hr⟩, hunheard, huncut⟩ := hu
  have hgone : ∀ t how, e = some (.gone t how) → op.Removes s t := fun t how h => hp _ h
  have hadd : ∀ name, e = some (.topic name) → op.Adds s name := fun name h => hp _ h
  refine ⟨⟨hi.step he ?_, hr.step hi he ?_⟩, hunheard.step he ?_ ?_, huncut.step hi he ?_ hgone⟩
  · rintro t rfl
    cases he with
    | topicHalfLost ht hpub hsub =>
      obtain ⟨q, hq, -⟩ := huncut t _ (hgone t _ rfl) ht _ hpub
      rw [hsub] at hq
      cases hq
  · rintro name rfl
    cases he with
    | topicAdded topic hfresh => exact hunheard _ (hadd _ rfl) hfresh
  · intro h name hname
    obtain ⟨sub, c, now, rfl⟩ := hp _ h
    exact hname
  · intro t how h name hname
    exact Op.not_removes_of_adds hname t (hgone t how h)
  · intro name h t
    exact Op.not_removes_of_adds (hadd name h) t

/-- What `try_new` leaves has no subscriptions. -/
theorem routed_of_booted {es : List Event} (hes : Effects booted es s)
    (hall : ∀ a ∈ es, IsTopic a) : Indexed s ∧ Routed s := by
  have hrun := hes.invariant
    (fun u => (Indexed u ∧ Routed u) ∧ ∀ i, u.subscriptions.lookup i = none) IsTopic hall ?_ ?_
  · exact hrun.1
  · intro u e u' he hp hs
    obtain ⟨⟨hi, hr⟩, hnone⟩ := hs
    refine ⟨⟨hi.step he ?_, hr.step hi he ?_⟩, fun i => ?_⟩
    · rintro t rfl
      obtain ⟨name, h⟩ := hp _ rfl
      cases h
    · intro name _ i sub c hsub
      rw [hnone i] at hsub
      cases hsub
    · cases he with
      | subscribed =>
        obtain ⟨name, h⟩ := hp _ rfl
        cases h
      | unsubscribed => simp [hnone]
      | _ => exact hnone i
  · refine ⟨⟨fun t topic ht => ?_, fun t topic ht => ?_⟩, fun i => rfl⟩ <;> cases ht

section Queued

variable {value : FrcTimestampedValue} {t : TopicIdx}

/-- The value waits for the subscription. -/
def Queued (value : FrcTimestampedValue) (t : TopicIdx) (i : SubIdx) (s : InnerServer) : Prop :=
  ∃ stored, s.subValues.lookup i = some stored ∧ .normalValue value ∈ stored.queued t

/-- The fan-out of `set_value` reaches every subscription of the list. -/
theorem ends_queueValues_queued (l : List SubIdx) :
    Ends (forEach l (queueValue value t)) s fun r s' =>
      r = .ok () → ∀ i, i ∈ l ∨ Queued value t i s → Queued value t i s' := by
  induction l generalizing s with
  | nil => exact (ends_pure ()).mpr fun _ i hi => by simpa using hi
  | cons i l ih =>
    simp only [forEach, queueValue, ends_bind, ends_get, thenEnds_ok, ends_unwrapOr, ends_modify]
    intro stored hstored
    refine ends_mono ih ?_
    intro r s' h hr j hj
    refine h hr j ?_
    by_cases hji : j = i
    · subst hji
      exact .inr ⟨_, by simp, stored.mem_queued_addValue_self t _⟩
    · rcases hj with hj | ⟨stored', hs', hmem⟩
      · exact .inl ((List.mem_cons.mp hj).resolve_left hji)
      · exact .inr ⟨stored', by simpa [hji] using hs', hmem⟩

/-- A successful `set_value` leaves the value with every subscription that cares about the topic. -/
def Delivers (s : InnerServer) : Prop :=
  ∀ value t topic, s.topics.lookup t = some topic → ∀ i sub c,
    s.subscriptions.lookup i = some (sub, c) → sub.caresAbout topic.name = true →
      Ends (setValue value t) s fun r s' => r = .ok () → Queued value t i s'

theorem Routed.delivers (h : Routed s) : Delivers s := by
  intro value t topic ht i sub c hsub hcares
  obtain ⟨subs, hsubs, hmem⟩ := h t topic ht i sub c hsub hcares
  simp only [setValue, ends_bind, ends_get, thenEnds_ok, ends_okOr, thenEnds_error]
  refine ⟨fun topic' _ => ?_, fun _ hr => by cases hr⟩
  split_ifs with hdollar
  · exact (ends_throw _).mpr fun hr => by cases hr
  simp only [ends_bind, ends_get, thenEnds_ok, ends_unwrapOr]
  intro subs' hsubs'
  rw [hsubs] at hsubs'
  cases hsubs'
  refine ends_mono (ends_queueValues_queued subs) ?_
  intro r s₁ hs₁
  obtain e | a := r
  · intro hr
    cases hr
  · have hq : Queued value t i s₁ := hs₁ rfl i (.inl hmem)
    simp only [thenEnds_ok, storeValue, ends_bind, ends_get]
    split
    · split_ifs
      · exact (ends_modify _).mpr fun _ => hq
      · exact (ends_pure ()).mpr fun _ => hq
    · exact (ends_modify _).mpr fun _ => hq

end Queued

/-- Along a run whose topics are there before anyone subscribes to them, and whose removals find
both metatopics or stop at the first, the lists of subscriptions are complete, and values reach
every subscription that cares. -/
theorem routed_of_keepsRouting {u : Kind → Nat} (run : RunWhere KeepsRouting u s) :
    Routed s ∧ Delivers s := by
  have hrun := run.induct (fun _ => False) (fun s => Indexed s ∧ Routed s) (by simp)
    (fun es s hes hall _ => routed_of_booted hes hall)
    (fun s op es s' hes hall _ hg _ hs => routed_of_effects hes hall hg hs)
  exact ⟨hrun.2, hrun.2.delivers⟩

/-- Topics are added only while nobody subscribes to any, and none is removed. -/
def addsFirst (s : InnerServer) : Op → Bool
  | .connectClient _ | .innerPublishTopic _ _ => s.subscriptions.pairs.isEmpty
  | .subscribe _ _ _ | .setValue _ _ => true
  | _ => false

theorem keepsRouting_of_addsFirst (s : InnerServer) (op : Op) (h : addsFirst s op = true) :
    KeepsRouting s op := by
  have hnobody : s.subscriptions.pairs.isEmpty = true → Unheard (op.Adds s) s := by
    intro hempty name _ _ i sub c hsub
    have hmem : (i, (sub, c)) ∈ s.subscriptions.pairs := (KeyMap.mem_pairs ..).mpr hsub
    rw [List.isEmpty_iff.mp hempty] at hmem
    cases hmem
  cases op with
  | connectClient | innerPublishTopic => exact ⟨hnobody h, fun _ _ hr => hr.elim⟩
  | subscribe | setValue => exact ⟨fun _ ha => ha.elim, fun _ _ hr => hr.elim⟩
  | _ => cases h

/-- A client publishes a topic and subscribes to it, and a value is set. -/
def subscribeToPublished : List Op :=
  [.connectClient ⟨.v4 10 0 0 2 5810, "a"⟩, .innerPublishTopic ⟨"x", 0, "int", none⟩ 1,
    .subscribe ⟨0, {"x"}, none⟩ 1 0, .setValue ⟨7, ⟨.int, .integer 1⟩⟩ 5]

theorem routed_subscribeToPublished :
    ∃ s, stateAfter addsFirst .stored subscribeToPublished = some s ∧
      s.topicSubMap.lookup 5 = some [0] ∧
      (s.subValues.lookup 0).map (fun stored => (stored.queued 5).length) = some 1 ∧
      Routed s ∧ Delivers s := by
  have hrun : (stateAfter addsFirst .stored subscribeToPublished).map (fun s =>
      (s.topicSubMap.lookup 5,
        (s.subValues.lookup 0).map fun stored => (stored.queued 5).length)) =
      some (some [0], some 1) := by decide +kernel
  obtain ⟨s, hs, hview⟩ := Option.map_eq_some_iff.mp hrun
  obtain ⟨hlist, hqueued⟩ := Prod.mk.inj hview
  obtain ⟨u, run, -⟩ := runWhere_stateAfter keepsRouting_of_addsFirst hs
  exact ⟨s, hs, hlist, hqueued, routed_of_keepsRouting run⟩

/-- A client subscribes to a name and then publishes it. -/
def subscribeFirst : List Op :=
  [.connectClient ⟨.v4 10 0 0 2 5810, "a"⟩, .subscribe ⟨0, {"x"}, none⟩ 1 0,
    .innerPublishTopic ⟨"x", 0, "int", none⟩ 1]

/-- The new topic starts with an empty list, whoever subscribed to its name before. -/
theorem routing_misses_earlier_subscription : ¬∀ s, Reachable s → Routed s := by
  intro h
  have hrun : (stateAfter anyOp .stored subscribeFirst).map (fun s =>
      ((s.topics.lookup 5).map Topic.name, (s.subscriptions.lookup 0).map fun e => e.1.caresAbout "x",
        s.topicSubMap.lookup 5)) = some (some "x", some true, some []) := by decide +kernel
  obtain ⟨s, hs, hview⟩ := Option.map_eq_some_iff.mp hrun
  simp only [Prod.mk.injEq, Option.map_eq_some_iff] at hview
  obtain ⟨⟨topic, ht, hname⟩, ⟨⟨sub, c⟩, hsub, hcares⟩, hlist⟩ := hview
  obtain ⟨subs, hsubs, hmem⟩ :=
    h s (reachable_stateAfter hs) 5 topic ht 0 sub c hsub (hname ▸ hcares)
  rw [hlist] at hsubs
  cases hsubs
  cases hmem

end NetTables.Server
