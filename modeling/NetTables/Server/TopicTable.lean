import NetTables.Server.Tables

namespace NetTables.Server

open Lib Lib.Fallible Spec

variable {s s' : InnerServer} {e : Option Event} {op : Op}

/-- The name map and the topics describe the same set of topics. -/
def TableOk (s : InnerServer) : Prop :=
  ∀ n t, s.topicMap.lookup n = some t ↔ ∃ topic, s.topics.lookup t = some topic ∧ topic.name = n

/-- A removal finds both metatopics, and neither of them is to be removed itself. -/
def Clean (removes : TopicIdx → Prop) (s : InnerServer) : Prop :=
  ∀ t topic, removes t → s.topics.lookup t = some topic →
    (∃ p, s.topicMap.lookup (metaPubName topic.name) = some p ∧ ¬removes p) ∧
    ∃ q, s.topicMap.lookup (metaSubName topic.name) = some q ∧ ¬removes q

/-- Every topic that the operation removes has both of its metatopics. -/
def RemovesCleanly (s : InnerServer) (op : Op) : Prop := Clean (op.Removes s) s

/-- A name never leads to a topic that is gone. -/
def Present (s : InnerServer) : Prop :=
  ∀ n t, s.topicMap.lookup n = some t → ∃ topic, s.topics.lookup t = some topic

theorem tableOk_iff (hn : Numbered s) : TableOk s ↔ Indexed s ∧ Present s := by
  constructor
  · intro h
    constructor
    · intro t topic ht
      exact (h topic.name t).mpr ⟨topic, ht, rfl⟩
    · intro n t hmap
      obtain ⟨topic, ht, -⟩ := (h n t).mp hmap
      exact ⟨topic, ht⟩
  · intro h n t
    constructor
    · intro hmap
      obtain ⟨topic, ht⟩ := h.2 n t hmap
      exact ⟨topic, ht, hn.name_eq n t topic hmap ht⟩
    · intro ht
      obtain ⟨topic, ht, hname⟩ := ht
      rw [← hname]
      exact h.1 t topic ht

theorem Present.step (h : Present s) (hn : Numbered s) (he : Effect s e s')
    (hwhole : ∀ t how, e = some (.gone t how) → how = .whole) : Present s' := by
  intro n u hu
  cases he with
  | topicAdded topic hfresh =>
    by_cases hidx : u = s.counters.topicIdx
    · exact ⟨topic, lookup_topics_withTopic.mpr (.inl ⟨hidx, rfl⟩)⟩
    · have hold := (lookup_topicMap_withTopic.mp hu).resolve_left fun hc => hidx hc.2.symm
      obtain ⟨topic', ht⟩ := h n u hold.2
      exact ⟨topic', lookup_topics_withTopic.mpr (.inr ⟨hidx, ht⟩)⟩
  | topicRemoved ht hp hq =>
    obtain ⟨hname, hpub, hsub, hold⟩ := lookup_topicMap_withoutTopic.mp hu
    obtain ⟨topic', hu'⟩ := h n u hold
    refine ⟨topic', lookup_topics_withoutTopic.mpr ⟨?_, ?_, ?_, hu'⟩⟩
    · intro hut
      subst hut
      exact hname (hn.name_eq n _ _ hold ht).symm
    · intro hup
      subst hup
      exact hpub (hn.map_inj _ _ _ hold hp)
    · intro huq
      subst huq
      exact hsub (hn.map_inj _ _ _ hold hq)
  | topicLost | topicHalfLost => cases hwhole _ _ rfl
  | propertiesSet properties ht =>
    obtain ⟨topic', hu'⟩ := h n u hu
    rw [KeyMap.lookup_insert]
    split_ifs
    · exact ⟨_, rfl⟩
    · exact ⟨topic', hu'⟩
  | _ => exact h n u hu

theorem Clean.step {removes : TopicIdx → Prop} (h : Clean removes s) (hi : Indexed s)
    (he : Effect s e s') (hadd : ∀ name, e = some (.topic name) → ∀ t, ¬removes t)
    (hgone : ∀ t how, e = some (.gone t how) → removes t) : Clean removes s' := by
  intro t topic' hr ht
  cases he with
  | topicAdded topic => exact (hadd _ rfl t hr).elim
  | topicRemoved hu hp hq =>
    obtain ⟨htu, htp, htq, ht⟩ := lookup_topics_withoutTopic.mp ht
    obtain ⟨⟨p', hp', hnp⟩, ⟨q', hq', hnq⟩⟩ := h t topic' hr ht
    have hru := hgone _ _ rfl
    have hpu : p' ≠ _ := fun heq => hnp (heq ▸ hru)
    have hqu : q' ≠ _ := fun heq => hnq (heq ▸ hru)
    exact ⟨⟨p', lookup_metaPub_withoutTopic hi ht hu htu hp' hpu, hnp⟩,
      ⟨q', lookup_metaSub_withoutTopic hi ht hu htu hq' hqu, hnq⟩⟩
  | topicLost hu hp =>
    obtain ⟨⟨p, hp', -⟩, -⟩ := h _ _ (hgone _ _ rfl) hu
    rw [hp] at hp'
    cases hp'
  | topicHalfLost hu hp hq =>
    obtain ⟨-, ⟨q, hq', -⟩⟩ := h _ _ (hgone _ _ rfl) hu
    rw [hq] at hq'
    cases hq'
  | propertiesSet properties hu =>
    obtain ⟨topic₀, ht₀, hname⟩ := lookup_insert_properties hu ht
    rw [← hname]
    exact h t topic₀ hr ht₀
  | _ => exact h t topic' hr ht

/-- A clean removal goes through to its end. -/
theorem Clean.whole {removes : TopicIdx → Prop} {t : TopicIdx} {how : Removal}
    (h : Clean removes s) (he : Effect s (some (.gone t how)) s') (hr : removes t) :
    how = .whole := by
  cases he with
  | topicRemoved => rfl
  | topicLost ht hp =>
    obtain ⟨⟨p, hp', -⟩, -⟩ := h t _ hr ht
    rw [hp] at hp'
    cases hp'
  | topicHalfLost ht hp hq =>
    obtain ⟨-, ⟨q, hq', -⟩⟩ := h t _ hr ht
    rw [hq] at hq'
    cases hq'

theorem tables_of_effects {es : List Event} (hes : Effects s es s')
    (hall : ∀ a ∈ es, op.MayDo s a) (hroom : Room (· = .topic) s es) (hg : RemovesCleanly s op)
    (hs : Numbered s ∧ Indexed s ∧ Present s) : Numbered s' ∧ Indexed s' ∧ Present s' := by
  have hrun := hes.invariant_of_room
    (fun u => (Numbered u ∧ Indexed u ∧ Present u) ∧ Clean (op.Removes s) u) (op.MayDo s) hall hroom
    ?_ ⟨hs, hg⟩
  · exact hrun.1
  intro u e u' he hp hroom hu
  obtain ⟨⟨hn, hi, hpres⟩, hclean⟩ := hu
  have hgone : ∀ t how, e = some (.gone t how) → op.Removes s t := fun t how h => hp _ h
  have hadd : ∀ name, e = some (.topic name) → ∀ t, ¬op.Removes s t :=
    fun name h => Op.not_removes_of_adds (hp _ h)
  have hwhole : ∀ t how, e = some (.gone t how) → how = .whole := by
    intro t how h
    subst h
    exact hclean.whole he (hgone t how rfl)
  have hcut : ∀ t, e ≠ some (.gone t .noSub) := by
    intro t h
    cases hwhole t _ h
  exact ⟨⟨hn.step he hroom, hi.step he hcut, hpres.step hn he hwhole⟩, hclean.step hi he hadd hgone⟩

theorem tables_of_booted {es : List Event} (hes : Effects booted es s)
    (hall : ∀ a ∈ es, IsTopic a) (hroom : Room (· = .topic) booted es) :
    Numbered s ∧ Indexed s ∧ Present s := by
  apply hes.invariant_of_room (fun u => Numbered u ∧ Indexed u ∧ Present u) IsTopic hall hroom
  · intro u e u' he hp hroom hu
    obtain ⟨hn, hi, hpres⟩ := hu
    have hgone : ∀ t how, e ≠ some (.gone t how) := by
      intro t how h
      obtain ⟨name, ha⟩ := hp _ h
      cases ha
    exact ⟨hn.step he hroom, hi.step he fun t => hgone t _,
      hpres.step hn he fun t how h => (hgone t how h).elim⟩
  · refine ⟨Numbered.booted, ?_, ?_⟩
    · intro t topic ht
      cases ht
    · intro n t hmap
      cases hmap

/-- The name map and the topics stay consistent along every run that creates fewer than 2^32
topics and only removes topics that have both metatopics. -/
theorem tableOk_of_removesCleanly {u : Kind → Nat} (run : RunWhere RemovesCleanly u s)
    (hu : u .topic < 2 ^ 32) : TableOk s := by
  have hrun := run.induct (· = .topic) (fun s => Numbered s ∧ Indexed s ∧ Present s)
    (fun k hk => hk ▸ hu)
    (fun es s hes hall hroom => tables_of_booted hes hall hroom)
    (fun s op es s' hes hall hroom hg _ hs => tables_of_effects hes hall hroom hg hs)
  exact (tableOk_iff hrun.1).mpr hrun.2

/-- A client connects and publishes a topic. -/
def connectAndPublish : List Op :=
  [.connectClient ⟨.v4 10 0 0 2 5810, "a"⟩, .innerPublishTopic ⟨"x", 0, "int", none⟩ 1]

/-- Neither of these removes a topic. -/
def isAdding (_ : InnerServer) : Op → Bool
  | .connectClient _ | .innerPublishTopic _ _ => true
  | _ => false

theorem removesCleanly_of_isAdding (s : InnerServer) (op : Op) (h : isAdding s op = true) :
    RemovesCleanly s op := by
  cases op with
  | connectClient | innerPublishTopic => exact fun _ _ h => h.elim
  | _ => cases h

theorem tableOk_connectAndPublish :
    ∃ s, stateAfter isAdding .stored connectAndPublish = some s ∧
      s.topicMap.lookup "x" = some 5 ∧ TableOk s := by
  have hrun : (stateAfter isAdding .stored connectAndPublish).map
      (fun s => s.topicMap.lookup "x") = some (some 5) := by decide +kernel
  obtain ⟨s, hs, hmap⟩ := Option.map_eq_some_iff.mp hrun
  obtain ⟨u, run, hu⟩ := runWhere_stateAfter removesCleanly_of_isAdding hs
  have hlt : u .topic < 2 ^ 32 := (hu .topic).trans_lt (by decide)
  exact ⟨s, hs, hmap, tableOk_of_removesCleanly run hlt⟩

/-- A client publishes a name with a `$`, which gets no metatopics, and takes it back. -/
def publishDollar : List Op :=
  [.connectClient ⟨.v4 10 0 0 2 5810, "a"⟩, .innerPublishTopic ⟨"x$y", 0, "int", none⟩ 1,
    .innerUnpublishTopic ⟨0⟩ 1]

/-- The topic is gone, and its name still leads to it. -/
theorem table_keeps_removed_name : ¬∀ s, Reachable s → TableOk s := by
  intro h
  have hrun : (stateAfter anyOp .stored publishDollar).map (fun s =>
      (s.topicMap.lookup "x$y", (s.topics.lookup 5).isSome)) = some (some 5, false) := by
    decide +kernel
  obtain ⟨s, hs, hview⟩ := Option.map_eq_some_iff.mp hrun
  simp only [Prod.mk.injEq] at hview
  obtain ⟨topic, ht, -⟩ := (h s (reachable_stateAfter hs) "x$y" 5).mp hview.1
  rw [ht] at hview
  cases hview.2

end NetTables.Server
