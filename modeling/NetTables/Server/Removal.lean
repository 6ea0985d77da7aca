import NetTables.Server.Disconnect

namespace NetTables.Server

open Lib Lib.Fallible Spec

variable {s s' : InnerServer} {e : Option Event} {t i : TopicIdx} {topic : Topic} {n : String}

/-- The maps that keep something about a topic. -/
structure TopicMaps where
  topics : KeyMap TopicIdx Topic
  topicMap : KeyMap String TopicIdx
  topicSubMap : KeyMap TopicIdx (List SubIdx)
  pubCount : KeyMap TopicIdx UInt16
  topicValueMap : KeyMap TopicIdx FrcTimestampedValue
  metatopicValueMap : KeyMap TopicIdx MetaTopicValue

def InnerServer.topicMaps (s : InnerServer) : TopicMaps where
  topics := s.topics
  topicMap := s.topicMap
  topicSubMap := s.topicSubMap
  pubCount := s.pubCount
  topicValueMap := s.topicValueMap
  metatopicValueMap := s.metatopicValueMap

namespace TopicMaps

/-- Nothing is kept under the index. -/
structure Lacks (m : TopicMaps) (i : TopicIdx) : Prop where
  topics : i ∉ m.topics
  topicSubMap : i ∉ m.topicSubMap
  pubCount : i ∉ m.pubCount
  topicValueMap : i ∉ m.topicValueMap
  metatopicValueMap : i ∉ m.metatopicValueMap

/-- The same is kept under the index in both. -/
structure SameAt (m m' : TopicMaps) (i : TopicIdx) : Prop where
  topics : m'.topics.lookup i = m.topics.lookup i
  topicSubMap : m'.topicSubMap.lookup i = m.topicSubMap.lookup i
  pubCount : m'.pubCount.lookup i = m.pubCount.lookup i
  topicValueMap : m'.topicValueMap.lookup i = m.topicValueMap.lookup i
  metatopicValueMap : m'.metatopicValueMap.lookup i = m.metatopicValueMap.lookup i

/-- The maps without these indices and names, and as they were at all others. -/
structure Without (m : TopicMaps) (l : List TopicIdx) (names : List String) (m' : TopicMaps) :
    Prop where
  gone : ∀ i ∈ l, m'.Lacks i
  unnamed : ∀ n ∈ names, n ∉ m'.topicMap
  others : ∀ i ∉ l, m.SameAt m' i
  othersNamed : ∀ n ∉ names, m'.topicMap.lookup n = m.topicMap.lookup n

end TopicMaps

/-- A removal that succeeds takes the topic and its metatopics and nothing else, and one that fails
takes nothing. -/
structure RemovesExactly (s : InnerServer) (t : TopicIdx) : Prop where
  ok : ∀ s', (removeTopic t).exec s = .ok (.ok (), s') → ∀ topic p q,
    s.topics.lookup t = some topic → s.topicMap.lookup (metaPubName topic.name) = some p →
      s.topicMap.lookup (metaSubName topic.name) = some q →
        s.topicMaps.Without [t, p, q]
          [topic.name, metaPubName topic.name, metaSubName topic.name] s'.topicMaps
  error : ∀ e s', (removeTopic t).exec s = .ok (.error e, s') → s'.topicMaps = s.topicMaps

/-- Every topic has a count. -/
def CountsTopics (s : InnerServer) : Prop := ∀ t, t ∈ s.topics → t ∈ s.pubCount

theorem CountsTopics.of_topics (h : CountsTopics s) (htopics : ∀ t, t ∈ s'.topics → t ∈ s.topics)
    (hcounts : ∀ t, t ∈ s.pubCount → t ∈ s'.pubCount) : CountsTopics s' :=
  fun t ht => hcounts t (h t (htopics t ht))

theorem CountsTopics.step (h : CountsTopics s) (he : Effect s e s') : CountsTopics s' := by
  have herase : ∀ {i t : TopicIdx}, t ∈ s.topics.erase i → t ∈ s.topics :=
    fun ht => (AList.mem_erase.mp ht).2
  cases he with
  | topicAdded topic hfresh =>
    intro t ht
    refine (AList.mem_insert _).mpr ?_
    rcases (AList.mem_insert _).mp ht with heq | ht
    · exact .inl heq
    · exact .inr (h t ht)
  | topicRemoved =>
    refine h.of_topics (fun t ht => ?_) fun _ ht => ht
    exact (AList.mem_erase.mp (AList.mem_erase.mp (AList.mem_erase.mp ht).2).2).2
  | topicLost => exact h.of_topics (fun _ ht => herase ht) fun _ ht => ht
  | topicHalfLost => exact h.of_topics (fun _ ht => herase ht) fun _ ht => ht
  | propertiesSet _ ht =>
    refine h.of_topics (fun t htopic => ?_) fun _ ht => ht
    rcases (AList.mem_insert _).mp htopic with rfl | htopic
    · exact (KeyMap.mem_iff_lookup _ _).mpr ⟨_, ht⟩
    · exact htopic
  | countLowered =>
    exact h.of_topics (fun _ ht => ht) fun t ht => (AList.mem_insert _).mpr (.inr ht)
  | countErased i hi =>
    intro t ht
    refine AList.mem_erase.mpr ⟨?_, h t ht⟩
    rintro rfl
    exact AList.lookup_eq_none.mp hi ht
  | _ => exact h.of_topics (fun _ ht => ht) fun _ ht => ht

theorem Reachable.countsTopics (h : Reachable s) : CountsTopics s := by
  obtain ⟨u, run⟩ := h
  obtain ⟨es, hes, -⟩ := run.history
  refine hes.invariant CountsTopics (fun _ => True) (fun _ _ => trivial) ?_ ?_
  · intro s e s' he _ h
    exact h.step he
  · intro t ht
    exact (AList.notMem_empty t ht).elim

/-- A topic that is there is not removed exactly: if a metatopic is missing, it is removed and the
call fails; and if none is, its count stays. -/
theorem removesExactly_of_countsTopics (h : CountsTopics s) :
    RemovesExactly s t ↔ t ∉ s.topics := by
  constructor
  · intro hexact ht
    obtain ⟨topic, htopic⟩ := (KeyMap.mem_iff_lookup _ _).mp ht
    obtain ⟨r, v, hx, hends⟩ := total_removeTopic.ends (s := s) (x := removeTopic t)
      (Q := fun r v => (∃ e, r = .error e ∧ v.topics.lookup t = none) ∨
        ∃ p q, s.topicMap.lookup (metaPubName topic.name) = some p ∧
          s.topicMap.lookup (metaSubName topic.name) = some q ∧ r = .ok () ∧
          v.pubCount = s.pubCount) (by
        refine ends_removeTopic.mpr ⟨fun hnone => ?_, fun topic' ht' => ?_⟩
        · rw [htopic] at hnone
          cases hnone
        · rw [htopic] at ht'
          cases ht'
          refine ⟨fun _ => .inl ⟨_, rfl, by simp⟩, fun p hp => ⟨fun _ => .inl ⟨_, rfl, by simp⟩,
            fun q hq => .inr ⟨p, q, hp, hq, rfl, rfl⟩⟩⟩)
    rcases hends with ⟨e, rfl, hgone⟩ | ⟨p, q, hp, hq, rfl, hcounts⟩
    · have hsame := congrArg TopicMaps.topics (hexact.error e v hx)
      have hsame : v.topics = s.topics := hsame
      rw [hsame, htopic] at hgone
      cases hgone
    · have hlacks := (hexact.ok v hx topic p q htopic hp hq).gone t List.mem_cons_self
      have hcount : t ∉ v.pubCount := hlacks.pubCount
      rw [hcounts] at hcount
      exact hcount (h t ht)
  · intro ht
    have hnone := AList.lookup_eq_none.mpr ht
    have hends : Ends (removeTopic t) s fun r v => v = s ∧ r ≠ .ok () := by
      refine ends_removeTopic.mpr ⟨fun _ => ⟨rfl, by simp⟩, fun topic htopic => ?_⟩
      rw [hnone] at htopic
      cases htopic
    refine ⟨fun v hx => ?_, fun e v hx => ?_⟩
    · exact ((ends_of_exec hends hx).2 rfl).elim
    · rw [(ends_of_exec hends hx).1]

/-- In every state that operations reach, a removal is exact only where it has nothing to remove. -/
theorem removesExactly_iff (hs : Reachable s) (t : TopicIdx) :
    RemovesExactly s t ↔ t ∉ s.topics :=
  removesExactly_of_countsTopics hs.countsTopics

/-- A client publishes a topic. -/
def publishPlain : List Op :=
  [.connectClient ⟨.v4 10 0 0 2 5810, "a"⟩, .innerPublishTopic ⟨"x", 0, "int", none⟩ 1]

theorem removesExactly_publishPlain : ∃ s, stateAfter anyOp .stored publishPlain = some s ∧
    (s.topics.lookup 5).map Topic.name = some "x" ∧ s.pubCount.lookup 5 = some 1 ∧
    (RemovesExactly s 5 ↔ 5 ∉ s.topics) ∧ (RemovesExactly s 8 ↔ 8 ∉ s.topics) := by
  have hrun : (stateAfter anyOp .stored publishPlain).map (fun s =>
      ((s.topics.lookup 5).map Topic.name, s.pubCount.lookup 5)) = some (some "x", some 1) := by
    decide +kernel
  obtain ⟨s, hs, hview⟩ := Option.map_eq_some_iff.mp hrun
  obtain ⟨hname, hcount⟩ := Prod.mk.inj hview
  have hreach := reachable_stateAfter hs
  exact ⟨s, hs, hname, hcount, removesExactly_iff hreach 5, removesExactly_iff hreach 8⟩

/-- The removal of a topic leaves its count. -/
theorem removal_leaves_count : ¬∀ s, Reachable s → ∀ t, RemovesExactly s t := by
  intro h
  have hrun : (stateAfter anyOp .stored publishPlain).map (fun s =>
      (s.topics.lookup 5).isSome) = some true := by decide +kernel
  obtain ⟨s, hs, hview⟩ := Option.map_eq_some_iff.mp hrun
  have hreach := reachable_stateAfter hs
  have hgone := (removesExactly_of_countsTopics hreach.countsTopics).mp (h s hreach 5)
  rw [← AList.lookup_isSome] at hgone
  exact hgone hview

end NetTables.Server
