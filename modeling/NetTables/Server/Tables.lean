import NetTables.Server.History

namespace NetTables.Server

open Lib Lib.Fallible Spec

variable {s s' : InnerServer} {e : Option Event}

/-- The name map finds every topic that is there. -/
def Indexed (s : InnerServer) : Prop :=
  ∀ t topic, s.topics.lookup t = some topic → s.topicMap.lookup topic.name = some t

theorem lookup_topics_withoutTopic {t p q u : TopicIdx} {name : String} {topic : Topic} :
    (s.withoutTopic t name p q).topics.lookup u = some topic ↔
      u ≠ t ∧ u ≠ p ∧ u ≠ q ∧ s.topics.lookup u = some topic := by
  simp only [InnerServer.withoutTopic, KeyMap.lookup_erase]
  split_ifs <;> simp_all

theorem lookup_topicMap_withoutTopic {t p q u : TopicIdx} {name n : String} :
    (s.withoutTopic t name p q).topicMap.lookup n = some u ↔
      n ≠ name ∧ n ≠ metaPubName name ∧ n ≠ metaSubName name ∧ s.topicMap.lookup n = some u := by
  simp only [InnerServer.withoutTopic, KeyMap.lookup_erase]
  split_ifs <;> simp_all

theorem lookup_topics_withTopic {t : TopicIdx} {topic topic' : Topic} :
    (s.withTopic topic).topics.lookup t = some topic' ↔
      t = s.counters.topicIdx ∧ topic = topic' ∨
      t ≠ s.counters.topicIdx ∧ s.topics.lookup t = some topic' := by
  simp only [InnerServer.withTopic, KeyMap.lookup_insert]
  split_ifs with h <;> simp [h]

theorem lookup_topicMap_withTopic {t : TopicIdx} {topic : Topic} {n : String} :
    (s.withTopic topic).topicMap.lookup n = some t ↔
      n = topic.name ∧ s.counters.topicIdx = t ∨ n ≠ topic.name ∧ s.topicMap.lookup n = some t := by
  simp only [InnerServer.withTopic, KeyMap.lookup_insert]
  split_ifs with h <;> simp [h]

/-- A change of a topic's properties leaves its name. -/
theorem lookup_insert_properties {t u : TopicIdx} {topic topic' : Topic}
    {properties : Option PublishProperties} (ht : s.topics.lookup t = some topic)
    (h : (s.topics.insert t { topic with properties := properties }).lookup u = some topic') :
    ∃ topic₀, s.topics.lookup u = some topic₀ ∧ topic₀.name = topic'.name := by
  rw [KeyMap.lookup_insert] at h
  split_ifs at h with hu
  · cases h
    exact ⟨topic, hu ▸ ht, rfl⟩
  · exact ⟨topic', h, rfl⟩

/-- It is only lost where a removal stops between the two metatopics. -/
theorem Indexed.step (h : Indexed s) (he : Effect s e s')
    (hcut : ∀ t, e ≠ some (.gone t .noSub)) : Indexed s' := by
  intro u topic' hu
  cases he with
  | topicAdded topic hfresh =>
    rw [lookup_topicMap_withTopic]
    rcases lookup_topics_withTopic.mp hu with ⟨rfl, rfl⟩ | ⟨hne, hu⟩
    · exact .inl ⟨rfl, rfl⟩
    · refine .inr ⟨fun hname => ?_, h u topic' hu⟩
      have hmap := h u topic' hu
      rw [hname, hfresh] at hmap
      cases hmap
  | topicRemoved ht hp hq =>
    obtain ⟨hut, hup, huq, hu⟩ := lookup_topics_withoutTopic.mp hu
    have hmap := h u topic' hu
    refine lookup_topicMap_withoutTopic.mpr ⟨fun hn => hut ?_, fun hn => hup ?_, fun hn => huq ?_,
      hmap⟩
    · rw [hn, h _ _ ht] at hmap
      exact (Option.some.inj hmap).symm
    · rw [hn, hp] at hmap
      exact (Option.some.inj hmap).symm
    · rw [hn, hq] at hmap
      exact (Option.some.inj hmap).symm
  | topicLost ht hp =>
    simp only [KeyMap.lookup_erase] at hu
    split_ifs at hu
    exact h u topic' hu
  | topicHalfLost => exact (hcut _ rfl).elim
  | propertiesSet properties ht =>
    obtain ⟨topic₀, hu₀, hname⟩ := lookup_insert_properties ht hu
    rw [← hname]
    exact h u topic₀ hu₀
  | _ => exact h u topic' hu

section Metatopics

variable {t u p q : TopicIdx} {topic topicᵤ : Topic}

/-- The removal of another topic keeps a metatopic that is not that topic itself. -/
theorem lookup_metaPub_withoutTopic {r : TopicIdx} (h : Indexed s)
    (ht : s.topics.lookup t = some topic) (hu : s.topics.lookup u = some topicᵤ) (hne : t ≠ u)
    (hr : s.topicMap.lookup (metaPubName topic.name) = some r) (hru : r ≠ u) :
    (s.withoutTopic u topicᵤ.name p q).topicMap.lookup (metaPubName topic.name) = some r := by
  refine lookup_topicMap_withoutTopic.mpr ⟨fun hn => hru ?_, fun hn => hne ?_, ?_, hr⟩
  · rw [hn, h u topicᵤ hu] at hr
    exact (Option.some.inj hr).symm
  · have hmap := h t topic ht
    rw [metaPubName_injective hn, h u topicᵤ hu] at hmap
    exact (Option.some.inj hmap).symm
  · exact metaPubName_ne_metaSubName _ _

theorem lookup_metaSub_withoutTopic {r : TopicIdx} (h : Indexed s)
    (ht : s.topics.lookup t = some topic) (hu : s.topics.lookup u = some topicᵤ) (hne : t ≠ u)
    (hr : s.topicMap.lookup (metaSubName topic.name) = some r) (hru : r ≠ u) :
    (s.withoutTopic u topicᵤ.name p q).topicMap.lookup (metaSubName topic.name) = some r := by
  refine lookup_topicMap_withoutTopic.mpr ⟨fun hn => hru ?_, ?_, fun hn => hne ?_, hr⟩
  · rw [hn, h u topicᵤ hu] at hr
    exact (Option.some.inj hr).symm
  · exact (metaPubName_ne_metaSubName _ _).symm
  · have hmap := h t topic ht
    rw [metaSubName_injective hn, h u topicᵤ hu] at hmap
    exact (Option.some.inj hmap).symm

end Metatopics

/-- What the indices of topics keep while their counter does not wrap: they are below it, and a
name and an index belong to each other for good. -/
structure Numbered (s : InnerServer) : Prop where
  topics_lt : ∀ t, t ∈ s.topics → t.toNat < s.counters.topicIdx.toNat
  map_lt : ∀ n t, s.topicMap.lookup n = some t → t.toNat < s.counters.topicIdx.toNat
  map_inj : ∀ n n' t, s.topicMap.lookup n = some t → s.topicMap.lookup n' = some t → n = n'
  name_eq : ∀ n t topic, s.topicMap.lookup n = some t → s.topics.lookup t = some topic →
    topic.name = n
  map_listed : ∀ n t, s.topicMap.lookup n = some t → t ∈ s.topicSubMap
  topics_listed : ∀ t, t ∈ s.topics → t ∈ s.topicSubMap

namespace Numbered

/-- It only looks at the names of the topics, the name map and the keys of the lists. -/
theorem of_same (h : Numbered s)
    (htopics : ∀ t, (s'.topics.lookup t).map Topic.name = (s.topics.lookup t).map Topic.name)
    (hmap : s'.topicMap = s.topicMap) (hlists : ∀ t, t ∈ s.topicSubMap → t ∈ s'.topicSubMap)
    (hidx : s'.counters.topicIdx = s.counters.topicIdx) : Numbered s' := by
  have hback : ∀ t topic', s'.topics.lookup t = some topic' →
      ∃ topic, s.topics.lookup t = some topic ∧ topic.name = topic'.name := by
    intro t topic' ht
    have hname := htopics t
    rw [ht, Option.map_some] at hname
    exact Option.map_eq_some_iff.mp hname.symm
  have hmem : ∀ t, t ∈ s'.topics → t ∈ s.topics := by
    intro t ht
    obtain ⟨topic', ht'⟩ := (KeyMap.mem_iff_lookup _ _).mp ht
    obtain ⟨topic, ht, -⟩ := hback t topic' ht'
    exact (KeyMap.mem_iff_lookup _ _).mpr ⟨topic, ht⟩
  refine ⟨fun t ht => ?_, fun n t hn => ?_, fun n n' t hn hn' => ?_, fun n t topic' hn ht => ?_,
    fun n t hn => ?_, fun t ht => ?_⟩
  · rw [hidx]
    exact h.topics_lt t (hmem t ht)
  · rw [hidx]
    exact h.map_lt n t (hmap ▸ hn)
  · exact h.map_inj n n' t (hmap ▸ hn) (hmap ▸ hn')
  · obtain ⟨topic, ht, hname⟩ := hback t topic' ht
    rw [← hname]
    exact h.name_eq n t topic (hmap ▸ hn) ht
  · exact hlists t (h.map_listed n t (hmap ▸ hn))
  · exact hlists t (h.topics_listed t (hmem t ht))

theorem withTopic (h : Numbered s) (topic : Topic)
    (hroom : s.counters.topicIdx.toNat + 1 < 2 ^ 32) : Numbered (s.withTopic topic) := by
  have hidx : (s.withTopic topic).counters.topicIdx.toNat = s.counters.topicIdx.toNat + 1 := by
    have hone : (1 : UInt32).toNat = 1 := rfl
    rw [InnerServer.withTopic, UInt32.toNat_add, hone]
    omega
  have hne : ∀ n t, s.topicMap.lookup n = some t → t ≠ s.counters.topicIdx := by
    intro n t hn heq
    have hlt := h.map_lt n t hn
    rw [heq] at hlt
    omega
  have hlists : ∀ t, t ∈ (s.withTopic topic).topicSubMap ↔
      t = s.counters.topicIdx ∨ t ∈ s.topicSubMap := fun t => AList.mem_insert _
  refine ⟨fun t ht => ?_, fun n t hn => ?_, fun n n' t hn hn' => ?_, fun n t topic' hn ht => ?_,
    fun n t hn => ?_, fun t ht => ?_⟩
  · rw [hidx]
    rcases (AList.mem_insert s.topics).mp ht with rfl | ht
    · omega
    · have hlt := h.topics_lt t ht
      omega
  · rw [hidx]
    rcases lookup_topicMap_withTopic.mp hn with ⟨-, rfl⟩ | ⟨-, hn⟩
    · omega
    · have hlt := h.map_lt n t hn
      omega
  · rcases lookup_topicMap_withTopic.mp hn with ⟨rfl, rfl⟩ | ⟨-, hn⟩ <;>
      rcases lookup_topicMap_withTopic.mp hn' with ⟨rfl, hc⟩ | ⟨-, hn'⟩
    · rfl
    · exact (hne n' _ hn' rfl).elim
    · exact (hne n t hn hc.symm).elim
    · exact h.map_inj n n' t hn hn'
  · rcases lookup_topicMap_withTopic.mp hn with ⟨rfl, rfl⟩ | ⟨-, hn⟩ <;>
      rcases lookup_topics_withTopic.mp ht with ⟨hc, rfl⟩ | ⟨hc, ht⟩
    · rfl
    · exact (hc rfl).elim
    · exact (hne n t hn hc).elim
    · exact h.name_eq n t topic' hn ht
  · rcases lookup_topicMap_withTopic.mp hn with ⟨-, rfl⟩ | ⟨-, hn⟩
    · exact (hlists _).mpr (.inl rfl)
    · exact (hlists t).mpr (.inr (h.map_listed n t hn))
  · rcases (AList.mem_insert s.topics).mp ht with rfl | ht
    · exact (hlists _).mpr (.inl rfl)
    · exact (hlists t).mpr (.inr (h.topics_listed t ht))

theorem withoutTopic (h : Numbered s) {t p q : TopicIdx} {topic : Topic}
    (ht : s.topics.lookup t = some topic) (hp : s.topicMap.lookup (metaPubName topic.name) = some p)
    (hq : s.topicMap.lookup (metaSubName topic.name) = some q) :
    Numbered (s.withoutTopic t topic.name p q) := by
  have hmem : ∀ u, u ∈ (s.withoutTopic t topic.name p q).topics →
      u ≠ t ∧ u ≠ p ∧ u ≠ q ∧ u ∈ s.topics := by
    intro u hu
    obtain ⟨topic', hu⟩ := (KeyMap.mem_iff_lookup _ _).mp hu
    obtain ⟨hut, hup, huq, hu⟩ := lookup_topics_withoutTopic.mp hu
    exact ⟨hut, hup, huq, (KeyMap.mem_iff_lookup _ _).mpr ⟨topic', hu⟩⟩
  have hlists : ∀ u, u ∈ (s.withoutTopic t topic.name p q).topicSubMap ↔
      u ≠ q ∧ u ≠ p ∧ u ≠ t ∧ u ∈ s.topicSubMap := by
    intro u
    simp only [InnerServer.withoutTopic, AList.mem_erase]
  have hmap : ∀ n u, (s.withoutTopic t topic.name p q).topicMap.lookup n = some u →
      s.topicMap.lookup n = some u := fun n u hn => (lookup_topicMap_withoutTopic.mp hn).2.2.2
  refine ⟨fun u hu => h.topics_lt u (hmem u hu).2.2.2, fun n u hn => h.map_lt n u (hmap n u hn),
    fun n n' u hn hn' => h.map_inj n n' u (hmap n u hn) (hmap n' u hn'),
    fun n u topic' hn hu => h.name_eq n u topic' (hmap n u hn) (lookup_topics_withoutTopic.mp hu).2.2.2,
    fun n u hn => ?_, fun u hu => ?_⟩
  · obtain ⟨hname, hpub, hsub, hold⟩ := lookup_topicMap_withoutTopic.mp hn
    refine (hlists u).mpr ⟨?_, ?_, ?_, h.map_listed n u hold⟩
    · rintro rfl
      exact hsub (h.map_inj _ _ _ hold hq)
    · rintro rfl
      exact hpub (h.map_inj _ _ _ hold hp)
    · rintro rfl
      exact hname (h.name_eq _ _ _ hold ht).symm
  · obtain ⟨hut, hup, huq, hu⟩ := hmem u hu
    exact (hlists u).mpr ⟨huq, hup, hut, h.topics_listed u hu⟩

theorem erase (h : Numbered s) (t : TopicIdx) {topicMap : KeyMap String TopicIdx}
    (hmap : ∀ n t, topicMap.lookup n = some t → s.topicMap.lookup n = some t) :
    Numbered { s with topics := s.topics.erase t, topicMap := topicMap } := by
  have hold : ∀ u topic, (s.topics.erase t).lookup u = some topic →
      s.topics.lookup u = some topic := by
    intro u topic hu
    rw [KeyMap.lookup_erase] at hu
    split_ifs at hu
    exact hu
  have hmem : ∀ u, u ∈ s.topics.erase t → u ∈ s.topics := fun u hu => (AList.mem_erase.mp hu).2
  exact ⟨fun u hu => h.topics_lt u (hmem u hu), fun n u hn => h.map_lt n u (hmap n u hn),
    fun n n' u hn hn' => h.map_inj n n' u (hmap n u hn) (hmap n' u hn'),
    fun n u topic hn hu => h.name_eq n u topic (hmap n u hn) (hold u topic hu),
    fun n u hn => h.map_listed n u (hmap n u hn), fun u hu => h.topics_listed u (hmem u hu)⟩

theorem step (h : Numbered s) (he : Effect s e s') (hroom : Room (· = .topic) s e.toList) :
    Numbered s' := by
  cases he with
  | topicAdded topic hfresh => exact h.withTopic topic (hroom .topic rfl)
  | topicRemoved ht hp hq => exact h.withoutTopic ht hp hq
  | topicLost => exact h.erase _ fun _ _ hn => hn
  | topicHalfLost =>
    refine h.erase _ fun n t hn => ?_
    rw [KeyMap.lookup_erase] at hn
    split_ifs at hn
    exact hn
  | propertiesSet properties ht =>
    refine h.of_same (fun u => ?_) rfl (fun _ h => h) rfl
    rw [KeyMap.lookup_insert]
    split_ifs with hu
    · subst hu
      rw [ht]
      rfl
    · rfl
  | subscribed sub now stored interest messages frames hc hinterest hlists =>
    refine h.of_same (fun _ => rfl) rfl (fun t ht => (mem_pushAll ?_).mpr ht) rfl
    intro u hu
    obtain ⟨f, hf, rfl⟩ := List.mem_map.mp hu
    exact hlists f hf
  | subscribeFailed ts he hmissing hts =>
    exact h.of_same (fun _ => rfl) rfl (fun t ht => (mem_pushAll hts).mpr ht) rfl
  | unsubscribed =>
    exact h.of_same (fun _ => rfl) rfl (fun t ht => (KeyMap.mem_mapValues _ _ t).mpr ht) rfl
  | _ => exact h.of_same (fun _ => rfl) rfl (fun _ h => h) rfl

theorem booted : Numbered booted := by
  refine ⟨?_, ?_, ?_, ?_, ?_, ?_⟩ <;> intros <;> simp_all [Server.booted]

end Numbered

/-- The tables of a run that creates fewer than 2^32 topics. -/
theorem RunWhere.numbered {guard : InnerServer → Op → Prop} {u : Kind → Nat}
    (run : RunWhere guard u s) (hu : u .topic < 2 ^ 32) : Numbered s := by
  obtain ⟨es, hes, hk⟩ := run.history
  have hroom : Room (· = .topic) booted es := by
    rintro k rfl
    have htopic := hk .topic
    simp only [reduceCtorEq, if_false, Nat.add_zero] at htopic
    rw [← htopic]
    simpa [Server.booted, Counter.get] using hu
  exact hes.invariant_of_room Numbered (fun _ => True) (fun _ _ => trivial) hroom
    (fun _ _ _ he _ hr h => h.step he hr) Numbered.booted

/-- Every listed subscription has a queue. -/
def Backed (s : InnerServer) : Prop := ∀ t i, Listed s.topicSubMap t i → i ∈ s.subValues

theorem Backed.step (h : Backed s) (hn : Numbered s) (he : Effect s e s') : Backed s' := by
  intro t i hi
  cases he with
  | topicAdded topic =>
    obtain ⟨subs, hl, hmem⟩ := hi
    simp only [InnerServer.withTopic, KeyMap.lookup_insert] at hl
    split_ifs at hl
    · cases hl
      cases hmem
    · exact h t i ⟨subs, hl, hmem⟩
  | topicRemoved =>
    have hold := (listed_erase.mp (listed_erase.mp (listed_erase.mp hi).2).2).2
    exact h t i hold
  | subscribed =>
    rcases listed_pushAll.mp hi with hi | ⟨-, rfl⟩
    · exact (AList.mem_insert _).mpr (.inr (h t i hi))
    · exact (AList.mem_insert _).mpr (.inl rfl)
  | subscribeFailed ts he hmissing => exact (hmissing (hn.map_listed _ _ he)).elim
  | unsubscribed =>
    obtain ⟨hne, hi⟩ := listed_filter.mp hi
    exact AList.mem_erase.mpr ⟨hne, h t i hi⟩
  | valueQueued | batchesDropped | batchesSent =>
    exact (AList.mem_insert _).mpr (.inr (h t i hi))
  | _ => exact h t i hi

/-- The lists and the queues of a run that creates fewer than 2^32 topics. -/
theorem RunWhere.backed {guard : InnerServer → Op → Prop} {u : Kind → Nat}
    (run : RunWhere guard u s) (hu : u .topic < 2 ^ 32) : Backed s := by
  have hboth : Numbered s ∧ Backed s := by
    refine run.induct (· = .topic) (fun s => Numbered s ∧ Backed s) (fun k hk => hk ▸ hu) ?_ ?_
    · intro es s hes _ hroom
      refine hes.invariant_of_room (fun s => Numbered s ∧ Backed s) (fun _ => True)
        (fun _ _ => trivial) hroom (fun _ _ _ he _ hr h => ⟨h.1.step he hr, h.2.step h.1 he⟩)
        ⟨.booted, ?_⟩
      intro t i hi
      obtain ⟨subs, hl, -⟩ := hi
      cases hl
    · intro s op es s' hes _ hroom _ _ hs
      exact hes.invariant_of_room (fun s => Numbered s ∧ Backed s) (fun _ => True)
        (fun _ _ => trivial) hroom (fun _ _ _ he _ hr h => ⟨h.1.step he hr, h.2.step h.1 he⟩) hs
  exact hboth.2

end NetTables.Server
