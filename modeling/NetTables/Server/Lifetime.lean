import NetTables.Server.Tables
import Mathlib.Data.Finset.Card

namespace NetTables.Server

open Lib Lib.Fallible Spec

variable {s s' : InnerServer} {e : Option Event} {op : Op} {o : IterOrder} {c : ClientIdx}
  {t : TopicIdx}

/-- The registrations of a topic by connected clients, a client and its `pubuid` each. -/
def InnerServer.publishers (s : InnerServer) (t : TopicIdx) : Finset (ClientIdx × PubUID) :=
  (s.clients.pairs.flatMap fun e =>
    (e.2.pubuidToTopicidx.iterLr.pairs.filter fun f => f.2 == t).map fun f => (e.1, f.1)).toFinset

theorem mem_publishers {pubuid : PubUID} :
    (c, pubuid) ∈ s.publishers t ↔ ∃ client, s.clients.lookup c = some client ∧
      client.pubuidToTopicidx.getByLeft pubuid = some t := by
  simp only [InnerServer.publishers, List.mem_toFinset, List.mem_flatMap, List.mem_map,
    List.mem_filter, beq_iff_eq]
  constructor
  · intro h
    obtain ⟨⟨c', client⟩, hc, ⟨pubuid', t'⟩, ⟨hp, ht⟩, heq⟩ := h
    cases heq
    cases ht
    exact ⟨client, (KeyMap.mem_pairs _ _ _).mp hc, (KeyMap.mem_pairs _ _ _).mp hp⟩
  · intro h
    obtain ⟨client, hc, hp⟩ := h
    exact ⟨(c, client), (KeyMap.mem_pairs _ _ _).mpr hc, (pubuid, t),
      ⟨(KeyMap.mem_pairs _ _ _).mpr hp, rfl⟩, rfl⟩

/-- The registrations of one client are as many as its loop in `disconnect_client` releases. -/
theorem card_publishers_of_client {client : ConnectedClient} (hc : s.clients.lookup c = some client) :
    ((s.publishers t).filter fun e => e.1 = c).card = client.registrations t := by
  let entries := client.pubuidToTopicidx.iterLr.pairs.filter fun f => f.2 == t
  have hset : (s.publishers t).filter (fun e => e.1 = c) =
      (entries.map fun f => (c, f.1)).toFinset := by
    ext ⟨c', pubuid⟩
    simp only [Finset.mem_filter, mem_publishers, List.mem_toFinset, List.mem_map, entries,
      List.mem_filter, beq_iff_eq, Prod.mk.injEq]
    constructor
    · intro h
      obtain ⟨⟨client', hc', hp⟩, heq⟩ := h
      subst heq
      rw [hc] at hc'
      cases hc'
      exact ⟨(pubuid, t), ⟨(KeyMap.mem_pairs _ _ _).mpr hp, rfl⟩, rfl, rfl⟩
    · intro h
      obtain ⟨⟨pubuid', t'⟩, ⟨hp, ht⟩, hcc, hpp⟩ := h
      subst hcc hpp ht
      exact ⟨⟨client, hc, (KeyMap.mem_pairs _ _ _).mp hp⟩, rfl⟩
  have hkeys : (entries.map Prod.fst).Nodup :=
    (List.filter_sublist.map Prod.fst).nodup (KeyMap.nodup_pairs _)
  have hnodup : (entries.map fun f => (c, f.1)).Nodup := by
    have hinj : Function.Injective fun pubuid : PubUID => (c, pubuid) := fun a b h => by
      cases h
      rfl
    simpa [List.map_map, Function.comp_def] using hkeys.map hinj
  rw [hset, List.toFinset_card_of_nodup hnodup, List.length_map, ConnectedClient.registrations,
    List.countP_eq_length_filter]

/-- As long as a topic has a registration, it is there under its name. -/
def Lives (s : InnerServer) : Prop :=
  ∀ c client pubuid t, s.clients.lookup c = some client →
    client.pubuidToTopicidx.getByLeft pubuid = some t →
      ∃ topic, s.topics.lookup t = some topic ∧ s.topicMap.lookup topic.name = some t

theorem Lives.of_mem (h : Lives s) {e : ClientIdx × PubUID} (he : e ∈ s.publishers t) :
    ∃ topic, s.topics.lookup t = some topic ∧ s.topicMap.lookup topic.name = some t := by
  obtain ⟨client, hc, hp⟩ := mem_publishers.mp he
  exact h e.1 client e.2 t hc hp

theorem lives_of_publishers
    (h : ∀ t e, e ∈ s.publishers t →
      ∃ topic, s.topics.lookup t = some topic ∧ s.topicMap.lookup topic.name = some t) :
    Lives s := by
  intro c client pubuid t hc hp
  exact h t (c, pubuid) (mem_publishers.mpr ⟨client, hc, hp⟩)

/-- The count of a topic that has registrations covers them. -/
def Counted (s : InnerServer) : Prop :=
  ∀ t, (s.publishers t).Nonempty → ∃ n, s.pubCount.lookup t = some n ∧
    (s.publishers t).card ≤ n.toNat

/-- Only a registration adds to the publishers of a topic. -/
theorem publishers_subset (he : Effect s e s')
    (hreg : ∀ c pubuid name, e ≠ some (.registered c pubuid name)) (t : TopicIdx) :
    s'.publishers t ⊆ s.publishers t := by
  intro ⟨c', pubuid⟩ hmem
  obtain ⟨client', hc', hpub⟩ := mem_publishers.mp hmem
  apply mem_publishers.mpr
  cases he with
  | registered => exact (hreg _ _ _ rfl).elim
  | unregistered pubuid' hc =>
    simp only [KeyMap.lookup_insert] at hc'
    split_ifs at hc' with h
    · cases hc'
      subst h
      rw [PrimBiMap.getByLeft_removeByLeft] at hpub
      split_ifs at hpub
      exact ⟨_, hc, hpub⟩
    · exact ⟨client', hc', hpub⟩
  | clientLeft =>
    simp only [InnerServer.withoutClient, KeyMap.lookup_erase] at hc'
    split_ifs at hc'
    exact ⟨client', hc', hpub⟩
  | clientConnected identity =>
    simp only [KeyMap.lookup_insert] at hc'
    split_ifs at hc' with h
    · cases hc'
      cases hpub
    · exact ⟨client', hc', hpub⟩
  | marked _ hc | told _ hc | flushed hc | closed hc | subscribed _ _ _ _ _ _ hc
  | unsubscribed _ hc | batchesSent _ _ hc =>
    simp only [KeyMap.lookup_insert] at hc'
    split_ifs at hc' with h
    · cases hc'
      subst h
      exact ⟨_, hc, hpub⟩
    · exact ⟨client', hc', hpub⟩
  | _ => exact ⟨client', hc', hpub⟩

/-- A registration that is new is the one that was made. -/
theorem mem_publishers_registered {client : ConnectedClient} {pubuid : PubUID} {r : TopicIdx}
    {f : ClientIdx × PubUID} (hc : s.clients.lookup c = some client)
    (hs : s'.clients = s.clients.insert c
      { client with pubuidToTopicidx := client.pubuidToTopicidx.insert pubuid t })
    (hf : f ∈ s'.publishers r) :
    f = (c, pubuid) ∧ r = t ∨ f ≠ (c, pubuid) ∧ f ∈ s.publishers r := by
  obtain ⟨c', pubuid'⟩ := f
  obtain ⟨client', hc', hpub⟩ := mem_publishers.mp hf
  rw [hs, KeyMap.lookup_insert] at hc'
  split_ifs at hc' with h
  · cases hc'
    subst h
    rw [PrimBiMap.getByLeft_insert] at hpub
    split_ifs at hpub with hpp
    · cases hpub
      subst hpp
      exact .inl ⟨rfl, rfl⟩
    · refine .inr ⟨fun heq => ?_, mem_publishers.mpr ⟨client, hc, hpub⟩⟩
      cases heq
      exact hpp rfl
  · refine .inr ⟨fun heq => ?_, mem_publishers.mpr ⟨client', hc', hpub⟩⟩
    cases heq
    exact h rfl

/-- What a registration rests on, and what it keeps. -/
structure Held (s : InnerServer) : Prop where
  numbered : Numbered s
  lives : Lives s
  counted : Counted s

theorem Lives.publishers_fresh (h : Lives s) (hnum : Numbered s) :
    s.publishers s.counters.topicIdx = ∅ := by
  apply Finset.eq_empty_of_forall_notMem
  intro e he
  obtain ⟨topic, ht, -⟩ := h.of_mem he
  have hlt := hnum.topics_lt _ ((KeyMap.mem_iff_lookup _ _).mpr ⟨topic, ht⟩)
  exact (Nat.lt_irrefl _ hlt).elim

theorem Lives.ne_fresh (h : Lives s) (hnum : Numbered s) {f : ClientIdx × PubUID}
    (hf : f ∈ s.publishers t) : t ≠ s.counters.topicIdx := by
  intro heq
  rw [heq, h.publishers_fresh hnum] at hf
  cases hf

/-- Without removals and registrations, what has a registration stays. -/
theorem Lives.step (h : Lives s) (hnum : Numbered s) (he : Effect s e s')
    (hreg : ∀ c pubuid name, e ≠ some (.registered c pubuid name))
    (hgone : ∀ t how, e ≠ some (.gone t how)) : Lives s' := by
  apply lives_of_publishers
  intro t f hf
  have hf := publishers_subset he hreg t hf
  obtain ⟨topic, ht, hmap⟩ := h.of_mem hf
  cases he with
  | topicAdded topic' hfresh =>
    refine ⟨topic, lookup_topics_withTopic.mpr (.inr ⟨h.ne_fresh hnum hf, ht⟩),
      lookup_topicMap_withTopic.mpr (.inr ⟨fun hname => ?_, hmap⟩)⟩
    rw [hname, hfresh] at hmap
    cases hmap
  | topicRemoved | topicLost | topicHalfLost => exact (hgone _ _ rfl).elim
  | propertiesSet properties hu =>
    rw [KeyMap.lookup_insert]
    split_ifs with htu
    · subst htu
      rw [hu] at ht
      cases ht
      exact ⟨_, rfl, hmap⟩
    · exact ⟨topic, ht, hmap⟩
  | _ => exact ⟨topic, ht, hmap⟩

/-- Effects that remove no topic, lower no count and add no registration. -/
theorem Held.step (h : Held s) (he : Effect s e s') (hroom : Room (· = .topic) s e.toList)
    (hreg : ∀ c pubuid name, e ≠ some (.registered c pubuid name))
    (hgone : ∀ t how, e ≠ some (.gone t how)) (hcount : e ≠ some .count) : Held s' := by
  refine ⟨h.numbered.step he hroom, h.lives.step h.numbered he hreg hgone, ?_⟩
  intro t hne
  have hsub := publishers_subset he hreg t
  obtain ⟨f, hf⟩ := hne.mono hsub
  have hfresh := h.lives.ne_fresh h.numbered hf
  obtain ⟨n, hn, hle⟩ := h.counted t ⟨f, hf⟩
  have hcard := (Finset.card_le_card hsub).trans hle
  cases he with
  | topicAdded => exact ⟨n, by simpa [InnerServer.withTopic, hfresh] using hn, hcard⟩
  | countLowered | countErased => exact (hcount rfl).elim
  | _ => exact ⟨n, hn, hcard⟩

/-- The count of the topic under this name has room for a registration. -/
def HasRoomFor (c : ClientIdx) (pubuid : PubUID) (name : String) (s : InnerServer) : Prop :=
  ∀ t, s.topicMap.lookup name = some t → t ∈ s.topics →
    ∃ n, s.pubCount.lookup t = some n ∧ ((s.publishers t).erase (c, pubuid)).card < n.toNat

section Publish

variable {pubuid : PubUID} {name : String}

theorem erase_publishers_registered {client : ConnectedClient} {r : TopicIdx}
    (hc : s.clients.lookup c = some client)
    (hs : s'.clients = s.clients.insert c
      { client with pubuidToTopicidx := client.pubuidToTopicidx.insert pubuid t }) :
    (s'.publishers r).erase (c, pubuid) ⊆ (s.publishers r).erase (c, pubuid) := by
  intro f hf
  obtain ⟨hne, hf⟩ := Finset.mem_erase.mp hf
  rcases mem_publishers_registered hc hs hf with ⟨heq, -⟩ | ⟨-, hf⟩
  · exact (hne heq).elim
  · exact Finset.mem_erase.mpr ⟨hne, hf⟩

/-- A new topic has room for one registration, and nothing but a second name takes it away. -/
theorem HasRoomFor.step (h : HasRoomFor c pubuid name s) (hheld : Held s) (he : Effect s e s')
    (hreg : ∀ c' p n, e = some (.registered c' p n) → c' = c ∧ p = pubuid)
    (hgone : ∀ t how, e ≠ some (.gone t how)) (hcount : e ≠ some .count) :
    HasRoomFor c pubuid name s' := by
  intro t hmap ht
  have hquiet : (∀ c p n, e ≠ some (.registered c p n)) → ∀ n : UInt16,
      ((s.publishers t).erase (c, pubuid)).card < n.toNat →
      ((s'.publishers t).erase (c, pubuid)).card < n.toNat := by
    intro hno n hlt
    have hsub := Finset.erase_subset_erase (c, pubuid) (publishers_subset he hno t)
    exact (Finset.card_le_card hsub).trans_lt hlt
  cases he with
  | topicAdded topic hfresh =>
    have hno : ∀ c p n, some (Event.topic topic.name) ≠ some (.registered c p n) := by simp
    rcases lookup_topicMap_withTopic.mp hmap with ⟨hname, hidx⟩ | ⟨hname, hmap⟩
    · subst hidx
      have hempty := publishers_subset (.topicAdded topic hfresh) hno s.counters.topicIdx
      rw [hheld.lives.publishers_fresh hheld.numbered, Finset.subset_empty] at hempty
      refine ⟨if topic.hasImplicitPublisher then 2 else 1, by simp [InnerServer.withTopic], ?_⟩
      rw [hempty, Finset.erase_empty, Finset.card_empty]
      split_ifs <;> decide
    · have hlt := hheld.numbered.map_lt name t hmap
      have hne : t ≠ s.counters.topicIdx := by
        intro heq
        rw [heq] at hlt
        omega
      have hold : t ∈ s.topics := ((AList.mem_insert _).mp ht).resolve_left hne
      obtain ⟨n, hn, hcard⟩ := h t hmap hold
      exact ⟨n, by simpa [InnerServer.withTopic, hne] using hn, hquiet hno n hcard⟩
  | topicRemoved | topicLost | topicHalfLost => exact (hgone _ _ rfl).elim
  | countLowered | countErased => exact (hcount rfl).elim
  | registered pubuid' hc ht' hmap' =>
    obtain ⟨hcc, hpp⟩ := hreg _ _ _ rfl
    subst hcc hpp
    obtain ⟨n, hn, hcard⟩ := h t hmap ht
    refine ⟨n, hn, (Finset.card_le_card ?_).trans_lt hcard⟩
    exact erase_publishers_registered hc rfl
  | propertiesSet properties hu =>
    have hold : t ∈ s.topics := by
      rcases (AList.mem_insert _).mp ht with heq | hold
      · rw [heq]
        exact (KeyMap.mem_iff_lookup _ _).mpr ⟨_, hu⟩
      · exact hold
    obtain ⟨n, hn, hcard⟩ := h t hmap hold
    exact ⟨n, hn, hquiet (by simp) n hcard⟩
  | _ =>
    obtain ⟨n, hn, hcard⟩ := h t hmap ht
    exact ⟨n, hn, hquiet (by simp) n hcard⟩

/-- What a registration is made of. -/
theorem registered_cases (he : Effect s (some (.registered c pubuid name)) s') :
    ∃ client t topic, s.clients.lookup c = some client ∧ s.topics.lookup t = some topic ∧
      s.topicMap.lookup name = some t ∧
      s' = { s with
        clients := s.clients.insert c
          { client with pubuidToTopicidx := client.pubuidToTopicidx.insert pubuid t } } := by
  cases he with
  | registered _ hc ht hmap => exact ⟨_, _, _, hc, ht, hmap, rfl⟩

theorem Held.registered (h : Held s) (hroom : HasRoomFor c pubuid name s)
    (he : Effect s (some (.registered c pubuid name)) s') : Held s' := by
  have hnum : Numbered s' := h.numbered.step he fun k hk => by
    subst hk
    exact UInt32.toNat_lt _
  obtain ⟨client, t, topic, hc, ht, hmap, hs'⟩ := registered_cases he
  have hclients := congrArg InnerServer.clients hs'
  have htopics : s'.topics = s.topics := by rw [hs']
  have htopicMap : s'.topicMap = s.topicMap := by rw [hs']
  have hpubCount : s'.pubCount = s.pubCount := by rw [hs']
  refine ⟨hnum, lives_of_publishers fun r f hf => ?_, fun r hne => ?_⟩
  · rw [htopics, htopicMap]
    rcases mem_publishers_registered hc hclients hf with ⟨-, hr⟩ | ⟨-, hf⟩
    · subst hr
      have hname := h.numbered.name_eq name r topic hmap ht
      exact ⟨topic, ht, hname ▸ hmap⟩
    · exact h.lives.of_mem hf
  · rw [hpubCount]
    by_cases hr : r = t
    · subst hr
      obtain ⟨n, hn, hlt⟩ := hroom r hmap ((KeyMap.mem_iff_lookup _ _).mpr ⟨topic, ht⟩)
      have hsub : (s'.publishers r).erase (c, pubuid) ⊆ (s.publishers r).erase (c, pubuid) :=
        erase_publishers_registered hc hclients
      have hcard := Finset.card_le_card hsub
      have hpred : (s'.publishers r).card - 1 ≤ ((s'.publishers r).erase (c, pubuid)).card :=
        Finset.pred_card_le_card_erase
      exact ⟨n, hn, by omega⟩
    · have hsub : s'.publishers r ⊆ s.publishers r := by
        intro f hf
        rcases mem_publishers_registered hc hclients hf with ⟨-, heq⟩ | ⟨-, hf⟩
        · exact (hr heq).elim
        · exact hf
      obtain ⟨n, hn, hle⟩ := h.counted r (hne.mono hsub)
      exact ⟨n, hn, (Finset.card_le_card hsub).trans hle⟩

/-- A publication registers the topic it is for. -/
theorem registered_of_mayDo {pubTopic : PublishTopic} {c c' : ClientIdx} {p : PubUID} {n : String}
    (h : (Op.innerPublishTopic pubTopic c).MayDo s (.registered c' p n)) :
    c' = c ∧ p = pubTopic.pubuid ∧ n = pubTopic.name := by
  obtain ⟨pubTopic', hop, hpub, hname⟩ := h
  cases hop
  exact ⟨rfl, hpub.symm, hname.symm⟩

/-- A publication, effect by effect. -/
theorem held_innerPublishTopic {pubTopic : PublishTopic} {es : List Event} (hes : Effects s es s')
    (hall : ∀ a ∈ es, (Op.innerPublishTopic pubTopic c).MayDo s a) (hroom : Room (· = .topic) s es)
    (hg : HasRoomFor c pubTopic.pubuid pubTopic.name s) (hs : Held s) : Held s' := by
  have hrun := hes.invariant_of_room
    (fun u => Held u ∧ HasRoomFor c pubTopic.pubuid pubTopic.name u) _ hall hroom ?_ ⟨hs, hg⟩
  · exact hrun.1
  intro u e u' he hp hroom hu
  obtain ⟨hheld, hpend⟩ := hu
  have hgone : ∀ t how, e ≠ some (.gone t how) := fun t how h => hp _ h
  have hcount : e ≠ some .count := fun h => hp _ h
  have hreg : ∀ c' p n, e = some (.registered c' p n) →
      c' = c ∧ p = pubTopic.pubuid ∧ n = pubTopic.name :=
    fun c' p n h => registered_of_mayDo (hp _ h)
  refine ⟨?_, hpend.step hheld he (fun c' p n h => ⟨(hreg c' p n h).1, (hreg c' p n h).2.1⟩)
    hgone hcount⟩
  by_cases hr : ∃ c' p n, e = some (.registered c' p n)
  · obtain ⟨c', p, n, h⟩ := hr
    obtain ⟨hc', hp', hn'⟩ := hreg c' p n h
    subst h hc' hp' hn'
    exact hheld.registered hpend he
  · push Not at hr
    exact hheld.step he hroom hr hgone hcount

end Publish

section Withdraw

variable {removes : TopicIdx → Prop}

/-- Neither the topic nor its metatopics have a registration. -/
def Free (s : InnerServer) (t : TopicIdx) : Prop :=
  ∀ topic, s.topics.lookup t = some topic → ∀ n, n = topic.name ∨ n = metaPubName topic.name ∨
    n = metaSubName topic.name → ∀ r, s.topicMap.lookup n = some r → s.publishers r = ∅

/-- The removal of a topic that is free takes nothing that is registered. -/
theorem Lives.gone (h : Lives s) {how : Removal} (he : Effect s (some (.gone t how)) s')
    (hfree : Free s t) : Lives s' := by
  apply lives_of_publishers
  intro r f hf
  have hf := publishers_subset he nofun r hf
  obtain ⟨topic', hr, hmap⟩ := h.of_mem hf
  have hnot : ∀ topic, s.topics.lookup t = some topic → ∀ n, n = topic.name ∨
      n = metaPubName topic.name ∨ n = metaSubName topic.name → s.topicMap.lookup n ≠ some r := by
    intro topic ht n hn hlook
    rw [hfree topic ht n hn r hlook] at hf
    cases hf
  have hself : r ≠ t := by
    intro heq
    subst heq
    exact hnot topic' hr _ (.inl rfl) hmap
  have hname : ∀ topic, s.topics.lookup t = some topic → ∀ n, n = topic.name ∨
      n = metaPubName topic.name ∨ n = metaSubName topic.name → topic'.name ≠ n := by
    intro topic ht n hn heq
    exact hnot topic ht n hn (heq ▸ hmap)
  refine ⟨topic', ?_⟩
  cases he with
  | topicRemoved ht hp hq =>
    have hpr : r ≠ _ := fun heq => hnot _ ht _ (.inr (.inl rfl)) (heq ▸ hp)
    have hqr : r ≠ _ := fun heq => hnot _ ht _ (.inr (.inr rfl)) (heq ▸ hq)
    exact ⟨lookup_topics_withoutTopic.mpr ⟨hself, hpr, hqr, hr⟩,
      lookup_topicMap_withoutTopic.mpr ⟨hname _ ht _ (.inl rfl), hname _ ht _ (.inr (.inl rfl)),
        hname _ ht _ (.inr (.inr rfl)), hmap⟩⟩
  | topicLost ht hp => exact ⟨by simpa [hself] using hr, hmap⟩
  | topicHalfLost ht hp hq =>
    exact ⟨by simpa [hself] using hr, by simpa [hname _ ht _ (.inr (.inl rfl))] using hmap⟩

/-- Removals and lowered counts make nothing less free. -/
theorem Free.step (h : Free s t) (he : Effect s e s') (hadd : ∀ name, e ≠ some (.topic name))
    (hreg : ∀ c p n, e ≠ some (.registered c p n)) : Free s' t := by
  intro topic' ht n hn r hr
  have hsub := publishers_subset he hreg r
  have hempty : s.publishers r = ∅ → s'.publishers r = ∅ := by
    intro h
    rw [h, Finset.subset_empty] at hsub
    exact hsub
  apply hempty
  cases he with
  | topicAdded => exact (hadd _ rfl).elim
  | topicRemoved =>
    exact h topic' (lookup_topics_withoutTopic.mp ht).2.2.2 n hn r
      (lookup_topicMap_withoutTopic.mp hr).2.2.2
  | topicLost =>
    rw [KeyMap.lookup_erase] at ht
    split_ifs at ht
    exact h topic' ht n hn r hr
  | topicHalfLost =>
    rw [KeyMap.lookup_erase] at ht hr
    split_ifs at ht
    split_ifs at hr
    exact h topic' ht n hn r hr
  | propertiesSet properties hu =>
    obtain ⟨topic₀, ht₀, hname⟩ := lookup_insert_properties hu ht
    exact h topic₀ ht₀ n (hname ▸ hn) r hr
  | _ => exact h topic' ht n hn r hr

/-- Removals of free topics, among whatever lowers counts. -/
theorem lives_of_removals (hs : Numbered s ∧ Lives s) (hfree : ∀ t, removes t → Free s t)
    (hdoes : Does (fun a => a = .count ∨ ∃ t how, a = .gone t how ∧ removes t) 0 s s') :
    (Numbered s' ∧ Lives s') ∧ ∀ t, s'.publishers t ⊆ s.publishers t := by
  obtain ⟨es, hes, hall, hn⟩ := hdoes
  have hroom : Room (· = .topic) s es := by
    intro k _
    have hk := hn k
    have hlt := UInt32.toNat_lt (s.counters.get k)
    omega
  have hrun := hes.invariant_of_room
    (fun u => ((Numbered u ∧ Lives u) ∧ ∀ t, u.publishers t ⊆ s.publishers t) ∧
      ∀ t, removes t → Free u t) _ hall hroom ?_ ⟨⟨hs, fun t => Finset.Subset.refl _⟩, hfree⟩
  · exact hrun.1
  intro u e u' he hp hroom hu
  obtain ⟨⟨⟨hnum, hlives⟩, hsub⟩, hfree⟩ := hu
  have hreg : ∀ c p n, e ≠ some (.registered c p n) := by
    intro c p n h
    rcases hp _ h with h | ⟨t, how, h, -⟩ <;> cases h
  have hadd : ∀ name, e ≠ some (.topic name) := by
    intro name h
    rcases hp _ h with h | ⟨t, how, h, -⟩ <;> cases h
  have hsub' := publishers_subset he hreg
  refine ⟨⟨⟨hnum.step he hroom, ?_⟩, fun t => (hsub' t).trans (hsub t)⟩, fun t ht =>
    (hfree t ht).step he hadd hreg⟩
  by_cases hgone : ∃ t how, e = some (.gone t how)
  · obtain ⟨t, how, h⟩ := hgone
    subst h
    rcases hp _ rfl with h | ⟨t', how', h, ht⟩
    · cases h
    · cases h
      exact hlives.gone he (hfree t ht)
  · push Not at hgone
    exact hlives.step hnum he hreg hgone

/-- The registrations that an operation takes back. -/
def Op.Own (s : InnerServer) : Op → ClientIdx × PubUID → Prop
  | .innerUnpublishTopic pubTopic c, f => f = (c, pubTopic.pubuid)
  | .disconnectClient ident, f => s.clientMap.lookup ident = some f.1
  | _, _ => False

/-- The topic under this name has no registration but those that the operation takes back. -/
def OnlyOwn (s : InnerServer) (op : Op) (n : String) : Prop :=
  ∀ r, s.topicMap.lookup n = some r → ∀ f ∈ s.publishers r, op.Own s f

/-- The operation registers a topic that is there only where its count has room for that, and
removes no metatopic that somebody else has registered. -/
structure KeepsPublished (s : InnerServer) (op : Op) : Prop where
  published : ∀ pubTopic c, op = .innerPublishTopic pubTopic c →
    HasRoomFor c pubTopic.pubuid pubTopic.name s
  metatopics : ∀ t topic, op.Removes s t → s.topics.lookup t = some topic →
    OnlyOwn s op (metaPubName topic.name) ∧ OnlyOwn s op (metaSubName topic.name)
  ownMetatopics : ∀ ident c own t topic, op = .disconnectClient ident →
    s.clientMap.lookup ident = some c → s.clientMetatopicMap.lookup c = some own →
    (t = own.1 ∨ t = own.2) → s.topics.lookup t = some topic → OnlyOwn s op topic.name

section Disconnect

variable {ident : ClientIdentity} {client : ConnectedClient}

theorem mem_publishers_withoutClient {f : ClientIdx × PubUID} :
    f ∈ (s.withoutClient ident c client).publishers t ↔ f.1 ≠ c ∧ f ∈ s.publishers t := by
  obtain ⟨c', pubuid⟩ := f
  rw [mem_publishers, mem_publishers]
  simp only [InnerServer.withoutClient, KeyMap.lookup_erase]
  split_ifs with h <;> simp [h]

theorem card_publishers_withoutClient (hc : s.clients.lookup c = some client) :
    ((s.withoutClient ident c client).publishers t).card + client.registrations t =
      (s.publishers t).card := by
  have hset : (s.withoutClient ident c client).publishers t =
      (s.publishers t).filter fun f => ¬f.1 = c := by
    ext f
    rw [mem_publishers_withoutClient, Finset.mem_filter, and_comm]
  rw [hset, ← card_publishers_of_client hc, Nat.add_comm,
    Finset.card_filter_add_card_filter_not]

/-- Once the client is gone, what it leaves behind is free. -/
theorem free_of_leaves (h : Held s) (hg : KeepsPublished s (.disconnectClient ident))
    (hident : s.clientMap.lookup ident = some c) (hc : s.clients.lookup c = some client)
    (ht : s.Leaves ident t) : Free (s.withoutClient ident c client) t := by
  have hown : ∀ n, OnlyOwn s (.disconnectClient ident) n → ∀ r, s.topicMap.lookup n = some r →
      (s.withoutClient ident c client).publishers r = ∅ := by
    intro n honly r hr
    apply Finset.eq_empty_of_forall_notMem
    intro f hf
    obtain ⟨hne, hf⟩ := mem_publishers_withoutClient.mp hf
    have hsame : s.clientMap.lookup ident = some f.1 := honly r hr f hf
    rw [hident] at hsame
    exact hne (Option.some.inj hsame).symm
  intro topic htopic n hn r hr
  obtain ⟨hpub, hsub⟩ := hg.metatopics t topic ht htopic
  rcases hn with hn | hn | hn
  · subst hn
    obtain ⟨c', hident', hleaves⟩ := ht
    rw [hident] at hident'
    cases hident'
    rcases hleaves with ⟨client', n, hc', hcount, hpos, hle⟩ | ⟨own, hmetas, heq⟩
    · rw [hc] at hc'
      cases hc'
      have hcard : ((s.withoutClient ident c client).publishers t).card +
          client.registrations t = (s.publishers t).card := card_publishers_withoutClient hc
      have hne : (s.publishers t).Nonempty := by
        apply Finset.card_pos.mp
        omega
      obtain ⟨f, hf⟩ := hne
      obtain ⟨topic', htopic', hmap⟩ := h.lives.of_mem hf
      obtain ⟨n', hn', hle'⟩ := h.counted t ⟨f, hf⟩
      rw [show s.topics.lookup t = some topic from htopic] at htopic'
      cases htopic'
      rw [hcount] at hn'
      cases hn'
      have hrt : r = t := by
        rw [show s.topicMap.lookup topic.name = some r from hr] at hmap
        exact Option.some.inj hmap
      subst hrt
      apply Finset.card_eq_zero.mp
      omega
    · exact hown _ (hg.ownMetatopics ident c own t topic rfl hident hmetas heq htopic) r hr
  · exact hown _ (hn ▸ hpub) r hr
  · exact hown _ (hn ▸ hsub) r hr

/-- The counts that the loop of `disconnect_client` leaves still cover the other registrations. -/
theorem counted_of_sinking {l : List (PubUID × TopicIdx)} (h : Counted s)
    (hc : s.clients.lookup c = some client) (hsink : Sinking client s l s')
    (hsub : ∀ t, s'.publishers t ⊆ (s.withoutClient ident c client).publishers t) :
    Counted s' := by
  intro t hne
  obtain ⟨f, hf⟩ := hne.mono (hsub t)
  have hf' := (mem_publishers_withoutClient.mp hf).2
  obtain ⟨n, hn, hle⟩ := h t ⟨f, hf'⟩
  have hmem := hsink.kept t ((KeyMap.mem_iff_lookup _ _).mpr ⟨n, hn⟩)
  obtain ⟨n', hn'⟩ := (KeyMap.mem_iff_lookup _ _).mp hmem
  obtain ⟨n₀, hn₀, hsunk⟩ := hsink.sunk t n' hn'
  rw [hn] at hn₀
  cases hn₀
  have hcard : ((s.withoutClient ident c client).publishers t).card + client.registrations t =
      (s.publishers t).card := card_publishers_withoutClient hc
  have hle' := Finset.card_le_card (hsub t)
  exact ⟨n', hn', by omega⟩

theorem held_disconnectClient (h : Held s) (hg : KeepsPublished s (.disconnectClient ident)) :
    Ends (disconnectClient o ident) s fun _ s' => Held s' := by
  have hroom : Room (· = .topic) s [] := fun k _ => UInt32.toNat_lt _
  cases hident : s.clientMap.lookup ident with
  | none => simpa [disconnectClient, hident] using h
  | some c =>
    cases hc : s.clients.lookup c with
    | none =>
      have hstep := h.step (.identityErased hident hc) hroom (by simp) (by simp) (by simp)
      simpa [disconnectClient, hident, hc] using hstep
    | some client =>
      have hleft : Held (s.withoutClient ident c client) :=
        h.step (.clientLeft hident hc) hroom (by simp) (by simp) (by simp)
      have hrest : Ends (disconnectClient o ident) s fun _ s' =>
          Does (fun a => a = .count ∨ ∃ t how, a = .gone t how ∧ s.Leaves ident t) 0
            (s.withoutClient ident c client) s' ∧ ∃ l, Sinking client s l s' :=
        does_disconnectClient_left hident hc (.inl rfl) fun t how ht => .inr ⟨t, how, rfl, ht⟩
      refine ends_mono hrest ?_
      intro r s' hs
      obtain ⟨hdoes, l, hsink⟩ := hs
      obtain ⟨⟨hnum, hlives⟩, hsub⟩ := lives_of_removals ⟨hleft.numbered, hleft.lives⟩
        (fun t ht => free_of_leaves h hg hident hc ht) hdoes
      exact ⟨hnum, hlives, counted_of_sinking h.counted hc hsink hsub⟩

end Disconnect

section Unpublish

variable {pubTopic : UnpublishTopic} {client : ConnectedClient}

/-- The server once the registration is taken back and the count lowered. -/
def InnerServer.unregistered (s : InnerServer) (c : ClientIdx) (client : ConnectedClient)
    (pubuid : PubUID) (t : TopicIdx) (count : UInt16) : InnerServer :=
  { s with
    clients := s.clients.insert c
      { client with pubuidToTopicidx := client.pubuidToTopicidx.removeByLeft pubuid }
    pubCount := s.pubCount.insert t (count - 1) }

theorem mem_publishers_unregistered {r : TopicIdx} {pubuid : PubUID} {count : UInt16}
    {f : ClientIdx × PubUID} (hc : s.clients.lookup c = some client) :
    f ∈ (s.unregistered c client pubuid t count).publishers r ↔
      f ≠ (c, pubuid) ∧ f ∈ s.publishers r := by
  obtain ⟨c', pubuid'⟩ := f
  rw [mem_publishers, mem_publishers]
  simp only [InnerServer.unregistered, KeyMap.lookup_insert]
  by_cases hcc : c' = c
  · subst hcc
    simp [hc]
  · simp [hcc]

theorem held_unregistered (h : Held s) {pubuid : PubUID} {count : UInt16}
    (hc : s.clients.lookup c = some client)
    (hp : client.pubuidToTopicidx.getByLeft pubuid = some t)
    (hn : s.pubCount.lookup t = some count) :
    Held (s.unregistered c client pubuid t count) ∧
      (count - 1 = 0 → (s.unregistered c client pubuid t count).publishers t = ∅) := by
  have hsub : ∀ r, (s.unregistered c client pubuid t count).publishers r ⊆ s.publishers r :=
    fun r f hf => ((mem_publishers_unregistered hc).mp hf).2
  have hmem : (c, pubuid) ∈ s.publishers t := mem_publishers.mpr ⟨client, hc, hp⟩
  have herase : (s.unregistered c client pubuid t count).publishers t ⊆
      (s.publishers t).erase (c, pubuid) := by
    intro f hf
    exact Finset.mem_erase.mpr ((mem_publishers_unregistered hc).mp hf)
  have hcard := Finset.card_le_card herase
  have hone := Finset.card_erase_add_one hmem
  obtain ⟨n, hn', hle⟩ := h.counted t ⟨_, hmem⟩
  rw [hn] at hn'
  cases hn'
  have hpos : count ≠ 0 := by
    intro hzero
    subst hzero
    have hnat : (0 : UInt16).toNat = 0 := rfl
    omega
  have hpred := uint16_toNat_pred hpos
  refine ⟨⟨?_, ?_, ?_⟩, fun hzero => ?_⟩
  · exact h.numbered.of_same (fun _ => rfl) rfl (fun _ h => h) rfl
  · apply lives_of_publishers
    intro r f hf
    exact h.lives.of_mem (hsub r hf)
  · intro r hne
    by_cases hr : r = t
    · subst hr
      exact ⟨count - 1, by simp [InnerServer.unregistered], by omega⟩
    · obtain ⟨n, hn', hle'⟩ := h.counted r (hne.mono (hsub r))
      exact ⟨n, by simpa [InnerServer.unregistered, hr] using hn',
        (Finset.card_le_card (hsub r)).trans hle'⟩
  · have hnat : (count - 1).toNat = 0 := by rw [hzero]; rfl
    apply Finset.card_eq_zero.mp
    omega

theorem Held.quiet (h : Held s) (hq : Quiet s s') : Held s' := by
  apply hq.invariant Held _ h
  intro u u' he hu
  exact hu.step he (fun k _ => UInt32.toNat_lt _) nofun nofun nofun

/-- The topic of the last registration is free. -/
theorem free_unregistered (h : Held s) (hg : KeepsPublished s (.innerUnpublishTopic pubTopic c))
    (hc : s.clients.lookup c = some client)
    (hp : client.pubuidToTopicidx.getByLeft pubTopic.pubuid = some t)
    (hn : s.pubCount.lookup t = some 1) :
    Free (s.unregistered c client pubTopic.pubuid t 1) t := by
  intro topic htopic n hname r hr
  have hown : ∀ n, OnlyOwn s (.innerUnpublishTopic pubTopic c) n → s.topicMap.lookup n = some r →
      (s.unregistered c client pubTopic.pubuid t 1).publishers r = ∅ := by
    intro n honly hr
    apply Finset.eq_empty_of_forall_notMem
    intro f hf
    obtain ⟨hne, hf⟩ := (mem_publishers_unregistered hc).mp hf
    exact hne (honly r hr f hf)
  obtain ⟨hpub, hsub⟩ := hg.metatopics t topic ⟨client, hc, hp, hn⟩ htopic
  rcases hname with hname | hname | hname
  · obtain ⟨topic', ht', hmap⟩ := h.lives c client _ t hc hp
    rw [show s.topics.lookup t = some topic from htopic] at ht'
    cases ht'
    subst hname
    rw [show s.topicMap.lookup topic.name = some r from hr] at hmap
    cases hmap
    exact (held_unregistered h hc hp hn).2 rfl
  · exact hown n (hname ▸ hpub) hr
  · exact hown n (hname ▸ hsub) hr

theorem held_removeTopic (h : Held s) (hfree : Free s t) :
    Ends (removeTopic t) s fun r s' =>
      Held s' ∧ s'.publishers t ⊆ s.publishers t ∧ (r = .ok () → s'.topics.lookup t = none) := by
  have hdoes : Ends (removeTopic t) s fun r s' =>
      Does (fun a => a = .count ∨ ∃ u how, a = .gone u how ∧ u = t) 0 s s' ∧
        (r = .ok () → s'.topics.lookup t = none) :=
    does_removeTopic fun how => .inr ⟨t, how, rfl, rfl⟩
  refine ends_mono (ends_and hdoes ends_removeTopic_frame) ?_
  intro r s' hs
  obtain ⟨⟨hdoes, hok⟩, hcount, -⟩ := hs
  have hfree : ∀ u, u = t → Free s u := fun u hu => hu ▸ hfree
  obtain ⟨⟨hnum, hlives⟩, hsub⟩ := lives_of_removals ⟨h.numbered, h.lives⟩ hfree hdoes
  refine ⟨⟨hnum, hlives, fun u hne => ?_⟩, hsub t, hok⟩
  obtain ⟨n, hn, hle⟩ := h.counted u (hne.mono (hsub u))
  exact ⟨n, hcount ▸ hn, (Finset.card_le_card (hsub u)).trans hle⟩

theorem Held.countErased (h : Held s) (ht : s.publishers t = ∅) :
    Held { s with pubCount := s.pubCount.erase t } := by
  refine ⟨h.numbered.of_same (fun _ => rfl) rfl (fun _ h => h) rfl, h.lives, fun u hne => ?_⟩
  have hne' : (s.publishers u).Nonempty := hne
  have hut : u ≠ t := by
    intro heq
    subst heq
    rw [ht] at hne'
    exact Finset.not_nonempty_empty hne'
  obtain ⟨n, hn, hle⟩ := h.counted u hne'
  exact ⟨n, by simpa [hut] using hn, hle⟩

theorem held_innerUnpublishTopic (h : Held s)
    (hg : KeepsPublished s (.innerUnpublishTopic pubTopic c)) :
    Ends (innerUnpublishTopic pubTopic c) s fun _ s' => Held s' := by
  simp only [innerUnpublishTopic, ends_bind, ends_get, thenEnds_ok, ends_okOr, thenEnds_error,
    putClient, ends_modify]
  refine ⟨fun client hc => ⟨fun t hp => ⟨fun count hn => ?_, fun _ => ?_⟩, fun _ => h⟩, fun _ => h⟩
  · obtain ⟨hheld, hempty⟩ := held_unregistered h hc hp hn
    have hstate : { s with
        clients := s.clients.insert c
          { client with
            pubuidToTopicidx := client.pubuidToTopicidx.removeByLeft pubTopic.pubuid }
        pubCount := s.pubCount.insert t (count - 1) } =
        s.unregistered c client pubTopic.pubuid t count := rfl
    rw [hstate]
    split_ifs with hzero
    · have hone : count = 1 := uint16_pred_eq_zero hzero
      subst hone
      have hfree := free_unregistered h hg hc hp hn
      refine (ends_bind _ _).mpr (ends_mono (held_removeTopic hheld hfree) ?_)
      intro r s₁ hs₁
      obtain ⟨hheld₁, hsub, -⟩ := hs₁
      cases r with
      | error e => exact hheld₁
      | ok =>
        have hnone : s₁.publishers t = ∅ := by
          rw [hempty hzero, Finset.subset_empty] at hsub
          exact hsub
        exact ends_mono quiet_updatePublishers fun _ _ hq => (hheld₁.countErased hnone).quiet hq
    · exact ends_mono quiet_updatePublishers fun _ _ hq => hheld.quiet hq
  · exact h.step (.unregistered pubTopic.pubuid hc) (fun k _ => UInt32.toNat_lt _) (by simp)
      (by simp) (by simp)

end Unpublish

end Withdraw

theorem publishers_booted (t : TopicIdx) : booted.publishers t = ∅ := by
  apply Finset.eq_empty_of_forall_notMem
  intro f hf
  obtain ⟨client, hc, hp⟩ := mem_publishers.mp hf
  simp only [booted, KeyMap.lookup_insert] at hc
  split_ifs at hc
  · cases hc
    cases hp
  · cases hc

theorem held_of_booted {es : List Event} (hes : Effects booted es s) (hall : ∀ a ∈ es, IsTopic a)
    (hroom : Room (· = .topic) booted es) : Held s := by
  apply hes.invariant_of_room Held IsTopic hall hroom
  · intro u e u' he hp hroom hu
    have hno : ∀ a, e = some a → ∃ name, a = .topic name := fun a h => hp a h
    refine hu.step he hroom ?_ ?_ ?_
    · intro c p n h
      obtain ⟨name, ha⟩ := hno _ h
      cases ha
    · intro t how h
      obtain ⟨name, ha⟩ := hno _ h
      cases ha
    · intro h
      obtain ⟨name, ha⟩ := hno _ h
      cases ha
  · refine ⟨Numbered.booted, lives_of_publishers fun t f hf => ?_, fun t hne => ?_⟩
    · rw [publishers_booted] at hf
      cases hf
    · rw [publishers_booted] at hne
      exact (Finset.not_nonempty_empty hne).elim

/-- One operation that meets the guard. -/
theorem held_of_step {es : List Event} (hes : Effects s es s') (hall : ∀ a ∈ es, op.MayDo s a)
    (hroom : Room (· = .topic) s es) (hg : KeepsPublished s op) (hstep : Step s op s')
    (hs : Held s) : Held s' := by
  obtain ⟨o, r, hx⟩ := hstep
  cases op with
  | innerPublishTopic pubTopic c =>
    exact held_innerPublishTopic hes hall hroom (hg.published pubTopic c rfl) hs
  | innerUnpublishTopic pubTopic c => exact ends_of_exec (held_innerUnpublishTopic hs hg) hx
  | disconnectClient ident => exact ends_of_exec (held_disconnectClient hs hg) hx
  | _ =>
    refine hes.invariant_of_room Held _ hall hroom (fun u e u' he hp hroom hu => ?_) hs
    refine hu.step he hroom (fun c p n h => ?_) (fun t how h => hp _ h) fun h => hp _ h
    obtain ⟨pubTopic, hop, -⟩ := hp _ h
    cases hop

/-- A registered topic stays, along every run that creates fewer than 2^32 topics, in which nobody
joins the publishers of a topic beyond its count, and no removal takes a metatopic that somebody
has registered. -/
theorem lives_of_keepsPublished {u : Kind → Nat} (run : RunWhere KeepsPublished u s)
    (hu : u .topic < 2 ^ 32) : Lives s := by
  have hheld := run.induct (· = .topic) Held (fun k hk => hk ▸ hu)
    (fun es s hes hall hroom => held_of_booted hes hall hroom)
    (fun s op es s' hes hall hroom hg hstep hs => held_of_step hes hall hroom hg hstep hs)
  exact hheld.lives

/-- A connection, or the publication of a name that is new. -/
def isFirstPublication (s : InnerServer) : Op → Bool
  | .connectClient _ => true
  | .innerPublishTopic pubTopic _ => (s.topicMap.lookup pubTopic.name).isNone
  | _ => false

theorem keepsPublished_of_isFirstPublication (s : InnerServer) (op : Op)
    (h : isFirstPublication s op = true) : KeepsPublished s op := by
  cases op with
  | connectClient => exact ⟨nofun, fun _ _ h => h.elim, nofun⟩
  | innerPublishTopic pubTopic c =>
    refine ⟨fun pubTopic' c' hop t hmap => ?_, fun _ _ h => h.elim, nofun⟩
    cases hop
    simp [isFirstPublication, hmap] at h
  | _ => cases h

/-- A client publishes a topic. -/
def publishOnce : List Op :=
  [.connectClient ⟨.v4 10 0 0 2 5810, "a"⟩, .innerPublishTopic ⟨"x", 0, "int", none⟩ 1]

theorem lives_publishOnce :
    ∃ s, stateAfter isFirstPublication .stored publishOnce = some s ∧
      (s.clients.lookup 1).map (·.pubuidToTopicidx.getByLeft 0) = some (some 5) ∧ Lives s := by
  have hrun : (stateAfter isFirstPublication .stored publishOnce).map
      (fun s => (s.clients.lookup 1).map (·.pubuidToTopicidx.getByLeft 0)) =
        some (some (some 5)) := by decide +kernel
  obtain ⟨s, hs, hview⟩ := Option.map_eq_some_iff.mp hrun
  obtain ⟨u, run, hu⟩ := runWhere_stateAfter keepsPublished_of_isFirstPublication hs
  have hlt : u .topic < 2 ^ 32 := (hu .topic).trans_lt (by decide)
  exact ⟨s, hs, hview, lives_of_keepsPublished run hlt⟩

/-- Two clients publish the same topic, and the first one takes its publication back. -/
def publishTwice : List Op :=
  [.connectClient ⟨.v4 10 0 0 2 5810, "a"⟩, .connectClient ⟨.v4 10 0 0 3 5810, "b"⟩,
    .innerPublishTopic ⟨"x", 0, "int", none⟩ 1, .innerPublishTopic ⟨"x", 0, "int", none⟩ 2,
    .innerUnpublishTopic ⟨0⟩ 1]

/-- The second publication is not counted, and the topic goes with the first. -/
theorem topic_lost_to_second_publisher : ¬∀ s, Reachable s → Lives s := by
  intro h
  have hrun : (stateAfter anyOp .stored publishTwice).map (fun s =>
      ((s.clients.lookup 2).bind (·.pubuidToTopicidx.getByLeft 0), (s.topics.lookup 7).isSome)) =
        some (some 7, false) := by decide +kernel
  obtain ⟨s, hs, hview⟩ := Option.map_eq_some_iff.mp hrun
  simp only [Prod.mk.injEq, Option.bind_eq_some_iff] at hview
  obtain ⟨⟨client, hc, hp⟩, hgone⟩ := hview
  obtain ⟨topic, ht, -⟩ := h s (reachable_stateAfter hs) 2 client 0 7 hc hp
  rw [ht] at hgone
  cases hgone

end NetTables.Server
