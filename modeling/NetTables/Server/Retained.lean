import NetTables.Server.Lifetime
import Mathlib.Logic.Relation

namespace NetTables.Server

open Lib Lib.Fallible Spec

variable {s s' u u' : InnerServer} {e : Option Event} {es : List Event} {op : Op} {o : IterOrder}
  {c : ClientIdx} {t : TopicIdx} {topic : Topic}

/-- A normal topic whose properties say that it stays. -/
def InnerServer.Stays (s : InnerServer) (t : TopicIdx) (topic : Topic) : Prop :=
  s.topics.lookup t = some topic ∧ hasDollar topic.name = false ∧
    topic.hasImplicitPublisher = true

/-- Any sequence of unpublications and disconnections. -/
def Withdrawn : InnerServer → InnerServer → Prop :=
  Relation.ReflTransGen fun s s' => ∃ op : Op, op.Withdraws ∧ Step s op s'

/-- No withdrawals take away a topic that should stay. -/
def RetainedSurvive (s : InnerServer) : Prop :=
  ∀ t topic, s.Stays t topic → ∀ s', Withdrawn s s' → t ∈ s'.topics

/-- The count of this topic is above its registrations. -/
def InnerServer.SpareAt (s : InnerServer) (t : TopicIdx) : Prop :=
  ∃ n, s.pubCount.lookup t = some n ∧ (s.publishers t).card < n.toNat

/-- The count of every topic that should stay is above its registrations. -/
def Spare (s : InnerServer) : Prop :=
  ∀ t topic, s.topics.lookup t = some topic → topic.hasImplicitPublisher = true → s.SpareAt t

/-- What registrations and clients know of topics: indices that were given out, and, for a client's
own metatopics, a name with a `$`. -/
structure Anchored (s : InnerServer) : Prop where
  numbered : Numbered s
  below : ∀ t, (s.publishers t).Nonempty → t.toNat < s.counters.topicIdx.toNat
  own : ∀ c own t, s.clientMetatopicMap.lookup c = some own → (t = own.1 ∨ t = own.2) →
    t.toNat < s.counters.topicIdx.toNat ∧
      ∀ topic, s.topics.lookup t = some topic → hasDollar topic.name = true

/-- The counter of topics does not go back. -/
theorem idx_le_of_effect (he : Effect s e s') (hroom : Room (· = .topic) s e.toList) :
    s.counters.topicIdx.toNat ≤ s'.counters.topicIdx.toNat := by
  have hcount := (Effects.one he).counters_of_room hroom (k := .topic) rfl
  have hget : ∀ v : InnerServer, v.counters.get .topic = v.counters.topicIdx := fun _ => rfl
  rw [hget, hget] at hcount
  omega

theorem Anchored.below_step (h : Anchored s) (he : Effect s e s')
    (hroom : Room (· = .topic) s e.toList) (hne : (s'.publishers t).Nonempty) :
    t.toNat < s'.counters.topicIdx.toNat := by
  have hidx := idx_le_of_effect he hroom
  by_cases hreg : ∃ c p n, e = some (.registered c p n)
  · obtain ⟨c, p, n, heq⟩ := hreg
    subst heq
    obtain ⟨f, hf⟩ := hne
    obtain ⟨client, r, topic, hc, ht, hmap, hs'⟩ := registered_cases he
    rcases mem_publishers_registered hc (congrArg InnerServer.clients hs') hf with ⟨-, hr⟩ | ⟨-, hf⟩
    · have hlt := h.numbered.map_lt n r hmap
      rw [hr]
      omega
    · have hlt := h.below t ⟨f, hf⟩
      omega
  · push Not at hreg
    have hlt := h.below t (hne.mono (publishers_subset he hreg t))
    omega

/-- An effect adds no topic under an old index, and gives no topic another name. -/
theorem lookup_topics_of_effect (he : Effect s e s')
    (hlt : t.toNat < s.counters.topicIdx.toNat) (ht : s'.topics.lookup t = some topic) :
    ∃ old, s.topics.lookup t = some old ∧ old.name = topic.name := by
  have hsame : s.topics.lookup t = some topic →
      ∃ old, s.topics.lookup t = some old ∧ old.name = topic.name := fun h => ⟨topic, h, rfl⟩
  cases he with
  | topicAdded topic' =>
    rcases lookup_topics_withTopic.mp ht with ⟨heq, -⟩ | ⟨-, ht⟩
    · rw [heq] at hlt
      omega
    · exact hsame ht
  | topicRemoved => exact hsame (lookup_topics_withoutTopic.mp ht).2.2.2
  | topicLost | topicHalfLost =>
    simp only [KeyMap.lookup_erase] at ht
    split_ifs at ht
    exact hsame ht
  | propertiesSet properties hu => exact lookup_insert_properties hu ht
  | _ => exact hsame ht

theorem Anchored.own_step (h : Anchored s) (he : Effect s e s')
    (hroom : Room (· = .topic) s e.toList) {own : TopicIdx × TopicIdx}
    (hown : s'.clientMetatopicMap.lookup c = some own) (ht : t = own.1 ∨ t = own.2) :
    t.toNat < s'.counters.topicIdx.toNat ∧
      ∀ topic, s'.topics.lookup t = some topic → hasDollar topic.name = true := by
  have hidx := idx_le_of_effect he hroom
  have hold : t.toNat < s.counters.topicIdx.toNat →
      (∀ topic, s.topics.lookup t = some topic → hasDollar topic.name = true) →
      t.toNat < s'.counters.topicIdx.toNat ∧
        ∀ topic, s'.topics.lookup t = some topic → hasDollar topic.name = true := by
    intro hlt hname
    refine ⟨by omega, fun topic htopic => ?_⟩
    obtain ⟨old, hlook, heq⟩ := lookup_topics_of_effect he hlt htopic
    rw [← heq]
    exact hname old hlook
  have hkept : s.clientMetatopicMap.lookup c = some own →
      t.toNat < s'.counters.topicIdx.toNat ∧
        ∀ topic, s'.topics.lookup t = some topic → hasDollar topic.name = true := by
    intro hown
    obtain ⟨hlt, hname⟩ := h.own c own t hown ht
    exact hold hlt hname
  have hnamed : ∀ name, hasDollar name = true → s.topicMap.lookup name = some t →
      t.toNat < s'.counters.topicIdx.toNat ∧
        ∀ topic, s'.topics.lookup t = some topic → hasDollar topic.name = true := by
    intro name hdollar hmap
    refine hold (h.numbered.map_lt name t hmap) fun topic htopic => ?_
    rw [h.numbered.name_eq name t topic hmap htopic]
    exact hdollar
  cases he with
  | clientConnected identity hp hq =>
    rw [KeyMap.lookup_insert] at hown
    split_ifs at hown
    · cases hown
      rcases ht with ht | ht
      · subst ht
        exact hnamed _ (hasDollar_clientPubName _) hp
      · subst ht
        exact hnamed _ (hasDollar_clientSubName _) hq
    · exact hkept hown
  | ownMetatopicsErased =>
    rw [KeyMap.lookup_erase] at hown
    split_ifs at hown
    exact hkept hown
  | _ => exact hkept hown

theorem Anchored.step (h : Anchored s) (he : Effect s e s')
    (hroom : Room (· = .topic) s e.toList) : Anchored s' :=
  ⟨h.numbered.step he hroom, fun _ hne => h.below_step he hroom hne,
    fun _ _ _ hown ht => h.own_step he hroom hown ht⟩

/-- The next topic has no registrations yet. -/
theorem Anchored.publishers_fresh (h : Anchored s) : s.publishers s.counters.topicIdx = ∅ := by
  by_contra hne
  have hlt := h.below _ (Finset.nonempty_iff_ne_empty.mpr hne)
  omega

theorem anchored_booted : Anchored booted := by
  refine ⟨Numbered.booted, fun t hne => ?_, fun c own t hown => ?_⟩
  · rw [publishers_booted] at hne
    exact (Finset.not_nonempty_empty hne).elim
  · cases hown

/-- What spare counts need of an effect: a topic that is new has one, and the others keep theirs
where no registration is made, no count lowered and no property changed. -/
theorem Spare.step (h : Spare s) (ha : Anchored s) (he : Effect s e s')
    (hreg : ∀ c p n, e ≠ some (.registered c p n)) (hcount : e ≠ some .count)
    (hprops : e ≠ some .properties) : Spare s' := by
  intro t topic ht hstays
  have hcard := Finset.card_le_card (publishers_subset he hreg t)
  have hold : s.topics.lookup t = some topic → s'.pubCount.lookup t = s.pubCount.lookup t →
      s'.SpareAt t := by
    intro ht hn
    obtain ⟨n, hlook, hlt⟩ := h t topic ht hstays
    exact ⟨n, hn.trans hlook, by omega⟩
  cases he with
  | topicAdded topic' hfresh =>
    rcases lookup_topics_withTopic.mp ht with ⟨heq, htopic⟩ | ⟨hne, ht⟩
    · subst heq htopic
      rw [ha.publishers_fresh, Finset.card_empty] at hcard
      refine ⟨2, by simp [InnerServer.withTopic, hstays], ?_⟩
      have htwo : (2 : UInt16).toNat = 2 := rfl
      omega
    · exact hold ht (by simp [InnerServer.withTopic, hne])
  | topicRemoved => exact hold (lookup_topics_withoutTopic.mp ht).2.2.2 rfl
  | topicLost | topicHalfLost =>
    simp only [KeyMap.lookup_erase] at ht
    split_ifs at ht
    exact hold ht rfl
  | propertiesSet => exact (hprops rfl).elim
  | registered => exact (hreg _ _ _ rfl).elim
  | countLowered | countErased => exact (hcount rfl).elim
  | _ => exact hold ht rfl

section Publish

variable {pubuid : PubUID} {name : String}

/-- Where the topic under this name should stay, its count has room for one more registration and
stays above it. -/
def HasSpareFor (c : ClientIdx) (pubuid : PubUID) (name : String) (s : InnerServer) : Prop :=
  c ∈ s.clients → ∀ t topic, s.topicMap.lookup name = some t → s.topics.lookup t = some topic →
    topic.hasImplicitPublisher = true →
    ∃ n, s.pubCount.lookup t = some n ∧ ((s.publishers t).erase (c, pubuid)).card + 1 < n.toNat

/-- Only a connection adds a client. -/
theorem mem_clients_of_effect (he : Effect s e s') (hclient : e ≠ some .client)
    (hc : c ∈ s'.clients) : c ∈ s.clients := by
  have hput : ∀ {d client client'}, s.clients.lookup d = some client →
      c ∈ s.clients.insert d client' → c ∈ s.clients := by
    intro d client client' hd hc
    rcases (AList.mem_insert _).mp hc with heq | hc
    · rw [heq]
      exact (KeyMap.mem_iff_lookup _ _).mpr ⟨client, hd⟩
    · exact hc
  cases he with
  | clientConnected => exact (hclient rfl).elim
  | clientLeft => exact (AList.mem_erase.mp hc).2
  | registered pubuid hd | unregistered pubuid hd | marked topics hd | told messages hd
  | flushed hd | closed hd | subscribed sub now stored interest messages frames hd
  | unsubscribed subuid hd | batchesSent batches hi hd => exact hput hd hc
  | _ => exact hc

theorem HasSpareFor.step (h : HasSpareFor c pubuid name s) (ha : Anchored s) (he : Effect s e s')
    (hreg : ∀ c' p n, e = some (.registered c' p n) → c' = c ∧ p = pubuid)
    (hclient : e ≠ some .client) (hgone : ∀ t how, e ≠ some (.gone t how))
    (hcount : e ≠ some .count) (hprops : e ≠ some .properties) :
    HasSpareFor c pubuid name s' := by
  intro hc t topic hmap ht hstays
  have hc := mem_clients_of_effect he hclient hc
  have hsub : (s'.publishers t).erase (c, pubuid) ⊆ (s.publishers t).erase (c, pubuid) := by
    by_cases hany : ∃ c' p n, e = some (.registered c' p n)
    · obtain ⟨c', p, n, heq⟩ := hany
      subst heq
      obtain ⟨hcc, hpp⟩ := hreg _ _ _ rfl
      subst hcc hpp
      obtain ⟨client, r, topic', hlook, -, -, hs'⟩ := registered_cases he
      exact erase_publishers_registered hlook (congrArg InnerServer.clients hs')
    · push Not at hany
      exact Finset.erase_subset_erase _ (publishers_subset he hany t)
  have hcard := Finset.card_le_card hsub
  have hold : s.topicMap.lookup name = some t → s.topics.lookup t = some topic →
      s'.pubCount.lookup t = s.pubCount.lookup t →
      ∃ n, s'.pubCount.lookup t = some n ∧
        ((s'.publishers t).erase (c, pubuid)).card + 1 < n.toNat := by
    intro hmap ht hn
    obtain ⟨n, hlook, hlt⟩ := h hc t topic hmap ht hstays
    exact ⟨n, hn.trans hlook, by omega⟩
  cases he with
  | topicAdded topic' hfresh =>
    rcases lookup_topics_withTopic.mp ht with ⟨heq, htopic⟩ | ⟨hne, ht⟩
    · subst heq htopic
      rw [ha.publishers_fresh, Finset.erase_empty, Finset.card_empty] at hcard
      refine ⟨2, by simp [InnerServer.withTopic, hstays], ?_⟩
      have htwo : (2 : UInt16).toNat = 2 := rfl
      omega
    · rcases lookup_topicMap_withTopic.mp hmap with ⟨-, heq⟩ | ⟨-, hmap⟩
      · exact (hne heq.symm).elim
      · exact hold hmap ht (by simp [InnerServer.withTopic, hne])
  | topicRemoved | topicLost | topicHalfLost => exact (hgone _ _ rfl).elim
  | propertiesSet => exact (hprops rfl).elim
  | countLowered | countErased => exact (hcount rfl).elim
  | _ => exact hold hmap ht rfl

theorem Spare.registered (h : Spare s) (hroom : HasSpareFor c pubuid name s)
    (he : Effect s (some (.registered c pubuid name)) s') : Spare s' := by
  obtain ⟨client, r, topic', hc, hr, hmap, hs'⟩ := registered_cases he
  have hclients := congrArg InnerServer.clients hs'
  have htopics : s'.topics = s.topics := by rw [hs']
  have hpubCount : s'.pubCount = s.pubCount := by rw [hs']
  intro t topic ht hstays
  rw [htopics] at ht
  by_cases htr : t = r
  · subst htr
    have hmem : c ∈ s.clients := (KeyMap.mem_iff_lookup _ _).mpr ⟨client, hc⟩
    obtain ⟨n, hn, hlt⟩ := hroom hmem t topic hmap ht hstays
    have hsub : (s'.publishers t).erase (c, pubuid) ⊆ (s.publishers t).erase (c, pubuid) :=
      erase_publishers_registered hc hclients
    have hcard := Finset.card_le_card hsub
    have hpred : (s'.publishers t).card - 1 ≤ ((s'.publishers t).erase (c, pubuid)).card :=
      Finset.pred_card_le_card_erase
    exact ⟨n, by rw [hpubCount, hn], by omega⟩
  · have hsub : s'.publishers t ⊆ s.publishers t := by
      intro f hf
      rcases mem_publishers_registered hc hclients hf with ⟨-, heq⟩ | ⟨-, hf⟩
      · exact (htr heq).elim
      · exact hf
    have hcard := Finset.card_le_card hsub
    obtain ⟨n, hn, hlt⟩ := h t topic ht hstays
    exact ⟨n, by rw [hpubCount, hn], by omega⟩

/-- A publication, effect by effect. -/
theorem spare_innerPublishTopic {pubTopic : PublishTopic} (hes : Effects s es s')
    (hall : ∀ a ∈ es, (Op.innerPublishTopic pubTopic c).MayDo s a) (hroom : Room (· = .topic) s es)
    (hg : HasSpareFor c pubTopic.pubuid pubTopic.name s) (ha : Anchored s) (hs : Spare s) :
    Anchored s' ∧ Spare s' := by
  have hrun := hes.invariant_of_room
    (fun u => (Anchored u ∧ Spare u) ∧ HasSpareFor c pubTopic.pubuid pubTopic.name u) _ hall hroom
    ?_ ⟨⟨ha, hs⟩, hg⟩
  · exact hrun.1
  intro u e u' he hp hroom hu
  obtain ⟨⟨ha, hs⟩, hpend⟩ := hu
  have hgone : ∀ t how, e ≠ some (.gone t how) := fun t how h => hp _ h
  have hcount : e ≠ some .count := fun h => hp _ h
  have hclient : e ≠ some .client := by
    intro h
    obtain ⟨identity, hop⟩ := hp _ h
    cases hop
  have hprops : e ≠ some .properties := by
    intro h
    obtain ⟨msg, hop⟩ := hp _ h
    cases hop
  have hreg : ∀ c' p n, e = some (.registered c' p n) →
      c' = c ∧ p = pubTopic.pubuid ∧ n = pubTopic.name :=
    fun c' p n h => registered_of_mayDo (hp _ h)
  refine ⟨⟨ha.step he hroom, ?_⟩, hpend.step ha he
    (fun c' p n h => ⟨(hreg c' p n h).1, (hreg c' p n h).2.1⟩) hclient hgone hcount hprops⟩
  by_cases hr : ∃ c' p n, e = some (.registered c' p n)
  · obtain ⟨c', p, n, h⟩ := hr
    obtain ⟨hc', hp', hn'⟩ := hreg c' p n h
    subst h hc' hp' hn'
    exact hs.registered hpend he
  · push Not at hr
    exact hs.step ha he hr hcount hprops

end Publish

section Withdraw

/-- The topics that an operation may remove do not include one that should stay. -/
theorem not_stays_of_removes (ha : Anchored s) (hs : Spare s) (ht : op.Removes s t) :
    ¬s.Stays t topic := by
  intro hstays
  obtain ⟨hlook, hnormal, himplicit⟩ := hstays
  obtain ⟨n, hn, hlt⟩ := hs t topic hlook himplicit
  cases op with
  | innerUnpublishTopic pubTopic c =>
    obtain ⟨client, hc, hp, hone⟩ := ht
    have hmem : (c, pubTopic.pubuid) ∈ s.publishers t := mem_publishers.mpr ⟨client, hc, hp⟩
    have hpos := Finset.card_pos.mpr ⟨_, hmem⟩
    rw [hn] at hone
    cases hone
    have hnat : (1 : UInt16).toNat = 1 := rfl
    omega
  | disconnectClient ident =>
    obtain ⟨c, hident, hleaves⟩ := ht
    rcases hleaves with ⟨client, m, hc, hm, hpos, hle⟩ | ⟨own, hown, ht⟩
    · have hcard := card_publishers_of_client (t := t) hc
      have hsub := Finset.card_le_card (Finset.filter_subset (fun f => f.1 = c) (s.publishers t))
      rw [hn] at hm
      cases hm
      omega
    · have hdollar := (ha.own c own t hown ht).2 topic hlook
      rw [hdollar] at hnormal
      cases hnormal
  | _ => exact ht.elim

/-- The topics while withdrawals go on: none is new, and those that should stay are there. -/
structure Surviving (s u : InnerServer) : Prop where
  numbered : Numbered u
  old : ∀ t topic, u.topics.lookup t = some topic → s.topics.lookup t = some topic
  stays : ∀ t topic, s.Stays t topic → u.topics.lookup t = some topic

theorem Surviving.refl (h : Numbered s) : Surviving s s :=
  ⟨h, fun _ _ ht => ht, fun _ _ ht => ht.1⟩

/-- A removal takes the topic it is about, and topics named as metatopics. -/
theorem Surviving.gone {how : Removal} (h : Surviving s u) (he : Effect u (some (.gone t how)) u')
    (hnot : ∀ topic, ¬s.Stays t topic) (hn : Numbered u') : Surviving s u' := by
  have hne : ∀ r topic, s.Stays r topic → r ≠ t := by
    intro r topic hr heq
    subst heq
    exact hnot topic hr
  refine ⟨hn, fun r topic hr => h.old r topic ?_, fun r topic hr => ?_⟩
  · cases he with
    | topicRemoved => exact (lookup_topics_withoutTopic.mp hr).2.2.2
    | topicLost | topicHalfLost =>
      simp only [KeyMap.lookup_erase] at hr
      split_ifs at hr
      exact hr
  · have hlook := h.stays r topic hr
    have hself := hne r topic hr
    cases he with
    | topicRemoved ht hp hq =>
      have hmeta : ∀ n, hasDollar n = true → u.topicMap.lookup n ≠ some r := by
        intro n hdollar hmap
        have hnormal := hr.2.1
        rw [h.numbered.name_eq n r topic hmap hlook, hdollar] at hnormal
        cases hnormal
      refine lookup_topics_withoutTopic.mpr ⟨hself, fun heq => ?_, fun heq => ?_, hlook⟩
      · subst heq
        exact hmeta _ (hasDollar_metaPubName _) hp
      · subst heq
        exact hmeta _ (hasDollar_metaSubName _) hq
    | topicLost | topicHalfLost => simpa [hself] using hlook

/-- A withdrawal takes no index. -/
theorem room_of_withdraws (hop : op.Withdraws) (hall : ∀ a ∈ es, op.MayDo s a) :
    Room (· = .topic) s es := by
  intro k hk
  subst hk
  have hnone : taken .topic es = 0 := by
    rw [taken, List.countP_eq_zero]
    intro a ha htakes
    have hmay := hall a ha
    cases a with
    | topic => cases op <;> first | exact hmay | exact hop
    | _ => cases htakes
  rw [hnone]
  exact UInt32.toNat_lt _

theorem surviving_of_withdraws (ha : Anchored s) (hs : Spare s) (hop : op.Withdraws)
    (hes : Effects s es s') (hall : ∀ a ∈ es, op.MayDo s a) :
    Anchored s' ∧ Surviving s s' := by
  refine hes.invariant_of_room (fun u => Anchored u ∧ Surviving s u) (op.MayDo s) hall
    (room_of_withdraws hop hall) ?_ ⟨ha, .refl ha.numbered⟩
  intro u e u' he hp hroom hu
  obtain ⟨ha', hsurv⟩ := hu
  have ha'' := ha'.step he hroom
  refine ⟨ha'', ?_⟩
  have hsame : u'.topics = u.topics → Surviving s u' := by
    intro htopics
    refine ⟨ha''.numbered, fun t topic ht => ?_, fun t topic ht => ?_⟩
    · exact hsurv.old t topic (htopics ▸ ht)
    · rw [htopics]
      exact hsurv.stays t topic ht
  by_cases hgone : ∃ t how, e = some (.gone t how)
  · obtain ⟨t, how, heq⟩ := hgone
    subst heq
    have hremoves : op.Removes s t := hp _ rfl
    exact hsurv.gone he (fun topic => not_stays_of_removes ha hs hremoves) ha''.numbered
  · push Not at hgone
    cases he with
    | topicAdded topic =>
      have hadds : op.Adds s topic.name := hp _ rfl
      cases op <;> first | exact hadds.elim | exact hop.elim
    | propertiesSet =>
      obtain ⟨msg, heq⟩ := hp _ rfl
      subst heq
      exact hop.elim
    | topicRemoved | topicLost | topicHalfLost => exact (hgone _ _ rfl).elim
    | _ => exact hsame rfl

/-- A count that is above the registrations of a topic stays above them, unless the topic goes. -/
def Spares (s s' : InnerServer) : Prop :=
  ∀ t, s.SpareAt t → t ∈ s'.topics → s'.SpareAt t

/-- Fewer registrations under a count that is as high. -/
theorem InnerServer.SpareAt.of_subset (h : s.SpareAt t) (hsub : s'.publishers t ⊆ s.publishers t)
    (hn : s'.pubCount.lookup t = s.pubCount.lookup t) : s'.SpareAt t := by
  obtain ⟨n, hlook, hlt⟩ := h
  exact ⟨n, hn.trans hlook, (Finset.card_le_card hsub).trans_lt hlt⟩

theorem spareAt_unregistered {client : ConnectedClient} {pubuid : PubUID} {count : UInt16}
    {r : TopicIdx} (hc : s.clients.lookup c = some client)
    (hp : client.pubuidToTopicidx.getByLeft pubuid = some t)
    (hn : s.pubCount.lookup t = some count) (hr : s.SpareAt r) :
    (s.unregistered c client pubuid t count).SpareAt r := by
  by_cases hrt : r = t
  · subst hrt
    obtain ⟨n, hn', hlt⟩ := hr
    rw [hn] at hn'
    cases hn'
    have hmem : (c, pubuid) ∈ s.publishers r := mem_publishers.mpr ⟨client, hc, hp⟩
    have herase : (s.unregistered c client pubuid r count).publishers r ⊆
        (s.publishers r).erase (c, pubuid) := by
      intro f hf
      exact Finset.mem_erase.mpr ((mem_publishers_unregistered hc).mp hf)
    have hcard := Finset.card_le_card herase
    have hone := Finset.card_erase_add_one hmem
    have hpos : count ≠ 0 := by
      intro hzero
      subst hzero
      have hnat : (0 : UInt16).toNat = 0 := rfl
      omega
    have hpred := uint16_toNat_pred hpos
    exact ⟨count - 1, by simp [InnerServer.unregistered], by omega⟩
  · refine hr.of_subset ?_ (by simp [InnerServer.unregistered, hrt])
    intro f hf
    exact ((mem_publishers_unregistered hc).mp hf).2

/-- The list of publishers has no part in the counts. -/
theorem spares_updatePublishers {f : MetaTopicValue → MetaTopicValue → MetaTopicValue}
    {pubMte : ClientPublisherMTE} :
    Ends (updatePublishers c f pubMte) s fun _ s' =>
      s'.topics = s.topics ∧ s'.pubCount = s.pubCount ∧ s'.clients = s.clients := by
  unfold updatePublishers
  split_ifs
  · exact (ends_modify _).mpr ⟨rfl, rfl, rfl⟩
  · simp only [ends_bind, ends_get, thenEnds_ok, ends_okOr, thenEnds_error]
    exact ⟨fun own _ => (ends_modify _).mpr ⟨rfl, rfl, rfl⟩, fun _ => ⟨trivial, trivial, trivial⟩⟩

theorem publishers_of_clients (h : s'.clients = s.clients) (t : TopicIdx) :
    s'.publishers t = s.publishers t := by
  simp only [InnerServer.publishers, h]

/-- Where neither the counts nor the registrations change. -/
theorem InnerServer.SpareAt.of_same (h : s.SpareAt t) (hclients : s'.clients = s.clients)
    (hcount : s'.pubCount = s.pubCount) : s'.SpareAt t :=
  h.of_subset (publishers_of_clients hclients t).subset (by rw [hcount])

theorem spares_innerUnpublishTopic {pubTopic : UnpublishTopic} :
    Ends (innerUnpublishTopic pubTopic c) s fun _ s' => Spares s s' := by
  have hrefl : Spares s s := fun t ht _ => ht
  simp only [innerUnpublishTopic, ends_bind, ends_get, thenEnds_ok, ends_okOr, thenEnds_error,
    putClient, ends_modify]
  refine ⟨fun client hc => ⟨fun t hp => ⟨fun count hn => ?_, fun _ => ?_⟩, fun _ => hrefl⟩,
    fun _ => hrefl⟩
  · have hlow : ∀ r, s.SpareAt r →
        (s.unregistered c client pubTopic.pubuid t count).SpareAt r :=
      fun r hr => spareAt_unregistered hc hp hn hr
    have hstate : { s with
        clients := s.clients.insert c
          { client with
            pubuidToTopicidx := client.pubuidToTopicidx.removeByLeft pubTopic.pubuid }
        pubCount := s.pubCount.insert t (count - 1) } =
        s.unregistered c client pubTopic.pubuid t count := rfl
    rw [hstate]
    split_ifs
    · have hgone : Ends (removeTopic t) (s.unregistered c client pubTopic.pubuid t count)
          fun r s' => Does (fun _ => True) 0 (s.unregistered c client pubTopic.pubuid t count) s' ∧
            (r = .ok () → s'.topics.lookup t = none) := does_removeTopic fun _ => trivial
      refine (ends_bind _ _).mpr (ends_mono (ends_and hgone ends_removeTopic_frame) ?_)
      intro r s₁ hs₁
      obtain ⟨⟨-, hnone⟩, hcount, -, hclients, -⟩ := hs₁
      cases r with
      | error e => exact fun r hr _ => (hlow r hr).of_same hclients hcount
      | ok =>
        refine (thenEnds_ok _ _ _).mpr ((ends_bind _ _).mpr ((ends_modify _).mpr ?_))
        refine ends_mono spares_updatePublishers ?_
        intro _ s₂ hs₂ r hr hmem
        obtain ⟨htopics, hcount₂, hclients₂⟩ := hs₂
        have hrt : r ≠ t := by
          intro heq
          obtain ⟨topic, ht⟩ := (KeyMap.mem_iff_lookup _ _).mp hmem
          rw [htopics, heq, hnone rfl] at ht
          cases ht
        refine (hlow r hr).of_subset ?_ ?_
        · exact (publishers_of_clients (hclients₂.trans hclients) r).subset
        · rw [hcount₂, KeyMap.lookup_erase, if_neg hrt, hcount]
    · refine ends_mono spares_updatePublishers ?_
      intro _ s₁ hs₁ r hr _
      exact (hlow r hr).of_same hs₁.2.2 hs₁.2.1
  · intro r hr _
    refine hr.of_subset ?_ rfl
    exact publishers_subset (.unregistered pubTopic.pubuid hc) (by simp) r

theorem spares_disconnectClient {ident : ClientIdentity} :
    Ends (disconnectClient o ident) s fun _ s' => Spares s s' := by
  have hrefl : Spares s s := fun t ht _ => ht
  cases hident : s.clientMap.lookup ident with
  | none => simpa [disconnectClient, hident] using hrefl
  | some c =>
    cases hc : s.clients.lookup c with
    | none =>
      have herased : Spares s { s with clientMap := s.clientMap.erase ident } := hrefl
      simpa [disconnectClient, hident, hc] using herased
    | some client =>
      have hrest : Ends (disconnectClient o ident) s fun _ s' =>
          Does (fun a => a = .count ∨ ∃ t how, a = .gone t how) 0
            (s.withoutClient ident c client) s' ∧ ∃ l, Sinking client s l s' :=
        does_disconnectClient_left hident hc (.inl rfl) fun t how _ => .inr ⟨t, how, rfl⟩
      refine ends_mono hrest ?_
      intro _ s' hs t ht _
      obtain ⟨⟨es, hes, hall, -⟩, l, hsink⟩ := hs
      obtain ⟨n, hn, hlt⟩ := ht
      have hsub : s'.publishers t ⊆ (s.withoutClient ident c client).publishers t := by
        refine hes.invariant
          (fun u => u.publishers t ⊆ (s.withoutClient ident c client).publishers t) _ hall ?_
          (Finset.Subset.refl _)
        intro u e u' he hp hu
        refine (publishers_subset he (fun c p n heq => ?_) t).trans hu
        rcases hp _ heq with h | ⟨t, how, h⟩ <;> cases h
      have hcard := Finset.card_le_card hsub
      have hleft : ((s.withoutClient ident c client).publishers t).card + client.registrations t =
          (s.publishers t).card := card_publishers_withoutClient hc
      have hmem := hsink.kept t ((KeyMap.mem_iff_lookup _ _).mpr ⟨n, hn⟩)
      obtain ⟨n', hn'⟩ := (KeyMap.mem_iff_lookup _ _).mp hmem
      obtain ⟨n₀, hn₀, hsunk⟩ := hsink.sunk t n' hn'
      rw [hn] at hn₀
      cases hn₀
      exact ⟨n', hn', by omega⟩

/-- A withdrawal leaves what should stay, and spare counts where they are needed. -/
theorem withdraw (ha : Anchored s) (hs : Spare s) (hop : op.Withdraws) (hstep : Step s op s') :
    (Anchored s' ∧ Spare s') ∧ ∀ t topic, s.Stays t topic → s'.Stays t topic := by
  obtain ⟨es, hes, hall, -⟩ := hstep.does
  obtain ⟨ha', hsurv⟩ := surviving_of_withdraws ha hs hop hes hall
  have hspares : Spares s s' := by
    obtain ⟨o, r, hx⟩ := hstep
    cases op with
    | innerUnpublishTopic pubTopic c => exact ends_of_exec spares_innerUnpublishTopic hx
    | disconnectClient ident => exact ends_of_exec spares_disconnectClient hx
    | _ => exact hop.elim
  refine ⟨⟨ha', fun t topic ht himplicit => ?_⟩, fun t topic ht => ⟨hsurv.stays t topic ht, ht.2⟩⟩
  have hspare := hs t topic (hsurv.old t topic ht) himplicit
  exact hspares t hspare ((KeyMap.mem_iff_lookup _ _).mpr ⟨topic, ht⟩)

end Withdraw

/-- What an operation must not do to the counts: to publish a topic that should stay where its count
has no room for that above the registrations, or to make a topic stay whose count is not above
them. -/
structure KeepsSpare (s : InnerServer) (op : Op) : Prop where
  published : ∀ pubTopic c, op = .innerPublishTopic pubTopic c →
    HasSpareFor c pubTopic.pubuid pubTopic.name s
  turnedOn : ∀ msg t topic, op = .setProperties msg → s.topicMap.lookup msg.name = some t →
    s.topics.lookup t = some topic → topic.hasImplicitPublisher = false →
    ({ topic with
      properties := some (updatedProperties topic.properties msg.update) } :
        Topic).hasImplicitPublisher = true → s.SpareAt t

theorem spare_setProperties {msg : SetProperties} (hg : KeepsSpare s (.setProperties msg))
    (hs : Spare s) : Ends (setProperties msg) s fun _ s' => Spare s' := by
  simp only [setProperties, ends_bind, ends_get, thenEnds_ok, ends_okOr, thenEnds_error,
    ends_modify]
  refine ⟨fun t hmap => ⟨fun topic ht => ?_, fun _ => hs⟩, fun _ => hs⟩
  intro r topic' hr himplicit
  rw [KeyMap.lookup_insert] at hr
  split_ifs at hr with hrt
  · subst hrt
    cases hr
    cases hold : topic.hasImplicitPublisher with
    | true => exact hs r topic ht hold
    | false => exact hg.turnedOn msg r topic rfl hmap ht hold himplicit
  · exact hs r topic' hr himplicit

/-- One operation that meets the guard. -/
theorem spare_of_step (hes : Effects s es s') (hall : ∀ a ∈ es, op.MayDo s a)
    (hroom : Room (· = .topic) s es) (hg : KeepsSpare s op) (hstep : Step s op s')
    (ha : Anchored s) (hs : Spare s) : Anchored s' ∧ Spare s' := by
  have hanchored : Anchored s' := hes.invariant_of_room Anchored _ hall hroom
    (fun _ _ _ he _ hroom ha => ha.step he hroom) ha
  cases op with
  | innerPublishTopic pubTopic c =>
    exact spare_innerPublishTopic hes hall hroom (hg.published pubTopic c rfl) ha hs
  | innerUnpublishTopic pubTopic c =>
    have hop : (Op.innerUnpublishTopic pubTopic c).Withdraws := trivial
    exact (withdraw ha hs hop hstep).1
  | disconnectClient ident =>
    have hop : (Op.disconnectClient ident).Withdraws := trivial
    exact (withdraw ha hs hop hstep).1
  | setProperties msg =>
    obtain ⟨o, r, hx⟩ := hstep
    exact ⟨hanchored, ends_of_exec (spare_setProperties hg hs) hx⟩
  | _ =>
    refine hes.invariant_of_room (fun u => Anchored u ∧ Spare u) _ hall hroom ?_ ⟨ha, hs⟩
    intro u e u' he hp hroom hu
    refine ⟨hu.1.step he hroom, hu.2.step hu.1 he (fun c p n h => ?_) (fun h => hp _ h) fun h => ?_⟩
    · obtain ⟨pubTopic, hop, -⟩ := hp _ h
      cases hop
    · obtain ⟨msg, hop⟩ := hp _ h
      cases hop

theorem spare_of_booted (hes : Effects booted es s) (hall : ∀ a ∈ es, IsTopic a)
    (hroom : Room (· = .topic) booted es) : Anchored s ∧ Spare s := by
  refine hes.invariant_of_room (fun u => Anchored u ∧ Spare u) IsTopic hall hroom ?_
    ⟨anchored_booted, fun t topic ht => ?_⟩
  · intro u e u' he hp hroom hu
    have hno : ∀ a, e = some a → ∃ name, a = .topic name := fun a h => hp a h
    refine ⟨hu.1.step he hroom, hu.2.step hu.1 he (fun c p n h => ?_) (fun h => ?_) fun h => ?_⟩ <;>
      obtain ⟨name, heq⟩ := hno _ h <;> cases heq
  · cases ht

/-- Topics that should stay do, along every run that creates fewer than 2^32 topics, in which
nobody publishes such a topic beyond its count, and no properties make a topic stay whose count
does not say so. -/
theorem retained_survive_of_keepsSpare {k : Kind → Nat} (run : RunWhere KeepsSpare k s)
    (hk : k .topic < 2 ^ 32) : RetainedSurvive s := by
  obtain ⟨ha, hs⟩ := run.induct (· = .topic) (fun s => Anchored s ∧ Spare s)
    (fun j hj => hj ▸ hk) (fun es s hes hall hroom => spare_of_booted hes hall hroom)
    fun s op es s' hes hall hroom hg hstep h => spare_of_step hes hall hroom hg hstep h.1 h.2
  intro t topic ht s' hrun
  have hkept : (Anchored s' ∧ Spare s') ∧ s'.Stays t topic := by
    induction hrun with
    | refl => exact ⟨⟨ha, hs⟩, ht⟩
    | tail _ hstep ih =>
      obtain ⟨op, hop, hstep⟩ := hstep
      obtain ⟨⟨ha, hs⟩, ht⟩ := ih
      have hnext := withdraw ha hs hop hstep
      exact ⟨hnext.1, hnext.2 t topic ht⟩
  exact (KeyMap.mem_iff_lookup _ _).mpr ⟨topic, hkept.2.1⟩

/-- A connection, a withdrawal, or the publication of a name that is new. -/
def publishesNewNames (s : InnerServer) : Op → Bool
  | .connectClient _ | .innerUnpublishTopic _ _ | .disconnectClient _ => true
  | .innerPublishTopic pubTopic _ => (s.topicMap.lookup pubTopic.name).isNone
  | _ => false

theorem keepsSpare_of_publishesNewNames (s : InnerServer) (op : Op)
    (h : publishesNewNames s op = true) : KeepsSpare s op := by
  cases op with
  | connectClient | innerUnpublishTopic | disconnectClient =>
    refine ⟨fun _ _ hop => ?_, fun _ _ _ hop => ?_⟩ <;> cases hop
  | innerPublishTopic pubTopic c =>
    refine ⟨fun pubTopic' c' hop _ t topic hmap => ?_, fun _ _ _ hop => ?_⟩
    · cases hop
      simp [publishesNewNames, hmap] at h
    · cases hop
  | _ => cases h

/-- A client publishes a retained topic, and takes it back. -/
def publishRetained : List Op :=
  [.connectClient ⟨.v4 10 0 0 2 5810, "a"⟩,
    .innerPublishTopic ⟨"x", 0, "int", some { retained := some true }⟩ 1,
    .innerUnpublishTopic ⟨0⟩ 1]

theorem retained_survive_publishRetained :
    ∃ s, stateAfter publishesNewNames .stored publishRetained = some s ∧
      (s.topics.lookup 5).map Topic.hasImplicitPublisher = some true ∧ RetainedSurvive s := by
  have hrun : (stateAfter publishesNewNames .stored publishRetained).map
      (fun s => (s.topics.lookup 5).map Topic.hasImplicitPublisher) = some (some true) := by
    decide +kernel
  obtain ⟨s, hs, hview⟩ := Option.map_eq_some_iff.mp hrun
  obtain ⟨k, run, hk⟩ := runWhere_stateAfter keepsSpare_of_publishesNewNames hs
  have hlt : k .topic < 2 ^ 32 := (hk .topic).trans_lt (by decide)
  exact ⟨s, hs, hview, retained_survive_of_keepsSpare run hlt⟩

/-- The same client publishes its retained topic once more. -/
def republishRetained : List Op :=
  publishRetained ++ [.innerPublishTopic ⟨"x", 0, "int", some { retained := some true }⟩ 1]

/-- The second publication is not counted, and its end takes the retained topic away. -/
theorem retained_topic_lost : ¬∀ s, Reachable s → RetainedSurvive s := by
  intro h
  have hrun : (stateAfter anyOp .stored republishRetained).map (fun s =>
      (s.topics.lookup 5).map fun topic => (hasDollar topic.name, topic.hasImplicitPublisher)) =
        some (some (false, true)) := by decide +kernel
  have hrun' : (stateAfter anyOp .stored (republishRetained ++ [.innerUnpublishTopic ⟨0⟩ 1])).map
      (fun s => (s.topics.lookup 5).isSome) = some false := by decide +kernel
  obtain ⟨s, hs, hview⟩ := Option.map_eq_some_iff.mp hrun
  obtain ⟨s', hs', hgone⟩ := Option.map_eq_some_iff.mp hrun'
  obtain ⟨topic, ht, hprops⟩ := Option.map_eq_some_iff.mp hview
  obtain ⟨hnormal, himplicit⟩ := Prod.mk.inj hprops
  have hstep : Step s (.innerUnpublishTopic ⟨0⟩ 1) s' := step_of_stateAfter hs hs'
  have hmem := h s (reachable_stateAfter hs) 5 topic ⟨ht, hnormal, himplicit⟩ s'
    (.single ⟨.innerUnpublishTopic ⟨0⟩ 1, trivial, hstep⟩)
  obtain ⟨topic', ht'⟩ := (KeyMap.mem_iff_lookup _ _).mp hmem
  rw [ht'] at hgone
  cases hgone

end NetTables.Server
