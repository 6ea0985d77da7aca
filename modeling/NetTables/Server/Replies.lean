import NetTables.Lib.Casts
import NetTables.Server.Hearers

namespace NetTables.Server

open Lib Lib.Fallible Spec

variable {s s' u : InnerServer} {o : IterOrder} {c : ClientIdx} {t : TopicIdx} {topic : Topic}
  {client : ConnectedClient} {ch : Outgoing} {pubTopic : PublishTopic}

/-- The topics that a client is told of, with what it is told. -/
abbrev News := List (TopicIdx × Announce)

/-- The client once all of these are announced to it. -/
def ConnectedClient.hearsAll (client : ConnectedClient) (news : News) : ConnectedClient :=
  news.foldl (fun client e => client.hears e.1 e.2) client

theorem hearsAll_append (news news' : News) :
    client.hearsAll (news ++ news') = (client.hearsAll news).hearsAll news' :=
  List.foldl_append

theorem announcedTopics_hearsAll (news : News) :
    (client.hearsAll news).announcedTopics =
      client.announcedTopics ∪ (news.map Prod.fst).toFinset := by
  induction news generalizing client with
  | nil => simp [ConnectedClient.hearsAll]
  | cons e news ih =>
    rw [ConnectedClient.hearsAll, List.foldl_cons, ← ConnectedClient.hearsAll, ih,
      ConnectedClient.hears, List.map_cons, List.toFinset_cons, Finset.insert_union,
      Finset.union_insert]

theorem told_hearsAll (hch : client.subOuput = some ch) (hopen : ch.isOpen = true) (news : News) :
    (client.hearsAll news).told = client.told ++ news.map fun e => .announce e.2 := by
  induction news generalizing client ch with
  | nil => simp [ConnectedClient.hearsAll]
  | cons e news ih =>
    have hnext : (client.hears e.1 e.2).subOuput =
        some { ch with sent := ch.sent ++ [.text [.announce e.2]] } := by
      simp [ConnectedClient.hears, hch, Outgoing.append, hopen]
    have htold : (client.hears e.1 e.2).told = client.told ++ [.announce e.2] := by
      rw [told_of_channel hnext, told_of_channel hch, Outgoing.told_append]
      rfl
    rw [ConnectedClient.hearsAll, List.foldl_cons, ← ConnectedClient.hearsAll, ih hnext hopen,
      htold, List.append_assoc]
    rfl

/-- What a client is told by an announcement that is no reply. -/
def newsOf (s : InnerServer) (t : TopicIdx) (c : ClientIdx) : News :=
  if c ∈ s.hearers t then
    ((s.topics.lookup t).map fun topic => (t, announceOf t topic)).toList
  else
    []

/-- What a client is told while a topic is added: its metatopics, where it takes any. -/
def metaNews (s : InnerServer) (topic : Topic) (c : ClientIdx) : News :=
  if AddsNormal s topic then
    newsOf (pubEnsured s topic).2 (pubEnsured s topic).1 c ++
      newsOf (subEnsured s topic).2 (subEnsured s topic).1 c
  else
    []

/-- The server but for its clients, of which `c` has heard the news. -/
structure Informed (c : ClientIdx) (client : ConnectedClient) (news : News)
    (s s' : InnerServer) : Prop where
  rest : s' = { s with clients := s'.clients }
  client : s'.clients.lookup c = some (client.hearsAll news)

section Informed

variable {news news' : News}

theorem Informed.refl (hc : s.clients.lookup c = some client) : Informed c client [] s s :=
  ⟨rfl, hc⟩

theorem Informed.newsOf_eq (h : Informed c client news s u) (t : TopicIdx) :
    newsOf u t c = newsOf s t c := by
  rw [h.rest]
  rfl

theorem Informed.trans (h : Informed c client news s u)
    (h' : Informed c (client.hearsAll news) news' u s') :
    Informed c client (news ++ news') s s' := by
  refine ⟨?_, by rw [hearsAll_append]; exact h'.client⟩
  have hrest := h'.rest
  rw [h.rest] at hrest
  exact hrest

/-- Topics are added beside what clients hear. -/
theorem Informed.ensureTopic (h : Informed c client news s u) (topic : Topic) :
    (Server.ensureTopic u topic).1 = (Server.ensureTopic s topic).1 ∧
      Informed c client news (Server.ensureTopic s topic).2 (Server.ensureTopic u topic).2 := by
  have hmap : u.topicMap = s.topicMap := by rw [h.rest]
  have hcounters : u.counters = s.counters := by rw [h.rest]
  simp only [Server.ensureTopic, hmap]
  cases s.topicMap.lookup topic.name with
  | some t => exact ⟨rfl, h⟩
  | none =>
    refine ⟨by rw [hcounters], ?_, h.client⟩
    simp only [InnerServer.withTopic]
    rw [h.rest]

theorem Heard.informed {l : List ClientIdx} {a : Announce} (h : Heard l t a s s')
    (hc : s.clients.lookup c = some client) :
    Informed c client (if c ∈ l then [(t, a)] else []) s s' := by
  refine ⟨h.rest, ?_⟩
  split_ifs with hmem
  · rw [h.heard c hmem, hc]
    rfl
  · rw [h.others c hmem, hc]
    rfl

theorem ends_announceTopic_informed (hc : s.clients.lookup c = some client) :
    Ends (announceTopic o t none) s fun r s' =>
      r = .ok () → Informed c client (newsOf s t c) s s' := by
  cases ht : s.topics.lookup t with
  | none => exact (ends_announceTopic_missing ht).mpr fun hr => by cases hr
  | some topic =>
    refine ends_mono (ends_announceTopic_heard ht) fun r s' hs' hr => ?_
    rw [newsOf, ht]
    exact (hs' hr).informed hc

/-- The reply to a publisher. -/
def replyOf (t : TopicIdx) (topic : Topic) (pubuid : PubUID) : Announce :=
  { announceOf t topic with pubuid := some pubuid.toInt32 }

theorem ends_announceResponse_informed {pubuid : PubUID} (hc : s.clients.lookup c = some client) :
    Ends (announceResponse t (announceOf t topic) pubuid c) s fun r s' =>
      r = .ok () → Informed c client
        (if t ∈ client.announcedTopics then [] else [(t, replyOf t topic pubuid)]) s s' := by
  simp only [announceResponse, ends_bind, ends_get, thenEnds_ok, hc]
  split_ifs with hknown
  · exact (ends_pure ()).mpr fun _ => .refl hc
  · have hheard : ∀ client', client' = client.hears t (replyOf t topic pubuid) →
        Informed c client [(t, replyOf t topic pubuid)] s
          { s with clients := s.clients.insert c client' } := by
      rintro client' rfl
      exact ⟨rfl, by rw [KeyMap.lookup_insert, if_pos rfl]; rfl⟩
    refine (ends_bind _ _).mpr ((ends_sendOn_of_client hc).mpr ?_)
    cases hch : client.subOuput with
    | none =>
      simp only [thenEnds_ok, markAnnounced, ends_bind, ends_get, hc, putClient, ends_modify]
      exact fun _ => hheard _ (by simp [ConnectedClient.hears, hch])
    | some ch =>
      dsimp only
      split_ifs with hopen
      · simp only [thenEnds_ok, markAnnounced, ends_bind, ends_get, KeyMap.lookup_insert, if_true,
          putClient, ends_modify, AList.insert_insert]
        refine fun _ => hheard _ ?_
        simp [ConnectedClient.hears, hch, Outgoing.append, hopen, replyOf]
      · exact fun hr => by cases hr

/-- A reply to another client. -/
theorem ends_announceResponse_other {d : ClientIdx} {a : Announce} {pubuid : PubUID} (hd : c ≠ d)
    (hc : s.clients.lookup c = some client) :
    Ends (announceResponse t a pubuid d) s fun _ s' => Informed c client [] s s' := by
  have htold : ∀ {u}, Told [d] s u → Informed c client [] s u := by
    intro u hu
    refine ⟨hu.rest, ?_⟩
    rw [hu.others c (by simpa using hd)]
    exact hc
  simp only [announceResponse, ends_bind, ends_get, thenEnds_ok]
  cases hlook : s.clients.lookup d with
  | none => exact (ends_throw _).mpr (.refl hc)
  | some other =>
    dsimp only
    split_ifs with hknown
    · exact (ends_pure ()).mpr (.refl hc)
    · refine (ends_bind _ _).mpr (ends_mono (told_sendOn (.refl [d] s) List.mem_cons_self) ?_)
      intro result u h
      obtain ⟨hu, -⟩ := h
      obtain e | ⟨⟩ := result
      · exact htold hu
      · refine ends_mono (told_markAnnounced hu List.mem_cons_self) ?_
        intro r v h
        obtain ⟨hv, -⟩ := h
        exact htold hv

/-- The loop over the subscribers, after a client has heard some news. -/
theorem ends_announceAll_informed {news : News} (hu : Informed c client news s u)
    (ht : s.topics.lookup t = some topic) :
    Ends (forEach (o.arrange (clientsToNotify u topic.name))
      (announceSubscriber t (announceOf t topic))) u fun r s' =>
        r = .ok () → Informed c client (news ++ newsOf s t c) s s' := by
  have ht' : u.topics.lookup t = some topic := by rw [hu.rest, ht]
  have hmem : c ∈ o.arrange (clientsToNotify u topic.name) ↔ c ∈ u.hearers t := by
    rw [o.mem_arrange, InnerServer.hearers, ht']
    rfl
  refine ends_mono (ends_announceAll (nodup_clientsToNotify u o topic.name)) ?_
  intro r s' hs' hr
  have hrest := (hs' hr).informed hu.client
  rw [if_congr hmem rfl rfl] at hrest
  refine hu.trans ?_
  rw [← hu.newsOf_eq, newsOf, ht']
  exact hrest

/-- Before the subscribers are told, the publisher gets its reply, unless it knows of the topic. -/
theorem ends_announceTopic_replied {pubuid : PubUID} (hc : s.clients.lookup c = some client) :
    Ends (announceTopic o t (some (pubuid, c))) s fun r s' =>
      r = .ok () → ∃ topic, s.topics.lookup t = some topic ∧
        Informed c client
          ((if t ∈ client.announcedTopics then [] else [(t, replyOf t topic pubuid)]) ++
            newsOf s t c) s s' := by
  cases ht : s.topics.lookup t with
  | none => exact (ends_announceTopic_missing ht).mpr fun hr => by cases hr
  | some topic =>
    simp only [announceTopic, ends_bind, ends_get, thenEnds_ok, ends_okOr, ht, thenEnds_error]
    refine ⟨fun topic' heq => ?_, by simp⟩
    cases heq
    refine ends_mono (ends_announceResponse_informed hc) ?_
    intro result u hu
    obtain e | ⟨⟩ := result
    · exact fun hr => by cases hr
    · exact ends_mono (ends_announceAll_informed (hu rfl) ht) fun r s' hs' hr => ⟨topic, rfl, hs' hr⟩

/-- Whoever gets a reply, the subscribers are told. -/
theorem ends_announceTopic_news {responseOpt : Option (PubUID × ClientIdx)}
    (hc : s.clients.lookup c = some client) :
    Ends (announceTopic o t responseOpt) s fun r s' => r = .ok () →
      ∃ reply : News, (∀ e ∈ reply, ∃ topic pubuid, s.topics.lookup t = some topic ∧
        e.2 = replyOf t topic pubuid) ∧ Informed c client (reply ++ newsOf s t c) s s' := by
  cases responseOpt with
  | none =>
    refine ends_mono (ends_announceTopic_informed hc) fun r s' hs' hr => ⟨[], fun e he => ?_, hs' hr⟩
    cases he
  | some response =>
    obtain ⟨pubuid, d⟩ := response
    by_cases hd : c = d
    · subst hd
      refine ends_mono (ends_announceTopic_replied hc) fun r s' hs' hr => ?_
      obtain ⟨topic, ht, h⟩ := hs' hr
      refine ⟨_, fun e he => ⟨topic, pubuid, ht, ?_⟩, h⟩
      split_ifs at he
      · cases he
      · rw [List.mem_singleton.mp he]
    · cases ht : s.topics.lookup t with
      | none => exact (ends_announceTopic_missing ht).mpr fun hr => by cases hr
      | some topic =>
        simp only [announceTopic, ends_bind, ends_get, thenEnds_ok, ends_okOr, ht, thenEnds_error]
        refine ⟨fun topic' heq => ?_, by simp⟩
        cases heq
        refine ends_mono (ends_announceResponse_other hd hc) ?_
        intro result u hu
        obtain e | ⟨⟩ := result
        · exact fun hr => by cases hr
        · refine ends_mono (ends_announceAll_informed hu ht) fun r s' hs' hr =>
            ⟨[], fun e he => ?_, hs' hr⟩
          cases he

theorem ensureTopic_subscriptions (s : InnerServer) (topic : Topic) :
    (ensureTopic s topic).2.subscriptions = s.subscriptions := by
  unfold ensureTopic
  split <;> rfl

/-- What a client has heard once a topic is there. -/
theorem ends_addTopic_informed (hc : s.clients.lookup c = some client) :
    Ends (addTopic o topic) s fun r s' => ∀ t, r = .ok t → t = (ensureTopic s topic).1 ∧
      s'.subscriptions = s.subscriptions ∧
      s'.clients.lookup c = some (client.hearsAll (metaNews s topic c)) := by
  by_cases hnew : AddsNormal s topic
  · rw [ends_addTopic_of_addsNormal hnew, metaNews, if_pos hnew]
    have hpub : (pubEnsured s topic).2.clients.lookup c = some client := by
      rw [pubEnsured, ensureTopic_clients]
      exact hc
    have hidx : s.counters.topicIdx = (ensureTopic s topic).1 := by rw [ensureTopic, hnew.1]
    refine (ends_bind _ _).mpr (ends_mono (ends_announceTopic_informed hpub) ?_)
    intro result u hu
    obtain e | ⟨⟩ := result
    · exact fun t hr => by cases hr
    · obtain ⟨hsame, hu⟩ := (hu rfl).ensureTopic (.newMeta (metaSubName topic.name))
      refine (ends_bind _ _).mpr (ends_addMetaTopic.mpr ((thenEnds_ok _ _ _).mpr ?_))
      rw [hsame]
      refine (ends_bind _ _).mpr (ends_mono (ends_announceTopic_informed hu.client) ?_)
      intro result v hv
      obtain e | ⟨⟩ := result
      · exact fun t hr => by cases hr
      · have hboth := hu.trans (hv rfl)
        rw [hu.newsOf_eq] at hboth
        refine (ends_pure _).mpr fun t hr => ?_
        cases hr
        refine ⟨hidx, ?_, hboth.client⟩
        rw [hboth.rest]
        exact (ensureTopic_subscriptions _ _).trans (ensureTopic_subscriptions _ _)
  · refine (ends_addTopic_of_not_addsNormal hnew).mpr fun t hr => ?_
    cases hr
    rw [metaNews, if_neg hnew, ensureTopic_clients]
    exact ⟨rfl, ensureTopic_subscriptions s topic, hc⟩

end Informed

/-- The message is an announcement that carries this `pubuid`. -/
def NTMessage.answers (pubuid : PubUID) : NTMessage → Bool
  | .announce a => decide (a.pubuid.map Int32.toInt = some (pubuid.toNat : Int))
  | _ => false

/-- The client is told once, in reply, of the topic that a publication has registered. -/
structure Answered (s s' : InnerServer) (c : ClientIdx) (pubuid : PubUID) (t : TopicIdx)
    (client' : ConnectedClient) (topic : Topic) (a : Announce) : Prop where
  found : s'.clients.lookup c = some client'
  registered : client'.pubuidToTopicidx.getByLeft pubuid = some t
  present : s'.topics.lookup t = some topic
  once : ∃ told, s'.toldTo c = s.toldTo c ++ told ∧
    told.filter (NTMessage.answers pubuid) = [.announce a]
  id : a.id = t.toInt32
  name : a.name = topic.name

/-- The client knows of the index under which a publication registers its topic before the reply is
due: it has been told of it, or hears of a metatopic under the same index on the way. -/
def KnownBefore (s : InnerServer) (topic : Topic) (c : ClientIdx) (client : ConnectedClient) : Prop :=
  (ensureTopic s topic).1 ∈
    client.announcedTopics ∪ ((metaNews s topic c).map Prod.fst).toFinset

instance (s : InnerServer) (topic : Topic) (c : ClientIdx) (client : ConnectedClient) :
    Decidable (KnownBefore s topic c client) :=
  inferInstanceAs (Decidable (_ ∈ _))

theorem silent_newsOf : ∀ e ∈ newsOf s t c, e.2.pubuid = none := by
  intro e he
  unfold newsOf at he
  split_ifs at he
  · obtain ⟨topic, -, rfl⟩ := Option.map_eq_some_iff.mp (Option.mem_toList.mp he)
    rfl
  · cases he

theorem silent_metaNews : ∀ e ∈ metaNews s topic c, e.2.pubuid = none := by
  intro e he
  unfold metaNews at he
  split_ifs at he
  · rcases List.mem_append.mp he with he | he
    · exact silent_newsOf e he
    · exact silent_newsOf e he
  · cases he

theorem filter_silent {news : News} (pubuid : PubUID) (h : ∀ e ∈ news, e.2.pubuid = none) :
    (news.map fun e => NTMessage.announce e.2).filter (NTMessage.answers pubuid) = [] := by
  rw [List.filter_eq_nil_iff]
  intro m hm
  obtain ⟨e, he, rfl⟩ := List.mem_map.mp hm
  simp [NTMessage.answers, h e he]

/-- What a publication that goes through leaves of its client. -/
theorem ends_register_client (hc : s.clients.lookup c = some client) :
    Ends (register pubTopic c t) s fun r s' => (∀ t', r = .ok t' → t' = t) ∧
      s'.topics = s.topics ∧ s'.clients.lookup c = some { client with
        pubuidToTopicidx := client.pubuidToTopicidx.insert pubTopic.pubuid t } := by
  refine ends_mono ends_register_put ?_
  intro r s' h
  obtain ⟨hresult, ⟨hnone, -⟩ | ⟨client', values, hc', rfl⟩⟩ := h
  · rw [hc] at hnone
    cases hnone
  · rw [hc] at hc'
    cases hc'
    refine ⟨hresult, rfl, ?_⟩
    rw [KeyMap.lookup_insert, if_pos rfl]

theorem ends_innerPublishTopic_told (hc : s.clients.lookup c = some client)
    (hch : client.subOuput = some ch) (hopen : ch.isOpen = true) :
    Ends (innerPublishTopic o pubTopic c) s fun r s' => ∀ t, r = .ok t →
      ∃ client' topic told, s'.clients.lookup c = some client' ∧
        client'.pubuidToTopicidx.getByLeft pubTopic.pubuid = some t ∧
        s'.topics.lookup t = some topic ∧ s'.toldTo c = s.toldTo c ++ told ∧
        told.filter (NTMessage.answers pubTopic.pubuid) =
          if KnownBefore s (.fromPublishTopic pubTopic) c client then []
          else [NTMessage.announce (replyOf t topic pubTopic.pubuid)].filter
            (NTMessage.answers pubTopic.pubuid) := by
  rw [innerPublishTopic_eq]
  refine (ends_bind _ _).mpr (ends_mono (ends_addTopic_informed hc) ?_)
  intro result u hu
  obtain e | t := result
  · exact fun t hr => by cases hr
  obtain ⟨hidx, -, hu⟩ := hu t rfl
  refine (ends_bind _ _).mpr (ends_mono (ends_announceTopic_replied hu) ?_)
  intro result v hv
  obtain e | ⟨⟩ := result
  · exact fun t hr => by cases hr
  obtain ⟨topic, ht, hv⟩ := hv rfl
  refine ends_mono (ends_register_client hv.client) ?_
  intro r s' h t' hr
  obtain ⟨hresult, htopics, hs'⟩ := h
  obtain rfl := hresult t' hr
  have hknown : t' ∈ (client.hearsAll (metaNews s (.fromPublishTopic pubTopic) c)).announcedTopics ↔
      KnownBefore s (.fromPublishTopic pubTopic) c client := by
    rw [announcedTopics_hearsAll, hidx, KnownBefore]
  rw [← hearsAll_append] at hs'
  have htold : s'.toldTo c = s.toldTo c ++ ((metaNews s (.fromPublishTopic pubTopic) c ++
      ((if t' ∈ (client.hearsAll (metaNews s (.fromPublishTopic pubTopic) c)).announcedTopics then []
        else [(t', replyOf t' topic pubTopic.pubuid)]) ++ newsOf u t' c)).map
          fun e => NTMessage.announce e.2) := by
    rw [toldTo_of_client hs', toldTo_of_client hc, ← told_hearsAll hch hopen]
    rfl
  refine ⟨_, topic, _, hs', ?_, ?_, htold, ?_⟩
  · rw [PrimBiMap.getByLeft_insert, if_pos rfl]
  · rw [htopics, hv.rest]
    exact ht
  · rw [if_congr hknown rfl rfl, List.map_append, List.map_append, List.filter_append,
      List.filter_append, filter_silent _ silent_metaNews, filter_silent _ silent_newsOf,
      List.append_nil, List.nil_append]
    split_ifs <;> rfl

/-- A reply carries the `pubuid` where that fits the signed field. -/
theorem answers_replyOf (t : TopicIdx) (topic : Topic) (pubuid : PubUID) :
    NTMessage.answers pubuid (.announce (replyOf t topic pubuid)) = true ↔
      pubuid.toNat < 2 ^ 31 := by
  simp only [NTMessage.answers, replyOf, Option.map_some, decide_eq_true_eq, Option.some.injEq,
    toInt_toInt32]
  have hlt := pubuid.toNat_lt
  split_ifs with hfits
  · exact ⟨fun _ => hfits, fun _ => rfl⟩
  · constructor
    · intro heq
      omega
    · exact fun h => absurd h hfits

/-- A publication that goes through is answered exactly where its client does not know of the topic
yet, and the `pubuid` fits the field of the reply. -/
theorem publish_is_answered_iff (hc : s.clients.lookup c = some client)
    (hch : client.subOuput = some ch) (hopen : ch.isOpen = true)
    (hx : (innerPublishTopic o pubTopic c).exec s = .ok (.ok t, s')) :
    (∃ client' topic a, Answered s s' c pubTopic.pubuid t client' topic a) ↔
      ¬KnownBefore s (.fromPublishTopic pubTopic) c client ∧ pubTopic.pubuid.toNat < 2 ^ 31 := by
  obtain ⟨client', topic, told, hc', hregistered, ht, htold, hreplies⟩ :=
    ends_of_exec (ends_innerPublishTopic_told hc hch hopen) hx t rfl
  rw [← answers_replyOf t topic]
  constructor
  · intro hs
    obtain ⟨_, _, a, h⟩ := hs
    obtain ⟨told', htold', honce⟩ := h.once
    rw [htold, List.append_cancel_left_eq] at htold'
    subst htold'
    rw [hreplies] at honce
    split_ifs at honce with hknown
    refine ⟨hknown, ?_⟩
    by_contra hanswers
    rw [List.filter_cons_of_neg hanswers] at honce
    cases honce
  · intro hs
    obtain ⟨hknown, hanswers⟩ := hs
    rw [if_neg hknown, List.filter_cons_of_pos hanswers] at hreplies
    exact ⟨client', topic, _, hc', hregistered, ht, ⟨told, htold, hreplies⟩, rfl, rfl⟩

/-- A client that has just connected. -/
def connectOne : List Op := [.connectClient ⟨.v4 10 0 0 2 5810, "a"⟩]

/-- What it publishes, twice under different `pubuid`s. -/
def publishX (pubuid : PubUID) : PublishTopic := ⟨"x", pubuid, "int", none⟩

theorem publish_is_answered_first :
    ∃ s s' client client' topic a, Reachable s ∧ s.clients.lookup 1 = some client ∧
      ¬KnownBefore s (.fromPublishTopic (publishX 0)) 1 client ∧
      (innerPublishTopic .stored (publishX 0) 1).exec s = .ok (.ok 5, s') ∧
      Answered s s' 1 0 5 client' topic a := by
  have hrun : (stateAfter anyOp .stored connectOne).bind (fun s =>
      (s.clients.lookup 1).bind fun client => client.subOuput.bind fun ch =>
        ((innerPublishTopic .stored (publishX 0) 1).exec s).toOption.map fun p =>
          (ch.isOpen, decide (KnownBefore s (.fromPublishTopic (publishX 0)) 1 client),
            p.1.toOption)) = some (true, false, some 5) := by decide +kernel
  obtain ⟨s, hs, hview⟩ := Option.bind_eq_some_iff.mp hrun
  obtain ⟨client, hc, hview⟩ := Option.bind_eq_some_iff.mp hview
  obtain ⟨ch, hch, hview⟩ := Option.bind_eq_some_iff.mp hview
  obtain ⟨⟨r, s'⟩, hp, hview⟩ := Option.map_eq_some_iff.mp hview
  simp only [Prod.mk.injEq, decide_eq_false_iff_not] at hview
  obtain ⟨hopen, hknown, hr⟩ := hview
  have hx : (innerPublishTopic .stored (publishX 0) 1).exec s = .ok (.ok 5, s') := by
    rw [eq_ok_of_toOption hp, eq_ok_of_toOption hr]
  obtain ⟨client', topic, a, h⟩ :=
    (publish_is_answered_iff hc hch hopen hx).mpr ⟨hknown, by decide⟩
  exact ⟨s, s', client, client', topic, a, reachable_stateAfter hs, hc, hknown, hx, h⟩

/-- The second publication of a topic gets no reply. -/
theorem second_publish_is_not_answered :
    ¬∀ s, Reachable s → ∀ o c client ch pubTopic t s', s.clients.lookup c = some client →
      client.subOuput = some ch → ch.isOpen = true →
      (innerPublishTopic o pubTopic c).exec s = .ok (.ok t, s') →
        ∃ client' topic a, Answered s s' c pubTopic.pubuid t client' topic a := by
  intro h
  have hrun : (stateAfter anyOp .stored (connectOne ++ [.innerPublishTopic (publishX 0) 1])).bind
      (fun s => (s.clients.lookup 1).bind fun client => client.subOuput.bind fun ch =>
        ((innerPublishTopic .stored (publishX 1) 1).exec s).toOption.map fun p =>
          (ch.isOpen, decide (p.2.toldTo 1 = s.toldTo 1), p.1.toOption)) =
      some (true, true, some 5) := by decide +kernel
  obtain ⟨s, hs, hview⟩ := Option.bind_eq_some_iff.mp hrun
  obtain ⟨client, hc, hview⟩ := Option.bind_eq_some_iff.mp hview
  obtain ⟨ch, hch, hview⟩ := Option.bind_eq_some_iff.mp hview
  obtain ⟨⟨r, s'⟩, hp, hview⟩ := Option.map_eq_some_iff.mp hview
  simp only [Prod.mk.injEq, decide_eq_true_eq] at hview
  obtain ⟨hopen, hsame, hr⟩ := hview
  have hx : (innerPublishTopic .stored (publishX 1) 1).exec s = .ok (.ok 5, s') := by
    rw [eq_ok_of_toOption hp, eq_ok_of_toOption hr]
  obtain ⟨client', topic, a, hanswered⟩ :=
    h s (reachable_stateAfter hs) .stored 1 client ch (publishX 1) 5 s' hc hch hopen hx
  obtain ⟨told, htold, honce⟩ := hanswered.once
  rw [hsame, List.self_eq_append_right] at htold
  rw [htold] at honce
  cases honce

end NetTables.Server
