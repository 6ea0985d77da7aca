import NetTables.Server.Replies
import NetTables.Server.SendTurns

namespace NetTables.Server

open Lib Lib.Fallible Spec

variable {s s' : InnerServer} {o : IterOrder} {c : ClientIdx} {t : TopicIdx} {topic : Topic}
  {client : ConnectedClient} {ch : Outgoing} {pubTopic : PublishTopic}

/-- The announcement is among the messages put on the client's channel. -/
def Learns (s s' : InnerServer) (c : ClientIdx) (a : Announce) : Prop :=
  ∃ told, s'.toldTo c = s.toldTo c ++ told ∧ .announce a ∈ told

/-- What announces topics goes on telling a client of the topics that its subscriptions match. -/
structure StillAnnounced (s : InnerServer) (c : ClientIdx) : Prop where
  subscribe : ∀ o sub now s' name t topic, (subscribe o sub c now).exec s = .ok (.ok (), s') →
    s.topicMap.lookup name = some t → s.topics.lookup t = some topic →
    (subscriptionOf sub).caresAbout name = true →
      ∃ a : Announce, a.name = name ∧ a.id = t.toInt32 ∧ Learns s s' c a
  announce : ∀ o t responseOpt topic s',
    (announceTopic o t responseOpt).exec s = .ok (.ok (), s') →
    s.topics.lookup t = some topic → s.Cares c topic.name → Learns s s' c (announceOf t topic)
  publish : ∀ o pubTopic d t topic s', (innerPublishTopic o pubTopic d).exec s = .ok (.ok t, s') →
    s'.topics.lookup t = some topic → s.Cares c topic.name → Learns s s' c (announceOf t topic)

theorem exists_subscribeType (ht : s.topics.lookup t = some topic) (name : String) :
    ∃ type, subscribeType s name t = some type := by
  unfold subscribeType
  split_ifs
  · exact ⟨"raw", rfl⟩
  · cases s.topicValueMap.lookup t <;> simp [ht]

/-- A topic that is there is announced to whoever subscribes to it. -/
theorem exists_subscribeAnnounce {topics : List (String × TopicIdx)} {name : String}
    (hmem : (name, t) ∈ topics) (ht : s.topics.lookup t = some topic) :
    ∃ a ∈ subscribeAnnounces s topics, a.name = name ∧ a.id = t.toInt32 := by
  obtain ⟨type, htype⟩ := exists_subscribeType ht name
  refine ⟨subscribeAnnounce s name t type, List.mem_filterMap.mpr ⟨_, hmem, ?_⟩, rfl, rfl⟩
  rw [htype, Option.map_some]

/-- A client that is told announcements only learns those. -/
theorem learns_iff {announces : List Announce} {a : Announce}
    (htold : s'.toldTo c = s.toldTo c ++ announces.map .announce) :
    Learns s s' c a ↔ a ∈ announces := by
  constructor
  · intro h
    obtain ⟨told, happ, ha⟩ := h
    rw [htold, List.append_cancel_left_eq] at happ
    rw [← happ] at ha
    simpa using ha
  · exact fun ha => ⟨_, htold, List.mem_map.mpr ⟨a, ha, rfl⟩⟩

theorem learns_subscribe_iff {sub : Subscribe} {now : Instant} {a : Announce} (hopen : s.OpenTo c)
    (hx : (subscribe o sub c now).exec s = .ok (.ok (), s')) :
    Learns s s' c a ↔ a ∈ subscribeAnnounces s (interestOf o s sub) := by
  obtain ⟨client, ch, hc, hch, hopen⟩ := hopen
  have hany : client.subOuput.any Outgoing.isOpen = true := by rw [hch]; exact hopen
  cases ends_of_exec ends_subscribe hx with
  | done r client' hc' hlists hr =>
    rw [hc] at hc'
    cases hc'
    have htold : (s.subscribed o sub c client now).toldTo c = s.toldTo c ++
        (subscribeAnnounces s (interestOf o s sub)).map .announce := by
      have happ := told_append { client with
        subuidToSubidx := client.subuidToSubidx.insert sub.subuid.toUInt32 s.counters.subIdx }
        (subscribeMessages o s sub)
      have htexts : (subscribeMessages o s sub).flatMap OutMessage.texts =
          (subscribeAnnounces s (interestOf o s sub)).map .announce := by
        simp [subscribeMessages, OutMessage.texts]
      rw [if_pos hany, htexts] at happ
      rw [toldTo_insert (s := s) rfl, if_pos rfl, toldTo_of_client hc]
      exact happ
    exact learns_iff htold

theorem learns_subscribe {sub : Subscribe} {now : Instant} {name : String}
    (hopen : s.OpenTo c) (hx : (subscribe o sub c now).exec s = .ok (.ok (), s'))
    (hmap : s.topicMap.lookup name = some t) (ht : s.topics.lookup t = some topic)
    (hcares : (subscriptionOf sub).caresAbout name = true) :
    ∃ a : Announce, a.name = name ∧ a.id = t.toInt32 ∧ Learns s s' c a := by
  obtain ⟨a, ha, hname, hid⟩ :=
    exists_subscribeAnnounce (mem_interestOf.mpr ⟨hmap, hcares⟩) ht
  exact ⟨a, hname, hid, (learns_subscribe_iff hopen hx).mpr ha⟩

theorem learns_of_informed {news news' : News} (h : Informed c client (news ++ news') s s')
    (hc : s.clients.lookup c = some client) (hch : client.subOuput = some ch)
    (hopen : ch.isOpen = true) {a : Announce} (ha : (t, a) ∈ news') : Learns s s' c a := by
  refine ⟨(news ++ news').map fun e => .announce e.2, ?_, ?_⟩
  · rw [toldTo_of_client h.client, toldTo_of_client hc, told_hearsAll hch hopen]
  · exact List.mem_map.mpr ⟨(t, a), List.mem_append_right _ ha, rfl⟩

theorem mem_newsOf (ht : s.topics.lookup t = some topic) (hcares : s.Cares c topic.name) :
    (t, announceOf t topic) ∈ newsOf s t c := by
  rw [newsOf, if_pos ((mem_hearers ht).mpr hcares), ht]
  simp

/-- The registration of a publisher tells nobody anything. -/
theorem ends_register_told {d : ClientIdx} :
    Ends (register pubTopic d t) s fun r s' => (∀ t', r = .ok t' → t' = t) ∧
      s'.topics = s.topics ∧ s'.toldTo c = s.toldTo c := by
  refine ends_mono ends_register_put ?_
  intro r s' h
  obtain ⟨hresult, ⟨-, rfl⟩ | ⟨other, values, hd, rfl⟩⟩ := h
  · exact ⟨hresult, rfl, rfl⟩
  · refine ⟨hresult, rfl, ?_⟩
    rw [toldTo_insert rfl]
    split_ifs with hcd
    · rw [hcd, toldTo_of_client hd]
      rfl
    · rfl

theorem learns_publish {d : ClientIdx} (hopen : s.OpenTo c)
    (hx : (innerPublishTopic o pubTopic d).exec s = .ok (.ok t, s'))
    (ht : s'.topics.lookup t = some topic) (hcares : s.Cares c topic.name) :
    Learns s s' c (announceOf t topic) := by
  obtain ⟨client, ch, hc, hch, hopen⟩ := hopen
  have hends : Ends (innerPublishTopic o pubTopic d) s fun r s' => ∀ t, r = .ok t →
      s'.topics.lookup t = some topic → Learns s s' c (announceOf t topic) := by
    rw [innerPublishTopic_eq]
    refine (ends_bind _ _).mpr (ends_mono (ends_addTopic_informed hc) ?_)
    intro result u hu
    obtain e | t := result
    · exact fun t hr => by cases hr
    obtain ⟨-, hsubs, hu⟩ := hu t rfl
    refine (ends_bind _ _).mpr (ends_mono (ends_announceTopic_news hu) ?_)
    intro result v hv
    obtain e | ⟨⟩ := result
    · exact fun t hr => by cases hr
    obtain ⟨reply, -, hv⟩ := hv rfl
    refine ends_mono (ends_register_told (c := c)) ?_
    intro r s' h t' hr ht
    obtain ⟨hresult, htopics, htold⟩ := h
    obtain rfl := hresult t' hr
    rw [htopics, hv.rest] at ht
    have hcares : u.Cares c topic.name := by
      unfold InnerServer.Cares
      rw [hsubs]
      exact hcares
    refine ⟨(metaNews s (.fromPublishTopic pubTopic) c ++ (reply ++ newsOf u t' c)).map
      fun e => .announce e.2, ?_, ?_⟩
    · rw [htold, toldTo_of_client hv.client, toldTo_of_client hc, ← hearsAll_append,
        told_hearsAll hch hopen]
    · have hmem := mem_newsOf ht hcares
      exact List.mem_map.mpr
        ⟨_, List.mem_append_right _ (List.mem_append_right _ hmem), rfl⟩
  exact ends_of_exec hends hx t rfl ht

theorem stillAnnounced (hopen : s.OpenTo c) : StillAnnounced s c where
  subscribe o sub now s' name t topic hx hmap ht hcares :=
    learns_subscribe hopen hx hmap ht hcares
  announce o t responseOpt topic s' hx ht hcares := by
    obtain ⟨client, ch, hc, hch, hopen⟩ := hopen
    obtain ⟨reply, -, h⟩ := ends_of_exec (ends_announceTopic_news hc) hx rfl
    exact learns_of_informed h hc hch hopen (mem_newsOf ht hcares)
  publish o pubTopic d t topic s' hx ht hcares := learns_publish hopen hx ht hcares

end NetTables.Server
