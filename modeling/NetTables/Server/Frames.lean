import NetTables.Server.DeliveryJournal
import NetTables.Server.TopicJournal
import Mathlib.Data.Finset.Lattice.Lemmas

namespace NetTables.Server

open Lib Lib.Fallible Spec

/-- The value messages of one message. -/
def OutMessage.frames : OutMessage → List ValueFrame
  | .binary frames => frames
  | _ => []

/-- The value messages put on a client's channel, oldest first. -/
def ConnectedClient.frames (client : ConnectedClient) : List ValueFrame :=
  match client.subOuput with
  | some ch => ch.sent.flatMap OutMessage.frames
  | none => []

/-- Two records of one client that differ at most in what it was told of the topics. -/
structure Retold (client client' : ConnectedClient) : Prop where
  identity : client'.identity = client.identity
  killBool : client'.killBool = client.killBool
  publishers : client'.pubuidToTopicidx = client.pubuidToTopicidx
  subscribers : client'.subuidToSubidx = client.subuidToSubidx
  frames : client'.frames = client.frames

/-- A relation that allows what the server does about its topics: to change their tables, as long
as no list gets longer, and to tell clients about them. -/
class Tolerates (R : InnerServer → InnerServer → Prop) : Prop extends IsPreorder InnerServer R where
  tables : ∀ s s', s'.clients = s.clients → s'.clientMap = s.clientMap →
    s'.subscriptions = s.subscriptions → s'.subValues = s.subValues →
    (∀ t i, Listed s'.topicSubMap t i → Listed s.topicSubMap t i) → R s s'
  retold : ∀ s c client client', s.clients.lookup c = some client → Retold client client' →
    R s { s with clients := s.clients.insert c client' }

/-- What a client with an open channel is after a text that announces the topics `ts`. -/
def ConnectedClient.announced (client : ConnectedClient) (ch : Outgoing) (ts : List TopicIdx)
    (announces : List Announce) : ConnectedClient :=
  { client with
    announcedTopics := client.announcedTopics ∪ ts.toFinset
    subOuput := some { ch with sent := ch.sent ++ [.text (announces.map .announce)] } }

/-- A weaker demand: clients are told of topics only as the server does it for a publication or for
a new subscription, with their set of announced topics kept in step, and metatopics stay as they
are. -/
class Announces (R : InnerServer → InnerServer → Prop) : Prop extends IsPreorder InnerServer R where
  tables : ∀ s s', s'.clients = s.clients → s'.clientMap = s.clientMap →
    s'.subscriptions = s.subscriptions → s'.subValues = s.subValues →
    s'.metatopicValueMap = s.metatopicValueMap → s'.clientMetatopicMap = s.clientMetatopicMap →
    (∀ t i, Listed s'.topicSubMap t i → Listed s.topicSubMap t i) → R s s'
  announced : ∀ s c client ch (ts : List TopicIdx) (announces : List Announce),
    s.clients.lookup c = some client → client.subOuput = some ch → ch.isOpen = true →
    announces.map Announce.id = ts.map UInt32.toInt32 →
    R s { s with clients := s.clients.insert c (client.announced ch ts announces) }
  deaf : ∀ s c client announcedTopics, s.clients.lookup c = some client →
    (∀ ch, client.subOuput = some ch → ch.isOpen = false) →
    R s { s with clients := s.clients.insert c { client with announcedTopics } }
  flushed : ∀ s c client ch, s.clients.lookup c = some client → client.subOuput = some ch →
    ch.isOpen = true →
    R s { s with
      clients := s.clients.insert c
        { client with subOuput := some { ch with sent := ch.sent ++ [.flush] } } }
  closed : ∀ s c client, s.clients.lookup c = some client →
    R s { s with
      clients := s.clients.insert c
        { client with subOuput := client.subOuput.map fun ch => { ch with isOpen := false } } }

/-- The same for all that the server does about its topics, metatopics included. -/
class Notifies (R : InnerServer → InnerServer → Prop) : Prop extends Announces R where
  metatopics : ∀ s values owns,
    R s { s with metatopicValueMap := values, clientMetatopicMap := owns }

theorem rel_of_tables {R : InnerServer → InnerServer → Prop} [Notifies R] (s s' : InnerServer)
    (hclients : s'.clients = s.clients) (hmap : s'.clientMap = s.clientMap)
    (hsubs : s'.subscriptions = s.subscriptions) (hvalues : s'.subValues = s.subValues)
    (hlists : ∀ t i, Listed s'.topicSubMap t i → Listed s.topicSubMap t i) : R s s' := by
  have hmetas := Notifies.metatopics (R := R) s s'.metatopicValueMap s'.clientMetatopicMap
  exact trans_of R hmetas (Announces.tables _ _ hclients hmap hsubs hvalues rfl rfl hlists)

theorem retold_announced (client : ConnectedClient) (announcedTopics : Finset TopicIdx) :
    Retold client { client with announcedTopics } := ⟨rfl, rfl, rfl, rfl, rfl⟩

theorem retold_sent {client : ConnectedClient} {ch : Outgoing} {m : OutMessage}
    {announcedTopics : Finset TopicIdx} (hch : client.subOuput = some ch) (hm : m.frames = []) :
    Retold client { client with
      announcedTopics, subOuput := some { ch with sent := ch.sent ++ [m] } } := by
  refine ⟨rfl, rfl, rfl, rfl, ?_⟩
  simp only [ConnectedClient.frames, hch, List.flatMap_append, List.flatMap_cons, List.flatMap_nil,
    hm, List.append_nil]

theorem retold_closed (client : ConnectedClient) :
    Retold client
      { client with subOuput := client.subOuput.map fun ch => { ch with isOpen := false } } := by
  refine ⟨rfl, rfl, rfl, rfl, ?_⟩
  cases h : client.subOuput <;> simp [ConnectedClient.frames, h]

instance {R : InnerServer → InnerServer → Prop} [Tolerates R] : Notifies R where
  tables s s' hclients hmap hsubs hvalues _ _ hlists :=
    Tolerates.tables s s' hclients hmap hsubs hvalues hlists
  announced s c client _ _ _ hc hch _ _ := Tolerates.retold s c client _ hc (retold_sent hch rfl)
  deaf s c client _ hc _ := Tolerates.retold s c client _ hc (retold_announced client _)
  flushed s c client _ hc hch _ := Tolerates.retold s c client _ hc (retold_sent hch rfl)
  closed s c client hc := Tolerates.retold s c client _ hc (retold_closed client)
  metatopics s _ _ := Tolerates.tables s _ rfl rfl rfl rfl fun _ _ h => h

section Composed

variable {R : InnerServer → InnerServer → Prop} {o : IterOrder} {t : TopicIdx} {c : ClientIdx}
  {topic : Topic}

theorem within_updatePublishers_of
    (hvalues : ∀ s values, R s { s with metatopicValueMap := values })
    {f : MetaTopicValue → MetaTopicValue → MetaTopicValue} {pubMte : ClientPublisherMTE} :
    Within R (updatePublishers c f pubMte) := by
  intro s
  refine ends_mono ends_updatePublishers_values ?_
  intro r s' h
  obtain ⟨values, rfl⟩ := h
  exact hvalues s values

variable [IsPreorder InnerServer R]

theorem within_addMetaTopic_of (hinsert : Within R (insertTopic topic)) :
    Within R (addMetaTopic topic) := by
  apply within_bind within_get
  intro s
  cases s.topicMap.lookup topic.name with
  | none => exact hinsert
  | some t => exact within_pure t

theorem within_addTopic_of (hinsert : ∀ topic, Within R (insertTopic topic))
    (hannounce : ∀ t, Within R (announceTopic o t none)) : Within R (addTopic o topic) := by
  apply within_bind within_get
  intro s
  cases s.topicMap.lookup topic.name with
  | some t => exact within_pure t
  | none =>
    apply within_bind (hinsert topic)
    intro t
    split_ifs
    · exact within_pure t
    · apply within_bind (within_addMetaTopic_of (hinsert _))
      intro p
      apply within_bind (hannounce p)
      intro _
      apply within_bind (within_addMetaTopic_of (hinsert _))
      intro q
      exact within_bind (hannounce q) fun _ => within_pure t

theorem within_releasePublisher_of (hcounts : ∀ s counts, R s { s with pubCount := counts })
    (hremove : ∀ t, Within R (removeTopic t)) : Within R (releasePublisher t) := by
  apply within_bind within_get
  intro s
  cases s.pubCount.lookup t with
  | none => exact within_pure ()
  | some count =>
    apply within_bind (within_modify fun s => hcounts s _)
    intro _
    split_ifs
    · exact hremove t
    · exact within_pure ()

/-- The end of `disconnect_client`, once the client is gone. -/
theorem within_released_of (hcounts : ∀ s counts, R s { s with pubCount := counts })
    (hremove : ∀ t, Within R (removeTopic t))
    (howns : ∀ s owns, R s { s with clientMetatopicMap := owns }) {l : List (PubUID × TopicIdx)} :
    Within R (forEach l (fun e => releasePublisher e.2) >>= fun _ =>
      (get : ServerM InnerServer) >>= fun s =>
      (modify fun s => { s with clientMetatopicMap := s.clientMetatopicMap.erase c } :
        ServerM Unit) >>= fun _ =>
      match s.clientMetatopicMap.lookup c with
      | none => pure ()
      | some metaIdxs => removeTopic metaIdxs.1 >>= fun _ => removeTopic metaIdxs.2) := by
  apply within_bind (within_forEach fun _ _ => within_releasePublisher_of hcounts hremove)
  intro _
  apply within_bind within_get
  intro s
  apply within_bind (within_modify fun s => howns s _)
  intro _
  cases s.clientMetatopicMap.lookup c with
  | none => exact within_pure ()
  | some own => exact within_bind (hremove _) fun _ => hremove _

end Composed

section Announces

variable {R : InnerServer → InnerServer → Prop} [Announces R] {s : InnerServer} {o : IterOrder}
  {t : TopicIdx} {c : ClientIdx}

theorem within_flush : Within R (sendOn c .flush) := by
  intro s
  apply ends_sendOn
  · intro r
    exact refl_of R s
  · intro client ch hc hch hopen
    exact Announces.flushed s c client ch hc hch hopen

theorem ends_markAnnounced {client : ConnectedClient}
    {Q : Except NetworkTablesError Unit → InnerServer → Prop}
    (hc : s.clients.lookup c = some client) :
    Ends (markAnnounced c t) s Q ↔ Q (.ok ()) { s with
      clients := s.clients.insert c
        { client with announcedTopics := insert t client.announcedTopics } } := by
  simp only [markAnnounced, ends_bind, ends_get, thenEnds_ok, hc, putClient, ends_modify]

/-- The set of announced topics is written first, and then the text is sent. -/
theorem ends_markAndSend (R : InnerServer → InnerServer → Prop) [Announces R]
    {client : ConnectedClient} (ts : List TopicIdx) (announces : List Announce)
    (hc : s.clients.lookup c = some client)
    (hids : announces.map Announce.id = ts.map UInt32.toInt32) :
    Ends (sendNtMessages c (announces.map .announce)) { s with
        clients := s.clients.insert c
          { client with announcedTopics := client.announcedTopics ∪ ts.toFinset } } fun _ s' =>
      R s s' := by
  have hmarked : ∀ client' : ConnectedClient,
      (s.clients.insert c client').lookup c = some client' := by
    intro client'
    rw [KeyMap.lookup_insert, if_pos rfl]
  refine (ends_sendOn_of_client (hmarked _)).mpr ?_
  dsimp only
  split
  next hch =>
    have hdeaf : ∀ ch, client.subOuput = some ch → ch.isOpen = false := by simp [hch]
    exact Announces.deaf s c client _ hc hdeaf
  next ch hch =>
    split_ifs with hopen
    · rw [AList.insert_insert]
      exact Announces.announced s c client ch ts announces hc hch hopen hids
    · have hdeaf : ∀ ch, client.subOuput = some ch → ch.isOpen = false := by
        simpa [hch] using hopen
      exact Announces.deaf s c client _ hc hdeaf

theorem union_singleton (m : Finset TopicIdx) : m ∪ [t].toFinset = insert t m :=
  Finset.union_singleton t m

theorem within_announceResponse {announceMsg : Announce} {pubuid : PubUID}
    (hid : announceMsg.id = t.toInt32) :
    Within R (announceResponse t announceMsg pubuid c) := by
  intro s
  simp only [announceResponse, ends_bind, ends_get, thenEnds_ok]
  cases hc : s.clients.lookup c with
  | none => exact (ends_throw _).mpr (refl_of R s)
  | some client =>
    dsimp only
    split_ifs
    · exact (ends_pure ()).mpr (refl_of R s)
    -- the text goes out before the set is written
    · refine (ends_bind _ _).mpr ((ends_sendOn_of_client hc).mpr ?_)
      split
      next hch =>
        have hdeaf : ∀ ch, client.subOuput = some ch → ch.isOpen = false := by simp [hch]
        exact (ends_markAnnounced hc).mpr (Announces.deaf s c client _ hc hdeaf)
      next ch hch =>
        split_ifs with hopen
        · rw [thenEnds_ok, ends_markAnnounced (by rw [KeyMap.lookup_insert, if_pos rfl]),
            AList.insert_insert]
          have h := Announces.announced (R := R) s c client ch [t]
            [{ announceMsg with pubuid := some pubuid.toInt32 }] hc hch hopen (by simp [hid])
          rw [ConnectedClient.announced, union_singleton] at h
          exact h
        · exact refl_of R s

theorem within_announceSubscriber {announceMsg : Announce} (hid : announceMsg.id = t.toInt32) :
    Within R (announceSubscriber t announceMsg c) := by
  intro s
  simp only [announceSubscriber, ends_bind, ends_get, thenEnds_ok]
  cases hc : s.clients.lookup c with
  | none => exact (ends_pure ()).mpr (refl_of R s)
  | some client =>
    dsimp only
    rw [ends_bind, ends_markAnnounced hc, thenEnds_ok]
    have h := ends_markAndSend R [t] [announceMsg] hc (by simp [hid])
    rw [union_singleton] at h
    exact h

theorem within_announceTopic {responseOpt : Option (PubUID × ClientIdx)} :
    Within R (announceTopic o t responseOpt) := by
  apply within_bind within_get
  intro s
  apply within_bind (within_okOr _ _)
  intro topic
  have hloop : ∀ s : InnerServer, Within R (forEach (o.arrange (clientsToNotify s topic.name))
      (announceSubscriber t (announceOf t topic))) :=
    fun s => within_forEach fun _ _ => within_announceSubscriber rfl
  cases responseOpt with
  | none => exact within_bind within_get hloop
  | some response =>
    exact within_bind (within_announceResponse rfl) fun _ => within_bind within_get hloop

theorem within_insertTopic {topic : Topic} : Within R (insertTopic topic) := by
  intro s
  refine ends_insertTopic.mpr (Announces.tables _ _ rfl rfl rfl rfl rfl rfl fun u i hi => ?_)
  obtain ⟨subs, hl, hmem⟩ := hi
  simp only [InnerServer.withTopic, KeyMap.lookup_insert] at hl
  split_ifs at hl
  · cases hl
    cases hmem
  · exact ⟨subs, hl, hmem⟩

theorem within_addMetaTopic {topic : Topic} : Within R (addMetaTopic topic) :=
  within_addMetaTopic_of within_insertTopic

theorem within_addTopic {topic : Topic} : Within R (addTopic o topic) :=
  within_addTopic_of (fun _ => within_insertTopic) fun _ => within_announceTopic

theorem within_setProperties {msg : SetProperties} : Within R (setProperties msg) := by
  apply within_bind within_get
  intro s
  apply within_bind (within_okOr _ _)
  intro t
  apply within_bind within_get
  intro s
  apply within_bind (within_okOr _ _)
  intro topic
  exact within_modify fun s => Announces.tables _ _ rfl rfl rfl rfl rfl rfl fun _ _ h => h

/-- The announcements that `announce_all_topics_for` makes of the topics it has found. -/
theorem announces_of_found (l : List (String × TopicIdx))
    (hl : ∀ e ∈ l, (s.topics.lookup e.2).isSome) :
    ∃ announces : List Announce,
      (l.filterMap fun e => (s.topics.lookup e.2).map fun topic =>
        NTMessage.announce { announceOf e.2 topic with name := e.1 }) = announces.map .announce ∧
      announces.map Announce.id = (l.map Prod.snd).map UInt32.toInt32 := by
  induction l with
  | nil => exact ⟨[], rfl, rfl⟩
  | cons e l ih =>
    obtain ⟨topic, ht⟩ := Option.isSome_iff_exists.mp (hl e (List.mem_cons_self ..))
    obtain ⟨announces, htexts, hids⟩ := ih fun f hf => hl f (List.mem_cons_of_mem _ hf)
    refine ⟨{ announceOf e.2 topic with name := e.1 } :: announces, ?_, ?_⟩
    · rw [List.filterMap_cons, ht, htexts]
      rfl
    · rw [List.map_cons, hids]
      rfl

theorem within_announceAllTopicsFor {i : SubIdx} : Within R (announceAllTopicsFor o i) := by
  intro s
  simp only [announceAllTopicsFor, ends_bind, ends_get, thenEnds_ok, ends_okOr, thenEnds_error,
    putClient, ends_modify]
  refine ⟨fun entry _ => ⟨fun client hc => ?_, fun _ => refl_of R s⟩, fun _ => refl_of R s⟩
  let cared := (o.walk s.topicMap).filter fun e =>
    entry.1.caresAbout e.1 && (s.topics.lookup e.2).isSome
  have hfound : ∀ e ∈ cared, (s.topics.lookup e.2).isSome := by
    intro e he
    have hboth := (List.mem_filter.mp he).2
    simp only [Bool.and_eq_true] at hboth
    exact hboth.2
  obtain ⟨announces, htexts, hids⟩ := announces_of_found cared hfound
  rw [htexts]
  exact ends_markAndSend R (cared.map Prod.snd) announces hc hids

/-- What `un_announce_topics` does about one client, which may be told that the topic is gone. -/
theorem within_unAnnounceTo {name : String}
    (hretracted : ∀ s client ch, s.clients.lookup c = some client → client.subOuput = some ch →
      ch.isOpen = true → R s { s with
        clients := s.clients.insert c { client with
          announcedTopics := client.announcedTopics.erase t
          subOuput := some { ch with sent := ch.sent ++ [.text [.unAnnounce ⟨name, t⟩]] } } }) :
    Within R (unAnnounceTo name t c) := by
  intro s
  simp only [unAnnounceTo, ends_bind, ends_get, thenEnds_ok]
  cases hc : s.clients.lookup c with
  | none => exact (ends_pure ()).mpr (refl_of R s)
  | some client =>
    dsimp only
    split_ifs
    · simp only [putClient, ends_bind, ends_modify, thenEnds_ok]
      refine (ends_sendOn_of_client (by rw [KeyMap.lookup_insert, if_pos rfl])).mpr ?_
      dsimp only
      split
      next hch =>
        have hdeaf : ∀ ch, client.subOuput = some ch → ch.isOpen = false := by simp [hch]
        exact Announces.deaf s c client _ hc hdeaf
      next ch hch =>
        split_ifs with hopen
        · rw [AList.insert_insert]
          exact hretracted s client ch hc hch hopen
        · have hdeaf : ∀ ch, client.subOuput = some ch → ch.isOpen = false := by
            simpa [hch] using hopen
          exact Announces.deaf s c client _ hc hdeaf
    · exact (ends_pure ()).mpr (refl_of R s)

theorem within_unAnnounceTopics {name : String}
    (hretracted : ∀ c s client ch, s.clients.lookup c = some client → client.subOuput = some ch →
      ch.isOpen = true → R s { s with
        clients := s.clients.insert c { client with
          announcedTopics := client.announcedTopics.erase t
          subOuput := some { ch with sent := ch.sent ++ [.text [.unAnnounce ⟨name, t⟩]] } } }) :
    Within R (unAnnounceTopics o name t) :=
  within_bind within_get fun _ => within_forEach fun c _ => within_unAnnounceTo (hretracted c)

theorem within_flushAll : Within R (flushAll o) :=
  within_bind within_get fun _ => within_forEach fun _ _ => within_flush

theorem within_flushClient : Within R (flushClient c) :=
  within_bind within_get fun _ => within_bind (within_okOr _ _) fun _ => within_flush

theorem within_closeChannel : Within R (closeChannel c) := by
  intro s
  simp only [closeChannel, ends_bind, ends_get, thenEnds_ok]
  cases hc : s.clients.lookup c with
  | none => exact (ends_pure ()).mpr (refl_of R s)
  | some client => exact (ends_modify _).mpr (Announces.closed s c client hc)

end Announces

section Notifies

variable {R : InnerServer → InnerServer → Prop} [Notifies R] {s : InnerServer} {o : IterOrder}
  {t : TopicIdx} {c : ClientIdx}

/-- A write to tables that are neither lists nor about clients. -/
theorem within_write {f : InnerServer → InnerServer} (hclients : ∀ s, (f s).clients = s.clients)
    (hmap : ∀ s, (f s).clientMap = s.clientMap) (hsubs : ∀ s, (f s).subscriptions = s.subscriptions)
    (hvalues : ∀ s, (f s).subValues = s.subValues)
    (hlists : ∀ s, (f s).topicSubMap = s.topicSubMap) :
    Within R (modify f : ServerM Unit) := by
  apply within_modify
  intro s
  refine rel_of_tables s (f s) (hclients s) (hmap s) (hsubs s) (hvalues s) fun t i hi => ?_
  rwa [hlists s] at hi

theorem within_updatePublishers {f : MetaTopicValue → MetaTopicValue → MetaTopicValue}
    {pubMte : ClientPublisherMTE} : Within R (updatePublishers c f pubMte) :=
  within_updatePublishers_of fun s _ => rel_of_tables s _ rfl rfl rfl rfl fun _ _ h => h

theorem within_removeTopic : Within R (removeTopic t) := by
  intro s
  refine ends_removeTopic.mpr ⟨fun _ => refl_of R s, fun topic _ => ⟨fun _ => ?_, fun p _ =>
    ⟨fun _ => ?_, fun q _ => ?_⟩⟩⟩
  · exact rel_of_tables _ _ rfl rfl rfl rfl fun _ _ hi => hi
  · exact rel_of_tables _ _ rfl rfl rfl rfl fun _ _ hi => hi
  · refine rel_of_tables _ _ rfl rfl rfl rfl fun u i hi => ?_
    exact (listed_erase.mp (listed_erase.mp (listed_erase.mp hi).2).2).2

/-- The publication by a client whose own record may take the registration. -/
theorem within_innerPublishTopic {pubTopic : PublishTopic}
    (hown : ∀ s client t, s.clients.lookup c = some client →
      R s { s with
        clients := s.clients.insert c
          { client with
            pubuidToTopicidx := client.pubuidToTopicidx.insert pubTopic.pubuid t } }) :
    Within R (innerPublishTopic o pubTopic c) := by
  apply within_bind within_addTopic
  intro t
  apply within_bind within_announceTopic
  intro _ s
  simp only [ends_bind, ends_get, thenEnds_ok, ends_okOr, thenEnds_error, putClient, ends_modify]
  refine ⟨fun client hc => ?_, fun _ => refl_of R s⟩
  have hrest : Within R (updatePublishers c .merge ⟨pubTopic.name, pubTopic.pubuid⟩ >>= fun _ =>
      (pure t : ServerM TopicIdx)) := within_bind within_updatePublishers fun _ => within_pure t
  rw [← ends_bind]
  exact ends_mono (hrest _) fun _ _ h => trans_of R (hown s client t hc) h

/-- The end of a publication, where the client's own record may lose the registration. -/
theorem within_innerUnpublishTopic {pubTopic : UnpublishTopic}
    (hown : ∀ s client, s.clients.lookup c = some client →
      R s { s with
        clients := s.clients.insert c
          { client with
            pubuidToTopicidx := client.pubuidToTopicidx.removeByLeft pubTopic.pubuid } }) :
    Within R (innerUnpublishTopic pubTopic c) := by
  intro s
  simp only [innerUnpublishTopic, ends_bind, ends_get, thenEnds_ok, ends_okOr, thenEnds_error,
    putClient, ends_modify]
  refine ⟨fun client hc => ⟨fun t _ => ⟨fun count _ => ?_, fun _ => ?_⟩, fun _ => ?_⟩,
    fun _ => refl_of R s⟩
  · have hlow : Within R (modify fun s => { s with pubCount := s.pubCount.insert t (count - 1) } :
        ServerM Unit) :=
      within_write (fun _ => rfl) (fun _ => rfl) (fun _ => rfl) (fun _ => rfl) fun _ => rfl
    have hstart := trans_of R (hown s client hc) ((ends_modify _).mp (hlow _))
    split_ifs
    · have hrest : ∀ pubMte : ClientPublisherMTE, Within R (removeTopic t >>= fun _ =>
          (modify fun s => { s with pubCount := s.pubCount.erase t } : ServerM Unit) >>= fun _ =>
            updatePublishers c .reduce pubMte) := by
        intro pubMte
        apply within_bind within_removeTopic
        intro _
        apply within_bind _ fun _ => within_updatePublishers
        exact within_write (fun _ => rfl) (fun _ => rfl) (fun _ => rfl) (fun _ => rfl) fun _ => rfl
      exact ends_mono (hrest _ _) fun _ _ h => trans_of R hstart h
    · exact ends_mono (within_updatePublishers _) fun _ _ h => trans_of R hstart h
  · exact hown s client hc
  · exact refl_of R s

/-- A connection, where the new client may take its place. -/
theorem within_connectClient {identity : ClientIdentity}
    (hjoined : ∀ s named, R s (s.withClient named)) : Within R (connectClient o identity) := by
  intro s
  refine ends_connectClient.mpr ?_
  split_ifs
  · exact refl_of R s
  · let named := uniqueIdentity s identity
    have hentry : R (s.withClient named) ((s.withClient named).withClientEntry named) :=
      rel_of_tables _ _ rfl rfl rfl rfl fun _ _ h => h
    have hensure : ∀ u topic, R u (ensureTopic u topic).2 :=
      fun u topic => ends_addMetaTopic.mp (within_addMetaTopic u)
    have hown : ∀ u name, R u (ensureOwnMetatopics u name).2 :=
      fun u name => trans_of R (hensure u (.newMeta (clientPubName name))) (hensure _ _)
    have hlast : ∀ (u : InnerServer) own, R u { u with clientMetatopicMap := own } :=
      fun u own => rel_of_tables _ _ rfl rfl rfl rfl fun _ _ h => h
    have hnew := trans_of R (hjoined s named) hentry
    exact trans_of R (trans_of R hnew (hown _ named.name)) (hlast _ _)

/-- What `disconnect_client` does once the client is gone. -/
theorem within_released {l : List (PubUID × TopicIdx)} :
    Within R (forEach l (fun e => releasePublisher e.2) >>= fun _ =>
      (get : ServerM InnerServer) >>= fun s =>
      (modify fun s => { s with clientMetatopicMap := s.clientMetatopicMap.erase c } :
        ServerM Unit) >>= fun _ =>
      match s.clientMetatopicMap.lookup c with
      | none => pure ()
      | some metaIdxs => removeTopic metaIdxs.1 >>= fun _ => removeTopic metaIdxs.2) :=
  within_released_of (fun s _ => rel_of_tables s _ rfl rfl rfl rfl fun _ _ h => h)
    (fun _ => within_removeTopic) fun s _ => rel_of_tables s _ rfl rfl rfl rfl fun _ _ h => h

/-- A disconnection, where the client may leave its place. -/
theorem within_disconnectClient {ident : ClientIdentity}
    (hmap : ∀ u : InnerServer, R u { u with clientMap := u.clientMap.erase ident })
    (hleft : ∀ (u : InnerServer) c client, R u { u with
      clients := u.clients.erase c
      departed := client :: u.departed }) : Within R (disconnectClient o ident) := by
  apply within_bind within_get
  intro s
  apply within_bind (within_okOr _ _)
  intro c
  apply within_bind (within_modify hmap)
  intro _
  apply within_bind within_get
  intro s
  apply within_bind (within_okOr _ _)
  intro client
  apply within_bind (within_modify fun u => hleft u c _)
  intro _
  exact within_released

end Notifies

/-- The value messages on the channel of a client. -/
def InnerServer.framesOn (s : InnerServer) (c : ClientIdx) : List ValueFrame :=
  match s.clients.lookup c with
  | some client => client.frames
  | none => []

/-- What an operation leaves that handles neither subscriptions nor values: the subscriptions, their
queues, and every channel's value messages, unless the client goes with its channel. -/
structure Calm (s s' : InnerServer) : Prop where
  subscriptions : s'.subscriptions = s.subscriptions
  values : s'.subValues = s.subValues
  frames : ∀ c, s'.framesOn c = s.framesOn c ∨ s'.framesOn c = []
  listed : ∀ t i, Listed s'.topicSubMap t i → Listed s.topicSubMap t i

theorem framesOn_insert {s : InnerServer} {c d : ClientIdx} {client : ConnectedClient} :
    ({ s with clients := s.clients.insert c client } : InnerServer).framesOn d =
      if d = c then client.frames else s.framesOn d := by
  simp only [InnerServer.framesOn, KeyMap.lookup_insert]
  split_ifs <;> rfl

instance : Tolerates Calm where
  refl s := ⟨rfl, rfl, fun _ => .inl rfl, fun _ _ h => h⟩
  trans s s' s'' h h' := by
    refine ⟨h'.subscriptions.trans h.subscriptions, h'.values.trans h.values, fun c => ?_,
      fun t i hi => h.listed t i (h'.listed t i hi)⟩
    rcases h'.frames c with heq | hnil
    · rw [heq]
      exact h.frames c
    · exact .inr hnil
  tables s s' hclients _ hsubs hvalues hlists := by
    refine ⟨hsubs, hvalues, fun c => .inl ?_, hlists⟩
    simp only [InnerServer.framesOn, hclients]
  retold s c client client' hc h := by
    refine ⟨rfl, rfl, fun d => .inl ?_, fun _ _ h => h⟩
    rw [framesOn_insert]
    split_ifs with hd
    · rw [hd, h.frames, InnerServer.framesOn, hc]
    · rfl

section Calm

variable {s : InnerServer} {o : IterOrder}

theorem calm_put {c : ClientIdx} {client client' : ConnectedClient}
    (hc : s.clients.lookup c = some client) (hframes : client'.frames = client.frames) :
    Calm s { s with clients := s.clients.insert c client' } := by
  refine ⟨rfl, rfl, fun d => .inl ?_, fun _ _ h => h⟩
  rw [framesOn_insert]
  split_ifs with hd
  · rw [hd, hframes, InnerServer.framesOn, hc]
  · rfl

theorem calm_connectClient (identity : ClientIdentity) : Within Calm (connectClient o identity) := by
  apply within_connectClient
  -- the new client starts with an empty channel
  intro s named
  refine ⟨rfl, rfl, fun d => ?_, fun _ _ h => h⟩
  have hframes : (s.withClient named).framesOn d =
      if d = s.counters.clientIdx then [] else s.framesOn d := framesOn_insert
  rw [hframes]
  split_ifs
  · exact .inr rfl
  · exact .inl rfl

theorem calm_disconnectClient (ident : ClientIdentity) : Within Calm (disconnectClient o ident) := by
  apply within_disconnectClient
  · exact fun u => ⟨rfl, rfl, fun _ => .inl rfl, fun _ _ h => h⟩
  · intro u c client
    refine ⟨rfl, rfl, fun d => ?_, fun _ _ h => h⟩
    simp only [InnerServer.framesOn, KeyMap.lookup_erase]
    split_ifs
    · exact .inr rfl
    · exact .inl rfl

/-- The operations that handle subscriptions or values. -/
def Op.Handles : Op → Prop
  | .subscribe _ _ _ | .unsubscribe _ _ | .setValue _ _ | .sendOut _ _ => True
  | _ => False

theorem calm_perform (op : Op) (hop : ¬op.Handles) : Within Calm (op.perform o) := by
  cases op with
  | connectClient identity => exact within_ignoring (calm_connectClient identity)
  | disconnectClient ident => exact calm_disconnectClient ident
  | innerPublishTopic pubTopic c =>
    exact within_ignoring (within_innerPublishTopic fun _ _ _ hc => calm_put hc rfl)
  | innerUnpublishTopic pubTopic c =>
    exact within_innerUnpublishTopic fun _ _ hc => calm_put hc rfl
  | setProperties msg => exact within_setProperties
  | announceTopic t responseOpt => exact within_announceTopic
  | announceAllTopicsFor i => exact within_announceAllTopicsFor
  | unAnnounceTopics name t =>
    apply within_unAnnounceTopics
    exact fun c s client ch hc hch _ => calm_put hc (retold_sent hch rfl).frames
  | flushAll => exact within_flushAll
  | flushClient c => exact within_flushClient
  | closeChannel c => exact within_closeChannel
  | subscribe | unsubscribe | setValue | sendOut => exact (hop trivial).elim

end Calm

end NetTables.Server
