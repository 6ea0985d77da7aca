import NetTables.Server.State

namespace NetTables.Server

open Lib Lib.Fallible Spec

def topicMissing (topicIdx : TopicIdx) (what : String) : NetworkTablesError :=
  .serverError (.topicDoesNotExist s!"topic idx {topicIdx} could not be {what} [did not exist]")

def metatopicMissing (topicIdx : TopicIdx) : NetworkTablesError :=
  .serverError (.topicDoesNotExist
    s!"metatopic idx {topicIdx} could not be removed [did not exist]")

def clientMissing (clientIdx : ClientIdx) : NetworkTablesError :=
  .serverError (.clientDoesNotExist s!"Client id: {clientIdx}")

def ownMetatopicMissing (clientIdx : ClientIdx) : NetworkTablesError :=
  .serverError (.topicDoesNotExist s!"Client id {clientIdx} metatopic did not exist")

/-- The reply of `announce_topic` to the publisher, left out if the topic was announced to it. -/
def announceResponse (topicIdx : TopicIdx) (announceMsg : Announce) (pubuid : PubUID)
    (clientIdx : ClientIdx) : ServerM Unit := do
  match (← get).clients.lookup clientIdx with
  | none => throw (.serverError (.clientDoesNotExist
      s!"client idx {clientIdx} could not be announced to [did not exist]"))
  | some client =>
    if topicIdx ∈ client.announcedTopics then
      pure ()
    else
      sendNtMessages clientIdx [.announce { announceMsg with pubuid := some pubuid.toInt32 }]
      markAnnounced clientIdx topicIdx

/-- One turn of the last loop of `announce_topic`. -/
def announceSubscriber (topicIdx : TopicIdx) (announceMsg : Announce) (clientIdx : ClientIdx) :
    ServerM Unit := do
  match (← get).clients.lookup clientIdx with
  | none => pure ()
  | some _ =>
    markAnnounced clientIdx topicIdx
    sendNtMessages clientIdx [.announce announceMsg]

/-- The writes that put a new topic under a fresh index. -/
def insertTopic (topic : Topic) : ServerM TopicIdx := do
  let (topicIdx, counters) := (← get).counters.nextTopicIdx
  modify fun s => { s with counters }
  let count : UInt16 := if topic.hasImplicitPublisher then 2 else 1
  modify fun s => { s with topics := s.topics.insert topicIdx topic }
  modify fun s => { s with pubCount := s.pubCount.insert topicIdx count }
  modify fun s => { s with topicMap := s.topicMap.insert topic.name topicIdx }
  modify fun s => { s with topicSubMap := s.topicSubMap.insert topicIdx [] }
  pure topicIdx

def removeTopic (topicIdx : TopicIdx) : ServerM Unit := do
  let topic ← okOr ((← get).topics.lookup topicIdx) (topicMissing topicIdx "removed")
  modify fun s => { s with topics := s.topics.erase topicIdx }
  let metaPubIdx ← okOr ((← get).topicMap.lookup (metaPubName topic.name))
    (metatopicMissing topicIdx)
  modify fun s => { s with topicMap := s.topicMap.erase (metaPubName topic.name) }
  let metaSubIdx ← okOr ((← get).topicMap.lookup (metaSubName topic.name))
    (metatopicMissing topicIdx)
  modify fun s => { s with topicMap := s.topicMap.erase (metaSubName topic.name) }
  modify fun s => { s with topicMap := s.topicMap.erase topic.name }
  modify fun s => { s with topics := (s.topics.erase metaPubIdx).erase metaSubIdx }
  --cleanse topic sub map
  modify fun s => { s with
    topicSubMap := ((s.topicSubMap.erase topicIdx).erase metaPubIdx).erase metaSubIdx }
  --cleanse topic value map
  modify fun s => { s with
    topicValueMap := s.topicValueMap.erase topicIdx
    metatopicValueMap := (s.metatopicValueMap.erase metaPubIdx).erase metaSubIdx }

section Operations

variable (o : IterOrder)

/-- The announcement of a topic to every subscriber, after the reply to its publisher. -/
def announceTopic (topicIdx : TopicIdx) (responseOpt : Option (PubUID × ClientIdx)) :
    ServerM Unit := do
  let topic ← okOr ((← get).topics.lookup topicIdx) (topicMissing topicIdx "announced")
  let announceMsg := announceOf topicIdx topic
  match responseOpt with
  | none => pure ()
  | some (pubuid, clientIdx) => announceResponse topicIdx announceMsg pubuid clientIdx
  forEach (o.arrange (clientsToNotify (← get) topic.name)) (announceSubscriber topicIdx announceMsg)

/-- `add_topic` where it does not call itself: for a metatopic, whose name has a `$`. -/
def addMetaTopic (topic : Topic) : ServerM TopicIdx := do
  match (← get).topicMap.lookup topic.name with
  | some topicIdx => pure topicIdx
  | none => insertTopic topic

def addTopic (topic : Topic) : ServerM TopicIdx := do
  match (← get).topicMap.lookup topic.name with
  | some topicIdx => pure topicIdx
  | none =>
    let topicIdx ← insertTopic topic
    --metatopics don't make it past this point
    if hasDollar topic.name then
      pure topicIdx
    else
      announceTopic o (← addMetaTopic (.newMeta (metaPubName topic.name))) none
      announceTopic o (← addMetaTopic (.newMeta (metaSubName topic.name))) none
      pure topicIdx

/-- `metatopic_value_map.entry(key).or_insert_with(empty)`, then one update of the value. -/
def updateMetaValue (key : TopicIdx) (empty : MetaTopicValue)
    (f : MetaTopicValue → MetaTopicValue) : ServerM Unit :=
  modify fun s => { s with
    metatopicValueMap :=
      s.metatopicValueMap.insert key (f ((s.metatopicValueMap.lookup key).getD empty)) }

/-- Clients whose name contains the wanted one, the server's own client included. The source counts
them in an `i32`, which holds as long as fewer than 2^31 of them do. -/
def instancesOfIdent (s : InnerServer) (identity : ClientIdentity) : Nat :=
  s.clients.pairs.countP fun e => decide (identity.name.toList <:+: e.2.identity.name.toList)

/-- The identity that a connecting client is given. -/
def uniqueIdentity (s : InnerServer) (identity : ClientIdentity) : ClientIdentity :=
  let instances := instancesOfIdent s identity
  if 0 < instances then identity.updateName s!"{identity.name}@{instances}" else identity

/-- The list of publishers of the server or of a client, brought up to date by `merge` or `reduce`. -/
def updatePublishers (clientIdx : ClientIdx) (f : MetaTopicValue → MetaTopicValue → MetaTopicValue)
    (pubMte : ClientPublisherMTE) : ServerM Unit := do
  if clientIdx = serverClientIdx then
    updateMetaValue serverPubMetatopic (.serverPublisher []) (f · (.serverPublisher [pubMte]))
  else
    let (pubIdx, _) ← okOr ((← get).clientMetatopicMap.lookup clientIdx)
      (ownMetatopicMissing clientIdx)
    updateMetaValue pubIdx (.clientPublisher []) (f · (.clientPublisher [pubMte]))

def connectClient (identity : ClientIdentity) : ServerM (ClientIdentity × ClientIdx) := do
  if ((← get).clientMap.lookup identity).isSome then
    throw (.serverError (.clientAlreadyExists identity.display))
  else
    let identity := uniqueIdentity (← get) identity
    let (idx, counters) := (← get).counters.nextClientIdx
    modify fun s => { s with counters }
    putClient idx (.new identity)
    modify fun s => { s with clientMap := s.clientMap.insert identity idx }
    --add client data to the respective $clients metatopic
    updateMetaValue clientMetatopic (.client []) (·.merge (.client [identity.toMte]))
    let pubIdx ← addTopic o (.newMeta (clientPubName identity.name))
    let subIdx ← addTopic o (.newMeta (clientSubName identity.name))
    modify fun s => { s with clientMetatopicMap := s.clientMetatopicMap.insert idx (pubIdx, subIdx) }
    pure (identity, idx)

/-- One turn of the loop of `disconnect_client`; `-= 1` on a `u16` wraps. -/
def releasePublisher (topicIdx : TopicIdx) : ServerM Unit := do
  match (← get).pubCount.lookup topicIdx with
  | none => pure ()
  | some count =>
    modify fun s => { s with pubCount := s.pubCount.insert topicIdx (count - 1) }
    if count - 1 = 0 then removeTopic topicIdx else pure ()

def disconnectClient (ident : ClientIdentity) : ServerM Unit := do
  let idx ← okOr ((← get).clientMap.lookup ident)
    (.serverError (.clientDoesNotExist ident.display))
  modify fun s => { s with clientMap := s.clientMap.erase ident }
  let client ← okOr ((← get).clients.lookup idx)
    (.serverError (.clientDoesNotExist ident.display))
  modify fun s => { s with
    clients := s.clients.erase idx
    departed := { client with killBool := true } :: s.departed }
  forEach (o.walk client.pubuidToTopicidx.iterLr) fun e => releasePublisher e.2
  let metaIdxs := (← get).clientMetatopicMap.lookup idx
  modify fun s => { s with clientMetatopicMap := s.clientMetatopicMap.erase idx }
  match metaIdxs with
  | none => pure ()
  | some metaIdxs => do
    removeTopic metaIdxs.1
    removeTopic metaIdxs.2

def innerPublishTopic (pubTopic : PublishTopic) (clientIdx : ClientIdx) : ServerM TopicIdx := do
  let pubMte : ClientPublisherMTE := ⟨pubTopic.name, pubTopic.pubuid⟩
  let topicIdx ← addTopic o (.fromPublishTopic pubTopic)
  announceTopic o topicIdx (some (pubTopic.pubuid, clientIdx))
  --add the pubuid to the client's pubuid_to_topicidx map
  let client ← okOr ((← get).clients.lookup clientIdx) (clientMissing clientIdx)
  putClient clientIdx
    { client with pubuidToTopicidx := client.pubuidToTopicidx.insert pubTopic.pubuid topicIdx }
  --update metatopics
  updatePublishers clientIdx .merge pubMte
  pure topicIdx

end Operations

def innerUnpublishTopic (pubTopic : UnpublishTopic) (clientIdx : ClientIdx) : ServerM Unit := do
  let client ← okOr ((← get).clients.lookup clientIdx) (clientMissing clientIdx)
  let topicIdx ← okOr (client.pubuidToTopicidx.getByLeft pubTopic.pubuid)
    (.serverError (.topicDoesNotExist
      s!"pubuid {pubTopic.pubuid} for client {clientIdx} related topic did not exist"))
  putClient clientIdx
    { client with pubuidToTopicidx := client.pubuidToTopicidx.removeByLeft pubTopic.pubuid }
  let pubMte : ClientPublisherMTE :=
    ⟨(((← get).topics.lookup topicIdx).map Topic.name).getD "", pubTopic.pubuid⟩
  --reduces the pub count for the topic, if reaches 0 remove the topic
  let count ← okOr ((← get).pubCount.lookup topicIdx)
    (.serverError (.topicDoesNotExist s!"Topic idx {topicIdx} did not exist in pub_count"))
  modify fun s => { s with pubCount := s.pubCount.insert topicIdx (count - 1) }
  if count - 1 = 0 then
    removeTopic topicIdx
    modify fun s => { s with pubCount := s.pubCount.erase topicIdx }
    updatePublishers clientIdx .reduce pubMte
  else
    updatePublishers clientIdx .reduce pubMte

/-- The type that `subscribe` announces; `none` is where it goes on to the next topic. -/
def subscribeType (s : InnerServer) (topicName : String) (topicIdx : TopicIdx) : Option String :=
  if hasDollar topicName then
    some "raw"
  else
    match s.topicValueMap.lookup topicIdx with
    | some timestampedValue => some timestampedValue.value.getType.stringify
    | none => (s.topics.lookup topicIdx).map Topic.type

def subscribeAnnounce (s : InnerServer) (topicName : String) (topicIdx : TopicIdx)
    (type : String) : Announce where
  name := topicName
  id := topicIdx.toInt32
  type := type
  pubuid := none
  properties := ((s.topics.lookup topicIdx).bind Topic.properties).getD {}

/-- The value `subscribe` sends along with the announcement. -/
def initialFrame (s : InnerServer) (topicIdx : TopicIdx) : List ValueFrame :=
  ((s.topicValueMap.lookup topicIdx).map fun value => ⟨topicIdx.toInt32, value⟩).toList

/-- One turn of the loop of `subscribe` over the topics of interest. -/
def subscribeTopic (subIdx : SubIdx) (acc : List NTMessage × List ValueFrame)
    (topic : String × TopicIdx) : ServerM (List NTMessage × List ValueFrame) := do
  let s ← get
  let vectr ← okOr (s.topicSubMap.lookup topic.2)
    (.serverError (.topicDoesNotExist s!"Topic id: {topic.2}"))
  modify fun s => { s with topicSubMap := s.topicSubMap.insert topic.2 (vectr ++ [subIdx]) }
  match subscribeType s topic.1 topic.2 with
  | none => pure acc
  | some type =>
    pure (acc.1 ++ [.announce (subscribeAnnounce s topic.1 topic.2 type)],
      acc.2 ++ initialFrame s topic.2)

/-- `now` is the clock reading the subscription starts its period with. -/
def subscribe (o : IterOrder) (sub : Subscribe) (clientIdx : ClientIdx) (now : Instant) :
    ServerM Unit := do
  let client ← okOr ((← get).clients.lookup clientIdx) (clientMissing clientIdx)
  let subscription : Subscription := ⟨sub.subuid, sub.topics, sub.options⟩
  let interestedTopics :=
    (o.walk (← get).topicMap).filter fun topicEntry => subscription.caresAbout topicEntry.1
  let (subIdx, counters) := (← get).counters.nextSubIdx
  modify fun s => { s with counters }
  let (announceMsgs, sendValues) ← foldEach interestedTopics ([], []) (subscribeTopic subIdx)
  modify fun s => { s with subSendTimestamps := s.subSendTimestamps.insert subIdx now }
  let stored := if subscription.getOptions.all.getD false then StoredSubValue.newAll else .newOne
  modify fun s => { s with subValues := s.subValues.insert subIdx stored }
  modify fun s => { s with
    subscriptions := s.subscriptions.insert subIdx (subscription, clientIdx) }
  putClient clientIdx
    { client with subuidToSubidx := client.subuidToSubidx.insert sub.subuid.toUInt32 subIdx }
  sendNtMessages clientIdx announceMsgs
  sendBinary clientIdx sendValues

def unsubscribe (unsub : Unsubscribe) (clientIdx : ClientIdx) : ServerM Unit := do
  let client ← okOr ((← get).clients.lookup clientIdx) (clientMissing clientIdx)
  let subidx ← okOr (client.subuidToSubidx.getByLeft unsub.subuid.toUInt32)
    (.serverError (.subscriptionDoesNotExist s!"Subuid: {unsub.subuid}"))
  putClient clientIdx
    { client with subuidToSubidx := client.subuidToSubidx.removeByLeft unsub.subuid.toUInt32 }
  modify fun s => { s with
    topicSubMap := s.topicSubMap.mapValues fun vectr => vectr.filter fun elem => elem ≠ subidx }
  modify fun s => { s with subscriptions := s.subscriptions.erase subidx }
  modify fun s => { s with subValues := s.subValues.erase subidx }
  modify fun s => { s with subSendTimestamps := s.subSendTimestamps.erase subidx }

/-- The properties after an update; what the update leaves out stays. -/
def updatedProperties (properties : Option PublishProperties) (update : PublishProperties) :
    PublishProperties :=
  match properties with
  | none => update
  | some properties =>
    { persistent := update.persistent.or properties.persistent
      retained := update.retained.or properties.retained }

def setProperties (msg : SetProperties) : ServerM Unit := do
  let topicIdx ← okOr ((← get).topicMap.lookup msg.name)
    (.serverError (.topicDoesNotExist msg.name))
  let topic ← okOr ((← get).topics.lookup topicIdx) (.serverError (.topicDoesNotExist msg.name))
  modify fun s => { s with
    topics := s.topics.insert topicIdx
      { topic with properties := some (updatedProperties topic.properties msg.update) } }

/-- One turn of the loop of `set_value` over the subscriptions of the topic. -/
def queueValue (value : FrcTimestampedValue) (topicIdx : TopicIdx) (subIdx : SubIdx) :
    ServerM Unit := do
  let stored ← unwrapOr ((← get).subValues.lookup subIdx) unwrapNone
  modify fun s => { s with
    subValues := s.subValues.insert subIdx (stored.addValue topicIdx (.normalValue value)) }

/-- The last part of `set_value`: a value that is not newer than the stored one is left out. -/
def storeValue (value : FrcTimestampedValue) (topicIdx : TopicIdx) : ServerM Unit := do
  match (← get).topicValueMap.lookup topicIdx with
  | some oldValue =>
    if oldValue.timestamp < value.timestamp then
      modify fun s => { s with
        topicValueMap := s.topicValueMap.insert topicIdx (oldValue.replaceInplace value) }
    else
      pure ()
  | none => modify fun s => { s with topicValueMap := s.topicValueMap.insert topicIdx value }

def setValue (value : FrcTimestampedValue) (topicIdx : TopicIdx) : ServerM Unit := do
  --make sure the topic exists and is not a meta topic
  let topic ← okOr ((← get).topics.lookup topicIdx) (topicMissing topicIdx "set")
  if hasDollar topic.name then
    throw (.serverError (.notNormalTopic topic.name))
  else
    let subs ← unwrapOr ((← get).topicSubMap.lookup topicIdx) unwrapNone
    forEach subs (queueValue value topicIdx)
    storeValue value topicIdx

def getTopicIdx (topicName : String) : ServerM TopicIdx := do
  let found := (← get).topicMap.lookup topicName
  --the argument of `ok_or` is evaluated before the call, and its own `?` returns from here
  let err ← throw (.serverError (.topicDoesNotExist
    s!"topic name {topicName} could not be found [did not exist]"))
  okOr found err

def getValue (topicIdx : TopicIdx) : ServerM FrcTimestampedValue := do
  okOr ((← get).topicValueMap.lookup topicIdx) (topicMissing topicIdx "found")

/-- The announcements of every topic that a subscription cares about. -/
def announceAllTopicsFor (o : IterOrder) (subIdx : SubIdx) : ServerM Unit := do
  let (subscription, clientIdx) ← okOr ((← get).subscriptions.lookup subIdx)
    (.serverError (.subscriptionDoesNotExist
      s!"subscription idx {subIdx} could not be announced to [did not exist]"))
  let s ← get
  let cared := (o.walk s.topicMap).filter fun e =>
    subscription.caresAbout e.1 && (s.topics.lookup e.2).isSome
  let announceMsgs := cared.filterMap fun e =>
    (s.topics.lookup e.2).map fun topic => NTMessage.announce { announceOf e.2 topic with name := e.1 }
  let client ← okOr (s.clients.lookup clientIdx) (.serverError (.clientDoesNotExist
    s!"client idx {clientIdx} could not be announced to [did not exist]"))
  putClient clientIdx
    { client with announcedTopics := client.announcedTopics ∪ (cared.map Prod.snd).toFinset }
  sendNtMessages clientIdx announceMsgs

/-- One turn of the loop of `un_announce_topics`. -/
def unAnnounceTo (topicName : String) (topicIdx : TopicIdx) (clientIdx : ClientIdx) :
    ServerM Unit := do
  match (← get).clients.lookup clientIdx with
  | none => pure ()
  | some client =>
    if topicIdx ∈ client.announcedTopics then
      putClient clientIdx { client with announcedTopics := client.announcedTopics.erase topicIdx }
      sendNtMessages clientIdx [.unAnnounce ⟨topicName, topicIdx⟩]
    else
      pure ()

def unAnnounceTopics (o : IterOrder) (topicName : String) (topicIdx : TopicIdx) :
    ServerM Unit := do
  forEach ((o.walk (← get).clients).map Prod.fst) (unAnnounceTo topicName topicIdx)

def flushAll (o : IterOrder) : ServerM Unit := do
  forEach (o.walk (← get).clients) fun e => sendOn e.1 .flush

def flushClient (clientIdx : ClientIdx) : ServerM Unit := do
  let _ ← okOr ((← get).clients.lookup clientIdx) (clientMissing clientIdx)
  sendOn clientIdx .flush

/-- The server's own client, which has no channel. -/
def serverClient : ConnectedClient := { ConnectedClient.new .server with subOuput := none }

/-- The writes of `try_new` on the empty maps. -/
def tryNew (o : IterOrder) : ServerM Unit := do
  --adds a client to act as the server client interface
  let (idx, counters) := (← get).counters.nextClientIdx
  modify fun s => { s with counters }
  putClient idx serverClient
  --add metatopics
  let _ ← addTopic o (.newMeta "$clients")
  let _ ← addTopic o (.newMeta "$serversub")
  let _ ← addTopic o (.newMeta "$serverpub")

end NetTables.Server
