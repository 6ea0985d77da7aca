import NetTables.Lib.Guarded
import NetTables.Server.Handles
import NetTables.Server.Locking

namespace NetTables.Server.Steps

open Lib Lib.Guarded Spec
open Locking (Mutex)

/-- Where the tasks stand: the topic that `add_topic` has put into `topics` and has no list for yet,
the one that `set_value` has found there and whose list it has not looked at yet, the topics that
`remove_topic` has taken from there and whose lists it has not taken yet, and the topics that
`subscribe` has found in `topic_map` and has not walked yet. -/
structure Notes where
  adding : Option TopicIdx := none
  checked : Option TopicIdx := none
  removed : List TopicIdx := []
  interest : List TopicIdx := []

abbrev Scene := Lib.Scene InnerServer Notes String

/-- A server function as the sequence of its guards and of what it does under them. -/
abbrev StepM := Guarded Mutex InnerServer Notes NetworkTablesError String

/-- A look at a table, under its guard. -/
def look {α : Type} (f : InnerServer → α) : StepM α := atomic (do return f (← get))

/-- A look for what has to be there, with the error if it is not. -/
def find {α : Type} (f : InnerServer → Option α) (e : NetworkTablesError) : StepM α :=
  atomic (do Fallible.okOr (f (← get)) e)

/-- `unwrap` and `expect` on what a table has. -/
def expect {α : Type} (f : InnerServer → Option α) (text : String) : StepM α :=
  atomic (do Fallible.unwrapOr (f (← get)) text)

def write (f : InnerServer → InnerServer) : StepM Unit := atomic (modify f)

section Topics

variable (o : IterOrder)

/-- The part of `add_topic` that ends with the list of the new topic. -/
def insertTopic (topic : Topic) : StepM TopicIdx := do
  let topicIdx ← holding .topics do
    let topicIdx ← holding .counters (atomic do
      let (topicIdx, counters) := (← get).counters.nextTopicIdx
      modify fun s => { s with counters }
      pure topicIdx)
    note fun n => { n with adding := some topicIdx }
    write fun s => { s with topics := s.topics.insert topicIdx topic }
    pure topicIdx
  let count : UInt16 := if topic.hasImplicitPublisher then 2 else 1
  holding .pubCount (write fun s => { s with pubCount := s.pubCount.insert topicIdx count })
  holding .topicMap (write fun s => { s with topicMap := s.topicMap.insert topic.name topicIdx })
  holding .topicSubMap do
    write fun s => { s with topicSubMap := s.topicSubMap.insert topicIdx [] }
    note fun n => { n with adding := none }
  pure topicIdx

def announceTopic (topicIdx : TopicIdx) (responseOpt : Option (PubUID × ClientIdx)) :
    StepM Unit := do
  let topic ← holding .topics do
    let topic ← find (fun s => s.topics.lookup topicIdx) (topicMissing topicIdx "announced")
    match responseOpt with
    | none => pure topic
    | some (pubuid, clientIdx) =>
      holding .clients
        (atomic (announceResponse topicIdx (announceOf topicIdx topic) pubuid clientIdx))
      pure topic
  let notify ← holding .subscriptions (look fun s => clientsToNotify s topic.name)
  holding .clients
    (atomic (Fallible.forEach (o.arrange notify)
      (announceSubscriber topicIdx (announceOf topicIdx topic))))

def addMetaTopic (topic : Topic) : StepM TopicIdx := do
  match ← holding .topicMap (look fun s => s.topicMap.lookup topic.name) with
  | some topicIdx => pure topicIdx
  | none => insertTopic topic

def addTopic (topic : Topic) : StepM TopicIdx := do
  match ← holding .topicMap (look fun s => s.topicMap.lookup topic.name) with
  | some topicIdx => pure topicIdx
  | none =>
    let topicIdx ← insertTopic topic
    --metatopics don't make it past this point
    if hasDollar topic.name then
      pure topicIdx
    else
      announceTopic o (← addMetaTopic (.newMeta (metaPubName topic.name))) none
      announceTopic o (← addMetaTopic (.newMeta (metaSubName topic.name))) none
      pure topicIdx

/-- The look at `topics` with which `remove_topic` begins. -/
def takeTopic (topicIdx : TopicIdx) : ServerM Topic := do
  let topic ← Fallible.okOr ((← get).topics.lookup topicIdx) (topicMissing topicIdx "removed")
  modify fun s => { s with topics := s.topics.erase topicIdx }
  pure topic

/-- What `remove_topic` does while it has `topics` and `topic_map`. -/
def takeMetatopics (topicIdx : TopicIdx) (topic : Topic) : ServerM (TopicIdx × TopicIdx) := do
  let metaPubIdx ← Fallible.okOr ((← get).topicMap.lookup (metaPubName topic.name))
    (metatopicMissing topicIdx)
  modify fun s => { s with topicMap := s.topicMap.erase (metaPubName topic.name) }
  let metaSubIdx ← Fallible.okOr ((← get).topicMap.lookup (metaSubName topic.name))
    (metatopicMissing topicIdx)
  modify fun s => { s with topicMap := s.topicMap.erase (metaSubName topic.name) }
  modify fun s => { s with topicMap := s.topicMap.erase topic.name }
  modify fun s => { s with topics := (s.topics.erase metaPubIdx).erase metaSubIdx }
  pure (metaPubIdx, metaSubIdx)

/-- What `remove_topic` does without `topics` and `topic_map`. -/
def cleanse (topicIdx metaPubIdx metaSubIdx : TopicIdx) : StepM Unit :=
  holding .topicSubMap do
    --cleanse topic sub map
    write fun s => { s with
      topicSubMap := ((s.topicSubMap.erase topicIdx).erase metaPubIdx).erase metaSubIdx }
    note fun n => { n with removed := [] }
    --cleanse topic value map
    holding .topicValueMap (holding .metatopicValueMap
      (write fun s => { s with
        topicValueMap := s.topicValueMap.erase topicIdx
        metatopicValueMap := (s.metatopicValueMap.erase metaPubIdx).erase metaSubIdx }))

def removeTopic (topicIdx : TopicIdx) : StepM Unit := do
  lock .topics
  match ← result (atomic (takeTopic topicIdx)) with
  | .error e => do
    unlock .topics
    throw e
  | .ok topic => do
    lock .topicMap
    match ← result (atomic (takeMetatopics topicIdx topic)) with
    | .error e => do
      unlock .topicMap
      unlock .topics
      throw e
    | .ok (metaPubIdx, metaSubIdx) => do
      note fun n => { n with removed := [topicIdx, metaPubIdx, metaSubIdx] }
      unlock .topics
      unlock .topicMap
      cleanse topicIdx metaPubIdx metaSubIdx

end Topics

section Publish

variable (o : IterOrder)

def updatePublishers (clientIdx : ClientIdx) (f : MetaTopicValue → MetaTopicValue → MetaTopicValue)
    (pubMte : ClientPublisherMTE) : StepM Unit := do
  if clientIdx = serverClientIdx then
    holding .metatopicValueMap (atomic
      (updateMetaValue serverPubMetatopic (.serverPublisher []) (f · (.serverPublisher [pubMte]))))
  else
    holding .clientMetatopicMap do
      let (pubIdx, _) ← find (fun s => s.clientMetatopicMap.lookup clientIdx)
        (ownMetatopicMissing clientIdx)
      holding .metatopicValueMap (atomic
        (updateMetaValue pubIdx (.clientPublisher []) (f · (.clientPublisher [pubMte]))))

/-- `pubuid_to_topicidx.insert(pubuid, topic_idx)` on the client. -/
def register (pubuid : PubUID) (topicIdx : TopicIdx) (clientIdx : ClientIdx) : ServerM Unit := do
  let client ← Fallible.okOr ((← get).clients.lookup clientIdx) (clientMissing clientIdx)
  putClient clientIdx
    { client with pubuidToTopicidx := client.pubuidToTopicidx.insert pubuid topicIdx }

def innerPublishTopic (pubTopic : PublishTopic) (clientIdx : ClientIdx) : StepM TopicIdx := do
  let topicIdx ← addTopic o (.fromPublishTopic pubTopic)
  announceTopic o topicIdx (some (pubTopic.pubuid, clientIdx))
  --add the pubuid to the client's pubuid_to_topicidx map
  holding .clients (atomic (register pubTopic.pubuid topicIdx clientIdx))
  --update metatopics
  updatePublishers clientIdx .merge ⟨pubTopic.name, pubTopic.pubuid⟩
  pure topicIdx

/-- `pubuid_to_topicidx.remove_by_left(&pubuid)` on the client. -/
def unregister (pubuid : PubUID) (clientIdx : ClientIdx) : ServerM TopicIdx := do
  let client ← Fallible.okOr ((← get).clients.lookup clientIdx) (clientMissing clientIdx)
  let topicIdx ← Fallible.okOr (client.pubuidToTopicidx.getByLeft pubuid)
    (.serverError (.topicDoesNotExist
      s!"pubuid {pubuid} for client {clientIdx} related topic did not exist"))
  putClient clientIdx
    { client with pubuidToTopicidx := client.pubuidToTopicidx.removeByLeft pubuid }
  pure topicIdx

/-- `*count -= 1`, with the new count. -/
def lowerCount (topicIdx : TopicIdx) : ServerM UInt16 := do
  let count ← Fallible.okOr ((← get).pubCount.lookup topicIdx)
    (.serverError (.topicDoesNotExist s!"Topic idx {topicIdx} did not exist in pub_count"))
  modify fun s => { s with pubCount := s.pubCount.insert topicIdx (count - 1) }
  pure (count - 1)

def innerUnpublishTopic (pubTopic : UnpublishTopic) (clientIdx : ClientIdx) : StepM Unit := do
  let (topicIdx, name) ← holding .clients do
    let topicIdx ← atomic (unregister pubTopic.pubuid clientIdx)
    let name ← holding .topics
      (look fun s => ((s.topics.lookup topicIdx).map Topic.name).getD "")
    pure (topicIdx, name)
  holding .pubCount do
    --reduces the pub count for the topic, if reaches 0 remove the topic
    let count ← atomic (lowerCount topicIdx)
    if count = 0 then
      removeTopic topicIdx
      write fun s => { s with pubCount := s.pubCount.erase topicIdx }
      updatePublishers clientIdx .reduce ⟨name, pubTopic.pubuid⟩
    else
      updatePublishers clientIdx .reduce ⟨name, pubTopic.pubuid⟩

end Publish

section Subscriptions

variable (o : IterOrder)

def subscribe (sub : Subscribe) (clientIdx : ClientIdx) (now : Instant) : StepM Unit :=
  holding .clients do
    let client ← find (fun s => s.clients.lookup clientIdx) (clientMissing clientIdx)
    let subscription : Subscription := ⟨sub.subuid, sub.topics, sub.options⟩
    holding .topicMap do
      let topicMap ← look InnerServer.topicMap
      let interestedTopics :=
        (o.walk topicMap).filter fun topicEntry => subscription.caresAbout topicEntry.1
      note fun n => { n with interest := interestedTopics.map Prod.snd }
      holding .topicSubMap (holding .topicValueMap do
        let subIdx ← holding .counters (atomic do
          let (subIdx, counters) := (← get).counters.nextSubIdx
          modify fun s => { s with counters }
          pure subIdx)
        holding .topics do
          note fun n => { n with interest := [] }
          let (announceMsgs, sendValues) ← atomic
            (Fallible.foldEach interestedTopics ([], []) (subscribeTopic subIdx))
          holding .subSendTimestamps
            (write fun s => { s with subSendTimestamps := s.subSendTimestamps.insert subIdx now })
          let stored :=
            if subscription.getOptions.all.getD false then StoredSubValue.newAll else .newOne
          holding .subValues (write fun s => { s with subValues := s.subValues.insert subIdx stored })
          holding .subscriptions (write fun s => { s with
            subscriptions := s.subscriptions.insert subIdx (subscription, clientIdx) })
          atomic (putClient clientIdx
            { client with
              subuidToSubidx := client.subuidToSubidx.insert sub.subuid.toUInt32 subIdx })
          atomic (sendNtMessages clientIdx announceMsgs)
          atomic (sendBinary clientIdx sendValues))

/-- `subuid_to_subidx.remove_by_left(&subuid)` on the client. -/
def withdraw (unsub : Unsubscribe) (clientIdx : ClientIdx) : ServerM SubIdx := do
  let client ← Fallible.okOr ((← get).clients.lookup clientIdx) (clientMissing clientIdx)
  let subidx ← Fallible.okOr (client.subuidToSubidx.getByLeft unsub.subuid.toUInt32)
    (.serverError (.subscriptionDoesNotExist s!"Subuid: {unsub.subuid}"))
  putClient clientIdx
    { client with subuidToSubidx := client.subuidToSubidx.removeByLeft unsub.subuid.toUInt32 }
  pure subidx

def unsubscribe (unsub : Unsubscribe) (clientIdx : ClientIdx) : StepM Unit :=
  holding .clients do
    let subidx ← atomic (withdraw unsub clientIdx)
    holding .topicSubMap do
      write fun s => { s with
        topicSubMap := s.topicSubMap.mapValues fun vectr => vectr.filter fun elem => elem ≠ subidx }
      holding .subscriptions
        (write fun s => { s with subscriptions := s.subscriptions.erase subidx })
      holding .subValues (write fun s => { s with subValues := s.subValues.erase subidx })
      holding .subSendTimestamps
        (write fun s => { s with subSendTimestamps := s.subSendTimestamps.erase subidx })

end Subscriptions

section Values

variable (o : IterOrder)

/-- The check of `set_value` that the topic exists and is not a metatopic. -/
def checkTopic (topicIdx : TopicIdx) : ServerM Unit := do
  let topic ← Fallible.okOr ((← get).topics.lookup topicIdx) (topicMissing topicIdx "set")
  if hasDollar topic.name then
    throw (.serverError (.notNormalTopic topic.name))
  else
    pure ()

def setValue (value : FrcTimestampedValue) (topicIdx : TopicIdx) : StepM Unit := do
  holding .topics do
    atomic (checkTopic topicIdx)
    note fun n => { n with checked := some topicIdx }
  holding .subValues (holding .topicSubMap do
    let subs ← expect (fun s => s.topicSubMap.lookup topicIdx) unwrapNone
    note fun n => { n with checked := none }
    forEach subs fun subIdx => atomic (queueValue value topicIdx subIdx))
  holding .topicValueMap (atomic (storeValue value topicIdx))

def publishTopicWProps (topicName : String) (value : FrcValue) (props : Option PublishProperties)
    (uid : UInt64) (now : UInt64) : StepM Unit := do
  let topicIdx ← innerPublishTopic o
    ⟨topicName, uid.toUInt32, value.getType.stringify, props⟩ serverClientIdx
  setValue ⟨now, value⟩ topicIdx

/-- What a turn of `send_out` sends to the client of the subscription. -/
def sendStored (subIdx : SubIdx) (clientIdx : ClientIdx) : StepM Unit := do
  let stored ← expect (fun s => s.subValues.lookup subIdx) "Sub values did not exists"
  write fun s => { s with subValues := s.subValues.insert subIdx stored.takeValues.2 }
  forEach (o.arrange stored.takeValues.1) fun value => do
    let buf ← atomic (encodeBatch value)
    atomic (Fallible.attempt (sendBinary clientIdx buf))

/-- One turn of the loop of `send_out`. -/
def sendTurn (clock : SendClock) (soonestOffset : ℚ)
    (subEntry : SubIdx × (Subscription × ClientIdx)) : StepM ℚ := do
  let (subIdx, subscription, clientIdx) := subEntry
  let options := subscription.options.getD {}
  if options.topicsOnly.getD false then
    pure soonestOffset
  else
    let sendInstant ← expect (fun s => s.subSendTimestamps.lookup subIdx) "Sub timestamp missing"
    let periodic := options.periodic.getD (1 / 10)
    if |elapsed (clock.check subIdx) sendInstant - periodic| < 1 / 1000 then
      pure (periodic - elapsed (clock.offset subIdx) sendInstant)
    else
      write fun s => { s with
        subSendTimestamps := s.subSendTimestamps.insert subIdx (clock.stamp subIdx) }
      match ← look fun s => s.clients.lookup clientIdx with
      | none => pure soonestOffset
      | some _ =>
        sendStored o subIdx clientIdx
        pure soonestOffset

/-- One pass of the `send_out` loop, up to its sleep. -/
def sendOut (clock : SendClock) (soonestOffset : ℚ) : StepM ℚ := do
  lock .subscriptions
  let subscriptions ← look InnerServer.subscriptions
  if subscriptions.entries.isEmpty then
    unlock .subscriptions
    pure soonestOffset
  else
    lock .subValues
    lock .subSendTimestamps
    lock .clients
    let r ← result (foldEach (o.walk subscriptions) soonestOffset (sendTurn o clock))
    unlock .subscriptions
    unlock .subSendTimestamps
    unlock .subValues
    unlock .clients
    ofResult r

end Values

section Clients

/-! The pieces that write nothing but `clients`. -/

open Fallible

variable {R : InnerServer → InnerServer → Prop} [IsPreorder InnerServer R] {c : ClientIdx}
  {t : TopicIdx} (hput : ∀ s clients, R s { s with clients := clients })

include hput

omit [IsPreorder InnerServer R] in
theorem within_putClient (client : ConnectedClient) : Within R (putClient c client) :=
  within_modify fun s => hput s _

theorem within_sendOn (m : OutMessage) : Within R (sendOn c m) := by
  apply within_bind within_get
  intro s
  split
  · exact within_pure _
  · split
    · exact within_pure _
    · exact within_bind (within_okOr _ _) fun _ => within_putClient hput _

theorem within_markAnnounced : Within R (markAnnounced c t) := by
  apply within_bind within_get
  intro s
  split
  · exact within_pure _
  · exact within_putClient hput _

theorem within_announceResponse (announceMsg : Announce) (pubuid : PubUID) :
    Within R (announceResponse t announceMsg pubuid c) := by
  apply within_bind within_get
  intro s
  split
  · exact within_throw _
  · split_ifs
    · exact within_pure _
    · exact within_bind (within_sendOn hput _) fun _ => within_markAnnounced hput

theorem within_announceSubscriber (announceMsg : Announce) :
    Within R (announceSubscriber t announceMsg c) := by
  apply within_bind within_get
  intro s
  split
  · exact within_pure _
  · exact within_bind (within_markAnnounced hput) fun _ => within_sendOn hput _

theorem within_register (pubuid : PubUID) : Within R (register pubuid t c) := by
  apply within_bind within_get
  intro s
  exact within_bind (within_okOr _ _) fun _ => within_putClient hput _

theorem within_unregister (pubuid : PubUID) : Within R (unregister pubuid c) := by
  apply within_bind within_get
  intro s
  apply within_bind (within_okOr _ _)
  intro client
  apply within_bind (within_okOr _ _)
  intro t
  exact within_bind (within_putClient hput _) fun _ => within_pure _

theorem within_withdraw (unsub : Unsubscribe) : Within R (withdraw unsub c) := by
  apply within_bind within_get
  intro s
  apply within_bind (within_okOr _ _)
  intro client
  apply within_bind (within_okOr _ _)
  intro i
  exact within_bind (within_putClient hput _) fun _ => within_pure _

omit hput

theorem total_register (pubuid : PubUID) : Total (register pubuid t c) := by
  apply total_bind total_get
  intro s
  exact total_bind (total_okOr _ _) fun _ => total_modify _

theorem total_unregister (pubuid : PubUID) : Total (unregister pubuid c) := by
  apply total_bind total_get
  intro s
  apply total_bind (total_okOr _ _)
  intro client
  apply total_bind (total_okOr _ _)
  intro t
  exact total_bind (total_modify _) fun _ => total_pure _

theorem total_withdraw (unsub : Unsubscribe) : Total (withdraw unsub c) := by
  apply total_bind total_get
  intro s
  apply total_bind (total_okOr _ _)
  intro client
  apply total_bind (total_okOr _ _)
  intro i
  exact total_bind (total_modify _) fun _ => total_pure _

end Clients

section Alone

/-! Each function, with nothing in between its steps, is the operation of `Inner`. -/

variable {o : IterOrder} {topic : Topic} {t : TopicIdx} {c : ClientIdx}

theorem alone_write (f : InnerServer → InnerServer) : Alone (write f) (modify f) := alone_atomic _

theorem alone_look {α : Type} (f : InnerServer → α) : Alone (look f) (do return f (← get)) :=
  alone_atomic _

theorem alone_find {α : Type} (f : InnerServer → Option α) (e : NetworkTablesError) :
    Alone (find f e) (do Fallible.okOr (f (← get)) e) := alone_atomic _

theorem alone_expect {α : Type} (f : InnerServer → Option α) (text : String) :
    Alone (expect f text) (do Fallible.unwrapOr (f (← get)) text) := alone_atomic _

theorem alone_insertTopic : Alone (insertTopic topic) (Server.insertTopic topic) := by
  apply Alone.of_eq
  · apply Alone.bind
    · apply Alone.holding
      apply ((alone_atomic _).holding _).bind
      intro t
      exact (alone_note _).skip ((alone_write _).bind fun _ => alone_pure t)
    · intro t
      apply ((alone_write _).holding _).bind
      intro _
      apply ((alone_write _).holding _).bind
      intro _
      exact (((alone_write _).bind fun _ => alone_note _).holding _).bind fun _ => alone_pure t
  · simp [Server.insertTopic]

theorem alone_announceTopic {responseOpt : Option (PubUID × ClientIdx)} :
    Alone (announceTopic o t responseOpt) (Server.announceTopic o t responseOpt) := by
  apply Alone.of_eq
  · apply Alone.bind
    · apply Alone.holding
      apply (alone_find _ _).bind
      intro topic
      show Alone _ (match responseOpt with
        | none => pure topic
        | some (pubuid, c) => announceResponse t (announceOf t topic) pubuid c >>= fun _ => pure topic)
      cases responseOpt with
      | none => exact alone_pure topic
      | some r => exact ((alone_atomic _).holding _).bind fun _ => alone_pure topic
    · intro topic
      exact ((alone_look _).holding _).bind fun _ => (alone_atomic _).holding _
  · simp only [Server.announceTopic, bind_assoc]
    cases responseOpt <;> simp

theorem alone_addMetaTopic : Alone (addMetaTopic topic) (Server.addMetaTopic topic) := by
  apply Alone.of_eq
  · apply ((alone_look _).holding _).bind
    intro found
    show Alone _ (match found with
      | some t => pure t
      | none => Server.insertTopic topic)
    cases found with
    | some t => exact alone_pure t
    | none => exact alone_insertTopic
  · exact bind_assoc _ _ _

theorem alone_addTopic : Alone (addTopic o topic) (Server.addTopic o topic) := by
  apply Alone.of_eq
  · apply ((alone_look _).holding _).bind
    intro found
    show Alone _ (match found with
      | some t => pure t
      | none => Server.insertTopic topic >>= fun t =>
        if hasDollar topic.name then
          pure t
        else
          Server.addMetaTopic (.newMeta (metaPubName topic.name)) >>= fun p =>
          Server.announceTopic o p none >>= fun _ =>
          Server.addMetaTopic (.newMeta (metaSubName topic.name)) >>= fun q =>
          Server.announceTopic o q none >>= fun _ => pure t)
    cases found with
    | some t => exact alone_pure t
    | none =>
      apply alone_insertTopic.bind
      intro t
      apply (alone_pure t).ite
      exact alone_addMetaTopic.bind fun _ => alone_announceTopic.bind fun _ =>
        alone_addMetaTopic.bind fun _ => alone_announceTopic.bind fun _ => alone_pure t
  · exact bind_assoc _ _ _

theorem alone_removeTopic : Alone (removeTopic t) (Server.removeTopic t) := by
  apply Alone.of_eq
  · apply (alone_lock _).skip
    apply (alone_atomic _).result
    · intro topic
      apply (alone_lock _).skip
      apply (alone_atomic _).result
      · intro metas
        apply (alone_note _).skip
        apply (alone_unlock _).skip
        apply (alone_unlock _).skip
        apply Alone.holding
        apply (alone_write _).bind
        intro _
        apply (alone_note _).skip
        exact ((alone_write _).holding _).holding _
      · exact fun _ _ => rfl
    · exact fun _ _ => rfl
  · simp only [Server.removeTopic, takeTopic, takeMetatopics, bind_assoc, pure_bind]

theorem alone_updatePublishers {f : MetaTopicValue → MetaTopicValue → MetaTopicValue}
    {pubMte : ClientPublisherMTE} :
    Alone (updatePublishers c f pubMte) (Server.updatePublishers c f pubMte) := by
  unfold updatePublishers Server.updatePublishers
  split_ifs
  · exact (alone_atomic _).holding _
  · apply Alone.of_eq
    · apply Alone.holding
      apply (alone_find _ _).bind
      intro own
      exact (alone_atomic _).holding _
    · simp only [bind_assoc]

theorem alone_innerPublishTopic {pubTopic : PublishTopic} :
    Alone (innerPublishTopic o pubTopic c) (Server.innerPublishTopic o pubTopic c) := by
  apply Alone.of_eq
  · apply alone_addTopic.bind
    intro t
    apply alone_announceTopic.bind
    intro _
    exact ((alone_atomic _).holding _).bind fun _ =>
      alone_updatePublishers.bind fun _ => alone_pure t
  · simp only [Server.innerPublishTopic, register, bind_assoc]

theorem alone_innerUnpublishTopic {pubTopic : UnpublishTopic} :
    Alone (innerUnpublishTopic pubTopic c) (Server.innerUnpublishTopic pubTopic c) := by
  apply Alone.of_eq
  · apply Alone.bind
    · apply Alone.holding
      apply (alone_atomic _).bind
      intro t
      exact ((alone_look _).holding _).bind fun name => alone_pure (t, name)
    · intro e
      apply Alone.holding
      apply (alone_atomic _).bind
      intro count
      exact (alone_removeTopic.bind fun _ => (alone_write _).bind fun _ =>
        alone_updatePublishers).ite alone_updatePublishers
  · simp only [Server.innerUnpublishTopic, unregister, lowerCount, bind_assoc, pure_bind]

theorem alone_subscribe {sub : Subscribe} {now : Instant} :
    Alone (subscribe o sub c now) (Server.subscribe o sub c now) := by
  apply Alone.of_eq
  · apply Alone.holding
    apply (alone_find _ _).bind
    intro client
    apply Alone.holding
    apply (alone_look _).bind
    intro topicMap
    apply (alone_note _).skip
    apply Alone.holding
    apply Alone.holding
    apply ((alone_atomic _).holding _).bind
    intro i
    apply Alone.holding
    apply (alone_note _).skip
    apply (alone_atomic _).bind
    intro acc
    exact ((alone_write _).holding _).bind fun _ => ((alone_write _).holding _).bind fun _ =>
      ((alone_write _).holding _).bind fun _ => (alone_atomic _).bind fun _ =>
        (alone_atomic _).bind fun _ => alone_atomic _
  · simp only [Server.subscribe, bind_assoc, pure_bind]

theorem alone_unsubscribe {unsub : Unsubscribe} :
    Alone (unsubscribe unsub c) (Server.unsubscribe unsub c) := by
  apply Alone.of_eq
  · apply Alone.holding
    apply (alone_atomic _).bind
    intro i
    apply Alone.holding
    exact (alone_write _).bind fun _ => ((alone_write _).holding _).bind fun _ =>
      ((alone_write _).holding _).bind fun _ => (alone_write _).holding _
  · simp only [Server.unsubscribe, withdraw, bind_assoc, pure_bind]

theorem alone_setValue {value : FrcTimestampedValue} :
    Alone (setValue value t) (Server.setValue value t) := by
  apply Alone.of_eq
  · apply Alone.bind
    · exact ((alone_atomic _).bind fun _ => alone_note _).holding _
    · intro _
      apply Alone.bind
      · apply Alone.holding
        apply Alone.holding
        apply (alone_expect _ _).bind
        intro subs
        apply (alone_note _).skip
        exact alone_forEach (fun i => alone_atomic _) subs
      · intro _
        exact (alone_atomic _).holding _
  · simp only [Server.setValue, checkTopic, bind_assoc, pure_bind]
    congr 1
    funext s
    congr 1
    funext topic
    split_ifs <;> rfl

theorem alone_publishTopicWProps {name : String} {value : FrcValue}
    {props : Option PublishProperties} {uid now : UInt64} :
    Alone (publishTopicWProps o name value props uid now)
      (Server.publishTopicWProps o name value props uid now) :=
  alone_innerPublishTopic.bind fun _ => alone_setValue

theorem alone_sendStored {i : SubIdx} :
    Alone (sendStored o i c) (do
      let stored ← Fallible.unwrapOr ((← get).subValues.lookup i) "Sub values did not exists"
      modify fun s => { s with subValues := s.subValues.insert i stored.takeValues.2 }
      Fallible.forEach (o.arrange stored.takeValues.1) (sendBatch c)) := by
  apply Alone.of_eq
  · apply (alone_expect _ _).bind
    intro stored
    apply (alone_write _).bind
    intro _
    exact alone_forEach (fun _ => (alone_atomic _).bind fun _ => alone_atomic _) _
  · simp only [bind_assoc]
    rfl

theorem alone_sendTurn {clock : SendClock} {offset : ℚ} {e : SubIdx × (Subscription × ClientIdx)} :
    Alone (sendTurn o clock offset e) (Server.sendTurn o clock offset e) := by
  obtain ⟨i, sub, c⟩ := e
  unfold sendTurn Server.sendTurn
  simp only
  split_ifs
  · exact alone_pure offset
  · have hrest : Alone (do
        match ← look fun s => s.clients.lookup c with
        | none => pure offset
        | some _ =>
          sendStored o i c
          pure offset : StepM ℚ) (do
        match (← get).clients.lookup c with
        | none => pure offset
        | some _ =>
          let stored ← Fallible.unwrapOr ((← get).subValues.lookup i) "Sub values did not exists"
          modify fun s => { s with subValues := s.subValues.insert i stored.takeValues.2 }
          Fallible.forEach (o.arrange stored.takeValues.1) (sendBatch c)
          pure offset) := by
      apply Alone.of_eq
      · apply (alone_look _).bind
        intro found
        show Alone _ (match found with
          | none => pure offset
          | some _ => (do
            let stored ← Fallible.unwrapOr ((← get).subValues.lookup i) "Sub values did not exists"
            modify fun s => { s with subValues := s.subValues.insert i stored.takeValues.2 }
            Fallible.forEach (o.arrange stored.takeValues.1) (sendBatch c)) >>= fun _ => pure offset)
        cases found with
        | none => exact alone_pure offset
        | some client => exact alone_sendStored.bind fun _ => alone_pure offset
      · simp only [bind_assoc, pure_bind]
    apply Alone.of_eq
    · apply (alone_expect _ _).bind
      intro since
      exact (alone_pure _).ite ((alone_write _).bind fun _ => hrest)
    · exact bind_assoc _ _ _

theorem alone_sendOut {clock : SendClock} {offset : ℚ} :
    Alone (sendOut o clock offset) (Server.sendOut o clock offset) := by
  apply Alone.of_eq
  · apply (alone_lock _).skip
    apply (alone_look _).bind
    intro subscriptions
    show Alone _ (Fallible.foldEach (o.walk subscriptions) offset (Server.sendTurn o clock))
    by_cases hempty : subscriptions.entries.isEmpty
    · have hnil : o.walk subscriptions = [] := by
        have hperm := o.perm subscriptions.pairs
        rw [KeyMap.pairs, List.isEmpty_iff.mp hempty, List.map_nil, List.perm_nil] at hperm
        rw [IterOrder.walk, KeyMap.pairs, List.isEmpty_iff.mp hempty]
        exact hperm
      rw [if_pos hempty, hnil]
      exact (alone_unlock _).skip (alone_pure offset)
    · rw [if_neg hempty]
      apply (alone_lock _).skip
      apply (alone_lock _).skip
      apply (alone_lock _).skip
      apply Alone.of_eq
      · apply (alone_foldEach (fun _ _ => alone_sendTurn) _ _).result
        · intro offset'
          apply (alone_unlock _).skip
          apply (alone_unlock _).skip
          apply (alone_unlock _).skip
          exact (alone_unlock _).skip (alone_pure offset')
        · exact fun _ _ => rfl
      · exact bind_pure _
  · simp only [Server.sendOut, bind_assoc, pure_bind]

end Alone
end NetTables.Server.Steps
