import NetTables.Server.Run

namespace NetTables.Server

open Lib Lib.Fallible Spec

/-- `name` is known for the topic index: by the name map, or by the topic kept there. -/
def InnerServer.Named (s : InnerServer) (name : String) (topicIdx : TopicIdx) : Prop :=
  s.topicMap.lookup name = some topicIdx ∨
    ∃ topic, s.topics.lookup topicIdx = some topic ∧ topic.name = name

/-- A list of messages that announces (or withdraws) topics by an index and a name of theirs. -/
def InnerServer.Tells (s : InnerServer) (messages : List NTMessage) : Prop :=
  (∀ a, .announce a ∈ messages → ∃ t, a.id = t.toInt32 ∧ s.Named a.name t) ∧
    ∀ m ∈ messages, (∃ a, m = .announce a) ∨ ∃ u, m = .unAnnounce u

/-- The text messages of a channel hold an announcement with this id. -/
def Announced (sent : List OutMessage) (id : Int32) : Prop :=
  ∃ messages a, .text messages ∈ sent ∧ .announce a ∈ messages ∧ a.id = id

def Outgoing.append (ch : Outgoing) (ms : List OutMessage) : Outgoing :=
  if ch.isOpen then { ch with sent := ch.sent ++ ms } else ch

/-- `vectr.push(sub_idx)` for each of the topics. -/
def pushAll (subIdx : SubIdx) (ts : List TopicIdx) (m : KeyMap TopicIdx (List SubIdx)) :
    KeyMap TopicIdx (List SubIdx) :=
  ts.foldl (fun m t => m.insert t ((m.lookup t).getD [] ++ [subIdx])) m

/-- The value messages of one batch. -/
def batchFrames (value : TopicIdx × List ServerSendableValue) : List ValueFrame :=
  value.2.map fun
    | .normalValue v => ⟨value.1.toInt32, v⟩

/-- The server with a new topic under the next index. -/
def InnerServer.withTopic (s : InnerServer) (topic : Topic) : InnerServer :=
  { s with
    topics := s.topics.insert s.counters.topicIdx topic
    pubCount := s.pubCount.insert s.counters.topicIdx
      (if topic.hasImplicitPublisher then 2 else 1)
    topicMap := s.topicMap.insert topic.name s.counters.topicIdx
    topicSubMap := s.topicSubMap.insert s.counters.topicIdx []
    counters := { s.counters with topicIdx := s.counters.topicIdx + 1 } }

/-- The server without a topic and its two metatopics. -/
def InnerServer.withoutTopic (s : InnerServer) (t : TopicIdx) (name : String) (p q : TopicIdx) :
    InnerServer :=
  { s with
    topics := ((s.topics.erase t).erase p).erase q
    topicMap := ((s.topicMap.erase (metaPubName name)).erase (metaSubName name)).erase name
    topicSubMap := ((s.topicSubMap.erase t).erase p).erase q
    topicValueMap := s.topicValueMap.erase t
    metatopicValueMap := (s.metatopicValueMap.erase p).erase q }

/-- The server without a client that is there, of which its connection task keeps its share. -/
def InnerServer.withoutClient (s : InnerServer) (ident : ClientIdentity) (c : ClientIdx)
    (client : ConnectedClient) : InnerServer :=
  { s with
    clientMap := s.clientMap.erase ident
    clients := s.clients.erase c
    departed := { client with killBool := true } :: s.departed }

/-- How far `remove_topic` gets: to its end, or to the first metatopic it does not find. -/
inductive Removal where
  | whole
  | noPub
  | noSub
  deriving DecidableEq

/-- What an effect is known by from outside: the index it takes, the topic it removes, or what it
changes about a topic's publishers, their count or its properties. -/
inductive Event where
  | topic (name : String)
  | sub
  | client
  | gone (topicIdx : TopicIdx) (how : Removal)
  | registered (clientIdx : ClientIdx) (pubuid : PubUID) (name : String)
  | withdrawn
  | count
  | properties
  deriving DecidableEq

/-- What one write of an operation can do to the server, guards included. Writes that the code
makes together are one effect. -/
inductive Effect : InnerServer → Option Event → InnerServer → Prop where
  | topicAdded {s} (topic : Topic) (hfresh : s.topicMap.lookup topic.name = none) :
      Effect s (some (.topic topic.name)) (s.withTopic topic)
  | topicRemoved {s t topic p q} (ht : s.topics.lookup t = some topic)
      (hp : s.topicMap.lookup (metaPubName topic.name) = some p)
      (hq : s.topicMap.lookup (metaSubName topic.name) = some q) :
      Effect s (some (.gone t .whole)) (s.withoutTopic t topic.name p q)
  | topicLost {s t topic} (ht : s.topics.lookup t = some topic)
      (hp : s.topicMap.lookup (metaPubName topic.name) = none) :
      Effect s (some (.gone t .noPub)) { s with topics := s.topics.erase t }
  | topicHalfLost {s t topic p} (ht : s.topics.lookup t = some topic)
      (hp : s.topicMap.lookup (metaPubName topic.name) = some p)
      (hq : s.topicMap.lookup (metaSubName topic.name) = none) :
      Effect s (some (.gone t .noSub)) { s with
        topics := s.topics.erase t
        topicMap := s.topicMap.erase (metaPubName topic.name) }
  | propertiesSet {s t topic} (properties : Option PublishProperties)
      (ht : s.topics.lookup t = some topic) :
      Effect s (some .properties) { s with
        topics := s.topics.insert t { topic with properties := properties } }
  | clientConnected {s} (identity : ClientIdentity) {p q}
      (hp : s.topicMap.lookup (clientPubName identity.name) = some p)
      (hq : s.topicMap.lookup (clientSubName identity.name) = some q) :
      Effect s (some .client) { s with
        clients := s.clients.insert s.counters.clientIdx (.new identity)
        clientMap := s.clientMap.insert identity s.counters.clientIdx
        clientMetatopicMap := s.clientMetatopicMap.insert s.counters.clientIdx (p, q)
        counters := { s.counters with clientIdx := s.counters.clientIdx + 1 } }
  | metaValueSet {s} (values : KeyMap TopicIdx MetaTopicValue) :
      Effect s none { s with metatopicValueMap := values }
  | registered {s c client name t topic} (pubuid : PubUID)
      (hc : s.clients.lookup c = some client) (ht : s.topics.lookup t = some topic)
      (hmap : s.topicMap.lookup name = some t) :
      Effect s (some (.registered c pubuid name)) { s with
        clients := s.clients.insert c
          { client with pubuidToTopicidx := client.pubuidToTopicidx.insert pubuid t } }
  | unregistered {s c client} (pubuid : PubUID) (hc : s.clients.lookup c = some client) :
      Effect s (some .withdrawn) { s with
        clients := s.clients.insert c
          { client with pubuidToTopicidx := client.pubuidToTopicidx.removeByLeft pubuid } }
  | countLowered {s t count} (hn : s.pubCount.lookup t = some count) :
      Effect s (some .count) { s with pubCount := s.pubCount.insert t (count - 1) }
  | countErased {s} (t : TopicIdx) (ht : s.topics.lookup t = none) :
      Effect s (some .count) { s with pubCount := s.pubCount.erase t }
  | identityErased {s ident c} (hident : s.clientMap.lookup ident = some c)
      (hc : s.clients.lookup c = none) :
      Effect s none { s with clientMap := s.clientMap.erase ident }
  | clientLeft {s ident c client} (hident : s.clientMap.lookup ident = some c)
      (hc : s.clients.lookup c = some client) :
      Effect s (some .withdrawn) (s.withoutClient ident c client)
  | ownMetatopicsErased {s c} (hc : s.clients.lookup c = none) :
      Effect s none { s with clientMetatopicMap := s.clientMetatopicMap.erase c }
  | marked {s c client} (announcedTopics : Finset TopicIdx)
      (hc : s.clients.lookup c = some client) :
      Effect s none { s with
        clients := s.clients.insert c
          { client with announcedTopics := announcedTopics } }
  | told {s c client ch} (messages : List NTMessage) (hc : s.clients.lookup c = some client)
      (hch : client.subOuput = some ch) (hopen : ch.isOpen = true) (htells : s.Tells messages) :
      Effect s none { s with
        clients := s.clients.insert c
          { client with subOuput := some { ch with sent := ch.sent ++ [.text messages] } } }
  | flushed {s c client ch} (hc : s.clients.lookup c = some client)
      (hch : client.subOuput = some ch) (hopen : ch.isOpen = true) :
      Effect s none { s with
        clients := s.clients.insert c
          { client with subOuput := some { ch with sent := ch.sent ++ [.flush] } } }
  | closed {s c client} (hc : s.clients.lookup c = some client) :
      Effect s none { s with
        clients := s.clients.insert c
          { client with subOuput := client.subOuput.map fun ch => { ch with isOpen := false } } }
  | subscribed {s c client} (sub : Subscription) (now : Instant) (stored : StoredSubValue)
      (interest : List (String × TopicIdx)) (messages : List NTMessage) (frames : List ValueFrame)
      (hc : s.clients.lookup c = some client)
      (hinterest : ∀ e, e ∈ interest ↔
        s.topicMap.lookup e.1 = some e.2 ∧ sub.caresAbout e.1 = true)
      (hlists : ∀ e ∈ interest, e.2 ∈ s.topicSubMap)
      (hstored : stored = if sub.getOptions.all.getD false then .newAll else .newOne)
      (htells : s.Tells messages)
      (htold : ∀ e ∈ interest, e.2 ∈ s.topics → ∃ a, .announce a ∈ messages ∧ a.id = e.2.toInt32)
      (hframes : ∀ f ∈ frames, ∃ a, .announce a ∈ messages ∧ a.id = f.topicId)
      (hnodup : (interest.map Prod.fst).Nodup)
      (hcurrent : ∀ f ∈ frames, ∃ e ∈ interest, f.topicId = e.2.toInt32 ∧
        s.topicValueMap.lookup e.2 = some f.value) :
      Effect s (some .sub) { s with
        topicSubMap := pushAll s.counters.subIdx (interest.map Prod.snd) s.topicSubMap
        subSendTimestamps := s.subSendTimestamps.insert s.counters.subIdx now
        subValues := s.subValues.insert s.counters.subIdx stored
        subscriptions := s.subscriptions.insert s.counters.subIdx (sub, c)
        clients := s.clients.insert c { client with
          subuidToSubidx := client.subuidToSubidx.insert sub.subuid.toUInt32 s.counters.subIdx
          subOuput := client.subOuput.map fun ch => ch.append [.text messages, .binary frames] }
        counters := { s.counters with subIdx := s.counters.subIdx + 1 } }
  | subscribeFailed {s} {e : String × TopicIdx} (ts : List TopicIdx)
      (he : s.topicMap.lookup e.1 = some e.2) (hmissing : e.2 ∉ s.topicSubMap)
      (hts : ∀ t ∈ ts, t ∈ s.topicSubMap) :
      Effect s (some .sub) { s with
        topicSubMap := pushAll s.counters.subIdx ts s.topicSubMap
        counters := { s.counters with subIdx := s.counters.subIdx + 1 } }
  | unsubscribed {s c client i} (subuid : SubUID) (hc : s.clients.lookup c = some client)
      (hi : client.subuidToSubidx.getByLeft subuid = some i) :
      Effect s none { s with
        clients := s.clients.insert c
          { client with subuidToSubidx := client.subuidToSubidx.removeByLeft subuid }
        topicSubMap := s.topicSubMap.mapValues fun vectr => vectr.filter fun elem => elem ≠ i
        subscriptions := s.subscriptions.erase i
        subValues := s.subValues.erase i
        subSendTimestamps := s.subSendTimestamps.erase i }
  | valueQueued {s t topic subs i stored} (value : FrcTimestampedValue)
      (ht : s.topics.lookup t = some topic) (hnormal : hasDollar topic.name = false)
      (hsubs : s.topicSubMap.lookup t = some subs) (hi : i ∈ subs)
      (hstored : s.subValues.lookup i = some stored) :
      Effect s none { s with
        subValues := s.subValues.insert i (stored.addValue t (.normalValue value)) }
  | valueStored {s t topic} (value : FrcTimestampedValue) (ht : s.topics.lookup t = some topic)
      (hnormal : hasDollar topic.name = false) :
      Effect s none { s with topicValueMap := s.topicValueMap.insert t value }
  | stamped {s i since} (now : Instant) (hi : s.subSendTimestamps.lookup i = some since) :
      Effect s none { s with subSendTimestamps := s.subSendTimestamps.insert i now }
  | batchesDropped {s i sub c client stored} (hi : s.subscriptions.lookup i = some (sub, c))
      (hc : s.clients.lookup c = some client) (hstored : s.subValues.lookup i = some stored)
      (hdrop : stored.takeValues.1 = [] ∨
        ∀ ch, client.subOuput = some ch → ch.isOpen = false) :
      Effect s none { s with subValues := s.subValues.insert i stored.takeValues.2 }
  | batchesSent {s i sub c client ch stored} (batches : List (TopicIdx × List ServerSendableValue))
      (hi : s.subscriptions.lookup i = some (sub, c)) (hc : s.clients.lookup c = some client)
      (hch : client.subOuput = some ch) (hopen : ch.isOpen = true)
      (hstored : s.subValues.lookup i = some stored)
      (hbatches : batches.Perm stored.takeValues.1) :
      Effect s none { s with
        subValues := s.subValues.insert i stored.takeValues.2
        clients := s.clients.insert c
          { client with
            subOuput := some
              { ch with sent := ch.sent ++ batches.map fun b => .binary (batchFrames b) } } }

/-- A sequence of effects, with the events they are known by. -/
inductive Effects : InnerServer → List Event → InnerServer → Prop where
  | refl (s : InnerServer) : Effects s [] s
  | tail {s es s' e s''} (h : Effects s es s') (hs : Effect s' e s'') :
      Effects s (es ++ e.toList) s''

namespace Effects

variable {s s' s'' : InnerServer} {es es' : List Event} {e : Option Event}

theorem one (h : Effect s e s') : Effects s e.toList s' := .tail (.refl s) h

theorem trans (h : Effects s es s') (h' : Effects s' es' s'') : Effects s (es ++ es') s'' := by
  induction h' with
  | refl => simpa using h
  | tail _ e ih =>
    rw [← List.append_assoc]
    exact .tail ih e

/-- What every effect keeps, as far as its event is one of `P`, the whole sequence keeps. -/
theorem invariant (I : InnerServer → Prop) (P : Event → Prop) (h : Effects s es s')
    (hes : ∀ a ∈ es, P a)
    (hstep : ∀ s e s', Effect s e s' → (∀ a, e = some a → P a) → I s → I s') (hs : I s) : I s' := by
  induction h with
  | refl => exact hs
  | tail _ e ih =>
    have hi := ih (fun a ha => hes a (List.mem_append_left _ ha))
    refine hstep _ _ _ e ?_ hi
    intro a ha
    exact hes a (List.mem_append_right _ (by simp [ha]))

end Effects

/-- A sequence of effects that are known by nothing from outside. -/
def Quiet (s s' : InnerServer) : Prop := Effects s [] s'

end NetTables.Server
