import NetTables.Client.Values
import NetTables.Lib.KeyMap
import NetTables.Lib.Prog
import NetTables.Spec.Messages

namespace NetTables.Spec

def FrcType.fromU8 (byte : UInt8) : Option FrcType :=
  match byte.toNat with
  | 0 => some boolean
  | 1 => some double
  | 2 => some int
  | 3 => some float
  | 4 => some string
  | 5 => some raw
  | 16 => some booleanArray
  | 17 => some doubleArray
  | 18 => some intArray
  | 19 => some floatArray
  | 20 => some stringArray
  | _ => none

/-- `Value::as_i64`. -/
def Value.asI64 : Value → Option Int64
  | .integer i => if -2 ^ 63 ≤ i ∧ i < 2 ^ 63 then some (Int64.ofInt i) else none
  | _ => none

end NetTables.Spec

namespace NetTables.Client

open Lib Spec

/-- A clock reading, in microseconds. -/
abbrev Instant := Nat

/-- The identity of a subscription's `Arc`. -/
abbrev StreamId := Nat

structure MessageData where
  topicName : String
  timestamp : UInt32
  type : FrcType
  data : Value

/-- A subscription's `data` and `sender`, which both lead to its stream. -/
structure InternalSub where
  data : StreamId
  deriving DecidableEq

/-- A stream that the user holds, with the messages that wait in it. -/
structure SubscriptionStream where
  data : Subscription
  receiver : List MessageData

/-- The capacity of a stream. -/
def streamCapacity : Nat := 256

/-- The client's `Topic`, with an `FrcType`. -/
structure AnnouncedTopic where
  name : String
  type : FrcType
  properties : Option PublishProperties

structure PublishedTopic where
  name : String
  pubuid : UInt32
  type : FrcType
  properties : Option PublishProperties
  deriving DecidableEq

def PublishedTopic.asUnpublish (topic : PublishedTopic) : NTMessage := .unpublish ⟨topic.pubuid⟩

def PublishedTopic.asPublish (topic : PublishedTopic) : NTMessage :=
  .publish ⟨topic.name, topic.pubuid, topic.type.stringify, topic.properties⟩

/-- The message that asks for a subscription. -/
def subscribeMessage (sub : Subscription) : NTMessage :=
  .subscribe ⟨sub.subuid, sub.topics, sub.options⟩

/-- What goes through the socket channel. -/
inductive SocketMessage where
  | text (messages : List NTMessage)
  | value (id : UnsignedIntOrNegativeOne) (type : FrcType) (timestamp : UInt32) (value : Value)

/-- The bytes of a value message. -/
def SocketMessage.binary (rmp : ClientRmp) : SocketMessage → Option (List UInt8)
  | .text _ => none
  | .value id type timestamp v => some (publishValueWTimestamp rmp id type timestamp v)

/-- The state behind a client's handles. -/
structure InnerClient where
  subscriptions : KeyMap Int32 InternalSub := ∅
  announcedTopics : KeyMap Int32 AnnouncedTopic := ∅
  clientPublishedTopics : KeyMap UInt32 PublishedTopic := ∅
  serverTimeOffset : UInt64 := 0
  subCounter : Int32 := 0
  topicCounter : UInt32 := 0
  startInstant : Instant := 0

/-- The client, the streams that its users hold, and the clock. -/
structure ClientState where
  inner : InnerClient := {}
  streams : KeyMap StreamId SubscriptionStream := ∅
  nextStream : StreamId := 0
  now : Instant := 0

/-- The mutexes that are held across an `await`. -/
inductive Mutex where
  | announcedTopics
  | clientPublishedTopics
  | subscriptions
  deriving DecidableEq

abbrev ClientM := Prog Mutex SocketMessage ClientState

namespace ClientState

/-- The time since the start, as a `u64` of microseconds. -/
def clientTime (c : ClientState) : UInt64 := UInt64.ofNat (c.now - c.inner.startInstant)

def serverTime (c : ClientState) : UInt64 := c.clientTime + c.inner.serverTimeOffset

/-- `checked_add(1).unwrap_or(1)` -/
def nextTopicId (c : ClientState) : UInt32 :=
  if c.inner.topicCounter.toNat + 1 < 2 ^ 32 then c.inner.topicCounter + 1 else 1

def nextSubId (c : ClientState) : Int32 :=
  if c.inner.subCounter.toInt + 1 < 2 ^ 31 then c.inner.subCounter + 1 else 1

def isValid (c : ClientState) (sub : InternalSub) : Bool := (c.streams.lookup sub.data).isSome

/-- The subscription that this one points to, as long as its stream is held. -/
def upgrade (c : ClientState) (sub : InternalSub) : Option Subscription :=
  (c.streams.lookup sub.data).map SubscriptionStream.data

def checkedSub (a b : UInt64) : Option UInt64 := if b ≤ a then some (a - b) else none

/-- The client with a new offset, or nothing where the math fails. -/
def withTimestamp (c : ClientState) (serverTimestamp : UInt64) (clientTimestamp : Option Int64) :
    Option ClientState :=
  match clientTimestamp with
  | none => some c
  | some clientTimestamp => do
    let receiveTime := c.clientTime
    let roundTripTime ← checkedSub receiveTime clientTimestamp.toUInt64
    let serverTimeAtReceive ← checkedSub serverTimestamp (roundTripTime / 2)
    let offset ← checkedSub serverTimeAtReceive receiveTime
    some { c with inner := { c.inner with serverTimeOffset := offset } }

/-- One subscription's share of `send_value_to_subscriber`: a stream that is gone or takes no more
is forgotten. -/
def offer (data : MessageData) (c : ClientState) (entry : Int32 × InternalSub) :
    ClientState :=
  let forget : ClientState := { c with
    inner := { c.inner with subscriptions := c.inner.subscriptions.erase entry.1 } }
  match c.streams.lookup entry.2.data with
  | none => forget
  | some stream =>
    -- `matches_topic` compares as `cares_about` does
    if stream.data.caresAbout data.topicName then
      if stream.receiver.length < streamCapacity then
        let filled := { stream with receiver := stream.receiver ++ [data] }
        { c with streams := c.streams.insert entry.2.data filled }
      else
        forget
    else
      c

end ClientState

namespace InnerClient

/-- `send_message`, while the socket task runs. -/
def sendMessage (message : SocketMessage) : ClientM Unit := .put message

def newTopicId : ClientM UInt32 :=
  .act (fun c => { c with inner := { c.inner with topicCounter := c.nextTopicId } })
    fun c => .pure c.nextTopicId

def newSubId : ClientM Int32 :=
  .act (fun c => { c with inner := { c.inner with subCounter := c.nextSubId } })
    fun c => .pure c.nextSubId

/-- Whether the math went well. -/
def handleNewTimestamp (serverTimestamp : UInt64) (clientTimestamp : Option Int64) : ClientM Bool :=
  .act (fun c => (c.withTimestamp serverTimestamp clientTimestamp).getD c)
    fun c => .pure (c.withTimestamp serverTimestamp clientTimestamp).isSome

def publishValueWTimestamp (id : UnsignedIntOrNegativeOne) (type : FrcType) (timestamp : UInt32)
    (value : Value) : ClientM Unit :=
  sendMessage (.value id type timestamp value)

def publishValue (id : UnsignedIntOrNegativeOne) (type : FrcType) (value : Value) :
    ClientM Unit := do
  let c ← Prog.read
  publishValueWTimestamp id type c.serverTime.toUInt32 value

def resetTime : ClientM Unit :=
  .write fun c => { c with inner := { c.inner with serverTimeOffset := 0, startInstant := c.now } }

def updateTime : ClientM Unit := do
  Prog.acquire .announcedTopics
  let c ← Prog.read
  match c.inner.announcedTopics.lookup (-1) with
  | some timeTopic =>
    publishValueWTimestamp .negativeOne timeTopic.type 0 (.integer c.clientTime.toNat)
  | none => pure ()
  Prog.release .announcedTopics

def time : AnnouncedTopic := ⟨"Time", .int, none⟩

/-- The messages that bring a new connection up to date. -/
def replay (o : IterOrder) (c : ClientState) : List NTMessage :=
  ((o.walk c.inner.clientPublishedTopics).map fun e => e.2.asPublish) ++
    (o.walk c.inner.subscriptions).filterMap fun e => (c.upgrade e.2).map subscribeMessage

/-- Called on connection open, must not fail! -/
def onOpen (o : IterOrder) : ClientM Unit := do
  Prog.acquire .announcedTopics
  Prog.acquire .clientPublishedTopics
  Prog.acquire .subscriptions
  Prog.write fun c => { c with inner := { c.inner with
    announcedTopics := (∅ : KeyMap Int32 AnnouncedTopic).insert (-1) time } }
  Prog.write fun c => { c with inner := { c.inner with
    subscriptions := c.inner.subscriptions.filter fun _ sub => c.isValid sub } }
  let c ← Prog.read
  resetTime
  Prog.release .announcedTopics
  updateTime
  sendMessage (.text (replay o c))
  Prog.release .subscriptions
  Prog.release .clientPublishedTopics

def sendValueToSubscriber (o : IterOrder) (topic : AnnouncedTopic) (timestampMicros : UInt32)
    (type : FrcType) (data : Value) : ClientM Unit := do
  Prog.acquire .subscriptions
  Prog.write fun c => (o.walk c.inner.subscriptions).foldl
    (ClientState.offer ⟨topic.name, timestampMicros, type, data⟩) c
  Prog.release .subscriptions

/-- A value of an announced topic. -/
def handleTopicValue (o : IterOrder) (id : Int32) (timestampMicros : UInt64) (type : FrcType)
    (data : Value) : ClientM Unit := do
  Prog.acquire .announcedTopics
  let c ← Prog.read
  match c.inner.announcedTopics.lookup id with
  | some topic => sendValueToSubscriber o topic timestampMicros.toUInt32 type data
  | none => pure ()
  -- the guard lives as long as the topic is looked at
  Prog.release .announcedTopics

/-- The server's clock. -/
def handleTime (timestampMicros : UInt64) (data : Value) : ClientM Unit := do
  if ← handleNewTimestamp timestampMicros data.asI64 then
    pure ()
  else
    -- math failed, update most recent time
    Prog.write fun c => { c with inner := { c.inner with startInstant := c.now } }
    updateTime
    let _ ← handleNewTimestamp timestampMicros data.asI64

def handleValue (o : IterOrder) (array : List Value) : ClientM Unit :=
  match array with
  | [id, timestamp, typeIdx, data] =>
    match id.asI64.map Int64.toInt32, timestamp.asU64 with
    | some id, some timestampMicros =>
      if 0 ≤ id then
        match typeIdx.asU64 with
        | some typeIdx =>
          match FrcType.fromU8 typeIdx.toUInt8 with
          | some type => handleTopicValue o id timestampMicros type data
          | none => pure ()
        | none => pure ()
      else if id = -1 then
        handleTime timestampMicros data
      else
        pure ()
    | _, _ => pure ()
  | _ => pure ()

/-- What becomes of an array: nothing, a clock reading, or a value of the topic of its id. -/
theorem handleValue_cases (o : IterOrder) (array : List Value) :
    handleValue o array = .pure () ∨
    (∃ first timestamp typeIdx data micros, array = [first, timestamp, typeIdx, data] ∧
      first.asI64.map Int64.toInt32 = some (-1) ∧ handleValue o array = handleTime micros data) ∨
    ∃ first timestamp typeIdx data id micros type, array = [first, timestamp, typeIdx, data] ∧
      first.asI64.map Int64.toInt32 = some id ∧
      handleValue o array = handleTopicValue o id micros type data := by
  unfold handleValue
  split
  next first timestamp typeIdx data =>
    split
    next id micros hid _ =>
      split_ifs with _ hminus
      · split
        · split
          next type _ => exact .inr (.inr ⟨first, timestamp, typeIdx, data, id, micros, type, rfl,
            hid, rfl⟩)
          · exact .inl rfl
        · exact .inl rfl
      · exact .inr (.inl ⟨first, timestamp, typeIdx, data, micros, rfl, hminus ▸ hid, rfl⟩)
      · exact .inl rfl
    · exact .inl rfl
  · exact .inl rfl

/-- What the server sends, decoded as far as it can be. -/
inductive Incoming where
  | text (messages : Option (List NTMessage))
  | binary (values : List Value)
  | other

section HandleMessage

-- the source puts an announced type string where an `FrcType` stands
variable (o : IterOrder) (ofTypeStr : String → FrcType)

def handleNtMessage : NTMessage → ClientM Unit
  | .announce a => do
    Prog.acquire .announcedTopics
    Prog.write fun c =>
      if a.id ∈ c.inner.announcedTopics then
        c
      else
        { c with inner := { c.inner with
          announcedTopics := c.inner.announcedTopics.insert a.id
            ⟨a.name, ofTypeStr a.type, some a.properties⟩ } }
    Prog.release .announcedTopics
  | .unAnnounce u => do
    Prog.acquire .announcedTopics
    Prog.write fun c => { c with inner := { c.inner with
      announcedTopics := c.inner.announcedTopics.erase u.id.toInt32 } }
    Prog.release .announcedTopics
  | _ => pure ()

/-- Handles messages from the server. -/
def handleMessage : Incoming → ClientM Unit
  | .text (some messages) => Prog.forEach messages (handleNtMessage ofTypeStr)
  | .text none => pure ()
  | .binary values => Prog.forEach values fun
    | .array array => handleValue o array
    | _ => pure ()
  | .other => pure ()

end HandleMessage

end InnerClient

namespace AsyncClientHandle

/-- `replace("//", "")` -/
def removeSlashes : List Char → List Char
  | '/' :: '/' :: l => removeSlashes l
  | c :: l => c :: removeSlashes l
  | [] => []

def cleanName (name : String) : String :=
  let clean := name.toList.filter fun c => c ≠ '$'
  let clean := removeSlashes clean
  String.ofList (clean.map fun c => if c = ':' then '/' else c)

def publishTopic (name : String) (topicType : FrcType) (properties : Option PublishProperties) :
    ClientM PublishedTopic := do
  let pubuid ← InnerClient.newTopicId
  let topic : PublishedTopic := ⟨cleanName name, pubuid, topicType, properties⟩
  let messages := match properties with
    | some properties => [topic.asPublish, .setProperties ⟨topic.name, properties⟩]
    | none => [topic.asPublish]
  InnerClient.sendMessage (.text messages)
  Prog.acquire .clientPublishedTopics
  Prog.write fun c => { c with inner := { c.inner with
    clientPublishedTopics := c.inner.clientPublishedTopics.insert pubuid topic } }
  Prog.release .clientPublishedTopics
  pure topic

def unpublish (topic : PublishedTopic) : ClientM Unit :=
  InnerClient.sendMessage (.text [topic.asUnpublish])

def subscribeWOptions (topicNames : List String) (options : Option SubscriptionOptions) :
    ClientM StreamId := do
  let subuid ← InnerClient.newSubId
  let data : Subscription := ⟨subuid, topicNames.toFinset, options⟩
  InnerClient.sendMessage (.text [subscribeMessage data])
  let c ← (.act (fun c => { c with
      streams := c.streams.insert c.nextStream ⟨data, []⟩
      nextStream := c.nextStream + 1 }) .pure : ClientM ClientState)
  Prog.acquire .subscriptions
  Prog.write fun c' => { c' with inner := { c'.inner with
    subscriptions := c'.inner.subscriptions.insert subuid ⟨c.nextStream⟩ } }
  Prog.release .subscriptions
  pure c.nextStream

/-- The stream goes out of scope. -/
def dropStream (sub : StreamId) : ClientM Unit :=
  .write fun c => { c with streams := c.streams.erase sub }

def unsubscribe (sub : StreamId) : ClientM Unit := do
  let c ← Prog.read
  match c.streams.lookup sub with
  | none => pure ()
  | some stream =>
    InnerClient.sendMessage (.text [.unsubscribe ⟨stream.data.subuid⟩])
    Prog.acquire .subscriptions
    Prog.write fun c => { c with inner := { c.inner with
      subscriptions := c.inner.subscriptions.erase stream.data.subuid } }
    Prog.release .subscriptions
    dropStream sub

def publishValueWTimestamp (topic : PublishedTopic) (timestamp : UInt32) (value : Value) :
    ClientM Unit :=
  InnerClient.publishValueWTimestamp (.unsignedInt topic.pubuid) topic.type timestamp value

/-- Value should match topic type. -/
def publishValue (topic : PublishedTopic) (value : Value) : ClientM Unit :=
  InnerClient.publishValue (.unsignedInt topic.pubuid) topic.type value

/-- The next message of a stream is taken. -/
def takeMessage (sub : StreamId) : ClientM Unit :=
  .write fun c =>
    match c.streams.lookup sub with
    | none => c
    | some stream =>
      let rest := { stream with receiver := stream.receiver.tail }
      { c with streams := c.streams.insert sub rest }

end AsyncClientHandle

/-- What a user does with a handle or with a stream. -/
inductive ApiCall where
  | publishTopic (name : String) (topicType : FrcType) (properties : Option PublishProperties)
  | unpublish (topic : PublishedTopic)
  | subscribeWOptions (topicNames : List String) (options : Option SubscriptionOptions)
  | unsubscribe (sub : StreamId)
  | dropStream (sub : StreamId)
  | takeMessage (sub : StreamId)
  | publishValue (topic : PublishedTopic) (value : Value)
  | publishValueWTimestamp (topic : PublishedTopic) (timestamp : UInt32) (value : Value)

def ApiCall.program : ApiCall → ClientM Unit
  | .publishTopic name topicType properties => do
    let _ ← AsyncClientHandle.publishTopic name topicType properties
  | .unpublish topic => AsyncClientHandle.unpublish topic
  | .subscribeWOptions topicNames options => do
    let _ ← AsyncClientHandle.subscribeWOptions topicNames options
  | .unsubscribe sub => AsyncClientHandle.unsubscribe sub
  | .dropStream sub => AsyncClientHandle.dropStream sub
  | .takeMessage sub => AsyncClientHandle.takeMessage sub
  | .publishValue topic value => AsyncClientHandle.publishValue topic value
  | .publishValueWTimestamp topic timestamp value =>
    AsyncClientHandle.publishValueWTimestamp topic timestamp value

/-- The frame of a value has the bytes that the call was said to send. -/
theorem AsyncClientHandle.publishValue_sends (rmp : ClientRmp) (c : ClientState)
    (topic : PublishedTopic) (value : Value) :
    ((AsyncClientHandle.publishValue topic value).run c).2.2.filterMap (SocketMessage.binary rmp) =
      [Client.publishValue rmp (.unsignedInt topic.pubuid) topic.type c.serverTime value] := rfl

end NetTables.Client
