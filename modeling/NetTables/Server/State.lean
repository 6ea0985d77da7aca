import NetTables.Lib.Fallible
import NetTables.Server.Util

namespace NetTables.Server

open Lib Lib.Fallible Spec

inductive NTServerError where
  | clientDoesNotExist (text : String)
  | clientAlreadyExists (text : String)
  | topicDoesNotExist (text : String)
  | subscriptionDoesNotExist (text : String)
  | notNormalTopic (text : String)
  deriving DecidableEq

/-- The errors of the server's operations: its own, and a send on a closed channel. -/
inductive NetworkTablesError where
  | tokioChannelMessageSend
  | serverError (e : NTServerError)
  deriving DecidableEq

instance : Coe NTServerError NetworkTablesError := ⟨.serverError⟩

/-- One value message, `as_bytes(topic_id)` of a timestamped value. -/
structure ValueFrame where
  topicId : Int32
  value : FrcTimestampedValue

/-- What the server puts on a client's outgoing channel: the JSON text of a list of messages,
a run of value messages, or the marker that asks for a flush. -/
inductive OutMessage where
  | text (messages : List NTMessage)
  | binary (frames : List ValueFrame)
  | flush

/-- The sending half of an outgoing channel: all that was put on it, and whether the receiver is
still there. A full channel only delays a send. -/
structure Outgoing where
  sent : List OutMessage := []
  isOpen : Bool := true

def Outgoing.send (ch : Outgoing) (m : OutMessage) : Option Outgoing :=
  if ch.isOpen then some { ch with sent := ch.sent ++ [m] } else none

structure ConnectedClient where
  identity : ClientIdentity
  killBool : Bool
  pubuidToTopicidx : PrimBiMap PubUID TopicIdx
  subuidToSubidx : PrimBiMap SubUID SubIdx
  subOuput : Option Outgoing
  announcedTopics : Finset TopicIdx

def ConnectedClient.new (identity : ClientIdentity) : ConnectedClient where
  identity
  killBool := false
  pubuidToTopicidx := .new
  subuidToSubidx := .new
  subOuput := some {}
  announcedTopics := ∅

/-- The server's maps. `departed` is no field of the source: it keeps what the connection task of
a disconnected client still holds, its kill switch and its channel. -/
structure InnerServer where
  topics : KeyMap TopicIdx Topic := ∅
  topicMap : KeyMap String TopicIdx := ∅
  pubCount : KeyMap TopicIdx UInt16 := ∅
  topicValueMap : KeyMap TopicIdx FrcTimestampedValue := ∅
  metatopicValueMap : KeyMap TopicIdx MetaTopicValue := ∅
  clientMap : KeyMap ClientIdentity ClientIdx := ∅
  clients : KeyMap ClientIdx ConnectedClient := ∅
  clientMetatopicMap : KeyMap ClientIdx (TopicIdx × TopicIdx) := ∅
  subscriptions : KeyMap SubIdx (Subscription × ClientIdx) := ∅
  topicSubMap : KeyMap TopicIdx (List SubIdx) := ∅
  subSendTimestamps : KeyMap SubIdx Instant := ∅
  subValues : KeyMap SubIdx StoredSubValue := ∅
  counters : Counter := {}
  departed : List ConnectedClient := []

/-- A server operation; a panic carries its message. -/
abbrev ServerM := Fallible InnerServer NetworkTablesError String

def unwrapNone : String := "called `Option::unwrap()` on a `None` value"

def clientMetatopic : TopicIdx := 0
def serverPubMetatopic : TopicIdx := 2
def serverClientIdx : ClientIdx := 0

/-- Writes back a client that is there already. -/
def putClient (clientIdx : ClientIdx) (client : ConnectedClient) : ServerM Unit :=
  modify fun s => { s with clients := s.clients.insert clientIdx client }

/-- A send on the channel of client `clientIdx`, which the caller has looked up; the server's own
client has no channel. -/
def sendOn (clientIdx : ClientIdx) (m : OutMessage) : ServerM Unit := do
  match (← get).clients.lookup clientIdx with
  | none => pure ()
  | some client =>
    match client.subOuput with
    | none => pure ()
    | some ch =>
      let ch ← okOr (ch.send m) .tokioChannelMessageSend
      putClient clientIdx { client with subOuput := some ch }

def sendNtMessages (clientIdx : ClientIdx) (messages : List NTMessage) : ServerM Unit :=
  sendOn clientIdx (.text messages)

def sendBinary (clientIdx : ClientIdx) (frames : List ValueFrame) : ServerM Unit :=
  sendOn clientIdx (.binary frames)

/-- `client.announced_topics.insert(topic_idx)` -/
def markAnnounced (clientIdx : ClientIdx) (topicIdx : TopicIdx) : ServerM Unit := do
  match (← get).clients.lookup clientIdx with
  | none => pure ()
  | some client =>
    putClient clientIdx { client with announcedTopics := insert topicIdx client.announcedTopics }

def announceOf (topicIdx : TopicIdx) (topic : Topic) : Announce where
  name := topic.name
  id := topicIdx.toInt32
  type := topic.type
  pubuid := none
  properties := topic.properties.getD {}

/-- The set of clients with a subscription that cares about a name. -/
def clientsToNotify (s : InnerServer) (topicName : String) : List ClientIdx :=
  ((s.subscriptions.pairs.filter fun e => e.2.1.caresAbout topicName).map fun e => e.2.2).dedup

end NetTables.Server
