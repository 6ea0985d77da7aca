import NetTables.Lib.Run
import NetTables.Server.SendOut
import Mathlib.Algebra.Group.Pi.Basic

namespace NetTables.Server

open Lib Lib.Fallible Spec

/-- The operations of the server, and the end of the task that reads a client's channel. -/
inductive Op where
  | connectClient (identity : ClientIdentity)
  | disconnectClient (ident : ClientIdentity)
  | innerPublishTopic (pubTopic : PublishTopic) (clientIdx : ClientIdx)
  | innerUnpublishTopic (pubTopic : UnpublishTopic) (clientIdx : ClientIdx)
  | subscribe (sub : Subscribe) (clientIdx : ClientIdx) (now : Instant)
  | unsubscribe (unsub : Unsubscribe) (clientIdx : ClientIdx)
  | setProperties (msg : SetProperties)
  | setValue (value : FrcTimestampedValue) (topicIdx : TopicIdx)
  | announceTopic (topicIdx : TopicIdx) (responseOpt : Option (PubUID × ClientIdx))
  | announceAllTopicsFor (subIdx : SubIdx)
  | unAnnounceTopics (topicName : String) (topicIdx : TopicIdx)
  | flushAll
  | flushClient (clientIdx : ClientIdx)
  | sendOut (clock : SendClock) (soonestOffset : ℚ)
  | closeChannel (clientIdx : ClientIdx)

/-- The receiver of a client's channel is dropped. -/
def closeChannel (clientIdx : ClientIdx) : ServerM Unit := do
  match (← get).clients.lookup clientIdx with
  | none => pure ()
  | some client =>
    putClient clientIdx
      { client with subOuput := client.subOuput.map fun ch => { ch with isOpen := false } }

/-- The operation run to its end, its result left aside. -/
def Op.perform (o : IterOrder) : Op → ServerM Unit
  | .connectClient identity => ignoring (Server.connectClient o identity)
  | .disconnectClient ident => Server.disconnectClient o ident
  | .innerPublishTopic pubTopic clientIdx => ignoring (Server.innerPublishTopic o pubTopic clientIdx)
  | .innerUnpublishTopic pubTopic clientIdx => Server.innerUnpublishTopic pubTopic clientIdx
  | .subscribe sub clientIdx now => Server.subscribe o sub clientIdx now
  | .unsubscribe unsub clientIdx => Server.unsubscribe unsub clientIdx
  | .setProperties msg => Server.setProperties msg
  | .setValue value topicIdx => Server.setValue value topicIdx
  | .announceTopic topicIdx responseOpt => Server.announceTopic o topicIdx responseOpt
  | .announceAllTopicsFor subIdx => Server.announceAllTopicsFor o subIdx
  | .unAnnounceTopics topicName topicIdx => Server.unAnnounceTopics o topicName topicIdx
  | .flushAll => Server.flushAll o
  | .flushClient clientIdx => Server.flushClient clientIdx
  | .sendOut clock soonestOffset => ignoring (Server.sendOut o clock soonestOffset)
  | .closeChannel clientIdx => Server.closeChannel clientIdx

/-- A completed operation: it returned, with or without an error. -/
def Step (s : InnerServer) (op : Op) (s' : InnerServer) : Prop :=
  ∃ o r, (op.perform o).exec s = .ok (r, s')

def Init (s : InnerServer) : Prop := ∃ o, (tryNew o).exec {} = .ok (.ok (), s)

inductive Kind where
  | topic
  | sub
  | client
  deriving DecidableEq

def Counter.get (c : Counter) : Kind → UInt32
  | .topic => c.topicIdx
  | .sub => c.subIdx
  | .client => c.clientIdx

/-- How many indices of each kind an operation has taken, from the counters before and after it. -/
def created (s s' : InnerServer) (k : Kind) : Nat := (s'.counters.get k - s.counters.get k).toNat

/-- Runs of completed operations from `try_new` whose steps all meet `guard`, with the number of
topics, subscriptions and connections created. -/
abbrev RunWhere (guard : InnerServer → Op → Prop) : (Kind → Nat) → InnerServer → Prop :=
  Lib.Run Init Step (created {}) created guard

/-- Any run of completed operations. -/
abbrev Runs : (Kind → Nat) → InnerServer → Prop := RunWhere fun _ _ => True

/-- The states that completed operations reach from `try_new`. -/
def Reachable (s : InnerServer) : Prop := ∃ k, Runs k s

/-- Runs a list of operations, as long as each passes `check` and none of them panics. -/
def performAll (check : InnerServer → Op → Bool) (o : IterOrder) :
    List Op → InnerServer → Option InnerServer
  | [], s => some s
  | op :: ops, s =>
    if check s op then
      match (op.perform o).exec s with
      | .ok (_, s') => performAll check o ops s'
      | .error _ => none
    else
      none

/-- The state after `try_new` and a list of operations. -/
def stateAfter (check : InnerServer → Op → Bool) (o : IterOrder) (ops : List Op) :
    Option InnerServer :=
  match (tryNew o).exec {} with
  | .ok (.ok (), s) => performAll check o ops s
  | _ => none

def anyOp (_ : InnerServer) (_ : Op) : Bool := true

end NetTables.Server
