import NetTables.Spec.Subscription

namespace NetTables.Spec

structure PublisherMTE where
  client : String
  pubuid : UInt32
  deriving DecidableEq

structure ClientPublisherMTE where
  topic : String
  uid : UInt32
  deriving DecidableEq

structure SubscriptionMTE where
  client : String
  subuid : UInt32
  options : SubscriptionOptions

structure ClientSubscriptionMTE where
  uid : UInt32
  topics : List String
  options : SubscriptionOptions

structure ClientMTE where
  id : String
  conn : String
  deriving DecidableEq

/-- Two subscription entries are equal when all but their options are. -/
instance : BEq SubscriptionMTE := ⟨fun a b => a.client == b.client && a.subuid == b.subuid⟩

instance : BEq ClientSubscriptionMTE := ⟨fun a b => a.uid == b.uid && a.topics == b.topics⟩

inductive MetaTopicValue where
  | publisher (inner : List PublisherMTE)
  | clientPublisher (inner : List ClientPublisherMTE)
  | serverPublisher (inner : List ClientPublisherMTE)
  | subscription (inner : List SubscriptionMTE)
  | clientSubscription (inner : List ClientSubscriptionMTE)
  | serverSubscription (inner : List ClientSubscriptionMTE)
  | client (inner : List ClientMTE)

namespace MetaTopicValue

/-- Appends the entries of a value of the same variant; any other value changes nothing. -/
def merge : MetaTopicValue → MetaTopicValue → MetaTopicValue
  | publisher inner, publisher other => publisher (inner ++ other)
  | clientPublisher inner, clientPublisher other => clientPublisher (inner ++ other)
  | serverPublisher inner, serverPublisher other => serverPublisher (inner ++ other)
  | subscription inner, subscription other => subscription (inner ++ other)
  | clientSubscription inner, clientSubscription other => clientSubscription (inner ++ other)
  | serverSubscription inner, serverSubscription other => serverSubscription (inner ++ other)
  | client inner, client other => client (inner ++ other)
  | self, _ => self

/-- `inner.retain(|x| !other_inner.contains(x))` -/
def retainNot {α : Type} [BEq α] (inner other : List α) : List α :=
  inner.filter fun x => !other.contains x

/-- Removes the entries of a value of the same variant; any other value changes nothing. -/
def reduce : MetaTopicValue → MetaTopicValue → MetaTopicValue
  | publisher inner, publisher other => publisher (retainNot inner other)
  | clientPublisher inner, clientPublisher other => clientPublisher (retainNot inner other)
  | serverPublisher inner, serverPublisher other => serverPublisher (retainNot inner other)
  | subscription inner, subscription other => subscription (retainNot inner other)
  | clientSubscription inner, clientSubscription other =>
    clientSubscription (retainNot inner other)
  | serverSubscription inner, serverSubscription other =>
    serverSubscription (retainNot inner other)
  | client inner, client other => client (retainNot inner other)
  | self, _ => self

end MetaTopicValue

end NetTables.Spec
