import NetTables.Spec.Subscription

namespace NetTables.Spec

/-- The address of a peer; an IPv6 address is kept by its text. -/
inductive SocketAddr where
  | v4 (a b c d : UInt8) (port : UInt16)
  | v6 (ip : String) (flowinfo scopeId : UInt32) (port : UInt16)
  deriving DecidableEq

/-- `Display` of a socket address. -/
def SocketAddr.display : SocketAddr → String
  | .v4 a b c d port => s!"{a}.{b}.{c}.{d}:{port}"
  | .v6 ip _ scopeId port =>
    if scopeId = 0 then s!"[{ip}]:{port}" else s!"[{ip}%{scopeId}]:{port}"

structure UnpublishTopic where
  pubuid : UInt32
  deriving DecidableEq

structure Subscribe where
  subuid : Int32
  topics : Finset String
  options : Option SubscriptionOptions
  deriving DecidableEq

structure Unsubscribe where
  subuid : Int32
  deriving DecidableEq

structure SetProperties where
  name : String
  update : PublishProperties
  deriving DecidableEq

structure Announce where
  name : String
  id : Int32
  type : String
  pubuid : Option Int32
  properties : PublishProperties
  deriving DecidableEq

structure UnAnnounce where
  name : String
  id : UInt32
  deriving DecidableEq

structure Properties where
  name : String
  ack : Option Bool
  deriving DecidableEq

structure Close where
  addr : SocketAddr
  name : String
  deriving DecidableEq

inductive NTMessage where
  | publish (m : PublishTopic)
  | unpublish (m : UnpublishTopic)
  | subscribe (m : Subscribe)
  | unsubscribe (m : Unsubscribe)
  | setProperties (m : SetProperties)
  | announce (m : Announce)
  | unAnnounce (m : UnAnnounce)
  | properties (m : Properties)
  | close (m : Close)
  deriving DecidableEq

/-- The functions of `serde_json` that the server calls: `to_string` of one message and of a list,
and `from_str::<Vec<NTMessage>>`. -/
structure SerdeJson where
  toStringOne : NTMessage → String
  toStringList : List NTMessage → String
  fromStr : String → Option (List NTMessage)

/-- White space of JSON. -/
def isJsonSpace (c : Char) : Bool := c = ' ' || c = '\t' || c = '\n' || c = '\r'

/-- The first character of a JSON text that says what it is. -/
def jsonHead (text : String) : Option Char := (text.toList.dropWhile isJsonSpace).head?

/-- A tagged enum is an object, and a `Vec` comes from an array only. -/
structure SerdeJson.Framed (json : SerdeJson) : Prop where
  object : ∀ m, jsonHead (json.toStringOne m) = some '\x7b'
  array : ∀ text l, json.fromStr text = some l → jsonHead text = some '['

end NetTables.Spec
