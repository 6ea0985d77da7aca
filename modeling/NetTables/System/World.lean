import NetTables.Client.AnnouncedTable
import NetTables.Server.Outgoing
import NetTables.Server.TimeSync
import NetTables.System.Batches

namespace NetTables.System

open Lib Lib.Fallible Spec Server

/-- What both ends encode and decode with. -/
structure Codec where
  json : SerdeJson
  rmp : ClientRmp
  dec : RmpDecode
  tryFrom : Value → Option FrcValue
  ofTypeStr : String → FrcType

/-- A piece of the parser's work: one message of a text, or one value of a binary message. -/
inductive ParserTask where
  | ntMessage (message : NTMessage)
  | value (data : Value)

def ParserTask.perform (o : IterOrder) (tryFrom : Value → Option FrcValue) (clientIdx : ClientIdx)
    (now : Instant) : ParserTask → ServerM Unit
  | .ntMessage message => parseNtMessage o clientIdx now message
  | .value data => parseValue tryFrom clientIdx data

namespace Codec

variable (codec : Codec)

/-- A message of a client's channel, as it goes over the socket. -/
def written : Client.SocketMessage → Message
  | .text messages => .text (codec.json.toStringList messages)
  | .value id type timestamp value =>
    .binary (Client.publishValueWTimestamp codec.rmp id type timestamp value)

/-- A message from the socket, as the client decodes it. -/
def received : Message → Client.InnerClient.Incoming
  | .text text => .text (codec.json.fromStr text)
  | .binary data => .binary (readAll codec.dec data)
  | _ => .other

/-- What the parser has to do for a message. -/
def tasks (msg : Message) : List ParserTask :=
  match msg with
  | .text text => ((codec.json.fromStr text).getD []).map .ntMessage
  | .binary msgpack => (readAll codec.dec msgpack).map .value
  | _ => []

end Codec

/-- Whether the server has made a client of the connection, whether its loops are over, so that it
has only the close message to send, and whether its task is. -/
inductive Admission where
  | waiting
  | admitted (clientIdx : ClientIdx)
  | closing (clientIdx : ClientIdx)
  | ended
  deriving DecidableEq

namespace Admission

def client : Admission → Option ClientIdx
  | .admitted clientIdx => some clientIdx
  | .waiting | .closing _ | .ended => none

def isOver : Admission → Bool
  | .closing _ | .ended => true
  | .waiting | .admitted _ => false

def ofResult : Except NetworkTablesError (ClientIdentity × ClientIdx) → Admission
  | .ok (_, clientIdx) => .admitted clientIdx
  | .error _ => .ended

end Admission

/-- The value that a handle sets on the topic it has published. -/
def toBeSet (value : FrcTimestampedValue) :
    Except NetworkTablesError TopicIdx → List (FrcTimestampedValue × TopicIdx)
  | .ok topicIdx => [(value, topicIdx)]
  | .error _ => []

/-- A websocket connection: what the client has written and the server has not read, the messages it
has read that wait for a place on the parser's channel, the answers that wait for the one place of
the time channel, what stands there, how much the outgoing loop has taken off its own channel, and
what the server has written and the client has not read. `heard` is no part of the source: it keeps
what the client has read. -/
structure Connection where
  admission : Admission := .waiting
  identity : Option ClientIdentity := none
  inbox : List Message := []
  passing : List Message := []
  answering : List Message := []
  replies : List Message := []
  taken : Nat := 0
  wire : List Message := []
  heard : List Message := []

/-- What the server is about to write besides what its outgoing channel brings. -/
def Connection.due (conn : Connection) : List Message := conn.replies ++ conn.answering

/-- A client and its newest connection, with what is told of its messages. -/
structure Peer where
  system : Client.System
  told : Client.Told
  connection : Nat

/-- The client after an event. -/
def Peer.after (p : Peer) (e : Client.Event) (S : Client.System) : Peer :=
  { p with system := S, told := p.told.after p.system e S }

/-- A server and its clients: the messages on the parser's channel, what is left of the one it is
at, whether it still runs, and the values that publishing handles have yet to set. -/
structure World where
  server : InnerServer
  peers : KeyMap Nat Peer := ∅
  connections : KeyMap Nat Connection := ∅
  incoming : List ClientMsg := []
  parsing : List (ClientIdx × ParserTask) := []
  parserRuns : Bool := true
  pending : List (FrcTimestampedValue × TopicIdx) := []

namespace World

variable (W : World)

def withPeer (i : Nat) (p : Peer) : World := { W with peers := W.peers.insert i p }

def withConnection (k : Nat) (conn : Connection) : World :=
  { W with connections := W.connections.insert k conn }

def withServer (s : InnerServer) : World := { W with server := s }

/-- A message is sent to the parser; nobody receives it once the parser is gone. -/
def sending (cmsg : ClientMsg) : World :=
  { W with incoming := if W.parserRuns then W.incoming ++ [cmsg] else W.incoming }

end World

/-- What a client does that does not involve its connection's other end. -/
def isOwn : Client.Event → Bool
  | .moves _ | .connectionLost | .writeFailed | .timer | .call _ _ | .tick _ => true
  | .incoming _ | .written | .reconnected => false

/-- What the server does that no client asks for: the passes of `send_out`, and a handle's
`set_topic_props`. Its `set_topic_value` and `get_topic_value` find no topic. -/
def isServerOwn : Op → Bool
  | .sendOut _ _ | .setProperties _ => true
  | _ => false

/-- The answer of a connection to a message. -/
def answerOf : Incoming → List Message
  | .answered msg => [msg]
  | _ => []

/-- What a connection passes on to the parser. -/
def passedOn (m : Message) : Incoming → List Message
  | .forwarded => [m]
  | _ => []

theorem mem_passedOn {m m' : Message} {i : Incoming} (h : m' ∈ passedOn m i) : m' = m := by
  unfold passedOn at h
  split at h
  · exact List.mem_singleton.mp h
  · cases h

/-- What may happen next. -/
inductive Happening where
  | joins (peer connection : Nat) (now : Client.Instant)
  | acts (peer : Nat) (event : Client.Event)
  | reconnects (peer connection : Nat)
  | writes (peer : Nat)
  | reads (peer : Nat)
  | accepts (connection : Nat) (identity : ClientIdentity)
  | filters (connection : Nat) (now : UInt64)
  | passes (connection n : Nat)
  | answers (connection n : Nat)
  | forwards (connection : Nat)
  | replies (connection : Nat)
  | ends (connection : Nat)
  | closes (connection : Nat)
  | parses
  | handles (now : Instant)
  | panics (now : Instant)
  | operates (op : Op)
  | publishes (name : String) (value : FrcValue) (props : Option PublishProperties)
      (uid now : UInt64)
  | sets (n : Nat)

/-- The steps of a server and its clients. The handshake is left out: a connection is there when its
client is, and the server accepts it at some time. What a connection has read waits for its places
in no order, and is lost when the connection ends, as are messages to a parser that is gone. An
operation of the server is one step, which a full outgoing channel only delays; it panics for a
value that cannot be taken, before it has changed anything. The values of a binary message may be
set with other steps in between, although the parser then holds the clients. -/
inductive Happens (codec : Codec) : World → Happening → World → Prop where
  | joins {W i k} (o : IterOrder) (now : Client.Instant) (hi : i ∉ W.peers)
      (hk : k ∉ W.connections) :
      Happens codec W (.joins i k now)
        ((W.withPeer i ⟨.initial o now, .initial, k⟩).withConnection k {})
  | acts {W i p e S} (hp : W.peers.lookup i = some p) (hown : isOwn e = true)
      (h : Client.Takes codec.ofTypeStr p.system e S) :
      Happens codec W (.acts i e) (W.withPeer i (p.after e S))
  | reconnects {W i p k S} (hp : W.peers.lookup i = some p) (hk : k ∉ W.connections)
      (h : Client.Takes codec.ofTypeStr p.system .reconnected S) :
      Happens codec W (.reconnects i k)
        ((W.withPeer i { p.after .reconnected S with connection := k }).withConnection k {})
  | writes {W i p conn m queue S} (hp : W.peers.lookup i = some p)
      (hconn : W.connections.lookup p.connection = some conn)
      (hqueue : p.system.pool.queue = m :: queue)
      (h : Client.Takes codec.ofTypeStr p.system .written S) :
      Happens codec W (.writes i) ((W.withPeer i (p.after .written S)).withConnection p.connection
        { conn with inbox := conn.inbox ++ [codec.written m] })
  | reads {W i p conn m wire S} (hp : W.peers.lookup i = some p)
      (hconn : W.connections.lookup p.connection = some conn) (hwire : conn.wire = m :: wire)
      (h : Client.Takes codec.ofTypeStr p.system (.incoming (codec.received m)) S) :
      Happens codec W (.reads i)
        ((W.withPeer i (p.after (.incoming (codec.received m)) S)).withConnection p.connection
          { conn with wire, heard := conn.heard ++ [m] })
  | accepts {W k conn o identity r s} (hconn : W.connections.lookup k = some conn)
      (hwaiting : conn.admission = .waiting)
      (h : (connectClient o identity).exec W.server = .ok (r, s)) :
      Happens codec W (.accepts k identity) ((W.withServer s).withConnection k
        { conn with admission := .ofResult r, identity := r.toOption.map Prod.fst })
  | filters {W k conn c m inbox} (now : UInt64) (hconn : W.connections.lookup k = some conn)
      (hc : conn.admission = .admitted c) (hinbox : conn.inbox = m :: inbox) :
      Happens codec W (.filters k now) (W.withConnection k
        { conn with
          inbox
          passing := conn.passing ++
            passedOn m (broadcastIncoming codec.rmp.toRmpEncode codec.dec now m)
          answering := conn.answering ++
            answerOf (broadcastIncoming codec.rmp.toRmpEncode codec.dec now m) })
  | passes {W k conn c n m} (hconn : W.connections.lookup k = some conn)
      (hc : conn.admission = .admitted c) (hm : conn.passing[n]? = some m)
      (hroom : W.incoming.length < 127) :
      Happens codec W (.passes k n) ((W.sending ⟨c, m⟩).withConnection k
        { conn with passing := conn.passing.eraseIdx n })
  | answers {W k conn c n m} (hconn : W.connections.lookup k = some conn)
      (hc : conn.admission = .admitted c) (hm : conn.answering[n]? = some m)
      (hroom : conn.replies = []) :
      Happens codec W (.answers k n) (W.withConnection k
        { conn with answering := conn.answering.eraseIdx n, replies := [m] })
  | forwards {W k conn c client ch m} (hconn : W.connections.lookup k = some conn)
      (hc : conn.admission = .admitted c) (hclient : W.server.clients.lookup c = some client)
      (hch : client.subOuput = some ch) (hm : ch.sent[conn.taken]? = some m) :
      Happens codec W (.forwards k) (W.withConnection k
        { conn with
          taken := conn.taken + 1
          wire := conn.wire ++
            (forward (m.toMessage codec.json codec.rmp.toRmpEncode)).filterMap SinkCall.fed })
  | replies {W k conn c m replies} (hconn : W.connections.lookup k = some conn)
      (hc : conn.admission = .admitted c) (hreplies : conn.replies = m :: replies) :
      Happens codec W (.replies k)
        (W.withConnection k { conn with replies, wire := conn.wire ++ [m] })
  | ends {W k conn c} (hconn : W.connections.lookup k = some conn)
      (hc : conn.admission = .admitted c) :
      Happens codec W (.ends k) (W.withConnection k
        { conn with admission := .closing c, passing := [], answering := [], replies := [] })
  | closes {W k conn c identity s} (hconn : W.connections.lookup k = some conn)
      (hc : conn.admission = .closing c) (hidentity : conn.identity = some identity)
      (hroom : W.incoming.length < 127) (h : Step W.server (.closeChannel c) s) :
      Happens codec W (.closes k)
        (((W.sending (closeMsg codec.json c identity)).withServer s).withConnection k
          { conn with admission := .ended })
  | parses {W cmsg incoming} (hidle : W.parsing = []) (hnext : W.incoming = cmsg :: incoming) :
      Happens codec W .parses
        { W with
          incoming
          parsing := (codec.tasks cmsg.msg).map fun task => (cmsg.clientIdx, task) }
  | handles {W c task parsing o now r s} (hnext : W.parsing = (c, task) :: parsing)
      (h : (task.perform o codec.tryFrom c now).exec W.server = .ok (r, s)) :
      Happens codec W (.handles now) { W.withServer s with parsing }
  | panics {W c task parsing o now text} (hnext : W.parsing = (c, task) :: parsing)
      (h : (task.perform o codec.tryFrom c now).exec W.server = .error text) :
      Happens codec W (.panics now) { W with incoming := [], parsing := [], parserRuns := false }
  | operates {W op s} (hop : isServerOwn op = true) (h : Step W.server op s) :
      Happens codec W (.operates op) (W.withServer s)
  | publishes {W o r s} (name : String) (value : FrcValue) (props : Option PublishProperties)
      (uid now : UInt64)
      (h : (innerPublishTopic o ⟨name, uid.toUInt32, value.getType.stringify, props⟩
        serverClientIdx).exec W.server = .ok (r, s)) :
      Happens codec W (.publishes name value props uid now)
        { W.withServer s with
          pending := W.pending ++ toBeSet ⟨now, value⟩ r }
  | sets {W n value topicIdx r s} (hn : W.pending[n]? = some (value, topicIdx))
      (h : (setValue value topicIdx).exec W.server = .ok (r, s)) :
      Happens codec W (.sets n) { W.withServer s with pending := W.pending.eraseIdx n }

/-- A server that has just started, without clients. -/
def Begins (W : World) : Prop := ∃ s, Init s ∧ W = { server := s }

/-- Runs of a server and its clients whose steps all meet `guard`, with the number of topics,
subscriptions and clients created. -/
abbrev WorldsWhere (codec : Codec) (guard : World → Happening → Prop) : (Kind → Nat) → World → Prop :=
  Run Begins (Happens codec) (fun W => created {} W.server)
    (fun W W' => created W.server W'.server) guard

abbrev Worlds (codec : Codec) : (Kind → Nat) → World → Prop := WorldsWhere codec fun _ _ => True

/-- The same with the record of what has happened. -/
abbrev LoggedWorlds (codec : Codec) (guard : World → Happening → Prop) :
    (Kind → Nat) → List (World × Happening) × World → Prop :=
  Run.Logged Begins (Happens codec) (fun W => created {} W.server)
    (fun W W' => created W.server W'.server) guard

/-- The states of a recorded run. -/
def passed (log : List (World × Happening)) (W : World) : List World := log.map Prod.fst ++ [W]

theorem passed_snoc (log : List (World × Happening)) (W W' : World) (happening : Happening) :
    passed (log ++ [(W, happening)]) W' = passed log W ++ [W'] := by
  simp [passed]

/-- The parser's turn is its tasks, one after the other. -/
theorem messageParser_eq (codec : Codec) (o : IterOrder) (clock : Nat → Instant) (cmsg : ClientMsg) :
    messageParser o codec.json codec.dec codec.tryFrom clock cmsg =
      forEach (codec.tasks cmsg.msg).zipIdx fun e =>
        e.1.perform o codec.tryFrom cmsg.clientIdx (clock e.2) := by
  cases hmsg : cmsg.msg with
  | text text =>
    simp only [messageParser, Codec.tasks, hmsg, List.zipIdx_map, forEach_map]
    cases codec.json.fromStr text <;> rfl
  | binary msgpack =>
    have hvalues := List.zipIdx_map_fst 0 (readAll codec.dec msgpack)
    simp only [messageParser, Codec.tasks, hmsg, List.zipIdx_map, forEach_map]
    nth_rewrite 1 [← hvalues]
    rw [forEach_map]
    rfl
  | _ => simp [messageParser, Codec.tasks, hmsg, forEach]

/-- The operation that a message of a client asks for. -/
def ntOp (c : ClientIdx) (now : Instant) : NTMessage → Option Op
  | .publish pubTopic => some (.innerPublishTopic pubTopic c)
  | .unpublish pubTopic => some (.innerUnpublishTopic pubTopic c)
  | .setProperties setProps => some (.setProperties setProps)
  | .subscribe sub => some (.subscribe sub c now)
  | .unsubscribe unsub => some (.unsubscribe unsub c)
  | .close close => some (.disconnectClient ⟨close.addr, close.name⟩)
  | _ => none

/-- The operation that a piece of the parser's work comes to. -/
def ParserTask.op (tryFrom : Value → Option FrcValue) (s : InnerServer) (c : ClientIdx)
    (now : Instant) : ParserTask → Option Op
  | .ntMessage message => ntOp c now message
  | .value data => (updateOf tryFrom s c data).map fun e => .setValue e.2 e.1

section Server

variable {codec : Codec} {s s' : InnerServer} {o : IterOrder} {c : ClientIdx} {now : Instant}
  {W W' : World} {happening : Happening}

/-- An operation whose errors are only logged. -/
theorem step_of_attempt (o : IterOrder) {α : Type} {x : ServerM α} {op : Op}
    {r : Except NetworkTablesError Unit} (hop : ∀ r s', x.exec s = .ok (r, s') →
      ∃ r', (op.perform o).exec s = .ok (r', s')) (h : (attempt x).exec s = .ok (r, s')) :
    Step s op s' := by
  rw [exec_attempt] at h
  rcases hx : x.exec s with text | ⟨r₁, s₁⟩
  · rw [hx] at h
    cases h
  · rw [hx] at h
    cases h
    obtain ⟨r', hr'⟩ := hop r₁ s' hx
    exact ⟨o, r', hr'⟩

theorem exec_ignoring {α : Type} {x : ServerM α} {r : Except NetworkTablesError α}
    (h : x.exec s = .ok (r, s')) : ∃ r', (ignoring x).exec s = .ok (r', s') := by
  rw [ignoring, exec_bind, h]
  cases r with
  | error e => exact ⟨.error e, rfl⟩
  | ok a => exact ⟨.ok (), rfl⟩

/-- A piece of the parser's work is one operation of the server, or nothing. -/
theorem step_of_perform {task : ParserTask} {r : Except NetworkTablesError Unit}
    (h : (task.perform o codec.tryFrom c now).exec s = .ok (r, s')) :
    s' = s ∨ ∃ op, task.op codec.tryFrom s c now = some op ∧ Step s op s' := by
  cases task with
  | ntMessage message =>
    cases message with
    | publish pubTopic =>
      exact .inr ⟨_, rfl, step_of_attempt o (fun _ _ hx => exec_ignoring hx) h⟩
    | unpublish | setProperties | subscribe | unsubscribe | close =>
      exact .inr ⟨_, rfl, step_of_attempt o (fun r _ hx => ⟨r, hx⟩) h⟩
    | _ =>
      cases h
      exact .inl rfl
  | value data =>
    have hreturns : Returns (parseValue codec.tryFrom c data) s := ⟨r, s', h⟩
    rw [ParserTask.perform, exec_parseValue_updateOf hreturns] at h
    cases hupdate : updateOf codec.tryFrom s c data with
    | none =>
      rw [hupdate] at h
      cases h
      exact .inl rfl
    | some e =>
      rw [hupdate] at h
      have hop : (ParserTask.value data).op codec.tryFrom s c now = some (.setValue e.2 e.1) := by
        rw [ParserTask.op, hupdate]
        rfl
      exact .inr ⟨_, hop, step_of_attempt o (fun r _ hx => ⟨r, hx⟩) h⟩

/-- What the server is asked to do by what happens. -/
inductive Asked (codec : Codec) (W : World) : Happening → Op → Prop where
  | accepts (k : Nat) (identity : ClientIdentity) :
      Asked codec W (.accepts k identity) (.connectClient identity)
  | closes (k : Nat) (c : ClientIdx) : Asked codec W (.closes k) (.closeChannel c)
  | handles {c task parsing op} (now : Instant) (hnext : W.parsing = (c, task) :: parsing)
      (hop : task.op codec.tryFrom W.server c now = some op) : Asked codec W (.handles now) op
  | operates {op} (hop : isServerOwn op = true) : Asked codec W (.operates op) op
  | publishes (name : String) (value : FrcValue) (props : Option PublishProperties)
      (uid now : UInt64) : Asked codec W (.publishes name value props uid now)
        (.innerPublishTopic ⟨name, uid.toUInt32, value.getType.stringify, props⟩ serverClientIdx)
  | sets {n value t} (hn : W.pending[n]? = some (value, t)) :
      Asked codec W (.sets n) (.setValue value t)

/-- The server is left alone, or it does what it is asked to. -/
theorem Happens.asked (h : Happens codec W happening W') :
    W'.server = W.server ∨ ∃ op, Asked codec W happening op ∧ Step W.server op W'.server := by
  cases h with
  | accepts hconn hwaiting h =>
    obtain ⟨r', hr'⟩ := exec_ignoring h
    exact .inr ⟨_, .accepts _ _, _, r', hr'⟩
  | closes hconn hc hidentity hroom h => exact .inr ⟨_, .closes _ _, h⟩
  | handles hnext h =>
    rcases step_of_perform h with heq | ⟨op, hop, hstep⟩
    · exact .inl heq
    · exact .inr ⟨op, .handles _ hnext hop, hstep⟩
  | operates hop h => exact .inr ⟨_, .operates hop, h⟩
  | publishes name value props uid now h =>
    obtain ⟨r', hr'⟩ := exec_ignoring h
    exact .inr ⟨_, .publishes name value props uid now, _, r', hr'⟩
  | sets hn h => exact .inr ⟨_, .sets hn, .stored, _, h⟩
  | _ => exact .inl rfl

/-- The server makes one step at most. -/
theorem Happens.server (h : Happens codec W happening W') :
    W'.server = W.server ∨ ∃ op, Step W.server op W'.server := by
  rcases h.asked with heq | ⟨op, -, hop⟩
  · exact .inl heq
  · exact .inr ⟨op, hop⟩

theorem created_self (s : InnerServer) : created s s = 0 := by
  funext k
  simp [created]

/-- The server of a run of a server and its clients is in a run. -/
theorem WorldsWhere.runs {guard : World → Happening → Prop} {u : Kind → Nat}
    (run : WorldsWhere codec guard u W) : Runs u W.server := by
  refine run.invariant (fun u W => Runs u W.server) ?_ ?_
  · intro W hinit
    obtain ⟨s, hs, rfl⟩ := hinit
    exact .start hs
  · intro u W happening W' _ ih _ h
    rcases h.server with heq | ⟨op, hop⟩
    · rw [heq, created_self, add_zero]
      exact ih
    · exact ih.step trivial hop

end Server

section Peers

variable {codec : Codec} {W W' : World} {happening : Happening} {i : Nat} {p p' : Peer}
  {guard : World → Happening → Prop} {u : Kind → Nat}

/-- A client has made this step, with what its connection had for it. -/
structure PeerTakes (codec : Codec) (W : World) (p : Peer) (e : Client.Event) (p' : Peer) :
    Prop where
  takes : Client.Takes codec.ofTypeStr p.system e p'.system
  told : p'.told = p.told.after p.system e p'.system
  reads : ∀ message, e = .incoming message → ∃ conn m,
    W.connections.lookup p.connection = some conn ∧ m ∈ conn.wire ∧ message = codec.received m

/-- A client is as it was, or it is new, or it has made one step. -/
theorem Happens.peer (h : Happens codec W happening W') (hp' : W'.peers.lookup i = some p') :
    W.peers.lookup i = some p' ∨
    (i ∉ W.peers ∧ ∃ o now, p'.system = .initial o now ∧ p'.told = .initial) ∨
    ∃ p e, W.peers.lookup i = some p ∧ PeerTakes codec W p e p' := by
  cases h with
  | joins o now hi hk =>
    simp only [World.withConnection, World.withPeer, KeyMap.lookup_insert] at hp'
    split_ifs at hp' with heq
    · cases hp'
      exact .inr (.inl ⟨heq ▸ hi, o, now, rfl, rfl⟩)
    · exact .inl hp'
  | acts hp hown hacts =>
    simp only [World.withPeer, KeyMap.lookup_insert] at hp'
    split_ifs at hp' with hi
    · cases hp'
      refine .inr (.inr ⟨_, _, hi ▸ hp, hacts, rfl, fun message he => ?_⟩)
      rw [he] at hown
      cases hown
    · exact .inl hp'
  | reconnects hp hk hreconnects =>
    simp only [World.withConnection, World.withPeer, KeyMap.lookup_insert] at hp'
    split_ifs at hp' with hi
    · cases hp'
      refine .inr (.inr ⟨_, _, hi ▸ hp, hreconnects, rfl, fun message he => ?_⟩)
      cases he
    · exact .inl hp'
  | writes hp hconn hqueue hwrites =>
    simp only [World.withConnection, World.withPeer, KeyMap.lookup_insert] at hp'
    split_ifs at hp' with hi
    · cases hp'
      refine .inr (.inr ⟨_, _, hi ▸ hp, hwrites, rfl, fun message he => ?_⟩)
      cases he
    · exact .inl hp'
  | reads hp hconn hwire hreads =>
    simp only [World.withConnection, World.withPeer, KeyMap.lookup_insert] at hp'
    split_ifs at hp' with hi
    · cases hp'
      refine .inr (.inr ⟨_, _, hi ▸ hp, hreads, rfl, fun message he => ?_⟩)
      cases he
      exact ⟨_, _, hconn, hwire ▸ List.mem_cons_self .., rfl⟩
    · exact .inl hp'
  | _ => exact .inl hp'

/-- What every step of a client keeps holds of all clients of a run. -/
theorem WorldsWhere.peers (run : WorldsWhere codec guard u W) (I : Peer → Prop)
    (hinitial : ∀ p o now, p.system = .initial o now → p.told = .initial → I p)
    (hstep : ∀ u W p e p', WorldsWhere codec guard u W → I p → PeerTakes codec W p e p' → I p')
    (hp : W.peers.lookup i = some p) : I p := by
  have hall := run.invariant (fun _ W => ∀ i p, W.peers.lookup i = some p → I p) ?_ ?_
  · exact hall i p hp
  · rintro W ⟨s, -, rfl⟩ i p hp
    cases hp
  · intro u W happening W' run ih _ h i p' hp'
    rcases h.peer hp' with hp' | ⟨-, o, now, hsystem, htold⟩ | ⟨p, e, hp, htakes⟩
    · exact ih i p' hp'
    · exact hinitial p' o now hsystem htold
    · exact hstep u W p e p' run (ih i p hp) htakes

theorem matches_of_worlds (run : WorldsWhere codec guard u W) (hp : W.peers.lookup i = some p) :
    Client.Matches codec.ofTypeStr (p.told, p.system) := by
  refine run.peers (fun p => Client.Matches codec.ofTypeStr (p.told, p.system)) ?_ ?_ hp
  · intro p o now hsystem htold
    rw [hsystem, htold]
    exact Client.matches_initial o now
  · intro _ W p e p' _ ih htakes
    rw [htakes.told]
    exact ih.step htakes.takes

end Peers

section Messages

variable {codec : Codec} {W W' : World} {happening : Happening} {k : Nat} {conn : Connection}
  {m : Message} {guard : World → Happening → Prop} {u : Kind → Nat}

/-- The message is what the outgoing loop makes of this one of a channel. -/
def Forwarded (codec : Codec) (out : OutMessage) (m : Message) : Prop :=
  m ∈ (forward (out.toMessage codec.json codec.rmp.toRmpEncode)).filterMap SinkCall.fed

/-- The message is the answer of a connection to another, at this time of the server's clock. -/
def Answered (codec : Codec) (now : UInt64) (m : Message) : Prop :=
  ∃ m', m ∈ answerOf (broadcastIncoming codec.rmp.toRmpEncode codec.dec now m')

/-- The outgoing loop lets texts through only. -/
theorem text_of_forwarded {out : OutMessage} (h : Forwarded codec out m) :
    ∃ messages, out = .text messages ∧ m = .text (codec.json.toStringList messages) := by
  rw [Forwarded, fed_forward] at h
  cases out with
  | text messages =>
    simp only [textOf, Option.toList_some, List.mem_singleton] at h
    exact ⟨messages, rfl, h⟩
  | binary frames | flush => cases h

/-- A connection answers with the time, or to a ping. -/
theorem answer_cases {now : UInt64} (h : Answered codec now m) :
    m = .pong ∨ ∃ time, m = timeMessage codec.rmp.toRmpEncode now time := by
  obtain ⟨m', h⟩ := h
  unfold broadcastIncoming at h
  split at h
  · split at h
    · split_ifs at h
      · cases h
      · split at h
        · split at h
          · exact .inr ⟨_, List.mem_singleton.mp h⟩
          · cases h
          · cases h
        · cases h
      · cases h
    · cases h
  · exact .inl (List.mem_singleton.mp h)
  · cases h
  · cases h
  · cases h

/-- An answer that gets its place was about to be written before. -/
theorem mem_due_of_answers {m' : Message} {n : Nat} (hm : conn.answering[n]? = some m)
    (hdue : m' ∈ [m] ++ conn.answering.eraseIdx n) : m' ∈ conn.due := by
  refine List.mem_append_right _ ?_
  rcases List.mem_cons.mp hdue with rfl | hdue
  · exact List.mem_of_getElem? hm
  · exact List.mem_of_mem_eraseIdx hdue

/-- A message that the server has for a client was there before, or it is an answer, or it comes
from a client's channel. -/
theorem Happens.outgoing (h : Happens codec W happening W')
    (hconn : W'.connections.lookup k = some conn) (hm : m ∈ conn.wire ++ conn.due) :
    (∃ conn, W.connections.lookup k = some conn ∧ m ∈ conn.wire ++ conn.due) ∨
    (∃ now, happening = .filters k now ∧ Answered codec now m) ∨
    ∃ c client ch out, W.server.clients.lookup c = some client ∧ client.subOuput = some ch ∧
      out ∈ ch.sent ∧ Forwarded codec out m := by
  have hsame : W'.connections = W.connections →
      ∃ conn, W.connections.lookup k = some conn ∧ m ∈ conn.wire ++ conn.due := by
    intro heq
    rw [heq] at hconn
    exact ⟨conn, hconn, hm⟩
  -- the last argument says what has become of the messages of the connection that is changed
  have hput : ∀ {k₀ conn₀ conn₁}, W'.connections = W.connections.insert k₀ conn₁ →
      W.connections.lookup k₀ = some conn₀ →
      (m ∈ conn₁.wire ++ conn₁.due → m ∈ conn₀.wire ++ conn₀.due) →
      ∃ conn, W.connections.lookup k = some conn ∧ m ∈ conn.wire ++ conn.due := by
    intro k₀ conn₀ conn₁ heq hconn₀ hkept
    rw [heq, KeyMap.lookup_insert] at hconn
    split_ifs at hconn with hk
    · cases hconn
      exact ⟨conn₀, hk ▸ hconn₀, hkept hm⟩
    · exact ⟨conn, hconn, hm⟩
  have hnew : ∀ {k₀}, W'.connections = W.connections.insert k₀ {} →
      ∃ conn, W.connections.lookup k = some conn ∧ m ∈ conn.wire ++ conn.due := by
    intro k₀ heq
    rw [heq, KeyMap.lookup_insert] at hconn
    split_ifs at hconn
    · cases hconn
      cases hm
    · exact ⟨conn, hconn, hm⟩
  cases h with
  | joins | reconnects => exact .inl (hnew rfl)
  | writes hp hconn₀ | accepts hconn₀ | passes hconn₀ | closes hconn₀ =>
    exact .inl (hput rfl hconn₀ id)
  | reads hp hconn₀ hwire =>
    refine .inl (hput rfl hconn₀ fun h => ?_)
    rw [hwire, List.cons_append]
    exact List.mem_cons_of_mem _ h
  | answers hconn₀ hc hm₀ =>
    refine .inl (hput rfl hconn₀ fun h => ?_)
    rcases List.mem_append.mp h with h | h
    · exact List.mem_append_left _ h
    · exact List.mem_append_right _ (mem_due_of_answers hm₀ h)
  | replies hconn₀ hc hreplies =>
    refine .inl (hput rfl hconn₀ fun h => ?_)
    simp only [Connection.due, List.append_assoc, List.singleton_append] at h
    rwa [Connection.due, hreplies, List.cons_append]
  | ends hconn₀ =>
    refine .inl (hput rfl hconn₀ fun h => ?_)
    rw [Connection.due, List.append_nil, List.append_nil] at h
    exact List.mem_append_left _ h
  | filters now hconn₀ hc hinbox =>
    simp only [World.withConnection, KeyMap.lookup_insert] at hconn
    split_ifs at hconn with hk
    · cases hconn
      simp only [Connection.due, ← List.append_assoc] at hm
      rcases List.mem_append.mp hm with hm | hm
      · rw [List.append_assoc] at hm
        exact .inl ⟨_, hk ▸ hconn₀, hm⟩
      · exact .inr (.inl ⟨now, hk ▸ rfl, _, hm⟩)
    · exact .inl ⟨conn, hconn, hm⟩
  | @forwards k₀ conn₀ c client ch out hconn₀ hc hclient hch hout =>
    simp only [World.withConnection, KeyMap.lookup_insert] at hconn
    split_ifs at hconn with hk
    · cases hconn
      rcases List.mem_append.mp hm with hm | hm
      · rcases List.mem_append.mp hm with hm | hm
        · exact .inl ⟨conn₀, hk ▸ hconn₀, List.mem_append_left _ hm⟩
        · exact .inr (.inr ⟨_, _, _, _, hclient, hch, List.mem_of_getElem? hout, hm⟩)
      · exact .inl ⟨conn₀, hk ▸ hconn₀, List.mem_append_right _ hm⟩
    · exact .inl ⟨conn, hconn, hm⟩
  | _ => exact .inl (hsame rfl)

/-- What holds of answers and of all that the outgoing loop makes of a message holds of all that
the server has for its clients. -/
theorem WorldsWhere.outgoing (run : WorldsWhere codec guard u W) (P : Message → Prop)
    (hanswer : ∀ now m, Answered codec now m → P m) (hforward : ∀ out m, Forwarded codec out m → P m)
    (hconn : W.connections.lookup k = some conn) (hm : m ∈ conn.wire ++ conn.due) : P m := by
  have hall := run.invariant (fun _ W => ∀ k conn, W.connections.lookup k = some conn →
    ∀ m ∈ conn.wire ++ conn.due, P m) ?_ ?_
  · exact hall k conn hconn m hm
  · rintro W ⟨s, -, rfl⟩ k conn hconn
    cases hconn
  · intro _ W happening W' _ ih _ h k conn hconn m hm
    rcases h.outgoing hconn hm with ⟨conn₀, hconn₀, hold⟩ | ⟨now, -, hnew⟩ |
      ⟨_, _, _, out, -, -, -, hfed⟩
    · exact ih k conn₀ hconn₀ m hold
    · exact hanswer now m hnew
    · exact hforward out m hfed

end Messages

section Perform

variable (codec : Codec) (o : IterOrder)

namespace World

/-- The step for a happening, if it can happen. -/
def take (W : World) : Happening → Option World
  | .joins i k now =>
    if i ∈ W.peers ∨ k ∈ W.connections then
      none
    else
      some ((W.withPeer i ⟨.initial o now, .initial, k⟩).withConnection k {})
  | .acts i e =>
    if isOwn e then do
      let p ← W.peers.lookup i
      let S ← p.system.take o codec.ofTypeStr e
      some (W.withPeer i (p.after e S))
    else
      none
  | .reconnects i k =>
    if k ∈ W.connections then
      none
    else do
      let p ← W.peers.lookup i
      let S ← p.system.take o codec.ofTypeStr .reconnected
      some ((W.withPeer i { p.after .reconnected S with connection := k }).withConnection k {})
  | .writes i => do
    let p ← W.peers.lookup i
    let conn ← W.connections.lookup p.connection
    let m ← p.system.pool.queue.head?
    let S ← p.system.take o codec.ofTypeStr .written
    some ((W.withPeer i (p.after .written S)).withConnection p.connection
      { conn with inbox := conn.inbox ++ [codec.written m] })
  | .reads i => do
    let p ← W.peers.lookup i
    let conn ← W.connections.lookup p.connection
    let m ← conn.wire.head?
    let S ← p.system.take o codec.ofTypeStr (.incoming (codec.received m))
    some ((W.withPeer i (p.after (.incoming (codec.received m)) S)).withConnection p.connection
      { conn with wire := conn.wire.tail, heard := conn.heard ++ [m] })
  | .accepts k identity => do
    let conn ← W.connections.lookup k
    let e ← ((connectClient o identity).exec W.server).toOption
    if conn.admission = .waiting then
      some ((W.withServer e.2).withConnection k
        { conn with admission := .ofResult e.1, identity := e.1.toOption.map Prod.fst })
    else
      none
  | .filters k now => do
    let conn ← W.connections.lookup k
    let _ ← conn.admission.client
    let m ← conn.inbox.head?
    some (W.withConnection k
      { conn with
        inbox := conn.inbox.tail
        passing := conn.passing ++
          passedOn m (broadcastIncoming codec.rmp.toRmpEncode codec.dec now m)
        answering := conn.answering ++
          answerOf (broadcastIncoming codec.rmp.toRmpEncode codec.dec now m) })
  | .passes k n => do
    let conn ← W.connections.lookup k
    let c ← conn.admission.client
    let m ← conn.passing[n]?
    if W.incoming.length < 127 then
      some ((W.sending ⟨c, m⟩).withConnection k
        { conn with passing := conn.passing.eraseIdx n })
    else
      none
  | .answers k n => do
    let conn ← W.connections.lookup k
    let _ ← conn.admission.client
    let m ← conn.answering[n]?
    if conn.replies.isEmpty then
      some (W.withConnection k
        { conn with answering := conn.answering.eraseIdx n, replies := [m] })
    else
      none
  | .forwards k => do
    let conn ← W.connections.lookup k
    let c ← conn.admission.client
    let client ← W.server.clients.lookup c
    let ch ← client.subOuput
    let m ← ch.sent[conn.taken]?
    some (W.withConnection k
      { conn with
        taken := conn.taken + 1
        wire := conn.wire ++
          (forward (m.toMessage codec.json codec.rmp.toRmpEncode)).filterMap SinkCall.fed })
  | .replies k => do
    let conn ← W.connections.lookup k
    let _ ← conn.admission.client
    let m ← conn.replies.head?
    some (W.withConnection k
      { conn with replies := conn.replies.tail, wire := conn.wire ++ [m] })
  | .ends k => do
    let conn ← W.connections.lookup k
    let c ← conn.admission.client
    some (W.withConnection k
      { conn with admission := .closing c, passing := [], answering := [], replies := [] })
  | .closes k => do
    let conn ← W.connections.lookup k
    let identity ← conn.identity
    match conn.admission with
    | .closing c =>
      if W.incoming.length < 127 then do
        let e ← (((Op.closeChannel c).perform o).exec W.server).toOption
        some (((W.sending (closeMsg codec.json c identity)).withServer e.2).withConnection k
          { conn with admission := .ended })
      else
        none
    | _ => none
  | .parses => do
    let cmsg ← W.incoming.head?
    if W.parsing.isEmpty then
      some { W with
        incoming := W.incoming.tail
        parsing := (codec.tasks cmsg.msg).map fun task => (cmsg.clientIdx, task) }
    else
      none
  | .handles now => do
    let next ← W.parsing.head?
    let e ← ((next.2.perform o codec.tryFrom next.1 now).exec W.server).toOption
    some { W.withServer e.2 with parsing := W.parsing.tail }
  | .panics now => do
    let next ← W.parsing.head?
    match (next.2.perform o codec.tryFrom next.1 now).exec W.server with
    | .error _ => some { W with incoming := [], parsing := [], parserRuns := false }
    | .ok _ => none
  | .operates op => do
    let e ← ((op.perform o).exec W.server).toOption
    if isServerOwn op then some (W.withServer e.2) else none
  | .publishes name value props uid now => do
    let e ← ((innerPublishTopic o ⟨name, uid.toUInt32, value.getType.stringify, props⟩
      serverClientIdx).exec W.server).toOption
    some { W.withServer e.2 with
      pending := W.pending ++ toBeSet ⟨now, value⟩ e.1 }
  | .sets n => do
    let next ← W.pending[n]?
    let e ← ((setValue next.1 next.2).exec W.server).toOption
    some { W.withServer e.2 with pending := W.pending.eraseIdx n }

/-- One happening after the other, as long as they can happen and `check` holds before each. -/
def takeAll (check : World → Happening → Bool) (W : World) : List Happening → Option World
  | [] => some W
  | happening :: happenings =>
    if check W happening then
      (W.take codec o happening).bind fun W' => W'.takeAll check happenings
    else
      none

/-- The same from the beginning. -/
def after (check : World → Happening → Bool) (happenings : List Happening) : Option World :=
  ({ server := started } : World).takeAll codec o check happenings

end World

variable {codec : Codec} {o : IterOrder} {W W' : World} {happening : Happening}

theorem eq_ok_of_toOption {ε α : Type} {x : Except ε α} {a : α} (h : x.toOption = some a) :
    x = .ok a := by
  cases x with
  | error e => cases h
  | ok b => exact congrArg _ (Option.some.inj h)

theorem eq_cons_of_head? {α : Type} {l : List α} {a : α} (h : l.head? = some a) :
    l = a :: l.tail := by
  cases l with
  | nil => cases h
  | cons b l => rw [Option.some.inj h, List.tail_cons]

theorem admitted_of_client {admission : Admission} {c : ClientIdx}
    (h : admission.client = some c) : admission = .admitted c := by
  cases admission with
  | admitted c' => exact congrArg _ (Option.some.inj h)
  | waiting | closing | ended => cases h

theorem happens_of_take (h : W.take codec o happening = some W') :
    Happens codec W happening W' := by
  cases happening with
  | joins i k now =>
    simp only [World.take] at h
    split_ifs at h with hnew
    cases h
    rw [not_or] at hnew
    exact .joins o now hnew.1 hnew.2
  | acts i e =>
    simp only [World.take] at h
    split_ifs at h with hown
    obtain ⟨p, hp, h⟩ := Option.bind_eq_some_iff.mp h
    obtain ⟨S, hS, h⟩ := Option.bind_eq_some_iff.mp h
    cases h
    exact .acts hp hown (Client.takes_of_take hS)
  | reconnects i k =>
    simp only [World.take] at h
    split_ifs at h with hk
    obtain ⟨p, hp, h⟩ := Option.bind_eq_some_iff.mp h
    obtain ⟨S, hS, h⟩ := Option.bind_eq_some_iff.mp h
    cases h
    exact .reconnects hp hk (Client.takes_of_take hS)
  | writes i =>
    obtain ⟨p, hp, h⟩ := Option.bind_eq_some_iff.mp h
    obtain ⟨conn, hconn, h⟩ := Option.bind_eq_some_iff.mp h
    obtain ⟨m, hm, h⟩ := Option.bind_eq_some_iff.mp h
    obtain ⟨S, hS, h⟩ := Option.bind_eq_some_iff.mp h
    cases h
    exact .writes hp hconn (eq_cons_of_head? hm) (Client.takes_of_take hS)
  | reads i =>
    obtain ⟨p, hp, h⟩ := Option.bind_eq_some_iff.mp h
    obtain ⟨conn, hconn, h⟩ := Option.bind_eq_some_iff.mp h
    obtain ⟨m, hm, h⟩ := Option.bind_eq_some_iff.mp h
    obtain ⟨S, hS, h⟩ := Option.bind_eq_some_iff.mp h
    cases h
    exact .reads hp hconn (eq_cons_of_head? hm) (Client.takes_of_take hS)
  | accepts k identity =>
    obtain ⟨conn, hconn, h⟩ := Option.bind_eq_some_iff.mp h
    obtain ⟨e, he, h⟩ := Option.bind_eq_some_iff.mp h
    split_ifs at h with hwaiting
    cases h
    exact .accepts hconn hwaiting (eq_ok_of_toOption he)
  | filters k now =>
    obtain ⟨conn, hconn, h⟩ := Option.bind_eq_some_iff.mp h
    obtain ⟨c, hc, h⟩ := Option.bind_eq_some_iff.mp h
    obtain ⟨m, hm, h⟩ := Option.bind_eq_some_iff.mp h
    cases h
    exact .filters now hconn (admitted_of_client hc) (eq_cons_of_head? hm)
  | forwards k =>
    obtain ⟨conn, hconn, h⟩ := Option.bind_eq_some_iff.mp h
    obtain ⟨c, hc, h⟩ := Option.bind_eq_some_iff.mp h
    obtain ⟨client, hclient, h⟩ := Option.bind_eq_some_iff.mp h
    obtain ⟨ch, hch, h⟩ := Option.bind_eq_some_iff.mp h
    obtain ⟨m, hm, h⟩ := Option.bind_eq_some_iff.mp h
    cases h
    exact .forwards hconn (admitted_of_client hc) hclient hch hm
  | passes k n =>
    obtain ⟨conn, hconn, h⟩ := Option.bind_eq_some_iff.mp h
    obtain ⟨c, hc, h⟩ := Option.bind_eq_some_iff.mp h
    obtain ⟨m, hm, h⟩ := Option.bind_eq_some_iff.mp h
    split_ifs at h with hroom
    cases h
    exact .passes hconn (admitted_of_client hc) hm hroom
  | answers k n =>
    obtain ⟨conn, hconn, h⟩ := Option.bind_eq_some_iff.mp h
    obtain ⟨c, hc, h⟩ := Option.bind_eq_some_iff.mp h
    obtain ⟨m, hm, h⟩ := Option.bind_eq_some_iff.mp h
    split_ifs at h with hroom
    cases h
    exact .answers hconn (admitted_of_client hc) hm (List.isEmpty_iff.mp hroom)
  | replies k =>
    obtain ⟨conn, hconn, h⟩ := Option.bind_eq_some_iff.mp h
    obtain ⟨c, hc, h⟩ := Option.bind_eq_some_iff.mp h
    obtain ⟨m, hm, h⟩ := Option.bind_eq_some_iff.mp h
    cases h
    exact .replies hconn (admitted_of_client hc) (eq_cons_of_head? hm)
  | ends k =>
    obtain ⟨conn, hconn, h⟩ := Option.bind_eq_some_iff.mp h
    obtain ⟨c, hc, h⟩ := Option.bind_eq_some_iff.mp h
    cases h
    exact .ends hconn (admitted_of_client hc)
  | closes k =>
    obtain ⟨conn, hconn, h⟩ := Option.bind_eq_some_iff.mp h
    obtain ⟨identity, hidentity, h⟩ := Option.bind_eq_some_iff.mp h
    cases hc : conn.admission with
    | closing c =>
      simp only [hc] at h
      split_ifs at h with hroom
      obtain ⟨e, he, h⟩ := Option.bind_eq_some_iff.mp h
      cases h
      exact .closes hconn hc hidentity hroom ⟨o, e.1, eq_ok_of_toOption he⟩
    | waiting | admitted | ended =>
      rw [hc] at h
      cases h
  | parses =>
    obtain ⟨cmsg, hnext, h⟩ := Option.bind_eq_some_iff.mp h
    split_ifs at h with hidle
    cases h
    exact .parses (List.isEmpty_iff.mp hidle) (eq_cons_of_head? hnext)
  | handles now =>
    obtain ⟨next, hnext, h⟩ := Option.bind_eq_some_iff.mp h
    obtain ⟨e, he, h⟩ := Option.bind_eq_some_iff.mp h
    cases h
    exact .handles (eq_cons_of_head? hnext) (eq_ok_of_toOption he)
  | panics now =>
    obtain ⟨next, hnext, h⟩ := Option.bind_eq_some_iff.mp h
    cases hx : (next.2.perform o codec.tryFrom next.1 now).exec W.server with
    | error text =>
      rw [hx] at h
      cases h
      exact .panics (eq_cons_of_head? hnext) hx
    | ok e =>
      rw [hx] at h
      cases h
  | operates op =>
    obtain ⟨e, he, h⟩ := Option.bind_eq_some_iff.mp h
    split_ifs at h with hop
    cases h
    exact .operates hop ⟨o, e.1, eq_ok_of_toOption he⟩
  | publishes name value props uid now =>
    obtain ⟨e, he, h⟩ := Option.bind_eq_some_iff.mp h
    cases h
    exact .publishes name value props uid now (eq_ok_of_toOption he)
  | sets n =>
    obtain ⟨next, hnext, h⟩ := Option.bind_eq_some_iff.mp h
    obtain ⟨e, he, h⟩ := Option.bind_eq_some_iff.mp h
    cases h
    exact .sets hnext (eq_ok_of_toOption he)

section Concrete

variable {guard : World → Happening → Prop} {check : World → Happening → Bool}
  {happenings : List Happening} {u : Kind → Nat}

theorem Happens.created_le (h : Happens codec W happening W') (k : Kind) :
    created W.server W'.server k ≤ 3 := by
  rcases h.server with heq | ⟨op, hop⟩
  · rw [heq, created_self]
    exact Nat.zero_le 3
  · obtain ⟨es, hes, -, hn⟩ := hop.does
    rw [created_of_effects hes k (hn k)]
    exact hn k

theorem exists_logged (run : WorldsWhere codec guard u W) :
    ∃ log, LoggedWorlds codec guard u (log, W) :=
  run.exists_carrying [] fun log V happening _ => log ++ [(V, happening)]

/-- Happenings that all pass a check for the guard go on with a run. -/
theorem logged_takeAll {log : List (World × Happening)} (run : LoggedWorlds codec guard u (log, W))
    (hg : ∀ W happening, check W happening = true → guard W happening)
    (h : W.takeAll codec o check happenings = some W') :
    ∃ u' log', LoggedWorlds codec guard u' (log', W') ∧ (∀ V ∈ passed log W, V ∈ passed log' W') ∧
      ∀ k, u' k ≤ u k + 3 * happenings.length := by
  induction happenings generalizing W u log with
  | nil =>
    cases h
    exact ⟨u, log, run, fun _ hV => hV, fun k => Nat.le_add_right ..⟩
  | cons happening happenings ih =>
    simp only [World.takeAll] at h
    split_ifs at h with hcheck
    obtain ⟨W₁, hfirst, h⟩ := Option.bind_eq_some_iff.mp h
    have hstep := happens_of_take hfirst
    have hnext := Lib.Run.logged_step run hstep (hg W happening hcheck)
    obtain ⟨u', log', run', hpast, hu'⟩ := ih hnext h
    refine ⟨u', log', run', fun V hV => hpast V ?_, fun k => ?_⟩
    · rw [passed_snoc]
      exact List.mem_append_left _ hV
    · have hk := hu' k
      have hle := hstep.created_le k
      rw [Pi.add_apply] at hk
      rw [List.length_cons]
      omega

/-- A list of happenings that all pass a check for the guard, as a run. -/
theorem worlds_after (hg : ∀ W happening, check W happening = true → guard W happening)
    (h : World.after codec o check happenings = some W) :
    ∃ u, WorldsWhere codec guard u W ∧ ∀ k, u k ≤ 4 + 3 * happenings.length := by
  have hinit : Init started := ⟨.stored, rfl⟩
  have hbegins : Begins { server := started } := ⟨started, hinit, rfl⟩
  obtain ⟨log₀, hstart⟩ : ∃ log, LoggedWorlds codec guard _ (log, { server := started }) :=
    exists_logged (Lib.Run.start hbegins)
  obtain ⟨u, log, run, -, hu⟩ := logged_takeAll hstart hg h
  refine ⟨u, Lib.Run.Logged.run (p := (log, W)) run, fun k => ?_⟩
  obtain ⟨es, hes, -, hn⟩ := hinit.does
  have hprice := created_of_booted hes k (hn k)
  have hle := hn k
  have hk := hu k
  dsimp only at hk
  rw [hprice] at hk
  split_ifs at hk <;> omega

/-- JSON of these texts only. -/
def jsonOf (texts : List (List NTMessage × String)) : SerdeJson where
  toStringOne := jsonClose.toStringOne
  toStringList messages := ((texts.find? fun e => e.1 = messages).map Prod.snd).getD "[]"
  fromStr text := (texts.find? fun e => e.2 = text).map Prod.fst

/-- Writes the integers that are a `u64` as values, and nil for others. -/
def writeIntegers : ClientRmp where
  toRmpEncode := { MsgPack.small.toRmpEncode with
    writeValue
      | .integer i => if 0 ≤ i ∧ i < 2 ^ 64 then MsgPack.writeUint i.toNat else [0xc0]
      | _ => [0xc0] }
  writeU32 := MsgPack.small.writeU32

/-- These texts, and values that are integers. -/
def codecOf (texts : List (List NTMessage × String)) : Codec where
  json := jsonOf texts
  rmp := writeIntegers
  dec := MsgPack.readIntegers
  tryFrom v := some ⟨.int, v⟩
  ofTypeStr _ := .int

open MsgPack in
/-- An id is written as an integer in one of its encodings. -/
theorem writeToBuf_form (id : Client.UnsignedIntOrNegativeOne) : ∃ (f : IntForm) (n : Int),
    f.Fits n ∧ id.writeToBuf writeIntegers = f.bytes n ∧ idValue id = .integer n := by
  cases id with
  | negativeOne => exact ⟨.i32, _, fits_i32 (-1), writeI32_form (-1), rfl⟩
  | unsignedInt pubuid =>
    have hlt := pubuid.toNat_lt
    have hmod : ((pubuid.toNat : Int) % 256 ^ 4).toNat = pubuid.toNat := by omega
    refine ⟨.u32, pubuid.toNat, ⟨Int.natCast_nonneg _, ?_⟩, ?_, rfl⟩
    · have hbound : (256 : Int) ^ IntForm.u32.width = 2 ^ 32 := rfl
      omega
    · rw [IntForm.bytes, IntForm.width, hmod]
      rfl

open MsgPack in
/-- What a message is written as, up to its value. -/
theorem bytes_writeIntegers (id : Client.UnsignedIntOrNegativeOne) (timestamp : UInt64) (type : UInt8) :
    ∃ (f g : IntForm) (n : Int), f.Fits n ∧ g.Fits timestamp.toNat ∧ idValue id = .integer n ∧
      ∀ value, BinaryMessage.bytes writeIntegers ⟨id, timestamp, type, value⟩ =
        0x94 :: (f.bytes n ++ (g.bytes timestamp.toNat ++
          (IntForm.u8.bytes type.toNat ++ writeIntegers.writeValue value))) := by
  obtain ⟨f, n, hf, hid, hvalue⟩ := writeToBuf_form id
  obtain ⟨g, hg, htime⟩ := writeUint_form timestamp.toNat_lt
  refine ⟨f, g, n, hf, hg, hvalue, fun value => ?_⟩
  rw [← hid, ← htime, ← writeU8_form]
  simp [BinaryMessage.bytes, writeIntegers, small]

open MsgPack in
theorem readBy_writeIntegers (id : Client.UnsignedIntOrNegativeOne) (timestamp : UInt64)
    (type : UInt8) {i : Int} (hlow : 0 ≤ i) (hlt : i < 2 ^ 64) :
    BinaryMessage.ReadBy writeIntegers readIntegers ⟨id, timestamp, type, .integer i⟩ := by
  intro rest
  obtain ⟨f, g, n, hf, hg, hvalue, hbytes⟩ := bytes_writeIntegers id timestamp type
  obtain ⟨g', hg', hwrite⟩ := writeUint_form (n := i.toNat) (by omega)
  have hbody : writeIntegers.writeValue (.integer i) = g'.bytes i := by
    rw [Int.toNat_of_nonneg hlow] at hwrite
    rw [← hwrite]
    exact if_pos ⟨hlow, hlt⟩
  rw [Int.toNat_of_nonneg hlow] at hg'
  have hread := readFour_bytes hf hg (fits_u8 type) hg' rest
  have hfrom : readIntegers.fromRead = readFour := rfl
  rw [hbytes, hbody, hfrom, BinaryMessage.decoded, hvalue, ← hread]
  simp only [List.cons_append, List.append_assoc]

theorem framed_codecOf {texts : List (List NTMessage × String)}
    (h : texts.all fun e => jsonHead e.2 = some '[') : (codecOf texts).json.Framed := by
  refine ⟨framed_jsonClose.object, fun text l hl => ?_⟩
  obtain ⟨e, he, -⟩ := Option.map_eq_some_iff.mp hl
  have htext : e.2 = text := by simpa using List.find?_some he
  have hhead := List.all_eq_true.mp h e (List.mem_of_find?_eq_some he)
  rw [← htext]
  exact of_decide_eq_true hhead

def anyHappening : World → Happening → Bool := fun _ _ => true

theorem worlds_of_after (h : World.after codec o anyHappening happenings = some W) :
    ∃ u, Worlds codec u W ∧ ∀ k, u k ≤ 4 + 3 * happenings.length :=
  worlds_after (fun _ _ _ => trivial) h

/-- A task of a client goes on by `n` steps. -/
def moves (i : Nat) (t : Client.TaskId) (n : Nat) : List Happening :=
  List.replicate n (.acts i (.moves t))

/-- A client gets its connection and its place on the server, and `start` returns. -/
def connects (i k : Nat) (identity : ClientIdentity) : List Happening :=
  [.joins i k 0, .accepts k identity] ++ moves i .start 15

end Concrete

end Perform

end NetTables.System
