import NetTables.Lib.Hub
import NetTables.Server.Isolation

namespace NetTables.Server

open Lib Lib.Fallible Spec

/-- A message of a text, or the values of a binary message: what the parser does in one go. -/
inductive Job where
  | message (clientIdx : ClientIdx) (now : Instant) (ntMsg : NTMessage)
  | values (clientIdx : ClientIdx) (msgpack : List UInt8)

/-- The tables, with the number of connections so far, the client index that each of them got, and
the last connection that got an index. -/
structure Tables where
  server : InnerServer
  count : Nat := 0
  idx : Nat → ClientIdx := fun _ => 0
  conn : ClientIdx → Nat := fun _ => 0

abbrev Network := Hub Nat ClientMsg Job OutMessage Tables

/-- All that was ever put on the channel of a client. -/
def InnerServer.sentTo (s : InnerServer) (c : ClientIdx) : List OutMessage :=
  (((s.clients.lookup c).bind ConnectedClient.subOuput).map Outgoing.sent).getD []

/-- The messages, by client, that came onto the channels, in some order. -/
def Places (s s' : InnerServer) (l : List (ClientIdx × OutMessage)) : Prop :=
  ∀ c, ((l.filter fun e => e.1 = c).map Prod.snd) = (s'.sentTo c).drop (s.sentTo c).length

/-- The operations of the `send_out` loop and of the users' tasks. -/
def Op.ofOthers : Op → Bool
  | .connectClient _ | .closeChannel _ => false
  | _ => true

section Network

variable (json : SerdeJson) (rmp : RmpEncode) (dec : RmpDecode) (tryFrom : Value → Option FrcValue)

def Job.perform (o : IterOrder) : Job → ServerM Unit
  | .message clientIdx now ntMsg => parseNtMessage o clientIdx now ntMsg
  | .values clientIdx msgpack => forEach (readAll dec msgpack) (parseValue tryFrom clientIdx)

def jobs (clock : Nat → Instant) (cmsg : ClientMsg) : List Job :=
  match cmsg.msg with
  | .text text =>
    match json.fromStr text with
    | some ntMsgVec => ntMsgVec.zipIdx.map fun e => .message cmsg.clientIdx (clock e.2) e.1
    | none => []
  | .binary msgpack => [.values cmsg.clientIdx msgpack]
  | _ => []

/-- The parser does its jobs one after the other. -/
theorem messageParser_eq_jobs (o : IterOrder) (clock : Nat → Instant) (cmsg : ClientMsg) :
    messageParser o json dec tryFrom clock cmsg =
      forEach (jobs json clock cmsg) (Job.perform dec tryFrom o) := by
  obtain ⟨c, msg⟩ := cmsg
  cases msg with
  | text text =>
    simp only [messageParser, jobs]
    cases json.fromStr text with
    | none => rfl
    | some ntMsgVec =>
      simp only
      induction ntMsgVec.zipIdx with
      | nil => rfl
      | cons e l ih =>
        simp only [forEach, List.map_cons, ih]
        rfl
  | binary msgpack => simp [messageParser, jobs, forEach, Job.perform]
  | _ => rfl

/-- The parser and the connections, from `start_host_websocket` and `handle_connection`. The places
on the parser's channel that a connection's own unfinished sends may still hold when its loops are
over are not modelled. -/
def manners : Manners Nat ClientMsg Job OutMessage Tables where
  joins T n T' := n = T.count ∧ ∃ o identity identity' c s',
    (connectClient o identity).exec T.server = .ok (.ok (identity', c), s') ∧
      T' = ⟨s', n + 1, Function.update T.idx n c, Function.update T.conn c n⟩
  offers T n m := m.clientIdx = T.idx n ∧ ∃ now, broadcastIncoming rmp dec now m.msg = .forwarded
  closes T n m := ∃ identity, m = closeMsg json (T.idx n) identity
  leaves T n T' := ∃ s', T' = { T with server := s' } ∧
    if T.conn (T.idx n) = n then (closeChannel (T.idx n)).exec T.server = .ok (.ok (), s')
    else s' = T.server
  jobs m js := ∃ clock, js = jobs json clock m
  performs T j l T' := ∃ o r s' placed,
    (j.perform dec tryFrom o).exec T.server = .ok (r, s') ∧ Places T.server s' placed ∧
      l = placed.map (fun e => (T.conn e.1, e.2)) ∧ T' = { T with server := s' }
  drifts T T' := ∃ op s', op.ofOthers = true ∧ Step T.server op s' ∧ T' = { T with server := s' }

/-- Runs of the network whose steps all meet `guard`. -/
abbrev Networks (guard : Network → Hub.Event Nat OutMessage → Prop) : Nat → Network → Prop :=
  Hub.Runs (manners json rmp dec tryFrom) 127
    (fun T => Init T.server ∧ T = { server := T.server }) guard

end Network

section Cycle

variable {json : SerdeJson} {rmp : RmpEncode} {dec : RmpDecode} {tryFrom : Value → Option FrcValue}
  {k : Nat} {S S' : Network}

/-- The parser and a closing connection never wait for room on each other's channels, along a run
in which no closing connection is owed more messages than its channel has room for whenever the
parser's channel gets full, or a step finds it full. -/
theorem never_cyclic (run : Networks json rmp dec tryFrom (Hub.Careful 127) k S) (n : Nat) :
    ¬S.Cyclic 127 n :=
  run.calm.not_cyclic n

/-- Any other step leads to where they wait for each other, once the tasks go on. -/
theorem cyclic_of_not_careful {guard : Network → Hub.Event Nat OutMessage → Prop}
    {e : Hub.Event Nat OutMessage} (run : Networks json rmp dec tryFrom guard k S)
    (hstep : Hub.Step (manners json rmp dec tryFrom) 127 S e S') (h : ¬Hub.Careful 127 S e) :
    ∃ S'' n, Hub.Leads (manners json rmp dec tryFrom) 127 S' S'' ∧ S''.Cyclic 127 n :=
  Hub.leads_cyclic (by decide) (run.bounded.step hstep) (Hub.cornered_of_not_careful hstep h)

end Cycle

/-- Subscriptions to nothing, in one text. -/
def subscribesText : String :=
  "[" ++ (",".intercalate (List.replicate 64
    "\x7b\"method\":\"subscribe\",\"params\":\x7b\"subuid\":0,\"topics\":[]\x7d\x7d") ++ "]")

def subscribeNothing : NTMessage := .subscribe ⟨0, ∅, none⟩

/-- JSON of this text. -/
def jsonSubscribes : SerdeJson where
  toStringOne := jsonClose.toStringOne
  toStringList := jsonClose.toStringList
  fromStr text := if text = subscribesText then some (List.replicate 64 subscribeNothing) else none

theorem jsonHead_array (text : String) : jsonHead ("[" ++ text) = some '[' := by
  simp [jsonHead, isJsonSpace]

theorem framed_jsonSubscribes : jsonSubscribes.Framed := by
  constructor
  · exact framed_jsonClose.object
  · intro text l h
    simp only [jsonSubscribes] at h
    split_ifs at h with htext
    rw [htext]
    exact jsonHead_array _

/-- Client `c` has a channel with a receiver. -/
def Listening (s : InnerServer) (c : ClientIdx) : Prop :=
  ∃ client ch, s.clients.lookup c = some client ∧ client.subOuput = some ch ∧ ch.isOpen = true

theorem places_of_insert {s s' : InnerServer} {c : ClientIdx} {client client' : ConnectedClient}
    {ch : Outgoing} {l : List OutMessage} (hc : s.clients.lookup c = some client)
    (hch : client.subOuput = some ch) (hclients : s'.clients = s.clients.insert c client')
    (hch' : client'.subOuput = some { ch with sent := ch.sent ++ l }) :
    Places s s' (l.map fun m => (c, m)) := by
  intro d
  by_cases hd : d = c
  · subst hd
    simp [InnerServer.sentTo, hc, hclients, hch, hch', List.filter_map, Function.comp_def]
  · have hlookup : s'.clients.lookup d = s.clients.lookup d := by
      rw [hclients, KeyMap.lookup_insert, if_neg hd]
    simp [InnerServer.sentTo, hlookup, Ne.symm hd, List.filter_map, Function.comp_def]

/-- A subscription is answered with two messages, whatever it is about. -/
theorem subscribeNothing_sends {s : InnerServer} {c : ClientIdx} {now : Instant}
    (h : Listening s c) :
    ∃ r s', (parseNtMessage .stored c now subscribeNothing).exec s = .ok (r, s') ∧
      Listening s' c ∧ Places s s' [(c, .text []), (c, .binary [])] := by
  obtain ⟨client, ch, hc, hch, hopen⟩ := h
  have hnone : ((IterOrder.stored.walk s.topicMap).filter fun e =>
      (⟨0, ∅, none⟩ : Subscription).caresAbout e.1) = [] := by
    simp [Subscription.caresAbout, Subscription.getOptions]
  have hends : Ends (parseNtMessage .stored c now subscribeNothing) s fun _ s' =>
      Listening s' c ∧ Places s s' [(c, .text []), (c, .binary [])] := by
    simp only [parseNtMessage, subscribeNothing, ends_attempt, subscribe, ends_bind, ends_get,
      thenEnds_ok, thenEnds_error, ends_okOr, hc, ends_modify, Counter.nextSubIdx]
    refine ⟨fun client' hclient => ?_, by simp⟩
    cases hclient
    rw [hnone]
    simp only [foldEach, ends_pure, thenEnds_ok, ends_bind, ends_modify, putClient]
    rw [← ends_bind]
    apply ends_sendBoth rfl
    simp only [hch, Option.map_some, Outgoing.append, hopen, if_true]
    constructor
    · exact ⟨_, _, AList.lookup_insert _, rfl, rfl⟩
    · exact places_of_insert (l := [.text [], .binary []]) hc hch rfl (by simp [hopen])
  exact (total_parseNtMessage subscribeNothing now).ends hends

section Collision

/-- The network with JSON of that text only. -/
abbrev subscribing : Manners Nat ClientMsg Job OutMessage Tables :=
  manners jsonSubscribes rmpSmall decNothing (some ⟨.void, ·⟩)

/-- What the parser sends for one of the subscriptions. -/
def answer : List (Nat × OutMessage) := [(0, .text []), (0, .binary [])]

/-- Connection 0 of client 1 is served; the parser has some of the subscriptions left, and the
connection some messages on its channel. -/
structure Served (S : Network) (left out : Nat) : Prop where
  phase : S.phase 0 = .serving
  sending : S.sending = []
  todo : S.todo = List.replicate left (.message 1 0 subscribeNothing)
  inbox : S.inbox = []
  outbox : (S.outbox 0).length = out
  listening : Listening S.state.server 1
  idx : S.state.idx 0 = 1
  conn : S.state.conn 1 = 0

variable {S : Network} {left out : Nat}

theorem Served.begins (h : Served S (left + 1) out) :
    ∃ T, Served { S with state := T, todo := List.replicate left (.message 1 0 subscribeNothing) }
        left out ∧
      Hub.Step subscribing 127 S (.begins answer) { S with
        state := T
        todo := List.replicate left (.message 1 0 subscribeNothing)
        sending := answer } := by
  obtain ⟨r, s', hx, hlistening, hplaces⟩ := @subscribeNothing_sends _ _ 0 h.listening
  refine ⟨{ S.state with server := s' },
    ⟨h.phase, h.sending, rfl, h.inbox, h.outbox, hlistening, h.idx, h.conn⟩, ?_⟩
  apply Hub.Step.begins h.sending (h.todo.trans List.replicate_succ)
  refine ⟨.stored, r, s', _, hx, hplaces, ?_, rfl⟩
  simp [answer, h.conn]

theorem Served.job (h : Served S (left + 1) out) (hout : out + 2 ≤ 127) :
    ∃ S', Hub.Leads subscribing 127 S S' ∧ Served S' left (out + 2) := by
  obtain ⟨T, hserved, hbegins⟩ := h.begins
  have hphase : S.phase 0 ≠ .gone := by simp [h.phase]
  have hlen := h.outbox
  have hroom : (S.outbox 0).length < 127 := by omega
  have hroom' : (Function.update S.outbox 0 (S.outbox 0 ++ [.text []]) 0).length < 127 := by
    simp only [Function.update_self, List.length_append, List.length_singleton]
    omega
  have hfirst : Hub.Step subscribing 127 { S with
      state := T
      todo := List.replicate left (.message 1 0 subscribeNothing)
      sending := answer } .sends _ := .sends rfl hphase hroom
  have hsecond : Hub.Step subscribing 127 { S with
      state := T
      todo := List.replicate left (.message 1 0 subscribeNothing)
      sending := [(0, .binary [])]
      outbox := Function.update S.outbox 0 (S.outbox 0 ++ [.text []]) } .sends _ :=
    .sends rfl hphase hroom'
  refine ⟨_, .tail (.tail (.single ⟨_, hbegins⟩) ⟨_, hfirst⟩) ⟨_, hsecond⟩, ?_⟩
  refine ⟨h.phase, rfl, rfl, h.inbox, ?_, hserved.listening, hserved.idx, hserved.conn⟩
  simp only [Function.update_self, List.length_append, List.length_singleton]
  omega

theorem Served.jobs (n : Nat) (h : Served S (left + n) out) (hout : out + 2 * n ≤ 127) :
    ∃ S', Hub.Leads subscribing 127 S S' ∧ Served S' left (out + 2 * n) := by
  induction n generalizing S out with
  | zero => exact ⟨S, .refl, h⟩
  | succ n ih =>
    obtain ⟨S₁, hfirst, h₁⟩ := h.job (by omega)
    obtain ⟨S₂, hrest, h₂⟩ := ih h₁ (by omega)
    have heq : out + 2 + 2 * n = out + 2 * (n + 1) := by omega
    exact ⟨S₂, Relation.ReflTransGen.trans hfirst hrest, heq ▸ h₂⟩

/-- The text that asks for all of them. -/
def askAll : ClientMsg := ⟨1, .text subscribesText⟩

theorem jobs_askAll : jobs jsonSubscribes (fun _ => 0) askAll =
    List.replicate 64 (.message 1 0 subscribeNothing) := by
  have hread : jsonSubscribes.fromStr subscribesText = some (List.replicate 64 subscribeNothing) := by
    simp only [jsonSubscribes, if_true]
  have hmap : ∀ l : List NTMessage, (l.zipIdx.map fun e => Job.message 1 0 e.1) =
      l.map (Job.message 1 0) := by
    intro l
    have hfst := congrArg (List.map (Job.message 1 0)) (List.zipIdx_map_fst 0 l)
    rwa [List.map_map] at hfst
  simp only [jobs, askAll, hread, hmap, List.map_replicate]

theorem init_started : Init started := ⟨.stored, rfl⟩

def firstClient : ClientIdentity := ⟨.v4 10 0 0 2 5810, "a"⟩

/-- The tables with the first client. -/
def firstTables : Tables where
  server := started.connected firstClient
  count := 1
  idx := Function.update (fun _ => 0) 0 1
  conn := Function.update (fun _ => 0) 1 0

/-- The first client connects and asks, and the parser has read it. -/
theorem served_first : ∃ k S, Networks jsonSubscribes rmpSmall decNothing (some ⟨.void, ·⟩)
    (Hub.Careful 127) k S ∧ Served S 64 0 := by
  have hconnect : (connectClient .stored firstClient).exec started =
      .ok (.ok (firstClient, 1), firstTables.server) := rfl
  have hch : (firstTables.server.clients.lookup 1).bind ConnectedClient.subOuput = some {} := rfl
  obtain ⟨client, hc, hch⟩ := Option.bind_eq_some_iff.mp hch
  have hstart : Networks jsonSubscribes rmpSmall decNothing (some ⟨.void, ·⟩) (Hub.Careful 127) 0
      { state := { server := started } } := .start ⟨_, ⟨init_started, rfl⟩, rfl⟩
  have hserving : Function.update (fun _ : Nat => Phase.gone) 0 .serving 0 = .serving := rfl
  have hjoins := hstart.step (i := Hub.Event.joins 0) trivial
    (.joins (k := 0) ⟨rfl, .stored, _, _, 1, _, hconnect, rfl⟩)
  have hoffers := hjoins.step (i := Hub.Event.offers 0) (fun hfull => by cases hfull)
    (.offers (k := 0) (m := askAll) hserving ⟨rfl, 0, rfl⟩ (by decide))
  have htakes := hoffers.step (i := Hub.Event.takes) trivial
    (.takes rfl rfl rfl ⟨fun _ => 0, jobs_askAll.symm⟩)
  exact ⟨_, _, htakes, hserving, rfl, rfl, rfl, rfl, ⟨client, {}, hc, hch, rfl⟩, rfl, rfl⟩

/-- The connection ends while the parser is about to answer, and the parser goes on. -/
theorem never_cyclic_closing : ∃ k S, Networks jsonSubscribes rmpSmall decNothing (some ⟨.void, ·⟩)
    (Hub.Careful 127) k S ∧ S.phase 0 = .closing ∧ S.sending = answer ∧ ∀ n, ¬S.Cyclic 127 n := by
  obtain ⟨k, S, run, hserved⟩ := served_first
  have hnext : Served S (63 + 1) 0 := hserved
  obtain ⟨T, h₁, hbegins⟩ := hnext.begins
  have hempty : S.inbox.length ≠ 127 := by
    rw [hserved.inbox]
    decide
  have hbegun := run.step (i := Hub.Event.begins answer) (fun hfull => (hempty hfull).elim) hbegins
  have hended := hbegun.step (i := Hub.Event.ends 0) (fun hfull => (hempty hfull).elim)
    (.ends hserved.phase)
  have hclosing : Function.update S.phase 0 .closing 0 = .closing := Function.update_self ..
  exact ⟨_, _, hended, hclosing, rfl, never_cyclic hended⟩

/-- The connection ends while the parser's channel is full and the parser owes it two messages, of
which one fits. -/
theorem parser_and_closing_connection_wait :
    ¬∀ (json : SerdeJson) (rmp : RmpEncode) (dec : RmpDecode) (tryFrom : Value → Option FrcValue),
      json.Framed → ∀ k S, Networks json rmp dec tryFrom (fun _ _ => True) k S →
        ∀ n, ¬S.Cyclic 127 n := by
  intro h
  obtain ⟨k, S, run, hserved⟩ := served_first
  have hnext : Served S (1 + 63) 0 := hserved
  obtain ⟨S₁, hjobs, h₁⟩ := hnext.jobs 63 (by decide)
  obtain ⟨T, h₂, hbegins⟩ := h₁.begins
  have hbegun := hjobs.tail ⟨_, hbegins⟩
  obtain ⟨k₂, run₂⟩ := Hub.Runs.leads (run.mono fun _ _ _ => trivial) hbegun
  obtain ⟨S₃, hcorner, hcornered⟩ := Hub.leads_cornered (B := subscribing) (m := askAll) run₂.bounded
    h₂.phase ⟨h₂.idx.symm, 0, rfl⟩ (by
      have hout : (S₁.outbox 0).length = 126 := h₂.outbox
      simp [Hub.Fits, Hub.owed, answer, hout])
  obtain ⟨k₃, run₃⟩ := run₂.leads hcorner
  obtain ⟨S₄, n, hlast, hcyclic⟩ := Hub.leads_cyclic (by decide) run₃.bounded hcornered
  obtain ⟨k₄, run₄⟩ := run₃.leads hlast
  exact h jsonSubscribes rmpSmall decNothing (some ⟨.void, ·⟩) framed_jsonSubscribes k₄ S₄ run₄ n
    hcyclic

end Collision

end NetTables.Server
