import NetTables.System.World

namespace NetTables.System

open Lib Spec Server

section Client

open Client

/-- No stream of the client holds a value. -/
def Silent (c : ClientState) : Prop :=
  ∀ i stream, c.streams.lookup i = some stream → stream.receiver = []

/-- A change that puts nothing on a stream. -/
def Hushes (f : ClientState → ClientState) : Prop := ∀ c, Silent c → Silent (f c)

/-- Such changes only. -/
abbrev Hushing (rest : ClientM Unit) : Prop := rest.All Hushes fun _ => True

/-- A reading of the server's clock, not a value of a topic. -/
def IsTime (v : Value) : Prop := ∃ rest, v = .array (.integer (-1) :: rest)

/-- There is no value of a topic in what the client is sent. -/
def NoTopicValue : InnerClient.Incoming → Prop
  | .binary values => ∀ v ∈ values, IsTime v
  | .text _ | .other => True

variable {c : ClientState} {o : IterOrder} {ofTypeStr : String → FrcType}

theorem hushes_of_streams {f : ClientState → ClientState} (h : ∀ c, (f c).streams = c.streams) :
    Hushes f := by
  intro c hc i stream hi
  rw [h] at hi
  exact hc i stream hi

/-- A stream is dropped. -/
theorem Silent.erase (h : Silent c) (i : StreamId) {c' : ClientState}
    (hstreams : c'.streams = c.streams.erase i) : Silent c' := by
  intro j stream hj
  rw [hstreams, KeyMap.lookup_erase] at hj
  split_ifs at hj
  exact h j stream hj

/-- A stream is put in that holds nothing. -/
theorem Silent.insert (h : Silent c) (i : StreamId) (stream : SubscriptionStream)
    (hstream : stream.receiver = []) {c' : ClientState}
    (hstreams : c'.streams = c.streams.insert i stream) : Silent c' := by
  intro j stream' hj
  rw [hstreams, KeyMap.lookup_insert] at hj
  split_ifs at hj
  · cases hj
    exact hstream
  · exact h j stream' hj

theorem hushing_updateTime : Hushing InnerClient.updateTime := by
  simp only [InnerClient.updateTime, Prog.acquire_bind, Prog.read_bind]
  refine ⟨fun _ h => h, fun c => ?_⟩
  dsimp only
  split
  · exact ⟨trivial, trivial⟩
  · trivial

theorem hushing_onOpen (o : IterOrder) : Hushing (InnerClient.onOpen o) := by
  have hrest : ∀ c, Hushing (do
      InnerClient.updateTime
      InnerClient.sendMessage (.text (InnerClient.replay o c))
      Prog.release .subscriptions
      Prog.release .clientPublishedTopics) :=
    fun c => hushing_updateTime.bind fun _ => ⟨trivial, trivial⟩
  refine ⟨hushes_of_streams fun _ => rfl, fun _ => ⟨hushes_of_streams fun _ => rfl, fun _ =>
    ⟨hushes_of_streams fun _ => rfl, fun c => ⟨hushes_of_streams fun _ => rfl, fun _ => hrest _⟩⟩⟩⟩

theorem hushing_handleNtMessage (m : NTMessage) :
    Hushing (InnerClient.handleNtMessage ofTypeStr m) := by
  cases m with
  | announce a =>
    refine ⟨hushes_of_streams fun c => ?_, fun _ => trivial⟩
    split <;> rfl
  | unAnnounce v => exact ⟨hushes_of_streams fun _ => rfl, fun _ => trivial⟩
  | _ => trivial

theorem hushing_handleTime (timestampMicros : UInt64) (data : Value) :
    Hushing (InnerClient.handleTime timestampMicros data) := by
  have hmath : (InnerClient.handleNewTimestamp timestampMicros data.asI64).All Hushes
      fun _ => True := by
    refine ⟨hushes_of_streams fun c => ?_, fun _ => trivial⟩
    obtain ⟨offset, hc⟩ := getD_withTimestamp c timestampMicros data.asI64
    rw [hc]
  apply hmath.bind
  intro ok
  cases ok with
  | true => trivial
  | false =>
    refine ⟨hushes_of_streams fun _ => rfl, fun _ => ?_⟩
    exact hushing_updateTime.bind fun _ => hmath.bind (g := fun _ => .pure ()) fun _ => trivial

/-- A clock reading goes past the subscriptions. -/
theorem hushing_handleValue (rest : List Value) :
    Hushing (InnerClient.handleValue o (.integer (-1) :: rest)) := by
  have hid : (Value.integer (-1)).asI64.map Int64.toInt32 = some (-1) := by decide
  have hneg : ¬(0 : Int32) ≤ -1 := by decide
  match rest with
  | [timestamp, typeIdx, data] =>
    simp only [InnerClient.handleValue, hid]
    cases timestamp.asU64 with
    | none => trivial
    | some timestampMicros =>
      simp only [if_neg hneg, if_true]
      exact hushing_handleTime timestampMicros data
  | [] | [_] | [_, _] | _ :: _ :: _ :: _ :: _ => trivial

theorem hushing_handleMessage {message : InnerClient.Incoming} (h : NoTopicValue message) :
    Hushing (InnerClient.handleMessage o ofTypeStr message) := by
  cases message with
  | text messages =>
    cases messages with
    | none => trivial
    | some messages => exact Prog.all_forEach fun m _ => hushing_handleNtMessage m
  | binary values =>
    apply Prog.all_forEach
    intro v hv
    obtain ⟨rest, rfl⟩ := h v hv
    exact hushing_handleValue rest
  | other => trivial

theorem hushing_program (call : ApiCall) : Hushing call.program := by
  cases call with
  | publishTopic name topicType properties =>
    exact ⟨hushes_of_streams fun _ => rfl, fun _ => ⟨trivial, hushes_of_streams fun _ => rfl,
      fun _ => trivial⟩⟩
  | unpublish topic => exact ⟨trivial, trivial⟩
  | subscribeWOptions topicNames options =>
    exact ⟨hushes_of_streams fun _ => rfl, fun _ => ⟨trivial, fun c hc => hc.insert _ _ rfl rfl,
      fun _ => ⟨hushes_of_streams fun _ => rfl, fun _ => trivial⟩⟩⟩
  | unsubscribe sub =>
    simp only [ApiCall.program, AsyncClientHandle.unsubscribe, Prog.read_bind]
    refine ⟨fun _ h => h, fun c => ?_⟩
    dsimp only
    split
    · trivial
    · exact ⟨trivial, hushes_of_streams fun _ => rfl, fun _ => ⟨fun c hc => hc.erase sub rfl,
        fun _ => trivial⟩⟩
  | dropStream sub => exact ⟨fun c hc => hc.erase sub rfl, fun _ => trivial⟩
  | takeMessage sub =>
    refine ⟨fun c hc => ?_, fun _ => trivial⟩
    dsimp only
    split
    · exact hc
    next stream hstream =>
      exact hc.insert _ _ (by simp [hc sub stream hstream]) rfl
  | publishValue topic v => exact ⟨fun _ h => h, fun _ => ⟨trivial, trivial⟩⟩
  | publishValueWTimestamp topic timestamp v => exact ⟨trivial, trivial⟩

/-- No stream holds a value, and no task is about to put one there. -/
structure Muted (S : Client.System) : Prop where
  silent : Silent S.pool.shared
  tasks : ∀ t, Hushing (S.pool.rest t)

variable {S S' : Client.System} {e : Client.Event}

theorem muted_initial (o : IterOrder) (now : Client.Instant) : Muted (.initial o now) := by
  refine ⟨fun i stream hi => ?_, fun t => ?_⟩
  · cases hi
  · by_cases ht : t = .start
    · simp only [Client.System.initial, ht, if_true]
      exact hushing_onOpen o
    · simp only [Client.System.initial, if_neg ht]
      trivial

theorem Muted.start (h : Muted S) (t : TaskId) {p : ClientM Unit} (hp : Hushing p) :
    Muted (S.startTask t p) :=
  ⟨h.silent, Pool.all_start h.tasks hp⟩

/-- A task goes on. -/
theorem Muted.moves (h : Muted S) {t : TaskId} {pool : Tasks}
    (hmoves : Pool.Moves socketCapacity t S.pool pool) : Muted { S with pool } := by
  obtain ⟨htasks, hsame | ⟨f, hf, hshared⟩⟩ := hmoves.all h.tasks
  · exact ⟨hsame ▸ h.silent, htasks⟩
  · exact ⟨hshared ▸ hf _ h.silent, htasks⟩

/-- The client stays so as long as nobody sends it a value of a topic. -/
theorem Muted.step (h : Muted S) (hstep : Takes ofTypeStr S e S')
    (he : ∀ message, e = .incoming message → NoTopicValue message) : Muted S' := by
  cases hstep with
  | moves hmoves => exact h.moves hmoves
  | incoming o hselects => exact h.start .socket (hushing_handleMessage (he _ rfl))
  | reconnected o hlost =>
    have hstart := h.start .socket (hushing_onOpen o)
    exact ⟨hstart.silent, hstart.tasks⟩
  | timer => exact h.start .timestamp hushing_updateTime
  | call => exact h.start _ (hushing_program _)
  | connectionLost | written | writeFailed | tick => exact ⟨h.silent, h.tasks⟩

end Client

section Server

variable {codec : Codec} {m : Message}

theorem noTopicValue_forwarded {out : OutMessage} (h : Forwarded codec out m) :
    NoTopicValue (codec.received m) := by
  obtain ⟨messages, -, rfl⟩ := text_of_forwarded h
  trivial

/-- The answer to a binary message is a clock reading. -/
theorem noTopicValue_answered (hreplies : RepliesRead codec.rmp.toRmpEncode codec.dec)
    {now : UInt64} (h : Answered codec now m) : NoTopicValue (codec.received m) := by
  rcases answer_cases h with rfl | ⟨time, rfl⟩
  · trivial
  · intro v hv
    have hread := hreplies (-1) now time FrcType.int.asU8
    rw [readAll_some hread, readAll_none (fromRead_nil _), List.mem_singleton] at hv
    exact ⟨_, hv⟩

end Server

section Run

variable {codec : Codec} {W : World} {p : Peer} {i : Nat} {guard : World → Happening → Prop}
  {u : Kind → Nat}

/-- In every run of a server and its clients, whatever is published and subscribed to: no stream of
a client ever holds a value. -/
theorem no_value_arrives (hreplies : RepliesRead codec.rmp.toRmpEncode codec.dec)
    (run : WorldsWhere codec guard u W) (hp : W.peers.lookup i = some p) {sub : Client.StreamId}
    {stream : Client.SubscriptionStream}
    (hsub : p.system.pool.shared.streams.lookup sub = some stream) : stream.receiver = [] := by
  have hmuted : Muted p.system := by
    refine run.peers (fun p => Muted p.system) ?_ ?_ hp
    · intro p o now hsystem _
      rw [hsystem]
      exact muted_initial o now
    · intro u W p e p' run ih htakes
      refine ih.step htakes.takes fun message he => ?_
      obtain ⟨conn, m, hconn, hm, rfl⟩ := htakes.reads message he
      exact run.outgoing (fun m => NoTopicValue (codec.received m))
        (fun _ m => noTopicValue_answered hreplies) (fun out m => noTopicValue_forwarded) hconn
        (List.mem_append_left _ hm)
  exact hmuted.silent sub stream hsub

/-- The texts about a topic with a subscriber. -/
def subscribeTexts : List (List NTMessage × String) := [
  ([], "[]"),
  ([.publish ⟨"x", 1, "int", none⟩], "[\x7b\"method\":\"publish\",\"params\":" ++
    "\x7b\"name\":\"x\",\"pubuid\":1,\"type\":\"int\"\x7d\x7d]"),
  ([.subscribe ⟨1, {"x"}, none⟩], "[\x7b\"method\":\"subscribe\",\"params\":" ++
    "\x7b\"subuid\":1,\"topics\":[\"x\"]\x7d\x7d]"),
  ([.announce ⟨"x", 5, "int", some 1, {}⟩], "[\x7b\"method\":\"announce\",\"params\":" ++
    "\x7b\"name\":\"x\",\"id\":5,\"type\":\"int\",\"pubuid\":1,\"properties\":\x7b\x7d\x7d\x7d]"),
  ([.announce ⟨"x", 5, "int", none, {}⟩], "[\x7b\"method\":\"announce\",\"params\":" ++
    "\x7b\"name\":\"x\",\"id\":5,\"type\":\"int\",\"pubuid\":null,\"properties\":\x7b\x7d\x7d\x7d]")]

/-- A client publishes a topic and a value of it, and subscribes to it: the server puts the two
announcements and the value on its channel. -/
def subscribesToValue : List Happening :=
  connects 0 0 ⟨.v4 10 0 0 2 5810, "a"⟩ ++
    [.acts 0 (.call 0 (.publishTopic "x" .int none))] ++ moves 0 (.user 0) 5 ++
    [.acts 0 (.call 0 (.publishValue ⟨"x", 1, .int, none⟩ (.integer 7)))] ++ moves 0 (.user 0) 2 ++
    [.acts 0 (.call 0 (.subscribeWOptions ["x"] none))] ++ moves 0 (.user 0) 6 ++
    List.replicate 5 (.writes 0) ++ List.replicate 5 (.filters 0 0) ++
    List.replicate 4 (.passes 0 0) ++
    [.parses, .parses, .handles 0, .parses, .handles 0, .parses, .handles 0]

theorem no_value_arrives_subscribesToValue : ∃ u W p stream,
    Worlds (codecOf subscribeTexts) u W ∧ W.peers.lookup 0 = some p ∧
      (W.server.topicValueMap.lookup 5).isSome = true ∧
      (W.connections.lookup 0).map Connection.taken = some 3 ∧
      p.system.pool.shared.streams.lookup 0 = some stream ∧
      stream.data.caresAbout "x" = true ∧ stream.receiver = [] := by
  have hrun : (World.after (codecOf subscribeTexts) .stored anyHappening
      (subscribesToValue ++ List.replicate 3 (.forwards 0) ++
        [.reads 0] ++ moves 0 .socket 3 ++ [.reads 0] ++ moves 0 .socket 3)).map (fun W =>
        ((W.server.topicValueMap.lookup 5).isSome,
          (W.connections.lookup 0).map Connection.taken,
          (W.peers.lookup 0).map fun p => (p.system.pool.shared.streams.lookup 0).map fun stream =>
            stream.data.caresAbout "x")) =
      some (true, some 3, some (some true)) := by
    decide +kernel
  obtain ⟨W, hW, hview⟩ := Option.map_eq_some_iff.mp hrun
  simp only [Prod.mk.injEq] at hview
  obtain ⟨hstored, htaken, hpeer⟩ := hview
  obtain ⟨p, hp, hpeer⟩ := Option.map_eq_some_iff.mp hpeer
  obtain ⟨stream, hstream, hcares⟩ := Option.map_eq_some_iff.mp hpeer
  obtain ⟨u, run, -⟩ := worlds_of_after hW
  have hempty : stream.receiver = [] := no_value_arrives repliesRead_small run hp hstream
  exact ⟨u, W, p, stream, run, hp, hstored, htaken, hstream, hcares, hempty⟩

end Run

end NetTables.System
