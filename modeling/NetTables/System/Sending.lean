import NetTables.System.World

namespace NetTables.System

open Lib Spec Server

section Client

open Client

/-- The messages with which a client asks something of the server. -/
def isRequest : NTMessage → Bool
  | .publish _ | .unpublish _ | .subscribe _ | .unsubscribe _ | .setProperties _ => true
  | .announce _ | .unAnnounce _ | .properties _ | .close _ => false

/-- What a client sends: requests, values, and readings of its own clock. -/
def Proper : SocketMessage → Prop
  | .text messages => ∀ m ∈ messages, isRequest m = true
  | .value .negativeOne _ _ value => ∃ time : UInt64, value = .integer time.toNat
  | .value (.unsignedInt _) _ _ _ => True

/-- Nothing else is sent. -/
abbrev Sends (rest : ClientM Unit) : Prop := rest.All (fun _ => True) Proper

variable {o : IterOrder} {ofTypeStr : String → FrcType} {S S' : Client.System} {e : Client.Event}

theorem sends_updateTime : Sends InnerClient.updateTime := by
  simp only [InnerClient.updateTime, Prog.acquire_bind, Prog.read_bind]
  refine ⟨trivial, fun c => ?_⟩
  dsimp only
  split
  · exact ⟨⟨c.clientTime, rfl⟩, trivial⟩
  · trivial

theorem proper_replay (o : IterOrder) (c : ClientState) :
    Proper (.text (InnerClient.replay o c)) := by
  intro m hm
  rcases List.mem_append.mp hm with hm | hm
  · obtain ⟨e, -, rfl⟩ := List.mem_map.mp hm
    rfl
  · obtain ⟨e, -, he⟩ := List.mem_filterMap.mp hm
    obtain ⟨sub, -, rfl⟩ := Option.map_eq_some_iff.mp he
    rfl

theorem sends_onOpen (o : IterOrder) : Sends (InnerClient.onOpen o) := by
  have hrest : ∀ c, Sends (do
      InnerClient.updateTime
      InnerClient.sendMessage (.text (InnerClient.replay o c))
      Prog.release .subscriptions
      Prog.release .clientPublishedTopics) :=
    fun c => sends_updateTime.bind fun _ => ⟨proper_replay o c, trivial⟩
  exact ⟨trivial, fun _ => ⟨trivial, fun _ => ⟨trivial, fun _ => ⟨trivial, fun _ => hrest _⟩⟩⟩⟩

theorem sends_handleNtMessage (m : NTMessage) :
    Sends (InnerClient.handleNtMessage ofTypeStr m) := by
  cases m with
  | announce | unAnnounce => exact ⟨trivial, fun _ => trivial⟩
  | _ => trivial

theorem sends_handleTime (timestampMicros : UInt64) (data : Value) :
    Sends (InnerClient.handleTime timestampMicros data) := by
  have hmath : (InnerClient.handleNewTimestamp timestampMicros data.asI64).All (fun _ => True)
      Proper := ⟨trivial, fun _ => trivial⟩
  apply hmath.bind
  intro ok
  cases ok with
  | true => trivial
  | false =>
    have hagain : Sends (InnerClient.updateTime >>= fun _ =>
        InnerClient.handleNewTimestamp timestampMicros data.asI64 >>= fun _ => .pure ()) :=
      sends_updateTime.bind fun _ => hmath.bind fun _ => trivial
    exact ⟨trivial, fun _ => hagain⟩

theorem sends_handleTopicValue (id : Int32) (timestampMicros : UInt64) (type : FrcType)
    (data : Value) : Sends (InnerClient.handleTopicValue o id timestampMicros type data) := by
  simp only [InnerClient.handleTopicValue, Prog.acquire_bind, Prog.read_bind]
  refine ⟨trivial, fun c => ?_⟩
  dsimp only
  split
  · exact ⟨trivial, fun _ => trivial⟩
  · trivial

theorem sends_handleValue (array : List Value) : Sends (InnerClient.handleValue o array) := by
  rcases InnerClient.handleValue_cases o array with hnone | ⟨_, _, _, data, micros, -, -, htime⟩ |
    ⟨_, _, _, data, id, micros, type, -, -, hvalue⟩
  · rw [hnone]
    trivial
  · rw [htime]
    exact sends_handleTime micros data
  · rw [hvalue]
    exact sends_handleTopicValue id micros type data

theorem sends_handleMessage (message : InnerClient.Incoming) :
    Sends (InnerClient.handleMessage o ofTypeStr message) := by
  cases message with
  | text messages =>
    cases messages with
    | none => trivial
    | some messages => exact Prog.all_forEach fun m _ => sends_handleNtMessage m
  | binary values =>
    apply Prog.all_forEach
    intro v _
    cases v with
    | array array => exact sends_handleValue array
    | _ => trivial
  | other => trivial

theorem proper_one {m : NTMessage} (h : isRequest m = true) : Proper (.text [m]) := by
  intro m' hm'
  rw [List.mem_singleton.mp hm']
  exact h

theorem sends_program (call : ApiCall) : Sends call.program := by
  cases call with
  | publishTopic name topicType properties =>
    refine ⟨trivial, fun c => ⟨?_, trivial, fun _ => trivial⟩⟩
    cases properties with
    | none => exact proper_one rfl
    | some properties =>
      intro m hm
      rcases List.mem_cons.mp hm with rfl | hm
      · rfl
      · rw [List.mem_singleton.mp hm]
        rfl
  | unpublish topic => exact ⟨proper_one rfl, trivial⟩
  | subscribeWOptions topicNames options =>
    exact ⟨trivial, fun _ => ⟨proper_one rfl, trivial, fun _ => ⟨trivial, fun _ => trivial⟩⟩⟩
  | unsubscribe sub =>
    simp only [ApiCall.program, AsyncClientHandle.unsubscribe, Prog.read_bind]
    refine ⟨trivial, fun c => ?_⟩
    dsimp only
    split
    · trivial
    · exact ⟨proper_one rfl, trivial, fun _ => ⟨trivial, fun _ => trivial⟩⟩
  | dropStream sub => exact ⟨trivial, fun _ => trivial⟩
  | takeMessage sub => exact ⟨trivial, fun _ => trivial⟩
  | publishValue topic v => exact ⟨trivial, fun _ => ⟨trivial, trivial⟩⟩
  | publishValueWTimestamp topic timestamp v => exact ⟨trivial, trivial⟩

/-- The client has nothing else to send, and no task is about to send something else. -/
structure AllProper (S : Client.System) : Prop where
  queue : ∀ m ∈ S.pool.queue, Proper m
  tasks : ∀ t, Sends (S.pool.rest t)

theorem allProper_initial (o : IterOrder) (now : Client.Instant) :
    AllProper (.initial o now) := by
  refine ⟨fun m hm => ?_, fun t => ?_⟩
  · cases hm
  · by_cases ht : t = .start
    · simp only [Client.System.initial, ht, if_true]
      exact sends_onOpen o
    · simp only [Client.System.initial, if_neg ht]
      trivial

theorem AllProper.start (h : AllProper S) (t : TaskId) {p : ClientM Unit} (hp : Sends p) :
    AllProper (S.startTask t p) :=
  ⟨h.queue, Pool.all_start h.tasks hp⟩

theorem AllProper.step (h : AllProper S) (hstep : Takes ofTypeStr S e S') : AllProper S' := by
  cases hstep with
  | moves hmoves => exact ⟨hmoves.queue_all h.tasks h.queue, (hmoves.all h.tasks).1⟩
  | incoming o hselects => exact h.start .socket (sends_handleMessage _)
  | reconnected o hlost =>
    have hstart := h.start .socket (sends_onOpen o)
    exact ⟨hstart.queue, hstart.tasks⟩
  | timer => exact h.start .timestamp sends_updateTime
  | call => exact h.start _ (sends_program _)
  | written _ hqueue | writeFailed _ hqueue =>
    refine ⟨fun m hm => h.queue m ?_, h.tasks⟩
    rw [hqueue]
    exact List.mem_cons_of_mem _ hm
  | connectionLost | tick => exact ⟨h.queue, h.tasks⟩

end Client

section Run

variable {codec : Codec} {W : World} {guard : World → Happening → Prop} {u : Kind → Nat}
  {log : List (World × Happening)}

theorem allProper_of_worlds (run : WorldsWhere codec guard u W) {i : Nat} {p : Peer}
    (hp : W.peers.lookup i = some p) : AllProper p.system := by
  refine run.peers (fun p => AllProper p.system) ?_ ?_ hp
  · intro p o now hsystem _
    rw [hsystem]
    exact allProper_initial o now
  · intro u W p e p' _ ih htakes
    exact ih.step htakes.takes

/-- What clients write in a run. -/
theorem proper_of_logged (run : LoggedWorlds codec guard u (log, W)) {V : World} {i : Nat}
    (hV : (V, .writes i) ∈ log) {p : Peer} (hp : V.peers.lookup i = some p)
    {m : Client.SocketMessage} (hm : p.system.pool.queue.head? = some m) : Proper m := by
  obtain ⟨u', run'⟩ := Lib.Run.Logged.passes run hV
  exact (allProper_of_worlds run' hp).queue m (List.mem_of_mem_head? hm)

end Run

end NetTables.System
