import NetTables.Client.Tasks
import NetTables.Lib.Nesting

namespace NetTables.Client

open Lib Spec

/-- A value of the server's clock. -/
def isClock : Value → Bool
  | .array [id, _, _, _] => id.asI64.map Int64.toInt32 == some (-1)
  | _ => false

/-- How many messages the answer to a message may take. -/
def answers : InnerClient.Incoming → Nat
  | .binary values => (values.map fun v => if isClock v then 1 else 0).sum
  | _ => 0

section AtMost

theorem atMost_updateTime : InnerClient.updateTime.AtMost 1 := by
  simp only [InnerClient.updateTime, Prog.acquire_bind, Prog.read_bind]
  intro c
  dsimp only
  split
  · exact ⟨Nat.one_pos, trivial⟩
  · trivial

theorem atMost_onOpen (o : IterOrder) : (InnerClient.onOpen o).AtMost 2 := by
  intro _ _ c _
  exact atMost_updateTime.bind (m := 1) fun _ => ⟨Nat.one_pos, trivial⟩

theorem atMost_handleTime (timestampMicros : UInt64) (data : Value) :
    (InnerClient.handleTime timestampMicros data).AtMost 1 := by
  have hmath : ∀ ts ct, (InnerClient.handleNewTimestamp ts ct).AtMost 0 := fun _ _ _ => trivial
  apply (hmath _ _).bind (m := 1)
  intro ok
  cases ok with
  | true => trivial
  | false =>
    intro c
    apply atMost_updateTime.bind (m := 0)
    exact fun _ => (hmath _ _).bind (m := 0) fun _ => trivial

theorem atMost_handleTopicValue (o : IterOrder) (id : Int32) (timestampMicros : UInt64)
    (type : FrcType) (data : Value) :
    (InnerClient.handleTopicValue o id timestampMicros type data).AtMost 0 := by
  simp only [InnerClient.handleTopicValue, Prog.acquire_bind, Prog.read_bind]
  intro c
  dsimp only
  split
  · exact fun _ => trivial
  · trivial

theorem atMost_handleValue (o : IterOrder) (array : List Value) :
    (InnerClient.handleValue o array).AtMost (if isClock (.array array) then 1 else 0) := by
  obtain heq | ⟨first, timestamp, typeIdx, data, micros, rfl, hid, heq⟩ |
    ⟨_, _, _, data, id, micros, type, -, -, heq⟩ := InnerClient.handleValue_cases o array
  · rw [heq]
    trivial
  · have hclock : isClock (.array [first, timestamp, typeIdx, data]) = true := by
      simp [isClock, hid]
    rw [if_pos hclock, heq]
    exact atMost_handleTime micros data
  · rw [heq]
    exact (atMost_handleTopicValue o id micros type data).mono (Nat.zero_le _)

theorem atMost_handleMessage (o : IterOrder) (ofTypeStr : String → FrcType)
    (message : InnerClient.Incoming) :
    (InnerClient.handleMessage o ofTypeStr message).AtMost (answers message) := by
  cases message with
  | text messages =>
    cases messages with
    | none => trivial
    | some messages =>
      have hsilent : ∀ m, (InnerClient.handleNtMessage ofTypeStr m).AtMost 0 := by
        intro m
        cases m with
        | announce => exact fun _ => trivial
        | unAnnounce => exact fun _ => trivial
        | _ => trivial
      have hall := Prog.atMost_forEach (l := messages) hsilent
      exact hall.mono (by simp)
  | binary values =>
    apply Prog.atMost_forEach
    intro v
    cases v with
    | array array => exact atMost_handleValue o array
    | _ => trivial
  | other => trivial

end AtMost

/-- The tasks that may hold a mutex while they send. -/
def TaskId.Holds : TaskId → Prop
  | .user _ => False
  | _ => True

/-- The channel has room for this many messages more than those that these tasks are yet to send. -/
def Spare (S : Tasks) (more : Nat) : Prop :=
  ∃ a b c, (S.rest .socket).AtMost a ∧ (S.rest .start).AtMost b ∧ (S.rest .timestamp).AtMost c ∧
    S.queue.length + more + a + b + c ≤ socketCapacity

/-- A user's message, a message of the server, a new connection and the timer find room for all that
they are going to send, besides what the tasks that may hold a mutex are yet to send. -/
def KeepsRoom (S : System) : Event → Prop
  | .moves (.user n) => ∀ m next, S.pool.rest (.user n) = .send m next → Spare S.pool 1
  | .incoming message => Spare S.pool (answers message)
  | .reconnected => Spare S.pool 2
  | .timer => Spare S.pool 1
  | _ => True

/-- A call holds one mutex at most, and none where it sends. -/
theorem nests_program (call : ApiCall) :
    call.program.Nests (fun _ _ => False) (· = []) [] [] := by
  cases call with
  | publishTopic name topicType properties => exact fun _ => ⟨rfl, nofun, fun _ => rfl⟩
  | unpublish topic => exact ⟨rfl, rfl⟩
  | subscribeWOptions topicNames options =>
    exact fun _ => ⟨rfl, fun _ => ⟨nofun, fun _ => rfl⟩⟩
  | unsubscribe sub =>
    simp only [ApiCall.program, AsyncClientHandle.unsubscribe, Prog.read_bind]
    intro c
    dsimp only
    split
    · rfl
    · exact ⟨rfl, nofun, fun _ _ => rfl⟩
  | dropStream sub => exact fun _ => rfl
  | takeMessage sub => exact fun _ => rfl
  | publishValue topic v => exact fun _ => ⟨rfl, rfl⟩
  | publishValueWTimestamp topic timestamp v => exact ⟨rfl, rfl⟩

section Spare

variable {S S' : Tasks} {t : TaskId} {more : Nat} {p : ClientM Unit}

theorem Spare.moves (h : Spare S more) (hm : Pool.Moves socketCapacity t S S') (ht : t.Holds) :
    Spare S' more := by
  obtain ⟨a, b, c, ha, hb, hc, hroom⟩ := h
  have hother : ∀ t', t' ≠ t → S'.rest t' = S.rest t' := fun t' hne => hm.rest_of_ne hne
  cases t with
  | socket =>
    obtain ⟨a', ha', hlength⟩ := hm.atMost ha
    rw [← hother .start nofun] at hb
    rw [← hother .timestamp nofun] at hc
    exact ⟨a', b, c, ha', hb, hc, by omega⟩
  | start =>
    obtain ⟨b', hb', hlength⟩ := hm.atMost hb
    rw [← hother .socket nofun] at ha
    rw [← hother .timestamp nofun] at hc
    exact ⟨a, b', c, ha, hb', hc, by omega⟩
  | timestamp =>
    obtain ⟨c', hc', hlength⟩ := hm.atMost hc
    rw [← hother .socket nofun] at ha
    rw [← hother .start nofun] at hb
    exact ⟨a, b, c', ha, hb, hc', by omega⟩
  | user n => exact ht.elim

/-- A channel that gets no longer than this, and the same tasks. -/
theorem Spare.of_same (h : Spare S more) (hrest : ∀ t : TaskId, t.Holds → S'.rest t = S.rest t)
    {more' : Nat} (hlength : S'.queue.length + more' ≤ S.queue.length + more) : Spare S' more' := by
  obtain ⟨a, b, c, ha, hb, hc, hroom⟩ := h
  refine ⟨a, b, c, ?_, ?_, ?_, by omega⟩
  · rwa [hrest .socket trivial]
  · rwa [hrest .start trivial]
  · rwa [hrest .timestamp trivial]

theorem Spare.startSocket (h : Spare S more) (hp : p.AtMost more) :
    Spare (S.start .socket p) 0 := by
  obtain ⟨a, b, c, ha, hb, hc, hroom⟩ := h
  have hother : ∀ t, t ≠ .socket → (S.start .socket p).rest t = S.rest t := fun t hne =>
    Pool.start_rest_of_ne p hne
  rw [← hother .start nofun] at hb
  rw [← hother .timestamp nofun] at hc
  refine ⟨more, b, c, by rwa [Pool.start_rest_self], hb, hc, ?_⟩
  rw [Pool.start_queue]
  omega

theorem Spare.startTimestamp (h : Spare S more) (hp : p.AtMost more) :
    Spare (S.start .timestamp p) 0 := by
  obtain ⟨a, b, c, ha, hb, hc, hroom⟩ := h
  have hother : ∀ t, t ≠ .timestamp → (S.start .timestamp p).rest t = S.rest t := fun t hne =>
    Pool.start_rest_of_ne p hne
  rw [← hother .socket nofun] at ha
  rw [← hother .start nofun] at hb
  refine ⟨a, b, more, ha, hb, by rwa [Pool.start_rest_self], ?_⟩
  rw [Pool.start_queue]
  omega

theorem Spare.not_full (h : Spare S 0) (ht : t.Holds) : ¬S.Full socketCapacity t := by
  intro hfull
  obtain ⟨a, b, c, ha, hb, hc, hroom⟩ := h
  obtain ⟨hlength, m, next, hrest⟩ := hfull
  cases t with
  | socket =>
    rw [hrest] at ha
    have hpos := ha.1
    omega
  | start =>
    rw [hrest] at hb
    have hpos := hb.1
    omega
  | timestamp =>
    rw [hrest] at hc
    have hpos := hc.1
    omega
  | user n => exact ht.elim

theorem Spare.received (h : Spare S more) {m : SocketMessage} {queue : List SocketMessage}
    (hqueue : S.queue = m :: queue) : Spare { S with queue } more := by
  have hlength : queue.length + more ≤ S.queue.length + more := by
    rw [hqueue, List.length_cons]
    omega
  have hrest : ∀ t : TaskId, t.Holds → ({ S with queue } : Tasks).rest t = S.rest t :=
    fun _ _ => rfl
  exact h.of_same hrest hlength

end Spare

/-- There is room for all that the tasks that may hold a mutex are yet to send, and the users' tasks
hold none where they wait. -/
structure Roomy (S : System) : Prop where
  spare : Spare S.pool 0
  brief : ∀ n, S.pool.Brief (.user n)

namespace Roomy

variable {S S' : System} {e : Event} {ofTypeStr : String → FrcType}

theorem initial (o : IterOrder) (now : Instant) : Roomy (.initial o now) where
  spare := ⟨0, 2, 0, trivial, atMost_onOpen o, trivial, (by decide : 2 ≤ 100)⟩
  brief _ := ⟨[], rfl, nofun⟩

theorem not_stuck (h : Roomy S) : ¬S.pool.Stuck socketCapacity .socket := by
  have hbrief : ∀ t : TaskId, ¬t.Holds → S.pool.Brief t := by
    intro t ht
    cases t with
    | user n => exact h.brief n
    | _ => exact absurd trivial ht
  have hsocket : TaskId.socket.Holds := trivial
  exact Pool.not_stuck (fun t ht => h.spare.not_full ht) hbrief hsocket

theorem step (h : Roomy S) (hkeeps : KeepsRoom S e) (hstep : Takes ofTypeStr S e S') :
    Roomy S' := by
  cases hstep with
  | @moves t pool hm =>
    refine ⟨?_, fun n => (h.brief n).moves hm⟩
    cases t with
    | user n =>
      have hrest : ∀ t : TaskId, t.Holds → pool.rest t = S.pool.rest t := by
        intro t ht
        exact hm.rest_of_ne fun heq => by rw [heq] at ht; exact ht
      by_cases hsend : ∃ m next, S.pool.rest (.user n) = .send m next
      · obtain ⟨m, next, hsend⟩ := hsend
        have hlength := hm.length_queue
        exact (hkeeps m next hsend).of_same hrest hlength
      · have hqueue := hm.queue_eq fun m next hrest => hsend ⟨m, next, hrest⟩
        exact h.spare.of_same hrest (by rw [hqueue])
    | _ => exact h.spare.moves hm trivial
  | incoming o hselects =>
    refine ⟨hkeeps.startSocket (atMost_handleMessage o ofTypeStr _), fun n => ?_⟩
    exact (h.brief n).start_of_ne _ nofun
  | connectionLost => exact ⟨h.spare, h.brief⟩
  | written _ hqueue => exact ⟨h.spare.received hqueue, h.brief⟩
  | writeFailed _ hqueue => exact ⟨h.spare.received hqueue, h.brief⟩
  | reconnected o =>
    refine ⟨hkeeps.startSocket (atMost_onOpen o), fun n => ?_⟩
    exact (h.brief n).start_of_ne _ nofun
  | timer =>
    refine ⟨hkeeps.startTimestamp atMost_updateTime, fun n => ?_⟩
    exact (h.brief n).start_of_ne _ nofun
  | call hopen hdone =>
    refine ⟨h.spare.of_same (fun t ht => ?_) le_rfl, fun n => ?_⟩
    · exact Pool.start_rest_of_ne _ fun heq => by rw [heq] at ht; exact ht
    · exact (h.brief n).start hdone (nests_program _)
  | tick => exact ⟨h.spare, h.brief⟩

end Roomy

/-- In a run whose steps all find room the socket task never waits for what only its own further
receiving can give. -/
theorem socket_never_stuck {ofTypeStr : String → FrcType} {n : Nat} {S : System}
    (run : Works ofTypeStr KeepsRoom n S) : ¬S.pool.Stuck socketCapacity .socket := by
  have hroomy : Roomy S := by
    refine run.invariant (fun _ S => Roomy S) ?_ ?_
    · intro S hinit
      obtain ⟨o, now, rfl⟩ := hinit
      exact .initial o now
    · intro k S e S' _ h hkeeps hstep
      exact h.step hkeeps hstep
  exact hroomy.not_stuck

/-- The connection is lost at once, and there is another one. -/
theorem socket_never_stuck_reconnected : ∃ S,
    (System.initial .stored 0).takeAll .stored (fun _ => .raw) [.connectionLost, .reconnected] =
      some S ∧ ¬S.pool.Stuck socketCapacity .socket := by
  have hstart : Works (fun _ => .raw) KeepsRoom 0 (.initial .stored 0) :=
    .start ⟨.stored, 0, rfl⟩
  have hlost := hstart.step (i := Event.connectionLost) trivial (.connectionLost ⟨rfl, rfl⟩)
  have hspare : Spare (System.initial .stored 0).pool 2 :=
    ⟨0, 2, 0, trivial, atMost_onOpen .stored, trivial, (by decide : 4 ≤ 100)⟩
  have hnew := hlost.step (i := Event.reconnected) hspare (.reconnected .stored rfl)
  exact ⟨_, rfl, socket_never_stuck hnew⟩

/-- `start` has run to its end, and a user has filled the channel. -/
def fullChannel : List Event :=
  List.replicate 15 (.moves .start) ++
    (List.replicate 98 [.call 0 (.publishValueWTimestamp ⟨"n", 1, .int, none⟩ 0 .nil),
      .moves (.user 0)]).flatten

/-- The socket task reconnects while the channel is full. -/
theorem socket_stuck_on_full_channel :
    ¬∀ ofTypeStr n S, Works ofTypeStr (fun _ _ => True) n S →
      ¬S.pool.Stuck socketCapacity .socket := by
  intro hclaim
  have hrun : ((System.initial .stored 0).takeAll .stored (fun _ => .raw)
      (fullChannel ++ [.connectionLost, .reconnected] ++ List.replicate 10 (.moves .socket))).map
      (fun S => (S.pool.queue.length, (S.pool.rest .socket).sending.isSome)) =
      some (100, true) := by
    decide +kernel
  obtain ⟨S, hS, hview⟩ := Option.map_eq_some_iff.mp hrun
  simp only [Prod.mk.injEq] at hview
  obtain ⟨hlength, hsend⟩ := hview
  obtain ⟨n, run⟩ := works_takeAll (Run.start ⟨.stored, 0, rfl⟩) hS
  apply hclaim _ n S run
  apply Pool.Stuck.full
  obtain ⟨m, hm⟩ := Option.isSome_iff_exists.mp hsend
  exact ⟨hlength.ge, m, Prog.exists_send hm⟩

end NetTables.Client
