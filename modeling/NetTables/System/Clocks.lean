import NetTables.Client.Clock
import NetTables.System.Handled
import NetTables.System.Silence

namespace NetTables.System

open Lib Spec Server

section Client

open Client

/-- What the client makes of the server's clock is at most this much ahead of its own. -/
structure Behind (ahead : Nat) (c : ClientState) : Prop where
  started : c.inner.startInstant ≤ c.now
  offset : c.inner.serverTimeOffset.toNat ≤ c.inner.startInstant + ahead

/-- A change that takes no time and that keeps the client behind from this instant on, as long as
its clock is a `u64`. -/
structure Fair (ahead : Nat) (n : Client.Instant) (f : ClientState → ClientState) : Prop where
  now : ∀ c, (f c).now = c.now
  behind : ∀ c, n ≤ c.now → c.now < UInt64.size → Behind ahead c → Behind ahead (f c)

abbrev Timely (ahead : Nat) (n : Client.Instant) (rest : ClientM Unit) : Prop :=
  rest.All (Fair ahead n) fun _ => True

/-- What the client is sent has readings of the server's clock only, none beyond the bound. -/
def ReadsBy (bound : Nat) : InnerClient.Incoming → Prop
  | .binary values => ∀ v ∈ values, ∃ timestamp rest,
      v = .array (.integer (-1) :: timestamp :: rest) ∧
        ∀ stamp, timestamp.asU64 = some stamp → stamp.toNat ≤ bound
  | .text _ | .other => True

variable {ahead : Nat} {n n' : Client.Instant} {c : ClientState} {o : IterOrder}
  {ofTypeStr : String → FrcType} {stamp : UInt64}

theorem Fair.later {f : ClientState → ClientState} (h : Fair ahead n f) (hle : n ≤ n') :
    Fair ahead n' f :=
  ⟨h.now, fun c hn => h.behind c (hle.trans hn)⟩

/-- A change of neither clock. -/
theorem fair_of_same {f : ClientState → ClientState} (hnow : ∀ c, (f c).now = c.now)
    (hstart : ∀ c, (f c).inner.startInstant = c.inner.startInstant)
    (hoffset : ∀ c, (f c).inner.serverTimeOffset = c.inner.serverTimeOffset) :
    Fair ahead n f := by
  refine ⟨hnow, fun c _ _ h => ⟨?_, ?_⟩⟩
  · rw [hstart, hnow]
    exact h.started
  · rw [hoffset, hstart]
    exact h.offset

theorem timely_updateTime : Timely ahead n InnerClient.updateTime := by
  simp only [InnerClient.updateTime, Prog.acquire_bind, Prog.read_bind]
  refine ⟨⟨fun _ => rfl, fun _ _ _ h => h⟩, fun c => ?_⟩
  dsimp only
  split
  · exact ⟨trivial, trivial⟩
  · trivial

/-- The clock starts anew. -/
theorem fair_restart {f : ClientState → ClientState} (hnow : ∀ c, (f c).now = c.now)
    (hstart : ∀ c, (f c).inner.startInstant = c.now)
    (hoffset : ∀ c, (f c).inner.serverTimeOffset.toNat ≤ c.inner.serverTimeOffset.toNat) :
    Fair ahead n f := by
  refine ⟨hnow, fun c _ _ h => ⟨?_, ?_⟩⟩
  · rw [hstart, hnow]
  · obtain ⟨up, hup⟩ := Nat.exists_eq_add_of_le h.started
    have hbefore := h.offset
    have hafter := hoffset c
    rw [hstart]
    omega

theorem timely_onOpen (o : IterOrder) : Timely ahead n (InnerClient.onOpen o) := by
  have hrest : ∀ c, Timely ahead n (do
      InnerClient.updateTime
      InnerClient.sendMessage (.text (InnerClient.replay o c))
      Prog.release .subscriptions
      Prog.release .clientPublishedTopics) :=
    fun c => timely_updateTime.bind fun _ => ⟨trivial, trivial⟩
  have hreset : Fair ahead n fun c => { c with inner := { c.inner with
      serverTimeOffset := 0, startInstant := c.now } } :=
    fair_restart (fun _ => rfl) (fun _ => rfl) fun _ => Nat.zero_le _
  refine ⟨fair_of_same (fun _ => rfl) (fun _ => rfl) fun _ => rfl, fun _ =>
    ⟨fair_of_same (fun _ => rfl) (fun _ => rfl) fun _ => rfl, fun _ =>
    ⟨fair_of_same (fun _ => rfl) (fun _ => rfl) fun _ => rfl, fun _ => ⟨hreset, fun _ => hrest _⟩⟩⟩⟩

theorem timely_handleNtMessage (m : NTMessage) :
    Timely ahead n (InnerClient.handleNtMessage ofTypeStr m) := by
  cases m with
  | announce a =>
    refine ⟨fair_of_same ?_ ?_ ?_, fun _ => trivial⟩ <;>
    · intro c
      split <;> rfl
  | unAnnounce v => exact ⟨fair_of_same (fun _ => rfl) (fun _ => rfl) fun _ => rfl, fun _ => trivial⟩
  | _ => trivial

/-- A reading of the server's clock gives no more than it says, less what has passed since the start:
half the round trip goes off it, wherever the sent time comes from. -/
theorem fair_withTimestamp (hstamp : stamp.toNat ≤ n + ahead) (sent : Option Int64) :
    Fair ahead n fun c => (c.withTimestamp stamp sent).getD c := by
  cases sent with
  | none => exact ⟨fun _ => rfl, fun _ _ _ h => h⟩
  | some sent =>
    refine ⟨fun c => ?_, fun c hn hnow h => ?_⟩
    · obtain ⟨offset, hc⟩ := getD_withTimestamp c stamp (some sent)
      rw [hc]
    · cases hnew : c.withTimestamp stamp (some sent) with
      | none => exact h
      | some c' =>
        obtain ⟨roundTrip, htrip, hnew⟩ := Option.bind_eq_some_iff.mp hnew
        obtain ⟨atReceive, hreceive, hnew⟩ := Option.bind_eq_some_iff.mp hnew
        obtain ⟨offset, hoffset, hnew⟩ := Option.bind_eq_some_iff.mp hnew
        cases hnew
        obtain ⟨up, hup⟩ := Nat.exists_eq_add_of_le h.started
        obtain ⟨since, hsince⟩ := Nat.exists_eq_add_of_le hn
        have hclock : c.clientTime.toNat = c.now - c.inner.startInstant :=
          UInt64.toNat_ofNat_of_lt' (lt_of_le_of_lt (Nat.sub_le ..) hnow)
        have hreceive : atReceive.toNat + (roundTrip / 2).toNat = stamp.toNat :=
          ClientState.toNat_checkedSub hreceive
        have hoffset : offset.toNat + c.clientTime.toNat = atReceive.toNat :=
          ClientState.toNat_checkedSub hoffset
        refine ⟨h.started, ?_⟩
        show offset.toNat ≤ c.inner.startInstant + ahead
        omega

theorem timely_handleTime (hstamp : stamp.toNat ≤ n + ahead) (data : Value) :
    Timely ahead n (InnerClient.handleTime stamp data) := by
  have hmath : (InnerClient.handleNewTimestamp stamp data.asI64).All (Fair ahead n)
      fun _ => True := ⟨fair_withTimestamp hstamp _, fun _ => trivial⟩
  apply hmath.bind
  intro ok
  cases ok with
  | true => trivial
  | false =>
    have hrestart : Fair ahead n fun c => { c with inner := { c.inner with startInstant := c.now } } :=
      fair_restart (fun _ => rfl) (fun _ => rfl) fun _ => le_rfl
    have hagain : Timely ahead n (InnerClient.updateTime >>= fun _ =>
        InnerClient.handleNewTimestamp stamp data.asI64 >>= fun _ => .pure ()) :=
      timely_updateTime.bind fun _ => hmath.bind fun _ => trivial
    exact ⟨hrestart, fun _ => hagain⟩

theorem timely_handleValue {timestamp : Value}
    (h : ∀ stamp, timestamp.asU64 = some stamp → stamp.toNat ≤ n + ahead) (rest : List Value) :
    Timely ahead n (InnerClient.handleValue o (.integer (-1) :: timestamp :: rest)) := by
  have hid : (Value.integer (-1)).asI64.map Int64.toInt32 = some (-1) := by decide
  have hneg : ¬(0 : Int32) ≤ -1 := by decide
  match rest with
  | [typeIdx, data] =>
    simp only [InnerClient.handleValue, hid]
    cases htime : timestamp.asU64 with
    | none => trivial
    | some stamp =>
      simp only [if_neg hneg, if_true]
      exact timely_handleTime (h stamp htime) data
  | [] | [_] | _ :: _ :: _ :: _ => trivial

theorem timely_handleMessage {message : InnerClient.Incoming} (h : ReadsBy (n + ahead) message) :
    Timely ahead n (InnerClient.handleMessage o ofTypeStr message) := by
  cases message with
  | text messages =>
    cases messages with
    | none => trivial
    | some messages => exact Prog.all_forEach fun m _ => timely_handleNtMessage m
  | binary values =>
    apply Prog.all_forEach
    intro v hv
    obtain ⟨timestamp, rest, rfl, hstamp⟩ := h v hv
    exact timely_handleValue hstamp rest
  | other => trivial

theorem timely_program (call : ApiCall) : Timely ahead n call.program := by
  have hsame : ∀ f : InnerClient → InnerClient, (∀ i, (f i).startInstant = i.startInstant) →
      (∀ i, (f i).serverTimeOffset = i.serverTimeOffset) →
      Fair ahead n fun c => { c with inner := f c.inner } :=
    fun f hstart hoffset => fair_of_same (fun _ => rfl) (fun c => hstart c.inner)
      fun c => hoffset c.inner
  cases call with
  | publishTopic name topicType properties =>
    exact ⟨fair_of_same (fun _ => rfl) (fun _ => rfl) fun _ => rfl, fun _ => ⟨trivial,
      fair_of_same (fun _ => rfl) (fun _ => rfl) fun _ => rfl, fun _ => trivial⟩⟩
  | unpublish topic => exact ⟨trivial, trivial⟩
  | subscribeWOptions topicNames options =>
    exact ⟨fair_of_same (fun _ => rfl) (fun _ => rfl) fun _ => rfl, fun _ => ⟨trivial,
      fair_of_same (fun _ => rfl) (fun _ => rfl) fun _ => rfl, fun _ =>
      ⟨fair_of_same (fun _ => rfl) (fun _ => rfl) fun _ => rfl, fun _ => trivial⟩⟩⟩
  | unsubscribe sub =>
    simp only [ApiCall.program, AsyncClientHandle.unsubscribe, Prog.read_bind]
    refine ⟨⟨fun _ => rfl, fun _ _ _ h => h⟩, fun c => ?_⟩
    dsimp only
    split
    · trivial
    · exact ⟨trivial, fair_of_same (fun _ => rfl) (fun _ => rfl) fun _ => rfl, fun _ =>
        ⟨fair_of_same (fun _ => rfl) (fun _ => rfl) fun _ => rfl, fun _ => trivial⟩⟩
  | dropStream sub =>
    exact ⟨fair_of_same (fun _ => rfl) (fun _ => rfl) fun _ => rfl, fun _ => trivial⟩
  | takeMessage sub =>
    refine ⟨fair_of_same ?_ ?_ ?_, fun _ => trivial⟩ <;>
    · intro c
      dsimp only
      split <;> rfl
  | publishValue topic v => exact ⟨⟨fun _ => rfl, fun _ _ _ h => h⟩, fun _ => ⟨trivial, trivial⟩⟩
  | publishValueWTimestamp topic timestamp v => exact ⟨trivial, trivial⟩

/-- The client is behind, and no task is about to put it ahead. -/
structure InTime (ahead : Nat) (S : Client.System) : Prop where
  behind : S.pool.shared.now < UInt64.size → Behind ahead S.pool.shared
  tasks : ∀ t, Timely ahead S.pool.shared.now (S.pool.rest t)

variable {S S' : Client.System} {e : Client.Event}

theorem inTime_initial (o : IterOrder) (now : Client.Instant) : InTime ahead (.initial o now) := by
  refine ⟨fun _ => ⟨le_rfl, Nat.zero_le _⟩, fun t => ?_⟩
  by_cases ht : t = .start
  · simp only [Client.System.initial, ht, if_true]
    exact timely_onOpen o
  · simp only [Client.System.initial, if_neg ht]
    trivial

theorem InTime.start (h : InTime ahead S) (t : TaskId) {p : ClientM Unit}
    (hp : Timely ahead S.pool.shared.now p) : InTime ahead (S.startTask t p) :=
  ⟨h.behind, Pool.all_start h.tasks hp⟩

/-- The client stays so as long as the readings it is sent are none that its own clock, with what the
server's is ahead, has yet to reach. -/
theorem InTime.step (h : InTime ahead S) (hstep : Takes ofTypeStr S e S')
    (he : ∀ message, e = .incoming message → ReadsBy (S.pool.shared.now + ahead) message) :
    InTime ahead S' ∧ S.pool.shared.now ≤ S'.pool.shared.now := by
  cases hstep with
  | @moves t pool hmoves =>
    obtain ⟨htasks, hsame | ⟨f, hf, hshared⟩⟩ := hmoves.all h.tasks
    · rw [← hsame] at htasks
      exact ⟨⟨hsame ▸ h.behind, htasks⟩, (congrArg ClientState.now hsame).ge⟩
    · have hnow : pool.shared.now = S.pool.shared.now := by rw [hshared, hf.now]
      refine ⟨⟨fun hlt => ?_, ?_⟩, hnow.ge⟩
      · have hlt' : S.pool.shared.now < UInt64.size := hnow ▸ hlt
        show Behind ahead pool.shared
        rw [hshared]
        exact hf.behind _ le_rfl hlt' (h.behind hlt')
      · show ∀ t, Timely ahead pool.shared.now (pool.rest t)
        rw [hnow]
        exact htasks
  | incoming o hselects => exact ⟨h.start .socket (timely_handleMessage (he _ rfl)), le_rfl⟩
  | reconnected o hlost =>
    have hstart := h.start .socket (timely_onOpen o)
    exact ⟨⟨hstart.behind, hstart.tasks⟩, le_rfl⟩
  | timer => exact ⟨h.start .timestamp timely_updateTime, le_rfl⟩
  | call => exact ⟨h.start _ (timely_program _), le_rfl⟩
  | connectionLost | written | writeFailed => exact ⟨⟨h.behind, h.tasks⟩, le_rfl⟩
  | tick micros =>
    have hle : S.pool.shared.now ≤ S.pool.shared.now + micros := Nat.le_add_right ..
    refine ⟨⟨fun hlt => ?_, fun t => ?_⟩, hle⟩
    · have hbehind := h.behind (lt_of_le_of_lt hle hlt)
      exact ⟨hbehind.started.trans hle, hbehind.offset⟩
    · exact (h.tasks t).mono (fun f hf => hf.later hle) fun _ h => h

/-- What the client takes for the server's time. -/
theorem Behind.serverTime (h : Behind ahead c) : c.serverTime.toNat ≤ c.now + ahead := by
  obtain ⟨up, hup⟩ := Nat.exists_eq_add_of_le h.started
  have hoffset := h.offset
  have hclock : c.clientTime.toNat ≤ c.now - c.inner.startInstant := by
    rw [ClientState.clientTime, UInt64.toNat_ofNat']
    exact Nat.mod_le _ _
  have hsum : c.serverTime.toNat ≤ c.clientTime.toNat + c.inner.serverTimeOffset.toNat := by
    rw [ClientState.serverTime, UInt64.toNat_add]
    exact Nat.mod_le _ _
  omega

end Client

section Server

variable {codec : Codec} {W W' : World} {happening : Happening} {i : Nat} {ahead bound bound' : Nat}
  {m : Message} {p : Peer}

theorem ReadsBy.mono {message : Client.InnerClient.Incoming} (h : ReadsBy bound message)
    (hle : bound ≤ bound') : ReadsBy bound' message := by
  cases message with
  | binary values =>
    intro v hv
    obtain ⟨timestamp, rest, heq, hstamp⟩ := h v hv
    exact ⟨timestamp, rest, heq, fun stamp htime => (hstamp stamp htime).trans hle⟩
  | text | other => trivial

theorem readsBy_forwarded {out : OutMessage} (h : Forwarded codec out m) :
    ReadsBy bound (codec.received m) := by
  obtain ⟨messages, -, rfl⟩ := text_of_forwarded h
  trivial

/-- The answer to a message of the client's clock is what the server's clock says. -/
theorem readsBy_answered (hreplies : RepliesRead codec.rmp.toRmpEncode codec.dec) {now : UInt64}
    (h : Answered codec now m) (hnow : now.toNat ≤ bound) : ReadsBy bound (codec.received m) := by
  rcases answer_cases h with rfl | ⟨time, rfl⟩
  · trivial
  · intro v hv
    have hread := hreplies (-1) now time FrcType.int.asU8
    rw [readAll_some hread, readAll_none (fromRead_nil _), List.mem_singleton] at hv
    refine ⟨_, _, hv, fun stamp hstamp => ?_⟩
    rw [asU64_ofNat now.toNat_lt, UInt64.ofNat_toNat] at hstamp
    cases hstamp
    exact hnow

/-- At an answer to the client the server's clock is at most this much ahead of the client's. -/
def KeepsTime (i ahead : Nat) (W : World) : Happening → Prop
  | .filters k now => ∀ p ∈ W.peers.lookup i,
      p.connection = k → now.toNat ≤ p.system.pool.shared.now + ahead
  | _ => True

instance : Decidable (KeepsTime i ahead W happening) :=
  match happening with
  | .filters k now => inferInstanceAs (Decidable (∀ p ∈ W.peers.lookup i,
      p.connection = k → now.toNat ≤ p.system.pool.shared.now + ahead))
  | .joins .. | .acts .. | .reconnects .. | .writes .. | .reads .. | .accepts .. | .passes ..
  | .answers .. | .forwards _ | .replies _ | .ends _ | .closes _ | .parses | .handles _ | .panics _
  | .operates _ | .publishes .. | .sets _ => isTrue trivial

/-- The client is in time, and so is everything that is on its way to it. -/
structure KeptInTime (codec : Codec) (ahead : Nat) (W : World) (p : Peer) : Prop where
  client : InTime ahead p.system
  readings : ∀ conn, W.connections.lookup p.connection = some conn → ∀ m ∈ conn.wire ++ conn.due,
    ReadsBy (p.system.pool.shared.now + ahead) (codec.received m)

theorem KeptInTime.step (hreplies : RepliesRead codec.rmp.toRmpEncode codec.dec)
    (h : ∀ p, W.peers.lookup i = some p → KeptInTime codec ahead W p)
    (hstep : Happens codec W happening W') (hguard : KeepsTime i ahead W happening) {p' : Peer}
    (hp' : W'.peers.lookup i = some p') : KeptInTime codec ahead W' p' := by
  have hclient : InTime ahead p'.system ∧ ∀ p, W.peers.lookup i = some p →
      p.system.pool.shared.now ≤ p'.system.pool.shared.now := by
    rcases hstep.peer hp' with hp | ⟨hnew, o, now, hsystem, -⟩ | ⟨p, e, hp, htakes⟩
    · refine ⟨(h p' hp).client, fun q hq => ?_⟩
      cases hp.symm.trans hq
      exact le_rfl
    · rw [hsystem]
      refine ⟨inTime_initial o now, fun q hq => ?_⟩
      exact (hnew ((KeyMap.mem_iff_lookup _ _).mpr ⟨q, hq⟩)).elim
    · obtain ⟨hclient, hle⟩ := (h p hp).client.step htakes.takes fun message he => by
        obtain ⟨conn, m, hconn, hm, rfl⟩ := htakes.reads message he
        exact (h p hp).readings conn hconn m (List.mem_append_left _ hm)
      refine ⟨hclient, fun q hq => ?_⟩
      cases hp.symm.trans hq
      exact hle
  obtain ⟨hclient, hlater⟩ := hclient
  refine ⟨hclient, fun conn' hconn' m hm => ?_⟩
  rcases hstep.holds ⟨p', hp', rfl⟩ with ⟨p, hp, hsame⟩ | ⟨hnew, -, -⟩
  · have hnow := Nat.add_le_add_right (hlater p hp) ahead
    rcases hstep.outgoing hconn' hm with ⟨conn, hconn, hold⟩ | ⟨now, rfl, hanswer⟩ |
      ⟨_, _, _, out, -, -, -, hfed⟩
    · exact ((h p hp).readings conn (hsame ▸ hconn) m hold).mono hnow
    · exact readsBy_answered hreplies hanswer ((hguard p hp hsame).trans hnow)
    · exact readsBy_forwarded hfed
  · rw [hstep.opens hnew hconn'] at hm
    cases hm

end Server

section Run

variable {codec : Codec} {W : World} {i : Nat} {ahead : Nat} {p : Peer} {u : Kind → Nat}

end Run

end NetTables.System
