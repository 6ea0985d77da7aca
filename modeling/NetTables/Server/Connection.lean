import NetTables.Server.State

namespace NetTables.Server

open Lib Spec

/-- A websocket message, without the payloads that nothing looks at. -/
inductive Message where
  | text (text : String)
  | binary (data : List UInt8)
  | ping
  | pong
  | close
  deriving DecidableEq

structure ClientMsg where
  clientIdx : ClientIdx
  msg : Message

/-- `[b'f', b'l', b'u', b's', b'h']` -/
def flushMarker : List UInt8 := [102, 108, 117, 115, 104]

/-- The message that stands on a client's channel. -/
def OutMessage.toMessage (json : SerdeJson) (rmp : RmpEncode) : OutMessage → Message
  | .text messages => .text (json.toStringList messages)
  | .binary frames => .binary (frames.flatMap fun frame => frame.value.asBytes rmp frame.topicId)
  | .flush => .binary flushMarker

/-- What a connection does with an incoming message. -/
inductive Incoming where
  | ignored
  | answered (msg : Message)
  | closing
  | forwarded
  deriving DecidableEq

/-- The reply to a time-sync message. -/
def timeMessage (rmp : RmpEncode) (now time : UInt64) : Message :=
  .binary (rmp.writeArrayLen 4 ++ rmp.writeI32 (-1) ++ rmp.writeUint now ++
    rmp.writeU8 FrcType.int.asU8 ++ rmp.writeUint time)

/-- The incoming filter of `handle_connection`; `now` is the clock reading of a reply. -/
def broadcastIncoming (rmp : RmpEncode) (dec : RmpDecode) (now : UInt64) :
    Message → Incoming
  | .binary data =>
    match data with
    | first :: second :: _ =>
      --len of mp array check
      if first ≠ 148 then
        .ignored
      else if second = 210 then
        --simply checks if id is negative, there should be no other reason id is negative
        match dec.fromRead data with
        | some (.array arr, _) =>
          match arr.getLast? with
          | some (.integer val) =>
            .answered (timeMessage rmp now ((Value.integer val).asU64.getD 0))
          | some _ => .ignored
          | none => .forwarded
        | _ => .forwarded
      else
        .forwarded
    | _ => .ignored
  | .ping => .answered .pong
  | .pong => .ignored
  | .close => .closing
  | .text _ => .forwarded

/-- The calls of `broadcast_outgoing` on the sink. -/
inductive SinkCall where
  | flush
  | feed (msg : Message)
  | send (msg : Message)
  deriving DecidableEq

/-- The arm of `select!` that is ready first. -/
inductive Arm where
  | tick
  | recv
  | time (msg : Option Message)

/-- The state of `broadcast_outgoing`: the messages on the channel, those taken from it, the calls
on the sink and the kill switch. -/
structure Outbound where
  channel : List OutMessage
  taken : List OutMessage := []
  sink : List SinkCall := []
  kill : Bool := false

def SinkCall.fed : SinkCall → Option Message
  | .feed msg => some msg
  | _ => none

def Outbound.fed (st : Outbound) : List Message := st.sink.filterMap SinkCall.fed

/-- What is done with a message from the channel. -/
def forward : Message → List SinkCall
  | .binary bin =>
    if bin.length = 5 ∧ bin.take 5 = flushMarker then
      [.flush]
    else
      []
  | msg => [.feed msg]

section Outgoing

variable (json : SerdeJson) (rmp : RmpEncode)

/-- An arm that finds its channel closed sets the kill switch. Errors of the sink are logged only. -/
def Outbound.turn (st : Outbound) : Arm → Outbound
  | .tick => { st with sink := st.sink ++ [.flush] }
  | .recv =>
    match st.channel with
    | [] => { st with kill := true }
    | m :: rest =>
      { st with
        channel := rest
        taken := st.taken ++ [m]
        sink := st.sink ++ forward (m.toMessage json rmp) }
  | .time (some msg) => { st with sink := st.sink ++ [.send msg] }
  | .time none => { st with kill := true }

/-- The turns of the loop, each with what others have made of the kill switch by its end. -/
def broadcastOutgoing : List (Arm × Bool) → Outbound → Outbound
  | [], st => st
  | (arm, killed) :: turns, st =>
    let st := st.turn json rmp arm
    if st.kill || killed then st else broadcastOutgoing turns st

end Outgoing

def OutMessage.isFlush : OutMessage → Bool
  | .flush => true
  | _ => false

/-- What the loop has taken is what was placed, in order, and it has fed all of it but the flush
markers; no value message looks like a marker. -/
structure Forwards (json : SerdeJson) (rmp : RmpEncode) (placed : List OutMessage)
    (st : Outbound) : Prop where
  taken : st.taken ++ st.channel = placed
  fed : st.fed = (st.taken.filter fun m => !m.isFlush).map (·.toMessage json rmp)
  marker : ∀ frames, .binary frames ∈ placed →
    (OutMessage.binary frames).toMessage json rmp ≠ .binary flushMarker

section Outgoing

variable {json : SerdeJson} {rmp : RmpEncode} {placed : List OutMessage} {st : Outbound}
  {turns : List (Arm × Bool)}

/-- Value messages begin with the marker of an array of four. -/
theorem toMessage_binary_ne (hrmp : rmp.writeArrayLen 4 = [148]) (frames : List ValueFrame) :
    (OutMessage.binary frames).toMessage json rmp ≠ .binary flushMarker := by
  cases frames with
  | nil => simp [OutMessage.toMessage, flushMarker]
  | cons frame frames =>
    simp [OutMessage.toMessage, FrcTimestampedValue.asBytes, hrmp, flushMarker]

/-- The text among the messages, as it is fed. -/
def textOf (json : SerdeJson) : OutMessage → Option Message
  | .text messages => some (.text (json.toStringList messages))
  | _ => none

/-- The loop feeds texts only: a binary message is taken for a marker, or falls through. -/
theorem fed_forward (m : OutMessage) :
    (forward (m.toMessage json rmp)).filterMap SinkCall.fed = (textOf json m).toList := by
  cases m with
  | text messages => rfl
  | flush => rfl
  | binary frames =>
    simp only [OutMessage.toMessage, forward, textOf]
    split_ifs <;> rfl

theorem fed_turn (rmp : RmpEncode) (arm : Arm) (h : st.fed = st.taken.filterMap (textOf json)) :
    (st.turn json rmp arm).fed = (st.turn json rmp arm).taken.filterMap (textOf json) := by
  unfold Outbound.fed at h
  cases arm with
  | tick => simpa [Outbound.turn, Outbound.fed, List.filterMap_cons, SinkCall.fed] using h
  | time msg =>
    cases msg <;> simpa [Outbound.turn, Outbound.fed, List.filterMap_cons, SinkCall.fed] using h
  | recv =>
    unfold Outbound.turn
    cases st.channel with
    | nil => exact h
    | cons m rest =>
      simp only [Outbound.fed, List.filterMap_append, fed_forward, h, List.filterMap_cons]
      cases textOf json m <;> rfl

theorem taken_turn (json : SerdeJson) (rmp : RmpEncode) (st : Outbound) (arm : Arm) :
    (st.turn json rmp arm).taken ++ (st.turn json rmp arm).channel = st.taken ++ st.channel := by
  cases arm with
  | tick => rfl
  | time msg => cases msg <;> rfl
  | recv =>
    unfold Outbound.turn
    cases st.channel with
    | nil => simp
    | cons m rest => simp

/-- Along the loop, what was taken and what is left make up what was placed, and the texts among
what was taken have been fed. -/
theorem fed_broadcastOutgoing (rmp : RmpEncode) (turns : List (Arm × Bool)) (st : Outbound)
    (h : st.fed = st.taken.filterMap (textOf json)) :
    (broadcastOutgoing json rmp turns st).fed =
        (broadcastOutgoing json rmp turns st).taken.filterMap (textOf json) ∧
      (broadcastOutgoing json rmp turns st).taken ++ (broadcastOutgoing json rmp turns st).channel =
        st.taken ++ st.channel := by
  induction turns generalizing st with
  | nil => exact ⟨h, rfl⟩
  | cons turn turns ih =>
    obtain ⟨arm, killed⟩ := turn
    have hfed := fed_turn rmp arm h
    have htaken := taken_turn json rmp st arm
    simp only [broadcastOutgoing]
    split_ifs
    · exact ⟨hfed, htaken⟩
    · obtain ⟨hfed', htaken'⟩ := ih _ hfed
      exact ⟨hfed', htaken'.trans htaken⟩

/-- Nothing stops the loop that only finds messages. -/
theorem taken_recv (l : List OutMessage) (st : Outbound) (hchannel : st.channel = l)
    (hkill : st.kill = false) :
    (broadcastOutgoing json rmp (l.map fun _ => (.recv, false)) st).taken = st.taken ++ l := by
  induction l generalizing st with
  | nil => simp [broadcastOutgoing]
  | cons m l ih =>
    have hturn : st.turn json rmp .recv = { st with
        channel := l
        taken := st.taken ++ [m]
        sink := st.sink ++ forward (m.toMessage json rmp) } := by
      simp [Outbound.turn, hchannel]
    have hrest := ih (st.turn json rmp .recv) (by rw [hturn]) (by rw [hturn]; exact hkill)
    have hstop : ((st.turn json rmp .recv).kill || false) = false := by
      rw [hturn]
      simpa using hkill
    rw [List.map_cons, broadcastOutgoing, hstop, if_neg Bool.false_ne_true, hrest, hturn]
    simp

/-- The texts are all but the markers exactly where there are no value messages. -/
theorem texts_eq_iff (l : List OutMessage) :
    l.filterMap (textOf json) = (l.filter fun m => !m.isFlush).map (·.toMessage json rmp) ↔
      ∀ frames, .binary frames ∉ l := by
  induction l with
  | nil => simp
  | cons m l ih =>
    cases m with
    | text messages =>
      simpa [textOf, List.filterMap_cons, OutMessage.isFlush, OutMessage.toMessage] using ih
    | flush => simpa [textOf, List.filterMap_cons, OutMessage.isFlush] using ih
    | binary frames =>
      constructor
      · intro h
        -- a binary message would have to be one of the texts
        have hmem : (OutMessage.binary frames).toMessage json rmp ∈ l.filterMap (textOf json) := by
          have hfirst : (OutMessage.binary frames :: l).filterMap (textOf json) =
              l.filterMap (textOf json) := rfl
          rw [← hfirst, h]
          simp [OutMessage.isFlush]
        obtain ⟨m, -, hm⟩ := List.mem_filterMap.mp hmem
        cases m <;> cases hm
      · intro h
        exact (h frames List.mem_cons_self).elim

/-- The loop forwards whatever the schedule exactly where no value message is placed. -/
theorem forwards_iff (hrmp : rmp.writeArrayLen 4 = [148]) (placed : List OutMessage) :
    (∀ turns, Forwards json rmp placed (broadcastOutgoing json rmp turns { channel := placed })) ↔
      ∀ frames, .binary frames ∉ placed := by
  have hrun : ∀ turns, (broadcastOutgoing json rmp turns { channel := placed }).fed =
      (broadcastOutgoing json rmp turns { channel := placed }).taken.filterMap (textOf json) ∧
      (broadcastOutgoing json rmp turns { channel := placed }).taken ++
        (broadcastOutgoing json rmp turns { channel := placed }).channel = placed :=
    fun turns => fed_broadcastOutgoing rmp turns { channel := placed } rfl
  constructor
  · intro h
    -- the schedule that finds a message at every turn takes all of them
    have hall := (h (placed.map fun _ => (.recv, false))).fed
    have htaken : (broadcastOutgoing json rmp (placed.map fun _ => (.recv, false))
        { channel := placed }).taken = placed := taken_recv placed _ rfl rfl
    rw [(hrun _).1, htaken] at hall
    exact (texts_eq_iff placed).mp hall
  · intro h turns
    obtain ⟨htexts, hsplit⟩ := hrun turns
    refine ⟨hsplit, ?_, fun frames _ => toMessage_binary_ne hrmp frames⟩
    rw [htexts, texts_eq_iff]
    intro frames hmem
    apply h frames
    rw [← hsplit]
    exact List.mem_append_left _ hmem

end Outgoing

/-- MessagePack as `rmp` writes it, for small numbers and values without a payload. -/
def rmpSmall : RmpEncode where
  writeArrayLen n := [0x90 + n.toUInt8]
  writeI32 i := [0xd2, (i.toUInt32 >>> 24).toUInt8, (i.toUInt32 >>> 16).toUInt8,
    (i.toUInt32 >>> 8).toUInt8, i.toUInt32.toUInt8]
  writeUint n := [n.toUInt8]
  writeU8 n := [0xcc, n]
  writeValue _ := [0xc0]

/-- JSON for the empty list only. -/
def jsonEmpty : SerdeJson where
  toStringOne _ := "\x7b\x7d"
  toStringList _ := "[]"
  fromStr text := if text = "[]" then some [] else none

theorem forwards_texts_and_flushes :
    Forwards jsonEmpty rmpSmall [.text [], .flush, .text []]
      (broadcastOutgoing jsonEmpty rmpSmall (List.replicate 3 (.recv, false))
        { channel := [.text [], .flush, .text []] }) :=
  (forwards_iff (by decide) [.text [], .flush, .text []]).mpr (by simp) _

/-- One value, as `send_out` sends it. -/
def oneValue : OutMessage := .binary [⟨5, ⟨7, ⟨.void, .nil⟩⟩⟩]

/-- A value message never reaches the sink. -/
theorem value_message_is_dropped :
    ¬∀ (json : SerdeJson) (rmp : RmpEncode), rmp.writeArrayLen 4 = [148] → ∀ placed turns,
      Forwards json rmp placed (broadcastOutgoing json rmp turns { channel := placed }) := by
  intro h
  have hfed := (h jsonEmpty rmpSmall (by decide) [oneValue] [(.recv, false)]).fed
  have hlost : (broadcastOutgoing jsonEmpty rmpSmall [(.recv, false)]
      { channel := [oneValue] }).fed = [] := by decide
  rw [hlost] at hfed
  cases hfed

end NetTables.Server
