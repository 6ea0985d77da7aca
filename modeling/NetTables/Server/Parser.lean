import NetTables.Server.Connection
import NetTables.Server.Disconnect

namespace NetTables.Server

open Lib Lib.Fallible Spec

/-- Reads values until nothing can be read: `while let Ok(data) = from_read(&mut msgpack)`. -/
def readAll (dec : RmpDecode) (msgpack : List UInt8) : List Value :=
  match _h : dec.fromRead msgpack with
  | none => []
  | some (data, rest) => data :: readAll dec rest
termination_by msgpack.length
decreasing_by exact dec.length_lt _ _ _ _h

/-- `u32::try_from` -/
def tryFromU64 (n : UInt64) : Option UInt32 :=
  if n.toNat < 2 ^ 32 then some n.toUInt32 else none

theorem readAll_none {dec : RmpDecode} {msgpack : List UInt8} (h : dec.fromRead msgpack = none) :
    readAll dec msgpack = [] := by
  rw [readAll]
  split
  · rfl
  next data rest hread => rw [h] at hread; cases hread

theorem readAll_some {dec : RmpDecode} {msgpack rest : List UInt8} {data : Value}
    (h : dec.fromRead msgpack = some (data, rest)) :
    readAll dec msgpack = data :: readAll dec rest := by
  rw [readAll]
  split
  next hread => rw [h] at hread; cases hread
  next hread =>
    rw [h] at hread
    cases hread
    rfl

theorem fromRead_nil (dec : RmpDecode) : dec.fromRead [] = none := by
  cases h : dec.fromRead [] with
  | none => rfl
  | some e => exact absurd (dec.length_lt _ _ _ h) (Nat.not_lt_zero _)

/-- What can be read back one by one is read back as a whole. -/
theorem readAll_flatMap {α : Type} {dec : RmpDecode} {bytes : α → List UInt8} {decoded : α → Value}
    {l : List α}
    (hread : ∀ a ∈ l, ∀ rest, dec.fromRead (bytes a ++ rest) = some (decoded a, rest)) :
    readAll dec (l.flatMap bytes) = l.map decoded := by
  induction l with
  | nil => exact readAll_none (fromRead_nil dec)
  | cons a l ih =>
    rw [List.flatMap_cons, readAll_some (hread a List.mem_cons_self _), List.map_cons,
      ih fun b hb => hread b (List.mem_cons_of_mem _ hb)]

theorem asU64_ofNat {n : Nat} (h : n < 2 ^ 64) :
    (Value.integer n).asU64 = some (UInt64.ofNat n) := by
  have hbound : (n : Int) < 2 ^ 64 := by omega
  rw [Value.asU64, if_pos ⟨Int.natCast_nonneg n, hbound⟩, Int.toNat_natCast]

def tooShort : String := "Array was too short"

def notU64 : String := "MsgPack value could not be represented as u64"

def notU32 : String := "MsgPack value could not be represented as u32: TryFromIntError(())"

/-- What `.expect("Invalid msgpack value")` panics with, up to the text of the error. -/
def invalidValue : String := "Invalid msgpack value"

section Parser

-- `tryFrom` is the conversion of a msgpack value to an `FrcValue`, which not every value has
variable (o : IterOrder) (json : SerdeJson) (dec : RmpDecode) (tryFrom : Value → Option FrcValue)

/-- One value of a binary message. -/
def parseValue (clientIdx : ClientIdx) (data : Value) : ServerM Unit :=
  match data with
  | .array array => do
    --these are safe because binaries are verified before they reach here
    let id ← unwrapOr array.head? tooShort
    let id ← unwrapOr id.asU64 notU64
    let topicUid ← unwrapOr (tryFromU64 id) notU32
    let array := array.tail
    let timestamp ← unwrapOr array.head? tooShort
    let timestamp ← unwrapOr timestamp.asU64 notU64
    let array := array.tail
    let last ← unwrapOr array.getLast? tooShort
    let value ← unwrapOr (tryFrom last) invalidValue
    match (← get).clients.lookup clientIdx with
    | none => pure ()
    | some client =>
      match client.pubuidToTopicidx.getByLeft topicUid with
      | some topicIdx => attempt (setValue ⟨timestamp, value⟩ topicIdx)
      | none => pure ()
  | _ => pure ()

/-- One message of a text; the errors of the operations are logged only. -/
def parseNtMessage (clientIdx : ClientIdx) (now : Instant) : NTMessage → ServerM Unit
  | .publish pubTopic => attempt (innerPublishTopic o pubTopic clientIdx)
  | .unpublish pubTopic => attempt (innerUnpublishTopic pubTopic clientIdx)
  | .setProperties setProps => attempt (setProperties setProps)
  | .subscribe sub => attempt (subscribe o sub clientIdx now)
  | .unsubscribe unsub => attempt (unsubscribe unsub clientIdx)
  | .close close => attempt (disconnectClient o ⟨close.addr, close.name⟩)
  | _ => pure ()

/-- One turn of the loop of `message_parser`; `clock` has the clock reading for each message. -/
def messageParser (clock : Nat → Instant) (cmsg : ClientMsg) : ServerM Unit :=
  match cmsg.msg with
  | .text text =>
    match json.fromStr text with
    | some ntMsgVec =>
      forEach ntMsgVec.zipIdx fun e => parseNtMessage o cmsg.clientIdx (clock e.2) e.1
    | none => pure ()
  | .binary msgpack => forEach (readAll dec msgpack) (parseValue tryFrom cmsg.clientIdx)
  | _ => pure ()

end Parser

section Close

/-- What `handle_connection` puts on the incoming channel when the connection ends. -/
def closeMsg (json : SerdeJson) (idx : ClientIdx) (identity : ClientIdentity) : ClientMsg :=
  ⟨idx, .text (json.toStringOne identity.asClose)⟩

variable {json : SerdeJson} {o : IterOrder} {dec : RmpDecode} {tryFrom : Value → Option FrcValue}
  {clock : Nat → Instant} {s : InnerServer} {idx : ClientIdx} {ident : ClientIdentity}

/-- The end of a connection reaches the parser as one close message for its client, which is then
disconnected. -/
def ClosesClient (json : SerdeJson) (o : IterOrder) (dec : RmpDecode)
    (tryFrom : Value → Option FrcValue) (clock : Nat → Instant) (s : InnerServer) (idx : ClientIdx) (ident : ClientIdentity) : Prop :=
  json.fromStr (json.toStringOne ident.asClose) = some [.close ⟨ident.addr, ident.name⟩] ∧
  (messageParser o json dec tryFrom clock (closeMsg json idx ident)).exec s =
    (attempt (disconnectClient o ident)).exec s

/-- A text that is an object is not decoded. -/
theorem fromStr_toStringOne (hjson : json.Framed) (m : NTMessage) :
    json.fromStr (json.toStringOne m) = none := by
  cases h : json.fromStr (json.toStringOne m) with
  | none => rfl
  | some l =>
    have harray := hjson.array _ l h
    rw [hjson.object m] at harray
    cases harray

/-- The parser never understands the close message, and leaves the server as it is. -/
theorem never_closesClient (hjson : json.Framed) (o : IterOrder) (dec : RmpDecode)
    (tryFrom : Value → Option FrcValue) (clock : Nat → Instant) (s : InnerServer) (idx : ClientIdx)
    (ident : ClientIdentity) :
    ¬ClosesClient json o dec tryFrom clock s idx ident ∧
      (messageParser o json dec tryFrom clock (closeMsg json idx ident)).exec s =
        .ok (.ok (), s) := by
  have hnone := fromStr_toStringOne hjson ident.asClose
  constructor
  · intro h
    rw [ClosesClient, hnone] at h
    cases h.1
  · simp only [messageParser, closeMsg, hnone]
    rfl

/-- JSON of a close message, as far as the name needs no escapes. -/
def jsonClose : SerdeJson where
  toStringOne m :=
    match m with
    | .close close => "\x7b\"method\":\"close\",\"params\":\x7b\"addr\":\"" ++ close.addr.display ++
        "\",\"name\":\"" ++ close.name ++ "\"\x7d\x7d"
    | _ => "\x7b\x7d"
  toStringList _ := "[]"
  fromStr text := if text = "[]" then some [] else none

/-- Nothing can be read, as from an empty message. -/
def decNothing : RmpDecode where
  fromRead _ := none
  length_lt _ _ _ h := by cases h

theorem framed_jsonClose : jsonClose.Framed := by
  constructor
  · intro m
    cases m <;> simp [jsonClose, jsonHead, isJsonSpace]
  · intro text l h
    simp only [jsonClose] at h
    split_ifs at h with htext
    subst htext
    rfl

theorem never_closesClient_connectOnce : ∃ s, stateAfter anyOp .stored connectOnce = some s ∧
    s.clientMap.lookup ⟨.v4 10 0 0 2 5810, "a"⟩ = some 1 ∧
    ¬ClosesClient jsonClose .stored decNothing (some ⟨.void, ·⟩) (fun _ => 0) s 1
        ⟨.v4 10 0 0 2 5810, "a"⟩ ∧
      (messageParser .stored jsonClose decNothing (some ⟨.void, ·⟩) (fun _ => 0)
        (closeMsg jsonClose 1 ⟨.v4 10 0 0 2 5810, "a"⟩)).exec s = .ok (.ok (), s) := by
  have hrun : (stateAfter anyOp .stored connectOnce).map (fun s =>
      s.clientMap.lookup ⟨.v4 10 0 0 2 5810, "a"⟩) = some (some 1) := by decide +kernel
  obtain ⟨s, hs, hident⟩ := Option.map_eq_some_iff.mp hrun
  exact ⟨s, hs, hident, never_closesClient framed_jsonClose .stored decNothing (some ⟨.void, ·⟩)
    (fun _ => 0) s 1 ⟨.v4 10 0 0 2 5810, "a"⟩⟩

/-- A connected client's close message is lost. -/
theorem close_message_is_not_understood :
    ¬∀ json : SerdeJson, json.Framed → ∀ s, Reachable s → ∀ ident idx,
      s.clientMap.lookup ident = some idx → ∀ o dec tryFrom clock,
        ClosesClient json o dec tryFrom clock s idx ident := by
  intro h
  have hrun : (stateAfter anyOp .stored connectOnce).map (fun s =>
      s.clientMap.lookup ⟨.v4 10 0 0 2 5810, "a"⟩) = some (some 1) := by decide +kernel
  obtain ⟨s, hs, hident⟩ := Option.map_eq_some_iff.mp hrun
  have hclose := (h jsonClose framed_jsonClose s (reachable_stateAfter hs) _ 1 hident .stored
    decNothing (some ⟨.void, ·⟩) fun _ => 0).1
  rw [fromStr_toStringOne framed_jsonClose] at hclose
  cases hclose

end Close

/-- `set_value` finds the lists and the queues that it unwraps. -/
def Storable (s : InnerServer) (t : TopicIdx) : Prop :=
  ∀ topic, s.topics.lookup t = some topic → hasDollar topic.name = false →
    ∃ subs, s.topicSubMap.lookup t = some subs ∧ ∀ i ∈ subs, i ∈ s.subValues

/-- What `set_value` does not change, as far as its own unwraps look at it. -/
structure SameLists (s s' : InnerServer) : Prop where
  clients : s'.clients = s.clients
  topics : s'.topics = s.topics
  topicSubMap : s'.topicSubMap = s.topicSubMap
  subValues : ∀ i, i ∈ s'.subValues ↔ i ∈ s.subValues

section Binary

variable {s s' : InnerServer} {t : TopicIdx} {i : SubIdx} {c : ClientIdx}
  {value : FrcTimestampedValue}

theorem SameLists.refl (s : InnerServer) : SameLists s s := ⟨rfl, rfl, rfl, fun _ => Iff.rfl⟩

theorem SameLists.trans {s₁ s₂ s₃ : InnerServer} (h : SameLists s₁ s₂) (h' : SameLists s₂ s₃) :
    SameLists s₁ s₃ where
  clients := h'.clients.trans h.clients
  topics := h'.topics.trans h.topics
  topicSubMap := h'.topicSubMap.trans h.topicSubMap
  subValues i := (h'.subValues i).trans (h.subValues i)

theorem SameLists.storable (h : SameLists s s') : Storable s' t ↔ Storable s t := by
  simp only [Storable, h.topics, h.topicSubMap, h.subValues]

theorem sameLists_queueValue :
    Ends (queueValue value t i) s fun r s' => r = .ok () ∧ SameLists s s' := by
  simp only [queueValue, ends_bind, ends_get, thenEnds_ok, ends_unwrapOr, ends_modify]
  intro stored hstored
  refine ⟨trivial, rfl, rfl, rfl, fun j => ?_⟩
  rw [AList.mem_insert]
  constructor
  · intro h
    rcases h with rfl | h
    · exact (KeyMap.mem_iff_lookup _ _).mpr ⟨stored, hstored⟩
    · exact h
  · exact .inr

theorem returns_queueValue : Returns (queueValue value t i) s ↔ i ∈ s.subValues := by
  rw [queueValue, returns_get_bind, returns_unwrapOr_bind, KeyMap.mem_iff_lookup]
  simp

theorem sameLists_storeValue :
    Ends (storeValue value t) s fun r s' => r = .ok () ∧ SameLists s s' := by
  simp only [storeValue, ends_bind, ends_get, thenEnds_ok]
  split
  · split_ifs
    · exact (ends_modify _).mpr ⟨rfl, rfl, rfl, rfl, fun _ => Iff.rfl⟩
    · exact (ends_pure ()).mpr ⟨rfl, .refl s⟩
  · exact (ends_modify _).mpr ⟨rfl, rfl, rfl, rfl, fun _ => Iff.rfl⟩

theorem returns_storeValue (s : InnerServer) : Returns (storeValue value t) s := by
  rw [storeValue, returns_get_bind]
  split
  · split_ifs
    · exact returns_modify _
    · exact returns_pure ()
  · exact returns_modify _

theorem sameLists_queueValues (subs : List SubIdx) (s : InnerServer) :
    Ends (forEach subs (queueValue value t)) s fun _ s' => SameLists s s' := by
  induction subs generalizing s with
  | nil => exact (ends_pure ()).mpr (.refl s)
  | cons i subs ih =>
    refine (ends_bind _ _).mpr (ends_mono sameLists_queueValue ?_)
    intro r s₁ h
    obtain ⟨rfl, h₁⟩ := h
    exact ends_mono (ih s₁) fun _ _ h => h₁.trans h

theorem sameLists_setValue : Ends (setValue value t) s fun _ s' => SameLists s s' := by
  simp only [setValue, ends_bind, ends_get, thenEnds_ok, ends_okOr, thenEnds_error]
  refine ⟨fun topic _ => ?_, fun _ => .refl s⟩
  split_ifs
  · exact (ends_throw _).mpr (.refl s)
  · simp only [ends_bind, ends_get, thenEnds_ok, ends_unwrapOr]
    intro subs _
    refine ends_mono (sameLists_queueValues subs s) ?_
    intro r s₁ h
    cases r with
    | error e => exact h
    | ok => exact ends_mono sameLists_storeValue fun _ _ h' => h.trans h'.2

/-- `set_value` panics exactly at a list or a queue that is not there. -/
theorem returns_setValue : Returns (setValue value t) s ↔ Storable s t := by
  rw [setValue, returns_get_bind]
  cases ht : s.topics.lookup t with
  | none => simp [Storable, ht, Returns, okOr]
  | some topic =>
    have hgo : (okOr (some topic) (topicMissing t "set") : ServerM Topic).exec s =
        .ok (.ok topic, s) := rfl
    rw [returns_bind_of_exec hgo]
    by_cases hdollar : hasDollar topic.name = true
    · simp [Storable, ht, hdollar]
    · rw [if_neg hdollar, returns_get_bind, returns_unwrapOr_bind]
      have hqueued : ∀ subs, Returns (forEach subs (queueValue value t) >>= fun _ =>
          storeValue value t) s ↔ ∀ i ∈ subs, i ∈ s.subValues := by
        intro subs
        rw [returns_bind_of_total fun _ s => returns_storeValue s]
        apply returns_forEach (SameLists s) (· ∈ s.subValues)
        · intro i s₁ h
          exact ends_mono sameLists_queueValue fun _ _ h' => ⟨h'.1, h.trans h'.2⟩
        · intro i s₁ h
          rw [returns_queueValue]
          exact h.subValues i
        · exact .refl s
      have hnormal : hasDollar topic.name = false := by simpa using hdollar
      simp only [hqueued, Storable, ht, Option.some.injEq, forall_eq', hnormal, forall_const]

/-- An array that starts with an id in 32 bits and a timestamp and ends with a value that can be
converted, and whose id does not lead to a topic that cannot be stored; values that are no array
are only logged. -/
def Harmless (tryFrom : Value → Option FrcValue) (s : InnerServer) (c : ClientIdx) : Value → Prop
  | .array (id :: timestamp :: rest) =>
    ∃ pubuid, id.asU64.bind tryFromU64 = some pubuid ∧ timestamp.asU64.isSome = true ∧
      (rest.getLast?.bind tryFrom).isSome = true ∧
      ∀ client topicIdx, s.clients.lookup c = some client →
        client.pubuidToTopicidx.getByLeft pubuid = some topicIdx → Storable s topicIdx
  | .array _ => False
  | _ => True

variable {tryFrom : Value → Option FrcValue} {data : Value}

theorem SameLists.harmless (h : SameLists s s') :
    Harmless tryFrom s' c data ↔ Harmless tryFrom s c data := by
  unfold Harmless
  split
  · simp only [h.clients, h.storable]
  · rfl
  · rfl

theorem sameLists_parseValue :
    Ends (parseValue tryFrom c data) s fun r s' => r = .ok () ∧ SameLists s s' := by
  unfold parseValue
  split
  · simp only [ends_bind, ends_unwrapOr, thenEnds_ok, ends_get]
    intro id _ n _ pubuid _ timestamp _ time _ last _ value _
    cases s.clients.lookup c with
    | none => exact (ends_pure ()).mpr ⟨rfl, .refl s⟩
    | some client =>
      simp only
      split
      · exact (ends_attempt _).mpr (ends_mono sameLists_setValue fun _ _ h => ⟨rfl, h⟩)
      · exact (ends_pure ()).mpr ⟨rfl, .refl s⟩
  · exact (ends_pure ()).mpr ⟨rfl, .refl s⟩

/-- The last part of a value message: the lookup of the topic and the store. -/
theorem returns_lookup {pubuid : PubUID} :
    Returns (do
      match (← get).clients.lookup c with
      | none => pure ()
      | some client =>
        match client.pubuidToTopicidx.getByLeft pubuid with
        | some topicIdx => attempt (setValue value topicIdx)
        | none => pure () : ServerM Unit) s ↔
      ∀ client topicIdx, s.clients.lookup c = some client →
        client.pubuidToTopicidx.getByLeft pubuid = some topicIdx → Storable s topicIdx := by
  rw [returns_get_bind]
  cases s.clients.lookup c with
  | none => simp
  | some client =>
    cases hpub : client.pubuidToTopicidx.getByLeft pubuid with
    | none =>
      simp only [hpub, returns_pure, true_iff]
      intro client' t hclient ht
      cases hclient
      rw [hpub] at ht
      cases ht
    | some topicIdx =>
      simp only [hpub, returns_attempt, returns_setValue]
      constructor
      · intro h client' t hclient ht
        cases hclient
        rw [hpub] at ht
        cases ht
        exact h
      · intro h
        exact h client topicIdx rfl hpub

/-- The checks of a value message, one after the other. -/
theorem returns_parseValue :
    Returns (parseValue tryFrom c data) s ↔ Harmless tryFrom s c data := by
  cases data with
  | array array =>
    simp only [parseValue, returns_unwrapOr_bind, returns_lookup]
    cases array with
    | nil => simp [Harmless]
    | cons id array =>
      cases array with
      | nil => simp [Harmless]
      | cons timestamp rest =>
        simp only [Harmless, List.head?_cons, List.tail_cons, Option.some.injEq, exists_eq_left',
          Option.bind_eq_some_iff, Option.isSome_iff_exists]
        constructor
        · intro h
          obtain ⟨n, hn, pubuid, hpub, time, htime, last, hlast, value, hvalue, h⟩ := h
          exact ⟨pubuid, ⟨n, hn, hpub⟩, ⟨time, htime⟩, ⟨value, last, hlast, hvalue⟩, h⟩
        · intro h
          obtain ⟨pubuid, ⟨n, hn, hpub⟩, ⟨time, htime⟩, ⟨value, last, hlast, hvalue⟩, h⟩ := h
          exact ⟨n, hn, pubuid, hpub, time, htime, last, hlast, value, hvalue, h⟩
  | _ => simp [parseValue, Harmless]

/-- The parser survives a binary message exactly where each of its values is harmless. -/
theorem parser_returns_iff (o : IterOrder) (json : SerdeJson) (dec : RmpDecode)
    (tryFrom : Value → Option FrcValue) (clock : Nat → Instant) (s : InnerServer) (c : ClientIdx)
    (msgpack : List UInt8) :
    (∃ r s', (messageParser o json dec tryFrom clock ⟨c, .binary msgpack⟩).exec s = .ok (r, s')) ↔
      ∀ data ∈ readAll dec msgpack, Harmless tryFrom s c data := by
  apply returns_forEach (SameLists s) (Harmless tryFrom s c)
  · intro data s₁ h
    exact ends_mono sameLists_parseValue fun _ _ h' => ⟨h'.1, h.trans h'.2⟩
  · intro data s₁ h
    rw [returns_parseValue]
    exact h.harmless
  · exact .refl s

/-- In a run that creates fewer than 2^32 topics every topic can be stored. -/
theorem storable_of_runs {u : Kind → Nat} (run : Runs u s) (hu : u .topic < 2 ^ 32)
    (t : TopicIdx) : Storable s t := by
  intro topic ht _
  have hmem : t ∈ s.topics := (KeyMap.mem_iff_lookup _ _).mpr ⟨topic, ht⟩
  obtain ⟨subs, hsubs⟩ := (KeyMap.mem_iff_lookup _ _).mp ((run.numbered hu).topics_listed t hmem)
  exact ⟨subs, hsubs, fun i hi => run.backed hu t i ⟨subs, hsubs, hi⟩⟩

end Binary

/-- An array of four that holds nothing. -/
def nilFrame : List UInt8 := [148, 192, 192, 192, 192]

/-- MessagePack for that one array. -/
def decNil : RmpDecode where
  fromRead bytes :=
    if bytes = nilFrame then some (.array [.nil, .nil, .nil, .nil], []) else none
  length_lt bytes v rest h := by
    split_ifs at h with hbytes
    cases h
    rw [hbytes]
    decide

/-- The filter lets the frame pass, and the parser finds no id in it. -/
theorem parser_panics_at_nil :
    ¬∀ (rmp : RmpEncode) (dec : RmpDecode) (now : UInt64) (data : List UInt8),
      broadcastIncoming rmp dec now (.binary data) = .forwarded →
      ∀ s, Reachable s → ∀ o json (tryFrom : Value → FrcValue) clock c, ∃ r s',
        (messageParser o json dec (some <| tryFrom ·) clock ⟨c, .binary data⟩).exec s =
          .ok (r, s') := by
  intro h
  have hrun : (stateAfter anyOp .stored connectOnce).isSome = true := by decide +kernel
  obtain ⟨s, hs⟩ := Option.isSome_iff_exists.mp hrun
  have hread : readAll decNil nilFrame = [.array [.nil, .nil, .nil, .nil]] := by
    have hfirst : decNil.fromRead nilFrame = some (.array [.nil, .nil, .nil, .nil], []) := rfl
    have hrest : decNil.fromRead [] = none := rfl
    rw [readAll_some hfirst, readAll_none hrest]
  obtain ⟨r, s', hx⟩ := h rmpSmall decNil 0 nilFrame (by decide) s (reachable_stateAfter hs)
    .stored jsonClose (⟨.void, ·⟩) (fun _ => 0) 1
  simp only [messageParser, hread, forEach, exec_bind] at hx
  cases hx

end NetTables.Server
