import NetTables.Server.TopicTable
import NetTables.System.LastValue

namespace NetTables.System

open Lib Lib.Fallible Spec Server Client

/-- A value or time-sync message as the client writes it, in an array of four. -/
structure BinaryMessage where
  id : UnsignedIntOrNegativeOne
  timestamp : UInt64
  type : UInt8
  value : Value

/-- The id as it is read. -/
def idValue : UnsignedIntOrNegativeOne → Value
  | .negativeOne => .integer (-1)
  | .unsignedInt uInt => .integer uInt.toNat

namespace BinaryMessage

def bytes (rmp : ClientRmp) (m : BinaryMessage) : List UInt8 :=
  rmp.writeArrayLen 4 ++ m.id.writeToBuf rmp ++ rmp.writeUint m.timestamp ++ rmp.writeU8 m.type ++
    rmp.writeValue m.value

def decoded (m : BinaryMessage) : Value :=
  .array [idValue m.id, .integer m.timestamp.toNat, .integer m.type.toNat, m.value]

/-- What is written for the message is read back, and nothing after it is touched. -/
def ReadBy (rmp : ClientRmp) (dec : RmpDecode) (m : BinaryMessage) : Prop :=
  ∀ rest, dec.fromRead (m.bytes rmp ++ rest) = some (m.decoded, rest)

def IsValue (m : BinaryMessage) : Prop := m.id ≠ .negativeOne

end BinaryMessage

/-- The first bytes that `rmp` writes. -/
structure Markers (rmp : ClientRmp) : Prop where
  array : rmp.writeArrayLen 4 = [148]
  negative : ∃ more, rmp.writeI32 (-1) = 210 :: more
  unsigned : ∀ n, ∃ more, rmp.writeU32 n = 206 :: more

/-- What has come of frames: the replies to time-sync messages, and the values that were set. -/
structure Received where
  replies : List Message := []
  updates : List (TopicIdx × FrcTimestampedValue) := []

/-- The topic and the value of the call of `set_value` that a value of a binary message leads to, if
the call is made and does not fail. -/
def updateOf (tryFrom : Value → Option FrcValue) (s : InnerServer) (c : ClientIdx) :
    Value → Option (TopicIdx × FrcTimestampedValue)
  | .array (id :: timestamp :: rest) => do
    let pubuid ← id.asU64.bind tryFromU64
    let time ← timestamp.asU64
    let value ← rest.getLast?.bind tryFrom
    let client ← s.clients.lookup c
    let topicIdx ← client.pubuidToTopicidx.getByLeft pubuid
    let topic ← s.topics.lookup topicIdx
    if hasDollar topic.name then none else some (topicIdx, ⟨time, value⟩)
  | _ => none

section Receive

variable (rmp : ClientRmp) (dec : RmpDecode) (tryFrom : Value → Option FrcValue)
  (c : ClientIdx) (clock : Nat → UInt64)

/-- One value of a binary message in the parser, with a note of what it sets. -/
def noteValue (acc : Received) (data : Value) : ServerM Received := do
  let s ← get
  parseValue tryFrom c data
  pure { acc with updates := acc.updates ++ (updateOf tryFrom s c data).toList }

/-- A binary frame of a client, from the filter of its connection to the end of the parser's work on
it; the clock is read for the replies. -/
def receive (acc : Received) (data : List UInt8) : ServerM Received :=
  match broadcastIncoming rmp.toRmpEncode dec (clock acc.replies.length) (.binary data) with
  | .answered msg => pure { acc with replies := acc.replies ++ [msg] }
  | .forwarded => foldEach (readAll dec data) acc (noteValue tryFrom c)
  | .ignored | .closing => pure acc

def receiveAll (frames : List (List UInt8)) : ServerM Received :=
  foldEach frames {} (receive rmp dec tryFrom c clock)

/-- One frame with all of the messages does what a frame for each of them does, and no panic. -/
def Transparent (s : InnerServer) (ms : List BinaryMessage) : Prop :=
  ∃ received s',
    (receiveAll rmp dec tryFrom c clock [ms.flatMap (·.bytes rmp)]).exec s =
      .ok (.ok received, s') ∧
    (receiveAll rmp dec tryFrom c clock (ms.map (·.bytes rmp))).exec s = .ok (.ok received, s')

end Receive

variable {rmp : ClientRmp} {dec : RmpDecode} {tryFrom : Value → Option FrcValue} {c : ClientIdx}
  {clock : Nat → UInt64} {s s' : InnerServer} {m : BinaryMessage} {ms : List BinaryMessage}
  {acc : Received} {data : Value}

section Parse

/-- The note is what the parser does: a `set_value` that goes through, or nothing. -/
theorem exec_parseValue_updateOf (hreturns : Returns (parseValue tryFrom c data) s) :
    (parseValue tryFrom c data).exec s =
      match updateOf tryFrom s c data with
      | some (t, value) => (attempt (setValue value t)).exec s
      | none => .ok (.ok (), s) := by
  have h := returns_parseValue.mp hreturns
  unfold parseValue updateOf
  cases data with
  | array array =>
    match array with
    | [] => exact h.elim
    | [_] => exact h.elim
    | id :: timestamp :: rest =>
      obtain ⟨pubuid, hid, htime, hvalue, -⟩ := h
      obtain ⟨n, hn, hpub⟩ := Option.bind_eq_some_iff.mp hid
      obtain ⟨time, htime⟩ := Option.isSome_iff_exists.mp htime
      obtain ⟨value, hvalue⟩ := Option.isSome_iff_exists.mp hvalue
      obtain ⟨last, hlast, htryFrom⟩ := Option.bind_eq_some_iff.mp hvalue
      simp only [List.head?_cons, List.tail_cons]
      rw [exec_unwrapOr_bind rfl, exec_unwrapOr_bind hn, exec_unwrapOr_bind hpub,
        exec_unwrapOr_bind rfl, exec_unwrapOr_bind htime, exec_unwrapOr_bind hlast,
        exec_unwrapOr_bind htryFrom, exec_bind, exec_get]
      simp only [hid, htime, hvalue]
      cases s.clients.lookup c with
      | none => rfl
      | some client =>
        cases hpub : client.pubuidToTopicidx.getByLeft pubuid with
        | none => simp [hpub]
        | some t =>
          cases ht : s.topics.lookup t with
          | none => simp [hpub, ht, exec_attempt, setValue, exec_bind, okOr]
          | some topic =>
            by_cases hdollar : hasDollar topic.name = true
            · simp [hpub, ht, hdollar, exec_attempt, setValue, exec_bind, okOr]
            · simp [hpub, ht, hdollar]
  | _ => rfl

theorem ends_noteValue :
    Ends (noteValue tryFrom c acc data) s fun r s' =>
      r = .ok { acc with updates := acc.updates ++ (updateOf tryFrom s c data).toList } ∧
        SameLists s s' := by
  simp only [noteValue, ends_bind, ends_get, thenEnds_ok]
  refine ends_mono sameLists_parseValue ?_
  intro r s' h
  obtain ⟨rfl, h⟩ := h
  exact (ends_pure _).mpr ⟨rfl, h⟩

/-- But for the notes, it is the parser's loop. -/
theorem ignoring_notes (l : List Value) (acc : Received) (s : InnerServer) :
    (ignoring (foldEach l acc (noteValue tryFrom c))).exec s =
      (forEach l (parseValue tryFrom c)).exec s := by
  induction l generalizing acc s with
  | nil => rfl
  | cons data l ih =>
    simp only [ignoring, foldEach, forEach, noteValue, exec_bind, exec_get]
    rcases (parseValue tryFrom c data).exec s with text | ⟨e | a, s₁⟩
    · rfl
    · rfl
    · have hrest := ih { acc with updates := acc.updates ++ (updateOf tryFrom s c data).toList } s₁
      rw [ignoring, exec_bind] at hrest
      simpa only [exec_pure] using hrest

theorem returns_noteValue : Returns (noteValue tryFrom c acc data) s ↔ Harmless tryFrom s c data := by
  rw [noteValue, returns_get_bind, returns_bind_of_total fun _ _ => returns_pure _,
    returns_parseValue]

end Parse

/-- The server does nothing for the message: no reply, or no topic that takes the value. -/
def BinaryMessage.Idle (s : InnerServer) (c : ClientIdx) (m : BinaryMessage) : Prop :=
  match m.id with
  | .negativeOne => ∀ time, m.value ≠ .integer time
  | .unsignedInt pubuid => ∀ t, ¬PublishesTo s c pubuid t

/-- The value of a value message can be converted, and the topic that the message is for, if it is
for one, can be stored. -/
def BinaryMessage.CanStore (tryFrom : Value → Option FrcValue) (s : InnerServer) (c : ClientIdx)
    (m : BinaryMessage) : Prop :=
  ∀ pubuid, m.id = .unsignedInt pubuid → (tryFrom m.value).isSome = true ∧
    ∀ client t, s.clients.lookup c = some client →
      client.pubuidToTopicidx.getByLeft pubuid = some t → Storable s t

section Messages

/-- The parser takes just the value messages, as far as they can be stored. -/
theorem harmless_decoded :
    Harmless tryFrom s c m.decoded ↔ m.IsValue ∧ m.CanStore tryFrom s c := by
  unfold BinaryMessage.decoded BinaryMessage.IsValue BinaryMessage.CanStore
  cases hid : m.id with
  | negativeOne => simp [Harmless, idValue, Value.asU64]
  | unsignedInt pubuid =>
    have hpubuid : (Value.integer pubuid.toNat).asU64.bind tryFromU64 = some pubuid := by
      rw [asU64_ofNat (pubuid.toNat_lt.trans (by decide)), Option.bind_some, tryFromU64_toNat]
    have htime : (Value.integer m.timestamp.toNat).asU64.isSome = true := by
      rw [asU64_ofNat m.timestamp.toNat_lt]
      rfl
    have hlast : [Value.integer m.type.toNat, m.value].getLast?.bind tryFrom = tryFrom m.value := rfl
    simp only [Harmless, idValue, hpubuid, htime, hlast]
    constructor
    · intro h
      obtain ⟨pubuid', heq, -, hvalue, h⟩ := h
      cases heq
      refine ⟨by simp, fun pubuid' heq => ?_⟩
      cases heq
      exact ⟨hvalue, h⟩
    · intro h
      obtain ⟨hvalue, hstore⟩ := h.2 pubuid rfl
      exact ⟨pubuid, rfl, trivial, hvalue, hstore⟩

theorem updateOf_decoded {pubuid : UInt32} (hid : m.id = .unsignedInt pubuid)
    (hvalue : (tryFrom m.value).isSome = true) :
    updateOf tryFrom s c m.decoded = none ↔ ∀ t, ¬PublishesTo s c pubuid t := by
  obtain ⟨value, hvalue⟩ := Option.isSome_iff_exists.mp hvalue
  have hpubuid : (Value.integer pubuid.toNat).asU64.bind tryFromU64 = some pubuid := by
    rw [asU64_ofNat (pubuid.toNat_lt.trans (by decide)), Option.bind_some, tryFromU64_toNat]
  have hlast : [Value.integer m.type.toNat, m.value].getLast?.bind tryFrom = some value := hvalue
  rw [BinaryMessage.decoded, hid]
  simp only [updateOf, idValue, hpubuid, asU64_ofNat m.timestamp.toNat_lt, hlast, PublishesTo]
  cases s.clients.lookup c with
  | none => simp
  | some client =>
    cases hpub : client.pubuidToTopicidx.getByLeft pubuid with
    | none => simp [hpub]
    | some t =>
      cases ht : s.topics.lookup t with
      | none => simp [hpub, ht]
      | some topic => simp [hpub, ht]

theorem readAll_batch (hread : ∀ m ∈ ms, m.ReadBy rmp dec) :
    readAll dec (ms.flatMap (·.bytes rmp)) = ms.map (·.decoded) := readAll_flatMap hread

/-- The filter lets pass what begins with a value message. -/
theorem incoming_value (hrmp : Markers rmp) (hm : m.IsValue) (now : UInt64) (more : List UInt8) :
    broadcastIncoming rmp.toRmpEncode dec now (.binary (m.bytes rmp ++ more)) = .forwarded := by
  cases hid : m.id with
  | negativeOne => exact (hm hid).elim
  | unsignedInt pubuid =>
    obtain ⟨tail, htail⟩ := hrmp.unsigned pubuid
    simp [BinaryMessage.bytes, hid, UnsignedIntOrNegativeOne.writeToBuf, hrmp.array, htail,
      broadcastIncoming]

/-- It answers a time-sync message at the beginning, whatever follows. -/
theorem incoming_time (hrmp : Markers rmp) (hm : ¬m.IsValue) (hread : m.ReadBy rmp dec)
    (now : UInt64) (more : List UInt8) :
    broadcastIncoming rmp.toRmpEncode dec now (.binary (m.bytes rmp ++ more)) =
      match m.value with
      | .integer time => .answered
          (timeMessage rmp.toRmpEncode now ((Value.integer time).asU64.getD 0))
      | _ => .ignored := by
  have hid : m.id = .negativeOne := not_not.mp hm
  obtain ⟨tail, htail⟩ := hrmp.negative
  have hfirst := hread more
  have hbytes : ∃ tail, m.bytes rmp ++ more = 148 :: 210 :: tail := by
    refine ⟨tail ++ (rmp.writeUint m.timestamp ++ (rmp.writeU8 m.type ++
      (rmp.writeValue m.value ++ more))), ?_⟩
    simp [BinaryMessage.bytes, hid, UnsignedIntOrNegativeOne.writeToBuf, hrmp.array, htail]
  obtain ⟨tail, hbytes⟩ := hbytes
  rw [hbytes] at hfirst ⊢
  simp only [broadcastIncoming, hfirst, BinaryMessage.decoded]
  cases m.value <;> rfl

end Messages

section Frames

/-- What the filter makes of a time-sync message. -/
def answer (rmp : ClientRmp) (clock : Nat → UInt64) (acc : Received) (m : BinaryMessage) :
    Received :=
  match m.value with
  | .integer time =>
    { acc with
      replies := acc.replies ++ [timeMessage rmp.toRmpEncode (clock acc.replies.length)
        ((Value.integer time).asU64.getD 0)] }
  | _ => acc

theorem receive_time (hrmp : Markers rmp) (hm : ¬m.IsValue) (hread : m.ReadBy rmp dec)
    (more : List UInt8) :
    receive rmp dec tryFrom c clock acc (m.bytes rmp ++ more) = pure (answer rmp clock acc m) := by
  unfold receive answer
  rw [incoming_time hrmp hm hread]
  cases m.value <;> rfl

theorem receive_one_time (hrmp : Markers rmp) (hm : ¬m.IsValue) (hread : m.ReadBy rmp dec) :
    receive rmp dec tryFrom c clock acc (m.bytes rmp) = pure (answer rmp clock acc m) := by
  rw [← receive_time hrmp hm hread [], List.append_nil]

theorem receive_values (hrmp : Markers rmp) (hm : m.IsValue)
    (hread : ∀ m' ∈ m :: ms, m'.ReadBy rmp dec) :
    receive rmp dec tryFrom c clock acc ((m :: ms).flatMap (·.bytes rmp)) =
      foldEach ((m :: ms).map (·.decoded)) acc (noteValue tryFrom c) := by
  unfold receive
  rw [← readAll_batch hread, List.flatMap_cons, incoming_value hrmp hm]

theorem receive_value (hrmp : Markers rmp) (hm : m.IsValue) (hread : m.ReadBy rmp dec) :
    receive rmp dec tryFrom c clock acc (m.bytes rmp) = noteValue tryFrom c acc m.decoded := by
  have hone : receive rmp dec tryFrom c clock acc ([m].flatMap (·.bytes rmp)) =
      foldEach ([m].map (·.decoded)) acc (noteValue tryFrom c) :=
    receive_values hrmp hm (by simpa using hread)
  rwa [List.flatMap_cons, List.flatMap_nil, List.append_nil, List.map_cons, List.map_nil,
    foldEach_singleton] at hone

/-- Frames with value messages only are read as one. -/
theorem receives_values (hrmp : Markers rmp) (hread : ∀ m ∈ ms, m.ReadBy rmp dec)
    (hvalues : ∀ m ∈ ms, m.IsValue) :
    foldEach (ms.map (·.bytes rmp)) acc (receive rmp dec tryFrom c clock) =
      foldEach (ms.map (·.decoded)) acc (noteValue tryFrom c) := by
  induction ms generalizing acc with
  | nil => rfl
  | cons m ms ih =>
    have hrest : ∀ acc, foldEach (ms.map (·.bytes rmp)) acc (receive rmp dec tryFrom c clock) =
        foldEach (ms.map (·.decoded)) acc (noteValue tryFrom c) :=
      fun acc => ih (fun m hm => hread m (List.mem_cons_of_mem _ hm))
        fun m hm => hvalues m (List.mem_cons_of_mem _ hm)
    simp only [List.map_cons, foldEach, hrest]
    rw [receive_value hrmp (hvalues m List.mem_cons_self) (hread m List.mem_cons_self)]

theorem returns_notes :
    Returns (foldEach (ms.map (·.decoded)) acc (noteValue tryFrom c)) s ↔
      ∀ m ∈ ms, m.IsValue ∧ m.CanStore tryFrom s c := by
  rw [returns_foldEach (SameLists s) (Harmless tryFrom s c) _ _ _ _ _ (.refl s)]
  · simp only [List.forall_mem_map, harmless_decoded]
  · intro acc s₁ data _ h
    refine ends_mono ends_noteValue ?_
    intro r s' h'
    exact ⟨⟨_, h'.1⟩, h.trans h'.2⟩
  · intro acc s₁ data _ h
    rw [returns_noteValue]
    exact h.harmless

theorem ok_of_returns_notes {l : List Value}
    (h : Returns (foldEach l acc (noteValue tryFrom c)) s) :
    ∃ received s', (foldEach l acc (noteValue tryFrom c)).exec s = .ok (.ok received, s') := by
  obtain ⟨r, s', hx⟩ := h
  have hok := ends_foldEach (fun _ _ _ => True) (fun _ _ => False) (noteValue tryFrom c)
    (fun data l acc s _ => ends_mono ends_noteValue fun r s' h => by rw [h.1]; trivial) l acc s
    trivial r s' hx
  cases r with
  | error e => exact hok.elim
  | ok received => exact ⟨received, s', hx⟩

end Frames

/-- Where the batch begins with a value message, the others have to be value messages too. -/
theorem transparent_of_value_first (hrmp : Markers rmp)
    (hread : ∀ m' ∈ m :: ms, m'.ReadBy rmp dec) (hm : m.IsValue) :
    Transparent rmp dec tryFrom c clock s (m :: ms) ↔
      ∀ m' ∈ m :: ms, m'.IsValue ∧ m'.CanStore tryFrom s c := by
  have hbatch : receiveAll rmp dec tryFrom c clock [(m :: ms).flatMap (·.bytes rmp)] =
      foldEach ((m :: ms).map (·.decoded)) {} (noteValue tryFrom c) := by
    rw [receiveAll, foldEach_singleton, receive_values hrmp hm hread]
  unfold Transparent
  rw [hbatch]
  constructor
  · intro h
    obtain ⟨received, s', hx, -⟩ := h
    exact returns_notes.mp ⟨_, s', hx⟩
  · intro h
    obtain ⟨received, s', hx⟩ := ok_of_returns_notes (returns_notes.mpr h)
    refine ⟨received, s', hx, ?_⟩
    rw [receiveAll, receives_values hrmp hread fun m hm => (h m hm).1, hx]

section TimeFirst

def Received.size (received : Received) : Nat := received.replies.length + received.updates.length

theorem idle_of_sameLists {s₁ : InnerServer} (h : SameLists s s₁) : m.Idle s₁ c ↔ m.Idle s c := by
  unfold BinaryMessage.Idle PublishesTo
  rw [h.clients, h.topics]

theorem canStore_of_sameLists {s₁ : InnerServer} (h : SameLists s s₁) :
    m.CanStore tryFrom s₁ c ↔ m.CanStore tryFrom s c := by
  unfold BinaryMessage.CanStore
  simp only [h.clients, h.storable]

/-- A frame of one message that is not idle adds to what is received. -/
theorem ends_receive (hrmp : Markers rmp) (hread : m.ReadBy rmp dec) :
    Ends (receive rmp dec tryFrom c clock acc (m.bytes rmp)) s fun r s' =>
      (∃ acc', r = .ok acc' ∧ acc.size ≤ acc'.size ∧ (¬m.Idle s c → acc.size < acc'.size)) ∧
        SameLists s s' := by
  cases hid : m.id with
  | negativeOne =>
    rw [receive_one_time hrmp (not_not.mpr hid) hread]
    refine (ends_pure _).mpr ⟨⟨_, rfl, ?_, fun hidle => ?_⟩, .refl s⟩
    · unfold answer
      split
      · simp only [Received.size, List.length_append, List.length_singleton]
        omega
      · exact le_rfl
    · unfold answer
      split
      · simp only [Received.size, List.length_append, List.length_singleton]
        omega
      · next hnot =>
        refine (hidle ?_).elim
        rw [BinaryMessage.Idle, hid]
        exact hnot
  | unsignedInt pubuid =>
    have hm : m.IsValue := by
      rw [BinaryMessage.IsValue, hid]
      nofun
    rw [receive_value hrmp hm hread]
    intro r s' hx
    have h := ends_of_exec ends_noteValue hx
    have hharmless : Harmless tryFrom s c m.decoded := returns_noteValue.mp ⟨r, s', hx⟩
    refine ⟨⟨_, h.1, ?_, fun hidle => ?_⟩, h.2⟩
    · simp only [Received.size, List.length_append]
      omega
    · have hvalue := ((harmless_decoded.mp hharmless).2 pubuid hid).1
      cases hupdate : updateOf tryFrom s c m.decoded with
      | none =>
        refine (hidle ?_).elim
        rw [BinaryMessage.Idle, hid]
        exact (updateOf_decoded hid hvalue).mp hupdate
      | some update =>
        simp only [Received.size, List.length_append, Option.toList_some, List.length_singleton]
        omega

theorem returns_receive (hrmp : Markers rmp) (hread : m.ReadBy rmp dec) :
    Returns (receive rmp dec tryFrom c clock acc (m.bytes rmp)) s ↔ m.CanStore tryFrom s c := by
  by_cases hm : m.IsValue
  · rw [receive_value hrmp hm hread, returns_noteValue, harmless_decoded]
    exact and_iff_right hm
  · rw [receive_one_time hrmp hm hread]
    simp only [returns_pure, true_iff]
    intro pubuid hid
    exact (hm (by simp [BinaryMessage.IsValue, hid])).elim

/-- An idle message changes nothing. -/
theorem exec_receive_idle (hrmp : Markers rmp) (hread : m.ReadBy rmp dec) (hidle : m.Idle s c)
    (hstore : m.CanStore tryFrom s c) :
    (receive rmp dec tryFrom c clock acc (m.bytes rmp)).exec s = .ok (.ok acc, s) := by
  cases hid : m.id with
  | negativeOne =>
    rw [BinaryMessage.Idle, hid] at hidle
    rw [receive_one_time hrmp (not_not.mpr hid) hread, answer]
    split
    · next time heq => exact (hidle time heq).elim
    · rfl
  | unsignedInt pubuid =>
    have hm : m.IsValue := by
      rw [BinaryMessage.IsValue, hid]
      nofun
    rw [BinaryMessage.Idle, hid] at hidle
    have hnone : updateOf tryFrom s c m.decoded = none :=
      (updateOf_decoded hid (hstore pubuid hid).1).mpr hidle
    have hreturns : Returns (parseValue tryFrom c m.decoded) s :=
      returns_parseValue.mpr (harmless_decoded.mpr ⟨hm, hstore⟩)
    have hparse := exec_parseValue_updateOf hreturns
    rw [hnone] at hparse
    rw [receive_value hrmp hm hread, noteValue, exec_bind, exec_get]
    simp only [exec_bind, hparse, hnone, exec_pure, Option.toList_none, List.append_nil]

theorem exec_receives_idle (hrmp : Markers rmp) (hread : ∀ m ∈ ms, m.ReadBy rmp dec)
    (hidle : ∀ m ∈ ms, m.Idle s c) (hstore : ∀ m ∈ ms, m.CanStore tryFrom s c) :
    (foldEach (ms.map (·.bytes rmp)) acc (receive rmp dec tryFrom c clock)).exec s =
      .ok (.ok acc, s) := by
  induction ms with
  | nil => rfl
  | cons m ms ih =>
    have hfirst : (receive rmp dec tryFrom c clock acc (m.bytes rmp)).exec s = .ok (.ok acc, s) :=
      exec_receive_idle hrmp (hread m List.mem_cons_self) (hidle m List.mem_cons_self)
        (hstore m List.mem_cons_self)
    rw [List.map_cons, foldEach, exec_bind, hfirst]
    exact ih (fun m hm => hread m (List.mem_cons_of_mem _ hm))
      (fun m hm => hidle m (List.mem_cons_of_mem _ hm))
      fun m hm => hstore m (List.mem_cons_of_mem _ hm)

theorem ends_receives (hrmp : Markers rmp) (hread : ∀ m ∈ ms, m.ReadBy rmp dec) :
    Ends (foldEach (ms.map (·.bytes rmp)) acc (receive rmp dec tryFrom c clock)) s fun r _ =>
      ∃ acc', r = .ok acc' ∧ acc.size ≤ acc'.size ∧
        ((∃ m ∈ ms, ¬m.Idle s c) → acc.size < acc'.size) := by
  induction ms generalizing acc s with
  | nil => exact (ends_pure _).mpr ⟨acc, rfl, le_rfl, by simp⟩
  | cons m ms ih =>
    rw [List.map_cons, foldEach]
    refine (ends_bind _ _).mpr (ends_mono (ends_receive hrmp (hread m List.mem_cons_self)) ?_)
    intro r s₁ h
    obtain ⟨⟨acc₁, rfl, hle, hlt⟩, hsame⟩ := h
    refine ends_mono (ih fun m hm => hread m (List.mem_cons_of_mem _ hm)) ?_
    intro r s' h
    obtain ⟨acc', rfl, hle', hlt'⟩ := h
    refine ⟨acc', rfl, by omega, fun hactive => ?_⟩
    obtain ⟨m', hmem, hactive⟩ := hactive
    rcases List.mem_cons.mp hmem with heq | hmem
    · subst heq
      have hfirst := hlt hactive
      omega
    · have hlater := hlt' ⟨m', hmem, fun hidle => hactive ((idle_of_sameLists hsame).mp hidle)⟩
      omega

theorem returns_receives (hrmp : Markers rmp) (hread : ∀ m ∈ ms, m.ReadBy rmp dec) :
    Returns (foldEach (ms.map (·.bytes rmp)) acc (receive rmp dec tryFrom c clock)) s ↔
      ∀ m ∈ ms, m.CanStore tryFrom s c := by
  rw [foldEach_map]
  apply returns_foldEach (SameLists s) (fun m => m.CanStore tryFrom s c) ms _ _ acc s (.refl s)
  · intro acc s₁ m hm h
    refine ends_mono (ends_receive hrmp (hread m hm)) ?_
    intro r s' h'
    obtain ⟨⟨acc', hr, -⟩, hsame⟩ := h'
    exact ⟨⟨acc', hr⟩, h.trans hsame⟩
  · intro acc s₁ m hm h
    rw [returns_receive hrmp (hread m hm)]
    exact canStore_of_sameLists h

end TimeFirst

/-- Where the batch begins with a time-sync message, only that is answered. -/
theorem transparent_of_time_first (hrmp : Markers rmp)
    (hread : ∀ m' ∈ m :: ms, m'.ReadBy rmp dec) (hm : ¬m.IsValue) :
    Transparent rmp dec tryFrom c clock s (m :: ms) ↔
      ∀ m' ∈ ms, m'.CanStore tryFrom s c ∧ m'.Idle s c := by
  have hfirst := hread m List.mem_cons_self
  have hrest : ∀ m' ∈ ms, m'.ReadBy rmp dec := fun m' hm' => hread m' (List.mem_cons_of_mem _ hm')
  have hbatch : receiveAll rmp dec tryFrom c clock [(m :: ms).flatMap (·.bytes rmp)] =
      pure (answer rmp clock {} m) := by
    rw [receiveAll, foldEach_singleton, List.flatMap_cons, receive_time hrmp hm hfirst]
  have hframes : (receiveAll rmp dec tryFrom c clock ((m :: ms).map (·.bytes rmp))).exec s =
      (foldEach (ms.map (·.bytes rmp)) (answer rmp clock {} m)
        (receive rmp dec tryFrom c clock)).exec s := by
    rw [receiveAll, List.map_cons, foldEach, receive_one_time hrmp hm hfirst, exec_bind, exec_pure]
  unfold Transparent
  rw [hbatch, hframes, exec_pure]
  constructor
  · intro h
    obtain ⟨received, s', hone, hall⟩ := h
    cases hone
    have hstore := (returns_receives hrmp hrest).mp ⟨_, _, hall⟩
    obtain ⟨acc', heq, -, hlt⟩ := ends_receives hrmp hrest _ _ hall
    cases heq
    refine fun m' hm' => ⟨hstore m' hm', ?_⟩
    by_contra hactive
    exact lt_irrefl _ (hlt ⟨m', hm', hactive⟩)
  · intro h
    exact ⟨_, s, rfl, exec_receives_idle hrmp hrest (fun m' hm' => (h m' hm').2)
      fun m' hm' => (h m' hm').1⟩

/-- A batch is transparent exactly if its values can be converted and their topics stored, and either
it has value messages only, or it begins with a time-sync message and the server has nothing to do
for the others. -/
theorem batch_transparent_iff (hrmp : Markers rmp) (hread : ∀ m ∈ ms, m.ReadBy rmp dec) :
    Transparent rmp dec tryFrom c clock s ms ↔
      (∀ m ∈ ms, m.CanStore tryFrom s c) ∧
        ((∀ m ∈ ms, m.IsValue) ∨
          ∃ first rest, ms = first :: rest ∧ ¬first.IsValue ∧ ∀ m ∈ rest, m.Idle s c) := by
  cases ms with
  | nil =>
    have hnone : Transparent rmp dec tryFrom c clock s [] := ⟨{}, s, rfl, rfl⟩
    simp [hnone]
  | cons m ms =>
    by_cases hm : m.IsValue
    · rw [transparent_of_value_first hrmp hread hm]
      constructor
      · intro h
        exact ⟨fun m' hm' => (h m' hm').2, .inl fun m' hm' => (h m' hm').1⟩
      · intro h
        obtain ⟨hstore, hvalues | ⟨first, rest, heq, hfirst, -⟩⟩ := h
        · exact fun m' hm' => ⟨hvalues m' hm', hstore m' hm'⟩
        · cases heq
          exact (hfirst hm).elim
    · rw [transparent_of_time_first hrmp hread hm]
      have hstores : m.CanStore tryFrom s c := fun pubuid hid =>
        (hm (by rw [BinaryMessage.IsValue, hid]; nofun)).elim
      constructor
      · intro h
        refine ⟨List.forall_mem_cons.mpr ⟨hstores, fun m' hm' => (h m' hm').1⟩,
          .inr ⟨m, ms, rfl, hm, fun m' hm' => (h m' hm').2⟩⟩
      · intro h
        obtain ⟨hstore, hvalues | ⟨first, rest, heq, -, hidle⟩⟩ := h
        · exact (hm (hvalues m List.mem_cons_self)).elim
        · cases heq
          exact fun m' hm' => ⟨hstore m' (List.mem_cons_of_mem _ hm'), hidle m' hm'⟩

section Concrete

/-- MessagePack as far as it is one of these messages that stands first. -/
def decOf (ms : List BinaryMessage) : RmpDecode where
  fromRead bytes := ms.findSome? fun m =>
    ((m.bytes MsgPack.small).isPrefixOf? bytes).map fun rest => (m.decoded, rest)
  length_lt bytes v rest h := by
    obtain ⟨m, -, hm⟩ := List.exists_of_findSome?_eq_some h
    obtain ⟨rest', hrest, heq⟩ := Option.map_eq_some_iff.mp hm
    cases heq
    rw [List.isPrefixOf?_eq_some_iff_append_eq] at hrest
    rw [← hrest]
    simp [BinaryMessage.bytes, MsgPack.small]
    omega

theorem markers_small : Markers MsgPack.small := ⟨by decide, ⟨_, rfl⟩, fun _ => ⟨_, rfl⟩⟩

/-- A value of the topic that the client has published. -/
def oneUpdate : BinaryMessage := ⟨.unsignedInt 0, 5, 2, .integer 1⟩

def oneTime : BinaryMessage := ⟨.negativeOne, 0, 2, .integer 7⟩

theorem readBy_one :
    ∀ m ∈ [oneUpdate, oneTime], m.ReadBy MsgPack.small (decOf [oneUpdate, oneTime]) := by
  intro m hm rest
  simp only [List.mem_cons, List.not_mem_nil, or_false] at hm
  rcases hm with rfl | rfl
  · rfl
  · rfl

theorem batch_transparent_twoUpdates :
    ∃ s, stateAfter anyOp .stored connectAndPublish = some s ∧ PublishesTo s 1 0 5 ∧
      Transparent MsgPack.small (decOf [oneUpdate, oneTime]) (some ⟨.int, ·⟩) 1 (fun _ => 9) s
        [oneUpdate, oneUpdate] := by
  have hrun : (stateAfter anyOp .stored connectAndPublish).map (fun s =>
      ((s.clients.lookup 1).map fun client => client.pubuidToTopicidx.getByLeft 0,
        (s.topics.lookup 5).map Topic.name)) = some (some (some 5), some "x") := by decide +kernel
  obtain ⟨s, hs, hview⟩ := Option.map_eq_some_iff.mp hrun
  simp only [Prod.mk.injEq] at hview
  obtain ⟨hclient, htopic⟩ := hview
  obtain ⟨client, hc, hpubuid⟩ := Option.map_eq_some_iff.mp hclient
  obtain ⟨topic, ht, hname⟩ := Option.map_eq_some_iff.mp htopic
  have hnormal : hasDollar topic.name = false := by
    rw [hname]
    decide
  obtain ⟨u, run, hu⟩ := runWhere_stateAfter (fun _ _ _ => trivial) hs
  have hbound : u .topic < 2 ^ 32 := (hu .topic).trans_lt (by decide)
  have hread : ∀ m ∈ [oneUpdate, oneUpdate],
      m.ReadBy MsgPack.small (decOf [oneUpdate, oneTime]) := by
    intro m hm
    simp only [List.mem_cons, List.not_mem_nil, or_false, or_self] at hm
    exact readBy_one m (by simp [hm])
  refine ⟨s, hs, ⟨client, topic, hc, hpubuid, ht, hnormal⟩,
    (batch_transparent_iff markers_small hread).mpr ⟨?_, .inl ?_⟩⟩
  · intro m hm pubuid _
    exact ⟨rfl, fun client t _ _ => storable_of_runs run hbound t⟩
  · intro m hm
    simp only [List.mem_cons, List.not_mem_nil, or_false, or_self] at hm
    simp [hm, oneUpdate, BinaryMessage.IsValue]

/-- The parser takes the time-sync message of a mixed batch for a value, and finds no `u64` id. -/
theorem mixed_batch_panics :
    ¬∀ rmp dec tryFrom c clock s ms, Markers rmp → (∀ m ∈ ms, m.ReadBy rmp dec) → Reachable s →
      Transparent rmp dec tryFrom c clock s ms := by
  intro h
  have hrun : (stateAfter anyOp .stored connectAndPublish).isSome = true := by decide +kernel
  obtain ⟨s, hs⟩ := Option.isSome_iff_exists.mp hrun
  have hbatch : Transparent MsgPack.small (decOf [oneUpdate, oneTime]) (some ⟨.int, ·⟩) 1
      (fun _ => 9) s [oneUpdate, oneTime] :=
    h _ _ _ _ _ s _ markers_small readBy_one (reachable_stateAfter hs)
  have hfirst : oneUpdate.IsValue := nofun
  have hall := (transparent_of_value_first markers_small readBy_one hfirst).mp hbatch
  exact (hall oneTime (by simp)).1 rfl

end Concrete

end NetTables.System
