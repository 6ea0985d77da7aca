import NetTables.Client.Programs

namespace NetTables.Client

open Lib Spec

variable {o : IterOrder} {c : ClientState} {array : List Value} {id timestamp typeIdx data : Value}

theorem asI64_eq_some {i : Int64} : id.asI64 = some i ↔ id = .integer i.toInt := by
  cases id with
  | integer n =>
    simp only [Value.asI64, Value.integer.injEq]
    split_ifs with hfits
    · rw [Option.some.injEq]
      constructor
      · rintro rfl
        exact (Int64.toInt_ofInt_of_le hfits.1 hfits.2).symm
      · rintro rfl
        exact Int64.ofInt_toInt i
    · constructor
      · exact fun h => by cases h
      · rintro rfl
        exact absurd ⟨i.le_toInt, i.toInt_lt⟩ hfits
  | _ => simp [Value.asI64]

theorem asU64_eq_some {n : UInt64} : timestamp.asU64 = some n ↔ timestamp = .integer n.toNat := by
  cases timestamp with
  | integer i =>
    simp only [Value.asU64, Value.integer.injEq]
    split_ifs with hfits
    · rw [Option.some.injEq]
      constructor
      · rintro rfl
        have hnat : (UInt64.ofNat i.toNat).toNat = i.toNat := by
          rw [UInt64.toNat_ofNat', Nat.mod_eq_of_lt (by omega)]
        rw [hnat]
        omega
      · rintro rfl
        simp
    · constructor
      · exact fun h => by cases h
      · rintro rfl
        exact absurd ⟨by omega, by exact_mod_cast n.toNat_lt⟩ hfits
  | _ => simp [Value.asU64]

/-- What an array of the server may be taken for: nothing, its clock, or a value of the very topic,
time and type that the array names. -/
inductive Means (o : IterOrder) : List Value → ClientM Unit → Prop where
  | nothing (array : List Value) : Means o array (pure ())
  | clock (time : UInt64) (typeIdx data : Value) :
      Means o [.integer (-1), .integer time.toNat, typeIdx, data] (InnerClient.handleTime time data)
  | value (k : Int32) (time : UInt32) (byte : UInt8) (type : FrcType) (data : Value) (hk : 0 ≤ k)
      (htype : FrcType.fromU8 byte = some type) :
      Means o [.integer k.toInt, .integer time.toNat, .integer byte.toNat, data]
        (InnerClient.handleTopicValue o k time.toUInt64 type data)

/-- The array says what the message says. -/
def Says (c : ClientState) (array : List Value) (m : MessageData) : Prop :=
  ∃ k topic byte, c.inner.announcedTopics.lookup k = some topic ∧ m.topicName = topic.name ∧
    FrcType.fromU8 byte = some m.type ∧
    array = [.integer k.toInt, .integer m.timestamp.toNat, .integer byte.toNat, m.data]

/-- The client takes an array for nothing but what it says, and what the subscribers get is that. -/
structure Faithful (array : List Value) : Prop where
  means : ∀ o, Means o array (InnerClient.handleValue o array)
  received : ∀ o c i stream stream' added, c.streams.lookup i = some stream →
    ((InnerClient.handleValue o array).run c).2.1.streams.lookup i = some stream' →
    stream'.receiver = stream.receiver ++ added → ∀ m ∈ added, Says c array m

/-- The id, the type and the timestamp fit where they are looked at. -/
structure Unaliased (id timestamp typeIdx : Value) : Prop where
  clock : ∀ i n, id.asI64 = some i → timestamp.asU64 = some n → i.toInt32 = -1 → i = -1
  value : ∀ i n m type, id.asI64 = some i → timestamp.asU64 = some n → typeIdx.asU64 = some m →
    0 ≤ i.toInt32 → FrcType.fromU8 m.toUInt8 = some type →
      i.toInt32.toInt = i.toInt ∧ n.toNat < 2 ^ 32 ∧ m.toNat < 2 ^ 8

section Received

variable {m : MessageData} {i : StreamId} {stream stream' : SubscriptionStream}

/-- All that is put on a stream is copies of the value. -/
theorem receiver_offers (l : List (Int32 × InternalSub)) (hi : c.streams.lookup i = some stream) :
    ∃ n stream', (l.foldl (ClientState.offer m) c).streams.lookup i = some stream' ∧
      stream'.receiver = stream.receiver ++ List.replicate n m := by
  induction l generalizing c stream with
  | nil => exact ⟨0, stream, hi, by simp⟩
  | cons e l ih =>
    by_cases he : e.2.data = i
    · subst he
      obtain ⟨n, stream', hstream', hreceiver⟩ := ih (streams_offer hi)
      unfold SubscriptionStream.offered at hreceiver
      split_ifs at hreceiver
      · refine ⟨n + 1, stream', hstream', ?_⟩
        rw [hreceiver, List.append_assoc, List.replicate_succ]
        rfl
      · exact ⟨n, stream', hstream', hreceiver⟩
    · exact ih ((streams_offer_of_ne he).trans hi)

theorem received_of_same {c' : ClientState} {added : List MessageData}
    (hstreams : c'.streams = c.streams) (hi : c.streams.lookup i = some stream)
    (hi' : c'.streams.lookup i = some stream')
    (hadded : stream'.receiver = stream.receiver ++ added) : added = [] := by
  rw [hstreams, hi] at hi'
  cases hi'
  simpa using hadded

/-- What is taken for a value is handed out as such, and nothing else is. -/
theorem Means.received {p : ClientM Unit} (h : Means o array p) {added : List MessageData}
    (hi : c.streams.lookup i = some stream)
    (hi' : (p.run c).2.1.streams.lookup i = some stream')
    (hadded : stream'.receiver = stream.receiver ++ added) : ∀ m ∈ added, Says c array m := by
  cases h with
  | nothing =>
    rw [received_of_same rfl hi hi' hadded]
    exact fun m hm => absurd hm List.not_mem_nil
  | clock time typeIdx data =>
    rw [received_of_same (streams_handleTime time data c) hi hi' hadded]
    exact fun m hm => absurd hm List.not_mem_nil
  | value k time byte type data hk htype =>
    cases htopic : c.inner.announcedTopics.lookup k with
    | none =>
      have hstate :
          ((InnerClient.handleTopicValue o k time.toUInt64 type data).run c).2.1 = c := by
        simp [InnerClient.handleTopicValue, Prog.run, Prog.release, htopic]
      rw [hstate] at hi'
      rw [received_of_same rfl hi hi' hadded]
      exact fun m hm => absurd hm List.not_mem_nil
    | some topic =>
      have hstate : ((InnerClient.handleTopicValue o k time.toUInt64 type data).run c).2.1 =
          c.handOut o ⟨topic.name, time, type, data⟩ := by
        simp [InnerClient.handleTopicValue, InnerClient.sendValueToSubscriber, Prog.run,
          Prog.release, htopic, ClientState.handOut]
      obtain ⟨n, stream'', hstream'', hreceiver⟩ :=
        receiver_offers (m := ⟨topic.name, time, type, data⟩) (o.walk c.inner.subscriptions) hi
      rw [hstate] at hi'
      have hsame : stream'' = stream' := Option.some.inj (hstream''.symm.trans hi')
      rw [← hsame, hreceiver, List.append_cancel_left_eq] at hadded
      intro m hm
      rw [← hadded] at hm
      rw [List.eq_of_mem_replicate hm]
      exact ⟨k, topic, byte, htopic, rfl, htype, rfl⟩

end Received

/-- The three readings of an array. -/
theorem means_iff {p : ClientM Unit} : Means o array p ↔ p = pure () ∨
    (∃ (time : UInt64) (typeIdx data : Value),
      array = [.integer (-1), .integer time.toNat, typeIdx, data] ∧
        p = InnerClient.handleTime time data) ∨
    ∃ (k : Int32) (time : UInt32) (byte : UInt8) (type : FrcType) (data : Value), 0 ≤ k ∧
      FrcType.fromU8 byte = some type ∧
      array = [.integer k.toInt, .integer time.toNat, .integer byte.toNat, data] ∧
        p = InnerClient.handleTopicValue o k time.toUInt64 type data := by
  constructor
  · intro h
    obtain _ | ⟨time, typeIdx, data⟩ | ⟨k, time, byte, type, data, hk, htype⟩ := h
    · exact .inl rfl
    · exact .inr (.inl ⟨time, typeIdx, data, rfl, rfl⟩)
    · exact .inr (.inr ⟨k, time, byte, type, data, hk, htype, rfl, rfl⟩)
  · rintro (rfl | ⟨time, typeIdx, data, rfl, rfl⟩ | ⟨k, time, byte, type, data, hk, htype, rfl, rfl⟩)
    · exact .nothing array
    · exact .clock time typeIdx data
    · exact .value k time byte type data hk htype

theorem Unaliased.means (h : Unaliased id timestamp typeIdx) :
    Means o [id, timestamp, typeIdx, data]
      (InnerClient.handleValue o [id, timestamp, typeIdx, data]) := by
  cases hid : id.asI64 with
  | none =>
    simp only [InnerClient.handleValue, hid, Option.map_none]
    exact .nothing _
  | some i =>
    cases htime : timestamp.asU64 with
    | none =>
      simp only [InnerClient.handleValue, hid, htime, Option.map_some]
      exact .nothing _
    | some n =>
      simp only [InnerClient.handleValue, hid, htime, Option.map_some]
      obtain rfl := asI64_eq_some.mp hid
      obtain rfl := asU64_eq_some.mp htime
      split_ifs with hk hclock
      · cases htype : typeIdx.asU64 with
        | none => exact .nothing _
        | some m =>
          dsimp only
          cases hcode : FrcType.fromU8 m.toUInt8 with
          | none => exact .nothing _
          | some type =>
            obtain ⟨hfits, htime32, htype8⟩ := h.value i n m type hid htime htype hk hcode
            obtain rfl := asU64_eq_some.mp htype
            have hnat : n.toUInt32.toNat = n.toNat := by
              rw [UInt64.toNat_toUInt32, Nat.mod_eq_of_lt htime32]
            have hbyte : m.toUInt8.toNat = m.toNat := by
              rw [UInt64.toNat_toUInt8, Nat.mod_eq_of_lt htype8]
            have hback : n.toUInt32.toUInt64 = n := by
              rw [← UInt64.toNat_inj, UInt32.toNat_toUInt64, hnat]
            have hvalue := Means.value (o := o) i.toInt32 n.toUInt32 m.toUInt8 type data hk hcode
            rw [hfits, hnat, hbyte, hback] at hvalue
            exact hvalue
      · obtain rfl := h.clock i n hid htime hclock
        exact .clock n typeIdx data
      · exact .nothing _

/-- The client is faithful to an array of four exactly where nothing in it has to be narrowed. -/
theorem faithful_iff (id timestamp typeIdx data : Value) :
    Faithful [id, timestamp, typeIdx, data] ↔ Unaliased id timestamp typeIdx := by
  constructor
  · intro h
    have hmeans := means_iff.mp (h.means .stored)
    refine ⟨fun i n hid htime hclock => ?_, fun i n m type hid htime htype hk hcode => ?_⟩
    · have hneg : ¬0 ≤ i.toInt32 := by
        rw [hclock]
        decide
      simp only [InnerClient.handleValue, hid, htime, Option.map_some, if_neg hneg,
        if_pos hclock] at hmeans
      rcases hmeans with hnothing | ⟨time, typeIdx', data', harray, -⟩ |
        ⟨k, time, byte, type, data', -, -, -, hvalue⟩
      · cases hnothing
      · have hfirst : id = .integer (-1) := (List.cons.inj harray).1
        rw [asI64_eq_some.mp hid, Value.integer.injEq] at hfirst
        exact Int64.toInt_inj.mp hfirst
      · cases hvalue
    · simp only [InnerClient.handleValue, hid, htime, Option.map_some, if_pos hk, htype,
        hcode] at hmeans
      rcases hmeans with hnothing | ⟨time, typeIdx', data', -, hclock⟩ |
        ⟨k, time, byte, type', data', -, -, harray, -⟩
      · cases hnothing
      · cases hclock
      · simp only [List.cons.injEq] at harray
        obtain ⟨hfirst, hsecond, hthird, -⟩ := harray
        rw [asI64_eq_some.mp hid, Value.integer.injEq] at hfirst
        rw [asU64_eq_some.mp htime, Value.integer.injEq] at hsecond
        rw [asU64_eq_some.mp htype, Value.integer.injEq] at hthird
        have hlt := time.toNat_lt
        have hbyte := byte.toNat_lt
        refine ⟨?_, by omega, by omega⟩
        rw [Int64.toInt_toInt32, hfirst]
        exact k.toInt_bmod
  · intro h
    refine ⟨fun o => h.means, ?_⟩
    intro o c i stream stream' added hi hi' hadded
    exact h.means.received hi hi' hadded

/-- A client with one subscriber to the topic of index 3. -/
def listening : ClientState where
  inner := {
    announcedTopics := (∅ : KeyMap Int32 AnnouncedTopic).insert 3 ⟨"t", .int, none⟩
    subscriptions := (∅ : KeyMap Int32 InternalSub).insert 0 ⟨0⟩ }
  streams := (∅ : KeyMap StreamId SubscriptionStream).insert 0 ⟨⟨0, {"t"}, none⟩, []⟩

/-- An id of 2^32 and 3 is taken for 3. -/
theorem wide_id_is_taken_for_another :
    ¬∀ id timestamp typeIdx data, Faithful [id, timestamp, typeIdx, data] := by
  intro h
  have hfaithful := h (.integer 4294967299) (.integer 5) (.integer 2) (.integer 7)
  have hview : (((InnerClient.handleValue .stored [.integer 4294967299, .integer 5, .integer 2,
      .integer 7]).run listening).2.1.streams.lookup 0).map (fun stream => stream.receiver.length) =
        some 1 := by decide +kernel
  obtain ⟨stream', hi', hlength⟩ := Option.map_eq_some_iff.mp hview
  obtain ⟨m, hm⟩ := List.length_eq_one_iff.mp hlength
  obtain ⟨k, topic, byte, -, -, -, harray⟩ :=
    hfaithful.received .stored listening 0 _ stream' [m] rfl hi' hm m List.mem_cons_self
  have hfirst : (4294967299 : Int) = k.toInt := Value.integer.inj (List.cons.inj harray).1
  have hlt := k.toInt_lt
  omega

end NetTables.Client
