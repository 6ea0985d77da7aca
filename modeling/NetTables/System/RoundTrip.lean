import NetTables.Client.Streams
import NetTables.Server.Parser

namespace NetTables.System

open Lib Spec Server Client

/-- A value message of the server as it is read. -/
def decodedFrame (f : ValueFrame) : Value :=
  .array [.integer f.topicId.toInt, .integer f.value.timestamp.toNat,
    .integer f.value.value.getType.asU8.toNat, f.value.value.payload]

/-- What is written for the message is read back, and nothing after it is touched. -/
def ReadBack (rmp : RmpEncode) (dec : RmpDecode) (f : ValueFrame) : Prop :=
  ∀ rest, dec.fromRead (f.value.asBytes rmp f.topicId ++ rest) = some (decodedFrame f, rest)

/-- The topic of a message, as it was announced. -/
def topicOf (c : ClientState) (f : ValueFrame) : Option AnnouncedTopic :=
  c.inner.announcedTopics.lookup f.topicId

/-- The topic's index is below 2^31, and it was announced. -/
def Announced (c : ClientState) (f : ValueFrame) : Prop :=
  0 ≤ f.topicId ∧ (topicOf c f).isSome = true

/-- The messages whose topics the subscription cares about. -/
def wanted (c : ClientState) (sub : Subscription) (frames : List ValueFrame) : List ValueFrame :=
  frames.filter fun f => (topicOf c f).any fun topic => sub.caresAbout topic.name

/-- A live subscriber, with room in its queue for what it wants of the messages. -/
def Awaits (c : ClientState) (frames : List ValueFrame) (i : StreamId)
    (stream : SubscriptionStream) : Prop :=
  (∃ k, c.inner.subscriptions.lookup k = some ⟨i⟩) ∧ c.streams.lookup i = some stream ∧
    stream.receiver.length + (wanted c stream.data frames).length ≤ streamCapacity

/-- What a subscriber gets is what was sent. -/
structure Carries (c : ClientState) (f : ValueFrame) (data : MessageData) : Prop where
  topicName : (topicOf c f).map AnnouncedTopic.name = some data.topicName
  timestamp : data.timestamp.toNat = f.value.timestamp.toNat
  type : FrcType.fromU8 f.value.value.getType.asU8 = some data.type
  data : data.data = f.value.value.payload

section RoundTrip

variable (o : IterOrder) (ofTypeStr : String → FrcType) (rmp : RmpEncode) (dec : RmpDecode)

/-- The client after one binary message with these values. -/
def handled (c : ClientState) (frames : List ValueFrame) : ClientState :=
  let bytes := frames.flatMap fun f => f.value.asBytes rmp f.topicId
  ((InnerClient.handleMessage o ofTypeStr (.binary (readAll dec bytes))).run c).2.1

/-- Every live subscriber with room gets one message for each value that it wants, in their order. -/
def RoundTrips (c : ClientState) (frames : List ValueFrame) : Prop :=
  ∀ i stream, Awaits c frames i stream → ∃ delivered,
    (handled o ofTypeStr rmp dec c frames).streams.lookup i =
      some { stream with receiver := stream.receiver ++ delivered } ∧
    List.Forall₂ (Carries c) (wanted c stream.data frames) delivered

end RoundTrip

section Handle

variable {o : IterOrder} {ofTypeStr : String → FrcType} {rmp : RmpEncode} {dec : RmpDecode}
  {c : ClientState} {f : ValueFrame} {frames : List ValueFrame}

/-- The type that a code stands for. -/
def typeOf (f : ValueFrame) : FrcType := (FrcType.fromU8 f.value.value.getType.asU8).getD .raw

/-- Every code that is sent stands for a type. -/
theorem fromU8_asU8 (type : FrcType) : (FrcType.fromU8 type.asU8).isSome = true := by
  cases type <;> rfl

/-- What the client hands out for a message of this topic. -/
def dataOf (name : String) (f : ValueFrame) : MessageData :=
  ⟨name, f.value.timestamp.toUInt32, typeOf f, f.value.value.payload⟩

theorem asI64_topicId (f : ValueFrame) :
    (Value.integer f.topicId.toInt).asI64.map Int64.toInt32 = some f.topicId := by
  have hlo := f.topicId.le_toInt
  have hhi := f.topicId.toInt_lt
  have hbounds : -2 ^ 63 ≤ f.topicId.toInt ∧ f.topicId.toInt < 2 ^ 63 := by omega
  rw [Value.asI64, if_pos hbounds, Option.map_some]
  simp

/-- The message of an announced topic is handed out. -/
theorem run_handleValue {topic : AnnouncedTopic} (hid : 0 ≤ f.topicId)
    (htopic : topicOf c f = some topic) :
    ((InnerClient.handleValue o [.integer f.topicId.toInt, .integer f.value.timestamp.toNat,
      .integer f.value.value.getType.asU8.toNat, f.value.value.payload]).run c).2.1 =
      c.handOut o (dataOf topic.name f) := by
  have hcode : f.value.value.getType.asU8.toNat < 2 ^ 64 :=
    f.value.value.getType.asU8.toNat_lt.trans (by decide)
  have hbyte : (UInt64.ofNat f.value.value.getType.asU8.toNat).toUInt8 =
      f.value.value.getType.asU8 := by
    simp
  obtain ⟨type, htype⟩ := Option.isSome_iff_exists.mp (fromU8_asU8 f.value.value.getType)
  have hdata : typeOf f = type := by rw [typeOf, htype]; rfl
  simp only [InnerClient.handleValue, asI64_topicId, asU64_ofNat f.value.timestamp.toNat_lt,
    asU64_ofNat hcode, hid, if_true, hbyte, htype]
  unfold topicOf at htopic
  simp [InnerClient.handleTopicValue, InnerClient.sendValueToSubscriber, Prog.run, Prog.release,
    htopic, ClientState.handOut, dataOf, hdata]

/-- What the client hands out for a message. -/
def handedOut (c : ClientState) (f : ValueFrame) : MessageData :=
  dataOf ((topicOf c f).elim "" AnnouncedTopic.name) f

theorem topicOf_handOut (data : MessageData) (f : ValueFrame) :
    topicOf (c.handOut o data) f = topicOf c f := by
  obtain ⟨subs, hinner⟩ := inner_handOut o data c
  rw [topicOf, hinner]
  rfl

/-- A binary message with announced topics is handed out value by value. -/
theorem handled_eq (hannounced : ∀ f ∈ frames, Announced c f)
    (hread : ∀ f ∈ frames, ReadBack rmp dec f) :
    handled o ofTypeStr rmp dec c frames =
      (frames.map (handedOut c)).foldl (fun c data => c.handOut o data) c := by
  rw [handled, readAll_flatMap hread]
  clear hread
  have hgo : ∀ c₁, (∀ f ∈ frames, topicOf c₁ f = topicOf c f) →
      ((InnerClient.handleMessage o ofTypeStr (.binary (frames.map decodedFrame))).run c₁).2.1 =
        (frames.map (handedOut c)).foldl (fun c data => c.handOut o data) c₁ := by
    induction frames with
    | nil => exact fun _ _ => rfl
    | cons f frames ih =>
      intro c₁ hsame
      obtain ⟨hid, htopic⟩ := hannounced f (List.mem_cons_self ..)
      obtain ⟨topic, htopic⟩ := Option.isSome_iff_exists.mp htopic
      have hfirst := run_handleValue (o := o) hid ((hsame f (List.mem_cons_self ..)).trans htopic)
      have hdata : handedOut c f = dataOf topic.name f := by rw [handedOut, htopic]; rfl
      have hrest := ih (fun f' hf' => hannounced f' (List.mem_cons_of_mem _ hf'))
        (c₁.handOut o (dataOf topic.name f)) fun f' hf' =>
          (topicOf_handOut _ f').trans (hsame f' (List.mem_cons_of_mem _ hf'))
      rw [List.map_cons, List.map_cons, List.foldl_cons, hdata, ← hrest, ← hfirst]
      simp only [InnerClient.handleMessage, Prog.forEach, decodedFrame, Prog.run_bind]
  exact hgo c fun _ _ => rfl

theorem cared_handedOut (hannounced : ∀ f ∈ frames, Announced c f) (sub : Subscription) :
    cared sub (frames.map (handedOut c)) = (wanted c sub frames).map (handedOut c) := by
  rw [cared, List.filter_map, wanted]
  congr 1
  apply List.filter_congr
  intro f hf
  obtain ⟨topic, htopic⟩ := Option.isSome_iff_exists.mp (hannounced f hf).2
  simp [handedOut, dataOf, htopic]

/-- Only the timestamp may be lost. -/
theorem carries_handedOut (hannounced : Announced c f) :
    Carries c f (handedOut c f) ↔ f.value.timestamp.toNat < 2 ^ 32 := by
  obtain ⟨topic, htopic⟩ := Option.isSome_iff_exists.mp hannounced.2
  obtain ⟨type, htype⟩ := Option.isSome_iff_exists.mp (fromU8_asU8 f.value.value.getType)
  have htime : (handedOut c f).timestamp.toNat = f.value.timestamp.toNat % 2 ^ 32 := by
    simp [handedOut, dataOf]
  constructor
  · intro h
    rw [← h.timestamp]
    exact (handedOut c f).timestamp.toNat_lt
  · intro hlt
    refine ⟨?_, htime.trans (Nat.mod_eq_of_lt hlt), ?_, rfl⟩
    · simp [handedOut, dataOf, htopic]
    · simp [handedOut, dataOf, typeOf, htype]

/-- The messages arrive whole where all of the timestamps fit. -/
theorem roundTrips_of_distinct (h : Distinct c) (hannounced : ∀ f ∈ frames, Announced c f)
    (hread : ∀ f ∈ frames, ReadBack rmp dec f) :
    RoundTrips o ofTypeStr rmp dec c frames ↔
      ∀ i stream, Awaits c frames i stream → ∀ f ∈ wanted c stream.data frames,
        f.value.timestamp.toNat < 2 ^ 32 := by
  apply forall_congr'
  intro i
  apply forall_congr'
  intro stream
  apply forall_congr'
  intro hawaits
  obtain ⟨⟨k, hk⟩, hi, hroom⟩ := hawaits
  have hlength : (cared stream.data (frames.map (handedOut c))).length =
      (wanted c stream.data frames).length := by
    rw [cared_handedOut hannounced, List.length_map]
  have hstream := streams_handOuts h o hk hi (hlength ▸ hroom)
  have hhandled : handled o ofTypeStr rmp dec c frames = _ := handled_eq hannounced hread
  rw [← hhandled, cared_handedOut hannounced] at hstream
  have hwanted : ∀ f ∈ wanted c stream.data frames, Announced c f :=
    fun f hf => hannounced f (List.mem_of_mem_filter hf)
  constructor
  · intro hdelivered f hf
    obtain ⟨delivered, hgot, hcarries⟩ := hdelivered
    rw [hstream] at hgot
    simp only [Option.some.injEq, SubscriptionStream.mk.injEq, List.append_cancel_left_eq,
      true_and] at hgot
    rw [← hgot, List.forall₂_map_right_iff, List.forall₂_same] at hcarries
    exact (carries_handedOut (hwanted f hf)).mp (hcarries f hf)
  · intro htimes
    refine ⟨_, hstream, ?_⟩
    rw [List.forall₂_map_right_iff, List.forall₂_same]
    exact fun f hf => (carries_handedOut (hwanted f hf)).mpr (htimes f hf)

end Handle

/-- A value comes back as it was sent, unless its timestamp has more than 32 bits. -/
theorem value_roundTrips_iff {ofTypeStr : String → FrcType} {n : Nat} {S : Client.System}
    (run : Works ofTypeStr (fun _ _ => True) n S) (o : IterOrder) (rmp : RmpEncode)
    (dec : RmpDecode) (frames : List ValueFrame)
    (hannounced : ∀ f ∈ frames, Announced S.pool.shared f)
    (hread : ∀ f ∈ frames, ReadBack rmp dec f) :
    RoundTrips o ofTypeStr rmp dec S.pool.shared frames ↔
      ∀ i stream, Awaits S.pool.shared frames i stream →
        ∀ f ∈ wanted S.pool.shared stream.data frames, f.value.timestamp.toNat < 2 ^ 32 := by
  obtain ⟨stage, h⟩ := attends_of_works run
  exact roundTrips_of_distinct h.distinct hannounced hread

section Concrete

/-- MessagePack as far as it is one of these messages that stands first. -/
def decFrames (frames : List ValueFrame) : RmpDecode where
  fromRead bytes := frames.findSome? fun f =>
    ((f.value.asBytes MsgPack.small.toRmpEncode f.topicId).isPrefixOf? bytes).map fun rest =>
      (decodedFrame f, rest)
  length_lt bytes v rest h := by
    obtain ⟨f, -, hf⟩ := List.exists_of_findSome?_eq_some h
    obtain ⟨rest', hrest, heq⟩ := Option.map_eq_some_iff.mp hf
    cases heq
    rw [List.isPrefixOf?_eq_some_iff_append_eq] at hrest
    rw [← hrest]
    simp [FrcTimestampedValue.asBytes, MsgPack.small]
    omega

/-- A value of the first topic, five microseconds after the server's start. -/
def soon : ValueFrame := ⟨0, 5, .boolean, .boolean true⟩

/-- The same, a little over 71 minutes after it. -/
def late : ValueFrame := ⟨0, 4294967296, .boolean, .boolean true⟩

theorem readBack_decFrames : ∀ f ∈ [soon, late],
    ReadBack MsgPack.small.toRmpEncode (decFrames [soon, late]) f := by
  intro f hf rest
  simp only [List.mem_cons, List.not_mem_nil, or_false] at hf
  rcases hf with rfl | rfl
  · rfl
  · rfl

/-- A user has subscribed to a topic, and it is announced. -/
def announced : List Client.Event :=
  subscribed ++ [.moves (.user 0), .incoming (.text (some [.announce ⟨"n", 0, "int", none, {}⟩]))] ++
    List.replicate 3 (.moves .socket)

theorem exists_awaits : ∃ n S stream, Works (fun _ => .raw) (fun _ _ => True) n S ∧
    ∀ f ∈ [soon, late], Announced S.pool.shared f ∧ Awaits S.pool.shared [f] 0 stream ∧
      f ∈ wanted S.pool.shared stream.data [f] := by
  have hrun : ((System.initial .stored 0).takeAll .stored (fun _ => .raw) announced).map (fun S =>
      decide (S.pool.shared.inner.subscriptions.lookup 1 = some ⟨0⟩) &&
        (S.pool.shared.streams.lookup 0).any fun stream => stream.receiver.isEmpty &&
          (S.pool.shared.inner.announcedTopics.lookup 0).any fun topic =>
            stream.data.caresAbout topic.name) = some true := by decide +kernel
  obtain ⟨S, hS, hview⟩ := Option.map_eq_some_iff.mp hrun
  obtain ⟨n, run⟩ := works_takeAll (Run.start ⟨.stored, 0, rfl⟩) hS
  rw [Bool.and_eq_true] at hview
  obtain ⟨hentry, hview⟩ := hview
  cases hstream : S.pool.shared.streams.lookup 0 with
  | none =>
    rw [hstream] at hview
    cases hview
  | some stream =>
    rw [hstream, Option.any_some, Bool.and_eq_true] at hview
    obtain ⟨hempty, hcares⟩ := hview
    refine ⟨n, S, stream, run, fun f hf => ?_⟩
    have hid : f.topicId = 0 := by
      simp only [List.mem_cons, List.not_mem_nil, or_false] at hf
      rcases hf with rfl | rfl <;> rfl
    have hwanted : (topicOf S.pool.shared f).any fun topic => stream.data.caresAbout topic.name := by
      rw [topicOf, hid]
      exact hcares
    have hsome : (topicOf S.pool.shared f).isSome = true := by
      cases htopic : topicOf S.pool.shared f with
      | none =>
        rw [htopic] at hwanted
        cases hwanted
      | some => rfl
    refine ⟨⟨by rw [hid]; decide, hsome⟩, ⟨⟨1, of_decide_eq_true hentry⟩, hstream, ?_⟩, ?_⟩
    · rw [List.isEmpty_iff.mp hempty]
      have hone := List.length_filter_le (fun f => (topicOf S.pool.shared f).any fun topic =>
        stream.data.caresAbout topic.name) [f]
      have hcapacity : 1 ≤ streamCapacity := by decide
      simp only [List.length_singleton, wanted, List.length_nil] at hone ⊢
      omega
    · exact List.mem_filter.mpr ⟨List.mem_cons_self .., hwanted⟩

theorem value_roundTrips_soon : ∃ n S stream, Works (fun _ => .raw) (fun _ _ => True) n S ∧
    Awaits S.pool.shared [soon] 0 stream ∧
    RoundTrips .stored (fun _ => .raw) MsgPack.small.toRmpEncode (decFrames [soon, late])
      S.pool.shared [soon] := by
  obtain ⟨n, S, stream, run, h⟩ := exists_awaits
  obtain ⟨hannounced, hawaits, -⟩ := h soon (by simp)
  refine ⟨n, S, stream, run, hawaits, (value_roundTrips_iff run .stored _ _ [soon] ?_ ?_).mpr ?_⟩
  · simpa using hannounced
  · simpa using readBack_decFrames soon (by simp)
  · intro i stream' _ f hf
    have hsoon := List.mem_of_mem_filter hf
    rw [List.mem_singleton.mp hsoon]
    decide

/-- Of a later timestamp 32 bits are left. -/
theorem late_value_comes_early :
    ¬∀ ofTypeStr n S, Works ofTypeStr (fun _ _ => True) n S → ∀ o rmp dec frames,
      (∀ f ∈ frames, Announced S.pool.shared f) → (∀ f ∈ frames, ReadBack rmp dec f) →
        RoundTrips o ofTypeStr rmp dec S.pool.shared frames := by
  intro hclaim
  obtain ⟨n, S, stream, run, h⟩ := exists_awaits
  obtain ⟨hannounced, hawaits, hwanted⟩ := h late (by simp)
  have hall : ∀ f ∈ [late], Announced S.pool.shared f := by simpa using hannounced
  have hread : ∀ f ∈ [late],
      ReadBack MsgPack.small.toRmpEncode (decFrames [soon, late]) f := by
    simpa using readBack_decFrames late (by simp)
  have htrip := hclaim _ n S run .stored _ _ [late] hall hread
  obtain ⟨stage, hattends⟩ := attends_of_works run
  have htime := (roundTrips_of_distinct hattends.distinct hall hread).mp htrip 0 stream hawaits late
    hwanted
  exact absurd htime (by decide)

end Concrete

end NetTables.System
