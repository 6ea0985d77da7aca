import NetTables.Client.Session

namespace NetTables.Client

open Lib Spec

/-- The pubuid that a value message is for. -/
def valueOf : SocketMessage → Option UInt32
  | .value (.unsignedInt p) _ _ _ => some p
  | _ => none

/-- What `send_value_to_subscriber` does to the subscriptions. -/
def ClientState.handOut (o : IterOrder) (data : MessageData) (c : ClientState) : ClientState :=
  (o.walk c.inner.subscriptions).foldl (ClientState.offer data) c

/-- What keeps the topics, the streams and their subscriptions, and puts nothing on a stream. -/
structure Idles (c c' : ClientState) : Prop extends Delivers c c' where
  receivers : ∀ i stream', c'.streams.lookup i = some stream' →
    ∃ stream, c.streams.lookup i = some stream ∧ stream'.receiver.length ≤ stream.receiver.length

/-- A change that keeps the topics, the streams and their subscriptions, or hands out a value. -/
def Gentle (f : ClientState → ClientState) : Prop :=
  (∀ c, Idles c (f c)) ∨ ∃ o data, f = ClientState.handOut o data

/-- Such changes only, and no value is published. -/
def Modest (rest : ClientM Unit) : Prop := rest.All Gentle fun m => valueOf m = none

/-- The stream after a value that is offered to it. -/
def SubscriptionStream.offered (data : MessageData) (stream : SubscriptionStream) :
    SubscriptionStream :=
  if stream.data.caresAbout data.topicName = true ∧ stream.receiver.length < streamCapacity then
    { stream with receiver := stream.receiver ++ [data] }
  else
    stream

section HandOut

variable {c : ClientState} {data : MessageData} {i : StreamId} {stream : SubscriptionStream}

theorem shrinks_offer (data : MessageData) (c : ClientState) (e : Int32 × InternalSub) :
    Shrinks c (c.offer data e) := by
  have hforget : Shrinks c { c with
      inner := { c.inner with subscriptions := c.inner.subscriptions.erase e.1 } } := by
    refine ⟨fun k sub hk => ?_, fun i stream hi => ⟨stream, hi, rfl⟩, rfl⟩
    simp only [KeyMap.lookup_erase] at hk
    split_ifs at hk
    exact hk
  unfold ClientState.offer
  split
  · exact hforget
  next stream hstream =>
    split_ifs
    · apply Delivers.shrinks
      exact delivers_receiver hstream _ rfl rfl rfl
    · exact hforget
    · exact .of_same rfl rfl rfl

theorem shrinks_offers (data : MessageData) (l : List (Int32 × InternalSub)) (c : ClientState) :
    Shrinks c (l.foldl (ClientState.offer data) c) := by
  induction l generalizing c with
  | nil => exact .of_same rfl rfl rfl
  | cons e l ih => exact (shrinks_offer data c e).trans (ih _)

/-- An offer concerns one stream. -/
theorem streams_offer_of_ne {e : Int32 × InternalSub} (hne : e.2.data ≠ i) :
    (c.offer data e).streams.lookup i = c.streams.lookup i := by
  unfold ClientState.offer
  split
  · rfl
  · split_ifs
    · rw [KeyMap.lookup_insert, if_neg hne.symm]
    · rfl
    · rfl

theorem streams_offers_of_ne {l : List (Int32 × InternalSub)} (hne : ∀ e ∈ l, e.2.data ≠ i) :
    (l.foldl (ClientState.offer data) c).streams.lookup i = c.streams.lookup i := by
  induction l generalizing c with
  | nil => rfl
  | cons e l ih =>
    rw [List.foldl_cons, ih fun e' he' => hne e' (List.mem_cons_of_mem _ he'),
      streams_offer_of_ne (hne e (List.mem_cons_self ..))]

theorem streams_offer {e : Int32 × InternalSub} (h : c.streams.lookup e.2.data = some stream) :
    (c.offer data e).streams.lookup e.2.data = some (stream.offered data) := by
  unfold ClientState.offer SubscriptionStream.offered
  by_cases hcares : stream.data.caresAbout data.topicName = true
  · by_cases hroom : stream.receiver.length < streamCapacity
    · simp [h, hcares, hroom]
    · simp [h, hcares, hroom]
  · simp [h, hcares]

theorem lookup_offers_of_ne {l : List (Int32 × InternalSub)} {k : Int32}
    (hne : ∀ e ∈ l, k ≠ e.1) :
    (l.foldl (ClientState.offer data) c).inner.subscriptions.lookup k =
      c.inner.subscriptions.lookup k := by
  induction l generalizing c with
  | nil => rfl
  | cons e l ih =>
    rw [List.foldl_cons, ih fun e' he' => hne e' (List.mem_cons_of_mem _ he'),
      lookup_offer_of_ne (hne e (List.mem_cons_self ..))]

/-- Of all the offers only its own concerns a stream and its subscription. -/
theorem offers_of_mem (h : Distinct c) {l : List (Int32 × InternalSub)}
    (hkeys : (l.map Prod.fst).Nodup) (hl : ∀ e ∈ l, c.inner.subscriptions.lookup e.1 = some e.2)
    {e : Int32 × InternalSub} (he : e ∈ l) (hstream : c.streams.lookup e.2.data = some stream) :
    ∃ c₁ : ClientState, c₁.streams.lookup e.2.data = some stream ∧
      c₁.inner.subscriptions.lookup e.1 = some e.2 ∧
      (l.foldl (ClientState.offer data) c).streams.lookup e.2.data =
        (c₁.offer data e).streams.lookup e.2.data ∧
      (l.foldl (ClientState.offer data) c).inner.subscriptions.lookup e.1 =
        (c₁.offer data e).inner.subscriptions.lookup e.1 := by
  have hvalid : c.isValid e.2 = true := Option.isSome_iff_exists.mpr ⟨stream, hstream⟩
  obtain ⟨before, after, rfl⟩ := List.append_of_mem he
  rw [List.map_append, List.map_cons, List.nodup_append, List.nodup_cons] at hkeys
  obtain ⟨-, ⟨hafter, -⟩, hbefore⟩ := hkeys
  have hbefore : ∀ e' ∈ before, e.1 ≠ e'.1 := fun e' he' heq =>
    hbefore e'.1 (List.mem_map_of_mem he') e.1 (List.mem_cons_self ..) heq.symm
  have hafter : ∀ e' ∈ after, e.1 ≠ e'.1 := fun e' he' heq =>
    hafter (heq ▸ List.mem_map_of_mem he')
  -- other entries lead to other streams
  have hothers : ∀ e' ∈ before ++ e :: after, e.1 ≠ e'.1 → e'.2.data ≠ e.2.data := by
    intro e' he' hne hdata
    exact hne (h _ _ _ _ (hl e he) (hl e' he') hvalid hdata).symm
  refine ⟨before.foldl (ClientState.offer data) c, ?_, ?_, ?_, ?_⟩
  · rw [streams_offers_of_ne, hstream]
    intro e' he'
    exact hothers e' (List.mem_append_left _ he') (hbefore e' he')
  · rw [lookup_offers_of_ne hbefore]
    exact hl e he
  · rw [List.foldl_append, List.foldl_cons, streams_offers_of_ne]
    intro e' he'
    exact hothers e' (List.mem_append_right _ (List.mem_cons_of_mem _ he')) (hafter e' he')
  · rw [List.foldl_append, List.foldl_cons, lookup_offers_of_ne hafter]

theorem handOut_of_entry (h : Distinct c) (o : IterOrder) (data : MessageData) {k : Int32}
    (hk : c.inner.subscriptions.lookup k = some ⟨i⟩) (hi : c.streams.lookup i = some stream) :
    ∃ c₁ : ClientState, c₁.streams.lookup i = some stream ∧ c₁.inner.subscriptions.lookup k = some ⟨i⟩ ∧
      (c.handOut o data).streams.lookup i = (c₁.offer data (k, ⟨i⟩)).streams.lookup i ∧
      (c.handOut o data).inner.subscriptions.lookup k =
        (c₁.offer data (k, ⟨i⟩)).inner.subscriptions.lookup k := by
  have hl : ∀ e ∈ o.walk c.inner.subscriptions, c.inner.subscriptions.lookup e.1 = some e.2 :=
    fun e he => (o.mem_walk _ _ _).mp he
  exact offers_of_mem h (o.nodup_walk _) hl ((o.mem_walk _ k ⟨i⟩).mpr hk) hi

/-- What `send_value_to_subscriber` does to a stream that is subscribed. -/
theorem streams_handOut (h : Distinct c) (o : IterOrder) (data : MessageData) {k : Int32}
    (hk : c.inner.subscriptions.lookup k = some ⟨i⟩) (hi : c.streams.lookup i = some stream) :
    (c.handOut o data).streams.lookup i = some (stream.offered data) := by
  obtain ⟨c₁, hi₁, -, hstreams, -⟩ := handOut_of_entry h o data hk hi
  rw [hstreams]
  exact streams_offer (e := (k, ⟨i⟩)) hi₁

/-- A subscription whose stream has room stays. -/
theorem entry_handOut (h : Distinct c) (o : IterOrder) (data : MessageData) {k : Int32}
    (hk : c.inner.subscriptions.lookup k = some ⟨i⟩) (hi : c.streams.lookup i = some stream)
    (hroom : stream.data.caresAbout data.topicName = true →
      stream.receiver.length < streamCapacity) :
    (c.handOut o data).inner.subscriptions.lookup k = some ⟨i⟩ := by
  obtain ⟨c₁, hi₁, hk₁, -, hsubs⟩ := handOut_of_entry h o data hk hi
  have hroom₁ : HasRoom c₁ data (k, ⟨i⟩) := by
    intro stream' hi' hcares
    rw [hi₁] at hi'
    cases hi'
    exact hroom hcares
  rw [hsubs]
  apply (delivers_offer hk₁ hroom₁).kept _ _ hk₁
  exact Option.isSome_iff_exists.mpr ⟨stream, hi₁⟩

/-- Nothing but the subscriptions and the streams changes. -/
theorem inner_offers (data : MessageData) (l : List (Int32 × InternalSub)) (c : ClientState) :
    ∃ subs, (l.foldl (ClientState.offer data) c).inner = { c.inner with subscriptions := subs } := by
  have hone : ∀ c e, ∃ subs, (ClientState.offer data c e).inner =
      { c.inner with subscriptions := subs } := by
    intro c e
    unfold ClientState.offer
    split
    · exact ⟨_, rfl⟩
    · split_ifs
      · exact ⟨c.inner.subscriptions, rfl⟩
      · exact ⟨_, rfl⟩
      · exact ⟨c.inner.subscriptions, rfl⟩
  induction l generalizing c with
  | nil => exact ⟨c.inner.subscriptions, rfl⟩
  | cons e l ih =>
    obtain ⟨subs, hfirst⟩ := hone c e
    obtain ⟨subs', hrest⟩ := ih (c.offer data e)
    rw [hfirst] at hrest
    exact ⟨subs', hrest⟩

theorem inner_handOut (o : IterOrder) (data : MessageData) (c : ClientState) :
    ∃ subs, (c.handOut o data).inner = { c.inner with subscriptions := subs } :=
  inner_offers data _ c

theorem distinct_handOut (h : Distinct c) (o : IterOrder) (data : MessageData) :
    Distinct (c.handOut o data) := h.shrinks (shrinks_offers data _ c)

/-- The values that a subscription cares about. -/
def cared (sub : Subscription) (values : List MessageData) : List MessageData :=
  values.filter fun data => sub.caresAbout data.topicName

/-- A stream with room for them gets the values that it cares about, one after the other. -/
theorem streams_handOuts (h : Distinct c) (o : IterOrder) {values : List MessageData} {k : Int32}
    (hk : c.inner.subscriptions.lookup k = some ⟨i⟩) (hi : c.streams.lookup i = some stream)
    (hroom : stream.receiver.length + (cared stream.data values).length ≤ streamCapacity) :
    (values.foldl (fun c data => c.handOut o data) c).streams.lookup i =
      some { stream with receiver := stream.receiver ++ cared stream.data values } := by
  induction values generalizing c stream with
  | nil => simpa [cared] using hi
  | cons data values ih =>
    have hdistinct := distinct_handOut h o data
    have hstream := streams_handOut h o data hk hi
    rw [List.foldl_cons]
    by_cases hcares : stream.data.caresAbout data.topicName = true
    · have hcons : cared stream.data (data :: values) = data :: cared stream.data values :=
        List.filter_cons_of_pos hcares
      rw [hcons, List.length_cons] at hroom
      have hentry := entry_handOut h o data hk hi fun _ => by omega
      rw [SubscriptionStream.offered, if_pos ⟨hcares, by omega⟩] at hstream
      rw [ih hdistinct hentry hstream, hcons]
      · simp
      · simp only [List.length_append, List.length_singleton]
        omega
    · have hcons : cared stream.data (data :: values) = cared stream.data values :=
        List.filter_cons_of_neg hcares
      rw [hcons] at hroom ⊢
      have hentry := entry_handOut h o data hk hi fun hcares' => absurd hcares' hcares
      rw [SubscriptionStream.offered, if_neg fun hboth => hcares hboth.1] at hstream
      exact ih hdistinct hentry hstream hroom

end HandOut

section Programs

variable {f : ClientState → ClientState}

theorem Gentle.published (h : Gentle f) (c : ClientState) :
    (f c).inner.clientPublishedTopics = c.inner.clientPublishedTopics := by
  rcases h with h | ⟨o, data, rfl⟩
  · exact (h c).published
  · obtain ⟨subs, hinner⟩ := inner_handOut o data c
    rw [hinner]

/-- A client with one stream, which takes every topic. -/
def probe : ClientState where
  inner := { subscriptions := (∅ : KeyMap Int32 InternalSub).insert 0 ⟨0⟩ }
  streams := (∅ : KeyMap StreamId SubscriptionStream).insert 0 ⟨⟨0, {""}, some { prefixed := true }⟩, []⟩
  nextStream := 1

/-- The value that a change hands out. -/
def shows (f : ClientState → ClientState) : Option MessageData :=
  ((f probe).streams.lookup 0).bind fun stream => stream.receiver.head?

theorem shows_of_streams (h : (f probe).streams = probe.streams) : shows f = none := by
  rw [shows, h]
  rfl

theorem shows_handOut (o : IterOrder) (data : MessageData) :
    shows (ClientState.handOut o data) = some data := by
  have hdistinct : Distinct probe := by
    intro k k' sub sub' hk hk' _ _
    simp only [probe, KeyMap.lookup_insert] at hk hk'
    split_ifs at hk hk' with h h'
    · rw [h, h']
    · cases hk'
    · cases hk
    · cases hk
  have hstream := streams_handOut (k := 0) (i := 0) hdistinct o data rfl rfl
  have hcares : Subscription.caresAbout ⟨0, {""}, some { prefixed := true }⟩ data.topicName = true := by
    simp [Subscription.caresAbout, Subscription.getOptions]
  rw [shows, hstream, SubscriptionStream.offered, if_pos ⟨hcares, by decide⟩]
  rfl

/-- A gentle change that shows a value hands it out. -/
theorem Gentle.handOut_of_shows (h : Gentle f) {data : MessageData} (hf : shows f = some data) :
    ∃ o, f = ClientState.handOut o data := by
  rcases h with h | ⟨o, data', rfl⟩
  · obtain ⟨stream', hi, hhead⟩ := Option.bind_eq_some_iff.mp hf
    obtain ⟨stream, hi, hlength⟩ := (h probe).receivers 0 stream' hi
    cases hi
    rw [List.length_eq_zero_iff.mp (Nat.le_zero.mp hlength)] at hhead
    cases hhead
  · rw [shows_handOut] at hf
    cases hf
    exact ⟨o, rfl⟩

/-- The streams are not touched. -/
theorem gentle_of_delivers (h : ∀ c, Delivers c (f c)) (hstreams : ∀ c, (f c).streams = c.streams) :
    Gentle f := by
  left
  intro c
  refine ⟨h c, fun i stream hi => ?_⟩
  rw [hstreams] at hi
  exact ⟨stream, hi, le_rfl⟩

/-- Neither the topics nor the streams nor the subscriptions are touched. -/
theorem gentle_of_same
    (hpublished : ∀ c, (f c).inner.clientPublishedTopics = c.inner.clientPublishedTopics)
    (hsubs : ∀ c, (f c).inner.subscriptions = c.inner.subscriptions)
    (hstreams : ∀ c, (f c).streams = c.streams) (hnext : ∀ c, (f c).nextStream = c.nextStream) :
    Gentle f :=
  gentle_of_delivers (fun c => .of_same (hpublished c) (hsubs c) (hstreams c) (hnext c)) hstreams

theorem gentle_id : Gentle id :=
  gentle_of_same (fun _ => rfl) (fun _ => rfl) (fun _ => rfl) fun _ => rfl

theorem Modest.then {rest : ClientM Unit} {next : Unit → ClientM Unit} (h : Modest rest)
    (hnext : Modest (next ())) : Modest (rest >>= next) := Prog.All.bind h fun _ => hnext

theorem modest_updateTime : Modest InnerClient.updateTime := by
  simp only [InnerClient.updateTime, Prog.acquire_bind, Prog.read_bind]
  refine ⟨gentle_id, fun c => ?_⟩
  dsimp only
  split
  · exact ⟨rfl, trivial⟩
  · trivial

theorem modest_onOpen (o : IterOrder) : Modest (InnerClient.onOpen o) := by
  have hannounced : Gentle fun c => { c with inner := { c.inner with
      announcedTopics := (∅ : KeyMap Int32 AnnouncedTopic).insert (-1) InnerClient.time } } :=
    gentle_of_same (fun _ => rfl) (fun _ => rfl) (fun _ => rfl) fun _ => rfl
  have hvalid : Gentle fun c => { c with inner := { c.inner with
      subscriptions := c.inner.subscriptions.filter fun _ sub => c.isValid sub } } := by
    apply gentle_of_delivers
    · intro c
      exact (delivers_opened c).trans (.of_same rfl rfl rfl rfl)
    · exact fun _ => rfl
  have hreset : Gentle fun c => { c with inner := { c.inner with
      serverTimeOffset := 0, startInstant := c.now } } :=
    gentle_of_same (fun _ => rfl) (fun _ => rfl) (fun _ => rfl) fun _ => rfl
  refine ⟨hannounced, fun _ => ⟨hvalid, fun _ => ⟨gentle_id, fun c => ⟨hreset, fun _ => ?_⟩⟩⟩⟩
  exact modest_updateTime.then ⟨rfl, trivial⟩

theorem modest_handleTopicValue (o : IterOrder) (id : Int32) (timestampMicros : UInt64)
    (type : FrcType) (data : Value) :
    Modest (InnerClient.handleTopicValue o id timestampMicros type data) := by
  simp only [InnerClient.handleTopicValue, Prog.acquire_bind, Prog.read_bind]
  refine ⟨gentle_id, fun c => ?_⟩
  dsimp only
  split
  · exact ⟨.inr ⟨_, _, rfl⟩, fun _ => trivial⟩
  · trivial

theorem modest_handleTime (timestampMicros : UInt64) (data : Value) :
    Modest (InnerClient.handleTime timestampMicros data) := by
  have hmath : (InnerClient.handleNewTimestamp timestampMicros data.asI64).All
      Gentle fun m => valueOf m = none :=
    ⟨gentle_of_delivers (fun c => delivers_getD_withTimestamp c _ _)
      fun c => streams_getD_withTimestamp c _ _, fun _ => trivial⟩
  have hreset : Gentle fun c => { c with inner := { c.inner with startInstant := c.now } } :=
    gentle_of_same (fun _ => rfl) (fun _ => rfl) (fun _ => rfl) fun _ => rfl
  apply hmath.bind
  intro ok
  cases ok with
  | true => trivial
  | false =>
    refine ⟨hreset, fun _ => ?_⟩
    exact modest_updateTime.then (hmath.bind (g := fun _ => .pure ()) fun _ => trivial)

theorem modest_handleValue (o : IterOrder) (array : List Value) :
    Modest (InnerClient.handleValue o array) := by
  obtain heq | ⟨_, _, _, _, _, -, -, heq⟩ | ⟨_, _, _, _, _, _, _, -, -, heq⟩ :=
    InnerClient.handleValue_cases o array
  · rw [heq]
    trivial
  · rw [heq]
    exact modest_handleTime _ _
  · rw [heq]
    exact modest_handleTopicValue ..

theorem modest_handleNtMessage (ofTypeStr : String → FrcType) (message : NTMessage) :
    Modest (InnerClient.handleNtMessage ofTypeStr message) := by
  cases message with
  | announce a =>
    refine ⟨gentle_of_delivers (fun c => ?_) fun c => ?_, fun _ => trivial⟩
    · split_ifs <;> exact .of_same rfl rfl rfl rfl
    · split_ifs <;> rfl
  | unAnnounce u =>
    refine ⟨gentle_of_same ?_ ?_ ?_ ?_, fun _ => trivial⟩ <;> exact fun _ => rfl
  | _ => trivial

theorem modest_handleMessage (o : IterOrder) (ofTypeStr : String → FrcType)
    (message : InnerClient.Incoming) : Modest (InnerClient.handleMessage o ofTypeStr message) := by
  cases message with
  | text messages =>
    cases messages with
    | none => trivial
    | some messages =>
      apply Prog.all_forEach
      intro m _
      exact modest_handleNtMessage ofTypeStr m
  | binary values =>
    apply Prog.all_forEach
    intro v _
    cases v with
    | array array => exact modest_handleValue o array
    | _ => trivial
  | other => trivial

theorem modest_takeMessage (sub : StreamId) : Modest (AsyncClientHandle.takeMessage sub) := by
  refine ⟨.inl fun c => ?_, fun _ => trivial⟩
  dsimp only
  cases hsub : c.streams.lookup sub with
  | none => exact ⟨.of_same rfl rfl rfl rfl, fun i stream hi => ⟨stream, hi, le_rfl⟩⟩
  | some stream =>
    refine ⟨delivers_receiver hsub stream.receiver.tail rfl rfl rfl, fun i stream' hi => ?_⟩
    simp only [KeyMap.lookup_insert] at hi
    split_ifs at hi with heq
    · cases hi
      rw [heq]
      exact ⟨stream, hsub, by simp⟩
    · exact ⟨stream', hi, le_rfl⟩

end Programs

end NetTables.Client
