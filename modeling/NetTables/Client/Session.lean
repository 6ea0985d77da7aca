import NetTables.Client.Inner
import NetTables.Lib.Run

namespace NetTables.Client

open Lib Spec

/-- What happens to a client, one thing after the other: calls of its users, messages of the server
and new connections. -/
inductive Call where
  | api (call : ApiCall)
  | updateTime
  | ntMessage (message : NTMessage)
  | value (array : List Value)
  | reconnect
  | tick (micros : Nat)

def Call.program (o : IterOrder) (ofTypeStr : String → FrcType) : Call → ClientM Unit
  | .api call => call.program
  | .updateTime => InnerClient.updateTime
  | .ntMessage message => InnerClient.handleNtMessage ofTypeStr message
  | .value array => InnerClient.handleValue o array
  | .reconnect => InnerClient.onOpen o
  | .tick micros => .write fun c => { c with now := c.now + micros }

/-- The topics published and not since unpublished, after one more call. -/
def Call.after (c : ClientState) (session : List PublishedTopic) : Call → List PublishedTopic
  | .api (.publishTopic name topicType properties) =>
    session ++ [((AsyncClientHandle.publishTopic name topicType properties).run c).1]
  | .api (.unpublish topic) => session.filter fun t => t.pubuid ≠ topic.pubuid
  | _ => session

/-- A client that `start` has just made. -/
def Started (p : ClientState × List PublishedTopic) : Prop :=
  ∃ o now, p = (((InnerClient.onOpen o).run { inner := { startInstant := now }, now }).2.1, [])

/-- A completed call. -/
def Completes (ofTypeStr : String → FrcType) (p : ClientState × List PublishedTopic) (call : Call)
    (q : ClientState × List PublishedTopic) : Prop :=
  ∃ o, q = (((call.program o ofTypeStr).run p.1).2.1, call.after p.1 p.2)

/-- Runs of completed calls that all meet `guard`, with their number. -/
abbrev Calls (ofTypeStr : String → FrcType)
    (guard : ClientState × List PublishedTopic → Call → Prop) :
    Nat → ClientState × List PublishedTopic → Prop :=
  Run Started (Completes ofTypeStr) (fun _ => 0) (fun _ _ => 1) guard

/-- A new connection gets the client's clock, and then one message for each topic of the session
and one for each stream that is held. -/
def Restores (p : ClientState × List PublishedTopic) : Prop :=
  ∀ o, ∃ time messages, ((InnerClient.onOpen o).run p.1).2.2 =
      [.value .negativeOne .int 0 time, .text messages] ∧
    messages.Perm (p.2.map PublishedTopic.asPublish ++
      p.1.streams.pairs.map fun e => subscribeMessage e.2.data)

/-- A topic of the session stays published, an id is not given twice, and a stream that wants a
value has room for it. -/
def KeepsSession (p : ClientState × List PublishedTopic) : Call → Prop
  | .api (.publishTopic _ _ _) => ∀ topic ∈ p.2, topic.pubuid ≠ p.1.nextTopicId
  | .api (.unpublish topic) => ∀ t ∈ p.2, t.pubuid ≠ topic.pubuid
  | .api (.subscribeWOptions _ _) =>
    ∀ i stream, p.1.streams.lookup i = some stream → stream.data.subuid ≠ p.1.nextSubId
  | .value array => ∀ first id topic, array.head? = some first →
      first.asI64.map Int64.toInt32 = some id → p.1.inner.announcedTopics.lookup id = some topic →
      ∀ i stream, p.1.streams.lookup i = some stream → stream.data.caresAbout topic.name →
        stream.receiver.length < streamCapacity
  | _ => True

/-- The maps that a new connection is brought up to date from hold the session. -/
structure Tracks (p : ClientState × List PublishedTopic) : Prop where
  topics : ∀ id topic, p.1.inner.clientPublishedTopics.lookup id = some topic ↔
    topic ∈ p.2 ∧ topic.pubuid = id
  once : (p.2.map PublishedTopic.pubuid).Nodup
  own : ∀ k sub stream, p.1.inner.subscriptions.lookup k = some sub →
    p.1.streams.lookup sub.data = some stream → stream.data.subuid = k
  found : ∀ i stream, p.1.streams.lookup i = some stream →
    p.1.inner.subscriptions.lookup stream.data.subuid = some ⟨i⟩
  streams_lt : ∀ i, i ∈ p.1.streams → i < p.1.nextStream
  subs_lt : ∀ k sub, p.1.inner.subscriptions.lookup k = some sub → sub.data < p.1.nextStream

section Restores

variable {c c' : ClientState} {session : List PublishedTopic}

/-- The topics of the replay. -/
theorem Tracks.perm_topics (h : Tracks (c, session)) (o : IterOrder) :
    ((o.walk c.inner.clientPublishedTopics).map Prod.snd).Perm session := by
  have hkeys : ((o.walk c.inner.clientPublishedTopics).map Prod.snd).map PublishedTopic.pubuid =
      (o.walk c.inner.clientPublishedTopics).map Prod.fst := by
    rw [List.map_map]
    apply List.map_congr_left
    intro e he
    exact ((h.topics e.1 e.2).mp ((o.mem_walk _ _ _).mp he)).2
  have hwalk : ((o.walk c.inner.clientPublishedTopics).map Prod.snd).Nodup := by
    apply List.Nodup.of_map PublishedTopic.pubuid
    rw [hkeys]
    exact o.nodup_walk _
  apply (List.perm_ext_iff_of_nodup hwalk (h.once.of_map _)).mpr
  intro topic
  rw [List.mem_map]
  constructor
  · intro hmem
    obtain ⟨e, he, rfl⟩ := hmem
    exact ((h.topics e.1 e.2).mp ((o.mem_walk _ _ _).mp he)).1
  · intro hmem
    exact ⟨(topic.pubuid, topic), (o.mem_walk _ _ _).mpr ((h.topics _ _).mpr ⟨hmem, rfl⟩), rfl⟩

/-- The subscriptions of the replay. -/
theorem Tracks.perm_subs (h : Tracks (c, session)) (o : IterOrder) :
    ((o.walk c.inner.subscriptions).filterMap fun e => c.upgrade e.2).Perm
      (c.streams.pairs.map fun e => e.2.data) := by
  have hwalk : ((o.walk c.inner.subscriptions).filterMap fun e => c.upgrade e.2).Nodup := by
    have hkeys := List.pairwise_map.mp (o.nodup_walk c.inner.subscriptions)
    apply List.pairwise_filterMap.mpr (hkeys.imp_of_mem _)
    intro e e' he he' hne sub hsub sub' hsub' heq
    obtain ⟨stream, hstream, rfl⟩ := Option.map_eq_some_iff.mp hsub
    obtain ⟨stream', hstream', rfl⟩ := Option.map_eq_some_iff.mp hsub'
    have hk := h.own _ _ _ ((o.mem_walk _ _ _).mp he) hstream
    have hk' := h.own _ _ _ ((o.mem_walk _ _ _).mp he') hstream'
    exact hne (hk.symm.trans (heq ▸ hk'))
  have hpairs : (c.streams.pairs.map fun e => e.2.data).Nodup := by
    have hkeys := List.pairwise_map.mp c.streams.nodup_pairs
    apply List.pairwise_map.mpr (hkeys.imp_of_mem _)
    intro e e' he he' hne heq
    have hfound := h.found _ _ ((KeyMap.mem_pairs _ _ _).mp he)
    rw [heq, h.found _ _ ((KeyMap.mem_pairs _ _ _).mp he')] at hfound
    exact hne (congrArg InternalSub.data (Option.some.inj hfound)).symm
  apply (List.perm_ext_iff_of_nodup hwalk hpairs).mpr
  intro sub
  rw [List.mem_filterMap, List.mem_map]
  constructor
  · intro hmem
    obtain ⟨e, he, hup⟩ := hmem
    obtain ⟨stream, hstream, hdata⟩ := Option.map_eq_some_iff.mp hup
    exact ⟨(e.2.data, stream), (KeyMap.mem_pairs _ _ _).mpr hstream, hdata⟩
  · intro hmem
    obtain ⟨e, he, hdata⟩ := hmem
    have hstream := (KeyMap.mem_pairs _ _ _).mp he
    refine ⟨(e.2.data.subuid, ⟨e.1⟩), (o.mem_walk _ _ _).mpr (h.found _ _ hstream), ?_⟩
    rw [ClientState.upgrade, hstream, Option.map_some, hdata]

/-- The state in which `on_open` collects the replay. -/
def ClientState.opened (c : ClientState) : ClientState :=
  { c with inner := { c.inner with
    announcedTopics := (∅ : KeyMap Int32 AnnouncedTopic).insert (-1) InnerClient.time
    subscriptions := c.inner.subscriptions.filter fun _ sub => c.isValid sub } }

theorem run_onOpen (o : IterOrder) (c : ClientState) :
    (InnerClient.onOpen o).run c =
      ((), { c.opened with inner := { c.opened.inner with
          serverTimeOffset := 0, startInstant := c.now } },
        [.value .negativeOne .int 0 (.integer (UInt64.ofNat (c.now - c.now)).toNat),
          .text (InnerClient.replay o c.opened)]) := rfl

end Restores

/-- What keeps the topics, the streams and every subscription whose stream is held. -/
structure Delivers (c c' : ClientState) : Prop where
  published : c'.inner.clientPublishedTopics = c.inner.clientPublishedTopics
  data : ∀ i, (c'.streams.lookup i).map SubscriptionStream.data =
    (c.streams.lookup i).map SubscriptionStream.data
  subs : ∀ k sub, c'.inner.subscriptions.lookup k = some sub →
    c.inner.subscriptions.lookup k = some sub
  kept : ∀ k sub, c.inner.subscriptions.lookup k = some sub → c.isValid sub = true →
    c'.inner.subscriptions.lookup k = some sub
  nextStream : c'.nextStream = c.nextStream

/-- Subscriptions and streams may go, but none comes. -/
structure Shrinks (c c' : ClientState) : Prop where
  subs : ∀ k sub, c'.inner.subscriptions.lookup k = some sub →
    c.inner.subscriptions.lookup k = some sub
  streams : ∀ i stream', c'.streams.lookup i = some stream' →
    ∃ stream, c.streams.lookup i = some stream ∧ stream.data = stream'.data
  nextStream : c'.nextStream = c.nextStream

section Delivers

variable {c c' c'' : ClientState} {session : List PublishedTopic} {data : MessageData}
  {entry : Int32 × InternalSub}

theorem Shrinks.of_same (hsubs : c'.inner.subscriptions = c.inner.subscriptions)
    (hstreams : c'.streams = c.streams) (hnext : c'.nextStream = c.nextStream) : Shrinks c c' := by
  refine ⟨fun k sub hk => ?_, fun i stream hi => ?_, hnext⟩
  · rwa [hsubs] at hk
  · rw [hstreams] at hi
    exact ⟨stream, hi, rfl⟩

theorem Shrinks.trans (h : Shrinks c c') (h' : Shrinks c' c'') : Shrinks c c'' where
  subs k sub hk := h.subs k sub (h'.subs k sub hk)
  streams i stream'' hi := by
    obtain ⟨stream', hi', hdata'⟩ := h'.streams i stream'' hi
    obtain ⟨stream, hi, hdata⟩ := h.streams i stream' hi'
    exact ⟨stream, hi, hdata.trans hdata'⟩
  nextStream := h'.nextStream.trans h.nextStream

theorem Shrinks.isValid (h : Shrinks c c') {sub : InternalSub} (hvalid : c'.isValid sub = true) :
    c.isValid sub = true := by
  obtain ⟨stream', hstream'⟩ := Option.isSome_iff_exists.mp hvalid
  obtain ⟨stream, hstream, -⟩ := h.streams _ _ hstream'
  exact Option.isSome_iff_exists.mpr ⟨stream, hstream⟩

theorem Delivers.shrinks (h : Delivers c c') : Shrinks c c' where
  subs := h.subs
  streams i stream' hi := by
    have hdata := h.data i
    rw [hi] at hdata
    obtain ⟨stream, hold, heq⟩ := Option.map_eq_some_iff.mp hdata.symm
    exact ⟨stream, hold, heq⟩
  nextStream := h.nextStream

theorem Delivers.of_same
    (hpublished : c'.inner.clientPublishedTopics = c.inner.clientPublishedTopics)
    (hsubs : c'.inner.subscriptions = c.inner.subscriptions) (hstreams : c'.streams = c.streams)
    (hnext : c'.nextStream = c.nextStream) : Delivers c c' := by
  refine ⟨hpublished, fun i => by rw [hstreams], fun k sub hk => ?_, fun k sub hk _ => ?_, hnext⟩
  · rwa [hsubs] at hk
  · rwa [hsubs]

theorem isValid_iff (sub : InternalSub) :
    c.isValid sub = true ↔ ((c.streams.lookup sub.data).map SubscriptionStream.data).isSome := by
  rw [ClientState.isValid, Option.isSome_map]

theorem Delivers.isValid (h : Delivers c c') (sub : InternalSub) :
    c'.isValid sub = c.isValid sub := by
  rw [Bool.eq_iff_iff, isValid_iff, isValid_iff, h.data]

theorem Delivers.trans (h : Delivers c c') (h' : Delivers c' c'') : Delivers c c'' where
  published := h'.published.trans h.published
  data i := (h'.data i).trans (h.data i)
  subs k sub hk := h.subs k sub (h'.subs k sub hk)
  kept k sub hk hvalid := h'.kept k sub (h.kept k sub hk hvalid) (h.isValid sub ▸ hvalid)
  nextStream := h'.nextStream.trans h.nextStream

theorem Tracks.delivers (h : Tracks (c, session)) (hd : Delivers c c') : Tracks (c', session) := by
  have hstream := hd.shrinks.streams
  refine ⟨?_, h.once, ?_, ?_, ?_, ?_⟩
  · simp only [hd.published]
    exact h.topics
  · intro k sub stream' hk hi
    obtain ⟨stream, hold, heq⟩ := hstream _ _ hi
    rw [← heq]
    exact h.own k sub stream (hd.subs k sub hk) hold
  · intro i stream' hi
    obtain ⟨stream, hold, heq⟩ := hstream _ _ hi
    rw [← heq]
    apply hd.kept _ _ (h.found i stream hold)
    rw [ClientState.isValid, hold]
    rfl
  · intro i hi
    obtain ⟨stream', hi⟩ := (KeyMap.mem_iff_lookup _ _).mp hi
    obtain ⟨stream, hold, -⟩ := hstream _ _ hi
    rw [hd.nextStream]
    exact h.streams_lt i ((KeyMap.mem_iff_lookup _ _).mpr ⟨stream, hold⟩)
  · intro k sub hk
    rw [hd.nextStream]
    exact h.subs_lt k sub (hd.subs k sub hk)

theorem delivers_opened (c : ClientState) : Delivers c c.opened := by
  refine ⟨rfl, fun _ => rfl, fun k sub hk => ?_, fun k sub hk hvalid => ?_, rfl⟩
  · simp only [ClientState.opened, KeyMap.lookup_filter, Option.filter_eq_some_iff] at hk
    exact hk.1
  · simp only [ClientState.opened, KeyMap.lookup_filter, Option.filter_eq_some_iff]
    exact ⟨hk, hvalid⟩

theorem Tracks.restores (h : Tracks (c, session)) : Restores (c, session) := by
  intro o
  have hopened := h.delivers (delivers_opened c)
  refine ⟨_, InnerClient.replay o c.opened, by rw [run_onOpen], ?_⟩
  have htopics := (hopened.perm_topics o).map PublishedTopic.asPublish
  have hsubs := (hopened.perm_subs o).map subscribeMessage
  rw [List.map_map] at htopics
  rw [List.map_map, List.map_filterMap] at hsubs
  exact htopics.append hsubs

/-- A stream whose receiver changes. -/
theorem delivers_receiver {i : StreamId} {stream : SubscriptionStream}
    (hi : c.streams.lookup i = some stream) (receiver : List MessageData)
    (hstreams : c'.streams = c.streams.insert i { stream with receiver })
    (hinner : c'.inner = c.inner) (hnext : c'.nextStream = c.nextStream) : Delivers c c' := by
  refine ⟨by rw [hinner], fun j => ?_, fun k sub hk => ?_, fun k sub hk _ => ?_, hnext⟩
  · rw [hstreams, KeyMap.lookup_insert]
    split_ifs with hj
    · rw [hj, hi]
      rfl
    · rfl
  · rwa [hinner] at hk
  · rwa [hinner]

/-- A subscription that wants the message has room for it. -/
def HasRoom (c : ClientState) (data : MessageData) (entry : Int32 × InternalSub) : Prop :=
  ∀ stream, c.streams.lookup entry.2.data = some stream →
    stream.data.caresAbout data.topicName = true → stream.receiver.length < streamCapacity

theorem delivers_offer (hentry : c.inner.subscriptions.lookup entry.1 = some entry.2)
    (hroom : HasRoom c data entry) : Delivers c (c.offer data entry) := by
  unfold ClientState.offer
  cases hi : c.streams.lookup entry.2.data with
  | none =>
    refine ⟨rfl, fun _ => rfl, fun k sub hk => ?_, fun k sub hk hvalid => ?_, rfl⟩
    · simp only [KeyMap.lookup_erase] at hk
      split_ifs at hk
      exact hk
    · simp only [KeyMap.lookup_erase]
      rw [if_neg]
      · exact hk
      · intro heq
        rw [heq, hentry] at hk
        cases hk
        rw [ClientState.isValid, hi] at hvalid
        cases hvalid
  | some stream =>
    by_cases hcares : stream.data.caresAbout data.topicName = true
    · simp only [hcares, hroom stream hi hcares, if_true]
      exact delivers_receiver hi _ rfl rfl rfl
    · simp only [hcares]
      exact .of_same rfl rfl rfl rfl

theorem lookup_offer_of_ne {k : Int32} (hne : k ≠ entry.1) :
    (c.offer data entry).inner.subscriptions.lookup k = c.inner.subscriptions.lookup k := by
  unfold ClientState.offer
  split
  · rw [KeyMap.lookup_erase, if_neg hne]
  · split_ifs
    · rfl
    · rw [KeyMap.lookup_erase, if_neg hne]
    · rfl

/-- An offer leaves the room of the other subscriptions as it is. -/
theorem HasRoom.offer {other : Int32 × InternalSub} (h : HasRoom c data other)
    (hne : c.isValid entry.2 = true → other.2.data ≠ entry.2.data) :
    HasRoom (c.offer data entry) data other := by
  intro stream' hi hcares
  unfold ClientState.offer at hi
  cases hentry : c.streams.lookup entry.2.data with
  | none =>
    simp only [hentry] at hi
    exact h stream' hi hcares
  | some stream =>
    have hother : other.2.data ≠ entry.2.data := hne (by rw [ClientState.isValid, hentry]; rfl)
    simp only [hentry] at hi
    split_ifs at hi
    · rw [KeyMap.lookup_insert, if_neg hother] at hi
      exact h stream' hi hcares
    · exact h stream' hi hcares
    · exact h stream' hi hcares

/-- No two subscriptions lead to one stream that is held. -/
def Distinct (c : ClientState) : Prop :=
  ∀ k k' sub sub', c.inner.subscriptions.lookup k = some sub →
    c.inner.subscriptions.lookup k' = some sub' → c.isValid sub = true → sub'.data = sub.data → k' = k

theorem Distinct.shrinks (h : Distinct c) (hs : Shrinks c c') : Distinct c' := by
  intro k k' sub sub' hk hk' hvalid hdata
  exact h k k' sub sub' (hs.subs k sub hk) (hs.subs k' sub' hk') (hs.isValid hvalid) hdata

theorem Tracks.distinct (h : Tracks (c, session)) : Distinct c := by
  intro k k' sub sub' hk hk' hvalid hdata
  obtain ⟨stream, hstream⟩ := Option.isSome_iff_exists.mp hvalid
  have hown := h.own k sub stream hk hstream
  have hown' := h.own k' sub' stream hk' (hdata ▸ hstream)
  exact hown'.symm.trans hown

/-- A value goes to every subscription that wants it, and none is forgotten that is held. -/
theorem delivers_offers (h : Distinct c) (l : List (Int32 × InternalSub))
    (hkeys : (l.map Prod.fst).Nodup)
    (hl : ∀ e ∈ l, c.inner.subscriptions.lookup e.1 = some e.2)
    (hroom : ∀ e ∈ l, HasRoom c data e) : Delivers c (l.foldl (ClientState.offer data) c) := by
  induction l generalizing c with
  | nil => exact .of_same rfl rfl rfl rfl
  | cons e l ih =>
    have hfirst := delivers_offer (hl e (List.mem_cons_self ..)) (hroom e (List.mem_cons_self ..))
    obtain ⟨hnotin, hkeys⟩ := List.nodup_cons.mp hkeys
    have hne : ∀ e' ∈ l, e'.1 ≠ e.1 := fun e' he' heq =>
      hnotin (List.mem_map.mpr ⟨e', he', heq⟩)
    apply hfirst.trans
    apply ih (h.shrinks hfirst.shrinks) hkeys
    · intro e' he'
      rw [lookup_offer_of_ne (hne e' he')]
      exact hl e' (List.mem_cons_of_mem _ he')
    · intro e' he'
      apply (hroom e' (List.mem_cons_of_mem _ he')).offer
      intro hvalid heq
      apply hne e' he'
      exact h _ _ _ _ (hl e (List.mem_cons_self ..)) (hl e' (List.mem_cons_of_mem _ he')) hvalid heq

end Delivers

section Steps

variable {c c' : ClientState} {session : List PublishedTopic}

theorem Tracks.published (h : Tracks (c, session)) (topic : PublishedTopic)
    (hpublished : c'.inner.clientPublishedTopics =
      c.inner.clientPublishedTopics.insert topic.pubuid topic)
    (hsubs : c'.inner.subscriptions = c.inner.subscriptions) (hstreams : c'.streams = c.streams)
    (hnext : c'.nextStream = c.nextStream) (hnew : ∀ t ∈ session, t.pubuid ≠ topic.pubuid) :
    Tracks (c', session ++ [topic]) where
  topics id t := by
    simp only [hpublished, KeyMap.lookup_insert, List.mem_append, List.mem_singleton]
    by_cases hid : id = topic.pubuid
    · rw [if_pos hid]
      constructor
      · intro heq
        cases heq
        exact ⟨.inr rfl, hid.symm⟩
      · intro ht
        obtain ⟨ht | rfl, hpubuid⟩ := ht
        · exact absurd (hpubuid.trans hid) (hnew t ht)
        · rfl
    · rw [if_neg hid, h.topics id t]
      constructor
      · intro ht
        exact ⟨.inl ht.1, ht.2⟩
      · intro ht
        obtain ⟨ht | rfl, hpubuid⟩ := ht
        · exact ⟨ht, hpubuid⟩
        · exact absurd hpubuid.symm hid
  once := by
    rw [List.map_append, List.nodup_append]
    refine ⟨h.once, by simp, ?_⟩
    intro a ha b hb
    obtain ⟨t, ht, rfl⟩ := List.mem_map.mp ha
    rw [List.map_singleton, List.mem_singleton] at hb
    rw [hb]
    exact hnew t ht
  own := by
    simp only [hsubs, hstreams]
    exact h.own
  found := by
    simp only [hsubs, hstreams]
    exact h.found
  streams_lt := by
    simp only [hstreams, hnext]
    exact h.streams_lt
  subs_lt := by
    simp only [hsubs, hnext]
    exact h.subs_lt

/-- A new stream, under an id that no stream has. -/
theorem Tracks.subscribed (h : Tracks (c, session)) (sub : Subscription)
    (hpublished : c'.inner.clientPublishedTopics = c.inner.clientPublishedTopics)
    (hsubs : c'.inner.subscriptions = c.inner.subscriptions.insert sub.subuid ⟨c.nextStream⟩)
    (hstreams : c'.streams = c.streams.insert c.nextStream ⟨sub, []⟩)
    (hnext : c'.nextStream = c.nextStream + 1)
    (hnew : ∀ i stream, c.streams.lookup i = some stream → stream.data.subuid ≠ sub.subuid) :
    Tracks (c', session) where
  topics := by
    simp only [hpublished]
    exact h.topics
  once := h.once
  own k sub' stream hk hstream := by
    simp only [hsubs, hstreams, KeyMap.lookup_insert] at hk hstream
    by_cases hkey : k = sub.subuid
    · rw [if_pos hkey] at hk
      cases hk
      rw [if_pos rfl] at hstream
      cases hstream
      exact hkey.symm
    · rw [if_neg hkey] at hk
      have hlt : sub'.data ≠ c.nextStream := (h.subs_lt k sub' hk).ne
      rw [if_neg hlt] at hstream
      exact h.own k sub' stream hk hstream
  found i stream hi := by
    simp only [hsubs, hstreams, KeyMap.lookup_insert] at hi ⊢
    by_cases hnext : i = c.nextStream
    · rw [if_pos hnext] at hi
      cases hi
      rw [if_pos rfl, hnext]
    · rw [if_neg hnext] at hi
      rw [if_neg (hnew i stream hi)]
      exact h.found i stream hi
  streams_lt i hi := by
    simp only [hstreams, hnext, AList.mem_insert] at hi ⊢
    rcases hi with rfl | hi
    · exact Nat.lt_succ_self _
    · exact Nat.lt_succ_of_lt (h.streams_lt i hi)
  subs_lt k sub' hk := by
    simp only [hsubs, hnext, KeyMap.lookup_insert] at hk ⊢
    split_ifs at hk
    · cases hk
      exact Nat.lt_succ_self _
    · exact Nat.lt_succ_of_lt (h.subs_lt k sub' hk)

theorem Tracks.dropped (h : Tracks (c, session)) (i : StreamId)
    (hpublished : c'.inner.clientPublishedTopics = c.inner.clientPublishedTopics)
    (hsubs : ∀ k sub, c'.inner.subscriptions.lookup k = some sub →
      c.inner.subscriptions.lookup k = some sub)
    (hkept : ∀ k sub, c.inner.subscriptions.lookup k = some sub → sub.data ≠ i →
      c'.inner.subscriptions.lookup k = some sub)
    (hstreams : c'.streams = c.streams.erase i) (hnext : c'.nextStream = c.nextStream) :
    Tracks (c', session) where
  topics := by
    simp only [hpublished]
    exact h.topics
  once := h.once
  own k sub stream hk hstream := by
    simp only [hstreams, KeyMap.lookup_erase] at hstream
    split_ifs at hstream
    exact h.own k sub stream (hsubs k sub hk) hstream
  found j stream hj := by
    simp only [hstreams, KeyMap.lookup_erase] at hj
    split_ifs at hj with hne
    exact hkept _ _ (h.found j stream hj) hne
  streams_lt j hj := by
    rw [hstreams, AList.mem_erase] at hj
    rw [hnext]
    exact h.streams_lt j hj.2
  subs_lt k sub hk := by
    rw [hnext]
    exact h.subs_lt k sub (hsubs k sub hk)

theorem state_updateTime (c : ClientState) : (InnerClient.updateTime.run c).2.1 = c := by
  cases h : c.inner.announcedTopics.lookup (-1) <;>
    simp [InnerClient.updateTime, InnerClient.publishValueWTimestamp, InnerClient.sendMessage,
      Prog.run, Prog.release, h]

/-- The answer of the clock is a new offset, or nothing. -/
theorem getD_withTimestamp (c : ClientState) (serverTimestamp : UInt64)
    (clientTimestamp : Option Int64) :
    ∃ offset, (c.withTimestamp serverTimestamp clientTimestamp).getD c =
      { c with inner := { c.inner with serverTimeOffset := offset } } := by
  cases h : c.withTimestamp serverTimestamp clientTimestamp with
  | none => exact ⟨c.inner.serverTimeOffset, rfl⟩
  | some c' =>
    cases clientTimestamp with
    | none =>
      cases h
      exact ⟨c.inner.serverTimeOffset, rfl⟩
    | some clientTimestamp =>
      obtain ⟨_, -, h⟩ := Option.bind_eq_some_iff.mp h
      obtain ⟨_, -, h⟩ := Option.bind_eq_some_iff.mp h
      obtain ⟨offset, -, h⟩ := Option.bind_eq_some_iff.mp h
      cases h
      exact ⟨offset, rfl⟩

theorem delivers_getD_withTimestamp (c : ClientState) (serverTimestamp : UInt64)
    (clientTimestamp : Option Int64) :
    Delivers c ((c.withTimestamp serverTimestamp clientTimestamp).getD c) := by
  obtain ⟨offset, hc⟩ := getD_withTimestamp c serverTimestamp clientTimestamp
  rw [hc]
  exact .of_same rfl rfl rfl rfl

theorem streams_getD_withTimestamp (c : ClientState) (serverTimestamp : UInt64)
    (clientTimestamp : Option Int64) :
    ((c.withTimestamp serverTimestamp clientTimestamp).getD c).streams = c.streams := by
  obtain ⟨offset, hc⟩ := getD_withTimestamp c serverTimestamp clientTimestamp
  rw [hc]

/-- The clock's answer is worked out from the start that the client has, or from a new one. -/
theorem state_handleTime (timestampMicros : UInt64) (data : Value) (c : ClientState) :
    ∃ start, let reset : ClientState := { c with inner := { c.inner with startInstant := start } }
      ((InnerClient.handleTime timestampMicros data).run c).2.1 =
        (reset.withTimestamp timestampMicros data.asI64).getD reset := by
  cases hmath : (c.withTimestamp timestampMicros data.asI64).isSome with
  | true =>
    refine ⟨c.inner.startInstant, ?_⟩
    simp [InnerClient.handleTime, InnerClient.handleNewTimestamp, Prog.run, hmath]
  | false =>
    refine ⟨c.now, ?_⟩
    have hnone : c.withTimestamp timestampMicros data.asI64 = none := by simpa using hmath
    simp [InnerClient.handleTime, InnerClient.handleNewTimestamp, Prog.run, hnone,
      Prog.run_bind, state_updateTime]

/-- The clock's answer changes the clock only. -/
theorem delivers_handleTime (timestampMicros : UInt64) (data : Value) (c : ClientState) :
    Delivers c ((InnerClient.handleTime timestampMicros data).run c).2.1 := by
  obtain ⟨start, hstate⟩ := state_handleTime timestampMicros data c
  rw [hstate]
  apply Delivers.trans _ (delivers_getD_withTimestamp _ _ _)
  exact .of_same rfl rfl rfl rfl

theorem streams_handleTime (timestampMicros : UInt64) (data : Value) (c : ClientState) :
    ((InnerClient.handleTime timestampMicros data).run c).2.1.streams = c.streams := by
  obtain ⟨start, hstate⟩ := state_handleTime timestampMicros data c
  rw [hstate, streams_getD_withTimestamp]

theorem delivers_handleTopicValue (h : Tracks (c, session)) (o : IterOrder) {id : Int32}
    (timestampMicros : UInt64) (type : FrcType) (data : Value)
    (hroom : ∀ topic, c.inner.announcedTopics.lookup id = some topic →
      ∀ i stream, c.streams.lookup i = some stream → stream.data.caresAbout topic.name = true →
        stream.receiver.length < streamCapacity) :
    Delivers c ((InnerClient.handleTopicValue o id timestampMicros type data).run c).2.1 := by
  cases htopic : c.inner.announcedTopics.lookup id with
  | none =>
    have hstate :
        ((InnerClient.handleTopicValue o id timestampMicros type data).run c).2.1 = c := by
      simp [InnerClient.handleTopicValue, Prog.run, Prog.release, htopic]
    rw [hstate]
    exact .of_same rfl rfl rfl rfl
  | some topic =>
    have hstate : ((InnerClient.handleTopicValue o id timestampMicros type data).run c).2.1 =
        (o.walk c.inner.subscriptions).foldl
          (ClientState.offer ⟨topic.name, timestampMicros.toUInt32, type, data⟩) c := by
      simp [InnerClient.handleTopicValue, InnerClient.sendValueToSubscriber, Prog.run, Prog.release,
        htopic]
    rw [hstate]
    apply delivers_offers h.distinct _ (o.nodup_walk _)
    · intro e he
      exact (o.mem_walk _ _ _).mp he
    · intro e _ stream hstream hcares
      exact hroom topic htopic _ stream hstream hcares

/-- A value of the server goes to subscriptions or to the clock. -/
theorem delivers_handleValue (h : Tracks (c, session)) (o : IterOrder) {array : List Value}
    (hroom : KeepsSession (c, session) (.value array)) :
    Delivers c ((InnerClient.handleValue o array).run c).2.1 := by
  obtain heq | ⟨_, _, _, data, micros, -, -, heq⟩ |
    ⟨first, _, _, data, id, micros, type, rfl, hid, heq⟩ := InnerClient.handleValue_cases o array
  · rw [heq]
    exact .of_same rfl rfl rfl rfl
  · rw [heq]
    exact delivers_handleTime _ _ c
  · rw [heq]
    apply delivers_handleTopicValue h
    intro topic htopic i stream
    exact hroom first id topic rfl hid htopic i stream

theorem delivers_handleNtMessage (ofTypeStr : String → FrcType) (c : ClientState)
    (message : NTMessage) :
    Delivers c ((InnerClient.handleNtMessage ofTypeStr message).run c).2.1 := by
  cases message with
  | announce a =>
    by_cases hknown : a.id ∈ c.inner.announcedTopics <;>
      apply Delivers.of_same <;>
      simp [InnerClient.handleNtMessage, Prog.run, Prog.release, hknown]
  | _ => exact .of_same rfl rfl rfl rfl

theorem delivers_takeMessage (c : ClientState) (sub : StreamId) :
    Delivers c ((AsyncClientHandle.takeMessage sub).run c).2.1 := by
  cases hsub : c.streams.lookup sub with
  | none =>
    apply Delivers.of_same <;>
      simp [AsyncClientHandle.takeMessage, Prog.run, Prog.write, hsub]
  | some stream =>
    apply delivers_receiver hsub stream.receiver.tail <;>
      simp [AsyncClientHandle.takeMessage, Prog.run, Prog.write, hsub]

theorem Tracks.unsubscribe (h : Tracks (c, session)) (sub : StreamId) :
    Tracks (((AsyncClientHandle.unsubscribe sub).run c).2.1, session) := by
  cases hsub : c.streams.lookup sub with
  | none =>
    have hstate : ((AsyncClientHandle.unsubscribe sub).run c).2.1 = c := by
      simp [AsyncClientHandle.unsubscribe, Prog.run, hsub]
    rwa [hstate]
  | some stream =>
    have hstate : ((AsyncClientHandle.unsubscribe sub).run c).2.1 =
        { c with
          inner := { c.inner with
            subscriptions := c.inner.subscriptions.erase stream.data.subuid }
          streams := c.streams.erase sub } := by
      simp [AsyncClientHandle.unsubscribe, InnerClient.sendMessage, AsyncClientHandle.dropStream,
        Prog.run, Prog.write, hsub]
    rw [hstate]
    refine h.dropped sub rfl (fun k s hk => ?_) (fun k s hk hne => ?_) rfl rfl
    · simp only [KeyMap.lookup_erase] at hk
      split_ifs at hk
      exact hk
    · -- an entry under the same id would lead to the same stream
      have hkey : k ≠ stream.data.subuid := by
        rintro rfl
        rw [h.found sub stream hsub] at hk
        cases hk
        exact hne rfl
      simp only [KeyMap.lookup_erase]
      rw [if_neg hkey]
      exact hk

theorem Tracks.api {call : ApiCall} {ofTypeStr : String → FrcType} {o : IterOrder}
    (h : Tracks (c, session)) (hkeeps : KeepsSession (c, session) (.api call)) :
    Tracks ((((Call.api call).program o ofTypeStr).run c).2.1, (Call.api call).after c session) := by
  have hsame : Delivers c c := .of_same rfl rfl rfl rfl
  cases call with
  | publishTopic name topicType properties =>
    exact h.published ((AsyncClientHandle.publishTopic name topicType properties).run c).1 rfl rfl
      rfl rfl hkeeps
  | unpublish topic =>
    have hall : session.filter (fun t => t.pubuid ≠ topic.pubuid) = session := by
      apply List.filter_eq_self.mpr
      intro t ht
      exact decide_eq_true (hkeeps t ht)
    have hafter : (Call.api (.unpublish topic)).after c session = session := hall
    rw [hafter]
    exact h.delivers hsame
  | subscribeWOptions topicNames options =>
    exact h.subscribed ⟨c.nextSubId, topicNames.toFinset, options⟩ rfl rfl rfl rfl hkeeps
  | unsubscribe sub => exact h.unsubscribe sub
  | dropStream sub =>
    exact h.dropped sub rfl (fun _ _ hk => hk) (fun _ _ hk _ => hk) rfl rfl
  | takeMessage sub => exact h.delivers (delivers_takeMessage c sub)
  | publishValue topic v => exact h.delivers hsame
  | publishValueWTimestamp topic timestamp v => exact h.delivers hsame

/-- What one call does to the session, it does to the maps. -/
theorem Tracks.step {p q : ClientState × List PublishedTopic} {ofTypeStr : String → FrcType}
    {call : Call} (h : Tracks p) (hkeeps : KeepsSession p call)
    (hcall : Completes ofTypeStr p call q) : Tracks q := by
  obtain ⟨c, session⟩ := p
  obtain ⟨o, rfl⟩ := hcall
  cases call with
  | api call => exact h.api hkeeps
  | updateTime =>
    apply h.delivers
    show Delivers c (InnerClient.updateTime.run c).2.1
    rw [state_updateTime]
    exact .of_same rfl rfl rfl rfl
  | ntMessage message => exact h.delivers (delivers_handleNtMessage ofTypeStr c message)
  | value array => exact h.delivers (delivers_handleValue h o hkeeps)
  | reconnect => exact h.delivers ((delivers_opened c).trans (.of_same rfl rfl rfl rfl))
  | tick micros => exact h.delivers (.of_same rfl rfl rfl rfl)

end Steps

theorem Tracks.started {p : ClientState × List PublishedTopic} (h : Started p) : Tracks p := by
  obtain ⟨o, now, rfl⟩ := h
  have hfresh : Tracks ({ inner := { startInstant := now }, now }, []) := by
    refine ⟨fun id topic => ?_, List.nodup_nil, nofun, nofun, ?_, nofun⟩
    · exact ⟨nofun, fun h => absurd h.1 List.not_mem_nil⟩
    · intro i hi
      exact (AList.notMem_empty i hi).elim
  exact hfresh.delivers ((delivers_opened _).trans (.of_same rfl rfl rfl rfl))

/-- A reconnect restores the session that the calls before it have made. -/
theorem restores_session {ofTypeStr : String → FrcType} {n : Nat}
    {p : ClientState × List PublishedTopic} (run : Calls ofTypeStr KeepsSession n p) :
    Restores p := by
  obtain ⟨c, session⟩ := p
  apply Tracks.restores
  refine run.invariant (fun _ p => Tracks p) (fun _ h => .started h) ?_
  intro k p call q _ h hkeeps hcall
  exact h.step hkeeps hcall

/-- The client after these calls. -/
def afterCalls : List Call → ClientState × List PublishedTopic
  | [] => (((InnerClient.onOpen .stored).run {}).2.1, [])
  | call :: calls =>
    let (c, session) := afterCalls calls
    (((call.program .stored fun _ => .raw).run c).2.1, call.after c session)

theorem Calls.next {guard : ClientState × List PublishedTopic → Call → Prop} {n : Nat}
    {calls : List Call} (run : Calls (fun _ => .raw) guard n (afterCalls calls)) (call : Call)
    (hg : guard (afterCalls calls) call) :
    Calls (fun _ => .raw) guard (n + 1) (afterCalls (call :: calls)) :=
  run.step hg ⟨.stored, rfl⟩

theorem calls_start (guard : ClientState × List PublishedTopic → Call → Prop) :
    Calls (fun _ => .raw) guard 0 (afterCalls []) :=
  Run.start (s := afterCalls []) ⟨.stored, 0, rfl⟩

/-- A published topic and a subscription come back. -/
theorem restores_publishAndSubscribe :
    Restores (afterCalls [.api (.subscribeWOptions ["n"] none), .api (.publishTopic "n" .int none)]) := by
  have hpublish := (calls_start KeepsSession).next (.api (.publishTopic "n" .int none)) nofun
  have hsubscribe := hpublish.next (.api (.subscribeWOptions ["n"] none)) nofun
  exact restores_session hsubscribe

/-- A topic comes back that was unpublished. -/
theorem unpublished_comes_back :
    ¬∀ ofTypeStr n p, Calls ofTypeStr (fun _ _ => True) n p → Restores p := by
  intro hclaim
  have hpublish := (calls_start fun _ _ => True).next (.api (.publishTopic "n" .int none)) trivial
  have hrun := hpublish.next (.api (.unpublish ⟨"n", 1, .int, none⟩)) trivial
  obtain ⟨time, messages, hsent, hperm⟩ := hclaim _ _ _ hrun .stored
  rw [run_onOpen] at hsent
  simp only [List.cons.injEq, SocketMessage.text.injEq, and_true] at hsent
  obtain ⟨-, rfl⟩ := hsent
  have hsizes : (InnerClient.replay .stored (afterCalls [.api (.unpublish ⟨"n", 1, .int, none⟩),
      .api (.publishTopic "n" .int none)]).1.opened).length = 1 ∧
      (afterCalls [.api (.unpublish ⟨"n", 1, .int, none⟩),
        .api (.publishTopic "n" .int none)]).2.length = 0 ∧
      (afterCalls [.api (.unpublish ⟨"n", 1, .int, none⟩),
        .api (.publishTopic "n" .int none)]).1.streams.pairs.length = 0 := by decide +kernel
  have hlength := hperm.length_eq
  rw [List.length_append, List.length_map, List.length_map, hsizes.1, hsizes.2.1, hsizes.2.2]
    at hlength
  cases hlength

end NetTables.Client
