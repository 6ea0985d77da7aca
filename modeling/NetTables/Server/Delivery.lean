import NetTables.Server.Clients

namespace NetTables.Server

open Lib Lib.Fallible Spec

/-- On this channel every value message comes after an announcement of its topic id. -/
def Ordered (sent : List OutMessage) : Prop :=
  ∀ before frames after, sent = before ++ .binary frames :: after →
    ∀ f ∈ frames, Announced before f.topicId

section Ordered

variable {sent more : List OutMessage} {id : Int32}

theorem Announced.append (h : Announced sent id) (more : List OutMessage) :
    Announced (sent ++ more) id := by
  obtain ⟨messages, a, hmessages, ha⟩ := h
  exact ⟨messages, a, List.mem_append_left _ hmessages, ha⟩

theorem ordered_nil : Ordered [] := by
  intro before frames after h
  cases before <;> cases h

/-- One more message at the end: only a value message asks for announcements. -/
theorem Ordered.snoc (h : Ordered sent) {m : OutMessage}
    (hm : ∀ frames, m = .binary frames → ∀ f ∈ frames, Announced sent f.topicId) :
    Ordered (sent ++ [m]) := by
  intro before frames after heq f hf
  rcases List.append_eq_append_iff.mp heq with ⟨mid, rfl, hmid⟩ | ⟨mid, rfl, hmid⟩
  · -- the value message stands behind `sent`, so it is the new one
    cases mid with
    | nil =>
      cases hmid
      rw [List.append_nil]
      exact hm frames rfl f hf
    | cons m' mid => cases mid <;> cases hmid
  · cases mid with
    | nil =>
      cases hmid
      have hnew := hm frames rfl f hf
      rwa [List.append_nil] at hnew
    | cons m' mid =>
      cases hmid
      exact h before frames mid rfl f hf

/-- A run of value messages whose topics are all announced already. -/
theorem Ordered.append_values (h : Ordered sent) (l : List (List ValueFrame))
    (hl : ∀ frames ∈ l, ∀ f ∈ frames, Announced sent f.topicId) :
    Ordered (sent ++ l.map .binary) := by
  induction l generalizing sent with
  | nil => simpa using h
  | cons frames l ih =>
    have hfirst : Ordered (sent ++ [.binary frames]) := by
      refine h.snoc fun frames' heq => ?_
      cases heq
      exact hl frames List.mem_cons_self
    have hrest := ih hfirst fun frames' hmem f hf =>
      (hl frames' (List.mem_cons_of_mem _ hmem) f hf).append _
    rwa [List.append_assoc] at hrest

end Ordered

/-- The channel of a client that is connected, or whose connection task has yet to end. -/
def InnerServer.Channel (s : InnerServer) (ch : Outgoing) : Prop :=
  (∃ c client, s.clients.lookup c = some client ∧ client.subOuput = some ch) ∨
    ∃ client ∈ s.departed, client.subOuput = some ch

/-- What a client's channel may become: it is closed, or gets more messages, in order. -/
def Grows (client client' : ConnectedClient) : Prop :=
  ∀ ch', client'.subOuput = some ch' → ∃ ch, client.subOuput = some ch ∧
    (ch'.isOpen = true → ch.isOpen = true) ∧ (∀ id, Announced ch.sent id → Announced ch'.sent id) ∧
    (Ordered ch.sent → Ordered ch'.sent)

/-- The client of subscription `i` has got an announcement with this id. -/
def Hears (s : InnerServer) (i : SubIdx) (id : Int32) : Prop :=
  ∀ sub c client ch, s.subscriptions.lookup i = some (sub, c) → s.clients.lookup c = some client →
    client.subOuput = some ch → ch.isOpen = true → Announced ch.sent id

/-- Lists and queues only hold what their client has heard of. -/
structure Delivered (s : InnerServer) : Prop where
  subs_client : ∀ i sub c, s.subscriptions.lookup i = some (sub, c) →
    c.toNat < s.counters.clientIdx.toNat
  subs_lt : ∀ i, i ∈ s.subscriptions → i.toNat < s.counters.subIdx.toNat
  queues_lt : ∀ i, i ∈ s.subValues → i.toNat < s.counters.subIdx.toNat
  lists_lt : ∀ t i, Listed s.topicSubMap t i → i.toNat < s.counters.subIdx.toNat
  listed : ∀ t i, t ∈ s.topics → Listed s.topicSubMap t i → Hears s i t.toInt32
  queued : ∀ i stored t, s.subValues.lookup i = some stored → stored.queued t ≠ [] →
    Hears s i t.toInt32
  ordered : ∀ ch, s.Channel ch → Ordered ch.sent

/-- A change that adds no client, no subscription, nothing to the lists of the topics that stay and
nothing to the queues. -/
structure Narrows (s s' : InnerServer) : Prop where
  clients : ∀ c client', s'.clients.lookup c = some client' →
    ∃ client, s.clients.lookup c = some client ∧ Grows client client'
  departed : ∀ client' ∈ s'.departed, client' ∈ s.departed ∨
    ∃ c client, s.clients.lookup c = some client ∧ client'.subOuput = client.subOuput
  subscriptions : ∀ i entry, s'.subscriptions.lookup i = some entry →
    s.subscriptions.lookup i = some entry
  lists : ∀ t i, Listed s'.topicSubMap t i → Listed s.topicSubMap t i
  topics : ∀ t i, t ∈ s'.topics → Listed s'.topicSubMap t i → t ∈ s.topics
  queues : ∀ i stored', s'.subValues.lookup i = some stored' →
    ∃ stored, s.subValues.lookup i = some stored ∧ ∀ t, stored'.queued t ≠ [] → stored.queued t ≠ []
  subIdx : s'.counters.subIdx = s.counters.subIdx
  clientIdx : s'.counters.clientIdx = s.counters.clientIdx

section Delivered

variable {s s' : InnerServer} {e : Option Event} {c : ClientIdx} {i : SubIdx}
  {client client' : ConnectedClient} {more : List OutMessage}

theorem grows_of_same (hsame : client'.subOuput = client.subOuput) : Grows client client' :=
  fun ch h => ⟨ch, hsame ▸ h, fun h => h, fun _ h => h, fun h => h⟩

/-- The clients are those of before, up to one whose channel has grown. -/
theorem grows_insert (hc : s.clients.lookup c = some client) (hgrows : Grows client client') :
    ∀ c' client₁, (s.clients.insert c client').lookup c' = some client₁ →
      ∃ client₀, s.clients.lookup c' = some client₀ ∧ Grows client₀ client₁ := by
  intro c' client₁ h
  rw [KeyMap.lookup_insert] at h
  split_ifs at h with heq
  · subst heq
    cases h
    exact ⟨client, hc, hgrows⟩
  · exact ⟨client₁, h, grows_of_same rfl⟩

/-- A message put on an open channel. -/
theorem grows_send {ch : Outgoing} (hch : client.subOuput = some ch)
    (hsent : client'.subOuput = some { ch with sent := ch.sent ++ more })
    (hmore : Ordered ch.sent → Ordered (ch.sent ++ more)) : Grows client client' := by
  intro ch' hch'
  rw [hsent] at hch'
  cases hch'
  exact ⟨ch, hch, fun h => h, fun id h => h.append more, hmore⟩

theorem Hears.narrow {id : Int32} (h : Hears s i id) (hs : Narrows s s') : Hears s' i id := by
  intro sub c client' ch' hi hc hch' hopen
  obtain ⟨client, hc, hgrows⟩ := hs.clients c client' hc
  obtain ⟨ch, hch, hwas, hann, -⟩ := hgrows ch' hch'
  exact hann id (h sub c client ch (hs.subscriptions i _ hi) hc hch (hwas hopen))

theorem Delivered.narrow (h : Delivered s) (hs : Narrows s s') : Delivered s' where
  subs_client i sub c hi := by
    rw [hs.clientIdx]
    exact h.subs_client i sub c (hs.subscriptions i _ hi)
  subs_lt i hi := by
    obtain ⟨entry, hi⟩ := (KeyMap.mem_iff_lookup _ _).mp hi
    rw [hs.subIdx]
    exact h.subs_lt i ((KeyMap.mem_iff_lookup _ _).mpr ⟨entry, hs.subscriptions i entry hi⟩)
  queues_lt i hi := by
    obtain ⟨stored', hi⟩ := (KeyMap.mem_iff_lookup _ _).mp hi
    obtain ⟨stored, hi, -⟩ := hs.queues i stored' hi
    rw [hs.subIdx]
    exact h.queues_lt i ((KeyMap.mem_iff_lookup _ _).mpr ⟨stored, hi⟩)
  lists_lt t i hi := by
    rw [hs.subIdx]
    exact h.lists_lt t i (hs.lists t i hi)
  listed t i ht hi := (h.listed t i (hs.topics t i ht hi) (hs.lists t i hi)).narrow hs
  queued i stored' t hi hq := by
    obtain ⟨stored, hi, hold⟩ := hs.queues i stored' hi
    exact (h.queued i stored t hi (hold t hq)).narrow hs
  ordered ch' hch' := by
    rcases hch' with ⟨c, client', hc, hch'⟩ | ⟨client', hmem, hch'⟩
    · obtain ⟨client, hc, hgrows⟩ := hs.clients c client' hc
      obtain ⟨ch, hch, -, -, hord⟩ := hgrows ch' hch'
      exact hord (h.ordered ch (.inl ⟨c, client, hc, hch⟩))
    · rcases hs.departed client' hmem with hmem | ⟨c, client, hc, hsame⟩
      · exact h.ordered ch' (.inr ⟨client', hmem, hch'⟩)
      · rw [hsame] at hch'
        exact h.ordered ch' (.inl ⟨c, client, hc, hch'⟩)

/-- A change of one client, and of nothing else that matters here. -/
theorem narrows_client (hc : s.clients.lookup c = some client)
    (hs : s' = { s with clients := s.clients.insert c client' }) (hgrows : Grows client client') :
    Narrows s s' := by
  subst hs
  exact ⟨grows_insert hc hgrows, fun _ h => .inl h, fun _ _ h => h, fun _ _ h => h,
    fun _ _ h _ => h, fun i stored h => ⟨stored, h, fun _ h => h⟩, rfl, rfl⟩

theorem listed_withTopic {topic : Topic} {t : TopicIdx}
    (h : Listed (s.withTopic topic).topicSubMap t i) :
    t ≠ s.counters.topicIdx ∧ Listed s.topicSubMap t i := by
  obtain ⟨subs, hl, hmem⟩ := h
  simp only [InnerServer.withTopic, KeyMap.lookup_insert] at hl
  split_ifs at hl with ht
  · cases hl
    cases hmem
  · exact ⟨ht, subs, hl, hmem⟩

/-- What narrows, effect by effect. -/
theorem narrows_topics (hclients : s'.clients = s.clients) (hdeparted : s'.departed = s.departed)
    (hsubs : s'.subscriptions = s.subscriptions) (hqueues : s'.subValues = s.subValues)
    (hsub : s'.counters.subIdx = s.counters.subIdx)
    (hclient : s'.counters.clientIdx = s.counters.clientIdx)
    (hlists : ∀ t i, Listed s'.topicSubMap t i → Listed s.topicSubMap t i)
    (htopics : ∀ t i, t ∈ s'.topics → Listed s'.topicSubMap t i → t ∈ s.topics) :
    Narrows s s' := by
  refine ⟨fun c client h => ⟨client, hclients ▸ h, grows_of_same rfl⟩, fun _ h => .inl (hdeparted ▸ h),
    fun _ _ h => hsubs ▸ h, hlists, htopics, fun i stored h => ⟨stored, hqueues ▸ h, fun _ h => h⟩,
    hsub, hclient⟩

/-- A connecting client starts with an empty channel, and no subscription is its own yet. -/
theorem Delivered.clientConnected (h : Delivered s) {identity : ClientIdentity}
    (hclients : s'.clients = s.clients.insert s.counters.clientIdx (.new identity))
    (hdeparted : s'.departed = s.departed) (hsubs : s'.subscriptions = s.subscriptions)
    (hlists : s'.topicSubMap = s.topicSubMap) (htopics : s'.topics = s.topics)
    (hqueues : s'.subValues = s.subValues) (hsub : s'.counters.subIdx = s.counters.subIdx)
    (hidx : s'.counters.clientIdx.toNat = s.counters.clientIdx.toNat + 1) : Delivered s' := by
  have hears : ∀ i id, Hears s i id → Hears s' i id := by
    intro i id hi sub c client ch hentry hc hch hopen
    rw [hsubs] at hentry
    have hne : c ≠ s.counters.clientIdx := by
      rintro rfl
      exact (h.subs_client i sub _ hentry).false
    rw [hclients, KeyMap.lookup_insert, if_neg hne] at hc
    exact hi sub c client ch hentry hc hch hopen
  refine ⟨fun i sub c hi => ?_, ?_, ?_, ?_, fun t i ht hi => ?_, fun i stored t hi hq => ?_,
    fun ch hch => ?_⟩
  · rw [hsubs] at hi
    have hlt := h.subs_client i sub c hi
    omega
  · rw [hsubs, hsub]
    exact h.subs_lt
  · rw [hqueues, hsub]
    exact h.queues_lt
  · rw [hlists, hsub]
    exact h.lists_lt
  · rw [htopics] at ht
    rw [hlists] at hi
    exact hears i _ (h.listed t i ht hi)
  · rw [hqueues] at hi
    exact hears i _ (h.queued i stored t hi hq)
  · rcases hch with ⟨c, client, hc, hch⟩ | ⟨client, hmem, hch⟩
    · rw [hclients, KeyMap.lookup_insert] at hc
      split_ifs at hc
      · cases hc
        cases hch
        exact ordered_nil
      · exact h.ordered ch (.inl ⟨c, client, hc, hch⟩)
    · rw [hdeparted] at hmem
      exact h.ordered ch (.inr ⟨client, hmem, hch⟩)

/-- A value is only queued where its topic is announced. -/
theorem Delivered.valueQueued (h : Delivered s) {t : TopicIdx} {stored : StoredSubValue}
    {value : ServerSendableValue} (ht : t ∈ s.topics) (hlisted : Listed s.topicSubMap t i)
    (hstored : s.subValues.lookup i = some stored) :
    Delivered { s with subValues := s.subValues.insert i (stored.addValue t value) } where
  subs_client := h.subs_client
  subs_lt := h.subs_lt
  queues_lt j hj := by
    rcases (AList.mem_insert _).mp hj with rfl | hj
    · exact h.queues_lt j ((KeyMap.mem_iff_lookup _ _).mpr ⟨stored, hstored⟩)
    · exact h.queues_lt j hj
  lists_lt := h.lists_lt
  listed := h.listed
  queued j stored' u hj hq := by
    rw [KeyMap.lookup_insert] at hj
    split_ifs at hj with heq
    · subst heq
      cases hj
      obtain ⟨w, hw⟩ := List.exists_mem_of_ne_nil _ hq
      rcases StoredSubValue.mem_queued_addValue hw with ⟨rfl, -⟩ | hold
      · exact h.listed u j ht hlisted
      · exact h.queued j stored u hstored (List.ne_nil_of_mem hold)
    · exact h.queued j stored' u hj hq
  ordered := h.ordered

/-- A subscription that failed is listed, and has no client. -/
theorem Delivered.subscribeFailed (h : Delivered s) (ts : List TopicIdx)
    (hidx : (s.counters.subIdx + 1).toNat = s.counters.subIdx.toNat + 1) :
    Delivered { s with
      topicSubMap := pushAll s.counters.subIdx ts s.topicSubMap
      counters := { s.counters with subIdx := s.counters.subIdx + 1 } } where
  subs_client := h.subs_client
  subs_lt j hj := by
    have hlt := h.subs_lt j hj
    show j.toNat < (s.counters.subIdx + 1).toNat
    omega
  queues_lt j hj := by
    have hlt := h.queues_lt j hj
    show j.toNat < (s.counters.subIdx + 1).toNat
    omega
  lists_lt t j hj := by
    show j.toNat < (s.counters.subIdx + 1).toNat
    rcases listed_pushAll.mp hj with hj | ⟨-, rfl⟩
    · have hlt := h.lists_lt t j hj
      omega
    · omega
  listed t j ht hj := by
    rcases listed_pushAll.mp hj with hj | ⟨-, rfl⟩
    · exact h.listed t j ht hj
    · intro sub c client ch hentry
      exact (h.subs_lt _ ((KeyMap.mem_iff_lookup _ _).mpr ⟨_, hentry⟩)).false.elim
  queued := h.queued
  ordered := h.ordered

section Subscribed

variable {sub : Subscription} {now : Instant} {stored : StoredSubValue} {ts : List TopicIdx}
  {messages : List NTMessage} {frames : List ValueFrame}

/-- The client's end of a new subscription: the announcements, then the values. -/
def ConnectedClient.subscribed (client : ConnectedClient) (subuid : SubUID) (i : SubIdx)
    (messages : List NTMessage) (frames : List ValueFrame) : ConnectedClient :=
  { client with
    subuidToSubidx := client.subuidToSubidx.insert subuid i
    subOuput := client.subOuput.map fun ch => ch.append [.text messages, .binary frames] }

theorem announced_append {ch : Outgoing} {id : Int32} (hopen : ch.isOpen = true)
    (h : ∃ a, .announce a ∈ messages ∧ a.id = id) :
    Announced (ch.append [.text messages, .binary frames]).sent id := by
  obtain ⟨a, ha, hid⟩ := h
  rw [Outgoing.append, if_pos hopen]
  exact ⟨messages, a, by simp, ha, hid⟩

theorem isOpen_append (ch : Outgoing) (ms : List OutMessage) :
    (ch.append ms).isOpen = ch.isOpen := by
  unfold Outgoing.append
  split_ifs <;> rfl

theorem grows_subscribed {subuid : SubUID}
    (hframes : ∀ f ∈ frames, ∃ a, .announce a ∈ messages ∧ a.id = f.topicId) :
    Grows client (client.subscribed subuid i messages frames) := by
  intro ch' hch'
  obtain ⟨ch, hch, rfl⟩ := Option.map_eq_some_iff.mp hch'
  refine ⟨ch, hch, fun hopen => by rwa [isOpen_append] at hopen, ?_⟩
  unfold Outgoing.append
  split_ifs
  · refine ⟨fun id h => h.append _, fun hord => ?_⟩
    have htext : Ordered (ch.sent ++ [.text messages]) := hord.snoc fun frames' heq => by cases heq
    have hboth : Ordered (ch.sent ++ [.text messages] ++ [.binary frames]) := by
      refine htext.snoc fun frames' heq f hf => ?_
      cases heq
      obtain ⟨a, ha, hid⟩ := hframes f hf
      exact ⟨messages, a, by simp, ha, hid⟩
    rwa [List.append_assoc] at hboth
  · exact ⟨fun _ h => h, fun h => h⟩

/-- A subscription brings its announcements along. -/
theorem Delivered.subscribed (h : Delivered s) (hi : Identified s)
    (hc : s.clients.lookup c = some client) (hstored : stored = .newAll ∨ stored = .newOne)
    (htold : ∀ t ∈ ts, t ∈ s.topics → ∃ a, .announce a ∈ messages ∧ a.id = t.toInt32)
    (hframes : ∀ f ∈ frames, ∃ a, .announce a ∈ messages ∧ a.id = f.topicId)
    (hidx : (s.counters.subIdx + 1).toNat = s.counters.subIdx.toNat + 1) :
    Delivered { s with
      topicSubMap := pushAll s.counters.subIdx ts s.topicSubMap
      subSendTimestamps := s.subSendTimestamps.insert s.counters.subIdx now
      subValues := s.subValues.insert s.counters.subIdx stored
      subscriptions := s.subscriptions.insert s.counters.subIdx (sub, c)
      clients := s.clients.insert c
        (client.subscribed sub.subuid.toUInt32 s.counters.subIdx messages frames)
      counters := { s.counters with subIdx := s.counters.subIdx + 1 } } := by
  have hgrows : Grows client
      (client.subscribed sub.subuid.toUInt32 s.counters.subIdx messages frames) :=
    grows_subscribed hframes
  have hclients := grows_insert hc hgrows
  have hempty : ∀ t, stored.queued t = [] := by
    intro t
    rcases hstored with rfl | rfl <;> rfl
  -- an older subscription keeps its client, whose channel has grown at most
  have hears : ∀ j id, j ≠ s.counters.subIdx → Hears s j id → Hears { s with
      topicSubMap := pushAll s.counters.subIdx ts s.topicSubMap
      subSendTimestamps := s.subSendTimestamps.insert s.counters.subIdx now
      subValues := s.subValues.insert s.counters.subIdx stored
      subscriptions := s.subscriptions.insert s.counters.subIdx (sub, c)
      clients := s.clients.insert c
        (client.subscribed sub.subuid.toUInt32 s.counters.subIdx messages frames)
      counters := { s.counters with subIdx := s.counters.subIdx + 1 } } j id := by
    intro j id hj hold sub' c' client' ch' hentry hc' hch' hopen
    simp only [KeyMap.lookup_insert, if_neg hj] at hentry
    obtain ⟨client₀, hc₀, hgrows⟩ := hclients c' client' hc'
    obtain ⟨ch, hch, hwas, hann, -⟩ := hgrows ch' hch'
    exact hann id (hold sub' c' client₀ ch hentry hc₀ hch (hwas hopen))
  have hnew : ∀ j, j.toNat < s.counters.subIdx.toNat → j ≠ s.counters.subIdx := by
    rintro j hlt rfl
    exact hlt.false
  refine ⟨fun j sub' c' hj => ?_, fun j hj => ?_, fun j hj => ?_, fun t j hj => ?_,
    fun t j ht hj => ?_, fun j stored' t hj hq => ?_, fun ch hch => ?_⟩
  · rw [KeyMap.lookup_insert] at hj
    split_ifs at hj
    · cases hj
      exact hi.clients_lt c ((KeyMap.mem_iff_lookup _ _).mpr ⟨client, hc⟩)
    · exact h.subs_client j sub' c' hj
  · show j.toNat < (s.counters.subIdx + 1).toNat
    rcases (AList.mem_insert _).mp hj with rfl | hj
    · omega
    · have hlt := h.subs_lt j hj
      omega
  · show j.toNat < (s.counters.subIdx + 1).toNat
    rcases (AList.mem_insert _).mp hj with rfl | hj
    · omega
    · have hlt := h.queues_lt j hj
      omega
  · show j.toNat < (s.counters.subIdx + 1).toNat
    rcases listed_pushAll.mp hj with hj | ⟨-, rfl⟩
    · have hlt := h.lists_lt t j hj
      omega
    · omega
  · rcases listed_pushAll.mp hj with hj | ⟨hts, rfl⟩
    · exact hears j _ (hnew j (h.lists_lt t j hj)) (h.listed t j ht hj)
    · intro sub' c' client' ch' hentry hc' hch' hopen
      simp only [KeyMap.lookup_insert, if_pos] at hentry
      cases hentry
      simp only [KeyMap.lookup_insert, if_pos] at hc'
      cases hc'
      obtain ⟨ch, -, rfl⟩ := Option.map_eq_some_iff.mp hch'
      rw [isOpen_append] at hopen
      exact announced_append hopen (htold t hts ht)
  · rw [KeyMap.lookup_insert] at hj
    split_ifs at hj with heq
    · cases hj
      exact (hq (hempty t)).elim
    · exact hears j _ heq (h.queued j stored' t hj hq)
  · rcases hch with ⟨c', client', hc', hch⟩ | hdeparted
    · obtain ⟨client₀, hc₀, hgrows⟩ := hclients c' client' hc'
      obtain ⟨ch₀, hch₀, -, -, hord⟩ := hgrows ch hch
      exact hord (h.ordered ch₀ (.inl ⟨c', client₀, hc₀, hch₀⟩))
    · exact h.ordered ch (.inr hdeparted)

end Subscribed

theorem Delivered.step (h : Delivered s) (hi : Identified s) (he : Effect s e s')
    (hroom : Room (· ≠ .topic) s e.toList) : Delivered s' := by
  have hone : (1 : UInt32).toNat = 1 := rfl
  have hsubIdx : e = some .sub →
      (s.counters.subIdx + 1).toNat = s.counters.subIdx.toNat + 1 := by
    rintro rfl
    have hlt : s.counters.subIdx.toNat + 1 < 2 ^ 32 := hroom .sub (by decide)
    rw [UInt32.toNat_add, hone]
    omega
  have hclientIdx : e = some .client →
      (s.counters.clientIdx + 1).toNat = s.counters.clientIdx.toNat + 1 := by
    rintro rfl
    have hlt : s.counters.clientIdx.toNat + 1 < 2 ^ 32 := hroom .client (by decide)
    rw [UInt32.toNat_add, hone]
    omega
  cases he with
  | clientConnected identity =>
    exact h.clientConnected rfl rfl rfl rfl rfl rfl rfl (hclientIdx rfl)
  | subscribed sub now stored interest messages frames hc _ _ hstored _ htold hframes =>
    have hnew : stored = .newAll ∨ stored = .newOne := by
      rw [hstored]
      split_ifs
      · exact .inl rfl
      · exact .inr rfl
    refine h.subscribed hi hc hnew (fun t ht hpresent => ?_) hframes (hsubIdx rfl)
    obtain ⟨entry, hentry, rfl⟩ := List.mem_map.mp ht
    exact htold entry hentry hpresent
  | subscribeFailed ts => exact h.subscribeFailed ts (hsubIdx rfl)
  | valueQueued value ht hnormal hsubs hmem hstored =>
    exact h.valueQueued ((KeyMap.mem_iff_lookup _ _).mpr ⟨_, ht⟩) ⟨_, hsubs, hmem⟩ hstored
  | topicAdded topic =>
    apply h.narrow
    refine narrows_topics rfl rfl rfl rfl rfl rfl (fun t i hi => (listed_withTopic hi).2)
      fun t i ht hi => ?_
    exact ((AList.mem_insert _).mp ht).resolve_left (listed_withTopic hi).1
  | topicRemoved =>
    apply h.narrow
    refine narrows_topics rfl rfl rfl rfl rfl rfl (fun t i hi => ?_) fun t i ht _ => ?_
    · exact (listed_erase.mp (listed_erase.mp (listed_erase.mp hi).2).2).2
    · exact (AList.mem_erase.mp (AList.mem_erase.mp (AList.mem_erase.mp ht).2).2).2
  | topicLost | topicHalfLost =>
    apply h.narrow
    exact narrows_topics rfl rfl rfl rfl rfl rfl (fun _ _ hi => hi)
      fun _ _ ht _ => (AList.mem_erase.mp ht).2
  | propertiesSet properties ht =>
    apply h.narrow
    refine narrows_topics rfl rfl rfl rfl rfl rfl (fun _ _ hi => hi) fun u i hu _ => ?_
    rcases (AList.mem_insert _).mp hu with rfl | hu
    · exact (KeyMap.mem_iff_lookup _ _).mpr ⟨_, ht⟩
    · exact hu
  | registered _ hc | unregistered _ hc | marked _ hc =>
    apply h.narrow
    exact narrows_client hc rfl (grows_of_same rfl)
  | told messages hc hch =>
    apply h.narrow
    refine narrows_client hc rfl (grows_send hch rfl fun hord => hord.snoc fun frames heq => ?_)
    cases heq
  | flushed hc hch =>
    apply h.narrow
    refine narrows_client hc rfl (grows_send hch rfl fun hord => hord.snoc fun frames heq => ?_)
    cases heq
  | closed hc =>
    apply h.narrow
    refine narrows_client hc rfl fun ch' hch' => ?_
    obtain ⟨ch, hch, rfl⟩ := Option.map_eq_some_iff.mp hch'
    refine ⟨ch, hch, fun hopen => ?_, fun _ h => h, fun h => h⟩
    cases hopen
  | clientLeft hident hc =>
    apply h.narrow
    refine ⟨fun c' client' h => ?_, fun client' h => ?_, fun _ _ h => h, fun _ _ h => h,
      fun _ _ h _ => h, fun i stored h => ⟨stored, h, fun _ h => h⟩, rfl, rfl⟩
    · simp only [InnerServer.withoutClient, KeyMap.lookup_erase] at h
      split_ifs at h
      exact ⟨client', h, grows_of_same rfl⟩
    · rcases List.mem_cons.mp h with rfl | h
      · exact .inr ⟨_, _, hc, rfl⟩
      · exact .inl h
  | unsubscribed subuid hc =>
    apply h.narrow
    refine ⟨grows_insert hc (grows_of_same rfl), fun _ h => .inl h, fun j entry h => ?_,
      fun t j h => (listed_filter.mp h).2, fun _ _ h _ => h, fun j stored h => ?_, rfl, rfl⟩
    · rw [KeyMap.lookup_erase] at h
      split_ifs at h
      exact h
    · rw [KeyMap.lookup_erase] at h
      split_ifs at h
      exact ⟨stored, h, fun _ h => h⟩
  | @batchesDropped i sub c client stored hi hc hstored =>
    apply h.narrow
    refine ⟨fun c client h => ⟨client, h, grows_of_same rfl⟩, fun _ h => .inl h, fun _ _ h => h,
      fun _ _ h => h, fun _ _ h _ => h, fun j stored' h => ?_, rfl, rfl⟩
    rw [KeyMap.lookup_insert] at h
    split_ifs at h with hj
    · subst hj
      cases h
      exact ⟨stored, hstored, fun t ht => (ht (StoredSubValue.queued_takeValues stored t)).elim⟩
    · exact ⟨stored', h, fun _ h => h⟩
  | @batchesSent i sub c client ch stored batches hi hc hch hopen hstored hbatches =>
    apply h.narrow
    refine ⟨grows_insert hc (grows_send hch rfl fun hord => ?_), fun _ h => .inl h, fun _ _ h => h,
      fun _ _ h => h, fun _ _ h _ => h, fun j stored' h => ?_, rfl, rfl⟩
    · have hall : ∀ frames ∈ batches.map batchFrames, ∀ f ∈ frames,
          Announced ch.sent f.topicId := by
        intro frames hframes f hf
        obtain ⟨b, hb, rfl⟩ := List.mem_map.mp hframes
        have hqueued := StoredSubValue.mem_takeValues (hbatches.mem_iff.mp hb)
        obtain ⟨v, hv, rfl⟩ := List.mem_map.mp hf
        refine h.queued i stored b.1 hstored ?_ sub c client ch hi hc hch hopen
        rw [← hqueued]
        exact List.ne_nil_of_mem hv
      have hvalues := hord.append_values (batches.map batchFrames) hall
      rwa [List.map_map] at hvalues
    · rw [KeyMap.lookup_insert] at h
      split_ifs at h with hj
      · subst hj
        cases h
        exact ⟨stored, hstored, fun t ht => (ht (StoredSubValue.queued_takeValues stored t)).elim⟩
      · exact ⟨stored', h, fun _ h => h⟩
  | _ =>
    apply h.narrow
    exact narrows_topics rfl rfl rfl rfl rfl rfl (fun _ _ h => h) fun _ _ h _ => h

theorem delivered_booted : Delivered booted := by
  refine ⟨fun i sub c hi => ?_, fun i hi => ?_, fun i hi => ?_, fun t i hi => ?_, fun t i ht => ?_,
    fun i stored t hi => ?_, fun ch hch => ?_⟩
  · cases hi
  · exact (AList.notMem_empty i hi).elim
  · exact (AList.notMem_empty i hi).elim
  · obtain ⟨subs, hl, -⟩ := hi
    cases hl
  · exact (AList.notMem_empty t ht).elim
  · cases hi
  · rcases hch with ⟨c, client, hc, hch⟩ | ⟨client, hmem, -⟩
    · simp only [booted, KeyMap.lookup_insert] at hc
      split_ifs at hc
      · cases hc
        cases hch
      · cases hc
    · cases hmem

theorem delivered_of_effects {es : List Event} (hes : Effects s es s')
    (hroom : Room (· ≠ .topic) s es) (h : Identified s ∧ Delivered s) :
    Identified s' ∧ Delivered s' := by
  refine hes.invariant_of_room (fun s => Identified s ∧ Delivered s) (fun _ => True)
    (fun _ _ => trivial) hroom (fun s e s' he _ hroom h => ?_) h
  have hclient : Room (· = .client) s e.toList := by
    rintro k rfl
    exact hroom .client (by decide)
  exact ⟨h.1.step he hclient, h.2.step h.1 he hroom⟩

/-- In a run that creates fewer than 2^32 subscriptions and connections, on every channel a value
message comes after an announcement of its topic. -/
theorem announced_before_value {u : Kind → Nat} (run : Runs u s) (hsub : u .sub < 2 ^ 32)
    (hclient : u .client < 2 ^ 32) : ∀ ch, s.Channel ch → Ordered ch.sent := by
  have hboth : Identified s ∧ Delivered s := by
    refine run.induct (· ≠ .topic) (fun s => Identified s ∧ Delivered s) ?_ ?_ ?_
    · intro k hk
      cases k with
      | topic => exact (hk rfl).elim
      | sub => exact hsub
      | client => exact hclient
    · intro es s hes _ hroom
      exact delivered_of_effects hes hroom ⟨identified_booted, delivered_booted⟩
    · intro s op es s' hes _ hroom _ _ hs
      exact delivered_of_effects hes hroom hs
  exact hboth.2.ordered

end Delivered

/-- A clock on which every subscription is due. -/
def lateClock : SendClock := ⟨fun _ => 1, fun _ => 1, fun _ => 1⟩

/-- A client subscribes to a topic, and gets a value of it. -/
def subscribeAndSend : List Op :=
  [.innerPublishTopic ⟨"n", 0, "int", none⟩ serverClientIdx,
    .connectClient ⟨.v4 10 0 0 2 5810, "a"⟩, .subscribe ⟨0, {"n"}, none⟩ 1 0,
    .setValue ⟨7, ⟨.int, .integer 1⟩⟩ 3, .sendOut lateClock 0]

theorem announced_subscribeAndSend :
    ∃ s client ch, stateAfter anyOp .stored subscribeAndSend = some s ∧
      s.clients.lookup 1 = some client ∧ client.subOuput = some ch ∧ ch.sent.length = 3 ∧
      Ordered ch.sent := by
  have hrun : (stateAfter anyOp .stored subscribeAndSend).bind (fun s =>
      (s.clients.lookup 1).bind fun client => client.subOuput.map fun ch => ch.sent.length) =
      some 3 := by decide +kernel
  obtain ⟨s, hs, hview⟩ := Option.bind_eq_some_iff.mp hrun
  obtain ⟨client, hc, hview⟩ := Option.bind_eq_some_iff.mp hview
  obtain ⟨ch, hch, hlen⟩ := Option.map_eq_some_iff.mp hview
  obtain ⟨u, run, hu⟩ := runWhere_stateAfter (fun _ _ _ => trivial) hs
  have hsub : u .sub < 2 ^ 32 := (hu .sub).trans_lt (by decide)
  have hclient : u .client < 2 ^ 32 := (hu .client).trans_lt (by decide)
  exact ⟨s, client, ch, hs, hc, hch, hlen,
    announced_before_value run hsub hclient ch (.inl ⟨1, client, hc, hch⟩)⟩

end NetTables.Server
