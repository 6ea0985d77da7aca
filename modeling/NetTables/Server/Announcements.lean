import NetTables.Server.Isolation
import Mathlib.Data.Finset.Lattice.Lemmas
import Mathlib.Logic.Relation

namespace NetTables.Server

open Lib Lib.Fallible Spec

/-- The messages of one text. -/
def OutMessage.texts : OutMessage → List NTMessage
  | .text messages => messages
  | _ => []

/-- The messages put on a channel, oldest first. -/
def Outgoing.told (ch : Outgoing) : List NTMessage := ch.sent.flatMap OutMessage.texts

def ConnectedClient.told (client : ConnectedClient) : List NTMessage :=
  match client.subOuput with
  | some ch => ch.told
  | none => []

/-- The messages put on the channel of a connected client. -/
def InnerServer.toldTo (s : InnerServer) (c : ClientIdx) : List NTMessage :=
  match s.clients.lookup c with
  | some client => client.told
  | none => []

/-- `set_value` writes two tables. -/
theorem within_setValue_of {R : InnerServer → InnerServer → Prop} [IsPreorder InnerServer R]
    {value : FrcTimestampedValue} {t : TopicIdx}
    (hput : ∀ (s : InnerServer) subValues topicValueMap, R s { s with subValues, topicValueMap }) :
    Within R (setValue value t) := by
  apply within_bind within_get
  intro s
  apply within_bind (within_okOr _ _)
  intro topic
  split_ifs
  · exact within_throw _
  · apply within_bind within_get
    intro s
    apply within_bind (within_unwrapOr _ _)
    intro subs
    apply within_bind
    · apply within_forEach
      intro i _
      apply within_bind within_get
      intro s
      apply within_bind (within_unwrapOr _ _)
      exact fun _ => within_modify fun s => hput s _ s.topicValueMap
    · intro _
      apply within_bind within_get
      intro s
      cases s.topicValueMap.lookup t with
      | none => exact within_modify fun s => hput s s.subValues _
      | some oldValue =>
        dsimp only
        split_ifs
        · exact within_modify fun s => hput s s.subValues _
        · exact within_pure ()

/-- A relation that allows what the server does about subscriptions and values: to change their
tables, and to send the values. -/
class Serves (R : InnerServer → InnerServer → Prop) : Prop extends IsPreorder InnerServer R where
  elsewhere : ∀ s s', s'.clients = s.clients → s'.metatopicValueMap = s.metatopicValueMap →
    s'.clientMetatopicMap = s.clientMetatopicMap → R s s'
  subscribers : ∀ s c client subs, s.clients.lookup c = some client →
    R s { s with clients := s.clients.insert c { client with subuidToSubidx := subs } }
  binary : ∀ s c client ch frames, s.clients.lookup c = some client →
    client.subOuput = some ch → ch.isOpen = true →
    R s { s with
      clients := s.clients.insert c
        { client with subOuput := some { ch with sent := ch.sent ++ [.binary frames] } } }

section Serves

variable {R : InnerServer → InnerServer → Prop} [Serves R] {s : InnerServer} {o : IterOrder}
  {t : TopicIdx} {c : ClientIdx}

theorem within_elsewhere {f : InnerServer → InnerServer} (hf : ∀ s, (f s).clients = s.clients)
    (hvalues : ∀ s, (f s).metatopicValueMap = s.metatopicValueMap)
    (howns : ∀ s, (f s).clientMetatopicMap = s.clientMetatopicMap) :
    Within R (modify f : ServerM Unit) :=
  within_modify fun s => Serves.elsewhere s (f s) (hf s) (hvalues s) (howns s)

theorem within_sendBinary {frames : List ValueFrame} : Within R (sendBinary c frames) := by
  intro s
  apply ends_sendOn
  · exact fun _ => refl_of R s
  · intro client ch hc hch hopen
    exact Serves.binary s c client ch frames hc hch hopen

theorem within_unsubscribe {unsub : Unsubscribe} : Within R (unsubscribe unsub c) := by
  intro s
  simp only [unsubscribe, ends_bind, ends_get, thenEnds_ok, ends_okOr, thenEnds_error, ends_modify,
    putClient]
  refine ⟨fun client hc => ⟨fun i _ => ?_, fun _ => refl_of R s⟩, fun _ => refl_of R s⟩
  have hput := Serves.subscribers (R := R) s c client
    (client.subuidToSubidx.removeByLeft unsub.subuid.toUInt32) hc
  apply trans_of R hput
  exact Serves.elsewhere _ _ rfl rfl rfl

theorem within_setValue {value : FrcTimestampedValue} : Within R (setValue value t) :=
  within_setValue_of fun s _ _ => Serves.elsewhere s _ rfl rfl rfl

theorem within_encodeBatch {batch : TopicIdx × List ServerSendableValue} :
    Within R (encodeBatch batch) := by
  apply within_foldEach
  intro buf value
  apply within_bind (within_unwrapOr _ _)
  intro id
  cases value
  exact within_pure _

theorem within_sendOut {clock : SendClock} {offset : ℚ} : Within R (sendOut o clock offset) := by
  apply within_bind within_get
  intro s
  apply within_foldEach
  intro offset entry
  unfold sendTurn
  dsimp only
  split_ifs
  · exact within_pure _
  · apply within_bind within_get
    intro s
    apply within_bind (within_unwrapOr _ _)
    intro since
    split_ifs
    · exact within_pure _
    · apply within_bind
      · exact within_elsewhere (fun _ => rfl) (fun _ => rfl) fun _ => rfl
      intro _
      apply within_bind within_get
      intro s
      cases s.clients.lookup entry.2.2 with
      | none => exact within_pure _
      | some client =>
        apply within_bind within_get
        intro s
        apply within_bind (within_unwrapOr _ _)
        intro stored
        apply within_bind
        · exact within_elsewhere (fun _ => rfl) (fun _ => rfl) fun _ => rfl
        intro _
        apply within_bind
        · apply within_forEach
          intro batch _
          exact within_bind within_encodeBatch fun _ => within_attempt within_sendBinary
        · exact fun _ => within_pure _

end Serves

/-- A relation about the connected clients alone, that looks at the set of announced topics and at
the texts of a client only. -/
class Speaks (R : InnerServer → InnerServer → Prop) : Prop extends Notifies R where
  clients : ∀ s s', s'.clients = s.clients → R s s'
  recorded : ∀ s c client client', s.clients.lookup c = some client →
    client'.subOuput = client.subOuput → client'.announcedTopics = client.announcedTopics →
    R s { s with clients := s.clients.insert c client' }
  joined : ∀ s named, R s (s.withClient named)
  left : ∀ s c client, R s { s with
    clients := s.clients.erase c
    departed := client :: s.departed }
  binary : ∀ s c client ch frames, s.clients.lookup c = some client →
    client.subOuput = some ch → ch.isOpen = true →
    R s { s with
      clients := s.clients.insert c
        { client with subOuput := some { ch with sent := ch.sent ++ [.binary frames] } } }

instance {R : InnerServer → InnerServer → Prop} [Speaks R] : Serves R where
  elsewhere s s' hclients _ _ := Speaks.clients s s' hclients
  subscribers s c client _ hc := Speaks.recorded s c client _ hc rfl rfl
  binary := Speaks.binary

section Speaks

variable {R : InnerServer → InnerServer → Prop} [Speaks R] {s : InnerServer} {o : IterOrder}
  {t : TopicIdx} {c : ClientIdx}

/-- The operations that announce and retract topics on their own. -/
def Op.Speaks : Op → Prop
  | .subscribe _ _ _ | .unAnnounceTopics _ _ => True
  | _ => False

theorem within_perform (op : Op) (hop : ¬op.Speaks) : Within R (op.perform o) := by
  cases op with
  | connectClient identity => exact within_ignoring (within_connectClient Speaks.joined)
  | disconnectClient ident =>
    exact within_disconnectClient (fun u => Speaks.clients u _ rfl) Speaks.left
  | innerPublishTopic pubTopic c =>
    exact within_ignoring (within_innerPublishTopic fun s client t hc =>
      Speaks.recorded s c client _ hc rfl rfl)
  | innerUnpublishTopic pubTopic c =>
    exact within_innerUnpublishTopic fun s client hc => Speaks.recorded s c client _ hc rfl rfl
  | unsubscribe unsub c => exact within_unsubscribe
  | setProperties msg => exact within_setProperties
  | setValue value t => exact within_setValue
  | announceTopic t responseOpt => exact within_announceTopic
  | announceAllTopicsFor i => exact within_announceAllTopicsFor
  | flushAll => exact within_flushAll
  | flushClient c => exact within_flushClient
  | sendOut clock offset => exact within_ignoring within_sendOut
  | closeChannel c => exact within_closeChannel
  | subscribe | unAnnounceTopics => exact (hop trivial).elim

/-- `try_new` does nothing after its own client but to add topics. -/
theorem Init.within (h : Init s) : R booted s := by
  obtain ⟨o, hx⟩ := h
  have hrest : Within R (addTopic o (.newMeta "$clients") >>= fun _ =>
      addTopic o (.newMeta "$serversub") >>= fun _ =>
      addTopic o (.newMeta "$serverpub") >>= fun _ => (pure () : ServerM Unit)) := by
    apply within_bind within_addTopic
    intro _
    apply within_bind within_addTopic
    intro _
    exact within_bind within_addTopic fun _ => within_pure ()
  have hends : Ends (tryNew o) {} fun _ s => R booted s := by
    simp only [tryNew, ends_bind, ends_get, thenEnds_ok, ends_modify, putClient,
      Counter.nextClientIdx]
    exact (ends_bind _ _).mp (hrest booted)
  exact ends_of_exec hends hx

end Speaks

section Subscribe

variable {s : InnerServer} {o : IterOrder} {c : ClientIdx} {sub : Subscribe} {now : Instant}

/-- The announcements that `subscribe` makes of the topics of interest. -/
def subscribeAnnounces (s : InnerServer) (topics : List (String × TopicIdx)) : List Announce :=
  topics.filterMap fun e => (subscribeType s e.1 e.2).map (subscribeAnnounce s e.1 e.2)

/-- The topics that a subscription cares about. -/
def interestOf (o : IterOrder) (s : InnerServer) (sub : Subscribe) : List (String × TopicIdx) :=
  (o.walk s.topicMap).filter fun e =>
    (⟨sub.subuid, sub.topics, sub.options⟩ : Subscription).caresAbout e.1

/-- The loop of `subscribe` once it is through with `topics`. -/
structure Walked (s : InnerServer) (topics : List (String × TopicIdx))
    (acc : List NTMessage × List ValueFrame) (u : InnerServer) : Prop where
  state : ∃ lists, u = { s with topicSubMap := lists }
  keys : ∀ t, t ∈ u.topicSubMap ↔ t ∈ s.topicSubMap
  lists : ∀ e ∈ topics, e.2 ∈ s.topicSubMap
  messages : acc.1 = (subscribeAnnounces s topics).map .announce

theorem ends_subscribeTopic_walked {i : SubIdx} {topics : List (String × TopicIdx)}
    {acc : List NTMessage × List ValueFrame} {u : InnerServer} {e : String × TopicIdx}
    (h : Walked s topics acc u) :
    Ends (subscribeTopic i acc e) u fun r u' =>
      match r with
      | .ok acc' => Walked s (topics ++ [e]) acc' u'
      | .error _ => u'.clients = s.clients := by
  obtain ⟨lists, rfl⟩ := h.state
  simp only [subscribeTopic, ends_bind, ends_get, thenEnds_ok, ends_okOr, thenEnds_error,
    ends_modify]
  refine ⟨fun vectr hv => ?_, fun _ => trivial⟩
  have hmem : e.2 ∈ s.topicSubMap := (h.keys e.2).mp ((KeyMap.mem_iff_lookup _ _).mpr ⟨vectr, hv⟩)
  have hkeys : ∀ t, t ∈ lists.insert e.2 (vectr ++ [i]) ↔ t ∈ s.topicSubMap := by
    intro t
    rw [AList.mem_insert, or_iff_right_of_imp]
    · exact h.keys t
    · rintro rfl
      exact (h.keys e.2).mpr hmem
  have hlists : ∀ f ∈ topics ++ [e], f.2 ∈ s.topicSubMap :=
    List.forall_mem_append.mpr ⟨h.lists, List.forall_mem_singleton.mpr hmem⟩
  have hsame : subscribeType { s with topicSubMap := lists } e.1 e.2 = subscribeType s e.1 e.2 := rfl
  rw [hsame]
  cases htype : subscribeType s e.1 e.2 with
  | none =>
    refine (ends_pure _).mpr ⟨⟨_, rfl⟩, hkeys, hlists, ?_⟩
    rw [h.messages, subscribeAnnounces, subscribeAnnounces, List.filterMap_append]
    simp [htype]
  | some type =>
    refine (ends_pure _).mpr ⟨⟨_, rfl⟩, hkeys, hlists, ?_⟩
    rw [h.messages, subscribeAnnounces, subscribeAnnounces, List.filterMap_append]
    simp [htype, subscribeAnnounce]

/-- What `subscribe` does to the clients: nothing, or it announces all topics of interest to one. -/
structure Subscribes (o : IterOrder) (s : InnerServer) (sub : Subscribe) (c : ClientIdx)
    (client : ConnectedClient) (s' : InnerServer) : Prop where
  found : s.clients.lookup c = some client
  lists : ∀ e ∈ interestOf o s sub, e.2 ∈ s.topicSubMap
  clients : ∃ subs frames, s'.clients = s.clients.insert c { client with
    subuidToSubidx := subs
    subOuput := client.subOuput.map fun ch =>
      ch.append [.text ((subscribeAnnounces s (interestOf o s sub)).map .announce), .binary frames] }

theorem ends_subscribe_announces :
    Ends (subscribe o sub c now) s fun _ s' =>
      s'.clients = s.clients ∨ ∃ client, Subscribes o s sub c client s' := by
  simp only [subscribe, ends_bind, ends_get, thenEnds_ok, ends_okOr, thenEnds_error, ends_modify,
    Counter.nextSubIdx]
  refine ⟨fun client hc => ?_, fun _ => .inl trivial⟩
  let s₁ : InnerServer := { s with counters := { s.counters with subIdx := s.counters.subIdx + 1 } }
  have hloop := ends_foldEach
    (fun rest acc u => ∃ topics, topics ++ rest = interestOf o s sub ∧ Walked s₁ topics acc u)
    (fun _ u => u.clients = s.clients) (subscribeTopic s.counters.subIdx) (by
      intro e rest acc u h
      obtain ⟨topics, happ, hu⟩ := h
      refine ends_mono (ends_subscribeTopic_walked hu) ?_
      intro r u' hu'
      cases r with
      | error err => exact hu'
      | ok acc' => exact ⟨topics ++ [e], by simpa using happ, hu'⟩)
    (interestOf o s sub) ([], []) s₁ ⟨[], rfl, ⟨_, rfl⟩, fun _ => Iff.rfl, by simp, rfl⟩
  refine ends_mono hloop ?_
  intro r u hu
  cases r with
  | error err => exact .inl hu
  | ok acc =>
    obtain ⟨messages, frames⟩ := acc
    obtain ⟨topics, happ, hu⟩ := hu
    rw [List.append_nil] at happ
    subst happ
    obtain ⟨lists, rfl⟩ := hu.state
    have hmessages : messages = (subscribeAnnounces s (interestOf o s sub)).map .announce :=
      hu.messages
    subst hmessages
    simp only [thenEnds_ok, ends_bind, ends_modify, putClient]
    rw [← ends_bind]
    exact ends_sendBoth rfl (.inr ⟨client, hc, hu.lists, _, frames, rfl⟩)

end Subscribe

section Told

variable {s s' : InnerServer} {c : ClientIdx} {client client' : ConnectedClient} {ch : Outgoing}

theorem toldTo_insert (hclients : s'.clients = s.clients.insert c client') (d : ClientIdx) :
    s'.toldTo d = if d = c then client'.told else s.toldTo d := by
  simp only [InnerServer.toldTo, hclients, KeyMap.lookup_insert]
  split_ifs <;> rfl

theorem toldTo_of_client (hc : s.clients.lookup c = some client) : s.toldTo c = client.told := by
  rw [InnerServer.toldTo, hc]

theorem told_of_channel (hch : client.subOuput = some ch) : client.told = ch.told := by
  rw [ConnectedClient.told, hch]

theorem Outgoing.told_append (ch : Outgoing) (ms : List OutMessage) :
    ({ ch with sent := ch.sent ++ ms } : Outgoing).told =
      ch.told ++ ms.flatMap OutMessage.texts := by
  rw [Outgoing.told, Outgoing.told, List.flatMap_append]

theorem told_closed (client : ConnectedClient) :
    ({ client with subOuput := client.subOuput.map fun ch => { ch with isOpen := false } } :
      ConnectedClient).told = client.told := by
  cases hch : client.subOuput <;> simp [ConnectedClient.told, hch, Outgoing.told]

/-- No client is told any more that the topic of `u` is gone. -/
def NotRetracted (u : UnAnnounce) (s s' : InnerServer) : Prop :=
  ∀ c, (s'.toldTo c).count (.unAnnounce u) ≤ (s.toldTo c).count (.unAnnounce u)

variable {u : UnAnnounce}

theorem notRetracted_put (hc : s.clients.lookup c = some client)
    (hclients : s'.clients = s.clients.insert c client')
    (htold : client'.told.count (.unAnnounce u) ≤ client.told.count (.unAnnounce u)) :
    NotRetracted u s s' := by
  intro d
  rw [toldTo_insert hclients]
  split_ifs with hd
  · rw [hd, toldTo_of_client hc]
    exact htold
  · exact le_rfl

theorem count_announces (announces : List Announce) :
    (announces.map NTMessage.announce).count (.unAnnounce u) = 0 := by
  apply List.count_eq_zero_of_not_mem
  intro h
  obtain ⟨a, -, ha⟩ := List.mem_map.mp h
  cases ha

/-- More messages on an open channel, none of which retracts the topic. -/
theorem notRetracted_send {announcedTopics : Finset TopicIdx} {ms : List OutMessage}
    (hc : s.clients.lookup c = some client) (hch : client.subOuput = some ch)
    (hms : (ms.flatMap OutMessage.texts).count (.unAnnounce u) = 0) :
    NotRetracted u s { s with
      clients := s.clients.insert c { client with
        announcedTopics, subOuput := some { ch with sent := ch.sent ++ ms } } } := by
  apply notRetracted_put hc rfl
  rw [told_of_channel rfl, told_of_channel hch, Outgoing.told_append, List.count_append, hms]
  exact le_rfl

instance : Speaks (NotRetracted u) where
  refl _ _ := le_rfl
  trans _ _ _ h h' c := (h' c).trans (h c)
  tables s s' hclients _ _ _ _ _ _ c := by
    rw [InnerServer.toldTo, InnerServer.toldTo, hclients]
  announced s c client ch ts announces hc hch _ _ := by
    apply notRetracted_send hc hch
    simp [OutMessage.texts, count_announces]
  deaf s c client _ hc _ := notRetracted_put hc rfl le_rfl
  flushed s c client ch hc hch _ := notRetracted_send hc hch rfl
  closed s c client hc := notRetracted_put hc rfl (by rw [told_closed])
  metatopics _ _ _ _ := le_rfl
  clients s s' hclients c := by
    rw [InnerServer.toldTo, InnerServer.toldTo, hclients]
  recorded s c client client' hc hch _ := by
    apply notRetracted_put hc rfl
    rw [ConnectedClient.told, hch, ConnectedClient.told]
  joined s named c := by
    have hclients : (s.withClient named).clients =
        s.clients.insert s.counters.clientIdx (.new named) := rfl
    rw [toldTo_insert hclients]
    split_ifs
    · exact Nat.zero_le _
    · exact le_rfl
  left s c client d := by
    simp only [InnerServer.toldTo, KeyMap.lookup_erase]
    split_ifs
    · exact Nat.zero_le _
    · exact le_rfl
  binary s c client ch frames hc hch _ := notRetracted_send hc hch rfl

theorem told_append (client : ConnectedClient) (ms : List OutMessage) :
    ({ client with subOuput := client.subOuput.map fun ch => ch.append ms } :
      ConnectedClient).told =
        client.told ++ if client.subOuput.any Outgoing.isOpen then ms.flatMap OutMessage.texts
          else [] := by
  cases hch : client.subOuput with
  | none => simp [ConnectedClient.told, hch]
  | some ch =>
    cases hopen : ch.isOpen <;>
      simp [ConnectedClient.told, hch, Outgoing.append, hopen, Outgoing.told]

theorem NotRetracted.subscribe {o : IterOrder} {sub : Subscribe}
    (h : Subscribes o s sub c client s') : NotRetracted u s s' := by
  obtain ⟨subs, frames, hclients⟩ := h.clients
  apply notRetracted_put h.found hclients
  have hnone : (([.text ((subscribeAnnounces s (interestOf o s sub)).map .announce),
      .binary frames] : List OutMessage).flatMap OutMessage.texts).count (.unAnnounce u) = 0 := by
    simp [OutMessage.texts, count_announces]
  have htold := told_append { client with subuidToSubidx := subs }
    [.text ((subscribeAnnounces s (interestOf o s sub)).map .announce), .binary frames]
  rw [htold, List.count_append]
  split_ifs
  · rw [hnone]
    exact le_rfl
  · exact le_rfl

/-- Nothing but `un_announce_topics` tells clients that a topic is gone. -/
theorem NotRetracted.step {op : Op} (h : Step s op s')
    (hop : op ≠ .unAnnounceTopics u.name u.id) : NotRetracted u s s' := by
  obtain ⟨o, r, hx⟩ := h
  cases op with
  | subscribe sub c now =>
    rcases ends_of_exec ends_subscribe_announces hx with hclients | ⟨client, h⟩
    · exact Speaks.clients s s' hclients
    · exact NotRetracted.subscribe h
  | unAnnounceTopics name t =>
    have hwithin : Within (NotRetracted u) (unAnnounceTopics o name t) := by
      apply within_unAnnounceTopics
      intro c s client ch hc hch _
      apply notRetracted_send hc hch
      have hne : (⟨name, t⟩ : UnAnnounce) ≠ u := by
        rintro rfl
        exact hop rfl
      simp [OutMessage.texts, hne]
    exact ends_of_exec (hwithin s) hx
  | _ => exact ends_of_exec (within_perform _ id s) hx

/-- A step by which a client with an open channel loses a topic it was told of. -/
structure LosesTopic (s : InnerServer) (op : Op) (s' : InnerServer) (c : ClientIdx)
    (t : TopicIdx) (topic : Topic) : Prop where
  reachable : Reachable s
  step : Step s op s'
  withdraws : op.Withdraws
  listens : ∃ client ch, s.clients.lookup c = some client ∧ client.subOuput = some ch ∧
    ch.isOpen = true ∧ Announced ch.sent t.toInt32
  topic : s.topics.lookup t = some topic
  gone : s'.topics.lookup t = none

/-- Any number of completed operations, each of them one of `P`. -/
def LeadsTo (P : Op → Prop) : InnerServer → InnerServer → Prop :=
  Relation.ReflTransGen fun s s' => ∃ op, P op ∧ Step s op s'

/-- The client is not told that the topic is gone, neither by the operation that removes it nor by
any later one, as long as nobody calls `un_announce_topics` for it. No code does. -/
theorem removal_is_not_announced {op : Op} {t : TopicIdx} {topic : Topic} {s'' : InnerServer}
    (h : LosesTopic s op s' c t topic)
    (later : LeadsTo (· ≠ .unAnnounceTopics topic.name t) s' s'') :
    (s''.toldTo c).count (.unAnnounce ⟨topic.name, t⟩) ≤
      (s.toldTo c).count (.unAnnounce ⟨topic.name, t⟩) := by
  have hwithdraws : op ≠ .unAnnounceTopics topic.name t := by
    rintro rfl
    exact h.withdraws
  have hfirst : NotRetracted ⟨topic.name, t⟩ s s' := NotRetracted.step h.step hwithdraws
  have hrest : NotRetracted ⟨topic.name, t⟩ s' s'' := by
    induction later with
    | refl => exact refl_of (NotRetracted _) _
    | tail _ hlast ih =>
      obtain ⟨op', hop', hstep⟩ := hlast
      exact trans_of (NotRetracted _) ih (NotRetracted.step hstep hop')
  exact (hrest c).trans (hfirst c)

theorem announced_of_told {id : Int32} {a : Announce} (ha : .announce a ∈ ch.told)
    (hid : a.id = id) : Announced ch.sent id := by
  obtain ⟨m, hm, hmem⟩ := List.mem_flatMap.mp ha
  cases m with
  | text messages => exact ⟨messages, a, hm, hmem, hid⟩
  | binary | flush => cases hmem

/-- One client publishes a topic that another one has subscribed to. -/
def publishToListener : List Op :=
  [.connectClient ⟨.v4 10 0 0 2 5810, "a"⟩, .connectClient ⟨.v4 10 0 0 3 5810, "b"⟩,
    .subscribe ⟨0, {"x"}, none⟩ 2 0, .innerPublishTopic ⟨"x", 0, "int", none⟩ 1]

/-- The publisher takes the topic back, and the listener has been told of nothing else. -/
theorem losesTopic_publishToListener :
    ∃ s s', LosesTopic s (.innerUnpublishTopic ⟨0⟩ 1) s' 2 7 ⟨"x", "int", none⟩ ∧
      s'.toldTo 2 = [.announce ⟨"x", 7, "int", none, {}⟩] := by
  have hrun : (stateAfter anyOp .stored publishToListener).bind (fun s =>
      (stateAfter anyOp .stored (publishToListener ++ [.innerUnpublishTopic ⟨0⟩ 1])).bind fun s' =>
        (s.clients.lookup 2).bind fun client => client.subOuput.map fun ch =>
          (ch.isOpen, ch.told, s.topics.lookup 7, s'.topics.lookup 7, s'.toldTo 2)) =
      some (true, [.announce ⟨"x", 7, "int", none, {}⟩], some ⟨"x", "int", none⟩, none,
        [.announce ⟨"x", 7, "int", none, {}⟩]) := by decide +kernel
  obtain ⟨s, hs, hview⟩ := Option.bind_eq_some_iff.mp hrun
  obtain ⟨s', hs', hview⟩ := Option.bind_eq_some_iff.mp hview
  obtain ⟨client, hc, hview⟩ := Option.bind_eq_some_iff.mp hview
  obtain ⟨ch, hch, hview⟩ := Option.map_eq_some_iff.mp hview
  simp only [Prod.mk.injEq] at hview
  obtain ⟨hopen, htold, htopic, hgone, htold'⟩ := hview
  have hheard : Announced ch.sent 7 :=
    announced_of_told (a := ⟨"x", 7, "int", none, {}⟩) (by simp [htold]) rfl
  exact ⟨s, s', ⟨reachable_stateAfter hs, step_of_stateAfter hs hs', trivial,
    ⟨client, ch, hc, hch, hopen, hheard⟩, htopic, hgone⟩, htold'⟩

theorem removal_is_not_announced_to_listener :
    ∃ s s', LosesTopic s (.innerUnpublishTopic ⟨0⟩ 1) s' 2 7 ⟨"x", "int", none⟩ ∧
      (s'.toldTo 2).count (.unAnnounce ⟨"x", 7⟩) ≤
        (s.toldTo 2).count (.unAnnounce ⟨"x", 7⟩) := by
  obtain ⟨s, s', h, -⟩ := losesTopic_publishToListener
  exact ⟨s, s', h, removal_is_not_announced h .refl⟩

theorem listener_not_told_of_removal :
    ¬∀ s op s' c t topic, LosesTopic s op s' c t topic →
      .unAnnounce ⟨topic.name, t⟩ ∈ s'.toldTo c := by
  intro h
  obtain ⟨s, s', hloses, htold⟩ := losesTopic_publishToListener
  have hmem := h s _ s' 2 7 _ hloses
  rw [htold] at hmem
  cases hmem with
  | tail _ hmem => cases hmem

end Told

section Mirrored

variable {s s' : InnerServer} {c : ClientIdx} {client client' : ConnectedClient} {ch : Outgoing}

/-- The topics a client knows of after one more message. -/
def replayOne (known : Finset TopicIdx) : NTMessage → Finset TopicIdx
  | .announce a => insert a.id.toUInt32 known
  | .unAnnounce u => known.erase u.id
  | _ => known

/-- The topics a client knows of after these messages. -/
def replay (messages : List NTMessage) : Finset TopicIdx := messages.foldl replayOne ∅

theorem replay_snoc (messages : List NTMessage) (m : NTMessage) :
    replay (messages ++ [m]) = replayOne (replay messages) m := by
  rw [replay, List.foldl_append, List.foldl_cons, List.foldl_nil, replay]

theorem replay_announces (messages : List NTMessage) (announces : List Announce) :
    replay (messages ++ announces.map .announce) =
      replay messages ∪ (announces.map fun a => a.id.toUInt32).toFinset := by
  induction announces generalizing messages with
  | nil => simp
  | cons a announces ih =>
    have hsplit : messages ++ (a :: announces).map .announce =
        (messages ++ [.announce a]) ++ announces.map .announce := by simp
    rw [hsplit, ih, replay_snoc, replayOne, List.map_cons, List.toFinset_cons,
      Finset.insert_union_comm]

/-- The ids of announcements are the indices of their topics. -/
theorem ids_toUInt32 {announces : List Announce} {ts : List TopicIdx}
    (hids : announces.map Announce.id = ts.map UInt32.toInt32) :
    (announces.map fun a => a.id.toUInt32) = ts := by
  have hback := congrArg (List.map Int32.toUInt32) hids
  simpa [List.map_map, Function.comp_def] using hback

/-- As long as its channel is open, the server's set of announced topics is what a client knows. -/
def ConnectedClient.Mirrors (client : ConnectedClient) : Prop :=
  ∀ ch, client.subOuput = some ch → ch.isOpen = true → client.announcedTopics = replay ch.told

def Mirrored (s : InnerServer) : Prop := ∀ c client, s.clients.lookup c = some client → client.Mirrors

theorem Mirrored.put (h : Mirrored s) (hclients : s'.clients = s.clients.insert c client')
    (hclient : client'.Mirrors) : Mirrored s' := by
  intro d client hd
  rw [hclients, KeyMap.lookup_insert] at hd
  split_ifs at hd
  · cases hd
    exact hclient
  · exact h d client hd

/-- Keeping the mirror, as a relation. -/
def KeepsMirrored (s s' : InnerServer) : Prop := Mirrored s → Mirrored s'

theorem keepsMirrored_send {announcedTopics : Finset TopicIdx} {m : OutMessage}
    (hc : s.clients.lookup c = some client) (hch : client.subOuput = some ch)
    (hopen : ch.isOpen = true)
    (hm : client.announcedTopics = replay ch.told →
      announcedTopics = replay (ch.told ++ m.texts)) :
    KeepsMirrored s { s with
      clients := s.clients.insert c { client with
        announcedTopics, subOuput := some { ch with sent := ch.sent ++ [m] } } } := by
  intro h
  apply h.put rfl
  intro ch' hch' _
  cases hch'
  rw [Outgoing.told_append, List.flatMap_cons, List.flatMap_nil, List.append_nil]
  exact hm (h c client hc ch hch hopen)

instance : Speaks KeepsMirrored where
  refl _ h := h
  trans _ _ _ h h' hs := h' (h hs)
  tables s s' hclients _ _ _ _ _ _ h := by
    rw [Mirrored, hclients]
    exact h
  announced s c client ch ts announces hc hch hopen hids := by
    apply keepsMirrored_send hc hch hopen
    intro hsame
    rw [OutMessage.texts, replay_announces, ids_toUInt32 hids, hsame]
  deaf s c client announcedTopics hc hclosed h := by
    apply h.put rfl
    intro ch hch hopen
    rw [hclosed ch hch] at hopen
    cases hopen
  flushed s c client ch hc hch hopen := by
    apply keepsMirrored_send hc hch hopen
    intro hsame
    rw [hsame]
    exact congrArg replay (List.append_nil _).symm
  closed s c client hc h := by
    apply h.put rfl
    intro ch hch hopen
    obtain ⟨ch₀, -, rfl⟩ := Option.map_eq_some_iff.mp hch
    cases hopen
  metatopics _ _ _ h := h
  clients s s' hclients h := by
    rw [Mirrored, hclients]
    exact h
  recorded s c client client' hc hch hknown h := by
    apply h.put rfl
    intro ch hch' hopen
    rw [hknown]
    exact h c client hc ch (hch ▸ hch') hopen
  joined s named h := by
    apply h.put rfl
    intro ch hch _
    cases hch
    rfl
  left s c client h d client' hd := by
    simp only [KeyMap.lookup_erase] at hd
    split_ifs at hd
    exact h d client' hd
  binary s c client ch frames hc hch hopen := by
    apply keepsMirrored_send hc hch hopen
    intro hsame
    rw [hsame]
    exact congrArg replay (List.append_nil _).symm

/-- A subscription announces only what the server has noted as announced already. -/
def AnnouncesKnown (s : InnerServer) : Op → Prop
  | .subscribe sub c _ => Subscribable s c sub → ∀ client ch, s.clients.lookup c = some client →
      client.subOuput = some ch → ch.isOpen = true →
      ∀ name t, s.topicMap.lookup name = some t →
        (⟨sub.subuid, sub.topics, sub.options⟩ : Subscription).caresAbout name = true →
        (subscribeType s name t).isSome → t ∈ client.announcedTopics
  | _ => True

theorem mem_interestOf {o : IterOrder} {sub : Subscribe} {e : String × TopicIdx} :
    e ∈ interestOf o s sub ↔ s.topicMap.lookup e.1 = some e.2 ∧
      (⟨sub.subuid, sub.topics, sub.options⟩ : Subscription).caresAbout e.1 = true := by
  rw [interestOf, List.mem_filter, o.mem_walk]

theorem Subscribes.subscribable {o : IterOrder} {sub : Subscribe}
    (h : Subscribes o s sub c client s') : Subscribable s c sub := by
  refine ⟨(KeyMap.mem_iff_lookup _ _).mpr ⟨client, h.found⟩, fun name t hname hcares => ?_⟩
  exact h.lists (name, t) (mem_interestOf.mpr ⟨hname, hcares⟩)

/-- What `subscribe` announces, by index. -/
theorem mem_subscribeAnnounces {o : IterOrder} {sub : Subscribe} {t : TopicIdx} :
    t ∈ ((subscribeAnnounces s (interestOf o s sub)).map fun a => a.id.toUInt32) ↔
      ∃ name, s.topicMap.lookup name = some t ∧
        (⟨sub.subuid, sub.topics, sub.options⟩ : Subscription).caresAbout name = true ∧
        (subscribeType s name t).isSome := by
  constructor
  · intro ht
    obtain ⟨a, ha, rfl⟩ := List.mem_map.mp ht
    obtain ⟨e, he, hannounce⟩ := List.mem_filterMap.mp ha
    obtain ⟨type, htype, rfl⟩ := Option.map_eq_some_iff.mp hannounce
    obtain ⟨hname, hcares⟩ := mem_interestOf.mp he
    exact ⟨e.1, hname, hcares, Option.isSome_iff_exists.mpr ⟨type, htype⟩⟩
  · intro h
    obtain ⟨name, hname, hcares, hsome⟩ := h
    obtain ⟨type, htype⟩ := Option.isSome_iff_exists.mp hsome
    refine List.mem_map.mpr ⟨subscribeAnnounce s name t type, List.mem_filterMap.mpr
      ⟨(name, t), mem_interestOf.mpr ⟨hname, hcares⟩, ?_⟩, UInt32.toUInt32_toInt32 t⟩
    rw [htype]
    rfl

theorem Mirrored.subscribe {o : IterOrder} {sub : Subscribe} {now : Instant} (hs : Mirrored s)
    (h : Subscribes o s sub c client s') (hknown : AnnouncesKnown s (.subscribe sub c now)) :
    Mirrored s' := by
  obtain ⟨subs, frames, hclients⟩ := h.clients
  apply hs.put hclients
  intro ch' hch' hopen'
  obtain ⟨ch, hch, rfl⟩ := Option.map_eq_some_iff.mp hch'
  have hopen : ch.isOpen = true := by
    unfold Outgoing.append at hopen'
    split_ifs at hopen'
    all_goals exact hopen'
  have htold : (ch.append [.text ((subscribeAnnounces s (interestOf o s sub)).map .announce),
      .binary frames]).told =
        ch.told ++ (subscribeAnnounces s (interestOf o s sub)).map .announce := by
    simp [Outgoing.append, hopen, Outgoing.told, OutMessage.texts]
  have hold : ((subscribeAnnounces s (interestOf o s sub)).map fun a => a.id.toUInt32).toFinset ⊆
      client.announcedTopics := by
    intro t ht
    obtain ⟨name, hname, hcares, htype⟩ := mem_subscribeAnnounces.mp (List.mem_toFinset.mp ht)
    exact hknown h.subscribable client ch h.found hch hopen name t hname hcares htype
  rw [htold, replay_announces, ← hs c client h.found ch hch hopen]
  exact (Finset.union_eq_left.mpr hold).symm

theorem Mirrored.step {op : Op} (hs : Mirrored s) (h : Step s op s') (hop : AnnouncesKnown s op) :
    Mirrored s' := by
  obtain ⟨o, r, hx⟩ := h
  cases op with
  | subscribe sub c now =>
    rcases ends_of_exec ends_subscribe_announces hx with hclients | ⟨client, h⟩
    · rw [Mirrored, hclients]
      exact hs
    · exact hs.subscribe h hop
  | unAnnounceTopics name t =>
    have hwithin : Within KeepsMirrored (unAnnounceTopics o name t) := by
      apply within_unAnnounceTopics
      intro c s client ch hc hch hopen
      apply keepsMirrored_send hc hch hopen
      intro hsame
      rw [OutMessage.texts, replay_snoc, replayOne, hsame]
    exact ends_of_exec (hwithin s) hx hs
  | _ => exact ends_of_exec (within_perform (R := KeepsMirrored) _ id s) hx hs

/-- The server's own client has no channel. -/
theorem mirrored_booted : Mirrored booted := by
  intro c client hc ch hch
  have hempty : (∅ : KeyMap ClientIdx ConnectedClient).lookup c = none := AList.lookup_empty c
  simp only [booted, KeyMap.lookup_insert, hempty] at hc
  split_ifs at hc
  cases hc
  cases hch

/-- In a run whose subscriptions announce only what has been noted as announced, the server knows
what each client with an open channel knows. -/
theorem mirrors_announcements {u : Kind → Nat} (run : RunWhere AnnouncesKnown u s)
    (hc : s.clients.lookup c = some client) (hch : client.subOuput = some ch)
    (hopen : ch.isOpen = true) : client.announcedTopics = replay ch.told := by
  have hmirrored : Mirrored s := by
    apply run.invariant fun _ s => Mirrored s
    · intro s hs
      exact hs.within (R := KeepsMirrored) mirrored_booted
    · intro u s op t _ hs hop hstep
      exact hs.step hstep hop
  exact hmirrored c client hc ch hch hopen

/-- A subscription that cares about no topic there is. -/
def subscribesAhead (s : InnerServer) : Op → Bool
  | .subscribe sub _ _ => s.topicMap.pairs.all fun e =>
      !(⟨sub.subuid, sub.topics, sub.options⟩ : Subscription).caresAbout e.1
  | _ => true

theorem announcesKnown_of_subscribesAhead (s : InnerServer) (op : Op)
    (h : subscribesAhead s op = true) : AnnouncesKnown s op := by
  cases op with
  | subscribe sub c now =>
    intro _ client ch _ _ _ name t hname hcares _
    have hnot := List.all_eq_true.mp h (name, t) ((KeyMap.mem_pairs _ _ _).mpr hname)
    rw [hcares] at hnot
    cases hnot
  | _ => trivial

theorem mirrors_publishToListener :
    ∃ s client ch, stateAfter subscribesAhead .stored publishToListener = some s ∧
      s.clients.lookup 2 = some client ∧ client.subOuput = some ch ∧ ch.isOpen = true ∧
      client.announcedTopics = replay ch.told := by
  have hrun : (stateAfter subscribesAhead .stored publishToListener).bind (fun s =>
      (s.clients.lookup 2).bind fun client => client.subOuput.map Outgoing.isOpen) = some true := by
    decide +kernel
  obtain ⟨s, hs, hview⟩ := Option.bind_eq_some_iff.mp hrun
  obtain ⟨client, hc, hview⟩ := Option.bind_eq_some_iff.mp hview
  obtain ⟨ch, hch, hopen⟩ := Option.map_eq_some_iff.mp hview
  obtain ⟨u, run, -⟩ := runWhere_stateAfter announcesKnown_of_subscribesAhead hs
  exact ⟨s, client, ch, hs, hc, hch, hopen, mirrors_announcements run hc hch hopen⟩

/-- `subscribe` announces what it finds and does not note it. -/
theorem subscribe_forgets_announcement :
    ¬∀ s, Reachable s → ∀ c client ch, s.clients.lookup c = some client →
      client.subOuput = some ch → ch.isOpen = true → client.announcedTopics = replay ch.told := by
  intro h
  have hrun : (stateAfter anyOp .stored subscribeAndSend).bind (fun s =>
      (s.clients.lookup 1).bind fun client => client.subOuput.map fun ch =>
        (ch.isOpen, decide (client.announcedTopics = replay ch.told))) = some (true, false) := by
    decide +kernel
  obtain ⟨s, hs, hview⟩ := Option.bind_eq_some_iff.mp hrun
  obtain ⟨client, hc, hview⟩ := Option.bind_eq_some_iff.mp hview
  obtain ⟨ch, hch, hview⟩ := Option.map_eq_some_iff.mp hview
  simp only [Prod.mk.injEq] at hview
  exact of_decide_eq_false hview.2 (h s (reachable_stateAfter hs) 1 client ch hc hch hview.1)

end Mirrored

end NetTables.Server
