import NetTables.Server.Quiet

namespace NetTables.Server

open Lib Lib.Fallible Spec

variable {P : Event → Prop} {s s' : InnerServer} {o : IterOrder} {topic : Topic} {t : TopicIdx}
  {c : ClientIdx}

/-- Without removals the name map only grows. -/
theorem Does.lookup_topicMap {n : Nat} (h : Does P n s s') (hp : ∀ t how, ¬P (.gone t how))
    {name : String} {t : TopicIdx} (hn : s.topicMap.lookup name = some t) :
    s'.topicMap.lookup name = some t := by
  obtain ⟨es, hes, hall, -⟩ := h
  refine hes.invariant (fun u => u.topicMap.lookup name = some t) P hall ?_ hn
  intro u e u' he hpe hu
  cases he with
  | topicAdded topic hfresh =>
    simp only [InnerServer.withTopic, KeyMap.lookup_insert]
    split_ifs with h
    · subst h; rw [hfresh] at hu; cases hu
    · exact hu
  | topicRemoved | topicLost | topicHalfLost => exact (hp _ _ (hpe _ rfl)).elim
  | _ => exact hu

theorem ends_insertTopic {Q : Except NetworkTablesError TopicIdx → InnerServer → Prop} :
    Ends (insertTopic topic) s Q ↔ Q (.ok s.counters.topicIdx) (s.withTopic topic) := by
  simp only [insertTopic, Counter.nextTopicIdx, ends_bind, ends_get, thenEnds_ok, ends_modify,
    ends_pure, InnerServer.withTopic]

/-- The index under a name, and the server once there is one. -/
def ensureTopic (s : InnerServer) (topic : Topic) : TopicIdx × InnerServer :=
  match s.topicMap.lookup topic.name with
  | some t => (t, s)
  | none => (s.counters.topicIdx, s.withTopic topic)

theorem does_ensureTopic (hp : P (.topic topic.name)) : Does P 1 s (ensureTopic s topic).2 := by
  unfold ensureTopic
  split
  · exact (Quiet.refl s).does.mono (Nat.zero_le 1) fun _ h => h
  next h =>
    refine .one (.topicAdded topic h) fun a ha => ?_
    cases ha
    exact hp

theorem lookup_ensureTopic (s : InnerServer) (topic : Topic) :
    (ensureTopic s topic).2.topicMap.lookup topic.name = some (ensureTopic s topic).1 := by
  unfold ensureTopic
  split
  next h => exact h
  · simp [InnerServer.withTopic]

theorem ends_addMetaTopic {Q : Except NetworkTablesError TopicIdx → InnerServer → Prop} :
    Ends (addMetaTopic topic) s Q ↔
      Q (.ok (ensureTopic s topic).1) (ensureTopic s topic).2 := by
  simp only [addMetaTopic, ends_bind, ends_get, thenEnds_ok, ensureTopic]
  cases s.topicMap.lookup topic.name with
  | none => exact ends_insertTopic
  | some t => exact ends_pure t

/-- A name with a `$` takes no metatopics, and its topic is announced to nobody. -/
theorem ends_addTopic_of_hasDollar
    {Q : Except NetworkTablesError TopicIdx → InnerServer → Prop}
    (hd : hasDollar topic.name = true) :
    Ends (addTopic o topic) s Q ↔ Q (.ok (ensureTopic s topic).1) (ensureTopic s topic).2 := by
  simp only [addTopic, ends_bind, ends_get, thenEnds_ok, ensureTopic]
  cases s.topicMap.lookup topic.name with
  | none =>
    simp only [ends_bind, ends_insertTopic, thenEnds_ok, hd, if_true]
    exact ends_pure _
  | some t => exact ends_pure t

/-- Whatever its outcome, `add_topic` leaves an index under the name: the one that was there, or else
the next one. -/
theorem does_addTopic
    (hp : s.topicMap.lookup topic.name = none → P (.topic topic.name))
    (hmeta : s.topicMap.lookup topic.name = none → hasDollar topic.name = false →
      P (.topic (metaPubName topic.name)) ∧ P (.topic (metaSubName topic.name)))
    (hgone : ∀ t how, ¬P (.gone t how)) :
    Ends (addTopic o topic) s fun r s' =>
      Does P 3 s s' ∧ s'.topicMap.lookup topic.name = some (ensureTopic s topic).1 ∧
        ∀ t, r = .ok t → t = (ensureTopic s topic).1 := by
  simp only [addTopic, ends_bind, ends_get, thenEnds_ok]
  cases hmap : s.topicMap.lookup topic.name with
  | some t =>
    have hindex : (ensureTopic s topic).1 = t := by
      rw [ensureTopic, hmap]
    rw [hindex]
    refine (ends_pure t).mpr ⟨(Quiet.refl s).does.mono (by omega) fun _ h => h, hmap, fun u hu => ?_⟩
    cases hu
    rfl
  | none =>
    have hindex : (ensureTopic s topic).1 = s.counters.topicIdx := by
      rw [ensureTopic, hmap]
    rw [hindex]
    have hadd : Does P 1 s (s.withTopic topic) := by
      refine .one (.topicAdded topic hmap) fun a ha => ?_
      cases ha
      exact hp hmap
    have hname : (s.withTopic topic).topicMap.lookup topic.name = some s.counters.topicIdx := by
      simp [InnerServer.withTopic]
    simp only [ends_bind, ends_insertTopic, thenEnds_ok]
    split_ifs with hd
    · refine (ends_pure _).mpr ⟨hadd.mono (by omega) fun _ h => h, hname, fun t ht => ?_⟩
      cases ht
      rfl
    · obtain ⟨hpub, hsub⟩ := hmeta hmap (by simpa using hd)
      simp only [ends_bind, ends_addMetaTopic, thenEnds_ok]
      refine ends_mono quiet_announceTopic ?_
      intro r s₂ hq₂
      have h₂ : Does P 1 (s.withTopic topic) s₂ := (does_ensureTopic hpub).trans hq₂.does
      cases r with
      | error e =>
        exact ⟨(hadd.trans h₂).mono (by omega) fun _ h => h, h₂.lookup_topicMap hgone hname,
          fun t ht => by cases ht⟩
      | ok =>
        refine (thenEnds_ok _ _ _).mpr ((ends_bind _ _).mpr (ends_addMetaTopic.mpr ?_))
        refine (ends_bind _ _).mpr (ends_mono quiet_announceTopic ?_)
        intro r s₃ hq₃
        have h₃ : Does P 2 (s.withTopic topic) s₃ :=
          (h₂.trans (does_ensureTopic hsub)).trans hq₃.does
        have hname₃ := h₃.lookup_topicMap hgone hname
        cases r with
        | error e => exact ⟨hadd.trans h₃, hname₃, fun t ht => by cases ht⟩
        | ok =>
          refine (ends_pure _).mpr ⟨hadd.trans h₃, hname₃, fun t ht => ?_⟩
          cases ht
          rfl

/-- The writes of `connect_client` that come before its metatopics. -/
def InnerServer.withClient (s : InnerServer) (identity : ClientIdentity) : InnerServer :=
  { s with
    clients := s.clients.insert s.counters.clientIdx (.new identity)
    clientMap := s.clientMap.insert identity s.counters.clientIdx
    counters := { s.counters with clientIdx := s.counters.clientIdx + 1 } }

/-- A connecting client's entry in the list of clients. -/
def InnerServer.withClientEntry (s : InnerServer) (identity : ClientIdentity) : InnerServer :=
  { s with
    metatopicValueMap := s.metatopicValueMap.insert clientMetatopic
      (((s.metatopicValueMap.lookup clientMetatopic).getD (.client [])).merge
        (.client [identity.toMte])) }

/-- The two metatopics of a client of this name. -/
def ensureOwnMetatopics (s : InnerServer) (name : String) : (TopicIdx × TopicIdx) × InnerServer :=
  let pub := ensureTopic s (.newMeta (clientPubName name))
  let sub := ensureTopic pub.2 (.newMeta (clientSubName name))
  ((pub.1, sub.1), sub.2)

/-- The server after a successful `connect_client`. -/
def InnerServer.connected (s : InnerServer) (identity : ClientIdentity) : InnerServer :=
  let own := ensureOwnMetatopics ((s.withClient identity).withClientEntry identity) identity.name
  { own.2 with
    clientMetatopicMap := own.2.clientMetatopicMap.insert s.counters.clientIdx own.1 }

theorem ends_connectClient {identity : ClientIdentity}
    {Q : Except NetworkTablesError (ClientIdentity × ClientIdx) → InnerServer → Prop} :
    Ends (connectClient o identity) s Q ↔
      if (s.clientMap.lookup identity).isSome then
        Q (.error (.serverError (.clientAlreadyExists identity.display))) s
      else
        Q (.ok (uniqueIdentity s identity, s.counters.clientIdx))
          (s.connected (uniqueIdentity s identity)) := by
  simp only [connectClient, ends_bind, ends_get, thenEnds_ok]
  split_ifs with h
  · exact ends_throw _
  · simp only [Counter.nextClientIdx, putClient, updateMetaValue, ends_bind, ends_get, thenEnds_ok,
      ends_modify, ends_pure, ends_addTopic_of_hasDollar, Topic.newMeta, hasDollar_clientPubName,
      hasDollar_clientSubName]
    rfl

/-- A new topic and a new client do not get in each other's way. -/
theorem ensureTopic_withClient (s : InnerServer) (identity : ClientIdentity) (topic : Topic) :
    ensureTopic (s.withClient identity) topic =
      ((ensureTopic s topic).1, (ensureTopic s topic).2.withClient identity) := by
  simp only [ensureTopic, InnerServer.withClient]
  cases s.topicMap.lookup topic.name <;> rfl

theorem ensureTopic_clients (s : InnerServer) (topic : Topic) :
    (ensureTopic s topic).2.clients = s.clients := by
  unfold ensureTopic
  split <;> rfl

theorem ensureTopic_clientMap (s : InnerServer) (topic : Topic) :
    (ensureTopic s topic).2.clientMap = s.clientMap := by
  unfold ensureTopic
  split <;> rfl

theorem clientIdx_ensureTopic (s : InnerServer) (topic : Topic) :
    (ensureTopic s topic).2.counters.clientIdx = s.counters.clientIdx := by
  unfold ensureTopic
  split <;> rfl

theorem connected_eq (s : InnerServer) (identity : ClientIdentity) :
    s.connected identity =
      let own := ensureOwnMetatopics (s.withClientEntry identity) identity.name
      { own.2.withClient identity with
        clientMetatopicMap := own.2.clientMetatopicMap.insert own.2.counters.clientIdx own.1 } := by
  have hswap : (s.withClient identity).withClientEntry identity =
      (s.withClientEntry identity).withClient identity := rfl
  have hidx : s.counters.clientIdx = (s.withClientEntry identity).counters.clientIdx := rfl
  simp only [InnerServer.connected, ensureOwnMetatopics, hswap, ensureTopic_withClient,
    clientIdx_ensureTopic, hidx]
  rfl

theorem connected_clients (s : InnerServer) (identity : ClientIdentity) :
    (s.connected identity).clients = s.clients.insert s.counters.clientIdx (.new identity) :=
  (ensureTopic_clients _ _).trans (ensureTopic_clients _ _)

theorem connected_clientMap (s : InnerServer) (identity : ClientIdentity) :
    (s.connected identity).clientMap = s.clientMap.insert identity s.counters.clientIdx :=
  (ensureTopic_clientMap _ _).trans (ensureTopic_clientMap _ _)

/-- The effects of a client's metatopics. -/
theorem does_ownMetatopics {name : String} (hpub : P (.topic (clientPubName name)))
    (hsub : P (.topic (clientSubName name))) : Does P 2 s (ensureOwnMetatopics s name).2 :=
  (does_ensureTopic hpub).trans (does_ensureTopic hsub)

/-- The names of a client's metatopics lead to its own. -/
theorem lookup_ownMetatopics (s : InnerServer) (name : String) :
    (ensureOwnMetatopics s name).2.topicMap.lookup (clientPubName name) =
      some (ensureOwnMetatopics s name).1.1 ∧
    (ensureOwnMetatopics s name).2.topicMap.lookup (clientSubName name) =
      some (ensureOwnMetatopics s name).1.2 := by
  let pub := ensureTopic s (.newMeta (clientPubName name))
  have hsub : Does (fun a => ∃ n, a = .topic n) 1 pub.2
      (ensureTopic pub.2 (.newMeta (clientSubName name))).2 :=
    does_ensureTopic ⟨_, rfl⟩
  refine ⟨hsub.lookup_topicMap (fun t how h => ?_)
      (lookup_ensureTopic s (.newMeta (clientPubName name))),
    lookup_ensureTopic pub.2 (.newMeta (clientSubName name))⟩
  obtain ⟨n, h⟩ := h
  cases h

/-- The client itself, once its metatopics are there. -/
theorem effect_connected (s : InnerServer) (identity : ClientIdentity) :
    Effect (ensureOwnMetatopics (s.withClientEntry identity) identity.name).2 (some .client)
      (s.connected identity) := by
  obtain ⟨hp, hq⟩ := lookup_ownMetatopics (s.withClientEntry identity) identity.name
  rw [connected_eq]
  exact .clientConnected identity hp hq

/-- The effects of connecting, the client itself last. -/
theorem does_connected {identity : ClientIdentity} (hclient : P .client)
    (hpub : P (.topic (clientPubName identity.name)))
    (hsub : P (.topic (clientSubName identity.name))) : Does P 3 s (s.connected identity) := by
  have hentry : Does P 0 s (s.withClientEntry identity) := (Quiet.one (.metaValueSet _)).does
  refine (hentry.trans (does_ownMetatopics hpub hsub)).trans
    (.one (effect_connected s identity) fun a ha => ?_)
  cases ha
  exact hclient

theorem ends_removeTopic {Q : Except NetworkTablesError Unit → InnerServer → Prop} :
    Ends (removeTopic t) s Q ↔
      (s.topics.lookup t = none → Q (.error (topicMissing t "removed")) s) ∧
      ∀ topic, s.topics.lookup t = some topic →
        (s.topicMap.lookup (metaPubName topic.name) = none →
          Q (.error (metatopicMissing t)) { s with topics := s.topics.erase t }) ∧
        ∀ p, s.topicMap.lookup (metaPubName topic.name) = some p →
          (s.topicMap.lookup (metaSubName topic.name) = none →
            Q (.error (metatopicMissing t)) { s with
              topics := s.topics.erase t
              topicMap := s.topicMap.erase (metaPubName topic.name) }) ∧
          ∀ q, s.topicMap.lookup (metaSubName topic.name) = some q →
            Q (.ok ()) (s.withoutTopic t topic.name p q) := by
  have hne : ∀ name, metaSubName name ≠ metaPubName name :=
    fun name => (metaPubName_ne_metaSubName name name).symm
  simp only [removeTopic, ends_bind, ends_get, thenEnds_ok, ends_okOr, thenEnds_error, ends_modify,
    KeyMap.lookup_erase, hne, if_false]
  rw [and_comm]
  refine and_congr Iff.rfl (forall₂_congr fun topic _ => ?_)
  rw [and_comm]
  refine and_congr Iff.rfl (forall₂_congr fun p _ => ?_)
  rw [and_comm]
  exact and_congr Iff.rfl (forall₂_congr fun q _ => Iff.rfl)

/-- An effect that takes no index. -/
theorem does_event {a : Event} (hp : P a) (hfree : ∀ k, a.takes k = false)
    (he : Effect s (some a) s') : Does P 0 s s' := by
  apply Does.free he
  intro b hb
  cases hb
  exact ⟨hp, hfree⟩

theorem does_removeTopic (hp : ∀ how, P (.gone t how)) :
    Ends (removeTopic t) s fun r s' =>
      Does P 0 s s' ∧ (r = .ok () → s'.topics.lookup t = none) := by
  refine ends_removeTopic.mpr ⟨fun _ => ⟨(Quiet.refl s).does, fun h => by cases h⟩, ?_⟩
  intro topic ht
  refine ⟨fun hpub => ⟨?_, fun h => by cases h⟩, fun p hpub => ⟨fun hsub => ⟨?_, ?_⟩, ?_⟩⟩
  · exact does_event (hp .noPub) (fun _ => rfl) (.topicLost ht hpub)
  · exact does_event (hp .noSub) (fun _ => rfl) (.topicHalfLost ht hpub hsub)
  · intro h; cases h
  · intro q hsub
    refine ⟨does_event (hp .whole) (fun _ => rfl) (.topicRemoved ht hpub hsub), fun _ => ?_⟩
    simp [InnerServer.withoutTopic]

theorem ends_updatePublishers_values {f : MetaTopicValue → MetaTopicValue → MetaTopicValue}
    {pubMte : ClientPublisherMTE} :
    Ends (updatePublishers c f pubMte) s fun _ s' =>
      ∃ values, s' = { s with metatopicValueMap := values } := by
  unfold updatePublishers
  split_ifs
  · exact (ends_modify _).mpr ⟨_, rfl⟩
  · simp only [ends_bind, ends_get, thenEnds_ok, ends_okOr, thenEnds_error]
    exact ⟨fun own _ => (ends_modify _).mpr ⟨_, rfl⟩, fun _ => ⟨_, rfl⟩⟩

theorem quiet_updatePublishers {f : MetaTopicValue → MetaTopicValue → MetaTopicValue}
    {pubMte : ClientPublisherMTE} :
    Ends (updatePublishers c f pubMte) s fun _ s' => Quiet s s' := by
  refine ends_mono ends_updatePublishers_values ?_
  intro r s' h
  obtain ⟨values, rfl⟩ := h
  exact .one (.metaValueSet values)

theorem ends_announceTopic_missing {responseOpt : Option (PubUID × ClientIdx)}
    {Q : Except NetworkTablesError Unit → InnerServer → Prop} (ht : s.topics.lookup t = none) :
    Ends (announceTopic o t responseOpt) s Q ↔ Q (.error (topicMissing t "announced")) s := by
  simp [announceTopic, ht]

theorem does_innerPublishTopic {pubTopic : PublishTopic}
    (hregistered : P (.registered c pubTopic.pubuid pubTopic.name))
    (hp : s.topicMap.lookup pubTopic.name = none → P (.topic pubTopic.name))
    (hmeta : s.topicMap.lookup pubTopic.name = none → hasDollar pubTopic.name = false →
      P (.topic (metaPubName pubTopic.name)) ∧ P (.topic (metaSubName pubTopic.name)))
    (hgone : ∀ t how, ¬P (.gone t how)) :
    Ends (innerPublishTopic o pubTopic c) s fun _ s' => Does P 3 s s' ∧
      s'.topicMap.lookup pubTopic.name = some (ensureTopic s (.fromPublishTopic pubTopic)).1 := by
  simp only [innerPublishTopic, ends_bind]
  have hadd : Ends (addTopic o (.fromPublishTopic pubTopic)) s _ := does_addTopic hp hmeta hgone
  refine ends_mono hadd ?_
  intro r s₁ h₁
  obtain ⟨hs₁, hname, hindex⟩ := h₁
  cases r with
  | error e => exact ⟨hs₁, hname⟩
  | ok t =>
    have hmap : s₁.topicMap.lookup pubTopic.name = some t := by
      rw [hindex t rfl]
      exact hname
    -- from here on the name map stays
    have hdone : ∀ u, Does P 3 s u → u.topicMap = s₁.topicMap → Does P 3 s u ∧
        u.topicMap.lookup pubTopic.name =
          some (ensureTopic s (.fromPublishTopic pubTopic)).1 := by
      intro u hu hsame
      refine ⟨hu, ?_⟩
      rw [hsame]
      exact hname
    simp only [thenEnds_ok, ends_bind]
    cases ht : s₁.topics.lookup t with
    | none => exact (ends_announceTopic_missing ht).mpr (hdone s₁ hs₁ rfl)
    | some topic =>
      refine ends_mono quiet_announceTopic ?_
      intro r s₂ hq
      have hs₂ := hdone s₂ (hs₁.trans hq.does) hq.topicMap_eq
      cases r with
      | error e => exact hs₂
      | ok a =>
        have hmap₂ : s₂.topicMap.lookup pubTopic.name = some t := by
          rw [hq.topicMap_eq]
          exact hmap
        have ht₂ : s₂.topics.lookup t = some topic := hq.topics_eq ▸ ht
        simp only [thenEnds_ok, ends_bind, ends_get, ends_okOr, thenEnds_error, putClient,
          ends_modify]
        refine ⟨fun client hc => ?_, fun _ => hs₂⟩
        refine ends_mono quiet_updatePublishers ?_
        intro r s₃ hq₃
        have hreg := does_event hregistered (fun _ => rfl) (.registered pubTopic.pubuid hc ht₂ hmap₂)
        have hs₃ := hdone s₃ ((hs₂.1.trans hreg).trans hq₃.does)
          (hq₃.topicMap_eq.trans hq.topicMap_eq)
        cases r with
        | error e => exact hs₃
        | ok a => exact (ends_pure _).mpr hs₃

theorem uint16_pred_eq_zero {n : UInt16} (h : n - 1 = 0) : n = 1 := by
  have hsucc : n - 1 + 1 = 0 + 1 := congrArg (· + 1) h
  simpa using hsucc

/-- A client's registrations of a topic. -/
def ConnectedClient.registrations (client : ConnectedClient) (t : TopicIdx) : Nat :=
  client.pubuidToTopicidx.iterLr.pairs.countP fun e => e.2 == t

theorem does_innerUnpublishTopic {pubTopic : UnpublishTopic} (hwithdrawn : P .withdrawn)
    (hcount : P .count)
    (hgone : ∀ client t how, s.clients.lookup c = some client →
      client.pubuidToTopicidx.getByLeft pubTopic.pubuid = some t →
      s.pubCount.lookup t = some 1 → P (.gone t how)) :
    Ends (innerUnpublishTopic pubTopic c) s fun _ s' => Does P 0 s s' := by
  simp only [innerUnpublishTopic, ends_bind, ends_get, thenEnds_ok, ends_okOr, thenEnds_error,
    putClient, ends_modify]
  refine ⟨fun client hc => ⟨fun t hpub => ⟨fun count hn => ?_, fun _ => ?_⟩, fun _ => ?_⟩,
    fun _ => (Quiet.refl s).does⟩
  · have hleft := does_event hwithdrawn (fun _ => rfl) (.unregistered pubTopic.pubuid hc)
    have hlow := hleft.trans (does_event hcount (fun _ => rfl) (.countLowered hn))
    split_ifs with hzero
    · have hone : count = 1 := uint16_pred_eq_zero hzero
      subst hone
      simp only [ends_bind]
      refine ends_mono (does_removeTopic fun how => hgone client t how hc hpub hn) ?_
      intro r s₁ h
      obtain ⟨hs₁, ht⟩ := h
      obtain e | a := r
      · exact hlow.trans hs₁
      · have herase := does_event hcount (fun _ => rfl) (.countErased t (ht rfl))
        simp only [thenEnds_ok]
        exact ends_mono quiet_updatePublishers fun _ _ hq =>
          ((hlow.trans hs₁).trans herase).trans hq.does
    · exact ends_mono quiet_updatePublishers fun _ _ hq => hlow.trans hq.does
  · exact does_event hwithdrawn (fun _ => rfl) (.unregistered pubTopic.pubuid hc)
  · exact (Quiet.refl s).does

/-- What `remove_topic` does not touch, whether it succeeds or not. -/
theorem ends_removeTopic_frame :
    Ends (removeTopic t) s fun _ s' =>
      s'.pubCount = s.pubCount ∧ s'.clientMetatopicMap = s.clientMetatopicMap ∧
      s'.clients = s.clients ∧ s'.clientMap = s.clientMap ∧
      s'.subscriptions = s.subscriptions := by
  refine ends_removeTopic.mpr ⟨fun _ => ?_, fun topic _ => ⟨fun _ => ?_, fun p _ =>
    ⟨fun _ => ?_, fun q _ => ?_⟩⟩⟩ <;> exact ⟨rfl, rfl, rfl, rfl, rfl⟩

theorem ends_releasePublisher {Q : Except NetworkTablesError Unit → InnerServer → Prop} :
    Ends (releasePublisher t) s Q ↔
      (s.pubCount.lookup t = none → Q (.ok ()) s) ∧
      ∀ count, s.pubCount.lookup t = some count →
        if count - 1 = 0 then
          Ends (removeTopic t) { s with pubCount := s.pubCount.insert t (count - 1) } Q
        else
          Q (.ok ()) { s with pubCount := s.pubCount.insert t (count - 1) } := by
  simp only [releasePublisher, ends_bind, ends_get, thenEnds_ok]
  cases s.pubCount.lookup t with
  | none => simp
  | some count =>
    simp only [ends_bind, ends_modify, thenEnds_ok]
    split_ifs <;> simp_all

/-- How often the topic is still to be released in what remains of the loop. -/
def remaining (l : List (PubUID × TopicIdx)) (t : TopicIdx) : Nat := l.countP fun e => e.2 == t

/-- The counts along the loop of `disconnect_client`: none has sunk by more than the releases made
so far, unless it wrapped. -/
structure Sinking (client : ConnectedClient) (s : InnerServer) (l : List (PubUID × TopicIdx))
    (u : InnerServer) : Prop where
  bounded : ∀ t, remaining l t ≤ client.registrations t
  sunk : ∀ t n', u.pubCount.lookup t = some n' → ∃ n, s.pubCount.lookup t = some n ∧
    n.toNat + remaining l t ≤ n'.toNat + client.registrations t
  kept : ∀ t, t ∈ s.pubCount → t ∈ u.pubCount

theorem remaining_cons (e : PubUID × TopicIdx) (l : List (PubUID × TopicIdx)) (t : TopicIdx) :
    remaining (e :: l) t = remaining l t + if e.2 = t then 1 else 0 := by
  simp [remaining, List.countP_cons]

theorem uint16_toNat_pred {n : UInt16} (h : n ≠ 0) : (n - 1).toNat + 1 = n.toNat := by
  have hn : n.toNat ≠ 0 := fun h0 => h (UInt16.toNat_inj.mp h0)
  have hlt := n.toNat_lt
  rw [UInt16.toNat_sub]
  have h1 : (1 : UInt16).toNat = 1 := rfl
  omega

section Sinking

variable {client : ConnectedClient} {u : InnerServer} {e : PubUID × TopicIdx}
  {l : List (PubUID × TopicIdx)} {count : UInt16}

theorem sinking_step (h : Sinking client s (e :: l) u) (hn : u.pubCount.lookup e.2 = some count) :
    Sinking client s l { u with pubCount := u.pubCount.insert e.2 (count - 1) } where
  bounded t := by
    have hb := h.bounded t
    rw [remaining_cons] at hb
    omega
  sunk t n' hn' := by
    simp only [KeyMap.lookup_insert] at hn'
    split_ifs at hn' with ht
    · subst ht
      cases hn'
      obtain ⟨n, hs, hle⟩ := h.sunk e.2 count hn
      refine ⟨n, hs, ?_⟩
      have hb := h.bounded e.2
      have hlt := n.toNat_lt
      simp only [remaining_cons, if_true] at hle hb
      by_cases hzero : count = 0
      · subst hzero
        have hwrap : ((0 : UInt16) - 1).toNat = 65535 := rfl
        omega
      · have hpred := uint16_toNat_pred hzero
        omega
    · obtain ⟨n, hs, hle⟩ := h.sunk t n' hn'
      rw [remaining_cons] at hle
      exact ⟨n, hs, by omega⟩
  kept t ht := (AList.mem_insert _).mpr (.inr (h.kept t ht))

theorem sinking_skip (h : Sinking client s (e :: l) u) :
    Sinking client s l u where
  bounded t := by
    have hb := h.bounded t
    rw [remaining_cons] at hb
    omega
  sunk t n' hn' := by
    obtain ⟨n, hs, hle⟩ := h.sunk t n' hn'
    rw [remaining_cons] at hle
    exact ⟨n, hs, by omega⟩
  kept := h.kept

/-- A count can only reach zero for a topic whose count was no more than the registrations. -/
theorem sinking_zero (h : Sinking client s (e :: l) u) (hn : u.pubCount.lookup e.2 = some 1) :
    0 < client.registrations e.2 ∧
      ∃ n, s.pubCount.lookup e.2 = some n ∧ n.toNat ≤ client.registrations e.2 := by
  obtain ⟨n, hs, hle⟩ := h.sunk e.2 1 hn
  have hb := h.bounded e.2
  simp only [remaining_cons, if_true] at hle hb
  have hone : (1 : UInt16).toNat = 1 := rfl
  exact ⟨by omega, n, hs, by omega⟩

theorem sinking_frame {u' : InnerServer} (h : Sinking client s l u)
    (hcount : u'.pubCount = u.pubCount) : Sinking client s l u' where
  bounded := h.bounded
  sunk t n' hn' := h.sunk t n' (by rwa [hcount] at hn')
  kept t ht := by
    rw [hcount]
    exact h.kept t ht

theorem sinking_start (hcount : u.pubCount = s.pubCount) :
    Sinking client s (o.walk client.pubuidToTopicidx.iterLr) u := by
  have hperm : ∀ t, remaining (o.walk client.pubuidToTopicidx.iterLr) t =
      client.registrations t := fun t => (o.perm _).countP_eq _
  refine ⟨fun t => (hperm t).le, fun t n' hn' => ⟨n', by rwa [hcount] at hn', ?_⟩, fun t ht => ?_⟩
  · rw [hperm]
  · rw [hcount]
    exact ht

end Sinking

/-- The topics that `disconnect_client` may try to remove: those the client has registered at
least as often as their count says, and its own two metatopics. -/
def InnerServer.Leaves (s : InnerServer) (ident : ClientIdentity) (t : TopicIdx) : Prop :=
  ∃ c, s.clientMap.lookup ident = some c ∧
    ((∃ client n, s.clients.lookup c = some client ∧ s.pubCount.lookup t = some n ∧
      0 < client.registrations t ∧ n.toNat ≤ client.registrations t) ∨
    ∃ own, s.clientMetatopicMap.lookup c = some own ∧ (t = own.1 ∨ t = own.2))

theorem does_releasePublishers {client : ConnectedClient} {u : InnerServer}
    {l : List (PubUID × TopicIdx)} (hcount : P .count)
    (hgone : ∀ t how n, s.pubCount.lookup t = some n → 0 < client.registrations t →
      n.toNat ≤ client.registrations t → P (.gone t how))
    (hu : Sinking client s l u) :
    Ends (forEach l fun e => releasePublisher e.2) u fun _ u' =>
      Does P 0 u u' ∧ (u'.clientMetatopicMap = u.clientMetatopicMap ∧ u'.clients = u.clients) ∧
        ∃ l', Sinking client s l' u' := by
  induction l generalizing u with
  | nil => exact (ends_pure ()).mpr ⟨(Quiet.refl u).does, ⟨rfl, rfl⟩, [], hu⟩
  | cons e l ih =>
    refine (ends_bind _ _).mpr (ends_releasePublisher.mpr ⟨fun _ => ?_, fun count hn => ?_⟩)
    · exact (thenEnds_ok _ _ _).mpr (ih (sinking_skip hu))
    · have hlow := does_event hcount (fun _ => rfl) (.countLowered hn)
      have hnext := sinking_step hu hn
      split_ifs with hzero
      · have hone : count = 1 := uint16_pred_eq_zero hzero
        obtain ⟨hpos, n, hs, hle⟩ := sinking_zero hu (hone ▸ hn)
        refine ends_mono (ends_and (does_removeTopic fun how => hgone e.2 how n hs hpos hle)
          ends_removeTopic_frame) ?_
        intro r u₁ hr
        obtain ⟨⟨hdoes, -⟩, hcount₁, hown, hclients, -⟩ := hr
        have hu₁ := sinking_frame hnext hcount₁
        have h₁ := hlow.trans hdoes
        cases r with
        | error e => exact ⟨h₁, ⟨hown, hclients⟩, l, hu₁⟩
        | ok a =>
          exact ends_mono (ih hu₁) fun _ _ h =>
            ⟨h₁.trans h.1, ⟨h.2.1.1.trans hown, h.2.1.2.trans hclients⟩, h.2.2⟩
      · exact ends_mono (ih hnext) fun _ _ h => ⟨hlow.trans h.1, h.2⟩

/-- What `disconnect_client` does once the client is gone. -/
theorem does_disconnectClient_left {ident : ClientIdentity} {client : ConnectedClient}
    (hident : s.clientMap.lookup ident = some c) (hc : s.clients.lookup c = some client)
    (hcount : P .count) (hgone : ∀ t how, s.Leaves ident t → P (.gone t how)) :
    Ends (disconnectClient o ident) s fun _ s' =>
      Does P 0 (s.withoutClient ident c client) s' ∧ ∃ l, Sinking client s l s' := by
  simp only [disconnectClient, ends_bind, ends_get, thenEnds_ok, ends_okOr, thenEnds_error,
    ends_modify]
  refine ⟨fun c' hc' => ⟨fun client' hclient => ?_, fun h => ?_⟩, fun h => ?_⟩
  · rw [hident] at hc'
    cases hc'
    rw [hc] at hclient
    cases hclient
    have hstart : Sinking client s (o.walk client.pubuidToTopicidx.iterLr)
        (s.withoutClient ident c client) := sinking_start rfl
    have hloop := does_releasePublishers hcount (fun t how n hn hpos hle =>
      hgone t how ⟨c, hident, .inl ⟨client, n, hc, hn, hpos, hle⟩⟩) hstart
    refine ends_mono hloop ?_
    intro r s₁ hs
    obtain ⟨hs₁, ⟨hown, hclients⟩, rest, hsink⟩ := hs
    have hown : s₁.clientMetatopicMap = s.clientMetatopicMap := hown
    have hnone : s₁.clients.lookup c = none := by
      rw [hclients]
      simp [InnerServer.withoutClient]
    cases r with
    | error e => exact ⟨hs₁, rest, hsink⟩
    | ok =>
      have h₂ := hs₁.trans (Quiet.one (.ownMetatopicsErased hnone)).does
      simp only [thenEnds_ok, ends_bind, ends_get, ends_modify]
      cases hmetas : s₁.clientMetatopicMap.lookup c with
      | none => exact (ends_pure ()).mpr ⟨h₂, rest, sinking_frame hsink rfl⟩
      | some own =>
        rw [hown] at hmetas
        simp only [ends_bind]
        have hp : ∀ how, P (.gone own.1 how) := fun how =>
          hgone _ how ⟨c, hident, .inr ⟨own, hmetas, .inl rfl⟩⟩
        have hq : ∀ how, P (.gone own.2 how) := fun how =>
          hgone _ how ⟨c, hident, .inr ⟨own, hmetas, .inr rfl⟩⟩
        refine ends_mono (ends_and (does_removeTopic hp) ends_removeTopic_frame) ?_
        intro r s₂ hs₂
        have hsink₂ : Sinking client s rest s₂ := sinking_frame hsink hs₂.2.1
        cases r with
        | error e => exact ⟨h₂.trans hs₂.1.1, rest, hsink₂⟩
        | ok =>
          exact ends_mono (ends_and (does_removeTopic hq) ends_removeTopic_frame) fun _ _ h =>
            ⟨(h₂.trans hs₂.1.1).trans h.1.1, rest, sinking_frame hsink₂ h.2.1⟩
  · rw [hident] at hc'
    cases hc'
    rw [hc] at h
    cases h
  · rw [hident] at h
    cases h

theorem does_disconnectClient {ident : ClientIdentity} (hwithdrawn : P .withdrawn)
    (hcount : P .count) (hgone : ∀ t how, s.Leaves ident t → P (.gone t how)) :
    Ends (disconnectClient o ident) s fun _ s' => Does P 0 s s' := by
  cases hident : s.clientMap.lookup ident with
  | none => simpa [disconnectClient, hident] using (Quiet.refl s).does
  | some c =>
    cases hc : s.clients.lookup c with
    | none =>
      simpa [disconnectClient, hident, hc] using (Quiet.one (.identityErased hident hc)).does
    | some client =>
      have hleft := does_event hwithdrawn (fun _ => rfl) (.clientLeft hident hc)
      exact ends_mono (does_disconnectClient_left hident hc hcount hgone) fun _ _ h =>
        hleft.trans h.1

end NetTables.Server
