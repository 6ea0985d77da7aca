import NetTables.Server.Isolation

namespace NetTables.Server

open Lib Lib.Fallible Spec

/-- A client is there whose channel is closed. -/
def ConnectedClient.isClosed (client : ConnectedClient) : Bool :=
  match client.subOuput with
  | some ch => !ch.isOpen
  | none => false

/-- One of these clients has a closed channel. -/
def InnerServer.meets (s : InnerServer) (l : List ClientIdx) : Bool :=
  l.any fun c => ((s.clients.lookup c).map ConnectedClient.isClosed).getD false

/-- The subscribers that a topic is announced to, if the topic is there. -/
def InnerServer.hearers (s : InnerServer) (t : TopicIdx) : List ClientIdx :=
  ((s.topics.lookup t).map fun topic => clientsToNotify s topic.name).getD []

/-- The clients that the last announcement of a publication comes to: the publisher, unless it has
heard of the topic, and the subscribers. -/
def lastVisits (s : InnerServer) (c : ClientIdx) (t : TopicIdx) : List ClientIdx :=
  match s.topics.lookup t, s.clients.lookup c with
  | some _, some client => (if t ∈ client.announcedTopics then [] else [c]) ++ s.hearers t
  | _, _ => []

/-- The publication adds a topic that takes metatopics. -/
def AddsNormal (s : InnerServer) (topic : Topic) : Prop :=
  s.topicMap.lookup topic.name = none ∧ hasDollar topic.name = false

instance (s : InnerServer) (topic : Topic) : Decidable (AddsNormal s topic) :=
  inferInstanceAs (Decidable (_ ∧ _))

/-- The server with a topic that is new and its metatopic of publishers, and the index of that. -/
def pubEnsured (s : InnerServer) (topic : Topic) : TopicIdx × InnerServer :=
  ensureTopic (s.withTopic topic) (.newMeta (metaPubName topic.name))

/-- The server with both metatopics of a topic that is new, and the index of the second. -/
def subEnsured (s : InnerServer) (topic : Topic) : TopicIdx × InnerServer :=
  ensureTopic (pubEnsured s topic).2 (.newMeta (metaSubName topic.name))

/-- The clients that the first announcement of a publication comes to, that of the metatopic of
publishers, where there is one. -/
def firstVisits (s : InnerServer) (topic : Topic) : List ClientIdx :=
  if AddsNormal s topic then (pubEnsured s topic).2.hearers (pubEnsured s topic).1 else []

/-- The clients that the announcements of a publication come to, as long as no topic to announce
is missing. -/
def visits (s : InnerServer) (topic : Topic) (c : ClientIdx) : List ClientIdx :=
  if AddsNormal s topic then
    let pub := pubEnsured s topic
    let sub := subEnsured s topic
    pub.2.hearers pub.1 ++
      if pub.1 ∈ pub.2.topics then
        sub.2.hearers sub.1 ++
          if sub.1 ∈ sub.2.topics then lastVisits sub.2 c s.counters.topicIdx else []
      else []
  else
    lastVisits (ensureTopic s topic).2 c (ensureTopic s topic).1

/-- What an announcement leaves of a client's record. -/
def ConnectedClient.muted (client : ConnectedClient) : ConnectedClient :=
  { client with
    subOuput := client.subOuput.map fun ch => { ch with sent := [] }
    announcedTopics := ∅ }

/-- Two states between which some clients were told of topics. -/
structure Told (l : List ClientIdx) (s u : InnerServer) : Prop where
  rest : u = { s with clients := u.clients }
  others : ∀ d, d ∉ l → u.clients.lookup d = s.clients.lookup d
  muted : ∀ d, (u.clients.lookup d).map ConnectedClient.muted =
    (s.clients.lookup d).map ConnectedClient.muted

section Announce

variable {l l' : List ClientIdx} {s u v : InnerServer} {o : IterOrder} {c d : ClientIdx}
  {t : TopicIdx} {topic : Topic} {client client' : ConnectedClient} {announceMsg : Announce}

theorem Told.refl (l : List ClientIdx) (s : InnerServer) : Told l s s :=
  ⟨rfl, fun _ _ => rfl, fun _ => rfl⟩

theorem Told.trans (h : Told l s u) (h' : Told l' u v) : Told (l ++ l') s v := by
  refine ⟨?_, fun d hd => ?_, fun d => (h'.muted d).trans (h.muted d)⟩
  · have hrest := h'.rest
    rw [h.rest] at hrest
    exact hrest
  · rw [List.mem_append, not_or] at hd
    rw [h'.others d hd.2, h.others d hd.1]

theorem isClosed_muted (client : ConnectedClient) : client.muted.isClosed = client.isClosed := by
  unfold ConnectedClient.isClosed ConnectedClient.muted
  cases client.subOuput <;> rfl

/-- Being told of topics opens and closes no channel. -/
theorem Told.meets (h : Told l s u) (l' : List ClientIdx) : u.meets l' = s.meets l' := by
  have hone : ∀ c, (u.clients.lookup c).map ConnectedClient.isClosed =
      (s.clients.lookup c).map ConnectedClient.isClosed := by
    intro c
    have hmuted := congrArg (Option.map ConnectedClient.isClosed) (h.muted c)
    simpa only [Option.map_map, Function.comp_def, isClosed_muted] using hmuted
  simp only [InnerServer.meets, hone]

/-- One write to the record of a client. -/
theorem Told.put (h : Told l s u) (hc : c ∈ l) (hlook : u.clients.lookup c = some client)
    (hmuted : client'.muted = client.muted) :
    Told l s { u with clients := u.clients.insert c client' } := by
  refine ⟨?_, fun d hd => ?_, fun d => ?_⟩
  · rw [h.rest]
  · have hdc : d ≠ c := by
      intro heq
      exact hd (heq ▸ hc)
    rw [KeyMap.lookup_insert, if_neg hdc]
    exact h.others d hd
  · rw [KeyMap.lookup_insert, ← h.muted d]
    split_ifs with hdc
    · rw [hdc, hlook, Option.map_some, Option.map_some, hmuted]
    · rfl

/-- A send fails exactly on a closed channel. -/
def sendEnd (closed : Bool) : Except NetworkTablesError Unit :=
  if closed then .error .tokioChannelMessageSend else .ok ()

theorem told_markAnnounced (h : Told l s u) (hc : c ∈ l) :
    Ends (markAnnounced c t) u fun r u' => Told l s u' ∧ r = .ok () := by
  simp only [markAnnounced, ends_bind, ends_get, thenEnds_ok]
  cases hlook : u.clients.lookup c with
  | none => exact (ends_pure ()).mpr ⟨h, rfl⟩
  | some client => exact (ends_modify _).mpr ⟨h.put hc hlook rfl, rfl⟩

theorem told_sendOn (h : Told l s u) (hc : c ∈ l) {m : OutMessage} :
    Ends (sendOn c m) u fun r u' => Told l s u' ∧ r = sendEnd (s.meets [c]) := by
  rw [← h.meets]
  simp only [sendOn, ends_bind, ends_get, thenEnds_ok]
  cases hlook : u.clients.lookup c with
  | none => exact (ends_pure ()).mpr ⟨h, by simp [InnerServer.meets, hlook, sendEnd]⟩
  | some client =>
    dsimp only
    cases hch : client.subOuput with
    | none =>
      refine (ends_pure ()).mpr ⟨h, ?_⟩
      simp [InnerServer.meets, hlook, ConnectedClient.isClosed, hch, sendEnd]
    | some ch =>
      have hmeets : u.meets [c] = !ch.isOpen := by
        simp [InnerServer.meets, hlook, ConnectedClient.isClosed, hch]
      simp only [ends_bind, ends_okOr, thenEnds_ok, thenEnds_error, putClient, ends_modify, hmeets]
      refine ⟨fun ch' hsend => ?_, fun hsend => ?_⟩
      · simp only [Outgoing.send] at hsend
        split_ifs at hsend with hopen
        cases hsend
        refine ⟨h.put hc hlook ?_, by simp [sendEnd, hopen]⟩
        simp [ConnectedClient.muted, hch]
      · simp only [Outgoing.send] at hsend
        split_ifs at hsend with hopen
        exact ⟨h, by simp [sendEnd, hopen]⟩

theorem told_announceSubscriber (h : Told l s u) (hc : c ∈ l) :
    Ends (announceSubscriber t announceMsg c) u fun r u' =>
      Told l s u' ∧ r = sendEnd (s.meets [c]) := by
  simp only [announceSubscriber, ends_bind, ends_get, thenEnds_ok]
  cases hlook : u.clients.lookup c with
  | none =>
    refine (ends_pure ()).mpr ⟨h, ?_⟩
    rw [← h.meets]
    simp [InnerServer.meets, hlook, sendEnd]
  | some client =>
    refine (ends_bind _ _).mpr (ends_mono (told_markAnnounced h hc) ?_)
    intro r v hv
    obtain ⟨hv, hr⟩ := hv
    subst hr
    exact told_sendOn hv hc

/-- The loop over the subscribers gets past all whose channels are open. -/
theorem told_announceAll {ds : List ClientIdx} (h : Told l s u) (hds : ∀ d ∈ ds, d ∈ l) :
    Ends (forEach ds (announceSubscriber t announceMsg)) u fun r u' =>
      Told l s u' ∧ r = sendEnd (s.meets ds) := by
  induction ds generalizing u with
  | nil => exact (ends_pure ()).mpr ⟨h, rfl⟩
  | cons d ds ih =>
    have hd : d ∈ l := hds d (List.mem_cons_self ..)
    have hrest : ∀ d ∈ ds, d ∈ l := fun d hd => hds d (List.mem_cons_of_mem _ hd)
    have hsplit : s.meets (d :: ds) = (s.meets [d] || s.meets ds) := by
      simp [InnerServer.meets]
    refine (ends_bind _ _).mpr (ends_mono (told_announceSubscriber h hd) ?_)
    intro r v hv
    obtain ⟨hv, hr⟩ := hv
    subst hr
    rw [hsplit]
    cases hclosed : s.meets [d] with
    | true => exact ⟨hv, rfl⟩
    | false =>
      rw [Bool.false_or]
      exact ih hv hrest

/-- The loop visits the subscribers in some order. -/
theorem meets_arrange (s : InnerServer) (o : IterOrder) (l : List ClientIdx) :
    s.meets (o.arrange l) = s.meets l := by
  rw [Bool.eq_iff_iff]
  simp [InnerServer.meets, List.any_eq_true]

theorem Told.notify (h : Told l s u) (name : String) :
    clientsToNotify u name = clientsToNotify s name := by
  rw [h.rest]
  rfl

theorem hearers_eq (ht : s.topics.lookup t = some topic) :
    s.hearers t = clientsToNotify s topic.name := by
  rw [InnerServer.hearers, ht]
  rfl

theorem told_announceTopic (ht : s.topics.lookup t = some topic) :
    Ends (announceTopic o t none) s fun r u =>
      Told (s.hearers t) s u ∧ r = sendEnd (s.meets (s.hearers t)) := by
  have hhearers := hearers_eq ht
  simp only [announceTopic, ends_bind, ends_get, thenEnds_ok, ends_okOr, thenEnds_error, ht]
  refine ⟨fun topic' heq => ?_, by simp⟩
  cases heq
  rw [hhearers, ← meets_arrange s o]
  refine told_announceAll (.refl _ s) fun d hd => ?_
  exact (o.mem_arrange _ _).mp hd

/-- The announcement of a topic to its publisher and its subscribers. -/
theorem told_announceTopic_response {pubuid : PubUID} (ht : s.topics.lookup t = some topic)
    (hc : s.clients.lookup c = some client) :
    Ends (announceTopic o t (some (pubuid, c))) s fun r u =>
      Told (c :: s.hearers t) s u ∧ r = sendEnd (s.meets (lastVisits s c t)) := by
  have hhearers := hearers_eq ht
  have hself : c ∈ c :: s.hearers t := List.mem_cons_self ..
  have hloop : ∀ v, Told (c :: s.hearers t) s v → Ends (forEach
      (o.arrange (clientsToNotify v topic.name)) (announceSubscriber t (announceOf t topic))) v
      fun r u => Told (c :: s.hearers t) s u ∧ r = sendEnd (s.meets (s.hearers t)) := by
    intro v hv
    rw [hv.notify, ← hhearers, ← meets_arrange s o (s.hearers t)]
    refine told_announceAll hv fun d hd => ?_
    exact List.mem_cons_of_mem _ ((o.mem_arrange _ _).mp hd)
  simp only [announceTopic, ends_bind, ends_get, thenEnds_ok, ends_okOr, thenEnds_error, ht]
  refine ⟨fun topic' heq => ?_, by simp⟩
  cases heq
  have hvisits : lastVisits s c t =
      (if t ∈ client.announcedTopics then [] else [c]) ++ s.hearers t := by
    rw [lastVisits, ht, hc]
  simp only [announceResponse, ends_bind, ends_get, thenEnds_ok, hc, hvisits]
  by_cases hknown : t ∈ client.announcedTopics
  · rw [if_pos hknown, if_pos hknown, List.nil_append]
    exact (ends_pure ()).mpr (hloop s (.refl _ s))
  · rw [if_neg hknown, if_neg hknown]
    have hsplit : s.meets ([c] ++ s.hearers t) = (s.meets [c] || s.meets (s.hearers t)) := by
      simp [InnerServer.meets]
    rw [hsplit]
    refine (ends_bind _ _).mpr (ends_mono (told_sendOn (.refl _ s) hself) ?_)
    intro r v hv
    obtain ⟨hv, hr⟩ := hv
    subst hr
    cases hclosed : s.meets [c] with
    | true => exact ⟨hv, rfl⟩
    | false =>
      refine ends_mono (told_markAnnounced hv hself) ?_
      intro r w hw
      obtain ⟨hw, hr⟩ := hw
      subst hr
      rw [Bool.false_or]
      exact hloop w hw

end Announce

/-- The tables that a publication writes, and the registrations of its client. -/
structure PublishTables where
  topics : KeyMap TopicIdx Topic
  topicMap : KeyMap String TopicIdx
  pubCount : KeyMap TopicIdx UInt16
  topicSubMap : KeyMap TopicIdx (List SubIdx)
  metatopicValueMap : KeyMap TopicIdx MetaTopicValue
  publishers : Option (PrimBiMap PubUID TopicIdx)

def InnerServer.publishTables (s : InnerServer) (c : ClientIdx) : PublishTables where
  topics := s.topics
  topicMap := s.topicMap
  pubCount := s.pubCount
  topicSubMap := s.topicSubMap
  metatopicValueMap := s.metatopicValueMap
  publishers := (s.clients.lookup c).map ConnectedClient.pubuidToTopicidx

/-- How a publication ends, by its result and the tables. -/
abbrev PublishEnd := Except NetworkTablesError TopicIdx × PublishTables

section Publish

variable {s u v : InnerServer} {o : IterOrder} {c : ClientIdx} {t : TopicIdx} {topic : Topic}
  {pubTopic : PublishTopic} {l : List ClientIdx}

theorem Told.publishTables (h : Told l s u) (c : ClientIdx) :
    u.publishTables c = s.publishTables c := by
  have hmuted := congrArg (Option.map ConnectedClient.pubuidToTopicidx) (h.muted c)
  have hpublishers : (u.clients.lookup c).map ConnectedClient.pubuidToTopicidx =
      (s.clients.lookup c).map ConnectedClient.pubuidToTopicidx := by
    simpa only [Option.map_map, Function.comp_def, ConnectedClient.muted] using hmuted
  rw [h.rest]
  simp only [InnerServer.publishTables, hpublishers]

/-- The end of a publication that got past its announcements. -/
def registration (s : InnerServer) (pubTopic : PublishTopic) (c : ClientIdx) (t : TopicIdx)
    (client : ConnectedClient) : PublishEnd :=
  let tables := { s.publishTables c with
    publishers := some (client.pubuidToTopicidx.insert pubTopic.pubuid t) }
  let merged (key : TopicIdx) (empty mte : MetaTopicValue) := { tables with
    metatopicValueMap :=
      s.metatopicValueMap.insert key (((s.metatopicValueMap.lookup key).getD empty).merge mte) }
  let mte : ClientPublisherMTE := ⟨pubTopic.name, pubTopic.pubuid⟩
  if c = serverClientIdx then
    (.ok t, merged serverPubMetatopic (.serverPublisher []) (.serverPublisher [mte]))
  else
    match s.clientMetatopicMap.lookup c with
    | none => (.error (ownMetatopicMissing c), tables)
    | some own => (.ok t, merged own.1 (.clientPublisher []) (.clientPublisher [mte]))

/-- The end of a publication from its last announcement on, by whether that comes upon a closed
channel. -/
def lastEnd (met : Bool) (s : InnerServer) (pubTopic : PublishTopic) (c : ClientIdx)
    (t : TopicIdx) : PublishEnd :=
  if met then
    (.error .tokioChannelMessageSend, s.publishTables c)
  else
    match s.topics.lookup t, s.clients.lookup c with
    | none, _ => (.error (topicMissing t "announced"), s.publishTables c)
    | some _, none => (.error (.serverError (.clientDoesNotExist
        s!"client idx {c} could not be announced to [did not exist]")), s.publishTables c)
    | some _, some client => registration s pubTopic c t client

/-- The registration of the publisher. -/
def register (pubTopic : PublishTopic) (c : ClientIdx) (t : TopicIdx) : ServerM TopicIdx := do
  let client ← okOr ((← get).clients.lookup c) (clientMissing c)
  putClient c
    { client with pubuidToTopicidx := client.pubuidToTopicidx.insert pubTopic.pubuid t }
  updatePublishers c .merge ⟨pubTopic.name, pubTopic.pubuid⟩
  pure t

theorem innerPublishTopic_eq (o : IterOrder) (pubTopic : PublishTopic) (c : ClientIdx) :
    innerPublishTopic o pubTopic c = (do
      let t ← addTopic o (.fromPublishTopic pubTopic)
      announceTopic o t (some (pubTopic.pubuid, c))
      register pubTopic c t) := rfl

/-- All that a registration does: the client takes it on, and a metatopic gets some value. -/
theorem ends_register_put :
    Ends (register pubTopic c t) s fun r s' => (∀ t', r = .ok t' → t' = t) ∧
      (s.clients.lookup c = none ∧ s' = s ∨
        ∃ client values, s.clients.lookup c = some client ∧ s' = { s with
          clients := s.clients.insert c
            { client with pubuidToTopicidx := client.pubuidToTopicidx.insert pubTopic.pubuid t }
          metatopicValueMap := values }) := by
  simp only [register, ends_bind, ends_get, thenEnds_ok, ends_okOr, thenEnds_error, putClient,
    ends_modify]
  refine ⟨fun client hc => ?_, fun hc => ⟨fun t' hr => (by cases hr), .inl ⟨hc, trivial⟩⟩⟩
  refine ends_mono ends_updatePublishers_values ?_
  intro r s' hs'
  obtain ⟨values, rfl⟩ := hs'
  cases r with
  | error e => exact ⟨fun t' hr => (by cases hr), .inr ⟨client, values, hc, rfl⟩⟩
  | ok =>
    refine (ends_pure t).mpr ⟨fun t' hr => ?_, .inr ⟨client, values, hc, rfl⟩⟩
    cases hr
    rfl

theorem ends_register {client : ConnectedClient} (h : Told l s u)
    (hc : s.clients.lookup c = some client) :
    Ends (register pubTopic c t) u fun r v =>
      (r, v.publishTables c) = registration s pubTopic c t client := by
  have hmuted := h.muted c
  rw [hc, Option.map_some] at hmuted
  obtain ⟨client', hc', hsame⟩ := Option.map_eq_some_iff.mp hmuted
  have hpublishers : client'.muted.pubuidToTopicidx = client.muted.pubuidToTopicidx := by
    rw [hsame]
  have hpublishers : client'.pubuidToTopicidx = client.pubuidToTopicidx := hpublishers
  have hrest := h.rest
  have hvalues : u.metatopicValueMap = s.metatopicValueMap := by rw [hrest]
  have howns : u.clientMetatopicMap = s.clientMetatopicMap := by rw [hrest]
  simp only [register, ends_bind, ends_get, thenEnds_ok, ends_okOr, thenEnds_error, putClient,
    ends_modify, hc', Option.some.injEq, forall_eq', reduceCtorEq, false_implies, and_true,
    updatePublishers, registration]
  split_ifs with hserver
  · simp only [updateMetaValue, ends_modify, thenEnds_ok, ends_pure, InnerServer.publishTables,
      KeyMap.lookup_insert, if_true, Option.map_some, hvalues, hpublishers]
    rw [hrest]
  · simp only [ends_bind, ends_get, thenEnds_ok, ends_okOr, thenEnds_error, howns]
    cases hown : s.clientMetatopicMap.lookup c with
    | none =>
      refine ⟨by simp, fun _ => ?_⟩
      simp only [InnerServer.publishTables, KeyMap.lookup_insert, if_true, Option.map_some,
        hpublishers]
      rw [hrest]
    | some own =>
      refine ⟨fun own' heq => ?_, by simp⟩
      cases heq
      simp only [updateMetaValue, ends_modify, thenEnds_ok, ends_pure, InnerServer.publishTables,
        KeyMap.lookup_insert, if_true, Option.map_some, hvalues, hpublishers]
      rw [hrest]

theorem Told.hearers (h : Told l s u) (t : TopicIdx) : u.hearers t = s.hearers t := by
  have htopics : u.topics = s.topics := by rw [h.rest]
  simp only [InnerServer.hearers, htopics, h.notify]

theorem meets_append (s : InnerServer) (l l' : List ClientIdx) :
    s.meets (l ++ l') = (s.meets l || s.meets l') := by
  simp [InnerServer.meets]

/-- The clients that were told may have heard of more topics, but their channels are open. -/
theorem meets_lastVisits (h : Told l s u) (hopen : s.meets l = false) :
    u.meets (lastVisits u c t) = s.meets (lastVisits s c t) := by
  have htopics : u.topics = s.topics := by rw [h.rest]
  have hmuted := h.muted c
  rw [h.meets, lastVisits, lastVisits, htopics, h.hearers]
  cases ht : s.topics.lookup t with
  | none => rfl
  | some topic =>
    cases hc : s.clients.lookup c with
    | none =>
      rw [hc, Option.map_none, Option.map_eq_none_iff] at hmuted
      rw [hmuted]
    | some client =>
      rw [hc, Option.map_some] at hmuted
      obtain ⟨client', hc', -⟩ := Option.map_eq_some_iff.mp hmuted
      rw [hc']
      by_cases hmem : c ∈ l
      · have hself : s.meets [c] = false := by
          simp only [InnerServer.meets, List.any_eq_false] at hopen
          simpa [InnerServer.meets] using hopen c hmem
        have hnone : ∀ (p : Prop) [Decidable p], s.meets (if p then [] else [c]) = false := by
          intro p _
          split_ifs
          · rfl
          · exact hself
        rw [meets_append, meets_append, hnone, hnone]
      · have hsame := h.others c hmem
        rw [hc, hc'] at hsame
        cases hsame
        rfl

/-- The publication from its last announcement on. -/
theorem ends_announceAndRegister (h : Told l s u) (hopen : s.meets l = false) :
    Ends (announceTopic o t (some (pubTopic.pubuid, c)) >>= fun _ => register pubTopic c t) u
      fun r v => (r, v.publishTables c) =
        lastEnd (s.meets (lastVisits s c t)) s pubTopic c t := by
  have htopics : u.topics = s.topics := by rw [h.rest]
  have hmuted := h.muted c
  rw [← meets_lastVisits h hopen]
  cases ht : s.topics.lookup t with
  | none =>
    have ht' : u.topics.lookup t = none := by rw [htopics, ht]
    refine (ends_bind _ _).mpr ((ends_announceTopic_missing ht').mpr ?_)
    rw [thenEnds_error, h.publishTables]
    simp [lastVisits, ht', InnerServer.meets, lastEnd, ht]
  | some topic =>
    have ht' : u.topics.lookup t = some topic := by rw [htopics, ht]
    cases hc : s.clients.lookup c with
    | none =>
      rw [hc, Option.map_none, Option.map_eq_none_iff] at hmuted
      simp only [announceTopic, announceResponse, ends_bind, ends_get, thenEnds_ok, ends_okOr, ht',
        hmuted]
      refine ⟨fun topic' _ => (ends_throw _).mpr ?_, by simp⟩
      rw [thenEnds_error, thenEnds_error, h.publishTables]
      simp [lastVisits, ht', hmuted, InnerServer.meets, lastEnd, ht, hc]
    | some client =>
      rw [hc, Option.map_some] at hmuted
      obtain ⟨client', hc', -⟩ := Option.map_eq_some_iff.mp hmuted
      refine (ends_bind _ _).mpr (ends_mono (told_announceTopic_response ht' hc') ?_)
      intro r v hv
      obtain ⟨hv, hr⟩ := hv
      have hboth := h.trans hv
      subst hr
      cases u.meets (lastVisits u c t) with
      | true =>
        refine (thenEnds_error _ _ _).mpr ?_
        rw [hboth.publishTables]
        rfl
      | false =>
        refine (thenEnds_ok _ _ _).mpr (ends_mono (ends_register hboth hc) ?_)
        intro r w hw
        rw [hw, lastEnd, if_neg Bool.false_ne_true, ht, hc]

/-- How a publication ends, by whether its first announcement, or any, comes upon a closed
channel. -/
def publishEnd (first met : Bool) (s : InnerServer) (pubTopic : PublishTopic) (c : ClientIdx) :
    PublishEnd :=
  let topic := Topic.fromPublishTopic pubTopic
  if AddsNormal s topic then
    let pub := pubEnsured s topic
    let sub := subEnsured s topic
    if first then
      (.error .tokioChannelMessageSend, pub.2.publishTables c)
    else if pub.1 ∉ pub.2.topics then
      (.error (topicMissing pub.1 "announced"), pub.2.publishTables c)
    else if met then
      (.error .tokioChannelMessageSend, sub.2.publishTables c)
    else if sub.1 ∉ sub.2.topics then
      (.error (topicMissing sub.1 "announced"), sub.2.publishTables c)
    else
      lastEnd false sub.2 pubTopic c s.counters.topicIdx
  else
    lastEnd met (ensureTopic s topic).2 pubTopic c (ensureTopic s topic).1

/-- A topic that takes no metatopics is announced only once. -/
theorem ends_addTopic_of_not_addsNormal (h : ¬AddsNormal s topic)
    {Q : Except NetworkTablesError TopicIdx → InnerServer → Prop} :
    Ends (addTopic o topic) s Q ↔ Q (.ok (ensureTopic s topic).1) (ensureTopic s topic).2 := by
  cases hmap : s.topicMap.lookup topic.name with
  | some t => simp [addTopic, ensureTopic, hmap]
  | none =>
    apply ends_addTopic_of_hasDollar
    cases hd : hasDollar topic.name with
    | true => rfl
    | false => exact (h ⟨hmap, hd⟩).elim

theorem meets_of_clients (h : u.clients = s.clients) (l : List ClientIdx) :
    u.meets l = s.meets l := by
  simp only [InnerServer.meets, h]

/-- The additions to the tables by a client that was told of topics are as before. -/
theorem Told.ensureTopic (h : Told l s u) (topic : Topic) :
    (Server.ensureTopic u topic).1 = (Server.ensureTopic s topic).1 ∧
      Told l (Server.ensureTopic s topic).2 (Server.ensureTopic u topic).2 := by
  have hrest := h.rest
  have hmap : u.topicMap = s.topicMap := by rw [hrest]
  have hcounters : u.counters = s.counters := by rw [hrest]
  simp only [Server.ensureTopic, hmap]
  cases s.topicMap.lookup topic.name with
  | some t => exact ⟨rfl, h⟩
  | none =>
    refine ⟨by rw [hcounters], ?_, h.others, h.muted⟩
    simp only [InnerServer.withTopic]
    rw [hrest]

/-- An announcement that is no reply, to what comes after it. -/
theorem ends_announceTopic_bind {α : Type} {f : Unit → ServerM α}
    {Q : Except NetworkTablesError α → InnerServer → Prop} (h : Told l s u)
    (hmissing : t ∉ s.topics → Q (.error (topicMissing t "announced")) u)
    (hmet : s.meets (s.hearers t) = true → ∀ v, Told (l ++ s.hearers t) s v →
      Q (.error .tokioChannelMessageSend) v)
    (hpassed : t ∈ s.topics → s.meets (s.hearers t) = false → ∀ v, Told (l ++ s.hearers t) s v →
      Ends (f ()) v Q) :
    Ends (announceTopic o t none >>= f) u Q := by
  have htopics : u.topics = s.topics := by rw [h.rest]
  cases ht : s.topics.lookup t with
  | none =>
    have ht' : u.topics.lookup t = none := by rw [htopics, ht]
    refine (ends_bind _ _).mpr ((ends_announceTopic_missing ht').mpr (hmissing ?_))
    rw [KeyMap.mem_iff_lookup, ht]
    simp
  | some topic =>
    have ht' : u.topics.lookup t = some topic := by rw [htopics, ht]
    refine (ends_bind _ _).mpr (ends_mono (told_announceTopic ht') ?_)
    intro r v hv
    rw [h.hearers, h.meets] at hv
    obtain ⟨hv, hr⟩ := hv
    subst hr
    have hboth := h.trans hv
    cases hclosed : s.meets (s.hearers t) with
    | true => exact hmet hclosed v hboth
    | false =>
      exact hpassed ((KeyMap.mem_iff_lookup _ _).mpr ⟨topic, ht⟩) hclosed v hboth

theorem hearers_of_notMem (h : t ∉ s.topics) : s.hearers t = [] := by
  rw [KeyMap.mem_iff_lookup, not_exists, ← Option.eq_none_iff_forall_ne_some] at h
  rw [InnerServer.hearers, h]
  rfl

/-- The server with a topic that is new and its metatopic of publishers, on the way through
`add_topic`. -/
theorem ends_addTopic_of_addsNormal (h : AddsNormal s topic)
    {Q : Except NetworkTablesError TopicIdx → InnerServer → Prop} :
    Ends (addTopic o topic) s Q ↔
      Ends (announceTopic o (pubEnsured s topic).1 none >>= fun _ =>
        addMetaTopic (.newMeta (metaSubName topic.name)) >>= fun q =>
          announceTopic o q none >>= fun _ => pure s.counters.topicIdx) (pubEnsured s topic).2 Q := by
  simp only [addTopic, ends_bind, ends_get, thenEnds_ok, h.1, ends_insertTopic, h.2,
    Bool.false_eq_true, if_false, ends_addMetaTopic]
  rfl

/-- The publication of a new topic from the announcement of its second metatopic on. -/
theorem ends_announceSubAndRegister {q : TopicIdx} (h : Told l s u) (hopen : s.meets l = false) :
    Ends (announceTopic o q none >>= fun _ => (pure t : ServerM TopicIdx)) u
      (thenEnds (fun t => announceTopic o t (some (pubTopic.pubuid, c)) >>= fun _ =>
        register pubTopic c t) fun r v => (r, v.publishTables c) =
          if s.meets (s.hearers q ++ if q ∈ s.topics then lastVisits s c t else []) then
            (.error .tokioChannelMessageSend, s.publishTables c)
          else if q ∉ s.topics then
            (.error (topicMissing q "announced"), s.publishTables c)
          else lastEnd false s pubTopic c t) := by
  refine ends_announceTopic_bind h ?_ ?_ ?_
  · intro hmissing
    rw [thenEnds_error, hearers_of_notMem hmissing, if_neg hmissing, if_pos hmissing,
      h.publishTables]
    rfl
  · intro hmet v hv
    rw [thenEnds_error, meets_append, hmet, Bool.true_or, if_pos rfl, hv.publishTables]
  · intro hthere hclear v hv
    have hboth : s.meets (l ++ s.hearers q) = false := by
      rw [meets_append, hopen, hclear]
      rfl
    refine (ends_pure t).mpr ((thenEnds_ok _ _ _).mpr ?_)
    refine ends_mono (ends_announceAndRegister hv hboth) ?_
    intro r w hw
    rw [hw, meets_append, hclear, Bool.false_or, if_pos hthere, if_neg (not_not_intro hthere)]
    cases hmet : s.meets (lastVisits s c t) <;> rfl

theorem ends_innerPublishTopic (s : InnerServer) (pubTopic : PublishTopic) (c : ClientIdx) :
    Ends (innerPublishTopic o pubTopic c) s fun r v =>
      (r, v.publishTables c) =
        publishEnd (s.meets (firstVisits s (.fromPublishTopic pubTopic)))
          (s.meets (visits s (.fromPublishTopic pubTopic) c)) s pubTopic c := by
  rw [innerPublishTopic_eq, ends_bind]
  generalize htopic : Topic.fromPublishTopic pubTopic = topic
  by_cases hnew : AddsNormal s topic
  · rw [ends_addTopic_of_addsNormal hnew]
    have hpubClients : (pubEnsured s topic).2.clients = s.clients := ensureTopic_clients _ _
    have hsubClients : (subEnsured s topic).2.clients = s.clients :=
      (ensureTopic_clients _ _).trans hpubClients
    simp only [publishEnd, htopic, firstVisits, visits, if_pos hnew]
    refine ends_announceTopic_bind (.refl [] _) ?_ ?_ ?_
    · intro hmissing
      rw [thenEnds_error, hearers_of_notMem hmissing, if_pos hmissing]
      rfl
    · intro hmet v hv
      rw [meets_of_clients hpubClients] at hmet
      rw [thenEnds_error, hmet, if_pos rfl, hv.publishTables]
    · intro hthere hclear v hv
      obtain ⟨hidx, hv⟩ := hv.ensureTopic (.newMeta (metaSubName topic.name))
      have hopen : (subEnsured s topic).2.meets
          ([] ++ (pubEnsured s topic).2.hearers (pubEnsured s topic).1) = false := by
        rw [meets_of_clients hsubClients, List.nil_append, ← meets_of_clients hpubClients]
        exact hclear
      refine (ends_bind _ _).mpr (ends_addMetaTopic.mpr ((thenEnds_ok _ _ _).mpr ?_))
      rw [meets_of_clients hpubClients] at hclear
      rw [hidx, hclear, if_neg Bool.false_ne_true, if_neg (not_not_intro hthere), if_pos hthere,
        meets_append s, hclear, Bool.false_or, ← meets_of_clients hsubClients]
      exact ends_announceSubAndRegister hv hopen
  · have hclients : (ensureTopic s topic).2.clients = s.clients := ensureTopic_clients s topic
    refine (ends_addTopic_of_not_addsNormal hnew).mpr ((thenEnds_ok _ _ _).mpr ?_)
    simp only [publishEnd, htopic, visits, if_neg hnew]
    rw [← meets_of_clients hclients]
    exact ends_announceAndRegister (.refl [] _) rfl

end Publish

/-- A client's record with its channel open. -/
def ConnectedClient.reopened (client : ConnectedClient) : ConnectedClient :=
  { client with subOuput := client.subOuput.map fun ch => { ch with isOpen := true } }

/-- Two states that differ only in whether the channels of clients other than `c` are open. -/
structure SameButChannels (c : ClientIdx) (s s' : InnerServer) : Prop where
  rest : s' = { s with clients := s'.clients }
  own : s'.clients.lookup c = s.clients.lookup c
  others : ∀ d, (s'.clients.lookup d).map ConnectedClient.reopened =
    (s.clients.lookup d).map ConnectedClient.reopened

section Alike

variable {s s' : InnerServer} {o o' : IterOrder} {c : ClientIdx} {t : TopicIdx} {topic : Topic}
  {pubTopic : PublishTopic}

namespace SameButChannels

theorem topics_eq (h : SameButChannels c s s') : s'.topics = s.topics := by rw [h.rest]

theorem topicMap_eq (h : SameButChannels c s s') : s'.topicMap = s.topicMap := by rw [h.rest]

theorem counters_eq (h : SameButChannels c s s') : s'.counters = s.counters := by rw [h.rest]

theorem hearers_eq (h : SameButChannels c s s') (t : TopicIdx) : s'.hearers t = s.hearers t := by
  have hsubs : s'.subscriptions = s.subscriptions := by rw [h.rest]
  simp only [InnerServer.hearers, clientsToNotify, h.topics_eq, hsubs]

theorem withTopic (h : SameButChannels c s s') (topic : Topic) :
    SameButChannels c (s.withTopic topic) (s'.withTopic topic) := by
  refine ⟨?_, h.own, h.others⟩
  simp only [InnerServer.withTopic]
  rw [h.rest]

theorem ensureTopic (h : SameButChannels c s s') (topic : Topic) :
    (Server.ensureTopic s' topic).1 = (Server.ensureTopic s topic).1 ∧
      SameButChannels c (Server.ensureTopic s topic).2 (Server.ensureTopic s' topic).2 := by
  simp only [Server.ensureTopic, h.topicMap_eq]
  cases s.topicMap.lookup topic.name with
  | some t => exact ⟨rfl, h⟩
  | none => exact ⟨by rw [h.counters_eq], h.withTopic topic⟩

theorem pubEnsured (h : SameButChannels c s s') (topic : Topic) :
    (Server.pubEnsured s' topic).1 = (Server.pubEnsured s topic).1 ∧
      SameButChannels c (Server.pubEnsured s topic).2 (Server.pubEnsured s' topic).2 :=
  (h.withTopic topic).ensureTopic _

theorem subEnsured (h : SameButChannels c s s') (topic : Topic) :
    (Server.subEnsured s' topic).1 = (Server.subEnsured s topic).1 ∧
      SameButChannels c (Server.subEnsured s topic).2 (Server.subEnsured s' topic).2 :=
  (h.pubEnsured topic).2.ensureTopic _

end SameButChannels

theorem ensureTopic_of_lookup (h : s.topicMap.lookup topic.name = some t) :
    ensureTopic s topic = (t, s) := by
  rw [ensureTopic, h]

section Ends

variable {f m f' m' : Bool}

end Ends

end Alike

/-- A client is connected, and another one that has subscribed to "x". -/
def connectListener : List Op :=
  [.connectClient ⟨.v4 10 0 0 2 5810, "a"⟩, .connectClient ⟨.v4 10 0 0 3 5810, "b"⟩,
    .subscribe ⟨0, {"x"}, none⟩ 2 0]

end NetTables.Server
