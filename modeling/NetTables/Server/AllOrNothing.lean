import NetTables.Server.Metatopics

namespace NetTables.Server

open Lib Lib.Fallible Spec

variable {s s' u : InnerServer} {e : Option Event} {o : IterOrder} {c : ClientIdx} {t : TopicIdx}
  {topic : Topic} {client : ConnectedClient} {f m : Bool} {name : String} {t' : TopicIdx}

/-- An error leaves the tables of publication and the client's registrations as they were. -/
def AllOrNothing {α : Type} (x : ServerM α) (s : InnerServer) (c : ClientIdx) : Prop :=
  ∀ e s', x.exec s = .ok (.error e, s') → s'.publishTables c = s.publishTables c

/-- Every client but the server's own has its metatopics on record. -/
def OwnsRecorded (s : InnerServer) : Prop :=
  ∀ c, c ∈ s.clients → c ≠ serverClientIdx → c ∈ s.clientMetatopicMap

section Recorded

/-- A write that brings no new client. -/
theorem OwnsRecorded.of_clients (h : OwnsRecorded s)
    (hclients : ∀ c, c ∈ s'.clients → c ∈ s.clients)
    (howns : s'.clientMetatopicMap = s.clientMetatopicMap) : OwnsRecorded s' := by
  intro c hc hne
  rw [howns]
  exact h c (hclients c hc) hne

theorem OwnsRecorded.step (h : OwnsRecorded s) (he : Effect s e s') : OwnsRecorded s' := by
  cases he with
  | clientConnected =>
    intro c hc hne
    refine (AList.mem_insert _).mpr ?_
    rcases (AList.mem_insert _).mp hc with heq | hc
    · exact .inl heq
    · exact .inr (h c hc hne)
  | registered _ hc | unregistered _ hc | marked _ hc | told _ hc | flushed hc | closed hc
  | subscribed _ _ _ _ _ _ hc | unsubscribed _ hc | batchesSent _ _ hc =>
    refine h.of_clients (fun d hd => ?_) rfl
    rcases (AList.mem_insert _).mp hd with rfl | hd
    · exact (KeyMap.mem_iff_lookup _ _).mpr ⟨_, hc⟩
    · exact hd
  | clientLeft => exact h.of_clients (fun d hd => (AList.mem_erase.mp hd).2) rfl
  | @ownMetatopicsErased c hc =>
    intro d hd hne
    refine AList.mem_erase.mpr ⟨?_, h d hd hne⟩
    rintro rfl
    exact AList.lookup_eq_none.mp hc hd
  | _ => exact h.of_clients (fun _ hc => hc) rfl

theorem Reachable.ownsRecorded (h : Reachable s) : OwnsRecorded s := by
  obtain ⟨u, run⟩ := h
  obtain ⟨es, hes, -⟩ := run.history
  refine hes.invariant OwnsRecorded (fun _ => True) (fun _ _ => trivial) ?_ ?_
  · intro s e s' he _ h
    exact h.step he
  · intro c hc hne
    have hc : c ∈ (∅ : KeyMap ClientIdx ConnectedClient).insert serverClientIdx serverClient := hc
    exact (hne (((AList.mem_insert _).mp hc).resolve_right (AList.notMem_empty c))).elim

/-- The list of publishers of a client that is there is found. -/
theorem OwnsRecorded.publisherKey (h : OwnsRecorded s) (hc : s.clients.lookup c = some client) :
    ∃ key, s.publisherKey c = some key := by
  by_cases hserver : c = serverClientIdx
  · exact ⟨serverPubMetatopic, if_pos hserver⟩
  · have hmem := h c ((KeyMap.mem_iff_lookup _ _).mpr ⟨client, hc⟩) hserver
    obtain ⟨own, hown⟩ := (KeyMap.mem_iff_lookup _ _).mp hmem
    refine ⟨own.1, ?_⟩
    rw [InnerServer.publisherKey, if_neg hserver, hown]
    rfl

end Recorded

section Publish

variable {pubTopic : PublishTopic}

/-- Names and topics stay where a topic is ensured. -/
theorem mem_topicMap_ensureTopic (h : name ∈ s.topicMap) :
    name ∈ (ensureTopic s topic).2.topicMap := by
  unfold ensureTopic
  split
  · exact h
  · exact (AList.mem_insert _).mpr (.inr h)

theorem mem_topics_ensureTopic (h : t ∈ s.topics) : t ∈ (ensureTopic s topic).2.topics := by
  unfold ensureTopic
  split
  · exact h
  · exact (AList.mem_insert _).mpr (.inr h)

theorem ensureTopic_owns (s : InnerServer) (topic : Topic) :
    (ensureTopic s topic).2.clientMetatopicMap = s.clientMetatopicMap := by
  unfold ensureTopic
  split <;> rfl

theorem OwnsRecorded.ensureTopic (h : OwnsRecorded s) (topic : Topic) :
    OwnsRecorded (ensureTopic s topic).2 := by
  refine h.of_clients (fun d hd => ?_) (ensureTopic_owns s topic)
  rwa [ensureTopic_clients] at hd

theorem topicMap_registration :
    (registration s pubTopic c t client).2.topicMap = s.topicMap := by
  unfold registration
  split_ifs
  · rfl
  · cases s.clientMetatopicMap.lookup c <;> rfl

theorem topicMap_lastEnd : (lastEnd m s pubTopic c t).2.topicMap = s.topicMap := by
  unfold lastEnd
  split_ifs
  · rfl
  · split
    · rfl
    · rfl
    · exact topicMap_registration

/-- However a publication ends, its name is known by then. -/
theorem mem_topicMap_publishEnd : pubTopic.name ∈ (publishEnd f m s pubTopic c).2.topicMap := by
  have hensured : ∀ u : InnerServer,
      pubTopic.name ∈ (ensureTopic u (.fromPublishTopic pubTopic)).2.topicMap := by
    intro u
    exact (KeyMap.mem_iff_lookup _ _).mpr ⟨_, lookup_ensureTopic u (.fromPublishTopic pubTopic)⟩
  by_cases hnew : AddsNormal s (.fromPublishTopic pubTopic)
  · have hadded : pubTopic.name ∈ (s.withTopic (.fromPublishTopic pubTopic)).topicMap :=
      (AList.mem_insert _).mpr (.inl rfl)
    have hpub : pubTopic.name ∈ (pubEnsured s (.fromPublishTopic pubTopic)).2.topicMap :=
      mem_topicMap_ensureTopic hadded
    have hsub : pubTopic.name ∈ (subEnsured s (.fromPublishTopic pubTopic)).2.topicMap :=
      mem_topicMap_ensureTopic hpub
    simp only [publishEnd, if_pos hnew]
    split_ifs
    · exact hpub
    · exact hsub
    · rw [topicMap_lastEnd]
      exact hsub
    · exact hsub
    · exact hpub
  · simp only [publishEnd, if_neg hnew]
    rw [topicMap_lastEnd]
    exact hensured s

/-- A publication gets past its last announcement where its client is there, its topic is, and no
channel in the way is closed. -/
theorem lastEnd_ok (pubTopic : PublishTopic) (h : OwnsRecorded s) (hc : c ∈ s.clients)
    (ht : t ∈ s.topics) :
    ∃ tables, lastEnd false s pubTopic c t = (.ok t, tables) := by
  obtain ⟨client, hc⟩ := (KeyMap.mem_iff_lookup _ _).mp hc
  obtain ⟨topic, ht⟩ := (KeyMap.mem_iff_lookup _ _).mp ht
  rw [lastEnd, if_neg Bool.false_ne_true, ht, hc]
  by_cases hserver : c = serverClientIdx
  · exact ⟨_, if_pos hserver⟩
  · obtain ⟨own, hown⟩ := (KeyMap.mem_iff_lookup _ _).mp
      (h c ((KeyMap.mem_iff_lookup _ _).mpr ⟨client, hc⟩) hserver)
    simp only [registration, if_neg hserver, hown]
    exact ⟨_, rfl⟩

/-- From its last announcement on, a publication that fails has written nothing. -/
theorem lastEnd_error {e : NetworkTablesError} {tables : PublishTables} (h : OwnsRecorded s)
    (hend : lastEnd m s pubTopic c t = (.error e, tables)) : tables = s.publishTables c := by
  cases m with
  | true =>
    cases hend
    rfl
  | false =>
    by_cases ht : t ∈ s.topics
    · by_cases hc : c ∈ s.clients
      · obtain ⟨tables', hok⟩ := lastEnd_ok pubTopic h hc ht
        rw [hok] at hend
        cases hend
      · obtain ⟨topic, ht⟩ := (KeyMap.mem_iff_lookup _ _).mp ht
        rw [lastEnd, if_neg Bool.false_ne_true, ht, AList.lookup_eq_none.mpr hc] at hend
        cases hend
        rfl
    · rw [lastEnd, if_neg Bool.false_ne_true, AList.lookup_eq_none.mpr ht] at hend
      cases hend
      rfl

/-- Only a client that is there gets to register. -/
theorem mem_clients_of_lastEnd (h : (lastEnd m s pubTopic c t).1 = .ok t') : c ∈ s.clients := by
  unfold lastEnd at h
  split_ifs at h
  split at h
  next => cases h
  next => cases h
  next topic client ht hc => exact (KeyMap.mem_iff_lookup _ _).mpr ⟨client, hc⟩

/-- What a publication comes to is the end of a call of it. -/
theorem allOrNothing_publish_iff :
    AllOrNothing (innerPublishTopic o pubTopic c) s c ↔
      ∀ e tables, publishEnd (s.meets (firstVisits s (.fromPublishTopic pubTopic)))
        (s.meets (visits s (.fromPublishTopic pubTopic) c)) s pubTopic c = (.error e, tables) →
          tables = s.publishTables c := by
  have hends := ends_innerPublishTopic (o := o) s pubTopic c
  constructor
  · intro h e tables heq
    obtain ⟨r, v, hx, hv⟩ := total_innerPublishTopic.ends hends
    rw [heq] at hv
    cases hv
    exact h e v hx
  · intro h e v hx
    exact h e _ (hends _ _ hx).symm

/-- The end of a publication that adds its topic and registers it. -/
theorem publishEnd_ok (h : OwnsRecorded s) (hc : c ∈ s.clients) (hr : Registers s pubTopic c) :
    ∃ t tables, publishEnd (s.meets (firstVisits s (.fromPublishTopic pubTopic)))
      (s.meets (visits s (.fromPublishTopic pubTopic) c)) s pubTopic c = (.ok t, tables) := by
  obtain ⟨hopen, hthere⟩ := hr
  have hclients : ∀ u topic, c ∈ u.clients → c ∈ (ensureTopic u topic).2.clients := by
    intro u topic hu
    rwa [ensureTopic_clients]
  rw [hopen]
  by_cases hnew : AddsNormal s (.fromPublishTopic pubTopic)
  · rw [if_pos hnew] at hthere
    have hfirst : s.meets (firstVisits s (.fromPublishTopic pubTopic)) = false := by
      rw [visits, if_pos hnew, meets_append, Bool.or_eq_false_iff] at hopen
      rw [firstVisits, if_pos hnew]
      exact hopen.1
    have hself : s.counters.topicIdx ∈ (s.withTopic (.fromPublishTopic pubTopic)).topics :=
      (AList.mem_insert _).mpr (.inl rfl)
    have hrec : OwnsRecorded (s.withTopic (.fromPublishTopic pubTopic)) :=
      h.of_clients (fun _ hd => hd) rfl
    have hc' : c ∈ (s.withTopic (.fromPublishTopic pubTopic)).clients := hc
    obtain ⟨tables, hlast⟩ := lastEnd_ok pubTopic ((hrec.ensureTopic _).ensureTopic _)
      (hclients _ _ (hclients _ _ hc'))
      (mem_topics_ensureTopic (mem_topics_ensureTopic hself))
    refine ⟨s.counters.topicIdx, tables, ?_⟩
    simp only [publishEnd, if_pos hnew, hfirst, Bool.false_eq_true, if_false,
      if_neg (not_not_intro hthere.1), if_neg (not_not_intro hthere.2)]
    exact hlast
  · rw [if_neg hnew] at hthere
    simp only [publishEnd, if_neg hnew]
    exact ⟨_, lastEnd_ok pubTopic (h.ensureTopic _) (hclients _ _ hc) hthere⟩

theorem mem_clients_of_publishEnd (h : (publishEnd f m s pubTopic c).1 = .ok t) :
    c ∈ s.clients := by
  have hpub : (pubEnsured s (.fromPublishTopic pubTopic)).2.clients = s.clients :=
    ensureTopic_clients _ _
  have hsub : (subEnsured s (.fromPublishTopic pubTopic)).2.clients = s.clients :=
    (ensureTopic_clients _ _).trans hpub
  simp only [publishEnd] at h
  split_ifs at h
  · rw [← hsub]
    exact mem_clients_of_lastEnd h
  · rw [← ensureTopic_clients s (.fromPublishTopic pubTopic)]
    exact mem_clients_of_lastEnd h

/-- A publication is all or nothing exactly where its topic is there already, or where it succeeds:
where its client is connected, and its announcements find their topics and no closed channel. -/
theorem allOrNothing_publish (h : OwnsRecorded s) :
    AllOrNothing (innerPublishTopic o pubTopic c) s c ↔
      pubTopic.name ∈ s.topicMap ∨ c ∈ s.clients ∧ Registers s pubTopic c := by
  rw [allOrNothing_publish_iff]
  by_cases hname : pubTopic.name ∈ s.topicMap
  · simp only [hname, true_or, iff_true]
    obtain ⟨t, ht⟩ := (KeyMap.mem_iff_lookup _ _).mp hname
    have ht : s.topicMap.lookup (Topic.fromPublishTopic pubTopic).name = some t := ht
    have hold : ¬AddsNormal s (.fromPublishTopic pubTopic) := by
      intro hnew
      rw [hnew.1] at ht
      cases ht
    intro e tables heq
    rw [publishEnd, if_neg hold, ensureTopic_of_lookup ht] at heq
    exact lastEnd_error h heq
  · simp only [hname, false_or]
    constructor
    · intro hall
      -- an error would have left the name behind
      obtain ⟨r, v, hx, hv⟩ := total_innerPublishTopic.ends
        (ends_innerPublishTopic (o := o) s pubTopic c)
      cases r with
      | error e =>
        have hsame := hall e _ hv.symm
        have htables : v.publishTables c = _ := congrArg Prod.snd hv
        have hadded : pubTopic.name ∈ (v.publishTables c).topicMap := by
          rw [htables]
          exact mem_topicMap_publishEnd
        rw [hsame] at hadded
        exact (hname hadded).elim
      | ok t => exact ⟨mem_clients_of_publishEnd (congrArg Prod.fst hv).symm, registers_of_ok hx⟩
    · intro hboth e tables heq
      obtain ⟨t, tables', hok⟩ := publishEnd_ok h hboth.1 hboth.2
      rw [hok] at heq
      cases heq

end Publish

section Unpublish

variable {pubTopic : UnpublishTopic}

/-- The topic's publishers are counted, and where this one is the last the topic can be removed. -/
def Countable (s : InnerServer) (t : TopicIdx) : Prop :=
  ∃ n, s.pubCount.lookup t = some n ∧ (n = 1 → s.tables.Removable t)

/-- The registration goes first, and the rest gets to its end exactly where the topic is counted. -/
theorem ends_innerUnpublishTopic_registered (h : OwnsRecorded s)
    (hc : s.clients.lookup c = some client)
    (hp : client.pubuidToTopicidx.getByLeft pubTopic.pubuid = some t) :
    Ends (innerUnpublishTopic pubTopic c) s fun r s' =>
      (s'.publishTables c).publishers =
        some (client.pubuidToTopicidx.removeByLeft pubTopic.pubuid) ∧
      (r = .ok () ↔ Countable s t) := by
  obtain ⟨key, hkey⟩ := h.publisherKey hc
  -- the update of the metatopics does not fail, and is no part of this
  have hupdate : ∀ u : InnerServer, u.clientMetatopicMap = s.clientMetatopicMap →
      (u.publishTables c).publishers =
        some (client.pubuidToTopicidx.removeByLeft pubTopic.pubuid) →
      Ends (updatePublishers c .reduce (unpublishMte s t pubTopic.pubuid)) u fun r s' =>
        (s'.publishTables c).publishers =
          some (client.pubuidToTopicidx.removeByLeft pubTopic.pubuid) ∧ r = .ok () := by
    intro u howns hpublishers
    have hkey' : u.publisherKey c = some key := by
      rw [InnerServer.publisherKey, howns]
      exact hkey
    refine ends_updatePublishers.mpr ⟨fun _ _ => ⟨hpublishers, rfl⟩, fun hnone => ?_⟩
    rw [hkey'] at hnone
    cases hnone
  have hgone : ∀ u : InnerServer, u.clients = s.clients.insert c
      { client with pubuidToTopicidx := client.pubuidToTopicidx.removeByLeft pubTopic.pubuid } →
      (u.publishTables c).publishers =
        some (client.pubuidToTopicidx.removeByLeft pubTopic.pubuid) := by
    intro u hu
    simp [InnerServer.publishTables, hu]
  simp only [innerUnpublishTopic, ends_bind, ends_get, thenEnds_ok, ends_okOr, thenEnds_error,
    putClient, ends_modify, hc, hp, Option.some.injEq, forall_eq', reduceCtorEq, false_implies,
    and_true]
  refine ⟨fun n hn => ?_, fun hn => ⟨hgone _ rfl, by simp [Countable, hn]⟩⟩
  have hcountable : Countable s t ↔ (n = 1 → s.tables.Removable t) := by
    simp [Countable, hn]
  rw [hcountable]
  split_ifs with hzero
  · obtain rfl := uint16_pred_eq_zero hzero
    simp only [ends_bind, true_implies]
    refine ends_removeTopic.mpr ⟨fun hnone => ⟨hgone _ rfl, ?_⟩, fun topic ht => ⟨fun hpub =>
      ⟨hgone _ rfl, ?_⟩, fun p hpub => ⟨fun hsub => ⟨hgone _ rfl, ?_⟩, fun q hsub => ?_⟩⟩⟩
    · have hnone : s.topics.lookup t = none := hnone
      simp [TopicTables.Removable, InnerServer.tables, hnone]
    · have ht : s.topics.lookup t = some topic := ht
      have hpub : s.topicMap.lookup (metaPubName topic.name) = none := hpub
      simp [TopicTables.Removable, InnerServer.tables, ht, hpub]
    · have ht : s.topics.lookup t = some topic := ht
      have hsub : s.topicMap.lookup (metaSubName topic.name) = none := hsub
      simp [TopicTables.Removable, InnerServer.tables, ht, hsub]
    · refine ends_mono (hupdate _ rfl (hgone _ rfl)) ?_
      intro r s' hs'
      exact ⟨hs'.1, fun _ => ⟨topic, p, q, ht, hpub, hsub⟩, fun _ => hs'.2⟩
  · refine ends_mono (hupdate _ rfl (hgone _ rfl)) ?_
    intro r s' hs'
    refine ⟨hs'.1, fun _ hone => ?_, fun _ => hs'.2⟩
    subst hone
    exact (hzero rfl).elim

/-- An unpublication is all or nothing exactly where its pubuid is not registered, or leads to a
topic that is counted and, with the last publisher, can be removed. -/
theorem allOrNothing_unpublish (h : OwnsRecorded s) :
    AllOrNothing (innerUnpublishTopic pubTopic c) s c ↔
      ∀ client t, s.clients.lookup c = some client →
        client.pubuidToTopicidx.getByLeft pubTopic.pubuid = some t → Countable s t := by
  constructor
  · intro hall client t hc hp
    obtain ⟨r, v, hx, hpublishers, hr⟩ :=
      total_innerUnpublishTopic.ends (ends_innerUnpublishTopic_registered h hc hp)
    cases r with
    | ok => exact hr.mp rfl
    | error e =>
      have hsame := hall e v hx
      have hregistered : (s.publishTables c).publishers = some client.pubuidToTopicidx := by
        rw [InnerServer.publishTables, hc]
        rfl
      rw [hsame, hregistered] at hpublishers
      have hgone : client.pubuidToTopicidx.getByLeft pubTopic.pubuid = none := by
        rw [Option.some.inj hpublishers, PrimBiMap.getByLeft_removeByLeft, if_pos rfl]
      rw [hp] at hgone
      cases hgone
  · intro hcountable e v hx
    cases hc : s.clients.lookup c with
    | none => rw [ends_of_exec (ends_innerUnpublishTopic_unregistered (by simp [hc])) hx]
    | some client =>
      cases hp : client.pubuidToTopicidx.getByLeft pubTopic.pubuid with
      | none => rw [ends_of_exec (ends_innerUnpublishTopic_unregistered (by simp [hc, hp])) hx]
      | some t =>
        have hr := (ends_of_exec (ends_innerUnpublishTopic_registered h hc hp) hx).2
        cases hr.mpr (hcountable client t hc hp)

end Unpublish

/-- In every state that operations reach, and for every client: a publication that fails leaves the
tables as they were exactly where its topic was there, or where it does not fail at all; and an
unpublication exactly where it is refused at once, or does not fail at all. -/
theorem allOrNothing_iff (hs : Reachable s) (o : IterOrder) (c : ClientIdx)
    (pubTopic : PublishTopic) (unpubTopic : UnpublishTopic) :
    (AllOrNothing (innerPublishTopic o pubTopic c) s c ↔
      pubTopic.name ∈ s.topicMap ∨ c ∈ s.clients ∧ Registers s pubTopic c) ∧
    (AllOrNothing (innerUnpublishTopic unpubTopic c) s c ↔
      ∀ client t, s.clients.lookup c = some client →
        client.pubuidToTopicidx.getByLeft unpubTopic.pubuid = some t → Countable s t) :=
  ⟨allOrNothing_publish hs.ownsRecorded, allOrNothing_unpublish hs.ownsRecorded⟩

/-- A client publishes the name of a metatopic; its count is 1, and it has no metatopics of its
own. -/
def publishBare : List Op :=
  [.connectClient ⟨.v4 10 0 0 2 5810, "a"⟩, .innerPublishTopic ⟨"$x", 0, "int", none⟩ 1]

theorem allOrNothing_publishBare :
    ∃ s, stateAfter anyOp .stored publishBare = some s ∧
      (AllOrNothing (innerPublishTopic .stored ⟨"$x", 1, "int", none⟩ 1) s 1 ↔
        "$x" ∈ s.topicMap ∨ 1 ∈ s.clients ∧ Registers s ⟨"$x", 1, "int", none⟩ 1) ∧
      (AllOrNothing (innerUnpublishTopic ⟨0⟩ 1) s 1 ↔
        ∀ client t, s.clients.lookup 1 = some client →
          client.pubuidToTopicidx.getByLeft 0 = some t → Countable s t) := by
  have hrun : (stateAfter anyOp .stored publishBare).isSome = true := by decide +kernel
  obtain ⟨s, hs⟩ := Option.isSome_iff_exists.mp hrun
  exact ⟨s, hs, allOrNothing_iff (reachable_stateAfter hs) .stored 1 ⟨"$x", 1, "int", none⟩ ⟨0⟩⟩

/-- Whether a failing call changes what is seen of the tables. -/
def failsWriting {α : Type} (x : ServerM α) (c : ClientIdx) (look : PublishTables → Bool)
    (s : InnerServer) : Bool :=
  match x.exec s with
  | .ok (.error _, s') => look (s'.publishTables c) != look (s.publishTables c)
  | _ => false

theorem not_allOrNothing_of_failsWriting {α : Type} {x : ServerM α} {look : PublishTables → Bool}
    (h : failsWriting x c look s = true) : ¬AllOrNothing x s c := by
  intro hall
  unfold failsWriting at h
  split at h
  next e s' hx =>
    rw [hall e s' hx] at h
    simp at h
  · cases h

-- an identifier that was never published fails without a trace
example : (stateAfter anyOp .stored [.connectClient ⟨.v4 10 0 0 2 5810, "a"⟩,
    .innerUnpublishTopic ⟨9⟩ 1]).map (fun s => (s.topicMap.keys, s.pubCount.keys)) =
    (stateAfter anyOp .stored [.connectClient ⟨.v4 10 0 0 2 5810, "a"⟩]).map fun s =>
      (s.topicMap.keys, s.pubCount.keys) := by
  decide +kernel

/-- A publication that meets a closed channel leaves its topic, and an unpublication whose topic
cannot be removed takes the registration. -/
theorem failures_leave_writes :
    (¬∀ s, Reachable s → ∀ o pubTopic c, AllOrNothing (innerPublishTopic o pubTopic c) s c) ∧
      ¬∀ s, Reachable s → ∀ pubTopic c, AllOrNothing (innerUnpublishTopic pubTopic c) s c := by
  constructor
  · intro h
    have hrun : (stateAfter anyOp .stored (connectListener ++ [.closeChannel 2])).map
        (failsWriting (innerPublishTopic .stored ⟨"x", 0, "int", none⟩ 1) 1
          fun tables => (tables.topicMap.lookup "x").isSome) = some true := by decide +kernel
    obtain ⟨s, hs, hview⟩ := Option.map_eq_some_iff.mp hrun
    exact not_allOrNothing_of_failsWriting hview (h s (reachable_stateAfter hs) _ _ 1)
  · intro h
    have hrun : (stateAfter anyOp .stored publishBare).map
        (failsWriting (innerUnpublishTopic ⟨0⟩ 1) 1 fun tables =>
          (tables.publishers.bind fun m => m.getByLeft 0).isSome) = some true := by decide +kernel
    obtain ⟨s, hs, hview⟩ := Option.map_eq_some_iff.mp hrun
    exact not_allOrNothing_of_failsWriting hview (h s (reachable_stateAfter hs) _ 1)

end NetTables.Server
