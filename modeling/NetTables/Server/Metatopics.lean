import NetTables.Server.Announcements
import NetTables.Server.ClosedChannels
import NetTables.Server.TopicIds

namespace NetTables.Server

open Lib Lib.Fallible Spec

/-- The value under a key, or the empty one that `or_insert_with` would put there. -/
def InnerServer.metaValue (s : InnerServer) (key : TopicIdx) (empty : MetaTopicValue) :
    MetaTopicValue :=
  (s.metatopicValueMap.lookup key).getD empty

/-- The value for a list of publishers of the server's own client or of another one. -/
def publisherValue (c : ClientIdx) (l : List ClientPublisherMTE) : MetaTopicValue :=
  if c = serverClientIdx then .serverPublisher l else .clientPublisher l

/-- The metatopic for the publishers of a client: `$serverpub`, or the client's own. -/
def InnerServer.publisherKey (s : InnerServer) (c : ClientIdx) : Option TopicIdx :=
  if c = serverClientIdx then some serverPubMetatopic
  else (s.clientMetatopicMap.lookup c).map Prod.fst

/-- The value of a client's metatopic is this list of publishers. -/
def InnerServer.PublisherList (s : InnerServer) (c : ClientIdx) (l : List ClientPublisherMTE) :
    Prop :=
  ∃ key, s.publisherKey c = some key ∧ s.metaValue key (publisherValue c []) = publisherValue c l

/-- One entry for each registered pubuid, with the name of the topic it maps to. -/
def ListsAll (name : TopicIdx → Option String) (l : List ClientPublisherMTE)
    (registered : PrimBiMap PubUID TopicIdx) : Prop :=
  (l.map fun e => (e.uid, some e.topic)).Perm
    (registered.iterLr.pairs.map fun e => (e.1, name e.2))

/-- The entries for the connected clients, the server's own left out. -/
def InnerServer.visitorMtes (s : InnerServer) : List ClientMTE :=
  (s.clients.pairs.filter fun e => e.1 ≠ serverClientIdx).map fun e => e.2.identity.toMte

/-- The values of the metatopics describe the clients and what they publish. A metatopic without a
value stands for an empty list. -/
structure DescribesStore (name : TopicIdx → Option String) (s : InnerServer) : Prop where
  clients : ∃ l, s.metaValue clientMetatopic (.client []) = .client l ∧ l.Perm s.visitorMtes
  publishers : ∀ c client, s.clients.lookup c = some client →
    ∃ l, s.PublisherList c l ∧ ListsAll name l client.pubuidToTopicidx

/-- The publication gets past its announcements: they find their topics and no closed channel. -/
def Registers (s : InnerServer) (pubTopic : PublishTopic) (c : ClientIdx) : Prop :=
  let topic := Topic.fromPublishTopic pubTopic
  s.meets (visits s topic c) = false ∧
    if AddsNormal s topic then
      (pubEnsured s topic).1 ∈ (pubEnsured s topic).2.topics ∧
        (subEnsured s topic).1 ∈ (subEnsured s topic).2.topics
    else (ensureTopic s topic).1 ∈ (ensureTopic s topic).2.topics

/-- The entry that an unpublication takes out, with the name that the topic has by then. -/
def unpublishMte (s : InnerServer) (t : TopicIdx) (pubuid : PubUID) : ClientPublisherMTE :=
  ⟨((s.topics.lookup t).map Topic.name).getD "", pubuid⟩

/-- The index of the metatopic for the publishers of a client that connects. -/
def ownPubIdx (s : InnerServer) (identity : ClientIdentity) : TopicIdx :=
  (ensureTopic s (.newMeta (clientPubName (uniqueIdentity s identity).name))).1

/-- The operation keeps the metatopics in step: a client that connects takes a place that is free
and a metatopic without entries, no client leaves, a pubuid is registered only where it is new and
by a client that shares its metatopic with nobody, and an unpublication gets to the end and takes
out an entry that is there. -/
def KeepsMetatopics (s : InnerServer) : Op → Prop
  | .connectClient identity => s.clientMap.lookup identity = none →
      s.counters.clientIdx ∉ s.clients ∧
        s.metaValue (ownPubIdx s identity) (.clientPublisher []) = .clientPublisher []
  | .disconnectClient ident => ∀ c, s.clientMap.lookup ident = some c → c ∉ s.clients
  | .innerPublishTopic pubTopic c => Registers s pubTopic c →
      ∀ client, s.clients.lookup c = some client →
        client.pubuidToTopicidx.getByLeft pubTopic.pubuid = none ∧
          ∀ d ∈ s.clients, d ≠ c → s.publisherKey d ≠ s.publisherKey c
  | .innerUnpublishTopic pubTopic c => ∀ client t, s.clients.lookup c = some client →
      client.pubuidToTopicidx.getByLeft pubTopic.pubuid = some t →
        (∃ n, s.pubCount.lookup t = some n ∧ (n = 1 → s.tables.Removable t)) ∧
          ∃ l, s.PublisherList c l ∧ unpublishMte s t pubTopic.pubuid ∈ l
  | _ => True

variable {s s' : InnerServer} {op : Op} {o : IterOrder} {c d : ClientIdx} {t : TopicIdx}
  {client : ConnectedClient} {name name' : TopicIdx → Option String}
  {l : List ClientPublisherMTE} {log : List (InnerServer × Op)}

/-- What metatopics describe of a client. -/
def ConnectedClient.described (client : ConnectedClient) :
    ClientIdentity × PrimBiMap PubUID TopicIdx :=
  (client.identity, client.pubuidToTopicidx)

/-- The metatopics and all that they describe are the same in both states. -/
structure SameStore (s s' : InnerServer) : Prop where
  values : s'.metatopicValueMap = s.metatopicValueMap
  owns : s'.clientMetatopicMap = s.clientMetatopicMap
  clients : ∀ c, (s'.clients.lookup c).map ConnectedClient.described =
    (s.clients.lookup c).map ConnectedClient.described

section Frames

theorem sameStore_put {client' : ConnectedClient} (hc : s.clients.lookup c = some client)
    (hclients : s'.clients = s.clients.insert c client')
    (hvalues : s'.metatopicValueMap = s.metatopicValueMap)
    (howns : s'.clientMetatopicMap = s.clientMetatopicMap)
    (hdescribed : client'.described = client.described) : SameStore s s' := by
  refine ⟨hvalues, howns, fun d => ?_⟩
  rw [hclients, KeyMap.lookup_insert]
  split_ifs with hd
  · rw [hd, hc, Option.map_some, Option.map_some, hdescribed]
  · rfl

instance : IsPreorder InnerServer SameStore where
  refl _ := ⟨rfl, rfl, fun _ => rfl⟩
  trans _ _ _ h h' := ⟨h'.values.trans h.values, h'.owns.trans h.owns,
    fun c => (h'.clients c).trans (h.clients c)⟩

theorem sameStore_of_clients (hclients : s'.clients = s.clients)
    (hvalues : s'.metatopicValueMap = s.metatopicValueMap)
    (howns : s'.clientMetatopicMap = s.clientMetatopicMap) : SameStore s s' :=
  ⟨hvalues, howns, fun c => by rw [hclients]⟩

instance : Announces SameStore where
  tables _ _ hclients _ _ _ hvalues howns _ := sameStore_of_clients hclients hvalues howns
  announced _ _ _ _ _ _ hc _ _ _ := sameStore_put hc rfl rfl rfl rfl
  deaf _ _ _ _ hc _ := sameStore_put hc rfl rfl rfl rfl
  flushed _ _ _ _ hc _ _ := sameStore_put hc rfl rfl rfl rfl
  closed _ _ _ hc := sameStore_put hc rfl rfl rfl rfl

instance : Serves SameStore where
  elsewhere _ _ := sameStore_of_clients
  subscribers _ _ _ _ hc := sameStore_put hc rfl rfl rfl rfl
  binary _ _ _ _ _ hc _ _ := sameStore_put hc rfl rfl rfl rfl

theorem SameStore.publisherKey_eq (h : SameStore s s') (c : ClientIdx) :
    s'.publisherKey c = s.publisherKey c := by
  rw [InnerServer.publisherKey, InnerServer.publisherKey, h.owns]

theorem SameStore.lookup_client (h : SameStore s s') (hc : s'.clients.lookup c = some client) :
    ∃ client₀, s.clients.lookup c = some client₀ ∧ client₀.described = client.described := by
  have hd := h.clients c
  rw [hc, Option.map_some] at hd
  exact Option.map_eq_some_iff.mp hd.symm

theorem SameStore.mem_clients (h : SameStore s s') (c : ClientIdx) :
    c ∈ s'.clients ↔ c ∈ s.clients := by
  have hd := congrArg Option.isSome (h.clients c)
  rw [Option.isSome_map, Option.isSome_map] at hd
  rw [← AList.lookup_isSome, ← AList.lookup_isSome, hd]

theorem sameStore_subscribe {sub : Subscribe} {now : Instant} :
    Within SameStore (subscribe o sub c now) := by
  intro s
  refine ends_mono effect_subscribe ?_
  intro r s' h
  rcases h with heq | he
  · rw [heq]
    exact refl_of SameStore s
  · cases he with
    | subscribed sub now stored interest messages frames hc =>
      exact sameStore_put hc rfl rfl rfl rfl
    | subscribeFailed => exact sameStore_of_clients rfl rfl rfl

/-- The operations that are about clients and what they publish. -/
def Op.Populates : Op → Prop
  | .connectClient _ | .disconnectClient _ | .innerPublishTopic _ _
  | .innerUnpublishTopic _ _ => True
  | _ => False

theorem sameStore_perform (op : Op) (hop : ¬op.Populates) :
    Within SameStore (op.perform o) := by
  cases op with
  | subscribe sub c now => exact sameStore_subscribe
  | unsubscribe unsub c => exact within_unsubscribe
  | setProperties msg => exact within_setProperties
  | setValue value t => exact within_setValue
  | announceTopic t responseOpt => exact within_announceTopic
  | announceAllTopicsFor i => exact within_announceAllTopicsFor
  | unAnnounceTopics name t =>
    apply within_unAnnounceTopics
    exact fun c s client ch hc _ _ => sameStore_put hc rfl rfl rfl rfl
  | flushAll => exact within_flushAll
  | flushClient c => exact within_flushClient
  | sendOut clock offset => exact within_ignoring within_sendOut
  | closeChannel c => exact within_closeChannel
  | connectClient | disconnectClient | innerPublishTopic | innerUnpublishTopic =>
    exact (hop trivial).elim

end Frames

section Lists

theorem merge_publisherValue (c : ClientIdx) (l l' : List ClientPublisherMTE) :
    (publisherValue c l).merge (publisherValue c l') = publisherValue c (l ++ l') := by
  unfold publisherValue
  split_ifs <;> rfl

theorem reduce_publisherValue (c : ClientIdx) (l l' : List ClientPublisherMTE) :
    (publisherValue c l).reduce (publisherValue c l') =
      publisherValue c (MetaTopicValue.retainNot l l') := by
  unfold publisherValue
  split_ifs <;> rfl

theorem publisherValue_injective {l l' : List ClientPublisherMTE}
    (h : publisherValue c l = publisherValue c l') : l = l' := by
  unfold publisherValue at h
  split_ifs at h
  · exact MetaTopicValue.serverPublisher.inj h
  · exact MetaTopicValue.clientPublisher.inj h

theorem ends_updatePublishers {f : MetaTopicValue → MetaTopicValue → MetaTopicValue}
    {pubMte : ClientPublisherMTE} {Q : Except NetworkTablesError Unit → InnerServer → Prop} :
    Ends (updatePublishers c f pubMte) s Q ↔
      (∀ key, s.publisherKey c = some key → Q (.ok ()) { s with
        metatopicValueMap := s.metatopicValueMap.insert key
          (f (s.metaValue key (publisherValue c [])) (publisherValue c [pubMte])) }) ∧
      (s.publisherKey c = none → Q (.error (ownMetatopicMissing c)) s) := by
  unfold updatePublishers InnerServer.publisherKey publisherValue
  split_ifs
  · simp [updateMetaValue, InnerServer.metaValue]
  · cases hown : s.clientMetatopicMap.lookup c with
    | none => simp [hown]
    | some own => simp [hown, updateMetaValue, InnerServer.metaValue]

/-- A pubuid that is new gets an entry of its own. -/
theorem ListsAll.insert {m : PrimBiMap PubUID TopicIdx} {pubuid : PubUID} {topic : String}
    (h : ListsAll name l m) (hfresh : m.getByLeft pubuid = none) (ht : name t = some topic) :
    ListsAll name (l ++ [⟨topic, pubuid⟩]) (m.insert pubuid t) := by
  have hpairs : (m.insert pubuid t).iterLr.pairs = (pubuid, t) :: m.iterLr.pairs :=
    KeyMap.pairs_insert_of_notMem (AList.lookup_eq_none.mp hfresh) t
  rw [ListsAll, hpairs, List.map_append, List.map_cons, List.map_cons, ht]
  exact (List.perm_append_singleton _ _).trans (h.cons _)

/-- The entry of a registered pubuid, where its topic has the name, is the only one to go. -/
theorem ListsAll.remove {m : PrimBiMap PubUID TopicIdx} {pubuid : PubUID} {topic : String}
    (h : ListsAll name l m) (hp : m.getByLeft pubuid = some t) (hmem : ⟨topic, pubuid⟩ ∈ l) :
    ListsAll name (MetaTopicValue.retainNot l [⟨topic, pubuid⟩]) (m.removeByLeft pubuid) := by
  have hkeys : (l.map fun e => e.uid).Nodup := by
    have hperm := h.map Prod.fst
    rw [List.map_map, List.map_map] at hperm
    exact hperm.nodup_iff.mpr m.iterLr.nodup_pairs
  have hnodup : l.Nodup := hkeys.of_map _
  have hretain : MetaTopicValue.retainNot l [⟨topic, pubuid⟩] = l.erase ⟨topic, pubuid⟩ := by
    rw [hnodup.erase_eq_filter]
    apply List.filter_congr
    intro e _
    rw [List.contains_cons, List.contains_nil, Bool.or_false, bne]
  have htopic : name t = some topic := by
    have hentry : (pubuid, some topic) ∈ l.map fun e => (e.uid, some e.topic) :=
      List.mem_map.mpr ⟨_, hmem, rfl⟩
    obtain ⟨e, he, heq⟩ := List.mem_map.mp (h.mem_iff.mp hentry)
    obtain ⟨j, u⟩ := e
    simp only [Prod.mk.injEq] at heq
    have hu := (KeyMap.mem_pairs _ _ _).mp he
    rw [heq.1] at hu
    have hsame : some u = some t := hu.symm.trans hp
    rw [← Option.some.inj hsame]
    exact heq.2
  have hfirst := (List.perm_cons_erase hmem).map fun e => (e.uid, some e.topic)
  have hlast := (KeyMap.pairs_perm_erase hp).map fun e => (e.1, name e.2)
  rw [List.map_cons, htopic] at hlast
  rw [List.map_cons] at hfirst
  rw [hretain, ListsAll]
  exact ((hfirst.symm.trans h).trans hlast).cons_inv

theorem ListsAll.extends {m : PrimBiMap PubUID TopicIdx} (h : ListsAll name l m)
    (hext : Extends name name') : ListsAll name' l m := by
  have hsame : (m.iterLr.pairs.map fun e => (e.1, name' e.2)) =
      m.iterLr.pairs.map fun e => (e.1, name e.2) := by
    apply List.map_congr_left
    intro e he
    have hentry := h.mem_iff.mpr (List.mem_map_of_mem he)
    obtain ⟨f, -, heq⟩ := List.mem_map.mp hentry
    simp only [Prod.mk.injEq] at heq
    rw [← heq.2, hext _ _ heq.2.symm]
  rw [ListsAll, hsame]
  exact h

theorem perm_visitorMtes
    (h : ∀ c, (s'.clients.lookup c).map ConnectedClient.identity =
      (s.clients.lookup c).map ConnectedClient.identity) :
    s'.visitorMtes.Perm s.visitorMtes := by
  have hview : ∀ u : InnerServer, u.visitorMtes =
      ((u.clients.pairs.map fun e => (e.1, e.2.identity)).filter fun e =>
        e.1 ≠ serverClientIdx).map fun e => e.2.toMte := by
    intro u
    rw [InnerServer.visitorMtes, List.filter_map, List.map_map]
    rfl
  rw [hview, hview]
  exact ((KeyMap.perm_pairs_map _ h).filter _).map _

end Lists

/-- The names of the metatopics for the publishers of clients. -/
def IsPublisherName (n : String) : Prop := n = "$serverpub" ∨ ∃ m, n = clientPubName m

theorem IsPublisherName.ne_clients {n : String} (h : IsPublisherName n) : n ≠ "$clients" := by
  rcases h with heq | ⟨m, heq⟩
  · rw [heq]
    decide
  · rw [heq]
    exact (ne_append_of_take (by decide : 8 ≤ _) (by decide) (by decide) m).symm

theorem IsPublisherName.ne_metaNames {n : String} (h : IsPublisherName n) (m : String) :
    n ≠ metaPubName m ∧ n ≠ metaSubName m := by
  rcases h with heq | ⟨m', heq⟩
  · rw [heq]
    exact ⟨ne_append_of_take (by decide : 3 ≤ _) (by decide) (by decide) m,
      ne_append_of_take (by decide : 3 ≤ _) (by decide) (by decide) m⟩
  · rw [heq]
    exact ⟨append_ne_of_take (by decide : 3 ≤ _) (by decide) (by decide) m' m,
      append_ne_of_take (by decide : 3 ≤ _) (by decide) (by decide) m' m⟩

theorem clients_ne_metaNames (m : String) :
    "$clients" ≠ metaPubName m ∧ "$clients" ≠ metaSubName m :=
  ⟨ne_append_of_take (by decide : 3 ≤ _) (by decide) (by decide) m,
    ne_append_of_take (by decide : 3 ≤ _) (by decide) (by decide) m⟩

/-- The metatopics describe the store, each list of publishers has a metatopic of such a name, and
clients that share one have nothing registered. -/
structure Populated (name : TopicIdx → Option String) (s : InnerServer) : Prop
    extends DescribesStore name s where
  hosted : serverClientIdx ∈ s.clients
  clientsName : name clientMetatopic = some "$clients"
  serverName : name serverPubMetatopic = some "$serverpub"
  ownName : ∀ c own, s.clientMetatopicMap.lookup c = some own →
    ∃ n, name own.1 = some (clientPubName n)
  apart : ∀ c d client, c ≠ d → s.clients.lookup c = some client → d ∈ s.clients →
    s.publisherKey c = s.publisherKey d → ∀ pubuid, client.pubuidToTopicidx.getByLeft pubuid = none

namespace Populated

variable {key : TopicIdx}

theorem rename (h : Populated name s) (hext : Extends name name') : Populated name' s := by
  refine ⟨⟨h.clients, fun c client hc => ?_⟩, h.hosted, hext _ _ h.clientsName,
    hext _ _ h.serverName, fun c own hown => ?_, h.apart⟩
  · obtain ⟨l, hl, hlists⟩ := h.publishers c client hc
    exact ⟨l, hl, hlists.extends hext⟩
  · obtain ⟨n, hn⟩ := h.ownName c own hown
    exact ⟨n, hext _ _ hn⟩

theorem key_name (h : Populated name s) (hkey : s.publisherKey c = some key) :
    ∃ n, name key = some n ∧ IsPublisherName n := by
  unfold InnerServer.publisherKey at hkey
  split_ifs at hkey
  · cases hkey
    exact ⟨_, h.serverName, .inl rfl⟩
  · obtain ⟨own, hown, heq⟩ := Option.map_eq_some_iff.mp hkey
    obtain ⟨n, hn⟩ := h.ownName c own hown
    rw [heq] at hn
    exact ⟨_, hn, .inr ⟨n, rfl⟩⟩

theorem key_ne_clients (h : Populated name s) (hkey : s.publisherKey c = some key) :
    clientMetatopic ≠ key := by
  intro heq
  obtain ⟨n, hn, hpub⟩ := h.key_name hkey
  rw [← heq, h.clientsName] at hn
  exact hpub.ne_clients (Option.some.inj hn).symm

theorem key_of_client (h : Populated name s) (hc : s.clients.lookup c = some client) :
    ∃ key, s.publisherKey c = some key := by
  obtain ⟨l, ⟨key, hkey, -⟩, -⟩ := h.publishers c client hc
  exact ⟨key, hkey⟩

/-- Nothing changes of what metatopics describe. -/
theorem same (h : Populated name s) (hsame : SameStore s s') : Populated name s' := by
  have hvalue : ∀ key empty, s'.metaValue key empty = s.metaValue key empty := by
    intro key empty
    rw [InnerServer.metaValue, InnerServer.metaValue, hsame.values]
  have hidentity : ∀ c, (s'.clients.lookup c).map ConnectedClient.identity =
      (s.clients.lookup c).map ConnectedClient.identity := by
    intro c
    have hd := congrArg (Option.map Prod.fst) (hsame.clients c)
    rw [Option.map_map, Option.map_map] at hd
    exact hd
  refine ⟨⟨?_, fun c client' hc => ?_⟩, (hsame.mem_clients _).mpr h.hosted, h.clientsName,
    h.serverName, fun c own hown => ?_, fun c d client' hne hc hd heq => ?_⟩
  · obtain ⟨l, hl, hperm⟩ := h.clients
    exact ⟨l, (hvalue _ _).trans hl, hperm.trans (perm_visitorMtes hidentity).symm⟩
  · obtain ⟨client, hc, heq⟩ := hsame.lookup_client hc
    have hpub : client.pubuidToTopicidx = client'.pubuidToTopicidx := congrArg Prod.snd heq
    obtain ⟨l, ⟨key, hkey, hl⟩, hlists⟩ := h.publishers c client hc
    refine ⟨l, ⟨key, (hsame.publisherKey_eq c).trans hkey, (hvalue _ _).trans hl⟩, ?_⟩
    rw [← hpub]
    exact hlists
  · rw [hsame.owns] at hown
    exact h.ownName c own hown
  · obtain ⟨client, hc, hd'⟩ := hsame.lookup_client hc
    have hpub : client.pubuidToTopicidx = client'.pubuidToTopicidx := congrArg Prod.snd hd'
    rw [hsame.publisherKey_eq, hsame.publisherKey_eq] at heq
    rw [← hpub]
    exact h.apart c d client hne hc ((hsame.mem_clients d).mp hd) heq

/-- The registrations of one client and its list change together; other lists keep their values. -/
theorem relist {client' : ConnectedClient} (h : Populated name s)
    (hc : s.clients.lookup c = some client) (hkey : s.publisherKey c = some key)
    (hclients : s'.clients = s.clients.insert c client')
    (hidentity : client'.identity = client.identity)
    (howns : s'.clientMetatopicMap = s.clientMetatopicMap)
    (hlist : s'.metaValue key (publisherValue c []) = publisherValue c l)
    (hlists : ListsAll name l client'.pubuidToTopicidx)
    (hrest : ∀ k n, k ≠ key → name k = some n → n = "$clients" ∨ IsPublisherName n →
      s'.metatopicValueMap.lookup k = s.metatopicValueMap.lookup k)
    (hapart : ∀ d ∈ s.clients, d ≠ c → s.publisherKey d ≠ s.publisherKey c) :
    Populated name s' := by
  have hkeys : ∀ d, s'.publisherKey d = s.publisherKey d := by
    intro d
    rw [InnerServer.publisherKey, InnerServer.publisherKey, howns]
  have hmem : ∀ d, d ∈ s'.clients ↔ d ∈ s.clients := by
    intro d
    rw [hclients, AList.mem_insert, or_iff_right_of_imp]
    intro hd
    rw [hd]
    exact (KeyMap.mem_iff_lookup _ _).mpr ⟨client, hc⟩
  have hsame : ∀ d, (s'.clients.lookup d).map ConnectedClient.identity =
      (s.clients.lookup d).map ConnectedClient.identity := by
    intro d
    rw [hclients, KeyMap.lookup_insert]
    split_ifs with hd
    · rw [hd, hc, Option.map_some, Option.map_some, hidentity]
    · rfl
  refine ⟨⟨?_, fun d client₀ hd => ?_⟩, (hmem _).mpr h.hosted, h.clientsName, h.serverName,
    fun d own hown => ?_, fun d d' client₀ hne hd hd' heq => ?_⟩
  · obtain ⟨l, hl, hperm⟩ := h.clients
    refine ⟨l, ?_, hperm.trans (perm_visitorMtes hsame).symm⟩
    rw [InnerServer.metaValue, hrest _ _ (h.key_ne_clients hkey) h.clientsName (.inl rfl)]
    exact hl
  · rw [hclients, KeyMap.lookup_insert] at hd
    split_ifs at hd with hdc
    · cases hd
      rw [hdc]
      exact ⟨l, ⟨key, (hkeys c).trans hkey, hlist⟩, hlists⟩
    · obtain ⟨l₀, ⟨key₀, hkey₀, hl₀⟩, hlists₀⟩ := h.publishers d client₀ hd
      refine ⟨l₀, ⟨key₀, (hkeys d).trans hkey₀, ?_⟩, hlists₀⟩
      obtain ⟨n, hn, hpub⟩ := h.key_name hkey₀
      have hne : key₀ ≠ key := by
        intro heq
        apply hapart d ((KeyMap.mem_iff_lookup _ _).mpr ⟨client₀, hd⟩) hdc
        rw [hkey₀, hkey, heq]
      rw [InnerServer.metaValue, hrest key₀ n hne hn (.inr hpub)]
      exact hl₀
  · rw [howns] at hown
    exact h.ownName d own hown
  · rw [hkeys, hkeys] at heq
    have hmem' := (hmem d').mp hd'
    rw [hclients, KeyMap.lookup_insert] at hd
    split_ifs at hd with hdc
    · rw [hdc] at heq hne
      exact (hapart d' hmem' hne.symm heq.symm).elim
    · exact h.apart d d' client₀ hne hd hmem' heq

end Populated

section Connect

variable {identity named : ClientIdentity}

theorem ListsAll.nil {m : PrimBiMap PubUID TopicIdx} (h : ListsAll name [] m) (pubuid : PubUID) :
    m.getByLeft pubuid = none := by
  have hnil := List.map_eq_nil_iff.mp (List.nil_perm.mp h)
  cases hp : m.getByLeft pubuid with
  | none => rfl
  | some t =>
    have hmem := (KeyMap.mem_pairs m.map pubuid t).mpr hp
    have hpairs : m.map.pairs = [] := hnil
    rw [hpairs] at hmem
    cases hmem

theorem ensureTopic_metatopicValueMap (s : InnerServer) (topic : Topic) :
    (ensureTopic s topic).2.metatopicValueMap = s.metatopicValueMap := by
  unfold ensureTopic
  split <;> rfl

theorem ensureTopic_clientMetatopicMap (s : InnerServer) (topic : Topic) :
    (ensureTopic s topic).2.clientMetatopicMap = s.clientMetatopicMap := by
  unfold ensureTopic
  split <;> rfl

theorem ensureTopic_fst (s : InnerServer) (topic : Topic) :
    (ensureTopic s topic).1 = (s.topicMap.lookup topic.name).getD s.counters.topicIdx := by
  unfold ensureTopic
  cases s.topicMap.lookup topic.name <;> rfl

theorem connected_values (s : InnerServer) (named : ClientIdentity) :
    (s.connected named).metatopicValueMap = (s.withClientEntry named).metatopicValueMap :=
  (ensureTopic_metatopicValueMap _ _).trans (ensureTopic_metatopicValueMap _ _)

theorem connected_owns (s : InnerServer) (named : ClientIdentity) :
    ∃ q, (s.connected named).clientMetatopicMap = s.clientMetatopicMap.insert s.counters.clientIdx
      ((ensureTopic s (.newMeta (clientPubName named.name))).1, q) := by
  let u := (s.withClient named).withClientEntry named
  let pub := ensureTopic u (.newMeta (clientPubName named.name))
  let sub := ensureTopic pub.2 (.newMeta (clientSubName named.name))
  have howns : sub.2.clientMetatopicMap = s.clientMetatopicMap :=
    (ensureTopic_clientMetatopicMap _ _).trans (ensureTopic_clientMetatopicMap _ _)
  have hidx : pub.1 = (ensureTopic s (.newMeta (clientPubName named.name))).1 :=
    (ensureTopic_fst u _).trans (ensureTopic_fst s _).symm
  refine ⟨sub.1, ?_⟩
  rw [← hidx, ← howns]
  rfl

theorem lookup_topicMap_connected (s : InnerServer) (named : ClientIdentity) :
    (s.connected named).topicMap.lookup (clientPubName named.name) =
      some (ensureTopic s (.newMeta (clientPubName named.name))).1 := by
  let u := (s.withClient named).withClientEntry named
  let pub := ensureTopic u (.newMeta (clientPubName named.name))
  have hpub : pub.2.topicMap.lookup (clientPubName named.name) = some pub.1 :=
    lookup_ensureTopic u (.newMeta (clientPubName named.name))
  have hsub : Does IsTopic 1 pub.2 (ensureTopic pub.2 (.newMeta (clientSubName named.name))).2 :=
    does_ensureTopic ⟨_, rfl⟩
  have hidx : pub.1 = (ensureTopic s (.newMeta (clientPubName named.name))).1 :=
    (ensureTopic_fst u _).trans (ensureTopic_fst s _).symm
  rw [← hidx]
  exact hsub.lookup_topicMap (fun t how h => by obtain ⟨n, hn⟩ := h; cases hn) hpub

/-- A client that connects is put on the list of clients, and begins with an empty list of its
own. -/
theorem Populated.connect (h : Populated name s) (hfree : s.counters.clientIdx ∉ s.clients)
    (hempty : s.metaValue (ensureTopic s (.newMeta (clientPubName named.name))).1
      (.clientPublisher []) = .clientPublisher [])
    (hown : name (ensureTopic s (.newMeta (clientPubName named.name))).1 =
      some (clientPubName named.name)) : Populated name (s.connected named) := by
  obtain ⟨q, howns⟩ := connected_owns s named
  generalize (ensureTopic s (.newMeta (clientPubName named.name))).1 = p at hempty hown howns
  have hnew : s.counters.clientIdx ≠ serverClientIdx := by
    intro heq
    rw [heq] at hfree
    exact hfree h.hosted
  have hvalue : ∀ key empty, key ≠ clientMetatopic →
      (s.connected named).metaValue key empty = s.metaValue key empty := by
    intro key empty hne
    rw [InnerServer.metaValue, connected_values, InnerServer.withClientEntry,
      KeyMap.lookup_insert, if_neg hne, InnerServer.metaValue]
  have hkeys : ∀ d, d ≠ s.counters.clientIdx →
      (s.connected named).publisherKey d = s.publisherKey d := by
    intro d hd
    rw [InnerServer.publisherKey, InnerServer.publisherKey, howns, KeyMap.lookup_insert,
      if_neg hd]
  have hkey : (s.connected named).publisherKey s.counters.clientIdx = some p := by
    rw [InnerServer.publisherKey, if_neg hnew, howns, KeyMap.lookup_insert, if_pos rfl]
    rfl
  have hpublisher : IsPublisherName (clientPubName named.name) := .inr ⟨_, rfl⟩
  have hp : p ≠ clientMetatopic := by
    intro heq
    rw [heq, h.clientsName] at hown
    exact hpublisher.ne_clients (Option.some.inj hown).symm
  have hvalueOf : publisherValue s.counters.clientIdx [] = .clientPublisher [] := if_neg hnew
  have hmem : ∀ d client, (s.connected named).clients.lookup d = some client →
      (d = s.counters.clientIdx ∧ client = .new named) ∨
        d ≠ s.counters.clientIdx ∧ s.clients.lookup d = some client := by
    intro d client hd
    rw [connected_clients, KeyMap.lookup_insert] at hd
    split_ifs at hd with heq
    · exact .inl ⟨heq, (Option.some.inj hd).symm⟩
    · exact .inr ⟨heq, hd⟩
  -- a client whose metatopic is `p` already has an empty list there
  have hnone : ∀ d client, s.clients.lookup d = some client → s.publisherKey d = some p →
      ∀ pubuid, client.pubuidToTopicidx.getByLeft pubuid = none := by
    intro d client hd hdp
    obtain ⟨l, ⟨key, hkey, hl⟩, hlists⟩ := h.publishers d client hd
    rw [hdp] at hkey
    cases hkey
    have hserver : d ≠ serverClientIdx := by
      intro heq
      rw [InnerServer.publisherKey, if_pos heq] at hdp
      rw [← Option.some.inj hdp, h.serverName] at hown
      have hne := ne_append_of_take (p := "$serverpub") (q := "$clientpub$")
        (by decide : 2 ≤ _) (by decide) (by decide) named.name
      exact hne (Option.some.inj hown)
    have hof : publisherValue d [] = .clientPublisher [] := if_neg hserver
    rw [hof, hempty, ← hof] at hl
    rw [← publisherValue_injective hl] at hlists
    exact hlists.nil
  refine ⟨⟨?_, fun d client hd => ?_⟩, ?_, h.clientsName, h.serverName, fun d own hd => ?_,
    fun d d' client hne hd hd' heq pubuid => ?_⟩
  · obtain ⟨l, hl, hperm⟩ := h.clients
    refine ⟨l ++ [named.toMte], ?_, ?_⟩
    · have hl : (s.metatopicValueMap.lookup clientMetatopic).getD (.client []) = .client l := hl
      rw [InnerServer.metaValue, connected_values, InnerServer.withClientEntry,
        KeyMap.lookup_insert, if_pos rfl, Option.getD_some, hl]
      rfl
    · rw [InnerServer.visitorMtes, connected_clients, KeyMap.pairs_insert_of_notMem hfree,
        List.filter_cons_of_pos (by simpa using hnew), List.map_cons]
      exact (List.perm_append_singleton _ _).trans (hperm.cons _)
  · rcases hmem d client hd with ⟨rfl, rfl⟩ | ⟨hne, hd⟩
    · refine ⟨[], ⟨p, hkey, ?_⟩, List.Perm.refl _⟩
      rw [hvalue _ _ hp, hvalueOf]
      exact hempty
    · obtain ⟨l, ⟨key, hkey, hl⟩, hlists⟩ := h.publishers d client hd
      refine ⟨l, ⟨key, (hkeys d hne).trans hkey, ?_⟩, hlists⟩
      rw [hvalue _ _ (h.key_ne_clients hkey).symm]
      exact hl
  · rw [connected_clients, AList.mem_insert]
    exact .inr h.hosted
  · rw [howns, KeyMap.lookup_insert] at hd
    split_ifs at hd
    · cases hd
      exact ⟨_, hown⟩
    · exact h.ownName d own hd
  · rcases hmem d client hd with ⟨rfl, rfl⟩ | ⟨hdne, hd⟩
    · rfl
    · obtain ⟨client', hd'⟩ := (KeyMap.mem_iff_lookup _ _).mp hd'
      rw [hkeys d hdne] at heq
      rcases hmem d' client' hd' with ⟨rfl, -⟩ | ⟨hdne', hd'⟩
      · rw [hkey] at heq
        exact hnone d client hd heq pubuid
      · rw [hkeys d' hdne'] at heq
        exact h.apart d d' client hne hd ((KeyMap.mem_iff_lookup _ _).mpr ⟨_, hd'⟩) heq pubuid

theorem populated_started (hclients : name clientMetatopic = some "$clients")
    (hserver : name serverPubMetatopic = some "$serverpub") : Populated name started := by
  have hclient : ∀ d client, started.clients.lookup d = some client →
      d = serverClientIdx ∧ client = serverClient := by
    intro d client hd
    have hd : ((∅ : KeyMap ClientIdx ConnectedClient).insert serverClientIdx
      serverClient).lookup d = some client := hd
    rw [KeyMap.lookup_insert] at hd
    split_ifs at hd with heq
    · exact ⟨heq, (Option.some.inj hd).symm⟩
    · cases hd
  refine ⟨⟨⟨[], rfl, List.Perm.refl _⟩, fun d client hd => ?_⟩, ?_, hclients, hserver,
    fun d own hd => ?_, fun d d' client hne hd hd' => ?_⟩
  · obtain ⟨rfl, rfl⟩ := hclient d client hd
    exact ⟨[], ⟨serverPubMetatopic, rfl, rfl⟩, List.Perm.refl _⟩
  · exact (KeyMap.mem_iff_lookup _ _).mpr ⟨serverClient, rfl⟩
  · cases hd
  · obtain ⟨client', hd'⟩ := (KeyMap.mem_iff_lookup _ _).mp hd'
    exact (hne ((hclient d client hd).1.trans (hclient d' client' hd').1.symm)).elim

end Connect

section Publish

variable {pubTopic : PublishTopic}

/-- A publication that succeeds got past its announcements. -/
theorem registers_of_ok
    (hx : (innerPublishTopic o pubTopic c).exec s = .ok (.ok t, s')) : Registers s pubTopic c := by
  have hend := ends_of_exec (ends_innerPublishTopic s pubTopic c) hx
  have hok := congrArg Prod.fst hend
  simp only [publishEnd] at hok
  simp only [Registers]
  by_cases hnew : AddsNormal s (.fromPublishTopic pubTopic)
  · rw [if_pos hnew] at hok
    rw [if_pos hnew]
    split_ifs at hok with hfirst hpub hmet hsub
    exact ⟨by simpa using hmet, hpub, hsub⟩
  · rw [if_neg hnew] at hok
    rw [if_neg hnew]
    unfold lastEnd at hok
    split_ifs at hok with hmet
    refine ⟨by simpa using hmet, ?_⟩
    split at hok
    next => cases hok
    next => cases hok
    next topic client ht hc => exact (KeyMap.mem_iff_lookup _ _).mpr ⟨topic, ht⟩

/-- The server where a client has registered a topic, with the entry for it. -/
def InnerServer.registered (s : InnerServer) (c : ClientIdx) (client : ConnectedClient)
    (pubTopic : PublishTopic) (t key : TopicIdx) : InnerServer :=
  { s with
    clients := s.clients.insert c
      { client with pubuidToTopicidx := client.pubuidToTopicidx.insert pubTopic.pubuid t }
    metatopicValueMap := s.metatopicValueMap.insert key
      ((s.metaValue key (publisherValue c [])).merge
        (publisherValue c [⟨pubTopic.name, pubTopic.pubuid⟩])) }

/-- Up to the registration a publication does nothing that metatopics describe. -/
theorem ends_innerPublishTopic_store
    (hkeys : ∀ client, s.clients.lookup c = some client → ∃ key, s.publisherKey c = some key) :
    Ends (innerPublishTopic o pubTopic c) s fun r s' => SameStore s s' ∨
      ∃ u client key, r = .ok (ensureTopic s (.fromPublishTopic pubTopic)).1 ∧ SameStore s u ∧
        u.clients.lookup c = some client ∧ s.publisherKey c = some key ∧
        s' = u.registered c client pubTopic (ensureTopic s (.fromPublishTopic pubTopic)).1 key := by
  have hadd : Ends (addTopic o (.fromPublishTopic pubTopic)) s _ :=
    ends_and (within_addTopic (R := SameStore) s)
      (does_addTopic (P := IsTopic) (fun _ => ⟨_, rfl⟩) (fun _ _ => ⟨⟨_, rfl⟩, _, rfl⟩)
        fun t how h => by obtain ⟨n, hn⟩ := h; cases hn)
  simp only [innerPublishTopic, ends_bind]
  refine ends_mono hadd ?_
  intro r s₁ h₁
  obtain ⟨hs₁, -, -, hindex⟩ := h₁
  cases r with
  | error e => exact .inl hs₁
  | ok t =>
    rw [← hindex t rfl]
    refine (thenEnds_ok _ _ _).mpr ((ends_bind _ _).mpr
      (ends_mono (within_announceTopic (R := SameStore) s₁) ?_))
    intro r u hu
    have hu := trans_of SameStore hs₁ hu
    cases r with
    | error e => exact .inl hu
    | ok =>
      simp only [thenEnds_ok, ends_bind, ends_get, ends_okOr, thenEnds_error, putClient,
        ends_modify, ends_updatePublishers, ends_pure]
      refine ⟨fun client hc => ?_, fun _ => .inl hu⟩
      have hsame : ∀ clients, InnerServer.publisherKey { u with clients := clients } c =
          s.publisherKey c := by
        intro clients
        rw [InnerServer.publisherKey, InnerServer.publisherKey]
        simp only [hu.owns]
      rw [hsame]
      obtain ⟨client₀, hc₀, -⟩ := hu.lookup_client hc
      obtain ⟨key, hkey⟩ := hkeys client₀ hc₀
      refine ⟨fun key hkey => .inr ⟨u, client, key, trivial, hu, hc, hkey, rfl⟩, fun hnone => ?_⟩
      rw [hkey] at hnone
      cases hnone

theorem Populated.publish {r : Except NetworkTablesError TopicIdx} (h : Populated name s)
    (hg : KeepsMetatopics s (.innerPublishTopic pubTopic c))
    (hx : (innerPublishTopic o pubTopic c).exec s = .ok (r, s'))
    (hname : name (ensureTopic s (.fromPublishTopic pubTopic)).1 = some pubTopic.name) :
    Populated name s' := by
  have hends := ends_of_exec
    (ends_innerPublishTopic_store fun client hc => h.key_of_client hc) hx
  rcases hends with hsame | ⟨u, client, key, rfl, hu, hc, hkey, rfl⟩
  · exact h.same hsame
  · obtain ⟨client₀, hc₀, heq⟩ := hu.lookup_client hc
    obtain ⟨hfresh, hapart⟩ := hg (registers_of_ok hx) client₀ hc₀
    have hpub : client₀.pubuidToTopicidx = client.pubuidToTopicidx := congrArg Prod.snd heq
    rw [hpub] at hfresh
    have hu' : Populated name u := h.same hu
    obtain ⟨l, ⟨key', hkey', hl⟩, hlists⟩ := hu'.publishers c client hc
    rw [hu.publisherKey_eq, hkey] at hkey'
    cases hkey'
    refine hu'.relist hc ((hu.publisherKey_eq c).trans hkey) rfl rfl rfl ?_
      (hlists.insert hfresh hname) ?_ ?_
    · rw [InnerServer.registered, InnerServer.metaValue, KeyMap.lookup_insert, if_pos rfl,
        Option.getD_some, hl, merge_publisherValue]
    · intro k n hk _ _
      exact AList.lookup_insert_ne hk
    · intro d hd hdc
      rw [hu.publisherKey_eq, hu.publisherKey_eq]
      exact hapart d ((hu.mem_clients d).mp hd) hdc

end Publish

section Unpublish

variable {pubTopic : UnpublishTopic} {n : UInt16} {key : TopicIdx}

/-- The values that `remove_topic` leaves where it gets to the end, or all of them. -/
def LeftOver (s : InnerServer) (values : KeyMap TopicIdx MetaTopicValue) : Prop :=
  values = s.metatopicValueMap ∨ ∃ m p q, s.topicMap.lookup (metaPubName m) = some p ∧
    s.topicMap.lookup (metaSubName m) = some q ∧
    values = (s.metatopicValueMap.erase p).erase q

theorem ends_innerUnpublishTopic_store (hc : s.clients.lookup c = some client)
    (hp : client.pubuidToTopicidx.getByLeft pubTopic.pubuid = some t)
    (hn : s.pubCount.lookup t = some n) (hremovable : n = 1 → s.tables.Removable t)
    (hkey : s.publisherKey c = some key) :
    Ends (innerUnpublishTopic pubTopic c) s fun _ s' =>
      s'.clients = s.clients.insert c
        { client with pubuidToTopicidx := client.pubuidToTopicidx.removeByLeft pubTopic.pubuid } ∧
      s'.clientMetatopicMap = s.clientMetatopicMap ∧ ∃ values, LeftOver s values ∧
        s'.metatopicValueMap = values.insert key
          (((values.lookup key).getD (publisherValue c [])).reduce
            (publisherValue c [unpublishMte s t pubTopic.pubuid])) := by
  have hkeys : ∀ u : InnerServer, u.clientMetatopicMap = s.clientMetatopicMap →
      u.publisherKey c = some key := by
    intro u hu
    rw [InnerServer.publisherKey, hu]
    exact hkey
  have hupdate : ∀ u : InnerServer, u.clientMetatopicMap = s.clientMetatopicMap →
      Ends (updatePublishers c .reduce (unpublishMte s t pubTopic.pubuid)) u fun _ s' =>
        s' = { u with
          metatopicValueMap := u.metatopicValueMap.insert key
            ((u.metaValue key (publisherValue c [])).reduce
              (publisherValue c [unpublishMte s t pubTopic.pubuid])) } := by
    intro u hu
    refine ends_updatePublishers.mpr ⟨fun key' hkey' => ?_, fun hnone => ?_⟩
    · rw [hkeys u hu] at hkey'
      cases hkey'
      rfl
    · rw [hkeys u hu] at hnone
      cases hnone
  simp only [innerUnpublishTopic, ends_bind, ends_get, thenEnds_ok, ends_okOr, thenEnds_error,
    putClient, ends_modify, hc, hp, hn, Option.some.injEq, forall_eq', reduceCtorEq,
    false_implies, and_true]
  split_ifs with hzero
  · obtain rfl := uint16_pred_eq_zero hzero
    obtain ⟨topic, p, q, ht, hpub, hsub⟩ := hremovable rfl
    simp only [ends_bind]
    have ht : s.topics.lookup t = some topic := ht
    have hpub : s.topicMap.lookup (metaPubName topic.name) = some p := hpub
    have hsub : s.topicMap.lookup (metaSubName topic.name) = some q := hsub
    refine ends_removeTopic.mpr ⟨fun hnone => ?_, fun topic' ht' => ?_⟩
    · rw [ht] at hnone
      cases hnone
    · have heq : topic' = topic := Option.some.inj (ht'.symm.trans ht)
      subst heq
      refine ⟨fun hnone => ?_, fun p' hp' => ⟨fun hnone => ?_, fun q' hq' => ?_⟩⟩
      · rw [hpub] at hnone
        cases hnone
      · rw [hsub] at hnone
        cases hnone
      · rw [hpub] at hp'
        rw [hsub] at hq'
        cases hp'
        cases hq'
        refine ends_mono (hupdate _ rfl) ?_
        intro r s' hs'
        rw [hs']
        exact ⟨rfl, rfl, _, .inr ⟨topic'.name, p, q, hpub, hsub, rfl⟩, rfl⟩
  · refine ends_mono (hupdate _ rfl) ?_
    intro r s' hs'
    rw [hs']
    exact ⟨rfl, rfl, _, .inl rfl, rfl⟩

/-- The values that lists of publishers and of clients have are left over. -/
theorem LeftOver.lookup {values : KeyMap TopicIdx MetaTopicValue} {k : TopicIdx} {m : String}
    (h : LeftOver s values)
    (hmap : ∀ n t, s.topicMap.lookup n = some t → name t = some n) (hk : name k = some m)
    (hm : m = "$clients" ∨ IsPublisherName m) :
    values.lookup k = s.metatopicValueMap.lookup k := by
  rcases h with heq | ⟨topic, p, q, hp, hq, heq⟩
  · rw [heq]
  · have hne : m ≠ metaPubName topic ∧ m ≠ metaSubName topic := by
      rcases hm with heq | hpub
      · rw [heq]
        exact clients_ne_metaNames topic
      · exact hpub.ne_metaNames topic
    have hkp : k ≠ p := by
      intro heq
      rw [heq, hmap _ _ hp] at hk
      exact hne.1 (Option.some.inj hk).symm
    have hkq : k ≠ q := by
      intro heq
      rw [heq, hmap _ _ hq] at hk
      exact hne.2 (Option.some.inj hk).symm
    rw [heq, KeyMap.lookup_erase, if_neg hkq, KeyMap.lookup_erase, if_neg hkp]

/-- An unpublication that finds no registration is refused at once. -/
theorem ends_innerUnpublishTopic_unregistered
    (h : ∀ client, s.clients.lookup c = some client →
      client.pubuidToTopicidx.getByLeft pubTopic.pubuid = none) :
    Ends (innerUnpublishTopic pubTopic c) s fun _ s' => s' = s := by
  cases hc : s.clients.lookup c with
  | none => simp [innerUnpublishTopic, hc]
  | some client => simp [innerUnpublishTopic, hc, h client hc]

theorem Populated.unpublish (h : Populated name s)
    (hg : KeepsMetatopics s (.innerUnpublishTopic pubTopic c))
    (hmap : ∀ n t, s.topicMap.lookup n = some t → name t = some n)
    {r : Except NetworkTablesError Unit}
    (hx : (innerUnpublishTopic pubTopic c).exec s = .ok (r, s')) : Populated name s' := by
  cases hc : s.clients.lookup c with
  | none =>
    rw [ends_of_exec (ends_innerUnpublishTopic_unregistered (by simp [hc])) hx]
    exact h
  | some client =>
    cases hp : client.pubuidToTopicidx.getByLeft pubTopic.pubuid with
    | none =>
      rw [ends_of_exec (ends_innerUnpublishTopic_unregistered (by simp [hc, hp])) hx]
      exact h
    | some t =>
      obtain ⟨⟨n, hn, hremovable⟩, l', ⟨key', hkey', hl'⟩, hmem⟩ := hg client t hc hp
      obtain ⟨l, ⟨key, hkey, hl⟩, hlists⟩ := h.publishers c client hc
      have hsame : key' = key := Option.some.inj (hkey'.symm.trans hkey)
      rw [hsame, hl] at hl'
      rw [← publisherValue_injective hl'] at hmem
      obtain ⟨hclients, howns, values, hleft, hvalues⟩ := ends_of_exec
        (ends_innerUnpublishTopic_store hc hp hn hremovable hkey) hx
      obtain ⟨m, hm, hpub⟩ := h.key_name hkey
      have hold : (values.lookup key).getD (publisherValue c []) = publisherValue c l := by
        rw [hleft.lookup hmap hm (.inr hpub)]
        exact hl
      refine h.relist hc hkey hclients rfl howns ?_ (hlists.remove hp hmem) ?_ ?_
      · rw [InnerServer.metaValue, hvalues, KeyMap.lookup_insert, if_pos rfl, Option.getD_some,
          hold, reduce_publisherValue]
        rfl
      · intro k m hk hm hclass
        rw [hvalues, KeyMap.lookup_insert, if_neg hk]
        exact hleft.lookup hmap hm hclass
      · intro d hd hdc heq
        have hnone := h.apart c d client hdc.symm hc hd heq.symm pubTopic.pubuid
        rw [hp] at hnone
        cases hnone

end Unpublish

section Run

/-- A disconnection that finds no client takes at most a name out of `client_map`. -/
theorem sameStore_disconnectClient {ident : ClientIdentity}
    (hg : KeepsMetatopics s (.disconnectClient ident)) :
    Ends (disconnectClient o ident) s fun _ s' => SameStore s s' := by
  simp only [disconnectClient, ends_bind, ends_get, thenEnds_ok, ends_okOr, thenEnds_error,
    ends_modify]
  refine ⟨fun c hident => ⟨fun client hc => ?_, fun _ => sameStore_of_clients rfl rfl rfl⟩,
    fun _ => refl_of SameStore s⟩
  exact (hg c hident ((KeyMap.mem_iff_lookup _ _).mpr ⟨client, hc⟩)).elim

/-- One step of a run, where names are only added. -/
theorem Populated.step (h : Populated name s) (hg : KeepsMetatopics s op) (hop : Step s op s')
    (hext : Extends name name') (hmap : ∀ n t, s.topicMap.lookup n = some t → name t = some n)
    (hmap' : ∀ n t, s'.topicMap.lookup n = some t → name' t = some n) : Populated name' s' := by
  have hrenamed := h.rename hext
  by_cases hpop : op.Populates
  · obtain ⟨o, r, hx⟩ := hop
    cases op with
    | connectClient identity =>
      have hconnect : Ends (connectClient o identity) s fun _ s' => s' = s ∨
          s.clientMap.lookup identity = none ∧ s' = s.connected (uniqueIdentity s identity) := by
        refine ends_connectClient.mpr ?_
        split_ifs with hthere
        · exact .inl rfl
        · exact .inr ⟨by simpa using hthere, rfl⟩
      rcases ends_of_exec (ends_ignoring hconnect) hx with heq | ⟨hnew, heq⟩
      · rw [heq]
        exact hrenamed
      · obtain ⟨hfree, hempty⟩ := hg hnew
        rw [heq] at hmap' ⊢
        exact hrenamed.connect hfree hempty (hmap' _ _ (lookup_topicMap_connected s _))
    | disconnectClient ident =>
      exact hrenamed.same (ends_of_exec (sameStore_disconnectClient hg) hx)
    | innerPublishTopic pubTopic c =>
      have hmade : Ends (innerPublishTopic o pubTopic c) s fun _ s' =>
          (∃ r, (innerPublishTopic o pubTopic c).exec s = .ok (r, s')) ∧
            s'.topicMap.lookup pubTopic.name =
              some (ensureTopic s (.fromPublishTopic pubTopic)).1 := by
        refine ends_and (fun r s' hx => ⟨r, hx⟩) (ends_mono (does_innerPublishTopic
          (P := fun a => ∀ t how, a ≠ .gone t how) ?_ ?_ ?_ ?_) fun _ _ h => h.2)
        · intro t how heq
          cases heq
        · intro _ t how heq
          cases heq
        · intro _ _
          constructor
          · intro t how heq
            cases heq
          · intro t how heq
            cases heq
        · intro t how hne
          exact hne t how rfl
      obtain ⟨⟨r, hx⟩, hname⟩ := ends_of_exec (ends_ignoring hmade) hx
      exact hrenamed.publish hg hx (hmap' _ _ hname)
    | innerUnpublishTopic pubTopic c =>
      exact hrenamed.unpublish hg (fun n t hn => hext t n (hmap n t hn)) hx
    | _ => exact hpop.elim
  · obtain ⟨o, r, hx⟩ := hop
    exact hrenamed.same (ends_of_exec (sameStore_perform op hpop s) hx)

theorem populated_of_logged {u : Kind → Nat} (run : LoggedWhere KeepsMetatopics u (log, s))
    (hu : u .topic < 2 ^ 32) :
    Recorded log s ∧ Populated (createdAs (visited log s)) s := by
  have hinv := run.invariant (fun u p => u .topic < 2 ^ 32 →
    Recorded p.1 p.2 ∧ Populated (createdAs (visited p.1 p.2)) p.2) ?_ ?_
  · exact hinv hu
  · intro p hp _
    obtain ⟨log, s⟩ := p
    obtain ⟨rfl, hinit⟩ := hp
    have hrecorded := recorded_start hinit
    refine ⟨hrecorded, ?_⟩
    have hnames : started.topicMap.lookup "$clients" = some clientMetatopic ∧
        started.topicMap.lookup "$serverpub" = some serverPubMetatopic := by decide +kernel
    have hs : s = started := hinit.eq_started
    subst hs
    exact populated_started (hrecorded.map _ _ hnames.1) (hrecorded.map _ _ hnames.2)
  · intro u p op q run ih hg hop hu
    obtain ⟨log, s⟩ := p
    obtain ⟨log', s'⟩ := q
    obtain ⟨hop, rfl⟩ := hop
    rw [Pi.add_apply] at hu
    obtain ⟨hrecorded, hpop⟩ := ih (lt_of_le_of_lt (Nat.le_add_right ..) hu)
    have hrun : Runs u s := (Lib.Run.Logged.run (p := (log, s)) run).mono fun _ _ _ => trivial
    have hnext := hrecorded.step hrun hop hu
    refine ⟨hnext, hpop.step hg hop ?_ hrecorded.map hnext.map⟩
    exact fun t n ht => createdAs_step ht

/-- In a run whose steps all keep the metatopics in step, and that creates fewer than 2^32 topics,
the value of `$clients` lists exactly the connected clients, and the values of `$serverpub` and of
each client's own metatopic list exactly what is registered, each under the name that its topic was
created with. -/
theorem metatopics_describe_store {u : Kind → Nat} (run : LoggedWhere KeepsMetatopics u (log, s))
    (hu : u .topic < 2 ^ 32) : DescribesStore (createdAs (visited log s)) s :=
  (populated_of_logged run hu).2.toDescribesStore

end Run

section Concrete

/-- The entries of a value for clients. -/
def clientEntries : MetaTopicValue → List ClientMTE
  | .client l => l
  | _ => []

/-- The entries of a value for publishers. -/
def publisherEntries : MetaTopicValue → List ClientPublisherMTE
  | .clientPublisher l | .serverPublisher l => l
  | _ => []

/-- A check that keeps the metatopics in step, for clients that stay. -/
def keepsMetatopics (s : InnerServer) : Op → Bool
  | .connectClient identity => (s.clients.lookup s.counters.clientIdx).isNone &&
      (s.metatopicValueMap.lookup (ownPubIdx s identity)).isNone
  | .disconnectClient _ => false
  | .innerPublishTopic pubTopic c => s.clients.pairs.all fun e =>
      if e.1 = c then (e.2.pubuidToTopicidx.getByLeft pubTopic.pubuid).isNone
      else decide (s.publisherKey e.1 ≠ s.publisherKey c)
  | .innerUnpublishTopic pubTopic c => s.clients.pairs.all fun e =>
      e.1 ≠ c || match e.2.pubuidToTopicidx.getByLeft pubTopic.pubuid, s.publisherKey c with
        | some t, some key => (s.pubCount.lookup t).isSome && (s.tables.remove t).isSome &&
            match s.metaValue key (publisherValue c []) with
            | .clientPublisher l => c ≠ serverClientIdx &&
                l.contains (unpublishMte s t pubTopic.pubuid)
            | _ => false
        | _, _ => false
  | _ => true

theorem keepsMetatopics_sound (s : InnerServer) (op : Op) (h : keepsMetatopics s op = true) :
    KeepsMetatopics s op := by
  cases op with
  | connectClient identity =>
    simp only [keepsMetatopics, Bool.and_eq_true, Option.isNone_iff_eq_none] at h
    intro _
    refine ⟨AList.lookup_eq_none.mp h.1, ?_⟩
    rw [InnerServer.metaValue, h.2, Option.getD_none]
  | disconnectClient ident => cases h
  | innerPublishTopic pubTopic c =>
    simp only [keepsMetatopics, List.all_eq_true] at h
    intro _ client hc
    refine ⟨?_, fun d hd hdc => ?_⟩
    · have hone := h (c, client) ((KeyMap.mem_pairs _ _ _).mpr hc)
      rw [if_pos rfl] at hone
      exact Option.isNone_iff_eq_none.mp hone
    · obtain ⟨client', hd⟩ := (KeyMap.mem_iff_lookup _ _).mp hd
      have hone := h (d, client') ((KeyMap.mem_pairs _ _ _).mpr hd)
      rw [if_neg hdc] at hone
      exact of_decide_eq_true hone
  | innerUnpublishTopic pubTopic c =>
    simp only [keepsMetatopics, List.all_eq_true] at h
    intro client t hc hp
    have hone := h (c, client) ((KeyMap.mem_pairs _ _ _).mpr hc)
    rw [hp] at hone
    simp only [ne_eq, not_true_eq_false, decide_false, Bool.false_or] at hone
    split at hone
    next t' key ht hkey =>
      cases ht
      simp only [Bool.and_eq_true, Option.isSome_iff_exists] at hone
      obtain ⟨⟨⟨n, hn⟩, m, hm⟩, hlist⟩ := hone
      have hremovable : s.tables.Removable t := by
        by_contra hnot
        rw [TopicTables.remove_eq_none.mpr hnot] at hm
        cases hm
      refine ⟨⟨n, hn, fun _ => hremovable⟩, ?_⟩
      split at hlist
      next l hl =>
        simp only [Bool.and_eq_true, decide_eq_true_eq, List.contains_iff_mem] at hlist
        refine ⟨l, ⟨key, hkey, ?_⟩, hlist.2⟩
        have hof : publisherValue c l = .clientPublisher l := if_neg hlist.1
        rw [hof]
        exact hl
      next => cases hlist
    next => cases hone
  | _ => trivial

/-- The server and a client publish one topic, and the client takes another one back. -/
def publishAndStay : List Op :=
  [.innerPublishTopic ⟨"x", 0, "int", none⟩ 0, .connectClient ⟨.v4 10 0 0 2 5810, "a"⟩,
    .innerPublishTopic ⟨"x", 0, "int", none⟩ 1, .innerPublishTopic ⟨"y", 1, "int", none⟩ 1,
    .innerUnpublishTopic ⟨1⟩ 1]

theorem metatopics_describe_store_publishAndStay :
    ∃ log s own, stateAfter keepsMetatopics .stored publishAndStay = some s ∧
      DescribesStore (createdAs (visited log s)) s ∧ s.publisherKey 1 = some own ∧
      clientEntries (s.metaValue clientMetatopic (.client [])) = [⟨"a", "10.0.0.2:5810"⟩] ∧
      publisherEntries (s.metaValue serverPubMetatopic (.serverPublisher [])) = [⟨"x", 0⟩] ∧
      publisherEntries (s.metaValue own (.clientPublisher [])) = [⟨"x", 0⟩] := by
  have hrun : (stateAfter keepsMetatopics .stored publishAndStay).bind (fun s =>
      (s.publisherKey 1).map fun own =>
        (clientEntries (s.metaValue clientMetatopic (.client [])),
          publisherEntries (s.metaValue serverPubMetatopic (.serverPublisher [])),
          publisherEntries (s.metaValue own (.clientPublisher [])))) =
      some ([⟨"a", "10.0.0.2:5810"⟩], [⟨"x", 0⟩], [⟨"x", 0⟩]) := by
    decide +kernel
  obtain ⟨s, hs, hview⟩ := Option.bind_eq_some_iff.mp hrun
  obtain ⟨own, hown, hview⟩ := Option.map_eq_some_iff.mp hview
  simp only [Prod.mk.injEq] at hview
  obtain ⟨hclients, hserver, hclient⟩ := hview
  obtain ⟨u, run, hu⟩ := loggedWhere_stateAfter keepsMetatopics_sound hs
  have hdescribes := metatopics_describe_store run ((hu .topic).trans_lt (by decide))
  exact ⟨_, s, own, hs, hdescribes, hown, hclients, hserver, hclient⟩

/-- A client comes and goes. -/
def connectAndLeave : List Op :=
  [.connectClient ⟨.v4 10 0 0 2 5810, "a"⟩, .disconnectClient ⟨.v4 10 0 0 2 5810, "a"⟩]

-- the server alone is a client then
example : (stateAfter anyOp .stored [.connectClient ⟨.v4 10 0 0 2 5810, "a"⟩,
    .disconnectClient ⟨.v4 10 0 0 2 5810, "a"⟩]).map (fun s => s.clients.keys) =
    some [serverClientIdx] := by
  decide +kernel

/-- The client that has gone is still on the list of clients. -/
theorem departed_client_is_listed : ¬∀ u log s, LoggedRuns u (log, s) → u .topic < 2 ^ 32 →
    DescribesStore (createdAs (visited log s)) s := by
  intro h
  have hrun : (stateAfter anyOp .stored connectAndLeave).map (fun s =>
      (clientEntries (s.metaValue clientMetatopic (.client [])), s.visitorMtes)) =
      some ([⟨"a", "10.0.0.2:5810"⟩], []) := by
    decide +kernel
  obtain ⟨s, hs, hview⟩ := Option.map_eq_some_iff.mp hrun
  simp only [Prod.mk.injEq] at hview
  obtain ⟨hlisted, hnone⟩ := hview
  obtain ⟨u, run, hu⟩ := logged_stateAfter hs
  obtain ⟨l, hl, hperm⟩ := (h u _ s run ((hu .topic).trans_lt (by decide))).clients
  rw [hl] at hlisted
  have heq : l = [⟨"a", "10.0.0.2:5810"⟩] := hlisted
  rw [heq, hnone] at hperm
  exact absurd hperm.length_eq (by decide)

end Concrete

end NetTables.Server
