import NetTables.Server.Tables

namespace NetTables.Server

open Lib Lib.Fallible Spec

variable {s s' : InnerServer} {e : Option Event} {op : Op} {t : TopicIdx} {name : String}

/-- The metatopics of `try_new`, at the indices it gives them. -/
def serverMetatopics : List (TopicIdx × String) :=
  [(0, "$clients"), (1, "$serversub"), (2, "$serverpub")]

/-- A name that the server itself gives to a topic, for itself or for one of its clients. -/
def OwnName (name : String) : Prop :=
  name ∈ serverMetatopics.map Prod.snd ∨ ∃ n, name = clientPubName n ∨ name = clientSubName n

/-- These are no names of metatopics that go with a topic. -/
theorem OwnName.ne_metatopic (h : OwnName name) (n : String) :
    name ≠ metaPubName n ∧ name ≠ metaSubName n := by
  rcases h with h | ⟨m, rfl | rfl⟩
  · simp only [serverMetatopics, List.map_cons, List.map_nil, List.mem_cons, List.not_mem_nil,
      or_false] at h
    rcases h with rfl | rfl | rfl
    · exact ⟨ne_append_of_take (n := 3) (by decide) (by decide) (by decide) n,
        ne_append_of_take (n := 3) (by decide) (by decide) (by decide) n⟩
    · exact ⟨ne_append_of_take (n := 3) (by decide) (by decide) (by decide) n,
        ne_append_of_take (n := 3) (by decide) (by decide) (by decide) n⟩
    · exact ⟨ne_append_of_take (n := 3) (by decide) (by decide) (by decide) n,
        ne_append_of_take (n := 3) (by decide) (by decide) (by decide) n⟩
  · exact ⟨append_ne_of_take (n := 3) (by decide) (by decide) (by decide) m n,
      append_ne_of_take (n := 3) (by decide) (by decide) (by decide) m n⟩
  · exact ⟨append_ne_of_take (n := 3) (by decide) (by decide) (by decide) m n,
      append_ne_of_take (n := 3) (by decide) (by decide) (by decide) m n⟩

/-- The topic is there, under this name. -/
def InnerServer.Holds (s : InnerServer) (t : TopicIdx) (name : String) : Prop :=
  ∃ topic, s.topics.lookup t = some topic ∧ topic.name = name

/-- The indices that must stay: those of `try_new`, and the two of each client. -/
def InnerServer.Keeps (s : InnerServer) (t : TopicIdx) : Prop :=
  t ∈ serverMetatopics.map Prod.fst ∨
    ∃ c own, s.clientMetatopicMap.lookup c = some own ∧ (t = own.1 ∨ t = own.2)

/-- The metatopics of the server and of its clients are there. -/
structure MetatopicsStand (s : InnerServer) : Prop where
  server : ∀ entry ∈ serverMetatopics, s.Holds entry.1 entry.2
  own : ∀ c own, s.clientMetatopicMap.lookup c = some own → ∀ t, t = own.1 ∨ t = own.2 →
    ∃ name, s.Holds t name ∧ OwnName name
  recorded : ∀ c, c ∈ s.clients → c ≠ serverClientIdx → c ∈ s.clientMetatopicMap

namespace MetatopicsStand

/-- A change that leaves what must stay. -/
theorem of_holds (h : MetatopicsStand s)
    (hholds : ∀ t name, s.Keeps t → s.Holds t name → OwnName name → s'.Holds t name)
    (howns : ∀ c own, s'.clientMetatopicMap.lookup c = some own →
      s.clientMetatopicMap.lookup c = some own)
    (hrecorded : ∀ c, c ∈ s'.clients → c ∈ s.clients ∧
      (c ∈ s.clientMetatopicMap → c ∈ s'.clientMetatopicMap)) : MetatopicsStand s' where
  server entry hentry :=
    hholds _ _ (.inl (List.mem_map_of_mem hentry)) (h.server entry hentry)
      (.inl (List.mem_map_of_mem hentry))
  own c own hown t ht := by
    obtain ⟨name, hname, hown'⟩ := h.own c own (howns c own hown) t ht
    exact ⟨name, hholds t name (.inr ⟨c, own, howns c own hown, ht⟩) hname hown', hown'⟩
  recorded c hc hne := by
    obtain ⟨hold, hmap⟩ := hrecorded c hc
    exact hmap (h.recorded c hold hne)

/-- The same with the tables of clients as they were. -/
theorem of_topics (h : MetatopicsStand s)
    (hholds : ∀ t name, s.Keeps t → s.Holds t name → OwnName name → s'.Holds t name)
    (howns : s'.clientMetatopicMap = s.clientMetatopicMap)
    (hclients : ∀ c, c ∈ s'.clients → c ∈ s.clients) : MetatopicsStand s' := by
  apply h.of_holds hholds
  · intro c own hown
    rw [← howns]
    exact hown
  · intro c hc
    rw [howns]
    exact ⟨hclients c hc, id⟩

theorem step (h : MetatopicsStand s) (hn : Numbered s) (he : Effect s e s')
    (hclient : e ≠ some .client) (hgone : ∀ t how, e = some (.gone t how) → ¬s.Keeps t) :
    MetatopicsStand s' := by
  have herase : ∀ {u t : TopicIdx} {name} {topicMap : KeyMap String TopicIdx}, ¬s.Keeps u →
      s.Keeps t → s.Holds t name →
      InnerServer.Holds { s with topics := s.topics.erase u, topicMap := topicMap } t name := by
    intro u t name topicMap hu ht hname
    obtain ⟨topic, htopic, rfl⟩ := hname
    have hne : t ≠ u := fun heq => hu (heq ▸ ht)
    exact ⟨topic, by rw [KeyMap.lookup_erase, if_neg hne, htopic], rfl⟩
  cases he with
  | topicAdded topic hfresh =>
    refine h.of_topics (fun t name ht hname _ => ?_) rfl (fun _ hc => hc)
    obtain ⟨topic', htopic, rfl⟩ := hname
    have hlt := hn.topics_lt t ((KeyMap.mem_iff_lookup _ _).mpr ⟨topic', htopic⟩)
    have hne : t ≠ s.counters.topicIdx := fun heq => (heq ▸ hlt).false
    exact ⟨topic', lookup_topics_withTopic.mpr (.inr ⟨hne, htopic⟩), rfl⟩
  | topicRemoved hu hp hq =>
    refine h.of_topics (fun t name ht hname hown => ?_) rfl (fun _ hc => hc)
    obtain ⟨topic', htopic, rfl⟩ := hname
    obtain ⟨hpub, hsub⟩ := hown.ne_metatopic _
    refine ⟨topic', lookup_topics_withoutTopic.mpr ⟨?_, ?_, ?_, htopic⟩, rfl⟩
    · rintro rfl
      exact hgone _ _ rfl ht
    · rintro rfl
      exact hpub (hn.name_eq _ _ _ hp htopic)
    · rintro rfl
      exact hsub (hn.name_eq _ _ _ hq htopic)
  | topicLost =>
    exact h.of_topics (fun t name ht hname _ => herase (hgone _ _ rfl) ht hname) rfl
      (fun _ hc => hc)
  | topicHalfLost =>
    exact h.of_topics (fun t name ht hname _ => herase (hgone _ _ rfl) ht hname) rfl
      (fun _ hc => hc)
  | @propertiesSet u topic properties hu =>
    refine h.of_topics (fun t name ht hname _ => ?_) rfl (fun _ hc => hc)
    obtain ⟨topic', htopic, rfl⟩ := hname
    by_cases htu : t = u
    · subst htu
      rw [hu] at htopic
      cases htopic
      exact ⟨_, AList.lookup_insert _, rfl⟩
    · exact ⟨topic', by rw [KeyMap.lookup_insert, if_neg htu, htopic], rfl⟩
  | clientConnected => exact (hclient rfl).elim
  | registered _ hc | unregistered _ hc | marked _ hc | told _ hc | flushed hc | closed hc
  | subscribed _ _ _ _ _ _ hc | unsubscribed _ hc | batchesSent _ _ hc =>
    refine h.of_topics (fun _ _ _ hname _ => hname) rfl (fun d hd => ?_)
    rcases (AList.mem_insert _).mp hd with rfl | hd
    · exact (KeyMap.mem_iff_lookup _ _).mpr ⟨_, hc⟩
    · exact hd
  | clientLeft =>
    exact h.of_topics (fun _ _ _ hname _ => hname) rfl (fun d hd => (AList.mem_erase.mp hd).2)
  | @ownMetatopicsErased c hc =>
    refine h.of_holds (fun _ _ _ hname _ => hname) (fun d own hown => ?_) (fun d hd => ?_)
    · rw [KeyMap.lookup_erase] at hown
      split_ifs at hown
      exact hown
    · refine ⟨hd, fun hmem => AList.mem_erase.mpr ⟨?_, hmem⟩⟩
      rintro rfl
      exact AList.lookup_eq_none.mp hc hd
  | _ => exact h.of_topics (fun _ _ _ hname _ => hname) rfl (fun _ hc => hc)

theorem started : MetatopicsStand started := by
  refine ⟨?_, fun c own hown => ?_, fun c hc hne => ?_⟩
  · intro entry hentry
    simp only [serverMetatopics, List.mem_cons, List.not_mem_nil, or_false] at hentry
    rcases hentry with rfl | rfl | rfl
    · exact ⟨.newMeta "$clients", rfl, rfl⟩
    · exact ⟨.newMeta "$serversub", rfl, rfl⟩
    · exact ⟨.newMeta "$serverpub", rfl, rfl⟩
  · cases hown
  · have hc : c ∈ (∅ : KeyMap ClientIdx ConnectedClient).insert serverClientIdx serverClient := hc
    exact (hne (((AList.mem_insert _).mp hc).resolve_right (AList.notMem_empty c))).elim

end MetatopicsStand

/-- The name does not lead to a topic that is gone. -/
def InnerServer.Leads (s : InnerServer) (name : String) : Prop :=
  ∀ t, s.topicMap.lookup name = some t → t ∈ s.topics

/-- New topics leave no name without its topic. -/
theorem InnerServer.Leads.step (h : s.Leads name) (he : Effect s e s')
    (hadds : ∀ a, e = some a → ∃ n, a = .topic n) : s'.Leads name := by
  intro t ht
  cases he with
  | topicAdded topic hfresh =>
    rcases lookup_topicMap_withTopic.mp ht with ⟨-, rfl⟩ | ⟨-, ht⟩
    · exact (AList.mem_insert _).mpr (.inl rfl)
    · exact (AList.mem_insert _).mpr (.inr (h t ht))
  | topicRemoved | topicLost | topicHalfLost | propertiesSet =>
    obtain ⟨n, hn⟩ := hadds _ rfl
    cases hn
  | _ => exact h t ht

/-- The names of the metatopics that a connecting client gets. -/
def ownNames (identity : ClientIdentity) : List String :=
  [clientPubName identity.name, clientSubName identity.name]

/-- A new client's metatopics are there, if their names do not lead to topics that are gone. -/
theorem MetatopicsStand.connected {identity : ClientIdentity} {es : List Event}
    (h : MetatopicsStand s) (hn : Numbered s) (hes : Effects s es (s.connected identity))
    (hroom : Room (· = .topic) s es) (hleads : ∀ name ∈ ownNames identity, s.Leads name) :
    MetatopicsStand (s.connected identity) := by
  obtain ⟨es₁, hes₁, hall, hle⟩ : Does (fun a => ∃ n, a = .topic n) 2 (s.withClientEntry identity)
      (ensureOwnMetatopics (s.withClientEntry identity) identity.name).2 :=
    does_ownMetatopics ⟨_, rfl⟩ ⟨_, rfl⟩
  obtain ⟨hp, hq⟩ := lookup_ownMetatopics (s.withClientEntry identity) identity.name
  have hlast := effect_connected s identity
  rw [connected_eq] at hlast hes ⊢
  generalize ensureOwnMetatopics (s.withClientEntry identity) identity.name = own at *
  have hentry : Effect s none (s.withClientEntry identity) := .metaValueSet _
  have hes₁ : Effects s es₁ own.2 := (Effects.one hentry).trans hes₁
  have hroom₁ : Room (· = .topic) s es₁ := by
    have hboth := hroom.of_effects hes (hes₁.trans (.one hlast)) fun k => by
      have hle := hle k
      have hone : taken k (some Event.client).toList ≤ 1 := by cases k <;> decide
      rw [taken_append]
      omega
    intro k hk
    have hlt := hboth k hk
    rw [taken_append] at hlt
    omega
  have hown := hes₁.invariant_of_room
    (fun u => Numbered u ∧ MetatopicsStand u ∧ ∀ name ∈ ownNames identity, u.Leads name)
    (fun a => ∃ n, a = .topic n) hall hroom₁ ?_ ⟨hn, h, hleads⟩
  · obtain ⟨hnum, hstand, hleads⟩ := hown
    have hholds : ∀ name ∈ ownNames identity, ∀ t, own.2.topicMap.lookup name = some t →
        own.2.Holds t name := by
      intro name hname t ht
      obtain ⟨topic, htopic⟩ := (KeyMap.mem_iff_lookup _ _).mp (hleads name hname t ht)
      exact ⟨topic, htopic, hnum.name_eq _ _ _ ht htopic⟩
    refine ⟨hstand.server, fun c own' hown t ht => ?_, fun c hc hne => ?_⟩
    · simp only [KeyMap.lookup_insert] at hown
      split_ifs at hown
      · cases hown
        rcases ht with rfl | rfl
        · exact ⟨_, hholds _ (by simp [ownNames]) _ hp, .inr ⟨_, .inl rfl⟩⟩
        · exact ⟨_, hholds _ (by simp [ownNames]) _ hq, .inr ⟨_, .inr rfl⟩⟩
      · exact hstand.own c own' hown t ht
    · refine (AList.mem_insert _).mpr ?_
      rcases (AList.mem_insert _).mp hc with heq | hc
      · exact .inl heq
      · exact .inr (hstand.recorded c hc hne)
  · intro u e u' he hp hroom hu
    obtain ⟨hnum, hstand, hleads⟩ := hu
    have hclient : e ≠ some .client := by
      intro heq
      obtain ⟨n, hn⟩ := hp _ heq
      cases hn
    refine ⟨hnum.step he hroom, hstand.step hnum he hclient fun t how heq => ?_,
      fun name hname => (hleads name hname).step he hp⟩
    obtain ⟨n, hn⟩ := hp _ heq
    cases hn

/-- What clients can do that leaves the metatopics of the server: an `Unpublish` removes none of
them, and the names that a new client gets do not lead to topics that are gone. -/
def LeavesMetatopics (s : InnerServer) : Op → Prop
  | .connectClient identity => s.clientMap.lookup identity = none →
      ∀ name ∈ ownNames (uniqueIdentity s identity), s.Leads name
  | .innerUnpublishTopic pubTopic c =>
      ∀ t, (Op.innerUnpublishTopic pubTopic c).Removes s t → ¬s.Keeps t
  | .innerPublishTopic _ _ | .subscribe _ _ _ | .unsubscribe _ _ | .setProperties _ => True
  | _ => False

/-- What stands after any other message than the one that lets a client in. -/
theorem stands_of_effects {es : List Event} (h : MetatopicsStand s) (hn : Numbered s)
    (hes : Effects s es s') (hall : ∀ a ∈ es, op.MayDo s a) (hroom : Room (· = .topic) s es)
    (hclient : ¬op.MayDo s .client) (hgone : ∀ t, op.Removes s t → ¬s.Keeps t) :
    MetatopicsStand s' := by
  have hrun := hes.invariant_of_room
    (fun u => Numbered u ∧ MetatopicsStand u ∧ ∀ t, u.Keeps t → s.Keeps t) (op.MayDo s) hall hroom
    ?_ ⟨hn, h, fun _ ht => ht⟩
  · exact hrun.2.1
  intro u e u' he hp hroom hu
  obtain ⟨hnum, hstand, hkeeps⟩ := hu
  have hne : e ≠ some .client := fun heq => hclient (hp _ heq)
  refine ⟨hnum.step he hroom, hstand.step hnum he hne fun t how heq ht => ?_, fun t ht => ?_⟩
  · exact hgone t (hp _ heq) (hkeeps t ht)
  · rcases ht with ht | ⟨c, own, hown, ht⟩
    · exact .inl ht
    · refine hkeeps t (.inr ⟨c, own, ?_, ht⟩)
      cases he with
      | clientConnected => exact (hne rfl).elim
      | ownMetatopicsErased =>
        rw [KeyMap.lookup_erase] at hown
        split_ifs at hown
        exact hown
      | _ => exact hown

theorem MetatopicsStand.connect {identity : ClientIdentity} {es : List Event}
    (h : MetatopicsStand s) (hn : Numbered s) (hop : Step s (.connectClient identity) s')
    (hg : LeavesMetatopics s (.connectClient identity)) (hes : Effects s es s')
    (hroom : Room (· = .topic) s es) : MetatopicsStand s' := by
  obtain ⟨o, r, hx⟩ := hop
  have hends : Ends (ignoring (connectClient o identity)) s fun _ s' =>
      s' = s ∨ s.clientMap.lookup identity = none ∧
        s' = s.connected (uniqueIdentity s identity) := by
    refine ends_ignoring (ends_connectClient.mpr ?_)
    split_ifs with hknown
    · exact .inl rfl
    · exact .inr ⟨by simpa using hknown, rfl⟩
  rcases ends_of_exec hends hx with rfl | ⟨hnew, rfl⟩
  · exact h
  · exact h.connected hn hes hroom (hg hnew)

theorem RunWhere.metatopicsStand {u : Kind → Nat} (run : RunWhere LeavesMetatopics u s)
    (hu : u .topic < 2 ^ 32) : MetatopicsStand s := by
  refine run.invariant (fun u s => u .topic < 2 ^ 32 → MetatopicsStand s) ?_ ?_ hu
  · intro s hs _
    rw [hs.eq_started]
    exact .started
  · intro u s op t run ih hg hop hu
    have run : RunWhere LeavesMetatopics u s := run
    have hlt : u .topic + created s t .topic < 2 ^ 32 := hu
    have hold : u .topic < 2 ^ 32 := lt_of_le_of_lt (Nat.le_add_right ..) hlt
    obtain ⟨es, hes, hall, hle⟩ := hop.does
    have hroom : Room (· = .topic) s es := run.room hes hle fun k hk => hk ▸ hlt
    have hn := run.numbered hold
    cases op with
    | connectClient identity => exact (ih hold).connect hn hop hg hes hroom
    | innerUnpublishTopic pubTopic c =>
      exact stands_of_effects (ih hold) hn hes hall hroom (by simp [Op.MayDo]) hg
    | innerPublishTopic | subscribe | unsubscribe | setProperties =>
      exact stands_of_effects (ih hold) hn hes hall hroom (by simp [Op.MayDo]) fun _ h => h.elim
    | _ => exact hg.elim

/-- The metatopics of the server are where `try_new` put them, and those of every client too. -/
def InnerServer.HasMetatopics (s : InnerServer) : Prop :=
  (∀ entry ∈ serverMetatopics, s.Holds entry.1 entry.2) ∧
    ∀ c, c ∈ s.clients → c ≠ serverClientIdx → ∃ own, s.clientMetatopicMap.lookup c = some own ∧
      own.1 ∈ s.topics ∧ own.2 ∈ s.topics

theorem MetatopicsStand.hasMetatopics (h : MetatopicsStand s) : s.HasMetatopics := by
  refine ⟨h.server, fun c hc hne => ?_⟩
  obtain ⟨own, hown⟩ := (KeyMap.mem_iff_lookup _ _).mp (h.recorded c hc hne)
  have hmem : ∀ t, t = own.1 ∨ t = own.2 → t ∈ s.topics := by
    intro t ht
    obtain ⟨name, ⟨topic, htopic, -⟩, -⟩ := h.own c own hown t ht
    exact (KeyMap.mem_iff_lookup _ _).mpr ⟨topic, htopic⟩
  exact ⟨own, hown, hmem _ (.inl rfl), hmem _ (.inr rfl)⟩

/-- Along every run of connections, publishes, unpublishes, subscriptions and property changes that
creates fewer than 2^32 topics, and in which no `Unpublish` removes a metatopic of the server or of
a client and no new client's name leads to a topic that is gone, the metatopics stand. -/
theorem metatopics_stand {u : Kind → Nat} (run : RunWhere LeavesMetatopics u s)
    (hu : u .topic < 2 ^ 32) : s.HasMetatopics :=
  (run.metatopicsStand hu).hasMetatopics

/-- A client publishes `$clients` and a topic of its own, and takes that one back. -/
def publishBeside : List Op :=
  [.connectClient ⟨.v4 10 0 0 2 5810, "a"⟩, .innerPublishTopic ⟨"$clients", 0, "int", none⟩ 1,
    .innerPublishTopic ⟨"y", 1, "int", none⟩ 1, .innerUnpublishTopic ⟨1⟩ 1]

def leavesMetatopics (s : InnerServer) : Op → Bool
  | .connectClient identity => (ownNames (uniqueIdentity s identity)).all fun name =>
      (s.topicMap.lookup name).all fun t => (s.topics.lookup t).isSome
  | .innerUnpublishTopic pubTopic c => (s.clients.lookup c).all fun client =>
      (client.pubuidToTopicidx.getByLeft pubTopic.pubuid).all fun t =>
        !(serverMetatopics.map Prod.fst).contains t &&
          s.clientMetatopicMap.pairs.all fun entry => t != entry.2.1 && t != entry.2.2
  | .innerPublishTopic _ _ => true
  | _ => false

theorem leavesMetatopics_of_check (s : InnerServer) (op : Op) (h : leavesMetatopics s op = true) :
    LeavesMetatopics s op := by
  cases op with
  | connectClient identity =>
    intro _ name hname t ht
    simp only [leavesMetatopics, List.all_eq_true] at h
    have hlead := h name hname
    rw [ht] at hlead
    exact (KeyMap.mem_iff_lookup _ _).mpr (Option.isSome_iff_exists.mp hlead)
  | innerUnpublishTopic pubTopic c =>
    intro t hremoves hkeeps
    obtain ⟨client, hc, ht, -⟩ := hremoves
    simp only [leavesMetatopics, hc, ht, Option.all_some, Bool.and_eq_true, List.all_eq_true,
      bne_iff_ne] at h
    rcases hkeeps with hserver | ⟨d, own, hown, hd⟩
    · simp [hserver] at h
    · obtain ⟨hfst, hsnd⟩ := h.2 (d, own) ((KeyMap.mem_pairs _ _ _).mpr hown)
      exact hd.elim hfst hsnd
  | innerPublishTopic => trivial
  | _ => cases h

theorem metatopics_stand_publishBeside :
    ∃ s, stateAfter leavesMetatopics .stored publishBeside = some s ∧
      s.pubCount.lookup 0 = some 1 ∧ s.HasMetatopics := by
  have hrun : (stateAfter leavesMetatopics .stored publishBeside).bind (fun s =>
      s.pubCount.lookup 0) = some 1 := by decide +kernel
  obtain ⟨s, hs, hcount⟩ := Option.bind_eq_some_iff.mp hrun
  obtain ⟨u, run, hu⟩ := runWhere_stateAfter leavesMetatopics_of_check hs
  exact ⟨s, hs, hcount, metatopics_stand run ((hu .topic).trans_lt (by decide))⟩

/-- A client publishes the name of a metatopic, and takes it back. -/
def takeBackClients : List Op :=
  [.connectClient ⟨.v4 10 0 0 2 5810, "a"⟩, .innerPublishTopic ⟨"$clients", 0, "int", none⟩ 1,
    .innerUnpublishTopic ⟨0⟩ 1]

/-- A connection, or one of these messages of a client. -/
def isClients (_ : InnerServer) : Op → Bool
  | .connectClient _ | .innerPublishTopic _ _ | .innerUnpublishTopic _ _ | .subscribe _ _ _
  | .unsubscribe _ _ | .setProperties _ => true
  | _ => false

/-- The count of a metatopic is 1, whoever publishes it beside the server. -/
theorem metatopic_destroyed :
    ¬∀ u s, RunWhere (fun s op => isClients s op = true) u s → s.HasMetatopics := by
  intro h
  have hrun : (stateAfter isClients .stored takeBackClients).map (fun s => s.topics.lookup 0) =
      some none := by decide +kernel
  obtain ⟨s, hs, hgone⟩ := Option.map_eq_some_iff.mp hrun
  obtain ⟨u, run, -⟩ := runWhere_stateAfter (fun _ _ hop => hop) hs
  obtain ⟨topic, htopic, -⟩ := (h u s run).1 (0, "$clients") (by decide)
  rw [hgone] at htopic
  cases htopic

end NetTables.Server
