import NetTables.Server.Learning

namespace NetTables.Server

open Lib Lib.Fallible Spec

variable {s s₁ s₂ s₃ : InnerServer} {o : IterOrder} {c : ClientIdx} {t : TopicIdx} {topic : Topic}
  {i : SubIdx} {subscription : Subscription} {sub : Subscribe} {now : Instant}

/-- Two announcements that differ at most in the `pubuid`. -/
def Alike (a a' : Announce) : Prop := { a with pubuid := none } = { a' with pubuid := none }

/-- What a client is told of a topic by `subscribe`, by `announce_topic` and by
`announce_all_topics_for`, each from `s`, is the same. -/
def PathsAgree (s s₁ s₂ s₃ : InnerServer) (c : ClientIdx) (t : TopicIdx) : Prop :=
  ∀ a₁ a₂ a₃ : Announce, Learns s s₁ c a₁ → Learns s s₂ c a₂ → Learns s s₃ c a₃ →
    a₁.id = t.toInt32 → a₂.id = t.toInt32 → a₃.id = t.toInt32 → Alike a₁ a₂ ∧ Alike a₃ a₂

/-- The type that goes with a topic whose declared type is `type`: that of a name with a `$` is raw,
and a stored value has the declared one. -/
def KeepsType (s : InnerServer) (t : TopicIdx) (topic : Topic) : Prop :=
  if hasDollar topic.name then topic.type = "raw"
  else ∀ value, s.topicValueMap.lookup t = some value →
    value.value.getType.stringify = topic.type

theorem subscribeType_iff (ht : s.topics.lookup t = some topic) :
    subscribeType s topic.name t = some topic.type ↔ KeepsType s t topic := by
  unfold subscribeType KeepsType
  split_ifs
  · simp [eq_comm]
  · cases s.topicValueMap.lookup t <;> simp [ht]

/-- What `subscribe` announces under one index, in the words of `announce_topic`. -/
theorem subscribeAnnounce_of_topic (ht : s.topics.lookup t = some topic) (name type : String) :
    subscribeAnnounce s name t type = { announceOf t topic with name, type } := by
  rw [subscribeAnnounce, ht]
  rfl

theorem mem_subscribed_iff {a : Announce} :
    a ∈ subscribeAnnounces s (interestOf o s sub) ↔ ∃ name t type,
      s.topicMap.lookup name = some t ∧ (subscriptionOf sub).caresAbout name = true ∧
        subscribeType s name t = some type ∧ a = subscribeAnnounce s name t type := by
  simp only [subscribeAnnounces, List.mem_filterMap, Option.map_eq_some_iff]
  constructor
  · intro h
    obtain ⟨⟨name, t⟩, he, type, htype, rfl⟩ := h
    obtain ⟨hmap, hcares⟩ := mem_interestOf.mp he
    exact ⟨name, t, type, hmap, hcares, htype, rfl⟩
  · intro h
    obtain ⟨name, t, type, hmap, hcares, htype, rfl⟩ := h
    exact ⟨(name, t), mem_interestOf.mpr ⟨hmap, hcares⟩, type, htype, rfl⟩

/-- An announcement by `announce_topic` is as its topic says. -/
theorem alike_of_announceTopic {responseOpt : Option (PubUID × ClientIdx)} {a : Announce}
    (hopen : s.OpenTo c) (ht : s.topics.lookup t = some topic)
    (hx : (announceTopic o t responseOpt).exec s = .ok (.ok (), s₂)) (ha : Learns s s₂ c a) :
    Alike a (announceOf t topic) := by
  obtain ⟨client, ch, hc, hch, hopen⟩ := hopen
  obtain ⟨reply, hreply, h⟩ := ends_of_exec (ends_announceTopic_news hc) hx rfl
  obtain ⟨told, happ, ha⟩ := ha
  rw [toldTo_of_client h.client, toldTo_of_client hc, told_hearsAll hch hopen,
    List.append_cancel_left_eq] at happ
  rw [← happ] at ha
  obtain ⟨e, he, heq⟩ := List.mem_map.mp ha
  cases heq
  rcases List.mem_append.mp he with he | he
  · obtain ⟨topic', pubuid, ht', heq⟩ := hreply e he
    rw [ht] at ht'
    cases ht'
    rw [heq]
    rfl
  · unfold newsOf at he
    split_ifs at he
    · rw [ht] at he
      rw [List.mem_singleton.mp he]
      rfl
    · cases he

/-- The announcements of `announce_all_topics_for`. -/
def allAnnounces (o : IterOrder) (s : InnerServer) (subscription : Subscription) : List Announce :=
  ((o.walk s.topicMap).filter fun e =>
    subscription.caresAbout e.1 && (s.topics.lookup e.2).isSome).filterMap fun e =>
      (s.topics.lookup e.2).map fun topic => { announceOf e.2 topic with name := e.1 }

theorem ends_announceAll_told (hopen : s.OpenTo c)
    (hi : s.subscriptions.lookup i = some (subscription, c)) :
    Ends (announceAllTopicsFor o i) s fun r s' => r = .ok () →
      s'.toldTo c = s.toldTo c ++ (allAnnounces o s subscription).map .announce := by
  obtain ⟨client, ch, hc, hch, hopen⟩ := hopen
  have hmessages : ∀ l : List (String × TopicIdx), (l.filterMap fun e =>
      (s.topics.lookup e.2).map fun topic =>
        NTMessage.announce { announceOf e.2 topic with name := e.1 }) =
      (l.filterMap fun e => (s.topics.lookup e.2).map fun topic =>
        { announceOf e.2 topic with name := e.1 }).map .announce := by
    intro l
    simp only [List.map_filterMap, Option.map_map, Function.comp_def]
  simp only [announceAllTopicsFor, ends_bind, ends_get, thenEnds_ok, ends_okOr, thenEnds_error, hi,
    putClient, ends_modify, hmessages]
  refine ⟨fun entry heq => ?_, by simp⟩
  cases heq
  refine ⟨fun client' heq => ?_, by simp⟩
  have hclient : s.clients.lookup c = some client' := heq
  rw [hc] at hclient
  cases hclient
  refine (ends_sendOn_of_client (by rw [KeyMap.lookup_insert, if_pos rfl])).mpr ?_
  simp only [hch, hopen, if_true, AList.insert_insert]
  intro _
  rw [toldTo_insert (s := s) rfl, if_pos rfl, toldTo_of_client hc, told_of_channel rfl,
    told_of_channel hch, Outgoing.told, Outgoing.told, List.flatMap_append]
  simp only [List.flatMap_cons, List.flatMap_nil, List.append_nil, OutMessage.texts]
  rfl

theorem learns_announceAll_iff {a : Announce} (hopen : s.OpenTo c)
    (hi : s.subscriptions.lookup i = some (subscription, c))
    (hx : (announceAllTopicsFor o i).exec s = .ok (.ok (), s₃)) :
    Learns s s₃ c a ↔ ∃ name t topic, s.topicMap.lookup name = some t ∧
      subscription.caresAbout name = true ∧ s.topics.lookup t = some topic ∧
        a = { announceOf t topic with name } := by
  have htold := ends_of_exec (ends_announceAll_told hopen hi) hx rfl
  rw [learns_iff htold, allAnnounces]
  simp only [List.mem_filterMap, List.mem_filter, Bool.and_eq_true, Option.map_eq_some_iff]
  constructor
  · intro h
    obtain ⟨⟨name, t⟩, ⟨he, hcares, -⟩, topic, ht, rfl⟩ := h
    exact ⟨name, t, topic, (o.mem_walk _ _ _).mp he, hcares, ht, rfl⟩
  · intro h
    obtain ⟨name, t, topic, hmap, hcares, ht, rfl⟩ := h
    exact ⟨(name, t), ⟨(o.mem_walk _ _ _).mpr hmap, hcares, by simp [ht]⟩, topic, ht, rfl⟩

/-- What the three ways of announcing tell one client of a topic that all three of them tell it of
is the same exactly where the topic keeps its declared type, and no other name that the client has
asked for stands for its index. -/
theorem announcing_paths_agree_iff {o₁ o₂ o₃ : IterOrder}
    {responseOpt : Option (PubUID × ClientIdx)} (hopen : s.OpenTo c)
    (hx₁ : (subscribe o₁ sub c now).exec s = .ok (.ok (), s₁))
    (hx₂ : (announceTopic o₂ t responseOpt).exec s = .ok (.ok (), s₂))
    (hx₃ : (announceAllTopicsFor o₃ i).exec s = .ok (.ok (), s₃))
    (hi : s.subscriptions.lookup i = some (subscription, c))
    (ht : s.topics.lookup t = some topic) (hmap : s.topicMap.lookup topic.name = some t)
    (hsub : (subscriptionOf sub).caresAbout topic.name = true)
    (hsubscription : subscription.caresAbout topic.name = true) :
    PathsAgree s s₁ s₂ s₃ c t ↔ KeepsType s t topic ∧
      ∀ name, s.topicMap.lookup name = some t → (subscriptionOf sub).caresAbout name = true ∨
        subscription.caresAbout name = true → name = topic.name := by
  have htold : Learns s s₂ c (announceOf t topic) :=
    (stillAnnounced hopen).announce _ _ _ _ _ hx₂ ht ⟨i, subscription, hi, hsubscription⟩
  have hall : ∀ name, s.topicMap.lookup name = some t → subscription.caresAbout name = true →
      Learns s s₃ c { announceOf t topic with name } := by
    intro name hname hcares
    exact (learns_announceAll_iff hopen hi hx₃).mpr ⟨name, t, topic, hname, hcares, ht, rfl⟩
  have hinitial : ∀ name type, s.topicMap.lookup name = some t →
      (subscriptionOf sub).caresAbout name = true → subscribeType s name t = some type →
        Learns s s₁ c { announceOf t topic with name, type } := by
    intro name type hname hcares htype
    refine (learns_subscribe_iff hopen hx₁).mpr (mem_subscribed_iff.mpr ?_)
    exact ⟨name, t, type, hname, hcares, htype, (subscribeAnnounce_of_topic ht name type).symm⟩
  have hsome := exists_subscribeType ht
  constructor
  · intro h
    refine ⟨?_, fun name hname hcares => ?_⟩
    · obtain ⟨type, htype⟩ := hsome topic.name
      have hagree := (h _ _ _ (hinitial _ _ hmap hsub htype) htold (hall _ hmap hsubscription)
        rfl rfl rfl).1
      have heq : type = topic.type := congrArg Announce.type hagree
      rw [heq] at htype
      exact (subscribeType_iff ht).mp htype
    · rcases hcares with hcares | hcares
      · obtain ⟨type, htype⟩ := hsome name
        have hagree := (h _ _ _ (hinitial _ _ hname hcares htype) htold (hall _ hmap hsubscription)
          rfl rfl rfl).1
        exact congrArg Announce.name hagree
      · obtain ⟨type, htype⟩ := hsome topic.name
        have hagree := (h _ _ _ (hinitial _ _ hmap hsub htype) htold (hall _ hname hcares)
          rfl rfl rfl).2
        exact congrArg Announce.name hagree
  · intro hs a₁ a₂ a₃ ha₁ ha₂ ha₃ hid₁ _ hid₃
    obtain ⟨hkeeps, honly⟩ := hs
    have halike := alike_of_announceTopic hopen ht hx₂ ha₂
    obtain ⟨name, t', type, hname, hcares, htype, rfl⟩ :=
      mem_subscribed_iff.mp ((learns_subscribe_iff hopen hx₁).mp ha₁)
    obtain rfl := toInt32_inj hid₁
    obtain rfl := honly name hname (.inl hcares)
    obtain ⟨name', t'', topic', hname', hcares', ht'', rfl⟩ :=
      (learns_announceAll_iff hopen hi hx₃).mp ha₃
    obtain rfl := toInt32_inj hid₃
    obtain rfl := honly name' hname' (.inr hcares')
    rw [ht] at ht''
    cases ht''
    rw [(subscribeType_iff ht).mpr hkeeps] at htype
    cases htype
    rw [subscribeAnnounce_of_topic ht]
    exact ⟨halike.symm, halike.symm⟩

/-- A topic of some declared type with an `int` value, and a client that subscribes to it. -/
def publishIntAs (type : String) : List Op :=
  [.innerPublishTopic ⟨"n", 0, type, none⟩ serverClientIdx, .setValue ⟨7, ⟨.int, .integer 1⟩⟩ 3,
    .connectClient ⟨.v4 10 0 0 2 5810, "a"⟩, .subscribe firstSubscription 1 0]

/-- All three ways of announcing the topic go through, each telling the client of it once. -/
structure ToldThrice (type : String) (s s₁ s₂ s₃ : InnerServer) : Prop where
  reachable : Reachable s
  listens : s.OpenTo 1
  subscribes : (subscribe .stored firstSubscription 1 0).exec s = .ok (.ok (), s₁)
  announces : (announceTopic .stored 3 none).exec s = .ok (.ok (), s₂)
  announcesAll : (announceAllTopicsFor .stored 0).exec s = .ok (.ok (), s₃)
  subscription : s.subscriptions.lookup 0 = some (subscriptionOf firstSubscription, 1)
  topic : s.topics.lookup 3 = some ⟨"n", type, none⟩
  named : s.topicMap.pairs.filter (fun e => e.2 == 3) = [("n", 3)]
  value : (s.topicValueMap.lookup 3).map (fun value => value.value.getType.stringify) = some "int"
  initial : s₁.toldTo 1 = s.toldTo 1 ++ [.announce ⟨"n", 3, "int", none, {}⟩]
  single : s₂.toldTo 1 = s.toldTo 1 ++ [.announce ⟨"n", 3, type, none, {}⟩]
  all : s₃.toldTo 1 = s.toldTo 1 ++ [.announce ⟨"n", 3, type, none, {}⟩]

/-- The check of all of it. -/
def toldThrice (type : String) : Option Bool :=
  (stateAfter anyOp .stored (publishIntAs type)).bind fun s =>
    (s.clients.lookup 1).bind fun client => client.subOuput.bind fun ch =>
      ((subscribe .stored firstSubscription 1 0).exec s).toOption.bind fun p₁ =>
        ((announceTopic .stored 3 none).exec s).toOption.bind fun p₂ =>
          ((announceAllTopicsFor .stored 0).exec s).toOption.map fun p₃ =>
            ch.isOpen && decide (p₁.1.toOption = some ()) && decide (p₂.1.toOption = some ()) &&
            decide (p₃.1.toOption = some ()) &&
            decide (s.subscriptions.lookup 0 = some (subscriptionOf firstSubscription, 1)) &&
            decide (s.topics.lookup 3 = some ⟨"n", type, none⟩) &&
            decide (s.topicMap.pairs.filter (fun e => e.2 == 3) = [("n", 3)]) &&
            decide ((s.topicValueMap.lookup 3).map (fun value => value.value.getType.stringify) =
              some "int") &&
            decide (p₁.2.toldTo 1 = s.toldTo 1 ++ [.announce ⟨"n", 3, "int", none, {}⟩]) &&
            decide (p₂.2.toldTo 1 = s.toldTo 1 ++ [.announce ⟨"n", 3, type, none, {}⟩]) &&
            decide (p₃.2.toldTo 1 = s.toldTo 1 ++ [.announce ⟨"n", 3, type, none, {}⟩])

theorem toldThrice_sound {type : String} (h : toldThrice type = some true) :
    ∃ s s₁ s₂ s₃, ToldThrice type s s₁ s₂ s₃ := by
  obtain ⟨s, hs, hview⟩ := Option.bind_eq_some_iff.mp h
  obtain ⟨client, hc, hview⟩ := Option.bind_eq_some_iff.mp hview
  obtain ⟨ch, hch, hview⟩ := Option.bind_eq_some_iff.mp hview
  obtain ⟨⟨r₁, s₁⟩, hp₁, hview⟩ := Option.bind_eq_some_iff.mp hview
  obtain ⟨⟨r₂, s₂⟩, hp₂, hview⟩ := Option.bind_eq_some_iff.mp hview
  obtain ⟨⟨r₃, s₃⟩, hp₃, hview⟩ := Option.map_eq_some_iff.mp hview
  simp only [Bool.and_eq_true, decide_eq_true_eq] at hview
  obtain ⟨⟨⟨⟨⟨⟨⟨⟨⟨⟨hopen, hr₁⟩, hr₂⟩, hr₃⟩, hi⟩, ht⟩, hnamed⟩, hvalue⟩, hinitial⟩, hsingle⟩, hall⟩ :=
    hview
  refine ⟨s, s₁, s₂, s₃, reachable_stateAfter hs, ⟨client, ch, hc, hch, hopen⟩, ?_, ?_, ?_, hi, ht,
    hnamed, hvalue, hinitial, hsingle, hall⟩
  · rw [eq_ok_of_toOption hp₁, eq_ok_of_toOption hr₁]
  · rw [eq_ok_of_toOption hp₂, eq_ok_of_toOption hr₂]
  · rw [eq_ok_of_toOption hp₃, eq_ok_of_toOption hr₃]

theorem toldThrice_int : toldThrice "int" = some true := by decide +kernel

theorem toldThrice_double : toldThrice "double" = some true := by decide +kernel

/-- Only its own name stands for the topic. -/
theorem ToldThrice.name_eq {type : String} (h : ToldThrice type s s₁ s₂ s₃) (name : String) :
    s.topicMap.lookup name = some 3 ↔ name = "n" := by
  have hmem : (name, (3 : TopicIdx)) ∈ s.topicMap.pairs.filter (fun e => e.2 == 3) ↔
      s.topicMap.lookup name = some 3 := by
    rw [List.mem_filter, KeyMap.mem_pairs]
    simp
  rw [← hmem, h.named]
  simp

theorem announcing_paths_agree_int :
    ∃ s s₁ s₂ s₃, ToldThrice "int" s s₁ s₂ s₃ ∧ PathsAgree s s₁ s₂ s₃ 1 3 := by
  obtain ⟨s, s₁, s₂, s₃, h⟩ := toldThrice_sound toldThrice_int
  refine ⟨s, s₁, s₂, s₃, h, ?_⟩
  apply (announcing_paths_agree_iff h.listens h.subscribes h.announces h.announcesAll
    h.subscription h.topic ((h.name_eq "n").mpr rfl) (by decide) (by decide)).mpr
  refine ⟨?_, fun name hname _ => (h.name_eq name).mp hname⟩
  have hnormal : ¬hasDollar "n" = true := by decide
  rw [KeepsType, if_neg hnormal]
  intro value hvalue
  have htype := h.value
  rw [hvalue] at htype
  exact Option.some.inj htype

/-- A value of a type other than the declared one changes what a new subscriber is told. -/
theorem announcing_paths_disagree :
    ¬∀ s, Reachable s → ∀ o₁ o₂ o₃ c sub now t responseOpt i subscription topic s₁ s₂ s₃,
      s.OpenTo c → (subscribe o₁ sub c now).exec s = .ok (.ok (), s₁) →
      (announceTopic o₂ t responseOpt).exec s = .ok (.ok (), s₂) →
      (announceAllTopicsFor o₃ i).exec s = .ok (.ok (), s₃) →
      s.subscriptions.lookup i = some (subscription, c) → s.topics.lookup t = some topic →
      s.topicMap.lookup topic.name = some t →
      (subscriptionOf sub).caresAbout topic.name = true →
      subscription.caresAbout topic.name = true → PathsAgree s s₁ s₂ s₃ c t := by
  intro hclaim
  obtain ⟨s, s₁, s₂, s₃, h⟩ := toldThrice_sound toldThrice_double
  have hagree := hclaim s h.reachable _ _ _ _ _ _ _ _ _ _ _ s₁ s₂ s₃ h.listens h.subscribes
    h.announces h.announcesAll h.subscription h.topic ((h.name_eq "n").mpr rfl) (by decide)
    (by decide)
  have hdiffer := (hagree _ _ _ ⟨_, h.initial, List.mem_cons_self⟩
    ⟨_, h.single, List.mem_cons_self⟩ ⟨_, h.all, List.mem_cons_self⟩ (by decide) (by decide)
    (by decide)).1
  exact absurd (congrArg Announce.type hdiffer) (by decide)

end NetTables.Server
