import NetTables.Server.Quiet

namespace NetTables.Server

open Lib Lib.Fallible Spec

variable {P : Event → Prop} {s s' : InnerServer} {o : IterOrder} {t : TopicIdx} {c : ClientIdx}

theorem pushAll_append (i : SubIdx) (ts : List TopicIdx) (t : TopicIdx)
    (m : KeyMap TopicIdx (List SubIdx)) :
    pushAll i (ts ++ [t]) m =
      (pushAll i ts m).insert t (((pushAll i ts m).lookup t).getD [] ++ [i]) := by
  simp [pushAll]

theorem mem_pushAll {i : SubIdx} {ts : List TopicIdx} {t : TopicIdx}
    {m : KeyMap TopicIdx (List SubIdx)} (hts : ∀ t ∈ ts, t ∈ m) : t ∈ pushAll i ts m ↔ t ∈ m := by
  induction ts generalizing m with
  | nil => rfl
  | cons u ts ih =>
    have hu : u ∈ m := hts u (by simp)
    rw [pushAll, List.foldl_cons, ← pushAll, ih]
    · rw [AList.mem_insert]
      exact or_iff_right_of_imp fun h => h ▸ hu
    · intro v hv
      exact (AList.mem_insert m).mpr (.inr (hts v (by simp [hv])))

/-- The subscription stands in the list of the topic. -/
def Listed (m : KeyMap TopicIdx (List SubIdx)) (t : TopicIdx) (i : SubIdx) : Prop :=
  ∃ subs, m.lookup t = some subs ∧ i ∈ subs

theorem listed_pushAll {i j : SubIdx} {ts : List TopicIdx} {t : TopicIdx}
    {m : KeyMap TopicIdx (List SubIdx)} :
    Listed (pushAll i ts m) t j ↔ Listed m t j ∨ t ∈ ts ∧ j = i := by
  induction ts generalizing m with
  | nil => simp [pushAll]
  | cons u ts ih =>
    have hpush : Listed (m.insert u ((m.lookup u).getD [] ++ [i])) t j ↔
        Listed m t j ∨ t = u ∧ j = i := by
      simp only [Listed, KeyMap.lookup_insert]
      split_ifs with h
      · subst h
        cases m.lookup t <;> simp
      · simp [h]
    rw [pushAll, List.foldl_cons, ← pushAll, ih, hpush, List.mem_cons, or_and_right, or_assoc]

theorem listed_erase {m : KeyMap TopicIdx (List SubIdx)} {t u : TopicIdx} {i : SubIdx} :
    Listed (m.erase u) t i ↔ t ≠ u ∧ Listed m t i := by
  simp only [Listed, KeyMap.lookup_erase]
  split_ifs with h <;> simp [h]

theorem listed_filter {m : KeyMap TopicIdx (List SubIdx)} {t : TopicIdx} {i j : SubIdx} :
    Listed (m.mapValues fun vectr => vectr.filter fun elem => elem ≠ i) t j ↔
      j ≠ i ∧ Listed m t j := by
  simp only [Listed, KeyMap.lookup_mapValues]
  cases m.lookup t <;> simp [and_comm]

/-- What the loop of `subscribe` has collected over some topics. -/
structure Collected (s : InnerServer) (topics : List (String × TopicIdx))
    (acc : List NTMessage × List ValueFrame) : Prop where
  tells : s.Tells acc.1
  told : ∀ e ∈ topics, e.2 ∈ s.topics → ∃ a, .announce a ∈ acc.1 ∧ a.id = e.2.toInt32
  frames : ∀ f ∈ acc.2, ∃ a, .announce a ∈ acc.1 ∧ a.id = f.topicId
  current : ∀ f ∈ acc.2, ∃ e ∈ topics, f.topicId = e.2.toInt32 ∧
    s.topicValueMap.lookup e.2 = some f.value

theorem collected_nil (s : InnerServer) : Collected s [] ([], []) :=
  ⟨⟨by simp, by simp⟩, by simp, by simp, by simp⟩

/-- A topic that `subscribe` passes over is not there. -/
theorem collected_skip {topics : List (String × TopicIdx)} {acc : List NTMessage × List ValueFrame}
    {e : String × TopicIdx} (h : Collected s topics acc) (htype : subscribeType s e.1 e.2 = none) :
    Collected s (topics ++ [e]) acc where
  tells := h.tells
  told := by
    intro f hf ht
    rcases List.mem_append.mp hf with hf | hf
    · exact h.told f hf ht
    · obtain rfl := List.mem_singleton.mp hf
      obtain ⟨topic, htopic⟩ := (KeyMap.mem_iff_lookup _ _).mp ht
      unfold subscribeType at htype
      split_ifs at htype
      split at htype
      · cases htype
      · simp [htopic] at htype
  frames := h.frames
  current f hf := by
    obtain ⟨e', he', hid⟩ := h.current f hf
    exact ⟨e', List.mem_append_left _ he', hid⟩

theorem collected_add {topics : List (String × TopicIdx)} {acc : List NTMessage × List ValueFrame}
    {e : String × TopicIdx} (type : String) (h : Collected s topics acc)
    (hmap : s.topicMap.lookup e.1 = some e.2) :
    Collected s (topics ++ [e])
      (acc.1 ++ [.announce (subscribeAnnounce s e.1 e.2 type)], acc.2 ++ initialFrame s e.2) where
  tells := by
    refine ⟨fun a ha => ?_, fun m hm => ?_⟩
    · rcases List.mem_append.mp ha with ha | ha
      · exact h.tells.1 a ha
      · simp only [List.mem_singleton, NTMessage.announce.injEq] at ha
        subst ha
        exact ⟨e.2, rfl, .inl hmap⟩
    · rcases List.mem_append.mp hm with hm | hm
      · exact h.tells.2 m hm
      · exact .inl ⟨_, List.mem_singleton.mp hm⟩
  told := by
    intro f hf ht
    rcases List.mem_append.mp hf with hf | hf
    · obtain ⟨a, ha, hid⟩ := h.told f hf ht
      exact ⟨a, List.mem_append_left _ ha, hid⟩
    · obtain rfl := List.mem_singleton.mp hf
      exact ⟨_, List.mem_append_right _ (List.mem_singleton.mpr rfl), rfl⟩
  frames := by
    intro f hf
    rcases List.mem_append.mp hf with hf | hf
    · obtain ⟨a, ha, hid⟩ := h.frames f hf
      exact ⟨a, List.mem_append_left _ ha, hid⟩
    · refine ⟨_, List.mem_append_right _ (List.mem_singleton.mpr rfl), ?_⟩
      simp only [initialFrame, Option.mem_toList, Option.map_eq_some_iff] at hf
      obtain ⟨value, -, rfl⟩ := hf
      rfl
  current := by
    intro f hf
    rcases List.mem_append.mp hf with hf | hf
    · obtain ⟨e', he', hid⟩ := h.current f hf
      exact ⟨e', List.mem_append_left _ he', hid⟩
    · simp only [initialFrame, Option.mem_toList, Option.map_eq_some_iff] at hf
      obtain ⟨value, hvalue, rfl⟩ := hf
      exact ⟨e, List.mem_append_right _ (List.mem_singleton.mpr rfl), rfl, hvalue⟩

/-- The state of the loop of `subscribe` once it is through with `topics`. -/
structure Subscribing (s : InnerServer) (i : SubIdx) (topics : List (String × TopicIdx))
    (acc : List NTMessage × List ValueFrame) (u : InnerServer) : Prop where
  state : u = { s with topicSubMap := pushAll i (topics.map Prod.snd) s.topicSubMap }
  lists : ∀ e ∈ topics, e.2 ∈ s.topicSubMap
  collected : Collected s topics acc

theorem ends_subscribeTopic {i : SubIdx} {topics : List (String × TopicIdx)}
    {acc : List NTMessage × List ValueFrame} {u : InnerServer} {e : String × TopicIdx}
    (h : Subscribing s i topics acc u) (hmap : s.topicMap.lookup e.1 = some e.2) :
    Ends (subscribeTopic i acc e) u fun r u' =>
      match r with
      | .ok acc' => Subscribing s i (topics ++ [e]) acc' u'
      | .error _ => u' = u ∧ e.2 ∉ s.topicSubMap := by
  have hpairs : ∀ f ∈ topics.map Prod.snd, f ∈ s.topicSubMap := by
    intro t ht
    obtain ⟨f, hf, rfl⟩ := List.mem_map.mp ht
    exact h.lists f hf
  have hkeys : e.2 ∈ u.topicSubMap ↔ e.2 ∈ s.topicSubMap := by
    rw [h.state]
    exact mem_pushAll hpairs
  have htype : subscribeType u e.1 e.2 = subscribeType s e.1 e.2 := by rw [h.state]; rfl
  have hann : ∀ type, subscribeAnnounce u e.1 e.2 type = subscribeAnnounce s e.1 e.2 type := by
    intro type; rw [h.state]; rfl
  have hframe : initialFrame u e.2 = initialFrame s e.2 := by rw [h.state]; rfl
  simp only [subscribeTopic, ends_bind, ends_get, thenEnds_ok, ends_okOr, thenEnds_error,
    ends_modify, htype, hann, hframe]
  refine ⟨fun vectr hv => ?_, fun hnone => ⟨trivial, ?_⟩⟩
  · have hmem : e.2 ∈ s.topicSubMap := hkeys.mp ((KeyMap.mem_iff_lookup _ _).mpr ⟨vectr, hv⟩)
    have hstate : { u with topicSubMap := u.topicSubMap.insert e.2 (vectr ++ [i]) } =
        { s with topicSubMap := pushAll i ((topics ++ [e]).map Prod.snd) s.topicSubMap } := by
      have hpush : pushAll i ((topics ++ [e]).map Prod.snd) s.topicSubMap =
          u.topicSubMap.insert e.2 (vectr ++ [i]) := by
        have hsub : u.topicSubMap = pushAll i (topics.map Prod.snd) s.topicSubMap := by
          rw [h.state]
        rw [List.map_append, List.map_singleton, pushAll_append, ← hsub, hv, Option.getD_some]
      rw [hpush, h.state]
    have hlists : ∀ f ∈ topics ++ [e], f.2 ∈ s.topicSubMap :=
      List.forall_mem_append.mpr ⟨h.lists, List.forall_mem_singleton.mpr hmem⟩
    cases hty : subscribeType s e.1 e.2 with
    | none => exact (ends_pure _).mpr ⟨hstate, hlists, collected_skip h.collected hty⟩
    | some type => exact (ends_pure _).mpr ⟨hstate, hlists, collected_add type h.collected hmap⟩
  · intro hmem
    obtain ⟨v, hv⟩ := (KeyMap.mem_iff_lookup _ _).mp (hkeys.mpr hmem)
    rw [hnone] at hv
    cases hv

/-- The last part of `subscribe`: the client has been put back; now come the texts and the
values. -/
theorem ends_sendBoth {u : InnerServer} {client : ConnectedClient}
    {clients : KeyMap ClientIdx ConnectedClient} {messages : List NTMessage}
    {frames : List ValueFrame} {Q : InnerServer → Prop} (hu : u.clients = clients.insert c client)
    (hq : Q { u with
      clients := clients.insert c { client with
        subOuput := client.subOuput.map fun ch => ch.append [.text messages, .binary frames] } }) :
    Ends (sendNtMessages c messages >>= fun _ => sendBinary c frames) u fun _ s' => Q s' := by
  have hc : u.clients.lookup c = some client := by simp [hu]
  have hsame : { u with clients := clients.insert c client } = u := by rw [← hu]
  rcases client with ⟨identity, killBool, pubs, subs, out, announced⟩
  refine (ends_bind _ _).mpr ((ends_sendOn_of_client hc).mpr ?_)
  cases out with
  | none => exact (ends_sendOn_of_client hc).mpr (hsame ▸ hq)
  | some ch =>
    dsimp only at hq ⊢
    split_ifs with hopen
    · simp only [thenEnds_ok, hu, AList.insert_insert]
      refine (ends_sendOn_of_client (by rw [KeyMap.lookup_insert, if_pos rfl])).mpr ?_
      simp only [Option.map_some, Outgoing.append, hopen, if_true] at hq
      simp only [hopen, if_true, AList.insert_insert, List.append_assoc]
      exact hq
    · simp only [Option.map_some, Outgoing.append, hopen] at hq
      exact hsame ▸ hq

/-- A subscription either fails before it has begun, or is one effect. -/
theorem effect_subscribe {sub : Subscribe} {now : Instant} :
    Ends (subscribe o sub c now) s fun _ s' => s' = s ∨ Effect s (some .sub) s' := by
  let s₁ : InnerServer := { s with counters := { s.counters with subIdx := s.counters.subIdx + 1 } }
  let subscription : Subscription := ⟨sub.subuid, sub.topics, sub.options⟩
  let interest := (o.walk s.topicMap).filter fun e => subscription.caresAbout e.1
  have hinterest : ∀ e, e ∈ interest ↔
      s.topicMap.lookup e.1 = some e.2 ∧ subscription.caresAbout e.1 = true := by
    intro e
    rw [List.mem_filter, o.mem_walk]
  have hnodup : (interest.map Prod.fst).Nodup :=
    (o.nodup_walk s.topicMap).sublist (List.filter_sublist.map Prod.fst)
  simp only [subscribe, ends_bind, ends_get, thenEnds_ok, ends_okOr, thenEnds_error, ends_modify,
    Counter.nextSubIdx]
  refine ⟨fun client hc => ?_, fun _ => .inl trivial⟩
  have hloop := ends_foldEach
    (fun rest acc u => ∃ topics, topics ++ rest = interest ∧
      Subscribing s₁ s.counters.subIdx topics acc u)
    (fun _ u => ∃ topics acc e, Subscribing s₁ s.counters.subIdx topics acc u ∧ e ∈ interest ∧
      e.2 ∉ s.topicSubMap)
    (subscribeTopic s.counters.subIdx) (by
      intro e rest acc u h
      obtain ⟨topics, happ, hu⟩ := h
      have he : e ∈ interest := by rw [← happ]; simp
      refine ends_mono (ends_subscribeTopic hu ((hinterest e).mp he).1) ?_
      intro r u' hu'
      obtain err | acc' := r
      · exact ⟨topics, acc, e, hu'.1 ▸ hu, he, hu'.2⟩
      · exact ⟨topics ++ [e], by simpa using happ, hu'⟩)
    interest ([], []) s₁ ⟨[], rfl, rfl, by simp, collected_nil s₁⟩
  refine ends_mono hloop ?_
  intro r u hu
  obtain err | ⟨messages, frames⟩ := r
  · obtain ⟨topics, acc, e, hu, he, hmissing⟩ := hu
    rw [hu.state]
    refine .inr (.subscribeFailed (topics.map Prod.snd) ((hinterest e).mp he).1 hmissing ?_)
    intro t ht
    obtain ⟨f, hf, rfl⟩ := List.mem_map.mp ht
    exact hu.lists f hf
  · obtain ⟨topics, happ, hu⟩ := hu
    rw [List.append_nil] at happ
    subst happ
    simp only [thenEnds_ok, ends_bind, ends_modify, putClient]
    rw [← ends_bind]
    refine ends_sendBoth rfl ?_
    rw [hu.state]
    exact .inr (.subscribed subscription now _ interest messages frames hc hinterest hu.lists rfl
      hu.collected.tells hu.collected.told hu.collected.frames hnodup hu.collected.current)

theorem does_subscribe {sub : Subscribe} {now : Instant} (hsub : P .sub) :
    Ends (subscribe o sub c now) s fun _ s' => Does P 1 s s' := by
  refine ends_mono effect_subscribe ?_
  intro r s' hs
  obtain rfl | he := hs
  · exact (Quiet.refl s').does.mono (by omega) fun _ h => h
  · refine .one he fun a ha => ?_
    cases ha
    exact hsub

theorem quiet_unsubscribe {unsub : Unsubscribe} :
    Ends (unsubscribe unsub c) s fun _ s' => Quiet s s' := by
  simp only [unsubscribe, ends_bind, ends_get, thenEnds_ok, ends_okOr, thenEnds_error, ends_modify,
    putClient]
  refine ⟨fun client hc => ⟨fun i hi => ?_, fun _ => .refl s⟩, fun _ => .refl s⟩
  exact .one (.unsubscribed _ hc hi)

theorem does_setProperties {msg : SetProperties} (hp : P .properties) :
    Ends (setProperties msg) s fun _ s' => Does P 0 s s' := by
  have hrefl : Does P 0 s s := (Quiet.refl s).does
  simp only [setProperties, ends_bind, ends_get, thenEnds_ok, ends_okOr, thenEnds_error,
    ends_modify]
  refine ⟨fun t _ => ⟨fun topic ht => ?_, fun _ => hrefl⟩, fun _ => hrefl⟩
  refine .free (.propertiesSet _ ht) fun a ha => ?_
  cases ha
  exact ⟨hp, fun _ => rfl⟩

/-- The fan-out of a value adds it to each queue as often as the subscription is listed. -/
theorem ends_queueValues_count {value : FrcTimestampedValue} (subs : List SubIdx) :
    Ends (forEach subs (queueValue value t)) s fun r s' => r = .ok () ∧
      s' = { s with subValues := s'.subValues } ∧
      ∀ i, s'.subValues.lookup i = (s.subValues.lookup i).map
        (fun stored : StoredSubValue => stored.addValue t (.normalValue value))^[subs.count i] := by
  induction subs generalizing s with
  | nil =>
    refine (ends_pure ()).mpr ⟨rfl, rfl, fun i => ?_⟩
    simp
  | cons j subs ih =>
    simp only [forEach, queueValue, ends_bind, ends_get, thenEnds_ok, ends_unwrapOr, ends_modify]
    intro stored hstored
    refine ends_mono ih ?_
    intro r s' hs'
    obtain ⟨hr, hrest, hqueues⟩ := hs'
    refine ⟨hr, hrest, fun i => ?_⟩
    rw [hqueues i, KeyMap.lookup_insert]
    by_cases hi : i = j
    · subst hi
      simp [hstored]
    · have hne : j ≠ i := fun heq => hi heq.symm
      simp [hi, hne]

/-- A fan-out over some of the subscriptions listed for a normal topic. -/
theorem ends_queueValues {value : FrcTimestampedValue} {topic : Topic} {subs l : List SubIdx}
    (ht : s.topics.lookup t = some topic) (hnormal : hasDollar topic.name = false)
    (hsubs : s.topicSubMap.lookup t = some subs) (hl : ∀ i ∈ l, i ∈ subs) :
    Ends (forEach l (queueValue value t)) s fun _ s' =>
      Quiet s s' ∧ s'.topics = s.topics ∧ s'.topicSubMap = s.topicSubMap := by
  induction l generalizing s with
  | nil => exact (ends_pure ()).mpr ⟨.refl s, rfl, rfl⟩
  | cons i l ih =>
    simp only [forEach, queueValue, ends_bind, ends_get, thenEnds_ok, ends_unwrapOr, ends_modify]
    intro stored hstored
    have hq := Quiet.one (.valueQueued value ht hnormal hsubs (hl i (by simp)) hstored)
    refine ends_mono (ih ht hsubs fun j hj => hl j (by simp [hj])) ?_
    intro r s' h
    exact ⟨hq.trans h.1, h.2⟩

theorem quiet_setValue {value : FrcTimestampedValue} :
    Ends (setValue value t) s fun _ s' => Quiet s s' := by
  simp only [setValue, ends_bind, ends_get, thenEnds_ok, ends_okOr, thenEnds_error]
  refine ⟨fun topic ht => ?_, fun _ => .refl s⟩
  split_ifs with hdollar
  · exact (ends_throw _).mpr (.refl s)
  have hnormal : hasDollar topic.name = false := by simpa using hdollar
  simp only [ends_bind, ends_get, thenEnds_ok, ends_unwrapOr]
  intro subs hsubs
  refine ends_mono (ends_queueValues ht hnormal hsubs fun _ h => h) ?_
  intro r s₁ hs
  obtain ⟨hq, htopics, -⟩ := hs
  obtain e | a := r
  · exact hq
  have ht₁ : s₁.topics.lookup t = some topic := by rw [htopics]; exact ht
  simp only [thenEnds_ok, storeValue, ends_bind, ends_get]
  split
  · split_ifs
    · exact (ends_modify _).mpr (hq.trans (.one (.valueStored _ ht₁ hnormal)))
    · exact (ends_pure ()).mpr hq
  · exact (ends_modify _).mpr (hq.trans (.one (.valueStored _ ht₁ hnormal)))

theorem quiet_announceAllTopicsFor {i : SubIdx} :
    Ends (announceAllTopicsFor o i) s fun _ s' => Quiet s s' := by
  simp only [announceAllTopicsFor, ends_bind, ends_get, thenEnds_ok, ends_okOr, thenEnds_error,
    putClient, ends_modify]
  refine ⟨fun entry _ => ⟨fun client hc => ?_, fun _ => .refl s⟩, fun _ => .refl s⟩
  have hq : ∀ announced, Quiet s { s with
      clients := s.clients.insert entry.2 { client with announcedTopics := announced } } :=
    fun announced => .one (.marked announced hc)
  refine ends_mono (quiet_sendNtMessages ((hq _).tells ⟨fun a ha => ?_, fun m hm => ?_⟩))
    fun _ _ hq' => (hq _).trans hq'
  · obtain ⟨e, he, hmsg⟩ := List.mem_filterMap.mp ha
    obtain ⟨topic, ht, hannounce⟩ := Option.map_eq_some_iff.mp hmsg
    cases hannounce
    refine ⟨e.2, rfl, .inl ?_⟩
    exact (o.mem_walk _ _ _).mp (List.mem_of_mem_filter he)
  · obtain ⟨e, he, hmsg⟩ := List.mem_filterMap.mp hm
    obtain ⟨topic, ht, hannounce⟩ := Option.map_eq_some_iff.mp hmsg
    exact .inl ⟨_, hannounce.symm⟩

theorem quiet_unAnnounceTo {name : String} :
    Ends (unAnnounceTo name t c) s fun _ s' => Quiet s s' := by
  simp only [unAnnounceTo, ends_bind, ends_get, thenEnds_ok]
  cases hc : s.clients.lookup c with
  | none => exact (ends_pure ()).mpr (.refl s)
  | some client =>
    dsimp only
    split_ifs with hmem
    · simp only [ends_bind, putClient, ends_modify, thenEnds_ok]
      have hq := Quiet.one (.marked (client.announcedTopics.erase t) hc)
      refine ends_mono (quiet_sendNtMessages ⟨fun a ha => ?_, fun m hm => ?_⟩)
        fun _ _ hq' => hq.trans hq'
      · simp at ha
      · exact .inr ⟨_, List.mem_singleton.mp hm⟩
    · exact (ends_pure ()).mpr (.refl s)

theorem quiet_unAnnounceTopics {name : String} :
    Ends (unAnnounceTopics o name t) s fun _ s' => Quiet s s' := by
  simp only [unAnnounceTopics, ends_bind, ends_get, thenEnds_ok]
  exact quiet_forEach (fun _ => True) (fun _ _ _ _ => trivial)
    (fun c _ s _ => quiet_unAnnounceTo) trivial

theorem quiet_flushAll : Ends (flushAll o) s fun _ s' => Quiet s s' := by
  simp only [flushAll, ends_bind, ends_get, thenEnds_ok]
  exact quiet_forEach (fun _ => True) (fun _ _ _ _ => trivial)
    (fun c _ s _ => quiet_flush) trivial

theorem quiet_flushClient : Ends (flushClient c) s fun _ s' => Quiet s s' := by
  simp only [flushClient, ends_bind, ends_get, thenEnds_ok, ends_okOr, thenEnds_error]
  exact ⟨fun _ _ => quiet_flush, fun _ => .refl s⟩

theorem quiet_closeChannel : Ends (closeChannel c) s fun _ s' => Quiet s s' := by
  simp only [closeChannel, ends_bind, ends_get, thenEnds_ok]
  cases hc : s.clients.lookup c with
  | none => exact (ends_pure ()).mpr (.refl s)
  | some client => exact (ends_modify _).mpr (.one (.closed hc))

section SendOut

variable {batch : TopicIdx × List ServerSendableValue} {client : ConnectedClient}

theorem ends_encodeBatch :
    Ends (encodeBatch batch) s fun r s' => r = .ok (batchFrames batch) ∧ s' = s := by
  refine ends_mono (ends_foldEach
    (fun rest buf u => u = s ∧ ∃ vals, vals ++ rest = batch.2 ∧
      buf = batchFrames (batch.1, vals))
    (fun _ _ => False) _ ?_ batch.2 [] s ⟨rfl, [], rfl, rfl⟩) ?_
  · rintro ⟨v⟩ rest buf u ⟨rfl, vals, happ, rfl⟩
    simp only [ends_bind, ends_unwrapOr, thenEnds_ok, ends_pure]
    intro id hid
    refine ⟨trivial, vals ++ [.normalValue v], by simpa using happ, ?_⟩
    unfold tryFromI32 at hid
    split_ifs at hid
    cases hid
    simp [batchFrames]
  intro result u hu
  obtain e | buf := result
  · exact hu.elim
  · obtain ⟨rfl, vals, happ, rfl⟩ := hu
    rw [List.append_nil] at happ
    subst happ
    exact ⟨rfl, rfl⟩

theorem ends_sendBatch_dropped (hc : s.clients.lookup c = some client)
    (hclosed : ∀ ch, client.subOuput = some ch → ch.isOpen = false) :
    Ends (sendBatch c batch) s fun r s' => r = .ok () ∧ s' = s := by
  refine (ends_bind _ _).mpr (ends_mono ends_encodeBatch ?_)
  intro r u h
  obtain ⟨rfl, rfl⟩ := h
  refine (ends_attempt _).mpr ((ends_sendOn_of_client hc).mpr ?_)
  split
  · exact ⟨rfl, rfl⟩
  next ch hch => simp [hclosed ch hch]

theorem ends_sendBatch_sent {ch : Outgoing} (hc : s.clients.lookup c = some client)
    (hch : client.subOuput = some ch) (hopen : ch.isOpen = true) :
    Ends (sendBatch c batch) s fun r s' => r = .ok () ∧ s' = { s with
      clients := s.clients.insert c { client with
        subOuput := some { ch with sent := ch.sent ++ [.binary (batchFrames batch)] } } } := by
  refine (ends_bind _ _).mpr (ends_mono ends_encodeBatch ?_)
  intro r u h
  obtain ⟨rfl, rfl⟩ := h
  refine (ends_attempt _).mpr ((ends_sendOn_of_client hc).mpr ?_)
  simp [hch, hopen]

theorem ends_sendBatches_dropped {l : List (TopicIdx × List ServerSendableValue)}
    (hc : s.clients.lookup c = some client)
    (hclosed : ∀ ch, client.subOuput = some ch → ch.isOpen = false) :
    Ends (forEach l (sendBatch c)) s fun _ s' => s' = s := by
  induction l with
  | nil => exact (ends_pure ()).mpr rfl
  | cons b l ih =>
    refine (ends_bind _ _).mpr (ends_mono (ends_sendBatch_dropped hc hclosed) ?_)
    intro r u h
    obtain ⟨rfl, rfl⟩ := h
    exact ih

theorem ends_sendBatches_sent {l : List (TopicIdx × List ServerSendableValue)} {ch : Outgoing}
    (hl : l ≠ []) (hc : s.clients.lookup c = some client) (hch : client.subOuput = some ch)
    (hopen : ch.isOpen = true) :
    Ends (forEach l (sendBatch c)) s fun _ s' => s' = { s with
      clients := s.clients.insert c { client with
        subOuput := some { ch with sent := ch.sent ++ l.map fun b => .binary (batchFrames b) } } } := by
  induction l generalizing s client ch with
  | nil => exact (hl rfl).elim
  | cons b l ih =>
    refine (ends_bind _ _).mpr (ends_mono (ends_sendBatch_sent hc hch hopen) ?_)
    intro r u h
    obtain ⟨rfl, rfl⟩ := h
    rw [thenEnds_ok]
    by_cases hnil : l = []
    · subst hnil
      exact (ends_pure ()).mpr rfl
    · have hopen' : ({ ch with sent := ch.sent ++ [.binary (batchFrames b)] } : Outgoing).isOpen =
          true := hopen
      refine ends_mono (ih hnil (by rw [KeyMap.lookup_insert, if_pos rfl]) rfl hopen') ?_
      rintro r u rfl
      simp [AList.insert_insert]

theorem ends_sendTurn {clock : SendClock} {offset : ℚ} {i : SubIdx} {sub : Subscription}
    (hi : s.subscriptions.lookup i = some (sub, c)) :
    Ends (sendTurn o clock offset (i, sub, c)) s fun _ s' =>
      Quiet s s' ∧ s'.subscriptions = s.subscriptions := by
  simp only [sendTurn]
  split_ifs
  · exact (ends_pure _).mpr ⟨.refl s, rfl⟩
  simp only [ends_bind, ends_get, thenEnds_ok, ends_unwrapOr]
  intro since hsince
  split_ifs
  · exact (ends_pure _).mpr ⟨.refl s, rfl⟩
  simp only [ends_bind, ends_get, thenEnds_ok, ends_modify]
  have hstamp := Quiet.one (.stamped (clock.stamp i) hsince)
  cases hc : s.clients.lookup c with
  | none => exact (ends_pure _).mpr ⟨hstamp, rfl⟩
  | some client =>
    simp only [ends_bind, ends_unwrapOr, thenEnds_ok, ends_modify, ends_get]
    intro stored hstored
    refine ends_thenPure (fun u => Quiet s u ∧ u.subscriptions = s.subscriptions) ?_
    by_cases hdrop : stored.takeValues.1 = [] ∨
        ∀ ch, client.subOuput = some ch → ch.isOpen = false
    · have hq := hstamp.trans (.one (.batchesDropped hi hc hstored hdrop))
      rcases hdrop with hnil | hclosed
      · have hnil' : o.arrange stored.takeValues.1 = [] := by
          rw [hnil]
          exact List.Perm.eq_nil (o.perm [])
        rw [hnil']
        exact (ends_pure ()).mpr ⟨hq, rfl⟩
      · refine ends_mono (ends_sendBatches_dropped hc hclosed) ?_
        rintro r u rfl
        exact ⟨hq, rfl⟩
    · push Not at hdrop
      obtain ⟨hne, ch, hch, hopen⟩ := hdrop
      have hopen : ch.isOpen = true := by simpa using hopen
      have hne' : o.arrange stored.takeValues.1 ≠ [] := by
        intro h
        exact hne (List.Perm.nil_eq (h ▸ o.perm _)).symm
      refine ends_mono (ends_sendBatches_sent hne' hc hch hopen) ?_
      rintro r u rfl
      exact ⟨hstamp.trans (.one (.batchesSent (o.arrange stored.takeValues.1) hi hc hch hopen hstored
        (o.perm _))), rfl⟩

theorem quiet_sendOut {clock : SendClock} {offset : ℚ} :
    Ends (sendOut o clock offset) s fun _ s' => Quiet s s' := by
  simp only [sendOut, ends_bind, ends_get, thenEnds_ok]
  have hloop := ends_foldEach
    (fun rest _ u => Quiet s u ∧ u.subscriptions = s.subscriptions ∧
      ∀ e ∈ rest, s.subscriptions.lookup e.1 = some e.2)
    (fun _ u => Quiet s u) (sendTurn o clock) (by
      rintro ⟨i, sub, c⟩ rest b u ⟨hq, hsubs, hrest⟩
      have hi : u.subscriptions.lookup i = some (sub, c) := by
        rw [hsubs]
        exact hrest _ (List.mem_cons_self ..)
      refine ends_mono (ends_sendTurn hi) ?_
      intro r u' h
      obtain ⟨hq', hsubs'⟩ := h
      obtain e | b' := r
      · exact hq.trans hq'
      · exact ⟨hq.trans hq', hsubs'.trans hsubs, fun e he => hrest e (List.mem_cons_of_mem _ he)⟩)
    (o.walk s.subscriptions) offset s
    ⟨.refl s, rfl, fun e he => (o.mem_walk s.subscriptions e.1 e.2).mp he⟩
  refine ends_mono hloop ?_
  intro r u hu
  obtain e | b := r
  · exact hu
  · exact hu.1

end SendOut

end NetTables.Server
