import NetTables.Server.Announcements
import NetTables.Server.Store

namespace NetTables.Server

open Lib Lib.Fallible Spec

variable {s s' : InnerServer} {o : IterOrder} {c : ClientIdx} {sub : Subscribe} {now : Instant}

/-- What the server keeps of a subscription message. -/
def subscriptionOf (sub : Subscribe) : Subscription := ⟨sub.subuid, sub.topics, sub.options⟩

/-- The value messages that `subscribe` sends along with its announcements. -/
def subscribeFrames (s : InnerServer) (topics : List (String × TopicIdx)) : List ValueFrame :=
  topics.flatMap fun e => if (subscribeType s e.1 e.2).isSome then initialFrame s e.2 else []

/-- What `subscribe` puts on the channel. -/
def subscribeMessages (o : IterOrder) (s : InnerServer) (sub : Subscribe) : List OutMessage :=
  [.text ((subscribeAnnounces s (interestOf o s sub)).map .announce),
    .binary (subscribeFrames s (interestOf o s sub))]

/-- The server after a subscription that goes through. -/
def InnerServer.subscribed (s : InnerServer) (o : IterOrder) (sub : Subscribe) (c : ClientIdx)
    (client : ConnectedClient) (now : Instant) : InnerServer :=
  { s with
    topicSubMap :=
      pushAll s.counters.subIdx ((interestOf o s sub).map Prod.snd) s.topicSubMap
    subSendTimestamps := s.subSendTimestamps.insert s.counters.subIdx now
    subValues := s.subValues.insert s.counters.subIdx
      (if (subscriptionOf sub).getOptions.all.getD false then .newAll else .newOne)
    subscriptions := s.subscriptions.insert s.counters.subIdx (subscriptionOf sub, c)
    clients := s.clients.insert c { client with
      subuidToSubidx := client.subuidToSubidx.insert sub.subuid.toUInt32 s.counters.subIdx
      subOuput := client.subOuput.map fun ch => ch.append (subscribeMessages o s sub) }
    counters := { s.counters with subIdx := s.counters.subIdx + 1 } }

/-- The client has no channel, or one that is open. -/
def ConnectedClient.Listens (client : ConnectedClient) : Prop :=
  ∀ ch, client.subOuput = some ch → ch.isOpen = true

/-- The three ends of `subscribe`. -/
inductive SubscribeEnd (o : IterOrder) (s : InnerServer) (sub : Subscribe) (c : ClientIdx)
    (now : Instant) : Except NetworkTablesError Unit → InnerServer → Prop where
  | noClient (e : NetworkTablesError) (hc : s.clients.lookup c = none) :
      SubscribeEnd o s sub c now (.error e) s
  | noList (e : NetworkTablesError) (lists : KeyMap TopicIdx (List SubIdx))
      (entry : String × TopicIdx) (hentry : entry ∈ interestOf o s sub)
      (hmissing : entry.2 ∉ s.topicSubMap) :
      SubscribeEnd o s sub c now (.error e) { s with
        topicSubMap := lists
        counters := { s.counters with subIdx := s.counters.subIdx + 1 } }
  | done (r : Except NetworkTablesError Unit) (client : ConnectedClient)
      (hc : s.clients.lookup c = some client)
      (hlists : ∀ e ∈ interestOf o s sub, e.2 ∈ s.topicSubMap)
      (hr : r = .ok () ↔ client.Listens) :
      SubscribeEnd o s sub c now r (s.subscribed o sub c client now)

section Subscribe

variable {topics : List (String × TopicIdx)} {acc : List NTMessage × List ValueFrame}
  {u : InnerServer} {e : String × TopicIdx}

/-- The loop of `subscribe` once it is through with `topics`. -/
structure Listing (s : InnerServer) (i : SubIdx) (topics : List (String × TopicIdx))
    (acc : List NTMessage × List ValueFrame) (u : InnerServer) : Prop where
  state : u = { s with topicSubMap := pushAll i (topics.map Prod.snd) s.topicSubMap }
  lists : ∀ e ∈ topics, e.2 ∈ s.topicSubMap
  messages : acc.1 = (subscribeAnnounces s topics).map .announce
  frames : acc.2 = subscribeFrames s topics

theorem ends_subscribeTopic_listing {i : SubIdx} (h : Listing s i topics acc u) :
    Ends (subscribeTopic i acc e) u fun r u' =>
      match r with
      | .ok acc' => Listing s i (topics ++ [e]) acc' u'
      | .error _ => u' = u ∧ e.2 ∉ s.topicSubMap := by
  obtain rfl := h.state
  have hkeys : ∀ t, t ∈ pushAll i (topics.map Prod.snd) s.topicSubMap ↔ t ∈ s.topicSubMap := by
    intro t
    apply mem_pushAll
    intro v hv
    obtain ⟨f, hf, rfl⟩ := List.mem_map.mp hv
    exact h.lists f hf
  have htype : ∀ lists, subscribeType { s with topicSubMap := lists } e.1 e.2 =
      subscribeType s e.1 e.2 := fun _ => rfl
  simp only [subscribeTopic, ends_bind, ends_get, thenEnds_ok, ends_okOr, thenEnds_error,
    ends_modify, htype]
  refine ⟨fun vectr hv => ?_, fun hnone => ⟨trivial, fun hmem => ?_⟩⟩
  · have hmem : e.2 ∈ s.topicSubMap := (hkeys e.2).mp ((KeyMap.mem_iff_lookup _ _).mpr ⟨vectr, hv⟩)
    have hpush : pushAll i ((topics ++ [e]).map Prod.snd) s.topicSubMap =
        (pushAll i (topics.map Prod.snd) s.topicSubMap).insert e.2 (vectr ++ [i]) := by
      rw [List.map_append, List.map_singleton, pushAll_append, hv, Option.getD_some]
    have hlists : ∀ f ∈ topics ++ [e], f.2 ∈ s.topicSubMap :=
      List.forall_mem_append.mpr ⟨h.lists, List.forall_mem_singleton.mpr hmem⟩
    have hannounces : subscribeAnnounces s (topics ++ [e]) = subscribeAnnounces s topics ++
        ((subscribeType s e.1 e.2).map (subscribeAnnounce s e.1 e.2)).toList := by
      rw [subscribeAnnounces, List.filterMap_append]
      cases hty : subscribeType s e.1 e.2 <;> simp [subscribeAnnounces, hty]
    have hframes : subscribeFrames s (topics ++ [e]) = subscribeFrames s topics ++
        if (subscribeType s e.1 e.2).isSome then initialFrame s e.2 else [] := by
      simp [subscribeFrames]
    cases hty : subscribeType s e.1 e.2 with
    | none =>
      rw [hty] at hannounces hframes
      refine (ends_pure _).mpr ⟨by rw [hpush], hlists, ?_, ?_⟩
      · simpa [hannounces] using h.messages
      · simpa [hframes] using h.frames
    | some type =>
      rw [hty] at hannounces hframes
      refine (ends_pure _).mpr ⟨by rw [hpush], hlists, ?_, ?_⟩
      · rw [hannounces, h.messages]
        simp [subscribeAnnounce]
      · rw [hframes, h.frames]
        simp [initialFrame]
  · obtain ⟨v, hv⟩ := (KeyMap.mem_iff_lookup _ _).mp ((hkeys e.2).mpr hmem)
    rw [hnone] at hv
    cases hv

/-- The two sends fail only on a closed channel. -/
theorem ends_sendBoth_result {client : ConnectedClient} {messages : List NTMessage}
    {frames : List ValueFrame} (hc : u.clients.lookup c = some client) :
    Ends (sendNtMessages c messages >>= fun _ => sendBinary c frames) u fun r _ =>
      (r = .ok () ↔ client.Listens) := by
  refine (ends_bind _ _).mpr ((ends_sendOn_of_client hc).mpr ?_)
  cases hch : client.subOuput with
  | none =>
    refine (ends_sendOn_of_client hc).mpr ?_
    simp [hch, ConnectedClient.Listens]
  | some ch =>
    dsimp only
    split_ifs with hopen
    · have hput := KeyMap.lookup_insert u.clients c c
        { client with subOuput := some { ch with sent := ch.sent ++ [.text messages] } }
      rw [if_pos rfl] at hput
      refine (ends_sendOn_of_client hput).mpr ?_
      simp [ConnectedClient.Listens, hch, hopen]
    · simp [ConnectedClient.Listens, hch, hopen]

/-- All that a subscription does. -/
theorem ends_subscribe : Ends (subscribe o sub c now) s (SubscribeEnd o s sub c now) := by
  let s₁ : InnerServer := { s with counters := { s.counters with subIdx := s.counters.subIdx + 1 } }
  simp only [subscribe, ends_bind, ends_get, thenEnds_ok, ends_okOr, thenEnds_error, ends_modify,
    Counter.nextSubIdx]
  refine ⟨fun client hc => ?_, fun hc => .noClient _ hc⟩
  have hloop := ends_foldEach
    (fun rest acc u => ∃ topics, topics ++ rest = interestOf o s sub ∧
      Listing s₁ s.counters.subIdx topics acc u)
    (fun _ u => ∃ lists, ∃ e ∈ interestOf o s sub, u = { s₁ with topicSubMap := lists } ∧
      e.2 ∉ s.topicSubMap)
    (subscribeTopic s.counters.subIdx) (by
      intro e rest acc u hinv
      obtain ⟨topics, happ, hu⟩ := hinv
      have he : e ∈ interestOf o s sub := by rw [← happ]; simp
      refine ends_mono (ends_subscribeTopic_listing hu) ?_
      intro r u' hu'
      cases r with
      | error err => exact ⟨_, e, he, hu'.1.trans hu.state, hu'.2⟩
      | ok acc' => exact ⟨topics ++ [e], by simpa using happ, hu'⟩)
    (interestOf o s sub) ([], []) s₁ ⟨[], rfl, rfl, by simp, rfl, rfl⟩
  refine ends_mono hloop ?_
  intro r u hu
  cases r with
  | error err =>
    obtain ⟨lists, e, he, rfl, hmissing⟩ := hu
    exact .noList err lists e he hmissing
  | ok acc =>
    obtain ⟨messages, frames⟩ := acc
    obtain ⟨topics, happ, hu⟩ := hu
    rw [List.append_nil] at happ
    subst happ
    obtain rfl := hu.state
    have hmessages : messages = (subscribeAnnounces s (interestOf o s sub)).map .announce :=
      hu.messages
    have hframes : frames = subscribeFrames s (interestOf o s sub) := hu.frames
    subst hmessages hframes
    simp only [thenEnds_ok, ends_bind, ends_modify, putClient]
    rw [← ends_bind]
    have hput := fun v : ConnectedClient =>
      KeyMap.lookup_insert s.clients c c v
    refine ends_mono (ends_and (ends_sendBoth_result (by rw [hput, if_pos rfl]))
      (ends_sendBoth (Q := fun s' => s' = s.subscribed o sub c client now) rfl rfl)) ?_
    intro r s' h
    obtain ⟨hr, rfl⟩ := h
    exact .done r client hc hu.lists hr

end Subscribe

section Unsubscribe

variable {client : ConnectedClient} {i : SubIdx}

/-- The server after the end of a subscription. -/
def InnerServer.unsubscribed (s : InnerServer) (c : ClientIdx) (client : ConnectedClient)
    (subuid : SubUID) (i : SubIdx) : InnerServer :=
  { s with
    clients := s.clients.insert c
      { client with subuidToSubidx := client.subuidToSubidx.removeByLeft subuid }
    topicSubMap := s.topicSubMap.mapValues fun vectr => vectr.filter fun elem => elem ≠ i
    subscriptions := s.subscriptions.erase i
    subValues := s.subValues.erase i
    subSendTimestamps := s.subSendTimestamps.erase i }

theorem exec_unsubscribe {unsub : Unsubscribe} (hc : s.clients.lookup c = some client)
    (hi : client.subuidToSubidx.getByLeft unsub.subuid.toUInt32 = some i) :
    (unsubscribe unsub c).exec s =
      .ok (.ok (), s.unsubscribed c client unsub.subuid.toUInt32 i) := by
  simp only [unsubscribe, exec_bind, exec_get, hc, okOr, exec_pure, hi, putClient, exec_modify,
    InnerServer.unsubscribed]

/-- The filter takes back what was pushed. -/
theorem filter_pushAll {ts : List TopicIdx} {m : KeyMap TopicIdx (List SubIdx)} (t : TopicIdx)
    (hts : ∀ t ∈ ts, t ∈ m) :
    ((pushAll i ts m).lookup t).map (List.filter fun elem => elem ≠ i) =
      (m.lookup t).map (List.filter fun elem => elem ≠ i) := by
  induction ts generalizing m with
  | nil => rfl
  | cons v ts ih =>
    obtain ⟨subs, hsubs⟩ := (KeyMap.mem_iff_lookup _ _).mp (hts v List.mem_cons_self)
    have hkeys : ∀ t ∈ ts, t ∈ m.insert v ((m.lookup v).getD [] ++ [i]) := by
      intro t ht
      exact (AList.mem_insert m).mpr (.inr (hts t (List.mem_cons_of_mem _ ht)))
    rw [pushAll, List.foldl_cons, ← pushAll, ih hkeys, KeyMap.lookup_insert, hsubs]
    by_cases ht : t = v
    · subst ht
      simp [hsubs]
    · simp [ht]

/-- What a subscription and its end leave: the tables hold the same again, the client has its
channel's new messages, and the counter has moved. -/
structure Undone (s : InnerServer) (c : ClientIdx) (client : ConnectedClient) (s' : InnerServer)
    (client' : ConnectedClient) : Prop where
  subscriptions : ∀ i, s'.subscriptions.lookup i = s.subscriptions.lookup i
  values : ∀ i, s'.subValues.lookup i = s.subValues.lookup i
  timestamps : ∀ i, s'.subSendTimestamps.lookup i = s.subSendTimestamps.lookup i
  lists : ∀ t, s'.topicSubMap.lookup t = s.topicSubMap.lookup t
  found : s'.clients.lookup c = some client'
  others : ∀ d, d ≠ c → s'.clients.lookup d = s.clients.lookup d
  forward : ∀ subuid,
    client'.subuidToSubidx.getByLeft subuid = client.subuidToSubidx.getByLeft subuid
  told : ∃ messages, client' = { client with
    subuidToSubidx := client'.subuidToSubidx
    subOuput := client.subOuput.map fun ch => ch.append messages }
  rest : s' = { s with
    subscriptions := s'.subscriptions
    subValues := s'.subValues
    subSendTimestamps := s'.subSendTimestamps
    topicSubMap := s'.topicSubMap
    clients := s'.clients
    counters := { s.counters with subIdx := s.counters.subIdx + 1 } }

/-- A key that was not there is gone again. -/
theorem lookup_erase_insert {ν : Type} {m : KeyMap SubIdx ν} {v : ν} (hi : i ∉ m) (j : SubIdx) :
    ((m.insert i v).erase i).lookup j = m.lookup j := by
  rw [KeyMap.lookup_erase, KeyMap.lookup_insert]
  split_ifs with hj
  · rw [hj, AList.lookup_eq_none.mpr hi]
  · rfl

theorem Stored.undone (h : Stored s) (now : Instant)
    (hnew : client.subuidToSubidx.getByLeft sub.subuid.toUInt32 = none)
    (hlists : ∀ e ∈ interestOf o s sub, e.2 ∈ s.topicSubMap)
    {record : PrimBiMap SubUID SubIdx} {client' : ConnectedClient}
    (hrecord : record = client.subuidToSubidx.insert sub.subuid.toUInt32 s.counters.subIdx)
    (hclient' : client' = { client with
      subuidToSubidx := record
      subOuput := client.subOuput.map fun ch => ch.append (subscribeMessages o s sub) }) :
    Undone s c client ((s.subscribed o sub c client now).unsubscribed c client'
        sub.subuid.toUInt32 s.counters.subIdx)
      { client' with subuidToSubidx := record.removeByLeft sub.subuid.toUInt32 } := by
  have hfresh : s.counters.subIdx ∉ s.subscriptions := by
    intro hmem
    have hlt := h.lt _ hmem
    omega
  subst hclient' hrecord
  refine ⟨lookup_erase_insert hfresh, lookup_erase_insert fun hmem => hfresh ((h.values _).mp hmem),
    lookup_erase_insert fun hmem => hfresh ((h.timestamps _).mp hmem), fun t => ?_, ?_,
    fun d hd => ?_, fun subuid => ?_, ⟨_, rfl⟩, rfl⟩
  · have hkeys : ∀ t ∈ (interestOf o s sub).map Prod.snd, t ∈ s.topicSubMap := by
      intro t ht
      obtain ⟨e, he, rfl⟩ := List.mem_map.mp ht
      exact hlists e he
    have hback := filter_pushAll t hkeys (i := s.counters.subIdx)
    have hkeep : (s.topicSubMap.lookup t).map (List.filter fun elem => elem ≠ s.counters.subIdx) =
        s.topicSubMap.lookup t := by
      cases hsubs : s.topicSubMap.lookup t with
      | none => rfl
      | some subs =>
        rw [Option.map_some, List.filter_eq_self.mpr]
        intro j hj
        have hne : j ≠ s.counters.subIdx := by
          rintro rfl
          exact hfresh (h.listed t _ ⟨subs, hsubs, hj⟩)
        exact decide_eq_true hne
    simp only [InnerServer.unsubscribed, InnerServer.subscribed, KeyMap.lookup_mapValues]
    rw [← hkeep, ← hback]
  · simp [InnerServer.unsubscribed]
  · simp [InnerServer.unsubscribed, InnerServer.subscribed, hd]
  · simp only [PrimBiMap.getByLeft_removeByLeft, PrimBiMap.getByLeft_insert]
    split_ifs with huid
    · rw [huid, hnew]
    · rfl

/-- While the indices do not wrap, the end of a subscription under a `subuid` not in use undoes it.
The reverse entry of its index stays: `remove_by_left` leaves the other side, which nobody reads. -/
theorem unsubscribe_undoes_subscribe {u : Kind → Nat} (run : Runs u s) (htopic : u .topic < 2 ^ 32)
    (hsub : u .sub < 2 ^ 32) (hc : s.clients.lookup c = some client)
    (hnew : client.subuidToSubidx.getByLeft sub.subuid.toUInt32 = none)
    (hx : (subscribe o sub c now).exec s = .ok (.ok (), s')) :
    ∃ s'' client', (unsubscribe ⟨sub.subuid⟩ c).exec s' = .ok (.ok (), s'') ∧
      Undone s c client s'' client' ∧
      ∀ i, client'.subuidToSubidx.revMap.lookup i =
        if i = s.counters.subIdx then some sub.subuid.toUInt32
        else client.subuidToSubidx.revMap.lookup i := by
  obtain ⟨-, hstored⟩ := run.stored htopic hsub
  cases ends_of_exec ends_subscribe hx with
  | done r client₀ hc₀ hlists hr =>
    rw [hc] at hc₀
    cases hc₀
    have hc' : (s.subscribed o sub c client now).clients.lookup c = some { client with
        subuidToSubidx := client.subuidToSubidx.insert sub.subuid.toUInt32 s.counters.subIdx
        subOuput := client.subOuput.map fun ch => ch.append (subscribeMessages o s sub) } := by
      rw [InnerServer.subscribed, KeyMap.lookup_insert, if_pos rfl]
    have hi : (client.subuidToSubidx.insert sub.subuid.toUInt32 s.counters.subIdx).getByLeft
        sub.subuid.toUInt32 = some s.counters.subIdx := by
      rw [PrimBiMap.getByLeft_insert, if_pos rfl]
    have hundone := hstored.undone (c := c) now hnew hlists rfl rfl
    refine ⟨_, _, exec_unsubscribe hc' hi, hundone, fun i => ?_⟩
    exact KeyMap.lookup_insert client.subuidToSubidx.revMap _ _ _

/-- A topic with a value, and a client that has not subscribed yet. -/
def publishAndConnect : List Op :=
  [.innerPublishTopic ⟨"n", 0, "int", none⟩ serverClientIdx,
    .setValue ⟨7, ⟨.int, .integer 1⟩⟩ 3, .connectClient ⟨.v4 10 0 0 2 5810, "a"⟩]

/-- Its first subscription. -/
def firstSubscription : Subscribe := ⟨0, {"n"}, none⟩

theorem publishAndConnect_subscribes :
    ∃ s client s', stateAfter anyOp .stored publishAndConnect = some s ∧
      s.clients.lookup 1 = some client ∧ client.subuidToSubidx.getByLeft 0 = none ∧
      (subscribe .stored firstSubscription 1 0).exec s = .ok (.ok (), s') := by
  have hrun : (stateAfter anyOp .stored publishAndConnect).bind (fun s =>
      (s.clients.lookup 1).bind fun client =>
        ((subscribe .stored firstSubscription 1 0).exec s).toOption.map fun p =>
          (client.subuidToSubidx.getByLeft 0, p.1.toOption)) = some (none, some ()) := by
    decide +kernel
  obtain ⟨s, hs, hview⟩ := Option.bind_eq_some_iff.mp hrun
  obtain ⟨client, hc, hview⟩ := Option.bind_eq_some_iff.mp hview
  obtain ⟨⟨r, s'⟩, hp, hview⟩ := Option.map_eq_some_iff.mp hview
  obtain ⟨hnew, hr⟩ := Prod.mk.inj hview
  refine ⟨s, client, s', hs, hc, hnew, ?_⟩
  have hok : r = .ok () := eq_ok_of_toOption hr
  rw [eq_ok_of_toOption hp, hok]

theorem unsubscribe_undoes_firstSubscription :
    ∃ s client s' s'' client', stateAfter anyOp .stored publishAndConnect = some s ∧
      (subscribe .stored firstSubscription 1 0).exec s = .ok (.ok (), s') ∧
      (unsubscribe ⟨0⟩ 1).exec s' = .ok (.ok (), s'') ∧ Undone s 1 client s'' client' := by
  obtain ⟨s, client, s', hs, hc, hnew, hx⟩ := publishAndConnect_subscribes
  obtain ⟨u, run, hu⟩ := runWhere_stateAfter (fun _ _ _ => trivial) hs
  have htopic : u .topic < 2 ^ 32 := (hu .topic).trans_lt (by decide)
  have hsub : u .sub < 2 ^ 32 := (hu .sub).trans_lt (by decide)
  obtain ⟨s'', client', hx', hundone, -⟩ := unsubscribe_undoes_subscribe run htopic hsub hc hnew hx
  exact ⟨s, client, s', s'', client', hs, hx, hx', hundone⟩

/-- The map from indices to `subuid`s keeps the index of the subscription that is over. -/
theorem reverse_entry_stays :
    ¬∀ u s, Runs u s → u .topic < 2 ^ 32 → u .sub < 2 ^ 32 → ∀ o sub c client now s',
      s.clients.lookup c = some client →
      client.subuidToSubidx.getByLeft sub.subuid.toUInt32 = none →
      (subscribe o sub c now).exec s = .ok (.ok (), s') →
        ∃ s'' client', (unsubscribe ⟨sub.subuid⟩ c).exec s' = .ok (.ok (), s'') ∧
          Undone s c client s'' client' ∧
          ∀ i, client'.subuidToSubidx.revMap.lookup i =
            client.subuidToSubidx.revMap.lookup i := by
  intro h
  obtain ⟨s, client, s', hs, hc, hnew, hx⟩ := publishAndConnect_subscribes
  obtain ⟨u, run, hu⟩ := runWhere_stateAfter (fun _ _ _ => trivial) hs
  have htopic : u .topic < 2 ^ 32 := (hu .topic).trans_lt (by decide)
  have hsub : u .sub < 2 ^ 32 := (hu .sub).trans_lt (by decide)
  obtain ⟨s'', client', hx', hundone, hreverse⟩ :=
    h u s run htopic hsub .stored firstSubscription 1 client 0 s' hc hnew hx
  have hrun : (stateAfter anyOp .stored publishAndConnect).bind (fun s =>
      ((subscribe .stored firstSubscription 1 0).exec s).toOption.bind fun p =>
        ((unsubscribe ⟨0⟩ 1).exec p.2).toOption.bind fun q =>
          (s.clients.lookup 1).bind fun client => (q.2.clients.lookup 1).map fun client' =>
            (client.subuidToSubidx.revMap.lookup 0, client'.subuidToSubidx.revMap.lookup 0)) =
      some (none, some 0) := by decide +kernel
  have hx'' : (unsubscribe ⟨0⟩ 1).exec s' = .ok (.ok (), s'') := hx'
  simp only [hs, Option.bind_some, hx, Except.toOption, hx'', hc, hundone.found, Option.map_some,
    hreverse 0, Option.some.injEq, Prod.mk.injEq] at hrun
  rw [hrun.1] at hrun
  cases hrun.2

end Unsubscribe

end NetTables.Server
