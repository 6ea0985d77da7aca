import NetTables.Server.Soundness

namespace NetTables.Server

open Lib Lib.Fallible Spec

/-- What a connected client is, apart from what it was announced and sent. -/
def ConnectedClient.record (client : ConnectedClient) :
    ClientIdentity × Bool × PrimBiMap PubUID TopicIdx × PrimBiMap SubUID SubIdx :=
  (client.identity, client.killBool, client.pubuidToTopicidx, client.subuidToSubidx)

/-- Client `d` is where it was: in `clients` with its record, in `client_map`, and in the
subscriptions. -/
structure Untouched (d : ClientIdx) (s s' : InnerServer) : Prop where
  client : (s'.clients.lookup d).map ConnectedClient.record =
    (s.clients.lookup d).map ConnectedClient.record
  identities : ∀ ident, s'.clientMap.lookup ident = some d ↔ s.clientMap.lookup ident = some d
  subscriptions : ∀ i sub, s'.subscriptions.lookup i = some (sub, d) ↔
    s.subscriptions.lookup i = some (sub, d)

/-- Client `d` has lost some of it at most. -/
structure Dwindled (d : ClientIdx) (s s' : InnerServer) : Prop where
  client : (s'.clients.lookup d).map ConnectedClient.record =
    (s.clients.lookup d).map ConnectedClient.record ∨ s'.clients.lookup d = none
  identities : ∀ ident, s'.clientMap.lookup ident = some d → s.clientMap.lookup ident = some d
  subscriptions : ∀ i sub, s'.subscriptions.lookup i = some (sub, d) →
    s.subscriptions.lookup i = some (sub, d)

/-- The clients in `P` are untouched. -/
def UntouchedOn (P : ClientIdx → Prop) (s s' : InnerServer) : Prop := ∀ d, P d → Untouched d s s'

/-- All clients other than `c` are untouched. -/
abbrev Isolated (c : ClientIdx) : InnerServer → InnerServer → Prop := UntouchedOn (· ≠ c)

variable {s s' s'' : InnerServer} {o : IterOrder} {c d : ClientIdx}

namespace Untouched

theorem refl (d : ClientIdx) (s : InnerServer) : Untouched d s s :=
  ⟨rfl, fun _ => Iff.rfl, fun _ _ => Iff.rfl⟩

theorem trans (h : Untouched d s s') (h' : Untouched d s' s'') : Untouched d s s'' where
  client := h'.client.trans h.client
  identities ident := (h'.identities ident).trans (h.identities ident)
  subscriptions i sub := (h'.subscriptions i sub).trans (h.subscriptions i sub)

/-- It looks at three tables, and there at what concerns the client only. -/
theorem of_lookups (hclients : s'.clients.lookup d = s.clients.lookup d)
    (hmap : ∀ ident, s'.clientMap.lookup ident = some d ↔ s.clientMap.lookup ident = some d)
    (hsubs : ∀ i sub, s'.subscriptions.lookup i = some (sub, d) ↔
      s.subscriptions.lookup i = some (sub, d)) : Untouched d s s' :=
  ⟨by rw [hclients], hmap, hsubs⟩

theorem dwindled (h : Untouched d s s') : Dwindled d s s' :=
  ⟨.inl h.client, fun ident => (h.identities ident).mp, fun i sub => (h.subscriptions i sub).mp⟩

end Untouched

namespace Dwindled

theorem trans (h : Dwindled d s s') (h' : Dwindled d s' s'') : Dwindled d s s'' := by
  refine ⟨?_, fun ident hi => h.identities ident (h'.identities ident hi),
    fun i sub hi => h.subscriptions i sub (h'.subscriptions i sub hi)⟩
  rcases h'.client with heq | hnone
  · rw [heq]
    rcases h.client with heq | hnone
    · exact .inl heq
    · rw [hnone] at heq
      exact .inr (Option.map_eq_none_iff.mp heq)
  · exact .inr hnone

/-- What is lost on the way is missing at the end. -/
theorem untouched_of_trans (h : Dwindled d s s') (h' : Dwindled d s' s'')
    (hend : Untouched d s s'') : Untouched d s s' ∧ Untouched d s' s'' := by
  have hclient : (s'.clients.lookup d).map ConnectedClient.record =
      (s.clients.lookup d).map ConnectedClient.record := by
    rcases h.client with heq | hnone
    · exact heq
    · have hgone : (s''.clients.lookup d).map ConnectedClient.record = none := by
        rcases h'.client with heq | hnone'
        · rw [heq, hnone]
          rfl
        · rw [hnone']
          rfl
      rw [hend.client] at hgone
      rw [hnone, hgone]
      rfl
  have hfirst : Untouched d s s' :=
    ⟨hclient, fun ident => ⟨h.identities ident, fun hi =>
      h'.identities ident ((hend.identities ident).mpr hi)⟩, fun i sub => ⟨h.subscriptions i sub,
      fun hi => h'.subscriptions i sub ((hend.subscriptions i sub).mpr hi)⟩⟩
  refine ⟨hfirst, hend.client.trans hfirst.client.symm, fun ident => ?_, fun i sub => ?_⟩
  · rw [hend.identities, hfirst.identities]
  · rw [hend.subscriptions, hfirst.subscriptions]

end Dwindled

instance (P : ClientIdx → Prop) : Tolerates (UntouchedOn P) where
  refl s d _ := .refl d s
  trans _ _ _ h h' d hd := (h d hd).trans (h' d hd)
  tables s s' hclients hmap hsubs _ _ d _ := by
    apply Untouched.of_lookups
    · rw [hclients]
    · intro ident
      rw [hmap]
    · intro i sub
      rw [hsubs]
  retold s c client client' hc h d _ := by
    refine ⟨?_, fun _ => Iff.rfl, fun _ _ => Iff.rfl⟩
    simp only [KeyMap.lookup_insert]
    split_ifs with hd
    · rw [hd, hc, Option.map_some, Option.map_some, ConnectedClient.record, h.identity, h.killBool,
        h.publishers, h.subscribers]
      rfl
    · rfl

/-- A client may do with its own record what it likes. -/
theorem isolated_put (client : ConnectedClient) :
    Isolated c s { s with clients := s.clients.insert c client } := by
  intro d hd
  refine .of_lookups ?_ (fun _ => Iff.rfl) fun _ _ => Iff.rfl
  rw [KeyMap.lookup_insert, if_neg hd]

section Messages

/-- A disconnection takes one identity, and the client it leads to. -/
theorem ends_disconnectClient_tables {ident : ClientIdentity} :
    Ends (disconnectClient o ident) s fun _ s' =>
      (s.clientMap.lookup ident = none → s' = s) ∧
      ∀ c, s.clientMap.lookup ident = some c →
        UntouchedOn (fun _ => True) { s with
          clientMap := s.clientMap.erase ident
          clients := s.clients.erase c } s' := by
  simp only [disconnectClient, ends_bind, ends_get, thenEnds_ok, ends_okOr, thenEnds_error,
    ends_modify]
  refine ⟨fun c hident => ⟨fun client hc => ?_, fun hc => ?_⟩, fun hident => ?_⟩
  · rw [← ends_bind]
    refine ends_mono (within_released (R := UntouchedOn fun _ => True) _) ?_
    intro r s' h
    refine ⟨fun hnone => ?_, fun c' hc' => ?_⟩
    · rw [hident] at hnone
      cases hnone
    · rw [hident] at hc'
      cases hc'
      intro d hd
      exact ⟨(h d hd).client, (h d hd).identities, (h d hd).subscriptions⟩
  · refine ⟨fun hnone => ?_, fun c' hc' => ?_⟩
    · rw [hident] at hnone
      cases hnone
    · rw [hident] at hc'
      cases hc'
      intro d _
      refine .of_lookups ?_ (fun _ => Iff.rfl) fun _ _ => Iff.rfl
      simp only [KeyMap.lookup_erase]
      split_ifs with hd
      · rw [hd, hc]
      · rfl
  · refine ⟨fun _ => trivial, fun c hc => ?_⟩
    rw [hident] at hc
    cases hc

/-- A subscription gets as far as the tables: its client is there, and so are the lists of all
topics it cares about. -/
def Subscribable (s : InnerServer) (c : ClientIdx) (sub : Subscribe) : Prop :=
  c ∈ s.clients ∧ ∀ name t, s.topicMap.lookup name = some t →
    (⟨sub.subuid, sub.topics, sub.options⟩ : Subscription).caresAbout name = true →
    t ∈ s.topicSubMap

/-- What a loop over lists leaves. -/
structure ListsOnly (s s' : InnerServer) : Prop where
  clients : s'.clients = s.clients
  clientMap : s'.clientMap = s.clientMap
  subscriptions : s'.subscriptions = s.subscriptions
  lists : ∀ t, t ∈ s'.topicSubMap ↔ t ∈ s.topicSubMap

theorem ends_subscribeTopic_lists {i : SubIdx} {acc : List NTMessage × List ValueFrame}
    {e : String × TopicIdx} {u : InnerServer} (h : ListsOnly s u) :
    Ends (subscribeTopic i acc e) u fun r u' => ListsOnly s u' ∧
      match r with
      | .ok _ => e.2 ∈ s.topicSubMap
      | .error _ => e.2 ∉ s.topicSubMap := by
  simp only [subscribeTopic, ends_bind, ends_get, thenEnds_ok, ends_okOr, thenEnds_error,
    ends_modify]
  refine ⟨fun vectr hv => ?_, fun hnone => ⟨h, ?_⟩⟩
  · have hmem : e.2 ∈ u.topicSubMap := (KeyMap.mem_iff_lookup _ _).mpr ⟨vectr, hv⟩
    have hnext : ListsOnly s { u with topicSubMap := u.topicSubMap.insert e.2 (vectr ++ [i]) } := by
      refine ⟨h.clients, h.clientMap, h.subscriptions, fun t => ?_⟩
      rw [AList.mem_insert, ← h.lists t]
      exact or_iff_right_of_imp fun heq => heq ▸ hmem
    split
    · exact (ends_pure _).mpr ⟨hnext, (h.lists e.2).mp hmem⟩
    · exact (ends_pure _).mpr ⟨hnext, (h.lists e.2).mp hmem⟩
  · rw [← h.lists e.2, KeyMap.mem_iff_lookup, hnone]
    simp

/-- The tables of clients and subscriptions after a subscription. -/
theorem ends_subscribe_tables {sub : Subscribe} {now : Instant} :
    Ends (subscribe o sub c now) s fun _ s' =>
      (∀ d, d ≠ c → s'.clients.lookup d = s.clients.lookup d) ∧ s'.clientMap = s.clientMap ∧
      (Subscribable s c sub → s'.subscriptions = s.subscriptions.insert s.counters.subIdx
        (⟨sub.subuid, sub.topics, sub.options⟩, c)) ∧
      (¬Subscribable s c sub → s'.subscriptions = s.subscriptions) := by
  let s₁ : InnerServer := { s with counters := { s.counters with subIdx := s.counters.subIdx + 1 } }
  let subscription : Subscription := ⟨sub.subuid, sub.topics, sub.options⟩
  let interest := (o.walk s.topicMap).filter fun e => subscription.caresAbout e.1
  have hinterest : (∀ e ∈ interest, e.2 ∈ s.topicSubMap) ↔ ∀ name t,
      s.topicMap.lookup name = some t → subscription.caresAbout name = true →
      t ∈ s.topicSubMap := by
    constructor
    · intro h name t hmap hcares
      exact h (name, t) (List.mem_filter.mpr ⟨(o.mem_walk _ _ _).mpr hmap, hcares⟩)
    · intro h e he
      obtain ⟨hwalk, hcares⟩ := List.mem_filter.mp he
      exact h e.1 e.2 ((o.mem_walk _ _ _).mp hwalk) hcares
  simp only [subscribe, ends_bind, ends_get, thenEnds_ok, ends_okOr, thenEnds_error, ends_modify,
    Counter.nextSubIdx]
  refine ⟨fun client hc => ?_, fun hnone => ⟨fun _ _ => trivial, trivial, fun h => ?_,
    fun _ => trivial⟩⟩
  · have hmem : c ∈ s.clients := (KeyMap.mem_iff_lookup _ _).mpr ⟨client, hc⟩
    have hloop := ends_foldEach
      (fun rest _ u => ListsOnly s₁ u ∧ ∃ done, done ++ rest = interest ∧
        ∀ e ∈ done, e.2 ∈ s.topicSubMap)
      (fun _ u => ListsOnly s₁ u ∧ ∃ e ∈ interest, e.2 ∉ s.topicSubMap)
      (subscribeTopic s.counters.subIdx) (by
        intro e rest acc u hs
        obtain ⟨hu, done, happ, hdone⟩ := hs
        refine ends_mono (ends_subscribeTopic_lists hu) ?_
        intro r u' hs
        obtain ⟨hu', he⟩ := hs
        obtain err | acc' := r
        · exact ⟨hu', e, by rw [← happ]; simp, he⟩
        · refine ⟨hu', done ++ [e], by simpa using happ, fun f hf => ?_⟩
          rcases List.mem_append.mp hf with hf | hf
          · exact hdone f hf
          · rw [List.mem_singleton.mp hf]
            exact he)
      interest ([], []) s₁ ⟨⟨rfl, rfl, rfl, fun _ => Iff.rfl⟩, [], rfl, by simp⟩
    refine ends_mono hloop ?_
    intro r u hu
    obtain err | ⟨messages, frames⟩ := r
    · obtain ⟨hu, e, he, hmissing⟩ := hu
      refine ⟨fun d _ => by rw [hu.clients], hu.clientMap, fun h => ?_, fun _ => hu.subscriptions⟩
      exact (hmissing (hinterest.mpr h.2 e he)).elim
    · obtain ⟨hu, done, happ, hdone⟩ := hu
      rw [List.append_nil] at happ
      subst happ
      have hable : Subscribable s c sub := ⟨hmem, hinterest.mp hdone⟩
      simp only [thenEnds_ok, ends_bind, ends_modify, putClient]
      rw [← ends_bind]
      refine ends_sendBoth rfl ⟨fun d hd => ?_, hu.clientMap, fun _ => ?_, fun h => (h hable).elim⟩
      · simp only [KeyMap.lookup_insert, if_neg hd, hu.clients]
        rfl
      · simp only [hu.subscriptions]
        rfl
  · obtain ⟨client, hc⟩ := (KeyMap.mem_iff_lookup _ _).mp h.1
    rw [hnone] at hc
    cases hc

/-- The tables of clients and subscriptions after the end of a subscription. -/
theorem ends_unsubscribe_tables {unsub : Unsubscribe} :
    Ends (unsubscribe unsub c) s fun _ s' =>
      (∀ d, d ≠ c → s'.clients.lookup d = s.clients.lookup d) ∧ s'.clientMap = s.clientMap ∧
      (∀ client i, s.clients.lookup c = some client →
        client.subuidToSubidx.getByLeft unsub.subuid.toUInt32 = some i →
        s'.subscriptions = s.subscriptions.erase i) ∧
      ((∀ client, s.clients.lookup c = some client →
        client.subuidToSubidx.getByLeft unsub.subuid.toUInt32 = none) →
        s'.subscriptions = s.subscriptions) := by
  simp only [unsubscribe, ends_bind, ends_get, thenEnds_ok, ends_okOr, thenEnds_error,
    ends_modify, putClient]
  refine ⟨fun client hc => ⟨fun i hi => ?_, fun hnone => ?_⟩, fun hnone => ?_⟩
  · refine ⟨fun d hd => by rw [KeyMap.lookup_insert, if_neg hd], trivial, ?_, fun h => ?_⟩
    · intro client' i' hc' hi'
      rw [hc] at hc'
      cases hc'
      rw [hi] at hi'
      cases hi'
      rfl
    · have hnone := h client hc
      rw [hi] at hnone
      cases hnone
  · refine ⟨fun _ _ => trivial, trivial, ?_, fun _ => trivial⟩
    intro client' i hc' hi
    rw [hc] at hc'
    cases hc'
    rw [hnone] at hi
    cases hi
  · refine ⟨fun _ _ => trivial, trivial, ?_, fun _ => trivial⟩
    intro client i hc
    rw [hnone] at hc
    cases hc

/-- A message of client `c` that stays with the client: it closes no other client, and the index
that it takes or gives back belongs to no other client's subscription. -/
def Minds (s : InnerServer) (c : ClientIdx) : NTMessage → Prop
  | .close close => ∀ d, s.clientMap.lookup ⟨close.addr, close.name⟩ = some d → d = c
  | .subscribe sub => Subscribable s c sub →
      ∀ entry, s.subscriptions.lookup s.counters.subIdx = some entry → entry.2 = c
  | .unsubscribe unsub => ∀ client i, s.clients.lookup c = some client →
      client.subuidToSubidx.getByLeft unsub.subuid.toUInt32 = some i →
      ∀ entry, s.subscriptions.lookup i = some entry → entry.2 = c
  | _ => True

/-- What one message does to the other clients: they lose something at most, and nothing exactly if
the message stays with its client. -/
structure Confined (s : InnerServer) (c : ClientIdx) (m : NTMessage) (s' : InnerServer) : Prop where
  dwindled : ∀ d, d ≠ c → Dwindled d s s'
  isolated : Isolated c s s' ↔ Minds s c m

theorem confined_of_isolated {m : NTMessage} (hm : Minds s c m) (h : Isolated c s s') :
    Confined s c m s' :=
  ⟨fun d hd => (h d hd).dwindled, fun _ => hm, fun _ => h⟩

theorem confined_close {close : Close} :
    Ends (disconnectClient o ⟨close.addr, close.name⟩) s fun _ s' => Confined s c (.close close) s' := by
  refine ends_mono ends_disconnectClient_tables ?_
  intro r s' h
  obtain ⟨hnone, hsome⟩ := h
  cases hident : s.clientMap.lookup ⟨close.addr, close.name⟩ with
  | none =>
    rw [hnone hident]
    refine confined_of_isolated (fun d hd => ?_) fun d _ => .refl d s
    rw [hident] at hd
    cases hd
  | some k =>
    have hrest := hsome k hident
    have hstep : ∀ d, Dwindled d s { s with
        clientMap := s.clientMap.erase ⟨close.addr, close.name⟩
        clients := s.clients.erase k } := by
      intro d
      refine ⟨?_, fun ident hi => ?_, fun _ _ h => h⟩
      · simp only [KeyMap.lookup_erase]
        split_ifs
        · exact .inr rfl
        · exact .inl rfl
      · simp only [KeyMap.lookup_erase] at hi
        split_ifs at hi
        exact hi
    refine ⟨fun d _ => (hstep d).trans (hrest d trivial).dwindled, fun h d hd => ?_, fun h => ?_⟩
    -- the identity of another client would be missing afterwards
    · rw [hident] at hd
      cases hd
      by_contra hne
      have hgone := (hrest k trivial).identities ⟨close.addr, close.name⟩
      rw [(h k hne).identities ⟨close.addr, close.name⟩, hident] at hgone
      simp only [KeyMap.lookup_erase, if_true, true_iff] at hgone
      cases hgone
    · have hk : k = c := h k hident
      intro d hd
      refine Untouched.trans ?_ (hrest d trivial)
      refine .of_lookups ?_ (fun ident => ?_) fun _ _ => Iff.rfl
      · simp only [KeyMap.lookup_erase, hk, if_neg hd]
      · simp only [KeyMap.lookup_erase]
        split_ifs with heq
        · rw [heq, hident, hk]
          simp [Ne.symm hd]
        · rfl

theorem confined_subscribe {sub : Subscribe} {now : Instant} :
    Ends (subscribe o sub c now) s fun _ s' => Confined s c (.subscribe sub) s' := by
  refine ends_mono ends_subscribe_tables ?_
  intro r s' h
  obtain ⟨hclients, hmap, hable, hunable⟩ := h
  by_cases hsub : Subscribable s c sub
  · have hsubs := hable hsub
    have hlookup : ∀ d i sub₀, d ≠ c → (s'.subscriptions.lookup i = some (sub₀, d) ↔
        i ≠ s.counters.subIdx ∧ s.subscriptions.lookup i = some (sub₀, d)) := by
      intro d i sub₀ hd
      rw [hsubs, KeyMap.lookup_insert]
      split_ifs with hi
      · simp [hi, Ne.symm hd]
      · simp [hi]
    refine ⟨fun d hd => ⟨.inl (by rw [hclients d hd]), fun ident hi => by rwa [hmap] at hi,
      fun i sub₀ hi => ((hlookup d i sub₀ hd).mp hi).2⟩, fun h _ entry hentry => ?_, fun h => ?_⟩
    -- the entry of another client would be overwritten
    · by_contra hne
      have hkept := (h entry.2 hne).subscriptions s.counters.subIdx entry.1
      rw [hlookup entry.2 _ entry.1 hne] at hkept
      exact (hkept.mpr hentry).1 rfl
    · intro d hd
      refine .of_lookups (hclients d hd) (fun ident => by rw [hmap]) fun i sub₀ => ?_
      rw [hlookup d i sub₀ hd]
      refine and_iff_right_of_imp fun hi heq => hd ?_
      exact h hsub (sub₀, d) (heq ▸ hi)
  · refine confined_of_isolated (fun h => (hsub h).elim) fun d hd => ?_
    refine .of_lookups (hclients d hd) (fun ident => by rw [hmap]) fun i sub₀ => ?_
    rw [hunable hsub]

theorem confined_unsubscribe {unsub : Unsubscribe} :
    Ends (unsubscribe unsub c) s fun _ s' => Confined s c (.unsubscribe unsub) s' := by
  refine ends_mono ends_unsubscribe_tables ?_
  intro r s' h
  obtain ⟨hclients, hmap, herased, hkept⟩ := h
  by_cases hnone : ∀ client, s.clients.lookup c = some client →
      client.subuidToSubidx.getByLeft unsub.subuid.toUInt32 = none
  · refine confined_of_isolated (fun client i hc hi => ?_) fun d hd => ?_
    · rw [hnone client hc] at hi
      cases hi
    · refine .of_lookups (hclients d hd) (fun ident => by rw [hmap]) fun i sub₀ => ?_
      rw [hkept hnone]
  · push Not at hnone
    obtain ⟨client, hc, hsome⟩ := hnone
    obtain ⟨k, hk⟩ := Option.ne_none_iff_exists'.mp hsome
    have hlookup : ∀ i entry, s'.subscriptions.lookup i = some entry ↔
        i ≠ k ∧ s.subscriptions.lookup i = some entry := by
      intro i entry
      rw [herased client k hc hk, KeyMap.lookup_erase]
      split_ifs with hi <;> simp [hi]
    refine ⟨fun d hd => ⟨.inl (by rw [hclients d hd]), fun ident hi => by rwa [hmap] at hi,
      fun i sub₀ hi => ((hlookup i _).mp hi).2⟩, fun h client' i hc' hi entry hentry => ?_,
      fun h d hd => ?_⟩
    · rw [hc] at hc'
      cases hc'
      rw [hk] at hi
      cases hi
      by_contra hne
      have hkept := (h entry.2 hne).subscriptions k entry.1
      rw [hlookup] at hkept
      exact (hkept.mpr hentry).1 rfl
    · refine .of_lookups (hclients d hd) (fun ident => by rw [hmap]) fun i sub₀ => ?_
      rw [hlookup]
      refine and_iff_right_of_imp fun hi heq => hd ?_
      exact h client k hc hk (sub₀, d) (heq ▸ hi)

theorem confined_parse {m : NTMessage} {now : Instant} :
    Ends (parseNtMessage o c now m) s fun _ s' => Confined s c m s' := by
  have hquiet : ∀ {x : ServerM Unit}, Minds s c m → Within (Isolated c) x →
      Ends x s fun _ s' => Confined s c m s' :=
    fun hm hx => ends_mono (hx s) fun _ _ h => confined_of_isolated hm h
  cases m with
  | publish pubTopic =>
    exact hquiet trivial (within_attempt (within_innerPublishTopic fun _ _ _ _ => isolated_put _))
  | unpublish pubTopic =>
    exact hquiet trivial (within_attempt (within_innerUnpublishTopic fun _ _ _ => isolated_put _))
  | setProperties setProps => exact hquiet trivial (within_attempt within_setProperties)
  | subscribe sub => exact (ends_attempt _).mpr confined_subscribe
  | unsubscribe unsub => exact (ends_attempt _).mpr confined_unsubscribe
  | close close => exact (ends_attempt _).mpr confined_close
  | _ => exact hquiet trivial (within_pure ())

end Messages

section Total

variable {t : TopicIdx}

theorem total_sendOn {m : OutMessage} : Total (sendOn c m) := by
  apply total_bind total_get
  intro s
  cases s.clients.lookup c with
  | none => exact total_pure ()
  | some client =>
    dsimp only
    cases client.subOuput with
    | none => exact total_pure ()
    | some ch => exact total_bind (total_okOr _ _) fun _ => total_modify _

theorem total_markAnnounced : Total (markAnnounced c t) := by
  apply total_bind total_get
  intro s
  cases s.clients.lookup c with
  | none => exact total_pure ()
  | some client => exact total_modify _

theorem total_announceSubscriber {announceMsg : Announce} :
    Total (announceSubscriber t announceMsg c) := by
  apply total_bind total_get
  intro s
  cases s.clients.lookup c with
  | none => exact total_pure ()
  | some client => exact total_bind total_markAnnounced fun _ => total_sendOn

theorem total_announceResponse {announceMsg : Announce} {pubuid : PubUID} :
    Total (announceResponse t announceMsg pubuid c) := by
  apply total_bind total_get
  intro s
  cases s.clients.lookup c with
  | none => exact fun s => returns_throw _
  | some client =>
    dsimp only
    split_ifs
    · exact total_pure ()
    · exact total_bind total_sendOn fun _ => total_markAnnounced

theorem total_announceTopic {responseOpt : Option (PubUID × ClientIdx)} :
    Total (announceTopic o t responseOpt) := by
  apply total_bind total_get
  intro s
  apply total_bind (total_okOr _ _)
  intro topic
  have hloop : Total ((get : ServerM InnerServer) >>= fun s =>
      forEach (o.arrange (clientsToNotify s topic.name))
        (announceSubscriber t (announceOf t topic))) :=
    total_bind total_get fun _ => total_forEach (fun _ => total_announceSubscriber) _
  cases responseOpt with
  | none => exact hloop
  | some response => exact total_bind total_announceResponse fun _ => hloop

theorem total_insertTopic {topic : Topic} : Total (insertTopic topic) := by
  apply total_bind total_get
  intro s
  apply total_bind (total_modify _)
  intro _
  apply total_bind (total_modify _)
  intro _
  apply total_bind (total_modify _)
  intro _
  apply total_bind (total_modify _)
  intro _
  exact total_bind (total_modify _) fun _ => total_pure _

theorem total_addTopic {topic : Topic} : Total (addTopic o topic) := by
  have hmeta : ∀ topic, Total (addMetaTopic topic) := by
    intro topic
    apply total_bind total_get
    intro s
    cases s.topicMap.lookup topic.name with
    | none => exact total_insertTopic
    | some t => exact total_pure t
  apply total_bind total_get
  intro s
  cases s.topicMap.lookup topic.name with
  | some t => exact total_pure t
  | none =>
    apply total_bind total_insertTopic
    intro t
    split_ifs
    · exact total_pure t
    · apply total_bind (hmeta _)
      intro p
      apply total_bind total_announceTopic
      intro _
      apply total_bind (hmeta _)
      intro q
      exact total_bind total_announceTopic fun _ => total_pure t

theorem total_connectClient : Total (connectClient o identity) := by
  apply total_bind total_get
  intro s
  split_ifs
  · exact fun s => returns_throw _
  · apply total_bind total_get
    intro s
    apply total_bind total_get
    intro s
    apply total_bind (total_modify _)
    intro _
    apply total_bind (total_modify _)
    intro _
    apply total_bind (total_modify _)
    intro _
    apply total_bind (total_modify _)
    intro _
    apply total_bind total_addTopic
    intro p
    apply total_bind total_addTopic
    intro q
    exact total_bind (total_modify _) fun _ => total_pure _

theorem total_updatePublishers {f : MetaTopicValue → MetaTopicValue → MetaTopicValue}
    {pubMte : ClientPublisherMTE} : Total (updatePublishers c f pubMte) := by
  unfold updatePublishers
  split_ifs
  · exact total_modify _
  · exact total_bind total_get fun _ => total_bind (total_okOr _ _) fun _ => total_modify _

theorem total_innerPublishTopic {pubTopic : PublishTopic} :
    Total (innerPublishTopic o pubTopic c) := by
  apply total_bind total_addTopic
  intro t
  apply total_bind total_announceTopic
  intro _
  apply total_bind total_get
  intro s
  apply total_bind (total_okOr _ _)
  intro client
  apply total_bind (total_modify _)
  intro _
  exact total_bind total_updatePublishers fun _ => total_pure t

theorem total_innerUnpublishTopic {pubTopic : UnpublishTopic} :
    Total (innerUnpublishTopic pubTopic c) := by
  apply total_bind total_get
  intro s
  apply total_bind (total_okOr _ _)
  intro client
  apply total_bind (total_okOr _ _)
  intro t
  apply total_bind (total_modify _)
  intro _
  apply total_bind total_get
  intro s
  apply total_bind total_get
  intro s'
  apply total_bind (total_okOr _ _)
  intro count
  apply total_bind (total_modify _)
  intro _
  split_ifs
  · apply total_bind total_removeTopic
    intro _
    exact total_bind (total_modify _) fun _ => total_updatePublishers
  · exact total_updatePublishers

theorem total_setProperties {msg : SetProperties} : Total (setProperties msg) := by
  apply total_bind total_get
  intro s
  apply total_bind (total_okOr _ _)
  intro t
  apply total_bind total_get
  intro s
  exact total_bind (total_okOr _ _) fun _ => total_modify _

theorem total_subscribeTopic {i : SubIdx} {acc : List NTMessage × List ValueFrame}
    {e : String × TopicIdx} : Total (subscribeTopic i acc e) := by
  apply total_bind total_get
  intro s
  apply total_bind (total_okOr _ _)
  intro vectr
  apply total_bind (total_modify _)
  intro _
  split
  · exact total_pure _
  · exact total_pure _

theorem total_subscribe {sub : Subscribe} {now : Instant} : Total (subscribe o sub c now) := by
  apply total_bind total_get
  intro s
  apply total_bind (total_okOr _ _)
  intro client
  apply total_bind total_get
  intro s
  apply total_bind total_get
  intro s'
  apply total_bind (total_modify _)
  intro _
  apply total_bind (total_foldEach (fun _ _ => total_subscribeTopic) _ _)
  intro acc
  apply total_bind (total_modify _)
  intro _
  apply total_bind (total_modify _)
  intro _
  apply total_bind (total_modify _)
  intro _
  apply total_bind (total_modify _)
  intro _
  exact total_bind total_sendOn fun _ => total_sendOn

theorem total_unsubscribe {unsub : Unsubscribe} : Total (unsubscribe unsub c) := by
  apply total_bind total_get
  intro s
  apply total_bind (total_okOr _ _)
  intro client
  apply total_bind (total_okOr _ _)
  intro i
  apply total_bind (total_modify _)
  intro _
  apply total_bind (total_modify _)
  intro _
  apply total_bind (total_modify _)
  intro _
  exact total_bind (total_modify _) fun _ => total_modify _

/-- No message of a text makes the parser panic. -/
theorem total_parseNtMessage (m : NTMessage) (now : Instant) : Total (parseNtMessage o c now m) := by
  intro s
  cases m with
  | publish => exact (returns_attempt _).mpr (total_innerPublishTopic s)
  | unpublish => exact (returns_attempt _).mpr (total_innerUnpublishTopic s)
  | setProperties => exact (returns_attempt _).mpr (total_setProperties s)
  | subscribe => exact (returns_attempt _).mpr (total_subscribe s)
  | unsubscribe => exact (returns_attempt _).mpr (total_unsubscribe s)
  | close => exact (returns_attempt _).mpr (total_disconnectClient s)
  | _ => exact returns_pure ()

end Total

section Texts

variable {json : SerdeJson} {dec : RmpDecode} {tryFrom : Value → Option FrcValue}
  {clock : Nat → Instant}
  {r : Except NetworkTablesError Unit}

/-- Every message of a list stays with client `c`, in the state in which its turn comes. -/
def AllMind (o : IterOrder) (clock : Nat → Instant) (c : ClientIdx) :
    List (NTMessage × Nat) → InnerServer → Prop
  | [], _ => True
  | e :: l, s => Minds s c e.1 ∧ ∀ r s',
      (parseNtMessage o c (clock e.2) e.1).exec s = .ok (r, s') → AllMind o clock c l s'

theorem dwindled_parseAll (l : List (NTMessage × Nat)) (s : InnerServer) (hd : d ≠ c) :
    Ends (forEach l fun e => parseNtMessage o c (clock e.2) e.1) s fun _ s' => Dwindled d s s' := by
  induction l generalizing s with
  | nil => exact (ends_pure ()).mpr (Untouched.refl d s).dwindled
  | cons e l ih =>
    refine (ends_bind _ _).mpr (ends_mono confined_parse ?_)
    intro r s₁ h
    obtain err | a := r
    · exact h.dwindled d hd
    · exact ends_mono (ih s₁) fun _ _ h' => (h.dwindled d hd).trans h'

/-- The parser logs the errors of the operations and goes on. -/
theorem ends_parse_ok (m : NTMessage) (now : Instant) (s : InnerServer) :
    Ends (parseNtMessage o c now m) s fun r _ => r = .ok () := by
  cases m <;> first | exact (ends_attempt _).mpr fun _ _ _ => rfl | exact (ends_pure ()).mpr rfl

theorem isolated_parseAll (l : List (NTMessage × Nat)) (s : InnerServer) :
    Ends (forEach l fun e => parseNtMessage o c (clock e.2) e.1) s fun _ s' =>
      (Isolated c s s' ↔ AllMind o clock c l s) := by
  induction l generalizing s with
  | nil => exact (ends_pure ()).mpr ⟨fun _ => trivial, fun _ d _ => .refl d s⟩
  | cons e l ih =>
    intro r s' hx
    rw [forEach, exec_bind] at hx
    rcases hfirst : (parseNtMessage o c (clock e.2) e.1).exec s with p | ⟨r₁, s₁⟩
    · rw [hfirst] at hx
      cases hx
    · obtain rfl := ends_of_exec (ends_parse_ok e.1 (clock e.2) s) hfirst
      rw [hfirst] at hx
      have hconf := ends_of_exec confined_parse hfirst
      have hrest := ends_of_exec (ih s₁) hx
      have hdwindled : ∀ d, d ≠ c → Dwindled d s₁ s' :=
        fun d hd => ends_of_exec (dwindled_parseAll l s₁ hd) hx
      constructor
      · intro h
        have hboth := fun d hd =>
          (hconf.dwindled d hd).untouched_of_trans (hdwindled d hd) (h d hd)
        refine ⟨hconf.isolated.mp fun d hd => (hboth d hd).1, fun r₂ s₂ hagain => ?_⟩
        rw [hfirst] at hagain
        cases hagain
        exact hrest.mp fun d hd => (hboth d hd).2
      · intro hs d hd
        obtain ⟨hminds, hall⟩ := hs
        exact (hconf.isolated.mpr hminds d hd).trans (hrest.mpr (hall _ _ hfirst) d hd)

/-- The loop over the messages comes to an end. -/
theorem exec_parseAll (o : IterOrder) (clock : Nat → Instant) (c : ClientIdx)
    (l : List (NTMessage × Nat)) (s : InnerServer) :
    ∃ s', (forEach l fun e => parseNtMessage o c (clock e.2) e.1).exec s = .ok (.ok (), s') ∧
      (Isolated c s s' ↔ AllMind o clock c l s) := by
  have htotal : Total (forEach l fun e => parseNtMessage o c (clock e.2) e.1) :=
    total_forEach (fun _ => total_parseNtMessage _ _) _
  have hok : Ends (forEach l fun e => parseNtMessage o c (clock e.2) e.1) s
      fun r _ => r = .ok () := ends_forEach_ok (fun _ s => ends_parse_ok _ _ s) _ s
  obtain ⟨r, s', hx, rfl, hiff⟩ := htotal.ends (ends_and hok (isolated_parseAll l s))
  exact ⟨s', hx, hiff⟩

/-- Processing a text of client `c` comes to an end, and leaves all other clients alone exactly if
each of its messages stays with the client. -/
theorem isolated_iff {text : String} {msgs : List NTMessage} (hmsgs : json.fromStr text = some msgs)
    (o : IterOrder) (dec : RmpDecode) (tryFrom : Value → Option FrcValue) (clock : Nat → Instant)
    (s : InnerServer) (c : ClientIdx) :
    ∃ s', (messageParser o json dec tryFrom clock ⟨c, .text text⟩).exec s = .ok (.ok (), s') ∧
      (Isolated c s s' ↔ AllMind o clock c msgs.zipIdx s) := by
  obtain ⟨s', hx, hiff⟩ := exec_parseAll o clock c msgs.zipIdx s
  refine ⟨s', ?_, hiff⟩
  simp only [messageParser, hmsgs]
  exact hx

/-- The text of a list with one close message. -/
def closeText (ident : ClientIdentity) : String := "[" ++ jsonClose.toStringOne ident.asClose ++ "]"

/-- A decoder that knows that text. -/
def jsonCloseOf (ident : ClientIdentity) : SerdeJson where
  toStringOne := jsonClose.toStringOne
  toStringList := jsonClose.toStringList
  fromStr text := if text = closeText ident then some [.close ⟨ident.addr, ident.name⟩] else none

theorem fromStr_closeText (ident : ClientIdentity) :
    (jsonCloseOf ident).fromStr (closeText ident) = some [.close ⟨ident.addr, ident.name⟩] :=
  if_pos rfl

/-- Two clients connect. -/
def connectTwo : List Op :=
  [.connectClient ⟨.v4 10 0 0 2 5810, "a"⟩, .connectClient ⟨.v4 10 0 0 3 5810, "b"⟩]

/-- The first of them closes itself, and the second is left alone. -/
theorem isolated_iff_close_own : ∃ s, stateAfter anyOp .stored connectTwo = some s ∧
    s.clientMap.lookup ⟨.v4 10 0 0 2 5810, "a"⟩ = some 1 ∧ (s.clients.lookup 2).isSome ∧
    ∃ s', (messageParser .stored (jsonCloseOf ⟨.v4 10 0 0 2 5810, "a"⟩) decNothing
        (some ⟨.void, ·⟩) (fun _ => 0) ⟨1, .text (closeText ⟨.v4 10 0 0 2 5810, "a"⟩)⟩).exec s =
          .ok (.ok (), s') ∧
      (Isolated 1 s s' ↔ AllMind .stored (fun _ => 0) 1
        [(.close ⟨.v4 10 0 0 2 5810, "a"⟩, 0)] s) ∧ Isolated 1 s s' := by
  have hrun : (stateAfter anyOp .stored connectTwo).map (fun s =>
      (s.clientMap.lookup ⟨.v4 10 0 0 2 5810, "a"⟩, (s.clients.lookup 2).isSome)) =
      some (some 1, true) := by decide +kernel
  obtain ⟨s, hs, hview⟩ := Option.map_eq_some_iff.mp hrun
  obtain ⟨hident, hother⟩ := Prod.mk.inj hview
  obtain ⟨s', hx, hiff⟩ := isolated_iff (fromStr_closeText ⟨.v4 10 0 0 2 5810, "a"⟩) .stored
    decNothing (some ⟨.void, ·⟩) (fun _ => 0) s 1
  refine ⟨s, hs, hident, hother, s', hx, hiff, hiff.mpr ⟨fun d hd => ?_, fun _ _ _ => trivial⟩⟩
  rw [hident] at hd
  exact (Option.some.inj hd).symm

/-- What the parser does with a text that closes `ident`. -/
theorem parse_closeText (o : IterOrder) (clock : Nat → Instant) (c : ClientIdx)
    (ident : ClientIdentity) (s : InnerServer) :
    ∃ s', (messageParser o (jsonCloseOf ident) decNothing (some ⟨.void, ·⟩) clock
        ⟨c, .text (closeText ident)⟩).exec s = .ok (.ok (), s') ∧
      (Isolated c s s' → Minds s c (.close ⟨ident.addr, ident.name⟩)) := by
  obtain ⟨s', hx, hiff⟩ := exec_parseAll o clock c [(.close ⟨ident.addr, ident.name⟩, 0)] s
  refine ⟨s', ?_, fun h => (hiff.mp h).1⟩
  simp only [messageParser, fromStr_closeText]
  exact hx

/-- The first of them sends a close message with the identity of the second, which is then
disconnected. -/
theorem close_reaches_other_client :
    ¬∀ json : SerdeJson, ∀ s, Reachable s → ∀ c text msgs, json.fromStr text = some msgs →
      ∀ o dec tryFrom clock r s',
        (messageParser o json dec tryFrom clock ⟨c, .text text⟩).exec s = .ok (r, s') →
        Isolated c s s' := by
  intro h
  have hrun : (stateAfter anyOp .stored connectTwo).map (fun s =>
      s.clientMap.lookup ⟨.v4 10 0 0 3 5810, "b"⟩) = some (some 2) := by decide +kernel
  obtain ⟨s, hs, hident⟩ := Option.map_eq_some_iff.mp hrun
  obtain ⟨s', hx, hminds⟩ := parse_closeText .stored (fun _ => 0) 1 ⟨.v4 10 0 0 3 5810, "b"⟩ s
  have hisolated := h _ s (reachable_stateAfter hs) 1 _ _ (fromStr_closeText _) .stored decNothing
    (some ⟨.void, ·⟩) (fun _ => 0) _ s' hx
  exact absurd (hminds hisolated 2 hident) (by decide)

end Texts

section Bounded

variable {u : Kind → Nat} {json : SerdeJson} {clock : Nat → Instant} {e : Option Event}

/-- What a client's own table leads to is the client's own. -/
def OwnSubs (s : InnerServer) : Prop :=
  ∀ c client subuid i entry, s.clients.lookup c = some client →
    client.subuidToSubidx.getByLeft subuid = some i → s.subscriptions.lookup i = some entry →
    entry.2 = c

theorem OwnSubs.update (h : OwnSubs s) {client client' : ConnectedClient}
    (hc : s.clients.lookup c = some client) (hclients : s'.clients = s.clients.insert c client')
    (htable : ∀ subuid i, client'.subuidToSubidx.getByLeft subuid = some i →
      client.subuidToSubidx.getByLeft subuid = some i)
    (hsubs : ∀ i entry, s'.subscriptions.lookup i = some entry →
      s.subscriptions.lookup i = some entry) : OwnSubs s' := by
  intro d client₀ subuid i entry hd hi hentry
  rw [hclients, KeyMap.lookup_insert] at hd
  split_ifs at hd with heq
  · cases hd
    rw [heq]
    exact h c client subuid i entry hc (htable subuid i hi) (hsubs i entry hentry)
  · exact h d client₀ subuid i entry hd hi (hsubs i entry hentry)

theorem OwnSubs.step (h : OwnSubs s) (hk : Known s) (he : Effect s e s') : OwnSubs s' := by
  cases he with
  | clientConnected identity =>
    intro d client₀ subuid i entry hd hi hentry
    simp only [KeyMap.lookup_insert] at hd
    split_ifs at hd
    · cases hd
      cases hi
    · exact h d client₀ subuid i entry hd hi hentry
  | clientLeft =>
    intro d client₀ subuid i entry hd hi hentry
    simp only [InnerServer.withoutClient, KeyMap.lookup_erase] at hd
    split_ifs at hd
    exact h d client₀ subuid i entry hd hi hentry
  | @subscribed c client sub now stored interest messages frames hc =>
    -- an older index is not the new one, and keeps its entry
    have hold : ∀ d client₀ subuid i entry, s.clients.lookup d = some client₀ →
        client₀.subuidToSubidx.getByLeft subuid = some i →
        (s.subscriptions.insert s.counters.subIdx (sub, c)).lookup i = some entry →
        entry.2 = d := by
      intro d client₀ subuid i entry hd hi hentry
      have hlt := hk d client₀ subuid i hd hi
      have hne : i ≠ s.counters.subIdx := fun heq => by rw [heq] at hlt; omega
      rw [KeyMap.lookup_insert, if_neg hne] at hentry
      exact h d client₀ subuid i entry hd hi hentry
    intro d client₀ subuid i entry hd hi hentry
    simp only [KeyMap.lookup_insert] at hd
    split_ifs at hd with heq
    · cases hd
      rw [heq]
      rw [PrimBiMap.getByLeft_insert] at hi
      split_ifs at hi
      · cases hi
        rw [KeyMap.lookup_insert, if_pos rfl] at hentry
        cases hentry
        rfl
      · exact hold c client subuid i entry hc hi hentry
    · exact hold d client₀ subuid i entry hd hi hentry
  | unsubscribed subuid hc =>
    refine h.update hc rfl (fun subuid' i hi => ?_) fun i entry hentry => ?_
    · rw [PrimBiMap.getByLeft_removeByLeft] at hi
      split_ifs at hi
      exact hi
    · rw [KeyMap.lookup_erase] at hentry
      split_ifs at hentry
      exact hentry
  | registered _ hc | unregistered _ hc | marked _ hc | told _ hc | flushed hc | closed hc
  | batchesSent _ _ hc => exact h.update hc rfl (fun _ _ hi => hi) fun _ _ hentry => hentry
  | _ => exact h

theorem RunWhere.ownSubs {guard : InnerServer → Op → Prop} (run : RunWhere guard u s)
    (hu : u .sub < 2 ^ 32) : OwnSubs s := by
  have hboth : Known s ∧ OwnSubs s := by
    refine run.induct (· = .sub) (fun s => Known s ∧ OwnSubs s) (fun k hk => hk ▸ hu) ?_ ?_
    · intro es s hes _ hroom
      refine hes.invariant_of_room (fun s => Known s ∧ OwnSubs s) (fun _ => True)
        (fun _ _ => trivial) hroom (fun _ _ _ he _ hr h => ⟨h.1.step he hr, h.2.step h.1 he⟩) ?_
      constructor
      · intro c client subuid i hc hi
        simp only [booted, KeyMap.lookup_insert] at hc
        split_ifs at hc
        · cases hc
          cases hi
        · cases hc
      · intro c client subuid i entry hc hi hentry
        cases hentry
    · intro s op es s' hes _ hroom _ _ h
      exact hes.invariant_of_room (fun s => Known s ∧ OwnSubs s) (fun _ => True)
        (fun _ _ => trivial) hroom (fun _ _ _ he _ hr h => ⟨h.1.step he hr, h.2.step h.1 he⟩) h
  exact hboth.2

/-- A message is one operation, or none. -/
theorem runs_parse {m : NTMessage} {now : Instant} {r : Except NetworkTablesError Unit}
    (run : Runs u s) (hx : (parseNtMessage o c now m).exec s = .ok (r, s')) :
    ∃ u', Runs u' s' ∧ ∀ k, u' k ≤ u k + 3 := by
  have hstep : ∀ (op : Op) r, (op.perform o).exec s = .ok (r, s') →
      ∃ u', Runs u' s' ∧ ∀ k, u' k ≤ u k + 3 := by
    intro op r hx
    have hop : Step s op s' := ⟨o, r, hx⟩
    obtain ⟨es, hes, -, hn⟩ := hop.does
    refine ⟨u + created s s', .step run trivial hop, fun k => ?_⟩
    have hle := hn k
    rw [Pi.add_apply, created_of_effects hes k hle]
    omega
  have hattempt : ∀ {α : Type} {x : ServerM α}, (attempt x).exec s = .ok (r, s') →
      ∃ r', x.exec s = .ok (r', s') := by
    intro α x hx
    rw [exec_attempt] at hx
    split at hx
    next r' t hx' =>
      cases hx
      exact ⟨r', hx'⟩
    · cases hx
  have hignored : ∀ {α : Type} {x : ServerM α} {r'}, x.exec s = .ok (r', s') →
      ∃ r'', (ignoring x).exec s = .ok (r'', s') := by
    intro α x r' hx
    simp only [ignoring, exec_bind, hx]
    cases r' with
    | error e => exact ⟨_, rfl⟩
    | ok a => exact ⟨_, rfl⟩
  cases m with
  | publish pubTopic =>
    obtain ⟨r', hx⟩ := hattempt hx
    obtain ⟨r'', hx⟩ := hignored hx
    exact hstep (.innerPublishTopic pubTopic c) r'' hx
  | unpublish pubTopic =>
    obtain ⟨r', hx⟩ := hattempt hx
    exact hstep (.innerUnpublishTopic pubTopic c) r' hx
  | setProperties msg =>
    obtain ⟨r', hx⟩ := hattempt hx
    exact hstep (.setProperties msg) r' hx
  | subscribe sub =>
    obtain ⟨r', hx⟩ := hattempt hx
    exact hstep (.subscribe sub c now) r' hx
  | unsubscribe unsub =>
    obtain ⟨r', hx⟩ := hattempt hx
    exact hstep (.unsubscribe unsub c) r' hx
  | close close =>
    obtain ⟨r', hx⟩ := hattempt hx
    exact hstep (.disconnectClient ⟨close.addr, close.name⟩) r' hx
  | _ =>
    cases hx
    exact ⟨u, run, fun k => by omega⟩

/-- No close message of the list names an identity that leads to another client. -/
def ClosesOwn (s : InnerServer) (c : ClientIdx) (msgs : List NTMessage) : Prop :=
  ∀ close, .close close ∈ msgs → ∀ d, s.clientMap.lookup ⟨close.addr, close.name⟩ = some d → d = c

theorem allMind_iff_closesOwn (l : List (NTMessage × Nat)) (run : Runs u s)
    (htopic : u .topic + 3 * l.length < 2 ^ 32) (hsub : u .sub + 3 * l.length < 2 ^ 32) :
    AllMind o clock c l s ↔ ClosesOwn s c (l.map Prod.fst) := by
  induction l generalizing u s with
  | nil =>
    refine ⟨fun _ close hclose => ?_, fun _ => trivial⟩
    cases hclose
  | cons e l ih =>
    rw [List.length_cons] at htopic hsub
    obtain ⟨r, s₁, hx⟩ := total_parseNtMessage (o := o) (c := c) e.1 (clock e.2) s
    have hconf := ends_of_exec confined_parse hx
    obtain ⟨u₁, run₁, hu₁⟩ := runs_parse run hx
    have htopic₁ := hu₁ .topic
    have hsub₁ := hu₁ .sub
    have hih := ih run₁ (by omega) (by omega)
    have hrest : AllMind o clock c (e :: l) s ↔ Minds s c e.1 ∧ AllMind o clock c l s₁ := by
      refine and_congr Iff.rfl ⟨fun h => h r s₁ hx, fun h r' s' hx' => ?_⟩
      rw [hx] at hx'
      cases hx'
      exact h
    rw [hrest, hih]
    constructor
    · intro hu close hmem d hd
      obtain ⟨hminds, hclose⟩ := hu
      by_contra hne
      rcases List.mem_cons.mp hmem with heq | hmem
      · rw [← heq] at hminds
        exact hne (hminds d hd)
      · exact hne (hclose close hmem d
          (((hconf.isolated.mpr hminds d hne).identities _).mpr hd))
    · intro h
      refine ⟨?_, fun close hmem d hd => ?_⟩
      · obtain ⟨hn, hs⟩ := run.stored (by omega) (by omega)
        have hown : OwnSubs s := run.ownSubs (by omega)
        cases hm : e.1 with
        | close close =>
          intro d hd
          exact h close (List.mem_cons.mpr (.inl hm.symm)) d hd
        | subscribe sub =>
          intro _ entry hentry
          have hlt := hs.lt _ ((KeyMap.mem_iff_lookup _ _).mpr ⟨entry, hentry⟩)
          omega
        | unsubscribe unsub => exact fun client i hc hi entry => hown c client _ i entry hc hi
        | _ => trivial
      · by_contra hne
        have hd := (hconf.dwindled d hne).identities _ hd
        exact hne (h close (List.mem_cons_of_mem _ hmem) d hd)

/-- Where no index of a topic or subscription is given twice, only a close message can reach another
client. -/
theorem isolated_iff_of_runs {text : String} {msgs : List NTMessage}
    (hmsgs : json.fromStr text = some msgs) (run : Runs u s)
    (htopic : u .topic + 3 * msgs.length < 2 ^ 32) (hsub : u .sub + 3 * msgs.length < 2 ^ 32)
    (o : IterOrder) (dec : RmpDecode) (tryFrom : Value → Option FrcValue) (clock : Nat → Instant)
    (c : ClientIdx) :
    ∃ s', (messageParser o json dec tryFrom clock ⟨c, .text text⟩).exec s = .ok (.ok (), s') ∧
      (Isolated c s s' ↔ ClosesOwn s c msgs) := by
  obtain ⟨s', hx, hiff⟩ := exec_parseAll o clock c msgs.zipIdx s
  have hstatic : AllMind o clock c msgs.zipIdx s ↔ ClosesOwn s c (msgs.zipIdx.map Prod.fst) :=
    allMind_iff_closesOwn msgs.zipIdx run (by rwa [List.length_zipIdx])
      (by rwa [List.length_zipIdx])
  refine ⟨s', ?_, ?_⟩
  · simp only [messageParser, hmsgs]
    exact hx
  · rw [hiff, hstatic, List.zipIdx_map_fst]

end Bounded

end NetTables.Server
