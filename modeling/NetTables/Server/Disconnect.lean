import NetTables.Server.Clients
import NetTables.Server.Tables

namespace NetTables.Server

open Lib Lib.Fallible Spec

/-- The two maps that `remove_topic` decides on. -/
structure TopicTables where
  topics : KeyMap TopicIdx Topic
  topicMap : KeyMap String TopicIdx

def InnerServer.tables (s : InnerServer) : TopicTables := ⟨s.topics, s.topicMap⟩

namespace TopicTables

variable {m m' : TopicTables} {t u v : TopicIdx} {l l' : List TopicIdx}

/-- The maps after a successful `remove_topic`. -/
def remove (m : TopicTables) (t : TopicIdx) : Option TopicTables :=
  match m.topics.lookup t with
  | none => none
  | some topic =>
    match m.topicMap.lookup (metaPubName topic.name), m.topicMap.lookup (metaSubName topic.name) with
    | some p, some q => some
        { topics := ((m.topics.erase t).erase p).erase q
          topicMap := ((m.topicMap.erase (metaPubName topic.name)).erase
            (metaSubName topic.name)).erase topic.name }
    | _, _ => none

def removeAll : List TopicIdx → TopicTables → Option TopicTables
  | [], m => some m
  | t :: l, m => (m.remove t).bind (removeAll l)

theorem removeAll_append (l l' : List TopicIdx) (m : TopicTables) :
    removeAll (l ++ l') m = (removeAll l m).bind (removeAll l') := by
  induction l generalizing m with
  | nil => rfl
  | cons t l ih =>
    simp only [List.cons_append, removeAll]
    cases m.remove t with
    | none => rfl
    | some m => exact ih m

/-- The topic is there, and so are both of its metatopics. -/
def Removable (m : TopicTables) (t : TopicIdx) : Prop :=
  ∃ topic p q, m.topics.lookup t = some topic ∧
    m.topicMap.lookup (metaPubName topic.name) = some p ∧
    m.topicMap.lookup (metaSubName topic.name) = some q

/-- The removal of `t` leaves `u` and its metatopics. -/
def Spares (m : TopicTables) (t u : TopicIdx) : Prop :=
  u ≠ t ∧ ∀ topic topicᵤ, m.topics.lookup t = some topic → m.topics.lookup u = some topicᵤ →
    topicᵤ.name ≠ topic.name ∧ topic.name ≠ metaPubName topicᵤ.name ∧
    topic.name ≠ metaSubName topicᵤ.name ∧
    m.topicMap.lookup (metaPubName topic.name) ≠ some u ∧
    m.topicMap.lookup (metaSubName topic.name) ≠ some u

theorem remove_eq_none : m.remove t = none ↔ ¬m.Removable t := by
  unfold remove Removable
  cases ht : m.topics.lookup t with
  | none => simp
  | some topic =>
    cases hp : m.topicMap.lookup (metaPubName topic.name) <;>
      cases hq : m.topicMap.lookup (metaSubName topic.name) <;> simp [hp, hq]

theorem removable_of_remove (hm : m.remove t = some m') : m.Removable t := by
  by_contra hnot
  rw [remove_eq_none.mpr hnot] at hm
  cases hm

/-- What a removal leaves of the two maps. -/
theorem lookup_remove {topic : Topic} {p q : TopicIdx} (ht : m.topics.lookup t = some topic)
    (hp : m.topicMap.lookup (metaPubName topic.name) = some p)
    (hq : m.topicMap.lookup (metaSubName topic.name) = some q) (hm : m.remove t = some m') :
    (∀ u topic', m'.topics.lookup u = some topic' ↔
      u ≠ t ∧ u ≠ p ∧ u ≠ q ∧ m.topics.lookup u = some topic') ∧
    ∀ n u, m'.topicMap.lookup n = some u ↔ n ≠ topic.name ∧ n ≠ metaPubName topic.name ∧
      n ≠ metaSubName topic.name ∧ m.topicMap.lookup n = some u := by
  simp only [remove, ht, hp, hq, Option.some.injEq] at hm
  subst hm
  constructor
  · intro u topic'
    simp only [KeyMap.lookup_erase]
    split_ifs <;> simp_all
  · intro n u
    simp only [KeyMap.lookup_erase]
    split_ifs <;> simp_all

/-- What can be removed next is what could be removed before and was spared. -/
theorem removable_remove (hm : m.remove t = some m') :
    m'.Removable u ↔ m.Removable u ∧ m.Spares t u := by
  obtain ⟨topic, p, q, ht, hp, hq⟩ := removable_of_remove hm
  obtain ⟨htopics, hmap⟩ := lookup_remove ht hp hq hm
  constructor
  · intro h
    obtain ⟨topicᵤ, pᵤ, qᵤ, hu, hpᵤ, hqᵤ⟩ := h
    obtain ⟨hut, hup, huq, hu⟩ := (htopics _ _).mp hu
    obtain ⟨hp₁, hp₂, -, hpᵤ⟩ := (hmap _ _).mp hpᵤ
    obtain ⟨hq₁, -, -, hqᵤ⟩ := (hmap _ _).mp hqᵤ
    refine ⟨⟨topicᵤ, pᵤ, qᵤ, hu, hpᵤ, hqᵤ⟩, hut, fun topic₁ topic₂ h₁ h₂ => ?_⟩
    rw [ht] at h₁
    rw [hu] at h₂
    cases h₁
    cases h₂
    refine ⟨fun h => hp₂ (congrArg metaPubName h), fun h => hp₁ h.symm, fun h => hq₁ h.symm, ?_, ?_⟩
    · intro h
      rw [hp] at h
      exact hup (Option.some.inj h).symm
    · intro h
      rw [hq] at h
      exact huq (Option.some.inj h).symm
  · intro h
    obtain ⟨⟨topicᵤ, pᵤ, qᵤ, hu, hpᵤ, hqᵤ⟩, hut, hspares⟩ := h
    obtain ⟨hname, hpub, hsub, hup, huq⟩ := hspares topic topicᵤ ht hu
    rw [hp] at hup
    rw [hq] at huq
    refine ⟨topicᵤ, pᵤ, qᵤ, (htopics _ _).mpr ⟨hut, fun h => hup (h ▸ rfl), fun h => huq (h ▸ rfl),
      hu⟩, (hmap _ _).mpr ⟨hpub.symm, fun h => hname (metaPubName_injective h),
      metaPubName_ne_metaSubName _ _, hpᵤ⟩, (hmap _ _).mpr ⟨hsub.symm,
      (metaPubName_ne_metaSubName _ _).symm, fun h => hname (metaSubName_injective h), hqᵤ⟩⟩

/-- Whether one removal spares another does not depend on an earlier one that spares both. -/
theorem spares_remove (hm : m.remove t = some m') (hu : m'.Removable u) (hv : m'.Removable v) :
    m'.Spares u v ↔ m.Spares u v := by
  obtain ⟨topic, p, q, ht, hp, hq⟩ := removable_of_remove hm
  obtain ⟨htopics, hmap⟩ := lookup_remove ht hp hq hm
  obtain ⟨topicᵤ, pᵤ, qᵤ, hu', hpᵤ', hqᵤ'⟩ := hu
  obtain ⟨topicᵥ, -, -, hv', -, -⟩ := hv
  have hu := ((htopics _ _).mp hu').2.2.2
  have hv := ((htopics _ _).mp hv').2.2.2
  have hpᵤ := ((hmap _ _).mp hpᵤ').2.2.2
  have hqᵤ := ((hmap _ _).mp hqᵤ').2.2.2
  constructor
  · intro h
    refine ⟨h.1, fun topic₁ topic₂ h₁ h₂ => ?_⟩
    rw [hu] at h₁
    cases h₁
    rw [hpᵤ, ← hpᵤ', hqᵤ, ← hqᵤ']
    exact h.2 _ topic₂ hu' (by rw [hv', ← hv, h₂])
  · intro h
    refine ⟨h.1, fun topic₁ topic₂ h₁ h₂ => ?_⟩
    rw [hu'] at h₁
    cases h₁
    rw [hpᵤ', ← hpᵤ, hqᵤ', ← hqᵤ]
    exact h.2 _ topic₂ hu (by rw [hv, ← hv', h₂])

/-- A sequence of removals goes through if each of its topics can be removed at the start and each
removal spares the later ones. -/
theorem isSome_removeAll :
    (removeAll l m).isSome = true ↔ (∀ t ∈ l, m.Removable t) ∧ l.Pairwise m.Spares := by
  induction l generalizing m with
  | nil => simp [removeAll]
  | cons t l ih =>
    rw [removeAll, List.pairwise_cons, List.forall_mem_cons]
    cases hm : m.remove t with
    | none =>
      have hnot := remove_eq_none.mp hm
      simp [hnot]
    | some m' =>
      have hr : m.Removable t := by
        by_contra hnot
        rw [remove_eq_none.mpr hnot] at hm
        cases hm
      rw [Option.bind_some, ih]
      constructor
      · intro h
        obtain ⟨hall, hpairs⟩ := h
        refine ⟨⟨hr, fun u hu => ((removable_remove hm).mp (hall u hu)).1⟩,
          fun u hu => ((removable_remove hm).mp (hall u hu)).2, ?_⟩
        exact hpairs.imp_of_mem fun {a b} ha hb hab =>
          (spares_remove hm (hall a ha) (hall b hb)).mp hab
      · intro h
        obtain ⟨⟨-, hall⟩, hspared, hpairs⟩ := h
        have hall' : ∀ u ∈ l, m'.Removable u := fun u hu =>
          (removable_remove hm).mpr ⟨hall u hu, hspared u hu⟩
        exact ⟨hall', hpairs.imp_of_mem fun {a b} ha hb hab =>
          (spares_remove hm (hall' a ha) (hall' b hb)).mpr hab⟩

/-- The names that the removals take: those of the topics and of their metatopics. -/
def Takes (m : TopicTables) (l : List TopicIdx) (n : String) : Prop :=
  ∃ t ∈ l, ∃ topic, m.topics.lookup t = some topic ∧
    (n = topic.name ∨ n = metaPubName topic.name ∨ n = metaSubName topic.name)

/-- What a sequence of removals leaves of the two maps. -/
theorem lookup_removeAll (h : removeAll l m = some m') :
    (∀ t ∈ l, t ∉ m'.topics) ∧ (∀ u, u ∈ m'.topics → u ∈ m.topics) ∧
      ∀ n u, m'.topicMap.lookup n = some u ↔ m.topicMap.lookup n = some u ∧ ¬m.Takes l n := by
  induction l generalizing m with
  | nil =>
    cases h
    refine ⟨?_, fun _ hu => hu, fun n u => ?_⟩
    · intro t ht
      cases ht
    · simp [Takes]
  | cons t l ih =>
    obtain ⟨m₁, hm, hl⟩ := Option.bind_eq_some_iff.mp h
    obtain ⟨topic, p, q, ht, hp, hq⟩ := removable_of_remove hm
    obtain ⟨htopics, hmap⟩ := lookup_remove ht hp hq hm
    have hstays : ∀ u, u ∈ m₁.topics → u ≠ t ∧ u ∈ m.topics := by
      intro u hu
      obtain ⟨topicᵤ, hu⟩ := (KeyMap.mem_iff_lookup _ _).mp hu
      obtain ⟨hut, -, -, hu⟩ := (htopics u topicᵤ).mp hu
      exact ⟨hut, (KeyMap.mem_iff_lookup _ _).mpr ⟨topicᵤ, hu⟩⟩
    have hremovable : ∀ u ∈ l, m₁.Removable u := by
      have hsome : (removeAll l m₁).isSome = true := by rw [hl]; rfl
      exact (isSome_removeAll.mp hsome).1
    have htakes : ∀ n, m.Takes (t :: l) n ↔
        (n = topic.name ∨ n = metaPubName topic.name ∨ n = metaSubName topic.name) ∨
          m₁.Takes l n := by
      intro n
      constructor
      · intro hn
        obtain ⟨u, hu, topicᵤ, hlookup, hname⟩ := hn
        rcases List.mem_cons.mp hu with heq | hu
        · subst heq
          rw [ht] at hlookup
          cases hlookup
          exact .inl hname
        · obtain ⟨topic₁, -, -, h₁, -⟩ := hremovable u hu
          have h₀ := ((htopics u topic₁).mp h₁).2.2.2
          rw [hlookup] at h₀
          cases h₀
          exact .inr ⟨u, hu, topicᵤ, h₁, hname⟩
      · intro hn
        rcases hn with hname | ⟨u, hu, topicᵤ, hlookup, hname⟩
        · exact ⟨t, List.mem_cons_self, topic, ht, hname⟩
        · exact ⟨u, List.mem_cons_of_mem t hu, topicᵤ, ((htopics u topicᵤ).mp hlookup).2.2.2, hname⟩
    obtain ⟨hgone, hback, hnames⟩ := ih hl
    refine ⟨fun u hu hmem => ?_, fun u hu => (hstays u (hback u hu)).2, fun n u => ?_⟩
    · rcases List.mem_cons.mp hu with heq | hu
      · exact (hstays u (hback u hmem)).1 heq
      · exact hgone u hu hmem
    · rw [hnames, hmap, htakes]
      tauto

end TopicTables

/-- The topics that the loop of `disconnect_client` removes, in its order: those whose count it
brings down to zero. -/
def zeroed : List (PubUID × TopicIdx) → KeyMap TopicIdx UInt16 → List TopicIdx
  | [], _ => []
  | e :: l, counts =>
    match counts.lookup e.2 with
    | none => zeroed l counts
    | some count =>
      if count - 1 = 0 then
        e.2 :: zeroed l (counts.insert e.2 (count - 1))
      else
        zeroed l (counts.insert e.2 (count - 1))

/-- All that `disconnect_client` removes, a client's own metatopics last. -/
def InnerServer.removals (o : IterOrder) (s : InnerServer) (c : ClientIdx)
    (client : ConnectedClient) : List TopicIdx :=
  zeroed (o.walk client.pubuidToTopicidx.iterLr) s.pubCount ++
    match s.clientMetatopicMap.lookup c with
    | none => []
    | some own => [own.1, own.2]

/-- The maps that removals leave alone. -/
structure Kept (s s' : InnerServer) : Prop where
  clients : s'.clients = s.clients
  clientMap : s'.clientMap = s.clientMap
  clientMetatopicMap : s'.clientMetatopicMap = s.clientMetatopicMap
  subscriptions : s'.subscriptions = s.subscriptions

theorem Kept.trans {s₁ s₂ s₃ : InnerServer} (h : Kept s₁ s₂) (h' : Kept s₂ s₃) : Kept s₁ s₃ where
  clients := h'.clients.trans h.clients
  clientMap := h'.clientMap.trans h.clientMap
  clientMetatopicMap := h'.clientMetatopicMap.trans h.clientMetatopicMap
  subscriptions := h'.subscriptions.trans h.subscriptions

/-- Code that removes the topics of `l` one after the other, and stops where one cannot be. -/
def Cleans (l : List TopicIdx) (s : InnerServer) (r : Except NetworkTablesError Unit)
    (s' : InnerServer) : Prop :=
  match r with
  | .ok _ => TopicTables.removeAll l s.tables = some s'.tables ∧ Kept s s'
  | .error _ => TopicTables.removeAll l s.tables = none

section Cleans

variable {s s₁ s' : InnerServer} {r : Except NetworkTablesError Unit} {e : NetworkTablesError}
  {l l' : List TopicIdx} {t : TopicIdx} {c : ClientIdx} {ident : ClientIdentity} {o : IterOrder}

theorem Cleans.append (h : Cleans l s (.ok ()) s₁) (h' : Cleans l' s₁ r s') :
    Cleans (l ++ l') s r s' := by
  obtain ⟨htables, hkept⟩ := h
  cases r with
  | error e =>
    show TopicTables.removeAll (l ++ l') s.tables = none
    rw [TopicTables.removeAll_append, htables]
    exact h'
  | ok =>
    refine ⟨?_, hkept.trans h'.2⟩
    rw [TopicTables.removeAll_append, htables]
    exact h'.1

theorem Cleans.error_append (h : Cleans l s (.error e) s') (l' : List TopicIdx) :
    Cleans (l ++ l') s (.error e) s' := by
  have hnone : TopicTables.removeAll l s.tables = none := h
  show TopicTables.removeAll (l ++ l') s.tables = none
  rw [TopicTables.removeAll_append, hnone]
  rfl

/-- The counts are not looked at. -/
theorem Cleans.of_pubCount {counts : KeyMap TopicIdx UInt16}
    (h : Cleans l { s with pubCount := counts } r s') : Cleans l s r s' := by
  cases r with
  | error e => exact h
  | ok => exact ⟨h.1, h.2.clients, h.2.clientMap, h.2.clientMetatopicMap, h.2.subscriptions⟩

theorem cleans_removeTopic : Ends (removeTopic t) s fun r s' => Cleans [t] s r s' := by
  have hone : TopicTables.removeAll [t] s.tables = s.tables.remove t := by
    simp [TopicTables.removeAll]
  refine ends_removeTopic.mpr ⟨fun ht => ?_, fun topic ht => ⟨fun hp => ?_, fun p hp =>
    ⟨fun hq => ?_, fun q hq => ?_⟩⟩⟩
  · show TopicTables.removeAll [t] s.tables = none
    rw [hone]
    simp [TopicTables.remove, InnerServer.tables, ht]
  · show TopicTables.removeAll [t] s.tables = none
    rw [hone]
    simp [TopicTables.remove, InnerServer.tables, ht, hp]
  · show TopicTables.removeAll [t] s.tables = none
    rw [hone]
    simp [TopicTables.remove, InnerServer.tables, ht, hp, hq]
  · refine ⟨?_, rfl, rfl, rfl, rfl⟩
    rw [hone]
    simp [TopicTables.remove, InnerServer.tables, ht, hp, hq, InnerServer.withoutTopic]

/-- The loop over the client's publishers. -/
theorem cleans_releasePublishers (l : List (PubUID × TopicIdx)) (s : InnerServer) :
    Ends (forEach l fun e => releasePublisher e.2) s fun r s' =>
      Cleans (zeroed l s.pubCount) s r s' := by
  induction l generalizing s with
  | nil => exact (ends_pure ()).mpr ⟨rfl, rfl, rfl, rfl, rfl⟩
  | cons e l ih =>
    refine (ends_bind _ _).mpr (ends_releasePublisher.mpr ⟨fun hn => ?_, fun count hn => ?_⟩)
    · simp only [thenEnds_ok, zeroed, hn]
      exact ih s
    · split_ifs with hzero
      · have hlist : zeroed (e :: l) s.pubCount =
            [e.2] ++ zeroed l (s.pubCount.insert e.2 (count - 1)) := by simp [zeroed, hn, hzero]
        rw [hlist]
        refine ends_mono (ends_and cleans_removeTopic ends_removeTopic_frame) ?_
        intro r s₁ h
        obtain ⟨hclean, hcounts, -⟩ := h
        have hclean := hclean.of_pubCount
        cases r with
        | error err => exact hclean.error_append _
        | ok =>
          have hrest := ih s₁
          rw [hcounts] at hrest
          exact ends_mono hrest fun _ _ h => hclean.append h
      · have hlist : zeroed (e :: l) s.pubCount =
            zeroed l (s.pubCount.insert e.2 (count - 1)) := by simp [zeroed, hn, hzero]
        rw [hlist]
        exact ends_mono (ih { s with pubCount := s.pubCount.insert e.2 (count - 1) })
          fun _ _ h => h.of_pubCount

/-- A disconnect is its sequence of removals; it also takes the client out of three maps. -/
theorem ends_disconnectClient {client : ConnectedClient}
    (hident : s.clientMap.lookup ident = some c) (hc : s.clients.lookup c = some client) :
    Ends (disconnectClient o ident) s fun r s' =>
      Cleans (s.removals o c client)
        { s with
          clientMap := s.clientMap.erase ident
          clients := s.clients.erase c
          clientMetatopicMap := s.clientMetatopicMap.erase c } r s' := by
  simp only [disconnectClient, hident, ends_bind, ends_get, thenEnds_ok, ends_okOr,
    ends_modify, hc, Option.some.injEq, forall_eq', reduceCtorEq, false_implies, and_true]
  refine ends_mono (cleans_releasePublishers _ (s.withoutClient ident c client)) ?_
  intro r s₁ h₁
  cases r with
  | error e => exact h₁.error_append _
  | ok =>
    have hown : s₁.clientMetatopicMap = s.clientMetatopicMap := h₁.2.clientMetatopicMap
    have hloop : Cleans (zeroed (o.walk client.pubuidToTopicidx.iterLr) s.pubCount)
        { s with
          clientMap := s.clientMap.erase ident
          clients := s.clients.erase c
          clientMetatopicMap := s.clientMetatopicMap.erase c } (.ok ())
        { s₁ with clientMetatopicMap := s₁.clientMetatopicMap.erase c } := by
      refine ⟨h₁.1, h₁.2.clients, h₁.2.clientMap, ?_, h₁.2.subscriptions⟩
      exact congrArg (AList.erase c) hown
    simp only [thenEnds_ok, ends_bind, ends_get, ends_modify, hown, InnerServer.removals]
    cases s.clientMetatopicMap.lookup c with
    | none =>
      rw [hown] at hloop
      simpa using hloop
    | some own =>
      rw [hown] at hloop
      simp only [ends_bind]
      refine ends_mono cleans_removeTopic ?_
      intro r s₂ h₂
      have h₂ := hloop.append h₂
      cases r with
      | error e =>
        have herr := h₂.error_append [own.2]
        rwa [List.append_assoc] at herr
      | ok =>
        refine ends_mono cleans_removeTopic ?_
        intro r s₃ h₃
        have h₃ := h₂.append h₃
        rwa [List.append_assoc] at h₃

theorem total_removeTopic : Total (removeTopic t) :=
  total_bind total_get fun _ => total_bind (total_okOr _ _) fun _ =>
    total_bind (total_modify _) fun _ => total_bind total_get fun _ =>
    total_bind (total_okOr _ _) fun _ => total_bind (total_modify _) fun _ =>
    total_bind total_get fun _ => total_bind (total_okOr _ _) fun _ =>
    total_bind (total_modify _) fun _ => total_bind (total_modify _) fun _ =>
    total_bind (total_modify _) fun _ => total_bind (total_modify _) fun _ => total_modify _

theorem total_releasePublisher : Total (releasePublisher t) := by
  refine total_bind total_get fun s => ?_
  cases s.pubCount.lookup t with
  | none => exact total_pure ()
  | some count =>
    refine total_bind (total_modify _) fun _ => ?_
    split_ifs
    · exact total_removeTopic
    · exact total_pure ()

theorem total_disconnectClient : Total (disconnectClient o ident) := by
  refine total_bind total_get fun s => total_bind (total_okOr _ _) fun c =>
    total_bind (total_modify _) fun _ => total_bind total_get fun _ =>
    total_bind (total_okOr _ _) fun client => total_bind (total_modify _) fun _ =>
    total_bind (total_forEach (fun _ => total_releasePublisher) _) fun _ =>
    total_bind total_get fun s₁ => total_bind (total_modify _) fun _ => ?_
  cases s₁.clientMetatopicMap.lookup c with
  | none => exact total_pure ()
  | some own => exact total_bind total_removeTopic fun _ => total_removeTopic

end Cleans

/-- Nothing in `s'` refers to the client that had index `c` in `s`, nor to its metatopics. -/
structure Erased (s s' : InnerServer) (c : ClientIdx) : Prop where
  clients : c ∉ s'.clients
  clientMap : ∀ ident, s'.clientMap.lookup ident ≠ some c
  clientMetatopicMap : c ∉ s'.clientMetatopicMap
  subscriptions : ∀ i sub, s'.subscriptions.lookup i ≠ some (sub, c)
  subIdxs : ∀ i sub, s.subscriptions.lookup i = some (sub, c) →
    (∀ t l, s'.topicSubMap.lookup t = some l → i ∉ l) ∧ i ∉ s'.subValues ∧ i ∉ s'.subSendTimestamps
  metatopics : ∀ own, s.clientMetatopicMap.lookup c = some own → ∀ t, t = own.1 ∨ t = own.2 →
    t ∉ s'.topics ∧ ∀ n, s'.topicMap.lookup n ≠ some t

/-- What a disconnect needs to succeed and to leave nothing behind. -/
structure Erasable (o : IterOrder) (s : InnerServer) (ident : ClientIdentity) (c : ClientIdx)
    (client : ConnectedClient) : Prop where
  sole : ∀ ident', s.clientMap.lookup ident' = some c → ident' = ident
  unsubscribed : ∀ i sub, s.subscriptions.lookup i ≠ some (sub, c)
  removable : ∀ t ∈ s.removals o c client, s.tables.Removable t
  spares : (s.removals o c client).Pairwise s.tables.Spares
  named : ∀ own, s.clientMetatopicMap.lookup c = some own → ∀ n t, t = own.1 ∨ t = own.2 →
    s.topicMap.lookup n = some t → s.tables.Takes (s.removals o c client) n

section Erased

variable {s : InnerServer} {c : ClientIdx} {ident : ClientIdentity} {client : ConnectedClient}
  {o : IterOrder}

theorem mem_removals {own : TopicIdx × TopicIdx} {t : TopicIdx}
    (hown : s.clientMetatopicMap.lookup c = some own) (ht : t = own.1 ∨ t = own.2) :
    t ∈ s.removals o c client := by
  unfold InnerServer.removals
  rw [hown]
  rcases ht with rfl | rfl <;> simp

/-- A disconnect returns `Ok` and erases the client exactly when no other identity leads to it, it
has no subscription, and each topic that is to be removed has its two metatopics at the time. -/
theorem disconnectClient_erases_iff (o : IterOrder) (hident : s.clientMap.lookup ident = some c) :
    (∃ s', (disconnectClient o ident).exec s = .ok (.ok (), s') ∧ Erased s s' c) ↔
      ∃ client, s.clients.lookup c = some client ∧ Erasable o s ident c client := by
  constructor
  · intro h
    obtain ⟨s', hx, he⟩ := h
    cases hc : s.clients.lookup c with
    | none =>
      simp [disconnectClient, exec_bind, hident, hc, okOr] at hx
    | some client =>
      obtain ⟨hremoved, hkept⟩ := ends_of_exec (ends_disconnectClient hident hc) hx
      have hall := TopicTables.isSome_removeAll.mp (Option.isSome_of_eq_some hremoved)
      obtain ⟨-, -, hnames⟩ := TopicTables.lookup_removeAll hremoved
      refine ⟨client, rfl, fun ident' hident' => ?_, fun i sub hi => ?_, hall.1, hall.2,
        fun own hown n t ht hn => ?_⟩
      · by_contra hne
        refine he.clientMap ident' ?_
        rw [hkept.clientMap, KeyMap.lookup_erase, if_neg hne]
        exact hident'
      · refine he.subscriptions i sub ?_
        rw [hkept.subscriptions]
        exact hi
      · by_contra hnot
        exact (he.metatopics own hown t ht).2 n ((hnames n t).mpr ⟨hn, hnot⟩)
  · intro h
    obtain ⟨client, hc, h⟩ := h
    have hsome := TopicTables.isSome_removeAll.mpr ⟨h.removable, h.spares⟩
    obtain ⟨r, s', hx, hclean⟩ := total_disconnectClient.ends (ends_disconnectClient hident hc)
    cases r with
    | error e =>
      have hnone : TopicTables.removeAll (s.removals o c client) s.tables = none := hclean
      rw [hnone] at hsome
      cases hsome
    | ok =>
      obtain ⟨hremoved, hkept⟩ := hclean
      obtain ⟨hgone, -, hnames⟩ := TopicTables.lookup_removeAll hremoved
      have hsub : s'.subscriptions = s.subscriptions := hkept.subscriptions
      refine ⟨s', hx, ?_, fun ident' hident' => ?_, ?_, fun i sub hi => ?_, fun i sub hi => ?_,
        fun own hown t ht => ⟨?_, fun n hn => ?_⟩⟩
      · rw [hkept.clients]
        exact fun hmem => (AList.mem_erase.mp hmem).1 rfl
      · rw [hkept.clientMap, KeyMap.lookup_erase] at hident'
        split_ifs at hident' with hne
        exact hne (h.sole ident' hident')
      · rw [hkept.clientMetatopicMap]
        exact fun hmem => (AList.mem_erase.mp hmem).1 rfl
      · rw [hsub] at hi
        exact h.unsubscribed i sub hi
      · exact (h.unsubscribed i sub hi).elim
      · exact hgone t (mem_removals hown ht)
      · obtain ⟨hold, hnot⟩ := (hnames n t).mp hn
        exact hnot (h.named own hown n t ht hold)

/-- In a run that makes fewer than 2^32 topics and connections, the identities and the names are as
a disconnect needs them. -/
theorem erasable_iff_of_runs {u : Kind → Nat} (run : Runs u s) (htopics : u .topic < 2 ^ 32)
    (hclients : u .client < 2 ^ 32) (hident : s.clientMap.lookup ident = some c) :
    Erasable o s ident c client ↔
      (∀ i sub, s.subscriptions.lookup i ≠ some (sub, c)) ∧
      (∀ t ∈ s.removals o c client, s.tables.Removable t) ∧
      (s.removals o c client).Pairwise s.tables.Spares := by
  constructor
  · intro h
    exact ⟨h.unsubscribed, h.removable, h.spares⟩
  · intro h
    obtain ⟨hsubs, hremovable, hspares⟩ := h
    refine ⟨fun ident' hident' => (run.identified hclients).injective hident' hident, hsubs,
      hremovable, hspares, fun own hown n t ht hn => ?_⟩
    have hmem : t ∈ s.removals o c client := mem_removals hown ht
    obtain ⟨topic, p, q, htopic, -⟩ := hremovable t hmem
    exact ⟨t, hmem, topic, htopic, .inl ((run.numbered htopics).name_eq n t topic hn htopic).symm⟩

end Erased

/-- Two clients connect, and the second publishes the metatopics that the removal of the first
one's metatopics looks for. -/
def publishOwnMetatopics : List Op :=
  [.connectClient ⟨.v4 10 0 0 2 5810, "a"⟩, .connectClient ⟨.v4 10 0 0 3 5810, "b"⟩,
    .innerPublishTopic ⟨"$pub$$clientpub$a", 0, "raw", none⟩ 2,
    .innerPublishTopic ⟨"$sub$$clientpub$a", 1, "raw", none⟩ 2,
    .innerPublishTopic ⟨"$pub$$clientsub$a", 2, "raw", none⟩ 2,
    .innerPublishTopic ⟨"$sub$$clientsub$a", 3, "raw", none⟩ 2]

theorem erases_publishOwnMetatopics :
    ∃ s s', stateAfter anyOp .stored publishOwnMetatopics = some s ∧
      s.clientMap.lookup ⟨.v4 10 0 0 2 5810, "a"⟩ = some 1 ∧
      (disconnectClient .stored ⟨.v4 10 0 0 2 5810, "a"⟩).exec s = .ok (.ok (), s') ∧
      Erased s s' 1 := by
  have hrun : (stateAfter anyOp .stored publishOwnMetatopics).bind (fun s =>
      (s.clients.lookup 1).map fun client =>
        (s.clientMap.lookup ⟨.v4 10 0 0 2 5810, "a"⟩, s.subscriptions.pairs.length,
          (TopicTables.removeAll (s.removals .stored 1 client) s.tables).isSome)) =
      some (some 1, 0, true) := by decide +kernel
  obtain ⟨s, hs, hview⟩ := Option.bind_eq_some_iff.mp hrun
  obtain ⟨client, hc, hview⟩ := Option.map_eq_some_iff.mp hview
  simp only [Prod.mk.injEq] at hview
  obtain ⟨hident, hsubs, hremoved⟩ := hview
  obtain ⟨u, run, hu⟩ := runWhere_stateAfter (fun _ _ _ => trivial) hs
  have htopics : u .topic < 2 ^ 32 := (hu .topic).trans_lt (by decide)
  have hclients : u .client < 2 ^ 32 := (hu .client).trans_lt (by decide)
  have hnone : ∀ i sub, s.subscriptions.lookup i ≠ some (sub, 1) := by
    intro i sub hi
    have hmem := (KeyMap.mem_pairs _ _ _).mpr hi
    rw [List.eq_nil_of_length_eq_zero hsubs] at hmem
    cases hmem
  have hok := TopicTables.isSome_removeAll.mp hremoved
  obtain ⟨s', hx, he⟩ := (disconnectClient_erases_iff .stored hident).mpr
    ⟨client, hc, (erasable_iff_of_runs run htopics hclients hident).mpr ⟨hnone, hok⟩⟩
  exact ⟨s, s', hs, hident, hx, he⟩

/-- A client connects, and no more. -/
def connectOnce : List Op := [.connectClient ⟨.v4 10 0 0 2 5810, "a"⟩]

/-- `remove_topic` looks for metatopics of the client's own metatopics, which nobody makes. -/
theorem disconnect_fails_after_connect :
    ¬∀ s, Reachable s → ∀ ident c, s.clientMap.lookup ident = some c → ∀ o, ∃ s',
      (disconnectClient o ident).exec s = .ok (.ok (), s') ∧ Erased s s' c := by
  intro h
  have hrun : (stateAfter anyOp .stored connectOnce).map (fun s =>
      (s.clientMap.lookup ⟨.v4 10 0 0 2 5810, "a"⟩,
        ((disconnectClient .stored ⟨.v4 10 0 0 2 5810, "a"⟩).exec s).toOption.any fun r =>
          r.1.toBool)) = some (some 1, false) := by decide +kernel
  obtain ⟨s, hs, hview⟩ := Option.map_eq_some_iff.mp hrun
  simp only [Prod.mk.injEq] at hview
  obtain ⟨s', hx, -⟩ := h s (reachable_stateAfter hs) _ 1 hview.1 .stored
  rw [hx] at hview
  cases hview.2

end NetTables.Server
