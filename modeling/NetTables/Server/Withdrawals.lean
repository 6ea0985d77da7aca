import NetTables.Server.Lifetime

namespace NetTables.Server

open Lib Lib.Fallible Spec

/-- The server where a client has given up a registration that is not counted. -/
def InnerServer.uncounted (s : InnerServer) (c : ClientIdx) (client : ConnectedClient)
    (pubuid : PubUID) : InnerServer :=
  { s with
    clients := s.clients.insert c
      { client with pubuidToTopicidx := client.pubuidToTopicidx.removeByLeft pubuid } }

/-- What an unpublication can come to, but for the values of metatopics. -/
inductive Unpublication (s : InnerServer) (pubuid : PubUID) (c : ClientIdx) :
    InnerServer → Prop where
  | refused : Unpublication s pubuid c s
  | uncounted {client t} (hc : s.clients.lookup c = some client)
      (hp : client.pubuidToTopicidx.getByLeft pubuid = some t) (hn : s.pubCount.lookup t = none) :
      Unpublication s pubuid c (s.uncounted c client pubuid)
  | lowered {client t count} (hc : s.clients.lookup c = some client)
      (hp : client.pubuidToTopicidx.getByLeft pubuid = some t)
      (hn : s.pubCount.lookup t = some count) (hcount : count ≠ 1)
      (values : KeyMap TopicIdx MetaTopicValue) :
      Unpublication s pubuid c
        { s.unregistered c client pubuid t count with metatopicValueMap := values }
  | missing {client t} (hc : s.clients.lookup c = some client)
      (hp : client.pubuidToTopicidx.getByLeft pubuid = some t) (hn : s.pubCount.lookup t = some 1)
      (ht : s.topics.lookup t = none) :
      Unpublication s pubuid c (s.unregistered c client pubuid t 1)
  | lost {client t topic} (hc : s.clients.lookup c = some client)
      (hp : client.pubuidToTopicidx.getByLeft pubuid = some t) (hn : s.pubCount.lookup t = some 1)
      (ht : s.topics.lookup t = some topic)
      (hpub : s.topicMap.lookup (metaPubName topic.name) = none) :
      Unpublication s pubuid c
        { s.unregistered c client pubuid t 1 with topics := s.topics.erase t }
  | halfLost {client t topic p} (hc : s.clients.lookup c = some client)
      (hp : client.pubuidToTopicidx.getByLeft pubuid = some t) (hn : s.pubCount.lookup t = some 1)
      (ht : s.topics.lookup t = some topic)
      (hpub : s.topicMap.lookup (metaPubName topic.name) = some p)
      (hsub : s.topicMap.lookup (metaSubName topic.name) = none) :
      Unpublication s pubuid c
        { s.unregistered c client pubuid t 1 with
          topics := s.topics.erase t
          topicMap := s.topicMap.erase (metaPubName topic.name) }
  | removed {client t topic p q} (hc : s.clients.lookup c = some client)
      (hp : client.pubuidToTopicidx.getByLeft pubuid = some t) (hn : s.pubCount.lookup t = some 1)
      (ht : s.topics.lookup t = some topic)
      (hpub : s.topicMap.lookup (metaPubName topic.name) = some p)
      (hsub : s.topicMap.lookup (metaSubName topic.name) = some q)
      (values : KeyMap TopicIdx MetaTopicValue) :
      Unpublication s pubuid c
        { (s.unregistered c client pubuid t 1).withoutTopic t topic.name p q with
          pubCount := (s.pubCount.insert t (1 - 1)).erase t
          metatopicValueMap := values }

variable {s s' : InnerServer} {op : Op} {o : IterOrder} {c : ClientIdx}

theorem ends_innerUnpublishTopic {pubTopic : UnpublishTopic} :
    Ends (innerUnpublishTopic pubTopic c) s fun _ s' => Unpublication s pubTopic.pubuid c s' := by
  simp only [innerUnpublishTopic, ends_bind, ends_get, thenEnds_ok, ends_okOr, thenEnds_error,
    putClient, ends_modify]
  refine ⟨fun client hc => ⟨fun t hp => ⟨fun count hn => ?_, fun hn => .uncounted hc hp hn⟩,
    fun _ => .refused⟩, fun _ => .refused⟩
  split_ifs with hzero
  · obtain rfl := uint16_pred_eq_zero hzero
    simp only [ends_bind]
    refine ends_removeTopic.mpr ⟨fun ht => .missing hc hp hn ht, fun topic ht => ⟨fun hpub =>
      .lost hc hp hn ht hpub, fun p hpub => ⟨fun hsub => .halfLost hc hp hn ht hpub hsub,
        fun q hsub => ?_⟩⟩⟩
    rw [thenEnds_ok]
    refine ends_mono ends_updatePublishers_values ?_
    intro r s' h
    obtain ⟨values, rfl⟩ := h
    exact .removed hc hp hn ht hpub hsub values
  · refine ends_mono ends_updatePublishers_values ?_
    intro r s' h
    obtain ⟨values, rfl⟩ := h
    refine .lowered hc hp hn ?_ values
    rintro rfl
    exact hzero rfl

/-- A disconnection leaves all counts there. -/
theorem ends_disconnectClient_counts {ident : ClientIdentity} :
    Ends (disconnectClient o ident) s fun _ s' => ∀ m, m ∈ s.pubCount → m ∈ s'.pubCount := by
  cases hident : s.clientMap.lookup ident with
  | none => simp [disconnectClient, hident]
  | some c =>
    cases hc : s.clients.lookup c with
    | none => simp [disconnectClient, hident, hc]
    | some client =>
      have hleft := does_disconnectClient_left (o := o) (P := fun _ => True) hident hc trivial
        fun _ _ _ => trivial
      refine ends_mono hleft ?_
      intro r s' h
      obtain ⟨-, l, hsinking⟩ := h
      exact hsinking.kept

/-- Whatever is done to the server, a count is dropped only with its topic, by an unpublication that
removes it. -/
theorem Step.counts {m : TopicIdx} (h : Step s op s') (hm : m ∈ s.pubCount) :
    m ∈ s'.pubCount ∨ ∃ topic p q, s.topics.lookup m = some topic ∧
      s'.topicMap = (s.withoutTopic m topic.name p q).topicMap := by
  have hlow : ∀ t n, m ∈ s.pubCount.insert t n :=
    fun _ _ => (AList.mem_insert _).mpr (.inr hm)
  by_cases hw : op.Withdraws
  · obtain ⟨o, r, hx⟩ := h
    cases op with
    | innerUnpublishTopic pubTopic c =>
      cases ends_of_exec ends_innerUnpublishTopic hx with
      | refused => exact .inl hm
      | uncounted => exact .inl hm
      | lowered | missing | lost | halfLost => exact .inl (hlow _ _)
      | @removed client t topic p q _ _ _ ht =>
        by_cases hmt : m = t
        · subst hmt
          exact .inr ⟨topic, p, q, ht, rfl⟩
        · exact .inl (AList.mem_erase.mpr ⟨hmt, hlow _ _⟩)
    | disconnectClient ident => exact .inl (ends_of_exec ends_disconnectClient_counts hx m hm)
    | _ => exact hw.elim
  · obtain ⟨es, hes, hall, -⟩ := h.does
    have hcount : ∀ a ∈ es, a ≠ .count := by
      intro a ha heq
      subst heq
      exact hw (hall _ ha)
    refine .inl (hes.invariant (fun u => m ∈ u.pubCount) (· ≠ .count) hcount ?_ hm)
    intro u e u' he hp hu
    cases he with
    | topicAdded => exact (AList.mem_insert _).mpr (.inr hu)
    | countErased => exact (hp _ rfl rfl).elim
    | countLowered => exact (hp _ rfl rfl).elim
    | _ => exact hu

end NetTables.Server
