import NetTables.Server.ClosedChannels
import NetTables.Server.Subscribe

namespace NetTables.Server

open Lib Lib.Fallible Spec

variable {l : List ClientIdx} {s s' u : InnerServer} {o : IterOrder} {c : ClientIdx}
  {t : TopicIdx} {topic : Topic} {a : Announce}

/-- The client once a topic is announced to it. -/
def ConnectedClient.hears (client : ConnectedClient) (t : TopicIdx) (a : Announce) :
    ConnectedClient :=
  { client with
    announcedTopics := insert t client.announcedTopics
    subOuput := client.subOuput.map fun ch => ch.append [.text [.announce a]] }

/-- The clients of a list have heard of a topic, once each, and nothing else has changed. -/
structure Heard (l : List ClientIdx) (t : TopicIdx) (a : Announce) (s s' : InnerServer) : Prop where
  rest : s' = { s with clients := s'.clients }
  heard : ∀ c ∈ l, s'.clients.lookup c =
    (s.clients.lookup c).map fun client => client.hears t a
  others : ∀ c, c ∉ l → s'.clients.lookup c = s.clients.lookup c

/-- The client has a subscription that cares about a name. -/
def InnerServer.Cares (s : InnerServer) (c : ClientIdx) (name : String) : Prop :=
  ∃ i sub, s.subscriptions.lookup i = some (sub, c) ∧ sub.caresAbout name = true

theorem mem_clientsToNotify {name : String} : c ∈ clientsToNotify s name ↔ s.Cares c name := by
  simp only [clientsToNotify, List.mem_dedup, List.mem_map, List.mem_filter]
  constructor
  · intro h
    obtain ⟨⟨i, sub, d⟩, ⟨hmem, hcares⟩, rfl⟩ := h
    exact ⟨i, sub, (KeyMap.mem_pairs _ _ _).mp hmem, hcares⟩
  · intro h
    obtain ⟨i, sub, hi, hcares⟩ := h
    exact ⟨(i, sub, c), ⟨(KeyMap.mem_pairs _ _ _).mpr hi, hcares⟩, rfl⟩

theorem mem_hearers (ht : s.topics.lookup t = some topic) :
    c ∈ s.hearers t ↔ s.Cares c topic.name := by
  rw [InnerServer.hearers, ht]
  exact mem_clientsToNotify

theorem nodup_clientsToNotify (s : InnerServer) (o : IterOrder) (name : String) :
    (o.arrange (clientsToNotify s name)).Nodup :=
  (o.perm _).nodup_iff.mpr (List.nodup_dedup _)

theorem Heard.refl (s : InnerServer) : Heard [] t a s s :=
  ⟨rfl, fun _ hc => absurd hc List.not_mem_nil, fun _ _ => rfl⟩

/-- One client more, that is none of the others. -/
theorem Heard.cons (h : Heard [c] t a s u) (hc : c ∉ l) (hl : Heard l t a u s') :
    Heard (c :: l) t a s s' := by
  refine ⟨?_, fun d hd => ?_, fun d hd => ?_⟩
  · have hrest := hl.rest
    rw [h.rest] at hrest
    exact hrest
  · rcases List.mem_cons.mp hd with rfl | hmem
    · rw [hl.others d hc, h.heard d List.mem_cons_self]
    · have hne : d ∉ [c] := by
        rw [List.mem_singleton]
        rintro rfl
        exact hc hmem
      rw [hl.heard d hmem, h.others d hne]
  · rw [List.mem_cons, not_or] at hd
    rw [hl.others d hd.2, h.others d (by simpa using hd.1)]

theorem ends_announceSubscriber :
    Ends (announceSubscriber t a c) s fun r s' => r = .ok () → Heard [c] t a s s' := by
  simp only [announceSubscriber, ends_bind, ends_get, thenEnds_ok]
  cases hc : s.clients.lookup c with
  | none =>
    refine (ends_pure ()).mpr fun _ => ⟨rfl, fun d hd => ?_, fun _ _ => rfl⟩
    rw [List.mem_singleton.mp hd, hc]
    rfl
  | some client =>
    simp only [markAnnounced, ends_bind, ends_get, thenEnds_ok, hc, putClient, ends_modify]
    have hput := KeyMap.lookup_insert s.clients c c
      { client with announcedTopics := insert t client.announcedTopics }
    rw [if_pos rfl] at hput
    have hone : ∀ client', client' = client.hears t a →
        Heard [c] t a s { s with clients := s.clients.insert c client' } := by
      rintro client' rfl
      refine ⟨rfl, fun d hd => ?_, fun d hd => ?_⟩
      · rw [List.mem_singleton.mp hd, KeyMap.lookup_insert, if_pos rfl, hc]
        rfl
      · rw [List.mem_singleton] at hd
        rw [KeyMap.lookup_insert, if_neg hd]
    refine (ends_sendOn_of_client hput).mpr ?_
    cases hch : client.subOuput with
    | none => exact fun _ => hone _ (by simp [ConnectedClient.hears, hch])
    | some ch =>
      dsimp only
      split_ifs with hopen
      · intro _
        rw [AList.insert_insert]
        exact hone _ (by simp [ConnectedClient.hears, hch, Outgoing.append, hopen])
      · exact fun hr => by cases hr

/-- The loop over the subscribers, where it gets past all of them. -/
theorem ends_announceAll (hl : l.Nodup) :
    Ends (forEach l (announceSubscriber t a)) s fun r s' => r = .ok () → Heard l t a s s' := by
  induction l generalizing s with
  | nil => exact (ends_pure ()).mpr fun _ => .refl s
  | cons c l ih =>
    obtain ⟨hc, hl⟩ := List.nodup_cons.mp hl
    refine (ends_bind _ _).mpr (ends_mono ends_announceSubscriber ?_)
    intro result u hu
    obtain e | ⟨⟩ := result
    · exact fun hr => by cases hr
    · exact ends_mono (ih hl) fun r s' hs' hr => (hu rfl).cons hc (hs' hr)

/-- An announcement that is no reply, where it gets past all its subscribers. -/
theorem ends_announceTopic_heard (ht : s.topics.lookup t = some topic) :
    Ends (announceTopic o t none) s fun r s' =>
      r = .ok () → Heard (s.hearers t) t (announceOf t topic) s s' := by
  have hhearers := hearers_eq ht
  simp only [announceTopic, ends_bind, ends_get, thenEnds_ok, ends_okOr, thenEnds_error, ht]
  refine ⟨fun topic' heq => ?_, by simp⟩
  cases heq
  refine ends_mono (ends_announceAll (nodup_clientsToNotify s o topic.name)) fun r s' hs' hr => ?_
  have h := hs' hr
  rw [hhearers]
  exact ⟨h.rest, fun d hd => h.heard d ((o.mem_arrange _ _).mpr hd),
    fun d hd => h.others d fun hmem => hd ((o.mem_arrange _ _).mp hmem)⟩

theorem meets_of_listens (hopen : ∀ c client, s.clients.lookup c = some client → client.Listens)
    (l : List ClientIdx) : s.meets l = false := by
  rw [InnerServer.meets, List.any_eq_false]
  intro c _
  cases hc : s.clients.lookup c with
  | none => simp
  | some client =>
    have hlistens := hopen c client hc
    cases hch : client.subOuput with
    | none => simp [ConnectedClient.isClosed, hch]
    | some ch => simp [ConnectedClient.isClosed, hch, hlistens ch hch]

/-- While all channels are open, `announce_topic` tells each client that cares, once, and does
nothing else. -/
theorem announces_once_to_each (ht : s.topics.lookup t = some topic)
    (hopen : ∀ c client, s.clients.lookup c = some client → client.Listens) :
    ∃ s', (announceTopic o t none).exec s = .ok (.ok (), s') ∧ s' = { s with clients := s'.clients } ∧
      ∀ c, (s.Cares c topic.name → s'.clients.lookup c =
          (s.clients.lookup c).map fun client => client.hears t (announceOf t topic)) ∧
        (¬s.Cares c topic.name → s'.clients.lookup c = s.clients.lookup c) := by
  obtain ⟨r, s', hx, hheard, -, hr⟩ := total_announceTopic.ends
    (ends_and (ends_announceTopic_heard (o := o) ht) (told_announceTopic (o := o) ht))
  have hok : r = .ok () := by rw [hr, meets_of_listens hopen, sendEnd, if_neg Bool.false_ne_true]
  subst hok
  have h := hheard rfl
  refine ⟨s', hx, h.rest, fun c => ⟨fun hcares => ?_, fun hcares => ?_⟩⟩
  · exact h.heard c ((mem_hearers ht).mpr hcares)
  · exact h.others c fun hmem => hcares ((mem_hearers ht).mp hmem)

/-- A client with two subscriptions to a topic, and one more to it whose client is gone. -/
def overlapping : List Op :=
  [.connectClient ⟨.v4 10 0 0 2 5810, "a"⟩, .connectClient ⟨.v4 10 0 0 3 5810, "b"⟩,
    .subscribe ⟨0, {"x"}, none⟩ 1 0, .subscribe ⟨1, {"x", "y"}, none⟩ 1 0,
    .subscribe ⟨0, {"x"}, none⟩ 2 0, .disconnectClient ⟨.v4 10 0 0 3 5810, "b"⟩,
    .innerPublishTopic ⟨"x", 0, "int", none⟩ serverClientIdx]

theorem announces_once_to_overlapping :
    ∃ s s' client, Reachable s ∧ (announceTopic .stored 7 none).exec s = .ok (.ok (), s') ∧
      s.Cares 1 "x" ∧ s.Cares 2 "x" ∧ s.clients.lookup 2 = none ∧
      s.clients.lookup 1 = some client ∧
      s'.clients.lookup 1 = some (client.hears 7 ⟨"x", 7, "int", none, {}⟩) := by
  have hrun : (stateAfter anyOp .stored overlapping).bind (fun s =>
      (s.subscriptions.lookup 1).bind fun sub => (s.subscriptions.lookup 2).bind fun orphan =>
        (s.clients.lookup 1).map fun client => (s.topics.lookup 7, sub.2, orphan.2,
          sub.1.caresAbout "x" && orphan.1.caresAbout "x" && (s.clients.lookup 2).isNone &&
          s.clients.pairs.all fun e => (e.2.subOuput.map Outgoing.isOpen).getD true)) =
      some (some ⟨"x", "int", none⟩, 1, 2, true) := by decide +kernel
  obtain ⟨s, hs, hview⟩ := Option.bind_eq_some_iff.mp hrun
  obtain ⟨⟨sub, d⟩, hsub, hview⟩ := Option.bind_eq_some_iff.mp hview
  obtain ⟨⟨orphan, e⟩, horphan, hview⟩ := Option.bind_eq_some_iff.mp hview
  obtain ⟨client, hc, hview⟩ := Option.map_eq_some_iff.mp hview
  simp only [Prod.mk.injEq, Bool.and_eq_true] at hview
  obtain ⟨ht, rfl, rfl, ⟨⟨hcares, hcared⟩, hgone⟩, hall⟩ := hview
  have hopen : ∀ c client, s.clients.lookup c = some client → client.Listens := by
    intro c client hc ch hch
    have h := List.all_eq_true.mp hall (c, client) ((KeyMap.mem_pairs _ _ _).mpr hc)
    simpa [hch] using h
  obtain ⟨s', hx, -, hclients⟩ := announces_once_to_each (o := .stored) ht hopen
  have hsubscriber : s.Cares 1 "x" := ⟨1, sub, hsub, hcares⟩
  refine ⟨s, s', client, reachable_stateAfter hs, hx, hsubscriber, ⟨2, orphan, horphan, hcared⟩,
    by simpa using hgone, hc, ?_⟩
  rw [(hclients 1).1 hsubscriber, hc]
  rfl

end NetTables.Server
