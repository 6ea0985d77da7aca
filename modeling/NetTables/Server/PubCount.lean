import NetTables.Server.Soundness
import NetTables.Server.TopicTable
import NetTables.Server.Withdrawals

namespace NetTables.Server

open Lib Lib.Fallible Spec

variable {s s' u : InnerServer} {e : Option Event} {op : Op} {o : IterOrder} {c : ClientIdx}
  {t : TopicIdx} {client : ConnectedClient} {ident : ClientIdentity}

/-- No turn of the loop of `disconnect_client` finds a count that is zero already. -/
def ReleasesWell : List (PubUID × TopicIdx) → InnerServer → Prop
  | [], _ => True
  | e :: l, u => u.pubCount.lookup e.2 ≠ some 0 ∧
      ∀ u', (releasePublisher e.2).exec u = .ok (.ok (), u') → ReleasesWell l u'

/-- No `*count -= 1` of the operation finds a zero. -/
def CountsWell (s : InnerServer) : Op → Prop
  | .innerUnpublishTopic pubTopic c => ∀ client t, s.clients.lookup c = some client →
      client.pubuidToTopicidx.getByLeft pubTopic.pubuid = some t → s.pubCount.lookup t ≠ some 0
  | .disconnectClient ident => ∀ (o : IterOrder) c client, s.clientMap.lookup ident = some c →
      s.clients.lookup c = some client →
      ReleasesWell (o.walk client.pubuidToTopicidx.iterLr) (s.withoutClient ident c client)
  | _ => True

/-- The operation leaves no registration beside a count of zero: the last publication that is
counted removes the topic and its count, or nobody else has it registered; and a client that goes
has no more registrations than are counted, unless the removal fails and ends the loop. -/
structure KeepsCounts (s : InnerServer) (op : Op) : Prop where
  unpublished : ∀ pubTopic c client t, op = .innerUnpublishTopic pubTopic c →
    s.clients.lookup c = some client → client.pubuidToTopicidx.getByLeft pubTopic.pubuid = some t →
    s.pubCount.lookup t = some 1 →
      s.tables.Removable t ∨ ∀ f ∈ s.publishers t, f = (c, pubTopic.pubuid)
  left : ∀ ident c client t n, op = .disconnectClient ident → s.clientMap.lookup ident = some c →
    s.clients.lookup c = some client → 0 < client.registrations t →
    s.pubCount.lookup t = some n → n.toNat ≤ client.registrations t →
      (∀ f ∈ s.publishers t, f.1 = c) ∧
        (client.registrations t ≤ n.toNat ∨ ¬s.tables.Removable t)

/-- A count of zero is the count of a topic that is gone, and that nobody has registered. -/
structure Settled (s : InnerServer) : Prop where
  unregistered : ∀ t, s.pubCount.lookup t = some 0 → s.publishers t = ∅
  gone : ∀ t, s.pubCount.lookup t = some 0 → t ∉ s.topics

/-- With fewer topics and registrations, all that matters is which counts are newly zero. -/
theorem Settled.fewer (h : Settled s) (htopics : ∀ t, t ∈ s'.topics → t ∈ s.topics)
    (hpub : ∀ t, s'.publishers t ⊆ s.publishers t)
    (hzero : ∀ t, s'.pubCount.lookup t = some 0 →
      s.pubCount.lookup t = some 0 ∨ t ∉ s'.topics ∧ s'.publishers t = ∅) : Settled s' := by
  constructor
  · intro t ht
    rcases hzero t ht with hold | ⟨-, hnone⟩
    · have hsub := hpub t
      rwa [h.unregistered t hold, Finset.subset_empty] at hsub
    · exact hnone
  · intro t ht hmem
    rcases hzero t ht with hold | ⟨hgone, -⟩
    · exact h.gone t hold (htopics t hmem)
    · exact hgone hmem

/-- Only a lowered count can become zero. -/
theorem Settled.step (h : Settled s) (he : Effect s e s') (hcount : e ≠ some .count) :
    Settled s' := by
  by_cases hreg : ∃ c pubuid name, e = some (.registered c pubuid name)
  · obtain ⟨c, pubuid, name, heq⟩ := hreg
    subst heq
    cases he with
    | @registered _ client _ t topic _ hc ht hmap =>
      refine ⟨fun r hzero => ?_, h.gone⟩
      apply Finset.eq_empty_of_forall_notMem
      intro f hf
      rcases mem_publishers_registered hc rfl hf with ⟨-, heq⟩ | ⟨-, hf⟩
      · subst heq
        exact h.gone r hzero ((KeyMap.mem_iff_lookup _ _).mpr ⟨topic, ht⟩)
      · rw [h.unregistered r hzero] at hf
        cases hf
  · push Not at hreg
    have hpub := publishers_subset he hreg
    cases he with
    | topicAdded topic =>
      have hold : ∀ r, (s.withTopic topic).pubCount.lookup r = some 0 →
          r ≠ s.counters.topicIdx ∧ s.pubCount.lookup r = some 0 := by
        intro r hr
        simp only [InnerServer.withTopic, KeyMap.lookup_insert] at hr
        split_ifs at hr with hidx himplicit
        · cases hr
        · cases hr
        · exact ⟨hidx, hr⟩
      constructor
      · intro r hr
        have hsub := hpub r
        rwa [h.unregistered r (hold r hr).2, Finset.subset_empty] at hsub
      · intro r hr hmem
        obtain ⟨hidx, hzero⟩ := hold r hr
        exact h.gone r hzero (((AList.mem_insert _).mp hmem).resolve_left hidx)
    | topicRemoved =>
      refine h.fewer (fun r hr => ?_) hpub fun _ hr => .inl hr
      obtain ⟨topic, ht⟩ := (KeyMap.mem_iff_lookup _ _).mp hr
      exact (KeyMap.mem_iff_lookup _ _).mpr ⟨topic, (lookup_topics_withoutTopic.mp ht).2.2.2⟩
    | topicLost | topicHalfLost =>
      exact h.fewer (fun r hr => (AList.mem_erase.mp hr).2) hpub fun _ hr => .inl hr
    | propertiesSet properties ht =>
      refine h.fewer (fun r hr => ?_) hpub fun _ hr => .inl hr
      rcases (AList.mem_insert _).mp hr with heq | hr
      · rw [heq]
        exact (KeyMap.mem_iff_lookup _ _).mpr ⟨_, ht⟩
      · exact hr
    | registered => exact (hreg _ _ _ rfl).elim
    | countLowered | countErased => exact (hcount rfl).elim
    | _ => exact h.fewer (fun _ hr => hr) hpub fun _ hr => .inl hr

section Unpublish

variable {pubTopic : UnpublishTopic} {pubuid : PubUID}

/-- A registration is counted. -/
theorem Settled.counts (h : Settled s) (hc : s.clients.lookup c = some client)
    (hp : client.pubuidToTopicidx.getByLeft pubuid = some t) : s.pubCount.lookup t ≠ some 0 := by
  intro hn
  have hmem : (c, pubuid) ∈ s.publishers t := mem_publishers.mpr ⟨client, hc, hp⟩
  rw [h.unregistered t hn] at hmem
  cases hmem

theorem mem_publishers_uncounted {r : TopicIdx} {f : ClientIdx × PubUID}
    (hc : s.clients.lookup c = some client)
    (hs : s'.clients = (s.uncounted c client pubuid).clients) (hf : f ∈ s'.publishers r) :
    f ≠ (c, pubuid) ∧ f ∈ s.publishers r := by
  have hsame : s'.publishers r = (s.unregistered c client pubuid r 0).publishers r := by
    simp only [InnerServer.publishers, hs, InnerServer.uncounted, InnerServer.unregistered]
  rw [hsame] at hf
  exact (mem_publishers_unregistered hc).mp hf

/-- The last publication that is counted, where the topic cannot be removed. -/
theorem Settled.kept (h : Settled s) (hg : KeepsCounts s (.innerUnpublishTopic pubTopic c))
    (hc : s.clients.lookup c = some client)
    (hp : client.pubuidToTopicidx.getByLeft pubTopic.pubuid = some t)
    (hn : s.pubCount.lookup t = some 1) (hnot : ¬s.tables.Removable t)
    (hs : s'.clients = (s.uncounted c client pubTopic.pubuid).clients)
    (hcount : s'.pubCount = s.pubCount.insert t (1 - 1)) (hgone : t ∉ s'.topics)
    (htopics : ∀ r, r ∈ s'.topics → r ∈ s.topics) : Settled s' := by
  have honly := (hg.unpublished pubTopic c client t rfl hc hp hn).resolve_left hnot
  refine h.fewer htopics (fun r f hf => (mem_publishers_uncounted hc hs hf).2) fun r hr => ?_
  rw [hcount, KeyMap.lookup_insert] at hr
  split_ifs at hr with heq
  · subst heq
    refine .inr ⟨hgone, Finset.eq_empty_of_forall_notMem fun f hf => ?_⟩
    obtain ⟨hne, hf⟩ := mem_publishers_uncounted hc hs hf
    exact hne (honly f hf)
  · exact .inl hr

theorem settled_innerUnpublishTopic (h : Settled s)
    (hg : KeepsCounts s (.innerUnpublishTopic pubTopic c))
    (hs : Unpublication s pubTopic.pubuid c s') : Settled s' := by
  cases hs with
  | refused => exact h
  | uncounted hc =>
    exact h.fewer (fun _ hr => hr) (fun r f hf => (mem_publishers_uncounted hc rfl hf).2)
      fun _ hr => .inl hr
  | lowered hc hp hn hcount =>
    refine h.fewer (fun _ hr => hr) (fun r f hf => (mem_publishers_uncounted hc rfl hf).2)
      fun r hr => .inl ?_
    simp only [InnerServer.unregistered, KeyMap.lookup_insert] at hr
    split_ifs at hr
    · exact (hcount (uint16_pred_eq_zero (Option.some.inj hr))).elim
    · exact hr
  | missing hc hp hn ht =>
    refine h.kept hg hc hp hn ?_ rfl rfl (fun hmem => ?_) fun _ hr => hr
    · intro hr
      obtain ⟨topic, -, -, ht', -⟩ := hr
      rw [show s.topics.lookup _ = some topic from ht'] at ht
      cases ht
    · obtain ⟨topic, ht'⟩ := (KeyMap.mem_iff_lookup _ _).mp hmem
      rw [show s.topics.lookup _ = some topic from ht'] at ht
      cases ht
  | lost hc hp hn ht hpub =>
    refine h.kept hg hc hp hn ?_ rfl rfl (fun hmem => (AList.mem_erase.mp hmem).1 rfl)
      fun r hr => (AList.mem_erase.mp hr).2
    intro hr
    obtain ⟨topic, p, -, ht', hp', -⟩ := hr
    rw [show s.topics.lookup _ = some topic from ht'] at ht
    cases ht
    rw [show s.topicMap.lookup _ = some p from hp'] at hpub
    cases hpub
  | halfLost hc hp hn ht hpub hsub =>
    refine h.kept hg hc hp hn ?_ rfl rfl (fun hmem => (AList.mem_erase.mp hmem).1 rfl)
      fun r hr => (AList.mem_erase.mp hr).2
    intro hr
    obtain ⟨topic, -, q, ht', -, hq'⟩ := hr
    rw [show s.topics.lookup _ = some topic from ht'] at ht
    cases ht
    rw [show s.topicMap.lookup _ = some q from hq'] at hsub
    cases hsub
  | @removed client t topic p q hc =>
    refine h.fewer (fun r hr => ?_) (fun r f hf => (mem_publishers_uncounted hc rfl hf).2)
      fun r hr => .inl ?_
    · have hr : r ∈ ((s.topics.erase t).erase p).erase q := hr
      exact (AList.mem_erase.mp (AList.mem_erase.mp (AList.mem_erase.mp hr).2).2).2
    · simp only [KeyMap.lookup_erase, KeyMap.lookup_insert] at hr
      split_ifs at hr
      exact hr

end Unpublish

section Disconnect

variable {l : List (PubUID × TopicIdx)} {f : PubUID × TopicIdx} {count : UInt16}

theorem ends_removeTopic_shrunk :
    Ends (removeTopic t) s fun r s' =>
      Shrunk s s' ∧ t ∉ s'.topics ∧ (r = .ok () → s.tables.Removable t) := by
  have hsame : Shrunk s s := .refl s
  refine ends_removeTopic.mpr ⟨fun ht => ⟨hsame, fun hmem => ?_, nofun⟩, fun topic ht =>
    ⟨fun hp => ⟨?_, fun hmem => (AList.mem_erase.mp hmem).1 rfl, nofun⟩, fun p hp =>
      ⟨fun hq => ⟨?_, fun hmem => (AList.mem_erase.mp hmem).1 rfl, nofun⟩, fun q hq =>
        ⟨?_, fun hmem => ?_, fun _ => ⟨topic, p, q, ht, hp, hq⟩⟩⟩⟩⟩
  · obtain ⟨topic, ht'⟩ := (KeyMap.mem_iff_lookup _ _).mp hmem
    rw [ht] at ht'
    cases ht'
  · exact hsame.step (.topicLost ht hp) nofun
  · exact hsame.step (.topicHalfLost ht hp hq) nofun
  · exact hsame.step (.topicRemoved ht hp hq) nofun
  · obtain ⟨topic', ht'⟩ := (KeyMap.mem_iff_lookup _ _).mp hmem
    exact (lookup_topics_withoutTopic.mp ht').1 rfl

/-- The loop of `disconnect_client`, with `l` still to be released: a count has sunk by just the
releases made so far. -/
structure Lowered (c : ClientIdx) (client : ConnectedClient) (s : InnerServer)
    (l : List (PubUID × TopicIdx)) (u : InnerServer) : Prop where
  bounded : ∀ t, remaining l t ≤ client.registrations t
  counts : ∀ t n', u.pubCount.lookup t = some n' → ∃ n, s.pubCount.lookup t = some n ∧
    n.toNat + remaining l t = n'.toNat + client.registrations t
  gone : ∀ t, u.pubCount.lookup t = some 0 → t ∉ u.topics
  shrunk : Shrunk s u
  clients : u.clients = s.clients.erase c

/-- As long as the loop goes on, the removals have gone through. -/
def Removed (client : ConnectedClient) (s u : InnerServer) : Prop :=
  ∀ t, u.pubCount.lookup t = some 0 → 0 < client.registrations t → s.tables.Removable t

theorem Lowered.finds (h : Lowered c client s (f :: l) u) (hr : Removed client s u)
    (hident : s.clientMap.lookup ident = some c) (hc : s.clients.lookup c = some client)
    (hg : KeepsCounts s (.disconnectClient ident)) : u.pubCount.lookup f.2 ≠ some 0 := by
  intro hzero
  obtain ⟨n, hn, hcount⟩ := h.counts f.2 0 hzero
  have hbounded := h.bounded f.2
  have hnat : (0 : UInt16).toNat = 0 := rfl
  rw [remaining_cons, if_pos rfl] at hcount hbounded
  have hpos : 0 < client.registrations f.2 := by omega
  rcases (hg.left ident c client f.2 n rfl hident hc hpos hn (by omega)).2 with hle | hnot
  · omega
  · exact hnot (hr f.2 hzero hpos)

theorem Lowered.skip (h : Lowered c client s (f :: l) u) (hn : u.pubCount.lookup f.2 = none) :
    Lowered c client s l u where
  bounded t := by
    have hb := h.bounded t
    rw [remaining_cons] at hb
    omega
  counts t n' hn' := by
    have hne : ¬f.2 = t := by
      intro heq
      subst heq
      rw [hn] at hn'
      cases hn'
    obtain ⟨n, hs, hcount⟩ := h.counts t n' hn'
    rw [remaining_cons, if_neg hne] at hcount
    exact ⟨n, hs, hcount⟩
  gone := h.gone
  shrunk := h.shrunk
  clients := h.clients

/-- One release, whether the topic is to be removed or not. -/
theorem Lowered.release (h : Lowered c client s (f :: l) u)
    (hn : u.pubCount.lookup f.2 = some count) (hcount : count ≠ 0) {u' : InnerServer}
    (hcounts : u'.pubCount = u.pubCount.insert f.2 (count - 1)) (hshrunk : Shrunk u u')
    (hclients : u'.clients = u.clients) (hgone : count - 1 = 0 → f.2 ∉ u'.topics) :
    Lowered c client s l u' where
  bounded t := by
    have hb := h.bounded t
    rw [remaining_cons] at hb
    omega
  counts t n' hn' := by
    rw [hcounts, KeyMap.lookup_insert] at hn'
    split_ifs at hn' with ht
    · subst ht
      cases hn'
      obtain ⟨n, hs, hsum⟩ := h.counts f.2 count hn
      rw [remaining_cons, if_pos rfl] at hsum
      have hpred := uint16_toNat_pred hcount
      exact ⟨n, hs, by omega⟩
    · obtain ⟨n, hs, hsum⟩ := h.counts t n' hn'
      rw [remaining_cons, if_neg (Ne.symm ht)] at hsum
      exact ⟨n, hs, hsum⟩
  gone t ht := by
    rw [hcounts, KeyMap.lookup_insert] at ht
    split_ifs at ht with heq
    · subst heq
      exact hgone (Option.some.inj ht)
    · exact hshrunk.not_mem (h.gone t ht)
  shrunk := h.shrunk.trans hshrunk
  clients := hclients.trans h.clients

theorem Shrunk.removable (h : Shrunk s u) (hr : u.tables.Removable t) : s.tables.Removable t := by
  obtain ⟨topic', p, q, ht, hp, hq⟩ := hr
  obtain ⟨topic, ht, hname⟩ := h.topics t topic' ht
  refine ⟨topic, p, q, ht, ?_, ?_⟩
  · rw [hname]
    exact h.map _ p hp
  · rw [hname]
    exact h.map _ q hq

/-- A turn of the loop that finds its count; if it succeeds, the loop goes on. -/
theorem ends_releasePublisher_lowered (h : Lowered c client s (f :: l) u)
    (hr : Removed client s u) (hfinds : u.pubCount.lookup f.2 ≠ some 0) :
    Ends (releasePublisher f.2) u fun r u' =>
      Lowered c client s l u' ∧ (r = .ok () → Removed client s u') := by
  refine ends_releasePublisher.mpr ⟨fun hn => ⟨h.skip hn, fun _ => hr⟩, fun count hn => ?_⟩
  have hcount : count ≠ 0 := by
    intro hzero
    subst hzero
    exact hfinds hn
  split_ifs with hzero
  · refine ends_mono (ends_and ends_removeTopic_shrunk ends_removeTopic_frame) ?_
    intro r u' hu
    obtain ⟨⟨hshrunk, hgone, hok⟩, hcounts, -, hclients, -⟩ := hu
    have hshrunk : Shrunk u u' := ⟨hshrunk.map, hshrunk.topics⟩
    refine ⟨h.release hn hcount hcounts hshrunk hclients fun _ => hgone, fun hr' t ht hpos => ?_⟩
    rw [hcounts] at ht
    simp only [KeyMap.lookup_insert] at ht
    split_ifs at ht with heq
    · subst heq
      exact h.shrunk.removable (hok hr')
    · exact hr t ht hpos
  · refine ⟨h.release hn hcount rfl ⟨fun _ _ h => h, fun _ topic ht => ⟨topic, ht, rfl⟩⟩ rfl
      fun hz => (hzero hz).elim, fun _ t ht hpos => ?_⟩
    simp only [KeyMap.lookup_insert] at ht
    split_ifs at ht with heq
    · exact (hzero (Option.some.inj ht)).elim
    · exact hr t ht hpos

/-- The loop never lowers a zero. -/
theorem Lowered.releasesWell (h : Lowered c client s l u) (hr : Removed client s u)
    (hident : s.clientMap.lookup ident = some c) (hc : s.clients.lookup c = some client)
    (hg : KeepsCounts s (.disconnectClient ident)) : ReleasesWell l u := by
  induction l generalizing u with
  | nil => trivial
  | cons f l ih =>
    have hfinds := h.finds hr hident hc hg
    refine ⟨hfinds, fun u' hx => ?_⟩
    obtain ⟨hnext, hok⟩ := ends_of_exec (ends_releasePublisher_lowered h hr hfinds) hx
    exact ih hnext (hok rfl)

theorem ends_releasePublishers_lowered (h : Lowered c client s l u) (hr : Removed client s u)
    (hident : s.clientMap.lookup ident = some c) (hc : s.clients.lookup c = some client)
    (hg : KeepsCounts s (.disconnectClient ident)) :
    Ends (forEach l fun f => releasePublisher f.2) u fun _ u' =>
      ∃ l', Lowered c client s l' u' := by
  induction l generalizing u with
  | nil => exact (ends_pure ()).mpr ⟨[], h⟩
  | cons f l ih =>
    have hfinds := h.finds hr hident hc hg
    refine (ends_bind _ _).mpr (ends_mono (ends_releasePublisher_lowered h hr hfinds) ?_)
    intro r u' hu
    cases r with
    | error e => exact ⟨l, hu.1⟩
    | ok => exact ih hu.1 (hu.2 rfl)

theorem lowered_start (h : Settled s) (hc : s.clients.lookup c = some client) :
    Lowered c client s (o.walk client.pubuidToTopicidx.iterLr) (s.withoutClient ident c client) ∧
      Removed client s (s.withoutClient ident c client) := by
  have hperm : ∀ t, remaining (o.walk client.pubuidToTopicidx.iterLr) t =
      client.registrations t := fun t => (o.perm _).countP_eq _
  refine ⟨⟨fun t => (hperm t).le, fun t n' hn' => ⟨n', hn', ?_⟩, h.gone,
    ⟨fun _ _ h => h, fun _ topic ht => ⟨topic, ht, rfl⟩⟩, rfl⟩, fun t hzero hpos => ?_⟩
  · rw [hperm]
  · rw [← card_publishers_of_client hc, h.unregistered t hzero] at hpos
    cases hpos

/-- Removals leave what the loop has come to. -/
theorem Lowered.removal {u' : InnerServer} (h : Lowered c client s l u) (hshrunk : Shrunk u u')
    (hcounts : u'.pubCount = u.pubCount) (hclients : u'.clients = u.clients) :
    Lowered c client s l u' where
  bounded := h.bounded
  counts t n' hn' := h.counts t n' (hcounts ▸ hn')
  gone t ht := hshrunk.not_mem (h.gone t (hcounts ▸ ht))
  shrunk := h.shrunk.trans hshrunk
  clients := hclients.trans h.clients

theorem ends_removeTopic_lowered (h : Lowered c client s l u) :
    Ends (removeTopic t) u fun _ u' => Lowered c client s l u' := by
  refine ends_mono (ends_and ends_removeTopic_shrunk ends_removeTopic_frame) ?_
  intro r u' hu
  exact h.removal hu.1.1 hu.2.1 hu.2.2.2.1

theorem ends_disconnectClient_lowered (h : Settled s)
    (hident : s.clientMap.lookup ident = some c) (hc : s.clients.lookup c = some client)
    (hg : KeepsCounts s (.disconnectClient ident)) :
    Ends (disconnectClient o ident) s fun _ s' => ∃ l, Lowered c client s l s' := by
  simp only [disconnectClient, hident, ends_bind, ends_get, thenEnds_ok, ends_okOr,
    ends_modify, hc, Option.some.injEq, forall_eq', reduceCtorEq, false_implies, and_true]
  have hstart : Lowered c client s (o.walk client.pubuidToTopicidx.iterLr)
      (s.withoutClient ident c client) ∧ Removed client s (s.withoutClient ident c client) :=
    lowered_start h hc
  refine ends_mono (ends_releasePublishers_lowered hstart.1 hstart.2 hident hc hg) ?_
  intro r u hu
  obtain ⟨l, hu⟩ := hu
  cases r with
  | error e => exact ⟨l, hu⟩
  | ok =>
    have hown : Lowered c client s l
        { u with clientMetatopicMap := u.clientMetatopicMap.erase c } :=
      hu.removal ⟨fun _ _ h => h, fun _ topic ht => ⟨topic, ht, rfl⟩⟩ rfl rfl
    simp only [thenEnds_ok, ends_bind, ends_get, ends_modify]
    cases u.clientMetatopicMap.lookup c with
    | none => exact (ends_pure ()).mpr ⟨l, hown⟩
    | some own =>
      simp only [ends_bind]
      refine ends_mono (ends_removeTopic_lowered hown) ?_
      intro r u₁ hu₁
      cases r with
      | error e => exact ⟨l, hu₁⟩
      | ok => exact ends_mono (ends_removeTopic_lowered hu₁) fun _ _ h => ⟨l, h⟩

/-- Where the loop ends, a zero has been lowered for the client alone. -/
theorem Lowered.settled (h : Lowered c client s l u) (hs : Settled s)
    (hident : s.clientMap.lookup ident = some c) (hc : s.clients.lookup c = some client)
    (hg : KeepsCounts s (.disconnectClient ident)) : Settled u := by
  refine ⟨fun t hzero => Finset.eq_empty_of_forall_notMem fun e he => ?_, h.gone⟩
  have hsame : u.publishers t = (s.withoutClient ident c client).publishers t := by
    rw [InnerServer.publishers, h.clients]
    rfl
  rw [hsame] at he
  obtain ⟨hne, he⟩ := mem_publishers_withoutClient.mp he
  obtain ⟨n, hn, hcount⟩ := h.counts t 0 hzero
  have hnat : (0 : UInt16).toNat = 0 := rfl
  by_cases hpos : 0 < client.registrations t
  · exact hne ((hg.left ident c client t n rfl hident hc hpos hn (by omega)).1 e he)
  · have hn0 : n = 0 := UInt16.toNat_inj.mp (by omega)
    rw [hn0] at hn
    rw [hs.unregistered t hn] at he
    cases he

theorem settled_disconnectClient (h : Settled s) (hg : KeepsCounts s (.disconnectClient ident)) :
    Ends (disconnectClient o ident) s fun _ s' => Settled s' := by
  cases hident : s.clientMap.lookup ident with
  | none => simpa [disconnectClient, hident] using h
  | some c =>
    cases hc : s.clients.lookup c with
    | none =>
      have hstep : Settled { s with clientMap := s.clientMap.erase ident } :=
        h.step (.identityErased hident hc) (by simp)
      simpa [disconnectClient, hident, hc] using hstep
    | some client =>
      refine ends_mono (ends_disconnectClient_lowered h hident hc hg) ?_
      intro r s' hs
      obtain ⟨l, hs⟩ := hs
      exact hs.settled h hident hc hg

end Disconnect

theorem Settled.perform (h : Settled s) (hg : KeepsCounts s op) (hop : Step s op s') :
    Settled s' := by
  by_cases hw : op.Withdraws
  · obtain ⟨o, r, hx⟩ := hop
    cases op with
    | innerUnpublishTopic pubTopic c =>
      exact settled_innerUnpublishTopic h hg (ends_of_exec ends_innerUnpublishTopic hx)
    | disconnectClient ident => exact ends_of_exec (settled_disconnectClient h hg) hx
    | _ => exact hw.elim
  · obtain ⟨es, hes, hall, -⟩ := hop.does
    refine hes.invariant Settled (op.MayDo s) hall ?_ h
    intro u e u' he hp hu
    exact hu.step he fun heq => hw (hp _ heq)

theorem settled_of_run {k : Kind → Nat} (run : RunWhere KeepsCounts k s) : Settled s := by
  refine run.invariant (fun _ => Settled) ?_ ?_
  · intro s hs
    obtain ⟨es, hes, hall, -⟩ := hs.does
    refine hes.invariant Settled IsTopic hall ?_ ⟨fun t hzero => ?_, fun t hzero => ?_⟩
    · intro u e u' he hp hu
      refine hu.step he fun heq => ?_
      obtain ⟨name, hname⟩ := hp _ heq
      cases hname
    · cases hzero
    · cases hzero
  · intro _ s op s' _ ih hg hop
    exact ih.perform hg hop

/-- In a run whose operations leave no registration beside a count of zero, no operation finds a
zero where it lowers a count. -/
theorem pubCount_never_underflows {k : Kind → Nat} (run : RunWhere KeepsCounts k s)
    (hg : KeepsCounts s op) : CountsWell s op := by
  have hsettled := settled_of_run run
  cases op with
  | innerUnpublishTopic pubTopic c =>
    intro client t hc hp
    exact hsettled.counts hc hp
  | disconnectClient ident =>
    intro o c client hident hc
    obtain ⟨hstart, hremoved⟩ := lowered_start hsettled hc
    exact hstart.releasesWell hremoved hident hc hg
  | _ => trivial

theorem keepsCounts_of_isAdding (s : InnerServer) (op : Op) (h : isAdding s op = true) :
    KeepsCounts s op := by
  cases op with
  | connectClient | innerPublishTopic => exact ⟨nofun, nofun⟩
  | _ => cases h

theorem pubCount_never_underflows_connectAndPublish :
    ∃ s client, stateAfter isAdding .stored connectAndPublish = some s ∧
      s.clients.lookup 1 = some client ∧ client.pubuidToTopicidx.getByLeft 0 = some 5 ∧
      CountsWell s (.innerUnpublishTopic ⟨0⟩ 1) := by
  have hrun : (stateAfter isAdding .stored connectAndPublish).bind (fun s =>
      (s.clients.lookup 1).map fun client =>
        (client.pubuidToTopicidx.getByLeft 0, (s.tables.remove 5).isSome)) =
      some (some 5, true) := by decide +kernel
  obtain ⟨s, hs, hview⟩ := Option.bind_eq_some_iff.mp hrun
  obtain ⟨client, hc, hview⟩ := Option.map_eq_some_iff.mp hview
  simp only [Prod.mk.injEq] at hview
  obtain ⟨hp, hremove⟩ := hview
  have hremovable : s.tables.Removable 5 := by
    by_contra hnot
    rw [TopicTables.remove_eq_none.mpr hnot] at hremove
    cases hremove
  obtain ⟨k, run, -⟩ := runWhere_stateAfter keepsCounts_of_isAdding hs
  refine ⟨s, client, hs, hc, hp, pubCount_never_underflows run ⟨?_, by simp⟩⟩
  intro pubTopic c client' t heq hc' hp' _
  cases heq
  rw [hc] at hc'
  cases hc'
  have hsame : some 5 = some t := hp.symm.trans hp'
  cases hsame
  exact .inl hremovable

/-- A client publishes a topic under two `pubuid`s. -/
def publishUnderTwo : List Op :=
  [.connectClient ⟨.v4 10 0 0 2 5810, "a"⟩, .innerPublishTopic ⟨"x", 0, "int", none⟩ 1,
    .innerPublishTopic ⟨"x", 1, "int", none⟩ 1]

/-- The topic has one count for both; the first release takes it to zero and leaves it. -/
theorem disconnect_underflows_count :
    ¬∀ s, Reachable s → ∀ op, CountsWell s op := by
  intro h
  have hrun : (stateAfter anyOp .stored publishUnderTwo).bind (fun s =>
      (s.clients.lookup 1).map fun client =>
        (s.clientMap.lookup ⟨.v4 10 0 0 2 5810, "a"⟩,
          (IterOrder.stored.walk client.pubuidToTopicidx.iterLr).map Prod.snd,
          ((releasePublisher 5).exec
            (s.withoutClient ⟨.v4 10 0 0 2 5810, "a"⟩ 1 client)).toOption.bind fun r =>
              if r.1.toBool then r.2.pubCount.lookup 5 else none)) = some (some 1, [5, 5], some 0) := by decide +kernel
  obtain ⟨s, hs, hview⟩ := Option.bind_eq_some_iff.mp hrun
  obtain ⟨client, hc, hview⟩ := Option.map_eq_some_iff.mp hview
  simp only [Prod.mk.injEq] at hview
  obtain ⟨hident, hwalk, hrelease⟩ := hview
  have hwell := h s (reachable_stateAfter hs) (.disconnectClient _) .stored 1 client hident hc
  obtain ⟨e, l, hl, he, hrest⟩ := List.map_eq_cons_iff.mp hwalk
  obtain ⟨f, l', hl', hf, -⟩ := List.map_eq_cons_iff.mp hrest
  rw [hl, hl'] at hwell
  obtain ⟨-, hnext⟩ := hwell
  rw [he] at hnext
  cases hx : (releasePublisher 5).exec
      (s.withoutClient ⟨.v4 10 0 0 2 5810, "a"⟩ 1 client) with
  | error e =>
    rw [hx] at hrelease
    cases hrelease
  | ok r =>
    obtain ⟨r, u⟩ := r
    rw [hx] at hrelease
    cases r with
    | error e => cases hrelease
    | ok =>
      obtain ⟨hfinds, -⟩ := hnext u hx
      rw [hf] at hfinds
      exact hfinds hrelease

end NetTables.Server
