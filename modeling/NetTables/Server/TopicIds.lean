import NetTables.Server.Announcements
import NetTables.Server.Soundness

namespace NetTables.Server

open Lib Lib.Fallible Spec

variable {s s' : InnerServer} {e : Option Event} {op : Op} {c : ClientIdx} {t : TopicIdx}
  {client client' : ConnectedClient} {ch : Outgoing} {a : Announce}
  {name name' : TopicIdx → Option String} {log : List (InnerServer × Op)}

/-- A channel of the server has been told the announcement. -/
def InnerServer.HasTold (s : InnerServer) (a : Announce) : Prop :=
  ∃ ch, s.Channel ch ∧ .announce a ∈ ch.told

/-- The tables and the channels use each index for the name that the naming gives it. -/
structure Agrees (name : TopicIdx → Option String) (s : InnerServer) : Prop where
  map : ∀ n t, s.topicMap.lookup n = some t → name t = some n
  topics : ∀ t topic, s.topics.lookup t = some topic → name t = some topic.name
  told : ∀ a, s.HasTold a → ∃ t, a.id = t.toInt32 ∧ name t = some a.name

/-- No index that is still to be given out has a name. -/
def Unborn (name : TopicIdx → Option String) (s : InnerServer) : Prop :=
  ∀ t, s.counters.topicIdx.toNat ≤ t.toNat → name t = none

/-- A naming that says the same of the indices that have a name already. -/
def Extends (name name' : TopicIdx → Option String) : Prop :=
  ∀ t n, name t = some n → name' t = some n

theorem Agrees.extends (h : Agrees name s) (hext : Extends name name') : Agrees name' s where
  map n t hn := hext t n (h.map n t hn)
  topics t topic ht := hext t topic.name (h.topics t topic ht)
  told a ha := by
    obtain ⟨t, hid, hname⟩ := h.told a ha
    exact ⟨t, hid, hext t a.name hname⟩

theorem Agrees.named (h : Agrees name s) {n : String} (hn : s.Named n t) : name t = some n := by
  rcases hn with hn | ⟨topic, ht, hname⟩
  · exact h.map n t hn
  · rw [← hname]
    exact h.topics t topic ht

section Channels

theorem hasTold_of_channel (hc : s.clients.lookup c = some client)
    (hch : client.subOuput = some ch) (ha : .announce a ∈ ch.told) : s.HasTold a :=
  ⟨ch, .inl ⟨c, client, hc, hch⟩, ha⟩

/-- Where one client is put in, another channel had the announcement before, or its own has it. -/
theorem hasTold_insert (ha : s'.HasTold a) (hclients : s'.clients = s.clients.insert c client')
    (hdeparted : s'.departed = s.departed) :
    s.HasTold a ∨ ∃ ch, client'.subOuput = some ch ∧ .announce a ∈ ch.told := by
  obtain ⟨ch, hch, ha⟩ := ha
  rcases hch with ⟨c', client₀, hc', hch⟩ | hch
  · rw [hclients, KeyMap.lookup_insert] at hc'
    split_ifs at hc'
    · cases hc'
      exact .inr ⟨ch, hch, ha⟩
    · exact .inl (hasTold_of_channel hc' hch ha)
  · rw [hdeparted] at hch
    exact .inl ⟨ch, .inr hch, ha⟩

theorem mem_told_append {more : List OutMessage}
    (ha : .announce a ∈ ({ ch with sent := ch.sent ++ more } : Outgoing).told) :
    .announce a ∈ ch.told ∨ .announce a ∈ more.flatMap OutMessage.texts := by
  rw [Outgoing.told_append] at ha
  exact List.mem_append.mp ha

/-- An announcement that a channel has after an effect was there before, or is of a known name. -/
theorem announced_cases (he : Effect s e s') (ha : s'.HasTold a) :
    s.HasTold a ∨ ∃ t, a.id = t.toInt32 ∧ s.Named a.name t := by
  have hput : ∀ {c client'}, s'.clients = s.clients.insert c client' →
      s'.departed = s.departed →
      s.HasTold a ∨ ∃ ch, client'.subOuput = some ch ∧ .announce a ∈ ch.told :=
    fun hclients hdeparted => hasTold_insert ha hclients hdeparted
  cases he with
  | clientConnected identity =>
    rcases hput rfl rfl with hold | ⟨ch, hch, ha⟩
    · exact .inl hold
    · cases hch
      cases ha
  | registered _ hc | unregistered _ hc | marked _ hc | unsubscribed _ hc =>
    rcases hput rfl rfl with hold | ⟨ch, hch, ha⟩
    · exact .inl hold
    · exact .inl (hasTold_of_channel hc hch ha)
  | clientLeft hident hc =>
    obtain ⟨ch, hch, ha⟩ := ha
    rcases hch with ⟨c', client₀, hc', hch⟩ | ⟨client₀, hmem, hch⟩
    · simp only [InnerServer.withoutClient, KeyMap.lookup_erase] at hc'
      split_ifs at hc'
      exact .inl (hasTold_of_channel hc' hch ha)
    · rcases List.mem_cons.mp hmem with heq | hmem
      · subst heq
        exact .inl (hasTold_of_channel hc hch ha)
      · exact .inl ⟨ch, .inr ⟨client₀, hmem, hch⟩, ha⟩
  | told messages hc hch₀ hopen htells =>
    rcases hput rfl rfl with hold | ⟨ch, hch, ha⟩
    · exact .inl hold
    · cases hch
      rcases mem_told_append ha with ha | ha
      · exact .inl (hasTold_of_channel hc hch₀ ha)
      · exact .inr (htells.1 a (by simpa [OutMessage.texts] using ha))
  | flushed hc hch₀ =>
    rcases hput rfl rfl with hold | ⟨ch, hch, ha⟩
    · exact .inl hold
    · cases hch
      rcases mem_told_append ha with ha | ha
      · exact .inl (hasTold_of_channel hc hch₀ ha)
      · cases ha
  | closed hc =>
    rcases hput rfl rfl with hold | ⟨ch, hch, ha⟩
    · exact .inl hold
    · obtain ⟨ch₀, hch₀, heq⟩ := Option.map_eq_some_iff.mp hch
      subst heq
      exact .inl (hasTold_of_channel hc hch₀ ha)
  | subscribed sub now stored interest messages frames hc _ _ _ htells =>
    rcases hput rfl rfl with hold | ⟨ch, hch, ha⟩
    · exact .inl hold
    · obtain ⟨ch₀, hch₀, heq⟩ := Option.map_eq_some_iff.mp hch
      subst heq
      rw [Outgoing.append] at ha
      split_ifs at ha
      · rcases mem_told_append ha with ha | ha
        · exact .inl (hasTold_of_channel hc hch₀ ha)
        · exact .inr (htells.1 a (by simpa [OutMessage.texts] using ha))
      · exact .inl (hasTold_of_channel hc hch₀ ha)
  | batchesSent batches hi hc hch₀ =>
    rcases hput rfl rfl with hold | ⟨ch, hch, ha⟩
    · exact .inl hold
    · cases hch
      rcases mem_told_append ha with ha | ha
      · exact .inl (hasTold_of_channel hc hch₀ ha)
      · simp [OutMessage.texts, List.flatMap_map] at ha
  | _ => exact .inl ha

end Channels

section Naming

/-- An effect names at most the next index. -/
theorem Agrees.step (h : Agrees name s) (hfree : Unborn name s) (he : Effect s e s')
    (hroom : Room (· = .topic) s e.toList) :
    ∃ name', Extends name name' ∧ Agrees name' s' ∧ Unborn name' s' := by
  have htold : ∀ a, s'.HasTold a → ∃ t, a.id = t.toInt32 ∧ name t = some a.name := by
    intro a ha
    rcases announced_cases he ha with hold | ⟨t, hid, hnamed⟩
    · exact h.told a hold
    · exact ⟨t, hid, h.named hnamed⟩
  have hsame : Extends name name := fun _ _ h => h
  cases he with
  | topicAdded topic hfresh =>
    have hnone := hfree s.counters.topicIdx (le_refl _)
    have hext : Extends name (Function.update name s.counters.topicIdx (some topic.name)) := by
      intro t n ht
      have hne : t ≠ s.counters.topicIdx := by
        intro heq
        rw [heq, hnone] at ht
        cases ht
      rw [Function.update_of_ne hne]
      exact ht
    refine ⟨_, hext, ⟨fun n t hmap => ?_, fun t topic' ht => ?_, fun a ha => ?_⟩,
      fun t hle => ?_⟩
    · rcases lookup_topicMap_withTopic.mp hmap with ⟨hn, ht⟩ | ⟨-, hmap⟩
      · subst hn ht
        rw [Function.update_self]
      · exact hext t n (h.map n t hmap)
    · rcases lookup_topics_withTopic.mp ht with ⟨ht, htopic⟩ | ⟨-, ht⟩
      · subst ht htopic
        rw [Function.update_self]
      · exact hext t topic'.name (h.topics t topic' ht)
    · obtain ⟨t, hid, hname⟩ := htold a ha
      exact ⟨t, hid, hext t a.name hname⟩
    · have hlt : s.counters.topicIdx.toNat + 1 < 2 ^ 32 := hroom .topic rfl
      have hone : (1 : UInt32).toNat = 1 := rfl
      have hle : (s.counters.topicIdx + 1).toNat ≤ t.toNat := hle
      rw [UInt32.toNat_add, hone] at hle
      have hne : t ≠ s.counters.topicIdx := by
        intro heq
        subst heq
        omega
      rw [Function.update_of_ne hne]
      exact hfree t (by omega)
  | topicRemoved =>
    refine ⟨name, hsame, ⟨fun n t hmap => ?_, fun t topic' ht => ?_, htold⟩, hfree⟩
    · exact h.map n t (lookup_topicMap_withoutTopic.mp hmap).2.2.2
    · exact h.topics t topic' (lookup_topics_withoutTopic.mp ht).2.2.2
  | topicLost =>
    refine ⟨name, hsame, ⟨h.map, fun t topic' ht => ?_, htold⟩, hfree⟩
    rw [KeyMap.lookup_erase] at ht
    split_ifs at ht
    exact h.topics t topic' ht
  | topicHalfLost =>
    refine ⟨name, hsame, ⟨fun n t hmap => ?_, fun t topic' ht => ?_, htold⟩, hfree⟩
    · rw [KeyMap.lookup_erase] at hmap
      split_ifs at hmap
      exact h.map n t hmap
    · rw [KeyMap.lookup_erase] at ht
      split_ifs at ht
      exact h.topics t topic' ht
  | propertiesSet properties hu =>
    refine ⟨name, hsame, ⟨h.map, fun t topic' ht => ?_, htold⟩, hfree⟩
    obtain ⟨topic, ht, hname⟩ := lookup_insert_properties hu ht
    rw [← hname]
    exact h.topics t topic ht
  | _ => exact ⟨name, hsame, ⟨h.map, h.topics, htold⟩, hfree⟩

theorem agrees_of_effects {es : List Event} (h : Agrees name s) (hfree : Unborn name s)
    (hes : Effects s es s') (hroom : Room (· = .topic) s es) :
    ∃ name', Extends name name' ∧ Agrees name' s' ∧ Unborn name' s' := by
  refine hes.invariant_of_room
    (fun u => ∃ name', Extends name name' ∧ Agrees name' u ∧ Unborn name' u) (fun _ => True)
    (fun _ _ => trivial) hroom ?_ ⟨name, fun _ _ h => h, h, hfree⟩
  intro u e u' he _ hr hu
  obtain ⟨name₁, hext₁, hagrees, hfree₁⟩ := hu
  obtain ⟨name₂, hext₂, hu'⟩ := hagrees.step hfree₁ he hr
  exact ⟨name₂, fun t n ht => hext₂ t n (hext₁ t n ht), hu'⟩

/-- One naming does for all states of a run. -/
theorem agrees_of_logged {u : Kind → Nat} (run : LoggedRuns u (log, s)) (hu : u .topic < 2 ^ 32) :
    ∃ name, (∀ v ∈ visited log s, Agrees name v) ∧ Unborn name s := by
  have hinv := run.invariant (fun u p => u .topic < 2 ^ 32 →
    ∃ name, (∀ v ∈ visited p.1 p.2, Agrees name v) ∧ Unborn name p.2) ?_ ?_
  · exact hinv hu
  · rintro ⟨log, s⟩ ⟨rfl, hinit⟩ -
    obtain ⟨es, hes, -, hle⟩ := hinit.does
    have hbooted : Agrees (fun _ => none) booted := by
      refine ⟨fun n t hmap => ?_, fun t topic ht => ?_, fun a ha => ?_⟩
      · cases hmap
      · cases ht
      · obtain ⟨ch, hch, -⟩ := ha
        rcases hch with ⟨c, client, hc, hch⟩ | ⟨client, hmem, -⟩
        · simp only [booted, KeyMap.lookup_insert] at hc
          split_ifs at hc
          · cases hc
            cases hch
          · cases hc
        · cases hmem
    have hroom : Room (· = .topic) booted es := by
      rintro k rfl
      have hle := hle .topic
      simp only [booted, Counter.get]
      have hzero : (0 : UInt32).toNat = 0 := rfl
      omega
    obtain ⟨name, -, hagrees, hfree⟩ := agrees_of_effects hbooted (fun _ _ => rfl) hes hroom
    refine ⟨name, fun v hv => ?_, hfree⟩
    rw [List.mem_singleton.mp hv]
    exact hagrees
  · rintro u ⟨log, s⟩ op ⟨log', s'⟩ run ih - ⟨hop, rfl⟩ hu
    rw [Pi.add_apply] at hu
    obtain ⟨name, hall, hfree⟩ := ih (lt_of_le_of_lt (Nat.le_add_right ..) hu)
    have hrun : Runs u s := Lib.Run.Logged.run (p := (log, s)) run
    obtain ⟨es, hes, -, hle⟩ := hop.does
    have hroom : Room (· = .topic) s es := hrun.room hes hle fun k hk => hk ▸ hu
    have hs : Agrees name s := hall s (List.mem_append_right _ (List.mem_singleton_self s))
    obtain ⟨name', hext, hagrees, hfree'⟩ := agrees_of_effects hs hfree hes hroom
    refine ⟨name', fun v hv => ?_, hfree'⟩
    rw [visited_snoc] at hv
    rcases List.mem_append.mp hv with hv | hv
    · exact (hall v hv).extends hext
    · rw [List.mem_singleton.mp hv]
      exact hagrees

end Naming

/-- In a run that creates fewer than 2^32 topics, two announcements of one id have one name,
whenever and to whomever they are made, and no table and no channel ever uses the index of a topic,
removed or not, for another name. -/
theorem topic_ids_stable {u : Kind → Nat} (run : LoggedRuns u (log, s)) (hu : u .topic < 2 ^ 32) :
    (∀ v ∈ visited log s, ∀ w ∈ visited log s, ∀ a b, v.HasTold a → w.HasTold b → a.id = b.id →
      a.name = b.name) ∧
    ∀ v ∈ visited log s, ∀ w ∈ visited log s, ∀ t topic, v.topics.lookup t = some topic →
      (∀ n, w.topicMap.lookup n = some t → n = topic.name) ∧
      (∀ topic', w.topics.lookup t = some topic' → topic'.name = topic.name) ∧
      ∀ a, w.HasTold a → a.id = t.toInt32 → a.name = topic.name := by
  obtain ⟨name, hall, -⟩ := agrees_of_logged run hu
  have hinj : ∀ {t t' : TopicIdx}, t.toInt32 = t'.toInt32 → t = t' := by
    intro t t' h
    rw [← UInt32.toUInt32_toInt32 t, h, UInt32.toUInt32_toInt32]
  refine ⟨fun v hv w hw a b ha hb hid => ?_, fun v hv w hw t topic ht => ?_⟩
  · obtain ⟨t, hat, hname⟩ := (hall v hv).told a ha
    obtain ⟨t', hbt, hname'⟩ := (hall w hw).told b hb
    have heq : t = t' := hinj (hat.symm.trans (hid.trans hbt))
    rw [heq, hname'] at hname
    exact (Option.some.inj hname).symm
  · have hname := (hall v hv).topics t topic ht
    refine ⟨fun n hn => ?_, fun topic' ht' => ?_, fun a ha hid => ?_⟩
    · have hsame := (hall w hw).map n t hn
      rw [hname] at hsame
      exact (Option.some.inj hsame).symm
    · have hsame := (hall w hw).topics t topic' ht'
      rw [hname] at hsame
      exact (Option.some.inj hsame).symm
    · obtain ⟨t', hat, hsame⟩ := (hall w hw).told a ha
      rw [← hinj (hid.symm.trans hat), hname] at hsame
      exact (Option.some.inj hsame).symm

/-- A client publishes a topic, takes it back, and publishes another one. -/
def publishInTurn : List Op :=
  [.connectClient ⟨.v4 10 0 0 2 5810, "a"⟩, .innerPublishTopic ⟨"x", 0, "int", none⟩ 1,
    .innerUnpublishTopic ⟨0⟩ 1, .innerPublishTopic ⟨"y", 0, "int", none⟩ 1]

theorem hasTold_of_toldTo (ha : .announce a ∈ s.toldTo c) : s.HasTold a := by
  unfold InnerServer.toldTo at ha
  split at ha
  next client hc =>
    cases hch : client.subOuput with
    | none =>
      rw [ConnectedClient.told, hch] at ha
      cases ha
    | some ch =>
      rw [told_of_channel hch] at ha
      exact hasTold_of_channel hc hch ha
  next => cases ha

theorem topic_ids_stable_publishInTurn :
    ∃ s a b, stateAfter anyOp .stored publishInTurn = some s ∧ s.HasTold a ∧ s.HasTold b ∧
      a.name = "x" ∧ b.name = "y" ∧ s.topics.lookup 5 = none ∧
      ∀ w ∈ visited (recordAfter .stored publishInTurn) s, ∀ d, w.HasTold d → d.id = a.id →
        d.name = "x" := by
  have hrun : (stateAfter anyOp .stored publishInTurn).map (fun s =>
      (s.toldTo 1, (s.topics.lookup 5).isNone)) =
      some ([.announce ⟨"x", 5, "int", some 0, {}⟩, .announce ⟨"y", 8, "int", some 0, {}⟩],
        true) := by
    decide +kernel
  obtain ⟨s, hs, hview⟩ := Option.map_eq_some_iff.mp hrun
  simp only [Prod.mk.injEq] at hview
  obtain ⟨htold, hgone⟩ := hview
  obtain ⟨u, run, hu⟩ := logged_stateAfter hs
  have hx : s.HasTold ⟨"x", 5, "int", some 0, {}⟩ := by
    apply hasTold_of_toldTo (c := 1)
    simp [htold]
  have hy : s.HasTold ⟨"y", 8, "int", some 0, {}⟩ := by
    apply hasTold_of_toldTo (c := 1)
    simp [htold]
  refine ⟨s, _, _, hs, hx, hy, rfl, rfl, Option.isNone_iff_eq_none.mp hgone,
    fun w hw d hd hid => ?_⟩
  have hstable := (topic_ids_stable run ((hu .topic).trans_lt (by decide))).1
  exact hstable w hw s (List.mem_append_right _ (List.mem_singleton_self s)) d _ hd hx hid

end NetTables.Server
