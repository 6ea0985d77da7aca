import NetTables.System.Provenance

namespace NetTables.System

open Lib Lib.Fallible Spec Server

section Server

/-- The metatopics of the server itself. -/
def serverTopics : List String := ["$clients", "$serversub", "$serverpub"]

/-- The tables of topics and the announcements of a server have names of this kind only. -/
structure NamesAll (P : String → Prop) (s : InnerServer) : Prop where
  map : ∀ n t, s.topicMap.lookup n = some t → P n
  topics : ∀ t topic, s.topics.lookup t = some topic → P topic.name
  told : ∀ a, s.HasTold a → P a.name

variable {P P' : String → Prop} {s s' : InnerServer} {e : Option Server.Event} {es : List Server.Event}

theorem NamesAll.mono (h : NamesAll P s) (hP : ∀ n, P n → P' n) : NamesAll P' s where
  map n t hn := hP n (h.map n t hn)
  topics t topic ht := hP topic.name (h.topics t topic ht)
  told a ha := hP a.name (h.told a ha)

/-- An effect brings no name but that of a topic it adds. -/
theorem NamesAll.step (h : NamesAll P s) (he : Effect s e s')
    (hadds : ∀ a, e = some a → ∀ n, a = .topic n → P n) : NamesAll P s' := by
  have htold : ∀ a, s'.HasTold a → P a.name := by
    intro a ha
    rcases announced_cases he ha with hold | ⟨t, -, hn | ⟨topic, ht, hname⟩⟩
    · exact h.told a hold
    · exact h.map a.name t hn
    · rw [← hname]
      exact h.topics t topic ht
  cases he with
  | topicAdded topic =>
    have hnew : P topic.name := hadds _ rfl _ rfl
    refine ⟨fun n t hn => ?_, fun t topic' ht => ?_, htold⟩
    · rcases lookup_topicMap_withTopic.mp hn with ⟨heq, -⟩ | ⟨-, hold⟩
      · rw [heq]
        exact hnew
      · exact h.map n t hold
    · rcases lookup_topics_withTopic.mp ht with ⟨-, heq⟩ | ⟨-, hold⟩
      · rw [← heq]
        exact hnew
      · exact h.topics t topic' hold
  | topicRemoved =>
    refine ⟨fun n t hn => ?_, fun t topic ht => ?_, htold⟩
    · exact h.map n t (lookup_topicMap_withoutTopic.mp hn).2.2.2
    · exact h.topics t topic (lookup_topics_withoutTopic.mp ht).2.2.2
  | topicLost =>
    refine ⟨h.map, fun t topic ht => ?_, htold⟩
    rw [KeyMap.lookup_erase] at ht
    split_ifs at ht
    exact h.topics t topic ht
  | topicHalfLost =>
    refine ⟨fun n t hn => ?_, fun t topic ht => ?_, htold⟩
    · rw [KeyMap.lookup_erase] at hn
      split_ifs at hn
      exact h.map n t hn
    · rw [KeyMap.lookup_erase] at ht
      split_ifs at ht
      exact h.topics t topic ht
  | propertiesSet properties hu =>
    refine ⟨h.map, fun t topic' ht => ?_, htold⟩
    obtain ⟨topic, ht, hname⟩ := lookup_insert_properties hu ht
    rw [← hname]
    exact h.topics t topic ht
  | _ => exact ⟨h.map, h.topics, htold⟩

theorem namesAll_of_effects (h : NamesAll P s) (hes : Effects s es s')
    (hadds : ∀ n, .topic n ∈ es → P n) : NamesAll P s' :=
  hes.invariant (NamesAll P) (fun a => ∀ n, a = .topic n → P n)
    (fun _ ha n hn => hadds n (hn ▸ ha)) (fun _ _ _ he ha hi => hi.step he ha) h

theorem namesAll_booted : NamesAll P booted := by
  refine ⟨fun n t hn => ?_, fun t topic ht => ?_, fun _ ha => ?_⟩
  · cases hn
  · cases ht
  · obtain ⟨ch, ⟨c, client, hc, hch⟩ | ⟨client, hmem, -⟩, -⟩ := ha
    · simp only [booted, KeyMap.lookup_insert] at hc
      split_ifs at hc
      · cases hc
        cases hch
      · cases hc
    · cases hmem

/-- The server starts with its own metatopics. -/
theorem namesAll_of_init (h : Init s) : NamesAll (· ∈ serverTopics) s := by
  have hone : ∀ n ∈ serverTopics, ∀ u,
      Does (fun a => ∀ n, a = .topic n → n ∈ serverTopics) 1 u (ensureTopic u (.newMeta n)).2 := by
    intro n hn u
    refine does_ensureTopic fun n' heq => ?_
    cases heq
    exact hn
  rw [h.eq_started]
  obtain ⟨es, hes, hnames, -⟩ := ((hone "$clients" (by decide) booted).trans
    (hone "$serversub" (by decide) _)).trans (hone "$serverpub" (by decide) _)
  exact namesAll_of_effects namesAll_booted hes fun n hn => hnames _ hn n rfl

end Server

section History

variable (log : List (World × Happening)) (W : World)

/-- A handle of the server has published a topic of this name, or a client has written that it does. -/
def Requested (n : String) : Prop :=
  (∃ V value props uid now, (V, .publishes n value props uid now) ∈ log) ∨
    ∃ i k messages pub, Wrote log i k (.text messages) ∧ .publish pub ∈ messages ∧ pub.name = n

/-- The name is one of the server's metatopics, of those of a client that it has accepted under its
identity, or that of a requested topic or of its metatopics. -/
def Accounted (n : String) : Prop :=
  n ∈ serverTopics ∨
  (∃ V ∈ passed log W, ∃ k conn identity, V.connections.lookup k = some conn ∧
    conn.identity = some identity ∧
      (n = clientPubName identity.name ∨ n = clientSubName identity.name)) ∨
  ∃ n', Requested log n' ∧ publishNames n' n

end History

/-- The server, the messages on their way and the clients have accounted names only. -/
structure AllAccounted (codec : Codec) (log : List (World × Happening)) (W : World) : Prop where
  relayed : Relayed codec log W
  server : NamesAll (Accounted log W) W.server
  spread : Spreads codec (fun _ => Accounted log W) W

variable {codec : Codec} {W W' : World} {happening : Happening} {guard : World → Happening → Prop}
  {u : Kind → Nat} {log : List (World × Happening)} {n : String} {op : Op}

section Step

theorem Requested.snoc (h : Requested log n) : Requested (log ++ [(W, happening)]) n := by
  rcases h with ⟨V, value, props, uid, now, hV⟩ | ⟨i, k, messages, pub, hwrote, hpub⟩
  · exact .inl ⟨V, value, props, uid, now, List.mem_append_left _ hV⟩
  · exact .inr ⟨i, k, messages, pub, hwrote.snoc, hpub⟩

theorem Accounted.snoc (h : Accounted log W n) : Accounted (log ++ [(W, happening)]) W' n := by
  rcases h with hserver | ⟨V, hV, k, conn, identity, hconn, hgiven, hn⟩ | ⟨n', hrequested, hn⟩
  · exact .inl hserver
  · refine .inr (.inl ⟨V, ?_, k, conn, identity, hconn, hgiven, hn⟩)
    rw [passed_snoc]
    exact List.mem_append_left _ hV
  · exact .inr (.inr ⟨n', hrequested.snoc, hn⟩)

/-- A name without a dollar is no metatopic's. -/
theorem Accounted.requested (h : Accounted log W n) (hn : hasDollar n = false) :
    Requested log n := by
  rcases h with hserver | ⟨V, -, k, conn, identity, -, -, hname⟩ |
    ⟨n', hrequested, hsame | ⟨-, hname⟩⟩
  · have hall : ∀ n ∈ serverTopics, hasDollar n = true := by decide
    rw [hall n hserver] at hn
    cases hn
  · rcases hname with rfl | rfl
    · rw [hasDollar_clientPubName] at hn
      cases hn
    · rw [hasDollar_clientSubName] at hn
      cases hn
  · rw [hsame]
    exact hrequested
  · rcases hname with rfl | rfl
    · rw [hasDollar_metaPubName] at hn
      cases hn
    · rw [hasDollar_metaSubName] at hn
      cases hn

/-- What the server adds topics for. -/
theorem Asked.adds (h : Asked codec W happening op) (hadds : op.Adds W.server n) :
    (∃ k identity, happening = .accepts k identity ∧
      (n = clientPubName (uniqueIdentity W.server identity).name ∨
        n = clientSubName (uniqueIdentity W.server identity).name)) ∨
    (∃ c pubTopic, (c, .ntMessage (.publish pubTopic)) ∈ W.parsing ∧
      publishNames pubTopic.name n) ∨
    ∃ name value props uid now, happening = .publishes name value props uid now ∧
      publishNames name n := by
  cases h with
  | accepts k identity => exact .inl ⟨k, identity, rfl, hadds⟩
  | closes => cases hadds
  | @handles c task parsing _ now hnext hop =>
    cases task with
    | ntMessage message =>
      cases message with
      | publish pubTopic =>
        cases hop
        exact .inr (.inl ⟨c, pubTopic, hnext ▸ List.mem_cons_self .., hadds.2⟩)
      | announce | unAnnounce | properties => cases hop
      | _ =>
        cases hop
        cases hadds
    | value data =>
      obtain ⟨e, -, heq⟩ := Option.map_eq_some_iff.mp hop
      cases heq
      cases hadds
  | operates hop =>
    cases op with
    | connectClient | innerPublishTopic => cases hop
    | _ => cases hadds
  | publishes name value props uid now =>
    exact .inr (.inr ⟨name, value, props, uid, now, rfl, hadds.2⟩)
  | sets => cases hadds

/-- A connection that is refused leaves the server as it is, and one that is accepted has its
identity. -/
theorem Happens.accepted {k : Nat} {identity : ClientIdentity}
    (h : Happens codec W (.accepts k identity) W') : W'.server = W.server ∨
    ∃ conn, W'.connections.lookup k = some conn ∧
      conn.identity = some (uniqueIdentity W.server identity) := by
  cases h with
  | @accepts _ _ o _ _ _ hconn hwaiting hx =>
    have hends : Ends (connectClient o identity) W.server fun r s =>
        s = W.server ∨ ∃ idx, r = .ok (uniqueIdentity W.server identity, idx) := by
      rw [ends_connectClient]
      split_ifs
      · exact .inl rfl
      · exact .inr ⟨_, rfl⟩
    rcases hends _ _ hx with heq | ⟨idx, rfl⟩
    · exact .inl heq
    · exact .inr ⟨_, (KeyMap.lookup_insert ..).trans (if_pos rfl), rfl⟩

theorem AllAccounted.step (h : AllAccounted codec log W) (hsound : codec.Sound)
    (hjson : codec.json.Framed) (run : WorldsWhere codec guard u W)
    (hstep : Happens codec W happening W') :
    AllAccounted codec (log ++ [(W, happening)]) W' := by
  have hnow : (W, happening) ∈ log ++ [(W, happening)] :=
    List.mem_append_right _ (List.mem_singleton_self _)
  have hafter : W' ∈ passed (log ++ [(W, happening)]) W' :=
    List.mem_append_right _ (List.mem_singleton_self _)
  have hserver : NamesAll (Accounted (log ++ [(W, happening)]) W') W'.server := by
    have hbefore : NamesAll (Accounted (log ++ [(W, happening)]) W') W.server :=
      h.server.mono fun n hn => hn.snoc
    by_cases heq : W'.server = W.server
    · rw [heq]
      exact hbefore
    · obtain ⟨op, hasked, hop⟩ := hstep.asked.resolve_left heq
      obtain ⟨es, hes, hmay, -⟩ := hop.does
      refine namesAll_of_effects hbefore hes fun n hn => ?_
      rcases hasked.adds (hmay _ hn) with ⟨k, identity, rfl, hname⟩ | ⟨c, pubTopic, htask, hname⟩ |
        ⟨name, value, props, uid, now, rfl, hname⟩
      · obtain ⟨conn, hconn, hgiven⟩ := hstep.accepted.resolve_left heq
        exact .inr (.inl ⟨W', hafter, k, conn, _, hconn, hgiven, hname⟩)
      · obtain ⟨m, ⟨V, -, i, k, -, hwrote⟩, htask⟩ := h.relayed.parsing _ htask
        obtain ⟨messages, l, rfl, hread, hmem⟩ := message_written htask
        have hmessage : .publish pubTopic ∈ messages := hsound.publish messages l hread pubTopic hmem
        exact .inr (.inr ⟨pubTopic.name,
          .inr ⟨i, k, messages, pubTopic, hwrote.snoc, hmessage, rfl⟩, hname⟩)
      · exact .inr (.inr ⟨name, .inl ⟨W, value, props, uid, now, hnow⟩, hname⟩)
  exact ⟨h.relayed.step hjson hstep, hserver,
    h.spread.step (fun _ _ hn => hn.snoc) h.server.told hsound run hstep⟩

end Step

section Run

theorem allAccounted_of_logged (hsound : codec.Sound) (hjson : codec.json.Framed)
    (run : LoggedWorlds codec guard u (log, W)) : AllAccounted codec log W := by
  refine run.invariant (fun _ p => AllAccounted codec p.1 p.2) ?_ ?_
  · rintro ⟨log, W⟩ ⟨rfl, hbegins⟩
    refine ⟨relayed_of_begins hbegins, ?_, spreads_of_begins hbegins⟩
    obtain ⟨s, hs, rfl⟩ := hbegins
    exact (namesAll_of_init hs).mono fun n hn => .inl hn
  · rintro u ⟨log, W⟩ happening ⟨log', W'⟩ run ih - ⟨hstep, rfl⟩
    exact ih.step hsound hjson (Lib.Run.Logged.run (p := (log, W)) run) hstep

/-- In every run of a server and its clients: a topic that the server has, or that a client knows by
an id, has been published under its name by a handle of the server, or a client has written that it
publishes it, or it is a metatopic of such a topic, of a client that was accepted or of the server. -/
theorem known_topic_requested (hsound : codec.Sound) (hjson : codec.json.Framed)
    (run : LoggedWorlds codec guard u (log, W)) :
    (∀ t topic, W.server.topics.lookup t = some topic → Accounted log W topic.name) ∧
      ∀ i p k topic, k ≠ -1 → W.peers.lookup i = some p → p.topics.lookup k = some topic →
        Accounted log W topic.name := by
  have hall := allAccounted_of_logged hsound hjson run
  exact ⟨hall.server.topics, fun i p k topic hk hp => hall.spread.topics i p hp k topic hk⟩

theorem known_topic_requested_publishesTopic : ∃ u log W p topic,
    LoggedWorlds (codecOf topicTexts) (fun _ _ => True) u (log, W) ∧
      W.peers.lookup 0 = some p ∧ p.topics.lookup 5 = some topic ∧ topic.name = "x" ∧
      Accounted log W topic.name ∧ Requested log "x" := by
  have hrun : (World.after (codecOf topicTexts) .stored anyHappening
      (publishesTopic 0 "a" ++ hearsAnnouncement 0)).map (fun W =>
        (W.peers.lookup 0).map fun p => (p.topics.lookup 5).map Client.AnnouncedTopic.name) =
      some (some (some "x")) := by
    decide +kernel
  obtain ⟨W, hW, hview⟩ := Option.map_eq_some_iff.mp hrun
  obtain ⟨p, hp, hname⟩ := Option.map_eq_some_iff.mp hview
  obtain ⟨topic, htopic, hx⟩ := Option.map_eq_some_iff.mp hname
  obtain ⟨u, worlds, -⟩ := worlds_of_after hW
  obtain ⟨log, run⟩ := exists_logged worlds
  have hsound : (codecOf topicTexts).Sound := sound_codecOf (by decide) (by decide)
  have hjson : (codecOf topicTexts).json.Framed := framed_codecOf (by decide)
  have hknown : Accounted log W topic.name :=
    (known_topic_requested hsound hjson run).2 0 p 5 topic (by decide) hp htopic
  exact ⟨u, log, W, p, topic, run, hp, htopic, hx, hknown,
    (hx ▸ hknown : Accounted log W "x").requested (by decide)⟩

end Run

end NetTables.System
