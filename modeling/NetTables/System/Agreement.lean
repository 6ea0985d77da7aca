import NetTables.System.InOrder

namespace NetTables.System

open Lib Lib.Fallible Spec Server

/-- The messages that are read of a text of these. -/
def Codec.Rereads (codec : Codec) (messages l : List NTMessage) : Prop :=
  codec.json.fromStr (codec.json.toStringList messages) = some l

/-- A publication or an announcement that is read of a text was written as it is, and a close message
was written as one. No more is asked for: a text keeps neither the flow info of an address nor every
digit of a period. -/
structure Codec.Sound (codec : Codec) : Prop where
  publish : ∀ messages l, codec.Rereads messages l → ∀ pub, .publish pub ∈ l →
    .publish pub ∈ messages
  announce : ∀ messages l, codec.Rereads messages l → ∀ a, .announce a ∈ l →
    .announce a ∈ messages
  close : ∀ messages l, codec.Rereads messages l → ∀ c, .close c ∈ l →
    ∃ c', .close c' ∈ messages

/-- A name that the naming has for a topic of this id. -/
def NamedBy (name : TopicIdx → Option String) (id : Int32) (n : String) : Prop :=
  ∃ t : TopicIdx, id = t.toInt32 ∧ name t = some n

/-- The topics that a client knows by their ids. -/
def Peer.topics (p : Peer) : KeyMap Int32 Client.AnnouncedTopic :=
  p.system.pool.shared.inner.announcedTopics

/-- The announcements on their way to a client and what clients know of topics have ids and names of
this kind only; the clock has the id -1. -/
structure Spreads (codec : Codec) (P : Int32 → String → Prop) (W : World) : Prop where
  texts : ∀ k conn, W.connections.lookup k = some conn → ∀ m ∈ conn.wire ++ conn.due, ∀ a,
    .announce a ∈ codec.told m → P a.id a.name
  pending : ∀ i p, W.peers.lookup i = some p → ∀ a, .announce a ∈ p.told.pending → P a.id a.name
  topics : ∀ i p, W.peers.lookup i = some p → ∀ k topic, k ≠ -1 →
    p.topics.lookup k = some topic → P k topic.name

/-- The server, the messages on their way and the clients use each id for the name that the naming
gives it. -/
structure AllAgree (codec : Codec) (name : TopicIdx → Option String) (W : World) : Prop where
  server : Agrees name W.server
  spread : Spreads codec (NamedBy name) W

variable {codec : Codec} {W W' : World} {p p' : Peer} {happening : Happening}
  {name name' : TopicIdx → Option String} {guard : World → Happening → Prop} {u : Kind → Nat}
  {log : List (World × Happening)} {P P' : Int32 → String → Prop}

section Client

variable {ofTypeStr : String → FrcType} {r : Client.Told} {S S' : Client.System}
  {e : Client.Event}

/-- A message that a client is at has been there, or has just come. -/
theorem mem_pending_after {m : NTMessage} (h : m ∈ (r.after S e S').pending) :
    m ∈ r.pending ∨ ∃ messages, e = .incoming (.text (some messages)) ∧
      m ∈ messages.filter Client.isAnnouncing := by
  have hstepped : ∀ t, m ∈ (r.stepped t).pending → m ∈ r.pending := by
    intro t ht
    unfold Client.Told.stepped at ht
    split_ifs at ht
    · exact ht
    · exact List.mem_of_mem_tail ht
    · exact ht
  cases e with
  | moves t =>
    simp only [Client.Told.after] at h
    split at h
    · exact .inl (hstepped t h)
    · exact .inl h
  | incoming message =>
    cases message with
    | text messages =>
      cases messages with
      | none => exact .inl h
      | some messages => exact .inr ⟨messages, rfl, h⟩
    | binary | other => exact .inl h
  | reconnected => cases h
  | _ => exact .inl h

/-- The table stays, or it is set up, or it follows a message that the client is at. -/
theorem table_of_takes (h : Client.Matches ofTypeStr (r, S))
    (hstep : Client.Takes ofTypeStr S e S') :
    S'.pool.shared.inner.announcedTopics = S.pool.shared.inner.announcedTopics ∨
    S'.pool.shared = S.pool.shared.setUp ∨
    ∃ m ∈ r.pending, S'.pool.shared = S.pool.shared.follow ofTypeStr m := by
  cases hstep with
  | @moves t pool hmoves =>
    obtain ⟨-, hshared, -⟩ | ⟨f, next, hrest, hshared, hnext, hf⟩ := hmoves.begins (h.ahead t)
    · exact .inl (by rw [hshared])
    · rcases hf with ⟨-, hspares⟩ | ⟨rest, hahead⟩
      · refine .inl ?_
        rw [hshared]
        exact hspares _
      · simp only [Client.Told.ahead] at hahead
        split_ifs at hahead
        · cases hahead
          exact .inr (.inl hshared)
        · cases hpending : r.pending with
          | nil => simp [hpending] at hahead
          | cons m pending =>
            rw [hpending, List.map_cons, List.cons.injEq] at hahead
            refine .inr (.inr ⟨m, List.mem_cons_self .., ?_⟩)
            rw [hahead.1]
            exact hshared
  | _ => exact .inl rfl

end Client

section Step

theorem NamedBy.extends {id : Int32} {n : String} (h : NamedBy name id n)
    (hext : Extends name name') : NamedBy name' id n := by
  obtain ⟨t, hid, hname⟩ := h
  exact ⟨t, hid, hext t n hname⟩

/-- An id has one name. -/
theorem NamedBy.unique {id : Int32} {n n' : String} (h : NamedBy name id n)
    (h' : NamedBy name id n') : n = n' := by
  obtain ⟨t, hid, hname⟩ := h
  obtain ⟨t', hid', hname'⟩ := h'
  have hsame : t = t' := by
    rw [← UInt32.toUInt32_toInt32 t, ← hid, hid', UInt32.toUInt32_toInt32]
  rw [hsame, hname'] at hname
  exact (Option.some.inj hname).symm

theorem Spreads.mono (h : Spreads codec P W) (hP : ∀ id n, P id n → P' id n) :
    Spreads codec P' W where
  texts k conn hconn m hm a ha := hP _ _ (h.texts k conn hconn m hm a ha)
  pending i p hp a ha := hP _ _ (h.pending i p hp a ha)
  topics i p hp k topic hk htopic := hP _ _ (h.topics i p hp k topic hk htopic)

theorem AllAgree.extends (h : AllAgree codec name W) (hext : Extends name name') :
    AllAgree codec name' W :=
  ⟨h.server.extends hext, h.spread.mono fun _ _ hn => hn.extends hext⟩

/-- What a client hears of a message of its channel stands on that channel. -/
theorem hasTold_of_forward (hjson : codec.Sound) {s : InnerServer} {c : ClientIdx}
    {client : ConnectedClient} {ch : Outgoing} {out : OutMessage} {m : Message} {a : Announce}
    (hclient : s.clients.lookup c = some client) (hch : client.subOuput = some ch)
    (hout : out ∈ ch.sent)
    (hm : Forwarded codec out m) (ha : .announce a ∈ codec.told m) : s.HasTold a := by
  obtain ⟨messages, rfl, rfl⟩ := text_of_forwarded hm
  simp only [Codec.told, Codec.received] at ha
  split at ha
  next l hl =>
    cases hread : codec.json.fromStr (codec.json.toStringList messages) with
    | none =>
      rw [hread] at hl
      cases hl
    | some l' =>
      rw [hread] at hl
      cases hl
      have hmem := hjson.announce messages l hread a (List.mem_of_mem_filter ha)
      exact hasTold_of_channel hclient hch (List.mem_flatMap.mpr ⟨_, hout, hmem⟩)
  · cases ha

/-- What a client makes of an announcement has its name. -/
theorem name_of_follow {ofTypeStr : String → FrcType} {c : Client.ClientState} {m : NTMessage}
    {k : Int32} {topic : Client.AnnouncedTopic}
    (h : (c.follow ofTypeStr m).inner.announcedTopics.lookup k = some topic) :
    c.inner.announcedTopics.lookup k = some topic ∨
      ∃ a, m = .announce a ∧ a.id = k ∧ topic.name = a.name := by
  rw [Client.lookup_follow] at h
  cases m with
  | announce a =>
    dsimp only at h
    cases hold : c.inner.announcedTopics.lookup k with
    | some old =>
      rw [hold] at h
      exact .inl h
    | none =>
      rw [hold, Option.none_or] at h
      split_ifs at h with hid
      cases h
      exact .inr ⟨a, rfl, hid, rfl⟩
  | unAnnounce v =>
    dsimp only at h
    split_ifs at h
    exact .inl h
  | _ => exact .inl h

/-- A step of a client keeps to what its messages bring. -/
theorem Spreads.peer (h : Spreads codec P W) {i : Nat} (hp : W.peers.lookup i = some p)
    (hmatches : Client.Matches codec.ofTypeStr (p.told, p.system)) {e : Client.Event}
    (htakes : PeerTakes codec W p e p') :
    (∀ a, .announce a ∈ p'.told.pending → P a.id a.name) ∧
      ∀ k topic, k ≠ -1 → p'.topics.lookup k = some topic → P k topic.name := by
  constructor
  · intro a ha
    rw [htakes.told] at ha
    rcases mem_pending_after ha with hold | ⟨messages, he, hnew⟩
    · exact h.pending i p hp a hold
    · obtain ⟨conn, m, hconn, hm, hreceived⟩ := htakes.reads _ he
      refine h.texts _ conn hconn m (List.mem_append_left _ hm) a ?_
      rw [Codec.told, ← hreceived]
      exact hnew
  · intro k topic hk htopic
    rcases table_of_takes hmatches htakes.takes with hsame | hsetUp | ⟨m, hm, hfollow⟩
    · rw [Peer.topics, hsame] at htopic
      exact h.topics i p hp k topic hk htopic
    · rw [Peer.topics, hsetUp] at htopic
      have hnone : (∅ : KeyMap Int32 Client.AnnouncedTopic).lookup k = some topic :=
        (AList.lookup_insert_ne hk).symm.trans htopic
      cases hnone
    · rw [Peer.topics, hfollow] at htopic
      rcases name_of_follow htopic with hold | ⟨a, rfl, rfl, hname⟩
      · exact h.topics i p hp k topic hk hold
      · rw [hname]
        exact h.pending i p hp a hm

/-- What happens carries on only what the server's channels have been told. -/
theorem Spreads.step (h : Spreads codec P W) (hP : ∀ id n, P id n → P' id n)
    (htold : ∀ a, W.server.HasTold a → P a.id a.name) (hjson : codec.Sound)
    (run : WorldsWhere codec guard u W) (hstep : Happens codec W happening W') :
    Spreads codec P' W' := by
  refine ⟨fun k conn' hconn' m hm a ha => ?_, fun i p' hp' a ha => ?_,
    fun i p' hp' k topic hk htopic => ?_⟩ <;> apply hP
  · rcases hstep.outgoing hconn' hm with ⟨conn, hconn, hold⟩ | ⟨now, -, hanswer⟩ |
      ⟨c, client, ch, out, hc, hch, hout, hfed⟩
    · exact h.texts k conn hconn m hold a ha
    · rw [told_answer hanswer] at ha
      cases ha
    · exact htold a (hasTold_of_forward hjson hc hch hout hfed ha)
  · rcases hstep.peer hp' with hp | ⟨-, o, now, -, hinitial⟩ | ⟨p, e, hp, htakes⟩
    · exact h.pending i p' hp a ha
    · rw [hinitial] at ha
      cases ha
    · exact (h.peer hp (matches_of_worlds run hp) htakes).1 a ha
  · rcases hstep.peer hp' with hp | ⟨-, o, now, hsystem, -⟩ | ⟨p, e, hp, htakes⟩
    · exact h.topics i p' hp k topic hk htopic
    · rw [Peer.topics, hsystem] at htopic
      cases htopic
    · exact (h.peer hp (matches_of_worlds run hp) htakes).2 k topic hk htopic

/-- What happens names at most the next topics. -/
theorem AllAgree.step (h : AllAgree codec name W) (hfree : Unborn name W.server)
    (hjson : codec.Sound) (run : WorldsWhere codec guard u W) (hstep : Happens codec W happening W')
    (hu : u .topic + created W.server W'.server .topic < 2 ^ 32) :
    ∃ name', Extends name name' ∧ AllAgree codec name' W' ∧ Unborn name' W'.server := by
  have hserver : ∃ name', Extends name name' ∧ Agrees name' W'.server ∧ Unborn name' W'.server := by
    rcases hstep.server with heq | ⟨op, hop⟩
    · rw [heq]
      exact ⟨name, fun _ _ h => h, h.server, hfree⟩
    · obtain ⟨es, hes, -, hn⟩ := hop.does
      exact agrees_of_effects h.server hfree hes (run.runs.room hes hn fun k hk => hk ▸ hu)
  obtain ⟨name', hext, hagrees, hfree'⟩ := hserver
  have hspread : Spreads codec (NamedBy name') W' :=
    h.spread.step (fun _ _ hn => hn.extends hext) h.server.told hjson run hstep
  exact ⟨name', hext, ⟨hagrees, hspread⟩, hfree'⟩

end Step

section Run

theorem spreads_of_begins (h : Begins W) : Spreads codec P W := by
  obtain ⟨s, hs, rfl⟩ := h
  refine ⟨?_, ?_, ?_⟩ <;> intros <;> contradiction

/-- A server that has just started. -/
theorem allAgree_of_begins (codec : Codec) (h : Begins W) :
    ∃ name, AllAgree codec name W ∧ Unborn name W.server := by
  have hspread : ∀ name, Spreads codec (NamedBy name) W := fun name => spreads_of_begins h
  obtain ⟨s, hs, rfl⟩ := h
  have run : LoggedRuns (created {} s) ([], s) := Lib.Run.start (s := ([], s)) ⟨rfl, hs⟩
  have hu : created {} s .topic < 2 ^ 32 := by
    obtain ⟨es, hes, -, hn⟩ := hs.does
    have hle := hn .topic
    rw [created_of_booted hes .topic hle]
    simp only [reduceCtorEq, if_false]
    omega
  obtain ⟨name, hall, hfree⟩ := agrees_of_logged run hu
  exact ⟨name, ⟨hall s (List.mem_singleton_self s), hspread name⟩, hfree⟩

/-- One naming does for all that a run passes. -/
theorem allAgree_of_logged (hjson : codec.Sound) (run : LoggedWorlds codec guard u (log, W))
    (hu : u .topic < 2 ^ 32) :
    ∃ name, (∀ V ∈ passed log W, AllAgree codec name V) ∧ Unborn name W.server := by
  have hinv := run.invariant (fun u p => u .topic < 2 ^ 32 →
    ∃ name, (∀ V ∈ passed p.1 p.2, AllAgree codec name V) ∧ Unborn name p.2.server) ?_ ?_
  · exact hinv hu
  · rintro ⟨log, W⟩ ⟨rfl, hbegins⟩ -
    obtain ⟨name, hagree, hfree⟩ := allAgree_of_begins codec hbegins
    refine ⟨name, fun V hV => ?_, hfree⟩
    rw [List.mem_singleton.mp hV]
    exact hagree
  · rintro u ⟨log, W⟩ happening ⟨log', W'⟩ run ih - ⟨hstep, rfl⟩ hu
    rw [Pi.add_apply] at hu
    obtain ⟨name, hall, hfree⟩ := ih (lt_of_le_of_lt (Nat.le_add_right ..) hu)
    have hW : AllAgree codec name W := hall W (List.mem_append_right _ (List.mem_singleton_self W))
    have worlds : WorldsWhere codec guard u W := Lib.Run.Logged.run (p := (log, W)) run
    obtain ⟨name', hext, hagree, hfree'⟩ := hW.step hfree hjson worlds hstep hu
    refine ⟨name', fun V hV => ?_, hfree'⟩
    rw [passed_snoc] at hV
    rcases List.mem_append.mp hV with hV | hV
    · exact (hall V hV).extends hext
    · rw [List.mem_singleton.mp hV]
      exact hagree

/-- In every run that creates fewer than 2^32 topics: two clients that both know a topic by an id,
at whatever moments and over whatever connections, know it by one name, and the server never uses
the id for another one. -/
theorem topic_names_agree (hjson : codec.Sound) (run : LoggedWorlds codec guard u (log, W))
    (hu : u .topic < 2 ^ 32) :
    ∀ V ∈ passed log W, ∀ V' ∈ passed log W, ∀ i p k topic, k ≠ -1 →
      V.peers.lookup i = some p → p.topics.lookup k = some topic →
      (∀ j q topic', V'.peers.lookup j = some q → q.topics.lookup k = some topic' →
        topic'.name = topic.name) ∧
      (∀ t topic', V'.server.topics.lookup t = some topic' → t.toInt32 = k →
        topic'.name = topic.name) ∧
      ∀ n t, V'.server.topicMap.lookup n = some t → t.toInt32 = k → n = topic.name := by
  obtain ⟨name, hall, -⟩ := allAgree_of_logged hjson run hu
  intro V hV V' hV' i p k topic hk hp htopic
  have hknown : NamedBy name k topic.name := (hall V hV).spread.topics i p hp k topic hk htopic
  refine ⟨fun j q topic' hq htopic' => ?_, fun t topic' ht hid => ?_, fun n t hn hid => ?_⟩
  · exact ((hall V' hV').spread.topics j q hq k topic' hk htopic').unique hknown
  · have hnamed : NamedBy name k topic'.name := ⟨t, hid.symm, (hall V' hV').server.topics t topic' ht⟩
    exact hnamed.unique hknown
  · have hnamed : NamedBy name k n := ⟨t, hid.symm, (hall V' hV').server.map n t hn⟩
    exact hnamed.unique hknown

theorem sound_codecOf {texts : List (List NTMessage × String)} (hempty : ([], "[]") ∈ texts)
    (hnodup : (texts.map Prod.snd).Nodup) : (codecOf texts).Sound := by
  have hread : ∀ e ∈ texts, (jsonOf texts).fromStr e.2 = some e.1 := by
    intro e he
    obtain ⟨e', he'⟩ : ∃ e', texts.find? (fun e' => e'.2 = e.2) = some e' := by
      rw [← Option.isSome_iff_exists, List.find?_isSome]
      exact ⟨e, he, decide_eq_true rfl⟩
    have hsame : e'.2 = e.2 := by simpa using List.find?_some he'
    have heq : e' = e := List.inj_on_of_nodup_map hnodup (List.mem_of_find?_eq_some he') he hsame
    simp only [jsonOf, he', heq, Option.map_some]
  have hmem : ∀ messages l, (codecOf texts).Rereads messages l → ∀ m ∈ l, m ∈ messages := by
    intro messages l hl m hm
    simp only [Codec.Rereads, codecOf] at hl
    cases hfind : texts.find? (fun e => e.1 = messages) with
    | some e =>
      have hfirst : e.1 = messages := by simpa using List.find?_some hfind
      have htext : (jsonOf texts).toStringList messages = e.2 := by simp [jsonOf, hfind]
      have hback := hread e (List.mem_of_find?_eq_some hfind)
      simp only [htext, hback, hfirst] at hl
      cases hl
      exact hm
    | none =>
      have htext : (jsonOf texts).toStringList messages = "[]" := by simp [jsonOf, hfind]
      have hback := hread _ hempty
      simp only [htext, hback] at hl
      cases hl
      cases hm
  exact ⟨fun messages l hl pub hpub => hmem messages l hl _ hpub,
    fun messages l hl a ha => hmem messages l hl _ ha,
    fun messages l hl c hc => ⟨c, hmem messages l hl _ hc⟩⟩

/-- Two clients that have published one topic. -/
theorem topic_names_agree_twoPublishers : ∃ u log W p q,
    LoggedWorlds (codecOf topicTexts) (fun _ _ => True) u (log, W) ∧
      W.peers.lookup 0 = some p ∧ W.peers.lookup 1 = some q ∧
      (p.topics.lookup 5).map Client.AnnouncedTopic.name = some "x" ∧
      (q.topics.lookup 5).isSome = true ∧
      ∀ topic, q.topics.lookup 5 = some topic → topic.name = "x" := by
  have hrun : (World.after (codecOf topicTexts) .stored anyHappening
      (publishesTopic 0 "a" ++ hearsAnnouncement 0 ++ publishesTopic 1 "b" ++
        hearsAnnouncement 1)).map (fun W =>
        ((W.peers.lookup 0).map fun p => (p.topics.lookup 5).map Client.AnnouncedTopic.name,
          (W.peers.lookup 1).map fun q => (q.topics.lookup 5).isSome)) =
      some (some (some "x"), some true) := by
    decide +kernel
  obtain ⟨W, hW, hview⟩ := Option.map_eq_some_iff.mp hrun
  simp only [Prod.mk.injEq] at hview
  obtain ⟨hfirst, hsecond⟩ := hview
  obtain ⟨p, hp, hname⟩ := Option.map_eq_some_iff.mp hfirst
  obtain ⟨q, hq, hknown⟩ := Option.map_eq_some_iff.mp hsecond
  obtain ⟨u, worlds, hu⟩ := worlds_of_after hW
  have htopics : u .topic < 2 ^ 32 := (hu .topic).trans_lt (by decide)
  have hjson : (codecOf topicTexts).Sound := sound_codecOf (by decide) (by decide)
  obtain ⟨log, run⟩ := exists_logged worlds
  have hlast : W ∈ passed log W := List.mem_append_right _ (List.mem_singleton_self W)
  obtain ⟨topic, htopic, hx⟩ := Option.map_eq_some_iff.mp hname
  obtain ⟨hagree, -, -⟩ := topic_names_agree hjson run htopics W hlast W hlast 0 p 5 topic
    (by decide) hp htopic
  exact ⟨u, log, W, p, q, run, hp, hq, hname, hknown, fun topic' htopic' =>
    (hagree 1 q topic' hq htopic').trans hx⟩

end Run

end NetTables.System
