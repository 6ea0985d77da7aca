import NetTables.System.Agreement
import NetTables.System.Attribution
import NetTables.System.NewestValue
import NetTables.System.Silence

namespace NetTables.System

open Lib Lib.Fallible Spec Server

/-- The values that the server reads in what a client has written for a value are that value. -/
def Codec.ReadsValues (codec : Codec) : Prop :=
  ∀ id type timestamp value, ∀ data ∈ readAll codec.dec
    (Client.publishValueWTimestamp codec.rmp id type timestamp value),
    data = BinaryMessage.decoded ⟨id, timestamp.toUInt64, type.asU8, value⟩

section History

variable (codec : Codec) (log : List (World × Happening)) (W : World)

/-- The client has written this message on the connection. -/
def Wrote (i k : Nat) (m : Client.SocketMessage) : Prop :=
  ∃ V p, (V, .writes i) ∈ log ∧ V.peers.lookup i = some p ∧ p.connection = k ∧
    p.system.pool.queue.head? = some m

/-- A client has written this on the connection that `c` is the server's client of. -/
def Ordered (c : ClientIdx) (m : Client.SocketMessage) : Prop :=
  ∃ V ∈ passed log W, ∃ i k, V.Admits k c ∧ Wrote log i k m

/-- A client has written that it publishes a topic of this name under this `pubuid`. -/
def Published (c : ClientIdx) (pubuid : PubUID) (n : String) : Prop :=
  ∃ messages pub, Ordered log W c (.text messages) ∧ .publish pub ∈ messages ∧
    pub.pubuid = pubuid ∧ pub.name = n

/-- A client has written this value under this `pubuid`. -/
def Given (c : ClientIdx) (pubuid : PubUID) (value : FrcTimestampedValue) : Prop :=
  ∃ type timestamp v, Ordered log W c (.value (.unsignedInt pubuid) type timestamp v) ∧
    (codec.tryFrom v).map (⟨timestamp.toUInt64, ·⟩) = some value

/-- The value is one that a client has written for a topic of this name, or one that a handle of the
server has published the topic with. -/
def Sourced (n : String) (value : FrcTimestampedValue) : Prop :=
  (∃ V v props uid now, (V, .publishes n v props uid now) ∈ log ∧ value = ⟨now, v⟩) ∨
    ∃ c pubuid, c ≠ serverClientIdx ∧ Published log W c pubuid n ∧ Given codec log W c pubuid value

end History

/-- The messages of a client that have not come to the parser's channel. -/
def Connection.coming (conn : Connection) : List Message := conn.passing ++ conn.inbox

/-- Whatever is on its way to the parser, or is its work, has been written by a client. -/
structure Relayed (codec : Codec) (log : List (World × Happening)) (W : World) : Prop where
  coming : ∀ k conn, W.connections.lookup k = some conn → ∀ msg ∈ conn.coming,
    ∃ i m, Wrote log i k m ∧ msg = codec.written m
  incoming : ∀ cmsg ∈ W.incoming, ∀ task ∈ codec.tasks cmsg.msg,
    ∃ m, Ordered log W cmsg.clientIdx m ∧ task ∈ codec.tasks (codec.written m)
  parsing : ∀ e ∈ W.parsing, ∃ m, Ordered log W e.1 m ∧ e.2 ∈ codec.tasks (codec.written m)

/-- The server's tables have what they have from clients, or from a handle of the server. -/
structure Traced (codec : Codec) (name : TopicIdx → Option String) (log : List (World × Happening))
    (W : World) : Prop where
  relayed : Relayed codec log W
  bindings : ∀ c client pubuid t, c ≠ serverClientIdx → W.server.clients.lookup c = some client →
    client.pubuidToTopicidx.getByLeft pubuid = some t →
    ∃ n, name t = some n ∧ Published log W c pubuid n
  pending : ∀ e ∈ W.pending, ∃ n, name e.2 = some n ∧ Sourced codec log W n e.1
  values : ∀ t value, W.server.topicValueMap.lookup t = some value →
    ∃ n, name t = some n ∧ Sourced codec log W n value

variable {codec : Codec} {W W' : World} {happening : Happening} {i k : Nat} {c : ClientIdx}
  {m : Client.SocketMessage} {guard : World → Happening → Prop} {u : Kind → Nat}
  {log : List (World × Happening)} {name name' : TopicIdx → Option String} {pubuid : PubUID}
  {t : TopicIdx} {n : String} {value : FrcTimestampedValue}

section Growth

theorem mem_passed_snoc {V : World} (h : V ∈ passed log W) :
    V ∈ passed (log ++ [(W, happening)]) W' := by
  rw [passed_snoc]
  exact List.mem_append_left _ h

theorem Wrote.snoc (h : Wrote log i k m) : Wrote (log ++ [(W, happening)]) i k m := by
  obtain ⟨V, p, hV, h⟩ := h
  exact ⟨V, p, List.mem_append_left _ hV, h⟩

theorem Ordered.snoc (h : Ordered log W c m) : Ordered (log ++ [(W, happening)]) W' c m := by
  obtain ⟨V, hV, i, k, hk, hm⟩ := h
  exact ⟨V, mem_passed_snoc hV, i, k, hk, hm.snoc⟩

theorem Published.snoc (h : Published log W c pubuid n) :
    Published (log ++ [(W, happening)]) W' c pubuid n := by
  obtain ⟨messages, pub, hm, hpub⟩ := h
  exact ⟨messages, pub, hm.snoc, hpub⟩

theorem Given.snoc (h : Given codec log W c pubuid value) :
    Given codec (log ++ [(W, happening)]) W' c pubuid value := by
  obtain ⟨type, timestamp, v, hm, hvalue⟩ := h
  exact ⟨type, timestamp, v, hm.snoc, hvalue⟩

theorem Sourced.snoc (h : Sourced codec log W n value) :
    Sourced codec (log ++ [(W, happening)]) W' n value := by
  rcases h with ⟨V, v, props, uid, now, hV, hvalue⟩ | ⟨c, pubuid, hc, hpub, hgiven⟩
  · exact .inl ⟨V, v, props, uid, now, List.mem_append_left _ hV, hvalue⟩
  · exact .inr ⟨c, pubuid, hc, hpub.snoc, hgiven.snoc⟩

end Growth

section Decode

/-- The messages that the parser has to handle for a client are read of one text. -/
theorem message_written {message : NTMessage}
    (h : .ntMessage message ∈ codec.tasks (codec.written m)) :
    ∃ messages l, m = .text messages ∧ codec.Rereads messages l ∧ message ∈ l := by
  cases m with
  | text messages =>
    simp only [Codec.written, Codec.tasks] at h
    obtain ⟨message', hmessage, heq⟩ := List.mem_map.mp h
    cases heq
    cases hread : codec.json.fromStr (codec.json.toStringList messages) with
    | none =>
      rw [hread] at hmessage
      cases hmessage
    | some l =>
      rw [hread] at hmessage
      exact ⟨messages, l, rfl, hread, hmessage⟩
  | value id type timestamp v =>
    simp only [Codec.written, Codec.tasks] at h
    obtain ⟨data, -, heq⟩ := List.mem_map.mp h
    cases heq

/-- The values that the parser has to handle for a client are ones that it has written. -/
theorem value_written (hreads : codec.ReadsValues) {data : Value}
    (h : .value data ∈ codec.tasks (codec.written m)) :
    ∃ id type timestamp v, m = .value id type timestamp v ∧
      data = BinaryMessage.decoded ⟨id, timestamp.toUInt64, type.asU8, v⟩ := by
  cases m with
  | text messages =>
    simp only [Codec.written, Codec.tasks] at h
    obtain ⟨message, -, heq⟩ := List.mem_map.mp h
    cases heq
  | value id type timestamp v =>
    simp only [Codec.written, Codec.tasks] at h
    obtain ⟨data', hdata, heq⟩ := List.mem_map.mp h
    cases heq
    exact ⟨id, type, timestamp, v, rfl, hreads id type timestamp v data hdata⟩

/-- The update that a client's value leads to is of this value, on the topic of its `pubuid`. -/
theorem update_decoded {tryFrom : Value → Option FrcValue} {s : InnerServer}
    {id : Client.UnsignedIntOrNegativeOne} {timestamp : UInt32} {type : UInt8} {v : Value}
    (h : updateOf tryFrom s c (BinaryMessage.decoded ⟨id, timestamp.toUInt64, type, v⟩) =
      some (t, value)) :
    ∃ pubuid client, id = .unsignedInt pubuid ∧ s.clients.lookup c = some client ∧
      client.pubuidToTopicidx.getByLeft pubuid = some t ∧
      (tryFrom v).map (⟨timestamp.toUInt64, ·⟩) = some value := by
  cases id with
  | negativeOne => simp [BinaryMessage.decoded, idValue, updateOf, Value.asU64] at h
  | unsignedInt pubuid =>
    have hpubuid : (Value.integer pubuid.toNat).asU64.bind tryFromU64 = some pubuid := by
      rw [asU64_ofNat (pubuid.toNat_lt.trans (by decide)), Option.bind_some, tryFromU64_toNat]
    have htime : (Value.integer timestamp.toUInt64.toNat).asU64 = some timestamp.toUInt64 := by
      rw [asU64_ofNat timestamp.toUInt64.toNat_lt, UInt64.ofNat_toNat]
    have hlast : [Value.integer type.toNat, v].getLast?.bind tryFrom = tryFrom v := rfl
    simp only [BinaryMessage.decoded, updateOf, idValue, hpubuid, htime, hlast,
      Option.bind_eq_bind, Option.bind_some] at h
    obtain ⟨v', hv', h⟩ := Option.bind_eq_some_iff.mp h
    obtain ⟨client, hclient, h⟩ := Option.bind_eq_some_iff.mp h
    obtain ⟨t', ht', h⟩ := Option.bind_eq_some_iff.mp h
    obtain ⟨topic, -, h⟩ := Option.bind_eq_some_iff.mp h
    split_ifs at h
    cases h
    exact ⟨pubuid, client, rfl, hclient, ht', Option.map_eq_some_iff.mpr ⟨v', hv', rfl⟩⟩

end Decode

section Server

variable {s s' : InnerServer} {op : Op}

/-- A `pubuid` of a client was there before an effect, or the effect is its registration. -/
theorem binding_of_effect {e : Option Event} {client' : ConnectedClient} (he : Effect s e s')
    (hc : s'.clients.lookup c = some client')
    (hp : client'.pubuidToTopicidx.getByLeft pubuid = some t) :
    (∃ client, s.clients.lookup c = some client ∧
      client.pubuidToTopicidx.getByLeft pubuid = some t) ∨
    ∃ n, e = some (.registered c pubuid n) ∧ s.topicMap.lookup n = some t := by
  have hput : ∀ {d client₀ client₁}, s'.clients = s.clients.insert d client₁ →
      s.clients.lookup d = some client₀ →
      (client₁.pubuidToTopicidx.getByLeft pubuid = some t →
        client₀.pubuidToTopicidx.getByLeft pubuid = some t) →
      ∃ client, s.clients.lookup c = some client ∧
        client.pubuidToTopicidx.getByLeft pubuid = some t := by
    intro d client₀ client₁ heq hclient₀ hkept
    rw [heq, KeyMap.lookup_insert] at hc
    split_ifs at hc with hcd
    · cases hc
      exact ⟨client₀, hcd ▸ hclient₀, hkept hp⟩
    · exact ⟨client', hc, hp⟩
  cases he with
  | clientConnected identity =>
    simp only [KeyMap.lookup_insert] at hc
    split_ifs at hc
    · cases hc
      cases hp
    · exact .inl ⟨client', hc, hp⟩
  | @registered d client₀ n t' topic pubuid' hd ht hmap =>
    simp only [KeyMap.lookup_insert] at hc
    split_ifs at hc with hcd
    · cases hc
      rw [PrimBiMap.getByLeft_insert] at hp
      split_ifs at hp with hpubuid
      · cases hp
        exact .inr ⟨n, by rw [hcd, hpubuid], hmap⟩
      · exact .inl ⟨client₀, hcd ▸ hd, hp⟩
    · exact .inl ⟨client', hc, hp⟩
  | unregistered pubuid' hd =>
    refine .inl (hput rfl hd fun h => ?_)
    rw [PrimBiMap.getByLeft_removeByLeft] at h
    split_ifs at h
    exact h
  | clientLeft hident hd =>
    simp only [InnerServer.withoutClient, KeyMap.lookup_erase] at hc
    split_ifs at hc
    exact .inl ⟨client', hc, hp⟩
  | marked _ hd | told _ hd | flushed hd | closed hd | unsubscribed _ hd | batchesSent _ _ hd =>
    exact .inl (hput rfl hd id)
  | subscribed _ _ _ _ _ _ hd => exact .inl (hput rfl hd id)
  | _ => exact .inl ⟨client', hc, hp⟩

/-- After a sequence of effects the names and the registrations go together. -/
theorem bindings_of_effects {es : List Event} (h : Agrees name s) (hfree : Unborn name s)
    (hes : Effects s es s') (hroom : Room (· = .topic) s es) :
    ∃ name', Extends name name' ∧ Agrees name' s' ∧ Unborn name' s' ∧
      ∀ c client' pubuid t, s'.clients.lookup c = some client' →
        client'.pubuidToTopicidx.getByLeft pubuid = some t →
        (∃ client, s.clients.lookup c = some client ∧
          client.pubuidToTopicidx.getByLeft pubuid = some t) ∨
        ∃ n, .registered c pubuid n ∈ es ∧ name' t = some n := by
  induction hes with
  | refl => exact ⟨name, fun _ _ h => h, h, hfree, fun c client' _ _ hc hp => .inl ⟨client', hc, hp⟩⟩
  | tail hes he ih =>
    rename_i es u e s''
    have hroom' : Room (· = .topic) s es := by
      intro k hk
      have hlt := hroom k hk
      rw [taken_append] at hlt
      omega
    have hlast : Room (· = .topic) u e.toList := by
      intro k hk
      have hlt := hroom k hk
      rw [taken_append] at hlt
      rw [hes.counters_of_room hroom' hk]
      omega
    obtain ⟨name₁, hext₁, hagrees₁, hfree₁, hbound⟩ := ih hroom'
    obtain ⟨name₂, hext₂, hagrees₂, hfree₂⟩ := hagrees₁.step hfree₁ he hlast
    refine ⟨name₂, fun t n ht => hext₂ t n (hext₁ t n ht), hagrees₂, hfree₂, ?_⟩
    intro c client' pubuid t hc hp
    rcases binding_of_effect he hc hp with ⟨client, hclient, hbinding⟩ | ⟨n, rfl, hmap⟩
    · rcases hbound c client pubuid t hclient hbinding with hold | ⟨n, hmem, hn⟩
      · exact .inl hold
      · exact .inr ⟨n, List.mem_append_left _ hmem, hext₂ t n hn⟩
    · refine .inr ⟨n, List.mem_append_right _ (by simp), hext₂ t n (hagrees₁.map n t hmap)⟩

/-- What `set_value` leaves is the value that was there, or its own. -/
theorem stored_of_setValue {v : FrcTimestampedValue} {t' : TopicIdx}
    (h : Step s (.setValue v t') s') (hvalue : s'.topicValueMap.lookup t = some value) :
    s.topicValueMap.lookup t = some value ∨ t = t' ∧ value = v := by
  obtain ⟨o, r, hx⟩ := h
  obtain ⟨-, helsewhere, ⟨-, rfl, -⟩ | ⟨-, -, hstored⟩⟩ := ends_of_exec ends_setValue_stored hx
  · exact .inl hvalue
  · by_cases ht : t = t'
    · subst ht
      cases hold : s.topicValueMap.lookup t with
      | none =>
        rw [hstored [] hold] at hvalue
        cases hvalue
        exact .inr ⟨rfl, rfl⟩
      | some old =>
        rw [hstored [old] hold] at hvalue
        have hmem := List.argmax_mem hvalue
        rw [List.singleton_append, List.mem_pair] at hmem
        rcases hmem with rfl | rfl
        · exact .inl rfl
        · exact .inr ⟨rfl, rfl⟩
    · rw [helsewhere t ht] at hvalue
      exact .inl hvalue

/-- A stored value was there before a step, or the step has set it. -/
theorem stored_of_step (h : Step s op s') (hvalue : s'.topicValueMap.lookup t = some value) :
    s.topicValueMap.lookup t = some value ∨ op = .setValue value t := by
  by_cases hop : ∀ v, op ≠ .setValue v t
  · rcases keepsValue_of_step h hop with hsame | hnone
    · exact .inl (hsame ▸ hvalue)
    · rw [hnone] at hvalue
      cases hvalue
  · push Not at hop
    obtain ⟨v, rfl⟩ := hop
    rcases stored_of_setValue h hvalue with hold | ⟨-, rfl⟩
    · exact .inl hold
    · exact .inr rfl

/-- A publication that goes through has given its index to its name. -/
theorem named_of_innerPublishTopic {o : IterOrder} {pubTopic : PublishTopic}
    (h : (innerPublishTopic o pubTopic c).exec s = .ok (.ok t, s')) :
    s'.topicMap.lookup pubTopic.name = some t := by
  have hindex : Ends (innerPublishTopic o pubTopic c) s fun r _ =>
      ∀ t, r = .ok t → t = (ensureTopic s (.fromPublishTopic pubTopic)).1 := by
    rw [innerPublishTopic_eq, ends_bind]
    have hadd : Ends (addTopic o (.fromPublishTopic pubTopic)) s _ :=
      does_addTopic (P := fun a => ∀ t how, a ≠ .gone t how) (fun _ => nofun)
        (fun _ _ => ⟨nofun, nofun⟩) fun t how h => h t how rfl
    refine ends_mono hadd fun r s₁ h₁ => ?_
    obtain ⟨-, -, hfirst⟩ := h₁
    cases r with
    | error e =>
      intro t ht
      cases ht
    | ok t₁ =>
      rw [thenEnds_ok, ends_bind]
      refine ends_mono quiet_announceTopic fun r s₂ _ => ?_
      cases r with
      | error e =>
        intro t ht
        cases ht
      | ok =>
        refine (thenEnds_ok _ _ _).mpr (ends_mono ends_register_put fun r s₃ h₃ => ?_)
        intro t ht
        rw [h₃.1 t ht]
        exact hfirst t₁ rfl
  have hname : Ends (innerPublishTopic o pubTopic c) s fun _ s' =>
      s'.topicMap.lookup pubTopic.name =
        some (ensureTopic s (.fromPublishTopic pubTopic)).1 :=
    ends_mono (does_innerPublishTopic (P := fun a => ∀ t how, a ≠ .gone t how) nofun (fun _ => nofun)
      (fun _ _ => ⟨nofun, nofun⟩) fun t how h => h t how rfl) fun _ _ h => h.2
  rw [ends_of_exec hname h, ends_of_exec hindex h t rfl]

end Server

section Steps

variable {conn : Connection} {msg : Message} {cmsg : ClientMsg} {op : Op}

/-- A message before the parser was there, or its client has just written it. -/
theorem Happens.coming (h : Happens codec W happening W') (hconn : W'.connections.lookup k = some conn)
    (hmsg : msg ∈ conn.coming) :
    (∃ conn, W.connections.lookup k = some conn ∧ msg ∈ conn.coming) ∨
    ∃ i p m, happening = .writes i ∧ W.peers.lookup i = some p ∧ p.connection = k ∧
      p.system.pool.queue.head? = some m ∧ msg = codec.written m := by
  have hput : ∀ {k₀ conn₀ conn₁}, W'.connections = W.connections.insert k₀ conn₁ →
      W.connections.lookup k₀ = some conn₀ → (msg ∈ conn₁.coming → msg ∈ conn₀.coming) →
      ∃ conn, W.connections.lookup k = some conn ∧ msg ∈ conn.coming := by
    intro k₀ conn₀ conn₁ heq hconn₀ hkept
    rw [heq, KeyMap.lookup_insert] at hconn
    split_ifs at hconn with hk
    · cases hconn
      exact ⟨conn₀, hk ▸ hconn₀, hkept hmsg⟩
    · exact ⟨conn, hconn, hmsg⟩
  have hnew : ∀ {k₀}, W'.connections = W.connections.insert k₀ {} →
      ∃ conn, W.connections.lookup k = some conn ∧ msg ∈ conn.coming := by
    intro k₀ heq
    rw [heq, KeyMap.lookup_insert] at hconn
    split_ifs at hconn
    · cases hconn
      cases hmsg
    · exact ⟨conn, hconn, hmsg⟩
  cases h with
  | joins | reconnects => exact .inl (hnew rfl)
  | reads _ hconn₀ | accepts hconn₀ | answers hconn₀ | forwards hconn₀ | replies hconn₀
  | closes hconn₀ => exact .inl (hput rfl hconn₀ id)
  | passes hconn₀ =>
    refine .inl (hput rfl hconn₀ fun h => ?_)
    exact (List.mem_append.mp h).elim
      (fun h => List.mem_append_left _ (List.mem_of_mem_eraseIdx h)) (List.mem_append_right _)
  | ends hconn₀ => exact .inl (hput rfl hconn₀ (List.mem_append_right _))
  | filters _ hconn₀ _ hinbox =>
    refine .inl (hput rfl hconn₀ fun h => ?_)
    rw [Connection.coming, hinbox]
    simp only [Connection.coming, List.mem_append] at h
    rcases h with (h | h) | h
    · exact List.mem_append_left _ h
    · rw [mem_passedOn h]
      simp
    · exact List.mem_append_right _ (List.mem_cons_of_mem _ h)
  | @writes i p conn₀ m queue S hp hconn₀ hqueue =>
    simp only [World.withConnection, World.withPeer, KeyMap.lookup_insert] at hconn
    split_ifs at hconn with hk
    · cases hconn
      simp only [Connection.coming, ← List.append_assoc] at hmsg
      rcases List.mem_append.mp hmsg with hmsg | hmsg
      · exact .inl ⟨conn₀, hk ▸ hconn₀, hmsg⟩
      · exact .inr ⟨i, p, m, rfl, hp, hk.symm, by rw [hqueue]; rfl, List.mem_singleton.mp hmsg⟩
    · exact .inl ⟨conn, hconn, hmsg⟩
  | _ => exact .inl ⟨conn, hconn, hmsg⟩

theorem mem_sending {cmsg' : ClientMsg} (h : cmsg ∈ (W.sending cmsg').incoming) :
    cmsg ∈ W.incoming ∨ cmsg = cmsg' := by
  unfold World.sending at h
  split_ifs at h
  · exact (List.mem_append.mp h).imp_right List.mem_singleton.mp
  · exact .inl h

/-- A message on the parser's channel was there, or it comes from a connection, or it says that one
has ended. -/
theorem Happens.incoming (h : Happens codec W happening W') (hcmsg : cmsg ∈ W'.incoming) :
    cmsg ∈ W.incoming ∨
    (∃ k conn, W.connections.lookup k = some conn ∧ W.Admits k cmsg.clientIdx ∧
      cmsg.msg ∈ conn.coming) ∨
    ∃ c identity, cmsg = closeMsg codec.json c identity := by
  cases h with
  | @passes k conn c n m hconn hc hm hroom =>
    rcases mem_sending hcmsg with hold | rfl
    · exact .inl hold
    · exact .inr (.inl ⟨k, conn, hconn, ⟨conn, hconn, hc⟩,
        List.mem_append_left _ (List.mem_of_getElem? hm)⟩)
  | closes =>
    rcases mem_sending hcmsg with hold | rfl
    · exact .inl hold
    · exact .inr (.inr ⟨_, _, rfl⟩)
  | parses _ hnext =>
    rw [hnext]
    exact .inl (List.mem_cons_of_mem _ hcmsg)
  | panics => cases hcmsg
  | _ => exact .inl hcmsg

/-- A piece of the parser's work was there, or it comes from a message on the channel. -/
theorem Happens.parsing (h : Happens codec W happening W') {e : ClientIdx × ParserTask}
    (he : e ∈ W'.parsing) :
    e ∈ W.parsing ∨ ∃ cmsg ∈ W.incoming, cmsg.clientIdx = e.1 ∧ e.2 ∈ codec.tasks cmsg.msg := by
  cases h with
  | parses _ hnext =>
    obtain ⟨task, htask, rfl⟩ := List.mem_map.mp he
    exact .inr ⟨_, hnext ▸ List.mem_cons_self .., rfl, htask⟩
  | handles hnext =>
    rw [hnext]
    exact .inl (List.mem_cons_of_mem _ he)
  | panics => cases he
  | _ => exact .inl he

/-- A value that a handle has yet to set was there, or its topic has just been published. -/
theorem Happens.pending (h : Happens codec W happening W') {e : FrcTimestampedValue × TopicIdx}
    (he : e ∈ W'.pending) :
    e ∈ W.pending ∨ ∃ n v props uid now, happening = .publishes n v props uid now ∧
      e.1 = ⟨now, v⟩ ∧ W'.server.topicMap.lookup n = some e.2 := by
  cases h with
  | @publishes o r s name v props uid now h =>
    rcases List.mem_append.mp he with hold | hnew
    · exact .inl hold
    · cases r with
      | error e => cases hnew
      | ok t =>
        rw [List.mem_singleton.mp hnew]
        exact .inr ⟨name, v, props, uid, now, rfl, rfl, named_of_innerPublishTopic h⟩
  | sets => exact .inl (List.mem_of_mem_eraseIdx he)
  | _ => exact .inl he

/-- A topic is published for the client that has asked for it, or for the server itself. -/
theorem Asked.published {pubTopic : PublishTopic}
    (h : Asked codec W happening (.innerPublishTopic pubTopic c)) :
    (c, .ntMessage (.publish pubTopic)) ∈ W.parsing ∨ c = serverClientIdx := by
  cases h with
  | @handles c' task parsing _ now hnext hop =>
    cases task with
    | ntMessage message =>
      cases message <;> cases hop
      exact .inl (hnext ▸ List.mem_cons_self ..)
    | value data =>
      obtain ⟨e, -, heq⟩ := Option.map_eq_some_iff.mp hop
      cases heq
  | operates hop => cases hop
  | publishes => exact .inr rfl

/-- A value is set that a client has written, or that a handle has yet to set. -/
theorem Asked.valued (h : Asked codec W happening (.setValue value t)) :
    (∃ c data, (c, .value data) ∈ W.parsing ∧
      updateOf codec.tryFrom W.server c data = some (t, value)) ∨ (value, t) ∈ W.pending := by
  cases h with
  | @handles c task parsing _ now hnext hop =>
    cases task with
    | ntMessage message => cases message <;> cases hop
    | value data =>
      obtain ⟨e, hupdate, heq⟩ := Option.map_eq_some_iff.mp hop
      cases heq
      exact .inl ⟨c, data, hnext ▸ List.mem_cons_self .., hupdate⟩
  | operates hop => cases hop
  | sets hn => exact .inr (List.mem_of_getElem? hn)

end Steps

section Run

/-- What happens brings the parser only what clients write. -/
theorem Relayed.step (h : Relayed codec log W) (hjson : codec.json.Framed)
    (hstep : Happens codec W happening W') : Relayed codec (log ++ [(W, happening)]) W' := by
  have hW : W ∈ passed log W := List.mem_append_right _ (List.mem_singleton_self W)
  refine ⟨?_, ?_, ?_⟩
  · intro k conn hconn msg hmsg
    rcases hstep.coming hconn hmsg with ⟨conn₀, hconn₀, hold⟩ | ⟨i, p, m, rfl, hp, hk, hqueue, heq⟩
    · obtain ⟨i, m, hwrote, heq⟩ := h.coming k conn₀ hconn₀ msg hold
      exact ⟨i, m, hwrote.snoc, heq⟩
    · exact ⟨i, m, ⟨W, p, List.mem_append_right _ (List.mem_singleton_self _), hp, hk, hqueue⟩, heq⟩
  · intro cmsg hcmsg task htask
    rcases hstep.incoming hcmsg with hold | ⟨k, conn, hconn, hk, hmsg⟩ | ⟨c, identity, rfl⟩
    · obtain ⟨m, hm, hmem⟩ := h.incoming cmsg hold task htask
      exact ⟨m, hm.snoc, hmem⟩
    · obtain ⟨i, m, hwrote, heq⟩ := h.coming k conn hconn cmsg.msg hmsg
      rw [heq] at htask
      exact ⟨m, Ordered.snoc ⟨W, hW, i, k, hk, hwrote⟩, htask⟩
    · -- the parser does not understand the close message
      simp only [closeMsg, Codec.tasks, fromStr_toStringOne hjson] at htask
      cases htask
  · intro e he
    rcases hstep.parsing he with hold | ⟨cmsg, hcmsg, hc, htask⟩
    · obtain ⟨m, hm, hmem⟩ := h.parsing e hold
      exact ⟨m, hm.snoc, hmem⟩
    · obtain ⟨m, hm, hmem⟩ := h.incoming cmsg hcmsg e.2 htask
      rw [hc] at hm
      exact ⟨m, hm.snoc, hmem⟩

theorem relayed_of_begins (h : Begins W) : Relayed codec [] W := by
  obtain ⟨s, -, rfl⟩ := h
  refine ⟨?_, ?_, ?_⟩ <;> intros <;> contradiction

/-- What the server is asked to do keeps to what clients have written and handles have set. -/
theorem Traced.server (h : Traced codec name log W) (hsound : codec.Sound)
    (hreads : codec.ReadsValues) (hbelow : Attributed (passed log W) W) {op : Op}
    (hasked : Asked codec W happening op) (hop : Step W.server op W'.server)
    (hagrees : Agrees name W.server) (hfree : Unborn name W.server)
    (run : WorldsWhere codec guard u W)
    (hu : u .topic + created W.server W'.server .topic < 2 ^ 32) :
    ∃ name', Extends name name' ∧ Agrees name' W'.server ∧ Unborn name' W'.server ∧
      (∀ c client pubuid t, c ≠ serverClientIdx → W'.server.clients.lookup c = some client →
        client.pubuidToTopicidx.getByLeft pubuid = some t →
        ∃ n, name' t = some n ∧ Published log W c pubuid n) ∧
      ∀ t value, W'.server.topicValueMap.lookup t = some value →
        ∃ n, name' t = some n ∧ Sourced codec log W n value := by
  obtain ⟨es, hes, hmay, hn⟩ := hop.does
  obtain ⟨name', hext, hagrees', hfree', hbound⟩ :=
    bindings_of_effects hagrees hfree hes (run.runs.room hes hn fun k hk => hk ▸ hu)
  refine ⟨name', hext, hagrees', hfree', ?_, ?_⟩
  · intro c client pubuid t hc hclient hbinding
    rcases hbound c client pubuid t hclient hbinding with ⟨client₀, hclient₀, hold⟩ | ⟨n, hmem, hname⟩
    · obtain ⟨n, hname, hpub⟩ := h.bindings c client₀ pubuid t hc hclient₀ hold
      exact ⟨n, hext t n hname, hpub⟩
    · obtain ⟨pubTopic, rfl, hpubuid, hn⟩ := hmay _ hmem
      rcases hasked.published with htask | hserver
      · obtain ⟨m, hm, htask⟩ := h.relayed.parsing _ htask
        obtain ⟨messages, l, rfl, hread, hmessage⟩ := message_written htask
        exact ⟨n, hname, messages, pubTopic, hm, hsound.publish messages l hread pubTopic hmessage,
          hpubuid, hn⟩
      · exact (hc hserver).elim
  · intro t value hvalue
    rcases stored_of_step hop hvalue with hold | rfl
    · obtain ⟨n, hname, hsourced⟩ := h.values t value hold
      exact ⟨n, hext t n hname, hsourced⟩
    · rcases hasked.valued with ⟨c, data, htask, hupdate⟩ | hpending
      · obtain ⟨m, hm, htask⟩ := h.relayed.parsing _ htask
        obtain ⟨id, type, timestamp, v, rfl, rfl⟩ := value_written hreads htask
        obtain ⟨pubuid, client, rfl, hclient, hbinding, hvalue⟩ := update_decoded hupdate
        obtain ⟨V, hV, i, k, hk, hwrote⟩ := hm
        have hc : c ≠ serverClientIdx := (hbelow.below V hV k c hk).1
        obtain ⟨n, hname, hpub⟩ := h.bindings c client pubuid t hc hclient hbinding
        exact ⟨n, hext t n hname, .inr ⟨c, pubuid, hc, hpub, type, timestamp, v,
          ⟨V, hV, i, k, hk, hwrote⟩, hvalue⟩⟩
      · obtain ⟨n, hname, hsourced⟩ := h.pending _ hpending
        exact ⟨n, hext t n hname, hsourced⟩

theorem Traced.step (h : Traced codec name log W) (hsound : codec.Sound)
    (hreads : codec.ReadsValues) (hjson : codec.json.Framed)
    (hbelow : Attributed (passed log W) W) (hstep : Happens codec W happening W')
    (hagrees : Agrees name W.server) (hfree : Unborn name W.server)
    (run : WorldsWhere codec guard u W)
    (hu : u .topic + created W.server W'.server .topic < 2 ^ 32) :
    ∃ name', Agrees name' W'.server ∧ Unborn name' W'.server ∧
      Traced codec name' (log ++ [(W, happening)]) W' := by
  have hserver : ∃ name', Extends name name' ∧ Agrees name' W'.server ∧ Unborn name' W'.server ∧
      (∀ c client pubuid t, c ≠ serverClientIdx → W'.server.clients.lookup c = some client →
        client.pubuidToTopicidx.getByLeft pubuid = some t →
        ∃ n, name' t = some n ∧ Published log W c pubuid n) ∧
      ∀ t value, W'.server.topicValueMap.lookup t = some value →
        ∃ n, name' t = some n ∧ Sourced codec log W n value := by
    rcases hstep.asked with heq | ⟨op, hasked, hop⟩
    · rw [heq]
      exact ⟨name, fun _ _ h => h, hagrees, hfree, h.bindings, h.values⟩
    · exact h.server hsound hreads hbelow hasked hop hagrees hfree run hu
  obtain ⟨name', hext, hagrees', hfree', hbindings, hvalues⟩ := hserver
  refine ⟨name', hagrees', hfree', h.relayed.step hjson hstep, ?_, ?_, ?_⟩
  · intro c client pubuid t hc hclient hbinding
    obtain ⟨n, hname, hpub⟩ := hbindings c client pubuid t hc hclient hbinding
    exact ⟨n, hname, hpub.snoc⟩
  · intro e he
    rcases hstep.pending he with hold | ⟨n, v, props, uid, now, rfl, hvalue, hmap⟩
    · obtain ⟨n, hname, hsourced⟩ := h.pending e hold
      exact ⟨n, hext e.2 n hname, hsourced.snoc⟩
    · exact ⟨n, hagrees'.map n e.2 hmap, .inl ⟨W, v, props, uid, now,
        List.mem_append_right _ (List.mem_singleton_self _), hvalue⟩⟩
  · intro t value hvalue
    obtain ⟨n, hname, hsourced⟩ := hvalues t value hvalue
    exact ⟨n, hname, hsourced.snoc⟩

/-- A server that has just started has no values, and no client but its own. -/
theorem traced_of_begins (h : Begins W) : Traced codec name [] W := by
  have hrelayed : Relayed codec [] W := relayed_of_begins h
  obtain ⟨s, hs, rfl⟩ := h
  rw [hs.eq_started] at hrelayed ⊢
  refine ⟨hrelayed, ?_, ?_, ?_⟩
  · intro c client pubuid t hc hclient
    have hother : started.clients.lookup c = none := by
      have hclients : started.clients = booted.clients := rfl
      rw [hclients, booted, KeyMap.lookup_insert, if_neg hc]
      rfl
    rw [hother] at hclient
    cases hclient
  · intro e he
    cases he
  · intro t value hvalue
    have hnone : started.topicValueMap.lookup t = none := rfl
    rw [hnone] at hvalue
    cases hvalue

theorem traced_of_logged (hsound : codec.Sound) (hreads : codec.ReadsValues)
    (hjson : codec.json.Framed) (run : LoggedWorlds codec guard u (log, W))
    (htopics : u .topic < 2 ^ 32) (hclients : u .client < 2 ^ 32) :
    ∃ name, Agrees name W.server ∧ Unborn name W.server ∧ Traced codec name log W := by
  refine run.invariant (fun u p => u .topic < 2 ^ 32 → u .client < 2 ^ 32 →
    ∃ name, Agrees name p.2.server ∧ Unborn name p.2.server ∧ Traced codec name p.1 p.2) ?_ ?_
    htopics hclients
  · rintro ⟨log, W⟩ ⟨rfl, hbegins⟩ - -
    obtain ⟨name, hall, hfree⟩ := allAgree_of_begins codec hbegins
    exact ⟨name, hall.server, hfree, traced_of_begins hbegins⟩
  · rintro u ⟨log, W⟩ happening ⟨log', W'⟩ run ih - ⟨hstep, rfl⟩ htopics hclients
    rw [Pi.add_apply] at htopics hclients
    obtain ⟨name, hagrees, hfree, htraced⟩ := ih (by omega) (by omega)
    have worlds : WorldsWhere codec guard u W := Lib.Run.Logged.run (p := (log, W)) run
    exact htraced.step hsound hreads hjson (attributed_of_logged run (by omega)) hstep hagrees hfree
      worlds htopics

/-- In every run that creates fewer than 2^32 topics and fewer than 2^32 clients: a value that the
server stores for a topic has been published under its name by a handle of the server, or one client
has written, on one connection, both a publication of that name and the value under its `pubuid`. -/
theorem stored_value_sourced (hsound : codec.Sound) (hreads : codec.ReadsValues)
    (hjson : codec.json.Framed) (run : LoggedWorlds codec guard u (log, W))
    (htopics : u .topic < 2 ^ 32) (hclients : u .client < 2 ^ 32) :
    ∀ t topic value, W.server.topics.lookup t = some topic →
      W.server.topicValueMap.lookup t = some value →
      (∃ V v props uid now, (V, .publishes topic.name v props uid now) ∈ log ∧ value = ⟨now, v⟩) ∨
      ∃ i k messages pub type timestamp v, Wrote log i k (.text messages) ∧
        .publish pub ∈ messages ∧ pub.name = topic.name ∧
        Wrote log i k (.value (.unsignedInt pub.pubuid) type timestamp v) ∧
        (codec.tryFrom v).map (⟨timestamp.toUInt64, ·⟩) = some value := by
  obtain ⟨name, hagrees, -, htraced⟩ :=
    traced_of_logged hsound hreads hjson run htopics hclients
  have hattributed := attributed_of_logged run hclients
  have hheld := held_of_logged run
  have hholds : ∀ {i k m}, Wrote log i k m → ∃ V ∈ passed log W, V.Holds i k := by
    rintro i k m ⟨V, p, hV, hp, hk, -⟩
    exact ⟨V, List.mem_append_left _ (List.mem_map_of_mem hV), p, hp, hk⟩
  intro t topic value ht hvalue
  obtain ⟨n, hname, hsourced⟩ := htraced.values t value hvalue
  rw [hagrees.topics t topic ht] at hname
  cases hname
  rcases hsourced with hhandle | ⟨c, pubuid, -, hpub, hgiven⟩
  · exact .inl hhandle
  · obtain ⟨messages, pub, ⟨V, hV, i, k, hk, hwrote⟩, hmem, rfl, hpubname⟩ := hpub
    obtain ⟨type, timestamp, v, ⟨V', hV', i', k', hk', hwrote'⟩, heq⟩ := hgiven
    have hconnection : k' = k := hattributed.one V' hV' V hV k' k c hk' hk
    subst hconnection
    obtain ⟨U, hU, hi⟩ := hholds hwrote
    obtain ⟨U', hU', hi'⟩ := hholds hwrote'
    have hpeer : i' = i := hheld.one U' hU' U hU i' i k' hi' hi
    subst hpeer
    exact .inr ⟨i', k', messages, pub, type, timestamp, v, hwrote, hmem, hpubname, hwrote', heq⟩

open MsgPack in
/-- Values that are no integers are not read at all. -/
theorem readsValues_codecOf (texts : List (List NTMessage × String)) :
    (codecOf texts).ReadsValues := by
  intro id type timestamp value data hdata
  by_cases hinteger : ∃ i, value = .integer i ∧ 0 ≤ i ∧ i < 2 ^ 64
  · obtain ⟨i, rfl, hlow, hlt⟩ := hinteger
    have hread := readBy_writeIntegers id timestamp.toUInt64 type.asU8 hlow hlt []
    rw [List.append_nil] at hread
    have hall : readAll readIntegers
        (Client.publishValueWTimestamp writeIntegers id type timestamp (.integer i)) =
        [BinaryMessage.decoded ⟨id, timestamp.toUInt64, type.asU8, .integer i⟩] :=
      (readAll_some hread).trans (congrArg _ (readAll_none (fromRead_nil _)))
    simp only [codecOf] at hdata
    rwa [hall, List.mem_singleton] at hdata
  · have hbody : writeIntegers.writeValue value = [0xc0] := by
      cases value with
      | integer i => exact if_neg fun h => hinteger ⟨i, rfl, h⟩
      | _ => rfl
    obtain ⟨f, g, n, hf, hg, -, hbytes⟩ := bytes_writeIntegers id timestamp.toUInt64 type.asU8
    have hnone : readIntegers.fromRead
        (Client.publishValueWTimestamp writeIntegers id type timestamp value) = none := by
      have hnil : readInt [0xc0] = none := by decide
      have hfrom : readIntegers.fromRead = readFour := rfl
      have hwritten : Client.publishValueWTimestamp writeIntegers id type timestamp value = _ :=
        hbytes value
      rw [hwritten, hbody, hfrom, readFour, if_pos rfl]
      simp only [readInt_bytes hf, readInt_bytes hg, readInt_bytes (fits_u8 _), hnil,
        Option.bind_eq_bind, Option.bind_some, Option.bind_none]
    simp only [codecOf] at hdata
    rw [readAll_none hnone] at hdata
    cases hdata

/-- A client has published a topic and a value. -/
theorem stored_value_sourced_subscribesToValue : ∃ u log W topic value,
    LoggedWorlds (codecOf subscribeTexts) (fun _ _ => True) u (log, W) ∧
      W.server.topics.lookup 5 = some topic ∧ topic.name = "x" ∧
      W.server.topicValueMap.lookup 5 = some value ∧
      ((∃ V v props uid now, (V, .publishes "x" v props uid now) ∈ log ∧ value = ⟨now, v⟩) ∨
      ∃ i k messages pub type timestamp v, Wrote log i k (.text messages) ∧
        .publish pub ∈ messages ∧ pub.name = "x" ∧
        Wrote log i k (.value (.unsignedInt pub.pubuid) type timestamp v) ∧
        ((codecOf subscribeTexts).tryFrom v).map (⟨timestamp.toUInt64, ·⟩) = some value) := by
  have hrun : (World.after (codecOf subscribeTexts) .stored anyHappening subscribesToValue).map
      (fun W => ((W.server.topics.lookup 5).map Topic.name,
        (W.server.topicValueMap.lookup 5).isSome)) =
      some (some "x", true) := by
    decide +kernel
  obtain ⟨W, hW, hview⟩ := Option.map_eq_some_iff.mp hrun
  simp only [Prod.mk.injEq] at hview
  obtain ⟨htopic, hstored⟩ := hview
  obtain ⟨topic, htopic, hname⟩ := Option.map_eq_some_iff.mp htopic
  obtain ⟨value, hvalue⟩ := Option.isSome_iff_exists.mp hstored
  obtain ⟨u, worlds, hu⟩ := worlds_of_after hW
  obtain ⟨log, run⟩ := exists_logged worlds
  have hsource := stored_value_sourced (sound_codecOf (by decide) (by decide))
    (readsValues_codecOf _) (framed_codecOf (by decide)) run ((hu .topic).trans_lt (by decide))
    ((hu .client).trans_lt (by decide)) 5 topic value htopic hvalue
  rw [hname] at hsource
  exact ⟨u, log, W, topic, value, run, htopic, hname, hvalue, hsource⟩

end Run

end NetTables.System
