import NetTables.System.World

namespace NetTables.System

open Lib Lib.Fallible Spec Server

/-- The client reads the texts of the channel as the server writes them. -/
def Codec.ReadsTexts (codec : Codec) (ch : Outgoing) : Prop :=
  ∀ messages, .text messages ∈ ch.sent →
    codec.json.fromStr (codec.json.toStringList messages) = some messages

def Codec.readsTexts (codec : Codec) (ch : Outgoing) : Bool :=
  ch.sent.all fun
    | .text messages => codec.json.fromStr (codec.json.toStringList messages) = some messages
    | _ => true

theorem readsTexts_of {codec : Codec} {ch : Outgoing} (h : codec.readsTexts ch = true) :
    codec.ReadsTexts ch := by
  intro messages hm
  have hall := List.all_eq_true.mp h _ hm
  exact of_decide_eq_true hall

/-- What the client finds about topics in a message. -/
def Codec.told (codec : Codec) (m : Message) : List NTMessage :=
  match codec.received m with
  | .text (some messages) => messages.filter Client.isAnnouncing
  | _ => []

variable {codec : Codec} {W W' : World} {p : Peer} {conn : Connection} {l : List NTMessage}
  {S : Client.System} {e : Client.Event}

section Texts

theorem isAnnouncing_of {m : NTMessage} (h : (∃ a, m = .announce a) ∨ ∃ u, m = .unAnnounce u) :
    Client.isAnnouncing m = true := by
  rcases h with ⟨a, rfl⟩ | ⟨u, rfl⟩ <;> rfl

/-- What the outgoing loop makes of a message of the channel says what that message says. -/
theorem told_forward {ch : Outgoing} (hjson : codec.ReadsTexts ch) {m : OutMessage}
    (hsent : m ∈ ch.sent) (hm : ∀ n ∈ m.texts, Client.isAnnouncing n = true) :
    ((forward (m.toMessage codec.json codec.rmp.toRmpEncode)).filterMap SinkCall.fed).flatMap
      codec.told = m.texts := by
  rw [fed_forward]
  cases m with
  | text messages =>
    have hread := hjson messages hsent
    have hall := List.filter_eq_self.mpr hm
    simp only [textOf, Option.toList_some, List.flatMap_cons, List.flatMap_nil, Codec.told,
      Codec.received, hread, List.append_nil]
    exact hall
  | binary frames => rfl
  | flush => rfl

/-- The answers of a connection say nothing about topics. -/
theorem told_answer {now : UInt64} {m : Message} (h : Answered codec now m) : codec.told m = [] := by
  rcases answer_cases h with rfl | ⟨time, rfl⟩ <;> rfl

end Texts

/-- Of the messages about topics that a connection has brought the client has handled a stretch
since its table was set up, and the rest is what it is at. On a new connection the table may still
have to be set up. -/
def Follows (told : Client.Told) (l : List NTMessage) : Prop :=
  (∃ before, l = before ++ (told.handled.getD [] ++ told.pending)) ∨
    told.opening .socket = true ∧ l = []

section Follows

variable {told : Client.Told}

theorem Follows.stepped (h : Follows told l) (t : Client.TaskId)
    (hopening : told.opening .socket = true → told.pending = []) :
    Follows (told.stepped t) l := by
  unfold Client.Told.stepped
  split_ifs with ht hsocket
  · rcases h with ⟨before, rfl⟩ | ⟨hnew, rfl⟩
    · exact .inl ⟨before ++ told.handled.getD [], by simp⟩
    · exact .inl ⟨[], by simp [hopening hnew]⟩
  · rcases h with ⟨before, rfl⟩ | ⟨hnew, rfl⟩
    · have hsplit : told.pending = told.pending.head?.toList ++ told.pending.tail := by
        cases told.pending <;> rfl
      cases hhandled : told.handled with
      | none =>
        refine .inl ⟨before ++ told.pending.head?.toList, ?_⟩
        simp only [Option.getD_none, Option.map_none, List.nil_append, List.append_assoc]
        rw [← hsplit]
      | some handled =>
        refine .inl ⟨before, ?_⟩
        simp only [Option.getD_some, Option.map_some, List.append_assoc]
        rw [← hsplit]
    · subst hsocket
      exact absurd hnew ht
  · exact h

/-- What the client does on its own leaves what its connection has brought. -/
theorem Follows.after_own (h : Follows p.told l) (hown : isOwn e = true)
    (hmatches : Client.Matches codec.ofTypeStr (p.told, p.system)) :
    Follows (p.after e S).told l := by
  cases e with
  | moves t =>
    simp only [Peer.after, Client.Told.after]
    split
    · exact h.stepped t hmatches.opening
    · exact h
  | incoming | written | reconnected => cases hown
  | _ => exact h

/-- The client handles what it reads after all that it has read before. -/
theorem Follows.after_incoming (h : Follows p.told l) {m : Message}
    (hselects : p.system.Selects)
    (hmatches : Client.Matches codec.ofTypeStr (p.told, p.system)) :
    Follows (p.after (.incoming (codec.received m)) S).told (l ++ codec.told m) := by
  have hidle := hmatches.idle hselects.2
  have hopening : p.told.opening .socket = false := by
    cases hsocket : p.told.opening .socket with
    | false => rfl
    | true => simp [Client.Told.ahead, hsocket] at hidle
  have hpending : p.told.pending = [] := by simpa [Client.Told.ahead, hopening] using hidle
  rcases h with ⟨before, rfl⟩ | ⟨hnew, -⟩
  · refine .inl ⟨before, ?_⟩
    simp only [Peer.after, Codec.told]
    cases codec.received m with
    | text messages => cases messages <;> simp [Client.Told.after, hpending]
    | _ => simp [Client.Told.after, hpending]
  · rw [hopening] at hnew
    cases hnew

end Follows

/-- What a connection has brought to its client is the beginning of what its channel says. -/
structure Brings (codec : Codec) (s : InnerServer) (conn : Connection) : Prop where
  due : ∀ m ∈ conn.due, codec.told m = []
  waiting : conn.admission = .waiting → conn.taken = 0 ∧ conn.heard = [] ∧ conn.wire = []
  known : ∀ c, conn.admission = .admitted c → c.toNat < s.counters.clientIdx.toNat
  taken : ∀ c client, conn.admission = .admitted c → s.clients.lookup c = some client →
    ∃ ch, client.subOuput = some ch ∧ conn.taken ≤ ch.sent.length ∧
      (codec.ReadsTexts ch → (conn.heard ++ conn.wire).flatMap codec.told =
        (ch.sent.take conn.taken).flatMap OutMessage.texts)

/-- Each client has a connection of its own, and handles what that brings in its order. -/
structure InOrder (codec : Codec) (W : World) : Prop where
  brings : ∀ k conn, W.connections.lookup k = some conn → Brings codec W.server conn
  follows : ∀ i p, W.peers.lookup i = some p → ∃ conn,
    W.connections.lookup p.connection = some conn ∧ Follows p.told (conn.heard.flatMap codec.told)
  apart : ∀ i j p q, W.peers.lookup i = some p → W.peers.lookup j = some q →
    p.connection = q.connection → i = j

section Brings

variable {s s' : InnerServer}

/-- A step of the server leaves what is on the channels. -/
theorem Brings.step {u : Kind → Nat} {op : Op} (h : Brings codec s conn) (run : Runs u s)
    (hop : Step s op s') (hu : u .client + created s s' .client < 2 ^ 32) :
    Brings codec s' conn where
  due := h.due
  waiting := h.waiting
  known c hc := by
    have hcounter : s'.counters.clientIdx.toNat =
        s.counters.clientIdx.toNat + created s s' .client := hop.counters run hu
    have hlt := h.known c hc
    omega
  taken c client' hc hclient' := by
    obtain ⟨client, hclient, hcontinued⟩ := hop.continued run hu (h.known c hc) hclient'
    obtain ⟨ch, hch, hle, htold⟩ := h.taken c client hc hclient
    unfold Continued at hcontinued
    rw [hch] at hcontinued
    generalize hch' : client'.subOuput = output at hcontinued
    cases hcontinued with
    | @some _ ch' hmore =>
      obtain ⟨more, hsent, -⟩ := hmore
      refine ⟨ch', rfl, ?_, fun hjson => ?_⟩
      · rw [hsent, List.length_append]
        omega
      · rw [htold fun messages hm => hjson messages (hsent ▸ List.mem_append_left _ hm), hsent,
          List.take_append_of_le_length hle]

/-- A client that has just been made has a channel. -/
theorem channel_of_connectClient {o : IterOrder} {identity unique : ClientIdentity} {c : ClientIdx}
    (h : (connectClient o identity).exec s = .ok (.ok (unique, c), s')) :
    ∃ client ch, s'.clients.lookup c = some client ∧ client.subOuput = some ch := by
  have hends : Ends (connectClient o identity) s fun r s' => ∀ unique c, r = .ok (unique, c) →
      ∃ client ch, s'.clients.lookup c = some client ∧ client.subOuput = some ch := by
    rw [ends_connectClient]
    split_ifs
    · intro unique c hr
      cases hr
    · intro unique c hr
      cases hr
      refine ⟨.new (uniqueIdentity s identity), {}, ?_, rfl⟩
      rw [connected_clients, KeyMap.lookup_insert, if_pos rfl]
  exact ends_of_exec hends h unique c rfl

/-- The connection of a client that has just been made. -/
theorem brings_admitted {u : Kind → Nat} (run : Runs u s') (hu : u .client < 2 ^ 32)
    {c : ClientIdx} {client : ConnectedClient} (hclient : s'.clients.lookup c = some client)
    {ch : Outgoing} (hch : client.subOuput = some ch) (h : Brings codec s conn)
    (hwaiting : conn.admission = .waiting) (identity : Option ClientIdentity) :
    Brings codec s' { conn with admission := .admitted c, identity } where
  due := h.due
  waiting hc := by cases hc
  known c' hc' := by
    cases hc'
    exact (run.identified hu).clients_lt c ((KeyMap.mem_iff_lookup _ _).mpr ⟨client, hclient⟩)
  taken c' client' hc' hclient' := by
    cases hc'
    rw [hclient] at hclient'
    cases hclient'
    obtain ⟨htaken, hheard, hwire⟩ := h.waiting hwaiting
    refine ⟨ch, hch, ?_, ?_⟩
    · simp [htaken]
    · simp [htaken, hheard, hwire]

/-- One more message is taken from the channel. -/
theorem Brings.forwarded (h : Brings codec s conn) (hannouncing : Announcing s)
    {c : ClientIdx} (hc : conn.admission = .admitted c) {client : ConnectedClient}
    (hclient : s.clients.lookup c = some client) {ch : Outgoing} (hch : client.subOuput = some ch) {m : OutMessage}
    (hm : ch.sent[conn.taken]? = some m) :
    Brings codec s { conn with
      taken := conn.taken + 1
      wire := conn.wire ++
        (forward (m.toMessage codec.json codec.rmp.toRmpEncode)).filterMap SinkCall.fed } where
  due := h.due
  waiting hwaiting := by
    rw [hwaiting] at hc
    cases hc
  known := h.known
  taken c' client' hc' hclient' := by
    have hsame : c = c' := Admission.admitted.inj (hc.symm.trans hc')
    subst hsame
    rw [hclient] at hclient'
    cases hclient'
    obtain ⟨ch', hch', hle, htold⟩ := h.taken c client hc hclient
    rw [hch] at hch'
    cases hch'
    have hsent := List.mem_of_getElem? hm
    have hlt := (List.getElem?_eq_some_iff.mp hm).1
    refine ⟨ch, hch, hlt, fun hjson => ?_⟩
    have htexts : ∀ n ∈ m.texts, Client.isAnnouncing n = true := by
      intro n hn
      apply isAnnouncing_of
      apply hannouncing c client ch hclient hch n
      exact List.mem_flatMap.mpr ⟨m, hsent, hn⟩
    have htake : ch.sent.take (conn.taken + 1) = ch.sent.take conn.taken ++ [m] := by
      rw [List.take_add_one, hm, Option.toList_some]
    have hfed := told_forward hjson hsent htexts
    rw [htake]
    calc (conn.heard ++ (conn.wire ++ _)).flatMap codec.told
        = (conn.heard ++ conn.wire).flatMap codec.told ++ m.texts := by
          rw [← List.append_assoc, List.flatMap_append, hfed]
      _ = (ch.sent.take conn.taken ++ [m]).flatMap OutMessage.texts := by
          rw [htold hjson, List.flatMap_append, List.flatMap_singleton]

/-- It is over. -/
theorem Brings.over {conn' : Connection} (h : Brings codec s conn)
    (hdue : ∀ m ∈ conn'.due, m ∈ conn.due) (hover : conn'.admission.isOver = true) :
    Brings codec s conn' where
  due m hm := h.due m (hdue m hm)
  waiting hc := by
    rw [hc] at hover
    cases hover
  known c hc := by
    rw [hc] at hover
    cases hover
  taken c client hc := by
    rw [hc] at hover
    cases hover

/-- Messages on their way to the server or in it change nothing, as long as answers say nothing. -/
theorem Brings.waits {conn' : Connection} (h : Brings codec s conn)
    (hdue : ∀ m ∈ conn'.due, m ∈ conn.due ∨ ∃ now, Answered codec now m)
    (hadmission : conn'.admission = conn.admission) (htaken : conn'.taken = conn.taken)
    (hwire : conn'.wire = conn.wire) (hheard : conn'.heard = conn.heard) :
    Brings codec s conn' where
  due m hm := by
    rcases hdue m hm with hold | ⟨now, hanswer⟩
    · exact h.due m hold
    · exact told_answer hanswer
  waiting := by
    rw [hadmission, htaken, hwire, hheard]
    exact h.waiting
  known := by
    rw [hadmission]
    exact h.known
  taken := by
    rw [hadmission, htaken, hwire, hheard]
    exact h.taken

/-- An answer goes out. -/
theorem Brings.replied (h : Brings codec s conn) {c : ClientIdx}
    (hc : conn.admission = .admitted c) {m : Message} {replies : List Message}
    (hreplies : conn.replies = m :: replies) :
    Brings codec s { conn with replies, wire := conn.wire ++ [m] } where
  due answer hanswer := by
    refine h.due answer ?_
    rw [Connection.due, hreplies]
    exact List.mem_cons_of_mem _ hanswer
  waiting hwaiting := by
    rw [hwaiting] at hc
    cases hc
  known := h.known
  taken c client hc hclient := by
    obtain ⟨ch, hch, hle, htold⟩ := h.taken c client hc hclient
    have hm : codec.told m = [] := by
      refine h.due m ?_
      rw [Connection.due, hreplies]
      exact List.mem_cons_self ..
    refine ⟨ch, hch, hle, fun hjson => ?_⟩
    rw [← htold hjson, ← List.append_assoc, List.flatMap_append, List.flatMap_singleton, hm,
      List.append_nil]

/-- The client reads a message. -/
theorem Brings.read (h : Brings codec s conn) {m : Message} {wire : List Message}
    (hwire : conn.wire = m :: wire) :
    Brings codec s { conn with wire, heard := conn.heard ++ [m] } where
  due := h.due
  waiting hwaiting := by
    have hnone := (h.waiting hwaiting).2.2
    rw [hwire] at hnone
    cases hnone
  known := h.known
  taken c client hc hclient := by
    obtain ⟨ch, hch, hle, htold⟩ := h.taken c client hc hclient
    refine ⟨ch, hch, hle, fun hjson => ?_⟩
    rw [← htold hjson, hwire, List.append_assoc, List.singleton_append]

theorem brings_new (s : InnerServer) : Brings codec s {} where
  due := nofun
  waiting _ := ⟨rfl, rfl, rfl⟩
  known c hc := by cases hc
  taken c client hc := by cases hc

end Brings

section Run

variable {happening : Happening} {u : Kind → Nat} {i k : Nat} {conn' : Connection} {p' : Peer}
  {guard : World → Happening → Prop}

/-- Whatever happens leaves what is on the channels. -/
theorem Happens.brings (h : Happens codec W happening W') (run : Runs u W.server)
    (hu : u .client + created W.server W'.server .client < 2 ^ 32)
    (hconn : Brings codec W.server conn) : Brings codec W'.server conn := by
  rcases h.server with heq | ⟨op, hop⟩
  · rw [heq]
    exact hconn
  · exact hconn.step run hop hu

/-- The server makes a step, and a connection is changed that has brought what it has brought. -/
theorem InOrder.connectionChanged (h : InOrder codec W)
    (hserver : ∀ conn, Brings codec W.server conn → Brings codec W'.server conn)
    (hconn : W.connections.lookup k = some conn) (hpeers : W'.peers = W.peers)
    (hconnections : W'.connections = W.connections.insert k conn')
    (hheard : conn'.heard = conn.heard) (hbrings : Brings codec W'.server conn') :
    InOrder codec W' where
  brings k' conn'' hlookup := by
    rw [hconnections, KeyMap.lookup_insert] at hlookup
    split_ifs at hlookup
    · cases hlookup
      exact hbrings
    · exact hserver conn'' (h.brings k' conn'' hlookup)
  follows i p hp := by
    obtain ⟨conn'', hlookup, hfollows⟩ := h.follows i p (hpeers ▸ hp)
    rw [hconnections, KeyMap.lookup_insert]
    split_ifs with heq
    · rw [heq, hconn] at hlookup
      cases hlookup
      exact ⟨conn', rfl, hheard ▸ hfollows⟩
    · exact ⟨conn'', hlookup, hfollows⟩
  apart i j p q hp hq := h.apart i j p q (hpeers ▸ hp) (hpeers ▸ hq)

/-- The server makes a step. -/
theorem InOrder.serverChanged (h : InOrder codec W)
    (hserver : ∀ conn, Brings codec W.server conn → Brings codec W'.server conn)
    (hpeers : W'.peers = W.peers) (hconnections : W'.connections = W.connections) :
    InOrder codec W' where
  brings k conn hlookup := hserver conn (h.brings k conn (hconnections ▸ hlookup))
  follows i p hp := by
    rw [hconnections]
    exact h.follows i p (hpeers ▸ hp)
  apart i j p q hp hq := h.apart i j p q (hpeers ▸ hp) (hpeers ▸ hq)

/-- A client makes a step with its connection. -/
theorem InOrder.peerChanged (h : InOrder codec W) (hp : W.peers.lookup i = some p)
    (hserver : W'.server = W.server) (hpeers : W'.peers = W.peers.insert i p')
    (hsame : p'.connection = p.connection)
    (hconnections : ∀ k, W'.connections.lookup k =
      if k = p.connection then some conn' else W.connections.lookup k)
    (hbrings : Brings codec W.server conn')
    (hfollows : Follows p'.told (conn'.heard.flatMap codec.told)) : InOrder codec W' where
  brings k conn hlookup := by
    rw [hserver]
    rw [hconnections] at hlookup
    split_ifs at hlookup
    · cases hlookup
      exact hbrings
    · exact h.brings k conn hlookup
  follows j q hq := by
    rw [hpeers, KeyMap.lookup_insert] at hq
    rw [hconnections]
    split_ifs at hq with hji
    · cases hq
      exact ⟨conn', if_pos hsame, hfollows⟩
    · obtain ⟨conn, hlookup, hothers⟩ := h.follows j q hq
      have hne : q.connection ≠ p.connection := fun heq => hji (h.apart j i q p hq hp heq)
      exact ⟨conn, (if_neg hne).trans hlookup, hothers⟩
  apart j j' q q' hq hq' heq := by
    have hold : ∀ j q, W'.peers.lookup j = some q →
        ∃ q', W.peers.lookup j = some q' ∧ q'.connection = q.connection := by
      intro j q hq
      rw [hpeers, KeyMap.lookup_insert] at hq
      split_ifs at hq with hji
      · cases hq
        exact ⟨p, hji ▸ hp, hsame.symm⟩
      · exact ⟨q, hq, rfl⟩
    obtain ⟨q₁, hq₁, hsame₁⟩ := hold j q hq
    obtain ⟨q₂, hq₂, hsame₂⟩ := hold j' q' hq'
    exact h.apart j j' q₁ q₂ hq₁ hq₂ (by rw [hsame₁, hsame₂, heq])

/-- A client is at a new connection. -/
theorem InOrder.newConnection (h : InOrder codec W) (hk : k ∉ W.connections)
    (hnew : p'.connection = k) (hfollows : Follows p'.told []) :
    InOrder codec ((W.withPeer i p').withConnection k {}) where
  brings k' conn hlookup := by
    simp only [World.withConnection, World.withPeer, KeyMap.lookup_insert] at hlookup
    split_ifs at hlookup
    · cases hlookup
      exact brings_new _
    · exact h.brings k' conn hlookup
  follows j q hq := by
    simp only [World.withConnection, World.withPeer, KeyMap.lookup_insert] at hq ⊢
    split_ifs at hq
    · cases hq
      exact ⟨{}, if_pos hnew, hfollows⟩
    · obtain ⟨conn, hlookup, hothers⟩ := h.follows j q hq
      have hne : q.connection ≠ k := by
        rintro rfl
        exact hk ((KeyMap.mem_iff_lookup _ _).mpr ⟨conn, hlookup⟩)
      exact ⟨conn, (if_neg hne).trans hlookup, hothers⟩
  apart j j' q q' hq hq' heq := by
    simp only [World.withConnection, World.withPeer, KeyMap.lookup_insert] at hq hq'
    have hne : ∀ j q, W.peers.lookup j = some q → q.connection ≠ k := by
      rintro j q hq rfl
      obtain ⟨conn, hlookup, -⟩ := h.follows j q hq
      exact hk ((KeyMap.mem_iff_lookup _ _).mpr ⟨conn, hlookup⟩)
    split_ifs at hq hq' with hji hji' hji'
    · rw [hji, hji']
    · cases hq
      exact (hne j' q' hq' (heq ▸ hnew)).elim
    · cases hq'
      exact (hne j q hq (heq.trans hnew)).elim
    · exact h.apart j j' q q' hq hq' heq

theorem InOrder.step (h : InOrder codec W) (worlds : WorldsWhere codec guard u W)
    (hstep : Happens codec W happening W')
    (hu : u .client + created W.server W'.server .client < 2 ^ 32) : InOrder codec W' := by
  have run : Runs u W.server := worlds.runs
  have hserver : ∀ conn, Brings codec W.server conn → Brings codec W'.server conn :=
    fun conn => hstep.brings run hu
  have hrun : Runs (u + created W.server W'.server) W'.server := by
    rcases hstep.server with heq | ⟨op, hop⟩
    · rw [heq, created_self, add_zero]
      exact run
    · exact run.step trivial hop
  cases hstep with
  | joins o now hi hk =>
    exact h.newConnection hk rfl (.inl ⟨[], rfl⟩)
  | acts hp hown hacts =>
    obtain ⟨conn, hconn, hfollows⟩ := h.follows _ _ hp
    refine h.peerChanged hp rfl rfl rfl (fun k => ?_) (h.brings _ conn hconn)
      (hfollows.after_own hown (matches_of_worlds worlds hp))
    split_ifs with hk
    · rw [← hconn, hk]
      rfl
    · rfl
  | reconnects hp hk hreconnects =>
    refine h.newConnection hk rfl (.inr ⟨?_, rfl⟩)
    simp [Peer.after, Client.Told.after]
  | writes hp hconn hqueue hwrites =>
    obtain ⟨conn, hconn', hfollows⟩ := h.follows _ _ hp
    cases hconn.symm.trans hconn'
    have hbrings := h.brings _ _ hconn
    exact h.peerChanged hp rfl rfl rfl (fun k => KeyMap.lookup_insert ..)
      ⟨hbrings.due, hbrings.waiting, hbrings.known, hbrings.taken⟩ hfollows
  | @reads i p conn m wire S hp hconn hwire hreads =>
    obtain ⟨conn, hconn', hfollows⟩ := h.follows _ _ hp
    cases hconn.symm.trans hconn'
    have hselects : p.system.Selects := by
      cases hreads
      assumption
    refine h.peerChanged hp rfl rfl rfl (fun k => KeyMap.lookup_insert ..)
      ((h.brings _ _ hconn).read hwire) ?_
    rw [List.flatMap_append, List.flatMap_singleton]
    exact hfollows.after_incoming hselects (matches_of_worlds worlds hp)
  | @accepts k conn o identity r s hconn hwaiting hexec =>
    have hbrings := hserver _ (h.brings _ _ hconn)
    refine h.connectionChanged hserver hconn rfl rfl rfl ?_
    cases r with
    | error e => exact hbrings.over (fun _ hm => hm) rfl
    | ok accepted =>
      obtain ⟨unique, c⟩ := accepted
      obtain ⟨client, ch, hclient, hch⟩ := channel_of_connectClient hexec
      exact brings_admitted hrun hu hclient hch hbrings hwaiting _
  | filters now hconn hc hinbox =>
    refine h.connectionChanged hserver hconn rfl rfl rfl
      ((h.brings _ _ hconn).waits (fun m hm => ?_) rfl rfl rfl rfl)
    rw [Connection.due, ← List.append_assoc] at hm
    exact (List.mem_append.mp hm).imp_right fun hanswer => ⟨now, _, hanswer⟩
  | passes hconn =>
    exact h.connectionChanged hserver hconn rfl rfl rfl
      ((h.brings _ _ hconn).waits (fun m hm => .inl hm) rfl rfl rfl rfl)
  | answers hconn hc hm hroom =>
    exact h.connectionChanged hserver hconn rfl rfl rfl
      ((h.brings _ _ hconn).waits (fun _ hdue => .inl (mem_due_of_answers hm hdue)) rfl rfl rfl rfl)
  | forwards hconn hc hclient hch hm =>
    exact h.connectionChanged hserver hconn rfl rfl rfl
      ((h.brings _ _ hconn).forwarded (announcing_of_runs run) hc hclient hch hm)
  | replies hconn hc hreplies =>
    exact h.connectionChanged hserver hconn rfl rfl rfl ((h.brings _ _ hconn).replied hc hreplies)
  | ends hconn =>
    exact h.connectionChanged hserver hconn rfl rfl rfl ((h.brings _ _ hconn).over
      (fun m hm => by cases hm) rfl)
  | closes hconn =>
    exact h.connectionChanged hserver hconn rfl rfl rfl
      ((hserver _ (h.brings _ _ hconn)).over (fun _ hm => hm) rfl)
  | parses | handles | panics | operates | publishes | sets => exact h.serverChanged hserver rfl rfl

theorem inOrder_of_worlds (run : WorldsWhere codec guard u W) (hu : u .client < 2 ^ 32) :
    InOrder codec W := by
  refine run.invariant (fun u W => u .client < 2 ^ 32 → InOrder codec W) ?_ ?_ hu
  · intro W hinit _
    obtain ⟨s, hs, rfl⟩ := hinit
    refine ⟨?_, ?_, ?_⟩ <;> intros <;> contradiction
  · intro u W happening W' run ih _ h hu
    rw [Pi.add_apply] at hu
    exact (ih (by omega)).step run h hu

/-- In every run of a server and its clients, whatever their tasks and the server's do in between:
what a client has handled of the messages about topics, then what it is at, what is on its way to
it and what still stands on its channel are together the end of what the server has told it, each
message once and in order. So its table is what a stretch of these messages says. -/
theorem table_in_order (run : Worlds codec u W) (hu : u .client < 2 ^ 32)
    (hp : W.peers.lookup i = some p) (hconn : W.connections.lookup p.connection = some conn)
    {c : ClientIdx} (hc : conn.admission = .admitted c) {client : ConnectedClient}
    (hclient : W.server.clients.lookup c = some client) {ch : Outgoing}
    (hch : client.subOuput = some ch) (hjson : codec.ReadsTexts ch)
    (hopened : p.told.opening .socket = false) {messages : List NTMessage}
    (hm : p.told.handled = some messages) :
    (∃ before, W.server.toldTo c = before ++ messages ++ p.told.pending ++
      conn.wire.flatMap codec.told ++ (ch.sent.drop conn.taken).flatMap OutMessage.texts) ∧
    ∀ k, 0 ≤ k → p.system.pool.shared.inner.announcedTopics.lookup k =
      (Client.firstAnnounce k messages).map (Client.announced codec.ofTypeStr) := by
  have h := inOrder_of_worlds run hu
  refine ⟨?_, ((matches_of_worlds run hp).kept messages hm).topics⟩
  obtain ⟨conn', hconn', hfollows⟩ := h.follows i p hp
  cases hconn.symm.trans hconn'
  rcases hfollows with ⟨before, hheard⟩ | ⟨hopening, -⟩
  · obtain ⟨ch', hch', -, htold⟩ := (h.brings _ conn hconn).taken c client hc hclient
    cases hch.symm.trans hch'
    rw [hm, Option.getD_some] at hheard
    refine ⟨before, ?_⟩
    calc W.server.toldTo c = ch.sent.flatMap OutMessage.texts := by
          rw [toldTo_of_client hclient, told_of_channel hch]
          rfl
      _ = (ch.sent.take conn.taken).flatMap OutMessage.texts ++
            (ch.sent.drop conn.taken).flatMap OutMessage.texts := by
          rw [← List.flatMap_append, List.take_append_drop]
      _ = _ := by
          rw [← htold hjson, List.flatMap_append, hheard]
          simp only [List.append_assoc]
  · rw [hopened] at hopening
    cases hopening

section Concrete

/-- The texts about one topic. -/
def topicTexts : List (List NTMessage × String) := [
  ([], "[]"),
  ([.publish ⟨"x", 1, "int", none⟩], "[\x7b\"method\":\"publish\",\"params\":" ++
    "\x7b\"name\":\"x\",\"pubuid\":1,\"type\":\"int\"\x7d\x7d]"),
  ([.announce ⟨"x", 5, "int", some 1, {}⟩], "[\x7b\"method\":\"announce\",\"params\":" ++
    "\x7b\"name\":\"x\",\"id\":5,\"type\":\"int\",\"pubuid\":1,\"properties\":\x7b\x7d\x7d\x7d]")]

/-- A client publishes a topic, and the text comes to the server. -/
def publishesTopic (i : Nat) (name : String) : List Happening :=
  connects i i ⟨.v4 10 0 0 2 5810, name⟩ ++
    [.acts i (.call 0 (.publishTopic "x" .int none))] ++ moves i (.user 0) 5 ++
    List.replicate 3 (.writes i) ++ List.replicate 3 (.filters i 0) ++
    List.replicate 2 (.passes i 0) ++ [.parses, .parses, .handles 0]

/-- The client hears the reply to its time message, and then the announcement. -/
def hearsAnnouncement (i : Nat) : List Happening :=
  [.answers i 0, .replies i, .forwards i, .reads i] ++ moves i .socket 1 ++ [.reads i] ++ moves i .socket 3

set_option synthInstance.maxSize 512 in
theorem table_in_order_publishesTopic : ∃ u W p,
    Worlds (codecOf topicTexts) u W ∧ W.peers.lookup 0 = some p ∧
      W.server.toldTo 1 = [.announce ⟨"x", 5, "int", some 1, {}⟩] ∧
      p.system.pool.shared.inner.announcedTopics.lookup 5 = some ⟨"x", .int, some {}⟩ := by
  have hrun : (World.after (codecOf topicTexts) .stored anyHappening
      (publishesTopic 0 "a" ++ hearsAnnouncement 0)).map (fun W =>
        (W.server.toldTo 1,
          (W.peers.lookup 0).map fun p => (p.connection, p.told.opening .socket, p.told.handled),
          (W.connections.lookup 0).map fun conn => conn.admission.client,
          (W.server.clients.lookup 1).map fun client =>
            client.subOuput.map (codecOf topicTexts).readsTexts)) =
      some ([.announce ⟨"x", 5, "int", some 1, {}⟩],
        some (0, false, some [.announce ⟨"x", 5, "int", some 1, {}⟩]), some (some 1),
        some (some true)) := by
    decide +kernel
  obtain ⟨W, hW, hview⟩ := Option.map_eq_some_iff.mp hrun
  simp only [Prod.mk.injEq] at hview
  obtain ⟨htold, hpeer, hadmission, hchannel⟩ := hview
  obtain ⟨p, hp, hpeer⟩ := Option.map_eq_some_iff.mp hpeer
  simp only [Prod.mk.injEq] at hpeer
  obtain ⟨hconnection, hopening, hhandled⟩ := hpeer
  obtain ⟨conn, hconn, hc⟩ := Option.map_eq_some_iff.mp hadmission
  obtain ⟨client, hclient, hchannel⟩ := Option.map_eq_some_iff.mp hchannel
  obtain ⟨ch, hch, hreads⟩ := Option.map_eq_some_iff.mp hchannel
  obtain ⟨u, run, hu⟩ := worlds_of_after hW
  have hclients : u .client < 2 ^ 32 := (hu .client).trans_lt (by decide)
  obtain ⟨-, htable⟩ := table_in_order run hclients hp (hconnection ▸ hconn)
    (admitted_of_client hc) hclient hch (readsTexts_of hreads) hopening hhandled
  exact ⟨u, W, p, run, hp, htold, htable 5 (by decide)⟩

end Concrete

end Run

end NetTables.System
