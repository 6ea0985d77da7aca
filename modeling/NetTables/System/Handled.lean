import NetTables.Lib.Conveyance
import NetTables.System.Attribution
import NetTables.System.InOrder

namespace NetTables.System

open Lib Spec Server

/-- What a connection passes on of a message; when it is read plays no part. -/
def Codec.forwards (codec : Codec) (m : Message) : List Message :=
  passedOn m (broadcastIncoming codec.rmp.toRmpEncode codec.dec 0 m)

/-- What a message that a connection reads comes to for the parser. -/
def Codec.work (codec : Codec) (m : Message) : List ParserTask :=
  (codec.forwards m).flatMap codec.tasks

/-- The messages that a connection has yet to send to the parser. -/
def Connection.ahead (conn : Connection) (codec : Codec) : List Message :=
  conn.passing ++ conn.inbox.flatMap codec.forwards

/-- Nothing that the server has read on the connection is lost. -/
def Connection.Intact (conn : Connection) (W : World) : Prop :=
  W.parserRuns = true ∧ conn.admission.isOver = false

section History

/-- The message that a step writes on the connection. -/
def writtenIn (k : Nat) : World × Happening → Option Client.SocketMessage
  | (V, .writes i) => do
    let p ← V.peers.lookup i
    if p.connection = k then p.system.pool.queue.head? else none
  | _ => none

/-- The message that a step sends to the parser, with its connection and the client there. -/
def sentIn : World × Happening → Option (Nat × ClientIdx × Message)
  | (V, .passes k n) => do
    let conn ← V.connections.lookup k
    let c ← conn.admission.client
    let m ← conn.passing[n]?
    if V.parserRuns then some (k, c, m) else none
  | _ => none

/-- The piece of work that the parser does for the client in a step. -/
def handledIn (c : ClientIdx) : World × Happening → Option ParserTask
  | (V, .handles _) => do
    let next ← V.parsing.head?
    if next.1 = c then some next.2 else none
  | _ => none

/-- Of what waits for a place on the connection, the first to wait is the first to get it. -/
def InTurn (k : Nat) : World × Happening → Prop
  | (_, .passes k' n) | (_, .answers k' n) => k' = k → n = 0
  | _ => True

variable (log : List (World × Happening))

/-- Everything that has been written on the connection, in its order. -/
def writtenOn (k : Nat) : List Client.SocketMessage := log.filterMap (writtenIn k)

/-- Everything that has been sent to the parser on the connection, in its order. -/
def sentOn (k : Nat) : List Message :=
  ((log.filterMap sentIn).filter fun e => e.1 = k).map fun e => e.2.2

/-- Everything that has been sent to the parser for the client, in its order. -/
def sentFor (c : ClientIdx) : List Message :=
  ((log.filterMap sentIn).filter fun e => e.2.1 = c).map fun e => e.2.2

/-- Everything that the parser has done for the client, in its order. -/
def handledFor (c : ClientIdx) : List ParserTask := log.filterMap (handledIn c)

/-- What the parser has still to do for the client. -/
def World.unhandled (codec : Codec) (W : World) (c : ClientIdx) : List ParserTask :=
  ((W.parsing.filter fun e => e.1 = c).map Prod.snd) ++
    (W.incoming.filter fun cmsg => cmsg.clientIdx = c).flatMap fun cmsg => codec.tasks cmsg.msg

/-- What has come to the parser for the client. -/
def World.arrived (codec : Codec) (W : World) (c : ClientIdx) : List ParserTask :=
  handledFor log c ++ W.unhandled codec c

end History

variable {codec : Codec} {W W' : World} {happening : Happening} {k : Nat} {c : ClientIdx}
  {conn : Connection} {guard : World → Happening → Prop} {u : Kind → Nat}
  {log : List (World × Happening)}

section Steps

theorem written_snoc : writtenOn (log ++ [(W, happening)]) k =
    writtenOn log k ++ (writtenIn k (W, happening)).toList := by
  cases hm : writtenIn k (W, happening) <;> simp [writtenOn, hm]

theorem sentOn_snoc (e : World × Happening) :
    sentOn (log ++ [e]) k = sentOn log k ++ sentOn [e] k := by
  simp only [sentOn, List.filterMap_append, List.filter_append, List.map_append]

theorem sentFor_snoc (e : World × Happening) :
    sentFor (log ++ [e]) c = sentFor log c ++ sentFor [e] c := by
  simp only [sentFor, List.filterMap_append, List.filter_append, List.map_append]

theorem handled_snoc : handledFor (log ++ [(W, happening)]) c =
    handledFor log c ++ (handledIn c (W, happening)).toList := by
  cases hm : handledIn c (W, happening) <;> simp [handledFor, hm]

theorem inTurn_snoc : (∀ e ∈ log ++ [(W, happening)], InTurn k e) ↔
    (∀ e ∈ log, InTurn k e) ∧ InTurn k (W, happening) := by
  simp only [List.forall_mem_append, List.forall_mem_singleton]

theorem passedOn_now (now : UInt64) (m : Message) :
    passedOn m (broadcastIncoming codec.rmp.toRmpEncode codec.dec now m) = codec.forwards m := by
  unfold Codec.forwards broadcastIncoming
  split
  · split
    · split_ifs
      · rfl
      · split
        · split <;> rfl
        · rfl
      · rfl
    · rfl
  all_goals rfl

/-- Only a connection with a client sends, and only to a parser that runs. -/
theorem of_sentIn {k₀ : Nat} {c₀ : ClientIdx} {m : Message}
    (h : sentIn (W, happening) = some (k₀, c₀, m)) : W.Admits k₀ c₀ ∧ W.parserRuns = true := by
  cases happening with
  | passes k n =>
    obtain ⟨conn, hconn, h⟩ := Option.bind_eq_some_iff.mp h
    obtain ⟨c, hc, h⟩ := Option.bind_eq_some_iff.mp h
    obtain ⟨m, hm, h⟩ := Option.bind_eq_some_iff.mp h
    split_ifs at h with hruns
    cases h
    exact ⟨⟨conn, hconn, admitted_of_client hc⟩, hruns⟩
  | _ => cases h

theorem sentIn_passes {n : Nat} {m : Message} (hconn : W.connections.lookup k = some conn)
    (hc : conn.admission = .admitted c) (hm : conn.passing[n]? = some m) :
    sentIn (W, .passes k n) = if W.parserRuns then some (k, c, m) else none := by
  simp [sentIn, hconn, hc, hm, Admission.client]

theorem sentFor_passes {n : Nat} {m : Message} {c₀ : ClientIdx}
    (hconn : W.connections.lookup k = some conn) (hc : conn.admission = .admitted c₀)
    (hm : conn.passing[n]? = some m) :
    sentFor [(W, .passes k n)] c = if W.parserRuns = true ∧ c₀ = c then [m] else [] := by
  rw [sentFor, List.filterMap_cons, sentIn_passes hconn hc hm]
  by_cases hruns : W.parserRuns = true <;> by_cases hc₀ : c₀ = c <;> simp [hruns, hc₀]

theorem sentOn_passes {n k₀ : Nat} {m : Message} (hconn : W.connections.lookup k₀ = some conn)
    (hc : conn.admission = .admitted c) (hm : conn.passing[n]? = some m) :
    sentOn [(W, .passes k₀ n)] k = if W.parserRuns = true ∧ k₀ = k then [m] else [] := by
  rw [sentOn, List.filterMap_cons, sentIn_passes hconn hc hm]
  by_cases hruns : W.parserRuns = true <;> by_cases hk : k₀ = k <;> simp [hruns, hk]

theorem sentFor_gone (hgone : W.parserRuns = false) : sentFor [(W, happening)] c = [] := by
  rw [sentFor, List.filterMap_cons, List.filterMap_nil]
  cases hsent : sentIn (W, happening) with
  | none => rfl
  | some e =>
    have hruns : W.parserRuns = true := (of_sentIn hsent).2
    rw [hgone] at hruns
    cases hruns

/-- What a step sends on a connection is sent while it is intact. -/
theorem sentOn_intact (hconn : W.connections.lookup k = some conn) :
    sentOn [(W, happening)] k = [] ∨ conn.Intact W := by
  rw [sentOn, List.filterMap_cons, List.filterMap_nil]
  cases hsent : sentIn (W, happening) with
  | none => exact .inl rfl
  | some e =>
    obtain ⟨k₀, c₀, m⟩ := e
    obtain ⟨⟨conn₀, hconn₀, hc₀⟩, hruns⟩ := of_sentIn hsent
    by_cases hk : k₀ = k
    · subst hk
      cases hconn.symm.trans hconn₀
      exact .inr ⟨hruns, by rw [hc₀]; rfl⟩
    · exact .inl (by simp [hk])

/-- A parser that is gone does not come back. -/
theorem Happens.runs (h : Happens codec W happening W') (hruns : W'.parserRuns = true) :
    W.parserRuns = true := by
  cases h with
  | panics => cases hruns
  | _ => exact hruns

/-- A connection that is intact has always been. -/
theorem Happens.intact (h : Happens codec W happening W')
    (hconn : W.connections.lookup k = some conn) {conn' : Connection}
    (hconn' : W'.connections.lookup k = some conn') (hintact : conn'.Intact W') :
    conn.Intact W := by
  refine ⟨h.runs hintact.1, ?_⟩
  by_contra hover
  have hsettled : conn.admission ≠ .waiting := fun heq => hover (by rw [heq]; rfl)
  obtain ⟨conn₁, hconn₁, hsame | hended⟩ := h.settled hconn hsettled
  · cases hconn'.symm.trans hconn₁
    rw [← hsame] at hover
    exact hover hintact.2
  · cases hconn'.symm.trans hconn₁
    rw [hintact.2] at hended
    cases hended

theorem World.arrived_eq : W.arrived log codec c = handledFor log c ++
    (((W.parsing.filter fun e => e.1 = c).map Prod.snd) ++
      (W.incoming.filter fun cmsg => cmsg.clientIdx = c).flatMap fun cmsg => codec.tasks cmsg.msg) :=
  rfl

/-- What a message on the parser's channel adds to its work for a client. -/
theorem flatMap_sending (codec : Codec) (W : World) (c c₀ : ClientIdx) (m : Message) :
    ((W.sending ⟨c₀, m⟩).incoming.filter fun cmsg => cmsg.clientIdx = c).flatMap
        (fun cmsg => codec.tasks cmsg.msg) =
      ((W.incoming.filter fun cmsg => cmsg.clientIdx = c).flatMap fun cmsg => codec.tasks cmsg.msg) ++
        if W.parserRuns = true ∧ c₀ = c then codec.tasks m else [] := by
  by_cases hruns : W.parserRuns = true <;> by_cases hc : c₀ = c <;>
    simp [World.sending, hruns, hc]

/-- The parser gets what is sent to it for a client, and nothing else, or it is gone. -/
theorem Happens.arrives (h : Happens codec W happening W') (hjson : codec.json.Framed)
    (c : ClientIdx) :
    W'.arrived (log ++ [(W, happening)]) codec c =
        W.arrived log codec c ++ (sentFor [(W, happening)] c).flatMap codec.tasks ∨
      W'.parserRuns = false ∧
        W'.arrived (log ++ [(W, happening)]) codec c <+: W.arrived log codec c := by
  have hsame : W'.parsing = W.parsing → W'.incoming = W.incoming →
      handledIn c (W, happening) = none → sentFor [(W, happening)] c = [] →
      W'.arrived (log ++ [(W, happening)]) codec c =
        W.arrived log codec c ++ (sentFor [(W, happening)] c).flatMap codec.tasks := by
    intro hparsing hincoming hhandled hsent
    rw [World.arrived_eq, World.arrived_eq, handled_snoc, hparsing, hincoming, hhandled, hsent]
    simp
  cases h with
  | @passes k conn c₀ n m hconn hc hm hroom =>
    have hsending := flatMap_sending codec W c c₀ m
    left
    rw [World.arrived_eq, World.arrived_eq, handled_snoc, sentFor_passes hconn hc hm]
    simp only [handledIn, World.withConnection, Option.toList_none, List.append_nil, hsending]
    split_ifs <;> simp [World.sending]
  | @closes k conn c₀ identity s hconn hc hidentity hroom hclose =>
    have hnone : codec.tasks (closeMsg codec.json c₀ identity).msg = [] := by
      simp only [closeMsg, Codec.tasks, fromStr_toStringOne hjson]
      rfl
    have hsending := flatMap_sending codec W c c₀ (closeMsg codec.json c₀ identity).msg
    rw [hnone, ite_self, List.append_nil] at hsending
    left
    rw [World.arrived_eq, World.arrived_eq, handled_snoc]
    simp only [handledIn, World.withConnection, World.withServer, Option.toList_none,
      List.append_nil]
    exact (congrArg _ (congrArg _ hsending)).trans (List.append_nil _).symm
  | @parses cmsg incoming hidle hnext =>
    left
    rw [World.arrived_eq, World.arrived_eq, handled_snoc, hidle, hnext]
    simp only [handledIn, Option.toList_none, List.append_nil, List.filter_nil,
      List.map_nil, List.nil_append, List.filter_cons, decide_eq_true_eq]
    rw [show sentFor [(W, Happening.parses)] c = [] from rfl, List.flatMap_nil, List.append_nil]
    split_ifs with hc
    · have hall : ((codec.tasks cmsg.msg).map fun task => (cmsg.clientIdx, task)).filter
          (fun e => e.1 = c) = (codec.tasks cmsg.msg).map fun task => (cmsg.clientIdx, task) := by
        simp [List.filter_eq_self, hc]
      rw [hall, List.map_map, List.flatMap_cons]
      simp
    · have hnone : ((codec.tasks cmsg.msg).map fun task => (cmsg.clientIdx, task)).filter
          (fun e => e.1 = c) = [] := by
        simp [List.filter_eq_nil_iff, hc]
      rw [hnone]
      rfl
  | @handles c₀ task parsing o now r s hnext =>
    have hhead : handledIn c (W, .handles now) = if c₀ = c then some task else none := by
      simp [handledIn, hnext]
    left
    rw [World.arrived_eq, World.arrived_eq, handled_snoc, hnext,
      show sentFor [(W, Happening.handles now)] c = [] from rfl, List.flatMap_nil, List.append_nil]
    simp only [hhead, World.withServer, List.filter_cons, decide_eq_true_eq]
    split_ifs <;> simp
  | panics =>
    -- what the parser is at is gone with it
    refine .inr ⟨rfl, ?_⟩
    rw [World.arrived_eq, World.arrived_eq, handled_snoc]
    simp only [handledIn, Option.toList_none, List.append_nil, List.filter_nil, List.map_nil,
      List.flatMap_nil]
    exact List.prefix_append ..
  | _ => exact .inl (hsame rfl rfl rfl rfl)

/-- A connection after a step: what was ahead of it, with what is written, is what it has sent and
what it has still ahead of it, as long as it is intact. -/
def Moved (codec : Codec) (W : World) (happening : Happening) (W' : World) (k : Nat)
    (conn conn' : Connection) : Prop :=
  W'.connections.lookup k = some conn' ∧
    Conveys (conn'.Intact W') (InTurn k (W, happening)) (sentOn [(W, happening)] k)
      (conn'.ahead codec) (conn.ahead codec ++
        (writtenIn k (W, happening)).toList.flatMap fun m => codec.forwards (codec.written m))

theorem Happens.moved (h : Happens codec W happening W')
    (hconn : W.connections.lookup k = some conn) :
    ∃ conn', Moved codec W happening W' k conn conn' := by
  have hother : W'.connections.lookup k = some conn → writtenIn k (W, happening) = none →
      sentOn [(W, happening)] k = [] → ∃ conn', Moved codec W happening W' k conn conn' := by
    intro hlookup hwritten hsent
    refine ⟨conn, hlookup, ?_⟩
    rw [hwritten, hsent]
    exact .of_eq (by simp)
  have hput : ∀ {k₀ conn₀ conn₁}, W'.connections = W.connections.insert k₀ conn₁ →
      W.connections.lookup k₀ = some conn₀ → conn₁.ahead codec = conn₀.ahead codec →
      writtenIn k (W, happening) = none → sentOn [(W, happening)] k = [] →
      ∃ conn', Moved codec W happening W' k conn conn' := by
    intro k₀ conn₀ conn₁ heq hconn₀ hahead hwritten hsent
    rcases KeyMap.lookup_insert_cases hconn hconn₀ with ⟨rfl, rfl, hlookup⟩ | ⟨-, hlookup⟩
    · refine ⟨conn₁, heq ▸ hlookup _, ?_⟩
      rw [hwritten, hsent]
      exact .of_eq (by simp [hahead])
    · exact hother (heq ▸ hlookup _) hwritten hsent
  cases h with
  | joins _ _ _ hk | reconnects _ hk =>
    exact hother (KeyMap.lookup_insert_of_notMem hconn hk {}) rfl rfl
  | reads _ hconn₀ | accepts hconn₀ | answers hconn₀ | forwards hconn₀ | replies hconn₀
  | closes hconn₀ => exact hput rfl hconn₀ rfl rfl rfl
  | @writes i p conn₀ m queue S hp hconn₀ hqueue =>
    have hwritten : writtenIn k (W, .writes i) = if p.connection = k then some m else none := by
      simp [writtenIn, hp, hqueue]
    rcases KeyMap.lookup_insert_cases hconn hconn₀ with ⟨rfl, rfl, hlookup⟩ | ⟨hk, hlookup⟩
    · refine ⟨_, hlookup _, ?_⟩
      rw [hwritten, if_pos rfl]
      exact .of_eq (by simp [sentOn, sentIn, Connection.ahead])
    · exact hother (hlookup _) (by rw [hwritten, if_neg (Ne.symm hk)]) rfl
  | @filters k₀ conn₀ c₀ m inbox now hconn₀ hc hinbox =>
    refine hput rfl hconn₀ ?_ rfl rfl
    simp only [Connection.ahead, passedOn_now, hinbox, List.flatMap_cons, List.append_assoc]
  | @passes k₀ conn₀ c₀ n m hconn₀ hc hm hroom =>
    have hsent := sentOn_passes (k := k) hconn₀ hc hm
    rcases KeyMap.lookup_insert_cases hconn hconn₀ with ⟨rfl, rfl, hlookup⟩ | ⟨hk, hlookup⟩
    · refine ⟨_, hlookup _, ?_⟩
      simp only [hsent, and_true, writtenIn, Option.toList_none, List.flatMap_nil, List.append_nil]
      split_ifs with hruns
      · have htakes : Conveys True (n = 0) _ _ _ :=
          (Conveys.takes hm).put (conn.inbox.flatMap codec.forwards)
        exact htakes.mono (fun _ => trivial) fun hturn => hturn rfl
      · have hlost : (conn.passing.eraseIdx n ++ conn.inbox.flatMap codec.forwards).Subperm
            (conn.ahead codec) :=
          (List.subperm_append_right _).mpr (List.eraseIdx_sublist ..).subperm
        have hnone : Conveys True (InTurn k (W, .passes k n)) [] (conn.ahead codec)
            (conn.ahead codec) := .of_eq rfl
        exact hnone.lose (List.prefix_refl _) hlost fun h => hruns h.1
    · refine hother (hlookup _) rfl ?_
      rw [hsent, if_neg fun h => hk h.2.symm]
  | @ends k₀ conn₀ c₀ hconn₀ hc =>
    rcases KeyMap.lookup_insert_cases hconn hconn₀ with ⟨rfl, rfl, hlookup⟩ | ⟨-, hlookup⟩
    · have hlost : (conn.inbox.flatMap codec.forwards).Subperm (conn.ahead codec) :=
        (List.sublist_append_right ..).subperm
      have hnone : Conveys True (InTurn k (W, .ends k)) [] (conn.ahead codec)
          (conn.ahead codec) := .of_eq rfl
      refine ⟨_, hlookup _, ?_⟩
      simp only [writtenIn, Option.toList_none, List.flatMap_nil, List.append_nil]
      exact hnone.lose (List.prefix_refl _) hlost fun hintact => by cases hintact.2
    · exact hother (hlookup _) rfl rfl
  | _ => exact hother hconn rfl rfl

/-- A connection that was not there is new. -/
theorem Happens.opens (h : Happens codec W happening W') (hk : k ∉ W.connections)
    (hconn : W'.connections.lookup k = some conn) : conn = {} := by
  have hnone : W.connections.lookup k ≠ some conn :=
    fun h => hk ((KeyMap.mem_iff_lookup _ _).mpr ⟨conn, h⟩)
  have hput : ∀ {k₀ conn₀ conn₁}, W'.connections = W.connections.insert k₀ conn₁ →
      W.connections.lookup k₀ = some conn₀ → conn = {} := by
    intro k₀ conn₀ conn₁ heq hconn₀
    rw [heq, KeyMap.lookup_insert] at hconn
    split_ifs at hconn with hk₀
    · exact (hk (hk₀ ▸ (KeyMap.mem_iff_lookup _ _).mpr ⟨conn₀, hconn₀⟩)).elim
    · exact (hnone hconn).elim
  have hnew : ∀ {k₀}, W'.connections = W.connections.insert k₀ {} → conn = {} := by
    intro k₀ heq
    rw [heq, KeyMap.lookup_insert] at hconn
    split_ifs at hconn
    · cases hconn
      rfl
    · exact (hnone hconn).elim
  cases h with
  | joins | reconnects => exact hnew rfl
  | writes _ hconn₀ | reads _ hconn₀ | accepts hconn₀ | filters _ hconn₀ | passes hconn₀
  | answers hconn₀ | forwards hconn₀ | replies hconn₀ | ends hconn₀ | closes hconn₀ =>
    exact hput rfl hconn₀
  | _ => exact (hnone hconn).elim

/-- Nobody writes on a connection that is not there. -/
theorem Happens.writtenIn_unknown (h : Happens codec W happening W') (hk : k ∉ W.connections) :
    writtenIn k (W, happening) = none := by
  cases h with
  | @writes i p conn m queue S hp hconn =>
    have hne : p.connection ≠ k := by
      rintro rfl
      exact hk ((KeyMap.mem_iff_lookup _ _).mpr ⟨conn, hconn⟩)
    simp [writtenIn, hp, hne]
  | _ => rfl

theorem sentOn_unknown (hk : k ∉ W.connections) : sentOn [(W, happening)] k = [] := by
  rw [sentOn, List.filterMap_cons, List.filterMap_nil]
  cases hsent : sentIn (W, happening) with
  | none => rfl
  | some e =>
    obtain ⟨k₀, c₀, m⟩ := e
    obtain ⟨⟨conn, hconn, -⟩, -⟩ := of_sentIn hsent
    have hne : k₀ ≠ k := by
      rintro rfl
      exact hk ((KeyMap.mem_iff_lookup _ _).mpr ⟨conn, hconn⟩)
    simp [hne]

end Steps

section Run

/-- What a client has written on a connection has been sent to the parser or is ahead of it, and
what has been sent has come to the parser. -/
structure Upstream (codec : Codec) (log : List (World × Happening)) (W : World) : Prop where
  unknown : ∀ k, k ∉ W.connections → writtenOn log k = [] ∧ sentOn log k = []
  known : ∀ k conn, W.connections.lookup k = some conn →
    Conveys (conn.Intact W) (∀ e ∈ log, InTurn k e) (sentOn log k) (conn.ahead codec)
      ((writtenOn log k).flatMap fun m => codec.forwards (codec.written m))
  arrived : ∀ c, W.arrived log codec c <+: (sentFor log c).flatMap codec.tasks
  running : W.parserRuns = true →
    ∀ c, W.arrived log codec c = (sentFor log c).flatMap codec.tasks

theorem Upstream.step (h : Upstream codec log W) (hjson : codec.json.Framed)
    (hstep : Happens codec W happening W') : Upstream codec (log ++ [(W, happening)]) W' := by
  have hempty : ∀ k, k ∉ W.connections → writtenOn (log ++ [(W, happening)]) k = [] ∧
      sentOn (log ++ [(W, happening)]) k = [] := by
    intro k hk
    obtain ⟨hwritten, hsent⟩ := h.unknown k hk
    rw [written_snoc, sentOn_snoc, hwritten, hsent, hstep.writtenIn_unknown hk,
      sentOn_unknown hk]
    exact ⟨rfl, rfl⟩
  refine ⟨fun k hk => hempty k fun hold => hk (hstep.connections hold), ?_, ?_, ?_⟩
  · intro k conn' hconn'
    by_cases hk : k ∈ W.connections
    · obtain ⟨conn, hconn⟩ := (KeyMap.mem_iff_lookup _ _).mp hk
      obtain ⟨conn₁, hconn₁, hmoved⟩ := hstep.moved hconn
      cases hconn'.symm.trans hconn₁
      have hput := (h.known k conn hconn).put
        ((writtenIn k (W, happening)).toList.flatMap fun m => codec.forwards (codec.written m))
      rw [sentOn_snoc, written_snoc, List.flatMap_append]
      exact (hput.trans hmoved (hstep.intact hconn hconn') (sentOn_intact hconn)).mono id
        inTurn_snoc.mp
    · obtain ⟨hwritten, hsent⟩ := hempty k hk
      rw [hwritten, hsent, hstep.opens hk hconn']
      exact .of_eq rfl
  · intro c
    rw [sentFor_snoc, List.flatMap_append]
    rcases hstep.arrives hjson c with heq | ⟨-, hcut⟩
    · rw [heq]
      cases hruns : W.parserRuns with
      | true => rw [h.running hruns c]
      | false =>
        rw [sentFor_gone hruns, List.flatMap_nil, List.append_nil, List.append_nil]
        exact h.arrived c
    · exact (hcut.trans (h.arrived c)).trans (List.prefix_append ..)
  · intro hruns c
    rcases hstep.arrives hjson c with heq | ⟨hgone, -⟩
    · rw [heq, h.running (hstep.runs hruns) c, sentFor_snoc, List.flatMap_append]
    · rw [hruns] at hgone
      cases hgone

theorem upstream_of_logged (hjson : codec.json.Framed)
    (run : LoggedWorlds codec guard u (log, W)) : Upstream codec log W := by
  refine run.invariant (fun _ p => Upstream codec p.1 p.2) ?_ ?_
  · rintro ⟨log, W⟩ ⟨rfl, s, -, rfl⟩
    refine ⟨fun _ _ => ⟨rfl, rfl⟩, fun k conn hconn => ?_, fun _ => List.prefix_refl _,
      fun _ _ => rfl⟩
    cases hconn
  · rintro u ⟨log, W⟩ happening ⟨log', W'⟩ run ih - ⟨hstep, rfl⟩
    exact ih.step hjson hstep

/-- What has been sent on a client's connection has been sent for the client. -/
theorem sentFor_eq_sentOn (ha : Attributed (passed log W) W) {V : World} (hV : V ∈ passed log W)
    (hc : V.Admits k c) : sentFor log c = sentOn log k := by
  have hsame : (log.filterMap sentIn).filter (fun e => e.2.1 = c) =
      (log.filterMap sentIn).filter fun e => e.1 = k := by
    apply List.filter_congr
    rintro ⟨k₀, c₀, m⟩ hsent
    obtain ⟨⟨V₀, happening⟩, hV₀, hsent⟩ := List.mem_filterMap.mp hsent
    have hmem : V₀ ∈ passed log W := List.mem_append_left _ (List.mem_map_of_mem hV₀)
    have hc₀ : V₀.Admits k₀ c₀ := (of_sentIn hsent).1
    have hiff : c₀ = c ↔ k₀ = k := by
      constructor
      · rintro rfl
        exact ha.one V₀ hmem V hV k₀ k c₀ hc₀ hc
      · rintro rfl
        exact ha.same V₀ hmem V hV k₀ c₀ c hc₀ hc
    exact decide_eq_decide.mpr hiff
  rw [sentFor, sentOn, hsame]

/-- In every run that creates fewer than 2^32 clients, whatever its steps and their order: what the
parser has done for a client and has still to do for it is what the client has written on its
connection, nothing of it twice, and all of it but what the connection has ahead of it, until the
connection ends or the parser is gone. It has come in its order if it has waited in its order. Only
messages for the clock and those that are no array are left out. -/
theorem handled_once (hjson : codec.json.Framed) (run : LoggedWorlds codec guard u (log, W))
    (hu : u .client < 2 ^ 32) : ∀ V ∈ passed log W, ∀ k c conn, V.Admits k c →
      W.connections.lookup k = some conn →
      Conveys (conn.Intact W) (∀ e ∈ log, InTurn k e) (handledFor log c ++ W.unhandled codec c)
        (conn.passing.flatMap codec.tasks ++ conn.inbox.flatMap codec.work)
        ((writtenOn log k).flatMap fun m => codec.work (codec.written m)) := by
  have h := upstream_of_logged hjson run
  intro V hV k c conn hc hconn
  have hsame : sentFor log c = sentOn log k := sentFor_eq_sentOn (attributed_of_logged run hu) hV hc
  have htasks := (h.known k conn hconn).flatMap codec.tasks
  rw [← hsame, Connection.ahead, List.flatMap_append, List.flatMap_assoc, List.flatMap_assoc]
    at htasks
  exact htasks.cut (h.arrived c) fun hintact => h.running hintact.1 c

/-- A client publishes a topic and two values of it, and the second value gets its place on the
parser's channel before the first. -/
def valueOvertakes : List Happening :=
  connects 0 0 ⟨.v4 10 0 0 2 5810, "a"⟩ ++
    [.acts 0 (.call 0 (.publishTopic "x" .int none))] ++ moves 0 (.user 0) 5 ++
    [.acts 0 (.call 0 (.publishValue ⟨"x", 1, .int, none⟩ (.integer 7)))] ++ moves 0 (.user 0) 2 ++
    [.acts 0 (.call 0 (.publishValue ⟨"x", 1, .int, none⟩ (.integer 8)))] ++ moves 0 (.user 0) 2 ++
    List.replicate 5 (.writes 0) ++ List.replicate 5 (.filters 0 0) ++
    [.passes 0 0, .passes 0 0, .passes 0 1, .parses, .parses, .handles 0]

theorem handled_once_valueOvertakes : ∃ u log W conn,
    LoggedWorlds (codecOf topicTexts) (fun _ _ => True) u (log, W) ∧
      W.connections.lookup 0 = some conn ∧ conn.admission = .admitted 1 ∧
      conn.passing.length = 1 ∧ (W.unhandled (codecOf topicTexts) 1).length = 1 ∧
      (handledFor log 1 ++ W.unhandled (codecOf topicTexts) 1 ++
        (conn.passing.flatMap (codecOf topicTexts).tasks ++
          conn.inbox.flatMap (codecOf topicTexts).work)).Perm
        ((writtenOn log 0).flatMap fun m =>
          (codecOf topicTexts).work ((codecOf topicTexts).written m)) := by
  have hrun : (World.after (codecOf topicTexts) .stored anyHappening valueOvertakes).map (fun W =>
      ((W.unhandled (codecOf topicTexts) 1).length, W.parserRuns,
        (W.connections.lookup 0).map fun conn =>
          (conn.admission.client, conn.passing.length))) =
      some (1, true, some (some 1, 1)) := by
    decide +kernel
  obtain ⟨W, hW, hview⟩ := Option.map_eq_some_iff.mp hrun
  simp only [Prod.mk.injEq] at hview
  obtain ⟨hlength, hruns, hview⟩ := hview
  obtain ⟨conn, hconn, hview⟩ := Option.map_eq_some_iff.mp hview
  simp only [Prod.mk.injEq] at hview
  obtain ⟨hclient, hpassing⟩ := hview
  have hc : conn.admission = .admitted 1 := admitted_of_client hclient
  obtain ⟨u, worlds, hu⟩ := worlds_of_after hW
  obtain ⟨log, run⟩ := exists_logged worlds
  have hlast : W ∈ passed log W := List.mem_append_right _ (List.mem_singleton_self W)
  have honce := handled_once (framed_codecOf (by decide)) run ((hu .client).trans_lt (by decide)) W
    hlast 0 1 conn ⟨conn, hconn, hc⟩ hconn
  exact ⟨u, log, W, conn, run, hconn, hc, hpassing, hlength, honce.whole ⟨hruns, hc ▸ rfl⟩⟩

end Run

end NetTables.System
