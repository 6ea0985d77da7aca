import NetTables.System.Handled
import NetTables.System.Sending

namespace NetTables.System

open Lib Spec Server

/-- The time of its own clock that a client sends. -/
def clockTime : Client.SocketMessage → Option UInt64
  | .value .negativeOne _ _ (.integer time) => (Value.integer time).asU64
  | _ => none

section Server

/-- A client's message for the clock is read back as it was written. -/
def Codec.ReadsClock (codec : Codec) : Prop :=
  ∀ timestamp type, ∀ time : UInt64,
    BinaryMessage.ReadBy codec.rmp codec.dec ⟨.negativeOne, timestamp, type, .integer time.toNat⟩

/-- The times of the client's clock that come back in a message of the server. -/
def Codec.answerTimes (codec : Codec) (m : Message) : List UInt64 :=
  match codec.received m with
  | .binary values => values.filterMap fun
    | .array [_, _, _, time] => time.asU64
    | _ => none
  | _ => []

/-- The times that come back for a message; the server's clock plays no part. -/
def Codec.asks (codec : Codec) (m : Message) : List UInt64 :=
  (answerOf (broadcastIncoming codec.rmp.toRmpEncode codec.dec 0 m)).flatMap codec.answerTimes

/-- The times that have come back on a connection, or are on their way. -/
def Connection.answers (conn : Connection) (codec : Codec) : List UInt64 :=
  (conn.heard ++ conn.wire ++ conn.replies).flatMap codec.answerTimes

/-- The times in the answers that wait for a place. -/
def Connection.waiting (conn : Connection) (codec : Codec) : List UInt64 :=
  conn.answering.flatMap codec.answerTimes

/-- The message that a step reads on the connection. -/
def readIn (k : Nat) : World × Happening → Option Message
  | (V, .filters k' _) => if k' = k then do (← V.connections.lookup k').inbox.head? else none
  | _ => none

variable {codec : Codec} {W W' : World} {happening : Happening} {k : Nat} {conn : Connection}
  {m : Message} {now : UInt64}

theorem answerTimes_timeMessage (hreplies : RepliesRead codec.rmp.toRmpEncode codec.dec)
    (now time : UInt64) :
    codec.answerTimes (timeMessage codec.rmp.toRmpEncode now time) = [time] := by
  have hread := hreplies (-1) now time FrcType.int.asU8
  have hvalues : codec.received (timeMessage codec.rmp.toRmpEncode now time) =
      .binary [.array [.integer (-1), .integer now.toNat, .integer FrcType.int.asU8.toNat,
        .integer time.toNat]] := by
    rw [timeMessage, Codec.received, readAll_some hread, readAll_none (fromRead_nil _)]
    rfl
  rw [Codec.answerTimes, hvalues]
  simp [asU64_ofNat time.toNat_lt]

/-- What the server's clock says when it answers plays no part. -/
theorem answerTimes_answer (hreplies : RepliesRead codec.rmp.toRmpEncode codec.dec) (now : UInt64)
    (m : Message) :
    (answerOf (broadcastIncoming codec.rmp.toRmpEncode codec.dec now m)).flatMap codec.answerTimes =
      codec.asks m := by
  unfold Codec.asks broadcastIncoming
  split
  · split
    · split_ifs
      · rfl
      · split
        · split
          · simp [answerOf, answerTimes_timeMessage hreplies]
          · rfl
          · rfl
        · rfl
      · rfl
    · rfl
  all_goals rfl

theorem answerTimes_forward (out : OutMessage) :
    ((forward (out.toMessage codec.json codec.rmp.toRmpEncode)).filterMap SinkCall.fed).flatMap
      codec.answerTimes = [] := by
  rw [List.flatMap_eq_nil_iff]
  intro m hm
  have hforwarded : Forwarded codec out m := hm
  obtain ⟨messages, -, rfl⟩ := text_of_forwarded hforwarded
  rfl

/-- A client's message asks for its own time to come back if it is one for the clock. -/
theorem asks_written (hrmp : Markers codec.rmp) (hread : codec.ReadsClock)
    (hreplies : RepliesRead codec.rmp.toRmpEncode codec.dec) {m : Client.SocketMessage}
    (hm : Proper m) : codec.asks (codec.written m) = (clockTime m).toList := by
  cases m with
  | text messages => rfl
  | value id type timestamp value =>
    have hwritten : codec.written (.value id type timestamp value) =
        .binary (BinaryMessage.bytes codec.rmp ⟨id, timestamp.toUInt64, type.asU8, value⟩ ++ []) := by
      rw [List.append_nil]
      rfl
    cases id with
    | unsignedInt pubuid =>
      have hvalue : BinaryMessage.IsValue ⟨.unsignedInt pubuid, timestamp.toUInt64, type.asU8, value⟩ :=
        fun h => by cases h
      rw [hwritten, Codec.asks, incoming_value hrmp hvalue]
      rfl
    | negativeOne =>
      obtain ⟨time, rfl⟩ := hm
      have htime : ¬BinaryMessage.IsValue
          ⟨.negativeOne, timestamp.toUInt64, type.asU8, .integer time.toNat⟩ := fun h => h rfl
      rw [hwritten, Codec.asks, incoming_time hrmp htime (hread _ _ time)]
      simp [answerOf, answerTimes_timeMessage hreplies, clockTime, asU64_ofNat time.toNat_lt]

/-- What is on its way to a connection, with what is written, is what is read of it, with what is
still on its way. -/
theorem Happens.inboxes (h : Happens codec W happening W')
    (hconn : W.connections.lookup k = some conn) : ∃ conn', W'.connections.lookup k = some conn' ∧
    conn.inbox ++ (writtenIn k (W, happening)).toList.map codec.written =
      (readIn k (W, happening)).toList ++ conn'.inbox := by
  have hput : ∀ {k₀ conn₀ conn₁}, W'.connections = W.connections.insert k₀ conn₁ →
      W.connections.lookup k₀ = some conn₀ → conn₁.inbox = conn₀.inbox →
      writtenIn k (W, happening) = none → readIn k (W, happening) = none →
      ∃ conn', W'.connections.lookup k = some conn' ∧
        conn.inbox ++ (writtenIn k (W, happening)).toList.map codec.written =
          (readIn k (W, happening)).toList ++ conn'.inbox := by
    intro k₀ conn₀ conn₁ heq hconn₀ hinbox hwritten hread
    rw [heq, hwritten, hread]
    rcases KeyMap.lookup_insert_cases hconn hconn₀ with ⟨rfl, rfl, hlookup⟩ | ⟨-, hlookup⟩
    · exact ⟨conn₁, hlookup _, by simp [hinbox]⟩
    · exact ⟨conn, hlookup _, by simp⟩
  cases h with
  | joins _ _ _ hk | reconnects _ hk =>
    exact ⟨conn, KeyMap.lookup_insert_of_notMem hconn hk {}, by simp [writtenIn, readIn]⟩
  | reads _ hconn₀ | accepts hconn₀ | passes hconn₀ | answers hconn₀ | forwards hconn₀
  | replies hconn₀ | ends hconn₀ | closes hconn₀ => exact hput rfl hconn₀ rfl rfl rfl
  | @writes i p conn₀ m queue S hp hconn₀ hqueue =>
    have hwritten : writtenIn k (W, .writes i) = if p.connection = k then some m else none := by
      simp [writtenIn, hp, hqueue]
    rcases KeyMap.lookup_insert_cases hconn hconn₀ with ⟨rfl, rfl, hlookup⟩ | ⟨hk, hlookup⟩
    · exact ⟨_, hlookup _, by simp [hwritten, readIn]⟩
    · exact ⟨conn, hlookup _, by simp [hwritten, readIn, Ne.symm hk]⟩
  | @filters k₀ conn₀ c₀ m inbox now hconn₀ hc hinbox =>
    rcases KeyMap.lookup_insert_cases hconn hconn₀ with ⟨rfl, rfl, hlookup⟩ | ⟨hk, hlookup⟩
    · exact ⟨_, hlookup _, by simp [writtenIn, readIn, hconn, hinbox]⟩
    · exact ⟨conn, hlookup _, by simp [writtenIn, readIn, Ne.symm hk]⟩
  | _ => exact ⟨conn, hconn, by simp [writtenIn, readIn]⟩

/-- A connection answers what it reads: the answers come back, or they wait, as long as it
stands. -/
theorem Happens.echoes (h : Happens codec W happening W')
    (hreplies : RepliesRead codec.rmp.toRmpEncode codec.dec)
    (hconn : W.connections.lookup k = some conn) {inTurn : Prop} {all : List UInt64}
    (hall : Conveys (conn.admission.isOver = false) inTurn (conn.answers codec)
      (conn.waiting codec) all) :
    ∃ conn', W'.connections.lookup k = some conn' ∧
      Conveys (conn'.admission.isOver = false) (inTurn ∧ InTurn k (W, happening))
        (conn'.answers codec) (conn'.waiting codec)
        (all ++ (readIn k (W, happening)).toList.flatMap codec.asks) := by
  have hother : W'.connections.lookup k = some conn → readIn k (W, happening) = none →
      ∃ conn', W'.connections.lookup k = some conn' ∧
        Conveys (conn'.admission.isOver = false) (inTurn ∧ InTurn k (W, happening))
          (conn'.answers codec) (conn'.waiting codec)
          (all ++ (readIn k (W, happening)).toList.flatMap codec.asks) := by
    intro hlookup hread
    refine ⟨conn, hlookup, ?_⟩
    rw [hread, Option.toList_none, List.flatMap_nil, List.append_nil]
    exact hall.mono id And.left
  have hput : ∀ {k₀ conn₀ conn₁}, W'.connections = W.connections.insert k₀ conn₁ →
      W.connections.lookup k₀ = some conn₀ → readIn k (W, happening) = none →
      conn₁.answers codec = conn₀.answers codec → conn₁.answering = conn₀.answering →
      (conn₁.admission.isOver = false → conn₀.admission.isOver = false) →
      ∃ conn', W'.connections.lookup k = some conn' ∧
        Conveys (conn'.admission.isOver = false) (inTurn ∧ InTurn k (W, happening))
          (conn'.answers codec) (conn'.waiting codec)
          (all ++ (readIn k (W, happening)).toList.flatMap codec.asks) := by
    intro k₀ conn₀ conn₁ heq hconn₀ hread hanswers hwaiting hover
    rcases KeyMap.lookup_insert_cases hconn hconn₀ with ⟨rfl, rfl, hlookup⟩ | ⟨-, hlookup⟩
    · refine ⟨conn₁, heq ▸ hlookup _, ?_⟩
      rw [hread, Option.toList_none, List.flatMap_nil, List.append_nil, hanswers,
        Connection.waiting, hwaiting]
      exact hall.mono hover And.left
    · exact hother (heq ▸ hlookup _) hread
  cases h with
  | joins _ _ _ hk | reconnects _ hk =>
    exact hother (KeyMap.lookup_insert_of_notMem hconn hk {}) rfl
  | writes _ hconn₀ | passes hconn₀ => exact hput rfl hconn₀ rfl rfl rfl id
  | accepts hconn₀ hwaiting =>
    exact hput rfl hconn₀ rfl rfl rfl fun _ => by rw [hwaiting]; rfl
  | closes hconn₀ => exact hput rfl hconn₀ rfl rfl rfl nofun
  | reads _ hconn₀ hwire =>
    refine hput rfl hconn₀ rfl ?_ rfl id
    simp only [Connection.answers, hwire, List.append_assoc, List.singleton_append]
  | forwards hconn₀ =>
    refine hput rfl hconn₀ rfl ?_ rfl id
    simp only [Connection.answers, List.flatMap_append, answerTimes_forward, List.append_nil]
  | replies hconn₀ hc hreplies₀ =>
    refine hput rfl hconn₀ rfl ?_ rfl id
    simp only [Connection.answers, hreplies₀, List.append_assoc, List.singleton_append]
  | @filters k₀ conn₀ c₀ m inbox now hconn₀ hc hinbox =>
    rcases KeyMap.lookup_insert_cases hconn hconn₀ with ⟨rfl, rfl, hlookup⟩ | ⟨hk, hlookup⟩
    · have hread : readIn k (W, .filters k now) = some m := by simp [readIn, hconn, hinbox]
      refine ⟨_, hlookup _, ?_⟩
      rw [hread, Option.toList_some, List.flatMap_singleton, Connection.waiting,
        List.flatMap_append, answerTimes_answer hreplies]
      exact (hall.put (codec.asks m)).mono id And.left
    · refine hother (hlookup _) ?_
      simp [readIn, Ne.symm hk]
  | @answers k₀ conn₀ c₀ n m hconn₀ hc hm hroom =>
    rcases KeyMap.lookup_insert_cases hconn hconn₀ with ⟨rfl, rfl, hlookup⟩ | ⟨-, hlookup⟩
    · have htakes : Conveys True (n = 0) [m] (conn.answering.eraseIdx n) conn.answering :=
        .takes hm
      have hboth := hall.trans (htakes.flatMap codec.answerTimes)
        (fun _ => by rw [hc]; rfl) (.inr (by rw [hc]; rfl))
      refine ⟨_, hlookup _, ?_⟩
      simp only [readIn, Option.toList_none, List.flatMap_nil, List.append_nil]
      simp only [Connection.answers, hroom, List.append_nil, ← List.flatMap_append] at hboth
      exact hboth.mono (fun _ => trivial) fun hturn => ⟨hturn.1, hturn.2 rfl⟩
    · exact hother (hlookup _) rfl
  | @ends k₀ conn₀ c₀ hconn₀ hc =>
    rcases KeyMap.lookup_insert_cases hconn hconn₀ with ⟨rfl, rfl, hlookup⟩ | ⟨-, hlookup⟩
    · have hgone : (conn.heard ++ conn.wire).flatMap codec.answerTimes <+: conn.answers codec :=
        ⟨conn.replies.flatMap codec.answerTimes, List.flatMap_append.symm⟩
      have hlost : Conveys False inTurn _ [] all := hall.lose hgone List.nil_subperm id
      refine ⟨_, hlookup _, ?_⟩
      simp only [readIn, Option.toList_none, List.flatMap_nil, List.append_nil,
        Connection.answers, Connection.waiting]
      exact hlost.mono nofun And.left
    · exact hother (hlookup _) rfl
  | _ => exact hother hconn rfl

end Server

section Run

variable {codec : Codec} {W W' : World} {happening : Happening} {k : Nat} {conn : Connection}
  {guard : World → Happening → Prop} {u : Kind → Nat} {log : List (World × Happening)}

/-- On each connection the times that have been read come back or wait, and what is unread is what
comes after them. -/
structure Echoed (codec : Codec) (log : List (World × Happening)) (W : World) : Prop where
  unknown : ∀ k, k ∉ W.connections → writtenOn log k = []
  known : ∀ k conn, W.connections.lookup k = some conn → ∃ read unread,
    writtenOn log k = read ++ unread ∧ conn.inbox = unread.map codec.written ∧
      Conveys (conn.admission.isOver = false) (∀ e ∈ log, InTurn k e) (conn.answers codec)
        (conn.waiting codec) (read.filterMap clockTime)

/-- What asks for times comes to those that are sent. -/
theorem asks_all (hrmp : Markers codec.rmp) (hread : codec.ReadsClock)
    (hreplies : RepliesRead codec.rmp.toRmpEncode codec.dec) {l : List Client.SocketMessage}
    (hl : ∀ m ∈ l, Proper m) :
    (l.map codec.written).flatMap codec.asks = l.filterMap clockTime := by
  induction l with
  | nil => rfl
  | cons m l ih =>
    have hm := asks_written hrmp hread hreplies (hl m (List.mem_cons_self ..))
    rw [List.map_cons, List.flatMap_cons, hm, ih fun m' hm' => hl m' (List.mem_cons_of_mem _ hm')]
    cases htime : clockTime m <;> simp [htime]

theorem Echoed.step (h : Echoed codec log W) (hrmp : Markers codec.rmp) (hread : codec.ReadsClock)
    (hreplies : RepliesRead codec.rmp.toRmpEncode codec.dec) (hstep : Happens codec W happening W')
    (hproper : ∀ k, ∀ m ∈ writtenOn (log ++ [(W, happening)]) k, Proper m) :
    Echoed codec (log ++ [(W, happening)]) W' := by
  have hempty : ∀ k, k ∉ W.connections → writtenOn (log ++ [(W, happening)]) k = [] := by
    intro k hk
    rw [written_snoc, h.unknown k hk, hstep.writtenIn_unknown hk]
    rfl
  refine ⟨fun k hk => hempty k fun hold => hk (hstep.connections hold), ?_⟩
  intro k conn' hconn'
  by_cases hk : k ∈ W.connections
  · obtain ⟨conn, hconn⟩ := (KeyMap.mem_iff_lookup _ _).mp hk
    obtain ⟨read, unread, hwritten, hinbox, hanswers⟩ := h.known k conn hconn
    obtain ⟨conn₁, hconn₁, hmoved⟩ := hstep.inboxes hconn
    obtain ⟨conn₂, hconn₂, hmore⟩ := hstep.echoes hreplies hconn hanswers
    cases hconn'.symm.trans hconn₁
    cases hconn'.symm.trans hconn₂
    rw [hinbox, ← List.map_append] at hmoved
    obtain ⟨next, rest, hsplit, hnext, hrest⟩ := List.map_eq_append_iff.mp hmoved
    have hall : writtenOn (log ++ [(W, happening)]) k = read ++ next ++ rest := by
      rw [written_snoc, hwritten, List.append_assoc, hsplit, List.append_assoc]
    have hnew : ∀ m ∈ next, Proper m := by
      intro m hm
      refine hproper k m ?_
      rw [hall]
      exact List.mem_append_left _ (List.mem_append_right _ hm)
    refine ⟨read ++ next, rest, hall, hrest.symm, ?_⟩
    rw [← hnext, asks_all hrmp hread hreplies hnew, ← List.filterMap_append] at hmore
    exact hmore.mono id inTurn_snoc.mp
  · refine ⟨[], [], hempty k hk, ?_, ?_⟩
    · rw [hstep.opens hk hconn']
      rfl
    · rw [hstep.opens hk hconn']
      exact .of_eq rfl

end Run

end NetTables.System
