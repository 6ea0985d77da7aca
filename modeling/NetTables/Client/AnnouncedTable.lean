import NetTables.Client.Programs
import NetTables.Client.Tasks
import NetTables.Lib.Casts
import NetTables.Lib.Course
import Mathlib.Data.List.DropRight

namespace NetTables.Client

open Lib Spec

section Steps

variable (ofTypeStr : String → FrcType)

def ClientState.withTable (c : ClientState) (table : KeyMap Int32 AnnouncedTopic) : ClientState :=
  { c with inner := { c.inner with announcedTopics := table } }

/-- What `on_open` does to the table. -/
def ClientState.setUp (c : ClientState) : ClientState :=
  c.withTable ((∅ : KeyMap Int32 AnnouncedTopic).insert (-1) InnerClient.time)

def announced (a : Announce) : AnnouncedTopic := ⟨a.name, ofTypeStr a.type, some a.properties⟩

/-- What a message does to the table. -/
def ClientState.follow (message : NTMessage) (c : ClientState) : ClientState :=
  match message with
  | .announce a =>
    if a.id ∈ c.inner.announcedTopics then
      c
    else
      c.withTable (c.inner.announcedTopics.insert a.id (announced ofTypeStr a))
  | .unAnnounce u => c.withTable (c.inner.announcedTopics.erase u.id.toInt32)
  | _ => c

end Steps

/-- The message is about the table. -/
def isAnnouncing : NTMessage → Bool
  | .announce _ | .unAnnounce _ => true
  | _ => false

/-- What is known of the messages: the tasks that are to set the table up, what the text that the
socket task is at still holds for the table, and the messages that were handled since the table was
set up, if it was. -/
structure Told where
  opening : TaskId → Bool
  pending : List NTMessage
  handled : Option (List NTMessage)

namespace Told

def initial : Told where
  opening := fun t => t = .start
  pending := []
  handled := none

/-- A task makes a step on the state: the first of `on_open` sets the table up, and each of those
that handle a text is for one of its messages. -/
def stepped (r : Told) (t : TaskId) : Told :=
  if r.opening t then
    { r with opening := Function.update r.opening t false, handled := some [] }
  else if t = .socket then
    { r with
      pending := r.pending.tail
      handled := r.handled.map fun l => l ++ r.pending.head?.toList }
  else
    r

def after (r : Told) (S : System) (e : Event) (_ : System) : Told :=
  match e with
  | .incoming (.text (some messages)) => { r with pending := messages.filter isAnnouncing }
  | .reconnected => { r with opening := Function.update r.opening .socket true, pending := [] }
  | .moves t =>
    match S.pool.rest t with
    | .act _ _ => r.stepped t
    | _ => r
  | _ => r

end Told

/-- Runs of a client along which its messages are told, with their number. -/
abbrev Telling (ofTypeStr : String → FrcType) : Nat → Told × System → Prop :=
  Run.Carrying Told.initial Told.after (fun S => ∃ o now, S = .initial o now) (Takes ofTypeStr)
    (fun _ => 0) (fun _ _ => 1) fun _ _ => True

/-- `UnAnnounce` of this id. -/
def unAnnounces (k : Int32) : NTMessage → Bool
  | .unAnnounce u => (u.id.toNat : Int) = k.toInt
  | _ => false

/-- `Announce` of this id. -/
def announceFor (k : Int32) : NTMessage → Option Announce
  | .announce a => if a.id = k then some a else none
  | _ => none

/-- The first `Announce` for the id since the last `UnAnnounce` of it. -/
def firstAnnounce (k : Int32) (messages : List NTMessage) : Option Announce :=
  (messages.rtakeWhile fun m => !unAnnounces k m).findSome? (announceFor k)

/-- The table is what the messages say, and the clock's topic is there. -/
structure FollowsAnnouncements (ofTypeStr : String → FrcType) (c : ClientState)
    (messages : List NTMessage) : Prop where
  topics : ∀ k : Int32, 0 ≤ k →
    c.inner.announcedTopics.lookup k = (firstAnnounce k messages).map (announced ofTypeStr)
  time : c.inner.announcedTopics.lookup (-1) = some InnerClient.time

section Table

variable {ofTypeStr : String → FrcType} {c : ClientState} {k : Int32} {messages : List NTMessage}
  {m : NTMessage}

theorem firstAnnounce_snoc : firstAnnounce k (messages ++ [m]) =
    if unAnnounces k m then none else (firstAnnounce k messages).or (announceFor k m) := by
  rw [firstAnnounce, List.rtakeWhile_concat]
  cases hm : unAnnounces k m with
  | true => rfl
  | false =>
    have hone : [m].findSome? (announceFor k) = announceFor k m := by
      rw [List.findSome?_cons]
      cases announceFor k m <;> rfl
    rw [if_pos (by rfl), if_neg Bool.false_ne_true, List.findSome?_append, hone]
    rfl

/-- What a message does under one key. -/
theorem lookup_follow : (c.follow ofTypeStr m).inner.announcedTopics.lookup k =
    match m with
    | .announce a =>
      (c.inner.announcedTopics.lookup k).or (if a.id = k then some (announced ofTypeStr a) else none)
    | .unAnnounce u => if u.id.toInt32 = k then none else c.inner.announcedTopics.lookup k
    | _ => c.inner.announcedTopics.lookup k := by
  cases m with
  | announce a =>
    simp only [ClientState.follow]
    split_ifs with hmem hk hk
    · obtain ⟨topic, htopic⟩ := (KeyMap.mem_iff_lookup _ _).mp hmem
      rw [← hk, htopic]
      rfl
    · rw [Option.or_none]
    · simp only [ClientState.withTable, KeyMap.lookup_insert, if_pos hk.symm]
      rw [← hk, AList.lookup_eq_none.mpr hmem]
      rfl
    · simp only [ClientState.withTable, KeyMap.lookup_insert, if_neg (Ne.symm hk)]
      rw [Option.or_none]
  | unAnnounce u =>
    simp only [ClientState.follow, ClientState.withTable, KeyMap.lookup_erase, eq_comm]
  | _ => rfl

/-- What the table keeps: under the ids the announcements, and under -1 the clock's topic, until the
id that is cast to -1 is unannounced. What is announced there then is another topic. -/
structure Kept (ofTypeStr : String → FrcType) (c : ClientState) (messages : List NTMessage) :
    Prop where
  topics : ∀ k : Int32, 0 ≤ k →
    c.inner.announcedTopics.lookup k = (firstAnnounce k messages).map (announced ofTypeStr)
  time : c.inner.announcedTopics.lookup (-1) = some InnerClient.time ↔
    ∀ u, .unAnnounce u ∈ messages → u.id ≠ 4294967295

theorem kept_setUp : Kept ofTypeStr c.setUp [] := by
  refine ⟨fun k hk => ?_, iff_of_true rfl nofun⟩
  have hne : k ≠ -1 := by
    rintro rfl
    revert hk
    decide
  exact AList.lookup_insert_ne hne

theorem Kept.of_table (h : Kept ofTypeStr c messages) {c' : ClientState}
    (htable : c'.inner.announcedTopics = c.inner.announcedTopics) :
    Kept ofTypeStr c' messages := by
  refine ⟨fun k hk => ?_, ?_⟩
  · rw [htable, h.topics k hk]
  · rw [htable, h.time]

theorem Kept.follow (h : Kept ofTypeStr c messages) (m : NTMessage) :
    Kept ofTypeStr (c.follow ofTypeStr m) (messages ++ [m]) := by
  have hmem : ∀ u, .unAnnounce u ∈ messages ++ [m] ↔
      .unAnnounce u ∈ messages ∨ .unAnnounce u = m := by
    intro u
    rw [List.mem_append, List.mem_singleton]
  refine ⟨fun k hk => ?_, ?_⟩
  · rw [lookup_follow, firstAnnounce_snoc]
    cases m with
    | announce a =>
      simp only [unAnnounces, announceFor, Bool.false_eq_true, if_false]
      rw [h.topics k hk]
      split_ifs <;> cases firstAnnounce k messages <;> rfl
    | unAnnounce u =>
      simp only [unAnnounces, announceFor, decide_eq_true_eq, toInt32_eq_iff hk, Option.or_none]
      rw [h.topics k hk]
      split_ifs <;> rfl
    | _ =>
      simp only [unAnnounces, announceFor, Bool.false_eq_true, if_false, Option.or_none]
      exact h.topics k hk
  · rw [lookup_follow]
    cases m with
    | announce a =>
      have hlater : announced ofTypeStr a ≠ InnerClient.time := by
        intro heq
        cases congrArg AnnouncedTopic.properties heq
      simp only [hmem, reduceCtorEq, or_false]
      rw [← h.time]
      cases hclock : c.inner.announcedTopics.lookup (-1) with
      | none => split_ifs <;> simp [hlater]
      | some topic => rw [Option.some_or]
    | unAnnounce u =>
      have hcast : u.id.toInt32 = -1 ↔ u.id = 4294967295 :=
        ⟨fun heq => toInt32_inj heq, fun heq => by rw [heq]; rfl⟩
      simp only [hcast]
      split_ifs with hu
      · refine iff_of_false nofun fun hall => ?_
        exact hall u ((hmem u).mpr (.inr rfl)) hu
      · rw [h.time]
        constructor
        · intro hall u' hu'
          rcases (hmem u').mp hu' with hu' | heq
          · exact hall u' hu'
          · cases heq
            exact hu
        · exact fun hall u' hu' => hall u' ((hmem u').mpr (.inl hu'))
    | _ =>
      simp only [hmem, reduceCtorEq, or_false]
      exact h.time

end Table

/-- A change that leaves the table alone. -/
def Spares (f : ClientState → ClientState) : Prop :=
  ∀ c, (f c).inner.announcedTopics = c.inner.announcedTopics

/-- Such changes only. -/
abbrev Sparing (rest : ClientM Unit) : Prop := rest.All Spares fun _ => True

section Programs

variable (o : IterOrder) (ofTypeStr : String → FrcType)

theorem sparing_updateTime : Sparing InnerClient.updateTime := by
  simp only [InnerClient.updateTime, Prog.acquire_bind, Prog.read_bind]
  refine ⟨fun _ => rfl, fun c => ?_⟩
  dsimp only
  split
  · exact ⟨trivial, trivial⟩
  · trivial

/-- The table is set up first. -/
theorem begins_onOpen : (InnerClient.onOpen o).Begins Spares [ClientState.setUp] := by
  have hrest : ∀ c, Sparing (do
      InnerClient.updateTime
      InnerClient.sendMessage (.text (InnerClient.replay o c))
      Prog.release .subscriptions
      Prog.release .clientPublishedTopics) :=
    fun c => sparing_updateTime.bind fun _ => ⟨trivial, trivial⟩
  refine .inr ⟨[], rfl, fun _ => .inl ⟨rfl, fun _ => rfl, fun _ => .inl ⟨rfl, fun _ => rfl,
    fun c => .inl ⟨rfl, fun _ => rfl, fun _ => ?_⟩⟩⟩⟩
  exact (hrest c).begins

theorem sparing_handleTopicValue (id : Int32) (timestampMicros : UInt64) (type : FrcType)
    (data : Value) : Sparing (InnerClient.handleTopicValue o id timestampMicros type data) := by
  simp only [InnerClient.handleTopicValue, Prog.acquire_bind, Prog.read_bind]
  refine ⟨fun _ => rfl, fun c => ?_⟩
  dsimp only
  split
  next topic htopic =>
    refine ⟨fun c => ?_, fun _ => trivial⟩
    obtain ⟨subs, hinner⟩ := inner_handOut o ⟨topic.name, timestampMicros.toUInt32, type, data⟩ c
    have hsame := congrArg InnerClient.announcedTopics hinner
    exact hsame
  · trivial

theorem sparing_handleTime (timestampMicros : UInt64) (data : Value) :
    Sparing (InnerClient.handleTime timestampMicros data) := by
  have hmath : (InnerClient.handleNewTimestamp timestampMicros data.asI64).All Spares
      fun _ => True := by
    refine ⟨fun c => ?_, fun _ => trivial⟩
    obtain ⟨offset, hc⟩ := getD_withTimestamp c timestampMicros data.asI64
    dsimp only
    rw [hc]
  apply hmath.bind
  intro ok
  cases ok with
  | true => trivial
  | false =>
    refine ⟨fun _ => rfl, fun _ => ?_⟩
    exact sparing_updateTime.bind fun _ => hmath.bind (g := fun _ => .pure ()) fun _ => trivial

theorem sparing_handleValue (array : List Value) : Sparing (InnerClient.handleValue o array) := by
  obtain heq | ⟨_, _, _, _, _, -, -, heq⟩ | ⟨_, _, _, _, _, _, _, -, -, heq⟩ :=
    InnerClient.handleValue_cases o array
  · rw [heq]
    trivial
  · rw [heq]
    exact sparing_handleTime _ _
  · rw [heq]
    exact sparing_handleTopicValue o _ _ _ _

theorem takes_handleNtMessage (m : NTMessage) : (InnerClient.handleNtMessage ofTypeStr m).Takes
    (if isAnnouncing m then [ClientState.follow ofTypeStr m] else []) := by
  cases m with
  | announce a => exact .inr ⟨[], rfl, fun _ => rfl⟩
  | unAnnounce u => exact .inr ⟨[], rfl, fun _ => rfl⟩
  | _ => rfl

/-- Each message of a text that is about the table has its step. -/
theorem takes_text (messages : List NTMessage) :
    (InnerClient.handleMessage o ofTypeStr (.text (some messages))).Takes
      ((messages.filter isAnnouncing).map (ClientState.follow ofTypeStr)) := by
  have hsteps : (messages.filter isAnnouncing).map (ClientState.follow ofTypeStr) =
      messages.flatMap fun m => if isAnnouncing m then [ClientState.follow ofTypeStr m] else [] := by
    induction messages with
    | nil => rfl
    | cons m messages ih =>
      rw [List.flatMap_cons, ← ih]
      cases hm : isAnnouncing m <;> simp [hm]
  rw [hsteps]
  exact Prog.takes_forEach (takes_handleNtMessage ofTypeStr)

theorem sparing_handleMessage {message : InnerClient.Incoming}
    (h : ∀ messages, message ≠ .text (some messages)) :
    Sparing (InnerClient.handleMessage o ofTypeStr message) := by
  cases message with
  | text messages =>
    cases messages with
    | none => trivial
    | some messages => exact (h messages rfl).elim
  | binary values =>
    apply Prog.all_forEach
    intro v _
    cases v with
    | array array => exact sparing_handleValue o array
    | _ => trivial
  | other => trivial

theorem sparing_program (call : ApiCall) : Sparing call.program := by
  cases call with
  | publishTopic name topicType properties =>
    exact ⟨fun _ => rfl, fun _ => ⟨trivial, fun _ => rfl, fun _ => trivial⟩⟩
  | unpublish topic => exact ⟨trivial, trivial⟩
  | subscribeWOptions topicNames options =>
    exact ⟨fun _ => rfl, fun _ => ⟨trivial, fun _ => rfl, fun _ => ⟨fun _ => rfl, fun _ => trivial⟩⟩⟩
  | unsubscribe sub =>
    simp only [ApiCall.program, AsyncClientHandle.unsubscribe, Prog.read_bind]
    refine ⟨fun _ => rfl, fun c => ?_⟩
    dsimp only
    split
    · trivial
    · exact ⟨trivial, fun _ => rfl, fun _ => ⟨fun _ => rfl, fun _ => trivial⟩⟩
  | dropStream sub => exact ⟨fun _ => rfl, fun _ => trivial⟩
  | takeMessage sub =>
    refine ⟨fun c => ?_, fun _ => trivial⟩
    dsimp only
    split <;> rfl
  | publishValue topic v => exact ⟨fun _ => rfl, fun _ => ⟨trivial, trivial⟩⟩
  | publishValueWTimestamp topic timestamp v => exact ⟨trivial, trivial⟩

end Programs

/-- The steps on the table that are to come first in what a task has left. -/
def Told.ahead (ofTypeStr : String → FrcType) (r : Told) (t : TaskId) :
    List (ClientState → ClientState) :=
  if r.opening t then [ClientState.setUp]
  else if t = .socket then r.pending.map (ClientState.follow ofTypeStr)
  else []

/-- The tasks do what is told of them, and so the table is what has been handled. -/
structure Matches (ofTypeStr : String → FrcType) (p : Told × System) : Prop where
  ahead : ∀ t, (p.2.pool.rest t).Begins Spares (p.1.ahead ofTypeStr t)
  opening : p.1.opening .socket = true → p.1.pending = []
  kept : ∀ messages, p.1.handled = some messages → Kept ofTypeStr p.2.pool.shared messages

section Matches

variable {ofTypeStr : String → FrcType} {r : Told} {S S' : System} {e : Event} {t : TaskId}

theorem matches_initial (o : IterOrder) (now : Instant) :
    Matches ofTypeStr (.initial, .initial o now) := by
  refine ⟨fun t => ?_, fun _ => rfl, nofun⟩
  by_cases ht : t = .start
  · simp only [System.initial, Told.initial, Told.ahead, ht, if_true, decide_true]
    exact begins_onOpen o
  · simp [System.initial, Told.initial, Told.ahead, ht, Prog.Begins]

/-- A task whose work is done has nothing of the table ahead. -/
theorem Matches.idle (h : Matches ofTypeStr (r, S)) (hdone : S.pool.rest t = .pure ()) :
    r.ahead ofTypeStr t = [] := by
  have hbegins := h.ahead t
  rw [hdone] at hbegins
  exact hbegins

/-- One task goes on, and the others are left as they were. -/
theorem Matches.begins_of (h : Matches ofTypeStr (r, S)) {r' : Told} {pool : Tasks}
    (hrest : ∀ t', t' ≠ t → pool.rest t' = S.pool.rest t')
    (hahead : ∀ t', t' ≠ t → r'.ahead ofTypeStr t' = r.ahead ofTypeStr t')
    (hself : (pool.rest t).Begins Spares (r'.ahead ofTypeStr t)) (t' : TaskId) :
    (pool.rest t').Begins Spares (r'.ahead ofTypeStr t') := by
  by_cases ht : t' = t
  · rw [ht]
    exact hself
  · rw [hahead t' ht, hrest t' ht]
    exact h.ahead t'

/-- A task gets a program, which does what is told of it. -/
theorem Matches.start (h : Matches ofTypeStr (r, S)) {r' : Told} {p : ClientM Unit}
    (hbegins : p.Begins Spares (r'.ahead ofTypeStr t))
    (hothers : ∀ t', t' ≠ t → r'.ahead ofTypeStr t' = r.ahead ofTypeStr t')
    (hopening : r'.opening .socket = true → r'.pending = []) (hhandled : r'.handled = r.handled) :
    Matches ofTypeStr (r', S.startTask t p) := by
  refine ⟨h.begins_of (t := t) (fun t' ht => Pool.start_rest_of_ne _ ht) hothers ?_, hopening,
    fun messages hm => h.kept messages (hhandled ▸ hm)⟩
  rw [System.startTask, Pool.start_rest_self]
  exact hbegins

/-- A task with nothing left gets a program that spares the table. -/
theorem Matches.startSparing (h : Matches ofTypeStr (r, S)) (hdone : S.pool.rest t = .pure ())
    {p : ClientM Unit} (hp : Sparing p) : Matches ofTypeStr (r, S.startTask t p) := by
  apply h.start _ (fun _ _ => rfl) h.opening rfl
  rw [h.idle hdone]
  exact hp.begins

/-- A step on the state, which is the next that is ahead of the task, or spares the table. -/
theorem Matches.stepped (h : Matches ofTypeStr (r, S)) {pool : Tasks}
    {f : ClientState → ClientState} (hrest : ∀ t', t' ≠ t → pool.rest t' = S.pool.rest t')
    (hshared : pool.shared = f S.pool.shared)
    (hnext : (pool.rest t).Begins Spares (r.ahead ofTypeStr t).tail)
    (hf : r.ahead ofTypeStr t = [] ∧ Spares f ∨ ∃ rest, r.ahead ofTypeStr t = f :: rest) :
    Matches ofTypeStr (r.stepped t, { S with pool }) := by
  cases hopening : r.opening t with
  | true =>
    have hahead : r.ahead ofTypeStr t = [ClientState.setUp] := if_pos hopening
    simp only [hahead, List.tail_cons, reduceCtorEq, false_and, false_or, List.cons.injEq] at hnext hf
    obtain ⟨_, rfl, -⟩ := hf
    simp only [Told.stepped, hopening, if_true]
    refine ⟨h.begins_of hrest (fun t' ht => ?_) ?_, fun hsocket => ?_, fun messages hm => ?_⟩
    · simp [Told.ahead, ht]
    · by_cases ht : t = .socket
      · subst ht
        have hpending := h.opening hopening
        dsimp only at hpending
        simpa [Told.ahead, hpending] using hnext
      · simpa [Told.ahead, ht] using hnext
    · by_cases ht : t = .socket
      · subst ht
        exact h.opening hopening
      · dsimp only at hsocket
        rw [Function.update_of_ne (Ne.symm ht)] at hsocket
        exact h.opening hsocket
    · cases hm
      rw [hshared]
      exact kept_setUp
  | false =>
    by_cases ht : t = .socket
    · subst ht
      have hahead : r.ahead ofTypeStr .socket = r.pending.map (ClientState.follow ofTypeStr) := by
        simp [Told.ahead, hopening]
      rw [hahead] at hnext hf
      simp only [Told.stepped, hopening, Bool.false_eq_true, if_false, if_true]
      refine ⟨h.begins_of hrest (fun t' ht => ?_) ?_, fun hsocket => ?_, fun messages hm => ?_⟩
      · simp [Told.ahead, ht]
      · simpa [Told.ahead, hopening, List.map_tail] using hnext
      · cases hopening.symm.trans hsocket
      · obtain ⟨l, hl, rfl⟩ := Option.map_eq_some_iff.mp hm
        rw [hshared]
        cases hpending : r.pending with
        | nil =>
          simp only [hpending, List.map_nil, true_and, reduceCtorEq, exists_false, or_false] at hf
          rw [List.head?_nil, Option.toList_none, List.append_nil]
          exact (h.kept l hl).of_table (hf _)
        | cons m pending =>
          simp only [hpending, List.map_cons, reduceCtorEq, false_and, false_or, List.cons.injEq] at hf
          obtain ⟨_, rfl, -⟩ := hf
          exact (h.kept l hl).follow m
    · have hahead : r.ahead ofTypeStr t = [] := by simp [Told.ahead, hopening, ht]
      simp only [hahead, List.tail_nil, true_and, reduceCtorEq, exists_false, or_false] at hnext hf
      simp only [Told.stepped, hopening, Bool.false_eq_true, if_false, if_neg ht]
      refine ⟨h.begins_of hrest (fun _ _ => rfl) (hahead ▸ hnext), h.opening,
        fun messages hm => ?_⟩
      rw [hshared]
      exact (h.kept messages hm).of_table (hf _)

theorem Matches.moves (h : Matches ofTypeStr (r, S)) {pool : Tasks}
    (hmoves : Pool.Moves socketCapacity t S.pool pool) :
    Matches ofTypeStr (r.after S (.moves t) { S with pool }, { S with pool }) := by
  have hothers : ∀ t', t' ≠ t → pool.rest t' = S.pool.rest t' := fun _ ht => hmoves.rest_of_ne ht
  obtain ⟨hact, hshared, hnext⟩ | ⟨f, next, hrest, hshared, hnext, hf⟩ := hmoves.begins (h.ahead t)
  · have hafter : r.after S (.moves t) { S with pool } = r := by
      cases hrest : S.pool.rest t with
      | act f next => exact (hact f next hrest).elim
      | _ => simp only [Told.after, hrest]
    rw [hafter]
    refine ⟨h.begins_of hothers (fun _ _ => rfl) hnext, h.opening, fun messages hm => ?_⟩
    rw [hshared]
    exact h.kept messages hm
  · simp only [Told.after, hrest]
    exact h.stepped hothers hshared hnext hf

theorem Matches.incoming (h : Matches ofTypeStr (r, S)) (o : IterOrder) (hselects : S.Selects)
    (message : InnerClient.Incoming) {S' : System} :
    Matches ofTypeStr (r.after S (.incoming message) S',
      S.startTask .socket (InnerClient.handleMessage o ofTypeStr message)) := by
  have hsparing : ∀ {message : InnerClient.Incoming},
      (∀ messages, message ≠ .text (some messages)) → Matches ofTypeStr (r,
        S.startTask .socket (InnerClient.handleMessage o ofTypeStr message)) :=
    fun hother => h.startSparing hselects.2 (sparing_handleMessage o ofTypeStr hother)
  cases message with
  | text messages =>
    cases messages with
    | none => exact hsparing nofun
    | some messages =>
      have hopening : r.opening .socket = false := by
        have hidle := h.idle hselects.2
        cases hsocket : r.opening .socket with
        | false => rfl
        | true => simp [Told.ahead, hsocket] at hidle
      refine h.start ?_ (fun t ht => ?_) (fun hsocket => ?_) rfl
      · simp only [Told.after, Told.ahead, hopening, Bool.false_eq_true, if_false, if_true]
        exact (takes_text o ofTypeStr messages).begins
      · simp [Told.after, Told.ahead, ht]
      · cases hopening.symm.trans hsocket
  | binary | other => exact hsparing nofun

theorem Matches.step (h : Matches ofTypeStr (r, S)) (hstep : Takes ofTypeStr S e S') :
    Matches ofTypeStr (r.after S e S', S') := by
  cases hstep with
  | moves hmoves => exact h.moves hmoves
  | @incoming message o hselects => exact h.incoming o hselects message
  | reconnected o hlost =>
    have hstart : Matches ofTypeStr ({ r with
        opening := Function.update r.opening .socket true
        pending := [] }, S.startTask .socket (InnerClient.onOpen o)) := by
      refine h.start ?_ (fun t ht => ?_) (fun _ => rfl) rfl
      · simp only [Told.ahead, Function.update_self, if_true]
        exact begins_onOpen o
      · simp [Told.ahead, ht]
    exact ⟨hstart.ahead, hstart.opening, hstart.kept⟩
  | timer hopen hdone => exact h.startSparing hdone sparing_updateTime
  | @call n call hopen hdone => exact h.startSparing hdone (sparing_program call)
  | connectionLost | written | writeFailed => exact ⟨h.ahead, h.opening, h.kept⟩
  | tick micros =>
    exact ⟨h.ahead, h.opening, fun messages hm => (h.kept messages hm).of_table rfl⟩

theorem matches_of_telling {n : Nat} {p : Told × System} (run : Telling ofTypeStr n p) :
    Matches ofTypeStr p := by
  refine run.invariant (fun _ p => Matches ofTypeStr p) (fun p hinit => ?_) ?_
  · obtain ⟨hfirst, o, now, hS⟩ := hinit
    have hp : p = (.initial, .initial o now) := Prod.ext hfirst hS
    rw [hp]
    exact matches_initial o now
  · intro _ p e q _ h _ hstep
    have hq : q = (p.1.after p.2 e q.2, q.2) := Prod.ext hstep.2 rfl
    rw [hq]
    exact h.step hstep.1

end Matches

section Perform

variable {o : IterOrder} {ofTypeStr : String → FrcType} {p p' : Told × System}

/-- In every run, and whatever else its tasks do: the table is what the messages that were handled
since `on_open` say, with the clock's topic in its place, exactly where none of them unannounces the
id that is cast to -1. -/
theorem table_follows_iff {n : Nat} (run : Telling ofTypeStr n p) {messages : List NTMessage}
    (hm : p.1.handled = some messages) :
    FollowsAnnouncements ofTypeStr p.2.pool.shared messages ↔
      ∀ u, .unAnnounce u ∈ messages → u.id ≠ 4294967295 := by
  have h := (matches_of_telling run).kept messages hm
  exact ⟨fun hfollows => h.time.mp hfollows.time, fun hid => ⟨h.topics, h.time.mpr hid⟩⟩

/-- One event after the other, as long as they can happen, with what is told of them. -/
def tellAll (o : IterOrder) (ofTypeStr : String → FrcType) (p : Told × System) :
    List Event → Option (Told × System)
  | [] => some p
  | e :: events =>
    (p.2.take o ofTypeStr e).bind fun S' => tellAll o ofTypeStr (p.1.after p.2 e S', S') events

theorem telling_initial (o : IterOrder) (ofTypeStr : String → FrcType) (now : Instant) :
    Telling ofTypeStr 0 (.initial, .initial o now) := .start ⟨rfl, o, now, rfl⟩

theorem telling_tellAll {n : Nat} {events : List Event} (run : Telling ofTypeStr n p)
    (h : tellAll o ofTypeStr p events = some p') : ∃ n', Telling ofTypeStr n' p' := by
  induction events generalizing p n with
  | nil =>
    cases h
    exact ⟨n, run⟩
  | cons e events ih =>
    obtain ⟨S', hfirst, h⟩ := Option.bind_eq_some_iff.mp h
    exact ih (Run.carrying_step run (takes_of_take hfirst) trivial) h

end Perform

/-- A client whose `start` is done gets this message. -/
def sentAfterStart (m : NTMessage) : List Event :=
  List.replicate 15 (.moves .start) ++ [.incoming (.text (some [m]))] ++
    List.replicate 3 (.moves .socket)

theorem table_follows_announce : ∃ n p messages, Telling (fun _ => .int) n p ∧
    p.1.handled = some messages ∧ messages = [.announce ⟨"n", 0, "int", none, {}⟩] ∧
      FollowsAnnouncements (fun _ => .int) p.2.pool.shared messages := by
  have hrun : (tellAll .stored (fun _ => .int) (.initial, .initial .stored 0)
      (sentAfterStart (.announce ⟨"n", 0, "int", none, {}⟩))).map (fun p => p.1.handled) =
        some (some [.announce ⟨"n", 0, "int", none, {}⟩]) := by decide +kernel
  obtain ⟨p, hp, hm⟩ := Option.map_eq_some_iff.mp hrun
  obtain ⟨n, run⟩ := telling_tellAll (telling_initial .stored (fun _ => .int) 0) hp
  exact ⟨n, p, _, run, hm, rfl, (table_follows_iff run hm).mpr (by simp)⟩

/-- The clock's topic is unannounced. -/
theorem clock_is_unannounced :
    ¬∀ ofTypeStr n p messages, Telling ofTypeStr n p → p.1.handled = some messages →
      FollowsAnnouncements ofTypeStr p.2.pool.shared messages := by
  intro hclaim
  have hrun : (tellAll .stored (fun _ => .int) (.initial, .initial .stored 0)
      (sentAfterStart (.unAnnounce ⟨"n", 4294967295⟩))).map (fun p => (p.1.handled,
        (p.2.pool.shared.inner.announcedTopics.lookup (-1)).isSome)) =
          some (some [.unAnnounce ⟨"n", 4294967295⟩], false) := by decide +kernel
  obtain ⟨p, hp, hview⟩ := Option.map_eq_some_iff.mp hrun
  obtain ⟨hm, htime⟩ := Prod.mk.inj hview
  obtain ⟨n, run⟩ := telling_tellAll (telling_initial .stored (fun _ => .int) 0) hp
  rw [(hclaim _ n p _ run hm).time] at htime
  cases htime

end NetTables.Client
