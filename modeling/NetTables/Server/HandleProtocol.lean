import NetTables.Server.Isolation
import NetTables.Server.Steps

namespace NetTables.Server.HandlePublish

open Lib Lib.Guarded Lib.Fallible Spec
open Locking (Mutex)
open Steps (StepM Scene Notes)

/-- The task with the server handle, and the parser of the client messages. -/
inductive Party where
  | handle
  | parser
  deriving DecidableEq

inductive Message where
  | subscribe (o : IterOrder) (sub : Subscribe) (clientIdx : ClientIdx) (now : Instant)
  | unpublish (pubTopic : UnpublishTopic) (clientIdx : ClientIdx)

def Message.body : Message → StepM Unit
  | .subscribe o sub clientIdx now => Steps.subscribe o sub clientIdx now
  | .unpublish pubTopic clientIdx => Steps.innerUnpublishTopic pubTopic clientIdx

abbrev Pool := Lib.Pool Party Mutex Empty Scene

/-- The tasks, and the message that the parser has begun last. -/
structure System where
  pool : Pool
  parsing : Option Message

namespace System

/-- The tasks over a server on which nobody works. -/
def rest (s : InnerServer) : System where
  pool := {
    shared := { state := s, notes := {} }
    owner := fun _ => none
    queue := []
    rest := fun _ => .pure () }
  parsing := none

/-- The parser is at work on a subscription. -/
def Subscribing (S : System) : Prop :=
  (∃ o sub c now, S.parsing = some (.subscribe o sub c now)) ∧ S.pool.rest .parser ≠ .pure ()

end System

inductive Turn where
  | publish (o : IterOrder) (topicName : String) (value : FrcValue)
      (props : Option PublishProperties) (uid now : UInt64)
  | parse (m : Message)
  | moves (t : Party)

/-- The handle publishes, the parser goes to its next message, or a task makes its next step. -/
inductive Step : System → Turn → System → Prop where
  | publish {S} (o : IterOrder) (topicName : String) (value : FrcValue)
      (props : Option PublishProperties) (uid now : UInt64)
      (hdone : S.pool.rest .handle = .pure ()) :
      Step S (.publish o topicName value props uid now) { S with
        pool := S.pool.start .handle
          (spawn (Steps.publishTopicWProps o topicName value props uid now)) }
  | parse {S} (m : Message) (hdone : S.pool.rest .parser = .pure ()) :
      Step S (.parse m) { pool := S.pool.start .parser (spawn m.body), parsing := some m }
  | moves {S pool} (t : Party) (h : S.pool.Moves 0 t pool) : Step S (.moves t) { S with pool }

/-- Runs whose steps all meet `guard`. -/
abbrev Runs (guard : System → Turn → Prop) (s : InnerServer) : System → Prop :=
  Relation.ReflTransGen (fun S S' => ∃ turn, guard S turn ∧ Step S turn S') (.rest s)

/-- If the first of the topics has a list, so have the others. -/
def Decided : List TopicIdx → KeyMap TopicIdx (List SubIdx) → Prop
  | [], _ => True
  | t :: ts, lists => t ∈ lists → ∀ u ∈ ts, u ∈ lists

/-- The lists that go away are of topics that `set_value` has not just found and that are gone from
`topics`. If the first topic of a subscription has a list, so have the others. -/
structure Clear (S : Scene) : Prop where
  removed : ∀ t ∈ S.notes.removed, S.notes.checked ≠ some t ∧ t ∉ S.state.topics
  interest : Decided S.notes.interest S.state.topicSubMap

/-- The parser takes `topic_sub_map` only when it is clear to. -/
def TakesClear (S : System) : Turn → Prop
  | .moves .parser =>
      ∀ next, S.pool.rest .parser = .lock .topicSubMap next → Clear S.pool.shared
  | _ => True

/-- Every topic has a list, and every listed subscription has a queue. -/
structure Ready (s : InnerServer) : Prop where
  listed : ∀ t, t ∈ s.topics → t ∈ s.topicSubMap
  backed : Backed s

theorem ready_of_runs {s : InnerServer} {u : Kind → Nat} (run : Server.Runs u s)
    (hu : u .topic < 2 ^ 32) : Ready s := ⟨(run.numbered hu).topics_listed, run.backed hu⟩

section Protocol

/-- A topic has a list, or is the one that `add_topic` is about to give one; and the list that
`set_value` is about to look for is there. -/
structure Covered (S : Scene) : Prop where
  topics : ∀ t, t ∈ S.state.topics → t ∈ S.state.topicSubMap ∨ S.notes.adding = some t
  checked : ∀ t, S.notes.checked = some t → t ∈ S.state.topicSubMap

/-- The list of the topic may go away. -/
def Spare (t : TopicIdx) (S : Scene) : Prop :=
  S.notes.checked ≠ some t ∧ (t ∈ S.state.topics → S.notes.adding = some t)

structure Allowed (t : Party) (held : List Mutex) (S S' : Scene) : Prop where
  panics : S'.panics = S.panics
  covered : Covered S → Covered S'
  lists : .topicSubMap ∉ held → S'.state.topicSubMap = S.state.topicSubMap
  topics : .topics ∉ held → S'.state.topics = S.state.topics
  values : ∀ i, i ∈ S.state.subValues → i ∈ S'.state.subValues
  handle : t = .handle → S'.notes.removed = S.notes.removed ∧
    S'.notes.interest = S.notes.interest ∧
    (.topicSubMap ∉ held → ∀ u, Spare u S → Spare u S')
  parser : t = .parser → S'.notes.adding = S.notes.adding ∧ S'.notes.checked = S.notes.checked

/-- The handle has no topic half added. -/
def Settled (t : Party) (S : Scene) : Prop := t = .handle → S.notes.adding = none

/-- Whoever has the guard of the lists finds them backed. -/
def protocol : Protocol Party Mutex Scene where
  allows := Allowed
  inv l S := l = .topicSubMap → Backed S.state
  may t l S := t = .parser → l = .topicSubMap → Clear S
  idle := Settled
  inv_of_allows := by
    intro t held S S' l h hl hinv heq
    subst heq
    intro u i hi
    rw [h.lists hl] at hi
    exact h.values i (hinv rfl u i hi)
  idle_of_allows := by
    intro t t' held S S' hne h hidle ht
    have hparser : t' = .parser := by
      cases t' with
      | parser => rfl
      | handle => exact (hne ht.symm).elim
    rw [(h.parser hparser).1]
    exact hidle ht

variable {t : Party} {held : List Mutex} {S S' : Scene}

abbrev Lasts (t : Party) (held : List Mutex) (I : Scene → Prop) : Prop := protocol.Stable t held I

theorem lasts_const (p : Prop) : Lasts t held fun _ => p := fun _ _ _ h => h

theorem lasts_and {I J : Scene → Prop} (hI : Lasts t held I) (hJ : Lasts t held J) :
    Lasts t held fun S => I S ∧ J S :=
  fun S S' h hS => ⟨hI S S' h hS.1, hJ S S' h hS.2⟩

theorem lasts_covered : Lasts t held Covered := by
  intro S S' h
  obtain ⟨t', held', -, -, hallowed⟩ := h
  exact hallowed.covered

/-- Under the guard of the lists they are what they were. -/
theorem lasts_lists {I : KeyMap TopicIdx (List SubIdx) → Prop} (hl : .topicSubMap ∈ held) :
    Lasts t held fun S => I S.state.topicSubMap := by
  intro S S' h hI
  obtain ⟨t', held', -, hdisjoint, hallowed⟩ := h
  rw [hallowed.lists fun hmem => hdisjoint _ hmem hl]
  exact hI

theorem lasts_topics {I : KeyMap TopicIdx Topic → Prop} (hl : .topics ∈ held) :
    Lasts t held fun S => I S.state.topics := by
  intro S S' h hI
  obtain ⟨t', held', -, hdisjoint, hallowed⟩ := h
  rw [hallowed.topics fun hmem => hdisjoint _ hmem hl]
  exact hI

theorem lasts_values (i : SubIdx) : Lasts t held fun S => i ∈ S.state.subValues := by
  intro S S' h
  obtain ⟨t', held', -, -, hallowed⟩ := h
  exact hallowed.values i

/-- Nobody else writes where the handle stands. -/
theorem lasts_handle {I : Option TopicIdx → Option TopicIdx → Prop} :
    Lasts .handle held fun S => I S.notes.adding S.notes.checked := by
  intro S S' h hI
  obtain ⟨t', held', hne, -, hallowed⟩ := h
  cases t' with
  | handle => exact (hne rfl).elim
  | parser =>
    rw [(hallowed.parser rfl).1, (hallowed.parser rfl).2]
    exact hI

theorem lasts_settled : Lasts t held (Settled t) := protocol.stable_idle t held

theorem lasts_parsing {I : List TopicIdx → List TopicIdx → Prop} :
    Lasts .parser held fun S => I S.notes.removed S.notes.interest := by
  intro S S' h hI
  obtain ⟨t', held', hne, -, hallowed⟩ := h
  cases t' with
  | parser => exact (hne rfl).elim
  | handle =>
    rw [(hallowed.handle rfl).1, (hallowed.handle rfl).2.1]
    exact hI

theorem lasts_spare (u : TopicIdx) (hl : .topicSubMap ∈ held) : Lasts .parser held (Spare u) := by
  intro S S' h
  obtain ⟨t', held', hne, hdisjoint, hallowed⟩ := h
  cases t' with
  | parser => exact (hne rfl).elim
  | handle => exact (hallowed.handle rfl).2.2 (fun hmem => hdisjoint _ hmem hl) u

/-- Where the lists are backed, for a task that may have their guard. -/
def Fine (held : List Mutex) (S : Scene) : Prop := .topicSubMap ∈ held → Backed S.state

theorem lasts_fine : Lasts t held (Fine held) := by
  intro S S' h hfine hl u i hi
  obtain ⟨t', held', -, hdisjoint, hallowed⟩ := h
  rw [hallowed.lists fun hmem => hdisjoint _ hmem hl] at hi
  exact hallowed.values i (hfine hl u i hi)

end Protocol

section Pieces

variable {now : List Mutex → Scene → Prop} {held last : List Mutex} {t : Party} {α β : Type}
  {I : Scene → Prop} {J : α → Scene → Prop}

def Failed (t : Party) : Stop NetworkTablesError String → Scene → Prop
  | .error _, S => Settled t S
  | .panic _, _ => False

/-- The program keeps to the protocol, from `I` to `J`, and leaves the lists backed where it ends
with their guard. -/
abbrev Does (now : List Mutex → Scene → Prop) (t : Party) (held : List Mutex) (I : Scene → Prop)
    (x : StepM α) (last : List Mutex) (J : α → Scene → Prop) : Prop :=
  Triple protocol now t held (fun S => (Covered S ∧ Fine held S) ∧ I S) x last
    fun r S => (Covered S ∧ Fine last S) ∧ Ended (Failed t) J r S

theorem lasts_base (hI : Lasts t held I) : Lasts t held fun S => (Covered S ∧ Fine held S) ∧ I S :=
  lasts_and (lasts_and lasts_covered lasts_fine) hI

theorem lasts_failed (e : Stop NetworkTablesError String) : Lasts t held (Failed t e) := by
  cases e with
  | panic p => exact lasts_const False
  | error e => exact lasts_settled

theorem lasts_ended (hJ : ∀ a, Lasts t held (J a))
    (r : Except (Stop NetworkTablesError String) α) :
    Lasts t held fun S => (Covered S ∧ Fine held S) ∧ Ended (Failed t) J r S := by
  apply lasts_base
  cases r with
  | error e => exact lasts_failed e
  | ok a => exact hJ a

theorem Does.bind {x : StepM α} {f : α → StepM β} {K : β → Scene → Prop}
    (h : Does now t held I x held J) (hf : ∀ a, Does now t held (J a) (f a) held K) :
    Does now t held I (x >>= f) held K := Triple.bind h hf fun _ _ he => he

theorem Does.mono {J' : α → Scene → Prop} {x : StepM α} (h : Does now t held I x last J)
    (hJ : ∀ a S, J a S → J' a S) : Does now t held I x last J' := by
  apply Triple.conseq h fun _ hS => hS
  intro r S hr
  refine ⟨hr.1, ?_⟩
  cases r with
  | error e => exact hr.2
  | ok a => exact hJ a S hr.2

theorem does_forEach {ι : Type} {l : List ι} {f : ι → StepM Unit}
    (hf : ∀ i ∈ l, Does now t held I (f i) held fun _ => I) :
    Does now t held I (forEach l f) held fun _ => I := by
  have hloop := triple_forEach (E := fun e S => (Covered S ∧ Fine held S) ∧ Failed t e S)
    fun i hi => (hf i hi).conseq (fun _ hS => hS) fun r S hr => by cases r <;> exact hr
  exact hloop.conseq (fun _ hS => hS) fun r S hr => by cases r <;> exact hr

theorem does_pure (a : α) (h : ∀ S, I S → J a S) : Does now t held I (pure a) held J :=
  triple_pure a fun S hS => ⟨hS.1, h S hS.2⟩

theorem fine_cons {l : Mutex} {S : Scene} (h : Fine held S) (hinv : protocol.inv l S) :
    Fine (l :: held) S := by
  intro hmem
  rcases List.mem_cons.mp hmem with heq | hmem
  · exact hinv heq.symm
  · exact h hmem

theorem inv_of_fine {l : Mutex} {S : Scene} (hl : l ∈ held) (h : Fine held S) :
    protocol.inv l S := fun heq => h (heq ▸ hl)

theorem fine_mono {held' : List Mutex} {S : Scene} (h : Fine held S)
    (hsub : ∀ l ∈ held', l ∈ held) : Fine held' S := fun hmem => h (hsub _ hmem)

variable (hnow : ∀ held S, Fine held S → now held S)

include hnow

/-- A part under a guard that the task may have now. -/
theorem does_holding_may {l : Mutex} {x : StepM α} (hI : Lasts t held I)
    (h : Does now t (l :: held) (fun S => I S ∧ protocol.may t l S) x (l :: held) J)
    (hJ : ∀ a, Lasts t (l :: held) (J a)) : Does now t held I (holding l x) held J := by
  have hbody := triple_holding (lasts_base hI) (fun S hS => hnow held S hS.1.2)
    (h.conseq (fun S hS => ⟨⟨hS.1.1.1, fine_cons hS.1.1.2 hS.2.1⟩, hS.1.2, hS.2.2⟩)
      fun _ _ hr => hr) (lasts_ended hJ)
    fun r S hr => ⟨hnow _ S hr.1.2, inv_of_fine (List.mem_cons_self ..) hr.1.2⟩
  apply hbody.conseq fun _ hS => hS
  intro r S hr
  exact ⟨⟨hr.1.1, fine_mono hr.1.2 fun l hl => List.mem_cons_of_mem _ hl⟩, hr.2⟩

theorem does_holding {l : Mutex} {x : StepM α} (hI : Lasts t held I)
    (h : Does now t (l :: held) I x (l :: held) J) (hJ : ∀ a, Lasts t (l :: held) (J a)) :
    Does now t held I (holding l x) held J := by
  apply does_holding_may hnow hI _ hJ
  exact h.conseq (fun _ hS => ⟨hS.1, hS.2.1⟩) fun _ _ hr => hr

section Sequence

variable {f : Unit → StepM β} {K : β → Scene → Prop} {l : Mutex}

theorem Does.lock_bind (hI : Lasts t held I) (h : Does now t (l :: held) I (f ()) last K) :
    Does now t held I (lock l >>= f) last K := by
  apply Triple.lock_bind (lasts_base hI) fun S hS => hnow held S hS.1.2
  apply h.conseq _ fun _ _ hr => hr
  exact fun S hS => ⟨⟨hS.1.1.1, fine_cons hS.1.1.2 hS.2.1⟩, hS.1.2⟩

theorem Does.unlock_bind (hI : Lasts t held I) (hmem : l ∈ held)
    (h : Does now t (held.erase l) I (f ()) last K) : Does now t held I (unlock l >>= f) last K := by
  apply Triple.unlock_bind (lasts_base hI)
    (fun S hS => ⟨hnow held S hS.1.2, inv_of_fine hmem hS.1.2⟩) hmem
  apply h.conseq _ fun _ _ hr => hr
  exact fun S hS => ⟨⟨hS.1.1, fine_mono hS.1.2 fun l hl => List.mem_of_mem_erase hl⟩, hS.2⟩

end Sequence

theorem does_atomic {y : ServerM α} (hI : Lasts t held I)
    (hreturns : ∀ S, Covered S → Fine held S → I S → Returns y S.state)
    (hends : ∀ S, Covered S → Fine held S → I S → Ends y S.state fun r s' =>
      Allowed t held S { S with state := s' } ∧ Fine held { S with state := s' } ∧
      match r with
      | .ok a => J a { S with state := s' }
      | .error _ => Settled t S) :
    Does now t held I (atomic y) held J := by
  apply triple_atomic (lasts_base hI) fun S hS => hnow held S hS.1.2
  intro S hS
  obtain ⟨⟨hcovered, hfine⟩, hi⟩ := hS
  obtain ⟨r, s', hx⟩ := hreturns S hcovered hfine hi
  obtain ⟨hallowed, hfine', hr⟩ := hends S hcovered hfine hi r s' hx
  rw [hx]
  refine ⟨hallowed, ⟨hallowed.covered hcovered, hfine'⟩, ?_⟩
  cases r with
  | error e => exact hr
  | ok a => exact hr

/-- A note never fails, so the guards may be others at the end. -/
theorem Does.note_bind {f : Notes → Notes} {g : Unit → StepM β} {J : Scene → Prop}
    {K : β → Scene → Prop} (hI : Lasts t held I)
    (h : ∀ S, I S → Allowed t held S { S with notes := f S.notes } ∧
      J { S with notes := f S.notes })
    (hg : Does now t held J (g ()) last K) : Does now t held I (note f >>= g) last K := by
  apply Triple.bind_mid (Q := Ended (fun _ _ => False) fun _ S => (Covered S ∧ Fine held S) ∧ J S)
    _ (fun _ => hg) fun _ _ he => he.elim
  apply triple_note (lasts_base hI) fun S hS => hnow held S hS.1.2
  intro S hS
  obtain ⟨hallowed, hJ⟩ := h S hS.2
  exact ⟨hallowed, ⟨hallowed.covered hS.1.1, hS.1.2⟩, hJ⟩

theorem does_note {f : Notes → Notes} {J : Scene → Prop} (hI : Lasts t held I)
    (h : ∀ S, Covered S → Fine held S → I S →
      Allowed t held S { S with notes := f S.notes } ∧ J { S with notes := f S.notes }) :
    Does now t held I (note f) held fun _ => J := by
  apply triple_note (lasts_base hI) fun S hS => hnow held S hS.1.2
  intro S hS
  obtain ⟨⟨hcovered, hfine⟩, hi⟩ := hS
  obtain ⟨hallowed, hJ⟩ := h S hcovered hfine hi
  exact ⟨hallowed, ⟨hallowed.covered hcovered, hfine⟩, hJ⟩

omit hnow

/-- The tables of the topics and the lists are what they were, and no queue is gone. -/
structure Same (s s' : InnerServer) : Prop where
  topics : s'.topics = s.topics
  lists : s'.topicSubMap = s.topicSubMap
  values : ∀ i, i ∈ s.subValues → i ∈ s'.subValues

instance : IsPreorder InnerServer Same where
  refl _ := ⟨rfl, rfl, fun _ h => h⟩
  trans _ _ _ h h' := ⟨h'.topics.trans h.topics, h'.lists.trans h.lists,
    fun i hi => h'.values i (h.values i hi)⟩

theorem Same.allowed {S : Scene} {s' : InnerServer} (h : Same S.state s') :
    Allowed t held S { S with state := s' } := by
  refine ⟨rfl, fun hc => ⟨?_, ?_⟩, fun _ => h.lists, fun _ => h.topics, h.values,
    fun _ => ⟨rfl, rfl, fun _ u hu => ⟨hu.1, fun hmem => hu.2 (h.topics ▸ hmem)⟩⟩,
    fun _ => ⟨rfl, rfl⟩⟩
  · intro u hu
    rw [h.topics] at hu
    rw [h.lists]
    exact hc.topics u hu
  · intro u hu
    rw [h.lists]
    exact hc.checked u hu

theorem Same.fine {S : Scene} {s' : InnerServer} (h : Same S.state s') (hfine : Fine held S) :
    Fine held { S with state := s' } := by
  intro hl u i hi
  rw [h.lists] at hi
  exact h.values i (hfine hl u i hi)

include hnow

/-- A piece of code that leaves the topics and the lists alone. -/
theorem does_same {y : ServerM α} (hI : Lasts t held I)
    (hsame : ∀ S s', Same S.state s' → I S → I { S with state := s' })
    (hsettled : ∀ S, I S → Settled t S) (hy : Within Same y) (htotal : Total y) :
    Does now t held I (atomic y) held fun _ => I := by
  apply does_atomic hnow hI fun S _ _ _ => htotal S.state
  intro S _ hfine hi
  have hends : Ends y S.state fun _ s' => Same S.state s' := hy S.state
  exact ends_mono hends fun r s' h => by
    refine ⟨h.allowed, h.fine hfine, ?_⟩
    cases r with
    | error e => exact hsettled S hi
    | ok a => exact hsame S s' h hi

/-- The same, for a task that knows nothing more. -/
theorem does_settled {y : ServerM α} (hy : Within Same y) (htotal : Total y) :
    Does now t held (Settled t) (atomic y) held fun _ => Settled t :=
  does_same hnow lasts_settled (fun _ _ _ h => h) (fun _ h => h) hy htotal

theorem does_look {f : InnerServer → α} :
    Does now t held (Settled t) (Steps.look f) held fun _ => Settled t :=
  does_settled hnow (within_bind within_get fun _ => within_pure _)
    (total_bind total_get fun _ => total_pure _)

theorem does_find {f : InnerServer → Option α} {e : NetworkTablesError} :
    Does now t held (Settled t) (Steps.find f e) held fun _ => Settled t :=
  does_settled hnow (within_bind within_get fun _ => within_okOr _ _)
    (total_bind total_get fun _ => total_okOr _ _)

theorem does_write {f : InnerServer → InnerServer} {J : Scene → Prop} (hI : Lasts t held I)
    (h : ∀ S, Covered S → Fine held S → I S →
      Allowed t held S { S with state := f S.state } ∧ Fine held { S with state := f S.state } ∧
      J { S with state := f S.state }) :
    Does now t held I (Steps.write f) held fun _ => J := by
  apply does_atomic hnow hI fun S _ _ _ => returns_modify f
  exact fun S hcovered hfine hi => (ends_modify f).mpr (h S hcovered hfine hi)

/-- A write that leaves the topics and the lists alone. -/
theorem does_write_same {f : InnerServer → InnerServer} (hI : Lasts t held I)
    (h : ∀ s, Same s (f s)) (hsame : ∀ S, I S → I { S with state := f S.state }) :
    Does now t held I (Steps.write f) held fun _ => I :=
  does_write hnow hI fun S _ hfine hi =>
    ⟨(h S.state).allowed, (h S.state).fine hfine, hsame S hi⟩

/-- A part under a guard, with nothing more known before it and after it. -/
theorem does_under {l : Mutex} {x : StepM α}
    (h : Does now t (l :: held) (Settled t) x (l :: held) fun _ => Settled t) :
    Does now t held (Settled t) (holding l x) held fun _ => Settled t :=
  does_holding hnow lasts_settled h fun _ => lasts_settled

end Pieces

section Parts

/-! The parts that leave the topics and the lists alone. -/

variable {now : List Mutex → Scene → Prop} {held : List Mutex} {t : Party} {o : IterOrder}
  {c : ClientIdx} {topicIdx : TopicIdx}

theorem same_clients (s : InnerServer) (clients : KeyMap ClientIdx ConnectedClient) :
    Same s { s with clients := clients } := ⟨rfl, rfl, fun _ h => h⟩

theorem within_updateMetaValue (key : TopicIdx) (empty : MetaTopicValue)
    (f : MetaTopicValue → MetaTopicValue) : Within Same (updateMetaValue key empty f) :=
  within_modify fun _ => ⟨rfl, rfl, fun _ h => h⟩

variable (hnow : ∀ held S, Fine held S → now held S)

include hnow

theorem does_announceTopic (responseOpt : Option (PubUID × ClientIdx)) :
    Does now t held (Settled t) (Steps.announceTopic o topicIdx responseOpt) held
      fun _ => Settled t := by
  apply Does.bind (J := fun _ => Settled t)
  · apply does_under hnow
    apply (does_find hnow).bind
    intro topic
    cases responseOpt with
    | none => exact does_pure topic fun _ h => h
    | some r =>
      apply Does.bind (J := fun _ => Settled t)
      · apply does_under hnow
        exact does_settled hnow (Steps.within_announceResponse same_clients _ _)
          total_announceResponse
      · exact fun _ => does_pure topic fun _ h => h
  · intro topic
    apply (does_under hnow (does_look hnow)).bind
    intro notify
    apply does_under hnow
    apply does_settled hnow
    · exact within_forEach fun c _ => Steps.within_announceSubscriber same_clients _
    · exact total_forEach (fun _ => total_announceSubscriber) _

theorem does_updatePublishers (f : MetaTopicValue → MetaTopicValue → MetaTopicValue)
    (pubMte : ClientPublisherMTE) :
    Does now t held (Settled t) (Steps.updatePublishers c f pubMte) held fun _ => Settled t := by
  unfold Steps.updatePublishers
  split_ifs
  · apply does_under hnow
    exact does_settled hnow (within_updateMetaValue _ _ _) (total_modify _)
  · apply does_under hnow
    apply (does_find hnow).bind
    intro own
    apply does_under hnow
    exact does_settled hnow (within_updateMetaValue _ _ _) (total_modify _)

end Parts

end NetTables.Server.HandlePublish
