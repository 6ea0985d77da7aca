import NetTables.BiMap
import NetTables.Spec.Messages
import NetTables.Spec.MetaTopic
import NetTables.Spec.Value

namespace NetTables.Server

open Lib Spec

abbrev TopicIdx := UInt32
abbrev SubIdx := UInt32
abbrev ClientIdx := UInt32
abbrev PubUID := UInt32
abbrev SubUID := UInt32

/-- A clock reading, in seconds. -/
abbrev Instant := ℚ

structure ClientIdentity where
  addr : SocketAddr
  name : String
  deriving DecidableEq

namespace ClientIdentity

def server : ClientIdentity := ⟨.v4 0 0 0 0 0, ""⟩

def display (ident : ClientIdentity) : String := ident.name ++ "@" ++ ident.addr.display

def updateName (ident : ClientIdentity) (name : String) : ClientIdentity := { ident with name }

def asClose (ident : ClientIdentity) : NTMessage := .close ⟨ident.addr, ident.name⟩

def toMte (ident : ClientIdentity) : ClientMTE := ⟨ident.name, ident.addr.display⟩

end ClientIdentity

/-- Counters for fresh indices; `+= 1` on a `u32` wraps. With overflow checks the operation
panics there instead, and so is never a completed one. -/
structure Counter where
  topicIdx : TopicIdx := 0
  subIdx : SubIdx := 0
  clientIdx : ClientIdx := 0
  deriving DecidableEq

namespace Counter

def nextTopicIdx (c : Counter) : TopicIdx × Counter :=
  (c.topicIdx, { c with topicIdx := c.topicIdx + 1 })

def nextSubIdx (c : Counter) : SubIdx × Counter :=
  (c.subIdx, { c with subIdx := c.subIdx + 1 })

def nextClientIdx (c : Counter) : ClientIdx × Counter :=
  (c.clientIdx, { c with clientIdx := c.clientIdx + 1 })

end Counter

/-- A value on its way to a subscriber; nothing in the server builds the metatopic variant. -/
inductive ServerSendableValue where
  | normalValue (value : FrcTimestampedValue)

/-- The values a subscription has not been sent yet: all of them, or the latest of each topic. -/
inductive StoredSubValue where
  | all (map : KeyMap TopicIdx (List ServerSendableValue))
  | one (map : KeyMap TopicIdx ServerSendableValue)

namespace StoredSubValue

def newAll : StoredSubValue := .all ∅
def newOne : StoredSubValue := .one ∅

def addValue (stored : StoredSubValue) (topicIdx : TopicIdx) (value : ServerSendableValue) :
    StoredSubValue :=
  match stored with
  | all map =>
    match map.lookup topicIdx with
    | some vec => all (map.insert topicIdx (vec ++ [value]))
    | none => all (map.insert topicIdx [value])
  | one map => one (map.insert topicIdx value)

/-- What is queued for one topic, oldest first. -/
def queued (stored : StoredSubValue) (topicIdx : TopicIdx) : List ServerSendableValue :=
  match stored with
  | all map => (map.lookup topicIdx).getD []
  | one map => (map.lookup topicIdx).toList

/-- The batches of `take_values`, and what stays behind. -/
def takeValues (stored : StoredSubValue) :
    List (TopicIdx × List ServerSendableValue) × StoredSubValue :=
  match stored with
  | all map => (map.pairs, newAll)
  | one map => (map.pairs.map fun e => (e.1, [e.2]), newOne)

@[simp] theorem queued_newAll (t : TopicIdx) : newAll.queued t = [] := rfl

@[simp] theorem queued_newOne (t : TopicIdx) : newOne.queued t = [] := rfl

/-- Only the queue of the value's own topic changes, and only by that value. -/
theorem mem_queued_addValue {stored : StoredSubValue} {t u : TopicIdx}
    {v w : ServerSendableValue} (h : w ∈ (stored.addValue t v).queued u) :
    (u = t ∧ w = v) ∨ w ∈ stored.queued u := by
  cases stored with
  | all map =>
    simp only [addValue] at h
    cases hl : map.lookup t with
    | none =>
      rw [hl] at h
      by_cases hu : u = t
      · subst hu; simp [queued] at h; exact .inl ⟨rfl, h⟩
      · simp only [queued, KeyMap.lookup_insert, hu, if_false] at h; exact .inr h
    | some vec =>
      rw [hl] at h
      by_cases hu : u = t
      · subst hu
        simp only [queued, KeyMap.lookup_insert, if_true, Option.getD_some, List.mem_append,
          List.mem_singleton] at h
        rcases h with h | h
        · exact .inr (by simpa [queued, hl] using h)
        · exact .inl ⟨rfl, h⟩
      · simp only [queued, KeyMap.lookup_insert, hu, if_false] at h; exact .inr h
  | one map =>
    by_cases hu : u = t
    · subst hu; simp [addValue, queued] at h; exact .inl ⟨rfl, h⟩
    · simp only [addValue, queued, KeyMap.lookup_insert, hu, if_false] at h; exact .inr h

theorem mem_queued_addValue_self (stored : StoredSubValue) (t : TopicIdx)
    (v : ServerSendableValue) : v ∈ (stored.addValue t v).queued t := by
  cases stored with
  | all map => cases h : map.lookup t <;> simp [addValue, queued, h]
  | one map => simp [addValue, queued]

/-- A batch is what was queued for its topic, and nothing stays queued. -/
theorem mem_takeValues {stored : StoredSubValue} {e : TopicIdx × List ServerSendableValue}
    (h : e ∈ stored.takeValues.1) : e.2 = stored.queued e.1 := by
  cases stored with
  | all map =>
    have hl := (KeyMap.mem_pairs map e.1 e.2).mp h
    simp [queued, hl]
  | one map =>
    obtain ⟨e', he, rfl⟩ := List.mem_map.mp h
    have hl := (KeyMap.mem_pairs map e'.1 e'.2).mp he
    simp [queued, hl]

@[simp] theorem queued_takeValues (stored : StoredSubValue) (t : TopicIdx) :
    stored.takeValues.2.queued t = [] := by
  cases stored <;> rfl

end StoredSubValue

end NetTables.Server
