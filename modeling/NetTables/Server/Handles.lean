import NetTables.Server.History

namespace NetTables.Server

open Lib Lib.Fallible Spec

variable {s : InnerServer} {name : String}

section Handle

variable (o : IterOrder)

/-- `uid` and `now` are what `generate_uid` and the clock return in the call; the type of the topic
is the text of the value's type. -/
def publishTopicWProps (topicName : String) (value : FrcValue) (props : Option PublishProperties)
    (uid : UInt64) (now : UInt64) : ServerM Unit := do
  let topicIdx ← innerPublishTopic o
    ⟨topicName, uid.toUInt32, value.getType.stringify, props⟩ serverClientIdx
  setValue ⟨now, value⟩ topicIdx

def getTopicNames : ServerM (List String) := do
  pure ((o.walk (← get).topicMap).map Prod.fst)

end Handle

def setTopicValueWTimestamp (topicName : String) (value : FrcValue) (timestamp : UInt64) :
    ServerM Unit := do
  let topicIdx ← getTopicIdx topicName
  setValue ⟨timestamp, value⟩ topicIdx

def setTopicProps (topicName : String) (props : PublishProperties) : ServerM Unit :=
  setProperties ⟨topicName, props⟩

def getTopicValue (topicName : String) : ServerM FrcValue := do
  let value ← getValue (← getTopicIdx topicName)
  pure value.value

def topicNotFound (topicName : String) : NetworkTablesError :=
  .serverError (.topicDoesNotExist
    s!"topic name {topicName} could not be found [did not exist]")

/-- The lookup fails for every name, found or not. -/
@[simp] theorem exec_getTopicIdx :
    (getTopicIdx name).exec s = .ok (.error (topicNotFound name), s) := by
  simp [getTopicIdx, exec_bind, topicNotFound]

/-- What a read returns after a write of `value` at `timestamp` to topic `t`. -/
def readBack (s : InnerServer) (t : TopicIdx) (value : FrcValue) (timestamp : UInt64) : FrcValue :=
  match s.topicValueMap.lookup t with
  | none => value
  | some old => if old.timestamp < timestamp then value else old.value

/-- A handle's write and read of a topic, and its lookup of the index, follow the server's maps. -/
structure ReadsBack (s : InnerServer) (name : String) (value : FrcValue) (timestamp : UInt64) :
    Prop where
  present : ∀ t, s.topicMap.lookup name = some t → hasDollar name = false →
    ∃ s' s'', (setTopicValueWTimestamp name value timestamp).exec s = .ok (.ok (), s') ∧
      (getTopicValue name).exec s' = .ok (.ok (readBack s t value timestamp), s'')
  absent : s.topicMap.lookup name = none →
    (∃ e s', (setTopicValueWTimestamp name value timestamp).exec s = .ok (.error e, s')) ∧
    ∃ e s', (getTopicValue name).exec s = .ok (.error e, s')
  idx : ∀ t, (∃ s', (getTopicIdx name).exec s = .ok (.ok t, s')) ↔ s.topicMap.lookup name = some t

/-- The handle reads back what it should exactly for the names that do not exist. -/
theorem readsBack_iff (s : InnerServer) (name : String) (value : FrcValue) (timestamp : UInt64) :
    ReadsBack s name value timestamp ↔ s.topicMap.lookup name = none := by
  constructor
  · intro h
    cases hmap : s.topicMap.lookup name with
    | none => rfl
    | some t =>
      obtain ⟨s', hx⟩ := (h.idx t).mpr hmap
      rw [exec_getTopicIdx] at hx
      cases hx
  · intro hnone
    refine ⟨fun t hmap => ?_, fun _ => ⟨⟨topicNotFound name, s, ?_⟩, topicNotFound name, s, ?_⟩,
      fun t => ⟨fun h => ?_, fun hmap => ?_⟩⟩
    · rw [hnone] at hmap
      cases hmap
    · simp [setTopicValueWTimestamp, exec_bind]
    · simp [getTopicValue, exec_bind]
    · obtain ⟨s', hx⟩ := h
      rw [exec_getTopicIdx] at hx
      cases hx
    · rw [hnone] at hmap
      cases hmap

/-- The server's handle publishes a topic. -/
def publishAsServer : List Op := [.innerPublishTopic ⟨"x", 7, "int", none⟩ serverClientIdx]

/-- The topic is there, and the handle does not find it. -/
theorem handle_misses_published_topic :
    ¬∀ s, Reachable s → ∀ name value timestamp, ReadsBack s name value timestamp := by
  intro h
  have hrun : (stateAfter anyOp .stored publishAsServer).map (fun s => s.topicMap.lookup "x") =
      some (some 3) := by decide +kernel
  obtain ⟨s, hs, hmap⟩ := Option.map_eq_some_iff.mp hrun
  obtain ⟨s', hx⟩ := ((h s (reachable_stateAfter hs) "x" ⟨.int, .integer 1⟩ 1).idx 3).mpr hmap
  rw [exec_getTopicIdx] at hx
  cases hx

end NetTables.Server
