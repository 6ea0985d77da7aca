import Mathlib.Data.Finset.Basic
import Mathlib.Data.Rat.Defs

namespace NetTables.Spec

structure PublishProperties where
  persistent : Option Bool := none
  retained : Option Bool := none
  deriving DecidableEq

structure PublishTopic where
  name : String
  pubuid : UInt32
  type : String
  properties : Option PublishProperties
  deriving DecidableEq

structure Topic where
  name : String
  type : String
  properties : Option PublishProperties
  deriving DecidableEq

namespace Topic

def newMeta (name : String) : Topic := ⟨name, "raw", none⟩

def fromPublishTopic (pubTopic : PublishTopic) : Topic :=
  ⟨pubTopic.name, pubTopic.type, pubTopic.properties⟩

/-- Either persistent or retained is true in the properties. -/
def hasImplicitPublisher (topic : Topic) : Bool :=
  match topic.properties with
  | some props => props.retained == some true || props.persistent == some true
  | none => false

end Topic

/-- `name.contains("$")`: metatopics, and whatever a client names like one. -/
def hasDollar (name : String) : Bool := decide ('$' ∈ name.toList)

/-- `format!("$pub${}", name)` -/
def metaPubName (name : String) : String := "$pub$" ++ name

/-- `format!("$sub${}", name)` -/
def metaSubName (name : String) : String := "$sub$" ++ name

/-- `format!("$clientpub${}", name)` -/
def clientPubName (name : String) : String := "$clientpub$" ++ name

/-- `format!("$clientsub${}", name)` -/
def clientSubName (name : String) : String := "$clientsub$" ++ name

theorem append_injective (p : String) {a b : String} (h : p ++ a = p ++ b) : a = b := by
  have hl := congrArg String.toList h
  rw [String.toList_append, String.toList_append] at hl
  exact String.toList_inj.mp (List.append_cancel_left hl)

theorem metaPubName_injective {a b : String} (h : metaPubName a = metaPubName b) : a = b :=
  append_injective _ h

theorem metaSubName_injective {a b : String} (h : metaSubName a = metaSubName b) : a = b :=
  append_injective _ h

/-- Two names differ as soon as the letters they begin with do. -/
theorem append_ne_of_take {p q : String} {n : Nat} (hp : n ≤ p.toList.length)
    (hq : n ≤ q.toList.length) (h : p.toList.take n ≠ q.toList.take n) (a b : String) :
    p ++ a ≠ q ++ b := by
  intro he
  apply h
  have hl := congrArg (fun s => s.toList.take n) he
  simpa [String.toList_append, List.take_append_of_le_length hp,
    List.take_append_of_le_length hq] using hl

theorem ne_append_of_take {p q : String} {n : Nat} (hp : n ≤ p.toList.length)
    (hq : n ≤ q.toList.length) (h : p.toList.take n ≠ q.toList.take n) (b : String) :
    p ≠ q ++ b := by
  have hne := append_ne_of_take hp hq h "" b
  rwa [String.append_empty] at hne

theorem metaPubName_ne_metaSubName (a b : String) : metaPubName a ≠ metaSubName b :=
  append_ne_of_take (by decide : 2 ≤ _) (by decide) (by decide) a b

theorem hasDollar_append {p : String} (h : '$' ∈ p.toList) (a : String) :
    hasDollar (p ++ a) = true := by
  simp [hasDollar, String.toList_append, h]

theorem hasDollar_metaPubName (a : String) : hasDollar (metaPubName a) = true :=
  hasDollar_append (by decide) a

theorem hasDollar_metaSubName (a : String) : hasDollar (metaSubName a) = true :=
  hasDollar_append (by decide) a

theorem hasDollar_clientPubName (a : String) : hasDollar (clientPubName a) = true :=
  hasDollar_append (by decide) a

theorem hasDollar_clientSubName (a : String) : hasDollar (clientSubName a) = true :=
  hasDollar_append (by decide) a

end NetTables.Spec
