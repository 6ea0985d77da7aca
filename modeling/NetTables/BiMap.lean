import NetTables.Lib.KeyMap
import NetTables.Lib.LastWrite

namespace NetTables

open Lib

/-- Two hash maps, one for each direction; a removal by one side does not touch the other. -/
structure PrimBiMap (L R : Type) where
  map : KeyMap L R
  revMap : KeyMap R L

namespace PrimBiMap

variable {L R : Type}

def new : PrimBiMap L R := ⟨∅, ∅⟩

variable [DecidableEq L]

def insert [DecidableEq R] (m : PrimBiMap L R) (left : L) (right : R) : PrimBiMap L R :=
  ⟨m.map.insert left right, m.revMap.insert right left⟩

def getByLeft (m : PrimBiMap L R) (left : L) : Option R := m.map.lookup left

def removeByLeft (m : PrimBiMap L R) (left : L) : PrimBiMap L R :=
  { m with map := m.map.erase left }

def iterLr (m : PrimBiMap L R) : KeyMap L R := m.map

section Right

variable [DecidableEq R]

def getByRight (m : PrimBiMap L R) (right : R) : Option L := m.revMap.lookup right

def removeByRight (m : PrimBiMap L R) (right : R) : PrimBiMap L R :=
  { m with revMap := m.revMap.erase right }

end Right

def iterRl (m : PrimBiMap L R) : KeyMap R L := m.revMap

@[simp] theorem getByLeft_new (l : L) : (new : PrimBiMap L R).getByLeft l = none := rfl

@[simp] theorem getByLeft_insert [DecidableEq R] (m : PrimBiMap L R) (l j : L) (r : R) :
    (m.insert l r).getByLeft j = if j = l then some r else m.getByLeft j :=
  KeyMap.lookup_insert m.map l j r

@[simp] theorem getByLeft_removeByLeft (m : PrimBiMap L R) (l j : L) :
    (m.removeByLeft l).getByLeft j = if j = l then none else m.getByLeft j :=
  KeyMap.lookup_erase m.map l j

section Right

variable [DecidableEq R]

omit [DecidableEq L] in
@[simp] theorem getByRight_new (r : R) : (new : PrimBiMap L R).getByRight r = none := rfl

@[simp] theorem getByRight_insert (m : PrimBiMap L R) (l : L) (r j : R) :
    (m.insert l r).getByRight j = if j = r then some l else m.getByRight j :=
  KeyMap.lookup_insert m.revMap r j l

omit [DecidableEq L] in
@[simp] theorem getByRight_removeByRight (m : PrimBiMap L R) (r j : R) :
    (m.removeByRight r).getByRight j = if j = r then none else m.getByRight j :=
  KeyMap.lookup_erase m.revMap r j

/-- What changes a map. -/
inductive Change (L R : Type) where
  | insert (left : L) (right : R)
  | removeByLeft (left : L)
  | removeByRight (right : R)
  deriving DecidableEq

namespace Change

/-- The left key that is set or removed. -/
def left : Change L R → Option L
  | insert l _ => some l
  | removeByLeft l => some l
  | removeByRight _ => none

/-- The right key that is set or removed. -/
def right : Change L R → Option R
  | insert _ r => some r
  | removeByLeft _ => none
  | removeByRight r => some r

def perform (m : PrimBiMap L R) : Change L R → PrimBiMap L R
  | insert l r => m.insert l r
  | removeByLeft l => m.removeByLeft l
  | removeByRight r => m.removeByRight r

end Change

/-- The map after these changes, from an empty one on. -/
def after (changes : List (Change L R)) : PrimBiMap L R := changes.foldl Change.perform new

/-- The two directions say the same. -/
def Inverse (m : PrimBiMap L R) : Prop := ∀ l r, m.getByLeft l = some r ↔ m.getByRight r = some l

section Changes

variable {m : PrimBiMap L R} {changes : List (Change L R)} {l l' : L} {r r' : R}

/-- A left key leads to what was inserted last under it and not removed by it since. -/
theorem getByLeft_after : (after changes).getByLeft l = some r ↔ ∃ before rest,
    changes = before ++ .insert l r :: rest ∧ ∀ c ∈ rest, c.left ≠ some l := by
  refine foldl_eq_some_iff (getByLeft · l) (Change.left · = some l) rfl ?_ ?_ rfl
  · intro m c hc
    cases c with
    | insert l' r' =>
      cases hc
      simp [Change.perform]
    | removeByLeft l' =>
      cases hc
      simp [Change.perform]
    | removeByRight r' => cases hc
  · intro m c hc
    cases c with
    | insert l' r' | removeByLeft l' =>
      have hne : l ≠ l' := fun heq => hc (congrArg some heq.symm)
      simp [Change.perform, hne]
    | removeByRight r' => rfl

/-- So does a right key. -/
theorem getByRight_after : (after changes).getByRight r = some l ↔ ∃ before rest,
    changes = before ++ .insert l r :: rest ∧ ∀ c ∈ rest, c.right ≠ some r := by
  refine foldl_eq_some_iff (getByRight · r) (Change.right · = some r) rfl ?_ ?_ rfl
  · intro m c hc
    cases c with
    | insert l' r' =>
      cases hc
      simp [Change.perform]
    | removeByLeft l' => cases hc
    | removeByRight r' =>
      cases hc
      simp [Change.perform]
  · intro m c hc
    cases c with
    | insert l' r' | removeByRight r' =>
      have hne : r ≠ r' := fun heq => hc (congrArg some heq.symm)
      simp [Change.perform, hne]
    | removeByLeft l' => rfl

/-- The directions say the same exactly where each pair that was inserted has since been displaced
or removed in both of them or in neither. -/
theorem inverse_after_iff : (after changes).Inverse ↔ ∀ before l r rest,
    changes = before ++ .insert l r :: rest →
      ((∀ c ∈ rest, c.left ≠ some l) ↔ ∀ c ∈ rest, c.right ≠ some r) := by
  constructor
  · intro h before l r rest hsplit
    constructor
    · intro hleft
      obtain ⟨before', rest', hsplit', hright⟩ :=
        getByRight_after.mp ((h l r).mp (getByLeft_after.mpr ⟨before, rest, hsplit, hleft⟩))
      have hsame : rest = rest' := after_eq_of_last (hsplit.symm.trans hsplit')
        (fun hmem => hleft _ hmem rfl) fun hmem => hright _ hmem rfl
      rwa [hsame]
    · intro hright
      obtain ⟨before', rest', hsplit', hleft⟩ :=
        getByLeft_after.mp ((h l r).mpr (getByRight_after.mpr ⟨before, rest, hsplit, hright⟩))
      have hsame : rest = rest' := after_eq_of_last (hsplit.symm.trans hsplit')
        (fun hmem => hright _ hmem rfl) fun hmem => hleft _ hmem rfl
      rwa [hsame]
  · intro h l r
    rw [getByLeft_after, getByRight_after]
    constructor
    · intro hleft
      obtain ⟨before, rest, hsplit, hleft⟩ := hleft
      exact ⟨before, rest, hsplit, (h before l r rest hsplit).mp hleft⟩
    · intro hright
      obtain ⟨before, rest, hsplit, hright⟩ := hright
      exact ⟨before, rest, hsplit, (h before l r rest hsplit).mpr hright⟩

/-- Each direction is a map of its own, which follows what is inserted and what is removed by its
side. They say and list the same exactly where each pair that was inserted has since been displaced
or removed in both of them or in neither. -/
theorem directions_follow_changes (changes : List (Change L R)) :
    (∀ l r, ((after changes).getByLeft l = some r ↔ ∃ before rest,
      changes = before ++ .insert l r :: rest ∧ ∀ c ∈ rest, c.left ≠ some l) ∧
      ((after changes).getByRight r = some l ↔ ∃ before rest,
        changes = before ++ .insert l r :: rest ∧ ∀ c ∈ rest, c.right ≠ some r)) ∧
    (∀ l r, ((l, r) ∈ (after changes).iterLr.pairs ↔ (after changes).getByLeft l = some r) ∧
      ((r, l) ∈ (after changes).iterRl.pairs ↔ (after changes).getByRight r = some l)) ∧
    ((∀ l r, (after changes).getByLeft l = some r ↔ (after changes).getByRight r = some l) ↔
      ∀ before l r rest, changes = before ++ .insert l r :: rest →
        ((∀ c ∈ rest, c.left ≠ some l) ↔ ∀ c ∈ rest, c.right ≠ some r)) :=
  ⟨fun _ _ => ⟨getByLeft_after, getByRight_after⟩,
    fun l r => ⟨KeyMap.mem_pairs _ l r, KeyMap.mem_pairs _ r l⟩, inverse_after_iff⟩

end Changes

end Right

/-- A pair that is removed by its left key stays under its right key, and one that is displaced
there stays under its left key. -/
theorem directions_differ :
    ¬(after [.insert 1 2, .removeByLeft 1] : PrimBiMap UInt32 UInt32).Inverse ∧
      ¬(after [.insert 1 2, .insert 3 2] : PrimBiMap UInt32 UInt32).Inverse := by
  constructor
  · intro h
    cases (h 1 2).mpr rfl
  · intro h
    cases (h 1 2).mp rfl

end PrimBiMap

end NetTables
