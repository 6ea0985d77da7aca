import NetTables.Lib.BigEndian
import NetTables.Spec.Value

namespace NetTables.Spec

open Lib

/-- What the client writes its value messages with. -/
structure ClientRmp extends RmpEncode where
  writeU32 : UInt32 → List UInt8

/-- The bytes of a value message of a published topic. -/
def ClientRmp.valueBytes (rmp : ClientRmp) (pubuid : UInt32) (timestamp : UInt64) (type : UInt8)
    (value : Value) : List UInt8 :=
  rmp.writeArrayLen 4 ++ rmp.writeU32 pubuid ++ rmp.writeUint timestamp ++ rmp.writeU8 type ++
    rmp.writeValue value

/-- What is written with this value is read back, and nothing after it is touched. -/
def ClientRmp.ReadBy (rmp : ClientRmp) (dec : RmpDecode) (value : Value) : Prop :=
  ∀ pubuid timestamp type rest,
    dec.fromRead (rmp.valueBytes pubuid timestamp type value ++ rest) =
      some (.array [.integer pubuid.toNat, .integer timestamp.toNat, .integer type.toNat, value],
        rest)

namespace MsgPack

/-- `write_uint`: the shortest form. -/
def writeUint (n : Nat) : List UInt8 :=
  if n < 128 then [UInt8.ofNat n]
  else if n < 256 then 0xcc :: toBytes 1 n
  else if n < 65536 then 0xcd :: toBytes 2 n
  else if n < 4294967296 then 0xce :: toBytes 4 n
  else 0xcf :: toBytes 8 n

/-- Arrays of fewer than 16 items, numbers that are not negative, truth values and nil. -/
def small : ClientRmp where
  writeArrayLen n := [0x90 + n.toUInt8]
  writeI32 i := 0xd2 :: toBytes 4 i.toUInt32.toNat
  writeUint n := writeUint n.toNat
  writeU8 n := [0xcc, n]
  writeU32 n := 0xce :: toBytes 4 n.toNat
  writeValue
    | .boolean b => [if b then 0xc3 else 0xc2]
    | .integer i => writeUint i.toNat
    | _ => [0xc0]

/-- Reads one item after another. -/
def readItems (read : List UInt8 → Option (Value × List UInt8)) :
    Nat → List UInt8 → Option (List Value × List UInt8)
  | 0, bytes => some ([], bytes)
  | n + 1, bytes => do
    let (item, bytes) ← read bytes
    let (items, bytes) ← readItems read n bytes
    some (item :: items, bytes)

/-- Reads one value, of at most this depth. -/
def readValue : Nat → List UInt8 → Option (Value × List UInt8)
  | 0, _ => none
  | _, [] => none
  | depth + 1, b :: bytes =>
    let number (k : Nat) := (readBytes k bytes).map fun e => (Value.integer e.1, e.2)
    if b < 128 then some (.integer b.toNat, bytes)
    else if b < 0x90 then none
    else if b < 0xa0 then
      (readItems (readValue depth) (b.toNat - 0x90) bytes).map fun e => (.array e.1, e.2)
    else if b = 0xc0 then some (.nil, bytes)
    else if b = 0xc2 then some (.boolean false, bytes)
    else if b = 0xc3 then some (.boolean true, bytes)
    else if b = 0xcc then number 1
    else if b = 0xcd then number 2
    else if b = 0xce then number 4
    else if b = 0xcf then number 8
    else none

theorem length_readItems {read : List UInt8 → Option (Value × List UInt8)}
    (hread : ∀ bytes v rest, read bytes = some (v, rest) → rest.length < bytes.length) {n : Nat}
    {bytes rest : List UInt8} {items : List Value}
    (h : readItems read n bytes = some (items, rest)) :
    rest.length ≤ bytes.length := by
  induction n generalizing bytes items with
  | zero =>
    cases h
    exact le_rfl
  | succ n ih =>
    obtain ⟨⟨item, left⟩, hitem, h⟩ := Option.bind_eq_some_iff.mp h
    obtain ⟨⟨more, last⟩, hmore, h⟩ := Option.bind_eq_some_iff.mp h
    cases h
    have hfirst := hread _ _ _ hitem
    have hrest := ih hmore
    omega

theorem of_ite {α : Type} {p P : Prop} [Decidable p] {a b c : α} (ha : a = c → P) (hb : b = c → P)
    (h : (if p then a else b) = c) : P := by
  split at h
  · exact ha h
  · exact hb h

theorem length_readValue {depth : Nat} {bytes rest : List UInt8} {v : Value}
    (h : readValue depth bytes = some (v, rest)) : rest.length < bytes.length := by
  induction depth generalizing bytes rest v with
  | zero => cases h
  | succ depth ih =>
    cases bytes with
    | nil => cases h
    | cons b bytes =>
      rw [List.length_cons, Nat.lt_succ_iff]
      have hnumber : ∀ k, ((readBytes k bytes).map fun e => (Value.integer e.1, e.2)) =
          some (v, rest) → rest.length ≤ bytes.length := by
        intro k hk
        obtain ⟨e, he, heq⟩ := Option.map_eq_some_iff.mp hk
        cases heq
        exact length_readBytes he
      have hdone : ∀ v', some (v', bytes) = some (v, rest) → rest.length ≤ bytes.length := by
        intro v' heq
        cases heq
        exact le_rfl
      have hnone : (none : Option (Value × List UInt8)) = some (v, rest) →
          rest.length ≤ bytes.length := nofun
      have harray : ∀ k, ((readItems (readValue depth) k bytes).map fun e =>
          (Value.array e.1, e.2)) = some (v, rest) → rest.length ≤ bytes.length := by
        intro k hk
        obtain ⟨e, he, heq⟩ := Option.map_eq_some_iff.mp hk
        cases heq
        exact length_readItems (fun _ _ _ h => ih h) he
      rw [readValue] at h
      revert h
      -- one case for each marker
      exact of_ite (hdone _) (of_ite hnone (of_ite (harray _) (of_ite (hdone _) (of_ite (hdone _)
        (of_ite (hdone _) (of_ite (hnumber 1) (of_ite (hnumber 2) (of_ite (hnumber 4)
        (of_ite (hnumber 8) hnone)))))))))

/-- Reads what `small` writes. -/
def read : RmpDecode where
  fromRead := readValue 2
  length_lt _ _ _ h := length_readValue h

variable {depth n : Nat}

/-- The marker of a number of `k` bytes. -/
def marker (k : Nat) : UInt8 :=
  if k = 1 then 0xcc else if k = 2 then 0xcd else if k = 4 then 0xce else 0xcf

/-- A number of at most `k` bytes is read back behind its marker. -/
theorem readValue_marker {k : Nat} {rest : List UInt8} (hk : k = 1 ∨ k = 2 ∨ k = 4 ∨ k = 8)
    (h : n < 256 ^ k) :
    readValue (depth + 1) (marker k :: toBytes k n ++ rest) = some (.integer n, rest) := by
  have hmarker : readValue (depth + 1) (marker k :: (toBytes k n ++ rest)) =
      (readBytes k (toBytes k n ++ rest)).map fun e => (Value.integer e.1, e.2) := by
    rcases hk with rfl | rfl | rfl | rfl <;> rfl
  rw [List.cons_append, hmarker, readBytes_toBytes h]
  rfl

theorem readValue_writeUint (h : n < 2 ^ 64) (rest : List UInt8) :
    readValue (depth + 1) (writeUint n ++ rest) = some (.integer n, rest) := by
  unfold writeUint
  split_ifs with h7 h8 h16 h32
  · have hb : (UInt8.ofNat n).toNat = n := UInt8.toNat_ofNat_of_lt (h7.trans (by decide))
    have hlt : UInt8.ofNat n < 128 := by
      rw [UInt8.lt_iff_toNat_lt, hb]
      exact h7
    rw [List.singleton_append, readValue, if_pos hlt, hb]
  · exact readValue_marker (k := 1) (by decide) h8
  · exact readValue_marker (k := 2) (by decide) h16
  · exact readValue_marker (k := 4) (by decide) h32
  · exact readValue_marker (k := 8) (by decide) h

/-- A message with a truth value is read back. -/
theorem readValue_valueBytes (depth : Nat) (pubuid : UInt32) (timestamp : UInt64) (type : UInt8)
    (b : Bool) (rest : List UInt8) :
    readValue (depth + 2) (small.valueBytes pubuid timestamp type (.boolean b) ++ rest) =
      some (.array [.integer pubuid.toNat, .integer timestamp.toNat, .integer type.toNat,
        .boolean b], rest) := by
  have hpubuid : ∀ rest, readValue (depth + 1) (small.writeU32 pubuid ++ rest) =
      some (.integer pubuid.toNat, rest) :=
    fun _ => readValue_marker (k := 4) (by decide) pubuid.toNat_lt
  have htime : ∀ rest, readValue (depth + 1) (small.writeUint timestamp ++ rest) =
      some (.integer timestamp.toNat, rest) := readValue_writeUint timestamp.toNat_lt
  have htype : ∀ rest, readValue (depth + 1) (small.writeU8 type ++ rest) =
      some (.integer type.toNat, rest) := by
    intro rest
    have hbyte : small.writeU8 type = marker 1 :: toBytes 1 type.toNat := by
      simp [small, marker, toBytes]
    rw [hbyte]
    exact readValue_marker (by decide) type.toNat_lt
  have hvalue : ∀ rest, readValue (depth + 1) (small.writeValue (.boolean b) ++ rest) =
      some (.boolean b, rest) := by
    intro rest
    cases b <;> rfl
  have hfour : ∀ bytes, readValue (depth + 2) (small.writeArrayLen 4 ++ bytes) =
      (readItems (readValue (depth + 1)) 4 bytes).map fun e => (.array e.1, e.2) := fun _ => rfl
  simp only [ClientRmp.valueBytes, List.append_assoc]
  rw [hfour]
  simp [readItems, hpubuid, htime, htype, hvalue]

theorem readBy_small (b : Bool) : small.ReadBy read (.boolean b) := by
  intro pubuid timestamp type rest
  have h := readValue_valueBytes 0 pubuid timestamp type b rest
  rw [Nat.zero_add] at h
  simp only [read, h]

end MsgPack

end NetTables.Spec
