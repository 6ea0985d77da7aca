import NetTables.Spec.MsgPack
import Mathlib.Tactic.Positivity
import Mathlib.Tactic.Zify

namespace NetTables.Spec.MsgPack

open Lib

/-- The encodings that MessagePack has for an integer. -/
inductive IntForm where
  | positiveFixint
  | negativeFixint
  | u8
  | u16
  | u32
  | u64
  | i8
  | i16
  | i32
  | i64
  deriving DecidableEq

namespace IntForm

/-- The number of bytes behind the marker. -/
def width : IntForm → Nat
  | positiveFixint | negativeFixint => 0
  | u8 | i8 => 1
  | u16 | i16 => 2
  | u32 | i32 => 4
  | u64 | i64 => 8

/-- The first byte; a fixint has its value in it. -/
def head (n : Int) : IntForm → UInt8
  | positiveFixint | negativeFixint => UInt8.ofNat (n % 256).toNat
  | u8 => 0xcc
  | u16 => 0xcd
  | u32 => 0xce
  | u64 => 0xcf
  | i8 => 0xd0
  | i16 => 0xd1
  | i32 => 0xd2
  | i64 => 0xd3

/-- The integers that can be encoded so. -/
def Fits (f : IntForm) (n : Int) : Prop :=
  match f with
  | positiveFixint => 0 ≤ n ∧ n < 128
  | negativeFixint => -32 ≤ n ∧ n < 0
  | u8 | u16 | u32 | u64 => 0 ≤ n ∧ n < 256 ^ f.width
  | i8 | i16 | i32 | i64 => -(128 * 256 ^ (f.width - 1)) ≤ n ∧ n < 128 * 256 ^ (f.width - 1)

/-- The encoding, a negative integer in two's complement. -/
def bytes (f : IntForm) (n : Int) : List UInt8 :=
  f.head n :: toBytes f.width (n % 256 ^ f.width).toNat

end IntForm

/-- Reads `k` bytes as a number, below zero where the first bit of a signed one is set. -/
def readNumber (signed : Bool) (k : Nat) (bytes : List UInt8) : Option (Int × List UInt8) :=
  (readBytes k bytes).map fun e =>
    (if signed && decide (128 * 256 ^ (k - 1) ≤ e.1) then (e.1 : Int) - 256 ^ k else e.1, e.2)

/-- Reads an integer in any of its encodings. -/
def readInt : List UInt8 → Option (Int × List UInt8)
  | [] => none
  | b :: bytes =>
    if b < 128 then some (b.toNat, bytes)
    else if 224 ≤ b then some (b.toNat - 256, bytes)
    else if b = 0xcc then readNumber false 1 bytes
    else if b = 0xcd then readNumber false 2 bytes
    else if b = 0xce then readNumber false 4 bytes
    else if b = 0xcf then readNumber false 8 bytes
    else if b = 0xd0 then readNumber true 1 bytes
    else if b = 0xd1 then readNumber true 2 bytes
    else if b = 0xd2 then readNumber true 4 bytes
    else if b = 0xd3 then readNumber true 8 bytes
    else none

theorem length_readNumber {signed : Bool} {k : Nat} {bytes rest : List UInt8} {n : Int}
    (h : readNumber signed k bytes = some (n, rest)) : rest.length ≤ bytes.length := by
  obtain ⟨e, he, heq⟩ := Option.map_eq_some_iff.mp h
  cases heq
  exact length_readBytes he

theorem length_readInt {bytes rest : List UInt8} {n : Int} (h : readInt bytes = some (n, rest)) :
    rest.length < bytes.length := by
  cases bytes with
  | nil => cases h
  | cons b bytes =>
    rw [List.length_cons, Nat.lt_succ_iff]
    have hdone : ∀ m : Int, some (m, bytes) = some (n, rest) → rest.length ≤ bytes.length := by
      intro m heq
      cases heq
      exact le_rfl
    have hnone : (none : Option (Int × List UInt8)) = some (n, rest) →
        rest.length ≤ bytes.length := by
      intro heq
      cases heq
    have hnumber : ∀ signed k, readNumber signed k bytes = some (n, rest) →
        rest.length ≤ bytes.length := fun _ _ => length_readNumber
    rw [readInt] at h
    revert h
    -- one case for each marker
    exact of_ite (hdone _) (of_ite (hdone _) (of_ite (hnumber _ _) (of_ite (hnumber _ _)
      (of_ite (hnumber _ _) (of_ite (hnumber _ _) (of_ite (hnumber _ _) (of_ite (hnumber _ _)
      (of_ite (hnumber _ _) (of_ite (hnumber _ _) hnone)))))))))

variable {f : IntForm} {n : Int} {k : Nat}

theorem readNumber_unsigned (hn : 0 ≤ n) (hlt : n < 256 ^ k) (rest : List UInt8) :
    readNumber false k (toBytes k (n % 256 ^ k).toNat ++ rest) = some (n, rest) := by
  have hmod : n % 256 ^ k = n := Int.emod_eq_of_lt hn hlt
  have hnat : n.toNat < 256 ^ k := by
    zify
    rw [Int.toNat_of_nonneg hn]
    exact hlt
  rw [readNumber, hmod, readBytes_toBytes hnat]
  simp [Int.toNat_of_nonneg hn]

theorem readNumber_signed (hlow : -(128 * 256 ^ k) ≤ n) (hlt : n < 128 * 256 ^ k)
    (rest : List UInt8) :
    readNumber true (k + 1) (toBytes (k + 1) (n % 256 ^ (k + 1)).toNat ++ rest) =
      some (n, rest) := by
  have hpow : (256 : Int) ^ (k + 1) = 256 * 256 ^ k := by ring
  have hpos : (0 : Int) < 256 ^ k := by positivity
  have hnonneg : 0 ≤ n % 256 ^ (k + 1) := Int.emod_nonneg _ (by positivity)
  have hbound : n % 256 ^ (k + 1) < 256 ^ (k + 1) := Int.emod_lt_of_pos _ (by positivity)
  have hnat : (n % 256 ^ (k + 1)).toNat < 256 ^ (k + 1) := by
    zify
    rw [Int.toNat_of_nonneg hnonneg]
    exact hbound
  rw [readNumber, readBytes_toBytes hnat]
  simp only [Option.map_some, Bool.true_and, decide_eq_true_eq, Nat.add_sub_cancel,
    Int.toNat_of_nonneg hnonneg]
  have hcase : 128 * 256 ^ k ≤ (n % 256 ^ (k + 1)).toNat ↔
      (128 : Int) * 256 ^ k ≤ n % 256 ^ (k + 1) := by
    zify
    rw [Int.toNat_of_nonneg hnonneg]
  by_cases hneg : n < 0
  · have hmod : n % 256 ^ (k + 1) = n + 256 ^ (k + 1) := by
      rw [← Int.add_emod_right]
      exact Int.emod_eq_of_lt (by omega) (by omega)
    rw [if_pos (hcase.mpr (by omega)), hmod, Int.add_sub_cancel]
  · have hmod : n % 256 ^ (k + 1) = n := Int.emod_eq_of_lt (by omega) (by omega)
    rw [if_neg (fun hle => by have := hcase.mp hle; omega), hmod]

/-- Every encoding of an integer is read back. -/
theorem readInt_bytes (h : f.Fits n) (rest : List UInt8) :
    readInt (f.bytes n ++ rest) = some (n, rest) := by
  cases f with
  | positiveFixint =>
    obtain ⟨hlow, hlt⟩ := h
    have hmod : n % 256 = n := by omega
    have hb : (UInt8.ofNat n.toNat).toNat = n.toNat := UInt8.toNat_ofNat_of_lt (by rw [UInt8.size]; omega)
    have hlt : UInt8.ofNat n.toNat < 128 := by
      rw [UInt8.lt_iff_toNat_lt, hb]
      have : (128 : UInt8).toNat = 128 := rfl
      omega
    have hbytes : IntForm.positiveFixint.bytes n = [UInt8.ofNat n.toNat] := by
      rw [IntForm.bytes, IntForm.head, hmod]
      rfl
    rw [hbytes, List.singleton_append, readInt, if_pos hlt, hb, Int.toNat_of_nonneg hlow]
  | negativeFixint =>
    obtain ⟨hlow, hlt⟩ := h
    have hmod : n % 256 = n + 256 := by omega
    have hb : (UInt8.ofNat (n + 256).toNat).toNat = (n + 256).toNat :=
      UInt8.toNat_ofNat_of_lt (by rw [UInt8.size]; omega)
    have hnot : ¬UInt8.ofNat (n + 256).toNat < 128 := by
      rw [UInt8.lt_iff_toNat_lt, hb]
      have : (128 : UInt8).toNat = 128 := rfl
      omega
    have hge : 224 ≤ UInt8.ofNat (n + 256).toNat := by
      rw [UInt8.le_iff_toNat_le, hb]
      have : (224 : UInt8).toNat = 224 := rfl
      omega
    have hval : ((n + 256).toNat : Int) - 256 = n := by omega
    have hbytes : IntForm.negativeFixint.bytes n = [UInt8.ofNat (n + 256).toNat] := by
      rw [IntForm.bytes, IntForm.head, hmod]
      rfl
    rw [hbytes, List.singleton_append, readInt, if_neg hnot, if_pos hge, hb, hval]
  | u8 | u16 | u32 | u64 => exact readNumber_unsigned h.1 h.2 rest
  | i8 | i16 | i32 | i64 => exact readNumber_signed h.1 h.2 rest

/-- Reads an array of four integers, as far as there is one. -/
def readFour : List UInt8 → Option (Value × List UInt8)
  | [] => none
  | b :: bytes =>
    if b = 0x94 then do
      let (id, bytes) ← readInt bytes
      let (timestamp, bytes) ← readInt bytes
      let (type, bytes) ← readInt bytes
      let (value, bytes) ← readInt bytes
      some (.array [.integer id, .integer timestamp, .integer type, .integer value], bytes)
    else
      none

/-- Reads arrays of four integers, in any encoding of these. -/
def readIntegers : RmpDecode where
  fromRead := readFour
  length_lt bytes v rest h := by
    cases bytes with
    | nil => cases h
    | cons b bytes =>
      rw [readFour] at h
      split_ifs at h
      obtain ⟨⟨id, r₁⟩, h₁, h⟩ := Option.bind_eq_some_iff.mp h
      obtain ⟨⟨timestamp, r₂⟩, h₂, h⟩ := Option.bind_eq_some_iff.mp h
      obtain ⟨⟨type, r₃⟩, h₃, h⟩ := Option.bind_eq_some_iff.mp h
      obtain ⟨⟨value, r₄⟩, h₄, h⟩ := Option.bind_eq_some_iff.mp h
      cases h
      have := length_readInt h₁
      have := length_readInt h₂
      have := length_readInt h₃
      have := length_readInt h₄
      rw [List.length_cons]
      omega

variable {f₁ f₂ f₃ f₄ : IntForm} {n₁ n₂ n₃ n₄ : Int}

theorem readFour_bytes (h₁ : f₁.Fits n₁) (h₂ : f₂.Fits n₂) (h₃ : f₃.Fits n₃) (h₄ : f₄.Fits n₄)
    (rest : List UInt8) :
    readFour (0x94 :: (f₁.bytes n₁ ++ (f₂.bytes n₂ ++ (f₃.bytes n₃ ++ (f₄.bytes n₄ ++ rest))))) =
      some (.array [.integer n₁, .integer n₂, .integer n₃, .integer n₄], rest) := by
  simp [readFour, readInt_bytes, h₁, h₂, h₃, h₄]

/-- The shortest form of a number is one of its encodings. -/
theorem writeUint_form {n : Nat} (h : n < 2 ^ 64) :
    ∃ f : IntForm, f.Fits n ∧ writeUint n = f.bytes n := by
  have hmod : ∀ k, n < 256 ^ k → ((n : Int) % 256 ^ k).toNat = n := by
    intro k hk
    have hcast : ((n : Int) % 256 ^ k) = ((n % 256 ^ k : Nat) : Int) := by push_cast; rfl
    rw [hcast, Int.toNat_natCast, Nat.mod_eq_of_lt hk]
  unfold writeUint
  split_ifs with h7 h8 h16 h32
  · refine ⟨.positiveFixint, ⟨by omega, by omega⟩, ?_⟩
    rw [IntForm.bytes, IntForm.head, IntForm.width, toBytes]
    have hsmall := hmod 1 (by omega)
    rw [pow_one] at hsmall
    rw [hsmall]
  · refine ⟨.u8, ⟨by omega, by simp [IntForm.width]; omega⟩, ?_⟩
    rw [IntForm.bytes, IntForm.width, hmod 1 (by omega)]
    rfl
  · refine ⟨.u16, ⟨by omega, by simp [IntForm.width]; omega⟩, ?_⟩
    rw [IntForm.bytes, IntForm.width, hmod 2 (by omega)]
    rfl
  · refine ⟨.u32, ⟨by omega, by simp [IntForm.width]; omega⟩, ?_⟩
    rw [IntForm.bytes, IntForm.width, hmod 4 (by omega)]
    rfl
  · refine ⟨.u64, ⟨by omega, by simp [IntForm.width]; omega⟩, ?_⟩
    rw [IntForm.bytes, IntForm.width, hmod 8 (by omega)]
    rfl

theorem fits_u8 (b : UInt8) : IntForm.u8.Fits b.toNat := by
  have hlt := b.toNat_lt
  refine ⟨by omega, ?_⟩
  simp [IntForm.width]
  omega

theorem writeU8_form (b : UInt8) : small.writeU8 b = IntForm.u8.bytes b.toNat := by
  have hlt := b.toNat_lt
  have hmod : ((b.toNat : Int) % 256 ^ 1).toNat = b.toNat := by omega
  rw [IntForm.bytes, IntForm.width, hmod]
  simp [small, toBytes, IntForm.head]

theorem fits_i32 (i : Int32) : IntForm.i32.Fits i.toInt := by
  have hlow := i.le_toInt
  have hlt := i.toInt_lt
  simp [IntForm.Fits, IntForm.width]
  omega

theorem writeI32_form (i : Int32) : small.writeI32 i = IntForm.i32.bytes i.toInt := by
  have hnat : (i.toInt % 256 ^ 4).toNat = i.toUInt32.toNat := by
    have hmod : i.toInt % 2 ^ 32 = (i.toUInt32.toNat : Int) % 2 ^ 32 := by
      rw [← Int32.toInt_toBitVec, BitVec.toInt_eq_toNat_bmod, Int32.toNat_toBitVec]
      exact Int.bmod_emod
    have hlt := i.toUInt32.toNat_lt
    omega
  rw [IntForm.bytes, IntForm.width, hnat]
  rfl

end NetTables.Spec.MsgPack
