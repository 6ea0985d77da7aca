import Mathlib.Data.Nat.Basic
import Mathlib.Tactic.Ring

namespace NetTables.Lib

/-- The last `k` bytes of a number, the highest first. -/
def toBytes : Nat → Nat → List UInt8
  | 0, _ => []
  | k + 1, n => UInt8.ofNat (n / 256 ^ k) :: toBytes k n

/-- The number that bytes stand for, after what was read before them. -/
def ofBytes (acc : Nat) : List UInt8 → Nat
  | [] => acc
  | b :: bytes => ofBytes (acc * 256 + b.toNat) bytes

theorem length_toBytes (k n : Nat) : (toBytes k n).length = k := by
  induction k with
  | zero => rfl
  | succ k ih => rw [toBytes, List.length_cons, ih]

theorem ofBytes_toBytes (k n acc : Nat) :
    ofBytes acc (toBytes k n) = acc * 256 ^ k + n % 256 ^ k := by
  induction k generalizing acc with
  | zero => simp [toBytes, ofBytes, Nat.mod_one]
  | succ k ih =>
    have hbyte : (UInt8.ofNat (n / 256 ^ k)).toNat = n / 256 ^ k % 256 := UInt8.toNat_ofNat'
    have hsplit : n % 256 ^ (k + 1) = n / 256 ^ k % 256 * 256 ^ k + n % 256 ^ k := by
      rw [pow_succ, Nat.mod_mul, Nat.mul_comm (256 ^ k), Nat.add_comm]
    rw [toBytes, ofBytes, ih, hbyte, hsplit, pow_succ]
    ring

/-- A number of at most `k` bytes is read back. -/
theorem ofBytes_toBytes_of_lt {k n : Nat} (h : n < 256 ^ k) : ofBytes 0 (toBytes k n) = n := by
  rw [ofBytes_toBytes, Nat.zero_mul, Nat.zero_add, Nat.mod_eq_of_lt h]

/-- The first `k` bytes as a number, and the bytes after them. -/
def readBytes (k : Nat) (bytes : List UInt8) : Option (Nat × List UInt8) :=
  if k ≤ bytes.length then some (ofBytes 0 (bytes.take k), bytes.drop k) else none

theorem readBytes_toBytes {k n : Nat} (h : n < 256 ^ k) (rest : List UInt8) :
    readBytes k (toBytes k n ++ rest) = some (n, rest) := by
  have hlen := length_toBytes k n
  have hle : k ≤ (toBytes k n ++ rest).length := by
    rw [List.length_append]
    omega
  rw [readBytes, if_pos hle, List.take_left' hlen, List.drop_left' hlen, ofBytes_toBytes_of_lt h]

theorem length_readBytes {k n : Nat} {bytes rest : List UInt8}
    (h : readBytes k bytes = some (n, rest)) : rest.length ≤ bytes.length := by
  unfold readBytes at h
  split_ifs at h
  cases h
  rw [List.length_drop]
  omega

end NetTables.Lib
