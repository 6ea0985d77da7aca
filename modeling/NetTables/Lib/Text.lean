import Mathlib.Data.List.Forall2
import Mathlib.Data.List.Induction

namespace NetTables.Lib

variable {α β : Type} {c : Char} {n : Nat} {l : List α} {r : List β} {s digits : List Char}

/-- Splitting takes off what stands before the first separator. -/
theorem splitOn_cases [BEq α] [LawfulBEq α] (a : α) (l : List α) :
    a ∉ l ∧ l.splitOn a = [l] ∨
      ∃ before after, l = before ++ a :: after ∧ a ∉ before ∧
        l.splitOn a = before :: after.splitOn a := by
  by_cases ha : a ∈ l
  · obtain ⟨before, after, rfl, hbefore⟩ := List.eq_append_cons_of_mem ha
    exact .inr ⟨before, after, rfl, hbefore,
      List.splitOn_append_cons_self_of_not_mem hbefore after⟩
  · exact .inl ⟨ha, List.splitOn_eq_singleton ha⟩

/-- The first piece ends where the list does or where the separator comes. -/
theorem splitOn_head [BEq α] [LawfulBEq α] (a : α) (l : List α) :
    ∃ first more, l = first ++ more ∧ (∀ b ∈ more.head?, b = a) ∧
      (l.splitOn a)[0]? = some first := by
  obtain ⟨-, hsplit⟩ | ⟨before, after, rfl, -, hsplit⟩ := splitOn_cases a l
  · exact ⟨l, [], by simp, by simp, by rw [hsplit]; rfl⟩
  · exact ⟨before, a :: after, rfl, by simp, by rw [hsplit]; rfl⟩

theorem mem_intercalate {a b : α} {ls : List (List α)} (h : b ∈ [a].intercalate ls) :
    b = a ∨ ∃ l ∈ ls, b ∈ l := by
  induction ls with
  | nil => simp at h
  | cons l ls ih =>
    cases ls with
    | nil => exact .inr ⟨l, by simp, by simpa using h⟩
    | cons l' ls =>
      rw [List.intercalate_cons_cons, List.mem_append, List.mem_append, List.mem_singleton] at h
      rcases h with (h | h) | h
      · exact .inr ⟨l, by simp, h⟩
      · exact .inl h
      · exact (ih h).imp_right fun ⟨k, hk, hb⟩ => ⟨k, List.mem_cons_of_mem _ hk, hb⟩

theorem mem_intercalate_of_mem {a b : α} {ls : List (List α)} (hl : l ∈ ls) (hb : b ∈ l) :
    b ∈ [a].intercalate ls := by
  induction ls with
  | nil => cases hl
  | cons l' ls ih =>
    cases ls with
    | nil =>
      rw [List.mem_singleton.mp hl] at hb
      simpa using hb
    | cons l'' ls =>
      rw [List.intercalate_cons_cons, List.mem_append, List.mem_append]
      rcases List.mem_cons.mp hl with rfl | hl
      · exact .inl (.inl hb)
      · exact .inr (ih hl)

theorem mapM_eq_some_iff (f : α → Option β) :
    l.mapM f = some r ↔ List.Forall₂ (fun a b => f a = some b) l r := by
  induction l generalizing r with
  | nil => simp [eq_comm]
  | cons a l ih =>
    rw [List.mapM_cons]
    cases hf : f a with
    | none => simp [List.forall₂_cons_left_iff, hf]
    | some b => cases hl : l.mapM f <;> simp [List.forall₂_cons_left_iff, hf, ← ih, hl, eq_comm]

/-- `digits` is the decimal numeral of `n`, with zeros before it or none. -/
def IsNumeral (n : Nat) (digits : List Char) : Prop :=
  ∃ zeros, digits = List.replicate zeros '0' ++ Nat.toDigits 10 n

namespace IsNumeral

theorem toDigits (n : Nat) : IsNumeral n (Nat.toDigits 10 n) := ⟨0, rfl⟩

theorem isDigit (h : IsNumeral n digits) (hc : c ∈ digits) : c.isDigit := by
  obtain ⟨zeros, rfl⟩ := h
  rcases List.mem_append.mp hc with hc | hc
  · rw [List.eq_of_mem_replicate hc]
    rfl
  · exact Nat.isDigit_of_mem_toDigits (by decide) (by decide) hc

theorem notMem (h : IsNumeral n digits) (hc : c.isDigit = false) : c ∉ digits := by
  intro hmem
  rw [h.isDigit hmem] at hc
  cases hc

theorem ne_nil (h : IsNumeral n digits) : digits ≠ [] := by
  obtain ⟨zeros, rfl⟩ := h
  simp [Nat.toDigits_ne_nil]

theorem ofDigitChars (h : IsNumeral n digits) : Nat.ofDigitChars 10 digits 0 = n := by
  obtain ⟨zeros, rfl⟩ := h
  rw [Nat.ofDigitChars_append, Nat.ofDigitChars_replicate_zero, Nat.mul_zero,
    Nat.ofDigitChars_ten_toDigits]

/-- One more digit behind a numeral. -/
theorem snoc {d : Nat} (h : IsNumeral n digits) (hd : d < 10) :
    IsNumeral (10 * n + d) (digits ++ [d.digitChar]) := by
  obtain ⟨zeros, rfl⟩ := h
  rcases Nat.eq_zero_or_pos n with rfl | hn
  · -- a numeral of zero is itself zeros only
    refine ⟨zeros + 1, ?_⟩
    rw [Nat.toDigits_zero, ← List.replicate_succ', Nat.mul_zero, Nat.zero_add,
      Nat.toDigits_of_lt_base hd]
  · refine ⟨zeros, ?_⟩
    rw [List.append_assoc, ← Nat.toDigits_append_toDigits (by decide) hn hd,
      Nat.toDigits_of_lt_base hd]

end IsNumeral

theorem digitChar_of_isDigit (hc : c.isDigit) : ∃ d < 10, c = d.digitChar := by
  obtain ⟨hle, hle'⟩ := Char.isDigit_iff_toNat.mp hc
  have hlt : c.toNat - 48 < 10 := by
    have hnine : '9'.toNat = 57 := rfl
    omega
  refine ⟨c.toNat - 48, hlt, Char.toNat_inj.mp ?_⟩
  rw [Nat.toNat_digitChar_of_lt_ten hlt]
  have hzero : '0'.toNat = 48 := rfl
  omega

/-- Digits are a numeral of the number they are read as. -/
theorem isNumeral_ofDigitChars (hne : digits ≠ []) (h : ∀ c ∈ digits, c.isDigit) :
    IsNumeral (Nat.ofDigitChars 10 digits 0) digits := by
  induction digits using List.reverseRecOn with
  | nil => exact (hne rfl).elim
  | append_singleton digits c ih =>
    obtain ⟨d, hd, rfl⟩ := digitChar_of_isDigit (h c (by simp))
    rw [Nat.ofDigitChars_append, Nat.ofDigitChars_cons_digitChar_of_lt_ten hd,
      Nat.ofDigitChars_nil]
    cases digits with
    | nil =>
      rw [Nat.ofDigitChars_nil, Nat.mul_zero, Nat.zero_add, List.nil_append,
        ← Nat.toDigits_of_lt_base hd]
      exact .toDigits d
    | cons e digits => exact (ih (by simp) fun c hc => h c (List.mem_append_left _ hc)).snoc hd

end NetTables.Lib
