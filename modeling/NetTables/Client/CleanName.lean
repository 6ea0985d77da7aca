import NetTables.Client.Inner
import Mathlib.Algebra.Order.Group.Nat
import Mathlib.Data.List.Chain
import Mathlib.Algebra.Group.Nat.Even

namespace NetTables.Client.AsyncClientHandle

open Lib Spec

variable {c : Char} {l l' before after side : List Char} {name : String}

/-- Two slashes in a row do not stand in `l`. -/
def SlashesApart (l : List Char) : Prop := l.IsChain fun c d => ¬ (c = '/' ∧ d = '/')

section RemoveSlashes

-- of three slashes in a row one is left
example : removeSlashes ['a', '/', '/', '/', 'b'] = ['a', '/', 'b'] := by
  simp [removeSlashes]

theorem removeSlashes_cons (hne : ∀ l', c = '/' → l = '/' :: l' → False) :
    removeSlashes (c :: l) = c :: removeSlashes l := by
  rw [removeSlashes]
  exact hne

theorem removeSlashes_cons_of_ne (hc : c ≠ '/') (l : List Char) :
    removeSlashes (c :: l) = c :: removeSlashes l :=
  removeSlashes_cons fun _ hslash _ => hc hslash

/-- What follows a slash that stays. -/
theorem eq_nil_or_cons_ne (hne : ∀ l', l = '/' :: l' → False) :
    l = [] ∨ ∃ d l', l = d :: l' ∧ d ≠ '/' := by
  cases l with
  | nil => exact .inl rfl
  | cons d l => exact .inr ⟨d, l, rfl, fun hd => hne l (by rw [hd])⟩

/-- A character that is no slash parts what is removed before it from what is removed behind. -/
theorem removeSlashes_append_cons (hc : c ≠ '/') (l l' : List Char) :
    removeSlashes (l ++ c :: l') = removeSlashes l ++ c :: removeSlashes l' := by
  fun_induction removeSlashes l with
  | case1 l ih => exact ih
  | case2 d l hne ih =>
    rw [List.cons_append, removeSlashes_cons, ih, List.cons_append]
    rintro r rfl heq
    cases l with
    | nil => exact hc (List.cons.inj heq).1
    | cons e l => exact hne l rfl (by rw [(List.cons.inj heq).1])
  | case3 => exact removeSlashes_cons_of_ne hc l'

/-- A pair of slashes can be taken out anywhere. -/
theorem removeSlashes_append_pair (l l' : List Char) :
    removeSlashes (l ++ '/' :: '/' :: l') = removeSlashes (l ++ l') := by
  fun_induction removeSlashes l with
  | case1 l ih => exact ih
  | case2 d l hne ih =>
    cases l with
    | nil =>
      by_cases hd : d = '/'
      · subst hd
        rfl
      · simp only [List.cons_append, removeSlashes_cons_of_ne hd, List.nil_append, removeSlashes]
    | cons e l =>
      have happend : ∀ k, removeSlashes (d :: (e :: l ++ k)) = d :: removeSlashes (e :: l ++ k) :=
        fun k => removeSlashes_cons fun r hd heq => hne l hd (by rw [(List.cons.inj heq).1])
      rw [List.cons_append, happend, ih]
      exact (happend l').symm
  | case3 => rfl

theorem removeSlashes_reverse (l : List Char) :
    removeSlashes l.reverse = (removeSlashes l).reverse := by
  fun_induction removeSlashes l with
  | case1 l ih =>
    simpa [ih] using removeSlashes_append_pair l.reverse []
  | case2 d l hne ih =>
    rw [List.reverse_cons, List.reverse_cons, ← ih]
    by_cases hd : d = '/'
    · subst hd
      obtain rfl | ⟨e, l, rfl, he⟩ := eq_nil_or_cons_ne fun l' => hne l' rfl
      · rfl
      · simp [removeSlashes_append_cons he, removeSlashes]
    · rw [removeSlashes_append_cons hd, removeSlashes]
  | case3 => rfl

/-- What comes first is a slash where an odd number of them stand there. -/
theorem head?_removeSlashes (l : List Char) : (removeSlashes l).head? =
    if Even (l.takeWhile (· = '/')).length then (l.dropWhile (· = '/')).head? else some '/' := by
  fun_induction removeSlashes l with
  | case1 l ih =>
    rw [ih]
    simp [Nat.even_add_one]
  | case2 d l hne ih =>
    by_cases hd : d = '/'
    · subst hd
      obtain rfl | ⟨e, l, rfl, he⟩ := eq_nil_or_cons_ne fun l' => hne l' rfl
      · simp
      · simp [he]
    · simp [hd]
  | case3 => rfl

theorem slashesApart_removeSlashes (l : List Char) : SlashesApart (removeSlashes l) := by
  fun_induction removeSlashes l with
  | case1 l ih => exact ih
  | case2 d l hne ih =>
    refine List.isChain_cons.mpr ⟨?_, ih⟩
    rintro e he ⟨rfl, rfl⟩
    obtain rfl | ⟨e, l, rfl, hslash⟩ := eq_nil_or_cons_ne fun l' => hne l' rfl
    · simp [removeSlashes] at he
    · rw [removeSlashes_cons_of_ne hslash] at he
      exact hslash (Option.some.inj he)
  | case3 => exact List.isChain_nil

theorem removeSlashes_eq_self (h : SlashesApart l) : removeSlashes l = l := by
  fun_induction removeSlashes l with
  | case1 l ih => exact ((List.isChain_cons_cons.mp h).1 ⟨rfl, rfl⟩).elim
  | case2 d l hne ih => rw [ih h.tail]
  | case3 => rfl

/-- A character that is no slash stands in the result where it stood in the list. -/
theorem removeSlashes_eq_append_cons_iff (hc : c ≠ '/') :
    removeSlashes l = before ++ c :: after ↔
      ∃ l₁ l₂, l = l₁ ++ c :: l₂ ∧ removeSlashes l₁ = before ∧ removeSlashes l₂ = after := by
  constructor
  · intro h
    fun_induction removeSlashes l generalizing before with
    | case1 l ih =>
      obtain ⟨l₁, l₂, rfl, hbefore, hafter⟩ := ih h
      exact ⟨'/' :: '/' :: l₁, l₂, rfl, hbefore, hafter⟩
    | case2 d l hne ih =>
      obtain ⟨rfl, heq⟩ | ⟨before, rfl, heq⟩ := List.cons_eq_append_iff.mp h
      · obtain ⟨rfl, rfl⟩ := List.cons.inj heq
        exact ⟨[], l, rfl, rfl, rfl⟩
      · obtain ⟨l₁, l₂, rfl, rfl, hafter⟩ := ih heq
        refine ⟨d :: l₁, l₂, rfl, removeSlashes_cons ?_, hafter⟩
        rintro l' hd rfl
        exact hne _ hd rfl
    | case3 => simp at h
  · rintro ⟨l₁, l₂, rfl, rfl, rfl⟩
    exact removeSlashes_append_cons hc l₁ l₂

end RemoveSlashes

section Sides

/-- What `clean_name` leaves as a slash. -/
def IsSeparator (c : Char) : Prop := c = '/' ∨ c = ':'

/-- Slashes and what is taken out from between them. -/
def isSkipped (c : Char) : Bool := c = '/' || c = '$'

/-- The slashes nearest to a colon on this side of it are even in number,
and no other colon stands beyond them. -/
def SideApart (side : List Char) : Prop :=
  Even ((side.takeWhile isSkipped).count '/') ∧ (side.dropWhile isSkipped).head? ≠ some ':'

/-- Both sides of each colon are free of what would stand there as another slash. -/
def ColonsApart (name : String) : Prop :=
  ∀ before after, name.toList = before ++ ':' :: after →
    SideApart before.reverse ∧ SideApart after

/-- `replace('$', "")` -/
def dropDollars (l : List Char) : List Char := l.filter fun c => c ≠ '$'

theorem length_takeWhile_dropDollars (side : List Char) :
    ((dropDollars side).takeWhile (· = '/')).length = (side.takeWhile isSkipped).count '/' := by
  induction side with
  | nil => rfl
  | cons c side ih =>
    by_cases hdollar : c = '$'
    · simpa [dropDollars, hdollar, isSkipped] using ih
    by_cases hslash : c = '/'
    · simpa [dropDollars, hslash, isSkipped] using ih
    · simp [dropDollars, hdollar, hslash, isSkipped]

theorem head?_dropWhile_dropDollars (side : List Char) :
    ((dropDollars side).dropWhile (· = '/')).head? = (side.dropWhile isSkipped).head? := by
  induction side with
  | nil => rfl
  | cons c side ih =>
    by_cases hdollar : c = '$'
    · simpa [dropDollars, hdollar, isSkipped] using ih
    by_cases hslash : c = '/'
    · simpa [dropDollars, hslash, isSkipped] using ih
    · simp [dropDollars, hdollar, hslash, isSkipped]

theorem sideApart_iff : SideApart side ↔
    ∀ c ∈ (removeSlashes (dropDollars side)).head?, ¬ IsSeparator c := by
  rw [head?_removeSlashes, length_takeWhile_dropDollars, head?_dropWhile_dropDollars, SideApart]
  split_ifs with heven
  · have hhead := List.head?_dropWhile_not isSkipped side
    cases hside : (side.dropWhile isSkipped).head? with
    | none => simp [heven]
    | some c =>
      rw [hside] at hhead
      simp_all [IsSeparator, isSkipped]
  · simp [heven, IsSeparator]

theorem dropDollars_eq_append_cons_iff (hc : c ≠ '$') :
    dropDollars l = before ++ c :: after ↔
      ∃ l₁ l₂, l = l₁ ++ c :: l₂ ∧ dropDollars l₁ = before ∧ dropDollars l₂ = after := by
  constructor
  · intro h
    obtain ⟨l₁, l₂, rfl, rfl, hrest⟩ := List.filter_eq_append_iff.mp h
    obtain ⟨dollars, l₃, rfl, hdollars, -, rfl⟩ := List.filter_eq_cons_iff.mp hrest
    refine ⟨l₁ ++ dollars, l₃, by simp, ?_, rfl⟩
    rw [dropDollars, List.filter_append, List.filter_eq_nil_iff.mpr hdollars, List.append_nil]
  · rintro ⟨l₁, l₂, rfl, rfl, rfl⟩
    simp [dropDollars, hc]

/-- Among letters with no two slashes in a row, two neighbours both become slashes only
at a colon. -/
theorem isChain_separator_iff (h : SlashesApart l) :
    (l.IsChain fun c d => ¬ (IsSeparator c ∧ IsSeparator d)) ↔
      ∀ before after, l = before ++ ':' :: after →
        (∀ c ∈ before.reverse.head?, ¬ IsSeparator c) ∧ ∀ c ∈ after.head?, ¬ IsSeparator c := by
  constructor
  · rintro hchain before after rfl
    obtain ⟨-, hafter, hbefore⟩ := List.isChain_append.mp hchain
    refine ⟨fun c hc hsep => ?_, fun c hc hsep => ?_⟩
    · rw [List.head?_reverse] at hc
      exact hbefore c hc ':' rfl ⟨hsep, .inr rfl⟩
    · exact (List.isChain_cons.mp hafter).1 c hc ⟨.inr rfl, hsep⟩
  · intro hcolons
    refine List.isChain_iff_forall_rel_of_append_cons_cons.mpr ?_
    rintro c d l₁ l₂ rfl ⟨hc | rfl, hd⟩
    · obtain hd | rfl := hd
      · exact List.isChain_iff_forall_rel_of_append_cons_cons.mp h rfl ⟨hc, hd⟩
      · exact (hcolons (l₁ ++ [c]) l₂ (by simp)).1 c (by simp) (.inl hc)
    · exact (hcolons l₁ (d :: l₂) rfl).2 d rfl hd

end Sides

section Clean

/-- What `clean_name` is to make of every name. -/
structure Clean (name : String) : Prop where
  noDollar : '$' ∉ name.toList
  noColon : ':' ∉ name.toList
  slashesApart : ¬ ['/', '/'] <:+: name.toList

theorem slashesApart_iff : SlashesApart l ↔ ¬ ['/', '/'] <:+: l := by
  refine List.isChain_iff_forall_rel_of_append_cons_cons.trans ⟨?_, ?_⟩
  · rintro happart ⟨l₁, l₂, rfl⟩
    exact happart (List.append_assoc l₁ ['/', '/'] l₂) ⟨rfl, rfl⟩
  · rintro hinfix c d l₁ l₂ rfl ⟨rfl, rfl⟩
    exact hinfix ⟨l₁, l₂, by simp⟩

/-- `replace(':', "/")` on one character -/
def colonToSlash (c : Char) : Char := if c = ':' then '/' else c

theorem colonToSlash_eq_slash : colonToSlash c = '/' ↔ IsSeparator c := by
  grind [colonToSlash, IsSeparator]

theorem toList_cleanName (name : String) :
    (cleanName name).toList = (removeSlashes (dropDollars name.toList)).map colonToSlash :=
  String.toList_ofList

theorem mem_removeSlashes (h : c ∈ removeSlashes l) : c ∈ l := by
  fun_induction removeSlashes l with
  | case1 l ih => exact List.mem_cons_of_mem _ (List.mem_cons_of_mem _ (ih h))
  | case2 d l hne ih => exact (List.mem_cons.mp h).elim (by simp_all) fun h => by simp [ih h]
  | case3 => exact h

theorem dollar_notMem_cleanName (name : String) : '$' ∉ (cleanName name).toList := by
  rw [toList_cleanName, List.mem_map]
  rintro ⟨c, hc, hdollar⟩
  have hne : c ≠ '$' := by simpa [dropDollars] using List.of_mem_filter (mem_removeSlashes hc)
  grind [colonToSlash]

theorem colon_notMem_cleanName (name : String) : ':' ∉ (cleanName name).toList := by
  rw [toList_cleanName, List.mem_map]
  rintro ⟨c, -, hcolon⟩
  grind [colonToSlash]

/-- Only the slashes of a name without dollar and colon change. -/
theorem toList_cleanName_of_notMem (hdollar : '$' ∉ name.toList) (hcolon : ':' ∉ name.toList) :
    (cleanName name).toList = removeSlashes name.toList := by
  have hdrop : dropDollars name.toList = name.toList :=
    List.filter_eq_self.mpr fun c hc => decide_eq_true fun heq => hdollar (heq ▸ hc)
  have hmap : ∀ c ∈ removeSlashes name.toList, colonToSlash c = id c := fun c hc =>
    if_neg fun heq : c = ':' => hcolon (heq ▸ mem_removeSlashes hc)
  rw [toList_cleanName, hdrop, List.map_congr_left hmap, List.map_id]

/-- The names `clean_name` leaves as they are. -/
theorem cleanName_eq_self_iff : cleanName name = name ↔ Clean name := by
  constructor
  · intro h
    have hdollar : '$' ∉ name.toList := h ▸ dollar_notMem_cleanName name
    have hcolon : ':' ∉ name.toList := h ▸ colon_notMem_cleanName name
    refine ⟨hdollar, hcolon, slashesApart_iff.mp ?_⟩
    rw [← h, toList_cleanName_of_notMem hdollar hcolon]
    exact slashesApart_removeSlashes name.toList
  · rintro ⟨hdollar, hcolon, hslashes⟩
    apply String.toList_inj.mp
    rw [toList_cleanName_of_notMem hdollar hcolon]
    exact removeSlashes_eq_self (slashesApart_iff.mpr hslashes)

theorem clean_cleanName_iff : Clean (cleanName name) ↔ ColonsApart name := by
  have hclean : Clean (cleanName name) ↔ SlashesApart (cleanName name).toList :=
    ⟨fun h => slashesApart_iff.mpr h.slashesApart, fun h =>
      ⟨dollar_notMem_cleanName name, colon_notMem_cleanName name, slashesApart_iff.mp h⟩⟩
  rw [hclean, toList_cleanName, SlashesApart, List.isChain_map]
  simp only [colonToSlash_eq_slash]
  rw [isChain_separator_iff (slashesApart_removeSlashes _)]
  constructor
  · intro h before after heq
    have hdrop := (dropDollars_eq_append_cons_iff (by decide)).mpr ⟨before, after, heq, rfl, rfl⟩
    have hsplit := (removeSlashes_eq_append_cons_iff (by decide)).mpr ⟨_, _, hdrop, rfl, rfl⟩
    obtain ⟨hbefore, hafter⟩ := h _ _ hsplit
    refine ⟨sideApart_iff.mpr ?_, sideApart_iff.mpr hafter⟩
    rwa [dropDollars, List.filter_reverse, removeSlashes_reverse]
  · rintro h before after hsplit
    obtain ⟨l₁, l₂, hdrop, rfl, rfl⟩ :=
      (removeSlashes_eq_append_cons_iff (by decide)).mp hsplit
    obtain ⟨l₁, l₂, heq, rfl, rfl⟩ := (dropDollars_eq_append_cons_iff (by decide)).mp hdrop
    obtain ⟨hbefore, hafter⟩ := h l₁ l₂ heq
    refine ⟨?_, sideApart_iff.mp hafter⟩
    have hreverse := sideApart_iff.mp hbefore
    rwa [dropDollars, List.filter_reverse, removeSlashes_reverse] at hreverse

/-- `clean_name` cleans a name, so that a second pass leaves it, exactly where no colon has
an odd number of slashes or another colon beside it. -/
theorem cleanName_cleans_iff (name : String) :
    (Clean (cleanName name) ∧ cleanName (cleanName name) = cleanName name ∧
      (Clean name → cleanName name = name) ∧
      ∀ metatopic, hasDollar metatopic → cleanName name ≠ metatopic) ↔ ColonsApart name := by
  rw [← clean_cleanName_iff, cleanName_eq_self_iff]
  refine ⟨fun h => h.1, fun h => ⟨h, h, cleanName_eq_self_iff.mpr, ?_⟩⟩
  rintro metatopic hdollar rfl
  exact dollar_notMem_cleanName name (of_decide_eq_true hdollar)

/-- A colon before a slash becomes the second of two. -/
theorem cleanName_leaves_slashes : ¬ Clean (cleanName "a:/b") ∧
    cleanName "a:/b" = "a//b" ∧ cleanName (cleanName "a:/b") = "ab" := by
  refine ⟨fun h => h.slashesApart ⟨['a'], ['b'], ?_⟩, ?_, ?_⟩ <;> decide

end Clean

end NetTables.Client.AsyncClientHandle
