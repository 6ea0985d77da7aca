import Mathlib.Data.List.Flatten
import Mathlib.Data.List.Perm.Subperm

namespace NetTables.Lib

/-- Of all that has been put in, this has come out and this is still on its way: nothing twice, and
everything as long as nothing may be lost. Where each goes in its turn, what has come out is the
beginning. -/
structure Conveys {α : Type} (lossless inTurn : Prop) (out rest all : List α) : Prop where
  once : (out ++ rest).Subperm all
  whole : lossless → (out ++ rest).Perm all
  first : inTurn → out <+: all
  order : inTurn → lossless → out ++ rest = all

namespace Conveys

variable {α β : Type} {lossless lossless' inTurn inTurn' : Prop}
  {out out' rest rest' all new sent : List α}

theorem of_eq (h : out ++ rest = all) : Conveys lossless inTurn out rest all where
  once := h ▸ .refl _
  whole _ := h ▸ .refl _
  first _ := h ▸ List.prefix_append ..
  order _ _ := h

theorem mono (h : Conveys lossless inTurn out rest all) (hlossless : lossless' → lossless)
    (hinTurn : inTurn' → inTurn) : Conveys lossless' inTurn' out rest all where
  once := h.once
  whole hl := h.whole (hlossless hl)
  first ht := h.first (hinTurn ht)
  order ht hl := h.order (hinTurn ht) (hlossless hl)

/-- More is put in. -/
theorem put (h : Conveys lossless inTurn out rest all) (new : List α) :
    Conveys lossless inTurn out (rest ++ new) (all ++ new) where
  once := by
    rw [← List.append_assoc]
    exact (List.subperm_append_right new).mpr h.once
  whole hl := by
    rw [← List.append_assoc]
    exact (h.whole hl).append_right new
  first ht := (h.first ht).trans (List.prefix_append ..)
  order ht hl := by rw [← List.append_assoc, h.order ht hl]

/-- One that is on its way comes out, in its turn if it is the first. -/
theorem takes {l : List α} {n : Nat} {a : α} (h : l[n]? = some a) :
    Conveys lossless (n = 0) [a] (l.eraseIdx n) l := by
  obtain ⟨hn, rfl⟩ := List.getElem?_eq_some_iff.mp h
  have hperm : (l[n] :: l.eraseIdx n).Perm l := List.getElem_cons_eraseIdx_perm hn
  have hhead : n = 0 → l[n] :: l.eraseIdx n = l := by
    rintro rfl
    cases l with
    | nil => cases h
    | cons b l => rfl
  exact ⟨hperm.subperm, fun _ => hperm, fun hzero => ⟨_, hhead hzero⟩, fun hzero _ => hhead hzero⟩

/-- What is on its way goes on. -/
theorem trans (h : Conveys lossless inTurn out rest all)
    (hrest : Conveys lossless' inTurn' sent rest' rest) (hlossless : lossless' → lossless)
    (hsent : sent = [] ∨ lossless) :
    Conveys lossless' (inTurn ∧ inTurn') (out ++ sent) rest' all where
  once := by
    rw [List.append_assoc]
    exact ((List.subperm_append_left out).mpr hrest.once).trans h.once
  whole hl := by
    rw [List.append_assoc]
    exact ((hrest.whole hl).append_left out).trans (h.whole (hlossless hl))
  first ht := by
    rcases hsent with rfl | hl
    · rw [List.append_nil]
      exact h.first ht.1
    · rw [← h.order ht.1 hl]
      exact (List.prefix_append_right_inj out).mpr (hrest.first ht.2)
  order ht hl := by rw [List.append_assoc, hrest.order ht.2 hl, h.order ht.1 (hlossless hl)]

/-- Some of what has come out is forgotten, and some of what is on its way is lost. -/
theorem lose (h : Conveys lossless inTurn out rest all) (hout : out' <+: out)
    (hrest : rest'.Subperm rest) (hlossy : ¬lossless') :
    Conveys lossless' inTurn out' rest' all where
  once := (hout.sublist.subperm.append hrest).trans h.once
  whole hl := (hlossy hl).elim
  first ht := hout.trans (h.first ht)
  order _ hl := (hlossy hl).elim

/-- Of what has come out only the beginning is kept once something may be lost. -/
theorem cut (h : Conveys lossless inTurn out rest all) (hout : out' <+: out)
    (hsame : lossless → out' = out) : Conveys lossless inTurn out' rest all where
  once := ((List.subperm_append_right rest).mpr hout.sublist.subperm).trans h.once
  whole hl := by
    rw [hsame hl]
    exact h.whole hl
  first ht := hout.trans (h.first ht)
  order ht hl := by
    rw [hsame hl]
    exact h.order ht hl

/-- Each item is taken for a list of others. -/
theorem flatMap (h : Conveys lossless inTurn out rest all) (f : α → List β) :
    Conveys lossless inTurn (out.flatMap f) (rest.flatMap f) (all.flatMap f) where
  once := by
    obtain ⟨l, hperm, hsub⟩ := h.once
    rw [← List.flatMap_append]
    exact ⟨l.flatMap f, hperm.flatMap_right f, hsub.flatMap f⟩
  whole hl := by
    rw [← List.flatMap_append]
    exact (h.whole hl).flatMap_right f
  first ht := by
    obtain ⟨more, hmore⟩ := h.first ht
    exact ⟨more.flatMap f, by rw [← List.flatMap_append, hmore]⟩
  order ht hl := by rw [← List.flatMap_append, h.order ht hl]

end Conveys

end NetTables.Lib
