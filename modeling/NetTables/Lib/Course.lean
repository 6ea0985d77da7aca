import NetTables.Lib.Pool
import Mathlib.Tactic.Common

namespace NetTables.Lib

namespace Prog

variable {L M σ α β : Type} {P P' : (σ → σ) → Prop} {fs gs : List (σ → σ)}

/-- Its first steps on the state are these, in this order, and the others are of `P`. -/
def Begins (P : (σ → σ) → Prop) : List (σ → σ) → Prog L M σ α → Prop
  | fs, .pure _ => fs = []
  | fs, .act g next => (fs = [] ∧ P g ∧ ∀ s, (next s).Begins P []) ∨
      ∃ rest, fs = g :: rest ∧ ∀ s, (next s).Begins P rest
  | fs, .lock _ next => next.Begins P fs
  | fs, .unlock _ next => next.Begins P fs
  | fs, .send _ next => next.Begins P fs

/-- Its steps on the state are these, and no others. -/
abbrev Takes (fs : List (σ → σ)) (p : Prog L M σ α) : Prop := p.Begins (fun _ => False) fs

section Begins

variable {p : Prog L M σ α} {g : α → Prog L M σ β}

theorem All.begins {Q : M → Prop} (h : p.All P Q) : p.Begins P [] := by
  induction p with
  | pure a => rfl
  | act f next ih => exact .inl ⟨rfl, h.1, fun s => ih s (h.2 s)⟩
  | lock l next ih => exact ih h
  | unlock l next ih => exact ih h
  | send m next ih => exact ih h.2

theorem Takes.bind (h : p.Takes fs) (hg : ∀ a, (g a).Begins P gs) :
    (p >>= g).Begins P (fs ++ gs) := by
  induction p generalizing fs with
  | pure a =>
    rw [show fs = [] from h]
    exact hg a
  | act f next ih =>
    obtain ⟨-, hfalse, -⟩ | ⟨rest, rfl, hnext⟩ := h
    · exact hfalse.elim
    · exact .inr ⟨rest ++ gs, rfl, fun s => ih s (hnext s)⟩
  | lock l next ih => exact ih h
  | unlock l next ih => exact ih h
  | send m next ih => exact ih h

theorem Takes.begins (h : p.Takes fs) : p.Begins P fs := by
  induction p generalizing fs with
  | pure a => exact h
  | act f next ih =>
    obtain ⟨-, hfalse, -⟩ | ⟨rest, rfl, hnext⟩ := h
    · exact hfalse.elim
    · exact .inr ⟨rest, rfl, fun s => ih s (hnext s)⟩
  | lock l next ih => exact ih h
  | unlock l next ih => exact ih h
  | send m next ih => exact ih h

theorem takes_forEach {l : List β} {f : β → Prog L M σ Unit} {steps : β → List (σ → σ)}
    (hf : ∀ b, (f b).Takes (steps b)) : (forEach l f).Takes (l.flatMap steps) := by
  induction l with
  | nil => rfl
  | cons b l ih => exact (hf b).bind fun _ => ih

end Begins

end Prog

namespace Pool

variable {τ L M σ : Type} [DecidableEq τ] [DecidableEq L] {capacity : Nat} {S S' : Pool τ L M σ}
  {t : τ} {P : (σ → σ) → Prop} {fs : List (σ → σ)}

/-- What a step of a task does to the state: nothing, or the next of the task's first steps, or one
of the others. -/
theorem Moves.begins (h : Moves capacity t S S') (hfs : (S.rest t).Begins P fs) :
    ((∀ f next, S.rest t ≠ .act f next) ∧ S'.shared = S.shared ∧ (S'.rest t).Begins P fs) ∨
    ∃ f next, S.rest t = .act f next ∧ S'.shared = f S.shared ∧
      (S'.rest t).Begins P fs.tail ∧ (fs = [] ∧ P f ∨ ∃ rest, fs = f :: rest) := by
  cases h with
  | act hrest =>
    rw [hrest] at hfs
    refine .inr ⟨_, _, hrest, rfl, ?_⟩
    simp only [start_rest_self]
    obtain ⟨rfl, hP, hnext⟩ | ⟨rest, rfl, hnext⟩ := hfs
    · exact ⟨hnext _, .inl ⟨rfl, hP⟩⟩
    · exact ⟨hnext _, .inr ⟨rest, rfl⟩⟩
  | lock hrest | unlock hrest =>
    refine .inl ⟨fun f next heq => ?_, rfl, ?_⟩
    · rw [hrest] at heq
      cases heq
    · rw [hrest] at hfs
      simp only [give, start_rest_self]
      exact hfs
  | send hrest =>
    refine .inl ⟨fun f next heq => ?_, rfl, ?_⟩
    · rw [hrest] at heq
      cases heq
    · rw [hrest] at hfs
      simp only [start_rest_self]
      exact hfs

end Pool

end NetTables.Lib
