import Mathlib.Data.List.Induction

namespace NetTables.Lib

variable {σ ι ν : Type} {step : σ → ι → σ} {l before after before' after' : List ι} {i : ι} {s : σ}
  {v : ν}

/-- A reading that some steps set and the others leave alone: it is `v` where the last of those that
set it is the one that sets it to `v`. -/
theorem foldl_eq_some_iff (get : σ → Option ν) (sets : ι → Prop) (hi : sets i)
    (hset : ∀ s j, sets j → (get (step s j) = some v ↔ j = i))
    (hkeep : ∀ s j, ¬sets j → get (step s j) = get s) (hs : get s = none) :
    get (l.foldl step s) = some v ↔
      ∃ before after, l = before ++ i :: after ∧ ∀ j ∈ after, ¬sets j := by
  induction l using List.reverseRecOn with
  | nil => simp [hs]
  | append_singleton l last ih =>
    rw [List.foldl_append, List.foldl_cons, List.foldl_nil]
    constructor
    · intro hget
      by_cases hlast : sets last
      · rw [(hset _ _ hlast).mp hget]
        exact ⟨l, [], rfl, fun j hj => by cases hj⟩
      · rw [hkeep _ _ hlast] at hget
        obtain ⟨before, after, rfl, hafter⟩ := ih.mp hget
        refine ⟨before, after ++ [last], by simp, fun j hj => ?_⟩
        rcases List.mem_append.mp hj with hj | hj
        · exact hafter j hj
        · rw [List.mem_singleton.mp hj]
          exact hlast
    · intro hsplit
      obtain ⟨before, after, heq, hafter⟩ := hsplit
      rcases List.eq_nil_or_concat after with rfl | ⟨after, last', rfl⟩
      · obtain ⟨-, hlast⟩ := List.append_inj' heq rfl
        cases hlast
        exact (hset _ _ hi).mpr rfl
      · rw [List.concat_eq_append, ← List.cons_append, ← List.append_assoc] at heq
        obtain ⟨rfl, hlast⟩ := List.append_inj' heq rfl
        cases hlast
        rw [List.concat_eq_append] at hafter
        rw [hkeep _ _ (hafter last (by simp))]
        exact ih.mpr ⟨before, after, rfl, fun j hj => hafter j (by simp [hj])⟩

/-- Two places of one step in a list, neither of which is followed by it, are the same. -/
theorem after_eq_of_last (h : before ++ i :: after = before' ++ i :: after') (hi : i ∉ after)
    (hi' : i ∉ after') : after = after' := by
  have hone : ∀ {l a a' : List ι}, i :: a = l ++ i :: a' → i ∉ a → a = a' := by
    intro l a a' heq ha
    cases l with
    | nil => exact (List.cons.inj heq).2
    | cons j l =>
      rw [(List.cons.inj heq).2] at ha
      exact (ha (by simp)).elim
  rcases List.append_eq_append_iff.mp h with ⟨l, -, heq⟩ | ⟨l, -, heq⟩
  · exact hone heq hi
  · exact (hone heq hi').symm

end NetTables.Lib
