import Mathlib.Algebra.Group.Defs
import Mathlib.Logic.Basic

namespace NetTables.Lib

variable {σ ι κ : Type} [Add κ]

/-- A run of a transition system. Every step meets the guard, and the run adds up what its steps
cost, on top of what the start did. -/
inductive Run (init : σ → Prop) (step : σ → ι → σ → Prop) (price : σ → κ) (cost : σ → σ → κ)
    (guard : σ → ι → Prop) : κ → σ → Prop where
  | start {s : σ} (h : init s) : Run init step price cost guard (price s) s
  | step {k : κ} {s t : σ} {i : ι} (run : Run init step price cost guard k s) (hg : guard s i)
      (h : step s i t) : Run init step price cost guard (k + cost s t) t

namespace Run

variable {init : σ → Prop} {step : σ → ι → σ → Prop} {price : σ → κ} {cost : σ → σ → κ}
  {guard guard' : σ → ι → Prop} {k : κ} {s : σ}

/-- What holds at the start and is kept by every step of the run holds of every state reached. -/
theorem invariant (I : κ → σ → Prop) (run : Run init step price cost guard k s)
    (hstart : ∀ s, init s → I (price s) s)
    (hstep : ∀ k s i t, Run init step price cost guard k s → I k s → guard s i → step s i t →
      I (k + cost s t) t) : I k s := by
  induction run with
  | start h => exact hstart _ h
  | step run hg h ih => exact hstep _ _ _ _ run ih hg h

/-- The runs of a system that carry a record along, to which every step adds what `note` says. -/
abbrev Carrying {ρ : Type} (first : ρ) (note : ρ → σ → ι → σ → ρ) (init : σ → Prop)
    (step : σ → ι → σ → Prop) (price : σ → κ) (cost : σ → σ → κ) (guard : σ → ι → Prop) :
    κ → ρ × σ → Prop :=
  Run (fun p : ρ × σ => p.1 = first ∧ init p.2)
    (fun p i q => step p.2 i q.2 ∧ q.1 = note p.1 p.2 i q.2) (fun p => price p.2)
    (fun p q => cost p.2 q.2) fun p i => guard p.2 i

section Carrying

variable {ρ : Type} {first : ρ} {note : ρ → σ → ι → σ → ρ}

theorem Carrying.run {p : ρ × σ} (run : Carrying first note init step price cost guard k p) :
    Run init step price cost guard k p.2 := by
  induction run with
  | start h => exact .start h.2
  | step _ hg h ih => exact .step ih hg h.1

theorem carrying_step {r : ρ} {t : σ} {i : ι}
    (run : Carrying first note init step price cost guard k (r, s)) (h : step s i t)
    (hg : guard s i) :
    Carrying first note init step price cost guard (k + cost s t) (note r s i t, t) :=
  Run.step (t := (note r s i t, t)) run hg ⟨h, rfl⟩

/-- Every run carries some record. -/
theorem exists_carrying (first : ρ) (note : ρ → σ → ι → σ → ρ)
    (run : Run init step price cost guard k s) :
    ∃ r, Carrying first note init step price cost guard k (r, s) := by
  induction run with
  | @start s h => exact ⟨first, Run.start (s := (first, s)) ⟨rfl, h⟩⟩
  | step _ hg h ih =>
    obtain ⟨r, hr⟩ := ih
    exact ⟨_, carrying_step hr h hg⟩

end Carrying

/-- The runs of a system together with the record of their steps: the state before each step, and
its label. -/
abbrev Logged (init : σ → Prop) (step : σ → ι → σ → Prop) (price : σ → κ) (cost : σ → σ → κ)
    (guard : σ → ι → Prop) : κ → List (σ × ι) × σ → Prop :=
  Run (fun p : List (σ × ι) × σ => p.1 = [] ∧ init p.2)
    (fun p i q => step p.2 i q.2 ∧ q.1 = p.1 ++ [(p.2, i)]) (fun p => price p.2)
    (fun p q => cost p.2 q.2) fun p i => guard p.2 i

theorem Logged.run {p : List (σ × ι) × σ} (run : Logged init step price cost guard k p) :
    Run init step price cost guard k p.2 := by
  have hcarry : Carrying [] (fun log s i _ => log ++ [(s, i)]) init step price cost guard k p := run
  exact hcarry.run

/-- The run has come to every state of the record. -/
theorem Logged.passes {p : List (σ × ι) × σ} (run : Logged init step price cost guard k p) {v : σ}
    {i : ι} (h : (v, i) ∈ p.1) : ∃ k', Run init step price cost guard k' v := by
  induction run with
  | start hinit =>
    rw [hinit.1] at h
    cases h
  | step before _ hs ih =>
    rw [hs.2] at h
    rcases List.mem_append.mp h with hold | hnew
    · exact ih hold
    · cases List.mem_singleton.mp hnew
      exact ⟨_, Logged.run before⟩

theorem logged_step {log : List (σ × ι)} {t : σ} {i : ι}
    (run : Logged init step price cost guard k (log, s)) (h : step s i t) (hg : guard s i) :
    Logged init step price cost guard (k + cost s t) (log ++ [(s, i)], t) :=
  Run.step (t := (log ++ [(s, i)], t)) run hg ⟨h, rfl⟩

theorem mono (run : Run init step price cost guard k s) (hg : ∀ s i, guard s i → guard' s i) :
    Run init step price cost guard' k s := by
  induction run with
  | start h => exact .start h
  | step _ h hs ih => exact .step ih (hg _ _ h) hs

end Run

end NetTables.Lib
