import NetTables.Lib.Pool
import Mathlib.Logic.Relation
import Mathlib.Data.List.Basic

namespace NetTables.Lib

/-- A list of turns, each of which makes a step. -/
theorem reflTransGen_foldlM {σ ι : Type*} {r : σ → σ → Prop} {take : σ → ι → Option σ}
    (htake : ∀ s i s', take s i = some s' → r s s') {turns : List ι} {s s' : σ}
    (h : turns.foldlM take s = some s') : Relation.ReflTransGen r s s' := by
  induction turns generalizing s with
  | nil =>
    cases h
    exact .refl
  | cons i turns ih =>
    obtain ⟨s₁, hfirst, hrest⟩ := Option.bind_eq_some_iff.mp h
    exact .head (htake _ _ _ hfirst) (ih hrest)

/-- What tasks may rely on: what each of them may do to the state in one step under the mutexes that
it holds, what the state keeps up for each mutex while that is free, when a task may take it, and
how a task that has nothing to do has left the state. -/
structure Protocol (τ L σ : Type) where
  allows : τ → List L → σ → σ → Prop
  inv : L → σ → Prop
  may : τ → L → σ → Prop
  idle : τ → σ → Prop
  inv_of_allows : ∀ {t held s s' l}, allows t held s s' → l ∉ held → inv l s → inv l s'
  idle_of_allows : ∀ {t t' held s s'}, t' ≠ t → allows t' held s s' → idle t s → idle t s'

variable {τ L M σ α β : Type} {R : Protocol τ L σ} {t : τ} {held : List L} {s s' : σ}

namespace Protocol

/-- A step of a task other than `t`, which holds none of the mutexes that `t` holds. -/
def Foreign (R : Protocol τ L σ) (t : τ) (held : List L) (s s' : σ) : Prop :=
  ∃ t' held', t' ≠ t ∧ (∀ l ∈ held', l ∉ held) ∧ R.allows t' held' s s'

/-- What the other tasks do to the state meanwhile. -/
def Others (R : Protocol τ L σ) (t : τ) (held : List L) : σ → σ → Prop :=
  Relation.ReflTransGen (R.Foreign t held)

/-- What no other task changes. -/
def Stable (R : Protocol τ L σ) (t : τ) (held : List L) (P : σ → Prop) : Prop :=
  ∀ s s', R.Foreign t held s s' → P s → P s'

theorem stable_idle (R : Protocol τ L σ) (t : τ) (held : List L) : R.Stable t held (R.idle t) := by
  intro s s' h hs
  obtain ⟨t', held', hne, -, hallowed⟩ := h
  exact R.idle_of_allows hne hallowed hs

theorem Stable.others {P : σ → Prop} (hP : R.Stable t held P) (h : R.Others t held s s')
    (hs : P s) : P s' := by
  induction h with
  | refl => exact hs
  | tail _ hstep ih => exact hP _ _ hstep ih

end Protocol

namespace Prog

variable [DecidableEq L] {now : List L → σ → Prop}

/-- Task `t` keeps to the protocol, whatever the others do meanwhile, and comes to `Q`. A mutex that
it gets has its invariant, and has it again where it is given back; `now` holds all along. -/
def Safe (R : Protocol τ L σ) (now : List L → σ → Prop) (t : τ) :
    Prog L M σ α → List L → σ → (α → List L → σ → Prop) → Prop
  | .pure a, held, s, Q => Q a held s
  | .act f next, held, s, Q => ∀ s', R.Others t held s s' →
      now held s' ∧ R.allows t held s' (f s') ∧ (next s').Safe R now t held (f s') Q
  | .lock l next, held, s, Q => ∀ s', R.Others t held s s' →
      now held s' ∧ (R.inv l s' → R.may t l s' → next.Safe R now t (l :: held) s' Q)
  | .unlock l next, held, s, Q => ∀ s', R.Others t held s s' →
      now held s' ∧ l ∈ held ∧ R.inv l s' ∧ next.Safe R now t (held.erase l) s' Q
  | .send _ next, held, s, Q => ∀ s', R.Others t held s s' →
      now held s' ∧ next.Safe R now t held s' Q

section Safe

variable {p : Prog L M σ α} {g : α → Prog L M σ β} {Q Q' : α → List L → σ → Prop}

theorem Safe.mono (h : p.Safe R now t held s Q) (hQ : ∀ a held s, Q a held s → Q' a held s) :
    p.Safe R now t held s Q' := by
  induction p generalizing held s with
  | pure a => exact hQ a held s h
  | act f next ih =>
    intro s' hs'
    obtain ⟨hnow, hg, hnext⟩ := h s' hs'
    exact ⟨hnow, hg, ih s' hnext⟩
  | lock l next ih =>
    intro s' hs'
    obtain ⟨hnow, hnext⟩ := h s' hs'
    exact ⟨hnow, fun hinv hmay => ih (hnext hinv hmay)⟩
  | unlock l next ih =>
    intro s' hs'
    obtain ⟨hnow, hmem, hinv, hnext⟩ := h s' hs'
    exact ⟨hnow, hmem, hinv, ih hnext⟩
  | send m next ih =>
    intro s' hs'
    obtain ⟨hnow, hnext⟩ := h s' hs'
    exact ⟨hnow, ih hnext⟩

/-- The rule of sequence. -/
theorem Safe.bind {Q : β → List L → σ → Prop}
    (h : p.Safe R now t held s fun a held s => (g a).Safe R now t held s Q) :
    (p >>= g).Safe R now t held s Q := by
  induction p generalizing held s with
  | pure a => exact h
  | act f next ih =>
    intro s' hs'
    obtain ⟨hnow, hg, hnext⟩ := h s' hs'
    exact ⟨hnow, hg, ih s' hnext⟩
  | lock l next ih =>
    intro s' hs'
    obtain ⟨hnow, hnext⟩ := h s' hs'
    exact ⟨hnow, fun hinv hmay => ih (hnext hinv hmay)⟩
  | unlock l next ih =>
    intro s' hs'
    obtain ⟨hnow, hmem, hinv, hnext⟩ := h s' hs'
    exact ⟨hnow, hmem, hinv, ih hnext⟩
  | send m next ih =>
    intro s' hs'
    obtain ⟨hnow, hnext⟩ := h s' hs'
    exact ⟨hnow, ih hnext⟩

/-- A program stays safe while others make their steps, if what it comes to does. -/
theorem Safe.others (h : p.Safe R now t held s Q) (hs : R.Others t held s s')
    (hQ : ∀ a, Q a held s → Q a held s') : p.Safe R now t held s' Q := by
  cases p with
  | pure a => exact hQ a h
  | _ => exact fun s'' hs'' => h s'' (Relation.ReflTransGen.trans hs hs'')

end Safe

end Prog

namespace Pool

variable [DecidableEq τ] [DecidableEq L] {now : τ → List L → σ → Prop} {S S' : Pool τ L M σ}
  {held : τ → List L} {capacity : Nat}

/-- Where a task has to come to. -/
def Rests (R : Protocol τ L σ) (t : τ) (_ : Unit) (held : List L) (s : σ) : Prop :=
  held = [] ∧ R.idle t s

omit [DecidableEq τ] [DecidableEq L] in
theorem Rests.others {held : List L} {s s' : σ} (h : R.Others t held s s')
    (hs : Rests R t () held s) : Rests R t () held s' :=
  ⟨hs.1, (R.stable_idle t held).others h hs.2⟩

/-- Every task is safe from here on under the mutexes that it holds, and the free mutexes have
their invariants. -/
structure Sound (R : Protocol τ L σ) (now : τ → List L → σ → Prop) (S : Pool τ L M σ)
    (held : τ → List L) : Prop where
  owner : ∀ l t, S.owner l = some t ↔ l ∈ held t
  nodup : ∀ t, (held t).Nodup
  safe : ∀ t, (S.rest t).Safe R (now t) t (held t) S.shared (Rests R t)
  free : ∀ l, S.owner l = none → R.inv l S.shared

namespace Sound

omit [DecidableEq τ] in
/-- No two tasks hold one mutex. -/
theorem disjoint (h : Sound R now S held) {t' : τ} (hne : t' ≠ t) :
    ∀ l ∈ held t', l ∉ held t := by
  intro l hl hl'
  have howner := (h.owner l t').mpr hl
  rw [(h.owner l t).mpr hl'] at howner
  exact hne (Option.some.inj howner).symm

/-- A task at a new program, and the others where they were. -/
theorem safe_start {p : Prog L M σ Unit} {held : τ → List L} {s : σ}
    (hself : p.Safe R (now t) t (held t) s (Rests R t))
    (hothers : ∀ t', t' ≠ t → (S.rest t').Safe R (now t') t' (held t') s (Rests R t')) (t' : τ) :
    ((S.start t p).rest t').Safe R (now t') t' (held t') s (Rests R t') := by
  by_cases heq : t' = t
  · subst heq
    rw [start_rest_self]
    exact hself
  · rw [start_rest_of_ne p heq]
    exact hothers t' heq

/-- A task that has nothing left begins a program. -/
theorem start (h : Sound R now S held) {p : Prog L M σ Unit} {now' : List L → σ → Prop}
    (hdone : S.rest t = .pure ())
    (hp : R.idle t S.shared → p.Safe R now' t [] S.shared (Rests R t)) :
    Sound R (Function.update now t now') (S.start t p) held := by
  have hrests := h.safe t
  rw [hdone] at hrests
  obtain ⟨hnone, hidle⟩ := hrests
  refine ⟨h.owner, h.nodup, safe_start ?_ ?_, h.free⟩
  · rw [Function.update_self, hnone]
    exact hp hidle
  · intro t' hne
    rw [Function.update_of_ne hne]
    exact h.safe t'

omit [DecidableEq τ] in
theorem not_mem_of_free (h : Sound R now S held) {l : L} (hl : S.owner l = none) (t : τ) :
    l ∉ held t := by
  intro hmem
  have howner := (h.owner l t).mpr hmem
  rw [hl] at howner
  cases howner

/-- A task takes a mutex that is free, or gives one back. -/
theorem give (h : Sound R now S held) {p : Prog L M σ Unit} {l : L} {holder : Option τ}
    {held' : List L} (hself : ∀ l', l' ∈ held' ↔ if l' = l then holder = some t else l' ∈ held t)
    (hnodup : held'.Nodup) (hothers : ∀ t', t' ≠ t → l ∉ held t' ∧ holder ≠ some t')
    (hfree : holder = none → R.inv l S.shared)
    (hp : p.Safe R (now t) t held' S.shared (Rests R t)) :
    Sound R now ((S.start t p).give l holder) (Function.update held t held') := by
  refine ⟨fun l' t' => ?_, fun t' => ?_, safe_start ?_ ?_, fun l' hl' => ?_⟩
  · rw [give_owner]
    by_cases heq : t' = t
    · subst heq
      rw [Function.update_self, hself]
      split_ifs
      · exact Iff.rfl
      · exact h.owner l' t'
    · rw [Function.update_of_ne heq]
      split_ifs with hl
      · subst hl
        exact iff_of_false (hothers t' heq).2 (hothers t' heq).1
      · exact h.owner l' t'
  · by_cases heq : t' = t
    · subst heq
      rw [Function.update_self]
      exact hnodup
    · rw [Function.update_of_ne heq]
      exact h.nodup t'
  · rw [Function.update_self]
    exact hp
  · intro t' hne
    rw [Function.update_of_ne hne]
    exact h.safe t'
  · rw [give_owner] at hl'
    split_ifs at hl' with hl
    · rw [hl]
      exact hfree hl'
    · exact h.free l' hl'

/-- Every step of a task leaves all of them safe, as long as it takes mutexes only when it may. -/
theorem moves (h : Sound R now S held) (hm : Moves capacity t S S')
    (hmay : ∀ l next, S.rest t = .lock l next → R.may t l S.shared) :
    ∃ held', Sound R now S' held' := by
  have hsafe := h.safe t
  cases hm with
  | @act f next hrest =>
    rw [hrest] at hsafe
    obtain ⟨-, hg, hnext⟩ := hsafe S.shared .refl
    refine ⟨held, h.owner, h.nodup, safe_start hnext fun t' hne => ?_, fun l hl => ?_⟩
    · have hstep : R.Others t' (held t') S.shared (f S.shared) :=
        .single ⟨t, held t, hne.symm, h.disjoint hne.symm, hg⟩
      exact (h.safe t').others hstep fun _ => Rests.others hstep
    · exact R.inv_of_allows hg (h.not_mem_of_free hl t) (h.free l hl)
  | @lock l next hrest hfree =>
    rw [hrest] at hsafe
    have hnot := h.not_mem_of_free hfree
    refine ⟨_, h.give (fun l' => ?_) (List.nodup_cons.mpr ⟨hnot t, h.nodup t⟩) (fun t' hne => ?_)
      nofun ((hsafe S.shared .refl).2 (h.free l hfree) (hmay l next hrest))⟩
    · rw [List.mem_cons]
      split_ifs with hl <;> simp [hl]
    · exact ⟨hnot t', fun heq => hne (Option.some.inj heq).symm⟩
  | @unlock l next hrest =>
    rw [hrest] at hsafe
    obtain ⟨-, hmem, hinvl, hnext⟩ := hsafe S.shared .refl
    refine ⟨_, h.give (fun l' => ?_) ((h.nodup t).erase l) (fun t' hne => ?_) (fun _ => hinvl)
      hnext⟩
    · rw [(h.nodup t).mem_erase_iff]
      split_ifs with hl <;> simp [hl]
    · exact ⟨fun hl => h.disjoint hne l hl hmem, nofun⟩
  | @send m next hrest hroom =>
    rw [hrest] at hsafe
    exact ⟨held, h.owner, h.nodup, safe_start (hsafe S.shared .refl).2 fun t' _ => h.safe t',
      h.free⟩

/-- What a step does to the state is allowed. -/
theorem allows_of_moves (h : Sound R now S held) (hm : Moves capacity t S S') :
    S'.shared = S.shared ∨ R.allows t (held t) S.shared S'.shared := by
  have hsafe := h.safe t
  cases hm with
  | act hrest =>
    rw [hrest] at hsafe
    exact .inr (hsafe S.shared .refl).2.1
  | lock | unlock | send => exact .inl rfl

omit [DecidableEq τ] in
/-- What holds all along a program holds now, for a task that has one. -/
theorem now_of_rest (h : Sound R now S held) (hrest : S.rest t ≠ .pure ()) :
    now t (held t) S.shared := by
  have hsafe := h.safe t
  revert hsafe hrest
  cases S.rest t with
  | pure => exact fun hrest => (hrest rfl).elim
  | _ => exact fun _ hsafe => (hsafe S.shared .refl).1

end Sound

end Pool

end NetTables.Lib
