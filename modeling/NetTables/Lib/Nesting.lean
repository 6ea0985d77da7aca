import NetTables.Lib.Pool
import Mathlib.Order.WellFounded

namespace NetTables.Lib

namespace Prog

variable {L M σ α β : Type} [DecidableEq L] {E : L → L → Prop} {quiet : List L → Prop}

/-- Takes a mutex only where `E` allows it under every mutex that is held, and sends only where it
is quiet about those. It starts with the first mutexes and ends with the last. -/
def Nests (E : L → L → Prop) (quiet : List L → Prop) : List L → Prog L M σ α → List L → Prop
  | held, .pure _, last => held = last
  | held, .act _ next, last => ∀ s, (next s).Nests E quiet held last
  | held, .lock l next, last => (∀ a ∈ held, E a l) ∧ next.Nests E quiet (l :: held) last
  | held, .unlock l next, last => next.Nests E quiet (held.erase l) last
  | held, .send _ next, last => quiet held ∧ next.Nests E quiet held last

theorem Nests.bind {p : Prog L M σ α} {g : α → Prog L M σ β} {held mid last : List L}
    (h : p.Nests E quiet held mid) (hg : ∀ a, (g a).Nests E quiet mid last) :
    (p >>= g).Nests E quiet held last := by
  induction p generalizing held with
  | pure a =>
    have heq : held = mid := h
    rw [heq]
    exact hg a
  | act f next ih => exact fun s => ih s (h s)
  | lock l next ih => exact ⟨h.1, ih h.2⟩
  | unlock l next ih => exact ih h
  | send m next ih => exact ⟨h.1, ih h.2⟩

theorem Nests.mono {E' : L → L → Prop} {p : Prog L M σ α} {held last : List L}
    (h : p.Nests E quiet held last) (hE : ∀ a b, E a b → E' a b) :
    p.Nests E' quiet held last := by
  induction p generalizing held with
  | pure a => exact h
  | act f next ih => exact fun s => ih s (h s)
  | lock l next ih => exact ⟨fun a ha => hE a l (h.1 a ha), ih h.2⟩
  | unlock l next ih => exact ih h
  | send m next ih => exact ⟨h.1, ih h.2⟩

end Prog

namespace Pool

variable {τ L M σ : Type} [DecidableEq L] {E : L → L → Prop} {quiet : List L → Prop}
  {S S' : Pool τ L M σ} {t t' : τ} {capacity : Nat}

/-- The task nests its mutexes in this way, and holds what it is known to hold. -/
def Keeps (S : Pool τ L M σ) (E : L → L → Prop) (quiet : List L → Prop) (t : τ) : Prop :=
  ∃ held, (S.rest t).Nests E quiet held [] ∧ ∀ l, S.owner l = some t → l ∈ held

section Keeps

theorem Keeps.mono {E' : L → L → Prop} (h : S.Keeps E quiet t) (hE : ∀ a b, E a b → E' a b) :
    S.Keeps E' quiet t := by
  obtain ⟨held, hnests, howner⟩ := h
  exact ⟨held, hnests.mono hE, howner⟩

/-- Every mutex that a task holds allows the one that it waits for. -/
theorem Keeps.allows (h : S.Keeps E quiet t) {a l : L} {next : Prog L M σ Unit}
    (hrest : S.rest t = .lock l next) (howner : S.owner a = some t) : E a l := by
  obtain ⟨held, hnests, hheld⟩ := h
  rw [hrest] at hnests
  exact hnests.1 a (hheld a howner)

variable [DecidableEq τ]

/-- A program started by another task. -/
theorem Keeps.start_of_ne (h : S.Keeps E quiet t) (p : Prog L M σ Unit) (hne : t ≠ t') :
    (S.start t' p).Keeps E quiet t := by
  obtain ⟨held, hnests, howner⟩ := h
  refine ⟨held, ?_, howner⟩
  rwa [start_rest_of_ne p hne]

/-- A program started by a task that has nothing left. -/
theorem Keeps.start_self {E' : L → L → Prop} (h : S.Keeps E quiet t) {p : Prog L M σ Unit}
    (hdone : S.rest t = .pure ()) (hp : p.Nests E' quiet [] []) :
    (S.start t p).Keeps E' quiet t := by
  obtain ⟨held, hnests, howner⟩ := h
  rw [hdone] at hnests
  have hnone : held = [] := hnests
  refine ⟨[], by rwa [start_rest_self], fun l hl => ?_⟩
  rw [← hnone]
  exact howner l hl

/-- A program started by any task that has nothing left. -/
theorem Keeps.start (h : S.Keeps E quiet t) {p : Prog L M σ Unit} (hdone : S.rest t' = .pure ())
    (hp : p.Nests E quiet [] []) : (S.start t' p).Keeps E quiet t := by
  by_cases heq : t = t'
  · subst heq
    exact h.start_self hdone hp
  · exact h.start_of_ne p heq

theorem Keeps.moves (h : S.Keeps E quiet t) (hm : Moves capacity t' S S') :
    S'.Keeps E quiet t := by
  obtain ⟨held, hnests, howner⟩ := h
  by_cases heq : t = t'
  · subst heq
    cases hm with
    | act hrest =>
      rw [hrest] at hnests
      refine ⟨held, ?_, howner⟩
      rw [start_rest_self]
      exact hnests S.shared
    | @lock l next hrest hfree =>
      rw [hrest] at hnests
      refine ⟨l :: held, ?_, fun l' hl' => ?_⟩
      · show ((S.start t next).rest t).Nests E quiet (l :: held) []
        rw [start_rest_self]
        exact hnests.2
      · rw [give_owner] at hl'
        split_ifs at hl' with hll
        · rw [hll]
          exact List.mem_cons_self ..
        · exact List.mem_cons_of_mem _ (howner l' hl')
    | @unlock l next hrest =>
      rw [hrest] at hnests
      refine ⟨held.erase l, ?_, fun l' hl' => ?_⟩
      · show ((S.start t next).rest t).Nests E quiet (held.erase l) []
        rw [start_rest_self]
        exact hnests
      · rw [give_owner] at hl'
        split_ifs at hl' with hll
        exact (List.mem_erase_of_ne hll).mpr (howner l' hl')
    | send hrest hroom =>
      rw [hrest] at hnests
      refine ⟨held, ?_, howner⟩
      rw [start_rest_self]
      exact hnests.2
  · refine ⟨held, ?_, fun l hl => howner l ?_⟩
    · rw [hm.rest_of_ne heq]
      exact hnests
    · cases hm with
      | act => exact hl
      | send => exact hl
      | lock =>
        rw [give_owner] at hl
        split_ifs at hl
        · exact absurd (Option.some.inj hl).symm heq
        · exact hl
      | unlock =>
        rw [give_owner] at hl
        split_ifs at hl
        exact hl

end Keeps

section Stuck

/-- The task holds one mutex at most, and none where it waits or sends. -/
abbrev Brief (S : Pool τ L M σ) (t : τ) : Prop := S.Keeps (fun _ _ => False) (· = []) t

/-- Such a task holds nothing where it waits for a mutex or for room. -/
theorem Brief.not_owner (h : S.Brief t) (hwait : (∃ l next, S.rest t = .lock l next) ∨
    ∃ m next, S.rest t = .send m next) (l : L) : S.owner l ≠ some t := by
  intro howner
  rcases hwait with ⟨l', next, hrest⟩ | ⟨m, next, hrest⟩
  · exact h.allows hrest howner
  · obtain ⟨held, hnests, hheld⟩ := h
    rw [hrest] at hnests
    have hmem := hheld l howner
    rw [hnests.1] at hmem
    cases hmem

/-- As far as the tasks that may hold a mutex while they send have room, and the others hold none,
nobody waits for a task that is stuck. -/
theorem not_stuck {room : τ → Prop} (hroom : ∀ t, room t → ¬S.Full capacity t)
    (hbrief : ∀ t, ¬room t → S.Brief t) (ht : room t) : ¬S.Stuck capacity t := by
  suffices h : ∀ t, S.Stuck capacity t → ∀ l, S.owner l ≠ some t ∧ ¬room t from
    fun hstuck => by
      have hne := h t hstuck
      cases hstuck with
      | full hfull => exact hroom t ht hfull
      | waits hw hs =>
        obtain ⟨l, next, hrest, howner⟩ := hw
        exact (h _ hs l).1 howner
  intro t hstuck
  induction hstuck with
  | @full t hfull =>
    intro l
    have hnot : ¬room t := fun ht => hroom t ht hfull
    exact ⟨(hbrief t hnot).not_owner (.inr hfull.2) l, hnot⟩
  | waits hw hs ih =>
    intro l
    obtain ⟨l', next, hrest, howner⟩ := hw
    exact absurd howner (ih l').1

end Stuck

section Deadlock

omit [DecidableEq L] in
/-- Tasks of which each waits for a mutex that one of them holds. -/
def Deadlocked (S : Pool τ L M σ) (set : Set τ) : Prop :=
  set.Nonempty ∧ ∀ t ∈ set, ∃ t' ∈ set, S.Waits t t'

/-- Tasks that all nest their mutexes in one well-founded way do not wait for each other. -/
theorem not_deadlocked {set : Set τ} (hE : WellFounded fun a b => E b a)
    (h : ∀ t ∈ set, S.Keeps E quiet t) : ¬S.Deadlocked set := by
  intro ⟨⟨t, ht⟩, hwaits⟩
  suffices hnone : ∀ l, ∀ t ∈ set, ∀ next, S.rest t ≠ .lock l next by
    obtain ⟨t', -, l, next, hrest, -⟩ := hwaits t ht
    exact hnone l t ht next hrest
  intro l
  induction l using hE.induction with
  | _ l ih =>
    intro t ht next hrest
    -- the one that holds the mutex waits for another that may be taken under it
    obtain ⟨t', ht', l', next', hrest', howner⟩ := hwaits t ht
    rw [hrest] at hrest'
    cases hrest'
    obtain ⟨-, -, m, next'', hrest'', -⟩ := hwaits t' ht'
    have hallows : E l m := (h t' ht').allows hrest'' howner
    exact ih m hallows t' ht' next'' hrest''

/-- Tasks that all take their mutexes in the order of one list do not wait for each other. -/
theorem not_deadlocked_of_order {set : Set τ} (order : List L)
    (h : ∀ t ∈ set, S.Keeps (fun a b => order.idxOf a < order.idxOf b) quiet t) :
    ¬S.Deadlocked set := by
  apply not_deadlocked _ h
  apply Subrelation.wf _ (measure fun l => order.length - order.idxOf l).wf
  intro a b hlt
  have hle := List.idxOf_le_length (a := a) (l := order)
  show order.length - order.idxOf a < order.length - order.idxOf b
  omega

end Deadlock

end Pool

end NetTables.Lib
