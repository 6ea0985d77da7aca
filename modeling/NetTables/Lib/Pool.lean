import NetTables.Lib.Prog

namespace NetTables.Lib

/-- Tasks that share a state, mutexes and a channel: the state, who holds each mutex, what is on the
channel, and what is left of each task. -/
structure Pool (τ L M σ : Type) where
  shared : σ
  owner : L → Option τ
  queue : List M
  rest : τ → Prog L M σ Unit

namespace Pool

variable {τ L M σ : Type} [DecidableEq τ]

/-- Gives a task that has nothing left a program. -/
def start (S : Pool τ L M σ) (t : τ) (p : Prog L M σ Unit) : Pool τ L M σ :=
  { S with rest := Function.update S.rest t p }

section Start

variable {S : Pool τ L M σ} {t t' : τ}

@[simp] theorem start_shared (p : Prog L M σ Unit) : (S.start t p).shared = S.shared := rfl

@[simp] theorem start_owner (p : Prog L M σ Unit) : (S.start t p).owner = S.owner := rfl

@[simp] theorem start_queue (p : Prog L M σ Unit) : (S.start t p).queue = S.queue := rfl

@[simp] theorem start_rest_self (p : Prog L M σ Unit) : (S.start t p).rest t = p :=
  Function.update_self ..

theorem start_rest_of_ne (p : Prog L M σ Unit) (hne : t' ≠ t) :
    (S.start t p).rest t' = S.rest t' := Function.update_of_ne hne ..

end Start

variable [DecidableEq L]

/-- Hands a mutex to a task, or frees it. -/
def give (S : Pool τ L M σ) (l : L) (holder : Option τ) : Pool τ L M σ :=
  { S with owner := Function.update S.owner l holder }

omit [DecidableEq τ] in
@[simp] theorem give_owner (S : Pool τ L M σ) (l l' : L) (holder : Option τ) :
    (S.give l holder).owner l' = if l' = l then holder else S.owner l' := by
  simp only [give, Function.update_apply]

/-- The next step of task `t`. A mutex has to be free, and a message needs room on the channel. -/
inductive Moves (capacity : Nat) (t : τ) : Pool τ L M σ → Pool τ L M σ → Prop where
  | act {S f next} (h : S.rest t = .act f next) :
      Moves capacity t S { S.start t (next S.shared) with shared := f S.shared }
  | lock {S l next} (h : S.rest t = .lock l next) (hfree : S.owner l = none) :
      Moves capacity t S ((S.start t next).give l (some t))
  | unlock {S l next} (h : S.rest t = .unlock l next) :
      Moves capacity t S ((S.start t next).give l none)
  | send {S m next} (h : S.rest t = .send m next) (hroom : S.queue.length < capacity) :
      Moves capacity t S { S.start t next with queue := S.queue ++ [m] }

section Moves

variable {capacity n : Nat} {S S' : Pool τ L M σ} {t t' : τ}

/-- The other tasks stay where they are. -/
theorem Moves.rest_of_ne (h : Moves capacity t S S') (hne : t' ≠ t) : S'.rest t' = S.rest t' := by
  cases h <;> exact start_rest_of_ne _ hne

/-- A task that has nothing left does not go on. -/
theorem Moves.not_done (h : Moves capacity t S S') : S.rest t ≠ .pure () := by
  intro hdone
  cases h with
  | act hrest | lock hrest | unlock hrest | send hrest =>
    rw [hrest] at hdone
    cases hdone

/-- A step that sends nothing leaves the channel as it is. -/
theorem Moves.queue_eq (h : Moves capacity t S S') (hsend : ∀ m next, S.rest t ≠ .send m next) :
    S'.queue = S.queue := by
  cases h with
  | send hrest => exact absurd hrest (hsend _ _)
  | _ => rfl

section Inversion

variable {next : Prog L M σ Unit}

theorem Moves.eq_of_act {f : σ → σ} {next : σ → Prog L M σ Unit} (h : Moves capacity t S S')
    (hrest : S.rest t = .act f next) :
    S' = { S.start t (next S.shared) with shared := f S.shared } := by
  cases h with
  | act h =>
    rw [hrest] at h
    cases h
    rfl
  | lock h | unlock h | send h =>
    rw [hrest] at h
    cases h

theorem Moves.eq_of_lock {l : L} (h : Moves capacity t S S') (hrest : S.rest t = .lock l next) :
    S' = (S.start t next).give l (some t) := by
  cases h with
  | lock h =>
    rw [hrest] at h
    cases h
    rfl
  | act h | unlock h | send h =>
    rw [hrest] at h
    cases h

theorem Moves.eq_of_unlock {l : L} (h : Moves capacity t S S')
    (hrest : S.rest t = .unlock l next) : S' = (S.start t next).give l none := by
  cases h with
  | unlock h =>
    rw [hrest] at h
    cases h
    rfl
  | act h | lock h | send h =>
    rw [hrest] at h
    cases h

theorem Moves.eq_of_send {m : M} (h : Moves capacity t S S') (hrest : S.rest t = .send m next) :
    S' = { S.start t next with queue := S.queue ++ [m] } := by
  cases h with
  | send h =>
    rw [hrest] at h
    cases h
    rfl
  | act h | lock h | unlock h =>
    rw [hrest] at h
    cases h

end Inversion

theorem Moves.length_queue (h : Moves capacity t S S') :
    S'.queue.length ≤ S.queue.length + 1 := by
  cases h with
  | send => exact (List.length_append).le
  | _ => exact Nat.le_succ _

/-- A message that is sent is one less to send. -/
theorem Moves.atMost (h : Moves capacity t S S') (hn : (S.rest t).AtMost n) :
    ∃ n', (S'.rest t).AtMost n' ∧ S'.queue.length + n' = S.queue.length + n := by
  cases h with
  | act hrest =>
    rw [hrest] at hn
    exact ⟨n, by rw [start_rest_self]; exact hn S.shared, rfl⟩
  | lock hrest | unlock hrest =>
    rw [hrest] at hn
    refine ⟨n, ?_, rfl⟩
    simp only [give, start_rest_self]
    exact hn
  | send hrest =>
    rw [hrest] at hn
    refine ⟨n - 1, by rw [start_rest_self]; exact hn.2, ?_⟩
    have hpos := hn.1
    simp only [List.length_append, List.length_singleton]
    omega

section All

variable {P : (σ → σ) → Prop} {Q : M → Prop}

omit [DecidableEq L] in
theorem all_start {p : Prog L M σ Unit} (hall : ∀ t, (S.rest t).All P Q) (hp : p.All P Q) :
    ∀ t', ((S.start t p).rest t').All P Q := by
  intro t'
  by_cases ht : t' = t
  · rw [ht, start_rest_self]
    exact hp
  · rw [start_rest_of_ne _ ht]
    exact hall t'

/-- What all tasks keep to, a step keeps to: it makes one of their changes, or none. -/
theorem Moves.all (h : Moves capacity t S S') (hall : ∀ t, (S.rest t).All P Q) :
    (∀ t, (S'.rest t).All P Q) ∧
      (S'.shared = S.shared ∨ ∃ f, P f ∧ S'.shared = f S.shared) := by
  have hself := hall t
  cases h with
  | act hrest =>
    rw [hrest] at hself
    exact ⟨all_start hall (hself.2 S.shared), .inr ⟨_, hself.1, rfl⟩⟩
  | lock hrest | unlock hrest =>
    rw [hrest] at hself
    exact ⟨all_start hall hself, .inl rfl⟩
  | send hrest =>
    rw [hrest] at hself
    exact ⟨all_start hall hself.2, .inl rfl⟩

/-- So does the channel. -/
theorem Moves.queue_all (h : Moves capacity t S S') (hall : ∀ t, (S.rest t).All P Q)
    (hqueue : ∀ m ∈ S.queue, Q m) : ∀ m ∈ S'.queue, Q m := by
  have hself := hall t
  cases h with
  | send hrest =>
    rw [hrest] at hself
    intro m hm
    rcases List.mem_append.mp hm with hold | hnew
    · exact hqueue m hold
    · rw [List.mem_singleton.mp hnew]
      exact hself.1
  | _ => exact hqueue

end All

end Moves

/-- The next step of a task, if it has one and need not wait. -/
def move (capacity : Nat) (t : τ) (S : Pool τ L M σ) : Option (Pool τ L M σ) :=
  match S.rest t with
  | .pure _ => none
  | .act f next => some { S.start t (next S.shared) with shared := f S.shared }
  | .lock l next => if (S.owner l).isNone then some ((S.start t next).give l (some t)) else none
  | .unlock l next => some ((S.start t next).give l none)
  | .send m next =>
    if S.queue.length < capacity then
      some { S.start t next with queue := S.queue ++ [m] }
    else
      none

theorem moves_of_move {capacity : Nat} {t : τ} {S S' : Pool τ L M σ}
    (h : S.move capacity t = some S') : Moves capacity t S S' := by
  unfold move at h
  split at h
  · cases h
  next hrest =>
    cases h
    exact .act hrest
  next hrest =>
    split_ifs at h with hfree
    cases h
    exact .lock hrest (Option.isNone_iff_eq_none.mp hfree)
  next hrest =>
    cases h
    exact .unlock hrest
  next hrest =>
    split_ifs at h with hroom
    cases h
    exact .send hrest hroom

/-- The task waits for room on the channel. -/
def Full (capacity : Nat) (S : Pool τ L M σ) (t : τ) : Prop :=
  capacity ≤ S.queue.length ∧ ∃ m next, S.rest t = .send m next

/-- The task waits for a mutex that the other holds. -/
def Waits (S : Pool τ L M σ) (t t' : τ) : Prop :=
  ∃ l next, S.rest t = .lock l next ∧ S.owner l = some t'

/-- Only room on the channel can free the task: it waits for that, or for a mutex whose holder is
stuck itself. -/
inductive Stuck (capacity : Nat) (S : Pool τ L M σ) : τ → Prop where
  | full {t} (h : S.Full capacity t) : Stuck capacity S t
  | waits {t t'} (h : S.Waits t t') (hstuck : Stuck capacity S t') : Stuck capacity S t

/-- The task that this one waits for. -/
def waitsFor (S : Pool τ L M σ) (t : τ) : Option τ :=
  match S.rest t with
  | .lock l _ => S.owner l
  | _ => none

omit [DecidableEq τ] [DecidableEq L] in
theorem waits_of_waitsFor {S : Pool τ L M σ} {t t' : τ} (h : S.waitsFor t = some t') :
    S.Waits t t' := by
  unfold waitsFor at h
  split at h
  next l next hrest => exact ⟨l, next, hrest, h⟩
  · cases h

end Pool

end NetTables.Lib
