import Mathlib.Algebra.GroupWithZero.Nat
import Mathlib.Data.Finset.Basic
import Mathlib.Logic.Function.Basic

namespace NetTables.Lib

/-- What is left of a task: its next steps on the mutexes `L`, a channel of messages `M` and the
shared state `σ`, up to its result. A step on the state hands the state it found to the rest. -/
inductive Prog (L M σ α : Type) where
  | pure (a : α)
  | act (f : σ → σ) (next : σ → Prog L M σ α)
  | lock (l : L) (next : Prog L M σ α)
  | unlock (l : L) (next : Prog L M σ α)
  | send (m : M) (next : Prog L M σ α)

namespace Prog

variable {L M σ α β γ : Type}

def bind : Prog L M σ α → (α → Prog L M σ β) → Prog L M σ β
  | .pure a, g => g a
  | .act f next, g => .act f fun s => (next s).bind g
  | .lock l next, g => .lock l (next.bind g)
  | .unlock l next, g => .unlock l (next.bind g)
  | .send m next, g => .send m (next.bind g)

instance : Monad (Prog L M σ) where
  pure := Prog.pure
  bind := Prog.bind

@[simp] theorem pure_eq (a : α) : (Pure.pure a : Prog L M σ α) = .pure a := rfl

section Bind

variable (g : α → Prog L M σ β)

@[simp] theorem pure_bind (a : α) : ((Prog.pure a : Prog L M σ α) >>= g) = g a := rfl

@[simp] theorem act_bind (f : σ → σ) (next : σ → Prog L M σ α) :
    (Prog.act f next >>= g) = .act f fun s => next s >>= g := rfl

@[simp] theorem lock_bind (l : L) (next : Prog L M σ α) :
    (Prog.lock l next >>= g) = .lock l (next >>= g) := rfl

@[simp] theorem unlock_bind (l : L) (next : Prog L M σ α) :
    (Prog.unlock l next >>= g) = .unlock l (next >>= g) := rfl

@[simp] theorem send_bind (m : M) (next : Prog L M σ α) :
    (Prog.send m next >>= g) = .send m (next >>= g) := rfl

theorem bind_assoc (p : Prog L M σ α) (g : α → Prog L M σ β) (k : β → Prog L M σ γ) :
    ((p >>= g) >>= k) = (p >>= fun a => g a >>= k) := by
  induction p with
  | pure a => rfl
  | act f next ih =>
    simp only [act_bind, ih]
  | lock l next ih => simp only [lock_bind, ih]
  | unlock l next ih => simp only [unlock_bind, ih]
  | send m next ih => simp only [send_bind, ih]

end Bind

/-- Looks at the state. -/
def read : Prog L M σ σ := .act id .pure

/-- Changes the state. -/
def write (f : σ → σ) : Prog L M σ Unit := .act f fun _ => .pure ()

def acquire (l : L) : Prog L M σ Unit := .lock l (.pure ())

def release (l : L) : Prog L M σ Unit := .unlock l (.pure ())

def put (m : M) : Prog L M σ Unit := .send m (.pure ())

section Steps

variable (g : Unit → Prog L M σ β)

@[simp] theorem read_bind (g : σ → Prog L M σ β) : (read >>= g) = .act id g := rfl

@[simp] theorem write_bind (f : σ → σ) : (write f >>= g) = .act f fun _ => g () := rfl

@[simp] theorem acquire_bind (l : L) : (acquire l >>= g) = .lock l (g ()) := rfl

@[simp] theorem release_bind (l : L) : (release l >>= g) = .unlock l (g ()) := rfl

@[simp] theorem put_bind (m : M) : (put m >>= g) = .send m (g ()) := rfl

end Steps

/-- `for a in l`. -/
def forEach : List α → (α → Prog L M σ Unit) → Prog L M σ Unit
  | [], _ => Pure.pure ()
  | a :: l, f => f a >>= fun _ => forEach l f

/-- The program alone, with every mutex free and room for its messages: its result, the state after
it and what it has sent. -/
def run : Prog L M σ α → σ → α × σ × List M
  | .pure a, s => (a, s, [])
  | .act f next, s => (next s).run (f s)
  | .lock _ next, s => next.run s
  | .unlock _ next, s => next.run s
  | .send m next, s =>
    let (a, s', sent) := next.run s
    (a, s', m :: sent)

def isDone : Prog L M σ α → Bool
  | .pure _ => true
  | _ => false

theorem eq_pure_of_isDone {p : Prog L M σ Unit} (h : p.isDone = true) : p = .pure () := by
  cases p with
  | pure => rfl
  | _ => cases h

/-- The message that the next step sends. -/
def sending : Prog L M σ α → Option M
  | .send m _ => some m
  | _ => none

theorem exists_send {p : Prog L M σ α} {m : M} (h : p.sending = some m) :
    ∃ next, p = .send m next := by
  cases p with
  | send m' next =>
    cases h
    exact ⟨next, rfl⟩
  | _ => cases h

/-- Every step on the state is one of `P`, and every message one of `Q`. -/
def All (P : (σ → σ) → Prop) (Q : M → Prop) : Prog L M σ α → Prop
  | .pure _ => True
  | .act f next => P f ∧ ∀ s, (next s).All P Q
  | .lock _ next => next.All P Q
  | .unlock _ next => next.All P Q
  | .send m next => Q m ∧ next.All P Q

/-- Every step on the state up to the first message of `stop` is one of `P`. -/
def Until (stop : M → Prop) (P : (σ → σ) → Prop) : Prog L M σ α → Prop
  | .pure _ => True
  | .act f next => P f ∧ ∀ s, (next s).Until stop P
  | .lock _ next => next.Until stop P
  | .unlock _ next => next.Until stop P
  | .send m next => stop m ∨ next.Until stop P

/-- From states of `I` on it comes to a message of `Q`, whatever it finds. -/
def Comes (I : σ → Prop) (Q : M → Prop) : Prog L M σ α → Prop
  | .pure _ => False
  | .act _ next => ∀ s, I s → (next s).Comes I Q
  | .lock _ next => next.Comes I Q
  | .unlock _ next => next.Comes I Q
  | .send m next => Q m ∨ next.Comes I Q

/-- It sends at most `n` messages. -/
def AtMost : Nat → Prog L M σ α → Prop
  | _, .pure _ => True
  | n, .act _ next => ∀ s, (next s).AtMost n
  | n, .lock _ next => next.AtMost n
  | n, .unlock _ next => next.AtMost n
  | n, .send _ next => 0 < n ∧ next.AtMost (n - 1)

section AtMost

variable {p : Prog L M σ α} {g : α → Prog L M σ β} {m n : Nat}

theorem AtMost.mono (h : p.AtMost n) (hle : n ≤ m) : p.AtMost m := by
  induction p generalizing n m with
  | pure => trivial
  | act f next ih => exact fun s => ih s (h s) hle
  | lock l next ih => exact ih h hle
  | unlock l next ih => exact ih h hle
  | send msg next ih =>
    obtain ⟨hn, h⟩ := h
    exact ⟨by omega, ih h (by omega)⟩

theorem AtMost.bind (h : p.AtMost n) (hg : ∀ a, (g a).AtMost m) : (p >>= g).AtMost (n + m) := by
  induction p generalizing n with
  | pure a => exact (hg a).mono (Nat.le_add_left m n)
  | act f next ih => exact fun s => ih s (h s)
  | lock l next ih => exact ih h
  | unlock l next ih => exact ih h
  | send msg next ih =>
    obtain ⟨hn, h⟩ := h
    refine ⟨by omega, ?_⟩
    have heq : n + m - 1 = n - 1 + m := by omega
    rw [heq]
    exact ih h

theorem atMost_forEach {l : List β} {f : β → Prog L M σ Unit} {size : β → Nat}
    (hf : ∀ b, (f b).AtMost (size b)) : (forEach l f).AtMost (l.map size).sum := by
  induction l with
  | nil => trivial
  | cons b l ih => exact (hf b).bind fun _ => ih

end AtMost

section All

variable {P : (σ → σ) → Prop} {Q stop : M → Prop} {p : Prog L M σ α} {g : α → Prog L M σ β}

theorem All.bind (h : p.All P Q) (hg : ∀ a, (g a).All P Q) : (p >>= g).All P Q := by
  induction p with
  | pure a => exact hg a
  | act f next ih => exact ⟨h.1, fun s => ih s (h.2 s)⟩
  | lock l next ih => exact ih h
  | unlock l next ih => exact ih h
  | send m next ih => exact ⟨h.1, ih h.2⟩

theorem all_forEach {l : List β} {f : β → Prog L M σ Unit} (hf : ∀ b ∈ l, (f b).All P Q) :
    (forEach l f).All P Q := by
  induction l with
  | nil => trivial
  | cons b l ih =>
    exact (hf b (List.mem_cons_self ..)).bind fun _ =>
      ih fun c hc => hf c (List.mem_cons_of_mem _ hc)

theorem All.mono {P' : (σ → σ) → Prop} {Q' : M → Prop} (h : p.All P Q) (hP : ∀ f, P f → P' f)
    (hQ : ∀ m, Q m → Q' m) : p.All P' Q' := by
  induction p with
  | pure => trivial
  | act f next ih => exact ⟨hP f h.1, fun s => ih s (h.2 s)⟩
  | lock l next ih => exact ih h
  | unlock l next ih => exact ih h
  | send m next ih => exact ⟨hQ m h.1, ih h.2⟩

theorem All.until (h : p.All P Q) : p.Until stop P := by
  induction p with
  | pure => trivial
  | act f next ih => exact ⟨h.1, fun s => ih s (h.2 s)⟩
  | lock l next ih => exact ih h
  | unlock l next ih => exact ih h
  | send m next ih => exact .inr (ih h.2)

/-- What comes to a message still does so behind another program. -/
theorem comes_bind {I : σ → Prop} (p : Prog L M σ α) (hg : ∀ a, (g a).Comes I Q) :
    (p >>= g).Comes I Q := by
  induction p with
  | pure a => exact hg a
  | act f next ih => exact fun s _ => ih s
  | lock l next ih => exact ih
  | unlock l next ih => exact ih
  | send m next ih => exact .inr ih

end All

section Run

variable {p : Prog L M σ α} {g : α → Prog L M σ β} {s : σ}

theorem run_bind (p : Prog L M σ α) (g : α → Prog L M σ β) (s : σ) :
    (p >>= g).run s =
      let (a, s', sent) := p.run s
      let (b, s'', more) := (g a).run s'
      (b, s'', sent ++ more) := by
  induction p generalizing s with
  | pure a => rfl
  | act f next ih => exact ih s (f s)
  | lock l next ih => exact ih s
  | unlock l next ih => exact ih s
  | send m next ih =>
    have h := ih s
    simp only [send_bind, run, h, List.cons_append]

end Run

end Prog

end NetTables.Lib
