import NetTables.Lib.Fallible
import NetTables.Lib.Rely

namespace NetTables.Lib

/-- How a program with guards ends early. -/
inductive Stop (ε π : Type) where
  | error (e : ε)
  | panic (p : π)

/-- What tasks share: the state, the notes that they leave on where they stand, and the panics that
have ended one of them. -/
structure Scene (σ ν π : Type) where
  state : σ
  notes : ν
  panics : List π := []

/-- The scene after a piece of code, which is where it was if the piece panics. -/
def Scene.after {σ ν ε π α : Type} (S : Scene σ ν π) : Except π (Except ε α × σ) → Scene σ ν π
  | .ok (_, s) => { S with state := s }
  | .error _ => S

/-- A program that takes mutexes and works on the state piece by piece. -/
abbrev Guarded (L σ ν ε π : Type) := ExceptT (Stop ε π) (Prog L Empty (Scene σ ν π))

namespace Guarded

variable {L σ ν ε π α β ι : Type}

def settle : Except π (Except ε α × σ) → Except (Stop ε π) α
  | .ok (.ok a, _) => .ok a
  | .ok (.error e, _) => .error (.error e)
  | .error p => .error (.panic p)

/-- A piece of code under the guards that are held, as one step. -/
def atomic (x : Fallible σ ε π α) : Guarded L σ ν ε π α :=
  ExceptT.mk (.act (fun S => S.after (x.exec S.state)) fun S => .pure (settle (x.exec S.state)))

def note (f : ν → ν) : Guarded L σ ν ε π Unit :=
  ExceptT.mk (.act (fun S => { S with notes := f S.notes }) fun _ => .pure (.ok ()))

def lock (l : L) : Guarded L σ ν ε π Unit := ExceptT.mk (.lock l (.pure (.ok ())))

def unlock (l : L) : Guarded L σ ν ε π Unit := ExceptT.mk (.unlock l (.pure (.ok ())))

/-- What a part of the program comes to, as a value. -/
def result (x : Guarded L σ ν ε π α) : Guarded L σ ν ε π (Except (Stop ε π) α) :=
  ExceptT.mk (x.run >>= fun r => .pure (.ok r))

def ofResult (r : Except (Stop ε π) α) : Guarded L σ ν ε π α := ExceptT.mk (.pure r)

/-- A guard that lives as long as this part of the program. -/
def holding (l : L) (body : Guarded L σ ν ε π α) : Guarded L σ ν ε π α := do
  lock l
  let r ← result body
  unlock l
  ofResult r

/-- `for i in l`: the first error leaves the loop. -/
def forEach : List ι → (ι → Guarded L σ ν ε π Unit) → Guarded L σ ν ε π Unit
  | [], _ => pure ()
  | i :: l, f => f i >>= fun _ => forEach l f

/-- `for i in l` with the variables the body updates. -/
def foldEach : List ι → β → (β → ι → Guarded L σ ν ε π β) → Guarded L σ ν ε π β
  | [], b, _ => pure b
  | i :: l, b, f => f b i >>= fun b => foldEach l b f

/-- The program as a task of its own. A panic ends it, and is put on record. -/
def spawn (x : Guarded L σ ν ε π Unit) : Prog L Empty (Scene σ ν π) Unit :=
  x.run >>= fun
    | .error (.panic p) => Prog.write fun S => { S with panics := S.panics ++ [p] }
    | _ => pure ()

section Run

variable (x : Guarded L σ ν ε π α)

theorem run_bind (f : α → Guarded L σ ν ε π β) :
    (x >>= f).run = x.run >>= fun
      | .ok a => (f a).run
      | .error e => pure (.error e) := by
  show (x.run >>= ExceptT.bindCont f) = _
  congr 1
  funext r
  cases r <;> rfl

theorem run_result_bind (f : Except (Stop ε π) α → Guarded L σ ν ε π β) :
    (result x >>= f).run = x.run >>= fun r => (f r).run := by
  rw [run_bind]
  exact Prog.bind_assoc _ _ _

end Run

section Alone

/-- The result of a program, without its notes. -/
def outcome : Except (Stop ε π) α × Scene σ ν π × List Empty → Except π (Except ε α × σ)
  | (.ok a, S, _) => .ok (.ok a, S.state)
  | (.error (.error e), S, _) => .ok (.error e, S.state)
  | (.error (.panic p), _, _) => .error p

/-- Where nothing interferes, the program with its guards is the computation. -/
def Alone (x : Guarded L σ ν ε π α) (y : Fallible σ ε π α) : Prop :=
  ∀ S : Scene σ ν π, outcome (x.run.run S) = y.exec S.state

variable {x : Guarded L σ ν ε π α} {y : Fallible σ ε π α}

theorem Alone.of_eq {y' : Fallible σ ε π α} (h : Alone x y) (heq : y = y') : Alone x y' :=
  heq ▸ h

theorem alone_pure (a : α) : Alone (pure a : Guarded L σ ν ε π α) (pure a) := fun _ => rfl

theorem alone_atomic (y : Fallible σ ε π α) : Alone (atomic y : Guarded L σ ν ε π α) y := by
  intro S
  show outcome (settle (y.exec S.state), S.after (y.exec S.state), []) = _
  rcases y.exec S.state with p | ⟨e | a, s⟩ <;> rfl

theorem Alone.bind {f : α → Guarded L σ ν ε π β} {g : α → Fallible σ ε π β} (h : Alone x y)
    (hf : ∀ a, Alone (f a) (g a)) : Alone (x >>= f) (y >>= g) := by
  intro S
  have hx := h S
  rw [run_bind, Prog.run_bind, Fallible.exec_bind, ← hx]
  rcases x.run.run S with ⟨⟨e | p⟩ | a, S', sent⟩
  · rfl
  · rfl
  · have ha := hf a S'
    show outcome (((f a).run.run S').1, ((f a).run.run S').2.1, _) = (g a).exec S'.state
    rw [← ha]
    rcases (f a).run.run S' with ⟨⟨e | p⟩ | b, S'', sent'⟩ <;> rfl

theorem Alone.ite {c : Prop} [Decidable c] {x' : Guarded L σ ν ε π α} {y' : Fallible σ ε π α}
    (h : Alone x y) (h' : Alone x' y') : Alone (if c then x else x') (if c then y else y') := by
  split_ifs
  · exact h
  · exact h'

/-- A part that is looked at before its error goes on. -/
theorem Alone.result {f : Except (Stop ε π) α → Guarded L σ ν ε π β} {g : α → Fallible σ ε π β}
    (h : Alone x y) (hok : ∀ a, Alone (f (.ok a)) (g a))
    (herror : ∀ e S, (f (.error e)).run.run S = (.error e, S, [])) :
    Alone (result x >>= f) (y >>= g) := by
  intro S
  have hx := h S
  rw [run_result_bind, Prog.run_bind, Fallible.exec_bind, ← hx]
  rcases x.run.run S with ⟨⟨e | p⟩ | a, S', sent⟩
  · show outcome (((f (.error (.error e))).run.run S').1, _, _) = _
    rw [herror]
    rfl
  · show outcome (((f (.error (.panic p))).run.run S').1, _, _) = _
    rw [herror]
    rfl
  · have ha := hok a S'
    show outcome (((f (.ok a)).run.run S').1, ((f (.ok a)).run.run S').2.1, _) = (g a).exec S'.state
    rw [← ha]
    rcases (f (.ok a)).run.run S' with ⟨⟨e | p⟩ | b, S'', sent'⟩ <;> rfl

theorem alone_note (f : ν → ν) : Alone (note f : Guarded L σ ν ε π Unit) (pure ()) := fun _ => rfl

theorem alone_lock (l : L) : Alone (lock l : Guarded L σ ν ε π Unit) (pure ()) := fun _ => rfl

theorem alone_unlock (l : L) : Alone (unlock l : Guarded L σ ν ε π Unit) (pure ()) := fun _ => rfl

/-- A guard or a note, which the computation does not have. -/
theorem Alone.skip {w : Guarded L σ ν ε π Unit} {f : Unit → Guarded L σ ν ε π α}
    (hw : Alone w (pure ())) (h : Alone (f ()) y) : Alone (w >>= f) y := by
  have hbind : Alone (w >>= f) ((pure () : Fallible σ ε π Unit) >>= fun _ => y) :=
    hw.bind fun _ => h
  rwa [pure_bind] at hbind

theorem Alone.holding (h : Alone x y) (l : L) : Alone (holding l x) y := by
  have hrest : Alone (Guarded.result x >>= fun r => unlock l >>= fun _ => ofResult r)
      (y >>= fun a => pure a) :=
    h.result (fun a => (alone_unlock l).skip (alone_pure a)) fun _ _ => rfl
  rw [bind_pure] at hrest
  exact (alone_lock l).skip hrest

theorem alone_forEach {f : ι → Guarded L σ ν ε π Unit} {g : ι → Fallible σ ε π Unit}
    (hf : ∀ i, Alone (f i) (g i)) (l : List ι) :
    Alone (forEach l f) (Fallible.forEach l g) := by
  induction l with
  | nil => exact alone_pure ()
  | cons i l ih => exact (hf i).bind fun _ => ih

theorem alone_foldEach {f : β → ι → Guarded L σ ν ε π β} {g : β → ι → Fallible σ ε π β}
    (hf : ∀ b i, Alone (f b i) (g b i)) (l : List ι) (b : β) :
    Alone (foldEach l b f) (Fallible.foldEach l b g) := by
  induction l generalizing b with
  | nil => exact alone_pure b
  | cons i l ih => exact (hf b i).bind fun b => ih b

end Alone

section Triple

variable {τ : Type} [DecidableEq L] {R : Protocol τ L (Scene σ ν π)}
  {now : List L → Scene σ ν π → Prop} {t : τ} {held mid last : List L}
  {P P' : Scene σ ν π → Prop} {Q Q' : Except (Stop ε π) α → Scene σ ν π → Prop}
  {x : Guarded L σ ν ε π α}

/-- An outcome with `J`, or an early end with `E`. -/
def Ended (E : Stop ε π → Scene σ ν π → Prop) (J : α → Scene σ ν π → Prop) :
    Except (Stop ε π) α → Scene σ ν π → Prop
  | .ok a, S => J a S
  | .error e, S => E e S

/-- From `P` on the program keeps to the protocol. It begins with the guards `held`, and ends with
the guards `last` and with `Q`. -/
def Triple (R : Protocol τ L (Scene σ ν π)) (now : List L → Scene σ ν π → Prop) (t : τ)
    (held : List L) (P : Scene σ ν π → Prop) (x : Guarded L σ ν ε π α) (last : List L)
    (Q : Except (Stop ε π) α → Scene σ ν π → Prop) : Prop :=
  ∀ S, P S → x.run.Safe R now t held S fun r held' S => held' = last ∧ Q r S

theorem Triple.conseq (h : Triple R now t held P x last Q) (hP : ∀ S, P' S → P S)
    (hQ : ∀ r S, Q r S → Q' r S) : Triple R now t held P' x last Q' :=
  fun S hS => (h S (hP S hS)).mono fun r _ S' hr => ⟨hr.1, hQ r S' hr.2⟩

theorem triple_ofResult (r : Except (Stop ε π) α) (h : ∀ S, P S → Q r S) :
    Triple R now t held P (ofResult r : Guarded L σ ν ε π α) held Q :=
  fun S hS => ⟨rfl, h S hS⟩

theorem triple_pure (a : α) (h : ∀ S, P S → Q (.ok a) S) :
    Triple R now t held P (pure a : Guarded L σ ν ε π α) held Q := triple_ofResult (.ok a) h

/-- A piece of code: the protocol has to allow what it does. -/
theorem triple_atomic {y : Fallible σ ε π α} (hP : R.Stable t held P) (hnow : ∀ S, P S → now held S)
    (h : ∀ S, P S → R.allows t held S (S.after (y.exec S.state)) ∧
      Q (settle (y.exec S.state)) (S.after (y.exec S.state))) :
    Triple R now t held P (atomic y : Guarded L σ ν ε π α) held Q := by
  intro S hS S' hS'
  have hp := hP.others hS' hS
  exact ⟨hnow S' hp, (h S' hp).1, rfl, (h S' hp).2⟩

theorem triple_note {f : ν → ν} {Q : Except (Stop ε π) Unit → Scene σ ν π → Prop}
    (hP : R.Stable t held P) (hnow : ∀ S, P S → now held S)
    (h : ∀ S, P S → R.allows t held S { S with notes := f S.notes } ∧
      Q (.ok ()) { S with notes := f S.notes }) :
    Triple R now t held P (note f : Guarded L σ ν ε π Unit) held Q := by
  intro S hS S' hS'
  have hp := hP.others hS' hS
  exact ⟨hnow S' hp, (h S' hp).1, rfl, (h S' hp).2⟩

section Sequence

variable {Q' : Except (Stop ε π) β → Scene σ ν π → Prop}

/-- The rule of sequence: an error of the first part is the outcome of the whole, with the guards
that are left. -/
theorem Triple.bind_mid {f : α → Guarded L σ ν ε π β} (h : Triple R now t held P x mid Q)
    (hok : ∀ a, Triple R now t mid (Q (.ok a)) (f a) last Q')
    (herror : ∀ e S, Q (.error e) S → mid = last ∧ Q' (.error e) S) :
    Triple R now t held P (x >>= f) last Q' := by
  intro S hS
  rw [run_bind]
  apply Prog.Safe.bind
  apply (h S hS).mono
  intro r held' S' hr
  obtain ⟨heq, hq⟩ := hr
  subst heq
  cases r with
  | ok a => exact hok a S' hq
  | error e => exact herror e S' hq

theorem Triple.bind {f : α → Guarded L σ ν ε π β} (h : Triple R now t held P x last Q)
    (hok : ∀ a, Triple R now t last (Q (.ok a)) (f a) last Q')
    (herror : ∀ e S, Q (.error e) S → Q' (.error e) S) :
    Triple R now t held P (x >>= f) last Q' :=
  h.bind_mid hok fun e S he => ⟨rfl, herror e S he⟩

theorem Triple.result_bind {f : Except (Stop ε π) α → Guarded L σ ν ε π β}
    (h : Triple R now t held P x mid Q) (hf : ∀ r, Triple R now t mid (Q r) (f r) last Q') :
    Triple R now t held P (result x >>= f) last Q' := by
  intro S hS
  rw [run_result_bind]
  apply Prog.Safe.bind
  apply (h S hS).mono
  intro r held' S' hr
  obtain ⟨heq, hq⟩ := hr
  subst heq
  exact hf r S' hq

variable {f : Unit → Guarded L σ ν ε π β}

theorem Triple.lock_bind {l : L} (hP : R.Stable t held P) (hnow : ∀ S, P S → now held S)
    (hf : Triple R now t (l :: held) (fun S => P S ∧ R.inv l S ∧ R.may t l S) (f ()) last Q') :
    Triple R now t held P (lock l >>= f) last Q' := by
  intro S hS S' hS'
  have hp := hP.others hS' hS
  exact ⟨hnow S' hp, fun hinv hmay => hf S' ⟨hp, hinv, hmay⟩⟩

theorem Triple.unlock_bind {l : L} (hP : R.Stable t held P)
    (hnow : ∀ S, P S → now held S ∧ R.inv l S) (hmem : l ∈ held)
    (hf : Triple R now t (held.erase l) P (f ()) last Q') :
    Triple R now t held P (unlock l >>= f) last Q' := by
  intro S hS S' hS'
  have hp := hP.others hS' hS
  exact ⟨(hnow S' hp).1, hmem, (hnow S' hp).2, hf S' hp⟩

end Sequence

/-- The part of a program under a guard. It gets the invariant of the mutex, and has to give it back
however it ends. -/
theorem triple_holding {l : L} (hP : R.Stable t held P) (hnow : ∀ S, P S → now held S)
    (hbody : Triple R now t (l :: held) (fun S => P S ∧ R.inv l S ∧ R.may t l S) x (l :: held) Q)
    (hQ : ∀ r, R.Stable t (l :: held) (Q r))
    (hend : ∀ r S, Q r S → now (l :: held) S ∧ R.inv l S) :
    Triple R now t held P (holding l x) held Q := by
  apply Triple.lock_bind hP hnow
  apply hbody.result_bind
  intro r
  apply Triple.unlock_bind (hQ r) (hend r) (List.mem_cons_self ..)
  rw [List.erase_cons_head]
  exact triple_ofResult r fun _ h => h

section Loops

variable {E : Stop ε π → Scene σ ν π → Prop} {l : List ι}

theorem triple_forEach {f : ι → Guarded L σ ν ε π Unit}
    (hf : ∀ i ∈ l, Triple R now t held P (f i) held (Ended E fun _ => P)) :
    Triple R now t held P (forEach l f) held (Ended E fun _ => P) := by
  induction l with
  | nil => exact triple_pure () fun _ hS => hS
  | cons i l ih =>
    have hrest := ih fun j hj => hf j (List.mem_cons_of_mem _ hj)
    exact (hf i (List.mem_cons_self ..)).bind (fun _ => hrest) fun _ _ h => h

theorem triple_foldEach {f : β → ι → Guarded L σ ν ε π β}
    (hf : ∀ b, ∀ i ∈ l, Triple R now t held P (f b i) held (Ended E fun _ => P)) (b : β) :
    Triple R now t held P (foldEach l b f) held (Ended E fun _ => P) := by
  induction l generalizing b with
  | nil => exact triple_pure b fun _ hS => hS
  | cons i l ih =>
    have hrest := ih fun b j hj => hf b j (List.mem_cons_of_mem _ hj)
    exact (hf b i (List.mem_cons_self ..)).bind hrest fun _ _ h => h

end Loops

/-- A program as a task: its panics have to be allowed where they happen. -/
theorem Triple.spawn {x : Guarded L σ ν ε π Unit} {Q : Except (Stop ε π) Unit → Scene σ ν π → Prop}
    (h : Triple R now t [] P x [] Q) (hQ : ∀ p, R.Stable t [] (Q (.error (.panic p))))
    (hidle : ∀ r S, Q r S → R.idle t S)
    (hpanic : ∀ p S, Q (.error (.panic p)) S → now [] S ∧
      R.allows t [] S { S with panics := S.panics ++ [p] } ∧
      R.idle t { S with panics := S.panics ++ [p] }) {S : Scene σ ν π} (hS : P S) :
    (spawn x).Safe R now t [] S (Pool.Rests R t) := by
  apply Prog.Safe.bind
  apply (h S hS).mono
  intro r held' S' hr
  obtain ⟨heq, hq⟩ := hr
  subst heq
  rcases r with ⟨e | p⟩ | a
  · exact ⟨rfl, hidle _ S' hq⟩
  · intro S'' hS''
    have hq'' := (hQ p).others hS'' hq
    obtain ⟨hnow, hallowed, hrests⟩ := hpanic p S'' hq''
    exact ⟨hnow, hallowed, rfl, hrests⟩
  · exact ⟨rfl, hidle _ S' hq⟩

end Triple

end Guarded

end NetTables.Lib
