import Mathlib.Order.Defs.Unbundled

namespace NetTables.Lib

/-- A computation over a state `σ`. An error `ε` ends it early and keeps the writes made so far;
a panic `π` ends it with no result at all. -/
abbrev Fallible (σ ε π : Type) := ExceptT ε (StateT σ (Except π))

namespace Fallible

variable {σ ε π α β ι : Type}

def exec (x : Fallible σ ε π α) (s : σ) : Except π (Except ε α × σ) := (ExceptT.run x).run s

def panicWith (p : π) : Fallible σ ε π α := ExceptT.mk fun _ => .error p

/-- `Option::ok_or` followed by `?`. -/
def okOr (o : Option α) (e : ε) : Fallible σ ε π α :=
  match o with
  | some a => pure a
  | none => throw e

/-- `Option::unwrap` and `Option::expect`. -/
def unwrapOr (o : Option α) (p : π) : Fallible σ ε π α :=
  match o with
  | some a => pure a
  | none => panicWith p

/-- The error, if there is one, is dropped: `.ok()` or a logged `if let Err(e)`. -/
def attempt (x : Fallible σ ε π α) : Fallible σ ε π Unit :=
  ExceptT.mk fun s =>
    match x.exec s with
    | .ok (_, s') => .ok (.ok (), s')
    | .error p => .error p

/-- Only the result is dropped; an error stays an error. -/
def ignoring (x : Fallible σ ε π α) : Fallible σ ε π Unit := x >>= fun _ => pure ()

/-- `for i in l`: the first error leaves the loop. -/
def forEach : List ι → (ι → Fallible σ ε π Unit) → Fallible σ ε π Unit
  | [], _ => pure ()
  | i :: l, f => f i >>= fun _ => forEach l f

/-- `for i in l` with the variables the body updates. -/
def foldEach : List ι → β → (β → ι → Fallible σ ε π β) → Fallible σ ε π β
  | [], b, _ => pure b
  | i :: l, b, f => f b i >>= fun b => foldEach l b f

/-- `Q` holds of the result and the final state, unless the computation panics. -/
def Ends (x : Fallible σ ε π α) (s : σ) (Q : Except ε α → σ → Prop) : Prop :=
  ∀ r s', x.exec s = .ok (r, s') → Q r s'

/-- What a sequence does with the outcome of its first part. -/
def thenEnds (f : α → Fallible σ ε π β) (Q : Except ε β → σ → Prop) :
    Except ε α → σ → Prop
  | .ok a, s => Ends (f a) s Q
  | .error e, s => Q (.error e) s

variable {s s' : σ} {Q Q' : Except ε α → σ → Prop}

@[simp] theorem exec_pure (a : α) : (pure a : Fallible σ ε π α).exec s = .ok (.ok a, s) := rfl

@[simp] theorem exec_throw (e : ε) :
    (throw e : Fallible σ ε π α).exec s = .ok (.error e, s) := rfl

@[simp] theorem exec_panicWith (p : π) :
    (panicWith p : Fallible σ ε π α).exec s = .error p := rfl

@[simp] theorem exec_get : (get : Fallible σ ε π σ).exec s = .ok (.ok s, s) := rfl

@[simp] theorem exec_modify (f : σ → σ) :
    (modify f : Fallible σ ε π Unit).exec s = .ok (.ok (), f s) := rfl

@[simp] theorem exec_attempt (x : Fallible σ ε π α) :
    (attempt x).exec s = match x.exec s with
      | .ok (_, s') => .ok (.ok (), s')
      | .error p => .error p := rfl

theorem exec_bind (x : Fallible σ ε π α) (f : α → Fallible σ ε π β) :
    (x >>= f).exec s = match x.exec s with
      | .ok (.ok a, s') => (f a).exec s'
      | .ok (.error e, s') => .ok (.error e, s')
      | .error p => .error p := by
  have h : (x >>= f).exec s = (x.exec s >>= fun q => (ExceptT.bindCont f q.1) q.2) := rfl
  rw [h]
  rcases x.exec s with p | ⟨e | a, s'⟩ <;> rfl

theorem ends_mono {x : Fallible σ ε π α} (h : Ends x s Q) (hq : ∀ r s', Q r s' → Q' r s') :
    Ends x s Q' :=
  fun r s' hx => hq r s' (h r s' hx)

theorem ends_and {x : Fallible σ ε π α} (h : Ends x s Q) (h' : Ends x s Q') :
    Ends x s fun r s' => Q r s' ∧ Q' r s' :=
  fun r s' hx => ⟨h r s' hx, h' r s' hx⟩

theorem ends_of_exec {x : Fallible σ ε π α} {r : Except ε α} (h : Ends x s Q)
    (hx : x.exec s = .ok (r, s')) : Q r s' := h r s' hx

@[simp] theorem ends_pure (a : α) : Ends (pure a : Fallible σ ε π α) s Q ↔ Q (.ok a) s := by
  simp [Ends]

@[simp] theorem ends_throw (e : ε) : Ends (throw e : Fallible σ ε π α) s Q ↔ Q (.error e) s := by
  simp [Ends]

@[simp] theorem ends_panicWith (p : π) : Ends (panicWith p : Fallible σ ε π α) s Q ↔ True := by
  simp [Ends]

@[simp] theorem ends_get {Q : Except ε σ → σ → Prop} :
    Ends (get : Fallible σ ε π σ) s Q ↔ Q (.ok s) s := by
  simp [Ends]

@[simp] theorem ends_modify (f : σ → σ) {Q : Except ε Unit → σ → Prop} :
    Ends (modify f : Fallible σ ε π Unit) s Q ↔ Q (.ok ()) (f s) := by
  simp [Ends]

/-- The rule of sequence: an error of the first part is the outcome of the whole. -/
@[simp] theorem ends_bind (x : Fallible σ ε π α) (f : α → Fallible σ ε π β)
    {Q : Except ε β → σ → Prop} : Ends (x >>= f) s Q ↔ Ends x s (thenEnds f Q) := by
  simp only [Ends, exec_bind]
  rcases hx : x.exec s with p | ⟨e | a, s'⟩
  · simp
  · simp only [Except.ok.injEq, Prod.mk.injEq, and_imp]
    exact ⟨fun h r t hr ht => by subst hr ht; exact h _ _ rfl rfl,
      fun h r t hr ht => by subst hr ht; exact h _ _ rfl rfl⟩
  · simp only [Except.ok.injEq, Prod.mk.injEq, and_imp]
    exact ⟨fun h r t hr ht => by subst hr ht; exact h, fun h r t ht => h _ _ rfl rfl r t ht⟩

@[simp] theorem thenEnds_ok (f : α → Fallible σ ε π β) (Q : Except ε β → σ → Prop) (a : α) :
    thenEnds f Q (.ok a) s ↔ Ends (f a) s Q := Iff.rfl

@[simp] theorem thenEnds_error (f : α → Fallible σ ε π β) (Q : Except ε β → σ → Prop) (e : ε) :
    thenEnds f Q (.error e) s ↔ Q (.error e) s := Iff.rfl

/-- What does not depend on the result survives a change of the result. -/
theorem ends_thenPure {x : Fallible σ ε π α} {f : α → β} (Q : σ → Prop)
    (h : Ends x s fun _ s' => Q s') :
    Ends x s (thenEnds (fun a => (pure (f a) : Fallible σ ε π β)) fun _ s' => Q s') := by
  refine ends_mono h ?_
  intro r s' hq
  obtain e | a := r
  · exact hq
  · exact (ends_pure _).mpr hq

@[simp] theorem ends_okOr (o : Option α) (e : ε) :
    Ends (okOr o e : Fallible σ ε π α) s Q ↔
      (∀ a, o = some a → Q (.ok a) s) ∧ (o = none → Q (.error e) s) := by
  cases o <;> simp [okOr]

@[simp] theorem ends_unwrapOr (o : Option α) (p : π) :
    Ends (unwrapOr o p : Fallible σ ε π α) s Q ↔ ∀ a, o = some a → Q (.ok a) s := by
  cases o <;> simp [unwrapOr]

@[simp] theorem ends_attempt (x : Fallible σ ε π α) {Q : Except ε Unit → σ → Prop} :
    Ends (attempt x) s Q ↔ Ends x s fun _ s' => Q (.ok ()) s' := by
  simp only [Ends, exec_attempt]
  rcases x.exec s with p | ⟨r, s'⟩
  · simp
  · simp only [Except.ok.injEq, Prod.mk.injEq, and_imp]
    exact ⟨fun h r t _ ht => h _ t rfl ht, fun h r t hr ht => by subst hr ht; exact h _ _ rfl rfl⟩

/-- A loop none of whose turns fails. -/
theorem ends_forEach_ok {f : ι → Fallible σ ε π Unit}
    (hf : ∀ i s, Ends (f i) s fun r _ => r = .ok ()) (l : List ι) (s : σ) :
    Ends (forEach l f) s fun r _ => r = .ok () := by
  induction l generalizing s with
  | nil => exact (ends_pure ()).mpr rfl
  | cons i l ih =>
    refine (ends_bind _ _).mpr (ends_mono (hf i s) ?_)
    rintro r s' rfl
    exact ih s'

/-- The rule of a loop that carries a value: an invariant over the items still to come. It also says
what holds where the loop stops at an error. -/
theorem ends_foldEach (I : List ι → β → σ → Prop) (E : ε → σ → Prop)
    (f : β → ι → Fallible σ ε π β)
    (hstep : ∀ i l b s, I (i :: l) b s → Ends (f b i) s fun r s' =>
      match r with
      | .ok b => I l b s'
      | .error e => E e s')
    (l : List ι) (b : β) (s : σ) (h : I l b s) :
    Ends (foldEach l b f) s fun r s' =>
      match r with
      | .ok b => I [] b s'
      | .error e => E e s' := by
  induction l generalizing b s with
  | nil => exact (ends_pure b).mpr h
  | cons i l ih =>
    rw [foldEach, ends_bind]
    refine ends_mono (hstep i l b s h) ?_
    intro result s' hs
    obtain e | b' := result
    · exact hs
    · exact ih b' s' hs

/-- Every outcome is related to the state before, errors included. -/
def Within (R : σ → σ → Prop) (x : Fallible σ ε π α) : Prop := ∀ s, Ends x s fun _ s' => R s s'

section Within

variable {R : σ → σ → Prop} [IsPreorder σ R]

theorem within_pure (a : α) : Within R (pure a : Fallible σ ε π α) :=
  fun s => (ends_pure a).mpr (refl_of R s)

theorem within_throw (e : ε) : Within R (throw e : Fallible σ ε π α) :=
  fun s => (ends_throw e).mpr (refl_of R s)

theorem within_get : Within R (get : Fallible σ ε π σ) := fun s => ends_get.mpr (refl_of R s)

theorem within_okOr (o : Option α) (e : ε) : Within R (okOr o e : Fallible σ ε π α) :=
  fun s => (ends_okOr o e).mpr ⟨fun _ _ => refl_of R s, fun _ => refl_of R s⟩

theorem within_unwrapOr (o : Option α) (p : π) : Within R (unwrapOr o p : Fallible σ ε π α) :=
  fun s => (ends_unwrapOr o p).mpr fun _ _ => refl_of R s

theorem within_bind {x : Fallible σ ε π α} {f : α → Fallible σ ε π β} (hx : Within R x)
    (hf : ∀ a, Within R (f a)) : Within R (x >>= f) := by
  intro s
  refine (ends_bind x f).mpr (ends_mono (hx s) ?_)
  intro r s' h
  obtain e | a := r
  · exact h
  · exact ends_mono (hf a s') fun _ _ h' => trans_of R h h'

theorem within_forEach {f : ι → Fallible σ ε π Unit} {l : List ι}
    (hf : ∀ i ∈ l, Within R (f i)) : Within R (forEach l f) := by
  induction l with
  | nil => exact within_pure ()
  | cons i l ih =>
    exact within_bind (hf i (List.mem_cons_self ..)) fun _ =>
      ih fun j hj => hf j (List.mem_cons_of_mem _ hj)

theorem within_foldEach {f : β → ι → Fallible σ ε π β} (hf : ∀ b i, Within R (f b i)) (l : List ι)
    (b : β) : Within R (foldEach l b f) := by
  induction l generalizing b with
  | nil => exact within_pure b
  | cons i l ih => exact within_bind (hf b i) ih

theorem within_ignoring {x : Fallible σ ε π α} (hx : Within R x) : Within R (ignoring x) :=
  within_bind hx fun _ => within_pure ()

end Within

theorem within_attempt {R : σ → σ → Prop} {x : Fallible σ ε π α} (hx : Within R x) :
    Within R (attempt x) :=
  fun s => (ends_attempt x).mpr (hx s)

theorem within_modify {R : σ → σ → Prop} {f : σ → σ} (hf : ∀ s, R s (f s)) :
    Within R (modify f : Fallible σ ε π Unit) :=
  fun s => (ends_modify f).mpr (hf s)

/-- The computation does not panic. -/
def Returns (x : Fallible σ ε π α) (s : σ) : Prop := ∃ r s', x.exec s = .ok (r, s')

@[simp] theorem returns_pure (a : α) : Returns (pure a : Fallible σ ε π α) s := ⟨.ok a, s, rfl⟩

@[simp] theorem returns_throw (e : ε) : Returns (throw e : Fallible σ ε π α) s := ⟨.error e, s, rfl⟩

@[simp] theorem returns_modify (f : σ → σ) : Returns (modify f : Fallible σ ε π Unit) s :=
  ⟨.ok (), f s, rfl⟩

theorem returns_attempt (x : Fallible σ ε π α) : Returns (attempt x) s ↔ Returns x s := by
  unfold Returns
  rw [exec_attempt]
  rcases x.exec s with p | ⟨r, s'⟩ <;> simp

/-- A sequence that goes on where it is known to go on. -/
theorem returns_bind_of_exec {x : Fallible σ ε π α} {f : α → Fallible σ ε π β} {a : α}
    (h : x.exec s = .ok (.ok a, s')) : Returns (x >>= f) s ↔ Returns (f a) s' := by
  unfold Returns
  rw [exec_bind, h]

theorem returns_get_bind {f : σ → Fallible σ ε π β} :
    Returns ((get : Fallible σ ε π σ) >>= f) s ↔ Returns (f s) s := returns_bind_of_exec rfl

theorem returns_unwrapOr_bind {o : Option α} {p : π} {f : α → Fallible σ ε π β} :
    Returns (unwrapOr o p >>= f) s ↔ ∃ a, o = some a ∧ Returns (f a) s := by
  cases o with
  | none =>
    have hpanic : ((unwrapOr none p : Fallible σ ε π α) >>= f).exec s = .error p := by
      rw [exec_bind]
      rfl
    simp [Returns, hpanic]
  | some a =>
    have hgo : (unwrapOr (some a) p : Fallible σ ε π α).exec s = .ok (.ok a, s) := rfl
    rw [returns_bind_of_exec hgo]
    simp

/-- A sequence whose second part never panics. -/
theorem returns_bind_of_total {x : Fallible σ ε π α} {f : α → Fallible σ ε π β}
    (hf : ∀ a s, Returns (f a) s) : Returns (x >>= f) s ↔ Returns x s := by
  unfold Returns
  rw [exec_bind]
  rcases hx : x.exec s with p | ⟨e | a, s'⟩
  · simp
  · simp
  · obtain ⟨r, t, h⟩ := hf a s'
    simp [h]

/-- The rule of a loop that no error leaves: where each turn's panic is decided by the item alone,
given what the turns keep, the loop returns if no item is a bad one. -/
theorem returns_foldEach (I : σ → Prop) (C : ι → Prop) {f : β → ι → Fallible σ ε π β} (l : List ι)
    (hstep : ∀ b s, ∀ i ∈ l, I s → Ends (f b i) s fun r s' => (∃ b', r = .ok b') ∧ I s')
    (hreturns : ∀ b s, ∀ i ∈ l, I s → (Returns (f b i) s ↔ C i)) (b : β) (s : σ) (hs : I s) :
    Returns (foldEach l b f) s ↔ ∀ i ∈ l, C i := by
  induction l generalizing b s with
  | nil => simp [foldEach]
  | cons i l ih =>
    have hrest : ∀ b s, I s → (Returns (foldEach l b f) s ↔ ∀ i ∈ l, C i) :=
      ih (fun b s i hi => hstep b s i (List.mem_cons_of_mem _ hi))
        fun b s i hi => hreturns b s i (List.mem_cons_of_mem _ hi)
    rw [foldEach, List.forall_mem_cons, ← hreturns b s i List.mem_cons_self hs]
    constructor
    · intro h
      obtain ⟨r, s', h⟩ := h
      rcases hx : (f b i).exec s with p | ⟨r', t⟩
      · rw [exec_bind, hx] at h
        cases h
      · obtain ⟨⟨b', rfl⟩, ht⟩ := hstep b s i List.mem_cons_self hs r' t hx
        have hgoes : Returns (f b i >>= fun b => foldEach l b f) s := ⟨r, s', h⟩
        exact ⟨⟨.ok b', t, hx⟩, (hrest b' t ht).mp ((returns_bind_of_exec hx).mp hgoes)⟩
    · intro h
      obtain ⟨⟨r, t, hx⟩, hall⟩ := h
      obtain ⟨⟨b', rfl⟩, ht⟩ := hstep b s i List.mem_cons_self hs r t hx
      exact (returns_bind_of_exec hx).mpr ((hrest b' t ht).mpr hall)

theorem foldEach_map {κ : Type} (g : κ → ι) (l : List κ) (b : β) (f : β → ι → Fallible σ ε π β) :
    foldEach (l.map g) b f = foldEach l b fun b k => f b (g k) := by
  induction l generalizing b with
  | nil => rfl
  | cons k l ih => simp only [List.map_cons, foldEach, ih]

theorem foldEach_singleton (i : ι) (b : β) (f : β → ι → Fallible σ ε π β) :
    foldEach [i] b f = f b i := bind_pure (f b i)

theorem foldEach_append (l l' : List ι) (b : β)
    (f : β → ι → Fallible σ ε π β) :
    foldEach (l ++ l') b f = foldEach l b f >>= fun b => foldEach l' b f := by
  induction l generalizing b with
  | nil => rfl
  | cons i l ih =>
    have hassoc := bind_assoc (f b i) (fun b => foldEach l b f) fun b => foldEach l' b f
    rw [List.cons_append, foldEach, foldEach, hassoc]
    congr 1
    funext b'
    exact ih b'

theorem forEach_eq_foldEach (l : List ι) (f : ι → Fallible σ ε π Unit) :
    forEach l f = foldEach l () fun _ i => f i := by
  induction l with
  | nil => rfl
  | cons i l ih => rw [forEach, foldEach, ih]

theorem forEach_map {κ : Type} (g : κ → ι) (l : List κ) (f : ι → Fallible σ ε π Unit) :
    forEach (l.map g) f = forEach l fun k => f (g k) := by
  rw [forEach_eq_foldEach, foldEach_map, forEach_eq_foldEach]

theorem returns_forEach (I : σ → Prop) (C : ι → Prop) {f : ι → Fallible σ ε π Unit}
    (hstep : ∀ i s, I s → Ends (f i) s fun r s' => r = .ok () ∧ I s')
    (hreturns : ∀ i s, I s → (Returns (f i) s ↔ C i)) (l : List ι) (s : σ) (hs : I s) :
    Returns (forEach l f) s ↔ ∀ i ∈ l, C i := by
  rw [forEach_eq_foldEach]
  apply returns_foldEach I C l _ (fun _ s i _ => hreturns i s) () s hs
  intro _ t i _ ht
  exact ends_mono (hstep i t ht) fun r s' h => ⟨⟨(), h.1⟩, h.2⟩

/-- The computation panics in no state. -/
def Total (x : Fallible σ ε π α) : Prop := ∀ s, Returns x s

theorem total_pure (a : α) : Total (pure a : Fallible σ ε π α) := fun s => ⟨.ok a, s, rfl⟩

theorem total_get : Total (get : Fallible σ ε π σ) := fun s => ⟨.ok s, s, rfl⟩

theorem total_modify (f : σ → σ) : Total (modify f : Fallible σ ε π Unit) :=
  fun s => ⟨.ok (), f s, rfl⟩

theorem total_okOr (o : Option α) (e : ε) : Total (okOr o e : Fallible σ ε π α) := by
  intro s
  cases o with
  | none => exact ⟨.error e, s, rfl⟩
  | some a => exact ⟨.ok a, s, rfl⟩

theorem total_bind {x : Fallible σ ε π α} {f : α → Fallible σ ε π β} (hx : Total x)
    (hf : ∀ a, Total (f a)) : Total (x >>= f) := by
  intro s
  obtain ⟨r, s', hs⟩ := hx s
  unfold Returns
  rw [exec_bind, hs]
  cases r with
  | error e => exact ⟨.error e, s', rfl⟩
  | ok a => exact hf a s'

theorem total_forEach {f : ι → Fallible σ ε π Unit} (hf : ∀ i, Total (f i)) (l : List ι) :
    Total (forEach l f) := by
  induction l with
  | nil => exact total_pure ()
  | cons i l ih => exact total_bind (hf i) fun _ => ih

theorem total_foldEach {f : β → ι → Fallible σ ε π β} (hf : ∀ b i, Total (f b i)) (l : List ι)
    (b : β) : Total (foldEach l b f) := by
  induction l generalizing b with
  | nil => exact total_pure b
  | cons i l ih => exact total_bind (hf b i) ih

/-- A loop panics only as its turns do. -/
theorem panic_foldEach {P : π → Prop} {f : β → ι → Fallible σ ε π β}
    (hf : ∀ b i s p, (f b i).exec s = .error p → P p) (l : List ι) (b : β) (s : σ) (p : π)
    (hp : (foldEach l b f).exec s = .error p) : P p := by
  induction l generalizing b s with
  | nil => cases hp
  | cons i l ih =>
    rw [foldEach, exec_bind] at hp
    rcases hx : (f b i).exec s with q | ⟨e | b', s'⟩
    · rw [hx] at hp
      cases hp
      exact hf b i s p hx
    · rw [hx] at hp
      cases hp
    · rw [hx] at hp
      exact ih b' s' hp

theorem eq_ok_of_toOption {x : Except π α} {a : α} (h : x.toOption = some a) : x = .ok a := by
  cases x with
  | error p => cases h
  | ok b =>
    cases h
    rfl

/-- A computation that cannot panic has an outcome, and it is as `Ends` says. -/
theorem Total.ends {x : Fallible σ ε π α} (hx : Total x) (h : Ends x s Q) :
    ∃ r s', x.exec s = .ok (r, s') ∧ Q r s' := by
  obtain ⟨r, s', hs⟩ := hx s
  exact ⟨r, s', hs, h r s' hs⟩

end Fallible

end NetTables.Lib
