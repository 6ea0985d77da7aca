import NetTables.Lib.Run
import Mathlib.Logic.Function.Basic
import Mathlib.Logic.Relation
import Mathlib.Data.List.Basic
import Mathlib.Order.Nat

namespace NetTables.Lib

/-- Where a peer of a hub stands: it takes the messages of its channel, or it has stopped that and
has its last message to send, or it has let go of the channel. -/
inductive Phase where
  | serving
  | closing
  | gone
  deriving DecidableEq

/-- A task that takes messages of type `M` from a bounded channel, does the jobs that they ask for,
and puts messages of type `N` on the bounded channels of its peers. `sending` is what the job in
hand still has to send. -/
structure Hub (κ M J N σ : Type) where
  state : σ
  inbox : List M := []
  todo : List J := []
  sending : List (κ × N) := []
  outbox : κ → List N := fun _ => []
  phase : κ → Phase := fun _ => .gone

/-- What the hub and its peers do: how a peer comes in, what it may send to the hub and what it
sends last, how its leaving is noted, which jobs a message asks for, what a job changes and sends,
and what else changes the state. -/
structure Manners (κ M J N σ : Type) where
  joins : σ → κ → σ → Prop
  offers : σ → κ → M → Prop
  closes : σ → κ → M → Prop
  leaves : σ → κ → σ → Prop
  jobs : M → List J → Prop
  performs : σ → J → List (κ × N) → σ → Prop
  drifts : σ → σ → Prop

namespace Hub

variable {κ M J N σ : Type} [DecidableEq κ]

/-- The steps by name, with the peer that takes them; `begins` has what its job sends. -/
inductive Event (κ N : Type) where
  | joins (k : κ)
  | offers (k : κ)
  | receives (k : κ)
  | ends (k : κ)
  | closes (k : κ)
  | takes
  | begins (l : List (κ × N))
  | sends
  | fails
  | feeds (k : κ)
  | drifts

/-- One step. A message needs room on its channel, and a receiver; where there is none the job goes
wrong, and leaves out some of what it would have sent. `feeds` is a message from another task. A
place is free until a message takes it: none is kept for a send that nobody goes on with. -/
inductive Step (B : Manners κ M J N σ) (capacity : Nat) :
    Hub κ M J N σ → Event κ N → Hub κ M J N σ → Prop where
  | joins {S k st} (h : B.joins S.state k st) :
      Step B capacity S (.joins k) { S with
        state := st
        outbox := Function.update S.outbox k []
        phase := Function.update S.phase k .serving }
  | offers {S k m} (hk : S.phase k = .serving) (hm : B.offers S.state k m)
      (hroom : S.inbox.length < capacity) :
      Step B capacity S (.offers k) { S with inbox := S.inbox ++ [m] }
  | receives {S k n rest} (hk : S.phase k = .serving) (h : S.outbox k = n :: rest) :
      Step B capacity S (.receives k) { S with outbox := Function.update S.outbox k rest }
  | ends {S k} (hk : S.phase k = .serving) :
      Step B capacity S (.ends k) { S with phase := Function.update S.phase k .closing }
  | closes {S k m st} (hk : S.phase k = .closing) (hm : B.closes S.state k m)
      (hroom : S.inbox.length < capacity) (h : B.leaves S.state k st) :
      Step B capacity S (.closes k) { S with
        state := st
        inbox := S.inbox ++ [m]
        phase := Function.update S.phase k .gone }
  | takes {S m rest js} (htodo : S.todo = []) (hsending : S.sending = [])
      (h : S.inbox = m :: rest) (hjs : B.jobs m js) :
      Step B capacity S .takes { S with inbox := rest, todo := js }
  | begins {S j js l st} (hsending : S.sending = []) (h : S.todo = j :: js)
      (hj : B.performs S.state j l st) :
      Step B capacity S (.begins l) { S with state := st, todo := js, sending := l }
  | sends {S k n rest} (h : S.sending = (k, n) :: rest) (hk : S.phase k ≠ .gone)
      (hroom : (S.outbox k).length < capacity) :
      Step B capacity S .sends { S with
        outbox := Function.update S.outbox k (S.outbox k ++ [n])
        sending := rest }
  | fails {S k n rest l} (h : S.sending = (k, n) :: rest) (hk : S.phase k = .gone)
      (hl : l <:+ rest) : Step B capacity S .fails { S with sending := l }
  | feeds {S k} (n : N) (hk : S.phase k ≠ .gone) (hroom : (S.outbox k).length < capacity) :
      Step B capacity S (.feeds k) { S with
        outbox := Function.update S.outbox k (S.outbox k ++ [n]) }
  | drifts {S st} (h : B.drifts S.state st) : Step B capacity S .drifts { S with state := st }

variable {B : Manners κ M J N σ} {capacity : Nat} {S S' : Hub κ M J N σ} {e : Event κ N} {k k' : κ}

/-- How many messages the job in hand still has to send to a peer. -/
def owed (S : Hub κ M J N σ) (k : κ) : Nat := S.sending.countP (·.1 = k)

/-- The channel of the peer has room for them. -/
def Fits (capacity : Nat) (S : Hub κ M J N σ) (k : κ) : Prop :=
  S.owed k + (S.outbox k).length ≤ capacity

/-- The hub waits for room on the channel of a peer that takes no more messages, and this peer for
room on the channel of the hub. -/
def Cyclic (capacity : Nat) (S : Hub κ M J N σ) (k : κ) : Prop :=
  S.phase k = .closing ∧ capacity ≤ S.inbox.length ∧ capacity ≤ (S.outbox k).length ∧
    ∃ n rest, S.sending = (k, n) :: rest

/-- The channels hold what they may. -/
structure Bounded (capacity : Nat) (S : Hub κ M J N σ) : Prop where
  inbox : S.inbox.length ≤ capacity
  outbox : ∀ k, (S.outbox k).length ≤ capacity

theorem length_update {outbox : κ → List N} (l : List N) (h : ∀ k, (outbox k).length ≤ capacity)
    (hl : l.length ≤ capacity) (k k' : κ) :
    (Function.update outbox k l k').length ≤ capacity := by
  by_cases hk : k' = k
  · rw [hk, Function.update_self]
    exact hl
  · rw [Function.update_of_ne hk]
    exact h k'

theorem Bounded.step (h : Bounded capacity S) (hstep : Step B capacity S e S') :
    Bounded capacity S' := by
  obtain ⟨hin, hout⟩ := h
  cases hstep with
  | joins hj => exact ⟨hin, length_update [] hout (Nat.zero_le _) _⟩
  | offers hk hm hroom =>
    refine ⟨?_, hout⟩
    simp only [List.length_append, List.length_singleton]
    omega
  | @receives k n rest hk hk' =>
    have hrest := hout k
    rw [hk', List.length_cons] at hrest
    exact ⟨hin, length_update rest hout (by omega) _⟩
  | ends => exact ⟨hin, hout⟩
  | closes hk hm hroom hst =>
    refine ⟨?_, hout⟩
    simp only [List.length_append, List.length_singleton]
    omega
  | takes _ _ hm =>
    rw [hm, List.length_cons] at hin
    exact ⟨Nat.le_of_succ_le hin, hout⟩
  | begins => exact ⟨hin, hout⟩
  | @sends k n rest _ hk hroom =>
    exact ⟨hin, length_update _ hout (by rw [List.length_append, List.length_singleton]; omega) _⟩
  | fails => exact ⟨hin, hout⟩
  | @feeds k n hk hroom =>
    exact ⟨hin, length_update _ hout (by rw [List.length_append, List.length_singleton]; omega) _⟩
  | drifts => exact ⟨hin, hout⟩

/-- While the channel of the hub is full, what it owes to a closing peer fits on that one's. -/
structure Calm (capacity : Nat) (S : Hub κ M J N σ) : Prop where
  bounded : Bounded capacity S
  fits : S.inbox.length = capacity → ∀ k, S.phase k = .closing → S.Fits capacity k

/-- The step does not fill the channel of the hub, or finds it full, where a closing peer is owed
more than its channel has room for. -/
def Careful (capacity : Nat) (S : Hub κ M J N σ) : Event κ N → Prop
  | .offers _ => S.inbox.length + 1 = capacity →
      ∀ k, S.phase k = .closing → S.Fits capacity k
  | .closes k => S.inbox.length + 1 = capacity →
      ∀ k', k' ≠ k → S.phase k' = .closing → S.Fits capacity k'
  | .ends k => S.inbox.length = capacity → S.Fits capacity k
  | .begins l => S.inbox.length = capacity →
      ∀ k, S.phase k = .closing → l.countP (·.1 = k) + (S.outbox k).length ≤ capacity
  | .feeds k => S.inbox.length = capacity → S.phase k = .closing →
      S.owed k + (S.outbox k).length < capacity
  | _ => True

theorem fits_of_eq (h : S.Fits capacity k) (hsending : S'.sending = S.sending)
    (houtbox : S'.outbox k = S.outbox k) : S'.Fits capacity k := by
  rw [Fits, owed, hsending, houtbox]
  exact h

/-- A message that goes from the hub to its channel leaves the room that it was owed. -/
theorem fits_sends {n : N} {rest : List (κ × N)} (h : S.sending = (k, n) :: rest) :
    Fits capacity { S with
      outbox := Function.update S.outbox k (S.outbox k ++ [n])
      sending := rest } k' ↔ S.Fits capacity k' := by
  simp only [Fits, owed, h, List.countP_cons]
  by_cases hk : k' = k
  · subst hk
    simp only [Function.update_self, List.length_append, List.length_singleton, decide_true, if_true]
    omega
  · have hne : ¬k = k' := fun heq => hk heq.symm
    simp [Function.update_of_ne hk, hne]

theorem Calm.step (h : Calm capacity S) (hstep : Step B capacity S e S')
    (hcareful : Careful capacity S e) : Calm capacity S' := by
  refine ⟨h.bounded.step hstep, ?_⟩
  obtain ⟨⟨hin, -⟩, hfits⟩ := h
  intro hfull k hk
  cases hstep with
  | @joins k₁ st hj =>
    by_cases heq : k = k₁
    · subst heq
      simp at hk
    · simp only [Function.update_of_ne heq] at hk
      exact fits_of_eq (hfits hfull k hk) rfl (Function.update_of_ne heq ..)
  | offers hk₁ hm hroom =>
    simp only [List.length_append, List.length_singleton] at hfull
    exact fits_of_eq (hcareful hfull k hk) rfl rfl
  | @receives k₁ n rest hk₁ h₁ =>
    have hne : k ≠ k₁ := by
      intro heq
      subst heq
      rw [hk₁] at hk
      cases hk
    exact fits_of_eq (hfits hfull k hk) rfl (Function.update_of_ne hne ..)
  | @ends k₁ hk₁ =>
    by_cases heq : k = k₁
    · subst heq
      exact hcareful hfull
    · simp only [Function.update_of_ne heq] at hk
      exact hfits hfull k hk
  | @closes k₁ m st hk₁ hm hroom hst =>
    simp only [List.length_append, List.length_singleton] at hfull
    have hne : k ≠ k₁ := by
      intro heq
      subst heq
      simp at hk
    simp only [Function.update_of_ne hne] at hk
    exact fits_of_eq (hcareful hfull k hne hk) rfl rfl
  | takes _ _ hm =>
    rw [hm, List.length_cons] at hin
    simp only at hfull
    omega
  | begins => exact hcareful hfull k hk
  | sends hs hk₁ hroom => exact (fits_sends hs).mpr (hfits hfull k hk)
  | @fails k₁ n rest l hs hk₁ hl =>
    have hfit := hfits hfull k hk
    have hcount := hl.sublist.countP_le (p := fun a => decide (a.1 = k))
    simp only [Fits, owed, hs, List.countP_cons] at hfit ⊢
    omega
  | @feeds k₁ n hk₁ hroom =>
    by_cases heq : k = k₁
    · subst heq
      have hlt := hcareful hfull hk
      simp only [Fits, owed, Function.update_self, List.length_append, List.length_singleton]
      exact hlt
    · exact fits_of_eq (hfits hfull k hk) rfl (Function.update_of_ne heq ..)
  | drifts => exact hfits hfull k hk

theorem Calm.not_cyclic (h : Calm capacity S) (k : κ) : ¬S.Cyclic capacity k := by
  intro hcyclic
  obtain ⟨hk, hin, hout, n, rest, hsending⟩ := hcyclic
  have hfit := h.fits (le_antisymm h.bounded.inbox hin) k hk
  have howed : 0 < S.owed k := by
    rw [owed, hsending, List.countP_cons_of_pos (by simp)]
    exact Nat.succ_pos _
  have hle : S.owed k + (S.outbox k).length ≤ capacity := hfit
  omega

/-- Runs of a hub that starts with empty channels and without peers, with the number of steps. -/
abbrev Runs (B : Manners κ M J N σ) (capacity : Nat) (init : σ → Prop)
    (guard : Hub κ M J N σ → Event κ N → Prop) : Nat → Hub κ M J N σ → Prop :=
  Run (fun S => ∃ st, init st ∧ S = { state := st }) (Step B capacity) (fun _ => 0) (fun _ _ => 1)
    guard

theorem Runs.bounded {init : σ → Prop} {guard : Hub κ M J N σ → Event κ N → Prop} {n : Nat}
    (run : Runs B capacity init guard n S) : Bounded capacity S := by
  apply run.invariant (fun _ S => Bounded capacity S)
  · intro S hS
    obtain ⟨st, -, rfl⟩ := hS
    exact ⟨Nat.zero_le _, fun _ => Nat.zero_le _⟩
  · intro n S e S' _ h _ hstep
    exact h.step hstep

theorem Runs.calm {init : σ → Prop} {n : Nat}
    (run : Runs B capacity init (Careful capacity) n S) : Calm capacity S := by
  apply run.invariant (fun _ S => Calm capacity S)
  · intro S hS
    obtain ⟨st, -, rfl⟩ := hS
    refine ⟨⟨Nat.zero_le _, fun _ => Nat.zero_le _⟩, fun _ k hk => ?_⟩
    cases hk
  · intro n S e S' _ h hcareful hstep
    exact h.step hstep hcareful

/-- One state after another. -/
def Leads (B : Manners κ M J N σ) (capacity : Nat) : Hub κ M J N σ → Hub κ M J N σ → Prop :=
  Relation.ReflTransGen fun S S' => ∃ e, Step B capacity S e S'

theorem Runs.leads {init : σ → Prop} {n : Nat}
    (run : Runs B capacity init (fun _ _ => True) n S) (h : Leads B capacity S S') :
    ∃ n', Runs B capacity init (fun _ _ => True) n' S' := by
  induction h with
  | refl => exact ⟨n, run⟩
  | tail _ hstep ih =>
    obtain ⟨n', run'⟩ := ih
    obtain ⟨e, hstep⟩ := hstep
    exact ⟨_, Run.step run' trivial hstep⟩

/-- A peer that takes messages may fill the channel of the hub. -/
theorem leads_offers {k : κ} {m : M} (hk : S.phase k = .serving) (hm : B.offers S.state k m)
    (n : Nat) (hroom : S.inbox.length + n ≤ capacity) :
    Leads B capacity S { S with inbox := S.inbox ++ List.replicate n m } := by
  induction n with
  | zero =>
    rw [List.replicate_zero, List.append_nil]
    exact .refl
  | succ n ih =>
    have hlt : (S.inbox ++ List.replicate n m).length < capacity := by
      simp only [List.length_append, List.length_replicate]
      omega
    rw [List.replicate_succ', ← List.append_assoc]
    exact .tail (ih (by omega)) ⟨.offers k, .offers hk hm hlt⟩

section Cornered

/-- The hub's channel is full, and a closing peer is owed more than its own has room for. -/
def Cornered (capacity : Nat) (S : Hub κ M J N σ) : Prop :=
  S.inbox.length = capacity ∧ ∃ k, S.phase k = .closing ∧ ¬S.Fits capacity k

theorem leads_cyclic (hpos : 0 < capacity) (hb : Bounded capacity S) (hc : S.Cornered capacity) :
    ∃ S' k, Leads B capacity S S' ∧ S'.Cyclic capacity k := by
  obtain ⟨hfull, k, hk, hfits⟩ := hc
  generalize hl : S.sending = l
  induction l generalizing S with
  | nil =>
    have hle := hb.outbox k
    simp [Fits, owed, hl, hle] at hfits
  | cons first rest ih =>
    obtain ⟨k₁, n⟩ := first
    have hgo : ∀ {T : Hub κ M J N σ}, Leads B capacity S T → Bounded capacity T →
        T.inbox.length = capacity → T.phase k = .closing → ¬T.Fits capacity k →
        T.sending = rest → ∃ S' k, Leads B capacity S S' ∧ S'.Cyclic capacity k := by
      intro T hT hbT hfullT hkT hfitsT hlT
      obtain ⟨S', k', hlead, hcyclic⟩ := ih hbT hfullT hkT hfitsT hlT
      exact ⟨S', k', Relation.ReflTransGen.trans hT hlead, hcyclic⟩
    cases hphase : S.phase k₁ with
    | gone =>
      have hstep : Step B capacity S .fails _ := .fails hl hphase (List.suffix_refl rest)
      have hne : k₁ ≠ k := by
        intro heq
        rw [heq, hk] at hphase
        cases hphase
      apply hgo (.single ⟨_, hstep⟩) (hb.step hstep) hfull hk _ rfl
      simpa [Fits, owed, hl, List.countP_cons, hne] using hfits
    | closing =>
      by_cases hroom : (S.outbox k₁).length < capacity
      · have hstep : Step B capacity S .sends _ := .sends hl (by simp [hphase]) hroom
        apply hgo (.single ⟨_, hstep⟩) (hb.step hstep) hfull hk _ rfl
        rwa [fits_sends hl]
      · exact ⟨S, k₁, .refl, hphase, hfull.ge, not_lt.mp hroom, n, rest, hl⟩
    | serving =>
      by_cases hroom : (S.outbox k₁).length < capacity
      · have hstep : Step B capacity S .sends _ := .sends hl (by simp [hphase]) hroom
        apply hgo (.single ⟨_, hstep⟩) (hb.step hstep) hfull hk _ rfl
        rwa [fits_sends hl]
      · -- a peer that still takes messages makes room for this one
        have hne : k ≠ k₁ := by
          intro heq
          rw [← heq, hk] at hphase
          cases hphase
        cases hout : S.outbox k₁ with
        | nil =>
          rw [hout] at hroom
          exact (hroom hpos).elim
        | cons n₁ rest₁ =>
          have hle := hb.outbox k₁
          rw [hout, List.length_cons] at hle
          have hstep₁ : Step B capacity S (.receives k₁) _ := .receives hphase hout
          have hb₁ := hb.step hstep₁
          generalize hS₁ : ({ S with outbox := Function.update S.outbox k₁ rest₁ } :
            Hub κ M J N σ) = S₁ at hstep₁ hb₁
          have hl₁ : S₁.sending = (k₁, n) :: rest := by
            rw [← hS₁]
            exact hl
          have hroom₁ : (S₁.outbox k₁).length < capacity := by
            simp only [← hS₁, Function.update_self]
            exact hle
          have hphase₁ : S₁.phase k₁ ≠ .gone := by
            simp [← hS₁, hphase]
          have hstep₂ : Step B capacity S₁ .sends _ := .sends hl₁ hphase₁ hroom₁
          have hfits₁ : ¬S₁.Fits capacity k := by
            intro hfits₁
            apply hfits
            apply fits_of_eq hfits₁ (by rw [← hS₁])
            simp only [← hS₁, Function.update_of_ne hne]
          apply hgo (.tail (.single ⟨_, hstep₁⟩) ⟨_, hstep₂⟩) (hb₁.step hstep₂) _ _ _ rfl
          · simp only [← hS₁]
            exact hfull
          · simp only [← hS₁]
            exact hk
          · rwa [fits_sends hl₁]

/-- A peer that is owed too much corners the hub by filling its channel and ending. -/
theorem leads_cornered {m : M} (hb : Bounded capacity S) (hk : S.phase k = .serving)
    (hm : B.offers S.state k m) (hfits : ¬S.Fits capacity k) :
    ∃ S', Leads B capacity S S' ∧ S'.Cornered capacity := by
  obtain ⟨n, hn⟩ := Nat.exists_eq_add_of_le hb.inbox
  have hfull := leads_offers hk hm n hn.ge
  refine ⟨_, .tail hfull ⟨.ends k, .ends hk⟩, ?_, k, Function.update_self .., hfits⟩
  simp only [List.length_append, List.length_replicate]
  exact hn.symm

/-- A step that is not careful corners the hub. -/
theorem cornered_of_not_careful (hstep : Step B capacity S e S')
    (hcareful : ¬Careful capacity S e) : S'.Cornered capacity := by
  cases hstep with
  | offers hk hm hroom =>
    simp only [Careful, not_forall] at hcareful
    obtain ⟨hfull, k, hclosing, hfits⟩ := hcareful
    exact ⟨by simpa using hfull, k, hclosing, hfits⟩
  | @closes k₁ m st hk hm hroom hst =>
    simp only [Careful, not_forall] at hcareful
    obtain ⟨hfull, k, hne, hclosing, hfits⟩ := hcareful
    exact ⟨by simpa using hfull, k, by simpa [Function.update_of_ne hne] using hclosing, hfits⟩
  | @ends k₁ hk =>
    simp only [Careful, not_forall] at hcareful
    obtain ⟨hfull, hfits⟩ := hcareful
    exact ⟨hfull, k₁, Function.update_self .., hfits⟩
  | begins =>
    simp only [Careful, not_forall] at hcareful
    obtain ⟨hfull, k, hclosing, hfits⟩ := hcareful
    exact ⟨hfull, k, hclosing, hfits⟩
  | @feeds k₁ n hk hroom =>
    simp only [Careful, not_forall] at hcareful
    obtain ⟨hfull, hclosing, hfits⟩ := hcareful
    refine ⟨hfull, k₁, hclosing, fun hfit => hfits ?_⟩
    simp only [Fits, owed, Function.update_self, List.length_append, List.length_singleton] at hfit
    exact hfit
  | _ => exact (hcareful trivial).elim

end Cornered

end Hub

end NetTables.Lib
