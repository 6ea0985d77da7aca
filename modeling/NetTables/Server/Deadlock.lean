import NetTables.Lib.Run
import NetTables.Server.Locking

namespace NetTables.Server.Locking

open Lib

/-- The `send_out` loop, the parser, the tasks of new connections and the users' tasks. -/
inductive TaskId where
  | sendOut
  | parser
  | connection (n : Nat)
  | handle (n : Nat)
  deriving DecidableEq

namespace Operation

def ofParser : Operation → Bool
  | publish | unpublish | setProperties | subscribe | unsubscribe | close | binary => true
  | _ => false

def ofHandle : Operation → Bool
  | publishTopic | setTopicValue | setTopicProps | getTopicValue | getTopicNames => true
  | _ => false

/-- Whether the task does this. -/
def isOf (op : Operation) : TaskId → Bool
  | .sendOut => op = sendOut
  | .parser => op.ofParser
  | .connection _ => op = connect
  | .handle _ => op.ofHandle

theorem ofParser_of_isOf {op : Operation} {t : TaskId} (h : op.isOf t = true)
    (hne : t ≠ .parser) : op.ofParser = false := by
  cases t with
  | parser => exact absurd rfl hne
  | sendOut => exact of_decide_eq_true h ▸ rfl
  | connection n => exact of_decide_eq_true h ▸ rfl
  | handle n =>
    cases op with
    | publishTopic | setTopicValue | setTopicProps | getTopicValue | getTopicNames => rfl
    | _ => cases h

/-- The operation of the parser stands in the way of the other: each may wait for the other. -/
def conflicts : Operation → Operation → Bool
  | subscribe, sendOut | unsubscribe, sendOut | binary, sendOut => true
  | subscribe, publishTopic | unsubscribe, publishTopic | unpublish, publishTopic => true
  | binary, publishTopic | close, publishTopic => true
  | _, _ => false

/-- The order in which the mutexes are taken while the parser is at this. -/
def lockOrder : Operation → List Mutex
  | subscribe | unsubscribe => [.clients, .topicMap, .topicSubMap, .topicValueMap, .topics,
      .counters, .clientMap, .metatopicValueMap, .subSendTimestamps, .subValues, .subscriptions,
      .clientMetatopicMap, .pubCount]
  | binary => [.clients, .topics, .subValues, .topicSubMap, .topicValueMap, .counters, .clientMap,
      .metatopicValueMap, .subSendTimestamps, .subscriptions, .clientMetatopicMap, .pubCount,
      .topicMap]
  | unpublish | close => [.subscriptions, .subValues, .subSendTimestamps, .clients, .pubCount,
      .topics, .topicMap, .topicSubMap, .topicValueMap, .counters, .clientMap, .clientMetatopicMap,
      .metatopicValueMap]
  | _ => [.topics, .subscriptions, .subValues, .subSendTimestamps, .clients, .topicSubMap,
      .topicValueMap, .counters, .clientMap, .clientMetatopicMap, .metatopicValueMap, .topicMap,
      .pubCount]

/-- An operation of the parser keeps to its order, and so does every other that it is not in the way
of. -/
theorem MayNest.lt {op op' : Operation} {a b : Mutex} (hparser : op.ofParser = true)
    (hop : op' = op ∨ op'.ofParser = false) (hfree : op.conflicts op' = false)
    (h : op'.MayNest a b) : op.lockOrder.idxOf a < op.lockOrder.idxOf b := by
  suffices hall : ∀ p ∈ op'.nesting, op.lockOrder.idxOf p.1 < op.lockOrder.idxOf p.2 from hall _ h
  clear h
  revert hparser hop hfree
  cases op <;> cases op' <;> decide

end Operation

/-- The server's tasks, and what each of them has begun last. -/
structure System where
  pool : Pool TaskId Mutex Empty Nat
  current : TaskId → Option Operation

/-- A task goes on, the data changes, or a task that has nothing left begins an operation. -/
inductive Event where
  | moves (t : TaskId)
  | changes (data : Nat)
  | begins (t : TaskId) (op : Operation)
  deriving DecidableEq

namespace System

def initial : System where
  pool := {
    shared := 0
    owner := fun _ => none
    queue := []
    rest := fun _ => .pure () }
  current _ := none

def change (S : System) (data : Nat) : System := { S with pool := { S.pool with shared := data } }

def begin (S : System) (t : TaskId) (op : Operation) : System where
  pool := S.pool.start t op.program
  current := Function.update S.current t (some op)

/-- The task is at this operation. -/
def InProgress (S : System) (t : TaskId) (op : Operation) : Prop :=
  S.current t = some op ∧ S.pool.rest t ≠ .pure ()

end System

inductive Takes : System → Event → System → Prop where
  | moves {S t pool} (h : Pool.Moves 0 t S.pool pool) : Takes S (.moves t) { S with pool }
  | changes {S} (data : Nat) : Takes S (.changes data) (S.change data)
  | begins {S t op} (hof : op.isOf t = true) (hdone : S.pool.rest t = .pure ()) :
      Takes S (.begins t op) (S.begin t op)

/-- Runs of the server's tasks whose steps all meet `guard`, with their number. -/
abbrev Serves (guard : System → Event → Prop) : Nat → System → Prop :=
  Run (· = System.initial) Takes (fun _ => 0) (fun _ _ => 1) guard

/-- No operation begins while the parser stands in its way, or while it stands in the way of the
parser's. -/
def KeepsApart (S : System) : Event → Prop
  | .begins _ op => ∀ t op', S.InProgress t op' → op.conflicts op' = false ∧
      op'.conflicts op = false
  | _ => True

/-- Which mutexes a task takes while it holds which, as far as it has begun something. -/
def System.MayNest (S : System) (t : TaskId) (a b : Mutex) : Prop :=
  ∃ op ∈ S.current t, op.MayNest a b

/-- Every task keeps to the nesting of its own operation, and no two operations in progress stand in
each other's way. -/
structure Apart (S : System) : Prop where
  keeps : ∀ t, S.pool.Keeps (S.MayNest t) (fun _ => True) t
  isOf : ∀ t, ∀ op ∈ S.current t, op.isOf t = true
  apart : ∀ t t' op op', S.InProgress t op → S.InProgress t' op' → op.conflicts op' = false

namespace Apart

variable {S S' : System} {e : Event}

theorem initial : Apart .initial where
  keeps _ := ⟨[], rfl, nofun⟩
  isOf _ _ h := by cases h
  apart _ _ _ _ h := by cases h.1

theorem conflicts_self (op : Operation) : op.conflicts op = false := by
  cases op <;> rfl

theorem step (h : Apart S) (hstep : Takes S e S') (hkeeps : KeepsApart S e) : Apart S' := by
  cases hstep with
  | @moves t pool hm =>
    refine ⟨fun t' => (h.keeps t').moves hm, h.isOf, fun t₁ t₂ op₁ op₂ h₁ h₂ => ?_⟩
    have hold : ∀ {t' op}, System.InProgress { S with pool } t' op → S.InProgress t' op := by
      intro t' op hin
      refine ⟨hin.1, fun hdone => ?_⟩
      by_cases heq : t' = t
      · subst heq
        exact hm.not_done hdone
      · exact hin.2 ((hm.rest_of_ne heq).trans hdone)
    exact h.apart t₁ t₂ op₁ op₂ (hold h₁) (hold h₂)
  | changes data => exact ⟨h.keeps, h.isOf, h.apart⟩
  | @begins t op hof hdone =>
    have hother : ∀ {t'}, t' ≠ t → (S.begin t op).current t' = S.current t' := by
      intro t' hne
      exact Function.update_of_ne hne ..
    have hself : (S.begin t op).current t = some op := Function.update_self ..
    have hold : ∀ {t' op'}, t' ≠ t → (S.begin t op).InProgress t' op' → S.InProgress t' op' := by
      intro t' op' hne hin
      refine ⟨(hother hne).symm.trans hin.1, ?_⟩
      rw [← Pool.start_rest_of_ne op.program hne]
      exact hin.2
    have hnew : ∀ {op'}, (S.begin t op).InProgress t op' → op' = op := by
      intro op' hin
      exact (Option.some.inj (hself.symm.trans hin.1)).symm
    refine ⟨fun t' => ?_, fun t' op' hop' => ?_, fun t₁ t₂ op₁ op₂ h₁ h₂ => ?_⟩
    · by_cases heq : t' = t
      · subst heq
        have hkept := (h.keeps t').start_self hdone (within_program op)
        apply hkept.mono
        intro a b hab
        exact ⟨op, hself, hab⟩
      · have hkept := (h.keeps t').start_of_ne op.program heq
        apply hkept.mono
        intro a b hab
        rwa [System.MayNest, hother heq]
    · by_cases heq : t' = t
      · subst heq
        cases Option.some.inj (hself.symm.trans hop')
        exact hof
      · rw [hother heq] at hop'
        exact h.isOf t' op' hop'
    · by_cases heq₁ : t₁ = t
      · subst heq₁
        cases hnew h₁
        by_cases heq₂ : t₂ = t₁
        · subst heq₂
          cases hnew h₂
          exact conflicts_self op
        · exact (hkeeps t₂ op₂ (hold heq₂ h₂)).1
      · by_cases heq₂ : t₂ = t
        · subst heq₂
          cases hnew h₂
          exact (hkeeps t₁ op₁ (hold heq₁ h₁)).2
        · exact h.apart t₁ t₂ op₁ op₂ (hold heq₁ h₁) (hold heq₂ h₂)

theorem inProgress_of_waits {t t' : TaskId} {op : Operation} (hop : S.current t = some op)
    (hwaits : S.pool.Waits t t') : S.InProgress t op := by
  refine ⟨hop, fun hdone => ?_⟩
  obtain ⟨l, next, hrest, -⟩ := hwaits
  rw [hrest] at hdone
  cases hdone

/-- What the parser is at gives an order in which every task takes its mutexes. -/
theorem not_deadlocked (h : Apart S) (set : Set TaskId) : ¬S.pool.Deadlocked set := by
  intro hdead
  have hothers : ∀ t op, t ≠ .parser → S.InProgress t op → op.ofParser = false := by
    intro t op hne hin
    exact Operation.ofParser_of_isOf (h.isOf t op hin.1) hne
  obtain ⟨p, hparser, hfree⟩ : ∃ p : Operation, p.ofParser = true ∧
      ∀ t op, S.InProgress t op → (op = p ∨ op.ofParser = false) ∧ p.conflicts op = false := by
    by_cases hbusy : ∃ p, S.InProgress .parser p
    · obtain ⟨p, hp⟩ := hbusy
      refine ⟨p, h.isOf .parser p hp.1, fun t op hin => ⟨?_, h.apart .parser t p op hp hin⟩⟩
      by_cases heq : t = .parser
      · subst heq
        exact .inl (Option.some.inj (hin.1.symm.trans hp.1))
      · exact .inr (hothers t op heq hin)
    · -- the order of `setProperties` goes with all that the others do
      refine ⟨.setProperties, rfl, fun t op hin => ⟨.inr (hothers t op ?_ hin), rfl⟩⟩
      intro heq
      subst heq
      exact hbusy ⟨op, hin⟩
  apply Pool.not_deadlocked_of_order p.lockOrder _ hdead
  · exact fun _ => True
  intro t ht
  obtain ⟨t', -, hwaits⟩ := hdead.2 t ht
  apply (h.keeps t).mono
  intro a b hab
  obtain ⟨op, hop, hnest⟩ := hab
  obtain ⟨hkind, hop'⟩ := hfree t op (inProgress_of_waits hop hwaits)
  exact hnest.lt hparser hkind hop'

end Apart

section Perform

namespace System

/-- The step for an event, if it can happen. -/
def take (S : System) : Event → Option System
  | .moves t => (S.pool.move 0 t).map fun pool => { S with pool }
  | .changes data => some (S.change data)
  | .begins t op => if op.isOf t && (S.pool.rest t).isDone then some (S.begin t op) else none

end System

theorem takes_of_take {S S' : System} {e : Event} (h : S.take e = some S') : Takes S e S' := by
  cases e with
  | moves t =>
    obtain ⟨pool, hmove, rfl⟩ := Option.map_eq_some_iff.mp h
    exact .moves (Pool.moves_of_move hmove)
  | changes data =>
    cases h
    exact .changes data
  | begins t op =>
    simp only [System.take] at h
    split_ifs at h with hs
    cases h
    rw [Bool.and_eq_true] at hs
    exact .begins hs.1 (Prog.eq_pure_of_isDone hs.2)

/-- A run goes on with these events, as long as they can happen. -/
theorem serves_foldlM {guard : System → Event → Prop} {n : Nat} {S S' : System}
    {events : List Event} (run : Serves guard n S) (hg : ∀ e ∈ events, ∀ S, guard S e)
    (h : events.foldlM System.take S = some S') : ∃ n', Serves guard n' S' := by
  induction events generalizing S n with
  | nil =>
    cases h
    exact ⟨n, run⟩
  | cons e events ih =>
    obtain ⟨S₁, hfirst, h⟩ := Option.bind_eq_some_iff.mp h
    have hnext := run.step (hg e (List.mem_cons_self ..) S) (takes_of_take hfirst)
    exact ih hnext (fun e he => hg e (List.mem_cons_of_mem _ he)) h

end Perform

/-- While no operation begins in the way of another, no tasks of the server wait for each other. -/
theorem never_deadlocked {n : Nat} {S : System} (run : Serves KeepsApart n S) (set : Set TaskId) :
    ¬S.pool.Deadlocked set := by
  have hapart : Apart S := by
    refine run.invariant (fun _ S => Apart S) ?_ ?_
    · intro S hinit
      rw [hinit]
      exact .initial
    · intro k S e S' _ h hkeeps hstep
      exact h.step hstep hkeeps
  exact hapart.not_deadlocked set

/-- The `send_out` loop goes on, and then the parser. -/
def onwards : List Event :=
  List.replicate 4 (.moves .sendOut) ++ [.changes 1] ++ List.replicate 6 (.moves .parser)

/-- The parser publishes a topic while the `send_out` loop is at work, which comes to wait for it. -/
theorem never_deadlocked_publish : ∃ n S, Serves KeepsApart n S ∧
    S.pool.owner .subscriptions = some .sendOut ∧ S.pool.owner .topics = some .parser ∧
    S.pool.waitsFor .sendOut = some .parser ∧ ¬S.pool.Deadlocked Set.univ := by
  have hstart : Serves KeepsApart 0 .initial := .start rfl
  have hfirst : KeepsApart .initial (.begins .sendOut .sendOut) := by
    intro t op hin
    cases hin.1
  have hloop := hstart.step hfirst (.begins rfl rfl)
  have hkeeps : KeepsApart (System.initial.begin .sendOut .sendOut) (.begins .parser .publish) := by
    intro t op hin
    cases op <;> exact ⟨rfl, rfl⟩
  have hboth := hloop.step hkeeps (.begins rfl rfl)
  have hrun : (onwards.foldlM System.take
      ((System.initial.begin .sendOut .sendOut).begin .parser .publish)).map (fun S =>
        (S.pool.owner .subscriptions, S.pool.owner .topics, S.pool.waitsFor .sendOut)) =
      some (some .sendOut, some .parser, some .parser) := by decide +kernel
  obtain ⟨S, hS, hview⟩ := Option.map_eq_some_iff.mp hrun
  simp only [Prod.mk.injEq] at hview
  obtain ⟨hsubscriptions, htopics, hwaits⟩ := hview
  have honwards : ∀ e ∈ onwards, ∀ S, KeepsApart S e := by
    intro e he S
    cases e with
    | begins t op => simp [onwards] at he
    | moves | changes => trivial
  obtain ⟨n, run⟩ := serves_foldlM hboth honwards hS
  exact ⟨n, S, run, hsubscriptions, htopics, hwaits, never_deadlocked run Set.univ⟩

/-- The task begins this and goes on for a while. -/
def works (t : TaskId) (op : Operation) (data steps : Nat) : List Event :=
  [.changes data, .begins t op] ++ List.replicate steps (.moves t)

theorem begins_works {t t' : TaskId} {op op' : Operation} {data steps : Nat}
    (h : .begins t' op' ∈ works t op data steps) : op' = op := by
  rcases List.mem_append.mp h with h | h
  · simp only [List.mem_cons, Event.begins.injEq, reduceCtorEq, false_or, List.not_mem_nil,
      or_false] at h
    exact h.2
  · cases List.eq_of_mem_replicate h

/-- How far the parser and the other task get before each waits for the other. -/
def stepsBefore : Operation → Operation → Nat × Nat
  | .subscribe, .sendOut => (10, 4)
  | .unsubscribe, .sendOut => (3, 4)
  | .binary, .sendOut => (6, 4)
  | .subscribe, .publishTopic => (7, 5)
  | .unsubscribe, .publishTopic => (5, 25)
  | .unpublish, .publishTopic => (2, 5)
  | .binary, .publishTopic => (3, 5)
  | .close, .publishTopic => (8, 5)
  | _, _ => (0, 0)

/-- The task of an operation that the parser may be in the way of. -/
def otherTask (op : Operation) : TaskId := if op = .sendOut then .sendOut else .handle 0

/-- The other operation begins, and then the parser's. There are subscriptions, and all the topics
and clients that are looked for. -/
def collision (op op' : Operation) : List Event :=
  let steps := stepsBefore op op'
  works (otherTask op') op' (if op' = .sendOut then 0 else 1) steps.2 ++ works .parser op 1 steps.1

/-- An operation of the parser and another that it stands in the way of can come to wait for each
other, and need nobody else for it. -/
theorem deadlocked_of_conflicts {op op' : Operation} (h : op.conflicts op' = true) :
    ∃ n S, Serves (fun _ e => ∀ t op'', e = .begins t op'' → op'' = op ∨ op'' = op') n S ∧
      S.pool.Deadlocked {.parser, otherTask op'} := by
  have hrun : ((collision op op').foldlM System.take .initial).map
      (fun S => (S.pool.waitsFor .parser, S.pool.waitsFor (otherTask op'))) =
        some (some (otherTask op'), some .parser) := by
    revert h
    cases op <;> cases op' <;> decide +kernel
  have hbegins : ∀ e ∈ collision op op', ∀ t op'', e = .begins t op'' → op'' = op ∨ op'' = op' := by
    intro e he t op'' heq
    rw [heq] at he
    exact ((List.mem_append.mp he).imp begins_works begins_works).symm
  obtain ⟨S, hS, hview⟩ := Option.map_eq_some_iff.mp hrun
  obtain ⟨hwaits, hwaits'⟩ := Prod.mk.inj hview
  obtain ⟨n, run⟩ := serves_foldlM (.start rfl) (fun e he _ => hbegins e he) hS
  refine ⟨n, S, run, ⟨.parser, Set.mem_insert ..⟩, fun t ht => ?_⟩
  rcases ht with rfl | rfl
  · exact ⟨_, Set.mem_insert_of_mem _ rfl, Pool.waits_of_waitsFor hwaits⟩
  · exact ⟨_, Set.mem_insert .., Pool.waits_of_waitsFor hwaits'⟩

/-- The `send_out` loop and a subscription wait for each other. -/
theorem deadlocked_subscribe :
    ¬∀ n S set, Serves (fun _ _ => True) n S → ¬S.pool.Deadlocked set := by
  intro hclaim
  have hconflict : Operation.subscribe.conflicts .sendOut = true := rfl
  obtain ⟨n, S, run, hdead⟩ := deadlocked_of_conflicts hconflict
  exact hclaim n S _ (run.mono fun _ _ _ => trivial) hdead

end NetTables.Server.Locking
