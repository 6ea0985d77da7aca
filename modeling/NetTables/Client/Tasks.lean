import NetTables.Client.Inner
import NetTables.Lib.Pool
import NetTables.Lib.Run

namespace NetTables.Client

open Lib Spec

/-- The task that reads and writes the socket, the call of `start`, the task that keeps the time,
and the users' tasks. -/
inductive TaskId where
  | socket
  | start
  | timestamp
  | user (n : Nat)
  deriving DecidableEq

abbrev Tasks := Pool TaskId Mutex SocketMessage ClientState

/-- The capacity of the socket channel. -/
def socketCapacity : Nat := 100

/-- A client at work: its tasks, whether the socket task has a connection or tries to get one, and
what it has sent on the newest connection. -/
structure System where
  pool : Tasks
  connected : Bool
  wire : List SocketMessage

/-- What may happen next. -/
inductive Event where
  | moves (t : TaskId)
  | incoming (message : InnerClient.Incoming)
  | connectionLost
  | written
  | writeFailed
  | reconnected
  | timer
  | call (user : Nat) (call : ApiCall)
  | tick (micros : Nat)

/-- The task that the event is about. -/
def Event.task : Event → Option TaskId
  | .moves t => some t
  | .incoming _ | .reconnected => some .socket
  | .timer => some .timestamp
  | .call n _ => some (.user n)
  | _ => none

namespace System

/-- The socket task waits in its `select!`. -/
def Selects (S : System) : Prop := S.connected = true ∧ S.pool.rest .socket = .pure ()

/-- The calls and the timer come when `start` has returned. -/
def Opened (S : System) : Prop := S.pool.rest .start = .pure ()

def startTask (S : System) (t : TaskId) (p : ClientM Unit) : System :=
  { S with pool := S.pool.start t p }

end System

/-- The steps of a client at work. -/
inductive Takes (ofTypeStr : String → FrcType) : System → Event → System → Prop where
  | moves {S t pool} (h : Pool.Moves socketCapacity t S.pool pool) :
      Takes ofTypeStr S (.moves t) { S with pool }
  | incoming {S message} (o : IterOrder) (h : S.Selects) :
      Takes ofTypeStr S (.incoming message)
        (S.startTask .socket (InnerClient.handleMessage o ofTypeStr message))
  | connectionLost {S} (h : S.Selects) :
      Takes ofTypeStr S .connectionLost { S with connected := false }
  | written {S m queue} (h : S.Selects) (hqueue : S.pool.queue = m :: queue) :
      Takes ofTypeStr S .written
        { S with pool := { S.pool with queue }, wire := S.wire ++ [m] }
  | writeFailed {S m queue} (h : S.Selects) (hqueue : S.pool.queue = m :: queue) :
      -- the message that could not be written is lost
      Takes ofTypeStr S .writeFailed { S with pool := { S.pool with queue }, connected := false }
  | reconnected {S} (o : IterOrder) (h : S.connected = false) :
      Takes ofTypeStr S .reconnected
        { S.startTask .socket (InnerClient.onOpen o) with connected := true, wire := [] }
  | timer {S} (hopen : S.Opened) (h : S.pool.rest .timestamp = .pure ()) :
      Takes ofTypeStr S .timer (S.startTask .timestamp InnerClient.updateTime)
  | call {S n call} (hopen : S.Opened) (h : S.pool.rest (.user n) = .pure ()) :
      Takes ofTypeStr S (.call n call) (S.startTask (.user n) call.program)
  | tick {S} (micros : Nat) :
      Takes ofTypeStr S (.tick micros) { S with pool := { S.pool with
        shared := { S.pool.shared with now := S.pool.shared.now + micros } } }

/-- `start` has just got its connection. -/
def System.initial (o : IterOrder) (now : Instant) : System where
  pool := {
    shared := { inner := { startInstant := now }, now }
    owner := fun _ => none
    queue := []
    rest := fun t => if t = .start then InnerClient.onOpen o else .pure () }
  connected := true
  wire := []

/-- Runs of a client whose steps all meet `guard`, with their number. -/
abbrev Works (ofTypeStr : String → FrcType) (guard : System → Event → Prop) : Nat → System → Prop :=
  Run (fun S => ∃ o now, S = .initial o now) (Takes ofTypeStr) (fun _ => 0) (fun _ _ => 1) guard

section Perform

variable (o : IterOrder) (ofTypeStr : String → FrcType)

namespace System

def selects (S : System) : Bool := S.connected && (S.pool.rest .socket).isDone

def opened (S : System) : Bool := (S.pool.rest .start).isDone

/-- The step for an event, if it can happen. -/
def take (S : System) : Event → Option System
  | .moves t => (S.pool.move socketCapacity t).map fun pool => { S with pool }
  | .incoming message =>
    if S.selects then
      some (S.startTask .socket (InnerClient.handleMessage o ofTypeStr message))
    else
      none
  | .connectionLost => if S.selects then some { S with connected := false } else none
  | .written =>
    match S.pool.queue with
    | [] => none
    | m :: queue =>
      if S.selects then
        some { S with pool := { S.pool with queue }, wire := S.wire ++ [m] }
      else
        none
  | .writeFailed =>
    match S.pool.queue with
    | [] => none
    | _ :: queue =>
      if S.selects then
        some { S with pool := { S.pool with queue }, connected := false }
      else
        none
  | .reconnected =>
    if S.connected then
      none
    else
      some { S.startTask .socket (InnerClient.onOpen o) with connected := true, wire := [] }
  | .timer =>
    if S.opened && (S.pool.rest .timestamp).isDone then
      some (S.startTask .timestamp InnerClient.updateTime)
    else
      none
  | .call n call =>
    if S.opened && (S.pool.rest (.user n)).isDone then
      some (S.startTask (.user n) call.program)
    else
      none
  | .tick micros => some { S with pool := { S.pool with
      shared := { S.pool.shared with now := S.pool.shared.now + micros } } }

/-- One event after the other, as long as they can happen. -/
def takeAll (S : System) : List Event → Option System
  | [] => some S
  | e :: events => (S.take o ofTypeStr e).bind fun S' => S'.takeAll events

/-- The same, as long as `ok` holds before each of them. -/
def takeAllIf (ok : System → Event → Bool) (S : System) : List Event → Option System
  | [] => some S
  | e :: events =>
    if ok S e then (S.take o ofTypeStr e).bind fun S' => S'.takeAllIf ok events else none

/-- What is left of the tasks of a client with one user. -/
def all (S : System) (p : ClientM Unit → Bool) : Bool :=
  [.socket, .start, .timestamp, .user 0].all fun t => p (S.pool.rest t)

end System

variable {o : IterOrder} {ofTypeStr : String → FrcType} {S S' : System} {e : Event}

theorem selects_of_selects (h : S.selects = true) : S.Selects := by
  rw [System.selects, Bool.and_eq_true] at h
  exact ⟨h.1, Prog.eq_pure_of_isDone h.2⟩

theorem takes_of_take (h : S.take o ofTypeStr e = some S') : Takes ofTypeStr S e S' := by
  cases e with
  | moves t =>
    obtain ⟨pool, hmove, rfl⟩ := Option.map_eq_some_iff.mp h
    exact .moves (Pool.moves_of_move hmove)
  | incoming message =>
    simp only [System.take] at h
    split_ifs at h with hs
    cases h
    exact .incoming o (selects_of_selects hs)
  | connectionLost =>
    simp only [System.take] at h
    split_ifs at h with hs
    cases h
    exact .connectionLost (selects_of_selects hs)
  | written =>
    simp only [System.take] at h
    split at h
    · cases h
    next hqueue =>
      split_ifs at h with hs
      cases h
      exact .written (selects_of_selects hs) hqueue
  | writeFailed =>
    simp only [System.take] at h
    split at h
    · cases h
    next hqueue =>
      split_ifs at h with hs
      cases h
      exact .writeFailed (selects_of_selects hs) hqueue
  | reconnected =>
    simp only [System.take] at h
    split_ifs at h with hs
    cases h
    exact .reconnected o (Bool.not_eq_true _ ▸ hs)
  | timer =>
    simp only [System.take] at h
    split_ifs at h with hs
    cases h
    rw [Bool.and_eq_true] at hs
    exact .timer (Prog.eq_pure_of_isDone hs.1) (Prog.eq_pure_of_isDone hs.2)
  | call n call =>
    simp only [System.take] at h
    split_ifs at h with hs
    cases h
    rw [Bool.and_eq_true] at hs
    exact .call (Prog.eq_pure_of_isDone hs.1) (Prog.eq_pure_of_isDone hs.2)
  | tick micros =>
    cases h
    exact .tick micros

theorem Takes.rest_of_ne {t : TaskId} (h : Takes ofTypeStr S e S') (hne : e.task ≠ some t) :
    S'.pool.rest t = S.pool.rest t := by
  have hstart : ∀ {t' p}, Event.task e = some t' → (S.pool.start t' p).rest t = S.pool.rest t := by
    intro t' p htask
    apply Pool.start_rest_of_ne
    rintro rfl
    exact hne htask
  cases h with
  | moves hmoves =>
    apply hmoves.rest_of_ne
    rintro rfl
    exact hne rfl
  | incoming | reconnected | timer | call => exact hstart rfl
  | connectionLost | written | writeFailed | tick => rfl

theorem rest_takeAll {events : List Event} {t : TaskId}
    (h : S.takeAll o ofTypeStr events = some S') (hne : ∀ e ∈ events, e.task ≠ some t) :
    S'.pool.rest t = S.pool.rest t := by
  induction events generalizing S with
  | nil =>
    cases h
    rfl
  | cons e events ih =>
    obtain ⟨S₁, hfirst, h⟩ := Option.bind_eq_some_iff.mp h
    have hrest := (takes_of_take hfirst).rest_of_ne (hne e (List.mem_cons_self ..))
    rw [ih h fun e' he' => hne e' (List.mem_cons_of_mem _ he'), hrest]

theorem takeAll_of_takeAllIf {ok : System → Event → Bool} {events : List Event}
    (h : S.takeAllIf o ofTypeStr ok events = some S') : S.takeAll o ofTypeStr events = some S' := by
  induction events generalizing S with
  | nil => exact h
  | cons e events ih =>
    simp only [System.takeAllIf] at h
    split_ifs at h
    obtain ⟨S₁, hfirst, h⟩ := Option.bind_eq_some_iff.mp h
    exact Option.bind_eq_some_iff.mpr ⟨S₁, hfirst, ih h⟩

theorem works_takeAllIf {guard : System → Event → Prop} {ok : System → Event → Bool}
    (hok : ∀ S e, ok S e = true → guard S e) {n : Nat} {events : List Event}
    (run : Works ofTypeStr guard n S) (h : S.takeAllIf o ofTypeStr ok events = some S') :
    ∃ n', Works ofTypeStr guard n' S' := by
  induction events generalizing S n with
  | nil =>
    cases h
    exact ⟨n, run⟩
  | cons e events ih =>
    simp only [System.takeAllIf] at h
    split_ifs at h with hS
    obtain ⟨S₁, hfirst, h⟩ := Option.bind_eq_some_iff.mp h
    exact ih (run.step (hok S e hS) (takes_of_take hfirst)) h

theorem works_takeAll {n : Nat} {events : List Event} (run : Works ofTypeStr (fun _ _ => True) n S)
    (h : S.takeAll o ofTypeStr events = some S') :
    ∃ n', Works ofTypeStr (fun _ _ => True) n' S' := by
  induction events generalizing S n with
  | nil =>
    cases h
    exact ⟨n, run⟩
  | cons e events ih =>
    obtain ⟨S₁, hfirst, h⟩ := Option.bind_eq_some_iff.mp h
    exact ih (run.step trivial (takes_of_take hfirst)) h

/-- These events are about a client with one user. -/
def alone (events : List Event) : Bool :=
  events.all fun e => e.task ∈ [none, some .socket, some .start, some .timestamp, some (.user 0)]

theorem all_alone {now : Instant} {events : List Event}
    (h : (System.initial o now).takeAll o ofTypeStr events = some S)
    (hevents : alone events = true) {p : ClientM Unit → Bool} (hp : S.all p = true)
    (hpure : p (.pure ()) = true) (t : TaskId) : p (S.pool.rest t) = true := by
  have hall := List.all_eq_true.mp hp
  cases t with
  | user n =>
    cases n with
    | zero => exact hall _ (by simp)
    | succ n =>
      have hother : ∀ e ∈ events, e.task ≠ some (.user (n + 1)) := by
        intro e he heq
        have hmem := of_decide_eq_true (List.all_eq_true.mp hevents e he)
        simp [heq] at hmem
      rw [rest_takeAll h hother]
      exact hpure
  | _ => exact hall _ (by simp)

end Perform

end NetTables.Client
