import NetTables.Server.SendTurns
import Mathlib.Tactic.Linarith

namespace NetTables.Server

open Lib Lib.Fallible Spec

variable {o : IterOrder} {clock : SendClock} {offset : ℚ} {s : InnerServer}

/-- One round of the loop of `send_out`: its new `soonest_offset`, and what it passes to
`Duration::from_secs_f64`. -/
def sendRound (o : IterOrder) (clock : SendClock) (soonestOffset : ℚ) : ServerM (ℚ × ℚ) := do
  if (← get).subscriptions.keys.length = 0 then
    pure (soonestOffset, soonestOffset)
  else
    let soonestOffset ← sendOut o clock soonestOffset
    pure (soonestOffset, max 0 (min (soonestOffset - 1 / 2000) (1 / 10)))

/-- The loop beside the server it works on, with all it has slept so far. -/
structure SendLoop where
  server : InnerServer
  soonestOffset : ℚ := 1 / 10
  slept : List ℚ := []

/-- What happens next: a round of the loop, or another operation between two rounds. -/
inductive LoopEvent where
  | round (clock : SendClock)
  | server (op : Op)

/-- Only the loop runs passes. -/
def Op.isPass : Op → Bool
  | .sendOut _ _ => true
  | _ => false

def SendLoop.next (o : IterOrder) (S : SendLoop) : LoopEvent → Option SendLoop
  | .round clock =>
    match (sendRound o clock S.soonestOffset).exec S.server with
    | .ok (.ok (soonestOffset, sleep), server) => some ⟨server, soonestOffset, S.slept ++ [sleep]⟩
    | _ => none
  | .server op =>
    if op.isPass then
      none
    else
      match (op.perform o).exec S.server with
      | .ok (_, server) => some { S with server }
      | .error _ => none

/-- The runs of the loop whose events all meet a guard, with the number of events. -/
abbrev LoopRun (guard : SendLoop → LoopEvent → Prop) : ℕ → SendLoop → Prop :=
  Lib.Run (fun S => ∃ s, Init s ∧ S = { server := s }) (fun S e S' => ∃ o, S.next o e = some S')
    (fun _ => 0) (fun _ _ => 1) guard

/-- No subscription asks for a negative period. -/
def PositivePeriods (_ : SendLoop) : LoopEvent → Prop
  | .server (.subscribe sub _ _) =>
    0 ≤ periodOf ⟨sub.subuid, sub.topics, sub.options⟩
  | _ => True

/-- Where the first reading of a pass leaves a subscription aside, the second one, of the offset, does
not find its period over. -/
def ReadsInTime (S : SendLoop) : LoopEvent → Prop
  | .round clock => ∀ i sub c since, S.server.subscriptions.lookup i = some (sub, c) →
      isTopicsOnly sub = false → S.server.subSendTimestamps.lookup i = some since →
      IsNear clock i sub since → elapsed (clock.offset i) since ≤ periodOf sub
  | .server _ => True

/-- A pass leaves an offset that is not negative. -/
theorem ends_sendOut_offset (hoffset : 0 ≤ offset)
    (hread : ∀ i sub c since, s.subscriptions.lookup i = some (sub, c) →
      isTopicsOnly sub = false → s.subSendTimestamps.lookup i = some since →
      IsNear clock i sub since → elapsed (clock.offset i) since ≤ periodOf sub) :
    Ends (sendOut o clock offset) s fun r _ => ∀ b, r = .ok b → 0 ≤ b := by
  simp only [sendOut, ends_bind, ends_get, thenEnds_ok]
  -- the timestamps of the subscriptions still to come are those before the pass
  have hloop := ends_foldEach
    (fun rest b u => 0 ≤ b ∧ (rest.map Prod.fst).Nodup ∧
      (∀ e ∈ rest, s.subscriptions.lookup e.1 = some e.2) ∧
      ∀ e ∈ rest, u.subSendTimestamps.lookup e.1 = s.subSendTimestamps.lookup e.1)
    (fun _ _ => True) (sendTurn o clock) (by
      intro e rest b u hinv
      obtain ⟨i, sub, c⟩ := e
      obtain ⟨hb, hnodup, hsubs, hstamps⟩ := hinv
      obtain ⟨hnot, hnodup⟩ := List.nodup_cons.mp hnodup
      refine ends_mono ends_sendTurn_all ?_
      intro r u' hr
      obtain ⟨b', rfl, hturn⟩ := hr
      have hrest : ∀ e ∈ rest, u'.subSendTimestamps.lookup e.1 =
          s.subSendTimestamps.lookup e.1 := by
        intro e he
        have hmem : e.1 ∈ rest.map Prod.fst := List.mem_map_of_mem he
        have hne : e.1 ≠ i := fun heq => hnot (heq ▸ hmem)
        exact (Beside.turn hne hturn).stamp.trans (hstamps e (List.mem_cons_of_mem _ he))
      refine ⟨?_, hnodup, fun e he => hsubs e (List.mem_cons_of_mem _ he), hrest⟩
      cases hturn with
      | topicsOnly | gone | sends => exact hb
      | near since hvalues hsince hnear =>
        rw [hstamps _ List.mem_cons_self] at hsince
        have hle := hread i sub c since (hsubs _ List.mem_cons_self) hvalues hsince hnear
        linarith)
    (o.walk s.subscriptions) offset s
    ⟨hoffset, o.nodup_walk _, fun e he => (o.mem_walk _ _ _).mp he, fun _ _ => rfl⟩
  refine ends_mono hloop ?_
  intro r u hu b hb
  subst hb
  exact hu.1

/-- The offset that is carried, and everything slept so far. -/
structure SleepsWell (S : SendLoop) : Prop where
  offset : 0 ≤ S.soonestOffset
  slept : ∀ x ∈ S.slept, 0 ≤ x

theorem SleepsWell.snoc {server : InnerServer} {S : SendLoop} {sleep : ℚ} (h : SleepsWell S)
    (hoffset : 0 ≤ offset) (hsleep : 0 ≤ sleep) :
    SleepsWell ⟨server, offset, S.slept ++ [sleep]⟩ := by
  refine ⟨hoffset, fun x hx => ?_⟩
  rcases List.mem_append.mp hx with hx | hx
  · exact h.slept x hx
  · rw [List.mem_singleton.mp hx]
    exact hsleep

theorem ends_sendRound (hoffset : 0 ≤ offset)
    (hread : ∀ i sub c since, s.subscriptions.lookup i = some (sub, c) →
      isTopicsOnly sub = false → s.subSendTimestamps.lookup i = some since →
      IsNear clock i sub since → elapsed (clock.offset i) since ≤ periodOf sub) :
    Ends (sendRound o clock offset) s fun r _ => ∀ p, r = .ok p → 0 ≤ p.1 ∧ 0 ≤ p.2 := by
  simp only [sendRound, ends_bind, ends_get, thenEnds_ok]
  split_ifs
  · refine (ends_pure _).mpr fun p hp => ?_
    cases hp
    exact ⟨hoffset, hoffset⟩
  · refine (ends_bind _ _).mpr (ends_mono (ends_sendOut_offset hoffset hread) ?_)
    intro r u hr
    cases r with
    | error e =>
      intro p hp
      cases hp
    | ok b =>
      refine (ends_pure _).mpr fun p hp => ?_
      cases hp
      exact ⟨hr b rfl, le_max_left _ _⟩

theorem SleepsWell.step {S S' : SendLoop} {e : LoopEvent} (h : SleepsWell S)
    (hg : ReadsInTime S e) (hnext : S.next o e = some S') : SleepsWell S' := by
  cases e with
  | round clock =>
    rw [SendLoop.next] at hnext
    split at hnext
    next soonestOffset sleep server hx =>
      cases hnext
      have hends := ends_of_exec (ends_sendRound h.offset hg) hx
      obtain ⟨hoffset, hsleep⟩ := hends _ rfl
      exact h.snoc hoffset hsleep
    · cases hnext
  | server op =>
    rw [SendLoop.next] at hnext
    split_ifs at hnext
    split at hnext
    next r server hx =>
      cases hnext
      exact ⟨h.offset, h.slept⟩
    · cases hnext

/-- In a run none of whose passes finds a period over between its two readings of a subscription that
is left aside, the loop never sleeps a negative time. -/
theorem sleeps_nonneg {n : ℕ} {S : SendLoop} (run : LoopRun ReadsInTime n S) :
    ∀ x ∈ S.slept, 0 ≤ x := by
  have hinv : SleepsWell S := by
    refine run.invariant (fun _ S => SleepsWell S) ?_ ?_
    · intro S hs
      obtain ⟨s, -, rfl⟩ := hs
      exact ⟨by norm_num, by simp⟩
    · intro n S e S' _ h hg hs
      obtain ⟨o, hnext⟩ := hs
      exact h.step hg hnext
  exact hinv.slept

section Concrete

/-- Runs a list of events, as long as each passes `check` and none of them panics. -/
def SendLoop.run (check : SendLoop → LoopEvent → Bool) (o : IterOrder) :
    List LoopEvent → SendLoop → Option SendLoop
  | [], S => some S
  | e :: es, S => if check S e then (S.next o e).bind (SendLoop.run check o es) else none

variable {check : SendLoop → LoopEvent → Bool} {guard : SendLoop → LoopEvent → Prop}

theorem loopRun_run {es : List LoopEvent} {n : ℕ} {S S' : SendLoop} (run : LoopRun guard n S)
    (hg : ∀ S e, check S e = true → guard S e) (h : S.run check o es = some S') :
    LoopRun guard (n + es.length) S' := by
  induction es generalizing n S with
  | nil =>
    cases h
    exact run
  | cons e es ih =>
    rw [SendLoop.run] at h
    split_ifs at h with hcheck
    obtain ⟨T, hnext, h⟩ := Option.bind_eq_some_iff.mp h
    have hone : LoopRun guard (n + 1) T := .step run (hg S e hcheck) ⟨o, hnext⟩
    have hlen : n + (e :: es).length = n + 1 + es.length := by
      rw [List.length_cons]
      omega
    rw [hlen]
    exact ih hone h

/-- The loop after `try_new` and a list of events. -/
def loopAfter (check : SendLoop → LoopEvent → Bool) (es : List LoopEvent) : Option SendLoop :=
  (stateAfter anyOp .stored []).bind fun s => SendLoop.run check .stored es { server := s }

theorem loopRun_loopAfter {es : List LoopEvent} {S : SendLoop}
    (hg : ∀ S e, check S e = true → guard S e) (h : loopAfter check es = some S) :
    LoopRun guard es.length S := by
  obtain ⟨s, hs, h⟩ := Option.bind_eq_some_iff.mp h
  have hinit : Init s := by
    rw [stateAfter] at hs
    split at hs
    next t hx =>
      cases hs
      exact ⟨.stored, hx⟩
    · cases hs
  have hstart : LoopRun guard 0 ({ server := s } : SendLoop) := .start ⟨s, hinit, rfl⟩
  have hrun := loopRun_run hstart hg h
  rwa [Nat.zero_add] at hrun

/-- A subscription that one pass leaves aside and that ends before the next. -/
def subscribeForAWhile (clock : SendClock) : List LoopEvent :=
  [.server (.connectClient ⟨.v4 10 0 0 2 5810, "a"⟩), .server (.subscribe ⟨0, {"x"}, none⟩ 1 0),
    .round clock, .server (.unsubscribe ⟨0⟩ 1), .round clock]

def readsInTime (S : SendLoop) : LoopEvent → Bool
  | .round clock => S.server.subscriptions.pairs.all fun e =>
      match S.server.subSendTimestamps.lookup e.1 with
      | some since => decide (elapsed (clock.offset e.1) since ≤ periodOf e.2.1)
      | none => true
  | .server _ => true

theorem readsInTime_of_check (S : SendLoop) (e : LoopEvent) (h : readsInTime S e = true) :
    ReadsInTime S e := by
  cases e with
  | server op => trivial
  | round clock =>
    intro i sub c since hi _ hsince _
    have hone := List.all_eq_true.mp h (i, sub, c) ((KeyMap.mem_pairs _ _ _).mpr hi)
    rw [hsince] at hone
    exact of_decide_eq_true hone

/-- A pass just before the end of the period. -/
def justBefore : SendClock := ⟨fun _ => 199 / 2000, fun _ => 199 / 2000, fun _ => 199 / 2000⟩

/-- A pass just after the end of the period. -/
def justAfter : SendClock := ⟨fun _ => 201 / 2000, fun _ => 201 / 2000, fun _ => 201 / 2000⟩

theorem sleeps_nonneg_justBefore :
    ∃ S, loopAfter readsInTime (subscribeForAWhile justBefore) = some S ∧
      S.slept = [0, 1 / 2000] ∧ ∀ x ∈ S.slept, 0 ≤ x := by
  have hrun : (loopAfter readsInTime (subscribeForAWhile justBefore)).map SendLoop.slept =
      some [0, 1 / 2000] := by decide +kernel
  obtain ⟨S, hS, hslept⟩ := Option.map_eq_some_iff.mp hrun
  exact ⟨S, hS, hslept, sleeps_nonneg (loopRun_loopAfter readsInTime_of_check hS)⟩

def positivePeriods (_ : SendLoop) : LoopEvent → Bool
  | .server (.subscribe sub _ _) =>
    decide (0 ≤ periodOf ⟨sub.subuid, sub.topics, sub.options⟩)
  | _ => true

theorem positivePeriods_of_check (S : SendLoop) (e : LoopEvent)
    (h : positivePeriods S e = true) : PositivePeriods S e := by
  cases e with
  | round clock => trivial
  | server op =>
    cases op with
    | subscribe sub c now =>
      have hle : 0 ≤ periodOf ⟨sub.subuid, sub.topics, sub.options⟩ := of_decide_eq_true h
      exact hle
    | _ => trivial

/-- A subscription found just after the end of its period ends, and the loop sleeps what it noted. -/
theorem sleeps_negative :
    ¬∀ n S, LoopRun PositivePeriods n S → ∀ x ∈ S.slept, 0 ≤ x := by
  intro h
  have hrun : (loopAfter positivePeriods (subscribeForAWhile justAfter)).map SendLoop.slept =
      some [0, -(1 / 2000)] := by decide +kernel
  obtain ⟨S, hS, hslept⟩ := Option.map_eq_some_iff.mp hrun
  have hnonneg := h _ S (loopRun_loopAfter positivePeriods_of_check hS)
  rw [hslept] at hnonneg
  have hlast := hnonneg (-(1 / 2000)) (by simp)
  norm_num at hlast

end Concrete

end NetTables.Server
