import NetTables.Server.Parser

namespace NetTables.Server

open Lib Lib.Fallible Spec

variable {s s' : InnerServer} {t u : TopicIdx} {i : SubIdx} {topic : Topic}
  {stored : StoredSubValue} {value old : FrcTimestampedValue} {v : ServerSendableValue}

/-- What waits for a subscription under a topic, if the subscription has a queue. -/
def InnerServer.waiting (s : InnerServer) (i : SubIdx) (u : TopicIdx) :
    Option (List ServerSendableValue) :=
  (s.subValues.lookup i).map fun stored => stored.queued u

/-- `set_value` returns, and has changed neither the stored values nor any queue. -/
def NoEffect (value : FrcTimestampedValue) (t : TopicIdx) (s : InnerServer) : Prop :=
  ∃ r s', (setValue value t).exec s = .ok (r, s') ∧ s'.topicValueMap = s.topicValueMap ∧
    ∀ i u, s'.waiting i u = s.waiting i u

/-- The queue of a subscription that is sent the latest values only, where this is the latest. -/
def StoredSubValue.HasLatest (stored : StoredSubValue) (t : TopicIdx) (v : ServerSendableValue) :
    Prop :=
  ∃ map, stored = .one map ∧ map.lookup t = some v

namespace StoredSubValue

theorem queued_addValue_of_ne (h : u ≠ t) : (stored.addValue t v).queued u = stored.queued u := by
  cases stored with
  | all map => cases hl : map.lookup t <;> simp [addValue, hl, queued, h]
  | one map => simp [addValue, queued, h]

theorem addValue_all (map : KeyMap TopicIdx (List ServerSendableValue)) :
    ∃ map', (all map).addValue t v = all map' ∧
      (all map').queued t = (all map).queued t ++ [v] := by
  cases hl : map.lookup t with
  | none => exact ⟨map.insert t [v], by simp [addValue, hl], by simp [queued, hl]⟩
  | some vec => exact ⟨map.insert t (vec ++ [v]), by simp [addValue, hl], by simp [queued, hl]⟩

/-- A queue for the latest value has it after any number of additions. -/
theorem queued_iterate_one (map : KeyMap TopicIdx ServerSendableValue) (n : Nat) :
    ((fun stored : StoredSubValue => stored.addValue t v)^[n + 1] (one map)).queued t = [v] := by
  induction n generalizing map with
  | zero => simp [addValue, queued]
  | succ n ih =>
    rw [Function.iterate_succ_apply]
    exact ih _

/-- A queue for all values has one more for each addition. -/
theorem queued_iterate_all (map : KeyMap TopicIdx (List ServerSendableValue)) (n : Nat) :
    (((fun stored : StoredSubValue => stored.addValue t v)^[n] (all map)).queued t).length =
      ((all map).queued t).length + n := by
  induction n generalizing map with
  | zero => rfl
  | succ n ih =>
    obtain ⟨map', hadd, hqueued⟩ := addValue_all (t := t) (v := v) map
    rw [Function.iterate_succ_apply, hadd, ih, hqueued]
    simp
    omega

theorem queued_iterate_of_ne (h : u ≠ t) (n : Nat) :
    ((fun stored : StoredSubValue => stored.addValue t v)^[n] stored).queued u =
      stored.queued u := by
  induction n generalizing stored with
  | zero => rfl
  | succ n ih => rw [Function.iterate_succ_apply, ih, queued_addValue_of_ne h]

/-- Additions of one value leave a queue as it is exactly where there are none, or where the queue
is for the latest value and has it. -/
theorem queued_iterate_iff (n : Nat) :
    (∀ u, ((fun stored : StoredSubValue => stored.addValue t v)^[n] stored).queued u =
      stored.queued u) ↔ (n ≠ 0 → stored.HasLatest t v) := by
  cases n with
  | zero => simp
  | succ n =>
    constructor
    · intro h _
      have ht := h t
      cases stored with
      | all map =>
        have hlength := congrArg List.length ht
        rw [queued_iterate_all] at hlength
        omega
      | one map =>
        rw [queued_iterate_one] at ht
        have hlook : [v] = (map.lookup t).toList := ht
        refine ⟨map, rfl, ?_⟩
        cases hl : map.lookup t with
        | none => simp [hl] at hlook
        | some w =>
          rw [hl] at hlook
          simpa using hlook.symm
    · intro h u
      obtain ⟨map, rfl, hl⟩ := h (Nat.succ_ne_zero n)
      by_cases hu : u = t
      · subst hu
        rw [queued_iterate_one]
        simp [queued, hl]
      · exact queued_iterate_of_ne hu _

end StoredSubValue

/-- A value that is older than the stored one is fanned out and not stored. -/
theorem ends_setValue_stale (ht : s.topics.lookup t = some topic)
    (hnormal : hasDollar topic.name = false) (hold : s.topicValueMap.lookup t = some old)
    (hstale : value.timestamp < old.timestamp) {subs : List SubIdx}
    (hsubs : s.topicSubMap.lookup t = some subs) :
    Ends (setValue value t) s fun _ s' => s'.topicValueMap = s.topicValueMap ∧
      ∀ i, s'.subValues.lookup i = (s.subValues.lookup i).map
        (fun stored : StoredSubValue => stored.addValue t (.normalValue value))^[subs.count i] := by
  have hnot : ¬old.timestamp < value.timestamp := by
    rw [UInt64.not_lt]
    exact UInt64.le_of_lt hstale
  simp only [setValue, ends_bind, ends_get, thenEnds_ok, ends_okOr, thenEnds_error, ht,
    Option.some.injEq, forall_eq', hnormal, Bool.false_eq_true, if_false, ends_unwrapOr, hsubs,
    reduceCtorEq, false_implies, and_true]
  refine ends_mono (ends_queueValues_count subs) ?_
  intro r u hu
  obtain ⟨rfl, hrest, hqueues⟩ := hu
  have hvalues : u.topicValueMap = s.topicValueMap := by rw [hrest]
  simp only [thenEnds_ok, storeValue, ends_bind, ends_get, hvalues, hold, if_neg hnot, ends_pure]
  exact ⟨trivial, hqueues⟩

/-- A value older than the stored one has no effect exactly where every subscription that the topic
lists is for the latest values and has this very value waiting. -/
theorem stale_noEffect_iff (ht : s.topics.lookup t = some topic)
    (hnormal : hasDollar topic.name = false) (hold : s.topicValueMap.lookup t = some old)
    (hstale : value.timestamp < old.timestamp) :
    NoEffect value t s ↔ ∃ subs, s.topicSubMap.lookup t = some subs ∧
      ∀ i ∈ subs, ∃ stored, s.subValues.lookup i = some stored ∧
        stored.HasLatest t (.normalValue value) := by
  have hstorable : Storable s t ↔ ∃ subs, s.topicSubMap.lookup t = some subs ∧
      ∀ i ∈ subs, i ∈ s.subValues := by
    simp [Storable, ht, hnormal]
  constructor
  · intro h
    obtain ⟨r, s', hx, -, hwaiting⟩ := h
    have hreturns : Returns (setValue value t) s := ⟨r, s', hx⟩
    obtain ⟨subs, hsubs, hall⟩ := hstorable.mp (returns_setValue.mp hreturns)
    obtain ⟨-, hqueues⟩ := ends_of_exec (ends_setValue_stale ht hnormal hold hstale hsubs) hx
    refine ⟨subs, hsubs, fun i hi => ?_⟩
    obtain ⟨stored, hstored⟩ := (KeyMap.mem_iff_lookup _ _).mp (hall i hi)
    refine ⟨stored, hstored, ?_⟩
    have hsame := hwaiting i
    simp only [InnerServer.waiting, hqueues, hstored, Option.map_some, Option.some.injEq] at hsame
    exact (StoredSubValue.queued_iterate_iff _).mp hsame (List.count_pos_iff.mpr hi).ne'
  · intro h
    obtain ⟨subs, hsubs, hall⟩ := h
    have hreturns : Returns (setValue value t) s := by
      refine returns_setValue.mpr (hstorable.mpr ⟨subs, hsubs, fun i hi => ?_⟩)
      obtain ⟨stored, hstored, -⟩ := hall i hi
      exact (KeyMap.mem_iff_lookup _ _).mpr ⟨stored, hstored⟩
    obtain ⟨r, s', hx⟩ := hreturns
    obtain ⟨hvalues, hqueues⟩ := ends_of_exec (ends_setValue_stale ht hnormal hold hstale hsubs) hx
    refine ⟨r, s', hx, hvalues, fun i u => ?_⟩
    rw [InnerServer.waiting, hqueues, InnerServer.waiting]
    cases hstored : s.subValues.lookup i with
    | none => rfl
    | some stored =>
      have hsame : ∀ u, ((fun stored : StoredSubValue =>
          stored.addValue t (.normalValue value))^[subs.count i] stored).queued u =
            stored.queued u := by
        refine (StoredSubValue.queued_iterate_iff _).mpr fun hcount => ?_
        have hi : i ∈ subs := List.count_pos_iff.mp (Nat.pos_of_ne_zero hcount)
        obtain ⟨stored', hstored', hlatest⟩ := hall i hi
        rw [hstored] at hstored'
        cases hstored'
        exact hlatest
      simp only [Option.map_some, hsame u]

/-- A value is set on a topic that a client has subscribed to, for its latest values. -/
def subscribeAndKeep : List Op :=
  [.innerPublishTopic ⟨"n", 0, "int", none⟩ serverClientIdx,
    .connectClient ⟨.v4 10 0 0 2 5810, "a"⟩, .subscribe ⟨0, {"n"}, none⟩ 1 0,
    .setValue ⟨7, ⟨.int, .integer 1⟩⟩ 3]

/-- A value of an earlier time. -/
def staleValue : FrcTimestampedValue := ⟨5, ⟨.int, .integer 2⟩⟩

/-- When the values were made that wait for a subscription. -/
def InnerServer.timesWaiting (s : InnerServer) (i : SubIdx) (u : TopicIdx) :
    Option (List UInt64) :=
  (s.waiting i u).map fun l => l.map fun
    | .normalValue v => v.timestamp

/-- The run up to the stale value. -/
theorem subscribeAndKeep_stores : ∃ s topic old,
    stateAfter anyOp .stored subscribeAndKeep = some s ∧
    s.topics.lookup 3 = some topic ∧ hasDollar topic.name = false ∧
    s.topicValueMap.lookup 3 = some old ∧ staleValue.timestamp < old.timestamp ∧
    s.timesWaiting 0 3 = some [7] := by
  have hrun : (stateAfter anyOp .stored subscribeAndKeep).bind (fun s =>
      (s.topics.lookup 3).bind fun topic => (s.topicValueMap.lookup 3).map fun old =>
        (hasDollar topic.name, old.timestamp, s.timesWaiting 0 3)) =
      some (false, 7, some [7]) := by decide +kernel
  obtain ⟨s, hs, hview⟩ := Option.bind_eq_some_iff.mp hrun
  obtain ⟨topic, ht, hview⟩ := Option.bind_eq_some_iff.mp hview
  obtain ⟨old, hold, hview⟩ := Option.map_eq_some_iff.mp hview
  obtain ⟨hnormal, hview⟩ := Prod.mk.inj hview
  obtain ⟨htime, hwaiting⟩ := Prod.mk.inj hview
  have hlt : staleValue.timestamp < old.timestamp := by
    rw [htime]
    decide
  exact ⟨s, topic, old, hs, ht, hnormal, hold, hlt, hwaiting⟩

theorem stale_noEffect_subscribeAndKeep :
    ∃ s, stateAfter anyOp .stored subscribeAndKeep = some s ∧
      (NoEffect staleValue 3 s ↔ ∃ subs, s.topicSubMap.lookup 3 = some subs ∧
        ∀ i ∈ subs, ∃ stored, s.subValues.lookup i = some stored ∧
          stored.HasLatest 3 (.normalValue staleValue)) := by
  obtain ⟨s, topic, old, hs, ht, hnormal, hold, hlt, -⟩ := subscribeAndKeep_stores
  exact ⟨s, hs, stale_noEffect_iff ht hnormal hold hlt⟩

/-- The value that waits for a subscriber is replaced by an older one. -/
theorem stale_value_replaces :
    ¬∀ s, Reachable s → ∀ t topic old, s.topics.lookup t = some topic →
      hasDollar topic.name = false → s.topicValueMap.lookup t = some old →
        ∀ value : FrcTimestampedValue, value.timestamp < old.timestamp → NoEffect value t s := by
  intro h
  obtain ⟨s, topic, old, hs, ht, hnormal, hold, hlt, hwaiting⟩ := subscribeAndKeep_stores
  obtain ⟨r, s', hx, -, hsame⟩ :=
    h s (reachable_stateAfter hs) 3 topic old ht hnormal hold staleValue hlt
  have hrun : (stateAfter anyOp .stored subscribeAndKeep).bind (fun s =>
      ((setValue staleValue 3).exec s).toOption.bind fun p => p.2.timesWaiting 0 3) =
        some [5] := by decide +kernel
  rw [hs, Option.bind_some] at hrun
  simp only [hx, Except.toOption, Option.bind_some, InnerServer.timesWaiting, hsame 0 3] at hrun
  rw [InnerServer.timesWaiting, hrun] at hwaiting
  cases hwaiting

end NetTables.Server
