import NetTables.Client.Values
import NetTables.Server.Reconnect
import NetTables.Server.Store
import Mathlib.Data.List.MinMax

namespace NetTables.System

open Lib Lib.Fallible Spec Server Client

section FirstMax

variable {α β : Type} [LinearOrder β] {f : α → β} {l l' : List α} {a b : α}

/-- `a` is the first in the list of those with the greatest value. -/
def FirstMax (f : α → β) (l : List α) (a : α) : Prop :=
  ∃ before after, l = before ++ a :: after ∧ (∀ b ∈ before, f b < f a) ∧ ∀ b ∈ after, f b ≤ f a

theorem FirstMax.le (h : FirstMax f l a) (hb : b ∈ l) : f b ≤ f a := by
  obtain ⟨before, after, rfl, hbefore, hafter⟩ := h
  rcases List.mem_append.mp hb with hb | hb
  · exact (hbefore b hb).le
  · rcases List.mem_cons.mp hb with rfl | hb
    · exact le_rfl
    · exact hafter b hb

theorem firstMax_of_argmax (h : l.argmax f = some a) : FirstMax f l a := by
  induction l using List.reverseRecOn generalizing a with
  | nil => cases h
  | append_singleton l b ih =>
    rw [List.argmax_concat] at h
    cases hl : l.argmax f with
    | none =>
      rw [hl] at h
      cases h
      rw [List.argmax_eq_none.mp hl]
      exact ⟨[], [], rfl, nofun, nofun⟩
    | some c =>
      have hc := ih hl
      rw [hl] at h
      dsimp only at h
      split_ifs at h with hlt
      · cases h
        exact ⟨l, [], rfl, fun d hd => (hc.le hd).trans_lt hlt, nofun⟩
      · cases h
        obtain ⟨before, after, rfl, hbefore, hafter⟩ := hc
        refine ⟨before, after ++ [b], by simp, hbefore, fun d hd => ?_⟩
        rcases List.mem_append.mp hd with hd | hd
        · exact hafter d hd
        · rw [List.mem_singleton.mp hd]
          exact not_lt.mp hlt

/-- There is one such element at most. -/
theorem FirstMax.unique (h : FirstMax f l a) (h' : FirstMax f l b) : a = b := by
  have hab : f a = f b :=
    le_antisymm (h'.le (by obtain ⟨_, _, rfl, -⟩ := h; simp))
      (h.le (by obtain ⟨_, _, rfl, -⟩ := h'; simp))
  obtain ⟨p, q, hl, hp, -⟩ := h
  obtain ⟨p', q', rfl, hp', -⟩ := h'
  rcases List.append_eq_append_iff.mp hl with ⟨mid, rfl, hmid⟩ | ⟨mid, rfl, hmid⟩
  · cases mid with
    | nil =>
      cases hmid
      rfl
    | cons d mid =>
      cases hmid
      exact absurd hab (hp b (by simp)).ne'
  · cases mid with
    | nil =>
      cases hmid
      rfl
    | cons d mid =>
      cases hmid
      exact absurd hab (hp' a (by simp)).ne

theorem argmax_eq_some_iff : l.argmax f = some a ↔ FirstMax f l a := by
  refine ⟨firstMax_of_argmax, fun h => ?_⟩
  cases hl : l.argmax f with
  | none =>
    obtain ⟨before, after, rfl, -⟩ := h
    cases before <;> cases List.argmax_eq_none.mp hl
  | some b => rw [(firstMax_of_argmax hl).unique h]

/-- Where no two elements have the same value, their order does not matter. -/
theorem argmax_eq_of_perm (hperm : l.Perm l') (hnodup : (l.map f).Nodup) :
    l.argmax f = l'.argmax f := by
  cases hl : l.argmax f with
  | none =>
    rw [List.argmax_eq_none] at hl
    rw [hl] at hperm
    rw [List.perm_nil.mp hperm.symm]
    rfl
  | some a =>
    cases hl' : l'.argmax f with
    | none =>
      rw [List.argmax_eq_none] at hl'
      rw [hl'] at hperm
      rw [hperm.eq_nil] at hl
      cases hl
    | some b =>
      have ha : a ∈ l := List.argmax_mem hl
      have hb : b ∈ l := hperm.mem_iff.mpr (List.argmax_mem hl')
      have hle : f b ≤ f a := List.le_of_mem_argmax hb hl
      have hge : f a ≤ f b := List.le_of_mem_argmax (hperm.mem_iff.mp ha) hl'
      exact congrArg some (List.inj_on_of_nodup_map hnodup ha hb (le_antisymm hge hle))

end FirstMax

/-- The timestamp of an entry, as a number. -/
def stamp (entry : FrcTimestampedValue) : Nat := entry.timestamp.toNat

/-- What the server makes of a value that the client publishes at this time, if the value can be
converted. -/
def entryOf (tryFrom : Value → Option FrcValue) (call : UInt64 × Value) :
    Option FrcTimestampedValue :=
  (tryFrom call.2).map (⟨call.1.toUInt32.toUInt64, ·⟩)

theorem of_entryOf {tryFrom : Value → Option FrcValue} {call : UInt64 × Value}
    {entry : FrcTimestampedValue} (h : entryOf tryFrom call = some entry) :
    some entry.value = tryFrom call.2 ∧ stamp entry = call.1.toNat % 2 ^ 32 := by
  obtain ⟨value, hvalue, rfl⟩ := Option.map_eq_some_iff.mp h
  exact ⟨hvalue.symm, by simp [stamp]⟩

/-- A client's `pubuid` leads to this topic, which is not a metatopic. -/
def PublishesTo (s : InnerServer) (c : ClientIdx) (pubuid : PubUID) (t : TopicIdx) : Prop :=
  ∃ client topic, s.clients.lookup c = some client ∧
    client.pubuidToTopicidx.getByLeft pubuid = some t ∧ s.topics.lookup t = some topic ∧
    hasDollar topic.name = false

section Processed

variable (rmp : ClientRmp) (dec : RmpDecode) (tryFrom : Value → Option FrcValue)
  (c : ClientIdx) (pubuid : PubUID) (type : FrcType) (t : TopicIdx) (old : Option FrcTimestampedValue)

/-- The server is in a run, and has processed the frames of these calls of `publish_value`, each
with its server time, in this order. Before the first the topic's value was `old`. What the server
does between them neither ends the publication nor stores a value of the topic. -/
inductive Processed : (Kind → Nat) → List (UInt64 × Value) → InnerServer → Prop where
  | start {u s} (run : Runs u s) (hpub : PublishesTo s c pubuid t)
      (hold : s.topicValueMap.lookup t = old) : Processed u [] s
  | other {u calls s op s'} (h : Processed u calls s) (hop : Step s op s')
      (hpub : PublishesTo s' c pubuid t)
      (hsame : s'.topicValueMap.lookup t = s.topicValueMap.lookup t) :
      Processed (u + created s s') calls s'
  | frame {u calls s o json clock r s'} (call : UInt64 × Value) (h : Processed u calls s)
      (hexec : (messageParser o json dec tryFrom clock
        ⟨c, .binary (publishValue rmp (.unsignedInt pubuid) type call.1 call.2)⟩).exec s =
          .ok (r, s')) : Processed u (calls ++ [call]) s'

end Processed

variable {rmp : ClientRmp} {dec : RmpDecode} {tryFrom : Value → Option FrcValue} {c : ClientIdx}
  {pubuid : PubUID} {type : FrcType} {t : TopicIdx} {old : Option FrcTimestampedValue}
  {s s' : InnerServer} {u : Kind → Nat} {calls : List (UInt64 × Value)}
  {value : FrcTimestampedValue}

/-- The stored value is replaced by a newer one only. -/
theorem storeValue_keeps_newest {l : List FrcTimestampedValue}
    (hkept : s.topicValueMap.lookup t = l.argmax stamp) :
    Ends (storeValue value t) s fun r s' =>
      r = .ok () ∧ s' = { s with topicValueMap := s'.topicValueMap } ∧
        s'.topicValueMap.lookup t = (l ++ [value]).argmax stamp := by
  simp only [storeValue, ends_bind, ends_get, thenEnds_ok, List.argmax_concat, ← hkept]
  cases hold : s.topicValueMap.lookup t with
  | none => exact (ends_modify _).mpr ⟨rfl, rfl, AList.lookup_insert _⟩
  | some kept =>
    have hstamp : kept.timestamp < value.timestamp ↔ stamp kept < stamp value :=
      UInt64.lt_iff_toNat_lt
    dsimp only
    by_cases hnewer : kept.timestamp < value.timestamp
    · rw [if_pos hnewer, if_pos (hstamp.mp hnewer)]
      exact (ends_modify _).mpr ⟨rfl, rfl, AList.lookup_insert _⟩
    · rw [if_neg hnewer, if_neg fun h => hnewer (hstamp.mpr h)]
      exact (ends_pure ()).mpr ⟨rfl, rfl, hold⟩

theorem storeValue_elsewhere :
    Ends (storeValue value t) s fun _ s' =>
      s' = { s with topicValueMap := s'.topicValueMap } ∧
        ∀ v, v ≠ t → s'.topicValueMap.lookup v = s.topicValueMap.lookup v := by
  have hput : ∀ entry v, v ≠ t →
      (s.topicValueMap.insert t entry).lookup v = s.topicValueMap.lookup v := by
    intro entry v hv
    rw [KeyMap.lookup_insert, if_neg hv]
  simp only [storeValue, ends_bind, ends_get, thenEnds_ok]
  cases s.topicValueMap.lookup t with
  | none => exact (ends_modify _).mpr ⟨rfl, hput _⟩
  | some kept =>
    dsimp only
    split_ifs
    · exact (ends_modify _).mpr ⟨rfl, hput _⟩
    · exact (ends_pure ()).mpr ⟨rfl, fun _ _ => rfl⟩

/-- `set_value` fails and changes nothing, or puts the value up against the stored one. -/
theorem ends_setValue_stored :
    Ends (setValue value t) s fun r s' =>
      s' = { s with subValues := s'.subValues, topicValueMap := s'.topicValueMap } ∧
      (∀ v, v ≠ t → s'.topicValueMap.lookup v = s.topicValueMap.lookup v) ∧
      ((∃ e, r = .error e) ∧ s' = s ∧
          (∀ topic, s.topics.lookup t = some topic → hasDollar topic.name = true) ∨
        r = .ok () ∧ t ∈ s.topics ∧ ∀ l : List FrcTimestampedValue,
          s.topicValueMap.lookup t = l.argmax stamp →
          s'.topicValueMap.lookup t = (l ++ [value]).argmax stamp) := by
  simp only [setValue, ends_bind, ends_get, thenEnds_ok, ends_okOr, thenEnds_error]
  refine ⟨fun topic ht => ?_, fun hnone =>
    ⟨trivial, fun _ _ => trivial, .inl ⟨⟨_, rfl⟩, trivial, by simp [hnone]⟩⟩⟩
  have hmem : t ∈ s.topics := (KeyMap.mem_iff_lookup _ _).mpr ⟨topic, ht⟩
  split_ifs with hdollar
  · exact (ends_throw _).mpr ⟨rfl, fun _ _ => rfl, .inl ⟨⟨_, rfl⟩, rfl, by simp [ht, hdollar]⟩⟩
  simp only [ends_bind, ends_get, thenEnds_ok, ends_unwrapOr]
  intro subs _
  refine ends_mono (ends_queueValues_count subs) ?_
  intro r s₁ h₁
  obtain ⟨rfl, hs₁, -⟩ := h₁
  rw [thenEnds_ok]
  intro r s₂ hx
  obtain ⟨hs₂, helsewhere⟩ := ends_of_exec storeValue_elsewhere hx
  have hvalues : s₁.topicValueMap = s.topicValueMap := by rw [hs₁]
  have hnewest : ∀ l : List FrcTimestampedValue, s.topicValueMap.lookup t = l.argmax stamp →
      r = .ok () ∧ s₂.topicValueMap.lookup t = (l ++ [value]).argmax stamp := by
    intro l hl
    rw [← hvalues] at hl
    obtain ⟨hr, -, hnext⟩ := ends_of_exec (storeValue_keeps_newest hl) hx
    exact ⟨hr, hnext⟩
  have hok : r = .ok () := by
    cases hold : s.topicValueMap.lookup t with
    | none => exact (hnewest [] hold).1
    | some kept => exact (hnewest [kept] hold).1
  refine ⟨by rw [hs₂, hs₁], fun v hv => ?_, .inr ⟨hok, hmem, fun l hl => ?_⟩⟩
  · rw [helsewhere v hv, hvalues]
  · exact (hnewest l hl).2

/-- `set_value` keeps the first of the newest values. -/
theorem setValue_keeps_newest (hpub : PublishesTo s c pubuid t) {l : List FrcTimestampedValue}
    (hkept : s.topicValueMap.lookup t = l.argmax stamp) :
    Ends (setValue value t) s fun r s' =>
      r = .ok () ∧ PublishesTo s' c pubuid t ∧ s'.counters = s.counters ∧
        s'.topicValueMap.lookup t = (l ++ [value]).argmax stamp := by
  obtain ⟨client, topic, hc, hpubuid, ht, hnormal⟩ := hpub
  refine ends_mono ends_setValue_stored ?_
  intro r s' h
  obtain ⟨hrest, -, ⟨-, -, hdollar⟩ | ⟨hr, -, hnewest⟩⟩ := h
  · rw [hdollar topic ht] at hnormal
    cases hnormal
  · refine ⟨hr, ?_, by rw [hrest], hnewest l hkept⟩
    rw [hrest]
    exact ⟨client, topic, hc, hpubuid, ht, hnormal⟩

theorem tryFromU64_toNat (n : UInt32) : tryFromU64 (UInt64.ofNat n.toNat) = some n := by
  have hn : (UInt64.ofNat n.toNat).toNat = n.toNat :=
    UInt64.toNat_ofNat_of_lt (n.toNat_lt.trans (by decide))
  have hlt : (UInt64.ofNat n.toNat).toNat < 2 ^ 32 := by
    rw [hn]
    exact n.toNat_lt
  rw [tryFromU64, if_pos hlt]
  exact congrArg some (UInt32.toNat_inj.mp (by simp))

theorem exec_unwrapOr_bind {α β : Type} {o : Option α} {a : α} (h : o = some a) (text : String)
    (f : α → ServerM β) : (unwrapOr o text >>= f).exec s = (f a).exec s := by
  rw [h, unwrapOr, exec_bind, exec_pure]

theorem exec_forEach_singleton {ι : Type} (i : ι) (f : ι → ServerM Unit) :
    (forEach [i] f).exec s = (f i).exec s := by
  rw [forEach, forEach, exec_bind]
  rcases (f i).exec s with text | ⟨e | a, s'⟩ <;> rfl

/-- The value of a registered publisher goes to its topic, if it can be converted. -/
theorem exec_parseValue (hpub : PublishesTo s c pubuid t) (time : UInt64) (typeId data : Value) :
    (parseValue tryFrom c (.array [.integer pubuid.toNat, .integer time.toNat, typeId, data])).exec
      s = (unwrapOr (tryFrom data) invalidValue >>= fun value =>
        attempt (setValue ⟨time, value⟩ t)).exec s := by
  obtain ⟨client, topic, hc, hpubuid, -⟩ := hpub
  have hpubuid64 := asU64_ofNat (pubuid.toNat_lt.trans (by decide) : pubuid.toNat < 2 ^ 64)
  have htime64 := asU64_ofNat time.toNat_lt
  rw [UInt64.ofNat_toNat] at htime64
  have hlast : [typeId, data].getLast? = some data := rfl
  unfold parseValue
  simp only [List.head?_cons, List.tail_cons]
  rw [exec_unwrapOr_bind rfl, exec_unwrapOr_bind hpubuid64,
    exec_unwrapOr_bind (tryFromU64_toNat pubuid), exec_unwrapOr_bind rfl,
    exec_unwrapOr_bind htime64, exec_unwrapOr_bind hlast]
  cases hvalue : tryFrom data with
  | none => rfl
  | some value =>
    rw [exec_unwrapOr_bind rfl, exec_unwrapOr_bind rfl, exec_bind, exec_get]
    simp only [hc, hpubuid]

/-- A frame of the client is one `set_value`, or a panic. -/
theorem exec_frame (hpub : PublishesTo s c pubuid t) {call : UInt64 × Value}
    (hread : rmp.ReadBy dec call.2) (o : IterOrder) (json : SerdeJson)
    (clock : Nat → Server.Instant) :
    (messageParser o json dec tryFrom clock
      ⟨c, .binary (publishValue rmp (.unsignedInt pubuid) type call.1 call.2)⟩).exec s =
        (unwrapOr (entryOf tryFrom call) invalidValue >>= fun entry =>
          attempt (setValue entry t)).exec s := by
  have hfirst := hread pubuid call.1.toUInt32.toUInt64 type.asU8 []
  rw [List.append_nil, ← publishValue_eq] at hfirst
  have hend : dec.fromRead [] = none := by
    cases h : dec.fromRead [] with
    | none => rfl
    | some e => exact absurd (dec.length_lt _ _ _ h) (Nat.not_lt_zero _)
  simp only [messageParser, readAll_some hfirst, readAll_none hend]
  rw [exec_forEach_singleton, exec_parseValue hpub, entryOf]
  cases tryFrom call.2 <;> rfl

/-- The stored value is the first of the newest among the old one and those of the calls. -/
theorem Processed.stored (h : Processed rmp dec tryFrom c pubuid type t old u calls s)
    (hread : ∀ call ∈ calls, rmp.ReadBy dec call.2) :
    PublishesTo s c pubuid t ∧ Runs u s ∧
      s.topicValueMap.lookup t = (old.toList ++ calls.filterMap (entryOf tryFrom)).argmax stamp := by
  induction h with
  | start run hpub hold =>
    refine ⟨hpub, run, ?_⟩
    rw [hold]
    cases old <;> rfl
  | other h hop hpub hsame ih =>
    obtain ⟨-, run, hstored⟩ := ih hread
    exact ⟨hpub, run.step trivial hop, hsame.trans hstored⟩
  | @frame u calls s o json clock r s' call h hexec ih =>
    obtain ⟨hpub, run, hstored⟩ := ih fun e he => hread e (List.mem_append_left _ he)
    rw [exec_frame hpub (hread call (by simp))] at hexec
    cases hentry : entryOf tryFrom call with
    | none =>
      rw [hentry] at hexec
      cases hexec
    | some entry =>
      rw [exec_unwrapOr_bind hentry, exec_attempt] at hexec
      cases hx : (setValue entry t).exec s with
      | error text =>
        rw [hx] at hexec
        cases hexec
      | ok result =>
        rw [hx] at hexec
        cases hexec
        obtain ⟨-, hpub', hcounters, hnext⟩ := setValue_keeps_newest hpub hstored _ _ hx
        have hstep : Step s (.setValue entry t) result.2 := ⟨o, _, hx⟩
        have hcost : created s result.2 = 0 := by
          funext k
          exact created_eq_zero (by rw [hcounters])
        have run' := run.step trivial hstep
        rw [hcost, add_zero] at run'
        refine ⟨hpub', run', ?_⟩
        rw [hnext, List.filterMap_append, List.append_assoc]
        simp only [List.filterMap_cons, hentry, List.filterMap_nil]

/-- The server holds the value of the last call. -/
def HoldsLast (tryFrom : Value → Option FrcValue) (s : InnerServer) (t : TopicIdx)
    (calls : List (UInt64 × Value)) : Prop :=
  ∃ entry last, s.topicValueMap.lookup t = some entry ∧ calls.getLast? = some last ∧
    some entry.value = tryFrom last.2

/-- Of the value stored before and those of the calls, taken by their times modulo 2^32, the first
of the newest is that of the last call. -/
def LastIsNewest (tryFrom : Value → Option FrcValue) (old : Option FrcTimestampedValue)
    (calls : List (UInt64 × Value)) : Prop :=
  ∃ entry last, FirstMax stamp (old.toList ++ calls.filterMap (entryOf tryFrom)) entry ∧
    calls.getLast? = some last ∧ some entry.value = tryFrom last.2

/-- Times of one period of 2^32 microseconds, each later than the one before it and than the stored
one, do not get lost. -/
theorem lastIsNewest_of_period (period : Nat) {last : UInt64 × Value}
    (hvalue : (tryFrom last.2).isSome = true)
    (hperiod : ∀ call ∈ calls ++ [last], call.1.toNat / 2 ^ 32 = period)
    (hold : ∀ entry, old = some entry → stamp entry < last.1.toNat % 2 ^ 32)
    (hlast : ∀ call ∈ calls, call.1 < last.1) : LastIsNewest tryFrom old (calls ++ [last]) := by
  obtain ⟨value, hvalue⟩ := Option.isSome_iff_exists.mp hvalue
  have hentry : entryOf tryFrom last = some ⟨last.1.toUInt32.toUInt64, value⟩ := by
    rw [entryOf, hvalue]
    rfl
  obtain ⟨hvalue, hstamp⟩ := of_entryOf hentry
  refine ⟨_, last, ⟨old.toList ++ calls.filterMap (entryOf tryFrom), [], ?_, ?_, nofun⟩, by simp,
    hvalue⟩
  · rw [List.filterMap_append, List.filterMap_cons_some hentry, List.append_assoc]
    rfl
  intro entry hmem
  rw [hstamp]
  rcases List.mem_append.mp hmem with hmem | hmem
  · exact hold entry (Option.mem_toList.mp hmem)
  · obtain ⟨call, hcall, hentry⟩ := List.mem_filterMap.mp hmem
    have hlt := UInt64.lt_iff_toNat_lt.mp (hlast call hcall)
    have hsame := (hperiod call (List.mem_append_left _ hcall)).trans
      (hperiod last (by simp)).symm
    rw [(of_entryOf hentry).2]
    omega

/-- A frame is processed without a panic if its value can be converted, and only then. -/
theorem Processed.processes_iff (h : Processed rmp dec tryFrom c pubuid type t old u calls s)
    (hread : ∀ call ∈ calls, rmp.ReadBy dec call.2) (hu : u .topic < 2 ^ 32) (o : IterOrder)
    (json : SerdeJson) (clock : Nat → Server.Instant) (call : UInt64 × Value)
    (hcall : rmp.ReadBy dec call.2) :
    (∃ s', (messageParser o json dec tryFrom clock
      ⟨c, .binary (publishValue rmp (.unsignedInt pubuid) type call.1 call.2)⟩).exec s =
        .ok (.ok (), s')) ↔ (tryFrom call.2).isSome = true := by
  obtain ⟨hpub, run, -⟩ := h.stored hread
  rw [exec_frame hpub hcall, entryOf]
  cases tryFrom call.2 with
  | none =>
    simp only [Option.isSome_none, Bool.false_eq_true, iff_false, not_exists]
    nofun
  | some value =>
    obtain ⟨r, s', hx⟩ := returns_setValue.mpr (storable_of_runs run hu t)
    rw [Option.map_some, exec_unwrapOr_bind rfl, exec_attempt, hx]
    exact iff_of_true ⟨s', rfl⟩ rfl

/-- Every frame whose value can be converted is processed, as far as the indices of topics reach,
and no other; and the last value wins exactly where its time is the newest as far as 32 bits
tell. -/
theorem last_value_wins_iff (h : Processed rmp dec tryFrom c pubuid type t old u calls s)
    (hread : ∀ call ∈ calls, rmp.ReadBy dec call.2) :
    (u .topic < 2 ^ 32 → ∀ o json clock (call : UInt64 × Value), rmp.ReadBy dec call.2 →
      ((∃ s', (messageParser o json dec tryFrom clock
        ⟨c, .binary (publishValue rmp (.unsignedInt pubuid) type call.1 call.2)⟩).exec s =
          .ok (.ok (), s')) ↔ (tryFrom call.2).isSome = true)) ∧
    (HoldsLast tryFrom s t calls ↔ LastIsNewest tryFrom old calls) := by
  obtain ⟨-, -, hstored⟩ := h.stored hread
  refine ⟨fun hu o json clock call hcall => h.processes_iff hread hu o json clock call hcall, ?_⟩
  simp only [HoldsLast, LastIsNewest, hstored, argmax_eq_some_iff]

def publishFirst : List Op :=
  [.connectClient ⟨.v4 10 0 0 2 5810, "a"⟩, .innerPublishTopic ⟨"n", 7, "boolean", none⟩ 1]

/-- `FrcValue::try_from`, as far as it is about truth values. -/
def fromBoolean : Value → Option FrcValue
  | .boolean b => some ⟨.boolean, .boolean b⟩
  | _ => none

/-- A client that has just published a topic publishes two values. -/
theorem processed_two (time time' : UInt64) : ∃ u s, u .topic < 2 ^ 32 ∧
    Processed MsgPack.small MsgPack.read fromBoolean 1 7 .boolean 5 none u
      [(time, .boolean true), (time', .boolean false)] s := by
  have hrun : (stateAfter anyOp .stored publishFirst).map (fun s =>
      ((s.clients.lookup 1).map fun client => client.pubuidToTopicidx.getByLeft 7,
        (s.topics.lookup 5).map Topic.name, (s.topicValueMap.lookup 5).isNone)) =
      some (some (some 5), some "n", true) := by decide +kernel
  obtain ⟨s, hs, hview⟩ := Option.map_eq_some_iff.mp hrun
  simp only [Prod.mk.injEq] at hview
  obtain ⟨hclient, htopic, hvalue⟩ := hview
  obtain ⟨client, hc, hpubuid⟩ := Option.map_eq_some_iff.mp hclient
  obtain ⟨topic, ht, hname⟩ := Option.map_eq_some_iff.mp htopic
  obtain ⟨u, run, hu⟩ := runWhere_stateAfter (fun _ _ _ => trivial) hs
  have hbound : u .topic < 2 ^ 32 := (hu .topic).trans_lt (by decide)
  have hnormal : hasDollar topic.name = false := by
    rw [hname]
    decide
  have hstart : Processed MsgPack.small MsgPack.read fromBoolean 1 7 .boolean 5 none u [] s :=
    .start run ⟨client, topic, hc, hpubuid, ht, hnormal⟩ (Option.isNone_iff_eq_none.mp hvalue)
  have hread := MsgPack.readBy_small
  have hfirst := hstart.processes_iff (by simp) hbound .stored jsonClose (fun _ => 0)
    (time, .boolean true) (hread true)
  obtain ⟨s₁, hx₁⟩ := hfirst.mpr rfl
  have h₁ := hstart.frame (time, .boolean true) hx₁
  have hsecond := h₁.processes_iff (by simpa using hread true) hbound .stored jsonClose
    (fun _ => 0) (time', .boolean false) (hread false)
  obtain ⟨s₂, hx₂⟩ := hsecond.mpr rfl
  exact ⟨u, s₂, hbound, h₁.frame (time', .boolean false) hx₂⟩

theorem readBy_two (time time' : UInt64) :
    ∀ call ∈ [(time, Value.boolean true), (time', Value.boolean false)],
      MsgPack.small.ReadBy MsgPack.read call.2 := by
  simp [MsgPack.readBy_small]

theorem last_value_wins_soon : ∃ u s,
    Processed MsgPack.small MsgPack.read fromBoolean 1 7 .boolean 5 none u
      [(5, .boolean true), (9, .boolean false)] s ∧
    HoldsLast fromBoolean s 5 [(5, .boolean true), (9, .boolean false)] := by
  obtain ⟨u, s, -, h⟩ := processed_two 5 9
  refine ⟨u, s, h, (last_value_wins_iff h (readBy_two 5 9)).2.mpr ?_⟩
  have hperiod : ∀ call ∈ [((5 : UInt64), Value.boolean true)] ++ [(9, .boolean false)],
      call.1.toNat / 2 ^ 32 = 0 := by decide
  exact lastIsNewest_of_period 0 rfl hperiod nofun (by decide)

/-- About 71 minutes after the client's start the newer value gets the lower timestamp. -/
theorem last_value_lost :
    ¬∀ rmp dec tryFrom c pubuid type t u calls s,
      Processed rmp dec tryFrom c pubuid type t none u calls s →
      (∀ call ∈ calls, rmp.ReadBy dec call.2) → u .topic < 2 ^ 32 →
      (calls.map Prod.fst).Pairwise (· < ·) → calls ≠ [] → HoldsLast tryFrom s t calls := by
  intro hclaim
  obtain ⟨u, s, hu, h⟩ := processed_two 4294967295 4294967296
  have hread := readBy_two 4294967295 4294967296
  have hfirst : FirstMax stamp
      ([(4294967295, Value.boolean true), (4294967296, .boolean false)].filterMap
        (entryOf fromBoolean)) ⟨4294967295, .boolean, .boolean true⟩ :=
    ⟨[], [⟨0, .boolean, .boolean false⟩], rfl, nofun, by simp [stamp]⟩
  obtain ⟨entry, last, hentry, hlast, hvalue⟩ :=
    hclaim _ _ _ _ _ _ _ _ _ _ h hread hu (by decide) (by simp)
  obtain ⟨-, -, hstored⟩ := h.stored hread
  rw [Option.toList_none, List.nil_append, argmax_eq_some_iff.mpr hfirst, hentry] at hstored
  cases hstored
  cases hlast
  cases hvalue

end NetTables.System
