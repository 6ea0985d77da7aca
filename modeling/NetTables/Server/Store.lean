import NetTables.Server.Delivery
import NetTables.Server.Parser
import NetTables.Server.Tables

namespace NetTables.Server

open Lib Lib.Fallible Spec

variable {s s' : InnerServer} {e : Option Event} {t : TopicIdx} {i : SubIdx}

/-- The maps of subscriptions have one set of keys, and the lists of the topics hold each key once
at most. -/
structure Stored (s : InnerServer) : Prop where
  values : ∀ i, i ∈ s.subValues ↔ i ∈ s.subscriptions
  timestamps : ∀ i, i ∈ s.subSendTimestamps ↔ i ∈ s.subscriptions
  listed : ∀ t i, Listed s.topicSubMap t i → i ∈ s.subscriptions
  once : ∀ t subs, s.topicSubMap.lookup t = some subs → subs.Nodup
  lt : ∀ i, i ∈ s.subscriptions → i.toNat < s.counters.subIdx.toNat

theorem nodup_pushAll {ts : List TopicIdx} {m : KeyMap TopicIdx (List SubIdx)} {subs : List SubIdx}
    (hts : ts.Nodup) (hnew : ∀ t, ¬Listed m t i)
    (honce : ∀ t subs, m.lookup t = some subs → subs.Nodup)
    (ht : (pushAll i ts m).lookup t = some subs) : subs.Nodup := by
  -- only the topics that are still to come must be free of the new index
  suffices h : ∀ m : KeyMap TopicIdx (List SubIdx), (∀ t ∈ ts, ¬Listed m t i) →
      (∀ t subs, m.lookup t = some subs → subs.Nodup) →
      (pushAll i ts m).lookup t = some subs → subs.Nodup from h m (fun t _ => hnew t) honce ht
  clear ht honce hnew
  intro m hnew honce ht
  induction ts generalizing m with
  | nil => exact honce t subs ht
  | cons u ts ih =>
    obtain ⟨hu, hts⟩ := List.nodup_cons.mp hts
    apply ih hts (m.insert u ((m.lookup u).getD [] ++ [i])) _ _ ht
    · intro v hv hlisted
      have hvu : v ≠ u := fun heq => hu (heq ▸ hv)
      rw [Listed, KeyMap.lookup_insert, if_neg hvu] at hlisted
      exact hnew v (List.mem_cons_of_mem _ hv) hlisted
    · intro v l hl
      rw [KeyMap.lookup_insert] at hl
      split_ifs at hl with hvu
      · cases hl
        cases hm : m.lookup u with
        | none => simp
        | some l =>
          have hfree : i ∉ l := fun hmem => hnew u (List.mem_cons_self ..) ⟨l, hm, hmem⟩
          rw [Option.getD_some, List.nodup_append]
          refine ⟨honce u l hm, List.nodup_singleton i, ?_⟩
          intro a ha b hb heq
          rw [List.mem_singleton.mp hb] at heq
          exact hfree (heq ▸ ha)
      · exact honce v l hl

namespace Stored

/-- It only looks at the keys of the three maps and at the lists. -/
theorem of_same (h : Stored s) (hsubs : ∀ i, i ∈ s'.subscriptions ↔ i ∈ s.subscriptions)
    (hvalues : ∀ i, i ∈ s'.subValues ↔ i ∈ s.subValues)
    (hstamps : ∀ i, i ∈ s'.subSendTimestamps ↔ i ∈ s.subSendTimestamps)
    (hlists : s'.topicSubMap = s.topicSubMap) (hidx : s'.counters.subIdx = s.counters.subIdx) :
    Stored s' where
  values i := by rw [hvalues, hsubs, h.values]
  timestamps i := by rw [hstamps, hsubs, h.timestamps]
  listed t i hi := by
    rw [hlists] at hi
    exact (hsubs i).mpr (h.listed t i hi)
  once t subs hl := h.once t subs (hlists ▸ hl)
  lt i hi := by
    rw [hidx]
    exact h.lt i ((hsubs i).mp hi)

/-- A change of the lists that drops or empties some. -/
theorem of_lists (h : Stored s) (hsubs : s'.subscriptions = s.subscriptions)
    (hvalues : s'.subValues = s.subValues) (hstamps : s'.subSendTimestamps = s.subSendTimestamps)
    (hlists : ∀ t subs, s'.topicSubMap.lookup t = some subs →
      subs = [] ∨ s.topicSubMap.lookup t = some subs)
    (hidx : s'.counters.subIdx = s.counters.subIdx) : Stored s' where
  values i := by rw [hvalues, hsubs, h.values]
  timestamps i := by rw [hstamps, hsubs, h.timestamps]
  listed t i hi := by
    obtain ⟨subs, hl, hmem⟩ := hi
    rw [hsubs]
    rcases hlists t subs hl with rfl | hl
    · cases hmem
    · exact h.listed t i ⟨subs, hl, hmem⟩
  once t subs hl := by
    rcases hlists t subs hl with rfl | hl
    · exact List.nodup_nil
    · exact h.once t subs hl
  lt i hi := by
    rw [hidx]
    exact h.lt i (hsubs ▸ hi)

/-- Writing to a queue that is there. -/
theorem of_queue (h : Stored s) {stored stored' : StoredSubValue}
    (hi : s.subValues.lookup i = some stored) (hsubs : s'.subscriptions = s.subscriptions)
    (hvalues : s'.subValues = s.subValues.insert i stored')
    (hstamps : s'.subSendTimestamps = s.subSendTimestamps)
    (hlists : s'.topicSubMap = s.topicSubMap) (hidx : s'.counters.subIdx = s.counters.subIdx) :
    Stored s' := by
  apply h.of_same (fun j => by rw [hsubs]) _ (fun j => by rw [hstamps]) hlists hidx
  intro j
  rw [hvalues, AList.mem_insert]
  exact or_iff_right_of_imp fun heq => heq ▸ (KeyMap.mem_iff_lookup _ _).mpr ⟨stored, hi⟩

theorem unsubscribed (h : Stored s) (hsubs : s'.subscriptions = s.subscriptions.erase i)
    (hvalues : s'.subValues = s.subValues.erase i)
    (hstamps : s'.subSendTimestamps = s.subSendTimestamps.erase i)
    (hlists : s'.topicSubMap =
      s.topicSubMap.mapValues fun vectr => vectr.filter fun elem => elem ≠ i)
    (hidx : s'.counters.subIdx = s.counters.subIdx) : Stored s' where
  values j := by rw [hvalues, hsubs, AList.mem_erase, AList.mem_erase, h.values]
  timestamps j := by rw [hstamps, hsubs, AList.mem_erase, AList.mem_erase, h.timestamps]
  listed t j hj := by
    rw [hlists] at hj
    obtain ⟨hne, hj⟩ := listed_filter.mp hj
    rw [hsubs]
    exact AList.mem_erase.mpr ⟨hne, h.listed t j hj⟩
  once t subs hl := by
    rw [hlists, KeyMap.lookup_mapValues] at hl
    obtain ⟨l, hold, rfl⟩ := Option.map_eq_some_iff.mp hl
    exact (h.once t l hold).filter _
  lt j hj := by
    rw [hsubs] at hj
    rw [hidx]
    exact h.lt j (AList.mem_erase.mp hj).2

/-- A new subscription, under an index that no list holds yet. -/
theorem subscribed (h : Stored s) {ts : List TopicIdx} (hts : ts.Nodup)
    (hsubs : ∀ j, j ∈ s'.subscriptions ↔ j = s.counters.subIdx ∨ j ∈ s.subscriptions)
    (hvalues : ∀ j, j ∈ s'.subValues ↔ j = s.counters.subIdx ∨ j ∈ s.subValues)
    (hstamps : ∀ j, j ∈ s'.subSendTimestamps ↔ j = s.counters.subIdx ∨ j ∈ s.subSendTimestamps)
    (hlists : s'.topicSubMap = pushAll s.counters.subIdx ts s.topicSubMap)
    (hidx : s'.counters.subIdx.toNat = s.counters.subIdx.toNat + 1) : Stored s' where
  values j := by rw [hvalues, hsubs, h.values]
  timestamps j := by rw [hstamps, hsubs, h.timestamps]
  listed t j hj := by
    rw [hlists] at hj
    rw [hsubs]
    rcases listed_pushAll.mp hj with hj | ⟨-, rfl⟩
    · exact .inr (h.listed t j hj)
    · exact .inl rfl
  once t subs hl := by
    rw [hlists] at hl
    apply nodup_pushAll hts _ h.once hl
    intro u hu
    have hlt := h.lt _ (h.listed u _ hu)
    omega
  lt j hj := by
    rw [hidx]
    rcases (hsubs j).mp hj with rfl | hj
    · omega
    · have hlt := h.lt j hj
      omega

theorem step (h : Stored s) (hn : Numbered s) (he : Effect s e s')
    (hroom : Room (· = .sub) s e.toList) : Stored s' := by
  cases he with
  | topicAdded topic =>
    refine h.of_lists rfl rfl rfl (fun t subs hl => ?_) rfl
    simp only [InnerServer.withTopic, KeyMap.lookup_insert] at hl
    split_ifs at hl
    · exact .inl (Option.some.inj hl).symm
    · exact .inr hl
  | topicRemoved ht hp hq =>
    refine h.of_lists rfl rfl rfl (fun t subs hl => ?_) rfl
    simp only [InnerServer.withoutTopic, KeyMap.lookup_erase] at hl
    split_ifs at hl
    exact .inr hl
  | subscribed sub now stored interest messages frames hc hinterest _ _ _ _ _ hnodup =>
    -- two names of interest never lead to one topic
    have hts : (interest.map Prod.snd).Nodup := by
      apply List.Nodup.map_on _ hnodup.of_map
      intro a ha b hb heq
      have hname := hn.map_inj a.1 b.1 b.2 (heq ▸ ((hinterest a).mp ha).1) ((hinterest b).mp hb).1
      exact Prod.ext hname heq
    have hlt : s.counters.subIdx.toNat + 1 < 2 ^ 32 := hroom .sub rfl
    have hone : (1 : UInt32).toNat = 1 := rfl
    apply h.subscribed hts (fun _ => AList.mem_insert _) (fun _ => AList.mem_insert _)
      (fun _ => AList.mem_insert _) rfl
    show (s.counters.subIdx + 1).toNat = s.counters.subIdx.toNat + 1
    rw [UInt32.toNat_add, hone]
    omega
  | subscribeFailed ts he hmissing => exact (hmissing (hn.map_listed _ _ he)).elim
  | unsubscribed => exact h.unsubscribed rfl rfl rfl rfl rfl
  | valueQueued value ht hnormal hsubs hi hstored => exact h.of_queue hstored rfl rfl rfl rfl rfl
  | batchesDropped hi hc hstored => exact h.of_queue hstored rfl rfl rfl rfl rfl
  | batchesSent batches hi hc hch hopen hstored => exact h.of_queue hstored rfl rfl rfl rfl rfl
  | stamped now hi =>
    refine h.of_same (fun _ => Iff.rfl) (fun _ => Iff.rfl) (fun j => ?_) rfl rfl
    rw [AList.mem_insert]
    exact or_iff_right_of_imp fun heq => heq ▸ (KeyMap.mem_iff_lookup _ _).mpr ⟨_, hi⟩
  | _ => exact h.of_same (fun _ => Iff.rfl) (fun _ => Iff.rfl) (fun _ => Iff.rfl) rfl rfl

theorem booted : Stored booted := by
  refine ⟨fun _ => Iff.rfl, fun _ => Iff.rfl, ?_, ?_, ?_⟩
  · intro t i hi
    obtain ⟨subs, hl, -⟩ := hi
    cases hl
  · intro t subs hl
    cases hl
  · intro i hi
    exact (AList.notMem_empty i hi).elim

end Stored

/-- The two invariants of the tables, kept together where no index is given twice. -/
theorem stored_of_effects {es : List Event} (hes : Effects s es s')
    (hroom : Room (· ≠ .client) s es) (h : Numbered s ∧ Stored s) : Numbered s' ∧ Stored s' := by
  refine hes.invariant_of_room (fun s => Numbered s ∧ Stored s) (fun _ => True)
    (fun _ _ => trivial) hroom (fun s e s' he _ hroom h => ?_) h
  have htopic : Room (· = .topic) s e.toList := by
    rintro k rfl
    exact hroom .topic (by decide)
  have hsub : Room (· = .sub) s e.toList := by
    rintro k rfl
    exact hroom .sub (by decide)
  exact ⟨h.1.step he htopic, h.2.step h.1 he hsub⟩

theorem RunWhere.stored {guard : InnerServer → Op → Prop} {u : Kind → Nat}
    (run : RunWhere guard u s) (htopic : u .topic < 2 ^ 32) (hsub : u .sub < 2 ^ 32) :
    Numbered s ∧ Stored s := by
  refine run.induct (· ≠ .client) (fun s => Numbered s ∧ Stored s) ?_ ?_ ?_
  · intro k hk
    cases k with
    | topic => exact htopic
    | sub => exact hsub
    | client => exact (hk rfl).elim
  · intro es s hes _ hroom
    exact stored_of_effects hes hroom ⟨.booted, .booted⟩
  · intro s op es s' hes _ hroom _ _ h
    exact stored_of_effects hes hroom h

/-- The loop of `subscribe` finds the list of every topic of interest. -/
theorem subscribe_finds_lists (hlisted : ∀ n t, s.topicMap.lookup n = some t → t ∈ s.topicSubMap)
    (o : IterOrder) (sub : Subscribe) (c : ClientIdx) (now : Instant) :
    Ends (subscribe o sub c now) s fun r _ =>
      ∀ text, r ≠ .error (.serverError (.topicDoesNotExist text)) := by
  have hsend : ∀ c m (s : InnerServer), Ends (sendOn c m) s fun r _ =>
      ∀ text, r ≠ .error (.serverError (.topicDoesNotExist text)) := by
    intro c m s
    simp only [sendOn, ends_bind, ends_get, thenEnds_ok]
    split
    · simp
    · split
      · simp
      · simp only [ends_bind, ends_okOr, thenEnds_ok, thenEnds_error, putClient, ends_modify]
        simp
  let s₁ : InnerServer := { s with counters := { s.counters with subIdx := s.counters.subIdx + 1 } }
  let subscription : Subscription := ⟨sub.subuid, sub.topics, sub.options⟩
  simp only [subscribe, ends_bind, ends_get, thenEnds_ok, ends_okOr, thenEnds_error, ends_modify,
    Counter.nextSubIdx]
  refine ⟨fun client _ => ?_, fun _ text h => by cases h⟩
  have hloop := ends_foldEach
    (fun rest _ u => (∀ t, t ∈ s.topicSubMap → t ∈ u.topicSubMap) ∧
      ∀ e ∈ rest, s.topicMap.lookup e.1 = some e.2)
    (fun _ _ => False) (subscribeTopic s.counters.subIdx) (by
      intro e rest acc u hs
      obtain ⟨hkeys, hrest⟩ := hs
      have hmem : e.2 ∈ u.topicSubMap := hkeys _ (hlisted _ _ (hrest e (List.mem_cons_self ..)))
      simp only [subscribeTopic, ends_bind, ends_get, thenEnds_ok, ends_okOr, thenEnds_error,
        ends_modify]
      refine ⟨fun vectr _ => ?_, fun hnone => ?_⟩
      · have hnext : (∀ t, t ∈ s.topicSubMap →
            t ∈ u.topicSubMap.insert e.2 (vectr ++ [s.counters.subIdx])) ∧
            ∀ e ∈ rest, s.topicMap.lookup e.1 = some e.2 :=
          ⟨fun t ht => (AList.mem_insert _).mpr (.inr (hkeys t ht)),
            fun e he => hrest e (List.mem_cons_of_mem _ he)⟩
        split
        · exact (ends_pure _).mpr hnext
        · exact (ends_pure _).mpr hnext
      · obtain ⟨subs, hl⟩ := (KeyMap.mem_iff_lookup _ _).mp hmem
        rw [hnone] at hl
        cases hl)
    ((o.walk s.topicMap).filter fun e => subscription.caresAbout e.1) ([], []) s₁
    ⟨fun _ h => h, fun e he => (o.mem_walk _ _ _).mp (List.mem_of_mem_filter he)⟩
  refine ends_mono hloop ?_
  intro result u hu
  obtain err | acc := result
  · exact hu.elim
  · simp only [thenEnds_ok, ends_bind, ends_modify, putClient]
    refine ends_mono (hsend _ _ _) ?_
    intro result u' hu'
    obtain err | a := result
    · intro text h
      apply hu' text
      cases h
      rfl
    · exact hsend _ _ _

/-- In a run that creates fewer than 2^32 topics and subscriptions the maps of subscriptions move
together, so `set_value` cannot panic and `subscribe` misses no list. -/
theorem store_consistent {u : Kind → Nat} (run : Runs u s) (htopic : u .topic < 2 ^ 32)
    (hsub : u .sub < 2 ^ 32) :
    (∀ i, (i ∈ s.subValues ↔ i ∈ s.subscriptions) ∧
      (i ∈ s.subSendTimestamps ↔ i ∈ s.subscriptions)) ∧
    (∀ t subs, s.topicSubMap.lookup t = some subs →
      subs.Nodup ∧ ∀ i ∈ subs, i ∈ s.subscriptions) ∧
    (∀ t, t ∈ s.topics → t ∈ s.topicSubMap) ∧
    (∀ name t, s.topicMap.lookup name = some t → t ∈ s.topicSubMap) ∧
    (∀ value t, Returns (setValue value t) s) ∧
    ∀ o sub c now, Ends (subscribe o sub c now) s fun r _ =>
      ∀ text, r ≠ .error (.serverError (.topicDoesNotExist text)) := by
  obtain ⟨hn, hs⟩ := run.stored htopic hsub
  refine ⟨fun i => ⟨hs.values i, hs.timestamps i⟩, fun t subs hl => ⟨hs.once t subs hl, ?_⟩,
    hn.topics_listed, hn.map_listed, fun value t => ?_, subscribe_finds_lists hn.map_listed⟩
  · intro i hi
    exact hs.listed t i ⟨subs, hl, hi⟩
  · exact returns_setValue.mpr (storable_of_runs run htopic t)

theorem store_consistent_subscribeAndSend :
    ∃ s, stateAfter anyOp .stored subscribeAndSend = some s ∧ s.topicSubMap.lookup 3 = some [0] ∧
      (0 : SubIdx) ∈ s.subscriptions ∧ (0 : SubIdx) ∈ s.subValues := by
  have hrun : (stateAfter anyOp .stored subscribeAndSend).bind (fun s => s.topicSubMap.lookup 3) =
      some [0] := by decide +kernel
  obtain ⟨s, hs, hlist⟩ := Option.bind_eq_some_iff.mp hrun
  obtain ⟨u, run, hu⟩ := runWhere_stateAfter (fun _ _ _ => trivial) hs
  have htopic : u .topic < 2 ^ 32 := (hu .topic).trans_lt (by decide)
  have hsub : u .sub < 2 ^ 32 := (hu .sub).trans_lt (by decide)
  have hstore := store_consistent run htopic hsub
  have hmem : (0 : SubIdx) ∈ s.subscriptions :=
    (hstore.2.1 3 [0] hlist).2 0 (List.mem_singleton.mpr rfl)
  exact ⟨s, hs, hlist, hmem, (hstore.1 0).1.mpr hmem⟩

end NetTables.Server
