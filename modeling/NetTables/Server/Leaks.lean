import NetTables.Server.Soundness
import NetTables.Server.Withdrawals

namespace NetTables.Server

open Lib Lib.Fallible Spec

variable {s s' : InnerServer} {e : Option Event} {op : Op} {o : IterOrder} {c : ClientIdx}
  {t m : TopicIdx} {name : String} {log : List (InnerServer × Op)}

/-- The topic has no entry in any of the tables. -/
structure Cleared (s : InnerServer) (t : TopicIdx) : Prop where
  topics : t ∉ s.topics
  topicMap : ∀ name, s.topicMap.lookup name ≠ some t
  topicSubMap : t ∉ s.topicSubMap
  topicValueMap : t ∉ s.topicValueMap
  pubCount : t ∉ s.pubCount

/-- No connected client has the topic registered, and it is neither retained nor persistent. -/
structure Forgotten (s : InnerServer) (t : TopicIdx) : Prop where
  unregistered : s.publishers t = ∅
  transient : ∀ topic, s.topics.lookup t = some topic → topic.hasImplicitPublisher = false

/-- A publication in the record has created the topic, under a name without a `$`. -/
def PublishedAs (log : List (InnerServer × Op)) (t : TopicIdx) (name : String) : Prop :=
  ∃ v pubTopic c, (v, .innerPublishTopic pubTopic c) ∈ log ∧ pubTopic.name = name ∧
    hasDollar name = false ∧ v.topicMap.lookup name = none ∧ v.counters.topicIdx = t

/-- In one of the states `m` was found under a metatopic name of the topic `t`, which was there. -/
def MetaOf (states : List InnerServer) (t m : TopicIdx) : Prop :=
  ∃ v ∈ states, ∃ topic, v.topics.lookup t = some topic ∧
    (v.topicMap.lookup (metaPubName topic.name) = some m ∨
      v.topicMap.lookup (metaSubName topic.name) = some m)

/-- The name map finds every normal topic that is there. -/
def NormalIndexed (s : InnerServer) : Prop :=
  ∀ t topic, s.topics.lookup t = some topic → hasDollar topic.name = false →
    s.topicMap.lookup topic.name = some t

theorem ne_metaPubName (hd : hasDollar name = false) (n : String) : name ≠ metaPubName n := by
  rintro rfl
  rw [hasDollar_metaPubName] at hd
  cases hd

theorem ne_metaSubName (hd : hasDollar name = false) (n : String) : name ≠ metaSubName n := by
  rintro rfl
  rw [hasDollar_metaSubName] at hd
  cases hd

/-- No removal takes the name of a normal topic alone. -/
theorem NormalIndexed.step (h : NormalIndexed s) (he : Effect s e s') : NormalIndexed s' := by
  intro u topic' hu hd
  cases he with
  | topicAdded topic hfresh =>
    rw [lookup_topicMap_withTopic]
    rcases lookup_topics_withTopic.mp hu with ⟨rfl, rfl⟩ | ⟨-, hu⟩
    · exact .inl ⟨rfl, rfl⟩
    · have hmap := h u topic' hu hd
      refine .inr ⟨fun hname => ?_, hmap⟩
      rw [hname, hfresh] at hmap
      cases hmap
  | topicRemoved ht hp hq =>
    obtain ⟨hut, -, -, hu⟩ := lookup_topics_withoutTopic.mp hu
    have hmap := h u topic' hu hd
    refine lookup_topicMap_withoutTopic.mpr ⟨fun hn => hut ?_, ne_metaPubName hd _,
      ne_metaSubName hd _, hmap⟩
    have hother := h _ _ ht (hn ▸ hd)
    rw [hn, hother] at hmap
    exact (Option.some.inj hmap).symm
  | topicLost ht hp =>
    simp only [KeyMap.lookup_erase] at hu
    split_ifs at hu
    exact h u topic' hu hd
  | topicHalfLost ht hp hq =>
    simp only [KeyMap.lookup_erase] at hu ⊢
    split_ifs at hu
    rw [if_neg (ne_metaPubName hd _)]
    exact h u topic' hu hd
  | propertiesSet properties ht =>
    obtain ⟨topic₀, hu₀, hname⟩ := lookup_insert_properties ht hu
    rw [← hname] at hd ⊢
    exact h u topic₀ hu₀ hd
  | _ => exact h u topic' hu hd

/-- How far the removals of one operation get with a normal topic: its name still leads to it, or
else its first metatopic is gone with it. -/
structure Vanishing (s : InnerServer) (t : TopicIdx) (name : String) (v : InnerServer) : Prop where
  shrunk : Shrunk s v
  indexed : NormalIndexed v
  trace : v.topicMap.lookup name = some t ∨
    ∃ topic m, s.topics.lookup t = some topic ∧ topic.name = name ∧
      s.topicMap.lookup (metaPubName name) = some m ∧ m ∉ v.topics

theorem Vanishing.step {v v' : InnerServer} (h : Vanishing s t name v) (he : Effect v e v')
    (hd : hasDollar name = false) (hadded : ∀ n, e ≠ some (.topic n)) :
    Vanishing s t name v' := by
  refine ⟨h.shrunk.step he hadded, h.indexed.step he, ?_⟩
  have hstep : Shrunk v v' := (Shrunk.refl v).step he hadded
  rcases h.trace with hmap | ⟨topic, m, ht, hname, hm, hgone⟩
  · cases he with
    | topicAdded topic => exact (hadded _ rfl).elim
    | @topicRemoved u topic p q hu hp hq =>
      by_cases hn : name = topic.name
      · -- the topic itself is removed, and what is found under its first metatopic name with it
        subst hn
        have hindex := h.indexed u topic hu hd
        rw [hmap] at hindex
        cases hindex
        obtain ⟨topic₀, ht₀, hname₀⟩ := h.shrunk.topics _ topic hu
        refine .inr ⟨topic₀, p, ht₀, hname₀, h.shrunk.map _ p hp, fun hmem => ?_⟩
        obtain ⟨topic', ht'⟩ := (KeyMap.mem_iff_lookup _ _).mp hmem
        exact (lookup_topics_withoutTopic.mp ht').2.1 rfl
      · exact .inl (lookup_topicMap_withoutTopic.mpr ⟨hn, ne_metaPubName hd _,
          ne_metaSubName hd _, hmap⟩)
    | topicHalfLost ht hp hq =>
      refine .inl ?_
      simp only [KeyMap.lookup_erase]
      rw [if_neg (ne_metaPubName hd _)]
      exact hmap
    | _ => exact .inl hmap
  · exact .inr ⟨topic, m, ht, hname, hm, hstep.not_mem hgone⟩

/-- What no run loses: the name map finds the normal topics, and has a count for what it finds. -/
structure Tidy (s : InnerServer) : Prop where
  indexed : NormalIndexed s
  counted : ∀ n p, s.topicMap.lookup n = some p → p ∈ s.pubCount

theorem Tidy.adding {es : List Event} {P : Event → Prop} (h : Tidy s) (hes : Effects s es s')
    (hall : ∀ a ∈ es, P a) (hcount : ¬P .count) : Tidy s' := by
  refine hes.invariant Tidy P hall ?_ h
  intro u e u' he hp hu
  refine ⟨hu.indexed.step he, fun n p hn => ?_⟩
  cases he with
  | topicAdded topic =>
    rcases lookup_topicMap_withTopic.mp hn with ⟨-, rfl⟩ | ⟨-, hn⟩
    · exact (AList.mem_insert _).mpr (.inl rfl)
    · exact (AList.mem_insert _).mpr (.inr (hu.counted n p hn))
  | topicRemoved => exact hu.counted n p (lookup_topicMap_withoutTopic.mp hn).2.2.2
  | topicHalfLost =>
    simp only [KeyMap.lookup_erase] at hn
    split_ifs at hn
    exact hu.counted n p hn
  | countLowered | countErased => exact (hcount (hp _ rfl)).elim
  | _ => exact hu.counted n p hn

/-- The removals of an operation, on the tables of topics. -/
theorem Step.shrunk (h : Step s op s') (hw : op.Withdraws) : Shrunk s s' := by
  obtain ⟨es, hes, hall, -⟩ := h.does
  refine hes.invariant (Shrunk s) (op.MayDo s) hall ?_ (.refl s)
  intro u e u' he hp hu
  refine hu.step he fun name heq => ?_
  have hadds : op.Adds s name := hp _ heq
  cases op with
  | innerUnpublishTopic | disconnectClient => exact hadds
  | _ => exact hw

theorem Tidy.step {u : Kind → Nat} (h : Tidy s) (run : Runs u s) (hu : u .topic < 2 ^ 32)
    (hop : Step s op s') : Tidy s' := by
  have hn := run.numbered hu
  obtain ⟨es, hes, hall, -⟩ := hop.does
  by_cases hw : op.Withdraws
  · refine ⟨?_, fun n p hmap => ?_⟩
    · exact hes.invariant NormalIndexed (op.MayDo s) hall (fun _ _ _ he _ h => h.step he) h.indexed
    · have hold := (hop.shrunk hw).map n p hmap
      rcases hop.counts (h.counted n p hold) with hmem | ⟨topic, p', q', hp, hmap'⟩
      · exact hmem
      · -- the count went with the topic, and so did its name
        have hname := hn.name_eq n p topic hold hp
        rw [hmap'] at hmap
        exact ((lookup_topicMap_withoutTopic.mp hmap).1 hname.symm).elim
  · exact h.adding hes hall hw

theorem tidy_booted : Tidy booted := by
  refine ⟨fun t topic ht => ?_, fun n p hn => ?_⟩
  · cases ht
  · cases hn

theorem tidy_of_run {u : Kind → Nat} (run : Runs u s) (hu : u .topic < 2 ^ 32) : Tidy s := by
  have hinv := run.invariant (fun u s => u .topic < 2 ^ 32 → Tidy s) ?_ ?_
  · exact hinv hu
  · intro s hs _
    obtain ⟨es, hes, hall, -⟩ := hs.does
    refine tidy_booted.adding hes hall ?_
    intro h
    obtain ⟨name, hname⟩ := h
    cases hname
  · intro u s op t run ih _ hop hu
    rw [Pi.add_apply] at hu
    have hu : u .topic < 2 ^ 32 := lt_of_le_of_lt (Nat.le_add_right ..) hu
    exact (ih hu).step run hu hop

section Residue

/-- What stays of a topic: its name leads to it, or an index that was found under one of its
metatopic names has a count, and nothing else any more. -/
def Residue (log : List (InnerServer × Op)) (s : InnerServer) (t : TopicIdx) (name : String) :
    Prop :=
  s.topicMap.lookup name = some t ∨
    ∃ m, MetaOf (visited log s) t m ∧ m ∈ s.pubCount ∧ m ∉ s.topics ∧
      m.toNat < s.counters.topicIdx.toNat

theorem MetaOf.snoc {states : List InnerServer} (h : MetaOf states t m) (s : InnerServer) :
    MetaOf (states ++ [s]) t m := by
  obtain ⟨v, hv, hmeta⟩ := h
  exact ⟨v, List.mem_append_left _ hv, hmeta⟩

/-- An index that is given out and gone stays so. -/
theorem gone_of_effects {es : List Event} (hes : Effects s es s')
    (hroom : Room (· = .topic) s es) (hm : m ∉ s.topics)
    (hlt : m.toNat < s.counters.topicIdx.toNat) :
    m ∉ s'.topics ∧ m.toNat < s'.counters.topicIdx.toNat := by
  refine hes.invariant_of_room
    (fun u => m ∉ u.topics ∧ m.toNat < u.counters.topicIdx.toNat) (fun _ => True)
    (fun _ _ => trivial) hroom ?_ ⟨hm, hlt⟩
  intro u e u' he _ hr hu
  obtain ⟨hmem, hlt⟩ := hu
  cases he with
  | topicAdded topic =>
    have hroom : u.counters.topicIdx.toNat + 1 < 2 ^ 32 := hr .topic rfl
    have hone : (1 : UInt32).toNat = 1 := rfl
    refine ⟨fun hin => ?_, ?_⟩
    · rcases (AList.mem_insert _).mp hin with heq | hin
      · rw [heq] at hlt
        omega
      · exact hmem hin
    · rw [InnerServer.withTopic, UInt32.toNat_add, hone]
      omega
  | topicRemoved =>
    refine ⟨fun hin => hmem ?_, hlt⟩
    obtain ⟨topic, ht⟩ := (KeyMap.mem_iff_lookup _ _).mp hin
    exact (KeyMap.mem_iff_lookup _ _).mpr
      ⟨topic, (lookup_topics_withoutTopic.mp ht).2.2.2⟩
  | topicLost | topicHalfLost =>
    exact ⟨fun hin => hmem (AList.mem_erase.mp hin).2, hlt⟩
  | propertiesSet properties ht =>
    refine ⟨fun hin => hmem ?_, hlt⟩
    rcases (AList.mem_insert _).mp hin with heq | hin
    · rw [heq]
      exact (KeyMap.mem_iff_lookup _ _).mpr ⟨_, ht⟩
    · exact hin
  | _ => exact ⟨hmem, hlt⟩

/-- Of a topic whose removal goes through, the count of its first metatopic stays. -/
theorem Residue.vanish (hd : hasDollar name = false) (hn : Numbered s) (htidy : Tidy s)
    (hop : Step s op s') (hw : op.Withdraws) (hidx : s'.counters = s.counters)
    (hmap : s.topicMap.lookup name = some t) : Residue (log ++ [(s, op)]) s' t name := by
  obtain ⟨es, hes, hall, -⟩ := hop.does
  have hadded : ∀ n, ¬op.MayDo s (.topic n) := by
    intro n hadds
    cases op with
    | innerUnpublishTopic | disconnectClient => exact hadds
    | _ => exact hw
  have hvanish : Vanishing s t name s' := by
    refine hes.invariant (Vanishing s t name) (op.MayDo s) hall ?_
      ⟨.refl s, htidy.indexed, .inl hmap⟩
    intro u e u' he hp hu
    exact hu.step he hd fun n heq => hadded n (hp _ heq)
  by_cases hname : s'.topicMap.lookup name = some t
  · exact .inl hname
  · obtain ⟨topic, m, ht, hname', hm, hgone⟩ := hvanish.trace.resolve_left hname
    refine .inr ⟨m, ?_, ?_, hgone, ?_⟩
    · rw [visited_snoc]
      refine MetaOf.snoc ⟨s, ?_, topic, ht, .inl (hname' ▸ hm)⟩ s'
      simp [visited]
    · rcases hop.counts (htidy.counted _ m hm) with hmem | ⟨topicₘ, p, q, htₘ, hmap'⟩
      · exact hmem
      · -- then the metatopic was the topic to be removed, and the name is still there
        have hnameₘ := hn.name_eq _ m topicₘ hm htₘ
        have hstays : s'.topicMap.lookup name = some t := by
          rw [hmap']
          refine lookup_topicMap_withoutTopic.mpr ⟨?_, ne_metaPubName hd _, ne_metaSubName hd _,
            hmap⟩
          rw [hnameₘ]
          exact ne_metaPubName hd name
        exact (hname hstays).elim
    · rw [hidx]
      exact hn.map_lt _ m hm

theorem Residue.step {u : Kind → Nat} (h : Residue log s t name) (hd : hasDollar name = false)
    (run : Runs u s) (hop : Step s op s') (hu : u .topic + created s s' .topic < 2 ^ 32) :
    Residue (log ++ [(s, op)]) s' t name := by
  have hu₀ : u .topic < 2 ^ 32 := lt_of_le_of_lt (Nat.le_add_right ..) hu
  have hn := run.numbered hu₀
  have htidy := tidy_of_run run hu₀
  obtain ⟨es, hes, hall, hle⟩ := hop.does
  have hroom : Room (· = .topic) s es := run.room hes hle fun k hk => hk ▸ hu
  rcases h with hmap | ⟨m, hmeta, hcount, hgone, hlt⟩
  · by_cases hw : op.Withdraws
    · refine Residue.vanish hd hn htidy hop hw ?_ hmap
      refine hes.invariant (fun u => u.counters = s.counters) (op.MayDo s) hall ?_ rfl
      intro v e v' he hp hv
      cases he with
      | topicAdded | clientConnected | subscribed | subscribeFailed =>
        have hmay := hp _ rfl
        cases op with
        | innerUnpublishTopic | disconnectClient => simp [Op.MayDo, Op.Adds] at hmay
        | _ => exact hw.elim
      | _ => exact hv
    · refine .inl (Does.lookup_topicMap ⟨es, hes, hall, hle⟩ (fun t how hremoves => ?_) hmap)
      cases op with
      | innerUnpublishTopic | disconnectClient => exact hw trivial
      | _ => exact hremoves
  · obtain ⟨hgone', hlt'⟩ := gone_of_effects hes hroom hgone hlt
    refine .inr ⟨m, ?_, ?_, hgone', hlt'⟩
    · rw [visited_snoc]
      exact hmeta.snoc s'
    · refine (hop.counts hcount).resolve_right ?_
      intro herased
      obtain ⟨topic, p, q, ht, -⟩ := herased
      exact hgone ((KeyMap.mem_iff_lookup _ _).mpr ⟨topic, ht⟩)

end Residue

/-- A publication of a new name leaves the next index under it, even where it fails. -/
theorem Step.published {pubTopic : PublishTopic} (h : Step s (.innerPublishTopic pubTopic c) s')
    (hnew : s.topicMap.lookup pubTopic.name = none) :
    s'.topicMap.lookup pubTopic.name = some s.counters.topicIdx := by
  obtain ⟨o, r, hx⟩ := h
  have hends : Ends (ignoring (innerPublishTopic o pubTopic c)) s fun _ s' =>
      s'.topicMap.lookup pubTopic.name = some (ensureTopic s (.fromPublishTopic pubTopic)).1 := by
    apply ends_ignoring
    have hdoes : Ends (innerPublishTopic o pubTopic c) s fun _ s' =>
        Does (fun a => ∀ t how, a ≠ .gone t how) 3 s s' ∧
          s'.topicMap.lookup pubTopic.name =
            some (ensureTopic s (.fromPublishTopic pubTopic)).1 :=
      does_innerPublishTopic nofun (fun _ => nofun) (fun _ _ => ⟨nofun, nofun⟩)
        fun t how h => h t how rfl
    exact ends_mono hdoes fun _ _ h => h.2
  have hname := ends_of_exec hends hx
  have hindex : (ensureTopic s (.fromPublishTopic pubTopic)).1 = s.counters.topicIdx := by
    have hnew : s.topicMap.lookup (Topic.fromPublishTopic pubTopic).name = none := hnew
    rw [ensureTopic, hnew]
  rw [hname, hindex]

theorem residue_of_logged {u : Kind → Nat} (run : LoggedRuns u (log, s)) (hu : u .topic < 2 ^ 32)
    (ht : PublishedAs log t name) : Residue log s t name := by
  have hinv := run.invariant
    (fun u p => u .topic < 2 ^ 32 → PublishedAs p.1 t name → Residue p.1 p.2 t name) ?_ ?_
  · exact hinv hu ht
  · rintro ⟨log, s⟩ ⟨rfl, hinit⟩ - ht
    obtain ⟨v, pubTopic, c, hmem, -⟩ := ht
    cases hmem
  · rintro u ⟨log, s⟩ op ⟨log', s'⟩ run ih - ⟨hop, rfl⟩ hu ht
    rw [Pi.add_apply] at hu
    have hu₀ : u .topic < 2 ^ 32 := lt_of_le_of_lt (Nat.le_add_right ..) hu
    have hrun : Runs u s := Lib.Run.Logged.run (p := (log, s)) run
    obtain ⟨v, pubTopic, c, hmem, rfl, hd, hnew, rfl⟩ := ht
    rcases List.mem_append.mp hmem with hold | hlast
    · exact (ih hu₀ ⟨v, pubTopic, c, hold, rfl, hd, hnew, rfl⟩).step hd hrun hop hu
    · cases List.mem_singleton.mp hlast
      exact .inl (hop.published hnew)

/-- In a run that creates fewer than 2^32 topics, a published topic that is no longer registered,
retained or persistent is never cleared out of the tables with its metatopics: something of it or of
them stays. -/
theorem topic_leaks {u : Kind → Nat} (run : LoggedRuns u (log, s)) (hu : u .topic < 2 ^ 32)
    (ht : PublishedAs log t name) :
    (Forgotten s t → Cleared s t ∧ ∀ m, MetaOf (visited log s) t m → Cleared s m) ↔
      ¬Forgotten s t := by
  have hnever : ¬(Cleared s t ∧ ∀ m, MetaOf (visited log s) t m → Cleared s m) := by
    intro h
    rcases residue_of_logged run hu ht with hmap | ⟨m, hmeta, hcount, -⟩
    · exact h.1.topicMap name hmap
    · exact (h.2 m hmeta).pubCount hcount
  constructor
  · intro h hforgotten
    exact hnever (h hforgotten)
  · intro h hforgotten
    exact (h hforgotten).elim

section Concrete

/-- The step creates a topic of this name under the index. -/
def creates (t : TopicIdx) (name : String) (e : InnerServer × Op) : Bool :=
  match e.2 with
  | .innerPublishTopic pubTopic _ => pubTopic.name == name && (e.1.topicMap.lookup name).isNone &&
      e.1.counters.topicIdx == t
  | _ => false

theorem publishedAs_of_creates (hd : hasDollar name = false)
    (h : log.any (creates t name) = true) : PublishedAs log t name := by
  obtain ⟨⟨v, op⟩, hmem, hcreates⟩ := List.any_eq_true.mp h
  cases op with
  | innerPublishTopic pubTopic c =>
    simp only [creates, Bool.and_eq_true, beq_iff_eq, Option.isNone_iff_eq_none] at hcreates
    obtain ⟨⟨hname, hnew⟩, hidx⟩ := hcreates
    exact ⟨v, pubTopic, c, hmem, hname, hd, hnew, hidx⟩
  | _ => cases hcreates

/-- A client publishes a topic and takes it back, and everything goes well. -/
def publishAndUnpublish : List Op :=
  [.connectClient ⟨.v4 10 0 0 2 5810, "a"⟩, .innerPublishTopic ⟨"x", 0, "int", none⟩ 1,
    .innerUnpublishTopic ⟨0⟩ 1]

theorem forgotten_publishAndUnpublish :
    ∃ s, stateAfter anyOp .stored publishAndUnpublish = some s ∧ Forgotten s 5 ∧
      PublishedAs (recordAfter .stored publishAndUnpublish) 5 "x" := by
  have hrun : (stateAfter anyOp .stored publishAndUnpublish).map (fun s =>
      (decide (s.publishers 5 = ∅), s.topics.lookup 5)) = some (true, none) := by
    decide +kernel
  have hcreates : (recordAfter .stored publishAndUnpublish).any (creates 5 "x") = true := by
    decide +kernel
  obtain ⟨s, hs, hview⟩ := Option.map_eq_some_iff.mp hrun
  simp only [Prod.mk.injEq] at hview
  refine ⟨s, hs, ⟨of_decide_eq_true hview.1, fun topic ht => ?_⟩,
    publishedAs_of_creates (by decide) hcreates⟩
  rw [hview.2] at ht
  cases ht

theorem topic_leaks_unpublished :
    ∃ s, stateAfter anyOp .stored publishAndUnpublish = some s ∧
      ¬(Forgotten s 5 → Cleared s 5 ∧
        ∀ m, MetaOf (visited (recordAfter .stored publishAndUnpublish) s) 5 m → Cleared s m) := by
  obtain ⟨s, hs, hforgotten, hcreated⟩ := forgotten_publishAndUnpublish
  obtain ⟨u, run, hu⟩ := logged_stateAfter hs
  have htopics : u .topic < 2 ^ 32 := (hu .topic).trans_lt (by decide)
  refine ⟨s, hs, ?_⟩
  rw [topic_leaks run htopics hcreated]
  exact fun h => h hforgotten

/-- The counts of the two metatopics stay, also where nothing fails. -/
theorem metatopics_leak_counts :
    ¬∀ u log s t name, LoggedRuns u (log, s) → u .topic < 2 ^ 32 → PublishedAs log t name →
      Forgotten s t → Cleared s t ∧ ∀ m, MetaOf (visited log s) t m → Cleared s m := by
  intro h
  obtain ⟨s, hs, hforgotten, hcreated⟩ := forgotten_publishAndUnpublish
  obtain ⟨u, run, hu⟩ := logged_stateAfter hs
  have hcleared := h u _ s 5 "x" run ((hu .topic).trans_lt (by decide)) hcreated hforgotten
  have hrun : (stateAfter anyOp .stored publishAndUnpublish).map (fun s =>
      (s.pubCount.lookup 6).isSome) = some true := by decide +kernel
  have hmeta : (visited (recordAfter .stored publishAndUnpublish) s).any (fun v =>
      v.topics.lookup 5 == some ⟨"x", "int", none⟩ &&
        v.topicMap.lookup (metaPubName "x") == some 6) = true := by
    have hprev : ((recordAfter .stored publishAndUnpublish).map Prod.fst).any (fun v =>
        v.topics.lookup 5 == some ⟨"x", "int", none⟩ &&
          v.topicMap.lookup (metaPubName "x") == some 6) = true := by decide +kernel
    rw [visited, List.any_append, hprev, Bool.true_or]
  obtain ⟨v, hv, hfound⟩ := List.any_eq_true.mp hmeta
  simp only [Bool.and_eq_true, beq_iff_eq] at hfound
  have hgone := (hcleared.2 6 ⟨v, hv, _, hfound.1, .inl hfound.2⟩).pubCount
  rw [hs, Option.map_some, Option.some.injEq] at hrun
  exact hgone ((KeyMap.mem_iff_lookup _ _).mpr (Option.isSome_iff_exists.mp hrun))

end Concrete

end NetTables.Server
