import NetTables.Server.ClosedChannels
import NetTables.Server.LeavesQueues
import NetTables.Server.Queues
import NetTables.Server.SendTurns
import NetTables.Server.Soundness
import NetTables.System.LastValue

namespace NetTables.System

open Lib Lib.Fallible Spec Server

/-- The step from one state to the other gives out this topic index. -/
def GivesOut (s s' : InnerServer) (t : TopicIdx) : Prop :=
  t - s.counters.topicIdx < s'.counters.topicIdx - s.counters.topicIdx

instance (s s' : InnerServer) (t : TopicIdx) : Decidable (GivesOut s s' t) :=
  inferInstanceAs (Decidable (_ < _))

/-- The value that an operation sets and `set_value` accepts for a topic. -/
def acceptedBy (t : TopicIdx) (s : InnerServer) : Op → List FrcTimestampedValue
  | .setValue value u => if u = t ∧ s.accepts value t = true then [value] else []
  | _ => []

/-- The values accepted for a topic since it was created, oldest first, after one more operation. -/
def sinceCreated (t : TopicIdx) (l : List FrcTimestampedValue) (s : InnerServer) (op : Op)
    (s' : InnerServer) : List FrcTimestampedValue :=
  if GivesOut s s' t then [] else l ++ acceptedBy t s op

/-- The runs of operations, with the values accepted for the topic since it was created. -/
abbrev Accepting (t : TopicIdx) : (Kind → Nat) → List FrcTimestampedValue × InnerServer → Prop :=
  Lib.Run.Carrying [] (sinceCreated t) Init Step (created {}) created fun _ _ => True

/-- What is left of the value of a topic where none is set: the value, or nothing. -/
def KeepsValue (t : TopicIdx) (s s' : InnerServer) : Prop :=
  s'.topicValueMap.lookup t = s.topicValueMap.lookup t ∨ s'.topicValueMap.lookup t = none

section KeepsValue

variable {s s' : InnerServer} {o : IterOrder} {t u : TopicIdx} {c : ClientIdx} {op : Op}
  {value : FrcTimestampedValue}

theorem keepsValue_of_eq (h : s'.topicValueMap = s.topicValueMap) : KeepsValue t s s' := by
  left
  rw [h]

instance : LeavesQueues (KeepsValue t) where
  refl _ := .inl rfl
  trans s s' s'' h h' := by
    rcases h' with h' | h'
    · rcases h with h | h
      · exact .inl (h'.trans h)
      · exact .inr (h'.trans h)
    · exact .inr h'
  tables s s' _ _ _ h := keepsValue_of_eq h
  dropped s u := by
    simp only [KeepsValue, KeyMap.lookup_erase]
    split_ifs
    · exact .inr rfl
    · exact .inl rfl

theorem keepsValue_subscribe {sub : Subscribe} {now : Instant} :
    Within (KeepsValue t) (subscribe o sub c now) := by
  intro s
  refine ends_mono effect_subscribe ?_
  intro r s' h
  rcases h with rfl | he
  · exact refl_of (KeepsValue t) s'
  · cases he <;> exact keepsValue_of_eq rfl

theorem keepsValue_unsubscribe {unsub : Unsubscribe} :
    Within (KeepsValue t) (unsubscribe unsub c) := by
  intro s
  simp only [unsubscribe, ends_bind, ends_get, thenEnds_ok, ends_okOr, thenEnds_error, ends_modify,
    putClient]
  have hrefl := refl_of (KeepsValue t) s
  exact ⟨fun client _ => ⟨fun i _ => keepsValue_of_eq rfl, fun _ => hrefl⟩, fun _ => hrefl⟩

theorem keepsValue_sendOut {clock : SendClock} {offset : ℚ} :
    Within (KeepsValue t) (sendOut o clock offset) := by
  apply within_bind within_get
  intro s
  apply within_foldEach
  intro offset entry s
  obtain ⟨i, sub, c⟩ := entry
  refine ends_mono ends_sendTurn_all ?_
  intro r s' h
  obtain ⟨b, -, hturn⟩ := h
  cases hturn with
  | topicsOnly | near => exact refl_of (KeepsValue t) s
  | gone => exact keepsValue_of_eq rfl
  | sends b since stored hvalues hsince hdue hc hstored hsent =>
    obtain ⟨clients, hrest⟩ := hsent.rest
    rw [hrest]
    exact keepsValue_of_eq rfl

/-- Every operation but a `set_value` for the topic itself. -/
theorem keepsValue_perform (hop : ∀ value, op ≠ .setValue value t) :
    Within (KeepsValue t) (op.perform o) := by
  cases op with
  | subscribe sub c now => exact keepsValue_subscribe
  | unsubscribe unsub c => exact keepsValue_unsubscribe
  | setValue value u =>
    have htu : t ≠ u := by
      rintro rfl
      exact hop value rfl
    intro s
    refine ends_mono ends_setValue_stored ?_
    intro r s' h
    exact .inl (h.2.1 t htu)
  | sendOut clock offset => exact within_ignoring keepsValue_sendOut
  | _ => exact LeavesQueues.within_perform _ id

/-- The index is given out already, and if the topic is there it has a value. -/
structure Valued (t : TopicIdx) (s : InnerServer) : Prop where
  below : t.toNat < s.counters.topicIdx.toNat
  has : t ∈ s.topics → (s.topicValueMap.lookup t).isSome = true

theorem Valued.step {e : Option Event} (h : Valued t s) (he : Effect s e s')
    (hroom : Room (· = .topic) s e.toList) : Valued t s' := by
  have hbelow := h.below
  cases he with
  | topicAdded topic hfresh =>
    have hlt : s.counters.topicIdx.toNat + 1 < 2 ^ 32 := hroom .topic rfl
    have hone : (1 : UInt32).toNat = 1 := rfl
    refine ⟨?_, fun ht => h.has ?_⟩
    · rw [InnerServer.withTopic, UInt32.toNat_add, hone]
      omega
    · rcases (AList.mem_insert _).mp ht with rfl | ht
      · exact absurd hbelow (lt_irrefl _)
      · exact ht
  | topicRemoved =>
    refine ⟨hbelow, fun ht => ?_⟩
    obtain ⟨topic, ht⟩ := (KeyMap.mem_iff_lookup _ _).mp ht
    obtain ⟨hne, -, -, ht⟩ := lookup_topics_withoutTopic.mp ht
    simp only [InnerServer.withoutTopic, KeyMap.lookup_erase, if_neg hne]
    exact h.has ((KeyMap.mem_iff_lookup _ _).mpr ⟨topic, ht⟩)
  | topicLost | topicHalfLost => exact ⟨hbelow, fun ht => h.has (AList.mem_erase.mp ht).2⟩
  | propertiesSet properties hold =>
    refine ⟨hbelow, fun ht => h.has ?_⟩
    rcases (AList.mem_insert _).mp ht with rfl | ht
    · exact (KeyMap.mem_iff_lookup _ _).mpr ⟨_, hold⟩
    · exact ht
  | valueStored =>
    refine ⟨hbelow, fun ht => ?_⟩
    simp only [KeyMap.lookup_insert]
    split_ifs
    · rfl
    · exact h.has ht
  | _ => exact ⟨hbelow, h.has⟩

theorem keepsValue_of_step (h : Step s op s') (hop : ∀ value, op ≠ .setValue value t) :
    KeepsValue t s s' := by
  obtain ⟨o, r, hx⟩ := h
  exact ends_of_exec (keepsValue_perform hop s) hx

/-- A step that sets no value for the topic leaves its value, if it leaves it one. -/
theorem lookup_of_step (h : Step s op s') (hop : ∀ value, op ≠ .setValue value t)
    (hsome : (s.topicValueMap.lookup t).isSome = true →
      (s'.topicValueMap.lookup t).isSome = true) :
    s'.topicValueMap.lookup t = s.topicValueMap.lookup t := by
  rcases keepsValue_of_step h hop with hsame | hnone
  · exact hsame
  · rw [hnone] at hsome ⊢
    cases hold : s.topicValueMap.lookup t with
    | none => rfl
    | some kept =>
      rw [hold] at hsome
      cases hsome rfl

/-- If the topic is there afterwards. -/
theorem lookup_of_step_present {k : Kind → Nat} (run : Runs k s) (h : Step s op s')
    (hop : ∀ value, op ≠ .setValue value t)
    (hk : k .topic + created s s' .topic < 2 ^ 32) (hbelow : t.toNat < s.counters.topicIdx.toNat)
    (ht : t ∈ s'.topics) : s'.topicValueMap.lookup t = s.topicValueMap.lookup t := by
  refine lookup_of_step h hop fun hold => ?_
  obtain ⟨es, hes, hall, hle⟩ := h.does
  have hroom : Room (· = .topic) s es := run.room hes hle fun j hj => hj ▸ hk
  have hvalued : Valued t s' := by
    refine hes.invariant_of_room (Valued t) (fun _ => True) (fun _ _ => trivial) hroom ?_
      ⟨hbelow, fun _ => hold⟩
    exact fun u e u' he _ hr hu => hu.step he hr
  exact hvalued.has ht

/-- If the step does not remove the topic itself. -/
theorem lookup_of_step_not_removes (h : Step s op s') (hop : ∀ value, op ≠ .setValue value t)
    (hremoves : ¬op.Removes s t) : s'.topicValueMap.lookup t = s.topicValueMap.lookup t := by
  refine lookup_of_step h hop ?_
  obtain ⟨es, hes, hall, -⟩ := h.does
  refine hes.invariant (fun u => (u.topicValueMap.lookup t).isSome = true) (op.MayDo s) hall ?_
  intro u e u' he hp hu
  cases he with
  | topicRemoved =>
    have hne : t ≠ _ := fun heq => hremoves (heq ▸ hp _ rfl)
    simp only [InnerServer.withoutTopic, KeyMap.lookup_erase, if_neg hne]
    exact hu
  | valueStored =>
    simp only [KeyMap.lookup_insert]
    split_ifs
    · rfl
    · exact hu
  | _ => exact hu

/-- Where no index is given out twice, those given out lie between the counters. -/
theorem givesOut_iff (hle : s.counters.topicIdx.toNat ≤ s'.counters.topicIdx.toNat) :
    GivesOut s s' t ↔
      s.counters.topicIdx.toNat ≤ t.toNat ∧ t.toNat < s'.counters.topicIdx.toNat := by
  have ht := t.toNat_lt
  have hs := s.counters.topicIdx.toNat_lt
  have hs' := s'.counters.topicIdx.toNat_lt
  rw [GivesOut, UInt32.lt_iff_toNat_lt, UInt32.toNat_sub, UInt32.toNat_sub]
  omega

theorem not_givesOut_of_counters (h : s'.counters = s.counters) : ¬GivesOut s s' t := by
  rw [GivesOut, h, UInt32.sub_self]
  exact UInt32.not_lt_zero

end KeepsValue

/-- The newest of these values is stored, as long as the topic is there. -/
structure Newest (t : TopicIdx) (l : List FrcTimestampedValue) (s : InnerServer) : Prop where
  below : ∀ entry, s.topicValueMap.lookup t = some entry →
    t.toNat < s.counters.topicIdx.toNat
  stored : t ∈ s.topics → s.topicValueMap.lookup t = l.argmax stamp

section Newest

variable {s s' : InnerServer} {t u : TopicIdx} {op : Op} {k : Kind → Nat}
  {l : List FrcTimestampedValue} {value : FrcTimestampedValue}

theorem accepts_eq_true (h : (setValue value t).exec s = .ok (.ok (), s')) :
    s.accepts value t = true := by
  rw [InnerServer.accepts, h]

theorem accepts_eq_false {e : NetworkTablesError}
    (h : (setValue value t).exec s = .ok (.error e, s')) : s.accepts value t = false := by
  rw [InnerServer.accepts, h]

theorem Newest.of_same (h : Newest t l s) (hcounters : s'.counters = s.counters)
    (htopics : s'.topics = s.topics)
    (hvalue : s'.topicValueMap.lookup t = s.topicValueMap.lookup t) : Newest t l s' := by
  refine ⟨fun entry hentry => ?_, fun ht => ?_⟩
  · rw [hcounters]
    exact h.below entry (hvalue ▸ hentry)
  · rw [hvalue]
    exact h.stored (htopics ▸ ht)

theorem Newest.setValue (h : Newest t l s) (hn : Numbered s)
    (hop : Step s (.setValue value u) s') :
    Newest t (sinceCreated t l s (.setValue value u) s') s' := by
  obtain ⟨o, r, hx⟩ := hop
  have hx' : (Server.setValue value u).exec s = .ok (r, s') := hx
  obtain ⟨hrest, helsewhere, hend⟩ := ends_of_exec ends_setValue_stored hx'
  have hcounters : s'.counters = s.counters := by rw [hrest]
  rw [sinceCreated, if_neg (not_givesOut_of_counters hcounters), acceptedBy]
  by_cases hut : u = t
  · subst hut
    rcases hend with ⟨⟨e, rfl⟩, rfl, -⟩ | ⟨rfl, hu, hnewest⟩
    · simpa [accepts_eq_false hx'] using h
    · rw [if_pos ⟨rfl, accepts_eq_true hx'⟩]
      refine ⟨fun entry _ => ?_, fun _ => hnewest l (h.stored hu)⟩
      rw [hcounters]
      exact hn.topics_lt u hu
  · rw [if_neg fun heq => hut heq.1, List.append_nil]
    exact h.of_same hcounters (by rw [hrest]) (helsewhere t fun heq => hut heq.symm)

theorem Newest.step (run : Runs k s) (h : Newest t l s) (hop : Step s op s')
    (hk : k .topic + created s s' .topic < 2 ^ 32) :
    Newest t (sinceCreated t l s op s') s' := by
  have hn : Numbered s := run.numbered (by omega)
  by_cases hset : ∃ value u, op = .setValue value u
  · obtain ⟨value, u, rfl⟩ := hset
    exact h.setValue hn hop
  have hnot : ∀ value u, op ≠ .setValue value u := fun value u heq => hset ⟨value, u, heq⟩
  have haccepted : acceptedBy t s op = [] := by
    cases op with
    | setValue value u => exact (hnot value u rfl).elim
    | _ => rfl
  have hgrown : Grown s s' := hop.names run hk
  have hkeeps : KeepsValue t s s' := keepsValue_of_step hop fun value => hnot value t
  rw [sinceCreated, haccepted, List.append_nil]
  refine ⟨fun entry hentry => ?_, fun ht => ?_⟩
  · rcases hkeeps with hsame | hnone
    · exact (h.below entry (hsame ▸ hentry)).trans_le hgrown.idx
    · rw [hnone] at hentry
      cases hentry
  · have hlt := hgrown.numbered.topics_lt t ht
    split_ifs with hnew
    · -- an index that was not given out has no value
      have hge := ((givesOut_iff hgrown.idx).mp hnew).1
      have hnone : s.topicValueMap.lookup t = none := by
        cases hold : s.topicValueMap.lookup t with
        | none => rfl
        | some entry => exact absurd (h.below entry hold) (not_lt.mpr hge)
      rcases hkeeps with hsame | hnone'
      · exact hsame.trans hnone
      · exact hnone'
    · have hbelow : t.toNat < s.counters.topicIdx.toNat := by
        by_contra hge
        exact hnew ((givesOut_iff hgrown.idx).mpr ⟨not_lt.mp hge, hlt⟩)
      have hold : t ∈ s.topics := by
        obtain ⟨topic', ht'⟩ := (KeyMap.mem_iff_lookup _ _).mp ht
        rcases hgrown.topics t topic' ht' with ⟨topic, htopic, -⟩ | hge
        · exact (KeyMap.mem_iff_lookup _ _).mpr ⟨topic, htopic⟩
        · omega
      rw [lookup_of_step_present run hop (fun value => hnot value t) hk hbelow ht]
      exact h.stored hold

theorem accepting_setValue (run : Accepting t k (l, s))
    (hx : (Server.setValue value t).exec s = .ok (.ok (), s')) :
    Accepting t (k + created s s') (l ++ [value], s') := by
  obtain ⟨hrest, -⟩ := ends_of_exec ends_setValue_stored hx
  have hcounters : s'.counters = s.counters := by rw [hrest]
  have hstep : Step s (.setValue value t) s' := ⟨.stored, _, hx⟩
  have hnext := Lib.Run.carrying_step run hstep trivial
  rwa [sinceCreated, if_neg (not_givesOut_of_counters hcounters), acceptedBy,
    if_pos ⟨rfl, accepts_eq_true hx⟩] at hnext

/-- In a run that creates fewer than 2^32 topics. -/
theorem newest_of_accepting (run : Accepting t k (l, s)) (hk : k .topic < 2 ^ 32) :
    Newest t l s := by
  refine run.invariant (fun k p => k .topic < 2 ^ 32 → Newest t p.1 p.2) ?_ ?_ hk
  · intro p hp _
    obtain ⟨hl, hinit⟩ := hp
    have hvalues : p.2.topicValueMap = ∅ := by
      rw [hinit.eq_started]
      rfl
    rw [hl]
    refine ⟨fun entry hentry => ?_, fun _ => ?_⟩
    · rw [hvalues] at hentry
      cases hentry
    · rw [hvalues]
      rfl
  · intro k p op q run h _ hop hk
    rw [Pi.add_apply] at hk
    obtain ⟨hstep, hlist⟩ := hop
    rw [hlist]
    exact (h (by omega)).step (Lib.Run.Carrying.run run) hstep hk

/-- The value stored for a topic is the first of the newest that were accepted for it, so their order
does not matter where their times differ. No operation changes it but a `set_value` for the topic and
the removal of the topic. -/
theorem newest_value_is_stored (run : Accepting t k (l, s)) (hk : k .topic < 2 ^ 32)
    (ht : t ∈ s.topics) :
    (l ≠ [] → ∃ entry, s.topicValueMap.lookup t = some entry ∧ FirstMax stamp l entry) ∧
    ((l.map stamp).Nodup → ∀ k' l' s', Accepting t k' (l', s') → k' .topic < 2 ^ 32 →
      t ∈ s'.topics → l'.Perm l → s'.topicValueMap.lookup t = s.topicValueMap.lookup t) ∧
    ∀ op s', Step s op s' → (∀ value, op ≠ .setValue value t) →
      k .topic + created s s' .topic < 2 ^ 32 →
      s'.topicValueMap.lookup t = s.topicValueMap.lookup t ∨ op.Removes s t ∧ t ∉ s'.topics := by
  have hstored := (newest_of_accepting run hk).stored ht
  refine ⟨fun hl => ?_, fun hnodup k' l' s' run' hk' ht' hperm => ?_, fun op s' hop hset hk' => ?_⟩
  · cases hmax : l.argmax stamp with
    | none => exact absurd (List.argmax_eq_none.mp hmax) hl
    | some entry => exact ⟨entry, hstored.trans hmax, argmax_eq_some_iff.mp hmax⟩
  · rw [(newest_of_accepting run' hk').stored ht', hstored]
    exact (argmax_eq_of_perm hperm.symm hnodup).symm
  · have hrun : Runs k s := Lib.Run.Carrying.run run
    have hbelow := (hrun.numbered hk).topics_lt t ht
    by_cases hgone : op.Removes s t ∧ t ∉ s'.topics
    · exact .inr hgone
    · left
      by_cases hremoves : op.Removes s t
      · have ht' : t ∈ s'.topics := not_not.mp fun hnot => hgone ⟨hremoves, hnot⟩
        exact lookup_of_step_present hrun hop hset hk' hbelow ht'
      · exact lookup_of_step_not_removes hop hset hremoves

def tenth : FrcTimestampedValue := ⟨10, ⟨.int, .integer 10⟩⟩

def fifth : FrcTimestampedValue := ⟨5, ⟨.int, .integer 5⟩⟩

theorem exec_of_accepts (h : s.accepts value t = true) :
    ∃ s', (Server.setValue value t).exec s = .ok (.ok (), s') := by
  unfold InnerServer.accepts at h
  split at h
  · exact ⟨_, ‹_›⟩
  · cases h

/-- The server publishes a topic, and two values of it come in. -/
theorem accepting_two : ∃ k s, k .topic < 2 ^ 32 ∧ Accepting 3 k ([tenth, fifth], s) ∧
    3 ∈ s.topics := by
  let publish : List Op := [.innerPublishTopic ⟨"n", 0, "int", none⟩ serverClientIdx]
  have hrun : (stateAfter anyOp .stored publish).map (fun s =>
      ((s.topicValueMap.lookup 3).isNone && (s.topics.lookup 3).isSome && s.accepts tenth 3,
        ((Server.setValue tenth 3).exec s).toOption.map fun p => p.2.accepts fifth 3)) =
      some (true, some true) := by decide +kernel
  obtain ⟨s₀, hs₀, hview⟩ := Option.map_eq_some_iff.mp hrun
  simp only [Prod.mk.injEq, Bool.and_eq_true, Option.isNone_iff_eq_none] at hview
  obtain ⟨⟨⟨hnone, hthere⟩, hten⟩, hfive⟩ := hview
  obtain ⟨k, run, hk⟩ := runWhere_stateAfter (fun _ _ _ => trivial) hs₀
  have hbound : k .topic < 2 ^ 32 := (hk .topic).trans_lt (by decide)
  have hmem : 3 ∈ s₀.topics := AList.lookup_isSome.mp hthere
  obtain ⟨l, run₀⟩ := Lib.Run.exists_carrying [] (sinceCreated 3) run
  have hnil : l = [] := by
    have hstored := (newest_of_accepting run₀ hbound).stored hmem
    rw [hnone] at hstored
    exact List.argmax_eq_none.mp hstored.symm
  subst hnil
  obtain ⟨s₁, hx₁⟩ := exec_of_accepts hten
  rw [hx₁] at hfive
  obtain ⟨s₂, hx₂⟩ := exec_of_accepts (Option.some.inj hfive)
  obtain ⟨hrest₁, -⟩ := ends_of_exec ends_setValue_stored hx₁
  obtain ⟨hrest₂, -⟩ := ends_of_exec ends_setValue_stored hx₂
  have hfree₁ : created s₀ s₁ .topic = 0 := created_eq_zero (by rw [hrest₁])
  have hfree₂ : created s₁ s₂ .topic = 0 := created_eq_zero (by rw [hrest₂])
  refine ⟨_, s₂, ?_, accepting_setValue (accepting_setValue run₀ hx₁) hx₂, ?_⟩
  · rw [Pi.add_apply, Pi.add_apply, hfree₁, hfree₂]
    exact hbound
  · rw [hrest₂, hrest₁]
    exact hmem

theorem newest_value_is_stored_tenFive : ∃ k s, Accepting 3 k ([tenth, fifth], s) ∧
    ∃ entry, s.topicValueMap.lookup 3 = some entry ∧ FirstMax stamp [tenth, fifth] entry := by
  obtain ⟨k, s, hk, run, ht⟩ := accepting_two
  exact ⟨k, s, run, (newest_value_is_stored run hk ht).1 (by simp)⟩

end Newest

section Wrap

/-- A topic that comes and goes. -/
def passing : PublishTopic := ⟨"m", 1, "int", none⟩

/-- Nobody subscribes to anything, the topic is away, and index 3 has a value. -/
structure Passed (s : InnerServer) : Prop where
  value : (s.topicValueMap.lookup 3).map stamp = some 10
  nobody : s.subscriptions.pairs = []
  own : ∃ client, s.clients.lookup serverClientIdx = some client ∧ client.subOuput = none
  name : s.topicMap.lookup passing.name = none
  pub : s.topicMap.lookup (metaPubName passing.name) = none
  sub : s.topicMap.lookup (metaSubName passing.name) = none

/-- The topic is there under this index, published by the server. -/
structure Passing (s : InnerServer) (t : TopicIdx) : Prop where
  value : (s.topicValueMap.lookup 3).map stamp = some 10
  nobody : s.subscriptions.pairs = []
  own : ∃ client, s.clients.lookup serverClientIdx = some client ∧ client.subOuput = none ∧
    client.pubuidToTopicidx.getByLeft passing.pubuid = some t
  topic : s.topics.lookup t = some (.fromPublishTopic passing)
  pub : s.topicMap.lookup (metaPubName passing.name) = some (t + 1)
  sub : s.topicMap.lookup (metaSubName passing.name) = some (t + 1 + 1)
  count : s.pubCount.lookup t = some 1
  list : s.topicSubMap.lookup t = some []

variable {s s' : InnerServer} {t : TopicIdx} {topic : Topic} {client : ConnectedClient}

/-- The loop over the subscribers of a topic, where nobody subscribes. -/
theorem ends_announceAll_nobody (hnobody : s.subscriptions.pairs = []) {name : String}
    {f : ClientIdx → ServerM Unit} {Q : Except NetworkTablesError Unit → InnerServer → Prop}
    (hQ : Q (.ok ()) s) :
    Ends (forEach (IterOrder.stored.arrange (clientsToNotify s name)) f) s Q := by
  have hnone : clientsToNotify s name = [] := by
    simp [clientsToNotify, hnobody]
  rw [hnone]
  exact (ends_pure ()).mpr hQ

theorem ends_announceTopic_nobody {Q : Except NetworkTablesError Unit → InnerServer → Prop}
    (hnobody : s.subscriptions.pairs = []) (ht : s.topics.lookup t = some topic) (hQ : Q (.ok ()) s) :
    Ends (announceTopic .stored t none) s Q := by
  simp only [announceTopic, ends_bind, ends_get, thenEnds_ok, ends_okOr, ht]
  exact ⟨fun _ _ => ends_announceAll_nobody hnobody hQ, by simp⟩

/-- The server's own client gets its reply nowhere. -/
theorem ends_announceTopic_own (hnobody : s.subscriptions.pairs = [])
    (ht : s.topics.lookup t = some topic) (hc : s.clients.lookup serverClientIdx = some client)
    (hdeaf : client.subOuput = none) (pubuid : PubUID) :
    Ends (announceTopic .stored t (some (pubuid, serverClientIdx))) s fun r s' => r = .ok () ∧
      ∃ clients client', s' = { s with clients := clients } ∧
        clients.lookup serverClientIdx = some client' ∧ client'.subOuput = none := by
  simp only [announceTopic, ends_bind, ends_get, thenEnds_ok, ends_okOr, ht, announceResponse, hc]
  refine ⟨fun _ _ => ?_, by simp⟩
  split_ifs
  · rw [ends_pure, thenEnds_ok, ends_bind, ends_get, thenEnds_ok]
    refine ends_announceAll_nobody hnobody ?_
    exact ⟨rfl, s.clients, client, rfl, hc, hdeaf⟩
  · refine (ends_bind _ _).mpr ((ends_sendOn_of_client hc).mpr ?_)
    rw [hdeaf]
    have hnobody' : ∀ clients, ({ s with clients := clients } : InnerServer).subscriptions.pairs = [] :=
      fun _ => hnobody
    simp only [thenEnds_ok, markAnnounced, ends_bind, ends_get, hc, putClient, ends_modify]
    refine ends_announceAll_nobody (hnobody' _) ?_
    exact ⟨rfl, _, { client with announcedTopics := insert t client.announcedTopics }, rfl,
      by rw [KeyMap.lookup_insert, if_pos rfl], hdeaf⟩

/-- The server once the topic is there with its metatopics. -/
def addPassing (s : InnerServer) : InnerServer :=
  ((s.withTopic (.fromPublishTopic passing)).withTopic
    (.newMeta (metaPubName passing.name))).withTopic (.newMeta (metaSubName passing.name))

theorem ends_addMetaTopic_new {Q : Except NetworkTablesError TopicIdx → InnerServer → Prop}
    (hname : s.topicMap.lookup topic.name = none) :
    Ends (addMetaTopic topic) s Q ↔ Q (.ok s.counters.topicIdx) (s.withTopic topic) := by
  rw [ends_addMetaTopic, ensureTopic, hname]

theorem topicMap_withTopic_ne {n : String} (hn : n ≠ topic.name) :
    (s.withTopic topic).topicMap.lookup n = s.topicMap.lookup n := by
  rw [InnerServer.withTopic, KeyMap.lookup_insert, if_neg hn]

theorem Passed.addTopic (h : Passed s) :
    Ends (addTopic .stored (.fromPublishTopic passing)) s fun r s' =>
      r = .ok s.counters.topicIdx ∧ s' = addPassing s := by
  have hpubName : metaPubName passing.name ≠ passing.name := by decide
  have hsubName : metaSubName passing.name ≠ passing.name := by decide
  have hboth : metaSubName passing.name ≠ metaPubName passing.name := by decide
  have hdollar : hasDollar (Topic.fromPublishTopic passing).name = false := by decide
  have hname : s.topicMap.lookup (Topic.fromPublishTopic passing).name = none := h.name
  simp only [Server.addTopic, ends_bind, ends_get, thenEnds_ok, hname, ends_insertTopic, hdollar,
    Bool.false_eq_true, if_false]
  refine (ends_addMetaTopic_new ?_).mpr ?_
  · exact (topicMap_withTopic_ne hpubName).trans h.pub
  rw [thenEnds_ok]
  let s₁ := s.withTopic (.fromPublishTopic passing)
  let s₂ := s₁.withTopic (.newMeta (metaPubName passing.name))
  refine (ends_bind _ _).mpr (ends_announceTopic_nobody (s := s₂) h.nobody
    (lookup_topics_withTopic.mpr (.inl ⟨rfl, rfl⟩)) ?_)
  simp only [thenEnds_ok, ends_bind]
  refine (ends_addMetaTopic_new ?_).mpr ?_
  · exact (topicMap_withTopic_ne hboth).trans ((topicMap_withTopic_ne hsubName).trans h.sub)
  rw [thenEnds_ok]
  refine (ends_bind _ _).mpr (ends_announceTopic_nobody (s := addPassing s) h.nobody
    (lookup_topics_withTopic.mpr (.inl ⟨rfl, rfl⟩)) ?_)
  exact (ends_pure _).mpr ⟨rfl, rfl⟩

theorem succ_ne (t : TopicIdx) : t ≠ t + 1 ∧ t ≠ t + 1 + 1 ∧ t + 1 ≠ t + 1 + 1 := by
  refine ⟨fun h => ?_, fun h => ?_, fun h => ?_⟩
  all_goals
    have hnat := congrArg UInt32.toNat h
    simp only [UInt32.toNat_add] at hnat
    have hlt := t.toNat_lt
    have hone : (1 : UInt32).toNat = 1 := rfl
    omega

/-- The tables of the topic and its metatopics. -/
theorem passing_of_added {u : InnerServer} {t : TopicIdx} (ht : t = s.counters.topicIdx)
    (hvalue : (s.topicValueMap.lookup 3).map stamp = some 10)
    (hnobody : s.subscriptions.pairs = [])
    (hu : u = { addPassing s with clients := u.clients, metatopicValueMap := u.metatopicValueMap })
    (hown : ∃ client, u.clients.lookup serverClientIdx = some client ∧ client.subOuput = none ∧
      client.pubuidToTopicidx.getByLeft passing.pubuid = some t) : Passing u t := by
  subst ht
  obtain ⟨hone, htwo, hlast⟩ := succ_ne s.counters.topicIdx
  have hpubName : metaPubName passing.name ≠ passing.name := by decide
  have hsubName : metaSubName passing.name ≠ passing.name := by decide
  have hboth : metaPubName passing.name ≠ metaSubName passing.name := by decide
  rw [hu]
  refine ⟨hvalue, hnobody, hown, ?_, ?_, ?_, ?_, ?_⟩
  · simp [addPassing, InnerServer.withTopic, hone, htwo]
  · simp [addPassing, InnerServer.withTopic, Topic.newMeta, hboth]
  · simp [addPassing, InnerServer.withTopic, Topic.newMeta]
  · simp only [addPassing, InnerServer.withTopic, KeyMap.lookup_insert, if_neg hone, if_neg htwo]
    rfl
  · simp [addPassing, InnerServer.withTopic, hone, htwo]

/-- The server publishes the topic. -/
theorem Passed.publish (h : Passed s) :
    ∃ s', Step s (.innerPublishTopic passing serverClientIdx) s' ∧
      Passing s' s.counters.topicIdx ∧ s'.counters.topicIdx = s.counters.topicIdx + 1 + 1 + 1 := by
  obtain ⟨client, hc, hdeaf⟩ := h.own
  have hends : Ends (innerPublishTopic .stored passing serverClientIdx) s fun _ s' =>
      Passing s' s.counters.topicIdx ∧ s'.counters.topicIdx = s.counters.topicIdx + 1 + 1 + 1 := by
    rw [innerPublishTopic_eq, ends_bind]
    refine ends_mono h.addTopic ?_
    intro r u hu
    obtain ⟨rfl, rfl⟩ := hu
    obtain ⟨hone, htwo, -⟩ := succ_ne s.counters.topicIdx
    have ht : (addPassing s).topics.lookup s.counters.topicIdx =
        some (.fromPublishTopic passing) := by
      simp [addPassing, InnerServer.withTopic, hone, htwo]
    rw [thenEnds_ok, ends_bind]
    refine ends_mono (ends_announceTopic_own (s := addPassing s) h.nobody ht hc hdeaf _) ?_
    intro r u hu
    obtain ⟨rfl, clients, client', rfl, hc', hdeaf'⟩ := hu
    rw [thenEnds_ok]
    refine ends_mono ends_register_put ?_
    intro r u hu
    obtain ⟨-, ⟨hnone, -⟩ | ⟨client₁, values, hc₁, rfl⟩⟩ := hu
    · cases hc'.symm.trans hnone
    cases hc'.symm.trans hc₁
    let published := { client' with
      pubuidToTopicidx := client'.pubuidToTopicidx.insert passing.pubuid s.counters.topicIdx }
    refine ⟨passing_of_added rfl h.value h.nobody rfl ⟨published, ?_, hdeaf', ?_⟩, rfl⟩
    · exact (KeyMap.lookup_insert _ _ _ _).trans (if_pos rfl)
    · exact (PrimBiMap.getByLeft_insert _ _ _ _).trans (if_pos rfl)
  obtain ⟨r, s', hx, h'⟩ := (total_bind total_innerPublishTopic fun _ => total_pure ()).ends
    (ends_ignoring hends)
  exact ⟨s', ⟨.stored, r, hx⟩, h'⟩

/-- The server takes its publication back, and the topic goes. -/
theorem Passing.unpublish (h : Passing s t) (ht : 3 ≠ t) :
    ∃ s', Step s (.innerUnpublishTopic ⟨passing.pubuid⟩ serverClientIdx) s' ∧ Passed s' ∧
      s'.counters = s.counters := by
  obtain ⟨client, hc, hdeaf, hpubuid⟩ := h.own
  have hends : Ends (innerUnpublishTopic ⟨passing.pubuid⟩ serverClientIdx) s fun _ s' =>
      Passed s' ∧ s'.counters = s.counters := by
    have hzero : (1 : UInt16) - 1 = 0 := rfl
    simp only [innerUnpublishTopic, ends_bind, ends_get, thenEnds_ok, ends_okOr, thenEnds_error,
      putClient, ends_modify, hc, hpubuid, h.count, Option.some.injEq, forall_eq', reduceCtorEq,
      false_implies, and_true, hzero, if_true]
    refine ends_removeTopic.mpr ⟨fun hnone => ?_, fun topic htopic => ?_⟩
    · cases h.topic.symm.trans hnone
    cases h.topic.symm.trans htopic
    refine ⟨fun hnone => ?_, fun p hp => ⟨fun hnone => ?_, fun q hq => ?_⟩⟩
    · cases h.pub.symm.trans hnone
    · cases h.sub.symm.trans hnone
    simp only [thenEnds_ok, ends_bind, ends_modify, updatePublishers, if_true, updateMetaValue]
    let withdrawn := { client with
      pubuidToTopicidx := client.pubuidToTopicidx.removeByLeft passing.pubuid }
    refine ⟨⟨?_, h.nobody, ⟨withdrawn, ?_, hdeaf⟩, ?_, ?_, ?_⟩, rfl⟩
    · simp [InnerServer.withoutTopic, ht, h.value]
    · exact (KeyMap.lookup_insert _ _ _ _).trans (if_pos rfl)
    · simp [InnerServer.withoutTopic, Topic.fromPublishTopic]
    · simp [InnerServer.withoutTopic, Topic.fromPublishTopic]
    · simp [InnerServer.withoutTopic, Topic.fromPublishTopic]
  obtain ⟨r, s', hx, h'⟩ := total_innerUnpublishTopic.ends hends
  exact ⟨s', ⟨.stored, r, hx⟩, h'⟩

theorem roundIdx_ne {n : Nat} (hn : n < 1431655764) : (3 : UInt32) ≠ UInt32.ofNat (7 + 3 * n) := by
  intro heq
  rcases Nat.lt_or_ge (7 + 3 * n) 4294967296 with hlt | hge
  · have hnat := congrArg UInt32.toNat heq
    rw [UInt32.toNat_ofNat_of_lt' hlt] at hnat
    have hthree : (3 : UInt32).toNat = 3 := rfl
    omega
  · -- the last round starts at index 0
    have hlast : 7 + 3 * n = 4294967296 := by
      clear heq
      omega
    rw [hlast] at heq
    revert heq
    decide

theorem roundIdx_succ (n : Nat) :
    UInt32.ofNat (7 + 3 * n) + 1 + 1 + 1 = UInt32.ofNat (7 + 3 * (n + 1)) := by
  rw [← UInt32.toNat_inj]
  simp only [UInt32.toNat_add, UInt32.toNat_ofNat']
  have hone : (1 : UInt32).toNat = 1 := rfl
  omega

/-- Each time the topic comes and goes it takes three indices. -/
theorem Passed.rounds {k : Kind → Nat} {l : List FrcTimestampedValue}
    (run : Accepting 3 k (l, s)) (h : Passed s) (hidx : s.counters.topicIdx = 7) (n : Nat)
    (hn : n ≤ 1431655764) :
    ∃ k' l' s', Accepting 3 k' (l', s') ∧ Passed s' ∧
      s'.counters.topicIdx = UInt32.ofNat (7 + 3 * n) := by
  induction n with
  | zero => exact ⟨k, l, s, run, h, hidx⟩
  | succ n ih =>
    obtain ⟨k₁, l₁, s₁, run₁, h₁, hidx₁⟩ := ih (by omega)
    obtain ⟨s₂, hpublish, h₂, hidx₂⟩ := h₁.publish
    have hne : 3 ≠ s₁.counters.topicIdx := hidx₁ ▸ roundIdx_ne hn
    obtain ⟨s₃, hunpublish, h₃, hcounters⟩ := h₂.unpublish hne
    have run₃ := Lib.Run.carrying_step (Lib.Run.carrying_step run₁ hpublish trivial) hunpublish
      trivial
    refine ⟨_, _, s₃, run₃, h₃, ?_⟩
    rw [hcounters, hidx₂, hidx₁, roundIdx_succ]

/-- A value that is not newer than the stored one is accepted, and left out. -/
theorem Passing.setValue_older (h : Passing s 3) {value : FrcTimestampedValue}
    (holder : stamp value ≤ 10) : (setValue value 3).exec s = .ok (.ok (), s) := by
  obtain ⟨kept, hkept, hstamp⟩ := Option.map_eq_some_iff.mp h.value
  have hnot : ¬kept.timestamp < value.timestamp := by
    rw [UInt64.lt_iff_toNat_lt]
    simp only [stamp] at holder hstamp
    omega
  have hnormal : hasDollar (Topic.fromPublishTopic passing).name = false := by decide
  simp only [setValue, exec_bind, exec_get, h.topic, okOr, exec_pure, hnormal, Bool.false_eq_true,
    if_false, h.list, unwrapOr, forEach, storeValue, hkept, hnot]

/-- Index 3 has a value, and the next index is 7. -/
def storeFirst : List Op :=
  [.innerPublishTopic ⟨"n", 0, "int", none⟩ serverClientIdx,
    .setValue tenth 3,
    .innerPublishTopic ⟨"$a", 2, "int", none⟩ serverClientIdx]

theorem passed_storeFirst : ∃ s, stateAfter anyOp .stored storeFirst = some s ∧ Passed s ∧
    s.counters.topicIdx = 7 := by
  have hrun : (stateAfter anyOp .stored storeFirst).map (fun s =>
      ((s.topicValueMap.lookup 3).map stamp,
        (s.clients.lookup serverClientIdx).map fun client => client.subOuput.isNone,
        s.subscriptions.pairs.isEmpty && (s.topicMap.lookup passing.name).isNone &&
          (s.topicMap.lookup (metaPubName passing.name)).isNone &&
          (s.topicMap.lookup (metaSubName passing.name)).isNone, s.counters.topicIdx)) =
      some (some 10, some true, true, 7) := by decide +kernel
  obtain ⟨s, hs, hview⟩ := Option.map_eq_some_iff.mp hrun
  simp only [Prod.mk.injEq, Bool.and_eq_true, Option.isNone_iff_eq_none, List.isEmpty_iff] at hview
  obtain ⟨hvalue, hown, ⟨⟨⟨hnobody, hname⟩, hpub⟩, hsub⟩, hidx⟩ := hview
  obtain ⟨client, hc, hdeaf⟩ := Option.map_eq_some_iff.mp hown
  have hown : ∃ client, s.clients.lookup serverClientIdx = some client ∧ client.subOuput = none :=
    ⟨client, hc, Option.isNone_iff_eq_none.mp hdeaf⟩
  exact ⟨s, hs, ⟨hvalue, hnobody, hown, hname, hpub, hsub⟩, hidx⟩

/-- After 2^32 topics an index comes back, and with it the value of the topic that had it before. -/
theorem old_value_outlives_wrap :
    ¬∀ t k l s, Accepting t k (l, s) → t ∈ s.topics → l ≠ [] →
      ∃ entry, s.topicValueMap.lookup t = some entry ∧ FirstMax stamp l entry := by
  intro hclaim
  obtain ⟨s₀, hs₀, h₀, hidx₀⟩ := passed_storeFirst
  obtain ⟨k₀, run₀, -⟩ := runWhere_stateAfter (fun _ _ _ => trivial) hs₀
  obtain ⟨l₀, carrying₀⟩ := Lib.Run.exists_carrying [] (sinceCreated 3) run₀
  obtain ⟨k₁, l₁, s₁, run₁, h₁, hidx₁⟩ := h₀.rounds carrying₀ hidx₀ 1431655764 le_rfl
  have hthree : s₁.counters.topicIdx = 3 := hidx₁.trans (by decide)
  obtain ⟨s₂, hpublish, h₂, hidx₂⟩ := h₁.publish
  rw [hthree] at h₂ hidx₂
  have hset : (setValue fifth 3).exec s₂ = .ok (.ok (), s₂) := h₂.setValue_older (by decide)
  have run₂ := Lib.Run.carrying_step run₁ hpublish trivial
  have hgiven : GivesOut s₁ s₂ 3 := by
    rw [GivesOut, hidx₂, hthree]
    decide
  rw [sinceCreated, if_pos hgiven] at run₂
  have run₃ := accepting_setValue run₂ hset
  obtain ⟨entry, hentry, hfirst⟩ := hclaim 3 _ _ s₂ run₃
    ((KeyMap.mem_iff_lookup _ _).mpr ⟨_, h₂.topic⟩) (by simp)
  have hvalue := h₂.value
  rw [hentry, ← argmax_eq_some_iff.mpr hfirst] at hvalue
  revert hvalue
  decide

end Wrap

end NetTables.System
