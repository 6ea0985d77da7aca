import NetTables.Server.Queues

namespace NetTables.Server

open Lib Lib.Fallible Spec

/-- The name under which a topic was created: its name in the first of the states that has it. -/
def createdAs (states : List InnerServer) (t : TopicIdx) : Option String :=
  states.findSome? fun s => (s.topics.lookup t).map Topic.name

/-- The states of a recorded run. -/
def visited (log : List (InnerServer × Op)) (s : InnerServer) : List InnerServer :=
  log.map Prod.fst ++ [s]

/-- The value messages that a step puts on the channel of a client. -/
def framesPut (s s' : InnerServer) (c : ClientIdx) : List ValueFrame :=
  (s'.framesOn c).drop (s.framesOn c).length

/-- The index of the subscription that an unsubscription removes. -/
def InnerServer.unsubscribes (s : InnerServer) (op : Op) (i : SubIdx) : Prop :=
  ∃ unsub c client, op = .unsubscribe unsub c ∧ s.clients.lookup c = some client ∧
    client.subuidToSubidx.getByLeft unsub.subuid.toUInt32 = some i

variable {s s' : InnerServer} {op : Op} {o : IterOrder} {log : List (InnerServer × Op)}
  {t : TopicIdx} {i : SubIdx} {c : ClientIdx} {sub : Subscription} {e : Option Event}

theorem createdAs_snoc (states : List InnerServer) (s : InnerServer) (t : TopicIdx) :
    createdAs (states ++ [s]) t =
      (createdAs states t).or ((s.topics.lookup t).map Topic.name) := by
  simp only [createdAs, List.findSome?_append, List.findSome?_singleton]

section Names

/-- How far names can change while topics are only added. -/
structure Grown (s u : InnerServer) : Prop where
  numbered : Numbered u
  idx : s.counters.topicIdx.toNat ≤ u.counters.topicIdx.toNat
  map : ∀ n t, u.topicMap.lookup n = some t → s.topicMap.lookup n = some t ∨
    s.counters.topicIdx.toNat ≤ t.toNat ∧ ∃ topic, u.topics.lookup t = some topic ∧ topic.name = n
  topics : ∀ t topic', u.topics.lookup t = some topic' →
    (∃ topic, s.topics.lookup t = some topic ∧ topic.name = topic'.name) ∨
      s.counters.topicIdx.toNat ≤ t.toNat

theorem Grown.refl (h : Numbered s) : Grown s s :=
  ⟨h, le_refl _, fun _ _ hn => .inl hn, fun _ topic ht => .inl ⟨topic, ht, rfl⟩⟩

/-- An effect that leaves the name map, and the names of the topics. -/
theorem Grown.of_same {u u' : InnerServer} (h : Grown s u) (hn : Numbered u')
    (hmap : u'.topicMap = u.topicMap)
    (htopics : ∀ t, (u'.topics.lookup t).map Topic.name = (u.topics.lookup t).map Topic.name)
    (hidx : u'.counters.topicIdx = u.counters.topicIdx) : Grown s u' := by
  refine ⟨hn, by rw [hidx]; exact h.idx, fun n t hmap' => ?_, fun t topic' ht => ?_⟩
  · rw [hmap] at hmap'
    rcases h.map n t hmap' with hold | ⟨hge, topic, ht, hname⟩
    · exact .inl hold
    · have hsame := htopics t
      rw [ht, Option.map_some] at hsame
      obtain ⟨topic', ht', hname'⟩ := Option.map_eq_some_iff.mp hsame
      exact .inr ⟨hge, topic', ht', hname'.trans hname⟩
  · have hsame := htopics t
    rw [ht, Option.map_some] at hsame
    obtain ⟨topic₀, ht₀, hname₀⟩ := Option.map_eq_some_iff.mp hsame.symm
    rcases h.topics t topic₀ ht₀ with ⟨topic, hold, hname⟩ | hge
    · exact .inl ⟨topic, hold, hname.trans hname₀⟩
    · exact .inr hge

theorem Grown.step {u u' : InnerServer} (h : Grown s u) (he : Effect u e u')
    (hroom : Room (· = .topic) u e.toList) (hgone : ∀ t how, e ≠ some (.gone t how)) :
    Grown s u' := by
  have hn := h.numbered.step he hroom
  cases he with
  | topicAdded topic hfresh =>
    have hlt : u.counters.topicIdx.toNat + 1 < 2 ^ 32 := hroom .topic rfl
    have hone : (1 : UInt32).toNat = 1 := rfl
    have hidx : (u.withTopic topic).counters.topicIdx.toNat = u.counters.topicIdx.toNat + 1 := by
      rw [InnerServer.withTopic, UInt32.toNat_add, hone]
      omega
    have hle := h.idx
    refine ⟨hn, by omega, fun n t hmap => ?_, fun t topic' ht => ?_⟩
    · rcases lookup_topicMap_withTopic.mp hmap with ⟨rfl, rfl⟩ | ⟨-, hmap⟩
      · exact .inr ⟨hle, topic, lookup_topics_withTopic.mpr (.inl ⟨rfl, rfl⟩), rfl⟩
      · rcases h.map n t hmap with hold | ⟨hge, topic', ht, hname⟩
        · exact .inl hold
        · have hlt := h.numbered.map_lt n t hmap
          have hne : t ≠ u.counters.topicIdx := fun heq => by rw [heq] at hlt; omega
          exact .inr ⟨hge, topic', lookup_topics_withTopic.mpr (.inr ⟨hne, ht⟩), hname⟩
    · rcases lookup_topics_withTopic.mp ht with ⟨rfl, rfl⟩ | ⟨-, ht⟩
      · exact .inr hle
      · exact h.topics t topic' ht
  | topicRemoved | topicLost | topicHalfLost => exact (hgone _ _ rfl).elim
  | propertiesSet properties ht =>
    refine h.of_same hn rfl (fun v => ?_) rfl
    rw [KeyMap.lookup_insert]
    split_ifs with hv
    · rw [hv, ht]
      rfl
    · rfl
  | _ => exact h.of_same hn rfl (fun _ => rfl) rfl

/-- How far names can change while topics are only removed. -/
structure Shrunk (s u : InnerServer) : Prop where
  map : ∀ n t, u.topicMap.lookup n = some t → s.topicMap.lookup n = some t
  topics : ∀ t topic', u.topics.lookup t = some topic' →
    ∃ topic, s.topics.lookup t = some topic ∧ topic.name = topic'.name

theorem Shrunk.refl (s : InnerServer) : Shrunk s s :=
  ⟨fun _ _ h => h, fun _ topic ht => ⟨topic, ht, rfl⟩⟩

theorem Shrunk.trans {u u' : InnerServer} (h : Shrunk s u) (h' : Shrunk u u') : Shrunk s u' := by
  refine ⟨fun n t hmap => h.map n t (h'.map n t hmap), fun t topic' ht => ?_⟩
  obtain ⟨topic, ht, hname⟩ := h'.topics t topic' ht
  obtain ⟨topic₀, ht₀, hname₀⟩ := h.topics t topic ht
  exact ⟨topic₀, ht₀, hname₀.trans hname⟩

theorem Shrunk.not_mem {u : InnerServer} {t : TopicIdx} (h : Shrunk s u) (ht : t ∉ s.topics) :
    t ∉ u.topics := by
  intro hmem
  obtain ⟨topic', hmem⟩ := (KeyMap.mem_iff_lookup _ _).mp hmem
  obtain ⟨topic, hmem, -⟩ := h.topics t topic' hmem
  exact ht ((KeyMap.mem_iff_lookup _ _).mpr ⟨topic, hmem⟩)

theorem Shrunk.step {u u' : InnerServer} (h : Shrunk s u) (he : Effect u e u')
    (hadded : ∀ name, e ≠ some (.topic name)) : Shrunk s u' := by
  cases he with
  | topicAdded topic => exact (hadded _ rfl).elim
  | topicRemoved =>
    refine ⟨fun n t hmap => h.map n t (lookup_topicMap_withoutTopic.mp hmap).2.2.2, ?_⟩
    intro t topic' ht
    exact h.topics t topic' (lookup_topics_withoutTopic.mp ht).2.2.2
  | topicLost =>
    refine ⟨h.map, fun t topic' ht => h.topics t topic' ?_⟩
    rw [KeyMap.lookup_erase] at ht
    split_ifs at ht
    exact ht
  | topicHalfLost =>
    refine ⟨fun n t hmap => h.map n t ?_, fun t topic' ht => h.topics t topic' ?_⟩
    · rw [KeyMap.lookup_erase] at hmap
      split_ifs at hmap
      exact hmap
    · rw [KeyMap.lookup_erase] at ht
      split_ifs at ht
      exact ht
  | propertiesSet properties ht =>
    refine ⟨h.map, fun v topic' hv => ?_⟩
    obtain ⟨topic₀, hv₀, hname₀⟩ := lookup_insert_properties ht hv
    obtain ⟨topic, hold, hname⟩ := h.topics v topic₀ hv₀
    exact ⟨topic, hold, hname.trans hname₀⟩
  | _ => exact ⟨h.map, h.topics⟩

/-- A step gives names to new indices only. -/
theorem Step.names {u : Kind → Nat} (run : Runs u s) (h : Step s op s')
    (hu : u .topic + created s s' .topic < 2 ^ 32) : Grown s s' := by
  have hn : Numbered s := run.numbered (lt_of_le_of_lt (Nat.le_add_right ..) hu)
  obtain ⟨es, hes, hall, hle⟩ := h.does
  have hroom : Room (· = .topic) s es := run.room hes hle fun k hk => hk ▸ hu
  by_cases hadds : ∃ name, op.Adds s name
  · obtain ⟨name, hadds⟩ := hadds
    refine hes.invariant_of_room (Grown s) (op.MayDo s) hall hroom ?_ (.refl hn)
    intro u e u' he hp hr hu
    refine hu.step he hr fun t how heq => ?_
    exact Op.not_removes_of_adds hadds t (hp _ heq)
  · have hshrunk : Shrunk s s' := by
      refine hes.invariant (Shrunk s) (op.MayDo s) hall ?_ (.refl s)
      intro u e u' he hp hu
      exact hu.step he fun name heq => hadds ⟨name, hp _ heq⟩
    have hidx := h.counters run hu
    refine ⟨?_, ?_, fun n t hn => .inl (hshrunk.map n t hn), fun t topic' ht =>
      .inl (hshrunk.topics t topic' ht)⟩
    · exact hes.invariant_of_room Numbered (fun _ => True) (fun _ _ => trivial) hroom
        (fun _ _ _ he _ hr h => h.step he hr) hn
    · have hidx : s'.counters.topicIdx.toNat = s.counters.topicIdx.toNat + created s s' .topic :=
        hidx
      omega

end Names

section Steps

/-- The effect of an operation on the lists: only a new subscription is added to a list, and only
where it cares about a name of the topic. -/
theorem Step.listed (h : Step s op s') (hs : Stored s)
    (hi : s'.subscriptions.lookup i = some (sub, c)) (hl : Listed s'.topicSubMap t i) :
    Listed s.topicSubMap t i ∨
      ∃ name, s.topicMap.lookup name = some t ∧ sub.caresAbout name = true := by
  obtain ⟨o, r, hx⟩ := h
  cases op with
  | subscribe msg d now =>
    rcases ends_of_exec effect_subscribe hx with rfl | he
    · exact .inl hl
    · cases he with
      | subscribed sub₀ now stored interest messages frames hc hinterest =>
        rcases listed_pushAll.mp hl with hl | ⟨ht, rfl⟩
        · exact .inl hl
        · simp only [KeyMap.lookup_insert, if_true] at hi
          cases hi
          obtain ⟨e, he, rfl⟩ := List.mem_map.mp ht
          exact .inr ⟨e.1, (hinterest e).mp he⟩
      | subscribeFailed ts =>
        rcases listed_pushAll.mp hl with hl | ⟨-, rfl⟩
        · exact .inl hl
        · have hlt := hs.lt _ ((KeyMap.mem_iff_lookup _ _).mpr ⟨_, hi⟩)
          omega
  | unsubscribe msg d =>
    have hends : Ends (unsubscribe msg d) s fun _ s' =>
        ∀ t i, Listed s'.topicSubMap t i → Listed s.topicSubMap t i := by
      simp only [unsubscribe, ends_bind, ends_get, thenEnds_ok, ends_okOr, thenEnds_error,
        ends_modify, putClient]
      refine ⟨fun client hc => ⟨fun j hj t i hl => (listed_filter.mp hl).2, fun _ t i hl => hl⟩,
        fun _ t i hl => hl⟩
    exact .inl (ends_of_exec hends hx t i hl)
  | setValue value u =>
    have hlists := (ends_of_exec (ends_setValue fun subs hl => hs.once u subs hl) hx).2.2.1
    rw [hlists] at hl
    exact .inl hl
  | sendOut clock offset =>
    have hpass : Ends (ignoring (sendOut o clock offset)) s fun _ s' => Passing s clock [] s' :=
      ends_ignoring (passing_sendOut fun i hi => (hs.values i).mpr hi)
    have hlists := (ends_of_exec hpass hx).lists
    rw [hlists] at hl
    exact .inl hl
  | _ => exact .inl ((ends_of_exec (calm_perform _ id s) hx).listed t i hl)

/-- Only a listed subscription is queued a value. -/
theorem queued_nextQueue {stored : StoredSubValue}
    (hq : (s.nextQueue i stored op).queued t ≠ []) :
    stored.queued t ≠ [] ∨ Listed s.topicSubMap t i := by
  cases op with
  | setValue value u =>
    simp only [InnerServer.nextQueue] at hq
    split_ifs at hq with hqueues
    · by_cases hu : u = t
      · have hmem : i ∈ (s.topicSubMap.lookup u).getD [] := by
          simp only [InnerServer.queues, Bool.and_eq_true, decide_eq_true_eq] at hqueues
          exact hqueues.1
        exact .inr (hu ▸ mem_getD_iff_listed.mp hmem)
      · obtain ⟨w, hw⟩ := List.exists_mem_of_ne_nil _ hq
        rcases StoredSubValue.mem_queued_addValue hw with ⟨heq, -⟩ | hw
        · exact (hu heq.symm).elim
        · exact .inl (List.ne_nil_of_mem hw)
    · exact .inl hq
  | sendOut clock offset =>
    simp only [InnerServer.nextQueue] at hq
    split_ifs at hq
    · exact (hq (StoredSubValue.queued_takeValues stored t)).elim
    · exact .inl hq
  | _ => exact .inl hq

/-- Where a value message can come from: the queue of a subscription of the client that the pass
takes, or the topic's value, for the very subscription that the step makes. -/
def Sourced (s : InnerServer) (op : Op) (s' : InnerServer) (c : ClientIdx) (i : SubIdx)
    (sub : Subscription) (t : TopicIdx) (value : FrcTimestampedValue) : Prop :=
  s'.subscriptions.lookup i = some (sub, c) ∧
    ((∃ clock offset stored, op = .sendOut clock offset ∧ s.subscriptions.lookup i = some (sub, c) ∧
      s.subValues.lookup i = some stored ∧ .normalValue value ∈ stored.queued t) ∨
    (∃ msg d now, op = .subscribe msg d now) ∧ i = s.counters.subIdx ∧
      s.topicValueMap.lookup t = some value ∧
      ∃ name, s.topicMap.lookup name = some t ∧ sub.caresAbout name = true)

theorem frames_append (client : ConnectedClient) (messages : List NTMessage)
    (frames : List ValueFrame) (subs : PrimBiMap SubUID SubIdx) :
    ∃ added, ({ client with
      subuidToSubidx := subs
      subOuput := client.subOuput.map fun ch =>
        ch.append [.text messages, .binary frames] } : ConnectedClient).frames =
      client.frames ++ added ∧ ∀ f ∈ added, f ∈ frames := by
  cases hch : client.subOuput with
  | none => exact ⟨[], by simp [ConnectedClient.frames, hch], by simp⟩
  | some ch =>
    by_cases hopen : ch.isOpen = true
    · refine ⟨frames, ?_, fun f hf => hf⟩
      simp [ConnectedClient.frames, hch, Outgoing.append, hopen, OutMessage.frames]
    · exact ⟨[], by simp [ConnectedClient.frames, hch, Outgoing.append, hopen], by simp⟩

theorem drop_of_append {α : Type} {l l' added : List α} (h : l' = l ++ added) :
    l'.drop l.length = added := by
  rw [h, List.drop_left]

/-- The value messages of a step. -/
theorem Step.sourced {f : ValueFrame} (h : Step s op s') (hs : Stored s)
    (hn : Numbered s) (hf : f ∈ framesPut s s' c) :
    ∃ i sub t, f.topicId = t.toInt32 ∧ Sourced s op s' c i sub t f.value := by
  obtain ⟨o, r, hx⟩ := h
  -- no message is put on the channel where it stays, or goes with its client
  have hnone : (s'.framesOn c = s.framesOn c ∨ s'.framesOn c = []) → False := by
    intro hu
    obtain heq | hnil := hu
    · rw [framesPut, heq, List.drop_length] at hf
      cases hf
    · rw [framesPut, hnil, List.drop_nil] at hf
      cases hf
  cases op with
  | subscribe msg d now =>
    rcases ends_of_exec effect_subscribe hx with rfl | he
    · exact (hnone (.inl rfl)).elim
    · cases he with
      | @subscribed d' client sub₀ now' stored interest messages frames hc hinterest _ _ _ _ _ _
          hcurrent =>
        by_cases hd : c = d'
        · subst hd
          obtain ⟨added, happ, hadded⟩ := frames_append client messages frames
            (client.subuidToSubidx.insert sub₀.subuid.toUInt32 s.counters.subIdx)
          have hold : s.framesOn c = client.frames := by rw [InnerServer.framesOn, hc]
          have hput : f ∈ added := by
            rw [framesPut, hold] at hf
            have hnew := drop_of_append happ
            rw [← hnew]
            simpa only [InnerServer.framesOn, KeyMap.lookup_insert, if_true] using hf
          obtain ⟨e, he, hid, hvalue⟩ := hcurrent f (hadded f hput)
          exact ⟨s.counters.subIdx, sub₀, e.2, hid, by simp, .inr ⟨⟨msg, d, now, rfl⟩, rfl, hvalue,
            e.1, (hinterest e).mp he⟩⟩
        · refine (hnone (.inl ?_)).elim
          simp only [InnerServer.framesOn, KeyMap.lookup_insert, if_neg hd]
      | subscribeFailed ts he hmissing => exact (hmissing (hn.map_listed _ _ he)).elim
  | unsubscribe msg d =>
    have hends : Ends (unsubscribe msg d) s fun _ s' => s'.framesOn c = s.framesOn c := by
      simp only [unsubscribe, ends_bind, ends_get, thenEnds_ok, ends_okOr, thenEnds_error,
        ends_modify, putClient]
      refine ⟨fun client hc => ⟨fun j hj => ?_, fun _ => trivial⟩, fun _ => trivial⟩
      simp only [InnerServer.framesOn, KeyMap.lookup_insert]
      split_ifs with hd
      · rw [hd, hc]
        rfl
      · rfl
    exact (hnone (.inl (ends_of_exec hends hx))).elim
  | setValue value u =>
    have hclients := (ends_of_exec (ends_setValue fun subs hl => hs.once u subs hl) hx).2.1
    refine (hnone (.inl ?_)).elim
    simp only [InnerServer.framesOn, hclients]
  | sendOut clock offset =>
    have hpass : Ends (ignoring (sendOut o clock offset)) s fun _ s' => Passing s clock [] s' :=
      ends_ignoring (passing_sendOut fun i hi => (hs.values i).mpr hi)
    have hpass := ends_of_exec hpass hx
    obtain ⟨added, happ, hadded⟩ := hpass.frames c
    rw [framesPut, drop_of_append happ] at hf
    obtain ⟨i, sub, stored, t, v, hi, hstored, hv, rfl⟩ := hadded f hf
    refine ⟨i, sub, t, rfl, ?_, .inl ⟨clock, offset, stored, rfl, hi, hstored, hv⟩⟩
    rw [hpass.subscriptions]
    exact hi
  | _ => exact (hnone ((ends_of_exec (calm_perform _ id s) hx).frames c)).elim

end Steps

section Retired

/-- The indices that a client's own table leads to have been given out. -/
def Known (s : InnerServer) : Prop :=
  ∀ c client subuid i, s.clients.lookup c = some client →
    client.subuidToSubidx.getByLeft subuid = some i → i.toNat < s.counters.subIdx.toNat

/-- A change of one client that adds nothing to its table. -/
theorem Known.update (h : Known s) {client client' : ConnectedClient}
    (hc : s.clients.lookup c = some client) (hclients : s'.clients = s.clients.insert c client')
    (htable : ∀ subuid i, client'.subuidToSubidx.getByLeft subuid = some i →
      client.subuidToSubidx.getByLeft subuid = some i)
    (hidx : s'.counters.subIdx = s.counters.subIdx) : Known s' := by
  intro d client₀ subuid i hd hi
  rw [hidx]
  rw [hclients, KeyMap.lookup_insert] at hd
  split_ifs at hd with heq
  · cases hd
    exact h c client subuid i hc (htable subuid i hi)
  · exact h d client₀ subuid i hd hi

theorem Known.step (h : Known s) (he : Effect s e s') (hroom : Room (· = .sub) s e.toList) :
    Known s' := by
  have hroom : e = some .sub →
      (s.counters.subIdx + 1).toNat = s.counters.subIdx.toNat + 1 := by
    rintro rfl
    have hlt : s.counters.subIdx.toNat + 1 < 2 ^ 32 := hroom .sub rfl
    have hone : (1 : UInt32).toNat = 1 := rfl
    rw [UInt32.toNat_add, hone]
    omega
  cases he with
  | clientConnected identity =>
    intro d client₀ subuid i hd hi
    simp only [KeyMap.lookup_insert] at hd
    split_ifs at hd
    · cases hd
      cases hi
    · exact h d client₀ subuid i hd hi
  | clientLeft hident hc =>
    intro d client₀ subuid i hd hi
    simp only [InnerServer.withoutClient, KeyMap.lookup_erase] at hd
    split_ifs at hd
    exact h d client₀ subuid i hd hi
  | subscribed sub now stored interest messages frames hc =>
    intro d client₀ subuid i hd hi
    show i.toNat < (s.counters.subIdx + 1).toNat
    rw [hroom rfl]
    simp only [KeyMap.lookup_insert] at hd
    split_ifs at hd
    · cases hd
      rw [PrimBiMap.getByLeft_insert] at hi
      split_ifs at hi
      · cases hi
        omega
      · have hlt := h _ _ subuid i hc hi
        omega
    · have hlt := h d client₀ subuid i hd hi
      omega
  | subscribeFailed =>
    intro d client₀ subuid i hd hi
    have hlt := h d client₀ subuid i hd hi
    show i.toNat < (s.counters.subIdx + 1).toNat
    rw [hroom rfl]
    omega
  | unsubscribed subuid hc =>
    refine h.update hc rfl (fun subuid' i hi => ?_) rfl
    rw [PrimBiMap.getByLeft_removeByLeft] at hi
    split_ifs at hi
    exact hi
  | registered _ hc | unregistered _ hc | marked _ hc | told _ hc | flushed hc | closed hc
  | batchesSent _ _ hc => exact h.update hc rfl (fun _ _ hi => hi) rfl
  | _ => exact h

theorem RunWhere.known {guard : InnerServer → Op → Prop} {u : Kind → Nat}
    (run : RunWhere guard u s) (hu : u .sub < 2 ^ 32) : Known s := by
  refine run.induct (· = .sub) Known (fun k hk => hk ▸ hu) ?_ ?_
  · intro es s hes _ hroom
    refine hes.invariant_of_room Known (fun _ => True) (fun _ _ => trivial) hroom
      (fun _ _ _ he _ hr h => h.step he hr) ?_
    intro c client subuid i hc hi
    simp only [booted, KeyMap.lookup_insert] at hc
    split_ifs at hc
    · cases hc
      cases hi
    · cases hc
  · intro s op es s' hes _ hroom _ _ h
    exact hes.invariant_of_room Known (fun _ => True) (fun _ _ => trivial) hroom
      (fun _ _ _ he _ hr h => h.step he hr) h

/-- The index was given out once, and no subscription has it any more. -/
def Retired (s : InnerServer) (i : SubIdx) : Prop :=
  i ∉ s.subscriptions ∧ i.toNat < s.counters.subIdx.toNat

theorem Retired.step (h : Retired s i) (hop : Step s op s') (hs : Stored s) (hn : Numbered s)
    (hidx : s.counters.subIdx.toNat ≤ s'.counters.subIdx.toNat) : Retired s' i := by
  refine ⟨fun hmem => ?_, h.2.trans_le hidx⟩
  obtain ⟨⟨sub, c⟩, hi⟩ := (KeyMap.mem_iff_lookup _ _).mp hmem
  rcases hop.queue hs hn hi with ⟨heq, -, -⟩ | ⟨hold, -⟩
  · have hlt := h.2
    rw [heq] at hlt
    omega
  · exact h.1 ((KeyMap.mem_iff_lookup _ _).mpr ⟨_, hold⟩)

/-- An unsubscription retires the index. -/
theorem retired_unsubscribe (hk : Known s) (hop : Step s op s') (hi : s.unsubscribes op i)
    (hidx : s.counters.subIdx.toNat ≤ s'.counters.subIdx.toNat) : Retired s' i := by
  obtain ⟨unsub, c, client, rfl, hc, hi⟩ := hi
  obtain ⟨o, r, hx⟩ := hop
  have hends : Ends (unsubscribe unsub c) s fun _ s' => i ∉ s'.subscriptions := by
    simp only [unsubscribe, ends_bind, ends_get, thenEnds_ok, ends_okOr, thenEnds_error,
      ends_modify, putClient, hc]
    refine ⟨fun client' hclient => ⟨fun j hj => ?_, fun hnone => ?_⟩, fun h => by cases h⟩
    · cases hclient
      rw [hi] at hj
      cases hj
      exact fun hmem => (AList.mem_erase.mp hmem).1 rfl
    · cases hclient
      rw [hi] at hnone
      cases hnone
  exact ⟨ends_of_exec hends hx, (hk c client _ i hc hi).trans_le hidx⟩

end Retired

theorem visited_snoc (log : List (InnerServer × Op)) (s s' : InnerServer) (op : Op) :
    visited (log ++ [(s, op)]) s' = visited log s ++ [s'] := by
  simp [visited]

/-- The tables use each index for the name that its topic was created with. -/
structure Recorded (log : List (InnerServer × Op)) (s : InnerServer) : Prop where
  map : ∀ n t, s.topicMap.lookup n = some t → createdAs (visited log s) t = some n
  topics : ∀ t topic, s.topics.lookup t = some topic →
    createdAs (visited log s) t = some topic.name
  unborn : ∀ t, s.counters.topicIdx.toNat ≤ t.toNat → createdAs (visited log s) t = none

theorem createdAs_step {n : String} (ht : createdAs (visited log s) t = some n) :
    createdAs (visited (log ++ [(s, op)]) s') t = some n := by
  rw [visited_snoc, createdAs_snoc, ht, Option.some_or]

section Recorded

variable {u : Kind → Nat}

theorem Recorded.step (h : Recorded log s) (run : Runs u s) (hop : Step s op s')
    (hu : u .topic + created s s' .topic < 2 ^ 32) : Recorded (log ++ [(s, op)]) s' := by
  have hgrown := hop.names run hu
  have hnew : ∀ t topic, s.counters.topicIdx.toNat ≤ t.toNat →
      s'.topics.lookup t = some topic →
      createdAs (visited (log ++ [(s, op)]) s') t = some topic.name := by
    intro t topic hge ht
    rw [visited_snoc, createdAs_snoc, h.unborn t hge, ht, Option.none_or, Option.map_some]
  refine ⟨fun n t hmap => ?_, fun t topic' ht => ?_, fun t hge => ?_⟩
  · rcases hgrown.map n t hmap with hmap | ⟨hge, topic, ht, rfl⟩
    · exact createdAs_step (h.map n t hmap)
    · exact hnew t topic hge ht
  · rcases hgrown.topics t topic' ht with ⟨topic, htopic₀, hname⟩ | hge
    · rw [← hname]
      exact createdAs_step (h.topics t topic htopic₀)
    · exact hnew t topic' hge ht
  · have hle := hgrown.idx
    have hnone : s'.topics.lookup t = none := by
      cases ht : s'.topics.lookup t with
      | none => rfl
      | some topic =>
        have hlt := hgrown.numbered.topics_lt t ((KeyMap.mem_iff_lookup _ _).mpr ⟨topic, ht⟩)
        omega
    rw [visited_snoc, createdAs_snoc, h.unborn t (hle.trans hge), hnone]
    rfl

theorem recorded_start (h : Init s) : Recorded [] s := by
  have hrun : Runs (created {} s) s := .start h
  have hn : Numbered s := hrun.numbered (UInt32.toNat_lt _)
  obtain ⟨es, hes, hall, hle⟩ := h.does
  have hgrown : Grown booted s := by
    refine hes.invariant_of_room (Grown booted) IsTopic hall (K := (· = .topic)) ?_ ?_
      (.refl Numbered.booted)
    · rintro k rfl
      have hle := hle .topic
      simp only [booted, Counter.get]
      have hzero : (0 : UInt32).toNat = 0 := rfl
      omega
    · intro u e u' he hp hr hu
      refine hu.step he hr fun t how heq => ?_
      obtain ⟨name, hname⟩ := hp _ heq
      cases hname
  have hname : ∀ t, createdAs (visited [] s) t = (s.topics.lookup t).map Topic.name := by
    intro t
    simp only [visited, List.map_nil, List.nil_append, createdAs, List.findSome?_singleton]
  refine ⟨fun n t hmap => ?_, fun t topic ht => ?_, fun t hge => ?_⟩
  · rcases hgrown.map n t hmap with hmap | ⟨-, topic, ht, rfl⟩
    · cases hmap
    · rw [hname, ht, Option.map_some]
  · rw [hname, ht, Option.map_some]
  · rw [hname]
    cases ht : s.topics.lookup t with
    | none => rfl
    | some topic =>
      have hlt := hn.topics_lt t ((KeyMap.mem_iff_lookup _ _).mpr ⟨topic, ht⟩)
      omega

end Recorded

/-- What a recorded run keeps: an index has one name for good, a subscription is listed and queued
only for topics with a name it cares about, and an unsubscribed index stays unused. -/
structure Sound (log : List (InnerServer × Op)) (s : InnerServer) : Prop where
  map : ∀ n t, s.topicMap.lookup n = some t → createdAs (visited log s) t = some n
  topics : ∀ t topic, s.topics.lookup t = some topic →
    createdAs (visited log s) t = some topic.name
  unborn : ∀ t, s.counters.topicIdx.toNat ≤ t.toNat → createdAs (visited log s) t = none
  cares : ∀ i sub c t, s.subscriptions.lookup i = some (sub, c) →
    (Listed s.topicSubMap t i ∨
      ∃ stored, s.subValues.lookup i = some stored ∧ stored.queued t ≠ []) →
    ∃ name, createdAs (visited log s) t = some name ∧ sub.caresAbout name = true
  retired : ∀ e ∈ log, ∀ i, e.1.unsubscribes e.2 i → Retired s i

section Sound

variable {u : Kind → Nat}

theorem Sound.step (h : Sound log s) (run : Runs u s) (hop : Step s op s')
    (htopic : u .topic + created s s' .topic < 2 ^ 32)
    (hsub : u .sub + created s s' .sub < 2 ^ 32) : Sound (log ++ [(s, op)]) s' := by
  obtain ⟨hn, hs⟩ := run.stored (lt_of_le_of_lt (Nat.le_add_right ..) htopic)
    (lt_of_le_of_lt (Nat.le_add_right ..) hsub)
  have hk : Known s := run.known (lt_of_le_of_lt (Nat.le_add_right ..) hsub)
  have hrecorded : Recorded (log ++ [(s, op)]) s' :=
    Recorded.step ⟨h.map, h.topics, h.unborn⟩ run hop htopic
  have hidx : s'.counters.subIdx.toNat = s.counters.subIdx.toNat + created s s' .sub :=
    hop.counters run hsub
  have hle : s.counters.subIdx.toNat ≤ s'.counters.subIdx.toNat := by omega
  refine ⟨hrecorded.map, hrecorded.topics, hrecorded.unborn, fun i sub c t hi hsource => ?_,
    fun e he i hi => ?_⟩
  · have hcared : (∃ name, s.topicMap.lookup name = some t ∧ sub.caresAbout name = true) →
        ∃ name, createdAs (visited (log ++ [(s, op)]) s') t = some name ∧
          sub.caresAbout name = true := by
      intro hu
      obtain ⟨name, hmap, hcares⟩ := hu
      exact ⟨name, createdAs_step (h.map name t hmap), hcares⟩
    have hkept : s.subscriptions.lookup i = some (sub, c) →
        (Listed s.topicSubMap t i ∨
          ∃ stored, s.subValues.lookup i = some stored ∧ stored.queued t ≠ []) →
        ∃ name, createdAs (visited (log ++ [(s, op)]) s') t = some name ∧
          sub.caresAbout name = true := by
      intro hi hsource
      obtain ⟨name, hname, hcares⟩ := h.cares i sub c t hi hsource
      exact ⟨name, createdAs_step hname, hcares⟩
    rcases hop.queue hs hn hi with ⟨heq, -, hqueue⟩ | ⟨hi₀, stored, hstored, hqueue⟩
    · -- a new subscription has an empty queue, and was in no list before
      rcases hsource with hl | ⟨stored, hstored, hne⟩
      · rcases hop.listed hs hi hl with hl | hcares
        · have hlt := hs.lt i (hs.listed t i hl)
          rw [heq] at hlt
          omega
        · exact hcared hcares
      · rw [hqueue] at hstored
        cases hstored
        split_ifs at hne <;> simp at hne
    · rcases hsource with hl | ⟨stored', hstored', hne⟩
      · rcases hop.listed hs hi hl with hl | hcares
        · exact hkept hi₀ (.inl hl)
        · exact hcared hcares
      · rw [hqueue] at hstored'
        cases hstored'
        rcases queued_nextQueue hne with hne | hl
        · exact hkept hi₀ (.inr ⟨stored, hstored, hne⟩)
        · exact hkept hi₀ (.inl hl)
  · rcases List.mem_append.mp he with he | he
    · exact (h.retired e he i hi).step hop hs hn hle
    · rw [List.mem_singleton.mp he] at hi
      exact retired_unsubscribe hk hop hi hle

theorem sound_start (h : Init s) : Sound [] s := by
  have hrecorded := recorded_start h
  refine ⟨hrecorded.map, hrecorded.topics, hrecorded.unborn, fun i sub c t hi => ?_, by simp⟩
  rw [h.subscriptions] at hi
  cases hi

theorem sound_of_logged (run : LoggedRuns u (log, s)) (htopic : u .topic < 2 ^ 32)
    (hsub : u .sub < 2 ^ 32) : Sound log s := by
  have hinv := run.invariant
    (fun u p => u .topic < 2 ^ 32 → u .sub < 2 ^ 32 → Sound p.1 p.2) ?_ ?_
  · exact hinv htopic hsub
  · rintro ⟨log, s⟩ ⟨rfl, hinit⟩ - -
    exact sound_start hinit
  · rintro u ⟨log, s⟩ op ⟨log', s'⟩ run ih - ⟨hop, rfl⟩ htopic hsub
    rw [Pi.add_apply] at htopic hsub
    have hrun : Runs u s := Lib.Run.Logged.run (p := (log, s)) run
    exact (ih (lt_of_le_of_lt (Nat.le_add_right ..) htopic)
      (lt_of_le_of_lt (Nat.le_add_right ..) hsub)).step hrun hop htopic hsub

/-- In a run that creates fewer than 2^32 topics and subscriptions, every step puts a value message
on a client's channel only while the client has a subscription that cares about the name the topic
was created with. The message comes from that subscription's queue (or is the topic's value, for the
subscription just made), and an index once unsubscribed is never a subscription again and has no
queue. -/
theorem routing_sound (run : LoggedRuns u (log, s)) (hop : Step s op s')
    (htopic : u .topic + created s s' .topic < 2 ^ 32)
    (hsub : u .sub + created s s' .sub < 2 ^ 32) :
    (∀ c, ∀ f ∈ framesPut s s' c, ∃ i sub t name, f.topicId = t.toInt32 ∧
      Sourced s op s' c i sub t f.value ∧ createdAs (visited log s) t = some name ∧
      sub.caresAbout name = true) ∧
    ∀ e ∈ log, ∀ i, e.1.unsubscribes e.2 i → i ∉ s.subscriptions ∧ i ∉ s.subValues := by
  have hrun : Runs u s := Lib.Run.Logged.run (p := (log, s)) run
  have htopic₀ : u .topic < 2 ^ 32 := lt_of_le_of_lt (Nat.le_add_right ..) htopic
  have hsub₀ : u .sub < 2 ^ 32 := lt_of_le_of_lt (Nat.le_add_right ..) hsub
  obtain ⟨hn, hs⟩ := hrun.stored htopic₀ hsub₀
  have hsound := sound_of_logged run htopic₀ hsub₀
  refine ⟨fun c f hf => ?_, fun e he i hi => ?_⟩
  · obtain ⟨i, sub, t, hid, hi, hsource⟩ := hop.sourced hs hn hf
    rcases hsource with ⟨clock, offset, stored, hclock, hold, hstored, hv⟩ | hnew
    · obtain ⟨name, hname, hcares⟩ := hsound.cares i sub c t hold
        (.inr ⟨stored, hstored, List.ne_nil_of_mem hv⟩)
      exact ⟨i, sub, t, name, hid, ⟨hi, .inl ⟨clock, offset, stored, hclock, hold, hstored, hv⟩⟩,
        hname, hcares⟩
    · obtain ⟨hcall, hidx, hvalue, name, hmap, hcares⟩ := hnew
      exact ⟨i, sub, t, name, hid, ⟨hi, .inr ⟨hcall, hidx, hvalue, name, hmap, hcares⟩⟩,
        hsound.map name t hmap, hcares⟩
  · have hretired := hsound.retired e he i hi
    exact ⟨hretired.1, fun hmem => hretired.1 ((hs.values i).mp hmem)⟩

/-- The run before the pass that sends the value. -/
def subscribeAndSet : List Op := subscribeAndSend.dropLast

theorem routing_sound_subscribeAndSet :
    ∃ s s', stateAfter anyOp .stored subscribeAndSet = some s ∧
      stateAfter anyOp .stored subscribeAndSend = some s' ∧
      ∃ f ∈ framesPut s s' 1, ∃ i sub t name, f.topicId = t.toInt32 ∧
        Sourced s (.sendOut lateClock 0) s' 1 i sub t f.value ∧
        createdAs (visited (recordAfter .stored subscribeAndSet) s) t = some name ∧
        sub.caresAbout name = true := by
  have hrun : (stateAfter anyOp .stored subscribeAndSet).bind (fun s =>
      (stateAfter anyOp .stored subscribeAndSend).map fun s' => (framesPut s s' 1).length) =
      some 1 := by decide +kernel
  have hlast : ∀ s, stateAfter anyOp .stored subscribeAndSet = some s →
      ∀ s', stateAfter anyOp .stored subscribeAndSend = some s' →
        Step s (.sendOut lateClock 0) s' := by
    intro s hs s' hs'
    have happ : subscribeAndSend = subscribeAndSet ++ [.sendOut lateClock 0] := rfl
    rw [happ] at hs'
    exact step_of_stateAfter hs hs'
  obtain ⟨s, hs, hview⟩ := Option.bind_eq_some_iff.mp hrun
  obtain ⟨s', hs', hlen⟩ := Option.map_eq_some_iff.mp hview
  have hop := hlast s hs s' hs'
  obtain ⟨u, run, hu⟩ := logged_stateAfter hs
  have hroom : ∀ k, u k + created s s' k < 2 ^ 32 := by
    intro k
    obtain ⟨es, hes, -, hn⟩ := hop.does
    have hcount := created_of_effects hes k (hn k)
    have hle := hn k
    have hk := hu k
    have hlength : subscribeAndSet.length = 4 := rfl
    omega
  obtain ⟨f, hf⟩ := List.exists_mem_of_length_pos (l := framesPut s s' 1) (by omega)
  have hsound := routing_sound run hop (hroom .topic) (hroom .sub)
  exact ⟨s, s', hs, hs', f, hf, hsound.1 1 f hf⟩

end Sound

end NetTables.Server
