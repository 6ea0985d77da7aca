import NetTables.Server.HandleProtocol

namespace NetTables.Server.HandlePublish

open Lib Lib.Guarded Lib.Fallible Spec
open Locking (Mutex)
open Steps (StepM Scene Notes)

section Handle

variable {now : List Mutex → Scene → Prop} {held : List Mutex} {o : IterOrder} {c : ClientIdx}
  {topicIdx : TopicIdx}

/-- The handle has put the topic into `topics` or is about to, and has still to give it a list. -/
def Adding (topicIdx : TopicIdx) (S : Scene) : Prop := S.notes.adding = some topicIdx

theorem lasts_adding : Lasts .handle held (Adding topicIdx) :=
  lasts_handle (I := fun adding _ => adding = some topicIdx)

theorem allowed_adding {S : Scene} (h : Settled .handle S) (topicIdx : TopicIdx) :
    Allowed .handle held S { S with notes := { S.notes with adding := some topicIdx } } := by
  have hnone : S.notes.adding = none := h rfl
  refine ⟨rfl, fun hc => ⟨fun u hu => ?_, hc.checked⟩, fun _ => rfl, fun _ => rfl, fun _ h => h,
    fun _ => ⟨rfl, rfl, fun _ u hu => ⟨hu.1, fun hmem => ?_⟩⟩, nofun⟩
  · left
    apply (hc.topics u hu).resolve_right
    simp [hnone]
  · have hadding := hu.2 hmem
    rw [hnone] at hadding
    cases hadding

theorem allowed_insertTopic {S : Scene} (hl : .topics ∈ held) (h : Adding topicIdx S)
    (topic : Topic) : Allowed .handle held S
      { S with state := { S.state with topics := S.state.topics.insert topicIdx topic } } := by
  have hadded : ∀ u, u ∈ S.state.topics.insert topicIdx topic →
      S.notes.adding = some u ∨ u ∈ S.state.topics := by
    intro u hu
    rcases (AList.mem_insert _).mp hu with rfl | hu
    · exact .inl h
    · exact .inr hu
  refine ⟨rfl, fun hc => ⟨fun u hu => ?_, hc.checked⟩, fun _ => rfl, fun hnot => (hnot hl).elim,
    fun _ h => h, fun _ => ⟨rfl, rfl, fun _ u hu => ⟨hu.1, fun hmem => ?_⟩⟩, nofun⟩
  · exact (hadded u hu).elim .inr (hc.topics u)
  · exact (hadded u hmem).elim id hu.2

/-- A new list is empty. -/
theorem allowed_insertList {S : Scene} (hl : .topicSubMap ∈ held) : Allowed .handle held S
    { S with state := { S.state with topicSubMap := S.state.topicSubMap.insert topicIdx [] } } := by
  have hmem : ∀ u, u ∈ S.state.topicSubMap → u ∈ S.state.topicSubMap.insert topicIdx [] :=
    fun u hu => (AList.mem_insert _).mpr (.inr hu)
  refine ⟨rfl, fun hc => ⟨fun u hu => (hc.topics u hu).imp_left (hmem u), fun u hu => ?_⟩,
    fun hnot => (hnot hl).elim, fun _ => rfl, fun _ h => h,
    fun _ => ⟨rfl, rfl, fun hnot => (hnot hl).elim⟩, nofun⟩
  exact hmem u (hc.checked u hu)

theorem fine_insertList {S : Scene} (h : Fine held S) : Fine held
    { S with state := { S.state with topicSubMap := S.state.topicSubMap.insert topicIdx [] } } := by
  intro hl u i hi
  obtain ⟨subs, hsubs, hmem⟩ := hi
  rw [KeyMap.lookup_insert] at hsubs
  split_ifs at hsubs
  · cases hsubs
    cases hmem
  · exact h hl u i ⟨subs, hsubs, hmem⟩

/-- The list is there before the topic is no longer the one being added. -/
theorem allowed_added {S : Scene} (hl : .topicSubMap ∈ held) (h : Adding topicIdx S)
    (hlist : topicIdx ∈ S.state.topicSubMap) :
    Allowed .handle held S { S with notes := { S.notes with adding := none } } := by
  refine ⟨rfl, fun hc => ⟨fun u hu => ?_, hc.checked⟩, fun _ => rfl, fun _ => rfl, fun _ h => h,
    fun _ => ⟨rfl, rfl, fun hnot => (hnot hl).elim⟩, nofun⟩
  left
  rcases hc.topics u hu with hu | hu
  · exact hu
  · rw [h] at hu
    cases hu
    exact hlist

variable (hnow : ∀ held S, Fine held S → now held S)

include hnow

theorem does_insertTopic (topic : Topic) :
    Does now .handle held (Settled .handle) (Steps.insertTopic topic) held
      fun _ => Settled .handle := by
  apply Does.bind (J := Adding)
  · apply does_holding hnow lasts_settled _ fun _ => lasts_adding
    apply Does.bind (J := fun _ => Settled .handle)
    · apply does_under hnow
      apply does_settled hnow
      · apply within_bind within_get
        intro s
        exact within_bind (within_modify fun _ => ⟨rfl, rfl, fun _ h => h⟩) fun _ => within_pure _
      · apply total_bind total_get
        intro s
        exact total_bind (total_modify _) fun _ => total_pure _
    · intro t
      have hnote : Does now .handle (.topics :: held) (Settled .handle)
          (note fun n => { n with adding := some t }) (.topics :: held) fun _ => Adding t :=
        does_note hnow lasts_settled fun S _ _ h => ⟨allowed_adding h t, rfl⟩
      apply hnote.bind
      intro _
      have hwrite : Does now .handle (.topics :: held) (Adding t)
          (Steps.write fun s => { s with topics := s.topics.insert t topic }) (.topics :: held)
          fun _ => Adding t :=
        does_write hnow lasts_adding fun S _ hfine h =>
          ⟨allowed_insertTopic (List.mem_cons_self ..) h topic, hfine, h⟩
      apply hwrite.bind
      exact fun _ => does_pure t fun _ h => h
  · intro t
    have hsame : ∀ {l : Mutex} {f : InnerServer → InnerServer}, (∀ s, Same s (f s)) →
        Does now .handle held (Adding t) (holding l (Steps.write f)) held fun _ => Adding t :=
      fun h => does_holding hnow lasts_adding (does_write_same hnow lasts_adding h fun _ h => h)
        fun _ => lasts_adding
    have hid : ∀ (s : InnerServer) i, i ∈ s.subValues → i ∈ s.subValues := fun _ _ h => h
    apply Does.bind (J := fun _ => Adding t)
    · apply hsame
      exact fun s => ⟨rfl, rfl, hid s⟩
    intro _
    apply Does.bind (J := fun _ => Adding t)
    · apply hsame
      exact fun s => ⟨rfl, rfl, hid s⟩
    intro _
    apply Does.bind (J := fun _ => Settled .handle)
    · apply does_holding hnow lasts_adding _ fun _ => lasts_settled
      have hl : Mutex.topicSubMap ∈ Mutex.topicSubMap :: held := List.mem_cons_self ..
      have hlasts : Lasts .handle (.topicSubMap :: held)
          fun S => Adding t S ∧ t ∈ S.state.topicSubMap :=
        lasts_and lasts_adding (lasts_lists (I := fun lists => t ∈ lists) hl)
      apply Does.bind (J := fun _ S => Adding t S ∧ t ∈ S.state.topicSubMap)
      · apply does_write hnow lasts_adding
        intro S _ hfine h
        exact ⟨allowed_insertList hl, fine_insertList hfine, h, (AList.mem_insert _).mpr (.inl rfl)⟩
      · exact fun _ => does_note hnow hlasts fun S _ _ h => ⟨allowed_added hl h.1 h.2, fun _ => rfl⟩
    · exact fun _ => does_pure t fun _ h => h

theorem does_addMetaTopic (topic : Topic) :
    Does now .handle held (Settled .handle) (Steps.addMetaTopic topic) held
      fun _ => Settled .handle := by
  apply (does_under hnow (does_look hnow)).bind
  intro found
  cases found with
  | some t => exact does_pure t fun _ h => h
  | none => exact does_insertTopic hnow topic

theorem does_addTopic (topic : Topic) :
    Does now .handle held (Settled .handle) (Steps.addTopic o topic) held
      fun _ => Settled .handle := by
  apply (does_under hnow (does_look hnow)).bind
  intro found
  cases found with
  | some t => exact does_pure t fun _ h => h
  | none =>
    apply (does_insertTopic hnow topic).bind
    intro t
    split_ifs
    · exact does_pure t fun _ h => h
    · apply (does_addMetaTopic hnow _).bind
      intro p
      apply (does_announceTopic hnow none).bind
      intro _
      apply (does_addMetaTopic hnow _).bind
      intro q
      apply (does_announceTopic hnow none).bind
      exact fun _ => does_pure t fun _ h => h

theorem does_innerPublishTopic (pubTopic : PublishTopic) :
    Does now .handle held (Settled .handle) (Steps.innerPublishTopic o pubTopic c) held
      fun _ => Settled .handle := by
  apply (does_addTopic hnow _).bind
  intro t
  apply (does_announceTopic hnow _).bind
  intro _
  apply Does.bind (J := fun _ => Settled .handle)
  · apply does_under hnow
    exact does_settled hnow (Steps.within_register same_clients _) (Steps.total_register _)
  · intro _
    apply (does_updatePublishers hnow _ _).bind
    exact fun _ => does_pure t fun _ h => h

omit hnow

/-- What `set_value` has found in `topics` has a list. -/
theorem allowed_checked {S : Scene} (hc : Covered S) (h : Settled .handle S)
    (ht : topicIdx ∈ S.state.topics) :
    Allowed .handle held S { S with notes := { S.notes with checked := some topicIdx } } := by
  have hnone : S.notes.adding = none := h rfl
  have hlist : topicIdx ∈ S.state.topicSubMap := by
    apply (hc.topics topicIdx ht).resolve_right
    simp [hnone]
  refine ⟨rfl, fun hc => ⟨hc.topics, fun u hu => ?_⟩, fun _ => rfl, fun _ => rfl, fun _ h => h,
    fun _ => ⟨rfl, rfl, fun _ u hu => ⟨fun heq => ?_, hu.2⟩⟩, nofun⟩
  · cases hu
    exact hlist
  · cases heq
    have hadding := hu.2 ht
    rw [hnone] at hadding
    cases hadding

theorem allowed_unchecked {S : Scene} :
    Allowed .handle held S { S with notes := { S.notes with checked := none } } :=
  ⟨rfl, fun hc => ⟨hc.topics, nofun⟩, fun _ => rfl, fun _ => rfl, fun _ h => h,
    fun _ => ⟨rfl, rfl, fun _ _ hu => ⟨nofun, hu.2⟩⟩, nofun⟩

include hnow

theorem does_checkTopic :
    Does now .handle (.topics :: held) (Settled .handle) (do
      atomic (Steps.checkTopic topicIdx)
      note fun n => { n with checked := some topicIdx }) (.topics :: held)
      fun _ S => Settled .handle S ∧ S.notes.checked = some topicIdx := by
  have hlasts : Lasts .handle (.topics :: held)
      fun S => Settled .handle S ∧ topicIdx ∈ S.state.topics :=
    lasts_and lasts_settled (lasts_topics (I := fun topics => topicIdx ∈ topics)
      (List.mem_cons_self ..))
  apply Does.bind (J := fun _ S => Settled .handle S ∧ topicIdx ∈ S.state.topics)
  · apply does_atomic hnow lasts_settled
    · intro S _ _ _
      apply total_bind total_get
      intro s
      apply total_bind (total_okOr _ _)
      intro topic
      split_ifs
      · exact fun s => returns_throw _
      · exact total_pure _
    · intro S _ hfine h
      have hsame : Allowed .handle (.topics :: held) S S := (refl_of Same S.state).allowed
      simp only [Steps.checkTopic, ends_bind, ends_get, thenEnds_ok, ends_okOr, thenEnds_error]
      refine ⟨fun topic ht => ?_, fun _ => ⟨hsame, hfine, h⟩⟩
      split_ifs
      · exact (ends_throw _).mpr ⟨hsame, hfine, h⟩
      · exact (ends_pure _).mpr ⟨hsame, hfine, h, (KeyMap.mem_iff_lookup _ _).mpr ⟨topic, ht⟩⟩
  · exact fun _ => does_note hnow hlasts fun S hc _ h =>
      ⟨allowed_checked hc h.1 h.2, h.1, rfl⟩

/-- The values for the subscriptions of a list, which all have a queue. -/
theorem does_queueValues (value : FrcTimestampedValue) (subs : List SubIdx) :
    Does now .handle held (fun S => Settled .handle S ∧ ∀ i ∈ subs, i ∈ S.state.subValues)
      (forEach subs fun subIdx => atomic (queueValue value topicIdx subIdx)) held
      fun _ => Settled .handle := by
  have hlasts : Lasts .handle held
      fun S => Settled .handle S ∧ ∀ i ∈ subs, i ∈ S.state.subValues :=
    lasts_and lasts_settled fun S S' h hS i hi => lasts_values i S S' h (hS i hi)
  apply Does.mono (J := fun _ S => Settled .handle S ∧ ∀ i ∈ subs, i ∈ S.state.subValues) _
    fun _ _ h => h.1
  apply does_forEach
  intro i hi
  have hqueue : ∀ s : InnerServer, i ∈ s.subValues → ∃ stored, s.subValues.lookup i = some stored :=
    fun s h => (KeyMap.mem_iff_lookup _ _).mp h
  apply does_atomic hnow hlasts
  · intro S _ _ h
    obtain ⟨stored, hstored⟩ := hqueue S.state (h.2 i hi)
    apply returns_get_bind.mpr
    exact returns_unwrapOr_bind.mpr ⟨stored, hstored, returns_modify _⟩
  · intro S _ hfine h
    simp only [queueValue, ends_bind, ends_get, thenEnds_ok, ends_unwrapOr, ends_modify]
    intro stored _
    have hkeys : ∀ j, j ∈ S.state.subValues →
        j ∈ S.state.subValues.insert i (stored.addValue topicIdx (.normalValue value)) :=
      fun j hj => (AList.mem_insert _).mpr (.inr hj)
    have hsame : Same S.state { S.state with
        subValues := S.state.subValues.insert i (stored.addValue topicIdx (.normalValue value)) } :=
      ⟨rfl, rfl, hkeys⟩
    exact ⟨hsame.allowed, hsame.fine hfine, h.1, fun j hj => hkeys j (h.2 j hj)⟩

theorem does_setValue (value : FrcTimestampedValue) :
    Does now .handle held (Settled .handle) (Steps.setValue value topicIdx) held
      fun _ => Settled .handle := by
  have hchecked : ∀ {held}, Lasts .handle held
      fun S => Settled .handle S ∧ S.notes.checked = some topicIdx :=
    lasts_and lasts_settled (lasts_handle (I := fun _ checked => checked = some topicIdx))
  apply Does.bind (J := fun _ S => Settled .handle S ∧ S.notes.checked = some topicIdx)
  · exact does_holding hnow lasts_settled (does_checkTopic hnow) fun _ => hchecked
  intro _
  apply Does.bind (J := fun _ => Settled .handle)
  · apply does_holding hnow hchecked _ fun _ => lasts_settled
    apply does_holding hnow hchecked _ fun _ => lasts_settled
    apply Does.bind (J := fun subs S => Settled .handle S ∧ ∀ i ∈ subs, i ∈ S.state.subValues)
    · have hlist : ∀ S, Covered S → S.notes.checked = some topicIdx →
          ∃ subs, S.state.topicSubMap.lookup topicIdx = some subs :=
        fun S hc h => (KeyMap.mem_iff_lookup _ _).mp (hc.checked topicIdx h)
      apply does_atomic hnow hchecked
      · intro S hc _ h
        obtain ⟨subs, hsubs⟩ := hlist S hc h.2
        apply returns_get_bind.mpr
        show Returns (unwrapOr (S.state.topicSubMap.lookup topicIdx) unwrapNone) S.state
        rw [hsubs]
        exact ⟨.ok subs, S.state, rfl⟩
      · intro S _ hfine h
        simp only [ends_bind, ends_get, thenEnds_ok, ends_unwrapOr]
        intro subs hsubs
        refine ⟨(refl_of Same S.state).allowed, hfine, h.1, fun i hi => ?_⟩
        exact hfine (List.mem_cons_self ..) topicIdx i ⟨subs, hsubs, hi⟩
    · intro subs
      apply Does.bind (J := fun _ S => Settled .handle S ∧ ∀ i ∈ subs, i ∈ S.state.subValues)
      · apply does_note hnow
        · exact lasts_and lasts_settled fun S S' h hS i hi => lasts_values i S S' h (hS i hi)
        · exact fun S _ _ h => ⟨allowed_unchecked, h⟩
      · exact fun _ => does_queueValues hnow value subs
  · intro _
    apply does_under hnow
    apply does_settled hnow
    · apply within_bind within_get
      intro s
      split
      · split_ifs
        · exact within_modify fun _ => ⟨rfl, rfl, fun _ h => h⟩
        · exact within_pure _
      · exact within_modify fun _ => ⟨rfl, rfl, fun _ h => h⟩
    · apply total_bind total_get
      intro s
      split
      · split_ifs
        · exact total_modify _
        · exact total_pure _
      · exact total_modify _

theorem does_publishTopicWProps (topicName : String) (value : FrcValue)
    (props : Option PublishProperties) (uid time : UInt64) :
    Does now .handle [] (Settled .handle)
      (Steps.publishTopicWProps o topicName value props uid time) [] fun _ => Settled .handle := by
  apply (does_innerPublishTopic hnow _).bind
  exact fun t => does_setValue hnow _

end Handle

section Unpublish

variable {now : List Mutex → Scene → Prop} {held : List Mutex} {c : ClientIdx}
  {topicIdx metaPubIdx metaSubIdx : TopicIdx}

theorem allowed_notes {S : Scene} (removed interest : List TopicIdx) :
    Allowed .parser held S
      { S with notes := { S.notes with removed := removed, interest := interest } } :=
  ⟨rfl, fun hc => ⟨hc.topics, hc.checked⟩, fun _ => rfl, fun _ => rfl, fun _ h => h, nofun,
    fun _ => ⟨rfl, rfl⟩⟩

/-- Topics are gone, and nothing else of what matters here. -/
structure Gone (s s' : InnerServer) : Prop where
  topics : ∀ t, t ∈ s'.topics → t ∈ s.topics
  lists : s'.topicSubMap = s.topicSubMap
  values : s'.subValues = s.subValues

instance : IsPreorder InnerServer Gone where
  refl _ := ⟨fun _ h => h, rfl, rfl⟩
  trans _ _ _ h h' := ⟨fun t ht => h.topics t (h'.topics t ht), h'.lists.trans h.lists,
    h'.values.trans h.values⟩

theorem Gone.allowed {S : Scene} {s' : InnerServer} (hl : .topics ∈ held) (h : Gone S.state s') :
    Allowed .parser held S { S with state := s' } := by
  refine ⟨rfl, fun hc => ⟨fun u hu => ?_, fun u hu => ?_⟩, fun _ => h.lists,
    fun hnot => (hnot hl).elim, fun i hi => ?_, nofun, fun _ => ⟨rfl, rfl⟩⟩
  · rw [h.lists]
    exact hc.topics u (h.topics u hu)
  · rw [h.lists]
    exact hc.checked u hu
  · rwa [h.values]

theorem Gone.fine {S : Scene} {s' : InnerServer} (h : Gone S.state s') (hfine : Fine held S) :
    Fine held { S with state := s' } := by
  intro hl u i hi
  rw [h.lists] at hi
  rw [h.values]
  exact hfine hl u i hi

theorem within_takeTopic : Within Gone (Steps.takeTopic topicIdx) := by
  apply within_bind within_get
  intro s
  apply within_bind (within_okOr _ _)
  intro topic
  apply within_bind (within_modify fun s => ⟨fun t ht => (AList.mem_erase.mp ht).2, rfl, rfl⟩)
  exact fun _ => within_pure _

theorem within_takeMetatopics (topic : Topic) :
    Within Gone (Steps.takeMetatopics topicIdx topic) := by
  apply within_bind within_get
  intro s
  apply within_bind (within_okOr _ _)
  intro p
  apply within_bind (within_modify fun _ => ⟨fun _ h => h, rfl, rfl⟩)
  intro _
  apply within_bind within_get
  intro s'
  apply within_bind (within_okOr _ _)
  intro q
  apply within_bind (within_modify fun _ => ⟨fun _ h => h, rfl, rfl⟩)
  intro _
  apply within_bind (within_modify fun _ => ⟨fun _ h => h, rfl, rfl⟩)
  intro _
  apply within_bind (within_modify fun _ =>
    ⟨fun t ht => (AList.mem_erase.mp (AList.mem_erase.mp ht).2).2, rfl, rfl⟩)
  exact fun _ => within_pure _

theorem total_takeTopic : Total (Steps.takeTopic topicIdx) := by
  apply total_bind total_get
  intro s
  apply total_bind (total_okOr _ _)
  intro topic
  exact total_bind (total_modify _) fun _ => total_pure _

theorem total_takeMetatopics (topic : Topic) : Total (Steps.takeMetatopics topicIdx topic) := by
  apply total_bind total_get
  intro s
  apply total_bind (total_okOr _ _)
  intro p
  apply total_bind (total_modify _)
  intro _
  apply total_bind total_get
  intro s'
  apply total_bind (total_okOr _ _)
  intro q
  apply total_bind (total_modify _)
  intro _
  apply total_bind (total_modify _)
  intro _
  exact total_bind (total_modify _) fun _ => total_pure _

/-- The lists of topics that may be spared go away. -/
theorem allowed_cleanse {S : Scene} (hl : .topicSubMap ∈ held)
    (hspare : ∀ u ∈ [topicIdx, metaPubIdx, metaSubIdx], Spare u S) :
    Allowed .parser held S { S with state := { S.state with topicSubMap :=
      ((S.state.topicSubMap.erase topicIdx).erase metaPubIdx).erase metaSubIdx } } := by
  have hkept : ∀ u, u ∈ S.state.topicSubMap → u ∉ [topicIdx, metaPubIdx, metaSubIdx] →
      u ∈ ((S.state.topicSubMap.erase topicIdx).erase metaPubIdx).erase metaSubIdx := by
    intro u hu hnot
    simp only [List.mem_cons, List.not_mem_nil, or_false, not_or] at hnot
    simp only [AList.mem_erase]
    exact ⟨hnot.2.2, hnot.2.1, hnot.1, hu⟩
  refine ⟨rfl, fun hc => ⟨fun u hu => ?_, fun u hu => ?_⟩, fun hnot => (hnot hl).elim,
    fun _ => rfl, fun _ h => h, nofun, fun _ => ⟨rfl, rfl⟩⟩
  · by_cases hu' : u ∈ [topicIdx, metaPubIdx, metaSubIdx]
    · exact .inr ((hspare u hu').2 hu)
    · exact (hc.topics u hu).imp_left fun h => hkept u h hu'
  · exact hkept u (hc.checked u hu) fun hu' => (hspare u hu').1 hu

theorem fine_cleanse {S : Scene} (h : Fine held S) : Fine held { S with state := { S.state with
    topicSubMap := ((S.state.topicSubMap.erase topicIdx).erase metaPubIdx).erase metaSubIdx } } := by
  intro hl u i hi
  exact h hl u i (listed_erase.mp (listed_erase.mp (listed_erase.mp hi).2).2).2

variable (hnow : ∀ held S, Fine held S → now held S)

include hnow

theorem does_gone {α : Type} {y : ServerM α} (hl : .topics ∈ held) (hy : Within Gone y)
    (htotal : Total y) :
    Does now .parser held (Settled .parser) (atomic y) held fun _ => Settled .parser := by
  apply does_atomic hnow lasts_settled fun S _ _ _ => htotal S.state
  intro S _ hfine h
  have hends : Ends y S.state fun _ s' => Gone S.state s' := hy S.state
  exact ends_mono hends fun r s' hgone => by
    refine ⟨hgone.allowed hl, hgone.fine hfine, ?_⟩
    cases r <;> exact nofun

theorem does_cleanse :
    Does now .parser held
      (fun S => S.notes.removed = [topicIdx, metaPubIdx, metaSubIdx])
      (Steps.cleanse topicIdx metaPubIdx metaSubIdx) held fun _ => Settled .parser := by
  have hlasts : ∀ {held},
      Lasts .parser held fun S => S.notes.removed = [topicIdx, metaPubIdx, metaSubIdx] :=
    lasts_parsing (I := fun removed _ => removed = [topicIdx, metaPubIdx, metaSubIdx])
  apply does_holding_may hnow hlasts _ fun _ => lasts_settled
  have hl : Mutex.topicSubMap ∈ Mutex.topicSubMap :: held := List.mem_cons_self ..
  apply Does.bind (J := fun _ => Settled .parser)
  · have hspare : Lasts .parser (.topicSubMap :: held)
        fun S => ∀ u ∈ [topicIdx, metaPubIdx, metaSubIdx], Spare u S :=
      fun S S' h hS u hu => lasts_spare u hl S S' h (hS u hu)
    have hwrite : Does now .parser (.topicSubMap :: held)
        (fun S => ∀ u ∈ [topicIdx, metaPubIdx, metaSubIdx], Spare u S)
        (Steps.write fun s => { s with topicSubMap :=
          ((s.topicSubMap.erase topicIdx).erase metaPubIdx).erase metaSubIdx })
        (.topicSubMap :: held) fun _ => Settled .parser :=
      does_write hnow hspare fun S _ hfine h => ⟨allowed_cleanse hl h, fine_cleanse hfine, nofun⟩
    apply hwrite.conseq _ fun _ _ hr => hr
    intro S hS
    refine ⟨hS.1, fun u hu => ?_⟩
    have hclear : Clear S := hS.2.2 rfl rfl
    have hu' := hclear.removed u (by rwa [hS.2.1])
    exact ⟨hu'.1, fun hmem => (hu'.2 hmem).elim⟩
  · intro _
    apply Does.bind (J := fun _ => Settled .parser)
    · apply does_note hnow lasts_settled
      exact fun S _ _ h => ⟨allowed_notes [] S.notes.interest, h⟩
    · intro _
      apply does_under hnow
      apply does_under hnow
      apply does_write_same hnow lasts_settled _ fun _ h => h
      exact fun s => ⟨rfl, rfl, fun _ h => h⟩

theorem does_removeTopic :
    Does now .parser [.pubCount] (Settled .parser) (Steps.removeTopic topicIdx) [.pubCount]
      fun _ => Settled .parser := by
  apply Does.lock_bind hnow lasts_settled
  have htake : Does now .parser [.topics, .pubCount] (Settled .parser)
      (atomic (Steps.takeTopic topicIdx)) [.topics, .pubCount] fun _ => Settled .parser :=
    does_gone hnow (by decide) within_takeTopic total_takeTopic
  apply htake.result_bind
  intro r
  cases r with
  | error e =>
    apply Does.unlock_bind hnow (lasts_failed e) (by decide)
    exact triple_ofResult (.error e) fun _ h => h
  | ok topic =>
    apply Does.lock_bind hnow lasts_settled
    have hmetas : Does now .parser [.topicMap, .topics, .pubCount] (Settled .parser)
        (atomic (Steps.takeMetatopics topicIdx topic)) [.topicMap, .topics, .pubCount]
        fun _ => Settled .parser :=
      does_gone hnow (by decide) (within_takeMetatopics topic) (total_takeMetatopics topic)
    apply hmetas.result_bind
    intro r
    cases r with
    | error e =>
      apply Does.unlock_bind hnow (lasts_failed e) (by decide)
      apply Does.unlock_bind hnow (lasts_failed e) (by decide)
      exact triple_ofResult (.error e) fun _ h => h
    | ok metas =>
      obtain ⟨p, q⟩ := metas
      have hremoved : ∀ {held}, Lasts .parser held fun S => S.notes.removed = [topicIdx, p, q] :=
        lasts_parsing (I := fun removed _ => removed = [topicIdx, p, q])
      apply Does.note_bind hnow (J := fun S => S.notes.removed = [topicIdx, p, q]) lasts_settled
      · exact fun S _ => ⟨allowed_notes [topicIdx, p, q] S.notes.interest, rfl⟩
      apply Does.unlock_bind hnow hremoved (by decide)
      apply Does.unlock_bind hnow hremoved (by decide)
      exact does_cleanse hnow

theorem does_innerUnpublishTopic (pubTopic : UnpublishTopic) :
    Does now .parser [] (Settled .parser) (Steps.innerUnpublishTopic pubTopic c) []
      fun _ => Settled .parser := by
  apply Does.bind (J := fun _ => Settled .parser)
  · apply does_under hnow
    apply (does_settled hnow (Steps.within_unregister same_clients _)
      (Steps.total_unregister _)).bind
    intro t
    apply (does_under hnow (does_look hnow)).bind
    exact fun name => does_pure (t, name) fun _ h => h
  · intro found
    obtain ⟨t, name⟩ := found
    apply does_under hnow
    apply Does.bind (J := fun _ => Settled .parser)
    · apply does_settled hnow
      · apply within_bind within_get
        intro s
        apply within_bind (within_okOr _ _)
        intro count
        exact within_bind (within_modify fun _ => ⟨rfl, rfl, fun _ h => h⟩) fun _ => within_pure _
      · apply total_bind total_get
        intro s
        apply total_bind (total_okOr _ _)
        intro count
        exact total_bind (total_modify _) fun _ => total_pure _
    · intro count
      split_ifs
      · apply (does_removeTopic hnow).bind
        intro _
        apply Does.bind (J := fun _ => Settled .parser)
        · apply does_write_same hnow lasts_settled _ fun _ h => h
          exact fun s => ⟨rfl, rfl, fun _ h => h⟩
        · exact fun _ => does_updatePublishers hnow _ _
      · exact does_updatePublishers hnow _ _

end Unpublish

section Subscribe

variable {held : List Mutex} {o : IterOrder} {c : ClientIdx} {i : SubIdx} {ts : List TopicIdx}

/-- The new subscription is in some lists, and that is all. -/
structure Pushed (i : SubIdx) (s s' : InnerServer) : Prop where
  topics : s'.topics = s.topics
  values : s'.subValues = s.subValues
  keys : ∀ u, u ∈ s'.topicSubMap ↔ u ∈ s.topicSubMap
  listed : ∀ u j, Listed s'.topicSubMap u j → Listed s.topicSubMap u j ∨ j = i

theorem Pushed.refl (s : InnerServer) : Pushed i s s :=
  ⟨rfl, rfl, fun _ => Iff.rfl, fun _ _ h => .inl h⟩

theorem Pushed.push {s s' : InnerServer} (h : Pushed i s s') {u : TopicIdx} {subs : List SubIdx}
    (hsubs : s'.topicSubMap.lookup u = some subs) :
    Pushed i s { s' with topicSubMap := s'.topicSubMap.insert u (subs ++ [i]) } := by
  have hu : u ∈ s'.topicSubMap := (KeyMap.mem_iff_lookup _ _).mpr ⟨subs, hsubs⟩
  refine ⟨h.topics, h.values, fun v => ?_, fun v j hj => ?_⟩
  · rw [← h.keys v, AList.mem_insert]
    exact or_iff_right_of_imp fun heq => heq ▸ hu
  · obtain ⟨l, hl, hmem⟩ := hj
    rw [KeyMap.lookup_insert] at hl
    split_ifs at hl with hv
    · cases hl
      rcases List.mem_append.mp hmem with hmem | hmem
      · exact h.listed v j ⟨subs, hv ▸ hsubs, hmem⟩
      · exact .inr (List.mem_singleton.mp hmem)
    · exact h.listed v j ⟨l, hl, hmem⟩

/-- A turn that finds the list of its topic. -/
theorem ends_subscribeTopic {s s' : InnerServer} (h : Pushed i s s')
    (acc : List NTMessage × List ValueFrame) (e : String × TopicIdx) (he : e.2 ∈ s.topicSubMap) :
    Ends (subscribeTopic i acc e) s' fun r s'' => (∃ acc', r = .ok acc') ∧ Pushed i s s'' := by
  simp only [subscribeTopic, ends_bind, ends_get, thenEnds_ok, ends_okOr, thenEnds_error,
    ends_modify]
  refine ⟨fun subs hsubs => ?_, fun hnone => ?_⟩
  · cases subscribeType s' e.1 e.2 with
    | none => exact (ends_pure _).mpr ⟨⟨acc, rfl⟩, h.push hsubs⟩
    | some type => exact (ends_pure _).mpr ⟨⟨_, rfl⟩, h.push hsubs⟩
  · obtain ⟨subs, hsubs⟩ := (KeyMap.mem_iff_lookup _ _).mp ((h.keys e.2).mpr he)
    rw [hnone] at hsubs
    cases hsubs

/-- A subscription fails before it is in any list, or is in all of them. -/
theorem ends_subscribeTopics {s : InnerServer} {topics : List (String × TopicIdx)}
    (h : Decided (topics.map Prod.snd) s.topicSubMap) (acc : List NTMessage × List ValueFrame) :
    Ends (Fallible.foldEach topics acc (subscribeTopic i)) s fun r s' =>
      match r with
      | .ok _ => Pushed i s s'
      | .error _ => s' = s := by
  cases topics with
  | nil => exact (ends_pure acc).mpr (.refl s)
  | cons e rest =>
    by_cases he : e.2 ∈ s.topicSubMap
    · have hall : ∀ f ∈ e :: rest, f.2 ∈ s.topicSubMap := by
        intro f hf
        rcases List.mem_cons.mp hf with rfl | hf
        · exact he
        · exact h he _ (List.mem_map_of_mem hf)
      have hloop := ends_foldEach
        (fun l _ s' => Pushed i s s' ∧ ∀ f ∈ l, f.2 ∈ s.topicSubMap) (fun _ _ => False)
        (subscribeTopic i) (fun f l acc s' hs' => by
          have hturn := ends_subscribeTopic hs'.1 acc f (hs'.2 f (List.mem_cons_self ..))
          exact ends_mono hturn fun r s'' hr => by
            obtain ⟨⟨acc', rfl⟩, hpushed⟩ := hr
            exact ⟨hpushed, fun g hg => hs'.2 g (List.mem_cons_of_mem _ hg)⟩)
        (e :: rest) acc s ⟨.refl s, hall⟩
      exact ends_mono hloop fun r s' hr => by
        cases r with
        | error err => exact hr.elim
        | ok acc' => exact hr.1
    · have hnone : s.topicSubMap.lookup e.2 = none := AList.lookup_eq_none.mpr he
      simp only [Fallible.foldEach, subscribeTopic, ends_bind, ends_get, thenEnds_ok, hnone,
        ends_okOr, thenEnds_error]
      exact ⟨by simp, fun _ => trivial⟩

/-- Where the new subscription is listed, and has no queue yet. -/
def Backing (i : SubIdx) (S : Scene) : Prop :=
  Covered S ∧ ∀ u j, Listed S.state.topicSubMap u j → j ∈ S.state.subValues ∨ j = i

theorem lasts_backing (hl : .topicSubMap ∈ held) : Lasts .parser held (Backing i) := by
  apply lasts_and lasts_covered
  intro S S' h hS u j hj
  have hlisted := lasts_lists (I := fun lists => ∀ u j, Listed lists u j →
    Listed S.state.topicSubMap u j) hl S S' h (fun _ _ h => h)
  exact (hS u j (hlisted u j hj)).imp_left (lasts_values j S S' h)

theorem Pushed.allowed {S : Scene} {s' : InnerServer} (hl : .topicSubMap ∈ held)
    (h : Pushed i S.state s') : Allowed .parser held S { S with state := s' } := by
  refine ⟨rfl, fun hc => ⟨fun u hu => ?_, fun u hu => ?_⟩, fun hnot => (hnot hl).elim,
    fun _ => h.topics, fun j hj => ?_, nofun, fun _ => ⟨rfl, rfl⟩⟩
  · rw [h.topics] at hu
    exact (hc.topics u hu).imp_left (h.keys u).mpr
  · exact (h.keys u).mpr (hc.checked u hu)
  · rwa [h.values]

/-- A part that goes from one assertion to another and never fails. -/
abbrev Goes (held : List Mutex) (P : Scene → Prop) (x : StepM Unit) (Q : Scene → Prop) : Prop :=
  Triple protocol (fun _ _ => True) .parser held P x held (Ended (fun _ _ => False) fun _ => Q)

theorem goes_holding_write {l : Mutex} {f : InnerServer → InnerServer} {P Q : Scene → Prop}
    (hl : l ≠ .topicSubMap) (hP : ∀ {held}, .topicSubMap ∈ held → Lasts .parser held P)
    (hQ : ∀ {held}, .topicSubMap ∈ held → Lasts .parser held Q) (hmem : .topicSubMap ∈ held)
    (h : ∀ S, P S → Allowed .parser (l :: held) S { S with state := f S.state } ∧
      Q { S with state := f S.state }) : Goes held P (holding l (Steps.write f)) Q := by
  have hcons : Mutex.topicSubMap ∈ l :: held := List.mem_cons_of_mem l hmem
  apply triple_holding (hP hmem) fun _ _ => trivial
  · have hwrite : Goes (l :: held) P (Steps.write f) Q :=
      triple_atomic (hP hcons) (fun _ _ => trivial) h
    exact hwrite.conseq (fun _ hS => hS.1) fun _ _ hr => hr
  · intro r
    cases r with
    | error e => exact lasts_const False
    | ok a => exact hQ hcons
  · exact fun r S _ => ⟨trivial, fun heq => (hl heq).elim⟩

theorem goes_timestamp (time : Instant) (hmem : .topicSubMap ∈ held) :
    Goes held (Backing i)
      (holding .subSendTimestamps (Steps.write fun s =>
        { s with subSendTimestamps := s.subSendTimestamps.insert i time })) (Backing i) := by
  apply goes_holding_write (by decide) lasts_backing lasts_backing hmem
  intro S hS
  have hsame : Same S.state
      { S.state with subSendTimestamps := S.state.subSendTimestamps.insert i time } :=
    ⟨rfl, rfl, fun _ h => h⟩
  have hallowed : Allowed .parser (.subSendTimestamps :: held) S _ := hsame.allowed
  exact ⟨hallowed, hallowed.covered hS.1, hS.2⟩

/-- With its queue the new subscription is like the others. -/
theorem goes_values (stored : StoredSubValue) (hmem : .topicSubMap ∈ held) :
    Goes held (Backing i)
      (holding .subValues (Steps.write fun s =>
        { s with subValues := s.subValues.insert i stored }))
      fun S => Covered S ∧ Backed S.state := by
  have hbacked : ∀ {held}, .topicSubMap ∈ held →
      Lasts .parser held fun S => Covered S ∧ Backed S.state := fun hl =>
    lasts_and lasts_covered fun S S' h hS => lasts_fine S S' h (fun _ => hS) hl
  apply goes_holding_write (by decide) lasts_backing hbacked hmem
  intro S hS
  have hkeys : ∀ j, j ∈ S.state.subValues.insert i stored ↔ j = i ∨ j ∈ S.state.subValues :=
    fun j => AList.mem_insert _
  have hsame : Same S.state { S.state with subValues := S.state.subValues.insert i stored } :=
    ⟨rfl, rfl, fun j hj => (hkeys j).mpr (.inr hj)⟩
  have hallowed : Allowed .parser (.subValues :: held) S _ := hsame.allowed
  exact ⟨hallowed, hallowed.covered hS.1, fun u j hj => (hkeys j).mpr (hS.2 u j hj).symm⟩

/-- The loop over the topics, under the guard of the lists. -/
theorem triple_subscribeTopics {topics : List (String × TopicIdx)} (hl : .topicSubMap ∈ held) :
    Triple protocol (fun _ _ => True) .parser held
      (fun S => (Covered S ∧ Fine held S) ∧ Decided (topics.map Prod.snd) S.state.topicSubMap)
      (atomic (Fallible.foldEach topics ([], []) (subscribeTopic i))) held
      (Ended (fun e S => (Covered S ∧ Fine held S) ∧ Failed .parser e S) fun _ => Backing i) := by
  have hdecided : Lasts .parser held
      fun S => Decided (topics.map Prod.snd) S.state.topicSubMap := lasts_lists hl
  apply triple_atomic (lasts_base hdecided) fun _ _ => trivial
  intro S hS
  obtain ⟨⟨hc, hfine⟩, hd⟩ := hS
  have htotal : Total (Fallible.foldEach topics ([], []) (subscribeTopic i)) :=
    total_foldEach (fun _ _ => total_subscribeTopic) topics _
  obtain ⟨r, s', hx, hr⟩ := (htotal).ends (ends_subscribeTopics hd ([], []))
  rw [hx]
  cases r with
  | error e =>
    subst hr
    exact ⟨(refl_of Same S.state).allowed, ⟨hc, hfine⟩, nofun⟩
  | ok acc =>
    have hallowed : Allowed .parser held S { S with state := s' } := hr.allowed hl
    refine ⟨hallowed, hallowed.covered hc, fun u j hj => ?_⟩
    exact (hr.listed u j hj).imp_left fun h => hallowed.values j (hfine hl u j h)

/-- What comes after the queue of the new subscription. -/
theorem does_registered {now : List Mutex → Scene → Prop}
    (hnow : ∀ held S, Fine held S → now held S) {sub : Subscription × ClientIdx}
    {client : ConnectedClient} {messages : List NTMessage} {frames : List ValueFrame} :
    Does now .parser held (Settled .parser) (do
      holding .subscriptions
        (Steps.write fun s => { s with subscriptions := s.subscriptions.insert i sub })
      atomic (putClient c client)
      atomic (sendNtMessages c messages)
      atomic (sendBinary c frames)) held fun _ => Settled .parser := by
  apply Does.bind (J := fun _ => Settled .parser)
  · apply does_under hnow
    apply does_write_same hnow lasts_settled _ fun _ h => h
    exact fun s => ⟨rfl, rfl, fun _ h => h⟩
  intro _
  apply (does_settled hnow (Steps.within_putClient same_clients _) (total_modify _)).bind
  intro _
  apply (does_settled hnow (Steps.within_sendOn same_clients _) total_sendOn).bind
  exact fun _ => does_settled hnow (Steps.within_sendOn same_clients _) total_sendOn

theorem does_subscribe (sub : Subscribe) (time : Instant) :
    Does (fun _ _ => True) .parser [] (Settled .parser) (Steps.subscribe o sub c time) []
      fun _ => Settled .parser := by
  have hnow : ∀ held S, Fine held S → True := fun _ _ _ => trivial
  apply does_under hnow
  apply (does_find hnow).bind
  intro client
  apply does_under hnow
  apply (does_look hnow).bind
  intro topicMap
  let topics := (o.walk topicMap).filter fun topicEntry =>
    Subscription.caresAbout ⟨sub.subuid, sub.topics, sub.options⟩ topicEntry.1
  have hinterest : ∀ {held}, Lasts .parser held fun S => S.notes.interest = topics.map Prod.snd :=
    lasts_parsing (I := fun _ interest => interest = topics.map Prod.snd)
  have hdecided : ∀ {held}, .topicSubMap ∈ held →
      Lasts .parser held fun S => Decided (topics.map Prod.snd) S.state.topicSubMap := lasts_lists
  apply Does.note_bind hnow (J := fun S => S.notes.interest = topics.map Prod.snd) lasts_settled
  · exact fun S _ => ⟨allowed_notes S.notes.removed (topics.map Prod.snd), rfl⟩
  apply does_holding_may hnow hinterest _ fun _ => lasts_settled
  -- what the parser has looked at when it took the guard stays so while it has it
  apply Triple.conseq (P := fun S => (Covered S ∧ Fine [.topicSubMap, .topicMap, .clients] S) ∧
    Decided (topics.map Prod.snd) S.state.topicSubMap) _ _ fun _ _ hr => hr
  · apply does_holding hnow (hdecided (by decide)) _ fun _ => lasts_settled
    apply Does.bind (J := fun _ S => Decided (topics.map Prod.snd) S.state.topicSubMap)
    · apply does_holding hnow (hdecided (by decide)) _ fun _ => hdecided (by decide)
      apply does_same hnow (hdecided (by decide)) _ fun _ _ => nofun
      · apply within_bind within_get
        intro s
        exact within_bind (within_modify fun _ => ⟨rfl, rfl, fun _ h => h⟩) fun _ => within_pure _
      · apply total_bind total_get
        intro s
        exact total_bind (total_modify _) fun _ => total_pure _
      · intro S s' hsame h
        show Decided _ s'.topicSubMap
        rw [hsame.lists]
        exact h
    · intro i
      apply does_holding hnow (hdecided (by decide)) _ fun _ => lasts_settled
      apply Does.note_bind hnow (J := fun S => Decided (topics.map Prod.snd) S.state.topicSubMap)
        (hdecided (by decide))
      · exact fun S h => ⟨allowed_notes S.notes.removed [], h⟩
      apply Triple.bind (triple_subscribeTopics (by decide))
      · intro acc
        apply Triple.bind (goes_timestamp time (by decide)) _ fun _ _ he => he.elim
        intro _
        apply Triple.bind (goes_values _ (by decide)) _ fun _ _ he => he.elim
        intro _
        apply Triple.conseq (does_registered hnow) _ fun _ _ hr => hr
        exact fun S hS => ⟨⟨hS.1, fun _ => hS.2⟩, nofun⟩
      · exact fun _ _ he => he
  · intro S hS
    have hclear : Clear S := hS.2.2 rfl rfl
    have hdecided' := hclear.interest
    rw [hS.2.1] at hdecided'
    exact ⟨hS.1, hdecided'⟩

end Subscribe

section Runs

variable {S S' : System} {s : InnerServer} {turn : Turn}

/-- What a task keeps up all along: the lists are backed wherever it has their guard, except in a
subscription. -/
def duty : Option Message → Party → List Mutex → Scene → Prop
  | some (.subscribe ..), .parser => fun _ _ => True
  | _, _ => Fine

theorem duty_handle (parsing : Option Message) : duty parsing .handle = Fine := by
  rcases parsing with _ | ⟨⟩ | ⟨⟩ <;> rfl

theorem update_duty (parsing : Option Message) (m : Message) :
    Function.update (duty parsing) .parser (duty (some m) .parser) = duty (some m) := by
  funext t
  cases t with
  | parser => rw [Function.update_self]
  | handle => rw [Function.update_of_ne (by decide), duty_handle, duty_handle]

theorem safe_spawn {now : List Mutex → Scene → Prop} {t : Party} {x : StepM Unit}
    (h : Does now t [] (Settled t) x [] fun _ => Settled t) {S : Scene} (hc : Covered S)
    (hS : Settled t S) : (spawn x).Safe protocol now t [] S (Lib.Pool.Rests protocol t) := by
  apply Triple.spawn h
  · exact fun p => lasts_ended (fun _ => lasts_settled) _
  · intro r S hr
    rcases r with ⟨e | p⟩ | a
    · exact hr.2
    · exact hr.2.elim
    · exact hr.2
  · exact fun p S hp => hp.2.elim
  · exact ⟨⟨hc, nofun⟩, hS⟩

theorem safe_message (m : Message) {S : Scene} (hc : Covered S) :
    (spawn m.body).Safe protocol (duty (some m) .parser) .parser [] S
      (Lib.Pool.Rests protocol .parser) := by
  cases m with
  | subscribe o sub c time => exact safe_spawn (does_subscribe sub time) hc nofun
  | unpublish pubTopic c =>
    exact safe_spawn (does_innerUnpublishTopic (fun _ _ h => h) pubTopic) hc nofun

/-- Every task keeps to the protocol, and none has panicked. -/
structure Orderly (S : System) : Prop where
  sound : ∃ held, S.pool.Sound protocol (duty S.parsing) held
  covered : Covered S.pool.shared
  panics : S.pool.shared.panics = []

theorem orderly_rest (h : Ready s) : Orderly (.rest s) := by
  refine ⟨⟨fun _ => [], fun l t => ?_, fun _ => List.nodup_nil, fun _ => ⟨rfl, fun _ => rfl⟩,
    fun _ _ _ => h.backed⟩, ⟨fun t ht => .inl (h.listed t ht), nofun⟩, rfl⟩
  exact iff_of_false nofun List.not_mem_nil

theorem Orderly.step (h : Orderly S) (hg : TakesClear S turn) (hs : Step S turn S') :
    Orderly S' := by
  obtain ⟨held, hsound⟩ := h.sound
  cases hs with
  | publish o topicName value props uid time hdone =>
    have hbody := does_publishTopicWProps (o := o) (fun _ _ h => h) topicName value props uid time
    have hstart := hsound.start hdone fun hidle => safe_spawn hbody h.covered hidle
    rw [← duty_handle S.parsing, Function.update_eq_self] at hstart
    exact ⟨⟨held, hstart⟩, h.covered, h.panics⟩
  | parse m hdone =>
    have hstart := hsound.start hdone fun _ => safe_message m h.covered
    rw [update_duty] at hstart
    exact ⟨⟨held, hstart⟩, h.covered, h.panics⟩
  | @moves pool t hm =>
    have hmay : ∀ l next, S.pool.rest t = .lock l next → protocol.may t l S.pool.shared := by
      intro l next hrest ht hl
      subst ht hl
      exact hg next hrest
    have hsound' : ∃ held', pool.Sound protocol (duty S.parsing) held' := hsound.moves hm hmay
    rcases hsound.allows_of_moves hm with heq | hallowed
    · exact ⟨hsound', heq ▸ h.covered, heq ▸ h.panics⟩
    · exact ⟨hsound', hallowed.covered h.covered, hallowed.panics.trans h.panics⟩

theorem Runs.orderly (run : Runs TakesClear s S) (h : Ready s) : Orderly S := by
  induction run with
  | refl => exact orderly_rest h
  | tail _ hstep ih =>
    obtain ⟨turn, hg, hs⟩ := hstep
    exact ih.step hg hs

/-- Who has the guard of the lists keeps them backed, unless it is at work on a subscription. -/
theorem Orderly.backed (h : Orderly S) (hsub : ¬S.Subscribing) : Backed S.pool.shared.state := by
  obtain ⟨held, hsound⟩ := h.sound
  cases howner : S.pool.owner .topicSubMap with
  | none => exact hsound.free .topicSubMap howner rfl
  | some t =>
    have hmem : .topicSubMap ∈ held t := (hsound.owner _ _).mp howner
    have hrest : S.pool.rest t ≠ .pure () := by
      intro hdone
      have hrests := hsound.safe t
      rw [hdone] at hrests
      rw [hrests.1] at hmem
      cases hmem
    have hduty := hsound.now_of_rest hrest
    cases t with
    | handle =>
      rw [duty_handle] at hduty
      exact hduty hmem
    | parser =>
      revert hduty
      cases hparsing : S.parsing with
      | none => exact fun hduty => hduty hmem
      | some m =>
        cases m with
        | unpublish pubTopic c => exact fun hduty => hduty hmem
        | subscribe o sub c time => exact (hsub ⟨⟨o, sub, c, time, hparsing⟩, hrest⟩).elim

end Runs

/-- As long as the parser takes the lists only when it is clear to, the handle's publication is safe
beside the messages of the clients. -/
theorem publish_beside_messages {s : InnerServer} {S : System} (hs : Ready s)
    (run : Runs TakesClear s S) :
    S.pool.shared.panics = [] ∧ (¬S.Subscribing → Backed S.pool.shared.state) :=
  have h := run.orderly hs
  ⟨h.panics, h.backed⟩

section Play

/-- The step of a turn, if it can be made. -/
def System.take (S : System) : Turn → Option System
  | .publish o topicName value props uid now =>
    if (S.pool.rest .handle).isDone then
      some { S with
        pool := S.pool.start .handle
          (spawn (Steps.publishTopicWProps o topicName value props uid now)) }
    else
      none
  | .parse m =>
    if (S.pool.rest .parser).isDone then
      some { pool := S.pool.start .parser (spawn m.body), parsing := some m }
    else
      none
  | .moves t => (S.pool.move 0 t).map fun pool => { S with pool }

theorem step_of_take {S S' : System} {turn : Turn} (h : S.take turn = some S') :
    Step S turn S' := by
  cases turn with
  | publish o topicName value props uid now =>
    simp only [System.take] at h
    split_ifs at h with hdone
    cases h
    exact .publish o topicName value props uid now (Prog.eq_pure_of_isDone hdone)
  | parse m =>
    simp only [System.take] at h
    split_ifs at h with hdone
    cases h
    exact .parse m (Prog.eq_pure_of_isDone hdone)
  | moves t =>
    obtain ⟨pool, hmove, rfl⟩ := Option.map_eq_some_iff.mp h
    exact .moves t (Lib.Pool.moves_of_move hmove)

instance (ts : List TopicIdx) (lists : KeyMap TopicIdx (List SubIdx)) :
    Decidable (Decided ts lists) :=
  match ts with
  | [] => .isTrue trivial
  | t :: ts => @instDecidableForall (t ∈ lists) _ _ (List.decidableBAll _ ts)

instance (S : Scene) : Decidable (Clear S) :=
  have : Decidable (∀ t ∈ S.notes.removed, S.notes.checked ≠ some t ∧ t ∉ S.state.topics) :=
    List.decidableBAll _ _
  decidable_of_iff ((∀ t ∈ S.notes.removed, S.notes.checked ≠ some t ∧ t ∉ S.state.topics) ∧
    Decided S.notes.interest S.state.topicSubMap) ⟨fun h => ⟨h.1, h.2⟩, fun h => ⟨h.1, h.2⟩⟩

/-- Whether the parser is clear to take the lists, if that is the turn. -/
def System.clears (S : System) : Turn → Bool
  | .moves .parser =>
    match S.pool.rest .parser with
    | .lock .topicSubMap _ => decide (Clear S.pool.shared)
    | _ => true
  | _ => true

theorem takesClear_of_clears {S : System} {turn : Turn} (h : S.clears turn = true) :
    TakesClear S turn := by
  cases turn with
  | publish | parse => trivial
  | moves t =>
    cases t with
    | handle => trivial
    | parser =>
      intro next hrest
      simp only [System.clears, hrest] at h
      exact of_decide_eq_true h

def System.takeClear (S : System) (turn : Turn) : Option System :=
  if S.clears turn then S.take turn else none

theorem runs_of_takes {s : InnerServer} {S : System} {turns : List Turn}
    (h : turns.foldlM System.take (.rest s) = some S) : Runs (fun _ _ => True) s S := by
  apply reflTransGen_foldlM _ h
  exact fun _ turn _ hturn => ⟨turn, trivial, step_of_take hturn⟩

theorem runs_of_takesClear {s : InnerServer} {S : System} {turns : List Turn}
    (h : turns.foldlM System.takeClear (.rest s) = some S) : Runs TakesClear s S := by
  apply reflTransGen_foldlM _ h
  intro S turn S' hturn
  simp only [System.takeClear] at hturn
  split_ifs at hturn with hclear
  exact ⟨turn, takesClear_of_clears hclear, step_of_take hturn⟩

/-- A client with two topics. -/
def publishTwice : List Op :=
  [.connectClient ⟨.v4 10 0 0 2 5810, "a"⟩, .innerPublishTopic ⟨"x", 0, "int", none⟩ 1,
    .innerPublishTopic ⟨"z", 1, "int", none⟩ 1]

def handles (n : Nat) : List Turn := List.replicate n (.moves .handle)

def parses (n : Nat) : List Turn := List.replicate n (.moves .parser)

theorem ready_publishTwice {s : InnerServer} (hs : stateAfter anyOp .stored publishTwice = some s) :
    Ready s := by
  obtain ⟨u, run, hu⟩ := runWhere_stateAfter (fun _ _ _ => trivial) hs
  exact ready_of_runs run ((hu .topic).trans_lt (by decide))

/-- The handle publishes a topic of the client, and has just found that it is there. -/
def publishFound : List Turn :=
  [.publish .stored "x" ⟨.int, .integer 1⟩ none 9 5] ++ handles 25

/-- Meanwhile the client, which has subscribed to it, takes back the other topic. -/
def unpublishOther : List Turn :=
  [.parse (.subscribe .stored ⟨0, {"x"}, none⟩ 1 0)] ++ parses 30 ++ publishFound ++
    [.parse (.unpublish ⟨1⟩ 1)] ++ parses 32 ++ handles 10

theorem publish_beside_unpublishOther :
    ∃ s S, stateAfter anyOp .stored publishTwice = some s ∧ Runs TakesClear s S ∧
      S.pool.rest .handle = .pure () ∧
      (S.pool.shared.state.subValues.lookup 0).map (fun stored => (stored.queued 5).length) =
        some 1 ∧
      S.pool.shared.panics = [] ∧ (¬S.Subscribing → Backed S.pool.shared.state) := by
  have hrun : (stateAfter anyOp .stored publishTwice).bind (fun s =>
      (unpublishOther.foldlM System.takeClear (.rest s)).map fun S =>
        ((S.pool.rest .handle).isDone,
          (S.pool.shared.state.subValues.lookup 0).map fun stored => (stored.queued 5).length)) =
      some (true, some 1) := by decide +kernel
  obtain ⟨s, hs, hrun⟩ := Option.bind_eq_some_iff.mp hrun
  obtain ⟨S, hS, hview⟩ := Option.map_eq_some_iff.mp hrun
  obtain ⟨hdone, hqueued⟩ := Prod.mk.inj hview
  have run : Runs TakesClear s S := runs_of_takesClear hS
  exact ⟨s, S, hs, run, Prog.eq_pure_of_isDone hdone, hqueued,
    publish_beside_messages (ready_publishTwice hs) run⟩

/-- Meanwhile the client takes back that topic, and `set_value` misses its list. -/
def unpublishFound : List Turn :=
  publishFound ++ [.parse (.unpublish ⟨0⟩ 1)] ++ parses 32 ++ handles 6

theorem list_gone_before_unwrap :
    ¬∀ s S, Reachable s → Runs (fun _ _ => True) s S →
      S.pool.shared.panics = [] ∧ (¬S.Subscribing → Backed S.pool.shared.state) := by
  intro h
  have hrun : (stateAfter anyOp .stored publishTwice).bind (fun s =>
      (unpublishFound.foldlM System.take (.rest s)).map fun S => S.pool.shared.panics) =
      some [unwrapNone] := by decide +kernel
  obtain ⟨s, hs, hrun⟩ := Option.bind_eq_some_iff.mp hrun
  obtain ⟨S, hS, hpanics⟩ := Option.map_eq_some_iff.mp hrun
  have hnone := (h s S (reachable_stateAfter hs) (runs_of_takes hS)).1
  rw [hpanics] at hnone
  cases hnone

def reversed : IterOrder where
  arrange := List.reverse
  perm := List.reverse_perm

/-- The handle has named a new topic that has no list yet, and a subscription to it and to another
stops half way. -/
def subscribeEarly : List Turn :=
  [.publish .stored "y" ⟨.int, .integer 1⟩ none 9 5] ++ handles 16 ++
    [.parse (.subscribe reversed ⟨0, {"x", "y"}, none⟩ 1 0)] ++ parses 18

theorem listed_without_queue :
    ∃ s S, Reachable s ∧ Runs (fun _ _ => True) s S ∧ ¬S.Subscribing ∧
      ¬Backed S.pool.shared.state := by
  have hrun : (stateAfter anyOp .stored publishTwice).bind (fun s =>
      (subscribeEarly.foldlM System.take (.rest s)).map fun S =>
        ((S.pool.rest .parser).isDone, S.pool.shared.state.topicSubMap.lookup 5,
          S.pool.shared.state.subValues.keys)) = some (true, some [0], []) := by decide +kernel
  obtain ⟨s, hs, hrun⟩ := Option.bind_eq_some_iff.mp hrun
  obtain ⟨S, hS, hview⟩ := Option.map_eq_some_iff.mp hrun
  obtain ⟨hdone, hview⟩ := Prod.mk.inj hview
  obtain ⟨hlist, hkeys⟩ := Prod.mk.inj hview
  refine ⟨s, S, reachable_stateAfter hs, runs_of_takes hS, fun h => ?_, fun h => ?_⟩
  · exact h.2 (Prog.eq_pure_of_isDone hdone)
  · have hmem : (0 : SubIdx) ∈ S.pool.shared.state.subValues.keys :=
      h 5 0 ⟨[0], hlist, List.mem_singleton.mpr rfl⟩
    rw [hkeys] at hmem
    cases hmem

end Play

end NetTables.Server.HandlePublish
