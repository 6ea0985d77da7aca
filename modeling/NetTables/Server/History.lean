import NetTables.Server.DeliveryJournal
import NetTables.Server.TopicJournal

namespace NetTables.Server

open Lib Lib.Fallible Spec

variable {s s' : InnerServer} {o : IterOrder} {op : Op}

/-- The names that a publication may put into the server. -/
def publishNames (name : String) (n : String) : Prop :=
  n = name ∨ hasDollar name = false ∧ (n = metaPubName name ∨ n = metaSubName name)

/-- The topics that the two removing operations may try to remove. -/
def Op.Removes (s : InnerServer) : Op → TopicIdx → Prop
  | .innerUnpublishTopic pubTopic c, t => ∃ client, s.clients.lookup c = some client ∧
      client.pubuidToTopicidx.getByLeft pubTopic.pubuid = some t ∧ s.pubCount.lookup t = some 1
  | .disconnectClient ident, t => s.Leaves ident t
  | _, _ => False

/-- The names that the two adding operations may add. -/
def Op.Adds (s : InnerServer) : Op → String → Prop
  | .connectClient identity, name =>
      name = clientPubName (uniqueIdentity s identity).name ∨
      name = clientSubName (uniqueIdentity s identity).name
  | .innerPublishTopic pubTopic _, name =>
      s.topicMap.lookup pubTopic.name = none ∧ publishNames pubTopic.name name
  | _, _ => False

/-- No operation both adds and removes topics. -/
theorem Op.not_removes_of_adds {name : String} (h : op.Adds s name) (t : TopicIdx) :
    ¬op.Removes s t := by
  cases op <;> first | exact id | exact h.elim

/-- The operations that take back registrations and lower the counts. -/
def Op.Withdraws : Op → Prop
  | .innerUnpublishTopic _ _ | .disconnectClient _ => True
  | _ => False

/-- The events that an operation may bring about. -/
def Op.MayDo (s : InnerServer) (op : Op) : Event → Prop
  | .topic name => op.Adds s name
  | .gone t _ => op.Removes s t
  | .registered c pubuid name => ∃ pubTopic, op = .innerPublishTopic pubTopic c ∧
      pubTopic.pubuid = pubuid ∧ pubTopic.name = name
  | .withdrawn | .count => op.Withdraws
  | .properties => ∃ msg, op = .setProperties msg
  | .client => ∃ identity, op = .connectClient identity
  | .sub => ∃ sub c now, op = .subscribe sub c now

theorem ends_ignoring {α : Type} {x : ServerM α} {Q : InnerServer → Prop}
    (h : Ends x s fun _ s' => Q s') : Ends (ignoring x) s fun _ s' => Q s' :=
  (ends_bind _ _).mpr (ends_thenPure Q h)

/-- Everything an operation does, as a sequence of effects. -/
theorem does_perform (op : Op) (s : InnerServer) :
    Ends (op.perform o) s fun _ s' => Does (op.MayDo s) 3 s s' := by
  have hquiet : ∀ {x : ServerM Unit}, (Ends x s fun _ s' => Quiet s s') →
      Ends x s fun _ s' => Does (op.MayDo s) 3 s s' :=
    fun h => ends_mono h fun _ _ hq => hq.does.mono (by omega) fun _ h => h
  cases op with
  | connectClient identity =>
    refine ends_ignoring (ends_connectClient.mpr ?_)
    split_ifs
    · exact (Quiet.refl s).does.mono (by omega) fun _ h => h
    · exact does_connected ⟨identity, rfl⟩ (.inl rfl) (.inr rfl)
  | disconnectClient ident =>
    refine ends_mono (does_disconnectClient trivial trivial fun t how h => ?_) fun _ _ h =>
      h.mono (by omega) fun _ h => h
    exact h
  | innerPublishTopic pubTopic c =>
    refine ends_ignoring (ends_mono (does_innerPublishTopic ⟨pubTopic, rfl, rfl, rfl⟩
      (fun hn => ⟨hn, .inl rfl⟩) (fun hn hd => ?_) fun t how h => h) fun _ _ h => h.1)
    exact ⟨⟨hn, .inr ⟨hd, .inl rfl⟩⟩, ⟨hn, .inr ⟨hd, .inr rfl⟩⟩⟩
  | innerUnpublishTopic pubTopic c =>
    refine ends_mono (does_innerUnpublishTopic trivial trivial fun client t how hc hp hn => ?_) fun _ _ h =>
      h.mono (by omega) fun _ h => h
    exact ⟨client, hc, hp, hn⟩
  | subscribe sub c now =>
    refine ends_mono (does_subscribe ⟨sub, c, now, rfl⟩) fun _ _ h => h.mono (by omega) fun _ h => h
  | unsubscribe unsub c => exact hquiet quiet_unsubscribe
  | setProperties msg =>
    refine ends_mono (does_setProperties ⟨msg, rfl⟩) fun _ _ h => h.mono (by omega) fun _ h => h
  | setValue value t => exact hquiet quiet_setValue
  | announceTopic t responseOpt => exact hquiet quiet_announceTopic
  | announceAllTopicsFor i => exact hquiet quiet_announceAllTopicsFor
  | unAnnounceTopics name t => exact hquiet quiet_unAnnounceTopics
  | flushAll => exact hquiet quiet_flushAll
  | flushClient c => exact hquiet quiet_flushClient
  | sendOut clock offset => exact hquiet (ends_ignoring quiet_sendOut)
  | closeChannel c => exact hquiet quiet_closeChannel

theorem Step.does (h : Step s op s') : Does (op.MayDo s) 3 s s' := by
  obtain ⟨o, r, hx⟩ := h
  exact ends_of_exec (does_perform op s) hx

/-- The server with nothing but its own client. -/
def booted : InnerServer where
  clients := (∅ : KeyMap ClientIdx ConnectedClient).insert serverClientIdx serverClient
  counters := { clientIdx := 1 }

/-- What `try_new` adds to it. -/
def IsTopic (a : Event) : Prop := ∃ name, a = .topic name

/-- The server after `try_new`. -/
def started : InnerServer :=
  let clients := ensureTopic booted (.newMeta "$clients")
  let serverSub := ensureTopic clients.2 (.newMeta "$serversub")
  (ensureTopic serverSub.2 (.newMeta "$serverpub")).2

theorem Init.eq_started (h : Init s) : s = started := by
  obtain ⟨o, hx⟩ := h
  have hd : hasDollar (Topic.newMeta "$clients").name = true ∧
      hasDollar (Topic.newMeta "$serversub").name = true ∧
      hasDollar (Topic.newMeta "$serverpub").name = true := by decide
  obtain ⟨hd₁, hd₂, hd₃⟩ := hd
  have hends : Ends (tryNew o) {} fun _ s => s = started := by
    simp only [tryNew, ends_bind, ends_get, thenEnds_ok, ends_modify, putClient,
      Counter.nextClientIdx, ends_addTopic_of_hasDollar, hd₁, hd₂, hd₃, ends_pure]
    rfl
  exact ends_of_exec hends hx

theorem Init.does (h : Init s) : Does IsTopic 3 booted s := by
  rw [h.eq_started]
  have hone : ∀ name (u : InnerServer), Does IsTopic 1 u (ensureTopic u (.newMeta name)).2 :=
    fun name u => does_ensureTopic ⟨name, rfl⟩
  exact ((hone "$clients" booted).trans (hone "$serversub" _)).trans (hone "$serverpub" _)

/-- The counters move only when an index is taken. -/
theorem Effect.counters {e : Option Event} (h : Effect s e s') (k : Kind) :
    s'.counters.get k = s.counters.get k + UInt32.ofNat (taken k e.toList) := by
  have hnone : taken k ([] : List Event) = 0 := rfl
  cases h with
  | topicAdded | topicRemoved | topicLost | topicHalfLost | propertiesSet | clientConnected
  | registered | unregistered | countLowered | countErased | clientLeft | subscribed
  | subscribeFailed =>
    cases k <;> simp [taken, Event.takes, Counter.get, InnerServer.withTopic,
      InnerServer.withoutTopic, InnerServer.withoutClient]
  | _ => simp [Counter.get]

theorem Effects.counters {es : List Event} (h : Effects s es s') (k : Kind) :
    s'.counters.get k = s.counters.get k + UInt32.ofNat (taken k es) := by
  induction h with
  | refl => simp
  | tail _ e ih =>
    rw [e.counters k, ih, taken_append, UInt32.ofNat_add, UInt32.add_assoc]

theorem created_of_effects {es : List Event} (h : Effects s es s') (k : Kind)
    (hn : taken k es ≤ 3) : created s s' k = taken k es := by
  rw [created, h.counters k, UInt32.add_comm, UInt32.add_sub_cancel]
  exact UInt32.toNat_ofNat_of_lt (by rw [UInt32.size]; omega)

theorem created_of_booted {es : List Event} (h : Effects booted es s) (k : Kind)
    (hn : taken k es ≤ 3) : created {} s k = taken k es + if k = .client then 1 else 0 := by
  have hnat : (UInt32.ofNat (taken k es)).toNat = taken k es :=
    UInt32.toNat_ofNat_of_lt' (by rw [UInt32.size]; omega)
  have hzero : ({} : InnerServer).counters.get k = 0 := by cases k <;> rfl
  rw [created, h.counters k, hzero, UInt32.sub_zero, UInt32.toNat_add, hnat]
  cases k <;> simp [booted, Counter.get] <;> omega

/-- What a run has taken, from the server with nothing but its own client. -/
theorem RunWhere.history {guard : InnerServer → Op → Prop} {u : Kind → Nat}
    (run : RunWhere guard u s) :
    ∃ es, Effects booted es s ∧
      ∀ k, u k = taken k es + if k = .client then 1 else 0 := by
  refine run.invariant (fun u s => ∃ es, Effects booted es s ∧
    ∀ k, u k = taken k es + if k = .client then 1 else 0) ?_ ?_
  · intro s hs
    obtain ⟨es, hes, -, hn⟩ := hs.does
    exact ⟨es, hes, fun k => created_of_booted hes k (hn k)⟩
  · intro u s op t _ h _ hstep
    obtain ⟨es, hes, hu⟩ := h
    obtain ⟨es', hes', -, hn⟩ := hstep.does
    refine ⟨es ++ es', hes.trans hes', fun k => ?_⟩
    rw [Pi.add_apply, hu k, created_of_effects hes' k (hn k), taken_append]
    omega

/-- Taking the indices does not run past the last `u32`, for the kinds of index in `K`. -/
def Room (K : Kind → Prop) (s : InnerServer) (es : List Event) : Prop :=
  ∀ k, K k → (s.counters.get k).toNat + taken k es < 2 ^ 32

variable {K : Kind → Prop}

theorem Effects.counters_of_room {es : List Event} (h : Effects s es s') (hroom : Room K s es)
    {k : Kind} (hk : K k) : (s'.counters.get k).toNat = (s.counters.get k).toNat + taken k es := by
  have hlt := hroom k hk
  have hnat : (UInt32.ofNat (taken k es)).toNat = taken k es :=
    UInt32.toNat_ofNat_of_lt' (by rw [UInt32.size]; omega)
  rw [h.counters k, UInt32.toNat_add, hnat]
  omega

/-- Another way to the same state takes as much, if it takes little. -/
theorem Room.of_effects {es es' : List Event} (hroom : Room K s es) (hes : Effects s es s')
    (hes' : Effects s es' s') (hn : ∀ k, taken k es' ≤ 3) : Room K s es' := by
  intro k hk
  have hnat : (UInt32.ofNat (taken k es')).toNat = taken k es' := by
    have hle := hn k
    exact UInt32.toNat_ofNat_of_lt' (by rw [UInt32.size]; omega)
  have hend := hes.counters_of_room hroom hk
  have hlt := hroom k hk
  have hle := hn k
  rw [hes'.counters k, UInt32.toNat_add, hnat] at hend
  omega

/-- As `Effects.invariant`, where no counter in `K` wraps. -/
theorem Effects.invariant_of_room (I : InnerServer → Prop) (P : Event → Prop) {es : List Event}
    (h : Effects s es s') (hes : ∀ a ∈ es, P a) (hroom : Room K s es)
    (hstep : ∀ s e s', Effect s e s' → (∀ a, e = some a → P a) → Room K s e.toList → I s → I s')
    (hs : I s) : I s' := by
  induction h with
  | refl => exact hs
  | tail h e ih =>
    rename_i es s' e' s''
    have hroom' : Room K s es := by
      intro k hk
      have hlt := hroom k hk
      rw [taken_append] at hlt
      omega
    have hi := ih (fun a ha => hes a (List.mem_append_left _ ha)) hroom'
    refine hstep _ _ _ e ?_ ?_ hi
    · intro a ha
      exact hes a (List.mem_append_right _ (by simp [ha]))
    · intro k hk
      have hlt := hroom k hk
      rw [taken_append] at hlt
      rw [h.counters_of_room hroom' hk]
      omega

/-- The counters of a run are behind what it has taken. -/
theorem RunWhere.counters_le {guard : InnerServer → Op → Prop} {u : Kind → Nat}
    (run : RunWhere guard u s) (k : Kind) : (s.counters.get k).toNat ≤ u k := by
  obtain ⟨es, hes, hu⟩ := run.history
  have hle : (UInt32.ofNat (taken k es)).toNat ≤ taken k es := by
    rw [UInt32.toNat_ofNat']
    exact Nat.mod_le _ _
  have hboot : (booted.counters.get k).toNat = if k = .client then 1 else 0 := by
    cases k <;> rfl
  rw [hes.counters k, hu k, UInt32.toNat_add, hboot]
  refine (Nat.mod_le _ _).trans ?_
  omega

/-- A step of a run has room for what it takes, if that stays below 2^32. -/
theorem RunWhere.room {guard : InnerServer → Op → Prop} {u : Kind → Nat} {es : List Event}
    (run : RunWhere guard u s) (hes : Effects s es s') (hn : ∀ k, taken k es ≤ 3)
    (hu : ∀ k, K k → u k + created s s' k < 2 ^ 32) : Room K s es := by
  intro k hk
  have hcount := created_of_effects hes k (hn k)
  have hbehind := run.counters_le k
  have hlt := hu k hk
  omega

/-- The induction over a run: what `try_new` establishes and every operation keeps, given its guard
and that the counters in `K` do not wrap. -/
theorem RunWhere.induct {guard : InnerServer → Op → Prop} {u : Kind → Nat} (K : Kind → Prop)
    (I : InnerServer → Prop) (run : RunWhere guard u s) (hu : ∀ k, K k → u k < 2 ^ 32)
    (hinit : ∀ es s, Effects booted es s → (∀ a ∈ es, IsTopic a) → Room K booted es → I s)
    (hstep : ∀ s op es s', Effects s es s' → (∀ a ∈ es, op.MayDo s a) → Room K s es → guard s op →
      Step s op s' → I s → I s') : I s := by
  suffices h : (∀ k, K k → u k < 2 ^ 32) → I s from h hu
  clear hu
  refine run.invariant (fun u s => (∀ k, K k → u k < 2 ^ 32) → I s) ?_ ?_
  · intro s hs _
    obtain ⟨es, hes, hall, hn⟩ := hs.does
    refine hinit es s hes hall fun k _ => ?_
    have hle := hn k
    cases k <;> simp [booted, Counter.get] <;> omega
  · intro u s op t run ih hg hop hu
    obtain ⟨es, hes, hall, hn⟩ := hop.does
    have hcount : ∀ k, (u + created s t) k = u k + taken k es := fun k => by
      rw [Pi.add_apply, created_of_effects hes k (hn k)]
    refine hstep s op es t hes hall (fun k hk => ?_) hg hop (ih fun k hk => ?_)
    · have hlt := hu k hk
      have hle := RunWhere.counters_le run k
      rw [hcount] at hlt
      omega
    · have hlt := hu k hk
      rw [hcount] at hlt
      omega

/-- The runs of operations with their record, where every step meets `guard`. -/
abbrev LoggedWhere (guard : InnerServer → Op → Prop) :
    (Kind → Nat) → List (InnerServer × Op) × InnerServer → Prop :=
  Lib.Run.Logged Init Step (created {}) created guard

/-- The runs of operations with their record. -/
abbrev LoggedRuns : (Kind → Nat) → List (InnerServer × Op) × InnerServer → Prop :=
  Lib.Run.Logged Init Step (created {}) created fun _ _ => True

/-- A counter that does not wrap moves by what the step has taken. -/
theorem Step.counters {guard : InnerServer → Op → Prop} {u : Kind → Nat} {k : Kind}
    (run : RunWhere guard u s) (h : Step s op s') (hu : u k + created s s' k < 2 ^ 32) :
    (s'.counters.get k).toNat = (s.counters.get k).toNat + created s s' k := by
  obtain ⟨es, hes, -, hn⟩ := h.does
  have hcount := created_of_effects hes k (hn k)
  have hle := run.counters_le k
  have hroom : Room (· = k) s es := by
    rintro j rfl
    omega
  rw [hes.counters_of_room hroom rfl, hcount]

section Concrete

variable {guard : InnerServer → Op → Prop} {check : InnerServer → Op → Bool} {ops : List Op}
  {u : Kind → Nat}

/-- The record of a list of operations, as far as none of them panics. -/
def record (o : IterOrder) : List Op → InnerServer → List (InnerServer × Op)
  | [], _ => []
  | op :: ops, s =>
    match (op.perform o).exec s with
    | .ok (_, s') => (s, op) :: record o ops s'
    | .error _ => []

/-- The record of `try_new` and a list of operations. -/
def recordAfter (o : IterOrder) (ops : List Op) : List (InnerServer × Op) :=
  match (tryNew o).exec {} with
  | .ok (.ok (), s) => record o ops s
  | _ => []

theorem logged_performAll {log : List (InnerServer × Op)} (run : LoggedWhere guard u (log, s))
    (hg : ∀ s op, check s op = true → guard s op) (h : performAll check o ops s = some s') :
    ∃ u', LoggedWhere guard u' (log ++ record o ops s, s') ∧ ∀ k, u' k ≤ u k + 3 * ops.length := by
  induction ops generalizing u s log with
  | nil =>
    cases h
    exact ⟨u, by simpa [record] using run, fun k => by simp⟩
  | cons op ops ih =>
    simp only [performAll] at h
    split_ifs at h with hcheck
    split at h
    next r t hx =>
      have hop : Step s op t := ⟨o, r, hx⟩
      have hnext : LoggedWhere guard (u + created s t) (log ++ [(s, op)], t) :=
        run.logged_step hop (hg s op hcheck)
      obtain ⟨u', run', hu'⟩ := ih hnext h
      obtain ⟨es, hes, -, hn⟩ := hop.does
      refine ⟨u', ?_, fun k => ?_⟩
      · simpa [record, hx] using run'
      · have hk := hu' k
        have hle := hn k
        rw [Pi.add_apply, created_of_effects hes k hle] at hk
        rw [List.length_cons]
        omega
    · cases h

/-- A list of operations that all pass a check for the guard, as a run with its record. -/
theorem loggedWhere_stateAfter (hg : ∀ s op, check s op = true → guard s op)
    (h : stateAfter check o ops = some s) :
    ∃ u, LoggedWhere guard u (recordAfter o ops, s) ∧ ∀ k, u k ≤ 4 + 3 * ops.length := by
  unfold stateAfter at h
  unfold recordAfter
  split at h
  next t hx =>
    have hinit : Init t := ⟨o, hx⟩
    have hstart : LoggedWhere guard (created {} t) ([], t) :=
      Lib.Run.start (s := ([], t)) ⟨rfl, hinit⟩
    obtain ⟨es, hes, -, hn⟩ := hinit.does
    obtain ⟨u, run, hu⟩ := logged_performAll hstart hg h
    refine ⟨u, by simpa [hx] using run, fun k => ?_⟩
    have hk := hu k
    have hprice := created_of_booted hes k (hn k)
    have hle := hn k
    rw [hprice] at hk
    split_ifs at hk <;> omega
  · cases h

theorem logged_stateAfter (h : stateAfter anyOp o ops = some s) :
    ∃ u, LoggedRuns u (recordAfter o ops, s) ∧ ∀ k, u k ≤ 4 + 3 * ops.length :=
  loggedWhere_stateAfter (fun _ _ _ => trivial) h

theorem runWhere_stateAfter (hg : ∀ s op, check s op = true → guard s op)
    (h : stateAfter check o ops = some s) :
    ∃ u, RunWhere guard u s ∧ ∀ k, u k ≤ 4 + 3 * ops.length := by
  obtain ⟨u, run, hu⟩ := loggedWhere_stateAfter hg h
  exact ⟨u, run.run, hu⟩

theorem reachable_stateAfter (h : stateAfter anyOp o ops = some s) : Reachable s := by
  obtain ⟨u, run, -⟩ := runWhere_stateAfter (fun _ _ _ => trivial) h
  exact ⟨u, run⟩

theorem performAll_append {ops' : List Op} (h : performAll check o ops s = some s') :
    performAll check o (ops ++ ops') s = performAll check o ops' s' := by
  induction ops generalizing s with
  | nil =>
    cases h
    rfl
  | cons op ops ih =>
    simp only [performAll, List.cons_append] at h ⊢
    split_ifs at h ⊢
    split at h
    next r t hx => exact ih h
    · cases h

/-- The last operation of a list, as a step. -/
theorem step_of_stateAfter {t : InnerServer} (h : stateAfter anyOp o ops = some s)
    (h' : stateAfter anyOp o (ops ++ [op]) = some t) : Step s op t := by
  unfold stateAfter at h h'
  split at h
  next t₀ hx =>
    rw [hx] at h'
    dsimp only at h'
    rw [performAll_append h] at h'
    simp only [performAll, anyOp, if_true] at h'
    split at h'
    next r t' hx' =>
      cases h'
      exact ⟨o, r, hx'⟩
    · cases h'
  · cases h

end Concrete

end NetTables.Server
