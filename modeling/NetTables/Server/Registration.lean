import NetTables.Server.Isolation
import NetTables.Server.Steps

namespace NetTables.Server.Registration

open Lib Lib.Guarded Lib.Fallible Spec
open Locking (Mutex)
open Steps (StepM Scene)

/-- The task of `send_out`, and those that make the calls. -/
inductive Party where
  | sendOut
  | caller (n : Nat)
  deriving DecidableEq

inductive Call where
  | subscribe (o : IterOrder) (sub : Subscribe) (clientIdx : ClientIdx) (now : Instant)
  | unsubscribe (unsub : Unsubscribe) (clientIdx : ClientIdx)

def Call.body : Call → StepM Unit
  | .subscribe o sub clientIdx now => Steps.subscribe o sub clientIdx now
  | .unsubscribe unsub clientIdx => Steps.unsubscribe unsub clientIdx

abbrev Pool := Lib.Pool Party Mutex Empty Scene

/-- The tasks over a server on which nobody works. -/
def rest (s : InnerServer) : Pool where
  shared := { state := s, notes := {} }
  owner := fun _ => none
  queue := []
  rest := fun _ => .pure ()

/-- A caller begins a call, the loop begins a pass, or a task makes its next step. -/
inductive Step : Pool → Pool → Prop where
  | call {S n} (call : Call) (hdone : S.rest (.caller n) = .pure ()) :
      Step S (S.start (.caller n) (spawn call.body))
  | pass {S} (o : IterOrder) (clock : SendClock) (offset : ℚ)
      (hdone : S.rest .sendOut = .pure ()) :
      Step S (S.start .sendOut (spawn (Steps.sendOut o clock offset >>= fun _ => pure ())))
  | moves {S S'} (t : Party) (h : Lib.Pool.Moves 0 t S S') : Step S S'

abbrev Runs (s : InnerServer) : Pool → Prop := Relation.ReflTransGen Step (rest s)

/-- A subscription has its timestamp and its queue. -/
def Whole (s : InnerServer) : Prop :=
  ∀ i, i ∈ s.subscriptions → i ∈ s.subSendTimestamps ∧ i ∈ s.subValues

/-- Not one of the two texts with which `send_out` misses an entry. -/
def Unrelated (p : String) : Prop :=
  p ≠ "Sub timestamp missing" ∧ p ≠ "Sub values did not exists"

section Protocol

/-- No subscription is added, and no timestamp or queue is taken away. -/
structure Kept (s s' : InnerServer) : Prop where
  timestamps : ∀ i, i ∈ s.subSendTimestamps → i ∈ s'.subSendTimestamps
  values : ∀ i, i ∈ s.subValues → i ∈ s'.subValues
  subscriptions : ∀ i, i ∈ s'.subscriptions → i ∈ s.subscriptions

theorem Kept.refl (s : InnerServer) : Kept s s := ⟨fun _ h => h, fun _ h => h, fun _ h => h⟩

/-- Whoever adds subscriptions or takes timestamps and queues away has the guard of the clients, and
whoever changes the subscriptions has theirs. -/
structure Fair (held : List Mutex) (s s' : InnerServer) : Prop where
  whole : Whole s → Whole s'
  kept : .clients ∉ held → Kept s s'
  subscriptions : .subscriptions ∉ held → s'.subscriptions = s.subscriptions

structure Allowed (held : List Mutex) (S S' : Scene) : Prop where
  fair : Fair held S.state S'.state
  panics : ∀ p ∈ S'.panics, p ∈ S.panics ∨ Unrelated p

def protocol : Protocol Party Mutex Scene where
  allows _ := Allowed
  inv _ _ := True
  may _ _ _ := True
  idle _ _ := True
  inv_of_allows _ _ _ := trivial
  idle_of_allows _ _ _ := trivial

variable {held : List Mutex} {t : Party} {S S' : Scene}

/-- What lasts while others work, for an assertion about the state. -/
abbrev Lasts (t : Party) (held : List Mutex) (I : InnerServer → Prop) : Prop :=
  protocol.Stable t held fun S => I S.state

theorem lasts_const (p : Prop) : Lasts t held fun _ => p := fun _ _ _ h => h

theorem lasts_whole : Lasts t held Whole := by
  intro S S' h
  obtain ⟨t', held', -, -, hallowed⟩ := h
  exact hallowed.fair.whole

/-- Under the guard of the clients nothing is lost. -/
theorem lasts_of_kept {I : InnerServer → Prop} (hc : .clients ∈ held)
    (hI : ∀ s s', Kept s s' → I s → I s') : Lasts t held I := by
  intro S S' h
  obtain ⟨t', held', -, hdisjoint, hallowed⟩ := h
  exact hI _ _ (hallowed.fair.kept fun hmem => hdisjoint _ hmem hc)

theorem lasts_subscriptions {subs : KeyMap SubIdx (Subscription × ClientIdx)}
    (hs : .subscriptions ∈ held) : Lasts t held fun s => s.subscriptions = subs := by
  intro S S' h hsubs
  obtain ⟨t', held', -, hdisjoint, hallowed⟩ := h
  rw [hallowed.fair.subscriptions fun hmem => hdisjoint _ hmem hs]
  exact hsubs

theorem lasts_and {I J : InnerServer → Prop} (hI : Lasts t held I) (hJ : Lasts t held J) :
    Lasts t held fun s => I s ∧ J s :=
  fun S S' h hs => ⟨hI S S' h hs.1, hJ S S' h hs.2⟩

end Protocol

section Pieces

variable {held last : List Mutex} {t : Party} {α β : Type} {I J : InnerServer → Prop}

/-- An end that `send_out` has no part in. -/
def Stopped : Stop NetworkTablesError String → Prop
  | .error _ => True
  | .panic p => Unrelated p

/-- The program keeps to the protocol, from `I` to `J`. -/
abbrev Does (t : Party) (held : List Mutex) (I : InnerServer → Prop) (x : StepM α)
    (last : List Mutex) (J : α → InnerServer → Prop) : Prop :=
  Triple protocol (fun _ _ => True) t held (fun S => I S.state) x last
    (Ended (fun e _ => Stopped e) fun a S => J a S.state)

theorem Does.bind {x : StepM α} {f : α → StepM β} {J : α → InnerServer → Prop}
    {K : β → InnerServer → Prop} (h : Does t held I x held J)
    (hf : ∀ a, Does t held (J a) (f a) held K) : Does t held I (x >>= f) held K :=
  Triple.bind h hf fun _ _ he => he

theorem Does.mono {x : StepM α} {J J' : α → InnerServer → Prop} (h : Does t held I x last J)
    (hJ : ∀ a s, J a s → J' a s) : Does t held I x last J' := by
  apply Triple.conseq h fun _ hS => hS
  intro r S hr
  cases r with
  | error e => exact hr
  | ok a => exact hJ a S.state hr

theorem lasts_ended {J : α → InnerServer → Prop} (hJ : ∀ a, Lasts t held (J a))
    (r : Except (Stop NetworkTablesError String) α) :
    protocol.Stable t held (Ended (fun e _ => Stopped e) (fun a S => J a S.state) r) := by
  cases r with
  | error e => exact fun _ _ _ h => h
  | ok a => exact hJ a

theorem does_pure (a : α) {J : α → InnerServer → Prop} (h : ∀ s, I s → J a s) :
    Does t held I (pure a) held J := triple_pure a fun S hS => h S.state hS

theorem does_holding {l : Mutex} {x : StepM α} {J : α → InnerServer → Prop}
    (hI : Lasts t held I) (h : Does t (l :: held) I x (l :: held) J)
    (hJ : ∀ a, Lasts t (l :: held) (J a)) : Does t held I (holding l x) held J := by
  apply triple_holding hI fun _ _ => trivial
  · exact h.conseq (fun _ hS => hS.1) fun _ _ hr => hr
  · exact lasts_ended hJ
  · exact fun _ _ _ => ⟨trivial, trivial⟩

/-- The three tables are what they were. -/
structure Same (s s' : InnerServer) : Prop where
  subscriptions : s'.subscriptions = s.subscriptions
  timestamps : s'.subSendTimestamps = s.subSendTimestamps
  values : s'.subValues = s.subValues

instance : IsPreorder InnerServer Same where
  refl _ := ⟨rfl, rfl, rfl⟩
  trans _ _ _ h h' := ⟨h'.subscriptions.trans h.subscriptions, h'.timestamps.trans h.timestamps,
    h'.values.trans h.values⟩

theorem Same.whole {s s' : InnerServer} (h : Same s s') (hwhole : Whole s) : Whole s' := by
  intro i hi
  rw [h.timestamps, h.values]
  exact hwhole i (h.subscriptions ▸ hi)

theorem Same.fair {s s' : InnerServer} (h : Same s s') : Fair held s s' := by
  refine ⟨h.whole, fun _ => ⟨fun i hi => ?_, fun i hi => ?_, fun i hi => ?_⟩,
    fun _ => h.subscriptions⟩
  · rwa [h.timestamps]
  · rwa [h.values]
  · rwa [h.subscriptions] at hi

theorem Fair.refl (s : InnerServer) : Fair held s s := Same.fair (refl_of Same s)

/-- A piece of code that changes the tables in a way that is allowed. -/
theorem does_atomic {y : ServerM α} {J : α → InnerServer → Prop} (hI : Lasts t held I)
    (hends : ∀ s, I s → Ends y s fun r s' => Fair held s s' ∧ ∀ a, r = .ok a → J a s')
    (hpanic : ∀ s p, I s → y.exec s = .error p → Unrelated p) :
    Does t held I (atomic y) held J := by
  apply triple_atomic hI fun _ _ => trivial
  intro S hS
  have h := hends S.state hS
  have hp := hpanic S.state
  rcases hy : y.exec S.state with p | ⟨r, s'⟩
  · exact ⟨⟨.refl _, fun p hp => .inl hp⟩, hp p hS hy⟩
  · obtain ⟨hfair, hok⟩ := h r s' hy
    refine ⟨⟨hfair, fun p hp => .inl hp⟩, ?_⟩
    cases r with
    | error e => trivial
    | ok a => exact hok a rfl

theorem unrelated_of_total {y : ServerM α} (hy : Total y) {s : InnerServer} {p : String}
    (hp : y.exec s = .error p) : Unrelated p := by
  obtain ⟨r, s', hr⟩ := hy s
  rw [hr] at hp
  cases hp

/-- A piece of code that leaves the three tables alone. -/
theorem does_same {y : ServerM α} (hI : Lasts t held I) (hsame : ∀ s s', Same s s' → I s → I s')
    (hy : Within Same y) (htotal : Total y) : Does t held I (atomic y) held fun _ => I := by
  apply does_atomic hI
  · intro s hs
    have hsafe : Ends y s fun _ s' => Same s s' := hy s
    exact ends_mono hsafe fun r s' h => ⟨h.fair, fun _ _ => hsame s s' h hs⟩
  · exact fun s p _ hp => unrelated_of_total htotal hp

theorem does_look {f : InnerServer → α} {J : α → InnerServer → Prop} (hI : Lasts t held I)
    (hJ : ∀ s, I s → J (f s) s) : Does t held I (Steps.look f) held J := by
  apply does_atomic hI
  · intro s hs
    simp only [ends_bind, ends_get, thenEnds_ok, ends_pure]
    refine ⟨.refl s, fun a ha => ?_⟩
    cases ha
    exact hJ s hs
  · exact fun s p _ hp => unrelated_of_total (total_bind total_get fun _ => total_pure _) hp

theorem does_write {f : InnerServer → InnerServer} {J : InnerServer → Prop} (hI : Lasts t held I)
    (h : ∀ s, I s → Fair held s (f s) ∧ J (f s)) :
    Does t held I (Steps.write f) held fun _ => J := by
  apply does_atomic hI
  · exact fun s hs => (ends_modify _).mpr ⟨(h s hs).1, fun _ _ => (h s hs).2⟩
  · exact fun s p _ hp => unrelated_of_total (total_modify _) hp

theorem does_find {f : InnerServer → Option α} {e : NetworkTablesError} (hI : Lasts t held I) :
    Does t held I (Steps.find f e) held fun _ => I := by
  apply does_atomic hI
  · intro s hs
    simp only [ends_bind, ends_get, thenEnds_ok, ends_okOr]
    exact ⟨fun a _ => ⟨.refl s, fun _ _ => hs⟩, fun _ => ⟨.refl s, fun _ h => by cases h⟩⟩
  · exact fun s p _ hp => unrelated_of_total (total_bind total_get fun _ => total_okOr _ _) hp

/-- An entry that is there. -/
theorem does_expect {f : InnerServer → Option α} {text : String} {J : α → InnerServer → Prop}
    (hI : Lasts t held I) (h : ∀ s, I s → ∃ a, f s = some a ∧ J a s) :
    Does t held I (Steps.expect f text) held J := by
  apply does_atomic hI
  · intro s hs
    obtain ⟨a, ha, hJ⟩ := h s hs
    simp only [ends_bind, ends_get, thenEnds_ok, ends_unwrapOr]
    intro b hb
    rw [ha] at hb
    cases hb
    refine ⟨.refl s, fun b hb => ?_⟩
    cases hb
    exact hJ
  · intro s p hs hp
    obtain ⟨a, ha, -⟩ := h s hs
    rw [exec_bind, exec_get] at hp
    simp only [ha, unwrapOr, exec_pure] at hp
    cases hp

theorem does_note {f : Steps.Notes → Steps.Notes} (hI : Lasts t held I) :
    Does t held I (note f) held fun _ => I :=
  triple_note hI (fun _ _ => trivial) fun _ hS => ⟨⟨.refl _, fun _ hp => .inl hp⟩, hS⟩

section Loops

variable {ι : Type} {l : List ι}

theorem does_foldEach {f : α → ι → StepM α}
    (hf : ∀ a, ∀ i ∈ l, Does t held I (f a i) held fun _ => I) (a : α) :
    Does t held I (foldEach l a f) held fun _ => I :=
  triple_foldEach hf a

theorem does_forEach {f : ι → StepM Unit} (hf : ∀ i ∈ l, Does t held I (f i) held fun _ => I) :
    Does t held I (forEach l f) held fun _ => I := triple_forEach hf

end Loops

section Sequence

variable {f : Unit → StepM β} {K : β → InnerServer → Prop}

theorem Does.lock_bind {l : Mutex} (hI : Lasts t held I) (h : Does t (l :: held) I (f ()) last K) :
    Does t held I (lock l >>= f) last K := by
  apply Triple.lock_bind hI fun _ _ => trivial
  exact h.conseq (fun _ hS => hS.1) fun _ _ hr => hr

theorem Does.unlock_bind {l : Mutex} (hI : Lasts t held I) (hmem : l ∈ held)
    (h : Does t (held.erase l) I (f ()) last K) : Does t held I (unlock l >>= f) last K :=
  Triple.unlock_bind hI (fun _ _ => ⟨trivial, trivial⟩) hmem h

end Sequence

end Pieces

section Programs

variable {o : IterOrder} {t : Party} {held : List Mutex} {i : SubIdx} {c : ClientIdx}

theorem same_clients (s : InnerServer) (clients : KeyMap ClientIdx ConnectedClient) :
    Same s { s with clients := clients } := ⟨rfl, rfl, rfl⟩

theorem within_subscribeTopic (acc : List NTMessage × List ValueFrame) (e : String × TopicIdx) :
    Within Same (subscribeTopic i acc e) := by
  apply within_bind within_get
  intro s
  apply within_bind (within_okOr _ _)
  intro vectr
  apply within_bind (within_modify fun _ => ⟨rfl, rfl, rfl⟩)
  intro _
  split
  · exact within_pure _
  · exact within_pure _

/-- Under the guard of the clients. -/
theorem fair_of_clients {s s' : InnerServer} (hc : .clients ∈ held) (hwhole : Whole s → Whole s')
    (hsubs : .subscriptions ∉ held → s'.subscriptions = s.subscriptions) : Fair held s s' :=
  ⟨hwhole, fun h => (h hc).elim, hsubs⟩

section Entries

variable (hc : .clients ∈ held)

include hc

theorem lasts_timestamp : Lasts t held fun s => i ∈ s.subSendTimestamps :=
  lasts_of_kept hc fun _ _ h => h.timestamps i

theorem lasts_entries : Lasts t held fun s => i ∈ s.subSendTimestamps ∧ i ∈ s.subValues :=
  lasts_of_kept hc fun _ _ h hi => ⟨h.timestamps i hi.1, h.values i hi.2⟩

theorem lasts_withdrawn : Lasts t held fun s => i ∉ s.subscriptions :=
  lasts_of_kept hc fun _ _ h hi hmem => hi (h.subscriptions i hmem)

theorem does_insert_timestamp (now : Instant) : Does t held (fun _ => True)
    (Steps.write fun s => { s with subSendTimestamps := s.subSendTimestamps.insert i now }) held
    fun _ s => i ∈ s.subSendTimestamps := by
  apply does_write (lasts_const True)
  intro s _
  have hkey : ∀ j, j ∈ s.subSendTimestamps.insert i now ↔ j = i ∨ j ∈ s.subSendTimestamps :=
    fun j => AList.mem_insert _
  refine ⟨fair_of_clients hc (fun h j hj => ?_) fun _ => rfl, (hkey i).mpr (.inl rfl)⟩
  exact ⟨(hkey j).mpr (.inr (h j hj).1), (h j hj).2⟩

theorem does_insert_values (stored : StoredSubValue) :
    Does t held (fun s => i ∈ s.subSendTimestamps)
    (Steps.write fun s => { s with subValues := s.subValues.insert i stored }) held
    fun _ s => i ∈ s.subSendTimestamps ∧ i ∈ s.subValues := by
  apply does_write (lasts_timestamp hc)
  intro s hs
  have hkey : ∀ j, j ∈ s.subValues.insert i stored ↔ j = i ∨ j ∈ s.subValues :=
    fun j => AList.mem_insert _
  refine ⟨fair_of_clients hc (fun h j hj => ?_) fun _ => rfl, hs, (hkey i).mpr (.inl rfl)⟩
  exact ⟨(h j hj).1, (hkey j).mpr (.inr (h j hj).2)⟩

theorem does_insert_subscription (hs : .subscriptions ∈ held) (sub : Subscription × ClientIdx) :
    Does t held (fun s => i ∈ s.subSendTimestamps ∧ i ∈ s.subValues)
    (Steps.write fun s => { s with subscriptions := s.subscriptions.insert i sub }) held
    fun _ _ => True := by
  apply does_write (lasts_entries hc)
  intro s hentries
  refine ⟨fair_of_clients hc (fun h j hj => ?_) fun hnot => (hnot hs).elim, trivial⟩
  rcases (AList.mem_insert _).mp hj with rfl | hj
  · exact hentries
  · exact h j hj

theorem does_erase_subscription (hs : .subscriptions ∈ held) : Does t held (fun _ => True)
    (Steps.write fun s => { s with subscriptions := s.subscriptions.erase i }) held
    fun _ s => i ∉ s.subscriptions := by
  apply does_write (lasts_const True)
  intro s _
  refine ⟨fair_of_clients hc (fun h j hj => ?_) fun hnot => (hnot hs).elim, fun hi => ?_⟩
  · exact h j (AList.mem_erase.mp hj).2
  · exact (AList.mem_erase.mp hi).1 rfl

theorem does_erase_values : Does t held (fun s => i ∉ s.subscriptions)
    (Steps.write fun s => { s with subValues := s.subValues.erase i }) held
    fun _ s => i ∉ s.subscriptions := by
  apply does_write (lasts_withdrawn hc)
  intro s hs
  refine ⟨fair_of_clients hc (fun h j hj => ?_) fun _ => rfl, hs⟩
  have hne : j ≠ i := fun heq => hs (heq ▸ hj)
  exact ⟨(h j hj).1, AList.mem_erase.mpr ⟨hne, (h j hj).2⟩⟩

theorem does_erase_timestamp : Does t held (fun s => i ∉ s.subscriptions)
    (Steps.write fun s => { s with subSendTimestamps := s.subSendTimestamps.erase i }) held
    fun _ s => i ∉ s.subscriptions := by
  apply does_write (lasts_withdrawn hc)
  intro s hs
  refine ⟨fair_of_clients hc (fun h j hj => ?_) fun _ => rfl, hs⟩
  have hne : j ≠ i := fun heq => hs (heq ▸ hj)
  exact ⟨AList.mem_erase.mpr ⟨hne, (h j hj).1⟩, (h j hj).2⟩

end Entries

theorem does_nextSubIdx : Does t held (fun _ => True)
    (atomic do
      let (subIdx, counters) := (← get).counters.nextSubIdx
      modify fun s => { s with counters }
      pure subIdx) held fun _ _ => True := by
  apply does_same (lasts_const True) fun _ _ _ h => h
  · apply within_bind within_get
    intro s
    exact within_bind (within_modify fun _ => ⟨rfl, rfl, rfl⟩) fun _ => within_pure _
  · apply total_bind total_get
    intro s
    exact total_bind (total_modify _) fun _ => total_pure _

/-- The timestamp and the queue come before the subscription. -/
theorem does_subscribe (sub : Subscribe) (now : Instant) :
    Does t [] (fun _ => True) (Steps.subscribe o sub c now) [] fun _ _ => True := by
  have htrue : ∀ {held}, Lasts t held fun _ => True := lasts_const True
  apply does_holding htrue _ fun _ => htrue
  apply (does_find htrue).bind
  intro client
  apply does_holding htrue _ fun _ => htrue
  apply (does_look (J := fun _ _ => True) htrue fun _ _ => trivial).bind
  intro topicMap
  apply (does_note htrue).bind
  intro _
  apply does_holding htrue _ fun _ => htrue
  apply does_holding htrue _ fun _ => htrue
  apply (does_holding htrue does_nextSubIdx fun _ => htrue).bind
  intro i
  apply does_holding htrue _ fun _ => htrue
  apply (does_note htrue).bind
  intro _
  have hloop : ∀ l, Within Same (Fallible.foldEach l ([], []) (subscribeTopic i)) :=
    fun l => within_foldEach within_subscribeTopic l _
  apply (does_same htrue (fun _ _ _ h => h) (hloop _)
    (total_foldEach (fun _ _ => total_subscribeTopic) _ _)).bind
  intro acc
  have hc : ∀ l, .clients ∈ l :: [Mutex.topics, .topicValueMap, .topicSubMap, .topicMap, .clients] :=
    fun l => List.mem_cons_of_mem l (by decide)
  apply (does_holding htrue (does_insert_timestamp (hc _) now) fun _ => lasts_timestamp (hc _)).bind
  intro _
  apply (does_holding (lasts_timestamp (by decide)) (does_insert_values (hc _) _)
    fun _ => lasts_entries (hc _)).bind
  intro _
  apply (does_holding (lasts_entries (by decide)) (does_insert_subscription (hc _) (by decide) _)
    fun _ => htrue).bind
  intro _
  apply (does_same htrue (fun _ _ _ h => h) (Steps.within_putClient same_clients _)
    (total_modify _)).bind
  intro _
  apply (does_same htrue (fun _ _ _ h => h) (Steps.within_sendOn same_clients _) total_sendOn).bind
  intro _
  exact does_same htrue (fun _ _ _ h => h) (Steps.within_sendOn same_clients _) total_sendOn

/-- The subscription goes before its queue and its timestamp. -/
theorem does_unsubscribe (unsub : Unsubscribe) :
    Does t [] (fun _ => True) (Steps.unsubscribe unsub c) [] fun _ _ => True := by
  have htrue : ∀ {held}, Lasts t held fun _ => True := lasts_const True
  apply does_holding htrue _ fun _ => htrue
  apply (does_same htrue (fun _ _ _ h => h) (Steps.within_withdraw same_clients unsub)
    (Steps.total_withdraw unsub)).bind
  intro i
  apply does_holding htrue _ fun _ => htrue
  have hlists : ∀ s : InnerServer, Fair [Mutex.topicSubMap, .clients] s { s with
      topicSubMap := s.topicSubMap.mapValues fun vectr => vectr.filter fun elem => elem ≠ i } :=
    fun s => Same.fair ⟨rfl, rfl, rfl⟩
  apply (does_write (J := fun _ => True) htrue fun s _ => ⟨hlists s, trivial⟩).bind
  intro _
  have hc : ∀ l, .clients ∈ l :: [Mutex.topicSubMap, .clients] :=
    fun l => List.mem_cons_of_mem l (by decide)
  have hlasts : ∀ {held}, .clients ∈ held → Lasts t held fun s => i ∉ s.subscriptions :=
    lasts_withdrawn
  apply (does_holding htrue (does_erase_subscription (hc _) (by decide))
    fun _ => hlasts (hc _)).bind
  intro _
  apply (does_holding (hlasts (by decide)) (does_erase_values (hc _)) fun _ => hlasts (hc _)).bind
  intro _
  apply Does.mono (J := fun _ s => i ∉ s.subscriptions) _ fun _ _ _ => trivial
  exact does_holding (hlasts (by decide)) (does_erase_timestamp (hc _)) fun _ => hlasts (hc _)

section SendOut

variable {subs : KeyMap SubIdx (Subscription × ClientIdx)}

/-- What `send_out` knows under its guards: the subscriptions are the ones it walks, each with its
timestamp and its queue. -/
def Walks (subs : KeyMap SubIdx (Subscription × ClientIdx)) (s : InnerServer) : Prop :=
  s.subscriptions = subs ∧ Whole s

theorem lasts_walks (hs : .subscriptions ∈ held) : Lasts t held (Walks subs) :=
  lasts_and (lasts_subscriptions hs) lasts_whole

/-- New contents for a timestamp or a queue. -/
theorem does_refresh (hs : .subscriptions ∈ held) (hc : .clients ∈ held)
    {f : InnerServer → InnerServer} (hsubs : ∀ s, (f s).subscriptions = s.subscriptions)
    (htimestamps : ∀ s j, j ∈ s.subSendTimestamps → j ∈ (f s).subSendTimestamps)
    (hvalues : ∀ s j, j ∈ s.subValues → j ∈ (f s).subValues) :
    Does t held (Walks subs) (Steps.write f) held fun _ => Walks subs := by
  apply does_write (lasts_walks hs)
  intro s h
  have hwhole : Whole s → Whole (f s) := by
    intro hwhole j hj
    rw [hsubs] at hj
    exact ⟨htimestamps s j (hwhole j hj).1, hvalues s j (hwhole j hj).2⟩
  exact ⟨fair_of_clients hc hwhole fun _ => hsubs s, (hsubs s).trans h.1, hwhole h.2⟩

theorem unrelated_of_encodeBatch (value : TopicIdx × List ServerSendableValue) (s : InnerServer)
    (p : String) (hp : (encodeBatch value).exec s = .error p) : Unrelated p := by
  apply panic_foldEach _ value.2 [] s p hp
  intro buf val s p hp
  rw [exec_bind] at hp
  cases hid : tryFromI32 value.1 with
  | none =>
    rw [hid] at hp
    cases hp
    constructor <;> decide
  | some id =>
    rw [hid] at hp
    cases val
    cases hp

theorem does_encodeBatch (hs : .subscriptions ∈ held) (value : TopicIdx × List ServerSendableValue) :
    Does t held (Walks subs) (atomic (encodeBatch value)) held fun _ => Walks subs := by
  apply does_atomic (lasts_walks hs)
  · intro s h
    have hends : Ends (encodeBatch value) s fun _ s' => s' = s :=
      ends_mono ends_encodeBatch fun _ _ hr => hr.2
    exact ends_mono hends fun r s' hs' => by
      rw [hs']
      exact ⟨.refl s, fun _ _ => h⟩
  · exact fun s p _ hp => unrelated_of_encodeBatch value s p hp

theorem does_sendBatch (hs : .subscriptions ∈ held)
    (value : TopicIdx × List ServerSendableValue) :
    Does t held (Walks subs) (do
      let buf ← atomic (encodeBatch value)
      atomic (attempt (sendBinary c buf))) held fun _ => Walks subs := by
  apply (does_encodeBatch hs value).bind
  intro buf
  have hsame : ∀ s s', Same s s' → Walks subs s → Walks subs s' :=
    fun s s' hsame h => ⟨hsame.subscriptions.trans h.1, hsame.whole h.2⟩
  exact does_same (lasts_walks hs) hsame (within_attempt (Steps.within_sendOn same_clients _))
    fun s => (returns_attempt _).mpr (total_sendOn s)

theorem does_sendStored (hs : .subscriptions ∈ held) (hc : .clients ∈ held)
    (hi : ∀ s, Walks subs s → i ∈ s.subValues) :
    Does t held (Walks subs) (Steps.sendStored o i c) held fun _ => Walks subs := by
  apply Does.bind (J := fun _ => Walks subs)
  · apply does_expect (lasts_walks hs)
    intro s h
    obtain ⟨stored, hstored⟩ := (KeyMap.mem_iff_lookup _ _).mp (hi s h)
    exact ⟨stored, hstored, h⟩
  · intro stored
    have hwrite : Does t held (Walks subs)
        (Steps.write fun s => { s with subValues := s.subValues.insert i stored.takeValues.2 }) held
        fun _ => Walks subs :=
      does_refresh hs hc (fun _ => rfl) (fun _ _ hj => hj)
        fun _ _ hj => (AList.mem_insert _).mpr (.inr hj)
    apply hwrite.bind
    intro _
    exact does_forEach fun value _ => does_sendBatch hs value

/-- A turn finds both entries of its subscription. -/
theorem does_sendTurn (hs : .subscriptions ∈ held) (hc : .clients ∈ held) (clock : SendClock)
    (offset : ℚ) (e : SubIdx × (Subscription × ClientIdx)) (he : e ∈ o.walk subs) :
    Does t held (Walks subs) (Steps.sendTurn o clock offset e) held fun _ => Walks subs := by
  have hlasts : Lasts t held (Walks subs) := lasts_walks hs
  have hmem : ∀ s, Walks subs s → e.1 ∈ s.subSendTimestamps ∧ e.1 ∈ s.subValues := by
    intro s h
    have hlookup : subs.lookup e.1 = some e.2 := (o.mem_walk subs e.1 e.2).mp he
    apply h.2 e.1
    rw [h.1]
    exact (KeyMap.mem_iff_lookup _ _).mpr ⟨e.2, hlookup⟩
  unfold Steps.sendTurn
  dsimp only
  split_ifs
  · exact does_pure _ fun _ h => h
  · apply Does.bind (J := fun _ => Walks subs)
    · apply does_expect hlasts
      intro s h
      obtain ⟨sent, hsent⟩ := (KeyMap.mem_iff_lookup _ _).mp (hmem s h).1
      exact ⟨sent, hsent, h⟩
    · intro sent
      split_ifs
      · exact does_pure _ fun _ h => h
      · have hstamp : Does t held (Walks subs) (Steps.write fun s => { s with
            subSendTimestamps := s.subSendTimestamps.insert e.1 (clock.stamp e.1) }) held
            fun _ => Walks subs :=
          does_refresh hs hc (fun _ => rfl) (fun _ _ hj => (AList.mem_insert _).mpr (.inr hj))
            fun _ _ hj => hj
        apply hstamp.bind
        intro _
        apply (does_look (J := fun _ => Walks subs) hlasts fun _ h => h).bind
        intro client
        cases client with
        | none => exact does_pure _ fun _ h => h
        | some client =>
          apply (does_sendStored hs hc fun s h => (hmem s h).2).bind
          exact fun _ => does_pure _ fun _ h => h

/-- One pass finds whatever it looks for. -/
theorem does_sendOut (clock : SendClock) (offset : ℚ) :
    Does t [] Whole (Steps.sendOut o clock offset) [] fun _ _ => True := by
  have htrue : ∀ {held}, Lasts t held fun _ => True := lasts_const True
  apply Does.lock_bind lasts_whole
  have hlook : Triple protocol (fun _ _ => True) t [.subscriptions] (fun S => Whole S.state)
      (Steps.look InnerServer.subscriptions) [.subscriptions] fun r S => match r with
        | .ok subs => Walks subs S.state
        | .error _ => False :=
    triple_atomic lasts_whole (fun _ _ => trivial) fun S hS =>
      ⟨⟨.refl _, fun _ hp => .inl hp⟩, rfl, hS⟩
  apply Triple.bind_mid hlook _ fun _ _ he => he.elim
  intro subs
  have hlasts : ∀ {held}, .subscriptions ∈ held → Lasts t held (Walks subs) := lasts_walks
  show Does t [.subscriptions] (Walks subs) _ [] fun _ _ => True
  split_ifs
  · apply Does.unlock_bind (hlasts (by decide)) (by decide)
    exact does_pure _ fun _ _ => trivial
  · apply Does.lock_bind (hlasts (by decide))
    apply Does.lock_bind (hlasts (by decide))
    apply Does.lock_bind (hlasts (by decide))
    have hturns : Does t [.clients, .subSendTimestamps, .subValues, .subscriptions] (Walks subs)
        (foldEach (o.walk subs) offset (Steps.sendTurn o clock))
        [.clients, .subSendTimestamps, .subValues, .subscriptions] fun _ _ => True := by
      apply Does.mono (J := fun _ => Walks subs) _ fun _ _ _ => trivial
      apply does_foldEach
      exact fun offset e he => does_sendTurn (by decide) (by decide) clock offset e he
    apply hturns.result_bind
    intro r
    have hr : ∀ {held}, protocol.Stable t held (Ended (fun e _ => Stopped e) (fun _ _ => True) r) :=
      lasts_ended (fun _ => htrue) r
    apply Triple.unlock_bind hr (fun _ _ => ⟨trivial, trivial⟩) (by decide)
    apply Triple.unlock_bind hr (fun _ _ => ⟨trivial, trivial⟩) (by decide)
    apply Triple.unlock_bind hr (fun _ _ => ⟨trivial, trivial⟩) (by decide)
    apply Triple.unlock_bind hr (fun _ _ => ⟨trivial, trivial⟩) (by decide)
    exact triple_ofResult r fun _ h => h

end SendOut

end Programs

section Runs

variable {S S' : Pool} {s : InnerServer}

/-- A part that keeps to the protocol is a task that does. -/
theorem safe_spawn {t : Party} {I : InnerServer → Prop} {x : StepM Unit}
    (h : Does t [] I x [] fun _ _ => True) {S : Scene} (hS : I S.state) :
    (spawn x).Safe protocol (fun _ _ => True) t [] S (Lib.Pool.Rests protocol t) := by
  apply Triple.spawn h
  · exact fun p => lasts_ended (fun _ => lasts_const True) _
  · exact fun _ _ _ => trivial
  · intro p S hp
    refine ⟨trivial, ⟨.refl _, fun q hq => ?_⟩, trivial⟩
    rcases List.mem_append.mp hq with hq | hq
    · exact .inl hq
    · rw [List.mem_singleton.mp hq]
      exact .inr hp
  · exact hS

theorem safe_call (n : Nat) (call : Call) (S : Scene) :
    (spawn call.body).Safe protocol (fun _ _ => True) (.caller n) [] S
      (Lib.Pool.Rests protocol (.caller n)) := by
  cases call with
  | subscribe o sub c now => exact safe_spawn (does_subscribe sub now) trivial
  | unsubscribe unsub c => exact safe_spawn (does_unsubscribe unsub) trivial

/-- Every task keeps to the protocol, each subscription has its entries, and `send_out` has missed
none. -/
structure Orderly (S : Pool) : Prop where
  sound : ∃ held, S.Sound protocol (fun _ _ _ => True) held
  whole : Whole S.shared.state
  panics : ∀ p ∈ S.shared.panics, Unrelated p

theorem orderly_rest (h : Whole s) : Orderly (rest s) := by
  refine ⟨⟨fun _ => [], fun l t => ?_, fun _ => List.nodup_nil, fun _ => ⟨rfl, trivial⟩,
    fun _ _ => trivial⟩, h, nofun⟩
  exact iff_of_false nofun List.not_mem_nil

theorem Orderly.start {t : Party} {p : Prog Mutex Empty Scene Unit} (h : Orderly S)
    (hdone : S.rest t = .pure ())
    (hp : p.Safe protocol (fun _ _ => True) t [] S.shared (Lib.Pool.Rests protocol t)) :
    Orderly (S.start t p) := by
  obtain ⟨held, hsound⟩ := h.sound
  have hstart := hsound.start hdone fun _ => hp
  rw [Function.update_eq_self] at hstart
  exact ⟨⟨held, hstart⟩, h.whole, h.panics⟩

theorem Orderly.step (h : Orderly S) (hs : Step S S') : Orderly S' := by
  cases hs with
  | call call hdone => exact h.start hdone (safe_call _ call _)
  | pass o clock offset hdone =>
    have hpass : Does .sendOut [] Whole (Steps.sendOut o clock offset >>= fun _ => pure ()) []
        fun _ _ => True := (does_sendOut clock offset).bind fun _ => does_pure _ fun _ _ => trivial
    exact h.start hdone (safe_spawn hpass h.whole)
  | moves t hm =>
    obtain ⟨held, hsound⟩ := h.sound
    have hsound' := hsound.moves hm fun _ _ _ => trivial
    rcases hsound.allows_of_moves hm with heq | hallowed
    · exact ⟨hsound', heq ▸ h.whole, heq ▸ h.panics⟩
    · refine ⟨hsound', hallowed.fair.whole h.whole, fun p hp => ?_⟩
      exact (hallowed.panics p hp).elim (h.panics p) id

theorem Runs.orderly (run : Runs s S) (h : Whole s) : Orderly S := by
  induction run with
  | refl => exact orderly_rest h
  | tail _ hstep ih => exact ih.step hstep

end Runs

section Whole

variable {s s' : InnerServer} {e : Option Event}

theorem Whole.step (h : Whole s) (he : Effect s e s') : Whole s' := by
  intro i hi
  cases he with
  | subscribed =>
    rcases (AList.mem_insert _).mp hi with rfl | hi
    · exact ⟨(AList.mem_insert _).mpr (.inl rfl), (AList.mem_insert _).mpr (.inl rfl)⟩
    · have hold := h i hi
      exact ⟨(AList.mem_insert _).mpr (.inr hold.1), (AList.mem_insert _).mpr (.inr hold.2)⟩
  | unsubscribed =>
    obtain ⟨hne, hi⟩ := AList.mem_erase.mp hi
    have hold := h i hi
    exact ⟨AList.mem_erase.mpr ⟨hne, hold.1⟩, AList.mem_erase.mpr ⟨hne, hold.2⟩⟩
  | stamped => exact ⟨(AList.mem_insert _).mpr (.inr (h i hi).1), (h i hi).2⟩
  | valueQueued | batchesDropped | batchesSent =>
    exact ⟨(h i hi).1, (AList.mem_insert _).mpr (.inr (h i hi).2)⟩
  | _ => exact h i hi

theorem whole_of_reachable (h : Reachable s) : Whole s := by
  obtain ⟨u, run⟩ := h
  obtain ⟨es, hes, -⟩ := run.history
  exact hes.invariant Whole (fun _ => True) (fun _ _ => trivial) (fun _ _ _ he _ h => h.step he)
    nofun

end Whole

/-- However the calls and the loop interleave, each subscription has its timestamp and its queue,
and `send_out` misses neither. -/
theorem never_half_registered {s : InnerServer} {S : Pool} (hs : Reachable s) (run : Runs s S) :
    Whole S.shared.state ∧
      ∀ p ∈ S.shared.panics, p ≠ "Sub timestamp missing" ∧ p ≠ "Sub values did not exists" :=
  have h := run.orderly (whole_of_reachable hs)
  ⟨h.whole, h.panics⟩

section Play

/-- Who makes the next step. -/
inductive Turn where
  | call (n : Nat) (call : Call)
  | pass (clock : SendClock)
  | moves (t : Party)

def take (S : Pool) : Turn → Option Pool
  | .call n call =>
    if (S.rest (.caller n)).isDone then some (S.start (.caller n) (spawn call.body)) else none
  | .pass clock =>
    if (S.rest .sendOut).isDone then
      some (S.start .sendOut (spawn (Steps.sendOut .stored clock 0 >>= fun _ => pure ())))
    else
      none
  | .moves t => S.move 0 t

theorem step_of_take {S S' : Pool} {turn : Turn} (h : take S turn = some S') : Step S S' := by
  cases turn with
  | call n call =>
    simp only [take] at h
    split_ifs at h with hdone
    cases h
    exact .call call (Prog.eq_pure_of_isDone hdone)
  | pass clock =>
    simp only [take] at h
    split_ifs at h with hdone
    cases h
    exact .pass .stored clock 0 (Prog.eq_pure_of_isDone hdone)
  | moves t => exact .moves t (Lib.Pool.moves_of_move h)

/-- A second subscription to the topic. -/
def subscribeAgain : Call := .subscribe .stored ⟨1, {"n"}, none⟩ 1 0

/-- The loop takes its first guards while the call still has the one of the clients. -/
def interleaved : List Turn :=
  [.call 0 subscribeAgain] ++ List.replicate 22 (.moves (.caller 0)) ++
    [.pass lateClock] ++ List.replicate 4 (.moves .sendOut) ++
    List.replicate 8 (.moves (.caller 0)) ++ List.replicate 17 (.moves .sendOut)

theorem never_half_registered_interleaved :
    ∃ s S, stateAfter anyOp .stored subscribeAndSet = some s ∧ Runs s S ∧
      S.shared.state.subscriptions.keys = [1, 0] ∧ S.rest .sendOut = .pure () ∧
      Whole S.shared.state ∧
      ∀ p ∈ S.shared.panics, p ≠ "Sub timestamp missing" ∧ p ≠ "Sub values did not exists" := by
  have hrun : (stateAfter anyOp .stored subscribeAndSet).bind (fun s =>
      (interleaved.foldlM take (rest s)).map fun S =>
        (S.shared.state.subscriptions.keys, (S.rest .sendOut).isDone)) = some ([1, 0], true) := by
    decide +kernel
  obtain ⟨s, hs, hrun⟩ := Option.bind_eq_some_iff.mp hrun
  obtain ⟨S, hS, hview⟩ := Option.map_eq_some_iff.mp hrun
  obtain ⟨hkeys, hdone⟩ := Prod.mk.inj hview
  have run : Runs s S := by
    apply reflTransGen_foldlM _ hS
    exact fun _ _ _ => step_of_take
  exact ⟨s, S, hs, run, hkeys, Prog.eq_pure_of_isDone hdone,
    never_half_registered (reachable_stateAfter hs) run⟩

end Play

end NetTables.Server.Registration
