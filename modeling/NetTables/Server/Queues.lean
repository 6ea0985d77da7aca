import NetTables.Server.Frames
import NetTables.Server.Store
import Mathlib.Data.List.DropRight

namespace NetTables.Server

open Lib Lib.Fallible Spec

/-- The batches of one topic among those that `take_values` yields. -/
def StoredSubValue.batches (stored : StoredSubValue) (t : TopicIdx) :
    List (List ServerSendableValue) :=
  (stored.takeValues.1.filter fun e => e.1 = t).map Prod.snd

/-- `set_value` would return `Ok` here. -/
def InnerServer.accepts (s : InnerServer) (value : FrcTimestampedValue) (t : TopicIdx) : Bool :=
  match (setValue value t).exec s with
  | .ok (.ok (), _) => true
  | _ => false

/-- A pass with these clock readings calls `take_values` for this subscription: it wants values, its
period is not just over, and its client is there. -/
def InnerServer.takes (s : InnerServer) (clock : SendClock) (i : SubIdx) : Bool :=
  match s.subscriptions.lookup i, s.subSendTimestamps.lookup i with
  | some (subscription, clientIdx), some sendInstant =>
    let options := subscription.options.getD {}
    !options.topicsOnly.getD false &&
      !decide (|elapsed (clock.check i) sendInstant - options.periodic.getD (1 / 10)| < 1 / 1000) &&
      (s.clients.lookup clientIdx).isSome
  | _, _ => false

/-- The subscription stands in the list of the topic, and `set_value` accepts the value. -/
def InnerServer.queues (s : InnerServer) (value : FrcTimestampedValue) (t : TopicIdx) (i : SubIdx) :
    Bool :=
  decide (i ∈ (s.topicSubMap.lookup t).getD []) && s.accepts value t

theorem mem_getD_iff_listed {m : KeyMap TopicIdx (List SubIdx)} {t : TopicIdx} {i : SubIdx} :
    i ∈ (m.lookup t).getD [] ↔ Listed m t i := by
  cases h : m.lookup t <;> simp [Listed, h]

section Observed

variable (i : SubIdx) (t : TopicIdx)

/-- The values that a step of the record accepts on the topic while the subscription is listed
there. -/
def acceptedIn : InnerServer × Op → List ServerSendableValue
  | (s, .setValue value u) => if u = t ∧ s.queues value u i = true then [.normalValue value] else []
  | _ => []

/-- Whether a step of the record takes the subscription's values. -/
def takenIn : InnerServer × Op → Bool
  | (s, .sendOut clock _) => s.takes clock i
  | _ => false

/-- The batches that a step of the record takes for the subscription and the topic. -/
def batchesIn (e : InnerServer × Op) : List (List ServerSendableValue) :=
  if takenIn i e then
    match e.1.subValues.lookup i with
    | some stored => stored.batches t
    | none => []
  else
    []

def accepted (log : List (InnerServer × Op)) : List ServerSendableValue :=
  log.flatMap (acceptedIn i t)

def batches (log : List (InnerServer × Op)) : List (List ServerSendableValue) :=
  log.flatMap (batchesIn i t)

/-- The values accepted since the last time the subscription's values were taken. -/
def acceptedSince (log : List (InnerServer × Op)) : List ServerSendableValue :=
  accepted i t (log.rtakeWhile fun e => !takenIn i e)

end Observed

variable {s s' : InnerServer} {o : IterOrder} {t : TopicIdx} {i : SubIdx} {c : ClientIdx}
  {value : FrcTimestampedValue}

/-- What the fan-out of one value does to the queues: each listed one takes it once. -/
theorem ends_queueValues_once (subs : List SubIdx) (hnodup : subs.Nodup) :
    Ends (forEach subs (queueValue value t)) s fun r s' =>
      r = .ok () ∧ s'.subscriptions = s.subscriptions ∧ s'.clients = s.clients ∧
      s'.topicSubMap = s.topicSubMap ∧
      ∀ i, s'.subValues.lookup i = if i ∈ subs then
        (s.subValues.lookup i).map fun stored => stored.addValue t (.normalValue value)
      else
        s.subValues.lookup i := by
  refine ends_mono (ends_queueValues_count subs) ?_
  intro r s' h
  obtain ⟨hr, hrest, hqueues⟩ := h
  refine ⟨hr, by rw [hrest], by rw [hrest], by rw [hrest], fun i => ?_⟩
  rw [hqueues i]
  split_ifs with hi
  · rw [List.count_eq_one_of_mem hnodup hi, Function.iterate_one]
  · simp [List.count_eq_zero_of_not_mem hi]

theorem storeValue_frame :
    Ends (storeValue value t) s fun r s' => r = .ok () ∧ s'.subscriptions = s.subscriptions ∧
      s'.clients = s.clients ∧ s'.topicSubMap = s.topicSubMap ∧ s'.subValues = s.subValues := by
  simp only [storeValue, ends_bind, ends_get, thenEnds_ok]
  split
  · split_ifs
    · exact (ends_modify _).mpr ⟨rfl, rfl, rfl, rfl, rfl⟩
    · exact (ends_pure ()).mpr ⟨rfl, rfl, rfl, rfl, rfl⟩
  · exact (ends_modify _).mpr ⟨rfl, rfl, rfl, rfl, rfl⟩

/-- `set_value` either fails and changes nothing, or adds the value to each listed queue once. -/
theorem ends_setValue (honce : ∀ subs, s.topicSubMap.lookup t = some subs → subs.Nodup) :
    Ends (setValue value t) s fun r s' =>
      s'.subscriptions = s.subscriptions ∧ s'.clients = s.clients ∧
      s'.topicSubMap = s.topicSubMap ∧
      ((∃ e, r = .error e) ∧ s' = s ∨
        r = .ok () ∧ ∀ i, s'.subValues.lookup i = if i ∈ (s.topicSubMap.lookup t).getD [] then
          (s.subValues.lookup i).map fun stored => stored.addValue t (.normalValue value)
        else
          s.subValues.lookup i) := by
  simp only [setValue, ends_bind, ends_get, thenEnds_ok, ends_okOr, thenEnds_error]
  refine ⟨fun topic _ => ?_, fun _ => ⟨trivial, trivial, trivial, .inl ⟨⟨_, rfl⟩, trivial⟩⟩⟩
  split_ifs
  · exact (ends_throw _).mpr ⟨rfl, rfl, rfl, .inl ⟨⟨_, rfl⟩, rfl⟩⟩
  · simp only [ends_bind, ends_get, thenEnds_ok, ends_unwrapOr]
    intro subs hsubs
    refine ends_mono (ends_queueValues_once subs (honce subs hsubs)) ?_
    intro r s₁ h
    obtain ⟨rfl, hsubs₁, hclients₁, hlists₁, hvalues₁⟩ := h
    refine ends_mono storeValue_frame ?_
    intro r s₂ h
    obtain ⟨rfl, hsubs₂, hclients₂, hlists₂, hvalues₂⟩ := h
    refine ⟨hsubs₂.trans hsubs₁, hclients₂.trans hclients₁, hlists₂.trans hlists₁,
      .inr ⟨rfl, fun i => ?_⟩⟩
    rw [hvalues₂, hvalues₁ i, hsubs, Option.getD_some]

/-- What `set_value` does to one queue. -/
theorem setValue_queue (honce : ∀ subs, s.topicSubMap.lookup t = some subs → subs.Nodup)
    {r : Except NetworkTablesError Unit} (hx : (setValue value t).exec s = .ok (r, s'))
    {stored : StoredSubValue} (hi : s.subValues.lookup i = some stored) :
    s'.subValues.lookup i =
      some (if s.queues value t i then stored.addValue t (.normalValue value) else stored) := by
  obtain ⟨-, -, -, ⟨⟨e, rfl⟩, rfl⟩ | ⟨rfl, hvalues⟩⟩ := ends_of_exec (ends_setValue honce) hx
  · have haccepts : s'.accepts value t = false := by
      unfold InnerServer.accepts
      rw [hx]
    simp [InnerServer.queues, haccepts, hi]
  · have haccepts : s.accepts value t = true := by
      unfold InnerServer.accepts
      rw [hx]
    rw [hvalues i, hi]
    by_cases hmem : i ∈ (s.topicSubMap.lookup t).getD [] <;>
      simp [InnerServer.queues, haccepts, hmem]

section Pass

variable {clock : SendClock} {offset : ℚ} {sub : Subscription}

/-- What one turn of `send_out` does: it takes the values of its own subscription, if that is due, and
puts them on the channel of the subscription's client, if that is open. -/
structure Turned (s : InnerServer) (clock : SendClock) (i : SubIdx) (c : ClientIdx)
    (s' : InnerServer) : Prop where
  subscriptions : s'.subscriptions = s.subscriptions
  lists : s'.topicSubMap = s.topicSubMap
  others : ∀ j, j ≠ i → s'.subValues.lookup j = s.subValues.lookup j ∧
    s'.subSendTimestamps.lookup j = s.subSendTimestamps.lookup j
  clients : ∀ d, (s'.clients.lookup d).isSome = (s.clients.lookup d).isSome
  queue : ∀ stored, s.subValues.lookup i = some stored →
    s'.subValues.lookup i = some (if s.takes clock i then stored.takeValues.2 else stored)
  frames : ∃ added, (∀ d, s'.framesOn d = s.framesOn d ++ if d = c then added else []) ∧
    ∀ f ∈ added, ∃ stored u v, s.subValues.lookup i = some stored ∧
      .normalValue v ∈ stored.queued u ∧ f = ⟨u.toInt32, v⟩

theorem Turned.idle {s' : InnerServer} (htakes : s.takes clock i = false)
    (hsubs : s'.subscriptions = s.subscriptions) (hlists : s'.topicSubMap = s.topicSubMap)
    (hvalues : s'.subValues = s.subValues) (hclients : s'.clients = s.clients)
    (hstamps : ∀ j, j ≠ i → s'.subSendTimestamps.lookup j = s.subSendTimestamps.lookup j) :
    Turned s clock i c s' where
  subscriptions := hsubs
  lists := hlists
  others j hj := ⟨by rw [hvalues], hstamps j hj⟩
  clients d := by rw [hclients]
  queue stored hi := by simp [htakes, hvalues, hi]
  frames := ⟨[], fun d => by simp [InnerServer.framesOn, hclients], by simp⟩

theorem ends_sendBatch_ok (batch : TopicIdx × List ServerSendableValue) (s : InnerServer) :
    Ends (sendBatch c batch) s fun r _ => r = .ok () := by
  refine (ends_bind _ _).mpr (ends_mono ends_encodeBatch ?_)
  intro r u h
  obtain ⟨rfl, rfl⟩ := h
  exact (ends_attempt _).mpr fun _ _ _ => rfl

theorem mem_batchFrames {batch : TopicIdx × List ServerSendableValue} {f : ValueFrame} :
    f ∈ batchFrames batch ↔ ∃ v, .normalValue v ∈ batch.2 ∧ f = ⟨batch.1.toInt32, v⟩ := by
  rw [batchFrames, List.mem_map]
  constructor
  · intro h
    obtain ⟨⟨v⟩, hv, rfl⟩ := h
    exact ⟨v, hv, rfl⟩
  · intro h
    obtain ⟨v, hv, rfl⟩ := h
    exact ⟨_, hv, rfl⟩

theorem frames_binaries (l : List (TopicIdx × List ServerSendableValue)) :
    (l.map fun b => OutMessage.binary (batchFrames b)).flatMap OutMessage.frames =
      l.flatMap batchFrames := by
  rw [List.flatMap_map]
  rfl

/-- The sends of the batches of one subscription. -/
theorem ends_sendBatches {stored : StoredSubValue} {client : ConnectedClient} {s₀ : InnerServer}
    (htakes : s₀.takes clock i = true) (hstored : s₀.subValues.lookup i = some stored)
    (hc : s₀.clients.lookup c = some client) (hsubs : s.subscriptions = s₀.subscriptions)
    (hlists : s.topicSubMap = s₀.topicSubMap) (hclients : s.clients = s₀.clients)
    (hvalues : s.subValues = s₀.subValues.insert i stored.takeValues.2)
    (hstamps : ∀ j, j ≠ i → s.subSendTimestamps.lookup j = s₀.subSendTimestamps.lookup j) :
    Ends (forEach (o.arrange stored.takeValues.1) (sendBatch c)) s fun r s' =>
      r = .ok () ∧ Turned s₀ clock i c s' := by
  apply ends_and (ends_forEach_ok ends_sendBatch_ok _ _)
  have hc' : s.clients.lookup c = some client := by rw [hclients]; exact hc
  have hothers : ∀ j, j ≠ i → s.subValues.lookup j = s₀.subValues.lookup j := by
    intro j hj
    rw [hvalues, KeyMap.lookup_insert, if_neg hj]
  have hqueue : ∀ stored', s₀.subValues.lookup i = some stored' → s.subValues.lookup i =
      some (if s₀.takes clock i then stored'.takeValues.2 else stored') := by
    intro stored' h
    rw [hstored] at h
    cases h
    rw [hvalues, KeyMap.lookup_insert, if_pos rfl, if_pos htakes]
  have hsame : Turned s₀ clock i c s :=
    ⟨hsubs, hlists, fun j hj => ⟨hothers j hj, hstamps j hj⟩, fun d => by rw [hclients], hqueue,
      [], fun d => by simp [InnerServer.framesOn, hclients], by simp⟩
  by_cases hclosed : ∀ ch, client.subOuput = some ch → ch.isOpen = false
  · refine ends_mono (ends_sendBatches_dropped hc' hclosed) ?_
    rintro r u rfl
    exact hsame
  · push Not at hclosed
    obtain ⟨ch, hch, hopen⟩ := hclosed
    have hopen : ch.isOpen = true := by simpa using hopen
    by_cases hnil : o.arrange stored.takeValues.1 = []
    · rw [hnil]
      exact (ends_pure ()).mpr hsame
    · refine ends_mono (ends_sendBatches_sent hnil hc' hch hopen) ?_
      rintro r u rfl
      refine ⟨hsubs, hlists, hsame.others, fun d => ?_, hqueue,
        (o.arrange stored.takeValues.1).flatMap batchFrames, fun d => ?_, fun f hf => ?_⟩
      · rw [KeyMap.lookup_insert, hclients]
        split_ifs with hd
        · rw [hd, hc]
          rfl
        · rfl
      · rw [framesOn_insert]
        have hold : s.framesOn c = ch.sent.flatMap OutMessage.frames := by
          simp only [InnerServer.framesOn, hc', ConnectedClient.frames, hch]
        have hsame' : ∀ d, s.framesOn d = s₀.framesOn d := by
          intro d
          simp only [InnerServer.framesOn, hclients]
        split_ifs with hd
        · rw [hd, ← hsame', hold]
          simp only [ConnectedClient.frames, List.flatMap_append, frames_binaries]
        · rw [hsame', List.append_nil]
      · obtain ⟨b, hb, hf⟩ := List.mem_flatMap.mp hf
        obtain ⟨v, hv, rfl⟩ := mem_batchFrames.mp hf
        rw [o.mem_arrange] at hb
        exact ⟨stored, b.1, v, hstored, StoredSubValue.mem_takeValues hb ▸ hv, rfl⟩

theorem turned_sendTurn (hi : s.subscriptions.lookup i = some (sub, c)) :
    Ends (sendTurn o clock offset (i, sub, c)) s fun r s' =>
      (∃ b, r = .ok b) ∧ Turned s clock i c s' := by
  simp only [sendTurn]
  split_ifs with htopics
  · refine (ends_pure _).mpr ⟨⟨_, rfl⟩, .idle ?_ rfl rfl rfl rfl fun _ _ => rfl⟩
    unfold InnerServer.takes
    rw [hi]
    cases s.subSendTimestamps.lookup i <;> simp [htopics]
  simp only [ends_bind, ends_get, thenEnds_ok, ends_unwrapOr]
  intro since hsince
  split_ifs with hdue
  · refine (ends_pure _).mpr ⟨⟨_, rfl⟩, .idle ?_ rfl rfl rfl rfl fun _ _ => rfl⟩
    unfold InnerServer.takes
    rw [hi, hsince]
    simp only [hdue, decide_true, Bool.not_true, Bool.and_false, Bool.false_and]
  simp only [ends_bind, ends_get, thenEnds_ok, ends_modify]
  have hstamps : ∀ j, j ≠ i →
      (s.subSendTimestamps.insert i (clock.stamp i)).lookup j = s.subSendTimestamps.lookup j := by
    intro j hj
    rw [KeyMap.lookup_insert, if_neg hj]
  cases hc : s.clients.lookup c with
  | none =>
    refine (ends_pure _).mpr ⟨⟨_, rfl⟩, .idle ?_ rfl rfl rfl rfl hstamps⟩
    unfold InnerServer.takes
    rw [hi, hsince]
    simp [hc]
  | some client =>
    have htakes : s.takes clock i = true := by
      unfold InnerServer.takes
      rw [hi, hsince]
      simpa [htopics, hc] using hdue
    simp only [ends_bind, ends_unwrapOr, thenEnds_ok, ends_modify, ends_get]
    intro stored hstored
    refine ends_mono (ends_sendBatches htakes hstored hc rfl rfl rfl rfl hstamps) ?_
    intro r u h
    obtain ⟨rfl, hturned⟩ := h
    exact (ends_pure _).mpr ⟨⟨_, rfl⟩, hturned⟩

/-- The state of a pass that has these subscriptions still to come. -/
structure Passing (s : InnerServer) (clock : SendClock)
    (rest : List (SubIdx × (Subscription × ClientIdx))) (u : InnerServer) : Prop where
  subscriptions : u.subscriptions = s.subscriptions
  lists : u.topicSubMap = s.topicSubMap
  clients : ∀ d, (u.clients.lookup d).isSome = (s.clients.lookup d).isSome
  stamps : ∀ i, i ∈ rest.map Prod.fst →
    u.subSendTimestamps.lookup i = s.subSendTimestamps.lookup i
  queue : ∀ i stored, s.subValues.lookup i = some stored → u.subValues.lookup i =
    some (if i ∉ rest.map Prod.fst ∧ s.takes clock i = true then stored.takeValues.2 else stored)
  frames : ∀ d, ∃ added, u.framesOn d = s.framesOn d ++ added ∧ ∀ f ∈ added, ∃ i sub stored t v,
    s.subscriptions.lookup i = some (sub, d) ∧ s.subValues.lookup i = some stored ∧
    .normalValue v ∈ stored.queued t ∧ f = ⟨t.toInt32, v⟩

theorem takes_congr {u : InnerServer} (hsubs : u.subscriptions = s.subscriptions)
    (hstamp : u.subSendTimestamps.lookup i = s.subSendTimestamps.lookup i)
    (hclients : ∀ d, (u.clients.lookup d).isSome = (s.clients.lookup d).isSome) :
    u.takes clock i = s.takes clock i := by
  unfold InnerServer.takes
  rw [hsubs, hstamp]
  cases s.subscriptions.lookup i with
  | none => rfl
  | some entry =>
    cases s.subSendTimestamps.lookup i with
    | none => rfl
    | some since => simp only [hclients]

theorem Passing.turn {u u' : InnerServer} {rest : List (SubIdx × (Subscription × ClientIdx))}
    (h : Passing s clock ((i, sub, c) :: rest) u) (hnodup : i ∉ rest.map Prod.fst)
    (hi : s.subscriptions.lookup i = some (sub, c)) (hvalues : i ∈ s.subValues)
    (ht : Turned u clock i c u') : Passing s clock rest u' where
  subscriptions := ht.subscriptions.trans h.subscriptions
  lists := ht.lists.trans h.lists
  clients d := (ht.clients d).trans (h.clients d)
  stamps j hj := by
    have hne : j ≠ i := fun heq => hnodup (heq ▸ hj)
    rw [(ht.others j hne).2]
    exact h.stamps j (List.mem_cons_of_mem _ hj)
  queue j stored hj := by
    have hold := h.queue j stored hj
    by_cases heq : j = i
    · subst heq
      have hmem : j ∈ ((j, sub, c) :: rest).map Prod.fst := List.mem_cons_self ..
      rw [if_neg fun hand => hand.1 hmem] at hold
      rw [ht.queue stored hold, takes_congr h.subscriptions (h.stamps j hmem) h.clients]
      simp only [hnodup, not_false_iff, true_and]
    · rw [(ht.others j heq).1, hold]
      simp only [List.map_cons, List.mem_cons, heq, false_or]
  frames d := by
    obtain ⟨added, happ, hadded⟩ := h.frames d
    obtain ⟨more, hmore, hfrom⟩ := ht.frames
    refine ⟨added ++ if d = c then more else [], ?_, fun f hf => ?_⟩
    · rw [hmore d, happ, List.append_assoc]
    · rcases List.mem_append.mp hf with hf | hf
      · exact hadded f hf
      · split_ifs at hf with hd
        · obtain ⟨stored, t, v, hstored, hv, rfl⟩ := hfrom f hf
          subst hd
          obtain ⟨stored₀, hs₀⟩ := (KeyMap.mem_iff_lookup _ _).mp hvalues
          have hold := h.queue i stored₀ hs₀
          have hmem : i ∈ ((i, sub, d) :: rest).map Prod.fst := List.mem_cons_self ..
          rw [if_neg fun hand => hand.1 hmem, hstored] at hold
          cases hold
          exact ⟨i, sub, stored, t, v, hi, hs₀, hv, rfl⟩
        · cases hf

/-- A whole pass: every subscription that is due loses what was queued, and every value message put
on a channel was queued for a subscription of that client. -/
theorem passing_sendOut (hvalues : ∀ i, i ∈ s.subscriptions → i ∈ s.subValues) :
    Ends (sendOut o clock offset) s fun _ s' => Passing s clock [] s' := by
  simp only [sendOut, ends_bind, ends_get, thenEnds_ok]
  have hstart : Passing s clock (o.walk s.subscriptions) s := by
    refine ⟨rfl, rfl, fun _ => rfl, fun _ _ => rfl, fun i stored hi => ?_, fun d => ?_⟩
    · rw [if_neg, hi]
      intro h
      obtain ⟨hnot, htakes⟩ := h
      apply hnot
      unfold InnerServer.takes at htakes
      cases hsub : s.subscriptions.lookup i with
      | none =>
        rw [hsub] at htakes
        cases htakes
      | some entry => exact List.mem_map.mpr ⟨(i, entry), (o.mem_walk _ _ _).mpr hsub, rfl⟩
    · exact ⟨[], by simp, by simp⟩
  have hloop := ends_foldEach
    (fun rest _ u => Passing s clock rest u ∧ (rest.map Prod.fst).Nodup ∧
      ∀ e ∈ rest, s.subscriptions.lookup e.1 = some e.2)
    (fun _ u => Passing s clock [] u) (sendTurn o clock) (by
      rintro ⟨i, sub, c⟩ rest b u ⟨hu, hnodup, hrest⟩
      obtain ⟨hfresh, hnodup⟩ := List.nodup_cons.mp hnodup
      have hi : s.subscriptions.lookup i = some (sub, c) := hrest _ (List.mem_cons_self ..)
      have hi' : u.subscriptions.lookup i = some (sub, c) := by rw [hu.subscriptions, hi]
      have hmem := hvalues i ((KeyMap.mem_iff_lookup _ _).mpr ⟨_, hi⟩)
      refine ends_mono (turned_sendTurn hi') ?_
      intro r u' h
      obtain ⟨⟨b', rfl⟩, ht⟩ := h
      exact ⟨hu.turn hfresh hi hmem ht, hnodup, fun e he => hrest e (List.mem_cons_of_mem _ he)⟩)
    (o.walk s.subscriptions) offset s
    ⟨hstart, o.nodup_walk _, fun e he => (o.mem_walk _ _ _).mp he⟩
  refine ends_mono hloop ?_
  intro result u hu
  obtain e | b := result
  · exact hu
  · exact hu.1

end Pass

/-- What an operation makes of the queue of a subscription that stays. -/
def InnerServer.nextQueue (s : InnerServer) (i : SubIdx) (stored : StoredSubValue) :
    Op → StoredSubValue
  | .setValue value t =>
    if s.queues value t i then stored.addValue t (.normalValue value) else stored
  | .sendOut clock _ => if s.takes clock i then stored.takeValues.2 else stored
  | _ => stored

/-- A subscription after a step: a new one, with an empty queue, or an old one, whose queue the step
has brought up to date. -/
theorem Step.queue {op : Op} {sub : Subscription} (h : Step s op s') (hs : Stored s)
    (hn : Numbered s) (hi : s'.subscriptions.lookup i = some (sub, c)) :
    (i = s.counters.subIdx ∧ (∃ sub c now, op = .subscribe sub c now) ∧
      s'.subValues.lookup i =
        some (if sub.getOptions.all.getD false then .newAll else .newOne)) ∨
    s.subscriptions.lookup i = some (sub, c) ∧ ∃ stored, s.subValues.lookup i = some stored ∧
      s'.subValues.lookup i = some (s.nextQueue i stored op) := by
  have hqueue : ∀ i entry, s.subscriptions.lookup i = some entry →
      ∃ stored, s.subValues.lookup i = some stored := by
    intro i entry hi
    apply (KeyMap.mem_iff_lookup _ _).mp
    exact (hs.values i).mpr ((KeyMap.mem_iff_lookup _ _).mpr ⟨entry, hi⟩)
  have hcalm : ¬op.Handles → s.subscriptions.lookup i = some (sub, c) ∧
      ∃ stored, s.subValues.lookup i = some stored ∧ s'.subValues.lookup i = some stored := by
    intro hop
    obtain ⟨o, r, hx⟩ := h
    have hcalm := ends_of_exec (calm_perform op hop s) hx
    rw [hcalm.subscriptions] at hi
    obtain ⟨stored, hstored⟩ := hqueue i _ hi
    exact ⟨hi, stored, hstored, by rw [hcalm.values, hstored]⟩
  cases op with
  | subscribe msg d now =>
    obtain ⟨o, r, hx⟩ := h
    rcases ends_of_exec effect_subscribe hx with rfl | he
    · obtain ⟨stored, hstored⟩ := hqueue i _ hi
      exact .inr ⟨hi, stored, hstored, hstored⟩
    · cases he with
      | subscribed sub₀ now stored interest messages frames hc hinterest hlists hstored =>
        simp only [KeyMap.lookup_insert] at hi ⊢
        by_cases heq : i = s.counters.subIdx
        · rw [if_pos heq] at hi ⊢
          cases hi
          exact .inl ⟨heq, ⟨msg, d, _, rfl⟩, congrArg some hstored⟩
        · simp only [if_neg heq] at hi ⊢
          obtain ⟨stored, hstored⟩ := hqueue i _ hi
          exact .inr ⟨hi, stored, hstored, hstored⟩
      | subscribeFailed ts he hmissing => exact (hmissing (hn.map_listed _ _ he)).elim
  | unsubscribe msg d =>
    obtain ⟨o, r, hx⟩ := h
    have hends : Ends (unsubscribe msg d) s fun _ s' =>
        ∀ entry, s'.subscriptions.lookup i = some entry →
          s.subscriptions.lookup i = some entry ∧ s'.subValues.lookup i = s.subValues.lookup i := by
      simp only [unsubscribe, ends_bind, ends_get, thenEnds_ok, ends_okOr, thenEnds_error,
        ends_modify, putClient]
      refine ⟨fun client hc => ⟨fun j hj => ?_, fun _ _ h => ⟨h, trivial⟩⟩, fun _ _ h => ⟨h, trivial⟩⟩
      intro entry hi
      rw [KeyMap.lookup_erase] at hi ⊢
      split_ifs at hi ⊢
      exact ⟨hi, rfl⟩
    obtain ⟨hi, hsame⟩ := ends_of_exec hends hx _ hi
    obtain ⟨stored, hstored⟩ := hqueue i _ hi
    exact .inr ⟨hi, stored, hstored, hsame.trans hstored⟩
  | setValue value t =>
    obtain ⟨o, r, hx⟩ := h
    have hsubs := (ends_of_exec (ends_setValue fun subs hl => hs.once t subs hl) hx).1
    rw [hsubs] at hi
    obtain ⟨stored, hstored⟩ := hqueue i _ hi
    exact .inr ⟨hi, stored, hstored, setValue_queue (fun subs hl => hs.once t subs hl) hx hstored⟩
  | sendOut clock offset =>
    obtain ⟨o, r, hx⟩ := h
    have hpass : Ends (ignoring (sendOut o clock offset)) s fun _ s' => Passing s clock [] s' :=
      ends_ignoring (passing_sendOut fun i hi => (hs.values i).mpr hi)
    have hpass := ends_of_exec hpass hx
    rw [hpass.subscriptions] at hi
    obtain ⟨stored, hstored⟩ := hqueue i _ hi
    refine .inr ⟨hi, stored, hstored, ?_⟩
    rw [hpass.queue i stored hstored]
    simp [InnerServer.nextQueue]
  | _ => exact .inr (hcalm id)

namespace StoredSubValue

variable {stored : StoredSubValue}

/-- Keeps every value, not only the latest of each topic. -/
def isAll : StoredSubValue → Bool
  | all _ => true
  | one _ => false

@[simp] theorem isAll_takeValues (stored : StoredSubValue) :
    stored.takeValues.2.isAll = stored.isAll := by
  cases stored <;> rfl

@[simp] theorem isAll_addValue (stored : StoredSubValue) (t : TopicIdx) (v : ServerSendableValue) :
    (stored.addValue t v).isAll = stored.isAll := by
  cases stored with
  | all map => cases h : map.lookup t <;> simp [addValue, isAll, h]
  | one map => rfl

theorem queued_addValue_all (h : stored.isAll = true) (t u : TopicIdx) (v : ServerSendableValue) :
    (stored.addValue u v).queued t = stored.queued t ++ if u = t then [v] else [] := by
  cases stored with
  | one map => cases h
  | all map =>
    by_cases hu : t = u
    · subst hu
      cases hm : map.lookup t <;> simp [addValue, queued, hm]
    · have hu' : ¬u = t := fun heq => hu heq.symm
      cases hm : map.lookup u <;> simp [addValue, queued, hm, hu, hu']

theorem queued_addValue_one (h : stored.isAll = false) (t u : TopicIdx) (v : ServerSendableValue) :
    (stored.addValue u v).queued t = if u = t then [v] else stored.queued t := by
  cases stored with
  | all map => cases h
  | one map =>
    by_cases hu : t = u
    · subst hu
      simp [addValue, queued]
    · have hu' : ¬u = t := fun heq => hu heq.symm
      simp [addValue, queued, hu, hu']

theorem flatten_batches (h : stored.isAll = true) (t : TopicIdx) :
    (stored.batches t).flatten = stored.queued t := by
  cases stored with
  | one map => cases h
  | all map =>
    simp only [batches, takeValues, KeyMap.filter_pairs, queued]
    cases map.lookup t <;> simp

theorem batches_one (h : stored.isAll = false) (t : TopicIdx) :
    stored.batches t = (stored.queued t).map fun v => [v] := by
  cases stored with
  | all map => cases h
  | one map =>
    have hfilter := KeyMap.filter_pairs map t
    simp only [batches, takeValues, List.filter_map, List.map_map, queued]
    have hsame : (map.pairs.filter ((fun e : TopicIdx × List ServerSendableValue =>
        decide (e.1 = t)) ∘ fun e => (e.1, [e.2]))) = map.pairs.filter fun e => e.1 = t := rfl
    rw [hsame, hfilter, List.map_map]
    rfl

end StoredSubValue

/-- What the record of a run says of the queues: nothing is lost, doubled or moved. -/
structure Conserved (log : List (InnerServer × Op)) (s : InnerServer) : Prop where
  fresh : ∀ i, s.counters.subIdx.toNat ≤ i.toNat →
    (∀ t, accepted i t log = []) ∧ ∀ e ∈ log, takenIn i e = false
  kind : ∀ i sub c stored, s.subscriptions.lookup i = some (sub, c) →
    s.subValues.lookup i = some stored → stored.isAll = sub.getOptions.all.getD false
  all : ∀ i sub c stored, s.subscriptions.lookup i = some (sub, c) →
    s.subValues.lookup i = some stored → stored.isAll = true →
    ∀ t, (batches i t log).flatten ++ stored.queued t = accepted i t log
  one : ∀ i sub c stored, s.subscriptions.lookup i = some (sub, c) →
    s.subValues.lookup i = some stored → stored.isAll = false →
    ∀ t, stored.queued t = (acceptedSince i t log).getLast?.toList
  latest : ∀ i sub c, s.subscriptions.lookup i = some (sub, c) →
    sub.getOptions.all.getD false = false →
    ∀ log₁ e log₂, log = log₁ ++ e :: log₂ → takenIn i e = true →
    ∀ t, batchesIn i t e = (acceptedSince i t log₁).getLast?.toList.map fun v => [v]

section Conserved

variable {log : List (InnerServer × Op)} {op : Op} {sub : Subscription} {stored : StoredSubValue}

@[simp] theorem accepted_snoc (e : InnerServer × Op) :
    accepted i t (log ++ [e]) = accepted i t log ++ acceptedIn i t e := by
  simp [accepted]

@[simp] theorem batches_snoc (e : InnerServer × Op) :
    batches i t (log ++ [e]) = batches i t log ++ batchesIn i t e := by
  simp [batches]

theorem acceptedSince_snoc (e : InnerServer × Op) :
    acceptedSince i t (log ++ [e]) =
      if takenIn i e then [] else acceptedSince i t log ++ acceptedIn i t e := by
  unfold acceptedSince
  split_ifs with h
  · rw [List.rtakeWhile_concat_neg _ _ _ (by simp [h])]
    rfl
  · rw [List.rtakeWhile_concat_pos _ _ _ (by simp [h]), accepted_snoc]

/-- An index that is not given out yet is in no list and takes nothing. -/
theorem unused_step (op : Op) (hs : Stored s) (hi : s.counters.subIdx.toNat ≤ i.toNat) :
    (∀ t, acceptedIn i t (s, op) = []) ∧ takenIn i (s, op) = false := by
  have hnone : i ∉ s.subscriptions := fun hmem => by
    have hlt := hs.lt i hmem
    omega
  constructor
  · intro t
    cases op with
    | setValue value u =>
      have hlist : i ∉ (s.topicSubMap.lookup u).getD [] :=
        fun hmem => hnone (hs.listed u i (mem_getD_iff_listed.mp hmem))
      simp [acceptedIn, InnerServer.queues, hlist]
    | _ => rfl
  · cases op with
    | sendOut clock offset =>
      have hlookup : s.subscriptions.lookup i = none := by
        cases h : s.subscriptions.lookup i with
        | none => rfl
        | some entry => exact (hnone ((KeyMap.mem_iff_lookup _ _).mpr ⟨entry, h⟩)).elim
      simp only [takenIn, InnerServer.takes, hlookup]
    | _ => rfl

/-- One step of a queue that keeps all values. -/
theorem all_step (hstored : s.subValues.lookup i = some stored) (hall : stored.isAll = true)
    (h : (batches i t log).flatten ++ stored.queued t = accepted i t log) :
    (batches i t (log ++ [(s, op)])).flatten ++ (s.nextQueue i stored op).queued t =
      accepted i t (log ++ [(s, op)]) := by
  rw [batches_snoc, accepted_snoc, ← h, List.flatten_append]
  cases op with
  | setValue value u =>
    by_cases hq : s.queues value u i = true
    · simp [batchesIn, takenIn, acceptedIn, InnerServer.nextQueue, hq,
        StoredSubValue.queued_addValue_all hall]
    · simp [batchesIn, takenIn, acceptedIn, InnerServer.nextQueue, hq]
  | sendOut clock offset =>
    by_cases hq : s.takes clock i = true
    · simp [batchesIn, takenIn, acceptedIn, InnerServer.nextQueue, hq, hstored,
        StoredSubValue.flatten_batches hall]
    · simp [batchesIn, takenIn, acceptedIn, InnerServer.nextQueue, hq]
  | _ => simp [batchesIn, takenIn, acceptedIn, InnerServer.nextQueue]

/-- One step of a queue that keeps the latest value. -/
theorem one_step (hone : stored.isAll = false)
    (h : stored.queued t = (acceptedSince i t log).getLast?.toList) :
    (s.nextQueue i stored op).queued t =
      (acceptedSince i t (log ++ [(s, op)])).getLast?.toList := by
  rw [acceptedSince_snoc]
  cases op with
  | setValue value u =>
    by_cases hq : s.queues value u i = true
    · simp only [takenIn, acceptedIn, InnerServer.nextQueue, hq, if_true, and_true,
        StoredSubValue.queued_addValue_one hone]
      by_cases hu : u = t
      · simp [hu]
      · simp [hu, h]
    · simp [takenIn, acceptedIn, InnerServer.nextQueue, hq, h]
  | sendOut clock offset =>
    by_cases hq : s.takes clock i = true
    · simp [takenIn, InnerServer.nextQueue, hq]
    · simp [takenIn, acceptedIn, InnerServer.nextQueue, hq, h]
  | _ => simp [takenIn, acceptedIn, InnerServer.nextQueue, h]

theorem isAll_nextQueue : (s.nextQueue i stored op).isAll = stored.isAll := by
  cases op with
  | setValue value u =>
    simp only [InnerServer.nextQueue]
    split_ifs <;> simp
  | sendOut clock offset =>
    simp only [InnerServer.nextQueue]
    split_ifs <;> simp
  | _ => rfl

/-- The subscription of a new index: nothing was accepted for it and nothing taken. -/
theorem fresh_snoc (op : Op) (h : Conserved log s) (hs : Stored s)
    (hi : s.counters.subIdx.toNat ≤ i.toNat) :
    (∀ t, accepted i t (log ++ [(s, op)]) = []) ∧ ∀ e ∈ log ++ [(s, op)], takenIn i e = false := by
  obtain ⟨hnone, htaken⟩ := h.fresh i hi
  obtain ⟨hnone', htaken'⟩ := unused_step op hs hi
  refine ⟨fun t => by rw [accepted_snoc, hnone, hnone', List.append_nil], fun e he => ?_⟩
  rcases List.mem_append.mp he with he | he
  · exact htaken e he
  · rw [List.mem_singleton.mp he]
    exact htaken'

theorem batches_untaken (h : ∀ e ∈ log, takenIn i e = false) : batches i t log = [] := by
  unfold batches
  rw [List.flatMap_eq_nil_iff]
  intro e he
  simp [batchesIn, h e he]

theorem acceptedSince_of_accepted (h : accepted i t log = []) : acceptedSince i t log = [] := by
  unfold acceptedSince accepted at *
  rw [List.flatMap_eq_nil_iff] at h ⊢
  exact fun e he => h e (List.IsSuffix.mem he (List.rtakeWhile_suffix ..))

theorem Conserved.step (h : Conserved log s) (hs : Stored s) (hn : Numbered s)
    (hop : Step s op s') (hidx : s.counters.subIdx.toNat ≤ s'.counters.subIdx.toNat) :
    Conserved (log ++ [(s, op)]) s' := by
  have hnew : ∀ i, i = s.counters.subIdx → s.counters.subIdx.toNat ≤ i.toNat :=
    fun i hi => hi ▸ le_refl _
  refine ⟨fun i hi => fresh_snoc op h hs (hidx.trans hi), fun i sub c stored' hi hstored' => ?_,
    fun i sub c stored' hi hstored' hall t => ?_, fun i sub c stored' hi hstored' hone t => ?_,
    fun i sub c hi hone log₁ e log₂ hlog htaken t => ?_⟩
  · rcases hop.queue hs hn hi with ⟨-, -, hqueue⟩ | ⟨hold, stored, hstored, hqueue⟩
    · rw [hstored'] at hqueue
      cases hqueue
      split_ifs with hall <;> simp [hall, StoredSubValue.isAll, StoredSubValue.newAll,
        StoredSubValue.newOne]
    · rw [hstored'] at hqueue
      cases hqueue
      rw [isAll_nextQueue]
      exact h.kind i sub c stored hold hstored
  · rcases hop.queue hs hn hi with ⟨hidx, -, hqueue⟩ | ⟨hold, stored, hstored, hqueue⟩
    · obtain ⟨hnone, huntaken⟩ := fresh_snoc op h hs (hnew i hidx)
      rw [hstored'] at hqueue
      cases hqueue
      rw [hnone, batches_untaken huntaken]
      split_ifs <;> simp
    · rw [hstored'] at hqueue
      cases hqueue
      rw [isAll_nextQueue] at hall
      exact all_step hstored hall (h.all i sub c stored hold hstored hall t)
  · rcases hop.queue hs hn hi with ⟨hidx, -, hqueue⟩ | ⟨hold, stored, hstored, hqueue⟩
    · obtain ⟨hnone, -⟩ := fresh_snoc op h hs (hnew i hidx)
      rw [hstored'] at hqueue
      cases hqueue
      rw [acceptedSince_of_accepted (hnone t)]
      split_ifs <;> simp
    · rw [hstored'] at hqueue
      cases hqueue
      rw [isAll_nextQueue] at hone
      exact one_step hone (h.one i sub c stored hold hstored hone t)
  · rcases hop.queue hs hn hi with ⟨hidx, -, -⟩ | ⟨hold, stored, hstored, -⟩
    · have huntaken := (fresh_snoc op h hs (hnew i hidx)).2 e (by rw [hlog]; simp)
      rw [htaken] at huntaken
      cases huntaken
    · -- the taking step is the last one, or an earlier one
      rcases List.eq_nil_or_concat log₂ with rfl | ⟨log₃, e', rfl⟩
      · obtain ⟨rfl, he⟩ := List.append_inj' hlog rfl
        cases he
        have hkind : stored.isAll = false := by
          rw [h.kind i sub c stored hold hstored, hone]
        rw [batchesIn, if_pos htaken, hstored]
        dsimp only
        rw [StoredSubValue.batches_one hkind, h.one i sub c stored hold hstored hkind t]
      · have hlog' : log = log₁ ++ e :: log₃ := by
          have happ : log ++ [(s, op)] = (log₁ ++ e :: log₃) ++ [e'] := by simp [hlog]
          exact (List.append_inj' happ rfl).1
        exact h.latest i sub c hold hone log₁ e log₃ hlog' htaken t

theorem conserved_start (hs : s.subscriptions = ∅) : Conserved [] s := by
  refine ⟨fun i _ => ⟨fun _ => rfl, by simp⟩, ?_, ?_, ?_, ?_⟩
  · intro i sub c stored hi
    rw [hs] at hi
    cases hi
  · intro i sub c stored hi
    rw [hs] at hi
    cases hi
  · intro i sub c stored hi
    rw [hs] at hi
    cases hi
  · intro i sub c hi
    rw [hs] at hi
    cases hi

theorem Init.subscriptions (h : Init s) : s.subscriptions = ∅ := by
  rw [h.eq_started]
  rfl

/-- In a run that creates fewer than 2^32 topics and subscriptions, a subscription with the option
`all` is sent or still has queued exactly what was accepted for it, in order; any other is sent the
last value accepted since its values were last taken, if there is one. -/
theorem queues_conserve {u : Kind → Nat} (run : LoggedRuns u (log, s)) (htopic : u .topic < 2 ^ 32)
    (hsub : u .sub < 2 ^ 32) (hi : s.subscriptions.lookup i = some (sub, c)) (t : TopicIdx) :
    (sub.getOptions.all.getD false = true → ∃ stored, s.subValues.lookup i = some stored ∧
      (batches i t log).flatten ++ stored.queued t = accepted i t log) ∧
    (sub.getOptions.all.getD false = false → ∀ log₁ e log₂, log = log₁ ++ e :: log₂ →
      takenIn i e = true →
      batchesIn i t e = (acceptedSince i t log₁).getLast?.toList.map fun v => [v]) := by
  have hcons : Conserved log s := by
    have hinv := run.invariant
      (fun u p => u .topic < 2 ^ 32 → u .sub < 2 ^ 32 → Conserved p.1 p.2) ?_ ?_
    · exact hinv htopic hsub
    · rintro ⟨log, s⟩ ⟨rfl, hinit⟩ - -
      exact conserved_start hinit.subscriptions
    · rintro u ⟨log, s⟩ op ⟨log', s'⟩ run ih - ⟨hop, rfl⟩ htopic hsub
      rw [Pi.add_apply] at htopic hsub
      have hrun : Runs u s := Lib.Run.Logged.run (p := (log, s)) run
      have hstored := hrun.stored (lt_of_le_of_lt (Nat.le_add_right ..) htopic)
        (lt_of_le_of_lt (Nat.le_add_right ..) hsub)
      have hidx := hop.counters hrun hsub
      apply (ih (lt_of_le_of_lt (Nat.le_add_right ..) htopic)
        (lt_of_le_of_lt (Nat.le_add_right ..) hsub)).step hstored.2 hstored.1 hop
      have hidx : s'.counters.subIdx.toNat = s.counters.subIdx.toNat + created s s' .sub := hidx
      show s.counters.subIdx.toNat ≤ s'.counters.subIdx.toNat
      omega
  have hrun : Runs u s := Lib.Run.Logged.run (p := (log, s)) run
  obtain ⟨hn, hs⟩ := hrun.stored htopic hsub
  constructor
  · intro hall
    have hmem := (hs.values i).mpr ((KeyMap.mem_iff_lookup _ _).mpr ⟨_, hi⟩)
    obtain ⟨stored, hstored⟩ := (KeyMap.mem_iff_lookup _ _).mp hmem
    have hkind := hcons.kind i sub c stored hi hstored
    exact ⟨stored, hstored, hcons.all i sub c stored hi hstored (hkind.trans hall) t⟩
  · intro hone log₁ e log₂ hlog htaken
    exact hcons.latest i sub c hi hone log₁ e log₂ hlog htaken t

/-- A subscription to every value of a topic: two values are sent, a third is still queued. -/
def subscribeToAll : List Op :=
  [.innerPublishTopic ⟨"n", 0, "int", none⟩ serverClientIdx,
    .connectClient ⟨.v4 10 0 0 2 5810, "a"⟩, .subscribe ⟨0, {"n"}, some { all := some true }⟩ 1 0,
    .setValue ⟨7, ⟨.int, .integer 1⟩⟩ 3, .setValue ⟨8, ⟨.int, .integer 2⟩⟩ 3,
    .sendOut lateClock 0, .setValue ⟨9, ⟨.int, .integer 3⟩⟩ 3]

theorem queues_conserve_subscribeToAll :
    ∃ s stored, stateAfter anyOp .stored subscribeToAll = some s ∧
      s.subValues.lookup 0 = some stored ∧
      (batches 0 3 (recordAfter .stored subscribeToAll)).flatten ++ stored.queued 3 =
        accepted 0 3 (recordAfter .stored subscribeToAll) ∧
      ((batches 0 3 (recordAfter .stored subscribeToAll)).map List.length) = [2] ∧
      (accepted 0 3 (recordAfter .stored subscribeToAll)).length = 3 := by
  have hrun : (stateAfter anyOp .stored subscribeToAll).bind (fun s =>
      (s.subscriptions.lookup 0).map fun e => (e.1.getOptions.all.getD false, e.2)) =
      some (true, 1) := by decide +kernel
  obtain ⟨s, hs, hview⟩ := Option.bind_eq_some_iff.mp hrun
  obtain ⟨⟨sub, c⟩, hi, hview⟩ := Option.map_eq_some_iff.mp hview
  obtain ⟨hall, -⟩ := Prod.mk.inj hview
  obtain ⟨u, run, hu⟩ := logged_stateAfter hs
  have htopic : u .topic < 2 ^ 32 := (hu .topic).trans_lt (by decide)
  have hsub : u .sub < 2 ^ 32 := (hu .sub).trans_lt (by decide)
  obtain ⟨stored, hstored, hqueue⟩ := (queues_conserve run htopic hsub hi 3).1 hall
  exact ⟨s, stored, hs, hstored, hqueue, by decide +kernel, by decide +kernel⟩

end Conserved

end NetTables.Server
