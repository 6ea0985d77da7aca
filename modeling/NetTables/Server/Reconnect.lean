import NetTables.Server.Delivery

namespace NetTables.Server

open Lib Lib.Fallible Spec

/-- A client that comes and goes. -/
def visitor : ClientIdentity := ⟨.v4 10 0 0 2 5810, "a"⟩

/-- A state with the visitor away that looks like `s₀` but for the connections made. -/
structure Away (s₀ s : InnerServer) : Prop where
  topics : s.topics = s₀.topics
  topicMap : s.topicMap = s₀.topicMap
  topicValueMap : s.topicValueMap = s₀.topicValueMap
  topicSubMap : s.topicSubMap = s₀.topicSubMap
  subscriptions : s.subscriptions = s₀.subscriptions
  subSendTimestamps : s.subSendTimestamps = s₀.subSendTimestamps
  subValues : s.subValues = s₀.subValues
  topicIdx : s.counters.topicIdx = s₀.counters.topicIdx
  subIdx : s.counters.subIdx = s₀.counters.subIdx
  absent : s.clientMap.lookup visitor = none
  nameless : ∀ c client, s.clients.lookup c = some client → client.identity.name = ""

/-- The server with the visitor back, its metatopics known from an earlier visit. -/
def InnerServer.visited (s : InnerServer) (own : TopicIdx × TopicIdx) : InnerServer :=
  { (s.withClient visitor).withClientEntry visitor with
    clientMetatopicMap := s.clientMetatopicMap.insert s.counters.clientIdx own }

section Visit

variable {s₀ s : InnerServer} {own : TopicIdx × TopicIdx}

theorem uniqueIdentity_visitor (h : Away s₀ s) : uniqueIdentity s visitor = visitor := by
  have hnone : instancesOfIdent s visitor = 0 := by
    refine List.countP_eq_zero.mpr fun e he => ?_
    have hname := h.nameless e.1 e.2 ((KeyMap.mem_pairs _ _ _).mp he)
    rw [hname]
    decide
  simp [uniqueIdentity, hnone]

theorem exec_addTopic_known {o : IterOrder} {topic : Topic} {t : TopicIdx}
    (ht : s.topicMap.lookup topic.name = some t) : (addTopic o topic).exec s = .ok (.ok t, s) := by
  simp [addTopic, exec_bind, ht]

theorem exec_connect (h : Away s₀ s)
    (hp : s₀.topicMap.lookup (clientPubName visitor.name) = some own.1)
    (hq : s₀.topicMap.lookup (clientSubName visitor.name) = some own.2) :
    ((Op.connectClient visitor).perform .stored).exec s = .ok (.ok (), s.visited own) := by
  have hp' : ∀ u : InnerServer, u.topicMap = s.topicMap →
      (addTopic .stored (.newMeta (clientPubName visitor.name))).exec u = .ok (.ok own.1, u) :=
    fun u hu => exec_addTopic_known (by rw [hu, h.topicMap]; exact hp)
  have hq' : ∀ u : InnerServer, u.topicMap = s.topicMap →
      (addTopic .stored (.newMeta (clientSubName visitor.name))).exec u = .ok (.ok own.2, u) :=
    fun u hu => exec_addTopic_known (by rw [hu, h.topicMap]; exact hq)
  simp only [Op.perform, ignoring, connectClient, exec_bind, exec_get, h.absent,
    uniqueIdentity_visitor h, Option.isSome_none, Bool.false_eq_true, if_false, exec_modify,
    putClient, updateMetaValue, Counter.nextClientIdx]
  rw [hp']
  · simp only
    rw [hq']
    · rfl
    · rfl
  · rfl

/-- The visitor's disconnect stops at its first metatopic, which an earlier one has taken. -/
theorem exec_disconnect (hgone : s.topics.lookup own.1 = none) :
    ((Op.disconnectClient visitor).perform .stored).exec (s.visited own) =
      .ok (.error (topicMissing own.1 "removed"),
        { s.visited own with
          clientMap := (s.visited own).clientMap.erase visitor
          clients := (s.visited own).clients.erase s.counters.clientIdx
          clientMetatopicMap := (s.visited own).clientMetatopicMap.erase s.counters.clientIdx
          departed := { ConnectedClient.new visitor with killBool := true } :: s.departed }) := by
  have hident : (s.visited own).clientMap.lookup visitor = some s.counters.clientIdx := by
    simp [InnerServer.visited, InnerServer.withClient, InnerServer.withClientEntry]
  have hc : (s.visited own).clients.lookup s.counters.clientIdx = some (.new visitor) := by
    simp [InnerServer.visited, InnerServer.withClient, InnerServer.withClientEntry]
  have hown : (s.visited own).clientMetatopicMap.lookup s.counters.clientIdx = some own := by
    simp [InnerServer.visited]
  have htopics : (s.visited own).topics.lookup own.1 = none := hgone
  have hnothing : IterOrder.stored.walk (ConnectedClient.new visitor).pubuidToTopicidx.iterLr = [] :=
    rfl
  simp only [Op.perform, disconnectClient, exec_bind, exec_get, hident, okOr, exec_pure,
    exec_modify, hc, hnothing, forEach, hown, removeTopic, htopics, exec_throw]
  rfl

/-- One visit leaves the server as it was, and takes one index. -/
theorem Away.visit (h : Away s₀ s)
    (hp : s₀.topicMap.lookup (clientPubName visitor.name) = some own.1)
    (hq : s₀.topicMap.lookup (clientSubName visitor.name) = some own.2)
    (hgone : s₀.topics.lookup own.1 = none) :
    ∃ s', Step s (.connectClient visitor) (s.visited own) ∧
      Step (s.visited own) (.disconnectClient visitor) s' ∧ Away s₀ s' ∧
      s'.counters.clientIdx = s.counters.clientIdx + 1 := by
  have hgone' : s.topics.lookup own.1 = none := by
    rw [h.topics]
    exact hgone
  refine ⟨_, ⟨_, _, exec_connect h hp hq⟩, ⟨_, _, exec_disconnect hgone'⟩, ?_, rfl⟩
  refine ⟨h.topics, h.topicMap, h.topicValueMap, h.topicSubMap, h.subscriptions,
    h.subSendTimestamps, h.subValues, h.topicIdx, h.subIdx, by simp, fun c client hc => ?_⟩
  simp only [InnerServer.visited, InnerServer.withClient, InnerServer.withClientEntry,
    KeyMap.lookup_erase, KeyMap.lookup_insert] at hc
  split_ifs at hc
  exact h.nameless c client hc

/-- Topics and subscriptions that a step does not make cost nothing. -/
theorem created_eq_zero {s' : InnerServer} {k : Kind} (h : s'.counters.get k = s.counters.get k) :
    created s s' k = 0 := by
  simp [created, h]

/-- Any number of visits. -/
theorem Away.visits {u : Kind → Nat} (n : Nat) (run : Runs u s) (h : Away s₀ s)
    (hp : s₀.topicMap.lookup (clientPubName visitor.name) = some own.1)
    (hq : s₀.topicMap.lookup (clientSubName visitor.name) = some own.2)
    (hgone : s₀.topics.lookup own.1 = none) :
    ∃ u' s', Runs u' s' ∧ u' .topic = u .topic ∧ u' .sub = u .sub ∧ Away s₀ s' ∧
      s'.counters.clientIdx = s.counters.clientIdx + UInt32.ofNat n := by
  induction n with
  | zero => exact ⟨u, s, run, rfl, rfl, h, by simp⟩
  | succ n ih =>
    obtain ⟨u₁, s₁, run₁, htopic, hsub, h₁, hidx⟩ := ih
    obtain ⟨s₂, hconnect, hleave, h₂, hnext⟩ := h₁.visit hp hq hgone
    have run₂ := (run₁.step trivial hconnect).step trivial hleave
    refine ⟨_, s₂, run₂, ?_, ?_, h₂, ?_⟩
    · have hin : created s₁ (s₁.visited own) .topic = 0 := created_eq_zero rfl
      have hout : created (s₁.visited own) s₂ .topic = 0 :=
        created_eq_zero (h₂.topicIdx.trans h₁.topicIdx.symm)
      rw [Pi.add_apply, Pi.add_apply, htopic, hin, hout, Nat.add_zero]
    · have hin : created s₁ (s₁.visited own) .sub = 0 := created_eq_zero rfl
      have hout : created (s₁.visited own) s₂ .sub = 0 :=
        created_eq_zero (h₂.subIdx.trans h₁.subIdx.symm)
      rw [Pi.add_apply, Pi.add_apply, hsub, hin, hout, Nat.add_zero]
    · rw [hnext, hidx, UInt32.ofNat_add, UInt32.add_assoc]
      rfl

end Visit

/-- The visitor subscribes to a topic of the server, and leaves. -/
def subscribeAndLeave : List Op :=
  [.innerPublishTopic ⟨"n", 0, "int", none⟩ serverClientIdx, .connectClient visitor,
    .subscribe ⟨0, {"n"}, none⟩ 1 0, .disconnectClient visitor]

/-- What is left after the first visit: the subscription, and the names of the metatopics. -/
structure Left (s : InnerServer) : Prop where
  absent : s.clientMap.lookup visitor = none
  nameless : s.clients.pairs.all fun e => e.2.identity.name = ""
  pub : s.topicMap.lookup (clientPubName visitor.name) = some 6
  sub : s.topicMap.lookup (clientSubName visitor.name) = some 7
  gone : s.topics.lookup 6 = none
  clientIdx : s.counters.clientIdx = 2
  topic : s.topics.lookup 3 = some ⟨"n", "int", none⟩
  listed : s.topicSubMap.lookup 3 = some [0]
  value : s.topicValueMap.lookup 3 = none
  subscriptions : s.subscriptions.pairs = [(0, ⟨0, {"n"}, none⟩, 1)]
  timestamp : s.subSendTimestamps.lookup 0 = some 0
  queue : s.subValues.lookup 0 = some .newOne

/-- Keeps the latest value of each topic, and has none. -/
def StoredSubValue.isNewOne : StoredSubValue → Bool
  | all _ => false
  | one map => map.entries.isEmpty

theorem StoredSubValue.eq_newOne_of_isNewOne (stored : StoredSubValue)
    (h : stored.isNewOne = true) : stored = newOne := by
  cases stored with
  | all map => cases h
  | one map =>
    have hempty : map = ∅ := AList.ext (List.isEmpty_iff.mp h)
    rw [hempty, newOne]

theorem left_subscribeAndLeave :
    ∃ s, stateAfter anyOp .stored subscribeAndLeave = some s ∧ Left s := by
  have hrun : (stateAfter anyOp .stored subscribeAndLeave).map (fun s =>
      decide (s.clientMap.lookup visitor = none) &&
      (s.clients.pairs.all fun e => e.2.identity.name = "") &&
      decide (s.topicMap.lookup (clientPubName visitor.name) = some 6) &&
      decide (s.topicMap.lookup (clientSubName visitor.name) = some 7) &&
      decide (s.topics.lookup 6 = none) && decide (s.counters.clientIdx = 2) &&
      decide (s.topics.lookup 3 = some ⟨"n", "int", none⟩) &&
      decide (s.topicSubMap.lookup 3 = some [0]) && (s.topicValueMap.lookup 3).isNone &&
      decide (s.subscriptions.pairs = [(0, ⟨0, {"n"}, none⟩, 1)]) &&
      decide (s.subSendTimestamps.lookup 0 = some 0) &&
      (s.subValues.lookup 0).any StoredSubValue.isNewOne) = some true := by decide +kernel
  obtain ⟨s, hs, hview⟩ := Option.map_eq_some_iff.mp hrun
  simp only [Bool.and_eq_true, decide_eq_true_eq] at hview
  obtain ⟨⟨⟨⟨⟨⟨⟨⟨⟨⟨⟨habsent, hnames⟩, hp⟩, hq⟩, hgone⟩, hidx⟩, htopic⟩, hlist⟩, hvalue⟩, hsubs⟩,
    hstamp⟩, hqueue⟩ := hview
  refine ⟨s, hs, habsent, hnames, hp, hq, hgone, hidx, htopic, hlist, by simpa using hvalue, hsubs,
    hstamp, ?_⟩
  obtain ⟨stored, hstored, hqueue⟩ := (Option.any_eq_true _ _).mp hqueue
  rw [hstored, stored.eq_newOne_of_isNewOne hqueue]

theorem Left.away {s : InnerServer} (h : Left s) : Away s s := by
  refine ⟨rfl, rfl, rfl, rfl, rfl, rfl, rfl, rfl, rfl, h.absent, fun c client hc => ?_⟩
  have hname := List.all_eq_true.mp h.nameless (c, client) ((KeyMap.mem_pairs _ _ _).mpr hc)
  simpa using hname

section LastVisit

variable {s₀ s : InnerServer}

def lastValue : FrcTimestampedValue := ⟨7, ⟨.int, .integer 1⟩⟩

/-- The visitor is back under the index of its first visit, and a value of the topic is queued. -/
def InnerServer.queuedAgain (s : InnerServer) : InnerServer :=
  { s.visited (6, 7) with
    subValues := s.subValues.insert 0 (StoredSubValue.newOne.addValue 3 (.normalValue lastValue))
    topicValueMap := s.topicValueMap.insert 3 lastValue }

theorem exec_setValue_last (h : Left s₀) (hs : Away s₀ s) :
    ((Op.setValue lastValue 3).perform .stored).exec (s.visited (6, 7)) =
      .ok (.ok (), s.queuedAgain) := by
  have htopic : (s.visited (6, 7)).topics.lookup 3 = some ⟨"n", "int", none⟩ := by
    have heq : (s.visited (6, 7)).topics = s₀.topics := hs.topics
    rw [heq, h.topic]
  have hlist : (s.visited (6, 7)).topicSubMap.lookup 3 = some [0] := by
    have heq : (s.visited (6, 7)).topicSubMap = s₀.topicSubMap := hs.topicSubMap
    rw [heq, h.listed]
  have hvalue : (s.visited (6, 7)).topicValueMap.lookup 3 = none := by
    have heq : (s.visited (6, 7)).topicValueMap = s₀.topicValueMap := hs.topicValueMap
    rw [heq, h.value]
  have hqueue : (s.visited (6, 7)).subValues.lookup 0 = some .newOne := by
    have heq : (s.visited (6, 7)).subValues = s₀.subValues := hs.subValues
    rw [heq, h.queue]
  have hnormal : hasDollar "n" = false := by decide
  simp only [Op.perform, setValue, exec_bind, exec_get, htopic, okOr, exec_pure, hnormal,
    Bool.false_eq_true, if_false, hlist, unwrapOr, forEach, queueValue, hqueue, exec_modify,
    storeValue, hvalue]
  rfl

/-- The batch of the last value, and the client once it has it. -/
def lastBatch : TopicIdx × List ServerSendableValue := (3, [.normalValue lastValue])

def servedVisitor : ConnectedClient :=
  { ConnectedClient.new visitor with subOuput := some { sent := [.binary [⟨3, lastValue⟩]] } }

theorem exec_sendBatch_last {u : InnerServer} (hc : u.clients.lookup 1 = some (.new visitor)) :
    (sendBatch 1 lastBatch).exec u =
      .ok (.ok (), { u with clients := u.clients.insert 1 servedVisitor }) := by
  have hbuf : (encodeBatch lastBatch).exec u = .ok (.ok [⟨3, lastValue⟩], u) := rfl
  have hch : (ConnectedClient.new visitor).subOuput = some {} := rfl
  simp only [sendBatch, exec_bind, hbuf, exec_attempt, sendBinary, sendOn, exec_get, hc, hch,
    Outgoing.send, okOr, exec_pure, putClient, exec_modify, if_true]
  rfl

/-- The value is sent to the visitor, on a channel that holds nothing else. -/
theorem exec_sendOut_last (h : Left s₀) (hs : Away s₀ s) (hidx : s.counters.clientIdx = 1) :
    ∃ s', ((Op.sendOut lateClock 0).perform .stored).exec s.queuedAgain = .ok (.ok (), s') ∧
      s'.clients.lookup 1 = some servedVisitor ∧ s'.counters = s.queuedAgain.counters := by
  have hsubs : IterOrder.stored.walk s.queuedAgain.subscriptions =
      [(0, ⟨0, {"n"}, none⟩, 1)] := by
    have heq : s.queuedAgain.subscriptions = s₀.subscriptions := hs.subscriptions
    rw [heq]
    exact h.subscriptions
  have hstamp : s.queuedAgain.subSendTimestamps.lookup 0 = some 0 := by
    have heq : s.queuedAgain.subSendTimestamps = s₀.subSendTimestamps := hs.subSendTimestamps
    rw [heq, h.timestamp]
  have hqueue : s.queuedAgain.subValues.lookup 0 =
      some (StoredSubValue.newOne.addValue 3 (.normalValue lastValue)) := by
    simp [InnerServer.queuedAgain]
  have hc : s.queuedAgain.clients.lookup 1 = some (.new visitor) := by
    simp [InnerServer.queuedAgain, InnerServer.visited, InnerServer.withClient,
      InnerServer.withClientEntry, hidx]
  have hdue : ¬|elapsed (lateClock.check 0) 0 - 1 / 10| < 1 / 1000 := by
    decide +kernel
  have hbatches : IterOrder.stored.arrange
      (StoredSubValue.newOne.addValue 3 (.normalValue lastValue)).takeValues.1 = [lastBatch] := rfl
  simp only [Op.perform, ignoring, sendOut, exec_bind, exec_get, hsubs, foldEach, sendTurn,
    Option.getD_none, Bool.false_eq_true, if_false, hstamp, unwrapOr, exec_pure, hdue, exec_modify,
    hc, hqueue, hbatches, forEach]
  rw [exec_sendBatch_last]
  · exact ⟨_, rfl, by simp, rfl⟩
  · exact hc

end LastVisit

/-- After 2^32 connections an index comes back, and with it the subscription of the client that had
it before: its values arrive unannounced. -/
theorem value_unannounced_after_wrap :
    ¬∀ u s, Runs u s → u .topic < 2 ^ 32 → u .sub < 2 ^ 32 → ∀ ch, s.Channel ch →
      Ordered ch.sent := by
  intro h
  obtain ⟨s₀, hs₀, hleft⟩ := left_subscribeAndLeave
  obtain ⟨u₀, run₀, hu₀⟩ := runWhere_stateAfter (fun _ _ _ => trivial) hs₀
  have hgone : s₀.topics.lookup ((6, 7) : TopicIdx × TopicIdx).1 = none := hleft.gone
  obtain ⟨u, s, run, htopic, hsub, hs, hidx⟩ :=
    hleft.away.visits (2 ^ 32 - 1) run₀ hleft.pub hleft.sub hgone
  have hone : s.counters.clientIdx = 1 := by
    rw [hidx, hleft.clientIdx]
    decide
  obtain ⟨s', hsent, hc, hcounters⟩ := exec_sendOut_last hleft hs hone
  have hconnect : Step s (.connectClient visitor) (s.visited (6, 7)) :=
    ⟨_, _, exec_connect hs hleft.pub hleft.sub⟩
  have hset : Step (s.visited (6, 7)) (.setValue lastValue 3) s.queuedAgain :=
    ⟨_, _, exec_setValue_last hleft hs⟩
  have run' := ((run.step trivial hconnect).step trivial hset).step trivial ⟨_, _, hsent⟩
  -- the last steps make no topic and no subscription
  have hfree : ∀ k, k ≠ .client →
      created s (s.visited (6, 7)) k = 0 ∧ created (s.visited (6, 7)) s.queuedAgain k = 0 ∧
        created s.queuedAgain s' k = 0 := by
    intro k hk
    refine ⟨created_eq_zero ?_, created_eq_zero ?_, created_eq_zero (by rw [hcounters])⟩ <;>
      cases k <;> first | rfl | exact (hk rfl).elim
  have hordered := h _ s' run' ?_ ?_ _ (.inl ⟨1, _, hc, rfl⟩)
  · obtain ⟨messages, a, hmem, -⟩ := hordered [] [⟨3, lastValue⟩] [] rfl _ List.mem_cons_self
    cases hmem
  · obtain ⟨h₁, h₂, h₃⟩ := hfree .topic (by decide)
    simp only [Pi.add_apply, h₁, h₂, h₃, htopic, Nat.add_zero]
    exact (hu₀ .topic).trans_lt (by decide)
  · obtain ⟨h₁, h₂, h₃⟩ := hfree .sub (by decide)
    simp only [Pi.add_apply, h₁, h₂, h₃, hsub, Nat.add_zero]
    exact (hu₀ .sub).trans_lt (by decide)

end NetTables.Server
