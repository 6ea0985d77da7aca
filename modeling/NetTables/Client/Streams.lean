import NetTables.Client.Programs
import NetTables.Client.Tasks

namespace NetTables.Client

open Lib Spec

namespace ClientState

def number (c : ClientState) : ClientState :=
  { c with inner := { c.inner with subCounter := c.nextSubId } }

/-- A new stream. -/
def create (sub : Subscription) (c : ClientState) : ClientState :=
  { c with
    streams := c.streams.insert c.nextStream ⟨sub, []⟩
    nextStream := c.nextStream + 1 }

/-- `subscriptions.insert(subuid, ..)`, which leads to the stream. -/
def enter (subuid : Int32) (i : StreamId) (c : ClientState) : ClientState :=
  { c with inner := { c.inner with subscriptions := c.inner.subscriptions.insert subuid ⟨i⟩ } }

/-- `subscriptions.remove(&subuid)` -/
def remove (subuid : Int32) (c : ClientState) : ClientState :=
  { c with inner := { c.inner with subscriptions := c.inner.subscriptions.erase subuid } }

def release (i : StreamId) (c : ClientState) : ClientState :=
  { c with streams := c.streams.erase i }

end ClientState

section Stages

/-- What is left of `subscribe_w_options` when it has its lock. -/
def entry (sub : Subscription) (i : StreamId) : ClientM Unit :=
  .act (ClientState.enter sub.subuid i) fun _ => .unlock .subscriptions (.pure ())

def entering (sub : Subscription) (i : StreamId) : ClientM Unit := .lock .subscriptions (entry sub i)

/-- What is left of it when it has sent its message. -/
def creating (sub : Subscription) : ClientM Unit :=
  .act (ClientState.create sub) fun c => entering sub c.nextStream

def asking (sub : Subscription) : ClientM Unit :=
  .send (.text [subscribeMessage sub]) (creating sub)

def numbering (topics : Finset String) (options : Option SubscriptionOptions) : ClientM Unit :=
  .act ClientState.number fun c => asking ⟨c.nextSubId, topics, options⟩

theorem program_subscribeWOptions (topicNames : List String) (options : Option SubscriptionOptions) :
    (ApiCall.subscribeWOptions topicNames options).program =
      numbering topicNames.toFinset options := rfl

def dropping (i : StreamId) : ClientM Unit := .act (ClientState.release i) fun _ => .pure ()

/-- What is left of `unsubscribe` when it has its lock. -/
def removal (i : StreamId) (subuid : Int32) : ClientM Unit :=
  .act (ClientState.remove subuid) fun _ => .unlock .subscriptions (dropping i)

def withdrawing (i : StreamId) (subuid : Int32) : ClientM Unit :=
  .send (.text [.unsubscribe ⟨subuid⟩]) (.lock .subscriptions (removal i subuid))

def looking (i : StreamId) : ClientM Unit :=
  .act id fun c =>
    match c.streams.lookup i with
    | none => .pure ()
    | some stream => withdrawing i stream.data.subuid

theorem program_dropStream (i : StreamId) : (ApiCall.dropStream i).program = dropping i := rfl

theorem program_unsubscribe (i : StreamId) : (ApiCall.unsubscribe i).program = looking i := by
  simp only [ApiCall.program, AsyncClientHandle.unsubscribe, Prog.read_bind]
  rfl

end Stages

/-- A change that keeps the streams and their subscriptions, hands out a value, or enters a topic. -/
def Steady (f : ClientState → ClientState) : Prop :=
  Gentle f ∨ ∀ c, (f c).inner.subscriptions = c.inner.subscriptions ∧ (f c).streams = c.streams ∧
    (f c).nextStream = c.nextStream

/-- How far a task has come with a stream. -/
inductive Stage where
  | plain
  | numbering (topics : Finset String) (options : Option SubscriptionOptions)
  | asking (sub : Subscription)
  | creating (sub : Subscription)
  | entering (sub : Subscription) (i : StreamId)
  | looking (i : StreamId)
  | withdrawing (i : StreamId) (subuid : Int32)
  | dropping (i : StreamId)

/-- What is left of a task at its stage. -/
def At (rest : ClientM Unit) : Stage → Prop
  | .plain => rest.All Steady fun _ => True
  | .numbering topics options => rest = numbering topics options
  | .asking sub => rest = asking sub
  | .creating sub => rest = creating sub
  | .entering sub i => rest = entering sub i ∨ rest = entry sub i
  | .looking i => rest = looking i
  | .withdrawing i subuid => rest = withdrawing i subuid ∨
      rest = .lock .subscriptions (removal i subuid) ∨ rest = removal i subuid
  | .dropping i => rest = .unlock .subscriptions (dropping i) ∨ rest = dropping i

/-- The task is about to enter the stream, or to let go of it. -/
def Stage.Pending : Stage → StreamId → Prop
  | .entering _ j, i => i = j
  | .dropping j, i => i = j
  | _, _ => False

/-- At these stages a task may take a step that leaves it there and the state as it is. -/
def Stage.Stays : Stage → Prop
  | .plain | .entering _ _ | .withdrawing _ _ | .dropping _ => True
  | _ => False

/-- The stage and the state that a step leads to, with what was left of the task before it. -/
inductive Stage.Leads (rest : ClientM Unit) (c : ClientState) : Stage → Stage → ClientState → Prop where
  | plain {f next} (hf : Steady f) (hrest : rest = .act f next) : Leads rest c .plain .plain (f c)
  | stays {s} (hs : s.Stays) : Leads rest c s s c
  | numbered {topics options} :
      Leads rest c (.numbering topics options) (.asking ⟨c.nextSubId, topics, options⟩) c.number
  | asked {sub} : Leads rest c (.asking sub) (.creating sub) c
  | created {sub} : Leads rest c (.creating sub) (.entering sub c.nextStream) (c.create sub)
  | entered {sub i} (hrest : rest = entry sub i) :
      Leads rest c (.entering sub i) .plain (c.enter sub.subuid i)
  | missing {i} : Leads rest c (.looking i) .plain c
  | looked {i subuid} : Leads rest c (.looking i) (.withdrawing i subuid) c
  | removed {i subuid} (hrest : rest = removal i subuid) :
      Leads rest c (.withdrawing i subuid) (.dropping i) (c.remove subuid)
  | dropped {i} : Leads rest c (.dropping i) .plain (c.release i)

/-- The tasks are at their stages, and no two subscriptions lead to one stream. -/
structure Attends (P : Tasks) (stage : TaskId → Stage) : Prop where
  stages : ∀ t, At (P.rest t) (stage t)
  socket : stage .socket = .plain
  once : ∀ k k' sub, P.shared.inner.subscriptions.lookup k = some sub →
    P.shared.inner.subscriptions.lookup k' = some sub → k' = k
  subs_lt : ∀ k sub, P.shared.inner.subscriptions.lookup k = some sub →
    sub.data < P.shared.nextStream
  streams_lt : ∀ i stream, P.shared.streams.lookup i = some stream → i < P.shared.nextStream
  entering : ∀ t sub i, stage t = .entering sub i → i < P.shared.nextStream ∧
    (∀ k, P.shared.inner.subscriptions.lookup k ≠ some ⟨i⟩) ∧
    ∀ stream, P.shared.streams.lookup i = some stream → stream.data = sub
  apart : ∀ t t' sub sub' i, stage t = .entering sub i → stage t' = .entering sub' i → t' = t

/-- A stream that is held is entered, or a task is about to see to it. -/
def Found (P : Tasks) (stage : TaskId → Stage) : Prop :=
  ∀ i stream, P.shared.streams.lookup i = some stream →
    P.shared.inner.subscriptions.lookup stream.data.subuid = some ⟨i⟩ ∨ ∃ t, (stage t).Pending i

/-- No other stream that is held is entered under this id. -/
def ClientState.Frees (c : ClientState) (subuid : Int32) (i : StreamId) : Prop :=
  ∀ sub, c.inner.subscriptions.lookup subuid = some sub → sub.data ≠ i → c.isValid sub = false

/-- The value that a step hands out. -/
def System.handsOut (S : System) : Event → Option MessageData
  | .moves t =>
    match S.pool.rest t with
    | .act f _ => shows f
    | _ => none
  | _ => none

/-- The subscriptions that want a value have room for it, and an id that is entered or removed is
not that of another stream. -/
def KeepsStreams (S : System) : Event → Prop
  | .moves t =>
    (∀ data, S.handsOut (.moves t) = some data →
      ∀ k sub, S.pool.shared.inner.subscriptions.lookup k = some sub →
        HasRoom S.pool.shared data (k, sub)) ∧
    (∀ sub i, S.pool.rest t = entry sub i → S.pool.shared.Frees sub.subuid i) ∧
    ∀ i subuid, S.pool.rest t = removal i subuid → S.pool.shared.Frees subuid i
  | _ => True

section Steady

variable {f : ClientState → ClientState}

theorem Steady.shrinks (h : Steady f) (c : ClientState) : Shrinks c (f c) := by
  obtain (hidles | ⟨o, data, rfl⟩) | hsame := h
  · exact (hidles c).shrinks
  · exact shrinks_offers data _ c
  · obtain ⟨hsubs, hstreams, hnext⟩ := hsame c
    exact .of_same hsubs hstreams hnext

theorem Steady.handOut_of_shows (h : Steady f) {data : MessageData} (hf : shows f = some data) :
    ∃ o, f = ClientState.handOut o data := by
  rcases h with hgentle | hsame
  · exact hgentle.handOut_of_shows hf
  · rw [shows_of_streams (hsame probe).2.1] at hf
    cases hf

theorem steady_of_modest {rest : ClientM Unit} (h : Modest rest) :
    rest.All Steady fun _ => True :=
  Prog.All.mono h (fun _ hf => .inl hf) fun _ _ => trivial

theorem steady_of_same (hsubs : ∀ c, (f c).inner.subscriptions = c.inner.subscriptions)
    (hstreams : ∀ c, (f c).streams = c.streams) (hnext : ∀ c, (f c).nextStream = c.nextStream) :
    Steady f := .inr fun c => ⟨hsubs c, hstreams c, hnext c⟩

/-- The stage at which a call starts. -/
def ApiCall.stage : ApiCall → Stage
  | .subscribeWOptions topicNames options => .numbering topicNames.toFinset options
  | .unsubscribe i => .looking i
  | .dropStream i => .dropping i
  | _ => .plain

theorem at_program (call : ApiCall) : At call.program call.stage := by
  have hid : Steady id := .inl gentle_id
  cases call with
  | publishTopic name topicType properties =>
    have hcount : Steady fun c => { c with inner := { c.inner with topicCounter := c.nextTopicId } } :=
      steady_of_same (fun _ => rfl) (fun _ => rfl) fun _ => rfl
    refine ⟨hcount, fun c => ⟨trivial, ?_, fun _ => trivial⟩⟩
    exact steady_of_same (fun _ => rfl) (fun _ => rfl) fun _ => rfl
  | unpublish topic => exact ⟨trivial, trivial⟩
  | subscribeWOptions topicNames options => exact program_subscribeWOptions topicNames options
  | unsubscribe i => exact program_unsubscribe i
  | dropStream i => exact .inr (program_dropStream i)
  | takeMessage i => exact steady_of_modest (modest_takeMessage i)
  | publishValue topic v => exact ⟨hid, fun _ => ⟨trivial, trivial⟩⟩
  | publishValueWTimestamp topic timestamp v => exact ⟨trivial, trivial⟩

end Steady

section Attends

variable {P P' : Tasks} {stage : TaskId → Stage} {s : Stage} {t : TaskId}

theorem Attends.distinct (h : Attends P stage) : Distinct P.shared := by
  intro k k' sub sub' hk hk' _ hdata
  have heq : sub' = sub := congrArg InternalSub.mk hdata
  rw [heq] at hk'
  exact h.once k k' sub hk hk'

theorem Attends.initial (o : IterOrder) (now : Instant) :
    Attends (System.initial o now).pool fun _ => .plain := by
  refine ⟨fun t => ?_, rfl, by simp [System.initial], by simp [System.initial],
    by simp [System.initial], by simp, by simp⟩
  simp only [System.initial]
  split_ifs
  · exact steady_of_modest (modest_onOpen o)
  · trivial

theorem at_other (h : Attends P stage) (hrest : ∀ t', t' ≠ t → P'.rest t' = P.rest t')
    (hat : At (P'.rest t) s) (t' : TaskId) : At (P'.rest t') (Function.update stage t s t') := by
  by_cases heq : t' = t
  · rw [heq, Function.update_self]
    exact hat
  · rw [Function.update_of_ne heq, hrest t' heq]
    exact h.stages t'

/-- A task goes on, and no stream is new. -/
theorem Attends.goOn (h : Attends P stage) (hrest : ∀ t', t' ≠ t → P'.rest t' = P.rest t')
    (hat : At (P'.rest t) s) (hshrinks : Shrinks P.shared P'.shared)
    (hsocket : t = .socket → s = .plain)
    (hs : ∀ sub i, s = .entering sub i → stage t = .entering sub i) :
    Attends P' (Function.update stage t s) := by
  have hold : ∀ t' sub i, Function.update stage t s t' = .entering sub i →
      stage t' = .entering sub i := by
    intro t' sub i ht'
    by_cases heq : t' = t
    · rw [heq, Function.update_self] at ht'
      rw [heq]
      exact hs sub i ht'
    · rwa [Function.update_of_ne heq] at ht'
  refine ⟨at_other h hrest hat, ?_, ?_, ?_, ?_, ?_, ?_⟩
  · by_cases heq : .socket = t
    · rw [heq, Function.update_self]
      exact hsocket heq.symm
    · rw [Function.update_of_ne heq]
      exact h.socket
  · intro k k' sub hk hk'
    exact h.once k k' sub (hshrinks.subs k sub hk) (hshrinks.subs k' sub hk')
  · intro k sub hk
    rw [hshrinks.nextStream]
    exact h.subs_lt k sub (hshrinks.subs k sub hk)
  · intro i stream' hi
    obtain ⟨stream, hi, -⟩ := hshrinks.streams i stream' hi
    rw [hshrinks.nextStream]
    exact h.streams_lt i stream hi
  · intro t' sub i ht'
    obtain ⟨hlt, hnone, hdata⟩ := h.entering t' sub i (hold t' sub i ht')
    refine ⟨hshrinks.nextStream ▸ hlt, fun k hk => hnone k (hshrinks.subs k _ hk), ?_⟩
    intro stream' hi
    obtain ⟨stream, hi, heq⟩ := hshrinks.streams i stream' hi
    exact heq ▸ hdata stream hi
  · intro t₁ t₂ sub sub' i h₁ h₂
    exact h.apart t₁ t₂ sub sub' i (hold t₁ sub i h₁) (hold t₂ sub' i h₂)

/-- A stream is made that no subscription leads to yet. -/
theorem Attends.create (h : Attends P stage) {sub : Subscription} (ht : stage t = .creating sub)
    (hrest : ∀ t', t' ≠ t → P'.rest t' = P.rest t')
    (hat : At (P'.rest t) (.entering sub P.shared.nextStream))
    (hshared : P'.shared = ClientState.create sub P.shared) :
    Attends P' (Function.update stage t (.entering sub P.shared.nextStream)) := by
  have hne : t ≠ .socket := by
    rintro rfl
    rw [h.socket] at ht
    cases ht
  -- the streams that tasks are yet to enter are older
  have hold : ∀ t' sub' i, t' ≠ t →
      Function.update stage t (.entering sub P.shared.nextStream) t' = .entering sub' i →
      stage t' = .entering sub' i ∧ i < P.shared.nextStream := by
    intro t' sub' i hne' ht'
    rw [Function.update_of_ne hne'] at ht'
    exact ⟨ht', (h.entering t' sub' i ht').1⟩
  have hself : ∀ sub' i, Function.update stage t (.entering sub P.shared.nextStream) t =
      .entering sub' i → sub' = sub ∧ i = P.shared.nextStream := by
    intro sub' i ht'
    rw [Function.update_self] at ht'
    cases ht'
    exact ⟨rfl, rfl⟩
  refine ⟨at_other h hrest hat, ?_, ?_, ?_, ?_, ?_, ?_⟩
  · rw [Function.update_of_ne hne.symm]
    exact h.socket
  · rw [hshared]
    exact h.once
  · rw [hshared]
    intro k sub' hk
    exact Nat.lt_succ_of_lt (h.subs_lt k sub' hk)
  · rw [hshared]
    intro i stream hi
    simp only [ClientState.create, KeyMap.lookup_insert] at hi ⊢
    split_ifs at hi with heq
    · rw [heq]
      exact Nat.lt_succ_self _
    · exact Nat.lt_succ_of_lt (h.streams_lt i stream hi)
  · rw [hshared]
    intro t' sub' i ht'
    simp only [ClientState.create, KeyMap.lookup_insert]
    by_cases hne' : t' = t
    · subst hne'
      obtain ⟨rfl, rfl⟩ := hself sub' i ht'
      refine ⟨Nat.lt_succ_self _, fun k hk => ?_, fun stream hi => ?_⟩
      · exact (h.subs_lt k _ hk).ne rfl
      · rw [if_pos rfl] at hi
        cases hi
        rfl
    · obtain ⟨ht', hlt⟩ := hold t' sub' i hne' ht'
      obtain ⟨-, hnone, hdata⟩ := h.entering t' sub' i ht'
      refine ⟨Nat.lt_succ_of_lt hlt, hnone, fun stream hi => ?_⟩
      rw [if_neg hlt.ne] at hi
      exact hdata stream hi
  · intro t₁ t₂ sub₁ sub₂ i h₁ h₂
    by_cases heq₁ : t₁ = t <;> by_cases heq₂ : t₂ = t
    · rw [heq₁, heq₂]
    · rw [heq₁] at h₁
      exact absurd (hself sub₁ i h₁).2 (hold t₂ sub₂ i heq₂ h₂).2.ne
    · rw [heq₂] at h₂
      exact absurd (hself sub₂ i h₂).2 (hold t₁ sub₁ i heq₁ h₁).2.ne
    · exact h.apart t₁ t₂ sub₁ sub₂ i (hold t₁ sub₁ i heq₁ h₁).1 (hold t₂ sub₂ i heq₂ h₂).1

/-- The stream is entered. -/
theorem Attends.enter (h : Attends P stage) {sub : Subscription} {i : StreamId}
    (ht : stage t = .entering sub i) (hrest : ∀ t', t' ≠ t → P'.rest t' = P.rest t')
    (hat : At (P'.rest t) .plain) (hshared : P'.shared = ClientState.enter sub.subuid i P.shared) :
    Attends P' (Function.update stage t .plain) := by
  obtain ⟨hlt, hnone, hdata⟩ := h.entering t sub i ht
  have hold : ∀ t' sub' j, Function.update stage t .plain t' = .entering sub' j →
      stage t' = .entering sub' j ∧ j ≠ i := by
    intro t' sub' j ht'
    by_cases hne : t' = t
    · rw [hne, Function.update_self] at ht'
      cases ht'
    · rw [Function.update_of_ne hne] at ht'
      refine ⟨ht', fun heq => hne ?_⟩
      exact h.apart t t' sub sub' i ht (heq ▸ ht')
  refine ⟨at_other h hrest hat, ?_, ?_, ?_, ?_, ?_, ?_⟩
  · by_cases heq : .socket = t
    · rw [heq, Function.update_self]
    · rw [Function.update_of_ne heq]
      exact h.socket
  · rw [hshared]
    intro k k' sub' hk hk'
    simp only [ClientState.enter, KeyMap.lookup_insert] at hk hk'
    split_ifs at hk hk' with hkey hkey' hkey'
    · rw [hkey, hkey']
    · cases hk
      exact absurd hk' (hnone k')
    · cases hk'
      exact absurd hk (hnone k)
    · exact h.once k k' sub' hk hk'
  · rw [hshared]
    intro k sub' hk
    simp only [ClientState.enter, KeyMap.lookup_insert] at hk
    split_ifs at hk
    · cases hk
      exact hlt
    · exact h.subs_lt k sub' hk
  · rw [hshared]
    exact h.streams_lt
  · rw [hshared]
    intro t' sub' j ht'
    obtain ⟨ht', hne⟩ := hold t' sub' j ht'
    obtain ⟨hlt', hnone', hdata'⟩ := h.entering t' sub' j ht'
    refine ⟨hlt', fun k hk => ?_, hdata'⟩
    simp only [ClientState.enter, KeyMap.lookup_insert] at hk
    split_ifs at hk
    · cases hk
      exact hne rfl
    · exact hnone' k hk
  · intro t₁ t₂ sub₁ sub₂ j h₁ h₂
    exact h.apart t₁ t₂ sub₁ sub₂ j (hold t₁ sub₁ j h₁).1 (hold t₂ sub₂ j h₂).1

end Attends

section Found

variable {P P' : Tasks} {stage : TaskId → Stage} {s : Stage} {t : TaskId}

/-- What a step leaves of the entries of streams that are still held. -/
theorem Found.goOn (h : Found P stage) (hshrinks : Shrinks P.shared P'.shared)
    (hpending : ∀ i stream, P'.shared.streams.lookup i = some stream → (stage t).Pending i →
      s.Pending i)
    (hkept : ∀ i stream, P.shared.streams.lookup i = some stream →
      P.shared.inner.subscriptions.lookup stream.data.subuid = some ⟨i⟩ →
      P'.shared.inner.subscriptions.lookup stream.data.subuid = some ⟨i⟩ ∨ s.Pending i) :
    Found P' (Function.update stage t s) := by
  intro i stream' hi
  obtain ⟨stream, hold, hdata⟩ := hshrinks.streams i stream' hi
  rw [← hdata]
  have hself : s.Pending i → ∃ t', (Function.update stage t s t').Pending i := by
    intro hs
    exact ⟨t, by rwa [Function.update_self]⟩
  rcases h i stream hold with hentry | ⟨t', ht'⟩
  · exact (hkept i stream hold hentry).imp_right hself
  · right
    by_cases heq : t' = t
    · rw [heq] at ht'
      exact hself (hpending i stream' hi ht')
    · exact ⟨t', by rwa [Function.update_of_ne heq]⟩

end Found

section Moves

variable {S : System} {pool : Tasks} {stage : TaskId → Stage} {t : TaskId} {s s' : Stage}

/-- What a step of a task does at its stage. -/
theorem At.leads (h : At (S.pool.rest t) s) (hmoves : Pool.Moves socketCapacity t S.pool pool) :
    ∃ s', At (pool.rest t) s' ∧ s.Leads (S.pool.rest t) S.pool.shared s' pool.shared := by
  cases s with
  | plain =>
    have hstays : ∀ {next : ClientM Unit}, At next .plain → pool.rest t = next →
        pool.shared = S.pool.shared → ∃ s', At (pool.rest t) s' ∧
          Stage.plain.Leads (S.pool.rest t) S.pool.shared s' pool.shared := by
      intro next hnext hrest hshared
      rw [hrest, hshared]
      exact ⟨.plain, hnext, .stays trivial⟩
    cases hmoves with
    | @act f next hprog =>
      rw [hprog] at h ⊢
      refine ⟨.plain, ?_, .plain h.1 rfl⟩
      rw [Pool.start_rest_self]
      exact h.2 _
    | @lock l next hprog | @unlock l next hprog =>
      rw [hprog] at h
      have hnext : At next .plain := h
      exact hstays hnext (by simp [Pool.give]) rfl
    | @send m next hprog =>
      rw [hprog] at h
      have hnext : At next .plain := h.2
      exact hstays hnext (by simp) rfl
  | numbering topics options =>
    obtain rfl := hmoves.eq_of_act h
    exact ⟨.asking _, Pool.start_rest_self _, .numbered⟩
  | asking sub =>
    obtain rfl := hmoves.eq_of_send h
    exact ⟨.creating sub, Pool.start_rest_self _, .asked⟩
  | creating sub =>
    obtain rfl := hmoves.eq_of_act h
    exact ⟨.entering sub _, .inl (Pool.start_rest_self _), .created⟩
  | entering sub i =>
    rcases h with h | h
    · obtain rfl := hmoves.eq_of_lock h
      exact ⟨.entering sub i, .inr (Pool.start_rest_self _), .stays trivial⟩
    · obtain rfl := hmoves.eq_of_act h
      refine ⟨.plain, ?_, .entered h⟩
      rw [Pool.start_rest_self]
      trivial
  | looking i =>
    obtain rfl := hmoves.eq_of_act h
    simp only [Pool.start_rest_self, id]
    cases S.pool.shared.streams.lookup i with
    | none => exact ⟨.plain, trivial, .missing⟩
    | some stream => exact ⟨.withdrawing i _, .inl rfl, .looked⟩
  | withdrawing i subuid =>
    rcases h with h | h | h
    · obtain rfl := hmoves.eq_of_send h
      exact ⟨.withdrawing i subuid, .inr (.inl (Pool.start_rest_self _)), .stays trivial⟩
    · obtain rfl := hmoves.eq_of_lock h
      exact ⟨.withdrawing i subuid, .inr (.inr (Pool.start_rest_self _)), .stays trivial⟩
    · obtain rfl := hmoves.eq_of_act h
      exact ⟨.dropping i, .inl (Pool.start_rest_self _), .removed h⟩
  | dropping i =>
    rcases h with h | h
    · obtain rfl := hmoves.eq_of_unlock h
      exact ⟨.dropping i, .inr (Pool.start_rest_self _), .stays trivial⟩
    · obtain rfl := hmoves.eq_of_act h
      refine ⟨.plain, ?_, .dropped⟩
      rw [Pool.start_rest_self]
      trivial

/-- Only `subscribe_w_options` makes or enters a stream. -/
theorem Stage.Leads.shrinks {rest : ClientM Unit} {c c' : ClientState}
    (h : s.Leads rest c s' c') (hcreate : ∀ sub, s ≠ .creating sub)
    (henter : ∀ sub i, s = .entering sub i → s' ≠ .plain) : Shrinks c c' := by
  cases h with
  | plain hf hrest => exact hf.shrinks c
  | created => exact absurd rfl (hcreate _)
  | entered => exact absurd rfl (henter _ _ rfl)
  | stays | asked | missing | looked => exact .of_same rfl rfl rfl
  | numbered => exact .of_same rfl rfl rfl
  | removed =>
    refine ⟨fun k sub hk => ?_, fun j stream hj => ⟨stream, hj, rfl⟩, rfl⟩
    simp only [ClientState.remove, KeyMap.lookup_erase] at hk
    split_ifs at hk
    exact hk
  | dropped =>
    refine ⟨fun _ _ hk => hk, fun j stream hj => ?_, rfl⟩
    simp only [ClientState.release, KeyMap.lookup_erase] at hj
    split_ifs at hj
    exact ⟨stream, hj, rfl⟩

theorem Stage.Leads.of_plain {rest : ClientM Unit} {c c' : ClientState}
    (h : s.Leads rest c s' c') (hs : s = .plain) : s' = .plain := by
  cases h with
  | plain => rfl
  | stays => exact hs
  | _ => cases hs

theorem Attends.moves (h : Attends S.pool stage) (hmoves : Pool.Moves socketCapacity t S.pool pool)
    (hat : At (pool.rest t) s')
    (hleads : (stage t).Leads (S.pool.rest t) S.pool.shared s' pool.shared) :
    Attends pool (Function.update stage t s') := by
  have hrest : ∀ t', t' ≠ t → pool.rest t' = S.pool.rest t' := fun t' hne => hmoves.rest_of_ne hne
  have hsocket : t = .socket → s' = .plain := by
    intro heq
    apply hleads.of_plain
    rw [heq, h.socket]
  have hshrinks := hleads.shrinks
  generalize hs : stage t = s at hleads hshrinks
  generalize hc : pool.shared = c' at hleads hshrinks
  cases hleads with
  | created => exact h.create hs hrest hat hc
  | entered => exact h.enter hs hrest hat hc
  | stays =>
    apply h.goOn hrest hat _ hsocket
    · simp [hs]
    · rw [hc]
      exact .of_same rfl rfl rfl
  | plain | numbered | asked | missing | looked | removed | dropped =>
    apply h.goOn hrest hat _ hsocket
    · simp
    · rw [hc]
      exact hshrinks (by simp) (by simp)

/-- The guard saves the entries of the streams that are held. -/
theorem Found.moves (hfound : Found S.pool stage) (h : Attends S.pool stage)
    (hkeeps : KeepsStreams S (.moves t))
    (hleads : (stage t).Leads (S.pool.rest t) S.pool.shared s' pool.shared) :
    Found pool (Function.update stage t s') := by
  have hvalid : ∀ {i stream}, S.pool.shared.streams.lookup i = some stream →
      S.pool.shared.isValid ⟨i⟩ = true := fun hi => Option.isSome_iff_exists.mpr ⟨_, hi⟩
  -- an entry that the guard lets go is not that of a stream that is held
  have hfree : ∀ {k i j stream}, S.pool.shared.Frees k i →
      S.pool.shared.streams.lookup j = some stream →
      S.pool.shared.inner.subscriptions.lookup stream.data.subuid = some ⟨j⟩ → j ≠ i →
      stream.data.subuid ≠ k := by
    intro k i j stream hfrees hj hentry hji hkey
    have hgone := hfrees ⟨j⟩ (hkey ▸ hentry) hji
    rw [hvalid hj] at hgone
    cases hgone
  have hshrinks := hleads.shrinks
  generalize hs : stage t = s at hleads hshrinks
  generalize hc : pool.shared = c' at hleads hshrinks
  have hsame : ∀ {s'}, S.pool.shared.inner.subscriptions = c'.inner.subscriptions →
      S.pool.shared.streams = c'.streams → S.pool.shared.nextStream = c'.nextStream →
      (∀ i, s.Pending i → s'.Pending i) → Found pool (Function.update stage t s') := by
    intro s' hsubs hstreams hnext hpending
    apply hfound.goOn
    · rw [hc]
      exact .of_same hsubs.symm hstreams.symm hnext.symm
    · intro i _ _ hp
      rw [hs] at hp
      exact hpending i hp
    · intro i stream _ hentry
      left
      rwa [hc, ← hsubs]
  cases hleads with
  | stays | numbered | asked | missing | looked =>
    exact hsame rfl rfl rfl fun _ hp => hp
  | plain hf hrest =>
    apply hfound.goOn
    · rw [hc]
      exact hshrinks (by simp) (by simp)
    · intro i _ _ hp
      rw [hs] at hp
      exact hp
    · intro i stream hi hentry
      rw [hc]
      left
      obtain (hidles | ⟨o, data, rfl⟩) | hsame := hf
      · exact (hidles _).kept _ _ hentry (hvalid hi)
      · have hshows : S.handsOut (.moves t) = some data := by
          simp only [System.handsOut, hrest, shows_handOut]
        have hdelivers := delivers_offers h.distinct (o.walk S.pool.shared.inner.subscriptions)
          (o.nodup_walk _) (fun e he => (o.mem_walk _ _ _).mp he)
          fun e he => hkeeps.1 data hshows e.1 e.2 ((o.mem_walk _ _ _).mp he)
        exact hdelivers.kept _ _ hentry (hvalid hi)
      · rw [(hsame _).1]
        exact hentry
  | @created sub =>
    intro i stream hi
    rw [hc] at hi ⊢
    simp only [ClientState.create, KeyMap.lookup_insert] at hi
    split_ifs at hi with heq
    · exact .inr ⟨t, by rw [Function.update_self]; exact heq⟩
    · refine (hfound i stream hi).imp_right fun hpending => ?_
      obtain ⟨t', ht'⟩ := hpending
      have hne : t' ≠ t := by
        rintro rfl
        rw [hs] at ht'
        exact ht'
      exact ⟨t', by rwa [Function.update_of_ne hne]⟩
  | @entered sub i hrest =>
    intro j stream hj
    rw [hc] at hj ⊢
    obtain ⟨-, -, hdata⟩ := h.entering t sub i hs
    simp only [ClientState.enter, KeyMap.lookup_insert]
    by_cases hji : j = i
    · rw [hji] at hj ⊢
      rw [hdata stream hj]
      simp
    · rcases hfound j stream hj with hentry | ⟨t', ht'⟩
      · rw [if_neg (hfree (hkeeps.2.1 sub i hrest) hj hentry hji)]
        exact .inl hentry
      · have hne : t' ≠ t := by
          rintro rfl
          rw [hs] at ht'
          exact hji ht'
        exact .inr ⟨t', by rwa [Function.update_of_ne hne]⟩
  | @removed i subuid hrest =>
    apply hfound.goOn
    · rw [hc]
      exact hshrinks (by simp) (by simp)
    · intro j _ _ hp
      rw [hs] at hp
      exact hp.elim
    · intro j stream hj hentry
      by_cases hji : j = i
      · exact .inr hji
      · left
        rw [hc]
        simp only [ClientState.remove, KeyMap.lookup_erase]
        rw [if_neg (hfree (hkeeps.2.2 i subuid hrest) hj hentry hji)]
        exact hentry
  | @dropped i =>
    apply hfound.goOn
    · rw [hc]
      exact hshrinks (by simp) (by simp)
    · intro j stream hj hp
      rw [hs] at hp
      have hji : j = i := hp
      rw [hc] at hj
      simp [ClientState.release, hji] at hj
    · intro j stream _ hentry
      rw [hc]
      exact .inl hentry

end Moves

/-- The task that gets a program. -/
def Event.starts : Event → Option TaskId
  | .incoming _ | .reconnected => some .socket
  | .timer => some .timestamp
  | .call n _ => some (.user n)
  | _ => none

/-- A program starts at these stages. -/
def Stage.Begins : Stage → Prop
  | .plain | .numbering _ _ | .looking _ | .dropping _ => True
  | _ => False

/-- What an event does to the stages. -/
structure Turns (S S' : System) (e : Event) (stage stage' : TaskId → Stage) : Prop where
  others : ∀ t, e ≠ .moves t → e.starts ≠ some t → stage' t = stage t
  moved : ∀ t, e = .moves t →
    (stage t).Leads (S.pool.rest t) S.pool.shared (stage' t) S'.pool.shared
  begun : ∀ t, e.starts = some t → stage t = .plain ∧ (stage' t).Begins
  same : (∀ t, e ≠ .moves t) →
    S'.pool.shared.inner.subscriptions = S.pool.shared.inner.subscriptions ∧
      S'.pool.shared.streams = S.pool.shared.streams ∧
      S'.pool.shared.nextStream = S.pool.shared.nextStream

/-- `subscribe_w_options` has made this stream and has not entered it yet. -/
def System.Arrives (S : System) (i : StreamId) : Prop :=
  ∃ t sub, S.pool.rest t = entering sub i ∨ S.pool.rest t = entry sub i

/-- The stream is being unsubscribed or dropped. -/
def System.Leaves (S : System) (i : StreamId) : Prop :=
  ∃ t, S.pool.rest t = .unlock .subscriptions (dropping i) ∨ S.pool.rest t = dropping i

/-- The stream is subscribed: it is part of every replay, and it gets every value that it wants and
has room for. -/
structure ClientState.Serves (c : ClientState) (i : StreamId) (stream : SubscriptionStream) :
    Prop where
  entry : c.inner.subscriptions.lookup stream.data.subuid = some ⟨i⟩
  replayed : ∀ o, subscribeMessage stream.data ∈ InnerClient.replay o c.opened
  offered : ∀ o data, stream.data.caresAbout data.topicName = true →
    stream.receiver.length < streamCapacity → (c.handOut o data).streams.lookup i =
      some { stream with receiver := stream.receiver ++ [data] }

/-- Every stream that the user has been given and still holds is subscribed. -/
def Survives (S : System) : Prop :=
  ∀ i stream, S.pool.shared.streams.lookup i = some stream → ¬S.Arrives i → ¬S.Leaves i →
    S.pool.shared.Serves i stream

section Survives

variable {ofTypeStr : String → FrcType} {S S' : System} {e : Event} {P : Tasks}
  {stage : TaskId → Stage} {t : TaskId}

theorem serves_of_entry {c : ClientState} (h : Distinct c) {i : StreamId}
    {stream : SubscriptionStream} (hi : c.streams.lookup i = some stream)
    (hentry : c.inner.subscriptions.lookup stream.data.subuid = some ⟨i⟩) : c.Serves i stream where
  entry := hentry
  replayed o := by
    have hopened : c.opened.inner.subscriptions.lookup stream.data.subuid = some ⟨i⟩ := by
      apply (delivers_opened c).kept _ _ hentry
      exact Option.isSome_iff_exists.mpr ⟨stream, hi⟩
    apply List.mem_append_right
    apply List.mem_filterMap.mpr
    refine ⟨(stream.data.subuid, ⟨i⟩), (o.mem_walk _ _ _).mpr hopened, ?_⟩
    have hup : c.opened.upgrade ⟨i⟩ = some stream.data := by
      rw [ClientState.upgrade]
      exact congrArg (Option.map SubscriptionStream.data) hi
    rw [hup]
    rfl
  offered o data hcares hroom := by
    rw [streams_handOut h o data hentry hi, SubscriptionStream.offered, if_pos ⟨hcares, hroom⟩]

theorem plain_of_done {s : Stage} (h : At (.pure ()) s) : s = .plain := by
  cases s with
  | plain => rfl
  | numbering _ _ | asking _ | creating _ | looking _ => cases h
  | entering _ _ | dropping _ =>
    rcases h with h | h <;> cases h
  | withdrawing _ _ =>
    rcases h with h | h | h <;> cases h

/-- A task that has nothing left gets a program. -/
theorem Attends.start (h : Attends S.pool stage) {p : ClientM Unit} {s : Stage}
    (ht : stage t = .plain) (hat : At p s) (hsocket : t = .socket → s = .plain)
    (hs : s.Begins) : Attends (S.pool.start t p) (Function.update stage t s) ∧
      (Found S.pool stage → Found (S.pool.start t p) (Function.update stage t s)) := by
  have hshrinks : Shrinks S.pool.shared (S.pool.start t p).shared := .of_same rfl rfl rfl
  constructor
  · apply h.goOn _ _ hshrinks hsocket
    · rintro sub i rfl
      exact hs.elim
    · exact fun t' hne => Pool.start_rest_of_ne _ hne
    · rw [Pool.start_rest_self]
      exact hat
  · intro hfound
    apply hfound.goOn hshrinks
    · intro i _ _ hp
      rw [ht] at hp
      exact hp.elim
    · exact fun i stream _ hentry => .inl hentry

theorem turns_start {e : Event} {s : Stage} (ht : stage t = .plain) (he : e.starts = some t)
    (hs : s.Begins) (hsame : S'.pool.shared = S.pool.shared) :
    Turns S S' e stage (Function.update stage t s) where
  others t' _ hne := by
    rw [he] at hne
    exact Function.update_of_ne (fun heq => hne (congrArg some heq.symm)) ..
  moved t' heq := by
    rw [heq] at he
    cases he
  begun t' he' := by
    rw [he] at he'
    cases he'
    rw [Function.update_self]
    exact ⟨ht, hs⟩
  same _ := by
    rw [hsame]
    exact ⟨rfl, rfl, rfl⟩

theorem turns_none {e : Event} (hmoves : ∀ t, e ≠ .moves t) (he : e.starts = none)
    (hsubs : S'.pool.shared.inner.subscriptions = S.pool.shared.inner.subscriptions)
    (hstreams : S'.pool.shared.streams = S.pool.shared.streams)
    (hnext : S'.pool.shared.nextStream = S.pool.shared.nextStream) :
    Turns S S' e stage stage where
  others _ _ _ := rfl
  moved t heq := absurd heq (hmoves t)
  begun t ht := by
    rw [he] at ht
    cases ht
  same _ := ⟨hsubs, hstreams, hnext⟩

theorem Attends.step (h : Attends S.pool stage) (hstep : Takes ofTypeStr S e S') :
    ∃ stage', Attends S'.pool stage' ∧ Turns S S' e stage stage' ∧
      (KeepsStreams S e → Found S.pool stage → Found S'.pool stage') := by
  have hdone : ∀ {t}, S.pool.rest t = .pure () → stage t = .plain := by
    intro t hrest
    have hat := h.stages t
    rw [hrest] at hat
    exact plain_of_done hat
  have hstart : ∀ {t p s}, e.starts = some t → stage t = .plain → At p s →
      (t = .socket → s = .plain) → s.Begins → S'.pool = S.pool.start t p →
      ∃ stage', Attends S'.pool stage' ∧ Turns S S' e stage stage' ∧
        (KeepsStreams S e → Found S.pool stage → Found S'.pool stage') := by
    intro t p s he ht hat hsocket hs hpool
    obtain ⟨hattends, hfound⟩ := h.start ht hat hsocket hs
    have hturns : Turns S S' e stage (Function.update stage t s) :=
      turns_start ht he hs (by rw [hpool]; rfl)
    rw [hpool]
    exact ⟨_, hattends, hturns, fun _ => hfound⟩
  cases hstep with
  | @moves t pool hmoves =>
    obtain ⟨s', hat, hleads⟩ := (h.stages t).leads hmoves
    refine ⟨_, h.moves hmoves hat hleads, ⟨?_, ?_, by simp [Event.starts], ?_⟩, ?_⟩
    · intro t' hne _
      exact Function.update_of_ne (fun heq => hne (congrArg Event.moves heq.symm)) ..
    · intro t' heq
      cases heq
      rw [Function.update_self]
      exact hleads
    · intro hne
      exact absurd rfl (hne t)
    · intro hkeeps hfound
      exact hfound.moves h hkeeps hleads
  | incoming o hs =>
    have hat : At (InnerClient.handleMessage o ofTypeStr ‹_›) .plain :=
      steady_of_modest (modest_handleMessage o ofTypeStr _)
    exact hstart rfl h.socket hat (fun _ => rfl) trivial rfl
  | reconnected o hc =>
    have hat : At (InnerClient.onOpen o) .plain := steady_of_modest (modest_onOpen o)
    exact hstart rfl h.socket hat (fun _ => rfl) trivial rfl
  | timer hopen hrest =>
    have hat : At InnerClient.updateTime .plain := steady_of_modest modest_updateTime
    exact hstart rfl (hdone hrest) hat (fun _ => rfl) trivial rfl
  | @call n call hopen hrest =>
    have hs : call.stage.Begins := by cases call <;> trivial
    exact hstart rfl (hdone hrest) (at_program call) (by simp) hs rfl
  | connectionLost | written | writeFailed | tick =>
    refine ⟨stage, ?_, turns_none (by simp) rfl rfl rfl rfl, fun _ hfound => hfound⟩
    exact ⟨h.stages, h.socket, h.once, h.subs_lt, h.streams_lt, h.entering, h.apart⟩

/-- Whatever happens, no two subscriptions lead to one stream. -/
theorem attends_of_works {guard : System → Event → Prop} {n : Nat}
    (run : Works ofTypeStr guard n S) : ∃ stage, Attends S.pool stage := by
  refine run.invariant (fun _ S => ∃ stage, Attends S.pool stage) ?_ ?_
  · intro S hinit
    obtain ⟨o, now, rfl⟩ := hinit
    exact ⟨_, .initial o now⟩
  · intro k S e S' _ h _ hstep
    obtain ⟨stage, h⟩ := h
    obtain ⟨stage', h', -, -⟩ := h.step hstep
    exact ⟨stage', h'⟩

/-- What is pending is a call that has not come to its end. -/
theorem Attends.not_pending (h : Attends S.pool stage) {i : StreamId} (harrives : ¬S.Arrives i)
    (hleaves : ¬S.Leaves i) (t : TaskId) : ¬(stage t).Pending i := by
  intro ht
  have hat := h.stages t
  cases hs : stage t with
  | entering sub j =>
    rw [hs] at ht hat
    cases ht
    exact harrives ⟨t, sub, hat⟩
  | dropping j =>
    rw [hs] at ht hat
    cases ht
    exact hleaves ⟨t, hat⟩
  | _ =>
    rw [hs] at ht
    exact ht

theorem Found.survives (hfound : Found S.pool stage) (h : Attends S.pool stage) : Survives S := by
  intro i stream hi harrives hleaves
  apply serves_of_entry h.distinct hi
  apply (hfound i stream hi).resolve_right
  intro hpending
  obtain ⟨t, ht⟩ := hpending
  exact h.not_pending harrives hleaves t ht

end Survives

/-- A stream that is held stays subscribed. -/
theorem survives_slow_reader {ofTypeStr : String → FrcType} {n : Nat} {S : System}
    (run : Works ofTypeStr KeepsStreams n S) : Survives S := by
  have hinv : ∃ stage, Attends S.pool stage ∧ Found S.pool stage := by
    refine run.invariant (fun _ S => ∃ stage, Attends S.pool stage ∧ Found S.pool stage) ?_ ?_
    · intro S hinit
      obtain ⟨o, now, rfl⟩ := hinit
      refine ⟨_, .initial o now, ?_⟩
      intro i stream hi
      cases hi
    · intro k S e S' _ h hkeeps hstep
      obtain ⟨stage, h, hfound⟩ := h
      obtain ⟨stage', h', -, hfound'⟩ := h.step hstep
      exact ⟨stage', h', hfound' hkeeps hfound⟩
  obtain ⟨stage, h, hfound⟩ := hinv
  exact hfound.survives h

/-- Nothing is left but to free a mutex. -/
def settled : ClientM Unit → Bool
  | .pure _ | .unlock _ (.pure _) => true
  | _ => false

section Alone

variable {o : IterOrder} {ofTypeStr : String → FrcType} {now : Instant} {S : System}
  {events : List Event}

theorem settled_alone (h : (System.initial o now).takeAll o ofTypeStr events = some S)
    (hevents : alone events = true) (hS : S.all settled = true) (i : StreamId) :
    ¬S.Arrives i ∧ ¬S.Leaves i := by
  have hsettled := all_alone h hevents hS rfl
  constructor
  · intro harrives
    obtain ⟨t, sub, hrest | hrest⟩ := harrives <;>
      have ht := hsettled t <;>
      rw [hrest] at ht <;>
      cases ht
  · intro hleaves
    obtain ⟨t, hrest | hrest⟩ := hleaves <;>
      have ht := hsettled t <;>
      rw [hrest] at ht <;>
      cases ht

end Alone

/-- The next step neither enters a stream nor removes one. -/
def spares : ClientM Unit → Bool
  | .act f next => (f {}).inner.subscriptions.entries.isEmpty && match next {} with
    | .unlock _ (.act _ _) => false
    | _ => true
  | _ => true

/-- No stream that is held loses its entry to another. -/
def System.sparing (S : System) : Event → Bool
  | .moves t => S.pool.shared.inner.subscriptions.entries.isEmpty || spares (S.pool.rest t)
  | _ => true

theorem keepsStreams_of_sparing {S : System} {e : Event} (h : S.sparing e = true)
    (hroom : ∀ data, S.handsOut e = some data → ∀ k sub,
      S.pool.shared.inner.subscriptions.lookup k = some sub → HasRoom S.pool.shared data (k, sub)) :
    KeepsStreams S e := by
  cases e with
  | moves t =>
    have hfrees : S.pool.shared.inner.subscriptions.entries.isEmpty = true →
        ∀ subuid i, S.pool.shared.Frees subuid i := by
      intro hempty subuid i sub hsub
      rw [AList.lookup, List.isEmpty_iff.mp hempty] at hsub
      cases hsub
    refine ⟨hroom, fun sub i hrest => ?_, fun i subuid hrest => ?_⟩ <;>
      rcases Bool.or_eq_true_iff.mp h with hempty | hspares
    · exact hfrees hempty _ _
    · rw [hrest] at hspares
      cases hspares
    · exact hfrees hempty _ _
    · rw [hrest] at hspares
      cases hspares
  | _ => trivial

/-- `start` has run to its end, and a user has subscribed. -/
def subscribed : List Event :=
  List.replicate 15 (.moves .start) ++ [.call 0 (.subscribeWOptions ["n"] none)] ++
    List.replicate 5 (.moves (.user 0))

/-- No subscription has to give way to the first one. -/
theorem survives_subscribed : ∃ n S stream, Works (fun _ => .raw) KeepsStreams n S ∧
    S.pool.shared.streams.lookup 0 = some stream ∧ S.pool.shared.Serves 0 stream := by
  have hok : ∀ S e, (S.pool.shared.inner.subscriptions.entries.isEmpty = true) →
      KeepsStreams S e := by
    intro S e hempty
    have hnone : ∀ k, S.pool.shared.inner.subscriptions.lookup k = none := by
      intro k
      rw [AList.lookup, List.isEmpty_iff.mp hempty]
      rfl
    cases e with
    | moves t => simp [KeepsStreams, ClientState.Frees, hnone]
    | _ => trivial
  have hrun : ((System.initial .stored 0).takeAllIf .stored (fun _ => .raw)
      (fun S _ => S.pool.shared.inner.subscriptions.entries.isEmpty) subscribed).map
      (fun S => S.all settled && (S.pool.shared.streams.lookup 0).isSome) = some true := by
    decide +kernel
  obtain ⟨S, hS, hview⟩ := Option.map_eq_some_iff.mp hrun
  rw [Bool.and_eq_true] at hview
  obtain ⟨stream, hstream⟩ := Option.isSome_iff_exists.mp hview.2
  obtain ⟨n, run⟩ := works_takeAllIf hok (Run.start ⟨.stored, 0, rfl⟩) hS
  obtain ⟨harrives, hleaves⟩ := settled_alone (takeAll_of_takeAllIf hS) (by decide) hview.1 0
  exact ⟨n, S, stream, run, hstream, survives_slow_reader run 0 stream hstream harrives hleaves⟩

/-- A stream gets a message more than it takes. -/
def unread : List Event :=
  subscribed ++ [.moves (.user 0), .incoming (.text (some [.announce ⟨"n", 0, "int", none, {}⟩]))] ++
    List.replicate 3 (.moves .socket) ++
    [.incoming (.binary (List.replicate 257 (.array [.integer 0, .integer 0, .integer 2, .nil])))] ++
    List.replicate (6 * 257) (.moves .socket)

/-- The stream that is not read is forgotten. -/
theorem slow_reader_forgotten :
    ¬∀ ofTypeStr n S, Works ofTypeStr (fun _ _ => True) n S → Survives S := by
  intro hclaim
  have hrun : ((System.initial .stored 0).takeAll .stored (fun _ => .raw) unread).map
      (fun S => S.all settled && S.pool.shared.inner.subscriptions.entries.isEmpty &&
        (S.pool.shared.streams.lookup 0).isSome) = some true := by decide +kernel
  obtain ⟨S, hS, hview⟩ := Option.map_eq_some_iff.mp hrun
  rw [Bool.and_eq_true, Bool.and_eq_true] at hview
  obtain ⟨stream, hstream⟩ := Option.isSome_iff_exists.mp hview.2
  obtain ⟨n, run⟩ := works_takeAll (Run.start ⟨.stored, 0, rfl⟩) hS
  obtain ⟨harrives, hleaves⟩ := settled_alone hS (by decide +kernel) hview.1.1 0
  have hentry := (hclaim _ n S run 0 stream hstream harrives hleaves).entry
  rw [AList.lookup, List.isEmpty_iff.mp hview.1.2] at hentry
  cases hentry

end NetTables.Client
