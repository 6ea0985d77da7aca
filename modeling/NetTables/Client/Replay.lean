import NetTables.Client.Programs
import NetTables.Client.Tasks

namespace NetTables.Client

open Lib Spec

/-- The pubuids that a message publishes. -/
def publishes : SocketMessage → List UInt32
  | .text messages => messages.filterMap fun
    | .publish p => some p.pubuid
    | _ => none
  | .value _ _ _ _ => []

/-- One of the messages publishes this pubuid. -/
def PublishedIn (sent : List SocketMessage) (p : UInt32) : Prop := ∃ m ∈ sent, p ∈ publishes m

/-- Every value comes after a message that publishes its pubuid. -/
def Preceded (sent : List SocketMessage) : Prop :=
  ∀ before m after p, sent = before ++ m :: after → valueOf m = some p → PublishedIn before p

section Preceded

variable {sent more : List SocketMessage} {m : SocketMessage} {p : UInt32}

theorem PublishedIn.append (h : PublishedIn sent p) (more : List SocketMessage) :
    PublishedIn (sent ++ more) p := by
  obtain ⟨m, hm, hp⟩ := h
  exact ⟨m, List.mem_append_left _ hm, hp⟩

theorem publishedIn_snoc (h : p ∈ publishes m) : PublishedIn (sent ++ [m]) p :=
  ⟨m, by simp, h⟩

theorem preceded_nil : Preceded [] := by
  intro before m after p h
  cases before <;> cases h

theorem Preceded.of_append (h : Preceded (sent ++ more)) : Preceded sent := by
  intro before m after p heq hm
  apply h before m (after ++ more) p _ hm
  rw [heq, List.append_assoc, List.cons_append]

theorem Preceded.snoc (h : Preceded sent) (hm : ∀ p, valueOf m = some p → PublishedIn sent p) :
    Preceded (sent ++ [m]) := by
  intro before m' after p heq hvalue
  rcases List.eq_nil_or_concat after with rfl | ⟨after, last, rfl⟩
  · -- the value is the new message
    obtain ⟨rfl, hlast⟩ := List.append_inj' heq rfl
    cases hlast
    exact hm p hvalue
  · rw [List.concat_eq_append, ← List.cons_append, ← List.append_assoc] at heq
    obtain ⟨hinit, -⟩ := List.append_inj' heq rfl
    exact h before m' after p hinit hvalue

end Preceded

/-- The client's map has a topic with this pubuid. -/
def ClientState.Publishes (c : ClientState) (p : UInt32) : Prop :=
  ∃ topic, c.inner.clientPublishedTopics.lookup p = some topic ∧ topic.pubuid = p

/-- A change of the client that forgets no pubuid. -/
def Remembers (f : ClientState → ClientState) : Prop := ∀ c p, c.Publishes p → (f c).Publishes p

/-- A change of the client that does not enter this pubuid. -/
def Omits (p : UInt32) (f : ClientState → ClientState) : Prop :=
  ∀ c, (f c).Publishes p → c.Publishes p

/-- What is left of a task enters this pubuid only after a message that publishes it. -/
def PublishesFirst (p : UInt32) (rest : ClientM Unit) : Prop :=
  rest.Until (p ∈ publishes ·) (Omits p)

/-- The socket task is on its way to a replay that has every pubuid of the map. -/
def WillReplay (p : UInt32) (rest : ClientM Unit) : Prop :=
  rest.Comes (ClientState.Publishes · p) (p ∈ publishes ·)

/-- Nothing is forgotten, and values are only sent for these pubuids. -/
def SendsOnly (known : UInt32 → Prop) (rest : ClientM Unit) : Prop :=
  rest.All Remembers fun m => ∀ p, valueOf m = some p → known p

/-- A value is published under a pubuid that `publish_topic` has entered. A new connection comes
while every value on the channel stands behind a message that publishes its pubuid, and so do the
calls of `publish_topic` that are about to enter theirs. And before the replay no value is sent that
is not published on the new connection. -/
def KeepsOrder (S : System) : Event → Prop
  | .call _ (.publishValue topic _) => S.pool.shared.Publishes topic.pubuid
  | .call _ (.publishValueWTimestamp topic _ _) => S.pool.shared.Publishes topic.pubuid
  | .moves t => ∀ m next p, S.pool.rest t = .send m next → valueOf m = some p →
      S.connected = true → WillReplay p (S.pool.rest .socket) →
      PublishedIn (S.wire ++ S.pool.queue) p
  | .reconnected => Preceded S.pool.queue ∧
      ∀ t p, PublishedIn S.pool.queue p ∨ PublishesFirst p (S.pool.rest t)
  | _ => True

/-- Values stand behind what publishes them, on the wire and, as long as there is a connection, on
the channel behind it. -/
structure InOrder (S : System) : Prop where
  wire : Preceded S.wire
  sends : ∀ t, SendsOnly S.pool.shared.Publishes (S.pool.rest t)
  stream : S.connected = true → Preceded (S.wire ++ S.pool.queue)
  entering : S.connected = true → ∀ t p,
    PublishedIn (S.wire ++ S.pool.queue) p ∨ PublishesFirst p (S.pool.rest t)
  entered : S.connected = true → ∀ p, S.pool.shared.Publishes p →
    PublishedIn (S.wire ++ S.pool.queue) p ∨ WillReplay p (S.pool.rest .socket)

section Programs

/-- The pubuids stay, and no value is published. -/
def Plain (rest : ClientM Unit) : Prop :=
  rest.All (fun f => ∀ c, (f c).inner.clientPublishedTopics = c.inner.clientPublishedTopics)
    fun m => valueOf m = none

theorem Plain.sendsOnly {rest : ClientM Unit} (h : Plain rest) (known : UInt32 → Prop) :
    SendsOnly known rest := by
  apply Prog.All.mono h
  · intro f hf c p hp
    rwa [ClientState.Publishes, hf]
  · intro m hm p hp
    rw [hm] at hp
    cases hp

theorem Plain.publishesFirst {rest : ClientM Unit} (h : Plain rest) (p : UInt32) :
    PublishesFirst p rest := by
  have homits : rest.All (Omits p) fun _ => True := by
    apply Prog.All.mono h
    · intro f hf c hp
      rwa [ClientState.Publishes, hf] at hp
    · intro m _
      trivial
  exact homits.until

theorem Modest.plain {rest : ClientM Unit} (h : Modest rest) : Plain rest :=
  Prog.All.mono h (fun _ hf => hf.published) fun _ hm => hm

/-- A new connection's program comes to the replay, which has every pubuid. -/
theorem willReplay_onOpen (o : IterOrder) (p : UInt32) : WillReplay p (InnerClient.onOpen o) := by
  intro _ _ _ _ c hp _ _
  apply Prog.comes_bind InnerClient.updateTime
  intro _
  refine .inl ?_
  obtain ⟨topic, ht, rfl⟩ := hp
  apply List.mem_filterMap.mpr
  refine ⟨topic.asPublish, List.mem_append_left _ ?_, rfl⟩
  exact List.mem_map.mpr ⟨(topic.pubuid, topic), (o.mem_walk _ _ _).mpr ht, rfl⟩

theorem plain_unsubscribe (sub : StreamId) : Plain (AsyncClientHandle.unsubscribe sub) := by
  simp only [AsyncClientHandle.unsubscribe, Prog.read_bind]
  refine ⟨fun _ => rfl, fun c => ?_⟩
  dsimp only
  split
  · trivial
  · exact ⟨rfl, fun _ => rfl, fun _ => ⟨fun _ => rfl, fun _ => trivial⟩⟩

/-- A call that neither publishes a topic nor a value. -/
def ApiCall.isPlain : ApiCall → Bool
  | .publishTopic _ _ _ | .publishValue _ _ | .publishValueWTimestamp _ _ _ => false
  | _ => true

theorem plain_program {call : ApiCall} (h : call.isPlain = true) : Plain call.program := by
  cases call with
  | unpublish topic => exact ⟨rfl, trivial⟩
  | subscribeWOptions topicNames options =>
    exact ⟨fun _ => rfl, fun _ => ⟨rfl, fun _ => rfl, fun _ => ⟨fun _ => rfl, fun _ => trivial⟩⟩⟩
  | unsubscribe sub => exact plain_unsubscribe sub
  | dropStream sub => exact ⟨fun _ => rfl, fun _ => trivial⟩
  | takeMessage sub => exact (modest_takeMessage sub).plain
  | _ => cases h

/-- A topic that is entered under its own pubuid. -/
theorem publishes_insert {c c' : ClientState} {topic : PublishedTopic} {k p : UInt32}
    (hk : topic.pubuid = k) (hc : c'.inner.clientPublishedTopics =
      c.inner.clientPublishedTopics.insert k topic) :
    c'.Publishes p ↔ p = k ∨ c.Publishes p := by
  simp only [ClientState.Publishes, hc, KeyMap.lookup_insert]
  by_cases hp : p = k
  · simp [hp, hk]
  · simp [hp]

theorem sendsOnly_publishTopic (known : UInt32 → Prop) (name : String) (topicType : FrcType)
    (properties : Option PublishProperties) :
    SendsOnly known (ApiCall.publishTopic name topicType properties).program := by
  refine ⟨fun _ _ hp => hp, fun c => ⟨nofun, fun c' p hp => ?_, fun _ => trivial⟩⟩
  exact (publishes_insert (k := c.nextTopicId) rfl rfl).mpr (.inr hp)

/-- The message comes before the entry. -/
theorem publishesFirst_publishTopic (p : UInt32) (name : String) (topicType : FrcType)
    (properties : Option PublishProperties) :
    PublishesFirst p (ApiCall.publishTopic name topicType properties).program := by
  refine ⟨fun _ hp => hp, fun c => ?_⟩
  by_cases hid : p = c.nextTopicId
  · let topic : PublishedTopic :=
      ⟨AsyncClientHandle.cleanName name, c.nextTopicId, topicType, properties⟩
    refine .inl (List.mem_filterMap.mpr ⟨topic.asPublish, ?_, congrArg some hid.symm⟩)
    cases properties <;> exact List.mem_cons_self ..
  · refine .inr ⟨fun c' hp => ?_, fun _ => trivial⟩
    exact ((publishes_insert (k := c.nextTopicId) rfl rfl).mp hp).resolve_left hid

/-- Values are published under what is known. -/
theorem sendsOnly_program {S : System} {n : Nat} {call : ApiCall}
    (h : KeepsOrder S (.call n call)) :
    SendsOnly S.pool.shared.Publishes call.program := by
  cases call with
  | publishTopic name topicType properties => exact sendsOnly_publishTopic _ _ _ _
  | publishValue topic v =>
    refine ⟨fun _ _ hp => hp, fun _ => ⟨fun p hp => ?_, trivial⟩⟩
    cases hp
    exact h
  | publishValueWTimestamp topic timestamp v =>
    refine ⟨fun p hp => ?_, trivial⟩
    cases hp
    exact h
  | _ => exact (plain_program rfl).sendsOnly _

theorem publishesFirst_program (call : ApiCall) (p : UInt32) : PublishesFirst p call.program := by
  cases call with
  | publishTopic name topicType properties => exact publishesFirst_publishTopic _ _ _ _
  | publishValue topic v => exact ⟨fun _ hp => hp, fun _ => .inr trivial⟩
  | publishValueWTimestamp topic timestamp v => exact .inr trivial
  | _ => exact (plain_program rfl).publishesFirst _

end Programs

section InOrder

variable {ofTypeStr : String → FrcType} {S S' : System} {e : Event}

theorem InOrder.initial (o : IterOrder) (now : Instant) : InOrder (.initial o now) := by
  have hplain : ∀ t, Plain ((System.initial o now).pool.rest t) := by
    intro t
    simp only [System.initial]
    split_ifs
    · exact (modest_onOpen o).plain
    · trivial
  refine ⟨preceded_nil, fun t => (hplain t).sendsOnly _, fun _ => preceded_nil,
    fun _ t p => .inr ((hplain t).publishesFirst p), fun _ p hp => ?_⟩
  obtain ⟨topic, htopic, -⟩ := hp
  cases htopic

/-- A task goes on with a program that keeps what was known of the one before. -/
theorem InOrder.startTask (h : InOrder S) {t : TaskId} {next : ClientM Unit}
    (hsends : SendsOnly S.pool.shared.Publishes next)
    (hfirst : ∀ p, PublishesFirst p (S.pool.rest t) → PublishesFirst p next)
    (hreplay : ∀ p, WillReplay p (S.pool.rest t) → WillReplay p next) :
    InOrder (S.startTask t next) := by
  refine ⟨h.wire, fun t' => ?_, h.stream, fun hc t' p => ?_, fun hc p hp => ?_⟩
  · by_cases heq : t' = t
    · simpa [System.startTask, heq] using hsends
    · simpa [System.startTask, Pool.start_rest_of_ne _ heq] using h.sends t'
  · refine (h.entering hc t' p).imp_right fun hf => ?_
    by_cases heq : t' = t
    · subst heq
      simpa [System.startTask] using hfirst p hf
    · simpa [System.startTask, Pool.start_rest_of_ne _ heq] using hf
  · refine (h.entered hc p hp).imp_right fun hr => ?_
    by_cases heq : .socket = t
    · subst heq
      simpa [System.startTask] using hreplay p hr
    · simpa [System.startTask, Pool.start_rest_of_ne _ heq] using hr

/-- A task gets a program that sends no value ahead of its topic. -/
theorem InOrder.startDone (h : InOrder S) {t : TaskId} {p : ClientM Unit}
    (hdone : S.pool.rest t = .pure ()) (hsends : SendsOnly S.pool.shared.Publishes p)
    (hfirst : ∀ q, PublishesFirst q p) : InOrder (S.startTask t p) := by
  apply h.startTask hsends
  · exact fun q _ => hfirst q
  · -- a task that is still to replay has something left
    intro q hreplay
    rw [hdone] at hreplay
    exact hreplay.elim

theorem SendsOnly.mono {known known' : UInt32 → Prop} {rest : ClientM Unit}
    (h : SendsOnly known rest) (hle : ∀ p, known p → known' p) : SendsOnly known' rest :=
  Prog.All.mono h (fun _ hf => hf) fun _ hm p hp => hle p (hm p hp)

/-- A step on the state: what is entered has been published before. -/
theorem InOrder.act (h : InOrder S) {t : TaskId} {f : ClientState → ClientState}
    {next : ClientState → ClientM Unit} (hrest : S.pool.rest t = .act f next) :
    InOrder { S with pool := { S.pool.start t (next S.pool.shared) with
      shared := f S.pool.shared } } := by
  have hsends := h.sends t
  rw [hrest] at hsends
  refine ⟨h.wire, fun t' => ?_, h.stream, fun hc t' p => ?_, fun hc p hp => ?_⟩
  · have hkept := hsends.1 S.pool.shared
    by_cases heq : t' = t
    · subst heq
      have hnext : SendsOnly S.pool.shared.Publishes (next S.pool.shared) := hsends.2 _
      simpa using hnext.mono hkept
    · have hother := (h.sends t').mono hkept
      simpa [Pool.start_rest_of_ne _ heq] using hother
  · refine (h.entering hc t' p).imp_right fun hfirst => ?_
    by_cases heq : t' = t
    · subst heq
      rw [hrest] at hfirst
      have hnext : PublishesFirst p (next S.pool.shared) := hfirst.2 _
      simpa using hnext
    · simpa [Pool.start_rest_of_ne _ heq] using hfirst
  · by_cases hold : S.pool.shared.Publishes p
    · refine (h.entered hc p hold).imp_right fun hreplay => ?_
      by_cases heq : .socket = t
      · subst heq
        rw [hrest] at hreplay
        have hnext : WillReplay p (next S.pool.shared) := hreplay _ hold
        simpa using hnext
      · simpa [Pool.start_rest_of_ne _ heq] using hreplay
    · refine (h.entering hc t p).imp_right fun hfirst => ?_
      rw [hrest] at hfirst
      exact absurd (hfirst.1 S.pool.shared hp) hold

/-- A step on a mutex changes nothing. -/
theorem InOrder.mutex (h : InOrder S) {t : TaskId} {next : ClientM Unit} {l : Mutex}
    {holder : Option TaskId}
    (hrest : S.pool.rest t = .lock l next ∨ S.pool.rest t = .unlock l next) :
    InOrder { S with pool := (S.pool.start t next).give l holder } := by
  have hnext : ∀ {P : ClientM Unit → Prop}, (P (.lock l next) → P next) →
      (P (.unlock l next) → P next) → P (S.pool.rest t) → P next := by
    intro P hlock hunlock hP
    rcases hrest with hrest | hrest
    · exact hlock (hrest ▸ hP)
    · exact hunlock (hrest ▸ hP)
  have hstart := h.startTask (t := t) (hnext id id (h.sends t)) (fun _ => hnext id id)
    fun _ => hnext id id
  exact ⟨hstart.wire, hstart.sends, hstart.stream, hstart.entering, hstart.entered⟩

/-- A message: a value stands behind what publishes its pubuid, and a publication or the replay
settles what was still to be published. -/
theorem InOrder.send (h : InOrder S) {t : TaskId} {m : SocketMessage} {next : ClientM Unit}
    (hrest : S.pool.rest t = .send m next) (hguard : KeepsOrder S (.moves t)) :
    InOrder { S with pool := { S.pool.start t next with queue := S.pool.queue ++ [m] } } := by
  have hsends := h.sends t
  rw [hrest] at hsends
  -- what has a pubuid published, or is about to send the message, has it published after the step
  have hthen : ∀ {p : UInt32} {P : ClientM Unit → Prop} (t' : TaskId),
      (P (.send m next) → p ∈ publishes m ∨ P next) →
      PublishedIn (S.wire ++ S.pool.queue) p ∨ P (S.pool.rest t') →
      PublishedIn (S.wire ++ (S.pool.queue ++ [m])) p ∨ P ((S.pool.start t next).rest t') := by
    intro p P t' hP hor
    rw [← List.append_assoc]
    rcases hor with hpub | hor
    · exact .inl (hpub.append _)
    · by_cases heq : t' = t
      · subst heq
        rw [hrest] at hor
        rw [Pool.start_rest_self]
        exact (hP hor).imp_left publishedIn_snoc
      · rw [Pool.start_rest_of_ne _ heq]
        exact .inr hor
  refine ⟨h.wire, fun t' => ?_, fun hc => ?_, fun hc t' p => ?_, fun hc p hp => ?_⟩
  · by_cases heq : t' = t
    · subst heq
      have hnext : SendsOnly S.pool.shared.Publishes next := hsends.2
      simpa using hnext
    · simpa [Pool.start_rest_of_ne _ heq] using h.sends t'
  · show Preceded (S.wire ++ (S.pool.queue ++ [m]))
    rw [← List.append_assoc]
    apply (h.stream hc).snoc
    intro p hp
    rcases h.entered hc p (hsends.1 p hp) with hpub | hreplay
    · exact hpub
    · exact hguard m next p hrest hp hc hreplay
  · exact hthen t' id (h.entering hc t' p)
  · exact hthen .socket id (h.entered hc p hp)

theorem InOrder.step (h : InOrder S) (hstep : Takes ofTypeStr S e S') (hguard : KeepsOrder S e) :
    InOrder S' := by
  cases hstep with
  | @moves t _ hmoves =>
    cases hmoves with
    | act hrest => exact h.act hrest
    | lock hrest hfree => exact h.mutex (.inl hrest)
    | unlock hrest => exact h.mutex (.inr hrest)
    | send hrest hroom => exact h.send hrest hguard
  | incoming o hs =>
    have hplain := (modest_handleMessage o ofTypeStr ‹_›).plain
    exact h.startDone hs.2 (hplain.sendsOnly _) hplain.publishesFirst
  | connectionLost hs => exact ⟨h.wire, h.sends, nofun, nofun, nofun⟩
  | @written m queue hs hqueue =>
    -- the message leaves the channel for the wire
    have hstream : S.wire ++ [m] ++ queue = S.wire ++ S.pool.queue := by
      rw [hqueue, List.append_assoc, List.singleton_append]
    refine ⟨?_, h.sends, ?_, ?_, ?_⟩
    · have hall := h.stream hs.1
      rw [← hstream] at hall
      exact hall.of_append
    · rw [hstream]
      exact h.stream
    · rw [hstream]
      exact h.entering
    · rw [hstream]
      exact h.entered
  | writeFailed hs hqueue => exact ⟨h.wire, h.sends, nofun, nofun, nofun⟩
  | reconnected o hc =>
    obtain ⟨hqueue, hothers⟩ := hguard
    have hplain := (modest_onOpen o).plain
    refine ⟨preceded_nil, fun t => ?_, fun _ => hqueue, fun _ t p => ?_, fun _ p _ => ?_⟩
    · by_cases heq : t = .socket
      · simpa [System.startTask, heq] using hplain.sendsOnly _
      · simpa [System.startTask, Pool.start_rest_of_ne _ heq] using h.sends t
    · by_cases heq : t = .socket
      · right
        simpa [System.startTask, heq] using hplain.publishesFirst p
      · simpa [System.startTask, Pool.start_rest_of_ne _ heq] using hothers t p
    · right
      simpa [System.startTask] using willReplay_onOpen o p
  | timer hopen hdone =>
    have hplain := modest_updateTime.plain
    exact h.startDone hdone (hplain.sendsOnly _) hplain.publishesFirst
  | call hopen hdone =>
    exact h.startDone hdone (sendsOnly_program hguard) (publishesFirst_program _)
  | tick micros => exact ⟨h.wire, h.sends, h.stream, h.entering, h.entered⟩

end InOrder

/-- On the newest connection every value comes after a message that publishes its pubuid. -/
theorem values_preceded {ofTypeStr : String → FrcType} {n : Nat} {S : System}
    (run : Works ofTypeStr KeepsOrder n S) : Preceded S.wire := by
  have horder : InOrder S := by
    refine run.invariant (fun _ S => InOrder S) ?_ ?_
    · intro S hinit
      obtain ⟨o, now, rfl⟩ := hinit
      exact .initial o now
    · intro k S e S' _ h hguard hstep
      exact h.step hstep hguard
  exact horder.wire

section Perform

/-- What the order asks for a step, apart from a new connection. -/
def System.keepsOrder (S : System) : Event → Bool
  | .call _ (.publishValue topic _) | .call _ (.publishValueWTimestamp topic _ _) =>
    (S.pool.shared.inner.clientPublishedTopics.lookup topic.pubuid).any fun known =>
      known.pubuid = topic.pubuid
  | .moves t => (S.pool.rest t).sending.all fun m => (valueOf m).all fun p =>
    (S.wire ++ S.pool.queue).any fun m => p ∈ publishes m
  | .reconnected => false
  | _ => true

theorem keepsOrder_of_keepsOrder {S : System} {e : Event} (h : S.keepsOrder e = true) :
    KeepsOrder S e := by
  cases e with
  | call n call =>
    cases call with
    | publishValue topic | publishValueWTimestamp topic =>
      obtain ⟨known, hknown, hpubuid⟩ := (Option.any_eq_true ..).mp h
      exact ⟨known, hknown, of_decide_eq_true hpubuid⟩
    | _ => trivial
  | moves t =>
    intro m next p hrest hvalue _ _
    simp only [System.keepsOrder, hrest, Prog.sending, hvalue, Option.all_some] at h
    obtain ⟨m', hm', hp⟩ := List.any_eq_true.mp h
    exact ⟨m', hm', of_decide_eq_true hp⟩
  | reconnected => cases h
  | _ => trivial

end Perform

/-- A topic has been published when the connection is lost. -/
def publishedBefore : List Event :=
  List.replicate 15 (.moves .start) ++ [.call 0 (.publishTopic "n" .int none)] ++
    List.replicate 5 (.moves (.user 0)) ++ List.replicate 3 .written ++ [.connectionLost]

/-- The replay is written, and then a value of the topic. -/
def valueBehind : List Event :=
  List.replicate 15 (.moves .socket) ++ List.replicate 2 .written ++
    [.call 0 (.publishValueWTimestamp ⟨"n", 1, .int, none⟩ 0 .nil), .moves (.user 0), .written]

theorem values_preceded_valueBehind : ∃ n S, Works (fun _ => .raw) KeepsOrder n S ∧
    S.wire.map (fun m => (valueOf m, publishes m)) = [(none, []), (none, [1]), (some 1, [])] ∧
    Preceded S.wire := by
  have hrun : ((System.initial .stored 0).takeAllIf .stored (fun _ => .raw) System.keepsOrder
      publishedBefore).bind (fun S => (S.take .stored (fun _ => .raw) .reconnected).bind fun T =>
        (T.takeAllIf .stored (fun _ => .raw) System.keepsOrder valueBehind).map fun U =>
          ((S.all Prog.isDone, S.pool.queue.isEmpty),
            U.wire.map fun m => (valueOf m, publishes m))) =
      some ((true, true), [(none, []), (none, [1]), (some 1, [])]) := by
    decide +kernel
  obtain ⟨S, hS, hrun⟩ := Option.bind_eq_some_iff.mp hrun
  obtain ⟨T, hT, hrun⟩ := Option.bind_eq_some_iff.mp hrun
  obtain ⟨U, hU, hview⟩ := Option.map_eq_some_iff.mp hrun
  simp only [Prod.mk.injEq] at hview
  obtain ⟨⟨hdone, hqueue⟩, hwire⟩ := hview
  obtain ⟨n, before⟩ := works_takeAllIf (fun _ _ => keepsOrder_of_keepsOrder)
    (Run.start ⟨.stored, 0, rfl⟩) hS
  have hkeeps : KeepsOrder S .reconnected := by
    rw [List.isEmpty_iff] at hqueue
    refine ⟨hqueue ▸ preceded_nil, fun t p => .inr ?_⟩
    have hrest := all_alone (takeAll_of_takeAllIf hS) (by decide) hdone rfl t
    rw [Prog.eq_pure_of_isDone hrest]
    trivial
  have hnew := before.step hkeeps (takes_of_take hT)
  obtain ⟨n', run⟩ := works_takeAllIf (fun _ _ => keepsOrder_of_keepsOrder) hnew hU
  exact ⟨n', U, run, hwire, values_preceded run⟩

/-- `start` has run to its end, a topic has been published, and its value waits on the channel. -/
def valueWaits : List Event :=
  List.replicate 15 (.moves .start) ++ [.call 0 (.publishTopic "n" .int none)] ++
    List.replicate 5 (.moves (.user 0)) ++ List.replicate 3 .written ++
    [.call 0 (.publishValueWTimestamp ⟨"n", 1, .int, none⟩ 0 .nil), .moves (.user 0)]

/-- The value that waits is sent before the replay. -/
theorem value_before_replay :
    ¬∀ ofTypeStr n S, Works ofTypeStr (fun _ _ => True) n S → Preceded S.wire := by
  intro hclaim
  have hrun : ((System.initial .stored 0).takeAll .stored (fun _ => .raw)
      (valueWaits ++ [.connectionLost, .reconnected] ++
        List.replicate 15 (.moves .socket) ++ [.written])).map
      (fun S => S.wire.map fun m => (valueOf m, publishes m)) = some [(some 1, [])] := by
    decide +kernel
  obtain ⟨S, hS, hwire⟩ := Option.map_eq_some_iff.mp hrun
  obtain ⟨n, run⟩ := works_takeAll (Run.start ⟨.stored, 0, rfl⟩) hS
  obtain ⟨m, hm, hvalue⟩ := List.map_eq_singleton_iff.mp hwire
  obtain ⟨p, hp, -⟩ := hclaim _ n S run [] m [] 1 hm (congrArg Prod.fst hvalue)
  cases hp

end NetTables.Client
