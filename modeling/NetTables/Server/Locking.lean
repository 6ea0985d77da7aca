import NetTables.Lib.Nesting

namespace NetTables.Server.Locking

open Lib

/-- The mutexes of the server. -/
inductive Mutex where
  | topics
  | topicMap
  | pubCount
  | topicValueMap
  | metatopicValueMap
  | clientMap
  | clients
  | clientMetatopicMap
  | subscriptions
  | topicSubMap
  | subSendTimestamps
  | subValues
  | counters
  deriving DecidableEq

/-- What a function of the server does to the mutexes. Where a branch or a loop depends on the data
it looks at a number, which may be any; a message to a client is a wait like any other. -/
abbrev ServerM := Prog Mutex Empty Nat

/-- What the data says. -/
def finds : ServerM Bool := .act id fun n => .pure (n != 0)

def rounds (body : ServerM Bool) : Nat → ServerM Bool
  | 0 => pure true
  | n + 1 => do
    if ← body then
      rounds body n
    else
      pure false

/-- A loop that ends with the first round that fails. -/
def loop (body : ServerM Bool) : ServerM Bool := do
  let n ← Prog.read
  rounds body n

/-- A guard that lives as long as this part of the function. -/
def holding {α : Type} (l : Mutex) (body : ServerM α) : ServerM α := do
  Prog.acquire l
  let a ← body
  Prog.release l
  pure a

/-- A guard that is dropped at once. -/
def brief (l : Mutex) : ServerM Unit := do
  Prog.acquire l
  Prog.release l

section InnerServer

/-- Whether the topic is a new one. -/
def insertTopic : ServerM Bool := do
  if ← holding .topicMap finds then
    pure false
  else
    holding .topics (brief .counters)
    brief .pubCount
    brief .topicMap
    brief .topicSubMap
    pure true

/-- `announce_topic`, with a response to the publisher or without. -/
def announceTopic (response : Bool) : ServerM Bool := do
  let announced ← holding .topics do
    if ← finds then
      -- the guard of the clients lives while the response is sent
      if response then holding .clients finds else pure true
    else
      pure false
  if announced then
    brief .subscriptions
    holding .clients (loop finds)
  else
    pure false

/-- `add_topic` of a name with a `$`. -/
def addMetaTopic : ServerM Unit := do
  let _ ← insertTopic

def addTopic : ServerM Bool := do
  if ← insertTopic then
    -- metatopics don't make it past this point
    if ← finds then
      pure true
    else
      addMetaTopic
      if ← announceTopic false then
        addMetaTopic
        announceTopic false
      else
        pure false
  else
    pure true

def removeTopic : ServerM Bool := do
  Prog.acquire .topics
  if ← finds then
    Prog.acquire .topicMap
    if ← finds then
      Prog.release .topics
      Prog.release .topicMap
      holding .topicSubMap (holding .topicValueMap (brief .metatopicValueMap))
      pure true
    else
      Prog.release .topicMap
      Prog.release .topics
      pure false
  else
    Prog.release .topics
    pure false

/-- The server's metatopic, or the client's. -/
def updateMetatopics : ServerM Bool := do
  if ← finds then
    brief .metatopicValueMap
    pure true
  else
    holding .clientMetatopicMap do
      if ← finds then
        brief .metatopicValueMap
        pure true
      else
        pure false

def innerPublishTopic : ServerM Bool := do
  if ← addTopic then
    if ← announceTopic true then
      if ← holding .clients finds then
        updateMetatopics
      else
        pure false
    else
      pure false
  else
    pure false

def innerUnpublishTopic : ServerM Bool := do
  let found ← holding .clients do
    if ← finds then
      brief .topics
      pure true
    else
      pure false
  if found then
    -- this guard lives to the end of the function
    holding .pubCount do
      if ← finds then
        -- the last publisher is gone
        let last ← finds
        if ← (if last then removeTopic else pure true) then
          updateMetatopics
        else
          pure false
      else
        pure false
  else
    pure false

def subscribe : ServerM Bool :=
  holding .clients do
    if ← finds then
      holding .topicMap (holding .topicSubMap (holding .topicValueMap do
        brief .counters
        holding .topics do
          if ← loop finds then
            brief .subSendTimestamps
            brief .subValues
            brief .subscriptions
            finds
          else
            pure false))
    else
      pure false

def unsubscribe : ServerM Bool :=
  holding .clients do
    if ← finds then
      holding .topicSubMap do
        brief .subscriptions
        brief .subValues
        brief .subSendTimestamps
        pure true
    else
      pure false

def setProperties : ServerM Bool := do
  if ← holding .topicMap finds then
    holding .topics finds
  else
    pure false

def setValue : ServerM Bool := do
  if ← holding .topics finds then
    holding .subValues (brief .topicSubMap)
    brief .topicValueMap
    pure true
  else
    pure false

/-- It never returns an index. -/
def getTopicIdx : ServerM Bool := do
  brief .topicMap
  pure false

def getValue : ServerM Bool := holding .topicValueMap finds

def disconnectClient : ServerM Bool := do
  if ← holding .clientMap finds then
    -- the guard of the clients lives as long as the client is looked at
    holding .clients do
      if ← finds then
        let released ← loop (holding .pubCount do
          if ← finds then removeTopic else pure true)
        if released then
          if ← holding .clientMetatopicMap finds then
            if ← removeTopic then removeTopic else pure false
          else
            pure true
        else
          pure false
      else
        pure false
  else
    pure false

def connectClient : ServerM Bool := do
  if ← holding .clientMap finds then
    pure false
  else
    Prog.acquire .clients
    Prog.acquire .counters
    brief .clientMap
    brief .metatopicValueMap
    -- need to free mutexes before calling add_topic
    Prog.release .clients
    Prog.release .counters
    addMetaTopic
    addMetaTopic
    brief .clientMetatopicMap
    pure true

end InnerServer

section Runner

/-- A binary frame in the parser: every value of it that has a topic is set. -/
def binary : ServerM Bool :=
  holding .clients (loop do
    if ← finds then
      let _ ← setValue
      pure true
    else
      pure true)

/-- One turn of the `send_out` loop. -/
def sendOut : ServerM Unit := do
  Prog.acquire .subscriptions
  if ← finds then
    Prog.release .subscriptions
  else
    Prog.acquire .subValues
    Prog.acquire .subSendTimestamps
    Prog.acquire .clients
    Prog.release .subscriptions
    Prog.release .subSendTimestamps
    Prog.release .subValues
    Prog.release .clients

end Runner

section Handle

def publishTopicWProps : ServerM Bool := do
  if ← innerPublishTopic then setValue else pure false

def setTopicValueWTimestamp : ServerM Bool := do
  if ← getTopicIdx then setValue else pure false

def getTopicValue : ServerM Bool := do
  if ← getTopicIdx then getValue else pure false

def getTopicNames : ServerM Unit := brief .topicMap

end Handle

section Within

variable {E : Mutex → Mutex → Prop} {held : List Mutex} {α β : Type}

/-- The function takes its mutexes under those held, and leaves these as they are. -/
def Within (E : Mutex → Mutex → Prop) (held : List Mutex) (p : ServerM α) : Prop :=
  p.Nests E (fun _ => True) held held

theorem within_pure (a : α) : Within E held (pure a : ServerM α) := rfl

theorem within_finds : Within E held finds := fun _ => rfl

theorem Within.then {p : ServerM α} {next : α → ServerM β} (h : Within E held p)
    (hnext : ∀ a, Within E held (next a)) : Within E held (p >>= next) := Prog.Nests.bind h hnext

theorem Within.ifThen {p : ServerM Bool} {a b : ServerM α} {last : List Mutex}
    (h : Within E held p) (ha : a.Nests E (fun _ => True) held last)
    (hb : b.Nests E (fun _ => True) held last) :
    (do if ← p then a else b : ServerM α).Nests E (fun _ => True) held last := by
  apply Prog.Nests.bind h
  intro r
  cases r with
  | true => exact ha
  | false => exact hb

theorem within_holding {l : Mutex} {body : ServerM α} (hl : ∀ a ∈ held, E a l)
    (h : Within E (l :: held) body) : Within E held (holding l body) := by
  have hrest : (body >>= fun a => Prog.release l >>= fun _ => pure a).Nests E (fun _ => True)
      (l :: held) held := by
    apply Prog.Nests.bind h
    exact fun _ => List.erase_cons_head ..
  exact ⟨hl, hrest⟩

theorem within_brief {l : Mutex} (hl : ∀ a ∈ held, E a l) : Within E held (brief l) :=
  ⟨hl, List.erase_cons_head ..⟩

theorem within_loop {body : ServerM Bool} (h : Within E held body) : Within E held (loop body) := by
  have hrounds : ∀ n, Within E held (rounds body n) := by
    intro n
    induction n with
    | zero => exact within_pure true
    | succ n ih => exact h.ifThen ih (within_pure false)
  exact fun n => hrounds n

end Within

section Functions

variable {E : Mutex → Mutex → Prop} {held : List Mutex}

theorem within_insertTopic (hE : E .topics .counters) : Within E [] insertTopic := by
  apply (within_holding nofun within_finds).ifThen (within_pure false)
  apply (within_holding nofun (within_brief (by simpa using hE))).then
  intro _
  apply (within_brief nofun).then
  intro _
  apply (within_brief nofun).then
  intro _
  exact (within_brief nofun).then fun _ => within_pure true

theorem within_announceTopic {response : Bool} (hE : response = true → E .topics .clients) :
    Within E [] (announceTopic response) := by
  have htopics : Within E [.topics]
      (if response then holding .clients finds else pure true : ServerM Bool) := by
    split_ifs with h
    · exact within_holding (by simpa using hE h) within_finds
    · exact within_pure true
  apply (within_holding nofun (within_finds.ifThen htopics (within_pure false))).then
  intro announced
  cases announced with
  | true =>
    apply (within_brief nofun).then
    exact fun _ => within_holding nofun (within_loop within_finds)
  | false => exact within_pure false

theorem within_addMetaTopic (hE : E .topics .counters) : Within E [] addMetaTopic :=
  (within_insertTopic hE).then fun _ => within_pure ()

theorem within_addTopic (hE : E .topics .counters) : Within E [] addTopic := by
  have hannounce : Within E [] (announceTopic false) := within_announceTopic nofun
  apply (within_insertTopic hE).ifThen _ (within_pure true)
  apply within_finds.ifThen (within_pure true)
  apply (within_addMetaTopic hE).then
  intro _
  apply hannounce.ifThen _ (within_pure false)
  exact (within_addMetaTopic hE).then fun _ => hannounce

/-- The mutexes of `remove_topic` stand above those held, and in their own order. -/
structure MayRemove (E : Mutex → Mutex → Prop) (held : List Mutex) : Prop where
  above : ∀ a ∈ held, E a .topics ∧ E a .topicMap ∧ E a .topicSubMap ∧ E a .topicValueMap ∧
    E a .metatopicValueMap
  topicMap : E .topics .topicMap
  topicValueMap : E .topicSubMap .topicValueMap
  metatopicValueMap : E .topicSubMap .metatopicValueMap ∧ E .topicValueMap .metatopicValueMap

theorem within_removeTopic (h : MayRemove E held) : Within E held removeTopic := by
  have hmaps : Within E held
      (holding .topicSubMap (holding .topicValueMap (brief .metatopicValueMap))) := by
    apply within_holding fun a ha => (h.above a ha).2.2.1
    apply within_holding
    · intro a ha
      rcases List.mem_cons.mp ha with rfl | ha
      · exact h.topicValueMap
      · exact (h.above a ha).2.2.2.1
    · apply within_brief
      intro a ha
      rcases List.mem_cons.mp ha with rfl | ha
      · exact h.metatopicValueMap.2
      rcases List.mem_cons.mp ha with rfl | ha
      · exact h.metatopicValueMap.1
      · exact (h.above a ha).2.2.2.2
  have hmap : ∀ a ∈ Mutex.topics :: held, E a .topicMap := by
    intro a ha
    rcases List.mem_cons.mp ha with rfl | ha
    · exact h.topicMap
    · exact (h.above a ha).2.1
  -- the topics are given back before the map that was taken after them
  have hremoved : (do
      Prog.release .topics
      Prog.release .topicMap
      holding .topicSubMap (holding .topicValueMap (brief .metatopicValueMap))
      pure true : ServerM Bool).Nests E (fun _ => True) (.topicMap :: .topics :: held) held := by
    have herase : ((Mutex.topicMap :: .topics :: held).erase .topics).erase .topicMap = held := rfl
    have hrest : Within E held (do
        holding .topicSubMap (holding .topicValueMap (brief .metatopicValueMap))
        pure true : ServerM Bool) := hmaps.then fun _ => within_pure true
    rw [← herase] at hrest
    exact hrest
  have hmissing : (do
      Prog.release .topicMap
      Prog.release .topics
      pure false : ServerM Bool).Nests E (fun _ => True) (.topicMap :: .topics :: held) held := by
    exact List.erase_cons_head ..
  refine ⟨fun a ha => (h.above a ha).1, within_finds.ifThen ⟨hmap, ?_⟩ ?_⟩
  · exact within_finds.ifThen hremoved hmissing
  · exact List.erase_cons_head ..

theorem within_updateMetatopics (hupdate : E .clientMetatopicMap .metatopicValueMap)
    (hheld : ∀ a ∈ held, E a .clientMetatopicMap ∧ E a .metatopicValueMap) :
    Within E held updateMetatopics := by
  have hserver : ∀ a ∈ held, E a .metatopicValueMap := fun a ha => (hheld a ha).2
  apply within_finds.ifThen
  · exact (within_brief hserver).then fun _ => within_pure true
  · apply within_holding fun a ha => (hheld a ha).1
    apply within_finds.ifThen _ (within_pure false)
    apply Within.then _ fun _ => within_pure true
    apply within_brief
    intro a ha
    rcases List.mem_cons.mp ha with rfl | ha
    · exact hupdate
    · exact hserver a ha

theorem within_innerPublishTopic (hadd : E .topics .counters) (hrespond : E .topics .clients)
    (hupdate : E .clientMetatopicMap .metatopicValueMap) : Within E [] innerPublishTopic := by
  apply (within_addTopic hadd).ifThen _ (within_pure false)
  apply (within_announceTopic fun _ => hrespond).ifThen _ (within_pure false)
  apply (within_holding nofun within_finds).ifThen _ (within_pure false)
  exact within_updateMetatopics hupdate nofun

theorem within_innerUnpublishTopic (hname : E .clients .topics)
    (hremove : MayRemove E [.pubCount]) (hupdate : E .clientMetatopicMap .metatopicValueMap)
    (hcount : E .pubCount .clientMetatopicMap) : Within E [] innerUnpublishTopic := by
  have hclients : ∀ a ∈ [Mutex.clients], E a .topics := by simpa using hname
  have hheld : ∀ a ∈ [Mutex.pubCount], E a .clientMetatopicMap ∧ E a .metatopicValueMap := by
    intro a ha
    have habove := hremove.above a ha
    cases List.mem_singleton.mp ha
    exact ⟨hcount, habove.2.2.2.2⟩
  have hfound : Within E [] (holding .clients (do
      if ← finds then
        brief .topics
        pure true
      else
        pure false)) := by
    apply within_holding nofun
    apply within_finds.ifThen _ (within_pure false)
    exact (within_brief hclients).then fun _ => within_pure true
  apply hfound.ifThen _ (within_pure false)
  apply within_holding nofun
  apply within_finds.ifThen _ (within_pure false)
  apply within_finds.then
  intro last
  have hremoved : Within E [.pubCount] (if last then removeTopic else pure true) := by
    split_ifs
    · exact within_removeTopic hremove
    · exact within_pure true
  exact hremoved.ifThen (within_updateMetatopics hupdate hheld) (within_pure false)

theorem within_setValue (hvalues : E .subValues .topicSubMap)
    (hheld : ∀ a ∈ held, E a .topics ∧ E a .subValues ∧ E a .topicSubMap ∧ E a .topicValueMap) :
    Within E held setValue := by
  have htopics : ∀ a ∈ held, E a .topics := fun a ha => (hheld a ha).1
  apply (within_holding htopics within_finds).ifThen _ (within_pure false)
  have hstored : Within E held (holding .subValues (brief .topicSubMap)) := by
    apply within_holding fun a ha => (hheld a ha).2.1
    apply within_brief
    intro a ha
    rcases List.mem_cons.mp ha with rfl | ha
    · exact hvalues
    · exact (hheld a ha).2.2.1
  apply hstored.then
  intro _
  have hlatest : ∀ a ∈ held, E a .topicValueMap := fun a ha => (hheld a ha).2.2.2
  exact (within_brief hlatest).then fun _ => within_pure true

theorem within_disconnectClient (hcount : E .clients .pubCount)
    (hmeta : E .clients .clientMetatopicMap) (hremove : MayRemove E [.clients])
    (hreleased : MayRemove E [.pubCount, .clients]) : Within E [] disconnectClient := by
  have hcounts : ∀ a ∈ [Mutex.clients], E a .pubCount := by simpa using hcount
  have hmetas : ∀ a ∈ [Mutex.clients], E a .clientMetatopicMap := by simpa using hmeta
  have hone := within_removeTopic hremove
  apply (within_holding nofun within_finds).ifThen _ (within_pure false)
  apply within_holding nofun
  apply within_finds.ifThen _ (within_pure false)
  have hloop : Within E [.clients] (loop (holding .pubCount (do
      if ← finds then removeTopic else pure true))) := by
    apply within_loop
    apply within_holding hcounts
    exact within_finds.ifThen (within_removeTopic hreleased) (within_pure true)
  apply hloop.ifThen _ (within_pure false)
  apply (within_holding hmetas within_finds).ifThen _ (within_pure true)
  exact hone.ifThen hone (within_pure false)

end Functions

/-- What one of the server's tasks does at a time. -/
inductive Operation where
  | sendOut
  | publish
  | unpublish
  | setProperties
  | subscribe
  | unsubscribe
  | close
  | binary
  | connect
  | publishTopic
  | setTopicValue
  | setTopicProps
  | getTopicValue
  | getTopicNames
  deriving DecidableEq

namespace Operation

def program : Operation → ServerM Unit
  | sendOut => Locking.sendOut
  | publish => do let _ ← innerPublishTopic
  | unpublish => do let _ ← innerUnpublishTopic
  | setProperties => do let _ ← Locking.setProperties
  | subscribe => do let _ ← Locking.subscribe
  | unsubscribe => do let _ ← Locking.unsubscribe
  | close => do let _ ← disconnectClient
  | binary => do let _ ← Locking.binary
  | connect => do let _ ← connectClient
  | publishTopic => do let _ ← publishTopicWProps
  | setTopicValue => do let _ ← setTopicValueWTimestamp
  | setTopicProps => do let _ ← Locking.setProperties
  | getTopicValue => do let _ ← Locking.getTopicValue
  | getTopicNames => Locking.getTopicNames

/-- The mutexes that are taken while this one is held. -/
def under (a : Mutex) (l : List Mutex) : List (Mutex × Mutex) := l.map (a, ·)

/-- Which mutexes the operation takes while it holds which. -/
def nesting : Operation → List (Mutex × Mutex)
  | sendOut =>
    under .subscriptions [.subValues, .subSendTimestamps, .clients] ++
      under .subValues [.subSendTimestamps, .clients] ++ under .subSendTimestamps [.clients]
  | publish =>
    under .topics [.counters, .clients] ++ under .clientMetatopicMap [.metatopicValueMap]
  | unpublish =>
    under .clients [.topics] ++
      under .pubCount [.topics, .topicMap, .topicSubMap, .topicValueMap, .metatopicValueMap,
        .clientMetatopicMap] ++ under .topics [.topicMap] ++
      under .topicSubMap [.topicValueMap, .metatopicValueMap] ++
      under .topicValueMap [.metatopicValueMap] ++ under .clientMetatopicMap [.metatopicValueMap]
  | subscribe =>
    under .clients [.topicMap, .topicSubMap, .topicValueMap, .counters, .topics,
        .subSendTimestamps, .subValues, .subscriptions] ++
      under .topicMap [.topicSubMap, .topicValueMap, .counters, .topics, .subSendTimestamps,
        .subValues, .subscriptions] ++
      under .topicSubMap [.topicValueMap, .counters, .topics, .subSendTimestamps, .subValues,
        .subscriptions] ++
      under .topicValueMap [.counters, .topics, .subSendTimestamps, .subValues, .subscriptions] ++
      under .topics [.subSendTimestamps, .subValues, .subscriptions]
  | unsubscribe =>
    under .clients [.topicSubMap, .subscriptions, .subValues, .subSendTimestamps] ++
      under .topicSubMap [.subscriptions, .subValues, .subSendTimestamps]
  | close =>
    under .clients [.pubCount, .topics, .topicMap, .topicSubMap, .topicValueMap,
        .metatopicValueMap, .clientMetatopicMap] ++
      under .pubCount [.topics, .topicMap, .topicSubMap, .topicValueMap, .metatopicValueMap] ++
      under .topics [.topicMap] ++ under .topicSubMap [.topicValueMap, .metatopicValueMap] ++
      under .topicValueMap [.metatopicValueMap]
  | binary =>
    under .clients [.topics, .subValues, .topicSubMap, .topicValueMap] ++
      under .subValues [.topicSubMap]
  | connect =>
    under .clients [.counters, .clientMap, .metatopicValueMap] ++
      under .counters [.clientMap, .metatopicValueMap] ++ under .topics [.counters]
  | publishTopic =>
    under .topics [.counters, .clients] ++ under .clientMetatopicMap [.metatopicValueMap] ++
      under .subValues [.topicSubMap]
  | setProperties | setTopicValue | setTopicProps | getTopicValue | getTopicNames => []

abbrev MayNest (op : Operation) (a b : Mutex) : Prop := (a, b) ∈ op.nesting

end Operation

theorem within_setProperties {E : Mutex → Mutex → Prop} : Within E [] setProperties :=
  (within_holding nofun within_finds).ifThen (within_holding nofun within_finds) (within_pure false)

theorem within_subscribe : Within Operation.subscribe.MayNest [] subscribe := by
  apply within_holding nofun
  apply within_finds.ifThen _ (within_pure false)
  apply within_holding (by decide)
  apply within_holding (by decide)
  apply within_holding (by decide)
  apply (within_brief (by decide)).then
  intro _
  apply within_holding (by decide)
  apply (within_loop within_finds).ifThen _ (within_pure false)
  apply (within_brief (by decide)).then
  intro _
  apply (within_brief (by decide)).then
  intro _
  exact (within_brief (by decide)).then fun _ => within_finds

theorem within_unsubscribe : Within Operation.unsubscribe.MayNest [] unsubscribe := by
  apply within_holding nofun
  apply within_finds.ifThen _ (within_pure false)
  apply within_holding (by decide)
  apply (within_brief (by decide)).then
  intro _
  apply (within_brief (by decide)).then
  intro _
  exact (within_brief (by decide)).then fun _ => within_pure true

theorem within_binary : Within Operation.binary.MayNest [] binary := by
  apply within_holding nofun
  apply within_loop
  apply within_finds.ifThen _ (within_pure true)
  exact (within_setValue (by decide) (by decide)).then fun _ => within_pure true

theorem within_sendOut : Within Operation.sendOut.MayNest [] sendOut := by
  refine ⟨nofun, within_finds.ifThen rfl ?_⟩
  exact ⟨by decide, by decide, by decide, rfl⟩

theorem within_connectClient : Within Operation.connect.MayNest [] connectClient := by
  apply (within_holding nofun within_finds).ifThen (within_pure false)
  have hadd : Within Operation.connect.MayNest [] addMetaTopic := within_addMetaTopic (by decide)
  have hmeta : Within Operation.connect.MayNest [] (do
      addMetaTopic
      addMetaTopic
      brief .clientMetatopicMap
      pure true : ServerM Bool) := by
    apply hadd.then
    intro _
    apply hadd.then
    intro _
    exact (within_brief nofun).then fun _ => within_pure true
  exact ⟨nofun, by decide, by decide, by decide, hmeta⟩

/-- Every operation nests its mutexes as it is said to. -/
theorem within_program (op : Operation) : Within op.MayNest [] op.program := by
  cases op with
  | sendOut => exact within_sendOut
  | publish =>
    exact (within_innerPublishTopic (by decide) (by decide) (by decide)).then
      fun _ => within_pure ()
  | unpublish =>
    have hremove : MayRemove Operation.unpublish.MayNest [.pubCount] :=
      ⟨by decide, by decide, by decide, by decide⟩
    exact (within_innerUnpublishTopic (by decide) hremove (by decide) (by decide)).then
      fun _ => within_pure ()
  | setProperties => exact within_setProperties.then fun _ => within_pure ()
  | subscribe => exact within_subscribe.then fun _ => within_pure ()
  | unsubscribe => exact within_unsubscribe.then fun _ => within_pure ()
  | close =>
    have hremove : MayRemove Operation.close.MayNest [.clients] :=
      ⟨by decide, by decide, by decide, by decide⟩
    have hreleased : MayRemove Operation.close.MayNest [.pubCount, .clients] :=
      ⟨by decide, by decide, by decide, by decide⟩
    exact (within_disconnectClient (by decide) (by decide) hremove hreleased).then
      fun _ => within_pure ()
  | binary => exact within_binary.then fun _ => within_pure ()
  | connect => exact within_connectClient.then fun _ => within_pure ()
  | publishTopic =>
    have hpublish : Within Operation.publishTopic.MayNest [] innerPublishTopic :=
      within_innerPublishTopic (by decide) (by decide) (by decide)
    have hset : Within Operation.publishTopic.MayNest [] setValue :=
      within_setValue (by decide) nofun
    have hboth : Within Operation.publishTopic.MayNest [] publishTopicWProps :=
      hpublish.ifThen hset (within_pure false)
    exact hboth.then fun _ => within_pure ()
  | setTopicValue => exact ⟨nofun, rfl⟩
  | setTopicProps => exact within_setProperties.then fun _ => within_pure ()
  | getTopicValue => exact ⟨nofun, rfl⟩
  | getTopicNames => exact ⟨nofun, rfl⟩

end NetTables.Server.Locking
