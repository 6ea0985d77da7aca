import NetTables.Server.Steps
import NetTables.Server.Frames

namespace NetTables.Server

open Lib Lib.Fallible Spec

/-- A relation that allows every write but those to the subscriptions, their queues and timestamps
and the stored values, of which it allows to drop some. -/
class LeavesQueues (R : InnerServer → InnerServer → Prop) : Prop extends IsPreorder InnerServer R where
  tables : ∀ s s', s'.subscriptions = s.subscriptions → s'.subValues = s.subValues →
    s'.subSendTimestamps = s.subSendTimestamps → s'.topicValueMap = s.topicValueMap → R s s'
  dropped : ∀ s t, R s { s with topicValueMap := s.topicValueMap.erase t }

namespace LeavesQueues

variable {R : InnerServer → InnerServer → Prop} [LeavesQueues R] {s : InnerServer} {o : IterOrder}
  {t : TopicIdx} {c : ClientIdx}

theorem within_clients : ∀ s clients, R s { s with clients := clients } :=
  fun s _ => tables s _ rfl rfl rfl rfl

theorem within_write {f : InnerServer → InnerServer}
    (hsubs : ∀ s, (f s).subscriptions = s.subscriptions)
    (hvalues : ∀ s, (f s).subValues = s.subValues)
    (hstamps : ∀ s, (f s).subSendTimestamps = s.subSendTimestamps)
    (hstored : ∀ s, (f s).topicValueMap = s.topicValueMap) :
    Within R (modify f : ServerM Unit) :=
  within_modify fun s => tables s _ (hsubs s) (hvalues s) (hstamps s) (hstored s)

theorem within_announceTopic {responseOpt : Option (PubUID × ClientIdx)} :
    Within R (announceTopic o t responseOpt) := by
  apply within_bind within_get
  intro s
  apply within_bind (within_okOr _ _)
  intro topic
  have hloop : ∀ s : InnerServer, Within R (forEach (o.arrange (clientsToNotify s topic.name))
      (announceSubscriber t (announceOf t topic))) :=
    fun s => within_forEach fun _ _ => Steps.within_announceSubscriber within_clients _
  cases responseOpt with
  | none => exact within_bind within_get hloop
  | some response =>
    apply within_bind (Steps.within_announceResponse within_clients _ _)
    intro _
    exact within_bind within_get hloop

theorem of_ensureTopic (s : InnerServer) (topic : Topic) : R s (ensureTopic s topic).2 := by
  unfold ensureTopic
  cases s.topicMap.lookup topic.name with
  | some t => exact refl_of R s
  | none => exact tables s _ rfl rfl rfl rfl

theorem within_addTopic {topic : Topic} : Within R (addTopic o topic) :=
  within_addTopic_of (fun _ s => ends_insertTopic.mpr (tables s _ rfl rfl rfl rfl))
    fun _ => within_announceTopic

theorem within_removeTopic : Within R (removeTopic t) := by
  intro s
  refine ends_removeTopic.mpr ⟨fun _ => refl_of R s, fun topic _ => ⟨fun _ => ?_, fun p _ =>
    ⟨fun _ => ?_, fun q _ => ?_⟩⟩⟩
  · exact tables s _ rfl rfl rfl rfl
  · exact tables s _ rfl rfl rfl rfl
  · apply trans_of R (dropped s t)
    exact tables _ _ rfl rfl rfl rfl

theorem within_updatePublishers {f : MetaTopicValue → MetaTopicValue → MetaTopicValue}
    {pubMte : ClientPublisherMTE} : Within R (updatePublishers c f pubMte) :=
  within_updatePublishers_of fun s _ => tables s _ rfl rfl rfl rfl

theorem within_connectClient {identity : ClientIdentity} :
    Within R (connectClient o identity) := by
  intro s
  refine ends_connectClient.mpr ?_
  split_ifs
  · exact refl_of R s
  · let named := uniqueIdentity s identity
    let entered := (s.withClient named).withClientEntry named
    have hstart : R s entered := tables s _ rfl rfl rfl rfl
    have hpub : R entered (ensureTopic entered (.newMeta (clientPubName named.name))).2 :=
      of_ensureTopic _ _
    have hown : R entered (ensureOwnMetatopics entered named.name).2 :=
      trans_of R hpub (of_ensureTopic _ _)
    apply trans_of R (trans_of R hstart hown)
    exact tables _ _ rfl rfl rfl rfl

theorem within_disconnectClient {ident : ClientIdentity} :
    Within R (disconnectClient o ident) := by
  apply within_bind within_get
  intro s
  apply within_bind (within_okOr _ _)
  intro c
  apply within_bind
  · exact within_write (fun _ => rfl) (fun _ => rfl) (fun _ => rfl) fun _ => rfl
  · intro _
    apply within_bind within_get
    intro s
    apply within_bind (within_okOr _ _)
    intro client
    apply within_bind
    · exact within_write (fun _ => rfl) (fun _ => rfl) (fun _ => rfl) fun _ => rfl
    · intro _
      exact within_released_of (fun s _ => tables s _ rfl rfl rfl rfl)
        (fun _ => within_removeTopic) fun s _ => tables s _ rfl rfl rfl rfl

theorem within_innerPublishTopic {pubTopic : PublishTopic} :
    Within R (innerPublishTopic o pubTopic c) := by
  apply within_bind within_addTopic
  intro t
  apply within_bind within_announceTopic
  intro _
  apply within_bind within_get
  intro s
  apply within_bind (within_okOr _ _)
  intro client
  apply within_bind (Steps.within_putClient within_clients _)
  intro _
  exact within_bind within_updatePublishers fun _ => within_pure t

theorem within_innerUnpublishTopic {pubTopic : UnpublishTopic} :
    Within R (innerUnpublishTopic pubTopic c) := by
  apply within_bind within_get
  intro s
  apply within_bind (within_okOr _ _)
  intro client
  apply within_bind (within_okOr _ _)
  intro t
  apply within_bind (Steps.within_putClient within_clients _)
  intro _
  apply within_bind within_get
  intro s
  apply within_bind within_get
  intro s'
  apply within_bind (within_okOr _ _)
  intro count
  apply within_bind
  · exact within_write (fun _ => rfl) (fun _ => rfl) (fun _ => rfl) fun _ => rfl
  · intro _
    split_ifs
    · apply within_bind within_removeTopic
      intro _
      apply within_bind
      · exact within_write (fun _ => rfl) (fun _ => rfl) (fun _ => rfl) fun _ => rfl
      · exact fun _ => within_updatePublishers
    · exact within_updatePublishers

theorem within_setProperties {msg : SetProperties} : Within R (setProperties msg) := by
  apply within_bind within_get
  intro s
  apply within_bind (within_okOr _ _)
  intro t
  apply within_bind within_get
  intro s
  apply within_bind (within_okOr _ _)
  intro topic
  exact within_write (fun _ => rfl) (fun _ => rfl) (fun _ => rfl) fun _ => rfl

theorem within_announceAllTopicsFor {i : SubIdx} : Within R (announceAllTopicsFor o i) := by
  apply within_bind within_get
  intro s
  apply within_bind (within_okOr _ _)
  intro entry
  apply within_bind within_get
  intro s
  apply within_bind (within_okOr _ _)
  intro client
  apply within_bind (Steps.within_putClient within_clients _)
  exact fun _ => Steps.within_sendOn within_clients _

theorem within_unAnnounceTo {name : String} : Within R (unAnnounceTo name t c) := by
  apply within_bind within_get
  intro s
  cases s.clients.lookup c with
  | none => exact within_pure ()
  | some client =>
    dsimp only
    split_ifs
    · apply within_bind (Steps.within_putClient within_clients _)
      exact fun _ => Steps.within_sendOn within_clients _
    · exact within_pure ()

/-- Every operation but those that handle subscriptions or values. -/
theorem within_perform (op : Op) (hop : ¬op.Handles) : Within R (op.perform o) := by
  cases op with
  | connectClient identity => exact within_ignoring within_connectClient
  | disconnectClient ident => exact within_disconnectClient
  | innerPublishTopic pubTopic c => exact within_ignoring within_innerPublishTopic
  | innerUnpublishTopic pubTopic c => exact within_innerUnpublishTopic
  | setProperties msg => exact within_setProperties
  | announceTopic t responseOpt => exact within_announceTopic
  | announceAllTopicsFor i => exact within_announceAllTopicsFor
  | unAnnounceTopics name t =>
    exact within_bind within_get fun s => within_forEach fun _ _ => within_unAnnounceTo
  | flushAll =>
    apply within_bind within_get
    intro s
    exact within_forEach fun _ _ => Steps.within_sendOn within_clients _
  | flushClient c =>
    apply within_bind within_get
    intro s
    exact within_bind (within_okOr _ _) fun _ => Steps.within_sendOn within_clients _
  | closeChannel c =>
    apply within_bind within_get
    intro s
    cases s.clients.lookup c with
    | none => exact within_pure ()
    | some client => exact Steps.within_putClient within_clients _
  | subscribe | unsubscribe | setValue | sendOut => exact (hop trivial).elim

end LeavesQueues

end NetTables.Server
