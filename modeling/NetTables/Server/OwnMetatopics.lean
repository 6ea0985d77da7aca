import NetTables.Server.AllOrNothing

namespace NetTables.Server

open Lib Lib.Fallible Spec

variable {s s' : InnerServer} {o : IterOrder} {c : ClientIdx}
  {e : NetworkTablesError}

/-- The error says that a topic is missing, in a text that starts with this character. -/
def NetworkTablesError.StartsWith (ch : Char) : NetworkTablesError → Prop
  | .serverError (.topicDoesNotExist text) => text.toList.head? = some ch
  | _ => False

/-- The error is not that of the exits for a client without metatopics. -/
def NotOwnMissing (e : NetworkTablesError) : Prop := ∀ d, e ≠ ownMetatopicMissing d

section Texts

theorem startsWith_ownMetatopicMissing (d : ClientIdx) :
    (ownMetatopicMissing d).StartsWith 'C' := by
  simp only [ownMetatopicMissing, NetworkTablesError.StartsWith, String.toList_append]
  rfl

theorem notOwnMissing_of_startsWith (ch : Char) (h : e.StartsWith ch) (hne : ch ≠ 'C') :
    NotOwnMissing e := by
  intro d heq
  have hd := startsWith_ownMetatopicMissing d
  rw [← heq] at hd
  cases e with
  | tokioChannelMessageSend => exact h
  | serverError e =>
    cases e with
    | topicDoesNotExist text =>
      have hsame : some ch = some 'C' := h.symm.trans hd
      exact hne (Option.some.inj hsame)
    | _ => exact h

theorem notOwnMissing_tokio : NotOwnMissing .tokioChannelMessageSend := nofun

theorem notOwnMissing_noClient (text : String) :
    NotOwnMissing (.serverError (.clientDoesNotExist text)) := nofun

theorem notOwnMissing_topicMissing (t : TopicIdx) (what : String) :
    NotOwnMissing (topicMissing t what) := by
  apply notOwnMissing_of_startsWith 't' _ (by decide)
  simp only [topicMissing, NetworkTablesError.StartsWith, String.toList_append]
  rfl

theorem notOwnMissing_metatopicMissing (t : TopicIdx) : NotOwnMissing (metatopicMissing t) := by
  apply notOwnMissing_of_startsWith 'm' _ (by decide)
  simp only [metatopicMissing, NetworkTablesError.StartsWith, String.toList_append]
  rfl

end Texts

section Exits

/-- From its last announcement on, a publication does not come to the exit. -/
theorem lastEnd_notOwnMissing {m : Bool} {pubTopic : PublishTopic} (h : OwnsRecorded s)
    (hend : (lastEnd m s pubTopic c t).1 = .error e) : NotOwnMissing e := by
  cases m with
  | true =>
    cases hend
    exact notOwnMissing_tokio
  | false =>
    by_cases ht : t ∈ s.topics
    · by_cases hc : c ∈ s.clients
      · obtain ⟨tables, hok⟩ := lastEnd_ok pubTopic h hc ht
        rw [hok] at hend
        cases hend
      · obtain ⟨topic, ht⟩ := (KeyMap.mem_iff_lookup _ _).mp ht
        rw [lastEnd, if_neg Bool.false_ne_true, ht, AList.lookup_eq_none.mpr hc] at hend
        cases hend
        exact notOwnMissing_noClient _
    · rw [lastEnd, if_neg Bool.false_ne_true, AList.lookup_eq_none.mpr ht] at hend
      cases hend
      exact notOwnMissing_topicMissing _ _

theorem innerPublishTopic_notOwnMissing {pubTopic : PublishTopic} (h : OwnsRecorded s)
    (hx : (innerPublishTopic o pubTopic c).exec s = .ok (.error e, s')) : NotOwnMissing e := by
  have hadded : OwnsRecorded (s.withTopic (.fromPublishTopic pubTopic)) :=
    h.of_clients (fun _ hd => hd) rfl
  have hend := congrArg Prod.fst (ends_innerPublishTopic (o := o) s pubTopic c _ _ hx).symm
  simp only [publishEnd] at hend
  split_ifs at hend
  · cases hend
    exact notOwnMissing_tokio
  · cases hend
    exact notOwnMissing_tokio
  · exact lastEnd_notOwnMissing ((hadded.ensureTopic _).ensureTopic _) hend
  · cases hend
    exact notOwnMissing_topicMissing _ _
  · cases hend
    exact notOwnMissing_topicMissing _ _
  · exact lastEnd_notOwnMissing (h.ensureTopic _) hend

theorem innerUnpublishTopic_notOwnMissing {pubTopic : UnpublishTopic} (h : OwnsRecorded s)
    (hx : (innerUnpublishTopic pubTopic c).exec s = .ok (.error e, s')) : NotOwnMissing e := by
  have hends : Ends (innerUnpublishTopic pubTopic c) s fun r _ => ∀ e, r = .error e →
      NotOwnMissing e := by
    -- the update of the metatopics finds the client's own
    have hupdate : ∀ client mte (u : InnerServer), s.clients.lookup c = some client →
        u.clientMetatopicMap = s.clientMetatopicMap →
        Ends (updatePublishers c .reduce mte) u fun r _ => ∀ e, r = .error e → NotOwnMissing e := by
      intro client mte u hc howns
      obtain ⟨key, hkey⟩ := h.publisherKey hc
      refine ends_updatePublishers.mpr ⟨fun _ _ => nofun, fun hnone => ?_⟩
      rw [InnerServer.publisherKey, howns, ← InnerServer.publisherKey, hkey] at hnone
      cases hnone
    simp only [innerUnpublishTopic, ends_bind, ends_get, thenEnds_ok, ends_okOr, thenEnds_error,
      putClient, ends_modify]
    refine ⟨fun client hc => ⟨fun t _ => ⟨fun n _ => ?_, fun _ e he => ?_⟩, fun _ e he => ?_⟩,
      fun _ e he => ?_⟩
    · split_ifs
      · simp only [ends_bind]
        refine ends_removeTopic.mpr ⟨fun _ e he => ?_, fun topic _ => ⟨fun _ e he => ?_, fun p _ =>
          ⟨fun _ e he => ?_, fun q _ => hupdate client _ _ hc rfl⟩⟩⟩
        · cases he
          exact notOwnMissing_topicMissing _ _
        · cases he
          exact notOwnMissing_metatopicMissing _
        · cases he
          exact notOwnMissing_metatopicMissing _
      · exact hupdate client _ _ hc rfl
    · cases he
      apply notOwnMissing_of_startsWith 'T' _ (by decide)
      simp only [NetworkTablesError.StartsWith, String.toList_append]
      rfl
    · cases he
      apply notOwnMissing_of_startsWith 'p' _ (by decide)
      simp only [NetworkTablesError.StartsWith, String.toList_append]
      rfl
    · cases he
      exact notOwnMissing_noClient _
  exact hends _ _ hx e rfl

end Exits

/-- In every state that operations reach, a client that is there has its metatopics on record, a new
identity gets connected, and no publication or unpublication comes upon a client without its own. -/
theorem metatopics_registered (hs : Reachable s) :
    (∀ c, c ∈ s.clients → c ≠ serverClientIdx → c ∈ s.clientMetatopicMap) ∧
    (∀ o identity, s.clientMap.lookup identity = none → ∃ ident idx s',
      (connectClient o identity).exec s = .ok (.ok (ident, idx), s')) ∧
    ∀ c e s', (∀ o pubTopic, (innerPublishTopic o pubTopic c).exec s = .ok (.error e, s') →
        ∀ d, e ≠ ownMetatopicMissing d) ∧
      ∀ pubTopic, (innerUnpublishTopic pubTopic c).exec s = .ok (.error e, s') →
        ∀ d, e ≠ ownMetatopicMissing d := by
  refine ⟨hs.ownsRecorded, fun o identity hnew => ?_, fun c e s' => ⟨fun o pubTopic hx => ?_,
    fun pubTopic hx => ?_⟩⟩
  · have hends : Ends (connectClient o identity) s fun r _ =>
        r = .ok (uniqueIdentity s identity, s.counters.clientIdx) := by
      rw [ends_connectClient, hnew, if_neg (by simp)]
    obtain ⟨r, s', hx, rfl⟩ := total_connectClient.ends hends
    exact ⟨_, _, s', hx⟩
  · exact innerPublishTopic_notOwnMissing hs.ownsRecorded hx
  · exact innerUnpublishTopic_notOwnMissing hs.ownsRecorded hx

theorem metatopics_registered_publishBare :
    ∃ s, stateAfter anyOp .stored publishBare = some s ∧ (1 : ClientIdx) ∈ s.clients ∧
      (1 : ClientIdx) ∈ s.clientMetatopicMap := by
  have hrun : (stateAfter anyOp .stored publishBare).map
      (fun s => decide ((1 : ClientIdx) ∈ s.clients)) = some true := by decide +kernel
  obtain ⟨s, hs, hmem⟩ := Option.map_eq_some_iff.mp hrun
  have hmem : (1 : ClientIdx) ∈ s.clients := of_decide_eq_true hmem
  exact ⟨s, hs, hmem, (metatopics_registered (reachable_stateAfter hs)).1 1 hmem (by decide)⟩

end NetTables.Server
