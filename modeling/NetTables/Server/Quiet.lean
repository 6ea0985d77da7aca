import NetTables.Server.Effect

namespace NetTables.Server

open Lib Lib.Fallible Spec

def Event.takes : Event → Kind → Bool
  | .topic _, .topic => true
  | .sub, .sub => true
  | .client, .client => true
  | _, _ => false

/-- How many indices of a kind the events take. -/
def taken (k : Kind) (es : List Event) : Nat := es.countP fun a => a.takes k

@[simp] theorem taken_nil (k : Kind) : taken k [] = 0 := rfl

@[simp] theorem taken_append (k : Kind) (es es' : List Event) :
    taken k (es ++ es') = taken k es + taken k es' := List.countP_append

theorem taken_toList_le (k : Kind) (e : Option Event) : taken k e.toList ≤ 1 := by
  cases e with
  | none => simp
  | some a => exact List.countP_le_length

/-- Effects whose events are all of `P`, and that take at most `n` indices of each kind. -/
def Does (P : Event → Prop) (n : Nat) (s s' : InnerServer) : Prop :=
  ∃ es, Effects s es s' ∧ (∀ a ∈ es, P a) ∧ ∀ k, taken k es ≤ n

variable {P : Event → Prop} {m n : Nat} {s s' s'' : InnerServer} {e : Option Event}

namespace Quiet

theorem refl (s : InnerServer) : Quiet s s := Effects.refl s

theorem one (h : Effect s none s') : Quiet s s' := Effects.one h

theorem trans (h : Quiet s s') (h' : Quiet s' s'') : Quiet s s'' := Effects.trans h h'

/-- What unlabelled effects keep. -/
theorem invariant (I : InnerServer → Prop) (h : Quiet s s')
    (hstep : ∀ s s', Effect s none s' → I s → I s') (hs : I s) : I s' := by
  refine Effects.invariant I (fun _ => False) h (by simp) ?_ hs
  intro s e s' he hfalse hi
  cases e with
  | none => exact hstep s s' he hi
  | some a => exact (hfalse a rfl).elim

theorem topicMap_eq (h : Quiet s s') : s'.topicMap = s.topicMap := by
  refine h.invariant (fun t => t.topicMap = s.topicMap) ?_ rfl
  intro t t' he ht
  cases he <;> exact ht

theorem counters_eq (h : Quiet s s') : s'.counters = s.counters := by
  refine h.invariant (fun t => t.counters = s.counters) ?_ rfl
  intro t t' he ht
  cases he <;> exact ht

theorem topics_eq (h : Quiet s s') : s'.topics = s.topics := by
  refine h.invariant (fun t => t.topics = s.topics) ?_ rfl
  intro t t' he ht
  cases he <;> exact ht

theorem named (h : Quiet s s') {name : String} {t : TopicIdx} (hn : s.Named name t) :
    s'.Named name t := by
  rcases hn with hm | ⟨topic, ht, hname⟩
  · exact .inl (by rw [h.topicMap_eq]; exact hm)
  · rw [← h.topics_eq] at ht
    exact .inr ⟨topic, ht, hname⟩

theorem tells (h : Quiet s s') {messages : List NTMessage} (ht : s.Tells messages) :
    s'.Tells messages := by
  refine ⟨fun a ha => ?_, ht.2⟩
  obtain ⟨t, hid, hn⟩ := ht.1 a ha
  exact ⟨t, hid, h.named hn⟩

theorem does (h : Quiet s s') : Does P 0 s s' := ⟨[], h, by simp, by simp⟩

end Quiet

namespace Does

theorem one (h : Effect s e s') (he : ∀ a, e = some a → P a) : Does P 1 s s' :=
  ⟨e.toList, Effects.one h, by simpa using he, fun k => taken_toList_le k e⟩

/-- An effect that takes no index. -/
theorem free (h : Effect s e s') (he : ∀ a, e = some a → P a ∧ ∀ k, a.takes k = false) :
    Does P 0 s s' := by
  refine ⟨e.toList, Effects.one h, by simpa using fun a ha => (he a ha).1, fun k => ?_⟩
  rw [Nat.le_zero, taken, List.countP_eq_zero]
  intro a ha
  simpa using (he a (by simpa using ha)).2 k

theorem trans (h : Does P m s s') (h' : Does P n s' s'') : Does P (m + n) s s'' := by
  obtain ⟨es, hes, hp, hn⟩ := h
  obtain ⟨es', hes', hp', hn'⟩ := h'
  refine ⟨es ++ es', hes.trans hes', ?_, fun k => ?_⟩
  · intro a ha
    rcases List.mem_append.mp ha with ha | ha
    · exact hp a ha
    · exact hp' a ha
  · rw [taken_append]
    exact Nat.add_le_add (hn k) (hn' k)

theorem mono {Q : Event → Prop} (h : Does P m s s') (hn : m ≤ n) (hp : ∀ a, P a → Q a) :
    Does Q n s s' := by
  obtain ⟨es, hes, hall, hk⟩ := h
  exact ⟨es, hes, fun a ha => hp a (hall a ha), fun k => (hk k).trans hn⟩

end Does

section Channels

variable {c : ClientIdx} {t : TopicIdx} {messages : List NTMessage} {announceMsg : Announce}

/-- A send on the channel of a client that is there. -/
theorem ends_sendOn_of_client {m : OutMessage} {client : ConnectedClient}
    {Q : Except NetworkTablesError Unit → InnerServer → Prop}
    (hc : s.clients.lookup c = some client) :
    Ends (sendOn c m) s Q ↔
      match client.subOuput with
      | none => Q (.ok ()) s
      | some ch =>
        if ch.isOpen then
          Q (.ok ()) { s with
            clients := s.clients.insert c
              { client with subOuput := some { ch with sent := ch.sent ++ [m] } } }
        else
          Q (.error .tokioChannelMessageSend) s := by
  simp only [sendOn, ends_bind, ends_get, thenEnds_ok, hc]
  cases client.subOuput with
  | none => exact ends_pure ()
  | some ch =>
    cases hopen : ch.isOpen <;> simp [Outgoing.send, hopen, putClient]

/-- A send either leaves the server as it is or appends to an open channel. -/
theorem ends_sendOn {m : OutMessage} {Q : Except NetworkTablesError Unit → InnerServer → Prop}
    (hskip : ∀ r, Q r s)
    (hsent : ∀ client ch, s.clients.lookup c = some client → client.subOuput = some ch →
      ch.isOpen = true → Q (.ok ()) { s with
        clients := s.clients.insert c
          { client with subOuput := some { ch with sent := ch.sent ++ [m] } } }) :
    Ends (sendOn c m) s Q := by
  cases hc : s.clients.lookup c with
  | none => simpa [sendOn, hc] using hskip _
  | some client =>
    refine (ends_sendOn_of_client hc).mpr ?_
    split
    · exact hskip _
    next ch hch =>
      split_ifs with hopen
      · exact hsent client ch hc hch hopen
      · exact hskip _

theorem quiet_sendNtMessages (ht : s.Tells messages) :
    Ends (sendNtMessages c messages) s fun _ s' => Quiet s s' := by
  refine ends_sendOn (fun _ => .refl s) ?_
  intro client ch hc hch hopen
  exact .one (.told messages hc hch hopen ht)

theorem quiet_flush : Ends (sendOn c .flush) s fun _ s' => Quiet s s' := by
  refine ends_sendOn (fun _ => .refl s) ?_
  intro client ch hc hch hopen
  exact .one (.flushed hc hch hopen)

theorem quiet_markAnnounced : Ends (markAnnounced c t) s fun _ s' => Quiet s s' := by
  simp only [markAnnounced, ends_bind, ends_get, thenEnds_ok]
  cases hc : s.clients.lookup c with
  | none => exact (ends_pure ()).mpr (.refl s)
  | some client => exact (ends_modify _).mpr (.one (.marked _ hc))

theorem tells_announce (hn : s.Named announceMsg.name t) (hid : announceMsg.id = t.toInt32) :
    s.Tells [.announce announceMsg] := by
  constructor
  · intro a ha
    simp only [List.mem_singleton, NTMessage.announce.injEq] at ha
    subst ha
    exact ⟨t, hid, hn⟩
  · intro m hm
    exact .inl ⟨announceMsg, List.mem_singleton.mp hm⟩

theorem quiet_announceResponse {pubuid : PubUID} (hn : s.Named announceMsg.name t)
    (hid : announceMsg.id = t.toInt32) :
    Ends (announceResponse t announceMsg pubuid c) s fun _ s' => Quiet s s' := by
  simp only [announceResponse, ends_bind, ends_get, thenEnds_ok]
  cases hc : s.clients.lookup c with
  | none => exact (ends_throw _).mpr (.refl s)
  | some client =>
    dsimp only
    split_ifs with hmem
    · exact (ends_pure ()).mpr (.refl s)
    · have htells : s.Tells [.announce { announceMsg with pubuid := some pubuid.toInt32 }] :=
        tells_announce hn hid
      refine (ends_bind _ _).mpr (ends_mono (quiet_sendNtMessages htells) ?_)
      intro r s' hs
      obtain e | a := r
      · exact hs
      · exact ends_mono quiet_markAnnounced fun _ _ hs' => hs.trans hs'

theorem quiet_announceSubscriber (hn : s.Named announceMsg.name t)
    (hid : announceMsg.id = t.toInt32) :
    Ends (announceSubscriber t announceMsg c) s fun _ s' => Quiet s s' := by
  simp only [announceSubscriber, ends_bind, ends_get, thenEnds_ok]
  cases hc : s.clients.lookup c with
  | none => exact (ends_pure ()).mpr (.refl s)
  | some client =>
    refine (ends_bind _ _).mpr (ends_mono quiet_markAnnounced ?_)
    intro r s' hs
    obtain e | a := r
    · exact hs
    · have htells := tells_announce (hs.named hn) hid
      exact ends_mono (quiet_sendNtMessages htells) fun _ _ hs' => hs.trans hs'

/-- A loop whose turns are quiet, as long as what they rely on stays. -/
theorem quiet_forEach {ι : Type} (I : InnerServer → Prop) {f : ι → ServerM Unit} {l : List ι}
    (hkeep : ∀ s s', Quiet s s' → I s → I s')
    (hf : ∀ i ∈ l, ∀ s, I s → Ends (f i) s fun _ s' => Quiet s s') (hs : I s) :
    Ends (forEach l f) s fun _ s' => Quiet s s' := by
  induction l generalizing s with
  | nil => exact (ends_pure ()).mpr (.refl s)
  | cons i l ih =>
    refine (ends_bind _ _).mpr (ends_mono (hf i (by simp) s hs) ?_)
    intro r s' hq
    obtain e | a := r
    · exact hq
    · have hrest := ih (fun j hj => hf j (by simp [hj])) (hkeep s s' hq hs)
      exact ends_mono hrest fun _ _ hq' => hq.trans hq'

theorem quiet_announceTopic {o : IterOrder} {responseOpt : Option (PubUID × ClientIdx)} :
    Ends (announceTopic o t responseOpt) s fun _ s' => Quiet s s' := by
  simp only [announceTopic, ends_bind, ends_get, thenEnds_ok, ends_okOr, thenEnds_error]
  refine ⟨fun topic ht => ?_, fun _ => .refl s⟩
  have hn : s.Named (announceOf t topic).name t := .inr ⟨topic, ht, rfl⟩
  have hloop : ∀ s', Quiet s s' → ∀ cs : List ClientIdx,
      Ends (forEach cs (announceSubscriber t (announceOf t topic))) s' fun _ s'' =>
        Quiet s s'' := by
    intro s' hq cs
    refine ends_mono (quiet_forEach (fun u => u.Named (announceOf t topic).name t)
      (fun _ _ hq hn => hq.named hn) ?_ (hq.named hn)) fun _ _ hq' => hq.trans hq'
    intro c _ u hu
    exact quiet_announceSubscriber hu rfl
  cases responseOpt with
  | none => exact (ends_bind _ _).mpr (ends_get.mpr (hloop s (.refl s) _))
  | some response =>
    refine (ends_bind _ _).mpr (ends_mono (quiet_announceResponse hn rfl) ?_)
    intro r s' hq
    obtain e | a := r
    · exact hq
    · exact (ends_bind _ _).mpr (ends_get.mpr (hloop s' hq _))

end Channels

end NetTables.Server
