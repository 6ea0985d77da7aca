import NetTables.Server.Queues

namespace NetTables.Server

open Lib Lib.Fallible Spec

variable {s s' : InnerServer} {o : IterOrder} {i : SubIdx} {c : ClientIdx} {sub : Subscription}
  {clock : SendClock} {offset : ℚ}

/-- The `periodic` option, in seconds. -/
def periodOf (sub : Subscription) : ℚ := sub.getOptions.periodic.getD (1 / 10)

/-- The `topics_only` option. -/
def isTopicsOnly (sub : Subscription) : Bool := sub.getOptions.topicsOnly.getD false

/-- A pass comes at the end of the period, to a millisecond, and leaves the subscription aside. -/
def IsNear (clock : SendClock) (i : SubIdx) (sub : Subscription) (since : Instant) : Prop :=
  |elapsed (clock.check i) since - periodOf sub| < 1 / 1000

/-- The client is there with an open channel. -/
def InnerServer.OpenTo (s : InnerServer) (c : ClientIdx) : Prop :=
  ∃ client ch, s.clients.lookup c = some client ∧ client.subOuput = some ch ∧ ch.isOpen = true

/-- The batches are put on one client's channel, if that is open; nothing else happens. -/
structure Sent (c : ClientIdx) (l : List (TopicIdx × List ServerSendableValue))
    (s s' : InnerServer) : Prop where
  rest : ∃ clients, s' = { s with clients := clients }
  present : ∀ d, (s'.clients.lookup d).isSome = (s.clients.lookup d).isSome
  openTo : ∀ d, s'.OpenTo d ↔ s.OpenTo d
  others : ∀ d, d ≠ c → s'.framesOn d = s.framesOn d
  sent : s.OpenTo c → s'.framesOn c = s.framesOn c ++ l.flatMap batchFrames
  dropped : ¬s.OpenTo c → s'.framesOn c = s.framesOn c

namespace Sent

variable {l l' : List (TopicIdx × List ServerSendableValue)} {u : InnerServer}

theorem nil (s : InnerServer) : Sent c [] s s where
  rest := ⟨s.clients, rfl⟩
  present _ := rfl
  openTo _ := Iff.rfl
  others _ _ := rfl
  sent _ := by simp
  dropped _ := rfl

theorem append (h : Sent c l s u) (h' : Sent c l' u s') : Sent c (l ++ l') s s' where
  rest := by
    obtain ⟨clients, rfl⟩ := h.rest
    obtain ⟨clients', rfl⟩ := h'.rest
    exact ⟨clients', rfl⟩
  present d := (h'.present d).trans (h.present d)
  openTo d := (h'.openTo d).trans (h.openTo d)
  others d hd := (h'.others d hd).trans (h.others d hd)
  sent hopen := by
    rw [h'.sent ((h.openTo c).mpr hopen), h.sent hopen, List.flatMap_append, List.append_assoc]
  dropped hclosed := by
    rw [h'.dropped fun hopen => hclosed ((h.openTo c).mp hopen), h.dropped hclosed]

theorem prefixed (h : Sent c l s s') (d : ClientIdx) : s.framesOn d <+: s'.framesOn d := by
  by_cases hd : d = c
  · subst hd
    by_cases hopen : s.OpenTo d
    · rw [h.sent hopen]
      exact List.prefix_append _ _
    · rw [h.dropped hopen]
  · rw [h.others d hd]

end Sent

theorem ends_sendBatch_one {client : ConnectedClient}
    (b : TopicIdx × List ServerSendableValue) (hc : s.clients.lookup c = some client) :
    Ends (sendBatch c b) s fun r s' => r = .ok () ∧ Sent c [b] s s' := by
  by_cases hclosed : ∀ ch, client.subOuput = some ch → ch.isOpen = false
  · have hnot : ¬s.OpenTo c := by
      intro h
      obtain ⟨client', ch, hc', hch, hopen⟩ := h
      rw [hc] at hc'
      cases hc'
      rw [hclosed ch hch] at hopen
      cases hopen
    refine ends_mono (ends_sendBatch_dropped hc hclosed) ?_
    intro r u h
    obtain ⟨rfl, rfl⟩ := h
    exact ⟨rfl, ⟨_, rfl⟩, fun _ => rfl, fun _ => Iff.rfl, fun _ _ => rfl,
      fun hopen => (hnot hopen).elim, fun _ => rfl⟩
  · push Not at hclosed
    obtain ⟨ch, hch, hopen⟩ := hclosed
    have hopen : ch.isOpen = true := by simpa using hopen
    have hto : s.OpenTo c := ⟨client, ch, hc, hch, hopen⟩
    refine ends_mono (ends_sendBatch_sent hc hch hopen) ?_
    intro r u h
    obtain ⟨rfl, rfl⟩ := h
    refine ⟨rfl, ⟨_, rfl⟩, fun d => ?_, fun d => ?_, fun d hd => ?_, fun _ => ?_,
      fun hnot => (hnot hto).elim⟩
    · rw [KeyMap.lookup_insert]
      split_ifs with hd
      · rw [hd, hc]
        rfl
      · rfl
    · simp only [InnerServer.OpenTo, KeyMap.lookup_insert]
      split_ifs with hd
      · rw [hd]
        simp [hopen, hc, hch]
      · rfl
    · rw [framesOn_insert, if_neg hd]
    · rw [framesOn_insert, if_pos rfl]
      simp [ConnectedClient.frames, InnerServer.framesOn, hc, hch, OutMessage.frames]

theorem ends_sendBatches_all (l : List (TopicIdx × List ServerSendableValue))
    (hc : (s.clients.lookup c).isSome = true) :
    Ends (forEach l (sendBatch c)) s fun r s' => r = .ok () ∧ Sent c l s s' := by
  induction l generalizing s with
  | nil => exact (ends_pure ()).mpr ⟨rfl, .nil s⟩
  | cons b l ih =>
    obtain ⟨client, hclient⟩ := Option.isSome_iff_exists.mp hc
    refine (ends_bind _ _).mpr (ends_mono (ends_sendBatch_one b hclient) ?_)
    intro r u h
    obtain ⟨rfl, hone⟩ := h
    have hc' : (u.clients.lookup c).isSome = true := (hone.present c).trans hc
    refine ends_mono (ih hc') ?_
    intro r s' h
    obtain ⟨hr, hrest⟩ := h
    exact ⟨hr, hone.append hrest⟩

/-- All that one turn of `send_out` can do, with the offset before and after it. -/
inductive Turn (o : IterOrder) (clock : SendClock) (s : InnerServer) (i : SubIdx)
    (sub : Subscription) (c : ClientIdx) : ℚ → ℚ → InnerServer → Prop where
  | topicsOnly (b : ℚ) (honly : isTopicsOnly sub = true) : Turn o clock s i sub c b b s
  | near (b : ℚ) (since : Instant) (hvalues : isTopicsOnly sub = false)
      (hsince : s.subSendTimestamps.lookup i = some since) (hnear : IsNear clock i sub since) :
      Turn o clock s i sub c b (periodOf sub - elapsed (clock.offset i) since) s
  | gone (b : ℚ) (since : Instant) (hvalues : isTopicsOnly sub = false)
      (hsince : s.subSendTimestamps.lookup i = some since) (hdue : ¬IsNear clock i sub since)
      (hc : s.clients.lookup c = none) :
      Turn o clock s i sub c b b
        { s with subSendTimestamps := s.subSendTimestamps.insert i (clock.stamp i) }
  | sends (b : ℚ) (since : Instant) (stored : StoredSubValue) (s' : InnerServer)
      (hvalues : isTopicsOnly sub = false)
      (hsince : s.subSendTimestamps.lookup i = some since) (hdue : ¬IsNear clock i sub since)
      (hc : (s.clients.lookup c).isSome = true) (hstored : s.subValues.lookup i = some stored)
      (hsent : Sent c (o.arrange stored.takeValues.1) { s with
        subSendTimestamps := s.subSendTimestamps.insert i (clock.stamp i)
        subValues := s.subValues.insert i stored.takeValues.2 } s') :
      Turn o clock s i sub c b b s'

theorem ends_sendTurn_all :
    Ends (sendTurn o clock offset (i, sub, c)) s fun r s' =>
      ∃ b, r = .ok b ∧ Turn o clock s i sub c offset b s' := by
  simp only [sendTurn]
  split_ifs with honly
  · exact (ends_pure _).mpr ⟨_, rfl, .topicsOnly _ honly⟩
  have hvalues : isTopicsOnly sub = false := eq_false_of_ne_true honly
  simp only [ends_bind, ends_get, thenEnds_ok, ends_unwrapOr]
  intro since hsince
  split_ifs with hnear
  · exact (ends_pure _).mpr ⟨_, rfl, .near _ since hvalues hsince hnear⟩
  simp only [ends_bind, ends_get, thenEnds_ok, ends_modify]
  cases hc : s.clients.lookup c with
  | none => exact (ends_pure _).mpr ⟨_, rfl, .gone _ since hvalues hsince hnear hc⟩
  | some client =>
    simp only [ends_bind, ends_unwrapOr, thenEnds_ok, ends_modify, ends_get]
    intro stored hstored
    have hsome : (s.clients.lookup c).isSome = true := by rw [hc]; rfl
    refine ends_mono (ends_sendBatches_all (o.arrange stored.takeValues.1) hsome) ?_
    intro r u h
    obtain ⟨rfl, hsent⟩ := h
    exact (ends_pure _).mpr ⟨_, rfl, .sends _ since stored u hvalues hsince hnear hsome hstored hsent⟩

/-- What the turns of other subscriptions leave of subscription `i` and of the channels. -/
structure Beside (i : SubIdx) (s s' : InnerServer) : Prop where
  subscriptions : s'.subscriptions = s.subscriptions
  stamp : s'.subSendTimestamps.lookup i = s.subSendTimestamps.lookup i
  queue : s'.subValues.lookup i = s.subValues.lookup i
  present : ∀ d, (s'.clients.lookup d).isSome = (s.clients.lookup d).isSome
  openTo : ∀ d, s'.OpenTo d ↔ s.OpenTo d
  frames : ∀ d, s.framesOn d <+: s'.framesOn d

namespace Beside

variable {u : InnerServer} {b b' : ℚ}

theorem refl (s : InnerServer) : Beside i s s where
  subscriptions := rfl
  stamp := rfl
  queue := rfl
  present _ := rfl
  openTo _ := Iff.rfl
  frames _ := List.prefix_rfl

theorem trans (h : Beside i s u) (h' : Beside i u s') : Beside i s s' where
  subscriptions := h'.subscriptions.trans h.subscriptions
  stamp := h'.stamp.trans h.stamp
  queue := h'.queue.trans h.queue
  present d := (h'.present d).trans (h.present d)
  openTo d := (h'.openTo d).trans (h.openTo d)
  frames d := (h.frames d).trans (h'.frames d)

theorem turn {j : SubIdx} (hj : i ≠ j) (h : Turn o clock s j sub c b b' s') : Beside i s s' := by
  cases h with
  | topicsOnly => exact .refl s
  | near => exact .refl s
  | gone =>
    refine ⟨rfl, ?_, rfl, fun _ => rfl, fun _ => Iff.rfl, fun _ => List.prefix_rfl⟩
    rw [KeyMap.lookup_insert, if_neg hj]
  | sends b since stored hvalues hsince hdue hc hstored hsent =>
    obtain ⟨clients, hrest⟩ := hsent.rest
    refine ⟨by rw [hrest], ?_, ?_, hsent.present, hsent.openTo, hsent.prefixed⟩
    · rw [hrest, KeyMap.lookup_insert, if_neg hj]
    · rw [hrest, KeyMap.lookup_insert, if_neg hj]

end Beside

theorem ends_turnsBeside (l : List (SubIdx × (Subscription × ClientIdx)))
    (hl : i ∉ l.map Prod.fst) :
    Ends (foldEach l offset (sendTurn o clock)) s fun r s' => (∃ b, r = .ok b) ∧ Beside i s s' := by
  induction l generalizing offset s with
  | nil => exact (ends_pure _).mpr ⟨⟨_, rfl⟩, .refl s⟩
  | cons e l ih =>
    obtain ⟨j, sub, c⟩ := e
    rw [List.map_cons, List.mem_cons, not_or] at hl
    refine (ends_bind _ _).mpr (ends_mono ends_sendTurn_all ?_)
    intro r u h
    obtain ⟨b, rfl, hturn⟩ := h
    refine ends_mono (ih hl.2) ?_
    intro r s' h
    obtain ⟨hr, hrest⟩ := h
    exact ⟨hr, (Beside.turn hl.1 hturn).trans hrest⟩

/-- A pass, as one of its subscriptions sees it: its own turn, and others' turns before and after. -/
theorem ends_sendOut_around (hi : s.subscriptions.lookup i = some (sub, c)) :
    Ends (sendOut o clock offset) s fun _ s' => ∃ u b b' u',
      Beside i s u ∧ Turn o clock u i sub c b b' u' ∧ Beside i u' s' := by
  simp only [sendOut, ends_bind, ends_get, thenEnds_ok]
  have hmem : (i, sub, c) ∈ o.walk s.subscriptions := (o.mem_walk _ _ _).mpr hi
  have hnodup := o.nodup_walk s.subscriptions
  obtain ⟨l, l', hl⟩ := List.append_of_mem hmem
  rw [hl, List.map_append, List.map_cons, List.nodup_append, List.nodup_cons] at hnodup
  obtain ⟨-, ⟨hafter, -⟩, hbefore⟩ := hnodup
  have hbefore : i ∉ l.map Prod.fst := fun hin => hbefore i hin i List.mem_cons_self rfl
  rw [hl, foldEach_append, ends_bind]
  refine ends_mono (ends_turnsBeside l hbefore) ?_
  intro r u h
  obtain ⟨⟨b, rfl⟩, hu⟩ := h
  refine (ends_bind _ _).mpr (ends_mono ends_sendTurn_all ?_)
  intro r u' h
  obtain ⟨b', rfl, hturn⟩ := h
  refine ends_mono (ends_turnsBeside l' hafter) ?_
  intro r s' h
  obtain ⟨-, hs'⟩ := h
  exact ⟨u, b, b', u', hu, hturn, hs'⟩

end NetTables.Server
