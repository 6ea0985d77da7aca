import NetTables.Server.Learning

namespace NetTables.Server

open Lib Lib.Fallible Spec

variable {s s' : InnerServer} {o : IterOrder} {c : ClientIdx}

/-- The client has asked for topics only, and no value has been put on its channel. -/
structure Valueless (c : ClientIdx) (s : InnerServer) : Prop where
  only : ∀ i sub, s.subscriptions.lookup i = some (sub, c) → isTopicsOnly sub = true
  frames : s.framesOn c = []

def KeepsValueless (c : ClientIdx) (s s' : InnerServer) : Prop := Valueless c s → Valueless c s'

instance : IsPreorder InnerServer (KeepsValueless c) where
  refl _ h := h
  trans _ _ _ h h' hs := h' (h hs)

/-- The client subscribes to topics only, and to none that has a value. -/
structure SubscribesBare (c : ClientIdx) (s : InnerServer) (sub : Subscribe) : Prop where
  only : isTopicsOnly (subscriptionOf sub) = true
  bare : ∀ name t, s.topicMap.lookup name = some t →
    (subscriptionOf sub).caresAbout name = true → s.topicValueMap.lookup t = none

theorem SubscribesBare.frames {sub : Subscribe} (h : SubscribesBare c s sub) :
    subscribeFrames s (interestOf o s sub) = [] := by
  rw [subscribeFrames, List.flatMap_eq_nil_iff]
  intro e he
  obtain ⟨hmap, hcares⟩ := mem_interestOf.mp he
  rw [initialFrame, h.bare e.1 e.2 hmap hcares]
  split_ifs <;> rfl

theorem valueless_subscribe {sub : Subscribe} {d : ClientIdx} {now : Instant}
    (hbare : d = c → SubscribesBare c s sub) :
    Ends (subscribe o sub d now) s fun _ s' => KeepsValueless c s s' := by
  refine ends_mono ends_subscribe ?_
  intro r s' hend h
  cases hend with
  | noClient => exact h
  | noList => exact ⟨h.only, h.frames⟩
  | done r client hc hlists hr =>
    refine ⟨fun i sub' hi => ?_, ?_⟩
    · rw [InnerServer.subscribed, KeyMap.lookup_insert] at hi
      split_ifs at hi
      · cases hi
        exact (hbare rfl).only
      · exact h.only i sub' hi
    · have hframes : (s.subscribed o sub d client now).framesOn c = if c = d then
          ({ client with
            subuidToSubidx := client.subuidToSubidx.insert sub.subuid.toUInt32 s.counters.subIdx
            subOuput := client.subOuput.map fun ch => ch.append (subscribeMessages o s sub) } :
            ConnectedClient).frames else s.framesOn c := framesOn_insert
      rw [hframes]
      split_ifs with hd
      · obtain ⟨added, happ, hadded⟩ := frames_append client
          ((subscribeAnnounces s (interestOf o s sub)).map .announce)
          (subscribeFrames s (interestOf o s sub))
          (client.subuidToSubidx.insert sub.subuid.toUInt32 s.counters.subIdx)
        have hold : client.frames = [] := by
          rw [← h.frames, hd, InnerServer.framesOn, hc]
        have hnone : added = [] := by
          rw [List.eq_nil_iff_forall_not_mem]
          intro f hf
          have hmem := hadded f hf
          rw [(hbare hd.symm).frames] at hmem
          cases hmem
        rw [subscribeMessages, happ, hold, hnone]
        rfl
      · exact h.frames

theorem valueless_unsubscribe {unsub : Unsubscribe} {d : ClientIdx} :
    Ends (unsubscribe unsub d) s fun _ s' => KeepsValueless c s s' := by
  simp only [unsubscribe, ends_bind, ends_get, thenEnds_ok, ends_okOr, thenEnds_error,
    ends_modify, putClient]
  refine ⟨fun client hd => ⟨fun j _ h => ⟨fun i sub hi => ?_, ?_⟩, fun _ h => h⟩, fun _ h => h⟩
  · rw [KeyMap.lookup_erase] at hi
    split_ifs at hi
    exact h.only i sub hi
  · have hframes := h.frames
    simp only [InnerServer.framesOn, KeyMap.lookup_insert] at hframes ⊢
    split_ifs with hc
    · rw [hc, hd] at hframes
      exact hframes
    · exact hframes

/-- A turn of a pass sends values to the owner of its subscription alone. -/
theorem Turn.valueless {clock : SendClock} {i : SubIdx} {sub : Subscription} {d : ClientIdx}
    {b b' : ℚ} (h : Turn o clock s i sub d b b' s') (honly : d = c → isTopicsOnly sub = true) :
    s'.subscriptions = s.subscriptions ∧ KeepsValueless c s s' := by
  cases h with
  | topicsOnly => exact ⟨rfl, id⟩
  | near => exact ⟨rfl, id⟩
  | gone => exact ⟨rfl, fun h => ⟨h.only, h.frames⟩⟩
  | sends b since stored hvalues hsince hdue hc hstored hsent =>
    obtain ⟨clients, hrest⟩ := hsent.rest
    have hsubs : s'.subscriptions = s.subscriptions := by rw [hrest]
    refine ⟨hsubs, fun h => ⟨?_, ?_⟩⟩
    · rw [hsubs]
      exact h.only
    · have hd : c ≠ d := by
        intro heq
        rw [honly heq.symm] at hvalues
        cases hvalues
      rw [hsent.others c hd]
      exact h.frames

theorem valueless_turns {clock : SendClock} {offset : ℚ}
    (l : List (SubIdx × (Subscription × ClientIdx)))
    (honly : ∀ e ∈ l, e.2.2 = c → isTopicsOnly e.2.1 = true) :
    Ends (foldEach l offset (sendTurn o clock)) s fun _ s' => KeepsValueless c s s' := by
  induction l generalizing offset s with
  | nil => exact (ends_pure _).mpr id
  | cons e l ih =>
    obtain ⟨i, sub, d⟩ := e
    refine (ends_bind _ _).mpr (ends_mono ends_sendTurn_all ?_)
    intro r u hs
    obtain ⟨b, rfl, hturn⟩ := hs
    obtain ⟨-, hfirst⟩ := hturn.valueless (honly _ List.mem_cons_self)
    refine ends_mono (ih fun e he => honly e (List.mem_cons_of_mem _ he)) ?_
    exact fun r s' hrest h => hrest (hfirst h)

theorem valueless_sendOut {clock : SendClock} {offset : ℚ} :
    Ends (sendOut o clock offset) s fun _ s' => KeepsValueless c s s' := by
  simp only [sendOut, ends_bind, ends_get, thenEnds_ok]
  by_cases h : Valueless c s
  · refine valueless_turns _ fun e he hd => ?_
    obtain ⟨i, sub, d⟩ := e
    cases hd
    exact h.only i sub ((o.mem_walk _ _ _).mp he)
  · exact fun r s' _ hs => (h hs).elim

/-- The guard on the runs of a client that asks for topics only: its subscriptions come before the
values of their topics. -/
def AsksForTopics (c : ClientIdx) (s : InnerServer) (op : Op) : Prop :=
  ∀ sub now, op = .subscribe sub c now → SubscribesBare c s sub

theorem Valueless.step {op : Op} (h : Valueless c s) (hguard : AsksForTopics c s op)
    (hop : Step s op s') : Valueless c s' := by
  obtain ⟨o, r, hx⟩ := hop
  cases op with
  | subscribe sub d now =>
    refine ends_of_exec (valueless_subscribe fun hd => ?_) hx h
    subst hd
    exact hguard sub now rfl
  | unsubscribe unsub d => exact ends_of_exec valueless_unsubscribe hx h
  | setValue value t =>
    have hwithin : Within (KeepsValueless c) (setValue value t) :=
      within_setValue_of fun _ _ _ h => ⟨h.only, h.frames⟩
    exact ends_of_exec (hwithin s) hx h
  | sendOut clock offset => exact ends_of_exec (ends_ignoring valueless_sendOut) hx h
  | _ =>
    have hcalm := ends_of_exec (calm_perform _ id s) hx
    refine ⟨by rw [hcalm.subscriptions]; exact h.only, ?_⟩
    rcases hcalm.frames c with heq | hnil
    · rw [heq, h.frames]
    · exact hnil

theorem Init.valueless (h : Init s) : Valueless c s := by
  refine ⟨fun i sub hi => ?_, ?_⟩
  · rw [h.subscriptions] at hi
    cases hi
  · have hclients : s.clients = booted.clients := by
      rw [h.eq_started]
      rfl
    rw [InnerServer.framesOn, hclients, booted, KeyMap.lookup_insert]
    split_ifs <;> rfl

/-- As long as a client asks for topics only, and for none that has a value already, it is sent no
values, and still told of the topics. -/
theorem topics_only_values_none {u : Kind → Nat} (run : RunWhere (AsksForTopics c) u s) :
    s.framesOn c = [] ∧ (s.OpenTo c → StillAnnounced s c) := by
  refine ⟨Valueless.frames ?_, stillAnnounced⟩
  refine run.invariant (fun _ s => Valueless c s) (fun s h => h.valueless) ?_
  intro u s op s' _ h hguard hop
  exact h.step hguard hop

/-- The guard as a check. -/
def asksForTopics (c : ClientIdx) (s : InnerServer) : Op → Bool
  | .subscribe sub d _ => d ≠ c || isTopicsOnly (subscriptionOf sub) &&
      s.topicMap.pairs.all fun e =>
        !(subscriptionOf sub).caresAbout e.1 || (s.topicValueMap.lookup e.2).isNone
  | _ => true

theorem asksForTopics_sound {op : Op} (h : asksForTopics c s op = true) : AsksForTopics c s op := by
  rintro sub now rfl
  simp only [asksForTopics, ne_eq, not_true, decide_false, Bool.false_or, Bool.and_eq_true] at h
  refine ⟨h.1, fun name t hmap hcares => ?_⟩
  have hbare := List.all_eq_true.mp h.2 (name, t) ((KeyMap.mem_pairs _ _ _).mpr hmap)
  simpa [hcares] using hbare

/-- The subscription of this operation, if there is one, is to the topics alone. -/
def keepsToTopics : Op → Bool
  | .subscribe sub _ _ => isTopicsOnly (subscriptionOf sub)
  | _ => true

/-- A subscription to the topics alone. -/
def topicsAlone : Subscribe := ⟨0, {"n"}, some { topicsOnly := some true }⟩

/-- A client subscribes before there is a topic, and a pass comes after its value. -/
def subscribeThenSet : List Op :=
  [.connectClient ⟨.v4 10 0 0 2 5810, "a"⟩, .subscribe topicsAlone 1 0,
    .innerPublishTopic ⟨"n", 0, "int", none⟩ serverClientIdx,
    .setValue ⟨7, ⟨.int, .integer 1⟩⟩ 5, .sendOut lateClock 0]

theorem topics_only_values_none_subscribeThenSet :
    ∃ s, Reachable s ∧ s.OpenTo 1 ∧ (s.topicValueMap.lookup 5).isSome = true ∧
      s.framesOn 1 = [] ∧ StillAnnounced s 1 := by
  have hrun : (stateAfter (asksForTopics 1) .stored subscribeThenSet).bind (fun s =>
      (s.clients.lookup 1).bind fun client => client.subOuput.map fun ch =>
        (ch.isOpen, (s.topicValueMap.lookup 5).isSome)) = some (true, true) := by decide +kernel
  obtain ⟨s, hs, hview⟩ := Option.bind_eq_some_iff.mp hrun
  obtain ⟨client, hc, hview⟩ := Option.bind_eq_some_iff.mp hview
  obtain ⟨ch, hch, hview⟩ := Option.map_eq_some_iff.mp hview
  obtain ⟨hopen, hvalue⟩ := Prod.mk.inj hview
  obtain ⟨u, run, -⟩ := runWhere_stateAfter (fun _ _ => asksForTopics_sound) hs
  obtain ⟨hframes, hannounced⟩ := topics_only_values_none run
  have hto : s.OpenTo 1 := ⟨client, ch, hc, hch, hopen⟩
  exact ⟨s, ⟨u, run.mono fun _ _ _ => trivial⟩, hto, hvalue, hframes, hannounced hto⟩

/-- A client that subscribes to the topics alone is sent the values that are there. -/
theorem topics_only_sends_initial_value :
    ¬∀ c u s, RunWhere (fun _ op => ∀ sub now, op = .subscribe sub c now →
      isTopicsOnly (subscriptionOf sub) = true) u s → s.framesOn c = [] := by
  intro h
  have hrun : (stateAfter (fun _ op => keepsToTopics op) .stored
      (publishAndConnect ++ [.subscribe topicsAlone 1 0])).map (fun s => (s.framesOn 1).length) =
      some 1 := by decide +kernel
  obtain ⟨s, hs, hview⟩ := Option.map_eq_some_iff.mp hrun
  have hguard : ∀ (s : InnerServer) op, keepsToTopics op = true → ∀ sub now,
      op = .subscribe sub 1 now → isTopicsOnly (subscriptionOf sub) = true := by
    rintro s op hop sub now rfl
    exact hop
  obtain ⟨u, run, -⟩ := runWhere_stateAfter hguard hs
  rw [h 1 u s run] at hview
  cases hview

end NetTables.Server
