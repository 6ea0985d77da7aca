import NetTables.Server.Retained
import NetTables.Server.SendTurns
import NetTables.Server.LeavesQueues
import NetTables.Server.Subscribe
import Mathlib.Tactic.Linarith

namespace NetTables.Server

open Lib Lib.Fallible Spec

variable {s s' : InnerServer} {o : IterOrder} {i : SubIdx} {c : ClientIdx} {sub : Subscription}
  {clock : SendClock} {offset : ℚ} {since : Instant}

/-- The pass has taken what was queued for the subscription, and put all of it on the channel of its
client, if that is open. -/
structure TakenAndSent (s : InnerServer) (clock : SendClock) (i : SubIdx) (c : ClientIdx)
    (s' : InnerServer) : Prop where
  stamp : s'.subSendTimestamps.lookup i = some (clock.stamp i)
  taken : ∃ stored, s.subValues.lookup i = some stored ∧
    s'.subValues.lookup i = some stored.takeValues.2 ∧
    (s.OpenTo c → ∃ before, ∃ l : List (TopicIdx × List ServerSendableValue),
      l.Perm stored.takeValues.1 ∧ s.framesOn c <+: before ∧
        before ++ l.flatMap batchFrames <+: s'.framesOn c)

/-- The pass has left the subscription's queue and timestamp as they were. -/
structure LeftAside (s : InnerServer) (i : SubIdx) (s' : InnerServer) : Prop where
  stamp : s'.subSendTimestamps.lookup i = s.subSendTimestamps.lookup i
  queue : s'.subValues.lookup i = s.subValues.lookup i

/-- The pass keeps the period of a subscription that was last sent its values at `since`: it takes
them no earlier than a millisecond before the period is over, and it does not leave them any more
once it is over by a millisecond. -/
structure KeepsPeriod (s : InnerServer) (clock : SendClock) (i : SubIdx) (sub : Subscription)
    (c : ClientIdx) (since : Instant) (s' : InnerServer) : Prop where
  takes : s.takes clock i = true →
    TakenAndSent s clock i c s' ∧ periodOf sub - 1 / 1000 ≤ elapsed (clock.check i) since
  leaves : s.takes clock i = false →
    LeftAside s i s' ∧ elapsed (clock.check i) since ≤ periodOf sub + 1 / 1000

theorem takes_iff (hi : s.subscriptions.lookup i = some (sub, c))
    (hsince : s.subSendTimestamps.lookup i = some since) :
    s.takes clock i = true ↔
      isTopicsOnly sub = false ∧ ¬IsNear clock i sub since ∧
        (s.clients.lookup c).isSome = true := by
  unfold InnerServer.takes
  rw [hi, hsince]
  simp only [Bool.and_eq_true, Bool.not_eq_true', decide_eq_false_iff_not, and_assoc]
  rfl

/-- What a completed pass does for a subscription with a client that is there. -/
theorem ends_sendOut_served (hi : s.subscriptions.lookup i = some (sub, c))
    (hvalues : isTopicsOnly sub = false) (hc : (s.clients.lookup c).isSome = true) :
    Ends (sendOut o clock offset) s fun _ s' =>
      ∃ since, s.subSendTimestamps.lookup i = some since ∧
        (¬IsNear clock i sub since ∧ TakenAndSent s clock i c s' ∨
          IsNear clock i sub since ∧ LeftAside s i s') := by
  refine ends_mono (ends_sendOut_around hi) ?_
  intro r s' h
  obtain ⟨u, b, b', u', hu, hturn, hs'⟩ := h
  cases hturn with
  | topicsOnly honly =>
    rw [hvalues] at honly
    cases honly
  | near since _ hsince hnear =>
    refine ⟨since, hu.stamp.symm.trans hsince, .inr ⟨hnear, ?_⟩⟩
    exact ⟨hs'.stamp.trans hu.stamp, hs'.queue.trans hu.queue⟩
  | gone since _ _ _ hnone =>
    rw [← hu.present c, hnone] at hc
    cases hc
  | sends since stored u' _ hsince hdue _ hstored hsent =>
    obtain ⟨clients, hrest⟩ := hsent.rest
    refine ⟨since, hu.stamp.symm.trans hsince, .inl ⟨hdue, ?_, stored, ?_, ?_, fun hopen => ?_⟩⟩
    · rw [hs'.stamp, hrest, KeyMap.lookup_insert, if_pos rfl]
    · rw [← hu.queue, hstored]
    · rw [hs'.queue, hrest, KeyMap.lookup_insert, if_pos rfl]
    · have hframes := hsent.sent ((hu.openTo c).mpr hopen)
      refine ⟨u.framesOn c, _, o.perm _, hu.frames c, ?_⟩
      exact hframes ▸ hs'.frames c

/-- A pass keeps the period of a subscription exactly where it does not come too early. -/
theorem keepsPeriod_iff (hi : s.subscriptions.lookup i = some (sub, c))
    (hvalues : isTopicsOnly sub = false) (hc : (s.clients.lookup c).isSome = true)
    (hsince : s.subSendTimestamps.lookup i = some since) :
    Ends (sendOut o clock offset) s fun _ s' =>
      (KeepsPeriod s clock i sub c since s' ↔
        periodOf sub - 1 / 1000 ≤ elapsed (clock.check i) since) := by
  refine ends_mono (ends_sendOut_served hi hvalues hc) ?_
  intro r s' hs
  obtain ⟨since', hsince', hpass⟩ := hs
  rw [hsince] at hsince'
  cases hsince'
  have htakes : s.takes clock i = true ↔ ¬IsNear clock i sub since := by
    rw [takes_iff hi hsince]
    simp [hvalues, hc]
  rcases hpass with ⟨hdue, hserved⟩ | ⟨hnear, haside⟩
  · have htaken := htakes.mpr hdue
    constructor
    · intro h
      exact (h.takes htaken).2
    · intro hle
      refine ⟨fun _ => ⟨hserved, hle⟩, fun hnot => ?_⟩
      rw [htaken] at hnot
      cases hnot
  · have hbounds := abs_lt.mp hnear
    have hlow : periodOf sub - 1 / 1000 ≤ elapsed (clock.check i) since := by linarith [hbounds.1]
    have hhigh : elapsed (clock.check i) since ≤ periodOf sub + 1 / 1000 := by linarith [hbounds.2]
    refine ⟨fun _ => hlow, fun _ => ⟨fun htaken => ?_, fun _ => ⟨haside, hhigh⟩⟩⟩
    exact (htakes.mp htaken hnear).elim

section History

variable {log : List (InnerServer × Op)} {op : Op}

/-- What a step of the record makes of the reading at which a subscription was last sent its
values. -/
def sentIn (i : SubIdx) (last : Option Instant) : InnerServer × Op → Option Instant
  | (s, .subscribe _ _ now) => if s.counters.subIdx = i then some now else last
  | (s, .sendOut clock _) => if s.takes clock i then some (clock.stamp i) else last
  | _ => last

/-- The clock reading of the last pass of the record that took the subscription's values, or of the
`subscribe` that made it. -/
def lastSent (i : SubIdx) (log : List (InnerServer × Op)) : Option Instant :=
  log.foldl (sentIn i) none

theorem lastSent_snoc (e : InnerServer × Op) :
    lastSent i (log ++ [e]) = sentIn i (lastSent i log) e := by
  simp [lastSent]

/-- The owners of subscriptions were connected once. -/
def OwnersKnown (s : InnerServer) : Prop :=
  ∀ i sub c, s.subscriptions.lookup i = some (sub, c) → c.toNat < s.counters.clientIdx.toNat

theorem OwnersKnown.step {e : Option Event} (h : OwnersKnown s) (hclients : Identified s)
    (he : Effect s e s') (hroom : Room (· = .client) s e.toList) : OwnersKnown s' := by
  cases he with
  | clientConnected identity hp hq =>
    intro i sub c hi
    have hlt := h i sub c hi
    have hnext : s.counters.clientIdx.toNat + 1 < 2 ^ 32 := hroom .client rfl
    have hone : (1 : UInt32).toNat = 1 := rfl
    show c.toNat < (s.counters.clientIdx + 1).toNat
    rw [UInt32.toNat_add, hone]
    omega
  | subscribed sub now stored interest messages frames hc =>
    intro i sub' d hi
    rw [KeyMap.lookup_insert] at hi
    split_ifs at hi
    · cases hi
      exact hclients.clients_lt _ ((KeyMap.mem_iff_lookup _ _).mpr ⟨_, hc⟩)
    · exact h i sub' d hi
  | unsubscribed subuid hc hj =>
    intro i sub' d hi
    rw [KeyMap.lookup_erase] at hi
    split_ifs at hi
    exact h i sub' d hi
  | _ => exact h

theorem RunWhere.ownersKnown {guard : InnerServer → Op → Prop} {u : Kind → Nat}
    (run : RunWhere guard u s) (hclient : u .client < 2 ^ 32) : OwnersKnown s := by
  have hboth : Identified s ∧ OwnersKnown s := by
    have hsteps : ∀ {s s' es}, Effects s es s' → Room (· = .client) s es →
        Identified s ∧ OwnersKnown s → Identified s' ∧ OwnersKnown s' := by
      intro s s' es hes hroom h
      refine hes.invariant_of_room (fun s => Identified s ∧ OwnersKnown s) (fun _ => True)
        (fun _ _ => trivial) hroom (fun s e s' he _ hroom h => ?_) h
      exact ⟨h.1.step he hroom, h.2.step h.1 he hroom⟩
    refine run.induct (· = .client) (fun s => Identified s ∧ OwnersKnown s) ?_ ?_ ?_
    · rintro k rfl
      exact hclient
    · intro es s hes _ hroom
      refine hsteps hes hroom ⟨identified_booted, ?_⟩
      intro i sub c hi
      cases hi
    · intro s op es s' hes _ hroom _ _ h
      exact hsteps hes hroom h
  exact hboth.2

/-- An owner that is there after a step was there before. -/
theorem OwnersKnown.mem_clients (h : OwnersKnown s) (hop : Step s op s')
    (hi : s.subscriptions.lookup i = some (sub, c)) (hc : c ∈ s'.clients) : c ∈ s.clients := by
  by_cases hconnect : ∃ identity, op = .connectClient identity
  · obtain ⟨identity, rfl⟩ := hconnect
    obtain ⟨o, r, hx⟩ := hop
    have hends : Ends (Op.perform o (.connectClient identity)) s fun _ s' =>
        c ∈ s'.clients → c ∈ s.clients := by
      apply ends_ignoring
      refine ends_connectClient.mpr ?_
      split_ifs
      · exact id
      · rw [connected_clients, AList.mem_insert]
        intro hs
        obtain rfl | hold := hs
        · exact (lt_irrefl _ (h i sub _ hi)).elim
        · exact hold
    exact ends_of_exec hends hx hc
  · obtain ⟨es, hes, hall, -⟩ := hop.does
    refine hes.invariant (fun u => c ∈ u.clients → c ∈ s.clients) (fun a => a ≠ .client) ?_ ?_ id hc
    · intro a ha heq
      have hmay := hall a ha
      rw [heq] at hmay
      exact hconnect hmay
    · intro u e u' he hne hu hc
      exact hu (mem_clients_of_effect he (fun heq => hne _ heq rfl) hc)

/-- A step that leaves the timestamps. -/
def SameStamps (s s' : InnerServer) : Prop := s'.subSendTimestamps = s.subSendTimestamps

instance : LeavesQueues SameStamps where
  refl _ := rfl
  trans _ _ _ h h' := Eq.trans h' h
  tables _ _ _ _ hstamps _ := hstamps
  dropped _ _ := rfl

theorem sameStamps_setValue {value : FrcTimestampedValue} {t : TopicIdx} :
    Within SameStamps (setValue value t) := within_setValue_of fun _ _ _ => rfl

/-- The timestamp of a subscription with a client that is there is that of its last send. -/
def Timed (log : List (InnerServer × Op)) (s : InnerServer) : Prop :=
  ∀ i sub c, s.subscriptions.lookup i = some (sub, c) → isTopicsOnly sub = false →
    c ∈ s.clients → s.subSendTimestamps.lookup i = lastSent i log

theorem Timed.step (h : Timed log s) (hn : Numbered s) (hs : Stored s) (ho : OwnersKnown s)
    (hop : Step s op s') : Timed (log ++ [(s, op)]) s' := by
  intro i sub c hi hvalues hc
  rw [lastSent_snoc]
  have hne : ∀ entry, s.subscriptions.lookup i = some entry → ¬s.counters.subIdx = i := by
    rintro entry hi rfl
    exact lt_irrefl _ (hs.lt _ ((KeyMap.mem_iff_lookup _ _).mpr ⟨entry, hi⟩))
  have hcalm : ¬op.Handles → s'.subscriptions.lookup i = s.subscriptions.lookup i ∧
      s'.subSendTimestamps.lookup i = s.subSendTimestamps.lookup i := by
    intro hcalm
    obtain ⟨o, r, hx⟩ := hop
    have hsubs := (ends_of_exec (calm_perform op hcalm s) hx).subscriptions
    have hstamps : SameStamps s s' := ends_of_exec (LeavesQueues.within_perform op hcalm s) hx
    exact ⟨by rw [hsubs], by rw [hstamps]⟩
  -- where the step leaves the subscription and its timestamp, the record does not change either
  have hkept : (∀ last, sentIn i last (s, op) = last) →
      s'.subscriptions.lookup i = s.subscriptions.lookup i →
      s'.subSendTimestamps.lookup i = s.subSendTimestamps.lookup i →
      s'.subSendTimestamps.lookup i = sentIn i (lastSent i log) (s, op) := by
    intro hlast hsub hstamp
    rw [hsub] at hi
    rw [hlast, hstamp]
    exact h i sub c hi hvalues (ho.mem_clients hop hi hc)
  cases op with
  | subscribe msg d now =>
    obtain ⟨o, r, hx⟩ := hop
    cases ends_of_exec ends_subscribe hx with
    | noClient e hnone => exact hkept (fun _ => if_neg (hne _ hi)) rfl rfl
    | noList e lists entry hentry hmissing =>
      exact (hmissing (hn.map_listed _ _ (mem_interestOf.mp hentry).1)).elim
    | done r client hd hlists hr =>
      by_cases heq : i = s.counters.subIdx
      · simp [sentIn, InnerServer.subscribed, heq]
      · refine hkept (fun _ => if_neg fun h => heq h.symm) ?_ ?_
        · rw [InnerServer.subscribed, KeyMap.lookup_insert, if_neg heq]
        · rw [InnerServer.subscribed, KeyMap.lookup_insert, if_neg heq]
  | unsubscribe msg d =>
    obtain ⟨o, r, hx⟩ := hop
    have hends : Ends (unsubscribe msg d) s fun _ s' => ∀ entry,
        s'.subscriptions.lookup i = some entry →
          s'.subscriptions.lookup i = s.subscriptions.lookup i ∧
          s'.subSendTimestamps.lookup i = s.subSendTimestamps.lookup i := by
      simp only [unsubscribe, ends_bind, ends_get, thenEnds_ok, ends_okOr, thenEnds_error,
        ends_modify, putClient]
      refine ⟨fun client _ => ⟨fun j _ entry hi => ?_, fun _ _ _ => ⟨trivial, trivial⟩⟩,
        fun _ _ _ => ⟨trivial, trivial⟩⟩
      rw [KeyMap.lookup_erase] at hi ⊢
      rw [KeyMap.lookup_erase]
      split_ifs at hi ⊢
      exact ⟨rfl, rfl⟩
    obtain ⟨hsub, hstamp⟩ := ends_of_exec hends hx _ hi
    exact hkept (fun _ => rfl) hsub hstamp
  | setValue value t =>
    obtain ⟨o, r, hx⟩ := hop
    have hsubs := (ends_of_exec (ends_setValue fun subs hl => hs.once t subs hl) hx).1
    have hstamps : SameStamps s s' := ends_of_exec (sameStamps_setValue s) hx
    exact hkept (fun _ => rfl) (by rw [hsubs]) (by rw [hstamps])
  | sendOut clock offset =>
    have hback : s.subscriptions.lookup i = some (sub, c) → c ∈ s.clients :=
      fun hi => ho.mem_clients hop hi hc
    obtain ⟨o, r, hx⟩ := hop
    have hpass := ends_of_exec (ends_ignoring (passing_sendOut fun j hj => (hs.values j).mpr hj)) hx
    rw [hpass.subscriptions] at hi
    have hmem := hback hi
    have hsome : (s.clients.lookup c).isSome = true := AList.lookup_isSome.mpr hmem
    obtain ⟨since, hsince, htreated⟩ :=
      ends_of_exec (ends_ignoring (ends_sendOut_served hi hvalues hsome)) hx
    have htakes : s.takes clock i = true ↔ ¬IsNear clock i sub since := by
      rw [takes_iff hi hsince]
      simp [hvalues, hsome]
    rcases htreated with ⟨hdue, hserved⟩ | ⟨hnear, haside⟩
    · rw [hserved.stamp, sentIn, if_pos (htakes.mpr hdue)]
    · rw [haside.stamp, sentIn, if_neg fun htaken => htakes.mp htaken hnear]
      exact h i sub c hi hvalues hmem
  | _ =>
    obtain ⟨hsub, hstamp⟩ := hcalm fun h => h
    exact hkept (fun _ => rfl) hsub hstamp

theorem timed_of_logged {u : Kind → Nat} (run : LoggedRuns u (log, s))
    (htopic : u .topic < 2 ^ 32) (hsub : u .sub < 2 ^ 32) (hclient : u .client < 2 ^ 32) :
    Timed log s := by
  have hinv := run.invariant
    (fun u p => u .topic < 2 ^ 32 → u .sub < 2 ^ 32 → u .client < 2 ^ 32 → Timed p.1 p.2) ?_ ?_
  · exact hinv htopic hsub hclient
  · rintro ⟨log, s⟩ ⟨rfl, hinit⟩ - - - i sub c hi
    rw [hinit.subscriptions] at hi
    cases hi
  · rintro u ⟨log, s⟩ op ⟨log', s'⟩ run ih - ⟨hop, rfl⟩ htopic hsub hclient
    rw [Pi.add_apply] at htopic hsub hclient
    have hrun : Runs u s := Lib.Run.Logged.run (p := (log, s)) run
    have htopic := lt_of_le_of_lt (Nat.le_add_right ..) htopic
    have hsub := lt_of_le_of_lt (Nat.le_add_right ..) hsub
    have hclient := lt_of_le_of_lt (Nat.le_add_right ..) hclient
    obtain ⟨hn, hs⟩ := hrun.stored htopic hsub
    exact (ih htopic hsub hclient).step hn hs (hrun.ownersKnown hclient) hop

/-- In a run that creates fewer than 2^32 topics, subscriptions and connections, a pass keeps the
period of a subscription exactly where it does not come to it too early. -/
theorem period_respected {u : Kind → Nat} (run : LoggedRuns u (log, s))
    (htopic : u .topic < 2 ^ 32) (hsub : u .sub < 2 ^ 32) (hclient : u .client < 2 ^ 32)
    (hop : Step s (.sendOut clock offset) s') (hi : s.subscriptions.lookup i = some (sub, c))
    (hvalues : isTopicsOnly sub = false) (hc : c ∈ s.clients) :
    ∃ since, lastSent i log = some since ∧
      (KeepsPeriod s clock i sub c since s' ↔
        periodOf sub - 1 / 1000 ≤ elapsed (clock.check i) since) := by
  have hrun : Runs u s := Lib.Run.Logged.run (p := (log, s)) run
  obtain ⟨-, hs⟩ := hrun.stored htopic hsub
  have hmem := (hs.timestamps i).mpr ((KeyMap.mem_iff_lookup _ _).mpr ⟨_, hi⟩)
  obtain ⟨since, hsince⟩ := (KeyMap.mem_iff_lookup _ _).mp hmem
  have hlast := timed_of_logged run htopic hsub hclient i sub c hi hvalues hc
  obtain ⟨o, r, hx⟩ := hop
  refine ⟨since, hlast.symm.trans hsince, ?_⟩
  apply ends_of_exec (ends_ignoring _) hx
  exact keepsPeriod_iff hi hvalues (AList.lookup_isSome.mpr hc) hsince

/-- A subscription with a value to send. -/
def subscribeAndWait : List Op :=
  publishAndConnect ++ [.subscribe firstSubscription 1 0, .setValue ⟨8, ⟨.int, .integer 2⟩⟩ 3]

/-- A pass half a period after the subscription. -/
def earlyClock : SendClock := ⟨fun _ => 1 / 20, fun _ => 1 / 20, fun _ => 1 / 20⟩

theorem subscribeAndWait_pass (clock : SendClock)
    (hpass : (stateAfter anyOp .stored (subscribeAndWait ++ [.sendOut clock 0])).isSome = true) :
    ∃ s s' u, LoggedRuns u (recordAfter .stored subscribeAndWait, s) ∧ (∀ k, u k < 2 ^ 32) ∧
      Step s (.sendOut clock 0) s' ∧
      s.subscriptions.lookup 0 = some (subscriptionOf firstSubscription, 1) ∧ 1 ∈ s.clients ∧
      lastSent 0 (recordAfter .stored subscribeAndWait) = some 0 ∧
      s.subSendTimestamps.lookup 0 = some 0 := by
  have hrun : (stateAfter anyOp .stored subscribeAndWait).map (fun s =>
      (s.subscriptions.lookup 0, (s.clients.lookup 1).isSome, s.subSendTimestamps.lookup 0)) =
      some (some (subscriptionOf firstSubscription, 1), true, some 0) := by decide +kernel
  obtain ⟨s, hs, hview⟩ := Option.map_eq_some_iff.mp hrun
  simp only [Prod.mk.injEq] at hview
  obtain ⟨hi, hc, hsince⟩ := hview
  obtain ⟨s', hs'⟩ := Option.isSome_iff_exists.mp hpass
  obtain ⟨u, run, hu⟩ := logged_stateAfter hs
  exact ⟨s, s', u, run, fun k => (hu k).trans_lt (by decide), step_of_stateAfter hs hs', hi,
    AList.lookup_isSome.mp hc, by decide +kernel, hsince⟩

theorem period_respected_late :
    ∃ s s', Step s (.sendOut lateClock 0) s' ∧
      KeepsPeriod s lateClock 0 (subscriptionOf firstSubscription) 1 0 s' := by
  obtain ⟨s, s', u, run, hu, hop, hi, hc, hlast, -⟩ :=
    subscribeAndWait_pass lateClock (by decide +kernel)
  obtain ⟨since, hsince, hkeeps⟩ :=
    period_respected run (hu .topic) (hu .sub) (hu .client) hop hi rfl hc
  rw [hlast] at hsince
  cases hsince
  exact ⟨s, s', hop, hkeeps.mpr (by decide +kernel)⟩

/-- A pass that comes to a subscription half a period after its last send takes its values. -/
theorem early_pass_sends :
    ¬∀ u log s, LoggedRuns u (log, s) → u .topic < 2 ^ 32 → u .sub < 2 ^ 32 →
      u .client < 2 ^ 32 → ∀ clock offset s' i sub c, Step s (.sendOut clock offset) s' →
        s.subscriptions.lookup i = some (sub, c) → isTopicsOnly sub = false → c ∈ s.clients →
          ∃ since, lastSent i log = some since ∧ KeepsPeriod s clock i sub c since s' := by
  intro h
  obtain ⟨s, s', u, run, hu, hop, hi, hc, hlast, hstamp⟩ :=
    subscribeAndWait_pass earlyClock (by decide +kernel)
  obtain ⟨since, hsince, hkeeps⟩ :=
    h u _ s run (hu .topic) (hu .sub) (hu .client) _ _ s' 0 _ 1 hop hi rfl hc
  rw [hlast] at hsince
  cases hsince
  have hdue : ¬IsNear earlyClock 0 (subscriptionOf firstSubscription) 0 := by
    unfold IsNear
    decide +kernel
  have htakes : s.takes earlyClock 0 = true :=
    (takes_iff hi hstamp).mpr ⟨rfl, hdue, AList.lookup_isSome.mpr hc⟩
  have hle := (hkeeps.takes htakes).2
  revert hle
  decide +kernel

end History

end NetTables.Server
