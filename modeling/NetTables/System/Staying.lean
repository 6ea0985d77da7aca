import NetTables.Server.Clients
import NetTables.Server.Frames
import NetTables.System.Requested
import NetTables.System.Sending

namespace NetTables.System

open Lib Lib.Fallible Spec Server

section Server

/-- Every client is still there, under its identity. -/
def Stays (s s' : InnerServer) : Prop :=
  ∀ c client, s.clients.lookup c = some client →
    ∃ client', s'.clients.lookup c = some client' ∧ client'.identity = client.identity

variable {s s' s'' : InnerServer} {e : Option Server.Event} {op : Op}

theorem Stays.refl (s : InnerServer) : Stays s s := fun _ client hc => ⟨client, hc, rfl⟩

theorem Stays.trans (h : Stays s s') (h' : Stays s' s'') : Stays s s'' := by
  intro c client hc
  obtain ⟨client', hc', hidentity⟩ := h c client hc
  obtain ⟨client'', hc'', hidentity'⟩ := h' c client' hc'
  exact ⟨client'', hc'', hidentity'.trans hidentity⟩

theorem stays_of_clients (hclients : s'.clients = s.clients) : Stays s s' := by
  intro c client hc
  rw [hclients]
  exact ⟨client, hc, rfl⟩

/-- One client is changed. -/
theorem stays_insert {c : ClientIdx} {client client' : ConnectedClient}
    (hc : s.clients.lookup c = some client) (hclients : s'.clients = s.clients.insert c client')
    (hidentity : client'.identity = client.identity) : Stays s s' := by
  intro d other hd
  rw [hclients, KeyMap.lookup_insert]
  split_ifs with heq
  · subst heq
    cases hc.symm.trans hd
    exact ⟨client', rfl, hidentity⟩
  · exact ⟨other, hd, rfl⟩

instance : Tolerates Stays where
  refl := Stays.refl
  trans _ _ _ := Stays.trans
  tables _ _ hclients _ _ _ _ := stays_of_clients hclients
  retold _ _ _ _ hc hretold := stays_insert hc rfl hretold.identity

/-- No effect takes a client away but a disconnection. -/
theorem stays_of_effect (he : Effect s e s') (h : Identified s) (hkeeps : e ≠ some .withdrawn) :
    Stays s s' := by
  cases he with
  | clientConnected identity =>
    intro c client hc
    have hlt := h.clients_lt c ((KeyMap.mem_iff_lookup _ _).mpr ⟨client, hc⟩)
    have hne : c ≠ s.counters.clientIdx := by
      rintro rfl
      exact hlt.false
    exact ⟨client, (KeyMap.lookup_insert ..).trans (if_neg hne ▸ hc), rfl⟩
  | clientLeft | unregistered => exact (hkeeps rfl).elim
  | registered _ hc | marked _ hc | told _ hc | flushed hc | closed hc | subscribed _ _ _ _ _ _ hc
  | unsubscribed _ hc | batchesSent _ _ hc => exact stays_insert hc rfl rfl
  | _ => exact stays_of_clients rfl

theorem stays_of_effects {es : List Server.Event} (hes : Effects s es s') (h : Identified s)
    (hroom : Room (· = .client) s es) (hkeeps : .withdrawn ∉ es) : Stays s s' := by
  have hboth : Identified s' ∧ Stays s s' := by
    refine hes.invariant_of_room (fun u => Identified u ∧ Stays s u) (· ≠ .withdrawn) ?_ hroom ?_
      ⟨h, .refl s⟩
    · rintro a ha rfl
      exact hkeeps ha
    · intro u e u' he hkeeps hroom hu
      have hstays : Stays u u' := stays_of_effect he hu.1 fun heq => hkeeps _ heq rfl
      exact ⟨hu.1.step he hroom, hu.2.trans hstays⟩
  exact hboth.2

/-- No operation does, either; `inner_unpublish_topic` takes back a registration only. -/
theorem stays_of_step (h : Step s op s') (hident : Identified s) {u : Kind → Nat} (run : Runs u s)
    (hu : u .client + created s s' .client < 2 ^ 32) (hop : ∀ ident, op ≠ .disconnectClient ident) :
    Stays s s' := by
  by_cases hunpublish : ∃ pubTopic c, op = .innerUnpublishTopic pubTopic c
  · obtain ⟨pubTopic, c, rfl⟩ := hunpublish
    obtain ⟨o, r, hx⟩ := h
    have hwithin : Within Stays (innerUnpublishTopic pubTopic c) :=
      within_innerUnpublishTopic fun _ _ hc => stays_insert hc rfl rfl
    exact ends_of_exec (hwithin s) hx
  · obtain ⟨es, hes, hmay, hn⟩ := h.does
    refine stays_of_effects hes hident (run.room hes hn fun k hk => hk ▸ hu) fun hwithdrawn => ?_
    have hwithdraws : op.Withdraws := hmay _ hwithdrawn
    cases op with
    | innerUnpublishTopic pubTopic c => exact hunpublish ⟨pubTopic, c, rfl⟩
    | disconnectClient ident => exact hop ident rfl
    | _ => exact hwithdraws

end Server

variable {codec : Codec} {W W' : World} {happening : Happening} {guard : World → Happening → Prop}
  {u : Kind → Nat} {log : List (World × Happening)} {op : Op}

/-- No client asks for a disconnection, and the server does not understand its own close messages. -/
theorem Asked.ne_disconnectClient (h : Asked codec W happening op) (hsound : codec.Sound)
    (hrelayed : Relayed codec log W) (run : LoggedWorlds codec guard u (log, W)) :
    ∀ ident, op ≠ .disconnectClient ident := by
  rintro ident rfl
  cases h with
  | @handles c task parsing _ now hnext hop =>
    cases task with
    | ntMessage message =>
      cases message with
      | close close =>
        have htask : (c, ParserTask.ntMessage (.close close)) ∈ W.parsing :=
          hnext ▸ List.mem_cons_self ..
        obtain ⟨m, ⟨V, -, i, k, -, V', p, hV', hp, -, hm⟩, htask⟩ := hrelayed.parsing _ htask
        obtain ⟨messages, l, rfl, hread, hmem⟩ := message_written htask
        obtain ⟨close', hclose⟩ := hsound.close messages l hread close hmem
        have hproper : Proper (.text messages) := proper_of_logged run hV' hp hm
        cases hproper _ hclose
      | _ => cases hop
    | value data =>
      obtain ⟨e, -, heq⟩ := Option.map_eq_some_iff.mp hop
      cases heq
  | operates hop => cases hop

/-- In every run that creates fewer than 2^32 clients: a client that the server has accepted stays
with it under the identity it was given, however many connections have ended. -/
theorem clients_stay (hsound : codec.Sound) (hjson : codec.json.Framed)
    (run : LoggedWorlds codec guard u (log, W)) (hu : u .client < 2 ^ 32) :
    ∀ V ∈ passed log W, Stays V.server W.server := by
  refine run.invariant (fun u p => u .client < 2 ^ 32 →
    ∀ V ∈ passed p.1 p.2, Stays V.server p.2.server) ?_ ?_ hu
  · rintro ⟨log, W⟩ ⟨rfl, hbegins⟩ - V hV
    rw [List.mem_singleton.mp hV]
    exact .refl _
  · rintro u ⟨log, W⟩ happening ⟨log', W'⟩ run ih - ⟨hstep, rfl⟩ hu V hV
    rw [Pi.add_apply] at hu
    have hnow : Stays W.server W'.server := by
      rcases hstep.asked with heq | ⟨op, hasked, hop⟩
      · rw [heq]
        exact .refl _
      · have hserver : Runs u W.server := WorldsWhere.runs (Lib.Run.Logged.run (p := (log, W)) run)
        have hrelayed : Relayed codec log W := (allAccounted_of_logged hsound hjson run).relayed
        exact stays_of_step hop (hserver.identified (by omega)) hserver hu
          (hasked.ne_disconnectClient hsound hrelayed run)
    rw [passed_snoc] at hV
    rcases List.mem_append.mp hV with hV | hV
    · exact (ih (by omega) V hV).trans hnow
    · rw [List.mem_singleton.mp hV]
      exact .refl _

/-- A connection ends, and the parser takes its close message. -/
theorem clients_stay_ended : ∃ u log V W client client',
    LoggedWorlds (codecOf topicTexts) (fun _ _ => True) u (log, W) ∧ V ∈ passed log W ∧
      V.server.clients.lookup 1 = some client ∧ client.identity.name = "a" ∧
      V.incoming = [] ∧ (V.connections.lookup 0).map Connection.admission = some (.admitted 1) ∧
      W.incoming = [] ∧ (W.connections.lookup 0).map Connection.admission = some .ended ∧
      W.server.clients.lookup 1 = some client' ∧ client'.identity = client.identity := by
  have hrun : (World.after (codecOf topicTexts) .stored anyHappening
      (connects 0 0 ⟨.v4 10 0 0 2 5810, "a"⟩)).bind (fun V =>
        (V.takeAll (codecOf topicTexts) .stored anyHappening [.ends 0, .closes 0, .parses]).map
          fun W => ((V.server.clients.lookup 1).map fun client => client.identity.name,
            (V.incoming.isEmpty, (V.connections.lookup 0).map Connection.admission),
            (W.incoming.isEmpty, (W.connections.lookup 0).map Connection.admission))) =
      some (some "a", (true, some (.admitted 1)), (true, some .ended)) := by
    decide +kernel
  obtain ⟨V, hV, hview⟩ := Option.bind_eq_some_iff.mp hrun
  obtain ⟨W, hW, hview⟩ := Option.map_eq_some_iff.mp hview
  simp only [Prod.mk.injEq] at hview
  obtain ⟨hname, ⟨hbefore, hadmitted⟩, hafter, hended⟩ := hview
  rw [List.isEmpty_iff] at hbefore hafter
  obtain ⟨client, hclient, hname⟩ := Option.map_eq_some_iff.mp hname
  obtain ⟨u, worlds, hu⟩ := worlds_of_after hV
  obtain ⟨log, start⟩ := exists_logged worlds
  obtain ⟨u', log', run, hpast, hu'⟩ := logged_takeAll start (fun _ _ _ => trivial) hW
  have hclients : u' .client < 2 ^ 32 := by
    have hfirst := hu .client
    have hlast := hu' .client
    have hlength : (connects 0 0 ⟨.v4 10 0 0 2 5810, "a"⟩).length = 17 := by decide
    simp only [List.length_cons, List.length_nil] at hlast
    omega
  have hmem : V ∈ passed log' W :=
    hpast V (List.mem_append_right _ (List.mem_singleton_self V))
  have hstays : Stays V.server W.server := clients_stay (sound_codecOf (by decide) (by decide))
    (framed_codecOf (by decide)) run hclients V hmem
  obtain ⟨client', hclient', hidentity⟩ := hstays 1 client hclient
  exact ⟨u', log', V, W, client, client', run, hmem, hclient, hname, hbefore, hadmitted, hafter,
    hended, hclient', hidentity⟩

end NetTables.System
