import NetTables.Server.Isolation

namespace NetTables.Server

open Lib Lib.Fallible Spec

variable {s s' : InnerServer} {c d : ClientIdx} {client client' : ConnectedClient}
  {ident identity : ClientIdentity} {o : IterOrder}

/-- A connected client other than the server's own. -/
def InnerServer.Visitor (s : InnerServer) (c : ClientIdx) (client : ConnectedClient) : Prop :=
  s.clients.lookup c = some client ∧ c ≠ serverClientIdx

def InnerServer.NameInUse (s : InnerServer) (name : String) : Prop :=
  ∃ c client, s.Visitor c client ∧ client.identity.name = name

/-- No two clients have one name, and `client_map` leads from the identity of each client to it, and
from nowhere else. -/
structure UniquelyNamed (s : InnerServer) : Prop where
  distinct : ∀ c d client client', s.Visitor c client → s.Visitor d client' →
    client.identity.name = client'.identity.name → c = d
  exact : ∀ ident c, s.clientMap.lookup ident = some c ↔
    ∃ client, s.Visitor c client ∧ client.identity = ident

/-- What is kept along with it: the server's own client does not leave. -/
structure Roster (s : InnerServer) : Prop extends UniquelyNamed s where
  server : serverClientIdx ∈ s.clients

namespace Roster

theorem of_same (h : Roster s) (hclients : s'.clients = s.clients)
    (hmap : s'.clientMap = s.clientMap) : Roster s' := by
  have hvisitor : ∀ c client, s'.Visitor c client ↔ s.Visitor c client := by
    intro c client
    rw [InnerServer.Visitor, hclients, InnerServer.Visitor]
  refine ⟨⟨fun c d client client' hc hd => ?_, fun ident c => ?_⟩, ?_⟩
  · exact h.distinct c d client client' ((hvisitor c client).mp hc) ((hvisitor d client').mp hd)
  · rw [hmap, h.exact]
    simp only [hvisitor]
  · rw [hclients]
    exact h.server

/-- A change of one client that keeps its identity. -/
theorem update (h : Roster s) (hc : s.clients.lookup c = some client)
    (hclients : s'.clients = s.clients.insert c client')
    (hidentity : client'.identity = client.identity) (hmap : s'.clientMap = s.clientMap) :
    Roster s' := by
  -- a client now is a client then, of the same identity
  have hback : ∀ d new, s'.Visitor d new →
      ∃ old, s.Visitor d old ∧ old.identity = new.identity := by
    intro d new hd
    obtain ⟨hlookup, hne⟩ := hd
    rw [hclients, KeyMap.lookup_insert] at hlookup
    split_ifs at hlookup with heq
    · cases hlookup
      exact ⟨client, ⟨heq ▸ hc, hne⟩, hidentity.symm⟩
    · exact ⟨new, ⟨hlookup, hne⟩, rfl⟩
  have hforth : ∀ d old, s.Visitor d old →
      ∃ new, s'.Visitor d new ∧ new.identity = old.identity := by
    intro d old hd
    obtain ⟨hlookup, hne⟩ := hd
    by_cases heq : d = c
    · subst heq
      rw [hc] at hlookup
      cases hlookup
      exact ⟨client', ⟨by rw [hclients, KeyMap.lookup_insert, if_pos rfl], hne⟩, hidentity⟩
    · refine ⟨old, ⟨?_, hne⟩, rfl⟩
      rw [hclients, KeyMap.lookup_insert, if_neg heq]
      exact hlookup
  refine ⟨⟨fun c d client client' hc hd hname => ?_, fun ident d => ?_⟩, ?_⟩
  · obtain ⟨old, hold, hi⟩ := hback c client hc
    obtain ⟨old', hold', hi'⟩ := hback d client' hd
    exact h.distinct c d old old' hold hold' (by rw [hi, hi', hname])
  · rw [hmap, h.exact]
    constructor
    · intro hd
      obtain ⟨old, hold, rfl⟩ := hd
      exact hforth d old hold
    · intro hd
      obtain ⟨new, hnew, rfl⟩ := hd
      exact hback d new hnew
  · rw [hclients]
    exact (AList.mem_insert _).mpr (.inr h.server)

/-- A client leaves, and its identity with it. -/
theorem leave (h : Roster s) (hident : s.clientMap.lookup ident = some c)
    (hclients : s'.clients = s.clients.erase c) (hmap : s'.clientMap = s.clientMap.erase ident) :
    Roster s' := by
  obtain ⟨client, hvisitor, hi⟩ := (h.exact ident c).mp hident
  have hstays : ∀ d new, s'.Visitor d new ↔ d ≠ c ∧ s.Visitor d new := by
    intro d new
    rw [InnerServer.Visitor, hclients, KeyMap.lookup_erase]
    split_ifs with heq
    · simp [heq]
    · simp [heq, InnerServer.Visitor]
  refine ⟨⟨fun c d client client' hc hd => ?_, fun ident' d => ?_⟩, ?_⟩
  · exact h.distinct c d client client' ((hstays c client).mp hc).2 ((hstays d client').mp hd).2
  · rw [hmap, KeyMap.lookup_erase]
    simp only [hstays]
    split_ifs with heq
    · subst heq
      -- only the client that leaves had this identity
      have hnone : ¬∃ new, (d ≠ c ∧ s.Visitor d new) ∧ new.identity = ident' := by
        intro hd
        obtain ⟨new, ⟨hne, hnew⟩, hinew⟩ := hd
        exact hne (h.distinct d c new client hnew hvisitor (by rw [hinew, hi]))
      exact ⟨fun hd => (by cases hd), fun hd => (hnone hd).elim⟩
    · rw [h.exact]
      constructor
      · intro hd
        obtain ⟨new, hnew, hinew⟩ := hd
        refine ⟨new, ⟨?_, hnew⟩, hinew⟩
        rintro rfl
        have hsame := hnew.1.symm.trans hvisitor.1
        cases hsame
        exact heq (hinew.symm.trans hi)
      · intro hd
        obtain ⟨new, ⟨-, hnew⟩, hinew⟩ := hd
        exact ⟨new, hnew, hinew⟩
  · rw [hclients]
    exact AList.mem_erase.mpr ⟨hvisitor.2.symm, h.server⟩

/-- A new client, under a free index and with a free name. -/
theorem join {named : ClientIdentity} (h : Roster s) (hfree : s.counters.clientIdx ∉ s.clients)
    (hname : ¬s.NameInUse named.name)
    (hclients : s'.clients = s.clients.insert s.counters.clientIdx (.new named))
    (hmap : s'.clientMap = s.clientMap.insert named s.counters.clientIdx) : Roster s' := by
  have hne : s.counters.clientIdx ≠ serverClientIdx := by
    intro heq
    exact hfree (heq ▸ h.server)
  have hnot : ∀ d old, s.Visitor d old → d ≠ s.counters.clientIdx := by
    rintro d old hold rfl
    exact hfree ((KeyMap.mem_iff_lookup _ _).mpr ⟨old, hold.1⟩)
  have hnow : ∀ d new, s'.Visitor d new ↔
      d = s.counters.clientIdx ∧ new = .new named ∨ s.Visitor d new := by
    intro d new
    rw [InnerServer.Visitor, hclients, KeyMap.lookup_insert]
    split_ifs with heq
    · subst heq
      constructor
      · intro hd
        obtain ⟨hsome, -⟩ := hd
        cases hsome
        exact .inl ⟨rfl, rfl⟩
      · intro hd
        rcases hd with ⟨-, rfl⟩ | hold
        · exact ⟨rfl, hne⟩
        · exact (hnot _ new hold rfl).elim
    · simp [heq, InnerServer.Visitor]
  have hapart : ∀ d old, s.Visitor d old → old.identity.name ≠ named.name :=
    fun d old hold heq => hname ⟨d, old, hold, heq⟩
  refine ⟨⟨fun c d client client' hc hd hsame => ?_, fun ident d => ?_⟩, ?_⟩
  · rcases (hnow c client).mp hc with ⟨rfl, rfl⟩ | hc <;>
      rcases (hnow d client').mp hd with ⟨rfl, rfl⟩ | hd
    · rfl
    · exact (hapart d client' hd hsame.symm).elim
    · exact (hapart c client hc hsame).elim
    · exact h.distinct c d client client' hc hd hsame
  · rw [hmap, KeyMap.lookup_insert]
    simp only [hnow]
    split_ifs with heq
    · subst heq
      constructor
      · intro hd
        cases hd
        exact ⟨.new ident, .inl ⟨rfl, rfl⟩, rfl⟩
      · intro hd
        obtain ⟨new, ⟨rfl, -⟩ | hold, hi⟩ := hd
        · rfl
        · exact (hapart d new hold (by rw [hi])).elim
    · rw [h.exact]
      constructor
      · intro hd
        obtain ⟨old, hold, hi⟩ := hd
        exact ⟨old, .inr hold, hi⟩
      · intro hd
        obtain ⟨new, ⟨-, rfl⟩ | hold, hi⟩ := hd
        · exact (heq hi.symm).elim
        · exact ⟨new, hold, hi⟩
  · rw [hclients]
    exact (AList.mem_insert _).mpr (.inr h.server)

/-- Every effect but a connection. -/
theorem effect {e : Option Event} (h : Roster s) (he : Effect s e s') (hnew : e ≠ some .client) :
    Roster s' := by
  cases he with
  | clientConnected => exact (hnew rfl).elim
  | registered _ hc | unregistered _ hc | marked _ hc | told _ hc | flushed hc | closed hc
  | subscribed _ _ _ _ _ _ hc | unsubscribed _ hc | batchesSent _ _ hc =>
    exact h.update hc rfl rfl rfl
  | clientLeft hident hc => exact h.leave hident rfl rfl
  | identityErased hident hc =>
    obtain ⟨client, hvisitor, -⟩ := (h.exact _ _).mp hident
    rw [hvisitor.1] at hc
    cases hc
  | _ => exact h.of_same rfl rfl

end Roster

section Connect

/-- Whether a name is part of another one, `contains`. -/
def IsPartOf (name other : String) : Prop := name.toList <:+: other.toList

/-- The name that `connect_client` makes out of one that is taken. -/
def countedName (s : InnerServer) (identity : ClientIdentity) : String :=
  s!"{identity.name}@{instancesOfIdent s identity}"

/-- A connection takes a free index, and either no client has a name with the wanted one in it, or
one has the wanted name itself and none has the name made of it. -/
def NamesApart (s : InnerServer) : Op → Prop
  | .connectClient identity => s.clientMap.lookup identity = none →
      s.counters.clientIdx ∉ s.clients ∧
      ((∀ c client, s.clients.lookup c = some client →
          ¬IsPartOf identity.name client.identity.name) ∨
        s.NameInUse identity.name ∧ ¬s.NameInUse (countedName s identity))
  | _ => True

theorem instancesOfIdent_eq_zero : instancesOfIdent s identity = 0 ↔
    ∀ c client, s.clients.lookup c = some client →
      ¬IsPartOf identity.name client.identity.name := by
  rw [instancesOfIdent, List.countP_eq_zero]
  constructor
  · intro h c client hc
    simpa [IsPartOf] using h (c, client) ((KeyMap.mem_pairs _ _ _).mpr hc)
  · intro h e he
    simpa [IsPartOf] using h e.1 e.2 ((KeyMap.mem_pairs _ _ _).mp he)

/-- The wanted name is kept exactly where no client has it in its name. -/
theorem uniqueIdentity_of_apart (h : ∀ c client, s.clients.lookup c = some client →
    ¬IsPartOf identity.name client.identity.name) : uniqueIdentity s identity = identity := by
  rw [uniqueIdentity, instancesOfIdent_eq_zero.mpr h]
  rfl

theorem uniqueIdentity_of_inUse (h : s.NameInUse identity.name) :
    (uniqueIdentity s identity).name = countedName s identity := by
  obtain ⟨c, client, hvisitor, hname⟩ := h
  have hpos : 0 < instancesOfIdent s identity := by
    apply Nat.pos_of_ne_zero
    intro hzero
    apply instancesOfIdent_eq_zero.mp hzero c client hvisitor.1
    rw [hname]
    exact List.infix_rfl
  unfold uniqueIdentity
  rw [if_pos hpos]
  rfl

theorem not_inUse_of_apart (h : ∀ c client, s.clients.lookup c = some client →
    ¬IsPartOf identity.name client.identity.name) : ¬s.NameInUse identity.name := by
  intro huse
  obtain ⟨c, client, hvisitor, hname⟩ := huse
  apply h c client hvisitor.1
  rw [hname]
  exact List.infix_rfl

theorem Roster.connect (h : Roster s) (hapart : NamesApart s (.connectClient identity))
    (hident : s.clientMap.lookup identity = none) :
    Roster (s.connected (uniqueIdentity s identity)) := by
  have hclients := connected_clients s (uniqueIdentity s identity)
  have hmap := connected_clientMap s (uniqueIdentity s identity)
  obtain ⟨hfree, hnew | ⟨huse, hcounted⟩⟩ := hapart hident
  · apply h.join hfree _ hclients hmap
    rw [uniqueIdentity_of_apart hnew]
    exact not_inUse_of_apart hnew
  · apply h.join hfree _ hclients hmap
    rw [uniqueIdentity_of_inUse huse]
    exact hcounted

theorem Roster.step {op : Op} (h : Roster s) (hop : Step s op s') (hapart : NamesApart s op) :
    Roster s' := by
  by_cases hconnect : ∃ identity, op = .connectClient identity
  · obtain ⟨identity, rfl⟩ := hconnect
    obtain ⟨o, r, hx⟩ := hop
    have hends : Ends (ignoring (connectClient o identity)) s fun _ s' => Roster s' := by
      apply ends_ignoring
      rw [ends_connectClient]
      split_ifs with hident
      · exact h
      · exact h.connect hapart (by simpa using hident)
    exact ends_of_exec hends hx
  · obtain ⟨es, hes, hall, -⟩ := hop.does
    apply hes.invariant Roster (· ≠ .client) _ _ h
    · intro a ha hclient
      subst hclient
      exact hconnect (hall _ ha)
    · intro s e s' he hnot h
      exact h.effect he fun hclient => hnot _ hclient rfl

end Connect

theorem roster_booted : Roster booted := by
  have hnone : ∀ c client, ¬booted.Visitor c client := by
    intro c client hc
    obtain ⟨hlookup, hne⟩ := hc
    simp only [booted, KeyMap.lookup_insert, if_neg hne] at hlookup
    cases hlookup
  refine ⟨⟨fun c d client client' hc => (hnone c client hc).elim, fun ident c => ?_⟩, ?_⟩
  · constructor
    · intro h
      cases h
    · intro h
      obtain ⟨client, hc, -⟩ := h
      exact (hnone c client hc).elim
  · exact (AList.mem_insert _).mpr (.inl rfl)

theorem roster_of_run {u : Kind → Nat} (run : RunWhere NamesApart u s) : Roster s := by
  apply run.invariant fun _ s => Roster s
  · intro s hs
    obtain ⟨es, hes, hall, -⟩ := hs.does
    apply hes.invariant Roster (· ≠ .client) _ _ roster_booted
    · intro a ha hclient
      obtain ⟨name, rfl⟩ := hall a ha
      cases hclient
    · intro s e s' he hnot h
      exact h.effect he fun hclient => hnot _ hclient rfl
  · intro u s op t _ h hop hstep
    exact h.step hstep hop

/-- In a run whose connections keep their names apart, the clients are named uniquely, and the next
such connection keeps the wanted name if no client has it. -/
theorem names_unique {u : Kind → Nat} (run : RunWhere NamesApart u s) :
    UniquelyNamed s ∧ ∀ o identity, NamesApart s (.connectClient identity) →
      ¬s.NameInUse identity.name →
      ∃ idx s', (connectClient o identity).exec s = .ok (.ok (identity, idx), s') := by
  have hroster := roster_of_run run
  refine ⟨hroster.toUniquelyNamed, fun o identity hapart hfree => ?_⟩
  have hident : s.clientMap.lookup identity = none := by
    rw [Option.eq_none_iff_forall_ne_some]
    intro c hc
    obtain ⟨client, hvisitor, rfl⟩ := (hroster.exact identity c).mp hc
    exact hfree ⟨c, client, hvisitor, rfl⟩
  have hkept : uniqueIdentity s identity = identity := by
    obtain ⟨-, hnew | ⟨huse, -⟩⟩ := hapart hident
    · exact uniqueIdentity_of_apart hnew
    · exact (hfree huse).elim
  have hends : Ends (connectClient o identity) s fun r _ =>
      r = .ok (identity, s.counters.clientIdx) := by
    rw [ends_connectClient, hident, hkept]
    rfl
  obtain ⟨r, s', hx, rfl⟩ := total_connectClient.ends hends
  exact ⟨_, s', hx⟩

section Concrete

theorem nameInUse_iff {name : String} : s.NameInUse name ↔
    ∃ e ∈ s.clients.pairs, e.1 ≠ serverClientIdx ∧ e.2.identity.name = name := by
  constructor
  · intro h
    obtain ⟨c, client, ⟨hc, hne⟩, hname⟩ := h
    exact ⟨(c, client), (KeyMap.mem_pairs _ _ _).mpr hc, hne, hname⟩
  · intro h
    obtain ⟨⟨c, client⟩, hmem, hne, hname⟩ := h
    exact ⟨c, client, ⟨(KeyMap.mem_pairs _ _ _).mp hmem, hne⟩, hname⟩

instance (name : String) : Decidable (s.NameInUse name) := decidable_of_iff' _ nameInUse_iff

/-- The check that a connection keeps the names apart. -/
def keepsApart (s : InnerServer) : Op → Bool
  | .connectClient identity => (s.clients.lookup s.counters.clientIdx).isNone &&
      (instancesOfIdent s identity == 0 ||
        decide (s.NameInUse identity.name) && !decide (s.NameInUse (countedName s identity)))
  | _ => true

theorem namesApart_of_keepsApart (s : InnerServer) (op : Op) (h : keepsApart s op = true) :
    NamesApart s op := by
  cases op with
  | connectClient identity =>
    intro _
    simp only [keepsApart, Bool.and_eq_true, Bool.or_eq_true, beq_iff_eq, decide_eq_true_eq,
      Bool.not_eq_true', decide_eq_false_iff_not, Option.isNone_iff_eq_none] at h
    refine ⟨?_, h.2.imp instancesOfIdent_eq_zero.mp id⟩
    intro hmem
    obtain ⟨client, hc⟩ := (KeyMap.mem_iff_lookup _ _).mp hmem
    rw [hc] at h
    cases h.1
  | _ => trivial

/-- Three clients, two of which want one name. -/
def connectThree : List Op :=
  [.connectClient ⟨.v4 10 0 0 2 5810, "a"⟩, .connectClient ⟨.v4 10 0 0 3 5810, "b"⟩,
    .connectClient ⟨.v4 10 0 0 4 5810, "a"⟩]

theorem names_unique_connectThree :
    ∃ s idx s', stateAfter keepsApart .stored connectThree = some s ∧ UniquelyNamed s ∧
      (connectClient .stored ⟨.v4 10 0 0 5 5810, "c"⟩).exec s =
        .ok (.ok (⟨.v4 10 0 0 5 5810, "c"⟩, idx), s') := by
  have hrun : (stateAfter keepsApart .stored connectThree).map (fun s =>
      (keepsApart s (.connectClient ⟨.v4 10 0 0 5 5810, "c"⟩),
        decide (s.NameInUse "a@1"), decide (s.NameInUse "c"))) = some (true, true, false) := by
    decide +kernel
  obtain ⟨s, hs, hview⟩ := Option.map_eq_some_iff.mp hrun
  simp only [Prod.mk.injEq] at hview
  obtain ⟨hkeeps, -, hfree⟩ := hview
  obtain ⟨u, run, -⟩ := runWhere_stateAfter namesApart_of_keepsApart hs
  obtain ⟨hunique, hnext⟩ := names_unique run
  obtain ⟨idx, s', hx⟩ := hnext .stored ⟨.v4 10 0 0 5 5810, "c"⟩
    (namesApart_of_keepsApart s _ hkeeps) (of_decide_eq_false hfree)
  exact ⟨s, idx, s', hs, hunique, hx⟩

/-- Two clients want one name; the first one leaves, and the name is wanted once more. -/
def connectAgain : List Op :=
  [.connectClient ⟨.v4 10 0 0 2 5810, "a"⟩, .connectClient ⟨.v4 10 0 0 3 5810, "a"⟩,
    .disconnectClient ⟨.v4 10 0 0 2 5810, "a"⟩, .connectClient ⟨.v4 10 0 0 4 5810, "a"⟩]

/-- The wanted name is free, and yet the client is renamed, to a name that another one has. -/
theorem two_clients_of_one_name : ¬∀ s, Reachable s → UniquelyNamed s := by
  intro h
  have hrun : (stateAfter anyOp .stored connectAgain).bind (fun s =>
      (s.clients.lookup 2).bind fun client => (s.clients.lookup 3).map fun client' =>
        (client.identity.name, client'.identity.name)) = some ("a@1", "a@1") := by
    decide +kernel
  obtain ⟨s, hs, hview⟩ := Option.bind_eq_some_iff.mp hrun
  obtain ⟨client, hc, hview⟩ := Option.bind_eq_some_iff.mp hview
  obtain ⟨client', hc', hview⟩ := Option.map_eq_some_iff.mp hview
  simp only [Prod.mk.injEq] at hview
  have hsame := (h s (reachable_stateAfter hs)).distinct 2 3 client client' ⟨hc, by decide⟩
    ⟨hc', by decide⟩ (by rw [hview.1, hview.2])
  exact absurd hsame (by decide)

end Concrete

end NetTables.Server
