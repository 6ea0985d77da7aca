import NetTables.Server.Clients
import NetTables.Server.Isolation

namespace NetTables.Server

open Lib Lib.Fallible Spec

variable {s s' : InnerServer} {e : Option Event} {op : Op} {c : ClientIdx}

/-- What client `c` has on record is what the server serves for it, one to one. -/
def ConnectedClient.Owns (client : ConnectedClient) (s : InnerServer) (c : ClientIdx) : Prop :=
  ∀ i subuid, client.subuidToSubidx.getByLeft subuid = some i ↔
    ∃ sub, s.subscriptions.lookup i = some (sub, c) ∧ sub.subuid.toUInt32 = subuid

/-- The subscriptions of the connected clients, with indices that were given to nobody else. -/
structure Owned (s : InnerServer) : Prop where
  owns : ∀ c client, s.clients.lookup c = some client → client.Owns s c
  sub_lt : ∀ i, i ∈ s.subscriptions → i.toNat < s.counters.subIdx.toNat
  owner_lt : ∀ i sub c, s.subscriptions.lookup i = some (sub, c) →
    c.toNat < s.counters.clientIdx.toNat

/-- A subscription that goes through is under a `subuid` that its client does not use yet. -/
def NewSubuid (s : InnerServer) : Op → Prop
  | .subscribe sub c _ => Subscribable s c sub → ∀ client, s.clients.lookup c = some client →
      client.subuidToSubidx.getByLeft sub.subuid.toUInt32 = none
  | _ => True

namespace Owned

/-- It looks at the table, the records and the counters only. -/
theorem of_same (h : Owned s) (hsubs : s'.subscriptions = s.subscriptions)
    (hclients : ∀ c client', s'.clients.lookup c = some client' →
      ∃ client, s.clients.lookup c = some client ∧
        client'.subuidToSubidx = client.subuidToSubidx)
    (hsub : s.counters.subIdx.toNat ≤ s'.counters.subIdx.toNat)
    (hclient : s.counters.clientIdx.toNat ≤ s'.counters.clientIdx.toNat) : Owned s' where
  owns c client' hc' := by
    obtain ⟨client, hc, hrecord⟩ := hclients c client' hc'
    intro i subuid
    rw [hrecord, hsubs]
    exact h.owns c client hc i subuid
  sub_lt i hi := (h.sub_lt i (hsubs ▸ hi)).trans_le hsub
  owner_lt i sub c hi := by
    rw [hsubs] at hi
    exact (h.owner_lt i sub c hi).trans_le hclient

/-- A change of one client that leaves its record. -/
theorem update (h : Owned s) {client client' : ConnectedClient}
    (hc : s.clients.lookup c = some client) (hclients : s'.clients = s.clients.insert c client')
    (hrecord : client'.subuidToSubidx = client.subuidToSubidx)
    (hsubs : s'.subscriptions = s.subscriptions) (hcounters : s'.counters = s.counters) :
    Owned s' := by
  apply h.of_same hsubs _ (by rw [hcounters]) (by rw [hcounters])
  intro d client₀ hd
  rw [hclients, KeyMap.lookup_insert] at hd
  split_ifs at hd with hdc
  · cases hd
    exact ⟨client, hdc ▸ hc, hrecord⟩
  · exact ⟨client₀, hd, rfl⟩

/-- A new client owns nothing yet, and nothing in the table is its own. -/
theorem connected (h : Owned s) (identity : ClientIdentity)
    (hclients : s'.clients = s.clients.insert s.counters.clientIdx (.new identity))
    (hsubs : s'.subscriptions = s.subscriptions)
    (hcounters : s'.counters.subIdx = s.counters.subIdx)
    (hnext : s'.counters.clientIdx.toNat = s.counters.clientIdx.toNat + 1) : Owned s' where
  owns c client hc := by
    rw [hclients, KeyMap.lookup_insert] at hc
    intro i subuid
    rw [hsubs]
    split_ifs at hc with hnew
    · cases hc
      have hnone : ∀ sub, s.subscriptions.lookup i ≠ some (sub, c) := by
        intro sub hi
        have hlt := h.owner_lt i sub c hi
        rw [hnew] at hlt
        exact hlt.false
      constructor
      · intro hi
        cases hi
      · intro hi
        obtain ⟨sub, hi, -⟩ := hi
        exact (hnone sub hi).elim
    · exact h.owns c client hc i subuid
  sub_lt i hi := by
    rw [hcounters]
    exact h.sub_lt i (hsubs ▸ hi)
  owner_lt i sub c hi := by
    rw [hsubs] at hi
    have hlt := h.owner_lt i sub c hi
    omega

/-- A subscription under a new index and a `subuid` that is new to its client. -/
theorem subscribed (h : Owned s) {client client' : ConnectedClient} {sub : Subscription}
    (hlt : c.toNat < s.counters.clientIdx.toNat) (hc : s.clients.lookup c = some client)
    (hnew : client.subuidToSubidx.getByLeft sub.subuid.toUInt32 = none)
    (hclients : s'.clients = s.clients.insert c client')
    (hrecord : client'.subuidToSubidx =
      client.subuidToSubidx.insert sub.subuid.toUInt32 s.counters.subIdx)
    (hsubs : s'.subscriptions = s.subscriptions.insert s.counters.subIdx (sub, c))
    (hnext : s'.counters.subIdx.toNat = s.counters.subIdx.toNat + 1)
    (hidx : s'.counters.clientIdx = s.counters.clientIdx) : Owned s' where
  owns d client₀ hd := by
    intro i subuid
    have hfresh : s.subscriptions.lookup s.counters.subIdx = none := by
      rw [AList.lookup_eq_none]
      exact fun hmem => (h.sub_lt _ hmem).false
    rw [hclients, KeyMap.lookup_insert] at hd
    rw [hsubs, KeyMap.lookup_insert]
    split_ifs at hd with hdc
    · cases hd
      subst hdc
      have hold := h.owns d client hc i subuid
      rw [hrecord, PrimBiMap.getByLeft_insert]
      by_cases hi : i = s.counters.subIdx
      · subst hi
        rw [hfresh] at hold
        constructor
        · intro hrec
          split_ifs at hrec with huid
          · exact ⟨sub, if_pos rfl, huid.symm⟩
          · obtain ⟨sub', hsub', -⟩ := hold.mp hrec
            cases hsub'
        · intro hrec
          obtain ⟨sub', hsub', huid⟩ := hrec
          rw [if_pos rfl] at hsub'
          cases hsub'
          rw [if_pos huid.symm]
      · rw [if_neg hi, ← hold]
        split_ifs with huid
        · rw [huid, hnew]
          constructor
          · intro hrec
            exact (hi (Option.some.inj hrec).symm).elim
          · intro hrec
            cases hrec
        · rfl
    · have hold := h.owns d client₀ hd i subuid
      rw [hold]
      split_ifs with hi
      · subst hi
        rw [hfresh]
        constructor
        · intro hrec
          obtain ⟨sub', hsub', -⟩ := hrec
          cases hsub'
        · intro hrec
          obtain ⟨sub', hsub', -⟩ := hrec
          exact (hdc (congrArg Prod.snd (Option.some.inj hsub')).symm).elim
      · rfl
  sub_lt i hi := by
    rw [hsubs] at hi
    rw [hnext]
    rcases (AList.mem_insert _).mp hi with rfl | hi
    · omega
    · have hold := h.sub_lt i hi
      omega
  owner_lt i sub' d hi := by
    rw [hsubs, KeyMap.lookup_insert] at hi
    rw [hidx]
    split_ifs at hi
    · cases hi
      exact hlt
    · exact h.owner_lt i sub' d hi

/-- The subscription that the record names is taken from both sides. -/
theorem unsubscribed (h : Owned s) {client client' : ConnectedClient} {subuid : SubUID}
    {i : SubIdx} (hc : s.clients.lookup c = some client)
    (hi : client.subuidToSubidx.getByLeft subuid = some i)
    (hclients : s'.clients = s.clients.insert c client')
    (hrecord : client'.subuidToSubidx = client.subuidToSubidx.removeByLeft subuid)
    (hsubs : s'.subscriptions = s.subscriptions.erase i) (hcounters : s'.counters = s.counters) :
    Owned s' where
  owns d client₀ hd := by
    intro j uid
    obtain ⟨sub, hsub, huid⟩ := (h.owns c client hc i subuid).mp hi
    rw [hclients, KeyMap.lookup_insert] at hd
    rw [hsubs, KeyMap.lookup_erase]
    split_ifs at hd with hdc
    · cases hd
      subst hdc
      have hold := h.owns d client hc j uid
      rw [hrecord, PrimBiMap.getByLeft_removeByLeft]
      by_cases hj : j = i
      · subst hj
        rw [if_pos rfl]
        constructor
        · intro hrec
          split_ifs at hrec with hne
          obtain ⟨sub', hsub', huid'⟩ := hold.mp hrec
          rw [hsub] at hsub'
          cases hsub'
          exact (hne (huid'.symm.trans huid)).elim
        · intro hrec
          obtain ⟨sub', hsub', -⟩ := hrec
          cases hsub'
      · rw [if_neg hj, ← hold]
        split_ifs with hu
        · rw [hu, hi]
          constructor
          · intro hrec
            cases hrec
          · intro hrec
            exact (hj (Option.some.inj hrec).symm).elim
        · rfl
    · have hold := h.owns d client₀ hd j uid
      rw [hold]
      split_ifs with hj
      · subst hj
        rw [hsub]
        constructor
        · intro hrec
          obtain ⟨sub', hsub', -⟩ := hrec
          exact (hdc (congrArg Prod.snd (Option.some.inj hsub')).symm).elim
        · intro hrec
          obtain ⟨sub', hsub', -⟩ := hrec
          cases hsub'
      · rfl
  sub_lt j hj := by
    rw [hsubs] at hj
    rw [hcounters]
    exact h.sub_lt j (AList.mem_erase.mp hj).2
  owner_lt j sub d hj := by
    rw [hsubs, KeyMap.lookup_erase] at hj
    rw [hcounters]
    split_ifs at hj
    exact h.owner_lt j sub d hj

theorem step (h : Owned s) (hclients : Identified s) (he : Effect s e s')
    (hroom : Room (· ≠ .topic) s e.toList)
    (hnew : ∀ i sub c client, i ∉ s.subscriptions → s'.subscriptions.lookup i = some (sub, c) →
      s.clients.lookup c = some client →
      client.subuidToSubidx.getByLeft sub.subuid.toUInt32 = none) : Owned s' := by
  have hone : (1 : UInt32).toNat = 1 := rfl
  cases he with
  | clientConnected identity =>
    have hlt : s.counters.clientIdx.toNat + 1 < 2 ^ 32 := hroom .client (by decide)
    refine h.connected identity rfl rfl rfl ?_
    show (s.counters.clientIdx + 1).toNat = s.counters.clientIdx.toNat + 1
    rw [UInt32.toNat_add, hone]
    omega
  | registered _ hc | unregistered _ hc | marked _ hc | told _ hc | flushed hc | closed hc
  | batchesSent _ _ hc => exact h.update hc rfl rfl rfl rfl
  | clientLeft hident hc =>
    refine h.of_same rfl (fun d client' hd => ?_) le_rfl le_rfl
    simp only [InnerServer.withoutClient, KeyMap.lookup_erase] at hd
    split_ifs at hd
    exact ⟨client', hd, rfl⟩
  | @subscribed c client sub now stored interest messages frames hc =>
    have hlt : s.counters.subIdx.toNat + 1 < 2 ^ 32 := hroom .sub (by decide)
    have hmem : c ∈ s.clients := (KeyMap.mem_iff_lookup _ _).mpr ⟨client, hc⟩
    have hfresh : s.counters.subIdx ∉ s.subscriptions := fun hmem => (h.sub_lt _ hmem).false
    have hfree := hnew _ sub c client hfresh (AList.lookup_insert _) hc
    refine h.subscribed (hclients.clients_lt c hmem) hc hfree rfl rfl rfl ?_ rfl
    show (s.counters.subIdx + 1).toNat = s.counters.subIdx.toNat + 1
    rw [UInt32.toNat_add, hone]
    omega
  | subscribeFailed =>
    have hlt : s.counters.subIdx.toNat + 1 < 2 ^ 32 := hroom .sub (by decide)
    refine h.of_same rfl (fun _ client hc => ⟨client, hc, rfl⟩) ?_ le_rfl
    show s.counters.subIdx.toNat ≤ (s.counters.subIdx + 1).toNat
    rw [UInt32.toNat_add, hone]
    omega
  | unsubscribed subuid hc hi => exact h.unsubscribed hc hi rfl rfl rfl rfl
  | _ => exact h.of_same rfl (fun _ client hc => ⟨client, hc, rfl⟩) le_rfl le_rfl

theorem booted : Owned booted := by
  refine ⟨fun c client hc i subuid => ?_, fun i hi => ?_, fun i sub c hi => ?_⟩
  · simp only [Server.booted, KeyMap.lookup_insert] at hc
    split_ifs at hc
    · cases hc
      constructor
      · intro hi
        cases hi
      · intro hi
        obtain ⟨sub, hi, -⟩ := hi
        cases hi
    · cases hc
  · exact (AList.notMem_empty i hi).elim
  · cases hi

end Owned

/-- Only `subscribe` puts a subscription into the table. -/
theorem no_new_subscription (he : Effect s e s') (hsub : e ≠ some .sub) {i : SubIdx}
    (hi : i ∉ s.subscriptions) : i ∉ s'.subscriptions := by
  cases he with
  | subscribed | subscribeFailed => exact (hsub rfl).elim
  | unsubscribed => exact fun hmem => hi (AList.mem_erase.mp hmem).2
  | _ => exact hi

/-- An operation that takes no index for a subscription keeps what is owned. -/
theorem owned_of_effects {P : Event → Prop} {es : List Event} (hes : Effects s es s')
    (hall : ∀ a ∈ es, P a) (hsub : ¬P .sub) (hroom : Room (· ≠ .topic) s es)
    (h : Identified s ∧ Owned s) : Identified s' ∧ Owned s' := by
  apply hes.invariant_of_room (fun s => Identified s ∧ Owned s) P hall hroom _ h
  intro u e u' he hp hroom hu
  have hclient : Room (· = .client) u e.toList := by
    rintro k rfl
    exact hroom .client (by decide)
  have hne : e ≠ some .sub := fun heq => hsub (hp _ heq)
  refine ⟨hu.1.step he hclient, hu.2.step hu.1 he hroom fun i sub c client hi hi' => ?_⟩
  have hmem : i ∈ u'.subscriptions := (KeyMap.mem_iff_lookup _ _).mpr ⟨_, hi'⟩
  exact (no_new_subscription he hne hi hmem).elim

/-- A subscription under a new `subuid`, as one effect of the operation it was asked for with. -/
theorem owned_subscribe {sub : Subscribe} {now : Instant} {es : List Event}
    (hop : Step s (.subscribe sub c now) s') (hg : NewSubuid s (.subscribe sub c now))
    (hes : Effects s es s') (hroom : Room (· ≠ .topic) s es) (h : Identified s ∧ Owned s) :
    Identified s' ∧ Owned s' := by
  obtain ⟨o, r, hx⟩ := hop
  obtain ⟨-, -, hable, hunable⟩ := ends_of_exec ends_subscribe_tables hx
  rcases ends_of_exec effect_subscribe hx with rfl | he
  · exact h
  have hone : Room (· ≠ .topic) s (some Event.sub).toList :=
    hroom.of_effects hes (.one he) fun k => by cases k <;> decide
  have hclient : Room (· = .client) s (some Event.sub).toList := by
    rintro k rfl
    exact hone .client (by decide)
  refine ⟨h.1.step he hclient, h.2.step h.1 he hone fun i sub' d client hi hi' hd => ?_⟩
  by_cases hs : Subscribable s c sub
  · rw [hable hs, KeyMap.lookup_insert] at hi'
    split_ifs at hi' with heq
    · cases hi'
      exact hg hs client hd
    · exact (hi ((KeyMap.mem_iff_lookup _ _).mpr ⟨_, hi'⟩)).elim
  · rw [hunable hs] at hi'
    exact (hi ((KeyMap.mem_iff_lookup _ _).mpr ⟨_, hi'⟩)).elim

theorem RunWhere.owned {u : Kind → Nat} (run : RunWhere NewSubuid u s) (hsub : u .sub < 2 ^ 32)
    (hclient : u .client < 2 ^ 32) : Identified s ∧ Owned s := by
  refine run.induct (· ≠ .topic) (fun s => Identified s ∧ Owned s) ?_ ?_ ?_
  · intro k hk
    cases k with
    | topic => exact (hk rfl).elim
    | sub => exact hsub
    | client => exact hclient
  · intro es s hes hall hroom
    refine owned_of_effects hes hall ?_ hroom ⟨identified_booted, .booted⟩
    intro h
    obtain ⟨name, h⟩ := h
    cases h
  · intro s op es s' hes hall hroom hg hop h
    by_cases hmay : op.MayDo s .sub
    · obtain ⟨sub, c, now, rfl⟩ := hmay
      exact owned_subscribe hop hg hes hroom h
    · exact owned_of_effects hes hall hmay hroom h

/-- Every subscription of client `c` can be ended with an `Unsubscribe` for its `subuid`. -/
def CanEnd (s : InnerServer) (c : ClientIdx) : Prop :=
  ∀ i sub, s.subscriptions.lookup i = some (sub, c) →
    ∃ s', (unsubscribe ⟨sub.subuid⟩ c).exec s = .ok (.ok (), s') ∧ i ∉ s'.subscriptions

theorem canEnd_of_owns {client : ConnectedClient} (hc : s.clients.lookup c = some client)
    (h : client.Owns s c) : CanEnd s c := by
  intro i sub hi
  have hrecord : client.subuidToSubidx.getByLeft sub.subuid.toUInt32 = some i :=
    (h i _).mpr ⟨sub, hi, rfl⟩
  have hends : Ends (unsubscribe ⟨sub.subuid⟩ c) s fun r s' => r = .ok () ∧ i ∉ s'.subscriptions := by
    simp only [unsubscribe, ends_bind, ends_get, thenEnds_ok, thenEnds_error, ends_okOr, ends_modify,
      putClient, hc]
    refine ⟨fun client' hc' => ⟨fun j hj => ?_, fun hnone => ?_⟩, by simp⟩
    · cases hc'
      rw [hrecord] at hj
      cases hj
      exact ⟨trivial, fun hmem => (AList.mem_erase.mp hmem).1 rfl⟩
    · cases hc'
      rw [hrecord] at hnone
      cases hnone
  obtain ⟨r, s', hx, rfl, hgone⟩ := total_unsubscribe.ends hends
  exact ⟨s', hx, hgone⟩

/-- Along every run that creates fewer than 2^32 subscriptions and connections, and in which no
client repeats a `subuid` that it uses, each client owns its subscriptions and can end them. -/
theorem subscriptions_owned {u : Kind → Nat} {client : ConnectedClient}
    (run : RunWhere NewSubuid u s) (hsub : u .sub < 2 ^ 32) (hclient : u .client < 2 ^ 32)
    (hc : s.clients.lookup c = some client) : client.Owns s c ∧ CanEnd s c := by
  have howns := (run.owned hsub hclient).2.owns c client hc
  exact ⟨howns, canEnd_of_owns hc howns⟩

/-- A client subscribes twice, and ends the first subscription. -/
def subscribeTwice : List Op :=
  [.connectClient ⟨.v4 10 0 0 2 5810, "a"⟩, .subscribe ⟨0, {"x"}, none⟩ 1 0,
    .subscribe ⟨1, {"y"}, none⟩ 1 0, .unsubscribe ⟨0⟩ 1]

def usesNewSubuid (s : InnerServer) : Op → Bool
  | .subscribe sub c _ => (s.clients.lookup c).all fun client =>
      (client.subuidToSubidx.getByLeft sub.subuid.toUInt32).isNone
  | _ => true

theorem newSubuid_of_uses (s : InnerServer) (op : Op) (h : usesNewSubuid s op = true) :
    NewSubuid s op := by
  cases op with
  | subscribe sub c now =>
    intro _ client hc
    simpa [usesNewSubuid, hc] using h
  | _ => trivial

theorem subscriptions_owned_subscribeTwice :
    ∃ s client, stateAfter usesNewSubuid .stored subscribeTwice = some s ∧
      s.clients.lookup 1 = some client ∧ s.subscriptions.keys = [1] ∧
      client.Owns s 1 ∧ CanEnd s 1 := by
  have hrun : (stateAfter usesNewSubuid .stored subscribeTwice).bind (fun s =>
      (s.clients.lookup 1).map fun _ => s.subscriptions.keys) = some [1] := by decide +kernel
  obtain ⟨s, hs, hview⟩ := Option.bind_eq_some_iff.mp hrun
  obtain ⟨client, hc, hkeys⟩ := Option.map_eq_some_iff.mp hview
  obtain ⟨u, run, hu⟩ := runWhere_stateAfter newSubuid_of_uses hs
  have hsub : u .sub < 2 ^ 32 := (hu .sub).trans_lt (by decide)
  have hclient : u .client < 2 ^ 32 := (hu .client).trans_lt (by decide)
  exact ⟨s, client, hs, hc, hkeys, subscriptions_owned run hsub hclient hc⟩

/-- A client subscribes twice under one `subuid`. -/
def repeatSubuid : List Op :=
  [.connectClient ⟨.v4 10 0 0 2 5810, "a"⟩, .subscribe ⟨0, {"x"}, none⟩ 1 0,
    .subscribe ⟨0, {"y"}, none⟩ 1 0]

/-- The first subscription stays in the table, and no message of the client leads to it. -/
theorem repeated_subuid_stays :
    ¬∀ s, Reachable s → ∀ c client, s.clients.lookup c = some client →
      client.Owns s c ∧ CanEnd s c := by
  intro h
  have hrun : (stateAfter anyOp .stored repeatSubuid).bind (fun s =>
      (s.clients.lookup 1).map fun client =>
        (client.subuidToSubidx.getByLeft 0, (s.subscriptions.lookup 0).map fun entry =>
          (entry.1.subuid.toUInt32, entry.2))) = some (some 1, some (0, 1)) := by decide +kernel
  obtain ⟨s, hs, hview⟩ := Option.bind_eq_some_iff.mp hrun
  obtain ⟨client, hc, hview⟩ := Option.map_eq_some_iff.mp hview
  simp only [Prod.mk.injEq] at hview
  obtain ⟨hrecord, htable⟩ := hview
  obtain ⟨⟨sub, owner⟩, hi, hentry⟩ := Option.map_eq_some_iff.mp htable
  simp only [Prod.mk.injEq] at hentry
  obtain ⟨huid, rfl⟩ := hentry
  have howns := (h s (reachable_stateAfter hs) 1 client hc).1 0 0
  rw [howns.mpr ⟨sub, hi, huid⟩] at hrecord
  cases hrecord

end NetTables.Server
