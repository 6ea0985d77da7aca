import NetTables.System.World

namespace NetTables.System

open Lib Lib.Fallible Spec Server

/-- The server has made this client of the connection. -/
def World.Admits (W : World) (k : Nat) (c : ClientIdx) : Prop :=
  ∃ conn, W.connections.lookup k = some conn ∧ conn.admission = .admitted c

/-- The client is at this connection. -/
def World.Holds (W : World) (i k : Nat) : Prop :=
  ∃ p, W.peers.lookup i = some p ∧ p.connection = k

/-- Each client of the server has one connection and each connection one client, in all that has
passed. -/
structure Attributed (past : List World) (W : World) : Prop where
  below : ∀ V ∈ past, ∀ k c, V.Admits k c →
    c ≠ serverClientIdx ∧ c.toNat < W.server.counters.clientIdx.toNat
  one : ∀ V ∈ past, ∀ V' ∈ past, ∀ k k' c, V.Admits k c → V'.Admits k' c → k = k'
  same : ∀ V ∈ past, ∀ V' ∈ past, ∀ k c c', V.Admits k c → V'.Admits k c' → c = c'
  kept : ∀ V ∈ past, ∀ k c, V.Admits k c → ∃ conn, W.connections.lookup k = some conn ∧
    (conn.admission = .admitted c ∨ conn.admission.isOver = true)

/-- Each connection has one client that is at it, in all that has passed. -/
structure Held (past : List World) (W : World) : Prop where
  known : ∀ V ∈ past, ∀ i k, V.Holds i k → k ∈ W.connections
  one : ∀ V ∈ past, ∀ V' ∈ past, ∀ i j k, V.Holds i k → V'.Holds j k → i = j

variable {codec : Codec} {W W' : World} {happening : Happening} {i k : Nat} {c : ClientIdx}
  {guard : World → Happening → Prop} {u : Kind → Nat} {log : List (World × Happening)}

section Steps

/-- A client that `connect_client` makes has the next index. -/
theorem created_of_connectClient {o : IterOrder} {s s' : InnerServer}
    {identity unique : ClientIdentity}
    (h : (connectClient o identity).exec s = .ok (.ok (unique, c), s')) :
    c = s.counters.clientIdx ∧ created s s' .client = 1 := by
  have hends : Ends (connectClient o identity) s fun r s' => ∀ unique c, r = .ok (unique, c) →
      c = s.counters.clientIdx ∧ s'.counters.clientIdx = s.counters.clientIdx + 1 := by
    rw [ends_connectClient]
    split_ifs
    · intro unique c hr
      cases hr
    · intro unique c hr
      cases hr
      refine ⟨rfl, ?_⟩
      rw [connected_eq]
      simp only [InnerServer.withClient, ensureOwnMetatopics, clientIdx_ensureTopic]
      rfl
  obtain ⟨hc, hcounter⟩ := ends_of_exec hends h unique c rfl
  refine ⟨hc, ?_⟩
  have hone : s'.counters.clientIdx - s.counters.clientIdx = 1 := by
    rw [hcounter, UInt32.add_comm, UInt32.add_sub_cancel]
  rw [created]
  exact congrArg UInt32.toNat hone

/-- A connection's client was its client before, or it has just been made. -/
theorem Happens.admits (h : Happens codec W happening W') (hk : W'.Admits k c) :
    W.Admits k c ∨ (∃ identity, happening = .accepts k identity) ∧
      c = W.server.counters.clientIdx ∧ created W.server W'.server .client = 1 := by
  obtain ⟨conn, hconn, hc⟩ := hk
  have hput : ∀ {k₀ conn₀ conn₁}, W'.connections = W.connections.insert k₀ conn₁ →
      W.connections.lookup k₀ = some conn₀ →
      (conn₁.admission = .admitted c → conn₀.admission = .admitted c) → W.Admits k c := by
    intro k₀ conn₀ conn₁ heq hconn₀ hkept
    rw [heq, KeyMap.lookup_insert] at hconn
    split_ifs at hconn with hk
    · cases hconn
      exact ⟨conn₀, hk ▸ hconn₀, hkept hc⟩
    · exact ⟨conn, hconn, hc⟩
  have hnew : ∀ {k₀}, W'.connections = W.connections.insert k₀ {} → W.Admits k c := by
    intro k₀ heq
    rw [heq, KeyMap.lookup_insert] at hconn
    split_ifs at hconn
    · cases hconn
      cases hc
    · exact ⟨conn, hconn, hc⟩
  cases h with
  | joins | reconnects => exact .inl (hnew rfl)
  | writes _ hconn₀ | reads _ hconn₀ | filters _ hconn₀ | passes hconn₀ | answers hconn₀
  | forwards hconn₀ | replies hconn₀ => exact .inl (hput rfl hconn₀ id)
  | ends hconn₀ | closes hconn₀ =>
    refine .inl (hput rfl hconn₀ fun h => ?_)
    cases h
  | @accepts k₀ conn₀ o identity r s hconn₀ hwaiting hexec =>
    simp only [World.withConnection, KeyMap.lookup_insert] at hconn
    split_ifs at hconn with hk
    · cases hconn
      cases r with
      | error e => cases hc
      | ok accepted =>
        obtain ⟨unique, c'⟩ := accepted
        cases hc
        exact .inr ⟨⟨identity, hk ▸ rfl⟩, created_of_connectClient hexec⟩
    · exact .inl ⟨conn, hconn, hc⟩
  | _ => exact .inl ⟨conn, hconn, hc⟩

/-- A client is where it was, or it has just got a new connection. -/
theorem Happens.holds (h : Happens codec W happening W') (hi : W'.Holds i k) :
    W.Holds i k ∨ k ∉ W.connections ∧ k ∈ W'.connections ∧
      ((∃ now, happening = .joins i k now) ∨ happening = .reconnects i k) := by
  obtain ⟨p, hp, hk⟩ := hi
  have hput : ∀ {i₀ p₀ p₁}, W'.peers = W.peers.insert i₀ p₁ → W.peers.lookup i₀ = some p₀ →
      p₁.connection = p₀.connection → W.Holds i k := by
    intro i₀ p₀ p₁ heq hp₀ hsame
    rw [heq, KeyMap.lookup_insert] at hp
    split_ifs at hp with hi
    · cases hp
      exact ⟨p₀, hi ▸ hp₀, hsame ▸ hk⟩
    · exact ⟨p, hp, hk⟩
  cases h with
  | joins o now hi hk₀ =>
    simp only [World.withConnection, World.withPeer, KeyMap.lookup_insert] at hp
    split_ifs at hp with heq
    · cases hp
      subst heq hk
      exact .inr ⟨hk₀, AList.mem_insert _ |>.mpr (.inl rfl), .inl ⟨now, rfl⟩⟩
    · exact .inl ⟨p, hp, hk⟩
  | reconnects hp₀ hk₀ =>
    simp only [World.withConnection, World.withPeer, KeyMap.lookup_insert] at hp
    split_ifs at hp with heq
    · cases hp
      subst heq hk
      exact .inr ⟨hk₀, AList.mem_insert _ |>.mpr (.inl rfl), .inr rfl⟩
    · exact .inl ⟨p, hp, hk⟩
  | acts hp₀ | writes hp₀ | reads hp₀ => exact .inl (hput rfl hp₀ rfl)
  | _ => exact .inl ⟨p, hp, hk⟩

/-- Connections are not forgotten. -/
theorem Happens.connections (h : Happens codec W happening W') (hk : k ∈ W.connections) :
    k ∈ W'.connections := by
  have hput : ∀ k₀ conn, k ∈ W.connections.insert k₀ conn :=
    fun k₀ conn => (AList.mem_insert _).mpr (.inr hk)
  cases h with
  | acts | parses | handles | panics | operates | publishes | sets => exact hk
  | _ => exact hput _ _

/-- A connection that is not waiting keeps its client until it ends. -/
theorem Happens.settled (h : Happens codec W happening W') {conn : Connection}
    (hconn : W.connections.lookup k = some conn) (hsettled : conn.admission ≠ .waiting) :
    ∃ conn', W'.connections.lookup k = some conn' ∧
      (conn'.admission = conn.admission ∨ conn'.admission.isOver = true) := by
  have hput : ∀ {k₀ conn₀ conn₁}, W'.connections = W.connections.insert k₀ conn₁ →
      W.connections.lookup k₀ = some conn₀ →
      conn₁.admission = conn₀.admission ∨ conn₁.admission.isOver = true →
      ∃ conn', W'.connections.lookup k = some conn' ∧
        (conn'.admission = conn.admission ∨ conn'.admission.isOver = true) := by
    intro k₀ conn₀ conn₁ heq hconn₀ hkept
    rw [heq]
    rcases KeyMap.lookup_insert_cases hconn hconn₀ with ⟨rfl, rfl, hlookup⟩ | ⟨-, hlookup⟩
    · exact ⟨conn₁, hlookup _, hkept⟩
    · exact ⟨conn, hlookup _, .inl rfl⟩
  cases h with
  | joins _ _ _ hk | reconnects _ hk =>
    exact ⟨conn, KeyMap.lookup_insert_of_notMem hconn hk {}, .inl rfl⟩
  | writes _ hconn₀ | reads _ hconn₀ | filters _ hconn₀ | passes hconn₀ | answers hconn₀
  | forwards hconn₀ | replies hconn₀ => exact hput rfl hconn₀ (.inl rfl)
  | ends hconn₀ | closes hconn₀ => exact hput rfl hconn₀ (.inr rfl)
  | accepts hconn₀ hwaiting =>
    rcases KeyMap.lookup_insert_cases hconn hconn₀ with ⟨rfl, rfl, -⟩ | ⟨-, hlookup⟩
    · exact (hsettled hwaiting).elim
    · exact ⟨conn, hlookup _, .inl rfl⟩
  | _ => exact ⟨conn, hconn, .inl rfl⟩

end Steps

section Run

theorem counter_pos {s : InnerServer} (run : Runs u s) (hu : u .client < 2 ^ 32) :
    0 < s.counters.clientIdx.toNat := by
  obtain ⟨es, hes, hcount⟩ := run.history
  have htaken := hcount .client
  have hone : (booted.counters.get .client).toNat = 1 := rfl
  have hroom : Room (· = .client) booted es := by
    rintro k rfl
    rw [hone]
    simp only [if_true] at htaken
    omega
  have hcounter : (s.counters.get .client).toNat = _ := hes.counters_of_room hroom rfl
  have hsame : (s.counters.get .client).toNat = s.counters.clientIdx.toNat := rfl
  omega

theorem Attributed.step {past : List World} (h : Attributed past W) (hW : W ∈ past)
    (run : WorldsWhere codec guard u W) (hstep : Happens codec W happening W')
    (hu : u .client + created W.server W'.server .client < 2 ^ 32) :
    Attributed (past ++ [W']) W' := by
  have hcounter : W'.server.counters.clientIdx.toNat =
      W.server.counters.clientIdx.toNat + created W.server W'.server .client := by
    rcases hstep.server with heq | ⟨op, hop⟩
    · rw [heq, created_self]
      rfl
    · exact hop.counters run.runs hu
  have hpos : 0 < W.server.counters.clientIdx.toNat := counter_pos run.runs (by omega)
  have hzero : serverClientIdx.toNat = 0 := rfl
  -- a connection that has had its client is not accepted again
  have hnow : ∀ V ∈ past, ∀ k c c', V.Admits k c → W'.Admits k c' → c = c' := by
    intro V hV k c c' hk hk'
    obtain ⟨conn, hconn, hadmission⟩ := h.kept V hV k c hk
    obtain ⟨conn', hconn', hc'⟩ := hk'
    have hsettled : conn.admission ≠ .waiting := by
      intro heq
      rw [heq] at hadmission
      rcases hadmission with heq | heq <;> cases heq
    obtain ⟨conn₁, hconn₁, hsame | hover⟩ := hstep.settled hconn hsettled
    · cases hconn'.symm.trans hconn₁
      rw [← hsame, hc'] at hadmission
      rcases hadmission with heq | heq <;> cases heq
      rfl
    · cases hconn'.symm.trans hconn₁
      rw [hc'] at hover
      cases hover
  refine ⟨fun V hV k c hk => ?_, fun V hV V' hV' k k' c hk hk' => ?_,
    fun V hV V' hV' k c c' hk hk' => ?_, fun V hV k c hk => ?_⟩
  · have hold : ∀ V ∈ past, V.Admits k c →
        c ≠ serverClientIdx ∧ c.toNat < W'.server.counters.clientIdx.toNat := by
      intro V hV hk
      obtain ⟨hne, hlt⟩ := h.below V hV k c hk
      exact ⟨hne, by omega⟩
    rcases List.mem_append.mp hV with hV | hV
    · exact hold V hV hk
    · rw [List.mem_singleton.mp hV] at hk
      rcases hstep.admits hk with hk | ⟨-, rfl, hone⟩
      · exact hold W hW hk
      · refine ⟨fun heq => ?_, by omega⟩
        rw [heq, hzero] at hpos
        exact hpos.false
  · -- a new client is told from the old ones by its index
    have hcases : ∀ V ∈ past ++ [W'], ∀ k, V.Admits k c → (∃ V ∈ past, V.Admits k c) ∨
        (∃ identity, happening = .accepts k identity) ∧ c = W.server.counters.clientIdx := by
      intro V hV k hk
      rcases List.mem_append.mp hV with hV | hV
      · exact .inl ⟨V, hV, hk⟩
      · rw [List.mem_singleton.mp hV] at hk
        rcases hstep.admits hk with hk | ⟨hhappening, hc, -⟩
        · exact .inl ⟨W, hW, hk⟩
        · exact .inr ⟨hhappening, hc⟩
    have hapart : ∀ V ∈ past, ∀ k, V.Admits k c → c ≠ W.server.counters.clientIdx := by
      intro V hV k hk heq
      have hlt := (h.below V hV k c hk).2
      rw [heq] at hlt
      exact hlt.false
    rcases hcases V hV k hk with ⟨V₁, hV₁, hk₁⟩ | ⟨⟨_, hfirst⟩, hc⟩ <;>
      rcases hcases V' hV' k' hk' with ⟨V₂, hV₂, hk₂⟩ | ⟨⟨_, hsecond⟩, hc'⟩
    · exact h.one V₁ hV₁ V₂ hV₂ k k' c hk₁ hk₂
    · exact (hapart V₁ hV₁ k hk₁ hc').elim
    · exact (hapart V₂ hV₂ k' hk₂ hc).elim
    · rw [hfirst] at hsecond
      cases hsecond
      rfl
  · rcases List.mem_append.mp hV with hV | hV <;> rcases List.mem_append.mp hV' with hV' | hV'
    · exact h.same V hV V' hV' k c c' hk hk'
    · exact hnow V hV k c c' hk (List.mem_singleton.mp hV' ▸ hk')
    · exact (hnow V' hV' k c' c hk' (List.mem_singleton.mp hV ▸ hk)).symm
    · obtain ⟨conn, hconn, hc⟩ := List.mem_singleton.mp hV ▸ hk
      obtain ⟨conn', hconn', hc'⟩ := List.mem_singleton.mp hV' ▸ hk'
      cases hconn.symm.trans hconn'
      exact Admission.admitted.inj (hc.symm.trans hc')
  · rcases List.mem_append.mp hV with hV | hV
    · obtain ⟨conn, hconn, hadmission⟩ := h.kept V hV k c hk
      have hsettled : conn.admission ≠ .waiting := by
        rintro heq
        rw [heq] at hadmission
        rcases hadmission with h | h <;> cases h
      obtain ⟨conn', hconn', hsame | hover⟩ := hstep.settled hconn hsettled
      · exact ⟨conn', hconn', hsame ▸ hadmission⟩
      · exact ⟨conn', hconn', .inr hover⟩
    · obtain ⟨conn, hconn, hc⟩ := List.mem_singleton.mp hV ▸ hk
      exact ⟨conn, hconn, .inl hc⟩

theorem Held.step {past : List World} (h : Held past W) (hW : W ∈ past)
    (hstep : Happens codec W happening W') : Held (past ++ [W']) W' := by
  refine ⟨fun V hV i k hi => ?_, fun V hV V' hV' i j k hi hj => ?_⟩
  · rcases List.mem_append.mp hV with hV | hV
    · exact hstep.connections (h.known V hV i k hi)
    · rw [List.mem_singleton.mp hV] at hi
      rcases hstep.holds hi with hi | ⟨-, hk, -⟩
      · exact hstep.connections (h.known W hW i k hi)
      · exact hk
  · have hcases : ∀ V ∈ past ++ [W'], ∀ i, V.Holds i k → (∃ V ∈ past, V.Holds i k) ∨
        k ∉ W.connections ∧
          ((∃ now, happening = .joins i k now) ∨ happening = .reconnects i k) := by
      intro V hV i hi
      rcases List.mem_append.mp hV with hV | hV
      · exact .inl ⟨V, hV, hi⟩
      · rw [List.mem_singleton.mp hV] at hi
        rcases hstep.holds hi with hi | ⟨hk, -, hhappening⟩
        · exact .inl ⟨W, hW, hi⟩
        · exact .inr ⟨hk, hhappening⟩
    rcases hcases V hV i hi with ⟨V₁, hV₁, hi₁⟩ | ⟨hk, hfirst⟩ <;>
      rcases hcases V' hV' j hj with ⟨V₂, hV₂, hj₂⟩ | ⟨hk', hsecond⟩
    · exact h.one V₁ hV₁ V₂ hV₂ i j k hi₁ hj₂
    · exact (hk' (h.known V₁ hV₁ i k hi₁)).elim
    · exact (hk (h.known V₂ hV₂ j k hj₂)).elim
    · rcases hfirst with ⟨now, rfl⟩ | rfl
      · rcases hsecond with ⟨now', heq⟩ | heq
        · cases heq
          rfl
        · cases heq
      · rcases hsecond with ⟨now', heq⟩ | heq
        · cases heq
        · cases heq
          rfl

theorem attributed_of_logged (run : LoggedWorlds codec guard u (log, W))
    (hu : u .client < 2 ^ 32) : Attributed (passed log W) W := by
  refine run.invariant (fun u p => u .client < 2 ^ 32 → Attributed (passed p.1 p.2) p.2) ?_ ?_ hu
  · rintro ⟨log, W⟩ ⟨rfl, s, -, rfl⟩ -
    have hnone : ∀ V ∈ passed [] { server := s }, ∀ k c, ¬V.Admits k c := by
      rintro V hV k c ⟨conn, hconn, -⟩
      rw [List.mem_singleton.mp hV] at hconn
      cases hconn
    exact ⟨fun V hV k c hk => (hnone V hV k c hk).elim,
      fun V hV V' hV' k k' c hk => (hnone V hV k c hk).elim,
      fun V hV V' hV' k c c' hk => (hnone V hV k c hk).elim,
      fun V hV k c hk => (hnone V hV k c hk).elim⟩
  · rintro u ⟨log, W⟩ happening ⟨log', W'⟩ run ih - ⟨hstep, rfl⟩ hu
    rw [Pi.add_apply] at hu
    have worlds : WorldsWhere codec guard u W := Lib.Run.Logged.run (p := (log, W)) run
    rw [passed_snoc]
    exact (ih (by omega)).step (List.mem_append_right _ (List.mem_singleton_self W)) worlds hstep hu

theorem held_of_logged (run : LoggedWorlds codec guard u (log, W)) : Held (passed log W) W := by
  refine run.invariant (fun _ p => Held (passed p.1 p.2) p.2) ?_ ?_
  · rintro ⟨log, W⟩ ⟨rfl, s, -, rfl⟩
    have hnone : ∀ V ∈ passed [] { server := s }, ∀ i k, ¬V.Holds i k := by
      rintro V hV i k ⟨p, hp, -⟩
      rw [List.mem_singleton.mp hV] at hp
      cases hp
    exact ⟨fun V hV i k hi => (hnone V hV i k hi).elim,
      fun V hV V' hV' i j k hi => (hnone V hV i k hi).elim⟩
  · rintro u ⟨log, W⟩ happening ⟨log', W'⟩ run ih - ⟨hstep, rfl⟩
    rw [passed_snoc]
    exact ih.step (List.mem_append_right _ (List.mem_singleton_self W)) hstep

end Run

end NetTables.System
