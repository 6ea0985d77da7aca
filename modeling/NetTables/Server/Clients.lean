import NetTables.Server.History

namespace NetTables.Server

open Lib Lib.Fallible Spec

variable {s s' : InnerServer} {e : Option Event} {c : ClientIdx} {ident : ClientIdentity}

/-- What the maps of clients keep while the counter of their indices does not wrap: an identity
leads to a client of that identity, which has its two metatopics on record. -/
structure Identified (s : InnerServer) : Prop where
  clients_lt : ∀ c, c ∈ s.clients → c.toNat < s.counters.clientIdx.toNat
  identity : ∀ ident c, s.clientMap.lookup ident = some c →
    ∃ client, s.clients.lookup c = some client ∧ client.identity = ident
  metatopics : ∀ ident c, s.clientMap.lookup ident = some c → c ∈ s.clientMetatopicMap

namespace Identified

theorem mem_clients (h : Identified s) (hident : s.clientMap.lookup ident = some c) :
    c ∈ s.clients := by
  obtain ⟨client, hc, -⟩ := h.identity ident c hident
  exact (KeyMap.mem_iff_lookup _ _).mpr ⟨client, hc⟩

/-- No two identities lead to one client. -/
theorem injective (h : Identified s) {ident' : ClientIdentity}
    (hident : s.clientMap.lookup ident = some c) (hident' : s.clientMap.lookup ident' = some c) :
    ident = ident' := by
  obtain ⟨client, hc, hi⟩ := h.identity ident c hident
  obtain ⟨client', hc', hi'⟩ := h.identity ident' c hident'
  rw [hc] at hc'
  cases hc'
  exact hi.symm.trans hi'

/-- A change of one client that keeps its identity. -/
theorem update (h : Identified s) {client client' : ConnectedClient}
    (hc : s.clients.lookup c = some client) (hclients : s'.clients = s.clients.insert c client')
    (hi : client'.identity = client.identity) (hmap : s'.clientMap = s.clientMap)
    (hown : s'.clientMetatopicMap = s.clientMetatopicMap)
    (hidx : s'.counters.clientIdx = s.counters.clientIdx) : Identified s' := by
  have hmem : c ∈ s.clients := (KeyMap.mem_iff_lookup _ _).mpr ⟨client, hc⟩
  refine ⟨fun c' hc' => ?_, fun ident c' hident => ?_, fun ident c' hident => ?_⟩
  · rw [hclients] at hc'
    rw [hidx]
    rcases (AList.mem_insert _).mp hc' with heq | hc'
    · exact h.clients_lt c' (heq ▸ hmem)
    · exact h.clients_lt c' hc'
  · rw [hmap] at hident
    obtain ⟨client₀, hc₀, hi₀⟩ := h.identity ident c' hident
    rw [hclients, KeyMap.lookup_insert]
    split_ifs with heq
    · subst heq
      rw [hc] at hc₀
      cases hc₀
      exact ⟨client', rfl, hi.trans hi₀⟩
    · exact ⟨client₀, hc₀, hi₀⟩
  · rw [hmap] at hident
    rw [hown]
    exact h.metatopics ident c' hident

theorem step (h : Identified s) (he : Effect s e s') (hroom : Room (· = .client) s e.toList) :
    Identified s' := by
  cases he with
  | clientConnected identity hp hq =>
    have hlt : s.counters.clientIdx.toNat + 1 < 2 ^ 32 := hroom .client rfl
    have hidx : (s.counters.clientIdx + 1).toNat = s.counters.clientIdx.toNat + 1 := by
      have hone : (1 : UInt32).toNat = 1 := rfl
      rw [UInt32.toNat_add, hone]
      omega
    have hne : ∀ ident c, s.clientMap.lookup ident = some c → c ≠ s.counters.clientIdx := by
      intro ident c hident heq
      have hlt := h.clients_lt c (h.mem_clients hident)
      rw [heq] at hlt
      omega
    refine ⟨fun c hc => ?_, fun ident c hident => ?_, fun ident c hident => ?_⟩
    · show c.toNat < (s.counters.clientIdx + 1).toNat
      rw [hidx]
      rcases (AList.mem_insert _).mp hc with heq | hc
      · rw [heq]
        omega
      · have hlt := h.clients_lt c hc
        omega
    · simp only [KeyMap.lookup_insert] at hident ⊢
      split_ifs at hident with heq
      · cases hident
        exact ⟨.new identity, by simp, heq.symm⟩
      · rw [if_neg (hne ident c hident)]
        exact h.identity ident c hident
    · simp only [KeyMap.lookup_insert] at hident
      split_ifs at hident with heq
      · cases hident
        exact (AList.mem_insert _).mpr (.inl rfl)
      · exact (AList.mem_insert _).mpr (.inr (h.metatopics ident c hident))
  | @clientLeft ident c client hident hc =>
    refine ⟨fun c' hc' => h.clients_lt c' (AList.mem_erase.mp hc').2, fun ident' c' hident' => ?_,
      fun ident' c' hident' => ?_⟩
    · simp only [InnerServer.withoutClient, KeyMap.lookup_erase] at hident' ⊢
      split_ifs at hident' with heq
      have hne : c' ≠ c := by
        intro hcc
        subst hcc
        exact heq (h.injective hident' hident)
      rw [if_neg hne]
      exact h.identity ident' c' hident'
    · simp only [InnerServer.withoutClient, KeyMap.lookup_erase] at hident' ⊢
      split_ifs at hident'
      exact h.metatopics ident' c' hident'
  | identityErased =>
    refine ⟨h.clients_lt, fun ident' c' hident' => ?_, fun ident' c' hident' => ?_⟩
    · rw [KeyMap.lookup_erase] at hident'
      split_ifs at hident'
      exact h.identity ident' c' hident'
    · rw [KeyMap.lookup_erase] at hident'
      split_ifs at hident'
      exact h.metatopics ident' c' hident'
  | @ownMetatopicsErased c hc =>
    refine ⟨h.clients_lt, h.identity, fun ident' c' hident' => ?_⟩
    have hne : c' ≠ c := by
      intro hcc
      subst hcc
      obtain ⟨client, hc', -⟩ := h.identity ident' c' hident'
      rw [hc] at hc'
      cases hc'
    exact AList.mem_erase.mpr ⟨hne, h.metatopics ident' c' hident'⟩
  | registered _ hc | unregistered _ hc | marked _ hc | told _ hc | flushed hc | closed hc
  | subscribed _ _ _ _ _ _ hc | unsubscribed _ hc | batchesSent _ _ hc =>
    exact h.update hc rfl rfl rfl rfl rfl
  | _ => exact ⟨h.clients_lt, h.identity, h.metatopics⟩

end Identified

theorem identified_booted : Identified booted := by
  refine ⟨fun c hc => ?_, fun ident c hident => ?_, fun ident c hident => ?_⟩
  · have heq := ((AList.mem_insert _).mp hc).resolve_right (AList.notMem_empty c)
    rw [heq]
    decide
  · cases hident
  · cases hident

/-- The clients of a run that makes fewer than 2^32 connections. -/
theorem RunWhere.identified {guard : InnerServer → Op → Prop} {u : Kind → Nat}
    (run : RunWhere guard u s) (hu : u .client < 2 ^ 32) : Identified s := by
  refine run.induct (· = .client) Identified (fun k hk => hk ▸ hu) ?_ ?_
  · intro es s hes _ hroom
    exact hes.invariant_of_room Identified (fun _ => True) (fun _ _ => trivial) hroom
      (fun _ _ _ he _ hr h => h.step he hr) identified_booted
  · intro s op es s' hes _ hroom _ _ h
    exact hes.invariant_of_room Identified (fun _ => True) (fun _ _ => trivial) hroom
      (fun _ _ _ he _ hr h => h.step he hr) h

end NetTables.Server
