import NetTables.Server.TopicIds

namespace NetTables.Server

open Lib Lib.Fallible Spec

/-- More was put on the channel, and its texts announce or withdraw topics. -/
def Outgoing.Continues (ch ch' : Outgoing) : Prop :=
  ∃ more, ch'.sent = ch.sent ++ more ∧
    ∀ m ∈ more.flatMap OutMessage.texts, (∃ a, m = .announce a) ∨ ∃ u, m = .unAnnounce u

namespace Outgoing

variable {ch ch' ch'' : Outgoing}

theorem Continues.of_sent (h : ch'.sent = ch.sent) : Continues ch ch' :=
  ⟨[], by rw [h, List.append_nil], nofun⟩

theorem Continues.trans (h : Continues ch ch') (h' : Continues ch' ch'') : Continues ch ch'' := by
  obtain ⟨more, hsent, htexts⟩ := h
  obtain ⟨more', hsent', htexts'⟩ := h'
  refine ⟨more ++ more', by rw [hsent', hsent, List.append_assoc], fun m hm => ?_⟩
  rw [List.flatMap_append, List.mem_append] at hm
  rcases hm with hm | hm
  · exact htexts m hm
  · exact htexts' m hm

/-- Messages without a text, after a text of this kind or none. -/
theorem continues_append {s : InnerServer} {messages : List NTMessage} {more : List OutMessage}
    (htells : s.Tells messages) (htexts : more.flatMap OutMessage.texts = messages) :
    Continues ch { ch with sent := ch.sent ++ more } := by
  refine ⟨more, rfl, fun m hm => ?_⟩
  rw [htexts] at hm
  exact htells.2 m hm

end Outgoing

section Channel

variable {s s' : InnerServer} {e : Option Event} {c d : ClientIdx}
  {client client' : ConnectedClient} {a : Announce}

/-- The record of a client goes on: what was put on its channel stays there. -/
abbrev Continued (client client' : ConnectedClient) : Prop :=
  Option.Rel Outgoing.Continues client.subOuput client'.subOuput

theorem continued_of_eq (h : client'.subOuput = client.subOuput) : Continued client client' := by
  unfold Continued
  rw [h]
  cases client.subOuput with
  | none => exact .none
  | some ch => exact .some (.of_sent rfl)

theorem Continued.trans {client'' : ConnectedClient} (h : Continued client client')
    (h' : Continued client' client'') : Continued client client'' := by
  unfold Continued at h h' ⊢
  revert h h'
  generalize client.subOuput = x, client'.subOuput = y, client''.subOuput = z
  intro h h'
  cases h with
  | none =>
    cases h'
    exact .none
  | some h =>
    cases h' with
    | some h' => exact .some (h.trans h')

theorem continued_map {f : Outgoing → Outgoing} (hf : ∀ ch, Outgoing.Continues ch (f ch))
    (h : client'.subOuput = client.subOuput.map f) : Continued client client' := by
  unfold Continued
  rw [h]
  cases client.subOuput with
  | none => exact .none
  | some ch => exact .some (hf ch)

/-- Where one client is written, it or another one is looked up. -/
theorem continued_insert (hclients : s'.clients = s.clients.insert c client')
    (hc : s.clients.lookup c = some client) (hclient : Continued client client')
    {after : ConnectedClient} (hd : s'.clients.lookup d = some after) :
    ∃ before, s.clients.lookup d = some before ∧ Continued before after := by
  rw [hclients, KeyMap.lookup_insert] at hd
  split_ifs at hd with hdc
  · cases hd
    exact ⟨client, hdc ▸ hc, hclient⟩
  · exact ⟨after, hd, continued_of_eq rfl⟩

/-- After an effect a client is one that goes on, or the one that has just connected. -/
theorem Effect.continued (he : Effect s e s') (hd : s'.clients.lookup d = some client') :
    (∃ client, s.clients.lookup d = some client ∧ Continued client client') ∨
      d = s.counters.clientIdx ∧ client'.subOuput = some {} := by
  have hsame : s'.clients = s.clients →
      (∃ client, s.clients.lookup d = some client ∧ Continued client client') ∨
        d = s.counters.clientIdx ∧ client'.subOuput = some {} := by
    intro hclients
    rw [hclients] at hd
    exact .inl ⟨client', hd, continued_of_eq rfl⟩
  cases he with
  | clientConnected identity =>
    simp only [KeyMap.lookup_insert] at hd
    split_ifs at hd with hdc
    · cases hd
      exact .inr ⟨hdc, rfl⟩
    · exact .inl ⟨client', hd, continued_of_eq rfl⟩
  | registered _ hc | unregistered _ hc | marked _ hc | unsubscribed _ hc =>
    exact .inl (continued_insert rfl hc (continued_of_eq (by rfl)) hd)
  | clientLeft hident hc =>
    simp only [InnerServer.withoutClient, KeyMap.lookup_erase] at hd
    split_ifs at hd
    exact .inl ⟨client', hd, continued_of_eq rfl⟩
  | told messages hc hch hopen htells =>
    refine .inl (continued_insert rfl hc ?_ hd)
    unfold Continued
    rw [hch]
    exact .some (Outgoing.continues_append htells (by simp [OutMessage.texts]))
  | flushed hc hch =>
    refine .inl (continued_insert rfl hc ?_ hd)
    unfold Continued
    rw [hch]
    exact .some ⟨[.flush], rfl, by simp [OutMessage.texts]⟩
  | closed hc =>
    refine .inl (continued_insert rfl hc ?_ hd)
    exact continued_map (f := fun ch => { ch with isOpen := false }) (fun ch => .of_sent rfl) rfl
  | subscribed sub now stored interest messages frames hc _ _ _ htells =>
    refine .inl (continued_insert rfl hc (continued_map (fun ch => ?_) rfl) hd)
    unfold Outgoing.append
    split_ifs
    · exact Outgoing.continues_append htells (by simp [OutMessage.texts])
    · exact .of_sent rfl
  | batchesSent batches hi hc hch =>
    refine .inl (continued_insert rfl hc ?_ hd)
    unfold Continued
    rw [hch]
    refine .some ⟨batches.map fun b => .binary (batchFrames b), rfl, ?_⟩
    simp [OutMessage.texts, List.flatMap_map]
  | _ => exact hsame rfl

/-- The client of an index that was given out before goes on. -/
theorem Effects.continued {es : List Event} (h : Effects s es s') (hroom : Room (· = .client) s es)
    (hlt : d.toNat < s.counters.clientIdx.toNat) (hd : s'.clients.lookup d = some client') :
    ∃ client, s.clients.lookup d = some client ∧ Continued client client' := by
  induction h generalizing client' with
  | refl => exact ⟨client', hd, continued_of_eq rfl⟩
  | tail h he ih =>
    rename_i es u e s''
    have hroom' : Room (· = .client) s es := by
      intro k hk
      have hlt := hroom k hk
      rw [taken_append] at hlt
      omega
    rcases he.continued hd with ⟨middle, hmiddle, hlast⟩ | ⟨heq, -⟩
    · obtain ⟨client, hclient, hfirst⟩ := ih hroom' hmiddle
      exact ⟨client, hclient, hfirst.trans hlast⟩
    · -- the index would be a new one
      have hcount := h.counters_of_room hroom' rfl
      have hcounter : d = u.counters.get .client := heq
      rw [hcounter, hcount] at hlt
      have hle : (s.counters.get .client).toNat = s.counters.clientIdx.toNat := rfl
      omega

theorem Step.continued {u : Kind → Nat} {op : Op} (run : Runs u s) (h : Step s op s')
    (hu : u .client + created s s' .client < 2 ^ 32)
    (hlt : d.toNat < s.counters.clientIdx.toNat) (hd : s'.clients.lookup d = some client') :
    ∃ client, s.clients.lookup d = some client ∧ Continued client client' := by
  obtain ⟨es, hes, -, hn⟩ := h.does
  exact hes.continued (run.room hes hn fun k hk => hk ▸ hu) hlt hd

/-- The texts on the channels of clients announce or withdraw topics. -/
def Announcing (s : InnerServer) : Prop :=
  ∀ c client ch, s.clients.lookup c = some client → client.subOuput = some ch →
    ∀ m ∈ ch.told, (∃ a, m = .announce a) ∨ ∃ u, m = .unAnnounce u

theorem Announcing.step (h : Announcing s) (he : Effect s e s') : Announcing s' := by
  intro d client' ch' hd hch' m hm
  rcases he.continued hd with ⟨client, hclient, hcontinued⟩ | ⟨-, hnew⟩
  · unfold Continued at hcontinued
    rw [hch'] at hcontinued
    cases hch : client.subOuput with
    | none =>
      rw [hch] at hcontinued
      cases hcontinued
    | some ch =>
      rw [hch] at hcontinued
      cases hcontinued with
      | some hmore =>
        obtain ⟨more, hsent, htexts⟩ := hmore
        rw [Outgoing.told, hsent, List.flatMap_append, List.mem_append] at hm
        rcases hm with hm | hm
        · exact h d client ch hclient hch m hm
        · exact htexts m hm
  · rw [hch'] at hnew
    cases hnew
    cases hm

theorem announcing_of_runs {u : Kind → Nat} (run : Runs u s) : Announcing s := by
  obtain ⟨es, hes, -⟩ := run.history
  refine hes.invariant Announcing (fun _ => True) (fun _ _ => trivial)
    (fun _ _ _ he _ h => h.step he) ?_
  intro c client ch hc hch
  simp only [booted, KeyMap.lookup_insert] at hc
  split_ifs at hc
  · cases hc
    cases hch
  · cases hc

end Channel

end NetTables.Server
