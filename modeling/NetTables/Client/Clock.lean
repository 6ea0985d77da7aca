import NetTables.Client.Inner

namespace NetTables.Client

open Lib Spec

/-- The client's estimate of the server's clock after a reply that took `d₁` to ask for and `d₂` to
come, where the server's clock is `o` ahead: the offset is off by half the round trip and one at
most, and with equal delays the server's time is right to within one. -/
structure Estimates (c' : ClientState) (d₁ d₂ o : Nat) : Prop where
  offset : |(c'.inner.serverTimeOffset.toNat : Int) - o| ≤ (d₁ + d₂) / 2 + 1
  serverTime : d₁ = d₂ → |(c'.serverTime.toNat : Int) - (c'.clientTime.toNat + o)| ≤ 1

namespace ClientState

variable {c c' : ClientState} {stamp a b r : UInt64} {sent : Int64} {d₁ d₂ o : Nat}

theorem checkedSub_eq_some : checkedSub a b = some r ↔ b ≤ a ∧ a - b = r := by
  unfold checkedSub
  split_ifs with h <;> simp [h]

theorem toNat_checkedSub (h : checkedSub a b = some r) : r.toNat + b.toNat = a.toNat := by
  obtain ⟨hle, rfl⟩ := checkedSub_eq_some.mp h
  have hnat := UInt64.le_iff_toNat_le.mp hle
  rw [UInt64.toNat_sub_of_le _ _ hle]
  omega

/-- The offset that a reply leaves, as long as the math goes well: half the round trip goes off the
server's time, and so does the receive time. -/
theorem offset_withTimestamp (hsent : 0 ≤ sent)
    (h : c.withTimestamp stamp (some sent) = some c') :
    c'.clientTime = c.clientTime ∧ sent.toInt ≤ c.clientTime.toNat ∧
      (c'.inner.serverTimeOffset.toNat : Int) =
        stamp.toNat - (c.clientTime.toNat - sent.toInt) / 2 - c.clientTime.toNat := by
  obtain ⟨roundTrip, htrip, h⟩ := Option.bind_eq_some_iff.mp h
  obtain ⟨atReceive, hreceive, h⟩ := Option.bind_eq_some_iff.mp h
  obtain ⟨offset, hoffset, h⟩ := Option.bind_eq_some_iff.mp h
  cases h
  have htrip := toNat_checkedSub htrip
  have hreceive := toNat_checkedSub hreceive
  have hoffset := toNat_checkedSub hoffset
  have hhalf : (roundTrip / 2).toNat = roundTrip.toNat / 2 := UInt64.toNat_div ..
  have hsentNat : (sent.toUInt64.toNat : Int) = sent.toInt := by
    rw [Int64.toNat_toUInt64_of_le hsent, ← Int64.toNat_toInt]
    exact Int.toNat_of_nonneg (Int64.le_iff_toInt_le.mp hsent)
  refine ⟨rfl, by omega, ?_⟩
  show (offset.toNat : Int) = _
  omega

/-- The server's time is read without wrapping. -/
theorem toNat_serverTime (hsent : 0 ≤ sent) (h : c.withTimestamp stamp (some sent) = some c') :
    c'.serverTime.toNat = c'.clientTime.toNat + c'.inner.serverTimeOffset.toNat := by
  obtain ⟨htime, hle, hoffset⟩ := offset_withTimestamp hsent h
  have hlt := stamp.toNat_lt
  rw [serverTime, UInt64.toNat_add, htime]
  exact Nat.mod_eq_of_lt (by omega)

/-- The estimate is good exactly where the reply took a microsecond at most, and no time at all if
the delays are equal. -/
theorem estimates_iff (hsent : 0 ≤ sent)
    (hreceive : (c.clientTime.toNat : Int) = sent.toInt + d₁ + d₂)
    (hstamp : (stamp.toNat : Int) = sent.toInt + d₁ + o)
    (h : c.withTimestamp stamp (some sent) = some c') :
    Estimates c' d₁ d₂ o ↔ d₂ ≤ 1 ∧ (d₁ = d₂ → d₁ = 0) := by
  obtain ⟨htime, hle, hoffset⟩ := offset_withTimestamp hsent h
  have hserver := toNat_serverTime hsent h
  rw [hreceive, hstamp] at hoffset
  have herror : (c'.inner.serverTimeOffset.toNat : Int) - o = -(d₂ + (d₁ + d₂) / 2) := by
    have htrip : sent.toInt + d₁ + d₂ - sent.toInt = d₁ + d₂ := by omega
    rw [hoffset, htrip]
    omega
  have hread : (c'.serverTime.toNat : Int) - (c'.clientTime.toNat + o) =
      -(d₂ + (d₁ + d₂) / 2) := by
    rw [hserver]
    push_cast
    omega
  have hnonneg : (0 : Int) ≤ d₂ + (d₁ + d₂) / 2 := by omega
  constructor
  · intro hestimates
    have hoff := hestimates.offset
    rw [herror, abs_neg, abs_of_nonneg hnonneg] at hoff
    refine ⟨by omega, fun heq => ?_⟩
    have htime := hestimates.serverTime heq
    rw [hread, abs_neg, abs_of_nonneg hnonneg] at htime
    omega
  · intro hdelays
    obtain ⟨hback, hequal⟩ := hdelays
    refine ⟨?_, fun heq => ?_⟩
    · rw [herror, abs_neg, abs_of_nonneg hnonneg]
      omega
    · have hzero := hequal heq
      rw [hread, abs_neg, abs_of_nonneg hnonneg]
      omega

/-- A client that has been up for this long. -/
def upFor (now : Instant) : ClientState := { now }

/-- The request took 100 and the reply 1, and the server is 1000 ahead. -/
theorem estimates_fastReply : ∃ c', (upFor 1101).withTimestamp 2100 (some 1000) = some c' ∧
    (Estimates c' 100 1 1000 ↔ (1 : Nat) ≤ 1 ∧ ((100 : Nat) = 1 → (100 : Nat) = 0)) := by
  have hrun : ((upFor 1101).withTimestamp 2100 (some 1000)).isSome = true := by decide
  obtain ⟨c', hc'⟩ := Option.isSome_iff_exists.mp hrun
  exact ⟨c', hc', estimates_iff (by decide) (by decide) (by decide) hc'⟩

/-- The request and the reply took 100 each, and the offset is 200 short. -/
theorem estimate_short_by_round_trip :
    ¬∀ (c c' : ClientState) (stamp : UInt64) (sent : Int64) (d₁ d₂ o : Nat), 0 ≤ sent →
      (c.clientTime.toNat : Int) = sent.toInt + d₁ + d₂ →
        (stamp.toNat : Int) = sent.toInt + d₁ + o →
          c.withTimestamp stamp (some sent) = some c' → Estimates c' d₁ d₂ o := by
  intro h
  have hrun : ((upFor 1200).withTimestamp 2100 (some 1000)).map (fun c =>
      c.inner.serverTimeOffset.toNat) = some 800 := by decide
  obtain ⟨c', hc', hoffset⟩ := Option.map_eq_some_iff.mp hrun
  have hoff := (h _ c' 2100 1000 100 100 1000 (by decide) (by decide) (by decide) hc').offset
  rw [hoffset] at hoff
  revert hoff
  decide

end ClientState

end NetTables.Client
