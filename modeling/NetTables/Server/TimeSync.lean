import NetTables.Server.Connection
import NetTables.Spec.Integers

namespace NetTables.Server

open Lib Spec MsgPack

/-- What `rmp` writes for a reply, `rmp_serde` reads back. -/
def RepliesRead (rmp : RmpEncode) (dec : RmpDecode) : Prop :=
  ∀ (i : Int32) (now time : UInt64) (type : UInt8),
    dec.fromRead (rmp.writeArrayLen 4 ++ rmp.writeI32 i ++ rmp.writeUint now ++ rmp.writeU8 type ++
      rmp.writeUint time) =
        some (.array [.integer i.toInt, .integer now.toNat, .integer type.toNat,
          .integer time.toNat], [])

/-- A frame with this id and value goes where it should: a time-sync message is answered with the
server's time and its own value, and a value message is passed on to the parser. -/
structure RoutedById (rmp : RmpEncode) (dec : RmpDecode) (now : UInt64) (frame : List UInt8)
    (id value : Int) : Prop where
  time : id = -1 → ∃ reply, broadcastIncoming rmp dec now (.binary frame) =
      .answered (.binary reply) ∧
    dec.fromRead reply = some (.array [.integer (-1), .integer now.toNat, .integer 2,
      .integer value], [])
  value : 0 ≤ id → broadcastIncoming rmp dec now (.binary frame) = .forwarded

variable {rmp : RmpEncode} {dec : RmpDecode} {now : UInt64} {f : IntForm} {id value : Int}
  {timestamp type : Value} {tail : List UInt8}

/-- The byte that the filter looks at is the marker of an `i32` and of nothing else. -/
theorem head_eq_marker (h : f.Fits id) : f.head id = 210 ↔ f = .i32 := by
  -- a fixint stands for a number from -32 to 127, and 210 would be -46
  have hfixint : -32 ≤ id → id < 128 → UInt8.ofNat (id % 256).toNat ≠ 210 := by
    intro hlow hlt heq
    have hsmall : (id % 256).toNat < 256 := by omega
    have hbyte := UInt8.toNat_ofNat_of_lt' hsmall
    rw [heq] at hbyte
    have hval : UInt8.toNat 210 = 210 := rfl
    omega
  cases f with
  | positiveFixint =>
    obtain ⟨hlow, hlt⟩ := h
    simp [IntForm.head, hfixint (by omega) (by omega)]
  | negativeFixint =>
    obtain ⟨hlow, hlt⟩ := h
    simp [IntForm.head, hfixint (by omega) (by omega)]
  | _ => simp [IntForm.head]

/-- A frame whose id is no `i32` is passed on, whatever its id is. -/
theorem incoming_of_ne (hid : f.Fits id) (hf : f ≠ .i32) :
    broadcastIncoming rmp dec now (.binary (148 :: (f.bytes id ++ tail))) = .forwarded := by
  have hne : f.head id ≠ 210 := fun heq => hf ((head_eq_marker hid).mp heq)
  rw [IntForm.bytes, List.cons_append, broadcastIncoming, if_neg (not_not_intro rfl), if_neg hne]

/-- A frame whose id is an `i32` is answered, whatever its id is. -/
theorem incoming_i32 (hread : dec.fromRead (148 :: (IntForm.i32.bytes id ++ tail)) =
      some (.array [.integer id, timestamp, type, .integer value], [])) :
    broadcastIncoming rmp dec now (.binary (148 :: (IntForm.i32.bytes id ++ tail))) =
      .answered (timeMessage rmp now ((Value.integer value).asU64.getD 0)) := by
  have hhead : IntForm.i32.head id = 210 := rfl
  rw [IntForm.bytes, List.cons_append] at hread ⊢
  rw [broadcastIncoming, if_neg (not_not_intro rfl), if_pos hhead, hread]
  rfl

/-- The reply to a time-sync message with a value that is no negative number. -/
theorem read_timeMessage (hreplies : RepliesRead rmp dec) (hlow : 0 ≤ value)
    (hlt : value < 2 ^ 64) :
    ∃ reply, timeMessage rmp now ((Value.integer value).asU64.getD 0) = .binary reply ∧
      dec.fromRead reply = some (.array [.integer (-1), .integer now.toNat, .integer 2,
        .integer value], []) := by
  refine ⟨_, rfl, ?_⟩
  have htime : ((Value.integer value).asU64.getD 0).toNat = value := by
    rw [Value.asU64, if_pos ⟨hlow, hlt⟩, Option.getD_some]
    have hnat : (UInt64.ofNat value.toNat).toNat = value.toNat :=
      UInt64.toNat_ofNat_of_lt (by rw [UInt64.size]; omega)
    rw [hnat, Int.toNat_of_nonneg hlow]
  rw [hreplies, htime]
  rfl

/-- The filter of a connection routes a frame by its id exactly where the time-sync id is encoded as
an `i32` and the id of a value is not. -/
theorem routedById_iff (hid : f.Fits id) (hread : dec.fromRead (148 :: (f.bytes id ++ tail)) =
      some (.array [.integer id, timestamp, type, .integer value], []))
    (hlow : 0 ≤ value) (hlt : value < 2 ^ 64) (hreplies : RepliesRead rmp dec) (now : UInt64) :
    RoutedById rmp dec now (148 :: (f.bytes id ++ tail)) id value ↔
      (id = -1 → f = .i32) ∧ (0 ≤ id → f ≠ .i32) := by
  by_cases hf : f = .i32
  · subst hf
    have hanswer : broadcastIncoming rmp dec now (.binary (148 :: (IntForm.i32.bytes id ++ tail))) =
        .answered (timeMessage rmp now ((Value.integer value).asU64.getD 0)) := incoming_i32 hread
    constructor
    · intro h
      refine ⟨fun _ => rfl, fun hnonneg => ?_⟩
      have hforward := h.value hnonneg
      rw [hanswer] at hforward
      cases hforward
    · intro h
      obtain ⟨reply, hreply, hdecoded⟩ : ∃ reply,
          timeMessage rmp now ((Value.integer value).asU64.getD 0) = .binary reply ∧
            dec.fromRead reply = some (.array [.integer (-1), .integer now.toNat, .integer 2,
              .integer value], []) := read_timeMessage hreplies hlow hlt
      refine ⟨fun _ => ⟨reply, hanswer.trans (congrArg _ hreply), hdecoded⟩, fun hnonneg => ?_⟩
      exact (h.2 hnonneg rfl).elim
  · have hforward : broadcastIncoming rmp dec now (.binary (148 :: (f.bytes id ++ tail))) =
        .forwarded := incoming_of_ne hid hf
    constructor
    · intro h
      refine ⟨fun hneg => ?_, fun _ => hf⟩
      obtain ⟨reply, hanswer, -⟩ := h.time hneg
      rw [hforward] at hanswer
      cases hanswer
    · intro h
      exact ⟨fun hneg => (hf (h.1 hneg)).elim, fun _ => hforward⟩

/-- The writer of small numbers and the reader of integers fit. -/
theorem repliesRead_small : RepliesRead small.toRmpEncode readIntegers := by
  intro i now time type
  obtain ⟨f, hf, hnow⟩ := writeUint_form now.toNat_lt
  obtain ⟨g, hg, htime⟩ := writeUint_form time.toNat_lt
  have hread := readFour_bytes (fits_i32 i) hf (fits_u8 type) hg []
  rw [← writeI32_form, ← hnow, ← writeU8_form, ← htime] at hread
  have hfrom : readIntegers.fromRead = readFour := rfl
  rw [hfrom]
  simpa [small] using hread

/-- What follows the id in a time-sync message of time 5. -/
def timeTail : List UInt8 :=
  IntForm.positiveFixint.bytes 0 ++ (IntForm.u8.bytes 2 ++ (IntForm.positiveFixint.bytes 5 ++ []))

/-- A time-sync message is read back in any encoding of its id. -/
theorem read_time (hid : f.Fits id) : readIntegers.fromRead (148 :: (f.bytes id ++ timeTail)) =
    some (.array [.integer id, .integer 0, .integer 2, .integer 5], []) := by
  have htimestamp : IntForm.positiveFixint.Fits 0 := ⟨by decide, by decide⟩
  have htype : IntForm.u8.Fits 2 := ⟨by decide, by decide⟩
  have hvalue : IntForm.positiveFixint.Fits 5 := ⟨by decide, by decide⟩
  exact readFour_bytes hid htimestamp htype hvalue []

theorem routedById_clientTime :
    RoutedById small.toRmpEncode readIntegers 7
      (148 :: (IntForm.i32.bytes (-1) ++ timeTail)) (-1) 5 := by
  have hid : IntForm.i32.Fits (-1) := ⟨by decide, by decide⟩
  have hnonneg : ¬(0 : Int) ≤ -1 := by decide
  exact (routedById_iff hid (read_time hid) (by decide) (by decide) repliesRead_small 7).mpr
    ⟨fun _ => rfl, fun h => (hnonneg h).elim⟩

/-- The shortest encoding of −1 is passed on to the parser. -/
theorem short_time_is_forwarded :
    ¬∀ rmp dec, RepliesRead rmp dec → ∀ (f : IntForm) (id value : Int) timestamp type tail now,
      f.Fits id → dec.fromRead (148 :: (f.bytes id ++ tail)) =
          some (.array [.integer id, timestamp, type, .integer value], []) →
        0 ≤ value → value < 2 ^ 64 →
          RoutedById rmp dec now (148 :: (f.bytes id ++ tail)) id value := by
  intro h
  have hid : IntForm.negativeFixint.Fits (-1) := ⟨by decide, by decide⟩
  have hrouted := h small.toRmpEncode readIntegers repliesRead_small .negativeFixint (-1) 5
    (.integer 0) (.integer 2) timeTail 0 hid (read_time hid) (by decide) (by decide)
  obtain ⟨reply, hanswer, -⟩ := hrouted.time rfl
  rw [incoming_of_ne hid (by decide)] at hanswer
  cases hanswer

end NetTables.Server
