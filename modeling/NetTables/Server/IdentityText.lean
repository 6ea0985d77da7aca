import NetTables.Lib.Text
import NetTables.Server.Names

namespace NetTables.Server

open Lib Lib.Fallible Spec

variable {s s' : InnerServer} {identity ident : ClientIdentity} {o : IterOrder}
  {a b c d : UInt8} {port : UInt16} {n size : Nat} {chars rest : List Char} {text name : String}

def withoutPlus : List Char → List Char
  | '+' :: digits => digits
  | digits => digits

/-- `parse` of an unsigned integer of `size` values: decimal digits, behind a plus or by themselves. -/
def parseUnsigned (size : Nat) (chars : List Char) : Option Nat :=
  let digits := withoutPlus chars
  let value := Nat.ofDigitChars 10 digits 0
  if digits ≠ [] ∧ digits.all Char.isDigit ∧ value < size then some value else none

def parseU8 (chars : List Char) : Option UInt8 := (parseUnsigned UInt8.size chars).map UInt8.ofNat

def parseU16 (chars : List Char) : Option UInt16 :=
  (parseUnsigned UInt16.size chars).map UInt16.ofNat

def ClientIdentity.fromDisplay (display : String) : Option ClientIdentity := do
  let split := display.toList.splitOn '@'
  let name ← split[0]?
  let addr ← split[1]?
  let split := addr.splitOn ':'
  let ipv4 ← ((← split[0]?).splitOn '.').mapM parseU8
  let port ← parseU16 (← split[1]?)
  match ipv4 with
  | [a, b, c, d] => some ⟨.v4 a b c d port, String.ofList name⟩
  | _ => none

section Parse

/-- A number as `parse` accepts it. -/
def IsWritten (n : Nat) (chars : List Char) : Prop :=
  IsNumeral n chars ∨ ∃ digits, chars = '+' :: digits ∧ IsNumeral n digits

theorem IsWritten.isNumeral (h : IsWritten n chars) (hplus : '+' ∉ chars) : IsNumeral n chars := by
  obtain h | ⟨digits, rfl, -⟩ := h
  · exact h
  · exact (hplus (by simp)).elim

theorem isWritten_iff : IsWritten n chars ↔ IsNumeral n (withoutPlus chars) := by
  unfold withoutPlus
  split
  next digits =>
    have hplus : ¬ IsNumeral n ('+' :: digits) := fun h => h.notMem (c := '+') rfl (by simp)
    simp [IsWritten, hplus]
  next hne =>
    have hplus : ¬ ∃ digits, chars = '+' :: digits ∧ IsNumeral n digits := by
      rintro ⟨digits, heq, -⟩
      exact hne digits heq
    rw [IsWritten, or_iff_left hplus]

theorem parseUnsigned_eq_some_iff :
    parseUnsigned size chars = some n ↔ IsWritten n chars ∧ n < size := by
  rw [isWritten_iff]
  constructor
  · intro h
    dsimp only [parseUnsigned] at h
    split_ifs at h with hdigits
    cases h
    exact ⟨isNumeral_ofDigitChars hdigits.1 (List.all_eq_true.mp hdigits.2.1), hdigits.2.2⟩
  · rintro ⟨hn, hlt⟩
    dsimp only [parseUnsigned]
    rw [hn.ofDigitChars,
      if_pos ⟨hn.ne_nil, List.all_eq_true.mpr fun c hc => hn.isDigit hc, hlt⟩]

theorem parseU8_eq_some_iff : parseU8 chars = some a ↔ IsWritten a.toNat chars := by
  rw [parseU8, Option.map_eq_some_iff]
  constructor
  · rintro ⟨n, hn, rfl⟩
    obtain ⟨hwritten, hlt⟩ := parseUnsigned_eq_some_iff.mp hn
    rwa [UInt8.toNat_ofNat_of_lt' hlt]
  · intro h
    exact ⟨a.toNat, parseUnsigned_eq_some_iff.mpr ⟨h, a.toNat_lt⟩, UInt8.ofNat_toNat⟩

theorem parseU16_eq_some_iff : parseU16 chars = some port ↔ IsWritten port.toNat chars := by
  rw [parseU16, Option.map_eq_some_iff]
  constructor
  · rintro ⟨n, hn, rfl⟩
    obtain ⟨hwritten, hlt⟩ := parseUnsigned_eq_some_iff.mp hn
    rwa [UInt16.toNat_ofNat_of_lt' hlt]
  · intro h
    exact ⟨port.toNat, parseUnsigned_eq_some_iff.mpr ⟨h, port.toNat_lt⟩, UInt16.ofNat_toNat⟩

end Parse

section Text

/-- What follows the first `@`. -/
def addrText (text : String) : List Char := (text.toList.dropWhile fun c => c ≠ '@').tail

theorem addrText_eq (h : text.toList = chars ++ '@' :: rest) (hchars : '@' ∉ chars) :
    addrText text = rest := by
  rw [addrText, h, List.dropWhile_append_of_pos]
  · simp
  · intro c hc
    exact decide_eq_true fun heq => hchars (heq ▸ hc)

/-- The text of an address with its five numbers as given. -/
def joinAddr (ipv4 : List (List Char)) (port : List Char) : List Char :=
  ['.'].intercalate ipv4 ++ ':' :: port

theorem toList_display_v4 :
    (ClientIdentity.display ⟨.v4 a b c d port, name⟩).toList = name.toList ++ '@' ::
      joinAddr ([a, b, c, d].map fun n => Nat.toDigits 10 n.toNat) (Nat.toDigits 10 port.toNat) := by
  simp [ClientIdentity.display, SocketAddr.display, joinAddr, toString]

theorem text_of_fromDisplay (h : ClientIdentity.fromDisplay text = some ident) :
    '@' ∉ ident.name.toList ∧ ∃ a b c d port ipv4 portText more,
      ident.addr = .v4 a b c d port ∧
      List.Forall₂ (fun chars n => IsWritten n.toNat chars) ipv4 [a, b, c, d] ∧
      IsWritten port.toNat portText ∧
      (∀ c ∈ more.head?, c = ':' ∨ c = '@') ∧
      text.toList = ident.name.toList ++ '@' :: (joinAddr ipv4 portText ++ more) := by
  unfold ClientIdentity.fromDisplay at h
  obtain ⟨-, hsplit⟩ | ⟨name, rest, htext, hname, hsplit⟩ := splitOn_cases '@' text.toList
  · simp only [hsplit, List.getElem?_cons_zero, List.getElem?_cons_succ, List.getElem?_nil,
      Option.bind_eq_bind, Option.bind_some, Option.bind_none, reduceCtorEq] at h
  obtain ⟨addr, more, rfl, hmore, hfirst⟩ := splitOn_head '@' rest
  obtain ⟨-, hsplit'⟩ | ⟨ip, rest, rfl, -, hsplit'⟩ := splitOn_cases ':' addr
  · simp only [hsplit, hsplit', List.getElem?_cons_zero, List.getElem?_cons_succ,
      List.getElem?_nil, hfirst, Option.bind_eq_bind, Option.bind_some, Option.bind_none,
      Option.bind_fun_none, reduceCtorEq] at h
  obtain ⟨portText, more', rfl, hmore', hfirst'⟩ := splitOn_head ':' rest
  simp only [hsplit, hsplit', List.getElem?_cons_zero, List.getElem?_cons_succ, hfirst, hfirst',
    Option.bind_eq_bind, Option.bind_some, Option.bind_eq_some_iff] at h
  obtain ⟨bytes, hbytes, port, hport, h⟩ := h
  split at h
  · rename_i a b c d
    cases h
    refine ⟨by simpa using hname, a, b, c, d, port, ip.splitOn '.', portText, more' ++ more, rfl,
      ?_, parseU16_eq_some_iff.mp hport, ?_, ?_⟩
    · exact (mapM_eq_some_iff parseU8).mp hbytes |>.imp fun _ _ => parseU8_eq_some_iff.mp
    · intro e he
      cases more' with
      | nil => exact .inr (hmore e he)
      | cons e' more' => exact .inl (hmore' e he)
    · rw [htext, joinAddr, List.intercalate_splitOn]
      simp
  · cases h

/-- `text` displays `ident`, the five numbers with zeros before them or none. -/
def DisplaysUpToZeros (text : String) (ident : ClientIdentity) : Prop :=
  ∃ a b c d port ipv4 portText, ident.addr = .v4 a b c d port ∧
    List.Forall₂ (fun chars n => IsNumeral n.toNat chars) ipv4 [a, b, c, d] ∧
    IsNumeral port.toNat portText ∧ text.toList = ident.name.toList ++ '@' :: joinAddr ipv4 portText

theorem displaysUpToZeros_display (a b c d : UInt8) (port : UInt16) (name : String) :
    DisplaysUpToZeros (ClientIdentity.display ⟨.v4 a b c d port, name⟩) ⟨.v4 a b c d port, name⟩ := by
  refine ⟨a, b, c, d, port, _, _, rfl, ?_, .toDigits _, toList_display_v4⟩
  simp [IsNumeral.toDigits]

/-- What stands in an address that is written in numerals. -/
theorem mem_intercalate_numerals {ipv4 : List (List Char)} {bytes : List UInt8} {e : Char}
    (h : List.Forall₂ (fun chars n => IsNumeral n.toNat chars) ipv4 bytes)
    (he : e ∈ ['.'].intercalate ipv4) : e = '.' ∨ e.isDigit := by
  refine (mem_intercalate he).imp_right ?_
  rintro ⟨chars, hchars, he⟩
  obtain ⟨i, hi, rfl⟩ := List.mem_iff_getElem.mp hchars
  exact (h.get hi (h.length_eq ▸ hi)).isDigit he

/-- After the first `@` comes no other, nor a second colon, nor a plus. -/
def PlainAddr (text : String) : Prop :=
  '@' ∉ addrText text ∧ (addrText text).count ':' ≤ 1 ∧ '+' ∉ addrText text

instance (text : String) : Decidable (PlainAddr text) := inferInstanceAs (Decidable (_ ∧ _))

theorem DisplaysUpToZeros.plainAddr (h : DisplaysUpToZeros text ident)
    (hname : '@' ∉ ident.name.toList) : PlainAddr text := by
  obtain ⟨a, b, c, d, port, ipv4, portText, -, hipv4, hport, htext⟩ := h
  have hip : ∀ e ≠ '.', e.isDigit = false → e ∉ ['.'].intercalate ipv4 := by
    intro e hdot hdigit he
    simpa [hdot, hdigit] using mem_intercalate_numerals hipv4 he
  rw [PlainAddr, addrText_eq htext hname, joinAddr, List.count_append, List.count_cons_self,
    List.count_eq_zero.mpr (hip ':' (by decide) rfl), List.count_eq_zero.mpr (hport.notMem rfl)]
  simp [hip, hport.notMem]

theorem DisplaysUpToZeros.fromDisplay (h : DisplaysUpToZeros text ident)
    (hname : '@' ∉ ident.name.toList) : ClientIdentity.fromDisplay text = some ident := by
  have hat := (h.plainAddr hname).1
  obtain ⟨a, b, c, d, port, ipv4, portText, haddr, hipv4, hport, htext⟩ := h
  rw [addrText_eq htext hname] at hat
  have hcolon : ':' ∉ ['.'].intercalate ipv4 := fun he => by
    simpa using mem_intercalate_numerals hipv4 he
  have hdot : ∀ chars ∈ ipv4, '.' ∉ chars := by
    intro chars hchars
    obtain ⟨i, hi, rfl⟩ := List.mem_iff_getElem.mp hchars
    exact (hipv4.get hi (hipv4.length_eq ▸ hi)).notMem rfl
  have hne : ipv4 ≠ [] := by
    rintro rfl
    cases hipv4
  have hbytes : ipv4.mapM parseU8 = some [a, b, c, d] :=
    (mapM_eq_some_iff parseU8).mpr (hipv4.imp fun _ _ h => parseU8_eq_some_iff.mpr (.inl h))
  have hportText := parseU16_eq_some_iff.mpr (.inl hport)
  obtain ⟨addr, name⟩ := ident
  obtain rfl : addr = _ := haddr
  rw [ClientIdentity.fromDisplay, htext, List.splitOn_append_cons_self_of_not_mem hname,
    List.splitOn_eq_singleton hat, joinAddr]
  simp only [List.splitOn_append_cons_self_of_not_mem hcolon,
    List.splitOn_eq_singleton (hport.notMem (c := ':') rfl), List.splitOn_intercalate '.' hdot hne,
    List.getElem?_cons_zero, List.getElem?_cons_succ, Option.bind_eq_bind, Option.bind_some,
    hbytes, hportText, String.ofList_toList]

/-- Without a plus, a second colon and another `@`, nothing but zeros is lost. -/
theorem displaysUpToZeros_iff (h : ClientIdentity.fromDisplay text = some ident) :
    DisplaysUpToZeros text ident ↔ PlainAddr text := by
  obtain ⟨hname, a, b, c, d, port, ipv4, portText, more, haddr, hipv4, hport, hmore, htext⟩ :=
    text_of_fromDisplay h
  refine ⟨fun hdisplays => hdisplays.plainAddr hname, ?_⟩
  rintro ⟨hat, hcolon, hplus⟩
  rw [addrText_eq htext hname] at hat hcolon hplus
  obtain rfl : more = [] := by
    cases more with
    | nil => rfl
    | cons e more =>
      rcases hmore e rfl with rfl | rfl
      · simp [joinAddr, List.count_append] at hcolon
        omega
      · simp at hat
  rw [List.append_nil] at hplus htext
  rw [joinAddr, List.mem_append, List.mem_cons] at hplus
  have hnoPlus : ∀ chars ∈ ipv4, '+' ∉ chars := fun chars hchars he =>
    hplus (.inl (mem_intercalate_of_mem hchars he))
  refine ⟨a, b, c, d, port, ipv4, portText, haddr, ?_,
    hport.isNumeral fun he => hplus (.inr (.inr he)), htext⟩
  exact ((List.forall₂_and_left _ _).mpr ⟨hnoPlus, hipv4⟩).imp fun _ _ h => h.2.isNumeral h.1

theorem fromDisplay_display_iff {ident : ClientIdentity} (h : ident.addr = .v4 a b c d port) :
    ClientIdentity.fromDisplay ident.display = some ident ↔ '@' ∉ ident.name.toList := by
  refine ⟨fun h => (text_of_fromDisplay h).1, fun hname => ?_⟩
  obtain ⟨addr, name⟩ := ident
  obtain rfl : addr = _ := h
  exact (displaysUpToZeros_display a b c d port name).fromDisplay hname

end Text

section Held

/-- A renamed client carries an `@` in its name. -/
theorem at_mem_uniqueIdentity_iff : '@' ∈ (uniqueIdentity s identity).name.toList ↔
    '@' ∈ identity.name.toList ∨ 0 < instancesOfIdent s identity := by
  rw [uniqueIdentity]
  split_ifs with hinstances
  · simp [ClientIdentity.updateName, hinstances, toString]
  · simp [hinstances]

theorem addr_uniqueIdentity (s : InnerServer) (identity : ClientIdentity) :
    (uniqueIdentity s identity).addr = identity.addr := by
  rw [uniqueIdentity]
  split_ifs <;> rfl

theorem ends_connectClient_held (o : IterOrder) (s : InnerServer) (identity : ClientIdentity) :
    Ends (connectClient o identity) s fun r _ =>
      ∀ held idx, r = .ok (held, idx) → held = uniqueIdentity s identity := by
  refine ends_connectClient.mpr ?_
  split_ifs
  · rintro held idx ⟨⟩
  · rintro held idx ⟨⟩
    rfl

/-- The text of an identity is read as that identity exactly where its name has no `@`; a client
has such a name where it came with one and no client that was there had it in its own; and an
identity that is read from a text displays as that text up to zeros exactly where the text has
nothing else in its address. -/
theorem fromDisplay_roundTrip_iff (a b c d : UInt8) (port : UInt16) (name text : String) :
    let wanted : ClientIdentity := ⟨.v4 a b c d port, name⟩
    (ClientIdentity.fromDisplay wanted.display = some wanted ↔ '@' ∉ name.toList) ∧
    (∀ o s held idx s', (connectClient o wanted).exec s = .ok (.ok (held, idx), s') →
      (ClientIdentity.fromDisplay held.display = some held ↔ '@' ∉ name.toList ∧
        ∀ c client, s.clients.lookup c = some client → ¬IsPartOf name client.identity.name)) ∧
    ∀ read, ClientIdentity.fromDisplay text = some read →
      (DisplaysUpToZeros text read ↔ PlainAddr text) := by
  intro wanted
  refine ⟨fromDisplay_display_iff rfl, fun o s held idx s' hx => ?_,
    fun read hread => displaysUpToZeros_iff hread⟩
  obtain rfl := ends_connectClient_held o s wanted _ _ hx held idx rfl
  rw [fromDisplay_display_iff (addr_uniqueIdentity s wanted), at_mem_uniqueIdentity_iff, not_or,
    Nat.not_lt, Nat.le_zero, instancesOfIdent_eq_zero]

theorem fromDisplay_roundTrip_connectThree :
    ∃ s held idx s', stateAfter anyOp .stored connectThree = some s ∧
      (connectClient .stored ⟨.v4 10 0 0 5 5810, "c"⟩).exec s = .ok (.ok (held, idx), s') ∧
      ClientIdentity.fromDisplay held.display = some held ∧
      DisplaysUpToZeros "c@010.0.0.5:05810" ⟨.v4 10 0 0 5 5810, "c"⟩ := by
  let wanted : ClientIdentity := ⟨.v4 10 0 0 5 5810, "c"⟩
  have hrun : (stateAfter anyOp .stored connectThree).map (fun s =>
      ((s.clientMap.lookup wanted).isSome, instancesOfIdent s wanted)) = some (false, 0) := by
    decide +kernel
  obtain ⟨s, hs, hview⟩ := Option.map_eq_some_iff.mp hrun
  obtain ⟨hnew, hinstances⟩ := Prod.mk.inj hview
  have hends : Ends (connectClient .stored wanted) s fun r _ => ∃ held idx, r = .ok (held, idx) := by
    rw [ends_connectClient, hnew]
    exact ⟨_, _, rfl⟩
  obtain ⟨r, s', hx, held, idx, rfl⟩ := total_connectClient.ends hends
  obtain ⟨-, hheld, htext⟩ := fromDisplay_roundTrip_iff 10 0 0 5 5810 "c" "c@010.0.0.5:05810"
  exact ⟨s, held, idx, s', hs, hx,
    (hheld _ _ _ _ _ hx).mpr ⟨by decide, instancesOfIdent_eq_zero.mp hinstances⟩,
    (htext _ (by decide)).mpr (by decide)⟩

/-- A client that `connect_client` renames is not read back, and of a text with a second colon the
rest is dropped. -/
theorem fromDisplay_loses :
    (¬∀ s, Reachable s → ∀ idx client a b c d port, s.clients.lookup idx = some client →
      client.identity.addr = .v4 a b c d port →
      ClientIdentity.fromDisplay client.identity.display = some client.identity) ∧
    ¬∀ text read, ClientIdentity.fromDisplay text = some read → DisplaysUpToZeros text read := by
  constructor
  · intro h
    have hrun : (stateAfter anyOp .stored connectThree).bind (fun s =>
        (s.clients.lookup 3).map ConnectedClient.identity) =
          some ⟨.v4 10 0 0 4 5810, "a@1"⟩ := by decide +kernel
    obtain ⟨s, hs, hclient⟩ := Option.bind_eq_some_iff.mp hrun
    obtain ⟨client, hclient, hidentity⟩ := Option.map_eq_some_iff.mp hclient
    have hread := h s (reachable_stateAfter hs) 3 client 10 0 0 4 5810 hclient (by rw [hidentity])
    rw [hidentity] at hread
    exact (text_of_fromDisplay hread).1 (by decide)
  · intro h
    have hread : ClientIdentity.fromDisplay "a@10.0.0.2:5810:9" =
        some ⟨.v4 10 0 0 2 5810, "a"⟩ := by decide
    have hplain := (displaysUpToZeros_iff hread).mp (h _ _ hread)
    exact absurd hplain (by decide)

end Held

end NetTables.Server
