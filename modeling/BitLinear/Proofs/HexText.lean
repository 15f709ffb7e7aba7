import BitLinear.BitRow.Text
import BitLinear.Proofs.Lines
import BitLinear.Proofs.Supply

/-!
# Hexadecimal text of rows

A text is read as bytes exactly when it has an even number of characters and each is a digit, and
writing these bytes gives the text in lower case (`Hex.decode_eq_ok_iff`). Different bytes are
written differently (`Hex.encode_injective`). So a row is read exactly from the texts that are its
own digits once they are trimmed and in lower case (`BitRow.ofDigits_eq_ok_iff`). What is written
for a row is its bytes in base sixteen (`BitRow.isHex_render`).
-/

namespace BitLinear

namespace Hex

/-! ## Digits -/

/-- The digits of either case. -/
def digits : List Char :=
  "0123456789abcdefABCDEF".toList

/-- The byte that a digit is read as. -/
def byteOf (c : Char) : Byte :=
  UInt8.ofNat c.toNat

/-- The value of a digit. -/
def valueOf (c : Char) : Byte :=
  (digitValue? (byteOf c)).getD 0

-- Statements about digits are decided over the list of digits, and not over all characters.

theorem utf8_of_mem_digits : ∀ c ∈ digits, String.utf8EncodeChar c = [byteOf c] :=
  List.all_iff_forall_prop.mp (by decide)

theorem digitValue?_of_mem_digits : ∀ c ∈ digits, digitValue? (byteOf c) = some (valueOf c) :=
  List.all_iff_forall_prop.mp (by decide)

theorem digitPair_valueOf : ∀ c ∈ digits, ∀ d ∈ digits,
    digitPair (valueOf c <<< 4 ||| valueOf d) = [c.toLower, d.toLower] := by
  intro c hc
  refine List.all_iff_forall_prop.mp ?_
  revert c
  exact List.all_iff_forall_prop.mp (by decide)

theorem isBlank_of_mem_digits : ∀ c ∈ digits, Text.isBlank c = false :=
  List.all_iff_forall_prop.mp (by decide)

theorem mem_digits_of_toLower {c : Char} (h : c.toLower ∈ digits) : c ∈ digits := by
  have hall : ∀ k < 0x5b, 0x41 ≤ k → Char.ofNat (k + 0x20) ∈ digits → Char.ofNat k ∈ digits := by
    decide
  rcases Text.toLower_cases c with heq | ⟨hlow, hhigh, hlower⟩
  · exact heq ▸ h
  · rw [← Char.ofNat_toNat c]
    refine hall c.toNat (by omega) hlow ?_
    rwa [← hlower, Char.ofNat_toNat]

theorem digitChar_mem_digits {v : Byte} (hv : v.toNat < 16) :
    digitChar v ∈ digits ∧ (digitChar v).toLower = digitChar v ∧ valueOf (digitChar v) = v := by
  have hall : ∀ k < 16, digitChar (UInt8.ofNat k) ∈ digits ∧
      (digitChar (UInt8.ofNat k)).toLower = digitChar (UInt8.ofNat k) ∧
        valueOf (digitChar (UInt8.ofNat k)) = UInt8.ofNat k := by
    decide
  have h := hall v.toNat hv
  rwa [UInt8.ofNat_toNat] at h

/-- The halves of a byte are values of digits. -/
theorem halves_lt (b : Byte) :
    (b >>> 4).toNat = b.toNat / 16 ∧ (b &&& 15).toNat = b.toNat % 16 := by
  refine ⟨?_, ?_⟩
  · rw [UInt8.toNat_shiftRight]
    exact Nat.shiftRight_eq_div_pow _ 4
  · rw [UInt8.toNat_and]
    exact Nat.and_two_pow_sub_one_eq_mod _ 4

theorem digitChar_eq {v : Byte} (hv : v.toNat < 16) : digitChar v = Nat.digitChar v.toNat := by
  have hall : ∀ k < 16, digitChar (UInt8.ofNat k) = Nat.digitChar k := by decide
  have h := hall v.toNat hv
  rwa [UInt8.ofNat_toNat] at h

/-- A byte is written in base sixteen. -/
theorem digitPair_eq (b : Byte) :
    digitPair b = [Nat.digitChar (b.toNat / 16), Nat.digitChar (b.toNat % 16)] := by
  obtain ⟨hhigh, hlow⟩ := halves_lt b
  have hb := b.toNat_lt
  rw [digitPair, digitChar_eq (by omega), digitChar_eq (by omega), hhigh, hlow]

/-- Past the first half of the bytes there are no digits. -/
theorem digitValue?_of_ge {b : Byte} (h : 128 ≤ b.toNat) : digitValue? b = none := by
  simp only [digitValue?, UInt8.le_iff_toNat_le]
  rw [if_neg, if_neg, if_neg] <;> simp <;> omega

/-- A character is a digit if each of its bytes is read as one. -/
theorem mem_digits_of_utf8 {c : Char}
    (h : ∀ b ∈ String.utf8EncodeChar c, (digitValue? b).isSome) : c ∈ digits := by
  have hascii : ∀ k < 128, (digitValue? (UInt8.ofNat k)).isSome → Char.ofNat k ∈ digits := by
    decide
  have hlead {k : ℕ} (hk : 128 ≤ k) (hk' : k < 256) (b : Byte) (hb : b = UInt8.ofNat k) :
      ¬(digitValue? b).isSome := by
    rw [hb, digitValue?_of_ge]
    · simp
    · rw [UInt8.toNat_ofNat', Nat.mod_eq_of_lt hk']
      exact hk
  simp only [String.utf8EncodeChar] at h
  split_ifs at h with h1 h2 h3
  · rw [← Char.ofNat_toNat c]
    exact hascii c.toNat (Nat.lt_succ_of_le h1) (h _ List.mem_cons_self)
  · exact absurd (h _ List.mem_cons_self) (hlead (by omega) (by omega) _ rfl)
  · exact absurd (h _ List.mem_cons_self) (hlead (by omega) (by omega) _ rfl)
  · exact absurd (h _ List.mem_cons_self) (hlead (by omega) (by omega) _ rfl)

/-! ## Reading and writing -/

theorem flatMap_utf8 {text : List Char} (h : ∀ c ∈ text, c ∈ digits) :
    text.flatMap String.utf8EncodeChar = text.map byteOf := by
  rw [List.flatMap_congr fun c hc => utf8_of_mem_digits c (h c hc), ← List.map_eq_flatMap]

theorem encode_cons (b : Byte) (bytes : List Byte) :
    encode (b :: bytes) = digitPair b ++ encode bytes :=
  List.flatMap_cons

theorem digit_byteOf {c : Char} (hc : c ∈ digits) (position : ℕ) :
    digit position (byteOf c) = .ok (valueOf c) := by
  rw [digit, digitValue?_of_mem_digits c hc]

/-- Digits in pairs are read, and writing gives them back in lower case. -/
theorem decodePairs_eq_ok : ∀ {text : List Char} (position : ℕ), text.length % 2 = 0 →
    (∀ c ∈ text, c ∈ digits) → ∃ bytes, decodePairs position (text.map byteOf) = .ok bytes ∧
      encode bytes = text.map Char.toLower
  | [], _, _, _ => ⟨[], rfl, rfl⟩
  | [_], _, hlen, _ => by simp at hlen
  | c :: d :: text, position, hlen, h => by
    obtain ⟨hc, hd, htext⟩ : c ∈ digits ∧ d ∈ digits ∧ ∀ e ∈ text, e ∈ digits := by
      simpa using h
    obtain ⟨bytes, hbytes, hencode⟩ := decodePairs_eq_ok (position + 2)
      (by simp only [List.length_cons] at hlen; omega) htext
    refine ⟨(valueOf c <<< 4 ||| valueOf d) :: bytes, ?_, ?_⟩
    · rw [List.map_cons, List.map_cons, decodePairs, digit_byteOf hc, digit_byteOf hd, hbytes]
      rfl
    · rw [encode_cons, digitPair_valueOf c hc d hd, hencode]
      rfl

/-- The two digits of a byte tell it. -/
theorem digitPair_injective : Function.Injective digitPair := by
  intro a b h
  have hvalues := congrArg (List.map fun c => (valueOf c).toNat) h
  obtain ⟨ha, ha'⟩ := halves_lt a
  obtain ⟨hb, hb'⟩ := halves_lt b
  have hlt := a.toNat_lt
  have hlt' := b.toNat_lt
  have hdigit {v : Byte} (hv : v.toNat < 16) : valueOf (digitChar v) = v :=
    (digitChar_mem_digits hv).2.2
  simp only [digitPair, List.map_cons, List.map_nil, List.cons.injEq, and_true] at hvalues
  rw [hdigit (by omega), hdigit (by omega), hdigit (by omega), hdigit (by omega)] at hvalues
  exact UInt8.toNat_inj.mp (by omega)

/-- Different bytes are written differently. -/
theorem encode_injective : Function.Injective encode
  | [], [], _ => rfl
  | [], b :: bytes, h => by simp [encode, digitPair] at h
  | a :: as, [], h => by simp [encode, digitPair] at h
  | a :: as, b :: bs, h => by
    rw [encode_cons, encode_cons] at h
    obtain ⟨hpair, hrest⟩ := List.append_inj h rfl
    rw [digitPair_injective hpair, encode_injective hrest]

theorem isSome_of_digit_eq_ok {position : ℕ} {b v : Byte} (h : digit position b = .ok v) :
    (digitValue? b).isSome := by
  cases hb : digitValue? b with
  | none => simp [digit, hb] at h
  | some w => rfl

/-- What is read in pairs are digits. -/
theorem isSome_of_decodePairs_eq_ok : ∀ {bytes out : List Byte} {position : ℕ},
    bytes.length % 2 = 0 → decodePairs position bytes = .ok out →
      ∀ b ∈ bytes, (digitValue? b).isSome
  | [], _, _, _, _ => by simp
  | [_], _, _, hlen, _ => by simp at hlen
  | high :: low :: bytes, out, position, hlen, h => by
    obtain ⟨v, hv, h⟩ := bind_eq_ok_iff.mp h
    obtain ⟨w, hw, h⟩ := bind_eq_ok_iff.mp h
    obtain ⟨rest, hrest, -⟩ := bind_eq_ok_iff.mp h
    have hbytes := isSome_of_decodePairs_eq_ok
      (by simp only [List.length_cons] at hlen; omega) hrest
    simpa [isSome_of_digit_eq_ok hv, isSome_of_digit_eq_ok hw] using hbytes

/-- A text is read exactly if it is an even number of digits, and the bytes are those that are
written as the text in lower case. -/
theorem decode_eq_ok_iff {text : List Char} {bytes : List Byte} :
    decode (text.flatMap String.utf8EncodeChar) = .ok bytes ↔
      text.length % 2 = 0 ∧ (∀ c ∈ text, c ∈ digits) ∧ encode bytes = text.map Char.toLower := by
  have hread (heven : text.length % 2 = 0) (h : ∀ c ∈ text, c ∈ digits) : ∃ out,
      decode (text.flatMap String.utf8EncodeChar) = .ok out ∧
        encode out = text.map Char.toLower := by
    obtain ⟨out, hout, hencode⟩ := decodePairs_eq_ok 0 heven h
    refine ⟨out, ?_, hencode⟩
    rw [flatMap_utf8 h, decode, List.length_map, if_pos heven, hout]
  refine ⟨fun hdecode => ?_, ?_⟩
  · have hbytes : (text.flatMap String.utf8EncodeChar).length % 2 = 0 := by
      by_contra hodd
      rw [decode, if_neg hodd] at hdecode
      cases hdecode
    have hdigits : ∀ c ∈ text, c ∈ digits := fun c hc => mem_digits_of_utf8 fun b hb => by
      rw [decode, if_pos hbytes] at hdecode
      exact isSome_of_decodePairs_eq_ok hbytes hdecode b (List.mem_flatMap.mpr ⟨c, hc, hb⟩)
    have heven : text.length % 2 = 0 := by
      rwa [flatMap_utf8 hdigits, List.length_map] at hbytes
    obtain ⟨out, hout, hencode⟩ := hread heven hdigits
    obtain rfl : out = bytes := Except.ok.inj (hout.symm.trans hdecode)
    exact ⟨heven, hdigits, hencode⟩
  · rintro ⟨heven, hdigits, hencode⟩
    obtain ⟨out, hout, hencode'⟩ := hread heven hdigits
    rw [hout, encode_injective (hencode'.trans hencode.symm)]

/-- What is written are digits in lower case, two for a byte. -/
theorem encode_spec : ∀ bytes : List Byte, (encode bytes).length = 2 * bytes.length ∧
    (∀ c ∈ encode bytes, c ∈ digits) ∧ (encode bytes).map Char.toLower = encode bytes
  | [] => by simp [encode]
  | b :: bytes => by
    have hb := halves_lt b
    have hb' := b.toNat_lt
    obtain ⟨hhigh, hhigh', -⟩ := digitChar_mem_digits (v := b >>> 4) (by omega)
    obtain ⟨hlow, hlow', -⟩ := digitChar_mem_digits (v := b &&& 15) (by omega)
    obtain ⟨hlen, hmem, hlower⟩ := encode_spec bytes
    rw [encode_cons, digitPair]
    refine ⟨?_, ?_, ?_⟩
    · simp [hlen]
      omega
    · simpa [hhigh, hlow] using hmem
    · simp [hhigh', hlow', hlower]

end Hex

/-! ## Rows -/

namespace BitRow

variable {text : List Char} {r : BitRow}

theorem length_digits (r : BitRow) : 4 * r.digits.length = r.length := by
  rw [digits, (Hex.encode_spec r.toBytes).1, length_eq_toBytes]
  omega

theorem toLower_digits (r : BitRow) : r.digits.map Char.toLower = r.digits :=
  (Hex.encode_spec r.toBytes).2.2

theorem isBlank_of_mem_digits {c : Char} (h : c ∈ r.digits) : Text.isBlank c = false :=
  Hex.isBlank_of_mem_digits c ((Hex.encode_spec r.toBytes).2.1 c h)

theorem trim_digits (r : BitRow) : Text.trim r.digits = r.digits :=
  Text.trim_eq_self fun _ hc => isBlank_of_mem_digits hc

theorem newline_notMem_digits (r : BitRow) : '\n' ∉ r.digits := fun h =>
  absurd (isBlank_of_mem_digits h) (by decide)

/-- A row is read exactly from the texts that are its digits, once trimmed and in lower case. -/
theorem ofDigits_eq_ok_iff : ofDigits text = .ok r ↔
    (Text.trim text).map Char.toLower = r.digits := by
  have hdecode : ofDigits text = .ok r ↔
      Hex.decode ((Text.trim text).flatMap String.utf8EncodeChar) = .ok r.toBytes := by
    unfold ofDigits
    split <;> rename_i heq <;> simp [heq, ← toBytes_inj, toBytes_ofBytes]
  rw [hdecode, Hex.decode_eq_ok_iff]
  refine ⟨fun h => h.2.2.symm, fun h => ?_⟩
  obtain ⟨hlen, hmem, -⟩ := Hex.encode_spec r.toBytes
  rw [digits] at h
  refine ⟨?_, fun c hc => Hex.mem_digits_of_toLower (hmem _ ?_), h.symm⟩
  · rw [← List.length_map (f := Char.toLower), h, hlen]
    omega
  · rw [← h]
    exact List.mem_map_of_mem hc

/-- A row is read back from its text. -/
theorem parse_render (r : BitRow) : parse r.render = .ok r := by
  rw [parse, render, String.toList_ofList, ofDigits_eq_ok_iff, trim_digits, toLower_digits]

/-- The text of a row of this size in base sixteen. -/
structure IsHex (size : ℕ) (text : String) (r : BitRow) : Prop where
  /-- Two digits stand for a byte, the high digit first. -/
  digits : text.toList = r.toBytes.flatMap fun b =>
    [Nat.digitChar (b.toNat / 16), Nat.digitChar (b.toNat % 16)]
  /-- Every byte of the size has its two digits. -/
  length_eq : text.length = 2 * (size / 8)
  /-- The row is read back from them. -/
  parse : BitRow.parse text = .ok r

theorem isHex_render {size : ℕ} (h : r.length = size) : IsHex size r.render r where
  digits := by
    rw [render, String.toList_ofList, BitRow.digits, Hex.encode]
    exact List.flatMap_congr fun b _ => Hex.digitPair_eq b
  length_eq := by
    rw [render, String.length_ofList, BitRow.digits, (Hex.encode_spec _).1, length_toBytes h]
  parse := parse_render r

end BitRow

end BitLinear
