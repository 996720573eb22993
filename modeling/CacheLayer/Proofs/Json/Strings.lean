import CacheLayer.Json.Form
/-!
# Strings that are read back

A string that is written as JSON is read back as it was. The writer escapes byte by byte and the
reader goes byte by byte, so that each byte can be followed on its own.

## Key results

- `Json.readText_escapeByte`: the reader undoes the escape of a byte
- `Json.decode_encode_string`: a string that was written is read back
-/

namespace CacheLayer.Json

/-- The bytes of a character below the space are one byte. -/
private theorem utf8Of_control : ∀ n < 32, utf8Of n = [UInt8.ofNat n] := by decide

/-- The digits in the escape of a byte below the space stand for it. -/
private theorem hexWord?_control :
    ∀ n < 32, hexWord? [0x30, 0x30, hexByte (n / 16), hexByte (n % 16)] = some n := by decide

/-- An escape with digits is read as the byte that it stands for. -/
private theorem readText_hex (acc : ByteArray) {n : Nat} (hn : n < 32) (rest : List UInt8) :
    readText acc .plain
        ([0x5C, 0x75, 0x30, 0x30, hexByte (n / 16), hexByte (n % 16)] ++ rest) =
      readText (acc.push (UInt8.ofNat n)) .plain rest := by
  -- Up to the third digit the reader only collects.
  have hcollect : readText acc .plain
      ([0x5C, 0x75, 0x30, 0x30, hexByte (n / 16), hexByte (n % 16)] ++ rest) =
      readText acc (.hex [0x30, 0x30, hexByte (n / 16)] none) (hexByte (n % 16) :: rest) := rfl
  have hfourth : TextState.step (.hex [0x30, 0x30, hexByte (n / 16)] none) (hexByte (n % 16)) =
      .next [UInt8.ofNat n] .plain := by
    simp [TextState.step, hexWord?_control n hn, afterHex, utf8Of_control n hn,
      show ¬ 0xDC00 ≤ n by omega, show ¬ 0xD800 ≤ n by omega]
  rw [hcollect, readText, hfourth]
  rfl

/-- The reader undoes the escape of a byte. -/
theorem readText_escapeByte (acc : ByteArray) (b : UInt8) (rest : List UInt8) :
    readText acc .plain (escapeByte b ++ rest) = readText (acc.push b) .plain rest := by
  -- The quote, the backslash, the five control characters with a letter of their own, the other
  -- control characters in hexadecimal digits, and every other byte as it is.
  unfold escapeByte
  split
  · next hb => subst hb; rfl
  split
  · next hb => subst hb; rfl
  split
  · next hquote hslash hcontrol =>
    split
    · next hb => subst hb; rfl
    split
    · next hb => subst hb; rfl
    split
    · next hb => subst hb; rfl
    split
    · next hb => subst hb; rfl
    split
    · next hb => subst hb; rfl
    · have hlt : b.toNat < 32 := hcontrol
      rw [readText_hex acc hlt, UInt8.ofNat_toNat]
  · next hquote hslash hcontrol =>
    rw [List.singleton_append, readText]
    simp [TextState.step, hquote, hslash, hcontrol]

/-- The reader undoes the escapes of several bytes. -/
theorem readText_escapes (acc : ByteArray) (bytes rest : List UInt8) :
    readText acc .plain (bytes.flatMap escapeByte ++ rest) =
      readText (bytes.foldl ByteArray.push acc) .plain rest := by
  induction bytes generalizing acc with
  | nil => rfl
  | cons b bytes ih =>
    rw [List.flatMap_cons, List.append_assoc, readText_escapeByte, ih, List.foldl_cons]

/-- Bytes are put together again. -/
private theorem foldl_push (bytes : List UInt8) (acc : ByteArray) :
    bytes.foldl ByteArray.push acc = ⟨acc.data ++ bytes.toArray⟩ := by
  induction bytes generalizing acc with
  | nil => simp
  | cons b bytes ih =>
    rw [List.foldl_cons, ih, ByteArray.data_push]
    simp

/-- The bytes of a string are a string. -/
private theorem fromUTF8?_toUTF8 (s : String) : String.fromUTF8? s.toUTF8 = some s := by
  rw [String.fromUTF8?, String.toUTF8_eq_toByteArray, dif_pos s.isValidUTF8]
  rfl

/-- The escapes of a string and the quote behind them are read as the string. -/
theorem readStringTail_escapes (s : String) (rest : List UInt8) :
    readStringTail ((utf8 s).flatMap escapeByte ++ 0x22 :: rest) = .ok (s, rest) := by
  have htext : readText .empty .plain ((utf8 s).flatMap escapeByte ++ 0x22 :: rest) =
      .ok (s, rest) := by
    rw [readText_escapes, foldl_push]
    have hbytes : (⟨ByteArray.empty.data ++ (utf8 s).toArray⟩ : ByteArray) = s.toUTF8 := by
      simp [utf8]
    rw [hbytes, readText]
    simp only [TextState.step, if_pos, fromUTF8?_toUTF8]
  rw [readStringTail, htext]

/-- The text of a string is a quote, the escapes of its bytes, and a quote. -/
theorem writeString_append (s : String) (rest : List UInt8) :
    writeString s ++ rest = 0x22 :: ((utf8 s).flatMap escapeByte ++ 0x22 :: rest) := by
  simp [writeString]

/-- A string that was written is read back, whatever follows it. -/
theorem readString_writeString (s : String) (rest : List UInt8) :
    readString (writeString s ++ rest) = .ok (s, rest) := by
  have hread : readString (writeString s ++ rest) =
      readStringTail ((utf8 s).flatMap escapeByte ++ 0x22 :: rest) := by
    rw [writeString_append, readString, withToken]
    simp [skipSpace, isSpace]
  rw [hread, readStringTail_escapes]

/-- A string that was written is read back. -/
theorem decode_encode_string (s : String) : (decode (encode s) : Except String String) = .ok s := by
  have hread : readAll (α := String) JsonForm.read (encode s).data.toList = .ok s := by
    have h := readString_writeString s []
    rw [List.append_nil] at h
    have htext : (encode s).data.toList = writeString s := by simp [encode, packed, JsonForm.write]
    rw [readAll, htext]
    simp only [JsonForm.read, h]
    rfl
  rw [decode, hread]

end CacheLayer.Json
