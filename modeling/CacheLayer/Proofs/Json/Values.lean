import CacheLayer.Proofs.Json.Integers
import CacheLayer.Proofs.Json.Strings
/-!
# Values that are read back

A value that is written as JSON is read back as it was, whatever may follow it in a larger value.
The reader of a list goes from comma to comma, and the reader of a stamped value from field to
field; what stands between is read as it was written.

## Key results

- `Json.readsBack_stringList`, `Json.readsBack_option`, `Json.readsBack_stamped`: values that are
  made of others
- `Json.ReadsBack.decode_encode`: such a value is decoded from its text
-/

namespace CacheLayer.Json

/-- Whether a value is read back from its text, with what follows it left over. -/
def ReadsBack {α : Type} [JsonForm α] (v : α) : Prop :=
  ∀ {text : List UInt8}, Delimited text →
    JsonForm.read (JsonForm.write v ++ text) = .ok (v, text)

/-- A value that is read back is decoded from its text. -/
theorem ReadsBack.decode_encode {α : Type} [JsonForm α] {v : α} (h : ReadsBack v) :
    decode (encode v) = .ok v := by
  have hread : readAll JsonForm.read (JsonForm.write v) = .ok v := by
    have h := h .nil
    rw [List.append_nil] at h
    simp only [readAll, h, bind, Except.bind, skipSpace]
    rfl
  have htext : (encode v).data.toList = JsonForm.write v := by simp [encode, packed]
  simp only [decode, htext, hread]

/-! ## Simple values -/

theorem readsBack_string (s : String) : ReadsBack s :=
  fun {text} _ => readString_writeString s text

theorem readsBack_unsigned (x : UInt64) : ReadsBack x :=
  fun h => readUnsigned_writeNat x h

theorem readsBack_signed (x : Int64) : ReadsBack x :=
  fun h => readSigned_writeSigned x h

theorem readsBack_bool (b : Bool) : ReadsBack b := by
  intro text _
  cases b <;> rfl

/-- Null is none, and no number starts like it. -/
theorem readsBack_option (x? : Option UInt64) : ReadsBack x? := by
  intro text h
  cases x? with
  | none => rfl
  | some x =>
    obtain ⟨d, tail, hd, htext⟩ := exists_writeNat_eq x
    have hread := readUnsigned_writeNat x h
    -- The reader decides for a number by its first digit.
    have hdigit : readOptional readUnsigned (digitByte d :: (tail ++ text)) =
        (readUnsigned (digitByte d :: (tail ++ text))).map fun r => (some r.1, r.2) := by
      interval_cases d <;> rfl
    rw [htext, List.cons_append] at hread
    simp only [JsonForm.read, JsonForm.write, htext, List.cons_append, hdigit, hread]
    rfl

/-! ## Lists -/

/-- A string that comes next is read, and the reader goes on behind it. -/
private theorem readStrings_next {first : Bool} {text rest : List UInt8} {s : String}
    (h : nextElement first text = .ok (some (writeString s ++ rest))) (fuel : Nat)
    (acc : List String) :
    readStrings (fuel + 1) first acc text = readStrings fuel false (s :: acc) rest := by
  simp only [readStrings, h, bind, Except.bind, readString_writeString]

/-- Further strings of a list are read up to its closing bracket. -/
private theorem readStrings_writeMoreStrings {fuel : Nat} (acc ss : List String)
    (text : List UInt8) (hfuel : ss.length < fuel) :
    readStrings fuel false acc (writeMoreStrings ss ++ text) =
      .ok (acc.reverse ++ ss, 0x5D :: text) := by
  obtain ⟨fuel, rfl⟩ := Nat.exists_eq_succ_of_ne_zero (Nat.ne_zero_of_lt hfuel)
  induction ss generalizing fuel acc with
  | nil =>
    rw [List.append_nil]
    rfl
  | cons s ss ih =>
    have hnext : nextElement false (writeMoreStrings (s :: ss) ++ text) =
        .ok (some (writeString s ++ (writeMoreStrings ss ++ text))) := by
      rw [writeMoreStrings, List.cons_append, List.append_assoc, writeString_append]
      rfl
    rw [List.length_cons] at hfuel
    obtain ⟨fuel, rfl⟩ := Nat.exists_eq_succ_of_ne_zero (show fuel ≠ 0 by omega)
    rw [readStrings_next hnext, ih (s :: acc) fuel (by omega), List.reverse_cons,
      List.append_assoc, List.singleton_append]

/-- Every string takes up some of the text. -/
private theorem length_writeMoreStrings (ss : List String) :
    ss.length < (writeMoreStrings ss).length := by
  induction ss with
  | nil => decide
  | cons s ss ih =>
    simp only [writeMoreStrings, List.length_cons, List.length_append]
    omega

theorem readsBack_stringList (ss : List String) : ReadsBack ss := by
  intro text _
  cases ss with
  | nil => rfl
  | cons s ss =>
    let rest := writeString s ++ (writeMoreStrings ss ++ text)
    have hnext : nextElement true rest = .ok (some rest) := by
      simp only [rest, writeString_append]
      rfl
    -- There are fewer strings than bytes, so the reader does not run out of steps.
    have hfuel : ss.length < rest.length := by
      have := length_writeMoreStrings ss
      simp only [rest, List.length_append]
      omega
    have hread : readStrings (rest.length + 1) true [] rest = .ok (s :: ss, 0x5D :: text) := by
      rw [readStrings_next hnext, readStrings_writeMoreStrings [s] ss text hfuel]
      rfl
    have htext : (JsonForm.write (s :: ss) : List UInt8) ++ text = 0x5B :: rest := by
      simp only [rest, JsonForm.write, writeStringList, List.cons_append, List.append_assoc]
    rw [htext]
    simp only [JsonForm.read, readStringList, withToken, skipSpace,
      show isSpace 0x5B = false by decide, Bool.false_eq_true, if_false, if_true, hread, bind,
      Except.bind]
    rfl

/-! ## Stamped values -/

/-- A name that comes next is read. -/
private theorem readStringTail_name (s : String) (text : List UInt8) :
    ∃ rest, writeString s ++ text = 0x22 :: rest ∧ readStringTail rest = .ok (s, text) :=
  ⟨_, writeString_append s text, readStringTail_escapes s text⟩

/-- The value comes first. -/
private theorem readStampedFields_value (fuel : Nat) (v : String) (text : List UInt8) :
    readStampedFields (fuel + 1) true none none
        (writeString "value" ++ 0x3A :: (writeString v ++ text)) =
      readStampedFields fuel false (some v) none text := by
  obtain ⟨rest, hname, hread⟩ := readStringTail_name "value" (0x3A :: (writeString v ++ text))
  have hnext : nextField true (0x22 :: rest) = .ok (some rest) := rfl
  have hcolon : readColon (0x3A :: (writeString v ++ text)) = .ok (writeString v ++ text) := rfl
  rw [hname]
  simp only [readStampedFields, hnext, hread, hcolon, bind, Except.bind, if_true,
    Option.isSome_none, Bool.false_eq_true, if_false, readString_writeString]

/-- The time follows. -/
private theorem readStampedFields_time {text : List UInt8} (fuel : Nat) (v : String) (x : UInt64)
    (h : Delimited text) :
    readStampedFields (fuel + 1) false (some v) none
        (0x2C :: (writeString "write_time" ++ 0x3A :: (writeNat x.toNat ++ text))) =
      readStampedFields fuel false (some v) (some x) text := by
  obtain ⟨rest, hname, hread⟩ :=
    readStringTail_name "write_time" (0x3A :: (writeNat x.toNat ++ text))
  have hnext : nextField false (0x2C :: 0x22 :: rest) = .ok (some rest) := rfl
  have hcolon : readColon (0x3A :: (writeNat x.toNat ++ text)) = .ok (writeNat x.toNat ++ text) :=
    rfl
  rw [hname]
  simp only [readStampedFields, hnext, hread, hcolon, bind, Except.bind,
    show ¬ "write_time" = "value" by decide, if_true, Option.isSome_none, Bool.false_eq_true,
    if_false, readUnsigned_writeNat x h]

/-- The time of a stamp is a number of 64 bits. -/
theorem readsBack_stamped {s : Stamped String} (h : s.writeTime < UInt64.size) : ReadsBack s := by
  intro text _
  obtain ⟨v, time⟩ := s
  obtain ⟨x, rfl⟩ : ∃ x : UInt64, time = x.toNat :=
    ⟨UInt64.ofNat time, (UInt64.toNat_ofNat_of_lt h).symm⟩
  -- What stands between the braces: two fields, each a name and its value.
  let rest := writeString "value" ++ 0x3A :: (writeString v ++
    0x2C :: (writeString "write_time" ++ 0x3A :: (writeNat x.toNat ++ 0x7D :: text)))
  have htext : (JsonForm.write (⟨v, x.toNat⟩ : Stamped String) : List UInt8) ++ text =
      0x7B :: rest := by
    simp only [rest, JsonForm.write, writeStamped, List.cons_append, List.append_assoc,
      List.nil_append]
  obtain ⟨fuel, hfuel⟩ : ∃ fuel, rest.length = fuel + 2 := by
    refine ⟨rest.length - 2, ?_⟩
    simp only [rest, List.length_append, List.length_cons]
    omega
  have hread : readStampedFields (rest.length + 1) true none none rest =
      .ok (⟨v, x.toNat⟩, text) := by
    rw [hfuel, readStampedFields_value, readStampedFields_time _ _ _ (.brace text)]
    rfl
  rw [htext]
  exact hread

end CacheLayer.Json
