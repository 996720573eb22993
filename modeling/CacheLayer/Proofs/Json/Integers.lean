import CacheLayer.Json.Form
import Mathlib
/-!
# Integers that are read back

The digits of an integer are written most significant first, and the reader takes them one after
another into a significand. What follows an integer inside of a value is a comma or a closing mark,
so that the reader sees where it ends.

## Key results

- `Json.readMagnitude_writeNat`: the digits of a number are read as that number
- `Json.readUnsigned_writeNat`, `Json.readSigned_writeSigned`: integers of 64 bits are read back
-/

namespace CacheLayer.Json

/-! ## Digits -/

/-- The byte of a decimal digit. -/
def digitByte (d : Nat) : UInt8 := UInt8.ofNat (48 + d)

private theorem digitByte_digitChar :
    ∀ d < 10, (Nat.digitChar d).toNat.toUInt8 = digitByte d := by decide

@[simp] private theorem digitValue?_digitByte :
    ∀ d < 10, digitValue? (digitByte d) = some d := by decide

private theorem isSpace_digitByte : ∀ d < 10, isSpace (digitByte d) = false := by decide

private theorem digitByte_ne_minus : ∀ d < 10, digitByte d ≠ 0x2D := by decide

theorem writeNat_of_lt {n : Nat} (h : n < 10) : writeNat n = [digitByte n] := by
  rw [writeNat, Nat.toDigits_of_lt_base h, List.map_singleton, digitByte_digitChar n h]

theorem writeNat_of_le {n : Nat} (h : 10 ≤ n) :
    writeNat n = writeNat (n / 10) ++ [digitByte (n % 10)] := by
  rw [writeNat, Nat.toDigits_of_base_le (by decide) h, List.map_append, List.map_singleton,
    digitByte_digitChar _ (Nat.mod_lt n (by decide)), writeNat]

/-! ## Significands -/

/-- The digits of a number: the first one is only zero if the number is, and a reader that has taken
it takes the others up to the number. -/
private theorem exists_digits {n : Nat} (hmax : n ≤ maxSignificand) :
    ∃ d tail, writeNat n = digitByte d :: tail ∧ d < 10 ∧ (0 < n → 0 < d) ∧ ∀ taken rest,
      ∃ taken', takeSignificand d taken (tail ++ rest) = takeSignificand n taken' rest := by
  -- The number without its last digit is smaller.
  induction n using Nat.strongRecOn with
  | ind n ih =>
    by_cases hn : n < 10
    · exact ⟨n, [], writeNat_of_lt hn, hn, id, fun taken rest => ⟨taken, rfl⟩⟩
    · obtain ⟨d, tail, htext, hd, hpos, htake⟩ := ih (n / 10) (by omega) (by omega)
      refine ⟨d, tail ++ [digitByte (n % 10)], ?_, hd, fun _ => hpos (by omega), ?_⟩
      · rw [writeNat_of_le (by omega), htext, List.cons_append]
      · intro taken rest
        obtain ⟨taken', h⟩ := htake taken (digitByte (n % 10) :: rest)
        have hlast : 10 * (n / 10) + n % 10 = n := by omega
        refine ⟨taken' + 1, ?_⟩
        rw [List.append_assoc, List.singleton_append, h, takeSignificand,
          digitValue?_digitByte _ (Nat.mod_lt n (by decide))]
        simp only [hlast, if_pos hmax]

/-! ## What may follow an integer -/

/-- Whether a text is at its end, or goes on with a comma or a closing mark. -/
inductive Delimited : List UInt8 → Prop where
  | nil : Delimited []
  | comma (rest : List UInt8) : Delimited (0x2C :: rest)
  | bracket (rest : List UInt8) : Delimited (0x5D :: rest)
  | brace (rest : List UInt8) : Delimited (0x7D :: rest)

section

variable {text : List UInt8} {n : Nat}

private theorem Delimited.takeSignificand (h : Delimited text) (n taken : Nat) :
    takeSignificand n taken text = (n, taken, text) := by
  cases h <;> rfl

private theorem Delimited.dropDigits (h : Delimited text) : dropDigits 0 text = (0, text) := by
  cases h <;> rfl

private theorem Delimited.readNumberTail (h : Delimited text) (positive : Bool) :
    readNumberTail positive n 0 text = .ok (.ofInteger positive n, text) := by
  cases h <;> rfl

/-- The digits of a number are read as that number. -/
theorem readMagnitude_writeNat (positive : Bool) (hmax : n ≤ maxSignificand) (h : Delimited text) :
    readMagnitude positive (writeNat n ++ text) = .ok (.ofInteger positive n, text) := by
  by_cases hn : n = 0
  · subst hn
    rw [writeNat_of_lt (by decide)]
    cases h <;> rfl
  · obtain ⟨d, tail, htext, hd, hpos, htake⟩ := exists_digits hmax
    obtain ⟨taken, htake⟩ := htake 0 text
    -- A zero in front would be taken for the whole number.
    have hne : d ≠ 0 := Nat.ne_of_gt (hpos (Nat.pos_of_ne_zero hn))
    rw [htext, List.cons_append]
    simp only [readMagnitude, digitValue?_digitByte _ hd, htake, h.takeSignificand, h.dropDigits,
      h.readNumberTail]

/-- A number without a sign is handed to whoever can use it. -/
private theorem readNumberAs_writeNat {α : Type} (expected : String)
    (accept : Number → Except Fault α) (hmax : n ≤ maxSignificand) (h : Delimited text) :
    readNumberAs expected accept (writeNat n ++ text) =
      readNumberAs.finish accept (.nat n) text := by
  -- The first digit is taken neither for a blank nor for a sign.
  obtain ⟨d, tail, htext, hd, -, -⟩ := exists_digits hmax
  have hread := readMagnitude_writeNat true hmax h
  rw [htext, List.cons_append] at hread ⊢
  simp only [readNumberAs, withToken, skipSpace, isSpace_digitByte d hd, Bool.false_eq_true,
    if_false, if_neg (digitByte_ne_minus d hd), digitValue?_digitByte d hd, Option.isSome_some,
    if_true, hread]
  rfl

/-- A number behind a minus sign is handed to whoever can use it. -/
private theorem readNumberAs_minus {α : Type} (expected : String)
    (accept : Number → Except Fault α) (hpos : 0 < n) (hmax : n ≤ UInt64.size / 2)
    (h : Delimited text) :
    readNumberAs expected accept (0x2D :: (writeNat n ++ text)) =
      readNumberAs.finish accept (.negative n) text := by
  have hsize : UInt64.size / 2 ≤ maxSignificand := by decide
  have hread := readMagnitude_writeNat false (Nat.le_trans hmax hsize) h
  have hnumber : Number.ofInteger false n = .negative n := by
    simp [Number.ofInteger, hpos, hmax]
  rw [hnumber] at hread
  rw [readNumberAs, withToken]
  simp only [skipSpace, show isSpace 0x2D = false by decide, Bool.false_eq_true, if_false, if_true,
    hread]
  rfl

/-! ## Integers of 64 bits -/

/-- The text of an unsigned integer begins with a digit. -/
theorem exists_writeNat_eq (x : UInt64) :
    ∃ d tail, d < 10 ∧ writeNat x.toNat = digitByte d :: tail := by
  obtain ⟨d, tail, htext, hd, -, -⟩ := exists_digits (Nat.le_pred_of_lt x.toNat_lt)
  exact ⟨d, tail, hd, htext⟩

/-- An unsigned integer that was written is read back. -/
theorem readUnsigned_writeNat (x : UInt64) (h : Delimited text) :
    readUnsigned (writeNat x.toNat ++ text) = .ok (x, text) := by
  have hmax : x.toNat ≤ maxSignificand := Nat.le_pred_of_lt x.toNat_lt
  rw [readUnsigned, readNumberAs_writeNat _ _ hmax h]
  simp [readNumberAs.finish, unsigned]

/-- A signed integer that was written is read back. -/
theorem readSigned_writeSigned (x : Int64) (h : Delimited text) :
    readNumberAs "i64" signed (writeSigned x ++ text) = .ok (x, text) := by
  have hlt := x.toInt_lt
  have hle := x.le_toInt
  have hhalf : UInt64.size / 2 = 2 ^ 63 := by decide
  have hmax : maxSignificand = 2 ^ 64 - 1 := by decide
  rw [writeSigned]
  split
  · next hneg =>
    -- The magnitude of the least integer is one more than that of the greatest, and still fits.
    have hmagnitude : -(x.toInt.natAbs : Int) = x.toInt := by omega
    rw [List.cons_append, readNumberAs_minus _ _ (by omega) (by omega) h]
    simp only [readNumberAs.finish, signed, hmagnitude, Int64.ofInt_toInt]
  · next hpos =>
    have hmagnitude : (x.toInt.natAbs : Int) = x.toInt := by omega
    rw [readNumberAs_writeNat _ _ (by omega) h]
    simp only [readNumberAs.finish, signed]
    rw [if_pos (by omega), ← Int64.ofInt_eq_ofNat, hmagnitude, Int64.ofInt_toInt]

end

end CacheLayer.Json
