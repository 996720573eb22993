import CacheLayer.Text.Blank
import CacheLayer.Text.Decimal
/-!
# Numerals

A numeral is an optional plus sign and one or more decimal digits, and its value is the number that
the digits write out.

## Key results

- `Text.digitsValue?_eq_some_iff`: digits are read as the number that they write out
- `Text.decimal?_eq_some_iff`: what is read up to a bound are the numerals up to that bound
- `Text.decimal?_toDigits`: a number that was written out is read back if it is within the bound
-/

namespace CacheLayer.Text

/-- The numerals with their values. -/
inductive Numeral : List Char → Nat → Prop where
  | plain {ds : List Char} (hne : ds ≠ []) (hdigits : ∀ c ∈ ds, c.isDigit) :
    Numeral ds (Nat.ofDigitChars 10 ds 0)
  | plus {ds : List Char} (hne : ds ≠ []) (hdigits : ∀ c ∈ ds, c.isDigit) :
    Numeral ('+' :: ds) (Nat.ofDigitChars 10 ds 0)

theorem digit?_of_isDigit {c : Char} (h : c.isDigit) : digit? c = some (c.toNat - '0'.toNat) := by
  rw [Char.isDigit_iff_toNat] at h
  exact if_pos h

theorem digit?_eq_none {c : Char} (h : ¬ c.isDigit) : digit? c = none := by
  rw [Char.isDigit_iff_toNat] at h
  exact if_neg h

theorem isBlank_of_isDigit {c : Char} (h : c.isDigit) : isBlank c = false := by
  have hrange : 48 ≤ c.toNat ∧ c.toNat ≤ 57 := Char.isDigit_iff_toNat.1 h
  simp only [isBlank, blankRanges, List.any_cons, List.any_nil, Bool.or_false, Bool.or_eq_false_iff,
    decide_eq_false_iff_not, Bool.and_eq_false_iff]
  omega

theorem toLower_of_isDigit {c : Char} (h : c.isDigit) : c.toLower = c := by
  have hrange : 48 ≤ c.toNat ∧ c.toNat ≤ 57 := Char.isDigit_iff_toNat.1 h
  refine dif_neg fun hupper => ?_
  have hle : 65 ≤ c.toNat := UInt32.le_iff_toNat_le.1 hupper.1
  omega

/-- Digits are read as the number that they write out. -/
theorem digitsValue?_eq_some_iff {ds : List Char} {acc n : Nat} :
    digitsValue? acc ds = some n ↔ (∀ c ∈ ds, c.isDigit) ∧ Nat.ofDigitChars 10 ds acc = n := by
  induction ds generalizing acc with
  | nil => simp [digitsValue?]
  | cons c ds ih =>
    rw [digitsValue?, List.forall_mem_cons, Nat.ofDigitChars_cons]
    by_cases hc : c.isDigit
    · simp only [digit?_of_isDigit hc, ih, hc, true_and]
    · simp [digit?_eq_none hc, hc]

/-! ## The sign -/

theorem dropPlus_cases (cs : List Char) : cs = '+' :: dropPlus cs ∨ dropPlus cs = cs := by
  unfold dropPlus
  split
  · exact .inl rfl
  · exact .inr rfl

theorem dropPlus_of_digits {ds : List Char} (h : ∀ c ∈ ds, c.isDigit) : dropPlus ds = ds := by
  obtain hplus | heq := dropPlus_cases ds
  · -- A plus sign is no digit.
    exact absurd (h '+' (hplus ▸ List.mem_cons_self)) (by decide)
  · exact heq

/-- A numeral is what has digits, and nothing else, behind an optional plus sign. -/
theorem numeral_iff {cs : List Char} {n : Nat} :
    Numeral cs n ↔ dropPlus cs ≠ [] ∧ (∀ c ∈ dropPlus cs, c.isDigit) ∧
      Nat.ofDigitChars 10 (dropPlus cs) 0 = n := by
  constructor
  · rintro (⟨hne, hdigits⟩ | ⟨hne, hdigits⟩)
    · rw [dropPlus_of_digits hdigits]
      exact ⟨hne, hdigits, rfl⟩
    · exact ⟨hne, hdigits, rfl⟩
  · rintro ⟨hne, hdigits, rfl⟩
    obtain hplus | heq := dropPlus_cases cs
    · have h := Numeral.plus hne hdigits
      rwa [← hplus] at h
    · have h := Numeral.plain hne hdigits
      rwa [heq] at h ⊢

/-! ## Bounds -/

theorem decimal?_eq (limit : Nat) (cs : List Char) :
    decimal? limit cs = if dropPlus cs = [] then none
      else (digitsValue? 0 (dropPlus cs)).filter (· ≤ limit) := by
  unfold decimal?
  split
  · next hnil => rw [if_pos hnil]
  · next hne =>
    rw [if_neg hne]
    cases digitsValue? 0 (dropPlus cs) with
    | none => rfl
    | some n => simp [Option.filter_some]

/-- What is read up to a bound are the numerals with values up to that bound. -/
theorem decimal?_eq_some_iff {limit n : Nat} {cs : List Char} :
    decimal? limit cs = some n ↔ Numeral cs n ∧ n ≤ limit := by
  rw [numeral_iff, and_assoc, ← digitsValue?_eq_some_iff, decimal?_eq]
  by_cases hnil : dropPlus cs = []
  · simp [hnil]
  · simp [hnil, Option.filter_eq_some_iff]

/-- A number that was written out is read back if it is within the bound. -/
theorem decimal?_toDigits (limit n : Nat) :
    decimal? limit (Nat.toDigits 10 n) = if n ≤ limit then some n else none := by
  have hdigits : ∀ c ∈ Nat.toDigits 10 n, c.isDigit :=
    fun c hc => Nat.isDigit_of_mem_toDigits (by decide) (by decide) hc
  have hvalue : digitsValue? 0 (Nat.toDigits 10 n) = some n :=
    digitsValue?_eq_some_iff.2 ⟨hdigits, Nat.ofDigitChars_ten_toDigits⟩
  rw [decimal?_eq, dropPlus_of_digits hdigits, if_neg Nat.toDigits_ne_nil, hvalue]
  simp [Option.filter_some]

end CacheLayer.Text
