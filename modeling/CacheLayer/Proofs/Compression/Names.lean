import CacheLayer.Compression.Algorithm
import CacheLayer.Proofs.Text.Numerals
import CacheLayer.Proofs.Text.Trimming
import Mathlib
/-!
# Names of compression algorithms

Which texts name an algorithm: after the blanks at the ends are gone and with ASCII letters in lower
case, one of a few words, or `deflate:` and a numeral up to nine. All other texts are refused. The
text that an algorithm is written as names it again, unless it has a level above nine.

## Key results

- `Algorithm.ofNormalized_eq_ok_iff`: the words that are understood
- `Algorithm.ofNormalized_of_not_named`: why the others are refused
- `Algorithm.parse_eq_ok_iff`: the texts that are understood
- `Algorithm.parse_text_deflate`: what becomes of a level that was written out
- `Algorithm.parse_text_of_parse`: whatever was read can be written and read again
-/

namespace CacheLayer.Compression.Algorithm

open Text

/-- The words for algorithms. -/
inductive Named : List Char → Algorithm → Prop where
  | gzip : Named "gzip".toList .gzip
  | lz4 : Named "lz4".toList .lz4
  | zstd : Named "zstd".toList .zstd
  | zstandard : Named "zstandard".toList .zstd
  | deflate : Named "deflate".toList (.deflate 6)
  | level {numeral : List Char} {n : Nat} (hnumeral : Numeral numeral n) (hle : n ≤ 9) :
    Named ("deflate:".toList ++ numeral) (.deflate n)

/-- Whether a text means an algorithm. -/
def Spells (s : String) (a : Algorithm) : Prop :=
  ∃ core, Trimmed s.toList core ∧ Named (core.map Char.toLower) a

/-! ## Words -/

private theorem ne_colon {cs : List Char} (h : ':' ∉ cs) :
    ∀ c ∈ cs, decide (c ≠ ':') = true := by
  intro c hc
  simpa using ne_of_mem_of_not_mem hc h

theorem splitColon_of_not_mem {cs : List Char} (h : ':' ∉ cs) : splitColon cs = (cs, none) := by
  rw [splitColon, List.dropWhile_eq_nil_iff.2 (ne_colon h),
    List.takeWhile_eq_self_iff.2 (ne_colon h)]

theorem splitColon_append {word : List Char} (h : ':' ∉ word) (rest : List Char) :
    splitColon (word ++ ':' :: rest) = (word, some rest) := by
  rw [splitColon, List.dropWhile_append_of_pos (ne_colon h),
    List.takeWhile_append_of_pos (ne_colon h)]
  simp

/-- What stands behind the colon is read as a level. -/
theorem ofNormalized_level (raw : String) (level : List Char) :
    ofNormalized raw ("deflate:".toList ++ level) =
      match decimal? maxLevel level with
      | some n => .ok (.deflate n)
      | none => .error (.config ("invalid deflate level: " ++ String.ofList level)) := by
  -- The first colon is the one behind the word, whatever the level is.
  have hword : ':' ∉ "deflate".toList := by decide
  have hsplit : splitColon ("deflate:".toList ++ level) = ("deflate".toList, some level) :=
    splitColon_append hword level
  rw [ofNormalized, hsplit]
  exact if_pos rfl

theorem ofNormalized_of_named (raw : String) {cs : List Char} {a : Algorithm} (h : Named cs a) :
    ofNormalized raw cs = .ok a := by
  cases h with
  | gzip | lz4 | zstd | zstandard | deflate => rfl
  | level hnumeral hle =>
    have hread : decimal? maxLevel _ = some _ := decimal?_eq_some_iff.2 ⟨hnumeral, hle⟩
    rw [ofNormalized_level, hread]

/-- Whatever is no word for an algorithm is refused, and the message tells whether it is the level
that was not understood. -/
theorem ofNormalized_of_not_named (raw : String) {cs : List Char} (h : ∀ a, ¬ Named cs a) :
    (∃ level, cs = "deflate:".toList ++ level ∧ ofNormalized raw cs =
      .error (.config ("invalid deflate level: " ++ String.ofList level))) ∨
    ¬ "deflate:".toList <+: cs ∧
      ofNormalized raw cs = .error (.config ("unknown compression algorithm: " ++ raw)) := by
  by_cases hlevel : "deflate:".toList <+: cs
  · obtain ⟨level, rfl⟩ := hlevel
    refine .inl ⟨level, rfl, ?_⟩
    -- A numeral within the bound would make it a name.
    have hread : decimal? maxLevel level = none := by
      rw [Option.eq_none_iff_forall_ne_some]
      intro n hn
      obtain ⟨hnumeral, hle⟩ := decimal?_eq_some_iff.1 hn
      exact h _ (.level hnumeral hle)
    rw [ofNormalized_level, hread]
  · refine .inr ⟨hlevel, ?_⟩
    by_cases hcolon : ':' ∈ cs
    · -- The word in front of the first colon is not the one that has a level.
      obtain ⟨word, rest, rfl, hword⟩ := List.eq_append_cons_of_mem hcolon
      have hother : word ≠ "deflate".toList := by
        rintro rfl
        exact hlevel ⟨rest, rfl⟩
      rw [ofNormalized, splitColon_append hword]
      exact if_neg hother
    · -- None of the words is there, each of which would mean an algorithm.
      have hother {word : List Char} {a : Algorithm} (hword : Named word a) : cs ≠ word := by
        rintro rfl
        exact h a hword
      rw [ofNormalized, splitColon_of_not_mem hcolon]
      simp only [hother .gzip, hother .lz4, hother .zstd, hother .zstandard, hother .deflate,
        or_self, if_false]

/-- The words that are understood. -/
theorem ofNormalized_eq_ok_iff (raw : String) {cs : List Char} {a : Algorithm} :
    ofNormalized raw cs = .ok a ↔ Named cs a := by
  refine ⟨fun h => ?_, ofNormalized_of_named raw⟩
  by_cases hnamed : ∃ b, Named cs b
  · obtain ⟨b, hb⟩ := hnamed
    obtain rfl := Except.ok.inj (h.symm.trans (ofNormalized_of_named raw hb))
    exact hb
  · obtain ⟨level, -, heq⟩ | ⟨-, heq⟩ :=
      ofNormalized_of_not_named raw fun b hb => hnamed ⟨b, hb⟩
    · cases h.symm.trans heq
    · cases h.symm.trans heq

/-! ## Texts -/

theorem spells_iff {s : String} {a : Algorithm} :
    Spells s a ↔ Named (lowerChars (trimChars s.toList)) a := by
  simp only [Spells, trimmed_iff, exists_eq_left', lowerChars]

/-- The texts that are understood. -/
theorem parse_eq_ok_iff {s : String} {a : Algorithm} : parse s = .ok a ↔ Spells s a := by
  rw [parse, ofNormalized_eq_ok_iff, spells_iff]

/-- Whatever means no algorithm is refused. -/
theorem parse_of_not_spells {s : String} (h : ∀ a, ¬ Spells s a) :
    ∃ message, parse s = .error (.config message) := by
  have hnot : ∀ a, ¬ Named (lowerChars (trimChars s.toList)) a := fun a ha => h a (spells_iff.2 ha)
  obtain ⟨level, -, heq⟩ | ⟨-, heq⟩ := ofNormalized_of_not_named s hnot
  · exact ⟨_, heq⟩
  · exact ⟨_, heq⟩

/-! ## Written names -/

theorem toList_text_deflate (level : Nat) :
    (deflate level).text.toList = "deflate:".toList ++ Nat.toDigits 10 level := by
  have hlist : (toString level).toList = Nat.toDigits 10 level := by
    rw [Nat.toString_eq_ofList_toDigits, String.toList_ofList]
  rw [text, String.toList_append, hlist]

/-- A name is written without blanks and capitals. -/
theorem plain_text (a : Algorithm) :
    ∀ c ∈ a.text.toList, isBlank c = false ∧ c.toLower = c := by
  cases a with
  | gzip | lz4 | zstd => simp [text, name, isBlank, blankRanges, Char.toLower]
  | deflate level =>
    have hword : ∀ c ∈ "deflate:".toList, isBlank c = false ∧ c.toLower = c := by
      simp [isBlank, blankRanges, Char.toLower]
    rw [toList_text_deflate]
    intro c hc
    obtain hc | hc := List.mem_append.1 hc
    · exact hword c hc
    · have hdigit : c.isDigit := Nat.isDigit_of_mem_toDigits (by decide) (by decide) hc
      exact ⟨isBlank_of_isDigit hdigit, toLower_of_isDigit hdigit⟩

/-- A name is read as it was written. -/
theorem parse_text (a : Algorithm) : parse a.text = ofNormalized a.text a.text.toList := by
  -- There is nothing to trim and nothing to change.
  have htrim : trimChars a.text.toList = a.text.toList :=
    (Trimmed.refl fun c hc => (plain_text a c hc).1).trimChars_eq
  have hlower : lowerChars a.text.toList = a.text.toList :=
    (List.map_congr_left fun c hc => (plain_text a c hc).2).trans (List.map_id _)
  rw [parse, htrim, hlower]

/-- A level that was written out is read back if it is at most nine. -/
theorem parse_text_deflate (level : Nat) :
    parse (deflate level).text =
      if level ≤ maxLevel then .ok (.deflate level)
      else .error (.config ("invalid deflate level: " ++ toString level)) := by
  rw [parse_text, toList_text_deflate, ofNormalized_level, decimal?_toDigits]
  by_cases hle : level ≤ maxLevel
  · rw [if_pos hle, if_pos hle]
  · rw [if_neg hle, if_neg hle, Nat.toString_eq_ofList_toDigits]

/-- An algorithm is read back, unless it has a level above nine. -/
theorem parse_text_of_le {a : Algorithm} (h : ∀ level, a = .deflate level → level ≤ maxLevel) :
    parse a.text = .ok a := by
  cases a with
  | gzip => exact (parse_text _).trans (ofNormalized_of_named _ .gzip)
  | lz4 => exact (parse_text _).trans (ofNormalized_of_named _ .lz4)
  | zstd => exact (parse_text _).trans (ofNormalized_of_named _ .zstd)
  | deflate level => rw [parse_text_deflate, if_pos (h level rfl)]

theorem Named.le_maxLevel {cs : List Char} {level : Nat} (h : Named cs (.deflate level)) :
    level ≤ maxLevel := by
  cases h with
  | deflate => decide
  | level hnumeral hle => exact hle

/-- Whatever was read can be written and read again. -/
theorem parse_text_of_parse {s : String} {a : Algorithm} (h : parse s = .ok a) :
    parse a.text = .ok a := by
  rw [parse_eq_ok_iff, spells_iff] at h
  refine parse_text_of_le ?_
  rintro level rfl
  exact h.le_maxLevel

end CacheLayer.Compression.Algorithm
