import CacheLayer.Compression.Codec
import CacheLayer.Config
import CacheLayer.Proofs.Compression.Names
/-!
# Compression in the settings

The compression of a configuration comes from one variable of the environment. A text that names an
algorithm sets it, `none` clears it, and any other text leaves the default. No other setting hangs
on this variable. The compression that was read can be written out and read in again.

## Key results

- `Config.compression?_of_spells`, `Config.compression?_of_spellsNone`: what a text asks for
- `Config.ofEnvironment_update`: what the variable changes
- `Config.compression_understood`: which texts are understood
- `Config.compression_reads_back`: which algorithms are read back
-/

namespace CacheLayer.Config

open Text Compression Algorithm

/-! ## Texts -/

/-- Whether a text asks for no compression. -/
def SpellsNone (s : String) : Prop :=
  ∃ core, Trimmed s.toList core ∧ core.map Char.toLower = "none".toList

theorem meansNone_iff {s : String} : meansNone s = true ↔ SpellsNone s := by
  rw [meansNone, decide_eq_true_iff, lowerChars]
  simp only [SpellsNone, trimmed_iff, exists_eq_left']

/-- No algorithm is called `none`. -/
theorem not_spells_of_spellsNone {s : String} (h : SpellsNone s) (a : Algorithm) :
    ¬ Spells s a := by
  obtain ⟨core, htrim, hnone⟩ := h
  rintro ⟨core', htrim', hnamed⟩
  obtain rfl := htrim.trimChars_eq.symm.trans htrim'.trimChars_eq
  rw [hnone] at hnamed
  have hrefused : ofNormalized "" "none".toList =
      .error (.config "unknown compression algorithm: ") := rfl
  cases hrefused.symm.trans (ofNormalized_of_named "" hnamed)

theorem compression?_of_spellsNone {s : String} (h : SpellsNone s) :
    compression? s = some none := by
  rw [compression?, if_pos (meansNone_iff.2 h)]

theorem compression?_of_spells {s : String} {a : Algorithm} (h : Spells s a) :
    compression? s = some (some a) := by
  have hsome : ¬ meansNone s := fun hnone => not_spells_of_spellsNone (meansNone_iff.1 hnone) a h
  rw [compression?, if_neg hsome, parse_eq_ok_iff.2 h]

theorem compression?_of_not_spells {s : String} (h : ∀ a, ¬ Spells s a) (hnone : ¬ SpellsNone s) :
    compression? s = none := by
  obtain ⟨message, hrefused⟩ := parse_of_not_spells h
  rw [compression?, if_neg (mt meansNone_iff.1 hnone), hrefused]

/-- Only the name of an algorithm asks for it. -/
theorem spells_of_compression? {s : String} {a : Algorithm} (h : compression? s = some (some a)) :
    Spells s a := by
  rw [compression?] at h
  split at h
  · cases h
  · split at h
    · next b hparse =>
      obtain rfl := Option.some.inj (Option.some.inj h)
      exact parse_eq_ok_iff.1 hparse
    · cases h

/-! ## The variable -/

/-- The variable changes the compression and nothing else. -/
theorem ofEnvironment_update (env : Environment) (v : Option String) :
    ofEnvironment (Function.update env "CACHE_COMPRESSION" v) =
      { ofEnvironment env with
        compression := (v.bind compression?).getD standard.compression } := by
  -- The other settings ask for variables of other names.
  have hother (name : String) (h : name ≠ "CACHE_COMPRESSION") :
      Function.update env "CACHE_COMPRESSION" v name = env name := Function.update_of_ne h v env
  simp only [ofEnvironment, Function.update_self, hother "CACHE_NAME" (by decide),
    hother "CACHE_MAX_ENTRIES" (by decide), hother "CACHE_TTL_MS" (by decide),
    hother "CACHE_EXPIRATION_MS" (by decide), hother "CACHE_CLEANUP_INTERVAL_MS" (by decide)]

theorem exists_spells_of_compression {env : Environment} {a : Algorithm}
    (h : (ofEnvironment env).compression = some a) : ∃ s, Spells s a := by
  -- The default is none, so that the variable is set and was understood.
  have hasked : ((env "CACHE_COMPRESSION").bind compression?).getD none = some a := h
  obtain hunset | ⟨c, hc⟩ := Option.eq_none_or_eq_some ((env "CACHE_COMPRESSION").bind compression?)
  · rw [hunset] at hasked
    cases hasked
  · rw [hc, Option.getD_some] at hasked
    obtain ⟨s, -, hs⟩ := Option.bind_eq_some_iff.1 hc
    exact ⟨s, spells_of_compression? (hasked ▸ hs)⟩

/-- The parser understands the names of algorithms, and refuses all other texts with a message. Of
the settings of an environment, the compression is the algorithm that its variable names; it is off
if that is `none`, and the default if it is any other text. Nothing else hangs on this variable. -/
theorem compression_understood :
    (∀ (s : String) (a : Algorithm), parse s = .ok a ↔ Spells s a) ∧
    (∀ s : String, (∀ a, ¬ Spells s a) → ∃ message, parse s = .error (.config message)) ∧
    (∀ (env : Environment) (s : String),
      let config := ofEnvironment (Function.update env "CACHE_COMPRESSION" (some s))
      (∀ a, Spells s a → config.compression = some a) ∧
      (SpellsNone s → config.compression = none) ∧
      ((∀ a, ¬ Spells s a) → ¬ SpellsNone s → config.compression = standard.compression)) ∧
    ∀ (env : Environment) (v : Option String),
      { ofEnvironment (Function.update env "CACHE_COMPRESSION" v) with
        compression := standard.compression } =
      { ofEnvironment env with compression := standard.compression } := by
  refine ⟨fun s a => parse_eq_ok_iff, fun s => parse_of_not_spells, fun env s => ?_,
    fun env v => ?_⟩
  · simp only [ofEnvironment_update, Option.bind_some]
    refine ⟨fun a h => ?_, fun h => ?_, fun h hnone => ?_⟩
    · rw [compression?_of_spells h, Option.getD_some]
    · rw [compression?_of_spellsNone h, Option.getD_some]
    · rw [compression?_of_not_spells h hnone, Option.getD_none]
  · rw [ofEnvironment_update]

/-- A level with a sign and zeros in front, between a wide blank and a line feed; a level behind the
wrong word; and `none` in mixed case. -/
theorem compression_understood_blanksAndSign :
    let env : Environment := fun name => if name = "CACHE_TTL_MS" then some "5" else none
    let asked (s : String) := ofEnvironment (Function.update env "CACHE_COMPRESSION" (some s))
    Spells "\u3000Deflate:+007\n" (.deflate 7) ∧
      (asked "\u3000Deflate:+007\n").compression = some (.deflate 7) ∧
      (∀ a, ¬ Spells "gzip:3" a) ∧ ¬ SpellsNone "gzip:3" ∧
      (∃ message, parse "gzip:3" = .error (.config message)) ∧
      (asked "gzip:3").compression = standard.compression ∧
      SpellsNone "NoNe " ∧ (asked "NoNe ").compression = none := by
  intro env asked
  obtain ⟨hparse, hrefused, hsetting, -⟩ := compression_understood
  have hlevel : Spells "\u3000Deflate:+007\n" (.deflate 7) := by
    have haround : ∃ before after, "\u3000Deflate:+007\n".toList =
        before ++ ("Deflate:+007".toList ++ after) ∧
          (∀ c ∈ before, isBlank c) ∧ ∀ c ∈ after, isBlank c :=
      ⟨['\u3000'], ['\n'], by simp [isBlank, blankRanges]⟩
    have hnumeral : Numeral ['+', '0', '0', '7'] 7 := .plus (by simp) (by simp)
    exact ⟨"Deflate:+007".toList, ⟨haround, by decide, by decide⟩, .level hnumeral (by decide)⟩
  -- A word that is no name is not understood, be there a level behind it or not.
  have hunknown (a : Algorithm) : ¬ Spells "gzip:3" a := by
    have hread : parse "gzip:3" = .error (.config "unknown compression algorithm: gzip:3") := rfl
    intro h
    cases hread.symm.trans ((hparse _ a).2 h)
  have hsome : ¬ SpellsNone "gzip:3" := by
    rw [← meansNone_iff]
    decide
  have hnone : SpellsNone "NoNe " := by
    rw [← meansNone_iff]
    decide
  exact ⟨hlevel, (hsetting env _).1 _ hlevel, hunknown, hsome, hrefused _ hunknown,
    (hsetting env _).2.2 hunknown hsome, hnone, (hsetting env _).2.1 hnone⟩

/-! ## Reading back -/

/-- An algorithm that was written out is read back, unless it has a level above nine, which is
refused. Whatever was read is such an algorithm, so that settings stay the same when the name of
their algorithm is put into the variable. -/
theorem compression_reads_back :
    (∀ a : Algorithm, (∀ level, a = .deflate level → level ≤ 9) → parse a.text = .ok a) ∧
    (∀ level, 9 < level → parse (Algorithm.deflate level).text =
      .error (.config ("invalid deflate level: " ++ toString level))) ∧
    (∀ (s : String) (a : Algorithm), parse s = .ok a → parse a.text = .ok a) ∧
    ∀ (env : Environment) (a : Algorithm), (ofEnvironment env).compression = some a →
      ofEnvironment (Function.update env "CACHE_COMPRESSION" (some a.text)) =
        ofEnvironment env := by
  refine ⟨fun a => parse_text_of_le, fun level hlevel => ?_, fun s a => parse_text_of_parse,
    fun env a hset => ?_⟩
  · have habove : ¬ level ≤ maxLevel := Nat.not_le.2 hlevel
    rw [parse_text_deflate, if_neg habove]
  · obtain ⟨s, hs⟩ := exists_spells_of_compression hset
    have hread := parse_text_of_parse (parse_eq_ok_iff.2 hs)
    rw [ofEnvironment_update, Option.bind_some, compression?_of_spells (parse_eq_ok_iff.1 hread),
      Option.getD_some, ← hset]

/-- The highest level is read back, the greatest of 32 bits is refused, and a setting with another
name of its algorithm stays the same under the name that is written. -/
theorem compression_reads_back_setting :
    let env : Environment := fun name =>
      if name = "CACHE_COMPRESSION" then some " ZStandard" else none
    (∀ level, Algorithm.deflate 9 = .deflate level → level ≤ 9) ∧
      parse (Algorithm.deflate 9).text = .ok (.deflate 9) ∧
      parse (Algorithm.deflate 4294967295).text =
        .error (.config "invalid deflate level: 4294967295") ∧
      parse " ZStandard" = .ok .zstd ∧ parse Algorithm.zstd.text = .ok .zstd ∧
      (ofEnvironment env).compression = some .zstd ∧
      ofEnvironment (Function.update env "CACHE_COMPRESSION" (some "zstd")) =
        ofEnvironment env := by
  intro env
  obtain ⟨hback, hrefused, hagain, hsetting⟩ := compression_reads_back
  have hlevel (level : Nat) (h : Algorithm.deflate 9 = .deflate level) : level ≤ 9 := by
    obtain rfl := Algorithm.deflate.inj h
    decide
  have hread : parse " ZStandard" = .ok .zstd := rfl
  have hset : (ofEnvironment env).compression = some .zstd := by decide
  exact ⟨hlevel, hback _ hlevel, hrefused 4294967295 (by decide), hread, hagain _ _ hread, hset,
    hsetting env _ hset⟩

/-- The level ten is refused, although there is a codec for it. -/
theorem level_ten_refused :
    ¬ ∀ a : Algorithm, ∃ b, parse a.text = .ok b ∧ b.codec = a.codec := by
  intro h
  obtain ⟨b, hread, -⟩ := h (.deflate 10)
  rw [parse_text_deflate, if_neg (by decide)] at hread
  cases hread

end CacheLayer.Config
