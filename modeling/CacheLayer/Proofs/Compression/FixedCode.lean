import CacheLayer.Compression.Deflate.Encode
import CacheLayer.Proofs.Compression.Bits
import CacheLayer.Proofs.Compression.Factoring
import Mathlib
/-!
# The fixed code of deflate streams

Every symbol that is written in the fixed code is found again by its word. A word is found as soon
as its last bit is considered, so nothing that stands behind it matters; that leaves one word for
each symbol to look at.

## Key results

- `Deflate.PrefixCode.symbolAt_of_place`: a word that was written is found
- `Deflate.symbolAt_pushSymbol`, `Deflate.symbolAt_pushDistance`: symbols of the fixed code
- `Deflate.contiguous_lengths`, `Deflate.contiguous_distances`: what lengths and distances there are
-/

namespace CacheLayer.Compression.Deflate

/-! ## Words in front of other bits -/

namespace PrefixCode

/-- Looks for a word in a number as `search` does in bits: the place of its symbol, its length. -/
def place (c : PrefixCode) (bits length word first index : Nat) : Nat → Option (Nat × Nat)
  | 0 => none
  | fuel + 1 =>
    let word := 2 * word + bits % 2
    let count := c.counts.getD length 0
    if word < first + count then some (index + (word - first), length)
    else place c (bits / 2) (length + 1) word (2 * (first + count)) (index + count) fuel

/-- A search does not look at what stands behind a word. -/
theorem search_of_place {c : PrefixCode} {bits : UInt64} {low length word first index n m : Nat}
    {r : Nat × Nat} (h : c.place low length word first index n = some r)
    (hlow : bits.toNat % 2 ^ n = low % 2 ^ n) (hm : n ≤ m) :
    c.search bits length word first index m = some (c.symbols.getD r.1 0, r.2) := by
  induction n generalizing bits low length word first index m with
  | zero => exact nomatch h
  | succ n ih =>
    obtain ⟨m, rfl⟩ := Nat.exists_eq_succ_of_ne_zero (show m ≠ 0 by omega)
    -- What agrees in `n + 1` bits agrees in the lowest bit, and in `n` bits without it.
    have hpow : 2 ^ (n + 1) = 2 * 2 ^ n := Nat.pow_succ'
    have hbit : (bits &&& 1).toNat = low % 2 := by
      have hmod := congrArg (· % 2) hlow
      simp only [hpow, Nat.mod_mul_right_mod] at hmod
      rw [UInt64.toNat_and, ← hmod]
      exact Nat.and_one_is_mod _
    have hrest : (bits >>> 1).toNat % 2 ^ n = low / 2 % 2 ^ n := by
      have hdiv := congrArg (· / 2) hlow
      simp only [hpow, Nat.mod_mul_right_div_self] at hdiv
      rw [UInt64.toNat_shiftRight, ← hdiv]
      rfl
    simp only [place] at h
    simp only [search, hbit]
    split at h
    · next hword =>
      rw [if_pos hword, ← Option.some.inj h]
    · next hword =>
      rw [if_neg hword]
      exact ih h hrest (by omega)

/-- A word that was written is found. -/
theorem symbolAt_of_place {c : PrefixCode} {word i n : Nat}
    (hplace : c.place word 1 0 0 0 n = some (i, n)) (hn : n ≤ maxWord) {w : BitWriter}
    (hw : w.Valid) {data : ByteArray} {base : Nat}
    (h : BitWriter.Carried data base (w.push word n)) :
    c.symbolAt data (base + w.length) = some (c.symbols.getD i 0, n) := by
  have hn' : n ≤ 32 := Nat.le_trans hn (by decide)
  have hread := h.bitsAt_push hw hn'
  rw [bitsAt_eq data _ hn', ← toNat_window_mod data _ hn'] at hread
  exact search_of_place hplace hread hn

end PrefixCode

/-! ## Literals and lengths -/

private theorem getD_fixedLengths {s : Nat} (hs : s < 288) :
    fixedLengths.getD s 0 = (fixedWord s).2 := by
  simp only [fixedLengths, Array.getD_eq_getD_getElem?, Array.getElem?_append, Array.size_append,
    Array.size_replicate, Array.getElem?_replicate, fixedWord]
  split_ifs <;> first | rfl | omega

private theorem symbolsOf_fixedLengths (n : Nat) :
    PrefixCode.symbolsOf fixedLengths n =
      (List.range 288).filter fun s => (fixedWord s).2 = n := by
  have hsize : fixedLengths.size = 288 := by simp [fixedLengths]
  rw [PrefixCode.symbolsOf, hsize]
  apply List.filter_congr
  intro s hs
  rw [getD_fixedLengths (List.mem_range.1 hs)]

private theorem groups_fixed :
    ((List.range (maxWord + 1)).map fun n =>
      if n = 0 then [] else (List.range 288).filter fun s => (fixedWord s).2 = n) =
    [[], [], [], [], [], [], [], List.range' 256 24, List.range' 0 144 ++ List.range' 280 8,
      List.range' 144 112, [], [], [], [], [], []] := by
  decide +kernel

/-- The fixed code: words of seven, eight and nine bits. -/
private theorem fixedLiterals_eq :
    fixedLiterals = ⟨#[0, 0, 0, 0, 0, 0, 0, 24, 152, 112, 0, 0, 0, 0, 0, 0],
      (List.range' 256 24 ++ (List.range' 0 144 ++ List.range' 280 8 ++
        List.range' 144 112)).toArray⟩ := by
  simp only [fixedLiterals, PrefixCode.ofLengths, symbolsOf_fixedLengths, groups_fixed]
  rfl

/-- Where a symbol stands in the order of the words. -/
private def rank (s : Nat) : Nat :=
  if s < 144 then 24 + s else if s < 256 then 32 + s else if s < 280 then s - 256 else s - 112

private theorem getD_rank {s : Nat} (hs : s < 288) : fixedLiterals.symbols.getD (rank s) 0 = s := by
  rw [fixedLiterals_eq, rank]
  simp only [Array.getD_eq_getD_getElem?, List.getElem?_toArray, List.getElem?_append,
    List.length_append, List.length_range']
  split_ifs
  all_goals first
    | omega
    | (rw [List.getElem?_range' (by omega)]; simp only [Option.getD_some]; omega)

private theorem place_fixedWord : ∀ s < 288,
    fixedLiterals.place (reverseBits (fixedWord s).2 (fixedWord s).1) 1 0 0 0 (fixedWord s).2 =
      some (rank s, (fixedWord s).2) := by
  rw [fixedLiterals_eq]
  decide +kernel

/-- The length of a word. -/
theorem fixedWord_le (s : Nat) : 7 ≤ (fixedWord s).2 ∧ (fixedWord s).2 ≤ 9 := by
  rw [fixedWord]
  split_ifs <;> simp only [Nat.reduceLeDiff, and_self]

section

variable {w : BitWriter} (hw : w.Valid) {s : Nat} (hs : s < 288)

private theorem pushSymbol_eq (w : BitWriter) {s : Nat} (hs : s < 288) :
    pushSymbol w s = w.push (reverseBits (fixedWord s).2 (fixedWord s).1) (fixedWord s).2 := by
  have hword : fixedWords.getD s (0, 0) =
      (reverseBits (fixedWord s).2 (fixedWord s).1, (fixedWord s).2) := by
    simp [fixedWords, Array.getD_eq_getD_getElem?, hs]
  rw [pushSymbol, hword]

include hw hs

theorem grows_pushSymbol : w.Grows (pushSymbol w s) := by
  have hle := (fixedWord_le s).2
  rw [pushSymbol_eq w hs]
  exact hw.grows_push _ (by omega)

theorem length_pushSymbol : (pushSymbol w s).length = w.length + (fixedWord s).2 := by
  have hle := (fixedWord_le s).2
  rw [pushSymbol_eq w hs, BitWriter.length_push hw _ (by omega)]

/-- A symbol of the fixed code is read back. -/
theorem symbolAt_pushSymbol {data : ByteArray} {base : Nat}
    (h : BitWriter.Carried data base (pushSymbol w s)) :
    fixedLiterals.symbolAt data (base + w.length) = some (s, (fixedWord s).2) := by
  have hle : (fixedWord s).2 ≤ maxWord := Nat.le_trans (fixedWord_le s).2 (by decide)
  rw [pushSymbol_eq w hs] at h
  rw [PrefixCode.symbolAt_of_place (place_fixedWord s hs) hle hw h, getD_rank hs]

end

/-! ## Distances -/

private theorem fixedDistances_eq :
    fixedDistances =
      ⟨#[0, 0, 0, 0, 0, 32, 0, 0, 0, 0, 0, 0, 0, 0, 0, 0], (List.range 32).toArray⟩ := by
  rfl

private theorem place_reverseBits :
    ∀ s < 30, fixedDistances.place (reverseBits 5 s) 1 0 0 0 5 = some (s, 5) := by
  rw [fixedDistances_eq]
  decide +kernel

/-- The symbol of a distance is read back. -/
theorem symbolAt_pushDistance {w : BitWriter} (hw : w.Valid) {s : Nat} (hs : s < 30)
    {data : ByteArray} {base : Nat} (h : BitWriter.Carried data base (w.push (reverseBits 5 s) 5)) :
    fixedDistances.symbolAt data (base + w.length) = some (s, 5) := by
  have hrange : s < 32 := by omega
  rw [PrefixCode.symbolAt_of_place (place_reverseBits s hs) (by decide) hw h, fixedDistances_eq]
  simp [Array.getD_eq_getD_getElem?, hrange]

/-! ## What symbols stand for -/

/-- Every length up to the longest copy has a symbol. -/
theorem contiguous_lengths : Contiguous lengthEntries 259 := by decide

/-- Every distance up to the largest one has a symbol. -/
theorem contiguous_distances : Contiguous distanceEntries 32769 := by decide

end CacheLayer.Compression.Deflate
