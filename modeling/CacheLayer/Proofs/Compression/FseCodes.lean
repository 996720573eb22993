import CacheLayer.Compression.Zstd.Encode
import CacheLayer.Proofs.Compression.Bits
import CacheLayer.Proofs.Compression.Factoring
import Mathlib
/-!
# Streams that are read backwards

A stream of a zstd block is read from its end: what was written last is read first, and what is left
is what had been written before. States are found against the direction in which they are read: from
the state that follows, a state is found that leads there.

## Key results

- `Zstd.BackwardBits.peek_push`: what was written last is read first
- `Zstd.BackwardBits.ofSection_finish`: the mark at the end of a stream is found
- `Zstd.FseTable.Linked.stateBefore`: every state is reached from a state of every symbol
-/

namespace CacheLayer.Compression.Zstd

/-! ## Bits -/

namespace BackwardBits

/-- The stream from whose end everything is left that a writer has written. -/
def behind (base : Nat) (w : BitWriter) : BackwardBits := ⟨base, w.length⟩

theorem atEnd_behind_empty (base : Nat) : (behind base {}).AtEnd := rfl

section

variable {w : BitWriter} (hw : w.Valid) {data : ByteArray} {base v n : Nat} (hn : n ≤ 32)
include hw hn

/-- What was written last is read first. -/
theorem peek_push (h : BitWriter.Carried data base (w.push v n)) :
    (behind base (w.push v n)).peek data n = v % 2 ^ n := by
  have hlength := BitWriter.length_push hw v hn
  have hleft : (n : Int) ≤ (behind base (w.push v n)).left := by
    simp only [behind, hlength]
    omega
  rw [peek, if_pos hleft]
  simp only [behind, hlength, Int.toNat_natCast, Nat.add_sub_cancel]
  exact h.bitsAt_push hw hn

/-- Behind it there is what was written before. -/
theorem skip_push (base v : Nat) : (behind base (w.push v n)).skip n = behind base w := by
  simp only [skip, behind, BitWriter.length_push hw v hn]
  congr 1
  omega

end

/-- The mark at the end of a stream is found. -/
theorem ofSection_finish {w : BitWriter} (hw : w.Valid) {pre data : ByteArray}
    (h : Extends (pre ++ (w.push 1 1).finish) data) :
    ofSection data pre.size (pre ++ (w.push 1 1).finish).size =
      some (behind (8 * pre.size) w) := by
  have hmarked : (w.push 1 1).Valid := hw.push 1 (by decide)
  have hsize := BitWriter.size_finish hmarked
  rw [BitWriter.length_push hw 1 (by decide)] at hsize
  let q := w.length / 8
  let r := w.length % 8
  have hlength : w.length = 8 * q + r := (Nat.div_add_mod w.length 8).symm
  have hr : r < 8 := Nat.mod_lt _ (by decide)
  have hall : (pre ++ (w.push 1 1).finish).size = pre.size + q + 1 := by
    rw [ByteArray.size_append]
    omega
  have hvalue : w.value < 2 ^ (8 * q) * 2 ^ r := by
    rw [← pow_add, ← hlength]
    exact hw.value_lt
  obtain ⟨x, hx⟩ : ∃ x, w.value / 2 ^ (8 * q) = x := ⟨_, rfl⟩
  have hrest : x < 2 ^ r := hx ▸ Nat.div_lt_of_lt_mul hvalue
  have hmax : 2 ^ r ≤ 2 ^ 7 := Nat.pow_le_pow_right (by decide) (by omega)
  -- The last byte holds the bits that do not fill a byte, and the mark above them.
  have hlast : (byteAt data (pre.size + q)).toNat = x + 2 ^ r := by
    have hbyte : byteAt data (pre.size + q) = byteAt (w.push 1 1).finish q := by
      rw [h.byteAt (by omega), byteAt_append_right]
    have hone : (byteAt (w.push 1 1).finish q).toNat =
        number (w.push 1 1).finish / 2 ^ (8 * q) % 2 ^ 8 :=
      littleEndian_eq_number (w.push 1 1).finish q 1
    rw [hbyte, hone, BitWriter.number_finish hmarked, BitWriter.value_push hw 1 (by decide),
      hlength, pow_add, Nat.mul_assoc, Nat.add_mul_div_left _ _ (by positivity), hx]
    omega
  have hne : byteAt data (pre.size + q) ≠ 0 := by
    intro hzero
    have hpos : 0 < 2 ^ r := by positivity
    rw [hzero, show (0 : UInt8).toNat = 0 from rfl] at hlast
    omega
  -- So the highest bit of the last byte tells how many bits are below the mark.
  have hlog : (byteAt data (pre.size + q)).toNat.log2 = r := by
    rw [hlast, Nat.log2_eq_iff (by omega), pow_succ]
    omega
  rw [ofSection, if_neg (by omega), hall, Nat.add_sub_cancel]
  simp only [if_neg hne, hlog, behind]
  congr 2
  omega

end BackwardBits

/-! ## States -/

namespace FseTable

/-- Whether the states of each symbol lead to all states: the states that they lead to follow each
other without a gap. -/
def Linked (t : FseTable) (symbols : Nat) : Prop :=
  t.cells.size = 2 ^ t.log ∧
  (∀ s < symbols, ∃ c ∈ t.cells.toList, c.symbol = s ∧ c.base = 0) ∧
  ∀ c ∈ t.cells.toList, c.bits ≤ 32 ∧ (c.base + 2 ^ c.bits = 2 ^ t.log ∨
    ∃ c' ∈ t.cells.toList, c'.symbol = c.symbol ∧ c'.base = c.base + 2 ^ c.bits)

instance (t : FseTable) (symbols : Nat) : Decidable (t.Linked symbols) :=
  inferInstanceAs (Decidable (_ ∧ _ ∧ _))

variable {t : FseTable} {symbols s next : Nat}

/-- Every state is reached from a state of every symbol. -/
theorem Linked.exists_cell (h : t.Linked symbols) (hs : s < symbols) (hnext : next < 2 ^ t.log) :
    ∃ c ∈ t.cells.toList, c.symbol = s ∧ c.base ≤ next ∧ next < c.base + 2 ^ c.bits := by
  obtain ⟨-, hfirst, hlinks⟩ := h
  induction next with
  | zero =>
    obtain ⟨c, hc, hsymbol, hbase⟩ := hfirst s hs
    have hpos : 0 < 2 ^ c.bits := by positivity
    exact ⟨c, hc, hsymbol, by omega, by omega⟩
  | succ next ih =>
    obtain ⟨c, hc, hsymbol, hle, hlt⟩ := ih (by omega)
    by_cases hsame : next + 1 < c.base + 2 ^ c.bits
    · exact ⟨c, hc, hsymbol, by omega, hsame⟩
    · -- The state is the first one behind those that the cell leads to.
      obtain hend | ⟨c', hc', hsymbol', hbase'⟩ := (hlinks c hc).2
      · omega
      · have hpos : 0 < 2 ^ c'.bits := by positivity
        exact ⟨c', hc', hsymbol'.trans hsymbol, by omega, by omega⟩

/-- The first cell that has a property. -/
private theorem cell_findIdx {p : FseCell → Bool} (h : ∃ c ∈ t.cells.toList, p c = true) :
    t.cells.findIdx p < t.cells.size ∧ p (t.cell (t.cells.findIdx p)) = true ∧
      t.cell (t.cells.findIdx p) ∈ t.cells.toList := by
  obtain ⟨c, hc, hp⟩ := h
  have hlt : t.cells.findIdx p < t.cells.size :=
    Array.findIdx_lt_size_of_exists ⟨c, Array.mem_toList_iff.1 hc, hp⟩
  have hcell : t.cell (t.cells.findIdx p) = t.cells[t.cells.findIdx p] := by
    rw [cell, Array.getD_eq_getD_getElem?, Array.getElem?_eq_getElem hlt, Option.getD_some]
  rw [hcell]
  exact ⟨hlt, Array.findIdx_getElem, Array.mem_toList_iff.2 (Array.getElem_mem hlt)⟩

/-- Whether a state of the code has a symbol. -/
structure Holds (t : FseTable) (state symbol : Nat) : Prop where
  state_lt : state < 2 ^ t.log
  symbol_eq : (t.cell state).symbol = symbol

/-- What is found in front of a state: a state of the symbol, and the number that leads on. -/
structure Before (t : FseTable) (symbol next state rest bits : Nat) : Prop where
  holds : t.Holds state symbol
  bits_eq : (t.cell state).bits = bits
  bits_le : bits ≤ 32
  rest_lt : rest < 2 ^ bits
  next_eq : (t.cell state).base + rest = next

theorem Linked.stateBefore (h : t.Linked symbols) (hs : s < symbols) (hnext : next < 2 ^ t.log) :
    ∃ state rest bits, Zstd.stateBefore t s next = (state, rest, bits) ∧
      t.Before s next state rest bits := by
  obtain ⟨c, hc, hcell⟩ := h.exists_cell hs hnext
  -- The first cell of the symbol whose states reach `next`: there is one, as the table is linked.
  obtain ⟨hlt, hp, hmem⟩ := cell_findIdx (t := t)
    (p := fun c => c.symbol = s ∧ c.base ≤ next ∧ next < c.base + (1 <<< c.bits))
    ⟨c, hc, by simpa [Nat.one_shiftLeft] using hcell⟩
  obtain ⟨hsymbol, hbase, hreach⟩ := of_decide_eq_true hp
  rw [Nat.one_shiftLeft] at hreach
  refine ⟨_, _, _, rfl, ?_⟩
  constructor
  case holds => exact ⟨h.1 ▸ hlt, hsymbol⟩
  case bits_eq => rfl
  case bits_le => exact (h.2.2 _ hmem).1
  case rest_lt => omega
  case next_eq => omega

theorem Linked.stateOf (h : t.Linked symbols) (hs : s < symbols) :
    t.Holds (Zstd.stateOf t s) s := by
  obtain ⟨c, hc, hsymbol, -⟩ := h.2.1 s hs
  obtain ⟨hlt, hp, -⟩ := cell_findIdx (t := t) (p := fun c => c.symbol = s)
    ⟨c, hc, by simpa using hsymbol⟩
  exact ⟨h.1 ▸ hlt, of_decide_eq_true hp⟩

end FseTable

/-! ## The standard codes -/

private theorem log_ofDistribution (d : Distribution) : (FseTable.ofDistribution d).log = d.log :=
  rfl

/-- How many bits a state has. -/
theorem log_standard :
    standardLiteralLengthTable.log = 6 ∧ standardOffsetTable.log = 5 ∧
      standardMatchLengthTable.log = 6 :=
  ⟨log_ofDistribution _, log_ofDistribution _, log_ofDistribution _⟩

-- The tables are evaluated by the kernel: each has at most 64 cells.
theorem linked_literalLengths : standardLiteralLengthTable.Linked 36 := by decide +kernel

theorem linked_matchLengths : standardMatchLengthTable.Linked 53 := by decide +kernel

theorem linked_offsets : standardOffsetTable.Linked 29 := by decide +kernel

/-- Every number of literals in a block has a symbol. -/
theorem contiguous_literalLengths : Contiguous literalLengthEntries 131072 := by decide

/-- Every length of a copy has a symbol. -/
theorem contiguous_matchLengths : Contiguous matchLengthEntries 131075 := by decide

end CacheLayer.Compression.Zstd
