import CacheLayer.Compression.Factoring
import CacheLayer.Proofs.Compression.Bytes
import Mathlib
/-!
# Data from its pieces

The pieces that data is factored into cover it without a gap, and each copy repeats what stands in
front of it. Whoever writes out the literals and carries out the copies has the data again.

## Key results

- `factor_covers`: the pieces cover the data, and what a scope asks for holds of them
- `Repeats.pushBack_front`: a copy is what comes next in the data
- `entryOf_spec`: the entry of a value is the last one whose base is not above it
- `Contiguous.names`: what is not in the base of an entry fits into its extra bits
-/

namespace CacheLayer.Compression

/-! ## Copies -/

/-- Whether some bytes from an index on are those that stand `distance` places before them. -/
structure Repeats (data : ByteArray) (pos distance length : Nat) : Prop where
  positive : 0 < distance
  reach : distance ≤ pos
  same : ∀ m < length, byteAt data (pos + m) = byteAt data (pos + m - distance)

/-- A copy is what comes next in the data. -/
theorem Repeats.pushBack_front {data : ByteArray} {pos distance length : Nat}
    (h : Repeats data pos distance length) (hsize : pos + length ≤ data.size) :
    pushBack (data.extract 0 pos) distance length = data.extract 0 (pos + length) := by
  induction length generalizing pos with
  | zero => rfl
  | succ length ih =>
    have hfront : (data.extract 0 pos).size = pos := size_front (by omega)
    have hpositive := h.positive
    have hreach := h.reach
    -- The byte that is copied stands in front of the index.
    have hbyte : byteAt (data.extract 0 pos) (pos - distance) = byteAt data pos := by
      rw [← (Extends.front (by omega)).byteAt (by omega)]
      exact (h.same 0 (by omega)).symm
    have hrest : Repeats data (pos + 1) distance length := by
      refine ⟨hpositive, by omega, fun m hm => ?_⟩
      have hsame := h.same (m + 1) (by omega)
      rwa [← Nat.add_assoc, Nat.add_right_comm] at hsame
    simp only [pushBack, hfront, if_pos hreach, hbyte]
    rw [push_front (by omega), ih hrest (by omega), Nat.add_assoc, Nat.add_comm 1]

/-! ## Pieces that cover the data -/

section

variable (scope : Scope) (data : ByteArray) (start stop : Nat)

/-- What a scope asks for of a piece at an index: its copy has an allowed length and distance, keeps
away from the end, does not reach in front of the start, and repeats what it says. -/
structure Piece.Fits (pos : Nat) (p : Piece) : Prop where
  four_le : 4 ≤ p.length
  length_le : p.length ≤ scope.maxLength
  distance_le : p.distance ≤ scope.maxDistance
  room : pos + p.literals + scope.room ≤ stop
  margin : pos + p.literals + p.length + scope.margin ≤ stop
  inside : start + p.distance ≤ pos + p.literals
  repeats : Repeats data (pos + p.literals) p.distance p.length

/-- Whether pieces that fit cover the data from one index to another. -/
inductive Covers : List Piece → Nat → Nat → Prop where
  | nil (pos : Nat) : Covers [] pos pos
  | cons {p : Piece} {ps : List Piece} {pos rest : Nat} : p.Fits scope data start stop pos →
    Covers ps (pos + p.literals + p.length) rest → Covers (p :: ps) pos rest

end

variable {scope : Scope} {data : ByteArray} {start stop : Nat}

/-- Pieces never go beyond the end, and every one takes up four bytes at least. -/
theorem Covers.le {ps : List Piece} {pos rest : Nat} (h : Covers scope data start stop ps pos rest)
    (hpos : pos ≤ stop) : pos + 4 * ps.length ≤ rest ∧ rest ≤ stop := by
  induction h with
  | nil pos => simpa using hpos
  | @cons p ps pos rest hfits hrest ih =>
    have hfour := hfits.four_le
    have hmargin := hfits.margin
    have := ih (by omega)
    rw [List.length_cons]
    omega

/-- Behind pieces there is the margin of the scope. -/
theorem Covers.margin {ps : List Piece} {pos rest : Nat}
    (h : Covers scope data start stop ps pos rest) (hne : ps ≠ []) :
    rest + scope.margin ≤ stop := by
  induction h with
  | nil pos => exact absurd rfl hne
  | @cons p ps pos rest hfits hrest ih =>
    cases hrest with
    | nil => exact hfits.margin
    | cons => exact ih (List.cons_ne_nil _ _)

/-! ## Finding copies -/

/-- A table that has been written to. -/
theorem getD_set! (t : Array Nat) {p : Nat} (hp : p < t.size) (p' x : Nat) :
    (t.set! p x).getD p' 0 = if p = p' then x else t.getD p' 0 := by
  by_cases h : p = p'
  · subst h
    simp [Array.getD, hp]
  · rw [if_neg h]
    simp only [Array.getD_eq_getD_getElem?, Array.set!_eq_setIfInBounds,
      Array.getElem?_setIfInBounds_ne h]

theorem getD_replicate (n p : Nat) : (Array.replicate n 0).getD p 0 = 0 := by
  simp [Array.getD]

namespace Factoring

/-- Bytes agree as far as the fuel goes if they do. -/
theorem agreement_eq {data : ByteArray} {i j fuel n : Nat}
    (h : ∀ m < fuel, byteAt data (i + (n + m)) = byteAt data (j + (n + m))) :
    agreement data i j fuel n = n + fuel := by
  induction fuel generalizing n with
  | zero => rfl
  | succ fuel ih =>
    have hrest : ∀ m < fuel, byteAt data (i + (n + 1 + m)) = byteAt data (j + (n + 1 + m)) := by
      intro m hm
      rw [Nat.add_assoc, Nat.add_comm 1]
      exact h (m + 1) (Nat.succ_lt_succ hm)
    have hfirst : byteAt data (i + n) = byteAt data (j + n) := h 0 (Nat.succ_pos _)
    rw [agreement, if_pos hfirst, ih hrest, Nat.add_assoc, Nat.add_comm 1]

section

variable {scope : Scope} {data : ByteArray} {stop fuel pos anchor seen : Nat} {table : Array Nat}
  {acc : Array Piece}

/-- Where nothing is found the search goes on. -/
theorem pieces_miss (hroom : pos + scope.room ≤ stop)
    (hseen : table.getD (place data pos) 0 = seen)
    (hmiss : seen = 0 ∨ copyLength scope data stop (seen - 1) pos = 0) :
    pieces scope data stop (fuel + 1) pos anchor table acc =
      pieces scope data stop fuel (pos + scope.stride) anchor
        (table.set! (place data pos) (pos + 1)) acc := by
  have hlength : (if seen = 0 then 0 else copyLength scope data stop (seen - 1) pos) = 0 := by
    split
    · rfl
    · next hne => exact hmiss.resolve_left hne
  rw [pieces, if_neg (Nat.not_lt.2 hroom)]
  simp only [hseen, hlength, if_pos]

/-- Where something is found the search goes on behind the copy. -/
theorem pieces_hit {length : Nat} (hroom : pos + scope.room ≤ stop)
    (hseen : table.getD (place data pos) 0 = seen) (hne : seen ≠ 0)
    (hlength : copyLength scope data stop (seen - 1) pos = length) (hpos : length ≠ 0) :
    pieces scope data stop (fuel + 1) pos anchor table acc =
      pieces scope data stop fuel (pos + length) (pos + length)
        (table.set! (place data pos) (pos + 1))
        (acc.push ⟨pos - anchor, length, pos + 1 - seen⟩) := by
  rw [pieces, if_neg (Nat.not_lt.2 hroom)]
  simp only [hseen, if_neg hne, hlength, if_neg hpos]

/-- Near the end the search is over. -/
theorem pieces_end (hroom : stop < pos + scope.room) :
    pieces scope data stop (fuel + 1) pos anchor table acc = (acc, anchor) := by
  rw [pieces, if_pos hroom]

end

/-- What agrees agrees byte by byte. -/
private theorem agreement_spec (data : ByteArray) (i j fuel n : Nat) :
    ∃ k ≤ fuel, agreement data i j fuel n = n + k ∧
      ∀ m < k, byteAt data (i + (n + m)) = byteAt data (j + (n + m)) := by
  induction fuel generalizing n with
  | zero => exact ⟨0, Nat.le_refl 0, rfl, fun m hm => absurd hm (Nat.not_lt_zero m)⟩
  | succ fuel ih =>
    rw [agreement]
    split
    · next hsame =>
      obtain ⟨k, hk, heq, hall⟩ := ih (n + 1)
      refine ⟨k + 1, by omega, by omega, fun m hm => ?_⟩
      cases m with
      | zero => exact hsame
      | succ m =>
        have := hall m (by omega)
        rwa [Nat.add_right_comm, Nat.add_assoc] at this
    · exact ⟨0, by omega, rfl, fun m hm => absurd hm (Nat.not_lt_zero m)⟩

/-- A copy that was found fits, behind the literals that were left over. -/
private theorem fits_of_copyLength {source pos anchor : Nat}
    (hne : copyLength scope data stop source pos ≠ 0) (hsource : source < pos)
    (hstart : start ≤ source) (hanchor : anchor ≤ pos) (hroom : pos + scope.room ≤ stop) :
    (⟨pos - anchor, copyLength scope data stop source pos, pos - source⟩ : Piece).Fits
      scope data start stop anchor := by
  have hpos : anchor + (pos - anchor) = pos := by omega
  let limit := min scope.maxLength (stop - scope.margin - pos)
  obtain ⟨k, hk, heq, hall⟩ := agreement_spec data source pos limit 0
  have hlimit : limit ≤ scope.maxLength ∧ limit ≤ stop - scope.margin - pos :=
    ⟨Nat.min_le_left _ _, Nat.min_le_right _ _⟩
  -- A length that is not zero was neither out of reach nor below four.
  have hlength : pos - source ≤ scope.maxDistance ∧ 4 ≤ k ∧
      copyLength scope data stop source pos = k := by
    simp only [copyLength] at hne ⊢
    by_cases hdistance : pos - source ≤ scope.maxDistance
    · simp only [if_pos hdistance, limit] at hne heq ⊢
      rw [heq, Nat.zero_add] at hne ⊢
      by_cases hfour : k < 4
      · simp [hfour] at hne
      · exact ⟨hdistance, by omega, if_neg hfour⟩
    · simp [hdistance] at hne
  obtain ⟨hdistance, hfour, hk'⟩ := hlength
  rw [hk']
  constructor
  case four_le => exact hfour
  case length_le => exact Nat.le_trans hk hlimit.1
  case distance_le => exact hdistance
  case room => simp only [hpos, hroom]
  case margin =>
    simp only [hpos]
    omega
  case inside =>
    simp only [hpos]
    omega
  case repeats =>
    simp only [hpos]
    -- Byte by byte the copy says what stood `pos - source` bytes before it.
    refine ⟨by omega, by omega, fun m hm => ?_⟩
    have := hall m hm
    rw [Nat.zero_add] at this
    rw [show pos + m - (pos - source) = source + m by omega]
    exact this.symm

/-- What the table holds: indices that were passed, each raised by one. -/
private def Remembers (start pos : Nat) (table : Array Nat) : Prop :=
  ∀ i, table.getD i 0 = 0 ∨ (start < table.getD i 0 ∧ table.getD i 0 ≤ pos)

private theorem Remembers.set {pos pos' i : Nat} {table : Array Nat}
    (h : Remembers start pos table) (hi : i < table.size) (hstart : start ≤ pos)
    (hpos : pos < pos') : Remembers start pos' (table.set! i (pos + 1)) := by
  intro j
  have := h j
  rw [getD_set! table hi]
  split <;> omega

/-- The pieces that are found cover the data from the anchor on. -/
private theorem pieces_cover (data : ByteArray) (stop : Nat) (hstride : 0 < scope.stride)
    (fuel : Nat) {pos anchor : Nat} {table : Array Nat} (acc : Array Piece)
    (hsize : table.size = tableSize) (hanchor : anchor ≤ pos) (hstart : start ≤ anchor)
    (htable : Remembers start pos table) :
    ∃ ps, (pieces scope data stop fuel pos anchor table acc).1.toList = acc.toList ++ ps ∧
      Covers scope data start stop ps anchor
        (pieces scope data stop fuel pos anchor table acc).2 := by
  -- The anchor is where the last copy ended: what is between it and `pos` will be literals.
  induction fuel generalizing pos anchor table acc with
  | zero => exact ⟨[], by simp [pieces], .nil anchor⟩
  | succ fuel ih =>
    by_cases hroom : stop < pos + scope.room
    · rw [pieces_end hroom]
      exact ⟨[], by simp, .nil anchor⟩
    · have hplace : place data pos < table.size := by
        rw [hsize]
        exact Nat.mod_lt _ (by decide)
      have hsize' : (table.set! (place data pos) (pos + 1)).size = tableSize := by simpa using hsize
      obtain ⟨seen, hseen⟩ : ∃ seen, table.getD (place data pos) 0 = seen := ⟨_, rfl⟩
      by_cases hmiss : seen = 0 ∨ copyLength scope data stop (seen - 1) pos = 0
      · rw [pieces_miss (by omega) hseen hmiss]
        exact ih acc hsize' (by omega) hstart (htable.set hplace (by omega) (by omega))
      · -- The index in the table was passed, so that a copy of what stands there can be made.
        obtain ⟨hne, hlength⟩ := not_or.1 hmiss
        have hpassed := (htable (place data pos)).resolve_left (hseen ▸ hne)
        rw [hseen] at hpassed
        have hfits : (⟨pos - anchor, copyLength scope data stop (seen - 1) pos,
            pos - (seen - 1)⟩ : Piece).Fits scope data start stop anchor :=
          fits_of_copyLength hlength (by omega) (by omega) hanchor (by omega)
        have hfour := hfits.four_le
        simp only at hfour
        rw [show pos - (seen - 1) = pos + 1 - seen by omega] at hfits
        let pos' := pos + copyLength scope data stop (seen - 1) pos
        have hstart' : start ≤ pos' := by omega
        have htable' : Remembers start pos' (table.set! (place data pos) (pos + 1)) :=
          htable.set hplace (by omega) (by omega)
        rw [pieces_hit (by omega) hseen hne rfl hlength]
        obtain ⟨ps, hps, hcover⟩ := ih (acc.push _) hsize' (Nat.le_refl pos') hstart' htable'
        refine ⟨_ :: ps, ?_, .cons hfits ?_⟩
        · rw [hps, Array.toList_push, List.append_assoc]
          rfl
        · rw [show anchor + (pos - anchor) = pos by omega]
          exact hcover

end Factoring

/-- The pieces of data cover it up to its last literals. -/
theorem factor_covers (hstride : 0 < scope.stride) (data : ByteArray) (start stop : Nat) :
    ∃ pieces rest, factor scope data start stop = (pieces, rest) ∧
      Covers scope data start stop pieces.toList start rest := by
  have hempty : Factoring.Remembers start start (Array.replicate Factoring.tableSize 0) :=
    fun i => .inl (getD_replicate _ i)
  obtain ⟨ps, hps, hcover⟩ := Factoring.pieces_cover data stop hstride
    (stop - start) #[] Array.size_replicate (Nat.le_refl start) (Nat.le_refl start) hempty
  refine ⟨_, _, rfl, ?_⟩
  rw [hps]
  exact hcover

/-! ## Entries -/

/-- The entry of a value is the last one whose base is not above it. -/
theorem entryOf_spec {entries : Array (Nat × Nat)} {value : Nat} {e : Nat × Nat}
    (hfirst : entries[0]? = some e) (hvalue : e.1 ≤ value) :
    ∃ base extra, entries[entryOf entries value]? = some (base, extra) ∧ base ≤ value ∧
      ∀ i e', entryOf entries value < i → entries[i]? = some e' → value < e'.1 := by
  let small : Nat × Nat → Bool := fun e => e.1 ≤ value
  let back := entries.reverse.findIdx small
  have hback : back < entries.reverse.size := by
    refine Array.findIdx_lt_size_of_exists ⟨e, ?_, by simpa [small] using hvalue⟩
    rw [Array.mem_reverse]
    exact Array.mem_of_getElem? hfirst
  have hfound : small entries.reverse[back] = true := Array.findIdx_getElem
  have hentry : entryOf entries value = entries.size - 1 - back := rfl
  have hlt : entries.size - 1 - back < entries.size := by
    rw [Array.size_reverse] at hback
    omega
  refine ⟨entries[entries.size - 1 - back].1, entries[entries.size - 1 - back].2, ?_, ?_, ?_⟩
  · rw [hentry]
    exact Array.getElem?_eq_getElem hlt
  · simpa [small, Array.getElem_reverse] using hfound
  · intro i e' hi he'
    obtain ⟨hi', rfl⟩ := Array.getElem?_eq_some_iff.1 he'
    rw [hentry] at hi
    -- Counted from the back, the index comes before the one that was found.
    have hbefore : entries.size - 1 - i < back := by omega
    have hnot := Array.not_of_lt_findIdx hbefore
    simpa [small, Array.getElem_reverse,
      show entries.size - 1 - (entries.size - 1 - i) = i by omega] using hnot

/-- Whether every number from the base of the first entry up to a limit is the base of an entry plus
what fits into its extra bits. -/
def Contiguous (entries : Array (Nat × Nat)) (limit : Nat) : Prop :=
  ∀ i < entries.size, (entries.getD i (0, 0)).2 ≤ 16 ∧
    (entries.getD (i + 1) (limit, 0)).1 ≤
      (entries.getD i (0, 0)).1 + 2 ^ (entries.getD i (0, 0)).2

instance (entries : Array (Nat × Nat)) (limit : Nat) : Decidable (Contiguous entries limit) :=
  inferInstanceAs (Decidable (∀ i < entries.size, _))

/-- Whether a number is the base of an entry plus what is in its extra bits. -/
structure Names (entries : Array (Nat × Nat)) (value i base extra : Nat) : Prop where
  entry : entries[i]? = some (base, extra)
  extra_le : extra ≤ 16
  value_eq : base + (value - base) % 2 ^ extra = value

section

variable {entries : Array (Nat × Nat)} {value i base extra : Nat}

theorem Names.lt_size (h : Names entries value i base extra) : i < entries.size :=
  (Array.getElem?_eq_some_iff.1 h.entry).1

theorem Names.getD_eq (h : Names entries value i base extra) :
    entries.getD i (0, 0) = (base, extra) := by
  rw [Array.getD_eq_getD_getElem?, h.entry, Option.getD_some]

/-- A number is named by its entry: what is not in the base fits into the extra bits. -/
theorem Contiguous.names {limit : Nat} {e : Nat × Nat} (h : Contiguous entries limit)
    (hfirst : entries[0]? = some e) (hvalue : e.1 ≤ value) (hlimit : value < limit) :
    ∃ base extra, Names entries value (entryOf entries value) base extra := by
  obtain ⟨base, extra, hentry, hbase, hnext⟩ := entryOf_spec hfirst hvalue
  obtain ⟨hlt, heq⟩ := Array.getElem?_eq_some_iff.1 hentry
  let i := entryOf entries value
  have hthis : entries.getD i (0, 0) = (base, extra) := by
    rw [Array.getD_eq_getD_getElem?, hentry]
    rfl
  obtain ⟨hextra, hgap⟩ := h i hlt
  rw [hthis] at hextra hgap
  -- The number is below the next base, or below the limit if there is none.
  have hbelow : value < (entries.getD (i + 1) (limit, 0)).1 := by
    rw [Array.getD_eq_getD_getElem?]
    cases hsucc : entries[i + 1]? with
    | none => exact hlimit
    | some e' => exact hnext (i + 1) e' (Nat.lt_succ_self i) hsucc
  have hfits : value - base < 2 ^ extra := by
    simp only at hgap
    omega
  refine ⟨base, extra, hentry, hextra, ?_⟩
  rw [Nat.mod_eq_of_lt hfits]
  omega

end

end CacheLayer.Compression
