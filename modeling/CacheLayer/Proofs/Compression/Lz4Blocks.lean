import CacheLayer.Proofs.Compression.Factoring
import CacheLayer.Proofs.Compression.Lz4
/-!
# LZ4 blocks are decoded

A block has one sequence for each piece of the data and one for the last literals. The encoder keeps
copies so far from the end that every margin a decoder may ask for is there, at whatever pace it
goes, so that each sequence is decoded to its piece.

## Key results

- `Lz4.step_piece`, `Lz4.step_last`: what the decoder makes of one sequence
- `Lz4.decodeWith_encode`: what was encoded is decoded
-/

namespace CacheLayer.Compression.Lz4

/-! ## Lengths -/

theorem size_pushLength (out : ByteArray) (n : Nat) :
    (pushLength out n).size = out.size + if n < 15 then 0 else (n - 15) / 255 + 1 := by
  rw [pushLength]
  split
  · rfl
  · rw [ByteArray.size_push, size_pushTimes, Nat.add_assoc]

/-- What of a length is not in the token is added to what is. -/
private theorem lengthBytes_pushLength {enc out : ByteArray} {n limit fuel : Nat} (sum : Nat)
    (hn : 15 ≤ n) (h : Extends (pushLength out n) enc) (hlimit : (pushLength out n).size ≤ limit)
    (hfuel : (pushLength out n).size ≤ out.size + fuel) :
    lengthBytes enc limit fuel out.size sum =
      some (sum + (n - 15), (pushLength out n).size) := by
  have hsize := size_pushLength out n
  rw [if_neg (by omega)] at hsize
  rw [pushLength, if_neg (by omega)] at h
  -- Bytes of 255 come first, and a smaller one ends them.
  have hfull : ∀ i < (n - 15) / 255, byteAt enc (out.size + i) = 255 := by
    intro i hi
    rw [h.byteAt (by rw [ByteArray.size_push, size_pushTimes]; omega),
      (Extends.push _ _).byteAt (by rw [size_pushTimes]; omega), byteAt_pushTimes _ _ hi]
  have hlast : byteAt enc (out.size + (n - 15) / 255) = ((n - 15) % 255).toUInt8 := by
    rw [h.byteAt (by rw [ByteArray.size_push, size_pushTimes]; omega)]
    have := byteAt_push (pushTimes out 255 ((n - 15) / 255)) ((n - 15) % 255).toUInt8
    rwa [size_pushTimes] at this
  have hlt : (n - 15) % 255 < 255 := Nat.mod_lt _ (by decide)
  have hnat : ((n - 15) % 255).toUInt8.toNat = (n - 15) % 255 := by
    simp [Nat.toUInt8]
    omega
  have hne : ((n - 15) % 255).toUInt8 ≠ 255 := by
    intro h255
    rw [h255] at hnat
    exact absurd hnat (by simp; omega)
  rw [lengthBytes_eq hfull hlast hne (by omega) (by omega), hnat]
  simp only [Option.some.injEq, Prod.mk.injEq]
  omega

/-- The length of a run of literals is read if there is enough behind it. -/
private theorem literalLength_pushLength {enc out : ByteArray} {n : Nat}
    (h : Extends (pushLength out n) enc)
    (hroom : 15 ≤ n → (pushLength out n).size + 15 ≤ enc.size) :
    literalLength enc out.size (nibble n) = some (n, (pushLength out n).size) := by
  have hsize := size_pushLength out n
  rw [literalLength, nibble]
  by_cases hn : n < 15
  · rw [if_pos hn] at hsize
    rw [if_pos (by omega), hsize, Nat.min_eq_left (by omega), Nat.add_zero]
  · rw [if_neg hn] at hsize
    have := hroom (by omega)
    rw [if_neg (by omega), if_neg (by omega),
      lengthBytes_pushLength 15 (by omega) h (by omega) (by omega)]
    simp only [Option.some.injEq, Prod.mk.injEq, and_true]
    omega

/-- The length of a match is read if there is enough behind it. -/
private theorem matchLength_pushLength {enc out : ByteArray} {n : Nat} (hn : 4 ≤ n)
    (h : Extends (pushLength out (n - 4)) enc)
    (hroom : (pushLength out (n - 4)).size + 4 ≤ enc.size) :
    matchLength enc out.size (nibble (n - 4)) = some (n, (pushLength out (n - 4)).size) := by
  have hsize := size_pushLength out (n - 4)
  rw [matchLength, nibble]
  by_cases hsmall : n - 4 < 15
  · rw [if_pos hsmall] at hsize
    rw [if_pos (by omega), hsize]
    simp only [Option.some.injEq, Prod.mk.injEq]
    omega
  · rw [if_neg hsmall] at hsize
    rw [if_neg (by omega), lengthBytes_pushLength 19 (by omega) h (by omega) (by omega)]
    simp only [Option.some.injEq, Prod.mk.injEq, and_true]
    omega

/-! ## Sequences -/

/-- The two halves of a token. -/
private theorem token_halves (n m : Nat) :
    (16 * nibble n + nibble m).toUInt8.toNat / 16 = nibble n ∧
      (16 * nibble n + nibble m).toUInt8.toNat % 16 = nibble m := by
  have hn : nibble n < 16 := by rw [nibble]; omega
  have hm : nibble m < 16 := by rw [nibble]; omega
  have hnat : (16 * nibble n + nibble m).toUInt8.toNat = 16 * nibble n + nibble m := by
    simp [Nat.toUInt8]
    omega
  rw [hnat]
  omega

/-- What a decoder finds at an index of a piece of the data that starts at another index: the
literals begin at `first`, and the sequence ends in front of `next`. -/
structure Sequence (enc data : ByteArray) (start : Nat) (p : Piece) (pos first next : Nat) :
    Prop where
  high : (byteAt enc pos).toNat / 16 = nibble p.literals
  low : (byteAt enc pos).toNat % 16 = nibble (p.length - 4)
  literals : literalLength enc (pos + 1) (nibble p.literals) = some (p.literals, first)
  slice : ∀ out, pushSlice out enc first p.literals = pushSlice out data start p.literals
  distance : littleEndian enc (first + p.literals) 2 = p.distance
  length : matchLength enc (first + p.literals + 2) (nibble (p.length - 4)) = some (p.length, next)
  before : pos < next
  behind : first + p.literals + 2 ≤ next

/-- A piece that was appended is found. -/
private theorem sequence_pushPiece {enc data out : ByteArray} {start : Nat} {p : Piece}
    (h : Extends (pushPiece data start p out) enc) (hfour : 4 ≤ p.length)
    (hdistance : p.distance ≤ 65535) (hslice : start + p.literals ≤ data.size)
    (hroom : (pushPiece data start p out).size + 6 ≤ enc.size) :
    ∃ first, Sequence enc data start p out.size first (pushPiece data start p out).size := by
  -- A piece is written as a token, the literals behind their length, the distance, and the length
  -- of the match. All of it stands in `enc`, since more was only appended.
  let o₁ := out.push (16 * nibble p.literals + nibble (p.length - 4)).toUInt8
  let o₂ := pushLength o₁ p.literals
  let o₃ := pushSlice o₂ data start p.literals
  let o₄ := pushLittleEndian o₃ p.distance 2
  let o₅ := pushLength o₄ (p.length - 4)
  have h₅ : Extends o₅ enc := h
  have h₄ : Extends o₄ enc := (pushLength_extends _ _).trans h₅
  have h₃ : Extends o₃ enc := (Extends.pushLittleEndian _ _ _).trans h₄
  have h₂ : Extends o₂ enc := (Extends.pushSlice _ _ _ _).trans h₃
  have h₁ : Extends o₁ enc := (pushLength_extends _ _).trans h₂
  have hsize₁ : o₁.size = out.size + 1 := ByteArray.size_push
  have hsize₃ : o₃.size = o₂.size + p.literals := size_pushSlice _ hslice
  have hsize₄ : o₄.size = o₃.size + 2 := size_pushLittleEndian _ _ _
  have hle₁ : o₁.size ≤ o₂.size := (pushLength_extends _ _).size_le
  have hle₄ : o₄.size ≤ o₅.size := (pushLength_extends _ _).size_le
  have hroom : o₅.size + 6 ≤ enc.size := hroom
  have htoken : byteAt enc out.size = (16 * nibble p.literals + nibble (p.length - 4)).toUInt8 := by
    rw [h₁.byteAt (by omega), byteAt_push]
  obtain ⟨hhigh, hlow⟩ := token_halves p.literals (p.length - 4)
  refine ⟨o₂.size, ?_⟩
  constructor
  case high => rw [htoken, hhigh]
  case low => rw [htoken, hlow]
  case literals =>
    rw [← hsize₁]
    exact literalLength_pushLength h₂ fun hlong => show o₂.size + 15 ≤ enc.size by omega
  case slice => exact fun o => pushSlice_of_extends o h₃ hslice
  case distance =>
    have hread := littleEndian_pushLittleEndian o₃ p.distance 2
    rw [← hsize₃, h₄.littleEndian (by omega), hread]
    exact Nat.mod_eq_of_lt (by simp; omega)
  case length =>
    rw [← hsize₃, ← hsize₄]
    exact matchLength_pushLength hfour h₅ (show o₅.size + 4 ≤ enc.size by omega)
  case before =>
    show out.size < o₅.size
    omega
  case behind =>
    show o₂.size + p.literals + 2 ≤ o₅.size
    omega

/-! ## Steps of the decoder -/

section

variable {enc data : ByteArray} {start pos first next : Nat} {p : Piece}

/-- The match of a sequence is what comes next in the data. -/
private theorem pushMatch_front (h : p.Fits scope data 0 data.size start) :
    pushMatch (data.extract 0 (start + p.literals)) p.distance p.length =
      data.extract 0 (start + p.literals + p.length) := by
  have hmargin := h.margin
  rw [pushMatch, if_neg (Nat.ne_of_gt h.repeats.positive)]
  exact h.repeats.pushBack_front (by omega)

/-- A match keeps the margin at the end. -/
private theorem walkMatch_piece (h : p.Fits scope data 0 data.size start) (next : Nat) :
    walkMatch data.size next p.distance p.length (data.extract 0 (start + p.literals)) =
      .more ⟨next, data.extract 0 (start + p.literals + p.length), .walk⟩ := by
  have hmargin : start + p.literals + p.length + 5 ≤ data.size := h.margin
  have hreach := h.repeats.reach
  rw [walkMatch, size_front (by omega), if_neg (by omega), pushMatch_front h]

private theorem walkMatchTail_piece (h : p.Fits scope data 0 data.size start)
    (hseq : Sequence enc data start p pos first next) :
    walkMatchTail enc data.size (first + p.literals + 2) p.distance (nibble (p.length - 4))
        (data.extract 0 (start + p.literals)) =
      .more ⟨next, data.extract 0 (start + p.literals + p.length), .walk⟩ := by
  rw [walkMatchTail, hseq.length]
  exact walkMatch_piece h next

/-- The literals of a piece are not the last ones. -/
private theorem walkLiterals_piece (h : p.Fits scope data 0 data.size start)
    (hseq : Sequence enc data start p pos first next) (hroom : next + 6 ≤ enc.size) :
    walkLiterals enc data.size first p.literals (nibble (p.length - 4)) (data.extract 0 start) =
      .more ⟨next, data.extract 0 (start + p.literals + p.length), .walk⟩ := by
  have hspace : start + p.literals + 12 ≤ data.size := h.room
  have hbehind := hseq.behind
  rw [walkLiterals, size_front (by omega), if_neg (by omega)]
  simp only [hseq.distance, hseq.slice, pushSlice_front]
  exact walkMatchTail_piece h hseq

/-- A sequence at walking pace is decoded to its piece. -/
private theorem walkSequence_piece (h : p.Fits scope data 0 data.size start)
    (hseq : Sequence enc data start p pos first next) (hroom : next + 6 ≤ enc.size) :
    walkSequence enc data.size (pos + 1) (nibble p.literals) (nibble (p.length - 4))
        (data.extract 0 start) =
      .more ⟨next, data.extract 0 (start + p.literals + p.length), .walk⟩ := by
  have hspace : start + p.literals + 12 ≤ data.size := h.room
  have hliterals := hseq.literals
  rw [walkSequence]
  split
  · next hshort =>
    -- Few literals are in the token, and so is the length of a short match.
    rw [literalLength, if_pos hshort.1] at hliterals
    obtain ⟨hcount, rfl⟩ := Prod.mk.inj (Option.some.inj hliterals)
    simp only [hcount, hseq.distance, hseq.slice, pushSlice_front]
    split
    · next hmatch =>
      have hlength := hseq.length
      rw [matchLength, if_pos hmatch.1] at hlength
      obtain ⟨hcount, rfl⟩ := Prod.mk.inj (Option.some.inj hlength)
      rw [hcount, pushMatch_front h]
    · exact walkMatchTail_piece h hseq
  · simp only [hliterals]
    exact walkLiterals_piece h hseq hroom

private theorem strideMatch_piece (h : p.Fits scope data 0 data.size start)
    (hseq : Sequence enc data start p pos first next) :
    ∃ pace, strideMatch enc data.size (first + p.literals) (nibble (p.length - 4))
        (data.extract 0 (start + p.literals)) =
      .more ⟨next, data.extract 0 (start + p.literals + p.length), pace⟩ := by
  have hspace : start + p.literals + 12 ≤ data.size := h.room
  have hreach := h.repeats.reach
  simp only [strideMatch, hseq.distance, hseq.length]
  split
  · exact ⟨.walk, walkMatch_piece h next⟩
  · rw [size_front (by omega), if_neg (by omega), pushMatch_front h]
    exact ⟨.stride, rfl⟩

/-- A sequence at striding pace is decoded to its piece. -/
private theorem strideSequence_piece (h : p.Fits scope data 0 data.size start)
    (hseq : Sequence enc data start p pos first next) (hroom : next + 6 ≤ enc.size) :
    ∃ pace, strideSequence enc data.size (pos + 1) (nibble p.literals) (nibble (p.length - 4))
        (data.extract 0 start) =
      .more ⟨next, data.extract 0 (start + p.literals + p.length), pace⟩ := by
  have hstride := strideMatch_piece h hseq
  have hwalk := walkLiterals_piece h hseq hroom
  rw [strideSequence]
  simp only [hseq.literals, hseq.slice, pushSlice_front]
  -- Whether the literals fit decides about the pace, and both paces agree.
  by_cases hshort : nibble p.literals < 15
  · simp only [if_pos hshort]
    split
    · exact hstride
    · exact ⟨.walk, hwalk⟩
  · simp only [if_neg hshort]
    split
    · exact hstride
    · exact ⟨.walk, hwalk⟩

/-- A sequence is decoded to its piece at any pace. -/
theorem step_piece (h : p.Fits scope data 0 data.size start)
    (hseq : Sequence enc data start p pos first next) (hroom : next + 6 ≤ enc.size)
    (pace : Pace) :
    ∃ pace', (decoder enc data.size).step ⟨pos, data.extract 0 start, pace⟩ =
      .more ⟨next, data.extract 0 (start + p.literals + p.length), pace'⟩ := by
  simp only [decoder, hseq.high, hseq.low]
  cases pace with
  | stride => exact strideSequence_piece h hseq hroom
  | walk => exact ⟨.walk, walkSequence_piece h hseq hroom⟩

/-- What a decoder finds at an index of the last literals, which begin at `first`. -/
private structure LastLiterals (enc data : ByteArray) (start pos first : Nat) : Prop where
  high : (byteAt enc pos).toNat / 16 = nibble (data.size - start)
  low : (byteAt enc pos).toNat % 16 = 0
  literals : literalLength enc (pos + 1) (nibble (data.size - start)) =
    some (data.size - start, first)
  bytes : pushSlice (data.extract 0 start) enc first (data.size - start) = data
  size_eq : enc.size = first + (data.size - start)
  first_eq : data.size - start < 15 → first = pos + 1
  first_le : pos + 1 ≤ first

private theorem lastLiterals_pushLast {out : ByteArray} (h : enc = pushLast data start out)
    (hstart : start ≤ data.size) : ∃ first, LastLiterals enc data start out.size first := by
  -- Here there is no match behind the literals, and nothing at all behind these.
  let n := data.size - start
  let o₁ := out.push (16 * nibble n).toUInt8
  let o₂ := pushLength o₁ n
  have hall : start + n = data.size := by omega
  have henc : enc = pushSlice o₂ data start n := h
  have h₃ : Extends (pushSlice o₂ data start n) enc := henc ▸ .refl _
  have h₂ : Extends o₂ enc := (Extends.pushSlice _ _ _ _).trans h₃
  have h₁ : Extends o₁ enc := (pushLength_extends _ _).trans h₂
  have hsize₁ : o₁.size = out.size + 1 := ByteArray.size_push
  have hsize₂ : o₂.size = o₁.size + if n < 15 then 0 else (n - 15) / 255 + 1 :=
    size_pushLength o₁ n
  have hsize : enc.size = o₂.size + n := by rw [henc, size_pushSlice _ hall.le]
  have htoken : byteAt enc out.size = (16 * nibble n).toUInt8 := by
    rw [h₁.byteAt (by omega), byteAt_push]
  obtain ⟨hhigh, hlow⟩ := token_halves n 0
  have hzero : nibble 0 = 0 := rfl
  rw [hzero, Nat.add_zero] at hhigh hlow
  refine ⟨o₂.size, ?_⟩
  constructor
  case high => rw [htoken, hhigh]
  case low => rw [htoken, hlow]
  case literals =>
    rw [← hsize₁]
    apply literalLength_pushLength h₂
    intro hlong
    show o₂.size + 15 ≤ enc.size
    omega
  case bytes =>
    rw [pushSlice_of_extends _ h₃ hall.le, pushSlice_front, hall, ByteArray.extract_zero_size]
  case size_eq => exact hsize
  case first_eq =>
    intro hshort
    rw [hsize₂, if_pos hshort, hsize₁, Nat.add_zero]
  case first_le => omega

/-- The last literals end the block. -/
theorem step_last {out : ByteArray} (h : enc = pushLast data start out)
    (hstart : start ≤ data.size) (pace : Pace) :
    (decoder enc data.size).step ⟨out.size, data.extract 0 start, pace⟩ = .done data := by
  obtain ⟨first, hfound⟩ := lastLiterals_pushLast h hstart
  have hsize := hfound.size_eq
  have hle := hfound.first_le
  have hlast : walkLiterals enc data.size first (data.size - start) 0 (data.extract 0 start) =
      .done data := by
    rw [walkLiterals, size_front hstart, if_pos (by omega), if_pos (by omega), hfound.bytes]
  have hnibble : nibble (data.size - start) = min (data.size - start) 15 := rfl
  simp only [decoder, hfound.high, hfound.low]
  cases pace with
  | stride =>
    simp only [strideSequence, hfound.literals]
    rw [if_neg, hlast]
    split <;> omega
  | walk =>
    rw [walkSequence, if_neg]
    · simp only [hfound.literals, hlast]
    · -- So few literals do not reach so far.
      rintro ⟨hshort, hfar, -⟩
      have hnone := hfound.first_eq (by omega)
      omega

end

/-! ## Blocks -/

private theorem le_size_pushLast (data : ByteArray) (start : Nat) (out : ByteArray)
    (hstart : start ≤ data.size) :
    out.size + 1 + (data.size - start) ≤ (pushLast data start out).size := by
  have hle := (pushLength_extends (out.push (16 * nibble (data.size - start)).toUInt8)
    (data.size - start)).size_le
  rw [ByteArray.size_push] at hle
  rw [pushLast, size_pushSlice _ (by omega)]
  omega

/-- The decoder goes from piece to piece and ends behind the last literals. -/
private theorem run_pieces {enc data : ByteArray} {ps : List Piece} {start rest : Nat}
    (hcover : Covers scope data 0 data.size ps start rest) (hstart : start ≤ data.size)
    {out : ByteArray} (h : enc = pushLast data rest (pushPieces data ps (out, start)).1)
    {fuel : Nat} (hfuel : enc.size < out.size + fuel) (pace : Pace) :
    (decoder enc data.size).run fuel ⟨out.size, data.extract 0 start, pace⟩ = .ok data := by
  -- The output of the decoder and what the encoder has written grow in step, piece by piece.
  induction ps generalizing start out fuel pace with
  | nil =>
    cases hcover
    have h : enc = pushLast data rest out := h
    have hsize := le_size_pushLast data rest out hstart
    rw [← h] at hsize
    obtain ⟨fuel, rfl⟩ := Nat.exists_eq_succ_of_ne_zero (show fuel ≠ 0 by omega)
    exact Decoder.run_done (step_last h hstart pace) fuel
  | cons p ps ih =>
    let out' := pushPiece data start p out
    let behind := pushPieces data ps (out', start + p.literals + p.length)
    have h : enc = pushLast data rest behind.1 := h
    -- At least the last literals are behind the piece.
    have hmargin : rest + 5 ≤ data.size := hcover.margin (List.cons_ne_nil p ps)
    have hlast := le_size_pushLast data rest behind.1 (by omega)
    have hpieces : Extends out' behind.1 := pushPieces_extends data ps _
    have hext : Extends out' enc := h ▸ hpieces.trans (pushLast_extends _ _ _)
    have hle := hpieces.size_le
    rw [← h] at hlast
    cases hcover with
    | cons hfits hcover =>
      have hroom := hfits.room
      have hspace := hfits.margin
      obtain ⟨first, hseq⟩ := sequence_pushPiece hext hfits.four_le hfits.distance_le (by omega)
        (show out'.size + 6 ≤ enc.size by omega)
      have hbefore : out.size < out'.size := hseq.before
      obtain ⟨pace', hstep⟩ := step_piece hfits hseq (show out'.size + 6 ≤ enc.size by omega) pace
      obtain ⟨fuel, rfl⟩ := Nat.exists_eq_succ_of_ne_zero (show fuel ≠ 0 by omega)
      rw [Decoder.run_more hstep]
      exact ih hcover (by omega) h (by omega) pace'

private theorem encode_empty : encode .empty = .ok ⟨#[0, 0, 0, 0, 0]⟩ := rfl

/-- No data is one token without anything behind it, which is looked for without a decoder. -/
private theorem decodeWith_encode_empty {enc : ByteArray} (h : encode .empty = .ok enc) :
    decodeWith decodeBlock none enc = .ok .empty := by
  have hfield := sizeField_encode h
  obtain rfl := Except.ok.inj (encode_empty.symm.trans h)
  rw [decodeWith, if_neg (by decide), hfield]
  rfl

/-- What was encoded is decoded, if there is no limit. -/
theorem decodeWith_encode {data enc : ByteArray} (h : encode data = .ok enc) :
    decodeWith decodeBlock none enc = .ok data := by
  by_cases hempty : data.size = 0
  · obtain rfl := ByteArray.size_eq_zero_iff.1 hempty
    exact decodeWith_encode_empty h
  obtain ⟨-, hmax⟩ := encode_extends h
  have hfield := sizeField_encode h
  obtain ⟨pieces, rest, hfactor, hcover⟩ :=
    factor_covers (show 0 < scope.stride by decide) data 0 data.size
  -- The size stands in front, the pieces behind it.
  let head := pushLittleEndian .empty data.size 4
  let front := (pushPieces data pieces.toList (head, 0)).1
  have henc : enc = pushLast data rest front := by
    rw [encode_eq hmax, hfactor] at h
    exact (Except.ok.inj h).symm
  have hhead : head.size = 4 := size_pushLittleEndian _ _ _
  have hblock : 4 < enc.size := by
    have hpieces : Extends head front := pushPieces_extends data pieces.toList (head, 0)
    have hlast := le_size_pushLast data rest front (hcover.le (Nat.zero_le _)).2
    have hle := hpieces.size_le
    rw [← henc] at hlast
    omega
  -- Whatever pace the decoder starts with, it gets through all pieces.
  have hrun := run_pieces hcover (Nat.zero_le _) henc (show enc.size < head.size + (enc.size + 1) by
    omega) (if data.size < 64 then .walk else .stride)
  rw [hhead, show data.extract 0 0 = .empty by simp] at hrun
  rw [decodeWith, if_neg (by omega), hfield]
  simp only [Int.toNat_natCast]
  rw [if_neg (by simp [Exceeds]), decodeBlock, if_neg hempty, if_neg (by omega)]
  exact hrun

end CacheLayer.Compression.Lz4
