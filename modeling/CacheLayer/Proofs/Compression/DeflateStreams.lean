import CacheLayer.Compression.Deflate.Decode
import CacheLayer.Proofs.Compression.Bounded
import CacheLayer.Proofs.Compression.FixedCode
import Mathlib
/-!
# Deflate streams that are read back

A decoder goes through a stream as it was written: from stored block to stored block, or from symbol
to symbol of the one block in the fixed code. Each of its steps passes over some bits, which is why
it never takes more steps than there are bits.

## Key results

- `Deflate.Ends.run`: a stream that ends is decoded
- `Deflate.next_literal`, `Deflate.next_copy`, `Deflate.next_end`: what one symbol leads to
- `Deflate.ends_compress`: the stream that was written ends with the data
- `Deflate.readToEnd_feed_encode`: what was encoded is decoded
-/

namespace CacheLayer.Compression.Deflate

/-! ## Streams that end -/

/-- Whether the decoder comes from a state to the end of the stream in front of the bit `stop`, with
an output. -/
inductive Ends (enc : ByteArray) (stop : Nat) (out : ByteArray) : State → Prop where
  | ended {s : State} : s.next enc = .ended stop out → s.pos < stop → Ends enc stop out s
  | more {s s' : State} : s.next enc = .more s' → s.pos < s'.pos → Ends enc stop out s' →
    Ends enc stop out s

variable {enc data out : ByteArray} {stop : Nat} {s : State}

theorem Ends.pos_lt (h : Ends enc stop out s) : s.pos < stop := by
  induction h with
  | ended _ hpos => exact hpos
  | more _ hpos _ ih => exact Nat.lt_trans hpos ih

/-- A stream that ends is decoded. -/
theorem Ends.run (h : Ends enc stop out s) {fuel : Nat} (hfuel : stop ≤ s.pos + fuel) :
    (decoder enc).run fuel s = .ok out := by
  induction h generalizing fuel with
  | @ended s hnext hpos =>
    obtain ⟨fuel, rfl⟩ := Nat.exists_eq_succ_of_ne_zero (show fuel ≠ 0 by omega)
    have hstep : (decoder enc).step s = .done out := by simp only [decoder, hnext]
    exact Decoder.run_done hstep fuel
  | @more s s' hnext hpos hrest ih =>
    have hlt := hrest.pos_lt
    obtain ⟨fuel, rfl⟩ := Nat.exists_eq_succ_of_ne_zero (show fuel ≠ 0 by omega)
    have hstep : (decoder enc).step s = .more s' := by simp only [decoder, hnext]
    rw [Decoder.run_more hstep]
    exact ih (by omega)

/-! ## Symbols of the block -/

/-- The decoder inside of the one block in the fixed code. -/
def inBlock (pos : Nat) (out : ByteArray) : State :=
  ⟨pos, out, .symbols fixedLiterals fixedDistances true⟩

private theorem next_inBlock (enc : ByteArray) (pos : Nat) (out : ByteArray) :
    (inBlock pos out).next enc = blockSymbol enc fixedLiterals fixedDistances true pos out := by
  simp only [State.next, inBlock]

section

variable {w : BitWriter} {base : Nat}

/-- A literal is appended. -/
theorem next_literal (hw : w.Valid) {b : UInt8}
    (h : BitWriter.Carried enc base (pushSymbol w b.toNat)) (out : ByteArray) :
    (inBlock (base + w.length) out).next enc =
      .more (inBlock (base + (pushSymbol w b.toNat).length) (out.push b)) := by
  have hb : b.toNat < 256 := UInt8.toNat_lt b
  have hs : b.toNat < 288 := by omega
  have hlength := length_pushSymbol hw hs
  have hinside := h.inside
  have hfits : ¬ 8 * enc.size < base + w.length + (fixedWord b.toNat).2 := by omega
  have hbyte : b.toNat.toUInt8 = b := UInt8.ofNat_toNat
  rw [next_inBlock, blockSymbol, symbolAt_pushSymbol hw hs h]
  simp only [if_neg hfits]
  rw [if_pos (show b.toNat < endOfBlock from hb), hbyte, hlength, Nat.add_assoc, inBlock]

/-- The last symbol ends the stream. -/
theorem next_end (hw : w.Valid) (h : BitWriter.Carried enc base (pushSymbol w endOfBlock))
    (out : ByteArray) :
    (inBlock (base + w.length) out).next enc =
      .ended (base + (pushSymbol w endOfBlock).length) out := by
  have hs : endOfBlock < 288 := by decide
  have hlength := length_pushSymbol hw hs
  have hinside := h.inside
  have hfits : ¬ 8 * enc.size < base + w.length + (fixedWord endOfBlock).2 := by omega
  rw [next_inBlock, blockSymbol, symbolAt_pushSymbol hw hs h]
  simp only [if_neg hfits]
  rw [if_neg (Nat.lt_irrefl _), if_pos trivial, hlength, Nat.add_assoc, closeBlock, if_pos rfl]

/-- How a copy is written: the symbols of its length and distance, each with its extra bits. -/
private theorem pushCopy_spec (w : BitWriter) {length distance : Nat}
    (hlength : 3 ≤ length ∧ length ≤ 258) (hdistance : 1 ≤ distance ∧ distance ≤ 32768) :
    ∃ i base₁ extra₁ j base₂ extra₂,
      Names lengthEntries length i base₁ extra₁ ∧ Names distanceEntries distance j base₂ extra₂ ∧
      pushCopy w length distance =
        (((pushSymbol w (endOfBlock + 1 + i)).push (length - base₁) extra₁).push
          (reverseBits 5 j) 5).push (distance - base₂) extra₂ := by
  obtain ⟨base₁, extra₁, hname₁⟩ :=
    contiguous_lengths.names rfl hlength.1 (show length < 259 by omega)
  obtain ⟨base₂, extra₂, hname₂⟩ :=
    contiguous_distances.names rfl hdistance.1 (show distance < 32769 by omega)
  refine ⟨_, base₁, extra₁, _, base₂, extra₂, hname₁, hname₂, ?_⟩
  simp only [pushCopy, hname₁.getD_eq, hname₂.getD_eq]

private theorem symbol_lt {value i lengthBase extra : Nat}
    (h : Names lengthEntries value i lengthBase extra) : endOfBlock + 1 + i < 288 := by
  have hi : i < 29 := h.lt_size
  rw [endOfBlock]
  omega

/-- A copy takes up some bits. -/
theorem grows_pushCopy (hw : w.Valid) {length distance : Nat}
    (hlength : 3 ≤ length ∧ length ≤ 258) (hdistance : 1 ≤ distance ∧ distance ≤ 32768) :
    w.Grows (pushCopy w length distance) ∧ w.length < (pushCopy w length distance).length := by
  obtain ⟨i, base₁, extra₁, j, base₂, extra₂, hname₁, hname₂, heq⟩ :=
    pushCopy_spec w hlength hdistance
  have hextra₁ := hname₁.extra_le
  have hextra₂ := hname₂.extra_le
  have hseven := (fixedWord_le (endOfBlock + 1 + i)).1
  have hsize := length_pushSymbol hw (symbol_lt hname₁)
  have h₁ := grows_pushSymbol hw (symbol_lt hname₁)
  have h₂ := h₁.valid.grows_push (length - base₁) (show extra₁ ≤ 32 by omega)
  have h₃ := h₂.trans (h₂.valid.grows_push (reverseBits 5 j) (show 5 ≤ 32 by decide))
  have h₄ := h₃.trans (h₃.valid.grows_push (distance - base₂) (show extra₂ ≤ 32 by omega))
  have hle := h₄.length_le
  rw [heq]
  exact ⟨h₁.trans h₄, by omega⟩

/-- Behind the symbol of a length and its extra bits there is the distance. -/
private theorem next_length (hw : w.Valid) {length i lengthBase extra : Nat}
    (hname : Names lengthEntries length i lengthBase extra)
    (h : BitWriter.Carried enc base
      ((pushSymbol w (endOfBlock + 1 + i)).push (length - lengthBase) extra)) (out : ByteArray) :
    (inBlock (base + w.length) out).next enc =
      copyMatch enc fixedLiterals fixedDistances true
        (base + ((pushSymbol w (endOfBlock + 1 + i)).push (length - lengthBase) extra).length)
        length out := by
  have hsymbol := symbol_lt hname
  have hextra : extra ≤ 32 := Nat.le_trans hname.extra_le (by decide)
  have hw₁ := (grows_pushSymbol hw hsymbol).valid
  have h₁ := h.of_push hw₁ hextra
  have hread := h.bitsAt_push hw₁ hextra
  have hinside := h₁.inside
  have hpos : base + w.length + (fixedWord (endOfBlock + 1 + i)).2 =
      base + (pushSymbol w (endOfBlock + 1 + i)).length := by
    rw [length_pushSymbol hw hsymbol, Nat.add_assoc]
  have hfits : ¬ 8 * enc.size < base + (pushSymbol w (endOfBlock + 1 + i)).length := by omega
  -- The symbol is neither a literal nor the end of the block.
  have hnot : ¬ endOfBlock + 1 + i < endOfBlock ∧ endOfBlock + 1 + i ≠ endOfBlock := by omega
  have hsub : endOfBlock + 1 + i - (endOfBlock + 1) = i := by omega
  rw [next_inBlock, blockSymbol, symbolAt_pushSymbol hw hsymbol h₁]
  simp only [hpos, if_neg hfits, if_neg hnot.1, if_neg hnot.2, hsub, hname.entry, hread,
    hname.value_eq]
  rw [BitWriter.length_push hw₁ _ hextra, Nat.add_assoc]

/-- Behind the symbol of a distance and its extra bits the copy is carried out. -/
private theorem copyMatch_distance (hw : w.Valid) {distance j distanceBase extra : Nat}
    (hname : Names distanceEntries distance j distanceBase extra)
    (h : BitWriter.Carried enc base
      ((w.push (reverseBits 5 j) 5).push (distance - distanceBase) extra)) (length : Nat)
    (out : ByteArray) :
    copyMatch enc fixedLiterals fixedDistances true (base + w.length) length out =
      .more (inBlock
        (base + ((w.push (reverseBits 5 j) 5).push (distance - distanceBase) extra).length)
        (pushBack out distance length)) := by
  have hj : j < 30 := hname.lt_size
  have hextra : extra ≤ 32 := Nat.le_trans hname.extra_le (by decide)
  have hw₁ := hw.push (reverseBits 5 j) (show 5 ≤ 32 by decide)
  have hread := h.bitsAt_push hw₁ hextra
  have hinside := h.inside
  have hlength := BitWriter.length_push hw₁ (distance - distanceBase) hextra
  have hpos : base + w.length + 5 = base + (w.push (reverseBits 5 j) 5).length := by
    rw [BitWriter.length_push hw _ (by decide), Nat.add_assoc]
  have hfits : ¬ 8 * enc.size < base + (w.push (reverseBits 5 j) 5).length + extra := by omega
  rw [copyMatch, symbolAt_pushDistance hw hj (h.of_push hw₁ hextra)]
  simp only [hname.entry, hpos, hread, hname.value_eq, if_neg hfits]
  rw [hlength, Nat.add_assoc, inBlock]

/-- A copy is carried out. -/
theorem next_copy (hw : w.Valid) {length distance : Nat} (hlength : 3 ≤ length ∧ length ≤ 258)
    (hdistance : 1 ≤ distance ∧ distance ≤ 32768)
    (h : BitWriter.Carried enc base (pushCopy w length distance)) (out : ByteArray) :
    (inBlock (base + w.length) out).next enc =
      .more (inBlock (base + (pushCopy w length distance).length)
        (pushBack out distance length)) := by
  obtain ⟨i, base₁, extra₁, j, base₂, extra₂, hname₁, hname₂, heq⟩ :=
    pushCopy_spec w hlength hdistance
  have hextra₁ : extra₁ ≤ 32 := Nat.le_trans hname₁.extra_le (by decide)
  have hextra₂ : extra₂ ≤ 32 := Nat.le_trans hname₂.extra_le (by decide)
  have hw₁ := (grows_pushSymbol hw (symbol_lt hname₁)).valid
  have hw₂ := hw₁.push (length - base₁) hextra₁
  have hw₃ := hw₂.push (reverseBits 5 j) (show 5 ≤ 32 by decide)
  rw [heq] at h ⊢
  have h₂ := (h.of_push hw₃ hextra₂).of_push hw₂ (by decide)
  rw [next_length hw hname₁ h₂, copyMatch_distance hw₂ hname₂ h]

/-- Literals that are written are appended one by one. -/
theorem grows_pushLiterals (hw : w.Valid) (data : ByteArray) (start n : Nat) :
    w.Grows (pushLiterals data start w n) := by
  induction n generalizing w start with
  | zero => exact hw.grows
  | succ n ih =>
    have hb : (byteAt data start).toNat < 256 := UInt8.toNat_lt _
    have h := grows_pushSymbol hw (show (byteAt data start).toNat < 288 by omega)
    exact h.trans (ih h.valid (start + 1))

theorem ends_pushLiterals (hw : w.Valid) {start n : Nat} (hsize : start + n ≤ data.size)
    (h : BitWriter.Carried enc base (pushLiterals data start w n))
    (hends : Ends enc stop out (inBlock (base + (pushLiterals data start w n).length)
      (data.extract 0 (start + n)))) :
    Ends enc stop out (inBlock (base + w.length) (data.extract 0 start)) := by
  induction n generalizing w start with
  | zero => exact hends
  | succ n ih =>
    have hb : (byteAt data start).toNat < 256 := UInt8.toNat_lt _
    have hs : (byteAt data start).toNat < 288 := by omega
    have hgrows := grows_pushSymbol hw hs
    have hlength := length_pushSymbol hw hs
    -- Each literal takes up at least seven bits, so the decoder moves on.
    have hseven := (fixedWord_le (byteAt data start).toNat).1
    have hrest := (grows_pushLiterals hgrows.valid data (start + 1) n).carried h
    have hnext := next_literal hw hrest (data.extract 0 start)
    rw [push_front (by omega)] at hnext
    refine .more hnext (show base + w.length < base + _ by omega) ?_
    rw [← Nat.add_assoc, Nat.add_right_comm] at hends
    exact ih hgrows.valid (by omega) h hends

/-! ## The block -/

/-- Appends pieces one after another: the writer, and the index behind them in the data. -/
def pushPieces (data : ByteArray) (ps : List Piece) (acc : BitWriter × Nat) : BitWriter × Nat :=
  ps.foldl (fun acc p =>
    (pushCopy (pushLiterals data acc.2 acc.1 p.literals) p.length p.distance,
      acc.2 + p.literals + p.length)) acc

/-- Appends the last literals and the end of the block. -/
def pushLast (data : ByteArray) (start : Nat) (w : BitWriter) : BitWriter :=
  pushSymbol (pushLiterals data start w (data.size - start)) endOfBlock

theorem grows_pushLast (hw : w.Valid) (data : ByteArray) (start : Nat) :
    w.Grows (pushLast data start w) := by
  have h := grows_pushLiterals hw data start (data.size - start)
  exact h.trans (grows_pushSymbol h.valid (by decide))

/-- A copy of a piece is one of the format. -/
private theorem copy_bounds {start : Nat} {p : Piece} (h : p.Fits scope data 0 data.size start) :
    (3 ≤ p.length ∧ p.length ≤ 258) ∧ 1 ≤ p.distance ∧ p.distance ≤ 32768 := by
  have hfour := h.four_le
  have hlength : p.length ≤ 258 := h.length_le
  have hdistance : p.distance ≤ 32768 := h.distance_le
  have hpositive := h.repeats.positive
  omega

theorem grows_pushPieces (hw : w.Valid) {ps : List Piece} {start rest : Nat}
    (hcover : Covers scope data 0 data.size ps start rest) :
    w.Grows (pushPieces data ps (w, start)).1 := by
  induction ps generalizing w start with
  | nil => exact hw.grows
  | cons p ps ih =>
    cases hcover with
    | cons hfits hcover =>
      obtain ⟨hlength, hdistance⟩ := copy_bounds hfits
      have hliterals := grows_pushLiterals hw data start p.literals
      have hcopy := hliterals.trans (grows_pushCopy hliterals.valid hlength hdistance).1
      exact hcopy.trans (ih hcopy.valid hcover)

/-- The decoder goes from piece to piece and ends behind the last literals. -/
theorem ends_pushPieces (hw : w.Valid) {ps : List Piece} {start rest : Nat}
    (hcover : Covers scope data 0 data.size ps start rest) (hstart : start ≤ data.size)
    (h : BitWriter.Carried enc base (pushLast data rest (pushPieces data ps (w, start)).1)) :
    Ends enc (base + (pushLast data rest (pushPieces data ps (w, start)).1).length) data
      (inBlock (base + w.length) (data.extract 0 start)) := by
  -- Each piece is its literals and then a copy; what is written behind it does not change the bits
  -- that the decoder has read by then.
  induction ps generalizing w start with
  | nil =>
    cases hcover
    -- Only the last literals are left, and the end of the block behind them.
    let w₁ := pushLiterals data rest w (data.size - rest)
    have hliterals : w.Grows w₁ := grows_pushLiterals hw data rest _
    have hend : w₁.Grows (pushSymbol w₁ endOfBlock) := grows_pushSymbol hliterals.valid (by decide)
    have hlength : (pushSymbol w₁ endOfBlock).length = w₁.length + 7 :=
      length_pushSymbol hliterals.valid (by decide)
    have hall : rest + (data.size - rest) = data.size := by omega
    have hnext := next_end hliterals.valid h data
    refine ends_pushLiterals hw hall.le (hend.carried h) (.ended ?_ ?_)
    · rw [hall, ByteArray.extract_zero_size]
      exact hnext
    · show base + w₁.length < base + (pushSymbol w₁ endOfBlock).length
      omega
  | cons p ps ih =>
    cases hcover with
    | cons hfits hcover =>
      obtain ⟨hlength, hdistance⟩ := copy_bounds hfits
      have hmargin : start + p.literals + p.length ≤ data.size := hfits.margin
      let w₁ := pushLiterals data start w p.literals
      let w₂ := pushCopy w₁ p.length p.distance
      have hliterals : w.Grows w₁ := grows_pushLiterals hw data start p.literals
      obtain ⟨hcopy, hlt⟩ : w₁.Grows w₂ ∧ w₁.length < w₂.length :=
        grows_pushCopy hliterals.valid hlength hdistance
      -- The bits of the copy stand in the whole stream, since the rest was pushed behind them.
      have hpieces := grows_pushPieces hcopy.valid hcover
      have h₂ : BitWriter.Carried enc base w₂ :=
        hpieces.carried ((grows_pushLast hpieces.valid data rest).carried h)
      have hnext := next_copy hliterals.valid hlength hdistance h₂
        (data.extract 0 (start + p.literals))
      rw [hfits.repeats.pushBack_front hmargin] at hnext
      have hrest := ih hcopy.valid hcover hmargin h
      have hpos : base + w₁.length < base + w₂.length := by omega
      exact ends_pushLiterals hw (by omega) (hcopy.carried h₂) (.more hnext hpos hrest)

end

/-- The stream that was written ends with the data, in front of what follows. -/
theorem ends_compress {pre : ByteArray} (h : Extends (pre ++ compress data) enc) :
    ∃ stop, Ends enc stop data (.start (8 * pre.size)) ∧
      (stop + 7) / 8 = (pre ++ compress data).size := by
  obtain ⟨pieces, rest, hfactor, hcover⟩ :=
    factor_covers (show 0 < scope.stride by decide) data 0 data.size
  let head : BitWriter := ({} : BitWriter).push 3 3
  let w := (pushPieces data pieces.toList (head, 0)).1
  let last := pushLast data rest w
  have hcompress : compress data = last.finish := by
    simp only [compress, hfactor, last, w, pushLast, pushPieces, Array.foldl_toList]
    rfl
  have hhead : head.Valid := BitWriter.valid_empty.push 3 (by decide)
  have hlength : head.length = 3 := BitWriter.length_push BitWriter.valid_empty 3 (by decide)
  -- Whatever carries the whole stream carries every part of it.
  have hpieces := grows_pushPieces hhead hcover
  have hlast : w.Grows last := grows_pushLast hpieces.valid data rest
  rw [hcompress] at h ⊢
  have hcarried := BitWriter.carried_finish hlast.valid h
  have hcarriedHead := hpieces.carried (hlast.carried hcarried)
  -- Three bits say that this is the last block and that it is in the fixed code.
  have hvalue : head.value = 3 := BitWriter.value_push BitWriter.valid_empty 3 (by decide)
  have hbits := hcarriedHead.same
  rw [hlength, hvalue] at hbits
  have hinside := hcarriedHead.inside
  have hfirst : bitsAt enc (8 * pre.size) 1 = 1 := by
    rw [bitsAt_eq _ _ (by decide)]
    omega
  have hsecond : bitsAt enc (8 * pre.size + 1) 2 = 1 := by
    rw [bitsAt_eq _ _ (by decide), pow_succ, ← Nat.div_div_eq_div_mul]
    omega
  have hnext : (State.start (8 * pre.size)).next enc =
      .more (inBlock (8 * pre.size + head.length) (data.extract 0 0)) := by
    have hempty : data.extract 0 0 = .empty := by simp
    show blockHeader enc (8 * pre.size) .empty = _
    rw [blockHeader, if_neg (by omega), hempty, hlength]
    simp only [hfirst, hsecond, decide_true]
    rfl
  refine ⟨8 * pre.size + last.length, ?_, ?_⟩
  · exact .more hnext (show 8 * pre.size < 8 * pre.size + head.length by omega)
      (ends_pushPieces hhead hcover (Nat.zero_le _) hcarried)
  · rw [ByteArray.size_append, BitWriter.size_finish hlast.valid]
    omega

/-! ## Stored blocks -/

/-- The header of a stored block fills a byte. -/
private theorem header_bits (enc : ByteArray) (i : Nat) :
    bitsAt enc (8 * i) 1 = (byteAt enc i).toNat % 2 ∧
      bitsAt enc (8 * i + 1) 2 = (byteAt enc i).toNat / 2 % 4 := by
  have hbyte : (byteAt enc i).toNat = number enc / 2 ^ (8 * i) % 2 ^ 8 :=
    littleEndian_eq_number enc i 1
  rw [bitsAt_eq _ _ (by decide), bitsAt_eq _ _ (by decide), pow_succ 2 (8 * i),
    ← Nat.div_div_eq_div_mul, hbyte]
  omega

/-- Appends one stored block. -/
def pushStored (data : ByteArray) (start size : Nat) (last : Bool) (out : ByteArray) : ByteArray :=
  pushSlice (pushLittleEndian (pushLittleEndian (out.push (if last then 1 else 0)) size 2)
    (0xFFFF - size) 2) data start size

private theorem size_pushStored {start size : Nat} (hfits : start + size ≤ data.size) (last : Bool)
    (out : ByteArray) : (pushStored data start size last out).size = out.size + 5 + size := by
  rw [pushStored, size_pushSlice _ hfits, size_pushLittleEndian, size_pushLittleEndian,
    ByteArray.size_push]

/-- What is left is one block if it is not too much. -/
private theorem storeBlocks_last {start : Nat} (h : data.size ≤ start + maxStored) (out : ByteArray)
    (fuel : Nat) :
    storeBlocks data start out (fuel + 1) = pushStored data start (data.size - start) true out := by
  have hsize : min (data.size - start) maxStored = data.size - start := Nat.min_eq_left (by omega)
  have hlast : data.size ≤ start + (data.size - start) := by omega
  simp only [storeBlocks, hsize, if_pos hlast, pushStored, if_pos]

private theorem storeBlocks_more {start : Nat} (h : start + maxStored < data.size) (out : ByteArray)
    (fuel : Nat) :
    storeBlocks data start out (fuel + 1) =
      storeBlocks data (start + maxStored) (pushStored data start maxStored false out) fuel := by
  have hsize : min (data.size - start) maxStored = maxStored := Nat.min_eq_right (by omega)
  simp only [storeBlocks, hsize, if_neg (Nat.not_le.2 h), pushStored, Bool.false_eq_true, if_false]

private theorem pushStored_extends (data : ByteArray) (start size : Nat) (last : Bool)
    (out : ByteArray) : Extends out (pushStored data start size last out) :=
  .trans (.push _ _) (.trans (.pushLittleEndian _ _ _) (.trans (.pushLittleEndian _ _ _)
    (.pushSlice _ _ _ _)))

private theorem storeBlocks_extends (data : ByteArray) (start : Nat) (out : ByteArray)
    (fuel : Nat) : Extends out (storeBlocks data start out fuel) := by
  induction fuel generalizing start out with
  | zero => exact .refl out
  | succ fuel ih =>
    simp only [storeBlocks]
    split
    · exact pushStored_extends data start _ true out
    · exact (pushStored_extends data start _ false out).trans (ih _ _)

/-- What is found of a stored block behind some bytes. -/
private structure Stored (enc data : ByteArray) (pos start size : Nat) (last : Bool) : Prop where
  lastBit : bitsAt enc (8 * pos) 1 = if last then 1 else 0
  form : bitsAt enc (8 * pos + 1) 2 = 0
  field : littleEndian enc (pos + 1) 2 = size
  check : littleEndian enc (pos + 3) 2 = 0xFFFF - size
  bytes : pushSlice (data.extract 0 start) enc (pos + 5) size = data.extract 0 (start + size)
  inside : pos + 5 + size ≤ enc.size

private theorem stored_pushStored {start size : Nat} {last : Bool} (hsize : size ≤ maxStored)
    (hfits : start + size ≤ data.size) (h : Extends (pushStored data start size last out) enc) :
    Stored enc data out.size start size last := by
  -- A stored block is its header byte, its size twice, once inverted, and its bytes.
  let o₁ := out.push (if last then 1 else 0)
  let o₂ := pushLittleEndian o₁ size 2
  let o₃ := pushLittleEndian o₂ (0xFFFF - size) 2
  have h₄ : Extends (pushSlice o₃ data start size) enc := h
  have h₃ : Extends o₃ enc := (Extends.pushSlice _ _ _ _).trans h₄
  have h₂ : Extends o₂ enc := (Extends.pushLittleEndian _ _ _).trans h₃
  have h₁ : Extends o₁ enc := (Extends.pushLittleEndian _ _ _).trans h₂
  have hsize₁ : o₁.size = out.size + 1 := ByteArray.size_push
  have hsize₂ : o₂.size = out.size + 3 := by rw [size_pushLittleEndian, hsize₁]
  have hsize₃ : o₃.size = out.size + 5 := by rw [size_pushLittleEndian, hsize₂]
  have hmax : size < Nat.pow 256 2 := Nat.lt_of_le_of_lt hsize (by decide)
  have hmax' : 0xFFFF - size < Nat.pow 256 2 := Nat.lt_of_le_of_lt (Nat.sub_le _ _) (by decide)
  have hbyte : byteAt enc out.size = if last then 1 else 0 := by
    rw [h₁.byteAt (by omega), byteAt_push]
  obtain ⟨hfirst, hsecond⟩ := header_bits enc out.size
  constructor
  case lastBit =>
    rw [hfirst, hbyte]
    cases last <;> rfl
  case form =>
    rw [hsecond, hbyte]
    cases last <;> rfl
  case field =>
    rw [← hsize₁, h₂.littleEndian (by omega), littleEndian_pushLittleEndian, Nat.mod_eq_of_lt hmax]
  case check =>
    rw [← hsize₂, h₃.littleEndian (by omega), littleEndian_pushLittleEndian, Nat.mod_eq_of_lt hmax']
  case bytes =>
    rw [← pushSlice_front, ← pushSlice_of_extends _ h₄ hfits, hsize₃]
  case inside =>
    have hle := h₄.size_le
    rw [size_pushSlice _ hfits] at hle
    omega

/-- A stored block is copied. -/
private theorem next_stored {pos start size : Nat} {last : Bool} (hsize : size ≤ maxStored)
    (h : Stored enc data pos start size last) :
    State.next enc ⟨8 * pos, data.extract 0 start, .header⟩ =
      closeBlock last (8 * (pos + 5 + size)) (data.extract 0 (start + size)) := by
  have hinside := h.inside
  have hheader : ¬ 8 * enc.size < 8 * pos + 3 := by omega
  -- The rest of the byte of the header is left out.
  have hstart : (8 * pos + 3 + 7) / 8 = pos + 1 := by omega
  have hfields : ¬ enc.size < pos + 1 + 4 := by omega
  have hbytes : ¬ enc.size < pos + 1 + 4 + size := by omega
  have hsum : ¬ size + (0xFFFF - size) ≠ 0xFFFF := by
    rw [maxStored] at hsize
    omega
  show blockHeader enc (8 * pos) (data.extract 0 start) = _
  simp only [blockHeader, if_neg hheader, h.lastBit, h.form, storedBlock, hstart, if_neg hfields,
    h.field, h.check, if_neg hsum, if_neg hbytes, h.bytes]
  cases last <;> rfl

/-- The decoder goes from stored block to stored block. -/
private theorem ends_storeBlocks {fuel start : Nat} (hfuel : data.size < start + fuel)
    (hstart : start ≤ data.size) (h : enc = storeBlocks data start out fuel) :
    Ends enc (8 * enc.size) data ⟨8 * out.size, data.extract 0 start, .header⟩ := by
  induction fuel generalizing start out with
  | zero => omega
  | succ fuel ih =>
    by_cases hlast : data.size ≤ start + maxStored
    · -- What is left fits into one block, which is the last one.
      have hfits : start + (data.size - start) = data.size := by omega
      rw [storeBlocks_last hlast] at h
      have hsize := size_pushStored hfits.le true out
      have hext : Extends (pushStored data start (data.size - start) true out) enc := by rw [h]
      have hnext := next_stored (by omega) (stored_pushStored (by omega) hfits.le hext)
      rw [← h] at hsize
      rw [hfits, ByteArray.extract_zero_size, ← hsize] at hnext
      exact .ended hnext (show 8 * out.size < 8 * enc.size by omega)
    · -- A full block, and more of them behind it.
      have hmore : start + maxStored < data.size := by omega
      rw [storeBlocks_more hmore] at h
      have hsize := size_pushStored hmore.le false out
      have hext : Extends (pushStored data start maxStored false out) enc := by
        rw [h]
        exact storeBlocks_extends _ _ _ _
      have hnext := next_stored (Nat.le_refl _) (stored_pushStored (Nat.le_refl _) hmore.le hext)
      have hfuel' : data.size < start + maxStored + fuel := by
        rw [maxStored]
        omega
      rw [← hsize] at hnext
      exact .more hnext (show 8 * out.size < 8 * ByteArray.size _ by omega)
        (ih hfuel' hmore.le h)

/-! ## Streams at any level -/

/-- What was encoded is decoded, at any level. -/
theorem readToEnd_feed_encode (level : Nat) (data : ByteArray) :
    (feed (encode level data)).readToEnd .empty = .ok data := by
  have hempty : data.extract 0 0 = .empty := by simp
  rw [readToEnd_feed, encode]
  split
  · -- At level 0 the data is stored.
    have hends := ends_storeBlocks (show data.size < 0 + (data.size + 1) by omega) (Nat.zero_le _)
      (show store data = storeBlocks data 0 .empty (data.size + 1) from rfl)
    rw [hempty] at hends
    exact hends.run (by simp only [stepsFor]; omega)
  · have hext : Extends (.empty ++ compress data) (compress data) := by rw [ByteArray.empty_append]
    obtain ⟨stop, hends, hstop⟩ := ends_compress hext
    rw [ByteArray.empty_append] at hstop
    exact hends.run (by simp only [stepsFor]; omega)

end CacheLayer.Compression.Deflate
