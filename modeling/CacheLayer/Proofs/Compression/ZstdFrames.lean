import CacheLayer.Proofs.Compression.Bounded
import CacheLayer.Proofs.Compression.ZstdBlocks
import Mathlib
/-!
# Frames that are read back

A frame is read block by block. Each block gives the next part of the data, in whichever of the
three forms it was written, and behind the last block the frame and the data are at their end.

## Key results

- `Zstd.decode_pushBlock`: a block gives the next part of the data
- `Zstd.readToEnd_feed_encode`: what was encoded is decoded
-/

namespace CacheLayer.Compression.Zstd

variable {level : Int} {enc data out : ByteArray} {first stop : Nat} {last : Bool}

/-! ## Headers of blocks -/

/-- The number of a form in the header of a block. -/
def formCode : BlockForm → Nat
  | .raw => 0
  | .repeated => 1
  | .compressed => 2

theorem size_pushHeader (out : ByteArray) (last : Bool) (form size : Nat) :
    (pushHeader out last form size).size = out.size + 3 := size_pushLittleEndian _ _ _

theorem pushHeader_extends (out : ByteArray) (last : Bool) (form size : Nat) :
    Extends out (pushHeader out last form size) := .pushLittleEndian _ _ _

/-- The header of a block is read back. -/
theorem read_pushHeader (form : BlockForm) {size : Nat} (hsize : size ≤ maxBlock)
    (h : Extends (pushHeader out last (formCode form) size) enc) :
    BlockHeader.read enc out.size = some ⟨last, form, size⟩ := by
  have hmax : maxBlock = 131072 := by decide
  have hle := h.size_le
  rw [size_pushHeader] at hle
  obtain ⟨bit, hbit, hbit'⟩ : ∃ bit : Nat, (if last then 1 else 0) = bit ∧ bit < 2 := by
    cases last
    · exact ⟨0, rfl, by decide⟩
    · exact ⟨1, rfl, by decide⟩
  have hcode : formCode form < 3 := by cases form <;> decide
  have hfield : littleEndian enc out.size 3 = 8 * size + 2 * formCode form + bit := by
    rw [h.littleEndian (by rw [size_pushHeader]), pushHeader, hbit, littleEndian_pushLittleEndian]
    exact Nat.mod_eq_of_lt (by simp only [Nat.pow_eq]; omega)
  -- The three fields of the header do not overlap: a bit, two bits, and the rest.
  have hform : (8 * size + 2 * formCode form + bit) / 2 % 4 = formCode form := by omega
  have hwidth : (8 * size + 2 * formCode form + bit) / 8 = size := by omega
  have hlast : decide ((8 * size + 2 * formCode form + bit) % 2 = 1) = last := by
    have hmod : (8 * size + 2 * formCode form + bit) % 2 = bit := by omega
    rw [hmod, ← hbit]
    cases last <;> rfl
  have hlong : ¬ enc.size < out.size + 3 := by omega
  simp only [BlockHeader.read, BlockHeader.width, hfield, hform, hwidth, hlast, if_neg hlong]
  cases form <;> rfl

/-! ## Blocks -/

/-- Whether the block that stands behind some bytes gives the data up to an index, and ends at the
index `next`. -/
def Gives (enc data : ByteArray) (pos first stop : Nat) (last : Bool) (next : Nat)
    (memory : Memory) : Prop :=
  ∃ header memory', BlockHeader.read enc pos = some header ∧ header.last = last ∧
    decodeBlock enc 0 ⟨maxBlock, maxBlock⟩ (pos + 3) header memory (data.extract 0 first) =
      some (memory', data.extract 0 stop) ∧ pos + 3 + header.extent = next

theorem Gives.lt {pos next : Nat} {memory : Memory}
    (h : Gives enc data pos first stop last next memory) : pos + 3 ≤ next := by
  obtain ⟨header, -, -, -, -, hnext⟩ := h
  omega

/-- The bytes of a run are all the same. -/
private theorem byteAt_of_isRun {i n : Nat} (h : isRun data (i + 1) n = true) :
    ∀ m ≤ n, byteAt data (i + m) = byteAt data i := by
  induction n generalizing i with
  | zero =>
    intro m hm
    rw [Nat.le_zero.1 hm, Nat.add_zero]
  | succ n ih =>
    intro m hm
    simp only [isRun, Bool.and_eq_true, decide_eq_true_eq, Nat.add_sub_cancel] at h
    cases m with
    | zero => rfl
    | succ m =>
      have hrest := ih h.2 m (by omega)
      rw [h.1, Nat.add_assoc, Nat.add_comm 1] at hrest
      exact hrest

section

variable (hfirst : first ≤ stop) (hstop : stop ≤ data.size) (hblock : stop ≤ first + maxBlock)
include hfirst hstop hblock

/-- A block of one byte that is repeated. -/
private theorem gives_repeated (hsize : 1 < stop - first)
    (hrun : isRun data (first + 1) (stop - first - 1) = true)
    (h : Extends ((pushHeader out last 1 (stop - first)).push (byteAt data first)) enc)
    (memory : Memory) :
    Gives enc data out.size first stop last
      ((pushHeader out last 1 (stop - first)).push (byteAt data first)).size memory := by
  have hheader := size_pushHeader out last 1 (stop - first)
  have hall : ((pushHeader out last 1 (stop - first)).push (byteAt data first)).size =
      out.size + 4 := by
    rw [ByteArray.size_push, hheader]
  have hle := h.size_le
  have hbyte : byteAt enc (out.size + 3) = byteAt data first := by
    rw [h.byteAt (by omega), ← hheader, byteAt_push]
  -- The reader repeats the one byte that was written.
  have hsame : ∀ m < stop - first, byteAt data (first + m) = byteAt data first :=
    fun m hm => byteAt_of_isRun hrun m (by omega)
  have htimes := pushTimes_front (by omega) hsame
  rw [show first + (stop - first) = stop by omega] at htimes
  have hread := read_pushHeader .repeated (by omega) ((Extends.push _ _).trans h)
  refine ⟨_, memory, hread, rfl, ?_, ?_⟩
  · have hextent : ¬ enc.size < out.size + 3 + 1 := by omega
    have hlimit : ¬ maxBlock < max 1 (stop - first) := by omega
    simp only [decodeBlock, BlockHeader.extent, if_true, if_neg hextent, if_neg hlimit, hbyte,
      htimes]
  · simp only [BlockHeader.extent, if_true]
    omega

/-- A block of bytes as they are. -/
private theorem gives_raw
    (h : Extends (pushSlice (pushHeader out last 0 (stop - first)) data first (stop - first)) enc)
    (memory : Memory) :
    Gives enc data out.size first stop last
      (pushSlice (pushHeader out last 0 (stop - first)) data first (stop - first)).size memory := by
  have hfits : first + (stop - first) ≤ data.size := by omega
  have hheader := size_pushHeader out last 0 (stop - first)
  have hsize := size_pushSlice (pushHeader out last 0 (stop - first)) hfits
  have hle := h.size_le
  have hslice := pushSlice_of_extends (data.extract 0 first) h hfits
  rw [pushSlice_front, hheader, show first + (stop - first) = stop by omega] at hslice
  have hread := read_pushHeader .raw (by omega) ((Extends.pushSlice _ _ _ _).trans h)
  refine ⟨_, memory, hread, rfl, ?_, ?_⟩
  · have hextent : ¬ enc.size < out.size + 3 + (stop - first) := by omega
    have hlimit : ¬ maxBlock < stop - first := by omega
    simp only [decodeBlock, BlockHeader.extent, reduceCtorEq, if_false, if_neg hextent,
      if_neg hlimit, hslice]
  · simp only [BlockHeader.extent, reduceCtorEq, if_false]
    omega

/-- A block of literals and sequences. -/
private theorem gives_compressed
    (hshort : (compressedContent level data first stop).size < stop - first)
    (h : Extends (pushHeader out last 2 (compressedContent level data first stop).size ++
      compressedContent level data first stop) enc) (memory : Memory) :
    Gives enc data out.size first stop last
      (pushHeader out last 2 (compressedContent level data first stop).size ++
        compressedContent level data first stop).size memory := by
  obtain ⟨n, hn⟩ : ∃ n, (compressedContent level data first stop).size = n := ⟨_, rfl⟩
  have hheader := size_pushHeader out last 2 n
  obtain ⟨memory', hcontent⟩ := compressedBlock_content h hfirst hstop hblock hshort memory
  have hread := read_pushHeader .compressed (by omega) ((Extends.append _ _).trans h)
  have hle := h.size_le
  have hpos := size_compressedContent_pos level data first stop
  rw [ByteArray.size_append, hn, hheader] at hcontent hle ⊢
  rw [hn] at hread hshort
  refine ⟨_, memory', hread, rfl, ?_, ?_⟩
  · have hextent : ¬ enc.size < out.size + 3 + n := by omega
    have hlimit : ¬ maxBlock < n := by omega
    simp only [decodeBlock, BlockHeader.extent, reduceCtorEq, if_false, if_neg hextent,
      if_neg hlimit, if_neg (show n ≠ 0 by omega), hcontent]
  · simp only [BlockHeader.extent, reduceCtorEq, if_false]

/-- A block gives the next part of the data, in whichever form it is written. -/
theorem decode_pushBlock (h : Extends (pushBlock level data first stop last out) enc)
    (memory : Memory) :
    Gives enc data out.size first stop last (pushBlock level data first stop last out).size
      memory := by
  simp only [pushBlock] at h ⊢
  split
  · next hrepeated =>
    rw [if_pos hrepeated] at h
    exact gives_repeated hfirst hstop hblock hrepeated.1 hrepeated.2 h memory
  · next hrepeated =>
    rw [if_neg hrepeated] at h
    split
    · next hshort =>
      rw [if_pos hshort] at h
      exact gives_compressed hfirst hstop hblock hshort h memory
    · next hshort =>
      rw [if_neg hshort] at h
      exact gives_raw hfirst hstop hblock h memory

end

theorem pushBlock_extends (level : Int) (data : ByteArray) (first stop : Nat) (last : Bool)
    (out : ByteArray) : Extends out (pushBlock level data first stop last out) := by
  simp only [pushBlock]
  split
  · exact (pushHeader_extends _ _ _ _).trans (.push _ _)
  split
  · exact (pushHeader_extends _ _ _ _).trans (.append _ _)
  · exact (pushHeader_extends _ _ _ _).trans (.pushSlice _ _ _ _)

theorem pushBlocks_extends (level : Int) (data : ByteArray) (first : Nat) (out : ByteArray)
    (fuel : Nat) : Extends out (pushBlocks level data first out fuel) := by
  induction fuel generalizing first out with
  | zero => exact .refl out
  | succ fuel ih =>
    simp only [pushBlocks]
    split
    · exact pushBlock_extends _ _ _ _ _ _
    · exact (pushBlock_extends _ _ _ _ _ _).trans (ih _ _)

/-! ## Frames -/

/-- What the header of the frame says: nothing about the content, and blocks of any size. -/
def plainFrame : FrameHeader := ⟨none, ⟨maxBlock, maxBlock⟩, false, false⟩

/-- The header of the frame: its number, no flags, and its window. -/
def frameHead : ByteArray := (pushLittleEndian .empty magic 4).push 0 |>.push 0x58

/-- A block leads to the next one, or to the end of the frame. -/
private theorem step_block {next pos : Nat} {memory : Memory}
    (h : Gives enc data pos first stop last next memory) :
    ∃ memory', (decoder enc).step ⟨pos, data.extract 0 first, .block plainFrame 0 memory⟩ =
      .more ⟨next, data.extract 0 stop,
        if last then .frame else .block plainFrame 0 memory'⟩ := by
  obtain ⟨header, memory', hread, hlast, hdecode, hnext⟩ := h
  refine ⟨memory', ?_⟩
  show nextBlock enc plainFrame 0 memory pos (data.extract 0 first) = _
  have hcomplete : plainFrame.Complete header ((data.extract 0 stop).size - 0) := .inl rfl
  have hdecode : decodeBlock enc 0 plainFrame.limits (pos + 3) header memory
      (data.extract 0 first) = some (memory', data.extract 0 stop) := hdecode
  simp only [nextBlock, hread, BlockHeader.width, hdecode, hlast, hnext]
  cases last with
  | false => rfl
  | true =>
    rw [if_neg (by simp), if_pos hcomplete]
    rfl

private theorem pushBlocks_last (h : data.size ≤ first + maxBlock) (out : ByteArray)
    (fuel : Nat) :
    pushBlocks level data first out (fuel + 1) = pushBlock level data first data.size true out := by
  simp only [pushBlocks, Nat.min_eq_right h, if_true, decide_true]

private theorem pushBlocks_more (h : first + maxBlock < data.size) (out : ByteArray)
    (fuel : Nat) :
    pushBlocks level data first out (fuel + 1) =
      pushBlocks level data (first + maxBlock)
        (pushBlock level data first (first + maxBlock) false out) fuel := by
  simp only [pushBlocks, Nat.min_eq_left h.le, if_neg h.ne, decide_eq_false h.ne]

/-- The decoder goes from block to block and ends behind the last one. -/
private theorem run_pushBlocks {fuel steps : Nat} (hfuel : data.size < first + fuel)
    (hfirst : first ≤ data.size) (h : enc = pushBlocks level data first out fuel)
    (hsteps : enc.size < out.size + steps) (memory : Memory) :
    (decoder enc).run steps ⟨out.size, data.extract 0 first, .block plainFrame 0 memory⟩ =
      .ok data := by
  -- Block by block, with what has been decoded so far as output of the decoder.
  induction fuel generalizing first out steps memory with
  | zero => omega
  | succ fuel ih =>
    have hmax : 0 < maxBlock := by decide
    by_cases hlast : data.size ≤ first + maxBlock
    · -- The last block takes all that is left.
      rw [pushBlocks_last hlast] at h
      have hext : Extends (pushBlock level data first data.size true out) enc := h ▸ Extends.refl _
      have hgives := decode_pushBlock hfirst (Nat.le_refl _) hlast hext memory
      rw [← h] at hgives
      have hheader := hgives.lt
      obtain ⟨memory', hstep⟩ := step_block hgives
      rw [ByteArray.extract_zero_size] at hstep
      -- Behind the last block the data is at its end.
      have hend : (decoder enc).step ⟨enc.size, data, .frame⟩ = .done data := by
        show nextFrame enc enc.size data = _
        simp only [nextFrame, if_true]
      obtain ⟨steps, rfl⟩ := Nat.exists_eq_add_of_le' (show 2 ≤ steps by omega)
      rw [Decoder.run_more hstep]
      exact Decoder.run_done hend steps
    · have hmore : first + maxBlock < data.size := by omega
      -- A full block; the induction takes it up behind it.
      rw [pushBlocks_more hmore] at h
      let out' := pushBlock level data first (first + maxBlock) false out
      have hext : Extends out' enc := h ▸ pushBlocks_extends _ _ _ _ _
      have hle := hext.size_le
      have hgives : Gives enc data out.size first (first + maxBlock) false out'.size memory :=
        decode_pushBlock (by omega) hmore.le (Nat.le_refl _) hext memory
      have hheader := hgives.lt
      obtain ⟨memory', hstep⟩ := step_block hgives
      obtain ⟨steps, rfl⟩ := Nat.exists_eq_succ_of_ne_zero (show steps ≠ 0 by omega)
      rw [Decoder.run_more hstep]
      exact ih (by omega) hmore.le h (show enc.size < out'.size + steps by omega) memory'

/-- The header of the frame is read. -/
private theorem nextFrame_head (h : Extends frameHead enc) :
    nextFrame enc 0 .empty = .more ⟨6, .empty, .block plainFrame 0 {}⟩ := by
  have hsize : 6 ≤ enc.size := h.size_le
  have hbyte : ∀ i < 6, byteAt enc i = byteAt frameHead i := fun i hi => h.byteAt hi
  have hnumber : littleEndian enc 0 4 = magic := by
    rw [h.littleEndian (by decide)]
    rfl
  have hflags : (byteAt enc 4).toNat = 0 := by
    rw [hbyte 4 (by decide)]
    rfl
  have hwindow : FrameHeader.windowOf (byteAt enc 5).toNat = some (1 <<< 21) := by
    rw [hbyte 5 (by decide)]
    rfl
  have hlong : ¬ enc.size < 6 := by omega
  have hread : FrameHeader.read enc 4 (requestSize enc 0) = some (plainFrame, 6) := by
    have hmax : 2097152 ≤ maxWindow := by decide
    have hmin : min 2097152 maxBlock = maxBlock := by decide
    simp [FrameHeader.read, hflags, hwindow, hlong, FrameHeader.dictionaryWidth,
      FrameHeader.contentWidth, littleEndian, hmax, hmin, plainFrame]
  -- In front of the first frame there is something to read and nothing that was written.
  have hstart : ¬ 0 = enc.size := by omega
  have hempty : ByteArray.empty.size = 0 := rfl
  simp only [nextFrame, hnumber, if_neg hstart, if_true, Nat.zero_add, hempty, hread]

/-- What was encoded is decoded, at any level. -/
theorem readToEnd_feed_encode (level : Int) (data : ByteArray) :
    (feed (encode level data)).readToEnd .empty = .ok data := by
  obtain ⟨enc, henc⟩ : ∃ enc, encode level data = enc := ⟨_, rfl⟩
  have hblocks : enc = pushBlocks level data 0 frameHead (data.size + 1) := henc ▸ rfl
  have hext : Extends frameHead enc := hblocks ▸ pushBlocks_extends _ _ _ _ _
  have hsize : frameHead.size = 6 := rfl
  have hle := hext.size_le
  have hempty : data.extract 0 0 = .empty := by simp
  have hrun := run_pushBlocks (show data.size < 0 + (data.size + 1) by omega) (Nat.zero_le _)
    hblocks (show enc.size < frameHead.size + enc.size by omega) {}
  have hstep : (decoder enc).step ⟨0, .empty, .frame⟩ =
      .more ⟨6, .empty, .block plainFrame 0 {}⟩ := nextFrame_head hext
  rw [hsize, hempty] at hrun
  rw [henc, readToEnd_feed (by omega), Decoder.run_more hstep]
  exact hrun

end CacheLayer.Compression.Zstd
