import CacheLayer.Compression.Codec
import CacheLayer.Proofs.Compression.GzipMembers
import CacheLayer.Proofs.Compression.Lz4Blocks
import CacheLayer.Proofs.Compression.ZstdFrames
/-!
# What was compressed is decompressed

Of the libraries of the formats it is asked that they decode what they have encoded. Then what a
codec has compressed is decompressed to what it was, unless that is larger than decompression may
get: it is refused as too large, and never cut off or changed. For streams this is up to the bounded
read, and for LZ4 blocks to the size in front of them.

## Key results

- `Library.own_restores`, `Library.own_encodes`: what is asked of libraries is so for the formats as
  they are written and read here
- `Codec.decode_some_of_decode_none`: what is decoded without a limit is decoded within one if it
  fits
- `Codec.decompress_compress`: what was compressed is decompressed unless it is too large
- `Codec.compressed_and_back`: the same with the message of the refusal, for all codecs and levels
-/

namespace CacheLayer.Compression

namespace Library

/-- Whether each library decodes what it has encoded, if nothing bounds its output. An LZ4 block
stands behind the size of what was encoded. -/
structure Restores (l : Library) : Prop where
  gunzip : ∀ {data enc}, l.gzip data = .ok enc → (l.gunzip enc).readToEnd .empty = .ok data
  inflate : ∀ {level data enc}, level ≤ Deflate.maxLevel → l.deflate level data = .ok enc →
    (l.inflate enc).readToEnd .empty = .ok data
  unlz4 : ∀ {data enc}, l.lz4 data = .ok enc →
    Lz4.sizeField enc = data.size ∧ Lz4.decodeWith l.unlz4 none enc = .ok data
  unzstd : ∀ {level data enc}, l.zstd level data = .ok enc →
    (l.unzstd enc).readToEnd .empty = .ok data

/-- Whether each library encodes all data, LZ4 up to the largest size that a block may have. -/
structure Encodes (l : Library) : Prop where
  gzip : ∀ data, ∃ enc, l.gzip data = .ok enc
  deflate : ∀ {level}, level ≤ Deflate.maxLevel → ∀ data, ∃ enc, l.deflate level data = .ok enc
  lz4 : ∀ {data}, data.size ≤ Lz4.maxInput → ∃ enc, l.lz4 data = .ok enc
  zstd : ∀ level data, ∃ enc, l.zstd level data = .ok enc

/-- The codecs there are over a library. -/
inductive Has (l : Library) : Codec → Prop where
  | gzip : Has l l.gzipCodec
  | lz4 : Has l l.lz4Codec
  | zstd (level : Int) : Has l (l.zstdCodec level)
  | deflate (level : Nat) : Has l (l.deflateCodec level)

/-- The codec of an algorithm is one of them. -/
theorem has_codec (l : Library) (a : Algorithm) : l.Has (l.codec a) := by
  cases a with
  | gzip => exact .gzip
  | lz4 => exact .lz4
  | zstd => exact .zstd 0
  | deflate level => exact .deflate level

/-! ## The formats as they are written and read here -/

theorem own_restores : own.Restores where
  gunzip {data enc} h := by
    obtain rfl := Except.ok.inj h
    exact Gzip.readToEnd_feed_encode data
  inflate {level data enc} _ h := by
    obtain rfl := Except.ok.inj h
    exact Deflate.readToEnd_feed_encode level data
  unlz4 h := ⟨Lz4.sizeField_encode h, Lz4.decodeWith_encode h⟩
  unzstd {level data enc} h := by
    obtain rfl := Except.ok.inj h
    exact Zstd.readToEnd_feed_encode level data

theorem own_encodes : own.Encodes where
  gzip _ := ⟨_, rfl⟩
  deflate _ _ := ⟨_, rfl⟩
  lz4 h := ⟨_, Lz4.encode_eq h⟩
  zstd _ _ := ⟨_, rfl⟩

end Library

namespace Codec

variable {l : Library} {c : Codec} {data enc : ByteArray}

/-- A codec decodes what it has encoded, if there is no limit. -/
theorem decode_none_of_encode (hl : l.Restores) (hc : l.Has c) (h : c.encode data = .ok enc) :
    c.decode none enc = .ok data := by
  cases hc with
  | gzip => exact hl.gunzip h
  | lz4 => exact (hl.unlz4 h).2
  | zstd level => exact hl.unzstd h
  | deflate level => exact hl.inflate (Nat.min_le_right level Deflate.maxLevel) h

/-- What is decoded without a limit is decoded within one if it fits. -/
theorem decode_some_of_decode_none (hl : l.Restores) (hc : l.Has c) (limit : Nat)
    (henc : c.encode data = .ok enc) (h : c.decode none enc = .ok data) :
    c.decode (some limit) enc = within limit data := by
  cases hc with
  | gzip => exact Feed.readBounded_of_readToEnd h limit
  | lz4 => exact Lz4.decodeWith_limit limit (hl.unlz4 henc).1 h
  | zstd level => exact Feed.readBounded_of_readToEnd h limit
  | deflate level => exact Feed.readBounded_of_readToEnd h limit

/-- What was compressed is what was encoded. -/
theorem encode_of_compress (h : c.compress data = .ok enc) : c.encode data = .ok enc := by
  rw [compress] at h
  cases henc : c.encode data with
  | error f => rw [henc] at h; cases h
  | ok enc' => rw [henc] at h; exact congrArg _ (Except.ok.inj h)

/-- What was compressed is decompressed, unless it is too large. -/
theorem decompress_compress (hl : l.Restores) (hc : l.Has c) (h : c.compress data = .ok enc) :
    c.decompress enc =
      if data.size ≤ maxDecompressed then .ok data
      else .error (c.failure "decompressing" (.tooLarge maxDecompressed)) := by
  have henc := encode_of_compress h
  have hdecode := decode_none_of_encode hl hc henc
  rw [decompress, decompressWithin,
    decode_some_of_decode_none hl hc maxDecompressed henc hdecode, within]
  split <;> rfl

/-- Data that may be decompressed can be compressed. -/
theorem exists_compress (hl : l.Encodes) (hc : l.Has c) (h : data.size ≤ maxDecompressed) :
    ∃ enc, c.compress data = .ok enc := by
  have hencode : ∃ enc, c.encode data = .ok enc := by
    cases hc with
    | gzip => exact hl.gzip data
    | lz4 => exact hl.lz4 (Nat.le_trans h (by decide))
    | zstd level => exact hl.zstd level data
    | deflate level => exact hl.deflate (Nat.min_le_right level Deflate.maxLevel) data
  obtain ⟨enc, henc⟩ := hencode
  exact ⟨enc, by rw [compress, henc]; rfl⟩

/-- The refusal of what is too large. -/
theorem failure_tooLarge (c : Codec) :
    c.failure "decompressing" (.tooLarge maxDecompressed) = .compression
      ("failed decompressing using " ++ c.name ++ ": output exceeds 67108864 bytes") := by
  have hmax : toString maxDecompressed = "67108864" := by decide
  have hmessage : (Fault.tooLarge maxDecompressed).message =
      "output exceeds " ++ "67108864" ++ " bytes" :=
    congrArg ("output exceeds " ++ · ++ " bytes") hmax
  rw [failure, hmessage]
  simp only [String.append_assoc]
  rfl

/-- What was compressed is decompressed to what it was if that may be decompressed, and is refused
as too large otherwise. Levels of a deflate stream above 9 act as 9. -/
theorem compressed_and_back {l : Library} (hl : l.Restores) :
    (∀ {c : Codec} {data enc : ByteArray}, l.Has c → c.compress data = .ok enc →
      c.decompress enc =
        if data.size ≤ maxDecompressed then .ok data
        else .error (.compression ("failed decompressing using " ++ c.name ++
          ": output exceeds 67108864 bytes"))) ∧
    ∀ level, 9 ≤ level → l.deflateCodec level = l.deflateCodec 9 := by
  constructor
  · intro c data enc hc h
    rw [decompress_compress hl hc h, failure_tooLarge]
  · intro level h
    have hlevel : Deflate.effectiveLevel level = Deflate.effectiveLevel 9 := Nat.min_eq_right h
    simp only [Library.deflateCodec, hlevel]

theorem compressed_and_back_gzip :
    Library.own.Restores ∧ Library.own.Has .gzip ∧
      Codec.gzip.compress ⟨#[104, 105]⟩ = .ok (Gzip.encode ⟨#[104, 105]⟩) ∧
      Codec.gzip.decompress (Gzip.encode ⟨#[104, 105]⟩) = .ok ⟨#[104, 105]⟩ ∧
      Codec.gzip.decompress (Gzip.encode (pushTimes .empty 0 (maxDecompressed + 1))) =
        .error (.compression
          "failed decompressing using gzip: output exceeds 67108864 bytes") ∧
      9 ≤ 12 ∧ deflate 12 = deflate 9 := by
  obtain ⟨hback, hlevel⟩ := compressed_and_back Library.own_restores
  have hsmall := hback .gzip
    (show Codec.gzip.compress ⟨#[104, 105]⟩ = .ok (Gzip.encode ⟨#[104, 105]⟩) from rfl)
  have hlarge := hback .gzip
    (show Codec.gzip.compress (pushTimes .empty 0 (maxDecompressed + 1)) = .ok (Gzip.encode _)
      from rfl)
  rw [if_pos (by decide)] at hsmall
  rw [if_neg (by simp)] at hlarge
  exact ⟨Library.own_restores, .gzip, rfl, hsmall, hlarge, by decide, hlevel 12 (by decide)⟩

end Codec

end CacheLayer.Compression
