import CacheLayer.Proofs.Compression.HostileInput
import CacheLayer.Proofs.Json.PlainText
import CacheLayer.Remote.Transcoder
/-!
# Readers with the wrong codec

Gzip members and Zstd frames start with a number of their own, and LZ4 blocks with a size. Of the
libraries of the first two it is asked that they write their number and read nothing without it. A
reader that expects one of the three refuses what starts otherwise: JSON that was not compressed,
and what the other codecs have written. For LZ4 this is because the first bytes, read as a size, are
too much.

## Key results

- `Library.own_marked`: what is asked of libraries is so for the formats as they are written and
  read here
- `Codec.gzip_refuses`, `Codec.lz4_refuses`, `Codec.zstd_refuses`: what a codec refuses for the way
  it starts
- `Codec.Framed.refuses_text`: no text is taken for something compressed
- `Transcoder.wrong_codec_fails`: a reader with the wrong codec fails
-/

namespace CacheLayer.Compression

/-- The number of a gzip member, as it is read. -/
def Gzip.magic : Nat := 0x8B1F

/-- Whether what a number is read from is not taken for a frame, nor for data between frames. -/
def Zstd.NoFrame (n : Nat) : Prop := n ≠ magic ∧ n / 16 ≠ skippableMagic / 16

/-- Whether gzip members and Zstd frames start with their numbers when they are written, and are not
read when they start otherwise. -/
structure Library.Marked (l : Library) : Prop where
  gzip : ∀ {data enc}, l.gzip data = .ok enc → littleEndian enc 0 2 = Gzip.magic
  gunzip : ∀ {data}, littleEndian data 0 2 ≠ Gzip.magic →
    ∃ f, (l.gunzip data).readToEnd .empty = .error f
  zstd : ∀ {level data enc}, l.zstd level data = .ok enc → littleEndian enc 0 4 = Zstd.magic
  unzstd : ∀ {data}, Zstd.NoFrame (littleEndian data 0 4) →
    ∃ f, (l.unzstd data).readToEnd .empty = .error f

/-! ## Numbers in front -/

/-- The number in two bytes. -/
private theorem littleEndian_two (data : ByteArray) : littleEndian data 0 2 =
    (byteAt data 0).toNat + 256 * (byteAt data 1).toNat := by
  simp only [littleEndian, Nat.mul_zero, Nat.add_zero, Nat.zero_add]

/-- The number in four bytes. -/
private theorem littleEndian_four (data : ByteArray) : littleEndian data 0 4 =
    (byteAt data 0).toNat + 256 * ((byteAt data 1).toNat + 256 * ((byteAt data 2).toNat +
      256 * (byteAt data 3).toNat)) := by
  simp only [littleEndian, Nat.mul_zero, Nat.add_zero, Nat.zero_add, Nat.reduceAdd]

/-- The first byte of the number of a member. -/
private theorem Gzip.byteAt_of_magic {data : ByteArray} (h : littleEndian data 0 2 = magic) :
    (byteAt data 0).toNat = 0x1F := by
  have h0 := (byteAt data 0).toNat_lt
  rw [littleEndian_two, magic] at h
  omega

/-- The bytes of the number of a frame. -/
private theorem Zstd.bytes_of_magic {data : ByteArray} (h : littleEndian data 0 4 = magic) :
    (byteAt data 0).toNat = 0x28 ∧ (byteAt data 1).toNat = 0xB5 ∧ (byteAt data 3).toNat = 0xFD := by
  have h0 := (byteAt data 0).toNat_lt
  have h1 := (byteAt data 1).toNat_lt
  have h2 := (byteAt data 2).toNat_lt
  have h3 := (byteAt data 3).toNat_lt
  rw [littleEndian_four, magic] at h
  omega

/-- The last byte of a number that is passed over. -/
private theorem Zstd.byteAt_of_skippable {data : ByteArray}
    (h : littleEndian data 0 4 / 16 = skippableMagic / 16) : (byteAt data 3).toNat = 0x18 := by
  have h0 := (byteAt data 0).toNat_lt
  have h1 := (byteAt data 1).toNat_lt
  have h2 := (byteAt data 2).toNat_lt
  have h3 := (byteAt data 3).toNat_lt
  rw [littleEndian_four, skippableMagic] at h
  omega

/-- A member is not taken for a frame. -/
private theorem Zstd.noFrame_of_gzip {data : ByteArray} (h : littleEndian data 0 2 = Gzip.magic) :
    NoFrame (littleEndian data 0 4) := by
  have h0 := (byteAt data 0).toNat_lt
  have h1 := (byteAt data 1).toNat_lt
  rw [littleEndian_two, Gzip.magic] at h
  rw [NoFrame, littleEndian_four, magic, skippableMagic]
  omega

/-- A frame is not taken for a member. -/
private theorem Gzip.ne_magic_of_zstd {data : ByteArray} (h : littleEndian data 0 4 = Zstd.magic) :
    littleEndian data 0 2 ≠ magic := by
  obtain ⟨hfirst, -, -⟩ := Zstd.bytes_of_magic h
  have h1 := (byteAt data 1).toNat_lt
  rw [littleEndian_two, magic]
  omega

/-- A size with a large last byte is negative or too much. -/
theorem Lz4.refused_of_le {data : ByteArray} (h : 5 ≤ (byteAt data 3).toNat) :
    sizeField data < 0 ∨ maxDecompressed < sizeField data := by
  have hmax : maxDecompressed = 67108864 := by norm_num [maxDecompressed]
  have hsize : UInt32.size = 4294967296 := rfl
  have hfield : sizeField data = Int.bmod (littleEndian data 0 4) UInt32.size := rfl
  -- From the fifth value on the last byte alone makes the size larger than is allowed.
  obtain ⟨hle, hlt⟩ : 83886080 ≤ littleEndian data 0 4 ∧ littleEndian data 0 4 < 4294967296 := by
    have h0 := (byteAt data 0).toNat_lt
    have h1 := (byteAt data 1).toNat_lt
    have h2 := (byteAt data 2).toNat_lt
    have h3 := (byteAt data 3).toNat_lt
    rw [littleEndian_four]
    omega
  rw [hfield, hmax, hsize, Int.bmod, Int.emod_eq_of_lt (by omega) (by omega)]
  split <;> omega

/-! ## The formats as they are written and read here -/

/-- A member that was written starts with its header. -/
theorem Gzip.encode_extends (data : ByteArray) : Extends header (encode data) := by
  rw [encode]
  refine (Extends.append header (Deflate.encode level data)).trans ?_
  exact (Extends.pushLittleEndian _ _ _).trans (.pushLittleEndian _ _ _)

/-- A header begins with its number. -/
private theorem Gzip.skipHeader_of_ne {data : ByteArray} (h : littleEndian data 0 2 ≠ magic) :
    skipHeader data = none := by
  have hfirst : byteAt data 0 ≠ 0x1F ∨ byteAt data 1 ≠ 0x8B ∨ byteAt data 2 ≠ 8 := by
    by_contra hall
    simp only [not_or, Classical.not_not] at hall
    rw [littleEndian_two, hall.1, hall.2.1] at h
    exact h rfl
  simp only [skipHeader, hfirst, if_true, ite_self]

/-- A frame that was written starts with its header. -/
theorem Zstd.encode_extends (level : Int) (data : ByteArray) :
    Extends frameHead (encode level data) := pushBlocks_extends _ _ _ _ _

/-- What starts otherwise is not read. -/
private theorem Zstd.readToEnd_feed_of_noFrame {data : ByteArray}
    (h : NoFrame (littleEndian data 0 4)) : ∃ f, (feed data).readToEnd .empty = .error f := by
  by_cases hsize : data.size = 0
  · exact ⟨.malformed "no frame", by rw [feed, if_pos hsize, Feed.readToEnd]⟩
  · -- The first step looks for a frame, or for something that may be passed over.
    have hstep : (decoder data).step ⟨0, .empty, .frame⟩ = malformed "unknown frame" := by
      simp only [decoder, nextFrame]
      rw [if_neg (Ne.symm hsize), if_neg h.1, if_neg h.2]
    exact ⟨.malformed "unknown frame", by rw [readToEnd_feed hsize, Decoder.run, hstep, malformed]⟩

theorem Library.own_marked : own.Marked where
  gzip {data enc} h := by
    obtain rfl := Except.ok.inj h
    exact (Gzip.encode_extends data).littleEndian (by decide)
  gunzip {data} h := by
    refine ⟨.malformed "not a gzip header", ?_⟩
    show (Gzip.feed data).readToEnd .empty = _
    rw [Gzip.feed, Gzip.skipHeader_of_ne h, Feed.readToEnd]
  zstd {level data enc} h := by
    obtain rfl := Except.ok.inj h
    exact (Zstd.encode_extends level data).littleEndian (by decide)
  unzstd h := Zstd.readToEnd_feed_of_noFrame h

/-! ## What a codec refuses -/

namespace Codec

/-- Whether a codec refuses to decompress some data. -/
def Refuses (c : Codec) (data : ByteArray) : Prop :=
  ∃ message, c.decompress data = .error (.compression message)

section

variable {l : Library} {c : Codec} {data : ByteArray}

/-- What is not decoded is refused. -/
theorem refuses_of_error {f : Fault} (h : c.decode (some maxDecompressed) data = .error f) :
    c.Refuses data := ⟨_, decompress_of_error h⟩

theorem gzip_refuses (hl : l.Marked) (h : littleEndian data 0 2 ≠ Gzip.magic) :
    l.gzipCodec.Refuses data := by
  obtain ⟨f, hf⟩ := hl.gunzip h
  obtain ⟨f', hf'⟩ := Feed.exists_error_of_readToEnd hf maxDecompressed
  exact refuses_of_error (c := l.gzipCodec) hf'

theorem zstd_refuses (hl : l.Marked) (level : Int) (h : Zstd.NoFrame (littleEndian data 0 4)) :
    (l.zstdCodec level).Refuses data := by
  obtain ⟨f, hf⟩ := hl.unzstd h
  obtain ⟨f', hf'⟩ := Feed.exists_error_of_readToEnd hf maxDecompressed
  exact refuses_of_error (c := l.zstdCodec level) hf'

/-- Blocks are refused for the size in front of them, whatever would decode them. -/
theorem lz4_refuses (l : Library) (h : data.size < 4 ∨ 5 ≤ (byteAt data 3).toNat) :
    l.lz4Codec.Refuses data := by
  by_cases hsize : data.size < 4
  · exact refuses_of_error (c := l.lz4Codec) (Lz4.decodeWith_of_short hsize)
  · have hrefused := Lz4.refused_of_le (h.resolve_left hsize)
    exact refuses_of_error (c := l.lz4Codec)
      (Lz4.decodeWith_of_refused (Nat.not_lt.1 hsize) hrefused)

end

/-- The codecs whose data starts with a number of their own or with a size. -/
inductive Framed (l : Library) : Codec → Prop where
  | gzip : Framed l l.gzipCodec
  | lz4 : Framed l l.lz4Codec
  | zstd (level : Int) : Framed l (l.zstdCodec level)

/-- A byte of a text, read by its index. -/
private theorem le_byteAt_packed {text : List UInt8} (h : Json.IsText text) {i : Nat}
    (hi : i < text.length) : 0x20 ≤ byteAt (Json.packed text) i := by
  rw [Json.packed, byteAt_eq_getD, List.getD_eq_getElem _ _ hi]
  exact h.le _ (List.getElem_mem hi)

/-- The first byte of the number of a frame is a character, and none begins with the second. -/
private theorem byteAt_packed_one {text : List UInt8} (h : Json.IsText text)
    (hfirst : byteAt (Json.packed text) 0 = 0x28) : byteAt (Json.packed text) 1 ≠ 0xB5 := by
  rw [Json.packed, byteAt_eq_getD] at hfirst ⊢
  cases text with
  | nil => exact absurd hfirst (by decide)
  | cons b rest =>
    obtain rfl : b = 0x28 := hfirst
    have hrest := h.of_cons (by decide)
    cases rest with
    | nil => decide
    | cons b' rest =>
      intro hsecond
      obtain rfl : b' = 0xB5 := hsecond
      -- Behind a character of ASCII a new one begins, and none begins with this byte.
      exact absurd hrest.lt_or_le (by decide)

/-- No text is taken for something compressed. -/
theorem Framed.refuses_text {l : Library} (hl : l.Marked) {c : Codec} (hc : Framed l c)
    {text : List UInt8} (h : Json.IsText text) : c.Refuses (Json.packed text) := by
  have hsize : (Json.packed text).size = text.length := by simp [Json.packed, ByteArray.size]
  -- Behind the end there are zeros.
  have hbyte (i : Nat) : byteAt (Json.packed text) i = 0 ∨ 0x20 ≤ byteAt (Json.packed text) i := by
    by_cases hi : i < text.length
    · exact .inr (le_byteAt_packed h hi)
    · exact .inl (by rw [byteAt, dif_neg (hsize ▸ hi)])
  have hne {i : Nat} {b : UInt8} (hb : 0 < b ∧ b < 0x20) : byteAt (Json.packed text) i ≠ b := by
    obtain heq | hle := hbyte i
    · rw [heq]
      exact UInt8.ne_of_lt hb.1
    · exact (UInt8.ne_of_lt (UInt8.lt_of_lt_of_le hb.2 hle)).symm
  cases hc with
  | gzip =>
    refine gzip_refuses hl fun hmagic => ?_
    exact hne (b := 0x1F) (by decide) (UInt8.toNat_inj.1 (Gzip.byteAt_of_magic hmagic))
  | lz4 =>
    refine lz4_refuses l ?_
    -- The fourth byte of a size, if there is one, makes the size too large.
    by_cases hshort : text.length < 4
    · exact .inl (hsize ▸ hshort)
    · have hle : 0x20 ≤ byteAt (Json.packed text) 3 := le_byteAt_packed h (Nat.not_lt.1 hshort)
      exact .inr (Nat.le_trans (by decide) (UInt8.le_iff_toNat_le.1 hle))
  | zstd level =>
    refine zstd_refuses hl level ⟨fun hmagic => ?_, fun hskip => ?_⟩
    · obtain ⟨hfirst, hsecond, -⟩ := Zstd.bytes_of_magic hmagic
      exact byteAt_packed_one h (UInt8.toNat_inj.1 hfirst) (UInt8.toNat_inj.1 hsecond)
    · exact hne (b := 0x18) (by decide) (UInt8.toNat_inj.1 (Zstd.byteAt_of_skippable hskip))

end Codec

end CacheLayer.Compression

namespace CacheLayer.Remote.Transcoder

open Compression

/-- A reader with the wrong codec fails, over any libraries that mark what they write. JSON that was
not compressed is refused by the codecs of frames, whatever value it is of, what zstd has compressed
is refused by the others, and what gzip has compressed is refused by zstd. -/
theorem wrong_codec_fails {l : Library} (hl : l.Marked) :
    (∀ {ν : Type} [Json.JsonForm ν] [Json.Textual ν] (v : ν) {c : Codec}, Codec.Framed l c →
      ∃ text, (json ν).encode v = .ok text ∧
        ∃ message, ((json ν).compressed c).decode text = .error (.compression message)) ∧
    ∀ {data enc : ByteArray} {level : Int},
      ((l.zstdCodec level).compress data = .ok enc →
        l.gzipCodec.Refuses enc ∧ l.lz4Codec.Refuses enc) ∧
      (l.gzipCodec.compress data = .ok enc → (l.zstdCodec level).Refuses enc) := by
  refine ⟨fun {ν} _ _ v {c} hc => ⟨Json.encode v, rfl, ?_⟩, fun {data enc level} =>
    ⟨fun h => ?_, fun h => ?_⟩⟩
  · obtain ⟨message, hmessage⟩ := hc.refuses_text hl (Json.Textual.isText_write v)
    refine ⟨message, ?_⟩
    have hdecode : ((json ν).compressed c).decode (Json.encode v) =
        c.decompress (Json.encode v) >>= (json ν).decode := rfl
    rw [hdecode, Json.encode, hmessage]
    rfl
  · have hmagic := hl.zstd (Codec.encode_of_compress h)
    obtain ⟨-, -, hlast⟩ := Zstd.bytes_of_magic hmagic
    exact ⟨Codec.gzip_refuses hl (Gzip.ne_magic_of_zstd hmagic),
      Codec.lz4_refuses l (.inr (hlast ▸ by decide))⟩
  · have hmagic := hl.gzip (Codec.encode_of_compress h)
    exact Codec.zstd_refuses hl level (Zstd.noFrame_of_gzip hmagic)

theorem wrong_codec_fails_short :
    Library.own.Marked ∧ Json.Textual (List String) ∧ Codec.Framed .own .lz4 ∧
      Json.Textual Json ∧ Codec.Framed .own (.zstd 3) ∧
      (∃ message, ((json (List String)).compressed .lz4).decode (Json.encode ([] : List String)) =
        .error (.compression message)) ∧
      (∃ message, ((json Json).compressed (.zstd 3)).decode (Json.encode (Json.string "(µ")) =
        .error (.compression message)) ∧
      ((∃ enc, (Codec.zstd 0).compress .empty = .ok enc ∧
        Codec.gzip.Refuses enc ∧ Codec.lz4.Refuses enc) ∧
      ∃ enc, Codec.gzip.compress .empty = .ok enc ∧ (Codec.zstd 3).Refuses enc) := by
  obtain ⟨hjson, hbytes⟩ := wrong_codec_fails Library.own_marked
  obtain ⟨text, htext, hshort⟩ := hjson ([] : List String) .lz4
  obtain ⟨text', htext', hmarked⟩ := hjson (Json.string "(µ") (.zstd 3)
  obtain rfl := Except.ok.inj htext
  obtain rfl := Except.ok.inj htext'
  exact ⟨Library.own_marked, inferInstance, .lz4, inferInstance, .zstd 3, hshort, hmarked,
    ⟨_, rfl, hbytes.1 rfl⟩, _, rfl, hbytes.2 rfl⟩

end CacheLayer.Remote.Transcoder
