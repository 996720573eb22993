import CacheLayer.Compression.Gzip
import CacheLayer.Proofs.Compression.DeflateStreams
import Mathlib
/-!
# Gzip members that are read back

The header of a member that was written names no fields, so its stream begins behind ten bytes. The
stream ends with the data, and the trailer behind it belongs to the data.

## Key results

- `Gzip.run_content`: a stream that ends in front of its trailer is decoded
- `Gzip.readToEnd_feed_encode`: what was encoded is decoded
-/

namespace CacheLayer.Compression.Gzip

variable {enc data out : ByteArray}

/-- A header without fields is ten bytes long. -/
theorem skipHeader_of_extends (h : Extends header enc) : skipHeader enc = some 10 := by
  have hsize : 10 ≤ enc.size := h.size_le
  have hbyte : ∀ i < 10, byteAt enc i = byteAt header i := fun i hi => h.byteAt hi
  have hshort : ¬ enc.size < 10 := by omega
  simp only [skipHeader, hbyte 0 (by decide), hbyte 1 (by decide), hbyte 2 (by decide),
    hbyte 3 (by decide), if_neg hshort]
  rfl

/-- A stream that ends in front of its trailer is decoded. -/
theorem run_content {stop : Nat} {s : Deflate.State} (h : Deflate.Ends enc stop out s)
    (htrailer : TrailerMatches enc ((stop + 7) / 8) out) {fuel : Nat}
    (hfuel : stop < s.pos + fuel) : (decoder enc).run fuel (.content s) = .ok out := by
  induction h generalizing fuel with
  | @ended s hnext hpos =>
    -- One step to the end of the stream, and one to check the trailer.
    obtain ⟨fuel, rfl⟩ := Nat.exists_eq_add_of_le' (show 2 ≤ fuel by omega)
    have hstep : (decoder enc).step (.content s) = .more (.trailer ((stop + 7) / 8) out) := by
      simp only [decoder, hnext]
    have hend : (decoder enc).step (.trailer ((stop + 7) / 8) out) = .done out := by
      simp only [decoder, if_pos htrailer]
    rw [Decoder.run_more hstep]
    exact Decoder.run_done hend fuel
  | @more s s' hnext hpos hrest ih =>
    have hlt := hrest.pos_lt
    obtain ⟨fuel, rfl⟩ := Nat.exists_eq_succ_of_ne_zero (show fuel ≠ 0 by omega)
    have hstep : (decoder enc).step (.content s) = .more (.content s') := by
      simp only [decoder, hnext]
    rw [Decoder.run_more hstep]
    exact ih (by omega)

/-- The trailer that was written belongs to the data. -/
private theorem trailerMatches (pre data : ByteArray) :
    TrailerMatches (pushLittleEndian (pushLittleEndian pre (Crc32.ofBytes data).toNat 4)
      data.size 4) pre.size data := by
  let o₁ := pushLittleEndian pre (Crc32.ofBytes data).toNat 4
  have hsize : o₁.size = pre.size + 4 := size_pushLittleEndian _ _ _
  have hcheck : littleEndian o₁ pre.size 4 = (Crc32.ofBytes data).toNat := by
    rw [littleEndian_pushLittleEndian]
    exact Nat.mod_eq_of_lt (UInt32.toNat_lt _)
  have hall : (pushLittleEndian o₁ data.size 4).size = o₁.size + 4 := size_pushLittleEndian _ _ _
  refine ⟨show pre.size + 8 ≤ (pushLittleEndian o₁ data.size 4).size by omega, ?_, ?_⟩
  · rw [(Extends.pushLittleEndian _ _ _).littleEndian hsize.ge, hcheck]
  · rw [← hsize, littleEndian_pushLittleEndian]

/-- What was encoded is decoded. -/
theorem readToEnd_feed_encode (data : ByteArray) :
    (feed (encode data)).readToEnd .empty = .ok data := by
  -- The level of a member is one at which streams are compressed and not stored.
  let pre := header ++ Deflate.compress data
  have hlevel : Deflate.encode level data = Deflate.compress data := if_neg (by decide)
  have hencode : encode data =
      pushLittleEndian (pushLittleEndian pre (Crc32.ofBytes data).toNat 4) data.size 4 := by
    rw [encode, hlevel]
  have hext : Extends pre (encode data) := by
    rw [hencode]
    exact (Extends.pushLittleEndian _ _ _).trans (.pushLittleEndian _ _ _)
  have hsize : (encode data).size = pre.size + 8 := by
    rw [hencode, size_pushLittleEndian, size_pushLittleEndian]
  obtain ⟨stop, hends, hstop⟩ := Deflate.ends_compress hext
  have hstop : (stop + 7) / 8 = pre.size := hstop
  have htrailer : TrailerMatches (encode data) ((stop + 7) / 8) data := by
    rw [hstop, hencode]
    exact trailerMatches pre data
  rw [readToEnd_feed (skipHeader_of_extends ((Extends.append _ _).trans hext))]
  exact run_content hends htrailer (show stop < 80 + (8 * (encode data).size + 2 + 1) by omega)

end CacheLayer.Compression.Gzip
