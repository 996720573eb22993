import CacheLayer.Compression.Lz4.Decode
import CacheLayer.Compression.Lz4.Encode
import CacheLayer.Proofs.Compression.Feeds
/-!
# LZ4 blocks behind their size

What is encoded stands behind its size, which is read before anything is decoded: a block that is
too large is refused without being looked at.

## Key results

- `Lz4.sizeField_encode`: the size in front of a block is that of the data
- `Lz4.lengthBytes_eq`: length bytes are added up
- `Lz4.decodeWith_limit`: a block behind its size is decoded within a limit if the data fits
-/

namespace CacheLayer.Compression.Lz4

/-! ## The size in front of a block -/

theorem pushLength_extends (out : ByteArray) (n : Nat) :
    Extends out (pushLength out n) := by
  rw [pushLength]
  split
  · exact .refl out
  · exact (Extends.pushTimes _ _ _).trans (.push _ _)

theorem pushPiece_extends (data : ByteArray) (start : Nat) (p : Piece) (out : ByteArray) :
    Extends out (pushPiece data start p out) := by
  simp only [pushPiece]
  refine .trans ?_ (pushLength_extends _ _)
  refine .trans ?_ (.pushLittleEndian _ _ _)
  refine .trans ?_ (.pushSlice _ _ _ _)
  exact (Extends.push _ _).trans (pushLength_extends _ _)

theorem pushLast_extends (data : ByteArray) (start : Nat) (out : ByteArray) :
    Extends out (pushLast data start out) := by
  simp only [pushLast]
  refine .trans ?_ (.pushSlice _ _ _ _)
  exact (Extends.push _ _).trans (pushLength_extends _ _)

/-- Appends pieces one after another: the output, and the index behind them in the data. -/
def pushPieces (data : ByteArray) (pieces : List Piece) (acc : ByteArray × Nat) :
    ByteArray × Nat :=
  pieces.foldl (fun acc p => (pushPiece data acc.2 p acc.1, acc.2 + p.literals + p.length)) acc

theorem pushPieces_extends (data : ByteArray) (pieces : List Piece)
    (acc : ByteArray × Nat) : Extends acc.1 (pushPieces data pieces acc).1 := by
  induction pieces generalizing acc with
  | nil => exact .refl _
  | cons p pieces ih => exact (pushPiece_extends data acc.2 p acc.1).trans (ih _)

/-- What is encoded is the size, the pieces, and the last literals. -/
theorem encode_eq {data : ByteArray} (h : data.size ≤ maxInput) :
    encode data = .ok (pushLast data (factor scope data 0 data.size).2
      (pushPieces data (factor scope data 0 data.size).1.toList
        (pushLittleEndian .empty data.size 4, 0)).1) := by
  rw [encode, if_neg (Nat.not_lt.2 h), pushPieces, Array.foldl_toList]

/-- What is encoded stands behind its size, and it is not too much. -/
theorem encode_extends {data enc : ByteArray} (h : encode data = .ok enc) :
    Extends (pushLittleEndian .empty data.size 4) enc ∧ data.size ≤ maxInput := by
  by_cases hsize : data.size ≤ maxInput
  · rw [encode_eq hsize] at h
    obtain rfl := Except.ok.inj h
    exact ⟨.trans (pushPieces_extends data _ (_, 0)) (pushLast_extends data _ _), hsize⟩
  · rw [encode, if_pos (Nat.not_le.1 hsize)] at h
    exact nomatch h

/-- The size in front of a block is that of the data. -/
theorem sizeField_encode {data enc : ByteArray} (h : encode data = .ok enc) :
    sizeField enc = data.size := by
  obtain ⟨hext, hsize⟩ := encode_extends h
  have hlt : data.size < 2 ^ 31 := by
    rw [maxInput] at hsize
    omega
  have hread : littleEndian enc 0 4 = data.size := by
    have h := littleEndian_pushLittleEndian .empty data.size 4
    rw [Nat.mod_eq_of_lt (Nat.lt_trans hlt (by decide))] at h
    exact (hext.littleEndian (by simp)).trans h
  have hfield : sizeField enc = Int.bmod (littleEndian enc 0 4) UInt32.size := rfl
  rw [hfield, hread]
  exact Int.bmod_eq_of_le (by simp) (by simp; omega)

/-- A block that stands behind the size of what it is decoded to is decoded within a limit if that
fits. -/
theorem decodeWith_limit {block : ByteArray → Nat → Nat → Except Fault ByteArray} (limit : Nat)
    {data enc : ByteArray} (hfield : sizeField enc = data.size)
    (h : decodeWith block none enc = .ok data) :
    decodeWith block (some limit) enc = within limit data := by
  rw [decodeWith, hfield] at h ⊢
  split at h
  · exact nomatch h
  · next hsize =>
    rw [if_neg hsize]
    have hpos : ¬ (data.size : Int) < 0 := by omega
    simp only [hpos, false_or, Int.toNat_natCast, Exceeds, Bool.false_eq_true, if_false,
      decide_eq_true_eq] at h ⊢
    -- The size in front tells whether there is too much.
    by_cases hlarge : limit < data.size
    · simp [within, overflow, hlarge, Nat.not_le.2 hlarge]
    · rw [if_neg hlarge, h, within, if_pos (Nat.not_lt.1 hlarge)]

/-! ## Length bytes -/

/-- Length bytes of 255 are passed over up to the first other byte. -/
theorem lengthBytes_eq {data : ByteArray} {limit fuel pos sum k : Nat} {b : UInt8}
    (hfull : ∀ i < k, byteAt data (pos + i) = 255) (hlast : byteAt data (pos + k) = b)
    (hb : b ≠ 255) (hlimit : pos + k + 1 ≤ limit) (hfuel : k < fuel) :
    lengthBytes data limit fuel pos sum = some (sum + 255 * k + b.toNat, pos + k + 1) := by
  -- By the number of full bytes: each of them is one step, and one step is left for the last byte.
  induction k generalizing fuel pos sum with
  | zero =>
    obtain ⟨fuel, rfl⟩ := Nat.exists_eq_succ_of_ne_zero (Nat.pos_iff_ne_zero.1 hfuel)
    have hbyte : byteAt data pos = b := hlast
    simp only [lengthBytes, hbyte]
    rw [if_neg (by omega), if_neg hb]
    rfl
  | succ k ih =>
    obtain ⟨fuel, rfl⟩ := Nat.exists_eq_succ_of_ne_zero (Nat.ne_zero_of_lt hfuel)
    have hbyte : byteAt data pos = 255 := hfull 0 (Nat.succ_pos k)
    simp only [lengthBytes, hbyte]
    have hfull' : ∀ i < k, byteAt data (pos + 1 + i) = 255 := by
      intro i hi
      rw [Nat.add_assoc, Nat.add_comm 1]
      exact hfull (i + 1) (by omega)
    have hlast' : byteAt data (pos + 1 + k) = b := by
      rw [Nat.add_assoc, Nat.add_comm 1]
      exact hlast
    rw [if_neg (by omega), if_pos trivial, ih hfull' hlast' (by omega) (by omega)]
    have hbyte : (255 : UInt8).toNat = 255 := rfl
    simp only [hbyte, Option.some.injEq, Prod.mk.injEq]
    omega

end CacheLayer.Compression.Lz4
