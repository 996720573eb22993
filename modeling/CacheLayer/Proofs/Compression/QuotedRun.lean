import CacheLayer.Proofs.Compression.Factoring
import CacheLayer.Proofs.Compression.Lz4
/-!
# A long run in an LZ4 block

A run of one letter between quotes is encoded as the quote and the first letter, a copy of the
letter for nearly all of the others, and the last literals. The copy takes one byte for every 255 of
its length, so that the block is some 255 times smaller than the data.

## Key results

- `Lz4.encode_quotedRun`: the block of a run
- `Lz4.size_runBlock`: how much room it takes
-/

namespace CacheLayer.Compression

namespace Lz4

open Factoring

/-! ## Encoding a run -/

/-- A run of `n` letters `a` between quotes. -/
def quotedRun (n : Nat) : ByteArray :=
  ⟨(0x22 :: (List.replicate n 0x61 ++ [0x22])).toArray⟩

@[simp] theorem size_quotedRun (n : Nat) : (quotedRun n).size = n + 2 := by
  simp [quotedRun, ByteArray.size]

theorem byteAt_quotedRun {n i : Nat} (hi : 0 < i) (hn : i ≤ n) :
    byteAt (quotedRun n) i = 0x61 := by
  obtain ⟨i, rfl⟩ := Nat.exists_eq_succ_of_ne_zero (Nat.pos_iff_ne_zero.1 hi)
  have hlt : i < n := hn
  rw [quotedRun, byteAt_eq_getD]
  simp [List.getD_eq_getElem?_getD, List.getElem?_append, hlt]

/-- A quoted run is factored into a quote, a letter, a copy of the letter, and the last literals. -/
theorem factor_quotedRun {n : Nat} (hn : 24 ≤ n) (hmax : n ≤ maxInput) :
    factor scope (quotedRun n) 0 (n + 2) = (#[⟨2, n - 5, 1⟩], n - 3) := by
  obtain ⟨m, rfl⟩ : ∃ m, n = m + 24 := ⟨n - 24, by omega⟩
  have hquote : byteAt (quotedRun (m + 24)) 0 = 0x22 := rfl
  have hplace : place (quotedRun (m + 24)) 2 = place (quotedRun (m + 24)) 1 := by
    have hwindow : window (quotedRun (m + 24)) (8 * 2) = window (quotedRun (m + 24)) (8 * 1) :=
      window_congr fun j hj => by
        rw [byteAt_quotedRun (by omega) (by omega), byteAt_quotedRun (by omega) (by omega)]
    simp only [place, hwindow]
  -- The first letter is not a copy of the quote, wherever its place in the table.
  have hfirst : copyLength scope (quotedRun (m + 24)) (m + 26) 0 1 = 0 := by
    have hagree : ∀ fuel, agreement (quotedRun (m + 24)) 0 1 fuel 0 = 0 := by
      intro fuel
      cases fuel with
      | zero => rfl
      | succ fuel =>
        rw [agreement, if_neg]
        rw [hquote, byteAt_quotedRun (by omega) (by omega)]
        decide
    simp [copyLength, hagree]
  have hsecond : copyLength scope (quotedRun (m + 24)) (m + 26) 1 2 = m + 19 := by
    have hfuel : min maxInput (m + 19) = m + 19 := by omega
    have hagree : agreement (quotedRun (m + 24)) 1 2 (m + 19) 0 = m + 19 := by
      rw [agreement_eq fun j hj => ?_, Nat.zero_add]
      rw [byteAt_quotedRun (by omega) (by omega), byteAt_quotedRun (by omega) (by omega)]
    simp [copyLength, scope, hfuel, hagree]
  -- What the table tells of the two places that are asked for.
  let table := (Array.replicate tableSize 0).set! (place (quotedRun (m + 24)) 0) 1
  have hbound (i : Nat) : place (quotedRun (m + 24)) i < tableSize := Nat.mod_lt _ (by decide)
  obtain ⟨seen, hread, hseen⟩ : ∃ seen, table.getD (place (quotedRun (m + 24)) 1) 0 = seen ∧
      (seen = 0 ∨ seen = 1) := by
    refine ⟨_, getD_set! _ (by simpa using hbound 0) _ _, ?_⟩
    rw [getD_replicate]
    split
    · exact .inr rfl
    · exact .inl rfl
  have hagain : (table.set! (place (quotedRun (m + 24)) 1) 2).getD
      (place (quotedRun (m + 24)) 2) 0 = 2 := by
    rw [hplace, getD_set! _ (by simpa [table] using hbound 1), if_pos rfl]
  calc pieces scope (quotedRun (m + 24)) (m + 26) (m + 22 + 1 + 1 + 1 + 1) 0 0
        (Array.replicate tableSize 0) #[]
    _ = pieces scope (quotedRun (m + 24)) (m + 26) (m + 22 + 1 + 1 + 1) 1 0 table #[] :=
      pieces_miss (by simp [scope]) (getD_replicate _ _) (.inl rfl)
    _ = pieces scope (quotedRun (m + 24)) (m + 26) (m + 22 + 1 + 1) 2 0
          (table.set! (place (quotedRun (m + 24)) 1) 2) #[] :=
      pieces_miss (by simp [scope]) hread (hseen.imp_right fun h => by rw [h]; exact hfirst)
    _ = pieces scope (quotedRun (m + 24)) (m + 26) (m + 22 + 1) (2 + (m + 19)) (2 + (m + 19)) _
          (#[].push ⟨2 - 0, m + 19, 2 + 1 - 2⟩) :=
      pieces_hit (by simp [scope]) hagain (by decide) hsecond (Nat.succ_ne_zero _)
    _ = (#[⟨2, m + 19, 1⟩], 2 + (m + 19)) := pieces_end (by simp [scope]; omega)
    _ = (#[⟨2, m + 24 - 5, 1⟩], m + 24 - 3) := by rw [Nat.add_comm 2]; rfl

private theorem toList_pushLength (out : ByteArray) {n : Nat} (h : 15 ≤ n) :
    (pushLength out n).data.toList =
      out.data.toList ++ (List.replicate ((n - 15) / 255) 0xFF ++ [((n - 15) % 255).toUInt8]) := by
  rw [pushLength, if_neg (Nat.not_lt.2 h), toList_push, toList_pushTimes, List.append_assoc]

/-- The piece in front of the last literals of a quoted run. -/
private theorem toList_pushPiece_run (out : ByteArray) (m : Nat) :
    (pushPiece (quotedRun (m + 24)) 0 ⟨2, m + 19, 1⟩ out).data.toList =
      out.data.toList ++ (0x2F :: 0x22 :: 0x61 :: 1 :: 0 ::
        (List.replicate (m / 255) 0xFF ++ [(m % 255).toUInt8])) := by
  have hfront : ((quotedRun (m + 24)).data.toList.drop 0).take 2 = [0x22, 0x61] := by
    simp [quotedRun, List.replicate_succ]
  have htoken : (16 * nibble 2 + nibble (m + 19 - 4)).toUInt8 = 0x2F := by
    rw [nibble, nibble, show min (m + 19 - 4) 15 = 15 by omega]
    rfl
  simp only [pushPiece, htoken]
  rw [toList_pushLength _ (by omega), pushLittleEndian, pushLittleEndian, pushLittleEndian,
    toList_push, toList_push, toList_pushSlice, hfront, pushLength, if_pos (by decide), toList_push]
  simp

/-- The last literals of a quoted run. -/
private theorem toList_pushLast_run (out : ByteArray) (m : Nat) :
    (pushLast (quotedRun (m + 24)) (m + 21) out).data.toList =
      out.data.toList ++ [0x50, 0x61, 0x61, 0x61, 0x61, 0x22] := by
  have hback : ((quotedRun (m + 24)).data.toList.drop (m + 21)).take 5 =
      [0x61, 0x61, 0x61, 0x61, 0x22] := by
    have hdrop : (List.replicate (m + 24) (0x61 : UInt8) ++ [0x22]).drop (m + 20) =
        [0x61, 0x61, 0x61, 0x61, 0x22] := by
      rw [List.drop_append_of_le_length (by simp), List.drop_replicate,
        show m + 24 - (m + 20) = 4 by omega]
      rfl
    simp [quotedRun, hdrop]
  have hlength : (quotedRun (m + 24)).size - (m + 21) = 5 := by
    rw [size_quotedRun]
    omega
  simp only [pushLast, hlength]
  rw [toList_pushSlice, hback, pushLength, if_pos (by decide), toList_push, List.append_assoc]
  rfl

/-- The block that a quoted run of `n` letters is encoded as. -/
def runBlock (n : Nat) : ByteArray :=
  ⟨((pushLittleEndian .empty (n + 2) 4).data.toList ++
    (0x2F :: 0x22 :: 0x61 :: 1 :: 0 :: (List.replicate ((n - 24) / 255) 0xFF ++
      [((n - 24) % 255).toUInt8, 0x50, 0x61, 0x61, 0x61, 0x61, 0x22]))).toArray⟩

/-- A quoted run is encoded as its block. -/
theorem encode_quotedRun {n : Nat} (hn : 24 ≤ n) (hmax : n + 2 ≤ maxInput) :
    encode (quotedRun n) = .ok (runBlock n) := by
  rw [encode_eq (by simpa using hmax)]
  simp only [size_quotedRun]
  rw [factor_quotedRun hn (by omega)]
  obtain ⟨m, rfl⟩ : ∃ m, n = m + 24 := ⟨n - 24, by omega⟩
  apply congrArg Except.ok
  ext1
  apply Array.toList_inj.1
  rw [show m + 24 - 3 = m + 21 by omega, toList_pushLast_run, pushPieces]
  simp only [List.foldl_cons, List.foldl_nil]
  rw [show m + 24 - 5 = m + 19 by omega, toList_pushPiece_run]
  simp [runBlock]

/-- A run of 255 letters more takes one byte more. -/
theorem size_runBlock (n : Nat) : (runBlock n).size = 16 + (n - 24) / 255 := by
  have hhead : (pushLittleEndian .empty (n + 2) 4).data.toList.length = 4 := rfl
  rw [runBlock, ByteArray.size, List.size_toArray, List.length_append, hhead]
  simp
  omega

end Lz4

end CacheLayer.Compression
