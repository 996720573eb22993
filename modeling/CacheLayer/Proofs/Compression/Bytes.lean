import CacheLayer.Compression.Bits
/-!
# Bytes that are appended

Coders only ever append to their output: what has been written stays where it is.

## Key results

- `Compression.Extends`: some bytes stand in front of others
- `Compression.littleEndian_pushLittleEndian`: a number that was written in bytes is read back
-/

namespace CacheLayer.Compression

/-- Whether bytes are what others begin with. -/
def Extends (out out' : ByteArray) : Prop := ∃ more : ByteArray, out' = out ++ more

namespace Extends

variable {a b c : ByteArray}

@[refl] protected theorem refl (a : ByteArray) : Extends a a := ⟨.empty, by simp⟩

protected theorem trans (h : Extends a b) (h' : Extends b c) : Extends a c := by
  obtain ⟨x, rfl⟩ := h
  obtain ⟨y, rfl⟩ := h'
  exact ⟨x ++ y, ByteArray.append_assoc⟩

theorem append (a b : ByteArray) : Extends a (a ++ b) := ⟨b, rfl⟩

theorem size_le (h : Extends a b) : a.size ≤ b.size := by
  obtain ⟨x, rfl⟩ := h
  rw [ByteArray.size_append]
  exact Nat.le_add_right _ _

/-- What has been written stays where it is. -/
theorem byteAt (h : Extends a b) {i : Nat} (hi : i < a.size) :
    Compression.byteAt b i = Compression.byteAt a i := by
  obtain ⟨x, rfl⟩ := h
  have hi' : i < (a ++ x).size := by
    rw [ByteArray.size_append]
    exact Nat.lt_add_right _ hi
  rw [Compression.byteAt, Compression.byteAt, dif_pos hi, dif_pos hi',
    ByteArray.getElem_append_left hi]

/-- A number that has been written stays where it is. -/
theorem littleEndian (h : Extends a b) {i n : Nat} (hi : i + n ≤ a.size) :
    Compression.littleEndian b i n = Compression.littleEndian a i n := by
  induction n generalizing i with
  | zero => rfl
  | succ n ih =>
    rw [Compression.littleEndian, Compression.littleEndian, h.byteAt (by omega),
      ih (i := i + 1) (by omega)]

theorem push (a : ByteArray) (x : UInt8) : Extends a (a.push x) :=
  ⟨⟨#[x]⟩, by ext1; simp [ByteArray.data_push, ByteArray.data_append]⟩

end Extends

/-! ## How bytes are appended -/

/-- A slice is appended as it stands in the data. -/
theorem pushSlice_eq (out data : ByteArray) (start n : Nat) :
    pushSlice out data start n = out ++ data.extract start (start + n) := by
  have hfront : out.extract 0 out.size = out := by simp
  have hback : out.extract (out.size + min n (data.data.size - start)) out.data.size = .empty := by
    simp
  rw [pushSlice, ByteArray.copySlice_eq_append, hfront, hback, ByteArray.append_empty]

theorem Extends.pushSlice (out data : ByteArray) (start n : Nat) :
    Extends out (pushSlice out data start n) := by
  rw [pushSlice_eq]
  exact .append _ _

theorem Extends.pushTimes (out : ByteArray) (b : UInt8) (n : Nat) :
    Extends out (pushTimes out b n) := by
  induction n generalizing out with
  | zero => exact .refl out
  | succ n ih => exact (Extends.push out b).trans (ih _)

theorem Extends.pushBack (out : ByteArray) (distance n : Nat) :
    Extends out (pushBack out distance n) := by
  induction n generalizing out with
  | zero => exact .refl out
  | succ n ih => exact (Extends.push out _).trans (ih _)

theorem Extends.pushLittleEndian (out : ByteArray) (value n : Nat) :
    Extends out (pushLittleEndian out value n) := by
  induction n generalizing out value with
  | zero => exact .refl out
  | succ n ih => exact (Extends.push out _).trans (ih _ _)

@[simp] theorem size_pushTimes (out : ByteArray) (b : UInt8) (n : Nat) :
    (pushTimes out b n).size = out.size + n := by
  induction n generalizing out with
  | zero => rfl
  | succ n ih => rw [pushTimes, ih, ByteArray.size_push, Nat.add_assoc, Nat.add_comm 1]

@[simp] theorem size_pushLittleEndian (out : ByteArray) (value n : Nat) :
    (pushLittleEndian out value n).size = out.size + n := by
  induction n generalizing out value with
  | zero => rfl
  | succ n ih => rw [pushLittleEndian, ih, ByteArray.size_push, Nat.add_assoc, Nat.add_comm 1]

/-- The byte that is appended stands behind the others. -/
theorem byteAt_push (out : ByteArray) (b : UInt8) : byteAt (out.push b) out.size = b := by
  have h : out.size < (out.push b).size := by
    rw [ByteArray.size_push]
    exact Nat.lt_succ_self _
  rw [byteAt, dif_pos h]
  exact Array.getElem_push_eq

/-- A byte that is appended several times stands there as often. -/
theorem byteAt_pushTimes (out : ByteArray) (b : UInt8) {i n : Nat} (hi : i < n) :
    byteAt (pushTimes out b n) (out.size + i) = b := by
  induction n generalizing out i with
  | zero => exact absurd hi (Nat.not_lt_zero i)
  | succ n ih =>
    have hsize : (out.push b).size = out.size + 1 := ByteArray.size_push
    cases i with
    | zero =>
      -- The first copy stays where it was put, and the others are behind it.
      rw [pushTimes, (Extends.pushTimes (out.push b) b n).byteAt (by omega)]
      exact byteAt_push out b
    | succ i =>
      have := ih (out.push b) (i := i) (by omega)
      rwa [hsize, Nat.add_assoc, Nat.add_comm 1] at this

/-- A number that was written in bytes is read back, as far as it fits. -/
theorem littleEndian_pushLittleEndian (out : ByteArray) (value n : Nat) :
    littleEndian (pushLittleEndian out value n) out.size n = value % Nat.pow 256 n := by
  induction n generalizing out value with
  | zero => exact (Nat.mod_one value).symm
  | succ n ih =>
    have hpow : Nat.pow 256 (n + 1) = 256 * Nat.pow 256 n := Nat.pow_succ'
    -- The lowest byte is written first, and the bytes of the quotient come behind it.
    have hfirst : byteAt (pushLittleEndian (out.push value.toUInt8) (value / 256) n) out.size =
        value.toUInt8 := by
      rw [(Extends.pushLittleEndian _ _ _).byteAt (by simp), byteAt_push]
    have hrest := ih (out.push value.toUInt8) (value / 256)
    rw [ByteArray.size_push] at hrest
    rw [pushLittleEndian, littleEndian, hfirst, hrest, hpow, Nat.mod_mul]
    simp [Nat.toUInt8]

/-! ## What stands in front of an index -/

/-- Data extends what stands in front of an index of it. -/
theorem Extends.front {data : ByteArray} {i : Nat} (hi : i ≤ data.size) :
    Extends (data.extract 0 i) data :=
  ⟨data.extract i data.size, by
    rw [ByteArray.extract_append_extract, Nat.zero_min, Nat.max_eq_right hi,
      ByteArray.extract_zero_size]⟩

theorem size_front {data : ByteArray} {i : Nat} (hi : i ≤ data.size) :
    (data.extract 0 i).size = i := by
  rw [ByteArray.size_extract, Nat.min_eq_left hi, Nat.sub_zero]

/-- What was appended is found behind what was there before. -/
theorem Extends.extract_eq {a x b : ByteArray} (h : Extends (a ++ x) b) :
    b.extract a.size (a.size + x.size) = x := by
  obtain ⟨y, rfl⟩ := h
  -- The front is all that `a` has to give, and none of it lies behind its end.
  have hfront : a.extract a.size (a.size + x.size) = .empty :=
    ByteArray.extract_eq_empty_iff.2 (Nat.min_le_right _ _)
  rw [ByteArray.append_assoc, ByteArray.extract_append, hfront]
  simp [ByteArray.extract_append_eq_left]

/-- The next byte of the data is appended to what stands in front of it. -/
theorem push_front {data : ByteArray} {i : Nat} (hi : i < data.size) :
    (data.extract 0 i).push (byteAt data i) = data.extract 0 (i + 1) := by
  have hbyte : data.extract i (i + 1) = ⟨#[byteAt data i]⟩ := by
    rw [byteAt, dif_pos hi]
    exact ByteArray.extract_add_one hi
  have hpush : (data.extract 0 i).push (byteAt data i) =
      data.extract 0 i ++ ⟨#[byteAt data i]⟩ := by
    ext1
    simp [ByteArray.data_push, ByteArray.data_append]
  rw [hpush, ← hbyte, ByteArray.extract_append_extract, Nat.zero_min, Nat.max_eq_right (by omega)]

/-- The next bytes of the data are appended to what stands in front of them. -/
theorem pushSlice_front (data : ByteArray) (i n : Nat) :
    pushSlice (data.extract 0 i) data i n = data.extract 0 (i + n) := by
  rw [pushSlice_eq, ByteArray.extract_append_extract, Nat.zero_min, Nat.max_eq_right (by omega)]

/-- A byte that the data repeats is appended as often. -/
theorem pushTimes_front {data : ByteArray} {b : UInt8} {i n : Nat} (hsize : i + n ≤ data.size)
    (h : ∀ m < n, byteAt data (i + m) = b) :
    pushTimes (data.extract 0 i) b n = data.extract 0 (i + n) := by
  induction n generalizing i with
  | zero => rfl
  | succ n ih =>
    have hbyte : byteAt data i = b := h 0 (Nat.succ_pos n)
    have hrest : ∀ m < n, byteAt data (i + 1 + m) = b := by
      intro m hm
      rw [Nat.add_assoc, Nat.add_comm 1]
      exact h (m + 1) (Nat.succ_lt_succ hm)
    rw [pushTimes, ← hbyte, push_front (by omega), hbyte, ih (by omega) hrest, Nat.add_assoc,
      Nat.add_comm 1]

theorem size_pushSlice (out : ByteArray) {data : ByteArray} {start n : Nat}
    (h : start + n ≤ data.size) : (pushSlice out data start n).size = out.size + n := by
  rw [pushSlice_eq, ByteArray.size_append, ByteArray.size_extract]
  omega

/-- A slice that was appended is found behind what was there before. -/
theorem pushSlice_of_extends (o : ByteArray) {out data enc : ByteArray} {start n : Nat}
    (h : Extends (pushSlice out data start n) enc) (hsize : start + n ≤ data.size) :
    pushSlice o enc out.size n = pushSlice o data start n := by
  have hslice : (data.extract start (start + n)).size = n := by
    rw [ByteArray.size_extract]
    omega
  rw [pushSlice_eq] at h
  -- The slice stands in `enc` where `out` ends, with its whole length.
  have hfound := h.extract_eq
  rw [hslice] at hfound
  rw [pushSlice_eq, pushSlice_eq, hfound]

/-! ## Bytes as lists -/

theorem toList_push (out : ByteArray) (b : UInt8) :
    (out.push b).data.toList = out.data.toList ++ [b] := by
  rw [ByteArray.data_push, Array.toList_push]

theorem toList_pushTimes (out : ByteArray) (b : UInt8) (n : Nat) :
    (pushTimes out b n).data.toList = out.data.toList ++ List.replicate n b := by
  induction n generalizing out with
  | zero => simp [pushTimes]
  | succ n ih => rw [pushTimes, ih, toList_push, List.append_assoc, List.replicate_succ]; rfl

theorem toList_pushSlice (out data : ByteArray) (start n : Nat) :
    (pushSlice out data start n).data.toList =
      out.data.toList ++ (data.data.toList.drop start).take n := by
  rw [pushSlice_eq, ByteArray.data_append, Array.toList_append, ByteArray.data_extract,
    Array.toList_extract, List.extract_eq_take_drop, Nat.add_sub_cancel_left]

/-- The bytes of a list, read by their index. -/
theorem byteAt_eq_getD (l : List UInt8) (i : Nat) : byteAt ⟨l.toArray⟩ i = l.getD i 0 := by
  have hsize : (⟨l.toArray⟩ : ByteArray).size = l.length := by simp [ByteArray.size]
  by_cases hi : i < l.length
  · rw [byteAt, dif_pos (hsize.symm ▸ hi), List.getD_eq_getElem?_getD, List.getElem?_eq_getElem hi]
    rfl
  · rw [byteAt, dif_neg (hsize.symm ▸ hi), List.getD_eq_getElem?_getD,
      List.getElem?_eq_none (Nat.not_lt.1 hi)]
    rfl

/-- Eight bytes that stand at two places are one window. -/
theorem window_congr {data : ByteArray} {i j : Nat}
    (h : ∀ m < 8, byteAt data (i + m) = byteAt data (j + m)) :
    window data (8 * i) = window data (8 * j) := by
  have h0 : byteAt data i = byteAt data j := h 0 (by decide)
  have hi (i : Nat) : 8 * i / 8 = i := by omega
  have hj (i : Nat) : 8 * i % 8 = 0 := by omega
  -- A window at the beginning of a byte is that byte and the seven behind it.
  simp only [window, hi, hj, h0, h 1 (by decide), h 2 (by decide), h 3 (by decide), h 4 (by decide),
    h 5 (by decide), h 6 (by decide), h 7 (by decide)]

end CacheLayer.Compression
