import CacheLayer.Proofs.Compression.Bytes
import Mathlib
/-!
# Bits that are read back

Data is taken for one large number, its first byte least significant. Reading some bits is dividing
this number by a power of two and taking a remainder; writing some is adding a multiple of a power
of two. What a writer has written is carried by all data that it becomes a part of, and so is
whatever it had written earlier.

## Key results

- `bitsAt_eq`: what bits are read at a position
- `BitWriter.value_push`: what it means to write some bits
- `BitWriter.Carried.bitsAt_push`: bits that were written are read back
- `BitWriter.Grows`: what carries a writer carries every writer that it has gone on from
-/

namespace CacheLayer.Compression

/-! ## Data as a number -/

/-- The number that data is, least significant byte first. -/
def number (data : ByteArray) : Nat := littleEndian data 0 data.size

theorem two_pow_eight_mul_succ (n : Nat) : 2 ^ (8 * (n + 1)) = 256 * 2 ^ (8 * n) := by
  rw [Nat.mul_succ, pow_add, Nat.mul_comm]
  rfl

theorem littleEndian_lt (data : ByteArray) (i n : Nat) : littleEndian data i n < 2 ^ (8 * n) := by
  induction n generalizing i with
  | zero => simp [littleEndian]
  | succ n ih =>
    have hbyte : (byteAt data i).toNat < 256 := UInt8.toNat_lt _
    have := ih (i + 1)
    rw [littleEndian, two_pow_eight_mul_succ]
    omega

/-- A number in two parts. -/
theorem littleEndian_add (data : ByteArray) (i n m : Nat) :
    littleEndian data i (n + m) =
      littleEndian data i n + 2 ^ (8 * n) * littleEndian data (i + n) m := by
  induction n generalizing i with
  | zero => simp [littleEndian]
  | succ n ih =>
    have hi : i + 1 + n = i + (n + 1) := by omega
    rw [Nat.succ_add, littleEndian, littleEndian, ih (i + 1), two_pow_eight_mul_succ, hi]
    ring

/-- Behind the end there are zeros. -/
theorem littleEndian_of_size_le {data : ByteArray} {i : Nat} (hi : data.size ≤ i) (n : Nat) :
    littleEndian data i n = 0 := by
  induction n generalizing i with
  | zero => rfl
  | succ n ih =>
    rw [littleEndian, ih (by omega), byteAt, dif_neg (by omega)]
    rfl

/-- Some bytes of the data are a part of its number. -/
theorem littleEndian_eq_number (data : ByteArray) (i n : Nat) :
    littleEndian data i n = number data / 2 ^ (8 * i) % 2 ^ (8 * n) := by
  -- The data and as many zeros behind it as are asked for.
  have hall : number data = littleEndian data 0 (i + (n + data.size)) := by
    rw [show i + (n + data.size) = data.size + (i + n) by omega, littleEndian_add, Nat.zero_add,
      littleEndian_of_size_le (Nat.le_refl _), Nat.mul_zero, Nat.add_zero, number]
  rw [hall, littleEndian_add, littleEndian_add, Nat.zero_add,
    Nat.add_mul_div_left _ _ (by positivity), Nat.div_eq_of_lt (littleEndian_lt data 0 i),
    Nat.zero_add, Nat.add_mul_mod_self_left, Nat.mod_eq_of_lt (littleEndian_lt data i n)]

theorem number_lt (data : ByteArray) : number data < 2 ^ (8 * data.size) :=
  littleEndian_lt data 0 _

/-- A byte of the second of two pieces of data. -/
theorem byteAt_append_right (a b : ByteArray) (i : Nat) :
    byteAt (a ++ b) (a.size + i) = byteAt b i := by
  by_cases hi : i < b.size
  · rw [byteAt, byteAt, dif_pos (by rw [ByteArray.size_append]; omega), dif_pos hi,
      ByteArray.getElem_append_right (by omega)]
    simp
  · rw [byteAt, byteAt, dif_neg (by rw [ByteArray.size_append]; omega), dif_neg hi]

/-- The number of one piece of data behind another. -/
theorem number_append (a b : ByteArray) :
    number (a ++ b) = number a + 2 ^ (8 * a.size) * number b := by
  have hback : ∀ i n, littleEndian (a ++ b) (a.size + i) n = littleEndian b i n := by
    intro i n
    induction n generalizing i with
    | zero => rfl
    | succ n ih =>
      rw [littleEndian, littleEndian, byteAt_append_right, Nat.add_assoc, ih]
  have hfront : littleEndian (a ++ b) 0 a.size = number a :=
    (Extends.append a b).littleEndian (Nat.zero_add _).le
  rw [number, ByteArray.size_append, littleEndian_add, hfront, Nat.zero_add, ← Nat.add_zero a.size,
    hback, Nat.add_zero]
  rfl

theorem number_push (data : ByteArray) (b : UInt8) :
    number (data.push b) = number data + 2 ^ (8 * data.size) * b.toNat := by
  have happend : data.push b = data ++ ⟨#[b]⟩ := by
    ext1
    simp [ByteArray.data_push, ByteArray.data_append]
  have hbyte : number ⟨#[b]⟩ = b.toNat := rfl
  rw [happend, number_append, hbyte]

/-! ## Reading bits -/

/-- Two words of bits that do not overlap. -/
private theorem toNat_or_shiftLeft {x y s : UInt64} {n : Nat} (hs : s.toNat = n) (hn : n < 64)
    (hx : x.toNat < 2 ^ n) (hy : 2 ^ n * y.toNat < 2 ^ 64) :
    (x ||| y <<< s).toNat = x.toNat + 2 ^ n * y.toNat := by
  have hshift : (y <<< s).toNat = 2 ^ n * y.toNat := by
    rw [UInt64.toNat_shiftLeft, hs, Nat.mod_eq_of_lt hn, Nat.shiftLeft_eq, Nat.mul_comm,
      Nat.mod_eq_of_lt hy]
  rw [UInt64.toNat_or, hshift, Nat.or_comm, Nat.add_comm, Nat.two_pow_add_eq_or_of_lt hx]

/-- The low bits of a word. -/
theorem toNat_and_mask (x : UInt64) {n : Nat} (hn : n ≤ 32) :
    (x &&& ((1 <<< n.toUInt64) - 1)).toNat = x.toNat % 2 ^ n := by
  -- The mask does not overflow, since it has at most 32 bits.
  have hpow : 2 ^ n ≤ 2 ^ 32 := Nat.pow_le_pow_right (by decide) hn
  have hpos : 0 < 2 ^ n := by positivity
  have hbits : n.toUInt64.toNat = n := Nat.mod_eq_of_lt (show n < 2 ^ 64 by omega)
  have hone : ((1 : UInt64) <<< n.toUInt64).toNat = 2 ^ n := by
    have hlt : 2 ^ n < 2 ^ 64 := Nat.pow_lt_pow_right (by decide) (by omega)
    have hmod : n % 64 = n := Nat.mod_eq_of_lt (by omega)
    rw [UInt64.toNat_shiftLeft, hbits, hmod, Nat.shiftLeft_eq, show (1 : UInt64).toNat = 1 from rfl,
      Nat.one_mul, Nat.mod_eq_of_lt hlt]
  have hmask : ((1 : UInt64) <<< n.toUInt64 - 1).toNat = 2 ^ n - 1 := by
    rw [UInt64.toNat_sub_of_le _ _ (UInt64.le_iff_toNat_le.2 (by rw [hone]; exact hpos)), hone]
    rfl
  rw [UInt64.toNat_and, hmask, Nat.and_two_pow_sub_one_eq_mod]

/-- Four bytes in a word. -/
private theorem toNat_quarter (data : ByteArray) (i : Nat) :
    ((byteAt data i).toUInt64 ||| (byteAt data (i + 1)).toUInt64 <<< 8 |||
      (byteAt data (i + 2)).toUInt64 <<< 16 ||| (byteAt data (i + 3)).toUInt64 <<< 24).toNat =
      littleEndian data i 4 := by
  have hword (i : Nat) : ∃ x : UInt64, (byteAt data i).toUInt64 = x ∧
      x.toNat = (byteAt data i).toNat ∧ x.toNat < 256 :=
    ⟨_, rfl, UInt8.toNat_toUInt64 _, UInt8.toNat_lt _⟩
  obtain ⟨x₀, hx₀, h₀, hlt₀⟩ := hword i
  obtain ⟨x₁, hx₁, h₁, hlt₁⟩ := hword (i + 1)
  obtain ⟨x₂, hx₂, h₂, hlt₂⟩ := hword (i + 2)
  obtain ⟨x₃, hx₃, h₃, hlt₃⟩ := hword (i + 3)
  -- Each byte stands above all that come before it.
  have htwo : (x₀ ||| x₁ <<< 8).toNat = x₀.toNat + 2 ^ 8 * x₁.toNat :=
    toNat_or_shiftLeft rfl (by decide) hlt₀ (by omega)
  have hthree : (x₀ ||| x₁ <<< 8 ||| x₂ <<< 16).toNat = _ + 2 ^ 16 * x₂.toNat :=
    toNat_or_shiftLeft rfl (by decide) (by omega) (by omega)
  have hfour : (x₀ ||| x₁ <<< 8 ||| x₂ <<< 16 ||| x₃ <<< 24).toNat = _ + 2 ^ 24 * x₃.toNat :=
    toNat_or_shiftLeft rfl (by decide) (by omega) (by omega)
  rw [hx₀, hx₁, hx₂, hx₃, hfour, hthree, htwo]
  simp only [littleEndian, Nat.add_assoc, Nat.reduceAdd]
  omega

/-- The eight bytes of a window, without the bits in front of it. -/
theorem toNat_window (data : ByteArray) (pos : Nat) :
    (window data pos).toNat = littleEndian data (pos / 8) 8 / 2 ^ (pos % 8) := by
  have hlow := littleEndian_lt data (pos / 8) 4
  have hhigh := littleEndian_lt data (pos / 8 + 4) 4
  have hbits : (pos % 8).toUInt64.toNat = pos % 8 :=
    Nat.mod_eq_of_lt (show pos % 8 < 2 ^ 64 by omega)
  have hmod : pos % 8 % 64 = pos % 8 := Nat.mod_eq_of_lt (by omega)
  have hadd := littleEndian_add data (pos / 8) 4 4
  rw [window, UInt64.toNat_shiftRight, hbits, hmod, Nat.shiftRight_eq_div_pow, hadd,
    ← toNat_quarter, ← toNat_quarter]
  rw [← toNat_quarter] at hlow hhigh
  have hfits := (Nat.mul_lt_mul_left (show 0 < 2 ^ 32 by decide)).2 hhigh
  exact congrArg (· / 2 ^ (pos % 8)) (toNat_or_shiftLeft rfl (by decide) hlow hfits)

/-- The low bits of a window are a part of the number of the data. -/
theorem toNat_window_mod (data : ByteArray) (pos : Nat) {n : Nat} (hn : n ≤ 32) :
    (window data pos).toNat % 2 ^ n = number data / 2 ^ pos % 2 ^ n := by
  -- At most seven bits are shifted out of a window of 64, so 32 are always left.
  have hpos : 8 * (pos / 8) + pos % 8 = pos := by omega
  have hlimit : pos % 8 + n ≤ 64 := by omega
  rw [toNat_window, littleEndian_eq_number]
  apply Nat.eq_of_testBit_eq
  intro i
  simp only [Nat.testBit_mod_two_pow, Nat.testBit_div_two_pow]
  by_cases hi : i < n
  · have hlt : i + pos % 8 < 8 * 8 := by omega
    simp only [hi, hlt, decide_true, Bool.true_and]
    congr 1
    omega
  · simp only [hi, decide_false, Bool.false_and]

/-- Some bits of the data are a part of its number. -/
theorem bitsAt_eq (data : ByteArray) (pos : Nat) {n : Nat} (hn : n ≤ 32) :
    bitsAt data pos n = number data / 2 ^ pos % 2 ^ n := by
  rw [bitsAt, toNat_and_mask _ hn, toNat_window_mod data pos hn]

/-! ## Writing bits -/

namespace BitWriter

/-- How many bits have been written. -/
def length (w : BitWriter) : Nat := 8 * w.bytes.size + w.count

/-- The number that the written bits are. -/
def value (w : BitWriter) : Nat := number w.bytes + 2 ^ (8 * w.bytes.size) * w.pending.toNat

/-- Whether the pending bits do not fill a byte, and there are no others. -/
structure Valid (w : BitWriter) : Prop where
  count_lt : w.count < 8
  pending_lt : w.pending.toNat < 2 ^ w.count

theorem valid_empty : ({} : BitWriter).Valid := ⟨by decide, by decide⟩

theorem Valid.value_lt {w : BitWriter} (h : w.Valid) : w.value < 2 ^ w.length := by
  have hbytes := number_lt w.bytes
  have hpending := Nat.mul_le_mul_left (2 ^ (8 * w.bytes.size)) (Nat.succ_le_of_lt h.pending_lt)
  rw [← pow_add, Nat.mul_succ] at hpending
  rw [value, length]
  omega

/-- Moving whole bytes out of the pending bits changes nothing about what has been written. -/
private theorem drain_spec (bytes : ByteArray) (pending : UInt64) (count : Nat)
    (h : pending.toNat < 2 ^ count) :
    (drain bytes pending count).Valid ∧
      (drain bytes pending count).length = 8 * bytes.size + count ∧
      (drain bytes pending count).value = number bytes + 2 ^ (8 * bytes.size) * pending.toNat := by
  fun_induction drain bytes pending count with
  | case1 bytes pending count hcount ih =>
    -- The lowest pending byte goes to the end of the bytes, the others move down.
    have hrest : (pending >>> 8).toNat = pending.toNat / 256 := by
      rw [UInt64.toNat_shiftRight, Nat.shiftRight_eq_div_pow]
      rfl
    have hfirst : pending.toUInt8.toNat = pending.toNat % 256 := UInt64.toNat_toUInt8 _
    have hsize : (bytes.push pending.toUInt8).size = bytes.size + 1 := ByteArray.size_push
    have hlt : (pending >>> 8).toNat < 2 ^ (count - 8) := by
      rw [hrest, Nat.div_lt_iff_lt_mul (by decide), show (256 : Nat) = 2 ^ 8 from rfl, ← pow_add,
        Nat.sub_add_cancel hcount]
      exact h
    obtain ⟨hvalid, hlength, hvalue⟩ := ih hlt
    refine ⟨hvalid, ?_, ?_⟩
    · rw [hlength, hsize]
      omega
    · have hsplit := Nat.mod_add_div pending.toNat 256
      rw [hvalue, hsize, number_push, hfirst, hrest, two_pow_eight_mul_succ]
      nth_rewrite 3 [← hsplit]
      ring
  | case2 bytes pending count hcount =>
    exact ⟨⟨Nat.not_le.1 hcount, h⟩, rfl, rfl⟩

section

variable {w : BitWriter} (hw : w.Valid) (v : Nat) {n : Nat} (hn : n ≤ 32)
include hw hn

/-- What is written when some bits are. -/
private theorem push_spec :
    (w.push v n).Valid ∧ (w.push v n).length = w.length + n ∧
      (w.push v n).value = w.value + 2 ^ w.length * (v % 2 ^ n) := by
  obtain ⟨bytes, pending, count⟩ := w
  obtain ⟨hcount, hpending⟩ := hw
  simp only at hcount hpending
  let low := v.toUInt64 &&& ((1 <<< n.toUInt64) - 1)
  have hlow : low.toNat = v % 2 ^ n := by
    rw [toNat_and_mask _ hn]
    exact Nat.mod_mod_of_dvd v (Nat.pow_dvd_pow 2 (show n ≤ 64 by omega))
  have hlt : v % 2 ^ n < 2 ^ n := Nat.mod_lt _ (by positivity)
  have hbits : count.toUInt64.toNat = count := Nat.mod_eq_of_lt (show count < 2 ^ 64 by omega)
  -- The new bits stand above the pending ones.
  have hmul : 2 ^ count * (v % 2 ^ n) + 2 ^ count ≤ 2 ^ (count + n) := by
    rw [pow_add, ← Nat.mul_succ]
    exact Nat.mul_le_mul_left _ hlt
  have hmax : 2 ^ (count + n) ≤ 2 ^ 64 := Nat.pow_le_pow_right (by decide) (by omega)
  have hpos : 0 < 2 ^ count := by positivity
  have hor := toNat_or_shiftLeft hbits (by omega) hpending (show 2 ^ count * low.toNat < 2 ^ 64 by
    rw [hlow]
    omega)
  rw [hlow] at hor
  -- What is full is drained, which leaves length and value alone.
  have hspec := drain_spec bytes (pending ||| low <<< count.toUInt64) (count + n) (by
    rw [hor]
    omega)
  rw [hor] at hspec
  obtain ⟨hvalid, hlength, hvalue⟩ := hspec
  refine ⟨hvalid, ?_, ?_⟩
  · rw [push, hlength, length, Nat.add_assoc]
  · rw [push, hvalue, value, length, pow_add]
    ring

theorem Valid.push : (w.push v n).Valid := (push_spec hw v hn).1

theorem length_push : (w.push v n).length = w.length + n := (push_spec hw v hn).2.1

theorem value_push : (w.push v n).value = w.value + 2 ^ w.length * (v % 2 ^ n) :=
  (push_spec hw v hn).2.2

end

/-- The last byte is filled with zeros. -/
theorem number_finish {w : BitWriter} (hw : w.Valid) : number w.finish = w.value := by
  have hpending := hw.pending_lt
  have hcount := hw.count_lt
  rw [finish, value]
  split
  · next h =>
    rw [h, pow_zero, Nat.lt_one_iff] at hpending
    rw [hpending, Nat.mul_zero, Nat.add_zero]
  · have hmax : 2 ^ w.count ≤ 2 ^ 7 := Nat.pow_le_pow_right (by decide) (by omega)
    have hbyte : w.pending.toUInt8.toNat = w.pending.toNat := by
      rw [UInt64.toNat_toUInt8]
      exact Nat.mod_eq_of_lt (by omega)
    rw [number_push, hbyte]

theorem size_finish {w : BitWriter} (hw : w.Valid) : w.finish.size = (w.length + 7) / 8 := by
  have hcount := hw.count_lt
  rw [finish, length]
  split
  · omega
  · rw [ByteArray.size_push]
    omega

/-! ## Bits that are carried -/

/-- Whether data has the bits of a writer from a position on. -/
structure Carried (data : ByteArray) (base : Nat) (w : BitWriter) : Prop where
  same : number data / 2 ^ base % 2 ^ w.length = w.value
  inside : base + w.length ≤ 8 * data.size

variable {data pre : ByteArray} {base : Nat} {w : BitWriter}

/-- What is finished is carried by all data that it becomes a part of. -/
theorem carried_finish (hw : w.Valid) (h : Extends (pre ++ w.finish) data) :
    Carried data (8 * pre.size) w := by
  obtain ⟨more, rfl⟩ := h
  have hsize := size_finish hw
  have hfits : w.length ≤ 8 * w.finish.size := by omega
  -- What stands in front is shifted out, and what stands behind is above the bits of the writer.
  have hnumber : number (pre ++ w.finish ++ more) / 2 ^ (8 * pre.size) =
      w.value + 2 ^ (8 * w.finish.size) * number more := by
    rw [ByteArray.append_assoc, number_append, number_append, number_finish hw,
      Nat.add_mul_div_left _ _ (by positivity), Nat.div_eq_of_lt (number_lt pre), Nat.zero_add]
  constructor
  case same =>
    rw [hnumber, show 8 * w.finish.size = w.length + (8 * w.finish.size - w.length) by omega,
      pow_add, Nat.mul_assoc, Nat.add_mul_mod_self_left, Nat.mod_eq_of_lt hw.value_lt]
  case inside =>
    simp only [ByteArray.size_append]
    omega

section

variable (hw : w.Valid) {v n : Nat} (hn : n ≤ 32) (h : Carried data base (w.push v n))
include hw hn h

/-- What was written before is carried, too. -/
theorem Carried.of_push : Carried data base w := by
  have hlength := length_push hw v hn
  have hinside := h.inside
  -- Of the bits that are carried, only those that were written before are looked at.
  have hsame := congrArg (· % 2 ^ w.length) h.same
  simp only [hlength, value_push hw v hn, Nat.add_mul_mod_self_left, pow_add, Nat.mod_mul_right_mod,
    Nat.mod_eq_of_lt hw.value_lt] at hsame
  exact ⟨hsame, by omega⟩

/-- Bits that were written are read back. -/
theorem Carried.bitsAt_push : bitsAt data (base + w.length) n = v % 2 ^ n := by
  have hsame := h.same
  rw [length_push hw v hn, value_push hw v hn, pow_add] at hsame
  -- Here only those that were written last are.
  have hdiv := congrArg (· / 2 ^ w.length) hsame
  simp only [Nat.mod_mul_right_div_self, Nat.add_mul_div_left _ _ (show 0 < 2 ^ w.length by
    positivity), Nat.div_eq_of_lt hw.value_lt, Nat.zero_add] at hdiv
  rw [bitsAt_eq data _ hn, pow_add, ← Nat.div_div_eq_div_mul]
  exact hdiv

end

/-! ## Writers that go on -/

/-- Whether a writer has gone on from another: whatever carries it carries the other. -/
structure Grows (w w' : BitWriter) : Prop where
  valid : w'.Valid
  length_le : w.length ≤ w'.length
  carried : ∀ {data : ByteArray} {base : Nat}, Carried data base w' → Carried data base w

theorem Valid.grows (hw : w.Valid) : Grows w w := ⟨hw, Nat.le_refl _, fun h => h⟩

theorem Valid.grows_push (hw : w.Valid) (v : Nat) {n : Nat} (hn : n ≤ 32) :
    Grows w (w.push v n) where
  valid := hw.push v hn
  length_le := by
    rw [length_push hw v hn]
    exact Nat.le_add_right _ _
  carried := Carried.of_push hw hn

theorem Grows.trans {w' w'' : BitWriter} (h : Grows w w') (h' : Grows w' w'') : Grows w w'' :=
  ⟨h'.valid, Nat.le_trans h.length_le h'.length_le, fun hc => h.carried (h'.carried hc)⟩

end BitWriter

end CacheLayer.Compression
