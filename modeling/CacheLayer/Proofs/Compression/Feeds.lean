import CacheLayer.Compression.Decoder
import CacheLayer.Proofs.Compression.Bytes
/-!
# Feeds that are read within a limit

A feed is cut off behind the byte that is one too many, so that a feed that fits is read as it is
without a limit, and one that does not is told by that byte. Nothing is assumed of the feed: it may
end, fail or go on for ever behind that.

A decoder that never takes output back has the feed that its run ends with.

## Key results

- `Feed.readBounded_eq_ok_iff`: what is read within a limit is what is read without one, if it fits
- `Feed.readBounded_of_gives`: a feed that gives too much is refused
- `Decoder.Extending.readToEnd_feed`: the feed of a decoder is read to what its run ends with
-/

namespace CacheLayer.Compression

/-- What comes of an output within a limit. -/
def within (limit : Nat) (out : ByteArray) : Except Fault ByteArray :=
  if out.size ≤ limit then .ok out else .error (.tooLarge limit)

namespace Extends

variable {a b : ByteArray}

/-- The front of some bytes is what they begin with. -/
theorem extract_size (h : Extends a b) : b.extract 0 a.size = a := by
  obtain ⟨x, rfl⟩ := h
  exact ByteArray.extract_append_eq_left rfl

/-- What is behind the front completes it. -/
theorem append_extract (h : Extends a b) : a ++ b.extract a.size b.size = b := by
  obtain ⟨x, rfl⟩ := h
  rw [ByteArray.extract_append_eq_right rfl ByteArray.size_append]

/-- Bytes begin with their first ones. -/
theorem extract (a : ByteArray) (n : Nat) : Extends (a.extract 0 n) a := by
  refine ⟨a.extract n a.size, ?_⟩
  rw [ByteArray.extract_append_extract]
  ext1
  simp

theorem append_left (c : ByteArray) (h : Extends a b) : Extends (c ++ a) (c ++ b) := by
  obtain ⟨x, rfl⟩ := h
  exact ⟨x, ByteArray.append_assoc.symm⟩

end Extends

namespace Feed

variable {f : Feed} {buffer out : ByteArray} {most limit : Nat}

/-! ## Reading -/

/-- Reading only appends. -/
theorem readToEnd_extends (h : f.readToEnd buffer = .ok out) : Extends buffer out := by
  induction f generalizing buffer with
  | piece bytes rest ih => exact (Extends.append buffer bytes).trans (ih () h)
  | ended => exact Except.ok.inj h ▸ .refl buffer
  | fault f => cases h

/-- Of a feed that is cut off at once nothing is read. -/
theorem readToEnd_take_zero (f : Feed) (buffer : ByteArray) :
    (f.take 0).readToEnd buffer = .ok buffer := by
  cases f <;> rfl

/-- A piece is cut where the feed is cut off. -/
theorem take_piece (bytes : ByteArray) (rest : Unit → Feed) (hmost : most ≠ 0) :
    (piece bytes rest).take most =
      piece (bytes.extract 0 most) fun _ => (rest ()).take (most - bytes.size) := by
  rw [take, if_neg hmost]

/-- A feed that gives enough in its first piece is cut off within it. -/
theorem readToEnd_take_piece {bytes : ByteArray} (rest : Unit → Feed) (buffer : ByteArray)
    (hmost : most ≤ bytes.size) :
    ((piece bytes rest).take most).readToEnd buffer = .ok (buffer ++ bytes.extract 0 most) := by
  by_cases hzero : most = 0
  · subst hzero
    simp [readToEnd_take_zero]
  · rw [take_piece bytes rest hzero, readToEnd, Nat.sub_eq_zero_of_le hmost, readToEnd_take_zero]

/-- A feed that does not give more than enough in its first piece is cut off behind it. -/
theorem readToEnd_take_rest {bytes : ByteArray} (rest : Unit → Feed) (buffer : ByteArray)
    (hmost : bytes.size < most) :
    ((piece bytes rest).take most).readToEnd buffer =
      ((rest ()).take (most - bytes.size)).readToEnd (buffer ++ bytes) := by
  have hall : bytes.extract 0 most = bytes := by
    ext1
    simp only [ByteArray.data_extract]
    exact Array.extract_eq_self_of_le (Nat.le_of_lt hmost)
  rw [take_piece bytes rest (Nat.ne_zero_of_lt hmost), readToEnd, hall]

/-- The first bytes of a feed that is read to its end are the first ones of what is read. -/
theorem readToEnd_take (h : f.readToEnd buffer = .ok out) (most : Nat) :
    (f.take most).readToEnd buffer = .ok (out.extract 0 (buffer.size + most)) := by
  induction f generalizing buffer most with
  | piece bytes rest ih =>
    -- Either this piece alone is more than what is asked for, or the rest is asked for what is
    -- missing.
    by_cases hmost : most ≤ bytes.size
    · have hext : Extends (buffer ++ bytes.extract 0 most) out :=
        ((Extends.extract bytes most).append_left buffer).trans
          (readToEnd_extends (f := rest ()) h)
      have hsize : (buffer ++ bytes.extract 0 most).size = buffer.size + most := by
        rw [ByteArray.size_append, ByteArray.size_extract]
        omega
      rw [readToEnd_take_piece rest buffer hmost, ← hsize, hext.extract_size]
    · have hsize : (buffer ++ bytes).size + (most - bytes.size) = buffer.size + most := by
        rw [ByteArray.size_append]
        omega
      rw [readToEnd_take_rest rest buffer (Nat.not_le.1 hmost), ih () h, hsize]
  | ended =>
    obtain rfl := Except.ok.inj h
    -- There is nothing behind the end, so that everything that is there is taken.
    have hall : buffer.extract 0 (buffer.size + most) = buffer := by
      ext1
      simp only [ByteArray.data_extract]
      exact Array.extract_eq_self_of_le (Nat.le_add_right _ _)
    rw [hall]
    rfl
  | fault f => cases h

/-- If not all of the bytes that were asked for are there, the end was met. -/
theorem readToEnd_of_take (h : (f.take most).readToEnd buffer = .ok out)
    (hfew : out.size < buffer.size + most) : f.readToEnd buffer = .ok out := by
  induction f generalizing buffer most with
  | piece bytes rest ih =>
    by_cases hmost : most ≤ bytes.size
    · -- A piece that was cut has all that was asked for.
      rw [readToEnd_take_piece rest buffer hmost] at h
      obtain rfl := Except.ok.inj h
      rw [ByteArray.size_append, ByteArray.size_extract] at hfew
      omega
    · rw [readToEnd_take_rest rest buffer (Nat.not_le.1 hmost)] at h
      refine ih () h ?_
      rw [ByteArray.size_append]
      omega
  | ended => exact h
  | fault f =>
    -- A fault is met unless nothing is asked for, and then nothing can be missing.
    rw [take] at h
    split at h
    · next hzero =>
      obtain rfl := Except.ok.inj h
      omega
    · cases h

/-! ## Reading within a limit -/

/-- A feed that is read to its end is read within a limit if it fits. -/
theorem readBounded_of_readToEnd (h : f.readToEnd .empty = .ok out) (limit : Nat) :
    f.readBounded limit = within limit out := by
  have hsize : (out.extract 0 (ByteArray.empty.size + (limit + 1))).size =
      min (limit + 1) out.size := by
    rw [ByteArray.size_extract, ByteArray.size_empty]
    omega
  simp only [readBounded, readToEnd_take h (limit + 1), bind, Except.bind]
  by_cases hfits : out.size ≤ limit
  · have hall : out.extract 0 (ByteArray.empty.size + (limit + 1)) = out := by
      ext1
      simp only [ByteArray.data_extract]
      refine Array.extract_eq_self_of_le ?_
      rw [ByteArray.size_empty, ByteArray.size_data]
      omega
    rw [if_neg (by omega), hall, within, if_pos hfits]
    rfl
  · rw [if_pos (by omega), within, if_neg hfits]
    rfl

/-- Within a limit a feed is read if it can be read to its end and fits. -/
theorem readBounded_eq_ok_iff :
    f.readBounded limit = .ok out ↔ f.readToEnd .empty = .ok out ∧ out.size ≤ limit := by
  constructor
  · intro h
    simp only [readBounded, bind, Except.bind] at h
    split at h
    · cases h
    · next buffer hbuffer =>
      split at h
      · cases h
      · next hfits =>
        obtain rfl := Except.ok.inj h
        have hle := Nat.not_lt.1 hfits
        refine ⟨readToEnd_of_take hbuffer ?_, hle⟩
        rw [ByteArray.size_empty]
        omega
  · rintro ⟨h, hfits⟩
    rw [readBounded_of_readToEnd h, within, if_pos hfits]

/-- A feed that fails is not accepted within a limit either. -/
theorem exists_error_of_readToEnd {e : Fault} (h : f.readToEnd .empty = .error e) (limit : Nat) :
    ∃ e', f.readBounded limit = .error e' := by
  cases hread : f.readBounded limit with
  | error e' => exact ⟨e', rfl⟩
  | ok out => exact nomatch h.symm.trans (readBounded_eq_ok_iff.1 hread).1

/-- How many bytes a feed has given at some time, whatever comes behind them. -/
inductive Gives : Feed → Nat → Prop where
  | now {bytes : ByteArray} {rest : Unit → Feed} : Gives (piece bytes rest) bytes.size
  | later {bytes : ByteArray} {rest : Unit → Feed} {n : Nat} (h : Gives (rest ()) n) :
    Gives (piece bytes rest) (bytes.size + n)

end Feed

/-! ## Decoders -/

namespace Decoder

variable {σ : Type} {d : Decoder σ}

/-- Whether no step takes output back. -/
structure Extending (d : Decoder σ) : Prop where
  more : ∀ {s s'}, d.step s = .more s' → Extends (d.output s) (d.output s')
  done : ∀ {s out}, d.step s = .done out → Extends (d.output s) out

/-- What a decoder feeds is what its run ends with. -/
theorem Extending.readToEnd_feed (h : d.Extending) (fuel : Nat) (s : σ) :
    (d.feed fuel s).readToEnd (d.output s) = d.run fuel s := by
  induction fuel generalizing s with
  | zero => rfl
  | succ fuel ih =>
    rw [feed, run]
    cases hs : d.step s with
    | more s' =>
      have hpiece : d.output s ++ (d.output s').extract (d.size s) (d.size s') = d.output s' :=
        (h.more hs).append_extract
      simp only [Feed.readToEnd, hpiece]
      exact ih s'
    | done out =>
      have hpiece : d.output s ++ out.extract (d.size s) out.size = out :=
        (h.done hs).append_extract
      simp only [Feed.readToEnd, hpiece]
    | fault f => rfl

end Decoder

end CacheLayer.Compression
