import CacheLayer.Compression.Gzip
import CacheLayer.Compression.Zstd.Frame
import CacheLayer.Proofs.Compression.Feeds
/-!
# Decoders that never take output back

The decoders of deflate streams, gzip members and Zstd frames only ever append to their output. So
what they feed is what their runs end with.

## Key results

- `Gzip.decoder_extending`, `Deflate.decoder_extending`, `Zstd.decoder_extending`: output is never
  taken back
- `Deflate.readToEnd_feed`, `Gzip.readToEnd_feed`, `Zstd.readToEnd_feed`: what is fed is what a run
  ends with
-/

namespace CacheLayer.Compression

/-! ## Deflate streams -/

namespace Deflate

/-- Whether what a step leads to has the output that there was in front. -/
def Progress.Keeps (out : ByteArray) : Progress → Prop
  | more s => Extends out s.out
  | ended _ out' => Extends out out'
  | bad _ => True

private theorem closeBlock_keeps (last : Bool) (pos : Nat) {out out' : ByteArray}
    (h : Extends out out') : (closeBlock last pos out').Keeps out := by
  rw [closeBlock]
  split <;> exact h

private theorem storedBlock_keeps (data : ByteArray) (last : Bool) (pos : Nat) (out : ByteArray) :
    (storedBlock data last pos out).Keeps out := by
  simp only [storedBlock]
  split
  · trivial
  split
  · trivial
  split
  · trivial
  · exact closeBlock_keeps _ _ (.pushSlice _ _ _ _)

private theorem dynamicBlock_keeps (data : ByteArray) (last : Bool) (pos : Nat)
    (out : ByteArray) : (dynamicBlock data last pos out).Keeps out := by
  simp only [dynamicBlock]
  -- Its header gives the words, or is refused; nothing is appended so far.
  split
  · trivial
  split
  · trivial
  split
  · trivial
  split
  · trivial
  split
  · exact .refl out
  · trivial

private theorem blockHeader_keeps (data : ByteArray) (pos : Nat) (out : ByteArray) :
    (blockHeader data pos out).Keeps out := by
  simp only [blockHeader]
  split
  · trivial
  split
  -- stored, fixed, dynamic, and a form that does not exist
  · exact storedBlock_keeps _ _ _ _
  · exact .refl out
  · exact dynamicBlock_keeps _ _ _ _
  · trivial

private theorem copyMatch_keeps (data : ByteArray) (literals distances : PrefixCode) (last : Bool)
    (pos length : Nat) (out : ByteArray) :
    (copyMatch data literals distances last pos length out).Keeps out := by
  simp only [copyMatch]
  split
  · trivial
  split
  · trivial
  split
  · trivial
  · exact .pushBack _ _ _

private theorem blockSymbol_keeps (data : ByteArray) (literals distances : PrefixCode)
    (last : Bool) (pos : Nat) (out : ByteArray) :
    (blockSymbol data literals distances last pos out).Keeps out := by
  simp only [blockSymbol]
  split
  · trivial
  split
  · trivial
  -- a literal, the end of the block, no length at all, or a copy
  split
  · exact .push _ _
  split
  · exact closeBlock_keeps _ _ (.refl out)
  split
  · trivial
  · exact copyMatch_keeps _ _ _ _ _ _ _

/-- A step of a stream keeps the output. -/
theorem State.next_keeps (data : ByteArray) (s : State) : (s.next data).Keeps s.out := by
  obtain ⟨pos, out, mode⟩ := s
  cases mode with
  | header => exact blockHeader_keeps data pos out
  | symbols literals distances last => exact blockSymbol_keeps data literals distances last pos out

/-- Deflate streams are decoded without taking output back. -/
theorem decoder_extending (data : ByteArray) : (decoder data).Extending where
  more {s s'} hs := by
    -- What is known of a step is known of all its ends; only one of them goes on.
    have hkeeps := s.next_keeps data
    simp only [decoder] at hs
    split at hs
    · next heq =>
      rw [heq] at hkeeps
      exact Decoder.Step.more.inj hs ▸ hkeeps
    · exact nomatch hs
    · exact nomatch hs
  done {s out} hs := by
    have hkeeps := s.next_keeps data
    simp only [decoder] at hs
    split at hs
    · exact nomatch hs
    · next heq =>
      rw [heq] at hkeeps
      exact Decoder.Step.done.inj hs ▸ hkeeps
    · exact nomatch hs

/-- What is fed of a deflate stream is what its run ends with. -/
theorem readToEnd_feed (data : ByteArray) :
    (feed data).readToEnd .empty = (decoder data).run (stepsFor data) (.start 0) :=
  (decoder_extending data).readToEnd_feed (stepsFor data) (.start 0)

end Deflate

/-! ## Gzip members -/

namespace Gzip

/-- Gzip members are decoded without taking output back. -/
theorem decoder_extending (data : ByteArray) : (decoder data).Extending where
  more {s s'} hs := by
    simp only [decoder] at hs ⊢
    -- In front of the trailer a step is one of the stream inside, whose end is no end yet.
    split at hs
    · next inner =>
      have hkeeps := inner.next_keeps data
      split at hs
      · next heq =>
        rw [heq] at hkeeps
        exact Decoder.Step.more.inj hs ▸ hkeeps
      · next heq =>
        rw [heq] at hkeeps
        exact Decoder.Step.more.inj hs ▸ hkeeps
      · exact nomatch hs
    · split at hs <;> exact nomatch hs
  done {s out} hs := by
    simp only [decoder] at hs ⊢
    -- Only the check of the trailer ends a member, and it leaves the output as it is.
    split at hs
    · split at hs <;> exact nomatch hs
    · split at hs
      · exact Decoder.Step.done.inj hs ▸ .refl _
      · exact nomatch hs

/-- What is fed of a gzip member is what its run ends with. -/
theorem readToEnd_feed {data : ByteArray} {start : Nat} (h : skipHeader data = some start) :
    (feed data).readToEnd .empty =
      (decoder data).run (Deflate.stepsFor data + 1) (.content (.start (8 * start))) := by
  rw [feed, h]
  exact (decoder_extending data).readToEnd_feed _ (.content (.start (8 * start)))

end Gzip

/-! ## Zstd frames -/

namespace Zstd

private theorem pushRest_extends {literals out out' : ByteArray} {used start limit : Nat}
    (h : pushRest literals used start limit out = some out') : Extends out out' := by
  simp only [pushRest] at h
  split at h
  · exact nomatch h
  · exact Option.some.inj h ▸ .pushSlice _ _ _ _

private theorem runSequences_extends {data literals out out' : ByteArray} {codes : SequenceCodes}
    {origin start limit n used used' : Nat} {states : SequenceStates}
    {recent recent' : RecentOffsets}
    (h : runSequences data codes literals origin start limit n states recent used out =
      some (recent', used', out')) : Extends out out' := by
  -- Each sequence appends literals and then a copy; the refusals in front of it give nothing.
  induction n generalizing states recent used out with
  | zero =>
    rw [runSequences] at h
    split at h
    · obtain ⟨-, -, rfl⟩ := by simpa using h
      exact .refl out
    · exact nomatch h
  | succ n ih =>
    rw [runSequences] at h
    obtain ⟨-, h⟩ := Option.ite_none_left_eq_some.1 h
    obtain ⟨-, h⟩ := Option.ite_none_left_eq_some.1 h
    obtain ⟨-, h⟩ := Option.ite_none_left_eq_some.1 h
    exact ((Extends.pushSlice _ _ _ _).trans (.pushBack _ _ _)).trans (ih h)

private theorem compressedBlock_extends {data out out' : ByteArray} {origin start stop : Nat}
    {limits : BlockLimits} {memory memory' : Memory}
    (h : compressedBlock data origin limits start stop memory out = some (memory', out')) :
    Extends out out' := by
  simp only [compressedBlock] at h
  obtain ⟨literals, -, h⟩ := Option.bind_eq_some_iff.1 h
  obtain ⟨⟨count, pos⟩, -, h⟩ := Option.bind_eq_some_iff.1 h
  simp only at h
  -- Without sequences all of the block is literals.
  split at h
  · split at h
    · obtain ⟨rest, hrest, h⟩ := Option.bind_eq_some_iff.1 h
      obtain ⟨-, rfl⟩ := by simpa using h
      exact pushRest_extends hrest
    · exact nomatch h
  · obtain ⟨⟨codes, pos⟩, -, h⟩ := Option.bind_eq_some_iff.1 h
    obtain ⟨states, -, h⟩ := Option.bind_eq_some_iff.1 h
    obtain ⟨⟨recent, used, mid⟩, hrun, h⟩ := Option.bind_eq_some_iff.1 h
    obtain ⟨rest, hrest, h⟩ := Option.bind_eq_some_iff.1 h
    obtain ⟨-, rfl⟩ := by simpa using h
    exact (runSequences_extends hrun).trans (pushRest_extends hrest)

private theorem decodeBlock_extends {data out out' : ByteArray} {origin start : Nat}
    {limits : BlockLimits} {block : BlockHeader} {memory memory' : Memory}
    (h : decodeBlock data origin limits start block memory out = some (memory', out')) :
    Extends out out' := by
  rw [decodeBlock] at h
  split at h
  · exact nomatch h
  split at h
  -- raw
  · split at h
    · exact nomatch h
    · obtain ⟨-, rfl⟩ := by simpa using h
      exact .pushSlice _ _ _ _
  -- repeated
  · split at h
    · exact nomatch h
    · obtain ⟨-, rfl⟩ := by simpa using h
      exact .pushTimes _ _ _
  -- compressed
  · split at h
    · exact nomatch h
    split at h
    · obtain ⟨-, rfl⟩ := by simpa using h
      exact .refl out
    · exact compressedBlock_extends h

/-- Whether what a step leads to has the output that there was in front. -/
def Keeps (out : ByteArray) : Decoder.Step State → Prop
  | .more s => Extends out s.out
  | .done out' => Extends out out'
  | .fault _ => True

/-- What keeps more keeps less. -/
private theorem Keeps.of_extends {out out' : ByteArray} {s : Decoder.Step State}
    (h : Keeps out' s) (hext : Extends out out') : Keeps out s := by
  cases s with
  | more s => exact hext.trans h
  | done out => exact hext.trans h
  | fault f => trivial

private theorem nextFrame_keeps (data : ByteArray) (pos : Nat) (out : ByteArray) :
    Keeps out (nextFrame data pos out) := by
  -- the end, a frame with its header, a frame to be skipped, or none of these
  simp only [nextFrame]
  split
  · exact .refl out
  split
  · split
    · trivial
    · exact .refl out
  split
  · split
    · trivial
    · exact .refl out
  · trivial

private theorem closeFrame_keeps (data : ByteArray) (h : FrameHeader) (origin pos : Nat)
    (out : ByteArray) : Keeps out (closeFrame data h origin pos out) := by
  simp only [closeFrame]
  split
  · split
    · trivial
    split
    · exact .refl out
    · trivial
  · exact .refl out

private theorem nextBlock_keeps (data : ByteArray) (h : FrameHeader) (origin : Nat)
    (memory : Memory) (pos : Nat) (out : ByteArray) :
    Keeps out (nextBlock data h origin memory pos out) := by
  simp only [nextBlock]
  split
  · trivial
  split
  · trivial
  -- What the block has appended is kept, whether or not the frame is closed behind it.
  · next hblock =>
    have hext := decodeBlock_extends hblock
    split
    · exact hext
    split
    · exact (closeFrame_keeps data h origin _ _).of_extends hext
    · trivial

/-- Zstd frames are decoded without taking output back. -/
theorem decoder_extending (data : ByteArray) : (decoder data).Extending := by
  have hkeeps : ∀ s, Keeps s.out ((decoder data).step s) := by
    rintro ⟨pos, out, mode⟩
    cases mode with
    | frame => exact nextFrame_keeps _ _ _
    | block h origin memory => exact nextBlock_keeps _ _ _ _ _ _
  constructor
  case more =>
    intro s s' hs
    exact (hs ▸ hkeeps s : Keeps s.out (.more s'))
  case done =>
    intro s out hs
    exact (hs ▸ hkeeps s : Keeps s.out (.done out))

/-- What is fed of frames is what their run ends with. -/
theorem readToEnd_feed {data : ByteArray} (h : data.size ≠ 0) :
    (feed data).readToEnd .empty = (decoder data).run (data.size + 1) ⟨0, .empty, .frame⟩ := by
  rw [feed, if_neg h]
  exact (decoder_extending data).readToEnd_feed _ ⟨0, .empty, .frame⟩

end Zstd

end CacheLayer.Compression
