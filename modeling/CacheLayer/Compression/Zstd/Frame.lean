import CacheLayer.Compression.Decoder
import CacheLayer.Compression.XxHash
import CacheLayer.Compression.Zstd.Block
/-!
# Frames

The data is a row of frames. A frame is a header, blocks, and the check of the content if the header
asks for one. Frames that are to be skipped may stand anywhere. The decoder reads frames to the end
of the data: what is not a frame is a fault, and so is data without any.
-/

namespace CacheLayer.Compression.Zstd

/-- The number in front of a frame. -/
def magic : Nat := 0xFD2FB528

/-- The numbers in front of frames to be skipped differ in their last four bits. -/
def skippableMagic : Nat := 0x184D2A50

/-- The largest window that is accepted. -/
def maxWindow : Nat := (1 <<< 27) + 1

/-- The largest binary logarithm of a window that can be written. -/
def maxWindowLog : Nat := 31

/-- The most bytes that are asked for at once. -/
def maxRequest : Nat := 8192

/-- How many bytes are asked for when a frame starts: the output is expected to be four times as
large as the data, and what is left of that is asked for. -/
def requestSize (data : ByteArray) (produced : Nat) : Nat :=
  min (4 * data.size - produced) maxRequest

/-- What the header of a frame says. -/
structure FrameHeader where
  /-- The size of the content, if announced. -/
  content? : Option Nat
  limits : BlockLimits
  /-- Whether the frame is decoded in one go, because what it announces is not more than what is
  asked for. Then its window does not matter, and the content has to be what was announced even if
  the last block is empty. -/
  oneGo : Bool
  /-- Whether a check of the content follows the blocks. -/
  checked : Bool

namespace FrameHeader

/-- The size of the window in a window byte. -/
def windowOf (b : Nat) : Option Nat :=
  let log := b / 8 + 10
  let size := 1 <<< log
  if maxWindowLog < log then none else some (size + size / 8 * (b % 8))

/-- The size of the content field from its two bits. -/
def contentWidth (code : Nat) (single : Bool) : Nat :=
  match code with
  | 0 => if single then 1 else 0
  | 1 => 2
  | 2 => 4
  | _ => 8

/-- The size of the field for a dictionary from its two bits. -/
def dictionaryWidth : Nat → Nat
  | 3 => 4
  | n => n

/-- Reads the header behind a magic number when `request` bytes are asked for: the header and the
index behind it. -/
def read (data : ByteArray) (pos request : Nat) : Option (FrameHeader × Nat) := do
  let flags := (byteAt data pos).toNat
  let single : Bool := flags / 32 % 2 = 1
  let window? ← if single then some none else (windowOf (byteAt data (pos + 1)).toNat).map some
  let pos := if single then pos + 1 else pos + 2
  let dictionary := littleEndian data pos (dictionaryWidth (flags % 4))
  let pos := pos + dictionaryWidth (flags % 4)
  let width := contentWidth (flags / 64) single
  let field := littleEndian data pos width
  let content? :=
    if width = 0 then none else if width = 2 then some (field + 256) else some field
  let next := pos + width
  -- Without a window byte the window is the content.
  let window := window?.getD (content?.getD 0)
  let oneGo := content?.any (· ≤ request)
  let limit := min window maxBlock
  -- No dictionary is known, and one bit of the flags is reserved.
  if data.size < next ∨ flags / 8 % 2 = 1 ∨ dictionary ≠ 0 then none
  else if oneGo then some (⟨content?, ⟨limit, maxBlock⟩, true, flags / 4 % 2 = 1⟩, next)
  else if maxWindow < window then none
  else some (⟨content?, ⟨limit, limit⟩, false, flags / 4 % 2 = 1⟩, next)

/-- Whether content of this size is what the header announced. -/
def Announced (h : FrameHeader) (size : Nat) : Prop := h.content?.getD size = size

instance (h : FrameHeader) (size : Nat) : Decidable (h.Announced size) :=
  inferInstanceAs (Decidable (_ = _))

/-- Whether content of this size may end behind the given last block. -/
def Complete (h : FrameHeader) (block : BlockHeader) (size : Nat) : Prop :=
  h.Announced size ∨ (block.extent = 0 ∧ ¬ h.oneGo)

instance (h : FrameHeader) (block : BlockHeader) (size : Nat) :
    Decidable (h.Complete block size) :=
  inferInstanceAs (Decidable (_ ∨ _))

end FrameHeader

/-- What comes next in the data. -/
inductive Mode where
  /-- A frame, or the end. -/
  | frame
  /-- A block of a frame whose content starts at `origin` in the output. -/
  | block (header : FrameHeader) (origin : Nat) (memory : Memory)

/-- Where a decoder stands. -/
structure State where
  /-- The index of the next byte. -/
  pos : Nat
  /-- The bytes produced so far. -/
  out : ByteArray
  mode : Mode

/-- A fault of the data. -/
def malformed (what : String) : Decoder.Step State := .fault (.malformed what)

/-- Reads the header of a frame, passes over one that is to be skipped, or ends. -/
def nextFrame (data : ByteArray) (pos : Nat) (out : ByteArray) : Decoder.Step State :=
  let number := littleEndian data pos 4
  if pos = data.size then .done out
  else if number = magic then
    let origin := out.size
    match FrameHeader.read data (pos + 4) (requestSize data origin) with
    | none => malformed "frame header is malformed"
    | some (h, pos) => .more ⟨pos, out, .block h origin {}⟩
  else if number / 16 = skippableMagic / 16 then
    let next := pos + 8 + littleEndian data (pos + 4) 4
    if data.size < next then malformed "skippable frame ended early"
    else .more ⟨next, out, .frame⟩
  else malformed "unknown frame"

/-- Ends a frame: its check has to agree with its content. -/
def closeFrame (data : ByteArray) (h : FrameHeader) (origin pos : Nat) (out : ByteArray) :
    Decoder.Step State :=
  if h.checked then
    let check := (XxHash.ofBytesFrom out origin).toNat % UInt32.size
    if data.size < pos + 4 then malformed "frame ended early"
    else if littleEndian data pos 4 = check then .more ⟨pos + 4, out, .frame⟩
    else malformed "content does not match its check"
  else .more ⟨pos, out, .frame⟩

/-- Decodes a block. -/
def nextBlock (data : ByteArray) (h : FrameHeader) (origin : Nat) (memory : Memory) (pos : Nat)
    (out : ByteArray) : Decoder.Step State :=
  match BlockHeader.read data pos with
  | none => malformed "block header is malformed"
  | some block =>
    let start := pos + BlockHeader.width
    match decodeBlock data origin h.limits start block memory out with
    | none => malformed "block is malformed"
    | some (memory, out) =>
      let next := start + block.extent
      if ¬ block.last then .more ⟨next, out, .block h origin memory⟩
      else if h.Complete block (out.size - origin) then closeFrame data h origin next out
      else malformed "content has a wrong size"

/-- The decoder of a row of frames. One step decodes a header or a block. -/
def decoder (data : ByteArray) : Decoder State where
  step s :=
    let ⟨pos, out, mode⟩ := s
    match mode with
    | .frame => nextFrame data pos out
    | .block h origin memory => nextBlock data h origin memory pos out
  output s := s.out

/-- What the frames in the data hold. -/
def feed (data : ByteArray) : Feed :=
  if data.size = 0 then .fault (.malformed "no frame")
  else (decoder data).feed (data.size + 1) ⟨0, .empty, .frame⟩

end CacheLayer.Compression.Zstd
