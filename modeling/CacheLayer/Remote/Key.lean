import CacheLayer.Error
import CacheLayer.Text.Blank
import CacheLayer.Text.Quoted
/-!
# Wire keys

The keys a remote store accepts: at least one byte, at most 250 bytes of UTF-8, no blanks and no
control characters. `Key.check` tells why a key is refused; of two faults the first in that order
counts.
-/

namespace CacheLayer.Remote

open Text

namespace Key

/-- The most bytes a wire key may have. -/
def maxLength : Nat := 250

/-- Why a key cannot be used on the wire. -/
inductive Fault where
  /-- The key has no bytes. -/
  | empty
  /-- The key has this many bytes. -/
  | tooLong (size : Nat)
  /-- The key holds a blank or a control character. -/
  | badCharacter (key : String)

/-- The fault in words. -/
def Fault.message : Fault → String
  | empty => "key cannot be empty"
  | tooLong size =>
    "key of " ++ toString size ++ " bytes exceeds maximum length of " ++ toString maxLength ++
      " bytes"
  | badCharacter key => "key " ++ quote key ++ " contains whitespace or control characters"

/-- The fault of a key, if it has one. -/
def fault? (key : String) : Option Fault :=
  if key.utf8ByteSize = 0 then some .empty
  else if maxLength < key.utf8ByteSize then some (.tooLong key.utf8ByteSize)
  else if key.toList.any fun c => isBlank c || isControl c then some (.badCharacter key)
  else none

/-- Accepts the keys that can be used on the wire. -/
def check (key : String) : Except CacheError Unit :=
  match fault? key with
  | some f => .error (.invalidKey f.message)
  | none => .ok ()

end Key

/-- Keys that have a text of their own, which serves as wire key when no other is chosen. -/
class KeyText (κ : Type) where
  /-- The text of a key. -/
  keyText : κ → String

export KeyText (keyText)

instance : KeyText String := ⟨id⟩
instance : KeyText Nat := ⟨toString⟩
instance : KeyText Int := ⟨toString⟩
instance : KeyText Bool := ⟨fun b => if b then "true" else "false"⟩
instance : KeyText Char := ⟨fun c => String.ofList [c]⟩

end CacheLayer.Remote
