import CacheLayer.Error
import CacheLayer.Text.Blank
import CacheLayer.Text.Decimal
/-!
# Compression algorithms

The codecs one can ask for by name. A store written with one algorithm has to be read with the same
one, so a name is either understood exactly or refused.
-/

namespace CacheLayer.Compression

open Text

/-- A supported compression algorithm. -/
inductive Algorithm where
  /-- The gzip file format. -/
  | gzip
  /-- An LZ4 block behind its uncompressed size. -/
  | lz4
  /-- Zstandard frames. -/
  | zstd
  /-- A raw deflate stream, written with the given effort. -/
  | deflate (level : Nat)
deriving DecidableEq, Repr

namespace Algorithm

instance : Inhabited Algorithm := ⟨gzip⟩

/-- The algorithm that is used when none is named. -/
def standard : Algorithm := gzip

/-- The effort of a deflate stream when none is given. -/
def standardLevel : Nat := 6

/-- The greatest effort of a deflate stream. -/
def maxLevel : Nat := 9

/-- The name of the codec, without its level. -/
def name : Algorithm → String
  | gzip => "gzip"
  | lz4 => "lz4"
  | zstd => "zstd"
  | deflate _ => "deflate"

/-- The name of the algorithm with its level. -/
def text : Algorithm → String
  | deflate level => "deflate:" ++ toString level
  | a => a.name

/-- The part before the first colon, and the part behind it if there is a colon. -/
def splitColon (cs : List Char) : List Char × Option (List Char) :=
  match cs.dropWhile (· ≠ ':') with
  | [] => (cs.takeWhile (· ≠ ':'), none)
  | _ :: rest => (cs.takeWhile (· ≠ ':'), some rest)

/-- Why a name was refused, or the algorithm: the name is given without blanks at its ends and in
lower case, `raw` is the text it came from. -/
def ofNormalized (raw : String) (cs : List Char) : Except CacheError Algorithm :=
  match splitColon cs with
  | (name, none) =>
    if name = "gzip".toList then .ok gzip
    else if name = "lz4".toList then .ok lz4
    else if name = "zstd".toList ∨ name = "zstandard".toList then .ok zstd
    else if name = "deflate".toList then .ok (deflate standardLevel)
    else .error (.config ("unknown compression algorithm: " ++ raw))
  | (name, some level) =>
    if name = "deflate".toList then
      match decimal? maxLevel level with
      | some n => .ok (deflate n)
      | none => .error (.config ("invalid deflate level: " ++ String.ofList level))
    else .error (.config ("unknown compression algorithm: " ++ raw))

/-- Reads the name of an algorithm. Blanks at the ends and the case of ASCII letters do not
matter. -/
def parse (s : String) : Except CacheError Algorithm :=
  ofNormalized s (lowerChars (trimChars s.toList))

end Algorithm

end CacheLayer.Compression
