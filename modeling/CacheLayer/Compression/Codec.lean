import CacheLayer.Compression.Algorithm
import CacheLayer.Compression.Gzip
import CacheLayer.Compression.Lz4.Decode
import CacheLayer.Compression.Lz4.Encode
import CacheLayer.Compression.Zstd.Encode
/-!
# Codecs

A codec is a pair of functions on bytes: one that encodes, and one that decodes with or without a
limit on its output. `Codec.decompress` decodes with the limit that keeps hostile input from filling
the memory.

What the bytes of a format are is up to the libraries that write and read them. `Library` says what
is asked of these, and the codecs are made over any library: they name the codec in errors, keep
levels in their range, and bound what is read. `Library.own` holds the formats as they are written
and read here.
-/

namespace CacheLayer.Compression

/-- The most bytes that any input is decompressed to. -/
def maxDecompressed : Nat := 64 * 1024 * 1024

/-- A way to make bytes fewer and to get them back. -/
structure Codec where
  /-- The name in messages. -/
  name : String
  encode : ByteArray → Except Fault ByteArray
  /-- Decodes with a limit on the output, if one is given. -/
  decode : Option Nat → ByteArray → Except Fault ByteArray

namespace Codec

/-- What a codec failed at. -/
def failure (c : Codec) (action : String) (f : Fault) : CacheError :=
  .compression ("failed " ++ action ++ " using " ++ c.name ++ ": " ++ f.message)

/-- Compresses bytes. -/
def compress (c : Codec) (data : ByteArray) : Except CacheError ByteArray :=
  (c.encode data).mapError (c.failure "compressing")

/-- Decompresses to at most `limit` bytes. -/
def decompressWithin (c : Codec) (limit : Nat) (data : ByteArray) : Except CacheError ByteArray :=
  (c.decode (some limit) data).mapError (c.failure "decompressing")

/-- Decompresses bytes. -/
def decompress (c : Codec) (data : ByteArray) : Except CacheError ByteArray :=
  c.decompressWithin maxDecompressed data

end Codec

/-- What is asked of the libraries of the formats. -/
structure Library where
  /-- Writes a gzip member. -/
  gzip : ByteArray → Except Fault ByteArray
  /-- Reads the first gzip member of some data. -/
  gunzip : ByteArray → Feed
  /-- Writes a raw deflate stream at a level of at most `Deflate.maxLevel`. -/
  deflate : Nat → ByteArray → Except Fault ByteArray
  /-- Reads a raw deflate stream. -/
  inflate : ByteArray → Feed
  /-- Writes an LZ4 block behind its uncompressed size. -/
  lz4 : ByteArray → Except Fault ByteArray
  /-- Decodes the LZ4 block from an index of the data on, for the given uncompressed size. -/
  unlz4 : ByteArray → Nat → Nat → Except Fault ByteArray
  /-- Writes a Zstd frame at a level. -/
  zstd : Int → ByteArray → Except Fault ByteArray
  /-- Reads Zstd frames. -/
  unzstd : ByteArray → Feed

namespace Library

/-- The formats as they are written and read here. -/
def own : Library where
  gzip data := .ok (Gzip.encode data)
  gunzip := Gzip.feed
  deflate level data := .ok (Deflate.encode level data)
  inflate := Deflate.feed
  lz4 := Lz4.encode
  unlz4 := Lz4.decodeBlock
  zstd level data := .ok (Zstd.encode level data)
  unzstd := Zstd.feed

/-- Gzip members. -/
def gzipCodec (l : Library) : Codec where
  name := "gzip"
  encode := l.gzip
  decode limit? data := (l.gunzip data).read limit?

/-- Raw deflate streams; levels above 9 act as 9. -/
def deflateCodec (l : Library) (level : Nat) : Codec where
  name := "deflate"
  encode := l.deflate (Deflate.effectiveLevel level)
  decode limit? data := (l.inflate data).read limit?

/-- LZ4 blocks behind their size. -/
def lz4Codec (l : Library) : Codec where
  name := "lz4"
  encode := l.lz4
  decode := Lz4.decodeWith l.unlz4

/-- Zstd frames. -/
def zstdCodec (l : Library) (level : Int) : Codec where
  name := "zstd"
  encode := l.zstd level
  decode limit? data := (l.unzstd data).read limit?

/-- The codec of an algorithm. -/
def codec (l : Library) : Algorithm → Codec
  | .gzip => l.gzipCodec
  | .lz4 => l.lz4Codec
  | .zstd => l.zstdCodec 0
  | .deflate level => l.deflateCodec level

end Library

namespace Codec

/-- Gzip members as they are written here. -/
def gzip : Codec := Library.own.gzipCodec

/-- Raw deflate streams as they are written here. -/
def deflate (level : Nat) : Codec := Library.own.deflateCodec level

/-- LZ4 blocks as they are written here. -/
def lz4 : Codec := Library.own.lz4Codec

/-- Zstd frames as they are written here. -/
def zstd (level : Int) : Codec := Library.own.zstdCodec level

end Codec

/-- The codec of an algorithm, as it is written here. -/
def Algorithm.codec (a : Algorithm) : Codec := Library.own.codec a

end CacheLayer.Compression
