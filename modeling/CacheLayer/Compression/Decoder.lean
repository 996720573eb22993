import CacheLayer.Compression.Feed
/-!
# Decoders that produce their output piece by piece

A decoder is a machine: each step consumes some of its input and appends a bounded piece to its
output, until it is done or finds a fault. `Decoder.run` drives one to its end, and `Decoder.feed`
gives what it appends to whoever reads it.
-/

namespace CacheLayer.Compression

/-- What one step of a decoder leads to. -/
inductive Decoder.Step (σ : Type) where
  /-- More is to come. -/
  | more (state : σ)
  /-- The input is decoded. -/
  | done (output : ByteArray)
  /-- The input cannot be decoded. -/
  | fault (fault : Fault)

/-- A machine that decodes. -/
structure Decoder (σ : Type) where
  /-- One step. -/
  step : σ → Decoder.Step σ
  /-- What has been produced. -/
  output : σ → ByteArray

namespace Decoder

variable {σ : Type}

/-- How many bytes have been produced. -/
def size (d : Decoder σ) (s : σ) : Nat := (d.output s).size

/-- The fault of a decoder that was given too few steps. -/
def outOfSteps : Fault := .malformed "input ended early"

/-- Runs a decoder for at most `fuel` steps. -/
def run (d : Decoder σ) : Nat → σ → Except Fault ByteArray
  | 0, _ => .error outOfSteps
  | fuel + 1, s =>
    match d.step s with
    | .more s => run d fuel s
    | .done output => .ok output
    | .fault f => .error f

/-- The output of a decoder that does at most `fuel` steps, one step for each piece. -/
def feed (d : Decoder σ) : Nat → σ → Feed
  | 0, _ => .fault outOfSteps
  | fuel + 1, s =>
    let given := d.size s
    match d.step s with
    | .more s => .piece ((d.output s).extract given (d.size s)) fun _ => feed d fuel s
    | .done output => .piece (output.extract given output.size) fun _ => .ended
    | .fault f => .fault f

section

variable {d : Decoder σ} {s s' : σ} {out : ByteArray}

/-- A run goes on whenever more is to come. -/
theorem run_more (h : d.step s = .more s') (fuel : Nat) :
    d.run (fuel + 1) s = d.run fuel s' := by
  simp [run, h]

/-- A run ends with any output. -/
theorem run_done (h : d.step s = .done out) (fuel : Nat) : d.run (fuel + 1) s = .ok out := by
  simp [run, h]

end

end Decoder

end CacheLayer.Compression
