import CacheLayer.Proofs.Compression.ZstdSequences
import Mathlib
/-!
# Compressed blocks that are read back

A compressed block holds its literals as they are, the number of its sequences, and their stream.
Each part is read from where it was written, so carrying out the sequences on the literals gives the
data of the block.

## Key results

- `Zstd.readStates_sequenceStream`: the stream of sequences is read from its end
- `Zstd.compressedBlock_content`: the content of a compressed block is decoded
-/

namespace CacheLayer.Compression.Zstd

variable {level : Int} {enc data pre : ByteArray} {first stop : Nat}

/-! ## The stream of sequences -/

/-- Appends the states of the first sequence. -/
def pushStates (acc : BitWriter × States) : BitWriter :=
  ((acc.1.push acc.2.matchLength standardMatchLengthTable.log).push acc.2.offset
    standardOffsetTable.log).push acc.2.literalLength standardLiteralLengthTable.log

/-- Sequences are written from the last one to the first. -/
private theorem foldl_pushSequence (p : Piece) (ps : List Piece) :
    ∃ last rest, ((p :: ps).map Codeword.ofPiece).reverse = last :: rest ∧
      rest.foldl pushSequence (pushExtra {} last, lastStates last) = writeSequences p ps := by
  induction ps generalizing p with
  | nil => exact ⟨_, [], rfl, rfl⟩
  | cons p' ps ih =>
    obtain ⟨last, rest, hreverse, hfold⟩ := ih p'
    refine ⟨last, rest ++ [.ofPiece p], ?_, ?_⟩
    · rw [List.map_cons, List.reverse_cons, hreverse, List.cons_append]
    · rw [List.foldl_append, hfold]
      rfl

theorem sequenceStream_eq (p : Piece) (ps : List Piece) :
    sequenceStream ((p :: ps).map Codeword.ofPiece).reverse =
      ((pushStates (writeSequences p ps)).push 1 1).finish := by
  obtain ⟨last, rest, hreverse, hfold⟩ := foldl_pushSequence p ps
  have hfold : rest.foldl pushSequence (pushExtra {} last,
      ⟨stateOf standardLiteralLengthTable last.literalLength,
        stateOf standardOffsetTable last.offset,
        stateOf standardMatchLengthTable last.matchLength⟩) = writeSequences p ps := hfold
  rw [hreverse]
  simp only [sequenceStream, hfold, pushStates]

/-- The stream of sequences is read from its end. -/
theorem readStates_sequenceStream {p : Piece} {ps : List Piece}
    (hnames : ∀ q ∈ p :: ps, (Codeword.ofPiece q).Names q)
    (h : Extends (pre ++ sequenceStream ((p :: ps).map Codeword.ofPiece).reverse) enc) :
    SequenceStates.read enc standardCodes pre.size
        (pre ++ sequenceStream ((p :: ps).map Codeword.ofPiece).reverse).size =
      some ((writeSequences p ps).2.behind (8 * pre.size) (writeSequences p ps).1) ∧
    BitWriter.Carried enc (8 * pre.size) (writeSequences p ps).1 := by
  obtain ⟨hvalid, hhold⟩ := writeSequences_spec hnames
  obtain ⟨⟨w, s⟩, hacc⟩ : ∃ acc, writeSequences p ps = acc := ⟨_, rfl⟩
  rw [sequenceStream_eq, hacc] at h ⊢
  -- Behind the sequences stand the three states of the first one, and the mark behind these.
  rw [hacc] at hvalid hhold
  obtain ⟨hll, hof, hml⟩ := log_standard
  replace hll : standardLiteralLengthTable.log ≤ 32 := by omega
  replace hof : standardOffsetTable.log ≤ 32 := by omega
  replace hml : standardMatchLengthTable.log ≤ 32 := by omega
  have hw₁ : (w.push s.matchLength standardMatchLengthTable.log).Valid := hvalid.push _ hml
  have hw₂ := hw₁.push s.offset hof
  have hw₃ : (pushStates (w, s)).Valid := hw₂.push s.literalLength hll
  have h₃ := (BitWriter.carried_finish (hw₃.push 1 (by decide)) h).of_push hw₃ (by decide)
  have hsection := BackwardBits.ofSection_finish hw₃ h
  rw [pushStates] at h₃ hsection
  have h₂ := h₃.of_push hw₂ hll
  have h₁ := h₂.of_push hw₁ hof
  -- The decoder reads backwards, so that it meets the states in the opposite order.
  refine ⟨?_, h₁.of_push hvalid hml⟩
  rw [SequenceStates.read, pushStates, hsection]
  simp only [Option.bind_eq_bind, Option.bind_some, standardCodes,
    BackwardBits.peek_push hw₂ hll h₃, BackwardBits.skip_push hw₂ hll,
    BackwardBits.peek_push hw₁ hof h₂, BackwardBits.skip_push hw₁ hof,
    BackwardBits.peek_push hvalid hml h₁, BackwardBits.skip_push hvalid hml,
    Nat.mod_eq_of_lt hhold.literalLength.state_lt, Nat.mod_eq_of_lt hhold.offset.state_lt,
    Nat.mod_eq_of_lt hhold.matchLength.state_lt]
  rfl

/-! ## The parts in front of the stream -/

/-- Appends the header of literals that are not coded, and the literals. -/
def pushLiterals (out literals : ByteArray) : ByteArray :=
  pushLittleEndian out (16 * literals.size + 12) 3 ++ literals

private theorem size_pushLiterals (out literals : ByteArray) :
    (pushLiterals out literals).size = out.size + 3 + literals.size := by
  rw [pushLiterals, ByteArray.size_append, size_pushLittleEndian]

/-- Literals that are not coded are read back. -/
private theorem read_literals {literals : ByteArray} (hlimit : literals.size ≤ maxBlock)
    (h : Extends (pushLiterals pre literals) enc)
    (hstop : (pushLiterals pre literals).size ≤ stop) (code? : Option LiteralCode) :
    Literals.read enc pre.size stop maxBlock code? =
      some ⟨literals, code?, (pushLiterals pre literals).size⟩ := by
  rw [size_pushLiterals] at hstop ⊢
  rw [pushLiterals] at h
  have hmax' : maxBlock = 131072 := by decide
  have hsize : (pushLittleEndian pre (16 * literals.size + 12) 3).size = pre.size + 3 :=
    size_pushLittleEndian _ _ _
  have hfield : littleEndian enc pre.size 3 = 16 * literals.size + 12 := by
    rw [((Extends.append _ _).trans h).littleEndian (by omega), littleEndian_pushLittleEndian]
    exact Nat.mod_eq_of_lt (by simp only [Nat.pow_eq]; omega)
  have hbytes : enc.extract (pre.size + 3) (pre.size + 3 + literals.size) = literals := by
    rw [← hsize]
    exact h.extract_eq
  have hbyte : (byteAt enc pre.size).toNat = (16 * literals.size + 12) % 256 := by
    have hlt : (byteAt enc pre.size).toNat < 256 := UInt8.toNat_lt _
    rw [littleEndian] at hfield
    omega
  -- The low bits of the header say that the literals are plain and their size takes 20 bits.
  have hform : (byteAt enc pre.size).toNat % 4 = 0 := by omega
  have hwidth : (byteAt enc pre.size).toNat / 4 % 4 = 3 := by omega
  have hcount : (16 * literals.size + 12) / 16 = literals.size := by omega
  have hlong : ¬ stop < pre.size + 2 := by omega
  have hfits : ¬ (stop < pre.size + 3 + literals.size ∨ maxBlock < literals.size) := by omega
  simp only [Literals.read, if_neg hlong, hform, Literals.readRaw, Literals.plainHeader, hwidth,
    hfield, hcount, hbytes, if_neg hfits]

theorem pushCount_extends (out : ByteArray) (n : Nat) : Extends out (pushCount out n) := by
  rw [pushCount]
  split
  · exact .push _ _
  split
  · exact (Extends.push _ _).trans (.push _ _)
  · exact (Extends.push _ _).trans (.pushLittleEndian _ _ _)

section

variable {out : ByteArray} {n : Nat}

private theorem readSequenceCount_one (hn : n < 128) (h : Extends (out.push n.toUInt8) enc)
    (hstop : out.size + 1 ≤ stop) :
    readSequenceCount enc out.size stop = some (n, out.size + 1) := by
  have hbyte : (byteAt enc out.size).toNat = n := by
    rw [h.byteAt (by rw [ByteArray.size_push]; omega), byteAt_push]
    exact Nat.mod_eq_of_lt (by omega)
  simp only [readSequenceCount, hbyte, if_neg (show ¬ stop ≤ out.size by omega), if_pos hn]

private theorem readSequenceCount_two (hn : ¬ n < 128) (hmax : n < 0x7F00)
    (h : Extends ((out.push (n / 256 + 128).toUInt8).push n.toUInt8) enc)
    (hstop : out.size + 2 ≤ stop) :
    readSequenceCount enc out.size stop = some (n, out.size + 2) := by
  let out' := out.push (n / 256 + 128).toUInt8
  have hsize : out'.size = out.size + 1 := ByteArray.size_push
  have hsize' : (out'.push n.toUInt8).size = out.size + 2 := by rw [ByteArray.size_push, hsize]
  have hfirst : (byteAt enc out.size).toNat = n / 256 + 128 := by
    rw [((Extends.push _ _).trans h).byteAt (show out.size < out'.size by omega), byteAt_push]
    exact Nat.mod_eq_of_lt (by omega)
  have hsecond : (byteAt enc (out.size + 1)).toNat = n % 256 := by
    rw [h.byteAt (show out.size + 1 < (out'.push n.toUInt8).size by omega), ← hsize, byteAt_push]
    rfl
  have hvalue : (n / 256 + 128 - 128) * 256 + n % 256 = n := by omega
  simp only [readSequenceCount, hfirst, hsecond, if_neg (show ¬ stop ≤ out.size by omega),
    if_neg (show ¬ n / 256 + 128 < 128 by omega), if_neg (show n / 256 + 128 ≠ 255 by omega),
    if_neg (show ¬ stop < out.size + 2 by omega), hvalue]

private theorem readSequenceCount_three (hn : ¬ n < 0x7F00) (hmax : n < 0x7F00 + 65536)
    (h : Extends (pushLittleEndian (out.push 255) (n - 0x7F00) 2) enc)
    (hstop : out.size + 3 ≤ stop) :
    readSequenceCount enc out.size stop = some (n, out.size + 3) := by
  have hsize : (out.push 255).size = out.size + 1 := ByteArray.size_push
  have hfirst : byteAt enc out.size = 255 := by
    rw [((Extends.pushLittleEndian _ _ _).trans h).byteAt (by omega), byteAt_push]
  have hfield : littleEndian enc (out.size + 1) 2 = n - 0x7F00 := by
    rw [← hsize, h.littleEndian (by rw [size_pushLittleEndian]), littleEndian_pushLittleEndian]
    exact Nat.mod_eq_of_lt (by simp only [Nat.pow_eq]; omega)
  have hvalue : n - 0x7F00 + 0x7F00 = n := by omega
  have hhead : (255 : UInt8).toNat = 255 := rfl
  simp only [readSequenceCount, hfirst, hhead, hfield, if_neg (show ¬ stop ≤ out.size by omega),
    if_neg (show ¬ 255 < 128 by decide), if_neg (show ¬ stop < out.size + 3 by omega), hvalue]
  rfl

/-- The number of sequences is read back, in whichever form it is written. -/
private theorem readSequenceCount_pushCount (hn : n < 0x7F00 + 65536)
    (h : Extends (pushCount out n) enc) (hstop : (pushCount out n).size ≤ stop) :
    readSequenceCount enc out.size stop = some (n, (pushCount out n).size) := by
  rw [pushCount] at h hstop ⊢
  by_cases hone : n < 128
  · rw [if_pos hone] at h hstop ⊢
    rw [ByteArray.size_push] at hstop ⊢
    exact readSequenceCount_one hone h hstop
  · rw [if_neg hone] at h hstop ⊢
    by_cases htwo : n < 0x7F00
    · rw [if_pos htwo] at h hstop ⊢
      rw [ByteArray.size_push, ByteArray.size_push] at hstop ⊢
      exact readSequenceCount_two hone htwo h hstop
    · rw [if_neg htwo] at h hstop ⊢
      rw [size_pushLittleEndian, ByteArray.size_push] at hstop ⊢
      exact readSequenceCount_three htwo hn h hstop

end

/-- The byte that asks for the standard codes. -/
private theorem readSequenceCodes_zero {out : ByteArray} (h : Extends (out.push 0) enc)
    (hstop : out.size < stop) (last? : Option SequenceCodes) :
    readSequenceCodes enc out.size stop last? = some (standardCodes, out.size + 1) := by
  have hbyte : byteAt enc out.size = 0 := by
    rw [h.byteAt (by rw [ByteArray.size_push]; omega), byteAt_push]
  have hzero : (0 : UInt8).toNat = 0 := rfl
  simp only [readSequenceCodes, if_neg (Nat.not_le.2 hstop), hbyte, hzero, readSequenceCode]
  rfl

/-- Appends what stands in front of the stream of `n` sequences. -/
def pushFront (out literals : ByteArray) (n : Nat) : ByteArray :=
  (pushCount (pushLiterals out literals) n).push 0

/-- What stands in front of the stream of sequences is read back. -/
private theorem read_front {literals : ByteArray} {n : Nat} (hlimit : literals.size ≤ maxBlock)
    (hn : n < 0x7F00 + 65536) (h : Extends (pushFront pre literals n) enc)
    (hstop : (pushFront pre literals n).size ≤ stop) (memory : Memory) :
    ∃ pos pos',
      Literals.read enc pre.size stop maxBlock memory.literals? =
        some ⟨literals, memory.literals?, pos⟩ ∧
      readSequenceCount enc pos stop = some (n, pos') ∧
      readSequenceCodes enc pos' stop memory.sequences? =
        some (standardCodes, (pushFront pre literals n).size) := by
  let o₁ := pushLiterals pre literals
  let o₂ := pushCount o₁ n
  have h₃ : Extends (o₂.push 0) enc := h
  have h₂ : Extends o₂ enc := (Extends.push _ _).trans h₃
  have hcount : Extends o₁ o₂ := pushCount_extends _ _
  have hle := hcount.size_le
  have hsize : (o₂.push 0).size = o₂.size + 1 := ByteArray.size_push
  have hstop : (o₂.push 0).size ≤ stop := hstop
  have hstop₂ : o₂.size < stop := by omega
  have hstop₁ : o₁.size ≤ stop := Nat.le_trans hle hstop₂.le
  have hcodes := readSequenceCodes_zero h₃ hstop₂ memory.sequences?
  rw [← hsize] at hcodes
  exact ⟨o₁.size, o₂.size, read_literals hlimit (hcount.trans h₂) hstop₁ _,
    readSequenceCount_pushCount hn h₂ hstop₂.le, hcodes⟩

/-! ## The content of a block -/

private theorem append_push (a b : ByteArray) (x : UInt8) : a ++ b.push x = (a ++ b).push x := by
  ext1
  simp [ByteArray.data_push, ByteArray.data_append]

private theorem append_pushLittleEndian (a b : ByteArray) (value n : Nat) :
    a ++ pushLittleEndian b value n = pushLittleEndian (a ++ b) value n := by
  induction n generalizing b value with
  | zero => rfl
  | succ n ih => rw [pushLittleEndian, pushLittleEndian, ih, append_push]

private theorem append_pushCount (a b : ByteArray) (n : Nat) :
    a ++ pushCount b n = pushCount (a ++ b) n := by
  rw [pushCount, pushCount]
  split
  · exact append_push _ _ _
  split
  · rw [append_push, append_push]
  · rw [append_pushLittleEndian, append_push]

/-- The literals of a block. -/
def literalsOf (data : ByteArray) (ps : List Piece) (first rest stop : Nat) : ByteArray :=
  pushSlice (gatherPieces data ps (.empty, first)).1 data rest (stop - rest)

/-- Behind some bytes, the content of a block with sequences is appended part by part. -/
private theorem append_compressedContent {p : Piece} {ps : List Piece} {pieces : Array Piece}
    {rest : Nat} (hfactor : factor (scope level) data first stop = (pieces, rest))
    (hpieces : pieces.toList = p :: ps) (pre : ByteArray) :
    pre ++ compressedContent level data first stop =
      pushFront pre (literalsOf data (p :: ps) first rest stop) (ps.length + 1) ++
        sequenceStream ((p :: ps).map Codeword.ofPiece).reverse := by
  have hsize : pieces.size = ps.length + 1 := by
    rw [← Array.length_toList, hpieces, List.length_cons]
  have hliterals : gatherLiterals data pieces first rest stop =
      literalsOf data (p :: ps) first rest stop := by
    rw [gatherLiterals, ← Array.foldl_toList, hpieces]
    rfl
  have hbackwards : pieces.foldl (fun acc p => .ofPiece p :: acc) ([] : List Codeword) =
      ((p :: ps).map Codeword.ofPiece).reverse := by
    rw [← Array.foldl_toList, hpieces, List.foldl_flip_cons_eq_append, List.append_nil]
  simp only [compressedContent, hfactor, hliterals, hbackwards]
  simp only [hsize, Nat.succ_ne_zero, if_false]
  rw [pushFront, pushLiterals, ← ByteArray.append_assoc, append_push, append_pushCount,
    ← ByteArray.append_assoc, append_pushLittleEndian, ByteArray.append_empty]

/-- There are no more literals than bytes in front of what pieces leave over. -/
private theorem size_gatherPieces {ps : List Piece} {pos rest : Nat}
    (hcover : Covers (scope level) data first stop ps pos rest) (hpos : pos ≤ stop)
    (hstop : stop ≤ data.size) (lits : ByteArray) :
    (gatherPieces data ps (lits, pos)).1.size + pos ≤ lits.size + rest := by
  induction ps generalizing pos lits with
  | nil =>
    cases hcover
    exact Nat.le_refl _
  | cons p ps ih =>
    cases hcover with
    | cons hfits hcover =>
      have hmargin : pos + p.literals + p.length ≤ stop := hfits.margin
      have hrest := ih hcover hmargin (pushSlice lits data pos p.literals)
      rw [size_pushSlice lits (by omega)] at hrest
      rw [gatherPieces_cons]
      omega

/-- Without sequences the content of a block is longer than its bytes. -/
private theorem size_compressedContent_nil {pieces : Array Piece} {rest : Nat}
    (hfactor : factor (scope level) data first stop = (pieces, rest)) (hpieces : pieces.toList = [])
    (hrest : rest = first) (hfirst : first ≤ stop) (hstop : stop ≤ data.size) :
    stop - first ≤ (compressedContent level data first stop).size := by
  have hsize : pieces.size = 0 := by rw [← Array.length_toList, hpieces, List.length_nil]
  have hliterals : gatherLiterals data pieces first rest stop =
      pushSlice .empty data first (stop - first) := by
    rw [gatherLiterals, ← Array.foldl_toList, hpieces, hrest]
    rfl
  -- The literals alone are as many as the bytes of the block.
  let lits := pushSlice .empty data first (stop - first)
  let head := pushLittleEndian .empty (16 * lits.size + 12) 3
  have hlits : lits.size = 0 + (stop - first) := size_pushSlice _ (by omega)
  have hhead : (head ++ lits).size = head.size + lits.size := ByteArray.size_append
  have hle := (pushCount_extends (head ++ lits) 0).size_le
  simp only [compressedContent, hfactor, hliterals, hsize, if_true]
  show stop - first ≤ (pushCount (head ++ lits) 0).size
  omega

/-- The content of a block is never empty. -/
theorem size_compressedContent_pos (level : Int) (data : ByteArray) (first stop : Nat) :
    0 < (compressedContent level data first stop).size := by
  obtain ⟨pieces, rest, hfactor⟩ :
      ∃ pieces rest, factor (scope level) data first stop = (pieces, rest) := ⟨_, _, rfl⟩
  let lits := gatherLiterals data pieces first rest stop
  let head := pushLittleEndian .empty (16 * lits.size + 12) 3
  have hcount : Extends head (pushCount (head ++ lits) pieces.size) :=
    (Extends.append _ _).trans (pushCount_extends _ _)
  have hhead : head.size = 0 + 3 := size_pushLittleEndian _ _ _
  have hle : head.size ≤ (compressedContent level data first stop).size := by
    simp only [compressedContent, hfactor]
    split
    · exact hcount.size_le
    · exact (hcount.trans ((Extends.push _ _).trans (.append _ _))).size_le
  omega

/-- Every level makes progress. -/
private theorem stride_pos (level : Int) : 0 < (scope level).stride := by
  show 0 < strideOf level
  rw [strideOf]
  split
  · have hmax : 0 < maxStride := by decide
    omega
  · exact Nat.one_pos

/-- The literals that are left over end the block. -/
private theorem pushRest_front {rest limit : Nat} (hrest : rest ≤ stop) (hstop : stop ≤ data.size)
    (hblock : stop ≤ first + limit) (gathered : ByteArray) :
    pushRest (pushSlice gathered data rest (stop - rest)) gathered.size first limit
      (data.extract 0 rest) = some (data.extract 0 stop) := by
  have hfits : rest + (stop - rest) ≤ data.size := by omega
  have hleft : (pushSlice gathered data rest (stop - rest)).size - gathered.size = stop - rest := by
    rw [size_pushSlice _ hfits]
    omega
  have hroom : ¬ first + limit < (data.extract 0 rest).size + (stop - rest) := by
    rw [size_front (by omega)]
    omega
  have hslice := pushSlice_of_extends (data.extract 0 rest)
    (.refl (pushSlice gathered data rest (stop - rest))) hfits
  rw [pushSlice_front, show rest + (stop - rest) = stop by omega] at hslice
  simp only [pushRest, hleft, if_neg hroom, hslice]

/-- A block with sequences is decoded part by part. -/
private theorem compressedBlock_eq {origin start pos pos' n used : Nat} {limits : BlockLimits}
    {memory : Memory} {out out' out'' : ByteArray} {literals : Literals} {codes : SequenceCodes}
    {states : SequenceStates} {recent : RecentOffsets} (hfirst : out.size = first)
    (hread : Literals.read enc start stop limits.coded memory.literals? = some literals)
    (hcount : readSequenceCount enc literals.next stop = some (n + 1, pos))
    (hcodes : readSequenceCodes enc pos stop memory.sequences? = some (codes, pos'))
    (hstates : SequenceStates.read enc codes pos' stop = some states)
    (hrun : runSequences enc codes literals.bytes origin first limits.content (n + 1) states
      memory.recent 0 out = some (recent, used, out'))
    (hrest : pushRest literals.bytes used first limits.content out' = some out'') :
    ∃ memory', compressedBlock enc origin limits start stop memory out = some (memory', out'') := by
  simp [compressedBlock, hread, hcount, hcodes, hstates, hfirst, hrun, hrest]

/-- The stream of sequences leads to the last literals of the block. -/
private theorem run_sequenceStream {p : Piece} {ps : List Piece} {rest : Nat}
    (hcover : Covers (scope level) data first stop (p :: ps) first rest) (hstop : stop ≤ data.size)
    (hblock : stop ≤ first + maxBlock)
    (h : Extends (pre ++ sequenceStream ((p :: ps).map Codeword.ofPiece).reverse) enc)
    {literals : ByteArray}
    (hfull : Extends (gatherPieces data (p :: ps) (.empty, first)).1 literals)
    (recent : RecentOffsets) :
    ∃ states recent',
      SequenceStates.read enc standardCodes pre.size
          (pre ++ sequenceStream ((p :: ps).map Codeword.ofPiece).reverse).size = some states ∧
      runSequences enc standardCodes literals 0 first maxBlock (ps.length + 1) states recent 0
          (data.extract 0 first) =
        some (recent', (gatherPieces data (p :: ps) (.empty, first)).1.size,
          data.extract 0 rest) := by
  have hnames := names_of_covers hcover (Nat.le_refl first) hblock
  obtain ⟨hread, hcarried⟩ := readStates_sequenceStream hnames h
  obtain ⟨recent', hrun⟩ :=
    runSequences_pieces hcover (Nat.le_refl first) hstop hblock hcarried hfull recent
  exact ⟨_, recent', hread, hrun⟩

/-- The content of a compressed block is decoded. -/
theorem compressedBlock_content
    (h : Extends (pre ++ compressedContent level data first stop) enc) (hfirst : first ≤ stop)
    (hstop : stop ≤ data.size) (hblock : stop ≤ first + maxBlock)
    (hshort : (compressedContent level data first stop).size < stop - first) (memory : Memory) :
    ∃ memory', compressedBlock enc 0 ⟨maxBlock, maxBlock⟩ pre.size
        (pre ++ compressedContent level data first stop).size memory (data.extract 0 first) =
      some (memory', data.extract 0 stop) := by
  obtain ⟨pieces, rest, hfactor, hcover⟩ := factor_covers (stride_pos level) data first stop
  cases hpieces : pieces.toList with
  | nil =>
    -- Literals alone would have been written as they are.
    rw [hpieces] at hcover
    cases hcover
    have hle := size_compressedContent_nil hfactor hpieces rfl hfirst hstop
    omega
  | cons p ps =>
    rw [hpieces] at hcover
    let gathered := (gatherPieces data (p :: ps) (.empty, first)).1
    let literals := literalsOf data (p :: ps) first rest stop
    let front := pushFront pre literals (ps.length + 1)
    let stream := sequenceStream ((p :: ps).map Codeword.ofPiece).reverse
    have hcontent : pre ++ compressedContent level data first stop = front ++ stream :=
      append_compressedContent hfactor hpieces pre
    rw [hcontent] at h ⊢
    have hmax : maxBlock = 131072 := by decide
    obtain ⟨hcount, hrest⟩ := hcover.le hfirst
    rw [List.length_cons] at hcount
    have hgathered : gathered.size + first ≤ 0 + rest :=
      size_gatherPieces hcover hfirst hstop .empty
    have hliterals : literals.size = gathered.size + (stop - rest) := size_pushSlice _ (by omega)
    -- The decoder reads the parts in order, and then carries out the sequences.
    obtain ⟨pos, pos', hread, hreadCount, hreadCodes⟩ :=
      read_front (show literals.size ≤ maxBlock by omega) (show ps.length + 1 < _ by omega)
        ((Extends.append front stream).trans h) (Extends.append front stream).size_le memory
    obtain ⟨states, recent, hreadStates, hrun⟩ := run_sequenceStream hcover hstop hblock h
      (.pushSlice gathered data rest (stop - rest)) memory.recent
    exact compressedBlock_eq (size_front (by omega)) hread hreadCount hreadCodes hreadStates hrun
      (pushRest_front hrest hstop hblock gathered)

end CacheLayer.Compression.Zstd
