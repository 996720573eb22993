import CacheLayer.Proofs.Compression.FseCodes
import Mathlib
/-!
# Sequences that are carried out

The sequences of a block are written from the last one to the first and read from the first to the
last. Reading one takes from the end of the stream what was written for it, and leaves the stream as
it was before, together with the states for the next one.

## Key results

- `Zstd.Codeword.ofPiece_names`: the symbols and extra bits of a piece tell all of its numbers
- `Zstd.runSequences_sequence`: a sequence is read and carried out
- `Zstd.runSequences_pieces`: all sequences of a block lead to its last literals
-/

namespace CacheLayer.Compression.Zstd

/-! ## Symbols -/

namespace Codeword

/-- Whether symbols and extra bits stand for the numbers of a piece. -/
structure Names (c : Codeword) (p : Piece) : Prop where
  literalLength_lt : c.literalLength < 36
  literalBits_le : c.literalBits ≤ 32
  literals : ∃ base, literalLengthEntries.getD c.literalLength (0, 0) = (base, c.literalBits) ∧
    base + c.literalRest % 2 ^ c.literalBits = p.literals
  matchLength_lt : c.matchLength < 53
  matchBits_le : c.matchBits ≤ 32
  length : ∃ base, matchLengthEntries.getD c.matchLength (0, 0) = (base, c.matchBits) ∧
    base + c.matchRest % 2 ^ c.matchBits = p.length
  two_le_offset : 2 ≤ c.offset
  offset_lt : c.offset < 29
  distance : (1 <<< c.offset) - 3 + c.offsetRest % 2 ^ c.offset = p.distance

/-- The symbols of a piece stand for it. -/
theorem ofPiece_names {p : Piece} (hliterals : p.literals < 131072)
    (hlength : 3 ≤ p.length ∧ p.length < 131075)
    (hdistance : 1 ≤ p.distance ∧ p.distance ≤ 131072) : (ofPiece p).Names p := by
  obtain ⟨base₁, extra₁, hname₁⟩ := contiguous_literalLengths.names rfl (Nat.zero_le _) hliterals
  obtain ⟨base₂, extra₂, hname₂⟩ := contiguous_matchLengths.names rfl hlength.1 hlength.2
  -- A new offset is written as its logarithm and the bits below; three offsets are kept back.
  let value := p.distance + 3
  have hne : value ≠ 0 := Nat.succ_ne_zero _
  have hself : 2 ^ value.log2 ≤ value := Nat.log2_self_le hne
  have hnext : value < 2 ^ (value.log2 + 1) := Nat.lt_log2_self
  have htwo : 2 ≤ value.log2 := (Nat.le_log2 hne).2 (show 4 ≤ p.distance + 3 by omega)
  have hlog : value.log2 < 18 := (Nat.log2_lt hne).2 (show p.distance + 3 < 262144 by omega)
  have hfour : 2 ^ 2 ≤ 2 ^ value.log2 := Nat.pow_le_pow_right (by decide) htwo
  rw [pow_succ] at hnext
  have hpiece : ofPiece p =
      ⟨entryOf literalLengthEntries p.literals, p.literals - base₁, extra₁,
        entryOf matchLengthEntries p.length, p.length - base₂, extra₂, value.log2,
        value - (1 <<< value.log2)⟩ := by
    simp only [ofPiece, hname₁.getD_eq, hname₂.getD_eq, value]
  -- All sizes are bounded by those of the standard codes.
  rw [hpiece]
  constructor
  case literalLength_lt => exact hname₁.lt_size
  case literalBits_le => exact Nat.le_trans hname₁.extra_le (by decide)
  case literals => exact ⟨base₁, hname₁.getD_eq, hname₁.value_eq⟩
  case matchLength_lt => exact hname₂.lt_size
  case matchBits_le => exact Nat.le_trans hname₂.extra_le (by decide)
  case length => exact ⟨base₂, hname₂.getD_eq, hname₂.value_eq⟩
  case two_le_offset => exact htwo
  case offset_lt => exact Nat.lt_trans hlog (by decide)
  case distance =>
    simp only [Nat.one_shiftLeft]
    rw [Nat.mod_eq_of_lt (by omega)]
    show 2 ^ value.log2 - 3 + (p.distance + 3 - 2 ^ value.log2) = p.distance
    omega

end Codeword

/-! ## Writing sequences -/

section

variable {w : BitWriter} {c : Codeword} {p : Piece}

theorem grows_pushExtra (hw : w.Valid) (hc : c.Names p) : w.Grows (pushExtra w c) := by
  have hliterals := hc.literalBits_le
  have hmatch := hc.matchBits_le
  have hoffset := hc.offset_lt
  have h₁ := hw.grows_push c.literalRest (n := c.literalBits) (by omega)
  have h₂ := h₁.trans (h₁.valid.grows_push c.matchRest (n := c.matchBits) (by omega))
  exact h₂.trans (h₂.valid.grows_push c.offsetRest (n := c.offset) (by omega))

/-- Whether states are those of the symbols of a sequence. -/
structure States.Hold (s : States) (c : Codeword) : Prop where
  literalLength : standardLiteralLengthTable.Holds s.literalLength c.literalLength
  offset : standardOffsetTable.Holds s.offset c.offset
  matchLength : standardMatchLengthTable.Holds s.matchLength c.matchLength

/-- The states of the last sequence. -/
def lastStates (c : Codeword) : States :=
  ⟨stateOf standardLiteralLengthTable c.literalLength, stateOf standardOffsetTable c.offset,
    stateOf standardMatchLengthTable c.matchLength⟩

theorem lastStates_hold (hc : c.Names p) : (lastStates c).Hold c :=
  ⟨linked_literalLengths.stateOf hc.literalLength_lt, linked_offsets.stateOf hc.offset_lt,
    linked_matchLengths.stateOf hc.matchLength_lt⟩

/-- Appends the numbers that lead on to the states of the next sequence. -/
def pushLinks (w : BitWriter) (ofRest ofBits mlRest mlBits llRest llBits : Nat) : BitWriter :=
  ((w.push ofRest ofBits).push mlRest mlBits).push llRest llBits

/-- How a sequence is written in front of others. -/
theorem pushSequence_spec {next : States} {c' : Codeword} (w : BitWriter) (hc : c.Names p)
    (hnext : next.Hold c') :
    ∃ ll llRest llBits of_ ofRest ofBits ml mlRest mlBits,
      pushSequence (w, next) c =
        (pushExtra (pushLinks w ofRest ofBits mlRest mlBits llRest llBits) c, ⟨ll, of_, ml⟩) ∧
      standardLiteralLengthTable.Before c.literalLength next.literalLength ll llRest llBits ∧
      standardOffsetTable.Before c.offset next.offset of_ ofRest ofBits ∧
      standardMatchLengthTable.Before c.matchLength next.matchLength ml mlRest mlBits := by
  obtain ⟨ll, llRest, llBits, hll, hll'⟩ :=
    linked_literalLengths.stateBefore hc.literalLength_lt hnext.literalLength.state_lt
  obtain ⟨of_, ofRest, ofBits, hof, hof'⟩ :=
    linked_offsets.stateBefore hc.offset_lt hnext.offset.state_lt
  obtain ⟨ml, mlRest, mlBits, hml, hml'⟩ :=
    linked_matchLengths.stateBefore hc.matchLength_lt hnext.matchLength.state_lt
  refine ⟨ll, llRest, llBits, of_, ofRest, ofBits, ml, mlRest, mlBits, ?_, hll', hof', hml'⟩
  rw [pushSequence, hof, hml, hll]
  rfl

theorem grows_pushLinks (hw : w.Valid) {ofBits mlBits llBits : Nat} (hof : ofBits ≤ 32)
    (hml : mlBits ≤ 32) (hll : llBits ≤ 32) (ofRest mlRest llRest : Nat) :
    w.Grows (pushLinks w ofRest ofBits mlRest mlBits llRest llBits) := by
  have h₁ := hw.grows_push ofRest hof
  have h₂ := h₁.trans (h₁.valid.grows_push mlRest hml)
  exact h₂.trans (h₂.valid.grows_push llRest hll)

/-- The sequences from the first piece to the last: the bits, and the states of the first one. -/
def writeSequences : Piece → List Piece → BitWriter × States
  | p, [] => (pushExtra {} (.ofPiece p), lastStates (.ofPiece p))
  | p, p' :: ps => pushSequence (writeSequences p' ps) (.ofPiece p)

/-- What is written can be read from its end, beginning with the states of the first sequence. -/
theorem writeSequences_spec {ps : List Piece} (h : ∀ q ∈ p :: ps, (Codeword.ofPiece q).Names q) :
    (writeSequences p ps).1.Valid ∧ (writeSequences p ps).2.Hold (.ofPiece p) := by
  induction ps generalizing p with
  | nil =>
    have hp := h p (List.mem_cons_self ..)
    exact ⟨(grows_pushExtra BitWriter.valid_empty hp).valid, lastStates_hold hp⟩
  | cons p' ps ih =>
    have hp := h p (List.mem_cons_self ..)
    obtain ⟨hvalid, hhold⟩ := ih (p := p') fun q hq => h q (List.mem_cons_of_mem _ hq)
    obtain ⟨ll, llRest, llBits, of_, ofRest, ofBits, ml, mlRest, mlBits, heq, hll, hof, hml⟩ :=
      pushSequence_spec (writeSequences p' ps).1 hp hhold
    have hlinks := grows_pushLinks hvalid hof.bits_le hml.bits_le hll.bits_le ofRest mlRest llRest
    have heq : writeSequences p (p' :: ps) = _ := heq
    rw [heq]
    exact ⟨(grows_pushExtra hlinks.valid hp).valid, hll.holds, hof.holds, hml.holds⟩

end

/-! ## Reading sequences -/

/-- The codes of a block that brings none. -/
def standardCodes : SequenceCodes :=
  ⟨standardLiteralLengthTable, standardOffsetTable, standardMatchLengthTable⟩

/-- The states in front of what is left of a stream. -/
def States.behind (s : States) (base : Nat) (w : BitWriter) : SequenceStates :=
  ⟨s.literalLength, s.offset, s.matchLength, .behind base w⟩

/-- The states for the next sequence, if `n` of them are left. -/
def advance (enc : ByteArray) (n : Nat) (s : States) (bits : BackwardBits) : SequenceStates :=
  let ll := standardLiteralLengthTable.cell s.literalLength
  let of_ := standardOffsetTable.cell s.offset
  let ml := standardMatchLengthTable.cell s.matchLength
  if n = 0 then ⟨s.literalLength, s.offset, s.matchLength, bits⟩
  else
    let llNext := FseTable.next enc ll bits
    let bits := bits.skip ll.bits
    let mlNext := FseTable.next enc ml bits
    let bits := bits.skip ml.bits
    let ofNext := FseTable.next enc of_ bits
    ⟨llNext, ofNext, mlNext, bits.skip of_.bits⟩

section

variable {enc : ByteArray} {base : Nat} {w : BitWriter} {c : Codeword} {p : Piece}

/-- Behind the numbers that lead on there are the states of the next sequence. -/
theorem advance_pushLinks (hw : w.Valid) {s next : States} {c : Codeword}
    {llRest llBits ofRest ofBits mlRest mlBits n : Nat} (hn : n ≠ 0)
    (hll : standardLiteralLengthTable.Before c.literalLength next.literalLength s.literalLength
      llRest llBits)
    (hof : standardOffsetTable.Before c.offset next.offset s.offset ofRest ofBits)
    (hml : standardMatchLengthTable.Before c.matchLength next.matchLength s.matchLength
      mlRest mlBits)
    (h : BitWriter.Carried enc base (pushLinks w ofRest ofBits mlRest mlBits llRest llBits)) :
    advance enc n s (.behind base (pushLinks w ofRest ofBits mlRest mlBits llRest llBits)) =
      next.behind base w := by
  have hw₁ := hw.push ofRest hof.bits_le
  have hw₂ := hw₁.push mlRest hml.bits_le
  have h₂ := h.of_push hw₂ hll.bits_le
  have h₁ := h₂.of_push hw₁ hml.bits_le
  simp only [advance, if_neg hn, FseTable.next, hll.bits_eq, hml.bits_eq, hof.bits_eq, pushLinks,
    BackwardBits.skip_push hw₂ hll.bits_le, BackwardBits.skip_push hw₁ hml.bits_le,
    BackwardBits.skip_push hw hof.bits_le, BackwardBits.peek_push hw₂ hll.bits_le h,
    BackwardBits.peek_push hw₁ hml.bits_le h₂, BackwardBits.peek_push hw hof.bits_le h₁,
    Nat.mod_eq_of_lt hll.rest_lt, Nat.mod_eq_of_lt hml.rest_lt, Nat.mod_eq_of_lt hof.rest_lt,
    hll.next_eq, hml.next_eq, hof.next_eq]
  rfl

/-- Behind the last sequence the stream is at its end. -/
private theorem runSequences_end (s : States) (literals : ByteArray) (first limit used : Nat)
    (recent : RecentOffsets) (out : ByteArray) :
    runSequences enc standardCodes literals 0 first limit 0 (advance enc 0 s (.behind base {}))
      recent used out = some (recent, used, out) := by
  have hend : (advance enc 0 s (.behind base {})).bits.AtEnd := by
    simp only [advance, if_true]
    exact BackwardBits.atEnd_behind_empty base
  rw [runSequences, if_pos hend]

/-- A new offset is read and becomes the first of the recent ones. -/
private theorem readOffset_push (hw : w.Valid) (hc : c.Names p)
    (h : BitWriter.Carried enc base (w.push c.offsetRest c.offset)) (first : Nat)
    (recent : RecentOffsets) :
    readOffset enc c.offset first recent (.behind base (w.push c.offsetRest c.offset)) =
      (p.distance, recent.push p.distance, .behind base w) := by
  have hoffset : c.offset ≤ 32 := Nat.le_trans hc.offset_lt.le (by decide)
  simp only [readOffset, if_pos hc.two_le_offset, BackwardBits.peek_push hw hoffset h,
    BackwardBits.skip_push hw hoffset, hc.distance]

/-- A sequence is read and carried out. -/
theorem runSequences_sequence (hw : w.Valid) (hc : c.Names p) {s : States} (hs : s.Hold c)
    (h : BitWriter.Carried enc base (pushExtra w c)) {literals out : ByteArray}
    {first limit used : Nat} (hused : used + p.literals ≤ literals.size)
    (hlimit : out.size + p.literals + p.length ≤ first + limit) (hpositive : 0 < p.distance)
    (hreach : p.distance ≤ out.size + p.literals) (n : Nat) (recent : RecentOffsets) :
    runSequences enc standardCodes literals 0 first limit (n + 1) (s.behind base (pushExtra w c))
        recent used out =
      runSequences enc standardCodes literals 0 first limit n
        (advance enc n s (.behind base w)) (recent.push p.distance) (used + p.literals)
        (pushBack (pushSlice out literals used p.literals) p.distance p.length) := by
  obtain ⟨base₁, hentry₁, hvalue₁⟩ := hc.literals
  obtain ⟨base₂, hentry₂, hvalue₂⟩ := hc.length
  have hw₁ := hw.push c.literalRest hc.literalBits_le
  have hw₂ := hw₁.push c.matchRest hc.matchBits_le
  have hoffset : c.offset ≤ 32 := Nat.le_trans hc.offset_lt.le (by decide)
  have h₂ := h.of_push hw₂ hoffset
  have h₁ := h₂.of_push hw₁ hc.matchBits_le
  have hsize : (pushSlice out literals used p.literals).size = out.size + p.literals :=
    size_pushSlice out hused
  -- None of the three refusals applies: literals are there, there is room, and the copy reaches
  -- back no further than the output.
  have hliterals : ¬ literals.size < used + p.literals := by omega
  have hroom : ¬ first + limit < out.size + p.literals + p.length := by omega
  have hmatch : ¬ (p.distance = 0 ∨
      (pushSlice out literals used p.literals).size < 0 + p.distance) := by
    rw [hsize]
    omega
  -- The extra bits are met in the order opposite to that of writing.
  simp only [runSequences, States.behind, standardCodes, hs.literalLength.symbol_eq,
    hs.offset.symbol_eq, hs.matchLength.symbol_eq, hentry₁, hentry₂, pushExtra,
    readOffset_push hw₂ hc h, BackwardBits.peek_push hw₁ hc.matchBits_le h₂,
    BackwardBits.skip_push hw₁ hc.matchBits_le, BackwardBits.peek_push hw hc.literalBits_le h₁,
    BackwardBits.skip_push hw hc.literalBits_le, hvalue₁, hvalue₂, if_neg hliterals, if_neg hroom,
    if_neg hmatch]
  rfl

end

/-! ## The sequences of a block -/

section

variable {level : Int} {enc data : ByteArray} {first stop pos rest : Nat} {p : Piece}
  {ps : List Piece}

/-- The pieces of a block can be named. -/
theorem names_of_covers (h : Covers (scope level) data first stop ps pos rest) (hpos : first ≤ pos)
    (hblock : stop ≤ first + maxBlock) : ∀ q ∈ ps, (Codeword.ofPiece q).Names q := by
  induction h with
  | nil => exact fun q hq => absurd hq List.not_mem_nil
  | @cons p ps pos rest hfits hrest ih =>
    intro q hq
    obtain rfl | hq := List.mem_cons.1 hq
    · have hmax : maxBlock = 131072 := by decide
      have hfour := hfits.four_le
      have hlength : q.length ≤ 65538 := hfits.length_le
      have hdistance : q.distance ≤ maxBlock := hfits.distance_le
      have hpositive := hfits.repeats.positive
      have hroom : pos + q.literals + 4 ≤ stop := hfits.room
      exact Codeword.ofPiece_names (by omega) (by omega) (by omega)
    · exact ih (by omega) q hq

/-- Collects the literals of pieces: the literals, and the index behind the pieces. -/
def gatherPieces (data : ByteArray) (ps : List Piece) (acc : ByteArray × Nat) : ByteArray × Nat :=
  ps.foldl (fun acc p => (pushSlice acc.1 data acc.2 p.literals, acc.2 + p.literals + p.length)) acc

theorem gatherPieces_cons (data : ByteArray) (p : Piece) (ps : List Piece) (lits : ByteArray)
    (pos : Nat) :
    gatherPieces data (p :: ps) (lits, pos) =
      gatherPieces data ps (pushSlice lits data pos p.literals, pos + p.literals + p.length) :=
  rfl

theorem gatherPieces_extends (data : ByteArray) (ps : List Piece) (acc : ByteArray × Nat) :
    Extends acc.1 (gatherPieces data ps acc).1 := by
  induction ps generalizing acc with
  | nil => exact .refl _
  | cons p ps ih => exact (Extends.pushSlice acc.1 data acc.2 p.literals).trans (ih _)

/-- One sequence leads from one piece to the next. -/
private theorem runSequences_piece {w : BitWriter} (hw : w.Valid) {base : Nat} {s : States}
    (hs : s.Hold (.ofPiece p)) (hc : (Codeword.ofPiece p).Names p)
    (hfits : p.Fits (scope level) data first stop pos) (hstop : stop ≤ data.size)
    (hblock : stop ≤ first + maxBlock)
    (h : BitWriter.Carried enc base (pushExtra w (.ofPiece p))) {lits full : ByteArray}
    (hfull : Extends (pushSlice lits data pos p.literals) full) (n : Nat)
    (recent : RecentOffsets) :
    runSequences enc standardCodes full 0 first maxBlock (n + 1) (s.behind base (pushExtra w
        (.ofPiece p))) recent lits.size (data.extract 0 pos) =
      runSequences enc standardCodes full 0 first maxBlock n (advance enc n s (.behind base w))
        (recent.push p.distance) (pushSlice lits data pos p.literals).size
        (data.extract 0 (pos + p.literals + p.length)) := by
  have hmargin : pos + p.literals + p.length ≤ stop := hfits.margin
  have hreach := hfits.repeats.reach
  have hfront : (data.extract 0 pos).size = pos := size_front (by omega)
  have hslice : (pushSlice lits data pos p.literals).size = lits.size + p.literals :=
    size_pushSlice lits (by omega)
  have hused := hfull.size_le
  rw [runSequences_sequence hw hc hs h (by omega) (by omega) hfits.repeats.positive (by omega),
    pushSlice_of_extends _ hfull (by omega), pushSlice_front,
    hfits.repeats.pushBack_front (by omega), hslice]

/-- The sequences of a block lead to its last literals. -/
theorem runSequences_pieces (hcover : Covers (scope level) data first stop (p :: ps) pos rest)
    (hpos : first ≤ pos) (hstop : stop ≤ data.size) (hblock : stop ≤ first + maxBlock) {base : Nat}
    (h : BitWriter.Carried enc base (writeSequences p ps).1) {lits full : ByteArray}
    (hfull : Extends (gatherPieces data (p :: ps) (lits, pos)).1 full) (recent : RecentOffsets) :
    ∃ recent', runSequences enc standardCodes full 0 first maxBlock (ps.length + 1)
        ((writeSequences p ps).2.behind base (writeSequences p ps).1) recent lits.size
        (data.extract 0 pos) =
      some (recent', (gatherPieces data (p :: ps) (lits, pos)).1.size, data.extract 0 rest) := by
  -- By pieces. The bits of the first piece were written last, and are read first.
  induction ps generalizing p pos lits recent with
  | nil =>
    -- The last sequence has nothing to link to.
    have hc := names_of_covers hcover hpos hblock p (List.mem_cons_self ..)
    cases hcover with
    | cons hfits hrest =>
      cases hrest
      rw [writeSequences] at h ⊢
      refine ⟨recent.push p.distance, ?_⟩
      rw [List.length_nil, runSequences_piece BitWriter.valid_empty (lastStates_hold hc) hc hfits
        hstop hblock h hfull, runSequences_end]
      rfl
  | cons p' ps ih =>
    have hnames := names_of_covers hcover hpos hblock
    have hc := hnames p (List.mem_cons_self ..)
    obtain ⟨hvalid, hhold⟩ := writeSequences_spec fun q hq => hnames q (List.mem_cons_of_mem _ hq)
    obtain ⟨ll, llRest, llBits, of_, ofRest, ofBits, ml, mlRest, mlBits, heq, hll, hof, hml⟩ :=
      pushSequence_spec (writeSequences p' ps).1 hc hhold
    have hlinks := grows_pushLinks hvalid hof.bits_le hml.bits_le hll.bits_le ofRest mlRest llRest
    have heq : writeSequences p (p' :: ps) = _ := heq
    rw [heq] at h ⊢
    have hcarried := (grows_pushExtra hlinks.valid hc).carried h
    -- First the sequence of the piece, then the links to the states of the next one.
    cases hcover with
    | cons hfits hcover =>
      rw [gatherPieces_cons] at hfull ⊢
      have hlits : Extends (pushSlice lits data pos p.literals) full :=
        (gatherPieces_extends data (p' :: ps) _).trans hfull
      have hs : States.Hold ⟨ll, of_, ml⟩ (.ofPiece p) := ⟨hll.holds, hof.holds, hml.holds⟩
      obtain ⟨recent', hrun⟩ := ih hcover (by omega) (hlinks.carried hcarried) hfull
        (recent.push p.distance)
      refine ⟨recent', ?_⟩
      rw [List.length_cons, runSequences_piece hlinks.valid hs hc hfits hstop hblock h hlits,
        advance_pushLinks hvalid (Nat.succ_ne_zero _) hll hof hml hcarried]
      exact hrun

end

end CacheLayer.Compression.Zstd
