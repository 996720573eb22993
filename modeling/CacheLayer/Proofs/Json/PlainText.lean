import CacheLayer.Json.Form
import Mathlib
/-!
# What JSON is made of

The bytes of a JSON text are characters in UTF-8, none of them a control below the space: the writer
escapes these, and what else it writes is ASCII or stands inside a string as it was. So the first
bytes of a text can be told from the numbers that other formats start with.

## Key results

- `Json.IsText`: whether bytes are characters without controls
- `Json.IsText.le`, `Json.IsText.lt_or_le`, `Json.IsText.of_cons`: what the bytes of a text are like
- `Json.Textual`: every value of a type is written as a text
-/

namespace CacheLayer.Json

/-- Whether no character is a control below the space. -/
def Plain (cs : List Char) : Prop := ∀ c ∈ cs, ' ' ≤ c

/-- Whether bytes are characters in UTF-8, none of them a control below the space. -/
def IsText (bytes : List UInt8) : Prop :=
  ∃ cs, Plain cs ∧ bytes = cs.flatMap String.utf8EncodeChar

namespace Plain

variable {cs cs' : List Char}

theorem of_all (h : cs.all (' ' ≤ ·)) : Plain cs := by simpa [Plain] using h

theorem append (h : Plain cs) (h' : Plain cs') : Plain (cs ++ cs') :=
  List.forall_mem_append.2 ⟨h, h'⟩

theorem cons {c : Char} (hc : ' ' ≤ c) (h : Plain cs) : Plain (c :: cs) :=
  List.forall_mem_cons.2 ⟨hc, h⟩

theorem take (h : Plain cs) (n : Nat) : Plain (cs.take n) :=
  fun c hc => h c (List.mem_of_mem_take hc)

theorem drop (h : Plain cs) (n : Nat) : Plain (cs.drop n) :=
  fun c hc => h c (List.mem_of_mem_drop hc)

theorem replicate {c : Char} (hc : ' ' ≤ c) (n : Nat) : Plain (List.replicate n c) :=
  fun _ h => (List.mem_replicate.1 h).2 ▸ hc

end Plain

/-! ## Characters in UTF-8 -/

/-- An ASCII character is one byte. -/
private theorem utf8EncodeChar_of_lt {c : Char} (h : c.toNat < 128) :
    String.utf8EncodeChar c = [UInt8.ofNat c.toNat] := by
  have hval : c.val.toNat ≤ 127 := Nat.le_of_lt_succ h
  simp only [String.utf8EncodeChar, if_pos hval]
  rfl

private theorem le_ofNat_add {n k : Nat} (h : n + k < 256) :
    UInt8.ofNat k ≤ UInt8.ofNat (n + k) := by
  have hle : k ≤ n + k := Nat.le_add_left k n
  rwa [UInt8.le_iff_toNat_le, UInt8.toNat_ofNat_of_lt' h,
    UInt8.toNat_ofNat_of_lt' (Nat.lt_of_le_of_lt hle h)]

/-- Any other character begins with a byte that tells how many follow, and none of these is ASCII
either. -/
private theorem utf8EncodeChar_of_le {c : Char} (h : 128 ≤ c.toNat) :
    ∃ b more, String.utf8EncodeChar c = b :: more ∧ 0xC0 ≤ b ∧ ∀ x ∈ more, 0x80 ≤ x := by
  have hval : ¬ c.val.toNat ≤ 127 := Nat.not_le.2 h
  -- The bytes that follow have six bits of the character each, below a mark.
  have hmore (ns : List Nat) : ∀ x ∈ ns.map fun n => UInt8.ofNat (n % 64 + 128), 0x80 ≤ x := by
    intro x hx
    obtain ⟨n, -, rfl⟩ := List.mem_map.1 hx
    exact le_ofNat_add (k := 128) (by omega)
  simp only [String.utf8EncodeChar, if_neg hval]
  split
  · have hfirst := le_ofNat_add (n := c.val.toNat / 64 % 32) (k := 192) (by omega)
    exact ⟨_, _, rfl, hfirst, hmore [c.val.toNat]⟩
  split
  · have hfirst := le_ofNat_add (n := c.val.toNat / 4096 % 16) (k := 224) (by omega)
    exact ⟨_, _, rfl, UInt8.le_trans (by decide) hfirst, hmore [c.val.toNat / 64, c.val.toNat]⟩
  · have hfirst := le_ofNat_add (n := c.val.toNat / 262144 % 8) (k := 240) (by omega)
    exact ⟨_, _, rfl, UInt8.le_trans (by decide) hfirst,
      hmore [c.val.toNat / 4096, c.val.toNat / 64, c.val.toNat]⟩

/-- The bytes of a string are those of its characters. -/
theorem utf8_eq_flatMap (s : String) : utf8 s = s.toList.flatMap String.utf8EncodeChar := by
  obtain ⟨cs, rfl⟩ : ∃ cs, s = String.ofList cs := ⟨s.toList, String.ofList_toList.symm⟩
  rw [utf8, String.toUTF8_eq_toByteArray, String.toByteArray_ofList, List.utf8Encode]
  simp

/-! ## Texts -/

namespace IsText

variable {b : UInt8} {l l' : List UInt8}

theorem nil : IsText [] := ⟨[], .of_all rfl, rfl⟩

theorem append (h : IsText l) (h' : IsText l') : IsText (l ++ l') := by
  obtain ⟨cs, hcs, rfl⟩ := h
  obtain ⟨cs', hcs', rfl⟩ := h'
  exact ⟨cs ++ cs', hcs.append hcs', List.flatMap_append.symm⟩

/-- A text goes on with any byte of ASCII that is no control. -/
theorem cons (hb : 0x20 ≤ b ∧ b < 0x80) (h : IsText l) : IsText (b :: l) := by
  obtain ⟨cs, hcs, rfl⟩ := h
  have hnat : (Char.ofUInt8 b).toNat = b.toNat := rfl
  have hbyte : String.utf8EncodeChar (Char.ofUInt8 b) = [b] := by
    rw [utf8EncodeChar_of_lt (hnat ▸ hb.2), hnat, UInt8.ofNat_toNat]
  refine ⟨Char.ofUInt8 b :: cs, hcs.cons hb.1, ?_⟩
  rw [List.flatMap_cons, hbyte, List.singleton_append]

/-- Bytes of ASCII are a text if none is a control. -/
theorem of_ascii (h : l.all fun b => 0x20 ≤ b && b < 0x80) : IsText l := by
  induction l with
  | nil => exact nil
  | cons b l ih =>
    simp only [List.all_cons, Bool.and_eq_true, decide_eq_true_eq] at h
    exact cons h.1 (ih h.2)

/-- In front of a text stands a character of ASCII, or a byte that tells how many follow. -/
private theorem cons_cases (h : IsText (b :: l)) : (b < 0x80 ∧ IsText l) ∨ 0xC0 ≤ b := by
  obtain ⟨cs, hcs, hl⟩ := h
  cases cs with
  | nil => cases hl
  | cons c cs =>
    obtain ⟨-, hcs⟩ := List.forall_mem_cons.1 hcs
    rw [List.flatMap_cons] at hl
    -- A character that is not ASCII begins with a byte that no other byte of it is like.
    by_cases hascii : c.toNat < 128
    · rw [utf8EncodeChar_of_lt hascii] at hl
      obtain ⟨rfl, rfl⟩ := List.cons.inj hl
      refine .inl ⟨?_, cs, hcs, rfl⟩
      rw [UInt8.lt_iff_toNat_lt, UInt8.toNat_ofNat_of_lt' (Nat.lt_trans hascii (by decide))]
      exact hascii
    · obtain ⟨b', more, hbytes, hb', -⟩ := utf8EncodeChar_of_le (Nat.not_lt.1 hascii)
      rw [hbytes] at hl
      exact .inr ((List.cons.inj hl).1 ▸ hb')

/-- No byte of a text is a control. -/
theorem le (h : IsText l) : ∀ b ∈ l, 0x20 ≤ b := by
  obtain ⟨cs, hcs, rfl⟩ := h
  intro b hb
  obtain ⟨c, hc, hb⟩ := List.mem_flatMap.1 hb
  by_cases hascii : c.toNat < 128
  · rw [utf8EncodeChar_of_lt hascii, List.mem_singleton] at hb
    rw [hb, UInt8.le_iff_toNat_le, UInt8.toNat_ofNat_of_lt' (Nat.lt_trans hascii (by decide))]
    exact hcs c hc
  · obtain ⟨b', more, hbytes, hb', hmore⟩ := utf8EncodeChar_of_le (Nat.not_lt.1 hascii)
    rw [hbytes, List.mem_cons] at hb
    obtain rfl | hb := hb
    · exact UInt8.le_trans (by decide) hb'
    · exact UInt8.le_trans (by decide) (hmore b hb)

/-- No byte from the middle of a character stands in front. -/
theorem lt_or_le (h : IsText (b :: l)) : b < 0x80 ∨ 0xC0 ≤ b := h.cons_cases.imp_left And.left

/-- What follows a byte of ASCII is a text. -/
theorem of_cons (h : IsText (b :: l)) (hb : b < 0x80) : IsText l := by
  obtain ⟨-, hl⟩ | hle := h.cons_cases
  · exact hl
  · exact absurd (UInt8.lt_of_le_of_lt hle hb) (by decide)

end IsText

/-- The bytes of a character that is no control are a text. -/
private theorem isText_utf8EncodeChar {c : Char} (h : ' ' ≤ c) : IsText (String.utf8EncodeChar c) :=
  ⟨[c], List.forall_mem_singleton.2 h, (List.flatMap_singleton ..).symm⟩

/-! ## Strings -/

private theorem isText_escapeByte {b : UInt8} (hb : b < 0x80) : IsText (escapeByte b) := by
  -- There are few enough of them to look at each.
  have hall : ∀ n < 128, (escapeByte (UInt8.ofNat n)).all fun b => 0x20 ≤ b && b < 0x80 := by
    decide
  have h := hall b.toNat hb
  rw [UInt8.ofNat_toNat] at h
  exact .of_ascii h

/-- A byte that is not ASCII is not escaped. -/
private theorem escapeByte_of_le {b : UInt8} (h : 0x80 ≤ b) : escapeByte b = [b] := by
  have hlt {x : UInt8} (hx : x < 0x80) : x < b := UInt8.lt_of_lt_of_le hx h
  have hne {x : UInt8} (hx : x < 0x80) : b ≠ x := (UInt8.ne_of_lt (hlt hx)).symm
  have hcontrol : ¬ b < 0x20 := UInt8.lt_asymm (hlt (by decide))
  rw [escapeByte, if_neg (hne (by decide)), if_neg (hne (by decide)), if_neg hcontrol]

/-- The escapes of a string are a text, whatever its characters are. -/
theorem isText_escapes (s : String) : IsText ((utf8 s).flatMap escapeByte) := by
  rw [utf8_eq_flatMap]
  induction s.toList with
  | nil => exact .nil
  | cons c cs ih =>
    rw [List.flatMap_cons, List.flatMap_append]
    refine .append ?_ ih
    by_cases hascii : c.toNat < 128
    · rw [utf8EncodeChar_of_lt hascii, List.flatMap_singleton]
      refine isText_escapeByte ?_
      rwa [UInt8.lt_iff_toNat_lt, UInt8.toNat_ofNat_of_lt' (Nat.lt_trans hascii (by decide))]
    · -- Such a character stands in the text as it is.
      have hbytes : ∀ b ∈ String.utf8EncodeChar c, escapeByte b = [b] := by
        obtain ⟨b, more, hbytes, hb, hmore⟩ := utf8EncodeChar_of_le (Nat.not_lt.1 hascii)
        rw [hbytes]
        exact List.forall_mem_cons.2 ⟨escapeByte_of_le (UInt8.le_trans (by decide) hb),
          fun x hx => escapeByte_of_le (hmore x hx)⟩
      have hchar : ' ' ≤ c :=
        UInt32.le_iff_toNat_le.2 (Nat.le_trans (by decide) (Nat.not_lt.1 hascii))
      rw [List.flatMap_congr hbytes, List.flatMap_singleton']
      exact isText_utf8EncodeChar hchar

theorem isText_writeString (s : String) : IsText (writeString s) :=
  .cons (by decide) ((isText_escapes s).append (.of_ascii (by decide)))

/-! ## Numbers -/

/-- The characters of a number are digits. -/
private theorem mem_toDigits {n : Nat} {c : Char} (h : c ∈ Nat.toDigits 10 n) :
    '0' ≤ c ∧ c ≤ '9' := by
  have hdigit := Nat.isDigit_of_mem_toDigits (by decide) (by decide) h
  simpa [Char.isDigit, Char.le_def] using hdigit

private theorem plain_toDigits (n : Nat) : Plain (Nat.toDigits 10 n) :=
  fun _ hc => Char.le_trans (by decide) (mem_toDigits hc).1

private theorem plain_layout {digits : List Char} (h : Plain digits) (point : Int) :
    Plain (layout digits point) := by
  simp only [layout]
  split
  · exact (h.append (.replicate (by decide) _)).append (.of_all (by decide))
  split
  · exact (h.take _).append ((h.drop _).cons (by decide))
  split
  · exact .cons (by decide) (.cons (by decide) (.append (.replicate (by decide) _) h))
  · refine .append (.append (.append (h.take 1) ?_) ?_) (plain_toDigits _)
    · split
      · exact .of_all (by decide)
      · exact (h.drop 1).cons (by decide)
    · split <;> exact .of_all (by decide)

private theorem plain_floatText (x : Float) : Plain (floatText x).toList := by
  have hsign (b : Prop) [Decidable b] : Plain (if b then ['-'] else []) := by
    split
    · exact .of_all (by decide)
    · exact .of_all (by decide)
  simp only [floatText]
  split
  · have hnull : "null".toList = ['n', 'u', 'l', 'l'] := by decide
    rw [hnull]
    exact .of_all (by decide)
  split
  · rw [String.toList_ofList]
    exact (hsign _).append (.of_all (by decide))
  · rw [String.toList_ofList]
    exact (hsign _).append (plain_layout (plain_toDigits _) _)

theorem isText_writeNat (n : Nat) : IsText (writeNat n) := by
  refine .of_ascii ?_
  -- Digits are characters of ASCII above the controls.
  have hall : ∀ k < 58, 48 ≤ k → (0x20 ≤ k.toUInt8 && k.toUInt8 < 0x80) = true := by decide
  rw [writeNat, List.all_map, List.all_eq_true]
  intro c hc
  obtain ⟨hle, hge⟩ := mem_toDigits hc
  exact hall c.toNat (Nat.lt_succ_of_le hge) hle

theorem isText_writeNumber (n : Number) : IsText (writeNumber n) := by
  cases n with
  | nat n => exact isText_writeNat n
  | negative n => exact .cons (by decide) (isText_writeNat n)
  | float x => exact ⟨_, plain_floatText x, utf8_eq_flatMap _⟩

theorem isText_writeSigned (n : Int64) : IsText (writeSigned n) := by
  rw [writeSigned]
  split
  · exact .cons (by decide) (isText_writeNat _)
  · exact isText_writeNat _

/-! ## Values -/

theorem isText_writeBool (b : Bool) : IsText (writeBool b) := by
  cases b <;> exact .of_ascii (by decide)

theorem isText_writeMoreStrings (ss : List String) : IsText (writeMoreStrings ss) := by
  induction ss with
  | nil => exact .of_ascii (by decide)
  | cons s ss ih => exact .cons (by decide) ((isText_writeString s).append ih)

theorem isText_writeStringList (ss : List String) : IsText (writeStringList ss) := by
  cases ss with
  | nil => exact .of_ascii (by decide)
  | cons s ss =>
    exact .cons (by decide) ((isText_writeString s).append (isText_writeMoreStrings ss))

theorem isText_writeStamped (s : Stamped String) : IsText (writeStamped s) := by
  rw [writeStamped]
  exact .cons (by decide) ((isText_writeString _).append
    (.cons (by decide) ((isText_writeString _).append
      (.cons (by decide) ((isText_writeString _).append
        (.cons (by decide) ((isText_writeNat _).append (.of_ascii (by decide)))))))))

mutual

/-- A value is written as a text. -/
theorem isText_write : ∀ v : Json, IsText (write v)
  | .null => by rw [write]; exact .of_ascii (by decide)
  | .bool b => by rw [write]; exact isText_writeBool b
  | .number n => by rw [write]; exact isText_writeNumber n
  | .string s => by rw [write]; exact isText_writeString s
  | .array [] => by rw [write]; exact .of_ascii (by decide)
  | .array (v :: vs) => by
    rw [write]
    exact .cons (by decide) ((isText_write v).append (isText_writeElements vs))
  | .object [] => by rw [write]; exact .of_ascii (by decide)
  | .object (f :: fs) => by
    rw [write]
    exact .cons (by decide) ((isText_writeString f.1).append
      (.cons (by decide) ((isText_write f.2).append (isText_writeFields fs))))

theorem isText_writeElements : ∀ vs : List Json, IsText (writeElements vs)
  | [] => by rw [writeElements]; exact .of_ascii (by decide)
  | v :: vs => by
    rw [writeElements]
    exact .cons (by decide) ((isText_write v).append (isText_writeElements vs))

theorem isText_writeFields : ∀ fs : List (String × Json), IsText (writeFields fs)
  | [] => by rw [writeFields]; exact .of_ascii (by decide)
  | f :: fs => by
    rw [writeFields]
    exact .cons (by decide) ((isText_writeString f.1).append
      (.cons (by decide) ((isText_write f.2).append (isText_writeFields fs))))

end

/-- Types whose values are all written as texts. -/
class Textual (α : Type) [JsonForm α] : Prop where
  isText_write : ∀ v : α, IsText (JsonForm.write v)

instance : Textual String := ⟨isText_writeString⟩
instance : Textual Bool := ⟨isText_writeBool⟩
instance : Textual UInt64 := ⟨fun n => isText_writeNat n.toNat⟩
instance : Textual Int64 := ⟨isText_writeSigned⟩
instance : Textual (List String) := ⟨isText_writeStringList⟩
instance : Textual (Option UInt64) where
  isText_write
    | none => .of_ascii (by decide)
    | some n => isText_writeNat n.toNat
instance : Textual (Stamped String) := ⟨isText_writeStamped⟩
instance : Textual Json := ⟨isText_write⟩

end CacheLayer.Json
