import CacheLayer.Proofs.Compression.RoundTrip
import CacheLayer.Proofs.Json.Values
import CacheLayer.Remote.Transcoder
/-!
# Values through a transcoder

A value that is encoded is decoded to what it was, with or without compression. What stands in
between is its JSON text: with compression the text has to be small enough to be decompressed, and
the library of the format to decode what it has encoded.

## Key results

- `Transcoder.standard_preserves`: every value with a JSON form is encoded and decoded to what it
  was
-/

namespace CacheLayer.Remote.Transcoder

open Compression

variable {ν : Type}

/-- Whether a value is encoded, and decoded to what it was. -/
def Preserves (t : Transcoder ν) (v : ν) : Prop :=
  ∃ data, t.encode v = .ok data ∧ t.decode data = .ok v

variable [Json.JsonForm ν] {v : ν}

/-- A value that is read back from its text is preserved as JSON. -/
theorem json_preserves (h : Json.ReadsBack v) : (json ν).Preserves v := by
  refine ⟨Json.encode v, rfl, ?_⟩
  simp only [json, h.decode_encode]

variable {l : Library}

/-- Compression preserves a value if its text may be decompressed. -/
theorem compressed_preserves (hrestores : l.Restores) (hencodes : l.Encodes) (a : Algorithm)
    (h : Json.ReadsBack v) (hsize : (Json.encode v).size ≤ maxDecompressed) :
    ((json ν).compressed (l.codec a)).Preserves v := by
  obtain ⟨data, hdata⟩ := Codec.exists_compress hencodes (l.has_codec a) hsize
  have hback := Codec.decompress_compress hrestores (l.has_codec a) hdata
  rw [if_pos hsize] at hback
  refine ⟨data, hdata, ?_⟩
  simp only [compressed, hback, bind, Except.bind]
  simp only [json, h.decode_encode]

/-- Whether a text may be decompressed, if it is compressed at all. -/
def Admits (compression? : Option Algorithm) (text : ByteArray) : Prop :=
  compression? = none ∨ text.size ≤ maxDecompressed

/-- A value that is read back from its text is preserved. -/
theorem preserves_of_readsBack (hrestores : l.Restores) (hencodes : l.Encodes)
    {compression? : Option Algorithm} (h : Json.ReadsBack v)
    (hadmits : Admits compression? (Json.encode v)) :
    (standardWith l ν compression?).Preserves v := by
  cases compression? with
  | none => exact json_preserves h
  | some a =>
    exact compressed_preserves hrestores hencodes a h
      (hadmits.resolve_left (Option.some_ne_none a))

/-- Every value with a JSON form is encoded, and decoded to what it was: texts, integers of the full
range, truth values, lists of texts, optional integers and stamped texts. With compression this is
so over any libraries that encode what may be decompressed and decode what they have encoded. -/
theorem standard_preserves {l : Library} (hrestores : l.Restores) (hencodes : l.Encodes)
    (compression? : Option Algorithm) :
    (∀ v : String, Admits compression? (Json.encode v) →
      (standardWith l String compression?).Preserves v) ∧
    (∀ v : UInt64, Admits compression? (Json.encode v) →
      (standardWith l UInt64 compression?).Preserves v) ∧
    (∀ v : Int64, Admits compression? (Json.encode v) →
      (standardWith l Int64 compression?).Preserves v) ∧
    (∀ v : Bool, Admits compression? (Json.encode v) →
      (standardWith l Bool compression?).Preserves v) ∧
    (∀ v : List String, Admits compression? (Json.encode v) →
      (standardWith l (List String) compression?).Preserves v) ∧
    (∀ v : Option UInt64, Admits compression? (Json.encode v) →
      (standardWith l (Option UInt64) compression?).Preserves v) ∧
    (∀ v : Stamped String, v.writeTime < UInt64.size → Admits compression? (Json.encode v) →
      (standardWith l (Stamped String) compression?).Preserves v) :=
  ⟨fun v => preserves_of_readsBack hrestores hencodes (Json.readsBack_string v),
    fun v => preserves_of_readsBack hrestores hencodes (Json.readsBack_unsigned v),
    fun v => preserves_of_readsBack hrestores hencodes (Json.readsBack_signed v),
    fun v => preserves_of_readsBack hrestores hencodes (Json.readsBack_bool v),
    fun v => preserves_of_readsBack hrestores hencodes (Json.readsBack_stringList v),
    fun v => preserves_of_readsBack hrestores hencodes (Json.readsBack_option v),
    fun _ htime => preserves_of_readsBack hrestores hencodes (Json.readsBack_stamped htime)⟩

theorem standard_preserves_small :
    (Library.own.Restores ∧ Library.own.Encodes) ∧
      ((Json.encode (some (0 : UInt64))).size ≤ maxDecompressed ∧
        (standard (Option UInt64) (some (.deflate 12))).Preserves (some 0)) ∧
      (⟨"a", 7⟩ : Stamped String).writeTime < UInt64.size ∧
        (standard (Stamped String) none).Preserves ⟨"a", 7⟩ := by
  have hrestores := Library.own_restores
  have hencodes := Library.own_encodes
  have hsize : (Json.encode (some (0 : UInt64))).size ≤ maxDecompressed := by decide
  have htime : (⟨"a", 7⟩ : Stamped String).writeTime < UInt64.size := by decide
  obtain ⟨-, -, -, -, -, hoption, -⟩ := standard_preserves hrestores hencodes (some (.deflate 12))
  obtain ⟨-, -, -, -, -, -, hstamped⟩ := standard_preserves hrestores hencodes none
  exact ⟨⟨hrestores, hencodes⟩, ⟨hsize, hoption (some 0) (.inr hsize)⟩, htime,
    hstamped _ htime (.inl rfl)⟩

end CacheLayer.Remote.Transcoder
