import CacheLayer.Proofs.Compression.QuotedRun
import CacheLayer.Proofs.Compression.RoundTrip
import CacheLayer.Proofs.Json.Strings
import CacheLayer.Proofs.Remote.BulkRead
import CacheLayer.Proofs.Remote.Tokens
import CacheLayer.Remote.Cache
/-!
# Values that are read back

A value that a remote cache has accepted is read back, by itself and among others. The exception is
a large value that is stored compressed. What counts when it is written is the size of its
compressed bytes; when it is read, it is refused if it is larger than decompression may get. Some
values shrink so much that they are accepted and never read again.

## Key results

- `RemoteCache.exists_set_iff`: which values are accepted
- `RemoteCache.read_back`: which strings are accepted, and what becomes of one that was
- `RemoteCache.accepted_but_lost`: a long string is accepted and not read back
-/

namespace CacheLayer

namespace Remote

open Compression

/-! ## Transcoders -/

/-- A string without compression is decoded as it was encoded. -/
private theorem decode_encode_plain {v : String} {data : ByteArray}
    (h : (Transcoder.json String).encode v = .ok data) :
    (Transcoder.json String).decode data = .ok v := by
  obtain rfl := Except.ok.inj h
  simp only [Transcoder.json, Json.decode_encode_string]

/-- A string that was compressed is decoded, unless its text is too large. -/
private theorem decode_encode_compressed {l : Library} (hl : l.Restores) {a : Algorithm}
    {v : String} {data : ByteArray}
    (h : (Transcoder.standardWith l String (some a)).encode v = .ok data) :
    (Transcoder.standardWith l String (some a)).decode data =
      if (Json.encode v).size ≤ maxDecompressed then .ok v
      else .error ((l.codec a).failure "decompressing" (.tooLarge maxDecompressed)) := by
  have hcompress : (l.codec a).compress (Json.encode v) = .ok data := h
  have hdecode : (Transcoder.standardWith l String (some a)).decode data =
      ((l.codec a).decompress data).bind (Transcoder.json String).decode := rfl
  rw [hdecode, Codec.decompress_compress hl (l.has_codec a) hcompress]
  split
  · exact decode_encode_plain rfl
  · rfl

namespace RemoteCache

variable {κ ν : Type} {c : RemoteCache κ ν} {s s' : Server} {now : Nat} {k : κ} {v : ν}

/-! ## Reading after writing -/

/-- An item that is stored is there at that instant. -/
private theorem item?_put (s : Server) (now : Nat) (key : String) (expiration : Nat)
    (data : ByteArray) :
    (s.put now key expiration data).item? now key = some (s.make now expiration data).1 := by
  have hlive : (s.make now expiration data).1.Live now := by
    intro d hd
    simp only [Server.make] at hd
    split at hd
    · exact nomatch hd
    · next hne =>
      obtain rfl := Option.some.inj hd
      simp only [Span.ofMillis, Span.millisecond]
      omega
  rw [Server.put_eq, Server.item?, Server.store]
  simp [hlive]

/-- The bytes of a value are used if they are few enough. -/
theorem encode_eq {data : ByteArray} (h : c.transcoder.encode v = .ok data) :
    c.encode v =
      if maxValueSize < data.size then .error (.valueTooLarge data.size maxValueSize)
      else .ok data := by
  simp only [encode, h, bind, Except.bind]
  split <;> rfl

/-- A write whose key and value can be used is a request to the server. -/
theorem set_eq {data : ByteArray} (s : Server) (now : Nat)
    (hkey : c.wireKey k = .ok (c.translate k)) (h : c.encode v = .ok data) :
    c.set s now k v = s.set now (c.translate k) c.expirationMillis data := by
  rw [set, hkey, h]
  rfl

/-- What an accepted write has stored: the bytes of the value, at the wire key. -/
private theorem set_ok_true (h : c.set s now k v = (.ok true, s')) :
    ∃ data, c.wireKey k = .ok (c.translate k) ∧ c.transcoder.encode v = .ok data ∧
      data.size ≤ maxValueSize ∧ s.unavailable = false ∧
      s' = s.put now (c.translate k) c.expirationMillis data := by
  cases hkey : c.wireKey k with
  | error e => rw [set, hkey] at h; cases h
  | ok wire =>
    obtain rfl := wireKey_eq hkey
    cases henc : c.encode v with
    | error e => rw [set, hkey, henc] at h; cases h
    | ok data =>
      -- The key and the value are in order, so that the server has been asked.
      rw [set_eq s now hkey henc, Server.set, Server.writing] at h
      split at h
      · cases h
      · next hup =>
        obtain ⟨-, rfl⟩ := Prod.mk.inj h
        cases htr : c.transcoder.encode v with
        | error e => rw [encode, htr] at henc; cases henc
        | ok data' =>
          rw [encode_eq htr] at henc
          split at henc
          · cases henc
          · next hsize =>
            obtain rfl := Except.ok.inj henc
            exact ⟨data', rfl, rfl, Nat.not_lt.1 hsize, Bool.eq_false_iff.2 hup, rfl⟩

/-- A read after an accepted write decodes what the write has encoded. -/
private theorem get_of_set (h : c.set s now k v = (.ok true, s')) :
    ∃ data, c.transcoder.encode v = .ok data ∧
      c.get s' now k = (c.transcoder.decode data).map some := by
  obtain ⟨data, hkey, henc, -, hup, rfl⟩ := set_ok_true h
  refine ⟨data, henc, ?_⟩
  have hget : (s.put now (c.translate k) c.expirationMillis data).get now (c.translate k) =
      .ok (some data) := by
    have hup' : (s.put now (c.translate k) c.expirationMillis data).unavailable = false := hup
    rw [Server.get, Server.reading, hup', item?_put]
    rfl
  rw [get, hkey]
  simp only [bind, Except.bind, hget]
  rfl

/-- A value is accepted if its key can be used, the server is there, and its bytes are few
enough. -/
theorem exists_set_iff : (∃ s', c.set s now k v = (.ok true, s')) ↔
    c.wireKey k = .ok (c.translate k) ∧ s.unavailable = false ∧
      ∃ data, c.transcoder.encode v = .ok data ∧ data.size ≤ maxValueSize := by
  constructor
  · rintro ⟨s', h⟩
    obtain ⟨data, hkey, henc, hsize, hup, -⟩ := set_ok_true h
    exact ⟨hkey, hup, data, henc, hsize⟩
  · rintro ⟨hkey, hup, data, henc, hsize⟩
    -- With bytes that are few enough nothing is left that could refuse the value.
    have hbytes : c.encode v = .ok data := by rw [encode_eq henc, if_neg (Nat.not_lt.2 hsize)]
    refine ⟨s.put now (c.translate k) c.expirationMillis data, ?_⟩
    rw [set_eq s now hkey hbytes, Server.set, Server.writing, hup]
    rfl

section

variable {l : Library} {translate : κ → String} {config : Config} {v : String}

/-- A string that was accepted without compression is read back. -/
private theorem get_plain
    (hset : (ofConfigWith l translate config : RemoteCache κ String).set s now k v = (.ok true, s'))
    (hc : config.compression = none) :
    (ofConfigWith l translate config).get s' now k = .ok (some v) := by
  obtain ⟨data, henc, hget⟩ := get_of_set hset
  simp only [ofConfigWith, Transcoder.standardWith, hc] at henc hget
  rw [decode_encode_plain henc] at hget
  simp only [ofConfigWith, Transcoder.standardWith, hc]
  exact hget

/-- A string that was accepted with compression is read back, unless its text is too large. -/
private theorem get_compressed (hl : l.Restores) {a : Algorithm}
    (hset : (ofConfigWith l translate config : RemoteCache κ String).set s now k v = (.ok true, s'))
    (hc : config.compression = some a) :
    (ofConfigWith l translate config).get s' now k =
      if (Json.encode v).size ≤ maxDecompressed then .ok (some v)
      else .error ((l.codec a).failure "decompressing" (.tooLarge maxDecompressed)) := by
  obtain ⟨data, henc, hget⟩ := get_of_set hset
  simp only [ofConfigWith, hc] at henc hget
  rw [decode_encode_compressed hl henc] at hget
  simp only [ofConfigWith, hc]
  rw [hget]
  split <;> rfl

end

variable [BEq κ] [Hashable κ] [LawfulBEq κ]

/-! ## Strings that are read back -/

/-- A key that is read by itself is read among others, if all of them can be read by themselves. -/
private theorem getBulk_of_get_eq {c : RemoteCache κ ν} {r : Option ν}
    (h : c.get s now k = .ok r) {keys : List κ} (hk : k ∈ keys) :
    ((∃ m, c.getBulk s now keys = .ok m) ↔ ∀ k' ∈ keys, ∃ r, c.get s now k' = .ok r) ∧
      ∀ m, c.getBulk s now keys = .ok m → m[k]? = r := by
  refine ⟨⟨fun ⟨m, hm⟩ => get_of_getBulk hm, fun hread => ?_⟩, fun m hm => ?_⟩
  · obtain ⟨m, hm, -⟩ := getBulk_of_get hread
    exact ⟨m, hm⟩
  · -- The map that is read is the one whose values are those of the single reads.
    obtain ⟨m', hm', hall, -⟩ := getBulk_of_get (get_of_getBulk hm)
    obtain rfl := Except.ok.inj (hm.symm.trans hm')
    exact Except.ok.inj ((hall k hk).symm.trans h)

/-- Which strings are accepted, and what becomes of one that was. It is accepted if its key can be
used, the server is there, and its bytes are few enough, compressed if that is asked for. Without
compression, or if its text is not larger than decompression may get, it is then read back, by
itself and by every bulk read that its key is part of; such a read fails only for a key that cannot
be read by itself. If its text is larger, it is refused when it is read. -/
theorem read_back {l : Library} (hl : l.Restores) (translate : κ → String) (config : Config)
    (s : Server) (now : Nat) (k : κ) (v : String) :
    ((∃ s', (ofConfigWith l translate config : RemoteCache κ String).set s now k v =
        (.ok true, s')) ↔
      (ofConfigWith l translate config : RemoteCache κ String).wireKey k = .ok (translate k) ∧
        s.unavailable = false ∧
        ∃ data, (Transcoder.standardWith l String config.compression).encode v = .ok data ∧
          data.size ≤ maxValueSize) ∧
    ∀ s', (ofConfigWith l translate config : RemoteCache κ String).set s now k v = (.ok true, s') →
      (config.compression = none ∨ (Json.encode v).size ≤ maxDecompressed →
        (ofConfigWith l translate config).get s' now k = .ok (some v) ∧
        ∀ keys, k ∈ keys →
          ((∃ m, (ofConfigWith l translate config : RemoteCache κ String).getBulk s' now keys =
              .ok m) ↔
            ∀ k' ∈ keys, ∃ r : Option String,
              (ofConfigWith l translate config).get s' now k' = .ok r) ∧
          ∀ m, (ofConfigWith l translate config).getBulk s' now keys = .ok m → m[k]? = some v) ∧
      ∀ a, config.compression = some a → maxDecompressed < (Json.encode v).size →
        (ofConfigWith l translate config : RemoteCache κ String).get s' now k =
          .error (.compression ("failed decompressing using " ++ (l.codec a).name ++
            ": output exceeds 67108864 bytes")) := by
  refine ⟨exists_set_iff, fun s' hset => ⟨fun hsmall => ?_, fun a hc hlarge => ?_⟩⟩
  · have hread : (ofConfigWith l translate config).get s' now k = .ok (some v) := by
      -- Whether the text is too large matters only if it has to be decompressed.
      cases hc : config.compression with
      | none => exact get_plain hset hc
      | some a =>
        rw [hc] at hsmall
        rw [get_compressed hl hset hc, if_pos (hsmall.resolve_left nofun)]
    exact ⟨hread, fun keys hk => getBulk_of_get_eq hread hk⟩
  · rw [get_compressed hl hset hc, if_neg (Nat.not_le.2 hlarge), Codec.failure_tooLarge]

/-! ## Long runs -/

/-- `n` letters. -/
def letters (n : Nat) : String := String.ofList (List.replicate n 'a')

/-- A configuration that asks for LZ4. -/
def withLz4 : Config := { compression := some .lz4 }

private theorem utf8_letters (n : Nat) : Json.utf8 (letters n) = List.replicate n 0x61 := by
  induction n with
  | zero => rfl
  | succ n ih =>
    simp only [Json.utf8, letters, String.toUTF8_eq_toByteArray, String.toByteArray_ofList] at ih ⊢
    rw [List.replicate_succ, List.utf8Encode_cons, ByteArray.data_append, Array.toList_append, ih]
    rfl

/-- The text of a run of letters. -/
theorem encode_letters (n : Nat) : Json.encode (letters n) = Lz4.quotedRun n := by
  have hescape : (List.replicate n (0x61 : UInt8)).flatMap Json.escapeByte =
      List.replicate n 0x61 := by
    induction n with
    | zero => rfl
    | succ n ih => rw [List.replicate_succ, List.flatMap_cons, ih]; rfl
  have htext : (Json.JsonForm.write (letters n) : List UInt8) =
      0x22 :: (List.replicate n 0x61 ++ [0x22]) := by
    rw [← hescape, ← utf8_letters]
    rfl
  rw [Json.encode, htext]
  rfl

/-- A run of letters is accepted even if it is long. -/
private theorem accepts_letters {n : Nat} (hn : 24 ≤ n) (hmax : n ≤ 100 * maxValueSize) :
    ∃ data, (Transcoder.standardWith .own String withLz4.compression).encode (letters n) =
      .ok data ∧ data.size ≤ maxValueSize := by
  simp only [maxValueSize] at hmax
  refine ⟨Lz4.runBlock n, ?_, ?_⟩
  · have hencode : (Transcoder.standardWith .own String withLz4.compression).encode (letters n) =
        (Lz4.encode (Json.encode (letters n))).mapError
          (Algorithm.lz4.codec.failure "compressing") := rfl
    rw [hencode, encode_letters, Lz4.encode_quotedRun hn (by rw [Lz4.maxInput]; omega)]
    rfl
  · rw [Lz4.size_runBlock]
    simp only [maxValueSize]
    omega

private theorem wireKey_k :
    (ofConfigWith .own id withLz4 : RemoteCache String String).wireKey "k" = .ok "k" := rfl

/-- The text of a run of letters has two bytes more, its quotes. -/
private theorem size_letters (n : Nat) : (Json.encode (letters n)).size = n + 2 := by
  rw [encode_letters, Lz4.size_quotedRun]

/-- Of two runs of letters that are accepted, the short one is read back, and the long one is
not. -/
theorem read_back_shortAndLong :
    Library.own.Restores ∧
    (∃ s', (ofConfig id withLz4 : RemoteCache String String).set {} 0 "k" (letters 3000) =
        (.ok true, s') ∧
      (ofConfig id withLz4).get s' 0 "k" = .ok (some (letters 3000)) ∧
      ∃ m, (ofConfig id withLz4).getBulk s' 0 ["k"] = .ok m ∧ m["k"]? = some (letters 3000)) ∧
    ∃ s', (ofConfig id withLz4 : RemoteCache String String).set {} 0 "k" (letters 67108865) =
        (.ok true, s') ∧
      (ofConfig id withLz4 : RemoteCache String String).get s' 0 "k" = .error (.compression
        "failed decompressing using lz4: output exceeds 67108864 bytes") := by
  refine ⟨Library.own_restores, ?_, ?_⟩
  · obtain ⟨haccepted, hback⟩ :=
      read_back Library.own_restores id withLz4 {} 0 "k" (letters 3000)
    obtain ⟨s', hset⟩ := haccepted.2 ⟨wireKey_k, rfl, accepts_letters (by decide) (by decide)⟩
    have hsmall : (Json.encode (letters 3000)).size ≤ maxDecompressed := by
      rw [size_letters]
      decide
    obtain ⟨hget, hbulk⟩ := (hback s' hset).1 (.inr hsmall)
    obtain ⟨hsome, hvalue⟩ := hbulk ["k"] (List.mem_singleton_self _)
    obtain ⟨m, hm⟩ := hsome.2 fun k' hk' => ⟨_, List.mem_singleton.1 hk' ▸ hget⟩
    exact ⟨s', hset, hget, m, hm, hvalue m hm⟩
  · obtain ⟨haccepted, hback⟩ :=
      read_back Library.own_restores id withLz4 {} 0 "k" (letters 67108865)
    obtain ⟨s', hset⟩ := haccepted.2 ⟨wireKey_k, rfl, accepts_letters (by decide) (by decide)⟩
    refine ⟨s', hset, (hback s' hset).2 .lz4 rfl ?_⟩
    rw [size_letters]
    decide

/-- It is not true that every string that was accepted is read back: a long run of letters is
refused as too large. Nor is one that is read back by itself part of every bulk read: the key of
another entry may not be usable. -/
theorem accepted_but_lost :
    (¬ ∀ {l : Library}, l.Restores → ∀ (config : Config) (s s' : Server) (now : Nat)
        (k v : String),
      (ofConfigWith l id config : RemoteCache String String).set s now k v = (.ok true, s') →
      (ofConfigWith l id config).get s' now k = .ok (some v)) ∧
    ¬ ∀ {l : Library}, l.Restores → ∀ (config : Config) (s s' : Server) (now : Nat)
        (k v : String),
      (ofConfigWith l id config : RemoteCache String String).set s now k v = (.ok true, s') →
      (ofConfigWith l id config).get s' now k = .ok (some v) →
      ∀ keys, k ∈ keys → ∃ m, (ofConfigWith l id config).getBulk s' now keys = .ok m ∧
        m[k]? = some v := by
  constructor
  · intro hreads
    obtain ⟨s', hset⟩ := exists_set_iff.2 ⟨wireKey_k, (rfl : ({} : Server).unavailable = false),
      accepts_letters (n := 67108865) (by decide) (by decide)⟩
    have hget := hreads Library.own_restores withLz4 {} s' 0 "k" (letters 67108865) hset
    -- The text has more bytes than decompression may give, though it was compressed to few.
    have hlarge : ¬ (Json.encode (letters 67108865)).size ≤ maxDecompressed := by
      rw [size_letters]
      decide
    rw [get_compressed Library.own_restores hset rfl, if_neg hlarge] at hget
    exact nomatch hget
  · intro hreads
    obtain ⟨s', hset⟩ := exists_set_iff.2 ⟨wireKey_k, (rfl : ({} : Server).unavailable = false),
      accepts_letters (n := 24) (by decide) (by decide)⟩
    have hsmall : (Json.encode (letters 24)).size ≤ maxDecompressed := by
      rw [size_letters]
      decide
    have hget := get_compressed Library.own_restores hset rfl
    rw [if_pos hsmall] at hget
    obtain ⟨m, hm, -⟩ := hreads Library.own_restores withLz4 {} s' 0 "k" (letters 24) hset hget
      ["k", "b b"] (.head _)
    -- The second key has a blank in it.
    exact nomatch hm

end RemoteCache

end Remote

end CacheLayer
