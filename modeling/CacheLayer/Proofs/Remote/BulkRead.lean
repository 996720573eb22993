import CacheLayer.Proofs.Gathering
import CacheLayer.Remote.Cache
/-!
# Bulk reads of a server

A bulk read asks for each wire key once, and decodes what it is given for each of the keys that have
it. It comes to what single reads at the same instant come to: it succeeds if all of them do, and
then has the values that they find.

## Key results

- `RemoteCache.get_eq_ok`: when a single read succeeds
- `RemoteCache.getBulk_eq_ok`: when a bulk read succeeds
- `RemoteCache.getBulk_of_get`: a bulk read of keys that can be read one by one agrees with that
- `RemoteCache.getBulk_agrees`: a bulk read is single reads
-/

namespace CacheLayer.Remote.RemoteCache

variable {κ ν : Type} {c : RemoteCache κ ν} {s : Server} {now : Nat} {k : κ} {keys : List κ}

/-! ## Keys -/

/-- A key whose wire key is acceptable can be used. -/
theorem wireKey_of_check (h : Key.check (c.translate k) = .ok ()) :
    c.wireKey k = .ok (c.translate k) := by
  rw [wireKey, h]
  rfl

/-- A wire key that can be used is the translation of its key. -/
theorem wireKey_eq {wire : String} (h : c.wireKey k = .ok wire) : wire = c.translate k := by
  rw [wireKey] at h
  cases hcheck : Key.check (c.translate k) with
  | error e => rw [hcheck] at h; exact nomatch h
  | ok u => rw [hcheck] at h; exact (Except.ok.inj h).symm

/-- Keys that can be used have their translations as wire keys. -/
private theorem wireKeys_eq (h : ∀ k ∈ keys, c.wireKey k = .ok (c.translate k)) :
    c.wireKeys keys = .ok (keys.map fun k => (k, c.translate k)) := by
  induction keys with
  | nil => rfl
  | cons k keys ih =>
    obtain ⟨hk, hkeys⟩ := List.forall_mem_cons.1 h
    simp only [wireKeys, hk, ih hkeys, bind, Except.bind]
    rfl

/-- Keys of which one cannot be used have no wire keys at all. -/
private theorem wireKeys_ok {wired : List (κ × String)} (h : c.wireKeys keys = .ok wired) :
    ∀ k ∈ keys, c.wireKey k = .ok (c.translate k) := by
  induction keys generalizing wired with
  | nil => exact fun _ hk => absurd hk List.not_mem_nil
  | cons k keys ih =>
    rw [wireKeys] at h
    cases hk : c.wireKey k with
    | error e => rw [hk] at h; cases h
    | ok wire =>
      obtain rfl := wireKey_eq hk
      cases hkeys : c.wireKeys keys with
      | error e => rw [hk, hkeys] at h; cases h
      | ok rest => exact List.forall_mem_cons.2 ⟨hk, ih hkeys⟩

/-! ## Single reads -/

/-- A read succeeds if its key can be used, the server answers, and what is there can be decoded. -/
theorem get_eq_ok {r : Option ν} :
    c.get s now k = .ok r ↔ c.wireKey k = .ok (c.translate k) ∧ s.unavailable = false ∧
      c.decode? ((s.item? now (c.translate k)).map Item.data) = .ok r := by
  constructor
  · intro h
    cases hkey : c.wireKey k with
    | error e => rw [get, hkey] at h; cases h
    | ok wire =>
      obtain rfl := wireKey_eq hkey
      rw [get, hkey] at h
      simp only [bind, Except.bind, Server.get, Server.reading] at h
      cases hup : s.unavailable with
      | true => rw [hup] at h; cases h
      | false => rw [hup] at h; exact ⟨rfl, rfl, h⟩
  · rintro ⟨hkey, hup, hdecode⟩
    rw [get, hkey]
    simp only [bind, Except.bind, Server.get, Server.reading, hup]
    exact hdecode

/-! ## What is found -/

/-- What a bulk request finds for the wire keys of some keys. -/
def foundFor (c : RemoteCache κ ν) (s : Server) (now : Nat) (keys : List κ) :
    Std.HashMap String ByteArray :=
  Std.HashMap.ofList <| (keys.map c.translate).eraseDups.filterMap fun w =>
    (s.item? now w).map fun i => (w, i.data)

/-- For the wire key of each of the keys that is what is there. -/
theorem getElem?_foundFor (hk : k ∈ keys) :
    (c.foundFor s now keys)[c.translate k]? = (s.item? now (c.translate k)).map Item.data := by
  have hfound := getElem?_ofList_filterMap (fun w => (s.item? now w).map Item.data)
    (keys.map c.translate).eraseDups (c.translate k)
  simp only [Option.map_map] at hfound
  have hwire := List.mem_eraseDups.2 (List.mem_map_of_mem (f := c.translate) hk)
  exact hfound.trans (if_pos (List.contains_iff_mem.2 hwire))

variable [BEq κ] [Hashable κ]

/-- What was found has been decoded only if there is nothing in it that cannot be decoded. -/
private theorem decodeFound_ok {found : Std.HashMap String ByteArray} {wired : List (κ × String)}
    {values m : Std.HashMap κ ν} (h : c.decodeFound found wired values = .ok m) :
    ∀ p ∈ wired, ∃ r, c.decode? found[p.2]? = .ok r := by
  induction wired generalizing values with
  | nil => exact fun p hp => absurd hp List.not_mem_nil
  | cons p wired ih =>
    obtain ⟨k, wire⟩ := p
    rw [decodeFound] at h
    refine List.forall_mem_cons.2 ?_
    cases hdata : found[wire]? with
    | none =>
      rw [hdata] at h
      exact ⟨⟨none, rfl⟩, ih h⟩
    | some data =>
      rw [hdata] at h
      cases hdecode : c.transcoder.decode data with
      | error e => simp only [hdecode, bind, Except.bind] at h; cases h
      | ok v =>
        simp only [hdecode, bind, Except.bind] at h
        exact ⟨⟨some v, by rw [decode?, hdecode]; rfl⟩, ih h⟩

/-- A bulk read succeeds if all its keys can be used, the server answers if it is asked, and all
that is found can be decoded. -/
theorem getBulk_eq_ok {m : Std.HashMap κ ν} :
    c.getBulk s now keys = .ok m ↔ (∀ k ∈ keys, c.wireKey k = .ok (c.translate k)) ∧
      (keys ≠ [] → s.unavailable = false) ∧
      c.decodeFound (c.foundFor s now keys) (keys.map fun k => (k, c.translate k)) ∅ = .ok m := by
  cases hwired : c.wireKeys keys with
  | error e =>
    rw [getBulk, hwired]
    constructor
    · intro h
      cases h
    · rintro ⟨hkeys, -⟩
      rw [wireKeys_eq hkeys] at hwired
      cases hwired
  | ok wired =>
    have hkeys := wireKeys_ok hwired
    rw [getBulk, wireKeys_eq hkeys]
    cases keys with
    | nil =>
      -- The server is not asked, and may be unavailable.
      exact ⟨fun h => ⟨hkeys, fun hne => absurd rfl hne, h⟩, fun h => h.2.2⟩
    | cons k keys =>
      have hwires : ((k :: keys).map fun k => (k, c.translate k)).map Prod.snd =
          (k :: keys).map c.translate := List.map_map
      simp only [bind, Except.bind, hwires, Server.bulkGet, Server.reading]
      cases hup : s.unavailable with
      | true =>
        constructor
        · intro h
          cases h
        · rintro ⟨-, hanswers, -⟩
          cases hanswers (List.cons_ne_nil _ _)
      | false => exact ⟨fun h => ⟨hkeys, fun _ => rfl, h⟩, fun h => h.2.2⟩

/-- If a bulk read succeeds, so does the single read of each of its keys. -/
theorem get_of_getBulk {m : Std.HashMap κ ν} (h : c.getBulk s now keys = .ok m) :
    ∀ k ∈ keys, ∃ r, c.get s now k = .ok r := by
  intro k hk
  obtain ⟨hkeys, hup, hm⟩ := getBulk_eq_ok.1 h
  obtain ⟨r, hr⟩ := decodeFound_ok hm (k, c.translate k) (List.mem_map_of_mem hk)
  rw [getElem?_foundFor hk] at hr
  exact ⟨r, get_eq_ok.2 ⟨hkeys k hk, hup (List.ne_nil_of_mem hk), hr⟩⟩

/-! ## What a bulk read returns -/

variable [LawfulBEq κ]

/-- What was found is decoded key by key. A key keeps the value it has been given, since all its
occurrences have the same. -/
private theorem decodeFound_eq {found : Std.HashMap String ByteArray} {wired : List (κ × String)}
    {f : κ → Option ν} (h : ∀ p ∈ wired, c.decode? found[p.2]? = .ok (f p.1))
    (values : Std.HashMap κ ν) (hvalues : ∀ k v, values[k]? = some v → f k = some v) :
    ∃ m, c.decodeFound found wired values = .ok m ∧
      ∀ k, k ∈ wired.map Prod.fst ∨ values[k]? = f k → m[k]? = f k := by
  induction wired generalizing values with
  | nil => exact ⟨values, rfl, fun k hk => hk.resolve_left nofun⟩
  | cons p wired ih =>
    obtain ⟨k, wire⟩ := p
    obtain ⟨hp, hwired⟩ := List.forall_mem_cons.1 h
    simp only [decodeFound]
    cases hdata : found[wire]? with
    | none =>
      rw [hdata] at hp
      -- A key of which nothing was found keeps what it has, which is nothing.
      have hnone : f k = none := (Except.ok.inj hp).symm
      obtain ⟨m, hm, hall⟩ := ih hwired values hvalues
      refine ⟨m, hm, fun k' hk' => hall k' ?_⟩
      rcases hk' with hmem | hsame
      · rcases List.mem_cons.1 hmem with rfl | hmem
        · right
          rw [hnone]
          exact Option.eq_none_iff_forall_ne_some.2 fun v hv => nomatch hnone ▸ hvalues k' v hv
        · exact .inl hmem
      · exact .inr hsame
    | some data =>
      rw [hdata, decode?] at hp
      cases hdecode : c.transcoder.decode data with
      | error e => rw [hdecode] at hp; exact nomatch hp
      | ok v =>
        rw [hdecode] at hp
        -- The value that is put is the one of every occurrence of the key.
        have hsome : f k = some v := (Except.ok.inj hp).symm
        have hkeeps : ∀ k' v', (values.insert k v)[k']? = some v' → f k' = some v' := by
          intro k' v' hv'
          rw [Std.HashMap.getElem?_insert] at hv'
          split at hv'
          · next heq => exact eq_of_beq heq ▸ hsome.trans hv'
          · exact hvalues k' v' hv'
        obtain ⟨m, hm, hall⟩ := ih hwired _ hkeeps
        refine ⟨m, ?_, fun k' hk' => hall k' ?_⟩
        · simp only [bind, Except.bind, hdecode, hm]
        · rw [Std.HashMap.getElem?_insert]
          by_cases heq : k == k'
          · exact .inr (by rw [if_pos heq, ← eq_of_beq heq, hsome])
          · rw [if_neg heq]
            refine hk'.imp_left fun hmem => (List.mem_cons.1 hmem).resolve_left fun h => heq ?_
            exact beq_iff_eq.2 h.symm

/-- A bulk read of keys that can be read one by one agrees with that, and finds nothing else. -/
theorem getBulk_of_get (h : ∀ k ∈ keys, ∃ r, c.get s now k = .ok r) :
    ∃ m, c.getBulk s now keys = .ok m ∧ (∀ k ∈ keys, c.get s now k = .ok m[k]?) ∧
      ∀ k, k ∉ keys → m[k]? = none := by
  let f : κ → Option ν := fun k =>
    if keys.contains k then (c.get s now k).toOption.join else none
  have hf : ∀ k ∈ keys, c.get s now k = .ok (f k) := by
    intro k hk
    obtain ⟨r, hr⟩ := h k hk
    simp only [f, hr, List.contains_iff_mem.2 hk, if_true]
    rfl
  -- What a bulk request finds is what single requests find.
  have hfound : ∀ p ∈ keys.map fun k => (k, c.translate k),
      c.decode? (c.foundFor s now keys)[p.2]? = .ok (f p.1) := by
    intro p hp
    obtain ⟨k, hk, rfl⟩ := List.mem_map.1 hp
    rw [getElem?_foundFor hk]
    exact (get_eq_ok.1 (hf k hk)).2.2
  obtain ⟨m, hm, hall⟩ := decodeFound_eq hfound ∅ (by simp)
  refine ⟨m, getBulk_eq_ok.2 ⟨fun k hk => (get_eq_ok.1 (hf k hk)).1, fun hne => ?_, hm⟩,
    fun k hk => ?_, fun k hk => ?_⟩
  · obtain ⟨k, hk⟩ := List.exists_mem_of_ne_nil keys hne
    exact (get_eq_ok.1 (hf k hk)).2.1
  · rw [hf k hk, hall k (.inl (by simpa using hk))]
  · have hnone : f k = none := if_neg fun hmem => hk (List.contains_iff_mem.1 hmem)
    rw [hall k (.inr (Std.HashMap.getElem?_empty.trans hnone.symm)), hnone]

/-- A bulk read is single reads at one instant, whatever the keys are translated to and whatever is
there. It succeeds if and only if all of these succeed, and then has exactly the listed keys for
which one of them finds a value, with this value. -/
theorem getBulk_agrees (c : RemoteCache κ ν) (s : Server) (now : Nat) (keys : List κ) :
    ((∃ m, c.getBulk s now keys = .ok m) ↔ ∀ k ∈ keys, ∃ r, c.get s now k = .ok r) ∧
      ∀ m, c.getBulk s now keys = .ok m →
        ∀ k v, m[k]? = some v ↔ k ∈ keys ∧ c.get s now k = .ok (some v) := by
  refine ⟨⟨fun ⟨m, hm⟩ => get_of_getBulk hm, fun h => ?_⟩, fun m hm k v => ?_⟩
  · obtain ⟨m, hm, -⟩ := getBulk_of_get h
    exact ⟨m, hm⟩
  · obtain ⟨m', hm', hall, hnone⟩ := getBulk_of_get (get_of_getBulk hm)
    obtain rfl := Except.ok.inj (hm.symm.trans hm')
    constructor
    · intro hv
      have hk : k ∈ keys := by
        by_contra hk
        rw [hnone k hk] at hv
        cases hv
      exact ⟨hk, (hall k hk).trans (congrArg Except.ok hv)⟩
    · rintro ⟨hk, hget⟩
      exact Except.ok.inj ((hall k hk).symm.trans hget)

/-- A cache of numbers of one byte, which has one wire key for all even keys and one for all odd
ones. -/
def parities : RemoteCache Nat Nat where
  translate k := if k % 2 = 0 then "even" else "odd"
  transcoder := ⟨fun v => .ok ⟨#[v.toUInt8]⟩, fun data =>
    match data.data[0]? with
    | some b => .ok b.toNat
    | none => .error (.transcode "no byte")⟩
  expiration := 0

/-- The even keys have an item to stay, and the odd ones one without a byte for a millisecond. -/
def sevenAndNothing : Server := (({} : Server).put 0 "even" 0 ⟨#[7]⟩).put 0 "odd" 1 ⟨#[]⟩

/-- In the first millisecond the odd key is in the way of the even one. From then on the even keys
are read, however often they are asked for. -/
theorem getBulk_agrees_parities :
    (¬ ∃ m, parities.getBulk sevenAndNothing 999999 [0, 1] = .ok m) ∧
      ∃ m, parities.getBulk sevenAndNothing 1000000 [0, 1, 2, 2] = .ok m ∧
        m[0]? = some 7 ∧ m[1]? = none ∧ m[2]? = some 7 := by
  have hwire : ∀ k, parities.wireKey k = .ok (parities.translate k) := by
    intro k
    by_cases hk : k % 2 = 0
    · simp only [wireKey, parities, if_pos hk]
      rfl
    · simp only [wireKey, parities, if_neg hk]
      rfl
  have heven : (sevenAndNothing.item? 1000000 "even").map Item.data = some ⟨#[7]⟩ := by
    simp only [Server.item?, sevenAndNothing, Server.put, Std.HashMap.getElem?_insert]
    rfl
  have hitem : sevenAndNothing.items["odd"]? = some ⟨⟨#[]⟩, some 1000000, 2⟩ := by
    simp only [sevenAndNothing, Server.put, Std.HashMap.getElem?_insert]
    rfl
  have hbefore : (sevenAndNothing.item? 999999 "odd").map Item.data = some ⟨#[]⟩ := by
    simp [Server.item?, hitem, Item.Live]
  have hgone : (sevenAndNothing.item? 1000000 "odd").map Item.data = none := by
    simp [Server.item?, hitem, Item.Live]
  have hgets : ∀ k ∈ [0, 1, 2, 2],
      parities.get sevenAndNothing 1000000 k = .ok (if k = 1 then none else some 7) := by
    intro k hk
    refine get_eq_ok.2 ⟨hwire k, rfl, ?_⟩
    obtain rfl | rfl | rfl : k = 0 ∨ k = 1 ∨ k = 2 := by simpa using hk
    · exact (congrArg parities.decode? heven).trans rfl
    · exact (congrArg parities.decode? hgone).trans rfl
    · exact (congrArg parities.decode? heven).trans rfl
  constructor
  · -- The bytes of the odd key are still there, and are no value.
    intro hbulk
    have hgets := (getBulk_agrees parities sevenAndNothing 999999 [0, 1]).1.1 hbulk
    obtain ⟨r, hr⟩ := hgets 1 (by decide)
    obtain ⟨-, -, hdecode⟩ := get_eq_ok.1 hr
    cases (congrArg parities.decode? hbefore).symm.trans hdecode
  · -- Now they are gone, and a key without bytes is simply missing.
    obtain ⟨hok, hvalues⟩ := getBulk_agrees parities sevenAndNothing 1000000 [0, 1, 2, 2]
    obtain ⟨m, hm⟩ := hok.2 fun k hk => ⟨_, hgets k hk⟩
    refine ⟨m, hm, (hvalues m hm 0 7).2 ⟨by decide, hgets 0 (by decide)⟩, ?_,
      (hvalues m hm 2 7).2 ⟨by decide, hgets 2 (by decide)⟩⟩
    refine Option.eq_none_iff_forall_ne_some.2 fun v hv => ?_
    cases (hgets 1 (by decide)).symm.trans ((hvalues m hm 1 v).1 hv).2

end CacheLayer.Remote.RemoteCache
