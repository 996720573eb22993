import CacheLayer.Proofs.Remote.Exchange
import CacheLayer.Proofs.Remote.ReadBack
import CacheLayer.Proofs.Store.Roomy
/-!
# One contract for local and remote caches

A program of reads, writes, deletions, updates and pauses, one after the other, is run on a local
cache and on a remote one. The one drops an entry when its age has reached the time to live, counts
versions and evicts; the other keeps an item after its deadline and counts tokens. With the same
lifetime, room enough and keys and values that the server takes, no program tells them apart.

## Key results

- `Contract.Agree.perform`: one operation is answered alike, and the caches go on agreeing
- `Contract.same_answers`: all answers of a program are the same
-/

namespace CacheLayer

open Remote

/-! ## Programs -/

namespace Contract

variable {κ : Type}

/-- An operation of a program. -/
inductive Op (κ : Type) where
  | get (k : κ)
  | getBulk (ks : List κ)
  | set (k : κ) (v : String)
  /-- Writes the entries of a map, in the order in which the cache comes by them. -/
  | setBulk (entries : List (κ × String))
  | delete (k : κ)
  | update (k : κ) (f : Mapper String) (attempts : Nat)
  /-- Time passes. -/
  | wait (span : Nat)

/-- The answer to an operation. -/
inductive Answer (κ : Type) where
  | value (r : Outcome (Option String))
  /-- What was found for each key. -/
  | found (r : Outcome (κ → Option String))
  | done (r : Outcome Bool)
  /-- What became of each entry. -/
  | accepted (r : Outcome (κ → Option Bool))
  /-- The answer of an update, with the values that its mapper was shown. -/
  | updated (r : Outcome Bool) (seen : List (Option String))
  | nothing

namespace Op

/-- The keys of an operation. -/
def keys : Op κ → List κ
  | get k => [k]
  | getBulk ks => ks
  | set k _ => [k]
  | setBulk entries => entries.map Prod.fst
  | delete k => [k]
  | update k _ _ => [k]
  | wait _ => []

/-- How long an operation takes. -/
def span : Op κ → Nat
  | wait span => span
  | _ => 0

/-- The keys that an operation has written, by its answer. -/
def written : Op κ → Answer κ → List κ
  | set k _, _ => [k]
  | setBulk entries, _ => entries.map Prod.fst
  | update k _ _, .updated (.ok true) _ => [k]
  | _, _ => []

/-- The values that an operation has to encode, by its answer. -/
def encoded : Op κ → Answer κ → List String
  | set _ v, _ => [v]
  | setBulk entries, _ => entries.map Prod.snd
  | update _ f _, .updated _ seen => seen.filterMap f
  | _, _ => []

/-- The same operation. Two caches may come by the entries of a map in different orders. -/
inductive Same : Op κ → Op κ → Prop where
  | same (op : Op κ) : (∀ entries, op ≠ setBulk entries) → Same op op
  | entries {es es' : List (κ × String)} : (es.map Prod.fst).Nodup → es.Perm es' →
    Same (setBulk es) (setBulk es')

end Op

variable [BEq κ] [Hashable κ]

/-- Carries an operation out on a local cache. Nothing happens while the mapper is called. -/
def performLocal (w : Swept (LocalCache κ String)) :
    Op κ → Answer κ × Swept (LocalCache κ String)
  | .get k =>
    let (v?, w) := w.onStore fun s now => s.get now k
    (.value (.ok v?), w)
  | .getBulk ks =>
    let (m, w) := w.onStore fun s now => s.getBulk now ks
    (.found (.ok fun k => m[k]?), w)
  | .set k v =>
    let ((), w) := w.onStore fun s now => ((), s.set now k v)
    (.done (.ok true), w)
  | .setBulk entries =>
    let (r, w) := w.onStore fun s now => s.setBulk now entries
    (.accepted (r.map fun m k => m[k]?), w)
  | .delete k =>
    let (b, w) := w.onStore fun s now => s.delete now k
    (.done (.ok b), w)
  | .update k f attempts =>
    let (r, seen, w) := (Swept.updater k).run f (fun _ w => w) attempts 0 w
    (.updated r seen, w)
  | .wait span => (.nothing, w.advance span)

/-- Carries an operation out on a remote cache. Nothing happens while the mapper is called. -/
def performRemote (c : RemoteCache κ String) (s : Site) : Op κ → Answer κ × Site
  | .get k => (.value (c.get s.server s.now k), s)
  | .getBulk ks => (.found ((c.getBulk s.server s.now ks).map fun m k => m[k]?), s)
  | .set k v =>
    let (r, s) := s.request fun server now => c.set server now k v
    (.done r, s)
  | .setBulk entries =>
    let (r, s) := s.request fun server now => c.setBulk server now entries
    (.accepted (r.map fun m k => m[k]?), s)
  | .delete k =>
    let (r, s) := s.request fun server now => c.delete server now k
    (.done r, s)
  | .update k f attempts =>
    let (r, seen, s) := c.update k f (fun _ s => s) attempts s
    (.updated r seen, s)
  | .wait span => (.nothing, s.advance span)

/-- The operations of a program with the answers of a local cache. -/
def localTrace (w : Swept (LocalCache κ String)) : List (Op κ) → List (Op κ × Answer κ)
  | [] => []
  | op :: ops => (op, (performLocal w op).1) :: localTrace (performLocal w op).2 ops

/-- The operations of a program with the answers of a remote cache. -/
def remoteTrace (c : RemoteCache κ String) (s : Site) : List (Op κ) → List (Op κ × Answer κ)
  | [] => []
  | op :: ops => (op, (performRemote c s op).1) :: remoteTrace c (performRemote c s op).2 ops

end Contract

/-! ## Updates that nothing comes between -/

variable {κ : Type} [BEq κ] [Hashable κ] [LawfulBEq κ]

/-- A second look at a key finds what the first one has found and drops nothing more. -/
private theorem Store.peekEntry_peekEntry {ν : Type} (s : Store κ ν) (now : Nat) (k : κ) :
    (s.peekEntry now k).2.peekEntry now k = s.peekEntry now k := by
  cases hk : s.entries[k]? with
  | none => simp [Store.peekEntry, hk]
  | some e =>
    by_cases he : e.Expired s.ttl now
    · simp [Store.peekEntry, hk, he, Store.erase, Store.countExpired]
    · simp [Store.peekEntry, hk, he]

/-- An update of a local cache that nothing comes between needs one attempt. -/
theorem Swept.updater_run {ν : Type} (w : Swept (LocalCache κ ν)) (k : κ) (f : Mapper ν)
    (attempts : Nat) :
    let current := (w.state.store.peek w.now k).1
    let looked := (w.onStore fun s now => s.peekEntry now k).2
    (Swept.updater k).run f (fun _ w => w) (attempts + 1) 0 w =
      match f current with
      | none => (.ok false, [current], looked)
      | some v => (.ok true, [current], (looked.onStore fun s now => ((), s.set now k v)).2) := by
  obtain ⟨now, ⟨name, hasLoader, s⟩, sweepers, current?⟩ := w
  -- The write looks at the key once more, and finds what was read.
  have hagain := s.peekEntry_peekEntry now k
  cases hp : s.peekEntry now k with
  | mk e? s' =>
    rw [hp] at hagain
    simp only at hagain
    cases hf : f (e?.map Entry.value) with
    | none =>
      simp [Updater.run, Swept.updater, Swept.onStore, Store.updateRead, Store.peekVersioned,
        Store.peek, hp, shown, Update.afterRead, Function.comp_def, hf]
    | some v =>
      simp [Updater.run, Swept.updater, Swept.onStore, Store.updateRead, Store.peekVersioned,
        Store.peek, hp, shown, Update.afterRead, Function.comp_def, hf, Store.updateWrite,
        Store.setIfVersion, hagain]

/-! ## What a server shows -/

namespace Remote

/-- What is seen after an item was put: it is there until its deadline. -/
theorem Server.data_put (s : Server) (now t : Nat) (key key' : String) {expiration : Nat}
    (hne : expiration ≠ 0) (data : ByteArray) :
    ((s.put now key expiration data).item? t key').map Item.data =
      if key = key' then (if t < now + Span.ofMillis expiration then some data else none)
      else (s.item? t key').map Item.data := by
  simp only [item?, put, Std.HashMap.getElem?_insert, beq_iff_eq, if_neg hne]
  split
  · by_cases hlive : t < now + Span.ofMillis expiration
    · simp [Item.Live, hlive]
    · simp [Item.Live, hlive, Nat.not_lt.1 hlive]
  · rfl

/-- A deleted item is not seen any more. -/
theorem Server.data_erase (s : Server) (t : Nat) (key key' : String) :
    (({ s with items := s.items.erase key } : Server).item? t key').map Item.data =
      if key = key' then none else (s.item? t key').map Item.data := by
  simp only [item?, Std.HashMap.getElem?_erase, beq_iff_eq]
  split <;> rfl

namespace RemoteCache

omit [BEq κ] [Hashable κ] [LawfulBEq κ]

variable {c : RemoteCache κ String} {s : Site} {k : κ}

/-- Strings that were encoded are decoded. -/
theorem decode?_encode (hjson : c.transcoder = .json String) (v? : Option String) :
    c.decode? (v?.map Json.encode) = .ok v? := by
  cases v? with
  | none => rfl
  | some v =>
    simp only [Option.map_some, decode?, hjson, Transcoder.json, Json.decode_encode_string]
    rfl

/-- A string whose text is not too large is sent as it is. -/
theorem encode_of_small (hjson : c.transcoder = .json String) {v : String}
    (hsmall : (Json.encode v).size ≤ maxValueSize) : c.encode v = .ok (Json.encode v) := by
  have hencode : c.transcoder.encode v = .ok (Json.encode v) := by rw [hjson]; rfl
  rw [encode_eq hencode, if_neg (Nat.not_lt.2 hsmall)]

/-- A read finds what the server shows. -/
theorem get_of_shown (hjson : c.transcoder = .json String)
    (hkey : Key.check (c.translate k) = .ok ()) {server : Server} {now : Nat}
    (hup : server.unavailable = false) {v? : Option String}
    (hv : (server.item? now (c.translate k)).map Item.data = v?.map Json.encode) :
    c.get server now k = .ok v? := by
  rw [get, wireKey_of_check hkey]
  simp only [bind, Except.bind, Server.get, Server.reading, hup, Bool.false_eq_true, if_false, hv]
  exact decode?_encode hjson v?

/-- An update that nothing comes between needs one attempt. -/
theorem update_run (hjson : c.transcoder = .json String)
    (hkey : Key.check (c.translate k) = .ok ()) (hup : s.server.unavailable = false)
    {current : Option String}
    (hcurrent : (s.server.item? s.now (c.translate k)).map Item.data = current.map Json.encode)
    {f : Mapper String} (hsmall : ∀ v, f current = some v → (Json.encode v).size ≤ maxValueSize)
    (attempts : Nat) :
    c.update k f (fun _ s => s) (attempts + 1) s =
      match f current with
      | none => (.ok false, [current], s)
      | some v => (.ok true, [current],
        ⟨s.now, s.server.put s.now (c.translate k) c.expirationMillis (Json.encode v)⟩) := by
  obtain ⟨now, server⟩ := s
  simp only at hup hcurrent
  -- What the first half of the attempt reads.
  have hread : (c.updater (c.translate k)).read ⟨now, server⟩ =
      (.ok (current, (server.item? now (c.translate k)).map Item.token), ⟨now, server⟩) := by
    simp only [updater, updateRead, Server.gets, Server.reading, hup, Bool.false_eq_true, if_false]
    cases hi : server.item? now (c.translate k) with
    | none =>
      rw [hi] at hcurrent
      obtain rfl : current = none := Option.map_eq_none_iff.1 hcurrent.symm
      rfl
    | some i =>
      rw [hi] at hcurrent
      obtain ⟨v, rfl, hv⟩ := Option.map_eq_some_iff.1 hcurrent.symm
      simp only [bind, Except.bind, Option.map_some, ← hv, hjson, Transcoder.json,
        Json.decode_encode_string]
      rfl
  rw [update, wireKey_of_check hkey]
  simp only [Updater.run, hread, shown, Update.afterRead]
  cases hf : f current with
  | none => rfl
  | some v =>
    -- Nobody has come between, so that the item still has its token, or is still absent.
    have hwrite : (c.updater (c.translate k)).write
        ((server.item? now (c.translate k)).map Item.token) v ⟨now, server⟩ =
        (.ok (some true),
          ⟨now, server.put now (c.translate k) c.expirationMillis (Json.encode v)⟩) := by
      simp only [updater, Site.request, updateWrite, encode_of_small hjson (hsmall v hf), bind,
        Except.bind, pure, Except.pure, send]
      cases hi : server.item? now (c.translate k) with
      | none => simp [Server.add_eq server now _ _ _ hup, hi, Except.map, addEnd]
      | some i => simp [Server.cas_eq server now _ _ _ _ hup, hi, Except.map, casEnd]
    simp only [List.isEmpty_cons, Bool.false_eq_true, if_false, hwrite]

end RemoteCache

end Remote

/-! ## Bulk writes -/

omit [LawfulBEq κ] in
/-- A batch of which nothing failed is folded into all its values. -/
private theorem gather_ok {α β : Type} (es : List (κ × β)) (g : β → α) :
    gather false (es.map fun e => (e.1, .ok (g e.2))) =
      .ok (Std.HashMap.ofList (es.map fun e => (e.1, g e.2))) := by
  have herrors : errorsOf (es.map fun e => (e.1, (.ok (g e.2) : Outcome α))) = [] := by
    simp [errorsOf, List.filterMap_map]
  have hvalues : valuesOf (es.map fun e => (e.1, (.ok (g e.2) : Outcome α))) =
      es.map fun e => (e.1, g e.2) := by
    simp [valuesOf, List.filterMap_map]
  rw [gather, herrors, hvalues, if_neg fun h => h.1 rfl]

/-- The order of the entries does not matter to what is answered. -/
private theorem getElem?_ofList_perm {α β : Type} {es es' : List (κ × β)} (g : β → α)
    (hnodup : (es.map Prod.fst).Nodup) (hperm : es.Perm es') (k : κ) :
    (Std.HashMap.ofList (es.map fun e => (e.1, g e.2)))[k]? =
      (Std.HashMap.ofList (es'.map fun e => (e.1, g e.2)))[k]? := by
  have hmap (l : List (κ × β)) : (l.map fun e => (e.1, g e.2)).map Prod.fst = l.map Prod.fst := by
    rw [List.map_map]
    rfl
  refine Option.ext fun a => ?_
  rw [getElem?_ofList (by rw [hmap]; exact hnodup),
    getElem?_ofList (by rw [hmap]; exact (hperm.map _).nodup_iff.1 hnodup)]
  exact (hperm.map _).mem_iff

/-- What is seen after entries were written one by one: those that were written, and otherwise what
was seen before. -/
private theorem Store.peek_foldl_set {ν : Type} {s : Store κ ν} {ttl : Nat} {keys : List κ}
    (h : s.RoomFor ttl keys) (now t : Nat) {es : List (κ × ν)}
    (hnodup : (es.map Prod.fst).Nodup) (hkeys : ∀ k ∈ es.map Prod.fst, k ∈ keys) :
    (es.foldl (fun s e => s.set now e.1 e.2) s).RoomFor ttl keys ∧
    (∀ k v, (k, v) ∈ es → ((es.foldl (fun s e => s.set now e.1 e.2) s).peek t k).1 =
      if ttl ≤ t - now then none else some v) ∧
    ∀ k, k ∉ es.map Prod.fst →
      ((es.foldl (fun s e => s.set now e.1 e.2) s).peek t k).1 = (s.peek t k).1 := by
  induction es generalizing s with
  | nil => exact ⟨h, nofun, fun _ _ => rfl⟩
  | cons e es ih =>
    obtain ⟨k', v'⟩ := e
    obtain ⟨hfree, hnodup⟩ := List.nodup_cons.1 hnodup
    obtain ⟨hk', hkeys⟩ := List.forall_mem_cons.1 hkeys
    obtain ⟨hroom, hin, hout⟩ := ih (h.set hk' now v') hnodup hkeys
    refine ⟨hroom, fun k v hmem => ?_, fun k hk => ?_⟩
    · rcases List.mem_cons.1 hmem with heq | hmem
      · obtain ⟨rfl, rfl⟩ := Prod.mk.inj heq
        rw [List.foldl_cons, hout k hfree, h.peek_set hk', if_pos (beq_self_eq_true k)]
      · exact hin k v hmem
    · obtain ⟨hne, hk⟩ := not_or.1 (mt List.mem_cons.2 hk)
      rw [List.foldl_cons, hout k hk, h.peek_set hk', if_neg fun heq => hne (eq_of_beq heq).symm]

omit [BEq κ] [Hashable κ] [LawfulBEq κ] in
/-- What is seen after entries were sent one by one: those that were sent, and otherwise what was
seen before. -/
private theorem Remote.RemoteCache.setEach_eq {c : RemoteCache κ String}
    (hjson : c.transcoder = .json String) (hne : c.expirationMillis ≠ 0) (now t : Nat)
    {es : List (κ × String)} {s : Server} (hup : s.unavailable = false)
    (hnodup : (es.map fun e => c.translate e.1).Nodup)
    (hkeys : ∀ e ∈ es, Key.check (c.translate e.1) = .ok ())
    (hsmall : ∀ e ∈ es, (Json.encode e.2).size ≤ maxValueSize) :
    (c.setEach now es s).1 = es.map (fun e => (e.1, .ok true)) ∧
    (c.setEach now es s).2.unavailable = false ∧
    (∀ k v, (k, v) ∈ es → ((c.setEach now es s).2.item? t (c.translate k)).map Item.data =
      if t < now + Span.ofMillis c.expirationMillis then some (Json.encode v) else none) ∧
    ∀ key, key ∉ es.map (fun e => c.translate e.1) →
      ((c.setEach now es s).2.item? t key).map Item.data = (s.item? t key).map Item.data := by
  induction es generalizing s with
  | nil => exact ⟨rfl, hup, nofun, fun _ _ => rfl⟩
  | cons e es ih =>
    obtain ⟨k', v'⟩ := e
    obtain ⟨hfree, hnodup⟩ := List.nodup_cons.1 hnodup
    obtain ⟨hk', hkeys⟩ := List.forall_mem_cons.1 hkeys
    obtain ⟨hv', hsmall⟩ := List.forall_mem_cons.1 hsmall
    have hset : c.set s now k' v' = (.ok true,
        s.put now (c.translate k') c.expirationMillis (Json.encode v')) := by
      rw [set_eq s now (wireKey_of_check hk') (encode_of_small hjson hv'), Server.set,
        Server.writing, hup]
      rfl
    -- The entries behind it go to other wire keys, and leave the item of this one alone.
    obtain ⟨hanswers, hup', hin, hout⟩ := ih
      (s := s.put now (c.translate k') c.expirationMillis (Json.encode v')) hup hnodup hkeys hsmall
    simp only [setEach, hset]
    refine ⟨by rw [hanswers, List.map_cons], hup', fun k v hmem => ?_, fun key hkey => ?_⟩
    · rcases List.mem_cons.1 hmem with heq | hmem
      · obtain ⟨rfl, rfl⟩ := Prod.mk.inj heq
        rw [hout _ hfree, Server.data_put _ _ _ _ _ hne, if_pos rfl]
      · exact hin k v hmem
    · obtain ⟨hother, hkey⟩ := not_or.1 (mt List.mem_cons.2 hkey)
      rw [hout key hkey, Server.data_put _ _ _ _ _ hne, if_neg fun heq => hother heq.symm]

/-! ## Agreement -/

namespace Contract

/-- A remote cache and a lifetime of so many milliseconds that a program is run with, the keys that
it uses and the ones that it writes, and an instant that it does not get beyond. -/
structure Setting (κ : Type) where
  cache : RemoteCache κ String
  millis : Nat
  used : List κ
  written : List κ
  horizon : Nat

/-- A setting in which the two caches can agree. -/
structure Setting.Fit (x : Setting κ) : Prop where
  json : x.cache.transcoder = .json String
  expiration : x.cache.expiration = Span.ofMillis x.millis
  pos : 0 < x.millis
  /-- The lifetime can be sent with 64 bits, or nothing lives long enough for that to matter. -/
  fits : x.millis < UInt64.size ∨ x.horizon < Span.ofMillis (UInt64.size - 1)
  valid : ∀ k ∈ x.used, Key.check (x.cache.translate k) = .ok ()
  injective : ∀ k ∈ x.used, ∀ k' ∈ x.used, x.cache.translate k = x.cache.translate k' → k = k'

/-- The two caches show the same values, now and until the horizon if nothing is written. -/
structure Agree (x : Setting κ) (w : Swept (LocalCache κ String)) (s : Site) : Prop where
  now_eq : s.now = w.now
  now_le : w.now ≤ x.horizon
  available : s.server.unavailable = false
  room : w.state.store.RoomFor (Span.ofMillis x.millis) x.written
  shown : ∀ k ∈ x.used, ∀ t, w.now ≤ t → t ≤ x.horizon →
    (s.server.item? t (x.cache.translate k)).map Item.data =
      (w.state.store.peek t k).1.map Json.encode

variable {x : Setting κ} {w : Swept (LocalCache κ String)} {s : Site} {k : κ}

omit [BEq κ] [Hashable κ] [LawfulBEq κ] in
theorem Setting.Fit.expirationMillis_ne_zero (hx : x.Fit) : x.cache.expirationMillis ≠ 0 := by
  rw [RemoteCache.expirationMillis, hx.expiration, Span.toMillis_ofMillis]
  have := hx.pos
  have : 1 < UInt64.size := by decide
  omega

omit [BEq κ] [Hashable κ] [LawfulBEq κ] in
/-- An entry expires at the deadline of the item that was written at the same time. -/
theorem Setting.Fit.expires_iff (hx : x.Fit) {now t : Nat} (ht : t ≤ x.horizon) :
    t < now + Span.ofMillis x.cache.expirationMillis ↔
      ¬ Span.ofMillis x.millis ≤ t - now := by
  rw [RemoteCache.expirationMillis, hx.expiration, Span.toMillis_ofMillis]
  have hpos := hx.pos
  have hfits := hx.fits
  simp only [Span.ofMillis, Span.millisecond] at hfits ⊢
  omega

omit [LawfulBEq κ] in
/-- What both caches show now. -/
theorem Agree.shown_now (h : Agree x w s) (hused : k ∈ x.used) :
    (s.server.item? s.now (x.cache.translate k)).map Item.data =
      (w.state.store.peek w.now k).1.map Json.encode := by
  rw [h.now_eq]
  exact h.shown k hused w.now (Nat.le_refl _) h.now_le

omit [LawfulBEq κ] in
/-- A store that shows the same may take the place of another one. -/
theorem Agree.seen (h : Agree x w s) {store : Store κ String}
    (hroom : store.RoomFor (Span.ofMillis x.millis) x.written)
    (hseen : ∀ t, w.now ≤ t → ∀ k, (store.peek t k).1 = (w.state.store.peek t k).1) :
    Agree x { w with state := { w.state with store := store } } s :=
  ⟨h.now_eq, h.now_le, h.available, hroom,
    fun k hk t hnow ht => (hseen t hnow k).symm ▸ h.shown k hk t hnow ht⟩

/-- Both caches may write a value. -/
theorem Agree.set (hx : x.Fit) (h : Agree x w s) (hused : k ∈ x.used) (hwritten : k ∈ x.written)
    (v : String) :
    Agree x { w with state := { w.state with store := w.state.store.set w.now k v } }
      ⟨s.now, s.server.put s.now (x.cache.translate k) x.cache.expirationMillis (Json.encode v)⟩
      where
  now_eq := h.now_eq
  now_le := h.now_le
  available := h.available
  room := h.room.set hwritten w.now v
  shown k' hk' t hnow ht := by
    rw [Server.data_put _ _ _ _ _ hx.expirationMillis_ne_zero, h.room.peek_set hwritten,
      h.now_eq]
    by_cases hk : k = k'
    · subst hk
      simp only [beq_self_eq_true, if_true, hx.expires_iff ht]
      split <;> simp_all
    · have hkey : x.cache.translate k ≠ x.cache.translate k' :=
        fun heq => hk (hx.injective k hused k' hk' heq)
      rw [if_neg hkey, if_neg fun heq => hk (eq_of_beq heq)]
      exact h.shown k' hk' t hnow ht

/-- Both caches may delete a key. -/
theorem Agree.delete (hx : x.Fit) (h : Agree x w s) (hused : k ∈ x.used) :
    Agree x { w with state := { w.state with store := (w.state.store.delete w.now k).2 } }
      ⟨s.now, { s.server with items := s.server.items.erase (x.cache.translate k) }⟩ where
  now_eq := h.now_eq
  now_le := h.now_le
  available := h.available
  room := h.room.delete w.now k
  shown k' hk' t hnow ht := by
    rw [Server.data_erase, Store.peek_delete _ hnow]
    by_cases hk : k = k'
    · subst hk
      rw [if_pos rfl, if_pos (beq_self_eq_true k)]
      rfl
    · have hkey : x.cache.translate k ≠ x.cache.translate k' :=
        fun heq => hk (hx.injective k hused k' hk' heq)
      rw [if_neg hkey, if_neg fun heq => hk (eq_of_beq heq)]
      exact h.shown k' hk' t hnow ht

omit [LawfulBEq κ] in
/-- Whether a deleted key was there is seen by both caches. -/
private theorem Agree.isSome_eq (h : Agree x w s) (hused : k ∈ x.used) :
    (w.state.store.delete w.now k).1 = (s.server.item? s.now (x.cache.translate k)).isSome := by
  have hdelete : (w.state.store.delete w.now k).1 = (w.state.store.peek w.now k).1.isSome := by
    rw [Store.delete, Store.peek]
    generalize w.state.store.peekEntry w.now k = looked
    obtain ⟨_ | e, s'⟩ := looked <;> rfl
  have hshown := congrArg Option.isSome (h.shown_now hused)
  rw [Option.isSome_map, Option.isSome_map] at hshown
  exact hdelete.trans hshown.symm

/-- Both caches may write the entries of a map, in different orders. -/
private theorem Agree.setBulk (hx : x.Fit) (h : Agree x w s) {es es' : List (κ × String)}
    (hnodup : (es.map Prod.fst).Nodup) (hperm : es.Perm es')
    (hused : ∀ k ∈ es.map Prod.fst, k ∈ x.used)
    (hwritten : ∀ k ∈ es.map Prod.fst, k ∈ x.written)
    (hsmall : ∀ v ∈ es.map Prod.snd, (Json.encode v).size ≤ maxValueSize) :
    (performLocal w (.setBulk es)).1 = (performRemote x.cache s (.setBulk es')).1 ∧
      Agree x (performLocal w (.setBulk es)).2 (performRemote x.cache s (.setBulk es')).2 := by
  have hused' : ∀ e ∈ es', e.1 ∈ x.used :=
    fun e he => hused e.1 (List.mem_map_of_mem (hperm.mem_iff.2 he))
  -- No two of the keys share a wire key, so that no entry overwrites another one.
  have hnodup' : (es'.map fun e => x.cache.translate e.1).Nodup := by
    have hkeys : (es'.map Prod.fst).Nodup := (hperm.map _).nodup_iff.1 hnodup
    have hinj : ∀ k ∈ es'.map Prod.fst, ∀ k' ∈ es'.map Prod.fst,
        x.cache.translate k = x.cache.translate k' → k = k' := by
      intro k hk k' hk'
      exact hx.injective k (hused k ((hperm.map _).mem_iff.2 hk))
        k' (hused k' ((hperm.map _).mem_iff.2 hk'))
    have hwires := hkeys.map_on hinj
    rwa [List.map_map] at hwires
  have hlocal := fun t => w.state.store.peek_foldl_set h.room w.now t hnodup hwritten
  have hremote := fun t => RemoteCache.setEach_eq hx.json hx.expirationMillis_ne_zero s.now t
    (s := s.server) h.available hnodup' (fun e he => hx.valid _ (hused' e he))
    (fun e he => hsmall _ (List.mem_map_of_mem (hperm.mem_iff.2 he)))
  constructor
  · -- The answers do not depend on the order.
    simp only [performLocal, performRemote, Swept.onStore, Store.setBulk, Site.request,
      RemoteCache.setBulk, (hremote 0).1]
    rw [gather_ok es fun _ => true, gather_ok es' fun _ => true]
    simp only [Except.map]
    refine congrArg (Answer.accepted ∘ Except.ok) (funext fun k => ?_)
    exact getElem?_ofList_perm (fun _ => true) hnodup hperm k
  · refine ⟨h.now_eq, h.now_le, (hremote 0).2.1, (hlocal 0).1, fun k hk t hnow ht => ?_⟩
    obtain ⟨-, hin, hout⟩ := hlocal t
    obtain ⟨-, -, hin', hout'⟩ := hremote t
    by_cases hmem : k ∈ es.map Prod.fst
    · obtain ⟨⟨k, v⟩, hv, rfl⟩ := List.mem_map.1 hmem
      refine (hin' k v (hperm.mem_iff.1 hv)).trans ?_
      refine Eq.trans ?_ (congrArg (Option.map Json.encode) (hin k v hv)).symm
      simp only [hx.expires_iff ht, h.now_eq]
      split <;> simp_all
    · refine (hout' _ fun hmem' => ?_).trans ?_
      · obtain ⟨e, he, heq⟩ := List.mem_map.1 hmem'
        have hkey := hx.injective _ (hused' e he) k hk heq
        exact hmem (hkey ▸ List.mem_map_of_mem (hperm.mem_iff.2 he))
      · rw [h.shown k hk t hnow ht]
        exact congrArg (Option.map Json.encode) (hout k hmem).symm

omit [LawfulBEq κ] in
/-- Time may pass. -/
private theorem Agree.wait (h : Agree x w s) {span : Nat} (htime : w.now + span ≤ x.horizon) :
    Agree x (w.advance span) (s.advance span) where
  now_eq := congrArg (· + span) h.now_eq
  now_le := htime
  available := h.available
  room := h.room
  shown k hk t hnow ht := h.shown k hk t (Nat.le_trans (Nat.le_add_right _ _) hnow) ht

/-- Both caches may update a key. -/
private theorem Agree.update (hx : x.Fit) (h : Agree x w s) (hused : k ∈ x.used) (f : Mapper String)
    (attempts : Nat)
    (hwritten : ∀ k' ∈ (Op.update k f attempts).written (performLocal w (.update k f attempts)).1,
      k' ∈ x.written)
    (hsmall : ∀ v ∈ (Op.update k f attempts).encoded (performLocal w (.update k f attempts)).1,
      (Json.encode v).size ≤ maxValueSize) :
    (performLocal w (.update k f attempts)).1 =
        (performRemote x.cache s (.update k f attempts)).1 ∧
      Agree x (performLocal w (.update k f attempts)).2
        (performRemote x.cache s (.update k f attempts)).2 := by
  have hvalid := hx.valid k hused
  cases attempts with
  | zero =>
    simp only [performRemote, RemoteCache.update, RemoteCache.wireKey_of_check hvalid]
    exact ⟨rfl, h⟩
  | succ attempts =>
    have hlooked : Agree x
        { w with state := { w.state with store := (w.state.store.peekEntry w.now k).2 } } s :=
      h.seen (h.room.peekEntry w.now k) fun t ht => Store.peek_peekEntry _ ht k
    have hlocal := w.updater_run k f attempts
    simp only at hlocal
    simp only [performLocal, hlocal] at hwritten hsmall ⊢
    simp only [performRemote]
    cases hf : f (w.state.store.peek w.now k).1 with
    | none =>
      -- Nothing is written, but the look may have dropped an expired entry.
      rw [RemoteCache.update_run hx.json hvalid h.available (h.shown_now hused) (by simp [hf]), hf]
      exact ⟨rfl, hlooked⟩
    | some v =>
      simp only [hf] at hwritten hsmall
      have hv : (Json.encode v).size ≤ maxValueSize := hsmall v (by simp [Op.encoded, hf])
      rw [RemoteCache.update_run hx.json hvalid h.available (h.shown_now hused)
        (fun v' hv' => Option.some.inj (hf.symm.trans hv') ▸ hv), hf]
      exact ⟨rfl, hlooked.set hx hused (hwritten k (List.mem_singleton_self k)) v⟩

/-- One operation is answered alike by both caches, and they go on agreeing. -/
theorem Agree.perform (hx : x.Fit) (h : Agree x w s) {op op' : Op κ} (hsame : op.Same op')
    (hused : ∀ k ∈ op.keys, k ∈ x.used) (htime : w.now + op.span ≤ x.horizon)
    (hwritten : ∀ k ∈ op.written (performLocal w op).1, k ∈ x.written)
    (hsmall : ∀ v ∈ op.encoded (performLocal w op).1, (Json.encode v).size ≤ maxValueSize) :
    (performLocal w op).1 = (performRemote x.cache s op').1 ∧
      Agree x (performLocal w op).2 (performRemote x.cache s op').2 := by
  -- What is shown of a key is what a read finds on the server.
  have hget {k : κ} (hk : k ∈ x.used) :
      x.cache.get s.server s.now k = .ok (w.state.store.peek w.now k).1 :=
    RemoteCache.get_of_shown hx.json (hx.valid k hk) h.available (h.shown_now hk)
  cases hsame with
  | entries hnodup hperm => exact h.setBulk hx hnodup hperm hused hwritten hsmall
  | same op hop =>
    cases op with
    | get k =>
      have hk := hused k (List.mem_singleton_self k)
      refine ⟨?_, h.seen (h.room.get w.now k) fun t ht => Store.peek_get _ ht k⟩
      show Answer.value (.ok (w.state.store.get w.now k).1) = .value _
      rw [hget hk, Store.get_fst]
    | getBulk ks =>
      -- A bulk read finds of each key what a read by itself finds, and so does the local one.
      have hread : ∀ k ∈ ks, ∃ r, x.cache.get s.server s.now k = .ok r :=
        fun k hk => ⟨_, hget (hused k hk)⟩
      obtain ⟨m, hm, hall, hnone⟩ := RemoteCache.getBulk_of_get hread
      refine ⟨?_, h.seen ((w.state.store.peek_getBulk (Nat.le_refl _) ks).2 _ _ h.room)
        fun t ht => (w.state.store.peek_getBulk ht ks).1⟩
      show Answer.found (.ok fun k => (w.state.store.getBulk w.now ks).1[k]?) = .found _
      rw [hm]
      refine congrArg (Answer.found ∘ Except.ok) (funext fun k => ?_)
      rw [Store.getElem?_getBulk]
      by_cases hk : k ∈ ks
      · rw [if_pos (List.contains_iff_mem.2 hk)]
        exact Except.ok.inj ((hget (hused k hk)).symm.trans (hall k hk))
      · rw [if_neg (mt List.contains_iff_mem.1 hk)]
        exact (hnone k hk).symm
    | set k v =>
      have hk := hused k (List.mem_singleton_self k)
      have hset : x.cache.set s.server s.now k v = (.ok true,
          s.server.put s.now (x.cache.translate k) x.cache.expirationMillis (Json.encode v)) := by
        rw [RemoteCache.set_eq _ _ (RemoteCache.wireKey_of_check (hx.valid k hk))
          (RemoteCache.encode_of_small hx.json (hsmall v (List.mem_singleton_self v))),
          Server.set, Server.writing, h.available]
        rfl
      simp only [performRemote, Site.request, hset]
      exact ⟨rfl, h.set hx hk (hwritten k (List.mem_singleton_self k)) v⟩
    | setBulk entries => exact absurd rfl (hop entries)
    | delete k =>
      have hk := hused k (List.mem_singleton_self k)
      -- Both tell whether there was something to delete.
      have hdelete : x.cache.delete s.server s.now k =
          (.ok (s.server.item? s.now (x.cache.translate k)).isSome,
            { s.server with items := s.server.items.erase (x.cache.translate k) }) := by
        rw [RemoteCache.delete, RemoteCache.wireKey_of_check (hx.valid k hk)]
        simp only [Server.delete, Server.writing, h.available, Bool.false_eq_true, if_false]
      simp only [performRemote, Site.request, hdelete]
      exact ⟨congrArg (Answer.done ∘ Except.ok) (h.isSome_eq hk), h.delete hx hk⟩
    | update k f attempts =>
      exact h.update hx (hused k (List.mem_singleton_self k)) f attempts hwritten hsmall
    | wait span => exact ⟨rfl, h.wait htime⟩

/-- The clock moves by as much as an operation takes. -/
private theorem now_performLocal (w : Swept (LocalCache κ String)) (op : Op κ) :
    (performLocal w op).2.now = w.now + op.span := by
  cases op with
  | update k f attempts =>
    cases attempts with
    | zero => rfl
    | succ attempts =>
      have hlocal := w.updater_run k f attempts
      simp only at hlocal
      simp only [performLocal, hlocal]
      cases f (w.state.store.peek w.now k).1 <;> rfl
  | _ => rfl

/-- As long as two caches agree, no program tells them apart. -/
theorem Agree.traces (hx : x.Fit) (h : Agree x w s) {ops ops' : List (Op κ)}
    (hsame : List.Forall₂ Op.Same ops ops')
    (hused : ∀ op ∈ ops, ∀ k ∈ op.keys, k ∈ x.used)
    (htime : w.now + (ops.map Op.span).sum ≤ x.horizon)
    (hwritten : ∀ p ∈ localTrace w ops, ∀ k ∈ p.1.written p.2, k ∈ x.written)
    (hsmall : ∀ p ∈ localTrace w ops, ∀ v ∈ p.1.encoded p.2,
      (Json.encode v).size ≤ maxValueSize) :
    (localTrace w ops).map Prod.snd = (remoteTrace x.cache s ops').map Prod.snd := by
  induction hsame generalizing w s with
  | nil => rfl
  | @cons op op' ops ops' hop _ ih =>
    obtain ⟨hfirst, hused⟩ := List.forall_mem_cons.1 hused
    obtain ⟨hwrites, hwritten⟩ := List.forall_mem_cons.1 hwritten
    obtain ⟨hencodes, hsmall⟩ := List.forall_mem_cons.1 hsmall
    rw [List.map_cons, List.sum_cons, ← Nat.add_assoc] at htime
    obtain ⟨hanswer, hagree⟩ := h.perform hx hop hfirst
      (Nat.le_trans (Nat.le_add_right _ _) htime) hwrites hencodes
    rw [localTrace, remoteTrace, List.map_cons, List.map_cons, hanswer]
    exact congrArg _ (ih hagree hused (now_performLocal w op ▸ htime) hwritten hsmall)

/-- A configuration and a program for which the two caches have one contract. What is asked of the
program is asked of its run on a local cache. -/
structure Comparable (translate : κ → String) (c : Config) (millis : Nat) (ops : List (Op κ)) :
    Prop where
  /-- Both caches keep a value for the same whole number of milliseconds, which is not zero. -/
  ttl : c.ttl = Span.ofMillis millis
  expiration : c.expiration = Span.ofMillis millis
  pos : 0 < millis
  /-- The milliseconds are a number of 64 bits, or the program does not last as long as those. -/
  fits : millis < UInt64.size ∨ (ops.map Op.span).sum < Span.ofMillis (UInt64.size - 1)
  plain : c.compression = none
  /-- The wire keys are acceptable and different. -/
  valid : ∀ k ∈ ops.flatMap Op.keys, Key.check (translate k) = .ok ()
  injective : ∀ k ∈ ops.flatMap Op.keys, ∀ k' ∈ ops.flatMap Op.keys,
    translate k = translate k' → k = k'
  /-- There is room for all keys that are written. -/
  roomy : ((localTrace (.start (.ofConfig c)) ops).flatMap
    fun p => p.1.written p.2).eraseDups.length ≤ max 1 c.maxEntries
  /-- The values that are encoded are not too large. -/
  small : ∀ p ∈ localTrace (.start (.ofConfig c)) ops, ∀ v ∈ p.1.encoded p.2,
    (Json.encode v).size ≤ maxValueSize

/-- A program gets the same answers from a new local cache and from a new remote one, in whatever
orders the two come by the entries of maps. -/
theorem same_answers {translate : κ → String} {c : Config} {millis : Nat} {ops ops' : List (Op κ)}
    (h : Comparable translate c millis ops) (hsame : List.Forall₂ Op.Same ops ops') :
    (localTrace (.start (.ofConfig c)) ops).map Prod.snd =
      (remoteTrace (.ofConfig translate c) {} ops').map Prod.snd := by
  let x : Setting κ :=
    { cache := .ofConfig translate c
      millis := millis
      used := ops.flatMap Op.keys
      written := (localTrace (.start (.ofConfig c)) ops).flatMap fun p => p.1.written p.2
      horizon := (ops.map Op.span).sum }
  have hx : x.Fit :=
    { json := by
        simp only [x, RemoteCache.ofConfig, RemoteCache.ofConfigWith, h.plain,
          Transcoder.standardWith]
      expiration := h.expiration
      pos := h.pos
      fits := h.fits
      valid := h.valid
      injective := h.injective }
  -- Both begin empty.
  have hstart : Agree x (.start (.ofConfig c)) {} :=
    { now_eq := rfl
      now_le := Nat.zero_le _
      available := rfl
      room := h.ttl ▸ .ofLimits h.roomy c.ttl
      shown := fun k _ t _ _ => by
        show ((({} : Server).item? t (translate k)).map Item.data) =
          ((Store.ofLimits c.maxEntries c.ttl : Store κ String).peek t k).1.map Json.encode
        rw [Server.item?, Store.peek_eq, Store.ofLimits, Std.HashMap.getElem?_empty,
          Std.HashMap.getElem?_empty]
        rfl }
  refine hstart.traces hx hsame (fun op hop k hk => List.mem_flatMap.2 ⟨op, hop, hk⟩) ?_
    (fun p hp k hk => List.mem_flatMap.2 ⟨p, hp, hk⟩) h.small
  exact Nat.le_of_eq (Nat.zero_add _)

omit [BEq κ] [Hashable κ] [LawfulBEq κ] in
/-- What an operation writes it has among its keys. -/
private theorem Op.written_subset (op : Op κ) (answer : Answer κ) :
    op.written answer ⊆ op.keys := by
  intro k hk
  unfold Op.written at hk
  split at hk
  · exact hk
  · exact hk
  · exact hk
  · exact absurd hk List.not_mem_nil

omit [LawfulBEq κ] in
/-- A run has the operations of its program. -/
private theorem mem_localTrace {w : Swept (LocalCache κ String)} {ops : List (Op κ)}
    {p : Op κ × Answer κ} (hp : p ∈ localTrace w ops) : p.1 ∈ ops := by
  induction ops generalizing w with
  | nil => exact absurd hp List.not_mem_nil
  | cons op ops ih =>
    rcases List.mem_cons.1 hp with rfl | hp
    · exact List.mem_cons_self
    · exact List.mem_cons_of_mem _ (ih hp)

/-- Two entries that live for two milliseconds. -/
def shortLived : Config :=
  { maxEntries := 2, ttl := Span.ofMillis 2, expiration := Span.ofMillis 2 }

/-- Wire keys of one letter. -/
def letter (n : Nat) : String := if n = 0 then "a" else if n = 1 then "b" else "c"

/-- What is done with keys after they were written: one is changed, read right before its expiry and
at that very instant, deleted too late, written anew, and not changed. -/
def changing : List (Op Nat) :=
  [.update 0 (fun _ => some "y") 3, .wait 1999999, .get 0, .wait 1, .get 0, .delete 0, .set 0 "x",
    .update 0 (fun _ => none) 1]

/-- A program that writes two entries in the given order, and reads and changes them. -/
def expiring (entries : List (Nat × String)) : List (Op Nat) :=
  .setBulk entries :: .getBulk [1, 0, 1] :: changing

private theorem keys_expiring {k : Nat}
    (hk : k ∈ (expiring [(0, "1"), (1, "2")]).flatMap Op.keys) : k = 0 ∨ k = 1 := by
  simp [expiring, changing, Op.keys] at hk
  omega

/-- Whatever its mappers are shown, the program writes two keys and short values. -/
private theorem comparable_expiring :
    Comparable letter shortLived 2 (expiring [(0, "1"), (1, "2")]) where
  ttl := rfl
  expiration := rfl
  pos := by decide
  fits := .inl (by decide)
  plain := rfl
  valid k hk := by
    rcases keys_expiring hk with rfl | rfl <;> rfl
  injective k hk k' hk' heq := by
    rcases keys_expiring hk with rfl | rfl <;> rcases keys_expiring hk' with rfl | rfl <;>
      revert heq <;> decide
  roomy := by
    have hsub : ((localTrace (.start (.ofConfig shortLived))
        (expiring [(0, "1"), (1, "2")])).flatMap fun p => p.1.written p.2) ⊆ [0, 1] := by
      intro k hk
      obtain ⟨⟨op, answer⟩, hp, hk⟩ := List.mem_flatMap.1 hk
      have hkey := keys_expiring
        (List.mem_flatMap.2 ⟨op, mem_localTrace hp, op.written_subset answer hk⟩)
      simpa using hkey
    exact Store.length_eraseDups_le hsub
  small p hp v hv := by
    have hop := mem_localTrace hp
    obtain ⟨op, answer⟩ := p
    simp only [expiring, changing, List.mem_cons, List.not_mem_nil, or_false] at hop
    -- A mapper answers with one of its own values, whatever it is shown.
    have hshort : v ∈ ["x", "y", "1", "2"] := by
      rcases hop with rfl | rfl | rfl | rfl | rfl | rfl | rfl | rfl | rfl | rfl <;>
        cases answer <;> simp_all [Op.encoded]
    have hsizes : ∀ v ∈ ["x", "y", "1", "2"], (Json.encode v).size ≤ maxValueSize := by decide
    exact hsizes v hshort

/-- The two entries that the program has written remotely. -/
private def written : Site where
  now := 0
  server := (({} : Server).put 0 "b" 2 (Json.encode "2")).put 0 "a" 2 (Json.encode "1")

private theorem set_short {k : Nat} {v : String} (s : Server)
    (hkey : Key.check (letter k) = .ok ()) (hsmall : (Json.encode v).size ≤ maxValueSize) :
    (RemoteCache.ofConfig letter shortLived).set s 0 k v =
      s.set 0 (letter k) 2 (Json.encode v) := by
  let c : RemoteCache Nat String := .ofConfig letter shortLived
  have hencode : c.encode v = .ok (Json.encode v) := by
    have hjson : c.transcoder.encode v = .ok (Json.encode v) := rfl
    rw [RemoteCache.encode_eq hjson, if_neg (Nat.not_lt.2 hsmall)]
  have hmillis : c.expirationMillis = 2 := by decide
  rw [RemoteCache.set_eq (c := c) s 0 (RemoteCache.wireKey_of_check hkey) hencode, hmillis]
  rfl

/-- What a new remote cache answers to the program. -/
private theorem answers_expiring :
    ∃ accepted found,
      (remoteTrace (.ofConfig letter shortLived) {} (expiring [(1, "2"), (0, "1")])).map Prod.snd =
        [.accepted (.ok accepted), .found (.ok found), .updated (.ok true) [some "1"], .nothing,
          .value (.ok (some "y")), .nothing, .value (.ok none), .done (.ok false), .done (.ok true),
          .updated (.ok false) [some "x"]] ∧
      (accepted 0 = some true ∧ accepted 1 = some true) ∧
      found 0 = some "1" ∧ found 1 = some "2" := by
  let c : RemoteCache Nat String := .ofConfig letter shortLived
  let both : Std.HashMap Nat Bool := .ofList [(1, true), (0, true)]
  have hset : c.setBulk {} 0 [(1, "2"), (0, "1")] = (.ok both, written.server) := by
    simp only [RemoteCache.setBulk, RemoteCache.setEach, c,
      set_short {} (show Key.check (letter 1) = .ok () from rfl)
        (show (Json.encode "2").size ≤ maxValueSize by decide)]
    rw [show ({} : Server).set 0 (letter 1) 2 (Json.encode "2") =
        (.ok true, ({} : Server).put 0 "b" 2 (Json.encode "2")) from rfl]
    simp only [set_short _ (show Key.check (letter 0) = .ok () from rfl)
        (show (Json.encode "1").size ≤ maxValueSize by decide)]
    rfl
  have hzero : c.get written.server 0 0 = .ok (some "1") := by cbv
  have hone : c.get written.server 0 1 = .ok (some "2") := by cbv
  -- The map of a bulk read is not computed; its values are those of the single reads.
  have hreads : ∀ k ∈ [1, 0, 1], ∃ v, c.get written.server 0 k = .ok v := by
    intro k hk
    rcases (by simpa using hk : k = 1 ∨ k = 0 ∨ k = 1) with rfl | rfl | rfl
    · exact ⟨_, hone⟩
    · exact ⟨_, hzero⟩
    · exact ⟨_, hone⟩
  obtain ⟨m, hm, hall, -⟩ := RemoteCache.getBulk_of_get hreads
  -- From here on no answer is a map, and the rest of the program can be run.
  have hrest : (remoteTrace c written changing).map Prod.snd =
      [.updated (.ok true) [some "1"], .nothing, .value (.ok (some "y")), .nothing,
        .value (.ok none), .done (.ok false), .done (.ok true),
        .updated (.ok false) [some "x"]] := by
    cbv
  have hfirst : performRemote c {} (.setBulk [(1, "2"), (0, "1")]) =
      (.accepted (.ok fun k => both[k]?), written) := by
    simp only [performRemote, Site.request]
    rw [hset]
    rfl
  have hsecond : performRemote c written (.getBulk [1, 0, 1]) =
      (.found (.ok fun k => m[k]?), written) := by
    simp only [performRemote]
    rw [show written.now = 0 from rfl, hm]
    rfl
  have hboth {k : Nat} (hk : (k, true) ∈ [(1, true), (0, true)]) : both[k]? = some true :=
    Std.HashMap.getElem?_ofList_of_mem (beq_self_eq_true k) (by decide) hk
  refine ⟨fun k => both[k]?, fun k => m[k]?, ?_, ⟨hboth (by decide), hboth (by decide)⟩, ?_, ?_⟩
  · rw [expiring, remoteTrace, List.map_cons, hfirst, remoteTrace, List.map_cons, hsecond, hrest]
  · exact Except.ok.inj ((hall 0 (by decide)).symm.trans hzero)
  · exact Except.ok.inj ((hall 1 (by decide)).symm.trans hone)

/-- The program with its entries in the one order and in the other one. -/
theorem same_answers_expiring :
    Comparable letter shortLived 2 (expiring [(0, "1"), (1, "2")]) ∧
    List.Forall₂ Op.Same (expiring [(0, "1"), (1, "2")]) (expiring [(1, "2"), (0, "1")]) ∧
    (localTrace (.start (.ofConfig shortLived)) (expiring [(0, "1"), (1, "2")])).map Prod.snd =
      (remoteTrace (.ofConfig letter shortLived) {} (expiring [(1, "2"), (0, "1")])).map
        Prod.snd ∧
    ∃ accepted found,
      (localTrace (.start (.ofConfig shortLived)) (expiring [(0, "1"), (1, "2")])).map Prod.snd =
        [.accepted (.ok accepted), .found (.ok found), .updated (.ok true) [some "1"], .nothing,
          .value (.ok (some "y")), .nothing, .value (.ok none), .done (.ok false), .done (.ok true),
          .updated (.ok false) [some "x"]] ∧
      (accepted 0 = some true ∧ accepted 1 = some true) ∧
      found 0 = some "1" ∧ found 1 = some "2" := by
  have hsame : List.Forall₂ Op.Same (expiring [(0, "1"), (1, "2")])
      (expiring [(1, "2"), (0, "1")]) := by
    have hswap : [(0, "1"), (1, "2")].Perm [(1, "2"), (0, "1")] := .swap _ _ _
    refine .cons (.entries (by decide) hswap) <| .cons (.same _ nofun) <|
      .cons (.same _ nofun) <| .cons (.same _ nofun) <| .cons (.same _ nofun) <|
      .cons (.same _ nofun) <| .cons (.same _ nofun) <| .cons (.same _ nofun) <|
      .cons (.same _ nofun) <| .cons (.same _ nofun) .nil
  have hanswers := same_answers comparable_expiring hsame
  obtain ⟨accepted, found, hremote, hall⟩ := answers_expiring
  exact ⟨comparable_expiring, hsame, hanswers, accepted, found, hanswers.trans hremote, hall⟩

end Contract

end CacheLayer
