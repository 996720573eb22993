import CacheLayer.Proofs.Remote.Exchange
import CacheLayer.Proofs.Remote.ReadBack
/-!
# What is put on the wire

A remote cache checks keys and values before it asks the server for anything, whatever translates
its keys and encodes its values. So the items of a server that only this cache uses have acceptable
keys and are small enough, an operation of one key that fails leaves no trace, and of the entries of
a bulk write those that are in order are written, whatever becomes of the others.

## Key results

- `Key.check_eq_ok_iff`: which keys are acceptable
- `Effect`: what an operation of one key can do to the server
- `RemoteCache.bulkWrite_setBulk`: what becomes of the entries of a bulk write
- `Wire.clean_and_traceless`: what holds of all runs
-/

namespace CacheLayer.Remote

open Text

/-! ## What may be stored -/

/-- What may be a key on the wire. -/
structure Key.Acceptable (key : String) : Prop where
  pos : 0 < key.utf8ByteSize
  short : key.utf8ByteSize ≤ 250
  plain : ∀ c ∈ key.toList, isBlank c = false ∧ isControl c = false

/-- The check lets acceptable keys pass and no others. -/
theorem Key.check_eq_ok_iff {key : String} : Key.check key = .ok () ↔ Key.Acceptable key := by
  have hfault : Key.check key = .ok () ↔ Key.fault? key = none := by
    rw [Key.check]
    cases Key.fault? key <;> simp
  have hplain : ¬ (key.toList.any fun c => isBlank c || isControl c) = true ↔
      ∀ c ∈ key.toList, isBlank c = false ∧ isControl c = false := by
    simp
  rw [hfault, Key.fault?]
  constructor
  · intro h
    split at h
    · simp at h
    · split at h
      · simp at h
      · next hempty hlong =>
        split at h
        · simp at h
        · next hbad =>
          simp only [maxLength] at hlong
          exact ⟨by omega, by omega, hplain.1 hbad⟩
  · intro h
    have hpos := h.pos
    have hshort := h.short
    rw [if_neg (by omega), if_neg (by simp only [maxLength]; omega), if_neg (hplain.2 h.plain)]

namespace Server

/-- Whether all items have acceptable keys and few enough bytes. -/
def Clean (s : Server) : Prop :=
  ∀ key i, s.items[key]? = some i → Key.Acceptable key ∧ i.data.size ≤ maxValueSize

/-- Whether two servers have the same items, and have given the same tokens. -/
structure Untouched (s s' : Server) : Prop where
  items : s'.items = s.items
  lastToken : s'.lastToken = s.lastToken

variable {s s' s'' : Server}

theorem Untouched.refl (s : Server) : Untouched s s := ⟨rfl, rfl⟩

theorem Untouched.trans (h : Untouched s s') (h' : Untouched s' s'') : Untouched s s'' :=
  ⟨h'.items.trans h.items, h'.lastToken.trans h.lastToken⟩

theorem Clean.empty : ({} : Server).Clean := by
  simp [Clean]

theorem Clean.untouched (hs : s.Clean) (h : Untouched s s') : s'.Clean := by
  intro key i hi
  exact hs key i (h.items ▸ hi)

theorem Clean.put (hs : s.Clean) {key : String} (hkey : Key.Acceptable key) {data : ByteArray}
    (hdata : data.size ≤ maxValueSize) (now expiration : Nat) :
    (s.put now key expiration data).Clean := by
  intro key' i hi
  simp only [Server.put, Std.HashMap.getElem?_insert, beq_iff_eq] at hi
  split at hi
  · next heq =>
    obtain rfl := Option.some.inj hi
    exact ⟨heq ▸ hkey, hdata⟩
  · exact hs key' i hi

theorem Clean.erase (hs : s.Clean) (key : String) :
    ({ s with items := s.items.erase key } : Server).Clean := by
  intro key' i hi
  simp only [Std.HashMap.getElem?_erase] at hi
  split at hi
  · simp at hi
  · exact hs key' i hi

end Server

/-! ## What an operation of one key can do -/

/-- What an operation of one key can do to the server, with the answer it gives. -/
inductive Effect (s : Server) : Outcome Bool → Server → Prop where
  | rest {s' : Server} (answer : Outcome Bool) : s.Untouched s' → Effect s answer s'
  /-- The server may have become unavailable or available before the item is put. -/
  | put {s' : Server} (now : Nat) {key : String} (expiration : Nat) {data : ByteArray} :
    s.Untouched s' → Key.Acceptable key → data.size ≤ maxValueSize →
    Effect s (.ok true) (s'.put now key expiration data)
  | drop (key : String) (was : Bool) : Effect s (.ok was) { s with items := s.items.erase key }

namespace Effect

variable {s s' : Server} {answer : Outcome Bool}

theorem clean (h : Effect s answer s') (hs : s.Clean) : s'.Clean := by
  cases h with
  | rest _ hsame => exact hs.untouched hsame
  | put now expiration hsame hkey hdata => exact (hs.untouched hsame).put hkey hdata now expiration
  | drop key was => exact hs.erase key

/-- An operation that fails leaves no trace. -/
theorem untouched {e : CacheError} (h : Effect s (.error e) s') : s.Untouched s' := by
  cases h with
  | rest _ hsame => exact hsame

end Effect

namespace RemoteCache

variable {κ ν : Type} {c : RemoteCache κ ν} {k : κ}

/-- A wire key is acceptable. -/
theorem acceptable_of_wireKey {wire : String} (h : c.wireKey k = .ok wire) :
    Key.Acceptable wire := by
  apply Key.check_eq_ok_iff.1
  rw [wireKey] at h
  cases hcheck : Key.check (c.translate k) with
  | error e => rw [hcheck] at h; cases h
  | ok u => rw [hcheck] at h; exact Except.ok.inj h ▸ hcheck

/-- What is encoded has few enough bytes, and is what the transcoder has made of the value. -/
theorem of_encode {v : ν} {data : ByteArray} (h : c.encode v = .ok data) :
    data.size ≤ maxValueSize ∧ c.transcoder.encode v = .ok data := by
  cases hdata : c.transcoder.encode v with
  | error e => rw [encode, hdata] at h; cases h
  | ok data' =>
    rw [encode_eq hdata] at h
    split at h
    · cases h
    · next hsmall =>
      obtain rfl := Except.ok.inj h
      exact ⟨by omega, rfl⟩

/-- A write is refused without a look at the items, or it puts its item. -/
theorem set_cases (c : RemoteCache κ ν) (now : Nat) (k : κ) (v : ν) (unavailable : Bool) :
    (∃ e, ∀ s : Server, s.unavailable = unavailable → c.set s now k v = (.error e, s)) ∨
    ∃ data, Key.Acceptable (c.translate k) ∧ data.size ≤ maxValueSize ∧
      c.transcoder.encode v = .ok data ∧ ∀ s : Server, s.unavailable = unavailable →
        c.set s now k v = (.ok true, s.put now (c.translate k) c.expirationMillis data) := by
  cases hkey : c.wireKey k with
  | error e => exact .inl ⟨e, fun s _ => by rw [set, hkey]; rfl⟩
  | ok wire =>
    obtain rfl := wireKey_eq hkey
    cases henc : c.encode v with
    | error e => exact .inl ⟨e, fun s _ => by rw [set, hkey, henc]; rfl⟩
    | ok data =>
      obtain ⟨hsmall, hdata⟩ := of_encode henc
      cases unavailable with
      | true =>
        left
        refine ⟨Server.refusal, fun s hs => ?_⟩
        rw [set_eq s now hkey henc, Server.set, Server.writing_of_unavailable hs]
      | false =>
        right
        refine ⟨data, acceptable_of_wireKey hkey, hsmall, hdata, fun s hs => ?_⟩
        simp [set_eq s now hkey henc, Server.set, Server.writing, hs]

theorem effect_set (c : RemoteCache κ ν) (s : Server) (now : Nat) (k : κ) (v : ν) :
    Effect s (c.set s now k v).1 (c.set s now k v).2 := by
  rcases c.set_cases now k v s.unavailable with ⟨e, hset⟩ | ⟨data, hkey, hsmall, -, hset⟩
  · rw [hset s rfl]
    exact .rest _ (.refl s)
  · rw [hset s rfl]
    exact .put now _ (.refl s) hkey hsmall

theorem effect_delete (c : RemoteCache κ ν) (s : Server) (now : Nat) (k : κ) :
    Effect s (c.delete s now k).1 (c.delete s now k).2 := by
  rw [delete]
  cases c.wireKey k with
  | error e => exact .rest _ (.refl s)
  | ok wire =>
    simp only [Server.delete, Server.writing]
    split
    · exact .rest _ (.refl s)
    · exact .drop wire _

/-- The write of an attempt puts an item and so ends the update, or it does nothing. -/
private theorem updateWrite_cases (c : RemoteCache κ ν) (now : Nat) (wire : String)
    (token? : Option Nat) (v : ν) (s : Server) :
    (∃ r, c.updateWrite now wire token? v s = (r, s)) ∨
    ∃ data, data.size ≤ maxValueSize ∧ c.updateWrite now wire token? v s =
      (.ok (some true), s.put now wire c.expirationMillis data) := by
  cases henc : c.encode v with
  | error e =>
    left
    refine ⟨.error e, ?_⟩
    simp only [updateWrite, henc, bind, Except.bind, send]
  | ok data =>
    rw [updateWrite_of_encode s now token? henc]
    split
    · exact .inl ⟨_, rfl⟩
    · split
      · exact .inr ⟨data, (of_encode henc).1, rfl⟩
      · exact .inl ⟨_, rfl⟩

/-- An update puts an item at most, in its last attempt. What happens while the mapper is called
must not do anything to the items. -/
private theorem effect_run {wire : String} (hwire : Key.Acceptable wire) (f : Mapper ν)
    {meanwhile : Nat → Site → Site}
    (hmeanwhile : ∀ i (s : Site), s.server.Untouched (meanwhile i s).server) (attempts i : Nat)
    (s₀ : Server) (s : Site) (hs : s₀.Untouched s.server) :
    Effect s₀ ((c.updater wire).run f meanwhile attempts i s).1
      ((c.updater wire).run f meanwhile attempts i s).2.2.server := by
  induction attempts generalizing i s with
  | zero => exact .rest _ hs
  | succ attempts ih =>
    -- A read does nothing to the site, and what happens meanwhile nothing to the items.
    let r := c.updateRead s.now wire s.server
    let site := if (shown r).isEmpty then s else meanwhile i s
    have hsite : s₀.Untouched site.server := by
      simp only [site]
      split
      · exact hs
      · exact hs.trans (hmeanwhile i s)
    have hread : (c.updater wire).read s = (r, s) := rfl
    simp only [Updater.run, hread]
    cases hafter : Update.afterRead f attempts r with
    | done answer => exact .rest _ hsite
    | toRead left => exact .rest _ hsite
    | toWrite left token? v =>
      have hwrite : (c.updater wire).write token? v site =
          ((c.updateWrite site.now wire token? v site.server).1,
            ⟨site.now, (c.updateWrite site.now wire token? v site.server).2⟩) := rfl
      -- The attempt fails or ends without a write, goes on to the next one, or puts the item.
      rcases c.updateWrite_cases site.now wire token? v site.server with
        ⟨e | b?, hcases⟩ | ⟨data, hsmall, hcases⟩
      · simp only [site, r] at hwrite hcases
        simp only [r, hwrite, hcases]
        exact .rest _ hsite
      · simp only [site, r] at hwrite hcases
        cases b? with
        | none =>
          simp only [r, hwrite, hcases]
          exact ih (i + 1) site hsite
        | some b =>
          simp only [r, hwrite, hcases]
          exact .rest _ hsite
      · simp only [site, r] at hwrite hcases
        simp only [r, hwrite, hcases]
        exact .put _ _ hsite hwire hsmall

theorem effect_update (c : RemoteCache κ ν) (k : κ) (f : Mapper ν) {meanwhile : Nat → Site → Site}
    (hmeanwhile : ∀ i (s : Site), s.server.Untouched (meanwhile i s).server) (attempts : Nat)
    (s : Site) :
    Effect s.server (c.update k f meanwhile attempts s).1
      (c.update k f meanwhile attempts s).2.2.server := by
  rw [update]
  cases hkey : c.wireKey k with
  | error e => exact .rest _ (.refl _)
  | ok wire => exact effect_run (acceptable_of_wireKey hkey) f hmeanwhile attempts 0 _ s (.refl _)

/-! ## Bulk writes -/

/-- Puts an item for each pair of a wire key and bytes, in order. -/
def putAll (c : RemoteCache κ ν) (now : Nat) (s : Server) (pairs : List (String × ByteArray)) :
    Server :=
  pairs.foldl (fun s p => s.put now p.1 c.expirationMillis p.2) s

/-- Whether an entry is accepted when it is written by itself. -/
def accepts (c : RemoteCache κ ν) (s : Server) (now : Nat) (e : κ × ν) : Bool :=
  (c.set s now e.1 e.2).1.isOk

/-- An entry is accepted if its wire key is acceptable, the server is there, and its value is
encoded in few enough bytes. -/
theorem accepts_iff (c : RemoteCache κ ν) (s : Server) (now : Nat) (e : κ × ν) :
    c.accepts s now e = true ↔
      Key.Acceptable (c.translate e.1) ∧ s.unavailable = false ∧
        ∃ data, c.transcoder.encode e.2 = .ok data ∧ data.size ≤ maxValueSize := by
  have hset : c.accepts s now e = true ↔ ∃ s', c.set s now e.1 e.2 = (.ok true, s') := by
    rw [accepts]
    rcases c.set_cases now e.1 e.2 s.unavailable with ⟨x, hset⟩ | ⟨data, -, -, -, hset⟩
    · simp [hset s rfl, Except.isOk, Except.toBool]
    · simp [hset s rfl, Except.isOk, Except.toBool]
  have hkey : c.wireKey e.1 = .ok (c.translate e.1) ↔ Key.Acceptable (c.translate e.1) :=
    ⟨acceptable_of_wireKey, fun h => wireKey_of_check (Key.check_eq_ok_iff.2 h)⟩
  rw [hset, exists_set_iff, hkey]

/-- What an entry puts: its wire key, and its value as it is encoded. -/
def Posts (c : RemoteCache κ ν) (e : κ × ν) (p : String × ByteArray) : Prop :=
  p.1 = c.translate e.1 ∧ c.transcoder.encode e.2 = .ok p.2

/-- Entries are written one by one as each is written by itself: the accepted ones are put, in
order, and the others change nothing. -/
theorem setEach_eq_putAll (c : RemoteCache κ ν) (s : Server) (now : Nat) (entries : List (κ × ν)) :
    (c.setEach now entries s).1 = entries.map (fun e => (e.1, (c.set s now e.1 e.2).1)) ∧
    ∃ pairs, List.Forall₂ c.Posts (entries.filter (c.accepts s now)) pairs ∧
      (c.setEach now entries s).2 = c.putAll now s pairs := by
  -- What was put before changes the items but not what the server is ready for.
  have hfrom : ∀ t : Server, t.unavailable = s.unavailable →
      (c.setEach now entries t).1 = entries.map (fun e => (e.1, (c.set s now e.1 e.2).1)) ∧
      ∃ pairs, List.Forall₂ c.Posts (entries.filter (c.accepts s now)) pairs ∧
        (c.setEach now entries t).2 = c.putAll now t pairs := by
    induction entries with
    | nil => exact fun t _ => ⟨rfl, [], .nil, rfl⟩
    | cons e entries ih =>
      intro t ht
      rcases c.set_cases now e.1 e.2 s.unavailable with ⟨x, hset⟩ | ⟨data, -, -, hdata, hset⟩
      · obtain ⟨hanswers, pairs, hpairs, hserver⟩ := ih t ht
        -- A refused entry changes nothing, and is not among the accepted ones.
        have hrefuses : c.accepts s now e = false := by rw [accepts, hset s rfl]; rfl
        refine ⟨?_, pairs, ?_, ?_⟩
        · simp only [setEach, hset t ht, List.map_cons, hset s rfl, hanswers]
        · rw [List.filter_cons_of_neg (by simp [hrefuses])]
          exact hpairs
        · simp only [setEach, hset t ht, hserver]
      · -- An accepted entry is put before the others are written.
        let t' := t.put now (c.translate e.1) c.expirationMillis data
        obtain ⟨hanswers, pairs, hpairs, hserver⟩ := ih t' ht
        have haccepts : c.accepts s now e = true := by rw [accepts, hset s rfl]; rfl
        refine ⟨?_, (c.translate e.1, data) :: pairs, ?_, ?_⟩
        · simp only [setEach, hset t ht, List.map_cons, hset s rfl]
          rw [hanswers]
        · rw [List.filter_cons_of_pos haccepts]
          exact .cons ⟨rfl, hdata⟩ hpairs
        · simp only [setEach, hset t ht]
          exact hserver
  exact hfrom s rfl

/-- The items of a bulk write have acceptable keys and are small enough, like all others. -/
theorem clean_setEach (c : RemoteCache κ ν) {s : Server} (hs : s.Clean) (now : Nat)
    (entries : List (κ × ν)) : (c.setEach now entries s).2.Clean := by
  induction entries generalizing s with
  | nil => exact hs
  | cons e entries ih => exact ih ((c.effect_set s now e.1 e.2).clean hs)

variable [BEq κ] [Hashable κ]

/-- What becomes of the entries of a bulk write: the answer and the server after it. -/
inductive BulkWrite (c : RemoteCache κ ν) (s : Server) (now : Nat) (entries : List (κ × ν)) :
    Outcome (Std.HashMap κ Bool) → Server → Prop where
  /-- Every entry is refused. There is one error for each of them. -/
  | refused (errors : List CacheError) : entries ≠ [] →
    errors.map Except.error = entries.map (fun e => (c.set s now e.1 e.2).1) →
    BulkWrite c s now entries (.error (.aggregate errors)) s
  /-- The accepted entries are put and answered for, and no others. -/
  | written (m : Std.HashMap κ Bool) (pairs : List (String × ByteArray)) :
    entries = [] ∨ (∃ e ∈ entries, c.accepts s now e) →
    (∀ k b, m[k]? = some b ↔ ∃ v, (k, v) ∈ entries ∧ (c.set s now k v).1 = .ok b) →
    List.Forall₂ c.Posts (entries.filter (c.accepts s now)) pairs →
    BulkWrite c s now entries (.ok m) (c.putAll now s pairs)

/-- A bulk write of different keys does for each entry what a write by itself does, and fails if
that fails for all of them. -/
theorem bulkWrite_setBulk [LawfulBEq κ] (c : RemoteCache κ ν) (s : Server) (now : Nat)
    {entries : List (κ × ν)} (hnodup : (entries.map Prod.fst).Nodup) :
    BulkWrite c s now entries (c.setBulk s now entries).1 (c.setBulk s now entries).2 := by
  obtain ⟨hanswers, pairs, hpairs, hserver⟩ := c.setEach_eq_putAll s now entries
  simp only [setBulk, hanswers, hserver]
  let batch := entries.map fun e => (e.1, (c.set s now e.1 e.2).1)
  have hdistinct : (batch.map Prod.fst).Nodup := by simpa [batch, Function.comp_def] using hnodup
  by_cases hok : entries = [] ∨ ∃ e ∈ entries, c.accepts s now e
  · -- One accepted entry is enough for an answer that is a map.
    obtain ⟨m, hm, hvalues⟩ := gather_of_ok hdistinct (by simpa [batch, accepts] using hok)
    simp only [batch] at hm
    rw [hm]
    apply BulkWrite.written m pairs hok _ hpairs
    intro k b
    rw [hvalues]
    simp only [batch, List.mem_map, Prod.mk.injEq]
    constructor
    · rintro ⟨⟨k, v⟩, he, rfl, hset⟩
      exact ⟨v, he, hset⟩
    · rintro ⟨v, he, hset⟩
      exact ⟨(k, v), he, rfl, hset⟩
  · obtain ⟨hne, hnone⟩ := not_or.1 hok
    have hfailed : ∀ p ∈ batch, p.2.isOk = false :=
      List.forall_mem_map.2 fun e he => Bool.eq_false_iff.2 fun h => hnone ⟨e, he, h⟩
    -- No entry is accepted, so that nothing is put either.
    have hfilter : entries.filter (c.accepts s now) = [] := by
      simpa [List.filter_eq_nil_iff] using hnone
    rw [hfilter] at hpairs
    cases hpairs
    have hbatch : batch ≠ [] := by simpa [batch] using hne
    rw [gather_of_failed hbatch hfailed]
    apply BulkWrite.refused _ hne
    simpa [batch, Function.comp_def] using errorsOf_of_failed hfailed

end RemoteCache

/-! ## Runs -/

namespace Wire

/-- What happens to a site while a cache does not ask for anything. -/
inductive Change where
  /-- Time passes. -/
  | wait (span : Nat)
  /-- The server becomes unavailable or available. -/
  | switch (unavailable : Bool)

/-- The site after a change. -/
def Change.apply (s : Site) : Change → Site
  | wait span => s.advance span
  | switch unavailable => ⟨s.now, { s.server with unavailable := unavailable }⟩

/-- Changes leave the items alone. -/
theorem untouched_changes (s : Site) (changes : List Change) :
    s.server.Untouched (changes.foldl Change.apply s).server := by
  induction changes generalizing s with
  | nil => exact .refl _
  | cons d changes ih =>
    have hfirst : s.server.Untouched (d.apply s).server := by
      cases d <;> exact ⟨rfl, rfl⟩
    exact hfirst.trans (ih (d.apply s))

variable {κ ν : Type}

/-- An operation of a remote cache, or a change between two of them. -/
inductive Op (κ ν : Type) where
  | get (k : κ)
  | getBulk (ks : List κ)
  | set (k : κ) (v : ν)
  | setBulk (entries : List (κ × ν))
  | delete (k : κ)
  /-- While the mapper is called for the `i`-th time, the changes `meanwhile i` happen. -/
  | update (k : κ) (f : Mapper ν) (meanwhile : Nat → List Change) (attempts : Nat)
  | change (d : Change)

/-- The key of an operation of one key. -/
def Op.key? : Op κ ν → Option κ
  | get k => some k
  | set k _ => some k
  | delete k => some k
  | update k _ _ _ => some k
  | _ => none

variable [BEq κ] [Hashable κ]

/-- The answer to an operation. -/
inductive Answer (κ ν : Type) [BEq κ] [Hashable κ] where
  | value (r : Outcome (Option ν))
  | values (r : Outcome (Std.HashMap κ ν))
  | done (r : Outcome Bool)
  | accepted (r : Outcome (Std.HashMap κ Bool))
  | nothing

/-- The error of an operation that has failed. -/
def Answer.error? : Answer κ ν → Option CacheError
  | value (.error e) => some e
  | values (.error e) => some e
  | done (.error e) => some e
  | accepted (.error e) => some e
  | _ => none

/-- Carries an operation out. -/
def perform (c : RemoteCache κ ν) (s : Site) : Op κ ν → Answer κ ν × Site
  | .get k => (.value (c.get s.server s.now k), s)
  | .getBulk ks => (.values (c.getBulk s.server s.now ks), s)
  | .set k v =>
    let (r, s) := s.request fun server now => c.set server now k v
    (.done r, s)
  | .setBulk entries =>
    let (r, s) := s.request fun server now => c.setBulk server now entries
    (.accepted r, s)
  | .delete k =>
    let (r, s) := s.request fun server now => c.delete server now k
    (.done r, s)
  | .update k f meanwhile attempts =>
    let (r, _, s) := c.update k f (fun i s => (meanwhile i).foldl Change.apply s) attempts s
    (.done r, s)
  | .change d => (.nothing, d.apply s)

/-- The site after operations. -/
def run (c : RemoteCache κ ν) (s : Site) (ops : List (Op κ ν)) : Site :=
  ops.foldl (fun s op => (perform c s op).2) s

/-- No operation stores anything that may not be stored. -/
theorem clean_perform (c : RemoteCache κ ν) {s : Site} (hs : s.server.Clean) (op : Op κ ν) :
    (perform c s op).2.server.Clean := by
  cases op with
  | get k => exact hs
  | getBulk ks => exact hs
  | set k v => exact (c.effect_set s.server s.now k v).clean hs
  | setBulk entries => exact c.clean_setEach hs s.now entries
  | delete k => exact (c.effect_delete s.server s.now k).clean hs
  | update k f meanwhile attempts =>
    exact (c.effect_update k f (fun i s => untouched_changes s (meanwhile i)) attempts s).clean hs
  | change d => exact hs.untouched (untouched_changes s [d])

/-- An operation of one key that fails leaves no trace. -/
theorem untouched_perform (c : RemoteCache κ ν) (s : Site) {op : Op κ ν} {k : κ} {e : CacheError}
    (hkey : op.key? = some k) (herror : (perform c s op).1.error? = some e) :
    s.server.Untouched (perform c s op).2.server := by
  have of_effect : ∀ {r : Outcome Bool} {s' : Server}, Effect s.server r s' →
      (Answer.done r : Answer κ ν).error? = some e → s.server.Untouched s' := by
    intro r s' heffect herror
    cases r with
    | ok b => simp [Answer.error?] at herror
    | error e => exact heffect.untouched
  cases op with
  | get k => exact .refl _
  | set k v => exact of_effect (c.effect_set s.server s.now k v) herror
  | delete k => exact of_effect (c.effect_delete s.server s.now k) herror
  | update k f meanwhile attempts =>
    exact of_effect
      (c.effect_update k f (fun i s => untouched_changes s (meanwhile i)) attempts s) herror
  | getBulk ks => simp [Op.key?] at hkey
  | setBulk entries => simp [Op.key?] at hkey
  | change d => simp [Op.key?] at hkey

/-- Whatever is asked of a remote cache on a new server, all items have acceptable keys and are
small enough. An operation of one key that fails changes neither the items nor the count of tokens.
A write is accepted if its key is acceptable, the server is there and its value is encoded in few
enough bytes, and a bulk write of different keys treats each entry like a write by itself. -/
theorem clean_and_traceless [LawfulBEq κ] (c : RemoteCache κ ν) :
    (∀ (now : Nat) (ops : List (Op κ ν)), (run c ⟨now, {}⟩ ops).server.Clean) ∧
    (∀ (s : Site) (op : Op κ ν) (k : κ) (e : CacheError), op.key? = some k →
      (perform c s op).1.error? = some e → s.server.Untouched (perform c s op).2.server) ∧
    (∀ (s : Site) (e : κ × ν), c.accepts s.server s.now e = true ↔
      Key.Acceptable (c.translate e.1) ∧ s.server.unavailable = false ∧
        ∃ data, c.transcoder.encode e.2 = .ok data ∧ data.size ≤ maxValueSize) ∧
    ∀ (s : Site) (entries : List (κ × ν)), (entries.map Prod.fst).Nodup →
      ∃ (answer : Outcome (Std.HashMap κ Bool)) (server : Server),
        perform c s (.setBulk entries) = (.accepted answer, ⟨s.now, server⟩) ∧
        c.BulkWrite s.server s.now entries answer server := by
  refine ⟨fun now ops => ?_, fun s op k e => untouched_perform c s,
    fun s e => c.accepts_iff s.server s.now e, fun s entries hnodup => ?_⟩
  · have hrun : ∀ s : Site, s.server.Clean → (run c s ops).server.Clean := by
      induction ops with
      | nil => exact fun s hs => hs
      | cons op ops ih => exact fun s hs => ih _ (clean_perform c hs op)
    exact hrun ⟨now, {}⟩ .empty
  · exact ⟨_, _, rfl, c.bulkWrite_setBulk s.server s.now hnodup⟩

/-- Values that are numbers and take up so many bytes. -/
def sized : RemoteCache String Nat where
  translate := id
  transcoder := ⟨fun n => .ok ⟨Array.replicate n 0⟩, fun data => .ok data.size⟩
  expiration := 0

/-- A write of a key with a blank leaves no trace. Of an entry with such a key, one with a large
value and one that is in order only the last is answered for and written. -/
theorem clean_and_traceless_sized :
    (∃ e, (perform sized {} (.set "a b" 1)).1.error? = some e ∧
      ({} : Server).Untouched (perform sized {} (.set "a b" 1)).2.server) ∧
    ([("a b", 1), ("c", maxValueSize + 1), ("d", 2)].map Prod.fst).Nodup ∧
      ∃ (m : Std.HashMap String Bool) (server : Server),
        perform sized {} (.setBulk [("a b", 1), ("c", maxValueSize + 1), ("d", 2)]) =
          (.accepted (.ok m), ⟨0, server⟩) ∧
        sized.BulkWrite {} 0 [("a b", 1), ("c", maxValueSize + 1), ("d", 2)] (.ok m) server ∧
        m["d"]? = some true ∧ m["a b"]? = none ∧ m["c"]? = none ∧
        server = ({} : Server).put 0 "d" 0 ⟨Array.replicate 2 0⟩ := by
  obtain ⟨-, htraceless, haccepts, hbulk⟩ := clean_and_traceless sized
  have hdistinct : ([("a b", 1), ("c", maxValueSize + 1), ("d", 2)].map Prod.fst).Nodup := by
    decide
  have herror : (perform sized {} (.set "a b" 1)).1.error? =
      some (.invalidKey (Key.Fault.badCharacter "a b").message) := rfl
  refine ⟨⟨_, herror, htraceless {} _ "a b" _ rfl herror⟩, hdistinct, ?_⟩
  have hblank : sized.accepts {} 0 ("a b", 1) = false := by
    rw [Bool.eq_false_iff, Ne, haccepts {}]
    rintro ⟨hkey, -⟩
    exact absurd (hkey.plain ' ' (by decide)).1 (by decide)
  have hlarge : sized.accepts {} 0 ("c", maxValueSize + 1) = false := by
    rw [Bool.eq_false_iff, Ne, haccepts {}]
    rintro ⟨-, -, data, henc, hsize⟩
    obtain rfl := Except.ok.inj henc
    rw [ByteArray.size, Array.size_replicate] at hsize
    omega
  have hfits : sized.accepts {} 0 ("d", 2) = true :=
    (haccepts {} _).2 ⟨Key.check_eq_ok_iff.1 rfl, rfl, _, rfl, by decide⟩
  obtain ⟨answer, server, hperform, hwrite⟩ := hbulk {} _ hdistinct
  cases hwrite with
  | refused errors _ herrors =>
    -- One of the answers is no error.
    have hmem : (sized.set {} 0 "d" 2).1 ∈ errors.map Except.error := by
      rw [herrors]
      exact List.mem_map_of_mem (a := ("d", 2)) (by simp)
    obtain ⟨x, -, hx⟩ := List.mem_map.1 hmem
    rw [RemoteCache.accepts, ← hx] at hfits
    cases hfits
  | written m pairs hok hvalues hpairs =>
    -- Only `d` is accepted, and so only `d` is put.
    have hwritten := RemoteCache.BulkWrite.written m pairs hok hvalues hpairs
    have hfilter : [("a b", 1), ("c", maxValueSize + 1), ("d", 2)].filter (sized.accepts {} 0) =
        [("d", 2)] := by
      simp only [List.filter_cons, hblank, hlarge, hfits, Bool.false_eq_true, if_false, if_true,
        List.filter_nil]
    have hpairs : List.Forall₂ sized.Posts [("d", 2)] pairs := hfilter ▸ hpairs
    obtain ⟨⟨key, data⟩, rest, ⟨rfl, hdata⟩, hrest, rfl⟩ := List.forall₂_cons_left_iff.1 hpairs
    cases hrest
    obtain rfl := Except.ok.inj hdata
    have hnone {k : String} {v : Nat} (hrefused : sized.accepts {} 0 (k, v) = false)
        (honly : ∀ v', (k, v') ∈ [("a b", 1), ("c", maxValueSize + 1), ("d", 2)] → v' = v) :
        m[k]? = none := by
      refine Option.eq_none_iff_forall_ne_some.2 fun b hb => ?_
      obtain ⟨v', hmem, hset⟩ := (hvalues k b).1 hb
      obtain rfl := honly v' hmem
      rw [RemoteCache.accepts, hset] at hrefused
      cases hrefused
    exact ⟨m, _, hperform, hwritten, (hvalues "d" true).2 ⟨2, by simp, rfl⟩,
      hnone hblank (by simp), hnone hlarge (by simp), rfl⟩

end Wire

end CacheLayer.Remote
