import CacheLayer.Proofs.Store.Run
/-!
# Caches as lists

A bounded cache with expiry in the plainest form: one list of entries with their keys, the one
touched longest ago first. An entry that has reached the time to live is as good as absent, and it
is dropped when an operation looks at its key. Writes and successful reads move a key to the end.
When a key that is not there meets a full list, the first entry goes.

## Key results

- `Lineup.find?_without`, `Lineup.find?_push`: what is found after a change
- `Lineup.find?_eq_some_iff`: what is found is what is listed
-/

namespace CacheLayer

/-- A cache as a list. -/
structure Lineup (κ ν : Type) where
  /-- The entries, the one touched longest ago first. -/
  items : List (κ × Entry ν)
  capacity : Nat
  ttl : Nat
  nextVersion : Nat

namespace Lineup

variable {κ ν : Type}

/-- The empty cache. A cache for no entries holds one. -/
def ofLimits (maxEntries ttl : Nat) : Lineup κ ν := ⟨[], max 1 maxEntries, ttl, 1⟩

/-- Drops all expired entries. -/
def sweep (l : Lineup κ ν) (now : Nat) : Lineup κ ν :=
  { l with items := l.items.filter fun p => !decide (p.2.Expired l.ttl now) }

variable [BEq κ]

/-- The entry of a key. -/
def find? (l : Lineup κ ν) (k : κ) : Option (Entry ν) := l.items.lookup k

/-- The entry of a key unless it is expired. -/
def live? (l : Lineup κ ν) (now : Nat) (k : κ) : Option (Entry ν) :=
  (l.find? k).filter fun e => !decide (e.Expired l.ttl now)

/-- Drops the entry of a key. -/
def without (l : Lineup κ ν) (k : κ) : Lineup κ ν :=
  { l with items := l.items.filter fun p => p.1 != k }

/-- Drops the entry of a key unless it is live. -/
def look (l : Lineup κ ν) (now : Nat) (k : κ) : Lineup κ ν :=
  if (l.live? now k).isSome then l else l.without k

/-- Puts an entry at the end, in the place of an earlier one of its key. -/
def push (l : Lineup κ ν) (k : κ) (e : Entry ν) : Lineup κ ν :=
  { l with items := (l.without k).items ++ [(k, e)] }

/-- Drops the first entry if a key is not there and the list is full. -/
def makeRoom (l : Lineup κ ν) (k : κ) : Lineup κ ν :=
  if (l.find? k).isSome ∨ l.items.length < l.capacity then l else { l with items := l.items.tail }

/-- Writes the value of a key. -/
def put (l : Lineup κ ν) (now : Nat) (k : κ) (v : ν) : Lineup κ ν :=
  { (l.makeRoom k).push k ⟨v, now, l.nextVersion⟩ with nextVersion := l.nextVersion + 1 }

/-- Writes the value of a key on a condition, after a look at the key. -/
def putIf (l : Lineup κ ν) (now : Nat) (k : κ) (v : ν) (condition : Bool) :
    Store.Answer ν × Lineup κ ν :=
  if condition then (.done true, (l.look now k).put now k v) else (.done false, l.look now k)

/-- Carries an operation out. -/
def perform [BEq ν] (l : Lineup κ ν) (now : Nat) : Store.Op κ ν → Store.Answer ν × Lineup κ ν
  | .get k =>
    match l.live? now k with
    | some e => (.value (some e.value), l.push k e)
    | none => (.value none, l.look now k)
  | .peek k => (.value ((l.live? now k).map Entry.value), l.look now k)
  | .peekVersioned k =>
    (.versioned ((l.live? now k).map fun e => (e.value, e.version)), l.look now k)
  | .set k v => (.nothing, l.put now k v)
  | .setIfAbsent k v => l.putIf now k v (l.live? now k).isNone
  | .compareAndSet k expected v =>
    l.putIf now k v ((l.live? now k).map Entry.value == expected)
  | .setIfVersion k expected v =>
    l.putIf now k v (decide ((l.live? now k).map Entry.version = expected))
  | .delete k => (.done (l.live? now k).isSome, l.without k)
  | .sweep => (.count (l.items.length - (l.sweep now).items.length), l.sweep now)

/-- The list after operations. -/
def run [BEq ν] (l : Lineup κ ν) (ops : List (Nat × Store.Op κ ν)) : Lineup κ ν :=
  ops.foldl (fun l p => (l.perform p.1 p.2).2) l

/-- The answers of operations and the numbers of entries after them. -/
def answers [BEq ν] (l : Lineup κ ν) : List (Nat × Store.Op κ ν) → List (Store.Answer ν × Nat)
  | [] => []
  | (now, op) :: ops => ((l.perform now op).1, (l.perform now op).2.items.length) ::
    (l.perform now op).2.answers ops

/-! ## What is found -/

variable [LawfulBEq κ]

/-- A key that was dropped is not found any more; the others are. -/
theorem find?_without (l : Lineup κ ν) (k k' : κ) :
    (l.without k).find? k' = if k' == k then none else l.find? k' := by
  obtain ⟨items, capacity, ttl, nextVersion⟩ := l
  simp only [find?, without]
  induction items with
  | nil => simp
  | cons p items ih =>
    obtain ⟨key, e⟩ := p
    simp only [List.filter_cons]
    by_cases hkey : key = k
    · -- This entry is dropped, and so are all others of its key.
      subst hkey
      by_cases hk : k' = key
      · subst hk
        simpa using ih
      · have hk' : (k' == key) = false := by simpa using hk
        simpa [List.lookup_cons, hk'] using ih
    · have hkey' : (key != k) = true := by simpa using hkey
      rw [if_pos hkey', List.lookup_cons, List.lookup_cons, ih]
      by_cases hk : k' = key
      · subst hk
        simp [hkey]
      · have hk' : (k' == key) = false := by simpa using hk
        simp [hk']

/-- Dropping a key that is not there changes nothing. -/
theorem without_of_find?_eq_none {l : Lineup κ ν} {k : κ} (h : l.find? k = none) :
    l.without k = l := by
  obtain ⟨items, capacity, ttl, nextVersion⟩ := l
  simp only [find?, List.lookup_eq_none_iff] at h
  simp only [without, mk.injEq, and_true, List.filter_eq_self, bne_iff_ne]
  intro p hp hkey
  have hne := bne_iff_ne.1 (h p hp)
  exact hne hkey.symm

/-- Dropping the first key leaves the rest. -/
theorem without_of_cons {l : Lineup κ ν} (h : (l.items.map Prod.fst).Nodup) {k : κ} {e : Entry ν}
    {items : List (κ × Entry ν)} (hl : l.items = (k, e) :: items) :
    l.without k = { l with items := items } := by
  rw [hl, List.map_cons, List.nodup_cons] at h
  have hrest : items.filter (fun p => p.1 != k) = items := by
    rw [List.filter_eq_self]
    intro p hp
    rw [bne_iff_ne]
    intro hkey
    exact h.1 (List.mem_map.2 ⟨p, hp, hkey⟩)
  rw [without, hl, List.filter_cons_of_neg (by simp), hrest]

/-- The entry that was put at the end is found; the others are as before. -/
theorem find?_push (l : Lineup κ ν) (k k' : κ) (e : Entry ν) :
    (l.push k e).find? k' = if k' == k then some e else l.find? k' := by
  have hwithout := find?_without l k k'
  simp only [find?] at hwithout
  simp only [find?, push, List.lookup_append, hwithout, List.lookup_cons, List.lookup_nil]
  cases k' == k with
  | true => rfl
  | false => simp

/-- What is found is what is listed. -/
theorem find?_eq_some_iff {l : Lineup κ ν} (h : (l.items.map Prod.fst).Nodup) {k : κ}
    {e : Entry ν} : l.find? k = some e ↔ (k, e) ∈ l.items := by
  obtain ⟨items, capacity, ttl, nextVersion⟩ := l
  simp only [find?] at h ⊢
  induction items with
  | nil => simp
  | cons p items ih =>
    obtain ⟨key, e'⟩ := p
    rw [List.map_cons, List.nodup_cons] at h
    rw [List.lookup_cons, List.mem_cons, Prod.mk.injEq]
    by_cases hk : k = key
    · -- No later entry has the key of the first one.
      subst hk
      have hfree : (k, e) ∉ items := fun hmem => h.1 (List.mem_map.2 ⟨(k, e), hmem, rfl⟩)
      simp [hfree, eq_comm]
    · have hk' : (k == key) = false := by simpa using hk
      simp [hk, hk', ih h.2]

end Lineup

end CacheLayer
