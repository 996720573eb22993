import CacheLayer.Proofs.Store.Lineup
import CacheLayer.Proofs.Store.Recency
import CacheLayer.Proofs.Store.Sweeping
/-!
# A store is a list in the order of last use

A store spreads one list over a table of entries, a table of ticks and an ordered table of keys.
`Store.Holds` says that the three of them show a given list. Every operation carries this on and
gives the answer that the list gives.

## Key results

- `Store.Holds.perform`: one operation on the store is the same operation on the list
- `Store.answers_eq`: no run tells a store from a list
-/

namespace CacheLayer

namespace Store

variable {κ ν : Type} [BEq κ] [Hashable κ]

/-- The tables of a store show a list. -/
structure Holds (s : Store κ ν) (l : Lineup κ ν) : Prop where
  recency : s.recency.WF
  keys : s.recency.keys = l.items.map Prod.fst
  entries : ∀ k, s.entries[k]? = l.find? k
  capacity : s.capacity = l.capacity
  ttl : s.ttl = l.ttl
  nextVersion : s.nextVersion = l.nextVersion

namespace Holds

variable {s : Store κ ν} {l : Lineup κ ν}

/-- An empty store is an empty list. -/
theorem ofLimits (maxEntries ttl : Nat) :
    (Store.ofLimits maxEntries ttl : Store κ ν).Holds (.ofLimits maxEntries ttl) where
  recency := .empty
  keys := rfl
  entries k := by
    rw [Store.ofLimits, Std.HashMap.getElem?_empty]
    rfl
  capacity := rfl
  ttl := rfl
  nextVersion := rfl

/-- The counters do not matter. -/
theorem counters (h : s.Holds l) (c : Stats) : ({ s with counters := c } : Store κ ν).Holds l :=
  ⟨h.recency, h.keys, h.entries, h.capacity, h.ttl, h.nextVersion⟩

/-- No key is listed twice. -/
theorem nodup (h : s.Holds l) : (l.items.map Prod.fst).Nodup :=
  h.keys ▸ Recency.nodup_keys h.recency

variable [LawfulBEq κ]

/-- The table of entries has the listed ones. -/
theorem toList_perm (h : s.Holds l) : s.entries.toList.Perm l.items := by
  have hnodup : s.entries.toList.Nodup := by
    apply Std.HashMap.distinct_keys_toList.imp
    intro p q hne heq
    simp [heq] at hne
  have hnodup' : l.items.Nodup := by
    refine List.Pairwise.of_map Prod.fst ?_ h.nodup
    intro p q hne heq
    exact hne (congrArg Prod.fst heq)
  -- Neither of the two has an entry twice, so that it is enough to have the same ones.
  rw [List.perm_ext_iff_of_nodup hnodup hnodup']
  intro p
  obtain ⟨k, e⟩ := p
  rw [Std.HashMap.mem_toList_iff_getElem?_eq_some, h.entries, Lineup.find?_eq_some_iff h.nodup]

theorem size_eq (h : s.Holds l) : s.size = l.items.length := by
  rw [size, ← Std.HashMap.length_toList]
  exact h.toList_perm.length_eq

/-! ## Dropping and adding entries -/

/-- Dropping a key from the tables drops it from the list. -/
theorem erase (h : s.Holds l) (k : κ) : (s.erase k).Holds (l.without k) where
  recency := h.recency.remove k
  keys := by
    rw [Store.erase, Recency.keys_remove h.recency, h.keys, Lineup.without, List.filter_map]
    rfl
  entries k' := by
    rw [Store.erase, Std.HashMap.getElem?_erase, Lineup.find?_without, h.entries, BEq.comm]
  capacity := h.capacity
  ttl := h.ttl
  nextVersion := h.nextVersion

/-- Writing an entry to the tables and touching its key puts the entry at the end of the list. -/
theorem push (h : s.Holds l) (k : κ) (e : Entry ν) (version : Nat) :
    ({ s with
      entries := s.entries.insert k e
      recency := s.recency.touch k
      nextVersion := version } : Store κ ν).Holds
        { l.push k e with nextVersion := version } where
  recency := h.recency.touch k
  keys := by
    show (s.recency.touch k).keys = (l.push k e).items.map Prod.fst
    rw [Recency.keys_touch h.recency, h.keys, Lineup.push, Lineup.without, List.map_append,
      List.filter_map]
    rfl
  entries k' := by
    show (s.entries.insert k e)[k']? = (l.push k e).find? k'
    rw [Std.HashMap.getElem?_insert, Lineup.find?_push, h.entries, BEq.comm]
  capacity := h.capacity
  ttl := h.ttl
  nextVersion := rfl

/-- Touching a key moves its entry to the end of the list. -/
theorem touch (h : s.Holds l) {k : κ} {e : Entry ν} (hk : l.find? k = some e) :
    ({ s with recency := s.recency.touch k } : Store κ ν).Holds (l.push k e) where
  recency := h.recency.touch k
  keys := (h.push k e l.nextVersion).keys
  entries k' := by
    show s.entries[k']? = _
    rw [Lineup.find?_push, h.entries]
    split
    · next hk' => rw [eq_of_beq hk', hk]
    · rfl
  capacity := h.capacity
  ttl := h.ttl
  nextVersion := h.nextVersion

/-! ## Operations -/

/-- A look at a key finds its live entry and drops an expired one. -/
theorem peekEntry (h : s.Holds l) (now : Nat) (k : κ) :
    (s.peekEntry now k).1 = l.live? now k ∧ (s.peekEntry now k).2.Holds (l.look now k) := by
  have hfind := h.entries k
  rw [Store.peekEntry, Lineup.look, Lineup.live?, ← hfind, h.ttl]
  cases hk : s.entries[k]? with
  | none =>
    rw [hk, eq_comm] at hfind
    refine ⟨rfl, ?_⟩
    -- A key that is not there cannot be dropped either.
    rw [Option.filter_none, Option.isSome_none, if_neg Bool.false_ne_true,
      Lineup.without_of_find?_eq_none hfind]
    exact h
  | some e =>
    by_cases he : e.Expired l.ttl now
    · simp only [he, Option.filter_some, decide_true, Bool.not_true, Bool.false_eq_true, if_false,
        if_true, Option.isSome_none, true_and]
      exact (h.erase k).counters _
    · simp only [he, Option.filter_some, decide_false, Bool.not_false, if_true, if_false,
        Option.isSome_some, true_and]
      exact h

/-- Room is made by dropping the first entry of the list. -/
theorem makeRoom (h : s.Holds l) (k : κ) : (s.makeRoom k).Holds (l.makeRoom k) := by
  have hsize : s.entries.size = l.items.length := h.size_eq
  have hcond : (s.entries.contains k ∨ s.entries.size < s.capacity) ↔
      ((l.find? k).isSome ∨ l.items.length < l.capacity) := by
    rw [Std.HashMap.contains_eq_isSome_getElem?, h.entries, hsize, h.capacity]
  rw [Store.makeRoom, Lineup.makeRoom]
  by_cases hfits : (l.find? k).isSome ∨ l.items.length < l.capacity
  · rw [if_pos hfits, if_pos (hcond.2 hfits)]
    exact h
  · rw [if_neg hfits, if_neg (mt hcond.1 hfits)]
    -- The key to be evicted is the first one of the order, which is the first one of the list.
    have hkeys := h.keys
    cases hitems : l.items with
    | nil =>
      rw [hitems, List.map_nil] at hkeys
      rw [Recency.evictOldest_of_nil hkeys, List.tail_nil, ← hitems]
      exact h
    | cons p items =>
      obtain ⟨victim, e⟩ := p
      rw [hitems, List.map_cons] at hkeys
      rw [Recency.evictOldest_of_cons h.recency hkeys, List.tail_cons,
        ← Lineup.without_of_cons h.nodup hitems]
      exact (h.erase victim).counters s.counters.addEviction

theorem set (h : s.Holds l) (now : Nat) (k : κ) (v : ν) :
    (s.set now k v).Holds (l.put now k v) := by
  have hroom := h.makeRoom k
  -- Making room takes no version.
  have hversion : (s.makeRoom k).nextVersion = l.nextVersion := by
    rw [hroom.nextVersion, Lineup.makeRoom]
    split <;> rfl
  rw [Store.set, Lineup.put, hversion]
  exact hroom.push k ⟨v, now, l.nextVersion⟩ (l.nextVersion + 1)

/-- A conditional write asks for a condition on the live entry. -/
theorem setIf (h : s.Holds l) (now : Nat) (k : κ) (v : ν) (condition : Option (Entry ν) → Bool) :
    .done (s.setIf now k v condition).1 = (l.putIf now k v (condition (l.live? now k))).1 ∧
      (s.setIf now k v condition).2.Holds (l.putIf now k v (condition (l.live? now k))).2 := by
  obtain ⟨hlive, hlook⟩ := h.peekEntry now k
  simp only [Store.setIf, Lineup.putIf, hlive]
  split
  · exact ⟨rfl, hlook.set now k v⟩
  · exact ⟨rfl, hlook⟩

omit [Hashable κ] [LawfulBEq κ] in
/-- A look at a live key finds it where it is. -/
theorem look_of_live {now : Nat} {k : κ} {e : Entry ν} (hk : l.live? now k = some e) :
    l.look now k = l ∧ l.find? k = some e := by
  refine ⟨?_, (Option.filter_eq_some_iff.1 hk).1⟩
  rw [Lineup.look, hk, Option.isSome_some, if_pos rfl]

theorem get [BEq ν] (h : s.Holds l) (now : Nat) (k : κ) :
    .value (s.get now k).1 = (l.perform now (.get k)).1 ∧
      (s.get now k).2.Holds (l.perform now (.get k)).2 := by
  obtain ⟨hlive, hlook⟩ := h.peekEntry now k
  rw [Store.get, Lineup.perform]
  generalize s.peekEntry now k = looked at hlive hlook
  obtain ⟨e?, s'⟩ := looked
  simp only at hlive hlook
  subst hlive
  cases hk : l.live? now k with
  | none => exact ⟨rfl, hlook.counters _⟩
  | some e =>
    -- The look has changed nothing, and the touch moves the entry to the end.
    obtain ⟨hsame, hfind⟩ := look_of_live hk
    rw [hsame] at hlook
    exact ⟨rfl, (hlook.counters s'.counters.addHit).touch hfind⟩

theorem delete (h : s.Holds l) (now : Nat) (k : κ) :
    (s.delete now k).1 = (l.live? now k).isSome ∧ (s.delete now k).2.Holds (l.without k) := by
  obtain ⟨hlive, hlook⟩ := h.peekEntry now k
  rw [Store.delete]
  generalize s.peekEntry now k = looked at hlive hlook
  obtain ⟨e?, s'⟩ := looked
  simp only at hlive hlook
  subst hlive
  cases hk : l.live? now k with
  | none =>
    rw [Lineup.look, hk] at hlook
    exact ⟨rfl, hlook⟩
  | some e =>
    rw [(look_of_live hk).1] at hlook
    exact ⟨rfl, hlook.erase k⟩

/-! ## The sweep -/

/-- Dropping keys one by one drops the entries of these keys. -/
private theorem eraseAll (ks : List κ) {s : Store κ ν} {l : Lineup κ ν} (h : s.Holds l) :
    (ks.foldl Store.erase s).Holds
      { l with items := l.items.filter fun p => !ks.contains p.1 } := by
  induction ks generalizing s l with
  | nil =>
    have hall : l.items.filter (fun p => !([] : List κ).contains p.1) = l.items := by simp
    rw [hall]
    exact h
  | cons k ks ih =>
    have hrest := ih (h.erase k)
    simp only [Lineup.without, List.filter_filter] at hrest
    simp only [List.foldl_cons, List.contains_cons, Bool.not_or]
    simp only [bne, Bool.and_comm] at hrest ⊢
    exact hrest

/-- A sweep drops the expired entries of the list. -/
theorem sweep (h : s.Holds l) (now : Nat) :
    (s.sweep now).1 = l.items.length - (l.sweep now).items.length ∧
      (s.sweep now).2.Holds (l.sweep now) := by
  have hdrop : l.items.filter (fun p => !(s.expiredKeys now).contains p.1) =
      l.items.filter fun p => !decide (p.2.Expired l.ttl now) := by
    apply List.filter_congr
    intro p hmem
    obtain ⟨k, e⟩ := p
    -- One key has one entry.
    have hentry : s.entries[k]? = some e :=
      (h.entries k).trans ((Lineup.find?_eq_some_iff h.nodup).2 hmem)
    apply congrArg (! ·)
    rw [Bool.eq_iff_iff, List.contains_iff_mem, decide_eq_true_eq, mem_expiredKeys, hentry, h.ttl]
    simp
  have hrest := h.eraseAll (s.expiredKeys now)
  rw [hdrop] at hrest
  have hsweep : (s.sweep now).2.Holds (l.sweep now) := hrest.counters _
  refine ⟨?_, hsweep⟩
  -- What is gone is what the answer says.
  have hsize := size_sweep s now
  rw [h.size_eq, hsweep.size_eq] at hsize
  omega

/-- One operation on a store is the same operation on its list. -/
theorem perform [BEq ν] (h : s.Holds l) (now : Nat) (op : Op κ ν) :
    (s.perform now op).1 = (l.perform now op).1 ∧
      (s.perform now op).2.Holds (l.perform now op).2 := by
  -- The three conditional writes are one, which differs in its condition.
  cases op with
  | get k => exact h.get now k
  | peek k =>
    obtain ⟨hlive, hlook⟩ := h.peekEntry now k
    refine ⟨?_, hlook⟩
    show _ = Answer.value ((l.live? now k).map Entry.value)
    rw [← hlive]
    rfl
  | peekVersioned k =>
    obtain ⟨hlive, hlook⟩ := h.peekEntry now k
    refine ⟨?_, hlook⟩
    show _ = Answer.versioned ((l.live? now k).map fun e => (e.value, e.version))
    rw [← hlive]
    rfl
  | set k v => exact ⟨rfl, h.set now k v⟩
  | setIfAbsent k v =>
    simp only [Store.perform, setIfAbsent_eq]
    exact h.setIf now k v _
  | compareAndSet k expected v =>
    simp only [Store.perform, compareAndSet_eq]
    exact h.setIf now k v _
  | setIfVersion k expected v =>
    simp only [Store.perform, setIfVersion_eq]
    exact h.setIf now k v _
  | delete k =>
    obtain ⟨hlive, hdelete⟩ := h.delete now k
    exact ⟨congrArg Answer.done hlive, hdelete⟩
  | sweep =>
    obtain ⟨hcount, hsweep⟩ := h.sweep now
    exact ⟨congrArg Answer.count hcount, hsweep⟩

end Holds

variable [LawfulBEq κ] [BEq ν]

/-- A store goes on holding a list. -/
theorem Holds.run {s : Store κ ν} {l : Lineup κ ν} (h : s.Holds l) (ops : List (Nat × Op κ ν)) :
    (s.run ops).Holds (l.run ops) := by
  induction ops generalizing s l with
  | nil => exact h
  | cons p ops ih => exact ih (h.perform p.1 p.2).2

/-- As long as a store holds a list, no operations tell them apart. -/
theorem Holds.answers {s : Store κ ν} {l : Lineup κ ν} (h : s.Holds l)
    (ops : List (Nat × Op κ ν)) : s.answers ops = l.answers ops := by
  induction ops generalizing s l with
  | nil => rfl
  | cons p ops ih =>
    -- The first operation is answered alike, and the store goes on holding the list.
    obtain ⟨now, op⟩ := p
    obtain ⟨hanswer, hnext⟩ := h.perform now op
    rw [Store.answers, Lineup.answers, hanswer, hnext.size_eq, ih hnext]

/-- A store and a list with the same limits give the same answers to all operations, at all
instants, and have the same number of entries after each of them. -/
theorem answers_eq (maxEntries ttl : Nat) (ops : List (Nat × Op κ ν)) :
    (Store.ofLimits maxEntries ttl : Store κ ν).answers ops =
      (Lineup.ofLimits maxEntries ttl : Lineup κ ν).answers ops :=
  (Holds.ofLimits maxEntries ttl).answers ops

/-- A store for two entries that live for ten nanoseconds: a read saves key 1 from being evicted by
key 3, key 1 is overwritten when it has expired, and a sweep drops key 3. -/
theorem answers_eq_two_entries :
    (Store.ofLimits 2 10 : Store Nat Nat).answers
        [(0, .set 1 10), (1, .set 2 20), (2, .get 1), (3, .set 3 30), (3, .peek 2),
          (10, .setIfVersion 1 none 11), (13, .sweep), (13, .compareAndSet 1 (some 11) 12),
          (14, .delete 3), (15, .peekVersioned 1)] =
      [(.nothing, 1), (.nothing, 2), (.value (some 10), 2), (.nothing, 2), (.value none, 2),
        (.done true, 2), (.count 1, 1), (.done true, 1), (.done false, 1),
        (.versioned (some (12, 5)), 1)] := by
  rw [answers_eq]
  decide

end Store

end CacheLayer
