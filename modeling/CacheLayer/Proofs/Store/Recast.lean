import CacheLayer.Proofs.Store.Refinement
import CacheLayer.Proofs.Store.Roomy
/-!
# Stores with other values

A store never looks into its values. If they differ by a function, then the same keys are found,
evicted and dropped, in the same order, and every write gets the same version. `Store.Recast`
relates two such stores by the list that both of them show.

## Key results

- `Store.Recast.get`, `Store.Recast.set`, `Store.Recast.delete`, `Store.Recast.sweep`: one operation
  on both stores
- `Store.Recast.updateRead`, `Store.Recast.updateWrite`: the two halves of an update
- `Store.Recast.getElem?`: what both of them hold
-/

namespace CacheLayer

variable {κ ν μ : Type}

/-- The same entry with another value. -/
def Entry.recast (f : ν → μ) (e : Entry ν) : Entry μ := ⟨f e.value, e.written, e.version⟩

namespace Lineup

/-- The same list with other values. -/
def recast (f : ν → μ) (l : Lineup κ ν) : Lineup κ μ :=
  { l with items := l.items.map fun p => (p.1, p.2.recast f) }

variable (f : ν → μ) (l : Lineup κ ν)

/-- A sweep drops the same keys. -/
theorem recast_sweep (now : Nat) : (l.recast f).sweep now = (l.sweep now).recast f := by
  simp only [sweep, recast, List.filter_map]
  rfl

variable [BEq κ]

theorem recast_find? (k : κ) : (l.recast f).find? k = (l.find? k).map (Entry.recast f) := by
  simp only [find?, recast]
  induction l.items with
  | nil => rfl
  | cons p items ih =>
    rw [List.map_cons, List.lookup_cons, List.lookup_cons, ih]
    split <;> rfl

theorem recast_live? (now : Nat) (k : κ) :
    (l.recast f).live? now k = (l.live? now k).map (Entry.recast f) := by
  simp only [live?, recast_find?]
  cases l.find? k with
  | none => rfl
  | some e =>
    show (if (!decide (e.Expired l.ttl now)) = true then some (e.recast f) else none) =
      (if (!decide (e.Expired l.ttl now)) = true then some e else none).map (Entry.recast f)
    split <;> rfl

theorem recast_without (k : κ) : (l.recast f).without k = (l.without k).recast f := by
  simp only [without, recast, List.filter_map]
  rfl

theorem recast_look (now : Nat) (k : κ) : (l.recast f).look now k = (l.look now k).recast f := by
  rw [look, look, recast_live?, Option.isSome_map, recast_without]
  split <;> rfl

theorem recast_push (k : κ) (e : Entry ν) :
    (l.recast f).push k (e.recast f) = (l.push k e).recast f := by
  rw [push, push, recast_without]
  simp [recast]

theorem recast_makeRoom (k : κ) : (l.recast f).makeRoom k = (l.makeRoom k).recast f := by
  rw [makeRoom, makeRoom, recast_find?, Option.isSome_map]
  have hlen : (l.recast f).items.length = l.items.length := List.length_map _
  have htail : (l.recast f).items.tail = l.items.tail.map fun p => (p.1, p.2.recast f) :=
    List.map_tail.symm
  have hcapacity : (l.recast f).capacity = l.capacity := rfl
  rw [hlen, htail, hcapacity]
  -- Whether there is room depends on the keys and on their number.
  by_cases hfits : (l.find? k).isSome ∨ l.items.length < l.capacity
  · rw [if_pos hfits, if_pos hfits]
  · rw [if_neg hfits, if_neg hfits]
    rfl

theorem recast_put (now : Nat) (k : κ) (v : ν) :
    (l.recast f).put now k (f v) = (l.put now k v).recast f := by
  rw [put, put, recast_makeRoom]
  have hpush := recast_push f (l.makeRoom k) k ⟨v, now, l.nextVersion⟩
  show { ((l.makeRoom k).recast f).push k (Entry.recast f ⟨v, now, l.nextVersion⟩) with
    nextVersion := l.nextVersion + 1 } = _
  rw [hpush]
  rfl

end Lineup

variable [BEq κ] [Hashable κ]

/-- Stores that show the same list but for the values. -/
def Store.Recast (f : ν → μ) (s : Store κ ν) (s' : Store κ μ) : Prop :=
  ∃ l, s.Holds l ∧ s'.Holds (l.recast f)

namespace Store.Recast

variable {f : ν → μ} {s : Store κ ν} {s' : Store κ μ}

/-- New stores are empty. -/
theorem ofLimits (f : ν → μ) (maxEntries ttl : Nat) :
    Recast f (Store.ofLimits maxEntries ttl : Store κ ν) (.ofLimits maxEntries ttl) :=
  ⟨_, .ofLimits maxEntries ttl, .ofLimits maxEntries ttl⟩

/-- Both stores hold the same entries but for the values. -/
theorem getElem? (h : Recast f s s') (k : κ) :
    s'.entries[k]? = s.entries[k]?.map (Entry.recast f) := by
  obtain ⟨l, hs, hs'⟩ := h
  rw [hs.entries, hs'.entries, Lineup.recast_find?]

variable [LawfulBEq κ]

/-- A look at a key finds the same entry but for the value. -/
theorem peekEntry (h : Recast f s s') (now : Nat) (k : κ) :
    (s'.peekEntry now k).1 = (s.peekEntry now k).1.map (Entry.recast f) ∧
      Recast f (s.peekEntry now k).2 (s'.peekEntry now k).2 := by
  obtain ⟨l, hs, hs'⟩ := h
  obtain ⟨hlive, hlook⟩ := hs.peekEntry now k
  obtain ⟨hlive', hlook'⟩ := hs'.peekEntry now k
  rw [Lineup.recast_live?] at hlive'
  rw [Lineup.recast_look] at hlook'
  exact ⟨by rw [hlive, hlive'], _, hlook, hlook'⟩

/-- A write gets the same place and the same version. -/
theorem set (h : Recast f s s') (now : Nat) (k : κ) (v : ν) :
    Recast f (s.set now k v) (s'.set now k (f v)) := by
  obtain ⟨l, hs, hs'⟩ := h
  have hset' := hs'.set now k (f v)
  rw [Lineup.recast_put] at hset'
  exact ⟨_, hs.set now k v, hset'⟩

/-- A deletion finds something alike. -/
theorem delete (h : Recast f s s') (now : Nat) (k : κ) :
    (s'.delete now k).1 = (s.delete now k).1 ∧
      Recast f (s.delete now k).2 (s'.delete now k).2 := by
  obtain ⟨l, hs, hs'⟩ := h
  obtain ⟨hfound, hdelete⟩ := hs.delete now k
  obtain ⟨hfound', hdelete'⟩ := hs'.delete now k
  rw [Lineup.recast_live?, Option.isSome_map] at hfound'
  rw [Lineup.recast_without] at hdelete'
  exact ⟨by rw [hfound, hfound'], _, hdelete, hdelete'⟩

/-- A sweep drops the same keys. -/
theorem sweep (h : Recast f s s') (now : Nat) : Recast f (s.sweep now).2 (s'.sweep now).2 := by
  obtain ⟨l, hs, hs'⟩ := h
  have hsweep' := (hs'.sweep now).2
  rw [Lineup.recast_sweep] at hsweep'
  exact ⟨_, (hs.sweep now).2, hsweep'⟩

/-- A read finds the same value but for the function, and is the same use of the key. -/
theorem get (h : Recast f s s') (now : Nat) (k : κ) :
    (s'.get now k).1 = (s.get now k).1.map f ∧ Recast f (s.get now k).2 (s'.get now k).2 := by
  obtain ⟨l, hs, hs'⟩ := h
  -- A read compares no values, so that any way to compare them will do.
  let _ : BEq ν := ⟨fun _ _ => false⟩
  let _ : BEq μ := ⟨fun _ _ => false⟩
  obtain ⟨hvalue, hget⟩ := hs.get now k
  obtain ⟨hvalue', hget'⟩ := hs'.get now k
  simp only [Lineup.perform, Lineup.recast_live?] at hvalue hvalue' hget hget'
  cases hk : l.live? now k with
  | none =>
    simp only [hk, Option.map_none, Store.Answer.value.injEq] at hvalue hvalue' hget hget'
    rw [Lineup.recast_look] at hget'
    exact ⟨by rw [hvalue, hvalue']; rfl, _, hget, hget'⟩
  | some e =>
    simp only [hk, Option.map_some, Store.Answer.value.injEq] at hvalue hvalue' hget hget'
    rw [Lineup.recast_push] at hget'
    exact ⟨by rw [hvalue, hvalue']; rfl, _, hget, hget'⟩

/-- A read of several keys finds the same but for the values. -/
theorem getBulk (h : Recast f s s') (now : Nat) (ks : List κ) :
    MapRecast f (s.getBulk now ks).1 (s'.getBulk now ks).1 ∧
      Recast f (s.getBulk now ks).2 (s'.getBulk now ks).2 := by
  rw [getBulk_eq, getBulk_eq]
  -- The induction is on the keys to come, whatever has been found of the others.
  have hfold : ∀ {m : Std.HashMap κ ν} {m' : Std.HashMap κ μ} {s : Store κ ν} {s' : Store κ μ},
      MapRecast f m m' → Recast f s s' →
      MapRecast f (ks.foldl (getAlso now) (m, s)).1 (ks.foldl (getAlso now) (m', s')).1 ∧
        Recast f (ks.foldl (getAlso now) (m, s)).2 (ks.foldl (getAlso now) (m', s')).2 := by
    induction ks with
    | nil => exact fun hm hs => ⟨hm, hs⟩
    | cons k ks ih =>
      intro m m' s s' hm hs
      obtain ⟨hvalue, hget⟩ := hs.get now k
      rw [List.foldl_cons, List.foldl_cons, getAlso_eq, getAlso_eq, hvalue]
      refine ih ?_ hget
      cases (s.get now k).1 with
      | none => exact hm
      | some v => exact hm.insert k v
  exact hfold .empty h

/-- An update reads the same value but for the function, and the same version. -/
theorem updateRead (h : Recast f s s') (now : Nat) (k : κ) :
    (s'.updateRead now k).1 = (s.updateRead now k).1.map (fun p => (p.1.map f, p.2)) ∧
      Recast f (s.updateRead now k).2 (s'.updateRead now k).2 := by
  obtain ⟨hentry, hlook⟩ := h.peekEntry now k
  refine ⟨?_, hlook⟩
  simp only [Store.updateRead, Store.peekVersioned, hentry]
  cases (s.peekEntry now k).1 <;> rfl

/-- An update writes alike. -/
theorem updateWrite (h : Recast f s s') (now : Nat) (k : κ) (version? : Option Nat) (v : ν) :
    (s'.updateWrite now k version? (f v)).1 = (s.updateWrite now k version? v).1 ∧
      Recast f (s.updateWrite now k version? v).2 (s'.updateWrite now k version? (f v)).2 := by
  obtain ⟨hentry, hlook⟩ := h.peekEntry now k
  -- The versions that are compared are the same on both sides.
  have hversion : (s'.peekEntry now k).1.map Entry.version =
      (s.peekEntry now k).1.map Entry.version := by
    rw [hentry, Option.map_map]
    rfl
  have hset : (s'.setIfVersion now k version? (f v)).1 = (s.setIfVersion now k version? v).1 ∧
      Recast f (s.setIfVersion now k version? v).2 (s'.setIfVersion now k version? (f v)).2 := by
    simp only [Store.setIfVersion, hversion]
    split
    · exact ⟨rfl, hlook.set now k v⟩
    · exact ⟨rfl, hlook⟩
  simp only [Store.updateWrite]
  generalize s.setIfVersion now k version? v = r, s'.setIfVersion now k version? (f v) = r' at hset
  obtain ⟨written, s₁⟩ := r
  obtain ⟨written', s₁'⟩ := r'
  obtain ⟨hwritten, hs⟩ := hset
  obtain rfl : written' = written := hwritten
  cases written' <;> exact ⟨rfl, hs⟩

end Store.Recast

end CacheLayer
