import CacheLayer.Store.Basic
/-!
# What a sweep drops

A sweep lists the keys of the expired entries and drops them one by one. No key is listed twice and
every listed key is stored, so that a sweep drops as many entries as it says, and leaves exactly the
live ones.

## Key results

- `Store.mem_expiredKeys`: the listed keys are those of the expired entries
- `Store.getElem?_sweep`: the live entries are left
- `Store.size_sweep`: the answer is the number of entries that are gone
-/

namespace CacheLayer

namespace Store

variable {κ ν : Type} [BEq κ] [Hashable κ]

/-! ## Dropping keys one by one -/

/-- Dropping keys changes nothing but the tables. -/
theorem frame_foldl_erase (ks : List κ) (s : Store κ ν) :
    (ks.foldl erase s).counters = s.counters ∧ (ks.foldl erase s).capacity = s.capacity ∧
      (ks.foldl erase s).ttl = s.ttl ∧ (ks.foldl erase s).nextVersion = s.nextVersion := by
  induction ks generalizing s with
  | nil => exact ⟨rfl, rfl, rfl, rfl⟩
  | cons k ks ih => exact ih (s.erase k)

variable [LawfulBEq κ]

/-- A stored key takes one entry with it. -/
theorem size_erase_of_mem {s : Store κ ν} {k : κ} (hk : k ∈ s.entries) :
    (s.erase k).size + 1 = s.size := by
  have hpos : 0 < s.entries.size := by
    rw [← Std.HashMap.length_keys]
    exact List.length_pos_of_mem (Std.HashMap.mem_keys.2 hk)
  simp only [size, erase, Std.HashMap.size_erase, if_pos hk]
  omega

/-- The entries of other keys are left. -/
theorem getElem?_foldl_erase (ks : List κ) (s : Store κ ν) (k : κ) :
    (ks.foldl erase s).entries[k]? = if k ∈ ks then none else s.entries[k]? := by
  induction ks generalizing s with
  | nil => simp
  | cons k' ks ih =>
    rw [List.foldl_cons, ih, erase, Std.HashMap.getElem?_erase]
    by_cases hk : k' = k
    · simp [hk]
    · simp [hk, Ne.symm hk]

/-- Different stored keys take one entry each with them. -/
theorem size_foldl_erase {ks : List κ} (hnodup : ks.Nodup) {s : Store κ ν}
    (hstored : ∀ k ∈ ks, k ∈ s.entries) : (ks.foldl erase s).size + ks.length = s.size := by
  induction ks generalizing s with
  | nil => rfl
  | cons k ks ih =>
    obtain ⟨hk, hks⟩ := List.forall_mem_cons.1 hstored
    obtain ⟨hnew, hrest⟩ := List.nodup_cons.1 hnodup
    -- The keys to come are still stored, since they are different from this one.
    have hstored' : ∀ k' ∈ ks, k' ∈ (s.erase k).entries := by
      intro k' hk'
      rw [erase, Std.HashMap.mem_erase]
      exact ⟨beq_false_of_ne fun heq => hnew (heq ▸ hk'), hks k' hk'⟩
    have hsize := ih hrest hstored'
    have hone := size_erase_of_mem hk
    rw [List.foldl_cons, List.length_cons]
    omega

/-! ## The listed keys -/

omit [LawfulBEq κ] in
/-- The keys that a sweep drops, read off the table. -/
theorem expiredKeys_eq (s : Store κ ν) (now : Nat) :
    s.expiredKeys now =
      ((s.entries.toList.filter fun p => decide (p.2.Expired s.ttl now)).map Prod.fst).reverse := by
  rw [expiredKeys, Std.HashMap.fold_eq_foldl_toList]
  -- The fold gathers the keys in front of those that it has already.
  suffices hacc : ∀ (items : List (κ × Entry ν)) (ks : List κ),
      items.foldl (fun ks p => if p.2.Expired s.ttl now then p.1 :: ks else ks) ks =
        ((items.filter fun p => decide (p.2.Expired s.ttl now)).map Prod.fst).reverse ++ ks by
    rw [hacc, List.append_nil]
  intro items
  induction items with
  | nil =>
    intro ks
    rfl
  | cons p items ih =>
    intro ks
    rw [List.foldl_cons, ih, List.filter_cons]
    by_cases hp : p.2.Expired s.ttl now
    · simp [hp]
    · simp [hp]

/-- The listed keys are those of the expired entries. -/
theorem mem_expiredKeys {s : Store κ ν} {now : Nat} {k : κ} :
    k ∈ s.expiredKeys now ↔ ∃ e, s.entries[k]? = some e ∧ e.Expired s.ttl now := by
  simp only [expiredKeys_eq, List.mem_reverse, List.mem_map, List.mem_filter, decide_eq_true_eq]
  constructor
  · rintro ⟨⟨k, e⟩, ⟨hmem, hexp⟩, rfl⟩
    exact ⟨e, Std.HashMap.mem_toList_iff_getElem?_eq_some.1 hmem, hexp⟩
  · rintro ⟨e, he, hexp⟩
    exact ⟨(k, e), ⟨Std.HashMap.mem_toList_iff_getElem?_eq_some.2 he, hexp⟩, rfl⟩

theorem nodup_expiredKeys (s : Store κ ν) (now : Nat) : (s.expiredKeys now).Nodup := by
  rw [expiredKeys_eq, (List.reverse_perm _).nodup_iff]
  refine List.pairwise_map.2 ((Std.HashMap.distinct_keys_toList.filter _).imp ?_)
  intro p q hne heq
  simp [heq] at hne

/-! ## The sweep -/

/-- A sweep leaves the live entries. -/
theorem getElem?_sweep (s : Store κ ν) (now : Nat) (k : κ) :
    (s.sweep now).2.entries[k]? = s.entries[k]?.filter fun e => !decide (e.Expired s.ttl now) := by
  show ((s.expiredKeys now).foldl erase s).entries[k]? = _
  rw [getElem?_foldl_erase]
  cases hk : s.entries[k]? with
  | none => simp
  | some e =>
    by_cases he : e.Expired s.ttl now <;> simp [mem_expiredKeys, hk, he, Option.filter_some]

/-- A sweep drops as many entries as it says. -/
theorem size_sweep (s : Store κ ν) (now : Nat) :
    (s.sweep now).2.size + (s.sweep now).1 = s.size := by
  refine size_foldl_erase (nodup_expiredKeys s now) ?_
  intro k hk
  obtain ⟨e, he, -⟩ := mem_expiredKeys.1 hk
  exact (Std.HashMap.getElem?_eq_some_iff.1 he).1

end Store

end CacheLayer
