import CacheLayer.Aggregate
import Mathlib
/-!
# What becomes of a batch

A batch of outcomes, one for each of some different keys, is folded into the values that are there,
unless all of it has failed. To have no value is no failure.

## Key results

- `gather_of_failed`, `gather_of_ok`: what a batch is folded into
- `gathered_gatherPresent`: what a batch of optional values is folded into
- `getElem?_ofList_filterMap`: the map of the values that some keys have
- `gatherPresent_recast`: a batch with other values is folded alike
-/

namespace CacheLayer

variable {κ α : Type}

/-- What the outcomes of different keys are folded into. If there are keys and all of them have
failed, it is an aggregate with one error for each, in some order; otherwise it has exactly the
values that are there. -/
inductive Gathered [BEq κ] [Hashable κ] (keys : List κ) (o : κ → Outcome (Option α)) :
    Outcome (Std.HashMap κ α) → Prop where
  | failed (errors : List CacheError) (hne : keys ≠ [])
    (herrors : (errors.map Except.error).Perm (keys.map o)) :
    Gathered keys o (.error (.aggregate errors))
  | values (m : Std.HashMap κ α) (hok : keys = [] ∨ ∃ k ∈ keys, (o k).isOk)
    (hm : ∀ k v, m[k]? = some v ↔ k ∈ keys ∧ o k = .ok (some v)) : Gathered keys o (.ok m)

/-- The errors of a batch are those of its members if all of them have failed. -/
theorem errorsOf_of_failed {batch : List (κ × Outcome α)} (h : ∀ p ∈ batch, p.2.isOk = false) :
    (errorsOf batch).map Except.error = batch.map Prod.snd := by
  induction batch with
  | nil => rfl
  | cons p batch ih =>
    obtain ⟨hp, hrest⟩ := List.forall_mem_cons.1 h
    obtain ⟨k, e | v⟩ := p
    · simp only [errorsOf, List.filterMap_cons, List.map_cons] at ih ⊢
      rw [ih hrest]
    · simp [Except.isOk, Except.toBool] at hp

/-- Otherwise there are fewer. -/
theorem length_errorsOf_lt {batch : List (κ × Outcome α)} {p : κ × Outcome α}
    (hp : p ∈ batch) (hok : p.2.isOk) : (errorsOf batch).length < batch.length := by
  apply List.length_filterMap_lt_length_iff_exists.2
  refine ⟨p, hp, ?_⟩
  obtain ⟨k, e | v⟩ := p
  · simp [Except.isOk, Except.toBool] at hok
  · rfl

/-- The values of a batch are those that its members have. -/
theorem mem_valuesOf {batch : List (κ × Outcome α)} {k : κ} {v : α} :
    (k, v) ∈ valuesOf batch ↔ (k, .ok v) ∈ batch := by
  simp only [valuesOf, List.mem_filterMap]
  constructor
  · rintro ⟨⟨k', e | v'⟩, hp, hv⟩
    · simp at hv
    · simp only [Option.some.injEq, Prod.mk.injEq] at hv
      obtain ⟨rfl, rfl⟩ := hv
      exact hp
  · intro hp
    exact ⟨_, hp, rfl⟩

/-- Each key has one value at most. -/
theorem nodup_valuesOf {batch : List (κ × Outcome α)}
    (hnodup : (batch.map Prod.fst).Nodup) : ((valuesOf batch).map Prod.fst).Nodup := by
  refine hnodup.sublist ?_
  clear hnodup
  induction batch with
  | nil => simp [valuesOf]
  | cons p batch ih =>
    obtain ⟨k, e | v⟩ := p
    · exact ih.cons k
    · exact ih.cons_cons k

variable [BEq κ] [Hashable κ] [LawfulBEq κ]

/-- A map made of pairs with different keys has just these pairs. -/
theorem getElem?_ofList {β : Type} {l : List (κ × β)} (hnodup : (l.map Prod.fst).Nodup)
    {k : κ} {v : β} : (Std.HashMap.ofList l)[k]? = some v ↔ (k, v) ∈ l := by
  have hdistinct : l.Pairwise fun a b => (a.1 == b.1) = false :=
    (List.pairwise_map.1 hnodup).imp fun hne => beq_false_of_ne hne
  constructor
  · intro hv
    by_cases hk : k ∈ l.map Prod.fst
    · obtain ⟨⟨k', v'⟩, hmem, rfl⟩ := List.mem_map.1 hk
      rw [Std.HashMap.getElem?_ofList_of_mem (beq_self_eq_true _) hdistinct hmem] at hv
      exact Option.some.inj hv ▸ hmem
    · rw [Std.HashMap.getElem?_ofList_of_contains_eq_false (by simpa using hk)] at hv
      exact nomatch hv
  · exact Std.HashMap.getElem?_ofList_of_mem (beq_self_eq_true k) hdistinct

/-- What a map has that is made of the values of some keys, on top of another one. -/
private theorem getElem?_insertMany_filterMap {β : Type} (f : κ → Option β) (keys : List κ)
    (m : Std.HashMap κ β) (k : κ) :
    (m.insertMany (keys.filterMap fun k => (f k).map fun b => (k, b)))[k]? =
      if keys.contains k then (f k).or m[k]? else m[k]? := by
  -- What comes later in the list is inserted on top, which makes no difference, since a key has one
  -- value.
  induction keys generalizing m with
  | nil => simp
  | cons k' keys ih =>
    rw [List.filterMap_cons, List.contains_cons]
    cases hf : f k' with
    | none =>
      rw [Option.map_none, ih]
      by_cases hk : k == k'
      · obtain rfl := eq_of_beq hk
        simp [hf]
      · simp [hk]
    | some b =>
      rw [Option.map_some, Std.HashMap.insertMany_cons, ih, Std.HashMap.getElem?_insert]
      by_cases hk : k == k'
      · obtain rfl := eq_of_beq hk
        simp [hf]
      · have hk' : ¬ k' == k := fun h => hk (BEq.symm h)
        simp [hk, hk']

/-- A map made of the values that some keys have, however often they are listed, has just these. -/
theorem getElem?_ofList_filterMap {β : Type} (f : κ → Option β) (keys : List κ) (k : κ) :
    (Std.HashMap.ofList (keys.filterMap fun k => (f k).map fun b => (k, b)))[k]? =
      if keys.contains k then f k else none := by
  rw [Std.HashMap.ofList_eq_insertMany_empty, getElem?_insertMany_filterMap]
  simp

omit [LawfulBEq κ] in
/-- A batch of which all have failed is folded into the errors of its members. -/
theorem gather_of_failed {batch : List (κ × Outcome α)} (hne : batch ≠ [])
    (hfailed : ∀ p ∈ batch, p.2.isOk = false) :
    gather false batch = .error (.aggregate (errorsOf batch)) := by
  have hlength : (errorsOf batch).length = batch.length := by
    simpa using congrArg List.length (errorsOf_of_failed hfailed)
  have hpos := List.length_pos_iff.2 hne
  rw [gather, if_pos ⟨List.ne_nil_of_length_pos (by omega), .inr hlength⟩]

/-- Any other batch is folded into the values of its members. -/
theorem gather_of_ok {batch : List (κ × Outcome α)} (hnodup : (batch.map Prod.fst).Nodup)
    (hok : batch = [] ∨ ∃ p ∈ batch, p.2.isOk) :
    ∃ m, gather false batch = .ok m ∧ ∀ k v, m[k]? = some v ↔ (k, .ok v) ∈ batch := by
  refine ⟨_, ?_, fun k v => (getElem?_ofList (nodup_valuesOf hnodup)).trans mem_valuesOf⟩
  rw [gather, if_neg]
  rintro ⟨hne, hfails⟩
  rcases hok with rfl | ⟨p, hp, hok⟩
  · exact hne rfl
  · -- Some member has a value, so that there are fewer errors than members.
    have := length_errorsOf_lt hp hok
    simp only [Bool.false_eq_true, false_or] at hfails
    omega

/-- The values that are present have the keys that have them. -/
theorem getElem?_present (m : Std.HashMap κ (Option α)) (k : κ) (v : α) :
    (present m)[k]? = some v ↔ m[k]? = some (some v) := by
  rw [present, Std.HashMap.getElem?_filterMap', Option.bind_eq_some_iff]
  simp

/-- What a batch of optional values is folded into, in whatever order it is gone through. -/
theorem gathered_gatherPresent {keys : List κ} (hnodup : keys.Nodup)
    {o : κ → Outcome (Option α)} {batch : List (κ × Outcome (Option α))}
    (hperm : batch.Perm (keys.map fun k => (k, o k))) :
    Gathered keys o (gatherPresent false batch) := by
  have hdistinct : (batch.map Prod.fst).Nodup := by
    rw [(hperm.map Prod.fst).nodup_iff]
    simpa [Function.comp_def] using hnodup
  have houtcomes : (batch.map Prod.snd).Perm (keys.map o) := by
    simpa [Function.comp_def] using hperm.map Prod.snd
  have hnil : batch = [] ↔ keys = [] := by
    rw [← List.length_eq_zero_iff, hperm.length_eq, List.length_map, List.length_eq_zero_iff]
  rw [gatherPresent]
  -- A batch has values unless all of a non-empty one have failed.
  by_cases hok : keys = [] ∨ ∃ k ∈ keys, (o k).isOk
  · obtain ⟨m, hm, hvalues⟩ := gather_of_ok hdistinct (by simpa [hnil, hperm.mem_iff] using hok)
    rw [hm]
    apply Gathered.values _ hok
    intro k v
    rw [getElem?_present, hvalues]
    simp only [hperm.mem_iff, List.mem_map, Prod.mk.injEq]
    constructor
    · rintro ⟨k, hk, rfl, ho⟩
      exact ⟨hk, ho⟩
    · rintro ⟨hk, ho⟩
      exact ⟨k, hk, rfl, ho⟩
  · -- The errors stand in the order of the batch, which is any order of the keys.
    obtain ⟨hne, hfailed⟩ := not_or.1 hok
    have hall : ∀ p ∈ batch, p.2.isOk = false := by
      simpa [hperm.mem_iff] using hfailed
    rw [gather_of_failed (mt hnil.1 hne) hall]
    exact .failed _ hne (errorsOf_of_failed hall ▸ houtcomes)

/-! ## Other values -/

variable {ν μ β : Type}

/-- Outcomes with related values, or with the same error. -/
inductive Outcome.Rel (R : α → β → Prop) : Outcome α → Outcome β → Prop where
  | ok {a : α} {b : β} : R a b → Rel R (.ok a) (.ok b)
  | error (e : CacheError) : Rel R (.error e) (.error e)

/-- Maps with the same keys, whose values differ by a function. -/
def MapRecast (f : α → β) (m : Std.HashMap κ α) (m' : Std.HashMap κ β) : Prop :=
  ∀ k : κ, m'[k]? = m[k]?.map f

/-- The same outcome with another value, if there is any. -/
def Outcome.recast (f : ν → μ) : Outcome (Option ν) → Outcome (Option μ) :=
  Except.map (Option.map f)

namespace MapRecast

variable {f : α → β} {m : Std.HashMap κ α} {m' : Std.HashMap κ β}

omit [LawfulBEq κ] in
/-- Nothing is found in empty maps. -/
theorem empty : MapRecast f (∅ : Std.HashMap κ α) ∅ := by
  intro k
  simp

theorem contains_eq (h : MapRecast f m m') (k : κ) : m'.contains k = m.contains k := by
  rw [Std.HashMap.contains_eq_isSome_getElem?, Std.HashMap.contains_eq_isSome_getElem?, h k,
    Option.isSome_map]

theorem mem_iff (h : MapRecast f m m') (k : κ) : k ∈ m' ↔ k ∈ m := by
  rw [← Std.HashMap.contains_iff_mem, ← Std.HashMap.contains_iff_mem, h.contains_eq]

theorem isEmpty_eq (h : MapRecast f m m') : m'.isEmpty = m.isEmpty := by
  rw [Bool.eq_iff_iff, Std.HashMap.isEmpty_iff_forall_not_mem,
    Std.HashMap.isEmpty_iff_forall_not_mem]
  simp only [h.mem_iff]

/-- The keys of both are listed in some order. -/
theorem keys_perm (h : MapRecast f m m') : m'.keys.Perm m.keys := by
  have hnodup : ∀ {γ : Type} (n : Std.HashMap κ γ), n.keys.Nodup := fun n =>
    Std.HashMap.distinct_keys.imp fun hne heq => by simp [heq] at hne
  rw [List.perm_ext_iff_of_nodup (hnodup m') (hnodup m)]
  intro k
  rw [Std.HashMap.mem_keys, Std.HashMap.mem_keys, h.mem_iff]

/-- An entry more is the same entry on both sides. -/
theorem insert (h : MapRecast f m m') (k : κ) (a : α) :
    MapRecast f (m.insert k a) (m'.insert k (f a)) := by
  intro k'
  rw [Std.HashMap.getElem?_insert, Std.HashMap.getElem?_insert, h k']
  split <;> rfl

/-- Maps made of the same list are the same but for the values. -/
theorem ofList (f : α → β) (l : List (κ × α)) :
    MapRecast f (Std.HashMap.ofList l) (Std.HashMap.ofList (l.map fun p => (p.1, f p.2))) := by
  -- The induction is on the list, whatever is in the maps already.
  have hinsert : ∀ {m : Std.HashMap κ α} {m' : Std.HashMap κ β}, MapRecast f m m' →
      MapRecast f (m.insertMany l) (m'.insertMany (l.map fun p => (p.1, f p.2))) := by
    induction l with
    | nil =>
      intro m m' h
      simpa using h
    | cons p l ih =>
      intro m m' h
      rw [List.map_cons, Std.HashMap.insertMany_cons, Std.HashMap.insertMany_cons]
      exact ih (h.insert p.1 p.2)
  rw [Std.HashMap.ofList_eq_insertMany_empty, Std.HashMap.ofList_eq_insertMany_empty]
  exact hinsert .empty

end MapRecast

/-- A batch with other values folds into an outcome with other values. -/
theorem gatherPresent_recast (f : ν → μ) (batch : List (κ × Outcome (Option ν))) :
    Outcome.Rel (MapRecast f) (gatherPresent false batch)
      (gatherPresent false (batch.map fun p => (p.1, Outcome.recast f p.2))) := by
  have herrors : errorsOf (batch.map fun p => (p.1, Outcome.recast f p.2)) = errorsOf batch := by
    simp only [errorsOf, List.filterMap_map]
    congr 1
    funext p
    obtain ⟨k, e | v?⟩ := p <;> rfl
  have hvalues : valuesOf (batch.map fun p => (p.1, Outcome.recast f p.2)) =
      (valuesOf batch).map fun p => (p.1, p.2.map f) := by
    simp only [valuesOf, List.filterMap_map, List.map_filterMap]
    congr 1
    funext p
    obtain ⟨k, e | v?⟩ := p <;> rfl
  -- Both batches fail together, as they have the same errors and the same length.
  rw [gatherPresent, gatherPresent, gather, gather, herrors, hvalues, List.length_map]
  split
  · exact .error _
  · refine .ok fun k => ?_
    rw [present, present, Std.HashMap.getElem?_filterMap', Std.HashMap.getElem?_filterMap',
      MapRecast.ofList (Option.map f) (valuesOf batch) k]
    cases (Std.HashMap.ofList (valuesOf batch))[k]? <;> rfl

end CacheLayer
