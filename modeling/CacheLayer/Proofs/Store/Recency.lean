import CacheLayer.Store.Recency
/-!
# The order of last use as a list

The two tables of `Recency` are inverse to each other, so that together they are one list of
different keys, the one touched longest ago first. Every operation is a plain operation on that
list.

## Key results

- `Recency.mem_keys`: the keys are those that have a tick
- `Recency.keys_touch`: a touched key goes to the end
- `Recency.keys_remove`: a removed key goes away
- `Recency.evictOldest_of_cons`: the first key is evicted
-/

namespace CacheLayer

namespace Recency

variable {κ : Type}

/-! ## Tables in the order of their keys -/

/-- The first entry of a tree is the first one in order. -/
private theorem impl_minEntry?_eq_head? {α β : Type}
    (t : Std.DTreeMap.Internal.Impl α fun _ => β) :
    Std.DTreeMap.Internal.Impl.Const.minEntry? t =
      (Std.DTreeMap.Internal.Impl.Const.toList t).head? := by
  rw [Std.DTreeMap.Internal.Impl.Const.toList_eq_toListModel_map]
  induction t using Std.DTreeMap.Internal.Impl.Const.minEntry?.induct with
  | case1 => simp [Std.DTreeMap.Internal.Impl.Const.minEntry?]
  | case2 => simp [Std.DTreeMap.Internal.Impl.Const.minEntry?]
  | case3 _ _ _ _ _ _ _ _ _ ih =>
    rw [Std.DTreeMap.Internal.Impl.Const.minEntry?, ih,
      Std.DTreeMap.Internal.Impl.toListModel_inner]
    simp

private theorem minEntry?_eq_head? (m : Std.TreeMap Nat κ) : m.minEntry? = m.toList.head? :=
  impl_minEntry?_eq_head? m.inner.inner

/-- A list in order that has the entries of a table is the list of the table. -/
private theorem toList_eq_of_pairwise {m : Std.TreeMap Nat κ} {l : List (Nat × κ)}
    (hl : l.Pairwise fun p q => p.1 < q.1)
    (hmem : ∀ t k, m[t]? = some k ↔ (t, k) ∈ l) : m.toList = l := by
  have hm : m.toList.Pairwise fun p q => p.1 < q.1 :=
    Std.TreeMap.ordered_keys_toList.imp fun h => Nat.compare_eq_lt.1 h
  have hnodup : ∀ {l : List (Nat × κ)}, l.Pairwise (fun p q => p.1 < q.1) → l.Nodup := by
    intro l h
    apply h.imp
    intro p q hlt heq
    rw [heq] at hlt
    omega
  -- The same entries in one and the same order are the same list.
  have hperm : m.toList.Perm l := by
    rw [List.perm_ext_iff_of_nodup (hnodup hm) (hnodup hl)]
    intro p
    obtain ⟨t, k⟩ := p
    rw [Std.TreeMap.mem_toList_iff_getElem?_eq_some]
    exact hmem t k
  refine hperm.eq_of_pairwise ?_ hm hl
  intro p q _ _ hpq hqp
  omega

/-! ## The invariant -/

variable [BEq κ] [Hashable κ]

/-- The two tables are inverse to each other, and every tick has been taken. -/
structure WF (r : Recency κ) : Prop where
  tick_iff : ∀ (k : κ) (t : Nat), r.ticks[k]? = some t ↔ r.order[t]? = some k
  tick_lt : ∀ {t : Nat} {k : κ}, r.order[t]? = some k → t < r.nextTick

/-- The keys, the one touched longest ago first. -/
def keys (r : Recency κ) : List κ := r.order.toList.map Prod.snd

/-- At first there are no keys. -/
protected theorem WF.empty : WF ({} : Recency κ) where
  tick_iff k t := by simp
  tick_lt h := by simp at h

variable {r : Recency κ}

/-- A key has one tick only. -/
private theorem WF.tick_eq (h : r.WF) {k : κ} {t t' : Nat} (ht : r.order[t]? = some k)
    (ht' : r.order[t']? = some k) : t = t' := by
  rw [← h.tick_iff] at ht ht'
  exact Option.some.inj (ht.symm.trans ht')

/-- No key is there twice. -/
theorem nodup_keys (h : r.WF) : r.keys.Nodup := by
  refine List.pairwise_map.2 (Std.TreeMap.distinct_keys_toList.imp_of_mem ?_)
  intro p q hmem hmem' hne hk
  obtain ⟨t, k⟩ := p
  obtain ⟨t', k'⟩ := q
  rw [Std.TreeMap.mem_toList_iff_getElem?_eq_some] at hmem hmem'
  simp only at hk hne
  subst hk
  exact hne (Nat.compare_eq_eq.2 (h.tick_eq hmem hmem'))

/-! ## Removing keys -/

theorem order_remove (h : r.WF) (k k' : κ) (t : Nat) :
    (r.remove k).order[t]? = some k' ↔ r.order[t]? = some k' ∧ k' ≠ k := by
  obtain ⟨ticks, order, tick⟩ := r
  have htick := h.tick_iff
  simp only [remove] at htick ⊢
  cases hlast : ticks[k]? with
  | none =>
    -- Without a tick the key is not in the order.
    constructor
    · intro ht
      refine ⟨ht, fun heq => ?_⟩
      rw [heq, ← htick, hlast] at ht
      cases ht
    · exact And.left
  | some last =>
    -- Only this tick is taken out of the order, and it belongs to no other key.
    have hlast' := (htick k last).1 hlast
    simp only [Std.TreeMap.getElem?_erase, Nat.compare_eq_eq]
    constructor
    · intro ht
      split at ht
      · exact nomatch ht
      · next hne =>
        refine ⟨ht, fun heq => ?_⟩
        subst heq
        exact hne (h.tick_eq hlast' ht)
    · intro hother
      obtain ⟨ht, hne⟩ := hother
      rw [if_neg ?_]
      · exact ht
      · intro heq
        rw [heq, ht] at hlast'
        exact hne (Option.some.inj hlast')

theorem nextTick_remove (r : Recency κ) (k : κ) : (r.remove k).nextTick = r.nextTick := by
  obtain ⟨ticks, order, tick⟩ := r
  simp only [remove]
  split <;> rfl

variable [LawfulBEq κ]

/-- The keys are those that have a tick. -/
theorem mem_keys (h : r.WF) {k : κ} : k ∈ r.keys ↔ k ∈ r.ticks := by
  rw [Std.HashMap.mem_iff_isSome_getElem?, Option.isSome_iff_exists, keys, List.mem_map]
  constructor
  · rintro ⟨⟨t, k⟩, hmem, rfl⟩
    exact ⟨t, (h.tick_iff k t).2 (Std.TreeMap.mem_toList_iff_getElem?_eq_some.1 hmem)⟩
  · rintro ⟨t, ht⟩
    exact ⟨(t, k), Std.TreeMap.mem_toList_iff_getElem?_eq_some.2 ((h.tick_iff k t).1 ht), rfl⟩

theorem ticks_remove (r : Recency κ) (k k' : κ) :
    (r.remove k).ticks[k']? = if k' == k then none else r.ticks[k']? := by
  obtain ⟨ticks, order, tick⟩ := r
  simp only [remove]
  by_cases hk : k' = k
  · subst hk
    simp only [BEq.rfl, if_true]
    cases hlast : ticks[k']? with
    | none => exact hlast
    | some last => simp
  · rw [if_neg (by simpa using hk)]
    cases ticks[k]? with
    | none => rfl
    | some last => simp [Std.HashMap.getElem?_erase, Ne.symm hk]

theorem mem_ticks_remove {k k' : κ} : k' ∈ (r.remove k).ticks ↔ k' ≠ k ∧ k' ∈ r.ticks := by
  rw [Std.HashMap.mem_iff_isSome_getElem?, Std.HashMap.mem_iff_isSome_getElem?, ticks_remove]
  by_cases hk : k' = k <;> simp [hk]

theorem WF.remove (h : r.WF) (k : κ) : (r.remove k).WF where
  tick_iff k' t := by
    rw [ticks_remove, order_remove h, ← h.tick_iff]
    by_cases hk : k' = k
    · simp [hk]
    · simp [hk]
  tick_lt {t k'} ht := by
    rw [nextTick_remove]
    exact h.tick_lt ((order_remove h k k' t).1 ht).1

/-- A removed key goes away; the others stay in order. -/
theorem keys_remove (h : r.WF) (k : κ) : (r.remove k).keys = r.keys.filter (· != k) := by
  have hlist : (r.remove k).order.toList = r.order.toList.filter fun p => p.2 != k := by
    apply toList_eq_of_pairwise
    · exact (Std.TreeMap.ordered_keys_toList.imp fun h => Nat.compare_eq_lt.1 h).filter _
    · intro t k'
      rw [order_remove h, List.mem_filter, Std.TreeMap.mem_toList_iff_getElem?_eq_some]
      simp
  rw [keys, keys, hlist, List.filter_map]
  rfl

/-! ## Touching keys -/

/-- A touch removes the key and lets it come back with the next tick. -/
theorem touch_eq (r : Recency κ) (k : κ) :
    (r.touch k).order = (r.remove k).order.insert r.nextTick k ∧
      (r.touch k).nextTick = r.nextTick + 1 ∧
      ∀ k', (r.touch k).ticks[k']? =
        if k' == k then some r.nextTick else (r.remove k).ticks[k']? := by
  obtain ⟨ticks, order, tick⟩ := r
  refine ⟨?_, rfl, ?_⟩
  · simp only [touch, remove]
    cases ticks[k]? <;> rfl
  · intro k'
    rw [ticks_remove]
    simp only [touch, Std.HashMap.getElem?_insert, BEq.comm (a := k)]
    split
    · rfl
    · rfl

theorem mem_ticks_touch {k k' : κ} : k' ∈ (r.touch k).ticks ↔ k' = k ∨ k' ∈ r.ticks := by
  rw [Std.HashMap.mem_iff_isSome_getElem?, (touch_eq r k).2.2]
  by_cases hk : k' = k
  · simp [hk]
  · rw [if_neg (by simpa using hk), ← Std.HashMap.mem_iff_isSome_getElem?, mem_ticks_remove]
    simp [hk]

theorem order_touch (h : r.WF) (k k' : κ) (t : Nat) :
    (r.touch k).order[t]? = some k' ↔
      (r.order[t]? = some k' ∧ k' ≠ k) ∨ (t = r.nextTick ∧ k' = k) := by
  simp only [(touch_eq r k).1, Std.TreeMap.getElem?_insert, Nat.compare_eq_eq]
  by_cases ht : r.nextTick = t
  · -- The next tick was not taken before.
    subst ht
    have hfree : r.order[r.nextTick]? ≠ some k' := fun hk => Nat.lt_irrefl _ (h.tick_lt hk)
    simp [hfree, eq_comm]
  · rw [if_neg ht, order_remove h]
    have ht' : t ≠ r.nextTick := fun hte => ht hte.symm
    simp [ht']

theorem WF.touch (h : r.WF) (k : κ) : (r.touch k).WF where
  tick_iff k' t := by
    rw [(touch_eq r k).2.2, order_touch h, ticks_remove, ← h.tick_iff]
    by_cases hk : k' = k
    · simp [hk, eq_comm]
    · simp [hk]
  tick_lt {t k'} ht := by
    rw [(touch_eq r k).2.1]
    rcases (order_touch h k k' t).1 ht with ⟨ht, -⟩ | ⟨rfl, -⟩
    · have hlt := h.tick_lt ht
      omega
    · omega

/-- A touched key goes to the end; the others stay in order. -/
theorem keys_touch (h : r.WF) (k : κ) : (r.touch k).keys = r.keys.filter (· != k) ++ [k] := by
  have hlist : (r.touch k).order.toList =
      (r.order.toList.filter fun p => p.2 != k) ++ [(r.nextTick, k)] := by
    apply toList_eq_of_pairwise
    · rw [List.pairwise_append]
      refine ⟨(Std.TreeMap.ordered_keys_toList.imp fun h => Nat.compare_eq_lt.1 h).filter _,
        List.pairwise_singleton .., ?_⟩
      -- The new tick is after all others.
      intro p hmem q hq
      obtain ⟨t, k'⟩ := p
      rw [List.mem_singleton.1 hq]
      exact h.tick_lt (Std.TreeMap.mem_toList_iff_getElem?_eq_some.1 (List.mem_filter.1 hmem).1)
    · intro t k'
      rw [order_touch h, List.mem_append, List.mem_filter,
        Std.TreeMap.mem_toList_iff_getElem?_eq_some]
      simp
  rw [keys, keys, hlist, List.map_append, List.filter_map]
  rfl

/-! ## Evicting keys -/

omit [LawfulBEq κ] in
/-- Without keys there is nothing to evict. -/
theorem evictOldest_of_nil (hkeys : r.keys = []) : r.evictOldest = (none, r) := by
  have hlist : r.order.toList = [] := List.map_eq_nil_iff.1 hkeys
  rw [evictOldest, minEntry?_eq_head?, hlist]
  rfl

omit [LawfulBEq κ] in
/-- Otherwise the first key is evicted, as if it were removed. -/
theorem evictOldest_of_cons (h : r.WF) {k : κ} {ks : List κ} (hkeys : r.keys = k :: ks) :
    r.evictOldest = (some k, r.remove k) := by
  obtain ⟨⟨t, k'⟩, l, hlist, hk', -⟩ := List.map_eq_cons_iff.1 hkeys
  obtain rfl : k' = k := hk'
  -- The first key of the order has the first tick as its own, so that both tables lose the pair.
  have hmem : (t, k') ∈ r.order.toList := hlist ▸ List.mem_cons_self
  have ht := (h.tick_iff k' t).2 (Std.TreeMap.mem_toList_iff_getElem?_eq_some.1 hmem)
  rw [evictOldest, minEntry?_eq_head?, hlist]
  obtain ⟨ticks, order, tick⟩ := r
  simp only at ht
  simp [remove, ht]

omit [LawfulBEq κ] in
theorem nextTick_evictOldest (r : Recency κ) : r.evictOldest.2.nextTick = r.nextTick := by
  rw [evictOldest]
  split <;> rfl

end Recency

end CacheLayer
