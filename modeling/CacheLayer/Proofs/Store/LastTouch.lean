import CacheLayer.Proofs.Store.Recency
import Mathlib
/-!
# Keys by their last touch

Keys are touched, removed and evicted in any order. What has happened to them so far tells which of
them are present and when each of these was touched for the last time, and with that which one is
evicted next: the one whose last touch is the earliest.

## Key results

- `Recency.fst_evictOldest`: the first key is the one that is evicted
- `Recency.drainKeys_eq`: draining gives all keys in order and leaves none
- `Recency.Tells.add`: what has happened to the keys goes on telling their order
- `Recency.evicts_by_last_touch`: evictions and draining after any operations
-/

namespace CacheLayer

namespace Recency

variable {κ : Type}

/-! ## What has happened -/

/-- An operation on keys in the order of last use. -/
inductive Op (κ : Type) where
  | touch (k : κ)
  | remove (k : κ)
  | evict

/-- Whether an operation takes a tick. -/
def Op.touches : Op κ → Bool
  | .touch _ => true
  | _ => false

/-- What happens to a key. -/
inductive Deed (κ : Type) where
  | touched (k : κ)
  /-- The key was removed or evicted. -/
  | gone (k : κ)
deriving DecidableEq

/-- The key that something happens to. -/
def Deed.key : Deed κ → κ
  | .touched k => k
  | .gone k => k

/-- What an operation does, if it has evicted the given key. -/
def Op.deed? : Op κ → Option κ → Option (Deed κ)
  | .touch k, _ => some (.touched k)
  | .remove k, _ => some (.gone k)
  | .evict, k? => k?.map .gone

/-- Whether a key is gone after every touch of it. The deeds are listed the latest first. -/
def GoneSince (k : κ) (past : List (Deed κ)) : Prop :=
  ∀ later earlier, past = later ++ .touched k :: earlier → .gone k ∈ later

section

variable [BEq κ]

/-- When a key was touched for the last time, if it is not gone since then. The time of a deed is
the number of those before it. -/
def lastTouch? (k : κ) : List (Deed κ) → Option Nat
  | [] => none
  | .touched k' :: past => if k' == k then some past.length else lastTouch? k past
  | .gone k' :: past => if k' == k then none else lastTouch? k past

/-- Whether two keys are present, and the last touch of the first one was before that of the
other. -/
def TouchedBefore (past : List (Deed κ)) (k k' : κ) : Prop :=
  ∃ t t', lastTouch? k past = some t ∧ lastTouch? k' past = some t' ∧ t < t'

/-- No two keys were both touched before the other one. -/
theorem TouchedBefore.asymm {past : List (Deed κ)} {k k' : κ} (h : TouchedBefore past k k') :
    ¬ TouchedBefore past k' k := by
  rintro ⟨u', u, hu', hu, hlt'⟩
  obtain ⟨t, t', ht, ht', hlt⟩ := h
  obtain rfl := Option.some.inj (ht.symm.trans hu)
  obtain rfl := Option.some.inj (ht'.symm.trans hu')
  omega

theorem lastTouch?_lt {k : κ} {past : List (Deed κ)} {t : Nat} (h : lastTouch? k past = some t) :
    t < past.length := by
  induction past with
  | nil => cases h
  | cons deed past ih =>
    have hlater (h : lastTouch? k past = some t) : t < (deed :: past).length :=
      Nat.lt_succ_of_lt (ih h)
    cases deed with
    | touched k' =>
      rw [lastTouch?] at h
      split at h
      · obtain rfl := Option.some.inj h
        exact Nat.lt_succ_self _
      · exact hlater h
    | gone k' =>
      rw [lastTouch?] at h
      split at h
      · cases h
      · exact hlater h

/-- What happens to other keys does not matter to a key. -/
theorem lastTouch?_of_ne [LawfulBEq κ] {k : κ} {deed : Deed κ} (h : k ≠ deed.key)
    (past : List (Deed κ)) : lastTouch? k (deed :: past) = lastTouch? k past := by
  cases deed with
  | touched k' => exact if_neg (mt eq_of_beq (Ne.symm h))
  | gone k' => exact if_neg (mt eq_of_beq (Ne.symm h))

omit [BEq κ] in
/-- A touch among the deeds is the latest one or one of the others. -/
theorem goneSince_cons {k : κ} {deed : Deed κ} {past : List (Deed κ)} :
    GoneSince k (deed :: past) ↔ deed ≠ .touched k ∧ (deed = .gone k ∨ GoneSince k past) := by
  constructor
  · intro h
    refine ⟨fun hdeed => ?_, ?_⟩
    · exact absurd (h [] past (by rw [hdeed, List.nil_append])) List.not_mem_nil
    · by_cases hdeed : deed = .gone k
      · exact .inl hdeed
      · refine .inr fun later earlier hpast => ?_
        have hmem := h (deed :: later) earlier (by rw [hpast, List.cons_append])
        exact (List.mem_cons.1 hmem).resolve_left (Ne.symm hdeed)
  · rintro ⟨htouched, hrest⟩ later earlier hpast
    cases later with
    | nil => exact absurd (List.cons.inj hpast).1 htouched
    | cons deed' later =>
      obtain ⟨rfl, hothers⟩ := List.cons.inj hpast
      obtain rfl | hrest := hrest
      · exact List.mem_cons_self
      · exact List.mem_cons_of_mem _ (hrest later earlier hothers)

/-- A key is not present if and only if it is gone after every touch. -/
theorem lastTouch?_eq_none_iff [LawfulBEq κ] {k : κ} {past : List (Deed κ)} :
    lastTouch? k past = none ↔ GoneSince k past := by
  induction past with
  | nil => simp [lastTouch?, GoneSince]
  | cons deed past ih =>
    rw [goneSince_cons, ← ih]
    cases deed with
    | touched k' => by_cases hk : k' = k <;> simp [lastTouch?, hk]
    | gone k' => by_cases hk : k' = k <;> simp [lastTouch?, hk]

end

section

variable [BEq κ] [Hashable κ]

/-- Carries an operation out. The answer is the key that is evicted. -/
def perform (r : Recency κ) : Op κ → Option κ × Recency κ
  | .touch k => (none, r.touch k)
  | .remove k => (none, r.remove k)
  | .evict => r.evictOldest

/-- Keys in the order of last use, together with what has happened to them, the latest first. -/
structure Chronicle (κ : Type) [BEq κ] [Hashable κ] where
  recency : Recency κ := {}
  past : List (Deed κ) := []

namespace Chronicle

/-- Goes on with an operation. -/
def add (c : Chronicle κ) (op : Op κ) : Chronicle κ :=
  let (k?, r) := c.recency.perform op
  ⟨r, (op.deed? k?).toList ++ c.past⟩

/-- What operations come to from the start. -/
def of (ops : List (Op κ)) : Chronicle κ := ops.foldl add {}

end Chronicle

/-! ## Evicting and draining -/

variable {r : Recency κ}

/-- The first key is the one that is evicted. -/
theorem fst_evictOldest (h : r.WF) : r.evictOldest.1 = r.keys.head? := by
  cases hkeys : r.keys with
  | nil => rw [evictOldest_of_nil hkeys, List.head?_nil]
  | cons k ks => rw [evictOldest_of_cons h hkeys, List.head?_cons]

/-- Without keys there are no ticks either. -/
theorem isEmpty_of_nil [LawfulBEq κ] (h : r.WF) (hkeys : r.keys = []) :
    r.ticks.isEmpty ∧ r.order.isEmpty := by
  constructor
  · rw [Std.HashMap.isEmpty_iff_forall_not_mem]
    intro k hk
    rw [← mem_keys h, hkeys] at hk
    cases hk
  · have hlist : r.order.toList = [] := List.map_eq_nil_iff.1 hkeys
    rw [Std.TreeMap.isEmpty_eq_size_eq_zero, ← Std.TreeMap.length_toList, hlist]
    rfl

variable [LawfulBEq κ]

/-- Removing the first key leaves the others. -/
theorem keys_remove_of_cons (h : r.WF) {k : κ} {ks : List κ} (hkeys : r.keys = k :: ks) :
    (r.remove k).keys = ks := by
  have hnodup : k ∉ ks ∧ ks.Nodup := List.nodup_cons.1 (hkeys ▸ nodup_keys h)
  rw [keys_remove h, hkeys, List.filter_cons_of_neg (by simp), List.filter_eq_self]
  intro k' hk'
  rw [bne_iff_ne]
  exact ne_of_mem_of_not_mem hk' hnodup.1

/-- Draining with enough fuel gives all keys in order and leaves none. -/
theorem drainKeys_eq {fuel : Nat} (h : r.WF) (hfuel : r.keys.length ≤ fuel) :
    (drainKeys fuel r).1 = r.keys ∧ (drainKeys fuel r).2.WF ∧ (drainKeys fuel r).2.keys = [] := by
  -- Every eviction takes one key and one unit of the fuel.
  induction fuel generalizing r with
  | zero =>
    have hkeys : r.keys = [] := List.eq_nil_of_length_eq_zero (Nat.le_zero.1 hfuel)
    exact ⟨hkeys.symm, h, hkeys⟩
  | succ fuel ih =>
    cases hkeys : r.keys with
    | nil =>
      rw [drainKeys, evictOldest_of_nil hkeys]
      exact ⟨rfl, h, hkeys⟩
    | cons k ks =>
      have hrest := keys_remove_of_cons h hkeys
      have hlength : (r.remove k).keys.length ≤ fuel := by
        rw [hkeys, List.length_cons] at hfuel
        rw [hrest]
        omega
      obtain ⟨hdrained, hwf, hnone⟩ := ih (h.remove k) hlength
      rw [drainKeys, evictOldest_of_cons h hkeys]
      exact ⟨congrArg (k :: ·) (hdrained.trans hrest), hwf, hnone⟩

/-- Draining gives all keys in order and leaves none. -/
theorem drain_eq (h : r.WF) : r.drain.1 = r.keys ∧ r.drain.2.WF ∧ r.drain.2.keys = [] := by
  refine drainKeys_eq h (Nat.le_of_eq ?_)
  rw [keys, List.length_map, Std.TreeMap.length_toList]

/-! ## What the past tells -/

/-- The keys are those that the past tells to be present, in the order of their last touches. -/
structure Tells (past : List (Deed κ)) (r : Recency κ) : Prop where
  wf : r.WF
  mem_keys_iff : ∀ k, k ∈ r.keys ↔ (lastTouch? k past).isSome
  pairwise : r.keys.Pairwise (TouchedBefore past)

namespace Tells

variable {past : List (Deed κ)}

theorem empty : Tells ([] : List (Deed κ)) {} where
  wf := .empty
  mem_keys_iff k := by simp [mem_keys .empty, lastTouch?]
  pairwise := .nil

/-- What happens to one key leaves the others in order. -/
theorem pairwise_others (h : Tells past r) (deed : Deed κ) :
    (r.keys.filter (· != deed.key)).Pairwise (TouchedBefore (deed :: past)) := by
  refine (h.pairwise.filter _).imp_of_mem ?_
  intro k₁ k₂ hmem₁ hmem₂ hbefore
  rw [List.mem_filter, bne_iff_ne] at hmem₁ hmem₂
  simpa only [TouchedBefore, lastTouch?_of_ne hmem₁.2, lastTouch?_of_ne hmem₂.2] using hbefore

theorem touch (h : Tells past r) (k : κ) : Tells (.touched k :: past) (r.touch k) where
  wf := h.wf.touch k
  mem_keys_iff k' := by
    rw [keys_touch h.wf, List.mem_append, List.mem_filter, List.mem_singleton, lastTouch?]
    by_cases hk : k = k'
    · simp [hk]
    · simp [hk, Ne.symm hk, h.mem_keys_iff k']
  pairwise := by
    have hself : lastTouch? k (.touched k :: past) = some past.length := if_pos BEq.rfl
    rw [keys_touch h.wf, List.pairwise_append]
    refine ⟨h.pairwise_others (.touched k), List.pairwise_singleton .., ?_⟩
    -- No touch is later than this one.
    intro k₁ hmem k₂ hk₂
    obtain rfl := List.mem_singleton.1 hk₂
    rw [List.mem_filter, bne_iff_ne] at hmem
    obtain ⟨t, ht⟩ := Option.isSome_iff_exists.1 ((h.mem_keys_iff k₁).1 hmem.1)
    exact ⟨t, past.length, (lastTouch?_of_ne hmem.2 past).trans ht, hself, lastTouch?_lt ht⟩

theorem remove (h : Tells past r) (k : κ) : Tells (.gone k :: past) (r.remove k) where
  wf := h.wf.remove k
  mem_keys_iff k' := by
    rw [keys_remove h.wf, List.mem_filter, lastTouch?]
    by_cases hk : k = k'
    · simp [hk]
    · simp [hk, Ne.symm hk, h.mem_keys_iff k']
  pairwise := by
    rw [keys_remove h.wf]
    exact h.pairwise_others (.gone k)

/-- One more operation is told by one more deed, or by none if there was nothing to evict. -/
theorem add {c : Chronicle κ} (h : Tells c.past c.recency) (op : Op κ) :
    Tells (c.add op).past (c.add op).recency := by
  obtain ⟨r, past⟩ := c
  cases op with
  | touch k => exact h.touch k
  | remove k => exact h.remove k
  | evict =>
    -- An eviction is the removal of the first key, if there is one.
    simp only [Chronicle.add, perform]
    cases hkeys : r.keys with
    | nil =>
      rw [evictOldest_of_nil hkeys]
      exact h
    | cons k ks =>
      rw [evictOldest_of_cons h.wf hkeys]
      exact h.remove k

theorem of (ops : List (Op κ)) :
    Tells (Chronicle.of ops).past (Chronicle.of ops).recency := by
  -- One step after another, from wherever the keys are told.
  have hall (ops : List (Op κ)) {c : Chronicle κ} (h : Tells c.past c.recency) :
      Tells (ops.foldl .add c).past (ops.foldl .add c).recency := by
    induction ops generalizing c with
    | nil => exact h
    | cons op ops ih => exact ih (h.add op)
  exact hall ops .empty

omit [LawfulBEq κ] in
/-- The first key is the one that is present and whose last touch is before that of all others. -/
theorem head?_eq_some_iff (h : Tells past r) {k : κ} :
    r.keys.head? = some k ↔
      (lastTouch? k past).isSome ∧
        ∀ k', k' ≠ k → (lastTouch? k' past).isSome → TouchedBefore past k k' := by
  have hpairwise := h.pairwise
  constructor
  · intro hhead
    obtain ⟨ks, hkeys⟩ := List.head?_eq_some_iff.1 hhead
    refine ⟨(h.mem_keys_iff k).1 (hkeys ▸ List.mem_cons_self), fun k' hne hk' => ?_⟩
    rw [← h.mem_keys_iff, hkeys, List.mem_cons] at hk'
    rw [hkeys, List.pairwise_cons] at hpairwise
    exact hpairwise.1 k' (hk'.resolve_left hne)
  · rintro ⟨hpresent, hearliest⟩
    rw [← h.mem_keys_iff] at hpresent
    cases hkeys : r.keys with
    | nil => exact absurd (hkeys ▸ hpresent) List.not_mem_nil
    | cons first ks =>
      rw [List.head?_cons]
      by_cases hne : first = k
      · rw [hne]
      · -- Each of the two keys would have been touched before the other one.
        rw [hkeys, List.mem_cons] at hpresent
        rw [hkeys, List.pairwise_cons] at hpairwise
        have hmem : first ∈ r.keys := hkeys ▸ List.mem_cons_self
        have hbefore := hpairwise.1 k (hpresent.resolve_left (Ne.symm hne))
        exact absurd (hearliest first hne ((h.mem_keys_iff first).1 hmem)) hbefore.asymm

end Tells

/-! ## Ticks -/

omit [LawfulBEq κ] in
theorem nextTick_perform (r : Recency κ) (op : Op κ) :
    (r.perform op).2.nextTick = r.nextTick + if op.touches then 1 else 0 := by
  cases op with
  | touch k => rfl
  | remove k => exact nextTick_remove r k
  | evict => exact nextTick_evictOldest r

omit [LawfulBEq κ] in
/-- Every touch has taken one tick. -/
theorem nextTick_of (ops : List (Op κ)) :
    (Chronicle.of ops).recency.nextTick = ops.countP Op.touches := by
  have hall (ops : List (Op κ)) (c : Chronicle κ) :
      (ops.foldl .add c).recency.nextTick = c.recency.nextTick + ops.countP Op.touches := by
    induction ops generalizing c with
    | nil => rfl
    | cons op ops ih =>
      have hnext : (c.add op).recency.nextTick = c.recency.nextTick + if op.touches then 1 else 0 :=
        nextTick_perform c.recency op
      rw [List.foldl_cons, ih, hnext, List.countP_cons]
      omega
  exact (hall ops {}).trans (Nat.zero_add _)

/-- After any operations, no key is evicted if and only if every touched key has gone since; else it
is the present key whose last touch was before that of all others. Draining gives every present key
once, in the order of the last touches, and stops because none is left. As many ticks are taken as
there were touches. -/
theorem evicts_by_last_touch (ops : List (Op κ)) :
    let r := (Chronicle.of ops).recency
    let past := (Chronicle.of ops).past
    (r.evictOldest.1 = none ↔ ∀ k, GoneSince k past) ∧
    (∀ k, r.evictOldest.1 = some k ↔
      (lastTouch? k past).isSome ∧
        ∀ k', k' ≠ k → (lastTouch? k' past).isSome → TouchedBefore past k k') ∧
    (r.drain.1.Nodup ∧ (∀ k, k ∈ r.drain.1 ↔ (lastTouch? k past).isSome) ∧
      r.drain.1.Pairwise (TouchedBefore past)) ∧
    (r.drain.2.ticks.isEmpty ∧ r.drain.2.order.isEmpty ∧ r.drain.2.evictOldest.1 = none) ∧
    r.nextTick = ops.countP Op.touches := by
  intro r past
  have h : Tells past r := .of ops
  obtain ⟨hdrained, hwf, hnone⟩ := drain_eq h.wf
  obtain ⟨hticks, horder⟩ := isEmpty_of_nil hwf hnone
  refine ⟨?_, fun k => ?_, ?_, ⟨hticks, horder, ?_⟩, nextTick_of ops⟩
  · -- There is nothing to evict if no key has a tick.
    rw [fst_evictOldest h.wf, List.head?_eq_none_iff, List.eq_nil_iff_forall_not_mem]
    refine forall_congr' fun k => ?_
    rw [h.mem_keys_iff, Option.not_isSome_iff_eq_none, lastTouch?_eq_none_iff]
  · rw [fst_evictOldest h.wf, h.head?_eq_some_iff]
  · rw [hdrained]
    exact ⟨nodup_keys h.wf, h.mem_keys_iff, h.pairwise⟩
  · rw [evictOldest_of_nil hnone]

/-- Key 1 is touched once more before the eviction, so that key 2 goes; key 3 is removed, and key 2
comes back as the last one. -/
theorem evicts_by_last_touch_comesBack :
    let c := Chronicle.of [Op.touch 1, .touch 2, .touch 3, .touch 1, .evict, .remove 3, .touch 2]
    c.past = [.touched 2, .gone 3, .gone 2, .touched 1, .touched 3, .touched 2, .touched 1] ∧
      c.recency.evictOldest.1 = some 1 ∧ 3 ∉ c.recency.drain.1 ∧
      c.recency.drain.1.Pairwise (TouchedBefore c.past) := by
  intro c
  have hpast : c.past =
      [.touched 2, .gone 3, .gone 2, .touched 1, .touched 3, .touched 2, .touched 1] := by cbv
  obtain ⟨-, hevicted, ⟨-, hmem, hpairwise⟩, -⟩ := evicts_by_last_touch
    [Op.touch 1, .touch 2, .touch 3, .touch 1, .evict, .remove 3, .touch 2]
  refine ⟨hpast, (hevicted 1).2 ?_, ?_, hpairwise⟩
  · rw [hpast]
    refine ⟨by decide, fun k hne hk => ?_⟩
    -- Besides key 1 only key 2 is present.
    have htwo : k = 2 := by
      simp only [lastTouch?, beq_iff_eq] at hk
      grind
    subst htwo
    exact ⟨3, 6, rfl, rfl, by decide⟩
  · rw [hmem 3, hpast]
    decide

end

end Recency

end CacheLayer
