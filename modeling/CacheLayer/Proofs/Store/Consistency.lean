import CacheLayer.Proofs.Store.Refinement
import CacheLayer.Proofs.Store.Versions
/-!
# The tables of a store stay in step

A store keeps the same keys in three tables, and hands out ticks and versions from two counters.
`Store.Aligned` says that the tables have the same keys and no more of them than there is room for;
`Store.Consistent` adds that no version is there twice. From the first of the two alone it follows
that a full store always finds an entry to evict for a new key.

## Key results

- `Store.Aligned.evicts`: a full store evicts one stored entry for a new key
- `Store.Consistent.perform`: every operation keeps the tables in step
- `Store.consistent_run`: so they are after any operations at any instants
-/

namespace CacheLayer

namespace Store

variable {κ ν : Type} [BEq κ] [Hashable κ]

/-- The tables of a store have the same keys, no more of them than there is room for. -/
structure Aligned (s : Store κ ν) : Prop where
  /-- Ticks and keys are inverse to each other, and every tick has been taken. -/
  recency : s.recency.WF
  /-- The stored keys are those that have a tick. -/
  mem_iff : ∀ k, k ∈ s.entries ↔ k ∈ s.recency.ticks
  pos : 0 < s.capacity
  size_le : s.size ≤ s.capacity

/-- What a store does to its entries to make room for a key: it loses the entry of another key, the
one used longest ago. -/
structure Evicts (s : Store κ ν) (k victim : κ) : Prop where
  oldest : s.recency.evictOldest.1 = some victim
  stored : victim ∈ s.entries
  ne : victim ≠ k
  entries : ∀ k', (s.makeRoom k).entries[k']? = if victim == k' then none else s.entries[k']?
  size_eq : (s.makeRoom k).size + 1 = s.size

namespace Aligned

variable {s : Store κ ν}

theorem ofLimits (maxEntries ttl : Nat) : (Store.ofLimits maxEntries ttl : Store κ ν).Aligned where
  recency := .empty
  mem_iff k := by simp [Store.ofLimits]
  pos := Nat.le_max_left 1 maxEntries
  size_le := by simp [size, Store.ofLimits]

/-- The counters do not matter. -/
theorem counters (h : s.Aligned) (c : Stats) : ({ s with counters := c } : Store κ ν).Aligned :=
  ⟨h.recency, h.mem_iff, h.pos, h.size_le⟩

variable [LawfulBEq κ]

/-! ## Dropping and adding entries -/

/-- An entry is dropped together with its tick. -/
theorem erase (h : s.Aligned) (k : κ) : (s.erase k).Aligned where
  recency := h.recency.remove k
  mem_iff k' := by
    simp only [Store.erase, Std.HashMap.mem_erase, Recency.mem_ticks_remove, h.mem_iff k',
      beq_eq_false_iff_ne, ne_comm]
  pos := h.pos
  size_le := Nat.le_trans (Std.HashMap.size_erase_le) h.size_le

/-- A stored key may be touched. -/
theorem touch (h : s.Aligned) {k : κ} (hk : k ∈ s.entries) :
    ({ s with recency := s.recency.touch k } : Store κ ν).Aligned where
  recency := h.recency.touch k
  mem_iff k' := by
    rw [Recency.mem_ticks_touch, ← h.mem_iff k']
    constructor
    · exact .inr
    · rintro (rfl | hk')
      · exact hk
      · exact hk'
  pos := h.pos
  size_le := h.size_le

/-- An entry is added together with its tick, in the place of an earlier one or where there is
room. -/
theorem insert (h : s.Aligned) {k : κ} (hroom : k ∈ s.entries ∨ s.size < s.capacity) (e : Entry ν)
    (version : Nat) :
    ({ s with
      entries := s.entries.insert k e
      recency := s.recency.touch k
      nextVersion := version } : Store κ ν).Aligned where
  recency := h.recency.touch k
  mem_iff k' := by
    rw [Std.HashMap.mem_insert, Recency.mem_ticks_touch, h.mem_iff k', beq_iff_eq, eq_comm]
  pos := h.pos
  size_le := by
    have hle := h.size_le
    simp only [size, Std.HashMap.size_insert] at hroom hle ⊢
    split
    · exact hle
    · next hk =>
      have hlt := hroom.resolve_left hk
      omega

/-! ## Making room -/

/-- A full store has a key that was used longest ago. -/
theorem exists_oldest (h : s.Aligned) (hfull : s.capacity ≤ s.size) :
    ∃ victim ∈ s.entries, s.recency.evictOldest = (some victim, s.recency.remove victim) := by
  have hpos := h.pos
  have hsome : s.entries.isEmpty = false := by
    simp only [Std.HashMap.isEmpty_eq_size_eq_zero, beq_eq_false_iff_ne]
    simp only [size] at hfull
    omega
  obtain ⟨k, hk⟩ := Std.HashMap.isEmpty_eq_false_iff_exists_mem.1 hsome
  -- The key is in the order of last use, which therefore has a first key.
  have hkeys := (Recency.mem_keys h.recency).2 ((h.mem_iff k).1 hk)
  obtain ⟨victim, ks, hlist⟩ := List.exists_cons_of_ne_nil (List.ne_nil_of_mem hkeys)
  refine ⟨victim, ?_, Recency.evictOldest_of_cons h.recency hlist⟩
  rw [h.mem_iff, ← Recency.mem_keys h.recency, hlist]
  exact List.mem_cons_self

/-- A full store makes room for a new key by dropping one entry. -/
theorem makeRoom_of_full (h : s.Aligned) {k : κ} (hk : k ∉ s.entries)
    (hfull : s.capacity ≤ s.size) :
    ∃ victim ∈ s.entries, s.recency.evictOldest.1 = some victim ∧
      s.makeRoom k = { s.erase victim with counters := s.counters.addEviction } := by
  obtain ⟨victim, hvictim, holdest⟩ := h.exists_oldest hfull
  have hnone : ¬ (s.entries.contains k ∨ s.entries.size < s.capacity) := by
    rw [Std.HashMap.contains_iff_mem, not_or, Nat.not_lt]
    exact ⟨hk, hfull⟩
  refine ⟨victim, hvictim, by rw [holdest], ?_⟩
  rw [Store.makeRoom, if_neg hnone, holdest]
  rfl

omit [LawfulBEq κ] in
/-- A key that is stored, or that there is room for, needs none. -/
theorem makeRoom_of_room [EquivBEq κ] [LawfulHashable κ] {k : κ}
    (hroom : k ∈ s.entries ∨ s.size < s.capacity) : s.makeRoom k = s := by
  rw [← Std.HashMap.contains_iff_mem] at hroom
  exact if_pos hroom

/-- The entry that goes is that of another key. -/
theorem evicts (h : s.Aligned) {k : κ} (hk : k ∉ s.entries) (hfull : s.capacity ≤ s.size) :
    ∃ victim, s.Evicts k victim := by
  obtain ⟨victim, hvictim, holdest, hroom⟩ := h.makeRoom_of_full hk hfull
  refine ⟨victim, holdest, hvictim, fun heq => hk (heq ▸ hvictim), fun k' => ?_, ?_⟩
  · rw [hroom]
    exact Std.HashMap.getElem?_erase
  · rw [hroom]
    exact size_erase_of_mem hvictim

theorem makeRoom (h : s.Aligned) (k : κ) : (s.makeRoom k).Aligned := by
  by_cases hroom : k ∈ s.entries ∨ s.size < s.capacity
  · rw [makeRoom_of_room hroom]
    exact h
  · obtain ⟨hk, hfull⟩ := not_or.1 hroom
    obtain ⟨victim, -, -, heq⟩ := h.makeRoom_of_full hk (Nat.le_of_not_lt hfull)
    rw [heq]
    exact (h.erase victim).counters _

/-- When room has been made, the key is stored or there is room for it. -/
theorem room_makeRoom (h : s.Aligned) (k : κ) :
    k ∈ (s.makeRoom k).entries ∨ (s.makeRoom k).size < (s.makeRoom k).capacity := by
  by_cases hroom : k ∈ s.entries ∨ s.size < s.capacity
  · rw [makeRoom_of_room hroom]
    exact hroom
  · obtain ⟨hk, hfull⟩ := not_or.1 hroom
    obtain ⟨victim, hvictim, -, heq⟩ := h.makeRoom_of_full hk (Nat.le_of_not_lt hfull)
    have hsize := size_erase_of_mem hvictim
    have hle := h.size_le
    right
    rw [heq]
    show (s.erase victim).size < s.capacity
    omega

/-! ## Operations -/

theorem peekEntry (h : s.Aligned) (now : Nat) (k : κ) : (s.peekEntry now k).2.Aligned := by
  obtain ⟨-, heq⟩ | ⟨e, -, -, heq⟩ | ⟨e, -, -, heq⟩ := s.peekEntry_cases now k
  · rw [heq]
    exact h
  · rw [heq]
    exact (h.erase k).counters _
  · rw [heq]
    exact h

theorem get (h : s.Aligned) (now : Nat) (k : κ) : (s.get now k).2.Aligned := by
  obtain ⟨-, heq⟩ | ⟨e, -, -, heq⟩ | ⟨e, he, -, heq⟩ := s.peekEntry_cases now k
  · rw [Store.get, heq]
    exact h.counters _
  · rw [Store.get, heq]
    exact (h.erase k).counters _
  · -- Only a key that is there is touched.
    rw [Store.get, heq]
    obtain ⟨hk, -⟩ := Std.HashMap.getElem?_eq_some_iff.1 he
    exact (h.touch hk).counters _

theorem set (h : s.Aligned) (now : Nat) (k : κ) (v : ν) : (s.set now k v).Aligned :=
  (h.makeRoom k).insert (h.room_makeRoom k) _ _

theorem setIf (h : s.Aligned) (now : Nat) (k : κ) (v : ν) (condition : Option (Entry ν) → Bool) :
    (s.setIf now k v condition).2.Aligned := by
  have hlook := h.peekEntry now k
  simp only [Store.setIf]
  split
  · exact hlook.set now k v
  · exact hlook

theorem delete (h : s.Aligned) (now : Nat) (k : κ) : (s.delete now k).2.Aligned := by
  have hlook := h.peekEntry now k
  rw [Store.delete]
  generalize s.peekEntry now k = looked at hlook
  obtain ⟨_ | e, s'⟩ := looked
  · exact hlook
  · exact hlook.erase k

theorem sweep (h : s.Aligned) (now : Nat) : (s.sweep now).2.Aligned := by
  have hall : ∀ (ks : List κ) {s : Store κ ν}, s.Aligned → (ks.foldl Store.erase s).Aligned := by
    -- Induction on the keys that are left, for all stores.
    intro ks
    induction ks with
    | nil => exact fun h => h
    | cons k ks ih => exact fun h => ih (h.erase k)
  exact (hall (s.expiredKeys now) h).counters _

theorem perform [BEq ν] (h : s.Aligned) (now : Nat) (op : Op κ ν) :
    (s.perform now op).2.Aligned := by
  cases op using Op.cases_conditional with
  | get k => exact h.get now k
  | peek k => exact h.peekEntry now k
  | peekVersioned k => exact h.peekEntry now k
  | set k v => exact h.set now k v
  | conditional op k v condition hop =>
    rw [perform_of_conditional s now hop]
    exact h.setIf now k v condition
  | delete k => exact h.delete now k
  | sweep => exact h.sweep now

end Aligned

/-! ## Versions -/

/-- The tables of a store are in step, and no version is there twice. -/
structure Consistent (s : Store κ ν) : Prop extends Aligned s where
  /-- Every version in the store has been taken. -/
  dated : s.Dated
  distinct : ∀ {k k' : κ} {e e' : Entry ν}, s.entries[k]? = some e → s.entries[k']? = some e' →
    e.version = e'.version → k = k'

/-- A new entry has a version that no other one has. -/
theorem Moves.distinct {k? : Option κ} {s s' : Store κ ν} (hm : Moves k? s s') (hdated : s.Dated)
    (hdistinct : ∀ {k k' : κ} {e e' : Entry ν}, s.entries[k]? = some e →
      s.entries[k']? = some e' → e.version = e'.version → k = k')
    {k k' : κ} {e e' : Entry ν} (he : s'.entries[k]? = some e) (he' : s'.entries[k']? = some e')
    (hversion : e.version = e'.version) : k = k' := by
  rcases hm.entry he with hold | ⟨hk, hnew, -⟩
  · rcases hm.entry he' with hold' | ⟨-, hnew', -⟩
    · exact hdistinct hold hold' hversion
    · have hlt := hdated k e hold
      omega
  · rcases hm.entry he' with hold' | ⟨hk', -, -⟩
    · have hlt := hdated k' e' hold'
      omega
    · exact Option.some.inj (hk.symm.trans hk')

namespace Consistent

variable {s : Store κ ν}

theorem ofLimits (maxEntries ttl : Nat) :
    (Store.ofLimits maxEntries ttl : Store κ ν).Consistent where
  toAligned := .ofLimits maxEntries ttl
  dated := dated_ofLimits maxEntries ttl
  distinct he := by simp [Store.ofLimits] at he

variable [LawfulBEq κ] [BEq ν]

theorem perform (h : s.Consistent) (now : Nat) (op : Op κ ν) :
    (s.perform now op).2.Consistent where
  toAligned := h.toAligned.perform now op
  dated := h.dated.moves (moves_perform s now op)
  distinct := (moves_perform s now op).distinct h.dated h.distinct

theorem run (h : s.Consistent) (ops : List (Nat × Op κ ν)) : (s.run ops).Consistent := by
  induction ops generalizing s with
  | nil => exact h
  | cons p ops ih => exact ih (h.perform p.1 p.2)

end Consistent

/-! ## Limits -/

theorem capacity_peekEntry (s : Store κ ν) (now : Nat) (k : κ) :
    (s.peekEntry now k).2.capacity = s.capacity := by
  obtain ⟨-, heq⟩ | ⟨e, -, -, heq⟩ | ⟨e, -, -, heq⟩ := s.peekEntry_cases now k
  all_goals exact congrArg (fun looked => looked.2.capacity) heq

theorem capacity_makeRoom (s : Store κ ν) (k : κ) : (s.makeRoom k).capacity = s.capacity := by
  rw [makeRoom]
  split
  · rfl
  · split <;> rfl

theorem capacity_set (s : Store κ ν) (now : Nat) (k : κ) (v : ν) :
    (s.set now k v).capacity = s.capacity :=
  capacity_makeRoom s k

theorem capacity_setIf (s : Store κ ν) (now : Nat) (k : κ) (v : ν)
    (condition : Option (Entry ν) → Bool) :
    (s.setIf now k v condition).2.capacity = s.capacity := by
  simp only [setIf]
  split
  · rw [capacity_set, capacity_peekEntry]
  · rw [capacity_peekEntry]

/-- No operation changes how many entries there may be. -/
theorem capacity_perform [BEq ν] (s : Store κ ν) (now : Nat) (op : Op κ ν) :
    (s.perform now op).2.capacity = s.capacity := by
  have hlook := capacity_peekEntry s now
  cases op using Op.cases_conditional with
  | get k =>
    rw [← hlook k, perform, get]
    generalize s.peekEntry now k = looked
    obtain ⟨_ | e, s'⟩ := looked <;> rfl
  | peek k => exact hlook k
  | peekVersioned k => exact hlook k
  | set k v => exact capacity_set s now k v
  | conditional op k v condition hop =>
    rw [perform_of_conditional s now hop]
    exact capacity_setIf s now k v condition
  | delete k =>
    rw [← hlook k, perform, delete]
    generalize s.peekEntry now k = looked
    obtain ⟨_ | e, s'⟩ := looked <;> rfl
  | sweep => exact (frame_foldl_erase (s.expiredKeys now) s).2.1

theorem capacity_run [BEq ν] (s : Store κ ν) (ops : List (Nat × Op κ ν)) :
    (s.run ops).capacity = s.capacity := by
  induction ops generalizing s with
  | nil => rfl
  | cons p ops ih => exact (ih (s.perform p.1 p.2).2).trans (capacity_perform s p.1 p.2)

variable [LawfulBEq κ] [BEq ν]

/-- After any operations at any instants the tables of a store are in step. Every tick and every
version in it is at most the number of the operations. For a key that is stored, or that there is
room for, a write drops no entry; for any other key it evicts one of another key. So at no moment
are there more entries than allowed, not even before the new entry is added. -/
theorem consistent_run (maxEntries ttl : Nat) (ops : List (Nat × Op κ ν)) :
    let s := (ofLimits maxEntries ttl : Store κ ν).run ops
    s.Consistent ∧ s.capacity = max 1 maxEntries ∧
      s.recency.nextTick ≤ ops.length ∧ s.nextVersion ≤ ops.length + 1 ∧
      ∀ k, ((k ∈ s.entries ∨ s.size < max 1 maxEntries) ∧ s.makeRoom k = s ∨
          k ∉ s.entries ∧ s.size = max 1 maxEntries ∧ ∃ victim, s.Evicts k victim) ∧
        (s.makeRoom k).size ≤ max 1 maxEntries ∧
        ∀ now v, (s.set now k v).size ≤ max 1 maxEntries := by
  intro s
  have hs : s.Consistent := (Consistent.ofLimits maxEntries ttl).run ops
  have hcapacity : s.capacity = max 1 maxEntries := capacity_run _ ops
  obtain ⟨hticks, hversions⟩ := taken_run_le (ofLimits maxEntries ttl : Store κ ν) ops
  have hle := hs.size_le
  refine ⟨hs, hcapacity, ?_, ?_, fun k => ⟨?_, ?_, fun now v => ?_⟩⟩
  · exact Nat.le_trans hticks (Nat.le_of_eq (Nat.zero_add _))
  · exact Nat.le_trans hversions (Nat.le_of_eq (Nat.add_comm _ _))
  · rw [← hcapacity]
    -- The write asks whether the key is stored and whether there is room, and evicts if neither is
    -- so.
    by_cases hroom : k ∈ s.entries ∨ s.size < s.capacity
    · exact .inl ⟨hroom, Aligned.makeRoom_of_room hroom⟩
    · obtain ⟨hk, hfull⟩ := not_or.1 hroom
      replace hfull := Nat.le_of_not_lt hfull
      exact .inr ⟨hk, Nat.le_antisymm hle hfull, hs.evicts hk hfull⟩
  · rw [← hcapacity, ← capacity_makeRoom s k]
    exact (hs.makeRoom k).size_le
  · rw [← hcapacity, ← capacity_set s now k v]
    exact (hs.set now k v).size_le

/-- Two keys in a store of two slots, of which key 1 is read once more. To write key 1 no entry is
dropped; for key 3 it is the one of key 2. -/
theorem consistent_run_twoSlots :
    let s := (ofLimits 2 10 : Store Nat Nat).run [(0, .set 1 10), (1, .set 2 20), (2, .get 1)]
    s.Consistent ∧ s.size = 2 ∧ s.makeRoom 1 = s ∧ s.Evicts 3 2 := by
  intro s
  have hholds := (Holds.ofLimits 2 10).run [(0, .set 1 10), (1, .set 2 20), (2, .get 1)]
  have hsize : s.size = 2 := hholds.size_eq
  have hkeys : s.recency.keys = [2, 1] := hholds.keys
  obtain ⟨hs, -, -, -, hroom⟩ := consistent_run 2 10 [(0, .set 1 10), (1, .set 2 20), (2, .get 1)]
  have hstored : ∀ k, k ∈ s.entries ↔ k ∈ [2, 1] := by
    intro k
    rw [hs.mem_iff, ← Recency.mem_keys hs.recency, hkeys]
  refine ⟨hs, hsize, ?_, ?_⟩
  · obtain ⟨⟨-, hkept⟩ | ⟨hnot, -⟩, -⟩ := hroom 1
    · exact hkept
    · exact absurd ((hstored 1).2 (by decide)) hnot
  · -- Key 3 is not stored and there is no room, so that the least recently used key goes.
    obtain ⟨⟨hfound | hless, -⟩ | ⟨-, -, victim, hevicts⟩, -⟩ := hroom 3
    · exact absurd ((hstored 3).1 hfound) (by decide)
    · rw [hsize] at hless
      exact absurd hless (by decide)
    · have holdest := hevicts.oldest
      rw [Recency.evictOldest_of_cons hs.recency hkeys] at holdest
      obtain rfl := Option.some.inj holdest
      exact hevicts

end Store

end CacheLayer
