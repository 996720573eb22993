import CacheLayer.Proofs.Store.Accounting
import CacheLayer.Proofs.Store.Refinement
import CacheLayer.Proofs.Store.Roomy
/-!
# Sweeps go unnoticed

Of two stores one is swept now and then, between the operations that are given to both. Expired
entries, which only one of them still has, cannot be seen by any operation, neither then nor later.
As long as there is room for all keys that are written, the expired entries drive out no live ones
either. So the two stores stay alike: the same entries are live, the next write gets the same
version, and the same reads have been counted as hits.

## Key results

- `Store.Alike.sweep`: a sweep of one of two stores leaves them alike
- `Store.Alike.perform`: any other operation on both of them is answered alike and does so, too
- `Store.sweeps_unseen`: sweeps between the operations of a run change none of the other answers
-/

namespace CacheLayer

namespace Store

variable {κ ν : Type}

/-- Whether an operation is a sweep. -/
def Op.isSweep : Op κ ν → Bool
  | .sweep => true
  | _ => false

/-- The operations of a run that are not sweeps. -/
def unswept (ops : List (Nat × Op κ ν)) : List (Nat × Op κ ν) := ops.filter fun r => !r.2.isSweep

theorem unswept_append (ops ops' : List (Nat × Op κ ν)) :
    unswept (ops ++ ops') = unswept ops ++ unswept ops' :=
  List.filter_append ops ops'

variable [BEq κ] [Hashable κ]

section

variable [BEq ν]

/-- The answers of the operations of a run that are not sweeps. -/
def otherAnswers (s : Store κ ν) (ops : List (Nat × Op κ ν)) : List (Answer ν) :=
  ((ops.zip (s.answers ops)).filter fun r => !r.1.2.isSweep).map fun r => r.2.1

/-- The keys that a run writes. -/
def written (s : Store κ ν) (ops : List (Nat × Op κ ν)) : List κ :=
  (ops.zip (s.answers ops)).filterMap fun r => r.1.2.written? r.2.1

end

/-! ## Stores that are alike -/

/-- Stores of which the same entries are live from some instant on. The next write of each of them
gets the same version, and they have counted the same hits and misses. -/
structure Alike (now : Nat) (s s' : Store κ ν) : Prop where
  live : ∀ t, now ≤ t → ∀ k, s'.live? t k = s.live? t k
  nextVersion : s'.nextVersion = s.nextVersion
  readings : s'.readings = s.readings

namespace Alike

variable {s s' : Store κ ν} {now now' : Nat}

protected theorem refl (now : Nat) (s : Store κ ν) : Alike now s s := ⟨fun _ _ _ => rfl, rfl, rfl⟩

/-- What is alike stays so as time passes. -/
theorem later (h : Alike now s s') (hle : now ≤ now') : Alike now' s s' :=
  ⟨fun t ht k => h.live t (Nat.le_trans hle ht) k, h.nextVersion, h.readings⟩

variable [LawfulBEq κ] {ttl : Nat} {keys : List κ}

/-- A sweep of one store drops what cannot be seen in the other one. -/
theorem sweep (h : Alike now s s') : Alike now s (s'.sweep now).2 where
  live t ht k := (s'.live?_sweep ht k).trans (h.live t ht k)
  nextVersion := (Drops.sweep s' now).nextVersion.trans h.nextVersion
  readings := by
    let _ : BEq ν := ⟨fun _ _ => false⟩
    exact (readings_perform s' now .sweep).trans h.readings

/-- A look at a key finds the same entry in both stores. -/
theorem peekEntry (h : Alike now s s') (k : κ) :
    (s'.peekEntry now k).1 = (s.peekEntry now k).1 ∧
      Alike now (s.peekEntry now k).2 (s'.peekEntry now k).2 := by
  refine ⟨?_, fun t ht k' => ?_, ?_, ?_⟩
  · rw [peekEntry_fst, peekEntry_fst, h.live now (Nat.le_refl _)]
  · rw [live?_peekEntry s' ht, live?_peekEntry s ht, h.live t ht]
  · rw [(Drops.peekEntry s' now k).nextVersion, (Drops.peekEntry s now k).nextVersion,
      h.nextVersion]
  · rw [readings_peekEntry, readings_peekEntry, h.readings]

/-- A write puts the same entry into both stores, and drives nothing out. -/
theorem set (h : Alike now s s') (hs : s.RoomFor ttl keys) (hs' : s'.RoomFor ttl keys) {k : κ}
    (hk : k ∈ keys) (v : ν) : Alike now (s.set now k v) (s'.set now k v) where
  live t ht k' := by
    rw [hs.live?_set hk, hs'.live?_set hk, h.nextVersion, h.live t ht]
  nextVersion := by rw [nextVersion_set, nextVersion_set, h.nextVersion]
  readings := by rw [readings_set, readings_set, h.readings]

/-- A conditional write meets the same live entry in both stores. -/
theorem setIf (h : Alike now s s') (hs : s.RoomFor ttl keys) (hs' : s'.RoomFor ttl keys) {k : κ}
    {condition : Option (Entry ν) → Bool} (v : ν) (hk : (s.setIf now k v condition).1 → k ∈ keys) :
    (s'.setIf now k v condition).1 = (s.setIf now k v condition).1 ∧
      Alike now (s.setIf now k v condition).2 (s'.setIf now k v condition).2 := by
  obtain ⟨hfound, hlook⟩ := h.peekEntry k
  simp only [Store.setIf, hfound] at hk ⊢
  split
  · next hmet =>
    rw [if_pos hmet] at hk
    exact ⟨rfl, hlook.set (hs.peekEntry now k) (hs'.peekEntry now k) (hk rfl) v⟩
  · exact ⟨rfl, hlook⟩

theorem get (h : Alike now s s') (k : κ) :
    (s'.get now k).1 = (s.get now k).1 ∧ Alike now (s.get now k).2 (s'.get now k).2 := by
  obtain ⟨hfound, hlook⟩ := h.peekEntry k
  rw [Store.get, Store.get]
  generalize s.peekEntry now k = looked, s'.peekEntry now k = looked' at hfound hlook
  obtain ⟨e?, s₁⟩ := looked
  obtain ⟨e?', s₁'⟩ := looked'
  obtain rfl : e?' = e? := hfound
  obtain ⟨hhits, hmisses⟩ := Prod.mk.inj hlook.readings
  -- A read counts the same on both sides, and touches no entry.
  cases e?' with
  | none =>
    exact ⟨rfl, hlook.live, hlook.nextVersion,
      congrArg₂ Prod.mk hhits (congrArg (· + 1) hmisses)⟩
  | some e =>
    exact ⟨rfl, hlook.live, hlook.nextVersion,
      congrArg₂ Prod.mk (congrArg (· + 1) hhits) hmisses⟩

theorem delete (h : Alike now s s') (k : κ) :
    (s'.delete now k).1 = (s.delete now k).1 ∧
      Alike now (s.delete now k).2 (s'.delete now k).2 := by
  refine ⟨?_, fun t ht k' => ?_, ?_, ?_⟩
  · obtain ⟨hfound, -⟩ := h.peekEntry k
    rw [Store.delete, Store.delete]
    generalize s.peekEntry now k = looked, s'.peekEntry now k = looked' at hfound
    obtain ⟨e?, s₁⟩ := looked
    obtain ⟨e?', s₁'⟩ := looked'
    obtain rfl : e?' = e? := hfound
    cases e?' <;> rfl
  · rw [live?_delete s' ht, live?_delete s ht, h.live t ht]
  · rw [(Drops.delete s' now k).nextVersion, (Drops.delete s now k).nextVersion, h.nextVersion]
  · rw [readings_delete, readings_delete, h.readings]

variable [BEq ν]

/-- Any operation but a sweep is answered alike, and leaves the stores alike. -/
theorem perform (h : Alike now s s') (hs : s.RoomFor ttl keys) (hs' : s'.RoomFor ttl keys)
    {op : Op κ ν} (hop : op.isSweep = false)
    (hwritten : ∀ k ∈ op.written? (s.perform now op).1, k ∈ keys) :
    (s'.perform now op).1 = (s.perform now op).1 ∧
      Alike now (s.perform now op).2 (s'.perform now op).2 := by
  cases op using Op.cases_conditional with
  | get k =>
    obtain ⟨hanswer, hget⟩ := h.get k
    exact ⟨congrArg Answer.value hanswer, hget⟩
  | peek k =>
    obtain ⟨hfound, hlook⟩ := h.peekEntry k
    exact ⟨congrArg (Answer.value ∘ Option.map Entry.value) hfound, hlook⟩
  | peekVersioned k =>
    obtain ⟨hfound, hlook⟩ := h.peekEntry k
    exact ⟨congrArg (Answer.versioned ∘ Option.map fun e : Entry ν => (e.value, e.version)) hfound,
      hlook⟩
  | set k v => exact ⟨rfl, h.set hs hs' (hwritten k rfl) v⟩
  | conditional op k v condition hcond =>
    -- The condition looks at the live entry only, which is the same in both stores.
    rw [perform_of_conditional s now hcond] at hwritten ⊢
    rw [perform_of_conditional s' now hcond]
    rw [Op.written?_of_conditional hcond] at hwritten
    obtain ⟨hdone, hset⟩ := h.setIf hs hs' v fun hdone => hwritten k (if_pos hdone)
    exact ⟨congrArg Answer.done hdone, hset⟩
  | delete k =>
    obtain ⟨hdone, hdelete⟩ := h.delete k
    exact ⟨congrArg Answer.done hdone, hdelete⟩
  | sweep => cases hop

end Alike

/-! ## Runs -/

section

variable [BEq ν]

theorem otherAnswers_cons (s : Store κ ν) (now : Nat) (op : Op κ ν) (ops : List (Nat × Op κ ν)) :
    s.otherAnswers ((now, op) :: ops) =
      if op.isSweep then (s.perform now op).2.otherAnswers ops
      else (s.perform now op).1 :: (s.perform now op).2.otherAnswers ops := by
  simp only [otherAnswers, answers, List.zip_cons_cons, List.filter_cons]
  cases op.isSweep <;> rfl

theorem written_cons (s : Store κ ν) (now : Nat) (op : Op κ ν) (ops : List (Nat × Op κ ν)) :
    s.written ((now, op) :: ops) =
      (op.written? (s.perform now op).1).toList ++ (s.perform now op).2.written ops := by
  simp only [written, answers, List.zip_cons_cons, List.filterMap_cons]
  cases op.written? (s.perform now op).1 <;> rfl

/-- What the first part of a run writes is written by the run. -/
theorem written_append (s : Store κ ν) (ops ops' : List (Nat × Op κ ν)) :
    s.written (ops ++ ops') = s.written ops ++ (s.run ops).written ops' := by
  induction ops generalizing s with
  | nil => rfl
  | cons r ops ih =>
    obtain ⟨now, op⟩ := r
    rw [List.cons_append, written_cons, written_cons, ih, List.append_assoc]
    rfl

variable [LawfulBEq κ] {s s' : Store κ ν} {ttl : Nat} {keys : List κ}

/-- Of two stores that are alike one is given operations with sweeps between them, the other one
the same operations without the sweeps. -/
theorem Alike.run {ops : List (Nat × Op κ ν)} {now : Nat} (h : Alike now s s')
    (hs : s.RoomFor ttl keys) (hs' : s'.RoomFor ttl keys)
    (hordered : ops.Pairwise fun r r' => r.1 ≤ r'.1) (hlater : ∀ r ∈ ops, now ≤ r.1)
    (hwritten : s.written (unswept ops) ⊆ keys) :
    s'.otherAnswers ops = (s.answers (unswept ops)).map Prod.fst ∧
      ∃ t, (∀ u, now ≤ u → (∀ r ∈ ops, r.1 ≤ u) → t ≤ u) ∧
        Alike t (s.run (unswept ops)) (s'.run ops) := by
  induction ops generalizing s s' now with
  | nil => exact ⟨rfl, now, fun u hu _ => hu, h⟩
  | cons r ops ih =>
    obtain ⟨t₁, op⟩ := r
    obtain ⟨hfirst, hlater'⟩ := List.forall_mem_cons.1 hlater
    obtain ⟨hhead, htail⟩ := List.pairwise_cons.1 hordered
    have h₁ := h.later hfirst
    rw [otherAnswers_cons]
    cases hop : op.isSweep with
    | true =>
      -- Only one of the stores is swept.
      obtain rfl : op = .sweep := by cases op <;> first | rfl | cases hop
      have hskip : unswept ((t₁, .sweep) :: ops) = unswept ops := rfl
      rw [hskip] at hwritten ⊢
      obtain ⟨hanswers, t, ht, hrun⟩ := ih h₁.sweep hs (hs'.sweep t₁) htail hhead hwritten
      exact ⟨hanswers, t, fun u hu hall => ht u (hall _ List.mem_cons_self)
        fun r hr => hall r (List.mem_cons_of_mem _ hr), hrun⟩
    | false =>
      have hkeep : unswept ((t₁, op) :: ops) = (t₁, op) :: unswept ops := by
        simp [unswept, hop]
      rw [hkeep, written_cons, List.append_subset] at hwritten
      obtain ⟨hnow, hrest⟩ := hwritten
      have hnow' : ∀ k ∈ op.written? (s.perform t₁ op).1, k ∈ keys := by
        intro k hk
        exact hnow (Option.mem_toList.2 hk)
      -- The answers are the same, so the same keys are written, and there is room in both stores.
      obtain ⟨hanswer, hnext⟩ := h₁.perform hs hs' hop hnow'
      have hs₁' : (s'.perform t₁ op).2.RoomFor ttl keys := hs'.perform t₁ (hanswer ▸ hnow')
      obtain ⟨hanswers, t, ht, hrun⟩ := ih hnext (hs.perform t₁ hnow') hs₁' htail hhead hrest
      rw [hkeep, answers, List.map_cons, hanswer, hanswers]
      exact ⟨rfl, t, fun u hu hall => ht u (hall _ List.mem_cons_self)
        fun r hr => hall r (List.mem_cons_of_mem _ hr), hrun⟩

/-- Sweeps go unnoticed in a store that has room for all keys that are written: whatever operations
they are put between, all other answers are those of the operations without the sweeps, and so are
the hits and misses. What is left by each sweep are the live entries, which are the same ones with
and without the sweeps before it. -/
theorem sweeps_unseen {maxEntries ttl : Nat} {ops : List (Nat × Op κ ν)}
    (hordered : ops.Pairwise fun r r' => r.1 ≤ r'.1)
    (hroom : ((ofLimits maxEntries ttl : Store κ ν).written (unswept ops)).eraseDups.length ≤
      max 1 maxEntries) :
    let start : Store κ ν := ofLimits maxEntries ttl
    start.otherAnswers ops = (start.answers (unswept ops)).map Prod.fst ∧
      (start.run ops).stats.hits = (start.run (unswept ops)).stats.hits ∧
      (start.run ops).stats.misses = (start.run (unswept ops)).stats.misses ∧
      ∀ before now after, ops = before ++ (now, .sweep) :: after → ∀ k,
        (start.run (before ++ [(now, .sweep)])).entries[k]? = (start.run before).live? now k ∧
          (start.run before).live? now k = (start.run (unswept before)).live? now k := by
  intro start
  have hstart : start.RoomFor ttl (start.written (unswept ops)) := RoomFor.ofLimits hroom ttl
  -- At the beginning the two stores are one and the same.
  obtain ⟨hanswers, t, -, hrun⟩ := (Alike.refl 0 start).run hstart hstart hordered
    (fun r _ => Nat.zero_le r.1) (List.Subset.refl _)
  obtain ⟨hhits, hmisses⟩ := Prod.mk.inj hrun.readings
  refine ⟨hanswers, hhits, hmisses, fun before now after hops k => ⟨?_, ?_⟩⟩
  · have hlast : start.run (before ++ [(now, .sweep)]) = ((start.run before).sweep now).2 := by
      simp [Store.run, List.foldl_append, Store.perform]
    rw [hlast]
    exact getElem?_sweep (start.run before) now k
  · -- Up to the sweep, too, the stores with and without the sweeps are alike.
    subst hops
    obtain ⟨hbefore, -, hcross⟩ := List.pairwise_append.1 hordered
    have hpart : start.written (unswept before) ⊆
        start.written (unswept (before ++ (now, .sweep) :: after)) := by
      rw [unswept_append, written_append]
      exact List.subset_append_left _ _
    obtain ⟨-, t, ht, halike⟩ := (Alike.refl 0 start).run hstart hstart hbefore
      (fun r _ => Nat.zero_le r.1) hpart
    exact halike.live now
      (ht now (Nat.zero_le now) fun r hr => hcross r hr _ List.mem_cons_self) k

/-- Two keys in a store of two slots. The sweep at 9 comes an instant too early for key 1, the one
at 10 drops it, so that it is written anew. Key 2 still has the version it had before the sweeps,
and is replaced in time for the last one. -/
theorem sweeps_unseen_heldVersion :
    let start : Store Nat Nat := ofLimits 2 10
    let before : List (Nat × Op Nat Nat) := [(0, .set 1 10), (1, .set 2 20),
      (1, .peekVersioned 2), (9, .sweep), (9, .get 1)]
    let ops := before ++ (10, .sweep) :: [(10, .get 1), (10, .setIfAbsent 1 11),
      (10, .setIfVersion 2 (some 2) 21), (11, .sweep), (11, .compareAndSet 2 (some 21) 22),
      (12, .get 2)]
    (ops.Pairwise (fun r r' => r.1 ≤ r'.1) ∧
        (start.written (unswept ops)).eraseDups.length ≤ max 1 2) ∧
      start.answers ops = [(.nothing, 1), (.nothing, 2), (.versioned (some (20, 2)), 2),
        (.count 0, 2), (.value (some 10), 2), (.count 1, 1), (.value none, 1), (.done true, 2),
        (.done true, 2), (.count 0, 2), (.done true, 2), (.value (some 22), 2)] ∧
      start.otherAnswers ops = (start.answers (unswept ops)).map Prod.fst ∧
      (start.run ops).stats.hits = (start.run (unswept ops)).stats.hits ∧
      (start.run (before ++ [(10, .sweep)])).entries[1]? = (start.run before).live? 10 1 := by
  intro start before ops
  have hordered : ops.Pairwise fun r r' => r.1 ≤ r'.1 := by decide
  have hroom : ((ofLimits 2 10).written (unswept ops)).eraseDups.length ≤ max 1 2 := by
    rw [written, (Holds.ofLimits 2 10).answers]
    decide
  obtain ⟨hanswers, hhits, -, hleft⟩ := sweeps_unseen hordered hroom
  refine ⟨⟨hordered, hroom⟩, ?_, hanswers, hhits, (hleft before 10 _ rfl 1).1⟩
  rw [(Holds.ofLimits 2 10).answers]
  decide

end

end Store

end CacheLayer
