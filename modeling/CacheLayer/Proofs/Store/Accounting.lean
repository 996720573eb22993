import CacheLayer.Proofs.Store.Consistency
/-!
# The books of a store balance

An entry comes into a store when a key is written that is not stored, and goes when it is evicted,
found to be expired, or deleted. All but the last of these are counted by the store. So at every
moment the entries that came in are those that are there, those that were counted as gone, and those
that were deleted.

## Key results

- `Store.accounted_perform`: what one operation does to the balance
- `Store.readings_perform`: what one operation does to the counters of reads
- `Store.books_balance`: the balance after any operations
-/

namespace CacheLayer

namespace Store

variable {κ ν : Type}

/-! ## What is counted -/

/-- Whether an operation is a read. -/
def Op.reads : Op κ ν → Bool
  | .get _ => true
  | _ => false

/-- Whether an operation is a read that found a value. -/
def Op.hits : Op κ ν → Answer ν → Bool
  | .get _, .value v? => v?.isSome
  | _, _ => false

/-- Whether an operation is a read that found nothing. -/
def Op.misses : Op κ ν → Answer ν → Bool
  | .get _, .value v? => v?.isNone
  | _, _ => false

/-- Whether an operation has deleted an entry. -/
def Op.deletes : Op κ ν → Answer ν → Bool
  | .delete _, .done b => b
  | _, _ => false

variable [BEq κ] [Hashable κ]

/-- The store at the moment when an operation writes: a conditional write has looked at its key by
then. -/
def whenWriting (s : Store κ ν) (now : Nat) : Op κ ν → Store κ ν
  | .setIfAbsent k _ | .compareAndSet k _ _ | .setIfVersion k _ _ => (s.peekEntry now k).2
  | _ => s

variable [BEq ν]

omit [BEq κ] [Hashable κ] in
/-- A conditional write deletes nothing and is no read. -/
theorem Op.uncounted_of_conditional {op : Op κ ν} {k : κ} {v : ν}
    {condition : Option (Entry ν) → Bool} (h : op.conditional? = some (k, v, condition))
    (a : Answer ν) : op.deletes a = false ∧ op.hits a = false ∧ op.misses a = false := by
  cases op with
  | setIfAbsent k v | compareAndSet k expected v | setIfVersion k expected v =>
    exact ⟨rfl, rfl, rfl⟩
  | _ => cases h

theorem whenWriting_of_conditional (s : Store κ ν) (now : Nat) {op : Op κ ν} {k : κ} {v : ν}
    {condition : Option (Entry ν) → Bool} (h : op.conditional? = some (k, v, condition)) :
    s.whenWriting now op = (s.peekEntry now k).2 := by
  cases op with
  | setIfAbsent k v | compareAndSet k expected v | setIfVersion k expected v =>
    obtain ⟨rfl, rfl, rfl⟩ := h
    rfl
  | _ => cases h

/-- Whether an operation writes a key that is not stored at that moment. -/
def inserts (s : Store κ ν) (now : Nat) (op : Op κ ν) : Bool :=
  match op.written? (s.perform now op).1 with
  | some k => !(s.whenWriting now op).entries.contains k
  | none => false

/-- Whether an operation has some property together with its answer. -/
def answered (p : Op κ ν → Answer ν → Bool) (s : Store κ ν) (now : Nat) (op : Op κ ν) : Bool :=
  p op (s.perform now op).1

/-- How many operations of a run have some property, given the store and the instant. -/
def tally (p : Store κ ν → Nat → Op κ ν → Bool) (s : Store κ ν) : List (Nat × Op κ ν) → Nat
  | [] => 0
  | (now, op) :: ops => (p s now op).toNat + tally p (s.perform now op).2 ops

omit [BEq ν]

/-! ## The balance of entries -/

/-- The entries that are there or have been counted as gone. -/
def accounted (s : Store κ ν) : Nat := s.size + s.counters.evictions + s.counters.expirations

variable [LawfulBEq κ]

/-- An entry that is dropped by a look is counted. -/
theorem accounted_peekEntry (s : Store κ ν) (now : Nat) (k : κ) :
    (s.peekEntry now k).2.accounted = s.accounted := by
  obtain ⟨-, heq⟩ | ⟨e, he, -, heq⟩ | ⟨e, -, -, heq⟩ := s.peekEntry_cases now k
  · rw [heq]
  · obtain ⟨hk, -⟩ := Std.HashMap.getElem?_eq_some_iff.1 he
    -- The expired entry goes, and one more expiration is counted.
    have hsize := size_erase_of_mem hk
    rw [heq]
    show (s.erase k).size + s.counters.evictions + (s.counters.expirations + 1) = s.accounted
    rw [accounted]
    omega
  · rw [heq]

/-- An entry that is evicted is counted. -/
theorem accounted_makeRoom {s : Store κ ν} (h : s.Aligned) (k : κ) :
    (s.makeRoom k).accounted = s.accounted := by
  by_cases hroom : k ∈ s.entries ∨ s.size < s.capacity
  · rw [Aligned.makeRoom_of_room hroom]
  · obtain ⟨hk, hfull⟩ := not_or.1 hroom
    obtain ⟨victim, hvictim, -, heq⟩ := h.makeRoom_of_full hk (Nat.le_of_not_lt hfull)
    -- One entry goes, and one more eviction is counted.
    have hsize := size_erase_of_mem hvictim
    rw [heq]
    show (s.erase victim).size + (s.counters.evictions + 1) + s.counters.expirations = s.accounted
    rw [accounted]
    omega

/-- Making room for a key leaves it as it is. -/
theorem contains_makeRoom {s : Store κ ν} (h : s.Aligned) (k : κ) :
    (s.makeRoom k).entries.contains k = s.entries.contains k := by
  by_cases hroom : k ∈ s.entries ∨ s.size < s.capacity
  · rw [Aligned.makeRoom_of_room hroom]
  · obtain ⟨hk, hfull⟩ := not_or.1 hroom
    obtain ⟨victim, hevicts⟩ := h.evicts hk (Nat.le_of_not_lt hfull)
    rw [Std.HashMap.contains_eq_isSome_getElem?, hevicts.entries,
      if_neg (by simpa using hevicts.ne), ← Std.HashMap.contains_eq_isSome_getElem?]

/-- A write brings an entry in if its key is not stored. -/
theorem accounted_set {s : Store κ ν} (h : s.Aligned) (now : Nat) (k : κ) (v : ν) :
    (s.set now k v).accounted = s.accounted + (!s.entries.contains k).toNat := by
  rw [← accounted_makeRoom h k, ← contains_makeRoom h k]
  generalize hroom : s.makeRoom k = s'
  -- With room made, the key is put over its old entry or beside the others.
  have hsize : (s.set now k v).size = s'.size + (!s'.entries.contains k).toNat := by
    simp only [size, set, hroom, Std.HashMap.size_insert, ← Std.HashMap.contains_iff_mem]
    cases s'.entries.contains k <;> rfl
  have hcounters : (s.set now k v).counters = s'.counters := by rw [set, hroom]
  rw [accounted, accounted, hsize, hcounters]
  omega

/-- So does a conditional write, if it is made. -/
theorem accounted_setIf {s : Store κ ν} (h : s.Aligned) (now : Nat) (k : κ) (v : ν)
    (condition : Option (Entry ν) → Bool) :
    (s.setIf now k v condition).2.accounted =
      s.accounted + ((s.setIf now k v condition).1 &&
        !(s.peekEntry now k).2.entries.contains k).toNat := by
  simp only [setIf]
  split
  · rw [accounted_set (h.peekEntry now k), accounted_peekEntry, Bool.true_and]
  · rw [accounted_peekEntry, Bool.false_and]
    rfl

omit [LawfulBEq κ] in
theorem accounted_get (s : Store κ ν) (now : Nat) (k : κ) :
    (s.get now k).2.accounted = (s.peekEntry now k).2.accounted := by
  rw [get]
  generalize s.peekEntry now k = looked
  obtain ⟨_ | e, s'⟩ := looked <;> rfl

/-- A deletion takes a live entry out. -/
theorem accounted_delete (s : Store κ ν) (now : Nat) (k : κ) :
    (s.delete now k).2.accounted + (s.delete now k).1.toNat = s.accounted := by
  rw [← accounted_peekEntry s now k]
  obtain ⟨-, heq⟩ | ⟨e, -, -, heq⟩ | ⟨e, he, -, heq⟩ := s.peekEntry_cases now k
  · rw [delete, heq]
    rfl
  · rw [delete, heq]
    rfl
  · obtain ⟨hk, -⟩ := Std.HashMap.getElem?_eq_some_iff.1 he
    -- Only the deletion of a live entry is counted nowhere but in its answer.
    have hsize := size_erase_of_mem hk
    rw [delete, heq]
    show (s.erase k).size + s.counters.evictions + s.counters.expirations + 1 = s.accounted
    rw [accounted]
    omega

/-- The entries that a sweep drops are counted. -/
theorem accounted_sweep (s : Store κ ν) (now : Nat) : (s.sweep now).2.accounted = s.accounted := by
  have hsize := size_sweep s now
  obtain ⟨hcounters, -⟩ := frame_foldl_erase (s.expiredKeys now) s
  -- A sweep answers how many it drops, and counts just as many expirations.
  have hafter : (s.sweep now).2.counters = s.counters.addExpirations (s.sweep now).1 := by
    show Stats.addExpirations _ _ = _
    rw [hcounters]
    rfl
  rw [accounted, accounted, hafter]
  simp only [Stats.addExpirations]
  omega

/-- What comes in with an operation and what is deleted by it make up the difference. -/
theorem accounted_perform [BEq ν] {s : Store κ ν} (h : s.Aligned) (now : Nat) (op : Op κ ν) :
    (s.perform now op).2.accounted + (answered Op.deletes s now op).toNat =
      s.accounted + (s.inserts now op).toNat := by
  cases op using Op.cases_conditional with
  | get k => exact (accounted_get s now k).trans (accounted_peekEntry s now k)
  | peek k => exact accounted_peekEntry s now k
  | peekVersioned k => exact accounted_peekEntry s now k
  | set k v => exact accounted_set h now k v
  | conditional op k v condition hop =>
    rw [answered, inserts, (Op.uncounted_of_conditional hop _).1, perform_of_conditional s now hop,
      whenWriting_of_conditional s now hop, Op.written?_of_conditional hop, accounted_setIf h]
    cases (s.setIf now k v condition).1 <;> rfl
  | delete k => exact accounted_delete s now k
  | sweep => exact accounted_sweep s now

/-! ## The counters of reads -/

/-- The numbers of hits and of misses. -/
def readings (s : Store κ ν) : Nat × Nat := (s.counters.hits, s.counters.misses)

omit [LawfulBEq κ] in
theorem readings_peekEntry (s : Store κ ν) (now : Nat) (k : κ) :
    (s.peekEntry now k).2.readings = s.readings := by
  obtain ⟨-, heq⟩ | ⟨e, -, -, heq⟩ | ⟨e, -, -, heq⟩ := s.peekEntry_cases now k
  all_goals exact congrArg (fun looked => looked.2.readings) heq

omit [LawfulBEq κ] in
theorem readings_set (s : Store κ ν) (now : Nat) (k : κ) (v : ν) :
    (s.set now k v).readings = s.readings := by
  show (s.makeRoom k).readings = s.readings
  rw [makeRoom]
  split
  · rfl
  · split <;> rfl

omit [LawfulBEq κ] in
theorem readings_setIf (s : Store κ ν) (now : Nat) (k : κ) (v : ν)
    (condition : Option (Entry ν) → Bool) :
    (s.setIf now k v condition).2.readings = s.readings := by
  simp only [setIf]
  split
  · rw [readings_set, readings_peekEntry]
  · rw [readings_peekEntry]

omit [LawfulBEq κ] in
theorem readings_get (s : Store κ ν) (now : Nat) (k : κ) :
    (s.get now k).2.readings = (s.counters.hits + (s.get now k).1.isSome.toNat,
      s.counters.misses + (s.get now k).1.isNone.toNat) := by
  obtain ⟨-, heq⟩ | ⟨e, -, -, heq⟩ | ⟨e, -, -, heq⟩ := s.peekEntry_cases now k
  all_goals
    rw [get, heq]
    rfl

omit [LawfulBEq κ] in
theorem readings_delete (s : Store κ ν) (now : Nat) (k : κ) :
    (s.delete now k).2.readings = s.readings := by
  rw [← readings_peekEntry s now k, delete]
  generalize s.peekEntry now k = looked
  obtain ⟨_ | e, s'⟩ := looked <;> rfl

omit [LawfulBEq κ] in
/-- Only reads are counted as hits and misses, and their answers tell as which of the two. -/
theorem readings_perform [BEq ν] (s : Store κ ν) (now : Nat) (op : Op κ ν) :
    (s.perform now op).2.readings =
      (s.counters.hits + (answered Op.hits s now op).toNat,
        s.counters.misses + (answered Op.misses s now op).toNat) := by
  cases op using Op.cases_conditional with
  | get k => exact readings_get s now k
  | peek k => exact readings_peekEntry s now k
  | peekVersioned k => exact readings_peekEntry s now k
  | set k v => exact readings_set s now k v
  | conditional op k v condition hop =>
    obtain ⟨-, hhits, hmisses⟩ := Op.uncounted_of_conditional hop (s.perform now op).1
    rw [answered, answered, hhits, hmisses, perform_of_conditional s now hop]
    exact readings_setIf s now k v condition
  | delete k => exact readings_delete s now k
  | sweep =>
    show Prod.mk (Stats.addExpirations _ _).hits (Stats.addExpirations _ _).misses = _
    -- A sweep counts expirations and nothing else.
    rw [(frame_foldl_erase (s.expiredKeys now) s).1]
    rfl

omit [LawfulBEq κ] in
/-- A read is a hit or a miss, and nothing else is. -/
theorem hits_add_misses [BEq ν] (s : Store κ ν) (now : Nat) (op : Op κ ν) :
    (answered Op.hits s now op).toNat + (answered Op.misses s now op).toNat = op.reads.toNat := by
  cases op with
  | get k =>
    simp only [answered, perform, Op.hits, Op.misses, Op.reads]
    cases (s.get now k).1 <;> rfl
  | _ => rfl

/-! ## Runs -/

variable [BEq ν]

omit [LawfulBEq κ] in
/-- A property that does not depend on the store may be counted without it. -/
theorem tally_eq_countP (p : Op κ ν → Bool) (s : Store κ ν) (ops : List (Nat × Op κ ν)) :
    tally (fun _ _ op => p op) s ops = ops.countP fun r => p r.2 := by
  induction ops generalizing s with
  | nil => rfl
  | cons r ops ih =>
    rw [tally, ih, List.countP_cons, Nat.add_comm]
    cases p r.2 <;> rfl

omit [LawfulBEq κ] in
/-- A property of operations and answers may be counted over these. -/
theorem tally_answered (p : Op κ ν → Answer ν → Bool) (s : Store κ ν) (ops : List (Nat × Op κ ν)) :
    tally (answered p) s ops = (ops.zip (s.answers ops)).countP fun r => p r.1.2 r.2.1 := by
  induction ops generalizing s with
  | nil => rfl
  | cons r ops ih =>
    obtain ⟨now, op⟩ := r
    rw [tally, ih, answers, List.zip_cons_cons, List.countP_cons, Nat.add_comm, answered]
    cases p op (s.perform now op).1 <;> rfl

omit [LawfulBEq κ] in
/-- What every operation adds up, a run adds up. -/
theorem run_eq_add_tally {f : Store κ ν → Nat} {p : Store κ ν → Nat → Op κ ν → Bool}
    (hstep : ∀ s now op, f (s.perform now op).2 = f s + (p s now op).toNat) (s : Store κ ν)
    (ops : List (Nat × Op κ ν)) : f (s.run ops) = f s + tally p s ops := by
  induction ops generalizing s with
  | nil => rfl
  | cons r ops ih =>
    have hrest := ih (s.perform r.1 r.2).2
    rw [hstep] at hrest
    rw [tally, ← Nat.add_assoc]
    exact hrest

/-- The balance of entries over a run. -/
theorem accounted_run {s : Store κ ν} (h : s.Aligned) (ops : List (Nat × Op κ ν)) :
    (s.run ops).accounted + tally (answered Op.deletes) s ops =
      s.accounted + tally inserts s ops := by
  induction ops generalizing s with
  | nil => rfl
  | cons r ops ih =>
    -- The first operation is balanced, and so is the rest.
    have hfirst := accounted_perform h r.1 r.2
    have hrest := ih (h.perform r.1 r.2)
    have hrun : s.run (r :: ops) = (s.perform r.1 r.2).2.run ops := rfl
    rw [hrun, tally, tally]
    omega

omit [LawfulBEq κ] in
/-- The counters of reads after a run. -/
theorem readings_run (s : Store κ ν) (ops : List (Nat × Op κ ν)) :
    (s.run ops).counters.hits =
        s.counters.hits + tally (answered Op.hits) s ops ∧
      (s.run ops).counters.hits + (s.run ops).counters.misses =
        s.counters.hits + s.counters.misses + ops.countP fun r => r.2.reads := by
  have hhits (s : Store κ ν) (now : Nat) (op : Op κ ν) : (s.perform now op).2.counters.hits =
      s.counters.hits + (answered Op.hits s now op).toNat :=
    congrArg Prod.fst (readings_perform s now op)
  have hmisses (s : Store κ ν) (now : Nat) (op : Op κ ν) : (s.perform now op).2.counters.misses =
      s.counters.misses + (answered Op.misses s now op).toNat :=
    congrArg Prod.snd (readings_perform s now op)
  constructor
  · exact run_eq_add_tally (f := fun s => s.counters.hits) hhits s ops
  · rw [← tally_eq_countP _ s]
    apply run_eq_add_tally (f := fun s => s.counters.hits + s.counters.misses)
    intro s now op
    have hsum := hits_add_misses s now op
    have hhit := hhits s now op
    have hmiss := hmisses s now op
    omega

/-- The books of a store balance after any operations, at any instants: the entries that came in are
those that are there, those that were evicted, those that were found to be expired, and those that
were deleted. Every read is a hit or a miss, and the hits are the reads that found a value. -/
theorem books_balance (maxEntries ttl : Nat) (ops : List (Nat × Op κ ν)) :
    let start : Store κ ν := ofLimits maxEntries ttl
    let s := start.run ops
    tally inserts start ops =
        s.size + s.stats.evictions + s.stats.expirations +
          tally (answered Op.deletes) start ops ∧
      s.stats.hits + s.stats.misses = ops.countP (fun r => r.2.reads) ∧
      s.stats.hits = tally (answered Op.hits) start ops ∧
      s.stats.totalEntries = s.size := by
  intro start s
  have hentries := accounted_run (Aligned.ofLimits maxEntries ttl : start.Aligned) ops
  obtain ⟨hhits, hreads⟩ := readings_run start ops
  -- In the beginning there is nothing, and nothing has been counted.
  have hnone : start.accounted = 0 := by simp [start, accounted, size, ofLimits]
  rw [hnone, Nat.zero_add] at hentries
  refine ⟨hentries.symm, hreads.trans (Nat.zero_add _), hhits.trans (Nat.zero_add _), rfl⟩

/-- A store of two slots in which entries go in all four ways: key 2 is evicted by key 3, key 1 is
found to be expired by a read, key 3 is replaced when it is expired and then deleted, and key 1 is
swept when it is expired once more. One entry is left. -/
theorem books_balance_fourWays :
    let start : Store Nat Nat := ofLimits 2 10
    let ops : List (Nat × Op Nat Nat) := [(0, .set 1 10), (0, .set 2 20), (1, .get 1),
      (2, .set 3 30), (10, .get 1), (10, .setIfAbsent 1 11), (12, .set 3 31), (13, .delete 3),
      (13, .delete 2), (20, .sweep), (20, .set 4 40)]
    let s := start.run ops
    tally inserts start ops = 1 + s.stats.evictions + s.stats.expirations + 1 ∧
      s.stats.hits + s.stats.misses = 2 ∧ s.stats.hits = 1 ∧ s.stats.totalEntries = 1 := by
  intro start ops s
  -- The sizes and the answers are read off the list of the store.
  have hsize : s.size = 1 := ((Holds.ofLimits 2 10).run ops).size_eq
  have hdeletes : tally (answered Op.deletes) start ops = 1 := by
    rw [tally_answered, (Holds.ofLimits 2 10).answers]
    decide
  have hhits : tally (answered Op.hits) start ops = 1 := by
    rw [tally_answered, (Holds.ofLimits 2 10).answers]
    decide
  obtain ⟨hentries, hreads, hfound, htotal⟩ := books_balance 2 10 ops
  refine ⟨?_, hreads, hfound.trans hhits, htotal.trans hsize⟩
  calc tally inserts start ops
      = s.size + s.stats.evictions + s.stats.expirations +
          tally (answered Op.deletes) start ops := hentries
    _ = 1 + s.stats.evictions + s.stats.expirations + 1 := by rw [hsize, hdeletes]

end Store

end CacheLayer
