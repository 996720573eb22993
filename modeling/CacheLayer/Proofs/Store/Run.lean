import CacheLayer.Store.Basic
/-!
# Runs of a store

The operations of a store as data, each of them carried out at an instant. What a run shows to the
outside are the answers of its operations and the numbers of entries after them.

## Key results

- `Store.peekEntry_cases`: what a look at a key does
- `Store.setIfAbsent_eq`, `Store.compareAndSet_eq`, `Store.setIfVersion_eq`: conditional writes are
  one and the same write with different conditions on the live entry
- `Store.Op.cases_conditional`, `Store.perform_of_conditional`: so they are one case of proofs
-/

namespace CacheLayer

namespace Store

/-- An operation of a store. -/
inductive Op (κ ν : Type) where
  | get (k : κ)
  | peek (k : κ)
  | peekVersioned (k : κ)
  | set (k : κ) (v : ν)
  | setIfAbsent (k : κ) (v : ν)
  | compareAndSet (k : κ) (expected : Option ν) (v : ν)
  | setIfVersion (k : κ) (expected : Option Nat) (v : ν)
  | delete (k : κ)
  | sweep
deriving DecidableEq

/-- An answer of a store. -/
inductive Answer (ν : Type) where
  | nothing
  | value (v? : Option ν)
  | versioned (p? : Option (ν × Nat))
  /-- Whether a conditional write was made, or an entry deleted. -/
  | done (b : Bool)
  | count (n : Nat)
deriving DecidableEq

/-- The key that an operation has written, as its answer tells. -/
def Op.written? {κ ν : Type} : Op κ ν → Answer ν → Option κ
  | .set k _, _ => some k
  | .setIfAbsent k _, .done true => some k
  | .compareAndSet k _ _, .done true => some k
  | .setIfVersion k _ _, .done true => some k
  | _, _ => none

variable {κ ν : Type} [BEq κ] [Hashable κ]

/-- What a look at a key does: there is no entry, or an expired one that it drops, or a live one
that it finds. -/
theorem peekEntry_cases (s : Store κ ν) (now : Nat) (k : κ) :
    (s.entries[k]? = none ∧ s.peekEntry now k = (none, s)) ∨
    (∃ e, s.entries[k]? = some e ∧ e.Expired s.ttl now ∧
      s.peekEntry now k = (none, (s.erase k).countExpired 1)) ∨
    (∃ e, s.entries[k]? = some e ∧ ¬ e.Expired s.ttl now ∧ s.peekEntry now k = (some e, s)) := by
  rw [peekEntry]
  cases hk : s.entries[k]? with
  | none => exact .inl ⟨rfl, rfl⟩
  | some e =>
    by_cases he : e.Expired s.ttl now
    · exact .inr (.inl ⟨e, rfl, he, if_pos he⟩)
    · exact .inr (.inr ⟨e, rfl, he, if_neg he⟩)

/-- Writes if the live entry of the key meets a condition. -/
def setIf (s : Store κ ν) (now : Nat) (k : κ) (v : ν) (condition : Option (Entry ν) → Bool) :
    Bool × Store κ ν :=
  let (e?, s) := s.peekEntry now k
  if condition e? then (true, s.set now k v) else (false, s)

theorem setIfAbsent_eq (s : Store κ ν) (now : Nat) (k : κ) (v : ν) :
    s.setIfAbsent now k v = s.setIf now k v Option.isNone := by
  simp only [setIfAbsent, setIf]
  obtain ⟨_ | e, s'⟩ := s.peekEntry now k
  · rfl
  · rfl

theorem compareAndSet_eq [BEq ν] (s : Store κ ν) (now : Nat) (k : κ) (expected : Option ν)
    (v : ν) : s.compareAndSet now k expected v =
      s.setIf now k v fun e? => e?.map Entry.value == expected :=
  rfl

theorem setIfVersion_eq (s : Store κ ν) (now : Nat) (k : κ) (expected : Option Nat) (v : ν) :
    s.setIfVersion now k expected v =
      s.setIf now k v fun e? => decide (e?.map Entry.version = expected) := by
  simp only [setIfVersion, setIf, decide_eq_true_eq]

variable [BEq ν]

/-- The key and the value of a conditional write, and what it asks of the live entry. -/
def Op.conditional? : Op κ ν → Option (κ × ν × (Option (Entry ν) → Bool))
  | .setIfAbsent k v => some (k, v, Option.isNone)
  | .compareAndSet k expected v => some (k, v, fun e? => e?.map Entry.value == expected)
  | .setIfVersion k expected v => some (k, v, fun e? => decide (e?.map Entry.version = expected))
  | _ => none

omit [BEq κ] [Hashable κ] in
/-- The conditional writes are one case, each of the other operations is one of its own. -/
@[elab_as_elim]
theorem Op.cases_conditional {motive : Op κ ν → Prop} (get : ∀ k, motive (.get k))
    (peek : ∀ k, motive (.peek k)) (peekVersioned : ∀ k, motive (.peekVersioned k))
    (set : ∀ k v, motive (.set k v))
    (conditional : ∀ op k v condition, op.conditional? = some (k, v, condition) → motive op)
    (delete : ∀ k, motive (.delete k)) (sweep : motive .sweep) (op : Op κ ν) : motive op := by
  cases op with
  | get k => exact get k
  | peek k => exact peek k
  | peekVersioned k => exact peekVersioned k
  | set k v => exact set k v
  | setIfAbsent k v => exact conditional _ _ _ _ rfl
  | compareAndSet k expected v => exact conditional _ _ _ _ rfl
  | setIfVersion k expected v => exact conditional _ _ _ _ rfl
  | delete k => exact delete k
  | sweep => exact sweep

/-- Carries an operation out. -/
def perform (s : Store κ ν) (now : Nat) : Op κ ν → Answer ν × Store κ ν
  | .get k => (.value (s.get now k).1, (s.get now k).2)
  | .peek k => (.value (s.peek now k).1, (s.peek now k).2)
  | .peekVersioned k => (.versioned (s.peekVersioned now k).1, (s.peekVersioned now k).2)
  | .set k v => (.nothing, s.set now k v)
  | .setIfAbsent k v => (.done (s.setIfAbsent now k v).1, (s.setIfAbsent now k v).2)
  | .compareAndSet k expected v =>
    (.done (s.compareAndSet now k expected v).1, (s.compareAndSet now k expected v).2)
  | .setIfVersion k expected v =>
    (.done (s.setIfVersion now k expected v).1, (s.setIfVersion now k expected v).2)
  | .delete k => (.done (s.delete now k).1, (s.delete now k).2)
  | .sweep => (.count (s.sweep now).1, (s.sweep now).2)

/-- A conditional write is made if the live entry meets its condition. -/
theorem perform_of_conditional (s : Store κ ν) (now : Nat) {op : Op κ ν} {k : κ} {v : ν}
    {condition : Option (Entry ν) → Bool} (h : op.conditional? = some (k, v, condition)) :
    s.perform now op =
      (.done (s.setIf now k v condition).1, (s.setIf now k v condition).2) := by
  cases op with
  | setIfAbsent k v =>
    obtain ⟨rfl, rfl, rfl⟩ := h
    rw [perform, setIfAbsent_eq]
  | compareAndSet k expected v =>
    obtain ⟨rfl, rfl, rfl⟩ := h
    rw [perform, compareAndSet_eq]
  | setIfVersion k expected v =>
    obtain ⟨rfl, rfl, rfl⟩ := h
    rw [perform, setIfVersion_eq]
  | _ => cases h

omit [BEq κ] [Hashable κ] in
/-- A conditional write tells whether it has written its key. -/
theorem Op.written?_of_conditional {op : Op κ ν} {k : κ} {v : ν}
    {condition : Option (Entry ν) → Bool} (h : op.conditional? = some (k, v, condition))
    (b : Bool) : op.written? (.done b) = if b then some k else none := by
  cases op with
  | setIfAbsent k v | compareAndSet k expected v | setIfVersion k expected v =>
    obtain ⟨rfl, rfl, rfl⟩ := h
    cases b <;> rfl
  | _ => cases h

/-- The store after operations. -/
def run (s : Store κ ν) (ops : List (Nat × Op κ ν)) : Store κ ν :=
  ops.foldl (fun s p => (s.perform p.1 p.2).2) s

/-- The answers of operations and the numbers of entries after them. -/
def answers (s : Store κ ν) : List (Nat × Op κ ν) → List (Answer ν × Nat)
  | [] => []
  | (now, op) :: ops => ((s.perform now op).1, (s.perform now op).2.size) ::
    (s.perform now op).2.answers ops

end Store

end CacheLayer
