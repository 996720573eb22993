import CacheLayer.Proofs.Store.Roomy
import CacheLayer.Proofs.Store.Versions
/-!
# What a store holds

A condition on all that a store holds: on the key, the value and the instant of each of its writes.
Operations only drop entries and write new ones, so that the condition is kept if it holds of what
they write, and a sweep makes sure that nothing is left that was too old.

## Key results

- `Store.Each`: all that a store holds meets a condition
- `Store.Each.perform`: an operation keeps a condition that holds of what it writes
- `Store.Each.sweep`: what a sweep leaves was not expired
-/

namespace CacheLayer

variable {κ ν : Type} [BEq κ] [Hashable κ]

/-- All that a store holds meets a condition on the key, on the value and on the instant at which it
was written. -/
def Store.Each (P : κ → ν → Nat → Prop) (s : Store κ ν) : Prop :=
  ∀ (k : κ) (e : Entry ν), s.entries[k]? = some e → P k e.value e.written

namespace Store.Each

variable {P Q : κ → ν → Nat → Prop} {s s' : Store κ ν}

theorem ofLimits (maxEntries ttl : Nat) : (Store.ofLimits maxEntries ttl).Each P := by
  intro k e he
  rw [Store.ofLimits, Std.HashMap.getElem?_empty] at he
  cases he

theorem mono (h : s.Each P) (hPQ : ∀ k v t, P k v t → Q k v t) : s.Each Q :=
  fun k e he => hPQ k e.value e.written (h k e he)

/-- Dropping entries does no harm. -/
theorem drops (h : s.Each P) (hd : s.Drops s') : s'.Each P :=
  fun k e he => h k e (hd.entry he)

variable [LawfulBEq κ]

/-- A write has to meet the condition. -/
theorem set (h : s.Each P) {now : Nat} {k : κ} {v : ν} (hv : P k v now) :
    (s.set now k v).Each P := by
  intro k' e he
  rw [entries_set] at he
  split at he
  · next hk =>
    obtain rfl := Option.some.inj he
    exact eq_of_beq hk ▸ hv
  · exact h.drops (Drops.makeRoom s k) k' e he

/-- A read is a use of the key, and no more. -/
theorem get (h : s.Each P) (now : Nat) (k : κ) : (s.get now k).2.Each P := by
  intro k' e he
  exact h k' e ((moves_get s now k).entry_of_ne he (by simp))

theorem getBulk (h : s.Each P) (now : Nat) (ks : List κ) : (s.getBulk now ks).2.Each P := by
  rw [getBulk_eq]
  generalize (∅ : Std.HashMap κ ν) = m
  induction ks generalizing m s with
  | nil => exact h
  | cons k ks ih =>
    rw [List.foldl_cons, getAlso_eq]
    exact ih (h.get now k) _

/-- The write of an update has to meet the condition if the race is won. -/
theorem updateWrite (h : s.Each P) {now : Nat} {k : κ} {version? : Option Nat} {v : ν}
    (hv : (s.updateWrite now k version? v).1 = .ok (some true) → P k v now) :
    (s.updateWrite now k version? v).2.Each P := by
  have hlook := h.drops (Drops.peekEntry s now k)
  simp only [Store.updateWrite, Store.setIfVersion] at hv ⊢
  by_cases hversion : (s.peekEntry now k).1.map Entry.version = version?
  · rw [if_pos hversion] at hv ⊢
    exact hlook.set (hv rfl)
  · rw [if_neg hversion] at hv ⊢
    exact hlook

/-- A conditional write has to meet the condition. -/
theorem setIf (h : s.Each P) {now : Nat} {k : κ} {v : ν} (hv : P k v now)
    (condition : Option (Entry ν) → Bool) : (s.setIf now k v condition).2.Each P := by
  have hlook := h.drops (Drops.peekEntry s now k)
  simp only [Store.setIf]
  split
  · exact hlook.set hv
  · exact hlook

/-- Whatever an operation writes, it is written now. -/
theorem perform [BEq ν] (h : s.Each P) {now : Nat} (hnow : ∀ k v, P k v now) (op : Op κ ν) :
    (s.perform now op).2.Each P := by
  cases op using Op.cases_conditional with
  | get k => exact h.get now k
  | peek k => exact h.drops (Drops.peekEntry s now k)
  | peekVersioned k => exact h.drops (Drops.peekEntry s now k)
  | set k v => exact h.set (hnow k v)
  | conditional op k v condition hop =>
    rw [perform_of_conditional s now hop]
    exact h.setIf (hnow k v) condition
  | delete k => exact h.drops (Drops.delete s now k)
  | sweep => exact h.drops (Drops.sweep s now)

/-- What a sweep leaves was there before, and is not expired. -/
theorem sweep (h : s.Each P) (now : Nat) :
    (s.sweep now).2.Each fun k v t => P k v t ∧ now - t < s.ttl := by
  intro k e he
  rw [getElem?_sweep, Option.filter_eq_some_iff] at he
  obtain ⟨he, hfresh⟩ := he
  have hfresh : ¬ e.Expired s.ttl now := by simpa using hfresh
  exact ⟨h k e he, Nat.lt_of_not_le hfresh⟩

end Store.Each

end CacheLayer
