import CacheLayer.Proofs.Loading.Invariant
import Mathlib
/-!
# One load for each key at a time

A resolver that has asked the loader holds a guard for every key it has asked for until the answer
is there. Two guards are never for one key, so two calls of the loader that are outstanding never
share a key.

## Key results

- `at_most_one_loaderCall`: no two outstanding calls of the loader cover one key
-/

namespace CacheLayer

variable {κ ν : Type} [BEq κ] [Hashable κ]

/-- The call of the loader that a question is. -/
def Question.loaderCall? : Question κ ν → Option (Read κ)
  | load g => some (.one g.key)
  | loadMany gs => some (.many (gs.map Guard.key))
  | _ => none

/-- The call of the loader that a resolver has made and whose answer it waits for. -/
def Resolver.loaderCall? (r : Resolver κ ν) : Option (Read κ) :=
  if r.asked then r.question?.bind Question.loaderCall? else none

/-- A call of the loader that is outstanding, by the number of its resolver: the loader has been
called, and its answer is not there yet. A call ends with the reply, whatever it is, or when the
resolver is torn down. -/
def Delegate.loaderCall? (d : Delegate κ ν) (i : Nat) : Option (Read κ) :=
  d.resolvers[i]?.bind Resolver.loaderCall?

/-- Who calls the loader for keys holds guards for them. -/
private theorem Question.exists_guard_of_loaderCall? {q : Question κ ν} {call : Read κ}
    (h : q.loaderCall? = some call) {k : κ} (hk : k ∈ call.keys) : ∃ g ∈ q.guards, g.key = k := by
  cases q with
  | load g =>
    obtain rfl := Option.some.inj h
    exact ⟨g, List.mem_singleton_self g, (List.mem_singleton.1 hk).symm⟩
  | loadMany gs =>
    obtain rfl := Option.some.inj h
    exact List.mem_map.1 hk
  | read g => exact nomatch h
  | write g v => exact nomatch h
  | readMany gs => exact nomatch h
  | writeMany gs entries => exact nomatch h

namespace Delegate

/-- An outstanding call is a question of its resolver that has been asked. -/
private theorem exists_question_of_loaderCall? {d : Delegate κ ν} {i : Nat} {call : Read κ}
    (h : d.loaderCall? i = some call) :
    ∃ r q, d.resolvers[i]? = some r ∧ r.question? = some q ∧ q.loaderCall? = some call := by
  obtain ⟨r, hr, hcall⟩ := Option.bind_eq_some_iff.1 h
  unfold Resolver.loaderCall? at hcall
  split at hcall
  · obtain ⟨q, hq, hcall⟩ := Option.bind_eq_some_iff.1 hcall
    exact ⟨r, q, hr, hq, hcall⟩
  · exact nomatch hcall

/-- The guards of a question are held by its resolver, after those that its chores drop. -/
private theorem guards_sublist_held {d : Delegate κ ν} {i : Nat} {r : Resolver κ ν}
    {q : Question κ ν} (hr : d.resolvers[i]? = some r) (hq : r.question? = some q) :
    q.guards.Sublist (d.held (.resolver i)) := by
  have hheld : d.held (.resolver i) = Chore.removals r.chores ++ q.guards := by
    simp [held, hr, Resolver.guards_eq, Resolver.later, hq]
  rw [hheld]
  exact List.sublist_append_right _ _

/-- Two outstanding calls for one key are one call. -/
theorem Inv.loaderCall?_inj {d : Delegate κ ν} (h : d.Inv) {k : κ} {i j : Nat}
    {call call' : Read κ} (hi : d.loaderCall? i = some call) (hj : d.loaderCall? j = some call')
    (hk : k ∈ call.keys) (hk' : k ∈ call'.keys) : i = j := by
  obtain ⟨r, q, hr, hq, hcall⟩ := exists_question_of_loaderCall? hi
  obtain ⟨r', q', hr', hq', hcall'⟩ := exists_question_of_loaderCall? hj
  obtain ⟨g, hg, hgk⟩ := Question.exists_guard_of_loaderCall? hcall hk
  obtain ⟨g', hg', hgk'⟩ := Question.exists_guard_of_loaderCall? hcall' hk'
  have hheld := (guards_sublist_held hr hq).subset hg
  have hheld' := (guards_sublist_held hr' hq').subset hg'
  -- One key has one guard, and one guard has one holder.
  obtain rfl := h.guarded.eq_of_key hheld hheld' (hgk.trans hgk'.symm)
  exact Holder.resolver.inj (h.guarded.disjoint hheld hheld')

/-- Several keys are only loaded if there are any, and each of them once. -/
theorem Inv.loaderCall?_many {d : Delegate κ ν} (h : d.Inv) {i : Nat} {ks : List κ}
    (hi : d.loaderCall? i = some (.many ks)) : ks ≠ [] ∧ ks.Nodup := by
  obtain ⟨r, q, hr, hq, hcall⟩ := exists_question_of_loaderCall? hi
  cases q with
  | loadMany gs =>
    obtain rfl := Read.many.inj (Option.some.inj hcall)
    have hne := (h.resolver hr).loadMany_ne_nil gs hq
    -- The keys are those of guards of one holder.
    refine ⟨?_, h.guarded.nodup_keys (guards_sublist_held hr hq)⟩
    intro hnil
    exact hne (List.map_eq_nil_iff.1 hnil)
  | load g => exact nomatch Option.some.inj hcall
  | read g => exact nomatch hcall
  | write g v => exact nomatch hcall
  | readMany gs => exact nomatch hcall
  | writeMany gs entries => exact nomatch hcall

/-- In every run, at most one call of the loader that covers a key is outstanding at a time. A call
for several keys is for at least one, and for none of them twice. -/
theorem at_most_one_loaderCall [LawfulBEq κ] {d : Delegate κ ν} {es : List (Event κ ν)}
    (hrun : run? {} es = some d) :
    (∀ (k : κ) (i j : Nat) (call call' : Read κ), d.loaderCall? i = some call →
      d.loaderCall? j = some call' → k ∈ call.keys → k ∈ call'.keys → i = j) ∧
    ∀ (i : Nat) (ks : List κ), d.loaderCall? i = some (.many ks) → ks ≠ [] ∧ ks.Nodup := by
  have h := inv_of_run? hrun
  constructor
  · intro k i j call call' hi hj hk hk'
    exact h.loaderCall?_inj hi hj hk hk'
  · intro i ks hi
    exact h.loaderCall?_many hi

/-- A read of key 1, and a read of 1, 2, 2 and 3 that joins the first one for 1 and finds 3 in the
cache, while somebody writes to the cache. -/
def overlap : List (Event Nat Nat) :=
  [.own (.call (.one 1)), .own (.advance 0), .own (.call (.many [1, 2, 2, 3])), .own (.advance 1),
    .own (.advance 0), .own (.ask 2), .own (.advance 1), .own (.advance 1), .own (.advance 1),
    .own (.reply 2 (.read (.error (.backend "down")))), .own (.advance 1), .own (.ask 3), .handOn,
    .own (.ask 2), .own (.reply 3 (.readMany (.ok ((∅ : Std.HashMap Nat Nat).insert 3 30)))),
    .own (.chore 3), .own (.chore 3), .own (.chore 3), .own (.ask 3)]

/-- The two reads have one call each outstanding, for 1 and for 2. -/
theorem at_most_one_loaderCall_overlap : ∃ d : Delegate Nat Nat, run? {} overlap = some d ∧
    (∃ ks, d.loaderCall? 2 = some (.one 1) ∧ d.loaderCall? 3 = some (.many ks) ∧ 2 ∈ ks) ∧
    (∀ (k i j : Nat) (call call' : Read Nat), d.loaderCall? i = some call →
      d.loaderCall? j = some call' → k ∈ call.keys → k ∈ call'.keys → i = j) ∧
    ∀ (i : Nat) (ks : List Nat), d.loaderCall? i = some (.many ks) → ks ≠ [] ∧ ks.Nodup := by
  have hcalls : ((run? {} overlap).map fun d => (d.loaderCall? 2, d.loaderCall? 3)) =
      some (some (.one 1), some (.many [2])) := by cbv
  -- The calls that are outstanding in the end are read off the run.
  obtain ⟨d, hd, hcalls⟩ := Option.map_eq_some_iff.1 hcalls
  obtain ⟨h₂, h₃⟩ := Prod.mk.inj hcalls
  exact ⟨d, hd, ⟨[2], h₂, h₃, List.mem_singleton_self 2⟩, at_most_one_loaderCall hd⟩

end Delegate

end CacheLayer
