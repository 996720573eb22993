import CacheLayer.Proofs.Loading.Guarded
import CacheLayer.Proofs.Loading.Resolving
/-!
# Doing chores

Whoever holds guards works on the flights by doing chores one by one. Each chore is about a guard of
the one who does it: it completes the promise of the guard, or it takes the guard away together with
its entry. What anybody else holds is left alone, and what is completed stays completed.

## Key results

- `Chore.run_outcome?`: only the first chore that completes a promise counts
- `Flights.Guarded.chore`: doing a chore in order keeps guards and flights together
-/

namespace CacheLayer

variable {κ α ι : Type}

namespace Chore

/-- The guard that a chore is about. -/
def guard : Chore κ α → Guard κ
  | publish g _ => g
  | abandon g => g
  | remove g => g

/-- What a chore completes the promise of its guard with. -/
def completion? : Chore κ α → Option (Outcome α)
  | publish _ o => some o
  | abandon _ => some (.error Flights.abandoned)
  | remove _ => none

/-- What chores have completed a promise with: the first of them that does so counts. -/
def completed? (p : Nat) (done : List (Chore κ α)) : Option (Outcome α) :=
  done.findSome? fun c => if c.guard.promise = p then c.completion? else none

theorem completed?_append (p : Nat) (cs cs' : List (Chore κ α)) :
    completed? p (cs ++ cs') = (completed? p cs).or (completed? p cs') :=
  List.findSome?_append

theorem completed?_concat (p : Nat) (done : List (Chore κ α)) (c : Chore κ α) :
    completed? p (done ++ [c]) =
      (completed? p done).or (if c.guard.promise = p then c.completion? else none) := by
  rw [completed?_append]
  exact congrArg _ List.findSome?_singleton

/-- Chores about other promises do not complete a promise. -/
theorem completed?_eq_none {p : Nat} {cs : List (Chore κ α)}
    (h : ∀ c ∈ cs, c.guard.promise ≠ p) : completed? p cs = none :=
  List.findSome?_eq_none_iff.2 fun c hc => if_neg (h c hc)

/-- Where guards have promises of their own, a promise is completed by the chores that are about its
guard. -/
theorem completed?_flatMap {gs : List (Guard κ)} (hnodup : (gs.map Guard.promise).Nodup)
    {f : Guard κ → List (Chore κ α)} (hf : ∀ g, ∀ c ∈ f g, c.guard = g) {g : Guard κ}
    (hg : g ∈ gs) : completed? g.promise (gs.flatMap f) = completed? g.promise (f g) := by
  induction gs with
  | nil => exact nomatch hg
  | cons g' gs ih =>
    rw [List.map_cons, List.nodup_cons] at hnodup
    rw [List.flatMap_cons, completed?_append]
    rcases List.mem_cons.1 hg with rfl | hg
    · have hnone : completed? g.promise (gs.flatMap f) = none := by
        refine completed?_eq_none fun c hc heq => hnodup.1 ?_
        obtain ⟨g', hg', hc⟩ := List.mem_flatMap.1 hc
        rw [← heq, hf g' c hc]
        exact List.mem_map_of_mem hg'
      rw [hnone, Option.or_none]
    · have hnone : completed? g.promise (f g') = none := by
        refine completed?_eq_none fun c hc heq => hnodup.1 ?_
        rw [← hf g' c hc, heq]
        exact List.mem_map_of_mem hg
      rw [hnone, Option.none_or, ih hnodup.2 hg]

/-- What is published for each of some guards. -/
theorem completed?_map_publish {gs : List (Guard κ)} (hnodup : (gs.map Guard.promise).Nodup)
    (o : Guard κ → Outcome α) {g : Guard κ} (hg : g ∈ gs) :
    completed? g.promise (gs.map fun g => publish g (o g)) = some (o g) := by
  rw [List.map_eq_flatMap,
    completed?_flatMap hnodup (fun g c hc => by rw [List.mem_singleton.1 hc]; rfl) hg]
  simp [completed?, guard, completion?]

/-- Guards that are dropped have their promises given up. -/
theorem completed?_dropAll {gs : List (Guard κ)} {p : Nat} {o : Outcome α}
    (h : completed? p (dropAll gs) = some o) : o = .error Flights.abandoned := by
  obtain ⟨c, hc, ho⟩ := List.exists_of_findSome?_eq_some h
  obtain ⟨g, -, hc⟩ := List.mem_flatMap.1 hc
  split at ho
  · rcases List.mem_cons.1 hc with rfl | hc
    · exact (Option.some.inj ho).symm
    · rw [List.mem_singleton.1 hc] at ho
      exact nomatch ho
  · exact nomatch ho

/-- Chores that may be done on some flights, before guards that are held on to: they are in order,
or they are just dropping a guard whose promise is completed. -/
def Ready [BEq κ] [Hashable κ] (f : Flights κ α) (later : List (Guard κ))
    (cs : List (Chore κ α)) : Prop :=
  Tidy later cs ∨ ∃ g cs', cs = .remove g :: cs' ∧ Tidy later cs' ∧ (f.outcome? g.promise).isSome

section

variable [BEq κ] [Hashable κ] {f f' : Flights κ α} {later : List (Guard κ)} {c : Chore κ α}
  {cs : List (Chore κ α)}

/-- Chores stay ready while promises are only completed. -/
theorem Ready.mono (h : Ready f later cs)
    (hmono : ∀ p, (f.outcome? p).isSome → (f'.outcome? p).isSome) : Ready f' later cs := by
  refine h.imp_right fun hdropping => ?_
  obtain ⟨g, cs', hcs, ht, hg⟩ := hdropping
  exact ⟨g, cs', hcs, ht, hmono _ hg⟩

/-- The next chore is about a guard that is only dropped later, or is dropped now. -/
theorem Ready.guard_mem (h : Ready f later (c :: cs)) :
    c.guard ∈ removals (c :: cs) ++ later := by
  rcases h with htidy | ⟨g, cs', hcs, -, -⟩
  · cases htidy with
    | publish hmem htidy => exact hmem
    | drop htidy => exact List.mem_cons_self
  · obtain ⟨rfl, -⟩ := List.cons.inj hcs
    exact List.mem_cons_self

/-- A chore makes no promise. -/
@[simp] theorem run_promises_size (f : Flights κ α) (c : Chore κ α) :
    (c.run f).promises.size = f.promises.size := by
  cases c <;> simp [run]

private theorem completed {f : Flights κ α} (c : Chore κ α) (hc : c.guard.promise < f.promises.size)
    (p : Nat) (o : Outcome α) : (f.complete c.guard.promise o).outcome? p =
      if p = c.guard.promise then (f.outcome? p).or (some o) else f.outcome? p := by
  rw [Flights.complete_outcome? f p o hc]
  split
  · next hp => rw [hp, Option.orElse_eq_orElse, Option.orElse_eq_or]
  · rfl

/-- What a chore does to the promises: the first completion of a promise counts. -/
theorem run_outcome? {f : Flights κ α} {c : Chore κ α} (hc : c.guard.promise < f.promises.size)
    (p : Nat) : (c.run f).outcome? p =
      if p = c.guard.promise then (f.outcome? p).or c.completion? else f.outcome? p := by
  cases c with
  | publish g o => exact completed (.publish g o) hc p o
  | abandon g => exact completed (.abandon g) hc p _
  | remove g =>
    rw [run, Flights.remove_outcome?, completion?, Option.or_none, ite_self]

/-- What is completed stays as it is. -/
theorem run_outcome?_of_some {f : Flights κ α} {c : Chore κ α}
    (hc : c.guard.promise < f.promises.size) {p : Nat} {o : Outcome α}
    (hp : f.outcome? p = some o) : (c.run f).outcome? p = some o := by
  rw [run_outcome? hc, hp]
  split <;> rfl

/-- A promise that is given up has an outcome. -/
theorem isSome_outcome?_abandon {f : Flights κ α} {g : Guard κ}
    (hg : g.promise < f.promises.size) : (((abandon g).run f).outcome? g.promise).isSome := by
  rw [run, Flights.complete_outcome? _ _ _ hg, if_pos rfl]
  cases f.outcome? g.promise <;> rfl

end

end Chore

namespace Flights

variable [BEq κ] [Hashable κ] {f : Flights κ α} {held held' : ι → List (Guard κ)}

/-- Doing the next chore keeps guards and flights together, and the other chores are ready then. -/
theorem Guarded.chore [LawfulBEq κ] (h : f.Guarded held) {i : ι} {c : Chore κ α}
    {cs : List (Chore κ α)} {later : List (Guard κ)} (hready : Chore.Ready f later (c :: cs))
    (hi : held i = Chore.removals (c :: cs) ++ later) (hi' : held' i = Chore.removals cs ++ later)
    (ho : ∀ j, j ≠ i → held' j = held j) :
    (c.run f).Guarded held' ∧ Chore.Ready (c.run f) later cs := by
  have hlt := h.promise_lt_of_mem (hi ▸ hready.guard_mem)
  -- A chore that removes no entry leaves everybody the guards that they have.
  have same : Chore.removals (c :: cs) = Chore.removals cs → f.Guarded held' := by
    intro heq
    refine h.perm fun j => ?_
    by_cases hj : j = i
    · subst hj
      rw [hi, hi', heq]
    · rw [ho j hj]
  rcases hready with htidy | ⟨g, cs', hcs, htidy, hg⟩
  · cases htidy with
    | publish hmem htidy => exact ⟨(same rfl).complete hlt _, .inl htidy⟩
    | @drop g cs htidy =>
      -- The promise that is given up has an outcome, and the removal of its entry is next.
      exact ⟨(same rfl).complete hlt _,
        .inr ⟨g, cs, rfl, htidy, Chore.isSome_outcome?_abandon hlt⟩⟩
  · obtain ⟨rfl, rfl⟩ := List.cons.inj hcs
    refine ⟨h.remove ?_ ho hg, .inl htidy⟩
    rw [hi, hi']
    rfl

end Flights

end CacheLayer
