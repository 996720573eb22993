import CacheLayer.Loading.Resolver
/-!
# What a resolver does with its guards

However a resolver goes on, it keeps the guards it had: each of them is either dropped by one of its
chores or held while it waits for the next reply. Its chores are in good order: a guard is dropped
by giving its promise up and then, at once, removing its entry, and a promise is only completed
while its guard is still there.

## Key results

- `Resolver.resume_guards_perm`: a reply costs no guard and makes none
- `Resolver.resume_sound`: after a reply the chores are in order
- `Resolver.torn_guards`, `Resolver.torn_sound`: the same for a resolver that is torn down
-/

namespace CacheLayer

variable {κ α ν : Type}

/-! ## Chores in order -/

namespace Chore

/-- The guards whose entries are removed, in this order. -/
def removals (cs : List (Chore κ α)) : List (Guard κ) :=
  cs.filterMap fun
    | .remove g => some g
    | _ => none

@[simp] theorem removals_nil : removals ([] : List (Chore κ α)) = [] := rfl

@[simp] theorem removals_publish (g : Guard κ) (o : Outcome α) (cs : List (Chore κ α)) :
    removals (publish g o :: cs) = removals cs := rfl

@[simp] theorem removals_abandon (g : Guard κ) (cs : List (Chore κ α)) :
    removals (abandon g :: cs) = removals cs := rfl

@[simp] theorem removals_remove (g : Guard κ) (cs : List (Chore κ α)) :
    removals (remove g :: cs) = g :: removals cs := rfl

@[simp] theorem removals_append (cs cs' : List (Chore κ α)) :
    removals (cs ++ cs') = removals cs ++ removals cs' :=
  List.filterMap_append

/-- Completing promises removes nothing. -/
@[simp] theorem removals_map_publish (gs : List (Guard κ)) (o : Guard κ → Outcome α) :
    removals (gs.map fun g => publish g (o g)) = [] := by
  induction gs with
  | nil => rfl
  | cons g gs ih => rw [List.map_cons, removals_publish, ih]

/-- Dropping guards removes just these. -/
@[simp] theorem removals_dropAll (gs : List (Guard κ)) :
    removals (dropAll gs : List (Chore κ α)) = gs := by
  induction gs with
  | nil => rfl
  | cons g gs ih =>
    rw [dropAll, List.flatMap_cons, removals_append]
    exact congrArg (g :: ·) ih

/-- Chores in order, before guards that are held on to: a guard is dropped in one go, and a promise
is completed only while its guard is there. -/
inductive Tidy (later : List (Guard κ)) : List (Chore κ α) → Prop where
  | nil : Tidy later []
  | publish {g : Guard κ} {o : Outcome α} {cs : List (Chore κ α)} :
    g ∈ removals cs ++ later → Tidy later cs → Tidy later (.publish g o :: cs)
  | drop {g : Guard κ} {cs : List (Chore κ α)} :
    Tidy later cs → Tidy later (.abandon g :: .remove g :: cs)

namespace Tidy

variable {later : List (Guard κ)} {cs cs' : List (Chore κ α)}

/-- Dropping guards is in order. -/
theorem dropAll (later gs : List (Guard κ)) :
    Tidy later (Chore.dropAll gs : List (Chore κ α)) := by
  induction gs with
  | nil => exact .nil
  | cons g gs ih => exact .drop ih

/-- Completing the promise of a guard and dropping it is in order. -/
theorem resolve (g : Guard κ) (o : Outcome α) (h : Tidy later cs) :
    Tidy later (Chore.resolve g o ++ cs) := by
  change Tidy later (.publish g o :: .abandon g :: .remove g :: cs)
  refine .publish ?_ (.drop h)
  simp

/-- Promises may be completed first if their guards are dropped or held afterwards. -/
theorem publishAll (gs : List (Guard κ)) (o : Guard κ → Outcome α)
    (hgs : ∀ g ∈ gs, g ∈ removals cs ++ later) (h : Tidy later cs) :
    Tidy later (gs.map (fun g => Chore.publish g (o g)) ++ cs) := by
  induction gs with
  | nil => exact h
  | cons g gs ih =>
    rw [List.map_cons, List.cons_append]
    -- Publications remove nothing, so that the guard is still there after those that follow.
    refine .publish ?_ (ih fun g' hg' => hgs g' (List.mem_cons_of_mem g hg'))
    rw [removals_append, removals_map_publish, List.nil_append]
    exact hgs g List.mem_cons_self

end Tidy

end Chore

/-! ## Resolvers -/

namespace Resolver

variable [BEq κ] [Hashable κ]

/-- The guards that are still there when the question is asked. -/
def later (r : Resolver κ ν) : List (Guard κ) := (r.question?.map Question.guards).getD []

/-- A guard is dropped by a chore or held on to. -/
theorem guards_eq (r : Resolver κ ν) : r.guards = Chore.removals r.chores ++ r.later := by
  obtain ⟨chores, question?, asked⟩ := r
  refine congrArg (· ++ _) ?_
  induction chores with
  | nil => rfl
  | cons c cs ih =>
    cases c with
    | publish g o => exact ih
    | abandon g => exact ih
    | remove g => exact congrArg (g :: ·) ih

/-- A resolver whose chores are in order. Several keys are only loaded if there are any. -/
structure Sound (r : Resolver κ ν) : Prop where
  tidy : Chore.Tidy r.later r.chores
  loadMany_ne_nil : ∀ gs, r.question? = some (.loadMany gs) → gs ≠ []

/-- Ending is sound if the chores are in order. -/
private theorem sound_ending {cs : List (Chore κ (Option ν))} (h : Chore.Tidy [] cs) :
    (ending cs).Sound where
  tidy := h
  loadMany_ne_nil _ hq := nomatch hq

/-- The chores that resolve those keys that were found. -/
def resolveFound (found : Std.HashMap κ ν) (gs : List (Guard κ)) :
    List (Chore κ (Option ν)) :=
  gs.flatMap fun g => (found[g.key]?.map fun v => Chore.resolve g (.ok (some v))).getD []

/-- The guards of those keys that were not found. -/
def notFound (found : Std.HashMap κ ν) (gs : List (Guard κ)) : List (Guard κ) :=
  gs.filter fun g => !found.contains g.key

/-- After a read of several keys, those found are resolved and the others are loaded, if there are
any. -/
theorem afterReadMany_cases (gs : List (Guard κ)) (answer : Outcome (Std.HashMap κ ν)) :
    (notFound (answer.toOption.getD ∅) gs = [] ∧
      afterReadMany gs answer = ending (resolveFound (answer.toOption.getD ∅) gs)) ∨
    (notFound (answer.toOption.getD ∅) gs ≠ [] ∧
      afterReadMany gs answer = asking (resolveFound (answer.toOption.getD ∅) gs)
        (.loadMany (notFound (answer.toOption.getD ∅) gs))) := by
  simp only [afterReadMany, resolveFound, notFound]
  -- The two sides choose the chores of a key by different case analyses with the same cases.
  split
  · next hnil =>
    refine .inl ⟨hnil, congrArg (fun f => ending (gs.flatMap f)) (funext fun g => ?_)⟩
    cases (answer.toOption.getD ∅)[g.key]? <;> rfl
  · next hne =>
    refine .inr ⟨hne, congrArg (fun f => asking (gs.flatMap f) _) (funext fun g => ?_)⟩
    cases (answer.toOption.getD ∅)[g.key]? <;> rfl

/-- Resolving what was found is in order. -/
private theorem tidy_resolveFound (found : Std.HashMap κ ν) (later gs : List (Guard κ)) :
    Chore.Tidy later (resolveFound found gs) := by
  induction gs with
  | nil => exact .nil
  | cons g gs ih =>
    rw [resolveFound, List.flatMap_cons]
    cases found[g.key]? with
    | none => exact ih
    | some v => exact ih.resolve g _

private theorem afterReadMany_sound (gs : List (Guard κ)) (answer : Outcome (Std.HashMap κ ν)) :
    (afterReadMany gs answer).Sound := by
  rcases afterReadMany_cases gs answer with ⟨-, heq⟩ | ⟨hne, heq⟩
  · rw [heq]
    exact sound_ending (tidy_resolveFound _ _ gs)
  · rw [heq]
    refine ⟨tidy_resolveFound _ _ gs, ?_⟩
    intro gs' hgs' hnil
    simp only [asking, Option.some.injEq, Question.loadMany.injEq] at hgs'
    exact hne (hgs'.trans hnil)

/-- What was found is dropped, and nothing else. -/
private theorem removals_resolveFound [LawfulBEq κ] (found : Std.HashMap κ ν)
    (gs : List (Guard κ)) :
    Chore.removals (resolveFound found gs) = gs.filter fun g => found.contains g.key := by
  induction gs with
  | nil => rfl
  | cons g gs ih =>
    rw [resolveFound, List.flatMap_cons, Chore.removals_append, List.filter_cons,
      Std.HashMap.contains_eq_isSome_getElem?, ← ih]
    cases found[g.key]? with
    | none => rfl
    | some v => rfl

/-- A read of several keys costs no guard and makes none: what was found is dropped, and the rest is
held on to. -/
private theorem afterReadMany_guards_perm [LawfulBEq κ] (gs : List (Guard κ))
    (answer : Outcome (Std.HashMap κ ν)) : (afterReadMany gs answer).guards.Perm gs := by
  -- Found or not found: these two parts make up all guards.
  have hperm := List.filter_append_perm (fun g => (answer.toOption.getD ∅).contains g.key) gs
  rw [← removals_resolveFound] at hperm
  rcases afterReadMany_cases gs answer with ⟨hnil, heq⟩ | ⟨-, heq⟩
  · rw [notFound] at hnil
    rw [hnil] at hperm
    rw [heq, guards_eq]
    exact hperm
  · rw [heq, guards_eq]
    exact hperm

/-- A load of several keys costs no guard and makes none. -/
private theorem afterLoadMany_guards (gs : List (Guard κ)) (answer : Outcome (Std.HashMap κ ν)) :
    (afterLoadMany gs answer).guards = gs := by
  cases answer with
  | error e =>
    rw [afterLoadMany, ending, guards_eq, Chore.removals_append, Chore.removals_map_publish,
      Chore.removals_dropAll]
    exact List.append_nil gs
  | ok entries =>
    simp only [afterLoadMany]
    -- With nothing loaded all guards are dropped, otherwise they are held on to for the write.
    split
    · rw [ending, guards_eq, Chore.removals_append, Chore.removals_map_publish,
        Chore.removals_dropAll]
      exact List.append_nil gs
    · rw [asking, guards_eq, Chore.removals_map_publish]
      rfl

private theorem afterLoadMany_sound (gs : List (Guard κ)) (answer : Outcome (Std.HashMap κ ν)) :
    (afterLoadMany gs answer).Sound := by
  cases answer with
  | error e =>
    refine sound_ending (.publishAll gs _ ?_ (.dropAll _ gs))
    simp
  | ok entries =>
    simp only [afterLoadMany]
    split
    · refine sound_ending (.publishAll gs _ ?_ (.dropAll _ gs))
      simp
    · refine ⟨?_, fun _ hq => nomatch hq⟩
      have h : Chore.Tidy gs (gs.map (fun g => Chore.publish g (.ok entries[g.key]?)) ++ []) :=
        .publishAll gs _ (by simp) .nil
      rwa [List.append_nil] at h

/-- A reply costs no guard and makes none. -/
theorem resume_guards_perm [LawfulBEq κ] {q : Question κ ν} {answer : Reply κ ν} {r : Resolver κ ν}
    (h : resume q answer = some r) : r.guards.Perm q.guards := by
  -- A reply to another question is no reply.
  cases q <;> cases answer <;> simp only [resume, Option.some.injEq, reduceCtorEq] at h <;> subst h
  case read.read g answer =>
    rcases answer with _ | _ | v
    · exact .refl _
    · exact .refl _
    · exact .refl _
  case load.load g answer =>
    rcases answer.outcome with _ | _ | v
    · exact .refl _
    · exact .refl _
    · exact .refl _
  case write.written g v answer => exact .refl _
  case readMany.readMany gs answer => exact afterReadMany_guards_perm gs answer
  case loadMany.loadMany gs answer => exact .of_eq (afterLoadMany_guards gs answer.outcome)
  case writeMany.written gs entries answer =>
    rw [ending, guards_eq, Chore.removals_dropAll]
    exact .of_eq (List.append_nil gs)

/-- After a reply the chores are in order. -/
theorem resume_sound {q : Question κ ν} {answer : Reply κ ν} {r : Resolver κ ν}
    (h : resume q answer = some r) : r.Sound := by
  cases q <;> cases answer <;> simp only [resume, Option.some.injEq, reduceCtorEq] at h <;> subst h
  case read.read g answer =>
    rcases answer with _ | _ | v
    · exact ⟨.nil, fun _ hq => nomatch hq⟩
    · exact ⟨.nil, fun _ hq => nomatch hq⟩
    · exact sound_ending (Chore.Tidy.nil.resolve g _)
  case load.load g answer =>
    rcases answer.outcome with e | _ | v
    · exact sound_ending (Chore.Tidy.nil.resolve g _)
    · exact sound_ending (Chore.Tidy.nil.resolve g _)
    · -- The value is published before it is written to the cache; the guard stays for the write.
      refine ⟨.publish ?_ .nil, fun _ hq => nomatch hq⟩
      exact List.mem_singleton_self g
  case write.written g v answer => exact sound_ending (.drop .nil)
  case readMany.readMany gs answer => exact afterReadMany_sound gs answer
  case loadMany.loadMany gs answer => exact afterLoadMany_sound gs answer.outcome
  case writeMany.written gs entries answer => exact sound_ending (.dropAll _ gs)

/-- Tearing a resolver down drops the guards it has held on to. -/
theorem torn_guards (q : Question κ ν) : (torn q).guards = q.guards := by
  rw [torn, ending, guards_eq, Chore.removals_dropAll]
  exact List.append_nil _

theorem torn_sound (q : Question κ ν) : (torn q).Sound :=
  sound_ending (.dropAll _ q.guards)

end Resolver

end CacheLayer
