import CacheLayer.Loading.Flights
/-!
# Flights and their guards

A guard is a piece of the right to end a flight, so guards must be neither copied nor lost.
`Guarded` says so of flights whose guards are spread over holders: the entries of the registry are
the guards that are held, each of them once, and a promise without a guard is completed.

## Key results

- `Guarded.register`: a new flight has one guard, with a promise of its own
- `Guarded.complete`: completing a promise moves no guard
- `Guarded.remove`: a guard goes together with its entry
- `Guarded.handOver`: guards may change hands
- `remove_registry_of_ne`: an entry with another promise is never removed
-/

namespace CacheLayer

namespace Flights

variable {κ α ι : Type} [BEq κ] [Hashable κ]

/-! ## What the operations do to registry and promises -/

/-- Completing a promise leaves the registry alone. -/
@[simp] theorem complete_registry (f : Flights κ α) (p : Nat) (o : Outcome α) :
    (f.complete p o).registry = f.registry := rfl

/-- Completing a promise makes no new one. -/
@[simp] theorem complete_promises_size (f : Flights κ α) (p : Nat) (o : Outcome α) :
    (f.complete p o).promises.size = f.promises.size := by
  simp [complete]

/-- Only the first completion of a promise counts. -/
theorem complete_outcome? (f : Flights κ α) {p : Nat} (q : Nat) (o : Outcome α)
    (hp : p < f.promises.size) :
    (f.complete p o).outcome? q = if q = p then f.outcome? p <|> some o else f.outcome? q := by
  simp only [outcome?, complete, Array.getElem?_modify]
  split
  · next h =>
    subst h
    simp [hp]
  · next h => simp [Ne.symm h]

/-- Removing an entry leaves the promises alone. -/
@[simp] theorem remove_promises (f : Flights κ α) (g : Guard κ) :
    (f.remove g).promises = f.promises := by
  simp only [remove]
  split <;> rfl

@[simp] theorem remove_outcome? (f : Flights κ α) (g : Guard κ) (p : Nat) :
    (f.remove g).outcome? p = f.outcome? p := by
  simp only [outcome?, remove_promises]

/-- A guard removes nothing but the entry with its own key and promise. -/
theorem remove_registry_eq_some_iff [LawfulBEq κ] (f : Flights κ α) (g : Guard κ) (k : κ)
    (p : Nat) : (f.remove g).registry[k]? = some p ↔
      f.registry[k]? = some p ∧ (⟨k, p⟩ : Guard κ) ≠ g := by
  obtain ⟨key, promise⟩ := g
  simp only [remove, ne_eq, Guard.mk.injEq]
  split
  · next h =>
    rw [Std.HashMap.getElem?_erase]
    by_cases hk : k = key
    · subst hk
      simp [h, eq_comm]
    · simp [hk, Ne.symm hk]
  · next h =>
    -- The entry of the key is not the one of the guard, so that nothing is removed.
    constructor
    · intro hp
      refine ⟨hp, fun heq => ?_⟩
      rw [heq.1, heq.2] at hp
      exact h hp
    · exact And.left

/-- An entry with another promise is never removed. -/
theorem remove_registry_of_ne [LawfulBEq κ] {f : Flights κ α} {g : Guard κ} {k : κ} {p : Nat}
    (hp : f.registry[k]? = some p) (hne : p ≠ g.promise) : (f.remove g).registry[k]? = some p := by
  rw [remove_registry_eq_some_iff]
  refine ⟨hp, fun heq => ?_⟩
  exact hne (congrArg Guard.promise heq)

/-- Someone who wants a key that is in a flight joins it. -/
theorem register_joined {f : Flights κ α} {k : κ} {p : Nat} (h : f.registry[k]? = some p) :
    f.register k = (.joined p, f) := by
  simp [register, h]

/-- Someone who wants any other key starts a flight with a new promise. -/
theorem register_owned {f : Flights κ α} {k : κ} (h : f.registry[k]? = none) :
    f.register k = (.owned ⟨k, f.promises.size⟩,
      ⟨f.registry.insert k f.promises.size, f.promises.push none⟩) := by
  simp [register, h]

/-- A new promise is not completed, and the others are left alone. -/
theorem outcome?_push (registry : Std.HashMap κ Nat) (f : Flights κ α) (p : Nat) :
    (⟨registry, f.promises.push none⟩ : Flights κ α).outcome? p = f.outcome? p := by
  simp only [outcome?, Array.getElem?_push]
  split
  · next h =>
    subst h
    simp
  · rfl

/-! ## The invariant -/

/-- The entries of the registry are the guards that are held, each of them once and with a promise
of its own, and every other promise is completed. The holders are numbered by `ι`. -/
structure Guarded (f : Flights κ α) (held : ι → List (Guard κ)) : Prop where
  registered : ∀ (k : κ) (p : Nat), f.registry[k]? = some p ↔ ∃ i, ⟨k, p⟩ ∈ held i
  nodup : ∀ i, (held i).Nodup
  disjoint : ∀ {i j : ι} {g : Guard κ}, g ∈ held i → g ∈ held j → i = j
  promise_lt : ∀ {k : κ} {p : Nat}, f.registry[k]? = some p → p < f.promises.size
  promise_inj : ∀ {k k' : κ} {p : Nat},
    f.registry[k]? = some p → f.registry[k']? = some p → k = k'
  settled : ∀ {p : Nat},
    p < f.promises.size → (∀ k : κ, f.registry[k]? ≠ some p) → (f.outcome? p).isSome

namespace Guarded

variable {f : Flights κ α} {held held' : ι → List (Guard κ)}

/-- Without flights there are no guards. -/
protected theorem empty : Guarded ({} : Flights κ α) (fun _ : ι => []) where
  registered := by simp
  nodup := by simp
  disjoint := by simp
  promise_lt := by simp
  promise_inj := by simp
  settled := by simp

/-- A guard that is held stands in the registry. -/
theorem registry_of_mem (h : Guarded f held) {i : ι} {g : Guard κ} (hg : g ∈ held i) :
    f.registry[g.key]? = some g.promise :=
  (h.registered _ _).2 ⟨i, hg⟩

/-- The promise of a guard that is held has been made. -/
theorem promise_lt_of_mem (h : Guarded f held) {i : ι} {g : Guard κ} (hg : g ∈ held i) :
    g.promise < f.promises.size :=
  h.promise_lt (h.registry_of_mem hg)

/-- Guards that are held are the same if their keys are. -/
theorem eq_of_key (h : Guarded f held) {i j : ι} {g g' : Guard κ} (hg : g ∈ held i)
    (hg' : g' ∈ held j) (hk : g.key = g'.key) : g = g' := by
  have hp := h.registry_of_mem hg
  have hp' := h.registry_of_mem hg'
  rw [hk, hp'] at hp
  obtain ⟨key, promise⟩ := g
  obtain ⟨key', promise'⟩ := g'
  simp only at hk hp
  rw [hk, Option.some.inj hp]

/-- Guards that are held are the same if their promises are. -/
theorem eq_of_promise (h : Guarded f held) {i j : ι} {g g' : Guard κ} (hg : g ∈ held i)
    (hg' : g' ∈ held j) (hp : g.promise = g'.promise) : g = g' :=
  h.eq_of_key hg hg' (h.promise_inj (h.registry_of_mem hg) (hp ▸ h.registry_of_mem hg'))

/-- The keys of the guards of one holder are different. -/
theorem nodup_keys (h : Guarded f held) {i : ι} {gs : List (Guard κ)}
    (hgs : gs.Sublist (held i)) : (gs.map Guard.key).Nodup := by
  have hnd := (h.nodup i).sublist hgs
  refine (List.pairwise_map.2 (hnd.imp_of_mem ?_))
  intro g g' hg hg' hne hk
  exact hne (h.eq_of_key (hgs.subset hg) (hgs.subset hg') hk)

/-- Without guards nothing is in flight. -/
theorem size_eq_zero [LawfulBEq κ] (h : Guarded f held) (hnone : ∀ i, held i = []) :
    f.size = 0 := by
  have hmem : ∀ k, ¬ k ∈ f.registry := by
    intro k hk
    obtain ⟨p, hp⟩ := Std.HashMap.mem_iff_isSome_getElem?.1 hk |> Option.isSome_iff_exists.1
    obtain ⟨i, hi⟩ := (h.registered k p).1 hp
    rw [hnone i] at hi
    exact nomatch hi
  have hempty := Std.HashMap.isEmpty_iff_forall_not_mem.2 hmem
  rw [Std.HashMap.isEmpty_eq_size_eq_zero] at hempty
  exact eq_of_beq hempty

/-- A promise that no guard belongs to is completed. -/
theorem settled_of_no_guard (h : Guarded f held) {p : Nat} (hp : p < f.promises.size)
    (hnone : ∀ i, ∀ g ∈ held i, g.promise ≠ p) : (f.outcome? p).isSome := by
  apply h.settled hp
  intro k hk
  obtain ⟨i, hi⟩ := (h.registered k p).1 hk
  exact hnone i _ hi rfl

/-- Guards may be put in another order, each holder keeping its own. -/
theorem perm (h : Guarded f held) (hp : ∀ i, (held' i).Perm (held i)) : Guarded f held' where
  registered k p := by
    rw [h.registered]
    exact exists_congr fun i => (hp i).mem_iff.symm
  nodup i := (hp i).nodup_iff.2 (h.nodup i)
  disjoint hi hj := h.disjoint ((hp _).mem_iff.1 hi) ((hp _).mem_iff.1 hj)
  promise_lt := h.promise_lt
  promise_inj := h.promise_inj
  settled := h.settled

/-- All guards of a holder may be handed over to another one that has none. -/
theorem handOver (h : Guarded f held) {i j : ι} (hj : held j = []) (hi' : held' i = [])
    (hj' : held' j = held i) (ho : ∀ m, m ≠ i → m ≠ j → held' m = held m) : Guarded f held' := by
  -- Every guard is where it was, or has gone from `i` to `j`.
  have key : ∀ m g, g ∈ held' m → (m = j ∧ g ∈ held i) ∨ (m ≠ i ∧ m ≠ j ∧ g ∈ held m) := by
    intro m g hg
    by_cases hmj : m = j
    · subst hmj
      exact .inl ⟨rfl, hj' ▸ hg⟩
    · by_cases hmi : m = i
      · subst hmi
        rw [hi'] at hg
        exact nomatch hg
      · exact .inr ⟨hmi, hmj, ho m hmi hmj ▸ hg⟩
  constructor
  case registered =>
    intro k p
    rw [h.registered]
    constructor
    · intro hheld
      obtain ⟨m, hm⟩ := hheld
      by_cases hmi : m = i
      · subst hmi
        exact ⟨j, hj' ▸ hm⟩
      · have hmj : m ≠ j := by
          intro heq
          rw [heq, hj] at hm
          exact nomatch hm
        exact ⟨m, ho m hmi hmj ▸ hm⟩
    · intro hheld
      obtain ⟨m, hm⟩ := hheld
      rcases key m _ hm with ⟨-, hg⟩ | ⟨-, -, hg⟩
      · exact ⟨i, hg⟩
      · exact ⟨m, hg⟩
  case nodup =>
    intro m
    by_cases hmj : m = j
    · subst hmj
      rw [hj']
      exact h.nodup i
    · by_cases hmi : m = i
      · subst hmi
        simp [hi']
      · rw [ho m hmi hmj]
        exact h.nodup m
  case disjoint =>
    intro m n g hm hn
    -- Two holders after the handover were two holders before, or one of them is new.
    rcases key m g hm with ⟨rfl, hg⟩ | ⟨hmi, hmj, hg⟩ <;>
      rcases key n g hn with ⟨rfl, hg'⟩ | ⟨hni, hnj, hg'⟩
    · rfl
    · exact absurd (h.disjoint hg' hg) hni
    · exact absurd (h.disjoint hg hg') hmi
    · exact h.disjoint hg hg'
  case promise_lt => exact h.promise_lt
  case promise_inj => exact h.promise_inj
  case settled => exact h.settled

/-- Completing a promise moves no guard. -/
theorem complete (h : Guarded f held) {p : Nat} (hp : p < f.promises.size) (o : Outcome α) :
    Guarded (f.complete p o) held where
  registered := h.registered
  nodup := h.nodup
  disjoint := h.disjoint
  promise_lt hk := by
    rw [complete_promises_size]
    exact h.promise_lt hk
  promise_inj := h.promise_inj
  settled {q} hq hk := by
    rw [complete_promises_size] at hq
    have hs := h.settled hq hk
    rw [complete_outcome? f q o hp]
    split
    · next hqp =>
      -- Another outcome would come too late for this promise.
      subst hqp
      obtain ⟨o', ho'⟩ := Option.isSome_iff_exists.1 hs
      simp [ho']
    · exact hs

/-- A new flight has one guard, with a promise of its own. -/
theorem register [LawfulBEq κ] (h : Guarded f held) {k : κ} (hk : f.registry[k]? = none) {i : ι}
    (hi' : held' i = held i ++ [⟨k, f.promises.size⟩]) (ho : ∀ j, j ≠ i → held' j = held j) :
    Guarded ⟨f.registry.insert k f.promises.size, f.promises.push none⟩ held' := by
  -- One guard comes into being, nobody had it before, and the registry gets its entry.
  have key : ∀ j g, g ∈ held' j ↔ g ∈ held j ∨ (j = i ∧ g = ⟨k, f.promises.size⟩) := by
    intro j g
    by_cases hj : j = i
    · subst hj
      simp [hi']
    · simp [ho j hj, hj]
  have fresh : ∀ j, (⟨k, f.promises.size⟩ : Guard κ) ∉ held j := by
    intro j hj
    exact absurd (h.promise_lt_of_mem hj) (Nat.lt_irrefl _)
  have get : ∀ k' p, (f.registry.insert k f.promises.size)[k']? = some p ↔
      f.registry[k']? = some p ∨ (k' = k ∧ p = f.promises.size) := by
    intro k' p
    rw [Std.HashMap.getElem?_insert]
    by_cases hkk : k = k'
    · subst hkk
      simp [hk, eq_comm]
    · simp [hkk, Ne.symm hkk]
  constructor
  case registered =>
    -- The one entry that is new is that of the one guard that is new.
    intro k' p
    simp only [get, h.registered, key, Guard.mk.injEq]
    constructor
    · intro hentry
      rcases hentry with ⟨j, hj⟩ | hnew
      · exact ⟨j, .inl hj⟩
      · exact ⟨i, .inr ⟨rfl, hnew⟩⟩
    · intro hheld
      obtain ⟨j, hj | ⟨-, hnew⟩⟩ := hheld
      · exact .inl ⟨j, hj⟩
      · exact .inr hnew
  case nodup =>
    intro j
    by_cases hj : j = i
    · subst hj
      rw [hi', List.nodup_append]
      refine ⟨h.nodup j, by simp, ?_⟩
      intro g hg g' hg' heq
      rw [heq, List.mem_singleton.1 hg'] at hg
      exact fresh j hg
    · rw [ho j hj]
      exact h.nodup j
  case disjoint =>
    -- Of two holders of one guard neither, one or both may have it since now.
    intro j j' g hj hj'
    rw [key] at hj hj'
    rcases hj with hj | ⟨hji, rfl⟩ <;> rcases hj' with hj' | ⟨hji', hg⟩
    · exact h.disjoint hj hj'
    · exact absurd (hg ▸ hj) (fresh _)
    · exact absurd hj' (fresh _)
    · exact hji.trans hji'.symm
  case promise_lt =>
    -- The new promise is the last one that was made, so that no other entry can have it.
    intro k' p hp
    rw [Array.size_push]
    rcases (get k' p).1 hp with hp | ⟨-, rfl⟩
    · exact Nat.lt_succ_of_lt (h.promise_lt hp)
    · exact Nat.lt_succ_self _
  case promise_inj =>
    intro k₁ k₂ p h₁ h₂
    rcases (get k₁ p).1 h₁ with h₁ | ⟨hk₁, hp₁⟩ <;> rcases (get k₂ p).1 h₂ with h₂ | ⟨hk₂, hp₂⟩
    · exact h.promise_inj h₁ h₂
    · exact absurd (hp₂ ▸ h.promise_lt h₁) (Nat.lt_irrefl _)
    · exact absurd (hp₁ ▸ h.promise_lt h₂) (Nat.lt_irrefl _)
    · exact hk₁.trans hk₂.symm
  case settled =>
    -- The new promise is not completed, but it has its entry.
    intro p hp hnone
    rw [outcome?_push]
    rw [Array.size_push] at hp
    have hne : p ≠ f.promises.size := by
      intro heq
      exact hnone k ((get k p).2 (.inr ⟨rfl, heq⟩))
    apply h.settled (by omega)
    intro k' hk'
    exact hnone k' ((get _ _).2 (.inl hk'))

/-- A guard goes together with its entry. Its promise must have been completed before. -/
theorem remove [LawfulBEq κ] (h : Guarded f held) {i : ι} {g : Guard κ} (hi : held i = g :: held' i)
    (ho : ∀ j, j ≠ i → held' j = held j) (hg : (f.outcome? g.promise).isSome) :
    Guarded (f.remove g) held' := by
  have hmem : g ∈ held i := by simp [hi]
  have hnd := h.nodup i
  rw [hi, List.nodup_cons] at hnd
  -- Of all guards, exactly this one goes.
  have key : ∀ j g', g' ∈ held' j ↔ g' ∈ held j ∧ g' ≠ g := by
    intro j g'
    by_cases hj : j = i
    · subst hj
      rw [hi, List.mem_cons]
      constructor
      · intro hg'
        exact ⟨.inr hg', fun he => hnd.1 (he ▸ hg')⟩
      · intro hold
        exact hold.1.resolve_left hold.2
    · rw [ho j hj]
      refine ⟨fun hg' => ⟨hg', fun heq => ?_⟩, And.left⟩
      exact hj (h.disjoint (heq ▸ hg') hmem)
  constructor
  case registered =>
    intro k p
    simp only [remove_registry_eq_some_iff, h.registered, key]
    constructor
    · intro hentry
      obtain ⟨⟨j, hj⟩, hne⟩ := hentry
      exact ⟨j, hj, hne⟩
    · intro hheld
      obtain ⟨j, hj, hne⟩ := hheld
      exact ⟨⟨j, hj⟩, hne⟩
  case nodup =>
    intro j
    by_cases hj : j = i
    · subst hj
      exact hnd.2
    · rw [ho j hj]
      exact h.nodup j
  case disjoint =>
    -- Nobody gets a guard.
    intro j j' g' hj hj'
    exact h.disjoint ((key j g').1 hj).1 ((key j' g').1 hj').1
  case promise_lt =>
    intro k p hp
    rw [remove_promises]
    exact h.promise_lt ((remove_registry_eq_some_iff f g k p).1 hp).1
  case promise_inj =>
    intro k k' p hk hk'
    exact h.promise_inj ((remove_registry_eq_some_iff f g k p).1 hk).1
      ((remove_registry_eq_some_iff f g k' p).1 hk').1
  case settled =>
    intro p hp hnone
    rw [remove_promises] at hp
    rw [remove_outcome?]
    by_cases hpg : p = g.promise
    · -- The promise that has lost its guard was completed before.
      exact hpg ▸ hg
    · apply h.settled hp
      intro k hk
      exact hnone k (remove_registry_of_ne hk hpg)

end Guarded

end Flights

end CacheLayer
