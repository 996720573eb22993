import CacheLayer.Proofs.Loading.Chores
import CacheLayer.Proofs.Loading.Run
/-!
# The invariant of a loading delegate

A guard is held by the caller that has registered its key, until a resolver is started, and then by
that resolver, until one of its chores removes the entry. `Delegate.Inv` says that the guards so
held are exactly the flights of the registry and that every resolver does its chores in order. Every
step keeps it.

## Key results

- `Delegate.Inv.moves`: the invariant is kept by every step
- `Delegate.inv_of_run?`: it holds after every run
-/

namespace CacheLayer

variable {κ ν : Type} [BEq κ] [Hashable κ]

/-! ## What is kept -/

/-- Who holds a guard. -/
inductive Holder where
  /-- A caller that has not started its resolver yet. -/
  | caller (i : Nat)
  | resolver (i : Nat)
deriving DecidableEq

/-- The guards of a holder. -/
def Delegate.held (d : Delegate κ ν) : Holder → List (Guard κ)
  | .caller i => (d.callers[i]?.map Caller.owned).getD []
  | .resolver i => (d.resolvers[i]?.map Resolver.guards).getD []

/-- What is true of every caller, when so many promises have been made. -/
structure Caller.Sound (c : Caller κ) (made : Nat) : Prop where
  owned_eq_nil : c.waiting = true → c.owned = []
  todo_eq_nil : c.waiting = true → c.todo = []
  single : c.single = true →
    c.todo.length + c.pending.length = 1 ∧ c.owned.length ≤ c.pending.length
  pending_lt : ∀ q ∈ c.pending, q.2 < made

namespace Caller.Sound

omit [BEq κ] [Hashable κ]

variable {c : Caller κ} {made made' : Nat} {k : κ} {todo : List κ}

/-- Making more promises does no harm. -/
theorem mono (h : c.Sound made) (hle : made ≤ made') : c.Sound made' :=
  { h with pending_lt := fun q hq => Nat.lt_of_lt_of_le (h.pending_lt q hq) hle }

/-- The caller of a read that begins is sound. -/
theorem ofRead (r : Read κ) (made : Nat) : (Caller.ofRead r).Sound made := by
  cases r with
  | one k => exact ⟨nofun, nofun, fun _ => ⟨rfl, Nat.zero_le _⟩, nofun⟩
  | many ks => exact ⟨nofun, nofun, nofun, nofun⟩

/-- A key that was seen before may be passed over: it is not the only one of its read. -/
theorem passOver [BEq κ] (h : c.Sound made) (hw : c.waiting = false) (ht : c.todo = k :: todo)
    (hseen : (c.pending.any fun q => q.1 == k) = true) :
    ({ c with todo := todo } : Caller κ).Sound made where
  owned_eq_nil hw' := Bool.noConfusion (hw.symm.trans hw')
  todo_eq_nil hw' := Bool.noConfusion (hw.symm.trans hw')
  single hb := by
    have hlen := (h.single hb).1
    rw [ht, List.length_cons] at hlen
    -- A read of one key that has not registered it has seen no key before.
    have hnil : c.pending = [] := List.eq_nil_of_length_eq_zero (by omega)
    rw [hnil] at hseen
    exact nomatch hseen
  pending_lt := h.pending_lt

/-- Taking the registration of a key keeps a caller sound. -/
theorem registered (h : c.Sound made) (hw : c.waiting = false) (ht : c.todo = k :: todo)
    {r : Registration κ} (hle : made ≤ made') (hr : r.promise < made') :
    (c.registered k r todo).Sound made' where
  owned_eq_nil hw' := Bool.noConfusion (hw.symm.trans hw')
  todo_eq_nil hw' := Bool.noConfusion (hw.symm.trans hw')
  single hb := by
    have hlen := h.single hb
    rw [ht, List.length_cons] at hlen
    cases r <;> simp only [Caller.registered, List.length_append, List.length_singleton] <;> omega
  pending_lt q hq := by
    rcases List.mem_append.1 hq with hq | hq
    · exact Nat.lt_of_lt_of_le (h.pending_lt q hq) hle
    · exact List.mem_singleton.1 hq ▸ hr

end Caller.Sound

/-- What is true of every resolver between two of its steps: its chores are in order, or it is just
dropping a guard whose promise is completed. -/
structure Resolver.Fit (r : Resolver κ ν) (f : Flights κ (Option ν)) : Prop where
  tidy : Chore.Tidy r.later r.chores ∨ ∃ g cs, r.chores = .remove g :: cs ∧
    Chore.Tidy r.later cs ∧ (f.outcome? g.promise).isSome
  loadMany_ne_nil : ∀ gs, r.question? = some (.loadMany gs) → gs ≠ []

theorem Resolver.Sound.fit {r : Resolver κ ν} (h : r.Sound) (f : Flights κ (Option ν)) : r.Fit f :=
  ⟨.inl h.tidy, h.loadMany_ne_nil⟩

namespace Delegate

/-- What is true of a delegate at every moment. -/
structure Inv (d : Delegate κ ν) : Prop where
  caller_lt : ∀ {i : Nat} {c : Caller κ}, d.callers[i]? = some c → i < d.next
  resolver_lt : ∀ {i : Nat} {r : Resolver κ ν}, d.resolvers[i]? = some r → i < d.next
  guarded : d.flights.Guarded d.held
  caller : ∀ {i : Nat} {c : Caller κ}, d.callers[i]? = some c → c.Sound d.flights.promises.size
  resolver : ∀ {i : Nat} {r : Resolver κ ν}, d.resolvers[i]? = some r → r.Fit d.flights

/-- A new delegate has neither callers nor flights. -/
theorem Inv.empty : Inv ({} : Delegate κ ν) where
  caller_lt h := by simp at h
  resolver_lt h := by simp at h
  guarded := Flights.Guarded.empty.perm fun i => by cases i <;> simp [held]
  caller h := by simp at h
  resolver h := by simp at h

/-! ## Tables of callers and resolvers -/

/-- What a table holds after an insertion. -/
theorem get_insert {β : Type} (m : Std.HashMap Nat β) (i j : Nat) (b : β) :
    (m.insert i b)[j]? = if j = i then some b else m[j]? := by
  rw [Std.HashMap.getElem?_insert]
  by_cases h : j = i
  · simp [h]
  · simp [h, Ne.symm h]

/-- What a table holds after something was taken out. -/
theorem get_erase {β : Type} (m : Std.HashMap Nat β) (i j : Nat) :
    (m.erase i)[j]? = if j = i then none else m[j]? := by
  rw [Std.HashMap.getElem?_erase]
  by_cases h : j = i
  · simp [h]
  · simp [h, Ne.symm h]

/-- A resolver at its end holds no guards. -/
theorem guards_of_isOver {r : Resolver κ ν} (h : r.isOver = true) : r.guards = [] := by
  obtain ⟨chores, question?, asked⟩ := r
  simp only [Resolver.isOver, Bool.and_eq_true, List.isEmpty_iff, Option.isNone_iff_eq_none] at h
  obtain ⟨rfl, rfl⟩ := h
  rfl

/-- A resolver at its end is not put back. -/
theorem get_putResolver (rs : Std.HashMap Nat (Resolver κ ν)) (i j : Nat)
    (r : Resolver κ ν) : (putResolver rs i r)[j]? =
      if j = i then (if r.isOver then none else some r) else rs[j]? := by
  simp only [putResolver]
  split
  · exact get_erase rs i j
  · exact get_insert rs i j r

/-- Putting a resolver back changes who holds guards only for itself. -/
private theorem held_putResolver (d : Delegate κ ν) (f : Flights κ (Option ν)) (i : Nat)
    (r : Resolver κ ν) (stats : LoadingStats) (h : Holder) :
    held ⟨f, putResolver d.resolvers i r, d.callers, d.next, stats⟩ h =
      if h = .resolver i then r.guards else d.held h := by
  cases h with
  | caller j => simp [held]
  | resolver j =>
    simp only [held, get_putResolver, Holder.resolver.injEq]
    by_cases hj : j = i
    · rw [if_pos hj, if_pos hj]
      split
      · next hover => exact (guards_of_isOver hover).symm
      · rfl
    · rw [if_neg hj, if_neg hj]

/-! ## Steps of resolvers -/

/-- A resolver may be put in the place of another one if it holds the guards that are left, and if
completed promises stay completed. -/
private theorem Inv.replace {d : Delegate κ ν} (h : d.Inv) {i : Nat} {r r' : Resolver κ ν}
    (hr : d.resolvers[i]? = some r) {f : Flights κ (Option ν)} {stats : LoadingStats}
    (hf : f.Guarded (held ⟨f, putResolver d.resolvers i r', d.callers, d.next, stats⟩))
    (hsize : f.promises.size = d.flights.promises.size)
    (hmono : ∀ p, (d.flights.outcome? p).isSome → (f.outcome? p).isSome) (hfit : r'.Fit f) :
    Inv ⟨f, putResolver d.resolvers i r', d.callers, d.next, stats⟩ where
  caller_lt hc := h.caller_lt hc
  resolver_lt {j rj} hj := by
    simp only [get_putResolver] at hj
    by_cases hji : j = i
    · subst hji
      exact h.resolver_lt hr
    · rw [if_neg hji] at hj
      exact h.resolver_lt hj
  guarded := hf
  caller hc := by
    rw [hsize]
    exact h.caller hc
  resolver {j rj} hj := by
    simp only [get_putResolver] at hj
    by_cases hji : j = i
    · rw [if_pos hji] at hj
      split at hj
      · exact nomatch hj
      · exact Option.some.inj hj ▸ hfit
    · rw [if_neg hji] at hj
      -- Another resolver may be about to remove an entry: its promise stays completed.
      exact ⟨Chore.Ready.mono (h.resolver hj).tidy hmono, (h.resolver hj).loadMany_ne_nil⟩

/-- A resolver may go on in another way with the guards that it has. -/
private theorem Inv.goOn {d : Delegate κ ν} (h : d.Inv) {i : Nat} {r : Resolver κ ν}
    (hr : d.resolvers[i]? = some r) (r' : Resolver κ ν) (hperm : r'.guards.Perm r.guards)
    (hsound : r'.Sound) (stats : LoadingStats) :
    Inv ⟨d.flights, putResolver d.resolvers i r', d.callers, d.next, stats⟩ := by
  refine h.replace hr (h.guarded.perm fun j => ?_) rfl (fun _ hp => hp) (hsound.fit _)
  rw [held_putResolver]
  split
  · next hj =>
    subst hj
    simpa [held, hr] using hperm
  · exact .refl _

/-- Doing a chore keeps the invariant. -/
private theorem Inv.chore {d : Delegate κ ν} [LawfulBEq κ] (h : d.Inv) {i : Nat}
    {c : Chore κ (Option ν)} {rest : Resolver κ ν}
    (hr : d.resolvers[i]? = some { rest with chores := c :: rest.chores }) :
    (d.chore i c rest).Inv := by
  have hready : Chore.Ready d.flights rest.later (c :: rest.chores) := (h.resolver hr).tidy
  have hheld : d.held (.resolver i) = Chore.removals (c :: rest.chores) ++ rest.later := by
    simp only [held, hr, Option.map_some, Option.getD_some]
    exact Resolver.guards_eq _
  have hlt := h.guarded.promise_lt_of_mem (hheld ▸ hready.guard_mem)
  -- The resolver keeps the guards that its chores have not dropped, the others keep theirs.
  obtain ⟨hguarded, hready⟩ : (c.run d.flights).Guarded (d.chore i c rest).held ∧
      Chore.Ready (c.run d.flights) rest.later rest.chores := by
    refine h.guarded.chore hready hheld ?_ fun j hj => ?_
    · rw [Delegate.chore, held_putResolver, if_pos rfl, Resolver.guards_eq]
    · rw [Delegate.chore, held_putResolver, if_neg hj]
  refine h.replace hr hguarded (Chore.run_promises_size ..) (fun p hp => ?_)
    ⟨hready, (h.resolver hr).loadMany_ne_nil⟩
  obtain ⟨o, ho⟩ := Option.isSome_iff_exists.1 hp
  rw [Chore.run_outcome?_of_some hlt ho, Option.isSome_some]

/-! ## Steps of callers -/

/-- Changing a caller changes who holds guards only for itself. -/
private theorem held_insertCaller (d : Delegate κ ν) (f : Flights κ (Option ν)) (i n : Nat)
    (c : Caller κ) (stats : LoadingStats) (h : Holder) :
    held ⟨f, d.resolvers, d.callers.insert i c, n, stats⟩ h =
      if h = .caller i then c.owned else d.held h := by
  cases h with
  | resolver j => simp [held]
  | caller j =>
    simp only [held, get_insert, Holder.caller.injEq]
    by_cases hj : j = i
    · rw [if_pos hj, if_pos hj]
      rfl
    · rw [if_neg hj, if_neg hj]

/-- A caller may be put in the place of another one, or be a new one, if it holds the guards that
are there. -/
private theorem Inv.setCaller {d : Delegate κ ν} (h : d.Inv) {i n : Nat} {c : Caller κ}
    {f : Flights κ (Option ν)} {stats : LoadingStats} (hi : i < n) (hn : d.next ≤ n)
    (hf : f.Guarded (held ⟨f, d.resolvers, d.callers.insert i c, n, stats⟩))
    (hsize : d.flights.promises.size ≤ f.promises.size)
    (hout : ∀ p, f.outcome? p = d.flights.outcome? p) (hsound : c.Sound f.promises.size) :
    Inv ⟨f, d.resolvers, d.callers.insert i c, n, stats⟩ where
  caller_lt {j cj} hj := by
    simp only [get_insert] at hj
    by_cases hji : j = i
    · exact hji ▸ hi
    · rw [if_neg hji] at hj
      exact Nat.lt_of_lt_of_le (h.caller_lt hj) hn
  resolver_lt hj := Nat.lt_of_lt_of_le (h.resolver_lt hj) hn
  guarded := hf
  caller {j cj} hj := by
    simp only [get_insert] at hj
    by_cases hji : j = i
    · rw [if_pos hji] at hj
      exact Option.some.inj hj ▸ hsound
    · rw [if_neg hji] at hj
      exact (h.caller hj).mono hsize
  resolver hj :=
    ⟨Chore.Ready.mono (h.resolver hj).tidy fun p hp => hout p ▸ hp, (h.resolver hj).loadMany_ne_nil⟩

/-- A caller may be put in the place of another one with the same guards. -/
private theorem Inv.setCaller_same {d : Delegate κ ν} (h : d.Inv) {i : Nat} {c c' : Caller κ}
    {stats : LoadingStats} (hc : d.callers[i]? = some c) (howned : c'.owned = c.owned)
    (hsound : c'.Sound d.flights.promises.size) :
    Inv ⟨d.flights, d.resolvers, d.callers.insert i c', d.next, stats⟩ := by
  refine h.setCaller (h.caller_lt hc) (Nat.le_refl _) (h.guarded.perm fun j => ?_) (Nat.le_refl _)
    (fun _ => rfl) hsound
  rw [held_insertCaller]
  split
  · next hj =>
    subst hj
    simp [held, hc, howned]
  · exact .refl _

/-- A read that begins holds no guards. -/
private theorem Inv.call {d : Delegate κ ν} (h : d.Inv) (r : Read κ) : (d.call r).Inv := by
  refine h.setCaller (Nat.lt_succ_self _) (Nat.le_succ _) (h.guarded.perm fun j => ?_)
    (Nat.le_refl _) (fun _ => rfl) (.ofRead r _)
  rw [held_insertCaller]
  split
  · next hj =>
    subst hj
    -- The number of the caller was never used.
    have hnone : d.callers[d.next]? = none := by
      cases hc : d.callers[d.next]? with
      | none => rfl
      | some c => exact absurd (h.caller_lt hc) (Nat.lt_irrefl _)
    cases r <;> simp [held, hnone, Caller.ofRead]
  · exact .refl _

/-- Registering a key keeps the invariant: the key is passed over, or joins a flight, or gets one of
its own with a guard for the caller. -/
private theorem Inv.register {d : Delegate κ ν} [LawfulBEq κ] (h : d.Inv) {i : Nat} {c : Caller κ}
    {k : κ} {todo : List κ} (hc : d.callers[i]? = some c) (hw : c.waiting = false)
    (ht : c.todo = k :: todo) : (d.register i c k todo).Inv := by
  have hs := h.caller hc
  simp only [Delegate.register]
  split
  · next hseen => exact h.setCaller_same hc rfl (hs.passOver hw ht hseen)
  · cases hreg : d.flights.registry[k]? with
    | some p =>
      rw [Flights.register_joined hreg]
      exact h.setCaller_same hc rfl
        (hs.registered hw ht (Nat.le_refl _) (h.guarded.promise_lt hreg))
    | none =>
      -- The caller gets the guard of the new flight.
      rw [Flights.register_owned hreg]
      refine h.setCaller (h.caller_lt hc) (Nat.le_refl _)
        (h.guarded.register hreg (i := .caller i) ?_ fun j hj => ?_) (by simp)
        (fun p => Flights.outcome?_push _ _ p) (hs.registered hw ht (by simp) ?_)
      · rw [held_insertCaller, if_pos rfl]
        simp [held, hc, Caller.registered]
      · rw [held_insertCaller, if_neg hj]
      · simp [Registration.promise]

/-- A caller that starts no resolver has no guards. -/
private theorem owned_of_resolver?_none {c : Caller κ}
    (h : (c.resolver? : Option (Resolver κ ν)) = none) : c.owned = [] := by
  simp only [Caller.resolver?] at h
  split at h
  · next hnil => exact hnil
  · exact nomatch h
  · exact nomatch h

/-- The resolver that a caller starts has the guards of the caller. -/
private theorem guards_of_resolver?_some {c : Caller κ} {made : Nat} {r : Resolver κ ν}
    (hs : c.Sound made) (h : c.resolver? = some r) : r.guards = c.owned ∧ r.Sound := by
  simp only [Caller.resolver?] at h
  split at h
  · exact nomatch h
  · next g gs hsingle howned =>
    -- A read of one key owns one flight at most.
    have hlen := hs.single hsingle
    rw [howned, List.length_cons] at hlen
    obtain rfl : gs = [] := List.eq_nil_of_length_eq_zero (by omega)
    obtain rfl := Option.some.inj h
    exact ⟨howned.symm, .nil, nofun⟩
  · obtain rfl := Option.some.inj h
    exact ⟨rfl, .nil, nofun⟩

/-- Starting a resolver hands the guards over to it. -/
private theorem Inv.startResolver {d : Delegate κ ν} (h : d.Inv) {i : Nat} {c : Caller κ}
    (hc : d.callers[i]? = some c) (ht : c.todo = []) : (d.startResolver i c).Inv := by
  have hs := h.caller hc
  have hlt := h.caller_lt hc
  have hwaits :
      ({ c with owned := [], waiting := true } : Caller κ).Sound d.flights.promises.size :=
    ⟨fun _ => rfl, fun _ => ht, fun hb => ⟨(hs.single hb).1, Nat.zero_le _⟩, hs.pending_lt⟩
  simp only [Delegate.startResolver]
  split
  · next hnone => exact h.setCaller_same hc (owned_of_resolver?_none hnone).symm hwaits
  · next r hr =>
    obtain ⟨hguards, hsound⟩ := guards_of_resolver?_some hs hr
    -- The number of the new resolver was never used, so that it has no guards of its own yet.
    have hnext : d.resolvers[d.next]? = none := by
      cases hd : d.resolvers[d.next]? with
      | none => rfl
      | some r' => exact absurd (h.resolver_lt hd) (Nat.lt_irrefl _)
    constructor
    case caller_lt =>
      intro j cj hj
      simp only [get_insert] at hj
      by_cases hji : j = i
      · subst hji
        exact Nat.lt_succ_of_lt hlt
      · rw [if_neg hji] at hj
        exact Nat.lt_succ_of_lt (h.caller_lt hj)
    case resolver_lt =>
      intro j rj hj
      simp only [get_insert] at hj
      by_cases hjn : j = d.next
      · subst hjn
        exact Nat.lt_succ_self _
      · rw [if_neg hjn] at hj
        exact Nat.lt_succ_of_lt (h.resolver_lt hj)
    case guarded =>
      -- What the caller had is what the resolver has; everybody else keeps what they have.
      refine h.guarded.handOver (i := .caller i) (j := .resolver d.next) ?_ ?_ ?_ ?_
      · simp [held, hnext]
      · simp [held]
      · simp [held, hc, hguards]
      · intro m hmi hmn
        cases m with
        | caller j =>
          have hji : j ≠ i := fun hji => hmi (congrArg _ hji)
          simp only [held, get_insert, if_neg hji]
        | resolver j =>
          have hjn : j ≠ d.next := fun hjn => hmn (congrArg _ hjn)
          simp only [held, get_insert, if_neg hjn]
    case caller =>
      intro j cj hj
      simp only [get_insert] at hj
      by_cases hji : j = i
      · rw [if_pos hji] at hj
        exact Option.some.inj hj ▸ hwaits
      · rw [if_neg hji] at hj
        exact h.caller hj
    case resolver =>
      intro j rj hj
      simp only [get_insert] at hj
      by_cases hjn : j = d.next
      · rw [if_pos hjn] at hj
        exact Option.some.inj hj ▸ hsound.fit _
      · rw [if_neg hjn] at hj
        exact h.resolver hj

/-- A caller that goes away takes no guard with it. -/
private theorem Inv.leave {d : Delegate κ ν} (h : d.Inv) {i : Nat} {c : Caller κ}
    (hc : d.callers[i]? = some c) (hw : c.waiting = true) : (d.leave i).Inv where
  caller_lt {j cj} hj := by
    simp only [Delegate.leave, get_erase] at hj
    split at hj
    · exact nomatch hj
    · exact h.caller_lt hj
  resolver_lt := h.resolver_lt
  guarded := by
    -- A caller that waits has handed its guards over, so that nobody loses any.
    apply h.guarded.perm
    intro m
    cases m with
    | resolver j => exact .refl _
    | caller j =>
      simp only [held, Delegate.leave, get_erase]
      by_cases hji : j = i
      · subst hji
        simp [hc, (h.caller hc).owned_eq_nil hw]
      · rw [if_neg hji]
  caller {j cj} hj := by
    simp only [Delegate.leave, get_erase] at hj
    split at hj
    · exact nomatch hj
    · exact h.caller hj
  resolver := h.resolver

/-! ## All steps -/

/-- The invariant is kept by every step. -/
theorem Inv.moves [LawfulBEq κ] {d d' : Delegate κ ν} {s : Step κ ν} (h : d.Inv)
    (hm : Moves d s d') : d'.Inv := by
  cases hm with
  | call r => exact h.call r
  | register i c k todo hc hw ht => exact h.register hc hw ht
  | startResolver i c hc hw ht => exact h.startResolver hc ht
  | leave i c hc hw => exact h.leave hc hw
  | chore i c rest hr => exact h.chore hr
  | ask i q hr =>
    exact h.goOn hr ⟨[], some q, true⟩ (.refl _) ⟨.nil, (h.resolver hr).loadMany_ne_nil⟩ _
  | reply i q answer r hr hresume =>
    exact h.goOn hr r (Resolver.resume_guards_perm hresume) (Resolver.resume_sound hresume) _
  | tear i q asked hr =>
    exact h.goOn hr (.torn q) (.of_eq (Resolver.torn_guards q)) (Resolver.torn_sound q) _

/-- The invariant holds after every run. -/
theorem inv_of_run? [LawfulBEq κ] {d : Delegate κ ν} {es : List (Event κ ν)}
    (h : run? {} es = some d) : d.Inv :=
  run?_inv (P := fun _ d => d.Inv) (fun _ _ _ _ hd hm => hd.moves hm) [] .empty h

end Delegate

end CacheLayer
