import CacheLayer.Proofs.Loading.Talk
/-!
# A read from its beginning to its result

A read registers its keys one by one, has a resolver started for the flights that it has begun, and
waits for its promises. Callers and resolvers of other reads take their steps in between. `Reading`
is a run with such a read in it, cut where the read begins and where it starts its resolver.

## Key results

- `Reading.registering`: what the read has registered is each of its keys, once
- `Reading.course`: the resolver of the read follows its talk, beginning with the first question
- `Reading.waiter`: after that the caller only waits
- `result?_eq_one`, `result?_eq_many`: what a caller gets is told by the outcomes of its promises
-/

namespace CacheLayer

variable {κ ν : Type} [BEq κ] [Hashable κ]

namespace Delegate

/-! ## What a step does to a caller -/

/-- Registering a key passes it over, or finds it in a flight, or begins a flight. -/
theorem register_cases (d : Delegate κ ν) (i : Nat) (c : Caller κ) (k : κ) (todo : List κ) :
    ((c.pending.any fun q => q.1 == k) = true ∧
      (d.register i c k todo).callers = d.callers.insert i { c with todo := todo } ∧
      (d.register i c k todo).next = d.next) ∨
    ((c.pending.any fun q => q.1 == k) = false ∧ ∃ r : Registration κ,
      (d.register i c k todo).callers = d.callers.insert i (c.registered k r todo) ∧
      (d.register i c k todo).next = d.next ∧
      ((d.flights.registry[k]? = some r.promise ∧ r = .joined r.promise) ∨
        (d.flights.registry[k]? = none ∧ r = .owned ⟨k, d.flights.promises.size⟩))) := by
  simp only [Delegate.register]
  split
  · next hseen => exact .inl ⟨hseen, rfl, rfl⟩
  · next hnew =>
    refine .inr ⟨Bool.eq_false_iff.2 hnew, ?_⟩
    cases hk : d.flights.registry[k]? with
    | some p =>
      rw [Flights.register_joined hk]
      exact ⟨.joined p, rfl, rfl, .inl ⟨rfl, rfl⟩⟩
    | none =>
      rw [Flights.register_owned hk]
      exact ⟨_, rfl, rfl, .inr ⟨rfl, rfl⟩⟩

/-- A step leaves a caller alone, or lets it register a key, or has its resolver started, or the
caller goes away. -/
theorem Moves.caller {d d' : Delegate κ ν} {s : Step κ ν} (hm : Moves d s d') {i : Nat}
    (hi : i < d.next) :
    d'.callers[i]? = d.callers[i]? ∨
    (∃ c k todo, s = .advance i ∧ d.callers[i]? = some c ∧ c.waiting = false ∧
      c.todo = k :: todo ∧ d' = d.register i c k todo) ∨
    (∃ c, s = .advance i ∧ d.callers[i]? = some c ∧ c.waiting = false ∧
      d'.callers[i]? = some { c with owned := [], waiting := true }) ∨
    d'.callers[i]? = none := by
  -- The steps of a caller and a new read are about one caller; all the others are about resolvers.
  cases hm with
  | call r =>
    refine .inl ?_
    simp only [Delegate.call, get_insert, if_neg (Nat.ne_of_lt hi)]
  | register j c k todo hc hw ht =>
    by_cases hj : j = i
    · subst hj
      exact .inr (.inl ⟨c, k, todo, rfl, hc, hw, ht, rfl⟩)
    · refine .inl ?_
      rcases d.register_cases j c k todo with ⟨-, hcallers, -⟩ | ⟨-, r, hcallers, -⟩ <;>
        rw [hcallers, get_insert, if_neg (Ne.symm hj)]
  | startResolver j c hc hw ht =>
    have hcallers : (d.startResolver j c).callers =
        d.callers.insert j { c with owned := [], waiting := true } := by
      simp only [Delegate.startResolver]
      split <;> rfl
    rw [hcallers, get_insert]
    by_cases hj : i = j
    · subst hj
      exact .inr (.inr (.inl ⟨c, rfl, hc, hw, if_pos rfl⟩))
    · exact .inl (if_neg hj)
  | leave j c hc hw =>
    simp only [Delegate.leave, get_erase]
    by_cases hj : i = j
    · exact .inr (.inr (.inr (if_pos hj)))
    · exact .inl (if_neg hj)
  | chore j c rest hr => exact .inl rfl
  | ask j q hr => exact .inl rfl
  | reply j q answer r hr hresume => exact .inl rfl
  | tear j q asked hr => exact .inl rfl

/-- A caller that holds a guard has it from before, or has just begun its flight. -/
theorem Moves.held_caller {d d' : Delegate κ ν} {s : Step κ ν} (hm : Moves d s d') (h : d.Inv)
    {i : Nat} {g : Guard κ} (hg : g ∈ d'.held (.caller i)) :
    g ∈ d.held (.caller i) ∨ g.promise = d.flights.promises.size := by
  simp only [held] at hg ⊢
  by_cases hi : i < d.next
  · -- A caller that was there before gets a guard only where it begins a flight.
    rcases hm.caller hi with heq | ⟨c, k, todo, -, hc, -, -, rfl⟩ | ⟨c, -, -, -, hc'⟩ | hnone
    · exact .inl (heq ▸ hg)
    · rw [hc]
      rcases d.register_cases i c k todo with ⟨-, hcallers, -⟩ | ⟨-, r, hcallers, -, hr⟩ <;>
        rw [hcallers, get_insert, if_pos rfl] at hg
      · exact .inl hg
      · rcases hr with ⟨-, hr⟩ | ⟨-, hr⟩ <;> rw [hr] at hg
        · exact .inl hg
        · rcases List.mem_append.1 hg with hg | hg
          · exact .inl hg
          · exact .inr (congrArg Guard.promise (List.mem_singleton.1 hg))
    · rw [hc'] at hg
      exact absurd hg List.not_mem_nil
    · rw [hnone] at hg
      exact absurd hg List.not_mem_nil
  · -- Only a read that has just begun may have the next number, and it has no guards.
    cases hm with
    | call r =>
      simp only [Delegate.call, get_insert] at hg
      split at hg
      · cases r <;> exact absurd hg List.not_mem_nil
      · exact .inl hg
    | register j c k todo hc hw ht =>
      have hj : i ≠ j := fun heq => hi (heq ▸ h.caller_lt hc)
      rcases d.register_cases j c k todo with ⟨-, hcallers, -⟩ | ⟨-, r, hcallers, -⟩ <;>
        rw [hcallers, get_insert, if_neg hj] at hg <;> exact .inl hg
    | startResolver j c hc hw ht =>
      have hj : i ≠ j := fun heq => hi (heq ▸ h.caller_lt hc)
      simp only [Delegate.startResolver] at hg
      split at hg <;> rw [get_insert, if_neg hj] at hg <;> exact .inl hg
    | leave j c hc hw =>
      simp only [Delegate.leave, get_erase] at hg
      split at hg
      · exact absurd hg List.not_mem_nil
      · exact .inl hg
    | chore j c rest hr => exact .inl hg
    | ask j q hr => exact .inl hg
    | reply j q answer r hr hresume => exact .inl hg
    | tear j q asked hr => exact .inl hg

/-- The promises of flights that callers have just begun have no outcomes yet. -/
def Pristine (d : Delegate κ ν) : Prop :=
  ∀ i, ∀ g ∈ d.held (.caller i), d.flights.outcome? g.promise = none

/-- They have none until a resolver is started. -/
theorem Pristine.moves {d d' : Delegate κ ν} {s : Step κ ν} (hp : d.Pristine) (h : d.Inv)
    (hm : Moves d s d') : d'.Pristine := by
  intro i g hg
  rcases hm.held_caller h hg with hheld | hnew
  · rw [hm.outcome?_of_ne h hheld fun j _ => nofun]
    exact hp i g hheld
  · -- The promise is new, so that nobody has completed it.
    have hnone : d.flights.outcome? g.promise = none := by
      rw [hnew, Flights.outcome?, Array.getElem?_eq_none (Nat.le_refl _)]
      rfl
    rcases hm.flights with ⟨hflights, -⟩ | ⟨k, -, -, hflights⟩ | ⟨j, c, rest, hr, -, rfl⟩
    · rw [hflights, hnone]
    · rw [hflights, Flights.outcome?_push, hnone]
    · have hc := h.guarded.promise_lt_of_mem (h.guard_mem_held hr)
      refine (Chore.run_outcome? hc _).trans ((if_neg ?_).trans hnone)
      omega

theorem pristine_of_run? [LawfulBEq κ] {d : Delegate κ ν} {es : List (Event κ ν)}
    (hrun : run? {} es = some d) : d.Pristine := by
  refine (run?_inv (P := fun _ d => d.Inv ∧ d.Pristine)
    (fun _ _ _ _ hd hm => ⟨hd.1.moves hm, hd.2.moves hd.1 hm⟩) [] ⟨.empty, ?_⟩ hrun).2
  intro i g hg
  simp [held] at hg

/-! ## Registering keys -/

/-- How a caller has come to wait for a promise: at some moment of a run it found the key in a
flight with this promise, or it found it in none, began a flight and got the guard. -/
def Found (d₀ : Delegate κ ν) (i : Nat) (es : List (Event κ ν)) (owned : List (Guard κ))
    (q : κ × Nat) : Prop :=
  ∃ es₁ es₂ d, es = es₁ ++ .own (.advance i) :: es₂ ∧ d₀.run? es₁ = some d ∧
    (d.flights.registry[q.1]? = some q.2 ∧ ⟨q.1, q.2⟩ ∉ owned ∨
      d.flights.registry[q.1]? = none ∧ ⟨q.1, q.2⟩ ∈ owned)

/-- A caller that has registered some of the keys of its read: each of them once, however often it
is listed, and all of those that it has seen. -/
structure Registering (d₀ : Delegate κ ν) (i : Nat) (r : Read κ) (es : List (Event κ ν))
    (c : Caller κ) : Prop where
  single : c.single = (Caller.ofRead r).single
  keys : ∃ seen, r.keys = seen ++ c.todo ∧ ∀ k, k ∈ c.pending.map Prod.fst ↔ k ∈ seen
  nodup : (c.pending.map Prod.fst).Nodup
  owned : ∀ g ∈ c.owned, (g.key, g.promise) ∈ c.pending
  found : ∀ q ∈ c.pending, Found d₀ i es c.owned q

namespace Registering

variable {d₀ d : Delegate κ ν} {i : Nat} {r : Read κ} {es : List (Event κ ν)} {c : Caller κ}
  {k : κ} {todo : List κ}

/-- A read that begins has not seen any key. -/
protected theorem ofRead (d₀ : Delegate κ ν) (i : Nat) (r : Read κ) :
    Registering d₀ i r [] (.ofRead r) := by
  cases r <;> exact ⟨rfl, ⟨[], rfl, by simp [Caller.ofRead]⟩, .nil,
    fun _ hg => absurd hg List.not_mem_nil, fun _ hq => absurd hq List.not_mem_nil⟩

/-- What was found was found, whatever happens afterwards. -/
theorem mono (h : Registering d₀ i r es c) (e : Event κ ν) :
    Registering d₀ i r (es ++ [e]) c := by
  refine { h with found := fun q hq => ?_ }
  obtain ⟨es₁, es₂, d, rfl, hrun, hfound⟩ := h.found q hq
  exact ⟨es₁, es₂ ++ [e], d, by simp, hrun, hfound⟩

omit [Hashable κ] in
private theorem mem_keys_iff [LawfulBEq κ] (c : Caller κ) (k : κ) :
    k ∈ c.pending.map Prod.fst ↔ (c.pending.any fun q => q.1 == k) = true := by
  simp [List.any_eq_true]

/-- A key that was seen before is passed over. -/
theorem passOver [LawfulBEq κ] (h : Registering d₀ i r es c) (ht : c.todo = k :: todo)
    (hseen : (c.pending.any fun q => q.1 == k) = true) :
    Registering d₀ i r es { c with todo := todo } := by
  obtain ⟨seen, hkeys, hmem⟩ := h.keys
  refine { h with keys := ⟨seen ++ [k], by rw [hkeys, ht, List.append_assoc]; rfl, fun k' => ?_⟩ }
  rw [List.mem_append, List.mem_singleton, ← hmem]
  constructor
  · exact .inl
  · intro hk'
    rcases hk' with hk' | rfl
    · exact hk'
    · exact (mem_keys_iff c k').2 hseen

/-- A key that is new is registered as it is found. -/
theorem registered [LawfulBEq κ] (h : Registering d₀ i r es c) (hrun : d₀.run? es = some d)
    (ht : c.todo = k :: todo) (hnew : (c.pending.any fun q => q.1 == k) = false)
    {a : Registration κ} (ha : (d.flights.registry[k]? = some a.promise ∧ a = .joined a.promise) ∨
      (d.flights.registry[k]? = none ∧ a = .owned ⟨k, d.flights.promises.size⟩)) :
    Registering d₀ i r (es ++ [.own (.advance i)]) (c.registered k a todo) := by
  obtain ⟨seen, hkeys, hmem⟩ := h.keys
  have hk : k ∉ c.pending.map Prod.fst := by
    rw [mem_keys_iff, hnew]
    exact Bool.false_ne_true
  -- A guard of this key is not yet there, and another guard does not come.
  have howned : ∀ q : κ × Nat, q.1 ≠ k →
      (⟨q.1, q.2⟩ ∈ (c.registered k a todo).owned ↔ ⟨q.1, q.2⟩ ∈ c.owned) := by
    intro q hq
    rcases ha with ⟨-, ha⟩ | ⟨-, ha⟩ <;> rw [ha]
    · rfl
    · simp [Caller.registered, hq]
  have hnone : ∀ p, (⟨k, p⟩ : Guard κ) ∉ c.owned := by
    intro p hp
    exact hk (List.mem_map.2 ⟨_, h.owned _ hp, rfl⟩)
  constructor
  case single => exact h.single
  case keys =>
    refine ⟨seen ++ [k], by rw [hkeys, ht, List.append_assoc]; rfl, fun k' => ?_⟩
    simp only [Caller.registered, List.map_append, List.mem_append, hmem]
    rfl
  case nodup =>
    -- Only new keys are registered; the others are passed over.
    simp only [Caller.registered, List.map_append]
    refine List.nodup_append.2 ⟨h.nodup, List.nodup_singleton _, ?_⟩
    intro k₁ hk₁ k₂ hk₂ heq
    rw [heq, List.mem_singleton.1 hk₂] at hk₁
    exact hk hk₁
  case owned =>
    intro g hg
    refine List.mem_append.2 ?_
    rcases ha with ⟨-, ha⟩ | ⟨-, ha⟩ <;> rw [ha] at hg
    · exact .inl (h.owned g hg)
    · rcases List.mem_append.1 hg with hg | hg
      · exact .inl (h.owned g hg)
      · rw [List.mem_singleton.1 hg, ha]
        exact .inr (List.mem_singleton_self _)
  case found =>
    intro q hq
    rcases List.mem_append.1 hq with hq | hq
    · -- What was found earlier is of another key.
      have hqk : q.1 ≠ k := fun heq => hk (heq ▸ List.mem_map_of_mem hq)
      obtain ⟨es₁, es₂, d', rfl, hrun', hfound⟩ := h.found q hq
      refine ⟨es₁, es₂ ++ [.own (.advance i)], d', by simp, hrun', ?_⟩
      rwa [howned q hqk]
    · obtain rfl := List.mem_singleton.1 hq
      refine ⟨es, [], d, rfl, hrun, ?_⟩
      rcases ha with ⟨hjoined, ha⟩ | ⟨hfree, ha⟩
      · refine .inl ⟨hjoined, ?_⟩
        rw [ha]
        exact hnone _
      · refine .inr ⟨hfree, ?_⟩
        rw [ha]
        exact List.mem_append.2 (.inr (List.mem_singleton_self _))

end Registering

/-! ## A read and what comes of it -/

/-- A run with a read in it: the run before the read begins, the run while it registers its keys,
and the run after its resolver is started, or after it is found that none is needed. In between the
caller is `c`. -/
structure Reading (r : Read κ) (before mid after : List (Event κ ν)) (d₀ d₁ d₂ : Delegate κ ν)
    (c : Caller κ) : Prop where
  before : run? {} before = some d₀
  mid : d₀.run? (.own (.call r) :: mid) = some d₁
  caller : d₁.callers[d₀.next]? = some c
  waiting : c.waiting = false
  todo : c.todo = []
  after : d₁.run? (.own (.advance d₀.next) :: after) = some d₂

namespace Reading

variable {r : Read κ} {before mid after : List (Event κ ν)} {d₀ d₁ d₂ : Delegate κ ν}
  {c : Caller κ}

/-- The read, from its beginning on, is a part of one run. -/
theorem run_mid (h : Reading r before mid after d₀ d₁ d₂ c) :
    run? {} (before ++ .own (.call r) :: mid) = some d₁ := by
  rw [run?_append, h.before]
  exact h.mid

theorem inv_mid [LawfulBEq κ] (h : Reading r before mid after d₀ d₁ d₂ c) : d₁.Inv :=
  inv_of_run? h.run_mid

/-- The run goes on where the resolver was started. -/
theorem run_after (h : Reading r before mid after d₀ d₁ d₂ c) :
    (d₁.startResolver d₀.next c).run? after = some d₂ := by
  have hrun := h.after
  simpa [run?, after?, step?, stepCaller?, h.caller, h.waiting, advance, h.todo] using hrun

theorem start (h : Reading r before mid after d₀ d₁ d₂ c) :
    Moves d₁ (.advance d₀.next) (d₁.startResolver d₀.next c) :=
  .startResolver d₀.next c h.caller h.waiting h.todo

theorem inv_after [LawfulBEq κ] (h : Reading r before mid after d₀ d₁ d₂ c) : d₂.Inv := by
  have hrun : run? {} ((before ++ .own (.call r) :: mid) ++ .own (.advance d₀.next) :: after) =
      some d₂ := by
    rw [run?_append, h.run_mid]
    exact h.after
  exact inv_of_run? hrun

/-- The read may be looked at before the run has come to its end; what is completed then stays as
it is. -/
theorem outcome?_of_isPrefix [LawfulBEq κ] (h : Reading r before mid after d₀ d₁ d₂ c)
    {es : List (Event κ ν)} {d : Delegate κ ν} (hes : es <+: after)
    (hrun : d₁.run? (.own (.advance d₀.next) :: es) = some d) {p : Nat} {o : Outcome (Option ν)}
    (hp : d.flights.outcome? p = some o) : d₂.flights.outcome? p = some o := by
  obtain ⟨rest, rfl⟩ := hes
  have hafter := h.after
  rw [← List.cons_append, run?_append, hrun] at hafter
  exact outcome?_of_run? (inv_after { h with after := hrun }) hafter hp

/-- What the read has registered is each of its keys, once. -/
theorem registering [LawfulBEq κ] (h : Reading r before mid after d₀ d₁ d₂ c) :
    Registering (d₀.call r) d₀.next r mid c := by
  have hmid : (d₀.call r).run? mid = some d₁ := h.mid
  -- By the events since the call, as long as the caller has not started its resolver.
  refine (run?_induction (P := fun es d => d₀.next < d.next ∧ ∀ c', d.callers[d₀.next]? = some c' →
    c'.waiting = false → Registering (d₀.call r) d₀.next r es c') ⟨Nat.lt_succ_self _, ?_⟩ ?_
    hmid).2 c h.caller h.waiting
  · intro c' hc' _
    simp only [Delegate.call, get_insert, if_pos] at hc'
    exact Option.some.inj hc' ▸ .ofRead _ _ r
  · rintro es e d d' hrun ⟨hlt, hreg⟩ he
    cases e with
    | handOn =>
      obtain rfl := Option.some.inj he
      exact ⟨hlt, fun c' hc' hw => (hreg c' hc' hw).mono _⟩
    | own s =>
      have hm := moves_of_step? he
      refine ⟨Nat.lt_of_lt_of_le hlt hm.next_le, fun c' hc' hw => ?_⟩
      rcases hm.caller hlt with heq | ⟨c₁, k, todo, rfl, hc₁, hw₁, ht, rfl⟩ | ⟨c₁, -, -, -, heq⟩ |
        hnone
      · exact (hreg c' (heq ▸ hc') hw).mono _
      · -- The caller has registered its next key, or has passed it over.
        have hbefore := hreg c₁ hc₁ hw₁
        rcases d.register_cases d₀.next c₁ k todo with ⟨hseen, hcallers, -⟩ |
            ⟨hnew, a, hcallers, -, ha⟩ <;>
          rw [hcallers, get_insert, if_pos rfl] at hc' <;> obtain rfl := Option.some.inj hc'
        · exact (hbefore.passOver ht hseen).mono _
        · exact hbefore.registered hrun ht hnew ha
      · rw [heq] at hc'
        obtain rfl := Option.some.inj hc'
        exact absurd hw.symm Bool.false_ne_true
      · rw [hnone] at hc'
        cases hc'

/-- The caller is older than its resolver. -/
theorem caller_lt [LawfulBEq κ] (h : Reading r before mid after d₀ d₁ d₂ c) : d₀.next < d₁.next :=
  h.inv_mid.caller_lt h.caller

/-- After its resolver is started, the caller waits as long as it is there. -/
theorem waiter [LawfulBEq κ] (h : Reading r before mid after d₀ d₁ d₂ c) {c' : Caller κ}
    (hc' : d₂.callers[d₀.next]? = some c') : c' = { c with owned := [], waiting := true } := by
  refine (run?_inv (P := fun _ d => d₀.next < d.next ∧ ∀ c', d.callers[d₀.next]? = some c' →
    c' = { c with owned := [], waiting := true }) ?_ []
    ⟨Nat.lt_of_lt_of_le h.caller_lt h.start.next_le, ?_⟩ h.run_after).2 c' hc'
  · rintro - d s d' ⟨hlt, hwaits⟩ hm
    refine ⟨Nat.lt_of_lt_of_le hlt hm.next_le, fun c' hc' => ?_⟩
    rcases hm.caller hlt with heq | ⟨c₁, -, -, -, hc₁, hw₁, -⟩ | ⟨c₁, -, hc₁, hw₁, -⟩ | hnone
    · exact hwaits c' (heq ▸ hc')
    · rw [hwaits c₁ hc₁] at hw₁
      exact nomatch hw₁
    · rw [hwaits c₁ hc₁] at hw₁
      exact nomatch hw₁
    · rw [hnone] at hc'
      exact nomatch hc'
  · intro c' hc'
    simp only [Delegate.startResolver] at hc'
    split at hc' <;> rw [get_insert, if_pos rfl] at hc' <;> exact (Option.some.inj hc').symm

/-- Until its resolver is started, the caller holds the guards of the flights that it has begun. -/
theorem held_eq (h : Reading r before mid after d₀ d₁ d₂ c) :
    d₁.held (.caller d₀.next) = c.owned := by
  simp [held, h.caller]

/-- The promises of the flights that the read has begun are different. -/
theorem nodup_promises [LawfulBEq κ] (h : Reading r before mid after d₀ d₁ d₂ c) :
    (c.owned.map Guard.promise).Nodup := by
  have hnd := h.inv_mid.guarded.nodup (.caller d₀.next)
  rw [h.held_eq] at hnd
  refine List.pairwise_map.2 (hnd.imp_of_mem ?_)
  intro g g' hg hg' hne hp
  exact hne (h.inv_mid.guarded.eq_of_promise (h.held_eq ▸ hg) (h.held_eq ▸ hg') hp)

/-- The keys of the flights that the read has begun are different. -/
theorem nodup_keys [LawfulBEq κ] (h : Reading r before mid after d₀ d₁ d₂ c) :
    (c.owned.map Guard.key).Nodup := by
  rw [← h.held_eq]
  exact h.inv_mid.guarded.nodup_keys (.refl _)

/-- The resolver of the read follows its talk, which begins with its first question. -/
theorem course [LawfulBEq κ] (h : Reading r before mid after d₀ d₁ d₂ c) {q₀ : Question κ ν}
    (hq₀ : c.resolver? = some (.asking [] q₀)) (hguards : q₀.guards = c.owned) :
    ∃ done r', Course d₂ d₁.next q₀ (d₁.talk d₁.next (.own (.advance d₀.next) :: after)) done
      r' := by
  have hnext : (d₁.startResolver d₀.next c).next = d₁.next + 1 := by
    simp only [Delegate.startResolver, hq₀]
  -- The first question stands in the resolver from its start on, and its promises are new.
  have hcourse : Course (d₁.startResolver d₀.next c) d₁.next q₀ [] [] (.asking [] q₀) := by
    constructor
    case talk => exact .start
    case resolver =>
      simp only [Delegate.startResolver, hq₀, get_insert, if_pos]
      rfl
    case outcome? =>
      intro g hg
      have hnone := pristine_of_run? h.run_mid d₀.next g (h.held_eq ▸ hguards ▸ hg)
      simp only [Delegate.startResolver, hq₀]
      exact hnone
    case held =>
      intro g hg
      refine .inl ?_
      rw [Resolver.guards_eq]
      exact hg
  have htalk : d₁.talk d₁.next (.own (.advance d₀.next) :: after) =
      (d₁.startResolver d₀.next c).talk d₁.next after := by
    simp [talk, lineOf?, after?, step?, stepCaller?, h.caller, h.waiting, advance, h.todo]
  rw [htalk]
  exact course_of_run? hcourse (h.inv_mid.moves h.start) (hnext ▸ Nat.lt_succ_self _) h.run_after

end Reading

/-! ## What a caller gets -/

/-- Only a caller that waits gets something. -/
theorem waiting_of_result? {d : Delegate κ ν} {i : Nat} {x : ReadResult κ ν}
    (hx : d.result? i = some x) : ∃ c, d.callers[i]? = some c ∧ c.waiting = true := by
  obtain ⟨c, hc, hx⟩ := Option.bind_eq_some_iff.1 hx
  obtain ⟨batch, -, hx⟩ := Option.bind_eq_some_iff.1 hx
  refine ⟨c, hc, ?_⟩
  cases hw : c.waiting with
  | true => rfl
  | false =>
    rw [hw] at hx
    exact nomatch hx

/-- A caller of one key that waits gets the outcome of its promise. -/
theorem result?_eq_one {d : Delegate κ ν} {i : Nat} {c : Caller κ} {q : κ × Nat}
    (hc : d.callers[i]? = some c) (hw : c.waiting = true) (hsingle : c.single = true)
    (hpending : c.pending = [q]) :
    d.result? i = (d.flights.outcome? q.2).map ReadResult.one := by
  obtain ⟨k, p⟩ := q
  cases ho : d.flights.outcome? p <;>
    simp [result?, hc, hpending, outcomes?, hw, hsingle, ho]

/-- A caller of several keys that waits gets the outcomes of its promises, folded into one. -/
theorem result?_eq_many {d : Delegate κ ν} {i : Nat} {c : Caller κ}
    (hc : d.callers[i]? = some c) (hw : c.waiting = true) (hsingle : c.single = false) :
    d.result? i = (outcomes? d.flights c.pending).map fun batch =>
      .many (gatherPresent false batch) := by
  cases ho : outcomes? d.flights c.pending <;> simp [result?, hc, hw, hsingle, ho]

/-- The outcomes of promises are there if each of them is, and each key has its own. -/
theorem outcomes?_eq_some {f : Flights κ (Option ν)} {pending : List (κ × Nat)}
    {o : κ → Outcome (Option ν)} (h : ∀ q ∈ pending, f.outcome? q.2 = some (o q.1)) :
    outcomes? f pending = some (pending.map fun q => (q.1, o q.1)) := by
  induction pending with
  | nil => rfl
  | cons q pending ih =>
    obtain ⟨k, p⟩ := q
    have hp : f.outcome? p = some (o k) := h _ List.mem_cons_self
    rw [outcomes?, hp, ih fun q hq => h q (List.mem_cons_of_mem _ hq)]
    rfl

/-- Where each key has a promise of its own, the outcomes of the promises are outcomes of the
keys. -/
theorem exists_outcomes [LawfulBEq κ] {f : Flights κ (Option ν)} {pending : List (κ × Nat)}
    (hnodup : (pending.map Prod.fst).Nodup) (h : ∀ q ∈ pending, (f.outcome? q.2).isSome) :
    ∃ o : κ → Outcome (Option ν), ∀ q ∈ pending, f.outcome? q.2 = some (o q.1) := by
  induction pending with
  | nil => exact ⟨fun _ => .ok none, nofun⟩
  | cons q pending ih =>
    rw [List.map_cons, List.nodup_cons] at hnodup
    obtain ⟨o, ho⟩ := ih hnodup.2 fun q' hq' => h q' (List.mem_cons_of_mem _ hq')
    obtain ⟨x, hx⟩ := Option.isSome_iff_exists.1 (h q List.mem_cons_self)
    refine ⟨fun k => if k == q.1 then x else o k, fun q' hq' => ?_⟩
    rcases List.mem_cons.1 hq' with rfl | hq'
    · rw [hx]
      exact congrArg some (if_pos (beq_self_eq_true _)).symm
    · have hne : q'.1 ≠ q.1 := fun heq => hnodup.1 (heq ▸ List.mem_map_of_mem hq')
      rw [ho q' hq']
      exact congrArg some (if_neg (by simpa using hne)).symm

/-- If the outcomes of promises are there, then each of them is. -/
theorem outcome?_of_outcomes? {f : Flights κ (Option ν)} {pending : List (κ × Nat)}
    {batch : List (κ × Outcome (Option ν))} (h : outcomes? f pending = some batch) :
    ∀ q ∈ pending, ∃ o, f.outcome? q.2 = some o ∧ (q.1, o) ∈ batch := by
  induction pending generalizing batch with
  | nil => exact nofun
  | cons q pending ih =>
    obtain ⟨k, p⟩ := q
    obtain ⟨o, ho, hrest⟩ := Option.bind_eq_some_iff.1 h
    obtain ⟨rest, hpending, hbatch⟩ := Option.bind_eq_some_iff.1 hrest
    obtain rfl := Option.some.inj hbatch
    intro q hq
    rcases List.mem_cons.1 hq with rfl | hq
    · exact ⟨o, ho, List.mem_cons_self⟩
    · obtain ⟨o', ho', hmem⟩ := ih hpending q hq
      exact ⟨o', ho', List.mem_cons_of_mem _ hmem⟩

end Delegate

end CacheLayer
