import CacheLayer.Proofs.Loading.Invariant
import Mathlib
/-!
# No leaked flight and no lost waiter

The outcome of a promise is told by the chores that have been done: the first publication counts,
and a promise that was given up without any has the outcome of an abandoned one. Together with the
invariant this says that whoever waits for a promise gets an outcome: a promise has its guard, or it
is completed.

## Key results

- `Delegate.Account.moves`: the account of what was published is kept by every step
- `Delegate.no_lost_waiter`: flights are guards, and promises without a guard are completed
-/

namespace CacheLayer

variable {κ α ν : Type}

/-! ## What was published -/

namespace Chore

/-- What a chore publishes for a promise. -/
def publishes? (p : Nat) : Chore κ α → Option (Outcome α)
  | publish g o => if g.promise = p then some o else none
  | _ => none

/-- What was published first for a promise. -/
def published? (p : Nat) (done : List (Chore κ α)) : Option (Outcome α) :=
  done.findSome? (publishes? p)

/-- A later chore publishes nothing for a promise that was published. -/
theorem published?_concat (p : Nat) (done : List (Chore κ α)) (c : Chore κ α) :
    published? p (done ++ [c]) = (published? p done <|> publishes? p c) := by
  rw [published?, List.findSome?_append, List.findSome?_singleton]
  show (published? p done).or _ = _
  cases published? p done <;> rfl

/-- A chore publishes only for the promise of its guard. -/
theorem publishes?_of_ne {p : Nat} {c : Chore κ α} (h : c.guard.promise ≠ p) :
    publishes? p c = none := by
  cases c with
  | publish g o => exact if_neg h
  | abandon g => rfl
  | remove g => rfl

/-- Other chores tell nothing of a promise. -/
theorem published?_concat_of_none {p : Nat} {c : Chore κ α} (h : publishes? p c = none)
    (done : List (Chore κ α)) : published? p (done ++ [c]) = published? p done := by
  rw [published?_concat, h]
  cases published? p done <;> rfl

/-- Nothing was published for a promise that no chore is about. -/
theorem published?_eq_none {p : Nat} {done : List (Chore κ α)}
    (h : ∀ c ∈ done, c.guard.promise ≠ p) : published? p done = none :=
  List.findSome?_eq_none_iff.2 fun c hc => publishes?_of_ne (h c hc)

end Chore

namespace Delegate

variable [BEq κ] [Hashable κ]

/-! ## What a step does to flights and resolvers -/

/-- A chore is about a guard that its resolver holds. -/
theorem Inv.guard_mem_held {d : Delegate κ ν} (h : d.Inv) {i : Nat} {c : Chore κ (Option ν)}
    {rest : Resolver κ ν} (hr : d.resolvers[i]? = some { rest with chores := c :: rest.chores }) :
    c.guard ∈ d.held (.resolver i) := by
  have hheld : d.held (.resolver i) = Chore.removals (c :: rest.chores) ++ rest.later := by
    simp only [held, hr, Option.map_some, Option.getD_some]
    exact Resolver.guards_eq _
  rw [hheld]
  exact Chore.Ready.guard_mem (f := d.flights) (h.resolver hr).tidy

/-- A step leaves the flights alone, or starts a flight for a key that is in none, or does a
chore. -/
theorem Moves.flights {d d' : Delegate κ ν} {s : Step κ ν} (hm : Moves d s d') :
    (d'.flights = d.flights ∧ d.choreOf? (.own s) = none) ∨
    (∃ k, d.flights.registry[k]? = none ∧ d.choreOf? (.own s) = none ∧
      d'.flights = ⟨d.flights.registry.insert k d.flights.promises.size,
        d.flights.promises.push none⟩) ∨
    ∃ i c rest, d.resolvers[i]? = some { rest with chores := c :: rest.chores } ∧
      s = .chore i ∧ d' = d.chore i c rest := by
  cases hm with
  | call r => exact .inl ⟨rfl, rfl⟩
  | register i c k todo hc hw ht =>
    simp only [Delegate.register]
    split
    · exact .inl ⟨rfl, rfl⟩
    · -- Only someone who wants a key that is in no flight makes a promise.
      cases hk : d.flights.registry[k]? with
      | some p =>
        rw [Flights.register_joined hk]
        exact .inl ⟨rfl, rfl⟩
      | none =>
        rw [Flights.register_owned hk]
        exact .inr (.inl ⟨k, hk, rfl, rfl⟩)
  | startResolver i c hc hw ht =>
    simp only [Delegate.startResolver]
    split
    · exact .inl ⟨rfl, rfl⟩
    · exact .inl ⟨rfl, rfl⟩
  | leave i c hc hw => exact .inl ⟨rfl, rfl⟩
  | chore i c rest hr => exact .inr (.inr ⟨i, c, rest, hr, rfl, rfl⟩)
  | ask i q hr => exact .inl ⟨rfl, rfl⟩
  | reply i q answer r hr hresume => exact .inl ⟨rfl, rfl⟩
  | tear i q asked hr => exact .inl ⟨rfl, rfl⟩

/-- A resolver that has chores to do only goes on with these. -/
theorem Moves.resolver_of_chores {d d' : Delegate κ ν} {s : Step κ ν} (hm : Moves d s d')
    (h : d.Inv) {j : Nat} {r : Resolver κ ν} (hj : d.resolvers[j]? = some r) (hne : r.chores ≠ [])
    (hs : s ≠ .chore j) : d'.resolvers[j]? = some r := by
  -- No resolver without chores has the number of this one.
  have idle : ∀ {i : Nat} {q : Question κ ν} {asked : Bool},
      d.resolvers[i]? = some ⟨[], some q, asked⟩ → j ≠ i := by
    intro i q asked hi heq
    rw [← heq, hj] at hi
    exact hne (congrArg Resolver.chores (Option.some.inj hi))
  cases hm with
  | call r => exact hj
  | register i c k todo hc hw ht =>
    simp only [Delegate.register]
    split
    · exact hj
    · exact hj
  | startResolver i c hc hw ht =>
    simp only [Delegate.startResolver]
    split
    · exact hj
    · -- The new resolver has a number of its own.
      have hlt := h.resolver_lt hj
      rw [get_insert, if_neg (by omega)]
      exact hj
  | leave i c hc hw => exact hj
  | chore i c rest hr =>
    have hji : j ≠ i := by
      intro heq
      exact hs (congrArg Step.chore heq.symm)
    simp only [Delegate.chore, get_putResolver, if_neg hji]
    exact hj
  | ask i q hr =>
    simp only [Delegate.ask, get_insert, if_neg (idle hr)]
    exact hj
  | reply i q answer r hr hresume =>
    simp only [Delegate.reply, get_putResolver, if_neg (idle hr)]
    exact hj
  | tear i q asked hr =>
    simp only [Delegate.tear, get_putResolver, if_neg (idle hr)]
    exact hj

/-! ## The account -/

/-- A guard whose entry is removed in the next step of its resolver. -/
def Leaving (d : Delegate κ ν) (g : Guard κ) : Prop :=
  ∃ (i : Nat) (rest : Resolver κ ν),
    d.resolvers[i]? = some { rest with chores := .remove g :: rest.chores }

/-- It is left like this until its entry is removed. -/
theorem Moves.leaving {d d' : Delegate κ ν} {s : Step κ ν} (hm : Moves d s d') (h : d.Inv)
    {g : Guard κ} (hg : d.Leaving g) (hs : d.choreOf? (.own s) ≠ some (.remove g)) :
    d'.Leaving g := by
  obtain ⟨i, rest, hr⟩ := hg
  refine ⟨i, rest, hm.resolver_of_chores h hr (List.cons_ne_nil _ _) ?_⟩
  intro hchore
  subst hchore
  apply hs
  simp [choreOf?, hr]

/-- The outcomes of the promises, as told by the chores that have been done. A promise without
publication is given up only when its guard is about to go. -/
structure Account (done : List (Chore κ (Option ν))) (d : Delegate κ ν) : Prop where
  inv : d.Inv
  made : ∀ c ∈ done, c.guard.promise < d.flights.promises.size
  told : ∀ {p : Nat} {o : Outcome (Option ν)}, d.flights.outcome? p = some o →
    (Chore.published? p done).getD (.error Flights.abandoned) = o
  pending : ∀ {h : Holder} {g : Guard κ}, g ∈ d.held h →
    d.flights.outcome? g.promise = Chore.published? g.promise done ∨ d.Leaving g

namespace Account

variable {done : List (Chore κ (Option ν))} {d : Delegate κ ν}

/-- Nothing has been done with a new delegate. -/
protected theorem empty : Account [] ({} : Delegate κ ν) where
  inv := .empty
  made c hc := nomatch hc
  told {p o} h := by simp [Flights.outcome?] at h
  pending {h g} hg := by cases h <;> simp [held] at hg

/-- While the next chore of a resolver is not the removal of an entry, the promises of its guards
have no outcome but what was published. -/
private theorem outcome?_of_chore (h : Account done d) {i : Nat} {c : Chore κ (Option ν)}
    {rest : Resolver κ ν} (hr : d.resolvers[i]? = some { rest with chores := c :: rest.chores })
    (hc : c ≠ .remove c.guard) :
    d.flights.outcome? c.guard.promise = Chore.published? c.guard.promise done := by
  have hheld := h.inv.guard_mem_held hr
  rcases h.pending hheld with houtcome | ⟨j, rest', hj⟩
  · exact houtcome
  · -- A guard has one holder, and a resolver has one next chore.
    have hheld' := h.inv.guard_mem_held (c := .remove c.guard) hj
    obtain rfl := Holder.resolver.inj (h.inv.guarded.disjoint hheld hheld')
    have hchores := congrArg Resolver.chores (Option.some.inj (hr.symm.trans hj))
    exact absurd (List.cons.inj hchores).1 hc

/-- Guards come from before a step unless the step puts them into the registry. -/
private theorem exists_held {d' : Delegate κ ν} (h : Account done d) (h' : d'.Inv) {g : Guard κ}
    {m : Holder} (hg : g ∈ d'.held m)
    (hreg : d'.flights.registry[g.key]? = some g.promise →
      d.flights.registry[g.key]? = some g.promise) : ∃ m, g ∈ d.held m :=
  (h.inv.guarded.registered _ _).1 (hreg (h'.guarded.registry_of_mem hg))

/-- A chore that completes a promise keeps the account if the outcome is the one that it tells. -/
private theorem complete [LawfulBEq κ] (h : Account done d) {i : Nat} {c : Chore κ (Option ν)}
    {rest : Resolver κ ν} (hr : d.resolvers[i]? = some { rest with chores := c :: rest.chores })
    {g : Guard κ} (hg : c.guard = g) {o : Outcome (Option ν)}
    (hrun : c.run d.flights = d.flights.complete g.promise o)
    (htold : (d.flights.outcome? g.promise <|> some o) =
      some ((Chore.published? g.promise (done ++ [c])).getD (.error Flights.abandoned)))
    (hpending : (d.flights.outcome? g.promise <|> some o) =
      Chore.published? g.promise (done ++ [c]) ∨ (d.chore i c rest).Leaving g) :
    Account (done ++ [c]) (d.chore i c rest) := by
  subst hg
  have hm : Moves d (.chore i) (d.chore i c rest) := .chore i c rest hr
  have hflights : (d.chore i c rest).flights = d.flights.complete c.guard.promise o := hrun
  have hheld := h.inv.guard_mem_held hr
  have hlt := h.inv.guarded.promise_lt_of_mem hheld
  have houtcome := fun p => Flights.complete_outcome? d.flights p o hlt
  have hother : ∀ p, p ≠ c.guard.promise →
      Chore.published? p (done ++ [c]) = Chore.published? p done := by
    intro p hp
    exact Chore.published?_concat_of_none (Chore.publishes?_of_ne (Ne.symm hp)) done
  -- Nothing is said anew of other promises; of this one the premises say what is told.
  constructor
  case inv => exact h.inv.moves hm
  case made =>
    intro c' hc'
    rw [hflights, Flights.complete_promises_size]
    rcases List.mem_append.1 hc' with hc' | hc'
    · exact h.made c' hc'
    · exact List.mem_singleton.1 hc' ▸ hlt
  case told =>
    intro p o' hp
    rw [hflights, houtcome] at hp
    split at hp
    · next hpc =>
      subst hpc
      exact Option.some.inj (htold.symm.trans hp)
    · next hpc =>
      rw [hother p hpc]
      exact h.told hp
  case pending =>
    intro m g hg
    obtain ⟨m', hm'⟩ := h.exists_held (h.inv.moves hm) hg (by rw [hflights]; exact id)
    rw [hflights, houtcome]
    split
    · next hpc =>
      rw [h.inv.guarded.eq_of_promise hm' hheld hpc]
      exact hpending
    · next hpc =>
      rw [hother _ hpc]
      refine (h.pending hm').imp_right fun hl => hm.leaving h.inv hl ?_
      simp only [choreOf?, hr, Option.bind_some, List.head?_cons, ne_eq, Option.some.injEq]
      intro heq
      rw [heq] at hpc
      exact hpc rfl

private theorem publish [LawfulBEq κ] (h : Account done d) {i : Nat} {g : Guard κ}
    {o : Outcome (Option ν)} {rest : Resolver κ ν}
    (hr : d.resolvers[i]? = some { rest with chores := .publish g o :: rest.chores }) :
    Account (done ++ [.publish g o]) (d.chore i (.publish g o) rest) := by
  -- The first publication counts, both for the promise and for the account.
  have hsame : (d.flights.outcome? g.promise <|> some o) =
      Chore.published? g.promise (done ++ [.publish g o]) := by
    rw [Chore.published?_concat, Chore.publishes?, if_pos rfl]
    exact congrArg (· <|> some o) (h.outcome?_of_chore hr nofun)
  refine h.complete hr (g := g) rfl rfl ?_ (.inl hsame)
  rw [← hsame]
  cases d.flights.outcome? g.promise <;> rfl

private theorem abandon [LawfulBEq κ] (h : Account done d) {i : Nat} {g : Guard κ}
    {rest : Resolver κ ν}
    (hr : d.resolvers[i]? = some { rest with chores := .abandon g :: rest.chores }) :
    Account (done ++ [.abandon g]) (d.chore i (.abandon g) rest) := by
  refine h.complete hr (g := g) rfl rfl ?_ (.inr ?_)
  · -- The promise is abandoned only if nothing was published for it before.
    have hdone : d.flights.outcome? g.promise = Chore.published? g.promise done :=
      h.outcome?_of_chore hr nofun
    rw [Chore.published?_concat_of_none rfl, ← hdone]
    cases d.flights.outcome? g.promise <;> rfl
  · -- Giving a promise up and removing its entry are one chore after the other.
    obtain ⟨chores, question?, asked⟩ := rest
    rcases (h.inv.resolver hr).tidy with htidy | ⟨g', cs, hcs, -, -⟩
    · cases htidy with
      | @drop _ cs htidy =>
        refine ⟨i, ⟨cs, question?, asked⟩, ?_⟩
        simp [Delegate.chore, get_putResolver, Resolver.isOver]
    · cases hcs

private theorem remove [LawfulBEq κ] (h : Account done d) {i : Nat} {g : Guard κ}
    {rest : Resolver κ ν}
    (hr : d.resolvers[i]? = some { rest with chores := .remove g :: rest.chores }) :
    Account (done ++ [.remove g]) (d.chore i (.remove g) rest) := by
  have hm : Moves d (.chore i) (d.chore i (.remove g) rest) := .chore i _ rest hr
  have hflights : (d.chore i (.remove g) rest).flights = d.flights.remove g := rfl
  have hlt := h.inv.guarded.promise_lt_of_mem (h.inv.guard_mem_held hr)
  have hpublished : ∀ p, Chore.published? p (done ++ [.remove g]) = Chore.published? p done := by
    intro p
    exact Chore.published?_concat_of_none rfl done
  constructor
  case inv => exact h.inv.moves hm
  case made =>
    intro c hc
    rw [hflights, Flights.remove_promises]
    rcases List.mem_append.1 hc with hc | hc
    · exact h.made c hc
    · exact List.mem_singleton.1 hc ▸ hlt
  case told =>
    intro p o hp
    rw [hflights, Flights.remove_outcome?] at hp
    rw [hpublished]
    exact h.told hp
  case pending =>
    intro m g' hg'
    -- A guard that is still held is not the one that has gone.
    have hreg := (h.inv.moves hm).guarded.registry_of_mem hg'
    rw [hflights, Flights.remove_registry_eq_some_iff] at hreg
    obtain ⟨m', hm'⟩ := (h.inv.guarded.registered _ _).1 hreg.1
    rw [hflights, Flights.remove_outcome?, hpublished]
    refine (h.pending hm').imp_right fun hl => hm.leaving h.inv hl ?_
    simp only [choreOf?, hr, Option.bind_some, List.head?_cons, ne_eq, Option.some.injEq,
      Chore.remove.injEq]
    exact fun hgg => hreg.2 hgg.symm

/-- The account is kept by every step. -/
theorem moves [LawfulBEq κ] {d' : Delegate κ ν} {s : Step κ ν} (h : Account done d)
    (hm : Moves d s d') : Account (done ++ (d.choreOf? (.own s)).toList) d' := by
  -- Flights are left alone, or one is begun, or a chore is done; only chores tell anything.
  rcases hm.flights with ⟨hflights, hchore⟩ | ⟨k, hk, hchore, hflights⟩ | ⟨i, c, rest, hr, rfl, rfl⟩
  · rw [hchore, Option.toList_none, List.append_nil]
    refine ⟨h.inv.moves hm, hflights ▸ h.made, hflights ▸ h.told, ?_⟩
    intro m g hg
    obtain ⟨m', hm'⟩ := h.exists_held (h.inv.moves hm) hg (by rw [hflights]; exact id)
    rw [hflights]
    exact (h.pending hm').imp_right fun hl => hm.leaving h.inv hl (by simp [hchore])
  · rw [hchore, Option.toList_none, List.append_nil]
    constructor
    case inv => exact h.inv.moves hm
    case made =>
      intro c hc
      rw [hflights, Array.size_push]
      exact Nat.lt_succ_of_lt (h.made c hc)
    case told =>
      intro p o hp
      rw [hflights, Flights.outcome?_push] at hp
      exact h.told hp
    case pending =>
      intro m g hg
      have hreg := (h.inv.moves hm).guarded.registry_of_mem hg
      rw [hflights, Std.HashMap.getElem?_insert] at hreg
      rw [hflights, Flights.outcome?_push]
      split at hreg
      · -- The promise is new, so that no chore has been about it.
        obtain hnew := Option.some.inj hreg
        rw [← hnew, Chore.published?_eq_none fun c hc => Nat.ne_of_lt (h.made c hc)]
        apply Or.inl
        simp [Flights.outcome?]
      · obtain ⟨m', hm'⟩ := (h.inv.guarded.registered _ _).1 hreg
        exact (h.pending hm').imp_right fun hl => hm.leaving h.inv hl (by simp [hchore])
  · have hchore : d.choreOf? (.own (.chore i)) = some c := by simp [choreOf?, hr]
    rw [hchore, Option.toList_some]
    cases c with
    | publish g o => exact h.publish hr
    | abandon g => exact h.abandon hr
    | remove g => exact h.remove hr

end Account

/-- The account holds after every run. -/
theorem account_of_run? [LawfulBEq κ] {d : Delegate κ ν} {es : List (Event κ ν)}
    (h : run? {} es = some d) : Account (choresOf {} es) d :=
  run?_inv (P := Account) (fun _ _ _ _ hd hm => hd.moves hm) [] .empty h

/-! ## Waiters -/

/-- No resolver runs, and no read is about to start one for the flights it has begun. A read waits
for nothing between the two, so that it is about to start one only while it takes its own steps. -/
structure Quiet (d : Delegate κ ν) : Prop where
  no_resolver : ∀ i : Nat, d.resolvers[i]? = none
  no_start : ∀ (i : Nat) (c : Caller κ), d.callers[i]? = some c → c.waiting = false → c.owned = []

/-- Without resolvers, all flights have been begun by reads that are about to start one. -/
private theorem Inv.exists_caller {d : Delegate κ ν} (h : d.Inv)
    (hnone : ∀ i : Nat, d.resolvers[i]? = none) {k : κ} {p : Nat}
    (hp : d.flights.registry[k]? = some p) :
    ∃ (i : Nat) (c : Caller κ), d.callers[i]? = some c ∧ c.waiting = false ∧ ⟨k, p⟩ ∈ c.owned := by
  obtain ⟨m, hm⟩ := (h.guarded.registered k p).1 hp
  cases m with
  | resolver i =>
    rw [held, hnone i] at hm
    cases hm
  | caller i =>
    cases hc : d.callers[i]? with
    | none =>
      rw [held, hc] at hm
      cases hm
    | some c =>
      rw [held, hc] at hm
      refine ⟨i, c, hc, ?_, hm⟩
      -- A read that waits has handed its guards over.
      cases hw : c.waiting with
      | false => rfl
      | true =>
        rw [Option.map_some, Option.getD_some, (h.caller hc).owned_eq_nil hw] at hm
        cases hm

/-- In a quiet delegate nobody holds guards. -/
private theorem Inv.held_eq_nil {d : Delegate κ ν} (h : d.Inv) (hquiet : d.Quiet) (m : Holder) :
    d.held m = [] := by
  cases m with
  | resolver i => simp [held, hquiet.no_resolver i]
  | caller i =>
    cases hc : d.callers[i]? with
    | none => simp [held, hc]
    | some c =>
      simp only [held, hc, Option.map_some, Option.getD_some]
      cases hw : c.waiting with
      | true => exact (h.caller hc).owned_eq_nil hw
      | false => exact hquiet.no_start i c hc hw

/-- A batch is there if all its promises have outcomes. -/
private theorem outcomes?_of_settled {f : Flights κ (Option ν)} {pending : List (κ × Nat)}
    (h : ∀ q ∈ pending, (f.outcome? q.2).isSome) :
    ∃ batch, outcomes? f pending = some batch ∧ batch.length = pending.length := by
  induction pending with
  | nil => exact ⟨[], rfl, rfl⟩
  | cons q pending ih =>
    obtain ⟨k, p⟩ := q
    obtain ⟨o, ho⟩ := Option.isSome_iff_exists.1 (h _ List.mem_cons_self)
    obtain ⟨batch, hbatch, hlen⟩ := ih fun q hq => h q (List.mem_cons_of_mem _ hq)
    refine ⟨(k, o) :: batch, ?_, congrArg (· + 1) hlen⟩
    simp only at ho
    simp [outcomes?, ho, hbatch]

/-- A caller that waits for promises with outcomes gets its result. -/
private theorem Inv.result?_isSome {d : Delegate κ ν} (h : d.Inv) {i : Nat} {c : Caller κ}
    (hc : d.callers[i]? = some c) (hw : c.waiting = true)
    (hpending : ∀ q ∈ c.pending, (d.flights.outcome? q.2).isSome) : (d.result? i).isSome := by
  obtain ⟨batch, hbatch, hlen⟩ := outcomes?_of_settled hpending
  have hs := h.caller hc
  cases hsingle : c.single with
  | false => simp [result?, hc, hbatch, hw, hsingle]
  | true =>
    -- The read of one key waits for one promise.
    have hone := (hs.single hsingle).1
    rw [hs.todo_eq_nil hw, List.length_nil] at hone
    obtain ⟨q, rfl⟩ := List.length_eq_one_iff.1 (show batch.length = 1 by omega)
    simp [result?, hc, hbatch, hw, hsingle]

/-- Dropping a guard never removes an entry with another promise. -/
private theorem registry_drop [LawfulBEq κ] {f : Flights κ (Option ν)} {g : Guard κ} {k : κ}
    {p : Nat} (hp : f.registry[k]? = some p) (hne : p ≠ g.promise) :
    ((Chore.drop g).foldl Chore.run f).registry[k]? = some p := by
  show ((f.complete g.promise (.error Flights.abandoned)).remove g).registry[k]? = some p
  exact Flights.remove_registry_of_ne (by rwa [Flights.complete_registry]) hne

/-- In every run, the keys in flight are those of the guards that are held, each of them by one
holder and with a promise of its own. A promise whose guard is gone has an outcome: what was first
published for it, or that it was abandoned. So when no resolver runs, the only keys in flight are
those that a read has just registered and is about to start a resolver for; without such a read
nothing is in flight, and whoever waits gets a result. Dropping a guard leaves the flights of other
promises alone. -/
theorem no_lost_waiter [LawfulBEq κ] {d : Delegate κ ν} {es : List (Event κ ν)}
    (hrun : run? {} es = some d) :
    ((∀ (k : κ) (p : Nat), d.flights.registry[k]? = some p ↔ ∃ m, ⟨k, p⟩ ∈ d.held m) ∧
      (∀ m, (d.held m).Nodup) ∧
      (∀ (m m' : Holder) (g : Guard κ), g ∈ d.held m → g ∈ d.held m' → m = m') ∧
      ∀ (m m' : Holder) (g g' : Guard κ), g ∈ d.held m → g' ∈ d.held m' →
        g.promise = g'.promise → g = g') ∧
    (∀ p < d.flights.promises.size, (∀ m, ∀ g ∈ d.held m, g.promise ≠ p) →
      d.flights.outcome? p =
        some ((Chore.published? p (choresOf {} es)).getD (.error Flights.abandoned))) ∧
    ((∀ i : Nat, d.resolvers[i]? = none) → ∀ (k : κ) (p : Nat), d.flights.registry[k]? = some p →
      ∃ (i : Nat) (c : Caller κ), d.callers[i]? = some c ∧ c.waiting = false ∧ ⟨k, p⟩ ∈ c.owned) ∧
    (d.Quiet → d.inFlight = 0 ∧
      (∀ p < d.flights.promises.size, (d.flights.outcome? p).isSome) ∧
      ∀ (i : Nat) (c : Caller κ), d.callers[i]? = some c →
        (∀ q ∈ c.pending, (d.flights.outcome? q.2).isSome) ∧
        (c.waiting = true → (d.result? i).isSome)) ∧
    ∀ (g : Guard κ) (k : κ) (p : Nat), d.flights.registry[k]? = some p → p ≠ g.promise →
      ((Chore.drop g).foldl Chore.run d.flights).registry[k]? = some p := by
  have haccount := account_of_run? hrun
  have h := haccount.inv
  refine ⟨⟨h.guarded.registered, h.guarded.nodup, fun _ _ _ => h.guarded.disjoint,
    fun _ _ _ _ => h.guarded.eq_of_promise⟩, ?_, fun hnone _ _ => h.exists_caller hnone, ?_,
    fun _ _ _ => registry_drop⟩
  · intro p hp hnone
    -- A promise without a guard is completed, and the account says with what.
    obtain ⟨o, ho⟩ := Option.isSome_iff_exists.1 (h.guarded.settled_of_no_guard hp hnone)
    rw [ho, haccount.told ho]
  · intro hquiet
    -- Guards are held by resolvers and by callers that have not started theirs, and there are none
    -- of either.
    have hnil := h.held_eq_nil hquiet
    have hsettled : ∀ p < d.flights.promises.size, (d.flights.outcome? p).isSome := by
      intro p hp
      apply h.guarded.settled_of_no_guard hp
      intro m g hg
      rw [hnil m] at hg
      exact nomatch hg
    refine ⟨h.guarded.size_eq_zero hnil, hsettled, ?_⟩
    intro i c hc
    have hpending : ∀ q ∈ c.pending, (d.flights.outcome? q.2).isSome :=
      fun q hq => hsettled q.2 ((h.caller hc).pending_lt q hq)
    exact ⟨hpending, fun hw => h.result?_isSome hc hw hpending⟩

/-- Two reads of one key each; the resolver of the first one is torn down before it has asked the
cache, and that of the second one finds its key there. -/
def tornAndFound : List (Event Nat Nat) :=
  [.own (.call (.one 1)), .own (.advance 0), .own (.advance 0), .own (.call (.one 2)),
    .own (.advance 2), .own (.advance 2), .own (.tear 1), .own (.ask 3), .own (.chore 1),
    .own (.reply 3 (.read (.ok (some 20)))), .own (.chore 1), .own (.chore 3), .own (.chore 3),
    .own (.chore 3)]

/-- Both callers get a result: the first one that its load was abandoned, the second one 20. -/
theorem no_lost_waiter_tornAndFound : ∃ d : Delegate Nat Nat, run? {} tornAndFound = some d ∧
    d.inFlight = 0 ∧ d.flights.outcome? 0 = some (.error Flights.abandoned) ∧
    d.flights.outcome? 1 = some (.ok (some 20)) ∧ (d.result? 0).isSome ∧ (d.result? 2).isSome := by
  have hview : ((run? {} tornAndFound).map fun d =>
      (d.next, d.flights.promises.size, d.callers[0]?.isSome, d.callers[2]?.isSome,
        (List.range 4).all fun i => d.resolvers[i]?.isNone && d.callers[i]?.all Caller.waiting)) =
      some (4, 2, true, true, true) := by cbv
  have htold : (Chore.published? 0 (choresOf {} tornAndFound)).getD (.error Flights.abandoned) =
      .error Flights.abandoned := by cbv
  have htold' : (Chore.published? 1 (choresOf {} tornAndFound)).getD (.error Flights.abandoned) =
      .ok (some 20) := by cbv
  obtain ⟨d, hd, hview⟩ := Option.map_eq_some_iff.1 hview
  simp only [Prod.mk.injEq, Option.isSome_iff_exists, List.all_eq_true, List.mem_range,
    Bool.and_eq_true, Option.isNone_iff_eq_none] at hview
  obtain ⟨hnext, hsize, ⟨c₀, hc₀⟩, ⟨c₂, hc₂⟩, hidle⟩ := hview
  -- All callers wait and no resolver is left, so that the run has come to an end.
  have h := inv_of_run? hd
  have hwaiting : ∀ (i : Nat) (c : Caller Nat), d.callers[i]? = some c → c.waiting = true := by
    intro i c hc
    have hi := (hidle i (hnext ▸ h.caller_lt hc)).2
    rwa [hc] at hi
  have hquiet : d.Quiet := by
    refine ⟨fun i => ?_, fun i c hc hw => ?_⟩
    · cases hr : d.resolvers[i]? with
      | none => rfl
      | some r => exact hr.symm.trans (hidle i (hnext ▸ h.resolver_lt hr)).1
    · rw [hwaiting i c hc] at hw
      cases hw
  obtain ⟨⟨hregistered, -⟩, hsettled, -, hend, -⟩ := no_lost_waiter hd
  obtain ⟨hnone, -, hresult⟩ := hend hquiet
  have hfree : ∀ p m, ∀ g ∈ d.held m, g.promise ≠ p := by
    intro p m g hg _
    have hempty : d.flights.registry.isEmpty = true := by
      rw [Std.HashMap.isEmpty_eq_size_eq_zero]
      exact beq_iff_eq.2 hnone
    have hget := (hregistered g.key g.promise).2 ⟨m, hg⟩
    rw [Std.HashMap.getElem?_of_isEmpty hempty] at hget
    cases hget
  refine ⟨d, hd, hnone, ?_, ?_, (hresult 0 c₀ hc₀).2 (hwaiting 0 c₀ hc₀),
    (hresult 2 c₂ hc₂).2 (hwaiting 2 c₂ hc₂)⟩
  · rw [hsettled 0 (by omega) (hfree 0), htold]
  · rw [hsettled 1 (by omega) (hfree 1), htold']

/-- Two reads of one key, of which the first one has registered it and not started its resolver
yet, and the second one has joined. -/
def registeredAndJoined : List (Event Nat Nat) :=
  [.own (.call (.one 1)), .own (.call (.one 1)), .own (.advance 0), .own (.advance 1)]

/-- No resolver runs, but the key is in flight, and neither the read that began the flight nor the
one that joined it has an outcome. -/
theorem inFlight_without_resolver : ∃ d : Delegate Nat Nat, run? {} registeredAndJoined = some d ∧
    (∀ i : Nat, d.resolvers[i]? = none) ∧ d.inFlight = 1 ∧
    (d.callers[0]?.map fun c => (c.pending, c.owned.length)) = some ([(1, 0)], 1) ∧
    (d.callers[1]?.map fun c => (c.pending, c.owned.length)) = some ([(1, 0)], 0) ∧
    d.flights.outcome? 0 = none := by
  have hview : ((run? {} registeredAndJoined).map fun d =>
      (d.next, (List.range 2).all fun i => d.resolvers[i]?.isNone,
        d.callers[0]?.map fun c => (c.pending, c.owned.length),
        d.callers[1]?.map fun c => (c.pending, c.owned.length),
        (d.flights.outcome? 0).isNone)) =
      some (2, true, some ([(1, 0)], 1), some ([(1, 0)], 0), true) := by cbv
  -- The size of a map does not compute, so that it is told by hand.
  have hsize : (run? {} registeredAndJoined).map inFlight = some 1 := by
    have hone : ((∅ : Std.HashMap Nat Nat).insert 1 0).size = 1 := by
      rw [Std.HashMap.size_insert, if_neg Std.HashMap.not_mem_empty, Std.HashMap.size_empty]
    cbv
    exact congrArg some hone
  obtain ⟨d, hd, hview⟩ := Option.map_eq_some_iff.1 hview
  simp only [Prod.mk.injEq, List.all_eq_true, List.mem_range, Option.isNone_iff_eq_none] at hview
  obtain ⟨hnext, hnone, howner, hjoiner, houtcome⟩ := hview
  rw [hd, Option.map_some, Option.some.injEq] at hsize
  refine ⟨d, hd, fun i => ?_, hsize, howner, hjoiner, houtcome⟩
  cases hr : d.resolvers[i]? with
  | none => rfl
  | some r => exact hr.symm.trans (hnone i (hnext ▸ (inv_of_run? hd).resolver_lt hr))

end Delegate

end CacheLayer
