import CacheLayer.Proofs.Loading.Settled
/-!
# What a resolver says and does

Between its chores a resolver talks to the cache and to the loader. In a run in which many callers
and resolvers take their steps, what one resolver says is its talk. A resolver follows its talk:
what it has done, what it is about to do and what it will ask are told by what was said so far,
whatever happens around it. The promises of its guards are completed by nobody else.

## Key results

- `Delegate.Course.moves`: a resolver follows its talk, with every step of the delegate
- `Delegate.course_of_run?`: it does so in every run
- `Delegate.outcome?_of_run?`: an outcome that is there stays as it is
-/

namespace CacheLayer

variable {κ ν : Type} [BEq κ] [Hashable κ]

/-! ## Talks -/

/-- What can be said between a resolver and the cache or the loader. -/
inductive Line (κ ν : Type) [BEq κ] [Hashable κ] where
  /-- The resolver asks. -/
  | asked (q : Question κ ν)
  /-- It is told a reply. -/
  | told (answer : Reply κ ν)
  /-- It is torn down, so that it will not say any more. -/
  | torn

namespace Resolver

/-- Where a resolver that starts with a question stands after a talk: the script of all chores that
it has done or is about to do, what it asks next, and whether that has been asked. -/
inductive Talk (q₀ : Question κ ν) : List (Line κ ν) → List (Chore κ (Option ν)) →
    Option (Question κ ν) → Bool → Prop where
  | start : Talk q₀ [] [] (some q₀) false
  | ask {said : List (Line κ ν)} {script : List (Chore κ (Option ν))} {q : Question κ ν} :
    Talk q₀ said script (some q) false → Talk q₀ (said ++ [.asked q]) script (some q) true
  | reply {said : List (Line κ ν)} {script : List (Chore κ (Option ν))} {q : Question κ ν}
    {answer : Reply κ ν} {r : Resolver κ ν} : Talk q₀ said script (some q) true →
    resume q answer = some r →
    Talk q₀ (said ++ [.told answer]) (script ++ r.chores) r.question? r.asked
  | tear {said : List (Line κ ν)} {script : List (Chore κ (Option ν))} {q : Question κ ν}
    {asked : Bool} : Talk q₀ said script (some q) asked →
    Talk q₀ (said ++ [.torn]) (script ++ Chore.dropAll q.guards) none false

end Resolver

namespace Delegate

/-- What is said with a resolver in an event. -/
def lineOf? (d : Delegate κ ν) (j : Nat) : Event κ ν → Option (Line κ ν)
  | .own (.ask i) =>
    if i = j then d.resolvers[i]?.bind fun r => r.question?.map Line.asked else none
  | .own (.reply i answer) => if i = j then some (.told answer) else none
  | .own (.tear i) => if i = j then some .torn else none
  | _ => none

@[simp] theorem lineOf?_chore (d : Delegate κ ν) (j i : Nat) :
    d.lineOf? j (.own (.chore i)) = none := rfl

@[simp] theorem lineOf?_handOn (d : Delegate κ ν) (j : Nat) : d.lineOf? j .handOn = none := rfl

/-- The talk with a resolver in a run, in this order. -/
def talk (j : Nat) (d : Delegate κ ν) : List (Event κ ν) → List (Line κ ν)
  | [] => []
  | e :: es => (d.lineOf? j e).toList ++ ((d.after? e).map fun d' => d'.talk j es).getD []

/-- A talk only breaks off where its resolver is torn down. -/
theorem tear_mem_of_torn_mem_talk {d : Delegate κ ν} {j : Nat} {es : List (Event κ ν)}
    (h : .torn ∈ d.talk j es) : .own (.tear j) ∈ es := by
  induction es generalizing d with
  | nil => exact nomatch h
  | cons e es ih =>
    rcases List.mem_append.1 h with hline | hrest
    · have he : d.lineOf? j e = some .torn := Option.mem_toList.1 hline
      refine List.mem_cons.2 (.inl ?_)
      -- To ask and to reply say other lines.
      unfold lineOf? at he
      split at he
      · split at he
        · obtain ⟨r, -, hq⟩ := Option.bind_eq_some_iff.1 he
          obtain ⟨q, -, hq⟩ := Option.map_eq_some_iff.1 hq
          exact nomatch hq
        · exact nomatch he
      · split at he
        · exact nomatch Option.some.inj he
        · exact nomatch he
      · split at he
        · next hij => rw [hij]
        · exact nomatch he
      · exact nomatch he
    · cases hafter : d.after? e with
      | none =>
        rw [hafter] at hrest
        exact nomatch hrest
      | some d' =>
        rw [hafter] at hrest
        exact List.mem_cons_of_mem _ (ih hrest)

/-! ## Steps of others -/

/-- The resolver that takes a step. -/
def Step.resolver? : Step κ ν → Option Nat
  | .chore i => some i
  | .ask i => some i
  | .reply i _ => some i
  | .tear i => some i
  | _ => none

/-- The numbers of callers and resolvers are never given away again. -/
theorem Moves.next_le {d d' : Delegate κ ν} {s : Step κ ν} (hm : Moves d s d') :
    d.next ≤ d'.next := by
  cases hm with
  | call r => exact Nat.le_succ _
  | register i c k todo hc hw ht =>
    simp only [Delegate.register]
    split <;> exact Nat.le_refl _
  | startResolver i c hc hw ht =>
    simp only [Delegate.startResolver]
    split
    · exact Nat.le_refl _
    · exact Nat.le_succ _
  | leave i c hc hw => exact Nat.le_refl _
  | chore i c rest hr => exact Nat.le_refl _
  | ask i q hr => exact Nat.le_refl _
  | reply i q answer r hr hresume => exact Nat.le_refl _
  | tear i q asked hr => exact Nat.le_refl _

/-- A resolver is where it was after a step that is not its own. -/
theorem Moves.resolver_of_ne {d d' : Delegate κ ν} {s : Step κ ν} (hm : Moves d s d') {j : Nat}
    (hj : j < d.next) (hs : s.resolver? ≠ some j) : d'.resolvers[j]? = d.resolvers[j]? := by
  have other : ∀ {i : Nat}, some i ≠ some j → j ≠ i := fun hne heq => hne (congrArg some heq.symm)
  cases hm with
  | call r => rfl
  | register i c k todo hc hw ht =>
    simp only [Delegate.register]
    split <;> rfl
  | startResolver i c hc hw ht =>
    simp only [Delegate.startResolver]
    split
    · rfl
    · -- The new resolver has a number of its own.
      rw [get_insert, if_neg (Nat.ne_of_lt hj)]
  | leave i c hc hw => rfl
  | chore i c rest hr => simp only [Delegate.chore, get_putResolver, if_neg (other hs)]
  | ask i q hr => simp only [Delegate.ask, get_insert, if_neg (other hs)]
  | reply i q answer r hr hresume => simp only [Delegate.reply, get_putResolver, if_neg (other hs)]
  | tear i q asked hr => simp only [Delegate.tear, get_putResolver, if_neg (other hs)]

/-- Nothing is said with a resolver in a step that is not its own. -/
theorem lineOf?_of_ne (d : Delegate κ ν) {j : Nat} {s : Step κ ν} (hs : s.resolver? ≠ some j) :
    d.lineOf? j (.own s) = none := by
  cases s with
  | ask i => exact if_neg fun h => hs (congrArg some h)
  | reply i answer => exact if_neg fun h => hs (congrArg some h)
  | tear i => exact if_neg fun h => hs (congrArg some h)
  | call r => rfl
  | advance i => rfl
  | leave i => rfl
  | chore i => rfl

/-- An outcome that is there stays as it is. -/
theorem Moves.outcome?_of_some {d d' : Delegate κ ν} {s : Step κ ν} (hm : Moves d s d')
    (h : d.Inv) {p : Nat} {o : Outcome (Option ν)} (hp : d.flights.outcome? p = some o) :
    d'.flights.outcome? p = some o := by
  rcases hm.flights with ⟨hflights, -⟩ | ⟨k, -, -, hflights⟩ | ⟨i, c, rest, hr, -, rfl⟩
  · rw [hflights, hp]
  · rw [hflights, Flights.outcome?_push, hp]
  · exact Chore.run_outcome?_of_some (h.guarded.promise_lt_of_mem (h.guard_mem_held hr)) hp

/-- Only the resolver that holds a guard completes its promise. -/
theorem Moves.outcome?_of_ne {d d' : Delegate κ ν} {s : Step κ ν} (hm : Moves d s d') (h : d.Inv)
    {m : Holder} {g : Guard κ} (hg : g ∈ d.held m)
    (hs : ∀ i, s.resolver? = some i → m ≠ .resolver i) :
    d'.flights.outcome? g.promise = d.flights.outcome? g.promise := by
  rcases hm.flights with ⟨hflights, -⟩ | ⟨k, -, -, hflights⟩ | ⟨i, c, rest, hr, rfl, rfl⟩
  · rw [hflights]
  · rw [hflights, Flights.outcome?_push]
  · have hc := h.guard_mem_held hr
    refine (Chore.run_outcome? (h.guarded.promise_lt_of_mem hc) _).trans (if_neg fun heq => ?_)
    -- One promise has one guard, and one guard has one holder.
    rw [h.guarded.eq_of_promise hg hc heq] at hg
    exact hs i rfl (h.guarded.disjoint hg hc)

/-- An outcome that is there stays as it is in every run. -/
theorem outcome?_of_run? [LawfulBEq κ] {d d' : Delegate κ ν} {es : List (Event κ ν)} (h : d.Inv)
    (hrun : d.run? es = some d') {p : Nat} {o : Outcome (Option ν)}
    (hp : d.flights.outcome? p = some o) : d'.flights.outcome? p = some o :=
  (run?_inv (P := fun _ d => d.Inv ∧ d.flights.outcome? p = some o)
    (fun _ _ _ _ hd hm => ⟨hd.1.moves hm, hm.outcome?_of_some hd.1 hd.2⟩) [] ⟨h, hp⟩ hrun).2

/-! ## The course of a resolver -/

/-- A resolver that has started with a question follows its talk: it has done some chores of the
script and is going on as `r`. The outcomes of its promises are those that its chores have given
them, and a guard that it does not hold any more has an outcome. -/
structure Course (d : Delegate κ ν) (j : Nat) (q₀ : Question κ ν) (said : List (Line κ ν))
    (done : List (Chore κ (Option ν))) (r : Resolver κ ν) : Prop where
  talk : Resolver.Talk q₀ said (done ++ r.chores) r.question? r.asked
  resolver : d.resolvers[j]? = if r.isOver then none else some r
  outcome? : ∀ g ∈ q₀.guards, d.flights.outcome? g.promise = Chore.completed? g.promise done
  held : ∀ g ∈ q₀.guards, g ∈ r.guards ∨ (d.flights.outcome? g.promise).isSome

namespace Course

variable {d d' : Delegate κ ν} {j : Nat} {q₀ : Question κ ν} {said : List (Line κ ν)}
  {done : List (Chore κ (Option ν))} {r : Resolver κ ν}

/-- The resolver that is there goes on as the course says. -/
private theorem eq_of_get (h : Course d j q₀ said done r) {r' : Resolver κ ν}
    (hr' : d.resolvers[j]? = some r') : r' = r := by
  have hr := h.resolver
  rw [hr'] at hr
  split at hr
  · exact nomatch hr
  · exact Option.some.inj hr

/-- A resolver is through when it is gone. -/
theorem isOver_eq (h : Course d j q₀ said done r) : r.isOver = (d.resolvers[j]?).isNone := by
  rw [h.resolver]
  cases r.isOver <;> rfl

/-- The guards of a course are those that its resolver holds. -/
theorem held_eq (h : Course d j q₀ said done r) : d.held (.resolver j) = r.guards := by
  rw [Delegate.held, h.resolver]
  split
  · next hover => exact (guards_of_isOver hover).symm
  · rfl

/-- A resolver may go on in another way if the flights are left alone and it keeps its guards. -/
private theorem goOn (h : Course d j q₀ said done r) {said' : List (Line κ ν)} {r' : Resolver κ ν}
    (htalk : Resolver.Talk q₀ said' (done ++ r'.chores) r'.question? r'.asked)
    (hflights : d'.flights = d.flights)
    (hr' : d'.resolvers[j]? = if r'.isOver then none else some r')
    (hguards : ∀ g ∈ r.guards, g ∈ r'.guards) : Course d' j q₀ said' done r' where
  talk := htalk
  resolver := hr'
  outcome? := hflights ▸ h.outcome?
  held g hg := hflights ▸ (h.held g hg).imp_left (hguards g)

/-- Steps of others leave the course alone. -/
private theorem elsewhere (h : Course d j q₀ said done r) (hd : d.Inv) {s : Step κ ν}
    (hm : Moves d s d') (hj : j < d.next) (hs : s.resolver? ≠ some j) :
    Course d' j q₀ said done r := by
  have hout : ∀ g ∈ q₀.guards, d'.flights.outcome? g.promise = d.flights.outcome? g.promise := by
    intro g hg
    rcases h.held g hg with hheld | hsome
    · refine hm.outcome?_of_ne hd (m := .resolver j) (h.held_eq ▸ hheld) fun i hi heq => ?_
      exact hs (Holder.resolver.inj heq ▸ hi)
    · obtain ⟨o, ho⟩ := Option.isSome_iff_exists.1 hsome
      rw [hm.outcome?_of_some hd ho, ho]
  refine ⟨h.talk, (hm.resolver_of_ne hj hs).trans h.resolver, fun g hg => ?_, fun g hg => ?_⟩
  · rw [hout g hg]
    exact h.outcome? g hg
  · rw [hout g hg]
    exact h.held g hg

/-- A chore of the resolver is the next one of the script. -/
private theorem doChore (h : Course d j q₀ said done r) (hd : d.Inv) {c : Chore κ (Option ν)}
    {rest : Resolver κ ν} (hr : d.resolvers[j]? = some { rest with chores := c :: rest.chores }) :
    Course (d.chore j c rest) j q₀ said (done ++ [c]) rest := by
  obtain ⟨chores, question?, asked⟩ := rest
  obtain rfl := h.eq_of_get hr
  have hc := hd.guarded.promise_lt_of_mem (hd.guard_mem_held hr)
  have hflights : (d.chore j c ⟨chores, question?, asked⟩).flights = c.run d.flights := rfl
  constructor
  case talk =>
    rw [List.append_assoc]
    exact h.talk
  case resolver => simp only [Delegate.chore, get_putResolver, if_pos]
  case outcome? =>
    -- The first chore that completes a promise is the one that counts.
    intro g hg
    rw [hflights, Chore.run_outcome? hc, h.outcome? g hg, Chore.completed?_concat]
    by_cases hgc : g.promise = c.guard.promise
    · rw [if_pos hgc, if_pos hgc.symm]
    · rw [if_neg hgc, if_neg (Ne.symm hgc), Option.or_none]
  case held =>
    intro g hg
    rw [hflights]
    have hmono : (d.flights.outcome? g.promise).isSome →
        ((c.run d.flights).outcome? g.promise).isSome := by
      intro hsome
      obtain ⟨o, ho⟩ := Option.isSome_iff_exists.1 hsome
      exact Option.isSome_iff_exists.2 ⟨o, Chore.run_outcome?_of_some hc ho⟩
    rcases h.held g hg with hheld | hsome
    · rw [Resolver.guards_eq] at hheld ⊢
      -- Only the removal of an entry drops a guard, and the promise of that guard is completed.
      rcases (hd.resolver hr).tidy with htidy | ⟨g', cs, hcs, -, hsome⟩
      · cases htidy with
        | publish hmem htidy => exact .inl hheld
        | drop htidy => exact .inl hheld
      · obtain ⟨rfl, rfl⟩ := List.cons.inj hcs
        rcases List.mem_cons.1 hheld with rfl | hheld
        · exact .inr (hmono hsome)
        · exact .inl hheld
    · exact .inr (hmono hsome)

/-- A resolver follows its talk, with every step of the delegate. -/
theorem moves [LawfulBEq κ] (h : Course d j q₀ said done r) (hd : d.Inv) {s : Step κ ν}
    (hm : Moves d s d') (hj : j < d.next) :
    ∃ done' r', Course d' j q₀ (said ++ (d.lineOf? j (.own s)).toList) done' r' := by
  -- Its own steps are the next line of the talk, or the next chore; those of others do not touch
  -- it.
  by_cases hs : s.resolver? = some j
  · cases hm with
    | chore i c rest hr =>
      obtain rfl := Option.some.inj hs
      rw [lineOf?_chore, Option.toList_none, List.append_nil]
      exact ⟨_, _, h.doChore hd hr⟩
    | ask i q hr =>
      obtain rfl := Option.some.inj hs
      obtain rfl := h.eq_of_get hr
      rw [lineOf?, if_pos rfl, hr]
      refine ⟨done, ⟨[], some q, true⟩, h.goOn (.ask h.talk) rfl ?_ fun g hg => hg⟩
      simp only [Delegate.ask, get_insert, if_pos]
      rfl
    | reply i q answer r' hr hresume =>
      obtain rfl := Option.some.inj hs
      obtain rfl := h.eq_of_get hr
      rw [lineOf?, if_pos rfl]
      have htalk := h.talk.reply hresume
      rw [List.append_nil] at htalk
      refine ⟨done, r', h.goOn htalk rfl ?_ fun g hg => ?_⟩
      · simp only [Delegate.reply, get_putResolver, if_pos]
      · exact (Resolver.resume_guards_perm hresume).mem_iff.2 hg
    | tear i q asked hr =>
      obtain rfl := Option.some.inj hs
      obtain rfl := h.eq_of_get hr
      rw [lineOf?, if_pos rfl]
      have htalk := h.talk.tear
      rw [List.append_nil] at htalk
      refine ⟨done, .torn q, h.goOn htalk rfl ?_ fun g hg => ?_⟩
      · simp only [Delegate.tear, get_putResolver, if_pos]
      · rw [Resolver.torn_guards]
        exact hg
    | call r => cases hs
    | register i c k todo hc hw ht => cases hs
    | startResolver i c hc hw ht => cases hs
    | leave i c hc hw => cases hs
  · rw [lineOf?_of_ne d hs, Option.toList_none, List.append_nil]
    exact ⟨done, r, h.elsewhere hd hm hj hs⟩

end Course

/-- A resolver follows its talk in every run. -/
theorem course_of_run? [LawfulBEq κ] {d d' : Delegate κ ν} {j : Nat} {q₀ : Question κ ν}
    {said : List (Line κ ν)} {done : List (Chore κ (Option ν))} {r : Resolver κ ν}
    (h : Course d j q₀ said done r) (hd : d.Inv) (hj : j < d.next) {es : List (Event κ ν)}
    (hrun : d.run? es = some d') : ∃ done' r', Course d' j q₀ (said ++ d.talk j es) done' r' := by
  induction es generalizing d said done r with
  | nil =>
    obtain rfl := Option.some.inj hrun
    rw [talk, List.append_nil]
    exact ⟨done, r, h⟩
  | cons e es ih =>
    obtain ⟨d₁, h₁, h₂⟩ := Option.bind_eq_some_iff.1 hrun
    rw [talk, h₁, ← List.append_assoc]
    cases e with
    | own s =>
      have hm := moves_of_step? h₁
      obtain ⟨done₁, r₁, hcourse⟩ := h.moves hd hm hj
      exact ih hcourse (hd.moves hm) (Nat.lt_of_lt_of_le hj hm.next_le) h₂
    | handOn =>
      obtain rfl := Option.some.inj h₁
      rw [lineOf?_handOn, Option.toList_none, List.append_nil]
      exact ih h hd hj h₂

end Delegate

end CacheLayer
