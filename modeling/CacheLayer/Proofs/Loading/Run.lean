import CacheLayer.Loading.Delegate
/-!
# Runs of a loading delegate

`Delegate.Moves` lists what a step of a delegate can do, one rule for each kind of step;
`step?_eq_some_iff` says that these are the steps that can happen. A run is any sequence of steps,
in which callers come and go, resolvers do what they do in any order, and the cache and the loader
reply whatever they like. Writes, deletes and updates of callers are handed to the cache as they
are: in a run of the delegate they show only in later replies.

## Key results

- `step?_eq_some_iff`: the rules are complete
- `run?_inv`: what every step keeps, every run keeps
- `run?_induction`: the same of what depends on the events so far
-/

namespace CacheLayer

namespace Delegate

variable {κ ν : Type} [BEq κ] [Hashable κ]

/-! ## What a step can do -/

/-- What a step of a delegate can do. -/
inductive Moves (d : Delegate κ ν) : Step κ ν → Delegate κ ν → Prop where
  | call (r : Read κ) : Moves d (.call r) (d.call r)
  | register (i : Nat) (c : Caller κ) (k : κ) (todo : List κ) : d.callers[i]? = some c →
    c.waiting = false → c.todo = k :: todo → Moves d (.advance i) (d.register i c k todo)
  | startResolver (i : Nat) (c : Caller κ) : d.callers[i]? = some c →
    c.waiting = false → c.todo = [] → Moves d (.advance i) (d.startResolver i c)
  | leave (i : Nat) (c : Caller κ) : d.callers[i]? = some c →
    c.waiting = true → Moves d (.leave i) (d.leave i)
  | chore (i : Nat) (c : Chore κ (Option ν)) (rest : Resolver κ ν) :
    d.resolvers[i]? = some { rest with chores := c :: rest.chores } →
    Moves d (.chore i) (d.chore i c rest)
  | ask (i : Nat) (q : Question κ ν) : d.resolvers[i]? = some ⟨[], some q, false⟩ →
    Moves d (.ask i) (d.ask i q)
  | reply (i : Nat) (q : Question κ ν) (answer : Reply κ ν) (r : Resolver κ ν) :
    d.resolvers[i]? = some ⟨[], some q, true⟩ → Resolver.resume q answer = some r →
    Moves d (.reply i answer) (d.reply i answer r)
  | tear (i : Nat) (q : Question κ ν) (asked : Bool) :
    d.resolvers[i]? = some ⟨[], some q, asked⟩ → Moves d (.tear i) (d.tear i q)

private theorem moves_of_advance {d d' : Delegate κ ν} {i : Nat}
    (h : d.stepCaller? i false = some d') : Moves d (.advance i) d' := by
  unfold stepCaller? at h
  split at h
  · exact nomatch h
  · next c hc =>
    cases hw : c.waiting with
    | true =>
      rw [hw] at h
      exact nomatch h
    | false =>
      rw [hw] at h
      obtain rfl := Option.some.inj h
      -- Keys are registered one by one; after the last one the resolver is started.
      unfold advance
      split
      · next k todo ht => exact .register i c k todo hc hw ht
      · next ht => exact .startResolver i c hc hw ht

private theorem moves_of_leave {d d' : Delegate κ ν} {i : Nat}
    (h : d.stepCaller? i true = some d') : Moves d (.leave i) d' := by
  unfold stepCaller? at h
  split at h
  · exact nomatch h
  · next c hc =>
    cases hw : c.waiting with
    | true =>
      rw [hw] at h
      obtain rfl := Option.some.inj h
      exact .leave i c hc hw
    | false =>
      rw [hw] at h
      exact nomatch h

/-- The rules tell all that a step can do. -/
theorem moves_of_step? {d d' : Delegate κ ν} {s : Step κ ν} (h : d.step? s = some d') :
    Moves d s d' := by
  -- A resolver can do a chore, ask, be told a reply or be torn down only where it stands for that;
  -- the rules say where.
  cases s with
  | call r =>
    obtain rfl := Option.some.inj h
    exact .call r
  | advance i => exact moves_of_advance h
  | leave i => exact moves_of_leave h
  | chore i =>
    simp only [step?] at h
    split at h
    · next c chores question? asked hr =>
      obtain rfl := Option.some.inj h
      exact .chore i c ⟨chores, question?, asked⟩ hr
    · exact nomatch h
  | ask i =>
    simp only [step?] at h
    split at h
    · next q hr =>
      obtain rfl := Option.some.inj h
      exact .ask i q hr
    · exact nomatch h
  | reply i answer =>
    simp only [step?] at h
    split at h
    · next q hr =>
      obtain ⟨r, hresume, rfl⟩ := Option.map_eq_some_iff.1 h
      exact .reply i q answer r hr hresume
    · exact nomatch h
  | tear i =>
    simp only [step?] at h
    split at h
    · next q asked hr =>
      obtain rfl := Option.some.inj h
      exact .tear i q asked hr
    · exact nomatch h

/-- The rules are those of the machine. -/
theorem step?_eq_some_iff {d d' : Delegate κ ν} {s : Step κ ν} :
    d.step? s = some d' ↔ Moves d s d' := by
  refine ⟨moves_of_step?, fun h => ?_⟩
  cases h with
  | call r => rfl
  | register i c k todo hc hw ht => simp [step?, stepCaller?, advance, hc, hw, ht]
  | startResolver i c hc hw ht => simp [step?, stepCaller?, advance, hc, hw, ht]
  | leave i c hc hw => simp [step?, stepCaller?, hc, hw]
  | chore i c rest hr => simp [step?, hr]
  | ask i q hr => simp [step?, hr]
  | reply i q answer r hr hresume => simp [step?, hr, hresume]
  | tear i q asked hr => simp [step?, hr]

/-! ## Runs -/

/-- What can happen around a delegate. -/
inductive Event (κ ν : Type) [BEq κ] [Hashable κ] where
  /-- A step of the delegate. -/
  | own (s : Step κ ν)
  /-- A caller writes, deletes or updates, which is handed to the cache as it is. -/
  | handOn

/-- The delegate after an event, if the event can happen. -/
def after? (d : Delegate κ ν) : Event κ ν → Option (Delegate κ ν)
  | .own s => d.step? s
  | .handOn => some d

/-- The delegate after a run, if the run can happen. -/
def run? (d : Delegate κ ν) : List (Event κ ν) → Option (Delegate κ ν)
  | [] => some d
  | e :: es => (d.after? e).bind fun d' => d'.run? es

/-- A run in two parts. -/
theorem run?_append (d : Delegate κ ν) (es es' : List (Event κ ν)) :
    d.run? (es ++ es') = (d.run? es).bind fun d' => d'.run? es' := by
  induction es generalizing d with
  | nil => rfl
  | cons e es ih =>
    rw [List.cons_append, run?, run?, Option.bind_assoc]
    exact congrArg _ (funext ih)

/-- What is true before a run, and is kept by every event that goes on with the run, is true after
it. It may depend on what has happened so far. -/
theorem run?_induction {d₀ : Delegate κ ν} {P : List (Event κ ν) → Delegate κ ν → Prop}
    (hnil : P [] d₀) (hstep : ∀ es e d d', d₀.run? es = some d → P es d → d.after? e = some d' →
      P (es ++ [e]) d') {es : List (Event κ ν)} {d : Delegate κ ν} (hrun : d₀.run? es = some d) :
    P es d := by
  -- The induction is on what is still to happen after a part of the run.
  suffices h : ∀ es₁ d₁ es₂, d₀.run? es₁ = some d₁ → P es₁ d₁ → d₁.run? es₂ = some d →
      P (es₁ ++ es₂) d from h [] d₀ es rfl hnil hrun
  intro es₁ d₁ es₂ h₁ hP h₂
  induction es₂ generalizing es₁ d₁ with
  | nil =>
    obtain rfl := Option.some.inj h₂
    rwa [List.append_nil]
  | cons e es₂ ih =>
    obtain ⟨d₂, he, h₂⟩ := Option.bind_eq_some_iff.1 h₂
    have hrun' : d₀.run? (es₁ ++ [e]) = some d₂ := by
      rw [run?_append, h₁, Option.bind_some, run?, he]
      rfl
    have hconcat := ih (es₁ ++ [e]) d₂ hrun' (hstep es₁ e d₁ d₂ h₁ hP he) h₂
    rwa [List.append_assoc] at hconcat

/-- The chore that is done in an event. -/
def choreOf? (d : Delegate κ ν) : Event κ ν → Option (Chore κ (Option ν))
  | .own (.chore i) => d.resolvers[i]?.bind fun r => r.chores.head?
  | _ => none

/-- The chores that are done in a run, in this order. -/
def choresOf (d : Delegate κ ν) : List (Event κ ν) → List (Chore κ (Option ν))
  | [] => []
  | e :: es => (d.choreOf? e).toList ++ ((d.after? e).map fun d' => d'.choresOf es).getD []

/-- What every step keeps, every run keeps. It may depend on the chores that have been done. -/
theorem run?_inv {P : List (Chore κ (Option ν)) → Delegate κ ν → Prop}
    (hstep : ∀ done d s d', P done d → Moves d s d' →
      P (done ++ (d.choreOf? (.own s)).toList) d')
    {d d' : Delegate κ ν} {es : List (Event κ ν)} (done : List (Chore κ (Option ν)))
    (h : P done d) (hrun : d.run? es = some d') : P (done ++ d.choresOf es) d' := by
  induction es generalizing d done with
  | nil =>
    obtain rfl := Option.some.inj hrun
    rwa [choresOf, List.append_nil]
  | cons e es ih =>
    obtain ⟨d₁, h₁, h₂⟩ := Option.bind_eq_some_iff.1 hrun
    rw [choresOf, h₁, ← List.append_assoc]
    -- The first event, and then the rest of the run by induction.
    refine ih _ ?_ h₂
    cases e with
    | own s => exact hstep done d s d₁ h (moves_of_step? h₁)
    | handOn =>
      obtain rfl := Option.some.inj h₁
      exact (List.append_nil done).symm ▸ h

end Delegate

/-- What is so in the end of a run is so of some state. -/
theorem exists_of_elim {β : Type} {o : Option β} {P : β → Prop} (h : o.elim False P) :
    ∃ b, o = some b ∧ P b := by
  cases o with
  | none => exact h.elim
  | some b => exact ⟨b, rfl, h⟩

end CacheLayer
