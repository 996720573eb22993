import CacheLayer.Proofs.Gathering
import CacheLayer.Proofs.Loading.Reading
/-!
# Reading several keys

The resolver of several keys asks the cache for all of them, and the loader for those that the cache
did not have. What it has said so far can always be gone on with to one of four whole talks, which
tell the outcome of each key. A read of several keys joins the flights that it finds, begins those
that it does not find, and folds the outcomes of all its keys into what its caller gets.

## Key results

- `Resolver.BulkStage.of_talk`: the resolver is in one of its stages, or was torn down in one
- `Resolver.BulkStage.resolution`: every stage is on the way to the end of a whole talk
- `bulk_read`: what a read of several keys does, and what its caller gets
-/

namespace CacheLayer

variable {κ ν : Type} [BEq κ] [Hashable κ]

namespace Resolver

/-! ## What is said about several keys -/

/-- What is found in the cache. A cache that fails holds nothing. -/
def found (r : Outcome (Std.HashMap κ ν)) : Std.HashMap κ ν := r.toOption.getD ∅

/-- The outcome of a key: what was found, or else what the loader has given for it, which is nothing
if it is not in the answer of the loader. -/
def keyOutcome (found : Std.HashMap κ ν) (loaded : Outcome (Std.HashMap κ ν)) (k : κ) :
    Outcome (Option ν) :=
  match found[k]? with
  | some v => .ok (some v)
  | none => loaded.map fun entries => entries[k]?

/-- The talks of a resolver of several keys that comes to its end, each with the outcomes of the
keys. The cache is asked for all keys. If it does not have some, the loader is called once for just
these. What the loader gives, if it gives anything, is written to the cache as it is. -/
inductive BulkResolution (gs : List (Guard κ)) :
    List (Line κ ν) → (κ → Outcome (Option ν)) → Prop where
  | cached {r : Outcome (Std.HashMap κ ν)} (hr : notFound (found r) gs = []) :
    BulkResolution gs [.asked (.readMany gs), .told (.readMany r)] fun k => .ok (found r)[k]?
  | failed {r : Outcome (Std.HashMap κ ν)} (hr : notFound (found r) gs ≠ [])
    {l : LoadEnd (Std.HashMap κ ν)} {e : CacheError} (hl : l.outcome = .error e) :
    BulkResolution gs [.asked (.readMany gs), .told (.readMany r),
      .asked (.loadMany (notFound (found r) gs)), .told (.loadMany l)]
      (keyOutcome (found r) (.error e))
  | nothing {r : Outcome (Std.HashMap κ ν)} (hr : notFound (found r) gs ≠ [])
    {l : LoadEnd (Std.HashMap κ ν)} {entries : Std.HashMap κ ν} (hl : l.outcome = .ok entries)
    (hempty : entries.isEmpty = true) :
    BulkResolution gs [.asked (.readMany gs), .told (.readMany r),
      .asked (.loadMany (notFound (found r) gs)), .told (.loadMany l)]
      (keyOutcome (found r) (.ok entries))
  | loaded {r : Outcome (Std.HashMap κ ν)} (hr : notFound (found r) gs ≠ [])
    {l : LoadEnd (Std.HashMap κ ν)} {entries : Std.HashMap κ ν} (hl : l.outcome = .ok entries)
    (hempty : entries.isEmpty = false) (w : Outcome Unit) :
    BulkResolution gs [.asked (.readMany gs), .told (.readMany r),
      .asked (.loadMany (notFound (found r) gs)), .told (.loadMany l),
      .asked (.writeMany (notFound (found r) gs) entries), .told (.written w)]
      (keyOutcome (found r) (.ok entries))

/-- Publishes what was loaded. -/
def publishLoaded (loaded : Outcome (Std.HashMap κ ν)) (gs : List (Guard κ)) :
    List (Chore κ (Option ν)) :=
  gs.map fun g => .publish g (loaded.map fun entries => entries[g.key]?)

/-- The stages of a resolver of several keys, as in `Talk`. -/
inductive BulkStage (gs : List (Guard κ)) : List (Line κ ν) → List (Chore κ (Option ν)) →
    Option (Question κ ν) → Bool → Prop where
  | fresh : BulkStage gs [] [] (some (.readMany gs)) false
  | reading : BulkStage gs [.asked (.readMany gs)] [] (some (.readMany gs)) true
  | cached {r : Outcome (Std.HashMap κ ν)} (hr : notFound (found r) gs = []) :
    BulkStage gs [.asked (.readMany gs), .told (.readMany r)] (resolveFound (found r) gs) none false
  | missed {r : Outcome (Std.HashMap κ ν)} (hr : notFound (found r) gs ≠ []) :
    BulkStage gs [.asked (.readMany gs), .told (.readMany r)] (resolveFound (found r) gs)
      (some (.loadMany (notFound (found r) gs))) false
  | loading {r : Outcome (Std.HashMap κ ν)} (hr : notFound (found r) gs ≠ []) :
    BulkStage gs [.asked (.readMany gs), .told (.readMany r),
      .asked (.loadMany (notFound (found r) gs))] (resolveFound (found r) gs)
      (some (.loadMany (notFound (found r) gs))) true
  | failed {r : Outcome (Std.HashMap κ ν)} (hr : notFound (found r) gs ≠ [])
    {l : LoadEnd (Std.HashMap κ ν)} {e : CacheError} (hl : l.outcome = .error e) :
    BulkStage gs [.asked (.readMany gs), .told (.readMany r),
      .asked (.loadMany (notFound (found r) gs)), .told (.loadMany l)]
      (resolveFound (found r) gs ++ (publishLoaded (.error e) (notFound (found r) gs) ++
        Chore.dropAll (notFound (found r) gs))) none false
  | nothing {r : Outcome (Std.HashMap κ ν)} (hr : notFound (found r) gs ≠ [])
    {l : LoadEnd (Std.HashMap κ ν)} {entries : Std.HashMap κ ν} (hl : l.outcome = .ok entries)
    (hempty : entries.isEmpty = true) :
    BulkStage gs [.asked (.readMany gs), .told (.readMany r),
      .asked (.loadMany (notFound (found r) gs)), .told (.loadMany l)]
      (resolveFound (found r) gs ++ (publishLoaded (.ok entries) (notFound (found r) gs) ++
        Chore.dropAll (notFound (found r) gs))) none false
  | loaded {r : Outcome (Std.HashMap κ ν)} (hr : notFound (found r) gs ≠ [])
    {l : LoadEnd (Std.HashMap κ ν)} {entries : Std.HashMap κ ν} (hl : l.outcome = .ok entries)
    (hempty : entries.isEmpty = false) :
    BulkStage gs [.asked (.readMany gs), .told (.readMany r),
      .asked (.loadMany (notFound (found r) gs)), .told (.loadMany l)]
      (resolveFound (found r) gs ++ publishLoaded (.ok entries) (notFound (found r) gs))
      (some (.writeMany (notFound (found r) gs) entries)) false
  | writing {r : Outcome (Std.HashMap κ ν)} (hr : notFound (found r) gs ≠ [])
    {l : LoadEnd (Std.HashMap κ ν)} {entries : Std.HashMap κ ν} (hl : l.outcome = .ok entries)
    (hempty : entries.isEmpty = false) :
    BulkStage gs [.asked (.readMany gs), .told (.readMany r),
      .asked (.loadMany (notFound (found r) gs)), .told (.loadMany l),
      .asked (.writeMany (notFound (found r) gs) entries)]
      (resolveFound (found r) gs ++ publishLoaded (.ok entries) (notFound (found r) gs))
      (some (.writeMany (notFound (found r) gs) entries)) true
  | written {r : Outcome (Std.HashMap κ ν)} (hr : notFound (found r) gs ≠ [])
    {l : LoadEnd (Std.HashMap κ ν)} {entries : Std.HashMap κ ν} (hl : l.outcome = .ok entries)
    (hempty : entries.isEmpty = false) (w : Outcome Unit) :
    BulkStage gs [.asked (.readMany gs), .told (.readMany r),
      .asked (.loadMany (notFound (found r) gs)), .told (.loadMany l),
      .asked (.writeMany (notFound (found r) gs) entries), .told (.written w)]
      (resolveFound (found r) gs ++ publishLoaded (.ok entries) (notFound (found r) gs) ++
        Chore.dropAll (notFound (found r) gs)) none false

namespace BulkStage

variable {gs : List (Guard κ)} {said : List (Line κ ν)} {script : List (Chore κ (Option ν))}
  {question? : Option (Question κ ν)} {asked : Bool}

/-- A question that is there gets asked. -/
private theorem ask {q : Question κ ν} (h : BulkStage gs said script (some q) false) :
    BulkStage gs (said ++ [.asked q]) script (some q) true := by
  cases h with
  | fresh => exact .reading
  | missed hr => exact .loading hr
  | loaded hr hl hempty => exact .writing hr hl hempty

/-- The reply to a question leads to the next stage. -/
private theorem reply {q : Question κ ν} {answer : Reply κ ν} {r : Resolver κ ν}
    (h : BulkStage gs said script (some q) true) (hresume : resume q answer = some r) :
    BulkStage gs (said ++ [.told answer]) (script ++ r.chores) r.question? r.asked := by
  -- At each stage the question says which kind of reply there may be.
  cases h with
  | reading =>
    cases answer <;> simp only [resume, Option.some.injEq, reduceCtorEq] at hresume
    case readMany answer =>
      subst hresume
      rcases afterReadMany_cases gs answer with ⟨hr, heq⟩ | ⟨hr, heq⟩ <;> rw [heq]
      · exact .cached hr
      · exact .missed hr
  | loading hr =>
    cases answer <;> simp only [resume, Option.some.injEq, reduceCtorEq] at hresume
    case loadMany l =>
      subst hresume
      -- A load fails, finds nothing at all, or finds values, which are written back.
      rcases hl : l.outcome with e | entries
      · exact .failed hr hl
      · cases hempty : entries.isEmpty with
        | true =>
          rw [afterLoadMany, if_pos hempty]
          exact .nothing hr hl hempty
        | false =>
          rw [afterLoadMany, if_neg (Bool.eq_false_iff.1 hempty)]
          exact .loaded hr hl hempty
  | writing hr hl hempty =>
    cases answer <;> simp only [resume, Option.some.injEq, reduceCtorEq] at hresume
    case written w =>
      subst hresume
      exact .written hr hl hempty w

/-- Whatever the cache and the loader reply, the resolver is in one of the stages, or it was in one
when it was torn down. -/
theorem of_talk (h : Talk (.readMany gs) said script question? asked) :
    BulkStage gs said script question? asked ∨
    ∃ before script₀ q asked₀, BulkStage gs before script₀ (some q) asked₀ ∧
      said = before ++ [.torn] ∧ script = script₀ ++ Chore.dropAll q.guards ∧ question? = none := by
  induction h with
  | start => exact .inl .fresh
  | ask h ih =>
    rcases ih with hstage | ⟨-, -, -, -, -, -, -, hnone⟩
    · exact .inl hstage.ask
    · exact nomatch hnone
  | reply h hresume ih =>
    rcases ih with hstage | ⟨-, -, -, -, -, -, -, hnone⟩
    · exact .inl (hstage.reply hresume)
    · exact nomatch hnone
  | tear h ih =>
    rcases ih with hstage | ⟨-, -, -, -, -, -, -, hnone⟩
    · exact .inr ⟨_, _, _, _, hstage, rfl, rfl, rfl⟩
    · exact nomatch hnone

end BulkStage

/-! ## What is completed -/

section

variable {gs : List (Guard κ)}

/-- What was found completes the promises of its keys. -/
private theorem completed?_resolveFound (hnodup : (gs.map Guard.promise).Nodup)
    (found : Std.HashMap κ ν) {g : Guard κ} (hg : g ∈ gs) :
    Chore.completed? g.promise (resolveFound found gs) =
      found[g.key]?.map fun v => .ok (some v) := by
  rw [resolveFound, Chore.completed?_flatMap hnodup ?_ hg]
  · cases found[g.key]? with
    | none => rfl
    | some v => simp [Chore.completed?, Chore.resolve, Chore.guard, Chore.completion?]
  · intro g c hc
    cases hv : found[g.key]? with
    | none =>
      rw [hv] at hc
      exact absurd hc List.not_mem_nil
    | some v =>
      simp only [hv, Option.map_some, Option.getD_some, Chore.resolve, Chore.drop, List.mem_cons,
        List.not_mem_nil, or_false] at hc
      rcases hc with rfl | rfl | rfl <;> rfl

/-- While nothing else is completed, a promise has the outcome of its key, whatever is loaded. -/
private theorem eq_keyOutcome_of_found (hnodup : (gs.map Guard.promise).Nodup)
    {found : Std.HashMap κ ν} {g : Guard κ} (hg : g ∈ gs) {x : Outcome (Option ν)}
    (hx : Chore.completed? g.promise (resolveFound found gs) = some x)
    (loaded : Outcome (Std.HashMap κ ν)) : x = keyOutcome found loaded g.key := by
  rw [completed?_resolveFound hnodup found hg] at hx
  obtain ⟨v, hv, rfl⟩ := Option.map_eq_some_iff.1 hx
  rw [keyOutcome, hv]

/-- When what was loaded is published, a promise has the outcome of its key, whatever happens
then. -/
private theorem eq_keyOutcome_of_published [LawfulBEq κ] (hnodup : (gs.map Guard.promise).Nodup)
    {found : Std.HashMap κ ν} {g : Guard κ} (hg : g ∈ gs) {loaded : Outcome (Std.HashMap κ ν)}
    {rest : List (Chore κ (Option ν))} {x : Outcome (Option ν)}
    (hx : Chore.completed? g.promise
      (resolveFound found gs ++ (publishLoaded loaded (notFound found gs) ++ rest)) = some x) :
    x = keyOutcome found loaded g.key := by
  rw [Chore.completed?_append, Chore.completed?_append, completed?_resolveFound hnodup found hg]
    at hx
  rw [keyOutcome]
  cases hv : found[g.key]? with
  | some v =>
    rw [hv] at hx
    exact (Option.some.inj hx).symm
  | none =>
    have hmem : g ∈ notFound found gs := by
      refine List.mem_filter.2 ⟨hg, ?_⟩
      rw [Std.HashMap.contains_eq_isSome_getElem?, hv]
      rfl
    -- What was not found is published with what was loaded, before anything else.
    have hsub : ((notFound found gs).map Guard.promise).Nodup :=
      hnodup.sublist (List.filter_sublist.map Guard.promise)
    rw [hv, publishLoaded, Chore.completed?_map_publish hsub _ hmem] at hx
    exact (Option.some.inj hx).symm

/-- Where the cache did not have some keys, the loader may still fail. -/
private theorem BulkResolution.of_missed {r : Outcome (Std.HashMap κ ν)}
    (hr : notFound (found r) gs ≠ []) :
    BulkResolution gs [.asked (.readMany gs), .told (.readMany r),
      .asked (.loadMany (notFound (found r) gs)),
      .told (.loadMany (.answered (.error (.backend ""))))]
      (keyOutcome (found r) (.error (.backend ""))) := .failed hr rfl

/-- Where the cache was asked, it may still have nothing. -/
private theorem BulkResolution.of_asked (gs : List (Guard κ)) :
    ∃ (rest : List (Line κ ν)) (o : κ → Outcome (Option ν)),
      BulkResolution gs ([.asked (.readMany gs)] ++ rest) o := by
  by_cases hr : notFound (found (.ok (∅ : Std.HashMap κ ν))) gs = []
  · exact ⟨_, _, .cached hr⟩
  · exact ⟨_, _, .of_missed hr⟩

/-- Every stage is on the way to the end of a whole talk. What is completed has the outcome that it
has in the end, and without a question the talk is at its end. -/
theorem BulkStage.resolution [LawfulBEq κ] {said : List (Line κ ν)}
    {script : List (Chore κ (Option ν))} {question? : Option (Question κ ν)} {asked : Bool}
    (h : BulkStage gs said script question? asked) (hnodup : (gs.map Guard.promise).Nodup) :
    ∃ rest o, BulkResolution gs (said ++ rest) o ∧ (question? = none → rest = []) ∧
      ∀ g ∈ gs, ∀ x, Chore.completed? g.promise script = some x → x = o g.key := by
  cases h with
  -- Before the cache has answered, nothing is completed, so that any whole talk will do.
  | fresh =>
    obtain ⟨rest, o, hresolution⟩ := BulkResolution.of_asked (ν := ν) gs
    exact ⟨_, o, hresolution, nofun, nofun⟩
  | reading =>
    obtain ⟨rest, o, hresolution⟩ := BulkResolution.of_asked (ν := ν) gs
    exact ⟨rest, o, hresolution, nofun, nofun⟩
  | cached hr =>
    refine ⟨[], _, .cached hr, fun _ => rfl, fun g hg x hx => ?_⟩
    rw [completed?_resolveFound hnodup _ hg] at hx
    obtain ⟨v, hv, rfl⟩ := Option.map_eq_some_iff.1 hx
    rw [hv]
  -- While the loader has not answered, only what was found is completed.
  | missed hr =>
    exact ⟨[_, _], _, .of_missed hr, nofun, fun g hg x hx => eq_keyOutcome_of_found hnodup hg hx _⟩
  | loading hr =>
    exact ⟨[_], _, .of_missed hr, nofun, fun g hg x hx => eq_keyOutcome_of_found hnodup hg hx _⟩
  | failed hr hl =>
    exact ⟨[], _, .failed hr hl, fun _ => rfl, fun g hg x hx =>
      eq_keyOutcome_of_published hnodup hg hx⟩
  | nothing hr hl hempty =>
    exact ⟨[], _, .nothing hr hl hempty, fun _ => rfl, fun g hg x hx =>
      eq_keyOutcome_of_published hnodup hg hx⟩
  -- How the write ends makes no difference.
  | loaded hr hl hempty =>
    refine ⟨[_, _], _, .loaded hr hl hempty (.ok ()), nofun, fun g hg x hx => ?_⟩
    rw [← List.append_nil (publishLoaded _ _)] at hx
    exact eq_keyOutcome_of_published hnodup hg hx
  | writing hr hl hempty =>
    refine ⟨[_], _, .loaded hr hl hempty (.ok ()), nofun, fun g hg x hx => ?_⟩
    rw [← List.append_nil (publishLoaded _ _)] at hx
    exact eq_keyOutcome_of_published hnodup hg hx
  | written hr hl hempty w =>
    refine ⟨[], _, .loaded hr hl hempty w, fun _ => rfl, fun g hg x hx => ?_⟩
    rw [List.append_assoc] at hx
    exact eq_keyOutcome_of_published hnodup hg hx

end

end Resolver

namespace Delegate

/-! ## From the beginning to the result -/

/-- How far the resolver of several keys has come: what was said is the beginning of a whole talk,
or it broke off there because the resolver was torn down. An outcome that is there is the one that
the whole talk tells, or that the load was abandoned where the talk broke off. Once the resolver is
gone, all outcomes are there, and the talk is whole unless it broke off. -/
def Resolves (d : Delegate κ ν) (j : Nat) (gs : List (Guard κ)) (said : List (Line κ ν)) : Prop :=
  ∃ told rest o, Resolver.BulkResolution gs (told ++ rest) o ∧
    (said = told ∨ said = told ++ [.torn]) ∧
    (∀ g ∈ gs, ∀ x, d.flights.outcome? g.promise = some x →
      x = o g.key ∨ said = told ++ [.torn] ∧ x = .error Flights.abandoned) ∧
    (d.resolvers[j]? = none →
      (∀ g ∈ gs, (d.flights.outcome? g.promise).isSome) ∧ (said = told → rest = []))

section

variable [LawfulBEq κ] {ks : List κ} {before mid after : List (Event κ ν)} {d₀ d₁ d₂ : Delegate κ ν}
  {c : Caller κ}

/-- A resolver that follows its talk resolves its keys. -/
private theorem Course.resolves {d : Delegate κ ν} {j : Nat} {gs : List (Guard κ)}
    {said : List (Line κ ν)} {done : List (Chore κ (Option ν))} {r : Resolver κ ν}
    (h : Course d j (.readMany gs) said done r) (hnodup : (gs.map Guard.promise).Nodup) :
    d.Resolves j gs said := by
  have hcompleted : ∀ g ∈ gs, ∀ x, d.flights.outcome? g.promise = some x →
      Chore.completed? g.promise (done ++ r.chores) = some x := by
    intro g hg x hx
    rw [h.outcome? g hg] at hx
    rw [Chore.completed?_append, hx, Option.some_or]
  have hover : d.resolvers[j]? = none → r.isOver = true := by
    intro hnone
    rw [h.isOver_eq, hnone]
    rfl
  have hsettled : d.resolvers[j]? = none → ∀ g ∈ gs, (d.flights.outcome? g.promise).isSome := by
    intro hnone g hg
    refine (h.held g hg).resolve_left fun hheld => ?_
    rw [guards_of_isOver (hover hnone)] at hheld
    exact nomatch hheld
  -- The talk goes on or has ended by itself, or else the resolver was torn down.
  rcases Resolver.BulkStage.of_talk h.talk with
    hstage | ⟨told, script, q, asked, hstage, rfl, hscript, -⟩
  · obtain ⟨rest, o, hresolution, hend, hknown⟩ := hstage.resolution hnodup
    refine ⟨said, rest, o, hresolution, .inl rfl, fun g hg x hx => ?_, fun hnone => ?_⟩
    · exact .inl (hknown g hg x (hcompleted g hg x hx))
    · refine ⟨hsettled hnone, fun _ => hend ?_⟩
      exact Option.isNone_iff_eq_none.1 (Bool.and_eq_true_iff.1 (hover hnone)).2
  · obtain ⟨rest, o, hresolution, -, hknown⟩ := hstage.resolution hnodup
    refine ⟨told, rest, o, hresolution, .inr rfl, fun g hg x hx => ?_, fun hnone => ?_⟩
    · -- What was not completed before is given up when the guards are dropped.
      have hx := hcompleted g hg x hx
      rw [hscript, Chore.completed?_append] at hx
      rcases Option.or_eq_some_iff.1 hx with hx | ⟨-, hx⟩
      · exact .inl (hknown g hg x hx)
      · exact .inr ⟨rfl, Chore.completed?_dropAll hx⟩
    · exact ⟨hsettled hnone, fun heq => absurd heq (by simp)⟩

/-- The resolver of a read of several keys resolves those whose flights the read has begun. -/
private theorem Reading.resolves (h : Reading (.many ks) before mid after d₀ d₁ d₂ c)
    (hne : c.owned ≠ []) : d₂.Resolves d₁.next c.owned
      (d₁.talk d₁.next (.own (.advance d₀.next) :: after)) := by
  have hsingle : c.single = false := h.registering.single
  have hq₀ : (c.resolver? : Option (Resolver κ ν)) = some (.asking [] (.readMany c.owned)) := by
    cases howned : c.owned with
    | nil => exact absurd howned hne
    | cons g gs => simp only [Caller.resolver?, hsingle, howned]
  obtain ⟨done, r, hcourse⟩ := h.course hq₀ rfl
  exact hcourse.resolves h.nodup_promises

/-- A read of several keys, at any moment after its resolver was started. Each of its keys was
registered once: it joined the flight of those that were in one, and began a flight for each of the
others. If there are such, its resolver resolves just these, otherwise it has none. The caller has a
result as soon as all outcomes are there, which they are once the flights of its keys have ended; it
is an aggregate with one error for each key if there are keys and all of them have failed, and
otherwise exactly the values of its keys, in whatever order the keys are gone through. -/
theorem bulk_read (h : Reading (.many ks) before mid after d₀ d₁ d₂ c) :
    ((c.pending.map Prod.fst).Nodup ∧ ∀ k, k ∈ c.pending.map Prod.fst ↔ k ∈ ks) ∧
    (∀ q ∈ c.pending, Found (d₀.call (.many ks)) d₀.next mid c.owned q) ∧
    ((c.owned.map Guard.key).Nodup ∧ ∀ g ∈ c.owned, (g.key, g.promise) ∈ c.pending) ∧
    (c.owned = [] → ∀ d, d₁.step? (.advance d₀.next) = some d → d.resolvers = d₁.resolvers) ∧
    (c.owned ≠ [] →
      d₂.Resolves d₁.next c.owned (d₁.talk d₁.next (.own (.advance d₀.next) :: after)) ∧
      (.torn ∈ d₁.talk d₁.next (.own (.advance d₀.next) :: after) →
        .own (.tear d₁.next) ∈ after)) ∧
    ∀ c', d₂.callers[d₀.next]? = some c' →
      ((d₂.result? d₀.next).isSome ↔ ∀ q ∈ c.pending, (d₂.flights.outcome? q.2).isSome) ∧
      ((∀ m, ∀ g ∈ d₂.held m, ∀ q ∈ c.pending, g.promise ≠ q.2) →
        (d₂.result? d₀.next).isSome) ∧
      ∀ x, d₂.result? d₀.next = some x → ∃ (o : κ → Outcome (Option ν)) (m : _),
        (∀ q ∈ c.pending, d₂.flights.outcome? q.2 = some (o q.1)) ∧ x = .many m ∧
        Gathered (c.pending.map Prod.fst) o m ∧
        ∀ batch, batch.Perm ((c.pending.map Prod.fst).map fun k => (k, o k)) →
          Gathered (c.pending.map Prod.fst) o (gatherPresent false batch) := by
  have hreg := h.registering
  refine ⟨⟨hreg.nodup, fun k => ?_⟩, hreg.found, ⟨h.nodup_keys, hreg.owned⟩, ?_, ?_, ?_⟩
  · obtain ⟨seen, hkeys, hseen⟩ := hreg.keys
    rw [h.todo, List.append_nil] at hkeys
    rw [hseen]
    exact hkeys ▸ .rfl
  · intro hnone d hd
    obtain rfl := Option.some.inj ((step?_eq_some_iff.2 h.start).symm.trans hd)
    simp [Delegate.startResolver, Caller.resolver?, hnone]
  · intro hne
    refine ⟨h.resolves hne, fun htorn => ?_⟩
    exact (List.mem_cons.1 (tear_mem_of_torn_mem_talk htorn)).resolve_left (by simp)
  · intro c' hc'
    obtain rfl := h.waiter hc'
    have hresult := result?_eq_many hc' rfl (hreg.single : c.single = false)
    -- The outcomes of the promises are there together, key by key.
    have hgathered : ∀ o : κ → Outcome (Option ν),
        (∀ q ∈ c.pending, d₂.flights.outcome? q.2 = some (o q.1)) →
        d₂.result? d₀.next = some (.many (gatherPresent false
          ((c.pending.map Prod.fst).map fun k => (k, o k)))) := by
      intro o ho
      rw [hresult, outcomes?_eq_some ho, List.map_map]
      rfl
    have hall : (d₂.result? d₀.next).isSome →
        ∀ q ∈ c.pending, (d₂.flights.outcome? q.2).isSome := by
      intro hsome q hq
      rw [hresult, Option.isSome_map] at hsome
      obtain ⟨batch, hbatch⟩ := Option.isSome_iff_exists.1 hsome
      obtain ⟨o, ho, -⟩ := outcome?_of_outcomes? hbatch q hq
      exact Option.isSome_iff_exists.2 ⟨o, ho⟩
    -- With all outcomes there the caller folds them into an answer.
    have hresult? : (∀ q ∈ c.pending, (d₂.flights.outcome? q.2).isSome) →
        (d₂.result? d₀.next).isSome := by
      intro hsome
      obtain ⟨o, ho⟩ := exists_outcomes hreg.nodup hsome
      rw [hgathered o ho]
      rfl
    refine ⟨⟨hall, hresult?⟩, fun hended => hresult? fun q hq => ?_, fun x hx => ?_⟩
    · refine h.inv_after.guarded.settled_of_no_guard ?_ fun m g hg => hended m g hg q hq
      exact (h.inv_after.caller hc').pending_lt q hq
    · obtain ⟨o, ho⟩ := exists_outcomes hreg.nodup (hall (Option.isSome_iff_exists.2 ⟨x, hx⟩))
      exact ⟨o, _, ho, Option.some.inj (hx.symm.trans (hgathered o ho)),
        gathered_gatherPresent hreg.nodup .rfl, fun _ => gathered_gatherPresent hreg.nodup⟩

end

/-- A read of key 1 that has started its resolver. -/
def firstRead : List (Event Nat Nat) :=
  [.own (.call (.one 1)), .own (.advance 0), .own (.advance 0)]

/-- What happens after the resolver of a read of 2, 1, 2 and 3 was started, while key 1 is being
read by the other resolver: the cache has 3, the loader has nothing for 1, and it breaks off for 2.
-/
def partlyFailing : List (Event Nat Nat) :=
  [.own (.ask 3), .own (.reply 3 (.readMany (.ok ((∅ : Std.HashMap Nat Nat).insert 3 30)))),
    .own (.chore 3), .own (.chore 3), .own (.chore 3), .own (.ask 3), .own (.ask 1),
    .own (.reply 1 (.read (.ok none))), .own (.ask 1),
    .own (.reply 1 (.load (.answered (.ok none)))), .own (.chore 1),
    .own (.reply 3 (.loadMany (.brokeAtCall (some "boom")))), .own (.chore 3)]

/-- The read gets the value of 3, although loading 2 has failed. -/
theorem bulk_read_partlyFailing : ∃ (d₀ d₁ d₂ : Delegate Nat Nat) (c : Caller Nat),
    Reading (.many [2, 1, 2, 3]) firstRead
      [.own (.advance 2), .own (.advance 2), .own (.advance 2), .own (.advance 2)] partlyFailing
      d₀ d₁ d₂ c ∧
    ∃ m : Std.HashMap Nat Nat, d₂.result? d₀.next = some (.many (.ok m)) ∧
      ∀ k v, m[k]? = some v ↔ k = 3 ∧ v = 30 := by
  have hview : ((run? {} firstRead).map fun d : Delegate Nat Nat => d.next) = some 2 := by cbv
  obtain ⟨d₀, hd₀, hnext⟩ := Option.map_eq_some_iff.1 hview
  have hview : ((run? {} (firstRead ++ .own (.call (.many [2, 1, 2, 3])) ::
      [.own (.advance 2), .own (.advance 2), .own (.advance 2), .own (.advance 2)])).map
      fun d : Delegate Nat Nat => d.callers[2]?) =
      some (some ⟨false, [], [(2, 1), (1, 0), (3, 2)], [⟨2, 1⟩, ⟨3, 2⟩], false⟩) := by cbv
  obtain ⟨d₁, hd₁, hcaller⟩ := Option.map_eq_some_iff.1 hview
  have hview : ((run? {} ((firstRead ++ .own (.call (.many [2, 1, 2, 3])) ::
      [.own (.advance 2), .own (.advance 2), .own (.advance 2), .own (.advance 2)]) ++
      .own (.advance 2) :: partlyFailing)).map fun d : Delegate Nat Nat =>
      (d.callers[2]?.isSome, d.flights.outcome? 0, d.flights.outcome? 1, d.flights.outcome? 2)) =
      some (true, some (.ok none), some (.error (.loader "boom")), some (.ok (some 30))) := by
    cbv
  rw [run?_append, hd₁, Option.bind_some] at hview
  obtain ⟨d₂, hd₂, hview⟩ := Option.map_eq_some_iff.1 hview
  simp only [Prod.mk.injEq, Option.isSome_iff_exists] at hview
  obtain ⟨⟨c', hc'⟩, hout₀, hout₁, hout₂⟩ := hview
  rw [run?_append, hd₀, Option.bind_some] at hd₁
  have h : Reading (.many [2, 1, 2, 3]) firstRead
      [.own (.advance 2), .own (.advance 2), .own (.advance 2), .own (.advance 2)] partlyFailing
      d₀ d₁ d₂ ⟨false, [], [(2, 1), (1, 0), (3, 2)], [⟨2, 1⟩, ⟨3, 2⟩], false⟩ :=
    ⟨hd₀, hd₁, hnext.symm ▸ hcaller, rfl, rfl, hnext.symm ▸ hd₂⟩
  obtain ⟨-, -, -, -, -, hlast⟩ := bulk_read h
  obtain ⟨hthere, -, hgets⟩ := hlast c' (hnext.symm ▸ hc')
  -- All outcomes are there, so that the read has a result.
  obtain ⟨x, hx⟩ := Option.isSome_iff_exists.1 (hthere.2 (by simp [hout₀, hout₁, hout₂]))
  obtain ⟨o, m, ho, rfl, hm, -⟩ := hgets x hx
  simp only [List.mem_cons, List.not_mem_nil, or_false, forall_eq_or_imp, forall_eq, hout₀, hout₁,
    hout₂, Option.some.injEq] at ho
  obtain ⟨ho₂, ho₁, ho₃⟩ := ho
  refine ⟨d₀, d₁, d₂, _, h, ?_⟩
  cases hm with
  | failed errors hne herrors =>
    -- Key 3 has a value, so that not all of them have failed.
    have hmem : o 3 ∈ errors.map Except.error := herrors.mem_iff.2 (by simp)
    obtain ⟨e, -, he⟩ := List.mem_map.1 hmem
    rw [← ho₃] at he
    cases he
  | values m hok hm =>
    refine ⟨m, hx, fun k v => ?_⟩
    rw [hm]
    constructor
    · rintro ⟨hk, hv⟩
      simp only [List.map_cons, List.map_nil, List.mem_cons, List.not_mem_nil, or_false] at hk
      -- Key 2 has failed, key 1 has no value.
      rcases hk with rfl | rfl | rfl
      · rw [← ho₂] at hv
        cases hv
      · rw [← ho₁] at hv
        cases hv
      · rw [← ho₃] at hv
        exact ⟨rfl, (Option.some.inj (Except.ok.inj hv)).symm⟩
    · rintro ⟨rfl, rfl⟩
      exact ⟨by simp, ho₃.symm⟩

end Delegate

end CacheLayer
