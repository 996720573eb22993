import CacheLayer.Proofs.Loading.Talk
/-!
# Callers that go away

A caller that only waits may go away at any moment: before its key is read from the cache, while it
is loaded, or while it is written back. Resolvers go on whether or not anybody waits for them. So
nobody can tell whether callers went away or stayed to the end: not the cache and the loader, which
are asked the same questions in the same order, and not the other callers, which get the same
results at the same moments.

Two runs are compared event by event, the departures of the callers in question left out. The state
of the one is that of the other without some callers that only waited.

## Key results

- `Delegate.Deserted.after?`: the same can happen with and without the callers that went away
- `Delegate.Deserted.run?`: a run with departures shows what the run without them shows
- `Delegate.departures_unseen`: what holds of all runs and all sets of callers
-/

namespace CacheLayer

variable {κ ν : Type} [BEq κ] [Hashable κ]

/-- What is related to something is something. -/
private theorem exists_of_rel {α β : Type} {r : α → β → Prop} {a : α} {b? : Option β}
    (h : Option.Rel r (some a) b?) : ∃ b, b? = some b ∧ r a b := by
  cases h with
  | some hab => exact ⟨_, rfl, hab⟩

/-- What something is related to is something. -/
private theorem isSome_of_rel {α β : Type} {r : α → β → Prop} {a? : Option α} {b : β}
    (h : Option.Rel r a? (some b)) : a?.isSome := by
  cases h with
  | some hab => rfl

namespace Delegate

/-! ## What is seen of a run -/

/-- Whether in an event a caller of a set goes away. -/
def Event.departs (among : Nat → Bool) : Event κ ν → Bool
  | .own (.leave i) => among i
  | _ => false

/-- The events of a run without the departures of the callers of a set. -/
def staying (among : Nat → Bool) (es : List (Event κ ν)) : List (Event κ ν) :=
  es.filter fun e => !e.departs among

/-- What passes between a delegate and its cache and loader. -/
inductive Contact (κ ν : Type) [BEq κ] [Hashable κ] where
  /-- Something is said with a resolver: it asks, it is told a reply, or it is torn down. -/
  | said (resolver : Nat) (line : Line κ ν)
  /-- A write, delete or update of a caller is handed to the cache. -/
  | handedOn

/-- What passes between a delegate and its cache and loader in an event. -/
def contact? (d : Delegate κ ν) : Event κ ν → Option (Contact κ ν)
  | .own s => s.resolver?.bind fun j => (d.lineOf? j (.own s)).map (.said j)
  | .handOn => some .handedOn

/-- What is seen of an event, if the callers of a set are not asked. -/
structure Seen (κ ν : Type) [BEq κ] [Hashable κ] where
  contact? : Option (Contact κ ν)
  /-- The keys in flight and the promises after the event. -/
  flights : Flights κ (Option ν)
  stats : LoadingStats
  /-- The results of the other callers that are there after the event. -/
  result? : Nat → Option (ReadResult κ ν)

/-- What is seen of an event that leads to a delegate. -/
def seen (among : Nat → Bool) (d : Delegate κ ν) (e : Event κ ν) (d' : Delegate κ ν) :
    Seen κ ν where
  contact? := d.contact? e
  flights := d'.flights
  stats := d'.stats
  result? i := if among i then none else d'.result? i

/-- What is seen of a run, event by event. The departures of the callers of a set are not seen. -/
def history (among : Nat → Bool) (d : Delegate κ ν) : List (Event κ ν) → List (Seen κ ν)
  | [] => []
  | e :: es =>
    match d.after? e with
    | none => []
    | some d' =>
      if e.departs among then d'.history among es
      else seen among d e d' :: d'.history among es

/-! ## Delegates that some callers have left -/

/-- Whether some callers have left that only waited, and nothing else has changed. -/
def Fewer (among : Nat → Bool) (callers callers' : Std.HashMap Nat (Caller κ)) : Prop :=
  ∀ i : Nat, callers[i]? = callers'[i]? ∨
    among i = true ∧ callers[i]? = none ∧ ∃ c, callers'[i]? = some c ∧ c.waiting = true

variable {among : Nat → Bool}

omit [BEq κ] [Hashable κ] in
theorem Fewer.insert {callers callers' : Std.HashMap Nat (Caller κ)}
    (h : Fewer among callers callers') (i : Nat) (c : Caller κ) :
    Fewer among (callers.insert i c) (callers'.insert i c) := by
  intro j
  rw [get_insert, get_insert]
  split
  · exact .inl rfl
  · exact h j

omit [BEq κ] [Hashable κ] in
theorem Fewer.erase {callers callers' : Std.HashMap Nat (Caller κ)}
    (h : Fewer among callers callers') (i : Nat) :
    Fewer among (callers.erase i) (callers'.erase i) := by
  intro j
  rw [Std.HashMap.getElem?_erase, Std.HashMap.getElem?_erase]
  split
  · exact .inl rfl
  · exact h j

/-- Whether a delegate is another one that some callers of a set have left. -/
structure Deserted (among : Nat → Bool) (d d' : Delegate κ ν) : Prop where
  flights : d.flights = d'.flights
  resolvers : d.resolvers = d'.resolvers
  callers : Fewer among d.callers d'.callers
  next : d.next = d'.next
  stats : d.stats = d'.stats

namespace Deserted

variable {d d' : Delegate κ ν}

theorem refl (among : Nat → Bool) (d : Delegate κ ν) : Deserted among d d :=
  ⟨rfl, rfl, fun _ => .inl rfl, rfl, rfl⟩

/-- A caller that is still there gets what it would get if nobody had left. -/
theorem result?_eq (h : Deserted among d d') {i : Nat} (hi : among i = false) :
    d.result? i = d'.result? i := by
  have hcaller : d.callers[i]? = d'.callers[i]? := by
    rcases h.callers i with heq | ⟨hleft, -⟩
    · exact heq
    · rw [hi] at hleft
      cases hleft
  rw [result?, result?, hcaller, h.flights]

/-- What passes between a delegate and its cache and loader is a matter of its resolvers. -/
theorem contact?_eq (h : Deserted among d d') (e : Event κ ν) : d.contact? e = d'.contact? e := by
  cases e with
  | handOn => rfl
  | own s => cases s <;> simp only [contact?, lineOf?, h.resolvers]

/-- Nobody but the callers of the set can tell the two apart. -/
theorem seen_eq (h : Deserted among d d') (e : Event κ ν) {d₁ d₁' : Delegate κ ν}
    (h₁ : Deserted among d₁ d₁') : seen among d e d₁ = seen among d' e d₁' := by
  have hresults : (fun i => if among i then none else d₁.result? i) =
      fun i => if among i then none else d₁'.result? i := by
    funext i
    cases hi : among i with
    | true => rfl
    | false => rw [h₁.result?_eq hi]
  rw [seen, seen, h.contact?_eq e, h₁.flights, h₁.stats, hresults]

/-- The next step of a caller that has not left. -/
private theorem advance (h : Deserted among d d') (i : Nat) (c : Caller κ) :
    Deserted among (d.advance i c) (d'.advance i c) := by
  obtain ⟨flights, resolvers, callers, next, stats⟩ := d
  obtain ⟨flights', resolvers', callers', next', stats'⟩ := d'
  obtain ⟨rfl, rfl, hcallers, rfl, rfl⟩ := h
  simp only at hcallers
  unfold Delegate.advance
  split
  · next k todo ht =>
    simp only [Delegate.register]
    split
    · exact ⟨rfl, rfl, hcallers.insert i _, rfl, rfl⟩
    · exact ⟨rfl, rfl, hcallers.insert i _, rfl, rfl⟩
  · simp only [Delegate.startResolver]
    split
    · exact ⟨rfl, rfl, hcallers.insert i _, rfl, rfl⟩
    · exact ⟨rfl, rfl, hcallers.insert i _, rfl, rfl⟩

/-- A step of a caller can happen in both delegates or in neither, unless the caller goes away and
may have done so already. -/
private theorem stepCaller? (h : Deserted among d d') {i : Nat} {leaves : Bool}
    (hi : leaves = true → among i = false) :
    Option.Rel (Deserted among) (d.stepCaller? i leaves) (d'.stepCaller? i leaves) := by
  rcases h.callers i with heq | ⟨hleft, hnone, c, hc, hw⟩
  · simp only [Delegate.stepCaller?, heq]
    cases d'.callers[i]? with
    | none => exact .none
    | some c =>
      cases leaves <;> cases hw : c.waiting <;> simp only [hw]
      · exact .some (h.advance i c)
      · exact .none
      · exact .none
      · exact .some ⟨h.flights, h.resolvers, h.callers.erase i, h.next, h.stats⟩
  · -- The caller has left in the one, and only waits in the other.
    cases leaves with
    | true => exact absurd (hi rfl) (by simp [hleft])
    | false =>
      simp only [Delegate.stepCaller?, hnone, hc, hw]
      exact .none

/-- The same can happen with and without the callers that have left. -/
theorem after? (h : Deserted among d d') {e : Event κ ν} (he : e.departs among = false) :
    Option.Rel (Deserted among) (d.after? e) (d'.after? e) := by
  cases e with
  | handOn => exact .some h
  | own s =>
    have hwith := h
    obtain ⟨flights, resolvers, callers, next, stats⟩ := d
    obtain ⟨flights', resolvers', callers', next', stats'⟩ := d'
    obtain ⟨rfl, rfl, hcallers, rfl, rfl⟩ := h
    simp only at hcallers
    -- A site does not look at the callers, so that it takes the same steps; a caller that is still
    -- there is there in both.
    cases s with
    | call r => exact .some ⟨rfl, rfl, hcallers.insert _ _, rfl, rfl⟩
    | advance i => exact hwith.stepCaller? nofun
    | leave i => exact hwith.stepCaller? fun _ => he
    | chore i =>
      simp only [Delegate.after?, step?]
      split
      · exact .some ⟨rfl, rfl, hcallers, rfl, rfl⟩
      · exact .none
    | ask i =>
      simp only [Delegate.after?, step?]
      split
      · exact .some ⟨rfl, rfl, hcallers, rfl, rfl⟩
      · exact .none
    | reply i answer =>
      simp only [Delegate.after?, step?]
      split
      · next q hr =>
        cases Resolver.resume q answer with
        | none => exact .none
        | some r => exact .some ⟨rfl, rfl, hcallers, rfl, rfl⟩
      · exact .none
    | tear i =>
      simp only [Delegate.after?, step?]
      split
      · exact .some ⟨rfl, rfl, hcallers, rfl, rfl⟩
      · exact .none

/-- When a caller goes away, what is left behind is a delegate that one more caller has left. -/
theorem depart (h : Deserted among d d') {e : Event κ ν} (he : e.departs among = true)
    {d₁ : Delegate κ ν} (hafter : d.after? e = some d₁) : Deserted among d₁ d' := by
  cases e with
  | handOn => cases he
  | own s =>
    cases s with
    | leave i =>
      have hstep : d.step? (.leave i) = some d₁ := hafter
      cases moves_of_step? hstep with
      | leave _ c hc hw =>
        refine ⟨h.flights, h.resolvers, fun j => ?_, h.next, h.stats⟩
        simp only [Delegate.leave, Std.HashMap.getElem?_erase, beq_iff_eq]
        -- The one that leaves is in `d` no longer, and in the other delegate it waits for ever.
        by_cases hij : i = j
        · subst hij
          have hthere : d'.callers[i]? = some c := by
            rcases h.callers i with heq | ⟨-, hnone, -⟩
            · rw [← heq, hc]
            · rw [hc] at hnone
              cases hnone
          exact .inr ⟨he, if_pos rfl, c, hthere, hw⟩
        · rw [if_neg hij]
          exact h.callers j
    | _ => cases he

/-! ## Runs -/

/-- A run in which nobody of the set goes away can happen in both delegates or in neither. -/
theorem run?_of_staying (h : Deserted among d d') {es : List (Event κ ν)}
    (hes : ∀ e ∈ es, e.departs among = false) :
    Option.Rel (Deserted among) (d.run? es) (d'.run? es) := by
  induction es generalizing d d' with
  | nil => exact .some h
  | cons e es ih =>
    obtain ⟨he, hes⟩ := List.forall_mem_cons.1 hes
    have hafter := h.after? he
    rw [Delegate.run?, Delegate.run?]
    generalize d.after? e = d₁? at hafter
    generalize d'.after? e = d₁'? at hafter
    cases hafter with
    | none => exact .none
    | some h₁ => exact ih h₁ hes

/-- A run with departures can happen without them as well, and shows the same. -/
theorem run? (h : Deserted among d d') {es : List (Event κ ν)} {d₁ : Delegate κ ν}
    (hrun : d.run? es = some d₁) :
    ∃ d₁', d'.run? (staying among es) = some d₁' ∧ Deserted among d₁ d₁' ∧
      d.history among es = d'.history among (staying among es) := by
  -- By events: a departure is left out, every other one happens in both delegates.
  induction es generalizing d d' with
  | nil =>
    obtain rfl := Option.some.inj hrun
    exact ⟨d', rfl, h, rfl⟩
  | cons e es ih =>
    obtain ⟨d₂, hafter, hrest⟩ := Option.bind_eq_some_iff.1 hrun
    cases he : e.departs among with
    | true =>
      -- Nothing is seen of a departure, and the other delegate waits for the next event.
      obtain ⟨d₁', hrun', hd₁, hhistory⟩ := ih (h.depart he hafter) hrest
      have hstaying : staying among (e :: es) = staying among es :=
        List.filter_cons_of_neg (by simp [he])
      rw [hstaying, history, hafter]
      simp only [he, if_true]
      exact ⟨d₁', hrun', hd₁, hhistory⟩
    | false =>
      have hstaying : staying among (e :: es) = e :: staying among es :=
        List.filter_cons_of_pos (by simp [he])
      obtain ⟨d₂', hafter', h₂⟩ := exists_of_rel (hafter ▸ h.after? he)
      obtain ⟨d₁', hrun', hd₁, hhistory⟩ := ih h₂ hrest
      refine ⟨d₁', ?_, hd₁, ?_⟩
      · rw [hstaying, Delegate.run?, hafter']
        exact hrun'
      · rw [hstaying, history, history, hafter, hafter']
        simp only [he, Bool.false_eq_true, if_false]
        rw [h.seen_eq e h₂, hhistory]

end Deserted

/-- What is seen of a run has an entry for every event but the departures. -/
theorem length_history {d d' : Delegate κ ν} {es : List (Event κ ν)} (hrun : d.run? es = some d') :
    (history among d es).length = (staying among es).length := by
  induction es generalizing d with
  | nil => rfl
  | cons e es ih =>
    obtain ⟨d₁, hafter, hrest⟩ := Option.bind_eq_some_iff.1 hrun
    rw [history, hafter]
    cases he : e.departs among with
    | true =>
      rw [staying, List.filter_cons_of_neg (by simp [he])]
      exact ih hrest
    | false =>
      rw [staying, List.filter_cons_of_pos (by simp [he])]
      exact congrArg (· + 1) (ih hrest)

/-- A caller that only waits may go away in any run in which it does not do so later. -/
theorem exists_run?_of_leave {d d₁ d₂ : Delegate κ ν} {es₁ es₂ : List (Event κ ν)} {i : Nat}
    {c : Caller κ} (h₁ : d.run? es₁ = some d₁) (hc : d₁.callers[i]? = some c)
    (hw : c.waiting = true) (h₂ : d₁.run? es₂ = some d₂) (hes₂ : .own (.leave i) ∉ es₂) :
    ∃ d', d.run? (es₁ ++ .own (.leave i) :: es₂) = some d' := by
  have hleave : d₁.after? (.own (.leave i)) = some (d₁.leave i) :=
    step?_eq_some_iff.2 (.leave i c hc hw)
  have hdeparts : (.own (.leave i) : Event κ ν).departs (fun j => decide (j = i)) = true :=
    decide_eq_true rfl
  have hdeserted := (Deserted.refl _ d₁).depart hdeparts hleave
  -- Nobody else departs, so that the later events can all still happen.
  have hstays : ∀ e ∈ es₂, e.departs (fun j => decide (j = i)) = false := by
    intro e he
    cases e with
    | handOn => rfl
    | own s =>
      cases s with
      | leave j => exact decide_eq_false fun hj => hes₂ (hj ▸ he)
      | _ => rfl
  have hrest := hdeserted.run?_of_staying hstays
  rw [h₂] at hrest
  obtain ⟨d', hd'⟩ := Option.isSome_iff_exists.1 (isSome_of_rel hrest)
  refine ⟨d', ?_⟩
  rw [run?_append, h₁, Option.bind_some, run?, hleave, Option.bind_some, hd']

/-- Callers that go away change nothing for anybody else, whichever callers these are and whenever
they go. If they stay to the end, the same can happen; and of any two runs that only differ in their
departures the same is seen: event by event what the cache and the loader are asked and told, the
flights, the counters and the results of all other callers. Whoever only waits may go away at any
moment. -/
theorem departures_unseen (among : Nat → Bool) {es : List (Event κ ν)} {d : Delegate κ ν}
    (hrun : ({} : Delegate κ ν).run? es = some d) :
    (∃ d', ({} : Delegate κ ν).run? (staying among es) = some d') ∧
    (∀ (es' : List (Event κ ν)) (d' : Delegate κ ν), ({} : Delegate κ ν).run? es' = some d' →
      staying among es' = staying among es → history among {} es' = history among {} es) ∧
    (history among {} es).length = (staying among es).length ∧
    ∀ (es₁ es₂ : List (Event κ ν)) (d₁ : Delegate κ ν) (i : Nat) (c : Caller κ),
      es = es₁ ++ es₂ → ({} : Delegate κ ν).run? es₁ = some d₁ → d₁.callers[i]? = some c →
      c.waiting = true → .own (.leave i) ∉ es₂ →
      ∃ d', ({} : Delegate κ ν).run? (es₁ ++ .own (.leave i) :: es₂) = some d' := by
  obtain ⟨d₀, hstay, -, hhistory⟩ := (Deserted.refl among {}).run? hrun
  refine ⟨⟨d₀, hstay⟩, fun es' d' hrun' hsame => ?_, length_history hrun, ?_⟩
  · obtain ⟨-, -, -, hhistory'⟩ := (Deserted.refl among {}).run? hrun'
    rw [hhistory, hhistory', hsame]
  · intro es₁ es₂ d₁ i c hes h₁ hc hw hes₂
    rw [hes, run?_append, h₁] at hrun
    exact exists_run?_of_leave h₁ hc hw hrun hes₂

/-- Two reads of key 1, and one of the keys 1 and 2. The third caller goes away while key 2, which
it owns, is loaded, the first one while key 1 is written back. -/
def leftAlone : List (Event Nat Nat) :=
  [.own (.call (.one 1)), .own (.call (.one 1)), .own (.call (.many [1, 2])), .own (.advance 0),
    .own (.advance 0), .own (.advance 1), .own (.advance 1), .own (.advance 2), .own (.advance 2),
    .own (.advance 2), .own (.ask 3), .own (.reply 3 (.read (.ok none))), .own (.ask 3),
    .own (.ask 4), .own (.reply 4 (.readMany (.error (.backend "down")))), .own (.ask 4),
    .own (.leave 2), .own (.reply 3 (.load (.answered (.ok (some 10))))), .own (.chore 3),
    .own (.ask 3), .own (.leave 0), .handOn, .own (.reply 4 (.loadMany (.brokeLater none))),
    .own (.chore 4), .own (.reply 3 (.written (.ok ()))), .own (.chore 3), .own (.chore 3),
    .own (.chore 4), .own (.chore 4)]

/-- The second caller gets what the first one has had loaded, and the same is seen as if both others
had stayed. -/
theorem departures_unseen_leftAlone :
    ∃ d d' : Delegate Nat Nat, run? {} leftAlone = some d ∧
      (d.callers[0]?.isNone ∧ d.callers[2]?.isNone ∧ d.flights.registry[1]?.isNone ∧
        d.result? 1 = some (.one (.ok (some 10)))) ∧
      run? {} (staying (fun i => i != 1) leftAlone) = some d' ∧
      history (fun i => i != 1) {} (staying (fun i => i != 1) leftAlone) =
        history (fun i => i != 1) {} leftAlone := by
  have hview : ((run? {} leftAlone).map fun d => (d.callers[0]?.isNone, d.callers[2]?.isNone,
      d.flights.registry[1]?.isNone, d.result? 1)) =
      some (true, true, true, some (.one (.ok (some 10)))) := by cbv
  obtain ⟨d, hd, hview⟩ := Option.map_eq_some_iff.1 hview
  simp only [Prod.mk.injEq] at hview
  obtain ⟨⟨d', hd'⟩, hsame, -⟩ := departures_unseen (fun i => i != 1) hd
  -- The run without departures has none to leave out.
  have hagain : staying (fun i => i != 1) (staying (fun i => i != 1) leftAlone) =
      staying (fun i => i != 1) leftAlone := rfl
  exact ⟨d, d', hd, hview, hd', hsame _ d' hd' hagain⟩

end Delegate

end CacheLayer
