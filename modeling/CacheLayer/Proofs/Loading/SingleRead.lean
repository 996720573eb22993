import CacheLayer.Proofs.Loading.Reading
/-!
# Reading one key

The resolver of one key goes through a few stages, whatever the cache and the loader reply. When it
is through, its talk is one of six, and the talk tells the outcome that everybody who has waited for
the flight gets: those who began or joined it before there was an outcome, and those who joined it
while the value was being written back.

## Key results

- `Resolver.Stage.of_talk`: the resolver is in one of the stages
- `single_read`: the outcome of a flight, and who gets it
-/

namespace CacheLayer

variable {κ ν : Type} [BEq κ] [Hashable κ]

namespace Resolver

/-- The talks of a resolver of one key that comes to its end, each with its outcome. The cache is
asked first. If it does not have the value, be it that it fails, the loader is called once. Only a
value that is loaded is written to the cache, and however the write ends, the outcome is the
value. -/
inductive Resolution (g : Guard κ) : List (Line κ ν) → Outcome (Option ν) → Prop where
  | cached (v : ν) :
    Resolution g [.asked (.read g), .told (.read (.ok (some v)))] (.ok (some v))
  | loaded {r : Outcome (Option ν)} (hr : ∀ v, r ≠ .ok (some v)) (v : ν) (w : Outcome Unit) :
    Resolution g [.asked (.read g), .told (.read r), .asked (.load g),
      .told (.load (.answered (.ok (some v)))), .asked (.write g v), .told (.written w)]
      (.ok (some v))
  | absent {r : Outcome (Option ν)} (hr : ∀ v, r ≠ .ok (some v)) :
    Resolution g [.asked (.read g), .told (.read r), .asked (.load g),
      .told (.load (.answered (.ok none)))] (.ok none)
  | failed {r : Outcome (Option ν)} (hr : ∀ v, r ≠ .ok (some v)) (e : CacheError) :
    Resolution g [.asked (.read g), .told (.read r), .asked (.load g),
      .told (.load (.answered (.error e)))] (.error e)
  | brokeAtCall {r : Outcome (Option ν)} (hr : ∀ v, r ≠ .ok (some v)) (m : Option String) :
    Resolution g [.asked (.read g), .told (.read r), .asked (.load g),
      .told (.load (.brokeAtCall m))] (.error (.loader (LoadEnd.reason m)))
  | brokeLater {r : Outcome (Option ν)} (hr : ∀ v, r ≠ .ok (some v)) (m : Option String) :
    Resolution g [.asked (.read g), .told (.read r), .asked (.load g),
      .told (.load (.brokeLater m))]
      (.error (.contractViolation ("loader future panicked: " ++ LoadEnd.reason m)))

/-- The stages of a resolver of one key, as in `Talk`. -/
inductive Stage (g : Guard κ) : List (Line κ ν) → List (Chore κ (Option ν)) →
    Option (Question κ ν) → Bool → Prop where
  | fresh : Stage g [] [] (some (.read g)) false
  | reading : Stage g [.asked (.read g)] [] (some (.read g)) true
  | cached (v : ν) : Stage g [.asked (.read g), .told (.read (.ok (some v)))]
    (Chore.resolve g (.ok (some v))) none false
  | missed {r : Outcome (Option ν)} (hr : ∀ v, r ≠ .ok (some v)) :
    Stage g [.asked (.read g), .told (.read r)] [] (some (.load g)) false
  | loading {r : Outcome (Option ν)} (hr : ∀ v, r ≠ .ok (some v)) :
    Stage g [.asked (.read g), .told (.read r), .asked (.load g)] [] (some (.load g)) true
  | unloaded {r : Outcome (Option ν)} (hr : ∀ v, r ≠ .ok (some v)) {l : LoadEnd (Option ν)}
    (hl : ∀ v, l.outcome ≠ .ok (some v)) :
    Stage g [.asked (.read g), .told (.read r), .asked (.load g), .told (.load l)]
      (Chore.resolve g l.outcome) none false
  | loaded {r : Outcome (Option ν)} (hr : ∀ v, r ≠ .ok (some v)) {l : LoadEnd (Option ν)} {v : ν}
    (hl : l.outcome = .ok (some v)) :
    Stage g [.asked (.read g), .told (.read r), .asked (.load g), .told (.load l)]
      [.publish g (.ok (some v))] (some (.write g v)) false
  | writing {r : Outcome (Option ν)} (hr : ∀ v, r ≠ .ok (some v)) {l : LoadEnd (Option ν)} {v : ν}
    (hl : l.outcome = .ok (some v)) :
    Stage g [.asked (.read g), .told (.read r), .asked (.load g), .told (.load l),
      .asked (.write g v)] [.publish g (.ok (some v))] (some (.write g v)) true
  | written {r : Outcome (Option ν)} (hr : ∀ v, r ≠ .ok (some v)) {l : LoadEnd (Option ν)} {v : ν}
    (hl : l.outcome = .ok (some v)) (w : Outcome Unit) :
    Stage g [.asked (.read g), .told (.read r), .asked (.load g), .told (.load l),
      .asked (.write g v), .told (.written w)] (Chore.resolve g (.ok (some v))) none false
  | torn {said : List (Line κ ν)} (script : List (Chore κ (Option ν))) (htorn : .torn ∈ said) :
    Stage g said script none false

namespace Stage

variable {g : Guard κ} {said : List (Line κ ν)} {script : List (Chore κ (Option ν))}
  {question? : Option (Question κ ν)} {asked : Bool}

/-- A question that is there gets asked. -/
private theorem ask {q : Question κ ν} (h : Stage g said script (some q) false) :
    Stage g (said ++ [.asked q]) script (some q) true := by
  cases h with
  | fresh => exact .reading
  | missed hr => exact .loading hr
  | loaded hr hl => exact .writing hr hl

private theorem afterLoad_of_ne {o : Outcome (Option ν)} (ho : ∀ v, o ≠ .ok (some v)) :
    afterLoad g o = ending (Chore.resolve g o) := by
  rcases o with e | _ | v
  · rfl
  · rfl
  · exact absurd rfl (ho v)

/-- The reply to a question leads to the next stage. -/
private theorem reply {q : Question κ ν} {answer : Reply κ ν} {r : Resolver κ ν}
    (h : Stage g said script (some q) true) (hresume : resume q answer = some r) :
    Stage g (said ++ [.told answer]) (script ++ r.chores) r.question? r.asked := by
  -- At each stage the question says which kind of reply there may be.
  cases h with
  | reading =>
    cases answer <;> simp only [resume, Option.some.injEq, reduceCtorEq] at hresume
    case read answer =>
      subst hresume
      -- A read that fails counts as one that finds nothing.
      rcases answer with e | _ | v
      · exact .missed (by simp)
      · exact .missed (by simp)
      · exact .cached v
  | loading hr =>
    cases answer <;> simp only [resume, Option.some.injEq, reduceCtorEq] at hresume
    case load l =>
      subst hresume
      by_cases hl : ∀ v, l.outcome ≠ .ok (some v)
      · rw [afterLoad_of_ne hl]
        exact .unloaded hr hl
      · obtain ⟨v, hv⟩ := not_forall_not.1 hl
        rw [hv]
        exact .loaded hr hv
  | writing hr hl =>
    cases answer <;> simp only [resume, Option.some.injEq, reduceCtorEq] at hresume
    case written w =>
      subst hresume
      exact .written hr hl w

/-- Whatever the cache and the loader reply, the resolver is in one of the stages. -/
theorem of_talk (h : Talk (.read g) said script question? asked) :
    Stage g said script question? asked := by
  induction h with
  | start => exact .fresh
  | ask h ih => exact ih.ask
  | reply h hresume ih => exact ih.reply hresume
  | tear h ih => exact .torn _ (List.mem_append.2 (.inr (List.mem_singleton_self _)))

/-- A resolver that asks no more has resolved its key, and its script ends with the drop of its
guard. -/
theorem resolution (h : Stage g said script none asked) (htorn : .torn ∉ said) :
    ∃ o, Resolution g said o ∧ script = Chore.resolve g o := by
  cases h with
  | cached v => exact ⟨_, .cached v, rfl⟩
  | @unloaded r hr l hl =>
    refine ⟨_, ?_, rfl⟩
    -- Loading may fail to give a value in four ways.
    cases l with
    | answered o =>
      rcases o with e | _ | v
      · exact .failed hr e
      · exact .absent hr
      · exact absurd rfl (hl v)
    | brokeAtCall m => exact .brokeAtCall hr m
    | brokeLater m => exact .brokeLater hr m
  | @written r hr l v hl w =>
    refine ⟨_, ?_, rfl⟩
    cases l with
    | answered o =>
      obtain rfl : o = .ok (some v) := hl
      exact .loaded hr v w
    | brokeAtCall m => exact nomatch hl
    | brokeLater m => exact nomatch hl
  | torn script htorn' => exact absurd htorn' htorn

/-- While a resolver asks, it holds its guard. -/
theorem guards {q : Question κ ν} (h : Stage g said script (some q) asked) : q.guards = [g] := by
  cases h <;> rfl

end Stage

end Resolver

namespace Delegate

/-! ## Everybody gets the same -/

/-- Whoever waits for a promise gets nothing else than an outcome: a caller of one key gets it as it
is, a caller of several keys folds it into what it gets. -/
def OnlyGet (d : Delegate κ ν) (p : Nat) (o : Outcome (Option ν)) : Prop :=
  ∀ (i : Nat) (c : Caller κ), d.callers[i]? = some c → ∀ q ∈ c.pending, q.2 = p →
    (c.single = true → ∀ x, d.result? i = some x → x = .one o) ∧
    ∀ batch, outcomes? d.flights c.pending = some batch → (q.1, o) ∈ batch

/-- A caller of one key that waits for a promise waits for nothing else. -/
private theorem Inv.pending_eq {d : Delegate κ ν} (h : d.Inv) {i : Nat} {c : Caller κ}
    (hc : d.callers[i]? = some c) (hw : c.waiting = true) (hsingle : c.single = true) {q : κ × Nat}
    (hq : q ∈ c.pending) : c.pending = [q] := by
  have hlen := ((h.caller hc).single hsingle).1
  rw [(h.caller hc).todo_eq_nil hw, List.length_nil, Nat.zero_add] at hlen
  obtain ⟨q', hq'⟩ := List.length_eq_one_iff.1 hlen
  rw [hq', List.mem_singleton] at hq
  rw [hq', hq]

/-- Nobody gets an outcome that the promise does not have. -/
private theorem Inv.onlyGet {d : Delegate κ ν} (h : d.Inv) {p : Nat} {o : Outcome (Option ν)}
    (hp : ∀ o', d.flights.outcome? p = some o' → o' = o) : d.OnlyGet p o := by
  intro i c hc q hq hqp
  constructor
  · intro hsingle x hx
    obtain ⟨c', hc', hw⟩ := waiting_of_result? hx
    obtain rfl := Option.some.inj (hc.symm.trans hc')
    rw [result?_eq_one hc hw hsingle (h.pending_eq hc hw hsingle hq), hqp] at hx
    obtain ⟨o', ho', rfl⟩ := Option.map_eq_some_iff.1 hx
    rw [hp o' ho']
  · intro batch hbatch
    obtain ⟨o', ho', hmem⟩ := outcome?_of_outcomes? hbatch q hq
    rw [hqp] at ho'
    exact hp o' ho' ▸ hmem

section

variable [LawfulBEq κ] {k : κ} {before mid after : List (Event κ ν)} {d₀ d₁ d₂ : Delegate κ ν}
  {c : Caller κ} {g : Guard κ}

/-- A read of one key has registered it, and its flight is the only one that it may have begun. -/
private theorem Reading.owned_eq (h : Reading (.one k) before mid after d₀ d₁ d₂ c)
    (hg : g ∈ c.owned) :
    c.owned = [g] ∧ g.key = k ∧ c.pending = [(k, g.promise)] ∧ c.single = true := by
  have hreg := h.registering
  have hsingle : c.single = true := hreg.single
  have hsound := (h.inv_mid.caller h.caller).single hsingle
  rw [h.todo, List.length_nil, Nat.zero_add] at hsound
  obtain ⟨q, hq⟩ := List.length_eq_one_iff.1 hsound.1
  have hmem := hreg.owned g hg
  rw [hq, List.mem_singleton] at hmem
  -- The only key that was registered is that of the read.
  have hk : g.key = k := by
    obtain ⟨seen, hkeys, hseen⟩ := hreg.keys
    rw [h.todo, List.append_nil] at hkeys
    have hkey := (hseen g.key).1 (by rw [hq, ← hmem]; exact List.mem_singleton_self _)
    rw [← hkeys] at hkey
    exact List.mem_singleton.1 hkey
  obtain ⟨g', hg'⟩ : ∃ g', c.owned = [g'] := by
    refine List.length_eq_one_iff.1 (Nat.le_antisymm (hsound.1 ▸ hsound.2) ?_)
    exact List.length_pos_of_mem hg
  obtain rfl : g = g' := List.mem_singleton.1 (hg' ▸ hg)
  exact ⟨hg', hk, by rw [hq, ← hmem, hk], hsingle⟩

/-- The resolver of a read of one key is in one of its stages. -/
private theorem Reading.stage (h : Reading (.one k) before mid after d₀ d₁ d₂ c)
    (hg : g ∈ c.owned) : ∃ done r,
      Course d₂ d₁.next (.read g) (d₁.talk d₁.next (.own (.advance d₀.next) :: after)) done r ∧
      Resolver.Stage g (d₁.talk d₁.next (.own (.advance d₀.next) :: after)) (done ++ r.chores)
        r.question? r.asked := by
  obtain ⟨howned, -, -, hsingle⟩ := h.owned_eq hg
  have hq₀ : (c.resolver? : Option (Resolver κ ν)) = some (.asking [] (.read g)) := by
    simp only [Caller.resolver?, hsingle, howned]
  obtain ⟨done, r, hcourse⟩ := h.course hq₀ howned.symm
  exact ⟨done, r, hcourse, .of_talk hcourse.talk⟩

omit [LawfulBEq κ] in
/-- A resolver that is not torn down is not told so. -/
private theorem torn_notMem_talk {j i : Nat} {d : Delegate κ ν} {es : List (Event κ ν)}
    (htear : .own (.tear j) ∉ es) : .torn ∉ d.talk j (.own (.advance i) :: es) := by
  intro htorn
  rcases List.mem_cons.1 (tear_mem_of_torn_mem_talk htorn) with hstart | hafter
  · exact nomatch hstart
  · exact htear hafter

/-- While the resolver is there, its key is in flight. -/
private theorem Reading.register_eq (h : Reading (.one k) before mid after d₀ d₁ d₂ c)
    (hg : g ∈ c.owned) (htear : .own (.tear d₁.next) ∉ after)
    (hthere : (d₂.resolvers[d₁.next]?).isSome) :
    d₂.flights.register k = (.joined g.promise, d₂.flights) := by
  obtain ⟨-, hk, -, -⟩ := h.owned_eq hg
  obtain ⟨done, r, hcourse, hstage⟩ := h.stage hg
  have hover : r.isOver = false := by
    rw [hcourse.isOver_eq, ← Option.not_isSome, hthere]
    rfl
  -- The guard is held until the last chore of the script.
  have hheld : g ∈ r.guards := by
    rw [Resolver.guards_eq]
    obtain ⟨chores, question?, asked⟩ := r
    cases question? with
    | some q =>
      have hq : q.guards = [g] := hstage.guards
      simp [Resolver.later, hq]
    | none =>
      obtain ⟨o, -, hscript⟩ := hstage.resolution (torn_notMem_talk htear)
      refine List.mem_append.2 (.inl ?_)
      have hne : chores ≠ [] := by
        intro hnil
        subst hnil
        exact nomatch hover
      have hlast : (done ++ chores).getLast? = some (.remove g) := by
        rw [hscript]
        rfl
      rw [List.getLast?_append_of_ne_nil _ hne] at hlast
      have hmem := List.mem_of_getLast? hlast
      exact List.mem_filterMap.2 ⟨_, hmem, rfl⟩
  have hentry := h.inv_after.guarded.registry_of_mem (i := .resolver d₁.next)
    (hcourse.held_eq ▸ hheld)
  exact Flights.register_joined (hk ▸ hentry)

/-- A resolver that has come to its end has resolved its key, and the promise has the outcome. -/
private theorem Reading.resolution (h : Reading (.one k) before mid after d₀ d₁ d₂ c)
    (hg : g ∈ c.owned) (hend : d₂.resolvers[d₁.next]? = none)
    (htear : .own (.tear d₁.next) ∉ after) :
    ∃ o, Resolver.Resolution g (d₁.talk d₁.next (.own (.advance d₀.next) :: after)) o ∧
      d₂.flights.outcome? g.promise = some o := by
  obtain ⟨done, ⟨chores, question?, asked⟩, hcourse, hstage⟩ := h.stage hg
  have hover : Resolver.isOver ⟨chores, question?, asked⟩ = true := by
    rw [hcourse.isOver_eq, hend]
    rfl
  simp only [Resolver.isOver, Bool.and_eq_true, List.isEmpty_iff,
    Option.isNone_iff_eq_none] at hover
  obtain ⟨rfl, rfl⟩ := hover
  obtain ⟨o, hresolution, hscript⟩ := hstage.resolution (torn_notMem_talk htear)
  rw [List.append_nil] at hscript
  refine ⟨o, hresolution, ?_⟩
  rw [hcourse.outcome? g (List.mem_singleton_self g), hscript]
  simp [Chore.completed?, Chore.resolve, Chore.guard, Chore.completion?]

/-- The flight of a read of one key whose resolver comes to its end. The read has begun one flight
for its key, and its resolver resolves it in one of six ways, which tell the outcome. While the
resolver is there, be it that the value is just being written back, whoever wants the key joins the
flight. At any moment, whoever waits for the flight gets this outcome or nothing, and in the end
those who wait have it. -/
theorem single_read (h : Reading (.one k) before mid after d₀ d₁ d₂ c) (hg : g ∈ c.owned)
    (hend : d₂.resolvers[d₁.next]? = none) (htear : .own (.tear d₁.next) ∉ after) :
    (c.owned = [g] ∧ g.key = k ∧ c.pending = [(k, g.promise)]) ∧
    ∃ o, Resolver.Resolution g (d₁.talk d₁.next (.own (.advance d₀.next) :: after)) o ∧
      (∀ (es : List (Event κ ν)) (d : Delegate κ ν), es <+: after →
        d₁.run? (.own (.advance d₀.next) :: es) = some d →
        ((d.resolvers[d₁.next]?).isSome →
          d.flights.register k = (.joined g.promise, d.flights)) ∧ d.OnlyGet g.promise o) ∧
      d₂.flights.outcome? g.promise = some o ∧
      ∀ (i : Nat) (c' : Caller κ), d₂.callers[i]? = some c' → c'.waiting = true →
        c'.single = true → ∀ q ∈ c'.pending, q.2 = g.promise → d₂.result? i = some (.one o) := by
  obtain ⟨howned, hk, hpending, -⟩ := h.owned_eq hg
  obtain ⟨o, hresolution, hout⟩ := h.resolution hg hend htear
  refine ⟨⟨howned, hk, hpending⟩, o, hresolution, ?_, hout, ?_⟩
  · intro es d hes hrun
    have hes' : Reading (.one k) before mid es d₀ d₁ d c := { h with after := hrun }
    refine ⟨hes'.register_eq hg fun hmem => htear (hes.subset hmem), ?_⟩
    -- What is there at this moment is still there in the end.
    refine hes'.inv_after.onlyGet fun o' ho' => ?_
    exact Option.some.inj ((h.outcome?_of_isPrefix hes hrun ho').symm.trans hout)
  · intro i c' hc' hw hsingle q hq hqp
    rw [result?_eq_one hc' hw hsingle (h.inv_after.pending_eq hc' hw hsingle hq), hqp, hout]
    rfl

end

/-- What happens after the resolver of a read of key 1 was started: the cache fails to answer, the
loader gives 10, and another read of the key begins while 10 is being written to the cache, which
fails, too. -/
def joinedDuringWrite : List (Event Nat Nat) :=
  [.own (.ask 1), .own (.reply 1 (.read (.error (.backend "down")))), .own (.ask 1),
    .own (.reply 1 (.load (.answered (.ok (some 10))))), .own (.chore 1), .own (.ask 1),
    .own (.call (.one 1)), .own (.advance 2), .own (.advance 2),
    .own (.reply 1 (.written (.error (.backend "down")))), .own (.chore 1), .own (.chore 1)]

/-- Both reads get what was loaded. -/
theorem single_read_joinedDuringWrite : ∃ (d₁ d₂ : Delegate Nat Nat) (c : Caller Nat),
    Reading (.one 1) [] [.own (.advance 0)] joinedDuringWrite {} d₁ d₂ c ∧
    (⟨1, 0⟩ : Guard Nat) ∈ c.owned ∧ d₂.resolvers[d₁.next]? = none ∧
    Event.own (.tear d₁.next) ∉ joinedDuringWrite ∧
    d₂.result? 0 = some (.one (.ok (some 10))) ∧ d₂.result? 2 = some (.one (.ok (some 10))) := by
  have hmid : ((run? {} [.own (.call (.one 1)), .own (.advance 0)]).map
      fun d : Delegate Nat Nat => (d.next, d.callers[0]?)) =
      some (1, some ⟨true, [], [(1, 0)], [⟨1, 0⟩], false⟩) := by cbv
  have hafter : ((run? {} ([.own (.call (.one 1)), .own (.advance 0)] ++
      .own (.advance 0) :: joinedDuringWrite)).map fun d : Delegate Nat Nat =>
      (d.resolvers[1]?.isNone, d.flights.outcome? 0, d.callers[0]?, d.callers[2]?)) =
      some (true, some (.ok (some 10)), some ⟨true, [], [(1, 0)], [], true⟩,
        some ⟨true, [], [(1, 0)], [], true⟩) := by cbv
  obtain ⟨d₁, hd₁, hmid⟩ := Option.map_eq_some_iff.1 hmid
  rw [run?_append, hd₁, Option.bind_some] at hafter
  obtain ⟨d₂, hd₂, hafter⟩ := Option.map_eq_some_iff.1 hafter
  obtain ⟨hnext, hcaller⟩ := Prod.mk.inj hmid
  simp only [Prod.mk.injEq, Option.isNone_iff_eq_none] at hafter
  obtain ⟨hend, hout, hc₀, hc₂⟩ := hafter
  have h : Reading (.one 1) [] [.own (.advance 0)] joinedDuringWrite {} d₁ d₂
      ⟨true, [], [(1, 0)], [⟨1, 0⟩], false⟩ := ⟨rfl, hd₁, hcaller, rfl, rfl, hd₂⟩
  have htear : Event.own (.tear d₁.next) ∉ joinedDuringWrite := by simp [joinedDuringWrite]
  -- The theorem says what both of them get; the run has it as the outcome of the promise.
  obtain ⟨-, o, -, -, ho, hresult⟩ := single_read h (List.mem_singleton_self _) (hnext ▸ hend) htear
  obtain rfl := Option.some.inj (hout.symm.trans ho)
  exact ⟨d₁, d₂, _, h, List.mem_singleton_self _, hnext ▸ hend, htear,
    hresult 0 _ hc₀ rfl rfl _ (List.mem_singleton_self _) rfl,
    hresult 2 _ hc₂ rfl rfl _ (List.mem_singleton_self _) rfl⟩

end Delegate

end CacheLayer
