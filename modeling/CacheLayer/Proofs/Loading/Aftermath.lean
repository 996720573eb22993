import CacheLayer.Proofs.Loading.Failing
import CacheLayer.Proofs.Loading.Trigger
/-!
# After a reload has failed

A reload that has failed has nothing but chores to do, and it can do them at once. The first of them
records the failure of all its keys at one instant; the others free the keys one by one. What is
recorded holds off further reloads of a key for the retry interval, and for less if so many other
keys have failed since that there is no room to remember all of them.

## Key results

- `Clocked.rest_of_run`: what is left of a reload that has failed, told by the steps it has taken
- `Clocked.exists_recorded`: what it has recorded
- `Clocked.tally_of_run`: what has been counted
- `Clocked.aftermath`: all that a failed reload leaves behind in its delegate
-/

namespace CacheLayer

variable {κ ν : Type} [BEq κ] [Hashable κ]

/-! ## Runs -/

namespace Clocked

/-- The reload that takes a step in an event. -/
def Event.reload? : Event κ ν → Option Nat
  | .own s => s.reload?
  | _ => none

/-- The reload that fails in an event. -/
def Event.fails? : Event κ ν → Option Nat
  | .own s => s.fails?
  | _ => none

/-- How many steps a reload takes in a run. -/
def stepsOf (i : Nat) (es : List (Event κ ν)) : Nat := es.countP fun e => e.reload? == some i

/-- The reloads that fail in a run, in the order of time. -/
def failedIn (es : List (Event κ ν)) : List Nat := es.filterMap Event.fails?

variable {p : RefreshSetting} {w w' : Clocked κ ν} {e : Event κ ν} {es : List (Event κ ν)}
  {i j : Nat} {cs : List (ReloadChore κ (Stamped ν))}

theorem fails?_eq_none (h : e.reload? = none) : e.fails? = none := by
  cases e with
  | own s => exact RefreshDelegate.Step.fails?_eq_none h
  | finish caller order => rfl
  | wait span => rfl

/-- Only in steps of the delegate a reload takes a step. -/
theorem exists_step (h : e.reload? = some i) :
    ∃ s : RefreshDelegate.Step κ (Stamped ν), e = .own s ∧ s.reload? = some i := by
  cases e with
  | own s => exact ⟨s, rfl, h⟩
  | finish caller order => cases h
  | wait span => cases h

/-- Time does not run backwards. -/
theorem now_le (he : w.after? p e = some w') : w.now ≤ w'.now := by
  cases e with
  | own s =>
    simp only [after?] at he
    split at he
    · obtain ⟨core, -, rfl⟩ := Option.map_eq_some_iff.1 he
      exact Nat.le_refl _
    · cases he
  | finish caller order =>
    obtain ⟨core, -, rfl⟩ := Option.map_eq_some_iff.1 he
    exact Nat.le_refl _
  | wait span =>
    obtain rfl := Option.some.inj he
    exact Nat.le_add_right _ _

theorem now_le_of_run (hrun : w.run? p es = some w') : w.now ≤ w'.now := by
  induction es generalizing w with
  | nil =>
    obtain rfl := Option.some.inj hrun
    exact Nat.le_refl _
  | cons e es ih =>
    obtain ⟨w₁, he, hes⟩ := Option.bind_eq_some_iff.1 hrun
    exact Nat.le_trans (now_le he) (ih hes)

section

variable [LawfulBEq κ]

/-- What all steps keep that no reload takes, all events keep in which no reload takes a step. -/
theorem kept_of_after? {P : RefreshDelegate κ (Stamped ν) → Prop} (he : w.after? p e = some w')
    (hnone : e.reload? = none)
    (hkept : ∀ d d' s, P d → d.Moves s d' → s.reload? = none → P d') (h : P w.core) :
    P w'.core := by
  cases e with
  | own s => exact hkept _ _ s h (moves_of_after? he).2.1 hnone
  | finish caller order =>
    obtain ⟨core, hcore, rfl⟩ := Option.map_eq_some_iff.1 he
    obtain ⟨c, r, hc, hw, -, -, hend⟩ := RefreshDelegate.finish?_cases hcore
    have hleft : P (w.core.left caller) :=
      hkept _ _ (.loading (.leave caller)) h (.loading _ _ (.leave caller c hc hw)) rfl
    rcases hend with ⟨-, rfl⟩ | ⟨again, -, -, -, rfl⟩
    · exact hleft
    · exact hkept _ _ (.refresh again) hleft (.refresh again) rfl
  | wait span =>
    obtain rfl := Option.some.inj he
    exact h

/-- What all steps keep, all runs keep. -/
theorem kept_of_run {P : RefreshDelegate κ (Stamped ν) → Prop} (hrun : w.run? p es = some w')
    (hkept : ∀ d d' s, P d → d.Moves s d' → P d') (h : P w.core) : P w'.core := by
  induction es generalizing w with
  | nil =>
    obtain rfl := Option.some.inj hrun
    exact h
  | cons e es ih =>
    obtain ⟨w₁, he, hes⟩ := Option.bind_eq_some_iff.1 hrun
    refine ih hes ?_
    cases hs : e.reload? with
    | none => exact kept_of_after? he hs (fun d d' s h hm _ => hkept d d' s h hm) h
    | some i =>
      obtain ⟨s, rfl, -⟩ := exists_step hs
      exact hkept _ _ s h (moves_of_after? he).2.1

/-- Numbers of reloads only grow. -/
theorem next_le (he : w.after? p e = some w') : w.core.next ≤ w'.core.next := by
  have hrun : w.run? p [e] = some w' := by rw [run?, he]; rfl
  exact kept_of_run (P := fun d => w.core.next ≤ d.next) hrun
    (fun d d' s h hm => Nat.le_trans h hm.next_le) (Nat.le_refl _)

/-- An event leaves those reloads alone that do not take a step in it. -/
theorem reload_of_ne (he : w.after? p e = some w') (hi : i < w.core.next)
    (hs : e.reload? ≠ some i) : w'.core.reloads[i]? = w.core.reloads[i]? := by
  cases hnone : e.reload? with
  | none =>
    refine (kept_of_after? (P := fun d => i < d.next ∧ d.reloads[i]? = w.core.reloads[i]?) he hnone
      (fun d d' s h hm hs => ⟨Nat.lt_of_lt_of_le h.1 hm.next_le, ?_⟩) ⟨hi, rfl⟩).2
    rw [hm.reload_of_ne h.1 (by simp [hs]), h.2]
  | some j =>
    obtain ⟨s, rfl, -⟩ := exists_step hnone
    exact (moves_of_after? he).2.1.reload_of_ne hi hs

/-! ## Reloads that have failed -/

/-- A reload that asks for nothing more does one chore after the other. What is left is told by the
steps that it has taken. -/
theorem rest_of_run (hi : i < w.core.next) (hr : w.core.reloads[i]? = Reload.rest? cs)
    (hrun : w.run? p es = some w') :
    stepsOf i es ≤ cs.length ∧ w'.core.reloads[i]? = Reload.rest? (cs.drop (stepsOf i es)) := by
  induction es generalizing w cs with
  | nil =>
    obtain rfl := Option.some.inj hrun
    exact ⟨Nat.zero_le _, hr⟩
  | cons e es ih =>
    obtain ⟨w₁, he, hes⟩ := Option.bind_eq_some_iff.1 hrun
    have hi₁ := Nat.lt_of_lt_of_le hi (next_le he)
    -- Only its own steps change a reload; each of them takes one chore off.
    by_cases hs : e.reload? = some i
    · have hsteps : stepsOf i (e :: es) = stepsOf i es + 1 :=
        List.countP_cons_of_pos (by simp [hs])
      obtain ⟨s, rfl, hs⟩ := exists_step hs
      obtain ⟨now, c, cs', -, rfl, hr₁, -⟩ := (moves_of_after? he).2.1.rest hr hs
      obtain ⟨hle, hrest⟩ := ih hi₁ hr₁ hes
      rw [hsteps]
      exact ⟨Nat.succ_le_succ hle, hrest⟩
    · have hsteps : stepsOf i (e :: es) = stepsOf i es :=
        List.countP_cons_of_neg (by simp [hs])
      rw [hsteps]
      exact ih hi₁ ((reload_of_ne he hi hs).trans hr) hes

/-- A reload that has failed has recorded all its keys once it has taken a step. -/
theorem exists_recorded {ks : List κ} (hi : i < w.core.next)
    (hr : w.core.reloads[i]? = Reload.rest? (.remember ks :: cs)) (hrun : w.run? p es = some w')
    (hsteps : 0 < stepsOf i es) : ∃ t h h', w.now ≤ t ∧ t ≤ w'.now ∧
      w.failures p es = h ++ ks.map (fun k => (k, t)) ++ h' := by
  induction es generalizing w with
  | nil => cases hsteps
  | cons e es ih =>
    obtain ⟨w₁, he, hes⟩ := Option.bind_eq_some_iff.1 hrun
    rw [failures_cons he]
    by_cases hs : e.reload? = some i
    · -- This is the first step of the reload, which records.
      obtain ⟨s, rfl, hs⟩ := exists_step hs
      obtain ⟨hallows, hm, hnow⟩ := moves_of_after? he
      obtain ⟨now, c, cs', rfl, hcs, -, -⟩ := hm.rest hr hs
      obtain rfl : now = w.now := eq_of_beq hallows
      have hrecorded : w.recorded (.own (.chore w.now i)) = ks.map fun k => (k, w.now) := by
        simp [recorded, hr, Reload.rest?]
      exact ⟨w.now, [], _, Nat.le_refl _, hnow ▸ now_le_of_run hes, by rw [hrecorded]; rfl⟩
    · have hsteps₁ : 0 < stepsOf i es := by
        rwa [stepsOf, List.countP_cons_of_neg (by simp [hs])] at hsteps
      obtain ⟨t, h, h', ht, ht', hfailures⟩ := ih (Nat.lt_of_lt_of_le hi (next_le he))
        ((reload_of_ne he hi hs).trans hr) hes hsteps₁
      refine ⟨t, w.recorded e ++ h, h', Nat.le_trans (now_le he) ht, ht', ?_⟩
      rw [hfailures]
      simp only [List.append_assoc]

/-- The guards that a reload holds once it has begun do not get more. -/
theorem held_of_run (hj : j < w.core.next) (hrun : w.run? p es = some w') :
    w'.core.held (.reload j) ⊆ w.core.held (.reload j) := by
  induction es generalizing w with
  | nil =>
    obtain rfl := Option.some.inj hrun
    exact List.Subset.refl _
  | cons e es ih =>
    obtain ⟨w₁, he, hes⟩ := Option.bind_eq_some_iff.1 hrun
    refine List.Subset.trans (ih (Nat.lt_of_lt_of_le hj (next_le he)) hes) ?_
    by_cases hs : e.reload? = some j
    · obtain ⟨s, rfl, -⟩ := exists_step hs
      exact (moves_of_after? he).2.1.held_subset hj
    · rw [RefreshDelegate.held, RefreshDelegate.held, reload_of_ne he hj hs]
      exact List.Subset.refl _

/-- Whoever starts a reload has registered in the run what he has not had before. -/
theorem starter_guard_of_run (hrun : w.run? p es = some w') {g : Guard κ}
    (hg : g ∈ w'.core.held (.starter j)) :
    g ∈ w.core.held (.starter j) ∨ w.core.flights.promises.size ≤ g.promise := by
  have hkept := kept_of_run (P := fun d =>
      w.core.flights.promises.size ≤ d.flights.promises.size ∧
        ∀ j g, g ∈ d.held (.starter j) →
          g ∈ w.core.held (.starter j) ∨ w.core.flights.promises.size ≤ g.promise) hrun ?_
    ⟨Nat.le_refl _, fun j g hg => .inl hg⟩
  · exact hkept.2 j g hg
  · rintro d d' s ⟨hle, hall⟩ hm
    refine ⟨Nat.le_trans hle hm.promises_le, fun j g hg => ?_⟩
    rcases hm.starter_guard hg with hold | hnew
    · exact hall j g hold
    · exact .inr (Nat.le_trans hle hnew)

/-- Reloads and failures are counted one by one. -/
theorem tally_of_run {history : List (κ × Nat)} {failed : List Nat} (hsound : w.Sound p history)
    (h : w.core.Tally failed) (hrun : w.run? p es = some w') :
    w'.core.Tally (failed ++ failedIn es) := by
  induction es generalizing w history failed with
  | nil =>
    obtain rfl := Option.some.inj hrun
    rwa [failedIn, List.filterMap_nil, List.append_nil]
  | cons e es ih =>
    obtain ⟨w₁, he, hes⟩ := Option.bind_eq_some_iff.1 hrun
    -- A step of a reload may be a failure, and is counted then; all other events leave the count
    -- alone.
    have h₁ : w₁.core.Tally (failed ++ e.fails?.toList) := by
      cases hs : e.reload? with
      | some i =>
        obtain ⟨s, rfl, -⟩ := exists_step hs
        exact h.moves hsound.inv (moves_of_after? he).2.1
      | none =>
        rw [fails?_eq_none hs, Option.toList_none, List.append_nil]
        refine (kept_of_after? (P := fun d => d.Inv ∧ d.Tally failed) he hs ?_ ⟨hsound.inv, h⟩).2
        intro d d' s h hm hs
        have hmoved := h.2.moves h.1 hm
        rw [RefreshDelegate.Step.fails?_eq_none hs, Option.toList_none, List.append_nil] at hmoved
        exact ⟨h.1.moves hm, hmoved⟩
    have hrest := ih (hsound.after he) h₁ hes
    -- What is counted by now is what this event and the later ones add.
    have hsplit : failedIn (e :: es) = e.fails?.toList ++ failedIn es := by
      simp only [failedIn, List.filterMap_cons]
      cases e.fails? <;> rfl
    rwa [hsplit, ← List.append_assoc]

/-! ## Before a reload fails -/

/-- A reload whose call is outstanding has made it before, unless it had not begun. -/
theorem loaderCall?_of_after {history : List (κ × Nat)} {call : Read κ} (h : w.Sound p history)
    (he : w.after? p e = some w')
    (hcall : w'.core.loaderCall? (.reload i) = some call ∨ w'.core.next ≤ i) :
    w.core.loaderCall? (.reload i) = some call ∨ w.core.next ≤ i := by
  rcases Nat.lt_or_ge i w.core.next with hi | hnew
  · -- The call can only be new in the event in which the reload begins.
    left
    replace hcall := hcall.resolve_right (Nat.not_le_of_lt (Nat.lt_of_lt_of_le hi (next_le he)))
    by_cases hs : e.reload? = some i
    · obtain ⟨s, rfl, hs⟩ := exists_step hs
      rcases ((moves_of_after? he).2.1.loaderCall?_reload h.prompt).2 with hold | hlaunch
      · exact hold i call hcall
      · obtain ⟨now, j, st, rfl, -⟩ := hlaunch
        cases hs
    · rwa [RefreshDelegate.loaderCall?, reload_of_ne he hi hs] at hcall
  · exact .inr hnew

/-- A reload whose call is outstanding has asked for nothing else since it began. -/
theorem request?_of_run {history : List (κ × Nat)} {call : Read κ} (h : w.Sound p history)
    (hrun : w.run? p es = some w') (hcall : w'.core.loaderCall? (.reload i) = some call) :
    w.core.request? (.reload i) = none ∨
      w.core.request? (.reload i) = some (.load call, true) := by
  have hbefore : w.core.loaderCall? (.reload i) = some call ∨ w.core.next ≤ i := by
    induction es generalizing w history with
    | nil =>
      obtain rfl := Option.some.inj hrun
      exact .inl hcall
    | cons e es ih =>
      obtain ⟨w₁, he, hes⟩ := Option.bind_eq_some_iff.1 hrun
      exact loaderCall?_of_after h he (ih (h.after he) hes)
  rcases hbefore with hcall | hnew
  · exact .inr (RefreshDelegate.loaderCall?_eq_some_iff.1 hcall)
  · exact .inl (h.inv.request?_of_not_knows (Nat.not_lt_of_le hnew))

omit [LawfulBEq κ] in
/-- When a reload fails, all that is left of it are the chores of a failure. -/
theorem rest_of_failure {call : Read κ} {answer : Reply κ (Stamped ν)}
    (hcall : w.core.loaderCall? (.reload i) = some call) (hfails : answer.failure?.isSome)
    (he : w.after? p (.own (.reply i answer)) = some w') :
    ∃ (gs : List (Guard κ)) (error : CacheError), gs.map Guard.key = call.keys ∧
      w'.core.held (.reload i) = gs ∧
      w'.core.reloads[i]? = Reload.rest? (Reload.failed gs error).chores := by
  have hm := (moves_of_after? he).2.1
  generalize w'.core = d' at hm ⊢
  cases hm with
  | reply i q answer r hr hresume =>
    -- A reply is a failure of the load, or leads on; `answer` is a failure.
    rcases Reload.resume_cases hresume with ⟨error, -, rfl⟩ | ⟨hnone, -⟩
    · have hget : (w.core.setReload i (.failed q.guards error)).reloads[i]? =
          some (.failed q.guards error) :=
        (RefreshDelegate.get_putReload _ i i _).trans (if_pos rfl)
      refine ⟨q.guards, error, ?_, ?_, hget⟩
      · -- Only loads call the loader.
        rw [RefreshDelegate.loaderCall?, hr] at hcall
        cases q with
        | load g => exact congrArg Read.keys (Option.some.inj hcall)
        | loadMany gs => exact congrArg Read.keys (Option.some.inj hcall)
        | write g v => cases hcall
        | delete g => cases hcall
        | writeMany gs entries => cases hcall
      · rw [RefreshDelegate.held, hget]
        exact Reload.resume_guards hresume
    · rw [hnone] at hfails
      cases hfails

end

/-- What is left of a reload that asks for nothing more. -/
theorem choresLeft_of_rest (hr : w.core.reloads[i]? = Reload.rest? cs) :
    w.core.choresLeft i = cs := by
  rw [RefreshDelegate.choresLeft, hr, Reload.rest?]
  split
  · next hnil => exact (List.isEmpty_iff.1 hnil).symm
  · rfl

theorem request?_of_rest (hr : w.core.reloads[i]? = Reload.rest? cs) :
    w.core.request? (.reload i) = none := by
  rw [RefreshDelegate.request?, hr, Reload.rest?]
  split <;> rfl

/-- A reload that asks for nothing more can do its next chore at once. -/
theorem after?_chore {c : ReloadChore κ (Stamped ν)}
    (hr : w.core.reloads[i]? = Reload.rest? (c :: cs)) :
    w.after? p (.own (.chore w.now i)) =
      some ⟨w.core.chore w.now i c ⟨cs, none, false⟩, w.now⟩ := by
  have hstep : w.core.step? (.chore w.now i) = some (w.core.chore w.now i c ⟨cs, none, false⟩) := by
    rw [RefreshDelegate.step?, hr]
    rfl
  rw [after?, Allows, if_pos (beq_self_eq_true _), hstep]
  rfl

/-- A reload that asks for nothing more can do all its chores at once. -/
theorem exists_run_of_rest (hr : w.core.reloads[i]? = Reload.rest? cs) :
    ∃ w', w.run? p (List.replicate cs.length (.own (.chore w.now i))) = some w' ∧
      w'.core.choresLeft i = [] := by
  induction cs generalizing w with
  | nil => exact ⟨w, rfl, choresLeft_of_rest hr⟩
  | cons c cs ih =>
    have he := after?_chore (p := p) hr
    obtain ⟨now, c', cs', -, hcs, hr', -⟩ := (moves_of_after? he).2.1.rest hr rfl
    obtain ⟨-, rfl⟩ := List.cons.inj hcs
    obtain ⟨w', hrun, hnil⟩ := ih hr'
    refine ⟨w', ?_, hnil⟩
    rw [List.length_cons, List.replicate_succ, run?, he]
    exact hrun

/-! ## What is remembered -/

omit [Hashable κ] in
/-- A key that was recorded among others is remembered while it is young, unless too many other keys
come after it. -/
theorem remembered_of_recorded [LawfulBEq κ] {capacity span now t : Nat} {h h' : List (κ × Nat)}
    {ks ks' : List κ} {k : κ} (hyoung : now - t < span)
    (hfew : ((ks' ++ h'.map Prod.fst).filter (· != k)).eraseDups.length < capacity) :
    Remembered capacity span now (h ++ (ks ++ k :: ks').map (fun k => (k, t)) ++ h') k := by
  refine ⟨h ++ ks.map fun k => (k, t), t, (ks'.map fun k => (k, t)) ++ h', by simp, hyoung, ?_⟩
  have hkeys : ((ks'.map fun k => (k, t)) ++ h').map Prod.fst = ks' ++ h'.map Prod.fst := by
    simp [Function.comp_def]
  rwa [hkeys]

/-- What is to be said of a reload of some keys that the loader has failed with an answer: of all
the run with its reply, after which the delegate was in the state `w₁`, up to the state `w₂`. -/
structure Aftermath (p : RefreshSetting) (i : Nat) (call : Read κ) (answer : Reply κ (Stamped ν))
    (before after : List (Event κ ν)) (w₁ w₂ : Clocked κ ν) : Prop where
  /-- At no moment of the run the reload asks for anything but this call of the loader. -/
  only_loads : ∀ es es' w, before ++ .own (.reply i answer) :: after = es ++ es' →
    (start p).run? p es = some w →
    w.core.request? (.reload i) = none ∨ w.core.request? (.reload i) = some (.load call, true)
  /-- After the reply it asks for nothing. -/
  silent : w₂.core.request? (.reload i) = none
  /-- Every step that it takes is a chore: one for all keys, and three for each of them. -/
  winds_up : stepsOf i after + (w₂.core.choresLeft i).length = 1 + 3 * call.keys.length
  /-- It has to wait for nobody: it can do all that is left at once. -/
  ends : ∃ w₃, w₂.run? p
      (List.replicate (w₂.core.choresLeft i).length (.own (.chore w₂.now i))) = some w₃ ∧
    w₃.core.choresLeft i = []
  /-- When it is through, its keys are only reloaded if a reload has begun since, and only about to
  be reloaded if they have been registered since. -/
  released : w₂.core.choresLeft i = [] → ∀ k ∈ call.keys,
    (∀ j, ∀ g ∈ w₂.core.held (.reload j), g.key = k → w₁.core.next ≤ j) ∧
    ∀ j, ∀ g ∈ w₂.core.held (.starter j), g.key = k → w₁.core.flights.promises.size ≤ g.promise
  /-- Once it has taken a step, the failure of all its keys is recorded, at one instant. Each of
  them is remembered for the retry interval, or until too many others have been recorded after
  it. -/
  recorded : 0 < stepsOf i after → ∃ t h h', w₁.now ≤ t ∧ t ≤ w₂.now ∧
    (start p).failures p (before ++ .own (.reply i answer) :: after) =
      h ++ call.keys.map (fun k => (k, t)) ++ h' ∧
    ∀ ks k ks', call.keys = ks ++ k :: ks' → w₂.now - t < p.retry →
      ((ks' ++ h'.map Prod.fst).filter (· != k)).eraseDups.length < maxFailures →
      (w₂.core.failures.peek w₂.now k).1.isSome
  /-- Every reload is counted once, whatever it covers, and so is every failure when it is recorded.
  No reload fails twice. -/
  counted : w₂.core.stats.refreshes = w₂.core.next ∧
    w₂.core.stats.refreshErrors +
        (failedIn (before ++ .own (.reply i answer) :: after)).countP w₂.core.unrecorded =
      (failedIn (before ++ .own (.reply i answer) :: after)).length ∧
    (failedIn (before ++ .own (.reply i answer) :: after)).Nodup ∧
    i ∈ failedIn (before ++ .own (.reply i answer) :: after)
  /-- Failures that are as old as the retry interval hold nothing off. Wherever a key is looked up
that a read has found stale, it is cleared for its registration. -/
  cleared : ∀ k, (∀ t, (k, t) ∈ (start p).failures p
      (before ++ .own (.reply i answer) :: after) → p.retry ≤ w₂.now - t) →
    (w₂.core.failures.peek w₂.now k).1 = none
  /-- So after a read that has found a key stale it is reloaded, if it is not being reloaded. -/
  unblocked : ∀ k, (∀ t, (k, t) ∈ (start p).failures p
      (before ++ .own (.reply i answer) :: after) → p.retry ≤ w₂.now - t) →
    ¬ w₂.core.Reloading k → ∀ caller order w₃ v, w₂.after? p (.finish caller order) = some w₃ →
    w₂.Obtains (.finish caller order) k v → p.Stale w₂.now v →
    ∃ n w₄, w₃.run? p (List.replicate n (.own (.advance w₂.now w₂.core.nextStarter))) = some w₄ ∧
      ∃ j call', w₂.Starts w₄ j call' ∧ k ∈ call'.keys
  /-- And reads end as soon as their values are there. -/
  served : ∀ caller, (w₂.core.delegate.result? caller).isSome →
    ∃ order w₃, w₂.after? p (.finish caller order) = some w₃

section

variable [LawfulBEq κ] {call : Read κ} {answer : Reply κ (Stamped ν)}
  {before after : List (Event κ ν)} {w₀ w₁ w₂ : Clocked κ ν}

/-- All that a failed reload leaves behind in its delegate. -/
theorem aftermath (h₀ : (start p).run? p before = some w₀)
    (hcall : w₀.core.loaderCall? (.reload i) = some call) (hfails : answer.failure?.isSome)
    (h₁ : w₀.after? p (.own (.reply i answer)) = some w₁) (h₂ : w₁.run? p after = some w₂) :
    Aftermath p i call answer before after w₁ w₂ := by
  have hrun : (start p).run? p (before ++ .own (.reply i answer) :: after) = some w₂ := by
    rw [run?_append, h₀, Option.bind_some, run?, h₁]
    exact h₂
  have hsound₀ := (Sound.start p).run h₀
  have hsound₁ := hsound₀.after h₁
  have hsound₂ := (Sound.start p).run hrun
  obtain ⟨gs, error, hkeys, hheld, hrest⟩ := rest_of_failure hcall hfails h₁
  have hi : i < w₁.core.next := by
    refine Nat.lt_of_lt_of_le ?_ (next_le h₁)
    exact hsound₀.inv.knows (RefreshDelegate.loaderCall?_eq_some_iff.1 hcall)
  -- Everything that is said of the counters is counted from the beginning of the run on.
  have htally := tally_of_run (Sound.start p) (.ofRetry p.retry) hrun
  rw [List.nil_append] at htally
  obtain ⟨hsteps, hrest₂⟩ := rest_of_run hi hrest h₂
  have hleft : w₂.core.choresLeft i =
      (Reload.failed gs error : Reload κ (Stamped ν)).chores.drop (stepsOf i after) :=
    choresLeft_of_rest hrest₂
  have hforgotten : ∀ k, (∀ t, (k, t) ∈ (start p).failures p
      (before ++ .own (.reply i answer) :: after) → p.retry ≤ w₂.now - t) →
      ¬ Remembered maxFailures p.retry w₂.now
        ([] ++ (start p).failures p (before ++ .own (.reply i answer) :: after)) k := by
    rintro k hold ⟨h, t, h', hsplit, hyoung, -⟩
    rw [List.nil_append] at hsplit
    exact absurd (hold t (by rw [hsplit]; simp)) (Nat.not_le_of_lt hyoung)
  constructor
  case only_loads =>
    intro es es' w hsplit hw
    -- The moment is the one before the reply, or a later one, or an earlier one.
    rcases List.append_eq_append_iff.1 hsplit with ⟨_ | ⟨e, rest⟩, rfl, hes'⟩ | ⟨rest, rfl, -⟩
    · rw [List.append_nil, h₀] at hw
      exact .inr (RefreshDelegate.loaderCall?_eq_some_iff.1 (Option.some.inj hw ▸ hcall))
    · obtain ⟨rfl, -⟩ := List.cons.inj hes'
      rw [run?_append, h₀, Option.bind_some, run?, h₁] at hw
      exact .inl (request?_of_rest (rest_of_run hi hrest hw).2)
    · rw [run?_append, hw, Option.bind_some] at h₀
      exact request?_of_run ((Sound.start p).run hw) h₀ hcall
  case silent => exact request?_of_rest hrest₂
  case winds_up =>
    rw [hleft, List.length_drop, ← hkeys, List.length_map, ← Reload.length_chores_failed gs error]
    omega
  case ends =>
    rw [hleft]
    exact exists_run_of_rest hrest₂
  case released =>
    intro hnil k hk
    rw [← hkeys] at hk
    obtain ⟨g₀, hg₀, hkey⟩ := List.mem_map.1 hk
    rw [← hheld] at hg₀
    -- The key was held by the reload when it failed, and by nobody else.
    have hsame : ∀ m, ∀ g ∈ w₁.core.held m, g.key = k → m = .reload i := by
      intro m g hg hgk
      obtain rfl := hsound₁.inv.guarded.eq_of_key hg₀ hg (hkey.trans hgk.symm)
      exact hsound₁.inv.guarded.disjoint hg hg₀
    constructor
    · intro j g hg hgk
      by_contra hlt
      obtain rfl := RefreshDelegate.ReloadHolder.reload.inj
        (hsame _ g (held_of_run (Nat.lt_of_not_le hlt) h₂ hg) hgk)
      rw [hleft] at hnil
      rw [RefreshDelegate.held, hrest₂, hnil] at hg
      exact absurd hg List.not_mem_nil
    · intro j g hg hgk
      rcases starter_guard_of_run h₂ hg with hold | hnew
      · cases hsame _ g hold hgk
      · exact hnew
  case recorded =>
    intro hpos
    obtain ⟨t, h, h', ht, ht', hfailures⟩ := exists_recorded hi hrest h₂ hpos
    have hall : (start p).failures p (before ++ .own (.reply i answer) :: after) =
        ((start p).failures p before ++ h) ++ call.keys.map (fun k => (k, t)) ++ h' := by
      have hnothing : w₀.recorded (.own (.reply i answer)) = [] := rfl
      rw [failures_append h₀, failures_cons h₁, hnothing, hfailures, hkeys, List.nil_append]
      simp only [List.append_assoc]
    refine ⟨t, _, h', ht, ht', hall, fun ks k ks' hsplit hyoung hfew => ?_⟩
    rw [hsound₂.recalls.isSome_peek_iff, List.nil_append, hall, hsplit]
    exact remembered_of_recorded hyoung hfew
  case counted =>
    refine ⟨htally.refreshes_eq, htally.refreshErrors_eq, htally.nodup, ?_⟩
    rw [failedIn, List.filterMap_append, List.mem_append]
    refine .inr (List.mem_filterMap.2 ⟨_, List.mem_cons_self, ?_⟩)
    rw [Event.fails?, RefreshDelegate.Step.fails?, if_pos hfails]
  case cleared =>
    intro k hold
    rw [← Option.not_isSome_iff_eq_none, hsound₂.recalls.isSome_peek_iff]
    exact hforgotten k hold
  case unblocked =>
    intro k hold hnot caller order w₃ v he hgot hstale
    -- Nobody gets in between when the reader's own steps come right behind the end of its read.
    obtain ⟨n, w₄, hrun₄, -, hstarts⟩ := hsound₂.started_at_once he
    exact ⟨n, w₄, hrun₄, (hstarts k).2 ⟨⟨v, hgot, hstale⟩, hnot, hforgotten k hold⟩⟩
  case served => exact fun caller => finish_of_result

end

end Clocked

end CacheLayer
