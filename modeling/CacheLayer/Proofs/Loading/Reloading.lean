import CacheLayer.Loading.Refresh
import CacheLayer.Proofs.Loading.Invariant
/-!
# The invariant of a refreshing delegate

The reloads of a refreshing delegate have flights of their own. A guard of these flights is held by
whoever starts a reload of its key, and then by the reload, until one of its chores removes the
entry. `RefreshDelegate.Inv` says of them what `Delegate.Inv` says of the flights of the loading
delegate inside, which goes on as it would alone.

## Key results

- `RefreshDelegate.Inv.moves`: the invariant is kept by every step
- `RefreshDelegate.inv_of_run?`: it holds after every run
-/

namespace CacheLayer

variable {κ ν : Type} [BEq κ] [Hashable κ]

/-! ## What a reload does with its guards -/

namespace Reload

/-- The chores that are done on flights. -/
def onFlights (r : Reload κ ν) : List (Chore κ (Option ν)) :=
  r.chores.filterMap fun
    | .onFlights c => some c
    | .remember _ => none

/-- The guards that are still there when the question is asked. -/
def later (r : Reload κ ν) : List (Guard κ) := (r.question?.map ReloadQuestion.guards).getD []

/-- The guards that have not been dropped. -/
def guards (r : Reload κ ν) : List (Guard κ) := Chore.removals r.onFlights ++ r.later

omit [BEq κ] [Hashable κ] in
private theorem filterMap_onFlights (cs : List (Chore κ (Option ν))) :
    ((cs.map ReloadChore.onFlights).filterMap fun
      | .onFlights c => some c
      | .remember _ => none) = cs := by
  rw [List.filterMap_map]
  exact List.filterMap_some

@[simp] theorem onFlights_asking (cs : List (Chore κ (Option ν))) (q : ReloadQuestion κ ν) :
    (asking cs q).onFlights = cs := filterMap_onFlights cs

@[simp] theorem onFlights_ending (cs : List (Chore κ (Option ν))) :
    (ending cs : Reload κ ν).onFlights = cs := filterMap_onFlights cs

/-- A reload that has failed remembers its keys, and then it is done with its flights. -/
@[simp] theorem onFlights_failed (gs : List (Guard κ)) (e : CacheError) :
    (failed gs e : Reload κ ν).onFlights = gs.map (.publish · (.error e)) ++ Chore.dropAll gs :=
  filterMap_onFlights _

@[simp] theorem later_asking (cs : List (Chore κ (Option ν))) (q : ReloadQuestion κ ν) :
    (asking cs q).later = q.guards := rfl

@[simp] theorem later_ending (cs : List (Chore κ (Option ν))) :
    (ending cs : Reload κ ν).later = [] := rfl

@[simp] theorem later_failed (gs : List (Guard κ)) (e : CacheError) :
    (failed gs e : Reload κ ν).later = [] := rfl

/-- A reload whose chores are in order. Several keys are only loaded if there are any. -/
structure Sound (r : Reload κ ν) : Prop where
  tidy : Chore.Tidy r.later r.onFlights
  loadMany_ne_nil : ∀ gs, r.question? = some (.loadMany gs) → gs ≠ []

private theorem guards_failed (gs : List (Guard κ)) (e : CacheError) :
    (failed gs e : Reload κ ν).guards = gs := by
  rw [guards, onFlights_failed, later_failed, Chore.removals_append, Chore.removals_map_publish,
    Chore.removals_dropAll, List.nil_append, List.append_nil]

private theorem sound_failed (gs : List (Guard κ)) (e : CacheError) :
    (failed gs e : Reload κ ν).Sound where
  tidy := by
    rw [onFlights_failed, later_failed]
    exact .publishAll gs _ (by simp) (.dropAll [] gs)
  loadMany_ne_nil _ hq := nomatch hq

/-- A reply costs no guard and makes none. -/
theorem resume_guards {q : ReloadQuestion κ ν} {answer : Reply κ ν} {r : Reload κ ν}
    (h : resume q answer = some r) : r.guards = q.guards := by
  cases q <;> cases answer <;> simp only [resume, Option.some.injEq, reduceCtorEq] at h <;> subst h
  case load.load g answer =>
    rcases answer.outcome with e | _ | v
    · exact guards_failed [g] e
    · rfl
    · rfl
  case write.written g v answer => rfl
  case delete.written g answer => rfl
  case loadMany.loadMany gs answer =>
    rcases answer.outcome with e | entries
    · exact guards_failed gs e
    · simp only [afterLoadMany]
      -- With nothing loaded all guards are dropped, otherwise they are held on to for the write.
      split <;> simp [guards, ReloadQuestion.guards]
  case writeMany.written gs entries answer => simp [guards, ReloadQuestion.guards]

/-- After a reply the chores are in order. -/
theorem resume_sound {q : ReloadQuestion κ ν} {answer : Reply κ ν} {r : Reload κ ν}
    (h : resume q answer = some r) : r.Sound := by
  -- Only replies of the kind that was asked for lead on.
  cases q <;> cases answer <;> simp only [resume, Option.some.injEq, reduceCtorEq] at h <;> subst h
  case load.load g answer =>
    rcases answer.outcome with e | _ | v
    · exact sound_failed [g] e
    · exact ⟨.nil, nofun⟩
    · exact ⟨.nil, nofun⟩
  case write.written g v answer => exact ⟨Chore.Tidy.nil.resolve g _, nofun⟩
  case delete.written g answer => exact ⟨Chore.Tidy.nil.resolve g _, nofun⟩
  case loadMany.loadMany gs answer =>
    rcases answer.outcome with e | entries
    · exact sound_failed gs e
    · simp only [afterLoadMany]
      -- With nothing to write the guards are dropped at once, else only after the write.
      split
      · refine ⟨?_, nofun⟩
        rw [onFlights_ending, later_ending]
        exact .publishAll gs _ (by simp) (.dropAll [] gs)
      · refine ⟨?_, nofun⟩
        have htidy : Chore.Tidy gs
            (gs.map (fun g => Chore.publish g (.ok entries[g.key]?)) ++ []) :=
          .publishAll gs _ (by simp) .nil
        rw [List.append_nil] at htidy
        rwa [onFlights_asking]
  case writeMany.written gs entries answer =>
    refine ⟨?_, nofun⟩
    rw [onFlights_ending]
    exact .dropAll _ gs

theorem torn_guards (q : ReloadQuestion κ ν) : (torn q).guards = q.guards := by
  simp [torn, guards]

theorem torn_sound (q : ReloadQuestion κ ν) : (torn q).Sound where
  tidy := by
    rw [torn, onFlights_ending]
    exact .dropAll _ q.guards
  loadMany_ne_nil _ hq := nomatch hq

/-- What is true of every reload between two of its steps. -/
structure Fit (r : Reload κ ν) (f : Flights κ (Option ν)) : Prop where
  ready : Chore.Ready f r.later r.onFlights
  loadMany_ne_nil : ∀ gs, r.question? = some (.loadMany gs) → gs ≠ []

theorem Sound.fit {r : Reload κ ν} (h : r.Sound) (f : Flights κ (Option ν)) : r.Fit f :=
  ⟨.inl h.tidy, h.loadMany_ne_nil⟩

end Reload

/-! ## Who starts a reload -/

namespace Starter

/-- Whoever has read one key has one key at most to deal with. -/
def Sound (st : Starter κ) : Prop :=
  st.single = true → st.todo.length + st.cleared?.toList.length + st.guards.length ≤ 1

variable {st : Starter κ} {k : κ} {todo : List κ}

omit [BEq κ] [Hashable κ]

theorem sound_ofRead (stale : Read κ) : (ofRead stale).Sound := by
  cases stale with
  | one k => exact fun _ => Nat.le_refl 1
  | many ks => exact nofun

@[simp] theorem guards_ofRead (stale : Read κ) : (ofRead stale).guards = [] := by
  cases stale <;> rfl

@[simp] theorem guards_lookedUp (st : Starter κ) (k : κ) (todo : List κ) (failed : Bool) :
    (st.lookedUp k todo failed).guards = st.guards := rfl

@[simp] theorem guards_joined (st : Starter κ) (p : Nat) :
    (st.registered (.joined p)).guards = st.guards := rfl

@[simp] theorem guards_owned (st : Starter κ) (g : Guard κ) :
    (st.registered (.owned g)).guards = st.guards ++ [g] := rfl

/-- A key that is looked up is dealt with then. -/
theorem Sound.lookedUp (h : st.Sound) (hcleared : st.cleared? = none) (htodo : st.todo = k :: todo)
    (failed : Bool) : (st.lookedUp k todo failed).Sound := by
  intro hsingle
  have hlen := h hsingle
  rw [hcleared, htodo] at hlen
  cases failed <;>
    simp only [Starter.lookedUp, List.length_cons, Option.toList_none, Option.toList_some,
      List.length_nil, if_true, Bool.false_eq_true, if_false] at hlen ⊢ <;>
    omega

/-- A key that is registered is dealt with then. -/
theorem Sound.registered (h : st.Sound) (hcleared : st.cleared? = some k) (r : Registration κ) :
    (st.registered r).Sound := by
  intro hsingle
  have hlen := h hsingle
  rw [hcleared] at hlen
  cases r <;>
    simp only [Starter.registered, List.length_append, List.length_singleton, Option.toList_none,
      Option.toList_some, List.length_nil] at hlen ⊢ <;>
    omega

/-- The question of a reload holds all guards of who has started it. -/
theorem question?_guards [BEq κ] [Hashable κ] (h : st.Sound) :
    ((st.question? : Option (ReloadQuestion κ ν)).map ReloadQuestion.guards).getD [] =
      st.guards := by
  simp only [question?]
  split
  · next hnil => exact hnil.symm
  · next g gs hsingle hguards =>
    -- Of one key there is one guard.
    have hlen := h hsingle
    rw [hguards, List.length_cons] at hlen
    obtain rfl : gs = [] := List.eq_nil_of_length_eq_zero (by omega)
    exact hguards.symm
  · rfl

/-- Several keys are only asked for if there are any. -/
theorem question?_loadMany [BEq κ] [Hashable κ] {gs : List (Guard κ)}
    (h : (st.question? : Option (ReloadQuestion κ ν)) = some (.loadMany gs)) : gs ≠ [] := by
  simp only [question?] at h
  split at h
  · cases h
  · cases h
  · next hsome =>
    obtain rfl := ReloadQuestion.loadMany.inj (Option.some.inj h)
    exact hsome

end Starter

namespace RefreshDelegate

/-! ## What a step can do -/

/-- What a step of a refreshing delegate can do. -/
inductive Moves (d : RefreshDelegate κ ν) : Step κ ν → RefreshDelegate κ ν → Prop where
  | loading (s : Delegate.Step κ ν) (delegate : Delegate κ ν) : d.delegate.Moves s delegate →
    Moves d (.loading s) { d with delegate := delegate }
  | refresh (stale : Read κ) : Moves d (.refresh stale) (d.refresh stale)
  | lookUp (now i : Nat) (st : Starter κ) (k : κ) (todo : List κ) : d.starters[i]? = some st →
    st.cleared? = none → st.todo = k :: todo →
    Moves d (.advance now i) (d.lookUp now i st k todo)
  | register (now i : Nat) (st : Starter κ) (k : κ) : d.starters[i]? = some st →
    st.cleared? = some k → Moves d (.advance now i) (d.register i st k)
  | launch (now i : Nat) (st : Starter κ) : d.starters[i]? = some st → st.cleared? = none →
    st.todo = [] → Moves d (.advance now i) (d.launch i st)
  | chore (now i : Nat) (c : ReloadChore κ ν) (rest : Reload κ ν) :
    d.reloads[i]? = some { rest with chores := c :: rest.chores } →
    Moves d (.chore now i) (d.chore now i c rest)
  | ask (i : Nat) (q : ReloadQuestion κ ν) : d.reloads[i]? = some ⟨[], some q, false⟩ →
    Moves d (.ask i) (d.setReload i ⟨[], some q, true⟩)
  | reply (i : Nat) (q : ReloadQuestion κ ν) (answer : Reply κ ν) (r : Reload κ ν) :
    d.reloads[i]? = some ⟨[], some q, true⟩ → Reload.resume q answer = some r →
    Moves d (.reply i answer) (d.setReload i r)
  | tear (i : Nat) (q : ReloadQuestion κ ν) (asked : Bool) :
    d.reloads[i]? = some ⟨[], some q, asked⟩ → Moves d (.tear i) (d.setReload i (.torn q))

/-- The rules tell all that a step can do. -/
theorem moves_of_step? {d d' : RefreshDelegate κ ν} {s : Step κ ν} (h : d.step? s = some d') :
    Moves d s d' := by
  -- One rule for each step, but three for `advance`, which does what is next for the starter.
  cases s with
  | loading s =>
    obtain ⟨delegate, hs, rfl⟩ := Option.map_eq_some_iff.1 h
    exact .loading s delegate (Delegate.moves_of_step? hs)
  | refresh stale =>
    obtain rfl := Option.some.inj h
    exact .refresh stale
  | advance now i =>
    obtain ⟨st, hst, rfl⟩ := Option.map_eq_some_iff.1 h
    simp only [advance]
    split
    · next k hcleared => exact .register now i st k hst hcleared
    · next k todo hcleared htodo => exact .lookUp now i st k todo hst hcleared htodo
    · next hcleared htodo => exact .launch now i st hst hcleared htodo
  | chore now i =>
    simp only [step?] at h
    split at h
    · next c chores question? asked hr =>
      obtain rfl := Option.some.inj h
      exact .chore now i c ⟨chores, question?, asked⟩ hr
    · exact nomatch h
  | ask i =>
    simp only [step?] at h
    split at h
    · next q hr =>
      obtain rfl := Option.some.inj h
      exact .ask i q hr
    · exact nomatch h
  | reply i answer =>
    simp only [step?] at h
    split at h
    · next q hr =>
      obtain ⟨r, hresume, rfl⟩ := Option.map_eq_some_iff.1 h
      exact .reply i q answer r hr hresume
    · exact nomatch h
  | tear i =>
    simp only [step?] at h
    split at h
    · next q asked hr =>
      obtain rfl := Option.some.inj h
      exact .tear i q asked hr
    · exact nomatch h

/-- What can happen around a refreshing delegate. -/
inductive Event (κ ν : Type) [BEq κ] [Hashable κ] where
  /-- A step of the delegate. -/
  | own (s : Step κ ν)
  /-- A caller writes, deletes or updates, which is handed to the cache as it is. -/
  | handOn

/-- The delegate after a run, if the run can happen. -/
def run? (d : RefreshDelegate κ ν) : List (Event κ ν) → Option (RefreshDelegate κ ν)
  | [] => some d
  | .own s :: es => (d.step? s).bind fun d' => d'.run? es
  | .handOn :: es => d.run? es

/-! ## What is kept -/

/-- Who holds a guard of a key that is being reloaded. -/
inductive ReloadHolder where
  /-- Whoever has registered the key and has not called the loader yet. -/
  | starter (i : Nat)
  | reload (i : Nat)
deriving DecidableEq

/-- The guards of a holder. -/
def held (d : RefreshDelegate κ ν) : ReloadHolder → List (Guard κ)
  | .starter i => (d.starters[i]?.map Starter.guards).getD []
  | .reload i => (d.reloads[i]?.map Reload.guards).getD []

/-- What is true of a refreshing delegate at every moment. -/
structure Inv (d : RefreshDelegate κ ν) : Prop where
  loading : d.delegate.Inv
  starter_lt : ∀ {i : Nat} {st : Starter κ}, d.starters[i]? = some st → i < d.nextStarter
  starter : ∀ {i : Nat} {st : Starter κ}, d.starters[i]? = some st → st.Sound
  reload_lt : ∀ {i : Nat} {r : Reload κ ν}, d.reloads[i]? = some r → i < d.next
  guarded : d.flights.Guarded d.held
  fit : ∀ {i : Nat} {r : Reload κ ν}, d.reloads[i]? = some r → r.Fit d.flights

/-- A new delegate has no flights. -/
theorem Inv.ofRetry (retry : Nat) : (RefreshDelegate.ofRetry retry : RefreshDelegate κ ν).Inv where
  loading := .empty
  starter_lt h := by simp [RefreshDelegate.ofRetry] at h
  starter h := by simp [RefreshDelegate.ofRetry] at h
  reload_lt h := by simp [RefreshDelegate.ofRetry] at h
  guarded := Flights.Guarded.empty.perm fun i => by cases i <;> simp [held, RefreshDelegate.ofRetry]
  fit h := by simp [RefreshDelegate.ofRetry] at h

private theorem guards_of_over {r : Reload κ ν} (h : r.isOver = true) : r.guards = [] := by
  obtain ⟨chores, question?, asked⟩ := r
  simp only [Reload.isOver, Bool.and_eq_true, List.isEmpty_iff, Option.isNone_iff_eq_none] at h
  obtain ⟨rfl, rfl⟩ := h
  rfl

/-- A reload at its end is not put back. -/
theorem get_putReload (rs : Std.HashMap Nat (Reload κ ν)) (i j : Nat) (r : Reload κ ν) :
    (putReload rs i r)[j]? = if j = i then (if r.isOver then none else some r) else rs[j]? := by
  simp only [putReload]
  split
  · exact Delegate.get_erase rs i j
  · exact Delegate.get_insert rs i j r

/-- Putting a reload back changes who holds guards only for itself. -/
private theorem held_putReload {d : RefreshDelegate κ ν} (d' : RefreshDelegate κ ν) {i : Nat}
    {r : Reload κ ν} (hreloads : d'.reloads = putReload d.reloads i r)
    (hstarters : d'.starters = d.starters) (h : ReloadHolder) :
    d'.held h = if h = .reload i then r.guards else d.held h := by
  cases h with
  | starter j => simp [held, hstarters]
  | reload j =>
    simp only [held, hreloads, get_putReload, ReloadHolder.reload.injEq]
    by_cases hj : j = i
    · rw [if_pos hj, if_pos hj]
      split
      · next hover => exact (guards_of_over hover).symm
      · rfl
    · rw [if_neg hj, if_neg hj]

/-- A reload may be put in the place of another one if it holds the guards that are left, and if
completed promises stay completed. -/
private theorem Inv.replaceReload {d d' : RefreshDelegate κ ν} (h : d.Inv) {i : Nat}
    {r r' : Reload κ ν} (hr : d.reloads[i]? = some r) (hdelegate : d'.delegate = d.delegate)
    (hstarters : d'.starters = d.starters) (hnextStarter : d'.nextStarter = d.nextStarter)
    (hreloads : d'.reloads = putReload d.reloads i r') (hnext : d'.next = d.next)
    (hguarded : d'.flights.Guarded d'.held)
    (hmono : ∀ p, (d.flights.outcome? p).isSome → (d'.flights.outcome? p).isSome)
    (hfit : r'.Fit d'.flights) : d'.Inv where
  loading := hdelegate ▸ h.loading
  starter_lt hj := hnextStarter ▸ h.starter_lt (hstarters ▸ hj)
  starter hj := h.starter (hstarters ▸ hj)
  reload_lt {j rj} hj := by
    rw [hreloads, get_putReload] at hj
    rw [hnext]
    by_cases hji : j = i
    · subst hji
      exact h.reload_lt hr
    · rw [if_neg hji] at hj
      exact h.reload_lt hj
  guarded := hguarded
  fit {j rj} hj := by
    rw [hreloads, get_putReload] at hj
    by_cases hji : j = i
    · rw [if_pos hji] at hj
      split at hj
      · exact nomatch hj
      · exact Option.some.inj hj ▸ hfit
    · rw [if_neg hji] at hj
      -- Another reload may be about to remove an entry: its promise stays completed.
      exact ⟨(h.fit hj).ready.mono hmono, (h.fit hj).loadMany_ne_nil⟩

/-- A reload may go on in another way with the guards that it has. -/
private theorem Inv.setReload {d : RefreshDelegate κ ν} (h : d.Inv) {i : Nat} {r r' : Reload κ ν}
    (hr : d.reloads[i]? = some r) (hguards : r'.guards = r.guards) (hsound : r'.Sound) :
    (d.setReload i r').Inv := by
  refine h.replaceReload hr rfl rfl rfl rfl rfl (h.guarded.perm fun j => ?_)
    (fun _ hp => hp) (hsound.fit _)
  rw [held_putReload (d.setReload i r') (d := d) rfl rfl]
  split
  · next hj =>
    subst hj
    simp [held, hr, hguards]
  · exact .refl _

/-- Doing a chore keeps the invariant. -/
private theorem Inv.doChore [LawfulBEq κ] {d : RefreshDelegate κ ν} (h : d.Inv) {now i : Nat}
    {c : ReloadChore κ ν} {rest : Reload κ ν}
    (hr : d.reloads[i]? = some { rest with chores := c :: rest.chores }) :
    (d.chore now i c rest).Inv := by
  cases c with
  | remember ks =>
    -- What is remembered of failures is no matter of the flights.
    refine h.replaceReload hr rfl rfl rfl rfl rfl
      (h.guarded.perm fun j => ?_) (fun _ hp => hp)
      ⟨(h.fit hr).ready, (h.fit hr).loadMany_ne_nil⟩
    rw [held_putReload (d.chore now i (.remember ks) rest) (d := d) rfl rfl]
    split
    · next hj =>
      subst hj
      simp only [held, hr]
      exact .refl _
    · exact .refl _
  | onFlights c =>
    have hready : Chore.Ready d.flights rest.later (c :: rest.onFlights) := (h.fit hr).ready
    have hheld : d.held (.reload i) = Chore.removals (c :: rest.onFlights) ++ rest.later := by
      simp only [held, hr]
      rfl
    have hlt := h.guarded.promise_lt_of_mem (hheld ▸ hready.guard_mem)
    have hheld' := held_putReload (d.chore now i (.onFlights c) rest) (d := d) (i := i)
      (r := rest) rfl rfl
    -- The reload keeps the guards that its chores have not dropped, all others keep theirs.
    obtain ⟨hguarded, hready⟩ : (c.run d.flights).Guarded (d.chore now i (.onFlights c) rest).held ∧
        Chore.Ready (c.run d.flights) rest.later rest.onFlights := by
      refine h.guarded.chore hready hheld ?_ fun j hj => ?_
      · rw [hheld', if_pos rfl, Reload.guards]
      · rw [hheld', if_neg hj]
    refine h.replaceReload hr rfl rfl rfl rfl rfl hguarded
      (fun p hp => ?_) ⟨hready, (h.fit hr).loadMany_ne_nil⟩
    obtain ⟨o, ho⟩ := Option.isSome_iff_exists.1 hp
    exact Option.isSome_iff_exists.2 ⟨o, Chore.run_outcome?_of_some hlt ho⟩

/-! ## The start of a reload -/

/-- Changing a starter changes who holds guards only for itself. -/
private theorem held_insertStarter {d d' : RefreshDelegate κ ν} {i : Nat} {st : Starter κ}
    (hstarters : d'.starters = d.starters.insert i st) (hreloads : d'.reloads = d.reloads)
    (h : ReloadHolder) : d'.held h = if h = .starter i then st.guards else d.held h := by
  cases h with
  | reload j => simp [held, hreloads]
  | starter j =>
    simp only [held, hstarters, Delegate.get_insert, ReloadHolder.starter.injEq]
    by_cases hj : j = i
    · rw [if_pos hj, if_pos hj]
      rfl
    · rw [if_neg hj, if_neg hj]

/-- A starter may be put in the place of another one, or be a new one, if it holds the guards that
are there. -/
private theorem Inv.setStarter {d d' : RefreshDelegate κ ν} (h : d.Inv) {i : Nat} {st : Starter κ}
    (hi : i < d'.nextStarter) (hnextStarter : d.nextStarter ≤ d'.nextStarter)
    (hstarters : d'.starters = d.starters.insert i st) (hdelegate : d'.delegate = d.delegate)
    (hreloads : d'.reloads = d.reloads) (hnext : d'.next = d.next)
    (hguarded : d'.flights.Guarded fun m => if m = .starter i then st.guards else d.held m)
    (hout : ∀ p, d'.flights.outcome? p = d.flights.outcome? p) (hsound : st.Sound) : d'.Inv where
  loading := hdelegate ▸ h.loading
  starter_lt {j sj} hj := by
    rw [hstarters, Delegate.get_insert] at hj
    by_cases hji : j = i
    · exact hji ▸ hi
    · rw [if_neg hji] at hj
      exact Nat.lt_of_lt_of_le (h.starter_lt hj) hnextStarter
  starter {j sj} hj := by
    rw [hstarters, Delegate.get_insert] at hj
    by_cases hji : j = i
    · rw [if_pos hji] at hj
      exact Option.some.inj hj ▸ hsound
    · rw [if_neg hji] at hj
      exact h.starter hj
  reload_lt hj := hnext ▸ h.reload_lt (hreloads ▸ hj)
  guarded := hguarded.perm fun m => .of_eq (held_insertStarter hstarters hreloads m)
  fit hj := by
    rw [hreloads] at hj
    exact ⟨(h.fit hj).ready.mono fun p hp => hout p ▸ hp, (h.fit hj).loadMany_ne_nil⟩

/-- A starter may go on in another way with the guards that it has. -/
private theorem Inv.setStarter_same {d d' : RefreshDelegate κ ν} (h : d.Inv) {i : Nat}
    {st : Starter κ} (hheld : d.held (.starter i) = st.guards) (hi : i < d'.nextStarter)
    (hnextStarter : d.nextStarter ≤ d'.nextStarter)
    (hstarters : d'.starters = d.starters.insert i st) (hdelegate : d'.delegate = d.delegate)
    (hreloads : d'.reloads = d.reloads) (hnext : d'.next = d.next)
    (hflights : d'.flights = d.flights) (hsound : st.Sound) : d'.Inv := by
  refine h.setStarter hi hnextStarter hstarters hdelegate hreloads hnext ?_
    (fun p => by rw [hflights])
    hsound
  rw [hflights]
  refine h.guarded.perm fun m => ?_
  split
  · next hm =>
    rw [hm, hheld]
  · exact .refl _

/-- Who starts a reload has no guards to begin with. -/
private theorem Inv.refresh {d : RefreshDelegate κ ν} (h : d.Inv) (stale : Read κ) :
    (d.refresh stale).Inv := by
  -- The number of the starter was never used.
  have hnone : d.starters[d.nextStarter]? = none := by
    cases hst : d.starters[d.nextStarter]? with
    | none => rfl
    | some st => exact absurd (h.starter_lt hst) (Nat.lt_irrefl _)
  refine h.setStarter_same ?_ (Nat.lt_succ_self _) (Nat.le_succ _) rfl rfl rfl rfl rfl
    (Starter.sound_ofRead stale)
  simp [held, hnone]

/-- Looking a key up costs no guard and makes none. -/
private theorem Inv.lookUp {d : RefreshDelegate κ ν} (h : d.Inv) {now i : Nat} {st : Starter κ}
    {k : κ} {todo : List κ} (hst : d.starters[i]? = some st) (hcleared : st.cleared? = none)
    (htodo : st.todo = k :: todo) : (d.lookUp now i st k todo).Inv := by
  refine h.setStarter_same ?_ (h.starter_lt hst) (Nat.le_refl _) rfl rfl rfl rfl rfl
    ((h.starter hst).lookedUp hcleared htodo _)
  simp [held, hst]

/-- A key that is being reloaded is left to that reload. -/
theorem register_joined {d : RefreshDelegate κ ν} {k : κ} {p : Nat}
    (hk : d.flights.registry[k]? = some p) (i : Nat) (st : Starter κ) :
    d.register i st k = { d with starters := d.starters.insert i (st.registered (.joined p)) } := by
  simp only [RefreshDelegate.register, Flights.register_joined hk]

/-- Any other key gets a flight of its own. -/
theorem register_owned {d : RefreshDelegate κ ν} {k : κ} (hk : d.flights.registry[k]? = none)
    (i : Nat) (st : Starter κ) : d.register i st k =
      { d with
        flights := ⟨d.flights.registry.insert k d.flights.promises.size,
          d.flights.promises.push none⟩
        starters := d.starters.insert i
          (st.registered (.owned ⟨k, d.flights.promises.size⟩)) } := by
  simp only [RefreshDelegate.register, Flights.register_owned hk]

/-- Registering a key keeps the invariant: the key is left to its reload, or gets a flight with a
guard for the starter. -/
private theorem Inv.register [LawfulBEq κ] {d : RefreshDelegate κ ν} (h : d.Inv) {i : Nat}
    {st : Starter κ} {k : κ} (hst : d.starters[i]? = some st) (hcleared : st.cleared? = some k) :
    (d.register i st k).Inv := by
  have hlt := h.starter_lt hst
  have hheld : d.held (.starter i) = st.guards := by simp [held, hst]
  cases hk : d.flights.registry[k]? with
  | some p =>
    rw [register_joined hk]
    have hsame : d.held (.starter i) = (st.registered (.joined p)).guards := hheld
    exact h.setStarter_same hsame hlt (Nat.le_refl _) rfl rfl rfl rfl rfl
      ((h.starter hst).registered hcleared (.joined p))
  | none =>
    rw [register_owned hk]
    refine h.setStarter hlt (Nat.le_refl _) rfl rfl rfl rfl
      (h.guarded.register hk (i := .starter i) ?_ fun j hj => if_neg hj)
      (fun p => Flights.outcome?_push _ _ p) ((h.starter hst).registered hcleared (.owned _))
    rw [if_pos rfl, hheld]
    rfl

/-- What is left of the starters when one of them is through. -/
private theorem get_eraseStarter {d : RefreshDelegate κ ν} {i j : Nat} {st : Starter κ}
    (hj : (d.starters.erase i)[j]? = some st) : j ≠ i ∧ d.starters[j]? = some st := by
  rw [Delegate.get_erase] at hj
  by_cases hji : j = i
  · rw [if_pos hji] at hj
    cases hj
  · rw [if_neg hji] at hj
    exact ⟨hji, hj⟩

/-- Starting a reload hands the guards over to it. -/
private theorem Inv.launch {d : RefreshDelegate κ ν} (h : d.Inv) {i : Nat} {st : Starter κ}
    (hst : d.starters[i]? = some st) : (d.launch i st).Inv := by
  have hguards := st.question?_guards (ν := ν) (h.starter hst)
  simp only [RefreshDelegate.launch]
  split
  · next hnone =>
    rw [hnone, Option.map_none, Option.getD_none] at hguards
    refine ⟨h.loading, fun hj => h.starter_lt (get_eraseStarter hj).2,
      fun hj => h.starter (get_eraseStarter hj).2, h.reload_lt, h.guarded.perm fun m => ?_, h.fit⟩
    -- The starter held no guards, so that none is lost with it.
    cases m with
    | reload j => exact .refl _
    | starter j =>
      simp only [held, Delegate.get_erase]
      by_cases hji : j = i
      · subst hji
        simp [hst, ← hguards]
      · rw [if_neg hji]
  · next q hq =>
    rw [hq, Option.map_some, Option.getD_some] at hguards
    -- The number of the new reload was never used, so that it has no guards of its own yet.
    have hnext : d.reloads[d.next]? = none := by
      cases hr : d.reloads[d.next]? with
      | none => rfl
      | some r => exact absurd (h.reload_lt hr) (Nat.lt_irrefl _)
    constructor
    case loading => exact h.loading
    case starter_lt => exact fun hj => h.starter_lt (get_eraseStarter hj).2
    case starter => exact fun hj => h.starter (get_eraseStarter hj).2
    case reload_lt =>
      intro j rj hj
      simp only [Delegate.get_insert] at hj
      split at hj
      · next hjn => exact hjn ▸ Nat.lt_succ_self _
      · exact Nat.lt_succ_of_lt (h.reload_lt hj)
    case guarded =>
      -- What the starter had is what the reload has; everybody else keeps what they have.
      refine h.guarded.handOver (i := .starter i) (j := .reload d.next) ?_ ?_ ?_ ?_
      · simp [held, hnext]
      · simp [held]
      · simp only [held, Std.HashMap.getElem?_insert_self, hst, Option.map_some, Option.getD_some]
        exact hguards
      · intro m hmi hmn
        cases m with
        | starter j =>
          have hji : j ≠ i := fun hji => hmi (congrArg _ hji)
          simp only [held, Delegate.get_erase, if_neg hji]
        | reload j =>
          have hjn : j ≠ d.next := fun hjn => hmn (congrArg _ hjn)
          simp only [held, Delegate.get_insert, if_neg hjn]
    case fit =>
      intro j rj hj
      simp only [Delegate.get_insert] at hj
      split at hj
      · obtain rfl := Option.some.inj hj
        exact ⟨.inl .nil, fun gs hgs => Starter.question?_loadMany (hq.trans hgs)⟩
      · exact h.fit hj

/-! ## All steps -/

/-- The invariant is kept by every step. -/
theorem Inv.moves [LawfulBEq κ] {d d' : RefreshDelegate κ ν} {s : Step κ ν} (h : d.Inv)
    (hm : Moves d s d') : d'.Inv := by
  cases hm with
  | loading s delegate hs =>
    exact ⟨h.loading.moves hs, h.starter_lt, h.starter, h.reload_lt, h.guarded, h.fit⟩
  | refresh stale => exact h.refresh stale
  | lookUp now i st k todo hst hcleared htodo => exact h.lookUp hst hcleared htodo
  | register now i st k hst hcleared => exact h.register hst hcleared
  | launch now i st hst hcleared htodo => exact h.launch hst
  | chore now i c rest hr => exact h.doChore hr
  | ask i q hr => exact h.setReload hr rfl ⟨.nil, (h.fit hr).loadMany_ne_nil⟩
  | reply i q answer r hr hresume =>
    exact h.setReload hr (Reload.resume_guards hresume) (Reload.resume_sound hresume)
  | tear i q asked hr => exact h.setReload hr (Reload.torn_guards q) (Reload.torn_sound q)

/-- The invariant holds after every run. -/
theorem inv_of_run? [LawfulBEq κ] {d d' : RefreshDelegate κ ν} (h : d.Inv) {es : List (Event κ ν)}
    (hrun : d.run? es = some d') : d'.Inv := by
  induction es generalizing d with
  | nil =>
    obtain rfl := Option.some.inj hrun
    exact h
  | cons e es ih =>
    cases e with
    | own s =>
      obtain ⟨d₁, h₁, hrun⟩ := Option.bind_eq_some_iff.1 hrun
      exact ih (h.moves (moves_of_step? h₁)) hrun
    | handOn => exact ih h hrun

end RefreshDelegate

end CacheLayer
