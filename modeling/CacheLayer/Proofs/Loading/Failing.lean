import CacheLayer.Proofs.Loading.Sites
/-!
# Reloads that fail

A reload fails when the loader answers an error or breaks off. From then on it asks for nothing: it
records the failure of all its keys, tells that there is nothing to wait for, and drops its guards.
Reloads and failures are counted one by one, however many keys they are about.

## Key results

- `LoadEnd.isSome_failure?_iff`: the three ways in which a call of the loader fails
- `Reload.resume_cases`: a reload goes on in one way if the loader has failed, and else in others
- `RefreshDelegate.Moves.rest`: all that a reload can do that asks for nothing more
- `RefreshDelegate.Tally.moves`: every reload is counted once, and every failure once
-/

namespace CacheLayer

variable {κ ν α : Type} [BEq κ] [Hashable κ]

/-! ## Failures of the loader -/

/-- The error that a call of the loader has come to, if it has failed. -/
def LoadEnd.failure? (r : LoadEnd α) : Option CacheError :=
  match r.outcome with
  | .ok _ => none
  | .error e => some e

/-- A call has failed if the loader has answered an error, and if it has broken off, be it while it
was called or later. -/
theorem LoadEnd.isSome_failure?_iff {r : LoadEnd α} : r.failure?.isSome ↔
    (∃ e, r = .answered (.error e)) ∨ (∃ m, r = .brokeAtCall m) ∨ ∃ m, r = .brokeLater m := by
  rcases r with (e | a) | m | m <;> simp [failure?, outcome]

/-- The error that a reply of the loader tells of. -/
def Reply.failure? : Reply κ ν → Option CacheError
  | .load r => r.failure?
  | .loadMany r => r.failure?
  | _ => none

omit [BEq κ] [Hashable κ] in
/-- Dropping a guard takes two chores. -/
theorem Chore.length_dropAll (gs : List (Guard κ)) :
    (dropAll gs : List (Chore κ α)).length = 2 * gs.length := by
  induction gs with
  | nil => rfl
  | cons g gs ih =>
    rw [dropAll, List.flatMap_cons, List.length_append, ← dropAll, ih]
    simp only [drop, List.length_cons, List.length_nil]
    omega

namespace Reload

/-- Whether a reload has no failure to record. -/
def Plain (r : Reload κ ν) : Prop :=
  ∃ cs : List (Chore κ (Option ν)), r.chores = cs.map .onFlights

/-- A reload goes on in one way if the loader has failed; else it has no failure to record. -/
theorem resume_cases {q : ReloadQuestion κ ν} {answer : Reply κ ν} {r : Reload κ ν}
    (h : resume q answer = some r) :
    (∃ e, answer.failure? = some e ∧ r = failed q.guards e) ∨
      answer.failure? = none ∧ r.Plain := by
  -- Only loads can fail; a write-back that fails is no failure of a reload.
  cases q <;> cases answer <;> simp only [resume, Option.some.injEq, reduceCtorEq] at h <;> subst h
  case load.load g answer =>
    simp only [Reply.failure?, LoadEnd.failure?]
    rcases answer.outcome with e | _ | v
    · exact .inl ⟨e, rfl, rfl⟩
    · exact .inr ⟨rfl, [], rfl⟩
    · exact .inr ⟨rfl, [], rfl⟩
  case write.written g v answer => exact .inr ⟨rfl, _, rfl⟩
  case delete.written g answer => exact .inr ⟨rfl, _, rfl⟩
  case loadMany.loadMany gs answer =>
    simp only [Reply.failure?, LoadEnd.failure?]
    rcases answer.outcome with e | entries
    · exact .inl ⟨e, rfl, rfl⟩
    · refine .inr ⟨rfl, ?_⟩
      simp only [afterLoadMany]
      split
      · exact ⟨_, rfl⟩
      · exact ⟨_, rfl⟩
  case writeMany.written gs entries answer => exact .inr ⟨rfl, _, rfl⟩

/-- What there is of a reload that asks for nothing more and has these chores to do. -/
def rest? (cs : List (ReloadChore κ ν)) : Option (Reload κ ν) :=
  if cs.isEmpty then none else some ⟨cs, none, false⟩

/-- A reload that has failed has one chore for all keys, and three for each of them. -/
theorem length_chores_failed (gs : List (Guard κ)) (e : CacheError) :
    (failed gs e : Reload κ ν).chores.length = 1 + 3 * gs.length := by
  simp only [failed, List.length_cons, List.length_map, List.length_append, Chore.length_dropAll]
  omega

/-- A chore costs no other guards than the one that it drops. -/
theorem guards_subset (c : ReloadChore κ ν) (r : Reload κ ν) :
    r.guards ⊆ ({ r with chores := c :: r.chores } : Reload κ ν).guards := by
  rw [guards, guards]
  refine List.append_subset.2 ⟨?_, List.subset_append_right _ _⟩
  refine List.Subset.trans ?_ (List.subset_append_left _ _)
  rcases c with ks | g | g | g
  · exact List.Subset.refl _
  · exact List.Subset.refl _
  · exact List.Subset.refl _
  · exact List.subset_cons_self _ _

/-- Whether a reload has failed and has not recorded it yet. -/
def unrecorded (r : Reload κ ν) : Bool :=
  match r.chores with
  | .remember _ :: _ => true
  | _ => false

theorem Plain.unrecorded_eq {r : Reload κ ν} (h : r.Plain) : r.unrecorded = false := by
  obtain ⟨cs, hcs⟩ := h
  cases cs <;> simp [unrecorded, hcs]

end Reload

/-! ## Steps of reloads -/

namespace RefreshDelegate

/-- The reload that takes a step. -/
def Step.reload? : Step κ ν → Option Nat
  | .chore _ i => some i
  | .ask i => some i
  | .reply i _ => some i
  | .tear i => some i
  | _ => none

/-- The reload that fails in a step. -/
def Step.fails? : Step κ ν → Option Nat
  | .reply i answer => if answer.failure?.isSome then some i else none
  | _ => none

/-- The chores that a reload has left. -/
def choresLeft (d : RefreshDelegate κ ν) (i : Nat) : List (ReloadChore κ ν) :=
  (d.reloads[i]?.map Reload.chores).getD []

variable {d d' : RefreshDelegate κ ν} {s : Step κ ν} {i j : Nat}

theorem Step.fails?_eq_none (h : s.reload? = none) : s.fails? = none := by
  cases s <;> first | rfl | cases h

/-- Whatever a chore does, the rest of the reload is put back. -/
theorem chore_reloads (d : RefreshDelegate κ ν) (now i : Nat) (c : ReloadChore κ ν)
    (rest : Reload κ ν) : (d.chore now i c rest).reloads = putReload d.reloads i rest := by
  cases c <;> rfl

/-- Numbers of reloads only grow. -/
theorem Moves.next_le (hm : Moves d s d') : d.next ≤ d'.next :=
  Nat.le_of_not_lt fun hlt => Nat.lt_irrefl _ (hm.knows (x := .reload d'.next) hlt)

/-- The start of a reload leaves the others alone. -/
theorem launch_reloads_of_ne {st : Starter κ} (hi : i ≠ d.next) :
    (d.launch j st).reloads[i]? = d.reloads[i]? := by
  simp only [RefreshDelegate.launch]
  split
  · rfl
  · rw [Delegate.get_insert, if_neg hi]

/-- A step leaves those reloads alone that do not take it. -/
theorem Moves.reload_of_ne (hm : Moves d s d') (hi : i < d.next) (hs : s.reload? ≠ some i) :
    d'.reloads[i]? = d.reloads[i]? := by
  have hput : ∀ {j : Nat} (r : Reload κ ν), some j ≠ some i →
      (putReload d.reloads j r)[i]? = d.reloads[i]? := by
    intro j r hj
    rw [get_putReload, if_neg fun hij => hj (congrArg some hij.symm)]
  cases hm with
  | loading s delegate hs => rfl
  | refresh stale => rfl
  | lookUp now j st k todo hst hcleared htodo => rfl
  | register now j st k hst hcleared => rfl
  | launch now j st hst hcleared htodo => exact launch_reloads_of_ne (Nat.ne_of_lt hi)
  | chore now j c rest hr =>
    rw [chore_reloads]
    exact hput rest hs
  | ask j q hr => exact hput _ hs
  | reply j q answer r hr hresume => exact hput r hs
  | tear j q asked hr => exact hput _ hs

/-- A reload that asks for nothing more can only do its next chore. -/
theorem Moves.rest (hm : Moves d s d') {cs : List (ReloadChore κ ν)}
    (hr : d.reloads[i]? = Reload.rest? cs) (hs : s.reload? = some i) :
    ∃ now c cs', s = .chore now i ∧ cs = c :: cs' ∧ d'.reloads[i]? = Reload.rest? cs' ∧
      d' = d.chore now i c ⟨cs', none, false⟩ := by
  -- All other steps take a question.
  have hasks : ∀ {q : ReloadQuestion κ ν} {asked : Bool},
      d.reloads[i]? ≠ some ⟨[], some q, asked⟩ := by
    intro q asked hq
    rw [hr, Reload.rest?] at hq
    split at hq
    · cases hq
    · cases congrArg Reload.question? (Option.some.inj hq)
  -- The reload is in none of the steps of others, and has no question for the other steps of its
  -- own.
  cases hm with
  | loading s delegate hs' => cases hs
  | refresh stale => cases hs
  | lookUp now j st k todo hst hcleared htodo => cases hs
  | register now j st k hst hcleared => cases hs
  | launch now j st hst hcleared htodo => cases hs
  | ask j q hq => exact absurd (Option.some.inj hs ▸ hq) hasks
  | reply j q answer r hq hresume => exact absurd (Option.some.inj hs ▸ hq) hasks
  | tear j q asked hq => exact absurd (Option.some.inj hs ▸ hq) hasks
  | chore now j c rest hj =>
    obtain rfl : j = i := Option.some.inj hs
    rw [hr, Reload.rest?] at hj
    split at hj
    · cases hj
    · obtain ⟨cs', question?, asked⟩ := rest
      obtain ⟨rfl, rfl, rfl⟩ := Reload.mk.inj (Option.some.inj hj)
      refine ⟨now, c, cs', rfl, rfl, ?_, rfl⟩
      rw [chore_reloads, get_putReload, if_pos rfl, Reload.rest?, Reload.isOver, Option.isNone_none,
        Bool.and_true]

/-- The guards that a reload holds once it has begun do not get more. -/
theorem Moves.held_subset (hm : Moves d s d') (hj : j < d.next) :
    d'.held (.reload j) ⊆ d.held (.reload j) := by
  by_cases hs : s.reload? = some j
  · -- Putting a reload back with fewer guards leaves it with those, and at its end with none.
    have hput : ∀ {r : Reload κ ν} (r' : Reload κ ν), d.reloads[j]? = some r →
        r'.guards ⊆ r.guards → d'.reloads = putReload d.reloads j r' →
        d'.held (.reload j) ⊆ d.held (.reload j) := by
      intro r r' hr hsub hreloads
      simp only [held, hreloads, get_putReload, if_pos, hr, Option.map_some, Option.getD_some]
      split
      · exact List.nil_subset _
      · exact hsub
    cases hm with
    | loading s delegate hs' => cases hs
    | refresh stale => cases hs
    | lookUp now i st k todo hst hcleared htodo => cases hs
    | register now i st k hst hcleared => cases hs
    | launch now i st hst hcleared htodo => cases hs
    | chore now i c rest hr =>
      obtain rfl : i = j := Option.some.inj hs
      exact hput rest hr (rest.guards_subset c) (chore_reloads d now i c rest)
    | ask i q hr =>
      obtain rfl : i = j := Option.some.inj hs
      exact hput ⟨[], some q, true⟩ hr (List.Subset.refl _) rfl
    | reply i q answer r hr hresume =>
      obtain rfl : i = j := Option.some.inj hs
      refine hput r hr ?_ rfl
      rw [Reload.resume_guards hresume]
      exact List.Subset.refl _
    | tear i q asked hr =>
      obtain rfl : i = j := Option.some.inj hs
      refine hput (.torn q) hr ?_ rfl
      rw [Reload.torn_guards]
      exact List.Subset.refl _
  · rw [held, held, hm.reload_of_ne hj hs]
    exact List.Subset.refl _

/-- A step makes no fewer promises. -/
theorem Moves.promises_le (hm : Moves d s d') :
    d.flights.promises.size ≤ d'.flights.promises.size := by
  cases hm with
  | register now i st k hst hcleared =>
    cases hk : d.flights.registry[k]? with
    | some p => exact Nat.le_of_eq (by rw [register_joined hk])
    | none =>
      rw [register_owned hk]
      simp
  | launch now i st hst hcleared htodo =>
    simp only [RefreshDelegate.launch]
    split <;> exact Nat.le_refl _
  | chore now i c rest hr =>
    cases c with
    | onFlights c => exact Nat.le_of_eq (Chore.run_promises_size _ _).symm
    | remember ks => exact Nat.le_refl _
  | _ => exact Nat.le_refl _

/-- A starter gets no guard of a flight that others have begun. -/
theorem Moves.starter_guard (hm : Moves d s d') {g : Guard κ} (hg : g ∈ d'.held (.starter j)) :
    g ∈ d.held (.starter j) ∨ d.flights.promises.size ≤ g.promise := by
  -- What a starter has that is put in the place of another one.
  have hput : ∀ {i : Nat} {st : Starter κ}, d'.starters = d.starters.insert i st →
      (∀ g ∈ st.guards, g ∈ d.held (.starter i) ∨ d.flights.promises.size ≤ g.promise) →
      g ∈ d.held (.starter j) ∨ d.flights.promises.size ≤ g.promise := by
    intro i st hstarters hall
    simp only [held, hstarters, Delegate.get_insert] at hg
    by_cases hji : j = i
    · rw [if_pos hji] at hg
      exact hji ▸ hall g hg
    · rw [if_neg hji] at hg
      exact .inl hg
  cases hm with
  | refresh stale =>
    have hstarters : (d.refresh stale).starters =
        d.starters.insert d.nextStarter (.ofRead stale) := rfl
    exact hput hstarters (by simp)
  | lookUp now i st k todo hst hcleared htodo =>
    exact hput rfl fun g hg => .inl (by simpa [held, hst] using hg)
  | register now i st k hst hcleared =>
    cases hk : d.flights.registry[k]? with
    | some p =>
      refine hput (by rw [register_joined hk]) fun g hg => .inl ?_
      simpa [held, hst] using hg
    | none =>
      refine hput (by rw [register_owned hk]) fun g hg => ?_
      rcases List.mem_append.1 hg with hg | hg
      · exact .inl (by simpa [held, hst] using hg)
      · -- This is the flight that the step begins.
        rw [List.mem_singleton.1 hg]
        exact .inr (Nat.le_refl _)
  | launch now i st hst hcleared htodo =>
    simp only [held, launch_starters, Delegate.get_erase] at hg
    split at hg
    · exact absurd hg List.not_mem_nil
    · exact .inl hg
  | chore now i c rest hr => cases c <;> exact .inl hg
  | _ => exact .inl hg

/-! ## Counting reloads and failures -/

/-- Whether a reload has failed and has not recorded it yet. -/
def unrecorded (d : RefreshDelegate κ ν) (i : Nat) : Bool := d.reloads[i]?.any Reload.unrecorded

/-- What has been counted after the given reloads have failed. -/
structure Tally (failed : List Nat) (d : RefreshDelegate κ ν) : Prop where
  /-- No reload fails twice. -/
  nodup : failed.Nodup
  known : ∀ i ∈ failed, i < d.next
  /-- A reload that has failed asks for nothing. -/
  silent : ∀ {i : Nat} {r : Reload κ ν}, i ∈ failed → d.reloads[i]? = some r → r.question? = none
  /-- Who has failures to record has failed, and records them before all else. -/
  records : ∀ {i : Nat} {r : Reload κ ν}, d.reloads[i]? = some r →
    r.Plain ∨ i ∈ failed ∧ ∃ ks, ∃ cs : List (Chore κ (Option ν)),
      r.chores = .remember ks :: cs.map .onFlights
  refreshes_eq : d.stats.refreshes = d.next
  refreshErrors_eq : d.stats.refreshErrors + failed.countP d.unrecorded = failed.length

/-- Nothing has been counted by a new delegate. -/
theorem Tally.ofRetry (retry : Nat) : Tally [] (RefreshDelegate.ofRetry retry : RefreshDelegate κ ν)
    where
  nodup := .nil
  known _ hi := absurd hi List.not_mem_nil
  silent hi := absurd hi List.not_mem_nil
  records hr := by simp [RefreshDelegate.ofRetry] at hr
  refreshes_eq := rfl
  refreshErrors_eq := rfl

/-- Of different numbers, one fewer is counted if one of them is not counted any more. -/
private theorem countP_except {l : List Nat} (hnodup : l.Nodup) (hi : i ∈ l) {P P' : Nat → Bool}
    (hP : P i = true) (hP' : P' i = false) (hsame : ∀ j, j ≠ i → P' j = P j) :
    l.countP P = l.countP P' + 1 := by
  have hperm := List.perm_cons_erase hi
  have hrest : (l.erase i).countP P' = (l.erase i).countP P :=
    List.countP_congr fun j hj => by rw [hsame j ((hnodup.mem_erase_iff).1 hj).1]
  rw [hperm.countP_eq, hperm.countP_eq, List.countP_cons_of_pos hP,
    List.countP_cons_of_neg (by simp [hP']), hrest]

/-- When a reload has no failure left to record, there is one fewer if it has had one. -/
private theorem Tally.countP_unrecorded {failed : List Nat} (h : Tally failed d) {r : Reload κ ν}
    (hr : d.reloads[i]? = some r) (hi : d'.unrecorded i = false)
    (hother : ∀ j, j ≠ i → d'.unrecorded j = d.unrecorded j) :
    failed.countP d.unrecorded =
      failed.countP d'.unrecorded + if r.unrecorded then 1 else 0 := by
  have hold : d.unrecorded i = r.unrecorded := by
    rw [unrecorded, hr, Option.any_some]
  cases hun : r.unrecorded with
  | false =>
    refine List.countP_congr fun j _ => ?_
    by_cases hji : j = i
    · rw [hji, hi, hold, hun]
    · rw [hother j hji]
  | true =>
    have hmem : i ∈ failed := by
      rcases h.records hr with hplain | ⟨hmem, -⟩
      · rw [hplain.unrecorded_eq] at hun
        cases hun
      · exact hmem
    exact countP_except h.nodup hmem (hold.trans hun) hi hother

/-- A reload may go on that asks for nothing new and has no failure left to record. If it has had
one, that is one more that is recorded. -/
private theorem Tally.put {failed : List Nat} (h : Tally failed d) {r : Reload κ ν}
    (r' : Reload κ ν) (hr : d.reloads[i]? = some r)
    (hreloads : d'.reloads = putReload d.reloads i r')
    (hnext : d'.next = d.next) (hplain : r'.Plain)
    (hasks : r.question? = none → r'.question? = none)
    (hrefreshes : d'.stats.refreshes = d.stats.refreshes)
    (hrefreshErrors : d'.stats.refreshErrors =
      d.stats.refreshErrors + if r.unrecorded then 1 else 0) : Tally failed d' := by
  have hget : ∀ j, d'.reloads[j]? =
      if j = i then (if r'.isOver then none else some r') else d.reloads[j]? := by
    intro j
    rw [hreloads, get_putReload]
  -- What has been recorded is not counted any more among those that are still to be recorded.
  have hi : d'.unrecorded i = false := by
    rw [unrecorded, hget, if_pos rfl]
    split
    · rfl
    · exact hplain.unrecorded_eq
  have hother : ∀ j, j ≠ i → d'.unrecorded j = d.unrecorded j := by
    intro j hj
    rw [unrecorded, unrecorded, hget, if_neg hj]
  constructor
  case nodup => exact h.nodup
  case known => exact fun j hj => hnext ▸ h.known j hj
  case silent =>
    intro j rj hj hrj
    rw [hget] at hrj
    by_cases hji : j = i
    · subst hji
      rw [if_pos rfl] at hrj
      split at hrj
      · cases hrj
      · exact Option.some.inj hrj ▸ hasks (h.silent hj hr)
    · rw [if_neg hji] at hrj
      exact h.silent hj hrj
  case records =>
    intro j rj hrj
    rw [hget] at hrj
    by_cases hji : j = i
    · rw [if_pos hji] at hrj
      split at hrj
      · cases hrj
      · exact .inl (Option.some.inj hrj ▸ hplain)
    · rw [if_neg hji] at hrj
      exact h.records hrj
  case refreshes_eq => rw [hrefreshes, h.refreshes_eq, hnext]
  case refreshErrors_eq =>
    rw [hrefreshErrors, ← h.refreshErrors_eq, h.countP_unrecorded hr hi hother]
    omega

/-- A reload that fails is one more that has failed and has not recorded it. -/
private theorem Tally.fail {failed : List Nat} (h : Tally failed d) (hd : d.Inv)
    {q : ReloadQuestion κ ν} {gs : List (Guard κ)} {e : CacheError}
    (hr : d.reloads[i]? = some ⟨[], some q, true⟩) :
    Tally (failed ++ [i]) (d.setReload i (.failed gs e)) := by
  -- A reload that has failed asks nothing, and this one was still asking.
  have hnew : i ∉ failed := fun hmem => by cases h.silent hmem hr
  have hget : ∀ j, (d.setReload i (.failed gs e)).reloads[j]? =
      if j = i then some (.failed gs e) else d.reloads[j]? := fun j =>
    get_putReload d.reloads i j (.failed gs e)
  constructor
  case nodup =>
    rw [List.nodup_append]
    refine ⟨h.nodup, List.nodup_singleton i, fun j hj j' hj' heq => hnew ?_⟩
    rw [← List.mem_singleton.1 hj', ← heq]
    exact hj
  case known =>
    intro j hj
    rcases List.mem_append.1 hj with hj | hj
    · exact h.known j hj
    · rw [List.mem_singleton.1 hj]
      exact hd.reload_lt hr
  case silent =>
    intro j rj hj hrj
    rw [hget] at hrj
    split at hrj
    · exact Option.some.inj hrj ▸ rfl
    · next hji =>
      refine h.silent ((List.mem_append.1 hj).resolve_right fun hj => hji ?_) hrj
      exact List.mem_singleton.1 hj
  case records =>
    intro j rj hrj
    rw [hget] at hrj
    split at hrj
    · next hji =>
      obtain rfl := Option.some.inj hrj
      exact .inr ⟨List.mem_append_right _ (List.mem_singleton.2 hji), _, _, rfl⟩
    · exact (h.records hrj).imp_right fun hfailed => ⟨List.mem_append_left _ hfailed.1, hfailed.2⟩
  case refreshes_eq => exact h.refreshes_eq
  case refreshErrors_eq =>
    have hsame : failed.countP (d.setReload i (.failed gs e)).unrecorded =
        failed.countP d.unrecorded := by
      refine List.countP_congr fun j hj => ?_
      rw [unrecorded, unrecorded, hget, if_neg (ne_of_mem_of_not_mem hj hnew)]
    have hi : (d.setReload i (.failed gs e)).unrecorded i = true := by
      rw [unrecorded, hget, if_pos rfl]
      rfl
    rw [List.countP_append, hsame, List.countP_singleton, if_pos hi, List.length_append,
      ← h.refreshErrors_eq]
    exact (Nat.add_assoc _ _ _).symm

/-- The start of a reload is counted, whatever it covers. -/
private theorem Tally.launch {failed : List Nat} (h : Tally failed d) (i : Nat) (st : Starter κ) :
    Tally failed (d.launch i st) := by
  simp only [RefreshDelegate.launch]
  split
  · -- If all keys have been sorted out, no reload begins.
    exact ⟨h.nodup, h.known, h.silent, h.records, h.refreshes_eq, h.refreshErrors_eq⟩
  · next q hq =>
    have hold : ∀ j ∈ failed, ¬ j = d.next := fun j hj => Nat.ne_of_lt (h.known j hj)
    constructor
    case nodup => exact h.nodup
    case known => exact fun j hj => Nat.lt_succ_of_lt (h.known j hj)
    case silent =>
      intro j rj hj hrj
      rw [Delegate.get_insert, if_neg (hold j hj)] at hrj
      exact h.silent hj hrj
    case records =>
      intro j rj hrj
      rw [Delegate.get_insert] at hrj
      split at hrj
      · exact .inl ⟨[], Option.some.inj hrj ▸ rfl⟩
      · exact h.records hrj
    case refreshes_eq => exact congrArg (· + 1) h.refreshes_eq
    case refreshErrors_eq =>
      refine Eq.trans ?_ h.refreshErrors_eq
      refine congrArg (d.stats.refreshErrors + ·) (List.countP_congr fun j hj => ?_)
      rw [unrecorded, unrecorded, Delegate.get_insert, if_neg (hold j hj)]

/-- Reloads and failures are counted one by one. -/
theorem Tally.moves {failed : List Nat} (h : Tally failed d) (hd : d.Inv) (hm : Moves d s d') :
    Tally (failed ++ s.fails?.toList) d' := by
  -- No step but a failing reply adds to those that have failed.
  have same : s.fails? = none → Tally failed d' → Tally (failed ++ s.fails?.toList) d' := by
    intro hs h'
    rwa [hs, Option.toList_none, List.append_nil]
  cases hm with
  | loading s delegate hs =>
    exact same rfl ⟨h.nodup, h.known, h.silent, h.records, h.refreshes_eq, h.refreshErrors_eq⟩
  | refresh stale =>
    exact same rfl ⟨h.nodup, h.known, h.silent, h.records, h.refreshes_eq, h.refreshErrors_eq⟩
  | lookUp now i st k todo hst hcleared htodo =>
    exact same rfl ⟨h.nodup, h.known, h.silent, h.records, h.refreshes_eq, h.refreshErrors_eq⟩
  | register now i st k hst hcleared =>
    exact same rfl ⟨h.nodup, h.known, h.silent, h.records, h.refreshes_eq, h.refreshErrors_eq⟩
  | launch now i st hst hcleared htodo => exact same rfl (h.launch i st)
  | chore now i c rest hr =>
    obtain ⟨chores, question?, asked⟩ := rest
    refine same rfl ?_
    -- The chore of recording comes first, so that a plain reload is left in any case.
    cases c with
    | onFlights c =>
      obtain ⟨cs, hcs⟩ | ⟨-, ks, cs, hcs⟩ := h.records hr
      · cases cs with
        | nil => cases hcs
        | cons c' cs => exact h.put _ hr rfl rfl ⟨cs, (List.cons.inj hcs).2⟩ id rfl rfl
      · cases (List.cons.inj hcs).1
    | remember ks =>
      obtain ⟨cs, hcs⟩ | ⟨-, ks', cs, hcs⟩ := h.records hr
      · cases cs with
        | nil => cases hcs
        | cons c' cs => cases (List.cons.inj hcs).1
      · exact h.put _ hr rfl rfl ⟨cs, (List.cons.inj hcs).2⟩ id rfl rfl
  | ask i q hr =>
    exact same rfl (h.put ⟨[], some q, true⟩ hr rfl rfl ⟨[], rfl⟩ id rfl rfl)
  | reply i q answer r hr hresume =>
    rcases Reload.resume_cases hresume with ⟨e, he, rfl⟩ | ⟨he, hplain⟩
    · rw [Step.fails?, he]
      exact h.fail hd hr
    · refine same (by rw [Step.fails?, he]; rfl) ?_
      exact h.put r hr rfl rfl hplain (fun hq => by cases hq) rfl rfl
  | tear i q asked hr =>
    exact same rfl (h.put (.torn q) hr rfl rfl ⟨_, rfl⟩ (fun _ => rfl) rfl rfl)

end RefreshDelegate

end CacheLayer
