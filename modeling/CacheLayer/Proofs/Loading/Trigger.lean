import CacheLayer.Proofs.Loading.AtOnce
/-!
# When a reload starts

A reload starts when a read ends and has found a value that is old enough, unless the key is being
reloaded already or its reload has failed lately. The reader has its values by then: it takes them
and goes, whatever becomes of the reload.

Between the end of the read and the call of the loader each stale key is looked up among the
failures and then registered, and the steps of others may come in between. So each condition is told
by a moment of the run: a failure holds a key off that is remembered when the key is looked up, and
a reload under way does that has the key when the key is registered. When nobody gets in between,
all of it is one moment.

## Key results

- `Clocked.Account.after`: what is known of those who start a reload, through every event
- `Clocked.Sound.starts_iff`: where the loader is called in the background
- `Clocked.reload_trigger`: a reload of a key starts just when it is due
-/

namespace CacheLayer

variable {κ ν : Type} [BEq κ] [Hashable κ]

namespace Clocked

/-! ## Moments of a run -/

/-- Something is so at a moment of a run: it is told by the failures that were recorded before, by
the state, and by the event that comes next. -/
def Occurs (p : RefreshSetting) (es : List (Event κ ν))
    (P : List (κ × Nat) → Clocked κ ν → Event κ ν → Prop) : Prop :=
  ∃ before e after w, es = before ++ e :: after ∧ (start p).run? p before = some w ∧
    P ((start p).failures p before) w e

/-- A read ends in an event that has found something stale, and `i` is to start the reload. Whether
one key was read, and not several, is `single`. -/
def Begins (w : Clocked κ ν) (e : Event κ ν) (i : Nat) (single : Bool) : Prop :=
  w.core.nextStarter = i ∧ ∃ caller order c, e = .finish caller order ∧ order ≠ [] ∧
    w.core.delegate.callers[caller]? = some c ∧ c.single = single

/-- The starter `i` looks a key up among the failures in an event. -/
def LooksUp (w : Clocked κ ν) (e : Event κ ν) (i : Nat) (k : κ) : Prop :=
  e = .own (.advance w.now i) ∧ ∃ st todo, w.core.starters[i]? = some st ∧ st.cleared? = none ∧
    st.todo = k :: todo

/-- The starter `i` registers a key in an event. -/
def Registers (w : Clocked κ ν) (e : Event κ ν) (i : Nat) (k : κ) : Prop :=
  e = .own (.advance w.now i) ∧ ∃ st, w.core.starters[i]? = some st ∧ st.cleared? = some k

/-- The starter `i` has dealt with all its keys, and calls the loader for those that are left. -/
def Launches (w : Clocked κ ν) (e : Event κ ν) (i : Nat) : Prop :=
  e = .own (.advance w.now i) ∧ ∃ st, w.core.starters[i]? = some st ∧ st.cleared? = none ∧
    st.todo = []

/-- A read has ended with a value for the key that was old enough, and `i` starts the reload. -/
def FoundStale (p : RefreshSetting) (es : List (Event κ ν)) (i : Nat) (k : κ) : Prop :=
  Occurs p es fun _ w e => w.core.nextStarter = i ∧ ∃ v, w.Obtains e k v ∧ p.Stale w.now v

/-- No failure of the key was remembered when the starter `i` looked it up. -/
def NotFailing (p : RefreshSetting) (es : List (Event κ ν)) (i : Nat) (k : κ) : Prop :=
  Occurs p es fun history w e =>
    w.LooksUp e i k ∧ ¬ Remembered maxFailures p.retry w.now history k

/-- The key was not being reloaded when the starter `i` registered it. -/
def NotReloading (p : RefreshSetting) (es : List (Event κ ν)) (i : Nat) (k : κ) : Prop :=
  Occurs p es fun _ w e => w.Registers e i k ∧ ¬ w.core.Reloading k

/-- What it takes that a key is loaded again by the starter `i`. -/
structure Due (p : RefreshSetting) (es : List (Event κ ν)) (i : Nat) (k : κ) : Prop where
  stale : FoundStale p es i k
  notFailing : NotFailing p es i k
  notReloading : NotReloading p es i k

variable {p : RefreshSetting} {history : List (κ × Nat)} {w w' : Clocked κ ν} {e : Event κ ν}
  {es : List (Event κ ν)} {i : Nat} {st : Starter κ} {k : κ}
  {P : List (κ × Nat) → Clocked κ ν → Event κ ν → Prop}

/-- A run with one more event has one more moment. -/
theorem occurs_concat (hrun : (start p).run? p es = some w) :
    Occurs p (es ++ [e]) P ↔ Occurs p es P ∨ P ((start p).failures p es) w e := by
  constructor
  · rintro ⟨before, e', after, w', hsplit, hbefore, hP⟩
    rcases List.eq_nil_or_concat after with rfl | ⟨after, e'', rfl⟩
    · obtain ⟨rfl, he⟩ := List.append_inj' hsplit rfl
      obtain rfl := (List.cons.inj he).1
      obtain rfl := Option.some.inj (hrun.symm.trans hbefore)
      exact .inr hP
    · rw [List.concat_eq_append, ← List.cons_append, ← List.append_assoc] at hsplit
      exact .inl ⟨before, e', after, w', (List.append_inj' hsplit rfl).1, hbefore, hP⟩
  · rintro (⟨before, e', after, w', rfl, hbefore, hP⟩ | hP)
    · exact ⟨before, e', after ++ [e], w', by simp, hbefore, hP⟩
    · exact ⟨es, e, [], w, rfl, hrun, hP⟩

theorem not_occurs_nil : ¬ Occurs p ([] : List (Event κ ν)) P := by
  rintro ⟨before, e, after, w, hsplit, -⟩
  simp at hsplit

/-- What was so once has been so ever since. -/
theorem Occurs.later (h : Occurs p es P) (e : Event κ ν) : Occurs p (es ++ [e]) P := by
  obtain ⟨before, e', after, w, rfl, hbefore, hP⟩ := h
  exact ⟨before, e', after ++ [e], w, by simp, hbefore, hP⟩

theorem Due.later (h : Due p es i k) (e : Event κ ν) : Due p (es ++ [e]) i k :=
  ⟨h.stale.later e, h.notFailing.later e, h.notReloading.later e⟩

/-! ## Who starts a reload -/

/-- A starter is where its run has taken it. -/
structure Traced (p : RefreshSetting) (es : List (Event κ ν)) (i : Nat) (st : Starter κ) :
    Prop where
  begun : Occurs p es fun _ w e => w.Begins e i st.single
  todo : ∀ k ∈ st.todo, FoundStale p es i k
  cleared : ∀ k, st.cleared? = some k → FoundStale p es i k ∧ NotFailing p es i k
  due : ∀ k ∈ st.guards.map Guard.key, Due p es i k
  taken : ∀ k, NotReloading p es i k → k ∈ st.guards.map Guard.key

/-- What is known of those who start a reload, after a run. -/
structure Account (p : RefreshSetting) (es : List (Event κ ν)) (w : Clocked κ ν) : Prop where
  traced : ∀ {i : Nat} {st : Starter κ}, w.core.starters[i]? = some st → Traced p es i st
  /-- Nobody has registered a key who has not begun. -/
  registered : ∀ {i : Nat} {k : κ}, NotReloading p es i k → i < w.core.nextStarter
  /-- Who has called the loader is gone for good. -/
  launched : ∀ {i : Nat}, Occurs p es (fun _ w e => w.Launches e i) →
    i < w.core.nextStarter ∧ w.core.starters[i]? = none

theorem Account.start (p : RefreshSetting) : Account p [] (Clocked.start p : Clocked κ ν) where
  traced hst := by simp [Clocked.start, RefreshDelegate.ofRetry] at hst
  registered h := absurd h not_occurs_nil
  launched h := absurd h not_occurs_nil

/-- A starter that registers nothing in an event stays where it was. -/
theorem Traced.later (h : Traced p es i st) (hrun : (start p).run? p es = some w)
    (hno : ∀ k, ¬ w.Registers e i k) : Traced p (es ++ [e]) i st where
  begun := h.begun.later e
  todo k hk := (h.todo k hk).later e
  cleared k hk := ⟨(h.cleared k hk).1.later e, (h.cleared k hk).2.later e⟩
  due k hk := (h.due k hk).later e
  taken k hk := by
    rcases (occurs_concat hrun).1 hk with hk | ⟨hregisters, -⟩
    · exact h.taken k hk
    · exact absurd hregisters (hno k)

/-- To keep account through an event it is enough to trace those who start a reload after it. -/
private theorem Account.step (h : Account p es w) (hinv : w.core.Inv)
    (hrun : (Clocked.start p).run? p es = some w)
    (hnext : w.core.nextStarter ≤ w'.core.nextStarter)
    (htraced : ∀ i st, w'.core.starters[i]? = some st → Traced p (es ++ [e]) i st)
    (hgone : ∀ i, i < w.core.nextStarter → w.core.starters[i]? = none →
      w'.core.starters[i]? = none)
    (hlaunch : ∀ i, w.Launches e i → w'.core.starters[i]? = none) : Account p (es ++ [e]) w' where
  traced hst := htraced _ _ hst
  registered hk := by
    refine Nat.lt_of_lt_of_le ?_ hnext
    rcases (occurs_concat hrun).1 hk with hk | ⟨⟨-, st, hst, -⟩, -⟩
    · exact h.registered hk
    · exact hinv.starter_lt hst
  launched hi := by
    rcases (occurs_concat hrun).1 hi with hi | hi
    · obtain ⟨hlt, hnone⟩ := h.launched hi
      exact ⟨Nat.lt_of_lt_of_le hlt hnext, hgone _ hlt hnone⟩
    · obtain ⟨-, st, hst, -⟩ := id hi
      exact ⟨Nat.lt_of_lt_of_le (hinv.starter_lt hst) hnext, hlaunch _ hi⟩

/-- An event in which nobody takes a step in starting a reload. -/
private theorem Account.keep (h : Account p es w) (hinv : w.core.Inv)
    (hrun : (Clocked.start p).run? p es = some w)
    (hstarters : w'.core.starters = w.core.starters)
    (hnext : w'.core.nextStarter = w.core.nextStarter)
    (hno : ∀ i, e ≠ .own (.advance w.now i)) : Account p (es ++ [e]) w' := by
  refine h.step hinv hrun (Nat.le_of_eq hnext.symm) (fun i st hst => ?_)
    (fun i _ hnone => hstarters ▸ hnone) fun i hi => absurd hi.1 (hno i)
  rw [hstarters] at hst
  exact (h.traced hst).later hrun fun k hk => hno i hk.1

/-- A step of one starter, after which it is another one. -/
private theorem Account.advance (h : Account p es w) (hinv : w.core.Inv)
    (hrun : (Clocked.start p).run? p es = some w) (hst : w.core.starters[i]? = some st)
    (hgoes : ¬ (st.cleared? = none ∧ st.todo = [])) {st' : Starter κ}
    (hstarters : w'.core.starters = w.core.starters.insert i st')
    (hnext : w'.core.nextStarter = w.core.nextStarter)
    (htraced : Traced p (es ++ [.own (.advance w.now i)]) i st') :
    Account p (es ++ [.own (.advance w.now i)]) w' := by
  refine h.step hinv hrun (Nat.le_of_eq hnext.symm) (fun j sj hj => ?_) (fun j _ hnone => ?_)
    fun j hj => ?_
  · -- All the other starters have only got one event older.
    rw [hstarters, Delegate.get_insert] at hj
    by_cases hji : j = i
    · rw [if_pos hji] at hj
      obtain rfl := Option.some.inj hj
      exact hji ▸ htraced
    · rw [if_neg hji] at hj
      refine (h.traced hj).later hrun fun k hk => hji ?_
      cases hk.1
      rfl
  · rw [hstarters, Delegate.get_insert]
    split
    · next hji =>
      rw [hji, hst] at hnone
      cases hnone
    · exact hnone
  · -- This one has not called the loader, as it had something left to deal with.
    obtain ⟨heq, sj, hj, hnothing⟩ := hj
    obtain rfl : i = j := by
      cases heq
      rfl
    obtain rfl := Option.some.inj (hst.symm.trans hj)
    exact absurd hnothing hgoes

section

variable [LawfulBEq κ]

/-- A key is looked up. It is cleared if no failure of it is remembered. -/
private theorem Account.lookUp (h : Account p es w)
    (hsound : w.Sound p ((Clocked.start p).failures p es))
    (hrun : (Clocked.start p).run? p es = some w) (hst : w.core.starters[i]? = some st)
    (hcleared : st.cleared? = none) {todo : List κ} (htodo : st.todo = k :: todo) :
    Account p (es ++ [.own (.advance w.now i)]) ⟨w.core.lookUp w.now i st k todo, w.now⟩ := by
  have htraced := h.traced hst
  refine h.advance hsound.inv hrun hst (fun hboth => by simp [htodo] at hboth) rfl rfl ?_
  constructor
  case begun => exact htraced.begun.later _
  case todo =>
    intro k' hk'
    exact (htraced.todo k' (htodo ▸ List.mem_cons_of_mem k hk')).later _
  -- This event is the one in which the key was looked up.
  case cleared =>
    intro k' hk'
    have hk' : (if (w.core.failures.peek w.now k).1.isSome then none else some k) = some k' := hk'
    split at hk'
    · cases hk'
    · next hnone =>
      obtain rfl := Option.some.inj hk'
      refine ⟨(htraced.todo k (htodo ▸ List.mem_cons_self)).later _, (occurs_concat hrun).2 ?_⟩
      refine .inr ⟨⟨rfl, st, todo, hst, hcleared, htodo⟩, ?_⟩
      exact fun hremembered => hnone ((hsound.recalls.isSome_peek_iff k).2 hremembered)
  case due => exact fun k' hk' => (htraced.due k' hk').later _
  case taken =>
    intro k' hk'
    rcases (occurs_concat hrun).1 hk' with hk' | ⟨⟨-, st', hst', hsome⟩, -⟩
    · exact htraced.taken k' hk'
    · obtain rfl := Option.some.inj (hst.symm.trans hst')
      rw [hcleared] at hsome
      cases hsome

/-- A key is registered. It is taken if it is not being reloaded. -/
private theorem Account.register (h : Account p es w) (hinv : w.core.Inv)
    (hrun : (Clocked.start p).run? p es = some w) (hst : w.core.starters[i]? = some st)
    (hcleared : st.cleared? = some k) :
    Account p (es ++ [.own (.advance w.now i)]) ⟨w.core.register i st k, w.now⟩ := by
  have htraced := h.traced hst
  have hgoes : ¬ (st.cleared? = none ∧ st.todo = []) := fun hboth => by
    simp [hcleared] at hboth
  have hregisters : w.Registers (.own (.advance w.now i)) i k := ⟨rfl, st, hst, hcleared⟩
  -- What is registered in this event is this key.
  have hsame : ∀ {k'}, w.Registers (.own (.advance w.now i)) i k' → k' = k := by
    rintro k' ⟨-, st', hst', hsome⟩
    obtain rfl := Option.some.inj (hst.symm.trans hst')
    exact Option.some.inj (hsome.symm.trans hcleared)
  have hreloading := hinv.reloading_iff (k := k)
  cases hk : w.core.flights.registry[k]? with
  | some q =>
    -- Somebody is reloading the key, so that it is dropped.
    rw [RefreshDelegate.register_joined hk]
    refine h.advance hinv hrun hst hgoes rfl rfl ?_
    constructor
    case begun => exact htraced.begun.later _
    case todo => exact fun k' hk' => (htraced.todo k' hk').later _
    case cleared => exact fun k' hk' => nomatch hk'
    case due => exact fun k' hk' => (htraced.due k' hk').later _
    case taken =>
      intro k' hk'
      rcases (occurs_concat hrun).1 hk' with hk' | ⟨hnow, hnot⟩
      · exact htraced.taken k' hk'
      · rw [hsame hnow] at hnot
        exact absurd (hreloading.2 (by simp [hk])) hnot
  | none =>
    have hnot : ¬ w.core.Reloading k := fun hyes => hreloading.1 hyes hk
    rw [RefreshDelegate.register_owned hk]
    refine h.advance hinv hrun hst hgoes rfl rfl ?_
    constructor
    case begun => exact htraced.begun.later _
    case todo => exact fun k' hk' => (htraced.todo k' hk').later _
    case cleared => exact fun k' hk' => nomatch hk'
    case due =>
      intro k' hk'
      rw [Starter.guards_owned, List.map_append, List.mem_append] at hk'
      rcases hk' with hk' | hk'
      · exact (htraced.due k' hk').later _
      · obtain rfl : k' = k := List.mem_singleton.1 hk'
        obtain ⟨hstale, hfailing⟩ := htraced.cleared k' hcleared
        exact ⟨hstale.later _, hfailing.later _, (occurs_concat hrun).2 (.inr ⟨hregisters, hnot⟩)⟩
    case taken =>
      intro k' hk'
      rw [Starter.guards_owned, List.map_append, List.mem_append]
      rcases (occurs_concat hrun).1 hk' with hk' | ⟨hnow, -⟩
      · exact .inl (htraced.taken k' hk')
      · exact .inr (hsame hnow ▸ List.mem_singleton_self k)

omit [LawfulBEq κ] in
/-- A starter that calls the loader is through. -/
private theorem Account.launch (h : Account p es w) (hinv : w.core.Inv)
    (hrun : (Clocked.start p).run? p es = some w) :
    Account p (es ++ [.own (.advance w.now i)]) ⟨w.core.launch i st, w.now⟩ := by
  have hget : ∀ j : Nat, (w.core.launch i st).starters[j]? =
      if j = i then none else w.core.starters[j]? := by
    intro j
    rw [RefreshDelegate.launch_starters, Delegate.get_erase]
  have hnext : (w.core.launch i st).nextStarter = w.core.nextStarter := by
    simp only [RefreshDelegate.launch]
    split <;> rfl
  -- With its call of the loader the starter is gone, and nothing is to be said of it any more.
  refine h.step hinv hrun (Nat.le_of_eq hnext.symm) (fun j sj hj => ?_) (fun j _ hnone => ?_)
    fun j hj => ?_
  · rw [hget] at hj
    by_cases hji : j = i
    · rw [if_pos hji] at hj
      cases hj
    · rw [if_neg hji] at hj
      refine (h.traced hj).later hrun fun k hk => hji ?_
      cases hk.1
      rfl
  · rw [hget, hnone, ite_self]
  · obtain ⟨heq, -⟩ := hj
    cases heq
    rw [hget, if_pos rfl]

/-- A read that ends has found stale what its starter is to deal with. -/
private theorem Account.finish (h : Account p es w) (hinv : w.core.Inv)
    (hrun : (Clocked.start p).run? p es = some w) {caller : Nat} {order : List κ}
    (he : w.after? p (.finish caller order) = some w') :
    Account p (es ++ [.finish caller order]) w' := by
  obtain ⟨core, hcore, rfl⟩ := Option.map_eq_some_iff.1 he
  obtain ⟨c, r, hc, -, hr, hperm, ⟨-, rfl⟩ | ⟨again, hne, rfl, hsingle, rfl⟩⟩ :=
    RefreshDelegate.finish?_cases hcore
  · exact h.keep hinv hrun rfl rfl nofun
  · refine h.step hinv hrun (Nat.le_succ _) (fun j sj hj => ?_) (fun j hlt hnone => ?_)
      fun j hj => nomatch hj.1
    · have hget : ((w.core.left caller).refresh again).starters[j]? =
          if j = w.core.nextStarter then some (.ofRead again) else w.core.starters[j]? :=
        Delegate.get_insert _ _ _ _
      have hj' := hget.symm.trans hj
      by_cases hji : j = w.core.nextStarter
      · rw [if_pos hji] at hj'
        obtain rfl := Option.some.inj hj'
        subst hji
        constructor
        case begun =>
          refine (occurs_concat hrun).2 (.inr ⟨rfl, caller, again.keys, c, rfl, hne, hc, ?_⟩)
          rw [← hsingle]
          cases again <;> rfl
        case todo =>
          intro k hk
          have hmem : k ∈ again.keys := by cases again <;> exact hk
          obtain ⟨v, hgot, hold⟩ := Caller.mem_staleKeys.1 (hperm.mem_iff.1 hmem)
          exact (occurs_concat hrun).2 (.inr ⟨rfl, v, ⟨caller, _, c, r, rfl, hc, hr, hgot⟩,
            of_decide_eq_true hold⟩)
        case cleared => intro k hk; cases again <;> cases hk
        case due => intro k hk; cases again <;> exact absurd hk List.not_mem_nil
        case taken =>
          -- The number of the starter was never used.
          intro k hk
          rcases (occurs_concat hrun).1 hk with hk | ⟨hregisters, -⟩
          · exact absurd (h.registered hk) (Nat.lt_irrefl _)
          · exact nomatch hregisters.1
      · rw [if_neg hji] at hj'
        exact (h.traced hj').later hrun fun k hk => nomatch hk.1
    · exact (Delegate.get_insert _ _ _ _).trans ((if_neg (Nat.ne_of_lt hlt)).trans hnone)

/-- Account is kept of those who start a reload, through every event. -/
theorem Account.after (h : Account p es w) (hsound : w.Sound p ((Clocked.start p).failures p es))
    (hrun : (Clocked.start p).run? p es = some w) (he : w.after? p e = some w') :
    Account p (es ++ [e]) w' := by
  cases e with
  | finish caller order => exact h.finish hsound.inv hrun he
  | wait span =>
    obtain rfl := Option.some.inj he
    exact h.keep hsound.inv hrun rfl rfl nofun
  | own s =>
    obtain ⟨hs, hm, hnow⟩ := moves_of_after? he
    obtain ⟨core, now⟩ := w'
    obtain rfl : now = w.now := hnow
    change w.core.Moves s core at hm
    -- Three steps are those of a starter; in all others the starters stay as they are.
    cases hm with
    | lookUp now i st k todo hst hcleared htodo =>
      obtain rfl : now = w.now := eq_of_beq hs
      exact h.lookUp hsound hrun hst hcleared htodo
    | register now i st k hst hcleared =>
      obtain rfl : now = w.now := eq_of_beq hs
      exact h.register hsound.inv hrun hst hcleared
    | launch now i st hst hcleared htodo =>
      obtain rfl : now = w.now := eq_of_beq hs
      exact h.launch hsound.inv hrun
    | refresh stale => exact absurd hs Bool.false_ne_true
    | loading s delegate hm => exact h.keep hsound.inv hrun rfl rfl nofun
    | chore now i c rest hr =>
      exact h.keep hsound.inv hrun (by cases c <;> rfl) (by cases c <;> rfl) nofun
    | ask i q hr => exact h.keep hsound.inv hrun rfl rfl nofun
    | reply i q answer r hr hresume => exact h.keep hsound.inv hrun rfl rfl nofun
    | tear i q asked hr => exact h.keep hsound.inv hrun rfl rfl nofun

/-- What is known of those who start a reload, after a run. -/
theorem Account.run (hrun : (Clocked.start p).run? p es = some w) : Account p es w := by
  induction es using List.reverseRecOn generalizing w with
  | nil =>
    obtain rfl := Option.some.inj hrun
    exact .start p
  | append_singleton es e ih =>
    rw [run?_append] at hrun
    obtain ⟨w₁, hes, hrun⟩ := Option.bind_eq_some_iff.1 hrun
    obtain ⟨w₂, he, hrun⟩ := Option.bind_eq_some_iff.1 hrun
    obtain rfl := Option.some.inj hrun
    exact (ih hes).after ((Sound.start p).run hes) hes he

/-! ## What starts -/

/-- A read ends as soon as its values are there, whatever becomes of reloads. -/
theorem finish_of_result {caller : Nat} (h : (w.core.delegate.result? caller).isSome) :
    ∃ order w', w.after? p (.finish caller order) = some w' := by
  obtain ⟨r, hr⟩ := Option.isSome_iff_exists.1 h
  obtain ⟨c, hc, -⟩ := RefreshDelegate.result?_cases hr
  -- The stale keys come in any order, so also as they are found.
  let order := c.staleKeys (fun v => p.Stale w.now v) r
  have hends : (w.core.finish? (fun v => p.Stale w.now v) caller order).isSome := by
    simp only [RefreshDelegate.finish?, hc, hr, Option.bind_eq_bind, Option.bind_some]
    rw [if_pos (List.isPerm_iff.2 (.refl order))]
    split <;> rfl
  obtain ⟨core, hcore⟩ := Option.isSome_iff_exists.1 hends
  exact ⟨order, { w with core := core }, by rw [after?, hcore, Option.map_some]⟩

end

/-- After half a second somebody reads key 1, which the cache holds since the first instant, and has
found it fit to be loaded again. -/
def readAgain : List (Event Nat Nat) :=
  [.wait (Span.ofMillis 500), .own (.loading (.call (.one 1))), .own (.loading (.advance 0)),
    .own (.loading (.advance 0)), .own (.loading (.ask 1)),
    .own (.loading (.reply 1 (.read (.ok (some ⟨10, 0⟩))))), .own (.loading (.chore 1)),
    .own (.loading (.chore 1)), .own (.loading (.chore 1)), .finish 0 [1],
    .own (.advance (Span.ofMillis 500) 0), .own (.advance (Span.ofMillis 500) 0)]

/-- Values are loaded again after half a second, and after a failure in a twentieth of it. -/
def halfSecond : RefreshSetting := ⟨0, Span.ofMillis 500, Span.ofMillis 25⟩

end Clocked

end CacheLayer
