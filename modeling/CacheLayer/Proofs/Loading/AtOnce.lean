import CacheLayer.Proofs.Loading.Clocked
import CacheLayer.Scenario.World
/-!
# Reloads that are started at once

Who starts a reload takes a step for each key that is looked up and one for each that is registered,
and the steps of others may come in between. When none do, the reload is started at one moment, and
covers those stale keys that had no failure remembered and no reload under way at that moment. In a
scenario it is always so.

## Key results

- `RefreshDelegate.exists_rush`: which keys are left when all are dealt with at one moment
- `Clocked.Sound.started_at_once`: what is loaded again when nobody gets in between
- `Scenario.World.endRead_core`: readers of a scenario end their reads that way
-/

namespace CacheLayer

variable {κ ν : Type} [BEq κ] [Hashable κ]

namespace RefreshDelegate

variable {d : RefreshDelegate κ ν} {now i : Nat} {st : Starter κ}

/-! ## Steps in a row -/

theorem rush_succ (hst : d.starters[i]? = some st) (n : Nat) :
    rush now i (n + 1) d = rush now i n (d.advance now i st) := by
  rw [rush, hst]

/-- Who is through takes no more steps. -/
theorem rush_of_none (hnone : d.starters[i]? = none) (n : Nat) : rush now i n d = d := by
  cases n with
  | zero => rfl
  | succ n => rw [rush, hnone]

theorem rush_add (m n : Nat) (d : RefreshDelegate κ ν) :
    rush now i (m + n) d = rush now i n (rush now i m d) := by
  induction m generalizing d with
  | zero => rw [Nat.zero_add, rush]
  | succ m ih =>
    rw [Nat.add_right_comm]
    cases hst : d.starters[i]? with
    | none => rw [rush_of_none hst, rush_of_none hst, rush_of_none hst]
    | some st => rw [rush_succ hst, rush_succ hst, ih]

theorem Inv.rushed [LawfulBEq κ] (h : d.Inv) (n : Nat) : (rush now i n d).Inv := by
  induction n generalizing d with
  | zero => exact h
  | succ n ih =>
    cases hst : d.starters[i]? with
    | none => rwa [rush_of_none hst]
    | some st =>
      have hstep : d.step? (.advance now i) = some (d.advance now i st) := by
        rw [step?, hst, Option.map_some]
      rw [rush_succ hst]
      exact ih (h.moves (moves_of_step? hstep))

/-! ## Keys that are dealt with at one moment -/

/-- A starter has dealt with the keys `ks`, and nothing else has been done. It has started the
flights of the guards `gs`, which are for the keys that were found fit. -/
structure Sifts (d d' : RefreshDelegate κ ν) (i : Nat) (ks : List κ) (fit : κ → Prop)
    (single : Bool) (held gs : List (Guard κ)) : Prop where
  starter : d'.starters[i]? = some ⟨single, [], none, held ++ gs⟩
  sublist : (gs.map Guard.key).Sublist ks
  mem_iff : ∀ k, k ∈ gs.map Guard.key ↔ k ∈ ks ∧ fit k
  reloads_eq : d'.reloads = d.reloads
  next_eq : d'.next = d.next

omit [BEq κ] [Hashable κ] in
/-- A key that is passed over is none of those to be loaded. -/
private theorem mem_cons_of_not {P : κ → Prop} {k : κ} (ks : List κ) (hk : ¬ P k) (k' : κ) :
    (k' ∈ ks ∧ P k') ↔ k' ∈ k :: ks ∧ P k' := by
  constructor
  · intro h
    exact ⟨List.mem_cons_of_mem _ h.1, h.2⟩
  · intro h
    refine ⟨(List.mem_cons.1 h.1).resolve_left fun heq => hk ?_, h.2⟩
    exact heq ▸ h.2

/-- Of different stale keys those are left that are in no flight and have no failure remembered. -/
theorem exists_rush [LawfulBEq κ] {capacity span : Nat} {history : List (κ × Nat)} {ks : List κ}
    (hnodup : ks.Nodup) {single : Bool} {held : List (Guard κ)}
    (hst : d.starters[i]? = some ⟨single, ks, none, held⟩)
    (h : d.failures.Recalls capacity span now history) :
    ∃ n ≤ 2 * ks.length, ∃ gs, Sifts d (rush now i n d) i ks
      (fun k => d.flights.registry[k]? = none ∧ ¬ Remembered capacity span now history k)
      single held gs ∧ (rush now i n d).failures.Recalls capacity span now history := by
  -- By keys: two steps for one that is registered or found in a flight, one for one that has
  -- failed.
  induction ks generalizing d held with
  | nil =>
    refine ⟨0, Nat.le_refl 0, [], ⟨?_, .slnil, by simp, rfl, rfl⟩, h⟩
    rw [List.append_nil]
    exact hst
  | cons k ks ih =>
    rw [List.nodup_cons] at hnodup
    have hseen := h.isSome_peek_iff k
    have hpass := mem_cons_of_not ks (k := k)
      (P := fun k => d.flights.registry[k]? = none ∧ ¬ Remembered capacity span now history k)
    -- The key is looked up first, which forgets no failure.
    let d₁ := d.lookUp now i ⟨single, k :: ks, none, held⟩ k ks
    have hrush : ∀ n, rush now i (n + 1) d = rush now i n d₁ := fun n => rush_succ hst n
    have hst₁ : d₁.starters[i]? =
        some ⟨single, ks, if (d.failures.peek now k).1.isSome then none else some k, held⟩ :=
      Std.HashMap.getElem?_insert_self
    have h₁ : d₁.failures.Recalls capacity span now history := h.peek k
    by_cases hremembered : Remembered capacity span now history k
    · rw [if_pos (hseen.2 hremembered)] at hst₁
      obtain ⟨n, hn, gs, hsifts, hrecalls⟩ := ih hnodup.2 hst₁ h₁
      refine ⟨n + 1, by rw [List.length_cons]; omega, gs, ?_, hrush n ▸ hrecalls⟩
      rw [hrush]
      exact ⟨hsifts.starter, hsifts.sublist.cons k,
        fun k' => (hsifts.mem_iff k').trans (hpass (fun hfit => hfit.2 hremembered) k'),
        hsifts.reloads_eq, hsifts.next_eq⟩
    · rw [if_neg (mt hseen.1 hremembered)] at hst₁
      let d₂ := d₁.register i ⟨single, ks, some k, held⟩ k
      have hrush₂ : ∀ n, rush now i (n + 2) d = rush now i n d₂ := fun n =>
        (hrush (n + 1)).trans (rush_succ hst₁ n)
      have h₂ : d₂.failures.Recalls capacity span now history := h₁
      cases hk : d.flights.registry[k]? with
      | some p =>
        -- A key that is being reloaded is left to that reload.
        have hd₂ : d₂ = { d₁ with starters := d₁.starters.insert i ⟨single, ks, none, held⟩ } :=
          register_joined (d := d₁) hk i _
        have hst₂ : d₂.starters[i]? = some ⟨single, ks, none, held⟩ := by
          rw [hd₂]
          exact Std.HashMap.getElem?_insert_self
        have hflights : d₂.flights = d.flights := by
          rw [hd₂]
          rfl
        obtain ⟨n, hn, gs, hsifts, hrecalls⟩ := ih hnodup.2 hst₂ h₂
        refine ⟨n + 2, by rw [List.length_cons]; omega, gs, ?_, hrush₂ n ▸ hrecalls⟩
        rw [hrush₂]
        refine ⟨hsifts.starter, hsifts.sublist.cons k, fun k' => ?_, hsifts.reloads_eq,
          hsifts.next_eq⟩
        have hmem := hsifts.mem_iff k'
        rw [hflights] at hmem
        exact hmem.trans (hpass (fun hfit => by rw [hk] at hfit; cases hfit.1) k')
      | none =>
        -- The key is registered, and the other keys find it in a flight from now on. As the keys
        -- are different, that makes no difference to them.
        let g : Guard κ := ⟨k, d.flights.promises.size⟩
        have hd₂ : d₂ = { d₁ with
            flights := ⟨d.flights.registry.insert k d.flights.promises.size,
              d.flights.promises.push none⟩
            starters := d₁.starters.insert i ⟨single, ks, none, held ++ [g]⟩ } :=
          register_owned (d := d₁) hk i _
        have hst₂ : d₂.starters[i]? = some ⟨single, ks, none, held ++ [g]⟩ := by
          rw [hd₂]
          exact Std.HashMap.getElem?_insert_self
        obtain ⟨n, hn, gs, hsifts, hrecalls⟩ := ih hnodup.2 hst₂ h₂
        refine ⟨n + 2, by rw [List.length_cons]; omega, g :: gs, ?_, hrush₂ n ▸ hrecalls⟩
        rw [hrush₂]
        refine ⟨?_, hsifts.sublist.cons_cons k, fun k' => ?_, hsifts.reloads_eq, hsifts.next_eq⟩
        · rw [hsifts.starter, List.append_assoc]
          rfl
        · have hmem := hsifts.mem_iff k'
          simp only [hd₂, Std.HashMap.getElem?_insert] at hmem
          rw [List.map_cons, List.mem_cons, hmem, List.mem_cons]
          by_cases hk' : k' = k
          · subst hk'
            simp [g, hk, hremembered]
          · simp [g, hk', Ne.symm hk']

/-- What a start comes to that is done at one moment: one call of the loader for the keys that are
left, if there are any. -/
theorem Inv.exists_rush_launch [LawfulBEq κ] (hinv : d.Inv) {capacity span : Nat}
    {history : List (κ × Nat)} {ks : List κ} (hnodup : ks.Nodup) {single : Bool}
    (hst : d.starters[i]? = some ⟨single, ks, none, []⟩)
    (h : d.failures.Recalls capacity span now history) :
    ∃ n ≤ 2 * ks.length + 1, ∃ loaded : List κ, (rush now i n d).starters[i]? = none ∧
      loaded.Sublist ks ∧
      (∀ k, k ∈ loaded ↔ k ∈ ks ∧ d.flights.registry[k]? = none ∧
        ¬ Remembered capacity span now history k) ∧
      ∀ j, (rush now i n d).loaderCall? (.reload j) =
        if j = d.next then Read.of? single loaded else d.loaderCall? (.reload j) := by
  obtain ⟨n, hn, gs, hsifts, -⟩ := exists_rush hnodup hst h
  have hlaunch : rush now i (n + 1) d = (rush now i n d).launch i ⟨single, [], none, gs⟩ := by
    rw [rush_add, rush_succ hsifts.starter]
    rfl
  refine ⟨n + 1, Nat.succ_le_succ hn, gs.map Guard.key, ?_, hsifts.sublist, hsifts.mem_iff,
    fun j => ?_⟩
  · rw [hlaunch, launch_starters, Delegate.get_erase, if_pos rfl]
  · rw [hlaunch, (hinv.rushed n).loaderCall?_launch, hsifts.next_eq]
    simp only [loaderCall?, hsifts.reloads_eq]
    rfl

end RefreshDelegate

namespace Clocked

variable {p : RefreshSetting} {history : List (κ × Nat)} {w w' : Clocked κ ν}

/-- Steps of a starter in a row are a run. -/
theorem exists_run_rush (p : RefreshSetting) (w : Clocked κ ν) (i n : Nat) :
    ∃ m, w.run? p (List.replicate m (.own (.advance w.now i))) =
      some ⟨.rush w.now i n w.core, w.now⟩ := by
  induction n generalizing w with
  | zero => exact ⟨0, rfl⟩
  | succ n ih =>
    cases hst : w.core.starters[i]? with
    | none => exact ⟨0, by rw [RefreshDelegate.rush_of_none hst]; rfl⟩
    | some st =>
      have he := after?_advance (p := p) hst
      obtain ⟨m, hrun⟩ := ih ⟨w.core.advance w.now i st, w.now⟩
      refine ⟨m + 1, ?_⟩
      rw [List.replicate_succ, run?, he, RefreshDelegate.rush_succ hst]
      exact hrun

/-- When nobody gets in between, those keys are loaded again that a read has found stale, that are
not being loaded again already, and of which no failure is remembered. -/
theorem Sound.started_at_once [LawfulBEq κ] (h : w.Sound p history) {caller : Nat} {order : List κ}
    (he : w.after? p (.finish caller order) = some w') :
    ∃ n w'', w'.run? p (List.replicate n (.own (.advance w.now w.core.nextStarter))) = some w'' ∧
      w''.core.starters[w.core.nextStarter]? = none ∧
      ∀ k, (∃ i call, w.Starts w'' i call ∧ k ∈ call.keys) ↔
        (∃ v, w.Obtains (.finish caller order) k v ∧ p.Stale w.now v) ∧ ¬ w.core.Reloading k ∧
          ¬ Remembered maxFailures p.retry w.now history k := by
  obtain ⟨core, hcore, rfl⟩ := Option.map_eq_some_iff.1 he
  obtain ⟨c, r, hc, -, hr, hperm, hend⟩ := RefreshDelegate.finish?_cases hcore
  have hnodup : order.Nodup := hperm.nodup_iff.2 (c.nodup_staleKeys _ r)
  have hinv : core.Inv := h.inv.finish hcore
  -- What the reader has found stale is what its starter has to deal with.
  have hstale : ∀ k, k ∈ order ↔
      ∃ v, w.Obtains (.finish caller order) k v ∧ p.Stale w.now v := by
    intro k
    rw [hperm.mem_iff, Caller.mem_staleKeys]
    simp only [decide_eq_true_eq]
    constructor
    · rintro ⟨v, hgot, hold⟩
      exact ⟨v, ⟨caller, order, c, r, rfl, hc, hr, hgot⟩, hold⟩
    · rintro ⟨v, ⟨caller', order', c', r', heq, hc', hr', hgot⟩, hold⟩
      obtain ⟨rfl, rfl⟩ := Event.finish.inj heq
      obtain rfl := Option.some.inj (hc.symm.trans hc')
      obtain rfl := Option.some.inj (hr.symm.trans hr')
      exact ⟨v, hgot, hold⟩
  have hnone : w.core.starters[w.core.nextStarter]? = none := by
    cases hst : w.core.starters[w.core.nextStarter]? with
    | none => rfl
    | some st => exact absurd (h.inv.starter_lt hst) (Nat.lt_irrefl _)
  rcases hend with ⟨rfl, rfl⟩ | ⟨again, -, hkeys, hsingle, rfl⟩
  · refine ⟨0, _, rfl, hnone, fun k => iff_of_false ?_ ?_⟩
    · rintro ⟨i, call, hstarts, -⟩
      exact hstarts.1 hstarts.2
    · rintro ⟨hold, -⟩
      exact absurd ((hstale k).2 hold) List.not_mem_nil
  · have hst : ((w.core.left caller).refresh again).starters[w.core.nextStarter]? =
        some ⟨c.single, order, none, []⟩ := by
      rw [← hkeys, ← hsingle]
      refine Std.HashMap.getElem?_insert_self.trans ?_
      cases again <;> rfl
    obtain ⟨n, -, loaded, hgone, hsub, hmem, hcall⟩ := hinv.exists_rush_launch hnodup hst h.recalls
    obtain ⟨m, hrun⟩ := exists_run_rush p ⟨(w.core.left caller).refresh again, w.now⟩
      w.core.nextStarter n
    refine ⟨m, _, hrun, hgone, fun k => ?_⟩
    -- The start leaves all calls alone that are outstanding already.
    have hstarts : ∀ i call, w.Starts ⟨.rush w.now w.core.nextStarter n
        ((w.core.left caller).refresh again), w.now⟩ i call ↔
        i = w.core.next ∧ Read.of? c.single loaded = some call := by
      intro i call
      have hcall' : (RefreshDelegate.rush w.now w.core.nextStarter n
          ((w.core.left caller).refresh again)).loaderCall? (.reload i) =
          if i = w.core.next then Read.of? c.single loaded else w.core.loaderCall? (.reload i) :=
        hcall i
      rw [Starts, hcall']
      by_cases hi : i = w.core.next
      · subst hi
        rw [h.inv.loaderCall?_next, if_pos rfl]
        simp
      · rw [if_neg hi]
        exact iff_of_false (fun hboth => hboth.1 hboth.2) fun hboth => hi hboth.1
    have hcallKeys : ∀ {call}, Read.of? c.single loaded = some call → call.keys = loaded := by
      intro call hcall
      refine (Read.keys_of? hcall fun hone => Nat.le_trans hsub.length_le ?_).1
      exact hkeys ▸ again.length_keys_of_single (hsingle.trans hone)
    rw [← hstale, h.inv.reloading_iff, not_not]
    refine Iff.trans ?_ (hmem k)
    constructor
    · rintro ⟨i, call, hi, hk⟩
      exact hcallKeys ((hstarts i call).1 hi).2 ▸ hk
    · intro hk
      -- With a key to be loaded there is a call.
      obtain ⟨call, hcall⟩ : ∃ call, Read.of? c.single loaded = some call := by
        cases loaded with
        | nil => exact absurd hk List.not_mem_nil
        | cons k' ks => exact ⟨_, rfl⟩
      exact ⟨_, call, (hstarts _ call).2 ⟨rfl, hcall⟩, (hcallKeys hcall).symm ▸ hk⟩

end Clocked

/-! ## Readers of a scenario -/

namespace Scenario.World

variable {ν : Type}

/-- The start of a reload is one of the delegate; all else is for the loader and the clock. -/
private theorem startReload_core (w : World ν) (stale : Read String) :
    (w.startReload stale).core = (w.core.refreshAtOnce w.now stale).2 := by
  obtain ⟨layer, clock, loader, backing, faults, core, readers, sweepers⟩ := w
  simp only [startReload, onCore, now]
  cases (core.refreshAtOnce clock.now stale).1 with
  | none => rfl
  | some q =>
    cases q <;> simp only [jobOfReload, callLoader]
    all_goals
      split <;> rfl

/-- What a reader finds stale, as its caller has it. -/
private theorem staleKeys_eq {w : World ν} {c : Caller String} {r : ReadResult String ν}
    (hform : (c.single = true ∧ ∃ o, r = .one o) ∨ (c.single = false ∧ ∃ o, r = .many o)) :
    ∃ order : List String, order.Perm (c.staleKeys (w.layer.stale w.now) r) ∧
      w.staleKeys (c.pending.head?.map Prod.fst) r = Read.of? c.single order := by
  rcases hform with ⟨hsingle, o, rfl⟩ | ⟨hmany, o, rfl⟩
  · refine ⟨_, .refl _, ?_⟩
    rw [hsingle]
    -- A failure or an absent value is not stale.
    rcases o with e | _ | v
    · rfl
    · rfl
    · simp only [staleKeys, Caller.staleKeys]
      split
      · cases c.pending.head? <;> rfl
      · rfl
  · rw [hmany]
    rcases o with e | found
    · exact ⟨[], .refl _, rfl⟩
    · -- The keys are put into order; that there are none does not depend on it.
      let stale := (found.filter fun _ v => w.layer.stale w.now v).keys
      have hperm := List.mergeSort_perm stale fun a b => decide (a ≤ b)
      refine ⟨_, hperm, ?_⟩
      show (if stale.isEmpty then none else some (Read.many (stale.mergeSort _))) = _
      generalize stale.mergeSort _ = order at hperm ⊢
      cases order with
      | nil => rw [List.nil_perm.1 hperm]; rfl
      | cons k ks =>
        cases hs : stale with
        | nil => exact absurd (hs ▸ hperm) (by simp)
        | cons k' ks' => rfl

/-- A reader in a scenario ends its read as `RefreshDelegate.finish?` says, with its stale keys in
the order of the alphabet, and starts their reload with nobody in between. -/
theorem endRead_core {w : World ν} {caller : Nat} (h : (w.core.delegate.result? caller).isSome) :
    ∃ order d, w.core.finish? (w.layer.stale w.now) caller order = some d ∧
      (w.endRead caller).2.core =
        if order.isEmpty then d
        else .rush w.now w.core.nextStarter (2 * order.length + 1) d := by
  obtain ⟨r, hr⟩ := Option.isSome_iff_exists.1 h
  obtain ⟨c, hc, -, hform⟩ := RefreshDelegate.result?_cases hr
  obtain ⟨order, hperm, hstale⟩ := staleKeys_eq (w := w) hform
  have hkey : (w.core.delegate.callers[caller]?.bind fun c => c.pending.head?).map Prod.fst =
      c.pending.head?.map Prod.fst := by
    rw [hc, Option.bind_some]
  have hlen : c.single = true → order.length ≤ 1 := by
    rw [hperm.length_eq]
    exact Caller.length_staleKeys hform _
  -- Without stale keys nobody starts anything.
  cases hof : Read.of? c.single order with
  | none =>
    obtain rfl : order = [] := by
      cases order with
      | nil => rfl
      | cons k ks => cases hof
    refine ⟨[], w.core.left caller, ?_, ?_⟩
    · simp only [RefreshDelegate.finish?, hc, hr, Option.bind_eq_bind, Option.bind_some,
        List.isPerm_iff.2 hperm, if_true, hof]
      rfl
    · simp only [endRead, hr, hkey, hstale, hof]
      rfl
  | some again =>
    have hkeys := (Read.keys_of? hof hlen).1
    refine ⟨order, (w.core.left caller).refresh again, ?_, ?_⟩
    · simp only [RefreshDelegate.finish?, hc, hr, Option.bind_eq_bind, Option.bind_some,
        List.isPerm_iff.2 hperm, if_true, hof]
      rfl
    · have hne : order.isEmpty = false := by
        cases order with
        | nil => cases hof
        | cons k ks => rfl
      simp only [endRead, hr, hkey, hstale, hof, startReload_core, hne, Bool.false_eq_true,
        if_false]
      rw [← hkeys]
      rfl

end Scenario.World

end CacheLayer
