import CacheLayer.Proofs.Loading.Aftermath
import CacheLayer.Proofs.Loading.Reloaded
/-!
# What a failed reload leaves behind

A reload that fails does no harm. It never writes to the cache, so that what is stored stays as it
was and goes on being read; and in its delegate it leaves nothing behind that would hold off a
reload for good.

## Key results

- `Backed.landed_of_failure`: no write-back of a reload that fails ever lands
- `Backed.spared_of_landed`: so it changes nothing in the cache
- `Clocked.failed_reload_harmless`: all that a failed reload leaves behind
- `RefreshDelegate.failed_batch_forgotten`: not all failures of a large batch are remembered
-/

namespace CacheLayer

variable {ω κ ν α : Type} [BEq κ] [Hashable κ]

/-! ## Failures of the loader -/

/-- The error that an answer of the loader tells of. -/
def LoadAnswer.failure? : LoadAnswer κ α → Option CacheError
  | .one r => r.failure?
  | .many r => r.failure?

/-- A failure leads to no writes. -/
theorem LoadAnswer.writes_of_failure {a : LoadAnswer κ α} (h : a.failure?.isSome)
    (inBackground : Bool) (wrap : α → ν) (call : Read κ) :
    a.writes inBackground wrap call = [] := by
  cases call <;> cases a with
  | one r => rcases r with (e | _ | v) | m | m <;> first | rfl | cases h
  | many r => rcases r with (e | m) | m | m <;> first | rfl | cases h

/-! ## The cache behind a failed reload -/

namespace Backed

/-- The site that an event is one of. -/
def Event.by? : Event ω κ ν α → Option LoadSite
  | .own (.chore _ i) => some (.reload i)
  | .own (.loading (.chore i)) => some (.miss i)
  | .land x _ => some x
  | e => e.site?

section

variable [LawfulBEq κ] {c : AcceptingCache ω κ ν} {wrap : Nat → α → ν} {w w' : Backed ω κ ν}

omit [LawfulBEq κ] in
/-- Before anything has happened, nothing is pending. -/
theorem pending_start (retry : Nat) (cache : ω) (x : LoadSite) :
    (start retry cache : Backed ω κ ν).pending x = [] := by
  cases x <;> simp [pending, start, RefreshDelegate.request?, RefreshDelegate.ofRetry]

/-- A site that is not past loading has not been answered. -/
theorem loaded_of_not_past {es : List (Event ω κ ν α)} {x : LoadSite} (h : w.core.Inv)
    (hrun : w.run? c wrap es = some w') (hx : ¬ w'.Past x) :
    ofSites (· == x) (w.loaded c wrap es) = [] := by
  induction es generalizing w with
  | nil => rfl
  | cons e es ih =>
    obtain ⟨w₁, he, hes⟩ := Option.bind_eq_some_iff.1 hrun
    rw [loaded_cons he, ofSites_append, ih (inv_after h he) hes, List.append_nil]
    by_cases hsite : ∃ a, e = .answer x a
    · obtain ⟨a, rfl⟩ := hsite
      refine absurd ?_ hx
      exact (run?_inv (P := fun w => w.core.Inv ∧ w.Past x)
        (fun _ _ _ hw he => ⟨inv_after hw.1 he, past_after hw.1 hw.2 he⟩)
        ⟨inv_after h he, past_of_answer h he⟩ hes).2
    · cases e with
      | answer y a => exact loading_of_ne fun heq => hsite ⟨a, by rw [Option.some.inj heq]⟩
      | _ => rfl

/-- No write-back of a site ever lands that the loader has answered with a failure. -/
theorem landed_of_failure {before after : List (Event ω κ ν α)} {x : LoadSite}
    {a : LoadAnswer κ α} (h : w.core.Inv) (hnone : w.pending x = [])
    (hrun : w.run? c wrap (before ++ .answer x a :: after) = some w') (hfails : a.failure?.isSome) :
    ofSites (· == x) (w.landed c wrap (before ++ .answer x a :: after)) = [] := by
  rw [run?_append] at hrun
  obtain ⟨w₁, h₁, hrun⟩ := Option.bind_eq_some_iff.1 hrun
  obtain ⟨w₂, h₂, hrun⟩ := Option.bind_eq_some_iff.1 hrun
  have hinv₁ := inv_run h h₁
  have hinv₂ := inv_after hinv₁ h₂
  -- Nothing is loaded before the answer, with it, or after it.
  have hbefore := landed_perm h h₁ x
  rw [hnone, loaded_of_not_past h h₁ (not_past_of_answer h₂)] at hbefore
  obtain ⟨hlanded₁, hpending₁⟩ := List.append_eq_nil_iff.1 hbefore.eq_nil
  have hanswer := pending_after hinv₁ h₂ x
  have hloading : ofSites (· == x) (w₁.loading wrap (.answer x a)) = [] := by
    simp only [loading]
    split
    · rw [LoadAnswer.writes_of_failure hfails]
      rfl
    · rfl
  rw [hpending₁, hloading] at hanswer
  obtain ⟨hlanding, hpending₂⟩ := List.append_eq_nil_iff.1 hanswer.eq_nil
  have hafter := landed_perm hinv₂ hrun x
  rw [hpending₂, loaded_of_past hinv₂ (past_of_answer hinv₁ h₂) hrun] at hafter
  obtain ⟨hlanded₂, -⟩ := List.append_eq_nil_iff.1 hafter.eq_nil
  rw [landed_append h₁, landed_cons h₂, ofSites_append, ofSites_append, hlanded₁, hlanding,
    hlanded₂]
  rfl

omit [LawfulBEq κ] in
/-- Telling a site a reply is no matter of the cache. -/
private theorem cache_of_tell? {x : LoadSite} {answer : Reply κ ν}
    (h : w.tell? x answer = some w') : w'.cache = w.cache := by
  obtain ⟨core, -, rfl⟩ := Option.map_eq_some_iff.1 h
  rfl

omit [LawfulBEq κ] in
/-- A reload changes the cache only by write-backs that land. -/
theorem cache_of_reload {e : Event ω κ ν α} {i : Nat} (he : w.after? c wrap e = some w')
    (hby : e.by? = some (.reload i)) (hnone : ofSites (· == .reload i) (w.landing e) = []) :
    w'.cache = w.cache := by
  -- Only landing has an effect on the cache among the events of a reload.
  cases e with
  | own s =>
    simp only [after?] at he
    split at he
    · obtain ⟨core, -, rfl⟩ := Option.map_eq_some_iff.1 he
      rfl
    · cases he
  | serve j => cases hby
  | answer x a =>
    simp only [after?] at he
    split at he
    · exact cache_of_tell? he
    · cases he
  | land x n =>
    obtain rfl : x = .reload i := Option.some.inj hby
    simp only [after?] at he
    split at he
    · next hn =>
      rw [landing, hn, ofSites_map, if_pos (beq_self_eq_true _)] at hnone
      cases hnone
    · cases he
  | written x =>
    simp only [after?] at he
    split at he
    · exact cache_of_tell? he
    · cases he
  | write k v? => cases hby
  | change f => cases hby
  | wait span => cases hby

omit [LawfulBEq κ] in
/-- A reload of which no write-back lands in a run leaves the cache alone, event by event. -/
theorem throughout_of_landed {es : List (Event ω κ ν α)} {i : Nat}
    (hnone : ofSites (· == .reload i) (w.landed c wrap es) = []) :
    w.Throughout c wrap (fun w e w' => e.by? = some (.reload i) → w'.cache = w.cache) es := by
  induction es generalizing w with
  | nil => trivial
  | cons e es ih =>
    rw [Throughout]
    split
    · trivial
    · next w₁ he =>
      rw [landed_cons he, ofSites_append] at hnone
      obtain ⟨hlanding, hlanded⟩ := List.append_eq_nil_iff.1 hnone
      exact ⟨fun hby => cache_of_reload he hby hlanding, ih hlanded⟩

/-- A reload spares the cache in a run: none of its events changes the cache, and for a key that
nothing else disturbs the cache goes on holding what it held. -/
structure Spared (c : AcceptingCache ω κ ν) (wrap : Nat → α → ν) (w : Backed ω κ ν) (i : Nat)
    (es : List (Event ω κ ν α)) : Prop where
  untouched :
    w.Throughout c wrap (fun w e w' => e.by? = some (.reload i) → w'.cache = w.cache) es
  kept : ∀ es₁ es₂ es₃ w₁ w₂ k, es = es₁ ++ (es₂ ++ es₃) → w.run? c wrap es₁ = some w₁ →
    w₁.run? c wrap es₂ = some w₂ → w₁.Undisturbed c wrap (· == .reload i) k es₂ →
    c.holds w₂.cache k = c.holds w₁.cache k

/-- A reload of which no write-back lands in a run spares the cache. -/
theorem spared_of_landed {es : List (Event ω κ ν α)} {i : Nat}
    (hnone : ofSites (· == .reload i) (w.landed c wrap es) = []) : w.Spared c wrap i es where
  untouched := throughout_of_landed hnone
  kept := by
    rintro es₁ es₂ es₃ w₁ w₂ k rfl h₁ h₂ hquiet
    rw [landed_append h₁, landed_append h₂, ofSites_append, ofSites_append] at hnone
    have hlanded := (List.append_eq_nil_iff.1 (List.append_eq_nil_iff.1 hnone).2).1
    rw [holds_of_undisturbed h₂ hquiet, hlanded]
    rfl

end

end Backed

/-! ## What a failed reload leaves behind -/

namespace Clocked

/-- A reload that fails is harmless, whether one key is loaded or several, and in whichever way the
loader fails. In the delegate it frees its keys, records their failure, is counted once, and holds
nothing off when the retry interval is over. In the cache behind it changes nothing. -/
theorem failed_reload_harmless [LawfulBEq κ] (p : RefreshSetting) :
    (∀ (i : Nat) (call : Read κ) (answer : Reply κ (Stamped ν)) (before after : List (Event κ ν))
        (w₀ w₁ w₂ : Clocked κ ν),
      (start p).run? p before = some w₀ → w₀.core.loaderCall? (.reload i) = some call →
      answer.failure?.isSome → w₀.after? p (.own (.reply i answer)) = some w₁ →
      w₁.run? p after = some w₂ → Aftermath p i call answer before after w₁ w₂) ∧
    ∀ (c : AcceptingCache ω κ (Stamped ν)) (cache : ω) (i : Nat) (a : LoadAnswer κ ν)
        (before after : List (Backed.Event ω κ (Stamped ν) ν)) (w : Backed ω κ (Stamped ν)),
      (Backed.start p.retry cache).run? c (Stamped.stamp p.epoch)
        (before ++ .answer (.reload i) a :: after) = some w → a.failure?.isSome →
      (Backed.start p.retry cache).Spared c (Stamped.stamp p.epoch) i
        (before ++ .answer (.reload i) a :: after) := by
  constructor
  · intro i call answer before after w₀ w₁ w₂ h₀ hcall hfails h₁ h₂
    exact aftermath h₀ hcall hfails h₁ h₂
  · intro c cache i a before after w hrun hfails
    have hnone := Backed.pending_start (κ := κ) (ν := Stamped ν) p.retry cache (.reload i)
    exact Backed.spared_of_landed
      (Backed.landed_of_failure (.ofRetry p.retry) hnone hrun hfails)

/-- A value of key 1 that is half a second old is read and is to be loaded again. -/
def foundOld : List (Event Nat Nat) := readAgain ++ [.own (.advance (Span.ofMillis 500) 0)]

/-- The loader breaks off while its answer is awaited. -/
def brokenOff : Reply Nat (Stamped Nat) := .load (.brokeLater none)

/-- When the failure is recorded, the reload drops its guard. Somebody reads the key again when the
retry interval is over, and the cache still holds it. -/
def readOnceMore : List (Event Nat Nat) :=
  [.own (.chore (Span.ofMillis 500) 0), .own (.chore (Span.ofMillis 500) 0),
    .own (.chore (Span.ofMillis 500) 0), .wait (Span.ofMillis 25),
    .own (.loading (.call (.one 1))), .own (.loading (.advance 2)), .own (.loading (.advance 2)),
    .own (.loading (.ask 3)), .own (.loading (.reply 3 (.read (.ok (some ⟨10, 0⟩))))),
    .own (.loading (.chore 3)), .own (.loading (.chore 3)), .own (.loading (.chore 3))]

/-- A delegate in which the first reload has done its first chore. -/
def firstDone (w : Clocked Nat Nat) (failures : Store Nat Unit) (stats : RefreshStats) :
    Clocked Nat Nat :=
  ⟨{ w.core.setReload 0 ⟨(w.core.choresLeft 0).tail, none, false⟩ with
      failures := failures
      stats := stats }, w.now⟩

-- Nothing that happens then depends on what has been recorded and counted.
private theorem readOnceMore_run (failures : Store Nat Unit) (stats : RefreshStats) :
    ((start halfSecond).run? halfSecond foundOld).elim False fun w₀ =>
      w₀.core.loaderCall? (.reload 0) = some (.one 1) ∧
      (start halfSecond).failures halfSecond foundOld = [] ∧
      (w₀.after? halfSecond (.own (.reply 0 brokenOff))).elim False fun w₁ =>
        w₁.now = Span.ofMillis 500 ∧ w₁.core.stats = ⟨1, 0⟩ ∧
        ((firstDone w₁ failures stats).run? halfSecond readOnceMore).elim False fun w₂ =>
          w₂.now = Span.ofMillis 525 ∧ w₂.core.stats = stats ∧
          w₂.core.flights.registry[1]? = none ∧
          (firstDone w₁ failures stats).failures halfSecond readOnceMore = [] ∧
          (w₂.core.delegate.callers[2]?.bind fun c =>
            (w₂.core.delegate.result? 2).bind fun r => c.got? 1 r) = some ⟨10, 0⟩ := by
  cbv

/-- The loader breaks off, the failure is recorded, and the retry interval later a read has got what
the cache still holds. -/
private theorem readOnceMore_after : ∃ w₀ w₁ w₂ : Clocked Nat Nat,
    (start halfSecond).run? halfSecond foundOld = some w₀ ∧
    w₀.core.loaderCall? (.reload 0) = some (.one 1) ∧
    w₀.after? halfSecond (.own (.reply 0 brokenOff)) = some w₁ ∧
    w₁.run? halfSecond (.own (.chore (Span.ofMillis 500) 0) :: readOnceMore) = some w₂ ∧
    (start halfSecond).failures halfSecond (foundOld ++ .own (.reply 0 brokenOff) ::
      .own (.chore (Span.ofMillis 500) 0) :: readOnceMore) = [(1, Span.ofMillis 500)] ∧
    w₂.now = Span.ofMillis 525 ∧ w₂.core.stats = ⟨1, 1⟩ ∧ ¬ w₂.core.Reloading 1 ∧
    ∃ c r, w₂.core.delegate.callers[2]? = some c ∧ w₂.core.delegate.result? 2 = some r ∧
      c.got? 1 r = some ⟨10, 0⟩ := by
  obtain ⟨w₀, h₀, hcall, hnone, h⟩ := exists_of_elim (readOnceMore_run (.ofLimits 1 0) {})
  obtain ⟨w₁, h₁, hnow, hstats, -⟩ := exists_of_elim h
  obtain ⟨gs, error, hkeys, -, hrest⟩ := rest_of_failure hcall rfl h₁
  -- The failures after the chore are a store that does not compute, so that the state behind it is
  -- given by what is known of it.
  have hchore := after?_chore (p := halfSecond) hrest
  generalize hdone : (⟨w₁.core.chore w₁.now 0 _ _, w₁.now⟩ : Clocked Nat Nat) = w at hchore
  have hfirst : w = firstDone w₁ w.core.failures w.core.stats := by
    rw [← hdone, firstDone, choresLeft_of_rest hrest]
    rfl
  have hcounted : w.core.stats = ⟨1, 1⟩ := by
    have hone : w.core.stats =
        { w₁.core.stats with refreshErrors := w₁.core.stats.refreshErrors + 1 } := hdone ▸ rfl
    rw [hone, hstats]
  have hrecorded : w₁.recorded (.own (.chore w₁.now 0)) = [(1, w₁.now)] := by
    simp [recorded, hrest, Reload.rest?, Reload.failed, hkeys, Read.keys]
  have h := readOnceMore_run w.core.failures w.core.stats
  simp only [h₀, h₁, Option.elim_some, ← hfirst] at h
  obtain ⟨w₂, h₂, hnow₂, hstats₂, hregistry, hquiet, hgot⟩ := exists_of_elim h.2.2.2.2
  rw [hnow] at hchore hrecorded
  have hrun : w₁.run? halfSecond (.own (.chore (Span.ofMillis 500) 0) :: readOnceMore) =
      some w₂ := by
    rw [run?, hchore]
    exact h₂
  refine ⟨w₀, w₁, w₂, h₀, hcall, h₁, hrun, ?_, hnow₂, hstats₂.trans hcounted, ?_, ?_⟩
  · have hnothing : w₀.recorded (.own (.reply 0 brokenOff)) = [] := rfl
    rw [failures_append h₀, failures_cons h₁, failures_cons hchore, hnone, hrecorded, hquiet,
      hnothing]
    rfl
  · -- The reload is over, and with it its flight.
    have hinv := ((((Sound.start halfSecond).run h₀).after h₁).run hrun).inv
    rw [hinv.reloading_iff, hregistry]
    simp
  · obtain ⟨c, hc, hgot⟩ := Option.bind_eq_some_iff.1 hgot
    obtain ⟨r, hr, hgot⟩ := Option.bind_eq_some_iff.1 hgot
    exact ⟨c, r, hc, hr, hgot⟩

/-- The loader breaks off when it is called for key 1. -/
def brokenAtOnce : List (Backed.Event (Store Nat (Stamped Nat)) Nat (Stamped Nat) Nat) :=
  [.answer (.reload 0) (.one (.brokeAtCall none)), .wait (Span.ofMillis 25)]

private theorem brokeAtCall_run :
    ((Backed.start halfSecond.retry Backed.holdingOne).run? .ofStore (Stamped.stamp 0)
        Backed.foundStale).elim False fun w =>
      AcceptingCache.ofStore.holds w.cache 1 = some ⟨10, 0⟩ ∧
      w.Undisturbed .ofStore (Stamped.stamp 0) (· == .reload 0) 1 brokenAtOnce ∧
      (w.run? .ofStore (Stamped.stamp 0) brokenAtOnce).elim False fun w' =>
        w'.now = Span.ofMillis 525 := by
  cbv

/-- The loader breaks off, and 25 milliseconds later a read has key 1 reloaded again. A store that
holds 10 for the key goes on holding it. -/
theorem failed_reload_harmless_brokenOff :
    (∃ w₀ w₁ w₂ w₃ w₄ : Clocked Nat Nat, ∃ order n j call,
      (start halfSecond).run? halfSecond foundOld = some w₀ ∧
      w₀.core.loaderCall? (.reload 0) = some (.one 1) ∧
      w₀.after? halfSecond (.own (.reply 0 brokenOff)) = some w₁ ∧
      w₁.run? halfSecond (.own (.chore (Span.ofMillis 500) 0) :: readOnceMore) = some w₂ ∧
      w₂.core.stats = ⟨1, 1⟩ ∧ w₂.core.request? (.reload 0) = none ∧
      w₂.after? halfSecond (.finish 2 order) = some w₃ ∧
      w₃.run? halfSecond (List.replicate n (.own (.advance w₂.now w₂.core.nextStarter))) =
        some w₄ ∧ w₂.Starts w₄ j call ∧ 1 ∈ call.keys) ∧
    ∃ w w' : Backed (Store Nat (Stamped Nat)) Nat (Stamped Nat),
      (Backed.start halfSecond.retry Backed.holdingOne).run? .ofStore (Stamped.stamp 0)
        Backed.foundStale = some w ∧
      w.run? .ofStore (Stamped.stamp 0) brokenAtOnce = some w' ∧
      AcceptingCache.ofStore.holds w'.cache 1 = some ⟨10, 0⟩ := by
  constructor
  · obtain ⟨w₀, w₁, w₂, h₀, hcall, h₁, h₂, hfailures, hnow, hstats, hnot, c, r, hc, hr, hgot⟩ :=
      readOnceMore_after
    have haftermath := (failed_reload_harmless (ω := Unit) halfSecond).1 0 (.one 1) brokenOff
      foundOld _ w₀ w₁ w₂ h₀ hcall rfl h₁ h₂
    obtain ⟨order, w₃, h₃⟩ := haftermath.served 2 (by rw [hr]; rfl)
    obtain ⟨n, w₄, h₄, j, call, hstarts, hk⟩ := haftermath.unblocked 1
      (fun t ht => by
        rw [hfailures] at ht
        obtain rfl : t = Span.ofMillis 500 := by simpa using ht
        rw [hnow]
        decide)
      hnot 2 order w₃ _ h₃ ⟨2, order, c, r, rfl, hc, hr, hgot⟩ (by rw [hnow]; decide)
    exact ⟨w₀, w₁, w₂, w₃, w₄, order, n, j, call, h₀, hcall, h₁, h₂, hstats, haftermath.silent, h₃,
      h₄, hstarts, hk⟩
  · obtain ⟨w, h, hholds, hquiet, hafter⟩ := exists_of_elim brokeAtCall_run
    obtain ⟨w', h', -⟩ := exists_of_elim hafter
    refine ⟨w, w', h, h', ?_⟩
    have hrun : (Backed.start halfSecond.retry Backed.holdingOne).run? .ofStore (Stamped.stamp 0)
        (Backed.foundStale ++ brokenAtOnce) = some w' := by
      rw [Backed.run?_append, h]
      exact h'
    have hspared := (failed_reload_harmless halfSecond).2 .ofStore Backed.holdingOne 0
      (.one (.brokeAtCall none)) Backed.foundStale [.wait (Span.ofMillis 25)] w' hrun rfl
    rw [hspared.kept Backed.foundStale _ [] w w' 1 rfl h h' hquiet, hholds]

end Clocked

/-! ## Batches that are too large to be remembered -/

omit [Hashable κ] in
/-- Of keys that are recorded at once the first one is not remembered if there are too many others.
-/
private theorem not_remembered_first [LawfulBEq κ] {capacity span now t : Nat} {k : κ} {ks : List κ}
    (hnodup : (k :: ks).Nodup) (hlarge : capacity ≤ ks.length) :
    ¬ Remembered capacity span now ((k :: ks).map fun k => (k, t)) k := by
  rw [List.nodup_cons] at hnodup
  rintro ⟨before, t', after, hsplit, -, hfew⟩
  -- The first entry is the only one of its key, as the keys are different.
  cases before with
  | cons r before =>
    have hmem : (k, t') ∈ ks.map fun k => (k, t) := by
      rw [(List.cons.inj hsplit).2]
      simp
    obtain ⟨k', hk', heq⟩ := List.mem_map.1 hmem
    exact hnodup.1 ((Prod.mk.inj heq).1 ▸ hk')
  | nil =>
    -- Behind it all the other keys have been recorded.
    have hothers : (after.map Prod.fst).filter (· != k) = ks := by
      rw [← (List.cons.inj hsplit).2, List.map_map, List.filter_eq_self.2]
      · exact List.map_id _
      · intro k' hk'
        exact bne_iff_ne.2 fun heq => hnodup.1 (by simpa [heq] using hk')
    rw [hothers] at hfew
    have hcount := (hnodup.2.subperm fun _ hk => List.mem_eraseDups.2 hk).length_le
    omega

namespace RefreshDelegate

/-- Steps of a starter in a row are a run. -/
private theorem exists_run?_rush (d : RefreshDelegate κ ν) (now i n : Nat) :
    ∃ m, d.run? (List.replicate m (.own (.advance now i))) = some (rush now i n d) := by
  induction n generalizing d with
  | zero => exact ⟨0, rfl⟩
  | succ n ih =>
    cases hst : d.starters[i]? with
    | none => exact ⟨0, by rw [rush_of_none hst]; rfl⟩
    | some st =>
      obtain ⟨m, hrun⟩ := ih (d.advance now i st)
      refine ⟨m + 1, ?_⟩
      rw [List.replicate_succ, run?, step?, hst, Option.map_some, Option.bind_some, rush_succ hst]
      exact hrun

/-- A new delegate reloads a whole batch. -/
private theorem refresh_ofRetry [LawfulBEq κ] (retry now : Nat) {ks : List κ} (hnodup : ks.Nodup)
    (hne : ks ≠ []) : ∃ (m : Nat) (gs : List (Guard κ)) (d : RefreshDelegate κ ν),
      gs.map Guard.key = ks ∧
      (ofRetry retry).run?
        (.own (.refresh (.many ks)) :: List.replicate m (.own (.advance now 0))) = some d ∧
      d.reloads[0]? = some ⟨[], some (.loadMany gs), true⟩ ∧
      d.failures.Recalls maxFailures retry now [] := by
  have hnone : ((ofRetry retry : RefreshDelegate κ ν).refresh (.many ks)).failures.Recalls
      maxFailures retry now [] := .ofLimits maxFailures retry now
  have hst : ((ofRetry retry : RefreshDelegate κ ν).refresh (.many ks)).starters[0]? =
      some ⟨false, ks, none, []⟩ := Std.HashMap.getElem?_insert_self
  obtain ⟨n, -, gs, hsifts, hrecalls⟩ := exists_rush hnodup hst hnone
  -- A new delegate has no flights and no failures, which could hold a key off.
  have hall : ks ⊆ gs.map Guard.key := by
    intro k hk
    refine (hsifts.mem_iff k).2 ⟨hk, Std.HashMap.getElem?_empty, ?_⟩
    rintro ⟨before, t, after, hsplit, -⟩
    simp at hsplit
  have hkeys := hsifts.sublist.eq_of_length_le (hnodup.subperm hall).length_le
  -- With all keys registered the loader is called for all of them.
  have hlaunch : rush now 0 (n + 1) ((ofRetry retry : RefreshDelegate κ ν).refresh (.many ks)) =
      (rush now 0 n ((ofRetry retry).refresh (.many ks))).launch 0 ⟨false, [], none, gs⟩ := by
    rw [rush_add, rush_succ hsifts.starter]
    rfl
  obtain ⟨m, hrun⟩ := exists_run?_rush
    ((ofRetry retry : RefreshDelegate κ ν).refresh (.many ks)) now 0 (n + 1)
  refine ⟨m, gs, _, hkeys, hrun, ?_, ?_⟩
  · have hnext :
        (rush now 0 n ((ofRetry retry : RefreshDelegate κ ν).refresh (.many ks))).next = 0 :=
      hsifts.next_eq
    rw [hlaunch, launch]
    cases gs with
    | nil => exact absurd hkeys.symm hne
    | cons g gs =>
      show ((rush now 0 n ((ofRetry retry).refresh (.many ks))).reloads.insert _ _)[0]? = _
      rw [hnext, Std.HashMap.getElem?_insert_self]
  · rw [hlaunch, launch_failures]
    exact hrecalls

/-- The first chore of a reload that has failed records all its keys. -/
private theorem record_failed {d : RefreshDelegate κ ν} {i : Nat} {gs : List (Guard κ)}
    {e : CacheError} (now : Nat) (hr : d.reloads[i]? = some (.failed gs e)) :
    ∃ d', d.step? (.chore now i) = some d' ∧
      d'.failures = remember d.failures now (gs.map Guard.key) := by
  have hstep : d.step? (.chore now i) = some (d.chore now i (.remember (gs.map Guard.key))
      ⟨(Reload.failed gs e : Reload κ ν).chores.tail, none, false⟩) := by
    rw [step?, hr]
    rfl
  exact ⟨_, hstep, rfl⟩

/-- The failure of a large batch is not remembered of all its keys: that of the first one is
forgotten when all others are recorded. -/
theorem failed_batch_forgotten : ∃ (m : Nat) (d₁ d₂ : RefreshDelegate Nat Nat),
    (ofRetry Span.second).run? (.own (.refresh (.many (List.range (maxFailures + 1)))) ::
      List.replicate m (.own (.advance 0 0))) = some d₁ ∧
    d₁.loaderCall? (.reload 0) = some (.many (List.range (maxFailures + 1))) ∧
    d₁.run? [.own (.reply 0 (.loadMany (.brokeLater none))), .own (.chore 0 0)] = some d₂ ∧
    (d₂.failures.peek 0 0).1 = none := by
  have hnodup : (List.range (maxFailures + 1)).Nodup := List.nodup_range
  have hsplit : List.range (maxFailures + 1) = 0 :: (List.range maxFailures).map Nat.succ :=
    List.range_succ_eq_map
  obtain ⟨m, gs, d₁, hkeys, h₁, hr, hrecalls⟩ := refresh_ofRetry (ν := Nat) Span.second 0 hnodup
    (by rw [hsplit]; exact List.cons_ne_nil _ _)
  obtain ⟨e, hreply⟩ : ∃ e, d₁.step? (.reply 0 (.loadMany (.brokeLater none))) =
      some (d₁.setReload 0 (.failed gs e)) := ⟨_, by rw [step?, hr]; rfl⟩
  have hfailed : (d₁.setReload 0 (.failed gs e)).reloads[0]? = some (.failed gs e) :=
    (get_putReload _ 0 0 _).trans (if_pos rfl)
  obtain ⟨d₂, hchore, hfailures⟩ := record_failed 0 hfailed
  have hrecorded := hrecalls.setAll (by decide) (gs.map Guard.key)
  refine ⟨m, d₁, d₂, h₁, ?_, ?_, ?_⟩
  · rw [loaderCall?, hr, ← hkeys]
    rfl
  · rw [run?, hreply, Option.bind_some, run?, hchore]
    rfl
  · -- All keys but the first one were recorded behind it, and that is as many as are remembered.
    rw [hkeys, hsplit, List.nil_append] at hrecorded
    rw [hsplit] at hnodup
    refine Option.not_isSome_iff_eq_none.1 fun hsome => ?_
    rw [hfailures, hkeys, hsplit] at hsome
    exact not_remembered_first hnodup (by simp) ((hrecorded.isSome_peek_iff 0).1 hsome)

end RefreshDelegate

end CacheLayer
