import CacheLayer.Proofs.Update.Traffic
import Mathlib.Data.List.Induction
/-!
# What updates do in traffic

What is observed of the calls of updates in a run: what their mappers are shown, and how often they
write. A call writes only if the live entry of its key has the version that was read, and since
versions never come back, the entry is then still the one that was read.

## Key results

- `Traffic.Observed.concat`: what is known of the calls is kept by every event
- `Traffic.Observed.write`: a call writes on top of what its mapper was shown last
-/

namespace CacheLayer

namespace Update

variable {τ ν : Type}

/-- How many more attempts there may be. -/
def left : Update τ ν → Nat
  | toRead left => left
  | toWrite left _ _ => left
  | done _ => 0

/-- Whether an update has ended with success. -/
def hasSucceeded : Update τ ν → Bool
  | done (.ok true) => true
  | _ => false

theorem hasSucceeded_iff {u : Update τ ν} : u.hasSucceeded = true ↔ u = .done (.ok true) := by
  rcases u with _ | _ | _ | _ | _ <;> simp [hasSucceeded]

end Update

namespace Traffic

variable {κ ν : Type} [BEq κ] [Hashable κ] [BEq ν]

/-! ## What is observed of a call -/

/-- What the mapper of a call is shown in an event. -/
def shownBy (i : Nat) (t : Traffic κ ν) : Event κ ν → List (Option ν)
  | .step j _ => if j = i then (t.calls[i]?.map fun c => c.shown t.cache).getD [] else []
  | _ => []

/-- How often a call writes in an event. Every write takes a version, and nothing else does. -/
def writesBy (i : Nat) (t : Traffic κ ν) : Event κ ν → Nat
  | .step j f => if j = i then (t.after (.step j f)).store.nextVersion - t.store.nextVersion else 0
  | _ => 0

/-- What the mapper of a call is shown in a run, in this order. -/
def shownTo (i : Nat) : Traffic κ ν → List (Event κ ν) → List (Option ν)
  | _, [] => []
  | t, e :: es => shownBy i t e ++ shownTo i (t.after e) es

/-- How often a call writes in a run. -/
def writesOf (i : Nat) : Traffic κ ν → List (Event κ ν) → Nat
  | _, [] => 0
  | t, e :: es => writesBy i t e + writesOf i (t.after e) es

theorem run_concat (t : Traffic κ ν) (es : List (Event κ ν)) (e : Event κ ν) :
    t.run (es ++ [e]) = (t.run es).after e := by
  rw [run_append]
  rfl

theorem shownTo_concat (i : Nat) (t : Traffic κ ν) (es : List (Event κ ν)) (e : Event κ ν) :
    shownTo i t (es ++ [e]) = shownTo i t es ++ shownBy i (t.run es) e := by
  induction es generalizing t with
  | nil => simp [shownTo]
  | cons e' es ih => simp only [List.cons_append, shownTo, ih, run_cons, List.append_assoc]

theorem writesOf_concat (i : Nat) (t : Traffic κ ν) (es : List (Event κ ν)) (e : Event κ ν) :
    writesOf i t (es ++ [e]) = writesOf i t es + writesBy i (t.run es) e := by
  induction es generalizing t with
  | nil => simp [writesOf]
  | cons e' es ih => simp only [List.cons_append, writesOf, ih, run_cons, Nat.add_assoc]

/-- A call with a value to be written: its last read showed the live entry of that moment to the
mapper, and the mapper gave the value. -/
def Mapped (t : Traffic κ ν) (es : List (Event κ ν)) (i : Nat) (k : κ) (token : Option Nat)
    (v : ν) : Prop :=
  ∃ es₁ f es₂, es = es₁ ++ .step i f :: es₂ ∧
    shownTo i t es = shownTo i t es₁ ++ [((t.run es₁).live? k).map Entry.value] ∧
    f (((t.run es₁).live? k).map Entry.value) = some v ∧
    token = ((t.run es₁).live? k).map Entry.version

/-- What is known of a call after a run. -/
structure Progress (t : Traffic κ ν) (es : List (Event κ ν)) (i : Nat) (c : Update.Call κ ν) :
    Prop where
  answer : ∀ a, c.state = .done a → a = .ok true ∨ a = .ok false
  writes : writesOf i t es = c.state.hasSucceeded.toNat
  shown_le : (shownTo i t es).length + c.state.left ≤ c.attempts
  mapped : ∀ left token v, c.state = .toWrite left token v → Mapped t es i c.key token v

/-- What is known of all calls after a run. -/
structure Observed (t : Traffic κ ν) (es : List (Event κ ν)) : Prop where
  progress : ∀ {i : Nat} {c : Update.Call κ ν},
    (t.run es).calls[i]? = some c → Progress t es i c
  unborn : ∀ {i : Nat}, (t.run es).calls[i]? = none → writesOf i t es = 0 ∧ shownTo i t es = []

/-! ## One event -/

/-- An event that is not a step of a call is not observed of the call. -/
private theorem Progress.elsewhere {t : Traffic κ ν} {es : List (Event κ ν)} {i : Nat}
    {c : Update.Call κ ν} (h : Progress t es i c) {e : Event κ ν}
    (hshown : shownBy i (t.run es) e = []) (hwrites : writesBy i (t.run es) e = 0) :
    Progress t (es ++ [e]) i c := by
  have hsame : shownTo i t (es ++ [e]) = shownTo i t es := by
    rw [shownTo_concat, hshown, List.append_nil]
  constructor
  case answer => exact h.answer
  case writes =>
    rw [writesOf_concat, hwrites]
    exact h.writes
  case shown_le =>
    rw [hsame]
    exact h.shown_le
  case mapped =>
    intro left token v hstate
    obtain ⟨es₁, f, es₂, rfl, hseen, hf, htoken⟩ := h.mapped left token v hstate
    refine ⟨es₁, f, es₂ ++ [e], ?_, ?_, hf, htoken⟩
    · rw [List.append_assoc, List.cons_append]
    · rw [hsame]
      exact hseen

/-- A step of a call. -/
private theorem Progress.turn [LawfulBEq κ] {t : Traffic κ ν} {es : List (Event κ ν)} {i : Nat}
    {c : Update.Call κ ν} (h : Progress t es i c) (hc : (t.run es).calls[i]? = some c)
    (f : Mapper ν) {state : Update (Option Nat) ν}
    (hturn : Update.Turn (t.run es) c f state ((t.run es).after (.step i f)).store
      (c.shown (t.run es).cache)) :
    Progress t (es ++ [.step i f]) i { c with state := state } := by
  have hseen : shownTo i t (es ++ [.step i f]) = shownTo i t es ++ c.shown (t.run es).cache := by
    rw [shownTo_concat, shownBy, if_pos rfl, hc]
    rfl
  have hwrites : writesOf i t (es ++ [.step i f]) =
      c.state.hasSucceeded.toNat + (((t.run es).after (.step i f)).store.nextVersion -
        (t.run es).store.nextVersion) := by
    rw [writesOf_concat, writesBy, if_pos rfl, h.writes]
  have hshown := h.shown_le
  -- A look at the key takes no version, so that only the write counts as one.
  have hlook := (Store.Drops.peekEntry (t.run es).store (t.run es).now c.key).nextVersion
  generalize ((t.run es).after (.step i f)).store = s at hturn hwrites
  generalize c.shown (t.run es).cache = seen at hturn hseen
  cases hturn with
  | giveUp hstate =>
    -- No attempt is left, and nothing has been written.
    rw [hstate] at hshown hwrites
    constructor
    case answer =>
      intro a ha
      exact .inr (Update.done.inj ha).symm
    case writes => simpa [Update.hasSucceeded] using hwrites
    case shown_le => simpa [hseen, Update.left] using hshown
    case mapped => exact nofun
  | decline left hstate hf =>
    -- The mapper was shown a value once more, and gave none.
    rw [hstate] at hshown hwrites
    constructor
    case answer =>
      intro a ha
      exact .inr (Update.done.inj ha).symm
    case writes => simpa [hlook, Update.hasSucceeded] using hwrites
    case shown_le =>
      simp only [hseen, List.length_append, List.length_singleton, Update.left] at hshown ⊢
      omega
    case mapped => exact nofun
  | map left v hstate hf =>
    -- The mapper is shown the live entry of this moment, and an attempt is used up for it.
    rw [hstate] at hshown hwrites
    constructor
    case answer => exact nofun
    case writes => simpa [hlook, Update.hasSucceeded] using hwrites
    case shown_le =>
      simp only [hseen, List.length_append, List.length_singleton, Update.left] at hshown ⊢
      omega
    case mapped =>
      intro left' token v' hstate'
      obtain ⟨rfl, rfl, rfl⟩ := Update.toWrite.inj hstate'
      exact ⟨es, f, [], rfl, hseen, hf, rfl⟩
  | write left token v hstate hv =>
    -- The version is taken by this write, the only one of the call.
    rw [hstate] at hshown hwrites
    constructor
    case answer =>
      intro a ha
      exact .inl (Update.done.inj ha).symm
    case writes =>
      rw [Store.nextVersion_set, hlook] at hwrites
      rw [hwrites]
      simp only [Update.hasSucceeded, Bool.toNat_true, Bool.toNat_false]
      omega
    case shown_le =>
      simp only [hseen, List.append_nil, Update.left] at hshown ⊢
      omega
    case mapped => exact nofun
  | lose left token v hstate hv =>
    -- The next attempt will show the mapper another value; this one has not written.
    rw [hstate] at hshown hwrites
    constructor
    case answer => exact nofun
    case writes => simpa [hlook, Update.hasSucceeded] using hwrites
    case shown_le => simpa [hseen, Update.left] using hshown
    case mapped => exact nofun
  | rest a hstate =>
    -- A call that is over stays as it is.
    rw [hstate] at hshown hwrites
    constructor
    case answer =>
      intro a' ha'
      obtain rfl := Update.done.inj ha'
      exact h.answer a hstate
    case writes => simpa using hwrites
    case shown_le => simpa [hseen] using hshown
    case mapped => exact nofun

/-- An event that is a step of no call. -/
private theorem Observed.elsewhere {t : Traffic κ ν} {es : List (Event κ ν)} (h : Observed t es)
    {e : Event κ ν} (hcalls : ((t.run es).after e).calls = (t.run es).calls)
    (hshown : ∀ i, shownBy i (t.run es) e = []) (hwrites : ∀ i, writesBy i (t.run es) e = 0) :
    Observed t (es ++ [e]) := by
  constructor
  case progress =>
    intro i c hc
    rw [run_concat, hcalls] at hc
    exact (h.progress hc).elsewhere (hshown i) (hwrites i)
  case unborn =>
    intro i hi
    rw [run_concat, hcalls] at hi
    obtain ⟨hwrites', hshown'⟩ := h.unborn hi
    rw [writesOf_concat, shownTo_concat, hwrites', hshown', hwrites, hshown]
    exact ⟨rfl, rfl⟩

private theorem Observed.begin {t : Traffic κ ν} {es : List (Event κ ν)} (h : Observed t es) (k : κ)
    (attempts : Nat) : Observed t (es ++ [.begin k attempts]) := by
  have hcalls : (t.run (es ++ [.begin k attempts])).calls =
      (t.run es).calls ++ [⟨k, attempts, .toRead attempts⟩] := by
    rw [run_concat]
    rfl
  constructor
  case progress =>
    intro i c hc
    rw [hcalls, List.getElem?_append] at hc
    split at hc
    · exact (h.progress hc).elsewhere rfl rfl
    · next hi =>
      -- This is the new call, of which nothing has been observed.
      obtain ⟨hwrites, hshown⟩ := h.unborn (List.getElem?_eq_none (Nat.le_of_not_lt hi))
      obtain rfl := List.mem_singleton.1 (List.mem_of_getElem? hc)
      constructor
      case answer => exact nofun
      case writes =>
        rw [writesOf_concat, hwrites]
        rfl
      case shown_le =>
        rw [shownTo_concat, hshown]
        simp [shownBy, Update.left]
      case mapped => exact nofun
  case unborn =>
    intro i hi
    rw [hcalls, List.getElem?_eq_none_iff, List.length_append] at hi
    obtain ⟨hwrites, hshown⟩ := h.unborn (List.getElem?_eq_none (show _ ≤ i by omega))
    rw [writesOf_concat, shownTo_concat, hwrites, hshown]
    exact ⟨rfl, rfl⟩

private theorem Observed.step [LawfulBEq κ] {t : Traffic κ ν} {es : List (Event κ ν)}
    (h : Observed t es) (j : Nat) (f : Mapper ν) : Observed t (es ++ [.step j f]) := by
  cases hj : (t.run es).calls[j]? with
  | none =>
    have hafter := after_step_of_none hj f
    refine h.elsewhere (by rw [hafter]) (fun i => ?_) fun i => ?_
    · rw [shownBy]
      split
      · next hji =>
        subst hji
        rw [hj]
        rfl
      · rfl
    · rw [writesBy, hafter, Nat.sub_self, ite_self]
  | some c =>
    obtain ⟨state, hturn, -, hcalls⟩ := after_step hj f
    constructor
    case progress =>
      intro i c' hc'
      rw [run_concat, hcalls] at hc'
      -- The step is that of the call itself or that of another one.
      by_cases hji : j = i
      · subst hji
        have hlt := (List.getElem?_eq_some_iff.1 hj).1
        rw [List.getElem?_set_self hlt] at hc'
        obtain rfl := Option.some.inj hc'
        exact (h.progress hj).turn hj f hturn
      · rw [List.getElem?_set_ne hji] at hc'
        exact (h.progress hc').elsewhere (if_neg hji) (if_neg hji)
    case unborn =>
      intro i hi
      rw [run_concat, hcalls, List.getElem?_eq_none_iff, List.length_set,
        ← List.getElem?_eq_none_iff] at hi
      -- A call that has not begun is not the one that took the step.
      have hji : j ≠ i := by
        intro heq
        rw [← heq, hj] at hi
        cases hi
      obtain ⟨hwrites, hshown⟩ := h.unborn hi
      rw [writesOf_concat, shownTo_concat, hwrites, hshown]
      rw [shownBy, writesBy, if_neg hji, if_neg hji]
      exact ⟨rfl, rfl⟩

/-- What is known of the calls is kept by every event. -/
theorem Observed.concat [LawfulBEq κ] {t : Traffic κ ν} {es : List (Event κ ν)}
    (h : Observed t es) (e : Event κ ν) : Observed t (es ++ [e]) := by
  cases e with
  | begin k attempts => exact h.begin k attempts
  | step j f => exact h.step j f
  | perform op => exact h.elsewhere rfl (fun _ => rfl) fun _ => rfl
  | wait span => exact h.elsewhere rfl (fun _ => rfl) fun _ => rfl

/-- From the beginning of a cache on, its calls are observed. -/
theorem observed_run [LawfulBEq κ] (config : Config) (es : List (Event κ ν)) :
    Observed (start config) es := by
  induction es using List.reverseRecOn with
  | nil =>
    refine ⟨fun hc => ?_, fun _ => ⟨rfl, rfl⟩⟩
    simp [start] at hc
  | append_singleton es e ih => exact ih.concat e

/-! ## The write of a call -/

omit [BEq ν] in
theorem dated_start (config : Config) : (start config : Traffic κ ν).store.Dated :=
  Store.dated_ofLimits config.maxEntries config.ttl

/-- A call that writes does so on top of the live entry that its mapper was shown last. -/
theorem Observed.write [LawfulBEq κ] {t : Traffic κ ν} {es : List (Event κ ν)}
    (h : Observed t es) (hdated : t.store.Dated) {i : Nat} {c : Update.Call κ ν}
    (hc : (t.run es).calls[i]? = some c) {f : Mapper ν}
    (hwrites : writesBy i (t.run es) (.step i f) ≠ 0) :
    ∃ es₁ g es₂ v, es = es₁ ++ .step i g :: es₂ ∧
      shownTo i t es = shownTo i t es₁ ++ [((t.run es).live? c.key).map Entry.value] ∧
      g (((t.run es).live? c.key).map Entry.value) = some v ∧
      (t.run (es ++ [.step i f])).store.entries[c.key]? =
        some ⟨v, (t.run es).now, (t.run es).store.nextVersion⟩ ∧
      ∀ e, (t.run es).live? c.key = some e → ∀ mid, mid <+: .step i g :: es₂ →
        (t.run (es₁ ++ mid)).live? c.key = some e := by
  have hlook := (Store.Drops.peekEntry (t.run es).store (t.run es).now c.key).nextVersion
  obtain ⟨state, hturn, -, -⟩ := after_step hc f
  rw [writesBy, if_pos rfl] at hwrites
  rw [run_concat]
  generalize ((t.run es).after (.step i f)).store = s at hturn hwrites ⊢
  generalize c.shown (t.run es).cache = seen at hturn
  -- All steps but the write leave the version as it is, which `hwrites` rules out.
  cases hturn with
  | giveUp _ => omega
  | decline _ _ _ => omega
  | map _ _ _ _ => omega
  | lose _ _ _ _ _ => omega
  | rest _ _ => omega
  | write left token v hstate hv =>
    obtain ⟨es₁, g, es₂, hes, hseen, hg, htoken⟩ := (h.progress hc).mapped left token v hstate
    -- An entry with the version that was read has been live since then.
    have hkept : ∀ e, (t.run es).live? c.key = some e → ∀ mid, mid <+: .step i g :: es₂ →
        (t.run (es₁ ++ mid)).live? c.key = some e := by
      intro e he mid hmid
      rw [he, htoken] at hv
      obtain ⟨e₁, he₁, hversion⟩ := Option.map_eq_some_iff.1 hv.symm
      have hlt := dated_run hdated es₁ c.key e₁ (live?_eq_some_iff.1 he₁).1
      rw [hes, run_append] at he
      rw [run_append]
      exact live?_of_live? he (hversion ▸ hlt) hmid
    -- So the mapper was shown what is live now; if it was shown nothing, nothing is live now.
    have hsame : (t.run es₁).live? c.key = (t.run es).live? c.key := by
      cases he : (t.run es).live? c.key with
      | some e =>
        have hfirst := hkept e he [] List.nil_prefix
        rwa [List.append_nil] at hfirst
      | none =>
        rw [he, htoken] at hv
        exact Option.map_eq_none_iff.1 hv.symm
    rw [hsame] at hseen hg
    refine ⟨es₁, g, es₂, v, hes, hseen, hg, ?_, hkept⟩
    rw [Store.entries_set, if_pos BEq.rfl, hlook]

end Traffic

end CacheLayer
