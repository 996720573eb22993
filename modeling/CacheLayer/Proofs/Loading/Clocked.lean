import CacheLayer.Proofs.Loading.Sites
import CacheLayer.Proofs.Store.Remembered
import CacheLayer.Span
import CacheLayer.Stamped
/-!
# A refreshing delegate with its clock

A read ends when its values are there: the reader takes them and goes, and whatever of them is old
enough is to be loaded again. From then on somebody is starting a reload, and what becomes of that
depends on the failures that are remembered. They are kept in a bounded store, so that a failure may
be forgotten before its time when enough other keys have failed since.

## Key results

- `RefreshDelegate.finish?_cases`: how a read ends
- `RefreshDelegate.Moves.loaderCall?_reload`: only the end of a start calls the loader in the
  background
- `Clocked.Sound.run`: what is remembered of failures, through all events
-/

namespace CacheLayer

variable {κ ν : Type} [BEq κ] [Hashable κ]

/-! ## Ends of reads -/

/-- A read of the given keys: of the first one, or of all of them. There is none without keys. -/
def Read.of? (single : Bool) : List κ → Option (Read κ)
  | [] => none
  | k :: ks => some (if single then .one k else .many (k :: ks))

/-- Whether one key is read, and not several. -/
def Read.single : Read κ → Bool
  | one _ => true
  | many _ => false

omit [BEq κ] [Hashable κ] in
/-- A read of the given keys is of all of them, if several are only given where several may be
read. -/
theorem Read.keys_of? {single : Bool} {ks : List κ} {r : Read κ} (h : of? single ks = some r)
    (hlen : single = true → ks.length ≤ 1) : r.keys = ks ∧ r.single = single := by
  cases ks with
  | nil => cases h
  | cons k ks =>
    obtain rfl := Option.some.inj h
    cases single with
    | false => exact ⟨rfl, rfl⟩
    | true =>
      have hnil : ks = [] :=
        List.eq_nil_of_length_eq_zero (Nat.le_zero.1 (Nat.le_of_succ_le_succ (hlen rfl)))
      rw [hnil]
      exact ⟨rfl, rfl⟩

omit [BEq κ] [Hashable κ] in
/-- A read of one key has one key at most. -/
theorem Read.length_keys_of_single (r : Read κ) (h : r.single = true) : r.keys.length ≤ 1 := by
  cases r with
  | one k => exact Nat.le_refl 1
  | many ks => cases h

/-- The same result with other values. -/
def ReadResult.map {β : Type} (f : ν → β) : ReadResult κ ν → ReadResult κ β
  | one r => .one (r.map fun v? => v?.map f)
  | many r => .many (r.map fun found => found.map fun _ v => f v)

namespace Caller

/-- What a caller has got for a key. -/
def got? (c : Caller κ) (k : κ) : ReadResult κ ν → Option ν
  | .one (.ok v?) => if c.pending.head?.any fun p => p.1 == k then v? else none
  | .many (.ok found) => found[k]?
  | _ => none

/-- The keys whose values are stale. -/
def staleKeys (stale : ν → Bool) (c : Caller κ) : ReadResult κ ν → List κ
  | .one (.ok (some v)) => if stale v then (c.pending.head?.map Prod.fst).toList else []
  | .many (.ok found) => (found.filter fun _ v => stale v).keys
  | _ => []

/-- A read of one key has at most one stale key. -/
theorem length_staleKeys {c : Caller κ} {r : ReadResult κ ν}
    (hform : (c.single = true ∧ ∃ o, r = .one o) ∨ (c.single = false ∧ ∃ o, r = .many o))
    (stale : ν → Bool) (hsingle : c.single = true) : (c.staleKeys stale r).length ≤ 1 := by
  rcases hform with ⟨-, o, rfl⟩ | ⟨hmany, -⟩
  · rcases o with e | _ | v
    · exact Nat.zero_le 1
    · exact Nat.zero_le 1
    · simp only [staleKeys]
      split
      · cases c.pending.head? <;> simp
      · exact Nat.zero_le 1
  · rw [hsingle] at hmany
    cases hmany

variable [LawfulBEq κ]

/-- The stale keys are those that the caller has got a stale value for. -/
theorem mem_staleKeys {stale : ν → Bool} {c : Caller κ} {r : ReadResult κ ν} {k : κ} :
    k ∈ c.staleKeys stale r ↔ ∃ v, c.got? k r = some v ∧ stale v = true := by
  rcases r with (e | _ | v) | (e | found)
  · simp [staleKeys, got?]
  · simp [staleKeys, got?]
  · cases hp : c.pending.head? with
    | none => simp [staleKeys, got?, hp]
    | some p =>
      by_cases hv : stale v
      · by_cases hk : p.1 = k
        · simp [staleKeys, got?, hp, hv, hk]
        · simp [staleKeys, got?, hp, hv, hk, Ne.symm hk]
      · simp [staleKeys, got?, hp, hv]
  · simp [staleKeys, got?]
  · simp only [staleKeys, got?, Std.HashMap.mem_keys, Std.HashMap.mem_iff_isSome_getElem?,
      Std.HashMap.getElem?_filter', Option.isSome_iff_exists, Option.filter_eq_some_iff]

/-- No key is stale twice. -/
theorem nodup_staleKeys (stale : ν → Bool) (c : Caller κ) (r : ReadResult κ ν) :
    (c.staleKeys stale r).Nodup := by
  rcases r with (e | _ | v) | (e | found)
  · exact .nil
  · exact .nil
  · simp only [staleKeys]
    split
    · cases c.pending.head? <;> simp
    · exact .nil
  · exact .nil
  · exact Std.HashMap.distinct_keys.imp fun hne heq => by simp [heq] at hne

end Caller

/-- The call of the loader with which a start ends, if there is a key left to be loaded. -/
def Starter.call? (st : Starter κ) : Option (Read κ) :=
  Read.of? st.single (st.guards.map Guard.key)

omit [BEq κ] [Hashable κ] in
/-- The call is for the keys whose flights were started, and for several keys if several were
read. -/
theorem Starter.Sound.call {st : Starter κ} (h : st.Sound) {call : Read κ}
    (hcall : st.call? = some call) :
    call.keys = st.guards.map Guard.key ∧ call.single = st.single := by
  refine Read.keys_of? hcall fun hsingle => ?_
  rw [List.length_map]
  exact Nat.le_trans (Nat.le_add_left _ _) (h hsingle)

namespace RefreshDelegate

/-- Ends a read: the caller takes its values and goes, and what it has found stale is to be loaded
again. The stale keys come in the given order. -/
def finish? (stale : ν → Bool) (d : RefreshDelegate κ ν) (caller : Nat) (order : List κ) :
    Option (RefreshDelegate κ ν) := do
  let c ← d.delegate.callers[caller]?
  let r ← d.delegate.result? caller
  let left : RefreshDelegate κ ν := { d with delegate := d.delegate.leave caller }
  if order.isPerm (c.staleKeys stale r) then
    match Read.of? c.single order with
    | none => some left
    | some again => some (left.refresh again)
  else none

/-- What a read gives its caller is one value for one key, and values by their keys for several. -/
theorem result?_cases {d : Delegate κ ν} {i : Nat} {r : ReadResult κ ν}
    (h : d.result? i = some r) : ∃ c, d.callers[i]? = some c ∧ c.waiting = true ∧
      ((c.single = true ∧ ∃ o, r = .one o) ∨ (c.single = false ∧ ∃ o, r = .many o)) := by
  simp only [Delegate.result?, Option.bind_eq_bind, Option.bind_eq_some_iff] at h
  obtain ⟨c, hc, batch, -, h⟩ := h
  refine ⟨c, hc, ?_⟩
  by_cases hwaiting : c.waiting = true
  · rw [if_neg (by simpa using hwaiting)] at h
    refine ⟨hwaiting, ?_⟩
    cases hsingle : c.single with
    | true =>
      rw [if_pos hsingle] at h
      obtain ⟨p, -, rfl⟩ := Option.map_eq_some_iff.1 h
      exact .inl ⟨rfl, _, rfl⟩
    | false =>
      rw [if_neg (by simp [hsingle])] at h
      obtain rfl := Option.some.inj h
      exact .inr ⟨rfl, _, rfl⟩
  · rw [if_pos (by simpa using hwaiting)] at h
    cases h

/-- The delegate after a caller has gone. -/
def left (d : RefreshDelegate κ ν) (caller : Nat) : RefreshDelegate κ ν :=
  { d with delegate := d.delegate.leave caller }

/-- How a read ends: the caller goes, and if it has found stale keys, they are to be loaded again.
-/
theorem finish?_cases [LawfulBEq κ] {d d' : RefreshDelegate κ ν} {stale : ν → Bool}
    {caller : Nat} {order : List κ} (h : d.finish? stale caller order = some d') :
    ∃ c r, d.delegate.callers[caller]? = some c ∧ c.waiting = true ∧
      d.delegate.result? caller = some r ∧ order.Perm (c.staleKeys stale r) ∧
      ((order = [] ∧ d' = d.left caller) ∨
        ∃ again : Read κ, order ≠ [] ∧ again.keys = order ∧ again.single = c.single ∧
          d' = (d.left caller).refresh again) := by
  simp only [finish?, Option.bind_eq_bind, Option.bind_eq_some_iff] at h
  obtain ⟨c, hc, r, hr, h⟩ := h
  obtain ⟨c', hc', hwaiting, hform⟩ := result?_cases hr
  obtain rfl := Option.some.inj (hc.symm.trans hc')
  split at h
  · next hperm =>
    have hperm' := List.isPerm_iff.1 hperm
    have hlen : c.single = true → order.length ≤ 1 := by
      rw [hperm'.length_eq]
      exact Caller.length_staleKeys hform stale
    refine ⟨c, r, hc, hwaiting, hr, hperm', ?_⟩
    -- Without stale keys the caller goes and that is all.
    cases order with
    | nil => exact .inl ⟨rfl, (Option.some.inj h).symm⟩
    | cons k ks =>
      obtain ⟨hkeys, hsingle⟩ := Read.keys_of? (r := if c.single then .one k else .many (k :: ks))
        rfl hlen
      exact .inr ⟨_, List.cons_ne_nil k ks, hkeys, hsingle, (Option.some.inj h).symm⟩
  · exact absurd h (by simp)

/-- The end of a read leaves the reloads alone, and what is remembered of failures. -/
theorem finish?_kept [LawfulBEq κ] {d d' : RefreshDelegate κ ν} {stale : ν → Bool}
    {caller : Nat} {order : List κ} (h : d.finish? stale caller order = some d') :
    d'.delegate = d.delegate.leave caller ∧ d'.flights = d.flights ∧ d'.reloads = d.reloads ∧
      d'.next = d.next ∧ d'.failures = d.failures := by
  obtain ⟨c, r, -, -, -, -, ⟨-, rfl⟩ | ⟨again, -, -, -, rfl⟩⟩ :=
    finish?_cases h
  · exact ⟨rfl, rfl, rfl, rfl, rfl⟩
  · exact ⟨rfl, rfl, rfl, rfl, rfl⟩

/-- The end of a read keeps the invariant. -/
theorem Inv.finish [LawfulBEq κ] {d d' : RefreshDelegate κ ν} (h : d.Inv) {stale : ν → Bool}
    {caller : Nat} {order : List κ} (hf : d.finish? stale caller order = some d') : d'.Inv := by
  obtain ⟨c, r, hc, hw, -, -, hend⟩ := finish?_cases hf
  have hleft : (d.left caller).Inv := h.moves (.loading (.leave caller) _ (.leave caller c hc hw))
  rcases hend with ⟨-, rfl⟩ | ⟨again, -, -, -, rfl⟩
  · exact hleft
  · exact hleft.moves (.refresh again)

/-! ## Keys that are being reloaded -/

/-- Whether a key is being reloaded: from when it is registered until its guard is dropped. -/
def Reloading (d : RefreshDelegate κ ν) (k : κ) : Prop := ∃ i, ∃ g ∈ d.held i, g.key = k

/-- A key is being reloaded if it is registered. -/
theorem Inv.reloading_iff [LawfulBEq κ] {d : RefreshDelegate κ ν} (h : d.Inv) {k : κ} :
    d.Reloading k ↔ d.flights.registry[k]? ≠ none := by
  rw [Option.ne_none_iff_exists']
  simp only [h.guarded.registered]
  constructor
  · rintro ⟨i, g, hg, rfl⟩
    exact ⟨g.promise, i, hg⟩
  · rintro ⟨p, i, hg⟩
    exact ⟨i, _, hg, rfl⟩

/-! ## Calls of the loader in the background -/

/-- The question of a reload is the call of the loader with which its start ends. -/
private theorem question?_loaderCall? (st : Starter κ) :
    (st.question? : Option (ReloadQuestion κ ν)).bind ReloadQuestion.loaderCall? = st.call? := by
  obtain ⟨single, todo, cleared?, guards⟩ := st
  cases single <;> cases guards <;> rfl

/-- No call is outstanding under the number of the next reload, which was never used. -/
theorem Inv.loaderCall?_next {d : RefreshDelegate κ ν} (h : d.Inv) :
    d.loaderCall? (.reload d.next) = none := by
  cases hr : d.reloads[d.next]? with
  | none => rw [loaderCall?, hr, Option.bind_none]
  | some r => exact absurd (h.reload_lt hr) (Nat.lt_irrefl _)

/-- The end of a start is one call of the loader, for all keys whose flights were started. -/
theorem Inv.loaderCall?_launch {d : RefreshDelegate κ ν} (h : d.Inv) (i : Nat) (st : Starter κ)
    (j : Nat) : (d.launch i st).loaderCall? (.reload j) =
      if j = d.next then st.call? else d.loaderCall? (.reload j) := by
  have hcall := question?_loaderCall? (ν := ν) st
  simp only [RefreshDelegate.launch]
  split
  · next hq =>
    rw [hq, Option.bind_none] at hcall
    split
    · next hj =>
      rw [← hcall, hj]
      exact h.loaderCall?_next
    · rfl
  · next q hq =>
    rw [hq, Option.bind_some] at hcall
    simp only [loaderCall?, Delegate.get_insert]
    split
    · rw [← hcall]
      rfl
    · rfl

/-- The loader is called for a reload at once, when the reload starts. -/
def Prompt (d : RefreshDelegate κ ν) : Prop :=
  ∀ (i : Nat) (r : Reload κ ν) (q : ReloadQuestion κ ν) (call : Read κ), d.reloads[i]? = some r →
    r.question? = some q → q.loaderCall? = some call → r.asked = true

/-- A new delegate has no reloads. -/
theorem Prompt.ofRetry (retry : Nat) :
    (RefreshDelegate.ofRetry retry : RefreshDelegate κ ν).Prompt := by
  intro i r q call hr
  simp [RefreshDelegate.ofRetry] at hr

/-- After a reply a reload has nothing more to ask the loader. -/
private theorem loaderCall?_resume {q q' : ReloadQuestion κ ν} {answer : Reply κ ν} {r : Reload κ ν}
    (h : Reload.resume q answer = some r) (hq : r.question? = some q') : q'.loaderCall? = none := by
  -- What is asked after a load is a write or a deletion, and after these nothing.
  cases q <;> cases answer <;>
    simp only [Reload.resume, Option.some.injEq, reduceCtorEq] at h <;> subst h
  case load.load g answer =>
    rcases ho : answer.outcome with e | _ | v <;> rw [ho] at hq
    · simp [Reload.afterLoad, Reload.failed] at hq
    · simp only [Reload.afterLoad, Reload.asking, Option.some.injEq] at hq
      rw [← hq]
      rfl
    · simp only [Reload.afterLoad, Reload.asking, Option.some.injEq] at hq
      rw [← hq]
      rfl
  case write.written g v answer => simp [Reload.ending] at hq
  case delete.written g answer => simp [Reload.ending] at hq
  case loadMany.loadMany gs answer =>
    rcases ho : answer.outcome with e | entries <;> rw [ho] at hq
    · simp [Reload.afterLoadMany, Reload.failed] at hq
    · simp only [Reload.afterLoadMany] at hq
      split at hq
      · simp [Reload.ending] at hq
      · simp only [Reload.asking, Option.some.injEq] at hq
        rw [← hq]
        rfl
  case writeMany.written gs entries answer => simp [Reload.ending] at hq

/-- Putting a reload back that has nothing to ask the loader, unless it has asked for it before, is
no call of the loader. -/
private theorem loaderCall?_putReload {d d' : RefreshDelegate κ ν} {i : Nat} {r r' : Reload κ ν}
    (hprompt : d.Prompt) (hr : d.reloads[i]? = some r)
    (hreloads : d'.reloads = putReload d.reloads i r')
    (hsame : ∀ q call, r'.question? = some q → q.loaderCall? = some call →
      r.question? = some q ∧ r'.asked = r.asked) :
    d'.Prompt ∧ ∀ j call, d'.loaderCall? (.reload j) = some call →
      d.loaderCall? (.reload j) = some call := by
  constructor
  · -- The delegate stays prompt: a question to the loader is one that was asked before.
    intro j rj q call hj hq hcall
    rw [hreloads, get_putReload] at hj
    by_cases hji : j = i
    · rw [if_pos hji] at hj
      split at hj
      · exact absurd hj (by simp)
      · obtain rfl := Option.some.inj hj
        obtain ⟨hq', hasked⟩ := hsame q call hq hcall
        rw [hasked]
        exact hprompt i r q call hr hq' hcall
    · rw [if_neg hji] at hj
      exact hprompt j rj q call hj hq hcall
  · -- And so there is no new call.
    intro j call hcall
    simp only [loaderCall?, hreloads, get_putReload] at hcall ⊢
    by_cases hji : j = i
    · rw [if_pos hji] at hcall
      split at hcall
      · exact absurd hcall (by simp)
      · rw [Option.bind_some, Reload.loaderCall?] at hcall
        split at hcall
        · next hasked =>
          obtain ⟨q, hq, hq'⟩ := Option.bind_eq_some_iff.1 hcall
          obtain ⟨hsame, hasked'⟩ := hsame q call hq hq'
          rw [hji, hr, Option.bind_some, Reload.loaderCall?, ← hasked', if_pos hasked, hsame]
          exact hq'
        · exact absurd hcall (by simp)
    · rw [if_neg hji] at hcall
      exact hcall

/-- A reload that starts has asked the loader. -/
private theorem Prompt.launch {d : RefreshDelegate κ ν} (hprompt : d.Prompt) (i : Nat)
    (st : Starter κ) : (d.launch i st).Prompt := by
  intro j r q call hr hq hcall
  simp only [RefreshDelegate.launch] at hr
  split at hr
  · exact hprompt j r q call hr hq hcall
  · simp only [Delegate.get_insert] at hr
    split at hr
    · rw [← Option.some.inj hr]
    · exact hprompt j r q call hr hq hcall

/-- Only the last step of a start calls the loader in the background. -/
theorem Moves.loaderCall?_reload {d d' : RefreshDelegate κ ν} {s : Step κ ν} (hm : Moves d s d')
    (hprompt : d.Prompt) : d'.Prompt ∧
      ((∀ j call, d'.loaderCall? (.reload j) = some call → d.loaderCall? (.reload j) = some call) ∨
        ∃ now i st, s = .advance now i ∧ d.starters[i]? = some st ∧ st.cleared? = none ∧
          st.todo = [] ∧ d' = d.launch i st) := by
  cases hm with
  | loading s delegate hs => exact ⟨hprompt, .inl fun j call hcall => hcall⟩
  | refresh stale => exact ⟨hprompt, .inl fun j call hcall => hcall⟩
  | lookUp now i st k todo hst hcleared htodo => exact ⟨hprompt, .inl fun j call hcall => hcall⟩
  | register now i st k hst hcleared => exact ⟨hprompt, .inl fun j call hcall => hcall⟩
  | launch now i st hst hcleared htodo =>
    exact ⟨hprompt.launch i st, .inr ⟨now, i, st, rfl, hst, hcleared, htodo, rfl⟩⟩
  | chore now i c rest hr =>
    have hreloads : (d.chore now i c rest).reloads = putReload d.reloads i rest := by
      cases c <;> rfl
    exact (loaderCall?_putReload hprompt hr hreloads fun q call hq _ => ⟨hq, rfl⟩).imp_right .inl
  | ask i q hr =>
    have hreloads : (d.setReload i ⟨[], some q, true⟩).reloads =
        putReload d.reloads i ⟨[], some q, true⟩ := rfl
    -- What is asked now is no call of the loader, which would have been asked before.
    refine (loaderCall?_putReload hprompt hr hreloads fun q' call hq hcall => ?_).imp_right .inl
    exact ⟨hq, (hprompt i _ q' call hr hq hcall).symm⟩
  | reply i q answer r hr hresume =>
    refine (loaderCall?_putReload hprompt hr rfl fun q' call hq hcall => ?_).imp_right .inl
    rw [loaderCall?_resume hresume hq] at hcall
    exact absurd hcall (by simp)
  | tear i q asked hr =>
    refine (loaderCall?_putReload hprompt hr rfl fun q' call hq hcall => ?_).imp_right .inl
    simp [Reload.torn, Reload.ending] at hq

end RefreshDelegate

/-! ## A delegate with its clock -/

/-- The settings of a refreshing delegate. -/
structure RefreshSetting where
  /-- What the wall clock shows at the first instant. -/
  epoch : Nat
  /-- The age from which a value is loaded again. -/
  refreshAfter : Nat
  /-- How long a key is left alone whose reload has failed. -/
  retry : Nat

/-- Whether a value is to be loaded again at an instant. -/
def RefreshSetting.Stale (p : RefreshSetting) (now : Nat) (v : Stamped ν) : Prop :=
  v.IsStale (Span.toMillis p.refreshAfter) (wallClock p.epoch now)

instance (p : RefreshSetting) (now : Nat) (v : Stamped ν) : Decidable (p.Stale now v) :=
  inferInstanceAs (Decidable (v.IsStale _ _))

/-- A refreshing delegate with its clock. -/
structure Clocked (κ ν : Type) [BEq κ] [Hashable κ] where
  core : RefreshDelegate κ (Stamped ν)
  /-- The present instant. -/
  now : Nat

namespace Clocked

/-- What can happen. -/
inductive Event (κ ν : Type) [BEq κ] [Hashable κ] where
  /-- A step of the delegate, with a reply of the cache or the loader if it takes one. -/
  | own (s : RefreshDelegate.Step κ (Stamped ν))
  /-- A read ends; its stale keys come in an order that nobody can tell beforehand. -/
  | finish (caller : Nat) (order : List κ)
  /-- Time passes. -/
  | wait (span : Nat)

/-- A new delegate. -/
def start (p : RefreshSetting) : Clocked κ ν := ⟨.ofRetry p.retry, 0⟩

/-- Whether a step happens by itself at an instant. Stale keys come from the end of a read only. -/
def Allows (now : Nat) : RefreshDelegate.Step κ (Stamped ν) → Bool
  | .refresh _ => false
  | .advance t _ => t == now
  | .chore t _ => t == now
  | _ => true

/-- The delegate after an event, if the event can happen. -/
def after? (p : RefreshSetting) (w : Clocked κ ν) : Event κ ν → Option (Clocked κ ν)
  | .own s =>
    if Allows w.now s then (w.core.step? s).map fun core => { w with core := core } else none
  | .finish caller order =>
    (w.core.finish? (fun v => p.Stale w.now v) caller order).map
      fun core => { w with core := core }
  | .wait span => some { w with now := w.now + span }

/-- The delegate after a run, if the run can happen. -/
def run? (p : RefreshSetting) (w : Clocked κ ν) : List (Event κ ν) → Option (Clocked κ ν)
  | [] => some w
  | e :: es => (w.after? p e).bind fun w' => w'.run? p es

/-- What a caller is answered in an event, which is without stamps. -/
def answer? (w : Clocked κ ν) : Event κ ν → Option (ReadResult κ ν)
  | .finish caller _ => (w.core.delegate.result? caller).map (ReadResult.map Stamped.value)
  | _ => none

/-- The failures that are recorded in an event: those of the keys of a reload, when the loader has
failed it. -/
def recorded (w : Clocked κ ν) : Event κ ν → List (κ × Nat)
  | .own (.chore now i) =>
    match w.core.reloads[i]? with
    | some ⟨.remember ks :: _, _, _⟩ => ks.map fun k => (k, now)
    | _ => []
  | _ => []

/-- The failures that are recorded in a run, in the order of time. -/
def failures (p : RefreshSetting) (w : Clocked κ ν) : List (Event κ ν) → List (κ × Nat)
  | [] => []
  | e :: es =>
    match w.after? p e with
    | none => []
    | some w' => w.recorded e ++ w'.failures p es

/-- What is true of a refreshing delegate at every moment of a run, after the given failures. -/
structure Sound (p : RefreshSetting) (history : List (κ × Nat)) (w : Clocked κ ν) : Prop where
  inv : w.core.Inv
  prompt : w.core.Prompt
  recalls : w.core.failures.Recalls maxFailures p.retry w.now history

/-- A reload is started in an event: the loader is called under the number `i`. -/
def Starts (w w' : Clocked κ ν) (i : Nat) (call : Read κ) : Prop :=
  w.core.loaderCall? (.reload i) ≠ some call ∧ w'.core.loaderCall? (.reload i) = some call

/-- An event is the end of a read that has got a stored value for a key. -/
def Obtains (w : Clocked κ ν) (e : Event κ ν) (k : κ) (v : Stamped ν) : Prop :=
  ∃ caller order c r, e = .finish caller order ∧ w.core.delegate.callers[caller]? = some c ∧
    w.core.delegate.result? caller = some r ∧ c.got? k r = some v

variable {p : RefreshSetting} {history : List (κ × Nat)} {w w' : Clocked κ ν} {e : Event κ ν}
  {es : List (Event κ ν)}

/-! ## Runs -/

theorem run?_append (p : RefreshSetting) (w : Clocked κ ν) (es es' : List (Event κ ν)) :
    w.run? p (es ++ es') = (w.run? p es).bind fun w' => w'.run? p es' := by
  induction es generalizing w with
  | nil => rfl
  | cons e es ih =>
    rw [List.cons_append, run?, run?, Option.bind_assoc]
    exact congrArg _ (funext ih)

theorem failures_cons (he : w.after? p e = some w') (es : List (Event κ ν)) :
    w.failures p (e :: es) = w.recorded e ++ w'.failures p es := by
  simp only [failures, he]

theorem failures_append (hrun : w.run? p es = some w') (es' : List (Event κ ν)) :
    w.failures p (es ++ es') = w.failures p es ++ w'.failures p es' := by
  induction es generalizing w with
  | nil =>
    obtain rfl := Option.some.inj hrun
    rfl
  | cons e es ih =>
    obtain ⟨w₁, he, hes⟩ := Option.bind_eq_some_iff.1 hrun
    rw [List.cons_append, failures_cons he, failures_cons he, ih hes, List.append_assoc]

/-- An event that is a step of the delegate. -/
theorem moves_of_after? {s : RefreshDelegate.Step κ (Stamped ν)}
    (he : w.after? p (.own s) = some w') :
    Allows w.now s = true ∧ w.core.Moves s w'.core ∧ w'.now = w.now := by
  simp only [after?] at he
  split at he
  · next hs =>
    obtain ⟨core, hcore, rfl⟩ := Option.map_eq_some_iff.1 he
    exact ⟨hs, RefreshDelegate.moves_of_step? hcore, rfl⟩
  · cases he

/-- A starter can take its next step at once. -/
theorem after?_advance {i : Nat} {st : Starter κ} (hst : w.core.starters[i]? = some st) :
    w.after? p (.own (.advance w.now i)) = some ⟨w.core.advance w.now i st, w.now⟩ := by
  simp only [after?, Allows, beq_self_eq_true, if_true, RefreshDelegate.step?, hst, Option.map_some]

/-! ## What is kept -/

/-- A new delegate knows of no failures. -/
theorem Sound.start (p : RefreshSetting) : (Clocked.start p : Clocked κ ν).Sound p [] where
  inv := .ofRetry p.retry
  prompt := .ofRetry p.retry
  recalls := .ofLimits maxFailures p.retry 0

variable [LawfulBEq κ]

/-- A step keeps what is known of failures, unless it records some. -/
private theorem Sound.own (h : w.Sound p history) {s : RefreshDelegate.Step κ (Stamped ν)}
    (hs : Allows w.now s = true) {core : RefreshDelegate κ (Stamped ν)}
    (hm : w.core.Moves s core) :
    (⟨core, w.now⟩ : Clocked κ ν).Sound p (history ++ w.recorded (.own s)) := by
  refine ⟨h.inv.moves hm, (hm.loaderCall?_reload h.prompt).1, ?_⟩
  have hrecalls := h.recalls
  have hnothing : history ++ [] = history := List.append_nil history
  cases hm with
  | loading s delegate hm => exact hnothing.symm ▸ hrecalls
  | refresh stale => exact absurd hs Bool.false_ne_true
  | lookUp now i st k todo hst hcleared htodo =>
    -- Looking for failures forgets none.
    obtain rfl : now = w.now := eq_of_beq hs
    exact hnothing.symm ▸ hrecalls.peek k
  | register now i st k hst hcleared => exact hnothing.symm ▸ hrecalls
  | launch now i st hst hcleared htodo =>
    have hrecorded : w.recorded (.own (.advance now i)) = [] := rfl
    rw [hrecorded, hnothing, RefreshDelegate.launch_failures]
    exact hrecalls
  | chore now i c rest hr =>
    obtain rfl : now = w.now := eq_of_beq hs
    cases c with
    | onFlights c =>
      have hrecorded : w.recorded (.own (.chore w.now i)) = [] := by
        simp [recorded, hr]
      rw [hrecorded, hnothing]
      exact hrecalls
    | remember ks =>
      -- The only step that records anything.
      have hrecorded : w.recorded (.own (.chore w.now i)) = ks.map fun k => (k, w.now) := by
        simp [recorded, hr]
      rw [hrecorded]
      exact hrecalls.setAll (by decide) ks
  | ask i q hr => exact hnothing.symm ▸ hrecalls
  | reply i q answer r hr hresume => exact hnothing.symm ▸ hrecalls
  | tear i q asked hr => exact hnothing.symm ▸ hrecalls

/-- Every event keeps what is true of the delegate, and what it records is remembered from then
on. -/
theorem Sound.after (h : w.Sound p history) (he : w.after? p e = some w') :
    w'.Sound p (history ++ w.recorded e) := by
  cases e with
  | own s =>
    obtain ⟨hs, hm, hnow⟩ := moves_of_after? he
    obtain ⟨core, now⟩ := w'
    obtain rfl : now = w.now := hnow
    exact h.own hs hm
  | finish caller order =>
    obtain ⟨core, hcore, rfl⟩ := Option.map_eq_some_iff.1 he
    -- The end of a read touches neither reloads nor failures.
    obtain ⟨-, -, hreloads, -, hfailures⟩ := RefreshDelegate.finish?_kept hcore
    refine ⟨h.inv.finish hcore, ?_, ?_⟩
    · intro i r q call hr
      exact h.prompt i r q call (hreloads ▸ hr)
    · simp only [recorded, List.append_nil, hfailures]
      exact h.recalls
  | wait span =>
    obtain rfl := Option.some.inj he
    -- Failures grow older, and some of them too old.
    simp only [recorded, List.append_nil]
    exact ⟨h.inv, h.prompt, h.recalls.later (Nat.le_add_right _ _)⟩

/-- What is true through a whole run. -/
theorem Sound.run (h : w.Sound p history) (hrun : w.run? p es = some w') :
    w'.Sound p (history ++ w.failures p es) := by
  induction es generalizing w history with
  | nil =>
    obtain rfl := Option.some.inj hrun
    simpa [failures] using h
  | cons e es ih =>
    obtain ⟨w₁, he, hrun⟩ := Option.bind_eq_some_iff.1 hrun
    have hrest := ih (h.after he) hrun
    simpa [failures, he, List.append_assoc] using hrest

end Clocked

end CacheLayer
