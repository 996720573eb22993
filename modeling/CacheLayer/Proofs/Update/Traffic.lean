import CacheLayer.Local
import CacheLayer.Proofs.Store.Versions
/-!
# Updates in traffic

A local cache with any number of updates under way, each of them somewhere between its reads and its
writes, while others use the store and time passes. Every step of an update comes with the mapper of
that moment, so that a mapper may answer differently each time it is called.

## Key results

- `Updater.run_succ`: an update that is carried out in one go takes the same steps
- `Update.Turn`: what a step of an update can do
- `Traffic.moves_after`: what an event can do to the store
- `Traffic.live?_of_live?`: a live entry with an old version has been there all the time
-/

namespace CacheLayer

/-! ## Updates in one go -/

/-- An attempt is two steps, with something else in between if the mapper is called. After them the
update has its answer or goes on with one attempt less. -/
theorem Updater.run_succ {ω τ ν : Type} (u : Updater ω τ ν) (f : Mapper ν)
    (meanwhile : Nat → ω → ω) (attempts i : Nat) (w : ω) :
    let first := Update.step u f (.toRead (attempts + 1)) w
    let seen := shown (u.read w).1
    let second := Update.step u f first.1 (if seen.isEmpty then first.2 else meanwhile i first.2)
    (∃ answer, second.1 = .done answer ∧
      u.run f meanwhile (attempts + 1) i w = (answer, seen, second.2)) ∨
    (second.1 = .toRead attempts ∧
      u.run f meanwhile (attempts + 1) i w =
        ((u.run f meanwhile attempts (i + 1) second.2).1,
          seen ++ (u.run f meanwhile attempts (i + 1) second.2).2.1,
          (u.run f meanwhile attempts (i + 1) second.2).2.2)) := by
  -- The attempt may end at its read, at its mapper or at its write.
  rcases hread : u.read w with ⟨e | ⟨current, token⟩, w'⟩
  · refine .inl ⟨.error e, ?_, ?_⟩
    · simp only [Update.step, hread, Update.afterRead]
    · simp [Updater.run, Update.step, hread, Update.afterRead, shown]
  · cases hf : f current with
    | none =>
      refine .inl ⟨.ok false, ?_, ?_⟩
      · simp only [Update.step, hread, Update.afterRead, hf]
      · simp [Updater.run, Update.step, hread, Update.afterRead, hf, shown]
    | some v =>
      rcases hwrite : u.write token v (meanwhile i w') with ⟨e | _ | answer, w''⟩
      · refine .inl ⟨.error e, ?_, ?_⟩
        · simp [Update.step, hread, Update.afterRead, hf, shown, hwrite, Update.afterWrite]
        · simp [Updater.run, Update.step, hread, Update.afterRead, hf, shown, hwrite]
      · refine .inr ⟨?_, ?_⟩
        · simp [Update.step, hread, Update.afterRead, hf, shown, hwrite, Update.afterWrite]
        · simp [Updater.run, Update.step, hread, Update.afterRead, hf, shown, hwrite]
      · refine .inl ⟨.ok answer, ?_, ?_⟩
        · simp [Update.step, hread, Update.afterRead, hf, shown, hwrite, Update.afterWrite]
        · simp [Updater.run, Update.step, hread, Update.afterRead, hf, shown, hwrite]

/-! ## Traffic -/

/-- A call of an update. -/
structure Update.Call (κ ν : Type) where
  key : κ
  /-- The most attempts. -/
  attempts : Nat
  state : Update (Option Nat) ν

/-- A local cache and the calls of updates that have been made, finished ones included. -/
structure Traffic (κ ν : Type) [BEq κ] [Hashable κ] where
  cache : Swept (LocalCache κ ν)
  calls : List (Update.Call κ ν)

namespace Traffic

variable {κ ν : Type} [BEq κ] [Hashable κ]

/-- What can happen. -/
inductive Event (κ ν : Type) where
  /-- An update is called. -/
  | begin (k : κ) (attempts : Nat)
  /-- A call takes its next step; should it call its mapper, the mapper is `f`. -/
  | step (i : Nat) (f : Mapper ν)
  /-- Someone uses the store. -/
  | perform (op : Store.Op κ ν)
  /-- Time passes. -/
  | wait (span : Nat)

/-- A new cache. -/
def start (c : Config) : Traffic κ ν := ⟨.start (.ofConfig c), []⟩

/-- The store of the cache. -/
def store (t : Traffic κ ν) : Store κ ν := t.cache.state.store

/-- The present instant. -/
def now (t : Traffic κ ν) : Nat := t.cache.now

/-- The live entry of a key. -/
def live? (t : Traffic κ ν) (k : κ) : Option (Entry ν) := (t.store.peekEntry t.now k).1

/-- The traffic after an event. Steps of calls that were not made do nothing. -/
def after [BEq ν] (t : Traffic κ ν) : Event κ ν → Traffic κ ν
  | .begin k attempts => { t with calls := t.calls ++ [⟨k, attempts, .toRead attempts⟩] }
  | .step i f =>
    match t.calls[i]? with
    | none => t
    | some c =>
      let (state, cache) := Update.step (Swept.updater c.key) f c.state t.cache
      ⟨cache, t.calls.set i { c with state := state }⟩
  | .perform op => { t with cache := (t.cache.onStore fun s now => s.perform now op).2 }
  | .wait span => { t with cache := t.cache.advance span }

/-- The traffic after events. -/
def run [BEq ν] (t : Traffic κ ν) (es : List (Event κ ν)) : Traffic κ ν := es.foldl after t

@[simp] theorem run_nil [BEq ν] (t : Traffic κ ν) : t.run [] = t := rfl

@[simp] theorem run_cons [BEq ν] (t : Traffic κ ν) (e : Event κ ν) (es : List (Event κ ν)) :
    t.run (e :: es) = (t.after e).run es := rfl

theorem run_append [BEq ν] (t : Traffic κ ν) (es es' : List (Event κ ν)) :
    t.run (es ++ es') = (t.run es).run es' :=
  List.foldl_append

/-- An entry is live if it is there and not too old. -/
theorem live?_eq_some_iff {t : Traffic κ ν} {k : κ} {e : Entry ν} :
    t.live? k = some e ↔ t.store.entries[k]? = some e ∧ ¬ e.Expired t.store.ttl t.now := by
  simp only [live?, Store.peekEntry]
  cases t.store.entries[k]? with
  | none => simp
  | some e' =>
    by_cases he : e'.Expired t.store.ttl t.now
    · simp only [if_pos he]
      constructor
      · intro h
        cases h
      · intro hthere
        obtain ⟨h, hfresh⟩ := hthere
        exact absurd (Option.some.inj h ▸ he) hfresh
    · simp only [if_neg he]
      constructor
      · intro h
        exact ⟨h, Option.some.inj h ▸ he⟩
      · exact And.left

end Traffic

/-! ## What a step of an update can do -/

namespace Update

variable {κ ν : Type} [BEq κ] [Hashable κ]

/-- What the mapper of a call is shown in the next step of the call, if it is called. -/
def Call.shown (c : Call κ ν) (w : Swept (LocalCache κ ν)) : List (Option ν) :=
  match c.state with
  | .toRead (_ + 1) => CacheLayer.shown ((Swept.updater c.key).read w).1
  | _ => []

/-- What a step of a call can do: the state of the call and the store after it, and what the mapper
is shown. -/
inductive Turn (t : Traffic κ ν) (c : Call κ ν) (f : Mapper ν) :
    Update (Option Nat) ν → Store κ ν → List (Option ν) → Prop where
  /-- No attempts are left. -/
  | giveUp : c.state = .toRead 0 → Turn t c f (.done (.ok false)) t.store []
  /-- The mapper leaves the key alone. -/
  | decline (left : Nat) : c.state = .toRead (left + 1) →
    f ((t.live? c.key).map Entry.value) = none →
    Turn t c f (.done (.ok false)) (t.store.peekEntry t.now c.key).2
      [(t.live? c.key).map Entry.value]
  /-- The mapper answers with a value. -/
  | map (left : Nat) (v : ν) : c.state = .toRead (left + 1) →
    f ((t.live? c.key).map Entry.value) = some v →
    Turn t c f (.toWrite left ((t.live? c.key).map Entry.version) v)
      (t.store.peekEntry t.now c.key).2 [(t.live? c.key).map Entry.value]
  /-- The live entry has the version that was read. -/
  | write (left : Nat) (token : Option Nat) (v : ν) : c.state = .toWrite left token v →
    (t.live? c.key).map Entry.version = token →
    Turn t c f (.done (.ok true)) ((t.store.peekEntry t.now c.key).2.set t.now c.key v) []
  /-- The race is lost. -/
  | lose (left : Nat) (token : Option Nat) (v : ν) : c.state = .toWrite left token v →
    (t.live? c.key).map Entry.version ≠ token →
    Turn t c f (.toRead left) (t.store.peekEntry t.now c.key).2 []
  /-- The call is over. -/
  | rest (answer : Outcome Bool) : c.state = .done answer →
    Turn t c f (.done answer) t.store []

/-- The read of an update on a local cache is a look at the key. -/
private theorem updater_read (t : Traffic κ ν) (k : κ) :
    ((Swept.updater k).read t.cache).1 =
        .ok ((t.live? k).map Entry.value, (t.live? k).map Entry.version) ∧
      ((Swept.updater k).read t.cache).2.state.store = (t.store.peekEntry t.now k).2 ∧
      ((Swept.updater k).read t.cache).2.now = t.now := by
  refine ⟨?_, rfl, rfl⟩
  show Except.ok ((((t.live? k).map fun e => (e.value, e.version)).map Prod.fst),
    ((t.live? k).map fun e => (e.value, e.version)).map Prod.snd) = _
  rw [Option.map_map, Option.map_map]
  rfl

/-- The write of an update on a local cache is a write on condition that the version is still the
same. -/
private theorem updater_write (t : Traffic κ ν) (k : κ) (token : Option Nat) (v : ν) :
    (((Swept.updater k).write token v t.cache).1 =
          .ok (if (t.live? k).map Entry.version = token then some true else none) ∧
        ((Swept.updater k).write token v t.cache).2.state.store =
          if (t.live? k).map Entry.version = token then
            (t.store.peekEntry t.now k).2.set t.now k v
          else (t.store.peekEntry t.now k).2) ∧
      ((Swept.updater k).write token v t.cache).2.now = t.now := by
  refine ⟨?_, rfl⟩
  have hwrite : t.store.setIfVersion t.now k token v =
      if (t.live? k).map Entry.version = token then
        (true, (t.store.peekEntry t.now k).2.set t.now k v)
      else (false, (t.store.peekEntry t.now k).2) := rfl
  -- The lock is held for the look at the key and the write, so that they are one step.
  show (t.store.updateWrite t.now k token v).1 = _ ∧ (t.store.updateWrite t.now k token v).2 = _
  rw [Store.updateWrite, hwrite]
  by_cases hv : (t.live? k).map Entry.version = token
  · rw [if_pos hv, if_pos hv, if_pos hv]
    exact ⟨rfl, rfl⟩
  · rw [if_neg hv, if_neg hv, if_neg hv]
    exact ⟨rfl, rfl⟩

/-- The rules tell all that a step can do. -/
theorem turn_step (t : Traffic κ ν) (c : Call κ ν) (f : Mapper ν) :
    Turn t c f (step (Swept.updater c.key) f c.state t.cache).1
        (step (Swept.updater c.key) f c.state t.cache).2.state.store (c.shown t.cache) ∧
      (step (Swept.updater c.key) f c.state t.cache).2.now = t.now := by
  obtain ⟨k, attempts, state⟩ := c
  -- Where the call stands decides which half of an attempt is next, and the store how it ends.
  cases state with
  | toRead left =>
    cases left with
    | zero => exact ⟨.giveUp rfl, rfl⟩
    | succ left =>
      obtain ⟨hanswer, hstore, hnow⟩ := updater_read t k
      simp only [step, Call.shown, hanswer, hstore, hnow, afterRead, CacheLayer.shown, and_true]
      cases hf : f ((t.live? k).map Entry.value) with
      | none => exact .decline left rfl hf
      | some v => exact .map left v rfl hf
  | toWrite left token v =>
    obtain ⟨⟨hanswer, hstore⟩, hnow⟩ := updater_write t k token v
    simp only [step, Call.shown, hanswer, hstore, hnow, and_true]
    split
    · next hv => exact .write left token v rfl hv
    · next hv => exact .lose left token v rfl hv
  | done answer => exact ⟨.rest answer rfl, rfl⟩

/-- A step does to the store what an operation on the key does. -/
theorem Turn.moves [LawfulBEq κ] {t : Traffic κ ν} {c : Call κ ν} {f : Mapper ν}
    {state : Update (Option Nat) ν} {s : Store κ ν} {seen : List (Option ν)}
    (h : Turn t c f state s seen) : Store.Moves (some c.key) t.store s := by
  have hlook := Store.Drops.peekEntry t.store t.now c.key
  cases h with
  | giveUp _ => exact (Store.Drops.refl _).moves _
  | decline _ _ _ => exact hlook.moves _
  | map _ _ _ _ => exact hlook.moves _
  | write _ _ v _ _ => exact hlook.trans_moves (Store.moves_set _ t.now c.key v)
  | lose _ _ _ _ _ => exact hlook.moves _
  | rest _ _ => exact (Store.Drops.refl _).moves _

end Update

namespace Traffic

variable {κ ν : Type} [BEq κ] [Hashable κ] [BEq ν]

/-! ## What an event can do -/

/-- A step of a call that was not made does nothing. -/
theorem after_step_of_none {t : Traffic κ ν} {i : Nat} (hc : t.calls[i]? = none) (f : Mapper ν) :
    t.after (.step i f) = t := by
  simp only [after, hc]

/-- A step of a call that was made changes this call and the store. -/
theorem after_step {t : Traffic κ ν} {i : Nat} {c : Update.Call κ ν} (hc : t.calls[i]? = some c)
    (f : Mapper ν) : ∃ state,
    Update.Turn t c f state (t.after (.step i f)).store (c.shown t.cache) ∧
      (t.after (.step i f)).now = t.now ∧
      (t.after (.step i f)).calls = t.calls.set i { c with state := state } := by
  obtain ⟨hturn, hnow⟩ := Update.turn_step t c f
  refine ⟨(Update.step (Swept.updater c.key) f c.state t.cache).1, ?_⟩
  simp only [after, hc, and_true]
  exact ⟨hturn, hnow⟩

/-- The key that an event may write or delete. -/
def target? (t : Traffic κ ν) : Event κ ν → Option κ
  | .begin _ _ => none
  | .step i _ => t.calls[i]?.map Update.Call.key
  | .perform op => op.target?
  | .wait _ => none

/-- An event does to the store what an operation does. -/
theorem moves_after [LawfulBEq κ] (t : Traffic κ ν) (e : Event κ ν) :
    Store.Moves (t.target? e) t.store (t.after e).store := by
  cases e with
  | begin k attempts => exact (Store.Drops.refl _).moves _
  | step i f =>
    rw [target?]
    cases hc : t.calls[i]? with
    | none =>
      rw [after_step_of_none hc]
      exact (Store.Drops.refl _).moves _
    | some c =>
      obtain ⟨state, hturn, -, -⟩ := after_step hc f
      exact hturn.moves
  | perform op => exact Store.moves_perform t.store t.now op
  | wait span => exact (Store.Drops.refl _).moves _

/-- Time never goes back. -/
theorem now_le_after (t : Traffic κ ν) (e : Event κ ν) : t.now ≤ (t.after e).now := by
  cases e with
  | begin k attempts => exact Nat.le_refl _
  | step i f =>
    cases hc : t.calls[i]? with
    | none => exact Nat.le_of_eq (congrArg now (after_step_of_none hc f).symm)
    | some c =>
      obtain ⟨state, -, hnow, -⟩ := after_step hc f
      exact Nat.le_of_eq hnow.symm
  | perform op => exact Nat.le_refl _
  | wait span => exact Nat.le_add_right _ _

/-- The versions in the store have been taken at all times. -/
theorem dated_run [LawfulBEq κ] {t : Traffic κ ν} (h : t.store.Dated) (es : List (Event κ ν)) :
    (t.run es).store.Dated := by
  induction es generalizing t with
  | nil => exact h
  | cons e es ih => exact ih (h.moves (t.moves_after e))

/-- A run takes at most one tick and one version for each of its events. -/
theorem taken_run_le [LawfulBEq κ] (t : Traffic κ ν) (es : List (Event κ ν)) :
    (t.run es).store.recency.nextTick ≤ t.store.recency.nextTick + es.length ∧
      (t.run es).store.nextVersion ≤ t.store.nextVersion + es.length := by
  induction es generalizing t with
  | nil => exact ⟨Nat.le_refl _, Nat.le_refl _⟩
  | cons e es ih =>
    have hmoves := t.moves_after e
    have htick := hmoves.nextTick
    have hversion := hmoves.nextVersion
    obtain ⟨hticks, hversions⟩ := ih (t.after e)
    rw [run_cons, List.length_cons]
    omega

/-- A live entry that was written before a run has been live all the time. The proof goes backwards
through the run. -/
theorem live?_of_live? [LawfulBEq κ] {t : Traffic κ ν} {es : List (Event κ ν)} {k : κ}
    {e : Entry ν} (hlive : (t.run es).live? k = some e) (hlt : e.version < t.store.nextVersion)
    {mid : List (Event κ ν)} (hmid : mid <+: es) : (t.run mid).live? k = some e := by
  induction es generalizing t mid with
  | nil =>
    rw [List.prefix_nil.1 hmid]
    exact hlive
  | cons ev es ih =>
    have hmoves := t.moves_after ev
    have hlater : ∀ {mid}, mid <+: es → ((t.after ev).run mid).live? k = some e :=
      ih hlive (Nat.lt_of_lt_of_le hlt hmoves.nextVersion_le)
    cases mid with
    | nil =>
      obtain ⟨hentry, hfresh⟩ := live?_eq_some_iff.1 (hlater List.nil_prefix)
      refine live?_eq_some_iff.2 ⟨hmoves.entry_of_lt hentry hlt, ?_⟩
      -- What is not too old now was not too old before.
      have hnow := t.now_le_after ev
      simp only [run_nil, hmoves.ttl, Entry.Expired, Entry.age] at hfresh ⊢
      omega
    | cons ev' mid =>
      obtain ⟨rfl, hrest⟩ := List.cons_prefix_cons.1 hmid
      exact hlater hrest

end Traffic

end CacheLayer
