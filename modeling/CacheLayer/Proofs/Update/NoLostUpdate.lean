import CacheLayer.Proofs.Update.Observed
/-!
# Updates lose nothing

A successful update has written once, on top of what its mapper was shown last. So a counter that is
only incremented by updates has grown by one for each of them.

## Key results

- `Traffic.Counter.run`: a counter grows with the number of successful calls
- `Traffic.update_loses_nothing`: successful calls write once, on top of what their mapper was shown
-/

namespace CacheLayer

/-- Adds one to a counter. A counter that is not there stands at zero. -/
def increment : Mapper Nat := fun n? => some (n?.getD 0 + 1)

namespace Traffic

variable {κ ν : Type} [BEq κ] [Hashable κ]

/-! ## Counters -/

/-- Where a counter stands. -/
def count (t : Traffic κ Nat) (k : κ) : Nat := ((t.live? k).map Entry.value).getD 0

/-- How many calls for a key have succeeded. -/
def succeeded (t : Traffic κ ν) (k : κ) : Nat :=
  t.calls.countP fun c => c.key == k && c.state.hasSucceeded

/-- The entry of a key, if there is one, is not expired. -/
def Fresh (t : Traffic κ ν) (k : κ) : Prop :=
  ∀ e, t.store.entries[k]? = some e → t.live? k = some e

/-- An event that does nothing to a counter except that updates may increment it. -/
def OnlyCounts (k : κ) (t : Traffic κ Nat) : Event κ Nat → Prop
  | .step i f => ∀ c, t.calls[i]? = some c → c.key = k → f = increment
  | .perform op => op.target? ≠ some k
  | _ => True

/-- A run in which a counter is incremented by updates only, and its entry neither expires nor is
evicted. -/
def Counting (k : κ) : Traffic κ Nat → List (Event κ Nat) → Prop
  | t, [] => t.Fresh k
  | t, e :: es => t.Fresh k ∧ t.OnlyCounts k e ∧
    ((t.store.entries[k]?).isSome → ((t.after e).store.entries[k]?).isSome) ∧
    Counting k (t.after e) es

/-- What a call has to write, if anything, is one more than what it has read, and the version of
that entry has been taken. -/
structure AddsOne (s : Store κ Nat) (c : Update.Call κ Nat) : Prop where
  absent : ∀ left v, c.state = .toWrite left none v → v = 1
  present : ∀ left version v, c.state = .toWrite left (some version) v →
    version < s.nextVersion ∧
      ∀ e, s.entries[c.key]? = some e → e.version = version → v = e.value + 1

/-- What is true of a counter while it is only incremented. -/
structure Counter (t : Traffic κ Nat) (k : κ) : Prop where
  dated : t.store.Dated
  calls : ∀ c ∈ t.calls, c.key = k → AddsOne t.store c

/-- A count changes with one of the things that are counted. -/
private theorem countP_set {α : Type} (p : α → Bool) {l : List α} {i : Nat} {a : α}
    (h : l[i]? = some a) (b : α) :
    (l.set i b).countP p + (p a).toNat = l.countP p + (p b).toNat := by
  have hone : ∀ (a : α) (l : List α), (a :: l).countP p = l.countP p + (p a).toNat := by
    intro a l
    cases hp : p a with
    | true => rw [List.countP_cons_of_pos hp, Bool.toNat_true]
    | false => rw [List.countP_cons_of_neg (by simp [hp]), Bool.toNat_false, Nat.add_zero]
  induction l generalizing i with
  | nil => cases h
  | cons a' l ih =>
    cases i with
    | zero =>
      obtain rfl := Option.some.inj h
      rw [List.set_cons_zero, hone, hone]
      omega
    | succ i =>
      have hrest := ih h
      rw [List.set_cons_succ, hone, hone]
      omega

/-- An entry that is not written and not dropped stays. -/
private theorem entry_eq_of_kept {s s' : Store κ ν} {k : κ}
    (hentry : ∀ {e}, s'.entries[k]? = some e → s.entries[k]? = some e)
    (hkeep : (s.entries[k]?).isSome → (s'.entries[k]?).isSome) :
    s'.entries[k]? = s.entries[k]? := by
  cases he : s'.entries[k]? with
  | some e => exact (hentry he).symm
  | none =>
    cases he' : s.entries[k]? with
    | none => rfl
    | some e =>
      rw [he, he'] at hkeep
      exact absurd (hkeep rfl) Bool.false_ne_true

/-- Where nothing is expired, what is there is live. -/
private theorem Fresh.live?_eq {t : Traffic κ ν} {k : κ} (h : t.Fresh k) :
    t.live? k = t.store.entries[k]? := by
  cases he : t.store.entries[k]? with
  | some e => exact h e he
  | none =>
    cases he' : t.live? k with
    | none => rfl
    | some e =>
      rw [(live?_eq_some_iff.1 he').1] at he
      cases he

/-- A counter whose entry stays as it is stands where it did. -/
private theorem count_eq {t t' : Traffic κ Nat} {k : κ} (h : t.Fresh k) (h' : t'.Fresh k)
    (hentry : t'.store.entries[k]? = t.store.entries[k]?) : t'.count k = t.count k := by
  rw [count, count, h.live?_eq, h'.live?_eq, hentry]

/-! ## What calls for a counter have to write -/

/-- A call that has nothing to write adds one whenever it writes. -/
private theorem addsOne_of_ne {c : Update.Call κ Nat} (s : Store κ Nat)
    (hstate : ∀ left token v, c.state ≠ .toWrite left token v) : AddsOne s c where
  absent left v h := absurd h (hstate left none v)
  present left version v h := absurd h (hstate left (some version) v)

/-- Whatever happens to the store, a call still adds one: if the entry that it has read is gone, no
other one will ever have its version. -/
private theorem AddsOne.moves {s s' : Store κ Nat} {c : Update.Call κ Nat} {k? : Option κ}
    (h : AddsOne s c) (hmoves : Store.Moves k? s s') : AddsOne s' c where
  absent := h.absent
  present left version v hstate := by
    obtain ⟨hlt, hnext⟩ := h.present left version v hstate
    refine ⟨Nat.lt_of_lt_of_le hlt hmoves.nextVersion_le, ?_⟩
    intro e he hversion
    -- The entry has an old version, so that it was there before.
    rw [← hversion] at hlt
    exact hnext e (hmoves.entry_of_lt he hlt) hversion

/-- A call whose mapper has incremented what it was shown adds one. -/
private theorem addsOne_map {t : Traffic κ Nat} (hdated : t.store.Dated) {k : κ} {v : Nat}
    (hv : ((t.live? k).map Entry.value).getD 0 + 1 = v) (attempts left : Nat) :
    AddsOne t.store ⟨k, attempts, .toWrite left ((t.live? k).map Entry.version) v⟩ where
  absent left' v' hstate := by
    obtain ⟨-, htoken, rfl⟩ := Update.toWrite.inj hstate
    rw [Option.map_eq_none_iff.1 htoken] at hv
    exact hv.symm
  present left' version v' hstate := by
    obtain ⟨-, htoken, rfl⟩ := Update.toWrite.inj hstate
    obtain ⟨e, he, rfl⟩ := Option.map_eq_some_iff.1 htoken
    have hentry := (live?_eq_some_iff.1 he).1
    refine ⟨hdated k e hentry, ?_⟩
    intro e' he' _
    obtain rfl := Option.some.inj (hentry.symm.trans he')
    rw [he] at hv
    exact hv.symm

/-- A call that finds the version that it has read writes one more than the counter. -/
private theorem AddsOne.eq_count_add_one {t : Traffic κ Nat} {c : Update.Call κ Nat}
    (h : AddsOne t.store c) {left v : Nat} {token : Option Nat}
    (hstate : c.state = .toWrite left token v)
    (hv : (t.live? c.key).map Entry.version = token) : v = t.count c.key + 1 := by
  cases he : t.live? c.key with
  | none =>
    -- The mapper was shown nothing, and the counter stands at zero.
    rw [he] at hv
    subst hv
    rw [count, he]
    exact h.absent left v hstate
  | some e =>
    rw [he] at hv
    subst hv
    rw [count, he]
    exact (h.present left e.version v hstate).2 e (live?_eq_some_iff.1 he).1 rfl

/-! ## Events -/

/-- A step of a call leaves it with something to write that adds one. -/
private theorem addsOne_turn [LawfulBEq κ] {t : Traffic κ Nat} (hdated : t.store.Dated)
    {c : Update.Call κ Nat} {state : Update (Option Nat) Nat} {s : Store κ Nat}
    {seen : List (Option Nat)} (hturn : Update.Turn t c increment state s seen) :
    AddsOne s { c with state := state } := by
  have hmoves := hturn.moves
  cases hturn with
  | map left v hstate hf =>
    -- What the mapper has answered adds one at the moment of the read, and later too.
    exact (addsOne_map hdated (Option.some.inj hf) c.attempts left).moves hmoves
  | giveUp hstate => exact addsOne_of_ne _ nofun
  | decline left hstate hf => exact addsOne_of_ne _ nofun
  | write left token v hstate hv => exact addsOne_of_ne _ nofun
  | lose left token v hstate hv => exact addsOne_of_ne _ nofun
  | rest a hstate => exact addsOne_of_ne _ nofun

/-- A step of a call for a counter increments the counter if the call succeeds, and leaves it alone
otherwise. -/
private theorem count_turn [LawfulBEq κ] {t t' : Traffic κ Nat} {c : Update.Call κ Nat}
    (h : AddsOne t.store c) (hfresh : t.Fresh c.key) (hfresh' : t'.Fresh c.key)
    (hkeep : (t.store.entries[c.key]?).isSome → (t'.store.entries[c.key]?).isSome)
    {state : Update (Option Nat) Nat} {seen : List (Option Nat)}
    (hturn : Update.Turn t c increment state t'.store seen) :
    t'.count c.key + c.state.hasSucceeded.toNat =
      t.count c.key + state.hasSucceeded.toNat := by
  have hlook := Store.Drops.peekEntry t.store t.now c.key
  -- Unless the call writes, the entry stays.
  have hsame : t.store.Drops t'.store → t'.count c.key = t.count c.key := fun hdrops =>
    count_eq hfresh hfresh' (entry_eq_of_kept hdrops.entry hkeep)
  generalize hs : t'.store = s at hturn
  cases hturn with
  | giveUp hstate =>
    rw [hsame (hs.symm ▸ Store.Drops.refl t.store), hstate]
    rfl
  | decline left hstate hf => exact nomatch hf
  | map left v hstate hf =>
    rw [hsame (hs.symm ▸ hlook), hstate]
    rfl
  | write left token v hstate hv =>
    have hentry : t'.store.entries[c.key]? = some ⟨v, t.now, t.store.nextVersion⟩ := by
      rw [hs, Store.entries_set, if_pos BEq.rfl, hlook.nextVersion]
    -- The counter stands where the call has written it.
    have hcount : t'.count c.key = v := by
      rw [count, hfresh' _ hentry]
      rfl
    rw [hcount, h.eq_count_add_one hstate hv, hstate]
    rfl
  | lose left token v hstate hv =>
    rw [hsame (hs.symm ▸ hlook), hstate]
    rfl
  | rest a hstate =>
    rw [hsame (hs.symm ▸ Store.Drops.refl t.store), hstate]

/-- An event that has nothing to do with a counter. -/
private theorem Counter.still [LawfulBEq κ] {t : Traffic κ Nat} {k : κ} (h : Counter t k)
    (hfresh : t.Fresh k) {e : Event κ Nat} (hfresh' : (t.after e).Fresh k)
    (hkeep : (t.store.entries[k]?).isSome → ((t.after e).store.entries[k]?).isSome)
    (htarget : t.target? e ≠ some k)
    (hcalls : ∀ c ∈ (t.after e).calls, c.key = k →
      c ∈ t.calls ∨ ∀ left token v, c.state ≠ .toWrite left token v)
    (hsucceeded : (t.after e).succeeded k = t.succeeded k) :
    Counter (t.after e) k ∧
      (t.after e).count k + t.succeeded k = t.count k + (t.after e).succeeded k := by
  have hmoves := t.moves_after e
  have hentry : ∀ {e'}, (t.after e).store.entries[k]? = some e' → t.store.entries[k]? = some e' :=
    fun he => hmoves.entry_of_ne he htarget
  rw [hsucceeded, count_eq hfresh hfresh' (entry_eq_of_kept hentry hkeep)]
  refine ⟨⟨h.dated.moves hmoves, ?_⟩, rfl⟩
  intro c hc hk
  rcases hcalls c hc hk with hold | hstate
  · exact (h.calls c hold hk).moves hmoves
  · exact addsOne_of_ne _ hstate

/-- A counter goes up by one with every successful call, and only then. -/
theorem Counter.after [LawfulBEq κ] {t : Traffic κ Nat} {k : κ} (h : Counter t k)
    (hfresh : t.Fresh k) {e : Event κ Nat} (hfresh' : (t.after e).Fresh k)
    (honly : t.OnlyCounts k e)
    (hkeep : (t.store.entries[k]?).isSome → ((t.after e).store.entries[k]?).isSome) :
    Counter (t.after e) k ∧
      (t.after e).count k + t.succeeded k = t.count k + (t.after e).succeeded k := by
  cases e with
  | begin k' attempts =>
    refine h.still hfresh hfresh' hkeep (by simp [target?]) ?_ ?_
    · intro c hc hk
      rcases List.mem_append.1 hc with hc | hc
      · exact .inl hc
      · obtain rfl := List.mem_singleton.1 hc
        exact .inr (by simp)
    · simp [succeeded, Traffic.after, Update.hasSucceeded]
  | step i f =>
    cases hc : t.calls[i]? with
    | none =>
      rw [after_step_of_none hc]
      exact ⟨h, rfl⟩
    | some c =>
      obtain ⟨state, hturn, -, hcalls⟩ := after_step hc f
      have hmoves := hturn.moves
      have hsum := countP_set (fun c : Update.Call κ Nat => c.key == k && c.state.hasSucceeded) hc
        { c with state := state }
      rw [← hcalls] at hsum
      by_cases hk : c.key = k
      · -- The call is for the counter, and its mapper increments.
        subst hk
        obtain rfl := honly c hc rfl
        have hcall := h.calls c (List.mem_of_getElem? hc) rfl
        have hcount := count_turn hcall hfresh hfresh' hkeep hturn
        refine ⟨⟨h.dated.moves hmoves, ?_⟩, ?_⟩
        · intro c' hc' hk
          rw [hcalls] at hc'
          rcases List.mem_or_eq_of_mem_set hc' with hc' | rfl
          · exact (h.calls c' hc' hk).moves hmoves
          · exact addsOne_turn h.dated hturn
        · simp only [BEq.rfl, Bool.true_and] at hsum
          simp only [succeeded]
          omega
      · -- The call is for another key, so that it does not touch the counter.
        have hk' : (c.key == k) = false := by simpa using hk
        apply h.still hfresh hfresh' hkeep
        · rw [target?, hc]
          exact fun hkey => hk (Option.some.inj hkey)
        · intro c' hc' hkey
          rw [hcalls] at hc'
          rcases List.mem_or_eq_of_mem_set hc' with hc' | rfl
          · exact .inl hc'
          · exact absurd hkey hk
        · simpa [hk', succeeded] using hsum
  | perform op => exact h.still hfresh hfresh' hkeep honly (fun _ hc _ => .inl hc) rfl
  | wait span => exact h.still hfresh hfresh' hkeep (by simp [target?]) (fun _ hc _ => .inl hc) rfl

/-- In a run that only counts, a counter goes up with the number of successful calls. -/
theorem Counter.run [LawfulBEq κ] {t : Traffic κ Nat} {k : κ} {es : List (Event κ Nat)}
    (h : Counter t k) (hcounting : t.Counting k es) :
    (t.run es).count k + t.succeeded k = t.count k + (t.run es).succeeded k := by
  induction es generalizing t with
  | nil => rfl
  | cons e es ih =>
    obtain ⟨hfresh, honly, hkeep, hrest⟩ := hcounting
    -- The rest of the run begins with a fresh counter as well.
    have hfresh' : (t.after e).Fresh k := by
      cases es with
      | nil => exact hrest
      | cons e' es => exact hrest.1
    obtain ⟨hnext, hcount⟩ := h.after hfresh hfresh' honly hkeep
    have htotal := ih hnext hrest
    rw [run_cons]
    omega

/-- When no call for a counter is under way, nothing is known that could do harm to it. -/
theorem counter_of_done [LawfulBEq κ] {t : Traffic κ Nat} (h : t.store.Dated) {k : κ}
    (hdone : ∀ c ∈ t.calls, c.key = k → ∃ a, c.state = .done a) : Counter t k := by
  refine ⟨h, ?_⟩
  intro c hc hk
  obtain ⟨a, ha⟩ := hdone c hc hk
  apply addsOne_of_ne
  intro left token v hstate
  exact nomatch ha.symm.trans hstate

/-! ## All calls -/

variable [BEq ν]

/-- The calls of updates lose nothing, whatever happens between their steps.

A call has succeeded if and only if it has written once; otherwise it has not written. It never
fails, and its mapper is called at most as often as it has attempts. When it writes, the live value
of its key is what its mapper was shown last, it writes what the mapper has answered, and the entry
that was shown, if there was one, has been live all the time since the mapper was shown it.

So a counter that, from some moment on, is only incremented by updates grows by the number of the
updates that succeed, as long as its entry neither expires nor is evicted. -/
theorem update_loses_nothing [LawfulBEq κ] (config : Config) :
    (∀ (es : List (Event κ ν)) (i : Nat) (c : Update.Call κ ν),
      ((start config).run es).calls[i]? = some c →
      (c.state = .done (.ok true) ↔ writesOf i (start config) es = 1) ∧
      (c.state ≠ .done (.ok true) → writesOf i (start config) es = 0) ∧
      (∀ a, c.state = .done a → a = .ok true ∨ a = .ok false) ∧
      (shownTo i (start config) es).length ≤ c.attempts ∧
      ∀ f, writesBy i ((start config).run es) (.step i f) ≠ 0 →
        ∃ es₁ g es₂ v, es = es₁ ++ .step i g :: es₂ ∧
          shownTo i (start config) es = shownTo i (start config) es₁ ++
            [(((start config).run es).live? c.key).map Entry.value] ∧
          g ((((start config).run es).live? c.key).map Entry.value) = some v ∧
          ((start config).run (es ++ [.step i f])).store.entries[c.key]? =
            some ⟨v, ((start config).run es).now, ((start config).run es).store.nextVersion⟩ ∧
          ∀ e, ((start config).run es).live? c.key = some e → ∀ mid, mid <+: .step i g :: es₂ →
            ((start config).run (es₁ ++ mid)).live? c.key = some e) ∧
    ∀ (es es' : List (Event κ Nat)) (k : κ),
      (∀ c ∈ ((start config).run es).calls, c.key = k → ∃ a, c.state = .done a) →
      ((start config).run es).Counting k es' →
      ((start config).run (es ++ es')).count k + ((start config).run es).succeeded k =
        ((start config).run es).count k + ((start config).run (es ++ es')).succeeded k := by
  constructor
  · intro es i c hc
    have hobserved := observed_run config es
    have hprogress := hobserved.progress hc
    have hwrites := hprogress.writes
    refine ⟨?_, ?_, hprogress.answer, ?_, fun f hw => hobserved.write (dated_start config) hc hw⟩
    · rw [hwrites, ← Update.hasSucceeded_iff]
      cases c.state.hasSucceeded <;> decide
    · intro hstate
      rw [hwrites, Bool.eq_false_iff.2 (mt Update.hasSucceeded_iff.1 hstate)]
      rfl
    · have hshown := hprogress.shown_le
      omega
  · intro es es' k hdone hcounting
    rw [run_append]
    exact (counter_of_done (dated_run (dated_start config) es) hdone).run hcounting

/-- A small cache. -/
def twoEntries : Config := { maxEntries := 2, ttl := 1000 }

/-- Two calls race for one counter: both read before one of them writes, and the other one has to
try again. -/
def race : List (Event Nat Nat) :=
  [.begin 1 3, .begin 1 3, .step 0 increment, .step 1 increment, .step 0 increment,
    .step 1 increment, .wait 2, .step 1 increment, .step 1 increment]

/-- In the end the counter stands at two, and the call that had to try again has written once. -/
theorem update_loses_nothing_race :
    ((start twoEntries : Traffic Nat Nat).run race).count 1 = 2 ∧
      writesOf 1 (start twoEntries : Traffic Nat Nat) race = 1 := by
  obtain ⟨hcalls, hcounters⟩ := @update_loses_nothing Nat Nat _ _ _ _ twoEntries
  have hcounting : Counting 1 (start twoEntries : Traffic Nat Nat) race := by
    simp [Counting, Fresh, OnlyCounts, live?, store, now, start, after, race, twoEntries, increment,
      Update.step, Update.afterRead, Update.afterWrite, Swept.start, Swept.advance, Swept.updater,
      Swept.onStore, LocalCache.ofConfig, Store.ofLimits, Store.updateRead, Store.updateWrite,
      Store.peekVersioned, Store.setIfVersion, Store.peekEntry, Store.set, Store.makeRoom,
      Entry.Expired, Entry.age]
  have hends : ((start twoEntries : Traffic Nat Nat).run race).calls =
      [⟨1, 3, .done (.ok true)⟩, ⟨1, 3, .done (.ok true)⟩] := by
    simp [start, after, run, race, twoEntries, increment, Update.step, Update.afterRead,
      Update.afterWrite, Swept.start, Swept.advance, Swept.updater, Swept.onStore,
      LocalCache.ofConfig, Store.ofLimits, Store.updateRead, Store.updateWrite,
      Store.peekVersioned, Store.setIfVersion, Store.peekEntry, Store.set, Store.makeRoom,
      Entry.Expired, Entry.age]
  -- The first part of the theorem tells of the call, the second one of the counter.
  have hcall := hcalls race 1 ⟨1, 3, .done (.ok true)⟩ (by rw [hends]; rfl)
  have htotal := hcounters [] race 1 (by simp [start]) hcounting
  have hzero : ((start twoEntries : Traffic Nat Nat).run []).count 1 = 0 := by
    simp [start, count, live?, store, Swept.start, LocalCache.ofConfig, Store.ofLimits,
      Store.peekEntry]
  rw [hzero, List.nil_append, succeeded, succeeded, hends] at htotal
  exact ⟨htotal, hcall.1.1 rfl⟩

end Traffic

end CacheLayer
