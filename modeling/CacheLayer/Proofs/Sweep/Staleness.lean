import CacheLayer.Proofs.Store.Each
import CacheLayer.Proofs.Sweep.Timetable
import CacheLayer.Proofs.Update.Traffic
/-!
# How old stored entries get

A cache in memory with a sweeper in the background, while others use the cache and sleep. An entry
that is still stored has survived every sweep since it was written. So it was not expired at the
last one, and since then there was not even time for another sweep.

## Key results

- `Store.Renews`: what an operation leaves in a store was there before or is written now
- `Upkeep.Kept.after`: what holds of a cache with a sweeper goes on to hold
- `Upkeep.staleness_bounded`: how old stored entries get, what a sweep drops, and when it happens
-/

namespace CacheLayer

variable {κ ν : Type} [BEq κ] [Hashable κ]

/-! ## What operations write -/

/-- What operations make of a store at an instant: all that they write is written now. -/
structure Store.Renews (now : Nat) (s s' : Store κ ν) : Prop where
  each : ∀ {P : κ → ν → Nat → Prop}, s.Each P → (∀ k v, P k v now) → s'.Each P
  ttl : s'.ttl = s.ttl

namespace Store.Renews

variable {s s' s'' : Store κ ν} {now : Nat}

protected theorem refl (now : Nat) (s : Store κ ν) : Renews now s s := ⟨fun h _ => h, rfl⟩

protected theorem trans (h : Renews now s s') (h' : Renews now s' s'') : Renews now s s'' :=
  ⟨fun hs hnow => h'.each (h.each hs hnow) hnow, h'.ttl.trans h.ttl⟩

theorem of_drops (h : s.Drops s') : Renews now s s' := ⟨fun hs _ => hs.drops h, h.ttl⟩

variable [LawfulBEq κ]

theorem set (s : Store κ ν) (now : Nat) (k : κ) (v : ν) : Renews now s (s.set now k v) :=
  ⟨fun hs hnow => hs.set (hnow k v), (moves_set s now k v).ttl⟩

theorem perform [BEq ν] (s : Store κ ν) (now : Nat) (op : Op κ ν) :
    Renews now s (s.perform now op).2 :=
  ⟨fun hs hnow => hs.perform hnow op, (moves_perform s now op).ttl⟩

theorem getBulk (s : Store κ ν) (now : Nat) (keys : List κ) :
    Renews now s (s.getBulk now keys).2 := by
  refine ⟨fun hs _ => hs.getBulk now keys, ?_⟩
  rw [getBulk_eq]
  generalize (∅ : Std.HashMap κ ν) = found
  induction keys generalizing found s with
  | nil => rfl
  | cons k keys ih =>
    rw [List.foldl_cons, getAlso_eq]
    exact (ih _ _).trans (moves_get s now k).ttl

theorem setBulk (s : Store κ ν) (now : Nat) (entries : List (κ × ν)) :
    Renews now s (s.setBulk now entries).2 := by
  simp only [Store.setBulk]
  induction entries generalizing s with
  | nil => exact .refl now s
  | cons e entries ih => exact (set s now e.1 e.2).trans (ih _)

/-- A step of an update looks at its key, and may write it. -/
theorem of_turn {t : Traffic κ ν} {c : Update.Call κ ν} {f : Mapper ν}
    {state : Update (Option Nat) ν} {seen : List (Option ν)}
    (h : Update.Turn t c f state s seen) : Renews t.now t.store s := by
  have hlook : Renews t.now t.store (t.store.peekEntry t.now c.key).2 :=
    of_drops (Drops.peekEntry t.store t.now c.key)
  cases h with
  | giveUp _ => exact .refl _ _
  | decline _ _ _ => exact hlook
  | map _ _ _ _ => exact hlook
  | write _ _ v _ _ => exact hlook.trans (set _ _ _ v)
  | lose _ _ _ _ _ => exact hlook
  | rest _ _ => exact .refl _ _

end Store.Renews

/-! ## Sweeps of a cache -/

namespace Swept

variable [LawfulBEq κ]

theorem ttl_sweepStore (now : Nat) (c : LocalCache κ ν) :
    (sweepStore now c).store.ttl = c.store.ttl := (Store.Drops.sweep c.store now).ttl

theorem ttl_sweptAt (instants : List Nat) (c : LocalCache κ ν) :
    (sweptAt sweepStore instants c).store.ttl = c.store.ttl := by
  induction instants generalizing c with
  | nil => rfl
  | cons i instants ih => exact (ih _).trans (ttl_sweepStore i c)

/-- What is left after sweeps was there before, and none of them has found it expired. -/
theorem each_sweptAt {P : κ → ν → Nat → Prop} {c : LocalCache κ ν}
    (h : c.store.Each P) (instants : List Nat) :
    (sweptAt sweepStore instants c).store.Each fun k v t =>
      P k v t ∧ ∀ i ∈ instants, i - t < c.store.ttl := by
  induction instants generalizing c P with
  | nil => exact h.mono fun k v t ht => ⟨ht, by simp⟩
  | cons i instants ih =>
    have hrest := ih (c := sweepStore i c) (h.sweep i)
    rw [ttl_sweepStore] at hrest
    exact hrest.mono fun k v t ⟨⟨ht, hfirst⟩, hrest⟩ => ⟨ht, List.forall_mem_cons.2 ⟨hfirst, hrest⟩⟩

end Swept

/-! ## A cache with a sweeper -/

/-- A cache in traffic, with the sweeps that have been made of it, the earliest first. -/
structure Upkeep (κ ν : Type) [BEq κ] [Hashable κ] where
  traffic : Traffic κ ν
  sweeps : List (Swept.Note (LocalCache κ ν))

namespace Upkeep

/-- What can happen. Time only passes while someone sleeps. -/
inductive Event (κ ν : Type) where
  /-- An update is called. -/
  | begin (k : κ) (attempts : Nat)
  /-- A call takes its next step; should it call its mapper, the mapper is `f`. -/
  | step (i : Nat) (f : Mapper ν)
  /-- Someone uses the store. -/
  | perform (op : Store.Op κ ν)
  /-- Someone reads several keys. -/
  | getBulk (keys : List κ)
  /-- Someone writes several entries. -/
  | setBulk (entries : List (κ × ν))
  /-- Someone sleeps. Every sweep that falls due is made on the way. -/
  | sleep (span : Nat)

/-- The store of the cache. -/
def store (u : Upkeep κ ν) : Store κ ν := u.traffic.store

/-- The present instant. -/
def now (u : Upkeep κ ν) : Nat := u.traffic.now

/-- A new cache without a sweeper. -/
def start (c : Config) : Upkeep κ ν := ⟨.start c, []⟩

/-- Something is done with the cache. -/
def onCache (u : Upkeep κ ν) (f : Swept (LocalCache κ ν) → Swept (LocalCache κ ν)) : Upkeep κ ν :=
  { u with traffic := { u.traffic with cache := f u.traffic.cache } }

/-- Starts a sweeper. -/
def spawn (u : Upkeep κ ν) (interval : Nat) : Upkeep κ ν := u.onCache fun w => w.spawn interval

/-- The cache after an event. -/
def after [BEq ν] (u : Upkeep κ ν) : Event κ ν → Upkeep κ ν
  | .begin k attempts => { u with traffic := u.traffic.after (.begin k attempts) }
  | .step i f => { u with traffic := u.traffic.after (.step i f) }
  | .perform op => { u with traffic := u.traffic.after (.perform op) }
  | .getBulk keys => u.onCache fun w => (w.onStore fun s now => s.getBulk now keys).2
  | .setBulk entries => u.onCache fun w => (w.onStore fun s now => s.setBulk now entries).2
  | .sleep span =>
    { (u.onCache fun w => w.sleep Swept.sweepStore span) with
      sweeps := u.sweeps ++ u.traffic.cache.sweepsIn Swept.sweepStore span }

/-- The cache after events. -/
def run [BEq ν] (u : Upkeep κ ν) (es : List (Event κ ν)) : Upkeep κ ν := es.foldl after u

@[simp] theorem now_start (c : Config) : (start c : Upkeep κ ν).now = 0 := rfl

@[simp] theorem now_spawn (u : Upkeep κ ν) (interval : Nat) : (u.spawn interval).now = u.now := rfl

@[simp] theorem now_after_sleep [BEq ν] (u : Upkeep κ ν) (span : Nat) :
    (u.after (.sleep span)).now = u.now + span := Swept.now_sleep _ _ span

@[simp] theorem run_nil [BEq ν] (u : Upkeep κ ν) : u.run [] = u := rfl

@[simp] theorem run_cons [BEq ν] (u : Upkeep κ ν) (e : Event κ ν) (es : List (Event κ ν)) :
    u.run (e :: es) = (u.after e).run es := rfl

/-! ## Between two sleeps -/

/-- What happens while nobody sleeps: the clock and the sweepers stay as they are. -/
structure Steady (u u' : Upkeep κ ν) : Prop where
  now : u'.now = u.now
  sweepers : u'.traffic.cache.sweepers = u.traffic.cache.sweepers
  sweeps : u'.sweeps = u.sweeps
  store : u.store.Renews u.now u'.store

private theorem sweepers_step (k : κ) (f : Mapper ν) (state : Update (Option Nat) ν)
    (w : Swept (LocalCache κ ν)) :
    (Update.step (Swept.updater k) f state w).2.sweepers = w.sweepers := by
  cases state with
  | toRead left => cases left <;> rfl
  | toWrite left token v => rfl
  | done answer => rfl

section

variable [LawfulBEq κ] [BEq ν]

/-- Whoever does not sleep leaves the clock and the sweepers as they are. -/
theorem steady_after (u : Upkeep κ ν) (e : Event κ ν) :
    u.Steady (u.after e) ∨ ∃ span, e = .sleep span := by
  cases e with
  | begin k attempts => exact .inl ⟨rfl, rfl, rfl, .refl _ _⟩
  | step i f =>
    refine .inl ?_
    cases hc : u.traffic.calls[i]? with
    | none =>
      rw [after, Traffic.after_step_of_none hc]
      exact ⟨rfl, rfl, rfl, .refl _ _⟩
    | some c =>
      -- A step looks at the store or writes to it, which is no sweep.
      obtain ⟨state, hturn, hnow, -⟩ := Traffic.after_step hc f
      refine ⟨hnow, ?_, rfl, .of_turn hturn⟩
      simp only [after, Traffic.after, hc, sweepers_step]
  | perform op => exact .inl ⟨rfl, rfl, rfl, .perform _ _ op⟩
  | getBulk keys => exact .inl ⟨rfl, rfl, rfl, .getBulk _ _ keys⟩
  | setBulk entries => exact .inl ⟨rfl, rfl, rfl, .setBulk _ _ entries⟩
  | sleep span => exact .inr ⟨span, rfl⟩

end

/-! ## Before the sweeper is started -/

/-- A cache without a sweeper and without sweeps. -/
structure Unswept (ttl : Nat) (u : Upkeep κ ν) : Prop where
  sweepers : u.traffic.cache.sweepers = []
  sweeps : u.sweeps = []
  ttl : u.store.ttl = ttl

theorem unswept_start (c : Config) : (start c : Upkeep κ ν).Unswept c.ttl := ⟨rfl, rfl, rfl⟩

/-- Nothing is swept without a sweeper. -/
theorem Unswept.run [LawfulBEq κ] [BEq ν] {ttl : Nat} {u : Upkeep κ ν} (h : u.Unswept ttl)
    (es : List (Event κ ν)) : (u.run es).Unswept ttl := by
  induction es generalizing u with
  | nil => exact h
  | cons e es ih =>
    refine ih ?_
    obtain hsteady | ⟨span, rfl⟩ := u.steady_after e
    · exact ⟨hsteady.sweepers.trans h.sweepers, hsteady.sweeps.trans h.sweeps,
        hsteady.store.ttl.trans h.ttl⟩
    · -- Without a sweeper nothing is done in a sleep but that time passes.
      have hsleep : u.traffic.cache.sleep Swept.sweepStore span = u.traffic.cache.advance span :=
        Swept.sleep_of_nil Swept.sweepStore h.sweepers span
      have hnotes := Swept.sweepsIn_of_nil Swept.sweepStore h.sweepers span
      constructor
      · simp only [after, onCache, hsleep]
        exact h.sweepers
      · simp only [after, hnotes, h.sweeps, List.append_nil]
      · simp only [after, onCache, store, Traffic.store, hsleep]
        exact h.ttl

/-! ## With a sweeper -/

/-- A cache with a sweeper that keeps a timetable: the sweeps so far were made at its instants, each
of them once, and no sweep so far has found an entry expired that is still stored. -/
structure Kept (ttl : Nat) (p : Timetable) (u : Upkeep κ ν) : Prop where
  keeps : u.traffic.cache.Keeps p
  ttl_eq : u.store.ttl = ttl
  fresh : u.store.Each fun _ _ t => ∀ i ∈ p.instants u.now, i ≤ t ∨ i - t < ttl
  instants : u.sweeps.map Swept.Note.instant = p.instants u.now
  swept : ∀ n ∈ u.sweeps, n.before.store.ttl = ttl ∧ n.after = Swept.sweepStore n.instant n.before

namespace Kept

variable {ttl : Nat} {p : Timetable} {u u' : Upkeep κ ν}

/-- A sweeper that is started now has not swept yet. -/
theorem spawn (h : u.Unswept ttl) (interval : Nat) :
    (u.spawn interval).Kept ttl ⟨u.now, max interval minPause⟩ := by
  have hnone : (⟨u.now, max interval minPause⟩ : Timetable).instants u.now = [] := by
    simp [Timetable.instants, Timetable.count]
  constructor
  case keeps => exact Swept.keeps_spawn h.sweepers interval
  case ttl_eq => exact h.ttl
  case fresh =>
    intro k e he i hi
    exact absurd (hnone ▸ hi) (List.not_mem_nil)
  case instants => exact (congrArg _ h.sweeps).trans hnone.symm
  case swept =>
    intro n hn
    exact absurd (h.sweeps ▸ hn) (List.not_mem_nil)

/-- What is written now has not met a sweep yet. -/
theorem steady (h : u.Kept ttl p) (hpos : 0 < p.pause) (hsteady : u.Steady u') :
    u'.Kept ttl p where
  keeps := h.keeps.congr hsteady.now hsteady.sweepers
  ttl_eq := hsteady.store.ttl.trans h.ttl_eq
  fresh := by
    rw [hsteady.now]
    exact hsteady.store.each h.fresh fun k v i hi => .inl (Timetable.le_of_mem_instants hpos hi)
  instants := by rw [hsteady.sweeps, hsteady.now, h.instants]
  swept := by
    rw [hsteady.sweeps]
    exact h.swept

/-- After the first pause, no stored entry is older than the time to live and a pause. -/
theorem age_lt (h : u.Kept ttl p) (hpos : 0 < p.pause) (hlate : p.origin + p.pause ≤ u.now) {k : κ}
    {e : Entry ν} (he : u.store.entries[k]? = some e) : e.age u.now < ttl + p.pause := by
  -- The last sweep was at most a pause ago, and the entry was not expired then.
  obtain ⟨i, hi, hlast⟩ := Timetable.exists_instant hpos hlate
  have hfresh : i ≤ e.written ∨ i - e.written < ttl := h.fresh k e he i hi
  simp only [Entry.age]
  omega

variable [LawfulBEq κ] [BEq ν]

omit [LawfulBEq κ] in
/-- What a sleep leaves in the store. -/
theorem store_sleep (h : u.Kept ttl p) (hp : minPause ≤ p.pause) (span : Nat) :
    (u.after (.sleep span)).store = (Swept.sweptAt Swept.sweepStore
      (p.between u.now (u.now + span)) u.traffic.cache.state).store := by
  have hsleep := h.keeps.sleep_eq Swept.sweepStore hp span
  simp only [after, onCache, store, Traffic.store, hsleep]
  rfl

/-- A sleep makes the sweeps that fall due. -/
theorem sleep (h : u.Kept ttl p) (hp : minPause ≤ p.pause) (span : Nat) :
    (u.after (.sleep span)).Kept ttl p := by
  have hnotes := h.keeps.sweepsIn_eq Swept.sweepStore hp span
  have hsplit : p.instants (u.now + span) = p.instants u.now ++ p.between u.now (u.now + span) :=
    p.instants_append (Nat.le_add_right u.now span)
  have hnow := u.now_after_sleep span
  have hstore := h.store_sleep hp span
  have hsweeps : (u.after (.sleep span)).sweeps = u.sweeps ++ Swept.notesAt Swept.sweepStore
      (p.between u.now (u.now + span)) u.traffic.cache.state := by
    simp only [after, hnotes]
    rfl
  constructor
  case keeps => exact h.keeps.sleep Swept.sweepStore hp span
  case ttl_eq =>
    rw [hstore, Swept.ttl_sweptAt]
    exact h.ttl_eq
  case fresh =>
    rw [hstore, hnow, hsplit]
    -- An entry has outlived the old sweeps by `h`, and the new ones since they left it.
    have hlate := Swept.each_sweptAt h.fresh (p.between u.now (u.now + span))
    refine hlate.mono fun k v t ⟨hearly, hlate⟩ i hi => ?_
    obtain hi | hi := List.mem_append.1 hi
    · exact hearly i hi
    · exact .inr (h.ttl_eq ▸ hlate i hi)
  case instants =>
    rw [hsweeps, List.map_append, h.instants, Swept.map_instant_notesAt, hnow, hsplit]
  case swept =>
    rw [hsweeps]
    refine List.forall_mem_append.2 ⟨h.swept, fun n hn => ?_⟩
    refine Swept.of_mem_notesAt (P := fun c => c.store.ttl = ttl) (fun i c hc => ?_) h.ttl_eq hn
    rw [Swept.ttl_sweepStore, hc]

/-- Whatever happens, the sweeper keeps its timetable. -/
theorem run (h : u.Kept ttl p) (hp : minPause ≤ p.pause) (es : List (Event κ ν)) :
    (u.run es).Kept ttl p := by
  induction es generalizing u with
  | nil => exact h
  | cons e es ih =>
    refine ih ?_
    obtain hsteady | ⟨span, rfl⟩ := u.steady_after e
    · exact h.steady (Nat.lt_of_lt_of_le (by decide) hp) hsteady
    · exact h.sleep hp span

end Kept

/-- The shortest pause is a millisecond. -/
theorem max_ofMillis (n : Nat) : max (Span.ofMillis n) minPause = Span.ofMillis (max n 1) := by
  simp only [Span.ofMillis, minPause, Span.millisecond]
  omega

/-- A sweeper is started in any traffic and anything goes on behind that. From its first sweep on,
no stored entry is as old as the time to live and a pause together. Every sweep leaves exactly the
entries that were not expired at its instant. The sweeps happen at the multiples of the pause, each
of them once. -/
theorem staleness_bounded [LawfulBEq κ] [BEq ν] (c : Config) (es es' : List (Event κ ν)) (n : Nat) :
    let spawned : Upkeep κ ν := (start c).run es
    let u := (spawned.spawn (Span.ofMillis n)).run es'
    let pause := Span.ofMillis (max n 1)
    (spawned.now + pause ≤ u.now → ∀ (k : κ) (e : Entry ν), u.store.entries[k]? = some e →
      e.age u.now < c.ttl + pause) ∧
    (∀ s ∈ u.sweeps, ∀ k : κ, s.after.store.entries[k]? =
      s.before.store.entries[k]?.filter fun e => decide (e.age s.instant < c.ttl)) ∧
    u.sweeps.map Swept.Note.instant =
      (List.range ((u.now - spawned.now) / pause)).map (fun j => spawned.now + (j + 1) * pause) ∧
    (u.sweeps.map Swept.Note.instant).Pairwise (· < ·) := by
  intro spawned u pause
  -- A pause of zero is one of a millisecond.
  have hp : minPause ≤ pause := by
    show minPause ≤ Span.ofMillis (max n 1)
    rw [← max_ofMillis]
    exact Nat.le_max_right _ _
  have hpos : 0 < pause := Nat.lt_of_lt_of_le (by decide) hp
  have hkept : u.Kept c.ttl ⟨spawned.now, pause⟩ := by
    -- Nothing has been swept when the sweeper is started; from then on all sweeps are its own.
    have hstart : spawned.Unswept c.ttl := (unswept_start c).run es
    have hspawn := Kept.spawn hstart (Span.ofMillis n)
    rw [max_ofMillis] at hspawn
    exact hspawn.run hp es'
  refine ⟨fun hlate k e he => hkept.age_lt hpos hlate he, fun s hs k => ?_, hkept.instants,
    hkept.instants ▸ Timetable.pairwise_instants hpos u.now⟩
  obtain ⟨httl, hafter⟩ := hkept.swept s hs
  rw [hafter]
  show (s.before.store.sweep s.instant).2.entries[k]? = _
  rw [Store.getElem?_sweep, httl]
  refine congrArg (Option.filter · _) (funext fun e => ?_)
  by_cases hfresh : e.age s.instant < c.ttl
  · simp [Entry.Expired, hfresh, Nat.not_le.2 hfresh]
  · simp [Entry.Expired, hfresh, Nat.not_lt.1 hfresh]

theorem staleness_bounded_expired :
    let c : Config := { Config.standard with ttl := 5000000 }
    let u := ((start c : Upkeep Nat Nat).spawn (Span.ofMillis 3)).run
      [.perform (.set 1 10), .sleep 5000000]
    let busy := ((start c : Upkeep Nat Nat).spawn (Span.ofMillis 0)).run
      [.setBulk [(1, 10), (2, 20)], .sleep 5000000]
    (start c : Upkeep Nat Nat).now + Span.ofMillis (max 3 1) ≤ u.now ∧
      u.store.entries[1]? = some ⟨10, 0, 1⟩ ∧ Entry.Expired c.ttl u.now (⟨10, 0, 1⟩ : Entry Nat) ∧
      (⟨10, 0, 1⟩ : Entry Nat).age u.now < c.ttl + Span.ofMillis (max 3 1) ∧
      u.sweeps.map Swept.Note.instant = [3000000] ∧
      busy.sweeps.map Swept.Note.instant = [1000000, 2000000, 3000000, 4000000, 5000000] := by
  intro c u busy
  obtain ⟨hage, -, hinstants, -⟩ := staleness_bounded c ([] : List (Event Nat Nat))
    [.perform (.set 1 10), .sleep 5000000] 3
  obtain ⟨-, -, hbusy, -⟩ := staleness_bounded c ([] : List (Event Nat Nat))
    [.setBulk [(1, 10), (2, 20)], .sleep 5000000] 0
  have hnow : u.now = 5000000 := by
    simp only [u, run_cons, run_nil, now_after_sleep]
    exact Nat.zero_add 5000000
  have hbusyNow : busy.now = 5000000 := by
    simp only [busy, run_cons, run_nil, now_after_sleep]
    exact Nat.zero_add 5000000
  have hlate : (start c : Upkeep Nat Nat).now + Span.ofMillis (max 3 1) ≤ u.now := by
    rw [hnow]
    decide
  have hentry : u.store.entries[1]? = some ⟨10, 0, 1⟩ := by
    -- The entry is written at the first instant, and swept once while it is still live.
    have hpause : max (Span.ofMillis 3) minPause = 3000000 := by decide
    have hspawn := Kept.spawn (unswept_start (κ := Nat) (ν := Nat) c) (Span.ofMillis 3)
    rw [hpause, now_start] at hspawn
    have hkept := hspawn.run (by decide) [.perform (.set 1 10)]
    have hbetween : (⟨0, 3000000⟩ : Timetable).between 0 (0 + 5000000) = [3000000] := by decide
    have hstore :
        u.store = ((Store.set (.ofLimits c.maxEntries c.ttl) 0 1 10).sweep 3000000).2 := by
      refine (hkept.store_sleep (by decide) 5000000).trans ?_
      show (Swept.sweptAt Swept.sweepStore ((⟨0, 3000000⟩ : Timetable).between 0 (0 + 5000000))
        _).store = _
      rw [hbetween]
      rfl
    have httl : ((Store.ofLimits c.maxEntries c.ttl).set 0 1 10).ttl = 5000000 :=
      (Store.moves_set _ 0 1 10).ttl
    rw [hstore, Store.getElem?_sweep, Store.entries_set, httl]
    rfl
  refine ⟨hlate, hentry, ?_, hage hlate 1 _ hentry, ?_, ?_⟩
  · rw [hnow]
    decide
  · refine hinstants.trans ?_
    show (List.range ((u.now - 0) / Span.ofMillis (max 3 1))).map _ = _
    rw [hnow]
    decide
  · refine hbusy.trans ?_
    show (List.range ((busy.now - 0) / Span.ofMillis (max 0 1))).map _ = _
    rw [hbusyNow]
    decide

end Upkeep

end CacheLayer
