import CacheLayer.Sweep
import Mathlib
/-!
# The timetable of a sweeper

A single sweeper sweeps at the multiples of its pause behind the instant it was started at, and at
no other instant. Whoever sleeps finds the state swept at those of them that have passed, in their
order. To tell which sweeps there have been, they are noted in a state that sleeps in the same way.

## Key results

- `Swept.Keeps.sleep_eq`: what a sleep comes to, for a single sweeper that keeps a timetable
- `Swept.sleep_map`, `Swept.sleep_noted`: sweeps that are noted are those that happen
- `Swept.Keeps.sweepsIn_eq`: they happen at the instants of the timetable
-/

namespace CacheLayer

/-- When the sweeps of a sweeper happen. -/
structure Timetable where
  /-- The instant at which the sweeper was started. -/
  origin : Nat
  /-- The time between two sweeps. -/
  pause : Nat

namespace Timetable

variable {p : Timetable} {now later j : Nat}

/-- The instant of a sweep; the first one has number zero. -/
def instant (p : Timetable) (j : Nat) : Nat := p.origin + (j + 1) * p.pause

/-- How many sweeps there are up to an instant. -/
def count (p : Timetable) (now : Nat) : Nat := (now - p.origin) / p.pause

/-- The instants of the sweeps up to an instant. -/
def instants (p : Timetable) (now : Nat) : List Nat := (List.range (p.count now)).map p.instant

/-- The instants of the sweeps behind an instant and up to a later one. -/
def between (p : Timetable) (now later : Nat) : List Nat :=
  (List.range' (p.count now) (p.count later - p.count now)).map p.instant

theorem count_mono (h : now ≤ later) : p.count now ≤ p.count later :=
  Nat.div_le_div_right (Nat.sub_le_sub_right h p.origin)

theorem instant_add (p : Timetable) (j n : Nat) :
    p.instant (j + n) = p.instant j + n * p.pause := by
  simp only [instant]
  ring

/-- The sweeps up to an instant come first. -/
theorem instants_append (h : now ≤ later) :
    p.instants later = p.instants now ++ p.between now later := by
  have hcount := p.count_mono h
  have hsplit := List.range'_append_1 (s := 0) (m := p.count now) (n := p.count later - p.count now)
  rw [Nat.zero_add, Nat.add_sub_cancel' hcount] at hsplit
  rw [instants, instants, between, ← List.map_append, List.range_eq_range', List.range_eq_range',
    hsplit]

variable (hp : 0 < p.pause)
include hp

/-- The sweep behind those that have been is still to come. -/
theorem lt_instant_count (now : Nat) : now < p.instant (p.count now) := by
  have hlt : now - p.origin < (p.count now + 1) * p.pause := by
    rw [Nat.mul_comm]
    exact Nat.lt_mul_div_succ (now - p.origin) hp
  simp only [instant]
  omega

theorem lt_count_iff : j < p.count now ↔ p.instant j ≤ now := by
  have hpos : 0 < (j + 1) * p.pause := Nat.mul_pos (Nat.succ_pos j) hp
  rw [count, Nat.lt_iff_add_one_le, Nat.le_div_iff_mul_le hp, instant]
  omega

/-- The sweeps up to an instant are not behind it. -/
theorem le_of_mem_instants {i : Nat} (h : i ∈ p.instants now) : i ≤ now := by
  obtain ⟨j, hj, rfl⟩ := List.mem_map.1 h
  exact (lt_count_iff hp).1 (List.mem_range.1 hj)

/-- After the first pause the last sweep is less than a pause ago. -/
theorem exists_instant (h : p.origin + p.pause ≤ now) :
    ∃ i ∈ p.instants now, now < i + p.pause := by
  have hfirst : 0 < p.count now := (lt_count_iff hp).2 (by simpa [instant] using h)
  obtain ⟨j, hj⟩ := Nat.exists_eq_succ_of_ne_zero (Nat.ne_of_gt hfirst)
  refine ⟨p.instant j, List.mem_map_of_mem (List.mem_range.2 (by omega)), ?_⟩
  have hnext := lt_instant_count hp now
  rwa [hj, Nat.succ_eq_add_one, p.instant_add, Nat.one_mul] at hnext

/-- No two sweeps happen at one instant. -/
theorem pairwise_instants (now : Nat) : (p.instants now).Pairwise (· < ·) := by
  refine List.pairwise_map.2 (List.pairwise_lt_range.imp ?_)
  intro j j' h
  exact Nat.add_lt_add_left (Nat.mul_lt_mul_of_pos_right (Nat.succ_lt_succ h) hp) p.origin

end Timetable

namespace Swept

variable {σ : Type} {sweep : Nat → σ → σ} {w : Swept σ} {p : Timetable}

theorem now_elapse (sweep : Nat → σ → σ) (target fuel : Nat) (w : Swept σ) :
    (w.elapse sweep target fuel).now = target := by
  induction fuel generalizing w with
  | zero => rfl
  | succ fuel ih =>
    rw [elapse]
    split
    · rfl
    · split
      · rfl
      · exact ih _

/-- A sleep takes as long as it is meant to. -/
@[simp] theorem now_sleep (sweep : Nat → σ → σ) (w : Swept σ) (span : Nat) :
    (w.sleep sweep span).now = w.now + span := now_elapse sweep _ _ w

/-! ## A single sweeper -/

/-- Whether there is one sweeper, which was started at the origin of a timetable and is next due at
the first of its instants that is still to come. -/
structure Keeps (w : Swept σ) (p : Timetable) : Prop where
  started : p.origin ≤ w.now
  sweepers : w.sweepers = [⟨p.pause, p.instant (p.count w.now)⟩]

/-- A first sweeper keeps the timetable that begins now. -/
theorem keeps_spawn (h : w.sweepers = []) (interval : Nat) :
    (w.spawn interval).Keeps ⟨w.now, max interval minPause⟩ where
  started := Nat.le_refl _
  sweepers := by simp [spawn, h, Sweeper.start, Timetable.instant, Timetable.count]

/-- Without sweepers, time passes and nothing else happens. -/
theorem sleep_of_nil (sweep : Nat → σ → σ) (h : w.sweepers = []) (span : Nat) :
    w.sleep sweep span = w.advance span := by
  obtain ⟨now, s, sweepers, current?⟩ := w
  obtain rfl : sweepers = [] := h
  rw [sleep, List.length_nil, Nat.zero_add, Nat.mul_one, elapse]
  rfl

/-- A single sweeper that is due sweeps, and is due again after its pause. -/
theorem fire_single {now pause due : Nat} {s : σ} {current? : Option Nat} (h : due ≤ now) :
    (⟨now, s, [⟨pause, due⟩], current?⟩ : Swept σ).fire sweep =
      ⟨now, sweep now s, [⟨pause, now + pause⟩], current?⟩ := by
  simp [fire, Sweeper.again, h]

/-- The state after sweeps at some instants. -/
def sweptAt (sweep : Nat → σ → σ) (instants : List Nat) (s : σ) : σ :=
  instants.foldl (fun s t => sweep t s) s

/-- A single sweeper sweeps at every instant at which it is due on the way, and at no other one. The
induction is on the number of sweeps. -/
theorem elapse_single {target n fuel now pause due : Nat} {s : σ} {current? : Option Nat}
    (hnow : now ≤ due) (hdue : ∀ j < n, due + j * pause ≤ target)
    (hlast : target < due + n * pause) (hfuel : n < fuel) :
    (⟨now, s, [⟨pause, due⟩], current?⟩ : Swept σ).elapse sweep target fuel =
      ⟨target, sweptAt sweep ((List.range n).map (due + · * pause)) s,
        [⟨pause, due + n * pause⟩], current?⟩ := by
  induction n generalizing now due s fuel with
  | zero =>
    obtain ⟨fuel, rfl⟩ := Nat.exists_eq_succ_of_ne_zero (Nat.ne_zero_of_lt hfuel)
    -- The target comes before the next sweep.
    have hnone : target < due := by simpa using hlast
    simp [elapse, nextDue, hnone, sweptAt]
  | succ n ih =>
    obtain ⟨fuel, rfl⟩ := Nat.exists_eq_succ_of_ne_zero (Nat.ne_zero_of_lt hfuel)
    have hfirst : ¬ target < due := by
      have := hdue 0 (Nat.succ_pos n)
      omega
    have hshift (j : Nat) : due + pause + j * pause = due + (j + 1) * pause := by ring
    have hdue' : ∀ j < n, due + pause + j * pause ≤ target :=
      fun j hj => hshift j ▸ hdue (j + 1) (Nat.succ_lt_succ hj)
    -- Behind its first sweep the sweeper is due one pause later, and has one sweep less to make.
    have hrest := ih (s := sweep due s) (Nat.le_add_right due pause) hdue' (hshift n ▸ hlast)
      (Nat.lt_of_succ_lt_succ hfuel)
    have hnext : nextDue (⟨now, s, [⟨pause, due⟩], current?⟩ : Swept σ) = some due := rfl
    rw [elapse, hnext]
    simp only [if_neg hfirst, Nat.max_eq_right hnow]
    rw [fire_single (Nat.le_refl due), hrest]
    simp only [sweptAt, List.range_succ_eq_map, List.map_cons, List.map_map, List.foldl_cons,
      Function.comp_def, hshift, Nat.zero_mul, Nat.add_zero]

namespace Keeps

variable (h : w.Keeps p)
include h

/-- The timetable is a matter of the clock and of the sweepers. -/
theorem congr {w' : Swept σ} (hnow : w'.now = w.now) (hsweepers : w'.sweepers = w.sweepers) :
    w'.Keeps p where
  started := hnow ▸ h.started
  sweepers := by rw [hsweepers, hnow, h.sweepers]

/-- What a sleep comes to: the sweeps of the timetable that are due on the way. -/
theorem sleep_eq (sweep : Nat → σ → σ) (hp : minPause ≤ p.pause) (span : Nat) :
    w.sleep sweep span =
      ⟨w.now + span, sweptAt sweep (p.between w.now (w.now + span)) w.state,
        [⟨p.pause, p.instant (p.count (w.now + span))⟩], w.current?⟩ := by
  obtain ⟨now, s, sweepers, current?⟩ := w
  obtain rfl : sweepers = [⟨p.pause, p.instant (p.count now)⟩] := h.sweepers
  have hpos : 0 < p.pause := Nat.lt_of_lt_of_le (by decide) hp
  obtain ⟨n, hn⟩ := Nat.exists_eq_add_of_le (p.count_mono (Nat.le_add_right now span))
  have hfirst := Timetable.lt_instant_count hpos now
  have hdue : ∀ j < n, p.instant (p.count now) + j * p.pause ≤ now + span := by
    intro j hj
    rw [← p.instant_add]
    exact (Timetable.lt_count_iff hpos).1 (by omega)
  have hlast : now + span < p.instant (p.count now) + n * p.pause := by
    rw [← p.instant_add, ← hn]
    exact Timetable.lt_instant_count hpos (now + span)
  -- Between the first sweep and the last one there are no more pauses than fit into the sleep.
  have hfuel : n < (span / minPause + 2) * (1 + 1) := by
    have hless : n - 1 ≤ span / minPause := by
      rw [Nat.le_div_iff_mul_le (by decide)]
      refine Nat.le_trans (Nat.mul_le_mul_left _ hp) ?_
      cases n with
      | zero => simp
      | succ n =>
        have := hdue n (Nat.lt_succ_self n)
        rw [Nat.add_sub_cancel]
        omega
    omega
  have hbetween : p.between now (now + span) =
      (List.range n).map (p.instant (p.count now) + · * p.pause) := by
    rw [Timetable.between, hn, Nat.add_sub_cancel_left, List.range'_eq_map_range, List.map_map]
    exact List.map_congr_left fun j _ => p.instant_add _ j
  rw [hbetween, hn, p.instant_add]
  exact elapse_single (Nat.le_of_lt hfirst) hdue hlast hfuel

/-- The timetable is kept through a sleep. -/
theorem sleep (sweep : Nat → σ → σ) (hp : minPause ≤ p.pause) (span : Nat) :
    (w.sleep sweep span).Keeps p := by
  rw [h.sleep_eq sweep hp]
  exact ⟨Nat.le_add_right_of_le h.started, rfl⟩

end Keeps

/-! ## Sweeps that are noted -/

section

variable {τ : Type} {f : σ → τ} {sweep' : Nat → τ → τ}

/-- The same clock and the same sweepers with another state. -/
def map (f : σ → τ) (w : Swept σ) : Swept τ := ⟨w.now, f w.state, w.sweepers, w.current?⟩

theorem fire_map (hf : ∀ t s, f (sweep t s) = sweep' t (f s)) (w : Swept σ) :
    (w.map f).fire sweep' = (w.fire sweep).map f := by
  refine List.foldl_hom (map f) fun w p => ?_
  by_cases hdue : p.1.due ≤ w.now
  · simp only [map, hdue, if_true, hf]
  · simp only [map, hdue, if_false]

theorem elapse_map (hf : ∀ t s, f (sweep t s) = sweep' t (f s)) (target fuel : Nat)
    (w : Swept σ) : (w.map f).elapse sweep' target fuel = (w.elapse sweep target fuel).map f := by
  induction fuel generalizing w with
  | zero => rfl
  | succ fuel ih =>
    have hnext : (w.map f).nextDue = w.nextDue := rfl
    rw [elapse, elapse, hnext]
    cases w.nextDue with
    | none => rfl
    | some due =>
      by_cases hlate : target < due
      · simp only [if_pos hlate]
        rfl
      · simp only [if_neg hlate]
        rw [← ih, ← fire_map hf]
        rfl

/-- What is seen of a state through a function goes its own way, if the sweeps do. -/
theorem sleep_map (hf : ∀ t s, f (sweep t s) = sweep' t (f s)) (w : Swept σ) (span : Nat) :
    (w.map f).sleep sweep' span = (w.sleep sweep span).map f :=
  elapse_map hf _ _ w

end

/-- A sweep that has happened. -/
structure Note (σ : Type) where
  instant : Nat
  /-- The state that was swept. -/
  before : σ
  /-- The state that the sweep has left. -/
  after : σ

/-- Sweeps and notes it behind the sweeps before. -/
def noting (sweep : Nat → σ → σ) (t : Nat) (s : σ × List (Note σ)) : σ × List (Note σ) :=
  (sweep t s.1, s.2 ++ [⟨t, s.1, sweep t s.1⟩])

/-- The state without any notes yet. -/
def noted (w : Swept σ) : Swept (σ × List (Note σ)) := w.map (·, [])

/-- The sweeps that happen during a sleep, in their order. -/
def sweepsIn (sweep : Nat → σ → σ) (w : Swept σ) (span : Nat) : List (Note σ) :=
  (w.noted.sleep (noting sweep) span).state.2

/-- A sleep in which the sweeps are noted is the same sleep. -/
theorem sleep_noted (sweep : Nat → σ → σ) (w : Swept σ) (span : Nat) :
    (w.noted.sleep (noting sweep) span).map Prod.fst = w.sleep sweep span := by
  have hfst : ∀ t (s : σ × List (Note σ)), (noting sweep t s).1 = sweep t s.1 := fun _ _ => rfl
  exact (sleep_map hfst w.noted span).symm

/-- Without sweepers there are no sweeps. -/
theorem sweepsIn_of_nil (sweep : Nat → σ → σ) (h : w.sweepers = []) (span : Nat) :
    w.sweepsIn sweep span = [] := by
  have hnil : w.noted.sweepers = [] := h
  rw [sweepsIn, sleep_of_nil _ hnil]
  rfl

/-- The notes of sweeps at some instants. -/
def notesAt (sweep : Nat → σ → σ) : List Nat → σ → List (Note σ)
  | [], _ => []
  | t :: ts, s => ⟨t, s, sweep t s⟩ :: notesAt sweep ts (sweep t s)

private theorem sweptAt_noting (ts : List Nat) (s : σ) (notes : List (Note σ)) :
    sweptAt (noting sweep) ts (s, notes) = (sweptAt sweep ts s, notes ++ notesAt sweep ts s) := by
  induction ts generalizing s notes with
  | nil => simp [sweptAt, notesAt]
  | cons t ts ih =>
    have hrest := ih (sweep t s) (notes ++ [⟨t, s, sweep t s⟩])
    rw [List.append_assoc] at hrest
    exact hrest

theorem map_instant_notesAt (ts : List Nat) (s : σ) :
    (notesAt sweep ts s).map Note.instant = ts := by
  induction ts generalizing s with
  | nil => rfl
  | cons t ts ih => rw [notesAt, List.map_cons, ih]

/-- A sweep that was noted has been made, and it finds what sweeps leave. -/
theorem of_mem_notesAt {P : σ → Prop} (hP : ∀ t s, P s → P (sweep t s)) {ts : List Nat} {s : σ}
    (hs : P s) {n : Note σ} (hn : n ∈ notesAt sweep ts s) :
    P n.before ∧ n.after = sweep n.instant n.before := by
  induction ts generalizing s with
  | nil => cases hn
  | cons t ts ih =>
    obtain rfl | hn := List.mem_cons.1 hn
    · exact ⟨hs, rfl⟩
    · exact ih (hP t s hs) hn

namespace Keeps

variable (h : w.Keeps p)
include h

/-- The sweeps that are noted are those of the timetable. -/
theorem sweepsIn_eq (sweep : Nat → σ → σ) (hp : minPause ≤ p.pause) (span : Nat) :
    w.sweepsIn sweep span = notesAt sweep (p.between w.now (w.now + span)) w.state := by
  have hkeeps : w.noted.Keeps p := ⟨h.started, h.sweepers⟩
  rw [sweepsIn, hkeeps.sleep_eq _ hp]
  show (sweptAt (noting sweep) _ (w.state, [])).2 = _
  rw [sweptAt_noting]
  rfl

end Keeps

end Swept

end CacheLayer
