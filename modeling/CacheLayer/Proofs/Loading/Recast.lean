import CacheLayer.Proofs.Gathering
import CacheLayer.Proofs.Loading.Invariant
/-!
# Delegates with other values

A loading delegate hands values on and never looks into them. So if every value that comes in is
changed by a function, all goes on as before, and what comes out is changed by the same function.
`Delegate.Recast` relates two delegates that differ in their values only. Maps of values are
compared by what is found in them, since nothing tells in which order a map lists its keys.

## Key results

- `Resolver.Recast.resume`: replies that differ in their values lead on alike
- `Delegate.Recast.step?`: so do steps
- `Delegate.Recast.result?`: callers get the same but for the values
-/

namespace CacheLayer

variable {κ ν μ α β : Type} [BEq κ] [Hashable κ]

omit [BEq κ] [Hashable κ] in
/-- What related options are mapped to is related, if it is for related values. -/
theorem rel_map {γ δ : Type} {R : α → β → Prop} {S : γ → δ → Prop} {a? : Option α} {b? : Option β}
    (h : Option.Rel R a? b?) {f : α → γ} {g : β → δ} (hmap : ∀ {a b}, R a b → S (f a) (g b)) :
    Option.Rel S (a?.map f) (b?.map g) := by
  cases h with
  | none => exact .none
  | some h => exact .some (hmap h)

/-! ## Flights -/

/-- The same chore with another value. -/
def Chore.recast (f : α → β) : Chore κ α → Chore κ β
  | publish g o => publish g (o.map f)
  | abandon g => abandon g
  | remove g => remove g

omit [BEq κ] [Hashable κ] in
@[simp] theorem Chore.map_recast_dropAll (f : α → β) (gs : List (Guard κ)) :
    (Chore.dropAll gs).map (recast f) = Chore.dropAll gs := by
  simp only [dropAll, List.map_flatMap]
  rfl

omit [BEq κ] [Hashable κ] in
/-- Chores of guards are recast guard by guard. -/
theorem Chore.map_recast_flatMap {f : α → β} {gs : List (Guard κ)} {F : Guard κ → List (Chore κ α)}
    {F' : Guard κ → List (Chore κ β)} (h : ∀ g, F' g = (F g).map (recast f)) :
    gs.flatMap F' = (gs.flatMap F).map (recast f) := by
  rw [List.map_flatMap]
  exact congrArg (gs.flatMap ·) (funext h)

/-- The same flights with other values. -/
def Flights.recast (f : α → β) (fl : Flights κ α) : Flights κ β :=
  ⟨fl.registry, fl.promises.map (Option.map (Except.map f))⟩

namespace Flights

variable (f : α → β) (fl : Flights κ α)

theorem recast_register (k : κ) :
    (fl.recast f).register k = ((fl.register k).1, (fl.register k).2.recast f) := by
  simp only [register, recast]
  cases fl.registry[k]? with
  | some p => rfl
  | none => simp

theorem recast_complete (p : Nat) (o : Outcome α) :
    (fl.recast f).complete p (o.map f) = (fl.complete p o).recast f := by
  simp only [complete, recast, mk.injEq, true_and]
  apply Array.ext_getElem?
  intro i
  simp only [Array.getElem?_modify, Array.getElem?_map]
  split
  · -- An outcome that is there already stays on both sides.
    rcases fl.promises[i]? with _ | _ | o' <;> rfl
  · rfl

theorem recast_remove (g : Guard κ) : (fl.recast f).remove g = (fl.remove g).recast f := by
  by_cases h : fl.registry[g.key]? = some g.promise
  · simp [remove, recast, h]
  · simp [remove, recast, h]

theorem recast_outcome? (p : Nat) :
    (fl.recast f).outcome? p = (fl.outcome? p).map (Except.map f) := by
  simp only [outcome?, recast, Array.getElem?_map]
  cases fl.promises[p]? <;> rfl

end Flights

/-- A chore with another value does the same to flights with other values. -/
theorem Chore.run_recast (f : α → β) (fl : Flights κ α) (c : Chore κ α) :
    (c.recast f).run (fl.recast f) = (c.run fl).recast f := by
  cases c with
  | publish g o => exact fl.recast_complete f g.promise o
  | abandon g => exact fl.recast_complete f g.promise (.error Flights.abandoned)
  | remove g => exact fl.recast_remove f g

/-! ## Resolvers -/

/-- Questions that differ in their values. -/
inductive Question.Recast (f : ν → μ) : Question κ ν → Question κ μ → Prop where
  | read (g : Guard κ) : Recast f (.read g) (.read g)
  | load (g : Guard κ) : Recast f (.load g) (.load g)
  | write (g : Guard κ) (v : ν) : Recast f (.write g v) (.write g (f v))
  | readMany (gs : List (Guard κ)) : Recast f (.readMany gs) (.readMany gs)
  | loadMany (gs : List (Guard κ)) : Recast f (.loadMany gs) (.loadMany gs)
  | writeMany (gs : List (Guard κ)) {m : Std.HashMap κ ν} {m' : Std.HashMap κ μ} :
    MapRecast f m m' → Recast f (.writeMany gs m) (.writeMany gs m')

/-- Replies that differ in their values. -/
inductive Reply.Recast (f : ν → μ) : Reply κ ν → Reply κ μ → Prop where
  | read (o : Outcome (Option ν)) : Recast f (.read o) (.read (o.recast f))
  | load {r : LoadEnd (Option ν)} {r' : LoadEnd (Option μ)} : r'.outcome = r.outcome.recast f →
    Recast f (.load r) (.load r')
  | written (o : Outcome Unit) : Recast f (.written o) (.written o)
  | readMany {o : Outcome (Std.HashMap κ ν)} {o' : Outcome (Std.HashMap κ μ)} :
    Outcome.Rel (MapRecast f) o o' → Recast f (.readMany o) (.readMany o')
  | loadMany {r : LoadEnd (Std.HashMap κ ν)} {r' : LoadEnd (Std.HashMap κ μ)} :
    Outcome.Rel (MapRecast f) r.outcome r'.outcome → Recast f (.loadMany r) (.loadMany r')

/-- Resolvers that differ in their values. -/
structure Resolver.Recast (f : ν → μ) (r : Resolver κ ν) (r' : Resolver κ μ) : Prop where
  chores : r'.chores = r.chores.map (Chore.recast (Option.map f))
  question? : Option.Rel (Question.Recast f) r.question? r'.question?
  asked : r'.asked = r.asked

/-- Where two resolvers stand that differ in their values, if they are there: before a chore, before
or after a question, or at their end. -/
inductive Resolver.Stand (f : ν → μ) : Option (Resolver κ ν) → Option (Resolver κ μ) → Prop where
  | chores (c : Chore κ (Option ν)) {cs : List (Chore κ (Option ν))}
      {cs' : List (Chore κ (Option μ))} {q? : Option (Question κ ν)} {q?' : Option (Question κ μ)}
      {asked : Bool} : Resolver.Recast f ⟨cs, q?, asked⟩ ⟨cs', q?', asked⟩ →
    Stand f (some ⟨c :: cs, q?, asked⟩) (some ⟨c.recast (Option.map f) :: cs', q?', asked⟩)
  | question {q : Question κ ν} {q' : Question κ μ} (asked : Bool) : q.Recast f q' →
    Stand f (some ⟨[], some q, asked⟩) (some ⟨[], some q', asked⟩)
  | ended (asked : Bool) : Stand f (some ⟨[], none, asked⟩) (some ⟨[], none, asked⟩)
  | none : Stand f none none

namespace Resolver.Recast

variable {f : ν → μ}

/-- Resolvers that differ in their values stand at the same place. -/
theorem stand {r? : Option (Resolver κ ν)} {r?' : Option (Resolver κ μ)}
    (h : Option.Rel (Resolver.Recast f) r? r?') : Stand f r? r?' := by
  cases h with
  | none => exact .none
  | @some r r' h =>
    obtain ⟨chores, question?, asked⟩ := r
    obtain ⟨chores', question?', asked'⟩ := r'
    obtain ⟨hchores, hq, hasked⟩ := h
    obtain rfl : asked' = asked := hasked
    cases chores with
    | nil =>
      obtain rfl : chores' = [] := hchores
      cases hq with
      | none => exact .ended asked'
      | some hq => exact .question asked' hq
    | cons c cs =>
      obtain rfl : chores' = _ :: _ := hchores
      exact .chores c ⟨rfl, hq, rfl⟩

theorem asking {cs : List (Chore κ (Option ν))} {cs' : List (Chore κ (Option μ))}
    (hcs : cs' = cs.map (Chore.recast (Option.map f))) {q : Question κ ν} {q' : Question κ μ}
    (hq : q.Recast f q') : (Resolver.asking cs q).Recast f (.asking cs' q') :=
  ⟨hcs, .some hq, rfl⟩

theorem ending {cs : List (Chore κ (Option ν))} {cs' : List (Chore κ (Option μ))}
    (hcs : cs' = cs.map (Chore.recast (Option.map f))) :
    (Resolver.ending cs).Recast f (.ending cs') :=
  ⟨hcs, .none, rfl⟩

/-- A resolver is at its end just if the other one is. -/
theorem isOver_eq {r : Resolver κ ν} {r' : Resolver κ μ} (h : r.Recast f r') :
    r'.isOver = r.isOver := by
  have hq := h.question?
  rw [Resolver.isOver, Resolver.isOver, h.chores, List.isEmpty_map]
  generalize r.question? = q, r'.question? = q' at hq
  cases hq <;> rfl

/-- A resolver goes on alike after a read of one key. -/
theorem afterRead (f : ν → μ) (g : Guard κ) (o : Outcome (Option ν)) :
    (Resolver.afterRead g o).Recast f (.afterRead g (o.recast f)) := by
  rcases o with e | _ | v
  · exact .asking rfl (.load g)
  · exact .asking rfl (.load g)
  · exact .ending rfl

theorem afterLoad (f : ν → μ) (g : Guard κ) (o : Outcome (Option ν)) :
    (Resolver.afterLoad g o).Recast f (.afterLoad g (o.recast f)) := by
  rcases o with e | _ | v
  · exact .ending rfl
  · exact .ending rfl
  · exact .asking rfl (.write g v)

variable [LawfulBEq κ]

theorem afterReadMany (gs : List (Guard κ)) {o : Outcome (Std.HashMap κ ν)}
    {o' : Outcome (Std.HashMap κ μ)} (h : Outcome.Rel (MapRecast f) o o') :
    (Resolver.afterReadMany gs o).Recast f (.afterReadMany gs o') := by
  have hfound : MapRecast f (o.toOption.getD ∅) (o'.toOption.getD ∅) := by
    cases h with
    | ok hm => exact hm
    | error e => exact .empty
  simp only [Resolver.afterReadMany]
  generalize o.toOption.getD ∅ = found, o'.toOption.getD ∅ = found' at hfound
  have hcontains : (fun g : Guard κ => !found'.contains g.key) =
      fun g => !found.contains g.key := by
    funext g
    rw [hfound.contains_eq]
  rw [hcontains]
  -- What is found is resolved alike, key by key.
  split
  · refine .ending (Chore.map_recast_flatMap fun g => ?_)
    rw [hfound g.key]
    cases found[g.key]? <;> rfl
  · refine .asking (Chore.map_recast_flatMap fun g => ?_) (.loadMany _)
    rw [hfound g.key]
    cases found[g.key]? <;> rfl

theorem afterLoadMany (gs : List (Guard κ)) {o : Outcome (Std.HashMap κ ν)}
    {o' : Outcome (Std.HashMap κ μ)} (h : Outcome.Rel (MapRecast f) o o') :
    (Resolver.afterLoadMany gs o).Recast f (.afterLoadMany gs o') := by
  cases h with
  | error e =>
    refine .ending ?_
    rw [List.map_append, Chore.map_recast_dropAll, List.map_map]
    rfl
  | @ok m m' hm =>
    have hpublish : (gs.map fun g => Chore.publish g (.ok m'[g.key]?)) =
        (gs.map fun g => Chore.publish g (.ok m[g.key]?)).map (Chore.recast (Option.map f)) := by
      rw [List.map_map]
      apply List.map_congr_left
      intro g _
      rw [hm g.key]
      rfl
    simp only [Resolver.afterLoadMany, hm.isEmpty_eq]
    -- Without values nothing is written back.
    split
    · refine .ending ?_
      rw [List.map_append, Chore.map_recast_dropAll, hpublish]
    · exact .asking hpublish (.writeMany gs hm)

/-- Replies that differ in their values lead on alike. -/
theorem resume {q : Question κ ν} {q' : Question κ μ} (hq : q.Recast f q') {a : Reply κ ν}
    {a' : Reply κ μ} (ha : a.Recast f a') :
    Option.Rel (Resolver.Recast f) (Resolver.resume q a) (Resolver.resume q' a') := by
  cases hq <;> cases ha
  case read.read g o => exact .some (.afterRead f g o)
  case load.load g r r' h =>
    simp only [Resolver.resume, h]
    exact .some (.afterLoad f g r.outcome)
  case write.written g v o => exact .some (.ending rfl)
  case readMany.readMany gs o o' h => exact .some (.afterReadMany gs h)
  case loadMany.loadMany gs r r' h => exact .some (.afterLoadMany gs h)
  case writeMany.written gs m m' hm o =>
    exact .some (.ending (Chore.map_recast_dropAll _ gs).symm)
  -- A reply of another kind leads nowhere on either side.
  all_goals exact .none

omit [LawfulBEq κ] in
/-- What is left of resolvers that are torn down. -/
theorem torn {q : Question κ ν} {q' : Question κ μ} (hq : q.Recast f q') :
    (Resolver.torn q).Recast f (.torn q') := by
  have hguards : q'.guards = q.guards := by
    cases hq <;> rfl
  refine .ending ?_
  rw [hguards, Chore.map_recast_dropAll]

end Resolver.Recast

/-! ## Delegates -/

/-- Steps that differ in their values. -/
inductive Delegate.Step.Recast (f : ν → μ) : Delegate.Step κ ν → Delegate.Step κ μ → Prop where
  | call (r : Read κ) : Recast f (.call r) (.call r)
  | advance (i : Nat) : Recast f (.advance i) (.advance i)
  | leave (i : Nat) : Recast f (.leave i) (.leave i)
  | chore (i : Nat) : Recast f (.chore i) (.chore i)
  | ask (i : Nat) : Recast f (.ask i) (.ask i)
  | reply (i : Nat) {a : Reply κ ν} {a' : Reply κ μ} : a.Recast f a' →
    Recast f (.reply i a) (.reply i a')
  | tear (i : Nat) : Recast f (.tear i) (.tear i)

/-- Results of reads that differ in their values. -/
inductive ReadResult.Recast (f : ν → μ) : ReadResult κ ν → ReadResult κ μ → Prop where
  | one (o : Outcome (Option ν)) : Recast f (.one o) (.one (o.recast f))
  | many {o : Outcome (Std.HashMap κ ν)} {o' : Outcome (Std.HashMap κ μ)} :
    Outcome.Rel (MapRecast f) o o' → Recast f (.many o) (.many o')

namespace Delegate

/-- Delegates that differ in their values. -/
structure Recast (f : ν → μ) (d : Delegate κ ν) (d' : Delegate κ μ) : Prop where
  flights : d'.flights = d.flights.recast (Option.map f)
  resolvers : ∀ i : Nat, Option.Rel (Resolver.Recast f) d.resolvers[i]? d'.resolvers[i]?
  callers : d'.callers = d.callers
  next : d'.next = d.next
  stats : d'.stats = d.stats

namespace Recast

variable {f : ν → μ} {d : Delegate κ ν} {d' : Delegate κ μ}

/-- New delegates have no values. -/
theorem empty (f : ν → μ) : Recast f ({} : Delegate κ ν) {} where
  flights := by
    simp [Flights.recast]
  resolvers i := by
    simp only [Std.HashMap.getElem?_empty]
    exact .none
  callers := rfl
  next := rfl
  stats := rfl

/-- Resolvers are put in alike. -/
private theorem insert (h : Recast f d d') {r : Resolver κ ν} {r' : Resolver κ μ}
    (hr : r.Recast f r') (i j : Nat) : Option.Rel (Resolver.Recast f)
      (d.resolvers.insert i r)[j]? (d'.resolvers.insert i r')[j]? := by
  rw [get_insert, get_insert]
  split
  · exact .some hr
  · exact h.resolvers j

/-- Resolvers are put back alike. -/
private theorem put (h : Recast f d d') {r : Resolver κ ν} {r' : Resolver κ μ}
    (hr : r.Recast f r') (i j : Nat) : Option.Rel (Resolver.Recast f)
      (putResolver d.resolvers i r)[j]? (putResolver d'.resolvers i r')[j]? := by
  rw [get_putResolver, get_putResolver, hr.isOver_eq]
  split
  · split
    · exact .none
    · exact .some hr
  · exact h.resolvers j

theorem call (h : Recast f d d') (r : Read κ) : Recast f (d.call r) (d'.call r) where
  flights := h.flights
  resolvers := h.resolvers
  callers := by
    simp only [Delegate.call, h.callers, h.next]
  next := by
    simp only [Delegate.call, h.next]
  stats := h.stats

/-- A key is registered alike. -/
theorem register (h : Recast f d d') (i : Nat) (c : Caller κ) (k : κ) (todo : List κ) :
    Recast f (d.register i c k todo) (d'.register i c k todo) := by
  simp only [Delegate.register, h.flights, Flights.recast_register, h.callers, h.next, h.stats]
  split
  · exact ⟨rfl, h.resolvers, rfl, rfl, rfl⟩
  · exact ⟨rfl, h.resolvers, rfl, rfl, rfl⟩

/-- A resolver is started alike. -/
theorem startResolver (h : Recast f d d') (i : Nat) (c : Caller κ) :
    Recast f (d.startResolver i c) (d'.startResolver i c) := by
  have hr : Option.Rel (Resolver.Recast f) (c.resolver? : Option (Resolver κ ν))
      (c.resolver? : Option (Resolver κ μ)) := by
    rw [Caller.resolver?, Caller.resolver?]
    split
    · exact .none
    · exact .some (.asking rfl (.read _))
    · exact .some (.asking rfl (.readMany _))
  -- Whether a resolver is started depends on the guards of the caller alone.
  simp only [Delegate.startResolver]
  generalize (c.resolver? : Option (Resolver κ ν)) = r?,
    (c.resolver? : Option (Resolver κ μ)) = r?' at hr
  rw [h.callers, h.next]
  cases hr with
  | none => exact ⟨h.flights, h.resolvers, rfl, rfl, h.stats⟩
  | some hr => exact ⟨h.flights, h.insert hr d.next, rfl, rfl, h.stats⟩

/-- A caller goes alike. -/
theorem leave (h : Recast f d d') (i : Nat) : Recast f (d.leave i) (d'.leave i) where
  flights := h.flights
  resolvers := h.resolvers
  callers := by
    simp only [Delegate.leave, h.callers]
  next := h.next
  stats := h.stats

/-- A step of a caller is possible alike, and leads on alike. -/
theorem stepCaller? (h : Recast f d d') (i : Nat) (leaves : Bool) :
    Option.Rel (Recast f) (d.stepCaller? i leaves) (d'.stepCaller? i leaves) := by
  rw [Delegate.stepCaller?, Delegate.stepCaller?, h.callers]
  cases d.callers[i]? with
  | none => exact .none
  | some c =>
    -- A caller goes on while it does not wait, and leaves while it does.
    cases leaves <;> cases hw : c.waiting <;> simp only [hw]
    case false.false =>
      refine .some ?_
      rw [Delegate.advance, Delegate.advance]
      split
      · exact h.register i c _ _
      · exact h.startResolver i c
    case true.true =>
      exact .some (h.leave i)
    all_goals exact .none

/-- A resolver does its chores alike. -/
private theorem chore (h : Recast f d d') (i : Nat) (c : Chore κ (Option ν)) {r : Resolver κ ν}
    {r' : Resolver κ μ} (hr : r.Recast f r') :
    Recast f (d.chore i c r) (d'.chore i (c.recast (Option.map f)) r') where
  flights := by
    simp only [Delegate.chore, h.flights, Chore.run_recast]
  resolvers := h.put hr i
  callers := h.callers
  next := h.next
  stats := h.stats

/-- A resolver asks alike. -/
private theorem ask (h : Recast f d d') (i : Nat) {q : Question κ ν} {q' : Question κ μ}
    (hq : q.Recast f q') : Recast f (d.ask i q) (d'.ask i q') where
  flights := h.flights
  resolvers := h.insert ⟨rfl, .some hq, rfl⟩ i
  callers := h.callers
  next := h.next
  stats := by
    simp only [Delegate.ask, h.stats]
    cases hq <;> rfl

/-- Replies tell alike whether loading has failed. -/
private theorem loadFailed_eq {a : Reply κ ν} {a' : Reply κ μ} (ha : a.Recast f a') :
    a'.loadFailed = a.loadFailed := by
  cases ha with
  | @load r r' hr =>
    simp only [Reply.loadFailed, hr]
    rcases r.outcome with e | v? <;> rfl
  | @loadMany r r' hr =>
    simp only [Reply.loadFailed]
    generalize r.outcome = o, r'.outcome = o' at hr
    cases hr <;> rfl
  | _ => rfl

/-- A resolver is torn down alike. -/
private theorem tear (h : Recast f d d') (i : Nat) {q : Question κ ν} {q' : Question κ μ}
    (hq : q.Recast f q') : Recast f (d.tear i q) (d'.tear i q') where
  flights := h.flights
  resolvers := h.put (.torn hq) i
  callers := h.callers
  next := h.next
  stats := h.stats

/-- A resolver goes on alike. -/
private theorem reply (h : Recast f d d') (i : Nat) {a : Reply κ ν} {a' : Reply κ μ}
    (ha : a.Recast f a') {r : Resolver κ ν} {r' : Resolver κ μ} (hr : r.Recast f r') :
    Recast f (d.reply i a r) (d'.reply i a' r') where
  flights := h.flights
  resolvers := h.put hr i
  callers := h.callers
  next := h.next
  stats := by
    simp only [Delegate.reply, h.stats, LoadingStats.addReply, loadFailed_eq ha]

variable [LawfulBEq κ]

/-- Steps that differ in their values are possible alike, and lead on alike. -/
theorem step? (h : Recast f d d') {s : Delegate.Step κ ν} {s' : Delegate.Step κ μ}
    (hs : s.Recast f s') : Option.Rel (Recast f) (d.step? s) (d'.step? s') := by
  -- Whether a step is possible depends on where the resolver stands, which is the same in both.
  cases hs with
  | call r => exact .some (h.call r)
  | advance i => exact h.stepCaller? i false
  | leave i => exact h.stepCaller? i true
  | chore i =>
    have hr := Resolver.Recast.stand (h.resolvers i)
    simp only [Delegate.step?]
    generalize d.resolvers[i]? = r?, d'.resolvers[i]? = r?' at hr
    cases hr with
    | chores c hr => exact .some (h.chore i c hr)
    | _ => exact .none
  | ask i =>
    have hr := Resolver.Recast.stand (h.resolvers i)
    simp only [Delegate.step?]
    generalize d.resolvers[i]? = r?, d'.resolvers[i]? = r?' at hr
    cases hr with
    | question asked hq =>
      cases asked with
      | true => exact .none
      | false => exact .some (h.ask i hq)
    | _ => exact .none
  | reply i ha =>
    have hr := Resolver.Recast.stand (h.resolvers i)
    simp only [Delegate.step?]
    generalize d.resolvers[i]? = r?, d'.resolvers[i]? = r?' at hr
    cases hr with
    | question asked hq =>
      cases asked with
      | true => exact rel_map (Resolver.Recast.resume hq ha) fun hr => h.reply i ha hr
      | false => exact .none
    | _ => exact .none
  | tear i =>
    have hr := Resolver.Recast.stand (h.resolvers i)
    simp only [Delegate.step?]
    generalize d.resolvers[i]? = r?, d'.resolvers[i]? = r?' at hr
    cases hr with
    | question asked hq => exact .some (h.tear i hq)
    | _ => exact .none

omit [LawfulBEq κ] in
/-- The outcomes of promises are there alike. -/
private theorem outcomes?_recast (f : ν → μ) (fl : Flights κ (Option ν))
    (pending : List (κ × Nat)) :
    outcomes? (fl.recast (Option.map f)) pending =
      (outcomes? fl pending).map fun batch => batch.map fun p => (p.1, Outcome.recast f p.2) := by
  induction pending with
  | nil => rfl
  | cons p pending ih =>
    obtain ⟨k, p⟩ := p
    simp only [outcomes?, Flights.recast_outcome?, ih]
    cases fl.outcome? p with
    | none => rfl
    | some o =>
      cases outcomes? fl pending with
      | none => rfl
      | some batch => rfl

/-- Callers get the same but for the values. -/
theorem result? (h : Recast f d d') (i : Nat) :
    Option.Rel (ReadResult.Recast f) (d.result? i) (d'.result? i) := by
  simp only [Delegate.result?, h.callers, h.flights, outcomes?_recast]
  cases d.callers[i]? with
  | none => exact .none
  | some c =>
    simp only [Option.bind_eq_bind, Option.bind_some]
    cases outcomes? d.flights c.pending with
    | none => exact .none
    | some batch =>
      simp only [Option.map_some, Option.bind_some]
      -- A caller that does not wait yet gets nothing; one of several keys gets them gathered.
      split
      · exact .none
      · split
        · cases batch with
          | nil => exact .none
          | cons p batch => exact .some (.one p.2)
        · exact .some (.many (gatherPresent_recast f batch))

end Recast

end Delegate

end CacheLayer
