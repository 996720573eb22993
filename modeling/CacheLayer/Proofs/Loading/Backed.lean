import CacheLayer.Local
import CacheLayer.Proofs.Loading.Sites
import CacheLayer.Span
import CacheLayer.Stamped
/-!
# A delegate and the cache behind it

So far the cache replied whatever it liked. Here a refreshing delegate is run together with a cache
that accepts every write. A write of a resolver or a reload takes effect some time after it was
asked for, each entry by itself, while other callers use the same cache. A plain loading delegate is
one whose reads find nothing stale.

## Key results

- `Backed.turn_of_after?`: what an event does to what is asked for at a site
- `Backed.inv_run`: the invariant of the delegate is kept by every run
-/

namespace CacheLayer

variable {ω κ ν α : Type} [BEq κ] [Hashable κ]

/-- A cache that accepts every write, with states `ω`. -/
structure AcceptingCache (ω κ ν : Type) [BEq κ] [Hashable κ] where
  /-- Reads a key at an instant. -/
  read : Nat → κ → ω → Outcome (Option ν) × ω
  /-- Reads keys at an instant. -/
  readMany : Nat → List κ → ω → Outcome (Std.HashMap κ ν) × ω
  /-- Writes a value at an instant, or deletes the key if there is none. -/
  write : Nat → κ → Option ν → ω → ω
  /-- The value that is kept for a key. -/
  holds : ω → κ → Option ν
  holds_write : ∀ (now : Nat) (k : κ) (v? : Option ν) (s : ω), holds (write now k v? s) k = v?

/-- A store accepts every write. -/
def AcceptingCache.ofStore [LawfulBEq κ] : AcceptingCache (Store κ ν) κ ν where
  read now k s :=
    let (v?, s) := s.get now k
    (.ok v?, s)
  readMany now ks s :=
    let (found, s) := s.getBulk now ks
    (.ok found, s)
  write now k v? s :=
    match v? with
    | some v => s.set now k v
    | none => (s.delete now k).2
  holds s k := s.entries[k]?.map Entry.value
  holds_write now k v? s := by
    cases v? with
    | some v => simp [Store.set]
    | none =>
      -- An expired entry is dropped by the way.
      cases he : s.entries[k]? with
      | none => simp [Store.delete, Store.peekEntry, he]
      | some e =>
        by_cases hexp : e.Expired s.ttl now <;>
          simp [Store.delete, Store.peekEntry, he, hexp, Store.erase, Store.countExpired]

/-- What a read finds for a key. A read that fails finds nothing. -/
def AcceptingCache.found? (c : AcceptingCache ω κ ν) (now : Nat) (r : Read κ) (s : ω) (k : κ) :
    Option ν :=
  match r with
  | .one k' => (c.read now k' s).1.toOption.join
  | .many ks => ((c.readMany now ks s).1.toOption.getD ∅)[k]?

/-- The same end with other values. -/
def LoadEnd.map {β : Type} (f : α → β) : LoadEnd α → LoadEnd β
  | answered o => answered (o.map f)
  | brokeAtCall m => brokeAtCall m
  | brokeLater m => brokeLater m

/-- How a call of the loader for one key or for several ends. -/
inductive LoadAnswer (κ α : Type) [BEq κ] [Hashable κ] where
  | one (r : LoadEnd (Option α))
  | many (r : LoadEnd (Std.HashMap κ α))

namespace LoadAnswer

/-- The reply with the values as they are stored. -/
def reply (wrap : α → ν) : LoadAnswer κ α → Reply κ ν
  | one r => .load (r.map (Option.map wrap))
  | many r => .loadMany (r.map fun m => m.map fun _ => wrap)

end LoadAnswer

/-- A delegate with its cache. -/
structure Backed (ω κ ν : Type) [BEq κ] [Hashable κ] where
  core : RefreshDelegate κ ν
  cache : ω
  /-- The present instant. -/
  now : Nat
  /-- The writes that a site has asked for and that have not taken effect yet. -/
  due : LoadSite → List (κ × Option ν)

/-- What can happen to a delegate and its cache. -/
inductive Backed.Event (ω κ ν α : Type) [BEq κ] [Hashable κ] where
  /-- A step of the delegate that takes no reply. -/
  | own (s : RefreshDelegate.Step κ ν)
  /-- The cache replies to the read of a resolver. -/
  | serve (resolver : Nat)
  /-- The loader answers. -/
  | answer (x : LoadSite) (a : LoadAnswer κ α)
  /-- One of the writes that a site has asked for takes effect. -/
  | land (x : LoadSite) (n : Nat)
  /-- A site is told that all its writes have taken effect. -/
  | written (x : LoadSite)
  /-- A caller's write takes effect, or its deletion if there is no value. -/
  | write (k : κ) (v? : Option ν)
  /-- Others use the cache, or it does something by itself. -/
  | change (f : ω → ω)
  /-- Time passes. -/
  | wait (span : Nat)

namespace Backed

/-- A new delegate with the given retry interval before a cache. -/
def start (retry : Nat) (cache : ω) : Backed ω κ ν := ⟨.ofRetry retry, cache, 0, fun _ => []⟩

/-- The writes that a site is to make and that have not taken effect yet. -/
def pending (w : Backed ω κ ν) (x : LoadSite) : List (κ × Option ν) :=
  match w.core.request? x with
  | some (.write _ entries, false) => entries
  | some (.write _ _, true) => w.due x
  | _ => []

/-- Whether everything has settled: no site has anything to ask for any more. -/
def Settled (w : Backed ω κ ν) : Prop := ∀ x, w.core.request? x = none

section

variable (c : AcceptingCache ω κ ν) (wrap : Nat → α → ν)

/-- Tells a site a reply. -/
def tell? (w : Backed ω κ ν) (x : LoadSite) (answer : Reply κ ν) : Option (Backed ω κ ν) :=
  (w.core.step? (x.told answer)).map fun core => { w with core := core }

/-- Does a step of the delegate. A site that asks for writes has them due. -/
def own? (w : Backed ω κ ν) (s : RefreshDelegate.Step κ ν) : Option (Backed ω κ ν) :=
  (w.core.step? s).map fun core =>
    { w with
      core := core
      due := fun x => if s.asker? = some x then w.pending x else w.due x }

/-- The delegate and its cache after an event, if the event can happen. Values of the loader are
wrapped at the instant when they arrive. -/
def after? (w : Backed ω κ ν) : Event ω κ ν α → Option (Backed ω κ ν)
  | .own s => if s.isFree then w.own? s else none
  | .serve i =>
    match w.core.request? (.miss i) with
    | some (.read (.one k), true) =>
      let (r, cache) := c.read w.now k w.cache
      { w with cache := cache }.tell? (.miss i) (.read r)
    | some (.read (.many ks), true) =>
      let (r, cache) := c.readMany w.now ks w.cache
      { w with cache := cache }.tell? (.miss i) (.readMany r)
    | _ => none
  | .answer x a =>
    match w.core.request? x with
    | some (.load _, true) => w.tell? x (a.reply (wrap w.now))
    | _ => none
  | .land x n =>
    match w.core.request? x, (w.due x)[n]? with
    | some (.write _ _, true), some (k, v?) =>
      some { w with
        cache := c.write w.now k v? w.cache
        due := fun y => if y = x then (w.due x).eraseIdx n else w.due y }
    | _, _ => none
  | .written x =>
    match w.core.request? x, w.due x with
    | some (.write _ _, true), [] => w.tell? x (.written (.ok ()))
    | _, _ => none
  | .write k v? => some { w with cache := c.write w.now k v? w.cache }
  | .change f => some { w with cache := f w.cache }
  | .wait span => some { w with now := w.now + span }

/-- The delegate and its cache after a run, if the run can happen. -/
def run? (w : Backed ω κ ν) : List (Event ω κ ν α) → Option (Backed ω κ ν)
  | [] => some w
  | e :: es => (w.after? c wrap e).bind fun w' => w'.run? es

/-- Whether something is so of every event of a run, told by the states before and after it. -/
def Throughout (P : Backed ω κ ν → Event ω κ ν α → Backed ω κ ν → Prop) (w : Backed ω κ ν) :
    List (Event ω κ ν α) → Prop
  | [] => True
  | e :: es =>
    match w.after? c wrap e with
    | none => True
    | some w' => P w e w' ∧ w'.Throughout P es

end

/-! ## Events -/

/-- The site that an event brings on. -/
def Event.site? : Event ω κ ν α → Option LoadSite
  | .own s => s.asker?
  | .serve i => some (.miss i)
  | .answer x _ => some x
  | .written x => some x
  | _ => none

/-- What an event does to what is asked for at a site: it leaves that alone, or the site begins, or
asks, or is told a reply. -/
inductive Turn (c : AcceptingCache ω κ ν) (wrap : Nat → α → ν) (w : Backed ω κ ν) (x : LoadSite) :
    Event ω κ ν α → Option (Request κ ν × Bool) → Option (Request κ ν × Bool) → Prop where
  | stay {e : Event ω κ ν α} {q? : Option (Request κ ν × Bool)} : e.site? ≠ some x →
    Turn c wrap w x e q? q?
  | read {s : RefreshDelegate.Step κ ν} (r : Read κ) : ¬ w.core.Knows x →
    Turn c wrap w x (.own s) none (some (.read r, false))
  | load {s : RefreshDelegate.Step κ ν} (r : Read κ) : ¬ w.core.Knows x → x.inBackground = true →
    Turn c wrap w x (.own s) none (some (.load r, true))
  | ask {s : RefreshDelegate.Step κ ν} (q : Request κ ν) : s.asker? = some x →
    Turn c wrap w x (.own s) (some (q, false)) (some (q, true))
  | serve {i : Nat} {r : Read κ} {q? : Option (Request κ ν)} : x = .miss i →
    (∀ q, q? = some q → ∃ call : Read κ, q = .load call ∧
      ∀ k ∈ call.keys, k ∈ r.keys ∧ c.found? w.now r w.cache k = none) →
    Turn c wrap w x (.serve i) (some (.read r, true)) (q?.map fun q => (q, false))
  | answer {a : LoadAnswer κ α} {call : Read κ} :
    Turn c wrap w x (.answer x a) (some (.load call, true))
      (((Request.load call).next? x.inBackground (a.reply (wrap w.now))).map fun q => (q, false))
  | written {ks : List κ} {entries : List (κ × Option ν)} : w.due x = [] →
    Turn c wrap w x (.written x) (some (.write ks entries, true)) none

section

variable {c : AcceptingCache ω κ ν} {wrap : Nat → α → ν} {w w' : Backed ω κ ν}

/-- Telling a site a reply lets it go on and leaves the other sites alone. -/
theorem request?_of_tell? {x : LoadSite} {answer : Reply κ ν} (h : w.tell? x answer = some w') :
    ∃ q, w.core.request? x = some (q, true) ∧
      w'.core.request? x = (q.next? x.inBackground answer).map (fun q' => (q', false)) ∧
      ∀ y, y ≠ x → w'.core.request? y = w.core.request? y := by
  obtain ⟨core, hcore, rfl⟩ := Option.map_eq_some_iff.1 h
  exact RefreshDelegate.request?_of_told hcore

/-- What a resolver has to load after a read is not found. -/
private theorem next?_read {k : κ} {r : Outcome (Option ν)} {q : Request κ ν}
    (h : (Request.read (.one k)).next? false (.read r) = some q) :
    q = .load (.one k) ∧ r.toOption.join = none := by
  rcases r with e | _ | v
  · exact ⟨(Option.some.inj h).symm, rfl⟩
  · exact ⟨(Option.some.inj h).symm, rfl⟩
  · cases h

private theorem next?_readMany [LawfulBEq κ] {ks : List κ} {r : Outcome (Std.HashMap κ ν)}
    {q : Request κ ν} (h : (Request.read (.many ks)).next? false (.readMany r) = some q) :
    ∃ missing, q = .load (.many missing) ∧
      ∀ k ∈ missing, k ∈ ks ∧ (r.toOption.getD ∅)[k]? = none := by
  simp only [Request.next?] at h
  split at h
  · cases h
  · refine ⟨_, (Option.some.inj h).symm, fun k hk => ?_⟩
    -- What is loaded are the keys that the answer has no value for.
    obtain ⟨hks, hnot⟩ := List.mem_filter.1 hk
    refine ⟨hks, ?_⟩
    exact Std.HashMap.getElem?_eq_none_of_contains_eq_false (by simpa using hnot)

/-- Telling a site a reply is a turn of this site, and of no other one. -/
private theorem turn_of_tell? {x y : LoadSite} {e : Event ω κ ν α} {s : ω} {answer : Reply κ ν}
    {q : Request κ ν} (he : e.site? = some y) (hq : w.core.request? y = some (q, true))
    (h : ({ w with cache := s } : Backed ω κ ν).tell? y answer = some w')
    (hturn : Turn c wrap w y e (some (q, true))
      ((q.next? y.inBackground answer).map fun q' => (q', false))) :
    Turn c wrap w x e (w.core.request? x) (w'.core.request? x) := by
  obtain ⟨q', hq', hnext, hother⟩ := request?_of_tell? h
  obtain rfl : q = q' := congrArg Prod.fst (Option.some.inj (hq.symm.trans hq'))
  -- Only the site that is told something goes on.
  by_cases hx : x = y
  · subst hx
    rw [hnext, hq]
    exact hturn
  · rw [hother x hx]
    exact .stay fun heq => hx (Option.some.inj (heq.symm.trans he))

/-- What an event can do to a site. -/
theorem turn_of_after? [LawfulBEq κ] {e : Event ω κ ν α} (h : w.core.Inv)
    (he : w.after? c wrap e = some w') (x : LoadSite) :
    Turn c wrap w x e (w.core.request? x) (w'.core.request? x) := by
  -- What the delegate does by itself is known from its own steps; in the other events a site is
  -- told something, or the delegate is left alone.
  cases e with
  | own s =>
    simp only [after?] at he
    split at he
    · next hfree =>
      obtain ⟨core, hcore, rfl⟩ := Option.map_eq_some_iff.1 he
      have hturn := (RefreshDelegate.moves_of_step? hcore).turn h hfree x
      revert hturn
      generalize w.core.request? x = q?, core.request? x = q?'
      intro hturn
      cases hturn with
      | stay hs => exact .stay hs
      | read r hnew => exact .read r hnew
      | load r hnew hback => exact .load r hnew hback
      | ask q hs => exact .ask q hs
    · exact nomatch he
  | serve i =>
    simp only [after?] at he
    split at he
    · next k hq =>
      -- Whatever the resolver asks for next, it is for keys that were not found.
      refine turn_of_tell? rfl hq he (.serve rfl fun q hq => ?_)
      obtain ⟨rfl, hmiss⟩ := next?_read hq
      refine ⟨_, rfl, fun k' hk' => ⟨hk', ?_⟩⟩
      exact hmiss
    · next ks hq =>
      refine turn_of_tell? rfl hq he (.serve rfl fun q hq => ?_)
      obtain ⟨missing, rfl, hmiss⟩ := next?_readMany hq
      exact ⟨.many missing, rfl, hmiss⟩
    · exact nomatch he
  | answer y a =>
    simp only [after?] at he
    split at he
    · next call hq => exact turn_of_tell? rfl hq he .answer
    · exact nomatch he
  | written y =>
    simp only [after?] at he
    split at he
    · next ks entries hq hdue => exact turn_of_tell? rfl hq he (.written hdue)
    · exact nomatch he
  | land y n =>
    simp only [after?] at he
    split at he
    · obtain rfl := Option.some.inj he
      exact .stay nofun
    · exact nomatch he
  | write k v? =>
    obtain rfl := Option.some.inj he
    exact .stay nofun
  | change f =>
    obtain rfl := Option.some.inj he
    exact .stay nofun
  | wait span =>
    obtain rfl := Option.some.inj he
    exact .stay nofun

/-- What an event does as a whole: the delegate is left alone, or takes a step by itself, or a site
is told a reply, or a write that is due takes effect. -/
theorem after?_cases {e : Event ω κ ν α} (he : w.after? c wrap e = some w') :
    (∃ cache now, w' = { w with cache := cache, now := now }) ∨
    (∃ s core, e = .own s ∧ w.core.step? s = some core ∧
      w' = { w with
        core := core
        due := fun x => if s.asker? = some x then w.pending x else w.due x }) ∨
    (∃ (cache : ω) (x : LoadSite) (answer : Reply κ ν) (core : RefreshDelegate κ ν),
      w.core.step? (x.told answer) = some core ∧ w' = { w with core := core, cache := cache }) ∨
    ∃ x n cache, e = .land x n ∧
      w' = { w with
        cache := cache
        due := fun y => if y = x then (w.due x).eraseIdx n else w.due y } := by
  -- The events that tell a site a reply are alike.
  have told : ∀ {s : ω} {x : LoadSite} {answer : Reply κ ν},
      ({ w with cache := s } : Backed ω κ ν).tell? x answer = some w' →
      ∃ (cache : ω) (x : LoadSite) (answer : Reply κ ν) (core : RefreshDelegate κ ν),
        w.core.step? (x.told answer) = some core ∧
          w' = { w with core := core, cache := cache } := by
    intro s x answer htell
    obtain ⟨core, hcore, rfl⟩ := Option.map_eq_some_iff.1 htell
    exact ⟨s, x, answer, core, hcore, rfl⟩
  cases e with
  | own s =>
    simp only [after?] at he
    split at he
    · obtain ⟨core, hcore, rfl⟩ := Option.map_eq_some_iff.1 he
      exact .inr (.inl ⟨s, core, rfl, hcore, rfl⟩)
    · exact nomatch he
  | serve i =>
    simp only [after?] at he
    split at he
    · exact .inr (.inr (.inl (told he)))
    · exact .inr (.inr (.inl (told he)))
    · exact nomatch he
  | answer y a =>
    simp only [after?] at he
    split at he
    · exact .inr (.inr (.inl (told he)))
    · exact nomatch he
  | written y =>
    simp only [after?] at he
    split at he
    · exact .inr (.inr (.inl (told he)))
    · exact nomatch he
  | land y n =>
    simp only [after?] at he
    split at he
    · exact .inr (.inr (.inr ⟨y, n, _, rfl, (Option.some.inj he).symm⟩))
    · exact nomatch he
  | write k v? => exact .inl ⟨_, w.now, (Option.some.inj he).symm⟩
  | change f => exact .inl ⟨_, w.now, (Option.some.inj he).symm⟩
  | wait span => exact .inl ⟨w.cache, _, (Option.some.inj he).symm⟩

/-- In an event the delegate does nothing or takes one step. -/
theorem core_of_after? {e : Event ω κ ν α} (he : w.after? c wrap e = some w') :
    w'.core = w.core ∨ ∃ s, w.core.step? s = some w'.core := by
  rcases after?_cases he with ⟨cache, now, rfl⟩ | ⟨s, core, -, hcore, rfl⟩ |
    ⟨cache, x, answer, core, hcore, rfl⟩ | ⟨x, n, cache, -, rfl⟩
  · exact .inl rfl
  · exact .inr ⟨s, hcore⟩
  · exact .inr ⟨_, hcore⟩
  · exact .inl rfl

/-- The invariant of the delegate is kept by every event. -/
theorem inv_after [LawfulBEq κ] {e : Event ω κ ν α} (h : w.core.Inv)
    (he : w.after? c wrap e = some w') : w'.core.Inv := by
  rcases core_of_after? he with hcore | ⟨s, hs⟩
  · exact hcore ▸ h
  · exact h.moves (RefreshDelegate.moves_of_step? hs)

/-- A site that has begun has begun for good. -/
theorem knows_after {e : Event ω κ ν α} (he : w.after? c wrap e = some w') {x : LoadSite}
    (hx : w.core.Knows x) : w'.core.Knows x := by
  rcases core_of_after? he with hcore | ⟨s, hs⟩
  · exact hcore ▸ hx
  · exact (RefreshDelegate.moves_of_step? hs).knows hx

/-- A run in two parts. -/
theorem run?_append (c : AcceptingCache ω κ ν) (wrap : Nat → α → ν) (w : Backed ω κ ν)
    (es es' : List (Event ω κ ν α)) :
    w.run? c wrap (es ++ es') = (w.run? c wrap es).bind fun w' => w'.run? c wrap es' := by
  induction es generalizing w with
  | nil => rfl
  | cons e es ih =>
    rw [List.cons_append, run?, run?, Option.bind_assoc]
    exact congrArg _ (funext ih)

/-- What every event keeps, every run keeps. -/
theorem run?_inv {P : Backed ω κ ν → Prop}
    (hstep : ∀ (w w' : Backed ω κ ν) (e : Event ω κ ν α), P w → w.after? c wrap e = some w' → P w')
    {es : List (Event ω κ ν α)} (h : P w) (hrun : w.run? c wrap es = some w') : P w' := by
  induction es generalizing w with
  | nil =>
    obtain rfl := Option.some.inj hrun
    exact h
  | cons e es ih =>
    obtain ⟨w₁, he, hrun⟩ := Option.bind_eq_some_iff.1 hrun
    exact ih (hstep w w₁ e h he) hrun

/-- The invariant of the delegate is kept by every run. -/
theorem inv_run [LawfulBEq κ] {es : List (Event ω κ ν α)} (h : w.core.Inv)
    (hrun : w.run? c wrap es = some w') : w'.core.Inv :=
  run?_inv (P := fun w => w.core.Inv) (fun _ _ _ h he => inv_after h he) h hrun

end

end Backed

end CacheLayer
