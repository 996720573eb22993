import CacheLayer.Proofs.Loading.Trigger
import CacheLayer.Proofs.Loading.WriteBack
import CacheLayer.Proofs.Update.Traffic
/-!
# Delegates over a local cache

A loading delegate, and a refreshing one, with a local cache behind it and callers in front. What
happens is told in terms of plain values, so that the same events can happen to both kinds of
delegate. A refreshing delegate keeps its values with their stamps: those of the loader are stamped
when they arrive, those of callers when they are handed over, and those of mappers when the mapper
answers. It is only later that a value is stored, and time may pass until then.

## Key results

- `Layered.after?`: what an event does, and what is seen of it
- `Layered.run?`: a run with all that is seen of it
- `Layered.mapStep?_of_update`: updates take the steps of `Update.step`, with a pause while the
  mapper is at work
- `Layered.run?_puts`: entries that are stored without a pause are stored as by `Store.setBulk`
-/

namespace CacheLayer

variable {δ κ ν α : Type} [BEq κ] [Hashable κ]

namespace LoadSite

/-- The step in which a site does its next chore at an instant. -/
def choring (now : Nat) : LoadSite → RefreshDelegate.Step κ ν
  | miss i => .loading (.chore i)
  | reload i => .chore now i

/-- The step in which a site asks its question. -/
def asking : LoadSite → RefreshDelegate.Step κ ν
  | miss i => .loading (.ask i)
  | reload i => .ask i

end LoadSite

/-- A kind of delegate, as far as its surroundings can tell. Its states are `δ`, and what it keeps
for a plain value of type `α` is of type `ν`. -/
structure DelegateKind (δ κ ν α : Type) [BEq κ] [Hashable κ] where
  step? : δ → RefreshDelegate.Step κ ν → Option δ
  /-- What a site asks for next, and whether it has asked. -/
  request? : δ → LoadSite → Option (Request κ ν × Bool)
  /-- What a caller gets, if everything that it waits for is there. -/
  result? : δ → Nat → Option (ReadResult κ ν)
  /-- Ends a read at an instant that has found these keys stale. -/
  finish? : Nat → δ → Nat → List κ → Option δ
  /-- The call of the loader with which a reload has begun in a step. -/
  begun? : δ → δ → Option (Read κ)
  /-- What is kept for a plain value at an instant. -/
  wrap : Nat → α → ν
  /-- The plain value. -/
  plain : ν → α

namespace DelegateKind

/-- A loading delegate keeps plain values, and nothing is ever stale. -/
def loading : DelegateKind (Delegate κ α) κ α α where
  step? d s :=
    match s with
    | .loading s => d.step? s
    | _ => none
  request? d x :=
    match x with
    | .miss i => d.resolvers[i]?.bind Resolver.request?
    | .reload _ => none
  result? := Delegate.result?
  finish? _ d caller stale :=
    if stale.isEmpty ∧ (d.result? caller).isSome then some (d.leave caller) else none
  begun? _ _ := none
  wrap _ v := v
  plain v := v

/-- A refreshing delegate keeps stamped values. -/
def refreshing (p : RefreshSetting) :
    DelegateKind (RefreshDelegate κ (Stamped α)) κ (Stamped α) α where
  step? := RefreshDelegate.step?
  request? := RefreshDelegate.request?
  result? d := d.delegate.result?
  finish? now d caller stale := d.finish? (fun v => p.Stale now v) caller stale
  begun? d d' := d'.loaderCall? (.reload d.next)
  wrap := Stamped.stamp p.epoch
  plain := Stamped.value

/-- A mapper of plain values, as it maps what is kept of them. What it answers at an instant is kept
as a value of that instant. -/
def mapper (K : DelegateKind δ κ ν α) (now : Nat) (f : Mapper α) : Mapper ν :=
  fun current => (f (current.map K.plain)).map (K.wrap now)

end DelegateKind

/-- Where an update of a caller stands. -/
inductive Mapping (ν : Type) where
  /-- The next attempt reads. -/
  | toRead (left : Nat)
  /-- The mapper has been called with a value and has not answered yet. -/
  | toMap (left : Nat) (version? : Option Nat) (current : Option ν)
  /-- The mapper has answered with a value to be written. -/
  | toWrite (left : Nat) (version? : Option Nat) (value : ν)
  | done (answer : Outcome Bool)

/-- An update whose mapper is not at work. -/
def Mapping.ofUpdate : Update (Option Nat) ν → Mapping ν
  | .toRead left => .toRead left
  | .toWrite left version? v => .toWrite left version? v
  | .done answer => .done answer

/-- A call of an update. -/
structure MapperCall (κ ν : Type) where
  key : κ
  state : Mapping ν

/-- A write of a caller, of one entry or of several. -/
structure Writing (κ ν α : Type) where
  /-- Whether one entry is written, and not several. -/
  single : Bool
  /-- The entries that have not been taken up yet. -/
  todo : List (κ × α)
  /-- What is kept for the entries that have been, as long as it is not stored. -/
  kept : List (κ × ν)
  /-- The keys whose values are stored. -/
  stored : List κ
  answered : Bool

/-- A write that begins. -/
def Writing.start (single : Bool) (entries : List (κ × α)) : Writing κ ν α :=
  ⟨single, entries, [], [], false⟩

/-- Writes a value, or deletes the key if there is none. -/
def Store.write (s : Store κ ν) (now : Nat) (k : κ) : Option ν → Store κ ν
  | some v => s.set now k v
  | none => (s.delete now k).2

/-- A delegate over a local cache. -/
structure Layered (δ κ ν α : Type) [BEq κ] [Hashable κ] where
  core : δ
  cache : Swept (LocalCache κ ν)
  /-- The writes of sites that have taken effect, each with its site. -/
  landed : List (LoadSite × κ)
  /-- The writes that callers have begun. -/
  writes : List (Writing κ ν α)
  /-- The updates that callers have begun. One whose caller goes away, or whose mapper breaks off,
  takes no more steps. -/
  calls : List (MapperCall κ ν)

/-- What a caller sees of the result of a read. -/
inductive Seen (κ α : Type) where
  | one (r : Outcome (Option α))
  /-- What is found for each key. -/
  | many (r : Outcome (κ → Option α))

/-- The result of a read, as its caller sees it. -/
def ReadResult.seen (plain : ν → α) : ReadResult κ ν → Seen κ α
  | one r => .one (r.recast plain)
  | many r => .many (r.map fun m k => m[k]?.map plain)

namespace Layered

/-- What can happen. -/
inductive Event (κ α : Type) [BEq κ] [Hashable κ] where
  /-- A read begins. -/
  | call (r : Read κ)
  /-- A caller registers its next key, or has its resolver started. -/
  | advance (caller : Nat)
  /-- A caller that waits goes away. -/
  | leave (caller : Nat)
  /-- A read ends and has found these keys stale. -/
  | finish (caller : Nat) (stale : List κ)
  /-- Who has found keys stale takes the next step in having them loaded again. -/
  | restart (starter : Nat)
  /-- A site does its next chore. -/
  | chore (x : LoadSite)
  /-- A site asks its question. -/
  | ask (x : LoadSite)
  /-- A site is torn down while it waits. -/
  | tear (x : LoadSite)
  /-- The cache answers the read of a site. It does so in one go. -/
  | serve (x : LoadSite)
  /-- The cache does one of the writes that a site has asked for. They come in any order, and
  anything may happen in between. -/
  | land (x : LoadSite) (k : κ)
  /-- All writes that a site has asked for are done. -/
  | written (x : LoadSite)
  /-- The loader answers a site, or breaks off. -/
  | answer (x : LoadSite) (a : LoadAnswer κ α)
  /-- A caller begins to write a value. -/
  | set (k : κ) (v : α)
  /-- A caller begins to write entries, which come in any order. -/
  | setMany (entries : List (κ × α))
  /-- The next value of a caller's write is taken up. -/
  | takeUp (i : Nat)
  /-- The cache stores the `n`-th of the values of a caller's write that are left, all of which have
  been taken up. They are stored in any order, and anything may happen in between. -/
  | put (i n : Nat)
  /-- A caller's write answers: all of it is stored. -/
  | wrote (i : Nat)
  /-- A caller deletes. -/
  | delete (k : κ)
  /-- A caller begins an update. -/
  | update (k : κ) (attempts : Nat)
  /-- An update takes its next step; should its mapper answer, the mapper is `f`. -/
  | updateStep (i : Nat) (f : Mapper α)
  /-- The expired entries of the cache are dropped. -/
  | sweep
  /-- Time passes. -/
  | wait (span : Nat)

/-- What is seen of an event. -/
inductive Output (κ α : Type) where
  | nothing
  /-- A read answers. -/
  | read (r : Seen κ α)
  /-- The loader is called. -/
  | called (call : Read κ)
  /-- A call of the loader ends. -/
  | answered (call : Read κ)
  /-- A mapper is called and shown the current value. -/
  | shown (current : Option α)
  /-- A value is handed over, to be stored for a key. -/
  | given (k : κ) (v : α)
  /-- A write, a deletion or an update answers. -/
  | done (r : Outcome Bool)
  /-- A write of several entries answers. -/
  | doneMany (r : Outcome (κ → Option Bool))

/-- What is seen when a site asks what it is about to ask for. -/
def Output.ofRequest : Option (Request κ ν × Bool) → Output κ α
  | some (.load call, false) => .called call
  | _ => .nothing

/-- What is seen when a reload may have begun. -/
def Output.ofCall : Option (Read κ) → Output κ α
  | some call => .called call
  | none => .nothing

/-- What is seen when a write answers. -/
def Output.ofWriting (c : Writing κ ν α) : Output κ α :=
  if c.single then .done (.ok true)
  else .doneMany (.ok fun k => if c.stored.contains k then some true else none)

/-- The present instant. -/
def now (w : Layered δ κ ν α) : Nat := w.cache.now

/-- The store of the cache. -/
def inStore (w : Layered δ κ ν α) : Store κ ν := w.cache.state.store

/-- A delegate before an empty cache with the limits of a configuration. -/
def start (core : δ) (c : Config) : Layered δ κ ν α := ⟨core, .start (.ofConfig c), [], [], []⟩

section

variable (K : DelegateKind δ κ ν α)

/-- Does a step of the delegate, of which `out` is seen. -/
def own? (w : Layered δ κ ν α) (s : RefreshDelegate.Step κ ν) (out : Output κ α) :
    Option (Output κ α × Layered δ κ ν α) :=
  (K.step? w.core s).map fun core => (out, { w with core := core })

/-- Uses the cache, and tells a site the reply. -/
def tell? (w : Layered δ κ ν α) (x : LoadSite) (out : Output κ α)
    (use : Store κ ν → Nat → Reply κ ν × Store κ ν) : Option (Output κ α × Layered δ κ ν α) :=
  let (reply, cache) := w.cache.onStore use
  { w with cache := cache }.own? K (x.told reply) out

/-- Lets a caller use the cache. -/
def use (w : Layered δ κ ν α) (f : Store κ ν → Nat → Output κ α × Store κ ν) :
    Output κ α × Layered δ κ ν α :=
  let (out, cache) := w.cache.onStore f
  (out, { w with cache := cache })

/-- Does the next step of an update of a key. Should its mapper answer in it, the mapper is `f`. An
update that has its answer takes no more steps. -/
def mapStep? (k : κ) (f : Mapper α) :
    Mapping ν → Swept (LocalCache κ ν) → Option (Output κ α × Mapping ν × Swept (LocalCache κ ν))
  | .toRead 0, cache => some (.done (.ok false), .done (.ok false), cache)
  | .toRead (left + 1), cache =>
    match (Swept.updater k).read cache with
    | (.ok (current, version?), cache) =>
      some (.shown (current.map K.plain), .toMap left version? current, cache)
    | (.error e, cache) => some (.done (.error e), .done (.error e), cache)
  | .toMap left version? current, cache =>
    match f (current.map K.plain) with
    -- What the mapper has answered is stamped now, before it is written.
    | some v => some (.given k v, .toWrite left version? (K.wrap cache.now v), cache)
    | none => some (.done (.ok false), .done (.ok false), cache)
  | .toWrite left version? v, cache =>
    match (Swept.updater k).write version? v cache with
    | (.ok (some answer), cache) => some (.done (.ok answer), .done (.ok answer), cache)
    | (.ok none, cache) => some (.nothing, .toRead left, cache)
    | (.error e, cache) => some (.done (.error e), .done (.error e), cache)
  | .done _, _ => none

/-- What is seen of an event, and the delegate and its cache after it, if the event can happen. -/
def after? (w : Layered δ κ ν α) : Event κ α → Option (Output κ α × Layered δ κ ν α)
  -- Callers begin their reads, register their keys, and end.
  | .call r => w.own? K (.loading (.call r)) .nothing
  | .advance i => w.own? K (.loading (.advance i)) .nothing
  | .leave i => w.own? K (.loading (.leave i)) .nothing
  | .finish i stale =>
    match K.result? w.core i, K.finish? w.now w.core i stale with
    | some r, some core => some (.read (r.seen K.plain), { w with core := core })
    | _, _ => none
  | .restart i =>
    (K.step? w.core (.advance w.now i)).map fun core =>
      (.ofCall (K.begun? w.core core), { w with core := core })
  -- Sites do what is due, and are replied to by the cache and the loader.
  | .chore x => w.own? K (x.choring w.now) .nothing
  | .ask x => w.own? K x.asking (.ofRequest (K.request? w.core x))
  | .tear x => w.own? K x.tearing .nothing
  | .serve x =>
    match K.request? w.core x with
    | some (.read (.one k), true) => w.tell? K x .nothing fun s now =>
      let (v?, s) := s.get now k
      (.read (.ok v?), s)
    | some (.read (.many ks), true) => w.tell? K x .nothing fun s now =>
      let (found, s) := s.getBulk now ks
      (.readMany (.ok found), s)
    | _ => none
  | .land x k =>
    match K.request? w.core x with
    | some (.write _ entries, true) =>
      match entries.lookup k with
      | some v? =>
        if w.landed.contains (x, k) then none
        else
          -- The value is stored as it arrived: it has its stamp already.
          let (_, cache) := w.cache.onStore fun s now => ((), s.write now k v?)
          some (.nothing, { w with cache := cache, landed := (x, k) :: w.landed })
      | none => none
    | _ => none
  | .written x =>
    match K.request? w.core x with
    | some (.write _ entries, true) =>
      if entries.all fun e => w.landed.contains (x, e.1) then
        w.own? K (x.told (.written (.ok ()))) .nothing
      else none
    | _ => none
  | .answer x a =>
    match K.request? w.core x with
    | some (.load call, true) => w.own? K (x.told (a.reply (K.wrap w.now))) (.answered call)
    | _ => none
  -- Callers write by themselves, past the resolvers and the reloads.
  | .set k v => some (.nothing, { w with writes := w.writes ++ [.start true [(k, v)]] })
  | .setMany entries => some (.nothing, { w with writes := w.writes ++ [.start false entries] })
  | .takeUp i =>
    match w.writes[i]? with
    | some ⟨single, (k, v) :: todo, kept, stored, answered⟩ =>
      let c := ⟨single, todo, kept ++ [(k, K.wrap w.now v)], stored, answered⟩
      some (.given k v, { w with writes := w.writes.set i c })
    | _ => none
  | .put i n =>
    match w.writes[i]? with
    | some ⟨single, [], kept, stored, answered⟩ =>
      match kept[n]? with
      | some (k, v) =>
        let c := ⟨single, [], kept.eraseIdx n, k :: stored, answered⟩
        let (_, cache) := w.cache.onStore fun s now => ((), s.set now k v)
        some (.nothing, { w with cache := cache, writes := w.writes.set i c })
      | none => none
    | _ => none
  | .wrote i =>
    match w.writes[i]? with
    | some ⟨single, [], [], stored, false⟩ =>
      let c := ⟨single, [], [], stored, true⟩
      some (.ofWriting c, { w with writes := w.writes.set i c })
    | _ => none
  | .delete k => some (w.use fun s now =>
      let (found, s) := s.delete now k
      (.done (.ok found), s))
  | .update k attempts => some (.nothing, { w with calls := w.calls ++ [⟨k, .toRead attempts⟩] })
  | .updateStep i f =>
    match w.calls[i]? with
    | none => none
    | some c => (mapStep? K c.key f c.state w.cache).map fun (out, state, cache) =>
      (out, { w with cache := cache, calls := w.calls.set i { c with state := state } })
  | .sweep => some (w.use fun s now => (.nothing, (s.sweep now).2))
  | .wait span => some (.nothing, { w with cache := w.cache.advance span })

/-- A run, if it can happen: every event with its instant and with what is seen of it, and the
delegate and its cache in the end. -/
def run? (w : Layered δ κ ν α) :
    List (Event κ α) → Option (List (Nat × Event κ α × Output κ α) × Layered δ κ ν α)
  | [] => some ([], w)
  | e :: es =>
    (w.after? K e).bind fun r => (r.2.run? es).map fun r' => ((w.now, e, r.1) :: r'.1, r'.2)

/-- A run that goes on. -/
theorem run?_append {w w' : Layered δ κ ν α} {es : List (Event κ α)}
    {seen : List (Nat × Event κ α × Output κ α)} (h : w.run? K es = some (seen, w'))
    (es' : List (Event κ α)) :
    w.run? K (es ++ es') = (w'.run? K es').map fun r => (seen ++ r.1, r.2) := by
  induction es generalizing w seen with
  | nil =>
    obtain ⟨rfl, rfl⟩ := Prod.mk.inj (Option.some.inj h)
    exact Option.map_id'.symm
  | cons e es ih =>
    obtain ⟨⟨out, w₁⟩, he, hrun⟩ := Option.bind_eq_some_iff.1 h
    obtain ⟨⟨seen₁, w₂⟩, hes, heq⟩ := Option.map_eq_some_iff.1 hrun
    obtain ⟨rfl, rfl⟩ := Prod.mk.inj heq
    rw [List.cons_append, run?, he, Option.bind_some, ih hes, Option.map_map]
    rfl

/-! ## Updates and writes without a pause -/

/-- An update takes the steps of `Update.step`, but an attempt that calls its mapper takes one step
for that and another one when the mapper answers. -/
theorem mapStep?_of_update (k : κ) (f : Mapper α) {u : Update (Option Nat) ν}
    (hu : ∀ answer, u ≠ .done answer) (cache : Swept (LocalCache κ ν)) :
    let r := Update.step (Swept.updater k) (K.mapper cache.now f) u cache
    (∃ out, mapStep? K k f (.ofUpdate u) cache = some (out, .ofUpdate r.1, r.2)) ∨
      ∃ current state cache' out,
        mapStep? K k f (.ofUpdate u) cache = some (.shown current, state, cache') ∧
        mapStep? K k f state cache' = some (out, .ofUpdate r.1, r.2) := by
  cases u with
  | done answer => exact absurd rfl (hu answer)
  | toRead left =>
    cases left with
    | zero => exact .inl ⟨_, rfl⟩
    | succ left =>
      -- A local cache can always be read, at the same instant.
      obtain ⟨current, version?, cache', hread, hnow⟩ : ∃ current version? cache',
          (Swept.updater k).read cache = (.ok (current, version?), cache') ∧
            cache'.now = cache.now := ⟨_, _, _, rfl, rfl⟩
      right
      refine ⟨current.map K.plain, .toMap left version? current, cache', ?_⟩
      simp only [Update.step, Mapping.ofUpdate, mapStep?, hread, Update.afterRead,
        DelegateKind.mapper, hnow]
      cases f (current.map K.plain) with
      | none => exact ⟨.done (.ok false), trivial, rfl⟩
      | some v => exact ⟨.given k v, trivial, rfl⟩
  | toWrite left version? v =>
    left
    rcases hwrite : (Swept.updater k).write version? v cache with ⟨e | _ | answer, cache'⟩ <;>
      simp only [Update.step, Mapping.ofUpdate, mapStep?, hwrite, Update.afterWrite]
    · exact ⟨.done (.error e), rfl⟩
    · exact ⟨.nothing, rfl⟩
    · exact ⟨.done (.ok answer), rfl⟩

/-- Entries that are stored one after the other without a pause are stored as `Store.setBulk` stores
them. -/
theorem run?_puts {w : Layered δ κ ν α} {i : Nat} {single answered : Bool} {stored : List κ}
    {kept : List (κ × ν)} (hw : w.writes[i]? = some ⟨single, [], kept, stored, answered⟩) :
    ∃ seen w', w.run? K (List.replicate kept.length (.put i 0)) = some (seen, w') ∧
      w'.inStore = (w.inStore.setBulk w.now kept).2 ∧
      w'.writes[i]? =
        some ⟨single, [], [], (kept.map Prod.fst).reverse ++ stored, answered⟩ := by
  induction kept generalizing w stored with
  | nil => exact ⟨[], w, rfl, rfl, hw⟩
  | cons e kept ih =>
    obtain ⟨k, v⟩ := e
    let w₁ : Layered δ κ ν α := { w with
      cache := (w.cache.onStore fun s now => ((), s.set now k v)).2
      writes := w.writes.set i ⟨single, [], kept, k :: stored, answered⟩ }
    have he : w.after? K (.put i 0) = some (.nothing, w₁) := by
      simp only [after?, hw]
      rfl
    have hi : i < w.writes.length := (List.getElem?_eq_some_iff.1 hw).1
    obtain ⟨seen, w', hrun, hstore, hwrites⟩ := ih (w := w₁) (List.getElem?_set_self hi)
    refine ⟨(w.now, .put i 0, .nothing) :: seen, w', ?_, hstore, ?_⟩
    · rw [List.length_cons, List.replicate_succ, run?, he, Option.bind_some, hrun]
      rfl
    · rw [hwrites, List.map_cons, List.reverse_cons, List.append_assoc]
      rfl

end

end Layered

end CacheLayer
