import CacheLayer.Proofs.Loading.Origin
import CacheLayer.Proofs.Loading.Recast
import Mathlib.Data.List.InsertIdx
/-!
# Stamps are not seen

A refreshing delegate over a local cache is compared with a loading delegate over a local cache of
plain values. As long as no read finds a value that is old enough to be loaded again, the stamps
make no difference: the same events can happen to both, and the same is seen of them.

## Key results

- `Layered.Parallel.after?`: one event keeps the two delegates in parallel
- `Layered.Parallel.run?`: a whole run does
- `Layered.stamps_not_seen`: what is the same, and what the stamps tell
-/

namespace CacheLayer

variable {κ ν μ α : Type} [BEq κ] [Hashable κ]

/-! ## Requests -/

/-- What two sites ask for next that differ in their values, if they ask for anything, and whether
they have asked. Entries to be written may be listed in different orders. -/
inductive Request.Stand (f : ν → μ) :
    Option (Request κ ν × Bool) → Option (Request κ μ × Bool) → Prop where
  | none : Stand f none none
  | read (r : Read κ) (asked : Bool) : Stand f (some (.read r, asked)) (some (.read r, asked))
  | load (r : Read κ) (asked : Bool) : Stand f (some (.load r, asked)) (some (.load r, asked))
  | write (ks : List κ) (asked : Bool) {es : List (κ × Option ν)} {es' : List (κ × Option μ)} :
    (∀ k, es'.lookup k = (es.lookup k).map (Option.map f)) →
    (es'.map Prod.fst).Perm (es.map Prod.fst) →
    Stand f (some (.write ks es, asked)) (some (.write ks es', asked))

/-- What is found in the list of a map. -/
private theorem lookup_writesOf [LawfulBEq κ] (m : Std.HashMap κ ν) (k : κ) :
    (writesOf m).lookup k = m[k]?.map some := by
  have hmem : ∀ {v?}, (k, v?) ∈ writesOf m → m[k]?.map some = some v? := by
    intro v? h
    obtain ⟨⟨k', v⟩, hv, heq⟩ := List.mem_map.1 h
    obtain ⟨rfl, rfl⟩ := Prod.mk.inj heq
    rw [Std.HashMap.mem_toList_iff_getElem?_eq_some.1 hv, Option.map_some]
  cases hlookup : (writesOf m).lookup k with
  | some v? =>
    obtain ⟨l₁, l₂, hsplit, -⟩ := List.lookup_eq_some_iff.1 hlookup
    exact (hmem (by simp [hsplit])).symm
  | none =>
    cases hm : m[k]? with
    | none => rfl
    | some v =>
      -- A key that is there is listed.
      have hlisted : (k, some v) ∈ writesOf m :=
        List.mem_map.2 ⟨(k, v), Std.HashMap.mem_toList_iff_getElem?_eq_some.2 hm, rfl⟩
      simpa using List.lookup_eq_none_iff.1 hlookup _ hlisted

private theorem keys_writesOf [LawfulBEq κ] (m : Std.HashMap κ ν) :
    (writesOf m).map Prod.fst = m.keys := by
  rw [writesOf, List.map_map, ← Std.HashMap.map_fst_toList_eq_keys]
  rfl

/-- Questions that differ in their values are such requests. -/
theorem Question.Recast.stand [LawfulBEq κ] {f : ν → μ} {q : Question κ ν} {q' : Question κ μ}
    (h : q.Recast f q') (asked : Bool) :
    Request.Stand f (some (q.request, asked)) (some (q'.request, asked)) := by
  cases h with
  | read g => exact .read _ asked
  | load g => exact .load _ asked
  | write g v =>
    refine .write _ asked (fun k => ?_) (.refl _)
    rw [List.lookup_cons, List.lookup_cons]
    cases k == g.key <;> rfl
  | readMany gs => exact .read _ asked
  | loadMany gs => exact .load _ asked
  | @writeMany gs m m' hm =>
    refine .write _ asked (fun k => ?_) ?_
    · rw [lookup_writesOf, lookup_writesOf, hm k]
      cases m[k]? <;> rfl
    · rw [keys_writesOf, keys_writesOf]
      exact hm.keys_perm

/-- Resolvers that differ in their values ask for the same but for the values. -/
private theorem request?_recast [LawfulBEq κ] {f : ν → μ} {r? : Option (Resolver κ ν)}
    {r?' : Option (Resolver κ μ)} (h : Option.Rel (Resolver.Recast f) r? r?') :
    Request.Stand f (r?.bind Resolver.request?) (r?'.bind Resolver.request?) := by
  cases h with
  | none => exact .none
  | @some r r' h =>
    have hq := h.question?
    simp only [Option.bind_some, Resolver.request?, h.asked]
    generalize r.question? = q?, r'.question? = q?' at hq
    cases hq with
    | none => exact .none
    | some hq => exact hq.stand r.asked

/-- A write or a deletion on both sides. -/
private theorem write_recast [LawfulBEq κ] {f : ν → μ} {s : Store κ ν} {s' : Store κ μ}
    (h : s.Recast f s') (now : Nat) (k : κ) (v? : Option ν) :
    (s.write now k v?).Recast f (s'.write now k (v?.map f)) := by
  cases v? with
  | some v => exact h.set now k v
  | none => exact (h.delete now k).2

/-! ## Results -/

/-- A caller sees the same of results that differ in their values by what is seen. -/
private theorem seen_recast {f : ν → α} {r : ReadResult κ ν} {r' : ReadResult κ α}
    (h : r.Recast f r') : r'.seen (fun v => v) = r.seen f := by
  cases h with
  | one o => rcases o with e | _ | v <;> rfl
  | many h =>
    cases h with
    | error e => rfl
    | @ok m m' hm =>
      have hfun : (fun k => m'[k]?.map fun v => v) = fun k : κ => m[k]?.map f := by
        funext k
        rw [hm k, Option.map_map]
        rfl
      simp only [ReadResult.seen, Except.map, hfun]

/-- The loader's answer, with plain values and with stamped ones. -/
private theorem reply_recast [LawfulBEq κ] (p : RefreshSetting) (now : Nat) (a : LoadAnswer κ α) :
    (a.reply (Stamped.stamp p.epoch now)).Recast Stamped.value (a.reply fun v => v) := by
  cases a with
  | one r =>
    refine .load ?_
    rcases r with (e | _ | v) | m | m <;> rfl
  | many r =>
    refine .loadMany ?_
    rcases r with (e | m) | m | m
    · exact .error e
    · refine .ok fun k => ?_
      rw [Std.HashMap.getElem?_map, Std.HashMap.getElem?_map, Option.map_map]
      rfl
    · exact .error _
    · exact .error _

/-! ## Writes and updates -/

/-- A write for which other values are kept, those that `f` gives. -/
def Writing.recast (f : ν → μ) (c : Writing κ ν α) : Writing κ μ α :=
  ⟨c.single, c.todo, c.kept.map fun e => (e.1, f e.2), c.stored, c.answered⟩

/-- An update with other values, those that `f` gives. -/
def Mapping.recast (f : ν → μ) : Mapping ν → Mapping μ
  | toRead left => toRead left
  | toMap left version? current => toMap left version? (current.map f)
  | toWrite left version? v => toWrite left version? (f v)
  | done answer => done answer

/-- A call of an update with other values. -/
def MapperCall.recast (f : ν → μ) (c : MapperCall κ ν) : MapperCall κ μ :=
  ⟨c.key, c.state.recast f⟩

namespace Layered

/-! ## Runs without old values -/

/-- What a caller of a refreshing delegate finds for a key when it ends its read. -/
def found? (w : Layered (RefreshDelegate κ (Stamped α)) κ (Stamped α) α) (caller : Nat) (k : κ) :
    Option (Stamped α) :=
  w.core.delegate.callers[caller]?.bind fun c =>
    (w.core.delegate.result? caller).bind fun r => c.got? k r

/-- The caller whose read ends in an event. -/
def Event.ended? : Event κ α → Option Nat
  | .finish caller _ => some caller
  | _ => none

/-- An event in which no read ends with a value that is old enough to be loaded again. -/
def FreshAt (p : RefreshSetting) (w : Layered (RefreshDelegate κ (Stamped α)) κ (Stamped α) α)
    (e : Event κ α) : Prop :=
  ∀ caller ∈ e.ended?, ∀ k v, w.found? caller k = some v → ¬ p.Stale w.now v

/-- A run in which no read ends with a value that is old enough to be loaded again. -/
def Fresh (p : RefreshSetting) (w : Layered (RefreshDelegate κ (Stamped α)) κ (Stamped α) α) :
    List (Event κ α) → Prop
  | [] => True
  | e :: es => w.FreshAt p e ∧ ∀ r ∈ w.after? (.refreshing p) e, r.2.Fresh p es

section

variable [LawfulBEq κ] {p : RefreshSetting}
  {w : Layered (RefreshDelegate κ (Stamped α)) κ (Stamped α) α}

/-- A caller that has found nothing old enough has no stale keys. -/
theorem FreshAt.staleKeys_eq {e : Event κ α} (h : w.FreshAt p e) {caller : Nat} {c : Caller κ}
    {r : ReadResult κ (Stamped α)} (hended : e.ended? = some caller)
    (hc : w.core.delegate.callers[caller]? = some c)
    (hr : w.core.delegate.result? caller = some r) :
    c.staleKeys (fun v => p.Stale w.now v) r = [] := by
  rw [List.eq_nil_iff_forall_not_mem]
  intro k hk
  obtain ⟨v, hgot, hstale⟩ := Caller.mem_staleKeys.1 hk
  have hfound : w.found? caller k = some v := by
    simp only [found?, hc, hr, Option.bind_some, hgot]
  exact h caller hended k v hfound (of_decide_eq_true hstale)

omit [LawfulBEq κ] in
/-- A run without old values that goes on without old values. -/
theorem Fresh.append {es es' : List (Event κ α)} {seen : List (Nat × Event κ α × Output κ α)}
    {w' : Layered (RefreshDelegate κ (Stamped α)) κ (Stamped α) α} (h : w.Fresh p es)
    (hrun : w.run? (.refreshing p) es = some (seen, w')) (h' : w'.Fresh p es') :
    w.Fresh p (es ++ es') := by
  induction es generalizing w seen with
  | nil =>
    obtain ⟨-, rfl⟩ := Prod.mk.inj (Option.some.inj hrun)
    exact h'
  | cons e es ih =>
    obtain ⟨⟨out, w₁⟩, he, hrun⟩ := Option.bind_eq_some_iff.1 hrun
    obtain ⟨⟨seen₁, w₂⟩, hes, heq⟩ := Option.map_eq_some_iff.1 hrun
    obtain ⟨-, rfl⟩ := Prod.mk.inj heq
    refine ⟨h.1, fun r hr => ?_⟩
    obtain rfl := Option.some.inj (he.symm.trans hr)
    exact ih (h.2 _ he) hes

end

/-! ## One event -/

/-- A refreshing delegate and a loading delegate that are in parallel: without their stamps the
values are the same, nothing has ever been loaded again, and the same writes and updates are under
way. -/
structure Parallel (w : Layered (RefreshDelegate κ (Stamped α)) κ (Stamped α) α)
    (w' : Layered (Delegate κ α) κ α α) : Prop where
  delegate : w.core.delegate.Recast Stamped.value w'.core
  starters : ∀ i : Nat, w.core.starters[i]? = none
  reloads : ∀ i : Nat, w.core.reloads[i]? = none
  next : w.core.next = 0
  stats : w.core.stats = {}
  now : w'.now = w.now
  store : w.inStore.Recast Stamped.value w'.inStore
  landed : w'.landed = w.landed
  writes : w'.writes = w.writes.map (Writing.recast Stamped.value)
  calls : w'.calls = w.calls.map (MapperCall.recast Stamped.value)

/-- The same is seen of an event on both sides, and they go on in parallel. -/
def Alike (r? : Option (Output κ α × Layered (RefreshDelegate κ (Stamped α)) κ (Stamped α) α))
    (r?' : Option (Output κ α × Layered (Delegate κ α) κ α α)) : Prop :=
  Option.Rel (fun r r' => r'.1 = r.1 ∧ Parallel r.2 r'.2) r? r?'

namespace Parallel

variable {p : RefreshSetting} {w : Layered (RefreshDelegate κ (Stamped α)) κ (Stamped α) α}
  {w' : Layered (Delegate κ α) κ α α}

/-- New delegates before empty caches are in parallel. -/
theorem start (p : RefreshSetting) (c : Config) :
    Parallel (Layered.start (.ofRetry p.retry) c) (Layered.start ({} : Delegate κ α) c) where
  delegate := .empty _
  starters _ := Std.HashMap.getElem?_empty
  reloads _ := Std.HashMap.getElem?_empty
  next := rfl
  stats := rfl
  now := rfl
  store := .ofLimits _ _ _
  landed := rfl
  writes := rfl
  calls := rfl

/-- Only the loading delegates change. -/
private theorem withDelegate (h : Parallel w w') {d : Delegate κ (Stamped α)} {d' : Delegate κ α}
    (hd : d.Recast Stamped.value d') :
    Parallel { w with core := { w.core with delegate := d } } { w' with core := d' } where
  __ := h
  delegate := hd

/-- Both delegates may get stores that are alike. -/
private theorem onStore {β β' : Type} (h : Parallel w w')
    (F : Store κ (Stamped α) → Nat → β × Store κ (Stamped α))
    (F' : Store κ α → Nat → β' × Store κ α)
    (hF : (F w.inStore w.now).2.Recast Stamped.value (F' w'.inStore w.now).2) :
    Parallel { w with cache := (w.cache.onStore F).2 }
      { w' with cache := (w'.cache.onStore F').2 } where
  __ := h
  store := by
    have hF' : (F w.inStore w.now).2.Recast Stamped.value (F' w'.inStore w'.now).2 := by
      rw [h.now]
      exact hF
    exact hF'

/-- Callers begin the same writes on both sides, or go on alike with them. -/
private theorem withWrites (h : Parallel w w') {cs : List (Writing κ (Stamped α) α)}
    {cs' : List (Writing κ α α)} (hcs : cs' = cs.map (Writing.recast Stamped.value)) :
    Parallel { w with writes := cs } { w' with writes := cs' } where
  __ := h
  writes := hcs

/-- Callers begin the same updates on both sides, or go on alike with them. -/
private theorem withCalls (h : Parallel w w') {cs : List (MapperCall κ (Stamped α))}
    {cs' : List (MapperCall κ α)} (hcs : cs' = cs.map (MapperCall.recast Stamped.value)) :
    Parallel { w with calls := cs } { w' with calls := cs' } where
  __ := h
  calls := hcs

/-- Callers see the same of uses of the caches that are alike. -/
private theorem use (h : Parallel w w')
    {F : Store κ (Stamped α) → Nat → Output κ α × Store κ (Stamped α)}
    {F' : Store κ α → Nat → Output κ α × Store κ α}
    (hout : (F' w'.inStore w.now).1 = (F w.inStore w.now).1)
    (hF : (F w.inStore w.now).2.Recast Stamped.value (F' w'.inStore w.now).2) :
    Alike (some (w.use F)) (some (w'.use F')) :=
  .some ⟨(congrArg (fun t => (F' w'.inStore t).1) h.now).trans hout, h.onStore F F' hF⟩

/-- Neither delegate does a step of a reload. -/
private theorem idle {s : RefreshDelegate.Step κ (Stamped α)} {s' : RefreshDelegate.Step κ α}
    (hs : w.core.step? s = none) (hs' : DelegateKind.loading.step? w'.core s' = none)
    (out out' : Output κ α) :
    Alike (w.own? (.refreshing p) s out) (w'.own? .loading s' out') := by
  have hnone : w.own? (.refreshing p) s out = none := by
    show (w.core.step? s).map _ = none
    rw [hs, Option.map_none]
  have hnone' : w'.own? .loading s' out' = none := by
    rw [own?, hs', Option.map_none]
  rw [hnone, hnone']
  exact .none

variable [LawfulBEq κ]

/-- Steps of both loading delegates that differ in their values only. -/
private theorem own (h : Parallel w w') {s : Delegate.Step κ (Stamped α)} {s' : Delegate.Step κ α}
    (hs : s.Recast Stamped.value s') (out : Output κ α) :
    Alike (w.own? (.refreshing p) (.loading s) out) (w'.own? .loading (.loading s') out) := by
  have hstep := h.delegate.step? hs
  simp only [own?, DelegateKind.refreshing, DelegateKind.loading, RefreshDelegate.step?,
    Option.map_map]
  exact rel_map hstep fun hd => ⟨rfl, h.withDelegate hd⟩

/-- What a site asks for is the same but for the values. -/
private theorem request? (h : Parallel w w') (x : LoadSite) :
    Request.Stand Stamped.value ((DelegateKind.refreshing p).request? w.core x)
      (DelegateKind.loading.request? w'.core x) := by
  cases x with
  | miss i => exact request?_recast (h.delegate.resolvers i)
  | reload i =>
    simp only [DelegateKind.refreshing, DelegateKind.loading, RefreshDelegate.request?, h.reloads,
      Option.bind_none]
    exact .none

/-- A site goes on as told. -/
private theorem told (h : Parallel w w') (x : LoadSite) {a : Reply κ (Stamped α)} {a' : Reply κ α}
    (ha : a.Recast Stamped.value a') (out : Output κ α) :
    Alike (w.own? (.refreshing p) (x.told a) out) (w'.own? .loading (x.told a') out) := by
  cases x with
  | miss i => exact h.own (.reply i ha) out
  | reload i => exact idle (by simp [LoadSite.told, RefreshDelegate.step?, h.reloads]) rfl out out

/-- The caches are used alike, and a site is told the replies. -/
private theorem tell (h : Parallel w w') (x : LoadSite) (out : Output κ α)
    {F : Store κ (Stamped α) → Nat → Reply κ (Stamped α) × Store κ (Stamped α)}
    {F' : Store κ α → Nat → Reply κ α × Store κ α}
    (hreply : (F w.inStore w.now).1.Recast Stamped.value (F' w'.inStore w.now).1)
    (hF : (F w.inStore w.now).2.Recast Stamped.value (F' w'.inStore w.now).2) :
    Alike (w.tell? (.refreshing p) x out F) (w'.tell? .loading x out F') := by
  have hreply' : (F w.inStore w.now).1.Recast Stamped.value (F' w'.inStore w'.now).1 := by
    rw [h.now]
    exact hreply
  exact (h.onStore F F' hF).told x hreply' out

/-- A refreshing delegate that has found nothing stale lets the caller go. -/
private theorem finish?_of_fresh {i : Nat} {r : ReadResult κ (Stamped α)}
    (hr : w.core.delegate.result? i = some r) (stale : List κ)
    (hfresh : w.FreshAt p (.finish i stale)) :
    (DelegateKind.refreshing p).finish? w.now w.core i stale =
      if stale = [] then some (w.core.left i) else none := by
  obtain ⟨c, hc, -, -⟩ := RefreshDelegate.result?_cases hr
  have hnone := hfresh.staleKeys_eq rfl hc hr
  simp only [DelegateKind.refreshing, RefreshDelegate.finish?, hc, hr, hnone, Option.bind_eq_bind,
    Option.bind_some]
  -- The stale keys of the event have to be those that are stale, which there are none of.
  by_cases hstale : stale = []
  · have hyes : ([] : List κ).isPerm [] = true := rfl
    rw [if_pos hstale, hstale, if_pos hyes]
    rfl
  · have hnot : ¬ stale.isPerm [] = true := by
      rw [List.isPerm_iff, List.perm_nil]
      exact hstale
    rw [if_neg hstale, if_neg hnot]

/-- The end of a read that has found nothing stale. -/
private theorem finish (h : Parallel w w') (i : Nat) (stale : List κ)
    (hfresh : w.FreshAt p (.finish i stale)) :
    Alike (w.after? (.refreshing p) (.finish i stale)) (w'.after? .loading (.finish i stale)) := by
  have hresult := h.delegate.result? i
  generalize hr : w.core.delegate.result? i = r?, hr' : w'.core.result? i = r?' at hresult
  cases hresult with
  | none =>
    -- The values are there on neither side.
    simp only [Layered.after?, DelegateKind.refreshing, DelegateKind.loading, hr, hr']
    exact .none
  | @some r r' hrecast =>
    have hends := finish?_of_fresh hr stale hfresh
    by_cases hstale : stale = []
    · have hends' : DelegateKind.loading.finish? w'.now w'.core i stale =
          some (w'.core.leave i) := by
        simp [DelegateKind.loading, hstale, hr']
      rw [if_pos hstale] at hends
      simp only [Layered.after?, hends, hends']
      simp only [DelegateKind.refreshing, DelegateKind.loading, hr, hr', seen_recast hrecast]
      exact .some ⟨rfl, h.withDelegate (h.delegate.leave i)⟩
    · -- A read that has found nothing stale cannot end with stale keys.
      have hends' : DelegateKind.loading.finish? w'.now w'.core i stale = none := by
        simp [DelegateKind.loading, hstale]
      rw [if_neg hstale] at hends
      simp only [Layered.after?, hends, hends']
      simp only [DelegateKind.refreshing, DelegateKind.loading, hr, hr']
      exact .none

/-- A site asks for the same on both sides. -/
private theorem ask (h : Parallel w w') (x : LoadSite) :
    Alike (w.after? (.refreshing p) (.ask x)) (w'.after? .loading (.ask x)) := by
  have hout : (Output.ofRequest (DelegateKind.loading.request? w'.core x) : Output κ α) =
      .ofRequest ((DelegateKind.refreshing p).request? w.core x) := by
    have hreq := h.request? (p := p) x
    generalize DelegateKind.loading.request? w'.core x = q?',
      (DelegateKind.refreshing p).request? w.core x = q? at hreq
    cases hreq with
    | load r asked => cases asked <;> rfl
    | _ => rfl
  simp only [Layered.after?, hout]
  cases x with
  | miss i => exact h.own (.ask i) _
  | reload i => exact idle (by simp [LoadSite.asking, RefreshDelegate.step?, h.reloads]) rfl _ _

/-- The caches answer the read of a site alike. -/
private theorem serve (h : Parallel w w') (x : LoadSite) :
    Alike (w.after? (.refreshing p) (.serve x)) (w'.after? .loading (.serve x)) := by
  have hreq := h.request? (p := p) x
  simp only [Layered.after?]
  generalize DelegateKind.loading.request? w'.core x = q?',
    (DelegateKind.refreshing p).request? w.core x = q? at hreq
  -- A site that has not asked to read is not served on either side.
  cases hreq with
  | read r asked =>
    cases asked with
    | false => cases r <;> exact .none
    | true =>
      cases r with
      | one k =>
        obtain ⟨hvalue, hget⟩ := h.store.get w.now k
        refine h.tell x .nothing ?_ hget
        simp only [hvalue]
        exact .read (.ok (w.inStore.get w.now k).1)
      | many ks =>
        obtain ⟨hfound, hget⟩ := h.store.getBulk w.now ks
        exact h.tell x .nothing (.readMany (.ok hfound)) hget
  | _ => exact .none

/-- A write that a site has asked for takes effect on both sides. -/
private theorem land (h : Parallel w w') (x : LoadSite) (k : κ) :
    Alike (w.after? (.refreshing p) (.land x k)) (w'.after? .loading (.land x k)) := by
  have hreq := h.request? (p := p) x
  simp only [Layered.after?, h.landed]
  generalize DelegateKind.loading.request? w'.core x = q?',
    (DelegateKind.refreshing p).request? w.core x = q? at hreq
  -- Only a site that has asked for a write has something to land.
  cases hreq with
  | @write ks asked es es' hes hkeys =>
    cases asked with
    | false => exact .none
    | true =>
      simp only [hes k]
      cases es.lookup k with
      | none => exact .none
      | some v? =>
        simp only [Option.map_some]
        split
        · exact .none
        · have hcache := h.onStore (fun s now => ((), s.write now k v?))
            (fun s now => ((), s.write now k (v?.map Stamped.value)))
            (write_recast h.store w.now k v?)
          exact .some ⟨rfl, { hcache with landed := rfl }⟩
  | _ => exact .none

/-- A site is told that its writes are done. -/
private theorem written (h : Parallel w w') (x : LoadSite) :
    Alike (w.after? (.refreshing p) (.written x)) (w'.after? .loading (.written x)) := by
  have hreq := h.request? (p := p) x
  simp only [Layered.after?, h.landed]
  generalize DelegateKind.loading.request? w'.core x = q?',
    (DelegateKind.refreshing p).request? w.core x = q? at hreq
  cases hreq with
  | @write ks asked es es' hes hkeys =>
    cases asked with
    | false => exact .none
    | true =>
      -- The same keys are to be written on both sides.
      have hdone : (es'.all fun e => w.landed.contains (x, e.1)) =
          es.all fun e => w.landed.contains (x, e.1) := by
        have hall := hkeys.all_eq (f := fun k => w.landed.contains (x, k))
        rw [List.all_map, List.all_map] at hall
        exact hall
      simp only [hdone]
      split
      · exact h.told x (.written (.ok ())) _
      · exact .none
  | _ => exact .none

/-- The loader answers a site on both sides; on one of them what it brings is stamped. -/
private theorem answer (h : Parallel w w') (x : LoadSite) (a : LoadAnswer κ α) :
    Alike (w.after? (.refreshing p) (.answer x a)) (w'.after? .loading (.answer x a)) := by
  have hreq := h.request? (p := p) x
  have hreply := reply_recast p w.now a
  simp only [Layered.after?]
  generalize DelegateKind.loading.request? w'.core x = q?',
    (DelegateKind.refreshing p).request? w.core x = q? at hreq
  cases hreq with
  | load r asked =>
    cases asked with
    | false => exact .none
    | true => exact h.told x hreply _
  | _ => exact .none

omit [LawfulBEq κ] in
/-- The same write of a caller is under way on both sides. -/
private theorem writing? (h : Parallel w w') (i : Nat) :
    w'.writes[i]? = w.writes[i]?.map (Writing.recast Stamped.value) := by
  rw [h.writes, List.getElem?_map]

omit [LawfulBEq κ] in
/-- A caller's write goes on alike on both sides. -/
private theorem setWriting (h : Parallel w w') (i : Nat) (c : Writing κ (Stamped α) α) :
    w'.writes.set i (c.recast Stamped.value) =
      (w.writes.set i c).map (Writing.recast Stamped.value) := by
  rw [h.writes, List.map_set]

omit [LawfulBEq κ] in
/-- A value of a caller's write is taken up on both sides; on one of them it is stamped. -/
private theorem takeUp (h : Parallel w w') (i : Nat) :
    Alike (w.after? (.refreshing p) (.takeUp i)) (w'.after? .loading (.takeUp i)) := by
  simp only [Layered.after?, h.writing? i]
  rcases w.writes[i]? with _ | ⟨single, _ | ⟨⟨k, v⟩, todo⟩, kept, stored, answered⟩
  · exact .none
  · exact .none
  · refine .some ⟨rfl, h.withWrites ?_⟩
    have hset := h.setWriting i
      ⟨single, todo, kept ++ [(k, Stamped.stamp p.epoch w.now v)], stored, answered⟩
    -- Without its stamp the value is the plain one.
    simp only [Writing.recast, List.map_append, List.map_cons, List.map_nil] at hset
    exact hset

/-- A value of a caller's write is stored on both sides. -/
private theorem put (h : Parallel w w') (i n : Nat) :
    Alike (w.after? (.refreshing p) (.put i n)) (w'.after? .loading (.put i n)) := by
  simp only [Layered.after?, h.writing? i]
  rcases w.writes[i]? with _ | ⟨single, _ | ⟨e, todo⟩, kept, stored, answered⟩
  · exact .none
  · simp only [Option.map_some, Writing.recast, List.getElem?_map]
    cases hn : kept[n]? with
    | none => exact .none
    | some e =>
      obtain ⟨k, v⟩ := e
      have hset := h.setWriting i ⟨single, [], kept.eraseIdx n, k :: stored, answered⟩
      simp only [Writing.recast, ← List.eraseIdx_map] at hset
      have hcache := h.onStore (fun s now => ((), s.set now k v))
        (fun s now => ((), s.set now k v.value)) (h.store.set w.now k v)
      exact .some ⟨rfl, hcache.withWrites hset⟩
  · exact .none

omit [LawfulBEq κ] in
/-- A caller's write answers the same on both sides. -/
private theorem wrote (h : Parallel w w') (i : Nat) :
    Alike (w.after? (.refreshing p) (.wrote i)) (w'.after? .loading (.wrote i)) := by
  simp only [Layered.after?, h.writing? i]
  rcases w.writes[i]? with _ | ⟨single, _ | ⟨e, todo⟩, _ | ⟨e', kept⟩, stored, _ | _⟩
  case some.nil.nil.false =>
    exact .some ⟨rfl, h.withWrites (h.setWriting i ⟨single, [], [], stored, true⟩)⟩
  all_goals exact .none

/-- Updates read the same on both sides. -/
private theorem read (h : Parallel w w') (k : κ) :
    let r := (Swept.updater k).read w.cache
    let r' := (Swept.updater k).read w'.cache
    r'.1 = r.1.map (fun e => (e.1.map Stamped.value, e.2)) ∧
      Parallel { w with cache := r.2 } { w' with cache := r'.2 } := by
  obtain ⟨hread, hstore⟩ := h.store.updateRead w.now k
  refine ⟨?_, h.onStore (fun s now => s.updateRead now k) (fun s now => s.updateRead now k) hstore⟩
  show (w'.inStore.updateRead w'.now k).1 = _
  rw [h.now]
  exact hread

/-- Updates write alike on both sides, and learn the same of it. -/
private theorem write (h : Parallel w w') (k : κ) (version? : Option Nat) (v : Stamped α) :
    let r := (Swept.updater k).write version? v w.cache
    let r' := (Swept.updater k).write version? v.value w'.cache
    r'.1 = r.1 ∧ Parallel { w with cache := r.2 } { w' with cache := r'.2 } := by
  obtain ⟨hwrite, hstore⟩ := h.store.updateWrite w.now k version? v
  refine ⟨?_, h.onStore (fun s now => s.updateWrite now k version? v)
    (fun s now => s.updateWrite now k version? v.value) hstore⟩
  show (w'.inStore.updateWrite w'.now k version? v.value).1 =
    (w.inStore.updateWrite w.now k version? v).1
  rw [h.now]
  exact hwrite

/-- Updates take the same step on both sides, and show their mappers the same. -/
private theorem mapStep? (h : Parallel w w') (k : κ) (f : Mapper α) (u : Mapping (Stamped α)) :
    Option.Rel (fun r r' => r'.1 = r.1 ∧ r'.2.1 = r.2.1.recast Stamped.value ∧
        Parallel { w with cache := r.2.2 } { w' with cache := r'.2.2 })
      (Layered.mapStep? (.refreshing p) k f u w.cache)
      (Layered.mapStep? .loading k f (u.recast Stamped.value) w'.cache) := by
  cases u with
  | toRead left =>
    cases left with
    | zero => exact .some ⟨rfl, rfl, h⟩
    | succ left =>
      obtain ⟨hread, hcache⟩ := h.read k
      simp only [Layered.mapStep?, Mapping.recast]
      generalize (Swept.updater k).read w.cache = r,
        (Swept.updater k).read w'.cache = r' at hread hcache
      obtain ⟨result, cache⟩ := r
      obtain ⟨result', cache'⟩ := r'
      obtain rfl : result' = _ := hread
      rcases result with e | ⟨_ | v, version?⟩
      · exact .some ⟨rfl, rfl, hcache⟩
      · exact .some ⟨rfl, rfl, hcache⟩
      · exact .some ⟨rfl, rfl, hcache⟩
  | toMap left version? current =>
    -- The mapper is shown the plain value on both sides.
    have hshown : (current.map Stamped.value).map (fun v : α => v) = current.map Stamped.value :=
      congrFun Option.map_id _
    simp only [Layered.mapStep?, Mapping.recast, DelegateKind.loading, DelegateKind.refreshing,
      hshown]
    cases f (current.map Stamped.value) with
    | none => exact .some ⟨rfl, rfl, h⟩
    | some v => exact .some ⟨rfl, rfl, h⟩
  | toWrite left version? v =>
    obtain ⟨hwrite, hcache⟩ := h.write k version? v
    simp only [Layered.mapStep?, Mapping.recast]
    generalize (Swept.updater k).write version? v w.cache = r,
      (Swept.updater k).write version? v.value w'.cache = r' at hwrite hcache
    obtain ⟨result, cache⟩ := r
    obtain ⟨result', cache'⟩ := r'
    obtain rfl : result' = result := hwrite
    rcases result' with e | _ | answer
    · exact .some ⟨rfl, rfl, hcache⟩
    · exact .some ⟨rfl, rfl, hcache⟩
    · exact .some ⟨rfl, rfl, hcache⟩
  | done answer => exact .none

/-- An update that a caller has begun takes the same step on both sides. -/
private theorem updateStep (h : Parallel w w') (i : Nat) (f : Mapper α) :
    Alike (w.after? (.refreshing p) (.updateStep i f)) (w'.after? .loading (.updateStep i f)) := by
  have hcall : w'.calls[i]? = w.calls[i]?.map (MapperCall.recast Stamped.value) := by
    rw [h.calls, List.getElem?_map]
  simp only [Layered.after?, hcall]
  cases w.calls[i]? with
  | none => exact .none
  | some c =>
    refine rel_map (h.mapStep? (p := p) c.key f c.state) ?_
    rintro ⟨out, state, cache⟩ ⟨out', state', cache'⟩ ⟨hout, hstate, hcache⟩
    refine ⟨hout, hcache.withCalls ?_⟩
    obtain rfl : state' = state.recast Stamped.value := hstate
    rw [h.calls, List.map_set]
    rfl

/-- One event keeps the delegates in parallel, and the same is seen of it on both sides. -/
theorem after? (h : Parallel w w') (e : Event κ α) (hfresh : w.FreshAt p e) :
    Alike (w.after? (.refreshing p) e) (w'.after? .loading e) := by
  cases e with
  -- The steps of callers and of misses are those of the loading delegate on both sides.
  | call r => exact h.own (.call r) .nothing
  | advance i => exact h.own (.advance i) .nothing
  | leave i => exact h.own (.leave i) .nothing
  | finish i stale => exact h.finish i stale hfresh
  | restart i =>
    -- Nobody has found anything stale.
    have hnone : (DelegateKind.refreshing p).step? w.core (.advance w.now i) = none := by
      show (w.core.starters[i]?).map _ = none
      rw [h.starters, Option.map_none]
    simp only [Layered.after?, hnone]
    exact .none
  | chore x =>
    cases x with
    | miss i => exact h.own (.chore i) .nothing
    | reload i => exact idle (by simp [LoadSite.choring, RefreshDelegate.step?, h.reloads]) rfl _ _
  | ask x => exact h.ask x
  | tear x =>
    cases x with
    | miss i => exact h.own (.tear i) .nothing
    | reload i => exact idle (by simp [LoadSite.tearing, RefreshDelegate.step?, h.reloads]) rfl _ _
  | serve x => exact h.serve x
  | land x k => exact h.land x k
  | written x => exact h.written x
  | answer x a => exact h.answer x a
  -- A write that begins has nothing that is stamped.
  | set k v => exact .some ⟨rfl, h.withWrites (by rw [h.writes, List.map_append]; rfl)⟩
  | setMany entries => exact .some ⟨rfl, h.withWrites (by rw [h.writes, List.map_append]; rfl)⟩
  | takeUp i => exact h.takeUp i
  | put i n => exact h.put i n
  | wrote i => exact h.wrote i
  | delete k =>
    obtain ⟨hfound, hdelete⟩ := h.store.delete w.now k
    exact h.use (congrArg (fun b => Output.done (.ok b)) hfound) hdelete
  | update k attempts => exact .some ⟨rfl, h.withCalls (by rw [h.calls, List.map_append]; rfl)⟩
  | updateStep i f => exact h.updateStep i f
  | sweep => exact h.use rfl (h.store.sweep w.now)
  | wait span =>
    have hnow : w'.now + span = w.now + span := by rw [h.now]
    exact .some ⟨rfl, { h with now := hnow, store := h.store }⟩

/-! ## Runs -/

/-- A run keeps the delegates in parallel, and the same is seen of it on both sides. -/
theorem run? {es : List (Event κ α)} (h : Parallel w w') (hfresh : w.Fresh p es) :
    Option.Rel (fun r r' => r'.1 = r.1 ∧ Parallel r.2 r'.2) (w.run? (.refreshing p) es)
      (w'.run? .loading es) := by
  induction es generalizing w w' with
  | nil => exact .some ⟨rfl, h⟩
  | cons e es ih =>
    obtain ⟨hnow, hlater⟩ := hfresh
    have hfirst := h.after? e hnow
    simp only [Layered.run?, h.now]
    -- The event is possible on both sides or on neither.
    generalize w.after? (.refreshing p) e = r?, w'.after? .loading e = r?' at hfirst hlater
    cases hfirst with
    | none => exact .none
    | @some r r' hr =>
      obtain ⟨hout, hr⟩ := hr
      exact rel_map (ih hr (hlater r rfl)) fun hes => ⟨by rw [hout, hes.1], hes.2⟩

end Parallel

end Layered

end CacheLayer
