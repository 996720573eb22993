import CacheLayer.Proofs.Loading.Backed
import Mathlib
/-!
# Write-backs

What the loader answers is written back to the cache by the site that has asked for it, some time
later and whatever has happened to the cache in between. No write-back is lost and none is made up:
at every site, what has landed and what is still pending is what was pending before and what the
loader has answered. A write-back is not held off by a newer write of a caller: what the cache holds
in the end is what was written last.

## Key results

- `Backed.landed_perm`: what was loaded at a site is what has landed and what is still pending
- `Backed.holds_of_undisturbed`: what the cache holds in the end is what has landed last
- `Backed.last_write_wins`: a caller's write stays unless a write-back lands after it
- `Backed.write_back_overwrites`: a load that was started before a write may undo it
-/

namespace CacheLayer

variable {ω κ ν α : Type} [BEq κ] [Hashable κ]

/-- What there is of some sites. -/
def ofSites {β : Type} (own : LoadSite → Bool) (l : List (LoadSite × β)) : List β :=
  (l.filter fun p => own p.1).map Prod.snd

@[simp] theorem ofSites_nil {β : Type} (own : LoadSite → Bool) :
    ofSites own ([] : List (LoadSite × β)) = [] := rfl

@[simp] theorem ofSites_append {β : Type} (own : LoadSite → Bool) (l l' : List (LoadSite × β)) :
    ofSites own (l ++ l') = ofSites own l ++ ofSites own l' := by
  simp [ofSites]

/-- What there is of one site is of it or not. -/
theorem ofSites_map {β : Type} (own : LoadSite → Bool) (x : LoadSite) (l : List β) :
    ofSites own (l.map fun e => (x, e)) = if own x then l else [] := by
  induction l with
  | nil => split <;> rfl
  | cons e l ih =>
    rw [ofSites, List.map_cons, List.filter_cons]
    rw [ofSites] at ih
    split
    · next hx =>
      rw [if_pos hx] at ih
      rw [List.map_cons, ih]
    · next hx =>
      rw [if_neg hx] at ih
      exact ih

/-- What is written to a key. -/
def toKey (k : κ) (l : List (κ × Option ν)) : List (Option ν) :=
  (l.filter fun p => p.1 == k).map Prod.snd

omit [Hashable κ] in
theorem toKey_ofSites_singleton (own : LoadSite → Bool) (x : LoadSite) (k k' : κ) (v? : Option ν) :
    toKey k (ofSites own [(x, k', v?)]) = if own x ∧ k' == k then [v?] else [] := by
  by_cases hx : own x <;> by_cases hk : k' == k <;> simp [toKey, ofSites, hx, hk]

omit [Hashable κ] in
@[simp] theorem toKey_append (k : κ) (l l' : List (κ × Option ν)) :
    toKey k (l ++ l') = toKey k l ++ toKey k l' := by
  simp [toKey]

/-- The writes that a call of the loader leads to. Only in the background a key that the source does
not have is deleted, and only if it was asked for by itself. -/
def LoadAnswer.writes (inBackground : Bool) (wrap : α → ν) :
    Read κ → LoadAnswer κ α → List (κ × Option ν)
  | .one k, one r =>
    match r.outcome with
    | .ok (some v) => [(k, some (wrap v))]
    | .ok none => if inBackground then [(k, none)] else []
    | .error _ => []
  | .many _, many r =>
    match r.outcome with
    | .ok m => m.toList.map fun e => (e.1, some (wrap e.2))
    | .error _ => []
  | _, _ => []

namespace Backed

/-! ## What lands and what is loaded -/

/-- What is seen of the events of a run, in this order. -/
def trace (c : AcceptingCache ω κ ν) (wrap : Nat → α → ν) {β : Type}
    (see : Backed ω κ ν → Event ω κ ν α → List β) (w : Backed ω κ ν) :
    List (Event ω κ ν α) → List β
  | [] => []
  | e :: es => see w e ++ ((w.after? c wrap e).map fun w' => w'.trace c wrap see es).getD []

/-- The write-back that takes effect in an event, with its site. -/
def landing (w : Backed ω κ ν) : Event ω κ ν α → List (LoadSite × κ × Option ν)
  | .land x n => (w.due x)[n]?.toList.map fun e => (x, e)
  | _ => []

/-- The write-backs that an answer of the loader leads to, with their site. -/
def loading (wrap : Nat → α → ν) (w : Backed ω κ ν) :
    Event ω κ ν α → List (LoadSite × κ × Option ν)
  | .answer x a =>
    match w.core.loaderCall? x with
    | some call => (a.writes x.inBackground (wrap w.now) call).map fun e => (x, e)
    | none => []
  | _ => []

/-- The write-backs that take effect in a run. -/
def landed (c : AcceptingCache ω κ ν) (wrap : Nat → α → ν) (w : Backed ω κ ν)
    (es : List (Event ω κ ν α)) : List (LoadSite × κ × Option ν) :=
  w.trace c wrap landing es

/-- The write-backs that the answers of the loader in a run lead to. -/
def loaded (c : AcceptingCache ω κ ν) (wrap : Nat → α → ν) (w : Backed ω κ ν)
    (es : List (Event ω κ ν α)) : List (LoadSite × κ × Option ν) :=
  w.trace c wrap (loading wrap) es

/-- In a run, what the cache holds for a key is changed by nothing but write-backs of some sites to
this key: no caller writes the key, and nothing that others or the cache itself do takes it away. -/
def Undisturbed (c : AcceptingCache ω κ ν) (wrap : Nat → α → ν) (own : LoadSite → Bool) (k : κ)
    (w : Backed ω κ ν) (es : List (Event ω κ ν α)) : Prop :=
  w.Throughout c wrap
    (fun w e w' =>
      toKey k (ofSites own (w.landing e)) ≠ [] ∨ c.holds w'.cache k = c.holds w.cache k) es

section

variable {c : AcceptingCache ω κ ν} {wrap : Nat → α → ν} {w w' : Backed ω κ ν}

/-! ## Writes are not lost -/

/-- What goes on after an answer is to write what the answer leads to. -/
theorem entries_next? [LawfulBEq κ] {inBackground : Bool} (wrap : α → ν) (call : Read κ)
    (a : LoadAnswer κ α) :
    ((((Request.load call).next? inBackground (a.reply wrap)).map Request.entries).getD []).Perm
      (a.writes inBackground wrap call) := by
  cases call with
  | one k =>
    cases a with
    | one r =>
      -- Only a deletion depends on whether the site is in the background.
      rcases r with (e | _ | v) | m | m <;> try exact .refl _
      cases inBackground <;> exact .refl _
    | many r => exact .refl _
  | many ks =>
    cases a with
    | one r => exact .refl _
    | many r =>
      rcases r with (e | m) | m | m <;> try exact .refl _
      have hperm : (writesOf (m.map fun _ => wrap)).Perm
          (m.toList.map fun e => (e.1, some (wrap e.2))) := by
        rw [writesOf]
        refine (Std.HashMap.toList_map.map _).trans ?_
        rw [List.map_map]
        exact .refl _
      refine .trans ?_ hperm
      simp only [LoadAnswer.reply, LoadEnd.map, Request.next?, LoadEnd.outcome, Except.map]
      -- Nothing is asked for if there is nothing to be written.
      split
      · next hempty =>
        rw [writesOf, List.isEmpty_iff.1 (Std.HashMap.isEmpty_toList.trans hempty)]
        exact .refl _
      · exact .refl _

/-- The writes that are due at a site change only where it asks for them and where one of them takes
effect. -/
private theorem due_after {e : Event ω κ ν α} (he : w.after? c wrap e = some w') {x : LoadSite}
    (hask : ∀ s, e = .own s → s.asker? ≠ some x) (hland : ∀ n, e ≠ .land x n) :
    w'.due x = w.due x := by
  rcases after?_cases he with ⟨cache, now, rfl⟩ | ⟨s, core, hs, -, rfl⟩ |
    ⟨cache, y, answer, core, -, rfl⟩ | ⟨y, n, cache, hn, rfl⟩
  · rfl
  · exact if_neg (hask s hs)
  · rfl
  · exact if_neg fun hx => hland n (by rw [hx, hn])

/-- Nothing is loaded at a site that an event does not bring on. -/
theorem loading_of_ne {e : Event ω κ ν α} {x : LoadSite} (he : e.site? ≠ some x) :
    ofSites (· == x) (w.loading wrap e) = [] := by
  cases e with
  | answer y a =>
    have hy : (y == x) = false := beq_false_of_ne fun hy => he (congrArg some hy)
    simp only [loading]
    split
    · rw [ofSites_map, hy]
      rfl
    · rfl
  | _ => rfl

/-- What takes effect in an event was pending; what the loader answers is pending afterwards. -/
theorem pending_after [LawfulBEq κ] {e : Event ω κ ν α} (h : w.core.Inv)
    (he : w.after? c wrap e = some w') (x : LoadSite) :
    (ofSites (· == x) (w.landing e) ++ w'.pending x).Perm
      (w.pending x ++ ofSites (· == x) (w.loading wrap e)) := by
  have hturn := turn_of_after? h he x
  rw [pending, pending]
  generalize hq : w.core.request? x = q? at hturn ⊢
  generalize hq' : w'.core.request? x = q?' at hturn ⊢
  cases hturn with
  | stay hsite =>
    rw [loading_of_ne hsite, List.append_nil]
    by_cases hland : ∃ n, e = .land x n
    · -- One of the writes takes effect, and the others stay pending.
      obtain ⟨n, rfl⟩ := hland
      simp only [after?] at he
      split at he
      · next ks entries k v? hwrite hn =>
        obtain rfl := Option.some.inj he
        obtain rfl := hq.symm.trans hwrite
        obtain ⟨hlt, hget⟩ := List.getElem?_eq_some_iff.1 hn
        rw [landing, ofSites_map, hn]
        simp only [beq_self_eq_true, if_true, Option.toList_some]
        rw [← hget]
        exact List.getElem_cons_eraseIdx_perm hlt
      · cases he
    · have hlanding : ofSites (· == x) (w.landing e) = [] := by
        cases e with
        | land y n =>
          have hy : (y == x) = false := beq_false_of_ne fun hy => hland ⟨n, by rw [hy]⟩
          rw [landing, ofSites_map, hy]
          rfl
        | _ => rfl
      have hdue : w'.due x = w.due x := by
        refine due_after he (fun s hs => ?_) fun n hn => hland ⟨n, hn⟩
        subst hs
        exact hsite
      rw [hlanding, hdue]
      exact .refl _
  | read r hnew => exact .refl _
  | load r hnew hback => exact .refl _
  | ask q hs =>
    rename_i s
    have hdue : w'.due x = w.pending x := by
      simp only [after?] at he
      split at he
      · obtain ⟨core, -, rfl⟩ := Option.map_eq_some_iff.1 he
        exact if_pos hs
      · cases he
    simp only [landing, loading, ofSites_nil, List.nil_append, List.append_nil, hdue, pending, hq]
    cases q <;> exact .refl _
  | serve hx hmiss =>
    rename_i i r q?
    cases q? with
    | none => exact .refl _
    | some q =>
      obtain ⟨call, rfl, -⟩ := hmiss q rfl
      exact .refl _
  | answer =>
    -- What the loader was asked for becomes what is to be written.
    rename_i a call
    have hcall : w.core.loaderCall? x = some call := RefreshDelegate.loaderCall?_eq_some_iff.2 hq
    simp only [landing, loading, hcall, ofSites_map, beq_self_eq_true, if_true, ofSites_nil,
      List.nil_append]
    refine .trans (.of_eq ?_) (entries_next? (wrap w.now) call a)
    generalize (Request.load call).next? x.inBackground (a.reply (wrap w.now)) = q?
    rcases q? with _ | _ | _ | _ <;> rfl
  | written hdue =>
    -- The site goes on only when all of its writes have taken effect.
    simp only [landing, loading, ofSites_nil, hdue, List.append_nil]
    exact .refl _

theorem landed_cons {e : Event ω κ ν α} {es : List (Event ω κ ν α)}
    (he : w.after? c wrap e = some w') :
    w.landed c wrap (e :: es) = w.landing e ++ w'.landed c wrap es := by
  simp [landed, trace, he]

theorem loaded_cons {e : Event ω κ ν α} {es : List (Event ω κ ν α)}
    (he : w.after? c wrap e = some w') :
    w.loaded c wrap (e :: es) = w.loading wrap e ++ w'.loaded c wrap es := by
  simp [loaded, trace, he]

theorem landed_append {es es' : List (Event ω κ ν α)} (hrun : w.run? c wrap es = some w') :
    w.landed c wrap (es ++ es') = w.landed c wrap es ++ w'.landed c wrap es' := by
  induction es generalizing w with
  | nil =>
    obtain rfl := Option.some.inj hrun
    rfl
  | cons e es ih =>
    obtain ⟨w₁, he, hes⟩ := Option.bind_eq_some_iff.1 hrun
    rw [List.cons_append, landed_cons he, landed_cons he, ih hes, List.append_assoc]

/-- What has landed and what is pending after a run is what was pending before it and what was
loaded, at every site. -/
theorem landed_perm [LawfulBEq κ] {es : List (Event ω κ ν α)} (h : w.core.Inv)
    (hrun : w.run? c wrap es = some w') (x : LoadSite) :
    (ofSites (· == x) (w.landed c wrap es) ++ w'.pending x).Perm
      (w.pending x ++ ofSites (· == x) (w.loaded c wrap es)) := by
  induction es generalizing w with
  | nil =>
    obtain rfl := Option.some.inj hrun
    simp [landed, loaded, trace]
  | cons e es ih =>
    obtain ⟨w₁, he, hrun⟩ := Option.bind_eq_some_iff.1 hrun
    rw [landed_cons he, loaded_cons he, ofSites_append, ofSites_append, List.append_assoc]
    -- The event first, then the rest of the run by induction.
    refine ((ih (inv_after h he) hrun).append_left _).trans ?_
    rw [← List.append_assoc, ← List.append_assoc]
    exact (pending_after h he x).append_right _

/-! ## What the cache holds in the end -/

/-- At most one write-back lands in an event, and then it is what the cache holds afterwards. -/
theorem landing_cases {e : Event ω κ ν α} (he : w.after? c wrap e = some w') :
    w.landing e = [] ∨
      ∃ x k v?, w.landing e = [(x, k, v?)] ∧ c.holds w'.cache k = v? := by
  cases e with
  | land x n =>
    simp only [after?] at he
    split at he
    · next ks entries k v? hq hn =>
      obtain rfl := Option.some.inj he
      refine .inr ⟨x, k, v?, ?_, c.holds_write w.now k v? w.cache⟩
      rw [landing, hn]
      rfl
    · cases he
  | _ => exact .inl rfl

/-- If nobody else disturbs a key, the cache holds what was written back last, and what it held
before if nothing was. -/
theorem holds_of_undisturbed [LawfulBEq κ] {own : LoadSite → Bool} {k : κ}
    {es : List (Event ω κ ν α)} (hrun : w.run? c wrap es = some w')
    (h : w.Undisturbed c wrap own k es) :
    c.holds w'.cache k =
      (toKey k (ofSites own (w.landed c wrap es))).getLast?.getD (c.holds w.cache k) := by
  induction es generalizing w with
  | nil =>
    obtain rfl := Option.some.inj hrun
    rfl
  | cons e es ih =>
    obtain ⟨w₁, he, hrun⟩ := Option.bind_eq_some_iff.1 hrun
    simp only [Undisturbed, Throughout, he] at h
    rw [landed_cons he, ofSites_append, toKey_append, ih hrun h.2]
    by_cases hnone : toKey k (ofSites own (w.landing e)) = []
    · rw [hnone, List.nil_append, h.1.resolve_left (not_not_intro hnone)]
    · -- The event is a write-back of the key, and there is only this one.
      rcases landing_cases he with hnil | ⟨x, k', v?, hsingle, hholds⟩
      · rw [hnil] at hnone
        exact absurd rfl hnone
      · rw [hsingle, toKey_ofSites_singleton] at hnone ⊢
        split at hnone
        · next hk =>
          rw [if_pos hk, List.singleton_append, List.getLast?_cons, ← eq_of_beq hk.2, hholds]
          rfl
        · exact absurd rfl hnone

/-- Nothing is pending where nothing is asked for. -/
theorem Settled.pending_eq (h : w.Settled) (x : LoadSite) : w.pending x = [] := by
  rw [pending, h x]

/-- The last write wins. Once everybody is through, and if nothing else disturbs the key, the cache
holds for it what was written back last after a caller's write, and what the caller has written (or
nothing, after a deletion) if nothing was. What was written back after the caller's write is, at
every site, what was pending then and what the loader has answered since, however long before the
loader was called. -/
theorem last_write_wins [LawfulBEq κ] {retry : Nat} {cache : ω} {w₁ w₂ w₃ : Backed ω κ ν} {k : κ}
    {v? : Option ν} {before after : List (Event ω κ ν α)}
    (hbefore : (start retry cache).run? c wrap before = some w₁)
    (hwrite : w₁.after? c wrap (.write k v?) = some w₂)
    (hafter : w₂.run? c wrap after = some w₃)
    (hquiet : w₂.Undisturbed c wrap (fun _ => true) k after) (hsettled : w₃.Settled) :
    c.holds w₃.cache k =
      (toKey k (ofSites (fun _ => true) (w₂.landed c wrap after))).getLast?.getD v? ∧
    ∀ x, (ofSites (· == x) (w₂.landed c wrap after)).Perm
      (w₁.pending x ++ ofSites (· == x) (w₂.loaded c wrap after)) := by
  have hinv : w₁.core.Inv := inv_run (.ofRetry retry) hbefore
  constructor
  · rw [holds_of_undisturbed hafter hquiet]
    obtain rfl := Option.some.inj hwrite
    rw [c.holds_write]
  · intro x
    have hperm := landed_perm (inv_after hinv hwrite) hafter x
    rw [hsettled.pending_eq x, List.append_nil] at hperm
    obtain rfl := Option.some.inj hwrite
    exact hperm

end

/-! ## A reload that is overtaken by a write -/

/-- A store that holds 10 for key 1, stamped at the first instant. -/
def holdingOne : Store Nat (Stamped Nat) :=
  { (Store.ofLimits 10 (Span.ofMillis 60000) : Store Nat (Stamped Nat)) with
    entries := (∅ : Std.HashMap Nat (Entry (Stamped Nat))).insert 1 ⟨⟨10, 0⟩, 0, 1⟩
    recency := ({} : Recency Nat).touch 1
    nextVersion := 2 }

/-- After half a second, a read finds the value of key 1 and has it loaded again. -/
def foundStale : List (Event (Store Nat (Stamped Nat)) Nat (Stamped Nat) Nat) :=
  [.wait (Span.ofMillis 500), .own (.loading (.call (.one 1))), .own (.loading (.advance 0)),
    .own (.loading (.advance 0)), .own (.loading (.ask 1)), .serve 1, .own (.loading (.chore 1)),
    .own (.loading (.chore 1)), .own (.loading (.chore 1)),
    .own (.refresh (.one 1)), .own (.loading (.leave 0)),
    .own (.advance (Span.ofMillis 500) 0), .own (.advance (Span.ofMillis 500) 0),
    .own (.advance (Span.ofMillis 500) 0)]

/-- The loader answers 11, which is written back. -/
def reloadedToEleven : List (Event (Store Nat (Stamped Nat)) Nat (Stamped Nat) Nat) :=
  [.answer (.reload 0) (.one (.answered (.ok (some 11)))), .own (.ask 0), .land (.reload 0) 0,
    .written (.reload 0), .own (.chore 0 0), .own (.chore 0 0), .own (.chore 0 0)]

private theorem overtaken_run :
    ((start 10 holdingOne).run? .ofStore (Stamped.stamp 0) foundStale).elim False fun w₁ =>
      w₁.core.loaderCall? (.reload 0) = some (.one 1) ∧
      (w₁.after? .ofStore (Stamped.stamp 0) (.write 1 (some ⟨7, 500⟩))).elim False fun w₂ =>
        w₂.Undisturbed .ofStore (Stamped.stamp 0) (fun _ => true) 1 reloadedToEleven ∧
        (w₂.run? .ofStore (Stamped.stamp 0) reloadedToEleven).elim False fun w₃ =>
          AcceptingCache.ofStore.holds w₃.cache 1 = some ⟨11, 500⟩ ∧
          (w₃.core.delegate.next = 2 ∧ w₃.core.next = 1) ∧
          w₃.core.request? (.miss 0) = none ∧ w₃.core.request? (.miss 1) = none ∧
          w₃.core.request? (.reload 0) = none := by
  cbv
  simp

/-- While the reload is at work a caller writes 7, and when everything has settled the store holds
11. -/
private theorem overtaken : ∃ w₁ w₂ w₃ : Backed (Store Nat (Stamped Nat)) Nat (Stamped Nat),
    (start 10 holdingOne).run? .ofStore (Stamped.stamp 0) foundStale = some w₁ ∧
    w₁.core.loaderCall? (.reload 0) = some (.one 1) ∧
    w₁.after? .ofStore (Stamped.stamp 0) (.write 1 (some ⟨7, 500⟩)) = some w₂ ∧
    w₂.Undisturbed .ofStore (Stamped.stamp 0) (fun _ => true) 1 reloadedToEleven ∧
    w₂.run? .ofStore (Stamped.stamp 0) reloadedToEleven = some w₃ ∧ w₃.Settled ∧
    AcceptingCache.ofStore.holds w₃.cache 1 = some ⟨11, 500⟩ := by
  obtain ⟨w₁, h₁, hcall, h⟩ := exists_of_elim overtaken_run
  obtain ⟨w₂, h₂, hquiet, h⟩ := exists_of_elim h
  obtain ⟨w₃, h₃, hholds, ⟨hnext, hnext'⟩, hmiss₀, hmiss₁, hreload⟩ := exists_of_elim h
  have hinv : w₃.core.Inv := inv_run (inv_after (inv_run (.ofRetry 10) h₁) h₂) h₃
  refine ⟨w₁, w₂, w₃, h₁, hcall, h₂, hquiet, h₃, fun x => ?_, hholds⟩
  -- There have been two resolvers at most, and one reload.
  by_cases hx : w₃.core.Knows x
  · cases x with
    | miss i =>
      have hi : i < 2 := hnext ▸ hx
      obtain rfl | rfl : i = 0 ∨ i = 1 := by omega
      · exact hmiss₀
      · exact hmiss₁
    | reload i =>
      have hi : i < 1 := hnext' ▸ hx
      obtain rfl : i = 0 := by omega
      exact hreload
  · exact hinv.request?_of_not_knows hx

/-- A caller writes 7 while a reload is at work, and in the end the store holds 11, which was
written back last. -/
theorem last_write_wins_overtaken :
    ∃ w₁ w₂ w₃ : Backed (Store Nat (Stamped Nat)) Nat (Stamped Nat),
      (start 10 holdingOne).run? .ofStore (Stamped.stamp 0) foundStale = some w₁ ∧
      w₁.after? .ofStore (Stamped.stamp 0) (.write 1 (some ⟨7, 500⟩)) = some w₂ ∧
      w₂.run? .ofStore (Stamped.stamp 0) reloadedToEleven = some w₃ ∧
      w₂.Undisturbed .ofStore (Stamped.stamp 0) (fun _ => true) 1 reloadedToEleven ∧ w₃.Settled ∧
      AcceptingCache.ofStore.holds w₃.cache 1 = some ⟨11, 500⟩ ∧
      AcceptingCache.ofStore.holds w₃.cache 1 =
        (toKey 1 (ofSites (fun _ => true)
          (w₂.landed .ofStore (Stamped.stamp 0) reloadedToEleven))).getLast?.getD
            (some ⟨7, 500⟩) ∧
      ∀ x, (ofSites (· == x) (w₂.landed .ofStore (Stamped.stamp 0) reloadedToEleven)).Perm
        (w₁.pending x ++
          ofSites (· == x) (w₂.loaded .ofStore (Stamped.stamp 0) reloadedToEleven)) := by
  obtain ⟨w₁, w₂, w₃, h₁, -, h₂, hquiet, h₃, hsettled, hholds⟩ := overtaken
  exact ⟨w₁, w₂, w₃, h₁, h₂, h₃, hquiet, hsettled, hholds,
    last_write_wins h₁ h₂ h₃ hquiet hsettled⟩

/-- It is not true that a caller's write stays when a load of its key was at work before it: the
write-back of the load may undo it. -/
theorem write_back_overwrites : ¬ ∀ (before after : List (Event (Store Nat (Stamped Nat)) Nat
      (Stamped Nat) Nat)) (w₁ w₂ w₃ : Backed (Store Nat (Stamped Nat)) Nat (Stamped Nat)) (k : Nat)
      (v? : Option (Stamped Nat)) (x : LoadSite) (call : Read Nat),
    (start 10 holdingOne).run? .ofStore (Stamped.stamp 0) before = some w₁ →
    w₁.core.loaderCall? x = some call → k ∈ call.keys →
    w₁.after? .ofStore (Stamped.stamp 0) (.write k v?) = some w₂ →
    w₂.Undisturbed .ofStore (Stamped.stamp 0) (fun _ => true) k after →
    w₂.run? .ofStore (Stamped.stamp 0) after = some w₃ → w₃.Settled →
    AcceptingCache.ofStore.holds w₃.cache k = v? := by
  intro hstays
  obtain ⟨w₁, w₂, w₃, h₁, hcall, h₂, hquiet, h₃, hsettled, hholds⟩ := overtaken
  have hkept := hstays _ _ w₁ w₂ w₃ 1 _ _ _ h₁ hcall (List.mem_singleton_self 1) h₂ hquiet h₃
    hsettled
  rw [hkept] at hholds
  exact absurd hholds (by decide)

end Backed

end CacheLayer
