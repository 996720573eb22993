import CacheLayer.Proofs.Loading.Layered
import CacheLayer.Proofs.Store.Each
import CacheLayer.Proofs.Store.Recast
/-!
# Where stamped values come from

A refreshing delegate over a local cache keeps values with stamps. Whatever happens, each of them
bears the stamp of the instant at which a caller or its mapper handed it over to be written, or of
the instant at which it arrived from the loader, however long the cache took to store it. If time
stands still while values are on their way to the store, a value that was handed over bears the
stamp of the very instant at which it was stored.

## Key results

- `Layered.Unpaused`: a run in which time stands still while values are on their way to the store
- `Layered.Origin`: where a stored value and its stamp come from
- `Layered.Accounted.after?`: one event keeps account of the origins
- `Layered.Accounted.run?`: a whole run does
-/

namespace CacheLayer

variable {κ ν α : Type} [BEq κ] [Hashable κ]

/-- A value that is written has to meet the condition. A key without a value is deleted. -/
theorem Store.Each.write [LawfulBEq κ] {P : κ → ν → Nat → Prop} {s : Store κ ν} (h : s.Each P)
    {now : Nat} {k : κ} {v? : Option ν} (hP : ∀ v, v? = some v → P k v now) :
    (s.write now k v?).Each P := by
  cases v? with
  | some v => exact h.set (hP v rfl)
  | none => exact h.drops (Drops.delete s now k)

/-- The value that an update is about to write. -/
def Mapping.value? : Mapping ν → Option ν
  | toWrite _ _ v => some v
  | _ => none

namespace Layered

/-! ## Values on their way -/

/-- No value is on its way from a caller or from its mapper to the store. -/
structure EmptyHanded {δ ν : Type} (w : Layered δ κ ν α) : Prop where
  writes : ∀ c ∈ w.writes, c.kept = []
  calls : ∀ c ∈ w.calls, c.state.value? = none

/-- A run in which time passes only while no value is on its way to the store. -/
def Unpaused {δ ν : Type} (K : DelegateKind δ κ ν α) (w : Layered δ κ ν α) :
    List (Event κ α) → Prop
  | [] => True
  | e :: es =>
    (∀ span, e = .wait span → w.EmptyHanded) ∧ ∀ r ∈ w.after? K e, r.2.Unpaused K es

/-! ## Origins -/

/-- A caller has handed over a value for a key at an instant, or its mapper has. -/
def Given (history : List (Nat × Event κ α × Output κ α)) (t : Nat) (k : κ) (v : α) : Prop :=
  ∃ e, (t, e, .given k v) ∈ history

/-- A value has arrived from the loader for a key by an instant, and bears the stamp of its
arrival. -/
def Arrived (p : RefreshSetting) (history : List (Nat × Event κ α × Output κ α)) (k : κ)
    (v : Stamped α) (now : Nat) : Prop :=
  ∃ t ≤ now, ∃ x a call, (t, .answer x a, .answered call) ∈ history ∧
    (k, some v) ∈ a.writes x.inBackground (Stamped.stamp p.epoch t) call

/-- Where a value comes from that is there for a key at an instant: it was handed over to be
written, and bears the stamp of that instant, or it has arrived from the loader. If it is known to
be `prompt`, what was handed over was handed over at this very instant. -/
inductive Origin (p : RefreshSetting) (prompt : Prop)
    (history : List (Nat × Event κ α × Output κ α)) (k : κ) : Stamped α → Nat → Prop where
  | written {t now : Nat} {v : α} : Given history t k v → t ≤ now → (prompt → t = now) →
    Origin p prompt history k (Stamped.stamp p.epoch t v) now
  | arrived {now : Nat} {v : Stamped α} : Arrived p history k v now →
    Origin p prompt history k v now

variable {p : RefreshSetting} {prompt : Prop}
  {history history' : List (Nat × Event κ α × Output κ α)} {k : κ} {v : Stamped α} {now now' : Nat}

theorem Arrived.mono (h : Arrived p history k v now) (hsub : history ⊆ history')
    (hle : now ≤ now') : Arrived p history' k v now' := by
  obtain ⟨t, ht, x, a, call, hmem, hwrites⟩ := h
  exact ⟨t, Nat.le_trans ht hle, x, a, call, hsub hmem, hwrites⟩

/-- An origin stays known while more happens. -/
theorem Origin.mono (h : Origin p prompt history k v now) (hsub : history ⊆ history') :
    Origin p prompt history' k v now := by
  cases h with
  | written hgiven ht hprompt =>
    obtain ⟨e, hmem⟩ := hgiven
    exact .written ⟨e, hsub hmem⟩ ht hprompt
  | arrived harrived => exact .arrived (harrived.mono hsub (Nat.le_refl _))

/-- Time may pass without the value being stored, unless it is to be prompt. -/
theorem Origin.later (h : Origin p prompt history k v now) (hnot : ¬ prompt) (hle : now ≤ now') :
    Origin p prompt history k v now' := by
  cases h with
  | written hgiven ht _ => exact .written hgiven (Nat.le_trans ht hle) fun hp => absurd hp hnot
  | arrived harrived => exact .arrived (harrived.mono (List.Subset.refl _) hle)

/-- After what has happened, the origins are known of all that the cache holds, and of all that it
is still to be given. -/
structure Accounted (p : RefreshSetting) (prompt : Prop)
    (history : List (Nat × Event κ α × Output κ α))
    (w : Layered (RefreshDelegate κ (Stamped α)) κ (Stamped α) α) : Prop where
  core : w.core.Inv
  stored : w.inStore.Each (Origin p prompt history)
  asked : ∀ {x : LoadSite} {q : Request κ (Stamped α)} {asked : Bool},
    w.core.request? x = some (q, asked) → ∀ {k : κ} {v : Stamped α}, (k, some v) ∈ q.entries →
      Arrived p history k v w.now
  writes : ∀ c ∈ w.writes, ∀ e ∈ c.kept, Origin p prompt history e.1 e.2 w.now
  calls : ∀ c ∈ w.calls, ∀ v ∈ c.state.value?, Origin p prompt history c.key v w.now

/-- What is seen of a step of the delegate. -/
private theorem own?_fst {δ ν : Type} {K : DelegateKind δ κ ν α} {w w' : Layered δ κ ν α}
    {s : RefreshDelegate.Step κ ν} {out out' : Output κ α}
    (h : w.own? K s out = some (out', w')) : out' = out := by
  obtain ⟨core, -, heq⟩ := Option.map_eq_some_iff.1 h
  exact (Prod.mk.inj heq).1.symm

namespace Accounted

variable {w w' : Layered (RefreshDelegate κ (Stamped α)) κ (Stamped α) α}

/-- A new delegate before an empty cache has nothing to account for. -/
theorem start (p : RefreshSetting) (prompt : Prop) (c : Config) :
    Accounted p prompt [] (Layered.start (.ofRetry p.retry) c :
      Layered (RefreshDelegate κ (Stamped α)) κ (Stamped α) α) where
  core := .ofRetry p.retry
  stored := .ofLimits _ _
  asked {x q asked} hq := by
    cases x <;> simp [Layered.start, RefreshDelegate.request?, RefreshDelegate.ofRetry] at hq
  writes c hc := absurd hc List.not_mem_nil
  calls c hc := absurd hc List.not_mem_nil

theorem mono (h : Accounted p prompt history w) (hsub : history ⊆ history') :
    Accounted p prompt history' w where
  core := h.core
  stored := h.stored.mono fun _ _ _ horigin => horigin.mono hsub
  asked {_ _ _} hq {_ _} hmem := (h.asked hq hmem).mono hsub (Nat.le_refl _)
  writes c hc e he := (h.writes c hc e he).mono hsub
  calls c hc v hv := (h.calls c hc v hv).mono hsub

/-- Only the cache changes, to something that is accounted for. -/
private theorem withCache (h : Accounted p prompt history w)
    {cache : Swept (LocalCache κ (Stamped α))}
    (hcache : cache.state.store.Each (Origin p prompt history)) (hnow : cache.now = w.cache.now) :
    Accounted p prompt history { w with cache := cache } where
  core := h.core
  stored := hcache
  asked {_ _ _} hq {_ _} hmem := by
    rw [now, hnow]
    exact h.asked hq hmem
  writes c hc e he := by
    rw [now, hnow]
    exact h.writes c hc e he
  calls c hc v hv := by
    rw [now, hnow]
    exact h.calls c hc v hv

/-- Time passes. What is to be prompt is not on its way then. -/
private theorem wait (h : Accounted p prompt history w) (hidle : prompt → w.EmptyHanded)
    (span : Nat) : Accounted p prompt history { w with cache := w.cache.advance span } where
  core := h.core
  stored := h.stored
  asked {_ _ _} hq {_ _} hmem := (h.asked hq hmem).mono (List.Subset.refl _) (Nat.le_add_right _ _)
  writes c hc e he := by
    refine (h.writes c hc e he).later (fun hprompt => ?_) (Nat.le_add_right _ _)
    rw [(hidle hprompt).writes c hc] at he
    exact List.not_mem_nil he
  calls c hc v hv := by
    refine (h.calls c hc v hv).later (fun hprompt => ?_) (Nat.le_add_right _ _)
    rw [(hidle hprompt).calls c hc] at hv
    cases hv

/-- A caller begins a write, or a write goes on: what is kept for it has to be accounted for. -/
private theorem withWriting (h : Accounted p prompt history w)
    {writes : List (Writing κ (Stamped α) α)}
    (hwrites : ∀ c ∈ writes, ∀ e ∈ c.kept, Origin p prompt history e.1 e.2 w.now) :
    Accounted p prompt history { w with writes := writes } :=
  ⟨h.core, h.stored, h.asked, hwrites, h.calls⟩

/-- A caller begins an update, or an update goes on: what it is to write has to be accounted for. -/
private theorem withCalls (h : Accounted p prompt history w)
    {calls : List (MapperCall κ (Stamped α))}
    (hcalls : ∀ c ∈ calls, ∀ v ∈ c.state.value?, Origin p prompt history c.key v w.now) :
    Accounted p prompt history { w with calls := calls } :=
  ⟨h.core, h.stored, h.asked, h.writes, hcalls⟩

/-- After a read, or after a write that was asked for, nothing new is to be written. -/
private theorem entries_next? {inBackground : Bool} {q q' : Request κ (Stamped α)}
    (hq : ∀ r, q ≠ .load r) {answer : Reply κ (Stamped α)}
    (h : q.next? inBackground answer = some q') : q'.entries = [] := by
  cases q with
  | load r => exact absurd rfl (hq r)
  | write ks entries => cases h
  | read r =>
    cases r with
    | one k =>
      cases answer <;> simp only [Request.next?, reduceCtorEq] at h
      split at h
      · cases h
      · rw [← Option.some.inj h]
        rfl
    | many ks =>
      cases answer <;> simp only [Request.next?, reduceCtorEq] at h
      split at h
      · cases h
      · rw [← Option.some.inj h]
        rfl

variable [LawfulBEq κ]

/-- A step of the delegate. What a site is to write after a reply has to have arrived. -/
private theorem step (h : Accounted p prompt history w) {s : RefreshDelegate.Step κ (Stamped α)}
    {core : RefreshDelegate κ (Stamped α)} (hs : w.core.step? s = some core)
    (htold : ∀ x q answer q', s = x.told answer → w.core.request? x = some (q, true) →
      q.next? x.inBackground answer = some q' → ∀ k v, (k, some v) ∈ q'.entries →
        Arrived p history k v w.now) :
    Accounted p prompt history { w with core := core } where
  core := h.core.moves (RefreshDelegate.moves_of_step? hs)
  stored := h.stored
  writes := h.writes
  calls := h.calls
  asked {x q' asked'} hq' {k v} hmem := by
    rcases RefreshDelegate.request?_of_step? h.core hs hq' with hnil | ⟨asked, hq⟩ |
      ⟨q, answer, htells, hq, hnext⟩
    · rw [hnil] at hmem
      exact absurd hmem List.not_mem_nil
    · exact h.asked hq hmem
    · exact htold x q answer q' htells hq hnext k v hmem

/-- A step that is no reply. -/
private theorem own (h : Accounted p prompt history w) {s : RefreshDelegate.Step κ (Stamped α)}
    (hs : ∀ x answer, s ≠ LoadSite.told x answer) {out out' : Output κ α}
    (he : w.own? (.refreshing p) s out = some (out', w')) : Accounted p prompt history w' := by
  obtain ⟨core, hcore, heq⟩ := Option.map_eq_some_iff.1 he
  obtain ⟨-, rfl⟩ := Prod.mk.inj heq
  exact h.step hcore fun x q answer q' htells => absurd htells (hs x answer)

/-- A step in which a site is told a reply. -/
private theorem told (h : Accounted p prompt history w) {x : LoadSite} {q : Request κ (Stamped α)}
    (hq : w.core.request? x = some (q, true)) {answer : Reply κ (Stamped α)}
    (harrived : ∀ q', q.next? x.inBackground answer = some q' → ∀ k v, (k, some v) ∈ q'.entries →
      Arrived p history k v w.now) {out out' : Output κ α}
    (he : w.own? (.refreshing p) (x.told answer) out = some (out', w')) :
    Accounted p prompt history w' := by
  obtain ⟨core, hcore, heq⟩ := Option.map_eq_some_iff.1 he
  obtain ⟨-, rfl⟩ := Prod.mk.inj heq
  refine h.step hcore fun y q₁ answer₁ q' htells hq₁ hnext => ?_
  have hsame : y = x ∧ answer₁ = answer := by
    cases x <;> cases y <;> cases htells <;> exact ⟨rfl, rfl⟩
  obtain ⟨rfl, rfl⟩ := hsame
  obtain ⟨rfl, -⟩ := Prod.mk.inj (Option.some.inj (hq.symm.trans hq₁))
  exact harrived q' hnext

/-- The cache does what a site has asked for, which is not what the loader has to do. -/
private theorem tell (h : Accounted p prompt history w) {x : LoadSite} {q : Request κ (Stamped α)}
    (hq : w.core.request? x = some (q, true)) (hload : ∀ r, q ≠ .load r) {out out' : Output κ α}
    {F : Store κ (Stamped α) → Nat → Reply κ (Stamped α) × Store κ (Stamped α)}
    (he : w.tell? (.refreshing p) x out F = some (out', w'))
    (hF : (F w.inStore w.now).2.Each (Origin p prompt history)) :
    Accounted p prompt history w' := by
  have hcache : Accounted p prompt history { w with cache := (w.cache.onStore F).2 } :=
    h.withCache hF rfl
  refine hcache.told hq (fun q' hnext k v hmem => ?_) he
  rw [entries_next? hload hnext] at hmem
  exact absurd hmem List.not_mem_nil

/-- The end of a read. -/
private theorem finish (h : Accounted p prompt history w) {caller : Nat} {stale : List κ}
    {out : Output κ α} (he : w.after? (.refreshing p) (.finish caller stale) = some (out, w')) :
    Accounted p prompt history w' := by
  simp only [Layered.after?] at he
  split at he
  · next r core hr hcore =>
    obtain ⟨-, rfl⟩ := Prod.mk.inj (Option.some.inj he)
    obtain ⟨c, r, hc, hw, -, -, hend⟩ := RefreshDelegate.finish?_cases hcore
    -- The caller leaves, and then somebody may be about to start a reload.
    have hleave : w.core.step? (.loading (.leave caller)) = some (w.core.left caller) := by
      simp [RefreshDelegate.step?, Delegate.step?, Delegate.stepCaller?, hc, hw,
        RefreshDelegate.left]
    have hleft := h.step hleave fun x q answer q' htells => by
      cases x <;> cases htells
    rcases hend with ⟨-, rfl⟩ | ⟨again, -, -, -, rfl⟩
    · exact hleft
    · refine hleft.step (s := .refresh again) rfl fun x q answer q' htells => ?_
      cases x <;> cases htells
  · cases he

/-- A starter takes its next step. -/
private theorem restart (h : Accounted p prompt history w) {i : Nat} {out : Output κ α}
    (he : w.after? (.refreshing p) (.restart i) = some (out, w')) :
    Accounted p prompt history w' := by
  obtain ⟨core, hcore, heq⟩ := Option.map_eq_some_iff.1 he
  obtain ⟨-, rfl⟩ := Prod.mk.inj heq
  refine h.step (s := .advance w.now i) hcore fun x q answer q' htells => ?_
  cases x <;> cases htells

/-- The cache answers the read of a site. -/
private theorem serve (h : Accounted p prompt history w) {x : LoadSite} {out : Output κ α}
    (he : w.after? (.refreshing p) (.serve x) = some (out, w')) :
    Accounted p prompt history w' := by
  simp only [Layered.after?] at he
  split at he
  · next k hq => exact h.tell hq (by simp) he (h.stored.get w.now k)
  · next ks hq => exact h.tell hq (by simp) he (h.stored.getBulk w.now ks)
  · cases he

/-- A write that a site has asked for takes effect. -/
private theorem land (h : Accounted p prompt history w) {x : LoadSite} {k : κ} {out : Output κ α}
    (he : w.after? (.refreshing p) (.land x k) = some (out, w')) :
    Accounted p prompt history w' := by
  simp only [Layered.after?] at he
  split at he
  · next ks entries hq =>
    split at he
    · next v? hv =>
      split at he
      · cases he
      · obtain ⟨rfl, rfl⟩ := Prod.mk.inj (Option.some.inj he)
        -- What the site asks to be written is not stamped again.
        obtain ⟨l₁, l₂, hsplit, -⟩ := List.lookup_eq_some_iff.1 hv
        have hstored : (w.inStore.write w.now k v?).Each (Origin p prompt history) :=
          h.stored.write fun v hvalue =>
            .arrived (h.asked hq (by simp [Request.entries, hsplit, hvalue]))
        exact ⟨h.core, hstored, h.asked, h.writes, h.calls⟩
    · cases he
  · cases he

/-- A site is told that its writes are done, and has nothing more to write. -/
private theorem written (h : Accounted p prompt history w) {x : LoadSite} {out : Output κ α}
    (he : w.after? (.refreshing p) (.written x) = some (out, w')) :
    Accounted p prompt history w' := by
  simp only [Layered.after?] at he
  split at he
  · next ks entries hq =>
    split at he
    · refine h.told hq (fun q' hnext => ?_) he
      cases hnext
    · cases he
  · cases he

/-- The loader answers a site: what it brings has arrived. -/
private theorem answer (h : Accounted p prompt history w) {x : LoadSite} {a : LoadAnswer κ α}
    {out : Output κ α} (hmem : (w.now, .answer x a, out) ∈ history)
    (he : w.after? (.refreshing p) (.answer x a) = some (out, w')) :
    Accounted p prompt history w' := by
  simp only [Layered.after?] at he
  split at he
  · next call hq =>
    obtain rfl : out = .answered call := own?_fst he
    refine h.told hq (fun q' hnext k v hentry => ?_) he
    -- All that the site goes on with is what the answer leads to.
    have hperm : ((((Request.load call).next? x.inBackground
        (a.reply (Stamped.stamp p.epoch w.now))).map Request.entries).getD []).Perm
        (a.writes x.inBackground (Stamped.stamp p.epoch w.now) call) :=
      Backed.entries_next? _ call a
    have hnext' : (Request.load call).next? x.inBackground
        (a.reply (Stamped.stamp p.epoch w.now)) = some q' := hnext
    rw [hnext'] at hperm
    exact ⟨w.now, Nat.le_refl _, x, a, call, hmem, hperm.subset hentry⟩
  · cases he

omit [LawfulBEq κ] in
/-- A caller begins a write. -/
private theorem begin (h : Accounted p prompt history w) (c : Writing κ (Stamped α) α)
    (hc : c.kept = []) : Accounted p prompt history { w with writes := w.writes ++ [c] } := by
  refine h.withWriting fun c' hmemc e hmeme => ?_
  rcases List.mem_append.1 hmemc with hold | hnew
  · exact h.writes c' hold e hmeme
  · rw [List.mem_singleton.1 hnew, hc] at hmeme
    exact absurd hmeme List.not_mem_nil

omit [LawfulBEq κ] in
/-- A value of a caller's write is taken up, and is stamped with this instant. -/
private theorem takeUp (h : Accounted p prompt history w) {i : Nat} {out : Output κ α}
    (hmem : (w.now, .takeUp i, out) ∈ history)
    (he : w.after? (.refreshing p) (.takeUp i) = some (out, w')) :
    Accounted p prompt history w' := by
  simp only [Layered.after?] at he
  split at he
  · next single k v todo kept stored answered hc =>
    obtain ⟨rfl, rfl⟩ := Prod.mk.inj (Option.some.inj he)
    refine h.withWriting fun c hmemc e hkept => ?_
    rcases List.mem_or_eq_of_mem_set hmemc with hold | rfl
    · exact h.writes c hold e hkept
    · rcases List.mem_append.1 hkept with hold | hnew
      · exact h.writes _ (List.mem_of_getElem? hc) e hold
      · rw [List.mem_singleton.1 hnew]
        exact .written ⟨.takeUp i, hmem⟩ (Nat.le_refl _) fun _ => rfl
  · cases he

/-- A value of a caller's write is stored, with the stamp that it has. -/
private theorem put (h : Accounted p prompt history w) {i n : Nat} {out : Output κ α}
    (he : w.after? (.refreshing p) (.put i n) = some (out, w')) :
    Accounted p prompt history w' := by
  simp only [Layered.after?] at he
  split at he
  · next single kept stored answered hc =>
    split at he
    · next k v hn =>
      -- Storing it takes no new stamp, whatever time it is by now.
      obtain ⟨rfl, rfl⟩ := Prod.mk.inj (Option.some.inj he)
      have hkept := h.writes _ (List.mem_of_getElem? hc)
      have hstored : (w.inStore.set w.now k v).Each (Origin p prompt history) :=
        h.stored.set (hkept _ (List.mem_of_getElem? hn))
      have hcached : Accounted p prompt history
          { w with cache := (w.cache.onStore fun s now => ((), s.set now k v)).2 } :=
        h.withCache hstored rfl
      refine hcached.withWriting fun c hmemc e hmeme => ?_
      rcases List.mem_or_eq_of_mem_set hmemc with hold | rfl
      · exact h.writes c hold e hmeme
      · exact hkept e (List.mem_of_mem_eraseIdx hmeme)
    · cases he
  · cases he

omit [LawfulBEq κ] in
/-- A caller's write answers. -/
private theorem wrote (h : Accounted p prompt history w) {i : Nat} {out : Output κ α}
    (he : w.after? (.refreshing p) (.wrote i) = some (out, w')) :
    Accounted p prompt history w' := by
  simp only [Layered.after?] at he
  split at he
  · obtain ⟨rfl, rfl⟩ := Prod.mk.inj (Option.some.inj he)
    refine h.withWriting fun c hmemc e hmeme => ?_
    rcases List.mem_or_eq_of_mem_set hmemc with hold | rfl
    · exact h.writes c hold e hmeme
    · exact absurd hmeme List.not_mem_nil
  · cases he

/-- An update takes a step. What its mapper answers is stamped with this instant, and what it writes
has its stamp already. -/
private theorem mapStep? (h : Accounted p prompt history w) {k : κ} {f : Mapper α}
    {u u' : Mapping (Stamped α)} {out : Output κ α} {cache : Swept (LocalCache κ (Stamped α))}
    (hu : ∀ v ∈ u.value?, Origin p prompt history k v w.now)
    (hgiven : ∀ v, out = .given k v → Given history w.now k v)
    (he : Layered.mapStep? (.refreshing p) k f u w.cache = some (out, u', cache)) :
    Accounted p prompt history { w with cache := cache } ∧ cache.now = w.now ∧
      ∀ v ∈ u'.value?, Origin p prompt history k v w.now := by
  have hsame : Accounted p prompt history { w with cache := w.cache } := h
  have hnothing : ∀ v ∈ (none : Option (Stamped α)), Origin p prompt history k v w.now := by
    intro v hv
    cases hv
  -- Only the answer of the mapper makes a new value, and it is stamped on the spot.
  cases u with
  | toRead left =>
    cases left with
    | zero =>
      cases he
      exact ⟨hsame, rfl, hnothing⟩
    | succ left =>
      obtain ⟨-, heq⟩ := Prod.mk.inj (Option.some.inj he)
      obtain ⟨rfl, rfl⟩ := Prod.mk.inj heq
      have hread := h.stored.drops (Store.Drops.peekEntry w.inStore w.now k)
      exact ⟨h.withCache hread rfl, rfl, hnothing⟩
  | toMap left version? current =>
    simp only [Layered.mapStep?] at he
    split at he
    · next v hv =>
      cases he
      refine ⟨hsame, rfl, fun v' hv' => ?_⟩
      obtain rfl := Option.some.inj hv'
      exact .written (hgiven v rfl) (Nat.le_refl _) fun _ => rfl
    · cases he
      exact ⟨hsame, rfl, hnothing⟩
  | toWrite left version? v =>
    have hcache : Accounted p prompt history
        { w with cache := ((Swept.updater k).write version? v w.cache).2 } :=
      h.withCache (h.stored.updateWrite fun _ => hu v rfl) rfl
    have hnow : ((Swept.updater k).write version? v w.cache).2.now = w.now := rfl
    simp only [Layered.mapStep?] at he
    generalize (Swept.updater k).write version? v w.cache = r at he hcache hnow
    -- Whether the write has failed, came too late or took effect, the update has no value left.
    obtain ⟨e | _ | answer, cache'⟩ := r
    all_goals
      cases he
      exact ⟨hcache, hnow, hnothing⟩
  | done answer => cases he

/-- An update that a caller has begun takes a step. -/
private theorem updateStep (h : Accounted p prompt history w) {i : Nat} {f : Mapper α}
    {out : Output κ α} (hmem : (w.now, .updateStep i f, out) ∈ history)
    (he : w.after? (.refreshing p) (.updateStep i f) = some (out, w')) :
    Accounted p prompt history w' := by
  simp only [Layered.after?] at he
  split at he
  · cases he
  · next c hc =>
    obtain ⟨⟨out', state, cache⟩, hstep, heq⟩ := Option.map_eq_some_iff.1 he
    obtain ⟨rfl, rfl⟩ := Prod.mk.inj heq
    have hcall := h.calls c (List.mem_of_getElem? hc)
    obtain ⟨hcache, hnow, hstate⟩ := h.mapStep? hcall
      (fun v heq => ⟨.updateStep i f, heq ▸ hmem⟩) hstep
    refine hcache.withCalls fun c' hmemc v hv => ?_
    rcases List.mem_or_eq_of_mem_set hmemc with hold | rfl
    · exact hcache.calls c' hold v hv
    · rw [now, hnow]
      exact hstate v hv

/-- One event keeps account of the origins. -/
theorem after? (h : Accounted p prompt history w) {e : Event κ α} {out : Output κ α}
    (hidle : prompt → ∀ span, e = .wait span → w.EmptyHanded)
    (he : w.after? (.refreshing p) e = some (out, w')) :
    Accounted p prompt (history ++ [(w.now, e, out)]) w' := by
  -- What was accounted for still is, and the event itself may account for more.
  have hbefore := h.mono (List.subset_append_left history [(w.now, e, out)])
  have hmem : (w.now, e, out) ∈ history ++ [(w.now, e, out)] :=
    List.mem_append_right _ (List.mem_singleton_self _)
  generalize history ++ [(w.now, e, out)] = history' at hbefore hmem ⊢
  clear h
  cases e with
  -- Steps that are no replies give the sites nothing new to write.
  | call r => exact hbefore.own (fun x answer => by cases x <;> simp [LoadSite.told]) he
  | advance i => exact hbefore.own (fun x answer => by cases x <;> simp [LoadSite.told]) he
  | leave i => exact hbefore.own (fun x answer => by cases x <;> simp [LoadSite.told]) he
  | finish i stale => exact hbefore.finish he
  | restart i => exact hbefore.restart he
  | chore y =>
    refine hbefore.own (fun x answer => ?_) he
    cases x <;> cases y <;> simp [LoadSite.told, LoadSite.choring]
  | ask y =>
    refine hbefore.own (fun x answer => ?_) he
    cases x <;> cases y <;> simp [LoadSite.told, LoadSite.asking]
  | tear y =>
    refine hbefore.own (fun x answer => ?_) he
    cases x <;> cases y <;> simp [LoadSite.told, LoadSite.tearing]
  | serve x => exact hbefore.serve he
  | land x k => exact hbefore.land he
  | written x => exact hbefore.written he
  | answer x a => exact hbefore.answer hmem he
  -- Callers that begin to write have handed over nothing yet.
  | set k v =>
    obtain ⟨rfl, rfl⟩ := Prod.mk.inj (Option.some.inj he)
    exact hbefore.begin _ rfl
  | setMany entries =>
    obtain ⟨rfl, rfl⟩ := Prod.mk.inj (Option.some.inj he)
    exact hbefore.begin _ rfl
  | takeUp i => exact hbefore.takeUp hmem he
  | put i n => exact hbefore.put he
  | wrote i => exact hbefore.wrote he
  | delete k =>
    obtain ⟨rfl, rfl⟩ := Prod.mk.inj (Option.some.inj he)
    have hdrops := hbefore.stored.drops (Store.Drops.delete w.inStore w.now k)
    exact hbefore.withCache hdrops rfl
  | update k attempts =>
    obtain ⟨rfl, rfl⟩ := Prod.mk.inj (Option.some.inj he)
    refine hbefore.withCalls fun c hmemc v hv => ?_
    rcases List.mem_append.1 hmemc with hold | hnew
    · exact hbefore.calls c hold v hv
    · rw [List.mem_singleton.1 hnew] at hv
      cases hv
  | updateStep i f => exact hbefore.updateStep hmem he
  | sweep =>
    obtain ⟨rfl, rfl⟩ := Prod.mk.inj (Option.some.inj he)
    have hdrops := hbefore.stored.drops (Store.Drops.sweep w.inStore w.now)
    exact hbefore.withCache hdrops rfl
  | wait span =>
    obtain ⟨rfl, rfl⟩ := Prod.mk.inj (Option.some.inj he)
    exact hbefore.wait (fun hprompt => hidle hprompt span rfl) span

/-- A run keeps account of the origins. -/
theorem run? {es : List (Event κ α)} {seen : List (Nat × Event κ α × Output κ α)}
    (h : Accounted p prompt history w) (hprompt : prompt → w.Unpaused (.refreshing p) es)
    (hrun : w.run? (.refreshing p) es = some (seen, w')) :
    Accounted p prompt (history ++ seen) w' := by
  induction es generalizing w history seen with
  | nil =>
    obtain ⟨rfl, rfl⟩ := Prod.mk.inj (Option.some.inj hrun)
    rw [List.append_nil]
    exact h
  | cons e es ih =>
    obtain ⟨⟨out, w₁⟩, he, hrun⟩ := Option.bind_eq_some_iff.1 hrun
    obtain ⟨⟨seen', w₂⟩, hes, heq⟩ := Option.map_eq_some_iff.1 hrun
    obtain ⟨rfl, rfl⟩ := Prod.mk.inj heq
    have hrest := ih (h.after? (fun hp => (hprompt hp).1) he)
      (fun hp => (hprompt hp).2 _ he) hes
    rw [List.append_assoc] at hrest
    exact hrest

end Accounted

end Layered

end CacheLayer
