import CacheLayer.Proofs.Loading.Reloading
import CacheLayer.Proofs.Loading.SingleFlight
/-!
# Loads on a miss and loads in the background

A refreshing delegate calls the loader from two sites: a resolver calls it on a miss, a reload calls
it for what is stale. The flights of the two sites are kept apart. So each site calls the loader for
a key at most once at a time, but a miss and a reload may both have called it for one key.

## Key results

- `RefreshDelegate.one_loaderCall_of_each_site`: no two outstanding calls of one site cover one key
- `RefreshDelegate.miss_during_reload`: a miss and a reload may load one key at the same time
-/

namespace CacheLayer

variable {κ ν : Type} [BEq κ] [Hashable κ]

/-- The call of the loader that a question is. -/
def ReloadQuestion.loaderCall? : ReloadQuestion κ ν → Option (Read κ)
  | load g => some (.one g.key)
  | loadMany gs => some (.many (gs.map Guard.key))
  | _ => none

/-- The call of the loader that a reload has made and whose answer it waits for. -/
def Reload.loaderCall? (r : Reload κ ν) : Option (Read κ) :=
  if r.asked then r.question?.bind ReloadQuestion.loaderCall? else none

/-- Who calls the loader. -/
inductive LoadSite where
  /-- A resolver of the loading delegate, on a miss. -/
  | miss (resolver : Nat)
  /-- A reload in the background. -/
  | reload (reload : Nat)

/-- Whether the loader is called in the background. -/
def LoadSite.inBackground : LoadSite → Bool
  | miss _ => false
  | reload _ => true

namespace RefreshDelegate

/-- The call of the loader that is outstanding at a site. -/
def loaderCall? (d : RefreshDelegate κ ν) : LoadSite → Option (Read κ)
  | .miss i => d.delegate.loaderCall? i
  | .reload i => d.reloads[i]?.bind Reload.loaderCall?

/-- Who calls the loader for keys in the background holds guards for them. -/
private theorem exists_reloadQuestion {d : RefreshDelegate κ ν} {i : Nat} {call : Read κ}
    (h : d.loaderCall? (.reload i) = some call) :
    ∃ r q, d.reloads[i]? = some r ∧ r.question? = some q ∧ q.loaderCall? = some call ∧
      q.guards.Sublist (d.held (.reload i)) ∧ q.guards.map Guard.key = call.keys := by
  obtain ⟨r, hr, hcall⟩ := Option.bind_eq_some_iff.1 h
  unfold Reload.loaderCall? at hcall
  split at hcall
  · obtain ⟨q, hq, hcall⟩ := Option.bind_eq_some_iff.1 hcall
    refine ⟨r, q, hr, hq, hcall, ?_, ?_⟩
    · have hheld : d.held (.reload i) = Chore.removals r.onFlights ++ q.guards := by
        simp [held, hr, Reload.guards, Reload.later, hq]
      rw [hheld]
      exact List.sublist_append_right _ _
    · cases q with
      | load g => exact congrArg Read.keys (Option.some.inj hcall)
      | loadMany gs => exact congrArg Read.keys (Option.some.inj hcall)
      | write g v => cases hcall
      | delete g => cases hcall
      | writeMany gs entries => cases hcall
  · cases hcall

/-- Two outstanding calls of reloads for one key are one call. -/
private theorem Inv.reload_inj {d : RefreshDelegate κ ν} (h : d.Inv) {k : κ} {i j : Nat}
    {call call' : Read κ} (hi : d.loaderCall? (.reload i) = some call)
    (hj : d.loaderCall? (.reload j) = some call') (hk : k ∈ call.keys) (hk' : k ∈ call'.keys) :
    i = j := by
  obtain ⟨r, q, -, -, -, hheld, hkeys⟩ := exists_reloadQuestion hi
  obtain ⟨r', q', -, -, -, hheld', hkeys'⟩ := exists_reloadQuestion hj
  obtain ⟨g, hg, hgk⟩ := List.mem_map.1 (hkeys ▸ hk)
  obtain ⟨g', hg', hgk'⟩ := List.mem_map.1 (hkeys' ▸ hk')
  -- One key has one guard, and one guard has one holder.
  obtain rfl := h.guarded.eq_of_key (hheld.subset hg) (hheld'.subset hg') (hgk.trans hgk'.symm)
  exact ReloadHolder.reload.inj (h.guarded.disjoint (hheld.subset hg) (hheld'.subset hg'))

/-- Several keys are only reloaded if there are any, and each of them once. -/
private theorem Inv.reload_many {d : RefreshDelegate κ ν} (h : d.Inv) {i : Nat} {ks : List κ}
    (hi : d.loaderCall? (.reload i) = some (.many ks)) : ks ≠ [] ∧ ks.Nodup := by
  obtain ⟨r, q, hr, hq, hcall, hheld, hkeys⟩ := exists_reloadQuestion hi
  cases q with
  | loadMany gs =>
    obtain rfl : gs.map Guard.key = ks := hkeys
    have hne := (h.fit hr).loadMany_ne_nil gs hq
    refine ⟨?_, h.guarded.nodup_keys hheld⟩
    intro hnil
    exact hne (List.map_eq_nil_iff.1 hnil)
  | load g => exact nomatch Option.some.inj hcall
  | write g v => exact nomatch hcall
  | delete g => exact nomatch hcall
  | writeMany gs entries => exact nomatch hcall

/-- In every run of a refreshing delegate, at most one call of the loader on a miss and at most one
call by a reload are outstanding for a key at a time. A call for several keys is for at least one,
and for none of them twice. -/
theorem one_loaderCall_of_each_site [LawfulBEq κ] {retry : Nat} {d : RefreshDelegate κ ν}
    {es : List (Event κ ν)} (hrun : run? (.ofRetry retry) es = some d) :
    (∀ (k : κ) (s s' : LoadSite) (call call' : Read κ), d.loaderCall? s = some call →
      d.loaderCall? s' = some call' → k ∈ call.keys → k ∈ call'.keys →
      s.inBackground = s'.inBackground → s = s') ∧
    ∀ (s : LoadSite) (ks : List κ), d.loaderCall? s = some (.many ks) → ks ≠ [] ∧ ks.Nodup := by
  have h := inv_of_run? (.ofRetry retry) hrun
  constructor
  · intro k s s' call call' hs hs' hk hk' hsite
    cases s with
    | miss i =>
      cases s' with
      | miss j => exact congrArg LoadSite.miss (h.loading.loaderCall?_inj hs hs' hk hk')
      | reload j => exact Bool.noConfusion hsite
    | reload i =>
      cases s' with
      | miss j => exact Bool.noConfusion hsite
      | reload j => exact congrArg LoadSite.reload (h.reload_inj hs hs' hk hk')
  · intro s ks hs
    cases s with
    | miss i => exact h.loading.loaderCall?_many hs
    | reload i => exact h.reload_many hs

/-- A read finds key 1 in the cache, but stale, so that it is reloaded. While the loader is at work,
the key is deleted; another read misses it and has it loaded, too. -/
def deletedWhileReloaded : List (Event Nat Nat) :=
  [.own (.loading (.call (.one 1))), .own (.loading (.advance 0)), .own (.loading (.advance 0)),
    .own (.loading (.ask 1)), .own (.loading (.reply 1 (.read (.ok (some 10))))),
    .own (.loading (.chore 1)), .own (.loading (.chore 1)), .own (.loading (.chore 1)),
    .own (.loading (.leave 0)), .own (.refresh (.one 1)), .own (.advance 100 0),
    .own (.advance 100 0), .own (.advance 100 0), .handOn,
    .own (.loading (.call (.one 1))), .own (.loading (.advance 2)), .own (.loading (.advance 2)),
    .own (.loading (.ask 3)), .own (.loading (.reply 3 (.read (.ok none)))),
    .own (.loading (.ask 3))]

/-- The calls that are outstanding then. -/
private theorem calls_deletedWhileReloaded :
    ((run? (.ofRetry 10) deletedWhileReloaded).map fun d =>
      (d.loaderCall? (.miss 3), d.loaderCall? (.reload 0))) =
      some (some (.one 1), some (.one 1)) := by cbv

/-- The two calls are of different sites. -/
theorem one_loaderCall_of_each_site_deletedWhileReloaded : ∃ d : RefreshDelegate Nat Nat,
    run? (.ofRetry 10) deletedWhileReloaded = some d ∧
    (d.loaderCall? (.miss 3) = some (.one 1) ∧ d.loaderCall? (.reload 0) = some (.one 1)) ∧
    (∀ (k : Nat) (s s' : LoadSite) (call call' : Read Nat), d.loaderCall? s = some call →
      d.loaderCall? s' = some call' → k ∈ call.keys → k ∈ call'.keys →
      s.inBackground = s'.inBackground → s = s') ∧
    ∀ (s : LoadSite) (ks : List Nat), d.loaderCall? s = some (.many ks) →
      ks ≠ [] ∧ ks.Nodup := by
  obtain ⟨d, hd, hcalls⟩ := Option.map_eq_some_iff.1 calls_deletedWhileReloaded
  exact ⟨d, hd, Prod.mk.inj hcalls, one_loaderCall_of_each_site hd⟩

/-- It is not true that at most one call of the loader for a key is outstanding at a time: the
flights of reloads are not those of misses. -/
theorem miss_during_reload : ¬ ∀ (es : List (Event Nat Nat)) (d : RefreshDelegate Nat Nat),
    run? (.ofRetry 10) es = some d → ∀ (k : Nat) (s s' : LoadSite) (call call' : Read Nat),
      d.loaderCall? s = some call → d.loaderCall? s' = some call' → k ∈ call.keys →
      k ∈ call'.keys → s = s' := by
  intro hone
  obtain ⟨d, hd, hcalls⟩ := Option.map_eq_some_iff.1 calls_deletedWhileReloaded
  obtain ⟨hmiss, hreload⟩ := Prod.mk.inj hcalls
  have hsame := hone _ d hd 1 _ _ _ _ hmiss hreload (List.mem_singleton_self 1)
    (List.mem_singleton_self 1)
  exact nomatch hsame

end RefreshDelegate

end CacheLayer
