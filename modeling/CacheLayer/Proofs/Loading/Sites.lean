import CacheLayer.Proofs.Loading.Overlap
import CacheLayer.Proofs.Loading.Talk
/-!
# What is asked for at a site

A resolver and a reload go through the same stations: they ask the loader for keys, and then the
cache to take what was loaded. A request is what either of them asks, told by the keys and values
that it is about. What a step does to a site is told by the request of the site alone.

## Key results

- `RefreshDelegate.Inv.request?_inj`: two resolvers never ask for one key at the same time
- `RefreshDelegate.Moves.turn`: what a step does to a site, short of replies
- `RefreshDelegate.request?_of_told`: what a reply does
-/

namespace CacheLayer

variable {κ ν : Type} [BEq κ] [Hashable κ]

deriving instance DecidableEq for LoadSite

/-! ## Requests -/

/-- What a site asks for. -/
inductive Request (κ ν : Type) where
  /-- To be told by the cache what it holds for keys. -/
  | read (r : Read κ)
  /-- To be told by the loader. -/
  | load (r : Read κ)
  /-- That the cache write entries, or delete those that have no value. Flights of the keys are kept
  up meanwhile. -/
  | write (ks : List κ) (entries : List (κ × Option ν))

namespace Request

/-- The keys whose flights are kept up until the request is met. -/
def keys : Request κ ν → List κ
  | read r => r.keys
  | load r => r.keys
  | write ks _ => ks

/-- What is to be written. -/
def entries : Request κ ν → List (κ × Option ν)
  | write _ entries => entries
  | _ => []

end Request

/-- The entries of a map, as they are written. -/
def writesOf (m : Std.HashMap κ ν) : List (κ × Option ν) := m.toList.map fun e => (e.1, some e.2)

/-- What a resolver asks for with a question. -/
def Question.request : Question κ ν → Request κ ν
  | read g => .read (.one g.key)
  | load g => .load (.one g.key)
  | write g v => .write [g.key] [(g.key, some v)]
  | readMany gs => .read (.many (gs.map Guard.key))
  | loadMany gs => .load (.many (gs.map Guard.key))
  | writeMany gs entries => .write (gs.map Guard.key) (writesOf entries)

/-- What a reload asks for with a question. -/
def ReloadQuestion.request : ReloadQuestion κ ν → Request κ ν
  | load g => .load (.one g.key)
  | write g v => .write [g.key] [(g.key, some v)]
  | delete g => .write [g.key] [(g.key, none)]
  | loadMany gs => .load (.many (gs.map Guard.key))
  | writeMany gs entries => .write (gs.map Guard.key) (writesOf entries)

theorem Question.request_keys (q : Question κ ν) : q.request.keys = q.guards.map Guard.key := by
  cases q <;> rfl

theorem ReloadQuestion.request_keys (q : ReloadQuestion κ ν) :
    q.request.keys = q.guards.map Guard.key := by
  cases q <;> rfl

/-- What a resolver asks for next, and whether it has asked. -/
def Resolver.request? (r : Resolver κ ν) : Option (Request κ ν × Bool) :=
  r.question?.map fun q => (q.request, r.asked)

/-- What a reload asks for next, and whether it has asked. -/
def Reload.request? (r : Reload κ ν) : Option (Request κ ν × Bool) :=
  r.question?.map fun q => (q.request, r.asked)

/-- The step in which a site is told a reply. -/
def LoadSite.told : LoadSite → Reply κ ν → RefreshDelegate.Step κ ν
  | miss i, answer => .loading (.reply i answer)
  | reload i, answer => .reply i answer

/-- The step in which a site is torn down. -/
def LoadSite.tearing : LoadSite → RefreshDelegate.Step κ ν
  | miss i => .loading (.tear i)
  | reload i => .tear i

/-- The site that asks in a step. -/
def RefreshDelegate.Step.asker? : RefreshDelegate.Step κ ν → Option LoadSite
  | .loading (.ask i) => some (.miss i)
  | .ask i => some (.reload i)
  | _ => none

/-- Whether a step takes neither a reply nor a breakdown from outside. -/
def RefreshDelegate.Step.isFree : RefreshDelegate.Step κ ν → Bool
  | .loading (.reply _ _) => false
  | .loading (.tear _) => false
  | .reply _ _ => false
  | .tear _ => false
  | _ => true

namespace RefreshDelegate

/-- What a site asks for next, and whether it has asked. -/
def request? (d : RefreshDelegate κ ν) : LoadSite → Option (Request κ ν × Bool)
  | .miss i => d.delegate.resolvers[i]?.bind Resolver.request?
  | .reload i => d.reloads[i]?.bind Reload.request?

/-- The number that the next site of the same kind gets is higher than that of a site. -/
def Knows (d : RefreshDelegate κ ν) : LoadSite → Prop
  | .miss i => i < d.delegate.next
  | .reload i => i < d.next

/-- A call of the loader that is outstanding is a request that has been made. -/
theorem loaderCall?_eq_some_iff {d : RefreshDelegate κ ν} {x : LoadSite} {call : Read κ} :
    d.loaderCall? x = some call ↔ d.request? x = some (.load call, true) := by
  -- A site that is there asks nothing, or something that the loader is not asked for, or one of the
  -- two loads.
  cases x with
  | miss i =>
    cases hr : d.delegate.resolvers[i]? with
    | none => simp [loaderCall?, Delegate.loaderCall?, request?, hr]
    | some r =>
      obtain ⟨chores, question?, asked⟩ := r
      rcases question? with _ | q <;> cases asked
      case some.true => cases q <;>
        simp [loaderCall?, Delegate.loaderCall?, request?, hr, Resolver.loaderCall?,
          Question.loaderCall?, Resolver.request?, Question.request]
      all_goals
        simp [loaderCall?, Delegate.loaderCall?, request?, hr, Resolver.loaderCall?,
          Resolver.request?]
  | reload i =>
    cases hr : d.reloads[i]? with
    | none => simp [loaderCall?, request?, hr]
    | some r =>
      obtain ⟨chores, question?, asked⟩ := r
      rcases question? with _ | q <;> cases asked
      case some.true => cases q <;>
        simp [loaderCall?, request?, hr, Reload.loaderCall?, ReloadQuestion.loaderCall?,
          Reload.request?, ReloadQuestion.request]
      all_goals
        simp [loaderCall?, request?, hr, Reload.loaderCall?, Reload.request?]

/-- A resolver that asks for keys holds their guards. -/
theorem exists_guard_of_request? {d : RefreshDelegate κ ν} {i : Nat} {q : Request κ ν}
    {asked : Bool} (h : d.request? (.miss i) = some (q, asked)) {k : κ} (hk : k ∈ q.keys) :
    ∃ g ∈ d.delegate.held (.resolver i), g.key = k := by
  obtain ⟨r, hr, hreq⟩ := Option.bind_eq_some_iff.1 h
  obtain ⟨q', hq', heq⟩ := Option.map_eq_some_iff.1 hreq
  obtain ⟨rfl, -⟩ := Prod.mk.inj heq
  rw [Question.request_keys] at hk
  obtain ⟨g, hg, hgk⟩ := List.mem_map.1 hk
  refine ⟨g, ?_, hgk⟩
  have hheld : d.delegate.held (.resolver i) = Chore.removals r.chores ++ q'.guards := by
    simp [Delegate.held, hr, Resolver.guards_eq, Resolver.later, hq']
  rw [hheld]
  exact List.mem_append_right _ hg

/-- A key that a resolver asks for is in flight. -/
theorem Inv.registered {d : RefreshDelegate κ ν} (h : d.Inv) {i : Nat} {q : Request κ ν}
    {asked : Bool} (hq : d.request? (.miss i) = some (q, asked)) {k : κ} (hk : k ∈ q.keys) :
    (d.delegate.flights.registry[k]?).isSome := by
  obtain ⟨g, hg, rfl⟩ := exists_guard_of_request? hq hk
  rw [h.loading.guarded.registry_of_mem hg]
  rfl

/-- Two resolvers never ask for one key at the same time. -/
theorem Inv.request?_inj {d : RefreshDelegate κ ν} (h : d.Inv) {i j : Nat} {q q' : Request κ ν}
    {asked asked' : Bool} (hi : d.request? (.miss i) = some (q, asked))
    (hj : d.request? (.miss j) = some (q', asked')) {k : κ} (hk : k ∈ q.keys) (hk' : k ∈ q'.keys) :
    i = j := by
  obtain ⟨g, hg, hgk⟩ := exists_guard_of_request? hi hk
  obtain ⟨g', hg', hgk'⟩ := exists_guard_of_request? hj hk'
  obtain rfl := h.loading.guarded.eq_of_key hg hg' (hgk.trans hgk'.symm)
  exact Holder.resolver.inj (h.loading.guarded.disjoint hg hg')

/-- A site that asks for something has its number. -/
theorem Inv.knows {d : RefreshDelegate κ ν} (h : d.Inv) {x : LoadSite} {q : Request κ ν × Bool}
    (hq : d.request? x = some q) : d.Knows x := by
  cases x with
  | miss i =>
    obtain ⟨r, hr, -⟩ := Option.bind_eq_some_iff.1 hq
    exact h.loading.resolver_lt hr
  | reload i =>
    obtain ⟨r, hr, -⟩ := Option.bind_eq_some_iff.1 hq
    exact h.reload_lt hr

/-- Nothing is asked for at a site that has not begun. -/
theorem Inv.request?_of_not_knows {d : RefreshDelegate κ ν} (h : d.Inv) {x : LoadSite}
    (hx : ¬ d.Knows x) : d.request? x = none := by
  cases hq : d.request? x with
  | none => rfl
  | some q => exact absurd (h.knows hq) hx

/-! ## Steps -/

/-- Starting a reload leaves the loading delegate alone. -/
theorem launch_delegate (d : RefreshDelegate κ ν) (i : Nat) (st : Starter κ) :
    (d.launch i st).delegate = d.delegate := by
  simp only [RefreshDelegate.launch]
  split <;> rfl

/-- Whoever has called the loader is through. -/
theorem launch_starters (d : RefreshDelegate κ ν) (i : Nat) (st : Starter κ) :
    (d.launch i st).starters = d.starters.erase i := by
  simp only [RefreshDelegate.launch]
  split <;> rfl

theorem launch_failures (d : RefreshDelegate κ ν) (i : Nat) (st : Starter κ) :
    (d.launch i st).failures = d.failures := by
  simp only [RefreshDelegate.launch]
  split <;> rfl

/-- A reload gets the next number. -/
theorem next_le_launch (d : RefreshDelegate κ ν) (i : Nat) (st : Starter κ) :
    d.next ≤ (d.launch i st).next := by
  simp only [RefreshDelegate.launch]
  split
  · exact Nat.le_refl _
  · exact Nat.le_succ _

/-- Numbers of sites are never given away again. -/
theorem Moves.knows {d d' : RefreshDelegate κ ν} {s : Step κ ν} (hm : Moves d s d') {x : LoadSite}
    (hx : d.Knows x) : d'.Knows x := by
  -- Numbers only grow, those of resolvers and those of reloads apart.
  cases hm with
  | loading s delegate hs =>
    cases x with
    | miss i => exact Nat.lt_of_lt_of_le hx hs.next_le
    | reload i => exact hx
  | refresh stale => cases x <;> exact hx
  | lookUp now i st k todo hst hcleared htodo => cases x <;> exact hx
  | register now i st k hst hcleared => cases x <;> exact hx
  | launch now j st hst hcleared htodo =>
    cases x with
    | miss i =>
      rw [Knows, launch_delegate]
      exact hx
    | reload i => exact Nat.lt_of_lt_of_le hx (d.next_le_launch j st)
  | chore now i c rest hr => cases c <;> exact hx
  | ask i q hr => exact hx
  | reply i q answer r hr hresume => exact hx
  | tear i q asked hr => exact hx

/-- What a step does to what is asked for at a site: it leaves that alone, or is the one in which
the site begins, or the one in which it asks. -/
inductive Turn (d : RefreshDelegate κ ν) (s : Step κ ν) (x : LoadSite) :
    Option (Request κ ν × Bool) → Option (Request κ ν × Bool) → Prop where
  | stay {q? : Option (Request κ ν × Bool)} : s.asker? ≠ some x → Turn d s x q? q?
  | read (r : Read κ) : ¬ d.Knows x → Turn d s x none (some (.read r, false))
  | load (r : Read κ) : ¬ d.Knows x → x.inBackground = true →
    Turn d s x none (some (.load r, true))
  | ask (q : Request κ ν) : s.asker? = some x → Turn d s x (some (q, false)) (some (q, true))

/-- A step in which nobody asks leaves what is asked for alone. -/
private theorem Turn.of_asker?_eq_none {d : RefreshDelegate κ ν} {s : Step κ ν} {x : LoadSite}
    {q? : Option (Request κ ν × Bool)} (hs : s.asker? = none) : Turn d s x q? q? :=
  .stay fun hx => Option.some_ne_none x (hx.symm.trans hs)

/-- A resolver that is put back asks for what it did. -/
private theorem request?_putResolver (rs : Std.HashMap Nat (Resolver κ ν)) (i j : Nat)
    (r : Resolver κ ν) : (Delegate.putResolver rs i r)[j]?.bind Resolver.request? =
      if j = i then r.request? else rs[j]?.bind Resolver.request? := by
  rw [Delegate.get_putResolver]
  by_cases hj : j = i
  · rw [if_pos hj, if_pos hj]
    split
    · next hover =>
      -- Nothing is asked for by a resolver that is through.
      obtain ⟨chores, question?, asked⟩ := r
      simp only [Resolver.isOver, Bool.and_eq_true, Option.isNone_iff_eq_none] at hover
      rw [hover.2]
      rfl
    · rfl
  · rw [if_neg hj, if_neg hj]

private theorem request?_putReload (rs : Std.HashMap Nat (Reload κ ν)) (i j : Nat)
    (r : Reload κ ν) : (putReload rs i r)[j]?.bind Reload.request? =
      if j = i then r.request? else rs[j]?.bind Reload.request? := by
  rw [get_putReload]
  by_cases hj : j = i
  · rw [if_pos hj, if_pos hj]
    split
    · next hover =>
      obtain ⟨chores, question?, asked⟩ := r
      simp only [Reload.isOver, Bool.and_eq_true, Option.isNone_iff_eq_none] at hover
      rw [hover.2]
      rfl
    · rfl
  · rw [if_neg hj, if_neg hj]

/-- What a step of the loading delegate does to a resolver. -/
private theorem turn_of_moves {d : RefreshDelegate κ ν} {delegate : Delegate κ ν}
    {s : Delegate.Step κ ν} (h : d.Inv) (hm : d.delegate.Moves s delegate)
    (hfree : (Step.loading s : Step κ ν).isFree = true) (j : Nat) :
    Turn d (.loading s) (.miss j) (d.request? (.miss j))
      (delegate.resolvers[j]?.bind Resolver.request?) := by
  -- Steps of callers do not touch a resolver, but one of them starts it.
  cases hm with
  | call r => exact .of_asker?_eq_none rfl
  | register i c k todo hc hw ht =>
    simp only [Delegate.register]
    split <;> exact .of_asker?_eq_none rfl
  | startResolver i c hc hw ht =>
    simp only [Delegate.startResolver]
    split
    · exact .of_asker?_eq_none rfl
    · next r hr =>
      simp only [Delegate.get_insert]
      split
      · next hj =>
        -- The number of the new resolver was never used.
        have hnew : ¬ d.Knows (.miss j) := hj ▸ Nat.lt_irrefl _
        rw [h.request?_of_not_knows hnew]
        simp only [Caller.resolver?] at hr
        split at hr
        · cases hr
        · exact Option.some.inj hr ▸ .read (.one _) hnew
        · exact Option.some.inj hr ▸ .read (.many _) hnew
      · exact .of_asker?_eq_none rfl
  | leave i c hc hw => exact .of_asker?_eq_none rfl
  | chore i c rest hr =>
    simp only [Delegate.chore, request?_putResolver]
    split
    · next hj =>
      have hsame : d.request? (.miss j) = rest.request? := by
        rw [hj, request?, hr]
        rfl
      rw [hsame]
      exact .of_asker?_eq_none rfl
    · exact .of_asker?_eq_none rfl
  | ask i q hr =>
    simp only [Delegate.ask, Delegate.get_insert]
    split
    · next hj =>
      have hbefore : d.request? (.miss j) = some (q.request, false) := by
        rw [hj, request?, hr]
        rfl
      rw [hbefore]
      exact .ask q.request (by rw [hj]; rfl)
    · next hj => exact .stay fun heq => hj (LoadSite.miss.inj (Option.some.inj heq)).symm
  | reply i q answer r hr hresume => exact absurd hfree Bool.false_ne_true
  | tear i q asked hr => exact absurd hfree Bool.false_ne_true

/-- What a step does to a site, short of replies and breakdowns. -/
theorem Moves.turn {d d' : RefreshDelegate κ ν} {s : Step κ ν} (hm : Moves d s d') (h : d.Inv)
    (hfree : s.isFree = true) (x : LoadSite) : Turn d s x (d.request? x) (d'.request? x) := by
  cases hm with
  | loading s delegate hs =>
    cases x with
    | miss j => exact turn_of_moves h hs hfree j
    | reload j =>
      refine .stay fun hx => ?_
      cases s <;> cases hx
  | refresh stale => cases x <;> exact .of_asker?_eq_none rfl
  | lookUp now i st k todo hst hcleared htodo => cases x <;> exact .of_asker?_eq_none rfl
  | register now i st k hst hcleared => cases x <;> exact .of_asker?_eq_none rfl
  | launch now i st hst hcleared htodo =>
    cases x with
    | miss j =>
      simp only [request?, launch_delegate]
      exact .of_asker?_eq_none rfl
    | reload j =>
      simp only [RefreshDelegate.launch]
      split
      · exact .of_asker?_eq_none rfl
      · next q hq =>
        simp only [request?, Delegate.get_insert]
        split
        · next hj =>
          have hnew : ¬ d.Knows (.reload j) := hj ▸ Nat.lt_irrefl _
          rw [← request?, h.request?_of_not_knows hnew]
          -- A reload begins with its call of the loader.
          unfold Starter.question? at hq
          split at hq
          · cases hq
          · exact Option.some.inj hq ▸ .load (.one _) hnew rfl
          · exact Option.some.inj hq ▸ .load (.many _) hnew rfl
        · exact .of_asker?_eq_none rfl
  | chore now i c rest hr =>
    cases x with
    | miss j => cases c <;> exact .of_asker?_eq_none rfl
    | reload j =>
      have hreloads : (d.chore now i c rest).reloads = putReload d.reloads i rest := by
        cases c <;> rfl
      simp only [request?, hreloads, request?_putReload]
      split
      · next hj =>
        rw [hj, hr]
        exact .of_asker?_eq_none rfl
      · exact .of_asker?_eq_none rfl
  | ask i q hr =>
    cases x with
    | miss j => exact .stay fun hx => by cases hx
    | reload j =>
      simp only [request?, setReload, request?_putReload]
      split
      · next hj =>
        rw [hj, hr]
        exact .ask q.request rfl
      · next hj => exact .stay fun heq => hj (LoadSite.reload.inj (Option.some.inj heq)).symm
  | reply i q answer r hr hresume => exact absurd hfree Bool.false_ne_true
  | tear i q asked hr => exact absurd hfree Bool.false_ne_true

/-! ## Replies -/

end RefreshDelegate

/-- What is asked for once the reply to a request is there: nothing any more if the site is through.
In the background, what the source does not have is to be deleted. -/
def Request.next? (inBackground : Bool) : Request κ ν → Reply κ ν → Option (Request κ ν)
  | .read (.one k), .read r =>
    match r with
    | .ok (some _) => none
    | _ => some (.load (.one k))
  | .read (.many ks), .readMany r =>
    match ks.filter fun k => !(r.toOption.getD ∅).contains k with
    | [] => none
    | missing => some (.load (.many missing))
  | .load (.one k), .load r =>
    match r.outcome with
    | .ok (some v) => some (.write [k] [(k, some v)])
    | .ok none => if inBackground then some (.write [k] [(k, none)]) else none
    | .error _ => none
  | .load (.many ks), .loadMany r =>
    match r.outcome with
    | .ok m => if m.isEmpty then none else some (.write ks (writesOf m))
    | .error _ => none
  | _, _ => none

/-- After an answer of the loader there is nothing to do but to write, and the same flights are kept
up meanwhile. -/
theorem Request.next?_load {inBackground : Bool} {call : Read κ} {answer : Reply κ ν}
    {q : Request κ ν} (h : (Request.load call).next? inBackground answer = some q) :
    ∃ entries, q = .write call.keys entries := by
  cases call with
  | one k =>
    cases answer <;> simp only [next?, reduceCtorEq] at h
    split at h
    · exact ⟨_, (Option.some.inj h).symm⟩
    · split at h
      · exact ⟨_, (Option.some.inj h).symm⟩
      · exact nomatch h
    · exact nomatch h
  | many ks =>
    cases answer <;> simp only [next?, reduceCtorEq] at h
    split at h
    · split at h
      · exact nomatch h
      · exact ⟨_, (Option.some.inj h).symm⟩
    · exact nomatch h

/-- A resolver goes on as its request tells. -/
theorem Resolver.request?_resume {q : Question κ ν} {answer : Reply κ ν} {r : Resolver κ ν}
    (h : resume q answer = some r) :
    r.request? = (q.request.next? false answer).map fun q' => (q', false) := by
  -- Only replies of the kind that was asked for lead on, and each leads on as the table of requests
  -- says.
  cases q <;> cases answer <;> simp only [resume, Option.some.injEq, reduceCtorEq] at h <;> subst h
  case read.read g answer => rcases answer with e | _ | v <;> rfl
  case load.load g answer =>
    simp only [Question.request, Request.next?, afterLoad]
    rcases answer.outcome with e | _ | v <;> rfl
  case write.written g v answer => rfl
  case readMany.readMany gs answer =>
    have hfilter : ((gs.map Guard.key).filter fun k => !(answer.toOption.getD ∅).contains k) =
        (notFound (answer.toOption.getD ∅) gs).map Guard.key := List.filter_map
    simp only [Question.request, Request.next?, hfilter]
    rcases afterReadMany_cases gs answer with ⟨hnil, heq⟩ | ⟨hne, heq⟩
    · rw [heq, hnil]
      rfl
    · rw [heq]
      cases hmissing : notFound (answer.toOption.getD ∅) gs with
      | nil => exact absurd hmissing hne
      | cons g missing => rfl
  case loadMany.loadMany gs answer =>
    simp only [Question.request, Request.next?]
    rcases answer.outcome with e | m
    · rfl
    · simp only [afterLoadMany]
      split <;> rfl
  case writeMany.written gs entries answer => rfl

/-- A reload goes on as its request tells. -/
theorem Reload.request?_resume {q : ReloadQuestion κ ν} {answer : Reply κ ν} {r : Reload κ ν}
    (h : resume q answer = some r) :
    r.request? = (q.request.next? true answer).map fun q' => (q', false) := by
  cases q <;> cases answer <;> simp only [resume, Option.some.injEq, reduceCtorEq] at h <;> subst h
  case load.load g answer =>
    simp only [ReloadQuestion.request, Request.next?, afterLoad]
    rcases answer.outcome with e | _ | v <;> rfl
  case write.written g v answer => rfl
  case delete.written g answer => rfl
  case loadMany.loadMany gs answer =>
    simp only [ReloadQuestion.request, Request.next?]
    rcases answer.outcome with e | m
    · rfl
    · simp only [afterLoadMany]
      split <;> rfl
  case writeMany.written gs entries answer => rfl

namespace RefreshDelegate

/-- A reply is one to what its site has asked for, which then goes on; the other sites are left
alone. -/
theorem request?_of_told {d d' : RefreshDelegate κ ν} {x : LoadSite} {answer : Reply κ ν}
    (h : d.step? (x.told answer) = some d') :
    ∃ q, d.request? x = some (q, true) ∧
      d'.request? x = (q.next? x.inBackground answer).map (fun q' => (q', false)) ∧
      ∀ y, y ≠ x → d'.request? y = d.request? y := by
  -- A reply can only be told to a site that has asked; both kinds of sites go on alike.
  cases x with
  | miss i =>
    cases moves_of_step? h with
    | loading s delegate hs =>
      cases hs with
      | reply i q answer r hr hresume =>
        refine ⟨q.request, ?_, ?_, fun y hy => ?_⟩
        · rw [request?, hr]
          rfl
        · simp only [request?, Delegate.reply, request?_putResolver, if_pos]
          exact Resolver.request?_resume hresume
        · cases y with
          | miss j =>
            have hj : j ≠ i := fun hj => hy (congrArg _ hj)
            simp only [request?, Delegate.reply, request?_putResolver, if_neg hj]
          | reload j => rfl
  | reload i =>
    cases moves_of_step? h with
    | reply i q answer r hr hresume =>
      refine ⟨q.request, ?_, ?_, fun y hy => ?_⟩
      · rw [request?, hr]
        rfl
      · simp only [request?, setReload, request?_putReload, if_pos]
        exact Reload.request?_resume hresume
      · cases y with
        | miss j => rfl
        | reload j =>
          have hj : j ≠ i := fun hj => hy (congrArg _ hj)
          simp only [request?, setReload, request?_putReload, if_neg hj]

/-- A site that is torn down asks for nothing more; the other sites are left alone. -/
theorem request?_of_tearing {d d' : RefreshDelegate κ ν} {x : LoadSite}
    (h : d.step? x.tearing = some d') :
    d'.request? x = none ∧ ∀ y, y ≠ x → d'.request? y = d.request? y := by
  -- What is left of a site that was torn down are chores.
  cases x with
  | miss i =>
    cases moves_of_step? h with
    | loading s delegate hs =>
      cases hs with
      | tear i q asked hr =>
        refine ⟨?_, fun y hy => ?_⟩
        · simp only [request?, Delegate.tear, request?_putResolver, if_pos]
          rfl
        · cases y with
          | miss j =>
            have hj : j ≠ i := fun hj => hy (congrArg _ hj)
            simp only [request?, Delegate.tear, request?_putResolver, if_neg hj]
          | reload j => rfl
  | reload i =>
    cases moves_of_step? h with
    | tear i q asked hr =>
      refine ⟨?_, fun y hy => ?_⟩
      · simp only [request?, setReload, request?_putReload, if_pos]
        rfl
      · cases y with
        | miss j => rfl
        | reload j =>
          have hj : j ≠ i := fun hj => hy (congrArg _ hj)
          simp only [request?, setReload, request?_putReload, if_neg hj]

/-- What a site asks to be written after a step it has asked to be written before, unless it goes on
after a reply. -/
theorem request?_of_step? {d d' : RefreshDelegate κ ν} {s : Step κ ν} (hd : d.Inv)
    (h : d.step? s = some d') {y : LoadSite} {q' : Request κ ν} {asked' : Bool}
    (hq' : d'.request? y = some (q', asked')) :
    q'.entries = [] ∨ (∃ asked, d.request? y = some (q', asked)) ∨
      ∃ q answer, s = y.told answer ∧ d.request? y = some (q, true) ∧
        q.next? y.inBackground answer = some q' := by
  have htold : ∀ (x : LoadSite) (answer : Reply κ ν), s = x.told answer →
      (∃ asked, d.request? y = some (q', asked)) ∨
        ∃ q answer, s = y.told answer ∧ d.request? y = some (q, true) ∧
          q.next? y.inBackground answer = some q' := by
    rintro x answer rfl
    obtain ⟨q, hq, hnext, hothers⟩ := request?_of_told h
    by_cases hy : y = x
    · subst hy
      rw [hnext] at hq'
      obtain ⟨q'', hq'', heq⟩ := Option.map_eq_some_iff.1 hq'
      obtain ⟨rfl, -⟩ := Prod.mk.inj heq
      exact .inr ⟨q, answer, rfl, hq, hq''⟩
    · exact .inl ⟨asked', (hothers y hy).symm.trans hq'⟩
  have htorn : ∀ x : LoadSite, s = x.tearing → ∃ asked, d.request? y = some (q', asked) := by
    rintro x rfl
    obtain ⟨hnone, hothers⟩ := request?_of_tearing h
    by_cases hy : y = x
    · rw [hy, hnone] at hq'
      cases hq'
    · exact ⟨asked', (hothers y hy).symm.trans hq'⟩
  cases hfree : s.isFree with
  | true =>
    have hturn := (moves_of_step? h).turn hd hfree y
    rw [hq'] at hturn
    generalize d.request? y = q? at hturn ⊢
    -- A site that begins has nothing to be written yet.
    cases hturn with
    | stay _ => exact .inr (.inl ⟨asked', rfl⟩)
    | read r _ => exact .inl rfl
    | load r _ _ => exact .inl rfl
    | ask q _ => exact .inr (.inl ⟨false, rfl⟩)
  | false =>
    -- What is left are the replies and the breakdowns of both kinds of sites.
    rcases s with s | _ | _ | _ | _ | ⟨i, answer⟩ | i
    · cases s with
      | reply i answer => exact .inr (htold (.miss i) answer rfl)
      | tear i => exact .inr (.inl (htorn (.miss i) rfl))
      | _ => cases hfree
    · cases hfree
    · cases hfree
    · cases hfree
    · cases hfree
    · exact .inr (htold (.reload i) answer rfl)
    · exact .inr (.inl (htorn (.reload i) rfl))

end RefreshDelegate

end CacheLayer
