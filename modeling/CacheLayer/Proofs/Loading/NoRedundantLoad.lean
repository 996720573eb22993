import CacheLayer.Proofs.Loading.WriteBack
import CacheLayer.Proofs.Store.Roomy
/-!
# No load without need

A key that has been loaded is not loaded again while the store has it. From the call of the loader
until the write-back the key is in flight, so that nobody can start another load; once the
write-back has landed the key is in the store, so that whoever asks for it is served from there.
There is no gap between the two. So a second call for the key tells that the store has lost it in
the meantime: it was deleted, evicted, or too old.

## Key results

- `Backed.Fetching.after`: a key that is being fetched stays so until its write-back lands
- `Backed.Unclaimed.after`: nobody comes to load a key that the store has
- `Backed.no_redundant_load`: between two calls for a key, the store has lost it
-/

namespace CacheLayer

variable {ω κ ν α : Type} [BEq κ] [Hashable κ]

/-! ## What the store finds -/

namespace Store

/-- Whether a read of a key at an instant finds nothing: the key is not in the store, or its entry
is too old. -/
def Lost (s : Store κ ν) (now : Nat) (k : κ) : Prop :=
  ∀ e, s.entries[k]? = some e → e.Expired s.ttl now

/-- A key that is there has an entry that is young enough. -/
private theorem not_lost_iff {s : Store κ ν} {now : Nat} {k : κ} :
    ¬ s.Lost now k ↔ ∃ e, s.entries[k]? = some e ∧ ¬ e.Expired s.ttl now := by
  simp [Lost]

/-- A read of a key that is there finds it. -/
private theorem get_isSome {s : Store κ ν} {now : Nat} {k : κ} (h : ¬ s.Lost now k) :
    (s.get now k).1.isSome := by
  obtain ⟨e, he, hlive⟩ := not_lost_iff.1 h
  simp [Store.get, Store.peekEntry, he, hlive]

/-- A read of any key leaves there what is there: it drops nothing but what is too old. -/
private theorem get_not_lost [LawfulBEq κ] {s : Store κ ν} {now : Nat} {k : κ} (h : ¬ s.Lost now k)
    (k' : κ) : ¬ (s.get now k').2.Lost now k := by
  obtain ⟨e, he, hlive⟩ := not_lost_iff.1 h
  refine not_lost_iff.2 ⟨e, ?_⟩
  cases he' : s.entries[k']? with
  | none => simpa [Store.get, Store.peekEntry, he'] using ⟨he, hlive⟩
  | some e' =>
    by_cases hexp : e'.Expired s.ttl now
    · have hne : k' ≠ k := by
        rintro rfl
        exact hlive (Option.some.inj (he.symm.trans he') ▸ hexp)
      simpa [Store.get, Store.peekEntry, he', hexp, Store.erase, Store.countExpired,
        Std.HashMap.getElem?_erase, hne] using ⟨he, hlive⟩
    · simpa [Store.get, Store.peekEntry, he', hexp] using ⟨he, hlive⟩

/-- What was found stays found. What is there and still to be read is found, or stays there and is
still to be read. -/
private theorem getAlso_keeps [LawfulBEq κ] {now : Nat} {k k' : κ} {ks : List κ}
    {acc : Std.HashMap κ ν × Store κ ν}
    (h : acc.1[k]?.isSome ∨ (¬ acc.2.Lost now k ∧ k ∈ k' :: ks)) :
    (getAlso now acc k').1[k]?.isSome ∨ (¬ (getAlso now acc k').2.Lost now k ∧ k ∈ ks) := by
  obtain ⟨found, s⟩ := acc
  have hkeep (hlost : ¬ s.Lost now k) := get_not_lost hlost k'
  have hfind (hlost : ¬ s.Lost now k) : k = k' → (s.get now k').1.isSome :=
    fun heq => heq ▸ get_isSome hlost
  cases hg : s.get now k' with
  | mk v? s' =>
    rw [hg] at hkeep hfind
    -- Reading a key that is not lost finds it, so that nothing found means another key.
    cases v? with
    | none =>
      simp only [getAlso, hg]
      refine h.imp_right fun hright => ⟨hkeep hright.1, ?_⟩
      refine (List.mem_cons.1 hright.2).resolve_left fun heq => ?_
      exact Bool.false_ne_true (hfind hright.1 heq)
    | some v =>
      simp only [getAlso, hg]
      by_cases hk : k' = k
      · left
        simp [hk]
      · have hinsert : (found.insert k' v)[k]? = found[k]? := by
          simp [Std.HashMap.getElem?_insert, hk]
        rw [hinsert]
        refine h.imp_right fun hright => ⟨hkeep hright.1, ?_⟩
        exact (List.mem_cons.1 hright.2).resolve_left fun heq => hk heq.symm

/-- A read of several keys finds those that are there. -/
private theorem getBulk_isSome [LawfulBEq κ] {s : Store κ ν} {now : Nat} {k : κ} {ks : List κ}
    (h : ¬ s.Lost now k) (hk : k ∈ ks) : ((s.getBulk now ks).1[k]?).isSome := by
  rw [getBulk_eq]
  -- The induction is on the keys to come, whatever has been found of the others.
  suffices hfold : ∀ acc : Std.HashMap κ ν × Store κ ν,
      acc.1[k]?.isSome ∨ (¬ acc.2.Lost now k ∧ k ∈ ks) →
      (ks.foldl (getAlso now) acc).1[k]?.isSome from hfold (∅, s) (.inr ⟨h, hk⟩)
  clear h hk
  induction ks with
  | nil => exact fun acc hacc => hacc.resolve_right fun hnil => List.not_mem_nil hnil.2
  | cons k' ks ih => exact fun acc hacc => ih (getAlso now acc k') (getAlso_keeps hacc)

end Store

/-- The store, as a cache, finds a key that is there. -/
theorem found?_ofStore [LawfulBEq κ] {s : Store κ ν} {now : Nat} {k : κ} {r : Read κ}
    (h : ¬ s.Lost now k) (hk : k ∈ r.keys) :
    AcceptingCache.ofStore.found? now r s k ≠ none := by
  cases r with
  | one k' =>
    obtain rfl := List.mem_singleton.1 hk
    exact Option.isSome_iff_ne_none.1 (Store.get_isSome h)
  | many ks => exact Option.isSome_iff_ne_none.1 (Store.getBulk_isSome h hk)

/-! ## Loaders that resolve what they are asked for -/

/-- Whether an answer has a value for every key that was asked for. -/
def LoadAnswer.Resolves {α : Type} : LoadAnswer κ α → Read κ → Prop
  | one (.answered (.ok (some _))), .one _ => True
  | many (.answered (.ok m)), .many ks => ∀ k ∈ ks, k ∈ m
  | _, _ => False

/-- An answer that resolves a call has values, and one for every key. -/
private theorem LoadAnswer.Resolves.cases {a : LoadAnswer κ α} {call : Read κ}
    (h : a.Resolves call) :
    (∃ k v, call = .one k ∧ a = .one (.answered (.ok (some v)))) ∨
      ∃ ks m, call = .many ks ∧ a = .many (.answered (.ok m)) ∧ ∀ k ∈ ks, k ∈ m := by
  unfold LoadAnswer.Resolves at h
  split at h
  · exact .inl ⟨_, _, rfl, rfl⟩
  · exact .inr ⟨_, _, rfl, rfl, h⟩
  · exact h.elim

/-- An answer that resolves a key leads to a write of it. -/
private theorem exists_write_of_resolves [LawfulBEq κ] {call : Read κ} {a : LoadAnswer κ α}
    (h : a.Resolves call) (inBackground : Bool) (f : α → ν) {k : κ} (hk : k ∈ call.keys) :
    ∃ v, (k, some v) ∈ a.writes inBackground f call := by
  obtain ⟨k', v, rfl, rfl⟩ | ⟨ks, m, rfl, rfl, hall⟩ := h.cases
  · obtain rfl := List.mem_singleton.1 hk
    exact ⟨f v, List.mem_singleton_self _⟩
  · obtain ⟨v, hv⟩ := Option.isSome_iff_exists.1 (Std.HashMap.mem_iff_isSome_getElem?.1 (hall k hk))
    refine ⟨f v, List.mem_map.2 ⟨(k, v), ?_, rfl⟩⟩
    exact Std.HashMap.mem_toList_iff_getElem?_eq_some.2 hv

namespace Backed

/-- Whether the loader resolves every key that it is asked for in a run. -/
def Resolving (c : AcceptingCache ω κ ν) (wrap : Nat → α → ν) (w : Backed ω κ ν)
    (es : List (Event ω κ ν α)) : Prop :=
  w.Throughout c wrap
    (fun w e _ =>
      ∀ x a call, e = .answer x a → w.core.loaderCall? x = some call → a.Resolves call) es

section

variable {c : AcceptingCache ω κ ν} {wrap : Nat → α → ν} {w w' : Backed ω κ ν}

/-! ## From the call to the write-back -/

/-- A resolver is about to bring a value of a key: it waits for the loader, or a write-back of the
key is pending. -/
def Fetching (w : Backed ω κ ν) (i : Nat) (k : κ) : Prop :=
  ∃ q asked, w.core.request? (.miss i) = some (q, asked) ∧ k ∈ q.keys ∧
    ((∃ call, q = .load call ∧ asked = true) ∨ ∃ v, (k, some v) ∈ w.pending (.miss i))

/-- A resolver that has called the loader for a key is fetching it. -/
theorem Fetching.of_call {i : Nat} {k : κ} {call : Read κ}
    (hcall : w.core.loaderCall? (.miss i) = some call) (hk : k ∈ call.keys) : w.Fetching i k :=
  ⟨.load call, true, RefreshDelegate.loaderCall?_eq_some_iff.1 hcall, hk, .inl ⟨call, rfl, rfl⟩⟩

/-- A key that is being fetched is in flight. -/
theorem Fetching.registered {i : Nat} {k : κ} (hf : w.Fetching i k) (h : w.core.Inv) :
    (w.core.delegate.flights.registry[k]?).isSome := by
  obtain ⟨q, asked, hq, hk, -⟩ := hf
  exact h.registered hq hk

/-- While a resolver is fetching a key, nobody is about to have the key loaded. -/
theorem Fetching.not_unasked {i j : Nat} {k : κ} (hf : w.Fetching i k) (h : w.core.Inv)
    {call : Read κ} (hj : w.core.request? (.miss j) = some (.load call, false)) :
    k ∉ call.keys := by
  intro hk
  obtain ⟨q, asked, hq, hkq, hstage⟩ := hf
  obtain rfl := h.request?_inj hq hj hkq hk
  obtain ⟨rfl, rfl⟩ := Prod.mk.inj (Option.some.inj (hq.symm.trans hj))
  rcases hstage with ⟨call', -, hasked⟩ | ⟨v, hv⟩
  · cases hasked
  · rw [pending, hj] at hv
    exact absurd hv List.not_mem_nil

/-- A write-back that is pending lands or is still pending. -/
private theorem landing_or_pending [LawfulBEq κ] {e : Event ω κ ν α} {x : LoadSite}
    {p : κ × Option ν} (h : w.core.Inv) (he : w.after? c wrap e = some w') (hp : p ∈ w.pending x) :
    (∃ n, e = .land x n ∧ w.landing e = [(x, p)]) ∨ p ∈ w'.pending x := by
  have hmem := (pending_after h he x).mem_iff.2 (List.mem_append_left _ hp)
  refine (List.mem_append.1 hmem).imp_left fun hland => ?_
  cases e with
  | land y n =>
    rw [landing, ofSites_map] at hland
    split at hland
    · next hy =>
      obtain rfl := eq_of_beq hy
      refine ⟨n, rfl, ?_⟩
      rw [landing, Option.mem_toList.1 hland]
      rfl
    · exact absurd hland List.not_mem_nil
  | _ => exact absurd hland List.not_mem_nil

/-- A key that is being fetched stays so until its write-back lands. -/
theorem Fetching.after [LawfulBEq κ] {i : Nat} {k : κ} {e : Event ω κ ν α} (hf : w.Fetching i k)
    (h : w.core.Inv) (he : w.after? c wrap e = some w')
    (hresolves : ∀ x a call, e = .answer x a → w.core.loaderCall? x = some call →
      a.Resolves call) :
    w'.Fetching i k ∨ ∃ n v, e = .land (.miss i) n ∧ w.landing e = [(.miss i, k, some v)] := by
  obtain ⟨q, asked, hq, hk, hstage⟩ := hf
  have hturn := turn_of_after? h he (.miss i)
  rw [hq] at hturn
  generalize hq' : w'.core.request? (.miss i) = q?' at hturn
  -- The write is due from the answer of the loader on; until then the resolver is loading.
  cases hturn with
  | stay hs =>
    rcases hstage with hload | ⟨v, hv⟩
    · exact .inl ⟨q, asked, hq', hk, .inl hload⟩
    · obtain ⟨n, he, hland⟩ | hv' := landing_or_pending h he hv
      · exact .inr ⟨n, v, he, hland⟩
      · exact .inl ⟨q, asked, hq', hk, .inr ⟨v, hv'⟩⟩
  | ask q hs =>
    obtain ⟨call, -, hasked⟩ | ⟨v, hv⟩ := hstage
    · cases hasked
    · obtain ⟨n, he, hland⟩ | hv' := landing_or_pending h he hv
      · exact .inr ⟨n, v, he, hland⟩
      · exact .inl ⟨q, true, hq', hk, .inr ⟨v, hv'⟩⟩
  | serve hx hmiss =>
    obtain ⟨call, hcall, -⟩ | ⟨v, hv⟩ := hstage
    · cases hcall
    · rw [pending, hq] at hv
      exact absurd hv List.not_mem_nil
  | answer =>
    rename_i a call
    have hcall := RefreshDelegate.loaderCall?_eq_some_iff.2 hq
    obtain ⟨v, hv⟩ := exists_write_of_resolves (hresolves _ a call rfl hcall) false (wrap w.now) hk
    -- What the answer leads to is pending now.
    have hv' : (k, some v) ∈ w'.pending (.miss i) := by
      refine (pending_after h he (.miss i)).mem_iff.2 (List.mem_append_right _ ?_)
      simp only [loading, hcall, ofSites_map, beq_self_eq_true, if_true]
      exact hv
    cases hnext : (Request.load call).next? false (a.reply (wrap w.now)) with
    | none =>
      rw [pending, hq', LoadSite.inBackground, hnext] at hv'
      exact absurd hv' List.not_mem_nil
    | some q' =>
      obtain ⟨entries, rfl⟩ := Request.next?_load hnext
      rw [LoadSite.inBackground, hnext] at hq'
      exact .inl ⟨.write call.keys entries, false, hq', hk, .inr ⟨v, hv'⟩⟩
  | written hdue =>
    obtain ⟨call, hcall, -⟩ | ⟨v, hv⟩ := hstage
    · cases hcall
    · rw [pending, hq, hdue] at hv
      exact absurd hv List.not_mem_nil

/-! ## After the write-back -/

/-- Nobody has a key to be loaded on a miss. -/
def Unclaimed (w : Backed ω κ ν) (k : κ) : Prop :=
  ∀ j call asked, w.core.request? (.miss j) = some (.load call, asked) → k ∉ call.keys

/-- When its write-back lands, nobody has a key to be loaded. -/
theorem Fetching.unclaimed [LawfulBEq κ] {i n : Nat} {k : κ} (hf : w.Fetching i k) (h : w.core.Inv)
    (he : w.after? c wrap (.land (.miss i) n) = some w') : w'.Unclaimed k := by
  intro j call asked hj hk
  obtain ⟨q, asked', hq, hkq, -⟩ := hf
  simp only [after?] at he
  split at he
  · next ks entries k' v? hwrite hn =>
    obtain rfl := Option.some.inj he
    -- It would be the resolver that is writing.
    obtain rfl := h.request?_inj hq hj hkq hk
    cases hwrite.symm.trans hj
  · cases he

/-- Nobody comes to load a key that the store has. -/
theorem Unclaimed.after [LawfulBEq κ] {w w' : Backed (Store κ ν) κ ν} {k : κ}
    {e : Event (Store κ ν) κ ν α} (hu : w.Unclaimed k) (h : w.core.Inv)
    (hthere : ¬ w.cache.Lost w.now k) (he : w.after? .ofStore wrap e = some w') :
    w'.Unclaimed k := by
  intro j call asked hj hk
  have hturn := turn_of_after? h he (.miss j)
  have hbefore := hu j
  rw [hj] at hturn
  generalize w.core.request? (.miss j) = q? at hturn hbefore
  generalize hq' : some (Request.load call, asked) = q?' at hturn
  -- A request to load comes from a look at the cache, and from nothing else.
  cases hturn with
  | stay hs => exact hbefore call asked hq'.symm hk
  | read r hnew => exact nomatch hq'
  | load r hnew hback => exact nomatch hback
  | ask q hs =>
    obtain ⟨rfl, -⟩ := Prod.mk.inj (Option.some.inj hq')
    exact hbefore call false rfl hk
  | serve hx hmiss =>
    obtain ⟨q, hq, heq⟩ := Option.map_eq_some_iff.1 hq'.symm
    obtain ⟨rfl, -⟩ := Prod.mk.inj heq
    obtain ⟨call', hcall, hmissing⟩ := hmiss _ hq
    obtain rfl := Request.load.inj hcall
    -- The cache was asked for the key and has it, so that it is not missing.
    obtain ⟨hasked, hnone⟩ := hmissing k hk
    exact found?_ofStore hthere hasked hnone
  | answer =>
    obtain ⟨q, hq, heq⟩ := Option.map_eq_some_iff.1 hq'.symm
    obtain ⟨rfl, -⟩ := Prod.mk.inj heq
    obtain ⟨entries, hwrite⟩ := Request.next?_load hq
    exact nomatch hwrite
  | written hdue => exact nomatch hq'

/-! ## Along a run -/

/-- The states that a run comes by, with the first and the last one. -/
def states (c : AcceptingCache ω κ ν) (wrap : Nat → α → ν) (w : Backed ω κ ν) :
    List (Event ω κ ν α) → List (Backed ω κ ν)
  | [] => [w]
  | e :: es => w :: ((w.after? c wrap e).map fun w' => w'.states c wrap es).getD []

theorem states_cons {e : Event ω κ ν α} {es : List (Event ω κ ν α)}
    (he : w.after? c wrap e = some w') :
    w.states c wrap (e :: es) = w :: w'.states c wrap es := by
  simp [states, he]

/-- A run comes by its last state. -/
theorem mem_states_of_run {es : List (Event ω κ ν α)} (hrun : w.run? c wrap es = some w') :
    w' ∈ w.states c wrap es := by
  induction es generalizing w with
  | nil =>
    obtain rfl := Option.some.inj hrun
    exact List.mem_singleton_self _
  | cons e es ih =>
    obtain ⟨w₁, he, hes⟩ := Option.bind_eq_some_iff.1 hrun
    rw [states_cons he]
    exact List.mem_cons_of_mem _ (ih hes)

/-- In a run, a key that is being fetched is fetched up to the event in which its write-back lands,
if there is one. -/
theorem Fetching.run [LawfulBEq κ] {i : Nat} {k : κ} {es : List (Event ω κ ν α)}
    (hf : w.Fetching i k) (h : w.core.Inv) (hrun : w.run? c wrap es = some w')
    (hresolving : w.Resolving c wrap es) :
    w'.Fetching i k ∨ ∃ (a b : List (Event ω κ ν α)) (n : Nat) (v : ν) (u u' : Backed ω κ ν),
      es = a ++ .land (.miss i) n :: b ∧ w.run? c wrap a = some u ∧
      (∀ s ∈ w.states c wrap a, s.core.Inv ∧ s.Fetching i k) ∧
      u.landing (.land (.miss i) n : Event ω κ ν α) = [(.miss i, k, some v)] ∧
      u.after? c wrap (.land (.miss i) n) = some u' ∧ u'.run? c wrap b = some w' := by
  induction es generalizing w with
  | nil =>
    obtain rfl := Option.some.inj hrun
    exact .inl hf
  | cons e es ih =>
    obtain ⟨w₁, he, hes⟩ := Option.bind_eq_some_iff.1 hrun
    simp only [Resolving, Throughout, he] at hresolving
    rcases hf.after h he hresolving.1 with hf₁ | ⟨n, v, rfl, hlanding⟩
    · refine (ih hf₁ (inv_after h he) hes hresolving.2).imp_right ?_
      rintro ⟨a, b, n, v, u, u', rfl, ha, hall, hrest⟩
      refine ⟨e :: a, b, n, v, u, u', rfl, ?_, ?_, hrest⟩
      · rw [run?, he]
        exact ha
      · rw [states_cons he]
        exact List.forall_mem_cons.2 ⟨⟨h, hf⟩, hall⟩
    · refine .inr ⟨[], es, n, v, w, w₁, rfl, rfl, ?_, hlanding, he, hes⟩
      exact fun s hs => List.mem_singleton.1 hs ▸ ⟨h, hf⟩

/-- In a run in which the store has a key all the time, nobody comes to load it. -/
theorem Unclaimed.run [LawfulBEq κ] {w w' : Backed (Store κ ν) κ ν} {k : κ}
    {es : List (Event (Store κ ν) κ ν α)} (hu : w.Unclaimed k) (h : w.core.Inv)
    (hthere : ∀ s ∈ w.states .ofStore wrap es, ¬ s.cache.Lost s.now k)
    (hrun : w.run? .ofStore wrap es = some w') : w'.Unclaimed k := by
  induction es generalizing w with
  | nil =>
    obtain rfl := Option.some.inj hrun
    exact hu
  | cons e es ih =>
    obtain ⟨w₁, he, hes⟩ := Option.bind_eq_some_iff.1 hrun
    rw [states_cons he, List.forall_mem_cons] at hthere
    exact ih (hu.after h hthere.1 he) (inv_after h he) hthere.2 hes

/-- A resolver that calls the loader in an event was about to do so. -/
private theorem unasked_of_call [LawfulBEq κ] {j : Nat} {call : Read κ} (h : w.core.Inv)
    (he : w.after? c wrap (.own (.loading (.ask j))) = some w')
    (hcall : w'.core.loaderCall? (.miss j) = some call) :
    w.core.request? (.miss j) = some (.load call, false) := by
  have hturn := turn_of_after? h he (.miss j)
  rw [RefreshDelegate.loaderCall?_eq_some_iff.1 hcall] at hturn
  generalize w.core.request? (.miss j) = q? at hturn ⊢
  cases hturn with
  | stay hs => exact absurd rfl hs
  | load r hnew hback => exact nomatch hback
  | ask q hs => rfl

/-- No load without need. Between two calls of the loader for a key, the write-back of the first one
lands, and from then on there is a moment at which the store does not have the key. Up to the moment
when the write-back lands the key is in flight, so that there is no gap in which it is neither in
flight nor in the store. -/
theorem no_redundant_load [LawfulBEq κ] {retry : Nat} {store : Store κ ν}
    {w₁ w₂ w₃ w₄ : Backed (Store κ ν) κ ν} {before between : List (Event (Store κ ν) κ ν α)}
    {i j : Nat} {k : κ} {call call' : Read κ}
    (hbefore : (start retry store).run? .ofStore wrap before = some w₁)
    (hfirst : w₁.after? .ofStore wrap (.own (.loading (.ask i))) = some w₂)
    (hcall : w₂.core.loaderCall? (.miss i) = some call) (hk : k ∈ call.keys)
    (hbetween : w₂.run? .ofStore wrap between = some w₃)
    (hresolving : w₂.Resolving .ofStore wrap between)
    (hsecond : w₃.after? .ofStore wrap (.own (.loading (.ask j))) = some w₄)
    (hcall' : w₄.core.loaderCall? (.miss j) = some call') (hk' : k ∈ call'.keys) :
    ∃ (a b : List (Event (Store κ ν) κ ν α)) (n : Nat) (v : ν) (u u' : Backed (Store κ ν) κ ν),
      between = a ++ .land (.miss i) n :: b ∧ w₂.run? .ofStore wrap a = some u ∧
      (∀ s ∈ w₂.states .ofStore wrap a, (s.core.delegate.flights.registry[k]?).isSome) ∧
      u.landing (.land (.miss i) n : Event (Store κ ν) κ ν α) = [(.miss i, k, some v)] ∧
      u.after? .ofStore wrap (.land (.miss i) n) = some u' ∧
      AcceptingCache.ofStore.holds u'.cache k = some v ∧
      ∃ s ∈ u'.states .ofStore wrap b, s.cache.Lost s.now k := by
  have h₂ : w₂.core.Inv := inv_after (inv_run (.ofRetry retry) hbefore) hfirst
  have h₃ : w₃.core.Inv := inv_run h₂ hbetween
  have hloads := unasked_of_call h₃ hsecond hcall'
  -- The second call is not made while the first resolver is still at work on the key.
  have hnot : ¬ w₃.Fetching i k := fun hf => hf.not_unasked h₃ hloads hk'
  obtain ⟨a, b, n, v, u, u', rfl, ha, hall, hlanding, hland, hb⟩ :=
    ((Fetching.of_call hcall hk).run h₂ hbetween hresolving).resolve_left hnot
  have hu : u.core.Inv := inv_run h₂ ha
  have hfetching : u.Fetching i k := (hall u (mem_states_of_run ha)).2
  refine ⟨a, b, n, v, u, u', rfl, ha, fun s hs => (hall s hs).2.registered (hall s hs).1, hlanding,
    hland, ?_, ?_⟩
  · rcases landing_cases hland with hnil | ⟨x, k', v?, hsingle, hholds⟩
    · rw [hnil] at hlanding
      exact nomatch hlanding
    · rw [hsingle] at hlanding
      obtain ⟨-, rfl, rfl⟩ := by simpa using hlanding
      exact hholds
  · -- If the store had the key all the time, nobody would have come to load it.
    by_contra hnever
    push Not at hnever
    have hunclaimed := (hfetching.unclaimed hu hland).run (inv_after hu hland) hnever hb
    exact hunclaimed j call' false hloads hk'

end

/-! ## A key that is deleted in between -/

/-- A store of at most ten entries with nothing in it. -/
def emptyStore : Store Nat Nat := .ofLimits 10 (Span.ofMillis 60000)

/-- Values are stored as the loader has them. -/
def asIs : Nat → Nat → Nat := fun _ v => v

/-- A read does not find key 1. -/
def missed : List (Event (Store Nat Nat) Nat Nat Nat) :=
  [.own (.loading (.call (.one 1))), .own (.loading (.advance 0)), .own (.loading (.advance 0)),
    .own (.loading (.ask 1)), .serve 1]

/-- The loader answers 10, and the store is asked to take it. -/
def answered : List (Event (Store Nat Nat) Nat Nat Nat) :=
  [.answer (.miss 1) (.one (.answered (.ok (some 10)))), .own (.loading (.chore 1)),
    .own (.loading (.ask 1))]

/-- Key 1 is deleted, and then a read does not find it. -/
def deletedAndMissed : List (Event (Store Nat Nat) Nat Nat Nat) :=
  [.written (.miss 1), .own (.loading (.chore 1)), .own (.loading (.chore 1)), .write 1 none,
    .own (.loading (.call (.one 1))), .own (.loading (.advance 2)), .own (.loading (.advance 2)),
    .own (.loading (.ask 3)), .serve 3]

/-- The same after the only write-back has landed in an empty store. -/
def landedFirst (w : Backed (Store Nat Nat) Nat Nat) (x : LoadSite) (k v : Nat) :
    Backed (Store Nat Nat) Nat Nat :=
  { w with
    cache := { w.cache with
      entries := (∅ : Std.HashMap Nat (Entry Nat)).insert k ⟨v, w.now, w.cache.nextVersion⟩
      recency := w.cache.recency.touch k
      nextVersion := w.cache.nextVersion + 1 }
    due := fun y => if y = x then [] else w.due y }

private theorem after?_land {w : Backed (Store Nat Nat) Nat Nat} {x : LoadSite} {k v : Nat}
    (hq : w.core.request? x = some (.write [k] [(k, some v)], true))
    (hdue : w.due x = [(k, some v)]) (hempty : w.cache.entries = ∅) (hcap : 0 < w.cache.capacity) :
    w.after? .ofStore asIs (.land x 0) = some (w.landedFirst x k v) := by
  have hset : w.cache.set w.now k v = (w.landedFirst x k v).cache := by
    simp [Store.set, Store.makeRoom, landedFirst, hempty, hcap]
  simp [after?, hq, hdue, AcceptingCache.ofStore, hset, landedFirst]

private theorem refetched_run :
    ((start 10 emptyStore).run? .ofStore asIs missed).elim False fun w₁ =>
      (w₁.after? .ofStore asIs (.own (.loading (.ask 1)))).elim False fun w₂ =>
        w₂.core.loaderCall? (.miss 1) = some (.one 1) ∧
        (w₂.run? .ofStore asIs answered).elim False fun u =>
          u.core.request? (.miss 1) = some (.write [1] [(1, some 10)], true) ∧
          u.due (.miss 1) = [(1, some 10)] ∧ u.cache.entries = ∅ ∧ 0 < u.cache.capacity ∧
          ((u.landedFirst (.miss 1) 1 10).run? .ofStore asIs deletedAndMissed).elim False fun w₃ =>
            (w₃.after? .ofStore asIs (.own (.loading (.ask 3)))).elim False fun w₄ =>
              w₄.core.loaderCall? (.miss 3) = some (.one 1) := by
  cbv

/-- A loader that is not asked for anything resolves what it is asked for. -/
private theorem resolving_of_no_answer {c : AcceptingCache ω κ ν} {wrap : Nat → α → ν}
    {es : List (Event ω κ ν α)} (h : ∀ e ∈ es, ∀ x a, e ≠ .answer x a) (w : Backed ω κ ν) :
    w.Resolving c wrap es := by
  induction es generalizing w with
  | nil => trivial
  | cons e es ih =>
    obtain ⟨he, hes⟩ := List.forall_mem_cons.1 h
    rw [Resolving, Throughout]
    split
    · trivial
    · next w' hw' => exact ⟨fun x a call heq => absurd heq (he x a), ih hes w'⟩

/-- Between the two calls for key 1 the store has had the value 10, and then lost it. -/
theorem no_redundant_load_deletedBetween :
    ∃ (w₁ w₂ w₃ w₄ u' : Backed (Store Nat Nat) Nat Nat)
      (a b : List (Event (Store Nat Nat) Nat Nat Nat)) (n v : Nat),
      (start 10 emptyStore).run? .ofStore asIs missed = some w₁ ∧
      w₁.after? .ofStore asIs (.own (.loading (.ask 1))) = some w₂ ∧
      w₂.core.loaderCall? (.miss 1) = some (.one 1) ∧
      w₂.run? .ofStore asIs (answered ++ .land (.miss 1) 0 :: deletedAndMissed) = some w₃ ∧
      w₂.Resolving .ofStore asIs (answered ++ .land (.miss 1) 0 :: deletedAndMissed) ∧
      w₃.after? .ofStore asIs (.own (.loading (.ask 3))) = some w₄ ∧
      w₄.core.loaderCall? (.miss 3) = some (.one 1) ∧
      answered ++ .land (.miss 1) 0 :: deletedAndMissed = a ++ .land (.miss 1) n :: b ∧
      AcceptingCache.ofStore.holds u'.cache 1 = some v ∧
      ∃ s ∈ u'.states .ofStore asIs b, s.cache.Lost s.now 1 := by
  obtain ⟨w₁, h₁, h⟩ := exists_of_elim refetched_run
  obtain ⟨w₂, h₂, hcall, h⟩ := exists_of_elim h
  obtain ⟨u, hu, hq, hdue, hempty, hcap, h⟩ := exists_of_elim h
  obtain ⟨w₃, h₃, h⟩ := exists_of_elim h
  obtain ⟨w₄, h₄, hcall'⟩ := exists_of_elim h
  have hbetween : w₂.run? .ofStore asIs (answered ++ .land (.miss 1) 0 :: deletedAndMissed) =
      some w₃ := by
    rw [run?_append, hu, Option.bind_some, run?, after?_land hq hdue hempty hcap]
    exact h₃
  -- There is one answer in between, and it has a value.
  have hresolving : w₂.Resolving .ofStore asIs
      (answered ++ .land (.miss 1) 0 :: deletedAndMissed) := by
    rw [answered, List.cons_append, Resolving, Throughout]
    split
    · trivial
    · next w' hw' =>
      refine ⟨?_, resolving_of_no_answer (by simp [deletedAndMissed]) w'⟩
      rintro x a call heq hcall₂
      obtain ⟨rfl, rfl⟩ := Event.answer.inj heq
      obtain rfl := Option.some.inj (hcall.symm.trans hcall₂)
      trivial
  obtain ⟨a, b, n, v, -, u', hsplit, -, -, -, -, hholds, hlost⟩ :=
    no_redundant_load h₁ h₂ hcall (List.mem_singleton_self 1) hbetween hresolving h₄ hcall'
      (List.mem_singleton_self 1)
  exact ⟨w₁, w₂, w₃, w₄, u', a, b, n, v, h₁, h₂, hcall, hbetween, hresolving, h₄, hcall', hsplit,
    hholds, hlost⟩

end Backed

end CacheLayer
