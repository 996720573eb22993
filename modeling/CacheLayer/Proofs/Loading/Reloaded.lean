import CacheLayer.Proofs.Loading.WriteBack
/-!
# What a reload leaves behind

A reload calls the loader once and then writes back what the loader has answered. So it can be told
from the answer alone what the cache holds when the reload is through. A reload of one key leaves
what the source has, and nothing if the source has nothing. A reload of several keys leaves what the
source has, too; but a key that is not in the answer stays as it was.

## Key results

- `Backed.holds_of_reload`: what a reload leaves behind, told from the answer
- `Backed.reload_effect`: the same for an answer about one key and for one about several
- `Backed.dropped_key_stays`: a reload of several keys does not delete what the source has dropped
-/

namespace CacheLayer

variable {ω κ ν α : Type} [BEq κ] [Hashable κ]

/-! ## The writes that an answer leads to -/

omit [Hashable κ] in
/-- Of entries with different keys, one at most is of a key. -/
private theorem filter_key [LawfulBEq κ] {β : Type} {l : List (κ × β)}
    (h : l.Pairwise fun a b => (a.1 == b.1) = false) {k : κ} {b : β} (hb : (k, b) ∈ l) :
    (l.filter fun p => p.1 == k) = [(k, b)] := by
  induction l with
  | nil => exact nomatch hb
  | cons p l ih =>
    rw [List.pairwise_cons] at h
    rcases List.mem_cons.1 hb with rfl | hmem
    · have hnone : (l.filter fun p => p.1 == k) = [] := by
        refine List.filter_eq_nil_iff.2 fun q hq heq => ?_
        exact Bool.false_ne_true ((h.1 q hq).symm.trans (beq_iff_eq.2 (eq_of_beq heq).symm))
      rw [List.filter_cons, if_pos (beq_self_eq_true k), hnone]
    · have hne : ¬ (p.1 == k) = true := by
        rw [h.1 _ hmem]
        exact Bool.false_ne_true
      rw [List.filter_cons, if_neg hne, ih h.2 hmem]

/-- An answer for several keys leads to at most one write of a key, of the value that it has. -/
theorem toKey_entries [LawfulBEq κ] (m : Std.HashMap κ α) (f : α → ν) (k : κ) :
    toKey k (m.toList.map fun e => (e.1, some (f e.2))) =
      (m[k]?.map fun v => some (f v)).toList := by
  have hfilter : toKey k (m.toList.map fun e => (e.1, some (f e.2))) =
      (m.toList.filter fun e => e.1 == k).map fun e => some (f e.2) := by
    rw [toKey, List.filter_map, List.map_map]
    rfl
  rw [hfilter]
  cases hk : m[k]? with
  | none =>
    -- An entry of the list would be an entry of the map.
    have hnone : (m.toList.filter fun e => e.1 == k) = [] := by
      refine List.filter_eq_nil_iff.2 fun e he heq => ?_
      have hget := Std.HashMap.mem_toList_iff_getElem?_eq_some.1 he
      rw [eq_of_beq heq, hk] at hget
      cases hget
    rw [hnone]
    rfl
  | some v =>
    rw [filter_key Std.HashMap.distinct_keys_toList
      (Std.HashMap.mem_toList_iff_getElem?_eq_some.2 hk)]
    rfl

/-- An answer leads to at most one write of a key. -/
private theorem exists_toKey_writes [LawfulBEq κ] (inBackground : Bool) (f : α → ν) (call : Read κ)
    (a : LoadAnswer κ α) (k : κ) :
    ∃ v?? : Option (Option ν), toKey k (a.writes inBackground f call) = v??.toList := by
  -- A write of one entry is a write of the key, or of another one.
  have hone : ∀ (k' : κ) (v? : Option ν), ∃ v??, toKey k [(k', v?)] = Option.toList v?? := by
    intro k' v?
    by_cases hk : k' == k
    · exact ⟨some v?, by simp [toKey, hk]⟩
    · exact ⟨none, by simp [toKey, hk]⟩
  cases call with
  | one k' =>
    cases a with
    | one r =>
      simp only [LoadAnswer.writes]
      -- That there is no value deletes the key if it was reloaded, and does nothing after a miss.
      rcases r.outcome with e | _ | v
      · exact ⟨none, rfl⟩
      · cases inBackground
        · exact ⟨none, rfl⟩
        · exact hone k' none
      · exact hone k' (some (f v))
    | many r => exact ⟨none, rfl⟩
  | many ks =>
    cases a with
    | one r => exact ⟨none, rfl⟩
    | many r =>
      simp only [LoadAnswer.writes]
      rcases r.outcome with e | m
      · exact ⟨none, rfl⟩
      · exact ⟨_, toKey_entries m f k⟩

namespace Backed

section

variable {c : AcceptingCache ω κ ν} {wrap : Nat → α → ν} {w w' : Backed ω κ ν}

/-! ## A site loads once -/

/-- A site that has begun and that neither reads nor loads any more. -/
def Past (w : Backed ω κ ν) (x : LoadSite) : Prop :=
  w.core.Knows x ∧
    ∀ q asked, w.core.request? x = some (q, asked) → ∃ ks entries, q = .write ks entries

/-- A site that is past loading stays so. -/
theorem past_after [LawfulBEq κ] {e : Event ω κ ν α} {x : LoadSite} (h : w.core.Inv)
    (hx : w.Past x) (he : w.after? c wrap e = some w') : w'.Past x := by
  refine ⟨knows_after he hx.1, ?_⟩
  have hturn := turn_of_after? h he x
  have hpast := hx.2
  revert hpast hturn
  generalize w.core.request? x = q?, w'.core.request? x = q?'
  intro hturn hpast q asked hq
  -- A site that is past loading has only its write-back left to ask for, or nothing.
  cases hturn with
  | stay hs => exact hpast q asked hq
  | read r hnew => exact absurd hx.1 hnew
  | load r hnew hback => exact absurd hx.1 hnew
  | ask q' hs =>
    obtain ⟨rfl, -⟩ := Prod.mk.inj (Option.some.inj hq)
    exact hpast _ false rfl
  | serve hx' hmiss =>
    obtain ⟨ks, entries, heq⟩ := hpast _ true rfl
    exact nomatch heq
  | answer =>
    obtain ⟨ks, entries, heq⟩ := hpast _ true rfl
    exact nomatch heq
  | written hdue => exact nomatch hq

/-- A site that is past loading is not answered any more. -/
theorem not_past_of_answer {x : LoadSite} {a : LoadAnswer κ α}
    (he : w.after? c wrap (.answer x a) = some w') : ¬ w.Past x := by
  intro hx
  simp only [after?] at he
  split at he
  · next call hcall =>
    obtain ⟨ks, entries, heq⟩ := hx.2 _ true hcall
    cases heq
  · cases he

/-- A site is past loading when the loader has answered. -/
theorem past_of_answer [LawfulBEq κ] {x : LoadSite} {a : LoadAnswer κ α} (h : w.core.Inv)
    (he : w.after? c wrap (.answer x a) = some w') : w'.Past x := by
  have hturn := turn_of_after? h he x
  have hknows : w.core.request? x ≠ none → w'.core.Knows x := by
    intro hne
    obtain ⟨q, hq⟩ := Option.ne_none_iff_exists'.1 hne
    exact knows_after he (h.knows hq)
  rw [Past]
  revert hknows hturn
  generalize w.core.request? x = q?, w'.core.request? x = q?'
  intro hturn hknows
  cases hturn with
  | stay hs => exact absurd rfl hs
  | answer =>
    refine ⟨hknows nofun, fun q asked hq => ?_⟩
    obtain ⟨q', hnext, hq'⟩ := Option.map_eq_some_iff.1 hq
    obtain ⟨rfl, -⟩ := Prod.mk.inj hq'
    obtain ⟨entries, rfl⟩ := Request.next?_load hnext
    exact ⟨_, entries, rfl⟩

/-- At a site that is past loading, nothing is loaded any more. -/
theorem loaded_of_past [LawfulBEq κ] {es : List (Event ω κ ν α)} {x : LoadSite} (h : w.core.Inv)
    (hx : w.Past x) (hrun : w.run? c wrap es = some w') :
    ofSites (· == x) (w.loaded c wrap es) = [] := by
  induction es generalizing w with
  | nil => rfl
  | cons e es ih =>
    obtain ⟨w₁, he, hes⟩ := Option.bind_eq_some_iff.1 hrun
    rw [loaded_cons he, ofSites_append, ih (inv_after h he) (past_after h hx he) hes,
      List.append_nil]
    by_cases hsite : ∃ a, e = .answer x a
    · obtain ⟨a, rfl⟩ := hsite
      simp only [loading]
      split
      · next call hcall =>
        -- An answer is one to a call, and the site has none outstanding.
        obtain ⟨ks, entries, heq⟩ := hx.2 _ true (RefreshDelegate.loaderCall?_eq_some_iff.1 hcall)
        cases heq
      · rfl
    · cases e with
      | answer y a => exact loading_of_ne fun heq => hsite ⟨a, by rw [Option.some.inj heq]⟩
      | _ => rfl

/-- A site whose call of the loader is outstanding waits for the answer: until it is past loading,
the call stays and nothing has been loaded. -/
theorem loading_of_not_past [LawfulBEq κ] {es : List (Event ω κ ν α)} {x : LoadSite}
    {call : Read κ} (h : w.core.Inv) (hcall : w.core.request? x = some (.load call, true))
    (hx : ¬ w'.Past x) (hrun : w.run? c wrap es = some w') :
    w'.core.request? x = some (.load call, true) ∧ ofSites (· == x) (w.loaded c wrap es) = [] := by
  induction es generalizing w with
  | nil =>
    obtain rfl := Option.some.inj hrun
    exact ⟨hcall, rfl⟩
  | cons e es ih =>
    obtain ⟨w₁, he, hes⟩ := Option.bind_eq_some_iff.1 hrun
    have h₁ := inv_after h he
    have hturn := turn_of_after? h he x
    rw [hcall] at hturn
    generalize hq' : w₁.core.request? x = q?' at hturn
    cases hturn with
    | stay hsite =>
      obtain ⟨hcall', hloaded⟩ := ih h₁ hq' hes
      rw [loaded_cons he, ofSites_append, loading_of_ne hsite, hloaded]
      exact ⟨hcall', rfl⟩
    | answer =>
      -- Past loading once is past loading for good.
      refine absurd ?_ hx
      exact (run?_inv (P := fun w => w.core.Inv ∧ w.Past x)
        (fun _ _ _ hw he => ⟨inv_after hw.1 he, past_after hw.1 hw.2 he⟩)
        ⟨h₁, past_of_answer h he⟩ hes).2

/-! ## What a reload leaves behind -/

/-- What the cache holds when a reload is through is what the answer of the loader says, and what it
held before if the answer says nothing. -/
theorem holds_of_reload [LawfulBEq κ] {w₁ w₂ w₃ w₄ : Backed ω κ ν} {i : Nat} {call : Read κ}
    {a : LoadAnswer κ α} {mid after : List (Event ω κ ν α)} (h : w₁.core.Inv)
    (hcall : w₁.core.loaderCall? (.reload i) = some call) (hmid : w₁.run? c wrap mid = some w₂)
    (hanswer : w₂.after? c wrap (.answer (.reload i) a) = some w₃)
    (hafter : w₃.run? c wrap after = some w₄) (hdone : w₄.core.request? (.reload i) = none) {k : κ}
    (hquiet : w₁.Undisturbed c wrap (· == .reload i) k
      (mid ++ .answer (.reload i) a :: after)) :
    c.holds w₄.cache k =
      (toKey k (a.writes true (wrap w₂.now) call)).head?.getD (c.holds w₁.cache k) := by
  have hloading := RefreshDelegate.loaderCall?_eq_some_iff.1 hcall
  have h₂ := inv_run h hmid
  have h₃ := inv_after h₂ hanswer
  have hrun : w₁.run? c wrap (mid ++ .answer (.reload i) a :: after) = some w₄ := by
    rw [run?_append, hmid, Option.bind_some, run?, hanswer]
    exact hafter
  -- Up to the answer nothing is loaded, so that nothing lands.
  have hnot : ¬ w₂.Past (.reload i) := not_past_of_answer hanswer
  obtain ⟨hloading₂, hloaded⟩ := loading_of_not_past h hloading hnot hmid
  have hpending₂ : w₂.pending (.reload i) = [] := by rw [pending, hloading₂]
  have hbefore := landed_perm h hmid (.reload i)
  rw [hpending₂, hloaded, pending, hloading] at hbefore
  -- The answer tells what is pending then, and afterwards it lands.
  have hwrites := pending_after h₂ hanswer (.reload i)
  have hafterwards := landed_perm h₃ hafter (.reload i)
  have hanswered : ofSites (· == .reload i) (w₂.loading wrap (.answer (.reload i) a)) =
      a.writes true (wrap w₂.now) call := by
    simp only [loading, RefreshDelegate.loaderCall?_eq_some_iff.2 hloading₂, ofSites_map,
      beq_self_eq_true, if_true]
    rfl
  rw [hpending₂, hanswered] at hwrites
  rw [loaded_of_past h₃ (past_of_answer h₂ hanswer) hafter, pending, hdone, List.append_nil,
    List.append_nil] at hafterwards
  have hlanded : ofSites (· == .reload i)
      (w₁.landed c wrap (mid ++ .answer (.reload i) a :: after)) =
      ofSites (· == .reload i) (w₃.landed c wrap after) := by
    rw [landed_append hmid, landed_cons hanswer, ofSites_append, ofSites_append,
      (List.append_eq_nil_iff.1 hbefore.eq_nil).1]
    rfl
  -- Of the writes that the answer leads to, at most one is of the key.
  obtain ⟨v??, hone⟩ := exists_toKey_writes true (wrap w₂.now) call a k
  have hperm : (toKey k (ofSites (· == .reload i) (w₃.landed c wrap after))).Perm v??.toList :=
    hone ▸ ((hafterwards.trans hwrites).filter _).map _
  rw [holds_of_undisturbed hrun hquiet, hlanded, hone]
  cases v?? with
  | none => rw [hperm.eq_nil]; rfl
  | some v? => rw [List.perm_singleton.1 hperm]; rfl

/-- What a reload leaves behind. When a reload is through, and if nothing but its own write-backs
has disturbed a key, the cache holds for the key what the loader has answered, stamped at the
instant when the answer came. If one key was loaded and the source does not have it, the key is
gone. But if several keys were loaded, a key that is not in the answer is held as it was before. -/
theorem reload_effect [LawfulBEq κ] {c : AcceptingCache ω κ (Stamped α)} {retry epoch : Nat}
    {cache : ω} {w₁ w₂ w₃ w₄ : Backed ω κ (Stamped α)} {i : Nat} {call : Read κ}
    {a : LoadAnswer κ α} {before mid after : List (Event ω κ (Stamped α) α)} {k : κ}
    (hbefore : (start retry cache).run? c (Stamped.stamp epoch) before = some w₁)
    (hcall : w₁.core.loaderCall? (.reload i) = some call)
    (hmid : w₁.run? c (Stamped.stamp epoch) mid = some w₂)
    (hanswer : w₂.after? c (Stamped.stamp epoch) (.answer (.reload i) a) = some w₃)
    (hafter : w₃.run? c (Stamped.stamp epoch) after = some w₄)
    (hdone : w₄.core.request? (.reload i) = none)
    (hquiet : w₁.Undisturbed c (Stamped.stamp epoch) (· == .reload i) k
      (mid ++ .answer (.reload i) a :: after)) :
    (∀ ks m, call = .many ks → a = .many (.answered (.ok m)) →
      c.holds w₄.cache k =
        (m[k]?.map (Stamped.stamp epoch w₂.now)).or (c.holds w₁.cache k)) ∧
    ∀ v?, call = .one k → a = .one (.answered (.ok v?)) →
      c.holds w₄.cache k = v?.map (Stamped.stamp epoch w₂.now) := by
  have hholds := holds_of_reload (inv_run (.ofRetry retry) hbefore) hcall hmid hanswer hafter hdone
    hquiet
  constructor
  · rintro ks m rfl rfl
    rw [hholds, LoadAnswer.writes]
    simp only [LoadEnd.outcome, toKey_entries]
    cases m[k]? <;> rfl
  · rintro v? rfl rfl
    rw [hholds, LoadAnswer.writes]
    cases v? <;> simp [LoadEnd.outcome, toKey]

end

/-! ## Reloads of one key, by itself and in a batch -/

/-- After half a second, a read of several keys finds the value of key 1 and has it loaded again. -/
def foundStaleInBatch : List (Event (Store Nat (Stamped Nat)) Nat (Stamped Nat) Nat) :=
  [.wait (Span.ofMillis 500), .own (.loading (.call (.many [1]))), .own (.loading (.advance 0)),
    .own (.loading (.advance 0)), .own (.loading (.ask 1)), .serve 1, .own (.loading (.chore 1)),
    .own (.loading (.chore 1)), .own (.loading (.chore 1)),
    .own (.refresh (.many [1])), .own (.loading (.leave 0)),
    .own (.advance (Span.ofMillis 500) 0), .own (.advance (Span.ofMillis 500) 0),
    .own (.advance (Span.ofMillis 500) 0)]

/-- The loader takes its time. -/
def awaited : List (Event (Store Nat (Stamped Nat)) Nat (Stamped Nat) Nat) :=
  [.wait (Span.ofMillis 20)]

/-- A reload of one key writes back what the loader has answered. -/
def writtenBack : List (Event (Store Nat (Stamped Nat)) Nat (Stamped Nat) Nat) :=
  [.own (.ask 0), .land (.reload 0) 0, .written (.reload 0)]

/-- The answer 11 about key 1. -/
def answerEleven : LoadAnswer Nat Nat := .one (.answered (.ok (some 11)))

/-- The answer to a batch of which the source has nothing any more. -/
def answerNothing : LoadAnswer Nat Nat := .many (.answered (.ok ∅))

private theorem alone_run :
    ((start 10 holdingOne).run? .ofStore (Stamped.stamp 0) foundStale).elim False fun w₁ =>
      w₁.core.loaderCall? (.reload 0) = some (.one 1) ∧
      w₁.Undisturbed .ofStore (Stamped.stamp 0) (· == .reload 0) 1
        (awaited ++ .answer (.reload 0) answerEleven :: writtenBack) ∧
      (w₁.run? .ofStore (Stamped.stamp 0) awaited).elim False fun w₂ =>
        w₂.now = Span.ofMillis 520 ∧
        (w₂.after? .ofStore (Stamped.stamp 0) (.answer (.reload 0) answerEleven)).elim False
          fun w₃ => (w₃.run? .ofStore (Stamped.stamp 0) writtenBack).elim False fun w₄ =>
            w₄.core.request? (.reload 0) = none := by
  cbv
  simp

private theorem batch_run :
    ((start 10 holdingOne).run? .ofStore (Stamped.stamp 0) foundStaleInBatch).elim False fun w₁ =>
      w₁.core.loaderCall? (.reload 0) = some (.many [1]) ∧
      AcceptingCache.ofStore.holds w₁.cache 1 = some ⟨10, 0⟩ ∧
      (w₁.run? .ofStore (Stamped.stamp 0) awaited).elim False fun w₂ =>
        AcceptingCache.ofStore.holds w₂.cache 1 = some ⟨10, 0⟩ ∧
        w₂.core.reloads[0]? = some ⟨[], some (.loadMany [⟨1, 0⟩]), true⟩ := by
  cbv

/-- A batch of which the source has nothing is through with the answer. -/
private theorem answerNothing_ends {w : Backed (Store Nat (Stamped Nat)) Nat (Stamped Nat)}
    {gs : List (Guard Nat)} (hr : w.core.reloads[0]? = some ⟨[], some (.loadMany gs), true⟩) :
    ∃ w', w.after? .ofStore (Stamped.stamp 0) (.answer (.reload 0) answerNothing) = some w' ∧
      w'.core.request? (.reload 0) = none ∧ w'.cache = w.cache := by
  have hcall : w.core.request? (.reload 0) = some (.load (.many (gs.map Guard.key)), true) := by
    rw [RefreshDelegate.request?, hr]
    rfl
  have hstep :
      w.core.step? (LoadSite.told (.reload 0) (answerNothing.reply (Stamped.stamp 0 w.now))) =
        some (w.core.setReload 0 (Reload.afterLoadMany gs
          (.ok ((∅ : Std.HashMap Nat Nat).map fun _ => Stamped.stamp 0 w.now)))) := by
    simp only [LoadSite.told, RefreshDelegate.step?, hr]
    rfl
  obtain ⟨q, hq, hnext, -⟩ := RefreshDelegate.request?_of_told hstep
  obtain rfl : Request.load (.many (gs.map Guard.key)) = q :=
    congrArg Prod.fst (Option.some.inj (hcall.symm.trans hq))
  refine ⟨{ w with core := _ }, ?_, hnext.trans ?_, rfl⟩
  · simp only [after?, hcall, tell?, hstep]
    rfl
  · simp [answerNothing, LoadAnswer.reply, LoadEnd.map, Request.next?, LoadEnd.outcome, Except.map]

/-- Key 1 is loaded again in a batch, the source does not have it any more, and in the end the store
holds what it held. -/
private theorem batch : ∃ w₁ w₂ w₃ : Backed (Store Nat (Stamped Nat)) Nat (Stamped Nat),
    (start 10 holdingOne).run? .ofStore (Stamped.stamp 0) foundStaleInBatch = some w₁ ∧
    w₁.core.loaderCall? (.reload 0) = some (.many [1]) ∧
    AcceptingCache.ofStore.holds w₁.cache 1 = some ⟨10, 0⟩ ∧
    w₁.run? .ofStore (Stamped.stamp 0) awaited = some w₂ ∧
    w₂.after? .ofStore (Stamped.stamp 0) (.answer (.reload 0) answerNothing) = some w₃ ∧
    w₃.core.request? (.reload 0) = none ∧
    w₁.Undisturbed .ofStore (Stamped.stamp 0) (· == .reload 0) 1
      (awaited ++ [.answer (.reload 0) answerNothing]) ∧
    AcceptingCache.ofStore.holds w₃.cache 1 = some ⟨10, 0⟩ := by
  obtain ⟨w₁, h₁, hcall, hholds, h⟩ := exists_of_elim batch_run
  obtain ⟨w₂, h₂, hholds₂, hr⟩ := exists_of_elim h
  obtain ⟨w₃, h₃, hdone, hcache⟩ := answerNothing_ends hr
  have hwait : w₁.after? .ofStore (Stamped.stamp 0) (.wait (Span.ofMillis 20)) = some w₂ := by
    rw [awaited, run?] at h₂
    obtain ⟨w, hw, hnil⟩ := Option.bind_eq_some_iff.1 h₂
    exact hw.trans hnil
  refine ⟨w₁, w₂, w₃, h₁, hcall, hholds, h₂, h₃, hdone, ?_, hcache ▸ hholds₂⟩
  simp only [awaited, List.singleton_append, Undisturbed, Throughout, hwait, h₃, hcache, hholds,
    hholds₂]
  simp

/-- A reload of one key leaves the answer with its stamp. A reload of a batch that the source has
nothing of leaves the key as it was. -/
theorem reload_effect_aloneAndInBatch :
    (∃ w₁ w₂ w₃ w₄ : Backed (Store Nat (Stamped Nat)) Nat (Stamped Nat),
      (start 10 holdingOne).run? .ofStore (Stamped.stamp 0) foundStale = some w₁ ∧
      w₁.core.loaderCall? (.reload 0) = some (.one 1) ∧
      w₁.run? .ofStore (Stamped.stamp 0) awaited = some w₂ ∧
      w₂.after? .ofStore (Stamped.stamp 0) (.answer (.reload 0) answerEleven) = some w₃ ∧
      w₃.run? .ofStore (Stamped.stamp 0) writtenBack = some w₄ ∧
      w₄.core.request? (.reload 0) = none ∧
      AcceptingCache.ofStore.holds w₄.cache 1 = some ⟨11, 520⟩) ∧
    ∃ w₁ w₂ w₃ : Backed (Store Nat (Stamped Nat)) Nat (Stamped Nat),
      (start 10 holdingOne).run? .ofStore (Stamped.stamp 0) foundStaleInBatch = some w₁ ∧
      w₁.core.loaderCall? (.reload 0) = some (.many [1]) ∧
      w₁.run? .ofStore (Stamped.stamp 0) awaited = some w₂ ∧
      w₂.after? .ofStore (Stamped.stamp 0) (.answer (.reload 0) answerNothing) = some w₃ ∧
      w₃.core.request? (.reload 0) = none ∧
      AcceptingCache.ofStore.holds w₃.cache 1 = some ⟨10, 0⟩ := by
  constructor
  · obtain ⟨w₁, h₁, hcall, hquiet, h⟩ := exists_of_elim alone_run
    obtain ⟨w₂, h₂, hnow, h⟩ := exists_of_elim h
    obtain ⟨w₃, h₃, h⟩ := exists_of_elim h
    obtain ⟨w₄, h₄, hdone⟩ := exists_of_elim h
    refine ⟨w₁, w₂, w₃, w₄, h₁, hcall, h₂, h₃, h₄, hdone, ?_⟩
    rw [(reload_effect h₁ hcall h₂ h₃ h₄ hdone hquiet).2 (some 11) rfl rfl, hnow]
    rfl
  · obtain ⟨w₁, w₂, w₃, h₁, hcall, hholds, h₂, h₃, hdone, hquiet, -⟩ := batch
    have hend : w₃.run? .ofStore (Stamped.stamp 0) [] = some w₃ := rfl
    refine ⟨w₁, w₂, w₃, h₁, hcall, h₂, h₃, hdone, ?_⟩
    rw [(reload_effect h₁ hcall h₂ h₃ hend hdone hquiet).1 [1] ∅ rfl rfl, hholds,
      Std.HashMap.getElem?_empty]
    rfl

/-- It is not true that a reload of several keys deletes those that the source has dropped, as a
reload of one key does. -/
theorem dropped_key_stays : ¬ ∀ (before mid after : List (Event (Store Nat (Stamped Nat)) Nat
      (Stamped Nat) Nat)) (w₁ w₂ w₃ w₄ : Backed (Store Nat (Stamped Nat)) Nat (Stamped Nat))
      (i k : Nat) (ks : List Nat) (m : Std.HashMap Nat Nat),
    (start 10 holdingOne).run? .ofStore (Stamped.stamp 0) before = some w₁ →
    w₁.core.loaderCall? (.reload i) = some (.many ks) →
    w₁.run? .ofStore (Stamped.stamp 0) mid = some w₂ →
    w₂.after? .ofStore (Stamped.stamp 0) (.answer (.reload i) (.many (.answered (.ok m)))) =
      some w₃ →
    w₃.run? .ofStore (Stamped.stamp 0) after = some w₄ → w₄.core.request? (.reload i) = none →
    w₁.Undisturbed .ofStore (Stamped.stamp 0) (· == .reload i) k
      (mid ++ .answer (.reload i) (.many (.answered (.ok m))) :: after) → k ∈ ks →
    AcceptingCache.ofStore.holds w₄.cache k = m[k]?.map (Stamped.stamp 0 w₂.now) := by
  intro hdeletes
  obtain ⟨w₁, w₂, w₃, h₁, hcall, hholds, h₂, h₃, hdone, hquiet, hstays⟩ := batch
  have hgone := hdeletes _ _ [] w₁ w₂ w₃ w₃ 0 1 [1] ∅ h₁ hcall h₂ h₃ rfl hdone hquiet
    (List.mem_singleton_self 1)
  rw [hstays] at hgone
  exact absurd hgone (by simp)

end Backed

end CacheLayer
