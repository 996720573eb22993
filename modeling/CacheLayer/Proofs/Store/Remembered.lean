import CacheLayer.Proofs.Store.Roomy
import CacheLayer.Proofs.Store.Refinement
/-!
# Stores that remember records

A store that is only looked at and written to, so that its order of last use is the order of
writing. Seen that way it remembers a history of records: a key is there as long as its last record
is young, and as long as fewer other keys have been recorded since than the store has room for. A
record that is dropped before its time, to make room, has as many others after it as the store may
hold, all of them younger.

## Key results

- `Lineup.Recalls.look`, `Lineup.Recalls.put`: what an operation makes of the history
- `Lineup.Recalls.isSome_live?_iff`: what is there is what is remembered
- `Store.Recalls.isSome_peek_iff`: the same of a store
-/

namespace CacheLayer

variable {κ : Type} [BEq κ]

/-- Whether a record of a key is remembered, of a history in the order of time: it is younger than
`span`, and records of fewer than `capacity` other keys have come after it. -/
def Remembered (capacity span now : Nat) (history : List (κ × Nat)) (k : κ) : Prop :=
  ∃ before t after, history = before ++ (k, t) :: after ∧ now - t < span ∧
    ((after.map Prod.fst).filter (· != k)).eraseDups.length < capacity

/-! ## Lists taken apart -/

/-- Where a member of a list stands that has one more at its end. -/
private theorem concat_eq_append_cons {α : Type} {l before after : List α} {a b : α}
    (h : l ++ [a] = before ++ b :: after) :
    (after = [] ∧ b = a ∧ before = l) ∨
      ∃ after', after = after' ++ [a] ∧ l = before ++ b :: after' := by
  rcases List.eq_nil_or_concat after with rfl | ⟨after', a', rfl⟩
  · obtain ⟨hl, ha⟩ := List.append_inj' h rfl
    exact .inl ⟨rfl, (List.cons.inj ha).1.symm, hl.symm⟩
  · have hassoc : l ++ [a] = (before ++ b :: after') ++ [a'] := by
      simpa using h
    obtain ⟨hl, ha⟩ := List.append_inj' hassoc rfl
    exact .inr ⟨after', by rw [List.concat_eq_append, (List.cons.inj ha).1], hl⟩

/-- Where a member of a filtered list stands in the list. -/
private theorem filter_eq_append_cons {α : Type} {p : α → Bool} {l before after : List α} {a : α}
    (h : l.filter p = before ++ a :: after) :
    ∃ before' after', l = before' ++ a :: after' ∧ after'.filter p = after ∧ p a = true := by
  obtain ⟨l₁, l₂, rfl, -, h₂⟩ := List.filter_eq_append_iff.1 h
  obtain ⟨l₃, l₄, rfl, -, ha, h₄⟩ := List.filter_eq_cons_iff.1 h₂
  exact ⟨l₁ ++ l₃, l₄, by simp, h₄, ha⟩

omit [BEq κ] in
/-- A key that is recorded has a last record. -/
private theorem exists_last {history : List (κ × Nat)} {k : κ} (h : k ∈ history.map Prod.fst) :
    ∃ before t after, history = before ++ (k, t) :: after ∧ k ∉ after.map Prod.fst := by
  induction history with
  | nil => exact absurd h List.not_mem_nil
  | cons r history ih =>
    by_cases hlater : k ∈ history.map Prod.fst
    · obtain ⟨before, t, after, rfl, hlast⟩ := ih hlater
      exact ⟨r :: before, t, after, rfl, hlast⟩
    · obtain rfl : k = r.1 := by simpa [hlater] using h
      exact ⟨[], r.2, history, rfl, hlater⟩

omit [BEq κ] in
/-- A key has one last record. -/
private theorem last_unique {before before' after after' : List (κ × Nat)} {k : κ} {t t' : Nat}
    (h : before ++ (k, t) :: after = before' ++ (k, t') :: after')
    (hlast : k ∉ after.map Prod.fst) (hlast' : k ∉ after'.map Prod.fst) : after = after' := by
  -- If one of the two stood before the other, the other one would come after it.
  rcases List.append_eq_append_iff.1 h with ⟨_ | ⟨r, rs⟩, -, hsplit⟩ | ⟨_ | ⟨r, rs⟩, -, hsplit⟩
  · exact (List.cons.inj hsplit).2
  · exact absurd (by simp [(List.cons.inj hsplit).2]) hlast
  · exact (List.cons.inj hsplit).2.symm
  · exact absurd (by simp [(List.cons.inj hsplit).2]) hlast'

variable [LawfulBEq κ]

/-- Without duplicates there are at least as many keys as in a list that has none. -/
private theorem length_le_eraseDups {ks ks' : List κ} (hnodup : ks.Nodup) (h : ks ⊆ ks') :
    ks.length ≤ ks'.eraseDups.length :=
  (hnodup.subperm fun _ hk => List.mem_eraseDups.2 (h hk)).length_le

/-- What is remembered is the last record of a key. -/
private theorem remembered_iff {capacity span now : Nat} {history : List (κ × Nat)}
    (hordered : history.Pairwise fun r r' => r.2 ≤ r'.2) {k : κ} :
    Remembered capacity span now history k ↔ ∃ before t after, history = before ++ (k, t) :: after ∧
      k ∉ after.map Prod.fst ∧ now - t < span ∧
        (after.map Prod.fst).eraseDups.length < capacity := by
  constructor
  · intro hremembered
    obtain ⟨before, t, after, rfl, hyoung, hfew⟩ := hremembered
    have hthere : k ∈ ((k, t) :: after).map Prod.fst := by simp
    obtain ⟨before', t', after', hsplit, hlast⟩ := exists_last hthere
    -- The last record is no older than the given one, and what comes after it came after that too.
    have hmem : (k, t') ∈ (k, t) :: after := by
      rw [hsplit]
      simp
    have hle : t ≤ t' := by
      rcases List.mem_cons.1 hmem with heq | hmem
      · rw [(Prod.mk.inj heq).2]
      · have hrest := (List.pairwise_append.1 hordered).2.1
        exact (List.pairwise_cons.1 hrest).1 (k, t') hmem
    have hsub : after' ⊆ after := by
      intro r hr
      have hr' : r ∈ (k, t) :: after := by
        rw [hsplit]
        simp [hr]
      refine (List.mem_cons.1 hr').resolve_left fun heq => hlast ?_
      exact List.mem_map.2 ⟨r, hr, by rw [heq]⟩
    refine ⟨before ++ before', t', after', by rw [hsplit, List.append_assoc], hlast, by omega, ?_⟩
    refine Nat.lt_of_le_of_lt (length_le_eraseDups (Store.nodup_eraseDups _) ?_) hfew
    intro k' hk'
    rw [List.mem_eraseDups] at hk'
    obtain ⟨r, hr, rfl⟩ := List.mem_map.1 hk'
    refine List.mem_filter.2 ⟨List.mem_map.2 ⟨r, hsub hr, rfl⟩, ?_⟩
    exact bne_iff_ne.2 fun heq => hlast (heq ▸ hk')
  · intro hlast
    obtain ⟨before, t, after, rfl, hlast, hyoung, hfew⟩ := hlast
    refine ⟨before, t, after, rfl, hyoung, ?_⟩
    have hall : (after.map Prod.fst).filter (· != k) = after.map Prod.fst := by
      rw [List.filter_eq_self]
      intro k' hk'
      exact bne_iff_ne.2 fun heq => hlast (heq ▸ hk')
    rw [hall]
    exact hfew

/-! ## Lineups -/

namespace Lineup

/-- The entries of a list are the last records of their keys. Those that are young stand in the
order of a history, and of the young records none is missing that there is room for. -/
structure Recalls (l : Lineup κ Unit) (now : Nat) (history : List (κ × Nat)) : Prop where
  nodup : (l.items.map Prod.fst).Nodup
  length_le : l.items.length ≤ l.capacity
  ordered : history.Pairwise fun r r' => r.2 ≤ r'.2
  past : ∀ r ∈ history, r.2 ≤ now
  dates : l.items.Pairwise fun p p' => p.2.written ≤ p'.2.written
  listed : ∀ {pre : List (κ × Entry Unit)} {k : κ} {e : Entry Unit} {post : List (κ × Entry Unit)},
    l.items = pre ++ (k, e) :: post →
      ∃ before after, history = before ++ (k, e.written) :: after ∧ k ∉ after.map Prod.fst ∧
        (now - e.written < l.ttl → ∀ k', k' ∈ post.map Prod.fst ↔ k' ∈ after.map Prod.fst)
  kept : ∀ {before : List (κ × Nat)} {k : κ} {t : Nat} {after : List (κ × Nat)},
    history = before ++ (k, t) :: after → k ∉ after.map Prod.fst → now - t < l.ttl →
      (after.map Prod.fst).eraseDups.length < l.capacity → ∃ e, (k, e) ∈ l.items ∧ e.written = t

namespace Recalls

variable {l : Lineup κ Unit} {now now' : Nat} {history : List (κ × Nat)}

omit [LawfulBEq κ] in
/-- An empty list remembers nothing. -/
theorem ofLimits (maxEntries ttl now : Nat) :
    (Lineup.ofLimits maxEntries ttl : Lineup κ Unit).Recalls now [] where
  nodup := List.nodup_nil
  length_le := Nat.zero_le _
  ordered := .nil
  past r hr := absurd hr List.not_mem_nil
  dates := .nil
  listed h := by simp [Lineup.ofLimits] at h
  kept h := by simp at h

omit [LawfulBEq κ] in
/-- As time passes, less is young. -/
theorem later (h : l.Recalls now history) (hle : now ≤ now') : l.Recalls now' history where
  nodup := h.nodup
  length_le := h.length_le
  ordered := h.ordered
  past r hr := Nat.le_trans (h.past r hr) hle
  dates := h.dates
  listed hsplit := by
    obtain ⟨before, after, hhistory, hlast, hpost⟩ := h.listed hsplit
    exact ⟨before, after, hhistory, hlast, fun hyoung => hpost (by omega)⟩
  kept hsplit hlast hyoung hfew := h.kept hsplit hlast (by omega) hfew

omit [LawfulBEq κ] in
/-- No entry is from the future. -/
private theorem written_le (h : l.Recalls now history) {k : κ} {e : Entry Unit}
    (hmem : (k, e) ∈ l.items) : e.written ≤ now := by
  obtain ⟨pre, post, hsplit⟩ := List.append_of_mem hmem
  obtain ⟨before, after, rfl, -, -⟩ := h.listed hsplit
  exact h.past (k, e.written) (by simp)

/-- What is there, and young, is what is remembered. -/
theorem isSome_live?_iff (h : l.Recalls now history) {k : κ} :
    (l.live? now k).isSome ↔ Remembered l.capacity l.ttl now history k := by
  rw [remembered_iff h.ordered]
  constructor
  · intro hlive
    obtain ⟨e, he⟩ := Option.isSome_iff_exists.1 hlive
    obtain ⟨hfind, hnot⟩ := Option.filter_eq_some_iff.1 he
    have hyoung : now - e.written < l.ttl :=
      Nat.lt_of_not_le (show ¬ e.Expired l.ttl now by simpa using hnot)
    obtain ⟨pre, post, hsplit⟩ := List.append_of_mem ((Lineup.find?_eq_some_iff h.nodup).1 hfind)
    obtain ⟨before, after, hhistory, hlast, hpost⟩ := h.listed hsplit
    refine ⟨before, e.written, after, hhistory, hlast, hyoung, ?_⟩
    -- The other keys recorded since are the ones that stand behind, of which there is room for.
    have hsub : after.map Prod.fst ⊆ post.map Prod.fst := fun k' hk' => (hpost hyoung k').2 hk'
    have hcount := Store.length_eraseDups_le hsub
    have hlen := h.length_le
    rw [hsplit, List.length_append, List.length_cons] at hlen
    rw [List.length_map] at hcount
    omega
  · intro hremembered
    obtain ⟨before, t, after, hhistory, hlast, hyoung, hfew⟩ := hremembered
    obtain ⟨e, hmem, rfl⟩ := h.kept hhistory hlast hyoung hfew
    have hfind := (Lineup.find?_eq_some_iff h.nodup).2 hmem
    have hnot : ¬ e.Expired l.ttl now := by
      simpa [Entry.Expired, Entry.age] using hyoung
    simp [Lineup.live?, hfind, hnot]

/-- Looking at a key forgets nothing that is young. -/
theorem look (h : l.Recalls now history) (k : κ) : (l.look now k).Recalls now history := by
  rw [Lineup.look]
  by_cases hlive : (l.live? now k).isSome
  · rw [if_pos hlive]
    exact h
  rw [if_neg hlive]
  -- What is dropped has expired, and so have all entries before it.
  have hold : ∀ e, (k, e) ∈ l.items → l.ttl ≤ now - e.written := by
    intro e hmem
    have hfind := (Lineup.find?_eq_some_iff h.nodup).2 hmem
    by_contra hyoung
    have hnot : ¬ e.Expired l.ttl now := hyoung
    exact hlive (by simp [Lineup.live?, hfind, hnot])
  constructor
  case nodup => exact h.nodup.sublist (List.filter_sublist.map _)
  case length_le => exact Nat.le_trans (List.length_filter_le _ _) h.length_le
  case ordered => exact h.ordered
  case past => exact h.past
  case dates => exact h.dates.sublist List.filter_sublist
  case listed =>
    intro pre k' e post hsplit
    obtain ⟨pre', post', hsplit', rfl, -⟩ := filter_eq_append_cons hsplit
    obtain ⟨before, after, hhistory, hlast, hpost⟩ := h.listed hsplit'
    refine ⟨before, after, hhistory, hlast, fun hyoung k'' => ?_⟩
    rw [← hpost hyoung k'']
    -- Behind a young entry all entries are young, so that none of them is dropped.
    have hrest : k ∉ post'.map Prod.fst := by
      intro hk
      obtain ⟨⟨k₁, e₁⟩, hmem, rfl⟩ := List.mem_map.1 hk
      have hdates := (List.pairwise_append.1 (hsplit' ▸ h.dates)).2.1
      have hle : e.written ≤ e₁.written := (List.pairwise_cons.1 hdates).1 _ hmem
      have hexpired := hold e₁ (by rw [hsplit']; simp [hmem])
      have hyoung' : now - e.written < l.ttl := hyoung
      omega
    have hall : post'.filter (fun p => p.1 != k) = post' := by
      rw [List.filter_eq_self]
      intro p hp
      exact bne_iff_ne.2 fun heq => hrest (List.mem_map.2 ⟨p, hp, heq⟩)
    rw [hall]
  case kept =>
    intro before k' t after hsplit hlast hyoung hfew
    obtain ⟨e, hmem, rfl⟩ := h.kept hsplit hlast hyoung hfew
    refine ⟨e, List.mem_filter.2 ⟨hmem, bne_iff_ne.2 fun heq => ?_⟩, rfl⟩
    have heq : k' = k := heq
    subst heq
    have hexpired := hold e hmem
    have hyoung' : now - e.written < l.ttl := hyoung
    omega

/-- Making room for a key drops at most the first entry, and then there was no room. -/
private theorem makeRoom_cases (l : Lineup κ Unit) (k : κ) :
    l.makeRoom k = l ∨
      (k ∉ l.items.map Prod.fst ∧ l.capacity ≤ l.items.length ∧
        l.makeRoom k = { l with items := l.items.tail }) := by
  rw [Lineup.makeRoom]
  by_cases hfits : (l.find? k).isSome ∨ l.items.length < l.capacity
  · exact .inl (if_pos hfits)
  · have hfull := not_or.1 hfits
    refine .inr ⟨fun hk => ?_, Nat.le_of_not_lt hfull.2, if_neg hfits⟩
    obtain ⟨p, hp, rfl⟩ := List.mem_map.1 hk
    have hnone : l.items.lookup p.1 = none := Option.not_isSome_iff_eq_none.1 hfull.1
    simpa using List.lookup_eq_none_iff.1 hnone p hp

/-- A record is dropped for a new key only if it is not young, or if with the new one there are as
many others as there is room for. -/
private theorem kept_makeRoom (h : l.Recalls now history) {k k' : κ} {t : Nat}
    {before after : List (κ × Nat)} (hsplit : history = before ++ (k, t) :: after)
    (hlast : k ∉ after.map Prod.fst) (hyoung : now - t < l.ttl)
    (hfew : ((after ++ [(k', now)]).map Prod.fst).eraseDups.length < l.capacity) :
    ∃ e, (k, e) ∈ (l.makeRoom k').items ∧ e.written = t := by
  have hsub : after.map Prod.fst ⊆ (after ++ [(k', now)]).map Prod.fst :=
    List.map_subset _ (List.subset_append_left _ _)
  have hfew' : (after.map Prod.fst).eraseDups.length < l.capacity := by
    refine Nat.lt_of_le_of_lt (length_le_eraseDups (Store.nodup_eraseDups _) ?_) hfew
    exact fun k'' hk'' => hsub (List.mem_eraseDups.1 hk'')
  obtain ⟨e, hmem, rfl⟩ := h.kept hsplit hlast hyoung hfew'
  refine ⟨e, ?_, rfl⟩
  rcases makeRoom_cases l k' with hsame | ⟨hnew, hfull, htail⟩
  · rw [hsame]
    exact hmem
  rw [htail]
  cases hitems : l.items with
  | nil => rw [hitems] at hmem; exact absurd hmem List.not_mem_nil
  | cons p items =>
    rw [hitems] at hmem hfull hnew
    refine (List.mem_cons.1 hmem).resolve_left fun hhead => ?_
    -- The first entry has all others behind it, and they have been recorded since.
    have hfirst : l.items = [] ++ (k, e) :: items := hhead ▸ hitems
    obtain ⟨before', after', hsplit', hlast', hpost⟩ := h.listed hfirst
    obtain rfl := last_unique (hsplit'.symm.trans hsplit) hlast' hlast
    have hnodup := h.nodup
    rw [hitems, List.map_cons, List.nodup_cons] at hnodup
    have hothers : (k' :: items.map Prod.fst) ⊆ (after' ++ [(k', now)]).map Prod.fst := by
      intro k'' hk''
      rw [List.map_append, List.mem_append]
      rcases List.mem_cons.1 hk'' with rfl | hk''
      · exact .inr (by simp)
      · exact .inl ((hpost hyoung k'').1 hk'')
    have hcount := length_le_eraseDups
      (List.nodup_cons.2 ⟨fun hk => hnew (List.mem_cons_of_mem _ hk), hnodup.2⟩) hothers
    rw [List.length_cons, List.length_map] at hcount
    rw [List.length_cons] at hfull
    omega

omit [LawfulBEq κ] in
/-- What is left when room has been made is what stood at the end. -/
theorem makeRoom_suffix (l : Lineup κ Unit) (k : κ) :
    (l.makeRoom k).items <:+ l.items ∧ (l.makeRoom k).ttl = l.ttl ∧
      (l.makeRoom k).capacity = l.capacity := by
  rw [Lineup.makeRoom]
  split
  · exact ⟨List.suffix_refl _, rfl, rfl⟩
  · exact ⟨List.tail_suffix _, rfl, rfl⟩

/-- When room has been made there is room for the key. -/
private theorem length_makeRoom (h : l.Recalls now history) (hcap : 0 < l.capacity) (k : κ) :
    ((l.makeRoom k).items.filter fun p => p.1 != k).length < l.capacity := by
  have hlen := h.length_le
  by_cases hthere : (l.find? k).isSome
  · -- The place of an earlier entry becomes free.
    obtain ⟨e, he⟩ := Option.isSome_iff_exists.1 hthere
    have hmem := (Lineup.find?_eq_some_iff h.nodup).1 he
    have hlt : (l.items.filter fun p => p.1 != k).length < l.items.length :=
      List.length_filter_lt_length_iff_exists.2 ⟨(k, e), hmem, by simp⟩
    rw [Lineup.makeRoom, if_pos (.inl hthere)]
    omega
  · have hle := List.length_filter_le (fun p : κ × Entry Unit => p.1 != k) (l.makeRoom k).items
    by_cases hroom : l.items.length < l.capacity
    · rw [Lineup.makeRoom, if_pos (.inr hroom)] at hle ⊢
      omega
    · -- The first entry has gone.
      have htail : (l.makeRoom k).items = l.items.tail := by
        rw [Lineup.makeRoom, if_neg (not_or.2 ⟨hthere, hroom⟩)]
      rw [htail, List.length_tail] at hle
      rw [htail]
      omega

omit [LawfulBEq κ] in
/-- A write puts its key behind all others. -/
private theorem items_put (l : Lineup κ Unit) (now : Nat) (k : κ) :
    (l.put now k ()).items =
      (l.makeRoom k).items.filter (fun p => p.1 != k) ++ [(k, ⟨(), now, l.nextVersion⟩)] :=
  rfl

/-- Behind a young entry stand those that have been recorded since, with a new record too. -/
private theorem listed_put (h : l.Recalls now history) {k k' : κ} {pre post : List (κ × Entry Unit)}
    {e : Entry Unit} (hsplit : (l.put now k ()).items = pre ++ (k', e) :: post) :
    ∃ before after, history ++ [(k, now)] = before ++ (k', e.written) :: after ∧
      k' ∉ after.map Prod.fst ∧ (now - e.written < l.ttl →
        ∀ k'', k'' ∈ post.map Prod.fst ↔ k'' ∈ after.map Prod.fst) := by
  rw [items_put] at hsplit
  rcases concat_eq_append_cons hsplit with ⟨rfl, heq, -⟩ | ⟨post', rfl, hsplit'⟩
  · -- The last entry is the last record.
    obtain ⟨rfl, rfl⟩ := Prod.mk.inj heq
    exact ⟨history, [], rfl, by simp, fun _ _ => Iff.rfl⟩
  · obtain ⟨⟨gone, hgone⟩, -, -⟩ := makeRoom_suffix l k
    obtain ⟨pre₁, post₁, hroomSplit, rfl, hne⟩ := filter_eq_append_cons hsplit'
    have hl : l.items = (gone ++ pre₁) ++ (k', e) :: post₁ := by
      rw [← hgone, hroomSplit, List.append_assoc]
    obtain ⟨before, after, rfl, hlast, hpost⟩ := h.listed hl
    have hne' : k' ≠ k := bne_iff_ne.1 hne
    refine ⟨before, after ++ [(k, now)], by simp, by simpa [hne'] using hlast, ?_⟩
    intro hyoung k''
    have hold := hpost hyoung k''
    by_cases hk : k'' = k
    · simp [hk]
    · simp only [List.map_append, List.mem_append, List.map_cons, List.map_nil,
        List.mem_singleton, hk, or_false, ← hold, List.mem_map, List.mem_filter, bne_iff_ne]
      constructor
      · rintro ⟨p, ⟨hp, -⟩, rfl⟩
        exact ⟨p, hp, rfl⟩
      · rintro ⟨p, hp, rfl⟩
        exact ⟨p, ⟨hp, hk⟩, rfl⟩

/-- What is to be remembered is kept when a key is written. -/
private theorem kept_put (h : l.Recalls now history) {k k' : κ} {t : Nat}
    {before after : List (κ × Nat)} (hsplit : history ++ [(k, now)] = before ++ (k', t) :: after)
    (hlast : k' ∉ after.map Prod.fst) (hyoung : now - t < l.ttl)
    (hfew : (after.map Prod.fst).eraseDups.length < l.capacity) :
    ∃ e, (k', e) ∈ (l.put now k ()).items ∧ e.written = t := by
  rw [items_put]
  rcases concat_eq_append_cons hsplit with ⟨rfl, heq, -⟩ | ⟨after', rfl, hsplit'⟩
  · obtain ⟨rfl, rfl⟩ := Prod.mk.inj heq
    exact ⟨_, List.mem_append_right _ (List.mem_singleton_self _), rfl⟩
  · rw [List.map_append, List.mem_append, not_or] at hlast
    obtain ⟨e, hmem, rfl⟩ := kept_makeRoom h hsplit' hlast.1 hyoung hfew
    have hne : k' ≠ k := by simpa using hlast.2
    exact ⟨e, List.mem_append_left _ (List.mem_filter.2 ⟨hmem, bne_iff_ne.2 hne⟩), rfl⟩

/-- Writing a key is one more record. -/
theorem put (h : l.Recalls now history) (hcap : 0 < l.capacity) (k : κ) :
    (l.put now k ()).Recalls now (history ++ [(k, now)]) := by
  obtain ⟨⟨gone, hgone⟩, httl, hcapacity⟩ := makeRoom_suffix l k
  -- The old entries that are left are some of those there were.
  have hsub : ((l.makeRoom k).items.filter fun p => p.1 != k).Sublist l.items :=
    List.filter_sublist.trans (hgone ▸ List.sublist_append_right gone _)
  have httl' : (l.put now k ()).ttl = l.ttl := httl
  have hcapacity' : (l.put now k ()).capacity = l.capacity := hcapacity
  constructor
  case nodup =>
    rw [items_put, List.map_append, List.nodup_append]
    refine ⟨h.nodup.sublist (hsub.map _), by simp, ?_⟩
    intro k₁ hk₁ k₂ hk₂ heq
    obtain ⟨p, hp, rfl⟩ := List.mem_map.1 hk₁
    have hne := bne_iff_ne.1 (List.mem_filter.1 hp).2
    -- The entry of `k` was taken out before the new one was put.
    exact hne (heq.trans (by simpa using hk₂))
  case length_le =>
    rw [items_put, List.length_append, hcapacity']
    exact length_makeRoom h hcap k
  case ordered =>
    rw [List.pairwise_append]
    refine ⟨h.ordered, by simp, fun r hr r' hr' => ?_⟩
    rw [List.mem_singleton.1 hr']
    exact h.past r hr
  case past =>
    intro r hr
    rcases List.mem_append.1 hr with hr | hr
    · exact h.past r hr
    · rw [List.mem_singleton.1 hr]
  case dates =>
    rw [items_put, List.pairwise_append]
    refine ⟨h.dates.sublist hsub, by simp, fun p hp p' hp' => ?_⟩
    rw [List.mem_singleton.1 hp']
    exact h.written_le (hsub.subset hp)
  case listed =>
    intro pre k' e post hsplit
    rw [httl']
    exact listed_put h hsplit
  case kept =>
    intro before k' t after hsplit hlast hyoung hfew
    rw [httl'] at hyoung
    rw [hcapacity'] at hfew
    exact kept_put h hsplit hlast hyoung hfew

end Recalls

end Lineup

/-! ## Stores -/

variable [Hashable κ]

/-- A store remembers the young records of a history. -/
def Store.Recalls (s : Store κ Unit) (capacity span now : Nat) (history : List (κ × Nat)) : Prop :=
  ∃ l, s.Holds l ∧ l.capacity = capacity ∧ l.ttl = span ∧ l.Recalls now history

namespace Store.Recalls

variable {s : Store κ Unit} {capacity span now now' : Nat} {history : List (κ × Nat)}

omit [LawfulBEq κ] in
/-- A new store remembers nothing. -/
theorem ofLimits (maxEntries span now : Nat) :
    (Store.ofLimits maxEntries span : Store κ Unit).Recalls (max 1 maxEntries) span now [] :=
  ⟨_, .ofLimits maxEntries span, rfl, rfl, .ofLimits maxEntries span now⟩

omit [LawfulBEq κ] in
/-- As time passes, less is young. -/
theorem later (h : s.Recalls capacity span now history) (hle : now ≤ now') :
    s.Recalls capacity span now' history := by
  obtain ⟨l, hholds, hcapacity, hspan, hrecalls⟩ := h
  exact ⟨l, hholds, hcapacity, hspan, hrecalls.later hle⟩

/-- What is seen is what is remembered. -/
theorem isSome_peek_iff (h : s.Recalls capacity span now history) (k : κ) :
    (s.peek now k).1.isSome ↔ Remembered capacity span now history k := by
  obtain ⟨l, hholds, rfl, rfl, hrecalls⟩ := h
  rw [← hrecalls.isSome_live?_iff, ← (hholds.peekEntry now k).1, Store.peek, Option.isSome_map]

/-- Looking at a key forgets nothing. -/
theorem peek (h : s.Recalls capacity span now history) (k : κ) :
    (s.peek now k).2.Recalls capacity span now history := by
  obtain ⟨l, hholds, hcapacity, hspan, hrecalls⟩ := h
  have hsame : (l.look now k).capacity = l.capacity ∧ (l.look now k).ttl = l.ttl := by
    rw [Lineup.look]
    split <;> exact ⟨rfl, rfl⟩
  exact ⟨_, (hholds.peekEntry now k).2, hsame.1.trans hcapacity, hsame.2.trans hspan,
    hrecalls.look k⟩

/-- Writing keys one after the other is one more record of each. -/
theorem setAll (h : s.Recalls capacity span now history) (hcapacity : 0 < capacity) (ks : List κ) :
    (ks.foldl (fun s k => s.set now k ()) s).Recalls capacity span now
      (history ++ ks.map fun k => (k, now)) := by
  induction ks generalizing s history with
  | nil => simpa using h
  | cons k ks ih =>
    obtain ⟨l, hholds, rfl, rfl, hrecalls⟩ := h
    obtain ⟨-, httl, hcap⟩ := Lineup.Recalls.makeRoom_suffix l k
    have hrest := ih ⟨_, hholds.set now k (), hcap, httl, hrecalls.put hcapacity k⟩
    simpa using hrest

end Store.Recalls

end CacheLayer
