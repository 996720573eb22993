import Mathlib.Data.List.Forall2
import CacheLayer.Proofs.Store.Refinement
import CacheLayer.Proofs.Store.Versions
/-!
# Stores of different sizes

Two stores with the same time to live, one of them larger, are given the same operations. The larger
one evicts later, so that the two free and fill slots at different times. Nevertheless the list of
the smaller one stays a sublist of the list of the larger one: what is in the smaller store is in
the larger one as well, in the same order of last use.

A conditional write depends on what it finds, and so on the size of the store. The operations here
are the others.

## Key results

- `Lineup.Included.put`: a write keeps one list within the other, whichever of them is full
- `Lineup.Included.perform`: every unconditional operation does
- `Store.hits_kept_of_le`: a larger store has every entry of a smaller one, and answers every read
  that the smaller one answers
-/

namespace CacheLayer

/-- Whether an operation does the same to an entry whatever it finds. -/
def Store.Op.unconditional {κ ν : Type} : Store.Op κ ν → Bool
  | .setIfAbsent .. | .compareAndSet .. | .setIfVersion .. => false
  | .get _ | .peek _ | .peekVersioned _ | .set .. | .delete _ | .sweep => true

/-- Whether an answer tells of a live entry. -/
def Store.Answer.found {ν : Type} : Store.Answer ν → Bool
  | .value v? => v?.isSome
  | .versioned p? => p?.isSome
  | .done b => b
  | .nothing | .count _ => false

/-- A sublist loses at most as many elements to a filter as the list. -/
private theorem length_filter_le_of_sublist {α : Type} (p : α → Bool) {as bs : List α}
    (h : as.Sublist bs) :
    (bs.filter p).length + as.length ≤ (as.filter p).length + bs.length := by
  have hlost : as.countP (fun a => decide ¬ p a = true) ≤
        bs.countP (fun a => decide ¬ p a = true) :=
    h.countP_le
  have has : as.length = as.countP p + as.countP fun a => decide ¬ p a = true :=
    List.length_eq_countP_add_countP p
  have hbs : bs.length = bs.countP p + bs.countP fun a => decide ¬ p a = true :=
    List.length_eq_countP_add_countP p
  rw [← List.countP_eq_length_filter, ← List.countP_eq_length_filter]
  omega

namespace Lineup

variable {κ ν : Type}

/-- One cache is part of another one, in the same order of last use, and it is not emptier: its free
slots are at most as many as those of the other. -/
structure Included (l l' : Lineup κ ν) : Prop where
  room : 1 ≤ l.capacity
  sublist : l.items.Sublist l'.items
  /-- So the larger cache is full only if the smaller one is. -/
  spare : l'.items.length + l.capacity ≤ l.items.length + l'.capacity
  ttl : l.ttl = l'.ttl
  nextVersion : l.nextVersion = l'.nextVersion

namespace Included

/-- Empty caches are part of each other. -/
theorem ofLimits {m n : Nat} (hmn : m ≤ n) (ttl : Nat) :
    (Lineup.ofLimits m ttl : Lineup κ ν).Included (.ofLimits n ttl) where
  room := Nat.le_max_left 1 m
  sublist := List.Sublist.refl _
  spare := by
    simp only [Lineup.ofLimits, List.length_nil]
    omega
  ttl := rfl
  nextVersion := rfl

variable {l l' : Lineup κ ν}

/-- Dropping the same entries from both leaves one part of the other. -/
theorem filter (h : l.Included l') (p : κ × Entry ν → Bool) :
    ({ l with items := l.items.filter p } : Lineup κ ν).Included
      { l' with items := l'.items.filter p } where
  room := h.room
  sublist := h.sublist.filter p
  spare := by
    have hlost := length_filter_le_of_sublist p h.sublist
    have hspare := h.spare
    simp only
    omega
  ttl := h.ttl
  nextVersion := h.nextVersion

theorem sweep (h : l.Included l') (now : Nat) : (l.sweep now).Included (l'.sweep now) := by
  have hfilter := h.filter fun p => !decide (p.2.Expired l.ttl now)
  rw [Lineup.sweep, Lineup.sweep, ← h.ttl]
  exact ⟨hfilter.room, hfilter.sublist, hfilter.spare, rfl, h.nextVersion⟩

variable [BEq κ]

theorem without (h : l.Included l') (k : κ) : (l.without k).Included (l'.without k) :=
  h.filter fun p => p.1 != k

/-- The same entry goes to the end of both. -/
theorem push (h : l.Included l') (k : κ) (e : Entry ν) :
    (l.push k e).Included (l'.push k e) where
  room := h.room
  sublist := (h.without k).sublist.append (List.Sublist.refl _)
  spare := by
    have hspare := (h.without k).spare
    simp only [Lineup.push, List.length_append, List.length_singleton]
    simp only [Lineup.without] at hspare ⊢
    omega
  ttl := h.ttl
  nextVersion := h.nextVersion

variable [LawfulBEq κ]

/-- What is found in the smaller cache is found in the larger one. -/
theorem find? (h : l.Included l') (hnodup : (l'.items.map Prod.fst).Nodup) {k : κ} {e : Entry ν}
    (he : l.find? k = some e) : l'.find? k = some e := by
  have hnodup' := hnodup.sublist (h.sublist.map Prod.fst)
  rw [find?_eq_some_iff hnodup'] at he
  rw [find?_eq_some_iff hnodup]
  exact h.sublist.subset he

/-- A live entry of the smaller cache is a live entry of the larger one. -/
theorem live? (h : l.Included l') (hnodup : (l'.items.map Prod.fst).Nodup) {now : Nat} {k : κ}
    {e : Entry ν} (he : l.live? now k = some e) : l'.live? now k = some e := by
  obtain ⟨hfind, hlive⟩ := Option.filter_eq_some_iff.1 he
  rw [h.ttl] at hlive
  exact Option.filter_eq_some_iff.2 ⟨h.find? hnodup hfind, hlive⟩

theorem live?_of_isSome (h : l.Included l') (hnodup : (l'.items.map Prod.fst).Nodup) {now : Nat}
    {k : κ} (hsome : (l.live? now k).isSome) : l'.live? now k = l.live? now k := by
  obtain ⟨e, he⟩ := Option.isSome_iff_exists.1 hsome
  rw [he, h.live? hnodup he]

/-- A key that is live in the larger cache only is not in the smaller one at all: if it were, its
entry would be the same one. -/
theorem find?_eq_none (h : l.Included l') (hnodup : (l'.items.map Prod.fst).Nodup) {now : Nat}
    {k : κ} {e : Entry ν} (hnone : l.live? now k = none) (he : l'.live? now k = some e) :
    l.find? k = none := by
  cases hfind : l.find? k with
  | none => rfl
  | some e' =>
    obtain ⟨hfind', hlive⟩ := Option.filter_eq_some_iff.1 he
    rw [h.find? hnodup hfind, Option.some.injEq] at hfind'
    subst hfind'
    rw [← h.ttl] at hlive
    rw [Lineup.live?, hfind, Option.filter_some, if_pos hlive] at hnone
    cases hnone

omit l l' in
/-- A key that is there is dropped with at least one entry. -/
private theorem length_without_lt {l : Lineup κ ν} {k : κ} {e : Entry ν}
    (he : l.find? k = some e) : (l.without k).items.length < l.items.length := by
  refine Nat.lt_of_not_le fun hall => ?_
  have hsame : (l.without k).items = l.items := List.filter_sublist.eq_of_length_le hall
  have hgone := find?_without l k k
  rw [beq_self_eq_true, if_pos rfl, Lineup.find?, hsame] at hgone
  rw [Lineup.find?, hgone] at he
  cases he

/-- An entry that only the larger cache has may be moved to its end. -/
theorem push_right (h : l.Included l') {k : κ} {e' : Entry ν} (hk : l.find? k = none)
    (hk' : l'.find? k = some e') (e : Entry ν) : l.Included (l'.push k e) where
  room := h.room
  sublist := by
    -- Without the key the smaller cache is what it was.
    have hwithout := (h.without k).sublist
    rw [without_of_find?_eq_none hk] at hwithout
    exact hwithout.trans (List.sublist_append_left _ _)
  spare := by
    have hshorter := length_without_lt hk'
    have hspare := h.spare
    simp only [Lineup.push, List.length_append, List.length_singleton]
    omega
  ttl := h.ttl
  nextVersion := h.nextVersion

/-- A look at a key drops an expired entry from both, and nothing that is live. -/
theorem look (h : l.Included l') (hnodup : (l'.items.map Prod.fst).Nodup) (now : Nat) (k : κ) :
    (l.look now k).Included (l'.look now k) := by
  rw [Lineup.look, Lineup.look]
  cases hlive : l.live? now k with
  | some e =>
    rw [h.live? hnodup hlive, Option.isSome_some, if_pos rfl, if_pos rfl]
    exact h
  | none =>
    rw [Option.isSome_none, if_neg Bool.false_ne_true]
    cases hlive' : l'.live? now k with
    | some e =>
      rw [Option.isSome_some, if_pos rfl,
        without_of_find?_eq_none (h.find?_eq_none hnodup hlive hlive')]
      exact h
    | none =>
      rw [Option.isSome_none, if_neg Bool.false_ne_true]
      exact h.without k

/-! ## Writes -/

/-- Only the smaller cache is full: it loses its first entry to a key that the larger one has
already, or has a free slot for. -/
private theorem evict_push (h : l.Included l') {k : κ} (hk : l.find? k = none)
    (hfull : l.capacity ≤ l.items.length)
    (hk' : (l'.find? k).isSome ∨ l'.items.length < l'.capacity) (e : Entry ν) :
    ({ l with items := l.items.tail }.push k e).Included (l'.push k e) where
  room := h.room
  sublist := (((List.tail_sublist _).trans h.sublist).filter _).append (List.Sublist.refl _)
  spare := by
    have hspare := h.spare
    -- The key is not in the rest of the smaller cache either.
    have hrest : ({ l with items := l.items.tail }.without k).items = l.items.tail := by
      have hwithout := congrArg Lineup.items (without_of_find?_eq_none hk)
      rw [Lineup.without, List.filter_eq_self] at hwithout ⊢
      intro p hp
      exact hwithout p (List.mem_of_mem_tail hp)
    have hlarger : (l'.without k).items.length + 1 + l.capacity ≤ l.items.length + l'.capacity := by
      rcases hk' with hfound | hroom
      · obtain ⟨e', he'⟩ := Option.isSome_iff_exists.1 hfound
        have hshorter := length_without_lt he'
        omega
      · have hle : (l'.without k).items.length ≤ l'.items.length := List.length_filter_le _ _
        omega
    rw [Lineup.push, Lineup.push, hrest]
    simp only [List.length_append, List.length_singleton, List.length_tail]
    omega
  ttl := h.ttl
  nextVersion := h.nextVersion

omit [BEq κ] [LawfulBEq κ] in
/-- Both caches are full, and both lose their first entries. -/
private theorem evict (h : l.Included l') (hfull : l.capacity ≤ l.items.length) :
    ({ l with items := l.items.tail } : Lineup κ ν).Included
      { l' with items := l'.items.tail } where
  room := h.room
  sublist := h.sublist.tail
  spare := by
    have hroom := h.room
    have hspare := h.spare
    have hle := h.sublist.length_le
    simp only [List.length_tail]
    omega
  ttl := h.ttl
  nextVersion := h.nextVersion

/-- An entry is put into both caches, each of which makes room for its key if it has to. -/
theorem makeRoom_push (h : l.Included l') (hnodup : (l'.items.map Prod.fst).Nodup) (k : κ)
    (e : Entry ν) :
    ((l.makeRoom k).push k e).Included ((l'.makeRoom k).push k e) := by
  have hspare := h.spare
  rw [Lineup.makeRoom, Lineup.makeRoom]
  by_cases hfits : (l.find? k).isSome ∨ l.items.length < l.capacity
  · -- Where the smaller cache need not evict, the larger one need not either.
    have hfits' : (l'.find? k).isSome ∨ l'.items.length < l'.capacity := by
      rcases hfits with hfound | hroom
      · obtain ⟨e₀, he₀⟩ := Option.isSome_iff_exists.1 hfound
        rw [h.find? hnodup he₀]
        exact .inl rfl
      · right
        omega
    rw [if_pos hfits, if_pos hfits']
    exact h.push k e
  · rw [if_neg hfits]
    simp only [not_or, Option.not_isSome_iff_eq_none, Nat.not_lt] at hfits
    obtain ⟨hk, hfull⟩ := hfits
    by_cases hfits' : (l'.find? k).isSome ∨ l'.items.length < l'.capacity
    · rw [if_pos hfits']
      exact h.evict_push hk hfull hfits' e
    · rw [if_neg hfits']
      exact (h.evict hfull).push k e

/-- A write keeps one cache part of the other. -/
theorem put (h : l.Included l') (hnodup : (l'.items.map Prod.fst).Nodup) (now : Nat) (k : κ)
    (v : ν) :
    (l.put now k v).Included (l'.put now k v) := by
  have hpush := h.makeRoom_push hnodup k ⟨v, now, l.nextVersion⟩
  rw [Lineup.put, Lineup.put, ← h.nextVersion]
  exact ⟨hpush.room, hpush.sublist, hpush.spare, hpush.ttl, rfl⟩

/-! ## Operations -/

/-- An unconditional operation keeps one cache part of the other, and what it finds in the smaller
cache it finds in the larger one. -/
theorem perform [BEq ν] (h : l.Included l') (hnodup : (l'.items.map Prod.fst).Nodup) (now : Nat)
    {op : Store.Op κ ν} (hop : op.unconditional) :
    (l.perform now op).2.Included (l'.perform now op).2 ∧
      ((l.perform now op).1.found → (l'.perform now op).1 = (l.perform now op).1) := by
  cases op with
  | get k =>
    rw [Lineup.perform, Lineup.perform]
    cases hlive : l.live? now k with
    | some e =>
      -- A hit of the smaller cache is one of the larger cache too, and moves the same entry.
      rw [h.live? hnodup hlive]
      exact ⟨h.push k e, fun _ => rfl⟩
    | none =>
      -- The smaller cache misses, so that there is nothing to find; the larger one may hit.
      refine ⟨?_, fun hfound => absurd hfound Bool.false_ne_true⟩
      have hlook := h.look hnodup now k
      cases hlive' : l'.live? now k with
      | none => exact hlook
      | some e' =>
        -- The hit moves an entry that only the larger cache has.
        have hk := h.find?_eq_none hnodup hlive hlive'
        rw [Lineup.look, hlive, Option.isSome_none, if_neg Bool.false_ne_true,
          without_of_find?_eq_none hk]
        exact h.push_right hk (Option.filter_eq_some_iff.1 hlive').1 e'
  | peek k =>
    refine ⟨h.look hnodup now k, fun hfound => ?_⟩
    simp only [Lineup.perform, Store.Answer.found, Option.isSome_map] at hfound ⊢
    rw [h.live?_of_isSome hnodup hfound]
  | peekVersioned k =>
    refine ⟨h.look hnodup now k, fun hfound => ?_⟩
    simp only [Lineup.perform, Store.Answer.found, Option.isSome_map] at hfound ⊢
    rw [h.live?_of_isSome hnodup hfound]
  | set k v => exact ⟨h.put hnodup now k v, fun _ => rfl⟩
  | setIfAbsent k v => cases hop
  | compareAndSet k expected v => cases hop
  | setIfVersion k expected v => cases hop
  | delete k =>
    refine ⟨h.without k, fun hfound => ?_⟩
    simp only [Lineup.perform, Store.Answer.found] at hfound ⊢
    rw [h.live?_of_isSome hnodup hfound]
  | sweep => exact ⟨h.sweep now, fun hfound => absurd hfound Bool.false_ne_true⟩

end Included

end Lineup

namespace Store

variable {κ ν : Type} [BEq κ] [Hashable κ]

/-- One store is part of another one: their lists are. -/
def Within (s s' : Store κ ν) : Prop := ∃ l l', s.Holds l ∧ s'.Holds l' ∧ l.Included l'

theorem Within.ofLimits {m n : Nat} (hmn : m ≤ n) (ttl : Nat) :
    (Store.ofLimits m ttl : Store κ ν).Within (.ofLimits n ttl) :=
  ⟨_, _, Holds.ofLimits m ttl, Holds.ofLimits n ttl, Lineup.Included.ofLimits hmn ttl⟩

variable [LawfulBEq κ] {s s' : Store κ ν}

/-- Every entry of a store is an entry of a store that it is part of. -/
theorem Within.getElem? (h : s.Within s') {k : κ} {e : Entry ν} (he : s.entries[k]? = some e) :
    s'.entries[k]? = some e := by
  obtain ⟨l, l', hl, hl', hincluded⟩ := h
  rw [hl.entries] at he
  rw [hl'.entries]
  exact hincluded.find? hl'.nodup he

variable [BEq ν]

/-- An unconditional operation keeps one store part of the other, and what it finds in the smaller
store it finds in the larger one. -/
theorem Within.perform (h : s.Within s') (now : Nat) {op : Op κ ν} (hop : op.unconditional) :
    (s.perform now op).2.Within (s'.perform now op).2 ∧
      ((s.perform now op).1.found → (s'.perform now op).1 = (s.perform now op).1) := by
  obtain ⟨l, l', hl, hl', hincluded⟩ := h
  obtain ⟨hanswer, hnext⟩ := hl.perform now op
  obtain ⟨hanswer', hnext'⟩ := hl'.perform now op
  obtain ⟨hkept, hfound⟩ := hincluded.perform hl'.nodup now hop
  rw [hanswer, hanswer']
  exact ⟨⟨_, _, hnext, hnext', hkept⟩, hfound⟩

/-- So do unconditional operations one after the other. -/
theorem Within.run {ops : List (Nat × Op κ ν)} (hops : ∀ p ∈ ops, p.2.unconditional)
    (h : s.Within s') :
    (s.run ops).Within (s'.run ops) ∧
      List.Forall₂ (fun a a' => a.1.found → a'.1 = a.1) (s.answers ops) (s'.answers ops) := by
  induction ops generalizing s s' with
  | nil => exact ⟨h, .nil⟩
  | cons p ops ih =>
    obtain ⟨now, op⟩ := p
    obtain ⟨hop, hrest⟩ := List.forall_mem_cons.1 hops
    obtain ⟨hnext, hfound⟩ := h.perform now hop
    obtain ⟨hrun, hanswers⟩ := ih hrest hnext
    exact ⟨hrun, .cons hfound hanswers⟩

/-- A larger store holds, after any operations that are given to both, every entry of a smaller one,
with its value, the instant of its write and its version. What an operation finds in the smaller
store it finds in the larger one, so that more room never turns a hit into a miss. -/
theorem hits_kept_of_le {m n : Nat} (hmn : m ≤ n) (ttl : Nat) {ops : List (Nat × Op κ ν)}
    (hops : ∀ p ∈ ops, p.2.unconditional) :
    (∀ (k : κ) (e : Entry ν), ((Store.ofLimits m ttl).run ops).entries[k]? = some e →
        ((Store.ofLimits n ttl).run ops).entries[k]? = some e) ∧
      List.Forall₂ (fun a a' => a.1.found → a'.1 = a.1)
        ((Store.ofLimits m ttl).answers ops) ((Store.ofLimits n ttl).answers ops) := by
  obtain ⟨hrun, hanswers⟩ := (Within.ofLimits hmn ttl).run hops
  exact ⟨fun k e he => hrun.getElem? he, hanswers⟩

/-- One slot and three: the smaller store loses key 1 to key 2, and is empty again when the larger
one still has key 1. What it finds of the keys 3 and 4, the larger one finds as well. -/
theorem hits_kept_of_le_three_slots :
    let ops : List (Nat × Op Nat Nat) := [(0, .set 1 10), (1, .set 2 20), (1, .get 1),
      (2, .delete 2), (3, .set 3 30), (4, .get 3), (4, .peek 1), (9, .set 4 40), (11, .sweep),
      (12, .get 4)]
    ((1 ≤ 3) ∧ ∀ p ∈ ops, p.2.unconditional) ∧
      (Store.ofLimits 1 10).answers ops = [(.nothing, 1), (.nothing, 1), (.value none, 1),
        (.done true, 0), (.nothing, 1), (.value (some 30), 1), (.value none, 1), (.nothing, 1),
        (.count 0, 1), (.value (some 40), 1)] ∧
      (∀ (k : Nat) (e : Entry Nat), ((Store.ofLimits 1 10).run ops).entries[k]? = some e →
        ((Store.ofLimits 3 10).run ops).entries[k]? = some e) ∧
      List.Forall₂ (fun a a' => a.1.found → a'.1 = a.1)
        ((Store.ofLimits 1 10).answers ops) ((Store.ofLimits 3 10).answers ops) := by
  refine ⟨⟨by decide, by decide⟩, ?_, hits_kept_of_le (by decide) 10 (by decide)⟩
  rw [(Holds.ofLimits 1 10).answers]
  decide

end Store

end CacheLayer
