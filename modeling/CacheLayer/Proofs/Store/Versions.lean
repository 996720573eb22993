import CacheLayer.Proofs.Store.Recency
import CacheLayer.Proofs.Store.Run
/-!
# Versions never come back

Every write takes the next version, so an entry whose version was there before is itself an entry
that was there before. `Store.Drops` and `Store.Moves` tell what an operation may do to the entries:
drop any of them, and write at most one.

## Key results

- `Store.Moves.entry_of_lt`: an entry with an old version is an old entry
- `Store.moves_perform`: all operations move a store like this
- `Store.Dated.moves`: the versions in a store have been taken
- `Store.taken_run_le`: a run takes at most as many ticks and versions as it has operations
-/

namespace CacheLayer

namespace Store

variable {κ ν : Type} [BEq κ] [Hashable κ]

/-! ## Dropping entries -/

/-- A store that only drops entries. -/
structure Drops (s s' : Store κ ν) : Prop where
  entry : ∀ {k : κ} {e : Entry ν}, s'.entries[k]? = some e → s.entries[k]? = some e
  nextVersion : s'.nextVersion = s.nextVersion
  nextTick : s'.recency.nextTick = s.recency.nextTick
  ttl : s'.ttl = s.ttl

namespace Drops

variable {s s' s'' : Store κ ν}

protected theorem refl (s : Store κ ν) : s.Drops s := ⟨id, rfl, rfl, rfl⟩

protected theorem trans (h : s.Drops s') (h' : s'.Drops s'') : s.Drops s'' where
  entry he := h.entry (h'.entry he)
  nextVersion := h'.nextVersion.trans h.nextVersion
  nextTick := h'.nextTick.trans h.nextTick
  ttl := h'.ttl.trans h.ttl

/-- The counters do not matter. -/
theorem counters (h : s.Drops s') (c : Stats) : s.Drops { s' with counters := c } :=
  ⟨h.entry, h.nextVersion, h.nextTick, h.ttl⟩

variable [LawfulBEq κ]

theorem erase (s : Store κ ν) (k : κ) : s.Drops (s.erase k) where
  entry {k' e} he := by
    rw [Store.erase, Std.HashMap.getElem?_erase] at he
    split at he
    · exact nomatch he
    · exact he
  nextVersion := rfl
  nextTick := Recency.nextTick_remove s.recency k
  ttl := rfl

theorem peekEntry (s : Store κ ν) (now : Nat) (k : κ) : s.Drops (s.peekEntry now k).2 := by
  rw [Store.peekEntry]
  split
  · exact .refl s
  · split
    · exact (erase s k).counters _
    · exact .refl s

theorem makeRoom (s : Store κ ν) (k : κ) : s.Drops (s.makeRoom k) := by
  have htick := Recency.nextTick_evictOldest s.recency
  rw [Store.makeRoom]
  split
  · exact .refl s
  · split
    · next victim recency hevict =>
      -- The order of last use loses the victim by itself.
      rw [hevict] at htick
      exact ⟨(erase s victim).entry, rfl, htick, rfl⟩
    · exact .refl s

theorem delete (s : Store κ ν) (now : Nat) (k : κ) : s.Drops (s.delete now k).2 := by
  have hlook := peekEntry s now k
  rw [Store.delete]
  generalize s.peekEntry now k = looked at hlook
  obtain ⟨_ | e, s'⟩ := looked
  · exact hlook
  · exact hlook.trans (erase s' k)

theorem sweep (s : Store κ ν) (now : Nat) : s.Drops (s.sweep now).2 := by
  have hall : ∀ (ks : List κ) (s : Store κ ν), s.Drops (ks.foldl Store.erase s) := by
    -- Induction on the keys that are left, for all stores.
    intro ks
    induction ks with
    | nil => exact Drops.refl
    | cons k ks ih => exact fun s => (erase s k).trans (ih (s.erase k))
  exact (hall (s.expiredKeys now) s).counters _

end Drops

/-! ## Writing entries -/

/-- A store that drops entries, and may write one of the key `k?` with the next version. It touches
at most one key. -/
structure Moves (k? : Option κ) (s s' : Store κ ν) : Prop where
  entry : ∀ {k : κ} {e : Entry ν}, s'.entries[k]? = some e → s.entries[k]? = some e ∨
    (k? = some k ∧ e.version = s.nextVersion ∧ s'.nextVersion = s.nextVersion + 1)
  nextVersion : s'.nextVersion = s.nextVersion ∨ s'.nextVersion = s.nextVersion + 1
  nextTick : s'.recency.nextTick ≤ s.recency.nextTick + 1
  ttl : s'.ttl = s.ttl

variable {k? : Option κ} {s s' s'' : Store κ ν}

theorem Drops.moves (h : s.Drops s') (k? : Option κ) : Moves k? s s' :=
  ⟨fun he => .inl (h.entry he), .inl h.nextVersion, h.nextTick ▸ Nat.le_succ _, h.ttl⟩

/-- Before a write, entries may be dropped. -/
theorem Drops.trans_moves (h : s.Drops s') (h' : Moves k? s' s'') : Moves k? s s'' where
  entry he := by
    rcases h'.entry he with he | hnew
    · exact .inl (h.entry he)
    · rw [← h.nextVersion]
      exact .inr hnew
  nextVersion := h.nextVersion ▸ h'.nextVersion
  nextTick := h.nextTick ▸ h'.nextTick
  ttl := h'.ttl.trans h.ttl

theorem Moves.nextVersion_le (h : Moves k? s s') : s.nextVersion ≤ s'.nextVersion := by
  have := h.nextVersion
  omega

/-- An entry with an old version is an old entry. -/
theorem Moves.entry_of_lt (h : Moves k? s s') {k : κ} {e : Entry ν}
    (he : s'.entries[k]? = some e) (hlt : e.version < s.nextVersion) : s.entries[k]? = some e := by
  rcases h.entry he with he | ⟨-, hversion, -⟩
  · exact he
  · omega

/-- An entry of a key that is not written is an old entry. -/
theorem Moves.entry_of_ne (h : Moves k? s s') {k : κ} {e : Entry ν}
    (he : s'.entries[k]? = some e) (hne : k? ≠ some k) : s.entries[k]? = some e := by
  rcases h.entry he with he | ⟨hk, -⟩
  · exact he
  · exact absurd hk hne

/-! ## Versions that have been taken -/

/-- The versions in a store have been taken. -/
def Dated (s : Store κ ν) : Prop :=
  ∀ (k : κ) (e : Entry ν), s.entries[k]? = some e → e.version < s.nextVersion

theorem dated_ofLimits (maxEntries ttl : Nat) : (ofLimits maxEntries ttl : Store κ ν).Dated := by
  intro k e he
  rw [ofLimits, Std.HashMap.getElem?_empty] at he
  exact nomatch he

theorem Dated.moves (h : s.Dated) (hm : Moves k? s s') : s'.Dated := by
  intro k e he
  -- An entry is old, or it has the version that has just been taken.
  rcases hm.entry he with he | ⟨-, hversion, hnext⟩
  · have hlt := h k e he
    have hle := hm.nextVersion_le
    omega
  · omega

/-! ## Operations -/

/-- The key that an operation may write or delete. -/
def Op.target? : Op κ ν → Option κ
  | .get _ => none
  | .peek _ => none
  | .peekVersioned _ => none
  | .set k _ => some k
  | .setIfAbsent k _ => some k
  | .compareAndSet k _ _ => some k
  | .setIfVersion k _ _ => some k
  | .delete k => some k
  | .sweep => none

omit [BEq κ] [Hashable κ] in
theorem Op.target?_of_conditional [BEq ν] {op : Op κ ν} {k : κ} {v : ν}
    {condition : Option (Entry ν) → Bool} (h : op.conditional? = some (k, v, condition)) :
    op.target? = some k := by
  cases op with
  | setIfAbsent k v | compareAndSet k expected v | setIfVersion k expected v =>
    obtain ⟨rfl, rfl, rfl⟩ := h
    rfl
  | _ => cases h

variable [LawfulBEq κ]

/-- What a write leaves behind: its own entry, and of the other keys no new ones. -/
theorem entries_set (s : Store κ ν) (now : Nat) (k k' : κ) (v : ν) :
    (s.set now k v).entries[k']? =
      if k == k' then some ⟨v, now, s.nextVersion⟩ else (s.makeRoom k).entries[k']? := by
  rw [set, Std.HashMap.getElem?_insert, (Drops.makeRoom s k).nextVersion]

theorem nextVersion_set (s : Store κ ν) (now : Nat) (k : κ) (v : ν) :
    (s.set now k v).nextVersion = s.nextVersion + 1 :=
  congrArg (· + 1) (Drops.makeRoom s k).nextVersion

theorem moves_set (s : Store κ ν) (now : Nat) (k : κ) (v : ν) :
    Moves (some k) s (s.set now k v) where
  entry {k' e} he := by
    rw [entries_set] at he
    split at he
    · next hk =>
      obtain rfl := Option.some.inj he
      exact .inr ⟨congrArg some (eq_of_beq hk), rfl, nextVersion_set s now k v⟩
    · exact .inl ((Drops.makeRoom s k).entry he)
  nextVersion := .inr (nextVersion_set s now k v)
  nextTick := Nat.le_of_eq (congrArg (· + 1) (Drops.makeRoom s k).nextTick)
  ttl := (Drops.makeRoom s k).ttl

theorem moves_get (s : Store κ ν) (now : Nat) (k : κ) : Moves none s (s.get now k).2 := by
  have hlook := Drops.peekEntry s now k
  rw [get]
  generalize s.peekEntry now k = looked at hlook
  obtain ⟨_ | e, s'⟩ := looked
  · exact (hlook.counters _).moves _
  · -- A hit touches the key, which is the only tick of an operation that does not write.
    refine hlook.trans_moves ⟨?_, ?_, ?_, ?_⟩
    · intro k' e he
      exact .inl he
    · exact .inl rfl
    · exact Nat.le_refl _
    · rfl

theorem moves_setIf (s : Store κ ν) (now : Nat) (k : κ) (v : ν)
    (condition : Option (Entry ν) → Bool) :
    Moves (some k) s (s.setIf now k v condition).2 := by
  have hlook := Drops.peekEntry s now k
  simp only [setIf]
  split
  · exact hlook.trans_moves (moves_set _ now k v)
  · exact hlook.moves _

/-- Every operation drops entries, and writes at most one. -/
theorem moves_perform [BEq ν] (s : Store κ ν) (now : Nat) (op : Op κ ν) :
    Moves op.target? s (s.perform now op).2 := by
  cases op using Op.cases_conditional with
  | get k => exact moves_get s now k
  | peek k => exact (Drops.peekEntry s now k).moves _
  | peekVersioned k => exact (Drops.peekEntry s now k).moves _
  | set k v => exact moves_set s now k v
  | conditional op k v condition hop =>
    rw [perform_of_conditional s now hop, Op.target?_of_conditional hop]
    exact moves_setIf s now k v condition
  | delete k => exact (Drops.delete s now k).moves _
  | sweep => exact (Drops.sweep s now).moves _

/-- A run takes at most one tick and one version for each of its operations. So counters of 64 bits
are as good as unbounded ones in all runs of fewer than 2 ^ 64 operations. -/
theorem taken_run_le [BEq ν] (s : Store κ ν) (ops : List (Nat × Op κ ν)) :
    (s.run ops).recency.nextTick ≤ s.recency.nextTick + ops.length ∧
      (s.run ops).nextVersion ≤ s.nextVersion + ops.length := by
  induction ops generalizing s with
  | nil => exact ⟨Nat.le_refl _, Nat.le_refl _⟩
  | cons p ops ih =>
    -- One for the first operation, and the rest by induction.
    have hmoves := moves_perform s p.1 p.2
    have htick := hmoves.nextTick
    have hversion := hmoves.nextVersion
    obtain ⟨hticks, hversions⟩ := ih (s.perform p.1 p.2).2
    simp only [run, List.foldl_cons, List.length_cons] at hticks hversions ⊢
    omega

end Store

end CacheLayer
