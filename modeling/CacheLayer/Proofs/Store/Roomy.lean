import CacheLayer.Local
import CacheLayer.Proofs.Gathering
import CacheLayer.Proofs.Store.Run
import CacheLayer.Proofs.Store.Sweeping
/-!
# Stores with room enough

What is seen of a store that has room for all keys that are ever written: every key has the value
written last, until it expires or is deleted. What is dropped by the way was expired, and cannot be
seen at any later instant either.

## Key results

- `Store.RoomFor.makeRoom_eq`: nothing is evicted
- `Store.live?_peekEntry`, `Store.live?_sweep`: looks and sweeps change no live entry
- `Store.peek_set`, `Store.peek_delete`: what is seen after a write
- `Store.getElem?_getBulk`: what a bulk read finds
-/

namespace CacheLayer

namespace Store

variable {κ ν : Type} [BEq κ] [Hashable κ]

/-! ## What is seen -/

/-- The entry of a key unless it is expired. -/
def live? (s : Store κ ν) (t : Nat) (k : κ) : Option (Entry ν) :=
  s.entries[k]?.filter fun e => !decide (e.Expired s.ttl t)

/-- A look at a key finds its live entry. -/
theorem peekEntry_fst (s : Store κ ν) (t : Nat) (k : κ) : (s.peekEntry t k).1 = s.live? t k := by
  obtain ⟨hk, heq⟩ | ⟨e, hk, he, heq⟩ | ⟨e, hk, he, heq⟩ := s.peekEntry_cases t k
  · rw [heq, live?, hk]
    rfl
  · rw [heq, live?, hk, Option.filter_some, if_neg (by simpa using he)]
  · rw [heq, live?, hk, Option.filter_some, if_pos (by simpa using he)]

/-- The live value of a key, read off the entries. -/
theorem peek_eq (s : Store κ ν) (t : Nat) (k : κ) :
    (s.peek t k).1 =
      (s.entries[k]?.filter fun e => !decide (e.Expired s.ttl t)).map Entry.value :=
  congrArg (Option.map Entry.value) (s.peekEntry_fst t k)

/-- Stores with the same entries show the same. -/
theorem peek_congr {s s' : Store κ ν} (hentries : s'.entries = s.entries) (httl : s'.ttl = s.ttl)
    (t : Nat) (k : κ) : (s'.peek t k).1 = (s.peek t k).1 := by
  rw [peek_eq, peek_eq, hentries, httl]

variable [LawfulBEq κ] {s : Store κ ν} {now t : Nat}

/-- What is expired stays expired. -/
private theorem expired_later {e : Entry ν} {ttl : Nat} (h : e.Expired ttl now) (hle : now ≤ t) :
    e.Expired ttl t :=
  Nat.le_trans h (Nat.sub_le_sub_right hle _)

omit [LawfulBEq κ] in
/-- An entry that is not live is never live again. -/
theorem live?_eq_none_later {k : κ} (h : s.live? now k = none) (hle : now ≤ t) :
    s.live? t k = none := by
  rw [live?, Option.filter_eq_none_iff] at h ⊢
  intro e he hlive
  have hexp : e.Expired s.ttl now := by simpa using h e he
  simp [expired_later hexp hle] at hlive

/-- An entry that is erased is not seen any more. -/
theorem live?_erase (s : Store κ ν) (t : Nat) (k k' : κ) :
    (s.erase k).live? t k' = if k == k' then none else s.live? t k' := by
  simp only [live?, erase, Std.HashMap.getElem?_erase]
  split <;> rfl

/-- Looking at a key changes no live entry from then on. -/
theorem live?_peekEntry (s : Store κ ν) (hle : now ≤ t) (k k' : κ) :
    (s.peekEntry now k).2.live? t k' = s.live? t k' := by
  obtain ⟨-, heq⟩ | ⟨e, hk, he, heq⟩ | ⟨e, -, -, heq⟩ := s.peekEntry_cases now k
  · rw [heq]
  · -- What the look has dropped was expired, and would not be live later either.
    have hnone : s.live? t k = none := by
      refine live?_eq_none_later ?_ hle
      rw [← peekEntry_fst, heq]
    rw [heq]
    refine (live?_erase s t k k').trans ?_
    split
    · next hk' => rw [← eq_of_beq hk', hnone]
    · rfl
  · rw [heq]

/-- A sweep changes no live entry from then on. -/
theorem live?_sweep (s : Store κ ν) (hle : now ≤ t) (k : κ) :
    (s.sweep now).2.live? t k = s.live? t k := by
  have httl : (s.sweep now).2.ttl = s.ttl := (frame_foldl_erase (s.expiredKeys now) s).2.2.1
  rw [live?, live?, getElem?_sweep, httl]
  cases s.entries[k]? with
  | none => rfl
  | some e =>
    -- An entry is swept if it is expired by then, and one that is will not be live at `t`.
    by_cases he : e.Expired s.ttl now
    · simp [Option.filter_some, he, expired_later he hle]
    · simp [Option.filter_some, he]

/-- Looking at a key changes nothing that is seen from then on. -/
theorem peek_peekEntry (s : Store κ ν) (hle : now ≤ t) (k k' : κ) :
    ((s.peekEntry now k).2.peek t k').1 = (s.peek t k').1 := by
  rw [peek_eq, peek_eq]
  exact congrArg (Option.map Entry.value) (s.live?_peekEntry hle k k')

omit [LawfulBEq κ] in
/-- A read finds what is seen. -/
theorem get_fst (s : Store κ ν) (now : Nat) (k : κ) : (s.get now k).1 = (s.peek now k).1 := by
  rw [get, peek]
  generalize s.peekEntry now k = looked
  obtain ⟨_ | e, s'⟩ := looked <;> rfl

omit [LawfulBEq κ] in
/-- A read leaves the entries that a look leaves. -/
theorem get_snd (s : Store κ ν) (now : Nat) (k : κ) :
    (s.get now k).2.entries = (s.peekEntry now k).2.entries ∧
      (s.get now k).2.ttl = (s.peekEntry now k).2.ttl ∧
      (s.get now k).2.capacity = (s.peekEntry now k).2.capacity := by
  rw [get]
  generalize s.peekEntry now k = looked
  obtain ⟨_ | e, s'⟩ := looked <;> exact ⟨rfl, rfl, rfl⟩

/-- Reading a key changes nothing that is seen from then on. -/
theorem peek_get (s : Store κ ν) (hle : now ≤ t) (k k' : κ) :
    ((s.get now k).2.peek t k').1 = (s.peek t k').1 := by
  obtain ⟨hentries, httl, -⟩ := s.get_snd now k
  exact (peek_congr hentries httl t k').trans (s.peek_peekEntry hle k k')

/-- A deleted key is not seen any more. -/
theorem live?_delete (s : Store κ ν) (hle : now ≤ t) (k k' : κ) :
    (s.delete now k).2.live? t k' = if k == k' then none else s.live? t k' := by
  have hlook := s.live?_peekEntry hle k k'
  have hfound := s.peekEntry_fst now k
  rw [delete]
  generalize s.peekEntry now k = looked at hlook hfound
  obtain ⟨_ | e, s'⟩ := looked
  · -- An entry that was expired has been dropped by the look.
    rw [hlook]
    split
    · next heq => exact eq_of_beq heq ▸ live?_eq_none_later hfound.symm hle
    · rfl
  · rw [← hlook]
    exact live?_erase s' t k k'

theorem peek_delete (s : Store κ ν) (hle : now ≤ t) (k k' : κ) :
    ((s.delete now k).2.peek t k').1 = if k == k' then none else (s.peek t k').1 := by
  rw [peek_eq, peek_eq]
  refine (congrArg (Option.map Entry.value) (s.live?_delete hle k k')).trans ?_
  split <;> rfl

/-! ## Room -/

omit [Hashable κ] in
/-- Without its duplicates a list has none. -/
theorem nodup_eraseDups (l : List κ) : l.eraseDups.Nodup := by
  match l with
  | [] => exact List.nodup_nil
  | a :: l =>
    rw [List.eraseDups_cons]
    refine List.nodup_cons.2 ⟨?_, nodup_eraseDups _⟩
    simp [List.mem_eraseDups]
termination_by l.length
decreasing_by exact Nat.lt_succ_of_le (List.length_filter_le _ _)

omit [Hashable κ] in
/-- There are no more different members than there are members to choose from. -/
theorem length_eraseDups_le {l l' : List κ} (h : l ⊆ l') : l.eraseDups.length ≤ l'.length :=
  ((nodup_eraseDups l).subperm fun _ ha => h (List.mem_eraseDups.1 ha)).length_le

/-- All keys of a store are among some keys, for which there is room. -/
structure RoomFor (s : Store κ ν) (ttl : Nat) (keys : List κ) : Prop where
  ttl_eq : s.ttl = ttl
  mem : ∀ k, k ∈ s.entries → k ∈ keys
  le : keys.eraseDups.length ≤ s.capacity

namespace RoomFor

variable {ttl : Nat} {keys : List κ}

omit [LawfulBEq κ] in
/-- A new store has room for as many keys as it may hold. -/
theorem ofLimits {maxEntries : Nat} (h : keys.eraseDups.length ≤ max 1 maxEntries) (ttl : Nat) :
    (Store.ofLimits maxEntries ttl : Store κ ν).RoomFor ttl keys where
  ttl_eq := rfl
  mem k hk := by simp [Store.ofLimits] at hk
  le := h

omit [LawfulBEq κ] in
/-- Fewer entries need no more room. -/
theorem of_subset {s' : Store κ ν} (h : s.RoomFor ttl keys)
    (hmem : ∀ k, k ∈ s'.entries → k ∈ s.entries) (httl : s'.ttl = s.ttl)
    (hcapacity : s'.capacity = s.capacity) : s'.RoomFor ttl keys :=
  ⟨httl.trans h.ttl_eq, fun k hk => h.mem k (hmem k hk), hcapacity ▸ h.le⟩

/-- Nothing has to go for a key that there is room for. -/
theorem makeRoom_eq (h : s.RoomFor ttl keys) {k : κ} (hk : k ∈ keys) : s.makeRoom k = s := by
  by_cases hthere : k ∈ s.entries
  · simp [makeRoom, hthere]
  · -- The new key is one more of the keys that there is room for.
    have hnodup : (k :: s.entries.keys).Nodup :=
      List.nodup_cons.2 ⟨fun hmem => hthere (Std.HashMap.mem_keys.1 hmem),
        Std.HashMap.distinct_keys.imp fun hne heq => by simp [heq] at hne⟩
    have hsub : (k :: s.entries.keys) ⊆ keys.eraseDups := by
      intro k' hk'
      rw [List.mem_eraseDups]
      rcases List.mem_cons.1 hk' with rfl | hk'
      · exact hk
      · exact h.mem k' (Std.HashMap.mem_keys.1 hk')
    have hlen := (hnodup.subperm hsub).length_le
    rw [List.length_cons, Std.HashMap.length_keys] at hlen
    have hlt : s.entries.size < s.capacity := Nat.lt_of_lt_of_le hlen h.le
    simp [makeRoom, hlt]

/-- What is live after a write: its own entry, until it expires, and all others. -/
theorem live?_set (h : s.RoomFor ttl keys) {k : κ} (hk : k ∈ keys) (now t : Nat) (v : ν) (k' : κ) :
    (s.set now k v).live? t k' =
      if k == k' then (if ttl ≤ t - now then none else some ⟨v, now, s.nextVersion⟩)
      else s.live? t k' := by
  simp only [live?, Store.set, h.makeRoom_eq hk, Std.HashMap.getElem?_insert, h.ttl_eq]
  split
  · -- The new entry is as old as the time since it was written.
    by_cases hexp : ttl ≤ t - now <;> simp [Entry.Expired, Entry.age, hexp]
  · rfl

/-- What is seen after a write. -/
theorem peek_set (h : s.RoomFor ttl keys) {k : κ} (hk : k ∈ keys) (now t : Nat) (v : ν) (k' : κ) :
    ((s.set now k v).peek t k').1 =
      if k == k' then (if ttl ≤ t - now then none else some v) else (s.peek t k').1 := by
  rw [peek_eq, peek_eq]
  refine (congrArg (Option.map Entry.value) (h.live?_set hk now t v k')).trans ?_
  split
  · split <;> rfl
  · rfl

/-- After a write there is still room. -/
theorem set (h : s.RoomFor ttl keys) {k : κ} (hk : k ∈ keys) (now : Nat) (v : ν) :
    (s.set now k v).RoomFor ttl keys where
  ttl_eq := by
    simp only [Store.set, h.makeRoom_eq hk]
    exact h.ttl_eq
  mem k' hk' := by
    simp only [Store.set, h.makeRoom_eq hk, Std.HashMap.mem_insert, beq_iff_eq] at hk'
    rcases hk' with rfl | hk'
    · exact hk
    · exact h.mem k' hk'
  le := by
    simp only [Store.set, h.makeRoom_eq hk]
    exact h.le

theorem peekEntry (h : s.RoomFor ttl keys) (now : Nat) (k : κ) :
    (s.peekEntry now k).2.RoomFor ttl keys := by
  rw [Store.peekEntry]
  split
  · exact h
  · split
    · refine h.of_subset (fun k' hk' => ?_) rfl rfl
      simp only [countExpired, erase, Std.HashMap.mem_erase] at hk'
      exact hk'.2
    · exact h

theorem get (h : s.RoomFor ttl keys) (now : Nat) (k : κ) : (s.get now k).2.RoomFor ttl keys := by
  obtain ⟨hentries, httl, hcapacity⟩ := s.get_snd now k
  exact (h.peekEntry now k).of_subset (fun k' hk' => hentries ▸ hk') httl hcapacity

theorem delete (h : s.RoomFor ttl keys) (now : Nat) (k : κ) :
    (s.delete now k).2.RoomFor ttl keys := by
  have hlook := h.peekEntry now k
  rw [Store.delete]
  generalize s.peekEntry now k = looked at hlook
  obtain ⟨_ | e, s'⟩ := looked
  · exact hlook
  · refine hlook.of_subset (fun k' hk' => ?_) rfl rfl
    simp only [erase, Std.HashMap.mem_erase] at hk'
    exact hk'.2

theorem setIf (h : s.RoomFor ttl keys) (now : Nat) {k : κ} {v : ν}
    {condition : Option (Entry ν) → Bool} (hk : (s.setIf now k v condition).1 → k ∈ keys) :
    (s.setIf now k v condition).2.RoomFor ttl keys := by
  simp only [Store.setIf] at hk ⊢
  split
  · next hmet =>
    rw [if_pos hmet] at hk
    exact (h.peekEntry now k).set (hk rfl) now v
  · exact h.peekEntry now k

theorem sweep (h : s.RoomFor ttl keys) (now : Nat) : (s.sweep now).2.RoomFor ttl keys := by
  obtain ⟨-, hcapacity, httl, -⟩ := frame_foldl_erase (s.expiredKeys now) s
  refine h.of_subset (fun k hk => ?_) httl hcapacity
  rw [Std.HashMap.mem_iff_isSome_getElem?, getElem?_sweep] at hk
  exact Std.HashMap.mem_iff_isSome_getElem?.2 (Option.isSome_of_isSome_filter _ _ hk)

/-- An operation leaves the room there is, as long as it writes one of the keys. -/
theorem perform [BEq ν] (h : s.RoomFor ttl keys) (now : Nat) {op : Op κ ν}
    (hwritten : ∀ k ∈ op.written? (s.perform now op).1, k ∈ keys) :
    (s.perform now op).2.RoomFor ttl keys := by
  cases op using Op.cases_conditional with
  | get k => exact h.get now k
  | peek k => exact h.peekEntry now k
  | peekVersioned k => exact h.peekEntry now k
  | set k v => exact h.set (hwritten k rfl) now v
  | conditional op k v condition hop =>
    rw [perform_of_conditional s now hop] at hwritten ⊢
    -- Only a conditional write that is made has to have one of the keys.
    rw [Op.written?_of_conditional hop] at hwritten
    exact h.setIf now fun hdone => hwritten k (if_pos hdone)
  | delete k => exact h.delete now k
  | sweep => exact h.sweep now

end RoomFor

/-! ## Bulk operations -/

/-- Reads one more key of several, and adds what is found. -/
def getAlso (now : Nat) (acc : Std.HashMap κ ν × Store κ ν) (k : κ) :
    Std.HashMap κ ν × Store κ ν :=
  let (found, s) := acc
  match s.get now k with
  | (some v, s) => (found.insert k v, s)
  | (none, s) => (found, s)

omit [LawfulBEq κ] in
theorem getBulk_eq (s : Store κ ν) (now : Nat) (ks : List κ) :
    s.getBulk now ks = ks.foldl (getAlso now) (∅, s) := rfl

omit [LawfulBEq κ] in
/-- One more key is read as it is read alone. -/
theorem getAlso_eq (now : Nat) (found : Std.HashMap κ ν) (s : Store κ ν) (k : κ) :
    getAlso now (found, s) k =
      (match (s.get now k).1 with
        | some v => found.insert k v
        | none => found, (s.get now k).2) := by
  rw [getAlso]
  generalize s.get now k = got
  obtain ⟨_ | v, s'⟩ := got <;> rfl

/-- A bulk read finds what is seen of its keys. -/
theorem getElem?_getBulk (s : Store κ ν) (now : Nat) (ks : List κ) (k : κ) :
    (s.getBulk now ks).1[k]? = if ks.contains k then (s.peek now k).1 else none := by
  rw [getBulk_eq]
  -- The induction is on the keys to come, whatever has been found of the others.
  suffices hfold : ∀ (found : Std.HashMap κ ν) (s : Store κ ν),
      (ks.foldl (getAlso now) (found, s)).1[k]? =
        if ks.contains k then (s.peek now k).1.or found[k]? else found[k]? by
    simpa using hfold ∅ s
  clear s
  induction ks with
  | nil => simp
  | cons k' ks ih =>
    intro found s
    rw [List.foldl_cons, getAlso_eq, ih, peek_get s (Nat.le_refl now), get_fst, List.contains_cons]
    cases hv : (s.peek now k').1 with
    | none =>
      by_cases hk : k == k'
      · obtain rfl := eq_of_beq hk
        simp [hv]
      · simp [hk]
    | some v =>
      simp only [Std.HashMap.getElem?_insert]
      by_cases hk : k == k'
      · obtain rfl := eq_of_beq hk
        simp [hv]
      · have hk' : ¬ k' == k := fun heq => hk (BEq.symm heq)
        simp [hk, hk']

/-- A bulk read changes nothing that is seen from then on, and leaves the room there is. -/
theorem peek_getBulk (s : Store κ ν) (hle : now ≤ t) (ks : List κ) :
    (∀ k, ((s.getBulk now ks).2.peek t k).1 = (s.peek t k).1) ∧
      ∀ ttl keys, s.RoomFor ttl keys → (s.getBulk now ks).2.RoomFor ttl keys := by
  rw [getBulk_eq]
  generalize (∅ : Std.HashMap κ ν) = found
  induction ks generalizing found s with
  | nil => exact ⟨fun _ => rfl, fun _ _ h => h⟩
  | cons k' ks ih =>
    rw [List.foldl_cons, getAlso_eq]
    obtain ⟨hseen, hroom⟩ := ih (s.get now k').2 _
    exact ⟨fun k => (hseen k).trans (s.peek_get hle k' k),
      fun ttl keys h => hroom ttl keys (h.get now k')⟩

end Store

end CacheLayer
