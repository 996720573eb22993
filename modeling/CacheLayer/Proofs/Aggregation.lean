import CacheLayer.Proofs.Gathering
/-!
# Waiting for all futures of a map

A map of futures is waited for as a whole. Each poll takes the outcomes that have come since the
last one, and those that were taken stay with their keys until none is missing. So the answer is
there at the first poll from the last arrival on, whatever has failed before, and it is what all the
outcomes together are folded into. The order in which the map is gone through does not matter.

## Key results

- `zip_outcomes`: keys and outcomes that are taken apart come together again
- `joined_eq`: a batch that is polled answers at the first poll at which it is complete
- `gather_law`, `gatherPresent_law`: what the outcomes of a map are folded into
- `aggregation_law`: when a map of futures answers, and what
-/

namespace CacheLayer

variable {κ α β : Type}

/-! ## Polling -/

/-- A future of a batch that is waited for. -/
inductive Member (α : Type) where
  | pending (arrival : Arrival α)
  /-- Its outcome has been taken, and it is not polled again. -/
  | taken (outcome : Outcome α)

namespace Member

/-- Takes the outcome if it is there. -/
def poll (now : Nat) : Member α → Member α
  | pending a => if a.due ≤ now then taken a.outcome else pending a
  | taken o => taken o

/-- The outcome, once it has been taken. -/
def outcome? : Member α → Option (Outcome α)
  | pending _ => none
  | taken o => some o

end Member

/-- Polls all members. -/
def pollAll (now : Nat) (members : List (Member α)) : List (Member α) :=
  members.map (Member.poll now)

/-- The outcomes, if all of them have been taken. -/
def outcomes? : List (Member α) → Option (List (Outcome α))
  | [] => some []
  | m :: members =>
    match m.outcome?, outcomes? members with
    | some o, some os => some (o :: os)
    | _, _ => none

/-- Polls futures at one instant after another until all outcomes have been taken: the instant of
that poll, and the outcomes. -/
def joined (members : List (Member α)) : List Nat → Option (Nat × List (Outcome α))
  | [] => none
  | now :: polls =>
    match outcomes? (pollAll now members) with
    | some os => some (now, os)
    | none => joined (pollAll now members) polls

/-- The outcomes of a batch. -/
def outcomesOf (batch : List (κ × Arrival α)) : List (κ × Outcome α) :=
  batch.map fun p => (p.1, p.2.outcome)

/-- The futures of a batch, of which nothing has been taken yet. -/
def unpolled (batch : List (κ × Arrival α)) : List (Member α) :=
  batch.unzip.2.map .pending

/-- The futures of a batch from which everything that is there at an instant has been taken. -/
def polledAt (now : Nat) (batch : List (κ × Arrival α)) : List (Member α) :=
  pollAll now (unpolled batch)

/-- The keys get back their own outcomes. -/
theorem zip_outcomes (batch : List (κ × Arrival α)) :
    batch.unzip.1.zip (batch.unzip.2.map Arrival.outcome) = outcomesOf batch := by
  rw [List.unzip_fst, List.unzip_snd, List.map_map, List.zip_map', outcomesOf]
  rfl

/-- A later poll takes what has come since. -/
theorem pollAll_polledAt {t now : Nat} (h : t ≤ now) (batch : List (κ × Arrival α)) :
    pollAll now (polledAt t batch) = polledAt now batch := by
  simp only [polledAt, pollAll, unpolled, List.map_map]
  refine List.map_congr_left fun a _ => ?_
  simp only [Function.comp_apply, Member.poll]
  by_cases ht : a.due ≤ t
  · have hnow : a.due ≤ now := Nat.le_trans ht h
    simp [ht, hnow]
  · simp [ht]

/-- A batch is complete when everything is due. -/
theorem completion_le_iff {batch : List (κ × Arrival α)} {now : Nat} :
    completion batch ≤ now ↔ ∀ p ∈ batch, p.2.due ≤ now := by
  -- The fold begins with an instant that may be later than anything in the batch.
  suffices hfold : ∀ t, batch.foldl (fun t p => max t p.2.due) t ≤ now ↔
      t ≤ now ∧ ∀ p ∈ batch, p.2.due ≤ now by
    exact (hfold 0).trans (and_iff_right (Nat.zero_le now))
  induction batch with
  | nil => simp
  | cons p batch ih =>
    intro t
    rw [List.foldl_cons, ih, List.forall_mem_cons, Nat.max_le, and_assoc]

/-- What has been taken at an instant are all the outcomes if the batch is complete by then. -/
theorem outcomes?_polledAt (now : Nat) (batch : List (κ × Arrival α)) :
    outcomes? (polledAt now batch) =
      if completion batch ≤ now then some (batch.unzip.2.map Arrival.outcome) else none := by
  simp only [completion_le_iff]
  induction batch with
  | nil => rfl
  | cons p batch ih =>
    have hcons : polledAt now (p :: batch) =
        (Member.pending p.2).poll now :: polledAt now batch := rfl
    rw [hcons, outcomes?, ih, Member.poll]
    simp only [List.forall_mem_cons]
    by_cases hp : p.2.due ≤ now
    · by_cases hrest : ∀ p ∈ batch, p.2.due ≤ now
      · simp only [if_pos hp, if_pos hrest, if_pos (And.intro hp hrest)]
        rfl
      · simp only [if_pos hp, if_neg hrest, if_neg fun h : _ ∧ _ => hrest h.2]
        rfl
    · simp only [if_neg hp, if_neg fun h : _ ∧ _ => hp h.1]
      rfl

/-- A batch that is polled at one instant after another answers at the first poll at which it is
complete. -/
theorem joined_eq (batch : List (κ × Arrival α)) {polls : List Nat}
    (hpolls : polls.Pairwise (· ≤ ·)) :
    joined (unpolled batch) polls =
      (polls.find? fun now => completion batch ≤ now).map fun now =>
        (now, batch.unzip.2.map Arrival.outcome) := by
  -- After a poll the batch is as if it had been polled for the first time.
  suffices hlater : ∀ members : List (Member α),
      (∀ now ∈ polls, pollAll now members = polledAt now batch) →
      joined members polls =
        (polls.find? fun now => completion batch ≤ now).map fun now =>
          (now, batch.unzip.2.map Arrival.outcome) from
    hlater _ fun _ _ => rfl
  induction polls with
  | nil => exact fun _ _ => rfl
  | cons now polls ih =>
    intro members hmembers
    obtain ⟨hnow, hpolls⟩ := List.pairwise_cons.1 hpolls
    rw [joined, hmembers now (List.mem_cons_self ..), outcomes?_polledAt]
    by_cases hcomplete : completion batch ≤ now
    · simp [hcomplete]
    · simp only [hcomplete, if_false, List.find?_cons, decide_false]
      exact ih hpolls _ fun later hlater => pollAll_polledAt (hnow later hlater) batch

/-- What is asked of a way to wait for many outcomes: it gives something exactly when all of them
are there, and then it gives all of them in order. -/
structure Joins (join : Join α) : Prop where
  isSome_iff : ∀ pending now, (join pending now).isSome ↔ ∀ a ∈ pending, a.due ≤ now
  inOrder : ∀ {pending now outcomes}, join pending now = some outcomes →
    outcomes = pending.map Arrival.outcome

theorem joins_joinAll : Joins (joinAll : Join α) where
  isSome_iff pending now := by
    rw [joinAll]
    split
    · next hall => simpa using hall
    · next hall => simpa using hall
  inOrder {pending now outcomes} h := by
    rw [joinAll] at h
    split at h
    · exact (Option.some.inj h).symm
    · cases h

/-- What is there of a batch at an instant, in whatever way it is waited for. -/
theorem arrivedWith_eq {join : Join α} (hjoin : Joins join) (batch : List (κ × Arrival α))
    (now : Nat) : arrivedWith join batch now =
      if completion batch ≤ now then some (outcomesOf batch) else none := by
  have hdue : (∀ a ∈ batch.unzip.2, a.due ≤ now) ↔ completion batch ≤ now := by
    rw [completion_le_iff, List.unzip_snd, List.forall_mem_map]
  have hsome := (hjoin.isSome_iff batch.unzip.2 now).trans hdue
  show (join batch.unzip.2 now).map batch.unzip.1.zip = _
  cases houtcomes : join batch.unzip.2 now with
  | none =>
    rw [houtcomes] at hsome
    rw [if_neg fun h => Bool.false_ne_true (hsome.2 h)]
    rfl
  | some outcomes =>
    rw [houtcomes] at hsome
    obtain rfl := hjoin.inOrder houtcomes
    rw [if_pos (hsome.1 rfl), Option.map_some, zip_outcomes]

/-! ## What the outcomes are folded into -/

/-- The error, if an outcome is one. -/
def Outcome.error? : Outcome α → Option CacheError
  | .ok _ => none
  | .error e => some e

variable [BEq κ] [Hashable κ]

/-- The errors of the futures of a map, each as often as it occurs. -/
def failuresOf (futures : Std.HashMap κ (Arrival α)) : Multiset CacheError :=
  Multiset.ofList (futures.toList.filterMap fun p => p.2.outcome.error?)

/-- Whether a map of futures fails as a whole: if a single error is enough, when there is one, and
otherwise when there are futures and each of them has failed. -/
def FailsAsWhole (failOnError : Bool) (futures : Std.HashMap κ (Arrival α)) : Prop :=
  if failOnError then ∃ (k : κ) (a : Arrival α) (e : CacheError),
    futures[k]? = some a ∧ a.outcome = .error e
  else futures.isEmpty = false ∧ ∀ (k : κ) (a : Arrival α), futures[k]? = some a →
    ∃ e, a.outcome = .error e

/-- What a map of futures comes to: all its errors if it fails as a whole, and otherwise exactly the
keys that have succeeded, each with what is kept of its own value. -/
inductive Aggregated (failOnError : Bool) (keep : α → Option β)
    (futures : Std.HashMap κ (Arrival α)) : Outcome (Std.HashMap κ β) → Prop where
  | failed (errors : List CacheError) (hfails : FailsAsWhole failOnError futures)
    (herrors : Multiset.ofList errors = failuresOf futures) :
    Aggregated failOnError keep futures (.error (.aggregate errors))
  | values (m : Std.HashMap κ β) (hholds : ¬ FailsAsWhole failOnError futures)
    (hm : ∀ (k : κ) (b : β), m[k]? = some b ↔ ∃ (a : Arrival α) (v : α),
      futures[k]? = some a ∧ a.outcome = .ok v ∧ keep v = some b) :
    Aggregated failOnError keep futures (.ok m)

omit [BEq κ] [Hashable κ] in
theorem errorsOf_outcomesOf (batch : List (κ × Arrival α)) :
    errorsOf (outcomesOf batch) = batch.filterMap fun p => p.2.outcome.error? := by
  rw [errorsOf, outcomesOf, List.filterMap_map]
  refine List.filterMap_congr fun p _ => ?_
  obtain ⟨k, e | v, due⟩ := p <;> rfl

variable [LawfulBEq κ] {futures : Std.HashMap κ (Arrival α)} {batch : List (κ × Arrival α)}

/-- The order in which a map is gone through keeps its entries. -/
theorem mem_of_perm_toList (horder : batch.Perm futures.toList) {k : κ} {a : Arrival α} :
    (k, a) ∈ batch ↔ futures[k]? = some a :=
  horder.mem_iff.trans Std.HashMap.mem_toList_iff_getElem?_eq_some

theorem mem_outcomesOf (horder : batch.Perm futures.toList) {k : κ} {o : Outcome α} :
    (k, o) ∈ outcomesOf batch ↔ ∃ a, futures[k]? = some a ∧ a.outcome = o := by
  simp only [outcomesOf, List.mem_map, Prod.mk.injEq, Prod.exists]
  constructor
  · rintro ⟨k, a, hmem, rfl, rfl⟩
    exact ⟨a, (mem_of_perm_toList horder).1 hmem, rfl⟩
  · rintro ⟨a, ha, rfl⟩
    exact ⟨k, a, (mem_of_perm_toList horder).2 ha, rfl, rfl⟩

theorem nodup_outcomesOf (horder : batch.Perm futures.toList) :
    ((outcomesOf batch).map Prod.fst).Nodup := by
  have hkeys : (outcomesOf batch).map Prod.fst = batch.map Prod.fst := by
    simp [outcomesOf, Function.comp_def]
  rw [hkeys, (horder.map Prod.fst).nodup_iff]
  refine List.pairwise_map.2 (Std.HashMap.distinct_keys_toList.imp ?_)
  intro p q hne heq
  simp [heq] at hne

/-- The condition on which a batch is folded into an error. -/
theorem fails_iff (failOnError : Bool) (horder : batch.Perm futures.toList) :
    (errorsOf (outcomesOf batch) ≠ [] ∧ (failOnError ∨
      (errorsOf (outcomesOf batch)).length = (outcomesOf batch).length)) ↔
    FailsAsWhole failOnError futures := by
  cases failOnError with
  | true =>
    -- One failure is enough here, so that the number of errors does not matter.
    simp only [true_or, and_true, FailsAsWhole]
    constructor
    · intro hne
      obtain ⟨e, he⟩ := List.exists_mem_of_ne_nil _ hne
      obtain ⟨⟨k, e' | v⟩, hmem, he⟩ := List.mem_filterMap.1 he
      · obtain ⟨a, ha, ho⟩ := (mem_outcomesOf horder).1 hmem
        exact ⟨k, a, e', ha, ho⟩
      · exact nomatch he
    · rintro ⟨k, a, e, ha, ho⟩
      have hmem := (mem_outcomesOf horder).2 ⟨a, ha, ho⟩
      exact List.ne_nil_of_mem (List.mem_filterMap.2 ⟨_, hmem, rfl⟩)
  | false =>
    simp only [Bool.false_eq_true, false_or, FailsAsWhole]
    by_cases hok : ∃ p ∈ outcomesOf batch, p.2.isOk
    · -- A future that has succeeded is in the map, and there are fewer errors than futures.
      obtain ⟨⟨k, o⟩, hmem, ho⟩ := hok
      have hlt := length_errorsOf_lt hmem ho
      obtain ⟨a, ha, rfl⟩ := (mem_outcomesOf horder).1 hmem
      refine iff_of_false (fun h => by omega) fun h => ?_
      obtain ⟨e, he⟩ := h.2 k a ha
      rw [he] at ho
      exact nomatch ho
    · -- All of them have failed: there are as many errors as futures.
      have hfailed : ∀ p ∈ outcomesOf batch, p.2.isOk = false := by simpa using hok
      have hlength : (errorsOf (outcomesOf batch)).length = (outcomesOf batch).length := by
        simpa using congrArg List.length (errorsOf_of_failed hfailed)
      have hsize : (outcomesOf batch).length = futures.size := by
        rw [outcomesOf, List.length_map, horder.length_eq, Std.HashMap.length_toList]
      have hempty : errorsOf (outcomesOf batch) ≠ [] ↔ futures.isEmpty = false := by
        rw [← List.length_pos_iff, hlength, hsize, Std.HashMap.isEmpty_eq_size_eq_zero,
          beq_eq_false_iff_ne, Nat.pos_iff_ne_zero]
      refine ⟨fun h => ⟨hempty.1 h.1, fun k a ha => ?_⟩, fun h => ⟨hempty.2 h.1, hlength⟩⟩
      have hfail := hfailed _ ((mem_outcomesOf horder).2 ⟨a, ha, rfl⟩)
      cases ho : a.outcome with
      | error e => exact ⟨e, rfl⟩
      | ok v =>
        rw [ho] at hfail
        exact nomatch hfail

/-- What the outcomes of a map are folded into, in whatever order it is gone through. -/
theorem gather_law (failOnError : Bool) (horder : batch.Perm futures.toList) :
    Aggregated failOnError some futures (gather failOnError (outcomesOf batch)) := by
  rw [gather]
  split
  · next hfails =>
    refine .failed _ ((fails_iff failOnError horder).1 hfails) ?_
    rw [errorsOf_outcomesOf, failuresOf]
    exact Multiset.coe_eq_coe.2 (horder.filterMap _)
  · next hholds =>
    refine .values _ (mt (fails_iff failOnError horder).2 hholds) fun k v => ?_
    rw [getElem?_ofList (nodup_valuesOf (nodup_outcomesOf horder)), mem_valuesOf,
      mem_outcomesOf horder]
    simp

/-- The same for optional values, of which those that are absent are left out. -/
theorem gatherPresent_law {futures : Std.HashMap κ (Arrival (Option α))}
    {batch : List (κ × Arrival (Option α))} (failOnError : Bool)
    (horder : batch.Perm futures.toList) :
    Aggregated failOnError id futures (gatherPresent failOnError (outcomesOf batch)) := by
  have hlaw := gather_law failOnError horder
  rw [gatherPresent]
  generalize gather failOnError (outcomesOf batch) = r at hlaw ⊢
  cases hlaw with
  | failed errors hfails herrors => exact .failed errors hfails herrors
  | values m hholds hm =>
    refine .values _ hholds fun k v => ?_
    rw [getElem?_present, hm]
    simp

/-! ## When a map of futures answers, and what -/

/-- The answer of a batch whose futures are polled at one instant after another, with the instant of
the poll that it is the answer to. -/
def polled {γ : Type} (fold : List (κ × Outcome α) → γ) (batch : List (κ × Arrival α))
    (polls : List Nat) : Option (Nat × γ) :=
  (joined (unpolled batch) polls).map fun r => (r.1, fold (batch.unzip.1.zip r.2))

/-- Whether the last future of a map arrives at an instant; if there are no futures, this is the
instant at which they are first looked at. -/
structure LastArrival (futures : Std.HashMap κ (Arrival α)) (due : Nat) : Prop where
  all : ∀ (k : κ) (a : Arrival α), futures[k]? = some a → a.due ≤ due
  last : due = 0 ∨ ∃ (k : κ) (a : Arrival α), futures[k]? = some a ∧ a.due = due

/-- Whether waiting for a map of futures ends with an answer at an instant. Without futures this is
an empty map at once. Otherwise it is what the futures come to, when the last one arrives: before
that there is no answer, and a task that is polled now and then has it at the first poll from then
on, which is no later than the arrival if the task is polled then. -/
structure Awaits (failOnError : Bool) (keep : α → Option β) (futures : Std.HashMap κ (Arrival α))
    (answer? : Nat → Option (Outcome (Std.HashMap κ β)))
    (polled? : List Nat → Option (Nat × Outcome (Std.HashMap κ β)))
    (due : Nat) (answer : Outcome (Std.HashMap κ β)) : Prop where
  arrival : LastArrival futures due
  law : Aggregated failOnError keep futures answer
  nothing : futures.isEmpty → due = 0 ∧ ∃ m, answer = .ok m ∧ m.isEmpty
  instants : ∀ now, answer? now = if due ≤ now then some answer else none
  polls : ∀ polls : List Nat, polls.Pairwise (· ≤ ·) →
    polled? polls = (polls.find? fun now => due ≤ now).map fun now => (now, answer)
  onTime : ∀ polls : List Nat, polls.Pairwise (· ≤ ·) → due ∈ polls →
    polled? polls = some (due, answer)

theorem lastArrival_completion (horder : batch.Perm futures.toList) :
    LastArrival futures (completion batch) where
  all k a ha := completion_le_iff.1 (Nat.le_refl _) _ ((mem_of_perm_toList horder).2 ha)
  last := by
    by_contra hnone
    obtain ⟨hpos, hlate⟩ := not_or.1 hnone
    -- Otherwise the batch would have been complete an instant earlier.
    have hearlier : completion batch ≤ completion batch - 1 := by
      refine completion_le_iff.2 fun p hp => ?_
      have hle := completion_le_iff.1 (Nat.le_refl _) p hp
      have hne : p.2.due ≠ completion batch := fun heq =>
        hlate ⟨p.1, p.2, (mem_of_perm_toList horder).1 hp, heq⟩
      omega
    omega

/-- Without futures nothing can fail, and there are no values. -/
theorem Aggregated.of_isEmpty {failOnError : Bool} {keep : α → Option β}
    {r : Outcome (Std.HashMap κ β)} (h : Aggregated failOnError keep futures r)
    (hempty : futures.isEmpty) : ∃ m, r = .ok m ∧ m.isEmpty := by
  have hnone : ∀ k : κ, futures[k]? = none := fun k =>
    Std.HashMap.getElem?_of_isEmpty hempty
  cases h with
  -- A failure of the whole would have a future behind it, whichever variant it is.
  | failed errors hfails herrors =>
    cases failOnError with
    | true =>
      obtain ⟨k, a, e, ha, -⟩ : ∃ (k : κ) (a : Arrival α) (e : CacheError),
        futures[k]? = some a ∧ a.outcome = .error e := hfails
      rw [hnone] at ha
      exact nomatch ha
    | false =>
      have hsome : futures.isEmpty = false := And.left hfails
      rw [hempty] at hsome
      exact nomatch hsome
  | values m hholds hm =>
    -- A value in the map would have come from a future.
    refine ⟨m, rfl, Std.HashMap.isEmpty_iff_forall_not_mem.2 fun k hk => ?_⟩
    obtain ⟨a, v, ha, -⟩ := (hm k _).1 (Std.HashMap.getElem?_eq_some_getElem hk)
    rw [hnone] at ha
    exact nomatch ha

/-- The first of some instants from a given one on, which is one of them, is that one. -/
private theorem find?_le_of_mem {polls : List Nat} {due : Nat} (hpolls : polls.Pairwise (· ≤ ·))
    (hdue : due ∈ polls) : (polls.find? fun now => due ≤ now) = some due := by
  induction polls with
  | nil => exact nomatch hdue
  | cons now polls ih =>
    obtain ⟨hfirst, hpolls⟩ := List.pairwise_cons.1 hpolls
    rw [List.find?_cons]
    rcases List.mem_cons.1 hdue with rfl | hlater
    · simp
    · have hle := hfirst due hlater
      by_cases hnow : due ≤ now
      · simp [Nat.le_antisymm hnow hle]
      · simp only [hnow, decide_false]
        exact ih hpolls hlater

/-- A fold that obeys the law is what waiting for the map ends with. -/
theorem awaits_completion {join : Join α} (hjoin : Joins join) {failOnError : Bool}
    {keep : α → Option β} {fold : List (κ × Outcome α) → Outcome (Std.HashMap κ β)}
    (horder : batch.Perm futures.toList)
    (hlaw : Aggregated failOnError keep futures (fold (outcomesOf batch))) :
    Awaits failOnError keep futures (fun now => (arrivedWith join batch now).map fold)
      (polled fold batch) (completion batch) (fold (outcomesOf batch)) where
  arrival := lastArrival_completion horder
  law := hlaw
  nothing hempty := by
    refine ⟨?_, hlaw.of_isEmpty hempty⟩
    rcases (lastArrival_completion horder).last with hzero | ⟨k, a, ha, -⟩
    · exact hzero
    · rw [Std.HashMap.getElem?_of_isEmpty hempty] at ha
      exact nomatch ha
  instants now := by
    rw [arrivedWith_eq hjoin]
    split <;> rfl
  polls polls hpolls := by
    rw [polled, joined_eq batch hpolls, Option.map_map, ← zip_outcomes batch]
    rfl
  onTime polls hpolls hdue := by
    rw [polled, joined_eq batch hpolls, find?_le_of_mem hpolls hdue, ← zip_outcomes batch]
    rfl

/-- When a map of futures answers, and what, in whatever order it is gone through: with values of
any kind, and with optional ones, of which those that are absent are left out. The futures are
waited for without their keys, in any way that gives all outcomes in order once they are there. -/
theorem aggregation_law :
    (∀ (failOnError : Bool) {futures : Std.HashMap κ (Arrival α)} {batch : List (κ × Arrival α)},
      batch.Perm futures.toList → ∀ {join : Join α}, Joins join →
      ∃ due answer, Awaits failOnError some futures (awaitAllWith join failOnError batch)
        (polled (gather failOnError) batch) due answer) ∧
    (∀ (failOnError : Bool) {futures : Std.HashMap κ (Arrival (Option α))}
      {batch : List (κ × Arrival (Option α))},
      batch.Perm futures.toList → ∀ {join : Join (Option α)}, Joins join →
      ∃ due answer, Awaits failOnError id futures (awaitAllPresentWith join failOnError batch)
        (polled (gatherPresent failOnError) batch) due answer) := by
  constructor
  · intro failOnError futures batch horder join hjoin
    exact ⟨_, _, awaits_completion hjoin horder (gather_law failOnError horder)⟩
  · intro failOnError futures batch horder join hjoin
    exact ⟨_, _, awaits_completion hjoin horder (gatherPresent_law failOnError horder)⟩

/-- A map that was made of a list with different keys can be gone through in the order of the
list. -/
theorem perm_toList_ofList {l : List (κ × β)} (hnodup : (l.map Prod.fst).Nodup) :
    l.Perm (Std.HashMap.ofList l).toList := by
  have hdistinct : (Std.HashMap.ofList l).toList.Nodup := by
    refine Std.HashMap.distinct_keys_toList.imp fun {p q} hne heq => ?_
    simp [heq] at hne
  rw [List.perm_ext_iff_of_nodup hnodup.of_map hdistinct]
  rintro ⟨k, b⟩
  rw [Std.HashMap.mem_toList_iff_getElem?_eq_some, getElem?_ofList hnodup]

/-- Of two futures the one that fails arrives first, and its error has to wait. Of two others one
fails and the other has no value, which is no failure of the whole. -/
theorem aggregation_law_failsEarly :
    let futures : List (Nat × Arrival Nat) := [(1, ⟨.ok 10, 5⟩), (2, ⟨.error (.loader "down"), 3⟩)]
    let batch : List (Nat × Arrival Nat) := [(2, ⟨.error (.loader "down"), 3⟩), (1, ⟨.ok 10, 5⟩)]
    let optional : List (Nat × Arrival (Option Nat)) :=
      [(7, ⟨.error (.backend "gone"), 4⟩), (8, ⟨.ok none, 2⟩)]
    (batch.Perm (Std.HashMap.ofList futures).toList ∧
      (∃ due answer, Awaits true some (Std.HashMap.ofList futures) (awaitAll true batch)
        (polled (gather true) batch) due answer) ∧
      polled (gather true) batch [0, 3, 4, 5, 8] = some (5, .error (.aggregate [.loader "down"]))) ∧
    optional.Perm (Std.HashMap.ofList optional).toList ∧
      (∃ due answer, Awaits false id (Std.HashMap.ofList optional) (awaitAllPresent false optional)
        (polled (gatherPresent false) optional) due answer) ∧
      (polled (gatherPresent false) optional [2, 4]).map Prod.fst = some 4 := by
  intro futures batch optional
  have hbatch : batch.Perm (Std.HashMap.ofList futures).toList :=
    (List.Perm.swap _ _ _).trans (perm_toList_ofList (by decide))
  have hoptional : optional.Perm (Std.HashMap.ofList optional).toList :=
    perm_toList_ofList (by decide)
  -- What the polls give is computed; the rest is the law, applied to both batches.
  exact ⟨⟨hbatch, aggregation_law.1 true hbatch joins_joinAll, rfl⟩, hoptional,
    (aggregation_law (α := Nat)).2 false hoptional joins_joinAll, rfl⟩

end CacheLayer
