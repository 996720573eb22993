import CacheLayer.Promise
import Mathlib
/-!
# Annals of promises

Handles and futures are made, copied, dropped and used in any order. A history is the row of all
operations so far, and its annals tell what it says about the names: which promise a handle or a
future descends from, and which outcomes were offered to a promise. Promises are numbered in the
order in which they were made.

What a promise has come to can be read off the annals alone: the first outcome that was offered
to it, or that it was dropped, if nobody has offered one and no handle is left.

## Key results

- `Promises.Standing`: what a promise has come to, by the annals
- `Promises.Standing.append`: that stays as it is
- `Promises.Standing.rename`: what becomes of a promise when a handle goes
-/

namespace CacheLayer.Promises

/-! ## Histories -/

/-- An operation on handles and futures. -/
inductive Op (η ν : Type) where
  /-- Makes a promise with the handle `p`. -/
  | new (p : η)
  /-- Makes `q` another handle of the promise of `p`. -/
  | clone (p q : η)
  | drop (p : η)
  /-- Makes `f` a future of the promise of `p`. -/
  | future (p f : η)
  | cloneFuture (f g : η)
  | dropFuture (f : η)
  /-- Completes the promise of `p`, with a value or with an error. -/
  | complete (p : η) (o : Outcome ν)
  | same (p q : η)
  /-- Polls the future `f` itself. -/
  | await (f : η)
  /-- Polls a copy of the future `f`, which is gone afterwards. -/
  | poll (f : η)
  | peek (f : η)

/-- The answer to an operation. -/
inductive Answer (ν : Type) where
  /-- A name means nothing. -/
  | missing
  | done
  /-- Whether a completion was the first one. -/
  | first (yes : Bool)
  | same (yes : Bool)
  | polled (r : Polled ν)
  /-- An outcome that is found without a poll, if there is one. -/
  | outcome (o? : Option (Outcome ν))

section Histories

variable {η ν : Type} [BEq η] [Hashable η]

/-- Goes on with what an operation has made, if its names mean something. -/
def change (w : Promises η ν) : Option (Promises η ν) → Answer ν × Promises η ν
  | none => (.missing, w)
  | some w' => (.done, w')

/-- Carries out an operation. -/
def perform (w : Promises η ν) : Op η ν → Answer ν × Promises η ν
  | .new p => (.done, w.create p)
  | .clone p q => w.change (w.cloneHandle p q)
  | .drop p => w.change (w.dropHandle p)
  | .future p f => w.change (w.future p f)
  | .cloneFuture f g => w.change (w.cloneFuture f g)
  | .dropFuture f => w.change (w.dropFuture f)
  | .complete p o =>
    match w.complete p o with
    | none => (.missing, w)
    | some (yes, w') => (.first yes, w')
  | .same p q => (((w.same p q).map .same).getD .missing, w)
  | .await f =>
    match w.await f with
    | none => (.missing, w)
    | some (r, w') => (.polled r, w')
  | .poll f =>
    match w.poll f with
    -- The copy of a finished future is finished.
    | none => (if w.futures[f]?.isSome then .polled .brokenOff else .missing, w)
    | some (o?, w') => (.polled (.of o?), w')
  | .peek f => (((w.peek f).map .outcome).getD .missing, w)

/-- The promises after a history. -/
def after (h : List (Op η ν)) : Promises η ν := h.foldl (fun w op => (w.perform op).2) {}

/-- What an operation is answered after a history. -/
def answer (h : List (Op η ν)) (op : Op η ν) : Answer ν := ((after h).perform op).1

/-- What there is of a promise: how it stands, and which names belong to it. A finished future
belongs to no promise. -/
structure View (η ν : Type) where
  promise? : Option (Promise ν)
  handles : η → Prop
  futures : η → Prop

/-- What there is of the `n`-th promise. -/
def view (w : Promises η ν) (n : Nat) : View η ν :=
  ⟨w.promises[n]?, fun p => w.handles[p]? = some n, fun f => w.futures[f]? = some (some n)⟩

end Histories

/-! ## Annals -/

/-- What a history says about names and promises. -/
structure Annals (η ν : Type) where
  /-- How many promises were made. -/
  made : Nat := 0
  /-- The promise that a handle descends from. -/
  handle : η → Option Nat := fun _ => none
  /-- The promise that a future descends from. -/
  future : η → Option Nat := fun _ => none
  /-- Whether a future has given its outcome, or is the copy of one that had. -/
  finished : η → Prop := fun _ => False
  /-- The outcomes that completing calls have brought to a promise, in their order. -/
  offers : Nat → List (Outcome ν) := fun _ => []

section Annals

variable {η ν : Type}

/-- What a promise has come to. -/
inductive Standing (a : Annals η ν) (n : Nat) : Option (Outcome ν) → Prop where
  /-- The first completion has decided. -/
  | completed (o : Outcome ν) (later : List (Outcome ν)) :
    a.offers n = o :: later → Standing a n (some o)
  /-- Nobody has completed it, and nobody can. -/
  | dropped : a.offers n = [] → (∀ p, a.handle p ≠ some n) →
    Standing a n (some (.error Promise.dropped))
  /-- Whoever has the handle `p` can complete it. -/
  | pending (p : η) : a.offers n = [] → a.handle p = some n → Standing a n none

variable [BEq η]

/-- Names of which one has got a new meaning. -/
def rename {α : Type} (names : η → α) (p : η) (x : α) : η → α :=
  fun q => if p == q then x else names q

namespace Annals

/-- The annals with one more operation. -/
def add (a : Annals η ν) : Op η ν → Annals η ν
  | .new p => { a with made := a.made + 1, handle := rename a.handle p (some a.made) }
  | .clone p q =>
    match a.handle p with
    | none => a
    | some n => { a with handle := rename a.handle q (some n) }
  | .drop p => { a with handle := rename a.handle p none }
  | .future p f =>
    match a.handle p with
    | none => a
    | some n =>
      { a with future := rename a.future f (some n), finished := rename a.finished f False }
  | .cloneFuture f g =>
    match a.future f with
    | none => a
    | some n =>
      { a with
        future := rename a.future g (some n)
        finished := rename a.finished g (a.finished f) }
  | .dropFuture f =>
    { a with future := rename a.future f none, finished := rename a.finished f False }
  | .complete p o =>
    match a.handle p with
    | none => a
    | some n => { a with offers := fun m => if m = n then a.offers m ++ [o] else a.offers m }
  | .same _ _ => a
  | .await f =>
    -- A future that is pending stays as it is.
    { a with
      finished := rename a.finished f
        (a.finished f ∨ ∃ n o, a.future f = some n ∧ Standing a n (some o)) }
  | .poll _ => a
  | .peek _ => a

end Annals

/-- The annals of a history. -/
def annals (h : List (Op η ν)) : Annals η ν := h.foldl .add {}

/-- The future that an operation polls, itself or a copy of it. -/
def Op.polled? : Op η ν → Option η
  | await f => some f
  | poll f => some f
  | _ => none

/-- Whether a future of a promise has been polled and had the outcome. -/
def Seen (h : List (Op η ν)) (n : Nat) : Prop :=
  ∃ h₁ op f o, h₁ ++ [op] <+: h ∧ op.polled? = some f ∧ (annals h₁).future f = some n ∧
    ¬ (annals h₁).finished f ∧ Standing (annals h₁) n (some o)

/-- The handles that an operation names. -/
def Op.handles : Op η ν → List η
  | new p => [p]
  | clone p q => [p, q]
  | drop p => [p]
  | future p _ => [p]
  | complete p _ => [p]
  | same p q => [p, q]
  | _ => []

/-- The futures that an operation names. -/
def Op.futures : Op η ν → List η
  | future _ f => [f]
  | cloneFuture f g => [f, g]
  | dropFuture f => [f]
  | await f => [f]
  | poll f => [f]
  | peek f => [f]
  | _ => []

/-- Whether an operation names a handle or a future of a promise. -/
def Op.Concerns (a : Annals η ν) (n : Nat) (op : Op η ν) : Prop :=
  (∃ p ∈ op.handles, a.handle p = some n) ∨ ∃ f ∈ op.futures, a.future f = some n

theorem annals_concat (h : List (Op η ν)) (op : Op η ν) :
    annals (h ++ [op]) = (annals h).add op := by
  rw [annals, annals, List.foldl_append]
  rfl

theorem seen_concat (h : List (Op η ν)) (op : Op η ν) (n : Nat) :
    Seen (h ++ [op]) n ↔ Seen h n ∨
      ∃ f o, op.polled? = some f ∧ (annals h).future f = some n ∧ ¬ (annals h).finished f ∧
        Standing (annals h) n (some o) := by
  constructor
  · rintro ⟨h₁, op', f, o, hpre, hpolled, hf, ho⟩
    rcases List.prefix_concat_iff.1 hpre with heq | hpre
    · obtain ⟨rfl, hop⟩ := List.append_inj' heq rfl
      obtain rfl := List.singleton_inj.1 hop
      exact .inr ⟨f, o, hpolled, hf, ho⟩
    · exact .inl ⟨h₁, op', f, o, hpre, hpolled, hf, ho⟩
  · rintro (⟨h₁, op', f, o, hpre, hpolled, hf, ho⟩ | ⟨f, o, hpolled, hf, ho⟩)
    · exact ⟨h₁, op', f, o, hpre.trans (List.prefix_append _ _), hpolled, hf, ho⟩
    · exact ⟨h, op, f, o, List.prefix_rfl, hpolled, hf, ho⟩

/-- What was seen has been seen for ever. -/
theorem Seen.mono {h h' : List (Op η ν)} {n : Nat} (hseen : Seen h n) : Seen (h ++ h') n := by
  obtain ⟨h₁, op, f, o, hpre, hpolled, hf, ho⟩ := hseen
  exact ⟨h₁, op, f, o, hpre.trans (List.prefix_append _ _), hpolled, hf, ho⟩

/-! ## Annals that go on -/

namespace Annals

/-- Whether only promises that were made are spoken of. -/
structure Numbered (a : Annals η ν) : Prop where
  handle_lt : ∀ {p n}, a.handle p = some n → n < a.made
  future_lt : ∀ {f n}, a.future f = some n → n < a.made
  offers_eq : ∀ {n}, a.made ≤ n → a.offers n = []

/-- What a name means that has or has not got a new meaning. -/
theorem rename_eq_some {names : η → Option Nat} {p q : η} {n? : Option Nat} {n : Nat}
    (h : rename names p n? q = some n) : n? = some n ∨ names q = some n := by
  rw [rename] at h
  split at h
  · exact .inl h
  · exact .inr h

/-- A name that means nothing can be dropped without any change. -/
theorem rename_none [LawfulBEq η] {names : η → Option Nat} {p : η} (h : names p = none) :
    rename names p none = names := by
  funext q
  rw [rename]
  split
  · next heq => rw [← eq_of_beq heq, h]
  · rfl

variable {a : Annals η ν}

omit [BEq η] in
theorem Numbered.empty : ({} : Annals η ν).Numbered where
  handle_lt h := nomatch h
  future_lt h := nomatch h
  offers_eq _ := rfl

/-- An operation speaks of promises that were made. -/
theorem Numbered.add (h : a.Numbered) (op : Op η ν) : (a.add op).Numbered := by
  -- Names get the meanings of other names.
  have hhandle {q : η} {n? : Option Nat} (hn : ∀ n, n? = some n → n < a.made) :
      Numbered { a with handle := rename a.handle q n? } :=
    { h with handle_lt := fun hq => (rename_eq_some hq).elim (hn _) h.handle_lt }
  have hfuture {g : η} {n? : Option Nat} {finished : η → Prop}
      (hn : ∀ n, n? = some n → n < a.made) :
      Numbered { a with future := rename a.future g n?, finished := finished } :=
    { h with future_lt := fun hg => (rename_eq_some hg).elim (hn _) h.future_lt }
  -- An operation that gives a name a meaning takes it from another name, so that only a new promise
  -- and a first outcome have to be looked at.
  cases op with
  | new p =>
    exact
      { handle_lt := fun hq => (rename_eq_some hq).elim
          (fun heq => Option.some.inj heq ▸ Nat.lt_succ_self _)
          fun hq => Nat.lt_succ_of_lt (h.handle_lt hq)
        future_lt := fun hf => Nat.lt_succ_of_lt (h.future_lt hf)
        offers_eq := fun hn => h.offers_eq (Nat.le_of_succ_le hn) }
  | clone p q =>
    simp only [Annals.add]
    split
    · exact h
    · next n hp => exact hhandle fun m hm => h.handle_lt (hp.trans hm)
  | drop p => exact hhandle nofun
  | future p f =>
    simp only [Annals.add]
    split
    · exact h
    · next n hp => exact hfuture fun m hm => h.handle_lt (hp.trans hm)
  | cloneFuture f g =>
    simp only [Annals.add]
    split
    · exact h
    · next n hf => exact hfuture fun m hm => h.future_lt (hf.trans hm)
  | dropFuture f => exact hfuture nofun
  | complete p o =>
    simp only [Annals.add]
    split
    · exact h
    · next n hp =>
      refine { h with offers_eq := fun {m} hm => ?_ }
      -- A handle belongs to a promise that was made, and `m` was not.
      have hne : m ≠ n := fun heq => Nat.not_lt.2 hm (by rw [heq]; exact h.handle_lt hp)
      simp only [if_neg hne]
      exact h.offers_eq hm
  | same p q => exact h
  | await f => exact { h with }
  | poll f => exact h
  | peek f => exact h

/-- An operation brings a promise one more outcome at most, and only by one of its handles. -/
theorem offers_add (a : Annals η ν) (op : Op η ν) (n : Nat) :
    (a.add op).offers n = a.offers n ∨
      ∃ p o, op = .complete p o ∧ a.handle p = some n ∧
        (a.add op).offers n = a.offers n ++ [o] := by
  cases op with
  | complete p o =>
    simp only [add]
    split
    · exact .inl rfl
    · next m hp =>
      by_cases heq : n = m
      · exact .inr ⟨p, o, rfl, heq ▸ hp, if_pos heq⟩
      · exact .inl (if_neg heq)
  | clone p q => simp only [add]; split <;> exact .inl rfl
  | future p f => simp only [add]; split <;> exact .inl rfl
  | cloneFuture f g => simp only [add]; split <;> exact .inl rfl
  | _ => exact .inl rfl

/-- A handle belongs to a new promise, or to one that had a handle before. -/
theorem handle_add {op : Op η ν} {q : η} {n : Nat} (h : (a.add op).handle q = some n) :
    n = a.made ∨ ∃ p, a.handle p = some n := by
  cases op with
  | new p => exact (rename_eq_some h).imp (fun heq => (Option.some.inj heq).symm) fun hq => ⟨q, hq⟩
  | clone p q' =>
    simp only [add] at h
    split at h
    · exact .inr ⟨q, h⟩
    · next m hp =>
      exact .inr ((rename_eq_some h).elim (fun heq => ⟨p, hp.trans heq⟩) fun hq => ⟨q, hq⟩)
  | drop p => exact (rename_eq_some h).elim nofun fun hq => .inr ⟨q, hq⟩
  | future p f => simp only [add] at h; split at h <;> exact .inr ⟨q, h⟩
  | cloneFuture f g => simp only [add] at h; split at h <;> exact .inr ⟨q, h⟩
  | complete p o => simp only [add] at h; split at h <;> exact .inr ⟨q, h⟩
  | _ => exact .inr ⟨q, h⟩

/-- Promises are only ever added. -/
theorem made_le_add (a : Annals η ν) (op : Op η ν) : a.made ≤ (a.add op).made := by
  cases op with
  | new p => exact Nat.le_succ _
  | clone p q => simp only [add]; split <;> exact Nat.le_refl _
  | future p f => simp only [add]; split <;> exact Nat.le_refl _
  | cloneFuture f g => simp only [add]; split <;> exact Nat.le_refl _
  | complete p o => simp only [add]; split <;> exact Nat.le_refl _
  | _ => exact Nat.le_refl _

end Annals

theorem numbered_annals (h : List (Op η ν)) : (annals h).Numbered := by
  induction h using List.reverseRecOn with
  | nil => exact .empty
  | append_singleton h op ih => exact annals_concat h op ▸ ih.add op

theorem Seen.lt_made {h : List (Op η ν)} {n : Nat} (hseen : Seen h n) : n < (annals h).made := by
  induction h using List.reverseRecOn with
  | nil =>
    obtain ⟨h₁, op, f, o, hpre, -⟩ := hseen
    simp at hpre
  | append_singleton h op ih =>
    rw [annals_concat]
    refine Nat.lt_of_lt_of_le ?_ ((annals h).made_le_add op)
    rcases (seen_concat h op n).1 hseen with hseen | ⟨f, o, -, hf, -⟩
    · exact ih hseen
    · exact (numbered_annals h).future_lt hf

variable {a : Annals η ν} {n : Nat}

/-- What a promise has come to stays as it is. -/
theorem Standing.add {o : Outcome ν} (hn : n < a.made) (h : Standing a n (some o))
    (op : Op η ν) : Standing (a.add op) n (some o) := by
  cases h with
  | completed o later hoffers =>
    rcases a.offers_add op n with heq | ⟨p, o', -, -, heq⟩
    · exact .completed o later (heq.trans hoffers)
    · exact .completed o (later ++ [o']) (heq.trans (by rw [hoffers]; rfl))
  | dropped hoffers hnone =>
    -- Nobody can complete it, and no handle comes back.
    rcases a.offers_add op n with heq | ⟨p, o', -, hp, -⟩
    · refine .dropped (heq.trans hoffers) fun q hq => ?_
      rcases a.handle_add hq with rfl | ⟨p, hp⟩
      · exact Nat.lt_irrefl _ hn
      · exact hnone p hp
    · exact absurd hp (hnone p)

/-- What a promise has come to stays as it is, whatever follows. -/
theorem Standing.append {h : List (Op η ν)} {o : Outcome ν} (hn : n < (annals h).made)
    (hstanding : Standing (annals h) n (some o)) (h' : List (Op η ν)) :
    Standing (annals (h ++ h')) n (some o) ∧ n < (annals (h ++ h')).made := by
  induction h' using List.reverseRecOn with
  | nil => exact (List.append_nil h).symm ▸ ⟨hstanding, hn⟩
  | append_singleton h' op ih =>
    rw [← List.append_assoc, annals_concat]
    exact ⟨ih.1.add ih.2 op, Nat.lt_of_lt_of_le ih.2 (Annals.made_le_add _ op)⟩

omit [BEq η] in
/-- What a promise has come to hangs on its outcomes and on the handles alone. -/
theorem Standing.congr {a' : Annals η ν} {o? : Option (Outcome ν)}
    (h : Standing a n o?) (hoffers : a'.offers n = a.offers n) (hhandle : a'.handle = a.handle) :
    Standing a' n o? := by
  cases h with
  | completed o later ho => exact .completed o later (hoffers.trans ho)
  | dropped ho hnone => exact .dropped (hoffers.trans ho) (hhandle ▸ hnone)
  | pending p ho hp => exact .pending p (hoffers.trans ho) (hhandle ▸ hp)

omit [BEq η] in
/-- One promise has come to one thing. -/
theorem Standing.unique {o? o'? : Option (Outcome ν)} (h : Standing a n o?)
    (h' : Standing a n o'?) : o? = o'? := by
  cases h <;> cases h' <;> simp_all

omit [BEq η] in
/-- A promise that has come to an outcome is pending no more. -/
theorem Standing.not_pending {o : Outcome ν} (h : Standing a n (some o)) :
    ¬ Standing a n none := fun hpending => Option.some_ne_none o (h.unique hpending)

/-- What a promise comes to when a name gets another meaning: it is given up if that was its last
handle. -/
theorem Standing.rename [LawfulBEq η] {a' : Annals η ν} {p : η} {n? : Option Nat}
    {x : Promise ν} (h : Standing a n x.outcome?) (hoffers : a'.offers n = a.offers n)
    (hhandle : a'.handle = rename a.handle p n?) (hknown : n? = some n → ∃ q, a.handle q = some n)
    {gone : Prop} [Decidable gone]
    (hgone : gone ↔ a.handle p = some n ∧ ¬ ∃ q, a'.handle q = some n) :
    Standing a' n (if gone then x.complete (.error Promise.dropped) else x).outcome? := by
  have hother {q : η} (hq : a'.handle q = some n) : ∃ q, a.handle q = some n := by
    rw [hhandle] at hq
    exact (Annals.rename_eq_some hq).elim hknown fun hq => ⟨q, hq⟩
  generalize ho? : x.outcome? = o? at h
  cases h with
  | completed o later ho =>
    -- A promise that has been completed does not take the error.
    have hsame : (if gone then x.complete (.error Promise.dropped) else x).outcome? = some o := by
      split <;> simp [Promise.complete, ho?]
    rw [hsame]
    exact .completed o later (hoffers.trans ho)
  | dropped ho hnone =>
    rw [if_neg fun hg => hnone p (hgone.1 hg).1, ho?]
    exact .dropped (hoffers.trans ho) fun q hq => (hother hq).elim hnone
  | pending q ho hq =>
    -- A pending promise is given up if no name is left.
    by_cases hleft : ∃ q', a'.handle q' = some n
    · obtain ⟨q', hq'⟩ := hleft
      rw [if_neg fun hg => (hgone.1 hg).2 ⟨q', hq'⟩, ho?]
      exact .pending q' (hoffers.trans ho) hq'
    · -- The name that has got another meaning was the last handle.
      have hp : a.handle p = some n := by
        by_cases heq : p = q
        · exact heq ▸ hq
        · exact absurd ⟨q, by rw [hhandle, Promises.rename, if_neg (by simpa using heq), hq]⟩ hleft
      rw [if_pos (hgone.2 ⟨hp, hleft⟩)]
      have hdropped : (x.complete (.error Promise.dropped)).outcome? =
          some (.error Promise.dropped) := by simp [Promise.complete, ho?]
      rw [hdropped]
      exact .dropped (hoffers.trans ho) fun q' hq' => hleft ⟨q', hq'⟩

end Annals

end CacheLayer.Promises
