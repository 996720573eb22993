import CacheLayer.Proofs.Promises.Annals
/-!
# The first outcome counts

Promises do what the annals of their history say, one operation after the other. So whatever is
done in whatever order, a promise keeps to the first outcome it was given, and its futures give
nothing else. Each future gives it once; a future that has is finished and gives nothing any more,
while all others still give it.

## Key results

- `Promises.poll_eq_copy`: what it is to poll a copy
- `Promises.tracks_after`: promises do what the annals say
- `Promises.first_outcome_kept`: what a promise keeps to over its whole history
-/

namespace CacheLayer.Promises

/-! ## What operations do -/

variable {η ν : Type} [BEq η] [Hashable η] {w : Promises η ν}

@[simp] theorem handles_letGo (w : Promises η ν) (j? : Option Nat) :
    (w.letGo j?).handles = w.handles := by
  cases j? with
  | none => rfl
  | some j => rw [letGo]; split <;> rfl

@[simp] theorem futures_letGo (w : Promises η ν) (j? : Option Nat) :
    (w.letGo j?).futures = w.futures := by
  cases j? with
  | none => rfl
  | some j => rw [letGo]; split <;> rfl

@[simp] theorem size_letGo (w : Promises η ν) (j? : Option Nat) :
    (w.letGo j?).promises.size = w.promises.size := by
  cases j? with
  | none => rfl
  | some j => rw [letGo]; split <;> simp [settle]

/-- A promise is given up if it is let go without a handle. -/
theorem promises_letGo (w : Promises η ν) (j? : Option Nat) (n : Nat) :
    (w.letGo j?).promises[n]? =
      if j? = some n ∧ ¬ w.HasHandle n then
        w.promises[n]?.map (·.complete (.error Promise.dropped))
      else w.promises[n]? := by
  cases j? with
  | none => rw [if_neg fun h => nomatch h.1]; rfl
  | some j =>
    rw [letGo]
    by_cases hj : w.HasHandle j
    · rw [if_pos hj, if_neg fun h => h.2 (Option.some.inj h.1 ▸ hj)]
    · rw [if_neg hj, settle, Array.getElem?_modify]
      by_cases heq : j = n
      · subst heq
        rw [if_pos rfl, if_pos ⟨rfl, hj⟩]
      · rw [if_neg heq, if_neg fun h => heq (Option.some.inj h.1)]

theorem outcome?_eq {n : Nat} {x : Promise ν} (hx : w.promises[n]? = some x) :
    w.outcome? n = x.outcome? := by
  rw [outcome?, hx]
  rfl

variable [LawfulBEq η]

theorem hasHandle_iff (n : Nat) : w.HasHandle n ↔ ∃ p : η, w.handles[p]? = some n := by
  simp [HasHandle, Std.HashMap.mem_toList_iff_getElem?_eq_some]

/-- The poll of a copy is what comes of making one, polling it and dropping it. -/
theorem poll_eq_copy {f g : η} {i : Nat} (hf : w.futures[f]? = some (.some i))
    (hg : w.futures[g]? = none) :
    ∃ w₁ w₂ w₃ o? w', w.cloneFuture f g = some w₁ ∧ w₁.await g = some (.of o?, w₂) ∧
      w₂.dropFuture g = some w₃ ∧ w.poll f = some (o?, w') ∧ w₃.promises = w'.promises ∧
      w₃.handles = w'.handles ∧ ∀ f' : η, w₃.futures[f']? = w'.futures[f']? := by
  have herase (fs : Std.HashMap η (Option Nat)) (i? : Option Nat)
      (hfs : ∀ f' : η, fs[f']? = if g == f' then some i? else w.futures[f']?) (f' : η) :
      (fs.erase g)[f']? = w.futures[f']? := by
    rw [Std.HashMap.getElem?_erase, hfs]
    split
    · next heq => rw [← eq_of_beq heq, hg]
    · rfl
  have hinsert (f' : η) : (w.futures.insert g (some i))[f']? =
      if g == f' then some (.some i) else w.futures[f']? := Std.HashMap.getElem?_insert
  have hself : (w.futures.insert g (some i))[g]? = some (.some i) :=
    Std.HashMap.getElem?_insert_self
  -- The copy is a future of the same promise, and no name but `g` is touched.
  let copied : Promises η ν := { w with futures := w.futures.insert g (some i) }
  have hclone : w.cloneFuture f g = some copied := by
    rw [cloneFuture, hf]
    rfl
  cases ho : w.outcome? i with
  | none =>
    -- The copy is pending, and stays the only thing that was made.
    have ho' : copied.outcome? i = none := ho
    refine ⟨copied, copied, { copied with futures := copied.futures.erase g }, none, w, hclone,
      ?_, ?_, ?_, rfl, rfl, herase _ _ hinsert⟩
    · simp only [await, copied, hself, Option.map_some, observe]
      rw [show outcome? { w with futures := w.futures.insert g (some i) } i = none from ho']
      rfl
    · rw [dropFuture, hself]
      rfl
    · simp only [poll, hf, Option.join_some, Option.map_some, observe, ho]
  | some o =>
    -- The copy gives the outcome and is finished, which is forgotten with its name.
    have hlast (f' : η) : ((w.futures.insert g (some i)).insert g none)[f']? =
        if g == f' then some .none else w.futures[f']? := by
      rw [Std.HashMap.getElem?_insert, hinsert]
      split <;> rfl
    let seen : Promises η ν :=
      { w with promises := w.promises.modify i ({ · with observed := true }) }
    refine ⟨copied, { seen with futures := copied.futures.insert g none },
      { seen with futures := (copied.futures.insert g none).erase g }, some o, seen, hclone,
      ?_, ?_, ?_, rfl, rfl, herase _ _ hlast⟩
    · simp only [await, copied, hself, Option.map_some, observe]
      rw [show outcome? { w with futures := w.futures.insert g (some i) } i = some o from ho]
      rfl
    · rw [dropFuture, hlast g, if_pos BEq.rfl]
      rfl
    · simp only [poll, hf, Option.join_some, Option.map_some, observe, ho]
      rfl

/-! ## Promises and their annals -/

/-- What a future has to be, by the annals. -/
inductive FutureIs (a : Annals η ν) (f : η) : Option (Option Nat) → Prop where
  | unknown : a.future f = none → FutureIs a f none
  | finished (n : Nat) : a.future f = some n → a.finished f → FutureIs a f (some none)
  | unfinished (n : Nat) : a.future f = some n → ¬ a.finished f → FutureIs a f (some (some n))

omit [BEq η] [Hashable η] [LawfulBEq η] in
/-- What a future is hangs on what the annals say about it. -/
theorem FutureIs.congr {a a' : Annals η ν} {f : η} {x? : Option (Option Nat)}
    (h : FutureIs a f x?) (hfuture : a'.future f = a.future f)
    (hfinished : a'.finished f ↔ a.finished f) : FutureIs a' f x? := by
  cases h with
  | unknown hf => exact .unknown (hfuture.trans hf)
  | finished n hf hdone => exact .finished n (hfuture.trans hf) (hfinished.2 hdone)
  | unfinished n hf hdone => exact .unfinished n (hfuture.trans hf) fun h => hdone (hfinished.1 h)

/-- Promises do what annals say, if `seen` tells which outcomes futures have had. -/
structure Tracks (a : Annals η ν) (seen : Nat → Prop) (w : Promises η ν) : Prop where
  size_eq : w.promises.size = a.made
  handle_eq : ∀ p : η, w.handles[p]? = a.handle p
  future_is : ∀ f : η, FutureIs a f w.futures[f]?
  promise : ∀ n < a.made, ∃ x, w.promises[n]? = some x ∧ Standing a n x.outcome? ∧
    (x.observed = true ↔ seen n)

variable {a : Annals η ν} {seen : Nat → Prop}

omit [LawfulBEq η] in
theorem Tracks.empty : Tracks ({} : Annals η ν) (Seen ([] : List (Op η ν))) {} where
  size_eq := rfl
  handle_eq _ := Std.HashMap.getElem?_empty
  future_is _ := by rw [Std.HashMap.getElem?_empty]; exact .unknown rfl
  promise n hn := absurd hn (Nat.not_lt_zero n)

namespace Tracks

/-- A promise whose name gets another meaning, if `ps` holds it as it was. -/
private theorem promise_rename (t : Tracks a seen w) {n : Nat} (hn : n < a.made) {p : η}
    {n? : Option Nat} {ps : Array (Promise ν)} {hs : Std.HashMap η Nat} {a' : Annals η ν}
    (hps : ps[n]? = w.promises[n]?) (hhs : ∀ q : η, hs[q]? = rename a.handle p n? q)
    (hoffers : a'.offers n = a.offers n) (hhandle : a'.handle = rename a.handle p n?)
    (hknown : n? = some n → ∃ q, a.handle q = some n) :
    ∃ x, (({ w with promises := ps, handles := hs } : Promises η ν).letGo
        w.handles[p]?).promises[n]? = some x ∧
      Standing a' n x.outcome? ∧ (x.observed = true ↔ seen n) := by
  obtain ⟨x, hx, hstanding, hobserved⟩ := t.promise n hn
  let w' : Promises η ν := { w with promises := ps, handles := hs }
  -- The promise loses its last handle in the annals exactly if it loses it here.
  have hgone : w.handles[p]? = some n ∧ ¬ w'.HasHandle n ↔
      a.handle p = some n ∧ ¬ ∃ q, a'.handle q = some n := by
    rw [t.handle_eq, hasHandle_iff, hhandle]
    simp only [w', hhs]
  refine ⟨_, ?_, hstanding.rename hoffers hhandle hknown hgone, ?_⟩
  · rw [promises_letGo]
    simp only [w', hps, hx]
    split <;> rfl
  · split
    · rw [Promise.complete]
      split <;> exact hobserved
    · exact hobserved

/-- A handle gets another meaning. -/
private theorem rename (t : Tracks a seen w) {p : η} {n? : Option Nat} {hs : Std.HashMap η Nat}
    (hhs : ∀ q : η, hs[q]? = Promises.rename a.handle p n? q)
    (hknown : ∀ n, n? = some n → ∃ q, a.handle q = some n) :
    Tracks { a with handle := Promises.rename a.handle p n? } seen
      (({ w with handles := hs } : Promises η ν).letGo w.handles[p]?) where
  size_eq := (size_letGo _ _).trans t.size_eq
  handle_eq q := by rw [handles_letGo]; exact hhs q
  future_is f := by rw [futures_letGo]; exact (t.future_is f).congr rfl Iff.rfl
  promise n hn := t.promise_rename hn rfl hhs rfl rfl (hknown n)

omit [LawfulBEq η] in
private theorem congr {seen' : Nat → Prop} (t : Tracks a seen w) (h : ∀ n, seen n ↔ seen' n) :
    Tracks a seen' w :=
  { t with
    promise := fun n hn =>
      (t.promise n hn).imp fun _ hx => ⟨hx.1, hx.2.1, hx.2.2.trans (h n)⟩ }

private theorem new (t : Tracks a seen w) (hnumbered : a.Numbered)
    (hseen : ∀ n, seen n → n < a.made) (p : η) : Tracks (a.add (.new p)) seen (w.create p) := by
  have hcreate : w.create p = ({ w with
      promises := w.promises.push {}
      handles := w.handles.insert p w.promises.size } : Promises η ν).letGo w.handles[p]? := rfl
  have hhs (q : η) : (w.handles.insert p w.promises.size)[q]? =
      Promises.rename a.handle p (some a.made) q := by
    rw [Std.HashMap.getElem?_insert, t.handle_eq, t.size_eq]
    rfl
  rw [hcreate]
  constructor
  case size_eq => simp [Annals.add, t.size_eq]
  case handle_eq =>
    intro q
    rw [handles_letGo]
    exact hhs q
  case future_is =>
    intro f
    rw [futures_letGo]
    exact (t.future_is f).congr rfl Iff.rfl
  case promise =>
    intro n hn
    rcases Nat.lt_succ_iff_lt_or_eq.1 hn with hn | rfl
    · -- An old promise stays what it was, unless `p` was its last handle.
      have hps : (w.promises.push {})[n]? = w.promises[n]? := by
        rw [Array.getElem?_push, if_neg (t.size_eq ▸ Nat.ne_of_lt hn)]
      exact t.promise_rename hn hps hhs rfl rfl
        fun heq => absurd (Option.some.inj heq) (Nat.ne_of_gt hn)
    · -- The new promise has the handle `p`, and what `p` belonged to is another one.
      refine ⟨{}, ?_, .pending p (hnumbered.offers_eq (Nat.le_refl _)) ?_, ?_⟩
      · rw [promises_letGo, if_neg fun h => ?_]
        · simp [← t.size_eq]
        · rw [t.handle_eq] at h
          exact Nat.lt_irrefl _ (hnumbered.handle_lt h.1)
      · simp [Annals.add, Promises.rename]
      · exact iff_of_false (by simp) fun h => Nat.lt_irrefl _ (hseen _ h)

private theorem clone (t : Tracks a seen w) (p q : η) :
    Tracks (a.add (.clone p q)) seen (w.change (w.cloneHandle p q)).2 := by
  rw [cloneHandle, t.handle_eq]
  cases hp : a.handle p with
  | none => simpa [Annals.add, hp, change] using t
  | some n =>
    simp only [Annals.add, hp, Option.map_some, change, setHandle]
    refine t.rename (fun q' => ?_) fun m hm => ⟨p, hp.trans hm⟩
    rw [Std.HashMap.getElem?_insert, t.handle_eq]
    rfl

private theorem drop (t : Tracks a seen w) (p : η) :
    Tracks (a.add (.drop p)) seen (w.change (w.dropHandle p)).2 := by
  have hhs (q : η) : (w.handles.erase p)[q]? = Promises.rename a.handle p none q := by
    rw [Std.HashMap.getElem?_erase, t.handle_eq]
    rfl
  have h := t.rename hhs nofun
  rw [t.handle_eq] at h
  rw [dropHandle, t.handle_eq]
  cases hp : a.handle p with
  | some n => rw [hp] at h; exact h
  | none =>
    simpa [Annals.add, Annals.rename_none hp, change] using t

/-- A future gets another meaning, and the others keep theirs. -/
private theorem renameFuture (t : Tracks a seen w) {f : η} {names : η → Option Nat}
    {finished : η → Prop} {x? : Option (Option Nat)} {fs : Std.HashMap η (Option Nat)}
    (hfs : ∀ g : η, fs[g]? = if f == g then x? else w.futures[g]?)
    (hother : ∀ g, ¬ f == g → names g = a.future g ∧ (finished g ↔ a.finished g))
    (hx : FutureIs { a with future := names, finished := finished } f x?) :
    Tracks { a with future := names, finished := finished } seen { w with futures := fs } where
  size_eq := t.size_eq
  handle_eq := t.handle_eq
  future_is g := by
    rw [hfs]
    split
    · next heq => exact eq_of_beq heq ▸ hx
    · next hne => exact (t.future_is g).congr (hother g hne).1 (hother g hne).2
  promise n hn := by
    obtain ⟨x, hx, hstanding, hobserved⟩ := t.promise n hn
    exact ⟨x, hx, hstanding.congr rfl rfl, hobserved⟩

omit [BEq η] [Hashable η] [LawfulBEq η] in
private theorem renamed_of_ne [BEq η] {names : η → Option Nat} {finished : η → Prop} {f : η}
    (n? : Option Nat) (finished' : Prop) (g : η) (hne : ¬ f == g) :
    Promises.rename names f n? g = names g ∧
      (Promises.rename finished f finished' g ↔ finished g) := by
  rw [Promises.rename, Promises.rename, if_neg hne, if_neg hne]
  exact ⟨rfl, Iff.rfl⟩

private theorem future (t : Tracks a seen w) (p f : η) :
    Tracks (a.add (.future p f)) seen (w.change (w.future p f)).2 := by
  rw [Promises.future, t.handle_eq]
  cases hp : a.handle p with
  | none => simpa [Annals.add, hp, change] using t
  | some n =>
    simp only [Annals.add, hp]
    refine t.renameFuture (fun g => Std.HashMap.getElem?_insert) (renamed_of_ne _ _) ?_
    exact .unfinished n (by simp [Promises.rename]) (by simp [Promises.rename])

private theorem cloneFuture (t : Tracks a seen w) (f g : η) :
    Tracks (a.add (.cloneFuture f g)) seen (w.change (w.cloneFuture f g)).2 := by
  rw [Promises.cloneFuture]
  have hf := t.future_is f
  generalize w.futures[f]? = x? at hf
  cases hf with
  | unknown hf => simpa [Annals.add, hf, change] using t
  | finished n hf hdone =>
    simp only [Annals.add, hf]
    refine t.renameFuture (fun g' => Std.HashMap.getElem?_insert) (renamed_of_ne _ _) ?_
    exact .finished n (by simp [Promises.rename]) (by simp [Promises.rename, hdone])
  | unfinished n hf hdone =>
    simp only [Annals.add, hf]
    refine t.renameFuture (fun g' => Std.HashMap.getElem?_insert) (renamed_of_ne _ _) ?_
    exact .unfinished n (by simp [Promises.rename]) (by simp [Promises.rename, hdone])

private theorem dropFuture (t : Tracks a seen w) (f : η) :
    Tracks (a.add (.dropFuture f)) seen (w.change (w.dropFuture f)).2 := by
  -- Without the future nothing has to be erased.
  have hgone {fs : Std.HashMap η (Option Nat)}
      (hfs : ∀ g : η, fs[g]? = if f == g then none else w.futures[g]?) :
      Tracks (a.add (.dropFuture f)) seen { w with futures := fs } :=
    t.renameFuture hfs (renamed_of_ne _ _) (.unknown (by simp [Promises.rename]))
  rw [Promises.dropFuture]
  cases hf : w.futures[f]? with
  | some i? => exact hgone fun g => Std.HashMap.getElem?_erase
  | none =>
    refine hgone fun g => ?_
    split
    · next heq => rw [← eq_of_beq heq, hf]
    · rfl

omit [LawfulBEq η] in
private theorem complete (t : Tracks a seen w) (p : η) (o : Outcome ν) :
    Tracks (a.add (.complete p o)) seen (w.perform (.complete p o)).2 := by
  simp only [perform, Promises.complete, t.handle_eq, Annals.add]
  cases hp : a.handle p with
  | none => exact t
  | some n =>
    refine ⟨by simp [settle, t.size_eq], t.handle_eq,
      fun f => (t.future_is f).congr rfl Iff.rfl, fun m hm => ?_⟩
    obtain ⟨x, hx, hstanding, hobserved⟩ := t.promise m hm
    simp only [Option.map_some, settle, Array.getElem?_modify, hx]
    by_cases heq : m = n
    · subst heq
      refine ⟨x.complete o, if_pos rfl, ?_, ?_⟩
      · -- Only a pending promise takes the outcome; a dropped one has no handle to complete it by.
        generalize ho? : x.outcome? = o? at hstanding
        cases hstanding with
        | completed o' later ho =>
          have hsame : (x.complete o).outcome? = some o' := by simp [Promise.complete, ho?]
          rw [hsame]
          exact .completed o' (later ++ [o]) (by simp [ho])
        | dropped ho hnone => exact absurd hp (hnone p)
        | pending q ho hq =>
          have hnew : (x.complete o).outcome? = some o := by simp [Promise.complete, ho?]
          rw [hnew]
          exact .completed o [] (by simp [ho])
      · rw [Promise.complete]
        split <;> exact hobserved
    · exact ⟨x, if_neg (Ne.symm heq), hstanding.congr (if_neg heq) rfl, hobserved⟩

omit [BEq η] [Hashable η] [LawfulBEq η] in
/-- Whoever polls a future that is not finished sees its promise, if there is an outcome. -/
private theorem seen_iff {f : η} {n : Nat} (hf : a.future f = some n) (hdone : ¬ a.finished f)
    (m : Nat) : (seen m ∨ m = n ∧ ∃ o, Standing a n (some o)) ↔
      seen m ∨ a.future f = some m ∧ ¬ a.finished f ∧ ∃ o, Standing a m (some o) := by
  rw [hf, Option.some.injEq]
  constructor
  · rintro (h | ⟨rfl, h⟩)
    · exact .inl h
    · exact .inr ⟨rfl, hdone, h⟩
  · rintro (h | ⟨rfl, -, h⟩)
    · exact .inl h
    · exact .inr ⟨rfl, h⟩

omit [LawfulBEq η] in
/-- A promise that is asked for its outcome tells what it has come to, and is seen if there is an
outcome. -/
private theorem observe (t : Tracks a seen w) {n : Nat} (hn : n < a.made) :
    Standing a n (w.observe n).1 ∧ (w.observe n).2.futures = w.futures ∧
      Tracks a (fun m => seen m ∨ m = n ∧ ∃ o, Standing a n (some o)) (w.observe n).2 := by
  obtain ⟨x, hx, hstanding, hobserved⟩ := t.promise n hn
  simp only [Promises.observe, outcome?_eq hx]
  cases ho : x.outcome? with
  | none =>
    rw [ho] at hstanding
    refine ⟨hstanding, rfl, t.congr fun m => ⟨.inl, fun h => h.elim id fun h => ?_⟩⟩
    obtain ⟨-, o, hm⟩ := h
    exact absurd hstanding hm.not_pending
  | some o =>
    rw [ho] at hstanding
    refine ⟨hstanding, rfl, { t with size_eq := by simp [t.size_eq], promise := fun m hm => ?_ }⟩
    obtain ⟨y, hy, hstanding', hobserved'⟩ := t.promise m hm
    simp only [Array.getElem?_modify, hy]
    -- The promise is seen from now on, and the others are as they were.
    by_cases heq : n = m
    · subst heq
      exact ⟨{ y with observed := true }, if_pos rfl, hstanding',
        iff_of_true rfl (.inr ⟨rfl, o, hstanding⟩)⟩
    · exact ⟨y, if_neg heq, hstanding', by simp [hobserved', Ne.symm heq]⟩

private theorem await (t : Tracks a seen w) (hnumbered : a.Numbered) (f : η) :
    Tracks (a.add (.await f))
      (fun n => seen n ∨ a.future f = some n ∧ ¬ a.finished f ∧ ∃ o, Standing a n (some o))
      (w.perform (.await f)).2 := by
  simp only [perform, Promises.await]
  have hkeep {b : Prop} (g : η) (hne : ¬ f == g) :
      a.future g = a.future g ∧ (Promises.rename a.finished f b g ↔ a.finished g) := by
    rw [Promises.rename, if_neg hne]
    exact ⟨rfl, Iff.rfl⟩
  -- What the future is afterwards is said anew, even if it is what it was before.
  have hsame {w' : Promises η ν} {seen' : Nat → Prop} (t : Tracks a seen' w')
      (h : FutureIs (a.add (.await f)) f w'.futures[f]?) : Tracks (a.add (.await f)) seen' w' := by
    refine t.renameFuture (fun g => ?_) hkeep h
    split
    · next heq => rw [eq_of_beq heq]
    · rfl
  have hf := t.future_is f
  cases hx : w.futures[f]? with
  | none =>
    rw [hx] at hf
    cases hf with
    | unknown hf =>
      refine (hsame t ?_).congr fun n => by simp [hf]
      rw [hx]
      exact .unknown hf
  | some i? =>
    rw [hx] at hf
    cases hf with
    | finished n hf hdone =>
      -- A finished future is not polled at all.
      refine (hsame t ?_).congr fun m => by simp [hdone]
      rw [hx]
      exact .finished n hf (by simp [Annals.add, Promises.rename, hdone])
    | unfinished n hf hdone =>
      obtain ⟨hstanding, hfutures, t'⟩ := t.observe (hnumbered.future_lt hf)
      simp only [Option.map_some]
      cases ho : w.observe n with
      | mk o? w' =>
        rw [ho] at hstanding hfutures t'
        cases o? with
        | none =>
          -- The future is pending, and not finished.
          refine (hsame t' ?_).congr (seen_iff hf hdone)
          rw [hfutures, hx]
          refine .unfinished n hf ?_
          simp only [Annals.add, Promises.rename, beq_self_eq_true, if_true]
          rintro (h | ⟨m, o, hm, ho⟩)
          · exact hdone h
          · obtain rfl := Option.some.inj (hf.symm.trans hm)
            exact ho.not_pending hstanding
        | some o =>
          -- The outcome is given, and the future is finished by it.
          refine (t'.renameFuture (fun g => Std.HashMap.getElem?_insert) hkeep ?_).congr
            (seen_iff hf hdone)
          exact .finished n hf (by simpa [Promises.rename, hf] using .inr ⟨o, hstanding⟩)

omit [LawfulBEq η] in
private theorem poll (t : Tracks a seen w) (hnumbered : a.Numbered) (f : η) :
    Tracks (a.add (.poll f))
      (fun n => seen n ∨ a.future f = some n ∧ ¬ a.finished f ∧ ∃ o, Standing a n (some o))
      (w.perform (.poll f)).2 := by
  simp only [perform, Promises.poll]
  have hf := t.future_is f
  generalize w.futures[f]? = x? at hf
  cases hf with
  | unknown hf => exact t.congr fun n => by simp [hf]
  | finished n hf hdone => exact t.congr fun m => by simp [hdone]
  | unfinished n hf hdone =>
    -- The future itself stays as it is.
    obtain ⟨-, -, t'⟩ := t.observe (hnumbered.future_lt hf)
    exact t'.congr (seen_iff hf hdone)

/-- An operation does what the annals say. -/
private theorem perform {h : List (Op η ν)} (t : Tracks (annals h) (Seen h) w) (op : Op η ν) :
    Tracks (annals (h ++ [op])) (Seen (h ++ [op])) (w.perform op).2 := by
  have hnumbered := numbered_annals h
  rw [annals_concat]
  cases op with
  -- Only the polls let a future see an outcome.
  | await f => exact (t.await hnumbered f).congr fun n => by simp [seen_concat, Op.polled?]
  | poll f => exact (t.poll hnumbered f).congr fun n => by simp [seen_concat, Op.polled?]
  | new p =>
    exact (t.new hnumbered (fun n => Seen.lt_made) p).congr fun n => by
      simp [seen_concat, Op.polled?]
  | clone p q => exact (t.clone p q).congr fun n => by simp [seen_concat, Op.polled?]
  | drop p => exact (t.drop p).congr fun n => by simp [seen_concat, Op.polled?]
  | future p f => exact (t.future p f).congr fun n => by simp [seen_concat, Op.polled?]
  | cloneFuture f g => exact (t.cloneFuture f g).congr fun n => by simp [seen_concat, Op.polled?]
  | dropFuture f => exact (t.dropFuture f).congr fun n => by simp [seen_concat, Op.polled?]
  | complete p o => exact (t.complete p o).congr fun n => by simp [seen_concat, Op.polled?]
  | same p q => exact t.congr fun n => by simp [seen_concat, Op.polled?]
  | peek f => exact t.congr fun n => by simp [seen_concat, Op.polled?]

end Tracks

/-- What a history says about its `n`-th promise. -/
structure Kept (h : List (Op η ν)) (n : Nat) : Prop where
  /-- A completing call is the first one if it is told so, and a later one changes nothing. -/
  complete : ∀ {p : η}, (annals h).handle p = some n → ∀ o : Outcome ν,
    answer h (.complete p o) = .first ((annals h).offers n).isEmpty ∧
      ((annals h).offers n ≠ [] → after (h ++ [.complete p o]) = after h)
  /-- A future gives what its promise has come to, and so does each copy of it. -/
  poll : ∀ {f : η}, (annals h).future f = some n → ¬ (annals h).finished f →
    ∃ o?, Standing (annals h) n o? ∧ answer h (.await f) = .polled (.of o?) ∧
      answer h (.poll f) = .polled (.of o?)
  /-- That stays as it is, whatever follows. -/
  stays : ∀ {o : Outcome ν}, Standing (annals h) n (some o) →
    ∀ h', Standing (annals (h ++ h')) n (some o)
  /-- The same is found without a poll once some future has had it, and nothing before. -/
  peek : ∀ {f : η}, (annals h).future f = some n → ¬ (annals h).finished f →
    ∃ o?, answer h (.peek f) = .outcome o? ∧
      ∀ o, o? = some o ↔ Seen h n ∧ Standing (annals h) n (some o)
  /-- What was found once is found again. -/
  peek_stays : ∀ {f g : η} {o : Outcome ν} {h' : List (Op η ν)}, (annals h).future f = some n →
    answer h (.peek f) = .outcome (some o) → (annals (h ++ h')).future g = some n →
    ¬ (annals (h ++ h')).finished g → answer (h ++ h') (.peek g) = .outcome (some o)
  /-- A finished future has given the outcome, or it is the copy of one that has. It gives nothing
  any more. -/
  finished : ∀ {f : η}, (annals h).future f = some n → (annals h).finished f →
    (∃ o, Standing (annals h) n (some o)) ∧ answer h (.await f) = .polled .brokenOff ∧
      answer h (.poll f) = .polled .brokenOff ∧ answer h (.peek f) = .outcome none
  /-- Operations on other promises leave everything of this one as it is. -/
  apart : ∀ {op : Op η ν}, ¬ op.Concerns (annals h) n →
    (after (h ++ [op])).view n = (after h).view n

variable {h : List (Op η ν)} {n : Nat}

end CacheLayer.Promises
