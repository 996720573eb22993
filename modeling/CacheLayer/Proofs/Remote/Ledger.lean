import CacheLayer.Proofs.Gathering
import CacheLayer.Proofs.Remote.Exchange
/-!
# A server is a map with deadlines and tokens

The requests of a server as data, each made at an instant. A server keeps an item whose deadline has
come until something is written over it or it is deleted, and has to treat it as absent in the
meantime. The `Ledger` forgets an item at the very moment its deadline comes. As long as time does
not go back, no requests tell the two apart.

## Key results

- `Server.Shows.perform`: one request of a server is the same request of its ledger
- `Server.perform_cases`: what a request can do to a server
- `Server.refines_ledger`: answers, tokens, and what a write that asks for a token depends on
-/

namespace CacheLayer.Remote

/-! ## Requests as data -/

namespace Server

/-- A request, or the switch by which a server is made unavailable or available. -/
inductive Op where
  | get (key : String)
  | gets (key : String)
  | bulkGet (keys : List String)
  | set (key : String) (expiration : Nat) (data : ByteArray)
  | add (key : String) (expiration : Nat) (data : ByteArray)
  | cas (key : String) (token expiration : Nat) (data : ByteArray)
  | delete (key : String)
  | switch (unavailable : Bool)

/-- The answer to a request. -/
inductive Answer where
  | nothing
  | data (d? : Option ByteArray)
  | withToken (p? : Option (ByteArray × Nat))
  /-- What was found for each key. -/
  | found (d? : String → Option ByteArray)
  | done (b : Bool)
  | cas (c : CasAnswer)

/-- Makes a request. -/
def perform (s : Server) (now : Nat) : Op → Outcome Answer × Server
  | .get key => ((s.get now key).map .data, s)
  | .gets key => ((s.gets now key).map .withToken, s)
  | .bulkGet keys => ((s.bulkGet now keys).map fun m => .found fun key => m[key]?, s)
  | .set key expiration data =>
    ((s.set now key expiration data).1.map .done, (s.set now key expiration data).2)
  | .add key expiration data =>
    ((s.add now key expiration data).1.map .done, (s.add now key expiration data).2)
  | .cas key token expiration data =>
    ((s.cas now key token expiration data).1.map .cas, (s.cas now key token expiration data).2)
  | .delete key => ((s.delete now key).1.map .done, (s.delete now key).2)
  | .switch unavailable => (.ok .nothing, { s with unavailable := unavailable })

/-- The server after requests. -/
def run (s : Server) : List (Nat × Op) → Server
  | [] => s
  | (now, op) :: calls => (s.perform now op).2.run calls

/-- Requests with their answers. -/
def trace (s : Server) : List (Nat × Op) → List (Op × Outcome Answer)
  | [] => []
  | (now, op) :: calls => (op, (s.perform now op).1) :: (s.perform now op).2.trace calls

/-- The key whose item a request has written, by its answer. -/
def Op.written? : Op → Outcome Answer → Option String
  | .set key _ _, .ok _ => some key
  | .add key _ _, .ok (.done true) => some key
  | .cas key _ _ _, .ok (.cas .stored) => some key
  | _, _ => none

/-- The key whose item a request has written or deleted, by its answer. What a server refuses
touches nothing, nor does an `add` that finds an item. -/
def Op.touched? : Op → Outcome Answer → Option String
  | .delete key, .ok _ => some key
  | op, answer => op.written? answer

/-- The tokens of the items that requests write, in the order of the writes. -/
def tokens (s : Server) : List (Nat × Op) → List Nat
  | [] => []
  | (now, op) :: calls =>
    let (answer, s') := s.perform now op
    match (op.written? answer).bind fun key => s'.items[key]? with
    | some i => i.token :: s'.tokens calls
    | none => s'.tokens calls

end Server

/-! ## The ledger -/

/-- A map from keys to items, the token given last, and whether requests are refused. -/
structure Ledger where
  item? : String → Option Item := fun _ => none
  lastToken : Nat := 0
  unavailable : Bool := false

namespace Ledger

open Server (Op Answer)

/-- Forgets the items whose deadline has come. -/
def forget (l : Ledger) (now : Nat) : Ledger :=
  { l with item? := fun key => (l.item? key).filter fun i => i.Live now }

/-- Writes an item under the next token. -/
def write (l : Ledger) (now : Nat) (key : String) (expiration : Nat) (data : ByteArray) : Ledger :=
  let deadline? := if expiration = 0 then none else some (now + Span.ofMillis expiration)
  { l with
    item? := fun k => if k = key then some ⟨data, deadline?, l.lastToken + 1⟩ else l.item? k
    lastToken := l.lastToken + 1 }

/-- Drops an item. -/
def drop (l : Ledger) (key : String) : Ledger :=
  { l with item? := fun k => if k = key then none else l.item? k }

/-- Answers a request and becomes another ledger, unless requests are refused. -/
def answering (l : Ledger) (answer : Answer) (l' : Ledger) : Outcome Answer × Ledger :=
  if l.unavailable then (.error (.backend "server unavailable"), l) else (.ok answer, l')

/-- Makes a request of a ledger that has nothing left to forget. -/
def obey (l : Ledger) (now : Nat) : Op → Outcome Answer × Ledger
  | .get key => l.answering (.data ((l.item? key).map Item.data)) l
  | .gets key => l.answering (.withToken ((l.item? key).map fun i => (i.data, i.token))) l
  | .bulkGet keys =>
    l.answering (.found fun key => if key ∈ keys then (l.item? key).map Item.data else none) l
  | .set key expiration data => l.answering (.done true) (l.write now key expiration data)
  | .add key expiration data =>
    match l.item? key with
    | some _ => l.answering (.done false) l
    | none => l.answering (.done true) (l.write now key expiration data)
  | .cas key token expiration data =>
    match l.item? key with
    | none => l.answering (.cas .missing) l
    | some i =>
      if i.token = token then l.answering (.cas .stored) (l.write now key expiration data)
      else l.answering (.cas .changed) l
  | .delete key => l.answering (.done (l.item? key).isSome) (l.drop key)
  | .switch unavailable => (.ok .nothing, { l with unavailable := unavailable })

/-- The ledger after requests. -/
def run (l : Ledger) : List (Nat × Op) → Ledger
  | [] => l
  | (now, op) :: calls => ((l.forget now).obey now op).2.run calls

/-- Requests with their answers. -/
def trace (l : Ledger) : List (Nat × Op) → List (Op × Outcome Answer)
  | [] => []
  | (now, op) :: calls =>
    (op, ((l.forget now).obey now op).1) :: ((l.forget now).obey now op).2.trace calls

end Ledger

/-! ## A server shows a ledger -/

namespace Server

/-- The live items of a server are those of a ledger. -/
structure Shows (s : Server) (now : Nat) (l : Ledger) : Prop where
  item? : ∀ key, s.item? now key = l.item? key
  lastToken : s.lastToken = l.lastToken
  unavailable : s.unavailable = l.unavailable

namespace Shows

variable {s : Server} {now now' : Nat} {l : Ledger}

/-- A new server shows an empty ledger. -/
theorem empty (now : Nat) : ({} : Server).Shows now {} where
  item? key := by rw [Server.item?, Std.HashMap.getElem?_empty, Option.filter_none]
  lastToken := rfl
  unavailable := rfl

/-- What is live later is live now. -/
private theorem live_of_live {i : Item} (hle : now ≤ now') (h : i.Live now') : i.Live now :=
  fun d hd => Nat.lt_of_le_of_lt hle (h d hd)

/-- As time goes by the ledger forgets what the server treats as absent. -/
theorem later (h : s.Shows now l) (hle : now ≤ now') : s.Shows now' (l.forget now') where
  item? key := by
    simp only [Ledger.forget, ← h.item?, Server.item?, Option.filter_filter]
    congr 1
    funext i
    have := live_of_live (i := i) hle
    grind
  lastToken := h.lastToken
  unavailable := h.unavailable

/-- An item that is put is there. -/
theorem put (h : s.Shows now l) (key : String) (expiration : Nat) (data : ByteArray) :
    (s.put now key expiration data).Shows now (l.write now key expiration data) where
  item? k := by
    simp only [Server.item?, Server.put, Ledger.write, Std.HashMap.getElem?_insert, beq_iff_eq]
    by_cases hk : key = k
    · subst hk
      rw [if_pos rfl, if_pos rfl, h.lastToken]
      refine Option.filter_eq_some_iff.2 ⟨rfl, decide_eq_true fun d hd => ?_⟩
      by_cases he : expiration = 0
      · simp [he] at hd
      · simp only [if_neg he, Option.mem_some_iff] at hd
        have : 0 < Span.ofMillis expiration :=
          Nat.mul_pos (Nat.pos_of_ne_zero he) (by decide)
        omega
    · rw [if_neg hk, if_neg (Ne.symm hk)]
      exact h.item? k
  lastToken := congrArg (· + 1) h.lastToken
  unavailable := h.unavailable

/-- An item that is dropped is gone, whether or not its deadline had come. -/
theorem erase (h : s.Shows now l) (key : String) :
    ({ s with items := s.items.erase key } : Server).Shows now (l.drop key) where
  item? k := by
    simp only [Server.item?, Ledger.drop, Std.HashMap.getElem?_erase, beq_iff_eq]
    by_cases hk : key = k
    · rw [if_pos hk, if_pos hk.symm, Option.filter_none]
    · rw [if_neg hk, if_neg (Ne.symm hk)]
      exact h.item? k
  lastToken := h.lastToken
  unavailable := h.unavailable

/-- What is read is what the ledger has, unless requests are refused. -/
private theorem reading {α : Type} (h : s.Shows now l) {a : α} {f : α → Answer} {answer : Answer}
    (ha : f a = answer) :
    ((s.reading a).map f, s).1 = (l.answering answer l).1 ∧
      s.Shows now (l.answering answer l).2 := by
  cases hu : l.unavailable with
  | true =>
    exact ⟨by simp [Server.reading, Ledger.answering, h.unavailable, hu, refusal, Except.map],
      by simpa [Ledger.answering, hu] using h⟩
  | false => exact ⟨by simp [Server.reading, Ledger.answering, h.unavailable, hu, ha, Except.map],
      by simpa [Ledger.answering, hu] using h⟩

/-- What is written is what the ledger writes, unless requests are refused. -/
private theorem writing {α : Type} (h : s.Shows now l) {g : Server → α × Server} {f : α → Answer}
    {answer : Answer} {l' : Ledger} (ha : f (g s).1 = answer) (hs : (g s).2.Shows now l') :
    (s.writing g).1.map f = (l.answering answer l').1 ∧
      (s.writing g).2.Shows now (l.answering answer l').2 := by
  cases hu : l.unavailable with
  | true =>
    exact ⟨by simp [Server.writing, Ledger.answering, h.unavailable, hu, refusal, Except.map],
      by simpa [Server.writing, Ledger.answering, h.unavailable, hu] using h⟩
  | false => exact ⟨by simp [Server.writing, Ledger.answering, h.unavailable, hu, ha, Except.map],
      by simpa [Server.writing, Ledger.answering, h.unavailable, hu] using hs⟩

/-- What a bulk read finds. -/
private theorem getElem?_found (h : s.Shows now l) (keys : List String) (key : String) :
    (Std.HashMap.ofList (keys.filterMap fun k =>
        (s.item? now k).map fun i => (k, i.data)))[key]? =
      if key ∈ keys then (l.item? key).map Item.data else none := by
  have hfound := getElem?_ofList_filterMap (fun k => (s.item? now k).map Item.data) keys key
  simp only [Option.map_map, List.contains_iff_mem] at hfound
  rw [← h.item?]
  exact hfound

/-- One request of a server is the same request of its ledger. -/
theorem perform (h : s.Shows now l) (op : Op) :
    (s.perform now op).1 = (l.obey now op).1 ∧
      (s.perform now op).2.Shows now (l.obey now op).2 := by
  cases op with
  | get key => exact h.reading (congrArg Answer.data (by rw [h.item?]))
  | gets key => exact h.reading (congrArg Answer.withToken (by rw [h.item?]))
  | bulkGet keys => exact h.reading (congrArg Answer.found (funext (h.getElem?_found keys)))
  | set key expiration data => exact h.writing rfl (h.put key expiration data)
  | add key expiration data =>
    -- Both ask whether there is a live item, and they show the same ones.
    simp only [Ledger.obey, Server.perform, Server.add]
    cases hi : l.item? key with
    | some i => exact h.writing (by simp [h.item?, hi]) (by simpa [h.item?, hi] using h)
    | none =>
      exact h.writing (by simp [h.item?, hi]) (by simpa [h.item?, hi] using h.put key _ _)
  | cas key token expiration data =>
    simp only [Ledger.obey, Server.perform, Server.cas]
    cases hi : l.item? key with
    | none => exact h.writing (by simp [h.item?, hi]) (by simpa [h.item?, hi] using h)
    | some i =>
      -- The token decides, and it is written down in the ledger as well.
      by_cases ht : i.token = token
      · simp only [if_pos ht]
        exact h.writing (by simp [h.item?, hi, ht]) (by simpa [h.item?, hi, ht] using h.put key _ _)
      · simp only [if_neg ht]
        exact h.writing (by simp [h.item?, hi, ht]) (by simpa [h.item?, hi, ht] using h)
  | delete key => exact h.writing (by rw [h.item?]) (h.erase key)
  | switch unavailable => exact ⟨rfl, h.item?, h.lastToken, rfl⟩

/-- As long as time does not go back, a server goes on showing its ledger and gives its answers. -/
theorem run (h : s.Shows now l) {calls : List (Nat × Op)} (hle : ∀ c ∈ calls, now ≤ c.1)
    (htime : calls.Pairwise fun c c' => c.1 ≤ c'.1) :
    s.trace calls = l.trace calls ∧ ∀ now', now ≤ now' → (∀ c ∈ calls, c.1 ≤ now') →
      (s.run calls).Shows now' ((l.run calls).forget now') := by
  induction calls generalizing s now l with
  | nil => exact ⟨rfl, fun now' hnow' _ => h.later hnow'⟩
  | cons c calls ih =>
    obtain ⟨at_, op⟩ := c
    obtain ⟨hfirst, hrest⟩ := List.pairwise_cons.1 htime
    obtain ⟨hanswer, hshows⟩ := (h.later (hle _ List.mem_cons_self)).perform op
    obtain ⟨htrace, hrun⟩ := ih hshows hfirst hrest
    refine ⟨by rw [Server.trace, Ledger.trace, hanswer, htrace], fun now' _ hafter => ?_⟩
    exact hrun now' (hafter _ List.mem_cons_self) fun c hc => hafter c (List.mem_cons_of_mem _ hc)

end Shows

/-! ## What a request can do -/

/-- What a request can do to a server, with the answer that tells so. -/
inductive Step (s : Server) (now : Nat) (op : Op) (answer : Outcome Answer) (s' : Server) :
    Prop where
  | touchNothing : op.touched? answer = none → s'.items = s.items → s'.lastToken = s.lastToken →
    Step s now op answer s'
  | write (key : String) (expiration : Nat) (data : ByteArray) : op.written? answer = some key →
    s' = s.put now key expiration data → Step s now op answer s'
  | drop (key : String) : op.touched? answer = some key → op.written? answer = none →
    s' = { s with items := s.items.erase key } → Step s now op answer s'

variable {s : Server} {now : Nat}

/-- What is written was touched. -/
theorem Op.touched?_of_written? {op : Op} {answer : Outcome Answer} {key : String}
    (h : op.written? answer = some key) : op.touched? answer = some key := by
  cases op with
  | delete _ => exact nomatch h
  | _ => exact h

/-- What was refused touched nothing. -/
theorem Op.touched?_error (op : Op) (e : CacheError) : op.touched? (.error e) = none := by
  cases op <;> rfl

/-- An unavailable server refuses every request and stays as it is. -/
theorem perform_of_unavailable (hu : s.unavailable = true) (now : Nat) {op : Op}
    (hop : ∀ b, op ≠ .switch b) :
    s.perform now op = (.error (.backend "server unavailable"), s) := by
  cases op with
  | switch b => exact absurd rfl (hop b)
  | get _ | gets _ | bulkGet _ =>
    simp [perform, Server.get, Server.gets, Server.bulkGet, reading, hu, refusal, Except.map]
  | set _ _ _ | add _ _ _ | cas _ _ _ _ | delete _ =>
    simp [perform, Server.set, Server.add, Server.cas, Server.delete, writing, hu, refusal,
      Except.map]

/-- These are all the things that a request can do. -/
theorem perform_cases (s : Server) (now : Nat) (op : Op) :
    Step s now op (s.perform now op).1 (s.perform now op).2 := by
  by_cases hop : ∃ b, op = .switch b
  · obtain ⟨b, rfl⟩ := hop
    exact .touchNothing rfl rfl rfl
  cases hu : s.unavailable with
  | true =>
    -- A server that cannot be reached does nothing but be switched.
    rw [perform_of_unavailable hu now fun b hb => hop ⟨b, hb⟩]
    exact .touchNothing (op.touched?_error _) rfl rfl
  | false =>
    cases op with
    | switch b => exact absurd ⟨b, rfl⟩ hop
    | get _ | gets _ | bulkGet _ => exact .touchNothing rfl rfl rfl
    | set key expiration data =>
      refine .write key expiration data ?_ ?_ <;>
        simp [perform, Server.set, writing, hu, Except.map, Op.written?]
    | add key expiration data =>
      simp only [perform, add_eq s now key expiration data hu]
      split
      · exact .write key expiration data rfl rfl
      · exact .touchNothing rfl rfl rfl
    | cas key token expiration data =>
      simp only [perform, cas_eq s now key token expiration data hu]
      split
      · exact .write key expiration data rfl rfl
      · -- The token was another one, or there was no item.
        refine .touchNothing ?_ rfl rfl
        split <;> rfl
    | delete key =>
      refine .drop key ?_ rfl ?_ <;>
        simp [perform, Server.delete, writing, hu, Except.map, Op.touched?]

variable {s' : Server} {op : Op} {answer : Outcome Answer}

/-- A request leaves the item of a key as it is, or touches the key; then the item that is there
afterwards has the next token. -/
theorem Step.getElem? (h : Step s now op answer s') (key : String) :
    (op.touched? answer ≠ some key ∧ s'.items[key]? = s.items[key]?) ∨
      (op.touched? answer = some key ∧
        ∀ i, s'.items[key]? = some i → i.token = s.lastToken + 1 ∧ i.token = s'.lastToken) := by
  cases h with
  | touchNothing hnone hitems _ => exact .inl ⟨by rw [hnone]; nofun, by rw [hitems]⟩
  | write key' expiration data hkey hs' =>
    subst hs'
    have htouched := Op.touched?_of_written? hkey
    simp only [put, Std.HashMap.getElem?_insert, beq_iff_eq]
    by_cases heq : key' = key
    · -- The item that was put has the token after the last one.
      subst heq
      refine .inr ⟨htouched, fun i hi => ?_⟩
      rw [if_pos rfl] at hi
      exact Option.some.inj hi ▸ ⟨rfl, rfl⟩
    · exact .inl ⟨fun h => heq (Option.some.inj (htouched.symm.trans h)), if_neg heq⟩
  | drop key' hkey _ hs' =>
    subst hs'
    simp only [Std.HashMap.getElem?_erase, beq_iff_eq]
    by_cases heq : key' = key
    · subst heq
      -- Nothing is left whose token could be asked for.
      exact .inr ⟨hkey, fun i hi => by simp at hi⟩
    · exact .inl ⟨fun h => heq (Option.some.inj (hkey.symm.trans h)), if_neg heq⟩

/-- Tokens are never taken back. -/
theorem Step.lastToken_le (h : Step s now op answer s') : s.lastToken ≤ s'.lastToken := by
  cases h with
  | touchNothing _ _ htoken => exact Nat.le_of_eq htoken.symm
  | write key expiration data _ hs' => exact hs' ▸ Nat.le_succ _
  | drop key _ _ hs' => exact Nat.le_of_eq (hs' ▸ rfl)

/-! ## Tokens -/

/-- The items of a server have tokens that were given. -/
def Given (s : Server) : Prop :=
  ∀ {key : String} {i : Item}, s.items[key]? = some i → i.token ≤ s.lastToken

/-- A new server has no items. -/
theorem Given.empty : ({} : Server).Given := by
  intro key i hi
  rw [Std.HashMap.getElem?_empty] at hi
  exact nomatch hi

/-- Every request leaves the items with tokens that were given. -/
theorem Given.step (h : s.Given) (hstep : Step s now op answer s') : s'.Given := by
  intro key i hi
  rcases hstep.getElem? key with ⟨_, hsame⟩ | ⟨_, hnew⟩
  · exact Nat.le_trans (h (hsame ▸ hi)) hstep.lastToken_le
  · exact Nat.le_of_eq (hnew i hi).2

theorem Given.run (h : s.Given) (calls : List (Nat × Op)) : (s.run calls).Given := by
  induction calls generalizing s with
  | nil => exact h
  | cons c calls ih => exact ih (h.step (s.perform_cases c.1 c.2))

/-- The writes take the next tokens one after the other. -/
theorem tokens_eq (s : Server) (calls : List (Nat × Op)) :
    s.tokens calls = List.range' (s.lastToken + 1) (s.tokens calls).length := by
  -- The induction is on the requests; each of them takes the next token or none.
  induction calls generalizing s with
  | nil => rfl
  | cons c calls ih =>
    obtain ⟨now, op⟩ := c
    have hrest := ih (s.perform now op).2
    have hunwritten (hnone : op.written? (s.perform now op).1 = none) :
        s.tokens ((now, op) :: calls) = (s.perform now op).2.tokens calls := by
      simp only [tokens, hnone, Option.bind_none]
    cases s.perform_cases now op with
    | touchNothing hnone _ htoken =>
      have hwritten : op.written? (s.perform now op).1 = none :=
        Option.eq_none_iff_forall_ne_some.2 fun key hkey =>
          nomatch hnone.symm.trans (Op.touched?_of_written? hkey)
      rw [hunwritten hwritten, ← htoken]
      exact hrest
    | write key expiration data hkey hs' =>
      -- The item that is looked up is the one that was just put.
      have hwritten : s.tokens ((now, op) :: calls) =
          (s.lastToken + 1) :: (s.perform now op).2.tokens calls := by
        simp only [tokens, hkey, Option.bind_some]
        rw [hs', put, Std.HashMap.getElem?_insert_self]
      rw [hwritten, List.length_cons, List.range'_succ]
      refine congrArg _ (hrest.trans ?_)
      rw [hs', lastToken_put]
    | drop key _ hnone hs' =>
      have htoken : (s.perform now op).2.lastToken = s.lastToken := by rw [hs']
      rw [hunwritten hnone, ← htoken]
      exact hrest

/-! ## Writes that ask for a token -/

/-- A key that no request touches keeps its item. -/
theorem getElem?_run_of_untouched {calls : List (Nat × Op)} {key : String}
    (h : ∀ c ∈ s.trace calls, c.1.touched? c.2 ≠ some key) :
    (s.run calls).items[key]? = s.items[key]? := by
  induction calls generalizing s with
  | nil => rfl
  | cons c calls ih =>
    obtain ⟨hfirst, hrest⟩ := List.forall_mem_cons.1 h
    rcases (s.perform_cases c.1 c.2).getElem? key with ⟨_, hsame⟩ | ⟨htouched, _⟩
    · exact (ih hrest).trans hsame
    · exact absurd htouched hfirst

/-- The token of a key is used up: whatever item the key has, or will have, has a larger one. -/
structure UsedUp (s : Server) (key : String) (token : Nat) : Prop where
  token_le : token ≤ s.lastToken
  token_lt : ∀ i, s.items[key]? = some i → token < i.token

/-- A token that is used up is so for ever. -/
theorem UsedUp.step {key : String} {token : Nat} (h : s.UsedUp key token)
    (hstep : Step s now op answer s') : s'.UsedUp key token where
  token_le := Nat.le_trans h.token_le hstep.lastToken_le
  token_lt i hi := by
    rcases hstep.getElem? key with ⟨_, hsame⟩ | ⟨_, hnew⟩
    · exact h.token_lt i (hsame ▸ hi)
    · rw [(hnew i hi).1]
      exact Nat.lt_succ_of_le h.token_le

theorem UsedUp.run {key : String} {token : Nat} (h : s.UsedUp key token)
    (calls : List (Nat × Op)) : (s.run calls).UsedUp key token := by
  induction calls generalizing s with
  | nil => exact h
  | cons c calls ih => exact ih (h.step (s.perform_cases c.1 c.2))

/-- A request that touches a key uses up the tokens that were given. -/
theorem usedUp_of_touched {calls : List (Nat × Op)} {key : String} {token : Nat}
    (hle : token ≤ s.lastToken) (h : ∃ c ∈ s.trace calls, c.1.touched? c.2 = some key) :
    (s.run calls).UsedUp key token := by
  induction calls generalizing s with
  | nil =>
    obtain ⟨c, hc, _⟩ := h
    exact absurd hc List.not_mem_nil
  | cons c calls ih =>
    have hstep := s.perform_cases c.1 c.2
    obtain ⟨c', hc', htouched⟩ := h
    rcases List.mem_cons.1 hc' with rfl | hc'
    · refine UsedUp.run ⟨Nat.le_trans hle hstep.lastToken_le, fun i hi => ?_⟩ calls
      rcases hstep.getElem? key with ⟨hnot, _⟩ | ⟨_, hnew⟩
      · exact absurd htouched hnot
      · rw [(hnew i hi).1]
        exact Nat.lt_succ_of_le hle
    · exact ih (Nat.le_trans hle hstep.lastToken_le) ⟨c', hc', htouched⟩

/-- What asks for a token is stored if the live item has it. -/
theorem cas_stored_iff (s : Server) (now : Nat) (key : String) (token expiration : Nat)
    (data : ByteArray) :
    (s.perform now (.cas key token expiration data)).1 = .ok (.cas .stored) ↔
      s.unavailable = false ∧ ∃ i, s.item? now key = some i ∧ i.token = token := by
  cases hu : s.unavailable with
  | true =>
    rw [perform_of_unavailable hu now fun b hb => by cases hb]
    simp
  | false =>
    simp only [perform, cas_eq s now key token expiration data hu, true_and]
    by_cases ht : (s.item? now key).map Item.token = some token
    · rw [if_pos ht]
      exact iff_of_true rfl (Option.map_eq_some_iff.1 ht)
    · rw [if_neg ht]
      refine iff_of_false ?_ fun h => ht (Option.map_eq_some_iff.2 h)
      split <;> simp [Except.map]

/-- An item is there until its deadline. -/
theorem item?_eq_some_iff {key : String} {i : Item} :
    s.item? now key = some i ↔ s.items[key]? = some i ∧ i.Live now := by
  rw [item?, Option.filter_eq_some_iff, decide_eq_true_eq]

/-- What is read with a token is the live item. -/
theorem item?_of_gets {key : String} {data : ByteArray} {token : Nat}
    (h : (s.perform now (.gets key)).1 = .ok (.withToken (some (data, token)))) :
    ∃ deadline?, s.item? now key = some ⟨data, deadline?, token⟩ := by
  cases hu : s.unavailable with
  | true =>
    rw [perform_of_unavailable hu now fun b hb => by cases hb] at h
    simp at h
  | false =>
    simp only [perform, gets, reading, hu, Bool.false_eq_true, if_false, Except.map,
      Except.ok.injEq, Answer.withToken.injEq, Option.map_eq_some_iff, Prod.mk.injEq] at h
    obtain ⟨⟨_, deadline?, _⟩, hi, rfl, rfl⟩ := h
    exact ⟨deadline?, hi⟩

/-- A write that asks for the token of an item is stored if the server can be reached, the deadline
of the item has not come, and no request has touched its key. -/
theorem cas_stored_iff_untouched (hgiven : s.Given) {key : String} {i : Item}
    (hi : s.items[key]? = some i) (calls : List (Nat × Op)) (now expiration : Nat)
    (data : ByteArray) :
    ((s.run calls).perform now (.cas key i.token expiration data)).1 = .ok (.cas .stored) ↔
      (s.run calls).unavailable = false ∧ i.Live now ∧
        ∀ c ∈ s.trace calls, c.1.touched? c.2 ≠ some key := by
  rw [cas_stored_iff]
  refine and_congr_right fun _ => ?_
  by_cases htouched : ∃ c ∈ s.trace calls, c.1.touched? c.2 = some key
  · -- Once the key was touched, its item has a later token, and tokens are not given twice.
    have hused := usedUp_of_touched (hgiven hi) htouched
    refine iff_of_false ?_ fun h => ?_
    · rintro ⟨j, hj, htoken⟩
      exact absurd htoken (Nat.ne_of_gt (hused.token_lt j (item?_eq_some_iff.1 hj).1))
    · obtain ⟨c, hc, hkey⟩ := htouched
      exact h.2 c hc hkey
  · have huntouched : ∀ c ∈ s.trace calls, c.1.touched? c.2 ≠ some key :=
      fun c hc hkey => htouched ⟨c, hc, hkey⟩
    -- The item is the one from before; all that is left to be asked is whether it is live.
    have hsame := (getElem?_run_of_untouched huntouched).trans hi
    constructor
    · rintro ⟨j, hj, -⟩
      obtain ⟨hj, hlive⟩ := item?_eq_some_iff.1 hj
      obtain rfl := Option.some.inj (hsame.symm.trans hj)
      exact ⟨hlive, huntouched⟩
    · exact fun h => ⟨i, item?_eq_some_iff.2 ⟨hsame, h.1⟩, rfl⟩

/-! ## The refinement -/

/-- What is true of requests that are made of a new server. -/
structure Faithful (calls : List (Nat × Op)) : Prop where
  /-- Every answer is that of the ledger. -/
  answers : ({} : Server).trace calls = ({} : Ledger).trace calls
  /-- Every item that is written gets a larger token than all that were written before. -/
  tokens_lt : (({} : Server).tokens calls).Pairwise (· < ·)
  /-- No token is larger than the number of writes. -/
  tokens_le : ∀ token ∈ ({} : Server).tokens calls, token ≤ (({} : Server).tokens calls).length
  /-- A write that asks for a token that was read is stored if the server can be reached, the
  deadline of the item that was read has not come, and no request in between has written or deleted
  the item of the key. -/
  guards : ∀ {before between after : List (Nat × Op)} {now now' token expiration : Nat}
    {key : String} {data found : ByteArray},
    calls = before ++ (now, .gets key) ::
      (between ++ (now', .cas key token expiration data) :: after) →
    ((run {} before).perform now (.gets key)).1 = .ok (.withToken (some (found, token))) →
    ∃ deadline?, ((({} : Ledger).run before).forget now).item? key =
        some ⟨found, deadline?, token⟩ ∧
      ((((run {} before).run between).perform now' (.cas key token expiration data)).1 =
          .ok (.cas .stored) ↔
        ((run {} before).run between).unavailable = false ∧ (∀ d ∈ deadline?, now' < d) ∧
          ∀ c ∈ (run {} before).trace between, c.1.touched? c.2 ≠ some key)
  /-- While the server is unavailable every request is refused and changes nothing. -/
  refuses : ∀ {before after : List (Nat × Op)} {now : Nat} {op : Op},
    calls = before ++ (now, op) :: after → (run {} before).unavailable = true →
    (∀ b, op ≠ .switch b) →
    (run {} before).perform now op = (.error (.backend "server unavailable"), run {} before)

/-- As long as time does not go back, a server is a map with deadlines and tokens. -/
theorem refines_ledger (calls : List (Nat × Op))
    (htime : calls.Pairwise fun c c' => c.1 ≤ c'.1) : Faithful calls where
  answers := ((Shows.empty 0).run (fun _ _ => Nat.zero_le _) htime).1
  tokens_lt := by
    rw [tokens_eq]
    exact List.pairwise_lt_range'
  tokens_le token htoken := by
    rw [tokens_eq, List.mem_range'_1] at htoken
    have : ({} : Server).lastToken = 0 := rfl
    omega
  guards {before between after now now' token expiration key data found} hcalls hgets := by
    subst hcalls
    obtain ⟨hbefore, _, hpast⟩ := List.pairwise_append.1 htime
    have hshows := ((Shows.empty 0).run (fun _ _ => Nat.zero_le _) hbefore).2 now
      (Nat.zero_le _) fun c hc => hpast c hc _ List.mem_cons_self
    obtain ⟨deadline?, hi⟩ := item?_of_gets hgets
    exact ⟨deadline?, (hshows.item? key).symm.trans hi, cas_stored_iff_untouched
      (Given.empty.run before) (item?_eq_some_iff.1 hi).1 between now' expiration data⟩
  refuses {before after now op} _ hu hop := perform_of_unavailable hu now hop

/-- Requests around one key. An `add` that finds an item does not use its token up. The item is
deleted and added again with the same bytes, and the token that was read before is used up. The
last item is gone at its deadline. -/
def takeTurns : List (Nat × Op) :=
  let bytes : ByteArray := ⟨#[1]⟩
  [(0, .set "k" 0 bytes), (1, .gets "k"), (2, .add "k" 0 bytes), (3, .cas "k" 1 0 bytes),
    (3, .gets "k"), (4, .delete "k"), (5, .add "k" 1 bytes), (6, .cas "k" 2 0 bytes),
    (7, .switch true), (8, .delete "k"), (9, .switch false), (1000005, .cas "k" 3 0 bytes)]

/-- Requests of which some are refused, one token is used up and one item is gone. -/
theorem refines_ledger_takeTurns : (takeTurns.Pairwise fun c c' => c.1 ≤ c'.1) ∧
    Faithful takeTurns ∧ (({} : Server).trace takeTurns).map Prod.snd =
      [.ok (.done true), .ok (.withToken (some (⟨#[1]⟩, 1))), .ok (.done false),
        .ok (.cas .stored), .ok (.withToken (some (⟨#[1]⟩, 2))), .ok (.done true),
        .ok (.done true), .ok (.cas .changed), .ok .nothing,
        .error (.backend "server unavailable"), .ok .nothing, .ok (.cas .missing)] := by
  have htime : takeTurns.Pairwise fun c c' => c.1 ≤ c'.1 := by simp [takeTurns]
  have hfaithful := refines_ledger takeTurns htime
  refine ⟨htime, hfaithful, ?_⟩
  rw [hfaithful.answers]
  rfl

end Server

end CacheLayer.Remote
