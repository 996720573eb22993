import CacheLayer.Remote.Server
import Mathlib
/-!
# Tokens never come back

A server that many writers use. Every write of an item takes the next token, but a write without
condition makes its item before it gets hold of the items: between the two, other writers may come
first, so that items need not be stored in the order of their tokens. Still no two items have one
token, so that whoever finds a token again finds the item that had it.

## Key results

- `Shared.moves_after`: what other writers can do to a server
- `Shared.lastToken_run_le`: only writes take tokens
- `Shared.Fresh.moves`: no two items have one token
- `Shared.Known.moves`: an item that was seen is the only one with its token for ever after
-/

namespace CacheLayer.Remote

namespace Server

/-- Makes an item for so many milliseconds, for ever if there are none. It takes the next token. -/
def make (s : Server) (now expiration : Nat) (data : ByteArray) : Item × Server :=
  let deadline? := if expiration = 0 then none else some (now + Span.ofMillis expiration)
  (⟨data, deadline?, s.lastToken + 1⟩, { s with lastToken := s.lastToken + 1 })

/-- Stores an item that was made. -/
def store (s : Server) (key : String) (i : Item) : Server :=
  { s with items := s.items.insert key i }

/-- To put an item is to make it and to store it at once. -/
theorem put_eq (s : Server) (now : Nat) (key : String) (expiration : Nat) (data : ByteArray) :
    s.put now key expiration data =
      (s.make now expiration data).2.store key (s.make now expiration data).1 :=
  rfl

/-- To put an item takes a token. -/
theorem lastToken_put (s : Server) (now : Nat) (key : String) (expiration : Nat)
    (data : ByteArray) : (s.put now key expiration data).lastToken = s.lastToken + 1 :=
  rfl

end Server

/-! ## Other writers -/

/-- A server, and the items that were made for it and are not stored yet, with their keys. -/
structure Shared where
  site : Site := {}
  made : List (String × Item) := []

/-- What other writers do, and what happens to a server while they do. -/
inductive Deed where
  /-- A write without condition begins: its item is made. -/
  | make (key : String) (expiration : Nat) (data : ByteArray)
  /-- The `n`-th of the items that were made is stored. -/
  | store (n : Nat)
  | add (key : String) (expiration : Nat) (data : ByteArray)
  | cas (key : String) (token expiration : Nat) (data : ByteArray)
  | delete (key : String)
  /-- Time passes. -/
  | wait (span : Nat)
  /-- The server becomes unavailable or available. -/
  | switch (unavailable : Bool)

/-- How many writes a deed begins. -/
def Deed.writes : Deed → Nat
  | make _ _ _ => 1
  | add _ _ _ => 1
  | cas _ _ _ _ => 1
  | _ => 0

namespace Shared

/-- The server. -/
def server (w : Shared) : Server := w.site.server

/-- The live item of a key. -/
def item? (w : Shared) (key : String) : Option Item := w.server.item? w.site.now key

/-- Lets a request reach the server. -/
def ask {α : Type} (w : Shared) (f : Server → Nat → α × Server) : Shared :=
  { w with site := (w.site.request f).2 }

/-- Begins a write without condition, if the server is available. -/
def make (w : Shared) (key : String) (expiration : Nat) (data : ByteArray) : Shared :=
  if w.server.unavailable then w
  else
    let (i, server) := w.server.make w.site.now expiration data
    ⟨⟨w.site.now, server⟩, w.made ++ [(key, i)]⟩

/-- Stores an item that was made, if there is one of that number. -/
def store (w : Shared) (n : Nat) : Shared :=
  match w.made[n]? with
  | none => w
  | some (key, i) => ⟨⟨w.site.now, w.server.store key i⟩, w.made.eraseIdx n⟩

/-- The server after a deed. -/
def after (w : Shared) : Deed → Shared
  | .make key expiration data => w.make key expiration data
  | .store n => w.store n
  | .add key expiration data => w.ask fun s now => s.add now key expiration data
  | .cas key token expiration data => w.ask fun s now => s.cas now key token expiration data
  | .delete key => w.ask fun s now => s.delete now key
  | .wait span => { w with site := w.site.advance span }
  | .switch unavailable => ⟨⟨w.site.now, { w.server with unavailable := unavailable }⟩, w.made⟩

/-- The server after deeds. -/
def run (w : Shared) (ds : List Deed) : Shared := ds.foldl after w

/-! ## What can happen to a server -/

/-- What can happen to a server. -/
inductive Moves : Shared → Shared → Prop where
  /-- Items may be dropped. -/
  | keeps {w w' : Shared} :
    (∀ {key : String} {i : Item},
      w'.server.items[key]? = some i → w.server.items[key]? = some i) →
    w'.server.lastToken = w.server.lastToken → w'.made = w.made → Moves w w'
  | makes {w w' : Shared} (key : String) (i : Item) : i.token = w.server.lastToken + 1 →
    w'.server.items = w.server.items → w'.server.lastToken = w.server.lastToken + 1 →
    w'.made = w.made ++ [(key, i)] → Moves w w'
  | stores {w w' : Shared} (n : Nat) (key : String) (i : Item) : w.made[n]? = some (key, i) →
    w'.server.items = w.server.items.insert key i →
    w'.server.lastToken = w.server.lastToken → w'.made = w.made.eraseIdx n → Moves w w'
  | trans {w w' w'' : Shared} : Moves w w' → Moves w' w'' → Moves w w''

variable {w w' : Shared}

/-- Nothing may happen to the items at all. -/
theorem Moves.rest (hserver : w'.server = w.server) (hmade : w'.made = w.made) : Moves w w' :=
  .keeps (fun hi => hserver ▸ hi) (congrArg Server.lastToken hserver) hmade

/-- Putting an item is making it and storing it. -/
theorem moves_put (key : String) (now expiration : Nat) (data : ByteArray)
    (hserver : w'.server = w.server.put now key expiration data) (hmade : w'.made = w.made) :
    Moves w w' := by
  let between : Shared :=
    ⟨⟨now, (w.server.make now expiration data).2⟩,
      w.made ++ [(key, (w.server.make now expiration data).1)]⟩
  have hmakes : Moves w between := .makes key _ rfl rfl rfl rfl
  refine hmakes.trans (.stores w.made.length key (w.server.make now expiration data).1 ?_ ?_ ?_ ?_)
  · exact List.getElem?_concat_length
  · rw [hserver]
    rfl
  · rw [hserver]
    rfl
  · rw [hmade, List.eraseIdx_append_of_length_le (Nat.le_refl _), Nat.sub_self]
    exact (List.append_nil _).symm

/-- A request that puts an item or leaves the server alone. -/
private theorem moves_ask {α : Type} (w : Shared) (f : Server → Nat → α × Server)
    (h : (f w.server w.site.now).2 = w.server ∨ ∃ key expiration data,
      (f w.server w.site.now).2 = w.server.put w.site.now key expiration data) :
    Moves w (w.ask f) := by
  rcases h with heq | ⟨key, expiration, data, heq⟩
  · exact .rest heq rfl
  · exact moves_put key _ _ _ heq rfl

/-- An `add` puts its item or leaves the server alone. -/
theorem add_server (s : Server) (now : Nat) (key : String) (expiration : Nat) (data : ByteArray) :
    (s.add now key expiration data).2 = s ∨
      (s.add now key expiration data).2 = s.put now key expiration data := by
  simp only [Server.add, Server.writing]
  split
  · exact .inl rfl
  · cases s.item? now key with
    | some i => exact .inl rfl
    | none => exact .inr rfl

/-- A `cas` puts its item or leaves the server alone. -/
theorem cas_server (s : Server) (now : Nat) (key : String) (token expiration : Nat)
    (data : ByteArray) :
    (s.cas now key token expiration data).2 = s ∨
      (s.cas now key token expiration data).2 = s.put now key expiration data := by
  simp only [Server.cas, Server.writing]
  split
  · exact .inl rfl
  · cases s.item? now key with
    | none => exact .inl rfl
    | some i =>
      simp only
      split
      · exact .inr rfl
      · exact .inl rfl

/-- A `delete` only drops. -/
private theorem delete_server (s : Server) (now : Nat) (key : String) :
    (∀ {key' : String} {i : Item},
      (s.delete now key).2.items[key']? = some i → s.items[key']? = some i) ∧
      (s.delete now key).2.lastToken = s.lastToken := by
  simp only [Server.delete, Server.writing]
  split
  · exact ⟨id, rfl⟩
  · refine ⟨fun {key' i} hi => ?_, rfl⟩
    rw [Std.HashMap.getElem?_erase] at hi
    split at hi
    · exact nomatch hi
    · exact hi

private theorem moves_make (w : Shared) (key : String) (expiration : Nat) (data : ByteArray) :
    Moves w (w.make key expiration data) := by
  rw [make]
  split
  · exact .rest rfl rfl
  · exact .makes key _ rfl rfl rfl rfl

private theorem moves_store (w : Shared) (n : Nat) : Moves w (w.store n) := by
  rw [store]
  split
  · exact .rest rfl rfl
  · next key i hn => exact .stores n key i hn rfl rfl rfl

/-- All that other writers do moves a server like this. -/
theorem moves_after (w : Shared) (d : Deed) : Moves w (w.after d) := by
  cases d with
  | make key expiration data => exact moves_make w key expiration data
  | store n => exact moves_store w n
  | add key expiration data =>
    exact moves_ask w _ ((add_server ..).imp_right fun h => ⟨key, expiration, data, h⟩)
  | cas key token expiration data =>
    exact moves_ask w _ ((cas_server ..).imp_right fun h => ⟨key, expiration, data, h⟩)
  | delete key =>
    obtain ⟨hitems, htoken⟩ := delete_server w.server w.site.now key
    exact .keeps hitems htoken rfl
  | wait span => exact .rest rfl rfl
  | switch unavailable => exact .keeps id rfl rfl

/-! ## Tokens -/

/-- Only writes take tokens, one each at most. -/
theorem lastToken_after_le (w : Shared) (d : Deed) :
    (w.after d).server.lastToken ≤ w.server.lastToken + d.writes := by
  cases d with
  | make key expiration data =>
    rw [after, make]
    -- The item takes a token right away, and is put later.
    split
    · exact Nat.le_succ _
    · exact Nat.le_refl _
  | store n =>
    rw [after, store]
    -- By then it has got its token.
    split <;> exact Nat.le_refl _
  | add key expiration data =>
    rcases add_server w.server w.site.now key expiration data with heq | heq
    · exact Nat.le_succ_of_le (Nat.le_of_eq (congrArg Server.lastToken heq))
    · exact Nat.le_of_eq (congrArg Server.lastToken heq)
  | cas key token expiration data =>
    rcases cas_server w.server w.site.now key token expiration data with heq | heq
    · exact Nat.le_succ_of_le (Nat.le_of_eq (congrArg Server.lastToken heq))
    · exact Nat.le_of_eq (congrArg Server.lastToken heq)
  | delete key => exact Nat.le_of_eq (delete_server w.server w.site.now key).2
  | wait span => exact Nat.le_refl _
  | switch unavailable => exact Nat.le_refl _

/-- Deeds take as many tokens as there are writes among them, at most. -/
theorem lastToken_run_le (w : Shared) (ds : List Deed) :
    (w.run ds).server.lastToken ≤ w.server.lastToken + (ds.map Deed.writes).sum := by
  induction ds generalizing w with
  | nil => exact Nat.le_refl _
  | cons d ds ih =>
    rw [List.map_cons, List.sum_cons, ← Nat.add_assoc]
    exact Nat.le_trans (ih (w.after d)) (Nat.add_le_add_right (w.lastToken_after_le d) _)

/-- No two items have one token, stored or not, and all tokens have been taken. -/
structure Fresh (w : Shared) : Prop where
  stored_le : ∀ {key : String} {i : Item},
    w.server.items[key]? = some i → i.token ≤ w.server.lastToken
  made_le : ∀ q ∈ w.made, q.2.token ≤ w.server.lastToken
  made_nodup : (w.made.map fun q => q.2.token).Nodup
  apart : ∀ {key : String} {i : Item}, w.server.items[key]? = some i →
    ∀ q ∈ w.made, q.2.token ≠ i.token

/-- A new server has no items. -/
theorem Fresh.empty : Fresh {} where
  stored_le hi := by simp [server] at hi
  made_le _ hq := nomatch hq
  made_nodup := .nil
  apart _ _ hq := nomatch hq

/-- The token of an item is not among those of the other items that were made. -/
private theorem token_ne_of_mem_eraseIdx {made : List (String × Item)} {n : Nat}
    {p : String × Item} (hnodup : (made.map fun q => q.2.token).Nodup) (hn : made[n]? = some p)
    {q : String × Item} (hq : q ∈ made.eraseIdx n) : q.2.token ≠ p.2.token := by
  obtain ⟨m, hmn, hm⟩ := List.mem_eraseIdx_iff_getElem?.1 hq
  have hinj := (List.pairwise_map.1 hnodup)
  intro heq
  rw [List.pairwise_iff_getElem] at hinj
  obtain ⟨hnlt, rfl⟩ := List.getElem?_eq_some_iff.1 hn
  obtain ⟨hmlt, rfl⟩ := List.getElem?_eq_some_iff.1 hm
  rcases Nat.lt_or_gt_of_ne hmn with hlt | hlt
  · exact hinj m n hmlt hnlt hlt heq
  · exact hinj n m hnlt hmlt hlt heq.symm

private theorem Fresh.makes (h : w.Fresh) {key : String} {i : Item}
    (hi : i.token = w.server.lastToken + 1) (hitems : w'.server.items = w.server.items)
    (htoken : w'.server.lastToken = w.server.lastToken + 1)
    (hmade : w'.made = w.made ++ [(key, i)]) : w'.Fresh where
  stored_le hi' := by
    have := h.stored_le (hitems ▸ hi')
    omega
  made_le q hq := by
    rw [hmade, List.mem_append, List.mem_singleton] at hq
    rcases hq with hq | rfl
    · have := h.made_le q hq
      omega
    · exact Nat.le_of_eq (hi.trans htoken.symm)
  made_nodup := by
    -- The new token is larger than all others.
    rw [hmade, List.map_append, List.nodup_append]
    refine ⟨h.made_nodup, List.pairwise_singleton _ _, ?_⟩
    intro t ht t' ht'
    obtain ⟨q, hq, rfl⟩ := List.mem_map.1 ht
    have := h.made_le q hq
    rw [List.mem_singleton.1 ht']
    simp only [ne_eq]
    omega
  apart hi' q hq := by
    rw [hitems] at hi'
    rw [hmade, List.mem_append, List.mem_singleton] at hq
    rcases hq with hq | rfl
    · exact h.apart hi' q hq
    · have := h.stored_le hi'
      simp only [ne_eq]
      omega

private theorem Fresh.stores (h : w.Fresh) {n : Nat} {key : String} {i : Item}
    (hn : w.made[n]? = some (key, i)) (hitems : w'.server.items = w.server.items.insert key i)
    (htoken : w'.server.lastToken = w.server.lastToken) (hmade : w'.made = w.made.eraseIdx n) :
    w'.Fresh where
  stored_le hi' := by
    rw [hitems, Std.HashMap.getElem?_insert] at hi'
    rw [htoken]
    split at hi'
    · exact Option.some.inj hi' ▸ h.made_le _ (List.mem_of_getElem? hn)
    · exact h.stored_le hi'
  made_le q hq := by
    rw [htoken]
    exact h.made_le q (List.mem_of_mem_eraseIdx (hmade ▸ hq))
  made_nodup := by
    rw [hmade]
    exact h.made_nodup.sublist ((List.eraseIdx_sublist _ _).map _)
  apart hi' q hq := by
    rw [hmade] at hq
    rw [hitems, Std.HashMap.getElem?_insert] at hi'
    split at hi'
    · -- The item that is stored is no longer among those that are not.
      obtain rfl := Option.some.inj hi'
      exact token_ne_of_mem_eraseIdx h.made_nodup hn hq
    · exact h.apart hi' q (List.mem_of_mem_eraseIdx hq)

/-- No two items ever get one token. -/
theorem Fresh.moves (h : w.Fresh) (hm : Moves w w') : w'.Fresh := by
  induction hm with
  | keeps hitems htoken hmade =>
    refine ⟨fun hi => ?_, ?_, hmade ▸ h.made_nodup, fun hi => ?_⟩
    · rw [htoken]
      exact h.stored_le (hitems hi)
    · rw [htoken, hmade]
      exact h.made_le
    · rw [hmade]
      exact h.apart (hitems hi)
  | makes key i hi hitems htoken hmade => exact h.makes hi hitems htoken hmade
  | stores n key i hn hitems htoken hmade => exact h.stores hn hitems htoken hmade
  | trans _ _ ih ih' => exact ih' (ih h)

theorem fresh_run (h : w.Fresh) (ds : List Deed) : (w.run ds).Fresh := by
  induction ds generalizing w with
  | nil => exact h
  | cons d ds ih => exact ih (h.moves (moves_after w d))

/-- An item of a key that was seen: no other item of the key has its token, and none will. -/
structure Known (w : Shared) (key : String) (i : Item) : Prop where
  token_le : i.token ≤ w.server.lastToken
  not_made : ∀ q ∈ w.made, q.2.token ≠ i.token
  same : ∀ i', w.server.items[key]? = some i' → i'.token = i.token → i' = i

/-- An item that is there is known. -/
theorem Fresh.known (h : w.Fresh) {key : String} {i : Item}
    (hi : w.server.items[key]? = some i) : w.Known key i where
  token_le := h.stored_le hi
  not_made := h.apart hi
  same _ hi' _ := Option.some.inj (hi'.symm.trans hi)

/-- An item that was seen is the only one with its token for ever after. -/
theorem Known.moves {key : String} {i : Item} (h : w.Known key i) (hm : Moves w w') :
    w'.Known key i := by
  induction hm with
  | keeps hitems htoken hmade =>
    exact ⟨htoken ▸ h.token_le, hmade ▸ h.not_made, fun _ hi' => h.same _ (hitems hi')⟩
  | makes key' j hj hitems htoken hmade =>
    have hle := h.token_le
    refine ⟨by omega, fun q hq => ?_, fun _ hi' => h.same _ (hitems ▸ hi')⟩
    rw [hmade, List.mem_append, List.mem_singleton] at hq
    rcases hq with hq | rfl
    · exact h.not_made q hq
    · simp only [ne_eq]
      omega
  | stores n key' j hn hitems htoken hmade =>
    refine ⟨htoken ▸ h.token_le, fun q hq => ?_, fun i' hi' heq => ?_⟩
    · exact h.not_made q (List.mem_of_mem_eraseIdx (hmade ▸ hq))
    · rw [hitems, Std.HashMap.getElem?_insert] at hi'
      split at hi'
      · -- The item that is stored, however late, has a token of its own.
        obtain rfl := Option.some.inj hi'
        exact absurd heq (h.not_made _ (List.mem_of_getElem? hn))
      · exact h.same i' hi' heq
  | trans _ _ ih ih' => exact ih' (ih h)

end Shared

end CacheLayer.Remote
