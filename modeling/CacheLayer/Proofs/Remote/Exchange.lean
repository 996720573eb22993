import CacheLayer.Proofs.Remote.Tokens
import CacheLayer.Remote.Cache
/-!
# Updates of a remote cache

An update of a remote cache on a server that others use. An attempt is two requests, a read and a
write on condition, and others may do anything between two requests. Every step comes with the
mapper of that moment, so that a mapper may answer differently each time it is called.

## Key results

- `RemoteCache.Turn`: what a step of an update can do
- `RemoteCache.turn_step`: these are all the things that it can do
- `Exchange.moves_after`: what an event can do to the server
-/

namespace CacheLayer.Remote

variable {κ ν : Type}

/-! ## What the server answers to a write on condition -/

/-- What asks for a token is stored if the live item has it. -/
theorem Server.cas_eq (s : Server) (now : Nat) (key : String) (token expiration : Nat)
    (data : ByteArray) (hs : s.unavailable = false) :
    s.cas now key token expiration data =
      if (s.item? now key).map Item.token = some token then
        (.ok .stored, s.put now key expiration data)
      else (.ok (if s.item? now key = none then .missing else .changed), s) := by
  simp only [Server.cas, Server.writing, hs]
  cases s.item? now key with
  | none => rfl
  | some i => by_cases ht : i.token = token <;> simp [ht]

/-- What asks for absence is stored if there is no live item. -/
theorem Server.add_eq (s : Server) (now : Nat) (key : String) (expiration : Nat)
    (data : ByteArray) (hs : s.unavailable = false) :
    s.add now key expiration data =
      if s.item? now key = none then (.ok true, s.put now key expiration data)
      else (.ok false, s) := by
  simp only [Server.add, Server.writing, hs]
  cases s.item? now key <;> simp

/-- An unavailable server refuses to write. -/
theorem Server.writing_of_unavailable {α : Type} {s : Server} (hs : s.unavailable = true)
    (f : Server → α × Server) : s.writing f = (.error refusal, s) := by
  simp [Server.writing, hs]

/-- A live item is there. -/
theorem Server.items_of_item? {s : Server} {now : Nat} {key : String} {i : Item}
    (h : s.item? now key = some i) : s.items[key]? = some i :=
  (Option.filter_eq_some_iff.1 h).1

namespace RemoteCache

variable (c : RemoteCache κ ν) (wire : String)

/-! ## What a step of an update can do -/

/-- What an attempt has read: the value of the live item with its token, or that there is none. -/
inductive Reads (s : Site) : Option ν → Option Nat → Prop where
  | absent : s.server.item? s.now wire = none → Reads s none none
  | present (i : Item) (v : ν) : s.server.item? s.now wire = some i →
    c.transcoder.decode i.data = .ok v → Reads s (some v) (some i.token)

/-- What a step of an update can do: where the update stands before and after it, the site after it,
and what the mapper is shown. -/
inductive Turn (f : Mapper ν) (s : Site) :
    Update (Option Nat) ν → Update (Option Nat) ν → Site → List (Option ν) → Prop where
  /-- No attempts are left. -/
  | giveUp : Turn f s (.toRead 0) (.done (.ok false)) s []
  | refuseRead (left : Nat) : s.server.unavailable = true →
    Turn f s (.toRead (left + 1)) (.done (.error Server.refusal)) s []
  /-- The bytes of the item mean nothing. -/
  | corrupt (left : Nat) (i : Item) (x : CacheError) : s.server.item? s.now wire = some i →
    c.transcoder.decode i.data = .error x → Turn f s (.toRead (left + 1)) (.done (.error x)) s []
  /-- The mapper leaves the key alone. -/
  | decline (left : Nat) {current : Option ν} {token? : Option Nat} :
    Reads c wire s current token? → f current = none →
    Turn f s (.toRead (left + 1)) (.done (.ok false)) s [current]
  /-- The mapper answers with a value. -/
  | map (left : Nat) {current : Option ν} {token? : Option Nat} (v : ν) :
    Reads c wire s current token? → f current = some v →
    Turn f s (.toRead (left + 1)) (.toWrite left token? v) s [current]
  /-- The value cannot be encoded, or has too many bytes. -/
  | tooMuch (left : Nat) (token? : Option Nat) (v : ν) (x : CacheError) : c.encode v = .error x →
    Turn f s (.toWrite left token? v) (.done (.error x)) s []
  | refuseWrite (left : Nat) (token? : Option Nat) (v : ν) : s.server.unavailable = true →
    Turn f s (.toWrite left token? v) (.done (.error Server.refusal)) s []
  /-- The item that was read is gone. -/
  | vanish (left token : Nat) (v : ν) : s.server.item? s.now wire = none →
    Turn f s (.toWrite left (some token) v) (.done (.ok false)) s []
  /-- The race is lost. -/
  | lose (left : Nat) (token? : Option Nat) (v : ν) :
    (s.server.item? s.now wire).map Item.token ≠ token? →
    Turn f s (.toWrite left token? v) (.toRead left) s []
  /-- The live item has the token that was read, or there is still none. -/
  | write (left : Nat) (token? : Option Nat) (v : ν) (data : ByteArray) :
    c.encode v = .ok data → s.server.unavailable = false →
    (s.server.item? s.now wire).map Item.token = token? →
    Turn f s (.toWrite left token? v) (.done (.ok true))
      ⟨s.now, s.server.put s.now wire c.expirationMillis data⟩ []
  /-- The update is over. -/
  | rest (answer : Outcome Bool) : Turn f s (.done answer) (.done answer) s []

variable {c wire}

/-- What the mapper is shown in the next step of an update, if it is called. -/
def shownNext (c : RemoteCache κ ν) (wire : String) (s : Site) :
    Update (Option Nat) ν → List (Option ν)
  | .toRead (_ + 1) => shown ((c.updater wire).read s).1
  | _ => []

/-- An attempt begins with a read. -/
private theorem turn_read (f : Mapper ν) (s : Site) (left : Nat) :
    Turn c wire f s (.toRead (left + 1))
      (Update.step (c.updater wire) f (.toRead (left + 1)) s).1 s
      (shownNext c wire s (.toRead (left + 1))) := by
  -- The read fails, or shows the mapper nothing, or shows it the value of the live item.
  simp only [Update.step, shownNext, updater, updateRead, Server.gets, Server.reading]
  split
  · next hs => exact .refuseRead left hs
  · cases hi : s.server.item? s.now wire with
    | none =>
      simp only [Option.map_none, bind, Except.bind, pure, Except.pure, Update.afterRead, shown]
      split
      · next hf => exact .decline left (.absent hi) hf
      · next v hf => exact .map left v (.absent hi) hf
    | some i =>
      simp only [Option.map_some, bind, Except.bind]
      cases hd : c.transcoder.decode i.data with
      | error x => exact .corrupt left i x hi hd
      | ok u =>
        simp only [pure, Except.pure, Update.afterRead, shown]
        split
        · next hf => exact .decline left (.present i u hi hd) hf
        · next v hf => exact .map left v (.present i u hi hd) hf

/-- A write on condition of a value whose bytes are few enough. -/
theorem updateWrite_of_encode (s : Server) (now : Nat) (token? : Option Nat) {v : ν}
    {data : ByteArray} (he : c.encode v = .ok data) :
    c.updateWrite now wire token? v s =
      if s.unavailable then (.error Server.refusal, s)
      else if (s.item? now wire).map Item.token = token? then
        (.ok (some true), s.put now wire c.expirationMillis data)
      else (.ok (if s.item? now wire = none then some false else none), s) := by
  simp only [updateWrite, he, bind, Except.bind, pure, Except.pure, send]
  -- With a token the write is a `cas`, without one an `add`; both ask for what was read.
  cases hs : s.unavailable with
  | true =>
    cases token? <;>
      simp [Server.cas, Server.add, Server.writing_of_unavailable hs, Except.map]
  | false =>
    cases token? with
    | none =>
      rw [Server.add_eq s now wire _ data hs]
      cases s.item? now wire <;> simp [Except.map, addEnd]
    | some token =>
      dsimp only
      rw [Server.cas_eq s now wire token _ data hs]
      cases s.item? now wire with
      | none => simp [Except.map, casEnd]
      | some i => by_cases ht : i.token = token <;> simp [ht, Except.map, casEnd]

/-- An attempt ends with a write on condition. -/
private theorem turn_write (f : Mapper ν) (s : Site) (left : Nat) (token? : Option Nat) (v : ν) :
    Turn c wire f s (.toWrite left token? v)
      (Update.step (c.updater wire) f (.toWrite left token? v) s).1
      (Update.step (c.updater wire) f (.toWrite left token? v) s).2 [] := by
  simp only [Update.step, updater, Site.request]
  cases he : c.encode v with
  | error x =>
    simp only [updateWrite, he, bind, Except.bind, send]
    exact .tooMuch left token? v x he
  | ok data =>
    rw [updateWrite_of_encode s.server s.now token? he]
    split
    · next hs => exact .refuseWrite left token? v hs
    · next hs =>
      split
      · next ht => exact .write left token? v data he (Bool.eq_false_iff.2 hs) ht
      · next ht =>
        -- Without an item there was a token to ask for, and the item that had it is gone.
        split
        · next hi =>
          cases token? with
          | none => exact absurd (by rw [hi]; rfl) ht
          | some token => exact .vanish left token v hi
        · exact .lose left token? v ht

/-- The rules tell all that a step can do. -/
theorem turn_step (f : Mapper ν) (s : Site) (u : Update (Option Nat) ν) :
    Turn c wire f s u (Update.step (c.updater wire) f u s).1
      (Update.step (c.updater wire) f u s).2 (shownNext c wire s u) := by
  cases u with
  | toRead left =>
    cases left with
    | zero => exact .giveUp
    | succ left => exact turn_read f s left
  | toWrite left token? v => exact turn_write f s left token? v
  | done answer => exact .rest answer

/-- A step puts one item, or leaves everything as it is. -/
theorem Turn.server {f : Mapper ν} {s s' : Site} {u u' : Update (Option Nat) ν}
    {seen : List (Option ν)} (h : Turn c wire f s u u' s' seen) :
    s' = s ∨ ∃ data, s' = ⟨s.now, s.server.put s.now wire c.expirationMillis data⟩ := by
  cases h with
  | write left token? v data he hs ht => exact .inr ⟨data, rfl⟩
  | _ => exact .inl rfl

end RemoteCache

/-! ## An update among others -/

/-- A server that others use, and a call of an update. -/
structure Exchange (ν : Type) where
  shared : Shared
  call : Update (Option Nat) ν

namespace Exchange

/-- What can happen. -/
inductive Event (ν : Type) where
  /-- The call takes its next step; should it call its mapper, the mapper is `f`. -/
  | step (f : Mapper ν)
  /-- Somebody else does something. -/
  | other (d : Deed)

variable (c : RemoteCache κ ν) (k : κ)

/-- A call of an update of a key begins. It is over at once if the wire key is not acceptable. -/
def begin (attempts : Nat) (w : Shared) : Exchange ν :=
  match c.wireKey k with
  | .error x => ⟨w, .done (.error x)⟩
  | .ok _ => ⟨w, .toRead attempts⟩

/-- The exchange after an event. -/
def after (x : Exchange ν) : Event ν → Exchange ν
  | .step f =>
    let (call, site) := Update.step (c.updater (c.translate k)) f x.call x.shared.site
    ⟨⟨site, x.shared.made⟩, call⟩
  | .other d => { x with shared := x.shared.after d }

/-- The exchange after events. -/
def run (x : Exchange ν) (es : List (Event ν)) : Exchange ν := es.foldl (after c k) x

variable {c k}

@[simp] theorem run_nil (x : Exchange ν) : x.run c k [] = x := rfl

theorem run_append (x : Exchange ν) (es es' : List (Event ν)) :
    x.run c k (es ++ es') = (x.run c k es).run c k es' :=
  List.foldl_append

theorem run_concat (x : Exchange ν) (es : List (Event ν)) (e : Event ν) :
    x.run c k (es ++ [e]) = (x.run c k es).after c k e := by
  rw [run_append]
  rfl

/-- A step of the call, by the rules. -/
theorem turn_after (x : Exchange ν) (f : Mapper ν) :
    RemoteCache.Turn c (c.translate k) f x.shared.site x.call (x.after c k (.step f)).call
      (x.after c k (.step f)).shared.site
      (RemoteCache.shownNext c (c.translate k) x.shared.site x.call) :=
  RemoteCache.turn_step f x.shared.site x.call

/-- An event moves the server like a deed. -/
theorem moves_after (x : Exchange ν) (e : Event ν) :
    Shared.Moves x.shared (x.after c k e).shared := by
  cases e with
  | other d => exact x.shared.moves_after d
  | step f =>
    rcases (x.turn_after (k := k) f).server with hsite | ⟨data, hsite⟩
    · exact .rest (congrArg Site.server hsite) rfl
    · exact Shared.moves_put (c.translate k) _ _ data (congrArg Site.server hsite) rfl

/-- No two items ever get one token. -/
theorem fresh_run {x : Exchange ν} (h : x.shared.Fresh) (es : List (Event ν)) :
    (x.run c k es).shared.Fresh := by
  induction es generalizing x with
  | nil => exact h
  | cons e es ih => exact ih (h.moves (x.moves_after e))

/-- An item that was seen is the only one with its token for ever after. -/
theorem known_run {x : Exchange ν} {key : String} {i : Item} (h : x.shared.Known key i)
    (es : List (Event ν)) : (x.run c k es).shared.Known key i := by
  induction es generalizing x with
  | nil => exact h
  | cons e es ih => exact ih (h.moves (x.moves_after e))

end Exchange

end CacheLayer.Remote
