import CacheLayer.Proofs.Remote.Exchange
import CacheLayer.Proofs.Update.Observed
/-!
# Updates of a remote cache write once

What is observed of a call of an update in a run: what its mapper is shown, and how often it writes.
A call writes only while the live item of its wire key has the token that was read, and no other
item ever has that token, so that it writes on top of the very item that its mapper was shown. On
every other way out it leaves the server alone.

## Key results

- `Exchange.lastToken_run_le`: a run takes no more tokens than there are writes in it
- `Exchange.Progress.concat`: what is known of a call is kept by every event
- `Exchange.Progress.overwrites`: a call writes on top of what its mapper was shown last
- `Exchange.writes_once_iff_ok_true`: a call succeeds if and only if it has written, once
-/

namespace CacheLayer.Remote.Exchange

variable {κ ν : Type}

/-! ## What is observed of a call -/

section

variable (c : RemoteCache κ ν) (k : κ)

/-- What the mapper of the call is shown in an event. -/
def shownBy (x : Exchange ν) : Event ν → List (Option ν)
  | .step _ => RemoteCache.shownNext c (c.translate k) x.shared.site x.call
  | .other _ => []

/-- How often the call writes in an event. Every write takes a token, and nothing else does. -/
def writesBy (x : Exchange ν) : Event ν → Nat
  | .step f => (x.after c k (.step f)).shared.server.lastToken - x.shared.server.lastToken
  | .other _ => 0

/-- What the mapper of the call is shown in a run, in this order. -/
def shownTo : Exchange ν → List (Event ν) → List (Option ν)
  | _, [] => []
  | x, e :: es => shownBy c k x e ++ shownTo (x.after c k e) es

/-- How often the call writes in a run. -/
def writesOf : Exchange ν → List (Event ν) → Nat
  | _, [] => 0
  | x, e :: es => writesBy c k x e + writesOf (x.after c k e) es

/-- Why a call of at most so many attempts has ended with an answer. -/
inductive Cause (attempts : Nat) (start : Exchange ν) (es : List (Event ν)) :
    Outcome Bool → Prop where
  | written : writesOf c k start es = 1 → Cause attempts start es (.ok true)
  /-- The mapper has left the key alone the last time that it was called. -/
  | declined (es₁ : List (Event ν)) (f : Mapper ν) (es₂ : List (Event ν)) (current : Option ν) :
    es = es₁ ++ .step f :: es₂ →
    shownTo c k start es = shownTo c k start es₁ ++ [current] → f current = none →
    Cause attempts start es (.ok false)
  /-- The item whose value the mapper was shown was gone at the write. -/
  | vanished (es₁ : List (Event ν)) (f : Mapper ν) (es₂ : List (Event ν)) (left token : Nat)
    (v : ν) : es = es₁ ++ .step f :: es₂ →
    (start.run c k es₁).call = .toWrite left (some token) v →
    (start.run c k es₁).shared.item? (c.translate k) = none →
    Cause attempts start es (.ok false)
  /-- The mapper was called in every attempt, and all of them were lost. -/
  | lost : (shownTo c k start es).length = attempts → Cause attempts start es (.ok false)
  | invalidKey {x : CacheError} : c.wireKey k = .error x → Cause attempts start es (.error x)
  | refused : Cause attempts start es (.error Server.refusal)
  | corrupt {data : ByteArray} {x : CacheError} : c.transcoder.decode data = .error x →
    Cause attempts start es (.error x)
  | tooMuch {v : ν} {x : CacheError} : c.encode v = .error x → Cause attempts start es (.error x)

/-- A step of a call, taken after a run, writes on top of what its mapper was shown last. -/
inductive Overwrites (start : Exchange ν) (es : List (Event ν)) (f : Mapper ν) : Prop where
  /-- The live item is the very item whose value the mapper was shown, and its token is asked
  for. -/
  | replaces (es₁ : List (Event ν)) (g : Mapper ν) (es₂ : List (Event ν)) (i : Item) (u v : ν)
    (data : ByteArray) : es = es₁ ++ .step g :: es₂ →
    shownTo c k start es = shownTo c k start es₁ ++ [some u] →
    (start.run c k es₁).shared.item? (c.translate k) = some i →
    c.transcoder.decode i.data = .ok u → g (some u) = some v → c.encode v = .ok data →
    (start.run c k es).shared.item? (c.translate k) = some i →
    (start.run c k es).shared.server.cas (start.run c k es).shared.site.now (c.translate k)
        i.token c.expirationMillis data =
      (.ok .stored, (start.run c k (es ++ [.step f])).shared.server) →
    Overwrites start es f
  /-- There is no live item, as when the mapper was called, and absence is asked for. -/
  | adds (es₁ : List (Event ν)) (g : Mapper ν) (es₂ : List (Event ν)) (v : ν)
    (data : ByteArray) : es = es₁ ++ .step g :: es₂ →
    shownTo c k start es = shownTo c k start es₁ ++ [none] →
    (start.run c k es₁).shared.item? (c.translate k) = none →
    g none = some v → c.encode v = .ok data →
    (start.run c k es).shared.item? (c.translate k) = none →
    (start.run c k es).shared.server.add (start.run c k es).shared.site.now (c.translate k)
        c.expirationMillis data =
      (.ok true, (start.run c k (es ++ [.step f])).shared.server) →
    Overwrites start es f

/-- A call with a value to be written: its last read showed the mapper what was live at that moment,
and the mapper gave the value. -/
def Mapped (start : Exchange ν) (es : List (Event ν)) (token? : Option Nat) (v : ν) : Prop :=
  ∃ es₁ f es₂ current, es = es₁ ++ .step f :: es₂ ∧
    shownTo c k start es = shownTo c k start es₁ ++ [current] ∧ f current = some v ∧
    RemoteCache.Reads c (c.translate k) (start.run c k es₁).shared.site current token?

/-- What is known of a call of at most so many attempts after a run. -/
structure Progress (attempts : Nat) (start : Exchange ν) (es : List (Event ν)) : Prop where
  writes : writesOf c k start es = (start.run c k es).call.hasSucceeded.toNat
  shown : (∀ answer, (start.run c k es).call ≠ .done answer) →
    (shownTo c k start es).length + (start.run c k es).call.left = attempts
  mapped : ∀ left token? v, (start.run c k es).call = .toWrite left token? v →
    Mapped c k start es token? v
  cause : ∀ answer, (start.run c k es).call = .done answer → Cause c k attempts start es answer

end

variable {c : RemoteCache κ ν} {k : κ} {attempts : Nat} {start : Exchange ν}
  {es : List (Event ν)}

theorem shownTo_concat (e : Event ν) : shownTo c k start (es ++ [e]) =
    shownTo c k start es ++ shownBy c k (start.run c k es) e := by
  induction es generalizing start with
  | nil => exact List.append_nil _
  | cons e' es ih =>
    rw [List.cons_append, shownTo, ih, shownTo, List.append_assoc]
    rfl

theorem writesOf_concat (e : Event ν) : writesOf c k start (es ++ [e]) =
    writesOf c k start es + writesBy c k (start.run c k es) e := by
  induction es generalizing start with
  | nil => exact (Nat.zero_add _).symm
  | cons e' es ih =>
    rw [List.cons_append, writesOf, ih, writesOf, Nat.add_assoc]
    rfl

/-- How many writes of others begin in an event. -/
def Event.othersWrites : Event ν → Nat
  | .step _ => 0
  | .other d => d.writes

/-- An event takes at most one token for each write in it. -/
private theorem lastToken_after_le (x : Exchange ν) (e : Event ν) :
    (x.after c k e).shared.server.lastToken ≤
      x.shared.server.lastToken + (writesBy c k x e + e.othersWrites) := by
  cases e with
  | step f =>
    rw [writesBy, Event.othersWrites]
    omega
  | other d =>
    rw [writesBy, Nat.zero_add]
    exact x.shared.lastToken_after_le d

/-- A run takes at most one token for each write, be it one of the call or one of others. So tokens
of 64 bits are as good as unbounded ones in all runs with fewer than 2 ^ 64 writes. -/
theorem lastToken_run_le (x : Exchange ν) (es : List (Event ν)) :
    (x.run c k es).shared.server.lastToken ≤
      x.shared.server.lastToken + (writesOf c k x es + (es.map Event.othersWrites).sum) := by
  induction es generalizing x with
  | nil => exact Nat.le_refl _
  | cons e es ih =>
    have hfirst := x.lastToken_after_le (c := c) (k := k) e
    have hrest := ih (x.after c k e)
    have hrun : x.run c k (e :: es) = (x.after c k e).run c k es := rfl
    rw [hrun, writesOf, List.map_cons, List.sum_cons]
    omega

/-! ## One event -/

/-- An event in which the call does nothing is not observed. -/
private theorem Progress.still (h : Progress c k attempts start es) {e : Event ν}
    (hcall : (start.run c k (es ++ [e])).call = (start.run c k es).call)
    (hshown : shownBy c k (start.run c k es) e = [])
    (hwrites : writesBy c k (start.run c k es) e = 0) :
    Progress c k attempts start (es ++ [e]) := by
  have hsame : shownTo c k start (es ++ [e]) = shownTo c k start es := by
    rw [shownTo_concat, hshown, List.append_nil]
  have hsum : writesOf c k start (es ++ [e]) = writesOf c k start es := by
    rw [writesOf_concat, hwrites, Nat.add_zero]
  constructor
  case writes =>
    rw [hsum, hcall]
    exact h.writes
  case shown =>
    rw [hsame, hcall]
    exact h.shown
  case mapped =>
    intro left token? v hstate
    -- The read that showed it is still in the run, and no read has come after it.
    obtain ⟨es₁, f, es₂, current, hes, hseen, hf, hreads⟩ := h.mapped left token? v (hcall ▸ hstate)
    refine ⟨es₁, f, es₂ ++ [e], current, ?_, hsame.trans hseen, hf, hreads⟩
    rw [hes, List.append_assoc, List.cons_append]
  case cause =>
    -- The moment that a cause names is one of the longer run as well.
    intro answer hdone
    cases h.cause answer (hcall ▸ hdone) with
    | written hone => exact .written (hsum.trans hone)
    | declined es₁ f es₂ current hes hseen hf =>
      refine .declined es₁ f (es₂ ++ [e]) current ?_ (hsame.trans hseen) hf
      rw [hes, List.append_assoc, List.cons_append]
    | vanished es₁ f es₂ left token v hes hstate hgone =>
      refine .vanished es₁ f (es₂ ++ [e]) left token v ?_ hstate hgone
      rw [hes, List.append_assoc, List.cons_append]
    | lost hlen => exact .lost (hsame ▸ hlen)
    | invalidKey hkey => exact .invalidKey hkey
    | refused => exact .refused
    | corrupt hdata => exact .corrupt hdata
    | tooMuch hv => exact .tooMuch hv

/-- A step that ends the call without a write. -/
private theorem Progress.ends (h : Progress c k attempts start es) {f : Mapper ν}
    {answer : Outcome Bool} (hcall : (start.run c k (es ++ [Event.step f])).call = .done answer)
    (hnot : answer ≠ .ok true) (hbefore : (start.run c k es).call.hasSucceeded = false)
    (hwrites : writesBy c k (start.run c k es) (.step f) = 0)
    (hcause : Cause c k attempts start (es ++ [Event.step f]) answer) :
    Progress c k attempts start (es ++ [Event.step f]) := by
  constructor
  case writes =>
    -- Nothing was written before, and the answer does not say that anything was.
    rw [writesOf_concat, hwrites, h.writes, hbefore, hcall]
    have hfalse : (Update.done answer : Update (Option Nat) ν).hasSucceeded = false :=
      Bool.eq_false_iff.2 fun htrue =>
        hnot (Update.done.inj (Update.hasSucceeded_iff.1 htrue))
    rw [hfalse]
    rfl
  case shown =>
    intro hgoing
    exact absurd hcall (hgoing answer)
  case mapped =>
    intro left token? v hstate
    rw [hcall] at hstate
    exact nomatch hstate
  case cause =>
    intro answer' hdone
    obtain rfl := Update.done.inj (hcall.symm.trans hdone)
    exact hcause

/-- A step with which the call goes on, without a write. -/
private theorem Progress.goesOn (h : Progress c k attempts start es) {f : Mapper ν}
    (hgoing : ∀ answer, (start.run c k (es ++ [Event.step f])).call ≠ .done answer)
    (hbefore : (start.run c k es).call.hasSucceeded = false)
    (hwrites : writesBy c k (start.run c k es) (.step f) = 0)
    (hshown : (shownTo c k start (es ++ [Event.step f])).length +
      (start.run c k (es ++ [Event.step f])).call.left = attempts)
    (hmapped : ∀ left token? v,
      (start.run c k (es ++ [Event.step f])).call = .toWrite left token? v →
      Mapped c k start (es ++ [Event.step f]) token? v) :
    Progress c k attempts start (es ++ [Event.step f]) := by
  constructor
  case writes =>
    have hfalse : (start.run c k (es ++ [Event.step f])).call.hasSucceeded = false :=
      Bool.eq_false_iff.2 fun htrue => hgoing _ (Update.hasSucceeded_iff.1 htrue)
    rw [writesOf_concat, hwrites, h.writes, hbefore, hfalse]
    rfl
  case shown => exact fun _ => hshown
  case mapped => exact hmapped
  case cause => exact fun answer hdone => absurd hdone (hgoing answer)

/-- A step of the call. -/
private theorem Progress.step (h : Progress c k attempts start es) (f : Mapper ν) :
    Progress c k attempts start (es ++ [Event.step f]) := by
  have hturn := turn_after (c := c) (k := k) (start.run c k es) f
  rw [← run_concat] at hturn
  have hseen : shownTo c k start (es ++ [Event.step f]) = shownTo c k start es ++
      RemoteCache.shownNext c (c.translate k) (start.run c k es).shared.site
        (start.run c k es).call := shownTo_concat _
  have hwrites : writesBy c k (start.run c k es) (.step f) =
      (start.run c k (es ++ [Event.step f])).shared.site.server.lastToken -
        (start.run c k es).shared.site.server.lastToken := by
    rw [run_concat]
    rfl
  -- Only the rule for the write takes a token.
  -- The rules speak of the states of the call; what was known of them is carried along.
  have hshown := h.shown
  have hmapped := h.mapped
  generalize hcall : (start.run c k es).call = u at hturn hseen hshown hmapped
  generalize hcall' : (start.run c k (es ++ [Event.step f])).call = u' at hturn
  generalize hsite' : (start.run c k (es ++ [Event.step f])).shared.site = s' at hturn hwrites
  generalize RemoteCache.shownNext c (c.translate k) (start.run c k es).shared.site u = seen
    at hturn hseen
  cases hturn with
  | giveUp =>
    rw [Nat.sub_self] at hwrites
    rw [List.append_nil] at hseen
    -- No attempt is left, so that the mapper was shown something in each of them.
    have hlen := hshown (by simp)
    refine h.ends hcall' (by simp) (by rw [hcall]; rfl) hwrites (.lost ?_)
    rw [hseen]
    exact hlen
  | refuseRead left hs =>
    rw [Nat.sub_self] at hwrites
    exact h.ends hcall' (by simp) (by rw [hcall]; rfl) hwrites .refused
  | corrupt left i x hi hd =>
    rw [Nat.sub_self] at hwrites
    exact h.ends hcall' (by simp) (by rw [hcall]; rfl) hwrites (.corrupt hd)
  | decline left hreads hf =>
    rw [Nat.sub_self] at hwrites
    exact h.ends hcall' (by simp) (by rw [hcall]; rfl) hwrites
      (.declined es f [] _ rfl hseen hf)
  | map left v hreads hf =>
    rw [Nat.sub_self] at hwrites
    -- The mapper is shown what is live now, which uses up an attempt.
    have hlen := hshown (by simp)
    refine h.goesOn (by simp [hcall']) (by rw [hcall]; rfl) hwrites ?_ ?_
    · rw [hseen, hcall', List.length_append, List.length_singleton]
      simp only [Update.left] at hlen ⊢
      omega
    · intro left' token? v' hstate
      rw [hcall'] at hstate
      obtain ⟨rfl, rfl, rfl⟩ := Update.toWrite.inj hstate
      exact ⟨es, f, [], _, rfl, hseen, hf, hreads⟩
  | tooMuch left token? v x he =>
    rw [Nat.sub_self] at hwrites
    exact h.ends hcall' (by simp) (by rw [hcall]; rfl) hwrites (.tooMuch he)
  | refuseWrite left token? v hs =>
    rw [Nat.sub_self] at hwrites
    exact h.ends hcall' (by simp) (by rw [hcall]; rfl) hwrites .refused
  | vanish left token v hi =>
    rw [Nat.sub_self] at hwrites
    exact h.ends hcall' (by simp) (by rw [hcall]; rfl) hwrites
      (.vanished es f [] left token v rfl hcall hi)
  | lose left token? v ht =>
    rw [Nat.sub_self] at hwrites
    rw [List.append_nil] at hseen
    -- The token was no longer that of the live item; the attempt was paid for by the read.
    have hlen := hshown (by simp)
    refine h.goesOn (by simp [hcall']) (by rw [hcall]; rfl) hwrites ?_ ?_
    · rw [hseen, hcall']
      exact hlen
    · intro left' token? v' hstate
      rw [hcall'] at hstate
      cases hstate
  | write left token? v data he hs ht =>
    -- This is the only write: the call had not succeeded before, and is over now.
    have hone : writesOf c k start (es ++ [Event.step f]) = 1 := by
      rw [writesOf_concat, hwrites, h.writes, hcall, Server.lastToken_put, Nat.add_sub_cancel_left]
      rfl
    constructor
    case writes =>
      rw [hone, hcall']
      rfl
    case shown => exact fun hgoing => absurd hcall' (hgoing _)
    case mapped =>
      intro left' token? v' hstate
      rw [hcall'] at hstate
      cases hstate
    case cause =>
      intro answer hdone
      obtain rfl := Update.done.inj (hcall'.symm.trans hdone)
      exact .written hone
  | rest answer =>
    rw [Nat.sub_self] at hwrites
    -- The call is over, and its steps do nothing.
    refine h.still (hcall'.trans hcall.symm) ?_ hwrites
    rw [shownBy, hcall]
    rfl

/-- What is known of a call is kept by every event. -/
theorem Progress.concat (h : Progress c k attempts start es) (e : Event ν) :
    Progress c k attempts start (es ++ [e]) := by
  cases e with
  | step f => exact h.step f
  | other d =>
    refine h.still ?_ rfl rfl
    rw [run_concat]
    rfl

/-- From its beginning on, a call is observed. -/
theorem progress_run (c : RemoteCache κ ν) (k : κ) (attempts : Nat) (w : Shared)
    (es : List (Event ν)) : Progress c k attempts (begin c k attempts w) es := by
  induction es using List.reverseRecOn with
  | append_singleton es e ih => exact ih.concat e
  | nil =>
    cases hkey : c.wireKey k with
    | error x =>
      -- The key is looked at first, so that such a call has no attempt at all.
      have hcall : ((begin c k attempts w).run c k []).call = .done (.error x) := by
        simp only [begin, hkey, run_nil]
      constructor
      case writes =>
        rw [hcall]
        rfl
      case shown => exact fun hgoing => absurd hcall (hgoing _)
      case mapped =>
        intro left token? v hstate
        rw [hcall] at hstate
        exact nomatch hstate
      case cause =>
        intro answer hdone
        obtain rfl := Update.done.inj (hcall.symm.trans hdone)
        exact .invalidKey hkey
    | ok wire =>
      have hcall : ((begin c k attempts w).run c k []).call = .toRead attempts := by
        simp only [begin, hkey, run_nil]
      constructor
      case writes =>
        rw [hcall]
        rfl
      case shown =>
        intro _
        rw [hcall]
        exact Nat.zero_add attempts
      case mapped =>
        intro left token? v hstate
        rw [hcall] at hstate
        exact nomatch hstate
      case cause =>
        intro answer hdone
        rw [hcall] at hdone
        exact nomatch hdone

/-! ## The write -/

/-- What the mapper was shown is still there if the live item has the token that was read: no other
item ever has that token. -/
private theorem Mapped.overwrites (hfresh : start.shared.Fresh) {token? : Option Nat} {v : ν}
    (h : Mapped c k start es token? v) {f : Mapper ν} {data : ByteArray}
    (he : c.encode v = .ok data) (hs : (start.run c k es).shared.server.unavailable = false)
    (ht : ((start.run c k es).shared.item? (c.translate k)).map Item.token = token?)
    (hserver : (start.run c k (es ++ [Event.step f])).shared.server =
      (start.run c k es).shared.server.put (start.run c k es).shared.site.now (c.translate k)
        c.expirationMillis data) :
    Overwrites c k start es f := by
  obtain ⟨es₁, g, es₂, current, hes, hseen, hg, hreads⟩ := h
  cases hreads with
  | absent hi =>
    have hnone := Option.map_eq_none_iff.1 ht
    refine .adds es₁ g es₂ v data hes hseen hi hg he hnone ?_
    rw [hserver]
    exact (Server.add_eq _ _ _ _ _ hs).trans (if_pos hnone)
  | present i u hi hd =>
    -- A token is given once, so that the live item is the one that was read.
    obtain ⟨i', hi', htoken⟩ := Option.map_eq_some_iff.1 ht
    have hknown := known_run (c := c) (k := k)
      ((fresh_run hfresh es₁).known (Server.items_of_item? hi)) (.step g :: es₂)
    rw [← run_append, ← hes] at hknown
    obtain rfl := hknown.same i' (Server.items_of_item? hi') htoken
    refine .replaces es₁ g es₂ i' u v data hes hseen hi hd hg he hi' ?_
    rw [hserver]
    exact (Server.cas_eq _ _ _ _ _ _ hs).trans (if_pos ht)

/-- A step of the call leaves the server alone, or it writes on top of what the mapper was shown
last. -/
theorem Progress.overwrites (h : Progress c k attempts start es) (hfresh : start.shared.Fresh)
    (f : Mapper ν) :
    (writesBy c k (start.run c k es) (.step f) = 0 ∧
      (start.run c k (es ++ [Event.step f])).shared = (start.run c k es).shared) ∨
    (writesBy c k (start.run c k es) (.step f) = 1 ∧ Overwrites c k start es f) := by
  have hturn := turn_after (c := c) (k := k) (start.run c k es) f
  have hmapped := h.mapped
  have hshared : (start.run c k (es ++ [Event.step f])).shared =
      ⟨((start.run c k es).after c k (.step f)).shared.site, (start.run c k es).shared.made⟩ := by
    rw [run_concat]
    rfl
  rw [writesBy, Shared.server, Shared.server, hshared]
  generalize (start.run c k es).call = u at hturn hmapped
  generalize ((start.run c k es).after c k (.step f)).call = u' at hturn
  generalize ((start.run c k es).after c k (.step f)).shared.site = s' at hturn hshared ⊢
  generalize RemoteCache.shownNext c (c.translate k) (start.run c k es).shared.site u = seen
    at hturn
  -- By the rules, all steps but the write leave the server as it is.
  cases hturn with
  | write left token? v data he hs ht =>
    refine .inr ⟨?_, ?_⟩
    · rw [Server.lastToken_put, Nat.add_sub_cancel_left]
    · exact (hmapped left token? v rfl).overwrites hfresh he hs ht (congrArg Shared.server hshared)
  | _ => exact .inl ⟨Nat.sub_self _, rfl⟩

/-- A call that begins on a server that others have used. -/
def beginAfter (c : RemoteCache κ ν) (k : κ) (attempts : Nat) (ds : List Deed) : Exchange ν :=
  begin c k attempts (({} : Shared).run ds)

/-- The beginning of a call is no request. -/
theorem shared_beginAfter (c : RemoteCache κ ν) (k : κ) (attempts : Nat) (ds : List Deed) :
    (beginAfter c k attempts ds).shared = ({} : Shared).run ds := by
  rw [beginAfter, begin]
  split <;> rfl

/-- A call of an update of a remote cache succeeds if and only if it has written, and then it has
written once. It makes no difference what others do between its requests, or have done before it.

Every answer has its cause. A step of the call either leaves the server alone or is this one write,
on top of what the mapper was shown last: the live item is then the item whose bytes were decoded
for the mapper, with the token that is asked for, or there is no live item, as when the mapper was
shown nothing. -/
theorem writes_once_iff_ok_true (c : RemoteCache κ ν) (k : κ) (attempts : Nat) (ds : List Deed)
    (es : List (Event ν)) :
    ((((beginAfter c k attempts ds).run c k es).call = .done (.ok true) ↔
        writesOf c k (beginAfter c k attempts ds) es = 1) ∧
      (((beginAfter c k attempts ds).run c k es).call ≠ .done (.ok true) ↔
        writesOf c k (beginAfter c k attempts ds) es = 0)) ∧
    (∀ answer, ((beginAfter c k attempts ds).run c k es).call = .done answer →
      Cause c k attempts (beginAfter c k attempts ds) es answer) ∧
    ∀ f,
      (writesBy c k ((beginAfter c k attempts ds).run c k es) (.step f) = 0 ∧
        ((beginAfter c k attempts ds).run c k (es ++ [.step f])).shared =
          ((beginAfter c k attempts ds).run c k es).shared) ∨
      (writesBy c k ((beginAfter c k attempts ds).run c k es) (.step f) = 1 ∧
        Overwrites c k (beginAfter c k attempts ds) es f) := by
  have hprogress := progress_run c k attempts (({} : Shared).run ds) es
  have hfresh : (beginAfter c k attempts ds).shared.Fresh := by
    rw [shared_beginAfter]
    exact Shared.fresh_run .empty ds
  have hwrites := hprogress.writes
  refine ⟨⟨?_, ?_⟩, hprogress.cause, hprogress.overwrites hfresh⟩
  · rw [beginAfter, hwrites, ← Update.hasSucceeded_iff]
    cases ((begin c k attempts (({} : Shared).run ds)).run c k es).call.hasSucceeded <;> decide
  · rw [beginAfter, hwrites, ne_eq, ← Update.hasSucceeded_iff]
    cases ((begin c k attempts (({} : Shared).run ds)).run c k es).call.hasSucceeded <;> decide

/-- A cache of one flag, which is written as one byte. -/
def flagCache : RemoteCache Unit Bool where
  translate _ := "flag"
  transcoder := ⟨fun b => .ok ⟨#[if b then 1 else 0]⟩, fun data => .ok (data.data == #[1])⟩
  expiration := 0

/-- Turns a flag over, or sets it. -/
def turnOver : Mapper Bool := fun flag? => some !(flag?.getD false)

/-- The flag is set at first. -/
def flagSet : List Deed := [.make "flag" 0 ⟨#[1]⟩, .store 0]

/-- Somebody else turns the flag over between the read and the write of the first attempt. -/
def lostOnce : List (Event Bool) :=
  [.step turnOver, .other (.cas "flag" 1 0 ⟨#[0]⟩), .step turnOver, .other (.wait 5),
    .step turnOver]

/-- The second attempt writes, once, on top of what somebody else has written. -/
theorem writes_once_iff_ok_true_lostOnce :
    writesOf flagCache () (beginAfter flagCache () 2 flagSet) (lostOnce ++ [.step turnOver]) = 1 ∧
      Overwrites flagCache () (beginAfter flagCache () 2 flagSet) lostOnce turnOver := by
  have hkey : flagCache.wireKey () = .ok "flag" := by cbv
  have hwire : flagCache.translate () = "flag" := rfl
  have hencode : ∀ b, flagCache.encode b = .ok ⟨#[if b then 1 else 0]⟩ := by
    intro b
    cases b <;> rfl
  have hdecode : ∀ data, flagCache.transcoder.decode data = .ok (data.data == #[1]) :=
    fun _ => rfl
  have hexpiration : flagCache.expirationMillis = 0 := by decide
  have hcalls : ((beginAfter flagCache () 2 flagSet).run flagCache () lostOnce).call =
        .toWrite 0 (some 2) true ∧
      ((beginAfter flagCache () 2 flagSet).run flagCache () (lostOnce ++ [.step turnOver])).call =
        .done (.ok true) := by
    simp only [beginAfter, begin, hkey]
    simp [run, flagSet, lostOnce, after, Update.step, Update.afterRead, Update.afterWrite,
      RemoteCache.updater, RemoteCache.updateRead, RemoteCache.updateWrite, RemoteCache.send,
      RemoteCache.casEnd, Shared.run, Shared.after, Shared.make, Shared.store, Shared.ask,
      Shared.server, Site.request, Site.advance, Server.gets, Server.reading, Server.cas,
      Server.writing, Server.item?, Server.make, Server.store, Server.put, Item.Live,
      Option.filter, turnOver, bind, Except.bind, pure, Except.pure, Except.map, hwire, hencode,
      hdecode, hexpiration]
  obtain ⟨⟨-, hbefore⟩, -, hstep⟩ := writes_once_iff_ok_true flagCache () 2 flagSet lostOnce
  obtain ⟨⟨hafter, -⟩, -⟩ :=
    writes_once_iff_ok_true flagCache () 2 flagSet (lostOnce ++ [.step turnOver])
  have hone := hafter.1 hcalls.2
  have hzero := hbefore.1 (by rw [hcalls.1]; simp)
  refine ⟨hone, ?_⟩
  -- The last step has made the one write there is, so that it is not one that leaves the server
  -- alone.
  rcases hstep turnOver with ⟨hnot, -⟩ | ⟨-, hwrites⟩
  · rw [writesOf_concat, hzero, hnot] at hone
    exact absurd hone (by decide)
  · exact hwrites

end CacheLayer.Remote.Exchange
