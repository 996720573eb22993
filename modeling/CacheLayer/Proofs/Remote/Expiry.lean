import CacheLayer.Proofs.Remote.Ledger
import CacheLayer.Proofs.Remote.Transcoding
import CacheLayer.Proofs.Remote.Wire
/-!
# How long remote values stay

A value is written with an expiration, which is a span of nanoseconds. The server is told whole
milliseconds, and takes zero milliseconds for "for ever". So a value stays for its expiration
rounded down to whole milliseconds, and for ever if nothing is left of it: a value that is to stay
for less than a millisecond is never lost.

A write is a `set`, an entry of a bulk write, or the last attempt of an update. All of them put the
same item, and all reads find it until its deadline comes.

## Key results

- `RemoteCache.Wrote.placed`: what a write that was accepted has put, whichever way it was made
- `RemoteCache.Placed.finds`: what reads find of it later
- `RemoteCache.finds_until_deadline`: the two together, for each kind of expiration
- `RemoteCache.outlives_expiration`: a value that is to stay for half a millisecond is not lost
-/

namespace CacheLayer.Remote

namespace RemoteCache

variable {κ ν : Type} {c : RemoteCache κ ν} {k : κ} {v : ν}

/-! ## What a write has put -/

/-- From when on a value that is written at an instant is gone, if ever. -/
def deadline? (c : RemoteCache κ ν) (now : Nat) : Option Nat :=
  if c.expirationMillis = 0 then none else some (now + Span.ofMillis c.expirationMillis)

/-- Whether the item of a key is a value as it is written at the present instant. -/
structure Placed (c : RemoteCache κ ν) (k : κ) (v : ν) (s : Site) : Prop where
  acceptable : Key.Acceptable (c.translate k)
  item : ∃ data token, c.transcoder.encode v = .ok data ∧
    s.server.items[c.translate k]? = some ⟨data, c.deadline? s.now, token⟩

theorem Placed.put (hkey : Key.Acceptable (c.translate k)) {data : ByteArray}
    (hdata : c.transcoder.encode v = .ok data) (s : Server) (now : Nat) :
    c.Placed k v ⟨now, s.put now (c.translate k) c.expirationMillis data⟩ where
  acceptable := hkey
  item := ⟨data, s.lastToken + 1, hdata, Std.HashMap.getElem?_insert_self⟩

/-- A write that was accepted has put the value. -/
theorem placed_of_set {s s' : Server} {now : Nat} (h : c.set s now k v = (.ok true, s')) :
    c.Placed k v ⟨now, s'⟩ := by
  rcases c.set_cases now k v s.unavailable with ⟨e, hset⟩ | ⟨data, hkey, -, hdata, hset⟩
  · rw [hset s rfl] at h
    cases h
  · rw [hset s rfl] at h
    obtain ⟨-, rfl⟩ := Prod.mk.inj h
    exact .put hkey hdata s now

private theorem unavailable_setEach (s : Server) (now : Nat) (es : List (κ × ν)) :
    (c.setEach now es s).2.unavailable = s.unavailable := by
  induction es generalizing s with
  | nil => rfl
  | cons e es ih =>
    rw [setEach, ih]
    rcases c.set_cases now e.1 e.2 s.unavailable with ⟨x, hset⟩ | ⟨data, -, -, -, hset⟩
    · rw [hset s rfl]
    · rw [hset s rfl]
      rfl

/-- Entries that are not accepted, or go to other wire keys, leave an item alone. What is accepted
only depends on whether the server is available, and this does not change. -/
private theorem getElem?_setEach {s t : Server} (ht : t.unavailable = s.unavailable) {now : Nat}
    {es : List (κ × ν)} {wire : String}
    (h : ∀ e ∈ es, c.accepts s now e → c.translate e.1 ≠ wire) :
    (c.setEach now es t).2.items[wire]? = t.items[wire]? := by
  induction es generalizing t with
  | nil => rfl
  | cons e es ih =>
    obtain ⟨he, hes⟩ := List.forall_mem_cons.1 h
    rw [setEach]
    rcases c.set_cases now e.1 e.2 s.unavailable with ⟨x, hset⟩ | ⟨data, -, -, -, hset⟩
    · rw [hset t ht]
      exact ih ht hes
    · have hother : c.translate e.1 ≠ wire := he (by rw [accepts, hset s rfl]; rfl)
      let t' := t.put now (c.translate e.1) c.expirationMillis data
      have ht' : t'.unavailable = s.unavailable := ht
      rw [hset t ht]
      refine (ih ht' hes).trans ?_
      simp [t', Server.put, Std.HashMap.getElem?_insert, hother]

private theorem setEach_append (s : Server) (now : Nat) (es es' : List (κ × ν)) :
    (c.setEach now (es ++ es') s).2 = (c.setEach now es' (c.setEach now es s).2).2 := by
  induction es generalizing s with
  | nil => rfl
  | cons e es ih =>
    rw [List.cons_append, setEach, setEach]
    exact ih _

/-- An entry of a bulk write that is accepted puts its value, unless a later one goes to the same
wire key. -/
theorem placed_of_setEach {s : Server} {now : Nat} {es es' : List (κ × ν)}
    (haccepts : c.accepts s now (k, v))
    (hlast : ∀ e ∈ es', c.accepts s now e → c.translate e.1 ≠ c.translate k) :
    c.Placed k v ⟨now, (c.setEach now (es ++ (k, v) :: es') s).2⟩ := by
  -- The entries before this one have not changed what is accepted.
  let t := (c.setEach now es s).2
  have ht : t.unavailable = s.unavailable := unavailable_setEach s now es
  rcases c.set_cases now k v s.unavailable with ⟨x, hset⟩ | ⟨data, hkey, -, hdata, hset⟩
  · rw [accepts, hset s rfl] at haccepts
    cases haccepts
  · obtain ⟨hacceptable, data', token, hdata', hitem⟩ := Placed.put hkey hdata t now
    refine ⟨hacceptable, data', token, hdata', ?_⟩
    let t' := t.put now (c.translate k) c.expirationMillis data
    have ht' : t'.unavailable = s.unavailable := ht
    rw [setEach_append, setEach, hset t ht]
    exact (getElem?_setEach ht' hlast).trans hitem

/-- The write of an attempt that ends the update with success has put the value. -/
private theorem placed_of_updateWrite (hkey : Key.Acceptable (c.translate k)) {s s' : Server}
    {now : Nat} {token? : Option Nat}
    (h : c.updateWrite now (c.translate k) token? v s = (.ok (some true), s')) :
    c.Placed k v ⟨now, s'⟩ := by
  cases henc : c.encode v with
  | error e =>
    simp only [updateWrite, henc, bind, Except.bind, send] at h
    cases h
  | ok data =>
    rw [updateWrite_of_encode s now token? henc] at h
    split at h
    · cases h
    · split at h
      · obtain ⟨-, rfl⟩ := Prod.mk.inj h
        exact .put hkey (of_encode henc).2 s now
      · split at h <;> cases h

/-- An update that ends with success has put what the mapper answered to what it was shown last. -/
private theorem placed_of_run (hkey : Key.Acceptable (c.translate k)) {f : Mapper ν}
    {meanwhile : Nat → Site → Site} {attempts i : Nat} {s s' : Site} {seen : List (Option ν)}
    (h : (c.updater (c.translate k)).run f meanwhile attempts i s = (.ok true, seen, s')) :
    ∃ v, seen.getLast?.bind f = some v ∧ c.Placed k v s' := by
  induction attempts generalizing i s seen with
  | zero => cases h
  | succ attempts ih =>
    have hread : (c.updater (c.translate k)).read s =
        (c.updateRead s.now (c.translate k) s.server, s) := rfl
    rw [Updater.run, hread] at h
    rcases hr : c.updateRead s.now (c.translate k) s.server with e | ⟨current, token?⟩
    · rw [hr] at h
      cases h
    rw [hr] at h
    simp only [Update.afterRead, shown, List.isEmpty_cons, Bool.false_eq_true, if_false] at h
    cases hf : f current with
    | none =>
      rw [hf] at h
      cases h
    | some v =>
      have hwrite : (c.updater (c.translate k)).write token? v (meanwhile i s) =
          (meanwhile i s).request fun server now =>
            c.updateWrite now (c.translate k) token? v server := rfl
      rw [hf] at h
      simp only [hwrite, Site.request] at h
      rcases hanswer : c.updateWrite (meanwhile i s).now (c.translate k) token? v
        (meanwhile i s).server with ⟨e | _ | b, server⟩
      · rw [hanswer] at h
        cases h
      · -- The race is lost, and a later attempt has put the value.
        rw [hanswer] at h
        obtain ⟨hend, hmore⟩ := Prod.mk.inj h
        obtain ⟨rfl, hsite⟩ := Prod.mk.inj hmore
        obtain ⟨v', hv', hplaced⟩ := ih (Prod.ext hend (Prod.ext rfl hsite))
        refine ⟨v', ?_, hplaced⟩
        obtain ⟨last, hlast, hv'⟩ := Option.bind_eq_some_iff.1 hv'
        rw [List.getLast?_append, hlast]
        exact hv'
      · rw [hanswer] at h
        obtain ⟨hend, hmore⟩ := Prod.mk.inj h
        obtain ⟨rfl, rfl⟩ := Prod.mk.inj hmore
        obtain rfl := Except.ok.inj hend
        exact ⟨v, hf, placed_of_updateWrite hkey hanswer⟩

theorem placed_of_update {f : Mapper ν} {meanwhile : Nat → Site → Site} {attempts : Nat}
    {s s' : Site} {seen : List (Option ν)}
    (h : c.update k f meanwhile attempts s = (.ok true, seen, s')) :
    ∃ v, seen.getLast?.bind f = some v ∧ c.Placed k v s' := by
  rw [update] at h
  cases hwire : c.wireKey k with
  | error e =>
    rw [hwire] at h
    cases h
  | ok wire =>
    obtain rfl := wireKey_eq hwire
    rw [hwire] at h
    exact placed_of_run (acceptable_of_wireKey hwire) h

/-! ## Writes that were accepted -/

section Wrote

variable [BEq κ] [Hashable κ]

/-- A write of a value that was accepted, with the site after it, whose clock shows the instant of
the write. -/
inductive Wrote (c : RemoteCache κ ν) (k : κ) (v : ν) : Site → Prop where
  | set {s s' : Server} {now : Nat} : c.set s now k v = (.ok true, s') → Wrote c k v ⟨now, s'⟩
  /-- The value is one of several, and no later one of them is put at the same wire key. -/
  | setBulk {s s' : Server} {now : Nat} {es es' : List (κ × ν)} {m : Std.HashMap κ Bool} :
    ((es ++ (k, v) :: es').map Prod.fst).Nodup →
    c.setBulk s now (es ++ (k, v) :: es') = (.ok m, s') → m[k]? = some true →
    (∀ e ∈ es', c.accepts s now e → c.translate e.1 ≠ c.translate k) → Wrote c k v ⟨now, s'⟩
  /-- The value is what the mapper has answered to what it was shown last. Others may have done
  anything while it was called. -/
  | update {f : Mapper ν} {meanwhile : Nat → Site → Site} {attempts : Nat} {s s' : Site}
    {seen : List (Option ν)} : c.update k f meanwhile attempts s = (.ok true, seen, s') →
    seen.getLast?.bind f = some v → Wrote c k v s'

/-- Whichever way a value is written, it has been put. -/
theorem Wrote.placed [LawfulBEq κ] {s : Site} (h : c.Wrote k v s) : c.Placed k v s := by
  cases h with
  | set hset => exact placed_of_set hset
  | @setBulk s s' now es es' m hnodup hset hm hlast =>
    have hserver : (c.setEach now (es ++ (k, v) :: es') s).2 = s' := congrArg Prod.snd hset
    have hbulk := c.bulkWrite_setBulk s now hnodup
    rw [hset] at hbulk
    cases hbulk with
    | written _ pairs _ hvalues _ =>
      -- The answer tells that this entry was accepted.
      obtain ⟨v', hmem, hv'⟩ := (hvalues k true).1 hm
      have hsame : (k, v) = (k, v') :=
        List.inj_on_of_nodup_map hnodup (by simp) hmem rfl
      obtain rfl := (Prod.mk.inj hsame).2
      have haccepts : c.accepts s now (k, v) := by
        rw [accepts, hv']
        rfl
      exact hserver ▸ placed_of_setEach haccepts hlast
  | update hupdate hv =>
    obtain ⟨v', hv', hplaced⟩ := placed_of_update hupdate
    obtain rfl := Option.some.inj (hv.symm.trans hv')
    exact hplaced

end Wrote

/-! ## What reads find -/

/-- What reads of a key find, each in its own way: a read, a bulk read of keys that can be read one
by one, and the first half of an update. A server that is not available refuses them. -/
structure Finds [BEq κ] [Hashable κ] (c : RemoteCache κ ν) (s : Server) (now : Nat) (k : κ)
    (v? : Option ν) : Prop where
  get : c.get s now k = s.reading v?
  getBulk : ∀ keys, k ∈ keys → (∀ k' ∈ keys, ∃ r, c.get s now k' = .ok r) →
    ∃ m, c.getBulk s now keys = .ok m ∧ m[k]? = v?
  updateRead : (c.updateRead now (c.translate k) s).map Prod.fst = s.reading v?

/-- What is read of a key is the value that its live item has, if any. -/
private theorem finds_of_item? [BEq κ] [Hashable κ] [LawfulBEq κ] {s : Server} {now : Nat}
    {v? : Option ν} (hkey : Key.Acceptable (c.translate k))
    (hv : c.decode? ((s.item? now (c.translate k)).map Item.data) = .ok v?) :
    c.Finds s now k v? := by
  -- A read by itself comes first; the other two ways to read a key are compared with it.
  have hget : c.get s now k = s.reading v? := by
    have hwire : c.wireKey k = .ok (c.translate k) := by
      rw [wireKey, Key.check_eq_ok_iff.2 hkey]
      rfl
    rw [get, hwire]
    simp only [bind, Except.bind, Server.get, Server.reading]
    cases s.unavailable with
    | true => rfl
    | false => exact hv
  constructor
  case get => exact hget
  case getBulk =>
    intro keys hk hreadable
    -- A key of a bulk read is read as by itself.
    obtain ⟨m, hm, hall, -⟩ := getBulk_of_get hreadable
    obtain ⟨r, hr⟩ := hreadable k hk
    have hr' : s.reading v? = .ok v? := by
      rw [hget] at hr
      rw [Server.reading] at hr ⊢
      split at hr
      · cases hr
      · next hup => rw [if_neg hup]
    exact ⟨m, hm, Except.ok.inj ((hall k hk).symm.trans (hget.trans hr'))⟩
  case updateRead =>
    -- An update reads the same item, with its token beside it.
    simp only [updateRead, Server.gets, Server.reading]
    cases s.unavailable with
    | true => rfl
    | false =>
      cases hi : s.item? now (c.translate k) with
      | none =>
        rw [hi] at hv
        obtain rfl := Except.ok.inj hv
        rfl
      | some i =>
        rw [hi, Option.map_some, decode?] at hv
        cases hdecode : c.transcoder.decode i.data with
        | error e =>
          rw [hdecode] at hv
          cases hv
        | ok v =>
          rw [hdecode] at hv
          obtain rfl := Except.ok.inj hv
          simp only [Option.map_some, Bool.false_eq_true, if_false, bind, Except.bind, hdecode]
          rfl

/-- A value that was put is found until its deadline, and not from then on, as long as no request
has touched its wire key. Every key with that wire key shows it. -/
theorem Placed.finds [BEq κ] [Hashable κ] [LawfulBEq κ] {s : Site} (h : c.Placed k v s)
    (hv : c.transcoder.Preserves v) {calls : List (Nat × Server.Op)}
    (hcalls : ∀ p ∈ s.server.trace calls, p.1.touched? p.2 ≠ some (c.translate k))
    {k' : κ} (hk' : c.translate k' = c.translate k) (now : Nat) :
    c.Finds (s.server.run calls) now k'
      (if ∀ d ∈ c.deadline? s.now, now < d then some v else none) := by
  obtain ⟨hkey, data, token, hdata, hitem⟩ := h
  have hdecode : c.transcoder.decode data = .ok v := by
    obtain ⟨data', hdata', hdecode⟩ := hv
    obtain rfl := Except.ok.inj (hdata.symm.trans hdata')
    exact hdecode
  have hthere := (Server.getElem?_run_of_untouched hcalls).trans hitem
  rw [← hk'] at hkey hthere
  apply finds_of_item? hkey
  rw [Server.item?, hthere, Option.filter_some]
  by_cases hlive : Item.Live now ⟨data, c.deadline? s.now, token⟩
  · have hbefore : ∀ d ∈ c.deadline? s.now, now < d := hlive
    rw [if_pos hbefore, if_pos (decide_eq_true hlive), Option.map_some, decode?, hdecode]
    rfl
  · have hpast : ¬ ∀ d ∈ c.deadline? s.now, now < d := hlive
    rw [if_neg hpast, if_neg (mt of_decide_eq_true hlive)]
    rfl

/-! ## Expirations -/

/-- An expiration of at least a millisecond is rounded down to whole milliseconds, at most the
greatest number of 64 bits of them. -/
theorem lifetime_le (h : Span.millisecond ≤ c.expiration) :
    c.expirationMillis ≠ 0 ∧ Span.ofMillis c.expirationMillis ≤ c.expiration ∧
      (c.expiration < Span.ofMillis UInt64.size →
        c.expiration < Span.ofMillis c.expirationMillis + Span.millisecond) := by
  refine ⟨?_, Span.ofMillis_toMillis_le c.expiration, ?_⟩
  · simp only [expirationMillis, Span.toMillis, Span.millisecond, UInt64.size] at h ⊢
    omega
  · simp only [expirationMillis, Span.toMillis, Span.ofMillis, Span.millisecond, UInt64.size]
    omega

/-- Nothing is left of an expiration of less than a millisecond. -/
theorem deadline?_of_lt (h : c.expiration < Span.millisecond) (now : Nat) :
    c.deadline? now = none := by
  have hmillis : c.expirationMillis = 0 := by
    simp only [expirationMillis, Span.toMillis, Span.millisecond] at h ⊢
    omega
  rw [deadline?, if_pos hmillis]

variable [BEq κ] [Hashable κ] [LawfulBEq κ]

/-- What reads find of a value that was accepted, at any instant, as long as no request has written
or deleted the item of its wire key. Without an expiration they always find it. With an expiration
of at least a millisecond they find it until the expiration, rounded down to whole milliseconds, has
passed since the write, and not from then on. With a shorter one they always find it, too. -/
theorem finds_until_deadline {s : Site} (hwrote : c.Wrote k v s) (hv : c.transcoder.Preserves v)
    {calls : List (Nat × Server.Op)}
    (hcalls : ∀ p ∈ s.server.trace calls, p.1.touched? p.2 ≠ some (c.translate k))
    {k' : κ} (hk' : c.translate k' = c.translate k) (now : Nat) :
    (c.expiration = 0 → c.Finds (s.server.run calls) now k' (some v)) ∧
      (Span.millisecond ≤ c.expiration →
        (s.now + c.expiration ≤ now → c.Finds (s.server.run calls) now k' none) ∧
        c.Finds (s.server.run calls) now k'
          (if now < s.now + Span.ofMillis c.expirationMillis then some v else none) ∧
        Span.ofMillis c.expirationMillis ≤ c.expiration ∧
        (c.expiration < Span.ofMillis UInt64.size →
          c.expiration < Span.ofMillis c.expirationMillis + Span.millisecond)) ∧
      (0 < c.expiration → c.expiration < Span.millisecond →
        c.Finds (s.server.run calls) now k' (some v)) := by
  have hfinds := hwrote.placed.finds hv hcalls hk' now
  have hshort : c.expiration < Span.millisecond →
      c.Finds (s.server.run calls) now k' (some v) := by
    intro hlt
    rw [deadline?_of_lt hlt, if_pos (by simp)] at hfinds
    exact hfinds
  refine ⟨fun hzero => hshort (by rw [hzero]; decide), fun hle => ?_, fun _ => hshort⟩
  obtain ⟨hne, hdown, hup⟩ := lifetime_le hle
  have hdeadline : c.deadline? s.now = some (s.now + Span.ofMillis c.expirationMillis) :=
    if_neg hne
  simp only [hdeadline, Option.mem_some_iff, forall_eq'] at hfinds
  refine ⟨fun hpast => ?_, hfinds, hdown, hup⟩
  rw [if_neg (by omega)] at hfinds
  exact hfinds

omit [BEq κ] [Hashable κ] [LawfulBEq κ]

/-- Strings as JSON, with an expiration. -/
def lasting (expiration : Nat) : RemoteCache String String := ofConfig id { expiration }

/-- The site after "v" was written at instant 0. -/
def written (expiration : Nat) : Site :=
  ⟨0, ({} : Server).put 0 "k" (lasting expiration).expirationMillis (Json.encode "v")⟩

private theorem wrote_lasting (expiration : Nat) :
    (lasting expiration).Wrote "k" "v" (written expiration) := by
  have hcheck : Key.check "k" = .ok () := rfl
  have hkey : (lasting expiration).wireKey "k" = .ok "k" := by
    rw [wireKey, show (lasting expiration).translate "k" = "k" from rfl, hcheck]
    rfl
  have hencode : (lasting expiration).encode "v" = .ok (Json.encode "v") := by
    have hdata : (lasting expiration).transcoder.encode "v" = .ok (Json.encode "v") := rfl
    rw [encode_eq hdata, if_neg (by decide)]
  refine .set ((set_eq {} 0 hkey hencode).trans ?_)
  rfl

private theorem preserves_lasting (expiration : Nat) :
    (lasting expiration).transcoder.Preserves "v" :=
  Transcoder.json_preserves (Json.readsBack_string "v")

/-- An expiration of one and a half milliseconds is one of one millisecond. In the meantime the key
is read, and another key is written. -/
theorem finds_until_deadline_oneAndAHalf :
    let c := lasting 1500000
    let calls : List (Nat × Server.Op) := [(1, .get "k"), (2, .set "l" 0 ⟨#[1]⟩)]
    (c.Wrote "k" "v" (written 1500000) ∧ c.transcoder.Preserves "v" ∧
      ∀ p ∈ (written 1500000).server.trace calls, p.1.touched? p.2 ≠ some "k") ∧
    Span.millisecond ≤ c.expiration ∧
      c.Finds ((written 1500000).server.run calls) 999999 "k" (some "v") ∧
      c.Finds ((written 1500000).server.run calls) 1000000 "k" none := by
  intro c calls
  have hother : ∀ answer, (Server.Op.set "l" 0 ⟨#[1]⟩).touched? answer ≠ some "k" := by
    intro answer
    cases answer <;> simp [Server.Op.touched?, Server.Op.written?]
  have huntouched : ∀ p ∈ (written 1500000).server.trace calls, p.1.touched? p.2 ≠ some "k" := by
    intro p hp
    rcases List.mem_cons.1 hp with rfl | hp
    · simp [Server.Op.touched?, Server.Op.written?]
    · obtain rfl := List.mem_singleton.1 hp
      exact hother _
  -- The deadline is the first whole millisecond, not the given one and a half.
  have hle : Span.millisecond ≤ c.expiration := by decide
  have hwrote := wrote_lasting 1500000
  have hv := preserves_lasting 1500000
  obtain ⟨-, hearly, -⟩ := finds_until_deadline hwrote hv huntouched rfl 999999
  obtain ⟨-, hlate, -⟩ := finds_until_deadline hwrote hv huntouched rfl 1000000
  replace hearly := (hearly hle).2.1
  replace hlate := (hlate hle).2.1
  rw [if_pos (by decide)] at hearly
  rw [if_neg (by decide)] at hlate
  exact ⟨⟨hwrote, hv, huntouched⟩, hle, hearly, hlate⟩

/-- It is not true that no value is found when its expiration has passed: one that is to stay for
half a millisecond is found a millisecond later. -/
theorem outlives_expiration : ¬ ∀ (c : RemoteCache String String) (k v : String) (s : Site)
    (now : Nat), 0 < c.expiration → c.Wrote k v s → c.transcoder.Preserves v →
    s.now + c.expiration ≤ now → c.get s.server now k ≠ .ok (some v) := by
  intro hgone
  have hshort : (lasting 500000).expiration < Span.millisecond := by decide
  have hwrote := wrote_lasting 500000
  have hv := preserves_lasting 500000
  have huntouched : ∀ p ∈ (written 500000).server.trace [],
      p.1.touched? p.2 ≠ some ((lasting 500000).translate "k") :=
    fun p hp => absurd hp List.not_mem_nil
  have hfinds := hwrote.placed.finds hv huntouched rfl 1000000
  rw [deadline?_of_lt hshort, if_pos (by simp)] at hfinds
  exact hgone (lasting 500000) "k" "v" (written 500000) 1000000 (by decide) hwrote hv (by decide)
    hfinds.get

end RemoteCache

end CacheLayer.Remote
