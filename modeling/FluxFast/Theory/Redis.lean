import FluxFast.Theory.OrderedMap
import Mathlib.Data.List.Sort
import Mathlib.Order.Lattice
import Mathlib.Order.Nat

/-!
# Redis — the commands of a key-value server with expiry

Strings, sets and sorted sets with integer scores, each key with an optional time at which it
expires.  A key is gone once the time has passed that mark; `purge` removes such keys, and the
commands below are those of a server that has just done so.  A sorted set that loses its last member
is deleted, as in the server.  The three types are three tables, for programs that never use one key
at two types.
-/

namespace FluxFast.Theory

structure Keyed (α : Type) where
  value : α
  expiresAt : Option Nat := none

/-- The time has not passed the mark. -/
def Keyed.present {α : Type} (now : Nat) (x : Keyed α) : Bool :=
  match x.expiresAt with
  | none => true
  | some mark => now ≤ mark

abbrev ZSet := OrderedMap String Nat

structure Redis (B : Type) where
  strings : String → Option (Keyed B) := fun _ => none
  sets : String → Option (Keyed (OrderedMap String Unit)) := fun _ => none
  zsets : String → Option (Keyed ZSet) := fun _ => none

namespace Redis

variable {B : Type}

/-- The server at the time `now`. -/
def purge (db : Redis B) (now : Nat) : Redis B where
  strings key := (db.strings key).filter (Keyed.present now)
  sets key := (db.sets key).filter (Keyed.present now)
  zsets key := (db.zsets key).filter (Keyed.present now)

/-! ## Commands on any key -/

def holds (db : Redis B) (key : String) : Bool :=
  (db.strings key).isSome || (db.sets key).isSome || (db.zsets key).isSome

/-- `DEL`, and `UNLINK` of one key. -/
def del (db : Redis B) (key : String) : Redis B where
  strings := Function.update db.strings key none
  sets := Function.update db.sets key none
  zsets := Function.update db.zsets key none

/-- `PEXPIREAT`: a mark that has been reached deletes the key. -/
def pexpireat (db : Redis B) (now : Nat) (key : String) (mark : Nat) : Redis B :=
  if mark ≤ now then db.del key
  else
    { strings := Function.update db.strings key
        ((db.strings key).map fun x => { x with expiresAt := some mark })
      sets := Function.update db.sets key
        ((db.sets key).map fun x => { x with expiresAt := some mark })
      zsets := Function.update db.zsets key
        ((db.zsets key).map fun x => { x with expiresAt := some mark }) }

/-! ## Strings and sets -/

/-- `SET … PX`, with the resulting mark. -/
def set (db : Redis B) (key : String) (value : B) (mark : Nat) : Redis B :=
  let db := db.del key
  { db with strings := Function.update db.strings key (some ⟨value, some mark⟩) }

def smembers (db : Redis B) (key : String) : List String :=
  match db.sets key with
  | none => []
  | some x => x.value.keys

def sadd (db : Redis B) (key member : String) : Redis B :=
  { db with
    sets := Function.update db.sets key
      (match db.sets key with
      | none => some { value := OrderedMap.empty.set member () }
      | some x => some { x with value := x.value.set member () }) }

/-! ## Sorted sets -/

def putZSet (db : Redis B) (key : String) (x : Keyed ZSet) : Redis B :=
  { db with zsets := Function.update db.zsets key (if x.value.keys = [] then none else some x) }

def zadd (db : Redis B) (key : String) (score : Nat) (member : String) : Redis B :=
  match db.zsets key with
  | none => db.putZSet key { value := OrderedMap.empty.set member score }
  | some x => db.putZSet key { x with value := x.value.set member score }

def zrem (db : Redis B) (key member : String) : Redis B :=
  match db.zsets key with
  | none => db
  | some x => db.putZSet key { x with value := x.value.delete member }

/-- `ZREMRANGEBYSCORE key -inf max`. -/
def zremrangebyscore (db : Redis B) (key : String) (max : Nat) : Redis B :=
  match db.zsets key with
  | none => db
  | some x => db.putZSet key
      { x with value := x.value.filter fun member => (x.value.get? member).any (max < ·) }

/-- `ZRANGE key 0 -1`: the members by score, and by name where scores agree. -/
def zmembers (db : Redis B) (key : String) : List String :=
  match db.zsets key with
  | none => []
  | some x =>
    (x.value.entries.insertionSort fun a b => a.2 < b.2 ∨ a.2 = b.2 ∧ a.1 ≤ b.1).map Prod.fst

/-- The score of `ZRANGE key -1 -1 WITHSCORES`. -/
def zlast (db : Redis B) (key : String) : Option Nat :=
  match db.zsets key with
  | none => none
  | some x => (x.value.entries.map Prod.snd).max?

/-! ## Scores -/

/-- The score of a member. -/
def entry (db : Redis B) (key member : String) : Option Nat :=
  (db.zsets key).bind fun x => x.value.get? member

/-- The score of a member, while it lies ahead. -/
def liveEntry (now : Nat) (db : Redis B) (key member : String) : Option Nat :=
  (db.entry key member).filter (now < ·)

section Lemmas

variable {db : Redis B} {now : Nat} {key k member m : String}

theorem liveEntry_eq_some_iff {score : Nat} :
    liveEntry now db k m = some score ↔ db.entry k m = some score ∧ now < score := by
  simp [liveEntry, Option.filter_eq_some_iff]

theorem entry_eq_some_iff {score : Nat} :
    db.entry k m = some score ↔ ∃ x, db.zsets k = some x ∧ x.value.get? m = some score := by
  simp [entry, Option.bind_eq_some_iff]

theorem entry_putZSet (x : Keyed ZSet) :
    (db.putZSet key x).entry k m = if k = key then x.value.get? m else db.entry k m := by
  unfold entry putZSet
  by_cases hk : k = key
  · subst hk
    simp only [Function.update_self, if_true]
    split
    · next hempty =>
      refine (OrderedMap.get?_eq_none_iff.mpr ?_).symm
      rw [hempty]
      exact List.not_mem_nil
    · rfl
  · rw [if_neg hk]
    simp only [Function.update_of_ne hk]

theorem entry_del : (db.del key).entry k m = if k = key then none else db.entry k m := by
  unfold entry del
  by_cases hk : k = key
  · subst hk
    simp
  · simp [hk]

theorem entry_zrem :
    (db.zrem key member).entry k m =
      if k = key ∧ m = member then none else db.entry k m := by
  unfold zrem
  cases hx : db.zsets key with
  | none =>
    by_cases hk : k = key
    · subst hk
      simp [entry, hx]
    · simp [hk]
  | some x =>
    dsimp only
    rw [entry_putZSet]
    by_cases hk : k = key
    · subst hk
      rw [if_pos rfl, OrderedMap.get?_delete]
      simp [entry, hx]
    · simp [hk]

theorem entry_zadd (score : Nat) :
    (db.zadd key score member).entry k m =
      if k = key ∧ m = member then some score else db.entry k m := by
  unfold zadd
  cases hx : db.zsets key with
  | none =>
    dsimp only
    rw [entry_putZSet]
    by_cases hk : k = key
    · subst hk
      rw [if_pos rfl, OrderedMap.get?_set]
      simp [entry, hx]
    · simp [hk]
  | some x =>
    dsimp only
    rw [entry_putZSet]
    by_cases hk : k = key
    · subst hk
      rw [if_pos rfl, OrderedMap.get?_set]
      simp [entry, hx]
    · simp [hk]

theorem entry_zremrangebyscore (max : Nat) :
    (db.zremrangebyscore key max).entry k m =
      if k = key then (db.entry k m).filter (max < ·) else db.entry k m := by
  unfold zremrangebyscore
  cases hx : db.zsets key with
  | none =>
    by_cases hk : k = key
    · subst hk
      simp [entry, hx]
    · simp [hk]
  | some x =>
    dsimp only
    rw [entry_putZSet]
    -- only the given set is cut, and there by the score alone
    by_cases hk : k = key
    · subst hk
      rw [if_pos rfl, if_pos rfl]
      ext score
      rw [OrderedMap.get?_filter_eq_some_iff]
      have hentry : db.entry k m = x.value.get? m := by simp [entry, hx]
      rw [hentry, Option.filter_eq_some_iff]
      constructor
      · rintro ⟨hget, hany⟩
        rw [hget] at hany
        exact ⟨hget, hany⟩
      · rintro ⟨hget, hlt⟩
        rw [hget]
        exact ⟨rfl, hlt⟩
    · rw [if_neg hk, if_neg hk]

theorem entry_pexpireat {mark : Nat} (hmark : now < mark) :
    (db.pexpireat now key mark).entry k m = db.entry k m := by
  unfold pexpireat entry
  rw [if_neg (Nat.not_le.mpr hmark)]
  by_cases hk : k = key
  · subst hk
    simp only [Function.update_self]
    cases db.zsets k <;> rfl
  · simp [Function.update_of_ne hk]

theorem mem_zmembers : m ∈ db.zmembers key ↔ ∃ score, db.entry key m = some score := by
  unfold zmembers entry
  cases hx : db.zsets key with
  | none => simp
  | some x =>
    simp only [List.mem_map, List.mem_insertionSort, Option.bind_some]
    constructor
    · rintro ⟨e, he, rfl⟩
      exact ⟨e.2, OrderedMap.get?_eq_some_iff.mpr he⟩
    · rintro ⟨score, hscore⟩
      exact ⟨(m, score), OrderedMap.get?_eq_some_iff.mp hscore, rfl⟩

theorem zlast_eq_none_iff : db.zlast key = none ↔ ∀ m, db.entry key m = none := by
  unfold zlast entry
  cases hx : db.zsets key with
  | none => simp
  | some x =>
    simp only [List.max?_eq_none_iff, List.map_eq_nil_iff, Option.bind_some]
    constructor
    · intro hnil m
      refine OrderedMap.get?_eq_none_iff.mpr ?_
      show m ∉ x.value.entries.map Prod.fst
      simp [hnil]
    · intro hnone
      refine List.eq_nil_iff_forall_not_mem.mpr fun e he => ?_
      have hget : x.value.get? e.1 = some e.2 := OrderedMap.get?_eq_some_iff.mpr he
      rw [hnone e.1] at hget
      cases hget

theorem le_zlast {last score : Nat} (hlast : db.zlast key = some last)
    (h : db.entry key m = some score) : score ≤ last := by
  obtain ⟨x, hx, hget⟩ := entry_eq_some_iff.mp h
  unfold zlast at hlast
  rw [hx] at hlast
  refine (List.max?_eq_some_iff.mp hlast).2 score ?_
  exact List.mem_map.mpr ⟨(m, score), OrderedMap.get?_eq_some_iff.mp hget, rfl⟩

theorem zlast_mem {last : Nat} (hlast : db.zlast key = some last) :
    ∃ m, db.entry key m = some last := by
  unfold zlast at hlast
  cases hx : db.zsets key with
  | none => simp [hx] at hlast
  | some x =>
    simp only [hx] at hlast
    obtain ⟨e, he, rfl⟩ := List.mem_map.mp (List.max?_eq_some_iff.mp hlast).1
    exact ⟨e.1, by simp [entry, hx, OrderedMap.get?_eq_some_iff.mpr he]⟩

end Lemmas

end Redis

end FluxFast.Theory
