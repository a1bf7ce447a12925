import FluxFast.Server.RedisCacheIndex

/-!
# RedisCacheHeld — one resource, its membership set and its indexes

`Held` says that what the server has for one resource fits together: the membership set names the
tags of the latest write, each of their indexes scores the resource with its expiry, and no index
holds it unnamed.  Every script keeps this for each resource, and the passing of time does.
-/

namespace FluxFast.Server

open FluxFast.Theory

namespace RedisCacheKeyspace

variable (ks : RedisCacheKeyspace)

theorem untagged {f : Family} (hf : f ≠ .tag) (d : String) :
    hasPrefix ks.tagPrefix (ks.key f d) = false :=
  Bool.eq_false_iff.mpr fun h => ks.ne_of_hasPrefix_tag h hf d rfl

end RedisCacheKeyspace

section Held

variable {B : Type} {ks : RedisCacheKeyspace} {now : Nat} {db db' : Redis B} {d : String}

/-- What the server holds under the digest `d`, last written with the tag keys `latest`. -/
structure Held (ks : RedisCacheKeyspace) (now : Nat) (db : Redis B) (d : String)
    (latest : Option (List String)) : Prop where
  stored : ∀ x, db.strings (ks.key .resource d) = some x → ∃ mark tagKeys,
    x.expiresAt = some mark ∧ latest = some tagKeys ∧
      (∀ τ, τ ∈ db.smembers (ks.key .resourceTags d) ↔ τ ∈ tagKeys) ∧
      (tagKeys ≠ [] → ∃ y, db.sets (ks.key .resourceTags d) = some y ∧ y.expiresAt = some mark) ∧
      (now < mark → ∀ τ ∈ tagKeys, Redis.liveEntry now db τ (ks.key .resource d) = some mark)
  named : ∀ τ score, Redis.liveEntry now db τ (ks.key .resource d) = some score →
    ∃ y mark, db.sets (ks.key .resourceTags d) = some y ∧ τ ∈ y.value.keys ∧
      y.expiresAt = some mark ∧ score ≤ mark

/-- Nothing is stored under `d`, and no index holds it. -/
structure Gone (ks : RedisCacheKeyspace) (now : Nat) (db : Redis B) (d : String) : Prop where
  string : db.strings (ks.key .resource d) = none
  live : ∀ τ, Redis.liveEntry now db τ (ks.key .resource d) = none

theorem Gone.held (h : Gone ks now db d) (latest : Option (List String)) :
    Held ks now db d latest where
  stored x hx := by
    rw [h.string] at hx
    cases hx
  named τ score hlive := by
    rw [h.live τ] at hlive
    cases hlive

/-- `db'` has the same for `d` as `db`. -/
abbrev SparesDigest (ks : RedisCacheKeyspace) (now : Nat) (d : String) (db db' : Redis B) : Prop :=
  Spares now (ks.key .resource d) (ks.key .resourceTags d) db db'

theorem Spares.smembers {r m : String} (h : Spares now r m db db') :
    db'.smembers m = db.smembers m := by
  unfold Redis.smembers
  rw [h.set]

theorem Held.spared {latest : Option (List String)} (h : Held ks now db d latest)
    (hspares : SparesDigest ks now d db db') : Held ks now db' d latest where
  stored x hx := by
    rw [hspares.string] at hx
    obtain ⟨mark, tagKeys, hmark, hlatest, hmembers, hset, hlive⟩ := h.stored x hx
    refine ⟨mark, tagKeys, hmark, hlatest, fun τ => ?_, fun hne => ?_, fun hlt τ hτ => ?_⟩
    · rw [hspares.smembers]
      exact hmembers τ
    · rw [hspares.set]
      exact hset hne
    · rw [hspares.live]
      exact hlive hlt τ hτ
  named τ score hlive := by
    rw [hspares.live] at hlive
    rw [hspares.set]
    exact h.named τ score hlive

theorem Gone.spared (h : Gone ks now db d) (hspares : SparesDigest ks now d db db') :
    Gone ks now db' d where
  string := hspares.string.trans h.string
  live τ := (hspares.live τ).trans (h.live τ)

/-! ## The passing of time -/

theorem present_of_le {α : Type} {x : Keyed α} {mark now : Nat} (h : x.expiresAt = some mark)
    (hle : now ≤ mark) : x.present now = true := by
  rw [Keyed.present, h]
  exact decide_eq_true hle

theorem le_of_present {α : Type} {x : Keyed α} {mark now : Nat} (h : x.expiresAt = some mark)
    (hpresent : x.present now = true) : now ≤ mark := by
  rw [Keyed.present, h] at hpresent
  exact of_decide_eq_true hpresent

/-- An entry that lies ahead of a later time was there before, and its index has not expired. -/
theorem liveEntry_purge {tagPrefix : String} (h : Usable now tagPrefix db) {later : Nat}
    (hle : now ≤ later) (τ member : String) :
    Redis.liveEntry later (db.purge later) τ member =
      (Redis.liveEntry now db τ member).filter (later < ·) := by
  have hentry : ∀ score, (db.purge later).entry τ member = some score → 
      db.entry τ member = some score := by
    intro score hscore
    obtain ⟨x, hx, hget⟩ := Redis.entry_eq_some_iff.mp hscore
    exact Redis.entry_eq_some_iff.mpr ⟨x, (Option.filter_eq_some_iff.mp hx).1, hget⟩
  ext score
  rw [Redis.liveEntry_eq_some_iff, Option.filter_eq_some_iff, Redis.liveEntry_eq_some_iff]
  constructor
  · rintro ⟨hscore, hlt⟩
    exact ⟨⟨hentry score hscore, hle.trans_lt hlt⟩, decide_eq_true hlt⟩
  · rintro ⟨⟨hscore, hlt⟩, hlater⟩
    have hlater : later < score := of_decide_eq_true hlater
    refine ⟨?_, hlater⟩
    obtain ⟨x, mark, hx, hmark, hscoreMark⟩ := h.covered τ member score (by simp)
      (Redis.liveEntry_eq_some_iff.mpr ⟨hscore, hlt⟩)
    refine Redis.entry_eq_some_iff.mpr ⟨x, Option.filter_eq_some_iff.mpr ⟨hx, ?_⟩, ?_⟩
    · exact present_of_le hmark (hlater.le.trans hscoreMark)
    · obtain ⟨y, hy, hget⟩ := Redis.entry_eq_some_iff.mp hscore
      rw [hx] at hy
      cases hy
      exact hget

theorem usable_purge {tagPrefix : String} (h : Usable now tagPrefix db) {later : Nat}
    (hle : now ≤ later) : Usable later tagPrefix (db.purge later) where
  typed τ hτ := by
    obtain ⟨x, hx⟩ := Option.isSome_iff_exists.mp hτ
    exact h.typed τ (by rw [(Option.filter_eq_some_iff.mp hx).1]; rfl)
  covered τ member score hskip hlive := by
    rw [liveEntry_purge h hle, Option.filter_eq_some_iff] at hlive
    obtain ⟨hlive, hlt⟩ := hlive
    have hlt : later < score := of_decide_eq_true hlt
    obtain ⟨x, mark, hx, hmark, hscore⟩ := h.covered τ member score hskip hlive
    exact ⟨x, mark, Option.filter_eq_some_iff.mpr ⟨hx, present_of_le hmark (hlt.le.trans hscore)⟩,
      hmark, hscore⟩

theorem Held.later {tagPrefix : String} {latest : Option (List String)} (h : Held ks now db d latest)
    (husable : Usable now tagPrefix db) {later : Nat} (hle : now ≤ later) :
    Held ks later (db.purge later) d latest where
  -- Waiting takes away what has expired; the payload is marked no later than its members.
  stored x hx := by
    obtain ⟨hx, hpresent⟩ := Option.filter_eq_some_iff.mp hx
    obtain ⟨mark, tagKeys, hmark, hlatest, hmembers, hset, hlive⟩ := h.stored x hx
    have hlater : later ≤ mark := le_of_present hmark hpresent
    -- the membership set outlives the payload
    have hkept : (db.purge later).smembers (ks.key .resourceTags d) =
        db.smembers (ks.key .resourceTags d) := by
      -- without tags there was no member and there is none now
      cases hnil : tagKeys with
      | nil =>
        have hempty : db.smembers (ks.key .resourceTags d) = [] :=
          List.eq_nil_iff_forall_not_mem.mpr fun τ hτ => by
            have hmem := (hmembers τ).mp hτ
            rw [hnil] at hmem
            cases hmem
        rw [hempty]
        unfold Redis.smembers at hempty ⊢
        cases hy : (db.purge later).sets (ks.key .resourceTags d) with
        | none => rfl
        | some y =>
          rw [(Option.filter_eq_some_iff.mp hy).1] at hempty
          exact hempty
      | cons τ rest =>
        obtain ⟨y, hy, hymark⟩ := hset (by rw [hnil]; exact List.cons_ne_nil _ _)
        have hfilter : (db.purge later).sets (ks.key .resourceTags d) = some y :=
          Option.filter_eq_some_iff.mpr ⟨hy, present_of_le hymark hlater⟩
        unfold Redis.smembers
        rw [hfilter, hy]
    refine ⟨mark, tagKeys, hmark, hlatest, fun τ => ?_, fun hne => ?_, fun hlt τ hτ => ?_⟩
    · rw [hkept]
      exact hmembers τ
    · obtain ⟨y, hy, hymark⟩ := hset hne
      exact ⟨y, Option.filter_eq_some_iff.mpr ⟨hy, present_of_le hymark hlater⟩, hymark⟩
    · rw [liveEntry_purge husable hle, hlive (hle.trans_lt hlt) τ hτ]
      exact Option.filter_some_pos (decide_eq_true hlt)
  -- an entry that is left was there before, with a mark that is still ahead
  named τ score hlive := by
    rw [liveEntry_purge husable hle, Option.filter_eq_some_iff] at hlive
    obtain ⟨hlive, hlt⟩ := hlive
    have hlt : later < score := of_decide_eq_true hlt
    obtain ⟨y, mark, hy, hτ, hmark, hscore⟩ := h.named τ score hlive
    exact ⟨y, mark, Option.filter_eq_some_iff.mpr
      ⟨hy, present_of_le hmark (hlt.le.trans hscore)⟩, hτ, hmark, hscore⟩

end Held

end FluxFast.Server
