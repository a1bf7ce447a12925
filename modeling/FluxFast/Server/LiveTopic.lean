import FluxFast.Server.PyText
import FluxFast.Server.RedisKeyspace

/-!
# LiveTopic — the broker topic of a scoped resource

`derive_live_topic` of `live/coordinator.py`.  The topic is the personalised digest of the identity
under which the engine caches the resource, so topics are apart where cache identities are.
-/

namespace FluxFast.Server

open FluxFast.Theory

/-- The test of `_validate_resource_key` for live resources. -/
def safeResourceKey (key : String) : Bool :=
  !key.toList.all isStripped && key.length ≤ 128 && !key.toList.contains ',' &&
    !key.toList.any isControl

/-- `_REUSABLE_SCOPE_TYPES`. -/
def ScopeType.reusable (scopeType : ScopeType) : Bool := scopeType ≠ .request

/-- Errors carry their message. -/
def deriveLiveTopic (blake2b : List UInt8 → String) (scope : CacheScope) (resourceKey : String) :
    Except String String := do
  if !scope.scopeType.reusable then
    throw ("Live publishing requires an explicit reusable scope. " ++
      "Use scope.public(), scope.user(), scope.tenant(), or scope.custom().")
  if !safeResourceKey resourceKey then
    throw "live resource keys must be safe non-empty strings"
  let fingerprint ← scope.fingerprint
  return "fluxfast.live." ++ blake2b (PercentEncoding.utf8 (fingerprint ++ "::" ++ resourceKey))

section Topics

variable {blake2b : List UInt8 → String} {scope scope' : CacheScope}
variable {resourceKey resourceKey' topic : String}

theorem deriveLiveTopic_eq_ok (h : deriveLiveTopic blake2b scope resourceKey = .ok topic) :
    scope.scopeType ≠ .request ∧ safeResourceKey resourceKey = true ∧
      ∃ identity, getCacheKey scope resourceKey = .ok identity ∧
        topic = "fluxfast.live." ++ blake2b (PercentEncoding.utf8 identity) := by
  unfold deriveLiveTopic at h
  by_cases hscope : scope.scopeType = .request
  · simp [hscope, ScopeType.reusable, bind, Except.bind, throw, throwThe,
      MonadExceptOf.throw] at h
  · by_cases hkey : safeResourceKey resourceKey = true
    · cases hfinger : scope.fingerprint with
      | error message =>
        simp [hscope, hkey, hfinger, ScopeType.reusable, bind, Except.bind] at h
      | ok text =>
        simp only [hscope, hkey, hfinger, ScopeType.reusable, bind, Except.bind, pure,
          Except.pure, ne_eq, not_false_eq_true, decide_true, Bool.not_true, Bool.false_eq_true,
          if_false, Except.ok.injEq] at h
        refine ⟨hscope, hkey, text ++ "::" ++ resourceKey, ?_, h.symm⟩
        simp [getCacheKey, hfinger, Except.map]
    · simp [hscope, hkey, ScopeType.reusable, bind, Except.bind, throw, throwThe,
        MonadExceptOf.throw] at h

theorem issued_of_reusable (h : scope.scopeType ≠ .request) : scope.Issued :=
  fun hscope => absurd hscope h

/-- A topic belongs to one resource of one scope. -/
theorem deriveLiveTopic_inj (hblake : Function.Injective blake2b)
    (h : deriveLiveTopic blake2b scope resourceKey = .ok topic)
    (h' : deriveLiveTopic blake2b scope' resourceKey' = .ok topic) :
    scope.identity = scope'.identity ∧ resourceKey = resourceKey' := by
  obtain ⟨hscope, -, identity, hidentity, htopic⟩ := deriveLiveTopic_eq_ok h
  obtain ⟨hscope', -, identity', hidentity', htopic'⟩ := deriveLiveTopic_eq_ok h'
  have hdigest := congrArg String.toList (htopic.symm.trans htopic')
  rw [String.toList_append, String.toList_append] at hdigest
  have hsame : identity = identity' := PercentEncoding.utf8_injective
    (hblake (String.toList_injective (List.append_cancel_left hdigest)))
  exact getCacheKey_inj (issued_of_reusable hscope) (issued_of_reusable hscope') hidentity
    (hsame ▸ hidentity')

end Topics

/-! ## Identities of different resources -/

/-- Resources whose scopes stand for different data, or whose keys differ, share no cache identity,
no Redis key of any family in any namespace and no live topic; and no two namespaces share a Redis
key. -/
theorem identities_apart {blake2b personalised : List UInt8 → String}
    (hblake : Function.Injective blake2b) (hpersonalised : Function.Injective personalised)
    {s t : CacheScope} {k l a b : String} (hs : s.Issued) (ht : t.Issued)
    (ha : getCacheKey s k = .ok a) (hb : getCacheKey t l = .ok b)
    (hdiffer : s.identity ≠ t.identity ∨ k ≠ l) :
    a ≠ b ∧
      (∀ (ks : RedisCacheKeyspace) f g x y, ks.Builds blake2b f a x → ks.Builds blake2b g b y →
        x ≠ y) ∧
      (∀ p q, deriveLiveTopic personalised s k = .ok p → deriveLiveTopic personalised t l = .ok q →
        p ≠ q) ∧
      ∀ ks ks' : RedisCacheKeyspace, ks ≠ ks' → ∀ f g v w x y, ks.Builds blake2b f v x →
        ks'.Builds blake2b g w y → x ≠ y := by
  have hapart : ¬(s.identity = t.identity ∧ k = l) := fun h => hdiffer.elim (· h.1) (· h.2)
  have hab : a ≠ b := by
    rintro rfl
    exact hapart (getCacheKey_inj hs ht ha hb)
  refine ⟨hab, ?_, ?_, ?_⟩
  · rintro ks f g x y hx hy rfl
    exact hab (hx.inj hblake hy).2.2
  · rintro p q hp hq rfl
    exact hapart (deriveLiveTopic_inj hpersonalised hp hq)
  · rintro ks ks' hne f g v w x y hx hy rfl
    exact hne (hx.keyspace_eq hy)

/-- A public scope may be built with an identifier, which its fingerprint does not use. -/
theorem identities_of_public_scopes_collide :
    ¬∀ (s t : CacheScope) (k l a b : String), getCacheKey s k = .ok a → getCacheKey t l = .ok b →
      (s.scopeType, s.customNamespace, s.identifier, k) ≠
        (t.scopeType, t.customNamespace, t.identifier, l) → a ≠ b :=
  fun h => h { scopeType := .publicScope, identifier := some "a" }
    { scopeType := .publicScope, identifier := some "b" } "rooms" "rooms" _ _ rfl rfl (by decide) rfl

/-- A digest known on a few texts, and marked with a question mark elsewhere. -/
def tableDigest (known : List (List UInt8 × String)) (bytes : List UInt8) : String :=
  match known.find? fun e => e.1 = bytes with
  | some e => e.2
  | none => String.ofList ('?' :: bytes.map fun b => Char.ofNat b.toNat)

theorem tableDigest_injective {known : List (List UInt8 × String)}
    (hvalues : (known.map Prod.snd).Nodup) (hmark : ∀ e ∈ known, e.2.toList.head? ≠ some '?') :
    Function.Injective (tableDigest known) := by
  have hchars : ∀ bs cs : List UInt8, (bs.map fun b => Char.ofNat b.toNat) =
      (cs.map fun b => Char.ofNat b.toNat) → bs = cs := by
    intro bs cs h
    have hbyte : ∀ n < 256, (Char.ofNat n).toNat = n := by decide +kernel
    refine List.map_injective_iff.mpr (fun b c hbc => ?_) h
    exact UInt8.toNat_inj.mp (by rw [← hbyte _ b.toNat_lt, ← hbyte _ c.toNat_lt, hbc])
  intro bs cs h
  unfold tableDigest at h
  split at h
  · next e he =>
    have hmem := List.mem_of_find?_eq_some he
    have hkey : e.1 = bs := by simpa using List.find?_some he
    split at h
    · next e' he' =>
      have hkey' : e'.1 = cs := by simpa using List.find?_some he'
      have hsame := List.inj_on_of_nodup_map hvalues hmem (List.mem_of_find?_eq_some he') h
      rw [← hkey, ← hkey', hsame]
    · exact absurd (by rw [h, String.toList_ofList]; rfl) (hmark e hmem)
  · split at h
    · next e' he' =>
      exact absurd (by rw [← h, String.toList_ofList]; rfl)
        (hmark e' (List.mem_of_find?_eq_some he'))
    · exact hchars _ _ (List.cons.inj (String.ofList_injective h)).2

/-- The digests of the rooms of user 1 and of tenant 1. -/
theorem identities_apart_userAndTenant :
    getCacheKey { scopeType := .user, identifier := some "1" } "rooms" = .ok "user:1::rooms" ∧
      getCacheKey { scopeType := .tenant, identifier := some "1" } "rooms" =
        .ok "tenant:1::rooms" ∧ "user:1::rooms" ≠ "tenant:1::rooms" := by
  have huser : getCacheKey { scopeType := .user, identifier := some "1" } "rooms" =
      .ok "user:1::rooms" := by decide
  have htenant : getCacheKey { scopeType := .tenant, identifier := some "1" } "rooms" =
      .ok "tenant:1::rooms" := by decide
  have hplain : Function.Injective (tableDigest [(PercentEncoding.utf8 "user:1::rooms",
      "ff1d33637f4a79bf79cf99fbf4862d3025567278cad0af391de4bbbcdcfc3fa8"),
      (PercentEncoding.utf8 "tenant:1::rooms",
      "3d9b7f91e49ee10126c9a0fd110e4511960f56d0eacee9f8fe1960d7bb7bf89d")]) :=
    tableDigest_injective (by decide) (by decide)
  have htopic : Function.Injective (tableDigest [(PercentEncoding.utf8 "user:1::rooms",
      "4d0547e9492bb0f4e02832a431fb89d782d1c9f13bdf3fbfd442aae05f23e3cd"),
      (PercentEncoding.utf8 "tenant:1::rooms",
      "4fda1f082448d53960316b09978a894ac74d1833344833a9f797015ed7d4798e")]) :=
    tableDigest_injective (by decide) (by decide)
  exact ⟨huser, htenant, (identities_apart hplain htopic (fun h => by cases h)
    (fun h => by cases h) huser htenant (.inl (by decide))).1⟩

end FluxFast.Server
