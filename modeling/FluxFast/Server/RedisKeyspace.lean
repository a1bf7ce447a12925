import FluxFast.Server.Scope

/-!
# RedisKeyspace — the keys of one cache in Redis

`RedisCacheKeyspace` of `_redis_cache_keys.py`.  A namespace is percent-encoded into the prefix of
its keys; identities and tags enter a key as the digest of their UTF-8 bytes.  The digest function
is a parameter.
-/

namespace FluxFast.Server

open FluxFast.Theory

/-- `_NAMESPACE_PATTERN` and the length bounds. -/
def namespaceChar (c : Char) : Bool :=
  c.isAlphanum || c = '_' || c = '.' || c = ':' || c = '-'

def validNamespace (ns : String) : Bool :=
  1 ≤ ns.length && ns.length ≤ 128 && ns.toList.all namespaceChar

structure RedisCacheKeyspace where
  ns : String
  valid : validNamespace ns = true
  deriving DecidableEq

namespace RedisCacheKeyspace

def create (ns : String) : Except String RedisCacheKeyspace :=
  if h : validNamespace ns = true then .ok ⟨ns, h⟩
  else .error ("namespace must contain 1 to 128 ASCII letters, digits, " ++
    "periods, underscores, colons, or hyphens")

def keyPrefix (ks : RedisCacheKeyspace) : String :=
  "fluxfast:cache:v1:" ++ quote ['-', '_', '.'] ks.ns

def resourcePrefix (ks : RedisCacheKeyspace) : String := ks.keyPrefix ++ ":resource:"

def resourceTagsPrefix (ks : RedisCacheKeyspace) : String := ks.keyPrefix ++ ":resource-tags:"

def tagPrefix (ks : RedisCacheKeyspace) : String := ks.keyPrefix ++ ":tag:"

section Keys

variable (blake2b : List UInt8 → String)

/-- `_digest`; the error is the message of the `ValueError`. -/
def digest (value name : String) : Except String String :=
  if value = "" then .error (name ++ " must be a non-empty string")
  else .ok (blake2b (PercentEncoding.utf8 value))

def resourceKey (ks : RedisCacheKeyspace) (logicalIdentity : String) : Except String String :=
  (digest blake2b logicalIdentity "identity").map (ks.resourcePrefix ++ ·)

def resourceTagsKey (ks : RedisCacheKeyspace) (logicalIdentity : String) : Except String String :=
  (digest blake2b logicalIdentity "identity").map (ks.resourceTagsPrefix ++ ·)

def tagKey (ks : RedisCacheKeyspace) (tag : String) : Except String String :=
  (digest blake2b tag "tag").map (ks.tagPrefix ++ ·)

end Keys

/-! ## The three families of keys -/

inductive Family where
  | resource | resourceTags | tag
  deriving DecidableEq

def Family.infixText : Family → String
  | .resource => "resource:"
  | .resourceTags => "resource-tags:"
  | .tag => "tag:"

/-- A key of the family, with the digest `d`. -/
def key (ks : RedisCacheKeyspace) (f : Family) (d : String) : String :=
  ks.keyPrefix ++ ":" ++ f.infixText ++ d

theorem infixText_append_inj {f g : Family} {d e : List Char}
    (h : f.infixText.toList ++ d = g.infixText.toList ++ e) : f = g ∧ d = e := by
  cases f with
  | resource =>
    cases g with
    | resource => exact ⟨rfl, List.append_cancel_left h⟩
    | resourceTags | tag => simp [Family.infixText] at h
  | resourceTags =>
    cases g with
    | resourceTags => exact ⟨rfl, List.append_cancel_left h⟩
    | resource | tag => simp [Family.infixText] at h
  | tag =>
    cases g with
    | tag => exact ⟨rfl, List.append_cancel_left h⟩
    | resource | resourceTags => simp [Family.infixText] at h

theorem toList_key (ks : RedisCacheKeyspace) (f : Family) (d : String) :
    (ks.key f d).toList = "fluxfast:cache:v1:".toList ++
      ((quote ['-', '_', '.'] ks.ns).toList ++ ':' :: (f.infixText.toList ++ d.toList)) := by
  unfold key keyPrefix
  rw [String.toList_append, String.toList_append, String.toList_append, String.toList_append]
  rw [List.append_assoc, List.append_assoc, List.append_assoc]
  rfl

/-- The namespace, the family and the digest can be read back from a key. -/
theorem key_inj {ks ks' : RedisCacheKeyspace} {f g : Family} {d e : String}
    (h : ks.key f d = ks'.key g e) : ks = ks' ∧ f = g ∧ d = e := by
  have h : (ks.key f d).toList = (ks'.key g e).toList := congrArg _ h
  rw [toList_key, toList_key] at h
  have h := List.append_cancel_left h
  have hcolon : ∀ text, ':' ∉ (quote ['-', '_', '.'] text).toList :=
    colon_not_mem_quote (by decide)
  obtain ⟨hns, hrest⟩ := split_at_colon (hcolon ks.ns) (hcolon ks'.ns) h
  obtain ⟨hfamily, hdigest⟩ := infixText_append_inj hrest
  have hns : ks.ns = ks'.ns := quote_injective (by decide) hns
  refine ⟨?_, hfamily, String.toList_injective hdigest⟩
  cases ks
  cases ks'
  cases hns
  rfl

section Keys

variable {blake2b : List UInt8 → String} {ks : RedisCacheKeyspace} {value text : String}

theorem digest_eq_ok {name d : String} (h : digest blake2b value name = .ok d) :
    value ≠ "" ∧ d = blake2b (PercentEncoding.utf8 value) := by
  unfold digest at h
  split at h
  · cases h
  · next hne =>
    cases h
    exact ⟨hne, rfl⟩

theorem map_digest_eq_ok {name before : String}
    (h : (digest blake2b value name).map (before ++ ·) = .ok text) :
    value ≠ "" ∧ text = before ++ blake2b (PercentEncoding.utf8 value) := by
  cases hdigest : digest blake2b value name with
  | error message => simp [hdigest, Except.map] at h
  | ok d =>
    obtain ⟨hne, hd⟩ := digest_eq_ok hdigest
    simp only [hdigest, Except.map, Except.ok.injEq] at h
    exact ⟨hne, hd ▸ h.symm⟩

theorem resourceKey_eq (h : ks.resourceKey blake2b value = .ok text) :
    text = ks.key .resource (blake2b (PercentEncoding.utf8 value)) := by
  rw [(map_digest_eq_ok h).2, resourcePrefix, key]
  simp [Family.infixText, String.append_assoc]

theorem resourceTagsKey_eq (h : ks.resourceTagsKey blake2b value = .ok text) :
    text = ks.key .resourceTags (blake2b (PercentEncoding.utf8 value)) := by
  rw [(map_digest_eq_ok h).2, resourceTagsPrefix, key]
  simp [Family.infixText, String.append_assoc]

theorem tagKey_eq (h : ks.tagKey blake2b value = .ok text) :
    text = ks.key .tag (blake2b (PercentEncoding.utf8 value)) := by
  rw [(map_digest_eq_ok h).2, tagPrefix, key]
  simp [Family.infixText, String.append_assoc]

/-- Only the empty text has no key. -/
theorem resourceKey_of_ne (hne : value ≠ "") :
    ks.resourceKey blake2b value = .ok (ks.key .resource (blake2b (PercentEncoding.utf8 value))) := by
  have h : ks.resourceKey blake2b value =
      .ok (ks.resourcePrefix ++ blake2b (PercentEncoding.utf8 value)) := by
    rw [resourceKey, digest, if_neg hne]
    rfl
  rw [h, ← resourceKey_eq h]

theorem resourceTagsKey_of_ne (hne : value ≠ "") : ks.resourceTagsKey blake2b value =
    .ok (ks.key .resourceTags (blake2b (PercentEncoding.utf8 value))) := by
  have h : ks.resourceTagsKey blake2b value =
      .ok (ks.resourceTagsPrefix ++ blake2b (PercentEncoding.utf8 value)) := by
    rw [resourceTagsKey, digest, if_neg hne]
    rfl
  rw [h, ← resourceTagsKey_eq h]

theorem tagKey_of_ne (hne : value ≠ "") :
    ks.tagKey blake2b value = .ok (ks.key .tag (blake2b (PercentEncoding.utf8 value))) := by
  have h : ks.tagKey blake2b value =
      .ok (ks.tagPrefix ++ blake2b (PercentEncoding.utf8 value)) := by
    rw [tagKey, digest, if_neg hne]
    rfl
  rw [h, ← tagKey_eq h]

/-- `text` is one of the keys that the keyspace builds from `value`. -/
def Builds (blake2b : List UInt8 → String) (ks : RedisCacheKeyspace) (f : Family)
    (value text : String) : Prop :=
  match f with
  | .resource => ks.resourceKey blake2b value = .ok text
  | .resourceTags => ks.resourceTagsKey blake2b value = .ok text
  | .tag => ks.tagKey blake2b value = .ok text

theorem Builds.eq_key {f : Family} (h : Builds blake2b ks f value text) :
    text = ks.key f (blake2b (PercentEncoding.utf8 value)) := by
  cases f with
  | resource => exact resourceKey_eq h
  | resourceTags => exact resourceTagsKey_eq h
  | tag => exact tagKey_eq h

/-- One key is built in one namespace, in one family and from one text. -/
theorem Builds.inj (hblake : Function.Injective blake2b) {ks' : RedisCacheKeyspace}
    {f g : Family} {value' : String} (h : Builds blake2b ks f value text)
    (h' : Builds blake2b ks' g value' text) : ks = ks' ∧ f = g ∧ value = value' := by
  obtain ⟨hks, hfamily, hdigest⟩ := key_inj (h.eq_key.symm.trans h'.eq_key)
  exact ⟨hks, hfamily, PercentEncoding.utf8_injective (hblake hdigest)⟩

/-- Without any assumption on the digest, the namespaces share no key. -/
theorem Builds.keyspace_eq {ks' : RedisCacheKeyspace} {f g : Family} {value' : String}
    (h : Builds blake2b ks f value text) (h' : Builds blake2b ks' g value' text) : ks = ks' :=
  (key_inj (h.eq_key.symm.trans h'.eq_key)).1

end Keys

end RedisCacheKeyspace

end FluxFast.Server
