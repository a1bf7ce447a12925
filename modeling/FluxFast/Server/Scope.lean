import FluxFast.Theory.PercentEncoding

/-!
# Scope — whose data a cached resource is

`CacheScope` of `scope.py`, its fingerprint, and the identity under which the engine caches a
resource.  A `CacheScope` carries fields that its type does not use; what it stands for is its
`ScopeIdentity`.  The parts of a fingerprint are percent-encoded, so the colons between them are
the only ones, and the identity of a cached resource can be read back from its text.
-/

namespace FluxFast.Server

open FluxFast.Theory

/-! ## The standard library -/

/-- The characters that `urllib.parse.quote` never escapes. -/
def alwaysSafe (c : Char) : Bool :=
  c.isAlphanum || c = '_' || c = '.' || c = '-' || c = '~'

/-- `urllib.parse.quote(text, safe=safe)`. -/
def quote (safe : List Char) (text : String) : String :=
  PercentEncoding.encode (fun c => alwaysSafe c || safe.contains c) text

/-- `value or fallback` on an optional string. -/
def orElse (value : Option String) (fallback : String) : String :=
  match value with
  | none => fallback
  | some text => if text = "" then fallback else text

/-! ## Scopes -/

inductive ScopeType where
  | publicScope | user | tenant | request | custom
  deriving DecidableEq

structure CacheScope where
  scopeType : ScopeType
  identifier : Option String := none
  customNamespace : Option String := none
  requestId : Option String := none
  deriving DecidableEq

/-- `_component`; the error is the message of the `ScopeError`. -/
def component (text label : String) : Except String String :=
  if text = "" then .error (label ++ " must not be empty") else .ok (quote [] text)

namespace CacheScope

def fingerprint (s : CacheScope) : Except String String :=
  match s.scopeType with
  | .publicScope => .ok "public"
  | .user => (component (orElse s.identifier "") "user identifier").map ("user:" ++ ·)
  | .tenant => (component (orElse s.identifier "") "tenant identifier").map ("tenant:" ++ ·)
  | .custom => do
    let ns ← component (orElse s.customNamespace "") "custom namespace"
    let identifier ← component (orElse s.identifier "") "custom identifier"
    return "custom:" ++ ns ++ ":" ++ identifier
  | .request => .ok ("request:" ++ orElse s.requestId "volatile")

/-- `is_cacheable`. -/
def isCacheable (s : CacheScope) : Bool := s.scopeType ≠ .request

end CacheScope

/-- `ResourceEngine.get_cache_key`, and `LiveCoordinator._cache_key`. -/
def getCacheKey (scope : CacheScope) (key : String) : Except String String :=
  scope.fingerprint.map (· ++ "::" ++ key)

/-! ## What a scope stands for -/

inductive ScopeIdentity where
  | everyone
  | user (identifier : String)
  | tenant (identifier : String)
  | custom (customNamespace identifier : String)
  | request (requestId : String)
  deriving DecidableEq

/-- The fields that the type of the scope uses. -/
def CacheScope.identity (s : CacheScope) : ScopeIdentity :=
  match s.scopeType with
  | .publicScope => .everyone
  | .user => .user (orElse s.identifier "")
  | .tenant => .tenant (orElse s.identifier "")
  | .custom => .custom (orElse s.customNamespace "") (orElse s.identifier "")
  | .request => .request (orElse s.requestId "volatile")

/-- The request id has no colon; `scope.request()` issues hexadecimal digits. -/
def CacheScope.Issued (s : CacheScope) : Prop :=
  s.scopeType = .request → ':' ∉ (orElse s.requestId "volatile").toList

namespace ScopeIdentity

def print : ScopeIdentity → String
  | .everyone => "public"
  | .user identifier => "user:" ++ quote [] identifier
  | .tenant identifier => "tenant:" ++ quote [] identifier
  | .custom ns identifier => "custom:" ++ quote [] ns ++ ":" ++ quote [] identifier
  | .request requestId => "request:" ++ requestId

def Issued : ScopeIdentity → Prop
  | .request requestId => ':' ∉ requestId.toList
  | _ => True

end ScopeIdentity

theorem component_eq_ok {text label part : String} (h : component text label = .ok part) :
    part = quote [] text := by
  unfold component at h
  split at h
  · cases h
  · cases h
    rfl

theorem CacheScope.fingerprint_eq_print {s : CacheScope} {text : String}
    (h : s.fingerprint = .ok text) : text = s.identity.print := by
  unfold CacheScope.fingerprint at h
  unfold CacheScope.identity
  -- The text is built part by part, each part quoted.
  cases hscope : s.scopeType with
  | publicScope =>
    rw [hscope] at h
    cases h
    rfl
  | user =>
    -- a blank identifier is refused, so there is a part to quote
    simp only [hscope] at h
    cases hpart : component (orElse s.identifier "") "user identifier" with
    | error message => simp [hpart, Except.map] at h
    | ok part =>
      simp only [hpart, Except.map, Except.ok.injEq] at h
      rw [← h, component_eq_ok hpart]
      rfl
  | tenant =>
    simp only [hscope] at h
    cases hpart : component (orElse s.identifier "") "tenant identifier" with
    | error message => simp [hpart, Except.map] at h
    | ok part =>
      simp only [hpart, Except.map, Except.ok.injEq] at h
      rw [← h, component_eq_ok hpart]
      rfl
  -- the namespace is quoted before the identifier
  | custom =>
    simp only [hscope] at h
    cases hns : component (orElse s.customNamespace "") "custom namespace" with
    | error message => simp [hns, bind, Except.bind] at h
    | ok ns =>
      cases hpart : component (orElse s.identifier "") "custom identifier" with
      | error message => simp [hns, hpart, bind, Except.bind] at h
      | ok part =>
        simp only [hns, hpart, bind, Except.bind, pure, Except.pure, Except.ok.injEq] at h
        rw [← h, component_eq_ok hns, component_eq_ok hpart]
        rfl
  | request =>
    simp only [hscope, Except.ok.injEq] at h
    exact h.symm

theorem CacheScope.Issued.identity {s : CacheScope} (h : s.Issued) : s.identity.Issued := by
  unfold CacheScope.identity
  cases hscope : s.scopeType with
  | request => exact h hscope
  | publicScope => trivial
  | user => trivial
  | tenant => trivial
  | custom => trivial

/-! ## Reading an identity back -/

theorem quote_injective {safe : List Char} (hsafe : safe.contains '%' = false) :
    Function.Injective (quote safe) :=
  PercentEncoding.encode_injective (by rw [hsafe]; decide)

theorem colon_not_mem_quote {safe : List Char} (hsafe : safe.contains ':' = false) (text : String) :
    ':' ∉ (quote safe text).toList :=
  PercentEncoding.not_mem_encode (by rw [hsafe]; decide) (by decide) (by decide) text

/-- Two texts up to the first colon, and what follows it. -/
theorem split_at_colon {a b : String} {xs ys : List Char} (ha : ':' ∉ a.toList)
    (hb : ':' ∉ b.toList) (h : a.toList ++ ':' :: xs = b.toList ++ ':' :: ys) : a = b ∧ xs = ys := by
  obtain ⟨hleft, hright⟩ := PercentEncoding.append_separator_inj ha hb h
  exact ⟨String.toList_injective hleft, hright⟩

/-- No two resources share the text `fingerprint::key`. -/
theorem ScopeIdentity.print_append_inj {i j : ScopeIdentity} {k l : String} (hi : i.Issued)
    (hj : j.Issued) (h : i.print ++ "::" ++ k = j.print ++ "::" ++ l) : i = j ∧ k = l := by
  have hquote : ∀ text, ':' ∉ (quote [] text).toList := colon_not_mem_quote rfl
  have hinj : Function.Injective (quote []) := quote_injective rfl
  have h : (i.print ++ "::" ++ k).toList = (j.print ++ "::" ++ l).toList := congrArg _ h
  -- The printed forms begin with different words, so they agree only within one kind.
  cases i with
  | everyone =>
    cases j with
    | everyone => exact ⟨rfl, String.toList_injective (by simpa [print] using h)⟩
    | user | tenant | custom | request => simp [print] at h
  | user identifier =>
    cases j with
    | user identifier' =>
      simp only [print, String.toList_append, List.append_assoc] at h
      -- the quoted part has no colon, so it ends at the first one
      have h := List.append_cancel_left h
      obtain ⟨hid, hrest⟩ := split_at_colon (hquote _) (hquote _) h
      obtain ⟨-, hkey⟩ := List.cons.inj hrest
      exact ⟨congrArg _ (hinj hid), String.toList_injective hkey⟩
    | everyone | tenant | custom | request => simp [print] at h
  | tenant identifier =>
    cases j with
    | tenant identifier' =>
      simp only [print, String.toList_append, List.append_assoc] at h
      have h := List.append_cancel_left h
      obtain ⟨hid, hrest⟩ := split_at_colon (hquote _) (hquote _) h
      obtain ⟨-, hkey⟩ := List.cons.inj hrest
      exact ⟨congrArg _ (hinj hid), String.toList_injective hkey⟩
    | everyone | user | custom | request => simp [print] at h
  | custom ns identifier =>
    cases j with
    | custom ns' identifier' =>
      simp only [print, String.toList_append, List.append_assoc] at h
      have h := List.append_cancel_left h
      obtain ⟨hns, hrest⟩ := split_at_colon (hquote _) (hquote _) h
      obtain ⟨hid, hrest⟩ := split_at_colon (hquote _) (hquote _) hrest
      obtain ⟨-, hkey⟩ := List.cons.inj hrest
      rw [hinj hns, hinj hid]
      exact ⟨rfl, String.toList_injective hkey⟩
    | everyone | user | tenant | request => simp [print] at h
  | request requestId =>
    cases j with
    | request requestId' =>
      simp only [print, String.toList_append, List.append_assoc] at h
      have h := List.append_cancel_left h
      obtain ⟨hid, hrest⟩ := split_at_colon hi hj h
      obtain ⟨-, hkey⟩ := List.cons.inj hrest
      exact ⟨congrArg _ hid, String.toList_injective hkey⟩
    | everyone | user | tenant | custom => simp [print] at h

theorem getCacheKey_eq_print {s : CacheScope} {k a : String} (h : getCacheKey s k = .ok a) :
    a = s.identity.print ++ "::" ++ k := by
  unfold getCacheKey at h
  cases hfinger : s.fingerprint with
  | error message => simp [hfinger, Except.map] at h
  | ok text =>
    simp only [hfinger, Except.map, Except.ok.injEq] at h
    rw [← h, CacheScope.fingerprint_eq_print hfinger]

/-- Resources that differ in what their scopes stand for, or in the key, are cached apart. -/
theorem getCacheKey_inj {s t : CacheScope} {k l a : String} (hs : s.Issued) (ht : t.Issued)
    (ha : getCacheKey s k = .ok a) (hb : getCacheKey t l = .ok a) :
    s.identity = t.identity ∧ k = l :=
  ScopeIdentity.print_append_inj hs.identity ht.identity
    ((getCacheKey_eq_print ha).symm.trans (getCacheKey_eq_print hb))

end FluxFast.Server
