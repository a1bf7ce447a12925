import Mathlib.Data.List.Basic

/-!
# Base64 — the URL-safe encoding without padding

Three bytes are four sextets; one or two bytes at the end are two or three.  The decoder also takes
the two characters of the standard alphabet, and at most two signs of padding that complete the
last group.
-/

namespace FluxFast.Theory

namespace Base64

/-! ## Sextets -/

def sextets : List Nat → List Nat
  | [] => []
  | [a] => [a / 4, a % 4 * 16]
  | [a, b] => [a / 4, a % 4 * 16 + b / 16, b % 16 * 4]
  | a :: b :: c :: rest =>
    a / 4 :: (a % 4 * 16 + b / 16) :: (b % 16 * 4 + c / 64) :: c % 64 :: sextets rest

def octets : List Nat → Option (List Nat)
  | [] => some []
  | [_] => none
  | [p, q] => some [p * 4 + q / 16]
  | [p, q, r] => some [p * 4 + q / 16, q % 16 * 16 + r / 4]
  | p :: q :: r :: s :: rest =>
    (octets rest).map fun bytes =>
      (p * 4 + q / 16) :: (q % 16 * 16 + r / 4) :: (r % 4 * 64 + s) :: bytes

theorem octets_sextets (bytes : List Nat) (h : ∀ b ∈ bytes, b < 256) :
    octets (sextets bytes) = some bytes := by
  induction bytes using sextets.induct with
  | case1 => rfl
  | case2 a =>
    simp only [sextets, octets, Option.some.injEq, List.cons.injEq, and_true]
    omega
  | case3 a b =>
    simp only [List.mem_cons, List.not_mem_nil, or_false, forall_eq_or_imp, forall_eq] at h
    simp only [sextets, octets, Option.some.injEq, List.cons.injEq, and_true]
    omega
  | case4 a b c rest ih =>
    simp only [List.mem_cons, forall_eq_or_imp] at h
    rw [sextets, octets, ih h.2.2.2]
    simp only [Option.map_some, Option.some.injEq, List.cons.injEq, and_true]
    omega

theorem sextets_lt (bytes : List Nat) (h : ∀ b ∈ bytes, b < 256) : ∀ s ∈ sextets bytes, s < 64 := by
  induction bytes using sextets.induct with
  | case1 => exact fun s hs => by cases hs
  | case2 a =>
    simp only [List.mem_cons, List.not_mem_nil, or_false, forall_eq] at h
    simp only [sextets, List.mem_cons, List.not_mem_nil, or_false, forall_eq_or_imp, forall_eq]
    omega
  | case3 a b =>
    simp only [List.mem_cons, List.not_mem_nil, or_false, forall_eq_or_imp, forall_eq] at h
    simp only [sextets, List.mem_cons, List.not_mem_nil, or_false, forall_eq_or_imp, forall_eq]
    omega
  | case4 a b c rest ih =>
    simp only [List.mem_cons, forall_eq_or_imp] at h
    simp only [sextets, List.mem_cons, forall_eq_or_imp]
    refine ⟨?_, ?_, ?_, ?_, ih h.2.2.2⟩ <;> omega

/-- The length of an encoding, and what is missing to a multiple of four. -/
theorem length_sextets (bytes : List Nat) :
    (sextets bytes).length = (4 * bytes.length + 2) / 3 := by
  induction bytes using sextets.induct with
  | case1 => rfl
  | case2 a => simp [sextets]
  | case3 a b => simp [sextets]
  | case4 a b c rest ih =>
    simp only [sextets, List.length_cons, ih]
    omega

theorem length_sextets_mod (bytes : List Nat) : (sextets bytes).length % 4 ≠ 1 := by
  rw [length_sextets]
  omega

/-! ## Characters -/

def charOf (s : Nat) : Char :=
  Char.ofNat (if s < 26 then 65 + s else if s < 52 then 71 + s else if s < 62 then s - 4
    else if s = 62 then 45 else 95)

def sextetOf (c : Char) : Option Nat :=
  let n := c.toNat
  if 65 ≤ n ∧ n ≤ 90 then some (n - 65)
  else if 97 ≤ n ∧ n ≤ 122 then some (n - 71)
  else if 48 ≤ n ∧ n ≤ 57 then some (n + 4)
  else if c = '-' ∨ c = '+' then some 62
  else if c = '_' ∨ c = '/' then some 63
  else none

theorem sextetOf_charOf {s : Nat} (h : s < 64) : sextetOf (charOf s) = some s := by
  have hall : ∀ s : Fin 64, sextetOf (charOf s) = some s.val := by decide
  exact hall ⟨s, h⟩

theorem charOf_ne_padding {s : Nat} (h : s < 64) : charOf s ≠ '=' := by
  have hall : ∀ s : Fin 64, charOf s ≠ '=' := by decide
  exact hall ⟨s, h⟩

/-- `base64url` without padding. -/
def encode (bytes : List UInt8) : List Char := (sextets (bytes.map UInt8.toNat)).map charOf

/-- The strict decoder: data characters, then at most two signs of padding, in groups of four. -/
def decode (cs : List Char) : Option (List UInt8) :=
  let data := cs.takeWhile (· ≠ '=')
  let padding := cs.dropWhile (· ≠ '=')
  if padding.all (· = '=') ∧ padding.length ≤ 2 ∧ (data.length + padding.length) % 4 = 0 then
    ((data.mapM sextetOf).bind octets).map fun bytes => bytes.map UInt8.ofNat
  else none

/-- Completes the last group. -/
def pad (cs : List Char) : List Char := cs ++ List.replicate ((4 - cs.length % 4) % 4) '='

theorem mapM_sextetOf {ss : List Nat} (h : ∀ s ∈ ss, s < 64) :
    (ss.map charOf).mapM sextetOf = some ss := by
  induction ss with
  | nil => rfl
  | cons s ss ih =>
    rw [List.map_cons, List.mapM_cons, sextetOf_charOf (h s List.mem_cons_self),
      ih fun t ht => h t (List.mem_cons_of_mem _ ht)]
    rfl

theorem decode_pad_encode (bytes : List UInt8) : decode (pad (encode bytes)) = some bytes := by
  have hbytes : ∀ b ∈ bytes.map UInt8.toNat, b < 256 := by
    intro b hb
    obtain ⟨x, -, rfl⟩ := List.mem_map.mp hb
    exact x.toNat_lt
  have hlt := sextets_lt _ hbytes
  set ss := sextets (bytes.map UInt8.toNat) with hss
  have hdata : ∀ c ∈ ss.map charOf, (c ≠ '=' : Bool) = true := by
    intro c hc
    obtain ⟨s, hs, rfl⟩ := List.mem_map.mp hc
    exact decide_eq_true (charOf_ne_padding (hlt s hs))
  have htake : (pad (encode bytes)).takeWhile (· ≠ '=') = ss.map charOf := by
    rw [pad, encode, ← hss, List.takeWhile_append_of_pos hdata]
    cases (4 - (ss.map charOf).length % 4) % 4 <;> simp [List.replicate_succ]
  have hdrop : (pad (encode bytes)).dropWhile (· ≠ '=') =
      List.replicate ((4 - ss.length % 4) % 4) '=' := by
    rw [pad, encode, ← hss, List.dropWhile_append_of_pos hdata, List.length_map]
    cases (4 - ss.length % 4) % 4 <;> simp [List.replicate_succ]
  have hmod : ss.length % 4 ≠ 1 := length_sextets_mod _
  unfold decode
  dsimp only
  rw [htake, hdrop, List.length_map, List.length_replicate, if_pos ⟨by simp, by omega, by omega⟩,
    mapM_sextetOf hlt, Option.bind_some, hss, octets_sextets _ hbytes, Option.map_some,
    List.map_map]
  congr 1
  refine (List.map_congr_left fun b _ => ?_).trans (List.map_id bytes)
  exact UInt8.ofNat_toNat

theorem length_encode (bytes : List UInt8) :
    (encode bytes).length = (4 * bytes.length + 2) / 3 := by
  rw [encode, List.length_map, length_sextets, List.length_map]

end Base64

end FluxFast.Theory
