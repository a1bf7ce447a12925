import Mathlib

/-!
# Text — the JavaScript view of strings

Lengths in UTF-16 code units, the order of `Array.prototype.sort`, `trim` and control characters.
Strings are sequences of Unicode scalar values.  JSON carries all of them; of a request header's
characters `fetch` takes those up to U+00FF and refuses the others.
-/

namespace FluxFast.Core

namespace Text

/-- The UTF-16 code units of a character. -/
def charUnits (c : Char) : List Nat :=
  let n := c.toNat
  if n < 0x10000 then [n]
  else [0xd800 + (n - 0x10000) / 0x400, 0xdc00 + (n - 0x10000) % 0x400]

def codeUnits (s : String) : List Nat := s.toList.flatMap charUnits

/-- `value.length`. -/
def jsLength (s : String) : Nat := (codeUnits s).length

def unitsLe : List Nat → List Nat → Bool
  | [], _ => true
  | _ :: _, [] => false
  | a :: as, b :: bs => a < b || a = b && unitsLe as bs

/-- The order of `Array.prototype.sort` without a comparator. -/
def codeUnitLe (a b : String) : Prop := unitsLe (codeUnits a) (codeUnits b) = true

instance (a b : String) : Decidable (codeUnitLe a b) :=
  inferInstanceAs (Decidable (_ = true))

def sort (ks : List String) : List String := ks.insertionSort codeUnitLe

@[simp] theorem mem_sort {k : String} {ks : List String} : k ∈ sort ks ↔ k ∈ ks :=
  List.mem_insertionSort _

/-! ## The order of the code units -/

theorem charUnits_append {c d : Char} {us vs : List Nat}
    (h : charUnits c ++ us = charUnits d ++ vs) : c = d ∧ us = vs := by
  have hsurrogate : ∀ e : Char, e.toNat < 0xd800 ∨ 0xdfff < e.toNat := fun e =>
    e.valid.imp id And.left
  have hc := hsurrogate c
  have hd := hsurrogate d
  have hbound : ∀ e : Char, e.toNat < 0x110000 := fun e => by
    rcases e.valid with he | he
    · exact Nat.lt_trans he (by decide)
    · exact he.2
  have hcBound := hbound c
  have hdBound := hbound d
  unfold charUnits at h
  have hunits : c.toNat = d.toNat ∧ us = vs := by
    dsimp only at h
    split at h <;> split at h <;> simp only [List.cons_append, List.nil_append, List.cons.injEq] at h
    · exact h
    · omega
    · omega
    · exact ⟨by omega, h.2.2⟩
  exact ⟨Char.ext (UInt32.toNat_inj.mp hunits.1), hunits.2⟩

theorem flatMap_charUnits_injective {cs ds : List Char}
    (h : cs.flatMap charUnits = ds.flatMap charUnits) : cs = ds := by
  have hne : ∀ c, charUnits c ≠ [] := fun c => by
    unfold charUnits
    dsimp only
    split <;> exact List.cons_ne_nil _ _
  induction cs generalizing ds with
  | nil =>
    cases ds with
    | nil => rfl
    | cons d ds => exact absurd (List.append_eq_nil_iff.mp h.symm).1 (hne d)
  | cons c cs ih =>
    cases ds with
    | nil => exact absurd (List.append_eq_nil_iff.mp h).1 (hne c)
    | cons d ds =>
      obtain ⟨rfl, htail⟩ := charUnits_append h
      rw [ih htail]

theorem unitsLe_total (us vs : List Nat) : unitsLe us vs = true ∨ unitsLe vs us = true := by
  induction us generalizing vs with
  | nil => exact .inl rfl
  | cons u us ih =>
    cases vs with
    | nil => exact .inr rfl
    | cons v vs =>
      have := ih vs
      simp only [unitsLe, Bool.or_eq_true, Bool.and_eq_true, decide_eq_true_eq]
      rcases Nat.lt_trichotomy u v with h | h | h
      · exact .inl (.inl h)
      · exact this.imp (fun h' => .inr ⟨h, h'⟩) fun h' => .inr ⟨h.symm, h'⟩
      · exact .inr (.inl h)

theorem unitsLe_trans {us vs ws : List Nat} (h : unitsLe us vs = true) (h' : unitsLe vs ws = true) :
    unitsLe us ws = true := by
  induction us generalizing vs ws with
  | nil => rfl
  | cons u us ih =>
    cases vs with
    | nil => cases h
    | cons v vs =>
      cases ws with
      | nil => cases h'
      | cons w ws =>
        simp only [unitsLe, Bool.or_eq_true, Bool.and_eq_true, decide_eq_true_eq] at h h' ⊢
        rcases h with h | ⟨rfl, h⟩
        · rcases h' with h' | ⟨rfl, h'⟩
          · exact .inl (Nat.lt_trans h h')
          · exact .inl h
        · exact h'.imp id fun hw => ⟨hw.1, ih h hw.2⟩

theorem unitsLe_antisymm {us vs : List Nat} (h : unitsLe us vs = true) (h' : unitsLe vs us = true) :
    us = vs := by
  induction us generalizing vs with
  | nil =>
    cases vs with
    | nil => rfl
    | cons v vs => cases h'
  | cons u us ih =>
    cases vs with
    | nil => cases h
    | cons v vs =>
      simp only [unitsLe, Bool.or_eq_true, Bool.and_eq_true, decide_eq_true_eq] at h h'
      rcases h with h | ⟨rfl, h⟩
      · omega
      · rw [ih h (h'.resolve_left (Nat.lt_irrefl _)).2]

theorem codeUnitLe_antisymm {a b : String} (h : codeUnitLe a b) (h' : codeUnitLe b a) : a = b :=
  String.toList_injective (flatMap_charUnits_injective (unitsLe_antisymm h h'))

instance : Std.Total codeUnitLe := ⟨fun _ _ => unitsLe_total _ _⟩

instance : IsTrans String codeUnitLe := ⟨fun _ _ _ => unitsLe_trans⟩

/-- A sorted list is the one that its entries are sorted to. -/
theorem sort_eq_of_perm {ks sorted : List String} (hperm : sorted.Perm ks)
    (hsorted : sorted.Pairwise codeUnitLe) : sort ks = sorted := by
  refine List.Perm.eq_of_pairwise (fun a b _ _ => codeUnitLe_antisymm)
    (List.pairwise_insertionSort _ _) hsorted ?_
  exact (List.perm_insertionSort _ _).trans hperm.symm

/-! ## Other views -/

/-- White space and line terminators, the characters that `trim` removes. -/
def isSpace (c : Char) : Bool :=
  let n := c.toNat
  (9 ≤ n && n ≤ 13) || n = 0x20 || n = 0xa0 || n = 0x1680 || (0x2000 ≤ n && n ≤ 0x200a) ||
    n = 0x2028 || n = 0x2029 || n = 0x202f || n = 0x205f || n = 0x3000 || n = 0xfeff

/-- `value.trim().length === 0`. -/
def blank (s : String) : Bool := s.toList.all isSpace

def hasComma (s : String) : Bool := s.toList.any fun c => c = ','

/-- Any character in `\u0000-\u001f`. -/
def hasControl (s : String) : Bool := s.toList.any fun c => c.toNat < 0x20

/-- Any character in `\u0000-\u001f` or `\u007f-\u009f`. -/
def hasControlCharacters (s : String) : Bool :=
  s.toList.any fun c => c.toNat < 0x20 || (0x7f ≤ c.toNat && c.toNat ≤ 0x9f)

def charBytes (c : Char) : Nat :=
  let n := c.toNat
  if n < 0x80 then 1 else if n < 0x800 then 2 else if n < 0x10000 then 3 else 4

/-- Bytes of the UTF-8 encoding. -/
def utf8Bytes (s : String) : Nat := (s.toList.map charBytes).sum

/-- Bytes of `JSON.stringify` of a string without control characters. -/
def quotedBytes (s : String) : Nat :=
  utf8Bytes s + (s.toList.filter fun c => c = '"' || c = '\\').length + 2

end Text

end FluxFast.Core
