import FluxFast.Theory.Pieces
import Mathlib.Tactic.IntervalCases

/-!
# Ipv6 — the `ipv4` and `ipv6` formats

`isValidIpv6` replaces an IPv4 tail by the groups `0:0`, splits the address at `::` and at `:`, and
drops the empty pieces.  What it accepts is compared with the text forms of an address: eight
groups, or fewer around one `::`, with an IPv4 address in place of the last two groups or not.
-/

namespace FluxFast.Validation

open FluxFast.Theory

/-! ## The checks -/

/-- `[0-9a-f]` without regard to case. -/
def isHexDigit (c : Char) : Bool :=
  c.isDigit || ('a' ≤ c && c ≤ 'f') || ('A' ≤ c && c ≤ 'F')

def isValidHextet (value : List Char) : Bool :=
  1 ≤ value.length && value.length ≤ 4 && value.all isHexDigit

/-- `Number(part)` of decimal digits. -/
def decimal (part : List Char) : Nat := Nat.ofDigitChars 10 part 0

def isValidOctet (part : List Char) : Bool :=
  1 ≤ part.length && part.length ≤ 3 && part.all Char.isDigit &&
    !(1 < part.length && part.head? = some '0') && decimal part ≤ 255

def isValidIpv4 (value : List Char) : Bool :=
  let parts := value.splitOn '.'
  parts.length = 4 && parts.all isValidOctet

/-- What `isValidIpv6` does with an address whose IPv4 tail has been replaced. -/
def isValidGroups (address : List Char) : Bool :=
  match indexOf [':', ':'] address with
  | none =>
    let segments := address.splitOn ':'
    segments.length = 8 && segments.all isValidHextet
  | some compression =>
    if some compression ≠ lastIndexOf [':', ':'] address then false
    else
      let left := pieces ':' (address.take compression)
      let right := pieces ':' (address.drop (compression + 2))
      if !left.all isValidHextet || !right.all isValidHextet then false
      else left.length + right.length < 8

def isValidIpv6 (text : String) : Bool :=
  let value := text.toList
  if value.isEmpty || value.contains '%' then false
  else if value.contains '.' then
    match lastIndexOf [':'] value with
    | none => false
    | some separator =>
      if !isValidIpv4 (value.drop (separator + 1)) then false
      else isValidGroups (value.take (separator + 1) ++ ['0', ':', '0'])
  else isValidGroups value

/-! ## The text forms of an address -/

/-- One to four hexadecimal digits. -/
def Group (g : List Char) : Prop := 1 ≤ g.length ∧ g.length ≤ 4 ∧ ∀ c ∈ g, isHexDigit c = true

/-- Four numbers up to 255 in decimal notation. -/
def DottedQuad (q : List Char) : Prop :=
  ∃ a b c d, a ≤ 255 ∧ b ≤ 255 ∧ c ≤ 255 ∧ d ≤ 255 ∧
    q = join '.' ([a, b, c, d].map (Nat.toDigits 10))

/-- The last parts of an address and the number of groups they stand for. -/
inductive Tail : List (List Char) → Nat → Prop
  | groups {gs : List (List Char)} : (∀ g ∈ gs, Group g) → Tail gs gs.length
  | quad {gs : List (List Char)} {q : List Char} :
      (∀ g ∈ gs, Group g) → DottedQuad q → Tail (gs ++ [q]) (gs.length + 2)

/-- The text forms: eight groups, or at most seven around `::`. -/
inductive Ipv6Address : List Char → Prop
  | full {parts : List (List Char)} : Tail parts 8 → Ipv6Address (join ':' parts)
  | compressed {left right : List (List Char)} {n : Nat} :
      (∀ g ∈ left, Group g) → Tail right n → left.length + n ≤ 7 →
      Ipv6Address (join ':' left ++ ':' :: ':' :: join ':' right)

/-- An address with `::` and a single colon before it, or without an IPv4 tail and with a single
colon behind it, or both. -/
def StrayColon (s : List Char) : Prop :=
  ∃ a, Ipv6Address a ∧ [':', ':'] <:+: a ∧
    ((s = ':' :: a ∧ ¬ [':'] <+: a) ∨
      (s = a ++ [':'] ∧ ¬ [':'] <:+ a ∧ '.' ∉ a) ∨
      (s = ':' :: (a ++ [':']) ∧ ¬ [':'] <+: a ∧ ¬ [':'] <:+ a ∧ '.' ∉ a))

/-! ## Groups and numbers -/

section Parts

variable {g q part : List Char} {gs ps : List (List Char)} {n : Nat}

theorem isValidHextet_iff : isValidHextet g = true ↔ Group g := by
  simp [isValidHextet, Group, and_assoc]

theorem all_isValidHextet_iff : gs.all isValidHextet = true ↔ ∀ g ∈ gs, Group g := by
  simp only [List.all_eq_true, isValidHextet_iff]

theorem Group.proper (h : Group g) : g ≠ [] ∧ ':' ∉ g := by
  constructor
  · rintro rfl
    exact absurd h.1 (by decide)
  · intro hc
    exact absurd (h.2.2 _ hc) (by decide)

theorem Group.no_dot (h : Group g) : '.' ∉ g := fun hc => absurd (h.2.2 _ hc) (by decide)

theorem proper_of_groups (h : ∀ g ∈ gs, Group g) : Proper ':' gs := fun g hg => (h g hg).proper

theorem zero_group : Group ['0'] := ⟨le_refl _, by decide, by simp [isHexDigit]⟩

theorem digitChar_of_isDigit {c : Char} (h : c.isDigit = true) :
    c.toNat - '0'.toNat < 10 ∧ Nat.digitChar (c.toNat - '0'.toNat) = c := by
  have hlow : 48 ≤ c.toNat ∧ c.toNat ≤ 57 := by
    simpa [Char.isDigit, UInt32.le_iff_toNat_le] using h
  have hc : c = Char.ofNat c.toNat := (Char.ofNat_toNat c).symm
  obtain ⟨hle, hge⟩ := hlow
  generalize c.toNat = n at hle hge hc
  subst hc
  interval_cases n <;> decide

theorem decimal_concat (front : List Char) (c : Char) :
    decimal (front ++ [c]) = 10 * decimal front + (c.toNat - '0'.toNat) := by
  rw [decimal, Nat.ofDigitChars_append, Nat.ofDigitChars_cons, Nat.ofDigitChars_nil]
  rfl

/-- Decimal digits that do not begin with a superfluous zero are the notation of their number. -/
theorem toDigits_decimal (hne : part ≠ []) (hdigits : ∀ c ∈ part, c.isDigit = true)
    (hzero : part.length = 1 ∨ part.head? ≠ some '0') :
    Nat.toDigits 10 (decimal part) = part := by
  induction part using List.reverseRecOn with
  | nil => exact absurd rfl hne
  | append_singleton front c ih =>
    obtain ⟨hlt, hchar⟩ := digitChar_of_isDigit (hdigits c (by simp))
    rw [decimal_concat]
    by_cases hfront : front = []
    · subst hfront
      show Nat.toDigits 10 (0 + (c.toNat - '0'.toNat)) = [c]
      rw [Nat.zero_add, Nat.toDigits_of_lt_base hlt, hchar]
    · have hhead : front.head? ≠ some '0' := by
        have hlength := List.length_pos_of_ne_nil hfront
        rcases hzero with hone | hhead
        · simp only [List.length_append, List.length_singleton] at hone
          omega
        · rwa [List.head?_append_of_ne_nil _ hfront] at hhead
      have hvalue := ih hfront (fun d hd => hdigits d (by simp [hd])) (.inr hhead)
      have hpos : 0 < decimal front := by
        apply Nat.pos_of_ne_zero
        intro h0
        rw [h0, Nat.toDigits_zero] at hvalue
        exact hhead (by rw [← hvalue]; rfl)
      rw [← Nat.toDigits_append_toDigits (by decide) hpos hlt, hvalue,
        Nat.toDigits_of_lt_base hlt, hchar]

theorem isValidOctet_iff : isValidOctet part = true ↔ ∃ n ≤ 255, part = Nat.toDigits 10 n := by
  constructor
  · intro h
    simp only [isValidOctet, Bool.and_eq_true, decide_eq_true_eq, Bool.not_eq_true',
      List.all_eq_true, Bool.and_eq_false_iff, decide_eq_false_iff_not] at h
    obtain ⟨⟨⟨⟨hlow, -⟩, hdigits⟩, hzero⟩, hle⟩ := h
    refine ⟨decimal part, hle, (toDigits_decimal ?_ hdigits ?_).symm⟩
    · exact List.ne_nil_of_length_pos hlow
    · rcases hzero with hlength | hhead
      · left
        omega
      · exact .inr hhead
  · rintro ⟨n, hn, rfl⟩
    have hall : (List.range 256).all (fun n => isValidOctet (Nat.toDigits 10 n)) = true := by
      decide +kernel
    exact List.all_eq_true.mp hall n (List.mem_range.mpr (by omega))

theorem no_dot_toDigits (n : Nat) : '.' ∉ Nat.toDigits 10 n := fun h =>
  absurd (Nat.isDigit_of_mem_toDigits (by decide) (by decide) h) (by decide)

theorem no_colon_toDigits (n : Nat) : ':' ∉ Nat.toDigits 10 n := fun h =>
  absurd (Nat.isDigit_of_mem_toDigits (by decide) (by decide) h) (by decide)

theorem isValidIpv4_iff : isValidIpv4 q = true ↔ DottedQuad q := by
  constructor
  -- the four parts are the octets of the address
  · intro h
    simp only [isValidIpv4, Bool.and_eq_true, decide_eq_true_eq, List.all_eq_true,
      isValidOctet_iff] at h
    obtain ⟨hlength, hall⟩ := h
    obtain ⟨w, x, y, z, hsplit⟩ := List.length_eq_four.mp hlength
    rw [hsplit] at hall
    obtain ⟨a, ha, rfl⟩ := hall w (by simp)
    obtain ⟨b, hb, rfl⟩ := hall x (by simp)
    obtain ⟨c, hc, rfl⟩ := hall y (by simp)
    obtain ⟨d, hd, rfl⟩ := hall z (by simp)
    exact ⟨a, b, c, d, ha, hb, hc, hd, by rw [← join_splitOn q, hsplit]; rfl⟩
  -- an octet has no dot in it, so the text splits into these four
  · rintro ⟨a, b, c, d, ha, hb, hc, hd, rfl⟩
    have hsplit : (join '.' ([a, b, c, d].map (Nat.toDigits 10))).splitOn '.' =
        [a, b, c, d].map (Nat.toDigits 10) := by
      apply splitOn_join
      · intro p hp
        obtain ⟨n, -, rfl⟩ := List.mem_map.mp hp
        exact ⟨Nat.toDigits_ne_nil, no_dot_toDigits n⟩
      · simp
    simp only [isValidIpv4, hsplit, Bool.and_eq_true, decide_eq_true_eq, List.all_eq_true,
      isValidOctet_iff]
    refine ⟨rfl, fun p hp => ?_⟩
    obtain ⟨n, hn, rfl⟩ := List.mem_map.mp hp
    refine ⟨n, ?_, rfl⟩
    simp only [List.mem_cons, List.not_mem_nil, or_false] at hn
    omega

theorem DottedQuad.proper (h : DottedQuad q) : q ≠ [] ∧ ':' ∉ q := by
  obtain ⟨a, b, c, d, -, -, -, -, rfl⟩ := h
  constructor
  · intro hnil
    exact absurd (List.append_eq_nil_iff.mp hnil).1 Nat.toDigits_ne_nil
  · intro hc
    rcases mem_join hc with heq | ⟨p, hp, hcp⟩
    · exact absurd heq (by decide)
    · obtain ⟨n, -, rfl⟩ := List.mem_map.mp hp
      exact no_colon_toDigits n hcp

theorem DottedQuad.dot (h : DottedQuad q) : '.' ∈ q := by
  obtain ⟨a, b, c, d, -, -, -, -, rfl⟩ := h
  rw [List.map_cons, join_cons _ (by simp)]
  simp

theorem Tail.proper (h : Tail ps n) : Proper ':' ps := by
  cases h with
  | groups hgs => exact proper_of_groups hgs
  | quad hgs hq =>
    intro p hp
    rcases List.mem_append.mp hp with hp | hp
    · exact (hgs p hp).proper
    · rw [List.mem_singleton.mp hp]
      exact hq.proper

/-- Groups alone have no dot. -/
theorem no_dot_join (h : ∀ g ∈ gs, Group g) : '.' ∉ join ':' gs := by
  intro hdot
  rcases mem_join hdot with heq | ⟨g, hg, hdotg⟩
  · exact absurd heq (by decide)
  · exact (h g hg).no_dot hdotg

end Parts

/-! ## Groups around `::` -/

section Accepted

variable {s l r front back q : List Char} {gs left right : List (List Char)} {n : Nat}

theorem isValidGroups_none (h : Apart ':' s) :
    isValidGroups s = true ↔
      (s.splitOn ':').length = 8 ∧ ∀ g ∈ s.splitOn ':', Group g := by
  have hnone := (indexOf_eq_none_iff (by simp)).mpr (apart_iff.mp h)
  simp only [isValidGroups, hnone, Bool.and_eq_true, decide_eq_true_eq, all_isValidHextet_iff]

theorem isValidGroups_some (hl : Apart ':' (l ++ [':'])) (hr : Apart ':' (':' :: r)) :
    isValidGroups (l ++ ':' :: ':' :: r) = true ↔
      (∀ g ∈ pieces ':' l, Group g) ∧ (∀ g ∈ pieces ':' r, Group g) ∧
        (pieces ':' l).length + (pieces ':' r).length < 8 := by
  -- the only double colon stands between the two sides
  have hshape : l ++ ':' :: ':' :: r = l ++ [':', ':'] ++ r := by simp
  have hfirst : indexOf [':', ':'] (l ++ ':' :: ':' :: r) = some l.length := by
    rw [hshape]
    apply indexOf_append (by simp)
    rw [show (l ++ [':', ':']).dropLast = l ++ [':'] by simp [List.dropLast_append_of_ne_nil]]
    exact apart_iff.mp hl
  have hlast : lastIndexOf [':', ':'] (l ++ ':' :: ':' :: r) = some l.length := by
    rw [hshape]
    exact lastIndexOf_append (by simp) (apart_iff.mp hr)
  have htake : (l ++ ':' :: ':' :: r).take l.length = l := by simp
  have hdrop : (l ++ ':' :: ':' :: r).drop (l.length + 2) = r := by
    rw [hshape, List.drop_append_of_le_length (by simp)]
    simp
  simp only [isValidGroups, hfirst, hlast, htake, hdrop, ne_eq, not_true_eq_false, if_false]
  -- the pieces of both sides are checked, then counted together
  split
  · next hbad =>
    simp only [Bool.false_eq_true, false_iff, not_and]
    intro hleft hright
    rw [all_isValidHextet_iff.mpr hleft, all_isValidHextet_iff.mpr hright] at hbad
    exact absurd hbad (by decide)
  · next hgood =>
    simp only [Bool.or_eq_true, Bool.not_eq_true', not_or, Bool.not_eq_false,
      all_isValidHextet_iff] at hgood
    simp only [decide_eq_true_eq]
    exact ⟨fun h => ⟨hgood.1, hgood.2, h⟩, fun h => h.2.2⟩

/-- Eight groups, or at most seven around one `::`, where a colon may stand at either end. -/
theorem isValidGroups_iff :
    isValidGroups s = true ↔
      (∃ gs, (∀ g ∈ gs, Group g) ∧ gs.length = 8 ∧ s = join ':' gs) ∨
      ∃ left right l r, (∀ g ∈ left, Group g) ∧ (∀ g ∈ right, Group g) ∧
        left.length + right.length < 8 ∧ Front ':' left l ∧ Back ':' right r ∧
        s = l ++ ':' :: ':' :: r := by
  constructor
  · intro h
    -- no double colon: eight groups
    cases hfirst : indexOf [':', ':'] s with
    | none =>
      have happart : Apart ':' s :=
        apart_iff.mpr ((indexOf_eq_none_iff (by simp)).mp hfirst)
      have hboth := (isValidGroups_none happart).mp h
      exact .inl ⟨s.splitOn ':', hboth.2, hboth.1, (join_splitOn s).symm⟩
    | some i =>
      right
      -- the first double colon is the last one, else the text is refused
      have hlast : lastIndexOf [':', ':'] s = some i := by
        by_contra hne
        have hne' : some i ≠ lastIndexOf [':', ':'] s := fun heq => hne heq.symm
        simp [isValidGroups, hfirst, hne'] at h
      obtain ⟨l, r, hs, hlength, hl⟩ := indexOf_eq_some (by simp) hfirst
      obtain ⟨l', r', hs', hlength', hr⟩ := lastIndexOf_eq_some (by simp) hlast
      -- so both searches split the text at the same place
      obtain ⟨rfl, rfl⟩ : l = l' ∧ r = r' := by
        have hsame : l ++ ([':', ':'] ++ r) = l' ++ ([':', ':'] ++ r') := by
          rw [← List.append_assoc, ← List.append_assoc, ← hs, ← hs']
        have hparts := List.append_inj hsame (by omega)
        exact ⟨hparts.1, List.append_cancel_left hparts.2⟩
      rw [show (l ++ [':', ':']).dropLast = l ++ [':'] by
        simp [List.dropLast_append_of_ne_nil]] at hl
      have hal : Apart ':' (l ++ [':']) := apart_iff.mpr hl
      have har : Apart ':' (':' :: r) := apart_iff.mpr hr
      have hshape : s = l ++ ':' :: ':' :: r := by rw [hs]; simp
      rw [hshape] at h
      have hparts := (isValidGroups_some hal har).mp h
      exact ⟨_, _, l, r, hparts.1, hparts.2.1, hparts.2.2, front_pieces hal, back_pieces har,
        hshape⟩
  -- a text of either shape is split as it was built
  · rintro (⟨gs, hgs, hlength, rfl⟩ | ⟨left, right, l, r, hleft, hright, hlt, hl, hr, rfl⟩)
    · have hproper := proper_of_groups hgs
      have hne : gs ≠ [] := List.ne_nil_of_length_pos (by omega)
      have happart : Apart ':' (join ':' gs) := (apart_cons_join hproper).tail
      rw [isValidGroups_none happart, splitOn_join hproper hne]
      exact ⟨hlength, hgs⟩
    · have hpl := proper_of_groups hleft
      have hpr := proper_of_groups hright
      rw [isValidGroups_some (hl.apart hpl) (hr.apart hpr), hl.pieces_eq hpl, hr.pieces_eq hpr]
      exact ⟨hleft, hright, hlt⟩

/-! ## The IPv4 tail -/

/-- What the code takes for an address: a colon before the groups in front of `::` and one behind
the groups after it do no harm. -/
def Accepted (s : List Char) : Prop :=
  (∃ parts, Tail parts 8 ∧ s = join ':' parts) ∨
    ∃ left right n l r, (∀ g ∈ left, Group g) ∧ Tail right n ∧ left.length + n ≤ 7 ∧
      Front ':' left l ∧
      (r = join ':' right ∨ (right ≠ [] ∧ (∀ g ∈ right, Group g) ∧ r = join ':' right ++ [':'])) ∧
      s = l ++ ':' :: ':' :: r

theorem no_dot_front (hl : Front ':' left l) (h : ∀ g ∈ left, Group g) : '.' ∉ l := by
  have hjoin := no_dot_join h
  rcases hl with rfl | ⟨-, rfl⟩
  · exact hjoin
  · simpa using hjoin

theorem no_dot_back (hr : Back ':' right r) (h : ∀ g ∈ right, Group g) : '.' ∉ r := by
  have hjoin := no_dot_join h
  rcases hr with rfl | ⟨-, rfl⟩
  · exact hjoin
  · simpa using hjoin

theorem mem_join_concat (hq : DottedQuad q) (gs : List (List Char)) :
    '.' ∈ join ':' (gs ++ [q]) := by
  by_cases hgs : gs = []
  · simpa [hgs] using hq.dot
  · rw [join_concat hgs]
    simp [hq.dot]

/-- Without a dot the parts are groups. -/
theorem accepted_iff_of_no_dot (hdot : '.' ∉ s) : isValidGroups s = true ↔ Accepted s := by
  rw [isValidGroups_iff]
  constructor
  -- a text without a dot ends with a group, so a tail is a list of groups
  · rintro (⟨gs, hgs, hlength, rfl⟩ | ⟨left, right, l, r, hleft, hright, hlt, hl, hr, rfl⟩)
    · exact .inl ⟨gs, hlength ▸ Tail.groups hgs, rfl⟩
    · refine .inr ⟨left, right, _, l, r, hleft, Tail.groups hright, by omega, hl, ?_, rfl⟩
      rcases hr with rfl | ⟨hne, rfl⟩
      · exact .inl rfl
      · exact .inr ⟨hne, hright, rfl⟩
  · rintro (⟨parts, htail, rfl⟩ | ⟨left, right, n, l, r, hleft, htail, hle, hl, hr, rfl⟩)
    · left
      generalize hn : 8 = n at htail ⊢
      cases htail with
      | groups hgs => exact ⟨parts, hgs, rfl, rfl⟩
      | quad hgs hq => exact absurd (mem_join_concat hq _) hdot
    · right
      cases htail with
      | groups hright =>
        refine ⟨left, right, l, r, hleft, hright, by omega, hl, ?_, rfl⟩
        rcases hr with rfl | ⟨hne, -, rfl⟩
        · exact .inl rfl
        · exact .inr ⟨hne, rfl⟩
      -- a dotted quad has a dot
      | quad hgs hq =>
        exfalso
        apply hdot
        rcases hr with rfl | ⟨-, hgroups, -⟩
        · simp [mem_join_concat hq]
        · exact absurd hq.dot (hgroups _ (by simp)).no_dot

/-- The groups that take the place of an IPv4 address. -/
def zeros : List (List Char) := [['0'], ['0']]

theorem groups_append_zeros (h : ∀ g ∈ gs, Group g) : ∀ g ∈ gs ++ zeros, Group g := by
  intro g hg
  rcases List.mem_append.mp hg with hg | hg
  · exact h g hg
  · have hzero : g = ['0'] := by simpa [zeros] using hg
    exact hzero ▸ zero_group

/-- The same parts before the address and before the zeros. -/
theorem join_zeros {parts : List (List Char)} (h : parts ≠ []) :
    join ':' (parts ++ zeros) = join ':' parts ++ ':' :: ['0', ':', '0'] :=
  join_append h (by simp [zeros])

/-- The parts around `::`, read as one list with an empty part in it. -/
theorem join_compressed (l : List Char) {parts : List (List Char)} (h : parts ≠ []) :
    join ':' (l.splitOn ':' ++ [] :: parts) = l ++ ':' :: ':' :: join ':' parts := by
  rw [join_append (List.splitOn_ne_nil ':' l) (by simp), join_splitOn, join_cons [] h,
    List.nil_append]

theorem not_concat_nil_of_zeros {before parts : List (List Char)} :
    parts ++ [[]] ≠ before ++ zeros := by
  intro h
  have hlast := congrArg List.getLast? h
  simp [zeros] at hlast

/-- Where the two zeros are the last pieces, they are the last groups after `::`. -/
theorem back_zeros_inv (hr : Back ':' right r) (hright : ∀ g ∈ right, Group g)
    {before : List (List Char)} (h : before ++ zeros = l.splitOn ':' ++ [] :: r.splitOn ':') :
    ∃ gs, right = gs ++ zeros ∧ r = join ':' right ∧ before = l.splitOn ':' ++ [] :: gs := by
  -- an empty piece at the end tells whether a colon stands there
  have hempty : r.splitOn ':' = right ∧ r = join ':' right ∨
      ∃ parts, r.splitOn ':' = parts ++ [[]] := by
    by_cases hne : right = []
    · subst hne
      rcases hr with rfl | ⟨hne, -⟩
      · exact .inr ⟨[], by simp [List.splitOn_nil]⟩
      · exact absurd rfl hne
    · have hsplit := splitOn_join (proper_of_groups hright) hne
      rcases hr with rfl | ⟨-, rfl⟩
      · exact .inl ⟨hsplit, rfl⟩
      · refine .inr ⟨right, ?_⟩
        rw [List.splitOn_append_cons_self, hsplit, List.splitOn_nil]
  -- the two zeros are the last two pieces, and no piece of them is empty
  rcases hempty with ⟨hsplit, hr⟩ | ⟨parts, hparts⟩
  · rw [hsplit] at h
    rcases List.append_eq_append_iff.mp h with ⟨c, -, hc⟩ | ⟨c, hc, hzeros⟩
    · -- neither zero is the empty part between the colons
      have hmem : ([] : List Char) ∈ zeros := hc ▸ by simp
      exact absurd hmem (by decide)
    · cases c with
      | nil => exact absurd (List.cons.inj hzeros).1 (by decide)
      | cons p gs =>
        obtain ⟨hp, hgs⟩ := List.cons.inj hzeros
        exact ⟨gs, hgs, hr, by rw [hc, ← hp]⟩
  -- a stray colon at the end would make the last piece empty
  · exfalso
    rw [hparts, ← List.cons_append, ← List.append_assoc] at h
    exact not_concat_nil_of_zeros h.symm

theorem accepted_iff_of_quad (hq : DottedQuad q) :
    isValidGroups (s ++ ':' :: ['0', ':', '0']) = true ↔ Accepted (s ++ ':' :: q) := by
  have hparts : s.splitOn ':' ≠ [] := List.splitOn_ne_nil ':' s
  -- the two zeros stand where the dotted quad does
  have hsplit : (s ++ ':' :: ['0', ':', '0']).splitOn ':' = s.splitOn ':' ++ zeros := by
    rw [List.splitOn_append_cons_self]
    rfl
  have hs : s ++ ':' :: q = join ':' (s.splitOn ':' ++ [q]) := by
    rw [join_concat hparts, join_splitOn]
  rw [isValidGroups_iff]
  constructor
  -- the text with the zeros is read, and the quad is put in their place
  · rintro (⟨gs, hgs, hlength, heq⟩ | ⟨left, right, l, r, hleft, hright, hlt, hl, hr, heq⟩)
    · left
      have hne : gs ≠ [] := List.ne_nil_of_length_pos (by omega)
      rw [heq, splitOn_join (proper_of_groups hgs) hne] at hsplit
      rw [hsplit] at hgs hlength
      have hsix : (s.splitOn ':').length + 2 = 8 := by simpa [zeros] using hlength
      exact ⟨_, hsix ▸ Tail.quad (fun g hg => hgs g (List.mem_append_left _ hg)) hq, hs⟩
    · right
      rw [heq, List.splitOn_append_cons_self, ← List.nil_append (':' :: r),
        List.splitOn_append_cons_self, List.splitOn_nil, List.singleton_append] at hsplit
      obtain ⟨gs, rfl, rfl, hbefore⟩ := back_zeros_inv hr hright hsplit.symm
      have htail : Tail (gs ++ [q]) (gs.length + 2) :=
        Tail.quad (fun g hg => hright g (List.mem_append_left _ hg)) hq
      refine ⟨left, gs ++ [q], _, l, _, hleft, htail, ?_, hl, .inl rfl, ?_⟩
      · simp only [zeros, List.length_append, List.length_cons, List.length_nil] at hlt
        omega
      · rw [hs, hbefore, ← join_compressed l (by simp), List.append_assoc, List.cons_append]
  -- the text with the quad is read, and the zeros are put in its place
  · have hdot : '.' ∈ s ++ ':' :: q := by simp [hq.dot]
    have hsplit' : (s ++ ':' :: q).splitOn ':' = s.splitOn ':' ++ [q] := by
      rw [List.splitOn_append_cons_self, List.splitOn_eq_singleton hq.proper.2]
    rintro (⟨parts, htail, heq⟩ | ⟨left, right, n, l, r, hleft, htail, hle, hl, hr, heq⟩)
    · left
      generalize hn : 8 = n at htail
      cases htail with
      | groups hgs => exact absurd (heq ▸ hdot) (no_dot_join hgs)
      | quad hgs hq' =>
        rename_i gs q'
        rw [heq, splitOn_join (Tail.quad hgs hq').proper (by simp)] at hsplit'
        obtain ⟨rfl, -⟩ := List.append_inj' hsplit' rfl
        refine ⟨s.splitOn ':' ++ zeros, groups_append_zeros hgs, ?_, ?_⟩
        · simp [zeros]
        · rw [join_zeros hparts, join_splitOn]
    -- the quad is the last part of the right side
    · right
      have hnodot := no_dot_front hl hleft
      cases htail with
      | groups hright =>
        have hback : Back ':' right r := hr.imp_right fun h => ⟨h.1, h.2.2⟩
        exact absurd (heq ▸ hdot) (by simp [hnodot, no_dot_back hback hright])
      | quad hgs hq' =>
        rename_i gs q'
        have hr' : r = join ':' (gs ++ [q']) := by
          rcases hr with hr | ⟨-, hgroups, -⟩
          · exact hr
          · exact absurd hq'.dot (hgroups _ (by simp)).no_dot
        subst hr'
        have hproper := (Tail.quad hgs hq').proper
        rw [heq, List.splitOn_append_cons_self, ← List.nil_append (':' :: join ':' _),
          List.splitOn_append_cons_self, List.splitOn_nil, List.singleton_append,
          splitOn_join hproper (by simp), ← List.cons_append, ← List.append_assoc] at hsplit'
        obtain ⟨hbefore, -⟩ := List.append_inj' hsplit' rfl
        refine ⟨left, gs ++ zeros, l, _, hleft, groups_append_zeros hgs, ?_, hl, .inl rfl, ?_⟩
        · simp only [List.length_append, zeros, List.length_cons, List.length_nil]
          omega
        · rw [← join_compressed l (by simp [zeros]), ← List.cons_append, ← List.append_assoc,
            hbefore, join_zeros hparts, join_splitOn]

theorem DottedQuad.no_percent (h : DottedQuad q) : '%' ∉ q := by
  obtain ⟨a, b, c, d, -, -, -, -, rfl⟩ := h
  intro hc
  rcases mem_join hc with heq | ⟨p, hp, hcp⟩
  · exact absurd heq (by decide)
  · obtain ⟨n, -, rfl⟩ := List.mem_map.mp hp
    exact absurd (Nat.isDigit_of_mem_toDigits (by decide) (by decide) hcp) (by decide)

theorem Tail.no_percent {parts : List (List Char)} (h : Tail parts n) : '%' ∉ join ':' parts := by
  intro hc
  rcases mem_join hc with heq | ⟨p, hp, hcp⟩
  · exact absurd heq (by decide)
  · cases h with
    | groups hgs => exact absurd ((hgs p hp).2.2 _ hcp) (by decide)
    | quad hgs hq =>
      rcases List.mem_append.mp hp with hp | hp
      · exact absurd ((hgs p hp).2.2 _ hcp) (by decide)
      · exact hq.no_percent (List.mem_singleton.mp hp ▸ hcp)

theorem Accepted.plain (h : Accepted s) : s ≠ [] ∧ '%' ∉ s := by
  rcases h with ⟨parts, htail, rfl⟩ | ⟨left, right, n, l, r, hleft, htail, -, hl, hr, rfl⟩
  · refine ⟨join_ne_nil htail.proper ?_, htail.no_percent⟩
    rintro rfl
    generalize hn : 8 = n at htail
    generalize hp : ([] : List (List Char)) = parts at htail
    cases htail with
    | groups => exact absurd hn (hp ▸ by decide)
    | quad => exact absurd hp (by simp)
  · refine ⟨by simp, ?_⟩
    have hleft' := (Tail.groups hleft).no_percent
    have hright' := htail.no_percent
    have hl' : '%' ∉ l := by
      rcases hl with rfl | ⟨-, rfl⟩
      · exact hleft'
      · simpa using hleft'
    have hr' : '%' ∉ r := by
      rcases hr with rfl | ⟨-, -, rfl⟩
      · exact hright'
      · simpa using hright'
    simp [hl', hr']

/-- An accepted text with a dot in it ends in an IPv4 address. -/
theorem Accepted.quad_of_dot (h : Accepted s) (hdot : '.' ∈ s) :
    ∃ s' q, DottedQuad q ∧ s = s' ++ ':' :: q := by
  rcases h with ⟨parts, htail, rfl⟩ | ⟨left, right, n, l, r, hleft, htail, -, hl, hr, rfl⟩
  · generalize hn : 8 = n at htail
    cases htail with
    | groups hgs => exact absurd hdot (no_dot_join hgs)
    | quad hgs hq =>
      rename_i gs q
      have hne : gs ≠ [] := List.ne_nil_of_length_pos (by omega)
      exact ⟨join ':' gs, q, hq, join_concat hne q⟩
  · have hnodot := no_dot_front hl hleft
    cases htail with
    | groups hright =>
      have hback : Back ':' right r := hr.imp_right fun h => ⟨h.1, h.2.2⟩
      exact absurd hdot (by simp [hnodot, no_dot_back hback hright])
    | quad hgs hq =>
      rename_i gs q
      rcases hr with rfl | ⟨-, hgroups, -⟩
      · by_cases hne : gs = []
        · subst hne
          exact ⟨l ++ [':'], q, hq, by simp⟩
        · exact ⟨l ++ ':' :: ':' :: join ':' gs, q, hq, by rw [join_concat hne]; simp⟩
      · exact absurd hq.dot (hgroups _ (by simp)).no_dot

/-- The code accepts exactly the addresses, with a colon too many or not. -/
theorem isValidIpv6_iff (text : String) : isValidIpv6 text = true ↔ Accepted text.toList := by
  rw [isValidIpv6]
  generalize text.toList = s
  split
  -- an empty text and a zone are refused at once
  · next hbad =>
    simp only [Bool.or_eq_true, List.isEmpty_iff, List.contains_eq_mem, decide_eq_true_eq] at hbad
    refine ⟨fun h => absurd h (by decide), fun h => ?_⟩
    rcases hbad with hempty | hpercent
    · exact absurd hempty h.plain.1
    · exact absurd hpercent h.plain.2
  · split
    -- a dot: what follows the last colon is a dotted quad, and two zeros replace it
    · next hdot =>
      rw [List.contains_eq_mem, decide_eq_true_eq] at hdot
      constructor
      · intro h
        cases hlast : lastIndexOf [':'] s with
        | none => simp [hlast] at h
        -- the same split, found from the shape of the text
        | some i =>
          obtain ⟨s', q, rfl, rfl, -⟩ := lastIndexOf_eq_some (by simp) hlast
          simp only [hlast] at h
          have hdrop : (s' ++ [':'] ++ q).drop (s'.length + 1) = q := List.drop_left' (by simp)
          have htake : (s' ++ [':'] ++ q).take (s'.length + 1) = s' ++ [':'] :=
            List.take_left' (by simp)
          rw [hdrop, htake] at h
          split at h
          · cases h
          · next hq =>
            rw [Bool.not_eq_true, Bool.not_eq_false', isValidIpv4_iff] at hq
            have hshape : ∀ t : List Char, s' ++ [':'] ++ t = s' ++ ':' :: t := by simp
            rw [hshape] at h ⊢
            exact (accepted_iff_of_quad hq).mp h
      · intro h
        obtain ⟨s', q, hq, rfl⟩ := h.quad_of_dot hdot
        have hshape : s' ++ ':' :: q = s' ++ [':'] ++ q := by simp
        have hlast : lastIndexOf [':'] (s' ++ [':'] ++ q) = some s'.length := by
          apply lastIndexOf_append (by simp)
          intro hinside
          exact hq.proper.2 (hinside.subset (by simp))
        have hdrop : (s' ++ [':'] ++ q).drop (s'.length + 1) = q := List.drop_left' (by simp)
        have htake : (s' ++ [':'] ++ q).take (s'.length + 1) = s' ++ [':'] :=
          List.take_left' (by simp)
        have hzeros : s' ++ [':'] ++ ['0', ':', '0'] = s' ++ ':' :: ['0', ':', '0'] := by simp
        rw [hshape]
        simp only [hlast, hdrop, htake, hzeros, isValidIpv4_iff.mpr hq, Bool.not_true,
          Bool.false_eq_true, if_false]
        exact (accepted_iff_of_quad hq).mpr h
    -- no dot: the groups are checked as they are
    · next hdot =>
      rw [List.contains_eq_mem, decide_eq_true_eq] at hdot
      exact accepted_iff_of_no_dot hdot

/-! ## Colons too many -/

/-- An address with `::` in it is of the second form. -/
theorem compressed_of_double {a : List Char} (ha : Ipv6Address a) (hd : [':', ':'] <:+: a) :
    ∃ left right n, (∀ g ∈ left, Group g) ∧ Tail right n ∧ left.length + n ≤ 7 ∧
      a = join ':' left ++ ':' :: ':' :: join ':' right := by
  cases ha with
  | full htail =>
    have happart : Apart ':' (join ':' _) := (apart_cons_join htail.proper).tail
    exact absurd hd (apart_iff.mp happart)
  | compressed hleft htail hle => exact ⟨_, _, _, hleft, htail, hle, rfl⟩

/-- An address that begins with a colon begins with two. -/
theorem Ipv6Address.cons_colon {a : List Char} (h : Ipv6Address (':' :: a)) : [':'] <+: a := by
  generalize hs : ':' :: a = s at h
  cases h with
  | full htail => exact absurd hs.symm (not_cons_join htail.proper)
  | @compressed left right n hleft htail hle =>
    cases hjoin : join ':' left with
    | nil =>
      rw [hjoin, List.nil_append] at hs
      exact ⟨_, (List.cons.inj hs).2.symm⟩
    | cons x xs =>
      rw [hjoin, List.cons_append] at hs
      rw [← (List.cons.inj hs).1] at hjoin
      exact absurd hjoin (not_cons_join (proper_of_groups hleft))

/-- An address that ends in a colon ends in two. -/
theorem Ipv6Address.concat_colon {a : List Char} (h : Ipv6Address (a ++ [':'])) : [':'] <:+ a := by
  generalize hs : a ++ [':'] = s at h
  cases h with
  | full htail => exact absurd hs.symm (not_concat_join htail.proper)
  | @compressed left right n hleft htail hle =>
    rcases List.eq_nil_or_concat' (join ':' right) with hjoin | ⟨ys, y, hjoin⟩
    · rw [hjoin] at hs
      have hfront : a ++ [':'] = (join ':' left ++ [':']) ++ [':'] := hs.trans (by simp)
      exact ⟨_, (List.append_inj' hfront rfl).1.symm⟩
    · rw [hjoin] at hs
      have hlast : a ++ [':'] = (join ':' left ++ ':' :: ':' :: ys) ++ [y] := hs.trans (by simp)
      rw [← List.singleton_inj.mp (List.append_inj' hlast rfl).2] at hjoin
      exact absurd hjoin (not_concat_join htail.proper)

theorem StrayColon.not_address (h : StrayColon s) : ¬ Ipv6Address s := by
  intro haddress
  obtain ⟨a, -, hdouble, ⟨rfl, hfirst⟩ | ⟨rfl, hlast, -⟩ | ⟨rfl, hfirst, -, -⟩⟩ := h
  · exact hfirst haddress.cons_colon
  · exact hlast haddress.concat_colon
  · cases a with
    | nil => exact absurd hdouble.length_le (by simp)
    | cons x xs =>
      obtain ⟨t, ht⟩ := haddress.cons_colon
      exact hfirst ⟨xs, by rw [← (List.cons.inj ht).1]; rfl⟩

/-- Addresses, and addresses with a colon too many. -/
theorem accepted_iff : Accepted s ↔ Ipv6Address s ∨ StrayColon s := by
  constructor
  -- by the two flags of the split: a colon more on the left, on the right, or on both sides
  · rintro (⟨parts, htail, rfl⟩ | ⟨left, right, n, l, r, hleft, htail, hle, hl, hr, rfl⟩)
    · exact .inl (.full htail)
    · have haddress := Ipv6Address.compressed hleft htail hle
      have hdouble : [':', ':'] <:+: join ':' left ++ ':' :: ':' :: join ':' right :=
        ⟨join ':' left, join ':' right, by simp⟩
      have hfirst : left ≠ [] → ¬ [':'] <+: join ':' left ++ ':' :: ':' :: join ':' right := by
        intro hne hbegin
        obtain ⟨x, xs, hjoin⟩ :=
          List.exists_cons_of_ne_nil (join_ne_nil (proper_of_groups hleft) hne)
        rw [hjoin] at hbegin
        obtain ⟨t, ht⟩ := hbegin
        rw [← (List.cons.inj ht).1] at hjoin
        exact not_cons_join (proper_of_groups hleft) hjoin
      have hlast : right ≠ [] → ¬ [':'] <:+ join ':' left ++ ':' :: ':' :: join ':' right := by
        intro hne hend
        obtain ⟨ys, y, hjoin⟩ := (List.eq_nil_or_concat' (join ':' right)).resolve_left
          (join_ne_nil htail.proper hne)
        rw [hjoin] at hend
        obtain ⟨t, ht⟩ := hend
        have hy : t ++ [':'] = (join ':' left ++ ':' :: ':' :: ys) ++ [y] := ht.trans (by simp)
        rw [← List.singleton_inj.mp (List.append_inj' hy rfl).2] at hjoin
        exact not_concat_join htail.proper hjoin
      have hplain : (∀ g ∈ right, Group g) →
          '.' ∉ join ':' left ++ ':' :: ':' :: join ':' right := fun hright => by
        simp [no_dot_join hleft, no_dot_join hright]
      rcases hl with rfl | ⟨hleftne, rfl⟩
      · rcases hr with rfl | ⟨hrightne, hright, rfl⟩
        · exact .inl haddress
        · exact .inr ⟨_, haddress, hdouble, .inr (.inl ⟨by simp, hlast hrightne, hplain hright⟩)⟩
      · rcases hr with rfl | ⟨hrightne, hright, rfl⟩
        · exact .inr ⟨_, haddress, hdouble, .inl ⟨rfl, hfirst hleftne⟩⟩
        · exact .inr ⟨_, haddress, hdouble,
            .inr (.inr ⟨by simp, hfirst hleftne, hlast hrightne, hplain hright⟩)⟩
  -- a stray colon can only stand beside a double colon, on a side that has groups
  · rintro (haddress | ⟨a, haddress, hdouble, hcolon⟩)
    · cases haddress with
      | full htail => exact .inl ⟨_, htail, rfl⟩
      | compressed hleft htail hle =>
        exact .inr ⟨_, _, _, _, _, hleft, htail, hle, .inl rfl, .inl rfl, rfl⟩
    · obtain ⟨left, right, n, hleft, htail, hle, rfl⟩ := compressed_of_double haddress hdouble
      have hleftne : ¬ [':'] <+: join ':' left ++ ':' :: ':' :: join ':' right → left ≠ [] := by
        rintro hfirst rfl
        exact hfirst ⟨':' :: join ':' right, rfl⟩
      have hrightne : ¬ [':'] <:+ join ':' left ++ ':' :: ':' :: join ':' right → right ≠ [] := by
        rintro hlast rfl
        exact hlast ⟨join ':' left ++ [':'], by simp⟩
      have hgroups : '.' ∉ join ':' left ++ ':' :: ':' :: join ':' right →
          ∀ g ∈ right, Group g := by
        intro hdot
        cases htail with
        | groups hright => exact hright
        | quad hgs hq => exact absurd (by simp [mem_join_concat hq]) hdot
      right
      rcases hcolon with ⟨rfl, hfirst⟩ | ⟨rfl, hlast, hdot⟩ | ⟨rfl, hfirst, hlast, hdot⟩
      · exact ⟨left, right, n, _, _, hleft, htail, hle, .inr ⟨hleftne hfirst, rfl⟩, .inl rfl, rfl⟩
      · exact ⟨left, right, n, _, _, hleft, htail, hle, .inl rfl,
          .inr ⟨hrightne hlast, hgroups hdot, rfl⟩, by simp⟩
      · exact ⟨left, right, n, _, _, hleft, htail, hle, .inr ⟨hleftne hfirst, rfl⟩,
          .inr ⟨hrightne hlast, hgroups hdot, rfl⟩, by simp⟩

end Accepted

/-- The check agrees with the text forms on every text but those with a colon too many at an
end. -/
theorem isValidIpv6_agrees_iff (text : String) :
    (isValidIpv6 text = true ↔ Ipv6Address text.toList) ↔ ¬ StrayColon text.toList := by
  rw [isValidIpv6_iff, accepted_iff]
  constructor
  · intro hagree hstray
    exact hstray.not_address (hagree.mp (.inr hstray))
  · intro hplain
    exact ⟨fun h => h.resolve_right hplain, .inl⟩

/-- `1::2:` is taken for an address. -/
theorem trailing_colon_accepted :
    ¬ ∀ text : String, isValidIpv6 text = true ↔ Ipv6Address text.toList := by
  intro hall
  have haccepted : isValidIpv6 "1::2:" = true := by decide
  have haddress := (hall "1::2:").mp haccepted
  have hend : "1::2:".toList = ['1', ':', ':', '2'] ++ [':'] := by decide
  rw [hend] at haddress
  exact absurd haddress.concat_colon (by decide)

end FluxFast.Validation
