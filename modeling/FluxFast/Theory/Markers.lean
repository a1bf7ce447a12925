import FluxFast.Theory.Pieces
import FluxFast.Theory.Templates

/-!
# Markers — a region of a text between two markers

Markers are tokens that begin with a letter of their own, so two of them never overlap.  A text is
`Paired` when it has one opening and, after it, one closing marker; then it is a region with texts
around it and in it that are free of both.
-/

namespace FluxFast.Theory

section Places

variable {α : Type*} {needle s : List α} {i : Nat}

/-- `needle` stands in `s` at `i`. -/
def Occurs (needle s : List α) (i : Nat) : Prop := needle <+: s.drop i

theorem occurs_iff (hne : needle ≠ []) :
    Occurs needle s i ↔ ∃ x y, s = x ++ (needle ++ y) ∧ x.length = i := by
  constructor
  · rintro ⟨y, hy⟩
    have hlength : i ≤ s.length := by
      by_contra hover
      rw [List.drop_eq_nil_of_le (by omega)] at hy
      exact hne (List.append_eq_nil_iff.mp hy).1
    refine ⟨s.take i, y, ?_, List.length_take_of_le hlength⟩
    rw [hy, List.take_append_drop]
  · rintro ⟨x, y, rfl, rfl⟩
    exact ⟨y, (List.drop_left ..).symm⟩

theorem infix_iff_occurs (hne : needle ≠ []) : needle <:+: s ↔ ∃ i, Occurs needle s i := by
  constructor
  · rintro ⟨x, y, h⟩
    exact ⟨x.length, (occurs_iff hne).mpr ⟨x, y, by rw [← h, List.append_assoc], rfl⟩⟩
  · rintro ⟨i, h⟩
    obtain ⟨x, y, rfl, -⟩ := (occurs_iff hne).mp h
    exact ⟨x, y, List.append_assoc ..⟩

theorem occurs_drop (h : Occurs needle (s.drop i) j) : Occurs needle s (i + j) := by
  unfold Occurs at h ⊢
  rwa [List.drop_drop] at h

variable [DecidableEq α]

theorem indexOf_none (hne : needle ≠ []) : indexOf needle s = none ↔ ∀ i, ¬Occurs needle s i := by
  rw [indexOf_eq_none_iff hne, infix_iff_occurs hne, not_exists]

/-- A place that is the only one is found, and no other after it. -/
theorem indexOf_of_only (hne : needle ≠ []) (h : ∀ j, Occurs needle s j ↔ j = i) :
    indexOf needle s = some i ∧ indexOf needle (s.drop (i + 1)) = none := by
  constructor
  · cases hfound : indexOf needle s with
    | none => exact absurd ((h i).mpr rfl) ((indexOf_none hne).mp hfound i)
    | some j =>
      obtain ⟨x, y, hs, hlength, -⟩ := indexOf_eq_some hne hfound
      have hj : Occurs needle s j := (occurs_iff hne).mpr ⟨x, y, by rw [hs, List.append_assoc], hlength⟩
      rw [(h j).mp hj]
  · rw [indexOf_none hne]
    intro j hj
    have hplace := (h _).mp (occurs_drop hj)
    omega

theorem only_of_indexOf (hne : needle ≠ []) (hfound : indexOf needle s = some i)
    (hno : indexOf needle (s.drop (i + 1)) = none) (j : Nat) : Occurs needle s j ↔ j = i := by
  obtain ⟨front, back, rfl, rfl, hfirst⟩ := indexOf_eq_some hne hfound
  constructor
  · intro hj
    rcases Nat.lt_trichotomy j front.length with hlt | heq | hgt
    · -- a place before the first
      exfalso
      obtain ⟨x, y, hs, rfl⟩ := (occurs_iff hne).mp hj
      apply hfirst
      have hprefix : x ++ needle <+: (front ++ needle).dropLast := by
        refine List.prefix_of_prefix_length_le ⟨y, (List.append_assoc ..).trans hs.symm⟩
          ((List.dropLast_prefix _).trans ⟨back, rfl⟩) ?_
        rw [List.length_dropLast, List.length_append, List.length_append]
        omega
      exact (List.suffix_append x needle).isInfix.trans hprefix.isInfix
    · exact heq
    · exfalso
      refine (indexOf_none hne).mp hno (j - (front.length + 1)) ?_
      unfold Occurs at hj ⊢
      rw [List.drop_drop]
      have hplace : front.length + 1 + (j - (front.length + 1)) = j := by omega
      rwa [hplace]
  · rintro rfl
    exact (occurs_iff hne).mpr ⟨front, back, List.append_assoc .., rfl⟩

end Places

namespace Markers

variable {α κ : Type*} {token : κ → List α} {opening : α}

/-- A token in a text that has a token stands before it, is it, or stands after it. -/
theorem split_cases (htokens : Template.Tokens token opening) {k l : κ} {a b x y : List α}
    (h : a ++ (token l ++ b) = x ++ (token k ++ y)) :
    (∃ a', a = x ++ token k ++ a') ∨ (k = l ∧ x = a ∧ y = b) ∨
      ∃ b', x = a ++ token l ++ b' ∧ b = b' ++ (token k ++ y) := by
  -- the later token begins with the opening letter, which the earlier has only at its front
  have hlater : ∀ {k l : κ} {b c y : List α}, token l ++ b = c ++ (token k ++ y) →
      (c = [] ∧ k = l ∧ y = b) ∨ ∃ b', c = token l ++ b' ∧ b = b' ++ (token k ++ y) := by
    intro k l b c y h
    obtain ⟨rest, hrest, -⟩ := htokens.head k
    obtain ⟨rest', hrest', hclear⟩ := htokens.head l
    have hopening : token l ++ b = c ++ opening :: (rest ++ y) := by
      rw [h, hrest, List.cons_append]
    have hdrop : opening ∉ (token l).drop 1 := by
      rwa [hrest']
    rcases Template.opening_cases hdrop hopening with ⟨rfl, -⟩ | ⟨b', rfl, hb⟩
    · obtain rfl := htokens.apart h
      exact .inl ⟨rfl, rfl, (List.append_cancel_left h).symm⟩
    · exact .inr ⟨b', rfl, by rw [hb, hrest, List.cons_append]⟩
  rcases List.append_eq_append_iff.mp h with ⟨c, rfl, hc⟩ | ⟨c, rfl, hc⟩
  · rcases hlater hc with ⟨rfl, hkey, hback⟩ | ⟨b', rfl, hb⟩
    · exact .inr (.inl ⟨hkey, by rw [List.append_nil], hback⟩)
    · exact .inr (.inr ⟨b', by rw [List.append_assoc], hb⟩)
  · rcases hlater hc with ⟨rfl, hkey, hback⟩ | ⟨a', rfl, -⟩
    · exact .inr (.inl ⟨hkey.symm, by rw [List.append_nil], hback.symm⟩)
    · exact .inl ⟨a', by rw [List.append_assoc]⟩

theorem token_ne_nil (htokens : Template.Tokens token opening) (k : κ) : token k ≠ [] := by
  obtain ⟨rest, hrest, -⟩ := htokens.head k
  rw [hrest]
  exact List.cons_ne_nil _ _

/-- No token stands in the text. -/
def Free (token : κ → List α) (s : List α) : Prop := ∀ k, ¬token k <:+: s

theorem free_iff (htokens : Template.Tokens token opening) {s : List α} :
    Free token s ↔ ∀ k i, ¬Occurs (token k) s i :=
  forall_congr' fun k => by rw [infix_iff_occurs (token_ne_nil htokens k), not_exists]

/-- A letter of no token keeps the texts around it apart. -/
theorem Free.append_cons {s t : List α} {c : α} (hs : Free token s) (ht : Free token t)
    (hc : ∀ k, c ∉ token k) (hne : ∀ k, token k ≠ []) : Free token (s ++ c :: t) := by
  rintro k ⟨x, y, h⟩
  rw [List.append_assoc] at h
  rcases List.append_eq_append_iff.mp h with ⟨d, rfl, hd⟩ | ⟨d, rfl, hd⟩
  · rcases List.append_eq_append_iff.mp hd with ⟨e, rfl, -⟩ | ⟨e, htoken, he⟩
    · exact hs k ⟨x, e, List.append_assoc ..⟩
    · cases e with
      | nil => exact hs k ⟨x, [], by rw [htoken, List.append_nil, List.append_nil]⟩
      | cons e es =>
        obtain ⟨rfl, -⟩ := List.cons.inj he
        refine hc k ?_
        rw [htoken]
        exact List.mem_append_right _ List.mem_cons_self
  · cases d with
    | nil =>
      obtain ⟨first, rest, htoken⟩ := List.exists_cons_of_ne_nil (hne k)
      rw [htoken] at hd
      obtain ⟨rfl, -⟩ := List.cons.inj hd
      exact hc k (htoken ▸ List.mem_cons_self)
    | cons d ds =>
      obtain ⟨-, rfl⟩ := List.cons.inj hd
      exact ht k ⟨ds, y, List.append_assoc ..⟩

/-- Nor does a text without the opening letter make a token with what follows it. -/
theorem Free.append_plain (htokens : Template.Tokens token opening) {s t : List α}
    (hs : opening ∉ s) (ht : Free token t) : Free token (s ++ t) := by
  rintro k ⟨x, y, h⟩
  obtain ⟨rest, hrest, -⟩ := htokens.head k
  rw [List.append_assoc] at h
  rcases List.append_eq_append_iff.mp h with ⟨d, rfl, hd⟩ | ⟨d, rfl, hd⟩
  · cases d with
    | nil => exact ht k ⟨[], y, hd⟩
    | cons d ds =>
      rw [hrest] at hd
      obtain ⟨rfl, -⟩ := List.cons.inj hd
      exact hs (List.mem_append_right _ List.mem_cons_self)
  · exact ht k ⟨d, y, by rw [hd, List.append_assoc]⟩

theorem free_of_not_mem (htokens : Template.Tokens token opening) {s : List α}
    (hs : opening ∉ s) : Free token s := by
  rintro k ⟨x, y, rfl⟩
  obtain ⟨rest, hrest, -⟩ := htokens.head k
  rw [hrest] at hs
  exact hs (List.mem_append_left _ (List.mem_append_right _ List.mem_cons_self))

end Markers

inductive Marker
  | start
  | stop
  deriving DecidableEq

namespace Markers

variable {α : Type*} {token : Marker → List α} {opening : α} {s before inner after x y : List α}

/-- One opening marker at `i` and, after it, one closing marker at `j`. -/
def Paired (token : Marker → List α) (s : List α) (i j : Nat) : Prop :=
  (∀ k, Occurs (token .start) s k ↔ k = i) ∧ (∀ k, Occurs (token .stop) s k ↔ k = j) ∧ i < j

/-- A region and the texts before and after it. -/
def region (token : Marker → List α) (before inner after : List α) : List α :=
  before ++ (token .start ++ (inner ++ (token .stop ++ after)))

/-- The markers of a region whose parts are free stand nowhere else. -/
theorem split_region (htokens : Template.Tokens token opening) (hbefore : Free token before)
    (hinner : Free token inner) (hafter : Free token after) {k : Marker}
    (h : region token before inner after = x ++ (token k ++ y)) :
    (k = .start ∧ x = before) ∨ (k = .stop ∧ x = before ++ (token .start ++ inner)) := by
  rcases split_cases htokens h with ⟨a', rfl⟩ | ⟨hkey, hx, -⟩ | ⟨b', rfl, hrest⟩
  · exact absurd ⟨x, a', rfl⟩ (hbefore k)
  · exact .inl ⟨hkey, hx⟩
  · rcases split_cases htokens hrest with ⟨a', rfl⟩ | ⟨hkey, rfl, -⟩ | ⟨c', rfl, rfl⟩
    · exact absurd ⟨b', a', rfl⟩ (hinner k)
    · exact .inr ⟨hkey, List.append_assoc ..⟩
    · exact absurd ⟨c', y, List.append_assoc ..⟩ (hafter k)

theorem paired_region (htokens : Template.Tokens token opening) (hbefore : Free token before)
    (hinner : Free token inner) (hafter : Free token after) :
    Paired token (region token before inner after) before.length
      (before ++ (token .start ++ inner)).length := by
  refine ⟨fun k => ?_, fun k => ?_, ?_⟩
  · rw [occurs_iff (token_ne_nil htokens .start)]
    constructor
    · rintro ⟨x, y, hsplit, rfl⟩
      rcases split_region htokens hbefore hinner hafter hsplit with ⟨-, rfl⟩ | ⟨hkey, -⟩
      · rfl
      · cases hkey
    · rintro rfl
      exact ⟨before, _, rfl, rfl⟩
  · rw [occurs_iff (token_ne_nil htokens .stop)]
    constructor
    · rintro ⟨x, y, hsplit, rfl⟩
      rcases split_region htokens hbefore hinner hafter hsplit with ⟨hkey, -⟩ | ⟨-, rfl⟩
      · cases hkey
      · rfl
    · rintro rfl
      exact ⟨_, after, by simp only [region, List.append_assoc], rfl⟩
  · have hpos := List.length_pos_of_ne_nil (token_ne_nil htokens .start)
    simp only [List.length_append]
    omega

/-- A paired text is a region with free parts. -/
theorem region_of_paired (htokens : Template.Tokens token opening) {i j : Nat}
    (h : Paired token s i j) :
    ∃ before inner after, s = region token before inner after ∧ Free token before ∧
      Free token inner ∧ Free token after ∧ before.length = i ∧
      (before ++ (token .start ++ inner)).length = j := by
  obtain ⟨hstart, hstop, hij⟩ := h
  have hne := token_ne_nil htokens
  obtain ⟨before, back, rfl, rfl⟩ := (occurs_iff (hne .start)).mp ((hstart i).mpr rfl)
  obtain ⟨x, after, hsplit, rfl⟩ := (occurs_iff (hne .stop)).mp ((hstop j).mpr rfl)
  rcases split_cases htokens hsplit with ⟨a', rfl⟩ | ⟨hkey, -⟩ | ⟨inner, rfl, rfl⟩
  · simp only [List.length_append] at hij
    omega
  · cases hkey
  · -- a token in one of the parts would stand at a third place
    have hplace : ∀ k x y, before ++ (token .start ++ (inner ++ (token .stop ++ after))) =
        x ++ (token k ++ y) → x.length = before.length ∨
          x.length = (before ++ token .start ++ inner).length := by
      intro k x y hk
      have hoccurs := (occurs_iff (hne k)).mpr ⟨x, y, hk, rfl⟩
      cases k with
      | start => exact .inl ((hstart _).mp hoccurs)
      | stop => exact .inr ((hstop _).mp hoccurs)
    have hlength := fun k => List.length_pos_of_ne_nil (hne k)
    refine ⟨before, inner, after, rfl, ?_, ?_, ?_, rfl, by simp only [List.append_assoc]⟩
    · rintro k ⟨x, y, rfl⟩
      have := hplace k x (y ++ (token .start ++ (inner ++ (token .stop ++ after))))
        (by simp only [List.append_assoc])
      have := hlength k
      simp only [List.length_append] at *
      omega
    · rintro k ⟨x, y, rfl⟩
      have := hplace k (before ++ (token .start ++ x)) (y ++ (token .stop ++ after))
        (by simp only [List.append_assoc])
      have := hlength k
      have := hlength .start
      simp only [List.length_append] at *
      omega
    · rintro k ⟨x, y, rfl⟩
      have := hplace k (before ++ (token .start ++ (inner ++ (token .stop ++ x)))) y
        (by simp only [List.append_assoc])
      have := hlength .stop
      have := hlength .start
      simp only [List.length_append] at *
      omega

end Markers

end FluxFast.Theory
