import FluxFast.Theory.PercentEncoding
import Mathlib.Data.List.Induction
import Mathlib.Data.List.Nodup
import Mathlib.Data.Nat.Find

/-!
# Templates — texts with holes, and holes filled one after another

A hole is spelled by a token.  Filling a hole replaces the first occurrence of its token, which is the
hole's own unless the text in front of the hole has come to contain the token as well.
-/

namespace FluxFast.Theory

inductive Piece (α κ : Type*)
  | literal (a : α)
  | hole (k : κ)
  deriving DecidableEq

namespace Template

variable {α κ : Type*} [DecidableEq κ]

/-- A hole has its value if it is done and its token otherwise. -/
def pieceText (token value : κ → List α) (done : List κ) : Piece α κ → List α
  | .literal a => [a]
  | .hole k => if k ∈ done then value k else token k

def render (token value : κ → List α) (done : List κ) (ps : List (Piece α κ)) : List α :=
  ps.flatMap (pieceText token value done)

/-- The first occurrence of a text replaced. -/
def replaceFirst [BEq α] (token value text : List α) : List α :=
  match text.dropInfix? token with
  | some (before, after) => before ++ value ++ after
  | none => text

/-- The holes filled in the order of `keys`. -/
def fill [BEq α] (token value : κ → List α) (keys : List κ) (text : List α) : List α :=
  keys.foldl (fun text k => replaceFirst (token k) (value k) text) text

/-- Tokens begin with a letter of their own, and none is the beginning of another. -/
structure Tokens (token : κ → List α) (opening : α) : Prop where
  head : ∀ k, ∃ rest, token k = opening :: rest ∧ opening ∉ rest
  apart : ∀ {k l x y}, token k ++ x = token l ++ y → k = l

/-- No hole is filled while its token stands in front of it. -/
def Clear (token value : κ → List α) (ps : List (Piece α κ)) (keys : List κ) : Prop :=
  ∀ done k rest, keys = done ++ k :: rest → ∀ front back, ps = front ++ .hole k :: back →
    ¬token k <:+: render token value done front

/-! ## First occurrences -/

section Replacing

variable [BEq α] [LawfulBEq α] {token value text : List α}

theorem dropInfix?_none (h : text.dropInfix? token = none) : ¬token <:+: text := by
  rintro ⟨x, y, hxy⟩
  classical
  -- of all occurrences the one with the shortest front would have been found
  have hsome : ∃ n x y, x.length = n ∧ x ++ token ++ y = text := ⟨_, x, y, rfl, hxy⟩
  obtain ⟨front, back, hlength, htext⟩ := Nat.find_spec hsome
  have hfound : text.dropInfix? token = some (front, back) := by
    refine List.dropInfix?_eq_some_iff.mpr ⟨⟨token, htext.symm, BEq.rfl⟩, fun u same v huv hsame => ?_⟩
    obtain rfl := LawfulBEq.eq_of_beq hsame
    rw [hlength]
    exact Nat.find_min' hsome ⟨u, v, rfl, huv.symm⟩
  rw [h] at hfound
  cases hfound

theorem replaceFirst_cases (token value text : List α) :
    (¬token <:+: text ∧ replaceFirst token value text = text) ∨
      ∃ before after, text = before ++ token ++ after ∧
        (∀ x y, text = x ++ token ++ y → before.length ≤ x.length) ∧
        replaceFirst token value text = before ++ value ++ after := by
  unfold replaceFirst
  cases h : text.dropInfix? token with
  | none =>
    exact .inl ⟨dropInfix?_none h, rfl⟩
  | some found =>
    obtain ⟨before, after⟩ := found
    obtain ⟨⟨same, htext, hsame⟩, hfirst⟩ := List.dropInfix?_eq_some_iff.mp h
    obtain rfl := LawfulBEq.eq_of_beq hsame
    exact .inr ⟨before, after, htext, fun x y hxy => hfirst x same y hxy BEq.rfl, rfl⟩

end Replacing

section Rendering

variable {token value : κ → List α} {done : List κ} {opening : α}

theorem render_append (ps qs : List (Piece α κ)) :
    render token value done (ps ++ qs) = render token value done ps ++ render token value done qs :=
  List.flatMap_append

theorem render_literals (text : List α) :
    render token value done (text.map .literal) = text := by
  induction text with
  | nil => rfl
  | cons a text ih => exact congrArg (a :: ·) ih

/-- One more hole done changes nothing where that hole does not occur. -/
theorem render_done {k : κ} {ps : List (Piece α κ)} (h : .hole k ∉ ps) :
    render token value (done ++ [k]) ps = render token value done ps := by
  refine List.flatMap_congr fun p hp => ?_
  cases p with
  | literal a => rfl
  | hole l =>
    have hne : l ≠ k := fun heq => h (heq ▸ hp)
    simp [pieceText, hne]

/-- Only the values of the holes that are done matter. -/
theorem render_congr {value' : κ → List α} (h : ∀ k ∈ done, value k = value' k)
    (ps : List (Piece α κ)) : render token value done ps = render token value' done ps := by
  refine List.flatMap_congr fun p _ => ?_
  cases p with
  | literal a => rfl
  | hole k =>
    by_cases hk : k ∈ done
    · simp only [pieceText, if_pos hk, h k hk]
    · simp only [pieceText, if_neg hk]

/-- The opening letter stands at the front of a text or behind it. -/
theorem opening_cases {text tail before after : List α} (htext : opening ∉ text.drop 1)
    (h : text ++ tail = before ++ opening :: after) :
    (before = [] ∧ text.head? = some opening) ∨
      ∃ before', before = text ++ before' ∧ tail = before' ++ opening :: after := by
  rcases List.append_eq_append_iff.mp h with ⟨gap, hbefore, htail⟩ | ⟨gap, hsplit, hgap⟩
  · exact .inr ⟨gap, hbefore, htail⟩
  · cases gap with
    | nil =>
      rw [List.append_nil] at hsplit
      exact .inr ⟨[], by rw [hsplit, List.append_nil], hgap.symm⟩
    | cons c gap =>
      obtain rfl := (List.cons.inj hgap).1
      cases before with
      | nil => exact .inl ⟨rfl, by rw [hsplit]; rfl⟩
      | cons b before =>
        rw [hsplit] at htext
        exact absurd (List.mem_append_right _ List.mem_cons_self) htext

theorem opening_in_piece (htokens : Tokens token opening) (hvalue : ∀ k ∈ done, opening ∉ value k)
    (p : Piece α κ) :
    opening ∉ (pieceText token value done p).drop 1 ∧
      ((pieceText token value done p).head? = some opening →
        p = .literal opening ∨ ∃ k, p = .hole k ∧ k ∉ done) := by
  cases p with
  | literal a =>
    refine ⟨List.not_mem_nil, fun h => .inl ?_⟩
    rw [Option.some.inj h]
  | hole k =>
    by_cases hk : k ∈ done
    · simp only [pieceText, if_pos hk]
      refine ⟨fun h => hvalue k hk (List.mem_of_mem_drop h), fun h => ?_⟩
      exact absurd (List.mem_of_mem_head? h) (hvalue k hk)
    · obtain ⟨rest, htoken, hrest⟩ := htokens.head k
      simp only [pieceText, if_neg hk]
      exact ⟨by rw [htoken]; exact hrest, fun _ => .inr ⟨k, rfl, hk⟩⟩

/-- The opening letter stands in a rendered text where a literal or an unfilled hole begins. -/
theorem opening_in_render (htokens : Tokens token opening) (hvalue : ∀ k ∈ done, opening ∉ value k)
    {ps : List (Piece α κ)} {before after tail : List α}
    (h : render token value done ps ++ tail = before ++ opening :: after)
    (hshort : before.length < (render token value done ps).length) :
    ∃ front p back, ps = front ++ p :: back ∧ before = render token value done front ∧
      (p = .literal opening ∨ ∃ k, p = .hole k ∧ k ∉ done) := by
  induction ps generalizing before with
  | nil => exact absurd hshort (Nat.not_lt_zero _)
  | cons p ps ih =>
    obtain ⟨hdrop, hhead⟩ := opening_in_piece htokens hvalue p
    rw [render, List.flatMap_cons, List.append_assoc] at h
    rw [render, List.flatMap_cons, List.length_append] at hshort
    rcases opening_cases hdrop h with ⟨rfl, hopening⟩ | ⟨before', rfl, htail⟩
    · exact ⟨[], p, ps, rfl, rfl, hhead hopening⟩
    · rw [List.length_append] at hshort
      obtain ⟨front, q, back, rfl, rfl, hq⟩ := ih htail (by
        unfold render
        omega)
      exact ⟨p :: front, q, back, rfl, rfl, hq⟩

end Rendering

/-! ## One step -/

section Step

variable {token value : κ → List α} {opening : α} {done : List κ} {ps : List (Piece α κ)} {k : κ}

/-- The token of a hole that is not done stands in the text. -/
theorem render_hole (hk : k ∉ done) (front back : List (Piece α κ)) :
    render token value done (front ++ .hole k :: back) =
      render token value done front ++ token k ++ render token value done back := by
  simp only [render, List.flatMap_append, List.flatMap_cons, pieceText, if_neg hk,
    List.append_assoc]

theorem render_hole_done (front back : List (Piece α κ)) :
    render token value (done ++ [k]) (front ++ .hole k :: back) =
      render token value (done ++ [k]) front ++ value k ++ render token value (done ++ [k]) back := by
  simp [render, pieceText]

omit [DecidableEq κ] in
theorem token_ne_nil (htokens : Tokens token opening) (k : κ) : token k ≠ [] := by
  obtain ⟨rest, htoken, -⟩ := htokens.head k
  rw [htoken]
  exact List.cons_ne_nil _ _

omit [DecidableEq κ] in
/-- Two occurrences of a token do not overlap. -/
theorem occurrence_in_front (htokens : Tokens token opening) {x y before after : List α}
    (h : x ++ token k ++ y = before ++ token k ++ after) (hle : before.length ≤ x.length) :
    before = x ∨ token k <:+: x := by
  obtain ⟨rest, htoken, hrest⟩ := htokens.head k
  rw [List.append_assoc, List.append_assoc] at h
  rcases List.append_eq_append_iff.mp h with ⟨gap, rfl, -⟩ | ⟨gap, rfl, hgap⟩
  · rw [List.length_append] at hle
    have hnil : gap = [] := List.eq_nil_of_length_eq_zero (by omega)
    exact .inl (by rw [hnil, List.append_nil])
  · rcases List.append_eq_append_iff.mp hgap with ⟨gap', rfl, -⟩ | ⟨gap', htoken', hrest'⟩
    · exact .inr ⟨before, gap', by rw [List.append_assoc]⟩
    · rw [htoken] at htoken' hrest'
      cases gap' with
      | nil => exact .inr ⟨before, [], by rw [htoken, htoken', List.append_nil, List.append_nil]⟩
      | cons c gap' =>
        obtain rfl := (List.cons.inj hrest').1
        cases gap with
        | nil => exact .inl (List.append_nil _).symm
        | cons g gap =>
          rw [(List.cons.inj htoken').2] at hrest
          exact absurd (List.mem_append_right _ List.mem_cons_self) hrest

/-- A hole that is not done does not stand in front of the first occurrence of its token. -/
theorem hole_not_mem (htokens : Tokens token opening) (hk : k ∉ done) {tail before : List α}
    (hfirst : ∀ x y, render token value done ps ++ tail = x ++ token k ++ y →
      before.length ≤ x.length)
    (hle : (render token value done ps).length ≤ before.length) : .hole k ∉ ps := by
  intro hmem
  obtain ⟨front, back, rfl⟩ := List.append_of_mem hmem
  have htext : render token value done (front ++ .hole k :: back) =
      render token value done front ++ token k ++ render token value done back :=
    render_hole hk front back
  have hshort := hfirst (render token value done front) (render token value done back ++ tail) (by
    rw [htext, List.append_assoc])
  rw [htext] at hle
  have hpos := List.length_pos_iff.mpr (token_ne_nil htokens k)
  simp only [List.length_append] at hle
  omega

/-- The first occurrence of a token is where its hole is or where a literal opens one. -/
theorem first_occurrence (htokens : Tokens token opening) (hvalue : ∀ l ∈ done, opening ∉ value l)
    (hk : k ∉ done) {tail before after : List α}
    (htext : render token value done ps ++ tail = before ++ token k ++ after)
    (hfirst : ∀ x y, render token value done ps ++ tail = x ++ token k ++ y →
      before.length ≤ x.length)
    (hlt : before.length < (render token value done ps).length) :
    ∃ front back, before = render token value done front ∧ .hole k ∉ front ∧
      (ps = front ++ .literal opening :: back ∨
        ps = front ++ .hole k :: back ∧ after = render token value done back ++ tail) := by
  obtain ⟨rest, htoken, -⟩ := htokens.head k
  have hopening : render token value done ps ++ tail = before ++ opening :: (rest ++ after) := by
    rw [htext, htoken, List.append_assoc]
    rfl
  obtain ⟨front, p, back, rfl, rfl, hp⟩ := opening_in_render htokens hvalue hopening hlt
  have hfront : .hole k ∉ front := by
    have hwhole : render token value done (front ++ p :: back) ++ tail =
        render token value done front ++ (render token value done (p :: back) ++ tail) := by
      rw [render_append, List.append_assoc]
    rw [hwhole] at hfirst
    exact hole_not_mem htokens hk hfirst le_rfl
  refine ⟨front, back, rfl, hfront, ?_⟩
  rcases hp with rfl | ⟨l, rfl, hl⟩
  · exact .inl rfl
  · rw [render_hole hl, List.append_assoc, List.append_assoc, List.append_assoc] at htext
    have hrest := List.append_cancel_left htext
    obtain rfl := htokens.apart hrest
    exact .inr ⟨rfl, (List.append_cancel_left hrest).symm⟩

/-! ## Texts that went wrong -/

/-- The front is as it should be, and behind it a literal was overwritten. -/
def Diverged (token value : κ → List α) (opening : α) (ps : List (Piece α κ)) (done : List κ)
    (text : List α) : Prop :=
  ∃ front back c rest, ps = front ++ .literal opening :: back ∧ c ≠ opening ∧
    text = render token value done front ++ c :: rest

/-- Such a text is never right again. -/
theorem Diverged.ne_render {text : List α} (h : Diverged token value opening ps done text) :
    text ≠ render token value done ps := by
  obtain ⟨front, back, c, rest, rfl, hc, rfl⟩ := h
  intro heq
  rw [render_append] at heq
  exact hc (List.cons.inj (List.append_cancel_left heq)).1

theorem diverged_of_literal {front back : List (Piece α κ)} {after : List α}
    (hps : ps = front ++ .literal opening :: back) (hfront : .hole k ∉ front)
    (hvalue : opening ∉ value k) (hne : value k ≠ []) :
    Diverged token value opening ps (done ++ [k])
      (render token value done front ++ value k ++ after) := by
  cases hcons : value k with
  | nil => exact absurd hcons hne
  | cons c rest =>
    refine ⟨front, back, c, rest ++ after, hps, fun heq => ?_, ?_⟩
    · rw [hcons, heq] at hvalue
      exact hvalue List.mem_cons_self
    · rw [render_done hfront, List.append_assoc]
      rfl

/-! ## Filling a hole -/

variable [BEq α] [LawfulBEq α]

/-- A hole whose token does not stand in front of it is filled at its place. -/
theorem replaceFirst_hole (htokens : Tokens token opening)
    (hk : k ∉ done) {front back : List (Piece α κ)} (hfront : .hole k ∉ front)
    (hback : .hole k ∉ back) (hclear : ¬token k <:+: render token value done front) :
    replaceFirst (token k) (value k) (render token value done (front ++ .hole k :: back)) =
      render token value (done ++ [k]) (front ++ .hole k :: back) := by
  rw [render_hole hk, render_hole_done, render_done hfront, render_done hback]
  rcases replaceFirst_cases (token k) (value k)
    (render token value done front ++ token k ++ render token value done back) with
    ⟨hnone, -⟩ | ⟨before, after, htext, hfirst, hreplaced⟩
  · exact absurd ⟨_, _, rfl⟩ hnone
  · rcases occurrence_in_front htokens htext (hfirst _ _ rfl) with rfl | hoccurs
    · obtain rfl := List.append_cancel_left htext
      exact hreplaced
    · exact absurd hoccurs hclear

/-- Filling another hole leaves it wrong. -/
theorem Diverged.step (htokens : Tokens token opening) (hvalue : ∀ l ∈ done ++ [k], opening ∉ value l)
    (hne : value k ≠ []) (hk : k ∉ done)
    (honce : ∀ front back, ps = front ++ .hole k :: back → .hole k ∉ back) {text : List α}
    (h : Diverged token value opening ps done text) :
    Diverged token value opening ps (done ++ [k]) (replaceFirst (token k) (value k) text) := by
  obtain ⟨front, back, c, rest, rfl, hc, rfl⟩ := h
  have hdone : ∀ l ∈ done, opening ∉ value l := fun l hl => hvalue l (List.mem_append_left _ hl)
  have hlast : opening ∉ value k := hvalue k (by simp)
  rcases replaceFirst_cases (token k) (value k) (render token value done front ++ c :: rest) with
    ⟨hnone, hreplaced⟩ | ⟨before, after, htext, hfirst, hreplaced⟩
  -- the token is gone from the text, so nothing is replaced
  · rw [hreplaced]
    have hfront : .hole k ∉ front := fun hmem => by
      obtain ⟨x, y, rfl⟩ := List.append_of_mem hmem
      rw [render_hole hk] at hnone
      exact hnone ⟨render token value done x, render token value done y ++ c :: rest, by simp⟩
    exact ⟨front, back, c, rest, rfl, hc, by rw [render_done hfront]⟩
  · rw [hreplaced]
    -- the token found lies in the front or behind it
    by_cases hlt : before.length < (render token value done front).length
    · obtain ⟨x, y, rfl, hx, hpiece⟩ := first_occurrence htokens hdone hk htext hfirst hlt
      rcases hpiece with rfl | ⟨rfl, rfl⟩
      · have hps : x ++ .literal opening :: y ++ .literal opening :: back =
            x ++ .literal opening :: (y ++ .literal opening :: back) := by
          rw [List.append_assoc]
          rfl
        -- an opening that stands as text is replaced by a value without an opening
        exact diverged_of_literal hps hx hlast hne
      · have hy : .hole k ∉ y := fun hmem =>
          honce x (y ++ .literal opening :: back) (by simp) (List.mem_append_left _ hmem)
        refine ⟨_, back, c, rest, rfl, hc, ?_⟩
        rw [render_hole_done, render_done hx, render_done hy]
        simp
    -- behind the front a token can start at `c` only if `c` is the opening, which it is not
    · have hle := Nat.le_of_not_lt hlt
      have hfront : .hole k ∉ front := hole_not_mem htokens hk hfirst hle
      obtain ⟨gap, rfl, hgap⟩ : ∃ gap, before = render token value done front ++ gap ∧
          c :: rest = gap ++ (token k ++ after) := by
        rw [List.append_assoc] at htext
        rcases List.append_eq_append_iff.mp htext with ⟨gap, hbefore, hgap⟩ | ⟨gap, hsplit, hgap⟩
        · exact ⟨gap, hbefore, hgap⟩
        · have hlength := congrArg List.length hsplit
          rw [List.length_append] at hlength
          obtain rfl : gap = [] := List.eq_nil_of_length_eq_zero (by omega)
          rw [List.append_nil] at hsplit
          exact ⟨[], by rw [hsplit, List.append_nil], hgap.symm⟩
      cases gap with
      | nil =>
        obtain ⟨letters, htoken, -⟩ := htokens.head k
        rw [htoken] at hgap
        exact absurd (List.cons.inj hgap).1 hc
      | cons g gap =>
        obtain ⟨rfl, -⟩ := List.cons.inj hgap
        refine ⟨front, back, c, gap ++ value k ++ after, rfl, hc, ?_⟩
        rw [render_done hfront]
        simp

/-- A hole is filled at the wrong place where its token stands in front of it. -/
theorem diverged_of_occurrence (htokens : Tokens token opening)
    (hvalue : ∀ l ∈ done ++ [k], opening ∉ value l) (hne : value k ≠ []) (hk : k ∉ done)
    {front back : List (Piece α κ)} (hps : ps = front ++ .hole k :: back) (hfront : .hole k ∉ front)
    (hoccurs : token k <:+: render token value done front) :
    Diverged token value opening ps (done ++ [k])
      (replaceFirst (token k) (value k) (render token value done ps)) := by
  obtain ⟨u, v, huv⟩ := hoccurs
  obtain ⟨tail, htail⟩ : ∃ tail, render token value done ps = render token value done front ++ tail :=
    ⟨render token value done (.hole k :: back), by rw [hps, render_append]⟩
  rw [htail]
  have hpos := List.length_pos_iff.mpr (token_ne_nil htokens k)
  rcases replaceFirst_cases (token k) (value k) (render token value done front ++ tail) with
    ⟨hnone, -⟩ | ⟨before, after, htext, hfirst, hreplaced⟩
  · exact absurd ⟨u, v ++ tail, by rw [← huv]; simp⟩ hnone
  · have hle := hfirst u (v ++ tail) (by rw [← huv]; simp)
    have hlt : before.length < (render token value done front).length := by
      rw [← huv]
      simp only [List.length_append]
      omega
    have hdone : ∀ l ∈ done, opening ∉ value l := fun l hl => hvalue l (List.mem_append_left _ hl)
    obtain ⟨x, y, rfl, hx, hpiece⟩ := first_occurrence htokens hdone hk htext hfirst hlt
    rw [hreplaced]
    rcases hpiece with rfl | ⟨rfl, -⟩
    · rw [List.append_assoc] at hps
      exact diverged_of_literal hps hx (hvalue k (by simp)) hne
    · exact absurd (by simp) hfront

end Step

/-! ## Filling all holes -/

section Fill

variable {token value : κ → List α} {opening : α} {keys : List κ} {ps : List (Piece α κ)}

/-- A hole that occurs once. -/
def Once (ps : List (Piece α κ)) (k : κ) : Prop :=
  ∃ front back, ps = front ++ .hole k :: back ∧ .hole k ∉ front ∧ .hole k ∉ back

omit [DecidableEq κ] in
theorem Once.unique {k : κ} (h : Once ps k) {front back : List (Piece α κ)}
    (hps : ps = front ++ .hole k :: back) : .hole k ∉ front ∧ .hole k ∉ back := by
  obtain ⟨x, y, rfl, hx, hy⟩ := h
  rcases List.append_eq_append_iff.mp hps with ⟨gap, rfl, hgap⟩ | ⟨gap, rfl, hgap⟩
  · cases gap with
    | nil =>
      obtain rfl := (List.cons.inj hgap).2
      exact ⟨by simpa using hx, hy⟩
    | cons p gap =>
      rw [(List.cons.inj hgap).2] at hy
      exact absurd (by simp) hy
  · cases gap with
    | nil =>
      obtain rfl := (List.cons.inj hgap).2
      exact ⟨by simpa using hx, hy⟩
    | cons p gap =>
      obtain rfl := (List.cons.inj hgap).1
      exact absurd (by simp) hx

omit [DecidableEq κ] in
theorem not_mem_of_nodup (hnodup : keys.Nodup) {done rest : List κ} {k : κ}
    (hkeys : keys = done ++ k :: rest) : k ∉ done := by
  rw [hkeys] at hnodup
  exact fun hmem => (List.nodup_append.mp hnodup).2.2 k hmem k List.mem_cons_self rfl

/-- The first step at which the text is not clear. -/
theorem first_unclear (h : ¬Clear token value ps keys) :
    ∃ done k rest front back, keys = done ++ k :: rest ∧ ps = front ++ .hole k :: back ∧
      token k <:+: render token value done front ∧
      ∀ before l after, done = before ++ l :: after → ∀ front back,
        ps = front ++ .hole l :: back → ¬token l <:+: render token value before front := by
  classical
  have hex : ∃ n done k rest front back, done.length = n ∧ keys = done ++ k :: rest ∧
      ps = front ++ .hole k :: back ∧ token k <:+: render token value done front := by
    unfold Clear at h
    push Not at h
    obtain ⟨done, k, rest, hkeys, front, back, hps, hoccurs⟩ := h
    exact ⟨_, done, k, rest, front, back, rfl, hkeys, hps, hoccurs⟩
  obtain ⟨done, k, rest, front, back, hlength, hkeys, hps, hoccurs⟩ := Nat.find_spec hex
  refine ⟨done, k, rest, front, back, hkeys, hps, hoccurs, ?_⟩
  intro before l after hdone front' back' hps' hoccurs'
  have hmin := Nat.find_min' hex ⟨before, l, after ++ k :: rest, front', back', rfl, by
    rw [hkeys, hdone, List.append_assoc]
    rfl, hps', hoccurs'⟩
  rw [← hlength, hdone, List.length_append, List.length_cons] at hmin
  omega

variable [BEq α] [LawfulBEq α]

omit [LawfulBEq α] [DecidableEq κ] in
theorem fill_congr {value' : κ → List α} (h : ∀ k ∈ keys, value k = value' k) (text : List α) :
    fill token value keys text = fill token value' keys text := by
  induction keys generalizing text with
  | nil => rfl
  | cons k keys ih =>
    show fill token value keys (replaceFirst (token k) (value k) text) =
      fill token value' keys (replaceFirst (token k) (value' k) text)
    rw [h k List.mem_cons_self, ih fun l hl => h l (List.mem_cons_of_mem _ hl)]

/-- The holes that are filled in front are right as long as the text is clear. -/
theorem fill_front (htokens : Tokens token opening) (hnodup : keys.Nodup)
    (honce : ∀ k ∈ keys, Once ps k) {done rest : List κ} (hkeys : keys = done ++ rest)
    (hclear : ∀ before k after, done = before ++ k :: after → ∀ front back,
      ps = front ++ .hole k :: back → ¬token k <:+: render token value before front) :
    fill token value done (render token value [] ps) = render token value done ps := by
  induction done using List.reverseRecOn generalizing rest with
  | nil => rfl
  | append_singleton done k ih =>
    have hsplit : keys = done ++ k :: rest := by
      rw [hkeys, List.append_assoc]
      rfl
    have hfront := ih hsplit fun before l after hdone => hclear before l (after ++ [k]) (by rw [hdone]; simp)
    have hfill : fill token value (done ++ [k]) (render token value [] ps) =
        replaceFirst (token k) (value k) (fill token value done (render token value [] ps)) := by
      rw [fill, List.foldl_append]
      rfl
    have hk : k ∉ done := not_mem_of_nodup hnodup hsplit
    obtain ⟨front, back, hps, hx, hy⟩ := honce k (by rw [hkeys]; simp)
    rw [hfill, hfront, hps]
    exact replaceFirst_hole htokens hk hx hy (hclear done k [] rfl front back hps)

theorem fill_eq_render (htokens : Tokens token opening) (hnodup : keys.Nodup)
    (honce : ∀ k ∈ keys, Once ps k) (hclear : Clear token value ps keys) :
    fill token value keys (render token value [] ps) = render token value keys ps :=
  fill_front htokens hnodup honce (List.append_nil keys).symm hclear

/-- Once wrong, wrong to the end. -/
theorem Diverged.fill (htokens : Tokens token opening) (hnodup : keys.Nodup)
    (honce : ∀ k ∈ keys, Once ps k) (hvalue : ∀ k ∈ keys, opening ∉ value k) {done rest : List κ}
    (hkeys : keys = done ++ rest) (hne : ∀ k ∈ rest, value k ≠ []) {text : List α}
    (h : Diverged token value opening ps done text) :
    Diverged token value opening ps keys (fill token value rest text) := by
  induction rest generalizing done text with
  | nil =>
    rw [hkeys, List.append_nil]
    exact h
  | cons k rest ih =>
    have hsplit : keys = (done ++ [k]) ++ rest := by
      rw [hkeys, List.append_assoc]
      rfl
    have hk : k ∉ done := not_mem_of_nodup hnodup hkeys
    refine ih hsplit (fun l hl => hne l (List.mem_cons_of_mem _ hl)) ?_
    refine h.step htokens (fun l hl => hvalue l ?_) (hne k List.mem_cons_self) hk ?_
    · rw [hsplit]
      exact List.mem_append_left _ hl
    · exact fun front back hps => ((honce k (by rw [hkeys]; simp)).unique hps).2

/-- The holes of a template are filled at once by all values if and only if no value can put a token
in front of its hole. -/
theorem fill_eq_render_iff (htokens : Tokens token opening) (hnodup : keys.Nodup)
    (honce : ∀ k ∈ keys, Once ps k) (allowed : List α → Prop)
    (hallowed : ∀ text, allowed text → opening ∉ text) (hsome : ∃ text, allowed text ∧ text ≠ []) :
    (∀ value : κ → List α, (∀ k, allowed (value k)) →
      fill token value keys (render token value [] ps) = render token value keys ps) ↔
    ∀ value : κ → List α, (∀ k, allowed (value k)) → Clear token value ps keys := by
  constructor
  · intro h value hvalue
    by_contra hunclear
    obtain ⟨done, k, rest, front, back, hkeys, hps, hoccurs, hfirst⟩ := first_unclear hunclear
    obtain ⟨text, htext, hne⟩ := hsome
    -- from the step that goes wrong on no value is empty
    let value' := fun l => if l ∈ done then value l else text
    have hallowed' : ∀ l, allowed (value' l) := fun l => by
      by_cases hl : l ∈ done
      · simpa only [value', if_pos hl] using hvalue l
      · simpa only [value', if_neg hl] using htext
    have hopening : ∀ l, opening ∉ value' l := fun l => hallowed _ (hallowed' l)
    have hsame : ∀ l ∈ done, value l = value' l := fun l hl => by simp only [value', if_pos hl]
    have hrest : ∀ l, l ∉ done → value' l ≠ [] := fun l hl => by
      simpa only [value', if_neg hl] using hne
    have hk : k ∉ done := not_mem_of_nodup hnodup hkeys
    have hdone : fill token value' done (render token value' [] ps) = render token value' done ps := by
      refine fill_front htokens hnodup honce hkeys fun before l after hsplit front back hps => ?_
      rw [← render_congr fun m hm => hsame m (by rw [hsplit]; exact List.mem_append_left _ hm)]
      exact hfirst before l after hsplit front back hps
    have hwrong : Diverged token value' opening ps (done ++ [k])
        (replaceFirst (token k) (value' k) (render token value' done ps)) := by
      refine diverged_of_occurrence htokens (fun l _ => hopening l) (hrest k hk) hk hps ?_ ?_
      · exact ((honce k (by rw [hkeys]; simp)).unique hps).1
      · rw [← render_congr hsame]
        exact hoccurs
    have hsplit : keys = (done ++ [k]) ++ rest := by
      rw [hkeys, List.append_assoc]
      rfl
    have hend := hwrong.fill htokens hnodup honce (fun l _ => hopening l) hsplit (fun l hl => hrest l fun hmem => by
        rw [hkeys] at hnodup
        exact (List.nodup_append.mp hnodup).2.2 l hmem l (List.mem_cons_of_mem _ hl) rfl)
    refine hend.ne_render ?_
    rw [← hdone, ← h value' hallowed', hkeys, fill, fill, fill, List.foldl_append]
    rfl
  · intro h value hvalue
    exact fill_eq_render htokens hnodup honce (h value hvalue)

end Fill

/-! ## Holes that are whole segments -/

section Segments

variable {token value : κ → List α} {opening sep : α} {keys : List κ} {ps : List (Piece α κ)}

/-- Every hole stands alone between separators. -/
structure Segments (token : κ → List α) (sep : α) (ps : List (Piece α κ)) : Prop where
  token : ∀ k, .hole k ∈ ps → sep ∉ token k
  before : ∀ front k back, ps = front ++ .hole k :: back →
    front = [] ∨ ∃ front', front = front' ++ [.literal sep]
  after : ∀ front k back, ps = front ++ .hole k :: back →
    back = [] ∨ ∃ back', back = .literal sep :: back'

/-- Behind a letter that is no separator, a text without separators is literal. -/
theorem literals_of_render (hsegments : Segments token sep ps) {done : List κ}
    {front back : List (Piece α κ)} {a : α} (ha : a ≠ sep)
    (hps : ∃ more, ps = front ++ .literal a :: (back ++ more)) {text after : List α}
    (htext : sep ∉ text) (h : render token value done back = text ++ after) :
    ∃ back', back = text.map .literal ++ back' := by
  -- induction on the text: a hole in front of it would follow a character other than `sep`
  induction text generalizing front back a with
  | nil => exact ⟨back, rfl⟩
  | cons c text ih =>
    obtain ⟨more, hps⟩ := hps
    cases back with
    | nil => cases h
    | cons p back =>
      cases p with
      | hole k =>
        have hsplit : ps = (front ++ [.literal a]) ++ .hole k :: (back ++ more) := by
          rw [hps, List.append_assoc]
          rfl
        rcases hsegments.before _ _ _ hsplit with hnil | ⟨front', hlast⟩
        · exact absurd hnil (by simp)
        · have hpieces := (List.append_inj' hlast rfl).2
          exact absurd (Piece.literal.inj (List.cons.inj hpieces).1) ha
      -- a literal is the text's own character, and the next one follows it
      | literal b =>
        obtain ⟨rfl, hrest⟩ := List.cons.inj h
        have hsplit : ∃ more, ps = (front ++ [.literal a]) ++ .literal b :: (back ++ more) :=
          ⟨more, by rw [hps, List.append_assoc]; rfl⟩
        obtain ⟨back', rfl⟩ := ih (fun heq => htext (heq ▸ List.mem_cons_self)) hsplit
          (fun hmem => htext (List.mem_cons_of_mem _ hmem)) hrest
        exact ⟨back', rfl⟩

/-- No value can put a token in front of its hole where the literals spell none. -/
theorem clear_of_segments (htokens : Tokens token opening) (hsegments : Segments token sep ps)
    (hliteral : ∀ k front back, ps ≠ front ++ (token k).map .literal ++ back)
    (honce : ∀ k ∈ keys, Once ps k) (hvalue : ∀ k, opening ∉ value k) :
    Clear token value ps keys := by
  rintro done k rest hkeys front back hps ⟨u, v, huv⟩
  obtain ⟨letters, htoken, -⟩ := htokens.head k
  have hsep : sep ∉ token k := hsegments.token k (by rw [hps]; simp)
  have hopening : render token value done front ++ [] = u ++ opening :: (letters ++ v) := by
    rw [← huv, htoken]
    simp
  have hlt : u.length < (render token value done front).length := by
    rw [← huv, htoken]
    simp
  -- an opening in the rendered text stands in a literal or in a hole not yet filled
  obtain ⟨x, p, y, rfl, rfl, hp⟩ := opening_in_render htokens (fun l _ => hvalue l) hopening hlt
  have hrest : render token value done (p :: y) = token k ++ v := by
    rw [render_append, List.append_assoc] at huv
    exact (List.append_cancel_left huv).symm
  rcases hp with rfl | ⟨l, rfl, hl⟩
  · rw [htoken] at hrest hsep
    obtain ⟨y', rfl⟩ := literals_of_render hsegments (fun heq => hsep (heq ▸ List.mem_cons_self))
      ⟨.hole k :: back, by rw [hps, List.append_assoc]; rfl⟩
      (fun hmem => hsep (List.mem_cons_of_mem _ hmem)) (List.cons.inj hrest).2
    refine hliteral k x (y' ++ .hole k :: back) ?_
    rw [hps, htoken]
    simp
  -- tokens tell their keys apart, so it is the hole of `k` itself, and that one is further back
  · have hhole : token l ++ render token value done y = token k ++ v := by
      rw [← hrest, render, render, List.flatMap_cons, pieceText, if_neg hl]
    obtain rfl := htokens.apart hhole
    exact ((honce l (by rw [hkeys]; simp)).unique hps).1 (by simp)

/-- Different values give different texts. -/
theorem render_injective (hsegments : Segments token sep ps) {value' : κ → List α}
    (hvalue : ∀ k, sep ∉ value k) (hvalue' : ∀ k, sep ∉ value' k) (hkeys : ∀ k, .hole k ∈ ps → k ∈ keys)
    (h : render token value keys ps = render token value' keys ps) :
    ∀ k, .hole k ∈ ps → value k = value' k := by
  -- the only property of segments that passes on to the rest of the pieces
  have hafter := hsegments.after
  clear hsegments
  induction ps with
  | nil => exact fun k hk => absurd hk List.not_mem_nil
  | cons p ps ih =>
    have hrest := fun htail => ih (fun k hk => hkeys k (List.mem_cons_of_mem _ hk)) htail
      fun front k back hps => hafter (p :: front) k back (by rw [hps]; rfl)
    cases p with
    | literal a =>
      intro k hk
      rcases List.mem_cons.mp hk with hk | hk
      · cases hk
      · exact hrest (List.cons.inj h).2 k hk
    | hole l =>
      have hl := hkeys l List.mem_cons_self
      simp only [render, List.flatMap_cons, pieceText, if_pos hl] at h
      obtain ⟨hfirst, htail⟩ : value l = value' l ∧
          render token value keys ps = render token value' keys ps := by
        -- after a hole the pieces end or a separator follows, which no value has in it
        rcases hafter [] l ps rfl with rfl | ⟨back, rfl⟩
        · exact ⟨by simpa using h, rfl⟩
        · obtain ⟨hfirst, htail⟩ := PercentEncoding.append_separator_inj (hvalue l) (hvalue' l) h
          exact ⟨hfirst, congrArg (sep :: ·) htail⟩
      intro k hk
      rcases List.mem_cons.mp hk with hk | hk
      · cases hk
        exact hfirst
      · exact hrest htail k hk

end Segments

end Template

end FluxFast.Theory
