import Mathlib

/-!
# Json — JSON values and their tokens

A JSON value over the strings and the numbers of a language is written as one sequence of tokens.
The parser reads tokens one after the other and keeps the containers that are still open on a
stack.  `parse_eq_some_iff` says that it accepts exactly the tokens of a value, and returns it.
-/

namespace FluxFast.Theory

inductive Json (σ ν : Type) where
  | null
  | bool (value : Bool)
  | number (value : ν)
  | string (value : σ)
  | array (items : List (Json σ ν))
  | object (members : List (σ × Json σ ν))

inductive Token (σ ν : Type) where
  | null
  | bool (value : Bool)
  | number (value : ν)
  | string (value : σ)
  | openArray
  | closeArray
  | openObject
  | closeObject
  | comma
  | colon
  deriving DecidableEq

namespace Json

variable {σ ν : Type}

/-! ## The tokens of a value -/

mutual

def tokens : Json σ ν → List (Token σ ν)
  | .null => [.null]
  | .bool b => [.bool b]
  | .number n => [.number n]
  | .string s => [.string s]
  | .array items => .openArray :: itemTokens items
  | .object members => .openObject :: memberTokens members

def itemTokens : List (Json σ ν) → List (Token σ ν)
  | [] => [.closeArray]
  | item :: items => item.tokens ++ moreItemTokens items

def moreItemTokens : List (Json σ ν) → List (Token σ ν)
  | [] => [.closeArray]
  | item :: items => .comma :: (item.tokens ++ moreItemTokens items)

def memberTokens : List (σ × Json σ ν) → List (Token σ ν)
  | [] => [.closeObject]
  | (key, value) :: members => .string key :: .colon :: (value.tokens ++ moreMemberTokens members)

def moreMemberTokens : List (σ × Json σ ν) → List (Token σ ν)
  | [] => [.closeObject]
  | (key, value) :: members =>
    .comma :: .string key :: .colon :: (value.tokens ++ moreMemberTokens members)

end

/-! ## The parser -/

/-- A container that is still open, with what was read of it. -/
inductive Frame (σ ν : Type) where
  | array (before : List (Json σ ν))
  | object (before : List (σ × Json σ ν)) (key : σ)

/-- What may come next. -/
inductive Parser (σ ν : Type) where
  | value (stack : List (Frame σ ν))
  | firstItem (stack : List (Frame σ ν))
  | nextItem (stack : List (Frame σ ν)) (items : List (Json σ ν))
  | firstMember (stack : List (Frame σ ν))
  | key (stack : List (Frame σ ν)) (members : List (σ × Json σ ν))
  | colon (stack : List (Frame σ ν)) (members : List (σ × Json σ ν)) (key : σ)
  | nextMember (stack : List (Frame σ ν)) (members : List (σ × Json σ ν))
  | done (value : Json σ ν)

namespace Parser

/-- The value is complete and goes into the innermost open container. -/
def deliver (j : Json σ ν) : List (Frame σ ν) → Parser σ ν
  | [] => .done j
  | .array before :: stack => .nextItem stack (before ++ [j])
  | .object before name :: stack => .nextMember stack (before ++ [(name, j)])

def startValue (stack : List (Frame σ ν)) : Token σ ν → Option (Parser σ ν)
  | .null => some (deliver .null stack)
  | .bool b => some (deliver (.bool b) stack)
  | .number n => some (deliver (.number n) stack)
  | .string s => some (deliver (.string s) stack)
  | .openArray => some (.firstItem stack)
  | .openObject => some (.firstMember stack)
  | _ => none

def step : Parser σ ν → Token σ ν → Option (Parser σ ν)
  | .value stack, t => startValue stack t
  | .firstItem stack, .closeArray => some (deliver (.array []) stack)
  | .firstItem stack, t => startValue (.array [] :: stack) t
  | .nextItem stack items, .comma => some (.value (.array items :: stack))
  | .nextItem stack items, .closeArray => some (deliver (.array items) stack)
  | .firstMember stack, .closeObject => some (deliver (.object []) stack)
  | .firstMember stack, .string name => some (.colon stack [] name)
  | .key stack members, .string name => some (.colon stack members name)
  | .colon stack members name, .colon => some (.value (.object members name :: stack))
  | .nextMember stack members, .comma => some (.key stack members)
  | .nextMember stack members, .closeObject => some (deliver (.object members) stack)
  | _, _ => none

def run (p : Parser σ ν) : List (Token σ ν) → Option (Parser σ ν)
  | [] => some p
  | t :: ts => (p.step t).bind fun p' => p'.run ts

def result : Parser σ ν → Option (Json σ ν)
  | .done j => some j
  | _ => none

end Parser

def parse (ts : List (Token σ ν)) : Option (Json σ ν) :=
  ((Parser.value []).run ts).bind Parser.result

/-! ## What a value is written as is read back -/

namespace Parser

/-- Where a value may start. -/
def Expects : Parser σ ν → List (Frame σ ν) → Prop
  | .value stack, stack' => stack' = stack
  | .firstItem stack, stack' => stack' = .array [] :: stack
  | _, _ => False

theorem step_of_expects {p : Parser σ ν} {stack : List (Frame σ ν)} (h : p.Expects stack)
    {t : Token σ ν} (ht : t ≠ .closeArray) : p.step t = startValue stack t := by
  cases p with
  | value s => rw [h]; rfl
  | firstItem s =>
    rw [h]
    cases t with
    | closeArray => exact absurd rfl ht
    | _ => rfl
  | _ => exact h.elim

mutual

theorem run_tokens (j : Json σ ν) {p : Parser σ ν} {stack : List (Frame σ ν)}
    (h : p.Expects stack) (ts : List (Token σ ν)) :
    p.run (j.tokens ++ ts) = (deliver j stack).run ts := by
  cases j with
  | null | bool | number | string =>
    rw [tokens, List.singleton_append, run, step_of_expects h (by simp)]
    rfl
  | array items =>
    rw [tokens, List.cons_append, run, step_of_expects h (by simp)]
    exact run_itemTokens items stack ts
  | object members =>
    rw [tokens, List.cons_append, run, step_of_expects h (by simp)]
    exact run_memberTokens members stack ts

theorem run_itemTokens (items : List (Json σ ν)) (stack : List (Frame σ ν))
    (ts : List (Token σ ν)) :
    (firstItem stack).run (itemTokens items ++ ts) = (deliver (.array items) stack).run ts := by
  cases items with
  | nil => rfl
  | cons item items =>
    rw [itemTokens, List.append_assoc, run_tokens item (p := firstItem stack) rfl]
    exact run_moreItemTokens items stack [item] ts

theorem run_moreItemTokens (items : List (Json σ ν)) (stack : List (Frame σ ν))
    (before : List (Json σ ν)) (ts : List (Token σ ν)) :
    (nextItem stack before).run (moreItemTokens items ++ ts) =
      (deliver (.array (before ++ items)) stack).run ts := by
  cases items with
  | nil => rw [List.append_nil]; rfl
  | cons item items =>
    rw [moreItemTokens, List.cons_append, List.append_assoc]
    show (value (.array before :: stack)).run _ = _
    rw [run_tokens item (p := value (.array before :: stack)) rfl]
    refine (run_moreItemTokens items stack (before ++ [item]) ts).trans ?_
    rw [List.append_assoc, List.singleton_append]

theorem run_memberTokens (members : List (σ × Json σ ν)) (stack : List (Frame σ ν))
    (ts : List (Token σ ν)) :
    (firstMember stack).run (memberTokens members ++ ts) =
      (deliver (.object members) stack).run ts := by
  cases members with
  | nil => rfl
  | cons member members =>
    obtain ⟨name, v⟩ := member
    rw [memberTokens, List.cons_append, List.cons_append, List.append_assoc]
    show (value (.object [] name :: stack)).run _ = _
    rw [run_tokens v (p := value (.object [] name :: stack)) rfl]
    exact run_moreMemberTokens members stack [(name, v)] ts

theorem run_moreMemberTokens (members : List (σ × Json σ ν)) (stack : List (Frame σ ν))
    (before : List (σ × Json σ ν)) (ts : List (Token σ ν)) :
    (nextMember stack before).run (moreMemberTokens members ++ ts) =
      (deliver (.object (before ++ members)) stack).run ts := by
  cases members with
  | nil => rw [List.append_nil]; rfl
  | cons member members =>
    obtain ⟨name, v⟩ := member
    rw [moreMemberTokens, List.cons_append, List.cons_append, List.cons_append, List.append_assoc]
    show (value (.object before name :: stack)).run _ = _
    rw [run_tokens v (p := value (.object before name :: stack)) rfl]
    refine (run_moreMemberTokens members stack (before ++ [(name, v)]) ts).trans ?_
    rw [List.append_assoc, List.singleton_append]

end

end Parser

theorem parse_tokens (j : Json σ ν) : parse j.tokens = some j := by
  have h := Parser.run_tokens j (p := Parser.value []) rfl []
  rw [List.append_nil] at h
  rw [parse, h]
  rfl

/-! ## What is read was written as that -/

namespace Parser

/-- Items with a comma after each. -/
def itemsRead (items : List (Json σ ν)) : List (Token σ ν) :=
  items.flatMap fun item => item.tokens ++ [.comma]

/-- Members with a comma after each. -/
def membersRead (members : List (σ × Json σ ν)) : List (Token σ ν) :=
  members.flatMap fun m => .string m.1 :: .colon :: (m.2.tokens ++ [.comma])

def stackRead : List (Frame σ ν) → List (Token σ ν)
  | [] => []
  | .array before :: stack => stackRead stack ++ .openArray :: itemsRead before
  | .object before name :: stack =>
    stackRead stack ++ .openObject :: (membersRead before ++ [.string name, .colon])

/-- The tokens that lead to a state. -/
def Read : Parser σ ν → List (Token σ ν) → Prop
  | .value stack, ts => ts = stackRead stack
  | .firstItem stack, ts => ts = stackRead stack ++ [.openArray]
  | .nextItem stack items, ts => ∃ before last, items = before ++ [last] ∧
      ts = stackRead (.array before :: stack) ++ last.tokens
  | .firstMember stack, ts => ts = stackRead stack ++ [.openObject]
  | .key stack members, ts => ts = stackRead stack ++ .openObject :: membersRead members
  | .colon stack members name, ts =>
    ts = stackRead stack ++ .openObject :: (membersRead members ++ [.string name])
  | .nextMember stack members, ts => ∃ before name last, members = before ++ [(name, last)] ∧
      ts = stackRead (.object before name :: stack) ++ last.tokens
  | .done j, ts => ts = j.tokens

theorem moreItemTokens_concat (before : List (Json σ ν)) (last : Json σ ν) :
    moreItemTokens (before ++ [last]) =
      .comma :: (itemsRead before ++ (last.tokens ++ [.closeArray])) := by
  induction before with
  | nil => rfl
  | cons item before ih =>
    rw [List.cons_append, moreItemTokens, ih]
    simp [itemsRead]

theorem itemTokens_concat (before : List (Json σ ν)) (last : Json σ ν) :
    itemTokens (before ++ [last]) = itemsRead before ++ (last.tokens ++ [.closeArray]) := by
  cases before with
  | nil => rfl
  | cons item before =>
    rw [List.cons_append, itemTokens, moreItemTokens_concat]
    simp [itemsRead]

theorem moreMemberTokens_concat (before : List (σ × Json σ ν)) (name : σ) (last : Json σ ν) :
    moreMemberTokens (before ++ [(name, last)]) = .comma :: (membersRead before ++
      .string name :: .colon :: (last.tokens ++ [.closeObject])) := by
  induction before with
  | nil => rfl
  | cons member before ih =>
    rw [List.cons_append, moreMemberTokens, ih]
    simp [membersRead]

theorem memberTokens_concat (before : List (σ × Json σ ν)) (name : σ) (last : Json σ ν) :
    memberTokens (before ++ [(name, last)]) = membersRead before ++
      .string name :: .colon :: (last.tokens ++ [.closeObject]) := by
  cases before with
  | nil => rfl
  | cons member before =>
    rw [List.cons_append, memberTokens, moreMemberTokens_concat]
    simp [membersRead]

theorem read_deliver (j : Json σ ν) (stack : List (Frame σ ν)) :
    (deliver j stack).Read (stackRead stack ++ j.tokens) := by
  cases stack with
  | nil => rfl
  | cons frame stack =>
    cases frame with
    | array before => exact ⟨before, j, rfl, rfl⟩
    | object before name => exact ⟨before, name, j, rfl, rfl⟩

theorem read_startValue {p : Parser σ ν} {stack : List (Frame σ ν)} {t : Token σ ν}
    (h : startValue stack t = some p) : p.Read (stackRead stack ++ [t]) := by
  cases t <;> simp only [startValue, Option.some.injEq] at h <;> try cases h
  case null => exact read_deliver .null stack
  case bool b => exact read_deliver (.bool b) stack
  case number n => exact read_deliver (.number n) stack
  case string s => exact read_deliver (.string s) stack
  case openArray => rfl
  case openObject => rfl

theorem read_step {p p' : Parser σ ν} {ts : List (Token σ ν)} {t : Token σ ν} (h : p.Read ts)
    (hstep : p.step t = some p') : p'.Read (ts ++ [t]) := by
  -- one case for each state: what it has read, with the token just taken
  cases p with
  | value stack =>
    rw [h]
    exact read_startValue hstep
  | firstItem stack =>
    rw [h]
    by_cases ht : t = .closeArray
    · subst ht
      cases hstep
      have := read_deliver (.array []) stack
      simpa [tokens, itemTokens] using this
    · rw [step_of_expects (p := firstItem stack) rfl ht] at hstep
      exact read_startValue hstep
  | nextItem stack items =>
    obtain ⟨before, last, rfl, rfl⟩ := h
    cases t with
    | comma =>
      cases hstep
      simp [Read, stackRead, itemsRead]
    | closeArray =>
      cases hstep
      have := read_deliver (.array (before ++ [last])) stack
      simpa [tokens, itemTokens_concat, stackRead] using this
    | _ => cases hstep
  | firstMember stack =>
    rw [h]
    cases t with
    | string name =>
      cases hstep
      simp [Read, membersRead]
    | closeObject =>
      cases hstep
      have := read_deliver (.object []) stack
      simpa [tokens, memberTokens] using this
    | _ => cases hstep
  | key stack members =>
    rw [h]
    cases t with
    | string name =>
      cases hstep
      simp [Read]
    | _ => cases hstep
  | colon stack members name =>
    rw [h]
    cases t with
    | colon =>
      cases hstep
      simp [Read, stackRead]
    | _ => cases hstep
  | nextMember stack members =>
    obtain ⟨before, name, last, rfl, rfl⟩ := h
    cases t with
    | comma =>
      cases hstep
      simp [Read, stackRead, membersRead]
    | closeObject =>
      cases hstep
      have := read_deliver (.object (before ++ [(name, last)])) stack
      simpa [tokens, memberTokens_concat, stackRead] using this
    | _ => cases hstep
  | done j => cases hstep

theorem read_run {p p' : Parser σ ν} {ts us : List (Token σ ν)} (h : p.Read ts)
    (hrun : p.run us = some p') : p'.Read (ts ++ us) := by
  induction us generalizing p ts with
  | nil =>
    cases hrun
    rwa [List.append_nil]
  | cons t us ih =>
    obtain ⟨q, hstep, hrest⟩ := Option.bind_eq_some_iff.mp hrun
    have := ih (read_step h hstep) hrest
    rwa [List.append_assoc] at this

end Parser

/-- The parser accepts exactly the tokens of a value. -/
theorem parse_eq_some_iff {ts : List (Token σ ν)} {j : Json σ ν} :
    parse ts = some j ↔ ts = j.tokens := by
  constructor
  · intro h
    obtain ⟨p, hrun, hresult⟩ := Option.bind_eq_some_iff.mp h
    have hread := @Parser.read_run σ ν (.value []) p [] ts rfl hrun
    cases p <;> cases hresult
    exact hread
  · rintro rfl
    exact parse_tokens j

/-! ## Nesting and names -/

mutual

/-- How deep containers are nested. -/
def depth : Json σ ν → Nat
  | .array items => itemsDepth items + 1
  | .object members => membersDepth members + 1
  | _ => 0

def itemsDepth : List (Json σ ν) → Nat
  | [] => 0
  | item :: items => max item.depth (itemsDepth items)

def membersDepth : List (σ × Json σ ν) → Nat
  | [] => 0
  | (_, value) :: members => max value.depth (membersDepth members)

end

section Distinct

variable [DecidableEq σ]

mutual

/-- No object has two members of one name. -/
def distinct : Json σ ν → Bool
  | .array items => itemsDistinct items
  | .object members => decide (members.map Prod.fst).Nodup && membersDistinct members
  | _ => true

def itemsDistinct : List (Json σ ν) → Bool
  | [] => true
  | item :: items => item.distinct && itemsDistinct items

def membersDistinct : List (σ × Json σ ν) → Bool
  | [] => true
  | (_, value) :: members => value.distinct && membersDistinct members

end

end Distinct

end Json

end FluxFast.Theory
