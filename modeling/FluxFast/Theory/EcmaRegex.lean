import Mathlib.Data.List.Basic
import Mathlib.Tactic.Ring

/-!
# EcmaRegex — the patterns of ECMAScript with the `u` flag

The grammar of `Pattern` as trees over concrete syntax, so that a pattern is parsed by naming a
tree whose text it is.  A tree is written as a list of tokens, and a backtracking matcher runs over
it: `ways` lists the positions at which it can leave a part of the pattern, `work` counts what it
tries when every way fails in the end.

What a single character stands for, what an assertion or a look-around says at a position and what a
back reference takes are parameters of the matcher.
-/

namespace FluxFast.Theory.EcmaRegex

/-! ## Syntax -/

def syntaxCharacters : List Char :=
  ['^', '$', '\\', '.', '*', '+', '?', '(', ')', '[', ']', '\x7b', '\x7d', '|']

def isHex (c : Char) : Bool :=
  c.isDigit || ('a' ≤ c && c ≤ 'f') || ('A' ≤ c && c ≤ 'F')

/-- What follows a backslash. -/
inductive Escape where
  | identity (c : Char) (h : c ∈ syntaxCharacters ∨ c = '/')
  | control (c : Char) (h : c ∈ ['f', 'n', 'r', 't', 'v'])
  | controlLetter (c : Char) (h : c.isAlpha = true)
  | null
  | hex (digits : List Char) (h : ∀ c ∈ digits, isHex c = true)
  | unit (digits : List Char) (h : ∀ c ∈ digits, isHex c = true)
  | codePoint (digits : List Char) (h : ∀ c ∈ digits, isHex c = true)
  | characterClass (c : Char) (h : c ∈ ['d', 'D', 's', 'S', 'w', 'W'])
  | property (negated : Bool) (name : List Char)
  | backReference (first : Char) (rest : List Char) (h : first.isDigit = true)
  | namedReference (name : List Char)

inductive ClassItem where
  | char (c : Char) (h : c ≠ '\\' ∧ c ≠ ']')
  | escape (e : Escape)
  | backspace
  | hyphen

inductive Atom where
  | char (c : Char) (h : c ∉ syntaxCharacters)
  | dot
  | escape (e : Escape)
  | characterClass (negated : Bool) (items : List ClassItem)

inductive Assertion where
  | lineStart
  | lineEnd
  | wordBoundary
  | notWordBoundary

inductive Look where
  | ahead
  | notAhead
  | behind
  | notBehind

inductive GroupKind where
  | capture
  | nonCapturing
  | named (first : Char) (rest : List Char) (h : first ≠ '=' ∧ first ≠ '!')
  | modifiers (flags : List Char) (h : flags ≠ [] ∧ ∀ c ∈ flags, (c.isAlpha || c = '-') = true)

inductive Count where
  | star
  | plus
  | optional
  | exactly (digits : List Char) (h : digits ≠ [] ∧ ∀ c ∈ digits, c.isDigit = true)
  | atLeast (digits : List Char) (h : digits ≠ [] ∧ ∀ c ∈ digits, c.isDigit = true)
  | between (low high : List Char)
      (h : (low ≠ [] ∧ ∀ c ∈ low, c.isDigit = true) ∧ high ≠ [] ∧ ∀ c ∈ high, c.isDigit = true)

structure Quantifier where
  count : Count
  lazy : Bool := false

mutual

inductive Disjunction where
  | one (alternative : Alternative)
  | more (alternative : Alternative) (rest : Disjunction)

inductive Alternative where
  | empty
  | cons (term : Term) (rest : Alternative)

inductive Term where
  | assertion (a : Assertion)
  | look (kind : Look) (body : Disjunction)
  | atom (a : Atom) (quantifier : Option Quantifier)
  | group (kind : GroupKind) (body : Disjunction) (quantifier : Option Quantifier)

end

/-! ## Text -/

def Escape.text : Escape → List Char
  | .identity c _ => [c]
  | .control c _ => [c]
  | .controlLetter c _ => ['c', c]
  | .null => ['0']
  | .hex digits _ => 'x' :: digits
  | .unit digits _ => 'u' :: digits
  | .codePoint digits _ => 'u' :: '\x7b' :: (digits ++ ['\x7d'])
  | .characterClass c _ => [c]
  | .property negated name => (if negated then 'P' else 'p') :: '\x7b' :: (name ++ ['\x7d'])
  | .backReference first rest _ => first :: rest
  | .namedReference name => 'k' :: '<' :: (name ++ ['>'])

def ClassItem.text : ClassItem → List Char
  | .char c _ => [c]
  | .escape e => '\\' :: e.text
  | .backspace => ['\\', 'b']
  | .hyphen => ['\\', '-']

def Atom.text : Atom → List Char
  | .char c _ => [c]
  | .dot => ['.']
  | .escape e => '\\' :: e.text
  | .characterClass negated items =>
    '[' :: ((if negated then ['^'] else []) ++ items.flatMap ClassItem.text ++ [']'])

def Assertion.text : Assertion → List Char
  | .lineStart => ['^']
  | .lineEnd => ['$']
  | .wordBoundary => ['\\', 'b']
  | .notWordBoundary => ['\\', 'B']

def Look.text : Look → List Char
  | .ahead => ['(', '?', '=']
  | .notAhead => ['(', '?', '!']
  | .behind => ['(', '?', '<', '=']
  | .notBehind => ['(', '?', '<', '!']

def GroupKind.text : GroupKind → List Char
  | .capture => ['(']
  | .nonCapturing => ['(', '?', ':']
  | .named first rest _ => '(' :: '?' :: '<' :: first :: (rest ++ ['>'])
  | .modifiers flags _ => '(' :: '?' :: (flags ++ [':'])

def Count.text : Count → List Char
  | .star => ['*']
  | .plus => ['+']
  | .optional => ['?']
  | .exactly digits _ => '\x7b' :: (digits ++ ['\x7d'])
  | .atLeast digits _ => '\x7b' :: (digits ++ [',', '\x7d'])
  | .between low high _ => '\x7b' :: (low ++ ',' :: (high ++ ['\x7d']))

def Quantifier.text (q : Quantifier) : List Char := q.count.text ++ if q.lazy then ['?'] else []

/-- A pattern is a sequence of tokens; a quantifier carries the atom it repeats, and none where it
repeats a group. -/
inductive Token where
  | assertion (a : Assertion)
  | openLook (kind : Look)
  | openGroup (kind : GroupKind)
  | close
  | bar
  | atom (a : Atom)
  | quantifier (target : Option Atom) (q : Quantifier)

def Token.text : Token → List Char
  | .assertion a => a.text
  | .openLook kind => kind.text
  | .openGroup kind => kind.text
  | .close => [')']
  | .bar => ['|']
  | .atom a => a.text
  | .quantifier _ q => q.text

def quantifierToken (target : Option Atom) (q : Option Quantifier) : List Token :=
  q.toList.map (.quantifier target)

mutual

def Disjunction.tokens : Disjunction → List Token
  | .one alternative => alternative.tokens
  | .more alternative rest => alternative.tokens ++ .bar :: rest.tokens

def Alternative.tokens : Alternative → List Token
  | .empty => []
  | .cons term rest => term.tokens ++ rest.tokens

def Term.tokens : Term → List Token
  | .assertion a => [.assertion a]
  | .look kind body => .openLook kind :: (body.tokens ++ [.close])
  | .atom a q => .atom a :: quantifierToken (some a) q
  | .group kind body q => .openGroup kind :: (body.tokens ++ .close :: quantifierToken none q)

end

def spelling (tokens : List Token) : List Char := tokens.flatMap Token.text

def Disjunction.text (d : Disjunction) : List Char := spelling d.tokens

/-! ## A backtracking matcher -/

def Escape.isReference : Escape → Bool
  | .backReference _ _ _ => true
  | .namedReference _ => true
  | _ => false

def Atom.isReference : Atom → Bool
  | .escape e => e.isReference
  | _ => false

def number (digits : List Char) : Nat := Nat.ofDigitChars 10 digits 0

def Count.minimum : Count → Nat
  | .star => 0
  | .plus => 1
  | .optional => 0
  | .exactly digits _ => number digits
  | .atLeast digits _ => number digits
  | .between low _ _ => number low

def Count.maximum : Count → Option Nat
  | .star => none
  | .plus => none
  | .optional => some 1
  | .exactly digits _ => some (number digits)
  | .atLeast _ _ => none
  | .between _ high _ => some (number high)

/-- An input, and what the parts of a pattern that are not structure say of its positions. -/
structure Matcher where
  length : Nat
  step : Atom → Nat → Option Nat
  holds : Assertion → Nat → Bool
  looks : Look → Disjunction → Nat → Bool
  step_le : ∀ a i j, step a i = some j → i ≤ j ∧ j ≤ length
  step_lt : ∀ a i j, a.isReference = false → step a i = some j → i < j

namespace Matcher

variable (m : Matcher)

/-- The positions after some repetitions of `body`; an empty repetition beyond the least number is
not tried again. -/
def repeatWays (body : Nat → List Nat) (lazy : Bool) :
    Nat → Nat → Option Nat → Nat → List Nat
  | 0, _, _, _ => []
  | fuel + 1, minimum, maximum, i =>
    if maximum = some 0 then [i]
    else
      let more := (body i).flatMap fun j =>
        if minimum = 0 ∧ j = i then []
        else repeatWays body lazy fuel (minimum - 1) (maximum.map (· - 1)) j
      if 0 < minimum then more
      else if lazy then i :: more
      else more ++ [i]

/-- The attempts of a repetition all of whose ways fail in the end. -/
def repeatWork (body : Nat → List Nat) (bodyWork : Nat → Nat) :
    Nat → Nat → Option Nat → Nat → Nat
  | 0, _, _, _ => 0
  | fuel + 1, minimum, maximum, i =>
    if maximum = some 0 then 1
    else
      1 + bodyWork i + ((body i).map fun j =>
        if minimum = 0 ∧ j = i then 0
        else repeatWork body bodyWork fuel (minimum - 1) (maximum.map (· - 1)) j).sum

/-- Every repetition advances or counts towards the minimum, so this many are enough. -/
def fuel (q : Quantifier) : Nat := q.count.minimum + m.length + 1

def quantified (q : Quantifier) (body : Nat → List Nat) (i : Nat) : List Nat :=
  repeatWays body q.lazy (m.fuel q) q.count.minimum q.count.maximum i

def quantifiedWork (q : Quantifier) (body : Nat → List Nat) (bodyWork : Nat → Nat) (i : Nat) : Nat :=
  repeatWork body bodyWork (m.fuel q) q.count.minimum q.count.maximum i

end Matcher

mutual

/-- The positions at which the matcher can leave the pattern, in the order it tries them. -/
def Disjunction.ways (m : Matcher) : Disjunction → Nat → List Nat
  | .one alternative, i => alternative.ways m i
  | .more alternative rest, i => alternative.ways m i ++ rest.ways m i

def Alternative.ways (m : Matcher) : Alternative → Nat → List Nat
  | .empty, i => [i]
  | .cons term rest, i => (term.ways m i).flatMap fun j => rest.ways m j

def Term.ways (m : Matcher) : Term → Nat → List Nat
  | .assertion a, i => if m.holds a i then [i] else []
  | .look kind body, i => if m.looks kind body i then [i] else []
  | .atom a none, i => (m.step a i).toList
  | .atom a (some q), i => m.quantified q (fun i => (m.step a i).toList) i
  | .group _ body none, i => body.ways m i
  | .group _ body (some q), i => m.quantified q (fun i => body.ways m i) i

end

mutual

/-- The attempts the matcher makes before it gives the pattern up at a position. -/
def Disjunction.work (m : Matcher) : Disjunction → Nat → Nat
  | .one alternative, i => alternative.work m i
  | .more alternative rest, i => alternative.work m i + rest.work m i

def Alternative.work (m : Matcher) : Alternative → Nat → Nat
  | .empty, _ => 1
  | .cons term rest, i => term.work m i + ((term.ways m i).map fun j => rest.work m j).sum

def Term.work (m : Matcher) : Term → Nat → Nat
  | .assertion _, _ => 1
  | .look _ body, i => 1 + body.work m i
  | .atom _ none, _ => 1
  | .atom a (some q), i => m.quantifiedWork q (fun i => (m.step a i).toList) (fun _ => 1) i
  | .group _ body none, i => body.work m i
  | .group _ body (some q), i =>
    m.quantifiedWork q (fun i => body.ways m i) (fun i => body.work m i) i

end

/-! ## Patterns with one quantifier -/

def Token.isQuantifier : Token → Bool
  | .quantifier _ _ => true
  | _ => false

def quantifiers (tokens : List Token) : Nat := tokens.countP Token.isQuantifier

/-- No alternation, no look-around, no back reference and no quantifier on a group. -/
structure Harmless (tokens : List Token) : Prop where
  groups : ∀ q, .quantifier none q ∉ tokens
  alternation : .bar ∉ tokens
  lookaround : ∀ kind, .openLook kind ∉ tokens
  backReference : ∀ a, a.isReference = true → .atom a ∉ tokens

/-- Harmless, and with one quantifier at most. -/
structure Simple (tokens : List Token) : Prop extends Harmless tokens where
  quantifiers : quantifiers tokens ≤ 1

theorem Harmless.mono {as bs : List Token} (h : Harmless bs) (hsub : ∀ t ∈ as, t ∈ bs) :
    Harmless as where
  groups := fun q hq => h.groups q (hsub _ hq)
  alternation := fun hbar => h.alternation (hsub _ hbar)
  lookaround := fun kind hk => h.lookaround kind (hsub _ hk)
  backReference := fun a ha hmem => h.backReference a ha (hsub _ hmem)

theorem quantifiers_append (as bs : List Token) :
    quantifiers (as ++ bs) = quantifiers as + quantifiers bs := List.countP_append

namespace Matcher

variable {m : Matcher}

/-- What can be left over after a part with so many quantifiers. -/
def breadth (m : Matcher) (count : Nat) : Nat := if count = 0 then 1 else m.length + 1

/-- A character that is repeated leaves at most one way for each position. -/
theorem length_repeatWays {a : Atom} (ha : a.isReference = false) (lazy : Bool) (fuel : Nat)
    (minimum : Nat) (maximum : Option Nat) {i : Nat} (hi : i ≤ m.length) :
    (repeatWays (fun i => (m.step a i).toList) lazy fuel minimum maximum i).length ≤
      m.length - i + 1 := by
  -- induction on the fuel: each turn adds at most one place and moves on by at least one
  induction fuel generalizing minimum maximum i with
  | zero => exact Nat.zero_le _
  | succ fuel ih =>
    rw [repeatWays]
    split
    · exact Nat.le_add_left _ _
    -- an atom has at most one way on, so the turns form a chain
    · cases hstep : m.step a i with
      | none =>
        dsimp only
        split
        · exact Nat.zero_le _
        · split
          · exact Nat.le_add_left _ _
          · exact Nat.le_add_left _ _
      | some j =>
        have hij := m.step_lt a i j ha hstep
        have hj := (m.step_le a i j hstep).2
        have hmore := ih (minimum - 1) (maximum.map (· - 1)) hj
        have hne : ¬ (minimum = 0 ∧ j = i) := by omega
        simp only [Option.toList_some, List.flatMap_cons, List.flatMap_nil, List.append_nil, if_neg hne]
        split
        · omega
        · split
          · rw [List.length_cons]
            omega
          · rw [List.length_append, List.length_singleton]
            omega

theorem repeatWork_le {a : Atom} (ha : a.isReference = false) (fuel minimum : Nat)
    (maximum : Option Nat) {i : Nat} (hi : i ≤ m.length) :
    repeatWork (fun i => (m.step a i).toList) (fun _ => 1) fuel minimum maximum i ≤
      2 * (m.length - i + 1) := by
  induction fuel generalizing minimum maximum i with
  | zero => exact Nat.zero_le _
  | succ fuel ih =>
    rw [repeatWork]
    split
    · omega
    · cases hstep : m.step a i with
      | none =>
        simp only [Option.toList_none, List.map_nil, List.sum_nil]
        omega
      | some j =>
        have hij := m.step_lt a i j ha hstep
        have hj := (m.step_le a i j hstep).2
        have hmore := ih (minimum - 1) (maximum.map (· - 1)) hj
        have hne : ¬ (minimum = 0 ∧ j = i) := by omega
        simp only [Option.toList_some, List.map_cons, List.map_nil, List.sum_cons, List.sum_nil,
          if_neg hne]
        omega

end Matcher

/-! ### Every way leads on inside the input -/

/-- Where a part of a pattern started at `i` may be left. -/
def Matcher.Onward (m : Matcher) (i j : Nat) : Prop := i ≤ j ∧ j ≤ m.length

theorem Matcher.repeatWays_onward {m : Matcher} {body : Nat → List Nat}
    (hbody : ∀ i ≤ m.length, ∀ j ∈ body i, m.Onward i j) (lazy : Bool) (fuel minimum : Nat)
    (maximum : Option Nat) {i : Nat} (hi : i ≤ m.length) :
    ∀ j ∈ repeatWays body lazy fuel minimum maximum i, m.Onward i j := by
  -- induction on the fuel; a place reached in more turns lies onward of the first turn's end
  induction fuel generalizing minimum maximum i with
  | zero => intro j hj; cases hj
  | succ fuel ih =>
    intro j hj
    have hself : m.Onward i i := ⟨Nat.le_refl i, hi⟩
    rw [repeatWays] at hj
    split at hj
    · exact List.mem_singleton.mp hj ▸ hself
    -- the places that need another turn
    · have hmore : ∀ j ∈ (body i).flatMap fun j =>
          if minimum = 0 ∧ j = i then []
          else repeatWays body lazy fuel (minimum - 1) (maximum.map (· - 1)) j,
          m.Onward i j := by
        intro j hj
        obtain ⟨k, hk, hjk⟩ := List.mem_flatMap.mp hj
        have hik := hbody i hi k hk
        split at hjk
        · cases hjk
        · have hkj := ih (minimum - 1) (maximum.map (· - 1)) hik.2 j hjk
          exact ⟨hik.1.trans hkj.1, hkj.2⟩
      dsimp only at hj
      split at hj
      · exact hmore j hj
      · split at hj
        · rcases List.mem_cons.mp hj with rfl | hj
          · exact hself
          · exact hmore j hj
        · rcases List.mem_append.mp hj with hj | hj
          · exact hmore j hj
          · exact List.mem_singleton.mp hj ▸ hself

/-- Once every repetition that can advance or count has its turn, more fuel changes nothing. -/
theorem Matcher.repeatWays_fuel {m : Matcher} {body : Nat → List Nat}
    (hbody : ∀ i ≤ m.length, ∀ j ∈ body i, m.Onward i j) (lazy : Bool) (fuel extra minimum : Nat)
    (maximum : Option Nat) {i : Nat} (hi : i ≤ m.length)
    (henough : minimum + (m.length - i) < fuel) :
    repeatWays body lazy (fuel + extra) minimum maximum i =
      repeatWays body lazy fuel minimum maximum i := by
  induction fuel generalizing minimum maximum i with
  | zero => omega
  | succ fuel ih =>
    have hmore : ((body i).flatMap fun j =>
          if minimum = 0 ∧ j = i then []
          else repeatWays body lazy (fuel + extra) (minimum - 1) (maximum.map (· - 1)) j) =
        (body i).flatMap fun j =>
          if minimum = 0 ∧ j = i then []
          else repeatWays body lazy fuel (minimum - 1) (maximum.map (· - 1)) j := by
      apply List.flatMap_congr
      intro j hj
      obtain ⟨hij, hjl⟩ := hbody i hi j hj
      split
      · rfl
      · next hne => exact ih (minimum - 1) (maximum.map (· - 1)) hjl (by omega)
    rw [Nat.succ_add_eq_add_succ, Nat.add_succ, repeatWays, repeatWays, hmore]

section Onward

variable (m : Matcher)

theorem step_onward (a : Atom) : ∀ i ≤ m.length, ∀ j ∈ (m.step a i).toList, m.Onward i j :=
  fun i _ j hj => m.step_le a i j (Option.mem_toList.mp hj)

mutual

theorem disjunction_onward : (d : Disjunction) → ∀ i ≤ m.length, ∀ j ∈ d.ways m i, m.Onward i j
  | .one alternative, i, hi, j, hj => alternative_onward alternative i hi j hj
  | .more alternative rest, i, hi, j, hj => by
    rcases List.mem_append.mp hj with hj | hj
    · exact alternative_onward alternative i hi j hj
    · exact disjunction_onward rest i hi j hj

theorem alternative_onward : (a : Alternative) → ∀ i ≤ m.length, ∀ j ∈ a.ways m i, m.Onward i j
  | .empty, i, hi, j, hj => by
    obtain rfl : j = i := List.mem_singleton.mp hj
    exact ⟨Nat.le_refl j, hi⟩
  | .cons term rest, i, hi, j, hj => by
    obtain ⟨k, hk, hjk⟩ := List.mem_flatMap.mp hj
    have hik := term_onward term i hi k hk
    have hkj := alternative_onward rest k hik.2 j hjk
    exact ⟨hik.1.trans hkj.1, hkj.2⟩

theorem term_onward : (t : Term) → ∀ i ≤ m.length, ∀ j ∈ t.ways m i, m.Onward i j
  | .assertion a, i, hi, j, hj => by
    rw [Term.ways] at hj
    split at hj
    · obtain rfl : j = i := List.mem_singleton.mp hj
      exact ⟨Nat.le_refl j, hi⟩
    · cases hj
  | .look kind body, i, hi, j, hj => by
    rw [Term.ways] at hj
    split at hj
    · obtain rfl : j = i := List.mem_singleton.mp hj
      exact ⟨Nat.le_refl j, hi⟩
    · cases hj
  | .atom a none, i, hi, j, hj => step_onward m a i hi j hj
  | .atom a (some q), i, hi, j, hj =>
    Matcher.repeatWays_onward (step_onward m a) _ _ _ _ hi j hj
  | .group _ body none, i, hi, j, hj => disjunction_onward body i hi j hj
  | .group _ body (some q), i, hi, j, hj =>
    Matcher.repeatWays_onward (disjunction_onward body) _ _ _ _ hi j hj

end

/-- The fuel of a quantified group never runs out. -/
theorem quantified_fuel (q : Quantifier) (body : Disjunction) (extra : Nat) {i : Nat}
    (hi : i ≤ m.length) :
    Matcher.repeatWays (fun i => body.ways m i) q.lazy (m.fuel q + extra) q.count.minimum
        q.count.maximum i = m.quantified q (fun i => body.ways m i) i :=
  Matcher.repeatWays_fuel (disjunction_onward m body) _ _ _ _ _ hi (by unfold Matcher.fuel; omega)

end Onward

/-! ### How many ways, and how much work -/

theorem length_flatMap_le {xs : List Nat} {f : Nat → List Nat} {b : Nat}
    (h : ∀ x ∈ xs, (f x).length ≤ b) : (xs.flatMap f).length ≤ xs.length * b := by
  induction xs with
  | nil => exact Nat.zero_le _
  | cons x xs ih =>
    rw [List.flatMap_cons, List.length_append, List.length_cons, Nat.add_mul, Nat.one_mul]
    have hx := h x (by simp)
    have hrest := ih fun y hy => h y (List.mem_cons_of_mem _ hy)
    omega

theorem sum_map_le {xs : List Nat} {f : Nat → Nat} {b : Nat} (h : ∀ x ∈ xs, f x ≤ b) :
    (xs.map f).sum ≤ xs.length * b := by
  induction xs with
  | nil => exact Nat.zero_le _
  | cons x xs ih =>
    rw [List.map_cons, List.sum_cons, List.length_cons, Nat.add_mul, Nat.one_mul]
    have hx := h x (by simp)
    have hrest := ih fun y hy => h y (List.mem_cons_of_mem _ hy)
    omega

/-- What two parts leave over together when at most one of them has the quantifier. -/
theorem Matcher.breadth_mul (m : Matcher) {c d : Nat} (h : c + d ≤ 1) :
    m.breadth c * m.breadth d = m.breadth (c + d) := by
  rcases Nat.eq_zero_or_pos c with rfl | hc
  · simp [breadth]
  · obtain rfl : d = 0 := by omega
    simp [breadth]

section Bounds

variable (m : Matcher)

mutual

theorem length_disjunction_ways : (d : Disjunction) → Harmless d.tokens →
    quantifiers d.tokens ≤ 1 → ∀ i ≤ m.length,
      (d.ways m i).length ≤ m.breadth (quantifiers d.tokens)
  | .one alternative, hh, hq, i, hi => length_alternative_ways alternative hh hq i hi
  | .more alternative rest, hh, _, _, _ =>
    absurd (show Token.bar ∈ (Disjunction.more alternative rest).tokens by
      simp [Disjunction.tokens]) hh.alternation

theorem length_alternative_ways : (a : Alternative) → Harmless a.tokens →
    quantifiers a.tokens ≤ 1 → ∀ i ≤ m.length,
      (a.ways m i).length ≤ m.breadth (quantifiers a.tokens)
  | .empty, _, _, i, _ => Nat.le_of_eq rfl
  | .cons term rest, hh, hq, i, hi => by
    rw [Alternative.tokens, quantifiers_append] at hq ⊢
    rw [Alternative.tokens] at hh
    have hterm := length_term_ways term (hh.mono fun t ht => List.mem_append_left _ ht)
      (by omega) i hi
    have hrest : ∀ j ∈ term.ways m i,
        (rest.ways m j).length ≤ m.breadth (quantifiers rest.tokens) := fun j hj =>
      length_alternative_ways rest (hh.mono fun t ht => List.mem_append_right _ ht)
        (by omega) j (term_onward m term i hi j hj).2
    rw [← m.breadth_mul hq]
    exact (length_flatMap_le hrest).trans (Nat.mul_le_mul_right _ hterm)

theorem length_term_ways : (t : Term) → Harmless t.tokens →
    quantifiers t.tokens ≤ 1 → ∀ i ≤ m.length,
      (t.ways m i).length ≤ m.breadth (quantifiers t.tokens)
  | .assertion a, _, _, i, _ => by
    rw [Term.ways]
    split
    · exact Nat.le_refl 1
    · exact Nat.zero_le _
  | .look kind body, hh, _, _, _ =>
    absurd (show Token.openLook kind ∈ (Term.look kind body).tokens by
      simp [Term.tokens]) (hh.lookaround kind)
  | .atom a none, _, _, i, _ => by
    show (m.step a i).toList.length ≤ 1
    cases m.step a i with
    | none => exact Nat.zero_le _
    | some j => exact Nat.le_refl _
  -- a quantified atom stops after at most every place to the end
  | .atom a (some q), hh, _, i, hi => by
    have ha : a.isReference = false := by
      rw [← Bool.not_eq_true]
      exact fun href => hh.backReference a href (by simp [Term.tokens])
    have hlength := Matcher.length_repeatWays ha q.lazy (m.fuel q) q.count.minimum
      q.count.maximum hi
    show _ ≤ m.length + 1
    exact hlength.trans (by omega)
  -- a group without a quantifier has the ways of its body
  | .group kind body none, hh, hq, i, hi => by
    have htokens : (Term.group kind body none).tokens =
        [.openGroup kind] ++ (body.tokens ++ [.close]) := rfl
    rw [htokens] at hh hq ⊢
    have hcount : quantifiers ([.openGroup kind] ++ (body.tokens ++ [.close])) =
        quantifiers body.tokens := by
      rw [quantifiers_append, quantifiers_append]
      exact (Nat.zero_add _).trans (Nat.add_zero _)
    rw [hcount] at hq ⊢
    exact length_disjunction_ways body (hh.mono fun t ht => by simp [ht]) hq i hi
  -- a quantified group is excluded, since it could nest quantifiers
  | .group kind body (some q), hh, _, _, _ =>
    absurd (show Token.quantifier none q ∈ (Term.group kind body (some q)).tokens by
      simp [Term.tokens, quantifierToken]) (hh.groups q)

end

/-- What one token of a part with so many quantifiers can cost. -/
def effort (count : Nat) : Nat := if count = 0 then 1 else m.length + 2

/-- The rest of a pattern is tried once for every way through the part before it. -/
theorem breadth_mul_effort {c d : Nat} (h : c + d ≤ 1) (n : Nat) :
    m.breadth c * (n * effort m d) ≤ n * effort m (c + d) := by
  rcases Nat.eq_zero_or_pos c with rfl | hc
  · simp [Matcher.breadth]
  · obtain rfl : d = 0 := by omega
    have hc' : c ≠ 0 := by omega
    simp only [Matcher.breadth, effort, if_neg hc', if_true, Nat.add_zero, Nat.mul_one]
    rw [Nat.mul_comm]
    exact Nat.mul_le_mul_left n (Nat.le_succ _)

theorem effort_mono {c d : Nat} (h : c ≤ d) : effort m c ≤ effort m d := by
  unfold effort
  split
  · split
    · exact Nat.le_refl 1
    · omega
  · rw [if_neg (by omega)]

mutual

theorem disjunction_work_le : (d : Disjunction) → Harmless d.tokens → quantifiers d.tokens ≤ 1 →
    ∀ i ≤ m.length, d.work m i ≤ (d.tokens.length + 1) * effort m (quantifiers d.tokens)
  | .one alternative, hh, hq, i, hi => alternative_work_le alternative hh hq i hi
  | .more alternative rest, hh, _, _, _ =>
    absurd (show Token.bar ∈ (Disjunction.more alternative rest).tokens by
      simp [Disjunction.tokens]) hh.alternation

theorem alternative_work_le : (a : Alternative) → Harmless a.tokens → quantifiers a.tokens ≤ 1 →
    ∀ i ≤ m.length, a.work m i ≤ (a.tokens.length + 1) * effort m (quantifiers a.tokens)
  | .empty, _, _, i, _ => Nat.le_of_eq rfl
  | .cons term rest, hh, hq, i, hi => by
    rw [Alternative.tokens, quantifiers_append] at hq ⊢
    rw [Alternative.tokens] at hh
    have hharmless : Harmless term.tokens := hh.mono fun t ht => List.mem_append_left _ ht
    have hwork := term_work_le term hharmless (by omega) i hi
    have hways := length_term_ways m term hharmless (by omega) i hi
    have hrest : ∀ j ∈ term.ways m i, rest.work m j ≤
        (rest.tokens.length + 1) * effort m (quantifiers rest.tokens) := fun j hj =>
      alternative_work_le rest (hh.mono fun t ht => List.mem_append_right _ ht)
        (by omega) j (term_onward m term i hi j hj).2
    have hsum := (sum_map_le hrest).trans (Nat.mul_le_mul_right _ hways)
    have htail := hsum.trans (breadth_mul_effort m hq (rest.tokens.length + 1))
    have hhead := hwork.trans (Nat.mul_le_mul_left term.tokens.length
      (effort_mono m (Nat.le_add_right _ (quantifiers rest.tokens))))
    rw [Alternative.work, List.length_append, Nat.add_assoc, Nat.add_mul]
    exact Nat.add_le_add hhead htail

theorem term_work_le : (t : Term) → Harmless t.tokens → quantifiers t.tokens ≤ 1 →
    ∀ i ≤ m.length, t.work m i ≤ t.tokens.length * effort m (quantifiers t.tokens)
  | .assertion _, _, _, _, _ => Nat.le_of_eq rfl
  | .look kind body, hh, _, _, _ =>
    absurd (show Token.openLook kind ∈ (Term.look kind body).tokens by
      simp [Term.tokens]) (hh.lookaround kind)
  | .atom _ none, _, _, _, _ => Nat.le_of_eq rfl
  -- the one quantifier costs two steps a place
  | .atom a (some q), hh, _, i, hi => by
    have ha : a.isReference = false := by
      rw [← Bool.not_eq_true]
      exact fun href => hh.backReference a href (by simp [Term.tokens])
    have hrepeat := Matcher.repeatWork_le ha (m.fuel q) q.count.minimum q.count.maximum hi
    show _ ≤ 2 * (m.length + 2)
    exact hrepeat.trans (by omega)
  | .group kind body none, hh, hq, i, hi => by
    have htokens : (Term.group kind body none).tokens =
        [.openGroup kind] ++ (body.tokens ++ [.close]) := rfl
    rw [htokens] at hh hq ⊢
    have hcount : quantifiers ([.openGroup kind] ++ (body.tokens ++ [.close])) =
        quantifiers body.tokens := by
      rw [quantifiers_append, quantifiers_append]
      exact (Nat.zero_add _).trans (Nat.add_zero _)
    rw [hcount] at hq ⊢
    -- the two parentheses are tokens too and pay for the step into the group
    have hbody := disjunction_work_le body (hh.mono fun t ht => by simp [ht]) hq i hi
    refine hbody.trans (Nat.mul_le_mul_right _ ?_)
    simp only [List.length_append, List.length_singleton]
    omega
  | .group kind body (some q), hh, _, _, _ =>
    absurd (show Token.quantifier none q ∈ (Term.group kind body (some q)).tokens by
      simp [Term.tokens, quantifierToken]) (hh.groups q)

end

/-- A simple pattern is given up after a number of attempts that is linear in the input. -/
theorem Simple.work_le {d : Disjunction} (h : Simple d.tokens) {i : Nat} (hi : i ≤ m.length) :
    d.work m i ≤ (d.tokens.length + 1) * (m.length + 2) := by
  refine (disjunction_work_le m d h.toHarmless h.quantifiers i hi).trans
    (Nat.mul_le_mul_left _ ?_)
  unfold effort
  split
  · omega
  · exact Nat.le_refl _

end Bounds

end FluxFast.Theory.EcmaRegex
