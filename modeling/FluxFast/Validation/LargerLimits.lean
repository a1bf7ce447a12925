import FluxFast.Validation.Evaluate
import Mathlib

/-!
# LargerLimits — validation under larger limits

A value that is valid stays valid when the limits grow, unless a limit cut a branch of a `oneOf`
short, or the larger depth and property limits let the evaluation run into the operation limit.
-/

namespace FluxFast.Validation

open FluxFast.Theory

section Covering

variable {R : Type}

/-- What the evaluator restores is the open values and references. -/
def books : Books (EvaluationState R) (List R × List (RefFrame R)) where
  frame s := (s.activeValues, s.refs)
  used s := s.operations
  met s := s.limitsMet
  lost s := s.branchCut = true
  overdrawn s := s.operationLimitReported = true

/-- The same plan on the same value under other limits. -/
def Context.withLimits (c : Context R) (limits : Limits) : Context R :=
  { c with compiled := { c.compiled with limits := limits } }

variable (c : Context R) (limits : Limits) (lockstep : Prop)

/-- The limits are not smaller, and in lockstep only the operation limit is larger. -/
structure Larger : Prop where
  operations : c.compiled.limits.maxOperations ≤ limits.maxOperations
  properties : c.compiled.limits.maxProperties ≤ limits.maxProperties
  same : lockstep → c.compiled.limits.maxProperties = limits.maxProperties

variable {c limits lockstep}

abbrev Better {α : Type} (c : Context R) (lockstep : Prop) (Q : α → α → Prop)
    (x x' : Evaluation R α) : Prop :=
  Covers books c.compiled.limits.maxOperations lockstep Q x x'

/-! ## The primitives -/

section Primitives

variable {path : Path} {code message message' : String} {Q : Bool → Bool → Prop}

@[simp] theorem frame_add (s : EvaluationState R) (issue : Issue) :
    books.frame (s.add issue) = books.frame s := by
  unfold EvaluationState.add
  split <;> rfl

theorem books_add (s : EvaluationState R) (issue : Issue) :
    (s.add issue).operations = s.operations ∧ (s.add issue).limitsMet = s.limitsMet ∧
      (s.add issue).branchCut = s.branchCut ∧
      (s.add issue).operationLimitReported = s.operationLimitReported := by
  unfold EvaluationState.add
  split <;> exact ⟨rfl, rfl, rfl, rfl⟩

theorem keeps_addIssue : Keeps books (addIssue path code message : Evaluation R Unit) where
  frame s := frame_add s _
  used s := (books_add s _).1.ge
  met s := (books_add s _).2.1.ge
  lost s h := (books_add s _).2.2.1.trans h
  overdrawn s h := (books_add s _).2.2.2.trans h

/-- Issues are no part of the books. -/
theorem covers_addIssue :
    Better c lockstep Eq (addIssue path code message) (addIssue path code message') :=
  .change keeps_addIssue keeps_addIssue (fun s => (books_add s _).1) fun s => (books_add s _).1

theorem covers_reject {α : Type} {Q : α → α → Prop} {d : α} (h : Q d d) :
    Better c lockstep Q (do addIssue path code message; return d)
      (do addIssue path code message'; return d) :=
  covers_addIssue.bind_eq fun _ => .pure h

theorem keeps_meet : Keeps books (Work.change (EvaluationState.meet (R := R))) where
  frame _ := rfl
  used _ := Nat.le_refl _
  met _ := Nat.le_succ _
  lost _ h := h
  overdrawn _ h := h

theorem keeps_exhaust (limit : Nat) : Keeps books (Work.change fun s : EvaluationState R =>
    { s.exhaust path with operations := max s.operations limit }) where
  frame _ := rfl
  used _ := Nat.le_max_left _ _
  met _ := Nat.le_succ _
  lost _ h := h
  overdrawn _ _ := rfl

theorem keeps_consumeOperation : Keeps books (consumeOperation c path) := by
  refine ⟨fun s => ?_, fun s => ?_, fun s => ?_, fun s h => ?_, fun s h => ?_⟩ <;>
    unfold consumeOperation <;> split
  · rfl
  · rfl
  · exact Nat.le_refl _
  · exact Nat.le_succ _
  · exact Nat.le_succ _
  · exact Nat.le_refl _
  · exact h
  · exact h
  · rfl
  · exact h

theorem covers_consumeOperation (h : Larger c limits lockstep) :
    Better c lockstep (· ≤ ·) (consumeOperation c path)
      (consumeOperation (c.withLimits limits) path) where
  left := keeps_consumeOperation
  right := keeps_consumeOperation
  outcome s s' hstep hspare _ := by
    have hframe := hstep.1
    -- by the budget of the first run: it is spent, or both runs go on
    by_cases hspent : c.compiled.limits.maxOperations ≤ s.operations
    · -- the first run fails, and has used its budget up
      have hleft : consumeOperation c path s = (false, s.exhaust path) := if_pos hspent
      rw [hleft]
      refine ⟨Bool.false_le _, .inr ⟨Nat.lt_succ_self _, .inr hspent⟩, ?_, .inr hspent⟩
      rw [keeps_consumeOperation.frame]
      exact hframe
    · have hleft : consumeOperation c path s = (true, { s with operations := s.operations + 1 }) :=
        if_neg hspent
      -- in lockstep both runs have used the same, without it the second one never runs out
      have hbelow : ¬limits.maxOperations ≤ s'.operations := by
        rcases hstep.2 with hused | hused
        · intro hspent'
          have hright : consumeOperation (c.withLimits limits) path s' = (false, s'.exhaust path) :=
            if_pos hspent'
          rw [hright] at hspare
          have hlock : lockstep := hspare.resolve_right fun hnot => hnot rfl
          have heq : s.operations = s'.operations := hused hlock
          have := h.operations
          omega
        · exact absurd hused hspent
      have hright : consumeOperation (c.withLimits limits) path s' =
          (true, { s' with operations := s'.operations + 1 }) := if_neg hbelow
      rw [hleft, hright]
      refine ⟨le_rfl, .inl rfl, hframe, .inl fun hlock => ?_⟩
      have heq : s.operations = s'.operations :=
        (hstep.2.resolve_right hspent) hlock
      exact congrArg (· + 1) heq

/-- `if (!consumeOperation(...)) return d` before both. -/
theorem covers_consume {α : Type} {Q : α → α → Prop} {d : α} {x x' : Evaluation R α}
    (h : Larger c limits lockstep) (hd : ∀ b, Q d b) (hx : Better c lockstep Q x x') :
    Better c lockstep Q (consumeOperation c path >>= fun ok => if (!ok) = true then pure d else x)
      (consumeOperation (c.withLimits limits) path >>= fun ok =>
        if (!ok) = true then pure d else x') :=
  (covers_consumeOperation h).guard hd hx

theorem covers_expect {holds : Bool} :
    Better c lockstep (· ≤ ·) (expect holds path code message)
      (expect holds path code message') := by
  unfold expect
  cases holds with
  | true => exact (Covers.pure rfl).bind_eq fun _ => .pure le_rfl
  | false => exact covers_reject le_rfl

end Primitives

/-! ## Loops -/

section Loops

variable {α : Type} {path : Path}

/-- Both checks are made, and both have to hold. -/
theorem covers_and {x x' y y' : Evaluation R Bool} (hx : Better c lockstep (· ≤ ·) x x')
    (hy : Better c lockstep (· ≤ ·) y y') :
    Better c lockstep (· ≤ ·) (do let valid ← x; let others ← y; return valid && others)
      (do let valid ← x'; let others ← y'; return valid && others) := by
  have hlast : ∀ valid, Better c lockstep (· ≤ ·) (do let others ← y; return valid && others)
      (do let others ← y'; return valid && others) := by
    intro valid
    refine hy.bind (fun others => .pure le_rfl) fun a b hle hne => ?_
    have : (valid && a) ≤ (valid && b) := by
      revert hle
      cases valid <;> cases a <;> cases b <;> decide
    exact fun _ _ _ _ _ => this
  refine hx.bind hlast fun a b hle hne => ?_
  cases a with
  | true =>
    cases b with
    | true => exact absurd rfl hne
    | false => exact absurd hle (by decide)
  | false => exact fun _ _ _ _ _ => Bool.false_le _

theorem covers_forEach (h : Larger c limits lockstep) {pathOf : α → Path}
    {step step' : α → Evaluation R Bool} {entries : List α}
    (hstep : ∀ entry ∈ entries, Better c lockstep (· ≤ ·) (step entry) (step' entry)) :
    Better c lockstep (· ≤ ·) (forEach c pathOf step entries)
      (forEach (c.withLimits limits) pathOf step' entries) := by
  induction entries with
  | nil => exact .pure le_rfl
  | cons entry rest ih =>
    exact covers_consume h Bool.false_le (covers_and (hstep entry List.mem_cons_self)
      (ih fun e he => hstep e (List.mem_cons_of_mem _ he)))

theorem covers_allHold {checks checks' : List (Evaluation R Bool)}
    (h : List.Forall₂ (Better c lockstep (· ≤ ·)) checks checks') :
    Better c lockstep (· ≤ ·) (allHold checks) (allHold checks') := by
  induction h with
  | nil => exact .pure le_rfl
  | cons hcheck _ ih => exact covers_and hcheck ih

theorem covers_countCharacters (h : Larger c limits lockstep) (text : List Char) :
    Better c lockstep (· ≤ ·) (countCharacters c path text)
      (countCharacters (c.withLimits limits) path text) := by
  induction text with
  | nil => exact .pure le_rfl
  | cons character rest ih => exact covers_consume h Bool.false_le ih

/-- The keys that are read under a limit are read under a larger one. -/
def KeysKept (r r' : Except ReadKeysError (List String)) : Prop :=
  ∀ keys, r = .ok keys → r' = .ok keys

theorem keysKept_refl (r : Except ReadKeysError (List String)) : KeysKept r r := fun _ h => h

theorem keysKept_error (e : ReadKeysError) (r : Except ReadKeysError (List String)) :
    KeysKept (.error e) r := by
  intro keys h
  cases h

/-- Outside lockstep, a limit that only the first run meets. -/
theorem covers_of_met {Q : α → α → Prop} {d : α} {code message : String} {x' : Evaluation R α}
    (hfree : ¬lockstep) (hd : ∀ b, Q d b) (hx : Keeps books x') :
    Better c lockstep Q (do Work.change .meet; addIssue path code message; return d) x' := by
  have hleft : Keeps books (do Work.change (EvaluationState.meet (R := R))
                               addIssue path code message
                               return d) :=
    keeps_meet.bind fun _ => keeps_addIssue.bind fun _ => .pure d
  refine ⟨hleft, hx, fun s s' hstep hspare hlost => ?_⟩
  refine ⟨hd _, .inr ⟨?_, .inl hfree⟩, ?_, .inl fun hlock => absurd hlock hfree⟩
  · show books.met s < books.met (addIssue path code message s.meet).2
    exact Nat.lt_of_lt_of_le (Nat.lt_succ_self _) (keeps_addIssue.met s.meet)
  · rw [hleft.frame, hx.frame]
    exact hstep.1

/-- A limit of the first run that is not one of the second, or one of both. -/
theorem covers_limit {Q : α → α → Prop} {d : α} {code message message' : String}
    {holds holds' : Prop} [Decidable holds] [Decidable holds'] {x x' : Evaluation R α}
    (himp : holds' → holds) (hsame : lockstep → holds → holds') (hd : ∀ b, Q d b)
    (hx : Better c lockstep Q x x') :
    Better c lockstep Q
      (if holds then do Work.change .meet; addIssue path code message; return d else x)
      (if holds' then do Work.change .meet; addIssue path code message'; return d else x') := by
  by_cases hholds : holds
  · rw [if_pos hholds]
    by_cases hholds' : holds'
    · rw [if_pos hholds']
      exact (Covers.change keeps_meet keeps_meet (fun _ => rfl) fun _ => rfl).bind_eq fun _ =>
        covers_reject (hd d)
    · rw [if_neg hholds']
      exact covers_of_met (fun hlock => hholds' (hsame hlock hholds)) hd hx.right
  · rw [if_neg hholds, if_neg fun h => hholds (himp h)]
    exact hx

theorem covers_readKeysLoop (h : Larger c limits lockstep) (forIn : List KeyRead)
    (keys : List String) :
    Better c lockstep KeysKept (readKeysLoop c path forIn keys)
      (readKeysLoop (c.withLimits limits) path forIn keys) := by
  induction forIn generalizing keys with
  | nil => exact .pure (keysKept_refl _)
  | cons first rest ih =>
    cases first with
    | own key =>
      refine covers_consume h (keysKept_error _) ?_
      refine covers_limit (fun hlt => ?_) (fun hlock hlt => ?_) (keysKept_error _) (ih _)
      · exact Nat.lt_of_le_of_lt h.properties hlt
      · exact (h.same hlock) ▸ hlt
    | inherited => exact ih keys
    | unreadable => exact .pure (keysKept_refl _)

theorem covers_readKeys (h : Larger c limits lockstep) (forIn : List KeyRead) :
    Better c lockstep KeysKept (readKeys c forIn path)
      (readKeys (c.withLimits limits) forIn path) :=
  covers_consume h (keysKept_error _) (covers_readKeysLoop h forIn [])

end Loops

/-! ## deepEqual -/

section DeepEqual

variable {path : Path}

/-- Comparing goes on under larger limits where it does under smaller ones. -/
def PendingKept {α : Type} (r r' : Option α) : Prop := ∀ pending, r = some pending → r' = some pending

theorem pendingKept_refl {α : Type} (r : Option α) : PendingKept r r := fun _ h => h

theorem pendingKept_none {α : Type} (r : Option α) : PendingKept none r := by
  intro pending h
  cases h

theorem covers_pushItems (h : Larger c limits lockstep) (left right : Nat → Option (Value R))
    (count : Nat) (pending : List (EqualPair R)) :
    Better c lockstep PendingKept (pushItems c left right path count pending)
      (pushItems (c.withLimits limits) left right path count pending) := by
  induction count generalizing pending with
  | zero => exact .pure (pendingKept_refl _)
  | succ index ih =>
    refine covers_consume h pendingKept_none ?_
    cases left index with
    | none => exact .pure (pendingKept_refl _)
    | some l =>
      cases right index with
      | none => exact .pure (pendingKept_refl _)
      | some r => exact ih _

theorem covers_pushMembers (h : Larger c limits lockstep)
    (left right : String → Option (Option (Value R))) (keys : List (String × String))
    (pending : List (EqualPair R)) :
    Better c lockstep PendingKept (pushMembers c left right path keys pending)
      (pushMembers (c.withLimits limits) left right path keys pending) := by
  induction keys generalizing pending with
  | nil => exact .pure (pendingKept_refl _)
  | cons first rest ih =>
    obtain ⟨leftKey, rightKey⟩ := first
    unfold pushMembers
    split
    · exact .pure (pendingKept_refl _)
    · refine covers_consume h pendingKept_none ?_
      split
      · exact ih _
      · exact .pure (pendingKept_refl _)

theorem covers_expandPair (h : Larger c limits lockstep) (left right : R)
    (pending : List (EqualPair R)) :
    Better c lockstep PendingKept (expandPair c left right path pending)
      (expandPair (c.withLimits limits) left right path pending) := by
  unfold expandPair
  rw [show (c.withLimits limits).heap = c.heap from rfl]
  split
  · refine covers_consume h pendingKept_none ?_
    split
    -- the limit on the items only refuses more under the smaller limits
    · refine covers_limit (fun hor => ?_) (fun hlock hor => ?_) pendingKept_none ?_
      · exact hor.imp (Nat.lt_of_le_of_lt h.properties) (Nat.lt_of_le_of_lt h.properties)
      · exact (h.same hlock) ▸ hor
      · split
        · exact .pure (pendingKept_refl _)
        · exact covers_pushItems h _ _ _ _
    · exact .pure (pendingKept_refl _)
  · next leftIn leftOwn leftGet rightIn rightOwn rightGet _ _ =>
    -- keys are the same in both runs unless the first one failed to read them
    have hdiffer : ∀ r r' : Except ReadKeysError (List String), KeysKept r r' → r ≠ r' →
        ∃ e, r = .error e := by
      intro r r' hkept hne
      cases r with
      | error e => exact ⟨e, rfl⟩
      | ok keys => exact absurd (hkept keys rfl).symm hne
    refine (covers_readKeys h leftIn).bind (fun leftKeys => ?_) fun a b hkept hne => ?_
    · refine (covers_readKeys h rightIn).bind (fun rightKeys => ?_) fun a b hkept hne => ?_
      · split
        · split
          · exact .pure (pendingKept_refl _)
          · exact covers_pushMembers h _ _ _ _
        · exact .pure (pendingKept_refl _)
      obtain ⟨e, rfl⟩ := hdiffer a b hkept hne
      cases leftKeys <;> exact .of_forall pendingKept_none _
    -- the first run has no keys, so it finds nothing equal
    · obtain ⟨e, rfl⟩ := hdiffer a b hkept hne
      exact fun _ _ _ _ _ => pendingKept_none _
  · exact .pure (pendingKept_refl _)

theorem Larger.refl (c : Context R) : Larger c c.compiled.limits True :=
  ⟨Nat.le_refl _, Nat.le_refl _, fun _ => rfl⟩

variable [DecidableEq R]

theorem covers_deepEqualStep (h : Larger c limits lockstep)
    {next next' : List (EqualPair R) → List (R × R) → Evaluation R Bool}
    (hnext : ∀ pending seen, Better c lockstep (· ≤ ·) (next pending seen) (next' pending seen))
    (pair : EqualPair R) (pending : List (EqualPair R)) (seen : List (R × R)) :
    Better c lockstep (· ≤ ·) (deepEqualStep c next pair pending seen)
      (deepEqualStep (c.withLimits limits) next' pair pending seen) := by
  refine covers_consume h Bool.false_le ?_
  split
  · exact hnext _ _
  · split
    · rw [show (c.withLimits limits).heap = c.heap from rfl]
      split
      · exact .pure le_rfl
      · split
        · split
          · exact .pure le_rfl
          · exact hnext _ _
        · refine (covers_expandPair h _ _ _).bind (fun expanded => ?_) fun a b hkept hne => ?_
          · cases expanded with
            | none => exact .pure le_rfl
            | some pending => exact hnext _ _
          · cases a with
            | none => exact .of_forall Bool.false_le _
            | some pending => exact absurd (hkept pending rfl).symm hne
    · exact .pure le_rfl

omit [DecidableEq R] in
/-- A comparison without fuel has no budget left to fall behind with. -/
theorem covers_exhaust {x' : Evaluation R Bool} (hx : Keeps books x') :
    Better c lockstep (· ≤ ·)
      (do
        Work.change fun s => { s.exhaust path with
          operations := max s.operations c.compiled.limits.maxOperations }
        return false) x' := by
  have hleft : Keeps books (do
      Work.change fun s : EvaluationState R => { s.exhaust path with
        operations := max s.operations c.compiled.limits.maxOperations }
      return false) := (keeps_exhaust _).bind fun _ => .pure false
  refine ⟨hleft, hx, fun s s' hstep hspare hlost => ?_⟩
  have hspent : c.compiled.limits.maxOperations ≤
      max s.operations c.compiled.limits.maxOperations := Nat.le_max_right _ _
  refine ⟨Bool.false_le _, .inr ⟨Nat.lt_succ_self _, .inr hspent⟩, ?_, .inr hspent⟩
  rw [hleft.frame, hx.frame]
  exact hstep.1

theorem covers_deepEqualLoop_refl (c : Context R) (fuel : Nat) (pending : List (EqualPair R))
    (seen : List (R × R)) : Better c True (· ≤ ·) (deepEqualLoop c fuel pending seen)
      (deepEqualLoop c fuel pending seen) := by
  induction fuel generalizing pending seen with
  | zero =>
    cases pending with
    | nil => exact .pure le_rfl
    | cons pair pending => exact covers_exhaust ((keeps_exhaust _).bind fun _ => .pure false)
  | succ fuel ih =>
    cases pending with
    | nil => exact .pure le_rfl
    | cons pair pending => exact covers_deepEqualStep (.refl c) ih pair pending seen

theorem covers_deepEqualLoop (h : Larger c limits lockstep) {fuel fuel' : Nat}
    (hfuel : fuel ≤ fuel') (pending : List (EqualPair R)) (seen : List (R × R)) :
    Better c lockstep (· ≤ ·) (deepEqualLoop c fuel pending seen)
      (deepEqualLoop (c.withLimits limits) fuel' pending seen) := by
  induction fuel generalizing fuel' pending seen with
  | zero =>
    cases pending with
    | nil =>
      unfold deepEqualLoop
      exact .pure le_rfl
    | cons pair pending => exact covers_exhaust (covers_deepEqualLoop_refl _ _ _ _).left
  | succ fuel ih =>
    obtain ⟨fuel', rfl⟩ := Nat.exists_eq_add_of_le' (Nat.le_trans (Nat.succ_pos fuel) hfuel)
    cases pending with
    | nil => exact .pure le_rfl
    | cons pair pending =>
      exact covers_deepEqualStep h (fun _ _ => ih (Nat.le_of_succ_le_succ hfuel) _ _) pair pending
        seen

theorem covers_deepEqual (h : Larger c limits lockstep) (left right : Value R) :
    Better c lockstep (· ≤ ·) (deepEqual c left right path)
      (deepEqual (c.withLimits limits) left right path) :=
  covers_deepEqualLoop h h.operations _ _

end DeepEqual

/-! ## Node evaluators -/

section Nodes

variable {path : Path} {value : Value R}

theorem covers_withCollector {collector : IssueCollector} {x x' : Evaluation R Bool}
    (hx : Better c lockstep (· ≤ ·) x x') :
    Better c lockstep (· ≤ ·) (withCollector collector x) (withCollector collector x') := by
  refine Covers.bracket hx id id (fun _ => rfl) (fun _ => rfl) (fun _ => rfl) ?_
  intro g hg s
  simp only [List.mem_cons, List.not_mem_nil, or_false] at hg
  rcases hg with rfl | rfl <;> exact ⟨rfl, rfl, Iff.rfl, Iff.rfl⟩

theorem covers_addTypeIssue {expected : String} :
    Better c lockstep (· ≤ ·) (do addTypeIssue c path expected value; return false)
      (do addTypeIssue (c.withLimits limits) path expected value; return false) :=
  covers_reject le_rfl

theorem covers_expectBound {bound : Option Number} {holds : Number → Bool} {code text : String} :
    Better c lockstep (· ≤ ·) (expectBound c bound holds path code text)
      (expectBound (c.withLimits limits) bound holds path code text) := by
  cases bound with
  | none => exact .pure le_rfl
  | some bound => exact covers_expect

theorem covers_evaluateNumber (plan : NumberPlan) :
    Better c lockstep (· ≤ ·) (evaluateNumber c plan value path)
      (evaluateNumber (c.withLimits limits) plan value path) := by
  unfold evaluateNumber
  split
  · split
    · exact covers_addTypeIssue
    · exact covers_allHold (.cons covers_expectBound (.cons covers_expectBound
        (.cons covers_expectBound (.cons covers_expectBound (.cons covers_expectBound .nil)))))
  · exact covers_addTypeIssue

theorem covers_expectPattern {pattern : Option String} {text : String} :
    Better c lockstep (· ≤ ·) (expectPattern c pattern text path)
      (expectPattern (c.withLimits limits) pattern text path) := by
  unfold expectPattern
  rw [show (c.withLimits limits).host = c.host from rfl]
  split
  · exact .pure le_rfl
  · exact covers_expect
  · exact covers_expect

theorem covers_evaluateString (h : Larger c limits lockstep) (plan : StringPlan) :
    Better c lockstep (· ≤ ·) (evaluateString c plan value path)
      (evaluateString (c.withLimits limits) plan value path) := by
  unfold evaluateString
  split
  · refine (covers_countCharacters h _).guard Bool.false_le ?_
    exact covers_allHold (.cons covers_expect (.cons covers_expect (.cons covers_expectPattern
      (.cons covers_expect .nil))))
  · exact covers_addTypeIssue

variable {nested nested' : Nested R}

section Members

variable (hnested : ∀ plan value path,
  Better c lockstep (· ≤ ·) (nested plan value path) (nested' plan value path))
include hnested

theorem covers_evaluateMember {plan : Plan R} {read : Option (Value R)} {message : String} :
    Better c lockstep (· ≤ ·) (evaluateMember nested plan read path message)
      (evaluateMember nested' plan read path message) := by
  cases read with
  | none => exact covers_reject le_rfl
  | some value => exact hnested _ _ _

theorem covers_evaluateProperty {properties : List (String × Plan R)}
    {read : Option (Option (Value R))} {key : String} :
    Better c lockstep (· ≤ ·) (evaluateProperty nested properties read path key)
      (evaluateProperty nested' properties read path key) := by
  unfold evaluateProperty
  split
  · exact .pure le_rfl
  · exact hnested _ _ _
  · exact covers_reject le_rfl
  · exact .pure le_rfl

theorem covers_evaluateAdditional {plan : Plan R} {read : Option (Option (Value R))}
    {key : String} :
    Better c lockstep (· ≤ ·) (evaluateAdditional c nested plan read path key)
      (evaluateAdditional (c.withLimits limits) nested' plan read path key) := by
  unfold evaluateAdditional
  split
  · exact covers_reject le_rfl
  · exact hnested _ _ _
  · exact covers_reject le_rfl

variable (h : Larger c limits lockstep)
include h

theorem covers_evaluateRest {properties : List (String × Plan R)} {additional : Option (Plan R)}
    {forIn : List KeyRead} {read : String → Option (Option (Value R))} :
    Better c lockstep (· ≤ ·) (evaluateRest c nested properties additional forIn read path)
      (evaluateRest (c.withLimits limits) nested' properties additional forIn read path) := by
  unfold evaluateRest
  split
  · exact .pure le_rfl
  · exact .pure le_rfl
  · refine (covers_readKeys h forIn).bind (fun keys => ?_) fun a b hkept hne => ?_
    · split
      · exact covers_reject le_rfl
      · exact .pure le_rfl
      · refine covers_allHold (List.forall₂_map_left_iff.mpr (List.forall₂_map_right_iff.mpr ?_))
        exact List.forall₂_same.mpr fun key _ => covers_evaluateAdditional hnested
    · cases a with
      | error e => cases e <;> exact fun _ _ _ _ _ => Bool.false_le _
      | ok keys => exact absurd (hkept keys rfl).symm hne

theorem covers_evaluateItems {plan : Nat → Plan R} {item : Nat → Option (Value R)}
    {start count : Nat} :
    Better c lockstep (· ≤ ·) (evaluateItems c nested plan item path start count)
      (evaluateItems (c.withLimits limits) nested' plan item path start count) :=
  covers_forEach h fun _ _ => covers_evaluateMember hnested

theorem covers_evaluateOtherItems {items : Option (Plan R)} {item : Nat → Option (Value R)}
    {start count : Nat} :
    Better c lockstep (· ≤ ·) (evaluateOtherItems c nested items item path start count)
      (evaluateOtherItems (c.withLimits limits) nested' items item path start count) := by
  unfold evaluateOtherItems
  split
  · exact covers_forEach h fun _ _ => covers_expect
  · exact covers_forEach h fun _ _ => .pure le_rfl
  · exact covers_forEach h fun _ _ => .pure le_rfl
  · exact covers_evaluateItems hnested h

theorem covers_countMatches {branches : List (Plan R)} :
    Better c lockstep (· ≤ ·) (countMatches c nested value path branches)
      (countMatches (c.withLimits limits) nested' value path branches) := by
  induction branches with
  | nil => exact .pure le_rfl
  | cons branch rest ih =>
    refine covers_consume h Nat.zero_le ?_
    have hrest : ∀ valid : Bool, Better c lockstep (· ≤ ·)
        (do let others ← countMatches c nested value path rest
            return if valid then others + 1 else others)
        (do let others ← countMatches (c.withLimits limits) nested' value path rest
            return if valid then others + 1 else others) := by
      intro valid
      refine ih.bind (fun others => .pure le_rfl) fun a b hle _ _ _ _ _ _ => ?_
      show (if valid then a + 1 else a) ≤ if valid then b + 1 else b
      split <;> omega
    refine (covers_withCollector (hnested _ _ _)).bind hrest fun a b hle hne => ?_
    -- a branch that matches only under the larger limits
    obtain ⟨rfl, rfl⟩ : a = false ∧ b = true := by
      revert hle hne
      cases a <;> cases b <;> decide
    intro s s' hstep hspare hlost
    have hmore := ih.atLeast s s' hstep hspare hlost
    exact Nat.le_succ_of_le hmore

/-- With nothing lost, a `oneOf` counts the same branches. -/
theorem covers_countBranches {anyOf : List (Plan R)} {oneOf : Bool} :
    Better c lockstep (fun n n' => if oneOf then n = n' else n ≤ n')
      (countBranches c nested anyOf oneOf value path)
      (countBranches (c.withLimits limits) nested' anyOf oneOf value path) := by
  have hloop : Better c lockstep (· ≤ ·) (countMatches c nested value path anyOf)
      (countMatches (c.withLimits limits) nested' value path anyOf) := covers_countMatches hnested h
  have hkeeps : ∀ {x : Evaluation R Nat}, Keeps books x → Keeps books (do
      let before ← Work.read EvaluationState.limitsMet
      let matched ← x
      Work.change fun s => s.closeBranches oneOf before
      return matched) := by
    intro x hx
    refine (Keeps.read _).bind fun before => hx.bind fun _ => Keeps.bind ?_ fun _ => .pure _
    refine ⟨fun _ => rfl, fun _ => Nat.le_refl _, fun _ => Nat.le_refl _, fun s hs => ?_,
      fun _ h => h⟩
    show (s.branchCut || _) = true
    rw [show s.branchCut = true from hs, Bool.true_or]
  refine ⟨hkeeps hloop.left, hkeeps hloop.right, fun s s' hstep hspare hlost => ?_⟩
  have hparts : ((countMatches c nested value path anyOf s).2.branchCut ||
      (oneOf && s.limitsMet ≠ (countMatches c nested value path anyOf s).2.limitsMet)) ≠ true :=
    hlost
  simp only [Bool.or_eq_true, not_or, Bool.and_eq_true, decide_eq_true_eq, ne_eq, not_and,
    not_not] at hparts
  obtain ⟨hcut, hunmet⟩ := hparts
  obtain ⟨hle, hsame, hend⟩ := hloop.outcome s s' hstep hspare hcut
  refine ⟨?_, hsame, hend⟩
  cases oneOf with
  | false => exact hle
  | true =>
    -- no limit was met in a branch, so the two counts agree
    refine hsame.resolve_right fun hgrew => ?_
    have hmet : s.limitsMet = (countMatches c nested value path anyOf s).2.limitsMet := hunmet rfl
    exact absurd hgrew.1 (by rw [show books.met s = s.limitsMet from rfl, hmet]; exact lt_irrefl _)

theorem covers_evaluateUnion {anyOf : List (Plan R)} {oneOf : Bool} :
    Better c lockstep (· ≤ ·) (evaluateUnion c nested anyOf oneOf value path)
      (evaluateUnion (c.withLimits limits) nested' anyOf oneOf value path) := by
  refine (covers_countBranches hnested h).bind (fun matched => ?_) fun a b hle hne => ?_
  · split
    · exact .pure le_rfl
    · exact covers_reject le_rfl
  · cases oneOf with
    | true => exact absurd hle hne
    | false =>
      have hpos : 0 < b := Nat.lt_of_le_of_lt (Nat.zero_le a) (Nat.lt_of_le_of_ne hle hne)
      rw [if_pos (show (!false && decide (0 < b) || false && decide (b = 1)) = true by simp [hpos])]
      exact fun _ _ _ _ _ => Bool.le_true _

theorem covers_evaluateReference {reference : String} [DecidableEq R] :
    Better c lockstep (· ≤ ·) (evaluateReference c nested reference value path)
      (evaluateReference (c.withLimits limits) nested' reference value path) := by
  refine covers_consume h Bool.false_le ?_
  rw [show (c.withLimits limits).compiled.root = c.compiled.root from rfl,
    show (c.withLimits limits).compiled.definitions = c.compiled.definitions from rfl]
  dsimp only
  split
  · exact covers_reject le_rfl
  · next target _ =>
    refine Covers.bind_eq (Covers.read (fun frame : List R × List (RefFrame R) =>
      frame.2.contains ⟨normalizeReference reference, value⟩) (fun _ => rfl) fun _ => rfl)
      fun repeated => ?_
    cases repeated with
    | true =>
      refine Covers.bind_eq (Covers.read (fun frame : List R × List (RefFrame R) =>
        frame.1.any fun r => value = .object r) (fun _ => rfl) fun _ => rfl) fun active => ?_
      exact covers_reject le_rfl
    | false =>
      refine Covers.bracket (hnested _ _ _)
        (fun frame => (frame.1, ⟨normalizeReference reference, value⟩ :: frame.2))
        (fun frame => (frame.1, frame.2.tail)) (fun _ => rfl) (fun _ => rfl) (fun _ => rfl) ?_
      intro g hg s
      simp only [List.mem_cons, List.not_mem_nil, or_false] at hg
      rcases hg with rfl | rfl <;> exact ⟨rfl, rfl, Iff.rfl, Iff.rfl⟩

end Members

variable [DecidableEq R]

theorem covers_withValue {r : R} {body body' : Evaluation R Bool}
    (hbody : Better c lockstep (· ≤ ·) body body') :
    Better c lockstep (· ≤ ·) (withValue r path body) (withValue r path body') := by
  refine Covers.bind_eq (Covers.read (fun frame : List R × List (RefFrame R) =>
    frame.1.contains r) (fun _ => rfl) fun _ => rfl) fun active => ?_
  cases active with
  | true => exact covers_reject le_rfl
  | false =>
    refine Covers.bracket hbody (fun frame => (r :: frame.1, frame.2))
      (fun frame => (frame.1.erase r, frame.2)) (fun _ => rfl) (fun _ => rfl) (fun s => ?_) ?_
    · exact Prod.ext (List.erase_cons_head ..) rfl
    · intro g hg s
      simp only [List.mem_cons, List.not_mem_nil, or_false] at hg
      rcases hg with rfl | rfl <;> exact ⟨rfl, rfl, Iff.rfl, Iff.rfl⟩

theorem covers_withArray {body body' : Nat → (Nat → Option (Value R)) → Evaluation R Bool}
    (hbody : ∀ length item, Better c lockstep (· ≤ ·) (body length item) (body' length item)) :
    Better c lockstep (· ≤ ·) (withArray c value path body)
      (withArray (c.withLimits limits) value path body') := by
  unfold withArray
  rw [show (c.withLimits limits).heap = c.heap from rfl]
  split
  · split
    · refine covers_withValue ?_
      split
      · exact covers_reject le_rfl
      · exact hbody _ _
    · exact covers_addTypeIssue
  · exact covers_addTypeIssue

theorem covers_evaluateEnum (h : Larger c limits lockstep) (values : List (Value R)) :
    Better c lockstep (· ≤ ·) (evaluateEnum c value path values)
      (evaluateEnum (c.withLimits limits) value path values) := by
  induction values with
  | nil => exact covers_reject le_rfl
  | cons candidate rest ih =>
    refine covers_consume h Bool.false_le ?_
    refine (covers_deepEqual h _ _).bind (fun equal => ?_) fun a b hle hne => ?_
    · cases equal with
      | true => exact .pure le_rfl
      | false => exact ih
    · obtain ⟨rfl, rfl⟩ : a = false ∧ b = true := by
        revert hle hne
        cases a <;> cases b <;> decide
      exact fun _ _ _ _ _ => Bool.le_true _

/-- One level under larger limits, when the levels below it are. -/
theorem covers_evaluateKind (h : Larger c limits lockstep) (hnested : ∀ plan value path,
      Better c lockstep (· ≤ ·) (nested plan value path) (nested' plan value path))
    (kind : Kind R) : Better c lockstep (· ≤ ·) (evaluateKind c nested kind value path)
      (evaluateKind (c.withLimits limits) nested' kind value path) := by
  -- one case for each kind; what consumes or recurses has its own lemma
  cases kind with
  | any => exact .pure le_rfl
  | never =>
    dsimp only [evaluateKind]
    exact covers_expect
  | null =>
    dsimp only [evaluateKind]
    split
    · exact .pure le_rfl
    · exact covers_addTypeIssue
  | boolean =>
    dsimp only [evaluateKind]
    split
    · exact .pure le_rfl
    · exact covers_addTypeIssue
  | string plan => exact covers_evaluateString h plan
  | number plan => exact covers_evaluateNumber plan
  | literal expected =>
    refine (covers_deepEqual h _ _).bind (fun equal => ?_) fun a b hle hne => ?_
    · cases equal with
      | true => exact .pure le_rfl
      | false => exact covers_reject le_rfl
    -- the comparison of the first run was cut off, so its answer is the smaller one
    · obtain ⟨rfl, rfl⟩ : a = false ∧ b = true := by
        revert hle hne
        cases a <;> cases b <;> decide
      exact fun _ _ _ _ _ => Bool.le_true _
  | enum values => exact covers_evaluateEnum h values
  | array items prefixItems minItems maxItems =>
    refine covers_withArray fun length item => covers_allHold ?_
    exact .cons covers_expect (.cons covers_expect (.cons (covers_evaluateItems hnested h)
      (.cons (covers_evaluateOtherItems hnested h) .nil)))
  | tuple items rest =>
    refine covers_withArray fun length item => covers_allHold (.cons ?_ (.cons ?_ .nil))
    · refine covers_forEach h fun index _ => ?_
      split
      · exact covers_expect
      · exact covers_evaluateMember hnested
    · split
      · exact .pure le_rfl
      · split
        · exact covers_expect
        · exact covers_expect
        · exact covers_evaluateItems hnested h
  | object properties required additional =>
    dsimp only [evaluateKind]
    unfold evaluateObject
    rw [show (c.withLimits limits).heap = c.heap from rfl]
    -- a plain object is checked member by member
    split
    · split
      · refine covers_withValue (covers_allHold (.cons ?_ (.cons ?_ (.cons ?_ .nil))))
        · refine covers_forEach h fun key _ => ?_
          unfold evaluateRequired
          split
          · exact covers_reject le_rfl
          · exact covers_expect
        · exact covers_forEach h fun key _ => covers_evaluateProperty hnested
        · exact covers_evaluateRest hnested h
      · exact covers_addTypeIssue
    · exact covers_addTypeIssue
  | union anyOf oneOf => exact covers_evaluateUnion hnested h
  | oneOf anyOf => exact covers_evaluateUnion hnested h
  | intersection allOf => exact covers_forEach h fun branch _ => hnested _ _ _
  | ref reference => exact covers_evaluateReference hnested h

/-- What comes before the depth is looked at. -/
theorem covers_evaluateStep (h : Larger c limits lockstep) {deeper deeper' : Option (Nested R)}
    (hdeeper : ∀ kind, Better c lockstep (· ≤ ·) (evaluateAtDepth c deeper kind value path)
      (evaluateAtDepth (c.withLimits limits) deeper' kind value path))
    (plan : Plan R) : Better c lockstep (· ≤ ·) (evaluateStep c deeper plan value path)
      (evaluateStep (c.withLimits limits) deeper' plan value path) := by
  refine covers_consume h Bool.false_le ?_
  cases plan with
  | boolean allowed => exact covers_expect
  | node nullable optional kind =>
    dsimp only
    split
    · exact .pure le_rfl
    · split
      · exact .pure le_rfl
      · exact hdeeper kind

/-- A level below which the depth limit of both runs stops them. -/
theorem covers_atDepth_none {kind : Kind R} :
    Better c lockstep (· ≤ ·) (evaluateAtDepth c none kind value path)
      (evaluateAtDepth (c.withLimits limits) none kind value path) :=
  (Covers.change keeps_meet keeps_meet (fun _ => rfl) fun _ => rfl).bind_eq fun _ =>
    covers_reject le_rfl

theorem covers_atDepth_some (h : Larger c limits lockstep) (hnested : ∀ plan value path,
      Better c lockstep (· ≤ ·) (nested plan value path) (nested' plan value path))
    {kind : Kind R} : Better c lockstep (· ≤ ·) (evaluateAtDepth c (some nested) kind value path)
      (evaluateAtDepth (c.withLimits limits) (some nested') kind value path) :=
  covers_evaluateKind h hnested kind

theorem covers_evaluate_refl (c : Context R) (room : Nat) (plan : Plan R) (value : Value R)
    (path : Path) :
    Better c True (· ≤ ·) (evaluate c room plan value path) (evaluate c room plan value path) := by
  induction room generalizing plan value path with
  | zero => exact covers_evaluateStep (.refl c) (fun _ => covers_atDepth_none) plan
  | succ room ih => exact covers_evaluateStep (.refl c) (fun _ => covers_atDepth_some (.refl c) ih) plan

/-- The whole evaluation under larger limits. -/
theorem covers_evaluate (h : Larger c limits lockstep) {room room' : Nat} (hroom : room ≤ room')
    (hsame : lockstep → room = room') (plan : Plan R) (value : Value R) (path : Path) :
    Better c lockstep (· ≤ ·) (evaluate c room plan value path)
      (evaluate (c.withLimits limits) room' plan value path) := by
  induction room generalizing room' plan value path with
  | zero =>
    cases room' with
    | zero => exact covers_evaluateStep h (fun _ => covers_atDepth_none) plan
    | succ room' =>
      have hfree : ¬lockstep := fun hlock => absurd (hsame hlock) (Nat.succ_ne_zero room').symm
      refine covers_evaluateStep h (fun kind => covers_of_met hfree Bool.false_le ?_) plan
      exact (covers_atDepth_some (.refl (c.withLimits limits))
        (covers_evaluate_refl (c.withLimits limits) room')).left
  | succ room ih =>
    obtain ⟨room', rfl⟩ := Nat.exists_eq_add_of_le' (Nat.le_trans (Nat.succ_pos room) hroom)
    refine covers_evaluateStep h (fun _ => covers_atDepth_some h fun plan value path => ?_) plan
    exact ih (Nat.le_of_succ_le_succ hroom) (fun hlock => Nat.succ.inj (hsame hlock)) plan value path

end Nodes

end Covering

section Results

variable {R : Type} [DecidableEq R]

theorem valid_eq (host : Host) (heap : Heap R) (compiled : CompiledValidationPlan R)
    (value : Value R) : (evaluateValidationPlan host heap compiled value).valid =
      (evaluateRoot host heap compiled value).1 := by
  unfold evaluateValidationPlan
  cases h : (evaluateRoot host heap compiled value).1 <;> simp [h]

/-- A value that is valid under some limits, none of which cut a branch of a `oneOf` short, is valid
under larger ones, unless the larger depth or property limit leads it into the operation limit. -/
theorem valid_of_within (host : Host) (heap : Heap R) (compiled : CompiledValidationPlan R)
    (limits : Limits) (value : Value R) (hwithin : compiled.limits.Within limits)
    (hvalid : (evaluateValidationPlan host heap compiled value).valid = true)
    (hcut : (evaluateRoot host heap compiled value).2.branchCut = false) :
    (evaluateValidationPlan host heap { compiled with limits := limits } value).valid = true ∨
      ((evaluateRoot host heap { compiled with limits := limits } value).2.operationLimitReported =
          true ∧
        (compiled.limits.maxDepth < limits.maxDepth ∨
          compiled.limits.maxProperties < limits.maxProperties)) := by
  rw [valid_eq] at hvalid ⊢
  -- no branch of the first run was cut short, so its answer is final
  have hlost : ¬books.lost (evaluateRoot host heap compiled value).2 := by
    show ¬_ = true
    rw [hcut]
    decide
  -- with both limits equal the runs go in lockstep; otherwise the second must not run out
  have hbetter : ∀ lockstep : Prop, (lockstep → compiled.limits.maxDepth = limits.maxDepth) →
      (lockstep → compiled.limits.maxProperties = limits.maxProperties) →
      (lockstep ∨ ¬books.overdrawn
        (evaluateRoot host heap { compiled with limits := limits } value).2) →
      (evaluateRoot host heap { compiled with limits := limits } value).1 = true := by
    intro lockstep hdepth hproperties hspare
    have hcovers := covers_evaluate (c := ⟨host, heap, compiled⟩)
      ⟨hwithin.maxOperations, hwithin.maxProperties, hproperties⟩
      (Nat.succ_le_succ hwithin.maxDepth) (fun hlock => congrArg (· + 1) (hdepth hlock))
      compiled.root value []
    have hle := hcovers.atLeast { primaryCollector := { maxIssues := compiled.limits.maxIssues } }
      { primaryCollector := { maxIssues := limits.maxIssues } } ⟨rfl, .inl fun _ => rfl⟩ hspare hlost
    exact Bool.eq_true_of_true_le (hvalid ▸ hle)
  -- by whether depth and properties are the same
  by_cases hsame : compiled.limits.maxDepth = limits.maxDepth ∧
      compiled.limits.maxProperties = limits.maxProperties
  · exact .inl (hbetter True (fun _ => hsame.1) (fun _ => hsame.2) (.inl trivial))
  · by_cases hover : (evaluateRoot host heap { compiled with limits := limits }
        value).2.operationLimitReported = true
    · have := hwithin.maxDepth
      have := hwithin.maxProperties
      exact .inr ⟨hover, by omega⟩
    · exact .inl (hbetter False False.elim False.elim (.inr hover))

end Results

/-! ## Where larger limits turn a value invalid -/

section Examples

/-- Nothing but plain strings and null is looked at. -/
def plainHost : Host where
  pattern _ := none
  validateValidationFormat _ _ := true
  isMultipleOf _ _ := true
  showNumber _ := ""
  stringify s := s
  displayValidationKey s := s

def noObjects : Heap Empty := fun r => nomatch r

def anyPlan : Plan Empty := .node false false .any

/-- Two levels down to a string, or anything. -/
def deepOrAny : Plan Empty :=
  .node false false (.union [.node false false (.intersection [.node false false (.string {})]),
    anyPlan] false)

def limitsOf (maxDepth maxOperations : Nat) : Limits := ⟨maxDepth, 100, maxOperations, 10000⟩

def validUnder (root : Plan Empty) (limits : Limits) (value : Value Empty) : Bool :=
  (evaluateValidationPlan plainHost noObjects ⟨root, [], limits⟩ value).valid

theorem valid_of_within_deep :
    validUnder deepOrAny (limitsOf 64 100) (.string "abcdefgh") = true ∨
      ((evaluateRoot plainHost noObjects ⟨deepOrAny, [], limitsOf 64 100⟩
          (.string "abcdefgh")).2.operationLimitReported = true ∧
        ((limitsOf 1 7).maxDepth < (limitsOf 64 100).maxDepth ∨
          (limitsOf 1 7).maxProperties < (limitsOf 64 100).maxProperties)) :=
  valid_of_within plainHost noObjects ⟨deepOrAny, [], limitsOf 1 7⟩ (limitsOf 64 100)
    (.string "abcdefgh") ⟨by decide, by decide, by decide, by decide⟩ (by decide) (by decide)

/-- A larger depth limit lets the first branch of an `anyOf` spend the operations of the second, and
a larger operation limit lets a `oneOf` count a branch that it had not reached. -/
theorem larger_limits_reject :
    ((limitsOf 1 7).Within (limitsOf 64 7) ∧
      validUnder deepOrAny (limitsOf 1 7) (.string "abcdefgh") = true ∧
      validUnder deepOrAny (limitsOf 64 7) (.string "abcdefgh") = false) ∧
    (limitsOf 64 3).Within (limitsOf 64 100) ∧
      validUnder (.node false false (.oneOf [anyPlan, anyPlan])) (limitsOf 64 3) .null = true ∧
      validUnder (.node false false (.oneOf [anyPlan, anyPlan])) (limitsOf 64 100) .null = false := by
  refine ⟨⟨⟨?_, ?_, ?_, ?_⟩, ?_, ?_⟩, ⟨?_, ?_, ?_, ?_⟩, ?_, ?_⟩ <;> decide

end Examples

end FluxFast.Validation
