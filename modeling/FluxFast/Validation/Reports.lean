import Mathlib.Logic.Relation
import FluxFast.Theory.Answerable
import FluxFast.Validation.LargerLimits

/-!
# Reports — the report of a validation

Every validation ends within its operations and reports what it rejects.  On a value without cycles
and a plan whose references consume a level of the value, it never speaks of a cycle.
-/

namespace FluxFast.Validation

open FluxFast.Theory

/-! ## The limits of an accepted plan -/

/-- The limits as the caller gives them; null and undefined are left out alike. -/
structure ValidationLimits (R : Type) where
  maxDepth : Value R := .undefined
  maxIssues : Value R := .undefined
  maxOperations : Value R := .undefined
  maxProperties : Value R := .undefined

structure ValidationOptions (R : Type) extends ValidationLimits R where
  limits : ValidationLimits R := {}

/-- `left ?? right`. -/
def Value.orElse {R : Type} (left right : Value R) : Value R :=
  match left with
  | .undefined | .null => right
  | value => value

def defaultLimits : Limits where
  maxDepth := 64
  maxIssues := 100
  maxOperations := 100000
  maxProperties := 10000

def maxSafeInteger : Int := 2 ^ 53 - 1

/-- A safe integer from `least` on. -/
def requireLimit {R : Type} (least : Int) (message : String) (value : Value R) :
    Except String Nat :=
  match value with
  | .number n =>
    match n.toRat? with
    | none => .error message
    | some q =>
      if q.den = 1 ∧ -maxSafeInteger ≤ q.num ∧ q.num ≤ maxSafeInteger ∧ least ≤ q.num then
        .ok q.num.toNat
      else .error message
  | _ => .error message

def validateLimits {R : Type} (options : ValidationOptions R) : Except String Limits := do
  let read (own nested : Value R) (default : Nat) : Value R :=
    (own.orElse nested).orElse (.number (.finite default))
  let maxDepth ← requireLimit 0 "[fluxfast] maxDepth must be a non-negative integer"
    (read options.maxDepth options.limits.maxDepth defaultLimits.maxDepth)
  let maxIssues ← requireLimit 1 "[fluxfast] maxIssues must be a positive integer"
    (read options.maxIssues options.limits.maxIssues defaultLimits.maxIssues)
  let maxOperations ← requireLimit 1 "[fluxfast] maxOperations must be a positive integer"
    (read options.maxOperations options.limits.maxOperations defaultLimits.maxOperations)
  let maxProperties ← requireLimit 1 "[fluxfast] maxProperties must be a positive integer"
    (read options.maxProperties options.limits.maxProperties defaultLimits.maxProperties)
  return { maxDepth, maxIssues, maxOperations, maxProperties }

theorem requireLimit_ok {R : Type} {least : Int} {message : String} {value : Value R} {n : Nat}
    (h : requireLimit least message value = .ok n) : least ≤ n := by
  unfold requireLimit at h
  split at h
  · split at h
    · cases h
    · split at h
      · next hbounds =>
        cases h
        omega
      · cases h
  · cases h

/-- The defaults pass their own checks. -/
theorem validateLimits_default {R : Type} :
    validateLimits ({} : ValidationOptions R) = .ok defaultLimits := by
  rfl

theorem validateLimits_ok {R : Type} {options : ValidationOptions R} {limits : Limits}
    (h : validateLimits options = .ok limits) :
    1 ≤ limits.maxIssues ∧ 1 ≤ limits.maxOperations ∧ 1 ≤ limits.maxProperties := by
  simp only [validateLimits, bind, Except.bind, pure, Except.pure] at h
  split at h
  · cases h
  split at h
  · cases h
  · next hissues =>
    split at h
    · cases h
    · next hoperations =>
      split at h
      · cases h
      · next hproperties =>
        cases h
        have hi := requireLimit_ok hissues
        have ho := requireLimit_ok hoperations
        have hp := requireLimit_ok hproperties
        refine ⟨?_, ?_, ?_⟩ <;> dsimp only <;> omega

/-! ## The accounts -/

/-- The codes that speak of a cycle. -/
def cyclicCodes : List String := ["cycle", "refCycle"]

/-- The collector has room for an issue, and in a quiet validation none of its issues speaks of a
cycle. -/
structure IssueCollector.Fit (quiet : Prop) (collector : IssueCollector) : Prop where
  room : 1 ≤ collector.maxIssues
  bounded : collector.issues.length ≤ collector.maxIssues
  acyclic : quiet → ∀ issue ∈ collector.issues, issue.code ∉ cyclicCodes

theorem IssueCollector.fit_new {quiet : Prop} {maxIssues : Nat} (h : 1 ≤ maxIssues) :
    Fit quiet { maxIssues := maxIssues } :=
  ⟨h, Nat.zero_le _, fun _ _ hmem => absurd hmem List.not_mem_nil⟩

/-- A collector with room is not empty after an issue. -/
theorem IssueCollector.Fit.issues_add {quiet : Prop} {collector : IssueCollector}
    (h : collector.Fit quiet) (issue : Issue) : (collector.add issue).issues ≠ [] := by
  unfold IssueCollector.add
  split
  · next hfull =>
    intro hnil
    have hroom := h.room
    rw [hnil] at hfull
    exact absurd hfull (by simp only [List.length_nil]; omega)
  · exact List.append_ne_nil_of_right_ne_nil _ (List.cons_ne_nil _ _)

theorem IssueCollector.maxIssues_add (collector : IssueCollector) (issue : Issue) :
    (collector.add issue).maxIssues = collector.maxIssues := by
  unfold IssueCollector.add
  split <;> rfl

theorem IssueCollector.Fit.add {quiet : Prop} {collector : IssueCollector}
    (h : collector.Fit quiet) {issue : Issue} (hcode : quiet → issue.code ∉ cyclicCodes) :
    (collector.add issue).Fit quiet := by
  unfold IssueCollector.add
  split
  · exact h
  · next hfull =>
    refine ⟨h.room, ?_, fun hquiet other hmem => ?_⟩
    · show (collector.issues ++ [issue]).length ≤ collector.maxIssues
      rw [List.length_append, List.length_singleton]
      omega
    · rcases List.mem_append.mp hmem with hold | hnew
      · exact h.acyclic hquiet other hold
      · rw [List.mem_singleton.mp hnew]
        exact hcode hquiet

namespace EvaluationState

variable {R : Type}

/-- `state.collector`. -/
def current (s : EvaluationState R) : IssueCollector :=
  s.branchCollectors.headD s.primaryCollector

structure Sound (quiet : Prop) (maxOperations : Nat) (s : EvaluationState R) : Prop where
  operations : s.operations ≤ maxOperations
  primary : s.primaryCollector.Fit quiet
  branches : ∀ collector ∈ s.branchCollectors, collector.Fit quiet
  reported : s.operationLimitReported = true → s.primaryCollector.issues ≠ []

/-- What a computation leaves of the state it began in. -/
structure Extends (s t : EvaluationState R) : Prop where
  activeValues : t.activeValues = s.activeValues
  refs : t.refs = s.refs
  maxIssues : t.primaryCollector.maxIssues = s.primaryCollector.maxIssues
  reported : s.operationLimitReported = true → t.operationLimitReported = true
  primary : s.primaryCollector.issues ≠ [] → t.primaryCollector.issues ≠ []
  branches : t.branchCollectors.length = s.branchCollectors.length
  outer : t.branchCollectors.tail = s.branchCollectors.tail
  current : s.current.issues ≠ [] → t.current.issues ≠ []

theorem Extends.refl (s : EvaluationState R) : Extends s s where
  activeValues := rfl
  refs := rfl
  maxIssues := rfl
  reported h := h
  primary h := h
  branches := rfl
  outer := rfl
  current h := h

theorem Extends.trans {s t u : EvaluationState R} (h : Extends s t) (h' : Extends t u) :
    Extends s u where
  activeValues := h'.activeValues.trans h.activeValues
  refs := h'.refs.trans h.refs
  maxIssues := h'.maxIssues.trans h.maxIssues
  reported hs := h'.reported (h.reported hs)
  primary hs := h'.primary (h.primary hs)
  branches := h'.branches.trans h.branches
  outer := h'.outer.trans h.outer
  current hs := h'.current (h.current hs)

/-- The operation limit is on record, or an issue in the collector of the branch. -/
def Blamed (s : EvaluationState R) : Prop :=
  s.operationLimitReported = true ∨ s.current.issues ≠ []

def accounts (quiet : Prop) (maxOperations : Nat) :
    Accounts (EvaluationState R) (List R × List (RefFrame R)) where
  frame s := (s.activeValues, s.refs)
  sound := Sound quiet maxOperations
  later := Extends
  blamed := Blamed
  later_refl := Extends.refl
  later_trans _ _ _ := Extends.trans
  frame_later _ _ h := Prod.ext h.activeValues h.refs
  blamed_later _ _ h hs := hs.imp h.reported h.current

variable {quiet : Prop} {maxOperations : Nat} {s : EvaluationState R} {issue : Issue}

theorem Sound.add (h : s.Sound quiet maxOperations) (hcode : quiet → issue.code ∉ cyclicCodes) :
    (s.add issue).Sound quiet maxOperations := by
  obtain ⟨hoperations, hprimary, hbranches, hreported⟩ := h
  unfold EvaluationState.add
  split
  · exact ⟨hoperations, hprimary.add hcode, hbranches, fun _ => hprimary.issues_add issue⟩
  · next collector outer heq =>
    refine ⟨hoperations, hprimary, fun other hmem => ?_, hreported⟩
    rw [heq] at hbranches
    rcases List.mem_cons.mp hmem with rfl | houter
    · exact (hbranches collector List.mem_cons_self).add hcode
    · exact hbranches other (List.mem_cons_of_mem _ houter)

theorem Sound.current_add (h : s.Sound quiet maxOperations) (issue : Issue) :
    (s.add issue).current.issues ≠ [] := by
  unfold EvaluationState.add
  split
  · next heq =>
    show (s.branchCollectors.headD (s.primaryCollector.add issue)).issues ≠ []
    rw [heq]
    exact h.primary.issues_add issue
  · next collector outer heq =>
    exact (h.branches collector (heq ▸ List.mem_cons_self)).issues_add issue

theorem Sound.extends_add (h : s.Sound quiet maxOperations) : Extends s (s.add issue) := by
  have hcurrent := h.current_add issue
  unfold EvaluationState.add at hcurrent ⊢
  split at hcurrent
  · exact ⟨rfl, rfl, IssueCollector.maxIssues_add _ _, id, fun _ => h.primary.issues_add issue, rfl,
      rfl, fun _ => hcurrent⟩
  · next collector outer heq =>
    refine ⟨rfl, rfl, rfl, id, id, ?_, ?_, fun _ => hcurrent⟩
    · rw [heq, List.length_cons, List.length_cons]
    · rw [heq, List.tail_cons, List.tail_cons]

/-- The operation limit is reported to the primary collector, whatever branch is open. -/
theorem Sound.exhaust (h : s.Sound quiet maxOperations) (path : Path) :
    (s.exhaust path).Sound quiet maxOperations := by
  refine ⟨h.operations, ?_, h.branches, fun _ => ?_⟩
  · show IssueCollector.Fit quiet (if s.operationLimitReported = true then s.primaryCollector
      else s.primaryCollector.add _)
    split
    · exact h.primary
    · exact h.primary.add fun _ => (by decide : "maxOperations" ∉ cyclicCodes)
  · show (if s.operationLimitReported = true then s.primaryCollector
      else s.primaryCollector.add _).issues ≠ []
    split
    · next hreported => exact h.reported hreported
    · exact h.primary.issues_add _

theorem Sound.extends_exhaust (h : s.Sound quiet maxOperations) (path : Path) :
    Extends s (s.exhaust path) := by
  have hprimary := (h.exhaust path).reported rfl
  refine ⟨rfl, rfl, ?_, fun _ => rfl, fun _ => hprimary, rfl, rfl, fun hs => ?_⟩
  · show (if s.operationLimitReported = true then s.primaryCollector
      else s.primaryCollector.add _).maxIssues = _
    split
    · rfl
    · exact IssueCollector.maxIssues_add _ _
  · cases hbranches : s.branchCollectors with
    | nil =>
      show (s.branchCollectors.headD (s.exhaust path).primaryCollector).issues ≠ []
      rw [hbranches]
      exact hprimary
    | cons collector outer =>
      unfold current at hs
      show (s.branchCollectors.headD _).issues ≠ []
      rw [hbranches] at hs ⊢
      exact hs

end EvaluationState

/-! ## The primitives -/

section Reporting

variable {R : Type} {c : Context R} {quiet : Prop}

abbrev Surroundings (R : Type) := List R × List (RefFrame R)

/-- The computation keeps the accounts of the evaluator. -/
abbrev Reports {α : Type} (c : Context R) (quiet : Prop) (f : Surroundings R) (bad : α → Prop)
    (x : Evaluation R α) : Prop :=
  Answers (EvaluationState.accounts quiet c.compiled.limits.maxOperations) f bad x

/-- No answer is bad: where a comparison fails, or a branch, its caller has the word. -/
abbrev Unblamed {α : Type} (_ : α) : Prop := False

variable {f : Surroundings R} {path : Path} {code message : String}

theorem reports_addIssue (hcode : quiet → code ∉ cyclicCodes) :
    Reports c quiet f (fun _ => True) (addIssue path code message) :=
  fun _ _ hs => ⟨hs.add hcode, hs.extends_add, fun _ => .inr (hs.current_add _)⟩

/-- An answer that comes with an issue. -/
theorem reports_reject {α : Type} {bad : α → Prop} {d : α} (hcode : quiet → code ∉ cyclicCodes) :
    Reports c quiet f bad (do addIssue path code message; return d) :=
  (reports_addIssue hcode).then_any fun _ => .pure id

theorem reports_addTypeIssue {expected : String} {value : Value R} :
    Reports c quiet f (· = false) (do addTypeIssue c path expected value; return false) :=
  reports_reject fun _ => by decide

/-- The books on the limits are no part of the report. -/
theorem reports_change {g : EvaluationState R → EvaluationState R}
    (hg : ∀ s, ∃ limitsMet branchCut,
      g s = { s with limitsMet := limitsMet, branchCut := branchCut }) :
    Reports c quiet f (fun _ => False) (Work.change g) := by
  refine .change (fun s hs => ?_) fun s _ => ?_
  · obtain ⟨limitsMet, branchCut, heq⟩ := hg s
    rw [heq]
    exact ⟨hs.operations, hs.primary, hs.branches, hs.reported⟩
  · obtain ⟨limitsMet, branchCut, heq⟩ := hg s
    rw [heq]
    exact ⟨rfl, rfl, rfl, id, id, rfl, rfl, id⟩

theorem reports_limit {α : Type} {bad : α → Prop} {d : α} (hcode : quiet → code ∉ cyclicCodes) :
    Reports c quiet f bad (do Work.change .meet; addIssue path code message; return d) :=
  (reports_change fun _ => ⟨_, _, rfl⟩).bind fun _ => reports_reject hcode

theorem reports_consumeOperation : Reports c quiet f (· = false) (consumeOperation c path) := by
  intro s _ hs
  unfold consumeOperation
  split
  · exact ⟨hs.exhaust path, hs.extends_exhaust path, fun _ => .inl rfl⟩
  · next hroom =>
    refine ⟨⟨?_, hs.primary, hs.branches, hs.reported⟩,
      ⟨rfl, rfl, rfl, id, id, rfl, rfl, id⟩, fun h => by cases h⟩
    show s.operations + 1 ≤ c.compiled.limits.maxOperations
    omega

/-- `if (!consumeOperation(...)) return d`. -/
theorem reports_consume {α : Type} {bad : α → Prop} {d : α} {x : Evaluation R α}
    (hx : Reports c quiet f bad x) :
    Reports c quiet f bad
      (consumeOperation c path >>= fun ok => if (!ok) = true then pure d else x) :=
  reports_consumeOperation.guard hx

theorem reports_expect {holds : Bool} (hcode : quiet → code ∉ cyclicCodes) :
    Reports c quiet f (· = false) (expect holds path code message) := by
  unfold expect
  cases holds with
  | true => exact .pure fun h => by cases h
  | false => exact reports_reject hcode

/-! ## Loops -/

theorem reports_forEach {α : Type} {pathOf : α → Path} {step : α → Evaluation R Bool}
    {entries : List α} (hstep : ∀ entry ∈ entries, Reports c quiet f (· = false) (step entry)) :
    Reports c quiet f (· = false) (forEach c pathOf step entries) := by
  induction entries with
  | nil => exact .pure fun h => by cases h
  | cons entry rest ih =>
    apply reports_consume
    exact (hstep entry List.mem_cons_self).and (ih fun e he => hstep e (List.mem_cons_of_mem _ he))

theorem reports_allHold {checks : List (Evaluation R Bool)}
    (h : ∀ check ∈ checks, Reports c quiet f (· = false) check) :
    Reports c quiet f (· = false) (allHold checks) := by
  induction checks with
  | nil => exact .pure fun h => by cases h
  | cons check rest ih =>
    exact (h check List.mem_cons_self).and (ih fun e he => h e (List.mem_cons_of_mem _ he))

theorem reports_countCharacters (text : List Char) :
    Reports c quiet f (· = false) (countCharacters c path text) := by
  induction text with
  | nil => exact .pure fun h => by cases h
  | cons character rest ih => exact reports_consume ih

/-- Keys that a limit kept from being read.  What throws is reported by the caller. -/
def KeysCut (r : Except ReadKeysError (List String)) : Prop :=
  r = .error .maxProperties ∨ r = .error .maxOperations

theorem reports_readKeysLoop (forIn : List KeyRead) (keys : List String) :
    Reports c quiet f KeysCut (readKeysLoop c path forIn keys) := by
  induction forIn generalizing keys with
  | nil => exact .pure fun h => by rcases h with h | h <;> cases h
  | cons first rest ih =>
    cases first with
    | own key =>
      apply reports_consume
      split
      · exact reports_limit fun _ => by decide
      · exact ih _
    | inherited => exact ih keys
    | unreadable => exact .pure fun h => by rcases h with h | h <;> cases h

theorem reports_readKeys (forIn : List KeyRead) :
    Reports c quiet f KeysCut (readKeys c forIn path) :=
  reports_consume (reports_readKeysLoop forIn [])

/-! ## Node evaluators -/

theorem reports_expectBound {bound : Option Number} {holds : Number → Bool} {text : String}
    (hcode : quiet → code ∉ cyclicCodes) :
    Reports c quiet f (· = false) (expectBound c bound holds path code text) := by
  unfold expectBound
  split
  · exact .pure fun h => by cases h
  · exact reports_expect hcode

theorem reports_evaluateNumber (plan : NumberPlan) (value : Value R) :
    Reports c quiet f (· = false) (evaluateNumber c plan value path) := by
  unfold evaluateNumber
  split
  · split
    · exact reports_addTypeIssue
    · apply reports_allHold
      simp only [List.forall_mem_cons, List.not_mem_nil, false_imp_iff, implies_true, and_true]
      refine ⟨?_, ?_, ?_, ?_, ?_⟩ <;> exact reports_expectBound fun _ => by decide
  · exact reports_addTypeIssue

theorem reports_expectPattern (pattern : Option String) (text : String) :
    Reports c quiet f (· = false) (expectPattern c pattern text path) := by
  unfold expectPattern
  split
  · exact .pure fun h => by cases h
  · exact reports_expect fun _ => by decide
  · exact reports_expect fun _ => by decide

theorem reports_evaluateString (plan : StringPlan) (value : Value R) :
    Reports c quiet f (· = false) (evaluateString c plan value path) := by
  unfold evaluateString
  split
  · refine (reports_countCharacters _).guard (reports_allHold ?_)
    simp only [List.forall_mem_cons, List.not_mem_nil, false_imp_iff, implies_true, and_true]
    refine ⟨?_, ?_, reports_expectPattern _ _, ?_⟩ <;> exact reports_expect fun _ => by decide
  · exact reports_addTypeIssue

theorem reports_evaluateRequired (hasOwn : String → Option Bool) (key : String) :
    Reports c quiet f (· = false) (evaluateRequired c hasOwn path key) := by
  unfold evaluateRequired
  split
  · exact reports_reject fun _ => by decide
  · exact reports_expect fun _ => by decide

/-- A branch has a collector of its own, which is dropped with its issues. -/
theorem reports_withCollector {callback : Evaluation R Bool}
    (h : Reports c quiet f (· = false) callback) :
    Reports c quiet f Unblamed (withCollector { maxIssues := 1 } callback) := by
  refine Answers.bracket (h.mono fun _ => False.elim) (fun s hframe => hframe) (fun s hs => ?_)
    (fun s t hframe ht hlater => ?_) fun _ _ => False.elim
  · refine ⟨hs.operations, hs.primary, fun collector hmem => ?_, hs.reported⟩
    rcases List.mem_cons.mp hmem with rfl | hold
    · exact IssueCollector.fit_new (Nat.le_refl 1)
    · exact hs.branches collector hold
  · have hsame : t.branchCollectors.tail = s.branchCollectors := hlater.outer
    refine ⟨⟨ht.operations, ht.primary, fun collector hmem => ?_, ht.reported⟩, ?_⟩
    · exact ht.branches collector (List.mem_of_mem_tail hmem)
    · refine ⟨hlater.activeValues, hlater.refs, hlater.maxIssues, hlater.reported, hlater.primary,
        congrArg List.length hsame, congrArg List.tail hsame, fun hs => ?_⟩
      unfold EvaluationState.current at hs ⊢
      show (t.branchCollectors.tail.headD t.primaryCollector).issues ≠ []
      rw [hsame]
      cases hbranches : s.branchCollectors with
      | nil =>
        rw [hbranches] at hs
        exact hlater.primary hs
      | cons collector outer =>
        rw [hbranches] at hs
        exact hs

/-! ## deepEqual -/

theorem reports_pushItems (left right : Nat → Option (Value R)) (count : Nat)
    (pending : List (EqualPair R)) :
    Reports c quiet f Unblamed (pushItems c left right path count pending) := by
  induction count generalizing pending with
  | zero => exact .pure id
  | succ index ih =>
    apply reports_consume
    split
    · exact ih _
    · exact .pure id

theorem reports_pushMembers (left right : String → Option (Option (Value R)))
    (keys : List (String × String)) (pending : List (EqualPair R)) :
    Reports c quiet f Unblamed (pushMembers c left right path keys pending) := by
  induction keys generalizing pending with
  | nil => exact .pure id
  | cons first rest ih =>
    obtain ⟨leftKey, rightKey⟩ := first
    unfold pushMembers
    split
    · exact .pure id
    · apply reports_consume
      split
      · exact ih _
      · exact .pure id

theorem reports_expandPair (left right : R) (pending : List (EqualPair R)) :
    Reports c quiet f Unblamed (expandPair c left right path pending) := by
  unfold expandPair
  split
  · apply reports_consume
    split
    · split
      · exact reports_limit fun _ => by decide
      · split
        · exact .pure id
        · exact reports_pushItems _ _ _ _
    · exact .pure id
  · refine (reports_readKeys _).bind fun leftKeys => (reports_readKeys _).bind fun rightKeys => ?_
    split
    · split
      · exact .pure fun h => h.1.1
      · exact (reports_pushMembers _ _ _ _).mono fun _ h => h.1.1
    · exact .pure fun h => h.1.1
  · exact .pure id

variable [DecidableEq R]

theorem reports_deepEqualStep
    {next : List (EqualPair R) → List (R × R) → Evaluation R Bool}
    (hnext : ∀ pending seen, Reports c quiet f Unblamed (next pending seen))
    (pair : EqualPair R) (pending : List (EqualPair R)) (seen : List (R × R)) :
    Reports c quiet f Unblamed (deepEqualStep c next pair pending seen) := by
  apply reports_consume
  split
  · exact hnext _ _
  · split
    · split
      · exact .pure id
      · split
        · split
          · exact .pure id
          · exact hnext _ _
        · refine (reports_expandPair _ _ _).bind fun expanded => ?_
          cases expanded with
          | none => exact .pure fun h => h.1
          | some pending => exact (hnext _ _).mono fun _ h => h.1
    · exact .pure id

theorem reports_deepEqualLoop (fuel : Nat) (pending : List (EqualPair R)) (seen : List (R × R)) :
    Reports c quiet f Unblamed (deepEqualLoop c fuel pending seen) := by
  induction fuel generalizing pending seen with
  | zero =>
    cases pending with
    | nil => exact .pure id
    | cons pair pending =>
      have hexhaust : Reports c quiet f Unblamed (Work.change fun s : EvaluationState R =>
          { s.exhaust pair.path with
            operations := max s.operations c.compiled.limits.maxOperations }) := by
        refine .change (fun s hs => ?_) fun s hs => ?_
        · obtain ⟨hoperations, hprimary, hbranches, hreported⟩ := hs.exhaust pair.path
          exact ⟨Nat.max_le.mpr ⟨hs.operations, Nat.le_refl _⟩, hprimary, hbranches, hreported⟩
        · obtain ⟨hactive, hrefs, hmax, hreported, hprimary, hbranches, houter, hcurrent⟩ :=
            hs.extends_exhaust pair.path
          exact ⟨hactive, hrefs, hmax, hreported, hprimary, hbranches, houter, hcurrent⟩
      exact hexhaust.bind fun _ => .pure fun h => h.1
  | succ fuel ih =>
    cases pending with
    | nil => exact .pure id
    | cons pair pending => exact reports_deepEqualStep ih pair pending seen

theorem reports_deepEqual (left right : Value R) :
    Reports c quiet f Unblamed (deepEqual c left right path) :=
  reports_deepEqualLoop _ _ _

/-- An object that is not open is entered and left again. -/
theorem reports_withValue {r : R} {body : Evaluation R Bool} (hclosed : quiet → r ∉ f.1)
    (hbody : Reports c quiet (r :: f.1, f.2) (· = false) body) :
    Reports c quiet f (· = false) (withValue r path body) := by
  apply Answers.read fun f => f.1.contains r
  · exact fun s => rfl
  · split
    · next hopen =>
      exact reports_reject fun hquiet => absurd (List.contains_iff_mem.mp hopen) (hclosed hquiet)
    · refine Answers.bracket hbody (fun s hframe => ?_) (fun s hs => ?_)
        (fun s t hframe ht hlater => ?_) fun _ _ _ hblamed => hblamed
      · rw [← hframe]
        rfl
      · exact ⟨hs.operations, hs.primary, hs.branches, hs.reported⟩
      · obtain ⟨hactive, hrefs, hmax, hreported, hprimary, hbranches, houter, hcurrent⟩ := hlater
        refine ⟨⟨ht.operations, ht.primary, ht.branches, ht.reported⟩,
          ⟨?_, hrefs, hmax, hreported, hprimary, hbranches, houter, hcurrent⟩⟩
        show t.activeValues.erase r = s.activeValues
        rw [hactive]
        exact List.erase_cons_head _ _

end Reporting

/-! ## Values without cycles, references that consume a level -/

section Cycles

variable {R : Type}

/-- Reading the first object gives the second one. -/
inductive Child (heap : Heap R) : R → R → Prop
  | item {length i : Nat} {item : Nat → Option (Value R)} {r child : R}
      (harray : heap r = .array (some length) item) (hi : i < length)
      (hitem : item i = some (.object child)) : Child heap r child
  | member {forIn : List KeyRead} {hasOwn : String → Option Bool}
      {get : String → Option (Value R)} {key : String} {r child : R}
      (hplain : heap r = .plain forIn hasOwn get) (hown : hasOwn key = some true)
      (hget : get key = some (.object child)) : Child heap r child

/-- No object inside the value contains itself; objects may be shared. -/
def Acyclic (heap : Heap R) (value : Value R) : Prop :=
  ∀ r r', value = .object r → Relation.ReflTransGen (Child heap) r r' →
    ¬Relation.TransGen (Child heap) r' r'

/-- The references that a plan follows without going into the value. -/
inductive SameLevel : Plan R → String → Prop
  | ref {nullable optional : Bool} {reference : String} :
      SameLevel (.node nullable optional (.ref reference)) (normalizeReference reference)
  | union {nullable optional oneOf : Bool} {anyOf : List (Plan R)} {branch : Plan R} {name : String}
      (hbranch : branch ∈ anyOf) (h : SameLevel branch name) :
      SameLevel (.node nullable optional (.union anyOf oneOf)) name
  | oneOf {nullable optional : Bool} {anyOf : List (Plan R)} {branch : Plan R} {name : String}
      (hbranch : branch ∈ anyOf) (h : SameLevel branch name) :
      SameLevel (.node nullable optional (.oneOf anyOf)) name
  | intersection {nullable optional : Bool} {allOf : List (Plan R)} {branch : Plan R}
      {name : String} (hbranch : branch ∈ allOf) (h : SameLevel branch name) :
      SameLevel (.node nullable optional (.intersection allOf)) name

/-- The plan that a normalized reference stands for. -/
def CompiledValidationPlan.target (compiled : CompiledValidationPlan R) (reference : String) :
    Option (Plan R) :=
  if reference = "#" then some compiled.root else compiled.definitions.lookup reference

/-- The plan of the one reference follows the other one on the same value. -/
def LeadsTo (compiled : CompiledValidationPlan R) (name next : String) : Prop :=
  ∃ plan, compiled.target name = some plan ∧ SameLevel plan next

/-- No reference comes back to itself before a level of the value is consumed. -/
def Consuming (compiled : CompiledValidationPlan R) : Prop :=
  ∀ name, ¬Relation.TransGen (LeadsTo compiled) name name

/-- The open objects lie above the value.  An open reference was followed on an object above it, or on
the value itself, and then it leads to whatever the plan refers to. -/
structure Clear (c : Context R) (f : Surroundings R) (plan : Plan R) (value : Value R) : Prop where
  acyclic : Acyclic c.heap value
  active : ∀ r, value = .object r → ∀ above ∈ f.1, Relation.TransGen (Child c.heap) above r
  refs : ∀ frame ∈ f.2,
    (frame.value = value ∧
      ∀ name, SameLevel plan name → Relation.TransGen (LeadsTo c.compiled) frame.name name) ∨
    ∃ above, frame.value = .object above ∧
      ∀ r, value = .object r → Relation.TransGen (Child c.heap) above r

variable {c : Context R} {f : Surroundings R} {plan : Plan R} {value : Value R} {r : R}

theorem Clear.root (h : Acyclic c.heap value) : Clear c ([], []) plan value where
  acyclic := h
  active _ _ _ habove := absurd habove List.not_mem_nil
  refs _ hframe := absurd hframe List.not_mem_nil

theorem Clear.branch {branch : Plan R} (h : Clear c f plan value)
    (hsub : ∀ name, SameLevel branch name → SameLevel plan name) : Clear c f branch value where
  acyclic := h.acyclic
  active := h.active
  refs frame hframe :=
    (h.refs frame hframe).imp_left fun ⟨hvalue, hleads⟩ => ⟨hvalue, fun name hname =>
      hleads name (hsub name hname)⟩

theorem Clear.closed (h : Clear c f plan (.object r)) : r ∉ f.1 :=
  fun hopen => h.acyclic r r rfl .refl (h.active r rfl r hopen)

/-- Inside an object every open reference lies above. -/
theorem Clear.child {inner : Plan R} {member : Value R} (h : Clear c f plan (.object r))
    (hchild : ∀ child, member = .object child → Child c.heap r child) :
    Clear c (r :: f.1, f.2) inner member where
  acyclic child below hmember hbelow := by
    have hstep : Relation.ReflTransGen (Child c.heap) r child := .single (hchild child hmember)
    exact h.acyclic r below rfl (hstep.trans hbelow)
  active child hmember above habove := by
    rcases List.mem_cons.mp habove with rfl | hold
    · exact .single (hchild child hmember)
    · exact (h.active r rfl above hold).tail (hchild child hmember)
  refs frame hframe := by
    apply Or.inr
    rcases h.refs frame hframe with ⟨hvalue, -⟩ | ⟨above, hvalue, habove⟩
    · exact ⟨r, hvalue, fun child hmember => .single (hchild child hmember)⟩
    · exact ⟨above, hvalue, fun child hmember => (habove r rfl).tail (hchild child hmember)⟩

variable {nullable optional : Bool} {reference : String}

/-- The reference is not open on the value. -/
theorem Clear.fresh (h : Clear c f (.node nullable optional (.ref reference)) value)
    (hconsuming : Consuming c.compiled) : ⟨normalizeReference reference, value⟩ ∉ f.2 := by
  intro hopen
  rcases h.refs _ hopen with ⟨-, hleads⟩ | ⟨above, hvalue, habove⟩
  · exact hconsuming _ (hleads _ .ref)
  · exact h.acyclic above above hvalue .refl (habove above hvalue)

theorem Clear.target {target : Plan R}
    (h : Clear c f (.node nullable optional (.ref reference)) value)
    (htarget : c.compiled.target (normalizeReference reference) = some target) :
    Clear c (f.1, ⟨normalizeReference reference, value⟩ :: f.2) target value where
  acyclic := h.acyclic
  active := h.active
  refs frame hframe := by
    have hnext : ∀ name, SameLevel target name →
        LeadsTo c.compiled (normalizeReference reference) name :=
      fun name hname => ⟨target, htarget, hname⟩
    rcases List.mem_cons.mp hframe with rfl | hold
    · exact .inl ⟨rfl, fun name hname => .single (hnext name hname)⟩
    · refine (h.refs frame hold).imp_left fun ⟨hvalue, hleads⟩ => ⟨hvalue, fun name hname => ?_⟩
      exact (hleads _ .ref).tail (hnext name hname)

end Cycles

/-! ## The evaluators of nested plans -/

section Nested

variable {R : Type} {c : Context R} {quiet : Prop} {nested : Nested R}
  {f : Surroundings R} {path : Path} {value : Value R}

/-- The evaluator of the children keeps the accounts wherever no cycle is at hand. -/
def NestedReports (c : Context R) (quiet : Prop) (nested : Nested R) : Prop :=
  ∀ f plan value path, (quiet → Clear c f plan value) →
    Reports c quiet f (· = false) (nested plan value path)

theorem reports_evaluateMember (hnested : NestedReports c quiet nested) {plan : Plan R}
    {read : Option (Value R)} {message : String}
    (hclear : ∀ member, read = some member → quiet → Clear c f plan member) :
    Reports c quiet f (· = false) (evaluateMember nested plan read path message) := by
  cases read with
  | none => exact reports_reject fun _ => by decide
  | some member => exact hnested _ _ _ _ (hclear member rfl)

theorem reports_evaluateProperty (hnested : NestedReports c quiet nested)
    {properties : List (String × Plan R)} {read : Option (Option (Value R))} {key : String}
    (hclear : ∀ plan member, read = some (some member) → quiet → Clear c f plan member) :
    Reports c quiet f (· = false) (evaluateProperty nested properties read path key) := by
  unfold evaluateProperty
  split
  · exact .pure fun h => by cases h
  · exact hnested _ _ _ _ (hclear _ _ rfl)
  · exact reports_reject fun _ => by decide
  · exact .pure fun h => by cases h

theorem reports_evaluateAdditional (hnested : NestedReports c quiet nested) {plan : Plan R}
    {read : Option (Option (Value R))} {key : String}
    (hclear : ∀ member, read = some (some member) → quiet → Clear c f plan member) :
    Reports c quiet f (· = false) (evaluateAdditional c nested plan read path key) := by
  unfold evaluateAdditional
  split
  · exact reports_reject fun _ => by decide
  · exact hnested _ _ _ _ (hclear _ rfl)
  · exact reports_reject fun _ => by decide

theorem reports_evaluateRest (hnested : NestedReports c quiet nested)
    {properties : List (String × Plan R)} {additional : Option (Plan R)} {forIn : List KeyRead}
    {read : String → Option (Option (Value R))}
    (hclear : ∀ key plan member, read key = some (some member) → quiet → Clear c f plan member) :
    Reports c quiet f (· = false)
      (evaluateRest c nested properties additional forIn read path) := by
  unfold evaluateRest
  split
  · exact .pure fun h => by cases h
  · exact .pure fun h => by cases h
  · next plan _ =>
    refine (reports_readKeys forIn).bind fun keys => ?_
    split
    · exact reports_reject fun _ => by decide
    · next e he =>
      -- a limit, which `readKeys` has on record
      refine .pure fun h => h.2 ?_
      cases e with
      | read => exact absurd rfl he
      | maxProperties => exact .inl rfl
      | maxOperations => exact .inr rfl
    · refine (reports_allHold fun check hcheck => ?_).mono fun _ h => h.1
      obtain ⟨key, -, rfl⟩ := List.mem_map.mp hcheck
      exact reports_evaluateAdditional hnested fun member => hclear key plan member

/-- A member of a plain object that is its own. -/
theorem child_of_readOwnValue {heap : Heap R} {forIn : List KeyRead} {hasOwn : String → Option Bool}
    {get : String → Option (Value R)} {r child : R} {key : String} {member : Value R}
    (hplain : heap r = .plain forIn hasOwn get)
    (hread : readOwnValue hasOwn get key = some (some member)) (hmember : member = .object child) :
    Child heap r child := by
  unfold readOwnValue at hread
  split at hread
  · cases hread
  · cases hread
  · next hown =>
    obtain ⟨value, hget, hvalue⟩ := Option.map_eq_some_iff.mp hread
    cases hvalue
    exact .member hplain hown (hmember ▸ hget)

theorem reports_evaluateItems (hnested : NestedReports c quiet nested) {plan : Nat → Plan R}
    {item : Nat → Option (Value R)} {start count length : Nat} (hcount : start + count ≤ length)
    (hclear : ∀ i inner member, i < length → item i = some member → quiet → Clear c f inner member) :
    Reports c quiet f (· = false) (evaluateItems c nested plan item path start count) := by
  refine reports_forEach fun index hindex => reports_evaluateMember hnested fun member hitem => ?_
  have hbelow : index < length := by
    have := (List.mem_range'_1.mp hindex).2
    omega
  exact hclear index _ member hbelow hitem

theorem reports_evaluateOtherItems (hnested : NestedReports c quiet nested)
    {items : Option (Plan R)} {item : Nat → Option (Value R)} {start count length : Nat}
    (hcount : count = 0 ∨ start + count ≤ length)
    (hclear : ∀ i inner member, i < length → item i = some member → quiet → Clear c f inner member) :
    Reports c quiet f (· = false) (evaluateOtherItems c nested items item path start count) := by
  unfold evaluateOtherItems
  split
  · exact reports_forEach fun _ _ => reports_expect fun _ => by decide
  · exact reports_forEach fun _ _ => .pure fun h => by cases h
  · exact reports_forEach fun _ _ => .pure fun h => by cases h
  · rcases hcount with rfl | hcount
    · exact .pure fun h => by cases h
    · exact reports_evaluateItems hnested hcount hclear

theorem reports_countMatches (hnested : NestedReports c quiet nested) {branches : List (Plan R)}
    (hclear : ∀ branch ∈ branches, quiet → Clear c f branch value) :
    Reports c quiet f Unblamed (countMatches c nested value path branches) := by
  induction branches with
  | nil => exact .pure id
  | cons branch rest ih =>
    apply reports_consume
    have hbranch := reports_withCollector
      (hnested f branch value path (hclear branch List.mem_cons_self))
    have hrest := ih fun other hother => hclear other (List.mem_cons_of_mem _ hother)
    exact hbranch.bind fun _ => hrest.bind fun _ => .pure fun h => h.1.1

/-- Whatever the branches reported, the union reports that they did not match. -/
theorem reports_evaluateUnion (hnested : NestedReports c quiet nested) {anyOf : List (Plan R)}
    {oneOf : Bool} (hclear : ∀ branch ∈ anyOf, quiet → Clear c f branch value) :
    Reports c quiet f (· = false) (evaluateUnion c nested anyOf oneOf value path) := by
  have hcount : Reports c quiet f Unblamed (countBranches c nested anyOf oneOf value path) := by
    intro s hframe hs
    have hmatches : Reports c quiet f Unblamed (do
        let matched ← countMatches c nested value path anyOf
        Work.change fun t => t.closeBranches oneOf s.limitsMet
        return matched) :=
      (reports_countMatches hnested hclear).bind fun _ =>
        (reports_change fun _ => ⟨_, _, rfl⟩).bind fun _ => .pure fun h => h.1.1
    exact hmatches s hframe hs
  refine hcount.bind fun matched => ?_
  split
  · exact .pure fun h => by cases h.1
  · refine reports_reject fun _ => ?_
    cases oneOf <;> decide

theorem reports_evaluateIntersection (hnested : NestedReports c quiet nested)
    {allOf : List (Plan R)} (hclear : ∀ branch ∈ allOf, quiet → Clear c f branch value) :
    Reports c quiet f (· = false) (evaluateIntersection c nested allOf value path) :=
  reports_forEach fun branch hbranch => hnested _ _ _ _ (hclear branch hbranch)

variable [DecidableEq R]

theorem reports_evaluateObject (hnested : NestedReports c quiet nested)
    {properties : List (String × Plan R)} {required : List String} {additional : Option (Plan R)}
    {plan : Plan R} (hclear : quiet → Clear c f plan value) :
    Reports c quiet f (· = false)
      (evaluateObject c nested properties required additional value path) := by
  unfold evaluateObject
  split
  · next r =>
    split
    · next forIn hasOwn get hplain =>
      have hmember : ∀ key inner member, readOwnValue hasOwn get key = some (some member) → quiet →
          Clear c (r :: f.1, f.2) inner member := fun key inner member hread hquiet =>
        (hclear hquiet).child fun child hchild => child_of_readOwnValue hplain hread hchild
      apply reports_withValue fun hquiet => (hclear hquiet).closed
      apply reports_allHold
      simp only [List.forall_mem_cons, List.not_mem_nil, false_imp_iff, implies_true, and_true]
      refine ⟨?_, ?_, ?_⟩
      · exact reports_forEach fun key _ => reports_evaluateRequired hasOwn key
      · exact reports_forEach fun key _ => reports_evaluateProperty hnested fun inner member =>
          hmember key inner member
      · exact reports_evaluateRest hnested hmember
    · exact reports_addTypeIssue
  · exact reports_addTypeIssue

theorem reports_withArray {plan : Plan R} {body : Nat → (Nat → Option (Value R)) → Evaluation R Bool}
    (hclear : quiet → Clear c f plan value)
    (hbody : ∀ r length item, (∀ i inner member, i < length → item i = some member → quiet →
        Clear c (r :: f.1, f.2) inner member) →
      Reports c quiet (r :: f.1, f.2) (· = false) (body length item)) :
    Reports c quiet f (· = false) (withArray c value path body) := by
  unfold withArray
  split
  · next r =>
    split
    · next length item harray =>
      apply reports_withValue fun hquiet => (hclear hquiet).closed
      split
      · exact reports_reject fun _ => by decide
      · next length =>
        refine hbody r length item fun i inner member hi hitem hquiet => ?_
        exact (hclear hquiet).child fun child hchild => .item harray hi (hchild ▸ hitem)
    · exact reports_addTypeIssue
  · exact reports_addTypeIssue

theorem reports_evaluateArray (hnested : NestedReports c quiet nested) {items : Option (Plan R)}
    {prefixItems : List (Plan R)} {minItems maxItems : Option Nat} {plan : Plan R}
    (hclear : quiet → Clear c f plan value) :
    Reports c quiet f (· = false)
      (evaluateArray c nested items prefixItems minItems maxItems value path) := by
  refine reports_withArray hclear fun r length item hitem => reports_allHold ?_
  simp only [List.forall_mem_cons, List.not_mem_nil, false_imp_iff, implies_true, and_true]
  refine ⟨?_, ?_, ?_, ?_⟩
  · exact reports_expect fun _ => by decide
  · exact reports_expect fun _ => by decide
  · exact reports_evaluateItems hnested (by omega) hitem
  · exact reports_evaluateOtherItems hnested (by omega) hitem

theorem reports_evaluateTuple (hnested : NestedReports c quiet nested) {items : List (Plan R)}
    {rest : Option (Plan R)} {plan : Plan R} (hclear : quiet → Clear c f plan value) :
    Reports c quiet f (· = false) (evaluateTuple c nested items rest value path) := by
  refine reports_withArray hclear fun r length item hitem => reports_allHold ?_
  simp only [List.forall_mem_cons, List.not_mem_nil, false_imp_iff, implies_true, and_true]
  refine ⟨?_, ?_⟩
  · refine reports_forEach fun index _ => ?_
    split
    · exact reports_expect fun _ => by decide
    · next hbelow =>
      exact reports_evaluateMember hnested fun member hread =>
        hitem index _ member (Nat.lt_of_not_le hbelow) hread
  · split
    · exact .pure fun h => by cases h
    · split
      · exact reports_expect fun _ => by decide
      · exact reports_expect fun _ => by decide
      · exact reports_evaluateItems hnested (by omega) hitem

theorem reports_evaluateReference (hnested : NestedReports c quiet nested)
    (hconsuming : quiet → Consuming c.compiled) {nullable optional : Bool} {reference : String}
    (hclear : quiet → Clear c f (.node nullable optional (.ref reference)) value) :
    Reports c quiet f (· = false) (evaluateReference c nested reference value path) := by
  apply reports_consume
  dsimp only
  -- an unknown reference is reported as such
  split
  · exact reports_reject fun _ => by decide
  · next target htarget =>
    apply Answers.read fun f => f.2.contains ⟨normalizeReference reference, value⟩
    · exact fun s => rfl
    -- a reference that is open with the same value is excluded where nothing is to be reported
    · split
      · next hopen =>
        have hloud : ¬quiet := fun hquiet =>
          (hclear hquiet).fresh (hconsuming hquiet) (List.contains_iff_mem.mp hopen)
        apply Answers.read fun f => f.1.any fun r => value = .object r
        · exact fun s => rfl
        · exact reports_reject fun hquiet => absurd hquiet hloud
      -- the reference is open while its target is evaluated, and closed again
      · have hinside := hnested _ _ _ path fun hquiet => (hclear hquiet).target htarget
        refine Answers.bracket hinside (fun s hframe => ?_) (fun s hs => ?_)
          (fun s t hframe ht hlater => ?_) fun _ _ _ hblamed => hblamed
        · rw [← hframe]
          rfl
        · exact ⟨hs.operations, hs.primary, hs.branches, hs.reported⟩
        · obtain ⟨hactive, hrefs, hmax, hreported, hprimary, hbranches, houter, hcurrent⟩ := hlater
          refine ⟨⟨ht.operations, ht.primary, ht.branches, ht.reported⟩,
            ⟨hactive, ?_, hmax, hreported, hprimary, hbranches, houter, hcurrent⟩⟩
          show t.refs.tail = s.refs
          rw [hrefs]
          rfl

theorem reports_evaluateEnum (candidates : List (Value R)) :
    Reports c quiet f (· = false) (evaluateEnum c value path candidates) := by
  induction candidates with
  | nil => exact reports_reject fun _ => by decide
  | cons candidate rest ih =>
    apply reports_consume
    refine (reports_deepEqual candidate value).bind fun equal => ?_
    split
    · exact .pure fun h => by cases h.1
    · exact ih.mono fun _ h => h.1

theorem reports_evaluateKind (hnested : NestedReports c quiet nested)
    (hconsuming : quiet → Consuming c.compiled) {nullable optional : Bool} {kind : Kind R}
    (hclear : quiet → Clear c f (.node nullable optional kind) value) :
    Reports c quiet f (· = false) (evaluateKind c nested kind value path) := by
  -- one case for each kind; only the nested ones use what is clear of circles
  cases kind with
  | any => exact .pure fun h => by cases h
  | never => exact reports_expect fun _ => by decide
  | null =>
    dsimp only [evaluateKind]
    split
    · exact .pure fun h => by cases h
    · exact reports_addTypeIssue
  | boolean =>
    dsimp only [evaluateKind]
    split
    · exact .pure fun h => by cases h
    · exact reports_addTypeIssue
  | string plan => exact reports_evaluateString plan value
  | number plan => exact reports_evaluateNumber plan value
  | literal expected =>
    refine (reports_deepEqual expected value).bind fun equal => ?_
    split
    · exact .pure fun h => by cases h.1
    · exact reports_reject fun _ => by decide
  | enum values => exact reports_evaluateEnum values
  | array items prefixItems minItems maxItems => exact reports_evaluateArray hnested hclear
  | tuple items rest => exact reports_evaluateTuple hnested hclear
  | object properties required additional => exact reports_evaluateObject hnested hclear
  | union anyOf oneOf =>
    exact reports_evaluateUnion hnested fun branch hbranch hquiet =>
      (hclear hquiet).branch fun name hname => .union hbranch hname
  | oneOf anyOf =>
    exact reports_evaluateUnion hnested fun branch hbranch hquiet =>
      (hclear hquiet).branch fun name hname => .oneOf hbranch hname
  | intersection allOf =>
    exact reports_evaluateIntersection hnested fun branch hbranch hquiet =>
      (hclear hquiet).branch fun name hname => .intersection hbranch hname
  | ref reference => exact reports_evaluateReference hnested hconsuming hclear

/-- One level of the plan, where the levels below keep the accounts. -/
theorem reports_evaluateStep {deeper : Option (Nested R)}
    (hdeeper : ∀ nested, deeper = some nested → NestedReports c quiet nested)
    (hconsuming : quiet → Consuming c.compiled) : NestedReports c quiet (evaluateStep c deeper) := by
  intro f plan value path hclear
  apply reports_consume
  cases plan with
  | boolean allowed => exact reports_expect fun _ => by decide
  | node nullable optional kind =>
    dsimp only
    split
    · exact .pure fun h => by cases h
    · split
      · exact .pure fun h => by cases h
      · cases deeper with
        | none => exact reports_limit fun _ => by decide
        | some nested => exact reports_evaluateKind (hdeeper nested rfl) hconsuming hclear

theorem reports_evaluate (hconsuming : quiet → Consuming c.compiled) (room : Nat) :
    NestedReports c quiet (evaluate c room) := by
  induction room with
  | zero => exact reports_evaluateStep (fun _ h => by cases h) hconsuming
  | succ room ih =>
    refine reports_evaluateStep (fun nested h => ?_) hconsuming
    cases h
    exact ih

end Nested

/-! ## The loop that compares ends -/

section Fuel

variable {R : Type} [DecidableEq R] {c : Context R} {s : EvaluationState R}

theorem deepEqualStep_spent {next : List (EqualPair R) → List (R × R) → Evaluation R Bool}
    {pair : EqualPair R} {pending : List (EqualPair R)} {seen : List (R × R)}
    (h : c.compiled.limits.maxOperations ≤ s.operations) :
    deepEqualStep c next pair pending seen s = (false, s.exhaust pair.path) := by
  have hconsume : consumeOperation c pair.path s = (false, s.exhaust pair.path) := if_pos h
  unfold deepEqualStep
  rw [Work.bind_apply, hconsume]
  rfl

omit [DecidableEq R] in
theorem keeps_expandPair (c : Context R) (left right : R) (path : Path) (pending : List (EqualPair R)) :
    Keeps books (expandPair c left right path pending) :=
  (covers_expandPair (.refl c) left right pending).left

/-- A round calls the rest of the loop only after it has spent an operation. -/
theorem deepEqualStep_congr {next next' : List (EqualPair R) → List (R × R) → Evaluation R Bool}
    (h : ∀ pending seen t, s.operations < t.operations → next pending seen t = next' pending seen t)
    (pair : EqualPair R) (pending : List (EqualPair R)) (seen : List (R × R)) :
    deepEqualStep c next pair pending seen s = deepEqualStep c next' pair pending seen s := by
  -- a step that has no budget left does not go on
  by_cases hspent : c.compiled.limits.maxOperations ≤ s.operations
  · rw [deepEqualStep_spent hspent, deepEqualStep_spent hspent]
  have hconsume : consumeOperation c pair.path s =
      (true, { s with operations := s.operations + 1 }) := if_neg hspent
  have hnext : ∀ pending seen, next pending seen { s with operations := s.operations + 1 } =
      next' pending seen { s with operations := s.operations + 1 } :=
    fun pending seen => h _ _ _ (Nat.lt_succ_self _)
  obtain ⟨left, right, path⟩ := pair
  unfold deepEqualStep
  rw [Work.bind_apply, Work.bind_apply, hconsume]
  simp only [Bool.not_true, Bool.false_eq_true, if_false]
  by_cases hsame : left = right
  -- equal values leave the pair behind
  · rw [if_pos hsame, if_pos hsame]
    exact hnext _ _
  rw [if_neg hsame, if_neg hsame]
  cases left with
  | object left =>
    cases right with
    | object right =>
      dsimp only
      by_cases hkind : c.heap.isArray left = c.heap.isArray right
      · rw [if_neg (not_not.mpr hkind), if_neg (not_not.mpr hkind)]
        -- by whether the left object has been met
        cases hseen : seen.lookup left with
        | some previous =>
          dsimp only
          by_cases hprevious : previous = right
          · rw [if_neg (not_not.mpr hprevious), if_neg (not_not.mpr hprevious)]
            exact hnext _ _
          · rw [if_pos hprevious, if_pos hprevious]
        | none =>
          have hgrew := (keeps_expandPair c left right path pending).used
            { s with operations := s.operations + 1 }
          dsimp only
          rw [Work.bind_apply, Work.bind_apply]
          cases (expandPair c left right path pending { s with operations := s.operations + 1 }).1 with
          | none => rfl
          -- the expansion has only used more of the budget
          | some pending => exact h _ _ _ (Nat.lt_of_succ_le hgrew)
      · rw [if_pos hkind, if_pos hkind]
    | _ => rfl
  | _ => rfl

/-- Without fuel the loop ends as a round ends that cannot spend its operation. -/
theorem deepEqualLoop_dry {pair : EqualPair R} {pending : List (EqualPair R)} {seen : List (R × R)}
    (h : c.compiled.limits.maxOperations ≤ s.operations) :
    deepEqualLoop c 0 (pair :: pending) seen s = (false, s.exhaust pair.path) := by
  show (false, { s.exhaust pair.path with
    operations := max s.operations c.compiled.limits.maxOperations }) = _
  rw [Nat.max_eq_left h]
  rfl

/-- The loop does not depend on its fuel once that covers the operations which are left. -/
theorem deepEqualLoop_fuel {fuel fuel' : Nat} (pending : List (EqualPair R)) (seen : List (R × R))
    (h : c.compiled.limits.maxOperations ≤ s.operations + fuel)
    (h' : c.compiled.limits.maxOperations ≤ s.operations + fuel') :
    deepEqualLoop c fuel pending seen s = deepEqualLoop c fuel' pending seen s := by
  induction fuel generalizing fuel' pending seen s with
  | zero =>
    cases pending with
    | nil => cases fuel' <;> rfl
    | cons pair pending =>
      rw [deepEqualLoop_dry h]
      cases fuel' with
      | zero => rw [deepEqualLoop_dry h]
      | succ fuel' => exact (deepEqualStep_spent h).symm
  | succ fuel ih =>
    cases pending with
    | nil => cases fuel' <;> rfl
    | cons pair pending =>
      cases fuel' with
      | zero =>
        rw [deepEqualLoop_dry h']
        exact deepEqualStep_spent h'
      | succ fuel' =>
        refine deepEqualStep_congr (fun pending seen t hlt => ?_) pair pending seen
        apply ih <;> omega
end Fuel

/-! ## The report -/

section Report

variable {R : Type} (host : Host) (heap : Heap R) (compiled : CompiledValidationPlan R)
  (value : Value R)

/-- The evaluator begins with an empty report. -/
theorem sound_start {quiet : Prop} (hissues : 1 ≤ compiled.limits.maxIssues) :
    ({ primaryCollector := { maxIssues := compiled.limits.maxIssues } } :
      EvaluationState R).Sound quiet compiled.limits.maxOperations where
  operations := Nat.zero_le _
  primary := IssueCollector.fit_new hissues
  branches _ hmem := absurd hmem List.not_mem_nil
  reported h := by cases h

variable [DecidableEq R]

/-- What is left of the run from depth zero: quiet is the case of a value without cycles and of
references that consume a level. -/
theorem evaluateRoot_reports (hissues : 1 ≤ compiled.limits.maxIssues) :
    (evaluateRoot host heap compiled value).2.Sound (Acyclic heap value ∧ Consuming compiled)
        compiled.limits.maxOperations ∧
      (evaluateRoot host heap compiled value).2.primaryCollector.maxIssues =
        compiled.limits.maxIssues ∧
      ((evaluateRoot host heap compiled value).1 = false →
        (evaluateRoot host heap compiled value).2.primaryCollector.issues ≠ []) := by
  have hnested : NestedReports ⟨host, heap, compiled⟩ (Acyclic heap value ∧ Consuming compiled)
      (evaluate ⟨host, heap, compiled⟩ (compiled.limits.maxDepth + 1)) :=
    reports_evaluate (fun hquiet => hquiet.2) _
  have hroot := hnested ([], []) compiled.root value [] fun hquiet => .root hquiet.1
  obtain ⟨hsound, hextends, hblame⟩ := hroot _ rfl (sound_start compiled hissues)
  refine ⟨hsound, hextends.maxIssues, fun hfalse => ?_⟩
  rcases hblame hfalse with hreported | hcurrent
  · exact hsound.reported hreported
  · -- no branch is open at the end
    have hnone := List.eq_nil_of_length_eq_zero hextends.branches
    unfold EvaluationState.current at hcurrent
    rw [hnone] at hcurrent
    exact hcurrent

/-- A validation ends within its operations.  What it rejects comes with an issue, and with no more of
them than the limit; what it accepts comes with none.  A value without cycles is never said to have one
where the references consume a level. -/
theorem validation_reports (options : ValidationOptions R)
    (haccepted : validateLimits options = .ok compiled.limits) :
    (∀ pair pending seen s,
      deepEqualLoop ⟨host, heap, compiled⟩ compiled.limits.maxOperations (pair :: pending) seen s =
        deepEqualStep ⟨host, heap, compiled⟩
          (deepEqualLoop ⟨host, heap, compiled⟩ compiled.limits.maxOperations) pair pending seen s) ∧
    (evaluateRoot host heap compiled value).2.operations ≤ compiled.limits.maxOperations ∧
    ((evaluateValidationPlan host heap compiled value).valid = false →
      1 ≤ (evaluateValidationPlan host heap compiled value).issues.length ∧
      (evaluateValidationPlan host heap compiled value).issues.length ≤ compiled.limits.maxIssues) ∧
    ((evaluateValidationPlan host heap compiled value).valid = true →
      (evaluateValidationPlan host heap compiled value).issues = []) ∧
    (Acyclic heap value → Consuming compiled →
      ∀ issue ∈ (evaluateValidationPlan host heap compiled value).issues,
        issue.code ∉ cyclicCodes) := by
  obtain ⟨hissues, -, -⟩ := validateLimits_ok haccepted
  obtain ⟨hsound, hmax, hblame⟩ := evaluateRoot_reports host heap compiled value hissues
  have hreport : evaluateValidationPlan host heap compiled value =
      if (evaluateRoot host heap compiled value).1 then ⟨true, []⟩
      else ⟨false, (evaluateRoot host heap compiled value).2.primaryCollector.issues⟩ := rfl
  refine ⟨fun pair pending seen s => ?_, hsound.operations, ?_⟩
  -- one turn more than the budget changes nothing, since each turn consumes
  · have hfuel : deepEqualLoop ⟨host, heap, compiled⟩ compiled.limits.maxOperations
        (pair :: pending) seen s = deepEqualLoop ⟨host, heap, compiled⟩
          (compiled.limits.maxOperations + 1) (pair :: pending) seen s :=
      deepEqualLoop_fuel _ _ (Nat.le_add_left _ _) (by dsimp only; omega)
    exact hfuel
  rw [hreport]
  -- by the answer
  cases hvalid : (evaluateRoot host heap compiled value).1 with
  | true =>
    rw [if_pos rfl]
    exact ⟨fun h => absurd h.symm Bool.false_ne_true, fun _ => rfl, fun _ _ _ hmem => absurd hmem List.not_mem_nil⟩
  | false =>
    rw [if_neg Bool.false_ne_true]
    refine ⟨fun _ => ⟨?_, ?_⟩, fun h => absurd h Bool.false_ne_true, fun hacyclic hconsuming => ?_⟩
    · exact List.length_pos_iff.mpr (hblame hvalid)
    · exact hmax ▸ hsound.primary.bounded
    · exact hsound.primary.acyclic ⟨hacyclic, hconsuming⟩

end Report

/-- Lists of `null` or an object with the rest of the list in `next`. -/
def listPlan : CompiledValidationPlan (Fin 2) where
  root := .node false false (.object [("next", .node true false (.ref "#"))] ["next"] none)
  definitions := []
  limits := defaultLimits

/-- The first object is its own rest, the other one has a number there. -/
def listHeap : Heap (Fin 2) := fun r =>
  .plain [.own "next"] (fun key => some (key = "next"))
    fun _ => some (if r = 0 then .object 0 else .number .nan)

def listHost : Host where
  pattern _ := none
  validateValidationFormat _ _ := true
  isMultipleOf _ _ := true
  showNumber _ := ""
  stringify text := text
  displayValidationKey text := text

/-- `next` of the second object is no object. -/
theorem acyclic_second : Acyclic listHeap (.object 1) := by
  intro r r' hr hreach hcycle
  cases hr
  have hleaf : ∀ child, ¬Child listHeap 1 child := by
    intro child hchild
    cases hchild with
    | item harray => cases harray
    | member hplain _ hget =>
      cases hplain
      cases hget
  rcases hreach.cases_head with rfl | ⟨child, hchild, -⟩
  · obtain ⟨child, hchild, -⟩ := Relation.TransGen.head'_iff.mp hcycle
    exact hleaf child hchild
  · exact hleaf child hchild

/-- The one reference is inside an object. -/
theorem consuming_listPlan : Consuming listPlan := by
  intro name hcycle
  obtain ⟨next, ⟨plan, hplan, hlevel⟩, -⟩ := Relation.TransGen.head'_iff.mp hcycle
  unfold CompiledValidationPlan.target at hplan
  split at hplan
  · cases hplan
    cases hlevel
  · cases hplan

theorem list_reports :
    (1 ≤ (evaluateValidationPlan listHost listHeap listPlan (.object 0)).issues.length ∧
      (evaluateValidationPlan listHost listHeap listPlan (.object 0)).issues.length ≤ 100) ∧
      ∀ issue ∈ (evaluateValidationPlan listHost listHeap listPlan (.object 1)).issues,
        issue.code ∉ cyclicCodes := by
  obtain ⟨-, -, hfirst, -, -⟩ :=
    validation_reports listHost listHeap listPlan (.object 0) {} validateLimits_default
  obtain ⟨-, -, -, -, hsecond⟩ :=
    validation_reports listHost listHeap listPlan (.object 1) {} validateLimits_default
  exact ⟨hfirst (by decide), hsecond acyclic_second consuming_listPlan⟩

end FluxFast.Validation
