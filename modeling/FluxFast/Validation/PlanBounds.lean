import FluxFast.Validation.PlanGraph

/-!
# PlanBounds — what `assertPlanBounds` accepts

The walk over the values always ends.  What it accepts is finite and free of cycles, and what it
calls circular contains itself.
-/

namespace FluxFast.Validation

open FluxFast.Theory

/-! ## The graph of values -/

section Graph

variable {R : Type} (graph : PlanGraph R)

def children : Value R → List (Value R)
  | .object r =>
    match graph r with
    | .array items => items
    | .record members => members.entries.map Prod.snd
    | .other _ => []
  | _ => []

/-- The second value is an item or a member of the first one. -/
def Holds (v w : Value R) : Prop := w ∈ children graph v

abbrev Reaches : Value R → Value R → Prop := Relation.ReflTransGen (Holds graph)

/-- A value of the plan or of the definitions of its document. -/
def Offered (root definitions : Value R) (v : Value R) : Prop :=
  Reaches graph root v ∨ definitions ≠ .undefined ∧ Reaches graph definitions v

def Circular (root definitions : Value R) : Prop :=
  ∃ v, Offered graph root definitions v ∧ Relation.TransGen (Holds graph) v v

variable {graph}

theorem Offered.step {root definitions v w : Value R} (h : Offered graph root definitions v)
    (hstep : Holds graph v w) : Offered graph root definitions w :=
  h.imp (fun hv => hv.tail hstep) (And.imp_right fun hv => hv.tail hstep)

theorem Offered.reaches {root definitions v w : Value R} (h : Offered graph root definitions v)
    (hreach : Reaches graph v w) : Offered graph root definitions w :=
  h.imp (fun hv => hv.trans hreach) (And.imp_right fun hv => hv.trans hreach)

end Graph

section Bounds

variable {R : Type} [DecidableEq R] {host : PlanHost} {graph : PlanGraph R}
  {root definitions : Value R} {s t : PlanBounds R} {frame : PlanBoundsFrame R} {r : R}

/-! ## One round -/

theorem boundsObject_cases (h : boundsObject host graph s frame r = .next t) :
    r ∉ s.active ∧ (r ∈ s.visited ∧ t = s ∨
      r ∉ s.visited ∧ ∃ frames, childFrames host graph frame r = .ok frames ∧ t = { s with
        pending := frames ++ { frame with exit := true } :: s.pending
        active := r :: s.active
        visited := r :: s.visited }) := by
  unfold boundsObject at h
  by_cases hdeep : MAX_VALIDATION_PLAN_DEPTH < frame.depth
  · rw [if_pos hdeep] at h
    cases h
  rw [if_neg hdeep] at h
  by_cases hactive : r ∈ s.active
  · rw [if_pos hactive] at h
    cases h
  rw [if_neg hactive] at h
  refine ⟨hactive, ?_⟩
  by_cases hvisited : r ∈ s.visited
  · rw [if_pos hvisited] at h
    cases h
    exact .inl ⟨hvisited, rfl⟩
  rw [if_neg hvisited] at h
  split at h
  · cases h
  · next frames hframes =>
    cases h
    exact .inr ⟨hvisited, frames, hframes, rfl⟩

/-- What a round can do. -/
theorem boundsTurn_cases (h : boundsTurn host graph s = .next t) :
    ∃ frame pending, s.pending = frame :: pending ∧
      ((frame.exit = true ∧ t = { s with
          pending := pending
          active := s.active.filter fun r => frame.value ≠ .object r }) ∨
        (frame.exit = false ∧ s.values < MAX_VALIDATION_PLAN_VALUES ∧
          ((t = { s with pending := pending, values := s.values + 1 } ∧
            ((∃ r, frame.value = .object r ∧ r ∈ s.visited ∧ r ∉ s.active) ∨
              (∀ r, frame.value ≠ .object r) ∧ scalarError frame.value = none)) ∨
            ∃ r frames, frame.value = .object r ∧ r ∉ s.visited ∧ r ∉ s.active ∧
              childFrames host graph frame r = .ok frames ∧ t = { s with
                pending := frames ++ { frame with exit := true } :: pending
                active := r :: s.active
                visited := r :: s.visited
                values := s.values + 1 }))) := by
  unfold boundsTurn at h
  -- nothing is pending
  split at h
  · cases h
  · next frame pending hpending =>
    refine ⟨frame, pending, hpending, ?_⟩
    split at h
    -- the second time a frame only leaves the node
    · next hexit =>
      cases h
      exact .inl ⟨hexit, rfl⟩
    · next hexit =>
      right
      split at h
      · cases h
      · next hvalues =>
        refine ⟨Bool.eq_false_iff.mpr hexit, by omega, ?_⟩
        -- a reference seen before is counted and passed over, a new one is opened
        split at h
        · next r hvalue =>
          obtain ⟨hactive, ⟨hvisited, rfl⟩ | ⟨hvisited, frames, hframes, rfl⟩⟩ :=
            boundsObject_cases h
          · exact .inl ⟨rfl, .inl ⟨r, hvalue, hvisited, hactive⟩⟩
          · exact .inr ⟨r, frames, hvalue, hvisited, hactive, hframes, rfl⟩
        · next value hvalue =>
          split at h
          · cases h
          · next hscalar =>
            cases h
            exact .inl ⟨rfl, .inr ⟨hvalue, hscalar⟩⟩

omit [DecidableEq R] in
/-- The children are few, and they are what the graph says. -/
theorem childFrames_ok {frames : List (PlanBoundsFrame R)}
    (h : childFrames host graph frame r = .ok frames) :
    frames.map PlanBoundsFrame.value = children graph (.object r) ∧
      frames.length ≤ MAX_VALIDATION_PLAN_CHILDREN ∧ (∀ f ∈ frames, f.exit = false) ∧
      ∀ members, graph r ≠ .other members := by
  unfold childFrames at h
  split at h
  -- an array has its items as children, with their positions in the path
  · next items hitems =>
    split at h
    · cases h
    · next hlength =>
      cases h
      refine ⟨?_, ?_, ?_, fun members => by rw [hitems]; nofun⟩
      · simp only [children, hitems]
        refine List.ext_getElem (by simp) fun i hi hi' => ?_
        simp
      · simpa using hlength
      · intro f hf
        obtain ⟨i, hi, rfl⟩ := List.mem_mapIdx.mp hf
        rfl
  -- a record has its members as children
  · next members hmembers =>
    split at h
    · cases h
    · next hsize =>
      cases h
      refine ⟨?_, ?_, ?_, fun other => by rw [hmembers]; nofun⟩
      · simp only [children, hmembers, List.map_map]
        rfl
      · rw [List.length_map]
        exact Nat.le_of_not_lt hsize
      · intro f hf
        obtain ⟨member, -, rfl⟩ := List.mem_map.mp hf
        rfl
  -- any other object is refused
  · cases h

/-! ## The loop ends -/

/-- A bound on the rounds that are left. -/
def roundsLeft (s : PlanBounds R) : Nat :=
  (MAX_VALIDATION_PLAN_VALUES - s.values) * (MAX_VALIDATION_PLAN_CHILDREN + 2) + s.pending.length

theorem roundsLeft_lt (h : boundsTurn host graph s = .next t) : roundsLeft t < roundsLeft s := by
  obtain ⟨frame, pending, hpending, hcases⟩ := boundsTurn_cases h
  have hlength : s.pending.length = pending.length + 1 := by rw [hpending, List.length_cons]
  have hspend : s.values < MAX_VALIDATION_PLAN_VALUES →
      (MAX_VALIDATION_PLAN_VALUES - s.values) * (MAX_VALIDATION_PLAN_CHILDREN + 2) =
        (MAX_VALIDATION_PLAN_VALUES - (s.values + 1)) * (MAX_VALIDATION_PLAN_CHILDREN + 2) +
          (MAX_VALIDATION_PLAN_CHILDREN + 2) := by
    intro hvalues
    rw [← Nat.succ_mul]
    congr 1
    omega
  unfold roundsLeft
  rcases hcases with ⟨-, rfl⟩ | ⟨-, hvalues, ⟨rfl, -⟩ | ⟨r, frames, -, -, -, hframes, rfl⟩⟩
  · show (MAX_VALIDATION_PLAN_VALUES - s.values) * _ + pending.length < _
    omega
  · rw [hspend hvalues]
    show (MAX_VALIDATION_PLAN_VALUES - (s.values + 1)) * _ + pending.length < _
    omega
  · have hfew := (childFrames_ok hframes).2.1
    rw [hspend hvalues]
    show (MAX_VALIDATION_PLAN_VALUES - (s.values + 1)) * _ + (frames ++ _ :: pending).length < _
    rw [List.length_append, List.length_cons]
    omega

theorem assertPlanBounds_ends (host : PlanHost) (graph : PlanGraph R) (root definitions : Value R) :
    ∃ result, assertPlanBounds host graph root definitions = some result := by
  refine loop_within (fun _ _ h => roundsLeft_lt h) ?_
  have hlength : (startBounds root definitions).pending.length ≤ 2 := by
    unfold startBounds
    rw [List.length_append]
    split <;> simp
  show (MAX_VALIDATION_PLAN_VALUES - 0) * _ + (startBounds root definitions).pending.length < _
  unfold boundsFuel MAX_VALIDATION_PLAN_VALUES MAX_VALIDATION_PLAN_CHILDREN
  omega

/-! ## What every round keeps -/

def visits (pending : List (PlanBoundsFrame R)) : List (Visit (Value R)) :=
  pending.map fun frame => if frame.exit then .leave frame.value else .enter frame.value

/-- The values that the walk is done with; a scalar is as good as done. -/
def Left (s : PlanBounds R) : Value R → Prop
  | .object r => r ∈ s.visited ∧ r ∉ s.active
  | v => scalarError v = none

structure Walked (host : PlanHost) (graph : PlanGraph R) (root definitions : Value R)
    (goal : Value R → Prop) (s : PlanBounds R) : Prop where
  trail : Trail (Holds graph) goal (visits s.pending) (s.active.map .object) (Left s)
  opened : ∀ r ∈ s.active, r ∈ s.visited
  legible : ∀ r ∈ s.visited, ∀ members, graph r ≠ .other members
  offered : ∀ frame ∈ s.pending, Offered graph root definitions frame.value

variable {goal : Value R → Prop}

omit [DecidableEq R] in
theorem visits_enter (frames : List (PlanBoundsFrame R)) (h : ∀ f ∈ frames, f.exit = false) :
    visits frames = (frames.map PlanBoundsFrame.value).map .enter := by
  unfold visits
  rw [List.map_map]
  refine List.map_congr_left fun f hf => ?_
  rw [h f hf]
  rfl

theorem walked_leave (h : Walked host graph root definitions goal s) {pending : List (PlanBoundsFrame R)}
    (hpending : s.pending = frame :: pending) (hexit : frame.exit = true) :
    Walked host graph root definitions goal { s with
      pending := pending
      active := s.active.filter fun r => frame.value ≠ .object r } := by
  have htrail := h.trail
  rw [hpending] at htrail
  have hvisits : visits (frame :: pending) = .leave frame.value :: visits pending := by
    simp [visits, hexit]
  rw [hvisits] at htrail
  -- the trail leaves the node that it opened last
  obtain ⟨outer, houter, hleft⟩ := htrail.leave
  obtain ⟨r, rest, hactive, hvalue, rfl⟩ := List.map_eq_cons_iff.mp houter
  have hnodup : (r :: rest).Nodup := by
    have hmapped := h.trail.nodup
    rw [hactive] at hmapped
    exact hmapped.of_map _
  -- no other node of the active ones is the one left
  have hfilter : s.active.filter (fun x => frame.value ≠ .object x) = rest := by
    rw [hactive, ← hvalue, List.filter_cons_of_neg (by simp)]
    refine List.filter_eq_self.mpr fun x hx => ?_
    have hne : r ≠ x := fun heq => (List.nodup_cons.mp hnodup).1 (heq ▸ hx)
    simpa using hne
  rw [hfilter]
  refine ⟨?_, fun x hx => h.opened x (hactive ▸ List.mem_cons_of_mem _ hx), h.legible,
    fun f hf => h.offered f (hpending ▸ List.mem_cons_of_mem _ hf)⟩
  -- what has been left grows by this node
  have hsame : (fun b => Left s b ∨ b = frame.value) =
      Left { s with pending := pending, active := rest } := by
    funext b
    refine propext ?_
    cases b with
    | object x =>
      show (x ∈ s.visited ∧ x ∉ s.active) ∨ _ ↔ x ∈ s.visited ∧ x ∉ rest
      rw [← hvalue, hactive, List.mem_cons, Value.object.injEq]
      have hr : r ∈ s.visited := h.opened r (hactive ▸ List.mem_cons_self)
      have hrest : r ∉ rest := (List.nodup_cons.mp hnodup).1
      grind
    | _ => simp [Left, ← hvalue]
  rw [← hsame]
  exact hleft

omit [DecidableEq R] in
theorem walked_pass (h : Walked host graph root definitions goal s) {pending : List (PlanBoundsFrame R)}
    (hpending : s.pending = frame :: pending) (hexit : frame.exit = false)
    (hleft : Left s frame.value) (values : Nat) :
    Walked host graph root definitions goal { s with pending := pending, values := values } := by
  have htrail := h.trail
  rw [hpending] at htrail
  have hvisits : visits (frame :: pending) = .enter frame.value :: visits pending := by
    simp [visits, hexit]
  rw [hvisits] at htrail
  have hsame : Left { s with pending := pending, values := values } = Left s := by
    funext b
    cases b <;> rfl
  refine ⟨?_, h.opened, h.legible, fun f hf => h.offered f (hpending ▸ List.mem_cons_of_mem _ hf)⟩
  rw [hsame]
  exact htrail.pass hleft

omit [DecidableEq R] in
theorem walked_open (h : Walked host graph root definitions goal s) {pending : List (PlanBoundsFrame R)}
    (hpending : s.pending = frame :: pending) (hexit : frame.exit = false)
    (hvalue : frame.value = .object r) (hvisited : r ∉ s.visited) (hactive : r ∉ s.active)
    {frames : List (PlanBoundsFrame R)} (hframes : childFrames host graph frame r = .ok frames)
    (values : Nat) :
    Walked host graph root definitions goal { s with
      pending := frames ++ { frame with exit := true } :: pending
      active := r :: s.active
      visited := r :: s.visited
      values := values } := by
  obtain ⟨hchildren, -, henter, hlegible⟩ := childFrames_ok hframes
  have htrail := h.trail
  rw [hpending] at htrail
  have hvisits : visits (frame :: pending) = .enter (.object r) :: visits pending := by
    simp [visits, hexit, hvalue]
  rw [hvisits] at htrail
  have hframe : Offered graph root definitions (.object r) := by
    rw [← hvalue]
    exact h.offered frame (hpending ▸ List.mem_cons_self)
  refine ⟨?_, fun x hx => ?_, fun x hx => ?_, fun f hf => ?_⟩
  -- a node just opened is visited but not left
  · have hsame : Left { s with
        pending := frames ++ { frame with exit := true } :: pending
        active := r :: s.active
        visited := r :: s.visited
        values := values } = Left s := by
      funext b
      cases b with
      | object x =>
        refine propext ?_
        show x ∈ r :: s.visited ∧ x ∉ r :: s.active ↔ x ∈ s.visited ∧ x ∉ s.active
        rw [List.mem_cons, List.mem_cons]
        grind
      | _ => rfl
    rw [hsame]
    -- its children are entered before it is left
    have hall : visits (frames ++ { frame with exit := true } :: pending) =
        (children graph (.object r)).map .enter ++ .leave (.object r) :: visits pending := by
      rw [← hchildren, ← visits_enter frames henter]
      simp [visits, hvalue]
    rw [hall]
    refine htrail.opened ?_ (fun hleft => hvisited hleft.1) fun b => Iff.rfl
    rw [List.mem_map]
    rintro ⟨x, hx, heq⟩
    cases heq
    exact hactive hx
  -- the node is visited from its opening on
  · rcases List.mem_cons.mp hx with rfl | hold
    · exact List.mem_cons_self
    · exact List.mem_cons_of_mem _ (h.opened x hold)
  · rcases List.mem_cons.mp hx with rfl | hold
    · exact hlegible
    · exact h.legible x hold
  -- a child is offered through its parent
  · rcases List.mem_append.mp hf with hchild | hrest
    · refine hframe.step ?_
      show f.value ∈ children graph (.object r)
      rw [← hchildren]
      exact List.mem_map_of_mem hchild
    · rcases List.mem_cons.mp hrest with rfl | hold
      · show Offered graph root definitions frame.value
        rw [hvalue]
        exact hframe
      · exact h.offered f (hpending ▸ List.mem_cons_of_mem _ hold)

theorem walked_turn (h : Walked host graph root definitions goal s)
    (hturn : boundsTurn host graph s = .next t) : Walked host graph root definitions goal t := by
  obtain ⟨frame, pending, hpending, hcases⟩ := boundsTurn_cases hturn
  rcases hcases with ⟨hexit, rfl⟩ |
    ⟨hexit, -, ⟨rfl, hdone⟩ | ⟨r, frames, hvalue, hvisited, hactive, hframes, rfl⟩⟩
  · exact walked_leave h hpending hexit
  · refine walked_pass h hpending hexit ?_ _
    rcases hdone with ⟨r, hvalue, hvisited, hactive⟩ | ⟨hscalar, hfine⟩
    · rw [hvalue]
      exact ⟨hvisited, hactive⟩
    · revert hscalar hfine
      cases frame.value with
      | object x => exact fun hscalar _ => absurd rfl (hscalar x)
      | _ => exact fun _ hfine => hfine
  · exact walked_open h hpending hexit hvalue hvisited hactive hframes _

/-! ## What is accepted -/

/-- What an accepted plan and its definitions are. -/
structure Bounded (graph : PlanGraph R) (root definitions : Value R) : Prop where
  acyclic : ¬Circular graph root definitions
  scalar : ∀ v, Offered graph root definitions v → (∀ r, v ≠ .object r) → scalarError v = none
  legible : ∀ r, Offered graph root definitions (.object r) → ∀ members, graph r ≠ .other members
  finite : ∃ rs : List R, ∀ r, Offered graph root definitions (.object r) → r ∈ rs

omit [DecidableEq R] in
theorem trail_nothing (s : PlanBounds R) (hvisited : s.visited = [])
    (goal : Value R → Prop) (hgoal : ∀ v, ¬goal v) : Trail (Holds graph) goal [] [] (Left s) where
  leads := rfl
  covered v hv := absurd hv (hgoal v)
  nodup := .nil
  apart v hv := absurd hv List.not_mem_nil
  closed v w hv hstep := by
    cases v with
    | object r => exact absurd hv.1 (hvisited ▸ List.not_mem_nil)
    | _ => cases hstep
  acyclic v hv hcycle := by
    obtain ⟨w, hstep, -⟩ := Relation.TransGen.head'_iff.mp hcycle
    cases v with
    | object r => exact absurd hv.1 (hvisited ▸ List.not_mem_nil)
    | _ => cases hstep

theorem walked_start : ∃ goal : Value R → Prop, goal root ∧ (definitions ≠ .undefined → goal definitions) ∧
    Walked host graph root definitions goal (startBounds root definitions) := by
  have hroot := (@trail_nothing R graph (startBounds root definitions) rfl
    (fun _ => False) fun _ => id).seek root
  -- without definitions only the root is walked
  by_cases hdefinitions : definitions = .undefined
  · have hpending : (startBounds root definitions).pending =
        [{ value := root, path := "$", depth := 0 }] := by
      unfold startBounds
      rw [if_pos hdefinitions]
      rfl
    refine ⟨fun v => False ∨ v = root, Or.inr rfl, fun h => absurd hdefinitions h, ?_, nofun, nofun, ?_⟩
    · rw [hpending]
      exact hroot
    · rw [hpending]
      intro frame hframe
      rw [List.mem_singleton.mp hframe]
      exact .inl .refl
  -- the definitions are walked before the root
  · have hpending : (startBounds root definitions).pending =
        [{ value := definitions, path := "$.definitions", depth := 0 },
          { value := root, path := "$", depth := 0 }] := by
      unfold startBounds
      rw [if_neg hdefinitions]
      rfl
    refine ⟨fun v => (False ∨ v = root) ∨ v = definitions, Or.inl (Or.inr rfl), fun _ => Or.inr rfl, ?_,
      nofun, nofun, ?_⟩
    · rw [hpending]
      exact hroot.seek definitions
    · rw [hpending]
      intro frame hframe
      rcases List.mem_cons.mp hframe with rfl | hlast
      · exact .inr ⟨hdefinitions, .refl⟩
      · rw [List.mem_singleton.mp hlast]
        exact .inl .refl

/-- The message that says circular. -/
def circularFault : PlanFault := .invalidBecause "plan values cannot be circular"

omit [DecidableEq R] in
theorem childFrames_error {e : PlanError} (h : childFrames host graph frame r = .error e) :
    e.fault ≠ circularFault := by
  unfold childFrames at h
  split at h
  · split at h
    · cases h
      show PlanFault.invalidBecause _ ≠ PlanFault.invalidBecause _
      decide
    · cases h
  · split at h
    · cases h
      show PlanFault.invalidBecause _ ≠ PlanFault.invalidBecause _
      decide
    · cases h
  · cases h
    nofun

omit [DecidableEq R] in
theorem scalarError_ne {v : Value R} {reason : String} (h : scalarError v = some reason) :
    PlanFault.invalidBecause reason ≠ circularFault := by
  unfold scalarError at h
  split at h
  · split at h <;> cases h
    decide
  · split at h <;> cases h
    decide
  · cases h
    decide
  · cases h
    decide
  · cases h
  · cases h
  · cases h

/-- An object that is not open fails only through its depth or its children. -/
theorem boundsObject_circular {e : PlanError} (h : boundsObject host graph s frame r = .failed e)
    (he : e.fault = circularFault) : r ∈ s.active := by
  unfold boundsObject at h
  by_cases hdeep : MAX_VALIDATION_PLAN_DEPTH < frame.depth
  · rw [if_pos hdeep] at h
    cases h
    exact absurd he (by show PlanFault.invalidBecause _ ≠ PlanFault.invalidBecause _; decide)
  by_contra hactive
  rw [if_neg hdeep, if_neg hactive] at h
  split at h
  · cases h
  · split at h
    · next e' herror =>
      cases h
      exact childFrames_error herror he
    · cases h

theorem boundsTurn_done (h : boundsTurn host graph s = .done) : s.pending = [] := by
  have hobject : ∀ (u : PlanBounds R) frame r, boundsObject host graph u frame r ≠ .done := by
    intro u frame r
    unfold boundsObject
    split
    · nofun
    · split
      · nofun
      · split
        · nofun
        · split <;> nofun
  unfold boundsTurn at h
  split at h
  · assumption
  · split at h
    · cases h
    · split at h
      · cases h
      · split at h
        · exact absurd h (hobject _ _ _)
        · split at h <;> cases h

theorem boundsTurn_circular {e : PlanError} (h : boundsTurn host graph s = .failed e)
    (he : e.fault = circularFault) : ∃ frame pending r, s.pending = frame :: pending ∧
      frame.exit = false ∧ frame.value = .object r ∧ r ∈ s.active := by
  unfold boundsTurn at h
  split at h
  · cases h
  · next frame pending hpending =>
    split at h
    · cases h
    · next hexit =>
      split at h
      · cases h
        exact absurd he (by show PlanFault.invalidBecause _ ≠ PlanFault.invalidBecause _; decide)
      · split at h
        · next r hvalue =>
          have hactive := boundsObject_circular h he
          exact ⟨frame, pending, r, hpending, Bool.eq_false_iff.mpr hexit, hvalue, hactive⟩
        · split at h
          · next reason hreason =>
            cases h
            exact absurd he (scalarError_ne hreason)
          · cases h

theorem bounded_of_assertPlanBounds
    (h : assertPlanBounds host graph root definitions = some (.ok s)) :
    Bounded graph root definitions := by
  obtain ⟨goal, hroot, hdefinitions, hstart⟩ := @walked_start R _ host graph root definitions
  obtain ⟨hwalked, hdone⟩ := loop_ok (fun _ _ => walked_turn) hstart h
  have htrail := hwalked.trail
  rw [boundsTurn_done hdone] at htrail
  have hleft : ∀ v, Offered graph root definitions v → Left s v := by
    rintro v (hreach | ⟨hgiven, hreach⟩)
    · exact htrail.closed_trans (htrail.finished hroot) hreach
    · exact htrail.closed_trans (htrail.finished (hdefinitions hgiven)) hreach
  refine ⟨?_, fun v hv hscalar => ?_, fun r hr => hwalked.legible r (hleft _ hr).1,
    s.visited, fun r hr => (hleft _ hr).1⟩
  · rintro ⟨v, hv, hcycle⟩
    exact htrail.acyclic v (hleft v hv) hcycle
  · have hdone := hleft v hv
    cases v with
    | object r => exact absurd rfl (hscalar r)
    | _ => exact hdone

/-- What is called circular is. -/
theorem circular_of_assertPlanBounds {e : PlanError}
    (h : assertPlanBounds host graph root definitions = some (.error e))
    (he : e.fault = circularFault) : Circular graph root definitions := by
  obtain ⟨goal, -, -, hstart⟩ := @walked_start R _ host graph root definitions
  obtain ⟨t, hwalked, hfailed⟩ := loop_error (fun _ _ => walked_turn) hstart h
  obtain ⟨frame, pending, r, hpending, hexit, hvalue, hactive⟩ := boundsTurn_circular hfailed he
  refine ⟨.object r, hvalue ▸ hwalked.offered frame (hpending ▸ List.mem_cons_self), ?_⟩
  have htrail := hwalked.trail
  have hvisits : visits t.pending = .enter (.object r) :: visits pending := by
    rw [hpending]
    simp [visits, hexit, hvalue]
  rw [hvisits] at htrail
  exact htrail.cycle (List.mem_map_of_mem hactive)

end Bounds

end FluxFast.Validation
