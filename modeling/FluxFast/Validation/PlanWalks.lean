import FluxFast.Validation.PlanReading

/-!
# PlanWalks — an accepted plan is ready for evaluation

Every node that evaluation can come to, through nested plans, the definitions of any level and the
references to them, was validated.  The walk ends, and its own check for circular plans never fires,
since `assertPlanBounds` has found every cycle.
-/

namespace FluxFast.Validation

open FluxFast.Theory

section Walks

variable {R : Type} [DecidableEq R] {host : PlanHost} {graph : PlanGraph R}
  {root documentDefinitions : Value R} {w t : PlanWalk R}

/-! ## Definitions -/

/-- Equal, or two numbers. -/
def Same (v v' : Value R) : Prop := v = v' ∨ ∃ m n, v = .number m ∧ v' = .number n

omit [DecidableEq R] in
theorem Same.trans {v v' v'' : Value R} (h : Same v v') (h' : Same v' v'') : Same v v'' := by
  rcases h with rfl | ⟨m, n, rfl, rfl⟩
  · exact h'
  · rcases h' with rfl | ⟨k, l, -, rfl⟩
    · exact .inr ⟨m, n, rfl, rfl⟩
    · exact .inr ⟨m, l, rfl, rfl⟩

omit [DecidableEq R] in
theorem Same.symm {v v' : Value R} (h : Same v v') : Same v' v := by
  rcases h with rfl | ⟨m, n, rfl, rfl⟩
  · exact .inl rfl
  · exact .inr ⟨n, m, rfl, rfl⟩

theorem same_of_strictlyEqual {v v' : Value R} (h : strictlyEqual v v' = true) : Same v v' := by
  unfold strictlyEqual at h
  split at h
  · exact .inr ⟨_, _, rfl, rfl⟩
  · exact .inl (of_decide_eq_true h)

/-- What was registered stays, and the names of the new definitions are registered. -/
structure Registers (found : Members R) (names : List String) (target result : Members R) : Prop where
  kept : ∀ name ∈ target.keys, name ∈ result.keys ∧ Same (read target name) (read result name)
  added : ∀ name ∈ names, name ∈ result.keys ∧ Same (read found name) (read result name)
  only : ∀ name ∈ result.keys, (name ∈ target.keys ∧ read result name = read target name) ∨
    name ∈ names ∧ read result name = read found name

omit [DecidableEq R] in
theorem read_set (target : Members R) (name key : String) (v : Value R) :
    read (target.set name v) key = if key = name then v else read target key := by
  unfold read
  rw [OrderedMap.get?_set]
  split <;> rfl

theorem registerNames_ok {found target result : Members R} {path : String} {names : List String}
    (h : registerNames host found path names target = .ok result) :
    Registers found names target result := by
  -- induction on the names; a later one may write over what an earlier one wrote
  induction names generalizing target with
  | nil =>
    cases h
    exact ⟨fun name hname => ⟨hname, .inl rfl⟩, nofun, fun name hname => .inl ⟨hname, rfl⟩⟩
  | cons first names ih =>
    unfold registerNames at h
    split at h
    · cases h
    -- a name registered before keeps its value, since a different one is a conflict
    · next hsame =>
      have hrest := ih h
      have hkeys : ∀ key, key ∈ (target.set first (read found first)).keys ↔
          key = first ∨ key ∈ target.keys := fun key => OrderedMap.mem_keys_set
      refine ⟨fun name hname => ?_, fun name hname => ?_, fun name hname => ?_⟩
      · obtain ⟨hkept, hafter⟩ := hrest.kept name ((hkeys name).mpr (.inr hname))
        refine ⟨hkept, Same.trans ?_ hafter⟩
        rw [read_set]
        split
        · next heq =>
          subst heq
          obtain ⟨held, hheld⟩ := OrderedMap.mem_keys_iff.mp hname
          rw [hheld, Option.any_some, Bool.not_eq_true', Bool.not_eq_false] at hsame
          rw [show read target name = held by rw [read, hheld]; rfl]
          exact same_of_strictlyEqual hsame
        · exact .inl rfl
      -- the name of this turn, or a later one
      · rcases List.mem_cons.mp hname with rfl | hother
        · obtain ⟨hkept, hafter⟩ := hrest.kept name ((hkeys name).mpr (.inl rfl))
          rw [read_set, if_pos rfl] at hafter
          exact ⟨hkept, hafter⟩
        · exact hrest.added name hother
      · rcases hrest.only name hname with ⟨hmem, hread⟩ | ⟨hmem, hread⟩
        · rw [read_set] at hread
          split at hread
          · next heq =>
            subst heq
            exact .inr ⟨List.mem_cons_self, hread⟩
          · next hne => exact .inl ⟨((hkeys name).mp hmem).resolve_left hne, hread⟩
        · exact .inr ⟨List.mem_cons_of_mem _ hmem, hread⟩

/-- The definitions of a record, or none where there are no definitions. -/
def definitionsOf (graph : PlanGraph R) : Value R → Members R
  | .object r =>
    match graph r with
    | .record members => members
    | _ => .empty
  | _ => .empty

omit [DecidableEq R] in
theorem mem_memberValues {value : Value R} {name : String}
    (h : name ∈ (definitionsOf graph value).keys) :
    read (definitionsOf graph value) name ∈ memberValues graph value := by
  cases value with
  | object r =>
    cases hrecord : graph r with
    | record members =>
      have hfound : definitionsOf graph (.object r) = members := by
        simp only [definitionsOf, hrecord]
      have hvalues : memberValues graph (.object r) =
          (Core.Text.sort members.keys).map (read members) := by
        simp only [memberValues, hrecord]
      rw [hfound] at h ⊢
      rw [hvalues]
      apply List.mem_map_of_mem
      exact (List.perm_insertionSort _ _).mem_iff.mpr h
    | _ =>
      simp only [definitionsOf, hrecord] at h
      cases h
  | _ => cases h

theorem registerDefinitions_ok {target result : Members R} {value : Value R} {path : String}
    (h : registerDefinitions host graph target value path = .ok result) :
    Registers (definitionsOf graph value) (definitionsOf graph value).keys target result := by
  unfold registerDefinitions at h
  split at h
  · next habsent =>
    cases h
    rw [habsent]
    exact ⟨fun name hname => ⟨hname, .inl rfl⟩, nofun, fun name hname => .inl ⟨hname, rfl⟩⟩
  · split at h
    · cases h
    · next r found hfound =>
      obtain ⟨rfl, hrecord⟩ := requireRecord_ok hfound
      have hdefinitions : definitionsOf graph (.object r) = found := by simp [definitionsOf, hrecord]
      obtain ⟨hkept, hadded, honly⟩ := registerNames_ok h
      have hmem : ∀ name, name ∈ Core.Text.sort found.keys ↔ name ∈ found.keys := fun name =>
        (List.perm_insertionSort _ _).mem_iff
      rw [hdefinitions]
      exact ⟨hkept, fun name hname => hadded name ((hmem name).mpr hname),
        fun name hname => (honly name hname).imp_right (And.imp_left (hmem name).mp)⟩

/-! ## One round -/

/-- A node is registered in what the walk has gathered. -/
structure Gathered (host : PlanHost) (graph : PlanGraph R) (definitions : Members R)
    (patterns : List (R × (String → Bool))) (r : R) (plan : Members R) (validated : Validated R) :
    Prop where
  record : graph r = .record plan
  valid : Valid host graph plan validated
  registered : ∀ name ∈ (definitionsOf graph (read plan "definitions")).keys,
    name ∈ definitions.keys ∧
      Same (read (definitionsOf graph (read plan "definitions")) name) (read definitions name)
  pattern : ∀ regExp, validated.1 = some regExp → patterns.lookup r = some regExp

theorem openNode_ok {item : WorkItem R} {r : R} {plan : Members R}
    (h : openNode host graph w item r plan = .next t) : ∃ definitions validated,
      registerDefinitions host graph w.definitions (read plan "definitions")
        (item.path ++ ".definitions") = .ok definitions ∧
      validateNode host graph plan item.path = .ok validated ∧ t = { w with
        pending := validated.2.reverse ++ { item with exit := true } :: w.pending
        definitions := definitions
        patterns := (validated.1.map fun regExp => (r, regExp)).toList ++ w.patterns
        visiting := r :: w.visiting } := by
  unfold openNode at h
  split at h
  · cases h
  · next definitions hdefinitions =>
    split at h
    · cases h
    · next regExp items hvalidated =>
      cases h
      exact ⟨definitions, (regExp, items), hdefinitions, hvalidated, rfl⟩

/-- What a round can do. -/
theorem walkTurn_cases (h : walkTurn host graph w = .next t) :
    (w.pending = [] ∧ unscheduled w ≠ [] ∧ t = { w with
        scheduledDefinitions := unscheduled w ++ w.scheduledDefinitions
        pending := ((unscheduled w).map fun name =>
          { value := read w.definitions name
            path := "$.definitions[" ++ host.stringify name ++ "]" }).reverse }) ∨
      ∃ item pending, w.pending = item :: pending ∧
        ((∃ b, item.value = .boolean b ∧ t = { w with pending := pending }) ∨
          ∃ r plan, item.value = .object r ∧ graph r = .record plan ∧
            ((item.exit = true ∧ t = { w with
                pending := pending
                visiting := w.visiting.filter (· ≠ r)
                visited := r :: w.visited }) ∨
              (item.exit = false ∧ r ∉ w.visiting ∧
                ((r ∈ w.visited ∧ t = { w with pending := pending }) ∨
                  r ∉ w.visited ∧ openNode host graph { w with pending := pending } item r plan =
                    .next t)))) := by
  unfold walkTurn at h
  split at h
  -- nothing pending: the definitions not yet scheduled are put on
  · next hpending =>
    unfold schedule at h
    split at h
    · cases h
    · next hsome =>
      cases h
      exact .inl ⟨hpending, fun hnil => hsome (List.isEmpty_iff.mpr hnil), rfl⟩
  · next item pending hpending =>
    refine .inr ⟨item, pending, hpending, ?_⟩
    dsimp only at h
    -- a boolean is a plan without anything below it
    split at h
    · next b hb =>
      cases h
      exact .inl ⟨b, hb, rfl⟩
    · split at h
      · cases h
      · next r plan hrecord =>
        obtain ⟨hvalue, hplan⟩ := requireRecord_ok hrecord
        refine .inr ⟨r, plan, hvalue, hplan, ?_⟩
        -- the second time around the node has been left, the first time it is opened
        split at h
        · next hexit =>
          cases h
          exact .inl ⟨hexit, rfl⟩
        · next hexit =>
          refine .inr ⟨Bool.eq_false_iff.mpr hexit, ?_⟩
          split at h
          · cases h
          · next hvisiting =>
            refine ⟨hvisiting, ?_⟩
            split at h
            · next hvisited =>
              cases h
              exact .inl ⟨hvisited, rfl⟩
            · next hvisited => exact .inr ⟨hvisited, h⟩

/-! ## What every round keeps -/

/-- The second value is put on the work list for the first one. -/
def Nests (graph : PlanGraph R) (v v' : Value R) : Prop :=
  ∃ r plan, v = .object r ∧ graph r = .record plan ∧ v' ∈ (nestedValues graph plan).filter isPlan

/-- The second value is a nested plan of the first one, or a nested definition. -/
def Steps (graph : PlanGraph R) (v v' : Value R) : Prop :=
  ∃ r plan, v = .object r ∧ graph r = .record plan ∧ v' ∈ nestedValues graph plan

/-- What evaluation can come to, from the root or a definition of the document. -/
def Evaluated (graph : PlanGraph R) (root documentDefinitions v : Value R) : Prop :=
  ∃ start, (start = root ∨ ∃ name ∈ (definitionsOf graph documentDefinitions).keys,
    start = read (definitionsOf graph documentDefinitions) name) ∧
      Relation.ReflTransGen (Steps graph) start v

/-- The definitions of the document, or of a node that evaluation can come to. -/
def Level (graph : PlanGraph R) (root documentDefinitions : Value R) (found : Members R) : Prop :=
  found = definitionsOf graph documentDefinitions ∨
    ∃ r plan, Evaluated graph root documentDefinitions (.object r) ∧ graph r = .record plan ∧
      found = definitionsOf graph (read plan "definitions")

/-- Some level has the definition under the name. -/
def Defines (graph : PlanGraph R) (root documentDefinitions : Value R) (name : String)
    (v : Value R) : Prop :=
  ∃ found, Level graph root documentDefinitions found ∧ name ∈ found.keys ∧ v = read found name

def planVisits (pending : List (WorkItem R)) : List (Visit (Value R)) :=
  pending.map fun item => if item.exit then .leave item.value else .enter item.value

def Visited (w : PlanWalk R) : Value R → Prop
  | .boolean _ => True
  | .object r => r ∈ w.visited
  | _ => False

structure Collecting (host : PlanHost) (graph : PlanGraph R) (root documentDefinitions : Value R)
    (w : PlanWalk R) : Prop where
  trail : ∃ goal : Value R → Prop,
    Trail (Nests graph) goal (planVisits w.pending) (w.visiting.map .object) (Visited w) ∧
      goal root ∧ ∀ name ∈ w.scheduledDefinitions, ∃ v, goal v ∧ Same v (read w.definitions name)
  gathered : ∀ r, r ∈ w.visiting ∨ r ∈ w.visited →
    ∃ plan validated, Gathered host graph w.definitions w.patterns r plan validated
  spelled : ∀ v, Visited w v → ∃ plan, Spells host graph v plan
  evaluated : ∀ item ∈ w.pending, Evaluated graph root documentDefinitions item.value
  document : ∀ name ∈ (definitionsOf graph documentDefinitions).keys, name ∈ w.definitions.keys ∧
    Same (read (definitionsOf graph documentDefinitions) name) (read w.definitions name)
  definitions : ∀ name ∈ w.definitions.keys,
    Defines graph root documentDefinitions name (read w.definitions name)
  scheduled : ∀ name ∈ w.scheduledDefinitions, name ∈ w.definitions.keys

theorem Nests.below {v v' : Value R} (h : Nests graph v v') :
    Relation.TransGen (Holds graph) v v' := by
  obtain ⟨r, plan, rfl, hrecord, hmem⟩ := h
  exact below_nestedValues hrecord (List.mem_of_mem_filter hmem)

theorem Nests.cycle {v v' : Value R} (h : Relation.TransGen (Nests graph) v v') :
    Relation.TransGen (Holds graph) v v' := by
  induction h with
  | single hstep => exact hstep.below
  | tail _ hstep ih => exact ih.trans hstep.below

theorem Evaluated.step {v v' : Value R} (h : Evaluated graph root documentDefinitions v)
    (hstep : Steps graph v v') : Evaluated graph root documentDefinitions v' := by
  obtain ⟨start, hstart, hreach⟩ := h
  exact ⟨start, hstart, hreach.tail hstep⟩

theorem Evaluated.offered {v : Value R} (h : Evaluated graph root documentDefinitions v) :
    Offered graph root documentDefinitions v := by
  obtain ⟨start, hstart, hreach⟩ := h
  have hoffered : Offered graph root documentDefinitions start := by
    rcases hstart with rfl | ⟨name, hname, rfl⟩
    · exact .inl .refl
    · obtain ⟨hpresent, hheld⟩ := holds_memberValues (mem_memberValues hname)
      exact .inr ⟨hpresent, .single hheld⟩
  refine hoffered.reaches ?_
  induction hreach with
  | refl => exact .refl
  | tail _ hstep ih =>
    obtain ⟨r, plan, rfl, hrecord, hmem⟩ := hstep
    exact ih.trans (below_nestedValues hrecord hmem).to_reflTransGen

/-- What a reference finds is evaluated. -/
theorem Defines.evaluated {name : String} {v : Value R}
    (h : Defines graph root documentDefinitions name v) :
    Evaluated graph root documentDefinitions v := by
  obtain ⟨found, hlevel, hname, rfl⟩ := h
  rcases hlevel with rfl | ⟨r, plan, hr, hrecord, rfl⟩
  · exact ⟨_, .inr ⟨name, hname, rfl⟩, .refl⟩
  · exact hr.step ⟨r, plan, rfl, hrecord, List.mem_append_right _ (mem_memberValues hname)⟩

theorem filter_opened {r : R} {rest : List R} (h : (r :: rest).Nodup) :
    (r :: rest).filter (· ≠ r) = rest := by
  rw [List.filter_cons_of_neg (by simp)]
  refine List.filter_eq_self.mpr fun x hx => decide_eq_true ?_
  rintro rfl
  exact (List.nodup_cons.mp h).1 hx

/-- What was gathered of a node stays. -/
theorem Gathered.mono {definitions definitions' : Members R} {patterns patterns' : List (R × (String → Bool))}
    {r : R} {plan : Members R} {validated : Validated R}
    (h : Gathered host graph definitions patterns r plan validated)
    (hdefinitions : ∀ name ∈ definitions.keys, name ∈ definitions'.keys ∧
      Same (read definitions name) (read definitions' name))
    (hpatterns : ∀ regExp, patterns.lookup r = some regExp → patterns'.lookup r = some regExp) :
    Gathered host graph definitions' patterns' r plan validated where
  record := h.record
  valid := h.valid
  registered name hname := by
    obtain ⟨hmem, hsame⟩ := h.registered name hname
    obtain ⟨hmem', hsame'⟩ := hdefinitions name hmem
    exact ⟨hmem', hsame.trans hsame'⟩
  pattern regExp hregExp := hpatterns regExp (h.pattern regExp hregExp)

omit [DecidableEq R] in
theorem visits_cons (item : WorkItem R) (pending : List (WorkItem R)) :
    planVisits (item :: pending) =
      (if item.exit then .leave item.value else .enter item.value) :: planVisits pending := rfl

variable {item : WorkItem R} {pending : List (WorkItem R)} {r : R} {plan : Members R}

theorem collecting_schedule (h : Collecting host graph root documentDefinitions w)
    (hpending : w.pending = []) :
    Collecting host graph root documentDefinitions { w with
      scheduledDefinitions := unscheduled w ++ w.scheduledDefinitions
      pending := ((unscheduled w).map fun name =>
        { value := read w.definitions name
          path := "$.definitions[" ++ host.stringify name ++ "]" }).reverse } := by
  -- the new goals are the definitions put on, beside those there were
  obtain ⟨goal, htrail, hroot, hscheduled⟩ := h.trail
  have hnames : ∀ name ∈ unscheduled w, name ∈ w.definitions.keys := fun name hname =>
    (List.perm_insertionSort _ _).mem_iff.mp (List.mem_of_mem_filter hname)
  rw [hpending] at htrail
  have hactive : w.visiting.map Value.object = [] := htrail.leads
  rw [hactive] at htrail
  refine ⟨⟨fun b => goal b ∨ b ∈ (unscheduled w).map (read w.definitions), ?_, .inl hroot,
    fun name hname => ?_⟩, h.gathered, h.spelled, fun item hitem => ?_, h.document, h.definitions,
    fun name hname => ?_⟩
  -- the trail is at rest, so it can set out for new goals
  · have hseek := htrail.seekAll ((unscheduled w).map (read w.definitions))
    have hvisits : planVisits ((unscheduled w).map fun name =>
        ({ value := read w.definitions name
           path := "$.definitions[" ++ host.stringify name ++ "]" } : WorkItem R)).reverse =
        ((unscheduled w).map (read w.definitions)).reverse.map Visit.enter ++ planVisits [] := by
      simp [planVisits, Function.comp_def]
    rw [hvisits, hactive]
    exact hseek
  · rcases List.mem_append.mp hname with hnew | hold
    · exact ⟨_, Or.inr (List.mem_map_of_mem hnew), .inl rfl⟩
    · obtain ⟨v, hv, hsame⟩ := hscheduled name hold
      exact ⟨v, Or.inl hv, hsame⟩
  · obtain ⟨name, hname, rfl⟩ := List.mem_map.mp (List.mem_reverse.mp hitem)
    exact (h.definitions name (hnames name hname)).evaluated
  · exact (List.mem_append.mp hname).elim (hnames name) (h.scheduled name)

theorem collecting_pass (h : Collecting host graph root documentDefinitions w)
    (hpending : w.pending = item :: pending) (hexit : item.exit = false)
    (hvisited : Visited w item.value) :
    Collecting host graph root documentDefinitions { w with pending := pending } := by
  obtain ⟨goal, htrail, hroot, hscheduled⟩ := h.trail
  rw [hpending, visits_cons, hexit] at htrail
  exact ⟨⟨goal, htrail.pass hvisited, hroot, hscheduled⟩, h.gathered, h.spelled,
    fun x hx => h.evaluated x (hpending ▸ List.mem_cons_of_mem _ hx), h.document, h.definitions,
    h.scheduled⟩

theorem collecting_leave (h : Collecting host graph root documentDefinitions w)
    (hpending : w.pending = item :: pending) (hexit : item.exit = true)
    (hvalue : item.value = .object r) :
    Collecting host graph root documentDefinitions { w with
      pending := pending
      visiting := w.visiting.filter (· ≠ r)
      visited := r :: w.visited } := by
  -- the node left is the one opened last
  obtain ⟨goal, htrail, hroot, hscheduled⟩ := h.trail
  rw [hpending, visits_cons, hexit, hvalue] at htrail
  obtain ⟨outer, houter, hleft⟩ := htrail.leave
  obtain ⟨r', rest, hvisiting, heq, rfl⟩ := List.map_eq_cons_iff.mp houter
  cases heq
  have hnodup : (r :: rest).Nodup := by
    have hmapped := htrail.nodup
    rw [hvisiting] at hmapped
    exact hmapped.of_map _
  have hopen : r ∈ w.visiting := hvisiting ▸ List.mem_cons_self
  -- being visited is what changes, and for this node alone
  have hsame : (fun b => Visited w b ∨ b = .object r) =
      Visited { w with pending := pending, visiting := rest, visited := r :: w.visited } := by
    funext b
    refine propext ?_
    cases b with
    | object x =>
      show x ∈ w.visited ∨ _ ↔ x ∈ r :: w.visited
      rw [List.mem_cons, Value.object.injEq, or_comm]
    | boolean b => exact iff_of_true (.inl trivial) trivial
    | _ => simp [Visited]
  -- nothing else of the walk is touched
  rw [hvisiting, filter_opened hnodup]
  refine ⟨⟨goal, hsame ▸ hleft, hroot, hscheduled⟩, fun x hx => ?_, fun v hv => ?_, fun x hx => ?_,
    h.document, h.definitions, h.scheduled⟩
  · have hbefore : x ∈ w.visiting ∨ x ∈ w.visited := by
      rcases hx with hrest | hvisited
      · exact .inl (hvisiting ▸ List.mem_cons_of_mem _ hrest)
      · rcases List.mem_cons.mp hvisited with rfl | hold
        · exact .inl hopen
        · exact .inr hold
    exact h.gathered x hbefore
  · rw [← hsame] at hv
    rcases hv with hold | rfl
    · exact h.spelled v hold
    · -- every nested plan was visited before, so the node can be read
      obtain ⟨plan, validated, hgathered⟩ := h.gathered r (.inl hopen)
      obtain ⟨text, name, hkind, hname, hspells⟩ := hgathered.valid.spells
      obtain ⟨k, hk⟩ := hspells (Spells host graph) fun v hv => by
        by_cases hplan : isPlan v
        · exact h.spelled v (htrail.covered.1 v
            ⟨r, plan, rfl, hgathered.record, List.mem_filter.mpr ⟨hv, hplan⟩⟩)
        · cases v with
          | boolean b => exact ⟨_, .boolean b⟩
          | _ => exact absurd rfl hplan
      exact ⟨_, .node hgathered.record hkind hname hk⟩
  · exact h.evaluated x (hpending ▸ List.mem_cons_of_mem _ hx)

theorem collecting_open (h : Collecting host graph root documentDefinitions w)
    (hpending : w.pending = item :: pending) (hexit : item.exit = false)
    (hvalue : item.value = .object r) (hrecord : graph r = .record plan)
    (hvisiting : r ∉ w.visiting) (hvisited : r ∉ w.visited) {definitions : Members R}
    {validated : Validated R} {path : String}
    (hdefinitions : registerDefinitions host graph w.definitions (read plan "definitions")
      path = .ok definitions)
    (hvalid : Valid host graph plan validated) :
    Collecting host graph root documentDefinitions { w with
      pending := validated.2.reverse ++ { item with exit := true } :: pending
      definitions := definitions
      patterns := (validated.1.map fun regExp => (r, regExp)).toList ++ w.patterns
      visiting := r :: w.visiting } := by
  -- the trail opens the node and sets out for what is nested in it
  obtain ⟨goal, htrail, hroot, hscheduled⟩ := h.trail
  rw [hpending, visits_cons, hexit, hvalue] at htrail
  obtain ⟨hkept, hadded, honly⟩ := registerDefinitions_ok hdefinitions
  have hitem : Evaluated graph root documentDefinitions (.object r) :=
    hvalue ▸ h.evaluated item (hpending ▸ List.mem_cons_self)
  have hlists := hvalid.lists
  refine ⟨⟨goal, ?_, hroot, fun name hname => ?_⟩, fun x hx => ?_, h.spelled, fun x hx => ?_,
    fun name hname => ?_, fun name hname => ?_, fun name hname => ?_⟩
  · have hvisits : planVisits (validated.2.reverse ++ { item with exit := true } :: pending) =
        ((nestedValues graph plan).filter isPlan).reverse.map .enter ++
          .leave (.object r) :: planVisits pending := by
      have henter : planVisits validated.2 =
          ((nestedValues graph plan).filter isPlan).map .enter := by
        have hmapped := congrArg (List.map fun e : Value R × Bool =>
          if e.2 then Visit.leave e.1 else Visit.enter e.1) hlists
        rw [List.map_map, List.map_map] at hmapped
        exact hmapped
      rw [planVisits, List.map_append, List.map_reverse, List.map_reverse, ← henter, List.map_cons]
      simp [planVisits, hvalue]
    rw [hvisits]
    -- the node was neither open nor visited, so it is new to the trail
    refine htrail.opened ?_ hvisited fun v => ?_
    · rw [List.mem_map]
      rintro ⟨x, hx, heq⟩
      cases heq
      exact hvisiting hx
    · rw [List.mem_reverse]
      constructor
      · rintro ⟨x, other, heq, hother, hmem⟩
        cases heq
        cases hrecord.symm.trans hother
        exact hmem
      · exact fun hmem => ⟨r, plan, rfl, hrecord, hmem⟩
  · obtain ⟨v, hv, hsame⟩ := hscheduled name hname
    exact ⟨v, hv, hsame.trans (hkept name (h.scheduled name hname)).2⟩
  -- what is gathered of this node, and what was gathered of the others
  · by_cases hx' : x = r
    · subst hx'
      refine ⟨plan, validated, hrecord, hvalid, hadded, fun regExp hregExp => ?_⟩
      rw [hregExp]
      simp
    · have hbefore : x ∈ w.visiting ∨ x ∈ w.visited :=
        hx.imp_left fun hmem => (List.mem_cons.mp hmem).resolve_left hx'
      obtain ⟨other, known, hgathered⟩ := h.gathered x hbefore
      refine ⟨other, known, hgathered.mono hkept fun regExp hregExp => ?_⟩
      cases validated.1 with
      | none => exact hregExp
      | some found =>
        show List.lookup x ((r, found) :: w.patterns) = _
        rw [List.lookup_cons, beq_eq_false_iff_ne.mpr hx']
        exact hregExp
  -- the items now pending are nested in the node, its own exit, or pending before
  · rcases List.mem_append.mp hx with hnested | hrest
    · have hmem : (x.value, x.exit) ∈ ((nestedValues graph plan).filter isPlan).map
          fun value => (value, false) := by
        rw [← hlists]
        exact List.mem_map_of_mem (List.mem_reverse.mp hnested)
      obtain ⟨v, hv, heq⟩ := List.mem_map.mp hmem
      have hvalue : v = x.value := congrArg Prod.fst heq
      rw [← hvalue]
      exact hitem.step ⟨r, plan, rfl, hrecord, List.mem_of_mem_filter hv⟩
    · rcases List.mem_cons.mp hrest with rfl | hold
      · show Evaluated graph root documentDefinitions item.value
        rw [hvalue]
        exact hitem
      · exact h.evaluated x (hpending ▸ List.mem_cons_of_mem _ hold)
  · obtain ⟨hmem, hsame⟩ := h.document name hname
    exact ⟨(hkept name hmem).1, hsame.trans (hkept name hmem).2⟩
  -- a definition was there before, or comes from this node
  · rcases honly name hname with ⟨hmem, hread⟩ | ⟨hmem, hread⟩
    · rw [hread]
      exact h.definitions name hmem
    · -- a new name comes from the definitions of this node
      rw [hread]
      exact ⟨_, .inr ⟨r, plan, hitem, hrecord, rfl⟩, hmem, rfl⟩
  · exact (hkept name (h.scheduled name hname)).1

theorem collecting_turn (h : Collecting host graph root documentDefinitions w)
    (hturn : walkTurn host graph w = .next t) :
    Collecting host graph root documentDefinitions t := by
  rcases walkTurn_cases hturn with ⟨hpending, -, rfl⟩ | ⟨item, pending, hpending, hcases⟩
  · exact collecting_schedule h hpending
  · rcases hcases with ⟨b, hvalue, rfl⟩ | ⟨r, plan, hvalue, hrecord, hcases⟩
    · cases hexit : item.exit with
      | false => exact collecting_pass h hpending hexit (hvalue ▸ trivial)
      | true =>
        obtain ⟨goal, htrail, -⟩ := h.trail
        rw [hpending, visits_cons, hexit, hvalue] at htrail
        obtain ⟨outer, houter, -⟩ := htrail.leave
        obtain ⟨r, rest, -, heq, -⟩ := List.map_eq_cons_iff.mp houter
        cases heq
    · rcases hcases with ⟨hexit, rfl⟩ | ⟨hexit, hvisiting, ⟨hvisited, rfl⟩ | ⟨hvisited, hopen⟩⟩
      · exact collecting_leave h hpending hexit hvalue
      · exact collecting_pass h hpending hexit (hvalue ▸ hvisited)
      · obtain ⟨definitions, validated, hdefinitions, hvalidated, rfl⟩ := openNode_ok hopen
        exact collecting_open h hpending hexit hvalue hrecord hvisiting hvisited hdefinitions
          (validateNode_ok hvalidated)

/-- The walk begins with the root and the definitions of the document. -/
theorem collecting_start {definitions : Members R}
    (hdefinitions : registerDefinitions host graph .empty documentDefinitions "$.definitions" =
      .ok definitions) :
    Collecting host graph root documentDefinitions
      { pending := [{ value := root, path := "$" }], definitions := definitions } := by
  -- a walk that has seen nothing leads nowhere, so every clause on the trail is empty
  have hnothing : Trail (Nests graph) (fun _ => False) [] []
      (Visited ({ pending := [], definitions := definitions } : PlanWalk R)) := by
    have hboolean : ∀ v v', Visited ({ pending := [], definitions := definitions } : PlanWalk R) v →
        ¬Nests graph v v' := by
      rintro v v' hv ⟨r, plan, rfl, -⟩
      exact List.not_mem_nil hv
    refine ⟨rfl, fun _ => False.elim, .nil, fun v hv => absurd hv List.not_mem_nil,
      fun v v' hv hstep => absurd hstep (hboolean v v' hv), fun v hv hcycle => ?_⟩
    obtain ⟨v', hstep, -⟩ := Relation.TransGen.head'_iff.mp hcycle
    exact hboolean v v' hv hstep
  obtain ⟨-, hadded, honly⟩ := registerDefinitions_ok hdefinitions
  refine ⟨⟨fun v => False ∨ v = root, hnothing.seek root, .inr rfl, nofun⟩, ?_, fun v hv => ?_,
    fun item hitem => ?_, hadded, fun name hname => ?_, nofun⟩
  -- no node is open or visited yet
  · rintro r (hr | hr) <;> cases hr
  · cases v with
    | boolean b => exact ⟨_, .boolean b⟩
    | object r => cases hv
    | _ => cases hv
  · rw [List.mem_singleton.mp hitem]
    exact ⟨root, .inl rfl, .refl⟩
  · rcases honly name hname with ⟨hmem, -⟩ | ⟨hmem, hread⟩
    · cases hmem
    · rw [show read _ name = _ from hread]
      exact ⟨_, .inl rfl, hmem, rfl⟩

/-! ## The walk ends -/

/-- The objects that are left to be visited, the names to be scheduled and the work list. -/
def workLeft (rs : List R) (w : PlanWalk R) : Nat × Nat × Nat :=
  ((rs.filter fun r => r ∉ w.visiting ∧ r ∉ w.visited).length, (unscheduled w).length,
    w.pending.length)

abbrev Less : Nat × Nat × Nat → Nat × Nat × Nat → Prop :=
  Prod.Lex (· < ·) (Prod.Lex (· < ·) (· < ·))

theorem less_of_le {a a' : Nat} {b b' : Nat × Nat} (hle : a' ≤ a)
    (hless : Prod.Lex (· < ·) (· < ·) b' b) : Less (a', b') (a, b) := by
  rcases Nat.lt_or_eq_of_le hle with hlt | rfl
  · exact .left _ _ hlt
  · exact .right _ hless

theorem workLeft_less {rs : List R} (hrs : ∀ r, Offered graph root documentDefinitions (.object r) → r ∈ rs)
    (h : Collecting host graph root documentDefinitions w)
    (hturn : walkTurn host graph w = .next t) : Less (workLeft rs t) (workLeft rs w) := by
  have hpop : ∀ {item : WorkItem R} {pending}, w.pending = item :: pending →
      pending.length < w.pending.length := by
    intro item pending hpending
    rw [hpending]
    exact Nat.lt_succ_self _
  -- names not scheduled, then nodes not seen, then items pending: one of them goes down
  rcases walkTurn_cases hturn with ⟨hpending, hsome, rfl⟩ | ⟨item, pending, hpending, hcases⟩
  -- every name has been scheduled now
  · refine .right _ (.left _ _ ?_)
    have hnone : unscheduled { w with
        scheduledDefinitions := unscheduled w ++ w.scheduledDefinitions
        pending := ((unscheduled w).map fun name =>
          { value := read w.definitions name
            path := "$.definitions[" ++ host.stringify name ++ "]" }).reverse } = [] := by
      refine List.filter_eq_nil_iff.mpr fun name hname => ?_
      rw [decide_eq_true_eq, not_not, List.mem_append]
      by_cases hold : name ∈ w.scheduledDefinitions
      · exact .inr hold
      · exact .inl (List.mem_filter.mpr ⟨hname, decide_eq_true hold⟩)
    rw [hnone]
    exact List.length_pos_iff.mpr hsome
  · rcases hcases with ⟨b, hvalue, rfl⟩ | ⟨r, plan, hvalue, hrecord, hcases⟩
    · exact .right _ (.right _ (hpop hpending))
    · rcases hcases with ⟨hexit, rfl⟩ | ⟨hexit, hvisiting, ⟨hvisited, rfl⟩ | ⟨hvisited, hopen⟩⟩
      -- a node left stays seen, so only the items go down
      · refine less_of_le (List.Sublist.length_le ?_) (.right _ (hpop hpending))
        refine List.monotone_filter_right rs fun x hx => ?_
        simp only [List.mem_filter, List.mem_cons, decide_eq_true_eq] at hx ⊢
        grind
      · exact .right _ (.right _ (hpop hpending))
      -- a node opened is one of the offered nodes that was not seen before
      · obtain ⟨definitions, validated, -, -, rfl⟩ := openNode_ok hopen
        refine .left _ _ ?_
        have hr : r ∈ rs.filter fun x => x ∉ w.visiting ∧ x ∉ w.visited := by
          refine List.mem_filter.mpr ⟨hrs r ?_, decide_eq_true ⟨hvisiting, hvisited⟩⟩
          exact hvalue ▸ (h.evaluated item (hpending ▸ List.mem_cons_self)).offered
        have hfewer : (rs.filter fun x => x ∉ r :: w.visiting ∧ x ∉ w.visited) =
            (rs.filter fun x => x ∉ w.visiting ∧ x ∉ w.visited).filter (· ≠ r) := by
          rw [List.filter_filter]
          refine List.filter_congr fun x _ => ?_
          simp only [List.mem_cons, not_or, Bool.decide_and, decide_not, ne_eq, Bool.and_assoc]
        show (rs.filter fun x => x ∉ r :: w.visiting ∧ x ∉ w.visited).length < _
        rw [hfewer]
        exact List.length_filter_lt_length_iff_exists.mpr ⟨r, hr, by simp⟩

theorem collectAndValidate_ends (host : PlanHost) (graph : PlanGraph R)
    (root documentDefinitions : Value R) :
    ∃ fuel result, collectAndValidate host graph fuel root documentDefinitions = some result := by
  obtain ⟨bounds, hbounds⟩ := assertPlanBounds_ends host graph root documentDefinitions
  unfold collectAndValidate
  rw [hbounds]
  cases bounds with
  | error e => exact ⟨0, _, rfl⟩
  | ok s =>
    cases hdefinitions : registerDefinitions host graph .empty documentDefinitions "$.definitions" with
    | error e => exact ⟨0, _, rfl⟩
    | ok definitions =>
      obtain ⟨rs, hrs⟩ := (bounded_of_assertPlanBounds hbounds).finite
      have hwf : WellFounded Less := WellFounded.prod_lex Nat.lt_wfRel.wf
        (WellFounded.prod_lex Nat.lt_wfRel.wf Nat.lt_wfRel.wf)
      exact loop_ends hwf (workLeft rs)
        (fun _ _ h hturn => ⟨collecting_turn h hturn, workLeft_less hrs h hturn⟩)
        (collecting_start hdefinitions)

/-! ## What is accepted is ready -/

/-- The compiled plan is about this root, and about the definitions of this document. -/
structure Ready (host : PlanHost) (graph : PlanGraph R) (root documentDefinitions : Value R)
    (compiled : CompiledPlanGraph R) : Prop where
  rooted : compiled.root = root
  /-- References find the definitions of every level, and no others. -/
  definitions : ∀ name v, compiled.definitions.get? name = some v ↔
    Defines graph root documentDefinitions name v
  /-- Every plan can be read, whatever evaluation comes to. -/
  spelled : ∀ v, Evaluated graph root documentDefinitions v → ∃ plan, Spells host graph v plan
  /-- Every pattern is compiled. -/
  patterns : ∀ r plan text, Evaluated graph root documentDefinitions (.object r) →
    graph r = .record plan → read plan "kind" = .string "string" →
      read plan "pattern" = .string text →
        ∃ regExp, host.regExp text = .ok regExp ∧ compiled.patterns.lookup r = some regExp
  /-- Evaluation goes on from what a reference finds. -/
  references : ∀ name v, compiled.definitions.get? name = some v →
    Evaluated graph root documentDefinitions v

theorem walkTurn_done (h : walkTurn host graph w = .done) : w.pending = [] ∧ unscheduled w = [] := by
  have hopen : ∀ (u : PlanWalk R) item r plan, openNode host graph u item r plan ≠ .done := by
    intro u item r plan
    unfold openNode
    split
    · nofun
    · split <;> nofun
  unfold walkTurn at h
  split at h
  · next hpending =>
    unfold schedule at h
    split at h
    · next hnone => exact ⟨hpending, List.isEmpty_iff.mp hnone⟩
    · cases h
  · dsimp only at h
    split at h
    · cases h
    · split at h
      · cases h
      · split at h
        · cases h
        · split at h
          · cases h
          · split at h
            · cases h
            · exact absurd h (hopen _ _ _ _)

theorem visited_steps (hclosed : ∀ v v', Visited w v → Nests graph v v' → Visited w v') {v v' : Value R}
    (hv : Visited w v) (hreach : Relation.ReflTransGen (Steps graph) v v') : Visited w v' := by
  induction hreach with
  | refl => exact hv
  | @tail b c _ hstep ih =>
    obtain ⟨r, plan, rfl, hrecord, hmem⟩ := hstep
    by_cases hplan : isPlan c
    · exact hclosed _ _ ih ⟨r, plan, rfl, hrecord, List.mem_filter.mpr ⟨hmem, hplan⟩⟩
    · cases c with
      | boolean b => trivial
      | _ => exact absurd rfl hplan

omit [DecidableEq R] in
/-- Two numbers are no plans. -/
theorem eq_of_same {v v' : Value R} (hv : Visited w v) (hsame : Same v v') : v = v' := by
  rcases hsame with rfl | ⟨m, n, rfl, rfl⟩
  · rfl
  · exact hv.elim

theorem ready_of_collecting (h : Collecting host graph root documentDefinitions w)
    (hpending : w.pending = []) (hscheduled : unscheduled w = []) :
    Ready host graph root documentDefinitions ⟨root, w.definitions, w.patterns⟩ := by
  obtain ⟨goal, htrail, hroot, hgoal⟩ := h.trail
  rw [hpending] at htrail
  have hfound : ∀ name ∈ w.definitions.keys, Visited w (read w.definitions name) := by
    intro name hname
    have hmem : name ∈ w.scheduledDefinitions := by
      by_contra hnot
      have hin : name ∈ unscheduled w := List.mem_filter.mpr
        ⟨(List.perm_insertionSort _ _).mem_iff.mpr hname, decide_eq_true hnot⟩
      rw [hscheduled] at hin
      cases hin
    obtain ⟨v, hv, hsame⟩ := hgoal name hmem
    have hvisited := htrail.finished hv
    exact eq_of_same hvisited hsame ▸ hvisited
  -- a number is not visited, so what is registered under a name is the definition itself
  have hkept : ∀ (name : String) (v : Value R), name ∈ w.definitions.keys →
      Same v (read w.definitions name) → v = read w.definitions name := fun name v hname hsame =>
    (eq_of_same (hfound name hname) hsame.symm).symm
  have hevaluated : ∀ v, Evaluated graph root documentDefinitions v → Visited w v := by
    rintro v ⟨start, rfl | ⟨name, hname, rfl⟩, hreach⟩
    · exact visited_steps htrail.closed (htrail.finished hroot) hreach
    · obtain ⟨hmem, hsame⟩ := h.document name hname
      refine visited_steps htrail.closed ?_ hreach
      rw [hkept name _ hmem hsame]
      exact hfound name hmem
  have hread : ∀ name ∈ w.definitions.keys,
      w.definitions.get? name = some (read w.definitions name) := by
    intro name hname
    obtain ⟨v, hv⟩ := OrderedMap.mem_keys_iff.mp hname
    rw [read, hv]
    rfl
  have hdefines : ∀ name v, w.definitions.get? name = some v →
      Defines graph root documentDefinitions name v := by
    intro name v hv
    have hname := OrderedMap.mem_keys_of_get? hv
    have hsome := (hread name hname).symm.trans hv
    exact Option.some.inj hsome ▸ h.definitions name hname
  refine ⟨rfl, fun name v => ⟨hdefines name v, ?_⟩, fun v hv => h.spelled v (hevaluated v hv),
    fun r plan text hr hrecord hkind htext => ?_, fun name v hv => (hdefines name v hv).evaluated⟩
  · rintro ⟨found, rfl | ⟨r, plan, hr, hrecord, rfl⟩, hname, rfl⟩
    · obtain ⟨hmem, hsame⟩ := h.document name hname
      rw [hkept name _ hmem hsame]
      exact hread name hmem
    · obtain ⟨other, validated, hgathered⟩ := h.gathered r (.inr (hevaluated _ hr))
      cases hrecord.symm.trans hgathered.record
      obtain ⟨hmem, hsame⟩ := hgathered.registered name hname
      rw [hkept name _ hmem hsame]
      exact hread name hmem
  · obtain ⟨other, validated, hgathered⟩ := h.gathered r (.inr (hevaluated _ hr))
    cases hrecord.symm.trans hgathered.record
    obtain ⟨regExp, hcompile, hregExp⟩ := hgathered.valid.compiled hkind text htext
    exact ⟨regExp, hcompile, hgathered.pattern regExp hregExp⟩

/-- The outcome of the two loops. -/
theorem collectAndValidate_cases {fuel : Nat} {result : Except PlanError (PlanWalk R)}
    (h : collectAndValidate host graph fuel root documentDefinitions = some result) :
    (∃ e, assertPlanBounds host graph root documentDefinitions = some (.error e) ∧ result = .error e) ∨
      ∃ s, assertPlanBounds host graph root documentDefinitions = some (.ok s) ∧
        ((∃ e, registerDefinitions host graph .empty documentDefinitions "$.definitions" = .error e ∧
            result = .error e) ∨
          ∃ definitions, registerDefinitions host graph .empty documentDefinitions "$.definitions" =
              .ok definitions ∧
            loop (walkTurn host graph) fuel
              { pending := [{ value := root, path := "$" }], definitions := definitions } =
                some result) := by
  unfold collectAndValidate at h
  split at h
  · cases h
  · next e he =>
    cases h
    exact .inl ⟨e, he, rfl⟩
  · next s hs =>
    refine .inr ⟨s, hs, ?_⟩
    split at h
    · next e he =>
      cases h
      exact .inl ⟨e, he, rfl⟩
    · next definitions hdefinitions => exact .inr ⟨definitions, hdefinitions, h⟩

/-- A plan that is accepted is ready. -/
theorem compileValidationPlan_ready {fuel : Nat} {input : Value R} {compiled : CompiledPlanGraph R}
    (h : compileValidationPlan host graph fuel input = some (.ok compiled)) :
    Ready host graph (rootOf graph input) (documentDefinitionsOf graph input) compiled := by
  obtain ⟨result, hcollect, hresult⟩ := Option.map_eq_some_iff.mp h
  obtain ⟨w, rfl, rfl⟩ := except_map_ok.mp hresult
  rcases collectAndValidate_cases hcollect with ⟨e, -, he⟩ | ⟨s, -, ⟨e, -, he⟩ | ⟨definitions, hd, hloop⟩⟩
  · cases he
  · cases he
  · obtain ⟨hcollecting, hdone⟩ := loop_ok (fun _ _ => collecting_turn) (collecting_start hd) hloop
    obtain ⟨hpending, hscheduled⟩ := walkTurn_done hdone
    exact ready_of_collecting hcollecting hpending hscheduled

theorem compileValidationPlan_ends (host : PlanHost) (graph : PlanGraph R) (input : Value R) :
    ∃ fuel result, compileValidationPlan host graph fuel input = some result := by
  obtain ⟨fuel, result, h⟩ := collectAndValidate_ends host graph (rootOf graph input)
    (documentDefinitionsOf graph input)
  exact ⟨fuel, result.map fun w => ⟨rootOf graph input, w.definitions, w.patterns⟩, by
    rw [compileValidationPlan, h]
    rfl⟩

end Walks

/-! ## Circular plans -/

section Circular

variable {R : Type} [DecidableEq R] {host : PlanHost} {graph : PlanGraph R}
  {root documentDefinitions : Value R} {plan : Members R} {path : String}

/-- Whatever error it is, it calls nothing circular. -/
def Mild {α : Type} (x : Except PlanError α) : Prop :=
  ∀ e, x = .error e → e.fault ≠ .circularPlan ∧ e.fault ≠ circularFault

theorem mild_ok {α : Type} (a : α) : Mild (.ok a) := nofun

theorem mild_error {α : Type} {e : PlanError}
    (h : e.fault ≠ .circularPlan ∧ e.fault ≠ circularFault) : Mild (.error e : Except PlanError α) := by
  rintro _ ⟨⟩
  exact h

theorem mild_failed {α : Type} {path reason : String} (h : reason ≠ "plan values cannot be circular") :
    Mild (failed path reason : Except PlanError α) :=
  mild_error ⟨nofun, fun heq => h (PlanFault.invalidBecause.inj heq)⟩

theorem Mild.bind {α β : Type} {x : Except PlanError α} {f : α → Except PlanError β} (hx : Mild x)
    (hf : ∀ a, Mild (f a)) : Mild (x >>= f) := by
  intro e he
  rcases except_bind_error.mp he with herror | ⟨a, -, herror⟩
  · exact hx e herror
  · exact hf a e herror

theorem Mild.map {α β : Type} {x : Except PlanError α} {f : α → β} (hx : Mild x) : Mild (x.map f) := by
  cases x with
  | error e =>
    rintro _ ⟨⟩
    exact hx e rfl
  | ok a => exact mild_ok _

omit [DecidableEq R] in
theorem mild_requireRecord (value : Value R) (path : String) : Mild (requireRecord graph value path) := by
  unfold requireRecord
  split
  · split
    · exact mild_ok _
    · exact mild_error ⟨nofun, nofun⟩
  · exact mild_error ⟨nofun, nofun⟩

omit [DecidableEq R] in
theorem mild_requireArray (value : Value R) (path : String) : Mild (requireArray graph value path) := by
  unfold requireArray
  split
  · split
    · exact mild_ok _
    · exact mild_failed (by decide)
  · exact mild_failed (by decide)

omit [DecidableEq R] in
theorem mild_requireBoolean (value : Value R) (path : String) : Mild (requireBoolean value path) := by
  unfold requireBoolean
  split
  · exact mild_ok _
  · exact mild_failed (by decide)

omit [DecidableEq R] in
theorem mild_requireText (value : Value R) (path : String) : Mild (requireText value path) := by
  unfold requireText
  split
  · exact mild_ok _
  · exact mild_error ⟨nofun, nofun⟩

omit [DecidableEq R] in
theorem mild_requireString (value : Value R) (path : String) : Mild (requireString value path) := by
  unfold requireString
  split
  · exact mild_ok _
  · exact mild_failed (by decide)

omit [DecidableEq R] in
theorem mild_requireNonEmptyString (value : Value R) (path : String) :
    Mild (requireNonEmptyString value path) := by
  unfold requireNonEmptyString
  split
  · next e he => exact mild_error (mild_requireString value path e he)
  · split
    · exact mild_failed (by decide)
    · exact mild_ok _

omit [DecidableEq R] in
theorem mild_requireNonNegativeInteger (value : Value R) (path : String) :
    Mild (requireNonNegativeInteger value path) := by
  unfold requireNonNegativeInteger
  split
  · exact mild_ok _
  · exact mild_failed (by decide)

omit [DecidableEq R] in
theorem mild_requireFiniteNumber (value : Value R) (path : String) :
    Mild (requireFiniteNumber value path) := by
  unfold requireFiniteNumber
  split
  · split
    · exact mild_ok _
    · exact mild_failed (by decide)
  · exact mild_failed (by decide)

theorem mild_whenPresent {α : Type} {key : String} {check : Value R → Except PlanError α}
    (h : ∀ value, Mild (check value)) : Mild (whenPresent plan key check) := by
  unfold whenPresent
  split
  · exact mild_ok _
  · exact (h _).map

theorem mild_requireOrder (low high : Option Nat) (rest : String) :
    Mild (requireOrder path low high rest) := by
  unfold requireOrder
  split
  · split
    · exact mild_error ⟨nofun, nofun⟩
    · exact mild_ok _
  · exact mild_ok _

omit [DecidableEq R] in
theorem mild_requireDistinct (values : List (Value R)) (seen : List String) (index : Nat) :
    Mild (requireDistinct host path values seen index) := by
  induction values generalizing seen index with
  | nil => exact mild_ok _
  | cons value values ih =>
    unfold requireDistinct
    split
    · next e he => exact mild_error (mild_requireString _ _ e he)
    · split
      · exact mild_error ⟨nofun, nofun⟩
      · exact ih _ _

omit [DecidableEq R] in
theorem mild_requireBranches (key : String) : Mild (requireBranches graph plan path key) := by
  unfold requireBranches
  split
  · next e he => exact mild_error (mild_requireArray _ _ e he)
  · split
    · exact mild_error ⟨nofun, nofun⟩
    · exact mild_ok _

theorem mild_validateString : Mild (validateString host plan path) := by
  have hpattern : ∀ value : Value R, Mild (validatePattern host path value) := by
    intro value
    unfold validatePattern
    split
    · next e he => exact mild_error (mild_requireString _ _ e he)
    · split
      · exact mild_error ⟨nofun, nofun⟩
      · split
        · exact mild_error ⟨nofun, nofun⟩
        · exact mild_ok _
  have hformat : ∀ value : Value R, Mild (validateFormat host path value) := by
    intro value
    unfold validateFormat
    split
    · next e he => exact mild_error (mild_requireNonEmptyString _ _ e he)
    · split
      · exact mild_ok _
      · exact mild_error ⟨nofun, nofun⟩
  unfold validateString
  refine (mild_whenPresent fun value => mild_requireNonNegativeInteger value _).bind fun _ => ?_
  refine (mild_whenPresent fun value => mild_requireNonNegativeInteger value _).bind fun _ => ?_
  refine (mild_requireOrder _ _ _).bind fun _ => ?_
  refine (mild_whenPresent hpattern).bind fun _ => ?_
  exact (mild_whenPresent hformat).bind fun _ => mild_ok _

theorem mild_validateKind (kind : KindName) : Mild (validateKind host graph plan path kind) := by
  -- the checks of the fields raise none of the two faults, nor do the numbers and branches
  have hfinite : ∀ key text, Mild (whenPresent plan key fun value => requireFiniteNumber value text) :=
    fun key text => mild_whenPresent fun value => mild_requireFiniteNumber value _
  have hlength : ∀ key text, Mild (whenPresent plan key fun value =>
      requireNonNegativeInteger value text) :=
    fun key text => mild_whenPresent fun value => mild_requireNonNegativeInteger value _
  have hnumber : Mild (validateNumberFields plan path) := by
    unfold validateNumberFields
    refine (hfinite _ _).bind fun _ => (hfinite _ _).bind fun _ => (hfinite _ _).bind fun _ =>
      (hfinite _ _).bind fun _ => (hfinite _ _).bind fun _ => ?_
    split
    · apply mild_error
      constructor <;> (intro heq; cases heq)
    · exact mild_ok _
  have hunion : ∀ kind, Mild (validateUnion graph plan path kind) := by
    intro kind
    unfold validateUnion
    refine (mild_requireBranches _).bind fun _ => ?_
    split
    · exact (mild_whenPresent fun value => mild_requireBoolean value _).bind fun _ => mild_ok _
    · exact mild_ok _
  -- one case for each kind of plan
  cases kind with
  | string => exact mild_validateString
  | number => exact hnumber.map
  | integer => exact hnumber.map
  | literal =>
    rw [validateKind]
    split
    · exact mild_ok _
    · apply mild_error
      constructor <;> (intro heq; cases heq)
  | enum => exact (mild_requireBranches _).map
  | array =>
    refine (mild_whenPresent fun value => mild_requireArray value _).bind fun _ => ?_
    exact (hlength _ _).bind fun _ => (hlength _ _).bind fun _ =>
      (mild_requireOrder _ _ _).bind fun _ => mild_ok _
  | tuple => exact (mild_requireArray _ _).bind fun _ => mild_ok _
  | object =>
    refine (mild_whenPresent fun value => mild_requireRecord value _).bind fun _ => ?_
    refine (mild_whenPresent fun value => mild_requireArray value _).bind fun _ => ?_
    exact (mild_requireDistinct _ _ _).bind fun _ => mild_ok _
  | union => exact hunion _
  | oneOf => exact hunion _
  | intersection => exact (mild_requireArray _ _).bind fun _ => mild_ok _
  | ref =>
    rw [validateKind, validateReference]
    split
    · apply mild_error
      constructor <;> (intro heq; cases heq)
    · exact (mild_requireNonEmptyString _ _).map
  | _ => exact mild_ok _

theorem mild_validateNode : Mild (validateNode host graph plan path) := by
  -- nor do the checks that every kind shares
  have hnames : ∀ (path : String) names, Mild (requireNames host path names) := by
    intro path names
    induction names with
    | nil => exact mild_ok _
    | cons name names ih =>
      unfold requireNames
      split
      · exact mild_failed (by decide)
      · exact ih
  have hcommon : Mild (validateCommonFields graph plan path) := by
    unfold validateCommonFields
    refine (mild_whenPresent fun value => mild_requireBoolean value _).bind fun _ => ?_
    refine (mild_whenPresent fun value => mild_requireBoolean value _).bind fun _ => ?_
    refine (mild_whenPresent fun value => mild_requireRecord value _).bind fun _ => ?_
    refine (mild_whenPresent fun value => mild_requireText value _).bind fun _ => ?_
    refine (mild_whenPresent fun value => mild_requireText value _).bind fun _ => ?_
    exact (mild_whenPresent fun value => mild_requireArray value _).bind fun _ => mild_ok _
  have hdefinitions : Mild (validateDefinitions host graph plan path) := by
    unfold validateDefinitions
    refine (mild_whenPresent fun value => mild_requireRecord value _).bind fun found => ?_
    cases found with
    | none => exact mild_ok _
    | some found => exact (hnames _ _).bind fun _ => mild_ok _
  have hknown : ∀ kind, Mild (assertKnownKeys host plan path kind) := by
    intro kind
    unfold assertKnownKeys
    split
    · exact mild_error ⟨nofun, nofun⟩
    · exact mild_ok _
  unfold validateNode
  refine (mild_requireNonEmptyString _ _).bind fun kind => ?_
  refine (hknown _).bind fun _ => hcommon.bind fun _ => ?_
  split
  · exact mild_error ⟨nofun, nofun⟩
  · exact (mild_validateKind _).bind fun _ => hdefinitions.bind fun _ => mild_ok _

theorem mild_registerDefinitions (target : Members R) (value : Value R) (path : String) :
    Mild (registerDefinitions host graph target value path) := by
  have hnames : ∀ (found : Members R) names target, Mild (registerNames host found path names target) := by
    intro found names
    induction names with
    | nil => exact fun _ => mild_ok _
    | cons name names ih =>
      intro target
      unfold registerNames
      split
      · exact mild_failed (by decide)
      · exact ih _
  unfold registerDefinitions
  split
  · exact mild_ok _
  · split
    · next e he => exact mild_error (mild_requireRecord _ _ e he)
    · exact hnames _ _ _

/-- A round fails mildly, unless it has come to a node that is open. -/
theorem walkTurn_failed {w : PlanWalk R} {e : PlanError} (h : walkTurn host graph w = .failed e) :
    (e.fault ≠ .circularPlan ∧ e.fault ≠ circularFault) ∨ ∃ item pending r,
      w.pending = item :: pending ∧ item.exit = false ∧ item.value = .object r ∧ r ∈ w.visiting := by
  unfold walkTurn at h
  split at h
  · unfold schedule at h
    split at h <;> cases h
  · next item pending hpending =>
    dsimp only at h
    split at h
    · cases h
    -- a malformed node is another fault
    · split at h
      · next e' he' =>
        cases h
        exact .inl (mild_requireRecord _ _ _ he')
      · next r plan hrecord =>
        split at h
        · cases h
        · next hexit =>
          -- only this branch reports a circle, and the node is open in it
          split at h
          · next hvisiting =>
            exact .inr ⟨item, pending, r, hpending, Bool.eq_false_iff.mpr hexit,
              (requireRecord_ok hrecord).1, hvisiting⟩
          · split at h
            · cases h
            · unfold openNode at h
              split at h
              · next e' he' =>
                cases h
                exact .inl (mild_registerDefinitions _ _ _ _ he')
              · split at h
                · next e' he' =>
                  cases h
                  exact .inl (mild_validateNode _ he')
                · cases h

/-- The values are not called a circular plan. -/
theorem boundsTurn_fault {s : PlanBounds R} {e : PlanError} (h : boundsTurn host graph s = .failed e) :
    e.fault ≠ .circularPlan := by
  -- the bounds have their own faults for what they refuse
  have hchildren : ∀ frame r e, childFrames host graph frame r = .error e → e.fault ≠ .circularPlan := by
    intro frame r e h
    unfold childFrames at h
    split at h
    · split at h <;> cases h
      nofun
    · split at h <;> cases h
      nofun
    · cases h
      nofun
  -- nor does an object seen twice on the way give that fault
  have hobject : ∀ (u : PlanBounds R) frame r e, boundsObject host graph u frame r = .failed e →
      e.fault ≠ .circularPlan := by
    intro u frame r e h
    unfold boundsObject at h
    split at h
    · cases h
      nofun
    · split at h
      · cases h
        nofun
      · split at h
        · cases h
        · split at h
          · next e' he' =>
            cases h
            exact hchildren _ _ _ he'
          · cases h
  unfold boundsTurn at h
  split at h
  · cases h
  · split at h
    · cases h
    · split at h
      · cases h
        nofun
      · split at h
        · exact hobject _ _ _ _ h
        · split at h
          · cases h
            nofun
          · cases h

/-- An open node that is to be entered again would be a cycle of the plan's values. -/
theorem circular_of_reentered {w : PlanWalk R} (h : Collecting host graph root documentDefinitions w)
    {item : WorkItem R} {pending : List (WorkItem R)} {r : R} (hpending : w.pending = item :: pending)
    (hexit : item.exit = false) (hvalue : item.value = .object r) (hvisiting : r ∈ w.visiting) :
    Circular graph root documentDefinitions := by
  obtain ⟨goal, htrail, -⟩ := h.trail
  rw [hpending, visits_cons, hexit, hvalue] at htrail
  exact ⟨.object r, hvalue ▸ (h.evaluated item (hpending ▸ List.mem_cons_self)).offered,
    Nests.cycle (htrail.cycle (List.mem_map_of_mem hvisiting))⟩

/-- A graph with a cycle is never accepted; one without is never called circular, however its parts
are shared; and the second check for circular plans never fires. -/
theorem compileValidationPlan_circular {fuel : Nat} {input : Value R}
    {result : Except PlanError (CompiledPlanGraph R)}
    (h : compileValidationPlan host graph fuel input = some result) :
    (∀ compiled, result = .ok compiled →
      ¬Circular graph (rootOf graph input) (documentDefinitionsOf graph input)) ∧
      ∀ e, result = .error e → e.fault ≠ .circularPlan ∧ (e.fault = circularFault →
        Circular graph (rootOf graph input) (documentDefinitionsOf graph input)) := by
  obtain ⟨walked, hcollect, rfl⟩ := Option.map_eq_some_iff.mp h
  rcases collectAndValidate_cases hcollect with
    ⟨e, hbounds, rfl⟩ | ⟨s, hbounds, ⟨e, he, rfl⟩ | ⟨definitions, hdefinitions, hloop⟩⟩
  -- the bounds refuse first: theirs is the other circular fault
  · refine ⟨nofun, ?_⟩
    rintro _ ⟨⟩
    obtain ⟨goal, -, -, hstart⟩ := @walked_start R _ host graph (rootOf graph input)
      (documentDefinitionsOf graph input)
    obtain ⟨t, -, hfailed⟩ := loop_error (fun _ _ => walked_turn) hstart hbounds
    exact ⟨boundsTurn_fault hfailed, circular_of_assertPlanBounds hbounds⟩
  -- a conflict of definitions is neither fault
  · refine ⟨nofun, ?_⟩
    rintro _ ⟨⟩
    have hmild := mild_registerDefinitions _ _ _ _ he
    exact ⟨hmild.1, fun hcircular => absurd hcircular hmild.2⟩
  -- the bounds passed, so there is no circle left for the walk to meet
  · have hbounded := bounded_of_assertPlanBounds hbounds
    refine ⟨fun _ _ => hbounded.acyclic, fun e he => ?_⟩
    cases walked with
    | ok w => cases he
    | error e' =>
      cases he
      obtain ⟨t, hcollecting, hfailed⟩ :=
        loop_error (fun _ _ => collecting_turn) (collecting_start hdefinitions) hloop
      -- a circle reported by the walk would be one of the plan
      rcases walkTurn_failed hfailed with hmild | ⟨item, pending, r, hpending, hexit, hvalue, hopen⟩
      · exact ⟨hmild.1, fun hcircular => absurd hcircular hmild.2⟩
      · exact absurd (circular_of_reentered hcollecting hpending hexit hvalue hopen) hbounded.acyclic

end Circular

/-! ## Two graphs -/

def textHost : PlanHost where
  stringify text := "\"" ++ text ++ "\""
  regExp _ := .ok fun text => text = "home"

/-- A document whose root refers to a definition that refers to one of the root's own. -/
def namedGraph : PlanGraph Nat
  | 0 => .record (.ofList [("root", .object 1), ("definitions", .object 3)])
  | 1 => .record (.ofList
      [("kind", .string "ref"), ("name", .string "page"), ("definitions", .object 2)])
  | 2 => .record (.ofList [("title", .object 5)])
  | 3 => .record (.ofList [("page", .object 4)])
  | 4 => .record (.ofList [("kind", .string "ref"), ("name", .string "title")])
  | 5 => .record (.ofList [("kind", .string "string"), ("pattern", .string "^home$")])
  | _ => .array []

/-- An array whose items are the plan itself. -/
def knottedGraph : PlanGraph Nat
  | 0 => .record (.ofList [("kind", .string "array"), ("items", .object 0)])
  | _ => .array []

theorem namedGraph_accepted :
    ∃ compiled, compileValidationPlan textHost namedGraph 30 (.object 0) = some (.ok compiled) := by
  have hok : ((compileValidationPlan textHost namedGraph 30 (.object 0)).map
      fun result => result.toBool) = some true := by decide
  obtain ⟨result, hresult, htrue⟩ := Option.map_eq_some_iff.mp hok
  cases result with
  | error e => cases htrue
  | ok compiled => exact ⟨compiled, hresult⟩

theorem compileValidationPlan_ready_named : ∃ compiled,
    compileValidationPlan textHost namedGraph 30 (.object 0) = some (.ok compiled) ∧
      Ready textHost namedGraph (.object 1) (.object 3) compiled := by
  obtain ⟨compiled, h⟩ := namedGraph_accepted
  exact ⟨compiled, h, compileValidationPlan_ready h⟩

theorem compileValidationPlan_circular_knotted :
    Circular knottedGraph (.object 0) .undefined := by
  have hfailed : (compileValidationPlan textHost knottedGraph 20 (.object 0)).bind
      (fun result => match result with
        | .error e => some e
        | .ok _ => none) = some ⟨"$.items", circularFault⟩ := by decide
  obtain ⟨result, hresult, herror⟩ := Option.bind_eq_some_iff.mp hfailed
  cases result with
  | error e =>
    cases herror
    exact ((compileValidationPlan_circular hresult).2 _ rfl).2 rfl
  | ok compiled => cases herror

end FluxFast.Validation
