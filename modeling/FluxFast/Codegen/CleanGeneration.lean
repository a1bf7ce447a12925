import FluxFast.Codegen.Generate

/-!
# CleanGeneration — a check after a generation

The files are written one after another, so a generation is clean when the paths do not get in each
other's way.  `Settled` is the condition on the options and on the files before.
-/

namespace FluxFast.Codegen

open FluxFast.Theory FluxFast.Theory.FileTree

variable {μ δ ε : Type} {compilers : Compilers μ δ ε} {cwd : Place} {unique : Nat → String}
  {options : FluxFastGenerationOptions} {t u v : FileTree String}

/-! ## What only reads -/

theorem readOnly_call {β : Type} {action : Calls String β} (h : ReadOnly action) :
    ReadOnly (call action : Run ε β) := h.adapt _

theorem readOnly_lstatAlong (stopAtMissing : Bool) (segments : List String) (current : Place) :
    ReadOnly (lstatAlong cwd stopAtMissing current segments : Run ε Unit) := by
  induction segments generalizing current with
  | nil => exact ReadOnly.pure ()
  | cons segment rest ih =>
    intro t
    unfold lstatAlong
    rcases readOnly_lstatSync cwd (ofPlace (step current segment)) t with ⟨node, h⟩ | ⟨e, h⟩
    · rw [h]
      exact ih _ t
    · rw [h]
      cases e with
      | enoent =>
        cases stopAtMissing with
        | true => exact .inl ⟨(), rfl⟩
        | false => exact ih _ t
      | enotdir => exact .inr ⟨_, rfl⟩
      | eexist => exact .inr ⟨_, rfl⟩
      | eisdir => exact .inr ⟨_, rfl⟩

theorem readOnly_assertGeneratedOutputPath (generatedDir : Place) (outputPath : PathText)
    (label : String) (trustedRoot : Place) :
    ReadOnly (assertGeneratedOutputPath cwd generatedDir outputPath label trustedRoot : Run ε Unit) := by
  simp only [assertGeneratedOutputPath]
  split
  · exact ReadOnly.throw _
  · split
    · exact ReadOnly.throw _
    · exact (readOnly_lstatAlong _ _ _).bind fun _ => readOnly_lstatAlong _ _ _

theorem readOnly_assertArtifacts (generatedDir trustedRoot : Place)
    (artifacts : List SchemaArtifact) :
    ReadOnly (assertArtifacts cwd generatedDir trustedRoot artifacts : Run ε Unit) := by
  induction artifacts with
  | nil => exact ReadOnly.pure ()
  | cons artifact rest ih =>
    exact (readOnly_assertGeneratedOutputPath _ _ _ _).bind fun _ => ih

theorem readOnly_assertPaths : ReadOnly (assertPaths cwd options : Run ε Unit) := by
  unfold assertPaths
  apply (readOnly_assertGeneratedOutputPath _ _ _ _).bind
  intro _
  split
  · exact readOnly_assertGeneratedOutputPath _ _ _ _
  · exact ReadOnly.pure ()

theorem readOnly_readSchema : ReadOnly (readSchema cwd options : Run ε (Option String)) := by
  unfold readSchema
  split
  · exact ReadOnly.pure _
  · apply (readOnly_call (readOnly_existsSync _ _)).bind
    intro found
    cases found with
    | true => exact (readOnly_call (readOnly_readFileSync _ _)).bind fun _ => ReadOnly.pure _
    | false => exact ReadOnly.pure _

theorem readOnly_compileSchema (generatedDir : Place) (content : String) :
    ReadOnly (compileSchema compilers generatedDir content) := by
  unfold compileSchema
  split
  · exact ReadOnly.pure _
  · exact ReadOnly.throw _

theorem readOnly_snapshotOf (schema : Option String) :
    ReadOnly (snapshotOf compilers cwd options schema) := by
  cases schema with
  | none => exact ReadOnly.pure _
  | some content =>
    exact (readOnly_compileSchema _ _).bind fun _ =>
      (readOnly_assertArtifacts _ _ _).bind fun _ => ReadOnly.pure _

/-- A snapshot reads the files of the project and changes none. -/
theorem readOnly_snapshot :
    ReadOnly (createFluxFastProjectSnapshot compilers cwd options) :=
  readOnly_assertPaths.bind fun _ => readOnly_readSchema.bind fun schema => readOnly_snapshotOf schema

theorem readOnly_staleAmong (artifacts : List FluxFastGeneratedArtifact) :
    ReadOnly (staleAmong cwd artifacts : Run ε (List PathText)) := by
  induction artifacts with
  | nil => exact ReadOnly.pure _
  | cons artifact rest ih =>
    have hstale : ReadOnly (isStale cwd artifact : Run ε Bool) := by
      intro t
      unfold isStale
      rcases readOnly_readFileSync cwd artifact.path t with ⟨content, h⟩ | ⟨e, h⟩
      · rw [h]
        exact .inl ⟨_, rfl⟩
      · rw [h]
        exact .inl ⟨_, rfl⟩
    exact hstale.bind fun _ => ih.bind fun _ => ReadOnly.pure _

theorem readOnly_check : ReadOnly (checkFluxFastProject compilers cwd options) :=
  readOnly_snapshot.bind fun _ => (readOnly_staleAmong _).bind fun _ =>
    (readOnly_staleAmong _).bind fun _ => ReadOnly.pure _

/-! ## Path checks -/

theorem relative_inside {root target : Place} (h : (relative root target).head? ≠ some "..") :
    ∃ rest, target = root ++ rest ∧ relative root target = rest.map (·.val) := by
  induction root generalizing target with
  | nil => exact ⟨target, rfl, by cases target <;> rfl⟩
  | cons a root ih =>
    cases target with
    | nil => simp [relative] at h
    | cons b target =>
      unfold relative at h ⊢
      split at h
      · next heq =>
        obtain ⟨rest, htarget, hrest⟩ := ih h
        exact ⟨rest, by rw [htarget, heq, List.cons_append], by rw [if_pos heq, hrest]⟩
      · simp at h

theorem mem_stops_names {p q : Place} {rest : Place} (h : q ∈ stops p (rest.map (·.val))) :
    p <+: q.dropLast ∧ q <+: p ++ rest := by
  induction rest generalizing p with
  | nil => cases h
  | cons n rest ih =>
    rw [List.map_cons, stops, step_name, List.mem_cons] at h
    rcases h with rfl | h
    · rw [List.dropLast_concat]
      exact ⟨List.prefix_refl p, ⟨rest, by simp⟩⟩
    · obtain ⟨hp, hq⟩ := ih h
      exact ⟨(List.prefix_append p [n]).trans hp, by simpa using hq⟩

/-- The part of a path check that looks at no file. -/
structure Inside (cwd generatedDir : Place) (outputPath : PathText) (trustedRoot : Place) : Prop where
  proper : relative generatedDir (outputPath.resolve cwd) ≠ []
  below : (relative generatedDir (outputPath.resolve cwd)).head? ≠ some ".."
  trusted : isWithin (resolvedTrustedRoot generatedDir trustedRoot) generatedDir = true

theorem inside_of_assert {generatedDir trustedRoot : Place} {outputPath : PathText} {label : String}
    {x : Unit}
    (h : (assertGeneratedOutputPath cwd generatedDir outputPath label trustedRoot : Run ε Unit) t =
      .ok x u) : Inside cwd generatedDir outputPath trustedRoot := by
  simp only [assertGeneratedOutputPath] at h
  split at h
  · cases h
  · next hpath =>
    rw [not_or] at hpath
    split at h
    · cases h
    · next hroot => exact ⟨hpath.1, hpath.2, by simpa using hroot⟩

theorem Inside.dropLast {generatedDir trustedRoot : Place} {outputPath : PathText}
    (h : Inside cwd generatedDir outputPath trustedRoot) :
    generatedDir <+: (outputPath.resolve cwd).dropLast := by
  obtain ⟨rest, hout, hrest⟩ := relative_inside h.below
  have hne : rest ≠ [] := by
    rintro rfl
    exact h.proper hrest
  rw [hout, List.dropLast_append_of_ne_nil hne]
  exact List.prefix_append _ _

theorem lstat_below {p : Place} (habove : u.node p.dropLast = some .directory) :
    (∃ node, lstatSync cwd (ofPlace p) u = .ok node u) ∨
      lstatSync cwd (ofPlace p) u = .error .enoent u := by
  have henter : u.enter cwd (ofPlace p) = .ok p := by
    apply enter_ofPlace
    intro r hr hne
    rcases List.eq_nil_or_concat p with rfl | ⟨q, n, rfl⟩
    · exact absurd (List.prefix_nil.mp hr) hne
    · rw [List.concat_eq_append, List.dropLast_concat] at habove
      rw [List.concat_eq_append] at hr hne
      rcases List.prefix_concat_iff.mp hr with heq | hle
      · exact absurd heq hne
      · by_cases hq : r = q
        · rw [hq]
          exact habove
        · exact isDirectory_of_lt hle hq (by rw [habove]; exact nofun)
  cases hp : u.node p with
  | none =>
    right
    simp only [lstatSync, lookup, henter, hp]
  | some node =>
    left
    exact ⟨node, by simp only [lstatSync, lookup, henter, hp]⟩

theorem lstatAlong_ok {stopAtMissing : Bool} {current : Place} {segments : List String}
    (h : ∀ q ∈ stops current segments, u.node q.dropLast = some .directory) :
    (lstatAlong cwd stopAtMissing current segments : Run ε Unit) u = .ok () u := by
  induction segments generalizing current with
  | nil => rfl
  | cons segment rest ih =>
    have hrest := @ih (step current segment) fun q hq => h q (List.mem_cons_of_mem _ hq)
    unfold lstatAlong
    rcases @lstat_below cwd u _ (h _ List.mem_cons_self) with ⟨node, hl⟩ | hl
    · rw [hl]
      exact hrest
    · rw [hl]
      cases stopAtMissing with
      | true => rfl
      | false => exact hrest

/-- Between directories the check looks at nothing but the paths. -/
theorem assert_of_inside {generatedDir trustedRoot : Place} {outputPath : PathText} (label : String)
    (h : Inside cwd generatedDir outputPath trustedRoot)
    (habove : u.node (outputPath.resolve cwd).dropLast = some .directory) :
    (assertGeneratedOutputPath cwd generatedDir outputPath label trustedRoot : Run ε Unit) u =
      .ok () u := by
  -- above the output everything is a directory, so no `lstat` on the way meets a link or a file
  have hdir : ∀ r, r <+: (outputPath.resolve cwd).dropLast → u.node r = some .directory := by
    intro r hr
    by_cases heq : r = (outputPath.resolve cwd).dropLast
    · rw [heq]
      exact habove
    · exact isDirectory_of_lt hr heq (by rw [habove]; exact nofun)
  simp only [assertGeneratedOutputPath]
  rw [if_neg (by rw [not_or]; exact ⟨h.proper, h.below⟩), if_neg (by simp [h.trusted])]
  apply bind_ok.mpr
  refine ⟨(), u, lstatAlong_ok ?_, lstatAlong_ok ?_⟩
  · -- the directories from the boundary down to the output directory
    have hroot := h.trusted
    generalize resolvedTrustedRoot generatedDir trustedRoot = root at hroot ⊢
    have hhead : (relative root generatedDir).head? ≠ some ".." := by
      intro hhead
      simp only [isWithin, hhead, ne_eq, not_true, decide_false, Bool.or_false,
        decide_eq_true_eq] at hroot
      rw [hroot] at hhead
      cases hhead
    obtain ⟨rest, hdirs, hrel⟩ := relative_inside hhead
    intro q hq
    -- the walk starts at the boundary itself
    rw [hrel, stops, List.mem_cons] at hq
    have hstep : step root "" = root := rfl
    rw [hstep] at hq
    apply hdir
    apply List.IsPrefix.trans _ h.dropLast
    apply (List.dropLast_prefix q).trans
    rcases hq with rfl | hq
    · exact ⟨rest, hdirs.symm⟩
    · rw [hdirs]
      exact (mem_stops_names hq).2
  · -- and from there to the parent of the output
    obtain ⟨rest, hout, hrel⟩ := relative_inside h.below
    intro q hq
    rw [hrel] at hq
    apply hdir
    obtain ⟨-, s, hs⟩ := mem_stops_names hq
    rw [hout, ← hs]
    -- the walk may end at the output, whose parent is what counts
    rcases List.eq_nil_or_concat s with rfl | ⟨s, n, rfl⟩
    · rw [List.append_nil]
    · rw [List.concat_eq_append, ← List.append_assoc, List.dropLast_concat]
      exact (List.dropLast_prefix q).trans (List.prefix_append q s)

/-! ## Writing -/

/-- The file is written; the temporary one beside it is gone. -/
theorem writeGeneratedArtifact_ok {name content : String} {pathname : PathText} {x : Unit}
    (h : writeGeneratedArtifact cwd name pathname content t = .ok x u) :
    ∃ q, t.enter cwd pathname = .ok q ∧ t.node q ≠ some .directory ∧
      ∀ r, u.node r = if r = q then some (.file content) else t.node r := by
  -- First the temporary file is written, then it is renamed: the tree changes at `q` only.
  obtain ⟨_, v, hcreate, hrename⟩ := bind_ok.mp h
  obtain ⟨hnone, hv⟩ := createFile_ok hcreate
  split at hrename
  · next y w hren =>
    cases hrename
    obtain ⟨q, c, henter, hq, htemp, hu⟩ := renameSync_ok hren
    have hc : c = content := by
      rw [hv, if_pos rfl] at htemp
      exact (Node.file.inj (Option.some.inj htemp)).symm
    -- writing it makes no directory, so the output is entered as it was before
    have hdir : ∀ r, v.node r = some .directory → t.node r = some .directory := by
      intro r hr
      rw [hv] at hr
      split at hr
      · cases hr
      · exact hr
    refine ⟨q, enter_mono hdir henter, ?_, ?_⟩
    · intro hdirq
      apply hq
      rw [hv, if_neg (by rintro rfl; rw [hnone] at hdirq; cases hdirq)]
      exact hdirq
    · intro r
      rw [hu, hc]
      -- at the temporary place nothing stood before and nothing stands after
      by_cases hr : r = q
      · rw [if_pos hr, if_pos hr]
      · rw [if_neg hr, if_neg hr]
        split
        · next heq => rw [heq, hnone]
        · next hne => rw [hv, if_neg hne]
  · split at hrename <;> cases hrename

/-- The file of an artifact, where its path leads. -/
def fileOf (cwd : Place) (artifact : FluxFastGeneratedArtifact) : Place × String :=
  (artifact.path.resolve cwd, artifact.content)

theorem placeArtifact_ok {name : String} {artifact : FluxFastGeneratedArtifact} {x : Unit}
    {made : List Place} {written : List (Place × String)} (hc : Changes t u made written)
    (h : placeArtifact cwd name artifact u = .ok x v) :
    Changes t v (made ++ artifact.path.dirname.stops cwd) (written ++ [fileOf cwd artifact]) ∧
      v.enter cwd artifact.path = .ok (artifact.path.resolve cwd) ∧
      ∀ r, u.node r = some .directory → v.node r = some .directory := by
  obtain ⟨_, w, hmkdir, hwrite⟩ := bind_ok.mp h
  obtain ⟨hfiles, hw⟩ := mkdirSync_ok hmkdir
  obtain ⟨q, henter, hq, hv⟩ := writeGeneratedArtifact_ok hwrite
  have hplace : artifact.path.resolve cwd = q := enter_eq henter
  have hdir : ∀ r, w.node r = some .directory → v.node r = some .directory := by
    intro r hr
    rw [hv, if_neg (by rintro rfl; exact hq hr)]
    exact hr
  refine ⟨?_, ?_, ?_⟩
  · unfold fileOf
    rw [hplace]
    exact (hc.make hfiles hw).write hq hv
  · rw [hplace]
    exact enter_mono hdir henter
  · intro r hr
    apply hdir
    rw [hw]
    split
    · rfl
    · exact hr

theorem placeArtifacts_ok {artifacts : List FluxFastGeneratedArtifact} {x : Unit}
    {made : List Place} {written : List (Place × String)} (hc : Changes t u made written)
    (h : placeArtifacts cwd unique artifacts u = .ok x v) :
    Changes t v (made ++ artifacts.flatMap (·.path.dirname.stops cwd))
        (written ++ artifacts.map (fileOf cwd)) ∧
      (∀ a ∈ artifacts, v.enter cwd a.path = .ok (a.path.resolve cwd)) ∧
      ∀ r, u.node r = some .directory → v.node r = some .directory := by
  induction artifacts generalizing u made written with
  | nil =>
    cases h
    simpa using hc
  | cons artifact rest ih =>
    obtain ⟨_, w, hplace, hrest⟩ := bind_ok.mp h
    obtain ⟨hw, henter, hdir⟩ := placeArtifact_ok hc hplace
    obtain ⟨hv, hothers, hdirs⟩ := ih hw hrest
    refine ⟨?_, ?_, ?_⟩
    · simpa [List.append_assoc] using hv
    · intro a ha
      rcases List.mem_cons.mp ha with rfl | ha
      · exact enter_mono hdirs henter
      · exact hothers a ha
    · exact fun r hr => hdirs r (hdir r hr)

/-! ## The artifacts of a schema content -/

/-- What a snapshot is going to write for a schema content. -/
def artifactsOf (compilers : Compilers μ δ ε) (cwd : Place) (options : FluxFastGenerationOptions) :
    Option String → Except ε (List FluxFastGeneratedArtifact)
  | none => .ok [options.registryArtifact]
  | some content =>
    match schemaArtifacts compilers (options.outputDir cwd) content with
    | .error e => .error e
    | .ok (_, artifacts) =>
      .ok (options.registryArtifact :: artifacts.map (·.toFluxFastGeneratedArtifact))

/-- The content of the schema file of a tree. -/
def schemaAt (cwd : Place) (options : FluxFastGenerationOptions) (t : FileTree String) :
    Option String :=
  match t.node (options.candidateSchemaFile cwd) with
  | some (.file text) => some text
  | _ => none

/-- The manifest to persist, when its content was given. -/
def givenSchema (cwd : Place) (options : FluxFastGenerationOptions) :
    List FluxFastGeneratedArtifact :=
  match options.schemaContent with
  | some content => [⟨ofPlace (options.candidateSchemaFile cwd), content⟩]
  | none => []

/-- Files that are written to one place have one content. -/
def Agree (cwd : Place) (artifacts : List FluxFastGeneratedArtifact) : Prop :=
  ∀ a ∈ artifacts, ∀ b ∈ artifacts, a.path.resolve cwd = b.path.resolve cwd → a.content = b.content

/-- The paths of a generation do not get in each other's way. -/
structure Settled (compilers : Compilers μ δ ε) (cwd : Place) (options : FluxFastGenerationOptions)
    (t : FileTree String) : Prop where
  /-- Whatever is written is not overwritten by something else. -/
  agree : ∀ artifacts,
    artifactsOf compilers cwd options (options.schemaContent <|> schemaAt cwd options t) =
      .ok artifacts → Agree cwd (givenSchema cwd options ++ artifacts)
  /-- An artifact in the place of the schema file is a schema with the same artifacts. -/
  again : options.schemaContent = none → ∀ text,
    t.node (options.candidateSchemaFile cwd) = some (.file text) → ∀ artifacts,
    artifactsOf compilers cwd options (some text) = .ok artifacts → ∀ a ∈ artifacts,
    a.path.resolve cwd = options.candidateSchemaFile cwd →
    artifactsOf compilers cwd options (some a.content) = .ok artifacts
  /-- No directory takes the place of a missing schema file. -/
  free : options.schemaContent = none → t.node (options.candidateSchemaFile cwd) = none →
    options.candidateSchemaFile cwd ∉ options.registry.pagesDir.stops cwd ∧
      options.candidateSchemaFile cwd ∉ options.registry.outputFile.dirname.stops cwd
  /-- A registry in its place is a schema whose artifacts are there already. -/
  already : options.schemaContent = none → t.node (options.candidateSchemaFile cwd) = none →
    options.registry.outputFile.resolve cwd = options.candidateSchemaFile cwd →
    ∃ artifacts, artifactsOf compilers cwd options (some options.registry.content) = .ok artifacts ∧
      ∀ a ∈ artifacts, if a.path.resolve cwd = options.candidateSchemaFile cwd
        then a.content = options.registry.content
        else t.node (a.path.resolve cwd) = some (.file a.content)

/-! ## Snapshots -/

/-- A file that `checkFluxFastProject` finds current. -/
def Holds (cwd : Place) (u : FileTree String) (artifact : FluxFastGeneratedArtifact) : Prop :=
  readFileSync cwd artifact.path u = .ok artifact.content u

theorem node_of_holds {a : FluxFastGeneratedArtifact} (h : Holds cwd u a) :
    u.node (a.path.resolve cwd) = some (.file a.content) := by
  unfold Holds readFileSync at h
  split at h
  · cases h
  · cases h
  · next content hlookup =>
    cases h
    exact node_of_lookup hlookup

theorem holds_of_node {a : FluxFastGeneratedArtifact}
    (henter : u.enter cwd a.path = .ok (a.path.resolve cwd))
    (h : u.node (a.path.resolve cwd) = some (.file a.content)) : Holds cwd u a :=
  readFileSync_of_node henter h

theorem holds_ofPlace {p : Place} {content : String} :
    Holds cwd u ⟨ofPlace p, content⟩ ↔ u.node p = some (.file content) := by
  constructor
  · intro h
    have hnode := node_of_holds h
    rw [resolve_ofPlace] at hnode
    exact hnode
  · intro h
    unfold Holds readFileSync
    rw [lookup_ofPlace h]

theorem readSchema_given {content : String} (h : options.schemaContent = some content) :
    (readSchema cwd options : Run ε (Option String)) u = .ok (some content) u := by
  unfold readSchema
  rw [h]
  rfl

theorem readSchema_found (hnone : options.schemaContent = none)
    (hdir : u.node (options.candidateSchemaFile cwd) ≠ some .directory) :
    (readSchema cwd options : Run ε (Option String)) u = .ok (schemaAt cwd options u) u := by
  unfold readSchema
  rw [hnone]
  -- Existence is asked first, then the file is read: both see the node of one place.
  apply bind_ok.mpr
  refine ⟨(u.lookup cwd (ofPlace (options.candidateSchemaFile cwd))).isOk, u,
    adaptExcept_ok.mpr rfl, ?_⟩
  unfold schemaAt
  cases hnode : u.node (options.candidateSchemaFile cwd) with
  | none =>
    have hlookup : (u.lookup cwd (ofPlace (options.candidateSchemaFile cwd))).isOk = false := by
      cases hl : u.lookup cwd (ofPlace (options.candidateSchemaFile cwd)) with
      | error e => rfl
      | ok node =>
        have := node_of_lookup hl
        rw [resolve_ofPlace, hnode] at this
        cases this
    rw [hlookup]
    rfl
  | some node =>
    have hlookup := @lookup_ofPlace _ u cwd _ _ hnode
    cases node with
    -- a directory in that place is excluded by hypothesis
    | directory => exact absurd hnode hdir
    | file text =>
      rw [hlookup]
      apply bind_ok.mpr
      refine ⟨text, u, adaptExcept_ok.mpr ?_, rfl⟩
      unfold readFileSync
      rw [hlookup]

/-- A directory in the place of the schema file cannot be read. -/
theorem readSchema_directory (hnone : options.schemaContent = none)
    (hdir : u.node (options.candidateSchemaFile cwd) = some .directory) {schema : Option String}
    {v : FileTree String} : (readSchema cwd options : Run ε (Option String)) u ≠ .ok schema v := by
  intro h
  unfold readSchema at h
  rw [hnone] at h
  obtain ⟨found, w, hfound, hread⟩ := bind_ok.mp h
  have hlookup := @lookup_ofPlace _ u cwd _ _ hdir
  have hexists := adaptExcept_ok.mp hfound
  unfold existsSync at hexists
  rw [hlookup] at hexists
  cases hexists
  obtain ⟨content, w, hcontent, -⟩ := bind_ok.mp hread
  have hfile := adaptExcept_ok.mp hcontent
  unfold readFileSync at hfile
  rw [hlookup] at hfile
  cases hfile

theorem compileSchema_ok {generatedDir : Place} {content : String}
    {compiled : ValidatorCompilation δ × List SchemaArtifact} :
    compileSchema compilers generatedDir content u = .ok compiled v ↔
      schemaArtifacts compilers generatedDir content = .ok compiled ∧ v = u := by
  unfold compileSchema
  cases h : schemaArtifacts compilers generatedDir content with
  | error e =>
    constructor
    · exact nofun
    · exact fun h => absurd h.1 nofun
  | ok result =>
    constructor
    · intro hok
      cases hok
      exact ⟨rfl, rfl⟩
    · rintro ⟨hok, rfl⟩
      cases hok
      rfl

theorem snapshotOf_ok {schema : Option String} {snapshot : FluxFastProjectSnapshot δ}
    (hnone : schema = none → options.schemaContent = none)
    (h : snapshotOf compilers cwd options schema u = .ok snapshot v) :
    artifactsOf compilers cwd options schema = .ok snapshot.artifacts ∧
      snapshot.schemaArtifact = givenSchema cwd options ∧
      snapshot.pagesDir = options.registry.pagesDir := by
  cases schema with
  | none =>
    cases h
    refine ⟨rfl, ?_, rfl⟩
    unfold FluxFastProjectSnapshot.schemaArtifact givenSchema
    rw [hnone rfl]
  | some content =>
    obtain ⟨⟨validators, artifacts⟩, w, hcompile, hrest⟩ := bind_ok.mp h
    obtain ⟨_, w, hassert, hsnapshot⟩ := bind_ok.mp hrest
    cases hsnapshot
    refine ⟨?_, ?_, rfl⟩
    · simp only [artifactsOf, (compileSchema_ok.mp hcompile).1]
    · unfold FluxFastProjectSnapshot.schemaArtifact givenSchema
      cases options.schemaContent <;> rfl

/-- The paths of the options are in order and their directories exist. -/
structure Ready (cwd : Place) (options : FluxFastGenerationOptions) (u : FileTree String) : Prop where
  inside : Inside cwd (options.outputDir cwd) options.registry.outputFile
    (options.projectBoundary cwd)
  insideSchema : options.schemaContent.isSome → Inside cwd (options.outputDir cwd)
    (ofPlace (options.candidateSchemaFile cwd)) (options.projectBoundary cwd)
  above : u.node (options.registry.outputFile.resolve cwd).dropLast = some .directory
  aboveSchema : options.schemaContent.isSome →
    u.node (options.candidateSchemaFile cwd).dropLast = some .directory

namespace Ready

theorem outputDir (h : Ready cwd options u) :
    u.node (options.outputDir cwd) = some .directory := by
  have hle := h.inside.dropLast
  by_cases heq : options.outputDir cwd = (options.registry.outputFile.resolve cwd).dropLast
  · rw [heq]
    exact h.above
  · exact isDirectory_of_lt hle heq (by rw [h.above]; exact nofun)

theorem insideName (h : Ready cwd options u) (n : FileName) :
    Inside cwd (options.outputDir cwd) (ofPlace (options.outputDir cwd ++ [n]))
      (options.projectBoundary cwd) := by
  have hrel : ∀ p : Place, relative p (p ++ [n]) = [n.val] := by
    intro p
    induction p with
    | nil => rfl
    | cons a p ih =>
      rw [List.cons_append, relative, if_pos rfl]
      exact ih
  refine ⟨?_, ?_, h.inside.trusted⟩
  · rw [resolve_ofPlace, hrel]
    exact List.cons_ne_nil _ _
  · rw [resolve_ofPlace, hrel]
    intro hhead
    exact n.2.2.2 (Option.some.inj hhead)

theorem assertPaths (h : Ready cwd options u) :
    (assertPaths cwd options : Run ε Unit) u = .ok () u := by
  apply bind_ok.mpr
  refine ⟨(), u, assert_of_inside _ h.inside h.above, ?_⟩
  cases hsome : options.schemaContent.isSome with
  | false => rfl
  | true =>
    apply assert_of_inside _ (h.insideSchema hsome)
    rw [resolve_ofPlace]
    exact h.aboveSchema hsome

theorem assertArtifacts (h : Ready cwd options u) {artifacts : List SchemaArtifact}
    (hname : ∀ a ∈ artifacts, ∃ n, a.path = ofPlace (options.outputDir cwd ++ [n])) :
    (assertArtifacts cwd (options.outputDir cwd) (options.projectBoundary cwd) artifacts :
      Run ε Unit) u = .ok () u := by
  induction artifacts with
  | nil => rfl
  | cons a rest ih =>
    apply bind_ok.mpr
    refine ⟨(), u, ?_, ih fun b hb => hname b (List.mem_cons_of_mem _ hb)⟩
    obtain ⟨n, hn⟩ := hname a List.mem_cons_self
    rw [hn]
    apply assert_of_inside _ (h.insideName n)
    rw [resolve_ofPlace, List.dropLast_concat]
    exact h.outputDir

end Ready

/-- The four artifacts stand in the output directory, under their names. -/
theorem schemaArtifacts_paths {generatedDir : Place} {content : String}
    {compiled : ValidatorCompilation δ × List SchemaArtifact}
    (h : schemaArtifacts compilers generatedDir content = .ok compiled) :
    compiled.2.map (·.path) =
      [typesName, validatorsName, routesName, mutationsName].map fun n =>
        ofPlace (generatedDir ++ [n]) := by
  unfold schemaArtifacts at h
  simp only [bind, Except.bind, pure, Except.pure] at h
  repeat' split at h
  all_goals cases h
  rfl

theorem snapshotOf_ready (hready : Ready cwd options u) {schema : Option String}
    (hnone : schema = none → options.schemaContent = none)
    {artifacts : List FluxFastGeneratedArtifact}
    (h : artifactsOf compilers cwd options schema = .ok artifacts) :
    ∃ snapshot, snapshotOf compilers cwd options schema u = .ok snapshot u ∧
      snapshot.artifacts = artifacts ∧ snapshot.schemaArtifact = givenSchema cwd options := by
  suffices hsnapshot : ∃ snapshot, snapshotOf compilers cwd options schema u = .ok snapshot u by
    obtain ⟨snapshot, hok⟩ := hsnapshot
    obtain ⟨hartifacts, hschema, -⟩ := snapshotOf_ok hnone hok
    rw [h] at hartifacts
    exact ⟨snapshot, hok, (Except.ok.inj hartifacts).symm, hschema⟩
  cases schema with
  | none => exact ⟨_, rfl⟩
  | some content =>
    simp only [artifactsOf] at h
    split at h
    · cases h
    · next validators four hfour =>
      refine ⟨_, bind_ok.mpr ⟨_, u, compileSchema_ok.mpr ⟨hfour, rfl⟩, bind_ok.mpr ⟨(), u, ?_, rfl⟩⟩⟩
      apply hready.assertArtifacts
      intro a ha
      have hpath : a.path ∈ four.map (·.path) := List.mem_map_of_mem ha
      rw [schemaArtifacts_paths hfour] at hpath
      obtain ⟨n, -, hn⟩ := List.mem_map.mp hpath
      exact ⟨n, hn.symm⟩

theorem staleAmong_ok (artifacts : List FluxFastGeneratedArtifact) :
    ∃ stale, (staleAmong cwd artifacts : Run ε (List PathText)) u = .ok stale u ∧
      (stale = [] ↔ ∀ a ∈ artifacts, Holds cwd u a) := by
  induction artifacts with
  | nil => exact ⟨[], rfl, by simp⟩
  | cons artifact rest ih =>
    obtain ⟨others, hothers, hiff⟩ := ih
    have hstale : ∃ stale, (isStale cwd artifact : Run ε Bool) u = .ok stale u ∧
        (stale = false ↔ Holds cwd u artifact) := by
      unfold isStale Holds
      rcases readOnly_readFileSync cwd artifact.path u with ⟨content, h⟩ | ⟨e, h⟩
      · rw [h]
        exact ⟨_, rfl, by simp⟩
      · rw [h]
        exact ⟨_, rfl, by simp⟩
    obtain ⟨stale, hok, hcurrent⟩ := hstale
    refine ⟨_, bind_ok.mpr ⟨stale, u, hok, bind_ok.mpr ⟨others, u, hothers, rfl⟩⟩, ?_⟩
    cases stale with
    | true =>
      have : ¬Holds cwd u artifact := fun h => Bool.noConfusion (hcurrent.mpr h)
      simp [this]
    | false => simpa [hcurrent.mp rfl] using hiff

/-- A check is clean when its snapshot is what the files hold. -/
theorem check_current_iff :
    (∃ report, checkFluxFastProject compilers cwd options u = .ok report u ∧
        report.current = true) ↔
      ∃ snapshot, createFluxFastProjectSnapshot compilers cwd options u = .ok snapshot u ∧
        ∀ a ∈ snapshot.schemaArtifact ++ snapshot.artifacts, Holds cwd u a := by
  constructor
  -- Nothing is stale means that every artifact is there with its content.
  · rintro ⟨report, h, hcurrent⟩
    obtain ⟨snapshot, v, hsnapshot, hrest⟩ := bind_ok.mp h
    cases readOnly_snapshot.ok_state hsnapshot
    obtain ⟨stale, hstale, hiff⟩ := @staleAmong_ok ε cwd u snapshot.artifacts
    obtain ⟨staleSchema, hstaleSchema, hiffSchema⟩ := @staleAmong_ok ε cwd u snapshot.schemaArtifact
    simp only [bind, EStateM.bind, hstale, hstaleSchema] at hrest
    cases hrest
    have hnil : staleSchema ++ stale = [] := List.isEmpty_iff.mp hcurrent
    rw [List.append_eq_nil_iff] at hnil
    refine ⟨snapshot, hsnapshot, ?_⟩
    intro a ha
    rcases List.mem_append.mp ha with ha | ha
    · exact hiffSchema.mp hnil.1 a ha
    · exact hiff.mp hnil.2 a ha
  · rintro ⟨snapshot, hsnapshot, hholds⟩
    obtain ⟨stale, hstale, hiff⟩ := @staleAmong_ok ε cwd u snapshot.artifacts
    obtain ⟨staleSchema, hstaleSchema, hiffSchema⟩ := @staleAmong_ok ε cwd u snapshot.schemaArtifact
    refine ⟨_, bind_ok.mpr ⟨snapshot, u, hsnapshot, bind_ok.mpr ⟨stale, u, hstale,
      bind_ok.mpr ⟨staleSchema, u, hstaleSchema, rfl⟩⟩⟩, ?_⟩
    apply List.isEmpty_iff.mpr
    rw [List.append_eq_nil_iff]
    constructor
    · exact hiffSchema.mpr fun a ha => hholds a (List.mem_append_left _ ha)
    · exact hiff.mpr fun a ha => hholds a (List.mem_append_right _ ha)

/-! ## A generation that returns -/

/-- What is known of a generation once it has returned. -/
structure Generated (compilers : Compilers μ δ ε) (cwd : Place)
    (options : FluxFastGenerationOptions) (t u : FileTree String)
    (artifacts : List FluxFastGeneratedArtifact) : Prop where
  compiled : artifactsOf compilers cwd options (options.schemaContent <|> schemaAt cwd options t) =
    .ok artifacts
  readable : options.schemaContent = none →
    t.node (options.candidateSchemaFile cwd) ≠ some .directory
  changes : Changes t u
    (options.registry.pagesDir.stops cwd ++
      (givenSchema cwd options ++ artifacts).flatMap (·.path.dirname.stops cwd))
    ((givenSchema cwd options ++ artifacts).map (fileOf cwd))
  reached : ∀ a ∈ givenSchema cwd options ++ artifacts,
    u.enter cwd a.path = .ok (a.path.resolve cwd)
  ready : Ready cwd options u

theorem registry_mem {schema : Option String} {artifacts : List FluxFastGeneratedArtifact}
    (h : artifactsOf compilers cwd options schema = .ok artifacts) :
    options.registryArtifact ∈ artifacts := by
  unfold artifactsOf at h
  split at h
  · cases h
    exact List.mem_singleton_self _
  · split at h
    · cases h
    · cases h
      exact List.mem_cons_self

theorem schema_eq (hready : options.schemaContent = none →
      t.node (options.candidateSchemaFile cwd) ≠ some .directory) :
    (readSchema cwd options : Run ε (Option String)) t =
      .ok (options.schemaContent <|> schemaAt cwd options t) t := by
  cases h : options.schemaContent with
  | some content => exact readSchema_given h
  | none => exact readSchema_found h (hready h)

theorem isDirectory_above {p : Place} {content : String} (h : u.node p = some (.file content)) :
    u.node p.dropLast = some .directory := by
  rcases List.eq_nil_or_concat p with rfl | ⟨q, n, rfl⟩
  · rw [u.root] at h
    cases h
  · rw [List.concat_eq_append] at h ⊢
    rw [List.dropLast_concat]
    exact u.parent q n (by rw [h]; exact nofun)

theorem snapshot_ok {snapshot : FluxFastProjectSnapshot δ}
    (h : createFluxFastProjectSnapshot compilers cwd options t = .ok snapshot v) :
    (assertPaths cwd options : Run ε Unit) t = .ok () t ∧
      (options.schemaContent = none →
        t.node (options.candidateSchemaFile cwd) ≠ some .directory) ∧
      artifactsOf compilers cwd options (options.schemaContent <|> schemaAt cwd options t) =
        .ok snapshot.artifacts ∧
      snapshot.schemaArtifact = givenSchema cwd options ∧
      snapshot.pagesDir = options.registry.pagesDir := by
  obtain ⟨_, w, hassert, hrest⟩ := bind_ok.mp h
  cases readOnly_assertPaths.ok_state hassert
  obtain ⟨schema, w, hschema, hsnapshot⟩ := bind_ok.mp hrest
  cases readOnly_readSchema.ok_state hschema
  have hreadable : options.schemaContent = none →
      t.node (options.candidateSchemaFile cwd) ≠ some .directory :=
    fun hnone hdir => readSchema_directory hnone hdir hschema
  rw [schema_eq hreadable] at hschema
  cases hschema
  refine ⟨hassert, hreadable, snapshotOf_ok ?_ hsnapshot⟩
  cases options.schemaContent with
  | none => exact fun _ => rfl
  | some content => exact nofun

/-- A generation that returns has written its artifacts one after another. -/
theorem generate_ok {result : FluxFastGenerationResult δ}
    (h : generateFluxFastProject compilers cwd unique options t = .ok result u) :
    ∃ snapshot, createFluxFastProjectSnapshot compilers cwd options t = .ok snapshot t ∧
      result.generatedFiles = snapshot.artifacts.map (·.path) ∧
      result.schemaFile = snapshot.schemaFile ∧
      snapshot.schemaArtifact = givenSchema cwd options ∧
      Generated compilers cwd options t u snapshot.artifacts := by
  obtain ⟨snapshot, w, hsnapshot, hrest⟩ := bind_ok.mp h
  cases readOnly_snapshot.ok_state hsnapshot
  obtain ⟨_, t1, hmkdir, hrest⟩ := bind_ok.mp hrest
  obtain ⟨_, t2, hplace, hresult⟩ := bind_ok.mp hrest
  -- The steps of the source in order: assert, snapshot, make the directories, write the artifacts.
  cases hresult
  obtain ⟨hassert, hreadable, hartifacts, hschema, hpages⟩ := snapshot_ok hsnapshot
  obtain ⟨hfiles, hnode⟩ := mkdirSync_ok (adaptExcept_ok.mp hmkdir)
  have hmade := (Changes.refl t).make hfiles hnode
  rw [hschema] at hplace
  obtain ⟨hchanges, hreached, -⟩ := placeArtifacts_ok hmade (adaptExcept_ok.mp hplace)
  rw [hpages, List.nil_append, List.nil_append] at hchanges
  refine ⟨snapshot, hsnapshot, rfl, rfl, hschema, ?_⟩
  -- a written file has a directory above it, which the next run's assertion asks for
  have hwritten : ∀ a ∈ givenSchema cwd options ++ snapshot.artifacts,
      u.node (a.path.resolve cwd).dropLast = some .directory := by
    intro a ha
    obtain ⟨g, -, -, hfile⟩ := hchanges.isWritten (fileOf cwd a) (List.mem_map_of_mem ha)
    exact isDirectory_above hfile
  refine ⟨hartifacts, hreadable, hchanges, hreached, ?_, ?_, ?_, ?_⟩
  -- both assertions have passed before anything was written
  · obtain ⟨_, _, hinside, -⟩ := bind_ok.mp hassert
    exact inside_of_assert hinside
  · intro hsome
    obtain ⟨_, _, hinside, hrest⟩ := bind_ok.mp hassert
    cases (readOnly_assertGeneratedOutputPath _ _ _ _).ok_state hinside
    rw [hsome] at hrest
    exact inside_of_assert hrest
  · exact hwritten _ (List.mem_append_right _ (registry_mem hartifacts))
  · intro hsome
    obtain ⟨content, hcontent⟩ := Option.isSome_iff_exists.mp hsome
    have hmem : (⟨ofPlace (options.candidateSchemaFile cwd), content⟩ :
        FluxFastGeneratedArtifact) ∈ givenSchema cwd options := by
      unfold givenSchema
      rw [hcontent]
      exact List.mem_singleton_self _
    have := hwritten _ (List.mem_append_left _ hmem)
    rwa [resolve_ofPlace] at this

theorem current_iff (hready : Ready cwd options u) :
    (∃ report, checkFluxFastProject compilers cwd options u = .ok report u ∧
        report.current = true) ↔
      (options.schemaContent = none →
        u.node (options.candidateSchemaFile cwd) ≠ some .directory) ∧
      ∃ artifacts, artifactsOf compilers cwd options
          (options.schemaContent <|> schemaAt cwd options u) = .ok artifacts ∧
        ∀ a ∈ givenSchema cwd options ++ artifacts, Holds cwd u a := by
  rw [check_current_iff]
  constructor
  · rintro ⟨snapshot, hsnapshot, hholds⟩
    obtain ⟨-, hreadable, hartifacts, hschema, -⟩ := snapshot_ok hsnapshot
    rw [hschema] at hholds
    exact ⟨hreadable, snapshot.artifacts, hartifacts, hholds⟩
  · rintro ⟨hreadable, artifacts, hartifacts, hholds⟩
    have hnone : (options.schemaContent <|> schemaAt cwd options u) = none →
        options.schemaContent = none := by
      cases options.schemaContent with
      | none => exact fun _ => rfl
      | some content => exact nofun
    obtain ⟨snapshot, hsnapshot, rfl, hschema⟩ := snapshotOf_ready hready hnone hartifacts
    refine ⟨snapshot, bind_ok.mpr ⟨(), u, hready.assertPaths, bind_ok.mpr ⟨_, u,
      schema_eq hreadable, hsnapshot⟩⟩, ?_⟩
    rw [hschema]
    exact hholds

namespace Generated

variable {artifacts : List FluxFastGeneratedArtifact}

/-- Every file holds what was written there when no two files disagree. -/
theorem holds_iff (h : Generated compilers cwd options t u artifacts) :
    (∀ a ∈ givenSchema cwd options ++ artifacts, Holds cwd u a) ↔
      Agree cwd (givenSchema cwd options ++ artifacts) := by
  constructor
  · intro hholds a ha b hb hplace
    have hna := node_of_holds (hholds a ha)
    have hnb := node_of_holds (hholds b hb)
    rw [hplace, hnb] at hna
    exact (Node.file.inj (Option.some.inj hna)).symm
  · intro hagree a ha
    obtain ⟨g, hg, hplace, hfile⟩ := h.changes.isWritten (fileOf cwd a) (List.mem_map_of_mem ha)
    obtain ⟨b, hb, rfl⟩ := List.mem_map.mp hg
    apply holds_of_node (h.reached a ha)
    rw [hagree a ha b hb hplace.symm]
    exact hfile

/-- What stands at a place that is neither made nor written stood there before. -/
theorem node_kept (h : Generated compilers cwd options t u artifacts) {p : Place} {text : String}
    (hfree : ∀ a ∈ givenSchema cwd options ++ artifacts, a.path.resolve cwd ≠ p)
    (hfile : u.node p = some (.file text)) : t.node p = some (.file text) := by
  rw [← h.changes.kept p]
  · exact hfile
  · intro hmade
    rw [h.changes.isMade p hmade] at hfile
    cases hfile
  · intro f hf
    obtain ⟨a, ha, rfl⟩ := List.mem_map.mp hf
    exact hfree a ha

end Generated

/-- Two schemas whose artifacts agree path by path have the same artifacts. -/
theorem artifactsOf_eq {x y : String} {first second : List FluxFastGeneratedArtifact}
    (hx : artifactsOf compilers cwd options (some x) = .ok first)
    (hy : artifactsOf compilers cwd options (some y) = .ok second)
    (h : ∀ a ∈ first, ∀ b ∈ second, a.path = b.path → a.content = b.content) :
    first = second := by
  -- The paths come from the options alone, so two results differ in contents only.
  have hpaths : ∀ {z : String} {artifacts : List FluxFastGeneratedArtifact},
      artifactsOf compilers cwd options (some z) = .ok artifacts →
      artifacts.map (·.path) = options.registry.outputFile ::
        [typesName, validatorsName, routesName, mutationsName].map fun n =>
          ofPlace (options.outputDir cwd ++ [n]) := by
    intro z artifacts hz
    simp only [artifactsOf] at hz
    split at hz
    · cases hz
    · next hfour =>
      cases hz
      rw [List.map_cons, List.map_map, ← schemaArtifacts_paths hfour]
      rfl
  apply List.ext_getElem
  · have := congrArg List.length ((hpaths hx).trans (hpaths hy).symm)
    simpa using this
  · intro i h1 h2
    have hpath : first[i].path = second[i].path := by
      have := List.getElem_of_eq ((hpaths hx).trans (hpaths hy).symm)
        (show i < (first.map (·.path)).length by simpa using h1)
      simpa using this
    have hcontent := h first[i] (List.getElem_mem h1) second[i] (List.getElem_mem h2) hpath
    generalize first[i] = a at hpath hcontent ⊢
    generalize second[i] = b at hpath hcontent ⊢
    obtain ⟨ap, ac⟩ := a
    obtain ⟨bp, bc⟩ := b
    simp only at hpath hcontent
    rw [hpath, hcontent]

/-! ## When a check is clean -/

theorem none_orElse (schema : Option String) : (none <|> schema) = schema := rfl

theorem path_of_mem {schema : Option String} {artifacts : List FluxFastGeneratedArtifact}
    (h : artifactsOf compilers cwd options schema = .ok artifacts)
    {a : FluxFastGeneratedArtifact} (ha : a ∈ artifacts) :
    a = options.registryArtifact ∨ ∃ p, a.path = ofPlace p := by
  cases schema with
  | none =>
    cases h
    exact .inl (List.mem_singleton.mp ha)
  | some content =>
    simp only [artifactsOf] at h
    split at h
    · cases h
    · next four hfour =>
      cases h
      rcases List.mem_cons.mp ha with heq | hmem
      · exact .inl heq
      · right
        obtain ⟨b, hb, rfl⟩ := List.mem_map.mp hmem
        have hpath : b.path ∈ four.map (·.path) := List.mem_map_of_mem hb
        rw [schemaArtifacts_paths hfour] at hpath
        obtain ⟨n, -, hn⟩ := List.mem_map.mp hpath
        exact ⟨_, hn.symm⟩

section Clean

variable {artifacts : List FluxFastGeneratedArtifact}

/-- The result of a generation is what a check looks for. -/
def CleanAfter (compilers : Compilers μ δ ε) (cwd : Place) (options : FluxFastGenerationOptions)
    (u : FileTree String) (artifacts : List FluxFastGeneratedArtifact) : Prop :=
  (∀ a ∈ givenSchema cwd options ++ artifacts, Holds cwd u a) ∧
    ∃ report, checkFluxFastProject compilers cwd options u = .ok report u ∧ report.current = true

/-- With a schema content that is given, nothing but disagreeing files can spoil a check. -/
theorem cleanAfter_given {content : String} (hgiven : options.schemaContent = some content)
    (h : Generated compilers cwd options t u artifacts) :
    CleanAfter compilers cwd options u artifacts ↔ Settled compilers cwd options t := by
  have hcompiled := h.compiled
  rw [hgiven] at hcompiled
  constructor
  · rintro ⟨hholds, -⟩
    refine ⟨?_, ?_, ?_, ?_⟩
    · intro others hothers
      rw [hgiven] at hothers
      rw [← Except.ok.inj (hcompiled.symm.trans hothers)]
      exact h.holds_iff.mp hholds
    all_goals
      intro hnone
      rw [hgiven] at hnone
      cases hnone
  · intro hsettled
    have hholds := h.holds_iff.mpr (hsettled.agree artifacts h.compiled)
    refine ⟨hholds, (current_iff h.ready).mpr ⟨?_, artifacts, ?_, hholds⟩⟩
    · intro hnone
      rw [hgiven] at hnone
      cases hnone
    · rw [hgiven]
      exact hcompiled

/-- The schema file was there: it is still a schema with the same artifacts. -/
theorem cleanAfter_found (hnone : options.schemaContent = none) {text : String}
    (hfile : t.node (options.candidateSchemaFile cwd) = some (.file text))
    (h : Generated compilers cwd options t u artifacts) :
    CleanAfter compilers cwd options u artifacts ↔ Settled compilers cwd options t := by
  have hgiven : givenSchema cwd options = [] := by
    unfold givenSchema
    rw [hnone]
  have hfound : schemaAt cwd options t = some text := by
    unfold schemaAt
    rw [hfile]
  have hcompiled := h.compiled
  rw [hnone, hfound] at hcompiled
  rw [CleanAfter, current_iff h.ready, hnone, hgiven, List.nil_append]
  constructor
  · rintro ⟨hholds, -, others, hothers, hcurrent⟩
    have hagree := h.holds_iff.mp (by rw [hgiven]; exact hholds)
    refine ⟨?_, ?_, ?_, ?_⟩
    · intro same hsame
      rw [hnone, hfound] at hsame
      rw [← Except.ok.inj (hcompiled.symm.trans hsame)]
      exact hagree
    · intro _ text' hfile' same hsame a ha hplace
      rw [hfile] at hfile'
      cases hfile'
      cases Except.ok.inj (hcompiled.symm.trans hsame)
      -- the check reads the artifact as the schema
      have hnode := node_of_holds (hholds a ha)
      rw [hplace] at hnode
      have hread : schemaAt cwd options u = some a.content := by
        unfold schemaAt
        rw [hnode]
      rw [none_orElse, hread] at hothers
      rw [hothers]
      congr 1
      apply artifactsOf_eq hothers hcompiled
      intro b hb c hc hpath
      have hb := node_of_holds (hcurrent b hb)
      rw [hpath, node_of_holds (hholds c hc)] at hb
      exact (Node.file.inj (Option.some.inj hb)).symm
    all_goals
      intro _ habsent
      rw [hfile] at habsent
      cases habsent
  · intro hsettled
    have hholds := h.holds_iff.mpr (hsettled.agree artifacts h.compiled)
    rw [hgiven, List.nil_append] at hholds
    -- what the schema file holds afterwards
    have hafter : ∃ content, u.node (options.candidateSchemaFile cwd) = some (.file content) ∧
        artifactsOf compilers cwd options (some content) = .ok artifacts := by
      by_cases hplaced : ∃ a ∈ artifacts, a.path.resolve cwd = options.candidateSchemaFile cwd
      · obtain ⟨a, ha, hplace⟩ := hplaced
        refine ⟨a.content, ?_, hsettled.again hnone text hfile artifacts hcompiled a ha hplace⟩
        rw [← hplace]
        exact node_of_holds (hholds a ha)
      · refine ⟨text, ?_, hcompiled⟩
        rw [← hfile]
        apply h.changes.kept _ (h.changes.not_made hfile)
        intro f hf heq
        obtain ⟨a, ha, rfl⟩ := List.mem_map.mp hf
        rw [hgiven, List.nil_append] at ha
        exact hplaced ⟨a, ha, heq⟩
    obtain ⟨content, hnode, hagain⟩ := hafter
    refine ⟨hholds, ?_, artifacts, ?_, hholds⟩
    · intro _ hdir
      rw [hnode] at hdir
      cases hdir
    · have hread : schemaAt cwd options u = some content := by
        unfold schemaAt
        rw [hnode]
      rw [none_orElse, hread]
      exact hagain

/-- The schema file was missing: nothing takes its place, or what takes it has its artifacts. -/
theorem cleanAfter_missing (hnone : options.schemaContent = none)
    (habsent : t.node (options.candidateSchemaFile cwd) = none)
    (h : Generated compilers cwd options t u artifacts) :
    CleanAfter compilers cwd options u artifacts ↔ Settled compilers cwd options t := by
  have hgiven : givenSchema cwd options = [] := by
    unfold givenSchema
    rw [hnone]
  -- With no schema the registry file is the only artifact that this run has written.
  have hfound : schemaAt cwd options t = none := by
    unfold schemaAt
    rw [habsent]
  have hcompiled := h.compiled
  rw [hnone, hfound] at hcompiled
  cases hcompiled
  have hagree : Agree cwd [options.registryArtifact] := by
    intro a ha b hb _
    rw [List.mem_singleton.mp ha, List.mem_singleton.mp hb]
  have hholds : Holds cwd u options.registryArtifact :=
    h.holds_iff.mpr (by rw [hgiven]; exact hagree) _ (by simp)
  have hmade : ∀ p, p ∈ options.registry.pagesDir.stops cwd ∨
      p ∈ options.registry.outputFile.dirname.stops cwd → u.node p = some .directory := by
    intro p hp
    apply h.changes.isMade
    rw [hgiven, List.nil_append, List.flatMap_singleton, List.mem_append]
    exact hp
  have hkept : ∀ p, p ∉ options.registry.pagesDir.stops cwd →
      p ∉ options.registry.outputFile.dirname.stops cwd →
      options.registry.outputFile.resolve cwd ≠ p → u.node p = t.node p := by
    intro p hpages hdirname hregistry
    apply h.changes.kept
    · rw [hgiven, List.nil_append, List.flatMap_singleton, List.mem_append, not_or]
      exact ⟨hpages, hdirname⟩
    · intro f hf
      rw [hgiven] at hf
      rw [List.mem_singleton.mp hf]
      exact hregistry
  rw [CleanAfter, current_iff h.ready, hnone, hgiven, List.nil_append]
  constructor
  -- From a clean check back to the four conditions.
  · rintro ⟨-, hread, others, hothers, hcurrent⟩
    refine ⟨?_, ?_, ?_, ?_⟩
    · intro same hsame
      rw [hnone, hfound] at hsame
      cases hsame
      rw [hgiven]
      exact hagree
    · intro _ text hfile
      rw [habsent] at hfile
      cases hfile
    · intro _ _
      exact ⟨fun hp => hread rfl (hmade _ (.inl hp)), fun hp => hread rfl (hmade _ (.inr hp))⟩
    -- the registry file itself stands in the schema's place
    · intro _ _ hplace
      have hnode := node_of_holds hholds
      have hcand : u.node (options.candidateSchemaFile cwd) =
          some (.file options.registry.content) := by
        rw [← hplace]
        exact hnode
      have hschema : schemaAt cwd options u = some options.registry.content := by
        unfold schemaAt
        rw [hcand]
      rw [none_orElse, hschema] at hothers
      refine ⟨others, hothers, ?_⟩
      intro a ha
      have hfile := node_of_holds (hcurrent a ha)
      split
      · next heq =>
        rw [heq, hcand] at hfile
        exact (Node.file.inj (Option.some.inj hfile)).symm
      · next hne =>
        apply h.node_kept _ hfile
        intro b hb
        rw [hgiven] at hb
        rw [List.mem_singleton.mp hb]
        exact fun heq => hne (heq.symm.trans hplace)
  -- And forward: either the registry file is the schema that the check finds, or there is none.
  · intro hsettled
    obtain ⟨hpages, hdirname⟩ := hsettled.free hnone habsent
    refine ⟨?_, ?_⟩
    · intro a ha
      rw [List.mem_singleton.mp ha]
      exact hholds
    by_cases hplace : options.registry.outputFile.resolve cwd = options.candidateSchemaFile cwd
    · obtain ⟨others, hothers, hthere⟩ := hsettled.already hnone habsent hplace
      have hcand : u.node (options.candidateSchemaFile cwd) =
          some (.file options.registry.content) := by
        rw [← hplace]
        exact node_of_holds hholds
      have hschema : schemaAt cwd options u = some options.registry.content := by
        unfold schemaAt
        rw [hcand]
      refine ⟨fun _ hdir => ?_, others, ?_, ?_⟩
      · rw [hcand] at hdir
        cases hdir
      · rw [none_orElse, hschema]
        exact hothers
      · intro a ha
        have hnode : u.node (a.path.resolve cwd) = some (.file a.content) := by
          have hwas := hthere a ha
          split at hwas
          · next heq => rw [heq, hwas, hcand]
          · next hne =>
            rw [← hwas]
            have hfree := h.changes.not_made hwas
            rw [hgiven, List.nil_append, List.flatMap_singleton, List.mem_append, not_or] at hfree
            exact hkept _ hfree.1 hfree.2 fun heq => hne (heq.symm.trans hplace)
        rcases path_of_mem hothers ha with rfl | ⟨p, hp⟩
        · exact hholds
        · rw [hp, resolve_ofPlace] at hnode
          have hread := (@holds_ofPlace cwd u p a.content).mpr hnode
          unfold Holds at hread ⊢
          rw [hp]
          exact hread
    -- no schema is found, so the check looks for the registry file alone
    · have hcand : u.node (options.candidateSchemaFile cwd) = none :=
        (hkept _ hpages hdirname hplace).trans habsent
      have hschema : schemaAt cwd options u = none := by
        unfold schemaAt
        rw [hcand]
      refine ⟨fun _ hdir => ?_, [options.registryArtifact], ?_, ?_⟩
      · rw [hcand] at hdir
        cases hdir
      · rw [none_orElse, hschema]
        rfl
      · intro a ha
        rw [List.mem_singleton.mp ha]
        exact hholds

theorem cleanAfter_iff (h : Generated compilers cwd options t u artifacts) :
    CleanAfter compilers cwd options u artifacts ↔ Settled compilers cwd options t := by
  cases hschema : options.schemaContent with
  | some content => exact cleanAfter_given hschema h
  | none =>
    cases hnode : t.node (options.candidateSchemaFile cwd) with
    | none => exact cleanAfter_missing hschema hnode h
    | some node =>
      cases node with
      | directory => exact absurd hnode (h.readable hschema)
      | file text => exact cleanAfter_found hschema hnode h

end Clean

/-! ## Generation and check together -/

/-- What a project expects of a generation from these files. -/
structure CleanGeneration (compilers : Compilers μ δ ε) (cwd : Place) (unique : Nat → String)
    (options : FluxFastGenerationOptions) (t : FileTree String) : Prop where
  /-- The reported files hold what was compiled for them. -/
  reported : ∀ result u, generateFluxFastProject compilers cwd unique options t = .ok result u →
    ∃ snapshot, createFluxFastProjectSnapshot compilers cwd options t = .ok snapshot t ∧
      result.generatedFiles = snapshot.artifacts.map (·.path) ∧
      result.schemaFile = snapshot.schemaFile ∧
      ∀ a ∈ snapshot.schemaArtifact ++ snapshot.artifacts, Holds cwd u a
  /-- A check with the same options finds them current. -/
  current : ∀ result u, generateFluxFastProject compilers cwd unique options t = .ok result u →
    ∃ report, checkFluxFastProject compilers cwd options u = .ok report u ∧ report.current = true
  /-- A check changes no file. -/
  checked : ReadOnly (checkFluxFastProject compilers cwd options)
  /-- A path check or a compilation that fails leaves everything as it was. -/
  refused : ∀ e u, createFluxFastProjectSnapshot compilers cwd options t = .error e u →
    generateFluxFastProject compilers cwd unique options t = .error e t

/-- A snapshot that fails ends the generation before a file is touched. -/
theorem generate_refused {e : Failure ε}
    (h : createFluxFastProjectSnapshot compilers cwd options t = .error e u) :
    generateFluxFastProject compilers cwd unique options t = .error e t := by
  have hu : u = t := by
    rcases @readOnly_snapshot μ δ ε compilers cwd options t with ⟨_, hok⟩ | ⟨_, herr⟩
    · rw [hok] at h
      cases h
    · rw [herr] at h
      cases h
      rfl
  show EStateM.bind _ _ t = _
  unfold EStateM.bind
  rw [h, hu]

theorem cleanGeneration_iff :
    CleanGeneration compilers cwd unique options t ↔
      ∀ result u, generateFluxFastProject compilers cwd unique options t = .ok result u →
        Settled compilers cwd options t := by
  constructor
  · intro h result u hok
    obtain ⟨snapshot, hsnapshot, -, -, hschema, hgenerated⟩ := generate_ok hok
    obtain ⟨same, hsame, -, -, hholds⟩ := h.reported result u hok
    rw [hsnapshot] at hsame
    cases hsame
    rw [hschema] at hholds
    exact (cleanAfter_iff hgenerated).mp ⟨hholds, h.current result u hok⟩
  · intro hsettled
    refine ⟨?_, ?_, readOnly_check, fun e u => generate_refused⟩
    · intro result u hok
      obtain ⟨snapshot, hsnapshot, hfiles, hfile, hschema, hgenerated⟩ := generate_ok hok
      have hclean := (cleanAfter_iff hgenerated).mpr (hsettled result u hok)
      refine ⟨snapshot, hsnapshot, hfiles, hfile, ?_⟩
      rw [hschema]
      exact hclean.1
    · intro result u hok
      obtain ⟨snapshot, -, -, -, -, hgenerated⟩ := generate_ok hok
      exact ((cleanAfter_iff hgenerated).mpr (hsettled result u hok)).2

/-- A root without anything in it. -/
def bareRoot : FileTree String where
  node p := if p = [] then some .directory else none
  root := if_pos rfl
  parent _ _ h := absurd (if_neg (by simp)) h

/-- Compilers that write the first line of their artifact. -/
def headerCompilers : Compilers Unit Unit String where
  parseFluxFastSchemaManifest _ := .ok ()
  compileFluxFastValidatorsWithDiagnostics _ := .ok ⟨"// AUTO-GENERATED BY FLUXFAST.", [], []⟩
  compileFluxFastResourceTypes _ := .ok "// AUTO-GENERATED BY FLUXFAST."
  compileFluxFastPageRoutes _ := .ok "// AUTO-GENERATED BY FLUXFAST."
  compileFluxFastMutations _ := .ok "// AUTO-GENERATED BY FLUXFAST."

/-- The registry is to be written where the types are. -/
def registryAtTypes : FluxFastGenerationOptions where
  registry := {
    content := "export const fluxPages = \x7b\x7d;"
    outputFile := ⟨true, ["app", ".fluxfast", "types.generated.ts"]⟩
    pagesDir := ⟨true, ["app", "flux-pages"]⟩ }
  generatedDir := none
  schemaContent := some ("\x7b\"schema\":\"fluxfast-schema/1\",\"producer\":\"1.0.0\"," ++
    "\"fingerprint\":\"" ++ String.ofList (List.replicate 64 '0') ++
    "\",\"resources\":\x7b\x7d,\"pages\":[],\"mutations\":[]\x7d")
  schemaFile := none

theorem not_clean_registryAtTypes :
    ¬CleanGeneration headerCompilers [] (fun _ => "0") registryAtTypes bareRoot := by
  intro h
  have hrun : (match generateFluxFastProject headerCompilers [] (fun _ => "0") registryAtTypes
      bareRoot with
    | .ok _ u => (match checkFluxFastProject headerCompilers [] registryAtTypes u with
      | .ok report _ => !report.current
      | .error _ _ => false)
    | .error _ _ => false) = true := by decide +kernel
  split at hrun
  · next result u hok =>
    obtain ⟨report, hcheck, hcurrent⟩ := h.current result u hok
    rw [hcheck] at hrun
    simp only [hcurrent, Bool.not_true, Bool.false_eq_true] at hrun
  · cases hrun

end FluxFast.Codegen
