import FluxFast.Theory.FileTree

/-!
# Generate — the generated files of a project

`createFluxFastProjectSnapshot` compiles every artifact before a file is written.  The compilers of the
artifacts are given; symbolic links are left out, and so is the log.
-/

namespace FluxFast.Codegen

open FluxFast.Theory FluxFast.Theory.FileTree

structure PagesRegistrySnapshot where
  content : String
  outputFile : PathText
  pagesDir : PathText

structure FluxFastGenerationOptions where
  registry : PagesRegistrySnapshot
  generatedDir : Option PathText
  schemaContent : Option String
  schemaFile : Option PathText

structure FluxFastGeneratedArtifact where
  path : PathText
  content : String

/-- What `compileFluxFastValidatorsWithDiagnostics` returns. -/
structure ValidatorCompilation (δ : Type) where
  content : String
  contracts : List String
  diagnostics : List δ

/-- The compilers from a manifest to its artifacts. -/
structure Compilers (μ δ ε : Type) where
  parseFluxFastSchemaManifest : String → Except ε μ
  compileFluxFastValidatorsWithDiagnostics : μ → Except ε (ValidatorCompilation δ)
  compileFluxFastResourceTypes : μ → Except ε String
  compileFluxFastPageRoutes : μ → Except ε String
  compileFluxFastMutations : μ → Except ε String

inductive Failure (ε : Type)
  | outside (label : String) (generatedDir : Place) (outputPath : PathText)
  | boundary (label : String)
  | compilation (e : ε)
  | system (e : Errno)

/-- A program over the files of a project. -/
abbrev Run (ε β : Type) := EStateM (Failure ε) (FileTree String) β

def call {ε β : Type} (action : Calls String β) : Run ε β := action.adaptExcept .system

/-! ## Paths -/

/-- `path.relative`, cut at its slashes. -/
def relative : Place → Place → List String
  | a :: root, b :: target =>
    if a = b then relative root target
    else (a :: root).map (fun _ => "..") ++ (b :: target).map (·.val)
  | root, target => root.map (fun _ => "..") ++ target.map (·.val)

def isWithin (root target : Place) : Bool :=
  let relative := relative root target
  relative = [] || relative.head? ≠ some ".."

/-- The loop of `commonDirectory`; the root is reached after as many turns as there are names. -/
def climb (right : Place) : Nat → Place → Place
  | 0, current => current
  | turns + 1, current =>
    if isWithin current right then current
    else if current.dropLast = current then current
    else climb right turns current.dropLast

def commonDirectory (left right : Place) : Place := climb right (left.length + 1) left

/-- The loop over the segments of a path; a missing place ends it or is passed over. -/
def lstatAlong {ε : Type} (cwd : Place) (stopAtMissing : Bool) :
    Place → List String → Run ε Unit
  | _, [] => pure ()
  | current, segment :: rest => fun t =>
    match lstatSync cwd (ofPlace (step current segment)) t with
    | .ok _ t => lstatAlong cwd stopAtMissing (step current segment) rest t
    | .error .enoent t =>
      if stopAtMissing then .ok () t
      else lstatAlong cwd stopAtMissing (step current segment) rest t
    | .error e t => .error (.system e) t

/-- `resolvedTrustedRoot`, which lies above the output directory where it can. -/
def resolvedTrustedRoot (generatedDir trustedRoot : Place) : Place :=
  if trustedRoot = generatedDir then trustedRoot.dropLast else trustedRoot

def assertGeneratedOutputPath {ε : Type} (cwd generatedDir : Place) (outputPath : PathText)
    (label : String) (trustedRoot : Place) : Run ε Unit :=
  let inside := relative generatedDir (outputPath.resolve cwd)
  let root := resolvedTrustedRoot generatedDir trustedRoot
  if inside = [] ∨ inside.head? = some ".." then
    throw (.outside label generatedDir outputPath)
  else if isWithin root generatedDir = false then throw (.boundary label)
  else do
    -- The boundary itself comes first.
    lstatAlong cwd true root ("" :: relative root generatedDir)
    lstatAlong cwd false generatedDir inside

/-! ## The snapshot -/

def schemaName : FileName := ⟨"schema.generated.json", by decide⟩

def typesName : FileName := ⟨"types.generated.ts", by decide⟩

def validatorsName : FileName := ⟨"validators.generated.ts", by decide⟩

def routesName : FileName := ⟨"routes.generated.ts", by decide⟩

def mutationsName : FileName := ⟨"mutations.generated.ts", by decide⟩

structure FluxFastProjectSnapshot (δ : Type) where
  artifacts : List FluxFastGeneratedArtifact
  generatedValidators : List String
  generatedDir : Place
  pagesDir : PathText
  registryPath : PathText
  schemaContent : Option String
  schemaFile : Option PathText
  validatorDiagnostics : List δ

namespace FluxFastGenerationOptions

variable (options : FluxFastGenerationOptions) (cwd : Place)

def outputDir : Place := (options.generatedDir.getD options.registry.outputFile.dirname).resolve cwd

def projectBoundary : Place :=
  (commonDirectory (options.registry.pagesDir.resolve cwd) (options.outputDir cwd)).dropLast

def candidateSchemaFile : Place :=
  match options.schemaFile with
  | some file => file.resolve cwd
  | none => options.outputDir cwd ++ [schemaName]

def registryArtifact : FluxFastGeneratedArtifact :=
  ⟨options.registry.outputFile, options.registry.content⟩

end FluxFastGenerationOptions

/-- An artifact and its label in the messages. -/
structure SchemaArtifact extends FluxFastGeneratedArtifact where
  label : String

section Snapshot

variable {μ δ ε : Type} (compilers : Compilers μ δ ε) (cwd : Place)

/-- The four artifacts of a manifest. -/
def schemaArtifacts (generatedDir : Place) (content : String) :
    Except ε (ValidatorCompilation δ × List SchemaArtifact) := do
  let manifest ← compilers.parseFluxFastSchemaManifest content
  let validators ← compilers.compileFluxFastValidatorsWithDiagnostics manifest
  let types ← compilers.compileFluxFastResourceTypes manifest
  let routes ← compilers.compileFluxFastPageRoutes manifest
  let mutations ← compilers.compileFluxFastMutations manifest
  return (validators, [
    ⟨⟨ofPlace (generatedDir ++ [typesName]), types⟩, "resource types"⟩,
    ⟨⟨ofPlace (generatedDir ++ [validatorsName]), validators.content⟩, "validators"⟩,
    ⟨⟨ofPlace (generatedDir ++ [routesName]), routes⟩, "page routes"⟩,
    ⟨⟨ofPlace (generatedDir ++ [mutationsName]), mutations⟩, "mutation helpers"⟩])

def assertArtifacts (generatedDir trustedRoot : Place) : List SchemaArtifact → Run ε Unit
  | [] => pure ()
  | artifact :: rest => do
    assertGeneratedOutputPath cwd generatedDir artifact.path artifact.label trustedRoot
    assertArtifacts generatedDir trustedRoot rest

/-- The schema content that is compiled: the given one, or what the schema file holds. -/
def readSchema (options : FluxFastGenerationOptions) : Run ε (Option String) :=
  match options.schemaContent with
  | some content => pure (some content)
  | none => do
    let file := ofPlace (options.candidateSchemaFile cwd)
    if ← call (existsSync cwd file) then
      let content ← call (readFileSync cwd file)
      return some content
    else return none

def compileSchema (generatedDir : Place) (content : String) :
    Run ε (ValidatorCompilation δ × List SchemaArtifact) :=
  match schemaArtifacts compilers generatedDir content with
  | .ok compiled => pure compiled
  | .error e => throw (.compilation e)

/-- The snapshot of a schema content that was found. -/
def snapshotOf (options : FluxFastGenerationOptions) :
    Option String → Run ε (FluxFastProjectSnapshot δ)
  | none => pure {
      artifacts := [options.registryArtifact]
      generatedValidators := []
      generatedDir := options.outputDir cwd
      pagesDir := options.registry.pagesDir
      registryPath := options.registry.outputFile
      schemaContent := options.schemaContent
      schemaFile := none
      validatorDiagnostics := [] }
  | some content => do
    let (validators, artifacts) ← compileSchema compilers (options.outputDir cwd) content
    assertArtifacts cwd (options.outputDir cwd) (options.projectBoundary cwd) artifacts
    return {
      artifacts := options.registryArtifact :: artifacts.map (·.toFluxFastGeneratedArtifact)
      generatedValidators := validators.contracts
      generatedDir := options.outputDir cwd
      pagesDir := options.registry.pagesDir
      registryPath := options.registry.outputFile
      schemaContent := options.schemaContent
      schemaFile := some (ofPlace (options.candidateSchemaFile cwd))
      validatorDiagnostics := validators.diagnostics }

/-- The path checks that come before anything is read. -/
def assertPaths (options : FluxFastGenerationOptions) : Run ε Unit := do
  assertGeneratedOutputPath cwd (options.outputDir cwd) options.registry.outputFile
    "component registry" (options.projectBoundary cwd)
  if options.schemaContent.isSome then
    assertGeneratedOutputPath cwd (options.outputDir cwd)
      (ofPlace (options.candidateSchemaFile cwd)) "schema manifest" (options.projectBoundary cwd)

/-- Every artifact compiled in memory. -/
def createFluxFastProjectSnapshot (options : FluxFastGenerationOptions) :
    Run ε (FluxFastProjectSnapshot δ) := do
  assertPaths cwd options
  let schemaContent ← readSchema cwd options
  snapshotOf compilers cwd options schemaContent

end Snapshot

/-! ## Generation and check -/

/-- The last name of a path text; the slashes at the end do not count. -/
def basename (text : PathText) : String :=
  (text.segments.rdropWhile (· == "")).getLastD ""

theorem isName_temporary (s unique : String) :
    IsName ("." ++ s ++ "." ++ unique ++ ".tmp") := by
  have hlen : 6 ≤ ("." ++ s ++ "." ++ unique ++ ".tmp").length := by
    simp only [String.length_append]
    have h1 : ".".length = 1 := rfl
    have h4 : ".tmp".length = 4 := rfl
    omega
  refine ⟨?_, ?_, ?_⟩ <;>
  · intro h
    rw [h] at hlen
    exact absurd hlen (by decide)

/-- `unique` is the process and a random number. -/
def temporaryPath (cwd : Place) (pathname : PathText) (unique : String) : Place :=
  pathname.dirname.resolve cwd ++
    [⟨"." ++ basename pathname ++ "." ++ unique ++ ".tmp", isName_temporary _ _⟩]

def writeGeneratedArtifact (cwd : Place) (unique : String) (pathname : PathText)
    (content : String) : Calls String Unit := do
  let temporary := temporaryPath cwd pathname unique
  createFile temporary content
  fun t =>
    match renameSync cwd temporary pathname t with
    | .ok _ t => .ok () t
    | .error e t =>
      -- A temporary file that cannot be removed must not mask the cause.
      match unlinkSync temporary t with
      | .ok _ t => .error e t
      | .error _ t => .error e t

/-- The parent directory of an artifact and then its file. -/
def placeArtifact (cwd : Place) (unique : String) (artifact : FluxFastGeneratedArtifact) :
    Calls String Unit := do
  mkdirSync cwd artifact.path.dirname
  writeGeneratedArtifact cwd unique artifact.path artifact.content

/-- The artifacts in turn; every file has a temporary name of its own. -/
def placeArtifacts (cwd : Place) (unique : Nat → String) :
    List FluxFastGeneratedArtifact → Calls String Unit
  | [] => pure ()
  | artifact :: rest => do
    placeArtifact cwd (unique rest.length) artifact
    placeArtifacts cwd unique rest

structure FluxFastGenerationResult (δ : Type) where
  generatedFiles : List PathText
  generatedValidators : List String
  registryPath : PathText
  schemaFile : Option PathText
  validatorDiagnostics : List δ

structure FluxFastGenerationCheckResult (δ : Type) where
  checkedFiles : List PathText
  current : Bool
  generatedValidators : List String
  registryPath : PathText
  schemaFile : Option PathText
  staleFiles : List PathText
  validatorDiagnostics : List δ

/-- The manifest to persist, when its content was given. -/
def FluxFastProjectSnapshot.schemaArtifact {δ : Type} (snapshot : FluxFastProjectSnapshot δ) :
    List FluxFastGeneratedArtifact :=
  match snapshot.schemaContent, snapshot.schemaFile with
  | some content, some file => [⟨file, content⟩]
  | _, _ => []

section Generation

variable {μ δ ε : Type} (compilers : Compilers μ δ ε) (cwd : Place)

def generateFluxFastProject (unique : Nat → String) (options : FluxFastGenerationOptions) :
    Run ε (FluxFastGenerationResult δ) := do
  let snapshot ← createFluxFastProjectSnapshot compilers cwd options
  call (mkdirSync cwd snapshot.pagesDir)
  call (placeArtifacts cwd unique (snapshot.schemaArtifact ++ snapshot.artifacts))
  return {
    generatedFiles := snapshot.artifacts.map (·.path)
    generatedValidators := snapshot.generatedValidators
    registryPath := snapshot.registryPath
    schemaFile := snapshot.schemaFile
    validatorDiagnostics := snapshot.validatorDiagnostics }

/-- A file that cannot be read is stale. -/
def isStale (artifact : FluxFastGeneratedArtifact) : Run ε Bool := fun t =>
  match readFileSync cwd artifact.path t with
  | .ok content t => .ok (content != artifact.content) t
  | .error _ t => .ok true t

def staleAmong : List FluxFastGeneratedArtifact → Run ε (List PathText)
  | [] => pure []
  | artifact :: rest => do
    let stale ← isStale cwd artifact
    let others ← staleAmong rest
    return if stale then artifact.path :: others else others

def checkFluxFastProject (options : FluxFastGenerationOptions) :
    Run ε (FluxFastGenerationCheckResult δ) := do
  let snapshot ← createFluxFastProjectSnapshot compilers cwd options
  let staleFiles ← staleAmong cwd snapshot.artifacts
  let staleSchema ← staleAmong cwd snapshot.schemaArtifact
  return {
    checkedFiles := snapshot.schemaArtifact.map (·.path) ++ snapshot.artifacts.map (·.path)
    current := (staleSchema ++ staleFiles).isEmpty
    generatedValidators := snapshot.generatedValidators
    registryPath := snapshot.registryPath
    schemaFile := snapshot.schemaFile
    staleFiles := staleSchema ++ staleFiles
    validatorDiagnostics := snapshot.validatorDiagnostics }

end Generation

end FluxFast.Codegen
