import Mathlib.Data.List.DropRight
import Mathlib.Data.List.Infix
import Mathlib.Data.List.Induction

/-!
# FileTree — files and directories under one root, and the calls on them

A place is the chain of names from the root.  A path text is walked from the root or from the working
directory, one segment after another, and every place the walk leaves has to be a directory.
Symbolic links are left out, so a walk ends where the text resolves to.
-/

namespace FluxFast.Theory

namespace FileTree

/-- A name that a directory can list. -/
def IsName (s : String) : Prop := s ≠ "" ∧ s ≠ "." ∧ s ≠ ".."

instance (s : String) : Decidable (IsName s) := inferInstanceAs (Decidable (_ ∧ _ ∧ _))

abbrev FileName := { s : String // IsName s }

abbrev Place := List FileName

inductive Node (α : Type)
  | directory
  | file (content : α)
  deriving DecidableEq

inductive Errno
  | enoent
  | enotdir
  | eexist
  | eisdir
  deriving DecidableEq

end FileTree

open FileTree in
/-- What stands where; whatever stands below the root stands in a directory. -/
structure FileTree (α : Type) where
  node : Place → Option (Node α)
  root : node [] = some .directory
  parent : ∀ p n, node (p ++ [n]) ≠ none → node p = some .directory

namespace FileTree

variable {α : Type}

/-! ## Places and path texts -/

/-- One segment of a path text taken from a place. -/
def step (p : Place) (s : String) : Place :=
  if h : IsName s then p ++ [⟨s, h⟩] else if s = ".." then p.dropLast else p

/-- The places that a walk enters. -/
def stops (p : Place) : List String → List Place
  | [] => []
  | s :: rest => step p s :: stops (step p s) rest

/-- A path text, cut at its slashes. -/
structure PathText where
  absolute : Bool
  segments : List String
  deriving DecidableEq

def PathText.start (cwd : Place) (text : PathText) : Place := if text.absolute then [] else cwd

/-- `path.resolve`. -/
def PathText.resolve (cwd : Place) (text : PathText) : Place :=
  text.segments.foldl step (text.start cwd)

def PathText.stops (cwd : Place) (text : PathText) : List Place :=
  FileTree.stops (text.start cwd) text.segments

/-- `path.dirname`: the slashes at the end do not count. -/
def PathText.dirname (text : PathText) : PathText :=
  let above := (text.segments.rdropWhile (· == "")).dropLast
  if above = [] ∧ text.absolute = false then ⟨false, ["."]⟩ else ⟨text.absolute, above⟩

def ofPlace (p : Place) : PathText := ⟨true, p.map (·.val)⟩

@[simp] theorem step_name (p : Place) (n : FileName) : step p n.val = p ++ [n] := dif_pos n.2

theorem foldl_step_names (p q : Place) : (q.map (·.val)).foldl step p = p ++ q := by
  induction q generalizing p with
  | nil => simp
  | cons n q ih =>
    rw [List.map_cons, List.foldl_cons, step_name, ih, List.append_assoc, List.singleton_append]

@[simp] theorem resolve_ofPlace (cwd p : Place) : (ofPlace p).resolve cwd = p :=
  foldl_step_names [] p

/-! ## Walks -/

/-- Where a walk ends. -/
def walk (t : FileTree α) (p : Place) : List String → Except Errno Place
  | [] => .ok p
  | s :: rest =>
    match t.node p with
    | some .directory => walk t (step p s) rest
    | some (.file _) => .error .enotdir
    | none => .error .enoent

theorem walk_eq {t : FileTree α} {p q : Place} {segments : List String}
    (h : walk t p segments = .ok q) : segments.foldl step p = q := by
  induction segments generalizing p with
  | nil => exact Except.ok.inj h
  | cons s rest ih =>
    unfold walk at h
    split at h
    · exact ih h
    · cases h
    · cases h

theorem isDirectory_of_lt {t : FileTree α} {p q : Place} (hpq : p <+: q) (hne : p ≠ q)
    (h : t.node q ≠ none) : t.node p = some .directory := by
  induction q using List.reverseRecOn with
  | nil => exact absurd (List.prefix_nil.mp hpq) hne
  | append_singleton q n ih =>
    have hq := t.parent q n h
    rcases List.prefix_concat_iff.mp hpq with heq | hle
    · exact absurd heq hne
    · by_cases hp : p = q
      · rw [hp]
        exact hq
      · exact ih hle hp (by rw [hq]; exact Option.some_ne_none _)

/-- What stands somewhere is found by walking there. -/
theorem walk_names {t : FileTree α} {p : Place} (q : Place)
    (h : ∀ r, p <+: r → r <+: p ++ q → r ≠ p ++ q → t.node r = some .directory) :
    walk t p (q.map (·.val)) = .ok (p ++ q) := by
  induction q generalizing p with
  | nil => simp [walk]
  | cons n q ih =>
    have hp : t.node p = some .directory :=
      h p (List.prefix_refl p) (List.prefix_append p _) (by simp)
    have hrest : walk t (p ++ [n]) (q.map (·.val)) = .ok (p ++ [n] ++ q) := by
      apply ih
      intro r hr hle hne
      rw [List.append_assoc, List.singleton_append] at hle hne
      exact h r ((List.prefix_append p [n]).trans hr) hle hne
    simp only [List.map_cons, walk, hp, step_name, hrest, List.append_assoc, List.singleton_append]

theorem walk_ofPlace {t : FileTree α} {p : Place}
    (h : ∀ r, r <+: p → r ≠ p → t.node r = some .directory) :
    walk t [] (ofPlace p).segments = .ok p := by
  have := walk_names (t := t) (p := []) p fun r _ hle hne => h r hle hne
  exact this

/-- A walk that succeeds does so in every tree that has these directories. -/
theorem walk_mono {t u : FileTree α} {p q : Place} {segments : List String}
    (hdir : ∀ r, t.node r = some .directory → u.node r = some .directory)
    (h : walk t p segments = .ok q) : walk u p segments = .ok q := by
  induction segments generalizing p with
  | nil => exact h
  | cons s rest ih =>
    unfold walk at h ⊢
    split at h
    · next hp =>
      rw [hdir p hp]
      exact ih h
    · cases h
    · cases h

/-! ## Changed trees -/

instance (o : Option (Node α)) : Decidable (o = some .directory) :=
  match o with
  | some .directory => .isTrue rfl
  | some (.file _) => .isFalse nofun
  | none => .isFalse nofun

/-- A file put where no directory stands. -/
def putFile (t : FileTree α) (p : Place) (content : α) (hfile : t.node p ≠ some .directory)
    (habove : t.node p.dropLast = some .directory) : FileTree α where
  node q := if q = p then some (.file content) else t.node q
  root := by
    rw [if_neg]
    · exact t.root
    · rintro rfl
      exact hfile t.root
  parent q n h := by
    split at h
    · next heq =>
      have hq : p.dropLast = q := by rw [← heq, List.dropLast_concat]
      rw [if_neg (by rw [← heq]; simp), ← hq]
      exact habove
    · have hdir := t.parent q n h
      rw [if_neg (by rintro rfl; exact hfile hdir)]
      exact hdir

/-- A new directory. -/
def putDirectory (t : FileTree α) (p : Place) (hnone : t.node p = none)
    (habove : t.node p.dropLast = some .directory) : FileTree α where
  node q := if q = p then some .directory else t.node q
  root := by
    rw [if_neg]
    · exact t.root
    · rintro rfl
      rw [t.root] at hnone
      cases hnone
  parent q n h := by
    by_cases hq : q = p
    · rw [if_pos hq]
    -- what lies below the new directory would have had it as a parent before
    · rw [if_neg hq]
      split at h
      · next heq =>
        rw [← heq, List.dropLast_concat] at habove
        exact habove
      · exact t.parent q n h

/-- A file taken away. -/
def dropFile (t : FileTree α) (p : Place) (hfile : t.node p ≠ some .directory) : FileTree α where
  node q := if q = p then none else t.node q
  root := by
    rw [if_neg]
    · exact t.root
    · rintro rfl
      exact hfile t.root
  parent q n h := by
    split at h
    · exact absurd rfl h
    · have hdir := t.parent q n h
      rw [if_neg (by rintro rfl; exact hfile hdir)]
      exact hdir

@[simp] theorem putFile_node (t : FileTree α) (p : Place) (content : α) (hf ha) (q : Place) :
    (t.putFile p content hf ha).node q = if q = p then some (.file content) else t.node q := rfl

@[simp] theorem putDirectory_node (t : FileTree α) (p : Place) (hn ha) (q : Place) :
    (t.putDirectory p hn ha).node q = if q = p then some .directory else t.node q := rfl

@[simp] theorem dropFile_node (t : FileTree α) (p : Place) (hf) (q : Place) :
    (t.dropFile p hf).node q = if q = p then none else t.node q := rfl

/-! ## Calls -/

/-- A program that calls the file system. -/
abbrev Calls (α β : Type) := EStateM Errno (FileTree α) β

/-- The walk of a path text; the empty text leads nowhere. -/
def enter (t : FileTree α) (cwd : Place) (text : PathText) : Except Errno Place :=
  if text = ⟨false, [""]⟩ then .error .enoent else t.walk (text.start cwd) text.segments

/-- What a path text leads to. -/
def lookup (t : FileTree α) (cwd : Place) (text : PathText) : Except Errno (Node α) :=
  match t.enter cwd text with
  | .error e => .error e
  | .ok p =>
    match t.node p with
    | none => .error .enoent
    | some node => .ok node

/-- `fs.lstatSync`. -/
def lstatSync (cwd : Place) (text : PathText) : Calls α (Node α) := fun t =>
  match t.lookup cwd text with
  | .error e => .error e t
  | .ok node => .ok node t

/-- `fs.existsSync`, which fails on nothing. -/
def existsSync (cwd : Place) (text : PathText) : Calls α Bool := fun t =>
  .ok (t.lookup cwd text).isOk t

/-- `fs.readFileSync`. -/
def readFileSync (cwd : Place) (text : PathText) : Calls α α := fun t =>
  match t.lookup cwd text with
  | .error e => .error e t
  | .ok .directory => .error .eisdir t
  | .ok (.file content) => .ok content t

/-- What a place without a directory above it answers. -/
def noDirectory (t : FileTree α) (p : Place) : Errno :=
  match t.node p.dropLast with
  | some (.file _) => .enotdir
  | _ => .enoent

/-- One directory of `fs.mkdirSync` with `recursive`. -/
def ensureDirectory (blocked : Errno) (p : Place) : Calls α Unit := fun t =>
  match h : t.node p with
  | some .directory => .ok () t
  | some (.file _) => .error blocked t
  | none =>
    if habove : t.node p.dropLast = some .directory then .ok () (t.putDirectory p h habove)
    else .error (t.noDirectory p) t

def ensureDirectories : List Place → Calls α Unit
  | [] => pure ()
  | p :: rest => do
    -- a file on the way is no directory, and one at its end is in the way
    ensureDirectory (if rest.isEmpty then .eexist else .enotdir) p
    ensureDirectories rest

/-- `fs.mkdirSync` with `recursive`. -/
def mkdirSync (cwd : Place) (text : PathText) : Calls α Unit := fun t =>
  if text = ⟨false, [""]⟩ ∨ t.node (text.start cwd) ≠ some .directory then .error .enoent t
  else ensureDirectories (text.stops cwd) t

/-- A file opened with `wx`, written and closed. -/
def createFile (p : Place) (content : α) : Calls α Unit := fun t =>
  if hnone : t.node p = none then
    if habove : t.node p.dropLast = some .directory then
      .ok () (t.putFile p content (by rw [hnone]; exact nofun) habove)
    else .error (t.noDirectory p) t
  else .error .eexist t

/-- `fs.renameSync` of a file. -/
def renameSync (cwd : Place) (p : Place) (text : PathText) : Calls α Unit := fun t =>
  match t.enter cwd text with
  | .error e => .error e t
  | .ok q =>
    if hq : t.node q = some .directory then .error .eisdir t
    else
      match hp : t.node p with
      | none => .error .enoent t
      | some .directory => .error .enotdir t
      | some (.file content) =>
        if p = q then .ok () t
        else if habove : t.node q.dropLast = some .directory then
          .ok () ((t.putFile q content hq habove).dropFile p (by
            rw [putFile_node]
            split <;> simp [hp]))
        else .error (t.noDirectory q) t

/-- `fs.unlinkSync`. -/
def unlinkSync (p : Place) : Calls α Unit := fun t =>
  match h : t.node p with
  | none => .error .enoent t
  | some .directory => .error .eisdir t
  | some (.file _) => .ok () (t.dropFile p (by rw [h]; exact nofun))

/-! ## Programs that only read -/

/-- Whatever it answers, the state stays as it is. -/
def ReadOnly {ε σ β : Type} (m : EStateM ε σ β) : Prop :=
  ∀ s, (∃ b, m s = .ok b s) ∨ ∃ e, m s = .error e s

namespace ReadOnly

variable {ε σ β γ : Type} {m : EStateM ε σ β}

theorem pure (b : β) : ReadOnly (pure b : EStateM ε σ β) := fun _ => .inl ⟨b, rfl⟩

theorem throw (e : ε) : ReadOnly (throw e : EStateM ε σ β) := fun _ => .inr ⟨e, rfl⟩

theorem bind {f : β → EStateM ε σ γ} (hm : ReadOnly m) (hf : ∀ b, ReadOnly (f b)) :
    ReadOnly (m >>= f) := by
  intro s
  show (∃ c, EStateM.bind m f s = .ok c s) ∨ ∃ e, EStateM.bind m f s = .error e s
  unfold EStateM.bind
  rcases hm s with ⟨b, hb⟩ | ⟨e, he⟩
  · rw [hb]
    exact hf b s
  · rw [he]
    exact .inr ⟨e, rfl⟩

theorem adapt {ε' : Type} (f : ε → ε') (hm : ReadOnly m) : ReadOnly (m.adaptExcept f) := by
  intro s
  unfold EStateM.adaptExcept
  rcases hm s with ⟨b, hb⟩ | ⟨e, he⟩
  · rw [hb]
    exact .inl ⟨b, rfl⟩
  · rw [he]
    exact .inr ⟨f e, rfl⟩

/-- So the state it ends in is known. -/
theorem ok_state (hm : ReadOnly m) {s s' : σ} {b : β} (h : m s = .ok b s') : s' = s := by
  rcases hm s with ⟨c, hc⟩ | ⟨e, he⟩
  · rw [hc] at h
    cases h
    rfl
  · rw [he] at h
    cases h

end ReadOnly

/-- The two halves of a run that succeeds. -/
theorem bind_ok {ε σ β γ : Type} {m : EStateM ε σ β} {f : β → EStateM ε σ γ} {s u : σ} {c : γ} :
    (m >>= f) s = .ok c u ↔ ∃ b v, m s = .ok b v ∧ f b v = .ok c u := by
  show EStateM.bind m f s = .ok c u ↔ _
  unfold EStateM.bind
  constructor
  · intro h
    split at h
    · next b v hm => exact ⟨b, v, hm, h⟩
    · cases h
  · rintro ⟨b, v, hm, hf⟩
    rw [hm]
    exact hf

theorem adaptExcept_ok {ε ε' σ β : Type} {m : EStateM ε σ β} {g : ε → ε'} {s u : σ} {b : β} :
    m.adaptExcept g s = .ok b u ↔ m s = .ok b u := by
  unfold EStateM.adaptExcept
  split
  · next a v hm => rw [hm]; exact Iff.of_eq (by simp)
  · next e v hm => simp [hm]

theorem readOnly_lstatSync (cwd : Place) (text : PathText) :
    ReadOnly (@lstatSync α cwd text) := by
  intro t
  unfold lstatSync
  split
  · next e _ => exact .inr ⟨e, rfl⟩
  · next node _ => exact .inl ⟨node, rfl⟩

theorem readOnly_existsSync (cwd : Place) (text : PathText) :
    ReadOnly (@existsSync α cwd text) := fun _ => .inl ⟨_, rfl⟩

theorem readOnly_readFileSync (cwd : Place) (text : PathText) :
    ReadOnly (@readFileSync α cwd text) := by
  intro t
  unfold readFileSync
  split
  · next e _ => exact .inr ⟨e, rfl⟩
  · exact .inr ⟨_, rfl⟩
  · next content _ => exact .inl ⟨content, rfl⟩

/-! ## What a call does -/

section Calls

variable {t u : FileTree α} {cwd p : Place} {text : PathText} {content : α}

theorem enter_eq (h : t.enter cwd text = .ok p) : text.resolve cwd = p := by
  unfold enter at h
  split at h
  · cases h
  · exact walk_eq h

theorem enter_mono (hdir : ∀ r, t.node r = some .directory → u.node r = some .directory)
    (h : t.enter cwd text = .ok p) : u.enter cwd text = .ok p := by
  unfold enter at h ⊢
  split at h
  · cases h
  · next hempty =>
    rw [if_neg hempty]
    exact walk_mono hdir h

/-- An absolute path leads to its place when there is a directory all the way. -/
theorem enter_ofPlace (h : ∀ r, r <+: p → r ≠ p → t.node r = some .directory) :
    t.enter cwd (ofPlace p) = .ok p := by
  unfold enter
  rw [if_neg (by simp [ofPlace])]
  exact walk_ofPlace h

theorem lookup_ofPlace {node : Node α} (h : t.node p = some node) :
    t.lookup cwd (ofPlace p) = .ok node := by
  have henter : t.enter cwd (ofPlace p) = .ok p :=
    enter_ofPlace fun r hr hne => isDirectory_of_lt hr hne (by rw [h]; exact nofun)
  simp only [lookup, henter, h]

theorem node_of_lookup {node : Node α} (h : t.lookup cwd text = .ok node) :
    t.node (text.resolve cwd) = some node := by
  unfold lookup at h
  split at h
  · cases h
  · next p henter =>
    rw [enter_eq henter]
    split at h
    · cases h
    · next node' hnode =>
      rw [hnode]
      exact congrArg some (Except.ok.inj h)

theorem readFileSync_of_node (henter : t.enter cwd text = .ok p)
    (h : t.node p = some (.file content)) : readFileSync cwd text t = .ok content t := by
  simp only [readFileSync, lookup, henter, h]

theorem ensureDirectory_ok {blocked : Errno} {x : Unit}
    (h : ensureDirectory blocked p t = .ok x u) :
    (∀ c, t.node p ≠ some (.file c)) ∧
      ∀ q, u.node q = if q = p then some .directory else t.node q := by
  unfold ensureDirectory at h
  split at h
  · next hp =>
    cases h
    constructor
    · rw [hp]
      exact nofun
    · intro q
      split
      · next hq => rw [hq, hp]
      · rfl
  · cases h
  · next hp =>
    split at h
    · cases h
      constructor
      · rw [hp]
        exact nofun
      · exact fun q => putDirectory_node t p _ _ q
    · cases h

theorem ensureDirectories_ok {ps : List Place} {x : Unit}
    (h : ensureDirectories ps t = .ok x u) :
    (∀ p ∈ ps, ∀ c, t.node p ≠ some (.file c)) ∧
      ∀ q, u.node q = if q ∈ ps then some .directory else t.node q := by
  induction ps generalizing t with
  | nil =>
    cases h
    simp
  | cons p ps ih =>
    obtain ⟨y, v, hp, hrest⟩ := bind_ok.mp h
    obtain ⟨hfile, hnode⟩ := ensureDirectory_ok hp
    obtain ⟨hfiles, hnodes⟩ := ih hrest
    constructor
    · intro q hq c hc
      rcases List.mem_cons.mp hq with rfl | hq
      · exact hfile c hc
      · apply hfiles q hq c
        rw [hnode q]
        split
        · next heq =>
          rw [heq] at hc
          exact absurd hc (hfile c)
        · exact hc
    · intro q
      rw [hnodes q, hnode q]
      by_cases hq : q = p <;> by_cases hm : q ∈ ps <;> simp [hq, hm]

/-- `mkdirSync` makes the directories on its way and nothing else. -/
theorem mkdirSync_ok {x : Unit} (h : mkdirSync cwd text t = .ok x u) :
    (∀ p ∈ text.stops cwd, ∀ c, t.node p ≠ some (.file c)) ∧
      ∀ q, u.node q = if q ∈ text.stops cwd then some .directory else t.node q := by
  unfold mkdirSync at h
  split at h
  · cases h
  · exact ensureDirectories_ok h

theorem createFile_ok {x : Unit} (h : createFile p content t = .ok x u) :
    t.node p = none ∧ ∀ q, u.node q = if q = p then some (.file content) else t.node q := by
  unfold createFile at h
  split at h
  · next hnone =>
    split at h
    · cases h
      exact ⟨hnone, fun q => putFile_node t p content _ _ q⟩
    · cases h
  · cases h

theorem renameSync_ok {x : Unit} (h : renameSync cwd p text t = .ok x u) :
    ∃ q c, t.enter cwd text = .ok q ∧ t.node q ≠ some .directory ∧ t.node p = some (.file c) ∧
      ∀ r, u.node r = if r = q then some (.file c) else if r = p then none else t.node r := by
  unfold renameSync at h
  split at h
  · cases h
  · next q henter =>
    split at h
    · cases h
    · next hq =>
      split at h
      · cases h
      · cases h
      · next c hp =>
        refine ⟨q, c, henter, hq, hp, ?_⟩
        -- the two names are the same place, so nothing moves
        split at h
        · next heq =>
          cases h
          intro r
          split
          · next hr => rw [hr, ← heq, hp]
          · next hr => rw [if_neg (by rw [heq]; exact hr)]
        -- two places: the file is put at one and taken away at the other
        · next hne =>
          split at h
          · cases h
            intro r
            rw [dropFile_node, putFile_node]
            by_cases hr : r = q
            · rw [if_pos hr, if_pos hr, if_neg (by rw [hr]; exact fun h => hne h.symm)]
            · rw [if_neg hr, if_neg hr]
          · cases h

end Calls

/-! ## What a run has changed -/

/-- `made` are the directories of a run and `written` its files, in any order. -/
structure Changes (t u : FileTree α) (made : List Place) (written : List (Place × α)) : Prop where
  isMade : ∀ p ∈ made, u.node p = some .directory
  isWritten : ∀ f ∈ written, ∃ g ∈ written, g.1 = f.1 ∧ u.node f.1 = some (.file g.2)
  kept : ∀ p, p ∉ made → (∀ f ∈ written, f.1 ≠ p) → u.node p = t.node p
  directories : ∀ p, t.node p = some .directory → u.node p = some .directory
  files : ∀ p c, t.node p = some (.file c) → ∃ d, u.node p = some (.file d)

namespace Changes

variable {t u v : FileTree α} {made ps : List Place} {written : List (Place × α)}

theorem refl (t : FileTree α) : Changes t t [] [] :=
  ⟨nofun, nofun, fun _ _ _ => rfl, fun _ h => h, fun _ c h => ⟨c, h⟩⟩

theorem make (h : Changes t u made written) (hfiles : ∀ p ∈ ps, ∀ c, u.node p ≠ some (.file c))
    (hnode : ∀ q, v.node q = if q ∈ ps then some .directory else u.node q) :
    Changes t v (made ++ ps) written := by
  -- `make` adds directories only, and never at the place of a file
  constructor
  · intro p hp
    rw [hnode p]
    split
    · rfl
    · next hps =>
      rcases List.mem_append.mp hp with hp | hp
      · exact h.isMade p hp
      · exact absurd hp hps
  · intro f hf
    obtain ⟨g, hg, heq, hfile⟩ := h.isWritten f hf
    have hps : f.1 ∉ ps := fun hmem => hfiles f.1 hmem g.2 hfile
    exact ⟨g, hg, heq, by rw [hnode, if_neg hps, hfile]⟩
  · intro p hp hfree
    rw [List.mem_append, not_or] at hp
    rw [hnode, if_neg hp.2]
    exact h.kept p hp.1 hfree
  · intro p hp
    rw [hnode]
    split
    · rfl
    · exact h.directories p hp
  · intro p c hp
    obtain ⟨d, hd⟩ := h.files p c hp
    rw [hnode, if_neg fun hmem => hfiles p hmem d hd]
    exact ⟨d, hd⟩

theorem write (h : Changes t u made written) {q : Place} {c : α}
    (hq : u.node q ≠ some .directory)
    (hnode : ∀ r, v.node r = if r = q then some (.file c) else u.node r) :
    Changes t v made (written ++ [(q, c)]) := by
  have hother : ∀ r, u.node r = some .directory → v.node r = some .directory := by
    intro r hr
    rw [hnode, if_neg (by rintro rfl; exact hq hr)]
    exact hr
  constructor
  · exact fun p hp => hother p (h.isMade p hp)
  · intro f hf
    by_cases heq : f.1 = q
    · exact ⟨(q, c), by simp, heq.symm, by rw [hnode, if_pos heq]⟩
    · rcases List.mem_append.mp hf with hf | hf
      · obtain ⟨g, hg, hgf, hfile⟩ := h.isWritten f hf
        exact ⟨g, List.mem_append_left _ hg, hgf, by rw [hnode, if_neg heq, hfile]⟩
      · exact absurd (congrArg Prod.fst (List.mem_singleton.mp hf)) heq
  · intro p hp hfree
    rw [hnode, if_neg fun heq => hfree (q, c) (by simp) heq.symm]
    exact h.kept p hp fun f hf => hfree f (List.mem_append_left _ hf)
  · exact fun p hp => hother p (h.directories p hp)
  · intro p d hp
    rw [hnode]
    split
    · exact ⟨c, rfl⟩
    · exact h.files p d hp

/-- A file of the start was not made a directory. -/
theorem not_made (h : Changes t u made written) {p : Place} {c : α}
    (hp : t.node p = some (.file c)) : p ∉ made := by
  intro hmade
  obtain ⟨d, hd⟩ := h.files p c hp
  rw [h.isMade p hmade] at hd
  cases hd

end Changes

end FileTree

end FluxFast.Theory
