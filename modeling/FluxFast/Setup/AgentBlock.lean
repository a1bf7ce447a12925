import FluxFast.Codegen.RouteUrls
import FluxFast.Theory.Markers

/-!
# AgentBlock — the managed block of the agent instructions

`mergeAgentInstructionBlock` of the Next adapter and `mergeAgentBlock` of the Vite adapter.  Both
put the block in the place of the old one or at the end of the file, with the line endings of the
file.
-/

namespace FluxFast.Setup

open FluxFast.Codegen FluxFast.Theory

def cr : UInt16 := 13

def lf : UInt16 := 10

def crlf : JsString := [cr, lf]

/-- `FLUXFAST_AGENT_BLOCK_START` and `FLUXFAST_AGENT_BLOCK_END`. -/
def marker : Marker → JsString
  | .start => jsText "<!-- fluxfast-agent-knowledge:start -->"
  | .stop => jsText "<!-- fluxfast-agent-knowledge:end -->"

/-- A path in which neither marker stands. -/
structure KnowledgePath where
  text : JsString
  free : Markers.Free marker text

def includes (needle existing : JsString) : Bool := (indexOf needle existing).isSome

def newlineOf (existing : JsString) : JsString := if includes crlf existing then crlf else [lf]

/-- `block.replace(/\n/g, newline)`. -/
def replaceNewlines (newline block : JsString) : JsString :=
  block.flatMap fun c => if c = lf then newline else [c]

/-- The lines of a block; the adapters differ in the sentence before the second path. -/
def blockLines (sentence knowledgePath : JsString) : List JsString :=
  [marker .start, jsText "## FluxFast", [], jsText "@" ++ knowledgePath, [],
    sentence ++ knowledgePath ++
      jsText ") before changing FluxFast application code or configuration.",
    marker .stop]

def nextSentence : JsString := jsText "Read and follow [the generated FluxFast agent knowledge]("

def viteSentence : JsString := jsText "Read [the generated FluxFast knowledge]("

/-- What stands between the text of the user and a new block. -/
def separator (existing newline : JsString) : JsString :=
  if existing = [] then []
  else if existing.getLast? = some lf then newline
  else newline ++ newline

/-- The text with `block` in the place of the old block, or at its end. -/
def mergeManaged (existing block newline : JsString) : Option JsString :=
  match indexOf (marker .start) existing, indexOf (marker .stop) existing with
  | none, none => some (existing ++ separator existing newline ++ block ++ newline)
  | some start, some stop =>
    if stop < start then none
    else if (indexOf (marker .start) (existing.drop (start + 1))).isSome ||
        (indexOf (marker .stop) (existing.drop (stop + 1))).isSome then none
    else some (existing.take start ++ block ++ existing.drop (stop + (marker .stop).length))
  | _, _ => none

/-! ## The Next adapter -/

inductive AgentInstructionMerge
  | unchanged (content : JsString)
  | updated (content : JsString)
  | malformed
  deriving DecidableEq

def AgentInstructionMerge.content? : AgentInstructionMerge → Option JsString
  | .unchanged content | .updated content => some content
  | .malformed => none

def renderAgentInstructionBlock (knowledgePath : JsString) : JsString :=
  [lf].intercalate (blockLines nextSentence knowledgePath)

def managedBlock (existing block : JsString) : JsString :=
  if newlineOf existing = [lf] then block else replaceNewlines (newlineOf existing) block

def mergeAgentInstructionBlock (existing block : JsString) : AgentInstructionMerge :=
  match mergeManaged existing (managedBlock existing block) (newlineOf existing) with
  | none => .malformed
  -- an appended block makes the text longer, so the comparison only matters for a replaced one
  | some content => if content = existing then .unchanged content else .updated content

/-! ## The Vite adapter -/

def viteBlock (newline knowledge : JsString) : JsString :=
  newline.intercalate (blockLines viteSentence knowledge)

/-- `none` where it throws. -/
def mergeAgentBlock (existing knowledge : JsString) : Option JsString :=
  mergeManaged existing (viteBlock (newlineOf existing) knowledge) (newlineOf existing)

/-! ## What a merge promises -/

/-- A whole block, markers included. -/
def IsBlock (block : JsString) : Prop := marker .start <+: block ∧ marker .stop <:+ block

/-- The text has no markers, or one block. -/
def WellMarked (existing : JsString) : Prop :=
  Markers.Free marker existing ∨ ∃ i j, Markers.Paired marker existing i j

/-- Outside the old block every character stays. -/
structure Preserves (existing content : JsString) : Prop where
  appended : Markers.Free marker existing → ∃ blank block after,
    content = existing ++ blank ++ block ++ after ∧ IsBlock block ∧
      ∀ c ∈ blank ++ after, c = cr ∨ c = lf
  replaced : ∀ i j, Markers.Paired marker existing i j → ∃ block, IsBlock block ∧
    content = existing.take i ++ block ++ existing.drop (j + (marker .stop).length)

/-- A merge that keeps the text of the user and is settled after one turn, or refuses. -/
structure Lawful (merge : JsString → Option JsString) (settled : JsString → Prop)
    (existing : JsString) : Prop where
  merges : WellMarked existing → ∃ content, merge existing = some content ∧
    (∃ i j, Markers.Paired marker content i j) ∧ Preserves existing content ∧ settled content
  refuses : ¬WellMarked existing → merge existing = none

def LawfulNext (existing knowledgePath : JsString) : Prop :=
  Lawful (fun text => (mergeAgentInstructionBlock text
      (renderAgentInstructionBlock knowledgePath)).content?)
    (fun content => mergeAgentInstructionBlock content
      (renderAgentInstructionBlock knowledgePath) = .unchanged content) existing

def LawfulVite (existing knowledge : JsString) : Prop :=
  Lawful (fun text => mergeAgentBlock text knowledge)
    (fun content => mergeAgentBlock content knowledge = some content) existing

/-- No line ending of two characters comes up in a file that has none: neither does the path bring
one, nor does the file end in the first half of one where a block is added. -/
def NoNewEnding (existing knowledgePath : JsString) : Prop :=
  WellMarked existing → crlf <:+: existing ∨
    (¬crlf <:+: knowledgePath ++ [lf] ∧
      (Markers.Free marker existing → existing.getLast? ≠ some cr))

/-! ## The markers -/

/-- `<`, with which both markers begin. -/
def angle : UInt16 := 60

theorem marker_tokens : Template.Tokens marker angle where
  head k := by
    cases k with
    | start => exact ⟨(marker .start).tail, by decide, by decide⟩
    | stop => exact ⟨(marker .stop).tail, by decide, by decide⟩
  apart := by
    -- the letters after the colon differ
    have hstart : ∀ x, (marker .start ++ x)[30]? = some 115 := fun x => by
      rw [List.getElem?_append_left (by decide)]
      decide
    have hstop : ∀ x, (marker .stop ++ x)[30]? = some 101 := fun x => by
      rw [List.getElem?_append_left (by decide)]
      decide
    intro k l x y h
    have hletter := congrArg (fun s => s[30]?) h
    cases k <;> cases l
    · rfl
    · exact absurd ((hstart x).symm.trans (hletter.trans (hstop y))) (by decide)
    · exact absurd ((hstop x).symm.trans (hletter.trans (hstart y))) (by decide)
    · rfl

theorem marker_ne_nil (k : Marker) : marker k ≠ [] := Markers.token_ne_nil marker_tokens k

theorem lf_not_mem_marker (k : Marker) : lf ∉ marker k := by
  cases k <;> decide

theorem cr_not_mem_marker (k : Marker) : cr ∉ marker k := by
  cases k <;> decide

/-- Line endings stand between texts without making a marker. -/
theorem free_endings {s blank t : JsString} (hblank : ∀ c ∈ blank, c = cr ∨ c = lf)
    (hne : blank ≠ []) (hs : Markers.Free marker s) (ht : Markers.Free marker t) :
    Markers.Free marker (s ++ (blank ++ t)) := by
  obtain ⟨c, rest, rfl⟩ := List.exists_cons_of_ne_nil hne
  have hangle : angle ∉ rest := fun h => by
    rcases hblank angle (List.mem_cons_of_mem _ h) with h | h <;> exact absurd h (by decide)
  have hc : ∀ k, c ∉ marker k := by
    rcases hblank c List.mem_cons_self with rfl | rfl
    · exact cr_not_mem_marker
    · exact lf_not_mem_marker
  exact hs.append_cons (Markers.Free.append_plain marker_tokens hangle ht) hc marker_ne_nil

/-! ## Line endings -/

theorem includes_iff {existing : JsString} : includes crlf existing = true ↔ crlf <:+: existing := by
  have hnone : indexOf crlf existing = none ↔ ¬crlf <:+: existing :=
    indexOf_eq_none_iff (by decide)
  unfold includes
  cases hfound : indexOf crlf existing with
  | none =>
    refine iff_of_false Bool.false_ne_true (hnone.mp hfound)
  | some i =>
    refine iff_of_true rfl (not_not.mp fun hno => ?_)
    rw [hnone.mpr hno] at hfound
    cases hfound

theorem newlineOf_wide {existing : JsString} (h : crlf <:+: existing) : newlineOf existing = crlf :=
  if_pos (includes_iff.mpr h)

theorem newlineOf_narrow {existing : JsString} (h : ¬crlf <:+: existing) :
    newlineOf existing = [lf] :=
  if_neg fun hin => h (includes_iff.mp hin)

theorem not_crlf_of_not_mem {s : JsString} (h : cr ∉ s) : ¬crlf <:+: s := by
  rintro ⟨x, y, rfl⟩
  exact h (by simp [crlf])

/-- A line ending in a text that was put together is in one part or comes up where they meet. -/
theorem crlf_append (u v : JsString) :
    crlf <:+: u ++ v ↔ crlf <:+: u ∨ crlf <:+: v ∨ (u.getLast? = some cr ∧ v.head? = some lf) := by
  induction u with
  | nil =>
    have hnil : ¬crlf <:+: ([] : JsString) := by decide
    simp [hnil]
  | cons c u ih =>
    rw [List.cons_append, List.infix_cons_iff, List.infix_cons_iff, ih]
    cases u with
    | nil =>
      cases v with
      | nil => simp [crlf]
      | cons d v =>
        simp only [crlf, List.nil_append, List.cons_prefix_cons, List.nil_prefix, and_true,
          List.getLast?_singleton, Option.some.injEq, List.head?_cons, List.getLast?_nil,
          List.prefix_nil, List.cons_ne_nil, and_false, false_or, eq_comm (a := cr),
          eq_comm (a := lf)]
        tauto
    | cons e u =>
      have hhere : crlf <+: c :: (e :: u ++ v) ↔ crlf <+: c :: e :: u := by
        simp [crlf]
      rw [hhere, List.getLast?_cons_cons]
      tauto

/-! ## Merging at the end or in the place of the old block -/

section Merging

variable {existing block newline : JsString}

theorem mergeManaged_free (h : Markers.Free marker existing) :
    mergeManaged existing block newline =
      some (existing ++ separator existing newline ++ block ++ newline) := by
  have hno := (Markers.free_iff marker_tokens).mp h
  have hstart := (indexOf_none (marker_ne_nil .start)).mpr (hno .start)
  have hstop := (indexOf_none (marker_ne_nil .stop)).mpr (hno .stop)
  unfold mergeManaged
  rw [hstart, hstop]

theorem mergeManaged_paired {i j : Nat} (h : Markers.Paired marker existing i j) :
    mergeManaged existing block newline =
      some (existing.take i ++ block ++ existing.drop (j + (marker .stop).length)) := by
  obtain ⟨hstart, hstop, hij⟩ := h
  obtain ⟨hi, hnext⟩ := indexOf_of_only (marker_ne_nil .start) hstart
  obtain ⟨hj, hnext'⟩ := indexOf_of_only (marker_ne_nil .stop) hstop
  unfold mergeManaged
  rw [hi, hj]
  show (if j < i then none else _) = _
  rw [if_neg (by omega), hnext, hnext']
  rfl

/-- Every other text is refused. -/
theorem mergeManaged_refused (h : ¬WellMarked existing) :
    mergeManaged existing block newline = none := by
  unfold mergeManaged
  cases hi : indexOf (marker .start) existing with
  | none =>
    cases hj : indexOf (marker .stop) existing with
    | none =>
      refine absurd (.inl ((Markers.free_iff marker_tokens).mpr fun k => ?_)) h
      cases k with
      | start => exact (indexOf_none (marker_ne_nil .start)).mp hi
      | stop => exact (indexOf_none (marker_ne_nil .stop)).mp hj
    | some j => rfl
  | some i =>
    cases hj : indexOf (marker .stop) existing with
    | none => rfl
    | some j =>
      show (if j < i then none else _) = _
      split_ifs with hlt hagain
      · rfl
      · rfl
      · exfalso
        rw [Bool.or_eq_true, not_or, Option.not_isSome_iff_eq_none,
          Option.not_isSome_iff_eq_none] at hagain
        have hstart := only_of_indexOf (marker_ne_nil .start) hi hagain.1
        have hstop := only_of_indexOf (marker_ne_nil .stop) hj hagain.2
        refine h (.inr ⟨i, j, hstart, hstop, ?_⟩)
        -- the two markers do not stand at one place
        have hne : i ≠ j := by
          rintro rfl
          obtain ⟨x, hx⟩ := (hstart i).mpr rfl
          obtain ⟨y, hy⟩ := (hstop i).mpr rfl
          exact absurd (marker_tokens.apart (hx.trans hy.symm)) (by decide)
        omega

/-- A region keeps what is around it. -/
theorem mergeManaged_region {before inner after : JsString} (hbefore : Markers.Free marker before)
    (hinner : Markers.Free marker inner) (hafter : Markers.Free marker after) :
    mergeManaged (Markers.region marker before inner after) block newline =
      some (before ++ block ++ after) := by
  rw [mergeManaged_paired (Markers.paired_region marker_tokens hbefore hinner hafter)]
  have hdrop : (Markers.region marker before inner after).drop
      ((before ++ (marker .start ++ inner)).length + (marker .stop).length) = after := by
    have hassoc : Markers.region marker before inner after =
        (before ++ (marker .start ++ inner) ++ marker .stop) ++ after := by
      simp only [Markers.region, List.append_assoc]
    rw [hassoc, ← List.length_append, List.drop_left]
  rw [hdrop, Markers.region, List.take_left]

end Merging

/-! ## Blocks -/

/-- What an adapter writes for a line ending. -/
structure BlockWriter (knowledgePath : JsString) where
  block : JsString → JsString
  inner : JsString → JsString
  block_eq : ∀ newline, newline = [lf] ∨ newline = crlf →
    block newline = marker .start ++ (inner newline ++ marker .stop)
  free : ∀ newline, newline = [lf] ∨ newline = crlf → Markers.Free marker (inner newline)
  narrow : crlf <:+: block [lf] ↔ crlf <:+: knowledgePath ++ [lf]
  wide : crlf <:+: block crlf
  differs : block [lf] ≠ block crlf

/-- The block between its markers. -/
def blockInner (sentence newline knowledgePath : JsString) : JsString :=
  newline ++ (jsText "## FluxFast" ++ (newline ++ (newline ++ (jsText "@" ++ (knowledgePath ++
    (newline ++ (newline ++ (sentence ++ (knowledgePath ++
      (jsText ") before changing FluxFast application code or configuration." ++ newline))))))))))

theorem intercalate_blockLines (sentence newline knowledgePath : JsString) :
    newline.intercalate (blockLines sentence knowledgePath) =
      marker .start ++ (blockInner sentence newline knowledgePath ++ marker .stop) := by
  simp only [blockLines, blockInner, List.intercalate_cons_cons, List.intercalate_singleton,
    List.nil_append, List.append_assoc]

/-- The plain words of a block: neither a marker nor a line ending is in them. -/
structure PlainSentence (sentence : JsString) : Prop where
  angle : angle ∉ sentence
  lf : lf ∉ sentence
  cr : cr ∉ sentence

theorem nextSentence_plain : PlainSentence nextSentence := ⟨by decide, by decide, by decide⟩

theorem viteSentence_plain : PlainSentence viteSentence := ⟨by decide, by decide, by decide⟩

theorem endings_of_newline {newline : JsString} (h : newline = [lf] ∨ newline = crlf) :
    (∀ c ∈ newline, c = cr ∨ c = lf) ∧ newline ≠ [] := by
  rcases h with rfl | rfl
  · exact ⟨by simp, by decide⟩
  · exact ⟨by simp [crlf], by decide⟩

theorem free_blockInner {sentence newline path : JsString} (hsentence : PlainSentence sentence)
    (hnewline : newline = [lf] ∨ newline = crlf) (hpath : Markers.Free marker path) :
    Markers.Free marker (blockInner sentence newline path) := by
  obtain ⟨hendings, hne⟩ := endings_of_newline hnewline
  have hnil : Markers.Free marker [] := Markers.free_of_not_mem marker_tokens List.not_mem_nil
  have hplain : ∀ {s t : JsString}, angle ∉ s → Markers.Free marker t →
      Markers.Free marker (s ++ t) := Markers.Free.append_plain marker_tokens
  have hskip : ∀ {t : JsString}, Markers.Free marker t → Markers.Free marker (newline ++ t) :=
    fun ht => free_endings hendings hne hnil ht
  have hparen : ∀ k, (41 : UInt16) ∉ marker k := fun k => by cases k <;> decide
  -- from the end of the block to its front
  have hlast : Markers.Free marker (path ++
      (jsText ") before changing FluxFast application code or configuration." ++ newline)) := by
    refine hpath.append_cons (c := 41) ?_ hparen marker_ne_nil
    refine hplain (s := (jsText ") before changing FluxFast application code or configuration.").tail)
      (by decide) ?_
    rw [← List.append_nil newline]
    exact hskip hnil
  have hsecond := hskip (hplain hsentence.angle hlast)
  have hfirst := free_endings hendings hne hpath hsecond
  exact hskip (hplain (by decide) (hskip (hskip (hplain (by decide) hfirst))))

theorem not_crlf_append {u v : JsString} (hu : cr ∉ u) : crlf <:+: u ++ v ↔ crlf <:+: v := by
  have hlast : u.getLast? ≠ some cr := fun h => hu (List.mem_of_getLast? h)
  rw [crlf_append]
  refine ⟨?_, fun h => .inr (.inl h)⟩
  rintro (h | h | ⟨h, -⟩)
  · exact absurd h (not_crlf_of_not_mem hu)
  · exact h
  · exact absurd h hlast

theorem not_crlf_prepend {u v : JsString} (hv : cr ∉ v) (hhead : v.head? ≠ some lf) :
    crlf <:+: u ++ v ↔ crlf <:+: u := by
  rw [crlf_append]
  refine ⟨?_, .inl⟩
  rintro (h | h | ⟨-, h⟩)
  · exact h
  · exact absurd h (not_crlf_of_not_mem hv)
  · exact absurd h hhead

theorem crlf_path_append (path rest : JsString) :
    crlf <:+: path ++ lf :: rest ↔ crlf <:+: path ++ [lf] ∨ crlf <:+: rest := by
  have hone : ¬crlf <:+: [lf] := by decide
  have hcons : crlf <:+: lf :: rest ↔ crlf <:+: rest := not_crlf_append (u := [lf]) (by decide)
  rw [crlf_append, crlf_append, hcons]
  simp only [List.head?_cons, hone, false_or]
  tauto

/-- A block with short line endings has a long one only from its path. -/
theorem crlf_block_iff {sentence path : JsString} (hsentence : PlainSentence sentence) :
    crlf <:+: marker .start ++ (blockInner sentence [lf] path ++ marker .stop) ↔
      crlf <:+: path ++ [lf] := by
  have htail : crlf <:+: path ++ (jsText ") before changing FluxFast application code or configuration." ++
      ([lf] ++ marker .stop)) ↔ crlf <:+: path := not_crlf_prepend (by decide) (by decide)
  have hpath : crlf <:+: path → crlf <:+: path ++ [lf] := fun h => h.trans (List.infix_append' [] _ _)
  have hsplit : marker .start ++ (blockInner sentence [lf] path ++ marker .stop) =
      (marker .start ++ jsText "\n## FluxFast\n\n@") ++ (path ++ lf :: (([lf] ++ sentence) ++ (path ++
        (jsText ") before changing FluxFast application code or configuration." ++
          ([lf] ++ marker .stop))))) := by
    have hwords : jsText "\n## FluxFast\n\n@" = [lf] ++ (jsText "## FluxFast" ++
        ([lf] ++ ([lf] ++ jsText "@"))) := by decide
    simp only [blockInner, hwords, List.append_assoc, List.cons_append, List.nil_append]
  have hsecond : cr ∉ [lf] ++ sentence := fun h => by
    rcases List.mem_append.mp h with h | h
    · exact absurd h (by decide)
    · exact hsentence.cr h
  rw [hsplit, not_crlf_append (by decide), crlf_path_append, not_crlf_append hsecond, htail]
  exact or_iff_left_of_imp hpath

theorem replaceNewlines_append (newline s t : JsString) :
    replaceNewlines newline (s ++ t) = replaceNewlines newline s ++ replaceNewlines newline t :=
  List.flatMap_append

theorem replaceNewlines_plain {newline s : JsString} (h : lf ∉ s) : replaceNewlines newline s = s := by
  induction s with
  | nil => rfl
  | cons c s ih =>
    rw [List.mem_cons, not_or] at h
    show (if c = lf then newline else [c]) ++ replaceNewlines newline s = c :: s
    rw [if_neg (Ne.symm h.1), ih h.2]
    rfl

/-- A word without line endings is not made by replacing them. -/
theorem prefix_of_replaced {word path : JsString} (hcr : cr ∉ word) (hlf : lf ∉ word)
    (h : word <+: replaceNewlines crlf path) : word <+: path := by
  induction word generalizing path with
  | nil => exact List.nil_prefix
  | cons w word ih =>
    rw [List.mem_cons, not_or] at hcr hlf
    cases path with
    | nil => exact absurd (List.prefix_nil.mp h) (List.cons_ne_nil _ _)
    | cons c path =>
      have hcons : replaceNewlines crlf (c :: path) =
          (if c = lf then crlf else [c]) ++ replaceNewlines crlf path := rfl
      rw [hcons] at h
      split_ifs at h with hc
      · exact absurd (List.cons_prefix_cons.mp h).1.symm hcr.1
      · obtain ⟨rfl, hrest⟩ := List.cons_prefix_cons.mp h
        exact List.cons_prefix_cons.mpr ⟨rfl, ih hcr.2 hlf.2 hrest⟩

theorem free_replaceNewlines {path : JsString} (h : Markers.Free marker path) :
    Markers.Free marker (replaceNewlines crlf path) := by
  induction path with
  | nil => exact h
  | cons c path ih =>
    have hrest := ih fun k hk => h k (hk.trans (List.suffix_cons ..).isInfix)
    have hcons : replaceNewlines crlf (c :: path) =
        (if c = lf then crlf else [c]) ++ replaceNewlines crlf path := rfl
    by_cases hc : c = lf
    · rw [hcons, if_pos hc]
      exact Markers.Free.append_plain marker_tokens (by decide) hrest
    · rw [hcons, if_neg hc]
      intro k hin
      rcases List.infix_cons_iff.mp hin with hfront | hlater
      · have hword : marker k <+: replaceNewlines crlf (c :: path) := by
          rw [hcons, if_neg hc]
          exact hfront
        exact h k (prefix_of_replaced (cr_not_mem_marker k) (lf_not_mem_marker k) hword).isInfix
      · exact hrest k hlater

theorem blockInner_differs {sentence sentence' path path' : JsString} {rest rest' : JsString} :
    marker .start ++ (blockInner sentence [lf] path ++ rest) ≠
      marker .start ++ (blockInner sentence' crlf path' ++ rest') := by
  intro h
  have hfirst := congrArg List.head? (List.append_cancel_left h)
  exact absurd hfirst (by simp [blockInner, crlf, lf, cr])

theorem crlf_blockInner (sentence path rest : JsString) :
    crlf <:+: marker .start ++ (blockInner sentence crlf path ++ rest) := by
  have hinner : crlf <:+: blockInner sentence crlf path := (List.prefix_append crlf _).isInfix
  exact (hinner.trans (List.prefix_append _ rest).isInfix).trans
    (List.suffix_append (marker .start) _).isInfix

def viteWriter (path : KnowledgePath) : BlockWriter path.text where
  block newline := viteBlock newline path.text
  inner newline := blockInner viteSentence newline path.text
  block_eq newline _ := intercalate_blockLines viteSentence newline path.text
  free newline hnewline := free_blockInner viteSentence_plain hnewline path.free
  narrow := by
    rw [viteBlock, intercalate_blockLines]
    exact crlf_block_iff viteSentence_plain
  wide := by
    rw [viteBlock, intercalate_blockLines]
    exact crlf_blockInner ..
  differs := by
    rw [viteBlock, viteBlock, intercalate_blockLines, intercalate_blockLines]
    exact blockInner_differs

/-- `managedBlock` for a file with that line ending. -/
def nextBlock (newline path : JsString) : JsString :=
  if newline = [lf] then renderAgentInstructionBlock path
  else replaceNewlines newline (renderAgentInstructionBlock path)

theorem nextBlock_narrow (path : JsString) : nextBlock [lf] path =
    marker .start ++ (blockInner nextSentence [lf] path ++ marker .stop) := by
  rw [nextBlock, if_pos rfl, renderAgentInstructionBlock, intercalate_blockLines]

theorem nextBlock_wide (path : JsString) : nextBlock crlf path =
    marker .start ++ (blockInner nextSentence crlf (replaceNewlines crlf path) ++ marker .stop) := by
  have hplain : ∀ {s : JsString}, lf ∉ s → replaceNewlines crlf s = s := replaceNewlines_plain
  have hending : replaceNewlines crlf [lf] = crlf := by decide
  have hheading := hplain (s := jsText "## FluxFast") (by decide)
  have hat := hplain (s := jsText "@") (by decide)
  have htail := hplain
    (s := jsText ") before changing FluxFast application code or configuration.") (by decide)
  rw [nextBlock, if_neg (by decide), renderAgentInstructionBlock, intercalate_blockLines]
  simp only [blockInner, replaceNewlines_append, hending, hplain (lf_not_mem_marker _),
    hplain nextSentence_plain.lf, hheading, hat, htail]

def nextWriter (path : KnowledgePath) : BlockWriter path.text where
  block newline := nextBlock newline path.text
  inner newline := blockInner nextSentence newline
    (if newline = [lf] then path.text else replaceNewlines crlf path.text)
  block_eq newline hnewline := by
    -- `replaceAll` does nothing when the newline is a line feed
    rcases hnewline with rfl | rfl
    · rw [if_pos rfl]
      exact nextBlock_narrow path.text
    · rw [if_neg (by decide)]
      exact nextBlock_wide path.text
  free newline hnewline := by
    refine free_blockInner nextSentence_plain hnewline ?_
    split_ifs
    · exact path.free
    · exact free_replaceNewlines path.free
  narrow := by
    rw [nextBlock_narrow]
    exact crlf_block_iff nextSentence_plain
  wide := by
    rw [nextBlock_wide]
    exact crlf_blockInner ..
  differs := by
    rw [nextBlock_narrow, nextBlock_wide]
    exact blockInner_differs

/-! ## One merge and the next -/

theorem newlineOf_cases (existing : JsString) :
    newlineOf existing = [lf] ∨ newlineOf existing = crlf := by
  by_cases h : crlf <:+: existing
  · exact .inr (newlineOf_wide h)
  · exact .inl (newlineOf_narrow h)

theorem endings_separator {existing newline : JsString} (h : newline = [lf] ∨ newline = crlf) :
    ∀ c ∈ separator existing newline, c = cr ∨ c = lf := by
  have hendings := (endings_of_newline h).1
  unfold separator
  split_ifs
  · exact fun c hc => absurd hc List.not_mem_nil
  · exact hendings
  · exact fun c hc => (List.mem_append.mp hc).elim (hendings c) (hendings c)

theorem free_separator {existing newline : JsString} (hnewline : newline = [lf] ∨ newline = crlf)
    (h : Markers.Free marker existing) :
    Markers.Free marker (existing ++ separator existing newline) := by
  have hnil : Markers.Free marker [] := Markers.free_of_not_mem marker_tokens List.not_mem_nil
  by_cases hblank : separator existing newline = []
  · rw [hblank, List.append_nil]
    exact h
  · have hfree := free_endings (endings_separator hnewline) hblank h hnil
    rwa [List.append_nil] at hfree

theorem free_newline {newline : JsString} (h : newline = [lf] ∨ newline = crlf) :
    Markers.Free marker newline := by
  refine Markers.free_of_not_mem marker_tokens ?_
  rcases h with rfl | rfl <;> decide

/-- A long line ending comes up where the separator begins. -/
theorem crlf_separator {existing : JsString} (hexisting : ¬crlf <:+: existing) :
    crlf <:+: existing ++ separator existing [lf] ↔ existing.getLast? = some cr := by
  by_cases hnil : existing = []
  · subst hnil
    decide
  · have hblank : cr ∉ separator existing [lf] ∧ (separator existing [lf]).head? = some lf := by
      unfold separator
      split_ifs <;> exact ⟨by decide, rfl⟩
    rw [crlf_append, hblank.2]
    simp only [hexisting, not_crlf_of_not_mem hblank.1, and_true, false_or]

namespace BlockWriter

variable {path : JsString} (w : BlockWriter path) {existing before after : JsString}

def merge (existing : JsString) : Option JsString :=
  mergeManaged existing (w.block (newlineOf existing)) (newlineOf existing)

theorem isBlock (newline : JsString) (h : newline = [lf] ∨ newline = crlf) :
    IsBlock (w.block newline) := by
  rw [w.block_eq newline h]
  exact ⟨List.prefix_append _ _, (List.suffix_append _ _).trans (List.suffix_append _ _)⟩

theorem block_ends (newline : JsString) (h : newline = [lf] ∨ newline = crlf) (rest : JsString) :
    (w.block newline ++ rest).head? = some angle ∧ (w.block newline).getLast? = some 62 := by
  rw [w.block_eq newline h]
  constructor
  · rw [List.append_assoc, List.head?_append, (by decide : (marker .start).head? = some angle)]
    rfl
  · rw [List.getLast?_append, List.getLast?_append,
      (by decide : (marker .stop).getLast? = some 62)]
    rfl

/-- Around a block a long line ending comes up in a part only. -/
theorem crlf_around (newline : JsString) (h : newline = [lf] ∨ newline = crlf) :
    crlf <:+: before ++ (w.block newline ++ after) ↔
      crlf <:+: before ∨ crlf <:+: w.block newline ∨ crlf <:+: after := by
  obtain ⟨hhead, hlast⟩ := w.block_ends newline h after
  rw [crlf_append, crlf_append, hhead, hlast]
  have hangle : (some angle = some lf) = False := eq_false (by decide)
  have hend : (some (62 : UInt16) = some cr) = False := eq_false (by decide)
  simp only [hangle, hend, and_false, false_and, or_false]

theorem content_eq_region {newline : JsString} (hnewline : newline = [lf] ∨ newline = crlf) :
    before ++ (w.block newline ++ after) =
      Markers.region marker before (w.inner newline) after := by
  rw [w.block_eq newline hnewline]
  simp only [Markers.region, List.append_assoc]

theorem paired_content (hbefore : Markers.Free marker before) (hafter : Markers.Free marker after)
    {newline : JsString} (hnewline : newline = [lf] ∨ newline = crlf) :
    ∃ i j, Markers.Paired marker (before ++ (w.block newline ++ after)) i j := by
  rw [w.content_eq_region hnewline]
  exact ⟨_, _, Markers.paired_region marker_tokens hbefore (w.free newline hnewline) hafter⟩

/-- The next merge finds the block and writes it again. -/
theorem merge_content (hbefore : Markers.Free marker before) (hafter : Markers.Free marker after)
    {newline : JsString} (hnewline : newline = [lf] ∨ newline = crlf) :
    w.merge (before ++ (w.block newline ++ after)) = some (before ++ (w.block newline ++ after)) ↔
      newlineOf (before ++ (w.block newline ++ after)) = newline := by
  have hmerge : w.merge (before ++ (w.block newline ++ after)) =
      some (before ++ (w.block (newlineOf (before ++ (w.block newline ++ after))) ++ after)) := by
    unfold merge
    generalize newlineOf (before ++ (w.block newline ++ after)) = again
    rw [w.content_eq_region hnewline, mergeManaged_region hbefore (w.free newline hnewline) hafter, List.append_assoc]
  rw [hmerge, Option.some.injEq, List.append_cancel_left_eq, List.append_cancel_right_eq]
  constructor
  · intro hsame
    rcases newlineOf_cases (before ++ (w.block newline ++ after)) with hagain | hagain <;>
      rcases hnewline with rfl | rfl
    · exact hagain
    · rw [hagain] at hsame
      exact absurd hsame w.differs
    · rw [hagain] at hsame
      exact absurd hsame.symm w.differs
    · exact hagain
  · intro hagain
    rw [hagain]

/-- A long line ending of the file is one of the text after the merge. -/
theorem newlineOf_wide_content {newline : JsString} (hnewline : newline = crlf) :
    newlineOf (before ++ (w.block newline ++ after)) = newline := by
  rw [hnewline]
  exact newlineOf_wide ((w.crlf_around crlf (.inr rfl)).mpr (.inr (.inl w.wide)))

theorem newlineOf_narrow_content (hbefore : ¬crlf <:+: before) (hafter : ¬crlf <:+: after) :
    newlineOf (before ++ (w.block [lf] ++ after)) = [lf] ↔ ¬crlf <:+: path ++ [lf] := by
  rw [← w.narrow]
  constructor
  · intro hagain hblock
    rw [newlineOf_wide ((w.crlf_around [lf] (.inl rfl)).mpr (.inr (.inl hblock)))] at hagain
    exact absurd hagain (by decide)
  · intro hblock
    refine newlineOf_narrow fun h => ?_
    rcases (w.crlf_around [lf] (.inl rfl)).mp h with h | h | h
    · exact hbefore h
    · exact hblock h
    · exact hafter h

/-- A new block at the end: what is kept, and when the next merge changes nothing. -/
theorem appended (h : Markers.Free marker existing) : ∃ content, w.merge existing = some content ∧
    (∃ i j, Markers.Paired marker content i j) ∧ Preserves existing content ∧
      (w.merge content = some content ↔ crlf <:+: existing ∨
        (¬crlf <:+: path ++ [lf] ∧ existing.getLast? ≠ some cr)) := by
  have hnewline := newlineOf_cases existing
  have hbefore := free_separator hnewline h
  have hafter := free_newline hnewline
  -- the separator and the block stand behind the text as it was
  have hcontent : existing ++ separator existing (newlineOf existing) ++
      w.block (newlineOf existing) ++ newlineOf existing =
      (existing ++ separator existing (newlineOf existing)) ++
        (w.block (newlineOf existing) ++ newlineOf existing) := List.append_assoc ..
  refine ⟨_, mergeManaged_free h, ?_, ?_, ?_⟩
  · rw [hcontent]
    exact w.paired_content hbefore hafter hnewline
  · refine ⟨fun _ => ⟨separator existing (newlineOf existing), w.block (newlineOf existing),
      newlineOf existing, rfl, w.isBlock _ hnewline, ?_⟩, fun i j hpaired => ?_⟩
    · intro c hc
      rcases List.mem_append.mp hc with hc | hc
      · exact endings_separator hnewline c hc
      · exact (endings_of_newline hnewline).1 c hc
    -- the text held no marker, so no paired block either
    · exact absurd ((hpaired.1 i).mpr rfl) ((Markers.free_iff marker_tokens).mp h .start i)
  · rw [hcontent, w.merge_content hbefore hafter hnewline]
    by_cases hwide : crlf <:+: existing
    -- a carriage return in the old text shows in the new one, and the newline is the same
    · exact iff_of_true (w.newlineOf_wide_content (newlineOf_wide hwide)) (.inl hwide)
    · rw [newlineOf_narrow hwide]
      have hlf : ¬crlf <:+: [lf] := by decide
      by_cases hlast : existing.getLast? = some cr
      · -- the separator completes the line ending
        refine iff_of_false (fun hagain => ?_) ?_
        · have hlong := (crlf_separator hwide).mpr hlast
          rw [newlineOf_wide ((w.crlf_around [lf] (.inl rfl)).mpr (.inl hlong))] at hagain
          exact absurd hagain (by decide)
        · exact fun hor => hor.elim hwide fun hand => hand.2 hlast
      · rw [w.newlineOf_narrow_content (fun hlong => hlast ((crlf_separator hwide).mp hlong)) hlf]
        simp only [hwide, hlast, ne_eq, not_false_iff, and_true, false_or]

/-- The old block replaced. -/
theorem replaced (h : ∃ i j, Markers.Paired marker existing i j) :
    ∃ content, w.merge existing = some content ∧
      (∃ i j, Markers.Paired marker content i j) ∧ Preserves existing content ∧
        (w.merge content = some content ↔ crlf <:+: existing ∨ ¬crlf <:+: path ++ [lf]) := by
  obtain ⟨i, j, hpaired⟩ := h
  have hnewline := newlineOf_cases existing
  obtain ⟨before, old, after, htext, hbefore, hold, hafter, hi, hj⟩ :=
    Markers.region_of_paired marker_tokens hpaired
  -- what is replaced is the region between the two markers
  have hcontent : existing.take i ++ w.block (newlineOf existing) ++
      existing.drop (j + (marker .stop).length) =
      before ++ (w.block (newlineOf existing) ++ after) := by
    have hmerge := @mergeManaged_region (w.block (newlineOf existing)) [] _ _ _ hbefore hold hafter
    rw [← htext, mergeManaged_paired hpaired, List.append_assoc before] at hmerge
    exact Option.some.inj hmerge
  refine ⟨_, mergeManaged_paired hpaired, ?_, ?_, ?_⟩
  · rw [hcontent]
    exact w.paired_content hbefore hafter hnewline
  · refine ⟨fun hfree => ?_, fun i' j' hpaired' => ⟨_, w.isBlock _ hnewline, ?_⟩⟩
    · exact absurd ((hpaired.1 i).mpr rfl) ((Markers.free_iff marker_tokens).mp hfree .start i)
    -- a paired block stands at the same two places
    · rw [(hpaired'.1 i).mp ((hpaired.1 i).mpr rfl), (hpaired'.2.1 j).mp ((hpaired.2.1 j).mpr rfl)]
  · rw [hcontent, w.merge_content hbefore hafter hnewline]
    by_cases hwide : crlf <:+: existing
    · exact iff_of_true (w.newlineOf_wide_content (newlineOf_wide hwide)) (.inl hwide)
    · have hparts : ¬crlf <:+: before ∧ ¬crlf <:+: after := by
        -- no line ending of the old text lies across the region's edge
        rw [htext] at hwide
        refine ⟨fun hin => hwide (hin.trans (List.prefix_append _ _).isInfix), fun hin => hwide ?_⟩
        refine hin.trans (List.IsSuffix.isInfix ⟨before ++ (marker .start ++ (old ++ marker .stop)), ?_⟩)
        simp only [Markers.region, List.append_assoc]
      rw [newlineOf_narrow hwide, w.newlineOf_narrow_content hparts.1 hparts.2]
      simp only [hwide, false_or]

/-- A merge is settled after one turn exactly when no long line ending comes up. -/
theorem lawful_iff (existing : JsString) :
    Lawful w.merge (fun content => w.merge content = some content) existing ↔
      NoNewEnding existing path := by
  -- the three kinds of file: without markers, with one block, and ill marked
  by_cases hfree : Markers.Free marker existing
  · obtain ⟨content, hmerge, hpaired, hpreserves, hsettled⟩ := w.appended hfree
    constructor
    · intro hlawful _
      obtain ⟨content', hmerge', -, -, hsettled'⟩ := hlawful.merges (.inl hfree)
      obtain rfl := Option.some.inj (hmerge.symm.trans hmerge')
      exact (hsettled.mp hsettled').imp_right fun h => ⟨h.1, fun _ => h.2⟩
    · intro hending
      refine ⟨fun hwell => ⟨content, hmerge, hpaired, hpreserves, hsettled.mpr ?_⟩,
        fun hwell => absurd (.inl hfree) hwell⟩
      exact (hending hwell).imp_right fun h => ⟨h.1, h.2 hfree⟩
  · by_cases hpaired : ∃ i j, Markers.Paired marker existing i j
    · obtain ⟨content, hmerge, hone, hpreserves, hsettled⟩ := w.replaced hpaired
      constructor
      · intro hlawful _
        obtain ⟨content', hmerge', -, -, hsettled'⟩ := hlawful.merges (.inr hpaired)
        obtain rfl := Option.some.inj (hmerge.symm.trans hmerge')
        exact (hsettled.mp hsettled').imp_right fun h => ⟨h, fun hf => absurd hf hfree⟩
      · intro hending
        refine ⟨fun hwell => ⟨content, hmerge, hone, hpreserves, hsettled.mpr ?_⟩,
          fun hwell => absurd (.inr hpaired) hwell⟩
        exact (hending hwell).imp_right And.left
    -- an ill-marked file is refused, and both sides say nothing of it
    · have hill : ¬WellMarked existing := not_or.mpr ⟨hfree, hpaired⟩
      exact iff_of_true ⟨fun hwell => absurd hwell hill, fun _ => mergeManaged_refused hill⟩
        fun hwell => absurd hwell hill

end BlockWriter

theorem mergeAgentInstructionBlock_eq (path : KnowledgePath) (existing : JsString) :
    mergeAgentInstructionBlock existing (renderAgentInstructionBlock path.text) =
      match (nextWriter path).merge existing with
      | none => .malformed
      | some content => if content = existing then .unchanged content else .updated content := by
  have hblock : managedBlock existing (renderAgentInstructionBlock path.text) =
      (nextWriter path).block (newlineOf existing) := rfl
  rw [mergeAgentInstructionBlock, hblock]
  rfl

theorem content_next (path : KnowledgePath) (existing : JsString) :
    (mergeAgentInstructionBlock existing (renderAgentInstructionBlock path.text)).content? =
      (nextWriter path).merge existing := by
  rw [mergeAgentInstructionBlock_eq]
  cases (nextWriter path).merge existing with
  | none => rfl
  | some content =>
    show (if content = existing then _ else _ : AgentInstructionMerge).content? = _
    split_ifs <;> rfl

theorem unchanged_next (path : KnowledgePath) (content : JsString) :
    mergeAgentInstructionBlock content (renderAgentInstructionBlock path.text) = .unchanged content ↔
      (nextWriter path).merge content = some content := by
  rw [mergeAgentInstructionBlock_eq]
  cases (nextWriter path).merge content with
  | none => exact iff_of_false nofun nofun
  | some again =>
    show (if again = content then _ else _ : AgentInstructionMerge) = _ ↔ _
    by_cases h : again = content
    · rw [if_pos h, h]
      exact iff_of_true rfl rfl
    · rw [if_neg h]
      exact iff_of_false nofun fun heq => h (Option.some.inj heq)

/-- Both merges keep their promise exactly where no line ending of two characters comes up. -/
theorem merges_iff (path : KnowledgePath) (existing : JsString) :
    (LawfulNext existing path.text ↔ NoNewEnding existing path.text) ∧
      (LawfulVite existing path.text ↔ NoNewEnding existing path.text) := by
  constructor
  · rw [← (nextWriter path).lawful_iff existing, LawfulNext]
    simp only [content_next, unchanged_next]
  · exact (viteWriter path).lawful_iff existing

def usualPath : KnowledgePath where
  text := jsText ".fluxfast/agent-knowledge.md"
  free := Markers.free_of_not_mem marker_tokens (by decide)

/-- A file of one line, without markers. -/
theorem merges_iff_line :
    LawfulNext (jsText "# Agents\n") usualPath.text ∧
      LawfulVite (jsText "# Agents\n") usualPath.text := by
  have hending : NoNewEnding (jsText "# Agents\n") usualPath.text := by
    refine fun _ => .inr ⟨fun hcrlf => ?_, fun _ => by decide⟩
    have hreturn : cr ∈ usualPath.text ++ [lf] := hcrlf.subset List.mem_cons_self
    exact absurd hreturn (by decide)
  obtain ⟨hnext, hvite⟩ := merges_iff usualPath (jsText "# Agents\n")
  exact ⟨hnext.mpr hending, hvite.mpr hending⟩

/-- A file that ends in a carriage return. -/
def returned : JsString := jsText "abc\r"

theorem not_lawful_returned :
    ¬LawfulNext returned usualPath.text ∧ ¬LawfulVite returned usualPath.text := by
  have hfree : Markers.Free marker returned :=
    Markers.free_of_not_mem marker_tokens (by decide)
  constructor
  · intro h
    obtain ⟨content, hmerge, -, -, hsettled⟩ := h.merges (.inl hfree)
    obtain rfl : content = _ := (Option.some.inj hmerge).symm
    revert hsettled
    decide +kernel
  · intro h
    obtain ⟨content, hmerge, -, -, hsettled⟩ := h.merges (.inl hfree)
    obtain rfl : content = _ := (Option.some.inj hmerge).symm
    revert hsettled
    decide +kernel

end FluxFast.Setup
