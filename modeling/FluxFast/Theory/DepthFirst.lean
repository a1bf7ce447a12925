import Mathlib.Data.List.Nodup
import Mathlib.Logic.Relation
import Mathlib.Order.WellFounded

/-!
# DepthFirst — loops that may fail, and the depth-first search of a graph

`loop` takes one turn after the other.  `Trail` is what a search with a stack of nodes to enter and
nodes to leave keeps: the nodes that were left are closed under the edges and lie on no cycle.
-/

namespace FluxFast.Theory

/-! ## Loops -/

inductive Turn (ε σ : Type)
  | done
  | failed (e : ε)
  | next (s : σ)

section Loop

variable {ε σ : Type}

/-- Turn after turn; `none` when the fuel is used up. -/
def loop (turn : σ → Turn ε σ) : Nat → σ → Option (Except ε σ)
  | 0, _ => none
  | fuel + 1, s =>
    match turn s with
    | .done => some (.ok s)
    | .failed e => some (.error e)
    | .next t => loop turn fuel t

variable {turn : σ → Turn ε σ} {fuel : Nat} {s t : σ} {I : σ → Prop}

/-- A loop ends when a measure falls with every turn. -/
theorem loop_ends {β : Type} {lt : β → β → Prop} (hwf : WellFounded lt) (measure : σ → β)
    (hkeep : ∀ s t, I s → turn s = .next t → I t ∧ lt (measure t) (measure s)) (hs : I s) :
    ∃ fuel r, loop turn fuel s = some r := by
  induction s using (InvImage.wf measure hwf).induction with
  | h s ih =>
    cases hturn : turn s with
    | done => exact ⟨1, .ok s, by simp only [loop, hturn]⟩
    | failed e => exact ⟨1, .error e, by simp only [loop, hturn]⟩
    | next t =>
      obtain ⟨ht, hlt⟩ := hkeep s t hs hturn
      obtain ⟨fuel, r, hloop⟩ := ih t hlt ht
      exact ⟨fuel + 1, r, by simp only [loop, hturn, hloop]⟩

/-- A loop whose turns a number bounds ends within as many turns. -/
theorem loop_within {measure : σ → Nat} (hfall : ∀ s t, turn s = .next t → measure t < measure s)
    (hfuel : measure s < fuel) : ∃ r, loop turn fuel s = some r := by
  induction fuel generalizing s with
  | zero => exact absurd hfuel (Nat.not_lt_zero _)
  | succ fuel ih =>
    unfold loop
    split
    · exact ⟨_, rfl⟩
    · exact ⟨_, rfl⟩
    · next t hnext =>
      have := hfall s t hnext
      exact ih (by omega)

/-- What every turn keeps holds where the loop ends. -/
theorem loop_ok (hkeep : ∀ s t, I s → turn s = .next t → I t) (hs : I s)
    (h : loop turn fuel s = some (.ok t)) : I t ∧ turn t = .done := by
  induction fuel generalizing s with
  | zero => cases h
  | succ fuel ih =>
    unfold loop at h
    split at h
    · next hdone =>
      cases h
      exact ⟨hs, hdone⟩
    · cases h
    · next u hnext => exact ih (hkeep s u hs hnext) h

/-- And where it fails. -/
theorem loop_error (hkeep : ∀ s t, I s → turn s = .next t → I t) (hs : I s) {e : ε}
    (h : loop turn fuel s = some (.error e)) : ∃ t, I t ∧ turn t = .failed e := by
  induction fuel generalizing s with
  | zero => cases h
  | succ fuel ih =>
    unfold loop at h
    split at h
    · cases h
    · next e' hfailed =>
      cases h
      exact ⟨s, hs, hfailed⟩
    · next u hnext => exact ih (hkeep s u hs hnext) h

end Loop

/-! ## Search -/

inductive Visit (α : Type)
  | enter (a : α)
  | leave (a : α)

section Search

variable {α : Type} (next : α → α → Prop)

/-- The open nodes are those to be left, each a successor of the one it was entered from; a node to be
entered is a successor of the open node above which it lies. -/
def Leads : List (Visit α) → List α → Prop
  | [], active => active = []
  | .enter a :: rest, active => (∀ b ∈ active.head?, next b a) ∧ Leads rest active
  | .leave a :: rest, active =>
    ∃ outer, active = a :: outer ∧ (∀ b ∈ outer.head?, next b a) ∧ Leads rest outer

/-- Before a node is left its successors are among those that were left, and in the end the `goal`. -/
def Covered (goal : α → Prop) : (α → Prop) → List (Visit α) → Prop
  | above, [] => ∀ a, goal a → above a
  | above, .enter a :: rest => Covered goal (fun b => above b ∨ b = a) rest
  | above, .leave a :: rest =>
    (∀ b, next a b → above b) ∧ Covered goal (fun b => above b ∨ b = a) rest

/-- A search on its way to the `goal`. -/
structure Trail (goal : α → Prop) (pending : List (Visit α)) (active : List α) (left : α → Prop) :
    Prop where
  leads : Leads next pending active
  covered : Covered next goal left pending
  nodup : active.Nodup
  apart : ∀ a ∈ active, ¬left a
  closed : ∀ a b, left a → next a b → left b
  acyclic : ∀ a, left a → ¬Relation.TransGen next a a

variable {next} {goal above above' left : α → Prop} {pending : List (Visit α)} {active : List α} {a : α}

theorem Covered.mono (h : Covered next goal above pending) (himp : ∀ b, above b → above' b) :
    Covered next goal above' pending := by
  induction pending generalizing above above' with
  | nil => exact fun b hb => himp b (h b hb)
  | cons visit rest ih =>
    cases visit with
    | enter b => exact ih h fun d => Or.imp_left (himp d)
    | leave b => exact ⟨fun d hd => himp d (h.1 d hd), ih h.2 fun d => Or.imp_left (himp d)⟩

/-- A goal that is above already. -/
theorem Covered.more {goal' : α → Prop} (h : Covered next goal above pending)
    (hgoal : ∀ b, goal' b → goal b ∨ above b) : Covered next goal' above pending := by
  induction pending generalizing above with
  | nil => exact fun b hb => (hgoal b hb).elim (h b) id
  | cons visit rest ih =>
    cases visit with
    | enter b => exact ih h fun d hd => (hgoal d hd).imp_right .inl
    | leave b => exact ⟨h.1, ih h.2 fun d hd => (hgoal d hd).imp_right .inl⟩

theorem Covered.entered (children : List α) {rest : List (Visit α)}
    (h : Covered next goal (fun b => above b ∨ b ∈ children) rest) :
    Covered next goal above (children.map .enter ++ rest) := by
  induction children generalizing above with
  | nil => exact h.mono fun b hb => hb.elim id fun hmem => absurd hmem List.not_mem_nil
  | cons child children ih =>
    refine ih (h.mono fun b hb => ?_)
    rcases hb with hb | hb
    · exact .inl (.inl hb)
    · rcases List.mem_cons.mp hb with rfl | hmem
      · exact .inl (.inr rfl)
      · exact .inr hmem

theorem Leads.entered {children : List α} {rest : List (Visit α)}
    (hnext : ∀ child ∈ children, ∀ b ∈ active.head?, next b child) (h : Leads next rest active) :
    Leads next (children.map .enter ++ rest) active := by
  induction children with
  | nil => exact h
  | cons child children ih =>
    exact ⟨hnext child List.mem_cons_self, ih fun c hc => hnext c (List.mem_cons_of_mem _ hc)⟩

/-- From an open node to the last one that was opened. -/
theorem Leads.reaches {b : α} (h : Leads next pending (b :: active)) (ha : a ∈ b :: active) :
    Relation.ReflTransGen next a b := by
  induction pending generalizing b active with
  | nil => cases h
  | cons visit rest ih =>
    cases visit with
    | enter c => exact ih h.2 ha
    | leave c =>
      obtain ⟨outer, heq, hhead, hrest⟩ := h
      cases heq
      rcases List.mem_cons.mp ha with rfl | houter
      · exact .refl
      · cases active with
        | nil => cases houter
        | cons d active => exact (ih hrest houter).tail (hhead d rfl)

/-- While nothing is open the search can be given another goal. -/
theorem Trail.seek (h : Trail next goal pending [] left) (a : α) :
    Trail next (fun b => goal b ∨ b = a) (.enter a :: pending) [] left where
  leads := ⟨fun b hb => (by cases hb), h.leads⟩
  covered := (h.covered.mono fun _ => Or.inl).more fun b hb => hb.imp_right .inr
  nodup := h.nodup
  apart := h.apart
  closed := h.closed
  acyclic := h.acyclic

theorem Trail.seekAll (h : Trail next goal pending [] left) (as : List α) :
    Trail next (fun b => goal b ∨ b ∈ as) (as.reverse.map .enter ++ pending) [] left := by
  induction as generalizing goal pending with
  | nil =>
    have hsame : (fun b => goal b ∨ b ∈ ([] : List α)) = goal := by
      funext b
      simp
    rw [hsame]
    exact h
  | cons a as ih =>
    have hsame : (fun b => (goal b ∨ b = a) ∨ b ∈ as) = fun b => goal b ∨ b ∈ a :: as := by
      funext b
      rw [List.mem_cons, or_assoc]
    have hrest := ih (h.seek a)
    rw [hsame] at hrest
    rw [List.reverse_cons, List.map_append, List.append_assoc]
    exact hrest

/-- A node that is open when it is to be entered lies on a cycle. -/
theorem Trail.cycle (h : Trail next goal (.enter a :: pending) active left) (ha : a ∈ active) :
    Relation.TransGen next a a := by
  cases active with
  | nil => cases ha
  | cons b active =>
    have hreach := Leads.reaches h.leads.2 ha
    exact Relation.TransGen.tail' hreach (h.leads.1 b rfl)

/-- A node that was left is passed over. -/
theorem Trail.pass (h : Trail next goal (.enter a :: pending) active left) (ha : left a) :
    Trail next goal pending active left where
  leads := h.leads.2
  covered := by
    have hcovered : Covered next goal (fun b => left b ∨ b = a) pending := h.covered
    refine hcovered.mono fun b hb => ?_
    rcases hb with hb | rfl
    · exact hb
    · exact ha
  nodup := h.nodup
  apart := h.apart
  closed := h.closed
  acyclic := h.acyclic

/-- A new node is opened, with its successors to be entered before it is left. -/
theorem Trail.opened (h : Trail next goal (.enter a :: pending) active left) (hopen : a ∉ active)
    (hleft : ¬left a) {children : List α} (hchildren : ∀ b, next a b ↔ b ∈ children) :
    Trail next goal (children.map .enter ++ .leave a :: pending) (a :: active) left where
  leads := by
    refine Leads.entered (fun child hchild b hb => ?_) ⟨active, rfl, h.leads.1, h.leads.2⟩
    cases hb
    exact (hchildren child).mpr hchild
  covered := by
    have hcovered : Covered next goal (fun b => left b ∨ b = a) pending := h.covered
    refine Covered.entered _ ⟨fun b hb => .inr ((hchildren b).mp hb), ?_⟩
    exact hcovered.mono fun b => Or.imp_left .inl
  nodup := List.nodup_cons.mpr ⟨hopen, h.nodup⟩
  apart b hb := by
    rcases List.mem_cons.mp hb with rfl | hold
    · exact hleft
    · exact h.apart b hold
  closed := h.closed
  acyclic := h.acyclic

/-- What was left stays closed under paths. -/
theorem Trail.closed_trans (h : Trail next goal pending active left) {b : α} (ha : left a)
    (hreach : Relation.ReflTransGen next a b) : left b := by
  induction hreach with
  | refl => exact ha
  | tail _ hstep ih => exact h.closed _ _ ih hstep

/-- The node on top is left. -/
theorem Trail.leave (h : Trail next goal (.leave a :: pending) active left) :
    ∃ outer, active = a :: outer ∧ Trail next goal pending outer fun b => left b ∨ b = a := by
  obtain ⟨outer, rfl, -, hrest⟩ := h.leads
  have hnodup := List.nodup_cons.mp h.nodup
  have hclosed : ∀ b d, left b ∨ b = a → next b d → left d ∨ d = a := by
    rintro b d (hb | rfl) hnext
    · exact .inl (h.closed b d hb hnext)
    · exact .inl (h.covered.1 d hnext)
  refine ⟨outer, rfl, hrest, h.covered.2, hnodup.2, fun b hb => ?_, hclosed, fun b hb => ?_⟩
  · rintro (hleft | rfl)
    · exact h.apart b (List.mem_cons_of_mem _ hb) hleft
    · exact hnodup.1 hb
  · rcases hb with hb | rfl
    · exact h.acyclic b hb
    · intro hcycle
      obtain ⟨d, hfirst, hrest⟩ := Relation.TransGen.head'_iff.mp hcycle
      exact h.apart b List.mem_cons_self (h.closed_trans (h.covered.1 d hfirst) hrest)

/-- At the end the goal was left. -/
theorem Trail.finished (h : Trail next goal [] active left) (ha : goal a) : left a :=
  h.covered a ha

end Search

end FluxFast.Theory
