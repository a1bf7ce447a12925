import FluxFast.Core.Turns

/-!
# Coverage — who will bring a loading key to rest

A key is shown as loading because some operation promised to settle it.  `Secured` and `Covered`
name the operations that still can: a load whose captured epoch is the key's current one, the live
refresh queue, a mutation, live event or prefetch that is being applied, or the page response that
is being applied.  `CoveredBut E` says that every key outside `E` that is loading, or about to be
marked so, has one.
-/

namespace FluxFast.Core

open FluxFast.Theory

set_option linter.unusedSectionVars false

variable {V P : Type} [DecidableEq V] [Patchable V P]

namespace Router

/-- The load belongs to this lifecycle and the key is still at the epoch it captured. -/
def Holds (r : Router V P) (call : LoadCall) (k : String) : Prop :=
  call.lifecycleGeneration = r.lifecycleGeneration ∧ k ∈ call.requestedKeys ∧
    ∃ e, call.capturedEpochs.get? k = some e ∧ r.resources.currentEpoch k = some e

def Loading (r : Router V P) (k : String) : Prop := (r.resources.entry k).status = .loading

def Queued (r : Router V P) (k : String) : Prop :=
  k ∈ r.pendingLiveRefreshKeys ∧ r.liveRefreshTimer = true

end Router

namespace Task

/-- A load that is starting, or that settles the key later in this turn. -/
def InLoad (r : Router V P) (k : String) : Task V P → Prop
  | .markLoading call _ => r.Holds call k
  | .settleLoad call _ rest _ => r.Holds call k ∧ k ∈ rest
  | .rejectLoad call _ _ rest _ => r.Holds call k ∧ k ∈ rest
  | _ => False

/-- The rest of the call will write, load or queue the key, whatever its epoch. -/
def Pledges (r : Router V P) (k : String) : Task V P → Prop
  | .applyPrefetch call _ rest _ =>
    call.lifecycleGeneration = r.lifecycleGeneration ∧ k ∈ rest.map Prod.fst
  | .invalidateMutation _ _ active => k ∈ active
  | .patchLive keys _ _ => k ∈ keys
  | .invalidateLive keys _ _ _ => k ∈ keys
  | _ => False

/-- The current navigation will write the key. -/
def Shows (r : Router V P) (k : String) : Task V P → Prop
  | .navResources nav rest =>
    r.isCurrent nav.call = true ∧
      (k ∈ rest.map Prod.fst ∨ (k ∈ nav.envelope.errors.keys ∧ k ∈ nav.eligibleKeys) ∨
        k ∈ nav.applied.deferredKeys)
  | .navErrors nav rest =>
    r.isCurrent nav.call = true ∧
      ((k ∈ rest.map Prod.fst ∧ k ∈ nav.eligibleKeys) ∨ k ∈ nav.applied.deferredKeys)
  | .navDeferred nav rest => r.isCurrent nav.call = true ∧ k ∈ rest
  | _ => False

/-- The key is about to be marked as loading. -/
def Marks (r : Router V P) (k : String) : Task V P → Prop
  | .markLoading call rest => call.lifecycleGeneration = r.lifecycleGeneration ∧ k ∈ rest
  | _ => False

def Formed (generation : Nat) : Task V P → Prop
  | .markLoading call rest => call.lifecycleGeneration ≤ generation ∧ ∀ k ∈ rest, k ≠ ""
  | .patchLive keys rest _ => ∀ e ∈ rest, e.1 ∈ keys
  | .invalidateLive keys rest _ _ => ∀ k ∈ rest, k ∈ keys
  | _ => True

end Task

namespace Router

def InLoad (r : Router V P) (k : String) : Prop :=
  (∃ call ∈ r.loads, r.Holds call k) ∨ ∃ t ∈ r.turn, t.InLoad r k

def Pledged (r : Router V P) (k : String) : Prop := ∃ t ∈ r.turn, t.Pledges r k

def Shown (r : Router V P) (k : String) : Prop := ∃ t ∈ r.turn, t.Shows r k

def Marked (r : Router V P) (k : String) : Prop := ∃ t ∈ r.turn, t.Marks r k

def Secured (r : Router V P) (k : String) : Prop := r.InLoad k ∨ r.Queued k ∨ r.Pledged k

def Covered (r : Router V P) (k : String) : Prop := r.Secured k ∨ r.Shown k

/-- Every key outside `E` that is loading, or about to be, will be brought to rest. -/
structure CoveredBut (E : String → Prop) (r : Router V P) : Prop where
  layered : Layered r.turn
  formed : ∀ t ∈ r.turn, t.Formed r.lifecycleGeneration
  named : r.resources.Bounded → ∀ k, r.Loading k → k ≠ ""
  exact : r.resources.Bounded → r.resources.Exact
  loading : r.resources.Bounded → ∀ k, ¬E k → r.Loading k → r.Covered k
  marked : r.resources.Bounded → ∀ k, ¬E k → r.Marked k → r.Secured k

def AllCovered (r : Router V P) : Prop := r.CoveredBut fun _ => False

theorem CoveredBut.mono {E F : String → Prop} {r : Router V P} (h : r.CoveredBut E)
    (hEF : ∀ k, E k → F k) : r.CoveredBut F where
  layered := h.layered
  formed := h.formed
  named := h.named
  exact := h.exact
  loading hb k hk := h.loading hb k fun hE => hk (hEF k hE)
  marked hb k hk := h.marked hb k fun hE => hk (hEF k hE)

/-! ## What a cover depends on -/

section Congr

variable {r r' : Router V P} {k : String} {t : Task V P}

theorem Holds.congr {call : LoadCall} (h : r.Holds call k)
    (hgen : r'.lifecycleGeneration = r.lifecycleGeneration)
    (he : r'.resources.currentEpoch k = r.resources.currentEpoch k) : r'.Holds call k := by
  obtain ⟨hg, hk, e, hcaptured, hcurrent⟩ := h
  exact ⟨hg.trans hgen.symm, hk, e, hcaptured, he.trans hcurrent⟩

theorem Holds.stillAt {call : LoadCall} (h : r.Holds call k) :
    r.resources.stillAt k (call.capturedEpochs.get? k) = true := by
  obtain ⟨-, -, e, hcaptured, hcurrent⟩ := h
  rw [Resources.stillAt_iff, hcurrent, hcaptured]

theorem inLoad_congr (h : t.InLoad r k)
    (hgen : r'.lifecycleGeneration = r.lifecycleGeneration)
    (he : r'.resources.currentEpoch k = r.resources.currentEpoch k) : t.InLoad r' k := by
  cases t with
  | markLoading call rest => exact Holds.congr h hgen he
  | settleLoad call envelope rest settled => exact ⟨Holds.congr h.1 hgen he, h.2⟩
  | rejectLoad call failure aborted rest settled => exact ⟨Holds.congr h.1 hgen he, h.2⟩
  | _ => exact h.elim

theorem pledges_congr (h : t.Pledges r k)
    (hgen : r'.lifecycleGeneration = r.lifecycleGeneration) : t.Pledges r' k := by
  cases t with
  | applyPrefetch call fetched rest race => exact ⟨h.1.trans hgen.symm, h.2⟩
  | invalidateMutation mutation rest active => exact h
  | patchLive keys rest servedAt => exact h
  | invalidateLive keys rest reason servedAt => exact h
  | _ => exact h.elim

theorem isCurrent_congr (hvisit : r'.currentVisitId = r.currentVisitId) (call : VisitCall) :
    r'.isCurrent call = r.isCurrent call := by
  rw [isCurrent, isCurrent, hvisit]

theorem shows_congr (h : t.Shows r k) (hvisit : r'.currentVisitId = r.currentVisitId) :
    t.Shows r' k := by
  cases t with
  | navResources nav rest => exact ⟨(isCurrent_congr hvisit _).trans h.1, h.2⟩
  | navErrors nav rest => exact ⟨(isCurrent_congr hvisit _).trans h.1, h.2⟩
  | navDeferred nav rest => exact ⟨(isCurrent_congr hvisit _).trans h.1, h.2⟩
  | _ => exact h.elim

theorem marks_congr (h : t.Marks r' k)
    (hgen : r'.lifecycleGeneration = r.lifecycleGeneration) : t.Marks r k := by
  cases t with
  | markLoading call rest => exact ⟨h.1.trans hgen, h.2⟩
  | _ => exact h.elim

end Congr

/-! ## A step that replaces the head of the stack -/

/-- `r'` is `r` after a part of a synchronous call: `head` was taken off the stack and `ts` put
there instead, and only the keys of `W` were written. -/
structure Advance (W : String → Prop) (head ts : List (Task V P)) (r r' : Router V P) : Prop where
  turn : ∃ rest, r.turn = head ++ rest ∧ r'.turn = ts ++ rest
  generation : r'.lifecycleGeneration = r.lifecycleGeneration
  visit : r'.currentVisitId = r.currentVisitId
  loads : ∀ call ∈ r.loads,
    call ∈ r'.loads ∨ ∃ t ∈ r'.turn, ∀ k, r.Holds call k → t.InLoad r k
  queue : ∀ k, r.Queued k → r'.Queued k
  outside : Resources.Outside W r.resources r'.resources

namespace Advance

variable {W : String → Prop} {head ts : List (Task V P)} {r r' : Router V P} {k : String}

theorem secured (h : Advance W head ts r r')
    (he : r'.resources.currentEpoch k = r.resources.currentEpoch k)
    (hpass : ∀ t ∈ head, t.InLoad r k ∨ t.Pledges r k → r'.Secured k) (hs : r.Secured k) :
    r'.Secured k := by
  obtain ⟨rest, hbefore, hafter⟩ := h.turn
  have hmem : ∀ t ∈ rest, t ∈ r'.turn := fun t ht => hafter ▸ List.mem_append_right _ ht
  rcases hs with (⟨call, hcall, hh⟩ | ⟨t, ht, hh⟩) | hq | ⟨t, ht, hp⟩
  · rcases h.loads call hcall with hcall | ⟨t, ht, hin⟩
    · exact .inl (.inl ⟨call, hcall, hh.congr h.generation he⟩)
    · exact .inl (.inr ⟨t, ht, inLoad_congr (hin k hh) h.generation he⟩)
  · rw [hbefore] at ht
    rcases List.mem_append.mp ht with ht | ht
    · exact hpass t ht (.inl hh)
    · exact .inl (.inr ⟨t, hmem t ht, inLoad_congr hh h.generation he⟩)
  · exact .inr (.inl (h.queue k hq))
  · rw [hbefore] at ht
    rcases List.mem_append.mp ht with ht | ht
    · exact hpass t ht (.inr hp)
    · exact .inr (.inr ⟨t, hmem t ht, pledges_congr hp h.generation⟩)

theorem covered (h : Advance W head ts r r')
    (he : r'.resources.currentEpoch k = r.resources.currentEpoch k)
    (hpass : ∀ t ∈ head, t.InLoad r k ∨ t.Pledges r k → r'.Secured k)
    (hshow : ∀ t ∈ head, t.Shows r k → r'.Covered k) (hc : r.Covered k) : r'.Covered k := by
  obtain ⟨rest, hbefore, hafter⟩ := h.turn
  rcases hc with hs | ⟨t, ht, hn⟩
  · exact .inl (h.secured he hpass hs)
  · rw [hbefore] at ht
    rcases List.mem_append.mp ht with ht | ht
    · exact hshow t ht hn
    · exact .inr ⟨t, hafter ▸ List.mem_append_right _ ht, shows_congr hn h.visit⟩

theorem marked (h : Advance W head ts r r')
    (hmarks : ∀ t ∈ ts, t.Marks r' k → ∃ t' ∈ head, t'.Marks r k) (hm : r'.Marked k) :
    r.Marked k := by
  obtain ⟨rest, hbefore, hafter⟩ := h.turn
  obtain ⟨t, ht, hmark⟩ := hm
  rw [hafter] at ht
  rcases List.mem_append.mp ht with ht | ht
  · obtain ⟨t', ht', hmark'⟩ := hmarks t ht hmark
    exact ⟨t', hbefore ▸ List.mem_append_left _ ht', hmark'⟩
  · exact ⟨t, hbefore ▸ List.mem_append_right _ ht, marks_congr hmark h.generation⟩

theorem loading (h : Advance W head ts r r') (hk : ¬W k) (hl : r'.Loading k) : r.Loading k := by
  rcases h.outside.kept k hk with hsame | hevicted
  · have hentry : r'.resources.entry k = r.resources.entry k := hsame
    rwa [Loading, hentry] at hl
  · have hentry : r'.resources.entry k = .evicted := hevicted
    rw [Loading, hentry] at hl
    cases hl

/-- What a part of a call has to show: that its own keys are covered afterwards, and that the task
it was hands on what it had promised for the others. -/
theorem coveredBut {E F : String → Prop} (h : Advance W head ts r r') (hr : r.CoveredBut E)
    (hlayered : ∀ rest, r.turn = head ++ rest → Layered (head ++ rest) → Layered (ts ++ rest))
    (hformed : (∀ t ∈ head, t.Formed r.lifecycleGeneration) →
      ∀ t ∈ ts, t.Formed r.lifecycleGeneration)
    (hnamed : r'.resources.Bounded → ∀ k, W k → r'.Loading k → k ≠ "")
    (hpass : ∀ k, ¬W k → r'.resources.currentEpoch k = r.resources.currentEpoch k →
      ∀ t ∈ head, t.InLoad r k ∨ t.Pledges r k → r'.Secured k)
    (hshow : ∀ k, ¬W k → ∀ t ∈ head, t.Shows r k → r'.Covered k)
    (hmarks : ∀ k, ¬W k → ∀ t ∈ ts, t.Marks r' k → ∃ t' ∈ head, t'.Marks r k)
    (hEF : ∀ k, E k → F k ∨ W k)
    (hloading : r'.resources.Bounded → ∀ k, ¬F k → W k → r'.Loading k → r'.Covered k)
    (hmarked : r'.resources.Bounded → ∀ k, ¬F k → W k → r'.Marked k → r'.Secured k) :
    r'.CoveredBut F := by
  -- outside `W` nothing moved; in `W` the hypotheses answer, so each clause splits on `W k`
  have hb : r'.resources.Bounded → r.resources.Bounded := fun hb => hb.of_suffix h.outside.suffix
  have hepoch : r'.resources.Bounded → ∀ k, ¬W k →
      r'.resources.currentEpoch k = r.resources.currentEpoch k :=
    fun hb' k hk => h.outside.epoch hb' (hr.exact (hb hb')) k hk
  have hE : ∀ k, ¬F k → ¬W k → ¬E k := fun k hF hW hE => (hEF k hE).elim hF hW
  obtain ⟨rest, hbefore, hafter⟩ := h.turn
  refine ⟨?_, fun t ht => ?_, fun hb' k hl => ?_, fun hb' => ?_, fun hb' k hF hl => ?_,
    fun hb' k hF hm => ?_⟩
  · rw [hafter]
    exact hlayered rest hbefore (hbefore ▸ hr.layered)
  · rw [h.generation]
    rw [hafter] at ht
    -- what is below the parts of this step is as it was before
    have hall : ∀ t ∈ head ++ rest, t.Formed r.lifecycleGeneration := hbefore ▸ hr.formed
    rcases List.mem_append.mp ht with ht | ht
    · exact hformed (fun t ht => hall t (List.mem_append_left _ ht)) t ht
    · exact hall t (List.mem_append_right _ ht)
  · by_cases hW : W k
    · exact hnamed hb' k hW hl
    · exact hr.named (hb hb') k (h.loading hW hl)
  · exact h.outside.exact_of hb' (hr.exact (hb hb'))
  · by_cases hW : W k
    · exact hloading hb' k hF hW hl
    · have he := hepoch hb' k hW
      exact h.covered he (hpass k hW he) (hshow k hW)
        (hr.loading (hb hb') k (hE k hF hW) (h.loading hW hl))
  · by_cases hW : W k
    · exact hmarked hb' k hF hW hm
    · have he := hepoch hb' k hW
      exact h.secured he (hpass k hW he)
        (hr.marked (hb hb') k (hE k hF hW) (h.marked (hmarks k hW) hm))

end Advance

/-- A step that touches neither the keys nor anything that covers them. -/
theorem CoveredBut.congr {E : String → Prop} {r r' : Router V P} (hr : r.CoveredBut E)
    (hturn : r'.turn = r.turn) (hgen : r'.lifecycleGeneration = r.lifecycleGeneration)
    (hvisit : r'.currentVisitId = r.currentVisitId) (hloads : r'.loads = r.loads)
    (hkeys : r'.pendingLiveRefreshKeys = r.pendingLiveRefreshKeys)
    (htimer : r'.liveRefreshTimer = r.liveRefreshTimer)
    (hres : Resources.Outside (fun _ => False) r.resources r'.resources) : r'.CoveredBut E := by
  have h : Advance (fun _ => False) [] [] r r' :=
    { turn := ⟨r.turn, rfl, hturn⟩
      generation := hgen
      visit := hvisit
      loads := fun call hcall => .inl (hloads ▸ hcall)
      queue := fun k hq => ⟨hkeys ▸ hq.1, htimer.trans hq.2⟩
      outside := hres }
  exact h.coveredBut hr (fun _ _ hl => hl) (fun _ t ht => by cases ht)
    (fun _ _ hk => hk.elim)
    (fun _ _ _ t ht => by cases ht) (fun _ _ t ht => by cases ht) (fun _ _ t ht => by cases ht)
    (fun _ hE => .inl hE) (fun _ _ _ hk => hk.elim) (fun _ _ _ hk => hk.elim)

end Router

end FluxFast.Core
