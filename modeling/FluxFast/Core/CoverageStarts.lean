import FluxFast.Core.CoverageSteps
import Mathlib

/-!
# CoverageStarts — how the operations that start or leave something keep the loading keys covered

Starting a load covers its keys.  Leaving a page, stopping live synchronization, starting a
deferred batch and beginning to apply a page response bump epochs and drop the live refresh queue;
`Survives` is the condition under which a key that needs a cover keeps one.
-/

namespace FluxFast.Core

open FluxFast.Theory

set_option linter.unusedSectionVars false

namespace Router

variable {V P : Type} [DecidableEq V] [Patchable V P]

def Needs (r : Router V P) (k : String) : Prop := r.Loading k ∨ r.Marked k

/-- The key keeps a cover through an operation that bumps the keys of `bumped`, brings those of
`settled` to rest, and keeps the live refresh queue or the navigation only if it says so. -/
def Survives (r : Router V P) (bumped settled : String → Prop) (queueKept navigationKept : Prop)
    (k : String) : Prop :=
  r.Pledged k ∨ (queueKept ∧ r.Queued k) ∨ (¬bumped k ∧ r.InLoad k) ∨
    (¬r.Marked k ∧ (settled k ∨ (navigationKept ∧ r.Shown k)))

theorem survives_of_covered {r : Router V P} {bumped settled : String → Prop} {k : String}
    (hr : r.AllCovered) (hb : r.resources.Bounded) (hk : r.Needs k) (hbumped : ¬bumped k) :
    r.Survives bumped settled True True k := by
  have hsecured : r.Secured k → r.Survives bumped settled True True k := by
    rintro (hin | hq | hp)
    · exact .inr (.inr (.inl ⟨hbumped, hin⟩))
    · exact .inr (.inl ⟨trivial, hq⟩)
    · exact .inl hp
  by_cases hm : r.Marked k
  · exact hsecured (hr.marked hb k id hm)
  · rcases hr.loading hb k id (hk.resolve_right hm) with hs | hs
    · exact hsecured hs
    · exact .inr (.inr (.inr ⟨hm, .inr ⟨trivial, hs⟩⟩))

theorem not_marked_of_idle {r : Router V P} (h : r.turn = []) (k : String) : ¬r.Marked k := by
  rintro ⟨t, ht, -⟩
  rw [h] at ht
  cases ht

/-! ## Pushing -/

theorem coveredBut_push {E : String → Prop} {r : Router V P} (hr : r.CoveredBut E)
    {t : Task V P} (hbase : t.base = true → r.turn = []) (hformed : t.Formed r.lifecycleGeneration)
    (hmarks : ∀ k, ¬t.Marks r k) : (r.push t).CoveredBut E := by
  have h : Advance (fun _ => False) [] [t] r (r.push t) :=
    { turn := ⟨r.turn, rfl, rfl⟩
      generation := rfl
      visit := rfl
      loads := fun _ hcall => .inl hcall
      queue := fun _ hq => hq
      outside := .refl _ _ }
  have hmem : ∀ s ∈ [t], s = t := fun s hs => List.mem_singleton.mp hs
  refine { layered := ⟨hbase, hr.layered⟩, formed := ?_, named := hr.named, exact := hr.exact
           loading := fun hb k hE hl => ?_, marked := fun hb k hE hm => ?_ }
  · intro s hs
    rcases List.mem_cons.mp hs with rfl | hs
    · exact hformed
    · exact hr.formed s hs
  · exact h.covered rfl (fun _ hs => by cases hs) (fun _ hs => by cases hs) (hr.loading hb k hE hl)
  · refine h.secured rfl (fun _ hs => by cases hs) (hr.marked hb k hE ?_)
    exact h.marked (fun s hs hm => absurd (hmem s hs ▸ hm) (hmarks k)) hm

theorem needs_of_push {r : Router V P} {t : Task V P} {k : String} (hmarks : ¬t.Marks r k)
    (h : (r.push t).Needs k) : r.Needs k := by
  refine h.imp id fun ⟨s, hs, hm⟩ => ?_
  rcases List.mem_cons.mp hs with rfl | hs
  · exact absurd hm hmarks
  · exact ⟨s, hs, hm⟩

theorem survives_push {r : Router V P} {t : Task V P} {bumped settled : String → Prop}
    {queueKept navigationKept : Prop} {k : String} (hmarks : ¬t.Marks r k)
    (h : r.Survives bumped settled queueKept navigationKept k) :
    (r.push t).Survives bumped settled queueKept navigationKept k := by
  have hbelow : ∀ s ∈ r.turn, s ∈ (r.push t).turn := fun s hs => List.mem_cons_of_mem _ hs
  rcases h with ⟨s, hs, hp⟩ | hq | ⟨hnot, ⟨call, hcall, hh⟩ | ⟨s, hs, hh⟩⟩ | ⟨hnot, hset⟩
  · exact .inl ⟨s, hbelow s hs, hp⟩
  · exact .inr (.inl hq)
  · exact .inr (.inr (.inl ⟨hnot, .inl ⟨call, hcall, hh⟩⟩))
  · exact .inr (.inr (.inl ⟨hnot, .inr ⟨s, hbelow s hs, hh⟩⟩))
  · refine .inr (.inr (.inr ⟨fun ⟨s, hs, hm⟩ => ?_, ?_⟩))
    · rcases List.mem_cons.mp hs with rfl | hs
      · exact hmarks hm
      · exact hnot ⟨s, hs, hm⟩
    · exact hset.imp_right fun ⟨hn, s, hs, hh⟩ => ⟨hn, s, hbelow s hs, hh⟩

theorem CoveredBut.nonempty_of_marked {E : String → Prop} {r : Router V P} (hr : r.CoveredBut E)
    {k : String} (h : r.Marked k) : k ≠ "" := by
  obtain ⟨t, ht, hmark⟩ := h
  cases t with
  | markLoading call rest => exact (hr.formed _ ht).2 k hmark.2
  | _ => exact hmark.elim

/-- The empty key is never loading. -/
theorem CoveredBut.nonempty {E : String → Prop} {r : Router V P} (hr : r.CoveredBut E) :
    r.CoveredBut fun k => E k ∧ k ≠ "" where
  layered := hr.layered
  formed := hr.formed
  named := hr.named
  exact := hr.exact
  loading hb k hk hl := hr.loading hb k (fun hE => hk ⟨hE, hr.named hb k hl⟩) hl
  marked hb k hk hm := hr.marked hb k (fun hE => hk ⟨hE, hr.nonempty_of_marked hm⟩) hm

/-! ## Loads -/

theorem coveredBut_loadResources {E : String → Prop} {r : Router V P} {keys : List String}
    (hr : r.CoveredBut fun k => E k ∨ (k ∈ keys ∧ k ≠ "")) (options : LoadResourcesOptions) :
    (r.loadResources keys options).CoveredBut E := by
  have hmem : ∀ k, k ∈ unique (keys.filter (· ≠ "")) ↔ k ∈ keys ∧ k ≠ "" := fun k => by simp
  unfold loadResources
  dsimp only
  split
  · next hnone =>
    refine hr.mono fun k hk => hk.resolve_right fun hk => ?_
    have := (hmem k).mpr hk
    rw [hnone] at this
    cases this
  · set requested := unique (keys.filter (· ≠ "")) with hrequested
    set captured := r.resources.captureEpochs (r.resourceLoadCounter + 1) requested with hcaptured
    set call : LoadCall :=
      { id := r.resourceLoadCounter + 1
        url := options.url.getD r.currentUrl
        reason := options.reason
        requestedKeys := requested
        knownVersions := r.store.exportKnownVersions
        capturedEpochs := captured.2
        lifecycleGeneration := r.lifecycleGeneration
        signal := options.signal } with hcall
    set r' : Router V P := push _ (.markLoading call requested) with hr'
    have h : Advance (· ∈ requested) [] [.markLoading call requested] r r' :=
      { turn := ⟨r.turn, rfl, rfl⟩
        generation := rfl
        visit := rfl
        loads := fun _ h => .inl h
        queue := fun _ hq => hq
        outside := Resources.outside_captureEpoch _ (r.resources, .empty) requested }
    have hmark : .markLoading call requested ∈ r'.turn := List.mem_cons_self ..
    -- within the bound the load captured the epoch that each of its keys is now at
    have hheld : r'.resources.Bounded → ∀ k ∈ requested, r'.Secured k := fun hb k hk =>
      .inl (.inr ⟨_, hmark, rfl, hk, Resources.get?_captureEpoch_of_mem _ (r.resources, .empty)
        requested hb (hr.exact (hb.of_suffix h.outside.suffix)) hk⟩)
    refine h.coveredBut hr (fun _ _ hl => ⟨nofun, hl⟩) (fun _ t ht => ?_)
      (fun _ k hk _ => ((hmem k).mp hk).2) (fun _ _ _ t ht => by cases ht)
      (fun _ _ t ht => by cases ht) (fun k hk t ht hm => ?_)
      (fun k hk => hk.imp_right (hmem k).mpr) (fun hb k _ hk _ => .inl (hheld hb k hk))
      (fun hb k _ hk _ => hheld hb k hk)
    · rw [List.mem_singleton] at ht
      subst ht
      exact ⟨le_refl _, fun k hk => ((hmem k).mp hk).2⟩
    · rw [List.mem_singleton] at ht
      subst ht
      exact absurd hm.2 hk

theorem covered_loadResources {r : Router V P} (hr : r.AllCovered) (keys : List String)
    (options : LoadResourcesOptions) : (r.loadResources keys options).AllCovered :=
  coveredBut_loadResources (hr.mono fun _ hk => hk.elim) options

/-- A load is answered, or fails: it leaves the table and goes on as a task. -/
theorem covered_receive {r : Router V P} (hr : r.AllCovered) (hidle : r.turn = []) {index : Nat}
    {call : LoadCall} (hcall : r.loads[index]? = some call) {t : Task V P}
    (hformed : t.Formed r.lifecycleGeneration) (hmarks : ∀ k, ¬t.Marks r k)
    (hin : ∀ k, r.Holds call k → t.InLoad r k) :
    (({ r with loads := r.loads.eraseIdx index } : Router V P).push t).AllCovered := by
  -- The call leaves the lanes and becomes a part of the turn that holds the same keys.
  set r' := ({ r with loads := r.loads.eraseIdx index } : Router V P).push t with hr'
  have h : Advance (fun _ => False) [] [t] r r' :=
    { turn := ⟨r.turn, rfl, rfl⟩
      generation := rfl
      visit := rfl
      loads := fun other hother => by
        -- the call itself is now the part, every other one keeps its place
        by_cases heq : other = call
        · exact .inr ⟨t, List.mem_cons_self .., fun k hk => hin k (heq ▸ hk)⟩
        · obtain ⟨i, hi⟩ := List.mem_iff_getElem?.mp hother
          refine .inl (List.mem_eraseIdx_iff_getElem?.mpr ⟨i, ?_, hi⟩)
          rintro rfl
          rw [hcall, Option.some.injEq] at hi
          exact heq hi.symm
      queue := fun _ hq => hq
      outside := .refl _ _ }
  have hmem : ∀ s ∈ [t], s = t := fun s hs => List.mem_singleton.mp hs
  refine h.coveredBut hr (fun rest hrest _ => ?_) (fun _ s hs => hmem s hs ▸ hformed) (fun _ _ hk => hk.elim)
    (fun _ _ _ _ hs => by cases hs) (fun _ _ _ hs => by cases hs)
    (fun k _ s hs hm => absurd (hmem s hs ▸ hm) (hmarks k)) (fun _ hE => .inl hE)
    (fun _ _ _ hk => hk.elim) (fun _ _ _ hk => hk.elim)
  -- a response is handled between two turns, so the new part is alone
  have hrest : rest = [] := by simpa [hidle] using hrest.symm
  rw [hrest]
  exact ⟨fun _ => rfl, trivial⟩

/-! ## Operations that can take a cover away -/

/-- The keys that aborting the deferred batch restores. -/
def DeferredHeld (r : Router V P) (k : String) : Prop :=
  r.activeDeferredController.isSome = true ∧
    r.resources.Captured r.activeDeferredEpochs.get? r.activeDeferredKeys k

/-- The keys that superseding the live loads restores. -/
def LiveHeld (r : Router V P) (k : String) : Prop :=
  r.resources.CapturedIn r.activeLiveLoadEpochs.entries k

/-- The keys that leaving the page restores. -/
def LeftBehind (r : Router V P) (k : String) : Prop :=
  r.DeferredHeld k ∨ (r.liveStarted = true ∧ r.LiveHeld k)

theorem coveredBut_survive {E F : String → Prop} {r r' : Router V P} {bumped : String → Prop}
    {queueKept navigationKept : Prop} (hr : r.CoveredBut E) (hturn : r'.turn = r.turn)
    (hgen : r'.lifecycleGeneration = r.lifecycleGeneration) (hloads : r'.loads = r.loads)
    (hres : Resources.Restores bumped r.resources r'.resources)
    (hqueue : queueKept → ∀ k, r.Queued k → r'.Queued k)
    (hvisit : navigationKept → r'.currentVisitId = r.currentVisitId)
    (hsurvive : r.resources.Bounded → ∀ k, ¬F k → r.Needs k →
      r.Survives bumped bumped queueKept navigationKept k) : r'.CoveredBut F := by
  -- Leaving drops the queue and the navigation; a key must survive by one of its other supports.
  have hb : r'.resources.Bounded → r.resources.Bounded := fun hb => hb.of_suffix hres.suffix
  have hkept := fun hb' => hres.kept hb' (hr.exact (hb hb'))
  have hrest := fun hb' => hres.rest hb' (hr.exact (hb hb'))
  -- a key that was put back to rest does not load any more
  have hload : r'.resources.Bounded → ∀ k, r'.Loading k → ¬bumped k ∧ r.Loading k := by
    intro hb' k hl
    by_cases hk : bumped k
    · exact absurd hl (hrest hb' k hk).1
    · refine ⟨hk, ?_⟩
      rcases (hkept hb' k hk).1 with hsame | hevicted
      · have hentry : r'.resources.entry k = r.resources.entry k := hsame
        rwa [Loading, hentry] at hl
      · have hentry : r'.resources.entry k = .evicted := hevicted
        rw [Loading, hentry] at hl
        cases hl
  have hmark : ∀ k, r'.Marked k → r.Marked k := by
    rintro k ⟨t, ht, hm⟩
    exact ⟨t, hturn ▸ ht, marks_congr hm hgen⟩
  have hpledged : ∀ k, r.Pledged k → r'.Pledged k := by
    rintro k ⟨t, ht, hp⟩
    exact ⟨t, hturn ▸ ht, pledges_congr hp hgen⟩
  have hin : ∀ k, r'.resources.currentEpoch k = r.resources.currentEpoch k → r.InLoad k →
      r'.InLoad k := by
    rintro k he (⟨call, hcall, hh⟩ | ⟨t, ht, hh⟩)
    · exact .inl ⟨call, hloads ▸ hcall, hh.congr hgen he⟩
    · exact .inr ⟨t, hturn ▸ ht, inLoad_congr hh hgen he⟩
  refine { layered := hturn ▸ hr.layered, formed := fun t ht => ?_, named := fun hb' k hl => ?_
           exact := fun hb' => hres.exact_of hb' (hr.exact (hb hb'))
           loading := fun hb' k hF hl => ?_, marked := fun hb' k hF hm => ?_ }
  · rw [hgen]
    exact hr.formed t (hturn ▸ ht)
  · exact hr.named (hb hb') k (hload hb' k hl).2
  -- a loading key: promised, queued, held by a load, or shown by the page that stays
  · obtain ⟨hnot, hl⟩ := hload hb' k hl
    rcases hsurvive (hb hb') k hF (.inl hl) with hp | ⟨hq, hq'⟩ | ⟨-, hh⟩ | ⟨-, hk | ⟨hn, hs⟩⟩
    · exact .inl (.inr (.inr (hpledged k hp)))
    · exact .inl (.inr (.inl (hqueue hq k hq')))
    · exact .inl (.inl (hin k (hkept hb' k hnot).2 hh))
    · exact absurd hk hnot
    · obtain ⟨t, ht, hs⟩ := hs
      exact .inr ⟨t, hturn ▸ ht, shows_congr hs (hvisit hn)⟩
  -- a marked key has the same supports but the page
  · rcases hsurvive (hb hb') k hF (.inr (hmark k hm)) with hp | ⟨hq, hq'⟩ | ⟨hnot, hh⟩ | ⟨hnot, -⟩
    · exact .inr (.inr (hpledged k hp))
    · exact .inr (.inl (hqueue hq k hq'))
    · exact .inl (hin k (hkept hb' k hnot).2 hh)
    · exact absurd (hmark k hm) hnot

theorem restores_abortActiveDeferred (r : Router V P) :
    Resources.Restores r.DeferredHeld r.resources r.abortActiveDeferred.resources := by
  unfold abortActiveDeferred
  dsimp only
  split
  · next h =>
    exact (Resources.restores_restoreCaptured _ _ _ _).congr fun k => by simp [DeferredHeld, h]
  · next h => exact (Resources.Restores.refl _).congr fun k => by simp [DeferredHeld, h]

theorem restores_suspendLive (r : Router V P) :
    Resources.Restores (fun k => r.liveStarted = true ∧ r.LiveHeld k) r.resources
      r.suspendLive.resources := by
  unfold suspendLive
  dsimp only
  split
  · next h => exact (Resources.restores_batches _ _ _).congr fun k => by simp [LiveHeld, h]
  · next h => exact (Resources.Restores.refl _).congr fun k => by simp [h]

theorem restores_openVisit (r : Router V P) :
    Resources.Restores r.LeftBehind r.resources r.openVisit.resources := by
  have hlive := restores_suspendLive
    (({ r with visitCounter := r.visitCounter + 1 } : Router V P).abortActiveDeferred
      ).abortActiveVisit
  refine (restores_abortActiveDeferred { r with visitCounter := r.visitCounter + 1 }).trans hlive
    (E := fun k => r.liveStarted = true ∧ r.LiveHeld k) fun k _ he => ?_
  exact and_congr_right fun _ => exists_congr fun batch => and_congr_right fun _ =>
    and_congr_right fun _ => iff_of_eq (congrArg (· = batch.2.get? k) he)

theorem restores_leavePage (r : Router V P) :
    Resources.Restores r.LeftBehind r.resources r.leavePage.resources := by
  have hlive := restores_suspendLive ({ r with visitCounter := r.visitCounter + 1 } : Router V P)
  have hdeferred := restores_abortActiveDeferred
    (({ r with visitCounter := r.visitCounter + 1 } : Router V P).suspendLive
      ).cancelPendingLiveRefresh
  refine (hlive.trans hdeferred (E := r.DeferredHeld) fun k _ he => ?_).congr fun k => or_comm
  exact and_congr_right fun _ => and_congr_right fun _ =>
    iff_of_eq (congrArg (· = r.activeDeferredEpochs.get? k) he)

/-! ## Starting a deferred batch -/

theorem covered_startDeferredBatch {r : Router V P} (hr : r.AllCovered) (keys : List String)
    (url : String)
    (hsurvive : r.resources.Bounded → ∀ k, r.Needs k →
      (k ∈ keys ∧ k ≠ "") ∨ r.Survives r.DeferredHeld r.DeferredHeld True True k) :
    (r.startDeferredBatch keys url).AllCovered := by
  have haborted : r.abortActiveDeferred.CoveredBut fun k => k ∈ keys ∧ k ≠ "" :=
    coveredBut_survive hr rfl rfl rfl (restores_abortActiveDeferred r) (fun _ _ hq => hq)
      (fun _ => rfl) fun hb k hk hn => (hsurvive hb k hn).resolve_left hk
  unfold startDeferredBatch
  refine coveredBut_loadResources (coveredBut_push (t := .captureDeferred keys)
    (CoveredBut.mono ?_ fun k hk => .inr hk) nofun trivial fun _ => id) _
  exact haborted.congr rfl rfl rfl rfl rfl rfl (.refl _ _)

/-! ## Visits -/

theorem covered_openVisit {E : String → Prop} {r : Router V P} (hr : r.CoveredBut E)
    (hsurvive : r.resources.Bounded → ∀ k, r.Needs k →
      r.Survives r.LeftBehind r.LeftBehind False False k) : r.openVisit.AllCovered :=
  coveredBut_survive hr rfl rfl rfl (restores_openVisit r) False.elim False.elim
    fun hb k _ hn => hsurvive hb k hn

theorem covered_startVisit {E : String → Prop} {r : Router V P} (hr : r.CoveredBut E)
    (url : String) (options : VisitOptions) (redirected : Bool)
    (hsurvive : r.resources.Bounded → ∀ k, r.Needs k →
      r.Survives r.LeftBehind r.LeftBehind False False k) :
    (r.startVisit url options redirected).AllCovered := by
  have hopened := covered_openVisit hr hsurvive
  unfold startVisit
  dsimp only
  split
  · exact hopened.congr rfl rfl rfl rfl rfl rfl (.refl _ _)
  · unfold requestPage
    dsimp only
    split
    · refine coveredBut_push ?_ nofun trivial fun _ => id
      exact hopened.congr rfl rfl rfl rfl rfl rfl (.refl _ _)
    · exact hopened.congr rfl rfl rfl rfl rfl rfl (.refl _ _)

/-- The keys that the page response itself writes. -/
def Carried (applied : PageEnvelope V) (k : String) : Prop :=
  k ∈ applied.resources.keys ∨ k ∈ applied.errors.keys ∨ k ∈ applied.deferredKeys

/-- A navigation bumps all its eligible keys, also those that its response does not carry. -/
theorem covered_beginNavigation {r : Router V P} (hr : r.AllCovered) (call : VisitCall)
    (envelope : PageEnvelope V) (origin : Origin)
    (hsurvive : r.isCurrent call = true → r.resources.Bounded →
      ∀ k ∈ r.eligibleKeys envelope call.startedAtEpoch, r.Needs k →
        r.Survives (· ∈ r.eligibleKeys envelope call.startedAtEpoch) (Carried envelope) True True k) :
    (r.beginNavigation call envelope origin).AllCovered := by
  unfold beginNavigation
  split
  · next hcurrent =>
    dsimp only
    set nav := r.navigation call envelope origin with hnav
    set eligible := r.eligibleKeys envelope call.startedAtEpoch with heligible
    set t : Task V P := .navResources nav nav.applied.resources.entries with ht
    set r' := ({ r with resources := r.resources.bumpAll eligible (.navigation call.id) } : Router V P).push t
      with hr'
    -- Beginning a page bumps what it may write and pushes its first part.
    have h : Advance (· ∈ eligible) [] [t] r r' :=
      { turn := ⟨r.turn, rfl, rfl⟩
        generation := rfl
        visit := rfl
        loads := fun _ h => .inl h
        queue := fun _ hq => hq
        outside := Resources.outside_bumpAll _ _ _ }
    have hnomark : ∀ k, ∀ s ∈ [t], s.Marks r' k → False := by
      intro k s hs hm
      rw [List.mem_singleton] at hs
      subst hs
      exact hm
    have hmarked : ∀ k, r'.Marked k → r.Marked k := fun k hm =>
      h.marked (fun s hs hm => (hnomark k s hs hm).elim) hm
    have hloading : ∀ k, r'.Loading k → r.Loading k := by
      intro k hl
      have hentry : r'.resources.entry k = r.resources.entry k := by
        show ResourceStore.entry _ k = ResourceStore.entry _ k
        rw [show r'.resources.resourceStore = r.resources.resourceStore from
          Resources.resourceStore_bumpAll _ _ _]
      rwa [Loading, hentry] at hl
    have hbelow : ∀ s ∈ r.turn, s ∈ r'.turn := fun s hs => List.mem_cons_of_mem _ hs
    have hb : r'.resources.Bounded → r.resources.Bounded := fun hb =>
      hb.of_suffix h.outside.suffix
    refine h.coveredBut hr (fun _ _ hl => ⟨fun hbase => absurd hbase Bool.false_ne_true, hl⟩)
      (fun _ s hs => ?_)
      (fun hb' k _ hl => hr.named (hb hb') k (hloading k hl)) (fun _ _ _ s hs => by cases hs)
      (fun _ _ s hs => by cases hs) (fun k _ s hs hm => (hnomark k s hs hm).elim)
      (fun _ hE => .inl hE) (fun hb' k _ hk hl => ?_) (fun hb' k _ hk hm => ?_)
    · rw [List.mem_singleton] at hs
      subst hs
      trivial
    -- each support of a loading key, before the page, gives one after it
    · rcases hsurvive hcurrent (hb hb') k hk (.inl (hloading k hl)) with
        ⟨s, hs, hp⟩ | ⟨-, hq⟩ | ⟨hnot, -⟩ | ⟨-, hc | ⟨-, s, hs, hn⟩⟩
      · exact .inl (.inr (.inr ⟨s, hbelow s hs, pledges_congr hp rfl⟩))
      · exact .inl (.inr (.inl hq))
      -- a load that holds an eligible key has just been overtaken
      · exact absurd hk hnot
      · refine .inr ⟨t, List.mem_cons_self .., hcurrent, ?_⟩
        -- carried by the page: as a resource, as an error or as a deferred key
        rcases hc with hc | hc | hc
        · refine .inl ?_
          show k ∈ (appliedEnvelope envelope eligible).resources.keys
          exact OrderedMap.mem_keys_filter.mpr ⟨hc, by simpa using hk⟩
        · exact .inr (.inl ⟨hc, hk⟩)
        · refine .inr (.inr ?_)
          cases hd : envelope.deferred with
          | none => simp [PageEnvelope.deferredKeys, hd] at hc
          | some keys =>
            simp only [PageEnvelope.deferredKeys, hd, Option.getD_some] at hc
            simp [hnav, navigation, appliedEnvelope, PageEnvelope.deferredKeys, hd, hc,
              ← heligible, hk]
      · exact .inr ⟨s, hbelow s hs, shows_congr hn rfl⟩
    · rcases hsurvive hcurrent (hb hb') k hk (.inr (hmarked k hm)) with
        ⟨s, hs, hp⟩ | ⟨-, hq⟩ | ⟨hnot, -⟩ | ⟨hnot, -⟩
      · exact .inr (.inr ⟨s, hbelow s hs, pledges_congr hp rfl⟩)
      · exact .inr (.inl hq)
      · exact absurd hk hnot
      · exact absurd (hmarked k hm) hnot
  -- a visit that was superseded only ends
  · exact covered_finishVisit hr call

end Router

end FluxFast.Core
