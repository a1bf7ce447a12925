import FluxFast.Core.Coverage

/-!
# CoverageSteps — how the parts of a call keep the loading keys covered

One lemma for each part of a synchronous call that cannot lose a cover: it either hands on what it
promised or writes the key.  The operations that can lose one (leaving a page, stopping live
synchronization, starting a deferred batch, applying a page response, the refresh timer) are given
through `Survives`, the condition under which the key keeps another cover.
-/

namespace FluxFast.Core

open FluxFast.Theory

set_option linter.unusedSectionVars false

namespace Router

variable {V P : Type} [DecidableEq V] [Patchable V P]

/-! ## Taking a task off the stack, and replacing it -/

def Promises (r : Router V P) (t : Task V P) (k : String) : Prop :=
  t.InLoad r k ∨ t.Pledges r k ∨ t.Shows r k

theorem layered_tail {t : Task V P} {rest : List (Task V P)} {r : Router V P}
    {E : String → Prop} (hr : r.CoveredBut E) (ht : r.turn = t :: rest) (hbase : t.base = true) :
    rest = [] := by
  have h := hr.layered
  rw [ht] at h
  exact h.1 hbase

theorem coveredBut_pop {E : String → Prop} {r : Router V P} {t : Task V P}
    {rest : List (Task V P)} (hr : r.CoveredBut E) (ht : r.turn = t :: rest) :
    ({ r with turn := rest } : Router V P).CoveredBut fun k => E k ∨ r.Promises t k := by
  have h : Advance (r.Promises t) [t] [] r { r with turn := rest } :=
    { turn := ⟨rest, ht, rfl⟩
      generation := rfl
      visit := rfl
      loads := fun _ hcall => .inl hcall
      queue := fun _ hq => hq
      outside := (Resources.Outside.refl (fun _ => False) _).mono fun _ hk => hk.elim }
  have hsame : ∀ k, ({ r with turn := rest } : Router V P).Loading k → r.Loading k := fun _ hl => hl
  refine h.coveredBut hr (fun _ _ hl => hl.2) (fun _ t ht => by cases ht)
    (fun hb k _ hl => hr.named hb k (hsame k hl)) (fun k hk _ t' ht' hin => ?_)
    (fun k hk t' ht' hs => ?_) (fun _ _ t ht => by cases ht) (fun k hE => .inl (.inl hE))
    (fun _ k hF hW => absurd (.inr hW) hF) (fun _ k hF hW => absurd (.inr hW) hF)
  · rw [List.mem_singleton] at ht'
    subst ht'
    exact absurd (hin.elim .inl fun hp => .inr (.inl hp)) hk
  · rw [List.mem_singleton] at ht'
    subst ht'
    exact absurd (.inr (.inr hs)) hk

theorem covered_pop {r : Router V P} {t : Task V P} {rest : List (Task V P)} (hr : r.AllCovered)
    (ht : r.turn = t :: rest) (hnone : ∀ k, ¬r.Promises t k) :
    ({ r with turn := rest } : Router V P).AllCovered :=
  (coveredBut_pop hr ht).mono fun k hk => hk.elim id fun hp => hnone k hp

/-- A part of a call that writes the keys of `W` and goes on as `t'`: the keys it wrote are not
loading afterwards or are promised by `t'`, and `t'` promises the others as `t` did. -/
theorem covered_write {W : String → Prop} {r r' : Router V P} {t t' : Task V P}
    {rest : List (Task V P)} (hr : r.AllCovered) (ht : r.turn = t :: rest) (ht' : r'.turn = t' :: rest)
    (hgen : r'.lifecycleGeneration = r.lifecycleGeneration)
    (hvisit : r'.currentVisitId = r.currentVisitId) (hloads : r'.loads = r.loads)
    (hkeys : r'.pendingLiveRefreshKeys = r.pendingLiveRefreshKeys)
    (htimer : r'.liveRefreshTimer = r.liveRefreshTimer)
    (hout : Resources.Outside W r.resources r'.resources)
    (hbase : t'.base = t.base)
    (hformed : t.Formed r.lifecycleGeneration → t'.Formed r.lifecycleGeneration)
    (hpass : ∀ k, ¬W k → (t.InLoad r k → t'.InLoad r k) ∧ (t.Pledges r k → t'.Pledges r k) ∧
      (t.Shows r k → t'.Shows r k))
    (hmarks : ∀ k, ¬t'.Marks r k)
    (hkeep : t.base = true ∨ ∀ k, W k →
      r'.resources.currentEpoch k = r.resources.currentEpoch k ∧ ¬t.InLoad r k ∧ ¬t.Pledges r k)
    (hset : ∀ k, W k → r'.Loading k → r.Loading k ∧ t'.Pledges r k) : r'.AllCovered := by
  -- A write replaces the part by its remainder and changes no lane, so it is an advance of one
  -- part.
  have h : Advance W [t] [t'] r r' :=
    { turn := ⟨rest, ht, ht'⟩
      generation := hgen
      visit := hvisit
      loads := fun call hcall => .inl (hloads ▸ hcall)
      queue := fun k hq => ⟨hkeys ▸ hq.1, htimer.trans hq.2⟩
      outside := hout }
  have hmem : t' ∈ r'.turn := ht' ▸ List.mem_cons_self ..
  have hnomark : ∀ k, ∀ s ∈ [t'], s.Marks r' k → False := by
    intro k s hs hm
    rw [List.mem_singleton] at hs
    subst hs
    exact hmarks k (marks_congr hm hgen)
  -- One argument for each way in which a key may be waited for: loads, pledges, shown keys, marks.
  refine h.coveredBut hr (fun _ _ hl => ⟨fun hb => hl.1 (hbase ▸ hb), hl.2⟩) (fun hf s hs => ?_)
    (fun hb k hW hl => hr.named (hb.of_suffix hout.suffix) k (hset k hW hl).1)
    (fun k hk he s hs hin => ?_)
    (fun k hk s hs hsh => ?_) (fun k _ s hs hm => (hnomark k s hs hm).elim) (fun _ hE => hE.elim)
    (fun hb k _ hW hl => ?_) (fun hb k _ hW hm => ?_)
  · rw [List.mem_singleton] at hs
    exact hs ▸ hformed (hf t (List.mem_singleton_self t))
  · rw [List.mem_singleton] at hs
    subst hs
    rcases hin with hin | hp
    · exact .inl (.inr ⟨t', hmem, inLoad_congr ((hpass k hk).1 hin) hgen he⟩)
    · exact .inr (.inr ⟨t', hmem, pledges_congr ((hpass k hk).2.1 hp) hgen⟩)
  · rw [List.mem_singleton] at hs
    subst hs
    exact .inr ⟨t', hmem, shows_congr ((hpass k hk).2.2 hsh) hvisit⟩
  · exact .inl (.inr (.inr ⟨t', hmem, pledges_congr (hset k hW hl).2 hgen⟩))
  -- A marked key of `W` is the one that the write could strand.
  · rcases hkeep with hbase' | hkeep
    · -- nothing runs below a call that a response or an event began
      have hrest := layered_tail hr ht hbase'
      obtain ⟨s, hs, hm⟩ := hm
      rw [ht', hrest] at hs
      exact (hnomark k s hs hm).elim
    -- inside another call the write keeps the epoch and drops no promise
    · obtain ⟨he, hin, hp⟩ := hkeep k hW
      have hmarked := h.marked (fun s hs hm => (hnomark k s hs hm).elim) hm
      refine h.secured he (fun s hs hh => ?_)
        (hr.marked (hb.of_suffix hout.suffix) k (fun hE => hE.elim) hmarked)
      rw [List.mem_singleton] at hs
      subst hs
      exact absurd hh fun hh => hh.elim hin hp

/-! ## Settling -/

theorem kept_rewriteHeld (store : ResourceStore V) (now : Nat) {j k : String} (h : j ≠ k) :
    ResourceStore.Kept store (rewriteHeld store now k) j := by
  unfold rewriteHeld
  split
  · exact (ResourceStore.Kept.of_eq (ResourceStore.entry_touchRecord _ k j)).trans
      (ResourceStore.kept_set _ now _ _ h)
  · exact .of_eq (ResourceStore.entry_invalidate_ne _ h)

theorem status_rewriteHeld_ne_loading (store : ResourceStore V) (now : Nat) (k : String) :
    ((rewriteHeld store now k).entry k).status ≠ .loading := by
  unfold rewriteHeld
  split
  · exact ResourceStore.status_set_ne_loading _ _ _ _ _
  · simp

theorem kept_settleKey (store : ResourceStore V) (now : Nat) (envelope : PageEnvelope V)
    {j k : String} (h : j ≠ k) : ResourceStore.Kept store (settleKey store now envelope k) j := by
  unfold settleKey
  split
  · exact ResourceStore.kept_set _ now _ _ h
  · split
    · exact ResourceStore.kept_showUnsettled _ .error _ h
    · exact kept_rewriteHeld store now h

theorem status_settleKey_ne_loading (store : ResourceStore V) (now : Nat)
    (envelope : PageEnvelope V) (k : String) :
    ((settleKey store now envelope k).entry k).status ≠ .loading := by
  unfold settleKey
  split
  · exact ResourceStore.status_set_ne_loading _ _ _ _ _
  · split
    · exact ResourceStore.status_setResourceError_ne_loading _ _ _
    · exact status_rewriteHeld_ne_loading _ _ _

theorem outside_settlePage {B : String → Prop} (r : Router V P) (url : String)
    (keys : List String) : Resources.Outside B r.resources (r.settlePage url keys).resources :=
  Resources.outside_withStore _ fun j _ => .of_eq (PageCache.entry_settleResources _ _ _ _ j)

theorem covered_settlePage {r : Router V P} (hr : r.AllCovered) (url : String) (keys : List String) :
    (r.settlePage url keys).AllCovered :=
  hr.congr rfl rfl rfl rfl rfl rfl (outside_settlePage r url keys)

theorem covered_finishLoad {r : Router V P} (hr : r.AllCovered) (call : LoadCall) :
    (r.finishLoad call).AllCovered :=
  hr.congr rfl rfl rfl rfl rfl rfl (.refl _ _)

/-! ## Patching -/

theorem kept_patchOrInvalidate {store patched : ResourceStore V} {now : Nat} {j k : String}
    {patches : List P} (h : patchOrInvalidate store now k patches = some patched) (hj : j ≠ k) :
    ResourceStore.Kept store patched j := by
  obtain ⟨result, hpatch, rfl⟩ := Option.map_eq_some_iff.mp h
  refine (ResourceStore.kept_patch hpatch hj).trans ?_
  split
  · exact .of_eq (ResourceStore.entry_touchRecord _ k j)
  · exact .of_eq (ResourceStore.entry_invalidate_ne _ hj)

theorem status_patchOrInvalidate_ne_loading {store patched : ResourceStore V} {now : Nat}
    {k : String} {patches : List P} (h : patchOrInvalidate store now k patches = some patched) :
    (patched.entry k).status ≠ .loading := by
  obtain ⟨result, hpatch, rfl⟩ := Option.map_eq_some_iff.mp h
  rcases ResourceStore.status_patch_self hpatch with ⟨-, hflag⟩ | ⟨hflag, hstatus⟩
  · simp [hflag]
  · simpa [hflag] using hstatus

theorem kept_patchIfHeld {store patched : ResourceStore V} {now : Nat} {j k : String}
    {patches : List P} (h : patchIfHeld store now k patches = some patched) (hj : j ≠ k) :
    ResourceStore.Kept store patched j := by
  obtain ⟨result, hpatch, rfl⟩ := Option.map_eq_some_iff.mp h
  refine (ResourceStore.kept_patch hpatch hj).trans ?_
  split
  · exact .of_eq (ResourceStore.entry_touchRecord _ k j)
  · exact .refl _ j

theorem loading_of_patchIfHeld {store patched : ResourceStore V} {now : Nat} {k : String}
    {patches : List P} (h : patchIfHeld store now k patches = some patched)
    (hloading : (patched.entry k).status = .loading) : (store.entry k).status = .loading := by
  obtain ⟨result, hpatch, rfl⟩ := Option.map_eq_some_iff.mp h
  rcases ResourceStore.status_patch_self hpatch with ⟨hsame, hflag⟩ | ⟨hflag, hstatus⟩
  · simpa [hflag, hsame] using hloading
  · simp only [hflag, if_true, ResourceStore.entry_touchRecord] at hloading
    exact absurd hloading hstatus

section Tasks

variable {r : Router V P} {rest : List (Task V P)}

theorem covered_stepSettleLoad {call : LoadCall} {envelope : PageEnvelope V}
    {keys settled : List String} (hr : r.AllCovered)
    (ht : r.turn = .settleLoad call envelope keys settled :: rest) :
    (({ r with turn := rest } : Router V P).stepSettleLoad call envelope keys settled).AllCovered := by
  -- The keys that a load still has to settle are its promise; each part settles the first of them.
  cases keys with
  | nil =>
    have hpop := covered_pop hr ht fun k hk => by simp [Promises, Task.InLoad, Task.Pledges, Task.Shows] at hk
    simp only [stepSettleLoad]
    split
    · exact covered_finishLoad hpop call
    · exact covered_finishLoad (covered_settlePage hpop ..) call
  | cons key keys =>
    simp only [stepSettleLoad]
    split
    · next hgen =>
      -- after `clear` nothing of an older generation counts
      refine covered_finishLoad (covered_pop hr ht fun k hk => ?_) call
      simp only [Promises, Task.InLoad, Task.Pledges, Task.Shows, or_false] at hk
      exact hgen hk.1.1
    · split
      · refine covered_write (W := (· = key)) hr ht rfl rfl rfl rfl rfl rfl
          (Resources.outside_withStore _ fun k hk => kept_settleKey _ _ _ hk) rfl (fun _ => trivial)
          (fun k hk => ⟨fun h => ⟨h.1, (List.mem_cons.mp h.2).resolve_left hk⟩, id, id⟩)
          (fun _ h => h) (.inl rfl) fun k hk hl => ?_
        subst hk
        exact absurd hl (status_settleKey_ne_loading _ _ _ _)
      -- an overtaken key is skipped: the load does not hold it any more
      · next hstill =>
        refine covered_write (W := fun _ => False) hr ht rfl rfl rfl rfl rfl rfl (.refl _ _) rfl
          (fun _ => trivial) (fun k _ => ⟨fun h => ⟨h.1, ?_⟩, id, id⟩) (fun _ h => h) (.inl rfl)
          fun _ hk => hk.elim
        refine (List.mem_cons.mp h.2).resolve_left fun hk => hstill ?_
        subst hk
        exact Holds.stillAt h.1

theorem covered_stepRejectLoad {call : LoadCall} {failure : Failure} {aborted : Bool}
    {keys settled : List String} (hr : r.AllCovered)
    (ht : r.turn = .rejectLoad call failure aborted keys settled :: rest) :
    (({ r with turn := rest } : Router V P).stepRejectLoad call failure aborted keys
      settled).AllCovered := by
  cases keys with
  | nil =>
    have hpop := covered_pop hr ht fun k hk => by
      simp [Promises, Task.InLoad, Task.Pledges, Task.Shows] at hk
    simp only [stepRejectLoad]
    split
    · exact covered_finishLoad hpop call
    · exact covered_finishLoad (covered_settlePage hpop ..) call
  | cons key keys =>
    simp only [stepRejectLoad]
    split
    · next hgen =>
      refine covered_finishLoad (covered_pop hr ht fun k hk => ?_) call
      simp only [Promises, Task.InLoad, Task.Pledges, Task.Shows, or_false] at hk
      exact hgen hk.1.1
    · split
      -- an aborted load gives the held value back, any other failure is shown
      · split
        · refine covered_write (W := (· = key)) hr ht rfl rfl rfl rfl rfl rfl
            (Resources.outside_withStore _ fun k hk => kept_rewriteHeld _ _ hk) rfl
            (fun _ => trivial)
            (fun k hk => ⟨fun h => ⟨h.1, (List.mem_cons.mp h.2).resolve_left hk⟩, id, id⟩)
            (fun _ h => h) (.inl rfl) fun k hk hl => ?_
          subst hk
          exact absurd hl (status_rewriteHeld_ne_loading _ _ _)
        · refine covered_write (W := (· = key)) hr ht rfl rfl rfl rfl rfl rfl
            (Resources.outside_withStore _ fun k hk => ?_) rfl (fun _ => trivial)
            (fun k hk => ⟨fun h => ⟨h.1, (List.mem_cons.mp h.2).resolve_left hk⟩, id, id⟩)
            (fun _ h => h) (.inl rfl) fun k hk hl => ?_
          · exact (ResourceStore.Kept.of_eq (ResourceStore.entry_touchRecord _ key k)).trans
              (ResourceStore.kept_showUnsettled _ .error _ hk)
          · subst hk
            exact absurd hl (ResourceStore.status_setResourceError_ne_loading _ _ _)
      -- an overtaken key is skipped, as for an answer
      · next hstill =>
        refine covered_write (W := fun _ => False) hr ht rfl rfl rfl rfl rfl rfl (.refl _ _) rfl
          (fun _ => trivial) (fun k _ => ⟨fun h => ⟨h.1, ?_⟩, id, id⟩) (fun _ h => h) (.inl rfl)
          fun _ hk => hk.elim
        refine (List.mem_cons.mp h.2).resolve_left fun hk => hstill ?_
        subst hk
        exact Holds.stillAt h.1

theorem covered_stepMarkLoading {call : LoadCall} {keys : List String} (hr : r.AllCovered)
    (ht : r.turn = .markLoading call keys :: rest) :
    (({ r with turn := rest } : Router V P).stepMarkLoading call keys).AllCovered := by
  cases keys with
  | nil =>
    simp only [stepMarkLoading]
    split
    · next hgen =>
      refine covered_pop hr ht fun k hk => ?_
      simp only [Promises, Task.InLoad, Task.Pledges, Task.Shows, or_false] at hk
      exact hgen hk.1
    · have h : Advance (fun _ => False) [.markLoading call []] [] r
          { r with turn := rest, loads := r.loads ++ [call] } :=
        { turn := ⟨rest, ht, rfl⟩
          generation := rfl
          visit := rfl
          loads := fun _ hcall => .inl (List.mem_append_left _ hcall)
          queue := fun _ hq => hq
          outside := .refl _ _ }
      refine h.coveredBut hr (fun _ _ hl => hl.2) (fun _ t ht => by cases ht) (fun _ _ hk => hk.elim)
        (fun k _ he t ht' hin => ?_) (fun k _ t ht' hs => ?_) (fun _ _ t ht => by cases ht)
        (fun _ hE => .inl hE) (fun _ _ _ hk => hk.elim) (fun _ _ _ hk => hk.elim)
      · rw [List.mem_singleton] at ht'
        subst ht'
        rcases hin with hin | hp
        · exact .inl (.inl ⟨call, List.mem_append_right _ (List.mem_singleton_self call),
            Holds.congr hin rfl he⟩)
        · exact hp.elim
      · rw [List.mem_singleton] at ht'
        subst ht'
        exact hs.elim
  | cons key keys =>
    simp only [stepMarkLoading]
    split
    · next hgen =>
      refine covered_pop hr ht fun k hk => ?_
      simp only [Promises, Task.InLoad, Task.Pledges, Task.Shows, or_false] at hk
      exact hgen hk.1
    · next hgen =>
      set r' := (({ r with turn := rest } : Router V P).withStore
        (r.store.markLoading [key])).push (.markLoading call keys) with hr'
      have h : Advance (· = key) [.markLoading call (key :: keys)] [.markLoading call keys] r r' :=
        { turn := ⟨rest, ht, rfl⟩
          generation := rfl
          visit := rfl
          loads := fun _ hcall => .inl hcall
          queue := fun _ hq => hq
          outside := Resources.outside_withStore _ fun k hk =>
            ResourceStore.kept_showUnsettled _ .loading _ hk }
      have hmem : .markLoading call keys ∈ r'.turn := List.mem_cons_self ..
      have hpass : ∀ k, ∀ t ∈ [Task.markLoading call (key :: keys)],
          t.InLoad r k ∨ t.Pledges r k → r'.Secured k := by
        intro k t ht' hin
        rw [List.mem_singleton] at ht'
        subst ht'
        rcases hin with hin | hp
        · exact .inl (.inr ⟨_, hmem, Holds.congr hin rfl rfl⟩)
        · exact hp.elim
      -- the key was about to be marked, so something secures it, and no epoch has changed
      have hformed := hr.formed _ (ht ▸ List.mem_cons_self ..)
      have hmark : r.Marked key := ⟨.markLoading call (key :: keys), ht ▸ List.mem_cons_self ..,
        not_not.mp hgen, List.mem_cons_self ..⟩
      have hkey : r'.resources.Bounded → r'.Secured key := fun hb =>
        h.secured rfl (hpass key) (hr.marked (hb.of_suffix h.outside.suffix) key id hmark)
      refine h.coveredBut hr (fun _ _ hl => ⟨fun hb => hl.1 hb, hl.2⟩) (fun hf t ht' => ?_)
        (fun _ k hk _ => hk ▸ hformed.2 key (List.mem_cons_self ..))
        (fun k _ _ t ht' hin => hpass k t ht' hin) (fun k _ t ht' hs => ?_)
        (fun k hk t ht' hm => ?_) (fun _ hE => .inl hE) (fun hb k _ hk _ => ?_)
        (fun hb k _ hk _ => ?_)
      · rw [List.mem_singleton] at ht'
        subst ht'
        exact ⟨hformed.1, fun k hk => hformed.2 k (List.mem_cons_of_mem _ hk)⟩
      · rw [List.mem_singleton] at ht'
        subst ht'
        exact hs.elim
      · rw [List.mem_singleton] at ht'
        subst ht'
        exact ⟨_, List.mem_singleton_self _, hm.1, List.mem_cons_of_mem _ hm.2⟩
      · exact hk ▸ .inl (hkey hb)
      · exact hk ▸ hkey hb

/-! ## Applying a page response -/

theorem covered_finishVisit {r : Router V P} (hr : r.AllCovered) (call : VisitCall) :
    (r.finishVisit call).AllCovered :=
  hr.congr rfl rfl rfl rfl rfl rfl (.refl _ _)

theorem covered_failVisit {r : Router V P} (hr : r.AllCovered) (call : VisitCall) (failure : Failure) :
    (r.failVisit call failure).AllCovered :=
  hr.congr rfl rfl rfl rfl rfl rfl (.refl _ _)

/-- A navigation that is no longer the current one promises nothing. -/
theorem covered_stopNavigation {t : Task V P} {call : VisitCall} (hr : r.AllCovered)
    (ht : r.turn = t :: rest) (hcurrent : ¬r.isCurrent call = true)
    (hnav : ∀ k, ¬t.InLoad r k ∧ ¬t.Pledges r k ∧ (t.Shows r k → r.isCurrent call = true)) :
    (({ r with turn := rest } : Router V P).finishVisit call).AllCovered := by
  refine covered_finishVisit (covered_pop hr ht fun k hk => ?_) call
  rcases hk with hk | hk | hk
  · exact (hnav k).1 hk
  · exact (hnav k).2.1 hk
  · exact hcurrent ((hnav k).2.2 hk)

theorem covered_stepNavResources {nav : Navigation V}
    {records : List (String × ResourceWireRecord V)} (hr : r.AllCovered)
    (ht : r.turn = .navResources nav records :: rest) :
    (({ r with turn := rest } : Router V P).stepNavResources nav records).AllCovered := by
  cases records with
  | nil =>
    refine covered_write (W := fun _ => False) hr ht rfl rfl rfl rfl rfl rfl (.refl _ _) rfl
      (fun _ => trivial) (fun k _ => ⟨id, id, fun h => ⟨h.1, ?_⟩⟩) (fun _ h => h)
      (.inr fun _ hk => hk.elim) fun _ hk => hk.elim
    exact h.2.resolve_left (by simp)
  | cons e records =>
    simp only [stepNavResources]
    split
    · refine covered_write (W := (· = e.1)) hr ht rfl rfl rfl rfl rfl rfl
        (Resources.outside_withStore _ fun k hk => ResourceStore.kept_set _ _ _ _ hk) rfl
        (fun _ => trivial) (fun k hk => ⟨id, id, fun h => ⟨h.1, ?_⟩⟩) (fun _ h => h)
        (.inr fun _ _ => ⟨rfl, id, id⟩) fun k hk hl => ?_
      · exact h.2.imp_left fun h => (List.mem_cons.mp h).resolve_left hk
      · subst hk
        exact absurd hl (ResourceStore.status_set_ne_loading _ _ _ _ _)
    · next hcurrent =>
      exact covered_stopNavigation hr ht hcurrent fun k => ⟨id, id, fun h => h.1⟩

theorem covered_stepNavErrors {nav : Navigation V}
    {errors : List (String × ResourceErrorDetail V)} (hr : r.AllCovered)
    (ht : r.turn = .navErrors nav errors :: rest) :
    (({ r with turn := rest } : Router V P).stepNavErrors nav errors).AllCovered := by
  -- A failed key shown by the page is no longer among those that it has still to show.
  cases errors with
  | nil =>
    refine covered_write (W := fun _ => False) hr ht rfl rfl rfl rfl rfl rfl (.refl _ _) rfl
      (fun _ => trivial) (fun k _ => ⟨id, id, fun h => ⟨h.1, ?_⟩⟩) (fun _ h => h)
      (.inr fun _ hk => hk.elim) fun _ hk => hk.elim
    exact h.2.resolve_left (by simp)
  | cons e errors =>
    simp only [stepNavErrors]
    split
    · split
      · refine covered_write (W := (· = e.1)) hr ht rfl rfl rfl rfl rfl rfl
          (Resources.outside_withStore _ fun k hk => ResourceStore.kept_showUnsettled _ _ _ hk) rfl
          (fun _ => trivial) (fun k hk => ⟨id, id, fun h => ⟨h.1, ?_⟩⟩) (fun _ h => h)
          (.inr fun _ _ => ⟨rfl, id, id⟩) fun k hk hl => ?_
        · exact h.2.imp_left fun h => ⟨(List.mem_cons.mp h.1).resolve_left hk, h.2⟩
        · subst hk
          exact absurd hl (ResourceStore.status_setResourceError_ne_loading _ _ _)
      -- a key that is not eligible was never promised by the page
      · next hnot =>
        refine covered_write (W := fun _ => False) hr ht rfl rfl rfl rfl rfl rfl (.refl _ _) rfl
          (fun _ => trivial) (fun k _ => ⟨id, id, fun h => ⟨h.1, ?_⟩⟩) (fun _ h => h)
          (.inr fun _ hk => hk.elim) fun _ hk => hk.elim
        refine h.2.imp_left fun h => ⟨(List.mem_cons.mp h.1).resolve_left ?_, h.2⟩
        rintro rfl
        exact hnot h.2
    -- a page that has been left promises nothing
    · next hcurrent =>
      exact covered_stopNavigation hr ht hcurrent fun k => ⟨id, id, fun h => h.1⟩

theorem covered_stepNavDeferred {nav : Navigation V} {keys : List String} (hr : r.AllCovered)
    (ht : r.turn = .navDeferred nav keys :: rest) :
    (({ r with turn := rest } : Router V P).stepNavDeferred nav keys).AllCovered := by
  cases keys with
  | nil =>
    refine covered_write (W := fun _ => False) hr ht rfl rfl rfl rfl rfl rfl (.refl _ _) rfl
      (fun _ => trivial) (fun k _ => ⟨id, id, fun h => ?_⟩) (fun _ h => h)
      (.inr fun _ hk => hk.elim) fun _ hk => hk.elim
    exact absurd h.2 List.not_mem_nil
  | cons key keys =>
    simp only [stepNavDeferred]
    split
    · refine covered_write (W := (· = key)) hr ht rfl rfl rfl rfl rfl rfl
        (Resources.outside_withStore _ fun k hk => ResourceStore.kept_showUnsettled _ _ _ hk) rfl
        (fun _ => trivial)
        (fun k hk => ⟨id, id, fun h => ⟨h.1, (List.mem_cons.mp h.2).resolve_left hk⟩⟩)
        (fun _ h => h) (.inr fun _ _ => ⟨rfl, id, id⟩) fun k hk hl => ?_
      subst hk
      exact absurd hl (ResourceStore.status_markPending_ne_loading _ _)
    · next hcurrent =>
      exact covered_stopNavigation hr ht hcurrent fun k => ⟨id, id, fun h => h.1⟩

/-- A task without promises that goes on as another one without promises. -/
theorem covered_silent {r' : Router V P} {t t' : Task V P} (hr : r.AllCovered) (ht : r.turn = t :: rest)
    (ht' : r'.turn = t' :: rest) (hgen : r'.lifecycleGeneration = r.lifecycleGeneration)
    (hvisit : r'.currentVisitId = r.currentVisitId) (hloads : r'.loads = r.loads)
    (hkeys : r'.pendingLiveRefreshKeys = r.pendingLiveRefreshKeys)
    (htimer : r'.liveRefreshTimer = r.liveRefreshTimer)
    (hres : r'.resources = r.resources) (hbase : t'.base = t.base)
    (hformed : t'.Formed r.lifecycleGeneration)
    (hnone : ∀ k, ¬r.Promises t k) (hmarks : ∀ k, ¬t'.Marks r k) : r'.AllCovered :=
  covered_write (W := fun _ => False) hr ht ht' hgen hvisit hloads hkeys htimer
    (hres ▸ .refl _ _) hbase (fun _ => hformed)
    (fun k _ => ⟨fun h => absurd (.inl h) (hnone k), fun h => absurd (.inr (.inl h)) (hnone k),
      fun h => absurd (.inr (.inr h)) (hnone k)⟩)
    hmarks (.inr fun _ hk => hk.elim) fun _ hk => hk.elim

theorem covered_stepNavShell {nav : Navigation V} (hr : r.AllCovered)
    (ht : r.turn = .navShell nav :: rest) :
    (({ r with turn := rest } : Router V P).stepNavShell nav).AllCovered := by
  unfold stepNavShell
  split
  · exact covered_silent hr ht rfl rfl rfl rfl rfl rfl rfl rfl trivial
      (fun k hk => hk.elim id (Or.elim · id id)) fun _ h => h
  · next hcurrent =>
    exact covered_stopNavigation hr ht hcurrent fun k => ⟨id, id, fun h => h.elim⟩

theorem covered_stepNavManifest {nav : Navigation V} (hr : r.AllCovered)
    (ht : r.turn = .navManifest nav :: rest) :
    (({ r with turn := rest } : Router V P).stepNavManifest nav).AllCovered := by
  unfold stepNavManifest
  split
  · split
    · exact covered_failVisit (covered_pop hr ht fun k hk => hk.elim id (Or.elim · id id)) ..
    · exact covered_silent hr ht rfl rfl rfl rfl rfl rfl rfl rfl trivial
        (fun k hk => hk.elim id (Or.elim · id id)) fun _ h => h
  · next hcurrent =>
    exact covered_stopNavigation hr ht hcurrent fun k => ⟨id, id, fun h => h.elim⟩

theorem covered_stepNavCommit {nav : Navigation V} (hr : r.AllCovered)
    (ht : r.turn = .navCommit nav :: rest) :
    (({ r with turn := rest } : Router V P).stepNavCommit nav).AllCovered := by
  unfold stepNavCommit
  split
  · dsimp only
    split <;>
      exact covered_silent hr ht rfl rfl rfl rfl rfl rfl rfl rfl trivial
        (fun k hk => hk.elim id (Or.elim · id id)) fun _ h => h
  · next hcurrent =>
    exact covered_stopNavigation hr ht hcurrent fun k => ⟨id, id, fun h => h.elim⟩

/-! ## Prefetches, mutations and live events -/

theorem covered_stepApplyPrefetch {call : PrefetchCall V} {fetched : PrefetchedEnvelope V}
    {race : Bool} {records : List (String × ResourceWireRecord V)} (hr : r.AllCovered)
    (ht : r.turn = .applyPrefetch call fetched records race :: rest) :
    (({ r with turn := rest } : Router V P).stepApplyPrefetch call fetched race records).AllCovered := by
  cases records with
  | nil =>
    have hpop := covered_pop hr ht fun k hk => by
      simp [Promises, Task.InLoad, Task.Pledges, Task.Shows] at hk
    simp only [stepApplyPrefetch]
    split
    · exact hpop
    · split <;> exact hpop.congr rfl rfl rfl rfl rfl rfl (.refl _ _)
  | cons e records =>
    simp only [stepApplyPrefetch]
    split
    -- a call of an older generation pledges nothing
    · next hgen =>
      refine covered_pop hr ht fun k hk => ?_
      rcases hk with hk | hk | hk
      · exact hk
      · exact hgen hk.1
      · exact hk
    -- a prefetched record settles its key, so the key does not load afterwards
    · refine covered_write (W := (· = e.1)) hr ht rfl rfl rfl rfl rfl rfl
        (Resources.outside_withStore _ fun k hk => ResourceStore.kept_set _ _ _ _ hk) rfl
        (fun _ => trivial)
        (fun k hk => ⟨id, fun h => ⟨h.1, (List.mem_cons.mp h.2).resolve_left hk⟩, id⟩)
        (fun _ h => h) (.inl rfl) fun k hk hl => ?_
      subst hk
      exact absurd hl (ResourceStore.status_set_ne_loading _ _ _ _ _)

/-- A patch that throws has bumped its key, and nothing of its call runs afterwards. -/
theorem covered_patchThrows {E : String → Prop} {r : Router V P} (hr : r.CoveredBut E)
    (hidle : r.turn = []) (key : String) (cause : Cause)
    (hleft : ∀ k, E k ∨ k = key → r.Loading k → r.Queued k ∨ (k ≠ key ∧ r.InLoad k)) :
    ({ r with resources := r.resources.bumpResourceEpoch key cause } : Router V P).AllCovered := by
  have h : Advance (fun k => E k ∨ k = key) [] [] r
      { r with resources := r.resources.bumpResourceEpoch key cause } :=
    { turn := ⟨r.turn, rfl, rfl⟩
      generation := rfl
      visit := rfl
      loads := fun _ hcall => .inl hcall
      queue := fun _ hq => hq
      outside := (Resources.outside_bump _ key cause).mono fun _ hk => .inr hk }
  refine h.coveredBut hr (fun _ _ hl => hl) (fun _ t ht => by cases ht)
    (fun hb k _ hl => hr.named (hb.of_suffix h.outside.suffix) k hl) (fun _ _ _ t ht => by cases ht)
    (fun _ _ t ht => by cases ht) (fun _ _ t ht => by cases ht) (fun _ hE => .inr (.inl hE))
    (fun hb k _ hk hl => ?_) (fun _ k _ _ ⟨t, ht, _⟩ => by rw [hidle] at ht; cases ht)
  rcases hleft k hk hl with hq | ⟨hne, hin⟩
  · exact .inl (.inr (.inl hq))
  · -- the other keys of the event keep the loads that hold them
    have he := Resources.currentEpoch_bump_ne (hr.exact (hb.of_suffix h.outside.suffix)) hb hne
    rcases hin with ⟨call, hcall, hh⟩ | ⟨t, ht, -⟩
    · exact .inl (.inl (.inl ⟨call, hcall, hh.congr rfl he⟩))
    · rw [hidle] at ht
      cases ht

theorem covered_stepPatchMutation {mutation : AppliedMutation P} {patches : List (String × List P)}
    (hr : r.AllCovered) (ht : r.turn = .patchMutation mutation patches :: rest)
    (hthrows : ∀ e ∈ patches.head?, patchOrInvalidate r.store r.now e.1 e.2 = none →
      r.Loading e.1 → r.Queued e.1) :
    (({ r with turn := rest } : Router V P).stepPatchMutation mutation patches).AllCovered := by
  cases patches with
  | nil =>
    exact covered_silent hr ht rfl rfl rfl rfl rfl rfl rfl rfl trivial
      (fun k hk => hk.elim id (Or.elim · id id)) fun _ h => h
  | cons e patches =>
    simp only [stepPatchMutation]
    split
    · next hpatch =>
      refine covered_write (W := (· = e.1)) hr ht rfl rfl rfl rfl rfl rfl
        ((Resources.outside_bump _ e.1 _).trans (Resources.outside_withStore _ fun k hk =>
          kept_patchOrInvalidate hpatch hk)) rfl
        (fun _ => trivial) (fun _ _ => ⟨id, id, id⟩) (fun _ h => h) (.inl rfl) fun k hk hl => ?_
      subst hk
      exact absurd hl (status_patchOrInvalidate_ne_loading hpatch)
    · next hpatch =>
      have hpop := covered_pop hr ht fun k hk => hk.elim id (Or.elim · id id)
      refine covered_patchThrows hpop (layered_tail hr ht rfl) e.1 _ fun k hk hl => .inl ?_
      have hkey := hk.resolve_left id
      subst hkey
      exact hthrows e rfl hpatch hl

theorem covered_stepInvalidateMutation_cons {mutation : AppliedMutation P} {key : String}
    {keys active : List String} (hr : r.AllCovered)
    (ht : r.turn = .invalidateMutation mutation (key :: keys) active :: rest) :
    (({ r with turn := rest } : Router V P).stepInvalidateMutation mutation (key :: keys)
      active).AllCovered := by
  simp only [stepInvalidateMutation]
  split
  · refine covered_write (W := (· = key)) hr ht rfl rfl rfl rfl rfl rfl
      ((Resources.outside_bump _ key _).trans (Resources.outside_withStore _ fun k hk =>
        ResourceStore.kept_markStale _ hk)) rfl (fun _ => trivial)
      (fun k _ => ⟨id, fun h => List.mem_append_left _ h, id⟩) (fun _ h => h) (.inl rfl)
      fun k hk hl => ?_
    subst hk
    exact ⟨ResourceStore.loading_of_markStale hl,
      List.mem_append_right _ (List.mem_singleton_self _)⟩
  · refine covered_write (W := (· = key)) hr ht rfl rfl rfl rfl rfl rfl
      ((Resources.outside_bump _ key _).trans (Resources.outside_withStore _ fun k hk =>
        .of_eq (ResourceStore.entry_invalidate_ne _ hk))) rfl (fun _ => trivial)
      (fun k _ => ⟨id, id, id⟩) (fun _ h => h) (.inl rfl) fun k hk hl => ?_
    subst hk
    refine absurd hl ?_
    show (ResourceStore.entry (ResourceStore.invalidate _ _) _).status ≠ _
    simp

/-- The queue of a live event takes over the keys that the event names. -/
theorem covered_queueLiveRefresh {t : Task V P} {keys : List String} {reason : LoadReason}
    (hr : r.AllCovered) (ht : r.turn = t :: rest)
    (hpromise : ∀ k, r.Promises t k → k ∈ keys) :
    (({ r with turn := rest } : Router V P).queueLiveRefresh keys reason).AllCovered := by
  -- What the part promised moves into the queue, whose timer is set by the same step.
  unfold queueLiveRefresh
  split
  · next hkeys =>
    exact covered_pop hr ht fun k hk => by simpa [hkeys] using hpromise k hk
  · have h : Advance (fun _ => False) [t] [] r
        { r with
          turn := rest
          pendingLiveRefreshKeys := unique (r.pendingLiveRefreshKeys ++ keys)
          pendingLiveRefreshReason :=
            if reason = .liveReconnect then .liveReconnect else r.pendingLiveRefreshReason
          liveRefreshTimer := true } :=
      { turn := ⟨rest, ht, rfl⟩
        generation := rfl
        visit := rfl
        loads := fun _ hcall => .inl hcall
        queue := fun k hq => ⟨by simp [hq.1], rfl⟩
        outside := .refl _ _ }
    refine h.coveredBut hr (fun _ _ hl => hl.2) (fun _ t ht => by cases ht) (fun _ _ hk => hk.elim)
      (fun k _ _ s hs hin => .inr (.inl ⟨?_, rfl⟩)) (fun k _ s hs hsh => .inl (.inr (.inl ⟨?_, rfl⟩)))
      (fun _ _ t ht => by cases ht) (fun _ hE => .inl hE) (fun _ _ _ hk => hk.elim)
      (fun _ _ _ hk => hk.elim)
    -- a key of the part's own load or pledge is among the queued keys
    · rw [List.mem_singleton] at hs
      subst hs
      have := hpromise k (hin.elim .inl fun hp => .inr (.inl hp))
      simp [this]
    -- and so is a key that it was to show
    · rw [List.mem_singleton] at hs
      subst hs
      have := hpromise k (.inr (.inr hsh))
      simp [this]

theorem covered_stepPatchLive {keys : List String} {servedAt : Nat}
    {patches : List (String × List P)} (hr : r.AllCovered)
    (ht : r.turn = .patchLive keys patches servedAt :: rest)
    (hthrows : ∀ e ∈ patches.head?, patchIfHeld r.store r.now e.1 e.2 = none →
      ∀ k ∈ keys, r.Loading k →
        r.Queued k ∨ (k ≠ e.1 ∧ ({ r with turn := rest } : Router V P).InLoad k)) :
    (({ r with turn := rest } : Router V P).stepPatchLive keys servedAt patches).AllCovered := by
  cases patches with
  | nil => exact covered_queueLiveRefresh hr ht fun k hk => hk.elim False.elim (Or.elim · id False.elim)
  | cons e patches =>
    have hformed := hr.formed _ (ht ▸ List.mem_cons_self ..)
    simp only [stepPatchLive]
    split
    -- the patch applies: the bump is the write's own, and the other keys stay pledged
    · next hpatch =>
      refine covered_write (W := (· = e.1)) hr ht rfl rfl rfl rfl rfl rfl
        ((Resources.outside_bump _ e.1 _).trans (Resources.outside_withStore _ fun k hk =>
          kept_patchIfHeld hpatch hk)) rfl
        (fun h f hf => h f (List.mem_cons_of_mem _ hf)) (fun _ _ => ⟨id, id, id⟩) (fun _ h => h)
        (.inl rfl) fun k hk hl => ?_
      subst hk
      exact ⟨loading_of_patchIfHeld hpatch hl, hformed e (List.mem_cons_self ..)⟩
    -- The patch throws: the key is bumped, and the rest of the event is dropped with its pledges.
    · next hpatch =>
      refine covered_patchThrows (coveredBut_pop hr ht) (layered_tail hr ht rfl) e.1 _ fun k hk hl =>
        hthrows e rfl hpatch k ?_ hl
      rcases hk with (hfalse | hfalse | hkeys | hfalse) | rfl
      · exact hfalse.elim
      · exact hfalse.elim
      · exact hkeys
      · exact hfalse.elim
      · exact hformed e (List.mem_cons_self ..)

theorem covered_stepInvalidateLive {keys names : List String} {reason : LoadReason}
    {servedAt : Nat} (hr : r.AllCovered)
    (ht : r.turn = .invalidateLive keys names reason servedAt :: rest) :
    (({ r with turn := rest } : Router V P).stepInvalidateLive keys reason servedAt names).AllCovered := by
  cases names with
  | nil => exact covered_queueLiveRefresh hr ht fun k hk => hk.elim False.elim (Or.elim · id False.elim)
  | cons key names =>
    have hformed := hr.formed _ (ht ▸ List.mem_cons_self ..)
    refine covered_write (W := (· = key)) hr ht rfl rfl rfl rfl rfl rfl
      ((Resources.outside_bump _ key _).trans (Resources.outside_withStore _ fun k hk =>
        ResourceStore.kept_markStale _ hk)) rfl
      (fun h f hf => h f (List.mem_cons_of_mem _ hf)) (fun _ _ => ⟨id, id, id⟩) (fun _ h => h)
      (.inl rfl) fun k hk hl => ?_
    subst hk
    exact ⟨ResourceStore.loading_of_markStale hl, hformed k (List.mem_cons_self ..)⟩

end Tasks

end Router

end FluxFast.Core
