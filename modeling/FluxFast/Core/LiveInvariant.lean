import FluxFast.Core.LiveManager

/-!
# LiveInvariant — what every transition of the live manager keeps

A stream that resumes an unchanged manifest must be opened as a reconnect, since only a connection
with a positive attempt number raises a resync.  Every transition opens it so, except `connect`,
whose attempt number is always zero: `Reopens` is the state in which that call breaks the rule.
-/

namespace FluxFast.Core

namespace LiveManager

structure Sound (m : LiveManager) : Prop where
  resumed_attempt : ∀ c, m.connection = some c → c.resumed = true → 0 < c.reconnectAttempt
  timer_attempt : ∀ attempt, m.reconnectTimer = some attempt → 0 < attempt
  manifest_keys : ∀ f, m.manifest = some f → f.keys ≠ []
  connection_manifest : ∀ c, m.connection = some c → m.manifest ≠ none

/-- A call of `connect()` would open a stream again for a manifest that had one. -/
def Reopens (m : LiveManager) : Prop :=
  m.streamed = true ∧ m.manifest ≠ none ∧ m.connection = none ∧ m.reconnectTimer = none ∧
    m.online = true

instance (m : LiveManager) : Decidable m.Reopens :=
  inferInstanceAs (Decidable (_ ∧ _ ∧ _ ∧ _ ∧ _))

variable {m : LiveManager}

theorem sound_default : ({} : LiveManager).Sound :=
  ⟨by simp, by simp, by simp, by simp⟩

/-- Transitions that close the stream and the timer and keep the manifest. -/
theorem Sound.closed (h : m.Sound) {n : LiveManager} (hc : n.connection = none)
    (ht : n.reconnectTimer = none) (hm : n.manifest = m.manifest) : n.Sound where
  resumed_attempt c hcn := by simp [hc] at hcn
  timer_attempt a ha := by simp [ht] at ha
  manifest_keys f hf := h.manifest_keys f (hm ▸ hf)
  connection_manifest c hcn := by simp [hc] at hcn

/-- Transitions that do not touch the stream, the timer and the manifest. -/
theorem Sound.congr (h : m.Sound) {n : LiveManager} (hc : n.connection = m.connection)
    (ht : n.reconnectTimer = m.reconnectTimer) (hm : n.manifest = m.manifest) : n.Sound where
  resumed_attempt c hcn := h.resumed_attempt c (hc ▸ hcn)
  timer_attempt a ha := h.timer_attempt a (ht ▸ ha)
  manifest_keys f hf := h.manifest_keys f (hm ▸ hf)
  connection_manifest c hcn := hm ▸ h.connection_manifest c (hc ▸ hcn)

theorem Sound.cancelReconnect (h : m.Sound) : m.cancelReconnect.Sound :=
  ⟨h.resumed_attempt, by simp [LiveManager.cancelReconnect], h.manifest_keys,
    h.connection_manifest⟩

theorem Sound.stopConnection (h : m.Sound) : m.stopConnection.Sound :=
  ⟨by simp [LiveManager.stopConnection], h.timer_attempt, h.manifest_keys,
    by simp [LiveManager.stopConnection]⟩

theorem Sound.setOffline (h : m.Sound) (attempt : Nat) : (m.setOffline attempt).Sound :=
  h.cancelReconnect.congr rfl rfl rfl

theorem Sound.scheduleReconnect (h : m.Sound) (errorState : Bool) :
    (m.scheduleReconnect errorState).Sound := by
  unfold LiveManager.scheduleReconnect
  dsimp only
  by_cases hidle : m.cancelReconnect.desired = false ∨ m.cancelReconnect.manifest = none
  · rw [if_pos hidle]
    exact h.cancelReconnect
  rw [if_neg hidle]
  by_cases honline : m.cancelReconnect.online = false
  · rw [if_pos honline]
    exact h.cancelReconnect.setOffline _
  rw [if_neg honline]
  refine ⟨h.resumed_attempt, fun a ha => ?_, h.manifest_keys, h.connection_manifest⟩
  dsimp only at ha
  split at ha
  · have := Option.some.inj ha
    omega
  · cases ha

theorem Sound.handleConnectionError (h : m.Sound) : m.handleConnectionError.Sound := by
  have hclosed : ({ m with connection := none } : LiveManager).Sound :=
    ⟨by simp, h.timer_attempt, h.manifest_keys, by simp⟩
  unfold LiveManager.handleConnectionError
  dsimp only
  split_ifs
  · exact hclosed.scheduleReconnect true
  · exact hclosed.congr rfl rfl rfl

/-- Opening a stream is sound for a first stream, and as a reconnect. -/
theorem Sound.startConnection (h : m.Sound) (status : LiveConnectionStatus) {attempt : Nat}
    (ha : m.streamed = true → 0 < attempt) : (m.startConnection status attempt).Sound := by
  unfold LiveManager.startConnection
  by_cases hidle : m.manifest = none ∨ m.desired = false ∨ m.connection ≠ none
  · rw [if_pos hidle]
    exact h
  rw [if_neg hidle]
  dsimp only
  by_cases hfails : m.connectFails = true
  · rw [if_pos hfails]
    exact Sound.handleConnectionError ⟨h.resumed_attempt, h.timer_attempt, h.manifest_keys,
      h.connection_manifest⟩
  rw [if_neg hfails]
  refine ⟨fun c hc hr => ?_, h.timer_attempt, h.manifest_keys, fun c _ hnone => hidle (.inl hnone)⟩
  have hc := Option.some.inj hc
  subst hc
  exact ha hr

theorem normalizeManifest_keys {url : String} {keys : List String} {f : LiveManifest}
    (h : normalizeManifest url keys = .ok (some f)) :
    f.url = url ∧ f.keys ≠ [] ∧ ∀ k, k ∈ f.keys ↔ k ∈ keys := by
  unfold normalizeManifest at h
  by_cases hkeys : keys = []
  · simp [hkeys] at h
  by_cases hurl : url = ""
  · simp [hkeys, hurl] at h
  rw [if_neg hkeys, if_neg hurl] at h
  cases hser : LiveTransport.serializeLiveKeys keys with
  | error message => simp [hser] at h
  | ok normalized =>
    simp only [hser, Except.ok.injEq, Option.some.injEq] at h
    subst h
    have hmem := fun k => LiveTransport.mem_of_serializeLiveKeys (k := k) hser
    refine ⟨rfl, ?_, hmem⟩
    obtain ⟨k, hk⟩ := List.exists_mem_of_ne_nil keys hkeys
    exact List.ne_nil_of_mem ((hmem k).mpr hk)

theorem sound_replaceManifest (h : m.Sound) {next : Option LiveManifest}
    (hnext : ∀ f, next = some f → f.keys ≠ []) : (m.replaceManifest next).Sound := by
  have hreplaced : ∀ subscribed,
      ({ m.cancelReconnect.stopConnection with
        manifest := next, snapshot := {}, streamed := false, networkSubscribed := subscribed } :
        LiveManager).Sound :=
    fun _ => ⟨by simp [LiveManager.stopConnection], h.cancelReconnect.timer_attempt, hnext,
      by simp [LiveManager.stopConnection]⟩
  unfold replaceManifest
  dsimp only
  split_ifs
  · exact (hreplaced true).startConnection _ (by simp)
  · exact (hreplaced true).setOffline _
  · exact hreplaced false
  · exact hreplaced _

theorem sound_updateManifest (h : m.Sound) {url : String} {keys : List String}
    {n : LiveManager} (hn : m.updateManifest url keys = .ok n) : n.Sound := by
  unfold updateManifest at hn
  cases hnorm : normalizeManifest url keys with
  | error message => simp [hnorm] at hn
  | ok next =>
    simp only [hnorm, Except.ok.injEq] at hn
    subst hn
    split_ifs
    · exact h
    · exact sound_replaceManifest h fun f hf => (normalizeManifest_keys (hf ▸ hnorm)).2.1

theorem Sound.connect (h : m.Sound) (hreopen : ¬m.Reopens) : m.connect.Sound := by
  unfold LiveManager.connect
  dsimp only
  by_cases hidle : m.manifest = none ∨ m.connection ≠ none ∨ m.reconnectTimer ≠ none
  · rw [if_pos hidle]
    exact h.congr rfl rfl rfl
  rw [if_neg hidle]
  simp only [not_or, not_not] at hidle
  obtain ⟨hmanifest, hconnection, htimer⟩ := hidle
  have hdesired : ({ m with desired := true, networkSubscribed := true } : LiveManager).Sound :=
    h.congr rfl rfl rfl
  split_ifs with honline
  · refine hdesired.startConnection _ fun hstreamed => ?_
    exact absurd ⟨hstreamed, hmanifest, hconnection, htimer, honline⟩ hreopen
  · exact hdesired.setOffline _

theorem Sound.disconnect (h : m.Sound) : m.disconnect.Sound :=
  h.closed rfl rfl rfl

theorem Sound.reconnect (h : m.Sound) : m.reconnect.Sound := by
  have hclosed : (({ m with desired := true, networkSubscribed := true } : LiveManager
      ).cancelReconnect.stopConnection).Sound := h.closed rfl rfl rfl
  unfold LiveManager.reconnect
  dsimp only
  split_ifs
  · exact h.congr rfl rfl rfl
  · exact hclosed.startConnection _ fun _ => Nat.succ_pos _
  · exact hclosed.setOffline _

theorem sound_clear (h : m.Sound) : m.clear.Sound :=
  ⟨by simp [LiveManager.clear, LiveManager.stopConnection],
    (h.cancelReconnect.stopConnection).timer_attempt, by simp [LiveManager.clear],
    by simp [LiveManager.clear, LiveManager.stopConnection]⟩

theorem Sound.reconnectTimerFires (h : m.Sound) {attempt : Nat} (ha : 0 < attempt) :
    (m.reconnectTimerFires attempt).Sound := by
  have hfired : ({ m with reconnectTimer := none } : LiveManager).Sound :=
    ⟨h.resumed_attempt, by simp, h.manifest_keys, h.connection_manifest⟩
  unfold LiveManager.reconnectTimerFires
  dsimp only
  split_ifs
  · exact hfired
  · exact hfired.startConnection _ fun _ => ha
  · exact hfired.setOffline _

theorem Sound.handleOnline (h : m.Sound) : m.handleOnline.Sound := by
  unfold LiveManager.handleOnline
  split_ifs
  · exact h
  · exact h.cancelReconnect.startConnection _ fun _ => by omega

theorem Sound.handleOffline (h : m.Sound) : m.handleOffline.Sound := by
  unfold LiveManager.handleOffline
  split_ifs
  · exact h
  all_goals exact h.cancelReconnect.stopConnection.setOffline _

theorem Sound.streamEnds (h : m.Sound) : m.streamEnds.Sound := by
  have hclosed : ({ m with connection := none } : LiveManager).Sound :=
    ⟨by simp, h.timer_attempt, h.manifest_keys, by simp⟩
  unfold LiveManager.streamEnds
  dsimp only
  split_ifs
  · exact hclosed.scheduleReconnect false
  · exact hclosed.congr rfl rfl rfl

theorem Sound.receive {P : Type} (h : m.Sound) (connection : LiveConnection) (now : Nat)
    (event : LiveEvent P) : (m.receive connection now event).1.Sound := by
  unfold LiveManager.receive
  split
  · dsimp only
    split
    · split_ifs <;> exact h.congr rfl rfl rfl
    · exact h.congr rfl rfl rfl
  · exact h.congr rfl rfl rfl

end LiveManager

end FluxFast.Core
