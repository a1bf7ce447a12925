import FluxFast.Theory.Asking
import Mathlib.Algebra.Order.Ring.Rat

/-!
# Supervisor — the production supervisor and its two children

`ProductionSupervisor` of `production/supervisor.py`.  Every call to a child, a probe, the clock,
`sleep` or the `signal` module takes an answer from the surroundings, and a signal may come with it.
The traces of the calls are there for the statements only.
-/

namespace FluxFast.Server

open FluxFast.Theory

namespace Supervisor

inductive Child
  | backend
  | frontend
  deriving DecidableEq

inductive SupervisorState
  | initializing
  | backendStarting
  | backendReady
  | frontendStarting
  | ready
  | shuttingDown
  | stopped
  | failed
  deriving DecidableEq

inductive Signum
  | sigterm
  | sigint
  deriving DecidableEq

inductive Call
  | start (child : Child)
  | poll (child : Child)
  | probe (child : Child)
  | clock
  | sleep
  | stopTree (child : Child)
  | terminate (child : Child)
  | wait (child : Child)
  | kill (child : Child)
  | waitKilled (child : Child)
  deriving DecidableEq

/-- A call to the `signal` module. -/
inductive SignalCall
  | getsignal (signum : Signum)
  | setsignal (signum : Signum)
  deriving DecidableEq

/-- What the surroundings answer; a call looks at what it returns. -/
structure Answer where
  signal : Option Signum := none
  /-- The handler of the signal raises, where it is not the supervisor's own. -/
  handlerRaises : Bool := false
  /-- The call raises an `Exception`. -/
  raises : Bool := false
  /-- For `start`: the process is there although the call raised. -/
  spawned : Bool := false
  /-- For `wait`: the exception is `TimeoutExpired`. -/
  expired : Bool := false
  exitCode : Option Int := none
  ready : Bool := false
  time : ℚ := 0

inductive Error
  | cannotStart (state : SupervisorState)
  | cannotMonitor (state : SupervisorState)
  | exitedBeforeReadiness (child : Child) (code : Int)
  | notReadyInTime (child : Child)
  | childExited (child : Child) (code : Int)
  | shutdownRequested
  | raised (call : Call)
  | signalRaised (call : SignalCall)
  /-- The `TypeError` of `signal.signal(signum, None)`. -/
  | noHandler (signum : Signum)
  deriving DecidableEq

inductive Handler (H : Type)
  | previous (handler : H)
  /-- A handler that was not installed from Python, for which `getsignal` gives `None`. -/
  | unknown
  | requestShutdown
  deriving DecidableEq

structure Signals (H : Type) where
  handlers : Signum → Handler H
  /-- The calls to the `signal` module, and whether they raised. -/
  calls : List (SignalCall × Bool) := []

/-- A call in the trace, with the state it was made in. -/
structure Event where
  state : SupervisorState
  call : Call
  raised : Bool
  /-- For `poll`: it gave an exit code. -/
  exited : Bool
  deriving DecidableEq

structure Production (H : Type) where
  state : SupervisorState := .initializing
  shutdownRequested : Bool := false
  /-- Whether `child.process` is there. -/
  process : Child → Bool := fun _ => false
  signals : Signals H
  trace : List Event := []

structure ProductionConfig where
  startupTimeout : ℚ
  shutdownTimeout : ℚ
  pollInterval : ℚ
  /-- Whether the child has a `_stop_tree`. -/
  stopsTree : Child → Bool

variable {H : Type}

abbrev Supervising (H : Type) := Asking (Production H) Answer Error

/-- `_request_shutdown`, where it is installed. -/
def Production.receive (s : Production H) : Option Signum → Production H
  | none => s
  | some signum =>
    match s.signals.handlers signum with
    | .requestShutdown => { s with shutdownRequested := true }
    | .previous _ | .unknown => s

/-- A handler other than the supervisor's own raises. -/
def Production.interrupted (s : Production H) (answer : Answer) : Bool :=
  match answer.signal with
  | none => false
  | some signum =>
    match s.signals.handlers signum with
    | .requestShutdown => false
    | .previous _ | .unknown => answer.handlerRaises

def Production.record (s : Production H) (answer : Answer) (call : Call) (raised : Bool) :
    Production H :=
  { s.receive answer.signal with
    trace := s.trace ++ [⟨s.state, call, raised, answer.exitCode.isSome⟩] }

/-! ## Calls -/

/-- A call while the supervisor's own handlers are installed. -/
def call (c : Call) : Supervising H Answer := do
  let answer ← Asking.ask
  Asking.change fun s => s.record answer c answer.raises
  if answer.raises then Asking.raise (.raised c) else return answer

/-- `self._monotonic()`; the clock does not raise. -/
def monotonic : Supervising H ℚ := do
  let answer ← Asking.ask
  Asking.change fun s => s.record answer .clock false
  return answer.time

/-- `child.start()`. -/
def startChild (child : Child) : Supervising H Unit := do
  let answer ← Asking.ask
  Asking.change fun s =>
    { s.record answer (.start child) answer.raises with
      process := fun c =>
        if c = child then s.process c || !answer.raises || answer.spawned else s.process c }
  if answer.raises then Asking.raise (.raised (.start child)) else return

/-- `child.wait(timeout=remaining)`: whether `TimeoutExpired` was raised. -/
def waitChild (child : Child) : Supervising H Bool := do
  let answer ← Asking.ask
  let raised := answer.raises && !answer.expired
  Asking.change fun s => s.record answer (.wait child) raised
  if raised then Asking.raise (.raised (.wait child)) else return answer.raises

/-- A call to the `signal` module.  It handles pending signals first. -/
def signalCall (c : SignalCall) : Supervising H Unit := do
  let answer ← Asking.ask
  let interrupted ← Asking.read fun s => s.interrupted answer
  let raised := interrupted || answer.raises
  Asking.change fun s => { s.receive answer.signal with
    signals := { s.signals with calls := s.signals.calls ++ [(c, raised)] } }
  if raised then Asking.raise (.signalRaised c) else return

/-- `signal.getsignal(signum)`, with `unknown` for `None`. -/
def getsignal (signum : Signum) : Supervising H (Handler H) := do
  signalCall (.getsignal signum)
  Asking.read fun s => s.signals.handlers signum

def Production.handle (s : Production H) (signum : Signum) (handler : Handler H) : Production H :=
  { s with signals := { s.signals with
      handlers := Function.update s.signals.handlers signum handler } }

/-- `signal.signal(signum, handler)`. -/
def setsignal (signum : Signum) (handler : Handler H) : Supervising H Unit := do
  signalCall (.setsignal signum)
  match handler with
  | .unknown => Asking.raise (.noHandler signum)
  | .previous _ | .requestShutdown => Asking.change (·.handle signum handler)

def setState (state : SupervisorState) : Supervising H Unit :=
  Asking.change fun s => { s with state }

/-! ## Stopping -/

variable (config : ProductionConfig)

/-- The body of the `try` in `_stop_started_children`. -/
def stopChild (child : Child) : Supervising H Unit := do
  if config.stopsTree child then
    let _now ← monotonic
    let _answer ← call (.stopTree child)
  else
    let answer ← call (.poll child)
    if answer.exitCode.isSome then return
    let _answer ← call (.terminate child)
    let _now ← monotonic
    if ← waitChild child then
      let _answer ← call (.kill child)
      let _answer ← call (.waitKilled child)

def firstError : Option Error → Except Error Unit → Option Error
  | some error, _ => some error
  | none, .error error => some error
  | none, .ok _ => none

/-- One turn of the loop over the children. -/
def stopStarted (child : Child) (first : Option Error) : Supervising H (Option Error) := do
  if ← Asking.read fun s => s.process child then
    let result ← Asking.attempt (stopChild config child)
    return firstError first result
  else return first

def stopStartedChildren : Supervising H Unit := do
  let _deadline ← monotonic
  let first ← stopStarted config .frontend none
  let first ← stopStarted config .backend first
  match first with
  | some error => Asking.raise error
  | none => return

def fail : Supervising H Unit := do
  setState .failed
  stopStartedChildren config

def shutdown : Supervising H Unit := do
  let state ← Asking.read (·.state)
  if state = .stopped then return
  else if state = .failed then stopStartedChildren config
  else
    setState .shuttingDown
    stopStartedChildren config
    setState .stopped

/-! ## Starting -/

/-- One round of `_wait_until_ready`. -/
def readinessRound (child : Child) (deadline : ℚ) : Supervising H (Option Unit) := do
  if ← Asking.read (·.shutdownRequested) then Asking.raise .shutdownRequested
  else
    let answer ← call (.poll child)
    match answer.exitCode with
    | some code => Asking.raise (.exitedBeforeReadiness child code)
    | none =>
      let answer ← call (.probe child)
      if answer.ready then return some ()
      else
        let now ← monotonic
        if deadline - now ≤ 0 then Asking.raise (.notReadyInTime child)
        else
          let _answer ← call .sleep
          return none

def waitUntilReady (child : Child) : Supervising H Unit := do
  let now ← monotonic
  Asking.forever (readinessRound child (now + config.startupTimeout))

/-- The body of the `try` in `start`. -/
def startChildren : Supervising H Unit := do
  setState .backendStarting
  startChild .backend
  waitUntilReady config .backend
  setState .backendReady
  setState .frontendStarting
  startChild .frontend
  waitUntilReady config .frontend
  setState .ready

def start : Supervising H Unit := do
  let state ← Asking.read (·.state)
  if state ≠ .initializing then Asking.raise (.cannotStart state)
  else
    match ← Asking.attempt (startChildren config) with
    | .ok _ => return
    | .error .shutdownRequested =>
      shutdown config
      Asking.raise .shutdownRequested
    | .error error =>
      fail config
      Asking.raise error

/-! ## Monitoring -/

/-- A child in the loop of `monitor`. -/
def checkChild (child : Child) : Supervising H Unit := do
  let answer ← call (.poll child)
  match answer.exitCode with
  | some code =>
    fail config
    Asking.raise (.childExited child code)
  | none => return

def monitorRound : Supervising H (Option Int) := do
  if ← Asking.read (·.shutdownRequested) then
    shutdown config
    return some 0
  else
    checkChild config .backend
    checkChild config .frontend
    let _answer ← call .sleep
    return none

def monitor : Supervising H Int := do
  let state ← Asking.read (·.state)
  if state ≠ .ready then Asking.raise (.cannotMonitor state)
  else Asking.forever (monitorRound config)

def startAndMonitor : Supervising H Int := do
  start config
  monitor config

/-- The result of `run`, where the handlers are back. -/
def outcome : Except Error Int → Supervising H Int
  | .ok code => return code
  | .error .shutdownRequested => return 0
  | .error error => Asking.raise error

def run : Supervising H Int := do
  let previousTerm ← getsignal .sigterm
  let previousInt ← getsignal .sigint
  setsignal .sigterm .requestShutdown
  setsignal .sigint .requestShutdown
  let result ← Asking.attempt (startAndMonitor config)
  -- what the `finally` raises replaces the result
  setsignal .sigterm previousTerm
  setsignal .sigint previousInt
  outcome result

/-- A supervisor before its run. -/
def fresh (previous : Signum → Option H) : Production H where
  signals := { handlers := fun signum => (previous signum).elim .unknown .previous }

/-! ## What a run leaves behind -/

/-- Stops are attempted in these states only. -/
def SupervisorState.stopping : SupervisorState → Bool
  | .shuttingDown | .failed => true
  | _ => false

def Call.isPoll : Call → Bool
  | .poll _ => true
  | _ => false

def Call.isStart : Call → Bool
  | .start _ => true
  | _ => false

/-- An attempt to stop the child: its tree is stopped, it is told to terminate, or it was asked and
is gone already. -/
def Event.isAttempt (e : Event) (child : Child) : Bool :=
  e.state.stopping && (e.call = .stopTree child || e.call = .terminate child ||
    (e.call = .poll child && e.exited && !e.raised))

/-- An exception that no `try` is ready for: of a call while monitoring, of one in a requested
shutdown, or of the `poll` before a child without `_stop_tree` is told to terminate. -/
def Event.isFault (e : Event) : Bool :=
  e.raised && (e.state = .ready || e.state = .shuttingDown ||
    (e.state = .failed && e.call.isPoll))

/-- Every child that was started is tried, the frontend before the backend. -/
structure Halted (process : Child → Bool) (after : List Event) : Prop where
  attempted : ∀ child, process child = true → ∃ e ∈ after, e.isAttempt child = true
  ordered : process .frontend = true → process .backend = true → ∃ front back, after = front ++ back ∧
    (∃ e ∈ front, e.isAttempt .frontend = true) ∧ ∀ e ∈ front, e.isAttempt .backend = false

/-- After the last start every child is tried. -/
def Stopped (process : Child → Bool) (trace : List Event) : Prop :=
  ∃ before after, trace = before ++ after ∧ (∀ e ∈ after, e.call.isStart = false) ∧
    Halted process after

/-- No orphan is left, and the supervisor is at its end. -/
def AtRest (s : Production H) : Prop :=
  (s.state = .stopped ∨ s.state = .failed) ∧ Stopped s.process s.trace

/-! ## Loops -/

/-- A call draws an answer, whether it returns or raises. -/
theorem draws_call (c : Call) : Asking.Draws (call (H := H) c) 1 := by
  apply Asking.draws_ask.bind (m := 0)
  intro answer
  apply (Asking.draws_change _).bind (m := 0)
  intro _
  split
  · exact Asking.draws_raise _ _
  · exact Asking.draws_pure _

theorem draws_readinessRound (child : Child) (deadline : ℚ) :
    Asking.Draws (readinessRound (H := H) child deadline) 1 := by
  apply (Asking.draws_read _).bind (m := 1)
  intro requested
  split
  · exact Asking.draws_raise _ _
  · apply (draws_call _).bind (m := 0)
    intro answer
    split
    · exact Asking.draws_raise _ _
    · refine ((draws_call _).bind (m := 0) fun answer => ?_).weaken (Nat.zero_le _)
      split
      · exact Asking.draws_pure _
      · have hclock : Asking.Draws (monotonic (H := H)) 0 := by
          refine (Asking.draws_ask.bind (m := 0) fun answer => ?_).weaken (Nat.zero_le _)
          exact (Asking.draws_change _).bind fun _ => Asking.draws_pure _
        apply hclock.bind (m := 0)
        intro now
        split
        · exact Asking.draws_raise _ _
        · exact ((draws_call _).bind fun _ => Asking.draws_pure _).weaken (Nat.zero_le _)

/-- The loop of `_wait_until_ready` has no other bound than the answers. -/
theorem forever_readinessRound (child : Child) (deadline : ℚ) :
    Asking.forever (readinessRound (H := H) child deadline) =
      readinessRound child deadline >>= Asking.onward (readinessRound child deadline) :=
  Asking.forever_eq (draws_readinessRound child deadline).asks

theorem draws_checkChild (config : ProductionConfig) (child : Child) :
    Asking.Draws (checkChild (H := H) config child) 1 := by
  apply (draws_call _).bind (m := 0)
  intro answer
  split
  · intro s as a s' as' hrun
    rw [Asking.bind_eq] at hrun
    -- what the failure path raises ends the loop
    cases hfail : fail config s as with
    | none =>
      rw [hfail] at hrun
      cases hrun
    | some failed =>
      obtain ⟨result, s₁, as₁⟩ := failed
      rw [hfail] at hrun
      cases result <;> cases hrun
  · exact Asking.draws_pure _

/-- And so has the loop of `monitor`. -/
theorem forever_monitorRound (config : ProductionConfig) :
    Asking.forever (monitorRound (H := H) config) =
      monitorRound config >>= Asking.onward (monitorRound config) := by
  apply Asking.forever_eq
  apply Asking.asks_read
  intro requested
  split
  · exact Asking.asks_last _ _
  · have hbackend := draws_checkChild (H := H) config .backend
    refine Asking.Draws.asks (n := 0) ((hbackend.bind (m := 0) fun _ => ?_).weaken (by omega))
    refine ((draws_checkChild config .frontend).bind (m := 0) fun _ => ?_).weaken (Nat.zero_le _)
    exact ((draws_call _).bind fun _ => Asking.draws_pure _).weaken (Nat.zero_le _)

/-! ## Calls and the trace -/

/-- `s` came from `s₀` by the calls of `seg`. -/
structure Extends (s₀ s : Production H) (seg : List Event) : Prop where
  trace : s.trace = s₀.trace ++ seg
  state : s.state = s₀.state
  process : s.process = s₀.process
  signals : s.signals = s₀.signals
  requested : s₀.shutdownRequested = true → s.shutdownRequested = true

theorem Extends.refl (s : Production H) : Extends s s [] :=
  ⟨(List.append_nil _).symm, rfl, rfl, rfl, id⟩

theorem Extends.trans {s₀ s₁ s₂ : Production H} {seg seg' : List Event} (h : Extends s₀ s₁ seg)
    (h' : Extends s₁ s₂ seg') : Extends s₀ s₂ (seg ++ seg') :=
  ⟨by rw [h'.trace, h.trace, List.append_assoc], h'.state.trans h.state,
    h'.process.trans h.process, h'.signals.trans h.signals, fun hs => h'.requested (h.requested hs)⟩

theorem receive_extends (s : Production H) (signal : Option Signum) :
    Extends s (s.receive signal) [] := by
  unfold Production.receive
  split
  · exact .refl s
  · split
    · exact ⟨(List.append_nil _).symm, rfl, rfl, rfl, fun _ => rfl⟩
    all_goals exact .refl s

theorem record_extends (s : Production H) (answer : Answer) (c : Call) (raised : Bool) :
    Extends s (s.record answer c raised) [⟨s.state, c, raised, answer.exitCode.isSome⟩] := by
  have h := receive_extends s answer.signal
  exact ⟨rfl, h.state, h.process, h.signals, h.requested⟩

/-- One more call at the end of a segment. -/
theorem Extends.record {s₀ s : Production H} {seg : List Event} (h : Extends s₀ s seg)
    (answer : Answer) (c : Call) (raised : Bool) : Extends s₀ (s.record answer c raised)
      (seg ++ [⟨s₀.state, c, raised, answer.exitCode.isSome⟩]) := by
  have hrecord := h.trans (record_extends s answer c raised)
  rwa [h.state] at hrecord

section Rules

variable {s₀ : Production H} {seg : List Event} {α : Type}

/-- A call is one more event, whatever the answer. -/
theorem ensures_recorded (c : Call) (raised : Answer → Bool) {next : Answer → Supervising H α}
    {Q : Except Error α → Production H → Prop}
    (h : ∀ answer : Answer, Asking.Ensures
      (Extends s₀ · (seg ++ [⟨s₀.state, c, raised answer, answer.exitCode.isSome⟩]))
      (next answer) Q) :
    Asking.Ensures (Extends s₀ · seg) (do
      let answer ← Asking.ask
      Asking.change fun s => s.record answer c (raised answer)
      next answer) Q := by
  refine Asking.Ensures.bind (R := fun r s => ∃ a, r = .ok a ∧ Extends s₀ s seg)
    (Asking.ensures_ask fun s a hs => ⟨a, rfl, hs⟩) (fun answer => ?_) (by simp)
  refine Asking.Ensures.bind (R := fun r s => r = .ok () ∧ Extends s₀ s
    (seg ++ [⟨s₀.state, c, raised answer, answer.exitCode.isSome⟩]))
    (Asking.ensures_change fun s hs => ?_) (fun _ => ?_) (by simp)
  · obtain ⟨a, -, hs⟩ := hs
    exact ⟨rfl, hs.record answer c (raised answer)⟩
  · exact (h answer).weaken (fun s hs => hs.2) fun r s hs => hs

/-- What follows a call, and what is left where it raises. -/
theorem call_then (c : Call) {next : Answer → Supervising H α}
    {Q : Except Error α → Production H → Prop}
    (hok : ∀ answer : Answer, Asking.Ensures
      (Extends s₀ · (seg ++ [⟨s₀.state, c, false, answer.exitCode.isSome⟩])) (next answer) Q)
    (herror : ∀ s exited, Extends s₀ s (seg ++ [⟨s₀.state, c, true, exited⟩]) →
      Q (.error (.raised c)) s) :
    Asking.Ensures (Extends s₀ · seg) (call c >>= next) Q := by
  have hcall : Asking.Ensures (Extends s₀ · seg) (call c) fun r s =>
      match r with
      | .ok answer => Extends s₀ s (seg ++ [⟨s₀.state, c, false, answer.exitCode.isSome⟩])
      | .error error => error = .raised c ∧
        ∃ exited, Extends s₀ s (seg ++ [⟨s₀.state, c, true, exited⟩]) := by
    refine ensures_recorded c (·.raises) fun answer => ?_
    cases answer.raises with
    | true => exact Asking.ensures_raise fun s h => ⟨rfl, _, h⟩
    | false => exact Asking.ensures_pure fun s h => h
  refine hcall.bind hok fun error s h => ?_
  obtain ⟨rfl, exited, hs⟩ := h
  exact herror s exited hs

theorem monotonic_then {next : ℚ → Supervising H α} {Q : Except Error α → Production H → Prop}
    (hok : ∀ now exited, Asking.Ensures
      (Extends s₀ · (seg ++ [⟨s₀.state, .clock, false, exited⟩])) (next now) Q) :
    Asking.Ensures (Extends s₀ · seg) (monotonic >>= next) Q := by
  have hclock : Asking.Ensures (Extends s₀ · seg) monotonic fun r s =>
      ∃ now exited, r = .ok now ∧ Extends s₀ s (seg ++ [⟨s₀.state, .clock, false, exited⟩]) :=
    ensures_recorded .clock (fun _ => false) fun answer =>
      Asking.ensures_pure fun s h => ⟨_, _, rfl, h⟩
  refine hclock.bind (fun now s as r s' as' hs hrun => ?_) (by simp)
  obtain ⟨now, exited, -, hs⟩ := hs
  exact hok _ exited s as r s' as' hs hrun

theorem wait_then (child : Child) {next : Bool → Supervising H α}
    {Q : Except Error α → Production H → Prop}
    (hok : ∀ expired exited, Asking.Ensures
      (Extends s₀ · (seg ++ [⟨s₀.state, .wait child, false, exited⟩])) (next expired) Q)
    (herror : ∀ s exited, Extends s₀ s (seg ++ [⟨s₀.state, .wait child, true, exited⟩]) →
      Q (.error (.raised (.wait child))) s) :
    Asking.Ensures (Extends s₀ · seg) (waitChild child >>= next) Q := by
  have hwait : Asking.Ensures (Extends s₀ · seg) (waitChild child) fun r s =>
      match r with
      | .ok _ => ∃ exited, Extends s₀ s (seg ++ [⟨s₀.state, .wait child, false, exited⟩])
      | .error error => error = .raised (.wait child) ∧
        ∃ exited, Extends s₀ s (seg ++ [⟨s₀.state, .wait child, true, exited⟩]) := by
    refine ensures_recorded (.wait child) (fun answer => answer.raises && !answer.expired)
      fun answer => ?_
    cases answer.raises && !answer.expired with
    | true => exact Asking.ensures_raise fun s h => ⟨rfl, _, h⟩
    | false => exact Asking.ensures_pure fun s h => ⟨_, h⟩
  refine hwait.bind (fun expired s as r s' as' hs hrun => ?_) fun error s h => ?_
  · obtain ⟨exited, hs⟩ := hs
    exact hok expired exited s as r s' as' hs hrun
  · obtain ⟨rfl, exited, hs⟩ := h
    exact herror s exited hs

end Rules

/-! ## Stopping one child -/

/-- The calls that stop a child. -/
structure StopsOne (state : SupervisorState) (child : Child) (seg : List Event) (raised : Bool) :
    Prop where
  states : ∀ e ∈ seg, e.state = state
  starts : ∀ e ∈ seg, e.call.isStart = false
  own : ∀ e ∈ seg, ∀ c, e.isAttempt c = true → c = child
  attempted : (∃ e ∈ seg, e.isAttempt child = true) ↔
    ∀ e ∈ seg, ¬(e.raised = true ∧ e.call.isPoll = true)
  raised_iff : raised = true ↔ ∃ e ∈ seg, e.raised = true

def raises {α : Type} : Except Error α → Bool
  | .ok _ => false
  | .error _ => true

theorem ensures_stopChild {s₀ : Production H} (config : ProductionConfig) (child : Child)
    (hstate : s₀.state.stopping = true) :
    Asking.Ensures (Extends s₀ · []) (stopChild config child) fun r s =>
      r ≠ .error .shutdownRequested ∧
        ∃ seg, Extends s₀ s seg ∧ StopsOne s₀.state child seg (raises r) := by
  unfold stopChild
  split
  · -- the whole tree of the child is stopped by one call
    refine monotonic_then fun now exited => call_then _ (fun answer => Asking.ensures_pure
      fun s h => ⟨nofun, _, h, ?_⟩) fun s exited h => ⟨nofun, _, h, ?_⟩
    · constructor <;> simp [Event.isAttempt, Call.isStart, Call.isPoll, raises, hstate]
    · constructor <;> simp [Event.isAttempt, Call.isStart, Call.isPoll, raises, hstate]
  · refine call_then _ (fun answer => ?_) fun s exited h => ⟨nofun, _, h, ?_⟩
    · cases answer.exitCode.isSome with
      -- the child has exited by itself, so nothing is sent to it
      | true =>
        refine Asking.ensures_pure fun s h => ⟨nofun, _, h, ?_⟩
        constructor <;> simp [Event.isAttempt, Call.isStart, Call.isPoll, raises, hstate]
      | false =>
        refine call_then _ (fun answer => monotonic_then fun now exited => wait_then child
          (fun expired exited => ?_) fun s exited h => ⟨nofun, _, h, ?_⟩)
          fun s exited h => ⟨nofun, _, h, ?_⟩
        · cases expired with
          -- it does not end in time, so it is killed
          | true =>
            refine call_then _ (fun answer => call_then _ (fun answer => Asking.ensures_pure
              fun s h => ⟨nofun, _, h, ?_⟩) fun s exited h => ⟨nofun, _, h, ?_⟩)
              fun s exited h => ⟨nofun, _, h, ?_⟩ <;>
              constructor <;> simp [Event.isAttempt, Call.isStart, Call.isPoll, raises, hstate]
          | false =>
            refine Asking.ensures_pure fun s h => ⟨nofun, _, h, ?_⟩
            constructor <;> simp [Event.isAttempt, Call.isStart, Call.isPoll, raises, hstate]
        · constructor <;> simp [Event.isAttempt, Call.isStart, Call.isPoll, raises, hstate]
        · constructor <;> simp [Event.isAttempt, Call.isStart, Call.isPoll, raises, hstate]
    · constructor <;> simp [Event.isAttempt, Call.isStart, Call.isPoll, raises, hstate]

/-! ## Stopping the children -/

/-- The calls that stop a child, none if it was not started. -/
structure Tries (process : Child → Bool) (state : SupervisorState) (child : Child)
    (seg : List Event) : Prop where
  states : ∀ e ∈ seg, e.state = state
  starts : ∀ e ∈ seg, e.call.isStart = false
  own : ∀ e ∈ seg, ∀ c, e.isAttempt c = true → c = child
  idle : process child = false → seg = []
  attempted : process child = true → ((∃ e ∈ seg, e.isAttempt child = true) ↔
    ∀ e ∈ seg, ¬(e.raised = true ∧ e.call.isPoll = true))

theorem ensures_stopStarted {s₀ : Production H} {seg : List Event} (config : ProductionConfig)
    (child : Child) {first : Option Error} (hfirst : first ≠ some .shutdownRequested)
    (hstate : s₀.state.stopping = true) :
    Asking.Ensures (Extends s₀ · seg) (stopStarted config child first) fun r s =>
      ∃ first' own, r = .ok first' ∧ first' ≠ some .shutdownRequested ∧
        Extends s₀ s (seg ++ own) ∧ Tries s₀.process s₀.state child own ∧
        (first'.isSome = true ↔ first.isSome = true ∨ ∃ e ∈ own, e.raised = true) := by
  -- what is stopped is what has been started, which this read sees
  refine Asking.Ensures.bind
    (R := fun r s => r = .ok (s₀.process child) ∧ Extends s₀ s seg)
    (Asking.ensures_read fun s h => ⟨by rw [h.process], h⟩) (fun started => ?_) (by simp)
  intro s as r s' as' hs hrun
  obtain ⟨hstarted, hs⟩ := hs
  obtain rfl := Except.ok.inj hstarted
  cases hchild : s₀.process child with
  -- a child that was never started is passed over
  | false =>
    rw [hchild] at hrun
    cases hrun
    refine ⟨first, [], rfl, hfirst, by rwa [List.append_nil], ?_, by simp⟩
    exact ⟨by simp, by simp, by simp, fun _ => rfl, fun h => absurd (hchild.symm.trans h) nofun⟩
  -- a failure of the stop is kept and does not end the loop over the children
  | true =>
    rw [hchild] at hrun
    have hstops : Asking.Ensures (Extends s · []) (stopChild config child) _ :=
      ensures_stopChild config child (by rw [hs.state]; exact hstate)
    have hattempt : Asking.Ensures (Extends s · []) (Asking.attempt (stopChild config child))
        fun r s' => ∃ result, r = .ok result ∧ result ≠ .error .shutdownRequested ∧
          ∃ own, Extends s s' own ∧ StopsOne s.state child own (raises result) :=
      Asking.ensures_attempt (hstops.weaken (fun _ h => h) fun result s' h => ⟨result, rfl, h⟩)
    have hturn : Asking.Ensures (Extends s · [])
        (do
          let result ← Asking.attempt (stopChild config child)
          return firstError first result)
        fun r s' => ∃ first' own, r = .ok first' ∧ first' ≠ some .shutdownRequested ∧
          Extends s₀ s' (seg ++ own) ∧ Tries s₀.process s₀.state child own ∧
          (first'.isSome = true ↔ first.isSome = true ∨ ∃ e ∈ own, e.raised = true) := by
      refine hattempt.bind (fun result => Asking.ensures_pure fun s' h => ?_) (by simp)
      obtain ⟨result', hresult, hne, own, hown, hone⟩ := h
      obtain rfl := Except.ok.inj hresult
      rw [hs.state] at hone
      refine ⟨firstError first result, own, rfl, ?_, hs.trans hown, ?_, ?_⟩
      -- the first error is kept, and no stop asks for a shutdown
      · cases first with
        | some error => exact hfirst
        | none =>
          cases result with
          | ok _ => exact nofun
          | error error => exact fun heq => hne (congrArg Except.error (Option.some.inj heq))
      · exact ⟨hone.states, hone.starts, hone.own, fun h => absurd (hchild.symm.trans h) nofun,
          fun _ => hone.attempted⟩
      · rw [← hone.raised_iff]
        cases first <;> cases result <;> simp [firstError, raises]
    exact hturn s as r s' as' (Extends.refl s) hrun

theorem stopStarted_then {α : Type} {s₀ : Production H} {seg : List Event} (config : ProductionConfig)
    (child : Child) {first : Option Error} (hfirst : first ≠ some .shutdownRequested)
    (hstate : s₀.state.stopping = true) {next : Option Error → Supervising H α}
    {Q : Except Error α → Production H → Prop}
    (h : ∀ first' own, first' ≠ some .shutdownRequested → Tries s₀.process s₀.state child own →
      (first'.isSome = true ↔ first.isSome = true ∨ ∃ e ∈ own, e.raised = true) →
      Asking.Ensures (Extends s₀ · (seg ++ own)) (next first') Q) :
    Asking.Ensures (Extends s₀ · seg) (stopStarted config child first >>= next) Q := by
  refine (ensures_stopStarted config child hfirst hstate).bind ?_ ?_
  · intro value s as r s' as' hs hrun
    obtain ⟨first', own, hvalue, hne, hextends, htries, hraised⟩ := hs
    obtain rfl := Except.ok.inj hvalue
    exact h value own hne htries hraised s as r s' as' hextends hrun
  · intro e s hs
    obtain ⟨_, _, hvalue, -⟩ := hs
    cases hvalue

/-- The calls that stop all children. -/
structure StopsAll (process : Child → Bool) (state : SupervisorState) (seg : List Event) : Prop where
  states : ∀ e ∈ seg, e.state = state
  starts : ∀ e ∈ seg, e.call.isStart = false
  halted : (∀ e ∈ seg, ¬(e.raised = true ∧ e.call.isPoll = true)) → Halted process seg
  missed : (∃ e ∈ seg, e.raised = true ∧ e.call.isPoll = true) →
    ∃ child, process child = true ∧ ∀ e ∈ seg, e.isAttempt child = false

/-- Where a `poll` raised, its child was started and is not tried. -/
theorem Tries.missed {process : Child → Bool} {state : SupervisorState} {child : Child}
    {seg : List Event} (h : Tries process state child seg) {e : Event} (he : e ∈ seg)
    (hraised : e.raised = true ∧ e.call.isPoll = true) :
    process child = true ∧ ∀ e ∈ seg, e.isAttempt child = false := by
  cases hchild : process child with
  | false =>
    rw [h.idle hchild] at he
    cases he
  | true =>
    refine ⟨rfl, fun e' he' => Bool.eq_false_iff.mpr fun hattempt => ?_⟩
    exact (h.attempted hchild).mp ⟨e', he', hattempt⟩ e he hraised

theorem stopsAll_append {process : Child → Bool} {state : SupervisorState} {exited : Bool}
    {front back : List Event} (hfront : Tries process state .frontend front)
    (hback : Tries process state .backend back) :
    StopsAll process state (([⟨state, .clock, false, exited⟩] ++ front) ++ back) := by
  have hclock : ∀ child, (⟨state, .clock, false, exited⟩ : Event).isAttempt child = false := by
    simp [Event.isAttempt]
  -- no try of one child counts as a try of the other
  have hforeign : ∀ e ∈ front, e.isAttempt .backend = false := fun e he =>
    Bool.eq_false_iff.mpr fun h => absurd (hfront.own e he _ h) nofun
  have hforeign' : ∀ e ∈ back, e.isAttempt .frontend = false := fun e he =>
    Bool.eq_false_iff.mpr fun h => absurd (hback.own e he _ h) nofun
  simp only [List.cons_append, List.nil_append]
  refine ⟨?_, ?_, fun hpolls => ⟨fun child hchild => ?_, fun hstarted _ => ?_⟩, ?_⟩
  · simp only [List.forall_mem_cons, List.forall_mem_append]
    exact ⟨trivial, hfront.states, hback.states⟩
  · simp only [List.forall_mem_cons, List.forall_mem_append]
    exact ⟨rfl, hfront.starts, hback.starts⟩
  · cases child with
    -- without a poll that raises, each started child is tried
    | frontend =>
      obtain ⟨e, he, hattempt⟩ := (hfront.attempted hchild).mpr fun e he =>
        hpolls e (List.mem_cons_of_mem _ (List.mem_append_left _ he))
      exact ⟨e, List.mem_cons_of_mem _ (List.mem_append_left _ he), hattempt⟩
    | backend =>
      obtain ⟨e, he, hattempt⟩ := (hback.attempted hchild).mpr fun e he =>
        hpolls e (List.mem_cons_of_mem _ (List.mem_append_right _ he))
      exact ⟨e, List.mem_cons_of_mem _ (List.mem_append_right _ he), hattempt⟩
  -- the front end is tried before the back end
  · obtain ⟨e, he, hattempt⟩ := (hfront.attempted hstarted).mpr fun e he =>
      hpolls e (List.mem_cons_of_mem _ (List.mem_append_left _ he))
    refine ⟨⟨state, .clock, false, exited⟩ :: front, back, rfl,
      ⟨e, List.mem_cons_of_mem _ he, hattempt⟩, ?_⟩
    simp only [List.forall_mem_cons]
    exact ⟨hclock .backend, hforeign⟩
  -- a raise before every try leaves the child after it untried
  · rintro ⟨e, he, hraised⟩
    rcases List.mem_cons.mp he with rfl | he
    · exact absurd hraised.1 nofun
    · rcases List.mem_append.mp he with he | he
      · obtain ⟨hchild, hnone⟩ := hfront.missed he hraised
        refine ⟨.frontend, hchild, ?_⟩
        simp only [List.forall_mem_cons, List.forall_mem_append]
        exact ⟨hclock .frontend, hnone, hforeign'⟩
      · obtain ⟨hchild, hnone⟩ := hback.missed he hraised
        refine ⟨.backend, hchild, ?_⟩
        simp only [List.forall_mem_cons, List.forall_mem_append]
        exact ⟨hclock .backend, hforeign, hnone⟩

theorem ensures_stopStartedChildren {s₀ : Production H} (config : ProductionConfig)
    (hstate : s₀.state.stopping = true) :
    Asking.Ensures (Extends s₀ · []) (stopStartedChildren config) fun r s =>
      r ≠ .error .shutdownRequested ∧ ∃ seg, Extends s₀ s seg ∧
        StopsAll s₀.process s₀.state seg ∧ (raises r = true ↔ ∃ e ∈ seg, e.raised = true) := by
  have hnone : (none : Option Error) ≠ some .shutdownRequested := nofun
  refine monotonic_then fun now exited =>
    stopStarted_then config .frontend hnone hstate fun first front hne hfront hraised =>
      stopStarted_then config .backend hne hstate fun second back hne' hback hraised' => ?_
  have hiff : second.isSome = true ↔
      ∃ e ∈ ([⟨s₀.state, .clock, false, exited⟩] ++ front) ++ back, e.raised = true := by
    rw [hraised', hraised]
    simp [or_and_right, exists_or]
  cases second with
  | none =>
    refine Asking.ensures_pure fun s h => ⟨nofun, _, h, stopsAll_append hfront hback, ?_⟩
    exact (iff_of_eq (by rfl)).trans hiff
  | some error =>
    refine Asking.ensures_raise fun s h => ⟨?_, _, h, stopsAll_append hfront hback, ?_⟩
    · exact fun heq => hne' (congrArg some (Except.error.inj heq))
    · exact (iff_of_eq (by rfl)).trans hiff

/-! ## The end of a run -/

/-- No stop was attempted yet, and nothing went wrong that a `try` is not ready for. -/
def Calm (trace : List Event) : Prop :=
  ∀ e ∈ trace, e.state.stopping = false ∧ ¬(e.state = .ready ∧ e.raised = true)

theorem Calm.not_attempt {trace : List Event} (h : Calm trace) {e : Event} (he : e ∈ trace)
    (child : Child) : e.isAttempt child = false := by
  rw [Event.isAttempt, (h e he).1, Bool.false_and]

theorem Calm.not_fault {trace : List Event} (h : Calm trace) {e : Event} (he : e ∈ trace) :
    e.isFault = false := by
  obtain ⟨hstate, hready⟩ := h e he
  by_contra hfault
  simp only [Bool.not_eq_false, Event.isFault, Bool.and_eq_true, Bool.or_eq_true,
    decide_eq_true_eq] at hfault
  obtain ⟨hraised, (hs | hs) | ⟨hs, -⟩⟩ := hfault
  · exact hready ⟨hs, hraised⟩
  · rw [hs] at hstate
    cases hstate
  · rw [hs] at hstate
    cases hstate

/-- All attempts are in the calls that stop the children. -/
theorem stopped_iff {process : Child → Bool} {state : SupervisorState} {before seg : List Event}
    (hcalm : Calm before) (hseg : StopsAll process state seg) :
    Stopped process (before ++ seg) ↔ ∀ e ∈ seg, ¬(e.raised = true ∧ e.call.isPoll = true) := by
  constructor
  · rintro ⟨front, after, htrace, -, hhalted⟩ e he hraised
    obtain ⟨child, hchild, hnone⟩ := hseg.missed ⟨e, he, hraised⟩
    obtain ⟨e', he', hattempt⟩ := hhalted.attempted child hchild
    have hmem : e' ∈ before ++ seg := by
      rw [htrace]
      exact List.mem_append_right _ he'
    rcases List.mem_append.mp hmem with hmem | hmem
    · rw [hcalm.not_attempt hmem child] at hattempt
      cases hattempt
    · rw [hnone e' hmem] at hattempt
      cases hattempt
  · exact fun hpolls => ⟨before, seg, rfl, hseg.starts, hseg.halted hpolls⟩

/-- The supervisor is at rest exactly when nothing went wrong that a `try` is not ready for. -/
def Settled (s : Production H) : Prop := AtRest s ↔ ∀ e ∈ s.trace, e.isFault = false

theorem settled_failed {s₀ s : Production H} {seg : List Event} (hcalm : Calm s₀.trace)
    (hstate : s₀.state = .failed) (h : Extends s₀ s seg)
    (hseg : StopsAll s₀.process s₀.state seg) : Settled s := by
  have hfault : ∀ e ∈ seg, e.isFault = false ↔ ¬(e.raised = true ∧ e.call.isPoll = true) := by
    intro e he
    have hfailed : e.state = .failed := (hseg.states e he).trans hstate
    rw [Event.isFault, hfailed, ← Bool.not_eq_true]
    simp
  rw [Settled, AtRest, h.trace, h.process, stopped_iff hcalm hseg, h.state, hstate]
  constructor
  · rintro ⟨-, hpolls⟩ e he
    rcases List.mem_append.mp he with he | he
    · exact hcalm.not_fault he
    · exact (hfault e he).mpr (hpolls e he)
  · exact fun hnone => ⟨.inr rfl, fun e he =>
      (hfault e he).mp (hnone e (List.mem_append_right _ he))⟩

/-- A state before the children are stopped. -/
structure Running (signals : Signals H) (s : Production H) : Prop where
  calm : Calm s.trace
  signals : s.signals = signals

theorem ensures_fail (config : ProductionConfig) {signals : Signals H} :
    Asking.Ensures (Running signals) (fail config) fun r s =>
      r ≠ .error .shutdownRequested ∧ Settled s ∧ s.signals = signals := by
  refine Asking.Ensures.bind
    (R := fun r s => r = .ok () ∧ Running signals s ∧ s.state = .failed)
    (Asking.ensures_change fun s h => ⟨rfl, ⟨h.calm, h.signals⟩, rfl⟩) (fun _ => ?_) (by simp)
  intro s as r s' as' hs hrun
  obtain ⟨-, hrunning, hstate⟩ := hs
  have hstopping : s.state.stopping = true := by rw [hstate]; rfl
  obtain ⟨hr, seg, hextends, hseg, -⟩ :=
    ensures_stopStartedChildren config hstopping s as r s' as' (.refl s) hrun
  exact ⟨hr, settled_failed hrunning.calm hstate hextends hseg,
    hextends.signals.trans hrunning.signals⟩

theorem ensures_shutdown (config : ProductionConfig) {signals : Signals H} :
    Asking.Ensures (fun s => Running signals s ∧ s.state ≠ .stopped ∧ s.state ≠ .failed ∧
        s.shutdownRequested = true) (shutdown config) fun r s =>
      r ≠ .error .shutdownRequested ∧ Settled s ∧ s.signals = signals ∧
        s.shutdownRequested = true := by
  intro s as r s' as' hs hrun
  obtain ⟨hrunning, hstopped, hfailed, hrequested⟩ := hs
  have hshutdown : shutdown config s as = (do
      setState .shuttingDown
      stopStartedChildren config
      setState .stopped) s as := by
    show (if s.state = .stopped then _ else if s.state = .failed then _ else _ :
      Supervising H Unit) s as = _
    rw [if_neg hstopped, if_neg hfailed]
  rw [hshutdown] at hrun
  have hstops : Asking.Ensures (Extends { s with state := .shuttingDown } · [])
      (stopStartedChildren config) _ := ensures_stopStartedChildren config rfl
  have hbody : Asking.Ensures (Extends { s with state := .shuttingDown } · [])
      (do
        stopStartedChildren config
        setState .stopped)
      fun r s => r ≠ .error .shutdownRequested ∧ Settled s ∧ s.signals = signals ∧
        s.shutdownRequested = true := by
    refine hstops.bind (fun _ => Asking.ensures_change fun s₁ h => ?_) fun error s₁ h => ?_
    · obtain ⟨-, seg, hextends, hseg, hraised⟩ := h
      have hnone : ∀ e ∈ seg, e.raised = false := fun e he =>
        Bool.eq_false_iff.mpr fun hr => absurd (hraised.mpr ⟨e, he, hr⟩) nofun
      refine ⟨nofun, ?_, hextends.signals.trans hrunning.signals, hextends.requested hrequested⟩
      have htrace : s₁.trace = s.trace ++ seg := hextends.trace
      have hprocess : s₁.process = s.process := hextends.process
      refine iff_of_true ⟨.inl rfl, ?_⟩ ?_
      · show Stopped s₁.process s₁.trace
        rw [htrace, hprocess]
        refine (stopped_iff hrunning.calm hseg).mpr fun e he hr => ?_
        rw [hnone e he] at hr
        exact absurd hr.1 nofun
      · intro e he
        have he : e ∈ s.trace ++ seg := htrace ▸ he
        rcases List.mem_append.mp he with he | he
        · exact hrunning.calm.not_fault he
        · rw [Event.isFault, hnone e he, Bool.false_and]
    · obtain ⟨hr, seg, hextends, hseg, hraised⟩ := h
      obtain ⟨e, he, heraised⟩ := hraised.mp rfl
      refine ⟨fun heq => hr (congrArg Except.error (Except.error.inj heq)), ?_,
        hextends.signals.trans hrunning.signals, hextends.requested hrequested⟩
      -- the state stays where it was, and the call that raised is a fault in it
      refine iff_of_false (fun hrest => ?_) fun hnone => ?_
      · have hstate : s₁.state = .shuttingDown := hextends.state
        rcases hrest.1 with h | h <;> rw [hstate] at h <;> cases h
      · have hmem : e ∈ s₁.trace := by
          rw [hextends.trace]
          exact List.mem_append_right _ he
        have hstate : e.state = .shuttingDown := hseg.states e he
        have hfault := hnone e hmem
        rw [Event.isFault, heraised, hstate] at hfault
        exact absurd hfault (by simp)
  exact hbody _ as r s' as' (.refl _) hrun

/-! ## Starting -/

/-- A state in which the children are being started. -/
structure Starting (signals : Signals H) (s : Production H) : Prop extends
    Running signals s where
  notStopping : s.state.stopping = false
  notReady : s.state ≠ .ready
  notStopped : s.state ≠ .stopped

/-- What a part of the start leaves. -/
def StartedSoFar {α : Type} (signals : Signals H) (r : Except Error α)
    (s : Production H) : Prop :=
  Starting signals s ∧ (r = .error .shutdownRequested → s.shutdownRequested = true)

variable {signals : Signals H}

theorem Starting.record {s : Production H} (h : Starting signals s) (answer : Answer) (c : Call)
    (raised : Bool) : Starting signals (s.record answer c raised) := by
  have hextends := record_extends s answer c raised
  refine ⟨⟨fun e he => ?_, hextends.signals.trans h.signals⟩, ?_, ?_, ?_⟩
  · rw [hextends.trace] at he
    rcases List.mem_append.mp he with he | he
    · exact h.calm e he
    · rw [List.mem_singleton.mp he]
      exact ⟨h.notStopping, fun hready => h.notReady hready.1⟩
  · rw [hextends.state]
    exact h.notStopping
  · rw [hextends.state]
    exact h.notReady
  · rw [hextends.state]
    exact h.notStopped

theorem Starting.setState {s : Production H} (h : Starting signals s) {state : SupervisorState}
    (hstopping : state.stopping = false) (hready : state ≠ .ready) (hstopped : state ≠ .stopped) :
    Starting signals { s with state } :=
  ⟨⟨h.calm, h.signals⟩, hstopping, hready, hstopped⟩

/-- A call of the start, whatever the answer. -/
theorem starting_call (c : Call) : Asking.Ensures (Starting signals) (call c) fun r s =>
    StartedSoFar signals r s := by
  refine Asking.Ensures.bind (R := fun r s => ∃ a, r = .ok a ∧ Starting signals s)
    (Asking.ensures_ask fun s a h => ⟨a, rfl, h⟩) (fun answer => ?_) (by simp)
  refine Asking.Ensures.bind (R := fun r s => r = .ok () ∧ Starting signals s)
    (Asking.ensures_change fun s h => ⟨rfl, h.choose_spec.2.record answer c _⟩) (fun _ => ?_) (by simp)
  cases answer.raises with
  | true => exact Asking.ensures_raise fun s h => ⟨h.2, nofun⟩
  | false => exact Asking.ensures_pure fun s h => ⟨h.2, nofun⟩

theorem starting_monotonic : Asking.Ensures (Starting signals) monotonic fun r s =>
    StartedSoFar signals r s := by
  refine Asking.Ensures.bind (R := fun r s => ∃ a, r = .ok a ∧ Starting signals s)
    (Asking.ensures_ask fun s a h => ⟨a, rfl, h⟩) (fun answer => ?_) (by simp)
  refine Asking.Ensures.bind (R := fun r s => r = .ok () ∧ Starting signals s)
    (Asking.ensures_change fun s h => ⟨rfl, h.choose_spec.2.record answer .clock _⟩) (fun _ => ?_)
    (by simp)
  exact Asking.ensures_pure fun s h => ⟨h.2, nofun⟩

theorem starting_startChild (child : Child) :
    Asking.Ensures (Starting signals) (startChild child) fun r s => StartedSoFar signals r s := by
  refine Asking.Ensures.bind (R := fun r s => ∃ a, r = .ok a ∧ Starting signals s)
    (Asking.ensures_ask fun s a h => ⟨a, rfl, h⟩) (fun answer => ?_) (by simp)
  refine Asking.Ensures.bind (R := fun r s => r = .ok () ∧ Starting signals s)
    (Asking.ensures_change fun s h => ⟨rfl, ?_⟩) (fun _ => ?_) (by simp)
  · have hrecord := h.choose_spec.2.record answer (.start child) answer.raises
    exact ⟨⟨hrecord.calm, hrecord.signals⟩, hrecord.notStopping, hrecord.notReady,
      hrecord.notStopped⟩
  · cases answer.raises with
    | true => exact Asking.ensures_raise fun s h => ⟨h.2, nofun⟩
    | false => exact Asking.ensures_pure fun s h => ⟨h.2, nofun⟩

/-- Parts of the start follow one another. -/
theorem starting_then {α β : Type} {p : Supervising H α} {next : α → Supervising H β}
    (hp : Asking.Ensures (Starting signals) p fun r s => StartedSoFar signals r s)
    (hnext : ∀ a, Asking.Ensures (Starting signals) (next a) fun r s => StartedSoFar signals r s) :
    Asking.Ensures (Starting signals) (p >>= next) fun r s => StartedSoFar signals r s :=
  hp.bind (fun a => (hnext a).weaken (fun _ h => h.1) fun _ _ h => h) fun _ _ h =>
    ⟨h.1, fun heq => h.2 (congrArg Except.error (Except.error.inj heq))⟩

theorem starting_setState {state : SupervisorState} (hstopping : state.stopping = false)
    (hready : state ≠ .ready) (hstopped : state ≠ .stopped) :
    Asking.Ensures (Starting signals) (setState state) fun r s => StartedSoFar signals r s :=
  Asking.ensures_change fun _ h => ⟨h.setState hstopping hready hstopped, nofun⟩

theorem starting_readinessRound (child : Child) (deadline : ℚ) :
    Asking.Ensures (Starting signals) (readinessRound child deadline) fun r s =>
      StartedSoFar signals r s := by
  refine Asking.Ensures.bind
    (R := fun r s => r = .ok s.shutdownRequested ∧ Starting signals s)
    (Asking.ensures_read fun s h => ⟨rfl, h⟩) (fun requested => ?_) (by simp)
  cases requested with
  | true => exact Asking.ensures_raise fun s h => ⟨h.2, fun _ => (Except.ok.inj h.1).symm⟩
  | false =>
    refine Asking.Ensures.weaken (P := Starting signals) ?_ (fun s h => h.2) fun r s h => h
    refine starting_then (starting_call _) fun answer => ?_
    cases answer.exitCode with
    | some code => exact Asking.ensures_raise fun s h => ⟨h, nofun⟩
    | none =>
      refine starting_then (starting_call _) fun answer => ?_
      cases answer.ready with
      | true => exact Asking.ensures_pure fun s h => ⟨h, nofun⟩
      | false =>
        refine starting_then starting_monotonic fun now => ?_
        show Asking.Ensures _ (if deadline - now ≤ 0 then _ else _) _
        split_ifs
        · exact Asking.ensures_raise fun s h => ⟨h, nofun⟩
        · exact starting_then (starting_call _) fun answer =>
            Asking.ensures_pure fun s h => ⟨h, nofun⟩

theorem starting_waitUntilReady (config : ProductionConfig) (child : Child) :
    Asking.Ensures (Starting signals) (waitUntilReady config child) fun r s =>
      StartedSoFar signals r s := by
  refine starting_then starting_monotonic fun now => Asking.ensures_forever ?_
  refine (starting_readinessRound child _).weaken (fun s h => h) fun r s h => ?_
  match r, h with
  | .ok none, h => exact h.1
  | .ok (some _), h => exact ⟨h.1, nofun⟩
  | .error e, h => exact ⟨h.1, fun heq => h.2 (congrArg Except.error (Except.error.inj heq))⟩

/-- A start that succeeds leaves a state in which nothing went wrong. -/
theorem ensures_startChildren (config : ProductionConfig) :
    Asking.Ensures (Starting signals) (startChildren config) fun r s =>
      match r with
      | .ok _ => Running signals s ∧ s.state = .ready
      | .error error => Starting signals s ∧ (error = .shutdownRequested →
        s.shutdownRequested = true) := by
  -- the last step only sets the state
  have hlast : Asking.Ensures (Starting signals) (setState (H := H) .ready) fun r s =>
      match r with
      | .ok _ => Running signals s ∧ s.state = .ready
      | .error error => Starting signals s ∧ (error = .shutdownRequested →
        s.shutdownRequested = true) :=
    Asking.ensures_change fun s h => ⟨⟨h.calm, h.signals⟩, rfl⟩
  -- a step that raises leaves the supervisor as `Starting` says, so the steps compose
  have hthen : ∀ {α : Type} {p : Supervising H α} {next : α → Supervising H Unit},
      (Asking.Ensures (Starting signals) p fun r s => StartedSoFar signals r s) →
      (∀ a, Asking.Ensures (Starting signals) (next a) fun r s =>
        match r with
        | .ok _ => Running signals s ∧ s.state = .ready
        | .error error => Starting signals s ∧ (error = .shutdownRequested →
          s.shutdownRequested = true)) →
      Asking.Ensures (Starting signals) (p >>= next) fun r s =>
        match r with
        | .ok _ => Running signals s ∧ s.state = .ready
        | .error error => Starting signals s ∧ (error = .shutdownRequested →
          s.shutdownRequested = true) := fun hp hnext =>
    hp.bind (fun a => (hnext a).weaken (fun s h => h.1) fun r s h => h) fun e s h =>
      ⟨h.1, fun heq => h.2 (congrArg Except.error heq)⟩
  refine hthen (starting_setState rfl nofun nofun) fun _ => ?_
  refine hthen (starting_startChild _) fun _ => hthen (starting_waitUntilReady config _) fun _ => ?_
  refine hthen (starting_setState rfl nofun nofun) fun _ => ?_
  refine hthen (starting_setState rfl nofun nofun) fun _ => ?_
  exact hthen (starting_startChild _) fun _ => hthen (starting_waitUntilReady config _) fun _ => hlast

/-- What a part of the run leaves that brought it to its end. -/
structure Finished (signals : Signals H) (s : Production H) : Prop where
  settled : Settled s
  signals : s.signals = signals

theorem ensures_start (config : ProductionConfig) :
    Asking.Ensures (fun s => Running signals s ∧ s.state = .initializing) (start config) fun r s =>
      match r with
      | .ok _ => Running signals s ∧ s.state = .ready
      | .error error => Finished signals s ∧ (error = .shutdownRequested →
        s.shutdownRequested = true) := by
  refine Asking.Ensures.bind
    (R := fun r s => r = .ok .initializing ∧ Running signals s ∧ s.state = .initializing)
    (Asking.ensures_read fun s h => ⟨congrArg Except.ok h.2, h⟩) (fun state => ?_) (by simp)
  intro s as r s' as' hs hrun
  obtain ⟨hstate, hrunning, hinitial⟩ := hs
  obtain rfl := Except.ok.inj hstate
  -- nothing has been started yet
  have hstarting : Starting signals s :=
    ⟨hrunning, by rw [hinitial]; rfl, by rw [hinitial]; nofun, by rw [hinitial]; nofun⟩
  have hattempt := Asking.ensures_attempt (Q := fun r s => ∃ result, r = .ok result ∧
      match result with
      | .ok _ => Running signals s ∧ s.state = .ready
      | .error error => Starting signals s ∧ (error = .shutdownRequested →
        s.shutdownRequested = true))
    ((ensures_startChildren config).weaken (fun _ h => h) fun result s h => ⟨result, rfl, h⟩)
  refine (hattempt.bind (Q := fun r s =>
      match r with
      | .ok _ => Running signals s ∧ s.state = .ready
      | .error error => Finished signals s ∧ (error = .shutdownRequested →
        s.shutdownRequested = true)) (fun result => ?_) fun e s h => by
    obtain ⟨_, h, -⟩ := h; cases h) s as r s' as' hstarting hrun
  intro s as r s' as' hs hrun
  obtain ⟨result', hresult, hs⟩ := hs
  obtain rfl := Except.ok.inj hresult
  cases result with
  | ok _ =>
    cases hrun
    exact hs
  -- an error ends in a shutdown or in a failure, and is raised again
  | error error =>
    obtain ⟨hstarting, hrequested⟩ := hs
    have hnotFailed : s.state ≠ .failed := fun heq => by
      have hstopping := hstarting.notStopping
      rw [heq] at hstopping
      cases hstopping
    by_cases herror : error = .shutdownRequested
    -- a requested shutdown: the children are stopped in order
    · subst herror
      have hshutdown : Asking.Ensures (fun s => Running signals s ∧ s.state ≠ .stopped ∧
          s.state ≠ .failed ∧ s.shutdownRequested = true) (do
            shutdown config
            Asking.raise .shutdownRequested) fun (r : Except Error Unit) s =>
          match r with
          | .ok _ => Running signals s ∧ s.state = .ready
          | .error error => Finished signals s ∧ (error = .shutdownRequested →
            s.shutdownRequested = true) :=
        Asking.Ensures.bind (ensures_shutdown config)
          (fun _ => Asking.ensures_raise fun s h => ⟨⟨h.2.1, h.2.2.1⟩, fun _ => h.2.2.2⟩)
          fun e s h => ⟨⟨h.2.1, h.2.2.1⟩, fun _ => h.2.2.2⟩
      exact hshutdown s as r s' as'
        ⟨hstarting.toRunning, hstarting.notStopped, hnotFailed, hrequested rfl⟩ hrun
    -- any other error: the supervisor fails, whatever the stops raise
    · have hfail : Asking.Ensures (Running signals) (do
          fail config
          Asking.raise error) fun (r : Except Error Unit) s =>
          match r with
          | .ok _ => Running signals s ∧ s.state = .ready
          | .error error => Finished signals s ∧ (error = .shutdownRequested →
            s.shutdownRequested = true) :=
        Asking.Ensures.bind (ensures_fail config)
          (fun _ => Asking.ensures_raise fun s h => ⟨⟨h.2.1, h.2.2⟩, fun heq => absurd heq herror⟩)
          fun e s h => ⟨⟨h.2.1, h.2.2⟩, fun heq => absurd (congrArg Except.error heq) h.1⟩
      refine hfail s as r s' as' hstarting.toRunning ?_
      -- the same continuation for every other error, so the match on it reduces
      cases error <;> first | exact hrun | exact absurd rfl herror

/-! ## Monitoring -/

/-- A state in which the children are watched. -/
structure Watching (signals : Signals H) (s : Production H) : Prop extends
    Running signals s where
  ready : s.state = .ready

/-- A call while monitoring: nothing catches what it raises. -/
theorem watching_call (c : Call) : Asking.Ensures (Watching signals) (call c) fun r s =>
    match r with
    | .ok _ => Watching signals s
    | .error error => Finished signals s ∧ error ≠ .shutdownRequested := by
  intro s₀ as r s' as' hs hrun
  have hcall : Asking.Ensures (Extends s₀ · []) (call c >>= fun answer => pure answer) fun r s =>
      match r with
      | .ok _ => Watching signals s
      | .error error => Finished signals s ∧ error ≠ .shutdownRequested := by
    refine call_then c (fun answer => Asking.ensures_pure fun s h => ?_) fun s exited h => ?_
    -- the call answers: the run stays without a fault
    · refine ⟨⟨fun e he => ?_, h.signals.trans hs.signals⟩, h.state.trans hs.ready⟩
      rw [h.trace] at he
      rcases List.mem_append.mp he with he | he
      · exact hs.calm e he
      · rw [List.mem_singleton.mp he]
        exact ⟨by rw [hs.ready]; rfl, fun hraised => absurd hraised.2 nofun⟩
    -- the call raises: this event is the fault that `Watching` excludes
    · refine ⟨⟨iff_of_false (fun hrest => ?_) fun hnone => ?_, h.signals.trans hs.signals⟩, nofun⟩
      · have hready : s.state = .ready := h.state.trans hs.ready
        rcases hrest.1 with hstate | hstate <;> rw [hready] at hstate <;> cases hstate
      · have hmem : (⟨s₀.state, c, true, exited⟩ : Event) ∈ s.trace := by
          rw [h.trace]
          simp
        have hfault := hnone _ hmem
        rw [hs.ready] at hfault
        exact absurd hfault (by simp [Event.isFault])
  refine hcall s₀ as r s' as' (.refl s₀) ?_
  rw [Asking.bind_eq, hrun]
  cases r <;> rfl

theorem ensures_checkChild (config : ProductionConfig) (child : Child) :
    Asking.Ensures (Watching signals) (checkChild config child) fun r s =>
      match r with
      | .ok _ => Watching signals s
      | .error error => Finished signals s ∧ error ≠ .shutdownRequested := by
  refine (watching_call _).bind (fun answer => ?_) fun e s h => h
  cases answer.exitCode with
  | none => exact Asking.ensures_pure fun s h => h
  | some code =>
    refine Asking.Ensures.bind ((ensures_fail config).weaken (fun s h => h.toRunning) fun r s h => h)
      (fun _ => Asking.ensures_raise fun s h => ⟨⟨h.2.1, h.2.2⟩, nofun⟩) fun e s h => ?_
    exact ⟨⟨h.2.1, h.2.2⟩, fun heq => h.1 (congrArg Except.error heq)⟩

theorem ensures_monitorRound (config : ProductionConfig) :
    Asking.Ensures (Watching signals) (monitorRound config) fun r s =>
      match r with
      | .ok none => Watching signals s
      | .ok (some code) => Finished signals s ∧ code = 0 ∧ s.shutdownRequested = true
      | .error error => Finished signals s ∧ error ≠ .shutdownRequested := by
  refine Asking.Ensures.bind
    (R := fun r s => r = .ok s.shutdownRequested ∧ Watching signals s)
    (Asking.ensures_read fun s h => ⟨rfl, h⟩) (fun requested => ?_) (by simp)
  cases requested with
  | true =>
    refine Asking.Ensures.bind ((ensures_shutdown config).weaken (fun s h => ⟨h.2.toRunning, ?_, ?_, ?_⟩)
      fun r s h => h) (fun _ => Asking.ensures_pure fun s h => ⟨⟨h.2.1, h.2.2.1⟩, rfl, h.2.2.2⟩)
      fun e s h => ⟨⟨h.2.1, h.2.2.1⟩, fun heq => h.1 (congrArg Except.error heq)⟩
    · rw [h.2.ready]
      nofun
    · rw [h.2.ready]
      nofun
    · exact (Except.ok.inj h.1).symm
  | false =>
    refine Asking.Ensures.weaken (P := Watching signals) ?_ (fun s h => h.2) fun r s h => h
    refine (ensures_checkChild config .backend).bind (fun _ => ?_) fun e s h => h
    refine (ensures_checkChild config .frontend).bind (fun _ => ?_) fun e s h => h
    exact (watching_call .sleep).bind (fun _ => Asking.ensures_pure fun s h => h) fun e s h => h

theorem ensures_monitor (config : ProductionConfig) :
    Asking.Ensures (Watching signals) (monitor config) fun r s =>
      match r with
      | .ok code => Finished signals s ∧ code = 0 ∧ s.shutdownRequested = true
      | .error error => Finished signals s ∧ error ≠ .shutdownRequested := by
  refine Asking.Ensures.bind (R := fun r s => r = .ok .ready ∧ Watching signals s)
    (Asking.ensures_read fun s h => ⟨congrArg Except.ok h.ready, h⟩) (fun state => ?_) (by simp)
  intro s as r s' as' hs hrun
  obtain ⟨hstate, hs⟩ := hs
  obtain rfl := Except.ok.inj hstate
  have hloop : Asking.Ensures (Watching signals) (Asking.forever (monitorRound config)) fun r s =>
      match r with
      | .ok code => Finished signals s ∧ code = 0 ∧ s.shutdownRequested = true
      | .error error => Finished signals s ∧ error ≠ .shutdownRequested := by
    refine Asking.ensures_forever ((ensures_monitorRound config).weaken (fun s h => h) ?_)
    intro r s h
    match r, h with
    | .ok none, h => exact h
    | .ok (some _), h => exact h
    | .error _, h => exact h
  exact hloop s as r s' as' hs hrun

/-! ## Handlers -/

theorem handle_self (s : Production H) (signum : Signum) (handler : Handler H) :
    (s.handle signum handler).signals.handlers signum = handler := by
  simp [Production.handle]

theorem handle_other (s : Production H) {signum other : Signum} (handler : Handler H)
    (h : other ≠ signum) :
    (s.handle signum handler).signals.handlers other = s.signals.handlers other := by
  simp [Production.handle, Function.update_of_ne h]

/-- A call to the `signal` module, whether it raised. -/
structure Signalled (s₀ s : Production H) (raised : Bool) : Prop where
  state : s.state = s₀.state
  process : s.process = s₀.process
  trace : s.trace = s₀.trace
  handlers : s.signals.handlers = s₀.signals.handlers
  calls : ∃ c, s.signals.calls = s₀.signals.calls ++ [(c, raised)]
  requested : s₀.shutdownRequested = true → s.shutdownRequested = true

/-- No call to the `signal` module raised so far. -/
def Quiet (s : Production H) : Prop := ∀ c ∈ s.signals.calls, c.2 = false

theorem Signalled.quiet {s₀ s : Production H} (h : Signalled s₀ s false) (hquiet : Quiet s₀) :
    Quiet s := by
  obtain ⟨c, hcalls⟩ := h.calls
  intro e he
  rw [hcalls] at he
  rcases List.mem_append.mp he with he | he
  · exact hquiet e he
  · rw [List.mem_singleton.mp he]

theorem Signalled.not_quiet {s₀ s : Production H} (h : Signalled s₀ s true) : ¬Quiet s := by
  obtain ⟨c, hcalls⟩ := h.calls
  intro hquiet
  have hmem : (c, true) ∈ s.signals.calls := by
    rw [hcalls]
    exact List.mem_append_right _ (List.mem_singleton_self _)
  cases hquiet _ hmem

theorem ensures_signalCall {s₀ : Production H} (c : SignalCall) :
    Asking.Ensures (· = s₀) (signalCall c) fun r s =>
      r ≠ .error .shutdownRequested ∧ Signalled s₀ s (raises r) := by
  refine Asking.Ensures.bind (R := fun r s => ∃ a, r = .ok a ∧ s = s₀)
    (Asking.ensures_ask fun s a hs => ⟨a, rfl, hs⟩) (fun answer => ?_) (by simp)
  refine Asking.Ensures.bind (R := fun r s => ∃ interrupted, r = .ok interrupted ∧ s = s₀)
    (Asking.ensures_read fun s hs => ⟨_, rfl, hs.choose_spec.2⟩) (fun interrupted => ?_) (by simp)
  have hsignalled : ∀ raised : Bool, Signalled s₀ { s₀.receive answer.signal with
      signals := { s₀.signals with calls := s₀.signals.calls ++ [(c, raised)] } } raised := by
    intro raised
    have hreceived := receive_extends s₀ answer.signal
    exact ⟨hreceived.state, hreceived.process, hreceived.trace.trans (List.append_nil _), rfl,
      ⟨c, rfl⟩, hreceived.requested⟩
  refine Asking.Ensures.bind (R := fun r s => r = .ok () ∧
      Signalled s₀ s (interrupted || answer.raises))
    (Asking.ensures_change fun s hs => ⟨rfl, ?_⟩) (fun _ => ?_) (by simp)
  · obtain ⟨_, -, rfl⟩ := hs
    exact hsignalled _
  · cases interrupted || answer.raises with
    | true => exact Asking.ensures_raise fun s h => ⟨nofun, h.2⟩
    | false => exact Asking.ensures_pure fun s h => ⟨nofun, h.2⟩

section Handling

variable {s₀ : Production H} {α : Type} {Q : Except Error α → Production H → Prop}

theorem getsignal_then (signum : Signum) {next : Handler H → Supervising H α}
    (hok : ∀ s, Signalled s₀ s false →
      Asking.Ensures (· = s) (next (s₀.signals.handlers signum)) Q)
    (herror : ∀ e s, Signalled s₀ s true → Q (.error e) s) :
    Asking.Ensures (· = s₀) (getsignal signum >>= next) Q := by
  have hget : Asking.Ensures (· = s₀) (getsignal signum) fun r s =>
      match r with
      | .ok handler => handler = s₀.signals.handlers signum ∧ Signalled s₀ s false
      | .error _ => Signalled s₀ s true := by
    refine (ensures_signalCall _).bind (fun _ => Asking.ensures_read fun s h => ?_)
      fun e s h => h.2
    exact ⟨congrFun h.2.handlers signum, h.2⟩
  refine hget.bind (fun handler s as r s' as' hs hrun => ?_) herror
  obtain ⟨rfl, hs⟩ := hs
  exact hok s hs s as r s' as' rfl hrun

/-- The handler is set, unless the call raises or there is no handler to set. -/
theorem setsignal_then (signum : Signum) (handler : Handler H) {next : Unit → Supervising H α}
    (hok : ∀ s, handler ≠ .unknown → Signalled s₀ s false →
      Asking.Ensures (· = s.handle signum handler) (next ()) Q)
    (herror : ∀ e s raised, Signalled s₀ s raised → raised = true ∨ handler = .unknown →
      Q (.error e) s) :
    Asking.Ensures (· = s₀) (setsignal signum handler >>= next) Q := by
  have hset : Asking.Ensures (· = s₀) (setsignal signum handler) fun r s =>
      match r with
      | .ok _ => ∃ s₁, handler ≠ .unknown ∧ Signalled s₀ s₁ false ∧ s = s₁.handle signum handler
      | .error _ => ∃ raised, Signalled s₀ s raised ∧ (raised = true ∨ handler = .unknown) := by
    refine (ensures_signalCall _).bind (fun _ => ?_) fun e s h => ⟨true, h.2, .inl rfl⟩
    cases handler with
    | unknown => exact Asking.ensures_raise fun s h => ⟨false, h.2, .inr rfl⟩
    | previous handler =>
      exact Asking.ensures_change fun s h => ⟨s, nofun, h.2, rfl⟩
    | requestShutdown => exact Asking.ensures_change fun s h => ⟨s, nofun, h.2, rfl⟩
  refine hset.bind (fun _ s as r s' as' hs hrun => ?_) fun e s h => ?_
  · obtain ⟨s₁, hknown, hs₁, hs⟩ := hs
    exact hok s₁ hknown hs₁ s as r s' as' hs hrun
  · obtain ⟨raised, hs, hcause⟩ := h
    exact herror e s raised hs hcause

end Handling

/-! ## Whole runs -/

/-- What the end of a run promises. -/
structure LeavesNothing (previous : Signum → Option H) (r : Except Error Int) (s : Production H) :
    Prop where
  stopped : Stopped s.process s.trace
  state : s.state = .stopped ∨ s.state = .failed
  restored : s.signals.handlers = (fresh previous).signals.handlers
  requested : r = .ok 0 → s.shutdownRequested = true

/-- Nothing goes wrong that no `try` is ready for: every handler can be put back, no call to the
`signal` module raises, and no other call where nothing catches it. -/
structure Undisturbed (previous : Signum → Option H) (s : Production H) : Prop where
  known : ∀ signum, (previous signum).isSome = true
  quiet : Quiet s
  calls : ∀ e ∈ s.trace, e.isFault = false

/-- A run that ends while it installs its handlers is over before it began. -/
theorem leavesNothing_iff_of_initializing {previous : Signum → Option H} {r : Except Error Int}
    {s : Production H} (hstate : s.state = .initializing) (hquiet : ¬Quiet s) :
    LeavesNothing previous r s ↔ Undisturbed previous s := by
  refine iff_of_false (fun h => ?_) fun h => hquiet h.quiet
  rcases h.state with heq | heq <;> rw [hstate] at heq <;> cases heq

/-- A run that ends while it restores the handlers leaves one of its own. -/
theorem leavesNothing_iff_of_installed {previous : Signum → Option H} {r : Except Error Int}
    {s : Production H} (signum : Signum)
    (hinstalled : s.signals.handlers signum = .requestShutdown)
    (hcause : ¬Quiet s ∨ (fresh previous).signals.handlers signum = .unknown) :
    LeavesNothing previous r s ↔ Undisturbed previous s := by
  have hnot : (fresh previous).signals.handlers signum ≠ .requestShutdown := by
    show (previous signum).elim Handler.unknown Handler.previous ≠ _
    cases previous signum <;> nofun
  refine iff_of_false (fun h => hnot ?_) fun h => ?_
  · rw [← hinstalled, h.restored]
  · rcases hcause with hquiet | hunknown
    · exact hquiet h.quiet
    · obtain ⟨handler, hhandler⟩ := Option.isSome_iff_exists.mp (h.known signum)
      change (previous signum).elim Handler.unknown Handler.previous = _ at hunknown
      rw [hhandler] at hunknown
      cases hunknown

/-- The end of `run`, with the handlers put back. -/
theorem ensures_finish {previous : Signum → Option H} {s₀ : Production H} (result : Except Error Int)
    (hsettled : Settled s₀) (hquiet : Quiet s₀)
    (hrestored : s₀.signals.handlers = (fresh previous).signals.handlers)
    (hknown : ∀ signum, (previous signum).isSome = true)
    (hzero : ∀ code, result = .ok code → code = 0 ∧ s₀.shutdownRequested = true)
    (hrequested : result = .error .shutdownRequested → s₀.shutdownRequested = true) :
    Asking.Ensures (· = s₀)
      (outcome result) fun r s => LeavesNothing previous r s ↔ Undisturbed previous s := by
  -- the condition has three parts, and each is one of what is known at the end
  have hend : ∀ r : Except Error Int, (r = .ok 0 → s₀.shutdownRequested = true) →
      (LeavesNothing previous r s₀ ↔ Undisturbed previous s₀) := fun r hr =>
    ⟨fun h => ⟨hknown, hquiet, hsettled.mp ⟨h.state, h.stopped⟩⟩,
      fun h => ⟨(hsettled.mpr h.calls).2, (hsettled.mpr h.calls).1, hrestored, hr⟩⟩
  cases result with
  | ok code =>
    refine Asking.ensures_pure fun s hs => ?_
    rw [hs]
    exact hend _ fun _ => (hzero code rfl).2
  | error error =>
    by_cases herror : error = .shutdownRequested
    · subst herror
      refine Asking.ensures_pure fun s hs => ?_
      rw [hs]
      exact hend _ fun _ => hrequested rfl
    -- an error that is no request of a shutdown is raised again
    · have hraise : Asking.Ensures (· = s₀) (Asking.raise error : Supervising H Int) fun r s =>
          LeavesNothing previous r s ↔ Undisturbed previous s :=
        Asking.ensures_raise fun s hs => by
          rw [hs]
          exact hend _ nofun
      intro s as r s' as' hs hrun
      refine hraise s as r s' as' hs ?_
      cases error <;> first | exact hrun | exact absurd rfl herror

theorem ensures_startAndMonitor (config : ProductionConfig) {signals : Signals H} :
    Asking.Ensures (fun s => Running signals s ∧ s.state = .initializing)
      (startAndMonitor config) fun r s =>
        Finished signals s ∧ (∀ code, r = .ok code → code = 0 ∧ s.shutdownRequested = true) ∧
          (r = .error .shutdownRequested → s.shutdownRequested = true) := by
  refine (ensures_start config).bind (fun _ => ?_) fun e s h => ⟨h.1, nofun, fun heq => h.2 ?_⟩
  · refine (ensures_monitor config).weaken (fun s h => ⟨h.1, h.2⟩) fun r s h => ?_
    match r, h with
    | .ok code, h => exact ⟨h.1, fun _ heq => Except.ok.inj heq ▸ h.2, nofun⟩
    | .error error, h => exact ⟨h.1, nofun, fun heq => absurd (Except.error.inj heq) h.2⟩
  · exact Except.error.inj heq

/-- From the installed handlers to the end of the run. -/
theorem ensures_installed (config : ProductionConfig) {previous : Signum → Option H}
    {s₀ : Production H} (hstate : s₀.state = .initializing) (htrace : s₀.trace = [])
    (hquiet : Quiet s₀) (hinstalled : ∀ signum, s₀.signals.handlers signum = .requestShutdown) :
    Asking.Ensures (· = s₀) (do
        let result ← Asking.attempt (startAndMonitor config)
        setsignal .sigterm ((fresh previous).signals.handlers .sigterm)
        setsignal .sigint ((fresh previous).signals.handlers .sigint)
        outcome result : Supervising H Int)
      fun r s => LeavesNothing previous r s ↔ Undisturbed previous s := by
  -- no signal has arrived yet
  have hrunning : Running s₀.signals s₀ :=
    ⟨by rw [htrace]; exact fun e he => absurd he List.not_mem_nil, rfl⟩
  refine Asking.Ensures.bind (R := fun r s => ∃ result, r = .ok result ∧ Finished s₀.signals s ∧
      (∀ code, result = .ok code → code = 0 ∧ s.shutdownRequested = true) ∧
        (result = .error .shutdownRequested → s.shutdownRequested = true))
    (((Asking.ensures_attempt ((ensures_startAndMonitor config).weaken (fun s h => h)
      fun result s h => ⟨result, rfl, h⟩))).weaken (fun s hs => ?_) fun r s h => h)
    (fun result => ?_) fun e s h => by obtain ⟨_, h, -⟩ := h; cases h
  · rw [hs]
    exact ⟨hrunning, hstate⟩
  intro s as r s' as' hs hrun
  obtain ⟨result', hresult, hfinished, hzero, hrequested⟩ := hs
  obtain rfl := Except.ok.inj hresult
  -- the run in between touches neither handler
  have hown : ∀ signum, s.signals.handlers signum = .requestShutdown := by
    rw [hfinished.signals]
    exact hinstalled
  have hquiet : Quiet s := by
    unfold Quiet
    rw [hfinished.signals]
    exact hquiet
  refine setsignal_then (Q := fun r s => LeavesNothing previous r s ↔ Undisturbed previous s)
    .sigterm _ (fun s₁ hterm h₁ => setsignal_then .sigint _ (fun s₂ hint h₂ => ?_) ?_) ?_
    s as r s' as' rfl hrun
  · -- both handlers are back
    have hknown : ∀ signum, (previous signum).isSome = true := by
      intro signum
      rw [← Option.ne_none_iff_isSome]
      intro hnone
      have hunknown : (fresh previous).signals.handlers signum = .unknown := by
        show (previous signum).elim _ _ = _
        rw [hnone]
        rfl
      cases signum with
      | sigterm => exact hterm hunknown
      | sigint => exact hint hunknown
    have hsettled : Settled s₂ := by
      have hsettled := hfinished.settled
      unfold Settled AtRest at hsettled ⊢
      rw [h₂.state, h₂.process, h₂.trace]
      rwa [← h₁.state, ← h₁.process, ← h₁.trace] at hsettled
    refine ensures_finish result hsettled (h₂.quiet (h₁.quiet hquiet)) ?_ hknown
      (fun code heq => ⟨(hzero code heq).1, h₂.requested (h₁.requested (hzero code heq).2)⟩)
      fun heq => h₂.requested (h₁.requested (hrequested heq))
    funext signum
    cases signum with
    | sigterm => rw [handle_other _ _ (by decide), h₂.handlers, handle_self]
    | sigint => exact handle_self _ _ _
  · intro e s₂ raised h₂ hcause
    -- the second handler could not be restored, so its own handler stays
    refine leavesNothing_iff_of_installed (s := s₂) .sigint ?_ (hcause.imp_left ?_)
    · rw [h₂.handlers, handle_other _ _ (by decide), h₁.handlers]
      exact hown .sigint
    · rintro rfl
      exact h₂.not_quiet
  · intro e s₁ raised h₁ hcause
    -- already the first handler could not be restored
    refine leavesNothing_iff_of_installed (s := s₁) .sigterm ?_ (hcause.imp_left ?_)
    · rw [h₁.handlers]
      exact hown .sigterm
    · rintro rfl
      exact h₁.not_quiet

theorem ensures_run (config : ProductionConfig) (previous : Signum → Option H) :
    Asking.Ensures (· = fresh previous) (run config) fun r s =>
      LeavesNothing previous r s ↔ Undisturbed previous s := by
  have hquiet : Quiet (fresh previous) := fun c hc => absurd hc List.not_mem_nil
  unfold run
  -- the four calls before the `try`, each of which may be the last
  refine getsignal_then _ (fun s₁ h₁ => getsignal_then _ (fun s₂ h₂ => setsignal_then _ _
    (fun s₃ _ h₃ => setsignal_then _ _ (fun s₄ _ h₄ => ?_) ?_) ?_) ?_) ?_
  · rw [h₁.handlers]
    refine ensures_installed config ?_ ?_ (h₄.quiet (h₃.quiet (h₂.quiet (h₁.quiet hquiet))))
      fun signum => ?_
    · exact h₄.state.trans (h₃.state.trans (h₂.state.trans h₁.state))
    · exact h₄.trace.trans (h₃.trace.trans (h₂.trace.trans h₁.trace))
    · cases signum with
      | sigterm => rw [handle_other _ _ (by decide), h₄.handlers, handle_self]
      | sigint => exact handle_self _ _ _
  · intro e s₄ raised h₄ hcause
    obtain rfl := hcause.resolve_right nofun
    exact leavesNothing_iff_of_initializing
      (h₄.state.trans (h₃.state.trans (h₂.state.trans h₁.state))) h₄.not_quiet
  · intro e s₃ raised h₃ hcause
    obtain rfl := hcause.resolve_right nofun
    exact leavesNothing_iff_of_initializing (h₃.state.trans (h₂.state.trans h₁.state)) h₃.not_quiet
  · exact fun e s₂ h₂ => leavesNothing_iff_of_initializing (h₂.state.trans h₁.state) h₂.not_quiet
  · exact fun e s₁ h₁ => leavesNothing_iff_of_initializing h₁.state h₁.not_quiet

/-- A run leaves no orphan and no handler of its own exactly when it is undisturbed. -/
theorem run_leavesNothing_iff (config : ProductionConfig) (previous : Signum → Option H)
    {answers rest : List Answer} {r : Except Error Int} {s : Production H}
    (h : run config (fresh previous) answers = some (r, s, rest)) :
    LeavesNothing previous r s ↔ Undisturbed previous s :=
  ensures_run config previous _ _ _ _ _ rfl h

/-! ## Three runs -/

def usualConfig : ProductionConfig := ⟨30, 10, 1 / 20, fun _ => true⟩

/-- Handlers that Python set. -/
def usualHandlers : Signum → Option Nat := fun _ => some 0

/-- No signal, no exception, no exit code. -/
def calm : Answer := { raises := false }

/-- The handlers are installed; both children start and are ready. -/
def readyAnswers : List Answer :=
  [calm, calm, calm, calm, calm, calm, calm, { ready := true }, calm, calm, calm, { ready := true }]

/-- A signal comes while the supervisor sleeps. -/
def requestedAnswers : List Answer :=
  readyAnswers ++ [calm, calm, { signal := some .sigterm }, calm, calm, calm, calm, calm, calm, calm]

/-- The first `poll` of the monitor raises. -/
def raisingAnswers : List Answer := readyAnswers ++ [{ raises := true }, calm, calm]

/-- SIGINT comes between the two installations, and its old handler raises `KeyboardInterrupt`. -/
def interruptedAnswers : List Answer :=
  [calm, calm, calm, { signal := some .sigint, handlerRaises := true }]

theorem run_leavesNothing_requested : ∃ r s rest,
    run usualConfig (fresh usualHandlers) requestedAnswers = some (r, s, rest) ∧ r = .ok 0 ∧
      LeavesNothing usualHandlers r s := by
  have hend : (run usualConfig (fresh usualHandlers) requestedAnswers).map
      (fun e => (e.1, e.2.1.trace.all fun event => !event.isFault,
        e.2.1.signals.calls.all fun c => !c.2)) = some (.ok 0, true, true) := by
    rfl
  obtain ⟨⟨r, s, rest⟩, hrun, hrest⟩ := Option.map_eq_some_iff.mp hend
  obtain ⟨hzero, hrest⟩ := Prod.mk.inj hrest
  obtain ⟨hnone, hquiet⟩ := Prod.mk.inj hrest
  refine ⟨r, s, rest, hrun, hzero, (run_leavesNothing_iff usualConfig usualHandlers hrun).mpr ?_⟩
  exact ⟨fun _ => rfl, fun c hc => by simpa using List.all_eq_true.mp hquiet c hc,
    fun e he => by simpa using List.all_eq_true.mp hnone e he⟩

/-- The exception leaves both children as they were, and the supervisor ready. -/
theorem raising_leavesOrphans : ∃ r s rest,
    run usualConfig (fresh usualHandlers) raisingAnswers = some (r, s, rest) ∧
      ¬LeavesNothing usualHandlers r s ∧ s.state = .ready ∧ s.process .backend = true ∧
      s.process .frontend = true ∧ ∀ e ∈ s.trace, e.state.stopping = false := by
  have hend : (run usualConfig (fresh usualHandlers) raisingAnswers).map
      (fun e => (e.2.1.state, e.2.1.process .backend, e.2.1.process .frontend,
        e.2.1.trace.all fun event => !event.state.stopping)) = some (.ready, true, true, true) := by
    rfl
  obtain ⟨⟨r, s, rest⟩, hrun, hrest⟩ := Option.map_eq_some_iff.mp hend
  obtain ⟨hready, hrest⟩ := Prod.mk.inj hrest
  obtain ⟨hbackend, hrest⟩ := Prod.mk.inj hrest
  obtain ⟨hfrontend, hnone⟩ := Prod.mk.inj hrest
  refine ⟨r, s, rest, hrun, fun hleaves => ?_, hready, hbackend, hfrontend, fun e he => ?_⟩
  · rcases hleaves.state with hstate | hstate <;> cases hready.symm.trans hstate
  · simpa using List.all_eq_true.mp hnone e he

/-- The installation stops halfway, with nothing to put back what it set. -/
example : (run usualConfig (fresh usualHandlers) interruptedAnswers).map (fun e =>
    (e.2.1.state, e.2.1.signals.handlers .sigterm, e.2.1.signals.handlers .sigint)) =
      some (.initializing, .requestShutdown, .previous 0) := by
  rfl

end Supervisor

end FluxFast.Server
