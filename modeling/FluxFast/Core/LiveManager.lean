import FluxFast.Core.Transport

/-!
# LiveManager — the lifecycle of one logical live connection

The manager's state between two notifications of its listeners.  Streams that were closed have no
further effect, since every one of their events is dropped by the generation check; only the open
stream is kept.  `streamed` and `resumed` record whether a stream of the same manifest was opened
before; the program does not read them.
-/

namespace FluxFast.Core

open FluxFast.Theory

inductive LiveConnectionStatus where
  | idle | connecting | connected | reconnecting | offline | error
  deriving DecidableEq, Repr

structure LiveStatusSnapshot where
  status : LiveConnectionStatus := .idle
  connected : Bool := false
  reconnectAttempt : Nat := 0
  lastEventAt : Option Nat := none
  deriving DecidableEq

structure LiveManifest where
  url : String
  keys : List String
  deriving DecidableEq

/-- An open stream; `reconnectAttempt` is the argument of the `consume` call that reads it. -/
structure LiveConnection where
  reconnectAttempt : Nat
  resumed : Bool
  deriving DecidableEq

structure LiveManager where
  clientId : String := "client"
  snapshot : LiveStatusSnapshot := {}
  manifest : Option LiveManifest := none
  connection : Option LiveConnection := none
  /-- The attempt number that the running reconnect timer will use. -/
  reconnectTimer : Option Nat := none
  networkSubscribed : Bool := false
  generation : Nat := 0
  desired : Bool := false
  /-- Answer of `network.isOnline()`. -/
  online : Bool := true
  /-- Whether `transport.connect` throws. -/
  connectFails : Bool := false
  streamed : Bool := false

namespace LiveManager

/-! ## Private transitions -/

def cancelReconnect (m : LiveManager) : LiveManager := { m with reconnectTimer := none }

def stopConnection (m : LiveManager) : LiveManager :=
  { m with generation := m.generation + 1, connection := none }

def setOffline (m : LiveManager) (reconnectAttempt : Nat) : LiveManager :=
  { m.cancelReconnect with
    snapshot :=
      { m.snapshot with
        status := .offline
        connected := false
        reconnectAttempt := reconnectAttempt } }

def scheduleReconnect (m : LiveManager) (errorState : Bool) : LiveManager :=
  let m := m.cancelReconnect
  if m.desired = false ∨ m.manifest = none then m
  else
    let reconnectAttempt := max 1 (m.snapshot.reconnectAttempt + 1)
    if m.online = false then m.setOffline reconnectAttempt
    else
      { m with
        snapshot :=
          { m.snapshot with
            status := if errorState then .error else .reconnecting
            connected := false
            reconnectAttempt := reconnectAttempt }
        reconnectTimer := if m.connection = none then some reconnectAttempt else none }

def handleConnectionError (m : LiveManager) : LiveManager :=
  let m := { m with connection := none }
  if m.desired then m.scheduleReconnect true
  else { m with snapshot := { m.snapshot with status := .error, connected := false } }

def startConnection (m : LiveManager) (status : LiveConnectionStatus) (reconnectAttempt : Nat) :
    LiveManager :=
  if m.manifest = none ∨ m.desired = false ∨ m.connection ≠ none then m
  else
    let started : LiveManager :=
      { m with
        generation := m.generation + 1
        snapshot :=
          { m.snapshot with
            status := status
            connected := false
            reconnectAttempt := reconnectAttempt } }
    if m.connectFails then started.handleConnectionError
    else
      { started with
        connection := some ⟨reconnectAttempt, m.streamed⟩
        streamed := true }

def normalizeManifest (url : String) (keys : List String) : Except String (Option LiveManifest) :=
  if keys = [] then .ok none
  else if url = "" then .error "A live manifest requires a non-empty page URL"
  else
    match LiveTransport.serializeLiveKeys keys with
    | .error message => .error message
    | .ok normalized => .ok (some ⟨url, normalized⟩)

/-! ## Public transitions -/

/-- Replace the manifest by a different one. -/
def replaceManifest (m : LiveManager) (next : Option LiveManifest) : LiveManager :=
  let shouldReconnect := m.desired
  let replaced : LiveManager :=
    { m.cancelReconnect.stopConnection with
      manifest := next
      snapshot := {}
      streamed := false }
  if shouldReconnect && next.isSome then
    let subscribed := { replaced with networkSubscribed := true }
    if subscribed.online then subscribed.startConnection .connecting 0 else subscribed.setOffline 1
  else if next.isNone then { replaced with networkSubscribed := false }
  else replaced

def updateManifest (m : LiveManager) (url : String) (keys : List String) :
    Except String LiveManager :=
  match normalizeManifest url keys with
  | .error message => .error message
  | .ok next => .ok (if next = m.manifest then m else m.replaceManifest next)

def connect (m : LiveManager) : LiveManager :=
  let m := { m with desired := true }
  if m.manifest = none ∨ m.connection ≠ none ∨ m.reconnectTimer ≠ none then m
  else
    let m := { m with networkSubscribed := true }
    if m.online then m.startConnection .connecting 0 else m.setOffline 1

def disconnect (m : LiveManager) : LiveManager :=
  let m := ({ m with desired := false }).cancelReconnect.stopConnection
  { m with
    networkSubscribed := false
    snapshot :=
      { m.snapshot with
        status := .idle
        connected := false
        reconnectAttempt := 0 } }

def reconnect (m : LiveManager) : LiveManager :=
  let m := { m with desired := true }
  if m.manifest = none then { m with snapshot := {} }
  else
    let m := { m with networkSubscribed := true }
    let reconnectAttempt := m.snapshot.reconnectAttempt + 1
    let m := m.cancelReconnect.stopConnection
    if m.online then m.startConnection .reconnecting reconnectAttempt
    else m.setOffline (max 1 reconnectAttempt)

def clear (m : LiveManager) : LiveManager :=
  { ({ m with desired := false }).cancelReconnect.stopConnection with
    networkSubscribed := false
    manifest := none
    snapshot := {}
    streamed := false }

/-! ## Callbacks -/

def reconnectTimerFires (m : LiveManager) (reconnectAttempt : Nat) : LiveManager :=
  let m := { m with reconnectTimer := none }
  if m.desired = false ∨ m.manifest = none ∨ m.connection ≠ none then m
  else if m.online then m.startConnection .reconnecting reconnectAttempt
  else m.setOffline reconnectAttempt

def handleOnline (m : LiveManager) : LiveManager :=
  if m.desired = false ∨ m.manifest = none ∨ m.connection ≠ none then m
  else
    let reconnectAttempt := max 1 m.snapshot.reconnectAttempt
    m.cancelReconnect.startConnection .reconnecting reconnectAttempt

def handleOffline (m : LiveManager) : LiveManager :=
  if m.desired = false ∨ m.manifest = none then m
  else
    let reconnectAttempt :=
      if m.snapshot.status = .offline then max 1 m.snapshot.reconnectAttempt
      else max 1 (m.snapshot.reconnectAttempt + 1)
    m.cancelReconnect.stopConnection.setOffline reconnectAttempt

def streamEnds (m : LiveManager) : LiveManager :=
  let m := { m with connection := none }
  if m.desired then m.scheduleReconnect false
  else { m with snapshot := { m.snapshot with status := .idle, connected := false } }

/-- The state after an event, and the events handed to the listeners. -/
def receive {P : Type} (m : LiveManager) (connection : LiveConnection) (now : Nat)
    (event : LiveEvent P) : LiveManager × List (LiveEvent P) :=
  match event with
  | .ready keys =>
    let m :=
      { m with
        snapshot :=
          { status := .connected, connected := true, reconnectAttempt := 0, lastEventAt := some now } }
    match m.manifest with
    | some manifest =>
      if 0 < connection.reconnectAttempt then
        (m, [.ready keys, .resync manifest.keys "reconnect"])
      else (m, [.ready keys])
    | none => (m, [.ready keys])
  | event => ({ m with snapshot := { m.snapshot with lastEventAt := some now } }, [event])

end LiveManager

end FluxFast.Core
