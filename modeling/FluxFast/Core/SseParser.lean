import FluxFast.Core.Text
import FluxFast.Theory.TextDecoder

/-!
# SseParser — the reader of the live stream

`FluxSseParser` and the loop that feeds it.  What a data text means, JSON and the checks of the event,
is a parameter here.
-/

namespace FluxFast.Core

open FluxFast.Theory

/-- The errors that end a live stream. -/
inductive StreamError
  | protocol (message : String)
  | versionMismatch (message : String)
  deriving DecidableEq

def liveEventName : String := "fluxfast"

def maxLiveEventBytes : Nat := 1024 * 1024

/-- `new TextEncoder().encode(frame).byteLength`. -/
def frameBytes (frame : List Char) : Nat := (frame.map Text.charBytes).sum

def frameSizeError : StreamError :=
  .protocol ("FluxFast SSE event exceeds " ++ toString maxLiveEventBytes ++ " bytes")

def assertFrameSize (frame : List Char) : Except StreamError Unit :=
  if maxLiveEventBytes < frameBytes frame then .error frameSizeError else .ok ()

/-! ## Frames -/

/-- `split(/\r\n|\r|\n/)`. -/
def splitLines : List Char → List (List Char)
  | [] => [[]]
  | '\r' :: '\n' :: rest => [] :: splitLines rest
  | '\r' :: rest => [] :: splitLines rest
  | '\n' :: rest => [] :: splitLines rest
  | c :: rest => (splitLines rest).modifyHead (c :: ·)

/-- The field and the value of a line; none for an empty line and a comment. -/
def readLine (line : List Char) : Option (List Char × List Char) :=
  match line with
  | [] => none
  | ':' :: _ => none
  | _ =>
    let value := (line.dropWhile (· ≠ ':')).drop 1
    some (line.takeWhile (· ≠ ':'), if value.head? = some ' ' then value.drop 1 else value)

/-- The values of a field, in their order. -/
def fieldValues (frame : List Char) (field : String) : List (List Char) :=
  ((splitLines frame).filterMap readLine).filterMap fun entry =>
    if entry.1 = field.toList then some entry.2 else none

section Parser

variable {E : Type} (readData : List Char → Except StreamError E)

def parseFrame (frame : List Char) : Except StreamError (Option E) :=
  -- the last `event` field counts
  let eventName := (fieldValues frame "event").getLast?
  let data := fieldValues frame "data"
  if eventName = none ∧ data = [] then .ok none
  else if eventName ≠ some liveEventName.toList then
    .error (.protocol ("Unknown SSE event '" ++
      (eventName.map String.ofList).getD "undefined" ++ "'"))
  else if data = [] then .error (.protocol "FluxFast SSE event is missing data")
  else (readData (List.intercalate ['\n'] data)).map some

/-- The length of the separator that the text begins with. -/
def separatorAt : List Char → Option Nat
  | '\r' :: '\n' :: '\r' :: '\n' :: _ => some 4
  | '\n' :: '\n' :: _ => some 2
  | '\r' :: '\r' :: _ => some 2
  | _ => none

/-- The leftmost separator: what is before it, its length and what follows it. -/
def findSeparator (text : List Char) : Option (List Char × Nat × List Char) :=
  match separatorAt text with
  | some n => some ([], n, text.drop n)
  | none =>
    match text with
    | [] => none
    | c :: rest => (findSeparator rest).map fun found => (c :: found.1, found.2)

/-- A frame and the length of its separator. -/
structure Frame where
  text : List Char
  separator : Nat
  deriving DecidableEq

/-- For at most `fuel` frames. -/
def splitLoop : Nat → List Char → List Frame × List Char
  | 0, text => ([], text)
  | fuel + 1, text =>
    match findSeparator text with
    | none => ([], text)
    | some (frame, n, rest) =>
      (⟨frame, n⟩ :: (splitLoop fuel rest).1, (splitLoop fuel rest).2)

/-- The complete frames of a buffer and what is left of it. -/
def splitFrames (text : List Char) : List Frame × List Char := splitLoop text.length text

def readFrame (frame : List Char) : Except StreamError (Option E) := do
  assertFrameSize frame
  parseFrame readData frame

/-- The events of the frames, or the error of the first bad one. -/
def readFrames : List Frame → Except StreamError (List E)
  | [] => .ok []
  | frame :: rest => do
    let event ← readFrame readData frame.text
    let events ← readFrames rest
    return event.toList ++ events

structure FluxSseParser where
  decoder : TextDecoder := {}
  buffer : List Char := []
  deriving DecidableEq

namespace FluxSseParser

/-- `drain(false)`. -/
def drain (p : FluxSseParser) : Except StreamError (FluxSseParser × List E) := do
  let events ← readFrames readData (splitFrames p.buffer).1
  assertFrameSize (splitFrames p.buffer).2
  return ({ p with buffer := (splitFrames p.buffer).2 }, events)

/-- `drain(true)`: what is left is a frame too. -/
def drainAll (p : FluxSseParser) : Except StreamError (List E) := do
  let events ← readFrames readData (splitFrames p.buffer).1
  let last ←
    if (splitFrames p.buffer).2 = [] then pure none
    else readFrame readData (splitFrames p.buffer).2
  return events ++ last.toList

def push (p : FluxSseParser) (chunk : List UInt8) :
    Except StreamError (FluxSseParser × List E) :=
  drain readData
    { decoder := (p.decoder.decode chunk).1, buffer := p.buffer ++ (p.decoder.decode chunk).2 }

def finish (p : FluxSseParser) : Except StreamError (List E) :=
  drainAll readData { p with buffer := p.buffer ++ p.decoder.flush }

/-- The loop of the stream: what it yields, and the error it ends with. -/
def consume (p : FluxSseParser) : List (List UInt8) → List E × Option StreamError
  | [] =>
    match p.finish readData with
    | .error e => ([], some e)
    | .ok events => (events, none)
  | chunk :: chunks =>
    match p.push readData chunk with
    | .error e => ([], some e)
    | .ok (p', events) => (events ++ (consume p' chunks).1, (consume p' chunks).2)

end FluxSseParser

end Parser

end FluxFast.Core
