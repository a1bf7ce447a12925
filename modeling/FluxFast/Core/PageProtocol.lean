import FluxFast.Core.JsJson
import FluxFast.Core.LiveProtocol

/-!
# PageProtocol — the page envelope, decoded and checked

`assertPageEnvelope` of `transport.ts`.  A checked envelope is returned with the fields that the
client uses; `meta`, `details` and the values of resources are passed on as they were parsed.
-/

namespace FluxFast.Core

open FluxFast.Theory JsJson

namespace PageProtocol

variable {μ : Type}

def protocolError (message : String) : Failure := { name := "ProtocolError", message := message }

def assertRecord (key : String) (value : Value μ) :
    Except Failure (ResourceWireRecord (Value μ)) :=
  match fields value with
  | none => .error (protocolError ("Invalid PageEnvelope resource record for '" ++ key ++ "'"))
  | some record =>
    match (record.get? "version").bind asString, record.get? "value" with
    | some version, some content => .ok { version := version, value := content }
    | _, _ => .error (protocolError ("Invalid PageEnvelope resource record for '" ++ key ++ "'"))

def assertErrorDetail (key : String) (value : Value μ) :
    Except Failure (ResourceErrorDetail (Value μ)) :=
  match fields value with
  | none => .error (protocolError ("Invalid PageEnvelope resource error for '" ++ key ++ "'"))
  | some error =>
    match (error.get? "type").bind asString, (error.get? "message").bind asString with
    | some type, some message =>
      .ok { type := type, message := message, details := error.get? "details" }
    | _, _ => .error (protocolError ("Invalid PageEnvelope resource error for '" ++ key ++ "'"))

/-- Each entry of an object in its turn. -/
def assertEntries {α : Type} (check : String → Value μ → Except Failure α) (entries : Fields μ) :
    Except Failure (OrderedMap String α) := do
  let checked ← entries.entries.mapM fun e => (check e.1 e.2).map fun x => (e.1, x)
  return OrderedMap.ofList checked

/-- One of the fields `resourceKeys`, `deferred` and `live`. -/
def assertKeyList (field : String) (value : Option (Value μ)) :
    Except Failure (Option (List String)) :=
  match value with
  | none => .ok none
  | some value =>
    match asStrings value with
    | none =>
      .error (protocolError ("Invalid PageEnvelope: " ++ field ++ " must be an array of strings"))
    | some keys => .ok (some keys)

def assertResourceErrors (value : Option (Value μ)) :
    Except Failure (Option (OrderedMap String (ResourceErrorDetail (Value μ)))) :=
  match value with
  | none => .ok none
  | some value =>
    match fields value with
    | none => .error (protocolError "Invalid PageEnvelope: resourceErrors must be an object")
    | some errors => (assertEntries assertErrorDetail errors).map some

def assertPage (value : Option (Value μ)) : Except Failure (PageDescriptor (Value μ)) :=
  let malformed := protocolError "Invalid PageEnvelope: page descriptor is missing or malformed"
  match value.bind fields with
  | none => .error malformed
  | some page =>
    match (page.get? "component").bind asString, (page.get? "url").bind asString with
    | some component, some url =>
      .ok { component := component, url := url, pageMeta := (page.get? "meta").bind fields }
    | _, _ => .error malformed

def assertResources (value : Option (Value μ)) :
    Except Failure (OrderedMap String (ResourceWireRecord (Value μ))) :=
  match value.bind fields with
  | none => .error (protocolError "Invalid PageEnvelope: resources must be an object")
  | some resources => assertEntries assertRecord resources

def assertAppVersion : Option (Value μ) → Except Failure Unit
  | none | some (.string _) => .ok ()
  | some _ => .error (protocolError "Invalid PageEnvelope: appVersion must be a string")

def assertBody (data : Fields μ) : Except Failure (PageEnvelope (Value μ)) := do
  let page ← assertPage (data.get? "page")
  let resources ← assertResources (data.get? "resources")
  let resourceKeys ← assertKeyList "resourceKeys" (data.get? "resourceKeys")
  let deferred ← assertKeyList "deferred" (data.get? "deferred")
  let live ← assertKeyList "live" (data.get? "live")
  let resourceErrors ← assertResourceErrors (data.get? "resourceErrors")
  assertAppVersion (data.get? "appVersion")
  return { page := page, resources := resources, resourceKeys := resourceKeys,
           deferred := deferred, live := live, resourceErrors := resourceErrors }

section Response

variable (host : JsHost μ)

def versionMismatch (received : Option (Value μ)) : Failure where
  name := "VersionMismatchError"
  message := "Protocol mismatch: expected '" ++ protocolVersion ++ "', got '" ++
    host.describe received ++ "'"

def assertPageEnvelope (data : Value μ) : Except Failure (PageEnvelope (Value μ)) :=
  match fields data with
  | none => .error (versionMismatch host none)
  | some envelope =>
    if (envelope.get? "protocol").bind asString ≠ some protocolVersion then
      .error (versionMismatch host (envelope.get? "protocol"))
    else assertBody envelope

/-- The JSON body of a response from `url` that is `ok`. -/
def readPage (url : String) (status : Nat) (text : List Char) :
    Except Failure (PageEnvelope (Value μ)) :=
  match JsJson.parse host text with
  | none =>
    .error
      { name := "TransportError"
        message := "Failed to parse JSON response from " ++ orElse url "request" ++ " (status " ++
          toString status ++ ")"
        status := some status }
  | some data => assertPageEnvelope host data

end Response

end PageProtocol

end FluxFast.Core
