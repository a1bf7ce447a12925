import FluxFast.Core.ResourceEpochs
import FluxFast.Core.StoreEntries

/-!
# Resources — the store together with its race history

The three fields of the router that decide what a response may still write: `resourceStore`,
`resourceEpochs` and `resourceEpochCounter`.  `bumps` lists every bump since the last clear with
its cause, so that "a newer mutation", "a newer load" and the like can be stated; the program does
not read it.
-/

namespace FluxFast.Core

open FluxFast.Theory

/-- Why an epoch was bumped: mutations and live events with the server time they took effect, the
others with the load, visit or prefetch request that bumped it. -/
inductive Cause where
  | mutation (servedAt : Nat)
  | live (servedAt : Nat)
  | load (id : Nat)
  | navigation (visit : Nat)
  | prefetch (request : Nat)
  | supersede
  deriving DecidableEq

/-- Only a prefetch is speculative. -/
def Cause.authoritative : Cause → Bool
  | .prefetch _ => false
  | _ => true

structure Bump where
  key : String
  epoch : Nat
  cause : Cause
  deriving DecidableEq

structure Resources (V : Type) where
  resourceStore : ResourceStore V := {}
  resourceEpochs : ResourceEpochMap := {}
  resourceEpochCounter : Nat := 0
  bumps : List Bump := []

namespace Resources

variable {V P : Type} [DecidableEq V] [Patchable V P]

def epochOf (r : Resources V) (key : String) : Nat := r.resourceEpochs.epochOf key

def authorityOf (r : Resources V) (key : String) : Nat := r.resourceEpochs.authorityOf key

/-- `this.resourceEpochs.get(key)?.epoch === captured`. -/
def stillAt (r : Resources V) (key : String) (captured : Option Nat) : Bool :=
  (r.resourceEpochs.get key).map (·.epoch) = captured

def bumpResourceEpoch (r : Resources V) (key : String) (cause : Cause) : Resources V :=
  let epoch := r.resourceEpochCounter + 1
  let previous := r.resourceEpochs.get key
  let value : ResourceEpoch :=
    if cause.authoritative then ⟨epoch, epoch, false⟩
    else
      ⟨epoch, (previous.map (·.authoritativeEpoch)).getD 0,
        (previous.map (·.conservative)).getD false⟩
  { r with
    resourceEpochs := r.resourceEpochs.set key value
    resourceEpochCounter := epoch
    bumps := ⟨key, epoch, cause⟩ :: r.bumps }

def withStore (r : Resources V) (store : ResourceStore V) : Resources V :=
  { r with resourceStore := store }

def entry (r : Resources V) (key : String) : ResourceEntry V := r.resourceStore.entry key

/-- Put a key whose request was superseded back to what it held: a stale value, or nothing. -/
def restore (r : Resources V) (now : Nat) (key : String) : Resources V :=
  let bumped := r.bumpResourceEpoch key .supersede
  let store := bumped.resourceStore
  match store.records.get? key with
  | some record =>
    bumped.withStore
      (((store.touchRecord key).set now key record.version record.value).1.markStale key)
  | none => bumped.withStore (store.invalidate key)

/-- Restore the keys that are still at the epoch they were captured at. -/
def restoreCaptured (r : Resources V) (now : Nat) (captured : String → Option Nat)
    (keys : List String) : Resources V :=
  keys.foldl (fun r key => if r.stillAt key (captured key) then r.restore now key else r) r

/-- Bump a key of a load and remember its epoch. -/
def captureEpoch (id : Nat) (acc : Resources V × OrderedMap String Nat) (key : String) :
    Resources V × OrderedMap String Nat :=
  let bumped := acc.1.bumpResourceEpoch key (.load id)
  (bumped, acc.2.set key bumped.resourceEpochCounter)

def captureEpochs (r : Resources V) (id : Nat) (keys : List String) :
    Resources V × OrderedMap String Nat :=
  keys.foldl (captureEpoch id) (r, .empty)

def bumpAll (r : Resources V) (keys : List String) (cause : Cause) : Resources V :=
  keys.foldl (fun r key => r.bumpResourceEpoch key cause) r

def clear (r : Resources V) : Resources V :=
  { r with
    resourceStore := r.resourceStore.clear
    resourceEpochs := r.resourceEpochs.clear
    bumps := [] }

end Resources

end FluxFast.Core
