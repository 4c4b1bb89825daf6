import BlessStar.Registry.PathNormalize
import Mathlib.Data.Finmap

/-!
# The registry facade

`path_registry.cpp`, `registry_hub.cpp` and the calls of `registry_facade.cpp`
on them.  Strings are C strings; a call is one step, since each of them takes
the mutex of what it changes.
-/

namespace BlessStar.Registry

open Lib.ByteString

inductive RegistrationPhase
  | p0
  | p1
  | p2
  | frozen
  deriving DecidableEq, Repr

inductive PathEntrySource
  | builtin
  | plugin
  deriving DecidableEq, Repr

/-- `PathEntry`; a missing reference is `NULL`. -/
structure PathEntry where
  source : PathEntrySource
  manifestRef : Option Bytes
  typeConstraint : Option Bytes
  deriving DecidableEq, Repr

/-- `PathNode`.  `declaredIn` keeps the phase of the declaration. -/
structure PathNode where
  hasDeclaration : Bool := false
  entry : PathEntry := ⟨.builtin, none, none⟩
  binding : Option Nat := none
  declaredIn : RegistrationPhase := .p0
  deriving DecidableEq, Repr

def PathNode.hasBinding (node : PathNode) : Bool := node.binding.isSome

structure PathRegistry where
  nodes : Finmap (fun _ : Bytes => PathNode) := ∅
  phase : RegistrationPhase := .p0
  frozen : Bool := false

structure RegistryHub where
  mappings : Finmap (fun _ : Bytes => Bytes) := ∅
  frozen : Bool := false

structure RegistryFacade where
  registry : PathRegistry := {}
  hub : RegistryHub := {}

def normalizeInto (path : Bytes) : Except RegistryStatus Bytes :=
  match normalizePath path maxPath with
  | .error rc => .error rc
  | .ok norm => if hasAllowedRoot norm then .ok norm else .error .invalidPath

def phaseAllowsKernelWrite (phase : RegistrationPhase) : Bool := phase = .p1 ∨ phase = .p2

def phaseAllowsAdapterWrite (phase : RegistrationPhase) : Bool := phase = .p2

/-- `!manifest_ref || manifest_ref[0] == '\0'`. -/
def noManifest (manifestRef : Option Bytes) : Bool := cstr (manifestRef.getD []) = []

namespace PathRegistry

def checkDeclaration (r : PathRegistry) (norm : Bytes) (entry : PathEntry) : RegistryStatus :=
  if ascii "/kernel/" <+: norm then
    if phaseAllowsKernelWrite r.phase = false then .phase
    else if entry.source ≠ .builtin then .manifest
    else .ok
  else if ascii "/adapter/" <+: norm then
    if phaseAllowsAdapterWrite r.phase = false then .phase
    else if entry.source ≠ .plugin then .manifest
    else if noManifest entry.manifestRef then .manifest
    else .ok
  else .ok

def registerDeclaration (r : PathRegistry) (path : Bytes) (entry : PathEntry) :
    RegistryStatus × PathRegistry :=
  match normalizeInto path with
  | .error rc => (rc, r)
  | .ok norm =>
      if r.frozen then (.frozen, r)
      else if r.checkDeclaration norm entry ≠ .ok then (r.checkDeclaration norm entry, r)
      else
        let node := (r.nodes.lookup norm).getD {}
        if node.hasDeclaration then (.alreadyExists, r)
        else
          (.ok, { r with
            nodes := r.nodes.insert norm
              { node with hasDeclaration := true, entry := entry, declaredIn := r.phase } })

def bindInstance (r : PathRegistry) (path : Bytes) (impl : Nat) : RegistryStatus × PathRegistry :=
  match normalizeInto path with
  | .error rc => (rc, r)
  | .ok norm =>
      if r.frozen then (.frozen, r)
      else if ascii "/kernel/" <+: norm ∧ phaseAllowsKernelWrite r.phase = false then (.phase, r)
      else if ascii "/adapter/" <+: norm ∧ phaseAllowsAdapterWrite r.phase = false then (.phase, r)
      else
        match r.nodes.lookup norm with
        | none => (.noDeclaration, r)
        | some node =>
            if node.hasDeclaration = false then (.noDeclaration, r)
            else if node.hasBinding then (.alreadyExists, r)
            else (.ok, { r with nodes := r.nodes.insert norm { node with binding := some impl } })

def resolve (r : PathRegistry) (canonicalPath : Bytes) : RegistryStatus × Option Nat :=
  match normalizeInto canonicalPath with
  | .error rc => (rc, none)
  | .ok norm =>
      match (r.nodes.lookup norm).bind PathNode.binding with
      | none => (.notFound, none)
      | some impl => (.ok, some impl)

def unregister (r : PathRegistry) (path : Bytes) : RegistryStatus × PathRegistry :=
  match normalizeInto path with
  | .error rc => (rc, r)
  | .ok norm =>
      if r.frozen then (.frozen, r)
      else if r.nodes.lookup norm = none then (.notFound, r)
      else (.ok, { r with nodes := r.nodes.erase norm })

def freeze (r : PathRegistry) : RegistryStatus × PathRegistry :=
  (.ok, { r with frozen := true, phase := .frozen })

def advancePhase (r : PathRegistry) (phase : RegistrationPhase) : RegistryStatus × PathRegistry :=
  if phase ≠ .p1 ∧ phase ≠ .p2 then (.invalidArg, r)
  else if r.frozen then (.frozen, r)
  else
    let expected := if phase = .p1 then RegistrationPhase.p0 else .p1
    if r.phase ≠ expected then (.phase, r) else (.ok, { r with phase := phase })

def listMaxDepth : Int := 2

/-- What the loop of `bs_path_registry_list_subtree` does not pass over. -/
def isListed (normPrefix : Bytes) (maxDepth : Int) (p : Bytes) : Bool :=
  let prefixLen := normPrefix.length
  if p.length < prefixLen ∨ p.take prefixLen ≠ normPrefix then false
  else if 0 < prefixLen ∧ prefixLen < p.length ∧ p[prefixLen]? ≠ some 47 then false
  else
    let rel :=
      if prefixLen < p.length then p.drop (prefixLen + if p[prefixLen]? = some 47 then 1 else 0)
      else []
    if rel = [] then false
    else if maxDepth < rel.count 47 then false
    else true

/-- The loop; `out` is what it has copied out. -/
def listFrom (normPrefix : Bytes) (maxDepth outCapacity : Int) : List Bytes → List Bytes → List Bytes
  | [], out => out
  | p :: keys, out =>
      if outCapacity ≤ out.length then out
      else if isListed normPrefix maxDepth p then
        listFrom normPrefix maxDepth outCapacity keys (out ++ [(cstr p).take (maxPath - 1)])
      else listFrom normPrefix maxDepth outCapacity keys out

/-- An order in which an `unordered_map` is walked. -/
structure Walk (nodes : Finmap (fun _ : Bytes => PathNode)) where
  keys : List Bytes
  nodup : keys.Nodup
  mem_keys : ∀ p, p ∈ keys ↔ p ∈ nodes

/-- `bs_path_registry_list_subtree`: the paths that it writes. -/
def listSubtree (r : PathRegistry) (walk : Walk r.nodes) (path : Bytes)
    (maxDepth outCapacity : Int) : Except RegistryStatus (List Bytes) :=
  if maxDepth < 0 ∨ listMaxDepth < maxDepth then .error .invalidArg
  else
    match normalizePath path maxPath with
    | .error rc => .error rc
    | .ok normPrefix => .ok (listFrom normPrefix maxDepth outCapacity walk.keys [])

end PathRegistry

inductive RegistryCall
  | registerDeclaration (path : Bytes) (entry : PathEntry)
  | bindInstance (path : Bytes) (impl : Nat)
  | unregister (path : Bytes)
  | advancePhase (phase : RegistrationPhase)
  | freeze

def RegistryCall.run (r : PathRegistry) : RegistryCall → RegistryStatus × PathRegistry
  | .registerDeclaration path entry => r.registerDeclaration path entry
  | .bindInstance path impl => r.bindInstance path impl
  | .unregister path => r.unregister path
  | .advancePhase phase => r.advancePhase phase
  | .freeze => r.freeze

def PathRegistry.after (r : PathRegistry) (calls : List RegistryCall) : PathRegistry :=
  calls.foldl (fun r call => (call.run r).2) r

/-- `parse_logical_id`: domain, capability and name, which fit buffers of 64, 96
and 64 bytes. -/
def parseLogicalId (logicalId : Bytes) : Option (Bytes × Bytes × Bytes) :=
  if 3 < logicalId.count 46 then none
  else if 46 ∉ logicalId then none
  else
    let firstDot := (logicalId.takeWhile (· ≠ 46)).length
    let name := (logicalId.reverse.takeWhile (· ≠ 46)).reverse
    let lastDot := logicalId.length - 1 - name.length
    if lastDot = firstDot then none
    else if firstDot = 0 ∨ 64 < firstDot + 1 then none
    else
      let capability := (logicalId.drop (firstDot + 1)).take (lastDot - (firstDot + 1))
      if capability = [] ∨ 96 < capability.length + 1 then none
      else if name = [] then none
      else if 64 < name.length + 1 then none
      else if 46 ∈ name then none
      else some (logicalId.take firstDot, capability, name)

namespace RegistryHub

def registerMapping (h : RegistryHub) (logicalId canonicalPath : Bytes) (allowOverride : Bool) :
    RegistryStatus × RegistryHub :=
  if parseLogicalId (cstr logicalId) = none then (.logicalId, h)
  else
    match normalizePath canonicalPath maxPath with
    | .error _ => (.invalidPath, h)
    | .ok norm =>
        if hasAllowedRoot norm = false then (.invalidPath, h)
        else if h.frozen then (.frozen, h)
        else if h.mappings.lookup (cstr logicalId) ≠ none ∧ allowOverride = false then
          (.hubOverride, h)
        else (.ok, { h with mappings := h.mappings.insert (cstr logicalId) norm })

def resolve (h : RegistryHub) (logicalId : Bytes) (outSize : Nat) : Except RegistryStatus Bytes :=
  if parseLogicalId (cstr logicalId) = none then .error .logicalId
  else
    match h.mappings.lookup (cstr logicalId) with
    | none => .error .notFound
    | some path => if outSize < path.length + 1 then .error .invalidArg else .ok path

def freeze (h : RegistryHub) : RegistryStatus × RegistryHub := (.ok, { h with frozen := true })

end RegistryHub

def verifyManifestRef (path : Bytes) (manifestRef : Option Bytes) : RegistryStatus :=
  match normalizePath path maxPath with
  | .error _ => .invalidPath
  | .ok norm =>
      if hasAllowedRoot norm = false then .invalidPath
      else if ascii "/adapter/" <+: norm then if noManifest manifestRef then .manifest else .ok
      else if ascii "/kernel/" <+: norm then .ok
      else .invalidPath

namespace RegistryFacade

def registerDeclaration (f : RegistryFacade) (path : Bytes) (entry : PathEntry) :
    RegistryStatus × RegistryFacade :=
  let manifestRc := verifyManifestRef path entry.manifestRef
  if manifestRc ≠ .ok then (manifestRc, f)
  else
    let r := f.registry.registerDeclaration path entry
    (r.1, { f with registry := r.2 })

def registerHubMapping (f : RegistryFacade) (logicalId canonicalPath : Bytes)
    (allowOverride : Bool) : RegistryStatus × RegistryFacade :=
  let h := f.hub.registerMapping logicalId canonicalPath allowOverride
  (h.1, { f with hub := h.2 })

def advancePhase (f : RegistryFacade) (phase : RegistrationPhase) :
    RegistryStatus × RegistryFacade :=
  let r := f.registry.advancePhase phase
  (r.1, { f with registry := r.2 })

def bindInstance (f : RegistryFacade) (path : Bytes) (impl : Nat) :
    RegistryStatus × RegistryFacade :=
  let r := f.registry.bindInstance path impl
  (r.1, { f with registry := r.2 })

/-- `bs_path_registry_unregister` on the registry of the facade. -/
def unregister (f : RegistryFacade) (path : Bytes) : RegistryStatus × RegistryFacade :=
  let r := f.registry.unregister path
  (r.1, { f with registry := r.2 })

def freeze (f : RegistryFacade) : RegistryStatus × RegistryFacade :=
  let pr := f.registry.freeze
  let hr := f.hub.freeze
  (if pr.1 ≠ .ok then pr.1 else hr.1, { f with registry := pr.2, hub := hr.2 })

def resolve (f : RegistryFacade) (logicalIdOrPath : Bytes) : RegistryStatus × Option Nat :=
  if (cstr logicalIdOrPath).head? = some 47 then f.registry.resolve logicalIdOrPath
  else
    match f.hub.resolve logicalIdOrPath maxPath with
    | .error rc => (rc, none)
    | .ok canonical => f.registry.resolve canonical

end RegistryFacade

inductive FacadeCall
  | registerDeclaration (path : Bytes) (entry : PathEntry)
  | registerHubMapping (logicalId canonicalPath : Bytes) (allowOverride : Bool)
  | advancePhase (phase : RegistrationPhase)
  | bindInstance (path : Bytes) (impl : Nat)
  | unregister (path : Bytes)
  | freeze
  | resolve (logicalIdOrPath : Bytes)

def FacadeCall.run (f : RegistryFacade) : FacadeCall → RegistryStatus × RegistryFacade
  | .registerDeclaration path entry => f.registerDeclaration path entry
  | .registerHubMapping logicalId canonicalPath allowOverride =>
      f.registerHubMapping logicalId canonicalPath allowOverride
  | .advancePhase phase => f.advancePhase phase
  | .bindInstance path impl => f.bindInstance path impl
  | .unregister path => f.unregister path
  | .freeze => f.freeze
  | .resolve logicalIdOrPath => ((f.resolve logicalIdOrPath).1, f)

def RegistryFacade.after (f : RegistryFacade) (calls : List FacadeCall) : RegistryFacade :=
  calls.foldl (fun f call => (call.run f).2) f

end BlessStar.Registry
