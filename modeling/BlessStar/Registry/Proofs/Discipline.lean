import BlessStar.Registry.Facade

/-!
# The discipline of the registry

What each call on the facade can do to it, and what holds after any calls.
-/

namespace BlessStar.Registry.Proofs.Discipline

open Lib.ByteString Registry

structure KernelNode (node : PathNode) : Prop where
  declared : node.hasDeclaration = true
  source : node.entry.source = .builtin
  phase : node.declaredIn = .p1 ∨ node.declaredIn = .p2

structure AdapterNode (node : PathNode) : Prop where
  declared : node.hasDeclaration = true
  source : node.entry.source = .plugin
  manifest : ∃ ref, node.entry.manifestRef = some ref ∧ cstr ref ≠ []
  phase : node.declaredIn = .p2

def IsStored (p : Bytes) : Prop := IsNormalized p ∧ hasAllowedRoot p = true

/-- Every node is a kernel node under `/kernel/` or an adapter node under
`/adapter/`, at a canonical path, and the two frozen flags agree. -/
structure Sound (f : RegistryFacade) : Prop where
  nodes : ∀ p node, f.registry.nodes.lookup p = some node → IsStored p ∧
    (ascii "/kernel/" <+: p ∧ KernelNode node ∨ ascii "/adapter/" <+: p ∧ AdapterNode node)
  targets : ∀ id p, f.hub.mappings.lookup id = some p → IsStored p
  flag : f.registry.frozen = true ↔ f.registry.phase = .frozen
  hub : f.hub.frozen = f.registry.frozen

theorem normalizeInto_eq {path norm : Bytes} (h : normalizeInto path = .ok norm) :
    normalizePath path maxPath = .ok norm ∧ IsStored norm := by
  unfold normalizeInto at h
  cases hnorm : normalizePath path maxPath with
  | error rc =>
      rw [hnorm] at h
      cases h
  | ok n =>
      rw [hnorm] at h
      dsimp only at h
      split at h
      · rename_i hroot
        obtain rfl := Except.ok.inj h
        exact ⟨rfl, isNormalized_of_normalizePath hnorm, hroot⟩
      · cases h

theorem normalizePath_error {path : Bytes} {outSize : Nat} {rc : RegistryStatus}
    (h : normalizePath path outSize = .error rc) : rc ≠ .ok := by
  rintro rfl
  unfold normalizePath at h
  split at h
  · cases h
  split at h
  · cases h
  split at h <;> cases h

theorem normalizeInto_error {path : Bytes} {rc : RegistryStatus}
    (h : normalizeInto path = .error rc) : rc ≠ .ok := by
  rintro rfl
  unfold normalizeInto at h
  cases hnorm : normalizePath path maxPath with
  | error rc =>
      rw [hnorm] at h
      exact normalizePath_error hnorm (Except.error.inj h)
  | ok norm =>
      rw [hnorm] at h
      dsimp only at h
      split at h <;> cases h

theorem kernel_or_adapter {path norm : Bytes} {manifestRef : Option Bytes}
    (hnorm : normalizePath path maxPath = .ok norm) (h : verifyManifestRef path manifestRef = .ok) :
    ascii "/kernel/" <+: norm ∨ ascii "/adapter/" <+: norm := by
  unfold verifyManifestRef at h
  rw [hnorm] at h
  dsimp only at h
  split at h
  · cases h
  split at h
  · rename_i hadapter
    exact Or.inr hadapter
  split at h
  · rename_i hkernel
    exact Or.inl hkernel
  · cases h

theorem not_kernel_and_adapter {p : Bytes} (hkernel : ascii "/kernel/" <+: p)
    (hadapter : ascii "/adapter/" <+: p) : False := by
  obtain ⟨u, rfl⟩ := hkernel
  obtain ⟨v, hv⟩ := hadapter
  have hsecond := congrArg (fun s : Bytes => s[1]?) hv
  simp [ascii] at hsecond

theorem nodes_of_checkDeclaration {r : PathRegistry} {norm : Bytes} {entry : PathEntry}
    {node : PathNode} (hroot : ascii "/kernel/" <+: norm ∨ ascii "/adapter/" <+: norm)
    (h : r.checkDeclaration norm entry = .ok) (hdeclared : node.hasDeclaration = true)
    (hentry : node.entry = entry) (hphase : node.declaredIn = r.phase) :
    ascii "/kernel/" <+: norm ∧ KernelNode node ∨ ascii "/adapter/" <+: norm ∧ AdapterNode node := by
  unfold PathRegistry.checkDeclaration at h
  by_cases hkernel : ascii "/kernel/" <+: norm
  · rw [if_pos hkernel] at h
    split at h
    · cases h
    rename_i hallowed
    split at h
    · cases h
    rename_i hsource
    refine Or.inl ⟨hkernel, hdeclared, ?_, ?_⟩
    · rw [hentry]
      exact not_not.mp hsource
    · rw [hphase, or_iff_not_imp_left]
      simpa [phaseAllowsKernelWrite] using hallowed
  · have hadapter := hroot.resolve_left hkernel
    rw [if_neg hkernel, if_pos hadapter] at h
    split at h
    · cases h
    rename_i hallowed
    split at h
    · cases h
    rename_i hsource
    split at h
    · cases h
    rename_i hmanifest
    refine Or.inr ⟨hadapter, hdeclared, ?_, ?_, ?_⟩
    · rw [hentry]
      exact not_not.mp hsource
    · rw [hentry]
      cases href : entry.manifestRef with
      | none =>
          rw [href] at hmanifest
          exact absurd rfl hmanifest
      | some ref =>
          rw [href] at hmanifest
          refine ⟨ref, rfl, ?_⟩
          simpa [noManifest] using hmanifest
    · rw [hphase]
      simpa [phaseAllowsAdapterWrite] using hallowed

theorem registerDeclaration_cases (f : RegistryFacade) (path : Bytes) (entry : PathEntry) :
    (∃ rc, rc ≠ .ok ∧ f.registerDeclaration path entry = (rc, f)) ∨
    ∃ norm node, IsStored norm ∧ f.registry.frozen = false ∧
      (ascii "/kernel/" <+: norm ∧ KernelNode node ∨ ascii "/adapter/" <+: norm ∧ AdapterNode node) ∧
      f.registerDeclaration path entry =
        (.ok, { f with registry := { f.registry with nodes := f.registry.nodes.insert norm node } }) := by
  unfold RegistryFacade.registerDeclaration
  dsimp only
  by_cases hverify : verifyManifestRef path entry.manifestRef = .ok
  · rw [if_neg (not_not.mpr hverify)]
    unfold PathRegistry.registerDeclaration
    cases hinto : normalizeInto path with
    | error rc =>
        refine Or.inl ⟨rc, ?_, rfl⟩
        exact normalizeInto_error hinto
    | ok norm =>
        obtain ⟨hnorm, hstored⟩ := normalizeInto_eq hinto
        dsimp only
        by_cases hfrozen : f.registry.frozen = true
        · rw [if_pos hfrozen]
          exact Or.inl ⟨.frozen, by decide, rfl⟩
        by_cases hcheck : f.registry.checkDeclaration norm entry ≠ .ok
        · rw [if_neg hfrozen, if_pos hcheck]
          exact Or.inl ⟨_, hcheck, rfl⟩
        rw [if_neg hfrozen, if_neg hcheck]
        split
        · exact Or.inl ⟨.alreadyExists, by decide, rfl⟩
        · refine Or.inr ⟨norm, _, hstored, Bool.not_eq_true _ ▸ hfrozen, ?_, rfl⟩
          exact nodes_of_checkDeclaration (kernel_or_adapter hnorm hverify) (not_not.mp hcheck)
            rfl rfl rfl
  · rw [if_pos hverify]
    exact Or.inl ⟨_, hverify, rfl⟩

theorem bindInstance_cases (f : RegistryFacade) (path : Bytes) (impl : Nat) :
    (∃ rc, rc ≠ .ok ∧ f.bindInstance path impl = (rc, f)) ∨
    ∃ norm node, f.registry.nodes.lookup norm = some node ∧ f.registry.frozen = false ∧
      f.bindInstance path impl =
        (.ok, { f with registry := { f.registry with
          nodes := f.registry.nodes.insert norm { node with binding := some impl } } }) := by
  unfold RegistryFacade.bindInstance PathRegistry.bindInstance
  cases hinto : normalizeInto path with
  | error rc => exact Or.inl ⟨rc, normalizeInto_error hinto, rfl⟩
  | ok norm =>
      dsimp only
      by_cases hfrozen : f.registry.frozen = true
      · rw [if_pos hfrozen]
        exact Or.inl ⟨.frozen, by decide, rfl⟩
      rw [if_neg hfrozen]
      split
      · exact Or.inl ⟨.phase, by decide, rfl⟩
      split
      · exact Or.inl ⟨.phase, by decide, rfl⟩
      cases hlookup : f.registry.nodes.lookup norm with
      | none => exact Or.inl ⟨.noDeclaration, by decide, rfl⟩
      | some node =>
          dsimp only
          split
          · exact Or.inl ⟨.noDeclaration, by decide, rfl⟩
          split
          · exact Or.inl ⟨.alreadyExists, by decide, rfl⟩
          · exact Or.inr ⟨norm, node, hlookup, Bool.not_eq_true _ ▸ hfrozen, rfl⟩

theorem unregister_cases (f : RegistryFacade) (path : Bytes) :
    (∃ rc, rc ≠ .ok ∧ f.unregister path = (rc, f)) ∨
    ∃ norm, f.registry.frozen = false ∧
      f.unregister path =
        (.ok, { f with registry := { f.registry with nodes := f.registry.nodes.erase norm } }) := by
  unfold RegistryFacade.unregister PathRegistry.unregister
  cases hinto : normalizeInto path with
  | error rc => exact Or.inl ⟨rc, normalizeInto_error hinto, rfl⟩
  | ok norm =>
      dsimp only
      by_cases hfrozen : f.registry.frozen = true
      · rw [if_pos hfrozen]
        exact Or.inl ⟨.frozen, by decide, rfl⟩
      rw [if_neg hfrozen]
      split
      · exact Or.inl ⟨.notFound, by decide, rfl⟩
      · exact Or.inr ⟨norm, Bool.not_eq_true _ ▸ hfrozen, rfl⟩

theorem registerHubMapping_cases (f : RegistryFacade) (logicalId canonicalPath : Bytes)
    (allowOverride : Bool) :
    (∃ rc, rc ≠ .ok ∧ f.registerHubMapping logicalId canonicalPath allowOverride = (rc, f)) ∨
    ∃ norm, IsStored norm ∧ f.hub.frozen = false ∧
      f.registerHubMapping logicalId canonicalPath allowOverride =
        (.ok, { f with hub := { f.hub with
          mappings := f.hub.mappings.insert (cstr logicalId) norm } }) := by
  unfold RegistryFacade.registerHubMapping RegistryHub.registerMapping
  dsimp only
  split
  · exact Or.inl ⟨.logicalId, by decide, rfl⟩
  cases hnorm : normalizePath canonicalPath maxPath with
  | error rc => exact Or.inl ⟨.invalidPath, by decide, rfl⟩
  | ok norm =>
      dsimp only
      by_cases hroot : hasAllowedRoot norm = false
      · rw [if_pos hroot]
        exact Or.inl ⟨.invalidPath, by decide, rfl⟩
      rw [if_neg hroot]
      by_cases hfrozen : f.hub.frozen = true
      · rw [if_pos hfrozen]
        exact Or.inl ⟨.frozen, by decide, rfl⟩
      rw [if_neg hfrozen]
      split
      · exact Or.inl ⟨.hubOverride, by decide, rfl⟩
      · have hstored : IsStored norm :=
          ⟨isNormalized_of_normalizePath hnorm, Bool.not_eq_false _ ▸ hroot⟩
        exact Or.inr ⟨norm, hstored, Bool.not_eq_true _ ▸ hfrozen, rfl⟩

theorem advancePhase_cases (f : RegistryFacade) (phase : RegistrationPhase) :
    (∃ rc, rc ≠ .ok ∧ f.advancePhase phase = (rc, f)) ∨
    (f.registry.frozen = false ∧ (f.registry.phase = .p0 ∧ phase = .p1 ∨
      f.registry.phase = .p1 ∧ phase = .p2) ∧
      f.advancePhase phase = (.ok, { f with registry := { f.registry with phase := phase } })) := by
  unfold RegistryFacade.advancePhase PathRegistry.advancePhase
  dsimp only
  split
  · exact Or.inl ⟨.invalidArg, by decide, rfl⟩
  rename_i harg
  by_cases hfrozen : f.registry.frozen = true
  · rw [if_pos hfrozen]
    exact Or.inl ⟨.frozen, by decide, rfl⟩
  rw [if_neg hfrozen]
  by_cases hexpected : f.registry.phase ≠ if phase = .p1 then .p0 else .p1
  · rw [if_pos hexpected]
    exact Or.inl ⟨.phase, by decide, rfl⟩
  rw [if_neg hexpected]
  refine Or.inr ⟨Bool.not_eq_true _ ▸ hfrozen, ?_, rfl⟩
  rw [not_not] at hexpected
  by_cases hone : phase = .p1
  · rw [if_pos hone] at hexpected
    exact Or.inl ⟨hexpected, hone⟩
  · rw [if_neg hone] at hexpected
    refine Or.inr ⟨hexpected, ?_⟩
    by_contra htwo
    exact harg ⟨hone, htwo⟩

inductive Effect (f : RegistryFacade) : RegistryFacade → Prop
  | nothing : Effect f f
  | declared {norm node} : IsStored norm → f.registry.frozen = false →
      (ascii "/kernel/" <+: norm ∧ KernelNode node ∨ ascii "/adapter/" <+: norm ∧ AdapterNode node) →
      Effect f { f with registry :=
        { f.registry with nodes := f.registry.nodes.insert norm node } }
  | bound {norm node} (impl : Nat) : f.registry.nodes.lookup norm = some node →
      f.registry.frozen = false →
      Effect f { f with registry := { f.registry with
        nodes := f.registry.nodes.insert norm { node with binding := some impl } } }
  | erased (norm : Bytes) : f.registry.frozen = false →
      Effect f { f with registry := { f.registry with nodes := f.registry.nodes.erase norm } }
  | mapped {norm} (id : Bytes) : IsStored norm → f.hub.frozen = false →
      Effect f { f with hub := { f.hub with mappings := f.hub.mappings.insert id norm } }
  | moved {phase} : f.registry.frozen = false →
      (f.registry.phase = .p0 ∧ phase = .p1 ∨ f.registry.phase = .p1 ∧ phase = .p2) →
      Effect f { f with registry := { f.registry with phase := phase } }
  | frozen : Effect f
      { registry := { f.registry with frozen := true, phase := .frozen }
        hub := { f.hub with frozen := true } }

/-- **The outcomes of a call**: an error and no change, or one of the effects. -/
theorem run_cases (f : RegistryFacade) (call : FacadeCall) :
    ((call.run f).1 ≠ .ok ∧ (call.run f).2 = f) ∨
      ((call.run f).1 = .ok ∧ Effect f (call.run f).2) := by
  cases call with
  | registerDeclaration path entry =>
      rw [FacadeCall.run]
      rcases registerDeclaration_cases f path entry with
        ⟨rc, hrc, hrun⟩ | ⟨norm, node, hstored, hfrozen, hnode, hrun⟩
      · exact Or.inl (by rw [hrun]; exact ⟨hrc, rfl⟩)
      · exact Or.inr (by rw [hrun]; exact ⟨rfl, .declared hstored hfrozen hnode⟩)
  | registerHubMapping logicalId canonicalPath allowOverride =>
      rw [FacadeCall.run]
      rcases registerHubMapping_cases f logicalId canonicalPath allowOverride with
        ⟨rc, hrc, hrun⟩ | ⟨norm, hstored, hfrozen, hrun⟩
      · exact Or.inl (by rw [hrun]; exact ⟨hrc, rfl⟩)
      · exact Or.inr (by rw [hrun]; exact ⟨rfl, .mapped _ hstored hfrozen⟩)
  | advancePhase phase =>
      rw [FacadeCall.run]
      rcases advancePhase_cases f phase with ⟨rc, hrc, hrun⟩ | ⟨hfrozen, hmoves, hrun⟩
      · exact Or.inl (by rw [hrun]; exact ⟨hrc, rfl⟩)
      · exact Or.inr (by rw [hrun]; exact ⟨rfl, .moved hfrozen hmoves⟩)
  | bindInstance path impl =>
      rw [FacadeCall.run]
      rcases bindInstance_cases f path impl with
        ⟨rc, hrc, hrun⟩ | ⟨norm, node, hnode, hfrozen, hrun⟩
      · exact Or.inl (by rw [hrun]; exact ⟨hrc, rfl⟩)
      · exact Or.inr (by rw [hrun]; exact ⟨rfl, .bound impl hnode hfrozen⟩)
  | unregister path =>
      rw [FacadeCall.run]
      rcases unregister_cases f path with ⟨rc, hrc, hrun⟩ | ⟨norm, hfrozen, hrun⟩
      · exact Or.inl (by rw [hrun]; exact ⟨hrc, rfl⟩)
      · exact Or.inr (by rw [hrun]; exact ⟨rfl, .erased norm hfrozen⟩)
  | freeze => exact Or.inr ⟨rfl, .frozen⟩
  | resolve logicalIdOrPath =>
      by_cases hok : (f.resolve logicalIdOrPath).1 = .ok
      · exact Or.inr ⟨hok, .nothing⟩
      · exact Or.inl ⟨hok, rfl⟩

theorem Sound.initial : Sound {} := by
  constructor
  · intro p node h
    exact absurd h (by simp)
  · intro id p h
    exact absurd h (by simp)
  · decide
  · rfl

theorem Sound.effect {f f' : RegistryFacade} (h : Sound f) (heffect : Effect f f') : Sound f' := by
  cases heffect with
  | nothing => exact h
  | @declared norm node hstored _ hnode =>
      refine ⟨fun p node' hlookup => ?_, h.targets, h.flag, h.hub⟩
      dsimp only at hlookup
      by_cases hp : p = norm
      · rw [hp, Finmap.lookup_insert] at hlookup
        cases hlookup
        exact hp ▸ ⟨hstored, hnode⟩
      · rw [Finmap.lookup_insert_of_ne _ hp] at hlookup
        exact h.nodes p node' hlookup
  | @bound norm node impl hold _ =>
      refine ⟨fun p node' hlookup => ?_, h.targets, h.flag, h.hub⟩
      dsimp only at hlookup
      by_cases hp : p = norm
      · rw [hp, Finmap.lookup_insert] at hlookup
        cases hlookup
        obtain ⟨hstored, hnode⟩ := h.nodes norm node hold
        rw [hp]
        refine ⟨hstored, ?_⟩
        -- a node keeps its declaration when it is bound
        rcases hnode with ⟨hroot, hkernel⟩ | ⟨hroot, hadapter⟩
        · exact Or.inl ⟨hroot, hkernel.declared, hkernel.source, hkernel.phase⟩
        · exact Or.inr
            ⟨hroot, hadapter.declared, hadapter.source, hadapter.manifest, hadapter.phase⟩
      · rw [Finmap.lookup_insert_of_ne _ hp] at hlookup
        exact h.nodes p node' hlookup
  | erased norm _ =>
      refine ⟨fun p node hlookup => ?_, h.targets, h.flag, h.hub⟩
      dsimp only at hlookup
      by_cases hp : p = norm
      · rw [hp, Finmap.lookup_erase] at hlookup
        cases hlookup
      · rw [Finmap.lookup_erase_ne hp] at hlookup
        exact h.nodes p node hlookup
  | mapped id hstored _ =>
      refine ⟨h.nodes, fun id' p hlookup => ?_, h.flag, h.hub⟩
      dsimp only at hlookup
      by_cases hid : id' = id
      · rw [hid, Finmap.lookup_insert] at hlookup
        cases hlookup
        exact hstored
      · rw [Finmap.lookup_insert_of_ne _ hid] at hlookup
        exact h.targets id' p hlookup
  | moved hfrozen hmoves =>
      refine ⟨h.nodes, h.targets, ?_, h.hub⟩
      dsimp only
      rw [hfrozen]
      refine iff_of_false Bool.false_ne_true ?_
      rcases hmoves with ⟨-, rfl⟩ | ⟨-, rfl⟩ <;> decide
  | frozen => exact ⟨h.nodes, h.targets, iff_of_true rfl rfl, rfl⟩

theorem Sound.run {f : RegistryFacade} (h : Sound f) (call : FacadeCall) : Sound (call.run f).2 := by
  rcases run_cases f call with ⟨-, hsame⟩ | ⟨-, heffect⟩
  · rw [hsame]
    exact h
  · exact h.effect heffect

theorem Sound.after {f : RegistryFacade} (h : Sound f) (calls : List FacadeCall) :
    Sound (f.after calls) := by
  induction calls generalizing f with
  | nil => exact h
  | cons call calls ih => exact ih (h.run call)

def PhaseMoves (phase phase' : RegistrationPhase) : Prop :=
  phase' = phase ∨ (phase = .p0 ∧ phase' = .p1) ∨ (phase = .p1 ∧ phase' = .p2) ∨ phase' = .frozen

theorem Effect.phase {f f' : RegistryFacade} (h : Effect f f') :
    PhaseMoves f.registry.phase f'.registry.phase := by
  cases h with
  | moved _ hmoves =>
      rcases hmoves with hone | htwo
      · exact Or.inr (Or.inl hone)
      · exact Or.inr (Or.inr (Or.inl htwo))
  | frozen => exact Or.inr (Or.inr (Or.inr rfl))
  | _ => exact Or.inl rfl

structure SameFrozen (f f' : RegistryFacade) : Prop where
  frozen : f'.registry.frozen = true
  nodes : f'.registry.nodes = f.registry.nodes
  mappings : f'.hub.mappings = f.hub.mappings
  phase : f'.registry.phase = .frozen

theorem SameFrozen.run {f f' : RegistryFacade} (hsound : Sound f') (h : SameFrozen f f')
    (call : FacadeCall) : SameFrozen f (call.run f').2 := by
  rcases run_cases f' call with ⟨-, hsame⟩ | ⟨-, heffect⟩
  · rw [hsame]
    exact h
  have hopen : ∀ b : Bool, f'.registry.frozen = b → b = false → False := by
    intro b hb hfalse
    rw [h.frozen, hfalse] at hb
    cases hb
  generalize (call.run f').2 = f'' at heffect
  cases heffect with
  | nothing => exact h
  | declared _ hfrozen _ => exact (hopen _ rfl hfrozen).elim
  | bound impl _ hfrozen => exact (hopen _ rfl hfrozen).elim
  | erased norm hfrozen => exact (hopen _ rfl hfrozen).elim
  | mapped id _ hfrozen => exact (hopen _ rfl (hsound.hub ▸ hfrozen)).elim
  | moved hfrozen _ => exact (hopen _ rfl hfrozen).elim
  | frozen => exact ⟨rfl, h.nodes, h.mappings, rfl⟩

theorem SameFrozen.after {f f' : RegistryFacade} (hsound : Sound f') (h : SameFrozen f f')
    (calls : List FacadeCall) : SameFrozen f (f'.after calls) := by
  induction calls generalizing f' with
  | nil => exact h
  | cons call calls ih => exact ih (hsound.run call) (h.run hsound call)

def UnderKernel (p : Bytes) : Prop := p = ascii "/kernel" ∨ ascii "/kernel/" <+: p

def UnderAdapter (p : Bytes) : Prop := p = ascii "/adapter" ∨ ascii "/adapter/" <+: p

structure Disciplined (f : RegistryFacade) : Prop where
  bound : ∀ p node, f.registry.nodes.lookup p = some node → node.hasBinding = true →
    node.hasDeclaration = true
  kernel : ∀ p node, f.registry.nodes.lookup p = some node → UnderKernel p → KernelNode node
  adapter : ∀ p node, f.registry.nodes.lookup p = some node → UnderAdapter p → AdapterNode node
  stored : ∀ p node, f.registry.nodes.lookup p = some node → IsStored p
  targets : ∀ id p, f.hub.mappings.lookup id = some p → IsStored p

/-- What holds of the facade after calls, of the next call and of all calls
behind a freeze. -/
structure DisciplinedAfter (calls : List FacadeCall) : Prop where
  state : Disciplined (({} : RegistryFacade).after calls)
  phase : ∀ call : FacadeCall, PhaseMoves (({} : RegistryFacade).after calls).registry.phase
    (call.run (({} : RegistryFacade).after calls)).2.registry.phase
  failed : ∀ call : FacadeCall, (call.run (({} : RegistryFacade).after calls)).1 ≠ .ok →
    (call.run (({} : RegistryFacade).after calls)).2 = ({} : RegistryFacade).after calls
  frozen : ∀ later, SameFrozen (({} : RegistryFacade).after calls)
    (({} : RegistryFacade).after (calls ++ .freeze :: later))

theorem kernelNode_of_under {p : Bytes} {node : PathNode} (hp : UnderKernel p)
    (h : ascii "/kernel/" <+: p ∧ KernelNode node ∨ ascii "/adapter/" <+: p ∧ AdapterNode node) :
    KernelNode node := by
  rcases h with ⟨-, hkernel⟩ | ⟨hadapter, -⟩
  · exact hkernel
  · rcases hp with rfl | hkernel
    · exact absurd hadapter (by decide)
    · exact (not_kernel_and_adapter hkernel hadapter).elim

theorem adapterNode_of_under {p : Bytes} {node : PathNode} (hp : UnderAdapter p)
    (h : ascii "/kernel/" <+: p ∧ KernelNode node ∨ ascii "/adapter/" <+: p ∧ AdapterNode node) :
    AdapterNode node := by
  rcases h with ⟨hkernel, -⟩ | ⟨-, hadapter⟩
  · rcases hp with rfl | hadapter
    · exact absurd hkernel (by decide)
    · exact (not_kernel_and_adapter hkernel hadapter).elim
  · exact hadapter

theorem Sound.disciplined {f : RegistryFacade} (h : Sound f) : Disciplined f := by
  constructor
  · intro p node hlookup _
    rcases (h.nodes p node hlookup).2 with ⟨-, hkernel⟩ | ⟨-, hadapter⟩
    · exact hkernel.declared
    · exact hadapter.declared
  · exact fun p node hlookup hp => kernelNode_of_under hp (h.nodes p node hlookup).2
  · exact fun p node hlookup hp => adapterNode_of_under hp (h.nodes p node hlookup).2
  · exact fun p node hlookup => (h.nodes p node hlookup).1
  · exact h.targets

/-- **The registry is disciplined** after any calls on the facade. -/
theorem registry_discipline (calls : List FacadeCall) : DisciplinedAfter calls := by
  have hsound : Sound (({} : RegistryFacade).after calls) := Sound.initial.after calls
  constructor
  · exact hsound.disciplined
  · intro call
    rcases run_cases (({} : RegistryFacade).after calls) call with ⟨-, hsame⟩ | ⟨-, heffect⟩
    · rw [hsame]
      exact Or.inl rfl
    · exact heffect.phase
  · intro call hfailed
    rcases run_cases (({} : RegistryFacade).after calls) call with ⟨-, hsame⟩ | ⟨hok, -⟩
    · exact hsame
    · exact absurd hok hfailed
  · intro later
    have hsplit : ({} : RegistryFacade).after (calls ++ .freeze :: later) =
        (FacadeCall.freeze.run (({} : RegistryFacade).after calls)).2.after later := by
      rw [RegistryFacade.after, List.foldl_append]
      rfl
    have hfreeze : SameFrozen (({} : RegistryFacade).after calls)
        (FacadeCall.freeze.run (({} : RegistryFacade).after calls)).2 := ⟨rfl, rfl, rfl, rfl⟩
    rw [hsplit]
    exact hfreeze.after (hsound.run .freeze) later

end BlessStar.Registry.Proofs.Discipline
