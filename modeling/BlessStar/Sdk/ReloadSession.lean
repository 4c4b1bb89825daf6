import BlessStar.Orchestration.GatedRun
import BlessStar.Session.SnapshotRead

/-!
# Reload sessions

`ConfigReloadSession::Commit` of `config_reload_session.cpp`: the added file URIs
go through a batch controller, then the added keys are gated and synced one by
one.  Nothing else works on the context during a commit.
-/

namespace BlessStar.Sdk

open Lib.ByteString Orchestration Session State

/-- The gates of a session: a policy gate is `PrecheckV1InstructionsForScenario`
for its policy, a custom gate the function of its entry. -/
structure SessionGates where
  noGate : Bool := false
  policyGates : List (Bytes → IRInstructionList → Bool) := []
  customGates : List (Bytes → Int) := []

/-- `session_gate_fn`. -/
def sessionGate {ρ : Type} (P : ConfigParser ρ) (gates : SessionGates) (data : Bytes) : Int :=
  if gates.noGate then reloadGateOk
  else if data = [] then reloadGateParseFail
  else
    match parseAndVerifyBytes P data with
    | .error rc => rc
    | .ok instructions =>
        if ¬∀ policy ∈ gates.policyGates, policy data instructions = true then reloadGateIrReject
        else if ¬∀ gate ∈ gates.customGates, gate data = 0 then reloadGateIrReject
        else reloadGateOk

structure CommitState (σ : Type) where
  stateBus : StateBus := fun _ => none
  s : σ

def commitFrame (σ : Type) : StateFrame (CommitState σ) σ where
  inner c := c.s
  put s c := { c with s := s }

def emitTransitions (bus : StateBus) (path : Bytes) (emissions : List Emission) : StateBus :=
  emissions.foldl (fun bus e => bus.setState path e.toState e.data true) bus

section Commit

variable {ρ σ : Type}

/-- `bs_adapter_attach_config_sync_path`; `inCallback` is
`bs_reentrancy_in_state_callback`. -/
def configSyncPath (inCallback : Bool) (path data : Bytes) (c : CommitState σ) :
    Int × CommitState σ :=
  if inCallback then (concErrReentrant, c)
  else
    match syncEmissions c.stateBus path data with
    | .error rc => (rc, c)
    | .ok emissions => (0, { c with stateBus := emitTransitions c.stateBus path emissions })

structure SessionEnv (ρ σ : Type) where
  parser : ConfigParser ρ
  env : ReloadEnv σ
  inCallback : Bool := false

def SessionEnv.reloadEnv (E : SessionEnv ρ σ) : ReloadEnv (CommitState σ) :=
  { E.env.frame (commitFrame σ) with
    inStateCallback := fun _ => E.inCallback
    hasManager := fun _ => true
    configSyncPath := configSyncPath E.inCallback }

/-- `ConfigReloadSession`: `pendingBytes` in the order of its `std::map`, and
`pendingUris` as they were added. -/
structure ConfigReloadSession (σ : Type) where
  gates : SessionGates := {}
  pendingBytes : List (Bytes × Bytes) := []
  pendingUris : List Bytes := []
  userReadFn : Option (ReloadPathReadFn σ) := none
  sorted : pendingBytes.Pairwise fun e e' => uriLe e.1 e'.1 = true ∧ e.1 ≠ e'.1
  bytesNonempty : ∀ e ∈ pendingBytes, e.2 ≠ []
  urisNonempty : ∀ uri ∈ pendingUris, uri ≠ []
  urisNoNul : ∀ uri ∈ pendingUris, (0 : UInt8) ∉ uri

def memUri (key : Bytes) : Bytes := ascii "mem://" ++ key

def sessionReadFn (pendingBytes : List (Bytes × Bytes)) (userReadFn : ReloadPathReadFn σ) :
    ReloadPathReadFn (CommitState σ) := fun uri c =>
  if ascii "mem://" <+: uri then
    ((pendingBytes.find? fun e => e.1 = uri.drop 6).map (·.2), c)
  else (commitFrame σ).lift (userReadFn uri) c

/-- `ReportStatus`, as far as a commit sets it. -/
inductive ReportStatus
  | success
  | failed
  deriving DecidableEq, Repr

inductive CommitError
  | noPathsAdded
  | failedToAddUri (uri : Bytes)
  | gateRejected (key : Bytes) (rc : Int)
  | syncPathFailed (key : Bytes) (rc : Int)
  deriving DecidableEq, Repr

structure CommitReport where
  status : ReportStatus := .success
  entries : List CommitError := []
  deriving DecidableEq, Repr

def CommitReport.addError (report : CommitReport) (error : CommitError) : CommitReport :=
  { report with entries := error :: report.entries }

def CommitReport.setStatus (report : CommitReport) (status : ReportStatus) : CommitReport :=
  { report with status := status }

/-- The file URIs of a commit given to its controller; a URI that is refused is only
reported. -/
def addUris : List Bytes → CommitReport → ReloadBatchController σ →
    CommitReport × ReloadBatchController σ
  | [], report, ctrl => (report, ctrl)
  | uri :: uris, report, ctrl =>
      let added := ctrl.addPath uri
      addUris uris (if added.1 ≠ 0 then report.addError (.failedToAddUri uri) else report) added.2

def sessionController (session : ConfigReloadSession σ) :
    ReloadBatchController (CommitState σ) where
  maxInflight := 8
  scheme := .perPath
  readFn := session.userReadFn.map (sessionReadFn session.pendingBytes)

def sessionCall (E : SessionEnv ρ σ) (session : ConfigReloadSession σ) :
    BatchCall (CommitState σ) where
  env := E.reloadEnv
  gateFn := some fun _ data c => (sessionGate E.parser session.gates data, c)
  ctrl := (addUris session.pendingUris {} (sessionController session)).2

/-- `bs_adapter_attach_reload_batch_destroy`, with what it does to the context. -/
def destroyController (E : SessionEnv ρ σ) (g : Gated (CommitState σ)) : Gated (CommitState σ) :=
  { g with s := { g.s with s := E.env.snapshotClearAll g.s.s } }

def commitFiles (E : SessionEnv ρ σ) (session : ConfigReloadSession σ)
    (g : Gated (CommitState σ)) : Bool × CommitReport × Gated (CommitState σ) :=
  if session.pendingUris = [] then (true, {}, g)
  else
    let report := (addUris session.pendingUris {} (sessionController session)).1
    let run := gatedRun E.parser (sessionCall E session) g
    if run.1 = 0 ∧ run.2.1.outcome = .allOk then (true, report, destroyController E run.2.2)
    else (false, report.setStatus .failed, destroyController E run.2.2)

def gateKey (P : ConfigParser ρ) (key data : Bytes) (g : Gated (CommitState σ)) :
    Gated (CommitState σ) :=
  { g with
    results :=
      match P.parseBytes data with
      | some parsed => g.results.setGateResult (memUri key) parsed.1
      | none => g.results
    passed := (memUri key, data) :: g.passed }

def commitMems (E : SessionEnv ρ σ) (gates : SessionGates) :
    List (Bytes × Bytes) → CommitReport → Gated (CommitState σ) →
      CommitReport × Gated (CommitState σ)
  | [], report, g => (report, g)
  | (key, data) :: rest, report, g =>
      let gateRc := sessionGate E.parser gates data
      if gateRc ≠ reloadGateOk then
        ((report.addError (.gateRejected key gateRc)).setStatus .failed, g)
      else
        let g := gateKey E.parser key data g
        let sync := configSyncPath E.inCallback (memUri key) data g.s
        let g := { g with s := sync.2 }
        if sync.1 ≠ 0 then ((report.addError (.syncPathFailed key sync.1)).setStatus .failed, g)
        else commitMems E gates rest report g

/-- `ConfigReloadSession::Commit`, with the gate results of its context; the
history of what has passed a gate begins with the commit. -/
def commit (E : SessionEnv ρ σ) (session : ConfigReloadSession σ) (results : GateResults)
    (c : CommitState σ) : CommitReport × Gated (CommitState σ) :=
  let g : Gated (CommitState σ) := { results := results, s := c }
  if session.pendingBytes = [] ∧ session.pendingUris = [] then
    ((CommitReport.addError {} .noPathsAdded).setStatus .failed, g)
  else
    let files := commitFiles E session g
    if files.1 = false then files.2
    else commitMems E session.gates session.pendingBytes files.2.1 files.2.2

def getConfigByUri (c : CommitState σ) (uri : Bytes) : SnapshotResult :=
  copySnapshot (pinSnapshot c.stateBus uri) true

/-- The URI that `ConfigReloadSession::GetConfig` looks up. -/
def lookupUri (key : Bytes) : Bytes := if (58 : UInt8) ∈ key then key else memUri key

def getConfig (c : CommitState σ) (key : Bytes) : SnapshotResult := getConfigByUri c (lookupUri key)

end Commit

end BlessStar.Sdk
