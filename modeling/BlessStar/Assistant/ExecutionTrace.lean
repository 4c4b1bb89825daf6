import BlessStar.Lib.Utf8Text

/-!
# Traces and receipts of tool calls

`executionTrace.ts`: the nodes of executed calls with their ids, the registry of
receipts, and the balancing of plan steps against it.  A `Map` is the list of
its entries, the latest first; time stamps are left out.
-/

namespace BlessStar.Assistant

open Lib.ByteString Lib.Utf8Text

def utf16Of (s : String) : Utf16 := s.toList.flatMap fun c => utf16 c.toNat

def widen (s : Bytes) : Utf16 := s.map UInt8.toUInt16

structure TraceNode where
  callId : Utf16
  toolName : Utf16
  outputSummary : Utf16
  dependsOn : List Utf16 := []
  deriving DecidableEq, Repr

structure ExecutionTraceManager where
  round : Nat := 0
  nodes : List TraceNode := []
  deriving DecidableEq, Repr

/-- `name.split('_')`. -/
def splitUnderscore : Utf16 → List Utf16
  | [] => [[]]
  | c :: s =>
      if c = 95 then [] :: splitUnderscore s
      else
        match splitUnderscore s with
        | [] => [[c]]
        | p :: ps => (c :: p) :: ps

def toolNameToShort (name : Utf16) : Utf16 :=
  let parts := splitUnderscore name
  if 2 ≤ parts.length then parts.flatMap fun p => p.take 1 else name.take 3

/-- `String(n).padStart(2, '0')`. -/
def padStart2 (n : Nat) : Bytes := List.replicate (2 - (decimal n).length) 48 ++ decimal n

namespace ExecutionTraceManager

def newRound (m : ExecutionTraceManager) : ExecutionTraceManager := { m with round := m.round + 1 }

def nextId (m : ExecutionTraceManager) (toolName : Utf16) : Utf16 :=
  utf16Of "call_" ++ toolNameToShort toolName ++ [95] ++ widen (padStart2 (m.nodes.length + 1))

/-- `addNode`; an empty `callId` is a missing one. -/
def addNode (m : ExecutionTraceManager) (callId toolName outputSummary : Utf16)
    (dependsOn : List Utf16) : TraceNode × ExecutionTraceManager :=
  let traceNode : TraceNode :=
    ⟨if callId = [] then m.nextId toolName else callId, toolName, outputSummary, dependsOn⟩
  (traceNode, { m with nodes := m.nodes ++ [traceNode] })

/-- `nodes.slice(start)`. -/
def sliceFrom (nodes : List TraceNode) (start : Int) : List TraceNode :=
  if start < 0 then nodes.drop (nodes.length - start.natAbs) else nodes.drop start.toNat

def reset (m : ExecutionTraceManager) (maxKeep : Int) : ExecutionTraceManager :=
  if maxKeep < m.round then { m with nodes := sliceFrom m.nodes (-10 * maxKeep) } else m

end ExecutionTraceManager

/-- The `sha256` of the registry: a 32-bit rolling hash, in hexadecimal. -/
def sha256 (input : Utf16) : Bytes :=
  let hash := input.foldl (fun h c => h * 32 - h + UInt32.ofNat c.toNat) 0
  (numeral 16 (hash.toBitVec.toInt.natAbs)).take 8

inductive ToolStatus
  | success
  | failed
  deriving DecidableEq, Repr

structure ToolCallRecord where
  callId : Utf16
  toolName : Utf16
  outputHash : Bytes
  status : ToolStatus
  deriving DecidableEq, Repr

structure ToolCallRegistry where
  records : List (Utf16 × ToolCallRecord) := []
  deriving DecidableEq, Repr

namespace ToolCallRegistry

def record (r : ToolCallRegistry) (callId toolName output : Utf16) (status : ToolStatus) :
    ToolCallRegistry :=
  ⟨(callId, ⟨callId, toolName, sha256 output, status⟩) :: r.records⟩

def findByCallId (r : ToolCallRegistry) (id : Utf16) : Option ToolCallRecord :=
  r.records.lookup id

/-- The `record && record.status === 'success'` of the balancing. -/
def succeeded (r : ToolCallRegistry) (id : Utf16) : Bool :=
  match r.findByCallId id with
  | some record => record.status = .success
  | none => false

/-- `[a-z0-9_]`. -/
def isIdUnit (c : UInt16) : Bool := (97 ≤ c ∧ c ≤ 122) ∨ (48 ≤ c ∧ c ≤ 57) ∨ c = 95

/-- `extractCallIds`: the matches of `\[(call_[a-z0-9_]+)\]` from left to right;
each turn consumes a unit, so the length of the text is enough fuel. -/
def extractCallIds : Nat → Utf16 → List Utf16
  | 0, _ => []
  | _ + 1, [] => []
  | fuel + 1, c :: s =>
      let rest := s.drop 5
      let word := rest.takeWhile isIdUnit
      if utf16Of "[call_" <+: c :: s ∧ word ≠ [] ∧ (rest.drop word.length).head? = some 93 then
        (utf16Of "call_" ++ word) :: extractCallIds fuel (rest.drop (word.length + 1))
      else extractCallIds fuel s

/-- The words of `hasToolClaims`. -/
def claimMarkers : List Utf16 :=
  [utf16Of "已列出", utf16Of "已读取", utf16Of "已创建", utf16Of "已更新", utf16Of "已写入", utf16Of "已生成"]

/-- The `verified` of `verifyAIClaims`. -/
def verifyAIClaims (r : ToolCallRegistry) (content : Utf16) : Bool :=
  let callIds := extractCallIds content.length content
  if (∃ marker ∈ claimMarkers, marker <:+: content) ∧ callIds = [] then false
  else callIds.all fun id => (r.findByCallId id).isSome

end ToolCallRegistry

inductive EvidenceStatus
  | pending
  | matched
  | unmatched
  deriving DecidableEq, Repr

/-- `PlanStep`, less what only the display reads. -/
structure PlanStep where
  text : Utf16
  done : Bool
  callId : Option Utf16 := none
  allCallIds : Option (List Utf16) := none
  evidenceStatus : Option EvidenceStatus := none
  deriving DecidableEq, Repr

/-- `step.text.startsWith('[CHAT]')`. -/
def PlanStep.isChat (step : PlanStep) : Bool := utf16Of "[CHAT]" <+: step.text

def ToolCallRegistry.evidenceOf (r : ToolCallRegistry) (step : PlanStep) : Bool :=
  match step.allCallIds, step.callId with
  | some (id :: ids), _ => (id :: ids).all r.succeeded
  | _, some callId => callId ≠ [] ∧ r.succeeded callId
  | _, none => false

/-- One turn of the loop of `roundVerify`. -/
def ToolCallRegistry.verifyStep (r : ToolCallRegistry) (step : PlanStep) : PlanStep :=
  if step.done = false then step
  else if step.isChat ∨ r.evidenceOf step then { step with evidenceStatus := some .matched }
  else { step with evidenceStatus := some .unmatched }

/-- What `roundVerify` returns, with the steps it has marked. -/
structure RoundVerification where
  planSteps : List PlanStep
  unmatchedSteps : List PlanStep
  allMatched : Bool
  summaryValid : Bool
  deriving DecidableEq, Repr

def roundVerify (r : ToolCallRegistry) (planSteps : List PlanStep) (aiSummaryText : Utf16) :
    RoundVerification :=
  let verified := planSteps.map r.verifyStep
  let unmatched := verified.filter fun step =>
    step.done ∧ step.evidenceStatus = some .unmatched
  { planSteps := verified
    unmatchedSteps := unmatched
    allMatched := unmatched = []
    summaryValid := if aiSummaryText = [] then true else r.verifyAIClaims aiSummaryText }

end BlessStar.Assistant

/-!
## Executing a round of tool calls

`executeStage` of `stage-execute.ts` on the trace and the registry, and runs of
rounds and resets.  The tools themselves are outside: a call comes with its
outcome.
-/

namespace BlessStar.Assistant

open Lib.Utf8Text

/-- A tool call with its outcome; `outputSummary` is the line that is shown for
it. -/
structure ExecutedCall where
  id : Utf16
  toolName : Utf16
  success : Bool
  outputSummary : Utf16
  deriving DecidableEq, Repr

/-- `ToolCard`, less what only the display reads. -/
structure ToolCard where
  callId : Utf16
  toolName : Utf16
  success : Bool
  deriving DecidableEq, Repr

structure TraceState where
  executionTrace : ExecutionTraceManager := {}
  toolCallRegistry : ToolCallRegistry := {}
  deriving DecidableEq, Repr

structure Round where
  toolCallsToExecute : List ExecutedCall
  planSteps : List PlanStep
  planStepToolRanges : List (List Nat)
  isUA : Bool
  cleanContent : Utf16
  deriving DecidableEq, Repr

def executeCall (s : TraceState) (call : ExecutedCall) : TraceState × ToolCard :=
  let added := s.executionTrace.newRound.addNode [] call.toolName call.outputSummary []
  let node := added.1
  ({ executionTrace := added.2
     toolCallRegistry := s.toolCallRegistry.record node.callId call.toolName call.outputSummary
       (if call.success then .success else .failed) },
    ⟨node.callId, call.toolName, call.success⟩)

def executeCalls : List ExecutedCall → TraceState → TraceState × List ToolCard
  | [], s => (s, [])
  | call :: calls, s =>
      let one := executeCall s call
      let rest := executeCalls calls one.1
      (rest.1, one.2 :: rest.2)

def linkToRange (toolCards : List ToolCard) (range : Option (List Nat)) (step : PlanStep) :
    PlanStep :=
  match range with
  | none => step
  | some [] => step
  | some (idx :: indices) =>
      { step with
        done := true
        callId := (toolCards[(idx :: indices).getLast (List.cons_ne_nil _ _)]?).map ToolCard.callId
        allCallIds := some (((idx :: indices).filterMap fun i => (toolCards[i]?).map ToolCard.callId)
          |>.filter (· ≠ [])) }

def linkToCall (call : Option ExecutedCall) (step : PlanStep) : PlanStep :=
  match call with
  | none => step
  | some call => { step with done := true, callId := some call.id }

def linkSteps (round : Round) (toolCards : List ToolCard) : List PlanStep :=
  round.planSteps.mapIdx fun i step =>
    if round.isUA then linkToRange toolCards round.planStepToolRanges[i]? step
    else linkToCall round.toolCallsToExecute[i]? step

/-- `executeStage`: the singletons afterwards, the cards and the verification. -/
def executeStage (s : TraceState) (round : Round) :
    TraceState × List ToolCard × RoundVerification :=
  let executed := executeCalls round.toolCallsToExecute s
  let planSteps := linkSteps round executed.2
  (executed.1, executed.2,
    roundVerify executed.1.toolCallRegistry planSteps round.cleanContent)

inductive TraceEvent
  | round (r : Round)
  | reset (maxKeep : Int)
  deriving DecidableEq, Repr

def TraceEvent.run (s : TraceState) : TraceEvent → TraceState
  | .round r => (executeStage s r).1
  | .reset maxKeep => { s with executionTrace := s.executionTrace.reset maxKeep }

def TraceState.after (s : TraceState) (events : List TraceEvent) : TraceState :=
  events.foldl TraceEvent.run s

def TraceEvent.callIds (s : TraceState) : TraceEvent → List Utf16
  | .round r => (executeStage s r).2.1.map ToolCard.callId
  | .reset _ => []

def TraceState.callIds : List TraceEvent → TraceState → List Utf16
  | [], _ => []
  | event :: events, s => event.callIds s ++ TraceState.callIds events (event.run s)

end BlessStar.Assistant
