import Ash.BatchGraphs
import Ash.ProgramBudgets
import Ash.StoreRoom

/-! # Execution of batches

A batch reserves the size of its report, runs its nodes as a graph, retains what each of them
answered, and reports one row for each node. -/

namespace Ash.BatchExecution
open ByteCodecs ParserOutcomes Outcomes RequestValues RequestArguments Requests Responses
open OperationErrors ProgramBudgets DagExecution BatchGraphs ResultStores

structure Executed where
  state : BatchNodeState
  status : Status
  encoded : List UInt8

/-- What the session and the operations do for each node. -/
structure Services where
  maxPaths : ℕ
  permit : ℕ → Except GovernorError Unit
  leaf : ℕ → Except OperationError FinalResponse

/-! ## Before the nodes run -/

def batchError : ErrorRecord := ⟨.batchFailed,.never,.execute,none,none⟩

/-- The longest report that there can be. -/
def preflightRows (nodes : List Node) : List BatchNodeResult :=
  nodes.map fun node =>
    ⟨node.id,node.arguments.operation,.failed,some .internal,some (UInt64.ofNat (2 ^ 64 - 1))⟩

def preflightResponse (request : Request) (nodes : List Node) (tracker : BudgetTracker) :
    Except OperationError Unit := do
  let response ← liftResponse (FinalResponse.failure request.id .failed batchError []
    (some (.batch (preflightRows nodes))) (resultRetained ||| resultPartial) none)
  let text ← encodedText response
  require (¬ presentationLimit tracker < TextSlices.byteLength text) .outputBudget

/-- What is fixed before the first node starts. -/
structure Plan where
  budget : Budget
  output : UInt64
  graph : List (DagNode Node)

def invalid {α : Type} : Checked α → Except OperationError α
  | .ok a => .ok a
  | .error _ => .error .invalidArgument

def plan (request : Request) (nodes : List Node) (tracker : BudgetTracker) :
    Except OperationError Plan := do
  require (nodes.length < 2 ^ 32) .workLimit
  let tokens := request.budget.tokens / UInt32.ofNat nodes.length
  let records := request.budget.records / UInt32.ofNat nodes.length
  let output := UInt64.ofNat tracker.remainingOutput / UInt64.ofNat nodes.length
  require (¬ (tokens=0 ∨ records=0 ∨ output=0)) .outputBudget
  let budget ← invalid (Budget.new tokens records request.budget.millis)
  preflightResponse request nodes tracker
  let graph ← BatchGraphs.graph nodes
  return ⟨budget,output,graph⟩

/-! ## Nodes -/

def executeLeafResponse (result : Except OperationError FinalResponse) (requestId : UInt64) :
    Except OperationError FinalResponse :=
  match result with
  | .ok response => .ok response
  | .error error => error.intoResponse requestId

variable (services : Services)

def executeNodeResponse (plan : Plan) (deadline index : ℕ) (node : Node) :
    Except OperationError FinalResponse := do
  let request ← invalid (Request.new node.id node.arguments plan.budget)
  let _ ← (BudgetTracker.newWithDeadline plan.budget plan.output deadline).mapError
    fun error => .engine (.budget error)
  require (services.maxPaths≠0) (.engine (.paths .invalidLimit))
  (services.permit index).mapError fun error => .engine (.governor error)
  executeLeafResponse (services.leaf index) request.id

/-- The answer of a node that runs. -/
def nodeResponse (plan : Plan) (deadline index : ℕ) (node : Node) :
    Except OperationError FinalResponse :=
  match executeNodeResponse services plan deadline index node with
  | .ok response => .ok response
  | .error error => error.intoResponse node.id

def nodeState : Status → BatchNodeState
  | .success => .succeeded
  | .cancelled => .cancelled
  | _ => .failed

def executeNode (plan : Plan) (deadline index : ℕ) (node : Node) :
    Except OperationError Executed := do
  let response ← nodeResponse services plan deadline index node
  let text ← encodedText response
  return ⟨nodeState response.status,response.status,utf8 text⟩

/-- What the job at a position gives when it runs. -/
def nodeOutcome (plan : Plan) (deadline index : ℕ) :
    Except OperationError (DagCompletion Executed) :=
  match plan.graph[index]? with
  | none => .error .invalidArgument
  | some node => do
      let executed ← executeNode services plan deadline index node.job
      return ⟨executed,executed.state == .succeeded⟩

/-! ## After the nodes have run -/

def encodings (outcomes : List (DagOutcome Executed)) : List (List UInt8) :=
  outcomes.filterMap fun
    | .completed executed => some executed.encoded
    | .skipped => none

def outcomeSucceeded : DagOutcome Executed → Bool
  | .completed executed => executed.state == .succeeded
  | .skipped => false

/-- The rows, and the aliases that are left over. -/
def rowsLoop : List (Node × DagOutcome Executed) → List ℕ →
    Except OperationError (List BatchNodeResult × List ℕ)
  | [], aliases => .ok ([],aliases)
  | (node,.completed executed)::rest, aliases =>
      match aliases with
      | [] => .error .invalidArgument
      | ref::aliases => do
          let found ← rowsLoop rest aliases
          return (⟨node.id,node.arguments.operation,executed.state,some executed.status,
            some (UInt64.ofNat ref)⟩::found.1,found.2)
  | (node,.skipped)::rest, aliases => do
      let found ← rowsLoop rest aliases
      return (⟨node.id,node.arguments.operation,.skipped,none,none⟩::found.1,found.2)

def batchResponse (requestId : UInt64) (rows : List BatchNodeResult) (allSucceeded : Bool) :
    Except ResponseError FinalResponse :=
  if allSucceeded then
    FinalResponse.success requestId [] (.batch rows) resultRetained none
  else
    FinalResponse.failure requestId .failed batchError [] (some (.batch rows))
      (resultRetained ||| resultPartial) none

variable {Id : Type} [DecidableEq Id]

variable (hash : List UInt8 → Id) (store : ResultStore Id)

/-- The store is the one that the nodes have left. -/
def report (spoolFault : Bool) (faults : ReadFaults) (request : Request) (nodes : List Node)
    (tracker : BudgetTracker) (outcomes : List (DagOutcome Executed)) :
    State Id × Except OperationError FinalResponse :=
  let retention := retainMany hash store spoolFault faults (encodings outcomes)
  (retention.1,do
    let aliases ← retention.2.mapError .store
    let found ← rowsLoop (nodes.zip outcomes) aliases
    require (found.2=[]) .invalidArgument
    let response ← liftResponse (batchResponse request.id found.1
      (outcomes.all outcomeSucceeded))
    (charge tracker response nodes.length).2
    return response)

/-- What the end of the graph makes of the batch. -/
def conclude (spoolFault : Bool) (faults : ReadFaults) (request : Request) (nodes : List Node)
    (tracker : BudgetTracker) :
    Attempt OperationError (List (DagOutcome Executed)) →
      State Id × Fallible OperationError FinalResponse
  | .ok outcomes =>
      let reported := report hash store spoolFault faults request nodes tracker outcomes
      (reported.1,reported.2.mapError .error)
  | .error (.error .invalidGraph) => (store.state,.fail .invalidArgument)
  | .error (.error (.task error)) => (store.state,.fail error)
  | .error .panic => (store.state,.error .panic)
  | .error .outOfFuel => (store.state,.error .outOfFuel)

end Ash.BatchExecution
