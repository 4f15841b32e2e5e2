import Ash.DependencyGraphs
import Ash.Outcomes

/-! # Execution of dependency graphs

Ready jobs run together and complete in any order.  A job whose dependencies did not all
succeed is skipped. -/

namespace Ash.DagExecution
open ParserOutcomes Outcomes DependencyGraphs

structure DagNode (J : Type) where
  dependencies : List ℕ
  job : J

structure DagCompletion (R : Type) where
  value : R
  succeeded : Bool

inductive DagOutcome (R : Type) where
  | completed (value : R)
  | skipped
  deriving DecidableEq

inductive DagError (E : Type) where
  | invalidGraph
  | task (error : E)
  deriving DecidableEq

abbrev Attempt (E : Type) := Fallible (DagError E)

variable {J R E : Type}

variable (nodes : List (DagNode J))

def links : List (List ℕ) := nodes.map DagNode.dependencies

/-- The dependencies of a node are in order, are nodes, and are other nodes. -/
def validateNode (count : ℕ) (entry : DagNode J × ℕ) : Attempt E Unit :=
  require (ascending (fun left right => decide (left < right)) entry.1.dependencies=true ∧
    ∀ dependency∈entry.1.dependencies, dependency < count ∧ dependency≠entry.2)
    (.error .invalidGraph)

def validate : Attempt E Unit := do
  require (nodes≠[]) (.error .invalidGraph)
  each (validateNode nodes.length) nodes.zipIdx
  let visited ← countOrdered (links nodes)
  require (visited=nodes.length) (.error .invalidGraph)

inductive Event where
  | started (index : ℕ)
  | finished (index : ℕ)
  deriving DecidableEq

/-- The variables of an execution.  The history, latest first, records what the jobs do. -/
structure DagState (J R E : Type) where
  remaining : ℕ → ℕ
  jobs : ℕ → Option J
  outcomes : ℕ → Option (DagOutcome R)
  errors : ℕ → Option E
  failedDependency : ℕ → Bool
  running : List ℕ
  settled : ℕ
  history : List Event

def initial : DagState J R E where
  remaining i := ((links nodes).getD i []).length
  jobs i := (nodes.map DagNode.job)[i]?
  outcomes _ := none
  errors _ := none
  failedDependency _ := false
  running := []
  settled := 0
  history := []

/-- A job is taken and starts to run. -/
def launch (state : DagState J R E) (index : ℕ) : DagState J R E :=
  { state with
    jobs := Function.update state.jobs index none
    running := state.running++[index]
    history := .started index::state.history }

def begin (state : DagState J R E) (index : ℕ) : Attempt E (DagState J R E) :=
  match state.jobs index with
  | none => .fail .invalidGraph
  | some _ => .ok (launch state index)

def beginAll : List ℕ → DagState J R E → Attempt E (DagState J R E)
  | [], state => .ok state
  | index::indices, state => do
      let state ← begin state index
      beginAll indices state

/-- The state when the loop starts: every job without dependencies runs. -/
def prepare : Attempt E (DagState J R E) := do
  validate nodes
  beginAll ((List.range nodes.length).filter fun i => ((links nodes).getD i []).length=0)
    (initial nodes)

def skip (state : DagState J R E) (index : ℕ) : DagState J R E :=
  { state with
    outcomes := Function.update state.outcomes index (some .skipped)
    settled := state.settled+1 }

/-- A node that a settled node was a dependency of: it waits on, starts or is skipped. -/
def settleDependent (succeeded : Bool) (state : DagState J R E) (terminal : List (ℕ × Bool))
    (dependent : ℕ) : Attempt E (DagState J R E × List (ℕ × Bool)) :=
  if state.remaining dependent=0 then .fail .invalidGraph
  else
    let state := { state with
      remaining := Function.update state.remaining dependent (state.remaining dependent - 1)
      failedDependency := Function.update state.failedDependency dependent
        (state.failedDependency dependent || !succeeded) }
    if state.remaining dependent≠0 then .ok (state,terminal)
    else if state.failedDependency dependent then
      .ok (skip state dependent,terminal++[(dependent,false)])
    else do
      let state ← begin state dependent
      return (state,terminal)

def settleDependents (succeeded : Bool) : List ℕ → DagState J R E → List (ℕ × Bool) →
    Attempt E (DagState J R E × List (ℕ × Bool))
  | [], state, terminal => .ok (state,terminal)
  | dependent::dependents, state, terminal => do
      let (state,terminal) ← settleDependent succeeded state terminal dependent
      settleDependents succeeded dependents state terminal

def cascade (nodes : List (DagNode J)) : ℕ → DagState J R E → List (ℕ × Bool) →
    Attempt E (DagState J R E)
  | _, state, [] => .ok state
  | 0, _, _::_ => .error .outOfFuel
  | fuel+1, state, (completed,succeeded)::terminal => do
      let (state,terminal) ←
        settleDependents succeeded (dependents (links nodes) completed) state terminal
      cascade nodes fuel state terminal

variable (outcome : ℕ → Except E (DagCompletion R))

/-- Whether a job, when it runs, lets its dependents run. -/
def succeeds (index : ℕ) : Bool :=
  match outcome index with
  | .ok completion => completion.succeeded
  | .error _ => false

/-- A running job completes. -/
def record (state : DagState J R E) (index : ℕ) : DagState J R E :=
  let state := { state with
    running := state.running.erase index
    settled := state.settled+1
    history := .finished index::state.history }
  match outcome index with
  | .ok completion => { state with
      outcomes := Function.update state.outcomes index (some (.completed completion.value)) }
  | .error error => { state with errors := Function.update state.errors index (some error) }

def complete (nodes : List (DagNode J)) (state : DagState J R E) (index : ℕ) :
    Attempt E (DagState J R E) :=
  cascade nodes nodes.length (record outcome state index) [(index,succeeds outcome index)]

/-- The outcomes in order, if there are all. -/
def collect (state : DagState J R E) : List ℕ → Attempt E (List (DagOutcome R))
  | [] => .ok []
  | index::indices =>
      match state.outcomes index with
      | none => .fail .invalidGraph
      | some outcome => do
          let outcomes ← collect state indices
          return outcome::outcomes

def finish (nodes : List (DagNode J)) (state : DagState J R E) : Attempt E (List (DagOutcome R)) :=
  match (List.range nodes.length).findSome? state.errors with
  | some error => .fail (.task error)
  | none => collect state (List.range nodes.length)

/-- The loop, from a state to the state and result in which it returns.  Any running job may
be the next to complete. -/
inductive Loop (nodes : List (DagNode J)) :
    DagState J R E → DagState J R E → Attempt E (List (DagOutcome R)) → Prop
  | settled {state} : nodes.length ≤ state.settled → Loop nodes state state (finish nodes state)
  | empty {state} : state.settled < nodes.length → state.running=[] →
      Loop nodes state state (.fail .invalidGraph)
  | fault {state index e} : state.settled < nodes.length → index∈state.running →
      complete outcome nodes state index=.error e → Loop nodes state state (.error e)
  | next {state next final index result} : state.settled < nodes.length → index∈state.running →
      complete outcome nodes state index=.ok next → Loop nodes next final result →
      Loop nodes state final result

/-- An execution with the state in which it returns. -/
inductive ExecuteDag (nodes : List (DagNode J)) :
    DagState J R E → Attempt E (List (DagOutcome R)) → Prop
  | rejected {e} : (prepare nodes : Attempt E (DagState J R E))=.error e →
      ExecuteDag nodes (initial nodes) (.error e)
  | accepted {start final result} :
      prepare nodes=.ok start → Loop outcome nodes start final result →
      ExecuteDag nodes final result

end Ash.DagExecution
