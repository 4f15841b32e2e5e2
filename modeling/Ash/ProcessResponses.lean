import Ash.ProgramBudgets
import Ash.StoreRoom
import Ash.StreamProjections

/-! # Responses of processes

What a process leaves behind becomes a response: its streams are projected into shares of the
presentation limit, the response is measured with the longest references, and streams that are
not shown in full are retained. -/

namespace Ash.ProcessResponses
open TextSlices Outcomes RequestValues Responses OperationErrors ProgramBudgets ResultStores
open StreamProjections

/-! ## Permits -/

inductive Offer where
  | permit
  | closed
  | pending
  deriving DecidableEq

/-- The poll that ends the wait for a permit: what it finds of the token, of the semaphore and of
the deadline.  They are looked at in this order. -/
structure Poll where
  cancelled : Bool
  offer : Offer
  expired : Bool
  decisive : cancelled=true ∨ offer≠.pending ∨ expired=true

def Poll.acquire (poll : Poll) : Except GovernorError Unit :=
  if poll.cancelled then .error .cancelled
  else match poll.offer with
    | .permit => .ok ()
    | .closed => .error .closed
    | .pending => .error .deadline

/-- The permit of the session comes before the one of the host. -/
structure Polls where
  session : Poll
  global : Poll

def Polls.acquire (polls : Polls) : Except GovernorError Unit := do
  polls.session.acquire
  polls.global.acquire

/-- What a program has when its process has ended: its counters, and what it meets when it asks
for the permits of the projection and of the retention. -/
structure Program where
  tracker : BudgetTracker
  projection : Polls
  retention : Polls

def acquire (polls : Polls) : Except OperationError Unit :=
  polls.acquire.mapError fun error => .engine (.governor error)

/-! ## Ends of processes -/

/-- A process that ended has an exit code or was ended by a signal. -/
structure ProcessExit where
  success : Bool
  code : Option Int64
  signal : Option Int64
  known : code.isSome=true ∨ signal.isSome=true

inductive Stop where
  | exited (exit : ProcessExit)
  | timedOut
  | cancelled

def Stop.finalizing : Stop → Bool
  | .exited _ => false
  | _ => true

def Stop.failed : Stop → Bool
  | .exited exit => !exit.success
  | _ => true

def Stop.focusErrors : Stop → Bool
  | .exited exit => !exit.success
  | _ => false

def Stop.termination : Stop → TerminationKind
  | .exited exit => if exit.signal.isSome then .signaled else .exited
  | .timedOut => .timedOut
  | .cancelled => .cancelled

def Stop.code : Stop → Option Int64
  | .exited exit => if exit.signal.isSome then exit.signal else exit.code
  | _ => none

def error (code : ErrorCode) (retry : RetryClass) : ErrorRecord := ⟨code,retry,.execute,none,none⟩

def processResult (stop : Stop) (elapsedMillis : UInt64) (stdout stderr : StreamResult) :
    ProcessResult :=
  ⟨stop.termination,stop.code,elapsedMillis,stdout,stderr⟩

def response (requestId : UInt64) (stop : Stop) (elapsedMillis : UInt64)
    (stdout stderr : StreamResult) (flags : UInt32) : Except OperationError FinalResponse :=
  let data := ResultData.exec (processResult stop elapsedMillis stdout stderr)
  liftResponse <| match stop with
    | .exited exit =>
        if exit.success then FinalResponse.success requestId [] data flags none
        else FinalResponse.failure requestId .failed (error .processFailed .never) [] (some data)
          flags none
    | .timedOut => FinalResponse.failure requestId .timedOut (error .processTimedOut .retrySame) []
        (some data) flags none
    | .cancelled => FinalResponse.failure requestId .cancelled (error .processCancelled .never) []
        (some data) flags none

/-! ## Presentation -/

/-- A captured stream with its projection, and whether it has to be retained. -/
structure ShownStream where
  content : CapturedContent
  projection : Projection
  retained : Bool

def Capture.present (capture : Capture) (limit : ℕ) (focusErrors : Bool) :
    Except StoreError ShownStream := do
  let projection ← capture.project limit focusErrors
  let content ← capture.captured
  return ⟨content,projection,projection.reduced || projection.normalized ||
    (projection.text.isNone && content.content.length != 0)⟩

structure Presentation where
  stdout : ShownStream
  stderr : ShownStream

/-- The stream that matters more gets half of the limit, the other one an eighth. -/
def present (limit : ℕ) (stop : Stop) (stdout stderr : Capture) :
    Except StoreError Presentation := do
  let shares := if stop.failed then (limit / 8,limit / 2) else (limit / 2,limit / 8)
  let stdout ← Capture.present stdout shares.1 stop.focusErrors
  let stderr ← Capture.present stderr shares.2 stop.focusErrors
  return ⟨stdout,stderr⟩

def flagsOf (reduced normalized retained : Bool) : UInt32 :=
  (if reduced then resultReduced else 0) ||| (if reduced then resultTruncated else 0) |||
    (if normalized then resultNormalizedText else 0) ||| (if retained then resultRetained else 0)

def Presentation.flags (shown : Presentation) : UInt32 :=
  flagsOf (shown.stdout.projection.reduced || shown.stderr.projection.reduced)
    (shown.stdout.projection.normalized || shown.stderr.projection.normalized)
    (shown.stdout.retained || shown.stderr.retained)

variable (shown : ShownStream)

def ShownStream.result (reference : Option UInt64) : StreamResult :=
  ⟨shown.projection.text,reference⟩

def ShownStream.captures : List CapturedContent :=
  if shown.retained then [shown.content] else []

/-- The captures that go to the store. -/
def Presentation.captures (shown : Presentation) : List CapturedContent :=
  shown.stdout.captures++shown.stderr.captures

/-- The longest reference stands for one that is not there yet. -/
def ShownStream.placeholder : Option UInt64 :=
  if shown.retained then some (UInt64.ofNat (2 ^ 64 - 1)) else none

def temporary (requestId : UInt64) (stop : Stop) (elapsedMillis : UInt64) (shown : Presentation) :
    Except OperationError FinalResponse :=
  response requestId stop elapsedMillis (shown.stdout.result shown.stdout.placeholder)
    (shown.stderr.result shown.stderr.placeholder) shown.flags

def checkQuota (stdout stderr : Capture) : Except OperationError Unit :=
  match stdout.quotaError.or stderr.quotaError with
  | some error => .error (.store error)
  | none => .ok ()

/-- The projection of a process that was stopped needs no permit. -/
def projectionPermit (program : Program) (stop : Stop) : Except OperationError Unit :=
  if stop.finalizing then .ok () else acquire program.projection

/-- All that is done before a stream is retained. -/
def prepare (program : Program) (requestId : UInt64) (stop : Stop) (stdout stderr : Capture)
    (elapsedMillis : UInt64) : Except OperationError Presentation := do
  checkQuota stdout stderr
  projectionPermit program stop
  let shown ← (present (presentationLimit program.tracker) stop stdout stderr).mapError .store
  let response ← temporary requestId stop elapsedMillis shown
  let text ← encodedText response
  require (byteLength text ≤ presentationLimit program.tracker) .outputBudget
  return shown

/-- The reference of a stream, and the aliases that are left. -/
def ShownStream.reference (aliases : List ℕ) : Except StoreError (Option UInt64 × List ℕ) :=
  if shown.retained then
    match aliases with
    | [] => .error .invariant
    | ref::aliases => .ok (some (UInt64.ofNat ref),aliases)
  else .ok (none,aliases)

def conclude (program : Program) (requestId : UInt64) (stop : Stop) (elapsedMillis : UInt64)
    (shown : Presentation) (aliases : List ℕ) : Except OperationError FinalResponse := do
  let stdout ← (shown.stdout.reference aliases).mapError .store
  let stderr ← (shown.stderr.reference stdout.2).mapError .store
  require (stderr.2=[]) (.store .invariant)
  let response ← response requestId stop elapsedMillis (shown.stdout.result stdout.1)
    (shown.stderr.result stderr.1) shown.flags
  (charge program.tracker response 1).2
  return response

variable {Id : Type} [DecidableEq Id]

/-- The store is the one that the retention meets. -/
def buildResponse (hash : List UInt8 → Id) (store : ResultStore Id) (faults : ReadFaults)
    (program : Program) (requestId : UInt64) (stop : Stop) (stdout stderr : Capture)
    (elapsedMillis : UInt64) : State Id × Except OperationError FinalResponse :=
  match prepare program requestId stop stdout stderr elapsedMillis with
  | .error error => (store.state,.error error)
  | .ok shown =>
      if shown.captures=[] then
        (store.state,conclude program requestId stop elapsedMillis shown [])
      else
        match acquire program.retention with
        | .error error => (store.state,.error error)
        | .ok () =>
            let retention := retainCaptures hash store faults shown.captures
            (retention.1,do
              let aliases ← retention.2.mapError .store
              conclude program requestId stop elapsedMillis shown aliases)

end Ash.ProcessResponses
