import Ash.Requests
import Mathlib

/-! # Final responses

Status, typed result data, error record and references of a response.  A response is built only
through its checks. -/

namespace Ash.Responses
open ByteCodecs Numerals TextSlices AsonDocuments Outcomes RequestValues RequestArguments Requests

def resultTruncated : UInt32 := (1 : UInt32) <<< 0
def resultReduced : UInt32 := (1 : UInt32) <<< 1
def resultNormalizedText : UInt32 := (1 : UInt32) <<< 2
def resultRetained : UInt32 := (1 : UInt32) <<< 3
def resultPartial : UInt32 := (1 : UInt32) <<< 4
def resultRedacted : UInt32 := (1 : UInt32) <<< 5
def allResultFlags : UInt32 := ((1 : UInt32) <<< 6) - 1

def pathColumns : List Text := [['i'],['v']]
def execResultColumns : List Text := [['k'],['c'],['m','s'],['o'],['e'],['r','o'],['r','e']]
def readResultColumns : List Text := [['p'],['o'],['n'],['h'],['t'],['r']]
def listResultColumns : List Text := [['p'],['k'],['z']]
def searchResultColumns : List Text := [['p'],['l'],['c'],['t']]
def patchResultColumns : List Text := [['p'],['s'],['h']]
def fsResultColumns : List Text := [['i'],['k'],['p'],['q'],['s'],['h']]
def snapshotResultColumns : List Text := [['p'],['c'],['k'],['z'],['h']]
def batchResultColumns : List Text := [['i'],['o'],['s'],['c'],['r']]
def refSliceColumns : List Text := [['o'],['n'],['p'],['h'],['t'],['b']]
def refSearchColumns : List Text := [['o'],['l'],['c'],['t']]
def refReleaseColumns : List Text := [['r'],['z']]
def refMaterializeColumns : List Text := [['p'],['s'],['z'],['h']]
def cancelResultColumns : List Text := [['i'],['z']]
def errorColumns : List Text := [['c'],['q'],['p'],['x'],['a']]

/-! ## Codes -/

inductive Status where
  | success | invalidRequest | unsupported | denied | notFound | failed | timedOut | cancelled
  | conflict | budgetExceeded | internal
  deriving DecidableEq

def Status.code : Status → UInt64
  | .success => 0
  | .invalidRequest => 1
  | .unsupported => 2
  | .denied => 3
  | .notFound => 4
  | .failed => 5
  | .timedOut => 6
  | .cancelled => 7
  | .conflict => 8
  | .budgetExceeded => 9
  | .internal => 10

inductive RetryClass where
  | never | correctRequest | retrySame | approval
  deriving DecidableEq

def RetryClass.code : RetryClass → UInt64
  | .never => 0
  | .correctRequest => 1
  | .retrySame => 2
  | .approval => 3

inductive ErrorStage where
  | decode | validate | resolve | authorize | execute | reduce | retain | encode
  deriving DecidableEq

def ErrorStage.code : ErrorStage → UInt64
  | .decode => 0
  | .validate => 1
  | .resolve => 2
  | .authorize => 3
  | .execute => 4
  | .reduce => 5
  | .retain => 6
  | .encode => 7

inductive ErrorCode where
  | invalidArgument | unsupportedOperation | duplicateRequest
  | workspaceEscape | pathNotFound | wrongFileType
  | capabilityDenied | permitRequired | permitInvalid
  | spawnFailed | processFailed | processTimedOut | processCancelled
  | filesystem | contentConflict | recoveryRequired
  | outputBudget | storageBudget | concurrencyBudget
  | unknownReference | referenceBusy
  | batchFailed
  | internal
  deriving DecidableEq

def ErrorCode.code : ErrorCode → UInt64
  | .invalidArgument => 100
  | .unsupportedOperation => 101
  | .duplicateRequest => 102
  | .workspaceEscape => 200
  | .pathNotFound => 201
  | .wrongFileType => 202
  | .capabilityDenied => 300
  | .permitRequired => 301
  | .permitInvalid => 302
  | .spawnFailed => 400
  | .processFailed => 401
  | .processTimedOut => 402
  | .processCancelled => 403
  | .filesystem => 500
  | .contentConflict => 501
  | .recoveryRequired => 502
  | .outputBudget => 600
  | .storageBudget => 601
  | .concurrencyBudget => 602
  | .unknownReference => 700
  | .referenceBusy => 701
  | .batchFailed => 800
  | .internal => 900

structure ErrorRecord where
  code : ErrorCode
  retry : RetryClass
  stage : ErrorStage
  evidence : Option UInt64
  argument : Option UInt64
  deriving DecidableEq

structure PathMapping where
  id : UInt64
  value : Text
  deriving DecidableEq

inductive ResponseError where
  | invalidRequestId
  | statusErrorMismatch
  | missingData
  | invalidFlags
  | invalidReference
  | invalidPaths
  | invalidData
  | retainedFlagMismatch
  | missingRetainedReference
  deriving DecidableEq

def validateReference (reference : Option UInt64) : Except ResponseError Unit :=
  require (reference≠some 0) .invalidReference

def optionalSigned (value : Option Int64) : Cell :=
  value.elim nullValue fun value => textValue (signedText value)

/-! ## Results of the operations -/

inductive TerminationKind where
  | exited | signaled | timedOut | cancelled | killed
  deriving DecidableEq

def TerminationKind.code : TerminationKind → UInt64
  | .exited => 0
  | .signaled => 1
  | .timedOut => 2
  | .cancelled => 3
  | .killed => 4

structure StreamResult where
  projection : Option Text
  reference : Option UInt64
  deriving DecidableEq

structure ProcessResult where
  termination : TerminationKind
  code : Option Int64
  elapsedMillis : UInt64
  stdout : StreamResult
  stderr : StreamResult
  deriving DecidableEq

def ProcessResult.cells (result : ProcessResult) : List Cell :=
  [unsignedValue result.termination.code,optionalSigned result.code,
    unsignedValue result.elapsedMillis,optionalTextValue result.stdout.projection,
    optionalTextValue result.stderr.projection,optionalReferenceValue result.stdout.reference,
    optionalReferenceValue result.stderr.reference]

/-- A process that ended by itself or by a signal has a code. -/
def ProcessResult.validate (result : ProcessResult) : Except ResponseError Unit := do
  validateReference result.stdout.reference
  validateReference result.stderr.reference
  require (¬ ((result.termination=.exited ∨ result.termination=.signaled) ∧
    result.code=none)) .invalidData

structure ReadResult where
  path : UInt64
  offset : UInt64
  length : UInt64
  digest : Text
  text : Option Text
  reference : Option UInt64
  deriving DecidableEq

def ReadResult.cells (result : ReadResult) : List Cell :=
  [unsignedValue result.path,unsignedValue result.offset,unsignedValue result.length,
    textValue result.digest,optionalTextValue result.text,optionalReferenceValue result.reference]

def ReadResult.validate (result : ReadResult) : Except ResponseError Unit := do
  validateReference result.reference
  require (result.path≠0 ∧ validDigest result.digest=true ∧
    ¬ (result.text=none ∧ result.reference=none)) .invalidData

inductive FileKind where
  | file | directory | symlink | other
  deriving DecidableEq

def FileKind.code : FileKind → UInt64
  | .file => 0
  | .directory => 1
  | .symlink => 2
  | .other => 3

structure ListEntry where
  path : UInt64
  kind : FileKind
  size : UInt64
  deriving DecidableEq

def ListEntry.cells (entry : ListEntry) : List Cell :=
  [unsignedValue entry.path,unsignedValue entry.kind.code,unsignedValue entry.size]

structure SearchMatch where
  path : UInt64
  line : UInt64
  column : UInt64
  text : Text
  deriving DecidableEq

def SearchMatch.cells (entry : SearchMatch) : List Cell :=
  [unsignedValue entry.path,unsignedValue entry.line,unsignedValue entry.column,
    textValue entry.text]

/-- How a patched file or a file action ended. -/
inductive ChangeState where
  | committed | conflict | rolledBack | recoveryRequired | skipped
  deriving DecidableEq

def ChangeState.code : ChangeState → UInt64
  | .committed => 0
  | .conflict => 1
  | .rolledBack => 2
  | .recoveryRequired => 3
  | .skipped => 4

abbrev PatchState := ChangeState
abbrev FsState := ChangeState

/-- Which states come with a digest. -/
def ChangeState.allowsDigest (state : ChangeState) (digest : Option Text) : Bool :=
  digest.all validDigest && match state with
    | .committed | .conflict | .rolledBack => digest.isSome
    | .recoveryRequired => true
    | .skipped => digest.isNone

structure PatchResult where
  path : UInt64
  state : PatchState
  digest : Option Text
  deriving DecidableEq

def PatchResult.cells (result : PatchResult) : List Cell :=
  [unsignedValue result.path,unsignedValue result.state.code,optionalTextValue result.digest]

structure FsResult where
  id : UInt64
  kind : FsActionKind
  path : UInt64
  destination : Option UInt64
  state : FsState
  digest : Option Text
  deriving DecidableEq

def fsActionCode : FsActionKind → UInt64
  | .create => 0
  | .copy => 1
  | .move => 2
  | .remove => 3

def FsResult.cells (result : FsResult) : List Cell :=
  [unsignedValue result.id,unsignedValue (fsActionCode result.kind),unsignedValue result.path,
    result.destination.elim nullValue unsignedValue,unsignedValue result.state.code,
    optionalTextValue result.digest]

def FsResult.validate (result : FsResult) : Except ResponseError Unit := do
  require (result.id≠0 ∧ result.path≠0) .invalidData
  let destinationValid := match result.kind with
    | .create | .remove => result.destination.isNone
    | .copy | .move => result.destination.any fun path => path != 0 && path != result.path
  require (destinationValid=true ∧ result.state.allowsDigest result.digest=true) .invalidData

inductive BatchNodeState where
  | succeeded | failed | skipped | cancelled
  deriving DecidableEq

def BatchNodeState.code : BatchNodeState → UInt64
  | .succeeded => 0
  | .failed => 1
  | .skipped => 2
  | .cancelled => 3

structure BatchNodeResult where
  id : UInt64
  operation : Operation
  state : BatchNodeState
  status : Option Status
  reference : Option UInt64
  deriving DecidableEq

def BatchNodeResult.cells (result : BatchNodeResult) : List Cell :=
  [unsignedValue result.id,textValue result.operation.text,unsignedValue result.state.code,
    result.status.elim nullValue fun status => unsignedValue status.code,
    optionalReferenceValue result.reference]

/-- The state of a node agrees with its status and its reference. -/
def BatchNodeResult.agrees (result : BatchNodeResult) : Bool :=
  match result.state with
  | .succeeded => result.status == some .success && result.reference.isSome
  | .failed => result.status.any (fun status => status != .success && status != .cancelled) &&
      result.reference.isSome
  | .skipped => result.status.isNone && result.reference.isNone
  | .cancelled => result.status == some .cancelled && result.reference.isSome

def BatchNodeResult.validate (result : BatchNodeResult) : Except ResponseError Unit := do
  validateReference result.reference
  require (result.id≠0 ∧ Operation.outsideBatch result.operation=false) .invalidData
  require (result.agrees=true) .invalidData

inductive SnapshotChange where
  | present | added | modified | removed
  deriving DecidableEq

def SnapshotChange.code : SnapshotChange → UInt64
  | .present => 0
  | .added => 1
  | .modified => 2
  | .removed => 3

structure SnapshotResult where
  path : UInt64
  change : SnapshotChange
  kind : FileKind
  size : UInt64
  digest : Option Text
  deriving DecidableEq

def SnapshotResult.cells (result : SnapshotResult) : List Cell :=
  [unsignedValue result.path,unsignedValue result.change.code,unsignedValue result.kind.code,
    unsignedValue result.size,optionalTextValue result.digest]

def SnapshotResult.validate (result : SnapshotResult) : Except ResponseError Unit :=
  let identityValid := match result.kind with
    | .file => result.digest.isSome
    | .symlink => result.digest.isSome && result.size == 0
    | .directory | .other => result.digest.isNone && result.size == 0
  require (result.path≠0 ∧ result.digest.all validDigest=true ∧ identityValid=true)
    .invalidData

structure ReferenceSlice where
  offset : UInt64
  length : UInt64
  projectedBytes : UInt64
  digest : Text
  text : Option Text
  hex : Option Text
  deriving DecidableEq

def ReferenceSlice.cells (result : ReferenceSlice) : List Cell :=
  [unsignedValue result.offset,unsignedValue result.length,unsignedValue result.projectedBytes,
    textValue result.digest,optionalTextValue result.text,optionalTextValue result.hex]

/-- Just one of text and hexadecimal form, of the stated length. -/
def ReferenceSlice.validate (result : ReferenceSlice) : Except ResponseError Unit :=
  let textMatches := result.text.any fun text => byteLength text == result.projectedBytes.toNat
  let hexMatches := result.hex.any fun hex =>
    byteLength hex == 2*result.projectedBytes.toNat &&
      (utf8 hex).all fun b => isAsciiDigit b || (97 ≤ b && b ≤ 102)
  require (result.projectedBytes ≤ result.length ∧ validDigest result.digest=true ∧
    textMatches≠hexMatches) .invalidData

structure ReferenceMatch where
  offset : UInt64
  line : UInt64
  column : UInt64
  text : Text
  deriving DecidableEq

def ReferenceMatch.cells (entry : ReferenceMatch) : List Cell :=
  [unsignedValue entry.offset,unsignedValue entry.line,unsignedValue entry.column,
    textValue entry.text]

structure MaterializedReference where
  path : UInt64
  state : FsState
  size : UInt64
  digest : Option Text
  deriving DecidableEq

def MaterializedReference.cells (result : MaterializedReference) : List Cell :=
  [unsignedValue result.path,unsignedValue result.state.code,unsignedValue result.size,
    optionalTextValue result.digest]

def MaterializedReference.validate (result : MaterializedReference) : Except ResponseError Unit :=
  let identityValid := if result.state=.skipped then result.digest.isNone
    else result.digest.any validDigest
  require (result.path≠0 ∧ identityValid=true) .invalidData

inductive ReferenceResult where
  | slice (result : ReferenceSlice)
  | search (entries : List ReferenceMatch)
  | released (reference : UInt64)
  | projection (table : Table)
  | materialized (result : MaterializedReference)
  deriving DecidableEq

def ReferenceResult.encode : ReferenceResult → Except BuildError Value
  | .slice result => recordValue refSliceColumns result.cells
  | .search entries => tableValue refSearchColumns (entries.map ReferenceMatch.cells)
  | .released reference =>
      recordValue refReleaseColumns [.atom (.reference reference),unsignedValue 1]
  | .projection table => .ok (.table table)
  | .materialized result => recordValue refMaterializeColumns result.cells

def ReferenceResult.validate : ReferenceResult → Except ResponseError Unit
  | .slice result => result.validate
  | .search entries =>
      require (entries.all (fun entry => entry.line != 0 && entry.column != 0)=true) .invalidData
  | .released reference => require (reference≠0) .invalidData
  | .projection _ => .ok ()
  | .materialized result => result.validate

inductive CancellationState where
  | notActive | signaled
  deriving DecidableEq

def CancellationState.code : CancellationState → UInt64
  | .notActive => 0
  | .signaled => 1

structure CancelResult where
  targetId : UInt64
  state : CancellationState
  deriving DecidableEq

def CancelResult.cells (result : CancelResult) : List Cell :=
  [unsignedValue result.targetId,unsignedValue result.state.code]

inductive ResultData where
  | exec (result : ProcessResult)
  | read (results : List ReadResult)
  | list (entries : List ListEntry)
  | search (entries : List SearchMatch)
  | patch (results : List PatchResult)
  | fs (results : List FsResult)
  | batch (results : List BatchNodeResult)
  | snapshot (results : List SnapshotResult)
  | reference (result : ReferenceResult)
  | cancel (result : CancelResult)
  deriving DecidableEq

def ResultData.encode : ResultData → Except BuildError Value
  | .exec result => recordValue execResultColumns result.cells
  | .read results => tableValue readResultColumns (results.map ReadResult.cells)
  | .list entries => tableValue listResultColumns (entries.map ListEntry.cells)
  | .search entries => tableValue searchResultColumns (entries.map SearchMatch.cells)
  | .patch results => tableValue patchResultColumns (results.map PatchResult.cells)
  | .fs results => tableValue fsResultColumns (results.map FsResult.cells)
  | .batch results => tableValue batchResultColumns (results.map BatchNodeResult.cells)
  | .snapshot results => tableValue snapshotResultColumns (results.map SnapshotResult.cells)
  | .reference result => result.encode
  | .cancel result => recordValue cancelResultColumns result.cells

def ResultData.hasReference : ResultData → Bool
  | .exec result => result.stdout.reference.isSome || result.stderr.reference.isSome
  | .read results => results.any fun result => result.reference.isSome
  | .batch results => results.any fun result => result.reference.isSome
  | _ => false

def ResultData.validate : ResultData → Except ResponseError Unit
  | .exec result => result.validate
  | .read results => each ReadResult.validate results
  | .list entries => require (entries.all (fun entry => entry.path != 0)=true) .invalidData
  | .search entries =>
      require (entries.all (fun entry => entry.path != 0 && entry.line != 0 && entry.column != 0) =
        true) .invalidData
  | .patch results => do
      require (results≠[] ∧ (results.map PatchResult.path).Nodup) .invalidData
      require (results.all (fun result => result.path != 0 &&
        result.state.allowsDigest result.digest)=true) .invalidData
  | .fs results => do
      require (results≠[] ∧
        ascending (fun left right => decide (left.id < right.id)) results=true) .invalidData
      each FsResult.validate results
  | .batch results => do
      require (results≠[] ∧
        ascending (fun left right => decide (left.id < right.id)) results=true) .invalidData
      each BatchNodeResult.validate results
  | .snapshot results => do
      require ((results.map SnapshotResult.path).Nodup) .invalidData
      each SnapshotResult.validate results
  | .reference result => result.validate
  | .cancel result => require (result.targetId≠0) .invalidData

/-! ## Responses -/

def validatePathMappings (paths : List PathMapping) : Except ResponseError Unit :=
  require (ascending (fun left right => decide (left.id < right.id)) paths=true ∧
    paths.all (fun path => path.id != 0 && !path.value.isEmpty &&
      decide (byteLength path.value ≤ 4096) && !path.value.contains '\x00')=true ∧
    (paths.map PathMapping.id).Nodup ∧ (paths.map PathMapping.value).Nodup) .invalidPaths

/-- A success has committed all its changes, and a conflict names one. -/
def agreesWith (status : Status) (states : List ChangeState) : Bool :=
  (status != .success || states.all (· == .committed)) &&
    (status != .conflict || states.any (· == .conflict))

/-- What the data have to do with the status and the reference. -/
def ResultData.suits (status : Status) (reference : Option UInt64) : ResultData → Bool
  | .patch results => agreesWith status (results.map PatchResult.state)
  | .batch results => status != .success || results.all fun result => result.state == .succeeded
  | .fs results => agreesWith status (results.map FsResult.state)
  | .reference (.materialized result) => reference.isSome && agreesWith status [result.state]
  | .reference (.released _) => reference.isNone
  | .reference _ => reference.isSome
  | .snapshot _ => reference.isSome
  | _ => true

def checkData (status : Status) (reference : Option UInt64) :
    Option ResultData → Except ResponseError Unit
  | none => .ok ()
  | some data => do
      data.validate
      require (data.suits status reference=true) .invalidData

def checkError : Option ErrorRecord → Except ResponseError Unit
  | none => .ok ()
  | some error => do
      validateReference error.evidence
      validateReference error.argument

def FinalResponse.check (requestId : UInt64) (status : Status) (paths : List PathMapping)
    (data : Option ResultData) (error : Option ErrorRecord) (flags : UInt32)
    (reference : Option UInt64) : Except ResponseError Unit := do
  require (requestId≠0) .invalidRequestId
  require (decide (status=.success)=error.isNone) .statusErrorMismatch
  require (¬ (status=.success ∧ data=none)) .missingData
  require (flags &&& ~~~ allResultFlags=0) .invalidFlags
  validatePathMappings paths
  checkData status reference data
  validateReference reference
  checkError error
  let hasRetained := reference.isSome || data.any ResultData.hasReference ||
    error.any fun error => error.evidence.isSome || error.argument.isSome
  require (decide (flags &&& resultRetained≠0)=hasRetained) .retainedFlagMismatch
  require (¬ (flags &&& resultTruncated≠0 ∧ reference=none ∧
    data.any ResultData.hasReference=false)) .missingRetainedReference

structure FinalResponse where
  requestId : UInt64
  status : Status
  paths : List PathMapping
  data : Option ResultData
  error : Option ErrorRecord
  flags : UInt32
  reference : Option UInt64
  checked : FinalResponse.check requestId status paths data error flags reference=.ok ()
  deriving DecidableEq

def FinalResponse.new (requestId : UInt64) (status : Status) (paths : List PathMapping)
    (data : Option ResultData) (error : Option ErrorRecord) (flags : UInt32)
    (reference : Option UInt64) : Except ResponseError FinalResponse :=
  match h : FinalResponse.check requestId status paths data error flags reference with
  | .error error => .error error
  | .ok () => .ok ⟨requestId,status,paths,data,error,flags,reference,h⟩

theorem FinalResponse.new_ok_iff {requestId : UInt64} {status : Status} {paths : List PathMapping}
    {data : Option ResultData} {error : Option ErrorRecord} {flags : UInt32}
    {reference : Option UInt64} {response : FinalResponse} :
    FinalResponse.new requestId status paths data error flags reference=.ok response ↔
      ∃ h : FinalResponse.check requestId status paths data error flags reference=.ok (),
        response=⟨requestId,status,paths,data,error,flags,reference,h⟩ := by
  unfold FinalResponse.new
  split
  · next herror => simp [herror]
  · next h =>
    rw [Except.ok.injEq,eq_comm]
    exact ⟨fun heq => ⟨h,heq⟩,fun ⟨_,heq⟩ => heq⟩

def FinalResponse.success (requestId : UInt64) (paths : List PathMapping) (data : ResultData)
    (flags : UInt32) (reference : Option UInt64) : Except ResponseError FinalResponse :=
  FinalResponse.new requestId .success paths (some data) none flags reference

def FinalResponse.failure (requestId : UInt64) (status : Status) (error : ErrorRecord)
    (paths : List PathMapping) (data : Option ResultData) (flags : UInt32)
    (reference : Option UInt64) : Except ResponseError FinalResponse :=
  FinalResponse.new requestId status paths data (some error) flags reference

/-! ## Writing -/

def PathMapping.cells (path : PathMapping) : List Cell :=
  [unsignedValue path.id,textValue path.value]

def ErrorRecord.cells (error : ErrorRecord) : List Cell :=
  [unsignedValue error.code.code,unsignedValue error.retry.code,unsignedValue error.stage.code,
    optionalReferenceValue error.evidence,optionalReferenceValue error.argument]

def optionalReference (reference : Option UInt64) : Atom := reference.elim .null Atom.reference

def optionalField {α : Type} (key : Text) (write : α → Except BuildError Value) :
    Option α → Except BuildError (List Field)
  | none => .ok []
  | some a => do
      let field ← valueField key (write a)
      return [field]

def FinalResponse.encode (response : FinalResponse) : Except BuildError Document := do
  let t ← scalarField ['t'] ['3']
  let i ← scalarField ['i'] (decimal response.requestId.toNat)
  let s ← scalarField ['s'] (decimal response.status.code.toNat)
  let p ← optionalField ['p'] (fun paths => tableValue pathColumns (paths.map PathMapping.cells))
    (if response.paths=[] then none else some response.paths)
  let d ← optionalField ['d'] ResultData.encode response.data
  let e ← optionalField ['e'] (fun error => recordValue errorColumns error.cells) response.error
  let z ← scalarField ['z'] (decimal response.flags.toNat)
  let r ← valueField ['r'] (.ok (.scalar (optionalReference response.reference)))
  Document.new (t::i::s::(p++d++e++[z,r]))

end Ash.Responses
