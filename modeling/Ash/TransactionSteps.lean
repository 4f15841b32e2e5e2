import Ash.TransactionManifest

/-! # The steps of a file transaction

Preparing an action stages its new contents and preserves what it will overwrite;
applying it links, moves or replaces files from there; rolling it back undoes what
its journal state shows to have been applied. -/

namespace Ash.TransactionSteps
open FileTrees WorkspaceOperations WorkspacePaths TransactionActions TransactionManifest

inductive StepFailure where
  | conflict (digest : Digest)
  | stopped (failure : FileTransactionFailure)
  | platform (error : PlatformError)

inductive AppliedState where
  | applied
  | linked
  | notApplied
  | indeterminate
  deriving DecidableEq

structure TransactionTotals where
  materialized : ℕ
  preimages : ℕ

/-! ## Names -/

def statePath : Path := nativeRoot++[stateDirectory]
def formatPath : Path := statePath++["FORMAT".toList]
def lockPath : Path := statePath++["LOCK".toList]
def transactionPath : Path := statePath++["transaction".toList]
def preparingPath : Path := statePath++["transaction.new".toList]

def manifestFile : Text := "MANIFEST".toList
def committingFile : Text := "COMMITTED.new".toList
def committedFile : Text := "COMMITTED".toList
def stageDirectory : Text := "stage".toList
def removedDirectory : Text := "removed".toList

def copyBufferBytes : ℕ := 64*1024

/-- The entry of an action in a journal directory: its index in eight hex digits. -/
def indexedPath (directory : Path) (index : ℕ) : Path :=
  directory++[(Nat.toDigits 16 index).leftpad 8 '0']

def stagePath (journal : Path) (index : ℕ) : Path := indexedPath (journal++[stageDirectory]) index
def removedPath (journal : Path) (index : ℕ) : Path :=
  indexedPath (journal++[removedDirectory]) index

/-! ## Reading -/

def checkControl : Act FileTransactionFailure Unit := do
  match ← askControl with
  | .continue => pure ()
  | .cancelled => .fail .cancelled
  | .timedOut => .fail .timedOut

/-- Read an open file to its end in buffers, checking the running size and passing
each buffer on.  A size past the ceiling ends the loop, so `fuel` one above the
ceiling is never used up. -/
def readLoop {ε : Type} (lift : PlatformError → ε) (before : Act ε Unit)
    (exceeds : ℕ → Option ε) (sink : Bytes → Act ε Unit) (file : ℕ) : ℕ → Bytes → Act ε Bytes
  | 0, _ => .fail (lift (.io .other))
  | fuel+1, seen => do
      before
      let buffer ← (readAt file seen.length copyBufferBytes).mapError lift
      if buffer=[] then pure seen
      else match exceeds (seen.length+buffer.length) with
        | some e => .fail e
        | none => do
            sink buffer
            readLoop lift before exceeds sink file fuel (seen++buffer)

/-- The size check of the bounded readers, with the overflow check of the sum. -/
def exceedsCeiling (maxBytes size : ℕ) : Option StepFailure :=
  if size ≥ 2 ^ 64 then some (.platform (.inputTooLarge (2 ^ 64 - 1) maxBytes))
  else if size > maxBytes then some (.platform (.inputTooLarge size maxBytes))
  else none

def chargeBytes (bytes : ℕ) (limits : FileTransactionLimits) (total : ℕ) :
    Except StepFailure ℕ :=
  if bytes > limits.maxFileBytes then
    .error (.platform (.inputTooLarge bytes limits.maxFileBytes))
  else if total+bytes ≥ 2 ^ 64 then
    .error (.platform (.inputTooLarge (2 ^ 64 - 1) limits.maxTotalBytes))
  else if total+bytes > limits.maxTotalBytes then
    .error (.platform (.inputTooLarge (total+bytes) limits.maxTotalBytes))
  else .ok (total+bytes)

section
variable (hash : Bytes → Digest)

def hashReaderBounded (file maxBytes : ℕ) : Act StepFailure (Digest × ℕ) := do
  let contents ← readLoop .platform (checkControl.mapError .stopped) (exceedsCeiling maxBytes)
    (fun _ => pure ()) file (maxBytes+1) []
  pure (hash contents,contents.length)

variable (path : Path) (expectedSize : ℕ) (expectedDigest : Digest)

def hashFileWithoutCharge (limits : FileTransactionLimits) :
    Act StepFailure (Digest × ℕ) := do
  let file ← (openFile path).mapError .platform
  hashReaderBounded hash file limits.maxFileBytes

/-- The digest, the size and the new total. -/
def hashFileBounded (limits : FileTransactionLimits) (total : ℕ) :
    Act StepFailure ((Digest × ℕ) × ℕ) := do
  let file ← (openFile path).mapError .platform
  let (digest,size) ← hashReaderBounded hash file limits.maxFileBytes
  let total ← .ofExcept (chargeBytes size limits total)
  pure ((digest,size),total)

def copyFileBounded (source destination : Path) (limits : FileTransactionLimits) (total : ℕ) :
    Act StepFailure ((Digest × ℕ) × ℕ) := do
  let found ← (metadata source).mapError .platform
  if found.len > limits.maxFileBytes then
    .fail (.platform (.inputTooLarge found.len limits.maxFileBytes))
  else do
    let reader ← (openFile source).mapError .platform
    let writer ← (createNew destination).mapError .platform
    let contents ← readLoop .platform (checkControl.mapError .stopped)
      (exceedsCeiling limits.maxFileBytes)
      (fun buffer => (writeAll writer buffer).mapError .platform) reader
      (limits.maxFileBytes+1) []
    (setPermissions destination).mapError .platform
    (syncAll writer).mapError .platform
    let total ← .ofExcept (chargeBytes contents.length limits total)
    pure ((hash contents,contents.length),total)

def hashFileRecovery : Act PlatformError Digest := do
  let found ← metadata path
  if found.len≠expectedSize then .fail .recoveryRequired
  else do
    let reader ← openFile path
    let contents ← readLoop id (pure ())
      (fun size => if size ≥ 2 ^ 64 ∨ size > expectedSize then some .recoveryRequired else none)
      (fun _ => pure ()) reader (expectedSize+1) []
    if contents.length≠expectedSize then .fail .recoveryRequired else pure (hash contents)

def fileMatchesRecovery :
    Act PlatformError Bool := do
  let found ← symlinkMetadata path
  if !found.isFile || found.isSymlink then .fail .recoveryRequired
  else if found.len≠expectedSize then pure false
  else do
    let digest ← hashFileRecovery hash path expectedSize
    pure (digest=expectedDigest)

def readStagedReplacement (limits : FileTransactionLimits) : Act StepFailure Bytes := do
  let found ← (symlinkMetadata path).mapError .platform
  if !found.isFile || found.isSymlink || found.len≠expectedSize
      || expectedSize > limits.maxFileBytes then
    .fail (.platform .journalCorrupt)
  else do
    let reader ← (openFile path).mapError .platform
    let contents ← readLoop .platform (checkControl.mapError .stopped)
      (fun size => if size > expectedSize then some (.platform .journalCorrupt) else none)
      (fun _ => pure ()) reader (expectedSize+1) []
    if contents.length≠expectedSize ∨ hash contents≠expectedDigest then
      .fail (.platform .journalCorrupt)
    else pure contents

def sameRegularFile (left right : Path) : Act PlatformError Bool := do
  let first ← symlinkMetadata left
  if !first.isFile || first.isSymlink then pure false
  else do
    let second ← symlinkMetadata right
    if !second.isFile || second.isSymlink then pure false
    else isSameFile left right

def readRegularBounded (maxBytes : ℕ) : Act PlatformError Bytes := do
  let found ← symlinkMetadata path
  if !found.isFile || found.isSymlink || found.len > maxBytes then .fail .journalCorrupt
  else do
    let file ← openFile path
    let bytes ← readAt file 0 (maxBytes+1)
    if bytes.length > maxBytes then .fail .journalCorrupt else pure bytes

/-! ## Writing -/

def writeNewSync (bytes : Bytes) : Act PlatformError Unit := do
  let file ← createNew path
  writeAll file bytes
  syncAll file

def syncParent : Act PlatformError Unit := syncDirectory (FileTree.parent path)

def removeFileIfPresent : Act PlatformError Unit := do
  match ← (symlinkMetadata path).attempt with
  | .ok found =>
      if found.isFile && !found.isSymlink then removeFile path else .fail .recoveryRequired
  | .error e => if e=.io .notFound then pure () else .fail e

def removeDirectoryIfPresent : Act PlatformError Unit := do
  match ← (removeDirAll path).attempt with
  | .ok () => pure ()
  | .error e => if e=.io .notFound then pure () else .fail e

/-! ## Preparing -/

variable (workspace : Workspace)

/-- A free target: its checked path and the total after charging what stands there. -/
def ensureAbsent (logical : Text) (limits : FileTransactionLimits) (total : ℕ) :
    Act StepFailure Path := do
  let candidate ← (workspace.checkedMutationPath logical false).mapError .platform
  match ← (symlinkMetadata candidate).attempt with
  | .error e => if e=.io .notFound then pure candidate else .fail (.platform e)
  | .ok found =>
      if found.isFile then do
        let ((digest,_),_) ← hashFileBounded hash candidate limits total
        .fail (.conflict digest)
      else .fail (.platform .invalidMutationTarget)

def ensureAbsentForApply (logical : Text) (limits : FileTransactionLimits) :
    Act StepFailure Unit := do
  let candidate ← (workspace.checkedMutationPath logical false).mapError .platform
  match ← (symlinkMetadata candidate).attempt with
  | .error e => if e=.io .notFound then pure () else .fail (.platform e)
  | .ok found =>
      if found.isFile then do
        let (digest,_) ← hashFileWithoutCharge hash candidate limits
        .fail (.conflict digest)
      else .fail (.platform .invalidMutationTarget)

/-- A field that the shape of the action promises. -/
def required {α : Type} (field : Option α) (error : PlatformError) : Act StepFailure α :=
  match field with
  | some a => pure a
  | none => .fail (.platform error)

/-- The journal's record of an action whose contents are known. -/
def preparedAction (action : FileAction) (digest : Digest) (size : ℕ)
    (preimage : Option (Digest × ℕ)) : PreparedAction :=
  ⟨action.kind,action.path,action.destination,digest,size,
    preimage.map Prod.fst,preimage.map Prod.snd⟩

variable (index : ℕ) (action : PreparedAction)

def prepareCreate (action : FileAction) (preparing : Path) (limits : FileTransactionLimits)
    (totals : TransactionTotals) :
    Act StepFailure (PreparedAction × TransactionTotals) := do
  let _ ← ensureAbsent hash workspace action.path limits totals.materialized
  let content ← required action.content .invalidMutationTarget
  let materialized ← .ofExcept (chargeBytes content.length limits totals.materialized)
  (writeNewSync (stagePath preparing index) content).mapError .platform
  pure (preparedAction action (hash content) content.length none,{ totals with materialized })

def prepareCopy (action : FileAction) (preparing : Path) (limits : FileTransactionLimits)
    (totals : TransactionTotals) :
    Act StepFailure (PreparedAction × TransactionTotals) := do
  let destination ← required action.destination .invalidMutationTarget
  let _ ← ensureAbsent hash workspace destination limits totals.materialized
  let source ← (workspace.checkedMutationPath action.path true).mapError .platform
  let ((digest,size),materialized) ←
    copyFileBounded hash source (stagePath preparing index) limits totals.materialized
  if some digest≠action.expectedDigest then .fail (.conflict digest)
  else pure (preparedAction action digest size none,{ totals with materialized })

/-- Refuse a destination that is taken; an action without one passes. -/
def ensureDestinationAbsent (destination : Option Text) (limits : FileTransactionLimits)
    (total : ℕ) : Act StepFailure Unit := do
  match destination with
  | some destination => do
      let _ ← ensureAbsent hash workspace destination limits total
  | none => pure ()

def prepareMoveRemove (action : FileAction) (limits : FileTransactionLimits)
    (totals : TransactionTotals) : Act StepFailure (PreparedAction × TransactionTotals) := do
  ensureDestinationAbsent hash workspace action.destination limits totals.materialized
  let source ← (workspace.checkedMutationPath action.path true).mapError .platform
  let ((digest,size),materialized) ← hashFileBounded hash source limits totals.materialized
  if some digest≠action.expectedDigest then .fail (.conflict digest)
  else pure (preparedAction action digest size none,{ totals with materialized })

def prepareReplace (action : FileAction) (preparing : Path) (limits : FileTransactionLimits)
    (totals : TransactionTotals) :
    Act StepFailure (PreparedAction × TransactionTotals) := do
  let source ← (workspace.checkedMutationPath action.path true).mapError .platform
  let ((preimageDigest,preimageSize),preimages) ←
    copyFileBounded hash source (removedPath preparing index) limits totals.preimages
  if some preimageDigest≠action.expectedDigest then .fail (.conflict preimageDigest)
  else do
    let content ← required action.content .invalidMutationTarget
    let materialized ← .ofExcept (chargeBytes content.length limits totals.materialized)
    (writeNewSync (stagePath preparing index) content).mapError .platform
    pure (preparedAction action (hash content) content.length
      (some (preimageDigest,preimageSize)),⟨materialized,preimages⟩)

def prepareAction (action : FileAction) (preparing : Path) (limits : FileTransactionLimits)
    (totals : TransactionTotals) :
    Act StepFailure (PreparedAction × TransactionTotals) := do
  checkControl.mapError .stopped
  match action.kind with
  | .create => prepareCreate hash workspace index action preparing limits totals
  | .copy => prepareCopy hash workspace index action preparing limits totals
  | .move | .remove => prepareMoveRemove hash workspace action limits totals
  | .replace => prepareReplace hash workspace index action preparing limits totals

/-! ## Applying -/

/-- A failed link: a file that appeared at the target is a conflict. -/
def hardLinkError (destination : Path) (limits : FileTransactionLimits) (error : PlatformError) :
    Act StepFailure Unit := do
  match ← (symlinkMetadata destination).attempt with
  | .ok found =>
      if found.isFile then do
        let (digest,_) ← hashFileWithoutCharge hash destination limits
        .fail (.conflict digest)
      else .fail (.platform error)
  | .error _ => .fail (.platform error)

def linkFile (source destination : Path) (limits : FileTransactionLimits) :
    Act StepFailure Unit := do
  match ← (hardLink source destination).attempt with
  | .ok () => pure ()
  | .error e => hardLinkError hash destination limits e

/-- Link the staged file under its destination, then drop the staged name. -/
def applyCreateCopy (transaction : Path) (limits : FileTransactionLimits) :
    Act StepFailure Unit := do
  let logical := action.destination.getD action.path
  ensureAbsentForApply hash workspace logical limits
  let destination ← (workspace.checkedMutationPath logical false).mapError .platform
  let stage := stagePath transaction index
  let (stageDigest,stageSize) ← hashFileWithoutCharge hash stage limits
  if stageDigest≠action.digest ∨ stageSize≠action.size then
    .fail (.platform .journalCorrupt)
  else do
    linkFile hash stage destination limits
    (syncParent destination).mapError .platform
    (removeFile stage).mapError .platform
    (syncDirectory (transaction++[stageDirectory])).mapError .platform

/-- Link the source under its destination, then drop the source name. -/
def applyMove (limits : FileTransactionLimits) :
    Act StepFailure Unit := do
  let source ← (workspace.checkedMutationPath action.path true).mapError .platform
  let (actual,size) ← hashFileWithoutCharge hash source limits
  if actual≠action.digest ∨ size≠action.size then .fail (.conflict actual)
  else do
    let destinationLogical ← required action.destination .journalCorrupt
    ensureAbsentForApply hash workspace destinationLogical limits
    let destination ←
      (workspace.checkedMutationPath destinationLogical false).mapError .platform
    linkFile hash source destination limits
    (syncParent destination).mapError .platform
    (removeFile source).mapError .platform
    (syncParent source).mapError .platform

/-- Move the source into the journal. -/
def applyRemove (transaction : Path) (limits : FileTransactionLimits) : Act StepFailure Unit := do
  let source ← (workspace.checkedMutationPath action.path true).mapError .platform
  let (actual,size) ← hashFileWithoutCharge hash source limits
  if actual≠action.digest ∨ size≠action.size then .fail (.conflict actual)
  else do
    (rename source (removedPath transaction index)).mapError .platform
    (syncParent source).mapError .platform
    (syncDirectory (transaction++[removedDirectory])).mapError .platform

/-- Swap in the staged contents, then drop the staged name. -/
def applyReplace (transaction : Path) (limits : FileTransactionLimits) : Act StepFailure Unit := do
  let expectedDigest ← required action.preimageDigest .journalCorrupt
  let expectedSize ← required action.preimageSize .journalCorrupt
  let destination ← (workspace.checkedMutationPath action.path true).mapError .platform
  let (actualDigest,actualSize) ← hashFileWithoutCharge hash destination limits
  if actualDigest≠expectedDigest ∨ actualSize≠expectedSize then
    .fail (.conflict actualDigest)
  else do
    let stage := stagePath transaction index
    let contents ← readStagedReplacement hash stage action.size action.digest limits
    match ← (workspace.compareAndSwapReplaceInner hash action.path expectedDigest contents
        limits.maxFileBytes).attempt with
    | .ok (.committed _ newDigest) =>
        if newDigest≠action.digest then .fail (.platform .recoveryRequired)
        else do
          (syncParent destination).mapError .platform
          (removeFile stage).mapError .platform
          (syncDirectory (transaction++[stageDirectory])).mapError .platform
    | .ok (.conflict actualDigest) => .fail (.conflict actualDigest)
    | .ok (.indeterminate _) => .fail (.platform .recoveryRequired)
    | .error e => .fail (.platform e)

def applyAction (transaction : Path) (limits : FileTransactionLimits) : Act StepFailure Unit := do
  checkControl.mapError .stopped
  match action.kind with
  | .create | .copy => applyCreateCopy hash workspace index action transaction limits
  | .move => applyMove hash workspace action limits
  | .remove => applyRemove hash workspace index action transaction limits
  | .replace => applyReplace hash workspace index action transaction limits

/-! ## Rolling back -/

/-- Whether a regular file stands at a path; anything else there needs a person. -/
def regularExists (path : Path) : Act PlatformError Bool := do
  match ← (symlinkMetadata path).attempt with
  | .ok found => if found.isFile then pure true else .fail .recoveryRequired
  | .error e => if e=.io .notFound then pure false else .fail e

def requiredField {α : Type} (field : Option α) : Act PlatformError α :=
  match field with
  | some a => pure a
  | none => .fail .journalCorrupt

/-- A link is established when the first name is intact and both name one file. -/
def linkedState (first second : Path) (action : PreparedAction) :
    Act PlatformError AppliedState := do
  let intact ← fileMatchesRecovery hash first action.size action.digest
  let same ← if intact then sameRegularFile first second else pure false
  if same then pure .linked else pure .indeterminate

/-- The one remaining name shows the action applied when its contents are right. -/
def movedState (path : Path) (action : PreparedAction) : Act PlatformError AppliedState := do
  let digest ← hashFileRecovery hash path action.size
  if digest=action.digest then pure .applied else pure .indeterminate

def createCopyState (transaction : Path) :
    Act PlatformError AppliedState := do
  let stage := stagePath transaction index
  let destination ← workspace.checkedMutationPath (action.destination.getD action.path) false
  let staged ← regularExists stage
  let present ← regularExists destination
  match staged, present with
  | _, false => pure .notApplied
  | true, true => linkedState hash stage destination action
  | false, true => movedState hash destination action

def moveState : Act PlatformError AppliedState := do
  let source ← workspace.checkedMutationPath action.path false
  let logical ← requiredField action.destination
  let destination ← workspace.checkedMutationPath logical false
  let remains ← regularExists source
  let present ← regularExists destination
  match remains, present with
  | true, false => pure .notApplied
  | true, true => linkedState hash source destination action
  | false, true => movedState hash destination action
  | false, false => pure .indeterminate

def removeState (transaction : Path) :
    Act PlatformError AppliedState := do
  let source ← workspace.checkedMutationPath action.path false
  let removed := removedPath transaction index
  let remains ← regularExists source
  let preserved ← regularExists removed
  match remains, preserved with
  | true, false => pure .notApplied
  | false, true => movedState hash removed action
  | _, _ => pure .indeterminate

/-- The target still has its preimage, or has neither of its two contents. -/
def preimageState (destination : Path) (size : ℕ) (digest : Digest) :
    Act PlatformError AppliedState := do
  let unchanged ← fileMatchesRecovery hash destination size digest
  if unchanged then pure .notApplied else pure .indeterminate

def replaceState (transaction : Path) :
    Act PlatformError AppliedState := do
  let destination ← workspace.checkedMutationPath action.path false
  let removed := removedPath transaction index
  let present ← regularExists destination
  if !present then pure .indeterminate
  else do
    let preimageDigest ← requiredField action.preimageDigest
    let preimageSize ← requiredField action.preimageSize
    let preserved ← regularExists removed
    if !preserved then preimageState hash destination preimageSize preimageDigest
    else do
      let intact ← fileMatchesRecovery hash removed preimageSize preimageDigest
      if !intact then pure .indeterminate
      else do
        let applied ← fileMatchesRecovery hash destination action.size action.digest
        if applied then pure .applied
        else preimageState hash destination preimageSize preimageDigest

def appliedState (transaction : Path) : Act PlatformError AppliedState :=
  match action.kind with
  | .create | .copy => createCopyState hash workspace index action transaction
  | .move => moveState hash workspace action
  | .remove => removeState hash workspace index action transaction
  | .replace => replaceState hash workspace index action transaction

def rollbackCreateCopy (transaction : Path) :
    Act PlatformError Unit := do
  let stage := stagePath transaction index
  let destination ← workspace.checkedMutationPath (action.destination.getD action.path) true
  let digest ← hashFileRecovery hash destination action.size
  if digest≠action.digest then .fail .recoveryRequired
  else do
    let present ← pathExists stage
    let safe ← if present then sameRegularFile stage destination else pure true
    if !safe then .fail .recoveryRequired
    else do
      removeFile destination
      syncParent destination

def rollbackMove : Act PlatformError Unit := do
  let source ← workspace.checkedMutationPath action.path false
  let present ← pathExists source
  if present then do
    let logical ← requiredField action.destination
    let destination ← workspace.checkedMutationPath logical true
    let unchanged ← fileMatchesRecovery hash source action.size action.digest
    let same ← if unchanged then sameRegularFile source destination else pure false
    if !same then .fail .recoveryRequired
    else do
      removeFile destination
      syncParent destination
  else do
    let logical ← requiredField action.destination
    let destination ← workspace.checkedMutationPath logical true
    let digest ← hashFileRecovery hash destination action.size
    if digest≠action.digest then .fail .recoveryRequired
    else do
      hardLink destination source
      syncParent source
      removeFile destination
      syncParent destination

def rollbackRemove (transaction : Path) :
    Act PlatformError Unit := do
  let source ← workspace.checkedMutationPath action.path false
  let present ← pathExists source
  if present then .fail .recoveryRequired
  else do
    let removed := removedPath transaction index
    let digest ← hashFileRecovery hash removed action.size
    if digest≠action.digest then .fail .recoveryRequired
    else do
      rename removed source
      syncParent source
      syncDirectory (transaction++[removedDirectory])

def rollbackReplace (transaction : Path) :
    Act PlatformError Unit := do
  let preimageDigest ← requiredField action.preimageDigest
  let preimageSize ← requiredField action.preimageSize
  let destination ← workspace.checkedMutationPath action.path true
  let removed := removedPath transaction index
  let applied ← fileMatchesRecovery hash destination action.size action.digest
  if !applied then .fail .recoveryRequired
  else do
    let preserved ← fileMatchesRecovery hash removed preimageSize preimageDigest
    if !preserved then .fail .recoveryRequired
    else do
      let contents ← readRegularBounded removed preimageSize
      if contents.length≠preimageSize ∨ hash contents≠preimageDigest then
        .fail .recoveryRequired
      else do
        match ← workspace.compareAndSwapReplaceInner hash action.path action.digest contents
            maxFileTransactionFileBytes with
        | .committed _ newDigest =>
            if newDigest≠preimageDigest then .fail .recoveryRequired
            else do
              syncParent destination
              removeFileIfPresent removed
              removeFileIfPresent (stagePath transaction index)
              syncDirectory (transaction++[removedDirectory])
              syncDirectory (transaction++[stageDirectory])
        | _ => .fail .recoveryRequired

def rollbackAction (transaction : Path) : Act PlatformError Unit :=
  match action.kind with
  | .create | .copy => rollbackCreateCopy hash workspace index action transaction
  | .move => rollbackMove hash workspace action
  | .remove => rollbackRemove hash workspace index action transaction
  | .replace => rollbackReplace hash workspace index action transaction

end

end Ash.TransactionSteps
