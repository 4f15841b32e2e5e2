import Ash.TransactionSteps

/-! # File transactions and their recovery

A transaction prepares every action under `.ash/transaction.new`, publishes the
journal by renaming it to `.ash/transaction`, applies the actions in order, and
commits by renaming a marker.  Recovery removes what was never published, finishes
the removal of a committed journal, and rolls every other journal back. -/

namespace Ash.FileTransactions
open WorkspaceOperations WorkspacePaths TransactionActions TransactionManifest TransactionSteps
open ByteCodecs

def formatMarker : Bytes := utf8 "ash-workspace-state-v1\n".toList
def committedMarker : Bytes := utf8 "committed\n".toList

def manifestPath : Path := transactionPath++[manifestFile]
def committingPath : Path := transactionPath++[committingFile]
def committedPath : Path := transactionPath++[committedFile]

def internalDirectoryExists (path : Path) : Act PlatformError Bool := do
  match ← (symlinkMetadata path).attempt with
  | .ok found => if found.isDir && !found.isSymlink then pure true else .fail .journalCorrupt
  | .error e => if e=.io .notFound then pure false else .fail e

def requireInternalDirectory (path : Path) : Act PlatformError Unit := do
  let present ← internalDirectoryExists path
  if present then pure () else .fail .journalCorrupt

/-! ## Internal state and locks -/

def hasInternalState : Act PlatformError Bool := do
  match ← (symlinkMetadata statePath).attempt with
  | .ok found =>
      if found.isDir && !found.isSymlink then do
        match ← (readRegularBounded formatPath formatMarker.length).attempt with
        | .ok value => pure (value=formatMarker)
        | .error e =>
            if e=.journalCorrupt ∨ e=.io .notFound then pure false else .fail e
      else pure false
  | .error e => if e=.io .notFound then pure false else .fail e

/-- Open the workspace at the root of the tree. -/
def openWorkspace : Act PlatformError Workspace := do
  let internalState ← hasInternalState
  pure ⟨internalState⟩

/-- Make the state directory and its format marker. -/
def createInternalState : Act PlatformError Workspace := do
  createDir statePath
  setPermissions statePath
  writeNewSync formatPath formatMarker
  syncDirectory nativeRoot
  pure ⟨true⟩

/-- Create or check the state directory; the open workspace knows of it afterwards. -/
def ensureInternalState : Act PlatformError Workspace := do
  match ← (symlinkMetadata statePath).attempt with
  | .ok found =>
      if !found.isDir || found.isSymlink then .fail .reservedPath
      else do
        match ← (readRegularBounded formatPath formatMarker.length).attempt with
        | .ok value => if value≠formatMarker then .fail .reservedPath else pure ⟨true⟩
        | .error _ => .fail .reservedPath
  | .error e =>
      if e=.io .notFound then createInternalState else .fail e

inductive LockResult where
  | acquired (workspace : Workspace)
  | stopped (failure : FileTransactionFailure)

def controlFailure : TransactionControl → Option FileTransactionFailure
  | .continue => none
  | .cancelled => some .cancelled
  | .timedOut => some .timedOut

/-- Refuse a lock path that is taken by anything but a regular file. -/
def checkLockFile : Act PlatformError Unit := do
  match ← (symlinkMetadata lockPath).attempt with
  | .ok found => if found.isFile && !found.isSymlink then pure () else .fail .journalCorrupt
  | .error e => if e=.io .notFound then pure () else .fail e

/-- Open the lock file and wait for it. -/
def holdLockFile (workspace : Workspace) : Act PlatformError LockResult := do
  openLock lockPath
  let waited ← awaitLock .file
  match controlFailure waited with
  | some failure => pure (.stopped failure)
  | none => pure (.acquired workspace)

def acquireTransactionLocks : Act PlatformError LockResult := do
  let waited ← awaitLock .mutation
  match controlFailure waited with
  | some failure => pure (.stopped failure)
  | none => do
      let workspace ← ensureInternalState
      checkLockFile
      holdLockFile workspace

section
variable (hash : Bytes → Digest)

/-! ## Rollback and recovery -/

def rollbackDigest (action : PreparedAction) : Digest := action.preimageDigest.getD action.digest

/-- Set the row of an action, when rows are kept. -/
def setRow (rows : Option (List FileActionOutcome)) (index : ℕ) (state : FileActionState)
    (digest : Digest) : Option (List FileActionOutcome) :=
  rows.map fun rows => rows.set index ⟨state,some digest⟩

/-- The state a kept row has for an action. -/
def rowState (rows : Option (List FileActionOutcome)) (index : ℕ) : Option FileActionState :=
  rows.bind fun rows => rows[index]?.map FileActionOutcome.state

/-- The actions still to be rolled back, last first. -/
def rollbackEach (workspace : Workspace) : List (PreparedAction × ℕ) →
    Option (List FileActionOutcome) → Bool →
    Act PlatformError (Bool × Option (List FileActionOutcome))
  | [], rows, recoveryRequired => pure (recoveryRequired,rows)
  | (action,index)::rest, rows, recoveryRequired => do
      let knownNotApplied := rowState rows index=some .conflict ∨
        rowState rows index=some .skipped
      let state ← if knownNotApplied then pure (.ok .notApplied)
        else (appliedState hash workspace index action transactionPath).attempt
      match state with
      | .ok .notApplied =>
          let rows := if rowState rows index=some .committed ∨
              rowState rows index=some .recoveryRequired then
            setRow rows index .rolledBack (rollbackDigest action) else rows
          rollbackEach workspace rest rows recoveryRequired
      | .ok .indeterminate | .error _ =>
          rollbackEach workspace rest (setRow rows index .recoveryRequired action.digest) true
      | .ok .applied | .ok .linked => do
          match ← (rollbackAction hash workspace index action transactionPath).attempt with
          | .ok () =>
              rollbackEach workspace rest
                (setRow rows index .rolledBack (rollbackDigest action)) recoveryRequired
          | .error _ =>
              rollbackEach workspace rest
                (setRow rows index .recoveryRequired action.digest) true

variable (workspace : Workspace) (actions : List FileAction)

/-- True when at least one action could not be safely restored. -/
def rollbackLocked (actions : List PreparedAction) (rows : Option (List FileActionOutcome)) :
    Act PlatformError (Bool × Option (List FileActionOutcome)) :=
  rollbackEach hash workspace actions.zipIdx.reverse rows false

/-- Finish a committed journal, or roll the actions of any other back. -/
def recoverPrepared (prepared : List PreparedAction) :
    Act PlatformError Bool := do
  match ← (symlinkMetadata committedPath).attempt with
  | .ok _ => do
      let marker ← readRegularBounded committedPath committedMarker.length
      if marker≠committedMarker then .fail .journalCorrupt
      else do
        removeDirectoryIfPresent transactionPath
        syncDirectory statePath
        pure true
  | .error e =>
      if e=.io .notFound then do
        let (recoveryRequired,_) ← rollbackLocked hash workspace prepared none
        if recoveryRequired then .fail .recoveryRequired
        else do
          removeDirectoryIfPresent transactionPath
          syncDirectory statePath
          pure true
      else .fail e

/-- Read the published journal and decide what it asks for. -/
def recoverJournal : Act PlatformError Bool := do
  requireInternalDirectory (transactionPath++[stageDirectory])
  requireInternalDirectory (transactionPath++[removedDirectory])
  let manifest ← readRegularBounded manifestPath maxManifestBytes
  let prepared ← .ofExcept (decodeManifest hash manifest)
  recoverPrepared hash workspace prepared

def recoverLocked : Act PlatformError Bool := do
  let unpublished ← internalDirectoryExists preparingPath
  if unpublished then removeDirectoryIfPresent preparingPath
  let published ← internalDirectoryExists transactionPath
  if !published then pure unpublished else recoverJournal hash workspace

def recoverFileTransactions : Act PlatformError Bool := do
  if !workspace.internalState then pure false
  else do
    match ← acquireTransactionLocks with
    | .stopped _ => pure false
    | .acquired workspace => recoverLocked hash workspace

/-! ## The transaction -/

def prepareAll (workspace : Workspace) (limits : FileTransactionLimits) :
    ℕ → TransactionTotals → List FileAction → Act (ℕ × StepFailure) (List PreparedAction)
  | _, _, [] => pure []
  | index, totals, action::rest => do
      let (prepared,totals) ←
        (prepareAction hash workspace index action preparingPath limits totals).mapError
          (Prod.mk index)
      let others ← prepareAll workspace limits (index+1) totals rest
      pure (prepared::others)

/-- Apply the actions in order; the rows and the failure that ended the loop. -/
def applyAll (workspace : Workspace) (limits : FileTransactionLimits) :
    ℕ → List FileActionOutcome → List PreparedAction →
    Act PlatformError (List FileActionOutcome × Option FileTransactionFailure)
  | _, rows, [] => pure (rows,none)
  | index, rows, action::rest => do
      -- until the step reports, its mutation may or may not have become visible
      let rows := rows.set index ⟨.recoveryRequired,some action.digest⟩
      match ← (applyAction hash workspace index action transactionPath limits).attempt with
      | .ok () =>
          applyAll workspace limits (index+1)
            (rows.set index ⟨.committed,some action.digest⟩) rest
      | .error (.conflict digest) =>
          pure (rows.set index ⟨.conflict,some digest⟩,some .conflict)
      | .error (.stopped failure) => pure (rows.set index .skipped,some failure)
      | .error (.platform _) => pure (rows,some .filesystem)

/-- Undo a published transaction that failed before its commit. -/
def abandon (prepared : List PreparedAction) (rows : List FileActionOutcome)
    (failure : FileTransactionFailure) :
    Act PlatformError FileTransactionOutcome := do
  let (recoveryRequired,rolledBack) ← rollbackLocked hash workspace prepared (some rows)
  let rows := rolledBack.getD rows
  if recoveryRequired then pure ⟨rows,some .recoveryRequired⟩
  else do
    removeDirectoryIfPresent transactionPath
    syncDirectory statePath
    pure ⟨rows,some failure⟩

/-- Write the commit marker under its temporary name and rename it. -/
def commitMarker : Act PlatformError Unit := do
  writeNewSync committingPath committedMarker
  rename committingPath committedPath

/-- The commit and the cleanup after it, whose failure changes nothing. -/
def commit (prepared : List PreparedAction) (rows : List FileActionOutcome) :
    Act PlatformError FileTransactionOutcome := do
  match ← commitMarker.attempt with
  | .error _ => abandon hash workspace prepared rows .filesystem
  | .ok () => do
      match ← (syncDirectory transactionPath).attempt with
      | .error _ =>
          pure ⟨prepared.map fun action => ⟨.recoveryRequired,some action.digest⟩,
            some .recoveryRequired⟩
      | .ok () => do
          let _ ← (removeDirectoryIfPresent transactionPath).attempt
          let _ ← (syncDirectory statePath).attempt
          pure ⟨rows,none⟩

/-- Apply the published journal and commit it, or take back what was done. -/
def applyJournal (limits : FileTransactionLimits) (prepared : List PreparedAction)
    (rows : List FileActionOutcome) :
    Act PlatformError FileTransactionOutcome := do
  let (rows,failure) ← applyAll hash workspace limits 0 rows prepared
  match failure with
  | some failure => abandon hash workspace prepared rows failure
  | none => do
      match ← checkControl.attempt with
      | .error stopped => abandon hash workspace prepared rows stopped
      | .ok () => commit hash workspace prepared rows

/-- Publish the prepared journal and apply it. -/
def publish (limits : FileTransactionLimits) (prepared : List PreparedAction)
    (rows : List FileActionOutcome) :
    Act PlatformError FileTransactionOutcome := do
  let manifest ← .ofExcept (encodeManifest hash prepared)
  writeNewSync (preparingPath++[manifestFile]) manifest
  syncDirectory preparingPath
  rename preparingPath transactionPath
  syncDirectory statePath
  applyJournal hash workspace limits prepared rows

/-- Make the journal directory under its working name, after dropping any left there. -/
def createPreparing : Act PlatformError Unit := do
  let leftover ← internalDirectoryExists preparingPath
  if leftover then removeDirectoryIfPresent preparingPath
  createDir preparingPath
  createDir (preparingPath++[stageDirectory])
  createDir (preparingPath++[removedDirectory])
  syncDirectory statePath

/-- Prepare every action, then publish the journal; or drop what was prepared. -/
def prepareAndPublish (limits : FileTransactionLimits) :
    Act PlatformError FileTransactionOutcome := do
  let rows := List.replicate actions.length FileActionOutcome.skipped
  createPreparing
  match ← (prepareAll hash workspace limits 0 ⟨0,0⟩ actions).attempt with
  | .ok prepared => publish hash workspace limits prepared rows
  | .error (index,.conflict digest) => do
      removeDirectoryIfPresent preparingPath
      pure ⟨rows.set index ⟨.conflict,some digest⟩,some .conflict⟩
  | .error (_,.stopped failure) => do
      removeDirectoryIfPresent preparingPath
      pure ⟨rows,some failure⟩
  | .error (_,.platform error) => do
      removeDirectoryIfPresent preparingPath
      .fail error

/-- The transaction once the locks are held. -/
def transactionLocked (limits : FileTransactionLimits) :
    Act PlatformError FileTransactionOutcome := do
  let _ ← recoverLocked hash workspace
  prepareAndPublish hash workspace actions limits

def fileTransaction (limits : FileTransactionLimits) :
    Act PlatformError FileTransactionOutcome := do
  .ofExcept (validateActions workspace actions)
  match ← acquireTransactionLocks with
  | .stopped failure =>
      pure ⟨List.replicate actions.length FileActionOutcome.skipped,some failure⟩
  | .acquired workspace => transactionLocked hash workspace actions limits

/-- What a new process does first: open the workspace and recover it. -/
def reopenAndRecover : Act PlatformError Bool := do
  let workspace ← openWorkspace
  recoverFileTransactions hash workspace

end

end Ash.FileTransactions
