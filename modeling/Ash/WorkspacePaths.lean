import Ash.WorkspaceOperations

/-! # Logical paths and single-file replacement

A logical path is a slash-separated relative path inside the workspace.  Before a
mutation it is walked component by component, so that no link is ever followed and
the reserved state directory stays out of reach once it exists. -/

namespace Ash.WorkspacePaths
open WorkspaceOperations

/-- The open workspace; its root is the root of the tree. -/
structure Workspace where
  internalState : Bool
  deriving DecidableEq

def nativeRoot : Path := []

/-- The logical path of the root itself. -/
def rootLogical : Text := ".".toList

def stateDirectory : Text := ".ash".toList

def validateLogical (logical : Text) : Except PlatformError Unit :=
  if logical=[] ∨ byteLength logical > 4096
      ∨ (logical.any fun c => c == '\x00' || c == '\\' || c == ':')
      ∨ logical.head?=some '/'
      ∨ logical.getLast?=some '/'
      ∨ (logical≠rootLogical ∧ (logical.splitOn '/').any fun component =>
          component == [] || component == ".".toList || component == "..".toList) then
    .error .invalidLogicalPath
  else .ok ()

/-- The path is the state directory or below it. -/
def isReserved (logical : Text) : Bool :=
  logical=stateDirectory || (stateDirectory++['/']).isPrefixOf logical

def Workspace.rejectReserved (workspace : Workspace) (logical : Text) :
    Except PlatformError Unit :=
  if workspace.internalState && isReserved logical then .error .reservedPath else .ok ()

/-- The loop of `checkedMutationPath` over the components still to be walked. -/
def checkComponents (mustExist : Bool) (native : Path) : List Text → Act PlatformError Path
  | [] => do
      let canonical ← canonicalize native
      if nativeRoot.isPrefixOf canonical then pure canonical else .fail .workspaceEscape
  | component::rest => do
      let native := native++[component]
      let finalComponent := rest.isEmpty
      match ← (symlinkMetadata native).attempt with
      | .ok found =>
          if found.isSymlink || (finalComponent && !found.isFile)
              || (!finalComponent && !found.isDir) then
            .fail .invalidMutationTarget
          else checkComponents mustExist native rest
      | .error e =>
          if e=.io .notFound ∧ finalComponent ∧ !mustExist then pure native else .fail e

def Workspace.checkedMutationPath (workspace : Workspace) (logical : Text) (mustExist : Bool) :
    Act PlatformError Path := do
  .ofExcept (validateLogical logical)
  .ofExcept (workspace.rejectReserved logical)
  if logical=rootLogical then .fail .invalidMutationTarget
  else checkComponents mustExist nativeRoot (logical.splitOn '/')

structure ResolvedPath where
  logical : Text
  native : Path

inductive ReplaceOutcome where
  | committed (previousDigest newDigest : Digest)
  | conflict (actualDigest : Digest)
  | indeterminate (actualDigest : Option Digest)

namespace Workspace

variable (workspace : Workspace) (hash : Bytes → Digest)

def resolveMutationFile (logical : Text) : Act PlatformError ResolvedPath := do
  let native ← workspace.checkedMutationPath logical true
  pure ⟨logical,native⟩

def revalidateMutationFile (target : ResolvedPath) : Act PlatformError Path := do
  let native ← workspace.checkedMutationPath target.logical true
  if native=target.native then pure native else .fail .invalidMutationTarget

def readMutationFile (target : ResolvedPath) (maxBytes : ℕ) : Act PlatformError Bytes := do
  let native ← workspace.revalidateMutationFile target
  let size := (← metadata native).len
  if size > maxBytes then .fail (.inputTooLarge size maxBytes)
  else
    let file ← openFile native
    readToEnd file

/-- Replace one regular file whose current digest is the expected one.  The temporary
file of the atomic write has no name in the workspace; what is seen is its rename. -/
def compareAndSwapReplaceInner (logical : Text) (expectedDigest : Digest) (contents : Bytes)
    (maxExistingBytes : ℕ) : Act PlatformError ReplaceOutcome := do
  let target ← workspace.resolveMutationFile logical
  let current ← workspace.readMutationFile target maxExistingBytes
  let actualDigest := hash current
  if actualDigest≠expectedDigest then pure (.conflict actualDigest)
  else
    let _ ← metadata target.native
    let newDigest := hash contents
    let current ← workspace.readMutationFile target maxExistingBytes
    let observed := hash current
    if observed≠expectedDigest then pure (.conflict observed)
    else
      match ← (replaceFile target.native contents).attempt with
      | .ok () => pure (.committed actualDigest newDigest)
      | .error e =>
          match ← (workspace.readMutationFile target maxExistingBytes).attempt with
          | .ok current =>
              let observed := hash current
              if observed=newDigest then pure (.committed actualDigest newDigest)
              else if observed=expectedDigest then .fail e
              else pure (.conflict observed)
          | .error _ => pure (.indeterminate none)

end Workspace

end Ash.WorkspacePaths
