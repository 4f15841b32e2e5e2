import Ash.DirectoryWalks
import Ash.OperationErrors
import Ash.SortedKeys

/-! # Searches and snapshots of a tree

What a search and a snapshot do with the entries of their walks: a search resolves the files it
found, and a snapshot identifies every entry by its size and a digest. -/

namespace Ash.TreeOperations
open ByteCodecs DirectoryWalks LinkedTrees OperationErrors Outcomes Responses SortedKeys
  WorkspacePaths
open WorkspaceOperations (Digest PlatformError)

/-! ## Searches -/

def searchDepth : UInt16 := 64

def sortDeduplicateSearchPaths (paths : List Text) : List Text :=
  sortDedupBy id NativeWorkspace.nameLe paths

/-- The files that a search reads, in the order in which it does. -/
def searchFiles (workspace : NativeWorkspace) (disk : Disk) (paths : List Text)
    (includeHidden : Bool) (maxSearchEntries : ℕ) : Except PlatformError (List ResolvedPath) := do
  let roots ← paths.mapM (workspace.resolveExisting disk)
  let batches ← roots.mapM fun root =>
    workspace.walk disk root ⟨searchDepth,includeHidden,maxSearchEntries⟩
  let files := batches.flatten.filter fun entry => entry.kind=.file
  (sortDeduplicateSearchPaths (files.map NativeEntry.logical)).mapM
    (workspace.resolveExisting disk)

/-! ## Identities -/

section
variable (hash : Bytes → Digest) (workspace : NativeWorkspace) (disk : Disk)

structure FileIdentity where
  size : ℕ
  digest : Digest

def hashFileLimited (path : ResolvedPath) (maxBytes : ℕ) : Except PlatformError FileIdentity := do
  let native ← workspace.revalidate disk path
  match disk.kind native with
  | none => .error (.io .notFound)
  | some (.file bytes) =>
      if maxBytes < bytes.length then .error (.inputTooLarge bytes.length maxBytes)
      else .ok ⟨bytes.length,hash bytes⟩
  | some _ => .error .invalidMutationTarget

/-- The digest of the target of a link.  The directories above it may be links. -/
def symlinkDigest (logical : Text) : Except PlatformError Digest := do
  validateLogical logical
  if logical=rootLogical then .error .invalidLogicalPath
  else do
    let names := logical.splitOn '/'
    let parent ← NativeWorkspace.liftIo (disk.canonicalize (workspace.root++names.dropLast))
    workspace.ensureContained parent
    match disk.kind (parent++names.getLast?.toList) with
    | none => .error (.io .notFound)
    | some (.symlink target) => .ok (hash (utf8 target))
    | some _ => .error .invalidMutationTarget

/-! ## Snapshots -/

structure SnapshotEntry where
  path : Text
  kind : FileKind
  size : UInt64
  digest : Option Digest
  deriving DecidableEq

def fileKind : EntryKind → FileKind
  | .file => .file
  | .directory => .directory
  | .symlink => .symlink
  | .other => .other

def liftPlatform {α : Type} (result : Except PlatformError α) : Except OperationError α :=
  result.mapError .platform

def identity (entry : NativeEntry) : Except PlatformError (UInt64 × Option Digest) :=
  match entry.kind with
  | .file => do
      let path ← workspace.resolveExisting disk entry.logical
      let identity ← hashFileLimited hash workspace disk path entry.size
      return (.ofNat identity.size,some identity.digest)
  | .symlink => do
      let digest ← symlinkDigest hash workspace disk entry.logical
      return (0,some digest)
  | .directory | .other => .ok (0,none)

def identifyEntry (cancelled : Bool) (entry : NativeEntry) :
    Except OperationError SnapshotEntry := do
  require (cancelled=false) .cancelled
  let found ← liftPlatform (identity hash workspace disk entry)
  return ⟨entry.logical,fileKind entry.kind,found.1,found.2⟩

end

def sortEntries (entries : List NativeEntry) : List NativeEntry :=
  sortDedupBy NativeEntry.logical NativeWorkspace.nameLe entries

end Ash.TreeOperations
