import Ash.LinkedTrees
import Ash.TextSlices
import Ash.WorkspacePaths

/-! # Walks over a workspace

A walk lists a directory and what is below it up to a depth.  It never passes a link and leaves
hidden entries out unless they are asked for. -/

namespace Ash.DirectoryWalks
open ByteCodecs LinkedTrees WorkspacePaths
open FileTrees (IoError)
open WorkspaceOperations (PlatformError)

/-- A workspace with the place of its root on the disk. -/
structure NativeWorkspace extends Workspace where
  root : Path

structure WalkOptions where
  maxDepth : UInt16
  includeHidden : Bool
  maxEntries : ℕ

inductive EntryKind where
  | file | directory | symlink | other
  deriving DecidableEq

structure NativeEntry where
  logical : Text
  kind : EntryKind
  size : ℕ
  modifiedMillis : Option Int64
  deriving DecidableEq

def classify : Kind → EntryKind
  | .file _ => .file
  | .directory => .directory
  | .symlink _ => .symlink
  | .other => .other

def fileSize : Kind → ℕ
  | .file bytes => bytes.length
  | _ => 0

/-- Milliseconds since the epoch, unless the time is before it or beyond 64 bits. -/
def modifiedMillis (node : Node) : Option Int64 := do
  let time ← node.modified
  if 0 ≤ time ∧ time / 1000000 < 2 ^ 63 then some (Int64.ofInt (time / 1000000)) else none

def isHidden (native : Path) : Bool :=
  native.getLast?.any fun name => name.head?=some '.'

namespace NativeWorkspace

variable (workspace : NativeWorkspace) (disk : Disk)

def ensureContained (native : Path) : Except PlatformError Unit :=
  if workspace.root.isPrefixOf native then .ok () else .error .workspaceEscape

def joined (logical : Text) : Path :=
  if logical=rootLogical then workspace.root else workspace.root++logical.splitOn '/'

def liftIo {α : Type} (result : Except IoError α) : Except PlatformError α := result.mapError .io

def resolveExisting (logical : Text) : Except PlatformError ResolvedPath := do
  validateLogical logical
  workspace.rejectReserved logical
  let native ← liftIo (disk.canonicalize (workspace.joined logical))
  workspace.ensureContained native
  return ⟨logical,native⟩

def revalidate (path : ResolvedPath) : Except PlatformError Path := do
  let native ← liftIo (disk.canonicalize path.native)
  workspace.ensureContained native
  return native

def joinNames (names : List Text) : Text := List.intercalate ['/'] names

def logicalFromNative (native : Path) : Except PlatformError Text :=
  if workspace.root.isPrefixOf native then
    match native.drop workspace.root.length with
    | [] => .ok rootLogical
    | names => .ok (joinNames names)
  else .error .workspaceEscape

def nameLe (left right : Text) : Bool := decide (utf8 left ≤ utf8 right)

/-- One entry of a walk, in the order of the checks of the code. -/
def nativeEntry (native : Path) (node : Node) : Except PlatformError NativeEntry := do
  let logical ← workspace.logicalFromNative native
  return ⟨logical,classify node.kind,fileSize node.kind,modifiedMillis node⟩

/-- The state directory at depth one is passed over before anything is read of it. -/
def isPassedOver (depth : ℕ) (native : Path) : Bool :=
  depth=1 && workspace.internalState && native.getLast?=some stateDirectory

/-- The walk at one path; `below` goes on from its node and the output that has its entry. -/
def visit (options : WalkOptions) (depth : ℕ) (native : Path) (output : List NativeEntry)
    (below : Node → List NativeEntry → Except PlatformError (List NativeEntry)) :
    Except PlatformError (List NativeEntry) :=
  if workspace.isPassedOver depth native then .ok output
  else match disk.node native with
    | none => .error (.io .notFound)
    | some node =>
      if (0 < depth && isHidden native) && !options.includeHidden then .ok output
      else if options.maxEntries ≤ output.length then .error (.entryLimit options.maxEntries)
      else do
        let entry ← workspace.nativeEntry native node
        below node (output++[entry])

/-- The walk below a path.  `remaining` is what is left of the bound on the depth. -/
def walkInner (options : WalkOptions) : (remaining depth : ℕ) → Path → List NativeEntry →
    Except PlatformError (List NativeEntry)
  | 0, depth, native, output => workspace.visit disk options depth native output fun _ => .ok
  | remaining+1, depth, native, output =>
      workspace.visit disk options depth native output fun node output =>
        if node.kind≠.directory then .ok output
        else do
          let verified ← liftIo (disk.canonicalize native)
          workspace.ensureContained verified
          ((disk.names verified).mergeSort nameLe).foldlM
            (fun output name =>
              walkInner options remaining (depth+1) (verified++[name]) output) output

def logicalLe (left right : NativeEntry) : Bool := nameLe left.logical right.logical

def walk (root : ResolvedPath) (options : WalkOptions) : Except PlatformError (List NativeEntry) :=
  if options.maxEntries=0 then .error (.entryLimit 0)
  else do
    let native ← workspace.revalidate disk root
    let entries ← workspace.walkInner disk options options.maxDepth.toNat 0 native []
    return entries.mergeSort logicalLe

end NativeWorkspace

end Ash.DirectoryWalks
