import Ash.RequestRoundTrip
import Ash.TreeOperations

/-! # Snapshots

A snapshot captures the entries below some paths in a manifest, which is retained as a document.
A later snapshot of the same scope reads it back and tells what has changed since. -/

namespace Ash.Snapshots
open AsonDocuments AsonParser ByteCodecs DirectoryWalks LinkedTrees
  Numerals OperationErrors Outcomes ParserOutcomes RequestArguments RequestValues Requests
  Responses ResultStores TreeOperations WorkspacePaths
open WorkspaceOperations (byteLength Digest)

def maxSnapshotEntries : ℕ := 100000
def maxSnapshotFileBytes : ℕ := 128*1024*1024
def maxSnapshotTotalBytes : ℕ := 1024*1024*1024
def maxSnapshotManifestBytes : ℕ := 8*1024*1024

structure Scope where
  paths : List Text
  depth : UInt16
  flags : UInt32
  deriving DecidableEq

structure Manifest where
  scope : Scope
  entries : List SnapshotEntry
  deriving DecidableEq

inductive SnapshotChange where
  | present | added | modified | removed
  deriving DecidableEq

structure Change where
  kind : SnapshotChange
  entry : SnapshotEntry
  deriving DecidableEq

/-! ## Checks of paths -/

def validPath (path : Text) : Bool :=
  path≠[] && byteLength path ≤ 4096
    && !(path.any fun c => c == '\x00' || c == '\\' || c == ':')
    && path.head?≠some '/' && path.getLast?≠some '/'
    && (path=rootLogical || !((path.splitOn '/').any fun component =>
      component == [] || component == ".".toList || component == "..".toList))

/-- The rest of a path below a root. -/
def relativeTo (root path : Text) : Option Text :=
  if root=rootLogical then some path
  else (path.dropPrefix? root).bind fun rest => rest.dropPrefix? ['/']

def scopeCovers (scope : Scope) (path : Text) : Bool :=
  scope.paths.any fun root => path=root || (relativeTo root path).any fun relative =>
    (relative.splitOn '/').length ≤ scope.depth.toNat

/-! ## Manifests -/

def scopeColumns : List Text := [['p'],['d'],['f']]
def entryColumns : List Text := [['p'],['k'],['z'],['h']]

def Scope.cells (scope : Scope) : List Cell :=
  [textVectorValue scope.paths,unsignedValue scope.depth.toUInt64,
    unsignedValue scope.flags.toUInt64]

def hexDigest (digest : Digest) : Text := encodeHex digest.1

def entryCells (entry : SnapshotEntry) : List Cell :=
  [textValue entry.path,unsignedValue entry.kind.code,unsignedValue entry.size,
    optionalTextValue (entry.digest.map hexDigest)]

def manifestDocument (manifest : Manifest) : Except BuildError Document := do
  let k ← scalarField ['k'] ['s']
  let v ← scalarField ['v'] ['1']
  let q ← valueField ['q'] (recordValue scopeColumns manifest.scope.cells)
  let d ← valueField ['d'] (tableValue entryColumns (manifest.entries.map entryCells))
  Document.new [k,v,q,d]

def encodeManifest (manifest : Manifest) : Except OperationError Bytes := do
  let document ← (manifestDocument manifest).mapError .build
  return utf8 (encode document)

/-! ## Reading manifests -/

def scalar : Option Value → Fallible OperationError Text
  | some (.scalar (.text value)) => .ok value
  | _ => .fail .invalidSnapshot

def textAtom : Cell → Fallible OperationError Text
  | .atom (.text value) => .ok value
  | _ => .fail .invalidSnapshot

def unsignedCell (cell : Cell) : Fallible OperationError UInt64 := do
  let value ← textAtom cell
  if value=[] ∨ (utf8 value).all isAsciiDigit=false ∨
      (1 < TextSlices.byteLength value ∧ value.head?=some '0') then .fail .invalidSnapshot
  else if ofDecimal value < 2 ^ 64 then .ok (UInt64.ofNat (ofDecimal value))
  else .fail .invalidSnapshot

def parseDigest (value : Text) : Option Digest :=
  match h : decodeHexArray 32 value with
  | some bytes => some ⟨bytes,length_decodeHexArray h⟩
  | none => none

def optionalDigest : Cell → Fallible OperationError (Option Digest)
  | .atom .null => .ok none
  | .atom (.text value) =>
      match parseDigest value with
      | some digest => .ok (some digest)
      | none => .fail .invalidSnapshot
  | _ => .fail .invalidSnapshot

def scopePath : Atom → Fallible OperationError Text
  | .text path => if validPath path then .ok path else .fail .invalidSnapshot
  | _ => .fail .invalidSnapshot

def narrowDepth (value : UInt64) : Fallible OperationError UInt16 :=
  if value.toNat < 2 ^ 16 then .ok value.toUInt16 else .fail .invalidSnapshot

def narrowFlags (value : UInt64) : Fallible OperationError UInt32 :=
  if value.toNat < 2 ^ 32 then .ok value.toUInt32 else .fail .invalidSnapshot

def pathAtoms : Cell → Fallible OperationError (List Atom)
  | .vector atoms => .ok atoms
  | .atom _ => .fail .invalidSnapshot

def decodeScope (record : Record) : Fallible OperationError Scope := do
  require (sameNames (names record.columns) scopeColumns=true) (.error .invalidSnapshot)
  match record.values with
  | [paths,depth,flags] => do
      let atoms ← pathAtoms paths
      let paths ← atoms.mapM scopePath
      require (paths≠[] ∧ paths.length ≤ 256 ∧ ascending textLt paths=true)
        (.error .invalidSnapshot)
      let depth ← unsignedCell depth
      let depth ← narrowDepth depth
      let flags ← unsignedCell flags
      let flags ← narrowFlags flags
      require (depth ≤ 64 ∧ flags &&& ~~~ snapshotFlags=0) (.error .invalidSnapshot)
      return ⟨paths,depth,flags⟩
  | _ => .error .panic

def decodeKind (value : UInt64) : Fallible OperationError FileKind :=
  if value=0 then .ok .file
  else if value=1 then .ok .directory
  else if value=2 then .ok .symlink
  else if value=3 then .ok .other
  else .fail .invalidSnapshot

def identityValid (kind : FileKind) (size : UInt64) (digest : Option Digest) : Bool :=
  match kind with
  | .file => digest.isSome
  | .symlink => digest.isSome && size=0
  | .directory | .other => digest.isNone && size=0

/-- The file bytes with those of one more entry. -/
def addFileBytes (kind : FileKind) (size : UInt64) (fileBytes : ℕ) : Fallible OperationError ℕ :=
  if kind=.file then do
    require (size.toNat ≤ maxSnapshotFileBytes) (.error .invalidSnapshot)
    require (fileBytes+size.toNat ≤ maxSnapshotTotalBytes) (.error .invalidSnapshot)
    return fileBytes+size.toNat
  else .ok fileBytes

def decodeRow (scope : Scope) (previous : Option Text) (fileBytes : ℕ) :
    List Cell → Fallible OperationError (SnapshotEntry × ℕ)
  | [path,kind,size,digest] => do
      let path ← textAtom path
      require (validPath path=true ∧ scopeCovers scope path=true ∧
        ∀ last∈previous, utf8 last < utf8 path) (.error .invalidSnapshot)
      let kind ← unsignedCell kind
      let kind ← decodeKind kind
      let size ← unsignedCell size
      let digest ← optionalDigest digest
      require (identityValid kind size digest=true) (.error .invalidSnapshot)
      let fileBytes ← addFileBytes kind size fileBytes
      return (⟨path,kind,size,digest⟩,fileBytes)
  | _ => .error .panic

def decodeRows (scope : Scope) : Option Text → ℕ → List (List Cell) →
    Fallible OperationError (List SnapshotEntry)
  | _, _, [] => .ok []
  | previous, fileBytes, row::rows => do
      let read ← decodeRow scope previous fileBytes row
      let entries ← decodeRows scope (some read.1.path) read.2 rows
      return read.1::entries

def decodeDocument (text : Text) : Fallible OperationError Document :=
  match decode text with
  | .ok document => .ok document
  | .error (.error _) => .fail .invalidSnapshot
  | .error .panic => .error .panic
  | .error .outOfFuel => .error .outOfFuel

def scopeRecord : Option Value → Fallible OperationError Record
  | some (.record record) => .ok record
  | _ => .fail .invalidSnapshot

def entryTable : Option Value → Fallible OperationError Table
  | some (.table table) => .ok table
  | _ => .fail .invalidSnapshot

def decodeManifest (bytes : Bytes) : Fallible OperationError Manifest := do
  require (bytes.length ≤ maxSnapshotManifestBytes) (.error .invalidSnapshot)
  match decodeUtf8 bytes with
  | none => .fail .invalidSnapshot
  | some text => do
      let document ← decodeDocument text
      require (encode document=text ∧
        fieldNames document.fields=[['k'],['v'],['q'],['d']]) (.error .invalidSnapshot)
      let k ← scalar (document.get ['k'])
      require (k=['s']) (.error .invalidSnapshot)
      let v ← scalar (document.get ['v'])
      require (v=['1']) (.error .invalidSnapshot)
      let record ← scopeRecord (document.get ['q'])
      let scope ← decodeScope record
      let table ← entryTable (document.get ['d'])
      require (sameNames (names table.columns) entryColumns=true ∧
        table.rows.length ≤ maxSnapshotEntries) (.error .invalidSnapshot)
      let entries ← decodeRows scope none 0 table.rows
      return ⟨scope,entries⟩

/-! ## Changes -/

/-- What changed from one list of entries to another, both in order. -/
def delta : List SnapshotEntry → List SnapshotEntry → List Change
  | [], current => current.map (Change.mk .added)
  | left::baseline, [] => (left::baseline).map (Change.mk .removed)
  | left::baseline, right::current =>
      if utf8 left.path < utf8 right.path then
        ⟨.removed,left⟩::delta baseline (right::current)
      else if utf8 right.path < utf8 left.path then
        ⟨.added,right⟩::delta (left::baseline) current
      else if left≠right then ⟨.modified,right⟩::delta baseline current
      else delta baseline current
termination_by baseline current => baseline.length+current.length

/-! ## Runs -/

/-- Where a run looks at the token of its program. -/
inductive Point where
  | start
  | walked
  | entry (index : ℕ)
  | identified

section
variable (hash : Bytes → Digest) (workspace : NativeWorkspace) (disk : Disk)

def Scope.options (scope : Scope) : WalkOptions :=
  ⟨scope.depth,scope.flags &&& snapshotFlags≠0,maxSnapshotEntries⟩

def collectEntries (options : WalkOptions) (roots : List ResolvedPath) :
    Except OperationError (List NativeEntry) :=
  roots.foldlM (fun entries root => do
    let batch ← liftPlatform (workspace.walk disk root options)
    require ((entries++batch).length ≤ maxSnapshotEntries) .workLimit
    return entries++batch) []

/-- The bytes of all files, none of which is too large. -/
def initialBytes (entries : List NativeEntry) : Except OperationError ℕ :=
  entries.foldlM (fun total entry =>
    if entry.kind≠.file then .ok total
    else do
      require (entry.size ≤ maxSnapshotFileBytes) .workLimit
      return total+entry.size) 0

def checkCancelled (cancelled : Bool) : Except OperationError Unit :=
  require (cancelled=false) .cancelled

/-- The manifest of a scope and its text. -/
def capture (cancelled : Point → Bool) (scope : Scope) :
    Except OperationError (Manifest × Bytes) := do
  let roots ← liftPlatform (scope.paths.mapM (workspace.resolveExisting disk))
  let found ← collectEntries workspace disk scope.options roots
  let native := sortEntries found
  let bytes ← initialBytes native
  require (bytes ≤ maxSnapshotTotalBytes) .workLimit
  checkCancelled (cancelled .walked)
  let entries ← native.zipIdx.mapM fun (entry,index) =>
    identifyEntry hash workspace disk (cancelled (.entry index)) entry
  checkCancelled (cancelled .identified)
  require (entries.all (fun entry => scopeCovers scope entry.path)=true) .invalidSnapshot
  let encoded ← encodeManifest ⟨scope,entries⟩
  require (encoded.length ≤ maxSnapshotManifestBytes) .workLimit
  return (⟨scope,entries⟩,encoded)

def readBaseline (retained : UInt64 → Except StoreError Bytes) (reference : UInt64) :
    Fallible OperationError Manifest := do
  let bytes ← (retained reference).mapError fun error => .error (.store error)
  require (bytes.length ≤ maxSnapshotManifestBytes) (.error .invalidSnapshot)
  decodeManifest bytes

def optionalBaseline (retained : UInt64 → Except StoreError Bytes) :
    Option UInt64 → Fallible OperationError (Option Manifest)
  | some reference => some <$> readBaseline retained reference
  | none => .ok none

/-- What a run retains and tells. -/
structure SnapshotRun where
  manifest : Manifest
  retained : Bytes
  changes : List Change

def argumentScope (arguments : SnapshotArgs) : Scope :=
  ⟨arguments.paths,arguments.depth,arguments.flags⟩

def changesSince (mode : SnapshotMode) (baseline : Option Manifest) (manifest : Manifest) :
    Fallible OperationError (List Change) :=
  match mode with
  | .capture => .ok (manifest.entries.map (Change.mk .present))
  | .delta =>
      match baseline with
      | some baseline => .ok (delta baseline.entries manifest.entries)
      | none => .fail .invalidSnapshot

/-- A run up to what it tells; `retained` is the store at its start. -/
def execute (cancelled : Point → Bool) (retained : UInt64 → Except StoreError Bytes)
    (arguments : SnapshotArgs) : Fallible OperationError SnapshotRun := do
  (checkCancelled (cancelled .start)).mapError .error
  let baseline ← optionalBaseline retained arguments.baseline
  require (∀ found∈baseline, found.scope=argumentScope arguments) (.error .invalidSnapshot)
  let captured ← (capture hash workspace disk cancelled (argumentScope arguments)).mapError .error
  let changes ← changesSince arguments.mode baseline captured.1
  return ⟨captured.1,captured.2,changes⟩

end

end Ash.Snapshots
