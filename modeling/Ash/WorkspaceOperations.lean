import Ash.ByteCodecs
import Ash.DurablePrograms
import Ash.FileTreeSteps

/-! # The primitives a workspace mutation uses

A workspace is a file tree seen from its canonical root.  Mutations read and change
it through the operations below, one durable step each, and poll a control callback
between them.  No other program writes, so both locks are free when asked for. -/

namespace Ash.WorkspaceOperations
open DurablePrograms FileTrees

export ByteCodecs (Text Bytes)

abbrev Path := List Text
abbrev Tree := FileTree Text UInt8

/-- A BLAKE3 digest. -/
abbrev Digest := {d : Bytes // d.length=32}

/-- The length in bytes of the UTF-8 encoding. -/
def byteLength (text : Text) : ℕ := (text.map Char.utf8Size).sum

inductive PlatformError where
  | invalidLogicalPath
  | workspaceEscape
  | nonUtf8Path
  | invalidMutationTarget
  | reservedPath
  | journalCorrupt
  | recoveryRequired
  | inputTooLarge (size max : ℕ)
  | entryLimit (max : ℕ)
  | io (error : IoError)
  deriving DecidableEq

inductive TransactionControl where
  | continue
  | cancelled
  | timedOut
  deriving DecidableEq

/-- The lock inside the process and the one on the lock file. -/
inductive Lock where
  | mutation
  | file
  deriving DecidableEq

structure Metadata where
  node : Node
  len : ℕ
  deriving DecidableEq

def Metadata.isFile (m : Metadata) : Bool := m.node matches .file _
def Metadata.isDir (m : Metadata) : Bool := m.node=.directory
def Metadata.isSymlink (m : Metadata) : Bool := m.node=.symlink

inductive Operation where
  | poll
  | awaitLock (lock : Lock)
  | symlinkMetadata (path : Path)
  | metadata (path : Path)
  | canonicalize (path : Path)
  | exists (path : Path)
  | isSameFile (left right : Path)
  | openFile (path : Path)
  | read (inode offset count : ℕ)
  | readToEnd (inode : ℕ)
  | openLock (path : Path)
  | createDir (path : Path)
  | setPermissions (path : Path)
  | createNew (path : Path)
  | write (inode : ℕ) (bytes : Bytes)
  | sync (inode : ℕ)
  | syncDirectory (path : Path)
  | hardLink (source target : Path)
  | rename (source target : Path)
  | removeFile (path : Path)
  | removeDirAll (path : Path)
  | replaceFile (path : Path) (bytes : Bytes)
  deriving DecidableEq

/-- What an operation answers. Waiting for a lock answers `continue` once it is held,
and the callback's verdict if the callback ends the wait. -/
@[reducible] def Answer : Operation → Type
  | .poll | .awaitLock _ => TransactionControl
  | .symlinkMetadata _ | .metadata _ => Except IoError Metadata
  | .canonicalize _ => Except IoError Path
  | .exists _ => Bool
  | .isSameFile _ _ => Except IoError Bool
  | .openFile _ | .createNew _ => Except IoError ℕ
  | .read _ _ _ | .readToEnd _ => Except IoError Bytes
  | .openLock _ | .createDir _ | .setPermissions _ | .write _ _ | .sync _
  | .syncDirectory _ | .hardLink _ _ | .rename _ _ | .removeFile _ | .removeDirAll _
  | .replaceFile _ _ => Except IoError Unit

/-- The tree and the answers the control callback still has to give. -/
structure World where
  tree : Tree
  polls : ℕ → TransactionControl

/-- The metadata of a path itself. -/
def stat (t : Tree) (p : Path) : Except IoError Metadata :=
  match t.node p with
  | some (.file i) => .ok ⟨.file i,(t.data i).length⟩
  | some n => .ok ⟨n,0⟩
  | none => .error (t.missing p)

/-- The inode a path names, for reading.  Links are not followed. -/
def inodeOf (t : Tree) (p : Path) : Except IoError ℕ :=
  match t.node p with
  | some (.file i) => .ok i
  | some .directory => .error .isADirectory
  | some .symlink => .error .other
  | none => .error (t.missing p)

def resolve (t : Tree) (p : Path) : Except IoError Path :=
  match t.node p with
  | some .symlink => .error .other
  | some _ => .ok p
  | none => .error (t.missing p)

/-- Open the lock file, creating it if it is not there. -/
def openOrCreate (t : Tree) (p : Path) : Except IoError Tree :=
  match t.node p with
  | none => (t.createNew p).map Prod.snd
  | some (.file _) => .ok t
  | some .directory => .error .isADirectory
  | some .symlink => .error .other

/-- Answer a change of the tree, keeping the tree when it fails. -/
def change (t : Tree) (r : Except IoError Tree) : Except IoError Unit × Tree :=
  match r with
  | .ok t' => (.ok (),t')
  | .error e => (.error e,t)

/-- What an operation answers and leaves; the callback, asked nothing, says `continue`. -/
def act : (op : Operation) → Tree → Answer op × Tree
  | .poll, t | .awaitLock _, t => (.continue,t)
  | .symlinkMetadata p, t => (stat t p,t)
  | .metadata p, t =>
      (match t.node p with | some .symlink => .error .other | _ => stat t p,t)
  | .canonicalize p, t => (resolve t p,t)
  | .exists p, t => (t.node p != none && t.node p != some .symlink,t)
  | .isSameFile p q, t => (do return (← inodeOf t p) == (← inodeOf t q),t)
  | .openFile p, t => (inodeOf t p,t)
  | .read i offset count, t => (.ok (((t.data i).drop offset).take count),t)
  | .readToEnd i, t => (.ok (t.data i),t)
  | .openLock p, t => change t (openOrCreate t p)
  | .createDir p, t => change t (t.createDir p)
  | .setPermissions p, t => ((stat t p).map fun _ => (),t)
  | .createNew p, t =>
      match t.createNew p with
      | .ok (i,t') => (.ok i,t')
      | .error e => (.error e,t)
  | .write i bytes, t => (.ok (),t.write i bytes)
  | .sync _, t => (.ok (),t)
  | .syncDirectory p, t => ((resolve t p).map fun _ => (),t)
  | .hardLink p q, t => change t (t.hardLink p q)
  | .rename p q, t => change t (t.rename p q)
  | .removeFile p, t => change t (t.removeFile p)
  | .removeDirAll p, t => change t (t.removeDirAll p)
  | .replaceFile p bytes, t => change t (t.replaceFile p bytes)

def exec : (op : Operation) → World → Answer op × World
  | .poll, w => (w.polls 0,{ w with polls := fun n => w.polls (n+1) })
  | op, w => ((act op w.tree).1,{ w with tree := (act op w.tree).2 })

/-- The workspace with every operation a single durable step. -/
def machine : Machine Operation Answer World := ⟨exec⟩

/-- A program over the workspace. -/
abbrev Act (ε α : Type) := Prog Operation Answer ε α

/-! ## Calls

Each call fails with the I/O error the operating system reports. -/

def askControl {ε : Type} : Act ε TransactionControl := .call .poll fun r => .done (.ok r)

def awaitLock {ε : Type} (lock : Lock) : Act ε TransactionControl :=
  .call (.awaitLock lock) fun r => .done (.ok r)

def symlinkMetadata (p : Path) : Act PlatformError Metadata :=
  .call (.symlinkMetadata p) fun r => .done (r.mapError .io)

def metadata (p : Path) : Act PlatformError Metadata :=
  .call (.metadata p) fun r => .done (r.mapError .io)

def canonicalize (p : Path) : Act PlatformError Path :=
  .call (.canonicalize p) fun r => .done (r.mapError .io)

def pathExists (p : Path) : Act PlatformError Bool := .call (.exists p) fun r => .done (.ok r)

def isSameFile (p q : Path) : Act PlatformError Bool :=
  .call (.isSameFile p q) fun r => .done (r.mapError .io)

def openFile (p : Path) : Act PlatformError ℕ :=
  .call (.openFile p) fun r => .done (r.mapError .io)

def readAt (i offset count : ℕ) : Act PlatformError Bytes :=
  .call (.read i offset count) fun r => .done (r.mapError .io)

def readToEnd (i : ℕ) : Act PlatformError Bytes :=
  .call (.readToEnd i) fun r => .done (r.mapError .io)

def openLock (p : Path) : Act PlatformError Unit :=
  .call (.openLock p) fun r => .done (r.mapError .io)

def createDir (p : Path) : Act PlatformError Unit :=
  .call (.createDir p) fun r => .done (r.mapError .io)

def setPermissions (p : Path) : Act PlatformError Unit :=
  .call (.setPermissions p) fun r => .done (r.mapError .io)

def createNew (p : Path) : Act PlatformError ℕ :=
  .call (.createNew p) fun r => .done (r.mapError .io)

def writeAll (i : ℕ) (bytes : Bytes) : Act PlatformError Unit :=
  .call (.write i bytes) fun r => .done (r.mapError .io)

def syncAll (i : ℕ) : Act PlatformError Unit := .call (.sync i) fun r => .done (r.mapError .io)

def syncDirectory (p : Path) : Act PlatformError Unit :=
  .call (.syncDirectory p) fun r => .done (r.mapError .io)

def hardLink (p q : Path) : Act PlatformError Unit :=
  .call (.hardLink p q) fun r => .done (r.mapError .io)

def rename (p q : Path) : Act PlatformError Unit :=
  .call (.rename p q) fun r => .done (r.mapError .io)

def removeFile (p : Path) : Act PlatformError Unit :=
  .call (.removeFile p) fun r => .done (r.mapError .io)

def removeDirAll (p : Path) : Act PlatformError Unit :=
  .call (.removeDirAll p) fun r => .done (r.mapError .io)

def replaceFile (p : Path) (bytes : Bytes) : Act PlatformError Unit :=
  .call (.replaceFile p bytes) fun r => .done (r.mapError .io)

end Ash.WorkspaceOperations
