import Ash.DependencyGraphs
import Ash.RequestValues

/-! # Arguments of requests

The arguments of each operation, the checks they pass, and how they are read from and
written to values of a document. -/

namespace Ash.RequestArguments
open ByteCodecs TextSlices AsonDocuments ParserOutcomes Outcomes RequestValues DependencyGraphs

/-! ## Schemas -/

def execColumns : List Text := [['x'],['v'],['c'],['e'],['i','n'],['f']]
def readColumns : List Text := [['p'],['m'],['o'],['n']]
def listColumns : List Text := [['p'],['d'],['f']]
def searchColumns : List Text := [['q'],['p'],['f']]
def patchColumns : List Text := [['p'],['h'],['i'],['o'],['n'],['v'],['f']]
def fsColumns : List Text := [['i'],['k'],['p'],['q'],['h'],['v']]
def snapshotColumns : List Text := [['p'],['d'],['m'],['r'],['f']]
def cancelColumns : List Text := [['i']]
def batchColumns : List Text := [['i'],['d'],['o'],['a']]

def maxArgumentItems : ℕ := 1024
def maxBatchNodes : ℕ := 256
def maxBatchEdges : ℕ := 4096
def maxFsActions : ℕ := 256
def maxRefBytes : ℕ := 128*1024*1024
def maxRefLines : ℕ := 1000000
def maxPatchInlineBytes : ℕ := 8*1024*1024
/-- The ceiling of a text item, and of the arguments of a batch node. -/
def maxTextBytes : ℕ := 1024*1024

def execFlags : UInt32 := 1
def listFilesOnly : UInt32 := 2
def listDirectoriesOnly : UInt32 := 4
def listFlags : UInt32 := 1 ||| listFilesOnly ||| listDirectoriesOnly
def searchFlags : UInt32 := 1 ||| 2 ||| 4
def refSearchFlags : UInt32 := 1 ||| 2
def patchFlags : UInt32 := 0
def snapshotFlags : UInt32 := 1

/-- A value that passed its check. -/
def validated {α : Type} (validate : α → Checked Unit) (a : α) : Checked α := do
  validate a
  return a

/-- A record with the columns of a schema. -/
def readRecord {α : Type} (columns : List Text) (decode : List Cell → Checked α)
    (record : Record) : Checked α := do
  expectColumns record.columns columns
  decode record.values

/-- A table with the columns of a schema. -/
def readTable {α : Type} (columns : List Text) (decode : List (List Cell) → Checked α)
    (table : Table) : Checked α := do
  expectColumns table.columns columns
  decode table.rows

/-! ## Exec -/

inductive InputSource where
  | none
  | inline (value : Text)
  | reference (id : UInt64)
  deriving DecidableEq

def InputSource.decode : Cell → Checked InputSource
  | .atom .null => .ok .none
  | .atom (.text value) => .ok (.inline value)
  | .atom (.reference id) => .ok (.reference id)
  | .vector _ => .fail (.expectedScalar "in")

def InputSource.encode : InputSource → Cell
  | .none => nullValue
  | .inline value => textValue value
  | .reference id => .atom (.reference id)

def InputSource.validate : InputSource → Checked Unit
  | .inline value => validateBoundedText value "in" maxTextBytes
  | .reference id => require (id≠0) (.error (.invalidUnsigned "in"))
  | .none => .ok ()

structure ExecArgs where
  executable : Text
  argv : List Text
  cwd : Text
  environment : List Text
  stdin : InputSource
  flags : UInt32
  deriving DecidableEq

def ExecArgs.validate (arguments : ExecArgs) : Checked Unit := do
  validateText arguments.executable "x" 4096
  validateText arguments.cwd "c" 4096
  validateTextItems arguments.argv "v" maxArgumentItems maxTextBytes
  validateEnvironment arguments.environment
  arguments.stdin.validate
  validateFlags arguments.flags execFlags

def ExecArgs.new (executable : Text) (argv : List Text) (cwd : Text) (environment : List Text)
    (stdin : InputSource) (flags : UInt32) : Checked ExecArgs :=
  validated ExecArgs.validate ⟨executable,argv,cwd,environment,stdin,flags⟩

def ExecArgs.decodeCells : List Cell → Checked ExecArgs
  | [executable,argv,cwd,environment,stdin,flags] => do
      let executable ← textCell executable "x"
      let argv ← textVector argv "v"
      let cwd ← textCell cwd "c"
      let environment ← textVector environment "e"
      let stdin ← InputSource.decode stdin
      let flags ← unsignedCell flags "f"
      let flags ← narrowU32 flags "f"
      ExecArgs.new executable argv cwd environment stdin flags
  | _ => .error .panic

def ExecArgs.decode : Record → Checked ExecArgs := readRecord execColumns decodeCells

def ExecArgs.cells (arguments : ExecArgs) : List Cell :=
  [textValue arguments.executable,textVectorValue arguments.argv,textValue arguments.cwd,
    textVectorValue arguments.environment,arguments.stdin.encode,
    unsignedValue arguments.flags.toUInt64]

def ExecArgs.encode (arguments : ExecArgs) : Except BuildError Value :=
  recordValue execColumns arguments.cells

/-! ## Read, list and search -/

inductive ReadMode where
  | bytes
  | lines
  deriving DecidableEq

def ReadMode.decode (value : UInt64) : Checked ReadMode :=
  if value=0 then .ok .bytes
  else if value=1 then .ok .lines
  else .fail (.unexpectedValue "m")

def ReadMode.encode : ReadMode → UInt64
  | .bytes => 0
  | .lines => 1

structure ReadArgs where
  paths : List Text
  mode : ReadMode
  offset : UInt64
  length : UInt64
  deriving DecidableEq

def ReadArgs.validate (arguments : ReadArgs) : Checked Unit := do
  validatePaths arguments.paths
  require (arguments.length≠0) (.error (.invalidLimit "n"))
  require (¬ (arguments.mode=.lines ∧ arguments.offset=0)) (.error (.invalidLimit "o"))

def ReadArgs.new (paths : List Text) (mode : ReadMode) (offset length : UInt64) :
    Checked ReadArgs :=
  validated ReadArgs.validate ⟨paths,mode,offset,length⟩

def ReadArgs.decodeCells : List Cell → Checked ReadArgs
  | [paths,mode,offset,length] => do
      let mode ← unsignedCell mode "m"
      let mode ← ReadMode.decode mode
      let paths ← textVector paths "p"
      let offset ← unsignedCell offset "o"
      let length ← unsignedCell length "n"
      ReadArgs.new paths mode offset length
  | _ => .error .panic

def ReadArgs.decode : Record → Checked ReadArgs := readRecord readColumns decodeCells

def ReadArgs.cells (arguments : ReadArgs) : List Cell :=
  [textVectorValue arguments.paths,unsignedValue arguments.mode.encode,
    unsignedValue arguments.offset,unsignedValue arguments.length]

def ReadArgs.encode (arguments : ReadArgs) : Except BuildError Value :=
  recordValue readColumns arguments.cells

structure ListArgs where
  paths : List Text
  depth : UInt16
  flags : UInt32
  deriving DecidableEq

def ListArgs.validate (arguments : ListArgs) : Checked Unit := do
  validatePaths arguments.paths
  require (arguments.depth ≤ 64) (.error (.invalidLimit "d"))
  validateFlags arguments.flags listFlags
  require (¬ (arguments.flags &&& listFilesOnly≠0 ∧ arguments.flags &&& listDirectoriesOnly≠0))
    (.error (.unexpectedValue "f"))

def ListArgs.new (paths : List Text) (depth : UInt16) (flags : UInt32) : Checked ListArgs :=
  validated ListArgs.validate ⟨paths,depth,flags⟩

def ListArgs.decodeCells : List Cell → Checked ListArgs
  | [paths,depth,flags] => do
      let paths ← textVector paths "p"
      let depth ← unsignedCell depth "d"
      let depth ← narrowU16 depth "d"
      let flags ← unsignedCell flags "f"
      let flags ← narrowU32 flags "f"
      ListArgs.new paths depth flags
  | _ => .error .panic

def ListArgs.decode : Record → Checked ListArgs := readRecord listColumns decodeCells

def ListArgs.cells (arguments : ListArgs) : List Cell :=
  [textVectorValue arguments.paths,unsignedValue arguments.depth.toUInt64,
    unsignedValue arguments.flags.toUInt64]

def ListArgs.encode (arguments : ListArgs) : Except BuildError Value :=
  recordValue listColumns arguments.cells

structure SearchArgs where
  query : Text
  paths : List Text
  flags : UInt32
  deriving DecidableEq

def SearchArgs.validate (arguments : SearchArgs) : Checked Unit := do
  validateText arguments.query "q" maxTextBytes
  validatePaths arguments.paths
  validateFlags arguments.flags searchFlags

def SearchArgs.new (query : Text) (paths : List Text) (flags : UInt32) : Checked SearchArgs :=
  validated SearchArgs.validate ⟨query,paths,flags⟩

def SearchArgs.decodeCells : List Cell → Checked SearchArgs
  | [query,paths,flags] => do
      let query ← textCell query "q"
      let paths ← textVector paths "p"
      let flags ← unsignedCell flags "f"
      let flags ← narrowU32 flags "f"
      SearchArgs.new query paths flags
  | _ => .error .panic

def SearchArgs.decode : Record → Checked SearchArgs := readRecord searchColumns decodeCells

def SearchArgs.cells (arguments : SearchArgs) : List Cell :=
  [textValue arguments.query,textVectorValue arguments.paths,unsignedValue arguments.flags.toUInt64]

def SearchArgs.encode (arguments : SearchArgs) : Except BuildError Value :=
  recordValue searchColumns arguments.cells

/-! ## Patch -/

inductive PatchContent where
  | inline (value : Text)
  | reference (id : UInt64)
  deriving DecidableEq

def PatchContent.decode : Atom → Checked PatchContent
  | .text value => .ok (.inline value)
  | .reference id => if id≠0 then .ok (.reference id) else .fail (.invalidText "v")
  | .null => .fail (.invalidText "v")

def PatchContent.encode : PatchContent → Atom
  | .inline value => .text value
  | .reference id => .reference id

def PatchContent.validate : PatchContent → Checked Unit
  | .inline value => validateBoundedText value "v" maxTextBytes
  | .reference id => require (id≠0) (.error (.invalidUnsigned "v"))

/-- The bytes that a content brings along. -/
def PatchContent.inlineBytes : PatchContent → ℕ
  | .inline value => byteLength value
  | .reference _ => 0

structure PatchEdit where
  fileIndex : UInt16
  offset : UInt64
  deleteLength : UInt64
  replacement : PatchContent
  deriving DecidableEq

/-- The end of an edit is a 64-bit number. -/
def PatchEdit.checkEnd (edit : PatchEdit) : Checked Unit :=
  require (edit.offset.toNat+edit.deleteLength.toNat < 2 ^ 64) (.error (.integerRange "n"))

def PatchEdit.new (fileIndex : UInt16) (offset deleteLength : UInt64)
    (replacement : PatchContent) : Checked PatchEdit :=
  validated (fun edit => do
    edit.replacement.validate
    edit.checkEnd) ⟨fileIndex,offset,deleteLength,replacement⟩

structure PatchArgs where
  paths : List Text
  expectedDigests : List Text
  edits : List PatchEdit
  flags : UInt32
  deriving DecidableEq

/-- Bytewise order of two texts. -/
def textLt (left right : Text) : Bool := decide (utf8 left < utf8 right)

/-- An edit may not start before the end of the one before it in the same file. -/
def PatchEdit.follows (edit previous : PatchEdit) : Bool :=
  !(edit.fileIndex < previous.fileIndex ||
    (edit.fileIndex == previous.fileIndex && (edit.offset ≤ previous.offset ||
      decide (edit.offset.toNat <
        min (previous.offset.toNat+previous.deleteLength.toNat) (2 ^ 64 - 1)))))

/-- The files that edits name and the bytes that they bring along. -/
def PatchArgs.editsLoop : List PatchEdit → List Bool → ℕ → Option PatchEdit →
    Checked (List Bool × ℕ)
  | [], seen, inlineBytes, _ => .ok (seen,inlineBytes)
  | edit::edits, seen, inlineBytes, previous => do
      edit.replacement.validate
      require (edit.fileIndex.toNat < seen.length) (.error (.unexpectedValue "i"))
      edit.checkEnd
      require (previous.all edit.follows=true) (.error (.unexpectedValue "o"))
      editsLoop edits (seen.set edit.fileIndex.toNat true)
        (inlineBytes+edit.replacement.inlineBytes) (some edit)

def PatchArgs.validate (arguments : PatchArgs) : Checked Unit := do
  validatePaths arguments.paths
  require (ascending textLt arguments.paths=true) (.error (.unexpectedValue "p"))
  require (arguments.expectedDigests.length=arguments.paths.length ∧
    arguments.expectedDigests.all validDigest=true) (.error (.invalidText "h"))
  require (arguments.edits≠[] ∧ arguments.edits.length ≤ maxArgumentItems)
    (.error (.invalidLimit "i"))
  let (seen,inlineBytes) ←
    editsLoop arguments.edits (List.replicate arguments.paths.length false) 0 none
  require (seen.all id=true) (.error (.invalidLimit "i"))
  require (inlineBytes ≤ maxPatchInlineBytes) (.error (.invalidLimit "v"))
  validateFlags arguments.flags patchFlags

def PatchArgs.new (paths expectedDigests : List Text) (edits : List PatchEdit) (flags : UInt32) :
    Checked PatchArgs :=
  validated PatchArgs.validate ⟨paths,expectedDigests,edits,flags⟩

/-- The edit that stands at one position of the four vectors. -/
def PatchEdit.decode : ((UInt64 × UInt64) × UInt64) × Atom → Checked PatchEdit
  | (((fileIndex,offset),deleteLength),replacement) => do
      let fileIndex ← narrowU16 fileIndex "i"
      let replacement ← PatchContent.decode replacement
      PatchEdit.new fileIndex offset deleteLength replacement

def PatchArgs.decodeCells : List Cell → Checked PatchArgs
  | [paths,expectedDigests,fileIndices,offsets,deleteLengths,replacements,flags] => do
      let paths ← textVector paths "p"
      let expectedDigests ← textVector expectedDigests "h"
      let fileIndices ← unsignedVector fileIndices "i"
      let offsets ← unsignedVector offsets "o"
      let deleteLengths ← unsignedVector deleteLengths "n"
      let replacements ← atomVector replacements "v"
      require (offsets.length=fileIndices.length ∧ deleteLengths.length=fileIndices.length ∧
        replacements.length=fileIndices.length) (.error (.invalidLimit "i"))
      let edits ← (((fileIndices.zip offsets).zip deleteLengths).zip replacements).mapM
        PatchEdit.decode
      let flags ← unsignedCell flags "f"
      let flags ← narrowU32 flags "f"
      PatchArgs.new paths expectedDigests edits flags
  | _ => .error .panic

def PatchArgs.decode : Record → Checked PatchArgs := readRecord patchColumns decodeCells

def PatchArgs.cells (arguments : PatchArgs) : List Cell :=
  [textVectorValue arguments.paths,textVectorValue arguments.expectedDigests,
    unsignedVectorValue (arguments.edits.map fun edit => edit.fileIndex.toUInt64),
    unsignedVectorValue (arguments.edits.map PatchEdit.offset),
    unsignedVectorValue (arguments.edits.map PatchEdit.deleteLength),
    .vector (arguments.edits.map fun edit => edit.replacement.encode),
    unsignedValue arguments.flags.toUInt64]

def PatchArgs.encode (arguments : PatchArgs) : Except BuildError Value :=
  recordValue patchColumns arguments.cells

/-! ## File transactions -/

inductive FsActionKind where
  | create
  | copy
  | move
  | remove
  deriving DecidableEq

def FsActionKind.decode (value : UInt64) : Checked FsActionKind :=
  if value=0 then .ok .create
  else if value=1 then .ok .copy
  else if value=2 then .ok .move
  else if value=3 then .ok .remove
  else .fail (.unexpectedValue "k")

def FsActionKind.encode : FsActionKind → UInt64
  | .create => 0
  | .copy => 1
  | .move => 2
  | .remove => 3

structure FsAction where
  id : UInt64
  kind : FsActionKind
  path : Text
  destination : Option Text
  expectedDigest : Option Text
  content : Option PatchContent
  deriving DecidableEq

/-- A check of a part that may be missing. -/
def ifPresent {α : Type} (check : α → Checked Unit) : Option α → Checked Unit
  | none => .ok ()
  | some a => check a

def FsAction.shapeIsValid (action : FsAction) : Bool :=
  match action.kind with
  | .create =>
      action.destination.isNone && action.expectedDigest.isNone && action.content.isSome
  | .copy | .move =>
      action.destination.isSome && action.expectedDigest.isSome && action.content.isNone
  | .remove =>
      action.destination.isNone && action.expectedDigest.isSome && action.content.isNone

def FsAction.validate (action : FsAction) : Checked Unit := do
  require (action.id≠0) (.error (.invalidUnsigned "i"))
  validateText action.path "p" 4096
  ifPresent (fun destination => do
    validateText destination "q" 4096
    require (destination≠action.path) (.error (.unexpectedValue "q"))) action.destination
  ifPresent (fun digest => require (validDigest digest=true) (.error (.invalidText "h")))
    action.expectedDigest
  ifPresent PatchContent.validate action.content
  require (action.shapeIsValid=true) (.error (.unexpectedValue "k"))

def FsAction.new (id : UInt64) (kind : FsActionKind) (path : Text)
    (destination expectedDigest : Option Text) (content : Option PatchContent) :
    Checked FsAction :=
  validated FsAction.validate ⟨id,kind,path,destination,expectedDigest,content⟩

def FsAction.decodeContent : Cell → Checked (Option PatchContent)
  | .atom .null => .ok none
  | .atom atom => some <$> PatchContent.decode atom
  | .vector _ => .fail (.expectedScalar "v")

def FsAction.decode : List Cell → Checked FsAction
  | [id,kind,path,destination,expectedDigest,content] => do
      let content ← decodeContent content
      let id ← unsignedCell id "i"
      let kind ← unsignedCell kind "k"
      let kind ← FsActionKind.decode kind
      let path ← textCell path "p"
      let destination ← optionalTextCell destination "q"
      let expectedDigest ← optionalTextCell expectedDigest "h"
      FsAction.new id kind path destination expectedDigest content
  | _ => .error .panic

def FsAction.encode (action : FsAction) : List Cell :=
  [unsignedValue action.id,unsignedValue action.kind.encode,textValue action.path,
    optionalTextValue action.destination,optionalTextValue action.expectedDigest,
    action.content.elim nullValue fun content => .atom content.encode]

structure FsArgs where
  actions : List FsAction
  deriving DecidableEq

/-- The paths that actions name, each once, and the bytes that they bring along. -/
def FsArgs.actionsLoop : List FsAction → List Text → ℕ → Checked ℕ
  | [], _, inlineBytes => .ok inlineBytes
  | action::actions, paths, inlineBytes => do
      action.validate
      require (action.path∉paths ∧
        ∀ destination∈action.destination, destination∉action.path::paths)
        (.error (.unexpectedValue "p"))
      actionsLoop actions (action.destination.toList++action.path::paths)
        (inlineBytes+(action.content.map PatchContent.inlineBytes).getD 0)

def FsArgs.validate (arguments : FsArgs) : Checked Unit := do
  require (arguments.actions≠[] ∧ arguments.actions.length ≤ maxFsActions)
    (.error (.invalidLimit "a"))
  require (ascending (fun left right => decide (left.id < right.id)) arguments.actions=true)
    (.error (.unexpectedValue "i"))
  let inlineBytes ← actionsLoop arguments.actions [] 0
  require (inlineBytes ≤ maxPatchInlineBytes) (.error (.invalidLimit "v"))

def FsArgs.new (actions : List FsAction) : Checked FsArgs := validated FsArgs.validate ⟨actions⟩

def FsArgs.decode : Table → Checked FsArgs :=
  readTable fsColumns fun rows => do
    let actions ← rows.mapM FsAction.decode
    FsArgs.new actions

def FsArgs.encode (arguments : FsArgs) : Except BuildError Value :=
  tableValue fsColumns (arguments.actions.map FsAction.encode)

/-! ## Snapshots and cancellation -/

inductive SnapshotMode where
  | capture
  | delta
  deriving DecidableEq

def SnapshotMode.decode (value : UInt64) : Checked SnapshotMode :=
  if value=0 then .ok .capture
  else if value=1 then .ok .delta
  else .fail (.unexpectedValue "m")

def SnapshotMode.encode : SnapshotMode → UInt64
  | .capture => 0
  | .delta => 1

/-- A capture starts afresh and a delta from a baseline. -/
def SnapshotMode.checkBaseline : SnapshotMode → Option UInt64 → Checked Unit
  | .capture, none => .ok ()
  | .delta, some baseline => require (baseline≠0) (.error (.unexpectedValue "r"))
  | .capture, some _ | .delta, none => .fail (.unexpectedValue "r")

structure SnapshotArgs where
  paths : List Text
  depth : UInt16
  mode : SnapshotMode
  baseline : Option UInt64
  flags : UInt32
  deriving DecidableEq

def SnapshotArgs.validate (arguments : SnapshotArgs) : Checked Unit := do
  validatePaths arguments.paths
  require (ascending textLt arguments.paths=true) (.error (.unexpectedValue "p"))
  require (arguments.depth ≤ 64) (.error (.invalidLimit "d"))
  arguments.mode.checkBaseline arguments.baseline
  validateFlags arguments.flags snapshotFlags

def SnapshotArgs.new (paths : List Text) (depth : UInt16) (mode : SnapshotMode)
    (baseline : Option UInt64) (flags : UInt32) : Checked SnapshotArgs :=
  validated SnapshotArgs.validate ⟨paths,depth,mode,baseline,flags⟩

def SnapshotArgs.decodeCells : List Cell → Checked SnapshotArgs
  | [paths,depth,mode,baseline,flags] => do
      let mode ← unsignedCell mode "m"
      let mode ← SnapshotMode.decode mode
      let paths ← textVector paths "p"
      let depth ← unsignedCell depth "d"
      let depth ← narrowU16 depth "d"
      let baseline ← optionalReferenceCell baseline "r"
      let flags ← unsignedCell flags "f"
      let flags ← narrowU32 flags "f"
      SnapshotArgs.new paths depth mode baseline flags
  | _ => .error .panic

def SnapshotArgs.decode : Record → Checked SnapshotArgs := readRecord snapshotColumns decodeCells

def SnapshotArgs.cells (arguments : SnapshotArgs) : List Cell :=
  [textVectorValue arguments.paths,unsignedValue arguments.depth.toUInt64,
    unsignedValue arguments.mode.encode,optionalReferenceValue arguments.baseline,
    unsignedValue arguments.flags.toUInt64]

def SnapshotArgs.encode (arguments : SnapshotArgs) : Except BuildError Value :=
  recordValue snapshotColumns arguments.cells

structure CancelArgs where
  targetId : UInt64
  deriving DecidableEq

def CancelArgs.validate (arguments : CancelArgs) : Checked Unit :=
  require (arguments.targetId≠0) (.error (.invalidUnsigned "i"))

def CancelArgs.new (targetId : UInt64) : Checked CancelArgs :=
  validated CancelArgs.validate ⟨targetId⟩

def CancelArgs.decodeCells : List Cell → Checked CancelArgs
  | [targetId] => do
      let targetId ← unsignedCell targetId "i"
      CancelArgs.new targetId
  | _ => .error .panic

def CancelArgs.decode : Record → Checked CancelArgs := readRecord cancelColumns decodeCells

def CancelArgs.cells (arguments : CancelArgs) : List Cell := [unsignedValue arguments.targetId]

def CancelArgs.encode (arguments : CancelArgs) : Except BuildError Value :=
  recordValue cancelColumns arguments.cells

/-! ## References -/

inductive RefFormula where
  | bytes (offset length : UInt64)
  | lines (offset length : UInt64)
  | search (offset length : UInt64) (query : Text) (flags : UInt32)
  | release
  | project (table : Text) (offset length : UInt64) (columns : List Text)
  | materialize (path : Text)
  deriving DecidableEq

def RefFormula.operation : RefFormula → Operation
  | .bytes _ _ => .refBytes
  | .lines _ _ => .refLines
  | .search _ _ _ _ => .refSearch
  | .release => .refRelease
  | .project _ _ _ _ => .refProject
  | .materialize _ => .refMaterialize

/-- A length between one and a ceiling. -/
def validateLength (length : UInt64) (max : ℕ) : Checked Unit :=
  require (length≠0 ∧ length.toNat ≤ max) (.error (.invalidLimit "n"))

def RefFormula.columnsLoop : List Text → List Text → Checked Unit
  | [], _ => .ok ()
  | column::columns, unique => do
      validateText column "c" 128
      require (isValidKey column=true ∧ column∉unique) (.error (.invalidText "c"))
      columnsLoop columns (column::unique)

def RefFormula.validate : RefFormula → Checked Unit
  | .bytes _ length => validateLength length maxRefBytes
  | .lines offset length => do
      require (offset≠0) (.error (.invalidLimit "o"))
      validateLength length maxRefLines
  | .search _ length query flags => do
      validateLength length maxRefBytes
      validateText query "q" maxTextBytes
      validateFlags flags refSearchFlags
  | .release => .ok ()
  | .project table _ length columns => do
      validateLength length maxRefLines
      validateText table "t" 128
      require (isValidKey table=true ∧ columns≠[] ∧ columns.length ≤ 128)
        (.error (.invalidText "c"))
      columnsLoop columns []
  | .materialize path => validateText path "p" 4096

structure RefArgs where
  reference : UInt64
  formula : RefFormula
  deriving DecidableEq

def RefArgs.validate (arguments : RefArgs) : Checked Unit := do
  require (arguments.reference≠0) (.error (.invalidUnsigned "r"))
  arguments.formula.validate

def RefArgs.new (reference : UInt64) (formula : RefFormula) : Checked RefArgs :=
  validated RefArgs.validate ⟨reference,formula⟩

def referenceFormulaAtom : Atom → Checked UInt64
  | .reference id => if id≠0 then .ok id else .fail (.invalidUnsigned "r")
  | .null | .text _ => .fail (.invalidUnsigned "r")

/-- The formula of an operation, from the atoms after the reference. -/
def RefFormula.decode (operation : Operation) (atoms : List Atom) : Checked RefFormula :=
  match operation with
  | .refBytes =>
      match atoms with
      | [offset,length] => do
          let offset ← unsignedAtom offset "o"
          let length ← unsignedAtom length "n"
          return .bytes offset length
      | _ => .fail (.unexpectedValue "a")
  | .refLines =>
      match atoms with
      | [offset,length] => do
          let offset ← unsignedAtom offset "o"
          let length ← unsignedAtom length "n"
          return .lines offset length
      | _ => .fail (.unexpectedValue "a")
  | .refSearch =>
      match atoms with
      | [offset,length,query,flags] => do
          let offset ← unsignedAtom offset "o"
          let length ← unsignedAtom length "n"
          let query ← textItem query "q"
          let flags ← unsignedAtom flags "f"
          let flags ← narrowU32 flags "f"
          return .search offset length query flags
      | _ => .fail (.unexpectedValue "a")
  | .refRelease =>
      match atoms with
      | [] => .ok .release
      | _ => .fail (.unexpectedValue "a")
  | .refProject =>
      match atoms with
      | table::offset::length::column::columns => do
          let table ← textItem table "t"
          let offset ← unsignedAtom offset "o"
          let length ← unsignedAtom length "n"
          let columns ← (column::columns).mapM (textItem · "c")
          return .project table offset length columns
      | _ => .fail (.unexpectedValue "a")
  | .refMaterialize =>
      match atoms with
      | [path] => do
          let path ← textItem path "p"
          return .materialize path
      | _ => .fail (.unexpectedValue "a")
  | _ => .fail .unsupportedOperation

def RefArgs.decode (operation : Operation) (atoms : List Atom) : Checked RefArgs :=
  match atoms with
  | [] => .fail (.unexpectedValue "a")
  | reference::atoms => do
      let reference ← referenceFormulaAtom reference
      let formula ← RefFormula.decode operation atoms
      RefArgs.new reference formula

def RefFormula.atoms : RefFormula → List Atom
  | .bytes offset length | .lines offset length => [unsignedText offset,unsignedText length]
  | .search offset length query flags =>
      [unsignedText offset,unsignedText length,.text query,unsignedText flags.toUInt64]
  | .release => []
  | .project table offset length columns =>
      .text table::unsignedText offset::unsignedText length::columns.map Atom.text
  | .materialize path => [.text path]

def RefArgs.encode (arguments : RefArgs) : Except BuildError Value :=
  .ok (.vector (.reference arguments.reference::arguments.formula.atoms))

/-! ## Arguments and batches -/

/-- A node of a batch. -/
structure BatchNode (α : Type) where
  id : UInt64
  dependencies : List UInt64
  arguments : α

inductive Arguments where
  | exec (arguments : ExecArgs)
  | read (arguments : ReadArgs)
  | list (arguments : ListArgs)
  | search (arguments : SearchArgs)
  | patch (arguments : PatchArgs)
  | fs (arguments : FsArgs)
  | batch (nodes : List (BatchNode Arguments))
  | snapshot (arguments : SnapshotArgs)
  | ref (arguments : RefArgs)
  | cancel (arguments : CancelArgs)

abbrev Node := BatchNode Arguments

def Arguments.operation : Arguments → Operation
  | .exec _ => .exec
  | .read _ => .read
  | .list _ => .list
  | .search _ => .search
  | .patch _ => .patch
  | .fs _ => .fs
  | .batch _ => .batch
  | .snapshot _ => .snapshot
  | .ref arguments => arguments.formula.operation
  | .cancel _ => .cancel

inductive Capability where
  | workspaceRead
  | workspaceWrite
  | hostProcess
  | retainedResult
  deriving DecidableEq

def Capability.mask : Capability → UInt64
  | .workspaceRead => (1 : UInt64) <<< 0
  | .workspaceWrite => (1 : UInt64) <<< 1
  | .hostProcess => (1 : UInt64) <<< 2
  | .retainedResult => (1 : UInt64) <<< 3

mutual

def Arguments.requiredCapabilities : Arguments → UInt64
  | .exec _ => Capability.hostProcess.mask
  | .read _ | .list _ | .search _ | .snapshot _ => Capability.workspaceRead.mask
  | .patch _ | .fs _ => Capability.workspaceWrite.mask
  | .batch nodes => capabilitiesLoop nodes 0
  | .ref arguments => Capability.retainedResult.mask ||| match arguments.formula with
      | .materialize _ => Capability.workspaceWrite.mask
      | _ => 0
  | .cancel _ => 0

def capabilitiesLoop : List (BatchNode Arguments) → UInt64 → UInt64
  | [], mask => mask
  | node::nodes, mask =>
      capabilitiesLoop nodes (mask ||| node.arguments.requiredCapabilities)

end

/-- Operations that a batch may not hold. -/
def Operation.outsideBatch (operation : Operation) : Bool :=
  operation == .batch || operation == .cancel

/-- The position of a node in the table.  The identifiers are in order, so there is one. -/
def position (ids : List UInt64) (id : UInt64) : Checked ℕ :=
  match ids.idxOf? id with
  | some index => .ok index
  | none => .fail (.unexpectedValue "d")

/-- The table has nodes, not too many, in the order of their identifiers. -/
def BatchArgs.checkTable (nodes : List Node) : Checked Unit := do
  require (nodes≠[] ∧ nodes.length ≤ maxBatchNodes) (.error (.invalidLimit "a"))
  require (ascending (fun left right => decide (left.id < right.id)) nodes=true)
    (.error (.unexpectedValue "i"))

/-- Every node comes up when the nodes without open dependencies are taken first. -/
def BatchArgs.checkOrder (links : List (List ℕ)) : Checked Unit := do
  let visited ← countOrdered links
  require (visited=links.length) (.error (.unexpectedValue "d"))

/-- The checks of a node before those of its arguments. -/
def BatchNode.checkNode (node : Node) : Checked Unit := do
  require (node.id≠0) (.error (.invalidUnsigned "i"))
  require (node.dependencies.length ≤ maxBatchEdges ∧
    ascending (fun left right => decide (left < right)) node.dependencies=true ∧
    node.dependencies.any (fun dependency => dependency == 0 || dependency == node.id)=false)
    (.error (.unexpectedValue "d"))
  require (Operation.outsideBatch node.arguments.operation=false) (.error .unsupportedOperation)

mutual

def Arguments.validate : Arguments → Checked Unit
  | .exec arguments => arguments.validate
  | .read arguments => arguments.validate
  | .list arguments => arguments.validate
  | .search arguments => arguments.validate
  | .patch arguments => arguments.validate
  | .fs arguments => arguments.validate
  | .batch nodes => do
      BatchArgs.checkTable nodes
      let links ← BatchArgs.nodesLoop (nodes.map BatchNode.id) nodes 0
      BatchArgs.checkOrder links
  | .snapshot arguments => arguments.validate
  | .ref arguments => arguments.validate
  | .cancel arguments => arguments.validate

/-- The positions that the dependencies of each node name. -/
def BatchArgs.nodesLoop (ids : List UInt64) :
    List (BatchNode Arguments) → ℕ → Checked (List (List ℕ))
  | [], _ => .ok []
  | node::nodes, edgeCount => do
      node.checkNode
      node.arguments.validate
      require (edgeCount+node.dependencies.length ≤ maxBatchEdges) (.error (.invalidLimit "d"))
      let link ← node.dependencies.mapM (position ids)
      let links ← BatchArgs.nodesLoop ids nodes (edgeCount+node.dependencies.length)
      return link::links

end

def BatchNode.validate (node : Node) : Checked Unit := do
  node.checkNode
  node.arguments.validate

def BatchNode.new (id : UInt64) (dependencies : List UInt64) (arguments : Arguments) :
    Checked Node :=
  validated BatchNode.validate ⟨id,dependencies,arguments⟩

def BatchArgs.validate (nodes : List Node) : Checked Unit := (Arguments.batch nodes).validate

def BatchArgs.new (nodes : List Node) : Checked (List Node) := validated BatchArgs.validate nodes

/-- A document with one field. -/
def singleDocument (key : Text) (value : Value) : Except BuildError Document := do
  let key ← Key.new key
  Document.new [⟨key,value⟩]

/-- The canonical text of a document with the written arguments as its one field. -/
def payloadOf (arguments : Except BuildError Value) : Except BuildError Text := do
  let value ← arguments
  let document ← singleDocument ['a'] value
  return AsonDocuments.encode document

/-- The row of a node. -/
def BatchNode.cells {α : Type} (node : BatchNode α) (operation : Operation) (payload : Text) :
    List Cell :=
  [unsignedValue node.id,unsignedVectorValue node.dependencies,textValue operation.text,
    textValue payload]

mutual

def Arguments.encode : Arguments → Except BuildError Value
  | .exec arguments => arguments.encode
  | .read arguments => arguments.encode
  | .list arguments => arguments.encode
  | .search arguments => arguments.encode
  | .patch arguments => arguments.encode
  | .fs arguments => arguments.encode
  | .batch nodes => do
      let rows ← BatchArgs.encodeRows nodes
      tableValue batchColumns rows
  | .snapshot arguments => arguments.encode
  | .ref arguments => arguments.encode
  | .cancel arguments => arguments.encode

def BatchArgs.encodeRows : List (BatchNode Arguments) → Except BuildError (List (List Cell))
  | [] => .ok []
  | node::nodes => do
      let payload ← payloadOf node.arguments.encode
      let rows ← BatchArgs.encodeRows nodes
      return node.cells node.arguments.operation payload::rows

end

def BatchNode.encode (node : Node) : Except BuildError (List Cell) := do
  let payload ← payloadOf node.arguments.encode
  return node.cells node.arguments.operation payload

def BatchArgs.encode (nodes : List Node) : Except BuildError Value :=
  (Arguments.batch nodes).encode

def Arguments.decodeRecord (operation : Operation) (record : Record) : Checked Arguments :=
  match operation with
  | .exec => Arguments.exec <$> ExecArgs.decode record
  | .read => Arguments.read <$> ReadArgs.decode record
  | .list => Arguments.list <$> ListArgs.decode record
  | .search => Arguments.search <$> SearchArgs.decode record
  | .patch => Arguments.patch <$> PatchArgs.decode record
  | .snapshot => Arguments.snapshot <$> SnapshotArgs.decode record
  | .cancel => Arguments.cancel <$> CancelArgs.decode record
  | _ => .fail .unsupportedOperation

/-- The arguments of an operation, with the reader of batch tables given. -/
def Arguments.decodeWith (decodeBatch : Table → Checked (List Node)) (operation : Operation)
    (value : Value) : Checked Arguments :=
  if operation.isReferenceFormula then
    match value with
    | .vector atoms => Arguments.ref <$> RefArgs.decode operation atoms
    | _ => .fail (.expectedVector "a")
  else if operation=.fs then
    match value with
    | .table table => Arguments.fs <$> FsArgs.decode table
    | _ => .fail (.expectedTable "a")
  else if operation=.batch then
    match value with
    | .table table => Arguments.batch <$> decodeBatch table
    | _ => .fail (.expectedTable "a")
  else
    match value with
    | .record record => Arguments.decodeRecord operation record
    | _ => .fail (.expectedRecord "a")

/-- The arguments of a batch node.  Its operation is not a batch, so that no batch table is
read again. -/
def Arguments.decodeLeaf : Operation → Value → Checked Arguments :=
  Arguments.decodeWith fun _ => .error .panic

/-- The one field of the document that a payload is the canonical text of. -/
def BatchNode.decodePayload (payload : Text) : Checked Value := do
  validateBoundedText payload "a" maxTextBytes
  match AsonParser.decode payload with
  | .error .panic => .error .panic
  | .error .outOfFuel => .error .outOfFuel
  | .error (.error _) => .fail (.invalidText "a")
  | .ok document => do
      require (AsonDocuments.encode document=payload) (.error (.invalidText "a"))
      expectFields document [['a']]
      match document.get ['a'] with
      | some value => .ok value
      | none => .fail (.invalidText "a")

def BatchNode.decode : List Cell → Checked Node
  | [id,dependencies,operation,payload] => do
      let id ← unsignedCell id "i"
      let dependencies ← unsignedVector dependencies "d"
      let operation ← textCell operation "o"
      let operation ← operationOf operation
      require (Operation.outsideBatch operation=false) (.error .unsupportedOperation)
      let payload ← textCell payload "a"
      let value ← decodePayload payload
      let arguments ← Arguments.decodeLeaf operation value
      BatchNode.new id dependencies arguments
  | _ => .error .panic

def BatchArgs.decode : Table → Checked (List Node) :=
  readTable batchColumns fun rows => do
    let nodes ← rows.mapM BatchNode.decode
    BatchArgs.new nodes

def Arguments.decode : Operation → Value → Checked Arguments :=
  Arguments.decodeWith BatchArgs.decode

end Ash.RequestArguments
