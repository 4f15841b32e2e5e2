import Ash.ByteCodecs
import Ash.DurablePrograms
import Ash.FileTrees

/-! # Installing, rolling back and recovering releases

A Unix installation is a receipt, a state file, a journal, an `active` link and a
directory for each version.  Each write of a JSON file, the rename of the link and the
removal of the journal is one durable step.  The install lock is held throughout. -/

namespace Ash.UpdateInstallation
open DurablePrograms ByteCodecs
open FileTrees (IoError)

inductive UpdateError where
  | version
  | rollbackDenied
  | sequenceRollback
  | target
  | package
  | installation
  | pendingUpdate
  | health
  | noRollback
  | activation
  | io (error : IoError)
  deriving DecidableEq

inductive ActivationOutcome where
  | current (version : Text)
  | activated (version : Text)
  deriving DecidableEq

inductive RecoveryOutcome where
  | clean
  | finalized (version : Text)
  | rolledBack (version : Text)
  deriving DecidableEq

/-! ## What is on disk -/

structure InstallReceipt where
  schema : ℕ
  repository : Text
  version : Text
  target : Text
  installPrefix : Text
  launcher : Text
  pathAdded : Bool
  profile : Option Text
  deriving DecidableEq

structure UpdateState where
  schema : ℕ
  active : Text
  previous : Option Text
  highestSequence : ℕ
  highestManifestSha256 : Option Text
  deriving DecidableEq

structure UpdateJournal where
  schema : ℕ
  target : Text
  oldVersion : Text
  newVersion : Text
  sequence : ℕ
  manifestSha256 : Text
  priorPrevious : Option Text
  priorHighestSequence : ℕ
  priorManifestSha256 : Option Text
  deriving DecidableEq

/-- A JSON file as its reader finds it. -/
inductive JsonFile (α : Type) where
  | missing
  | malformed
  | value (a : α)
  deriving DecidableEq

/-- The size and the digest of a binary. -/
structure Binary where
  size : ℕ
  sha256 : Text
  deriving DecidableEq

/-- The directory of a version, with what validating it finds. -/
inductive VersionEntry where
  | absent
  | present (found : Except UpdateError Binary)

/-- The entry `active`, a link to a path below the prefix or something else. -/
inductive ActiveEntry where
  | missing
  | link (target : List Text)
  | other
  deriving DecidableEq

structure Disk where
  receipt : JsonFile InstallReceipt
  state : JsonFile UpdateState
  journal : JsonFile UpdateJournal
  active : ActiveEntry
  versions : Text → VersionEntry

/-- Paths outside the installation, which no update changes. -/
structure Host where
  canonicalize : Text → Except IoError Text
  isAbsolute : Text → Bool
  hasParent : Text → Bool
  join : Text → Text → Text
  /-- the target of a symbolic link, `none` at anything else -/
  readLink : Text → Except IoError (Option Text)

/-! ## Durable steps -/

inductive UpdateOperation where
  | readReceipt
  | readState
  | readJournal
  | readActive
  | inspectVersion (version : Text)
  | stageVersion (version : Text) (candidate : Except UpdateError Binary)
  | checkHealth (version : Text)
  | replaceActive (target : List Text)
  | writeState (state : UpdateState)
  | writeReceipt (receipt : InstallReceipt)
  | writeJournal (journal : UpdateJournal)
  | removeJournal
  | syncPrefix

@[reducible] def Answer : UpdateOperation → Type
  | .readReceipt => JsonFile InstallReceipt
  | .readState => JsonFile UpdateState
  | .readJournal => JsonFile UpdateJournal
  | .readActive => ActiveEntry
  | .inspectVersion _ | .stageVersion _ _ => Except UpdateError Binary
  | .checkHealth _ => Except UpdateError Unit
  | .replaceActive _ | .writeState _ | .writeReceipt _ | .writeJournal _ | .removeJournal
  | .syncPrefix => Unit

/-- The installation and the answers the health callback still has to give. -/
structure Site where
  disk : Disk
  healths : ℕ → Except UpdateError Unit

def inspect (disk : Disk) (version : Text) : Except UpdateError Binary :=
  match disk.versions version with
  | .absent => .error (.io .notFound)
  | .present found => found

/-- Staging copies the candidate to a version that has no directory yet. -/
def stage (disk : Disk) (version : Text) (candidate : Except UpdateError Binary) : Disk :=
  match disk.versions version with
  | .absent =>
      { disk with versions := fun v => if v=version then .present candidate else disk.versions v }
  | .present _ => disk

def act : (op : UpdateOperation) → Disk → Answer op × Disk
  | .readReceipt, d => (d.receipt,d)
  | .readState, d => (d.state,d)
  | .readJournal, d => (d.journal,d)
  | .readActive, d => (d.active,d)
  | .inspectVersion version, d => (inspect d version,d)
  | .stageVersion version candidate, d =>
      (inspect (stage d version candidate) version,stage d version candidate)
  | .checkHealth _, d => (.ok (),d)
  | .replaceActive target, d => ((),{ d with active := .link target })
  | .writeState state, d => ((),{ d with state := .value state })
  | .writeReceipt receipt, d => ((),{ d with receipt := .value receipt })
  | .writeJournal journal, d => ((),{ d with journal := .value journal })
  | .removeJournal, d => ((),{ d with journal := .missing })
  | .syncPrefix, d => ((),d)

def exec : (op : UpdateOperation) → Site → Answer op × Site
  | .checkHealth _, s => (s.healths 0,{ s with healths := fun n => s.healths (n+1) })
  | op, s => ((act op s.disk).1,{ s with disk := (act op s.disk).2 })

def machine : Machine UpdateOperation Answer Site := ⟨exec⟩

/-- A program over an installation. -/
abbrev Update (α : Type) := Prog UpdateOperation Answer UpdateError α

def call (op : UpdateOperation) : Update (Answer op) := .perform op

/-! ## Validation -/

def repositoryName : Text := "A3S-Lab/ash".toList

def canonicalDigest (value : Text) : Bool :=
  (utf8 value).length=64 &&
    (utf8 value).all fun byte => (48 ≤ byte && byte ≤ 57) || (97 ≤ byte && byte ≤ 102)

def hasControl (value : Text) : Bool := value.any isControl

def readJson {α : Type} : JsonFile α → Except UpdateError α
  | .missing => .error (.io .notFound)
  | .malformed => .error .installation
  | .value a => .ok a

structure Context where
  receipt : InstallReceipt
  state : UpdateState
  journal : Option UpdateJournal

section
variable {V : Type} [LinearOrder V] (parseVersion : Text → Option V)

def validateReceipt (host : Host) (installPrefix target : Text) (receipt : InstallReceipt) :
    Except UpdateError Unit := do
  if receipt.schema != 1 || receipt.repository != repositoryName || receipt.target != target
      || (parseVersion receipt.version).isNone then .error .installation
  if !host.isAbsolute receipt.installPrefix then .error .installation
  let recorded ← (host.canonicalize receipt.installPrefix).mapError .io
  if recorded != installPrefix then .error .installation
  if !host.isAbsolute receipt.launcher || receipt.profile.any hasControl then
    .error .installation
  let found ← (host.readLink receipt.launcher).mapError .io
  if found != some (host.join (host.join receipt.installPrefix "active".toList) "ash".toList) then
    .error .installation

def validateState (state : UpdateState) : Except UpdateError Unit :=
  if state.schema != 1 || (parseVersion state.active).isNone
      || state.previous.any (fun value => (parseVersion value).isNone || value == state.active)
      || (state.highestSequence == 0) != state.highestManifestSha256.isNone
      || state.highestManifestSha256.any (fun value => !canonicalDigest value) then
    .error .installation
  else .ok ()

/-- The state a journal takes the installation from. -/
def UpdateJournal.priorState (journal : UpdateJournal) : UpdateState :=
  ⟨1,journal.oldVersion,journal.priorPrevious,journal.priorHighestSequence,
    journal.priorManifestSha256⟩

/-- The state a journal takes the installation to. -/
def UpdateJournal.finalState (journal : UpdateJournal) : UpdateState :=
  ⟨1,journal.newVersion,some journal.oldVersion,max journal.priorHighestSequence journal.sequence,
    if journal.sequence ≥ journal.priorHighestSequence then some journal.manifestSha256
    else journal.priorManifestSha256⟩

/-- The checks of `validateJournal` that look at the journal's own fields. -/
def journalMalformed (target : Text) (journal : UpdateJournal) : Bool :=
  journal.schema != 1 || journal.target != target
    || (parseVersion journal.oldVersion).isNone || (parseVersion journal.newVersion).isNone
    || journal.oldVersion == journal.newVersion || journal.sequence == 0
    || journal.sequence < journal.priorHighestSequence
    || (journal.sequence == journal.priorHighestSequence
      && journal.priorManifestSha256 != some journal.manifestSha256)
    || !canonicalDigest journal.manifestSha256
    || (journal.priorHighestSequence == 0) != journal.priorManifestSha256.isNone
    || journal.priorManifestSha256.any (fun value => !canonicalDigest value)
    || journal.priorPrevious.any (fun value => (parseVersion value).isNone)

variable (context : Context) (receipt : InstallReceipt)

/-- State and receipt are not ones that an interrupted update of this journal leaves. -/
def journalMismatch (journal : UpdateJournal) : Bool :=
  (context.state != journal.priorState && context.state != journal.finalState)
    || (context.receipt.version != journal.oldVersion
      && context.receipt.version != journal.newVersion)
    || (context.state == journal.priorState && context.receipt.version != journal.oldVersion)

def versionBinary (version : Text) : Update Binary := do
  if (parseVersion version).isNone then .fail .installation
  else do
    let found ← call (.inspectVersion version)
    .ofExcept found

def validateJournal (journal : UpdateJournal) : Update Unit := do
  if journalMalformed parseVersion context.receipt.target journal then .fail .installation
  else do
    .ofExcept (validateState parseVersion journal.priorState)
    .ofExcept (validateState parseVersion journal.finalState)
    if journalMismatch context journal then .fail .installation
    else do
      let _ ← versionBinary parseVersion journal.oldVersion
      let _ ← versionBinary parseVersion journal.newVersion

/-- The path of a version below the prefix. -/
def versionPath (version : Text) : List Text := ["versions".toList,version]

def isActiveVersion (version : Text) : Update Bool := do
  let _ ← versionBinary parseVersion version
  match ← call .readActive with
  | .missing => .fail (.io .notFound)
  | entry => pure (entry=.link (versionPath version))

/-! ## Activation -/

def activateVersion (version : Text) : Update Unit := do
  let _ ← versionBinary parseVersion version
  match ← call .readActive with
  | .missing => .fail (.io .notFound)
  | .other => .fail .installation
  | .link _ => do
      call (.replaceActive (versionPath version))
      call .syncPrefix

/-- Write state and receipt of a version and drop the journal. -/
def settle (state : UpdateState) : Update Unit := do
  call (.writeState state)
  call (.writeReceipt { receipt with version := state.active })
  call .removeJournal
  call .syncPrefix

def finalize (journal : UpdateJournal) : Update Unit :=
  settle context.receipt journal.finalState

def restorePrior (journal : UpdateJournal) : Update Unit := do
  activateVersion parseVersion journal.oldVersion
  match ← call (.checkHealth journal.oldVersion) with
  | .error _ => .fail .activation
  | .ok () => settle context.receipt journal.priorState

def applyPending (journal : UpdateJournal) : Update Unit := do
  activateVersion parseVersion journal.newVersion
  match ← call (.checkHealth journal.newVersion) with
  | .error _ => do
      restorePrior parseVersion context journal
      .fail .health
  | .ok () => finalize context journal

/-! ## Loading -/

/-- The state of an installation without a state file. -/
def initialState (version : Text) : UpdateState := ⟨1,version,none,0,none⟩

def loadState : JsonFile UpdateState → Except UpdateError UpdateState
  | .missing => .ok (initialState receipt.version)
  | file => readJson file

def loadJournal : JsonFile UpdateJournal → Except UpdateError (Option UpdateJournal)
  | .missing => .ok none
  | file => (readJson file).map some

/-- An installation without a journal has to be at rest. -/
def checkSettled : Update Unit := do
  if context.journal.isSome then pure ()
  else do
    let active ← isActiveVersion parseVersion context.receipt.version
    if active then pure () else .fail .installation

variable (host : Host) (requested target : Text)

/-- The canonical prefix of an installation. -/
def canonicalPrefix : Except UpdateError Text := do
  let found ← (host.canonicalize requested).mapError .io
  if !host.isAbsolute found || !host.hasParent found then .error .installation else .ok found

def loadContext (allowPending : Bool) : Update Context := do
  let installPrefix ← .ofExcept (canonicalPrefix host requested)
  let receiptFile ← call .readReceipt
  let receipt ← .ofExcept (readJson receiptFile)
  .ofExcept (validateReceipt parseVersion host installPrefix target receipt)
  let stateFile ← call .readState
  let state ← .ofExcept (loadState receipt stateFile)
  .ofExcept (validateState parseVersion state)
  let journalFile ← call .readJournal
  let journal ← .ofExcept (loadJournal journalFile)
  if journal.isSome && !allowPending then .fail .pendingUpdate
  else if journal.isNone && state.active != receipt.version then .fail .installation
  else do
    let _ ← versionBinary parseVersion receipt.version
    checkSettled parseVersion ⟨receipt,state,journal⟩
    pure ⟨receipt,state,journal⟩

/-! ## The operations -/

/-- Go on with the new version, or back to the old one. -/
def resolveJournal (context : Context) (journal : UpdateJournal) : Update RecoveryOutcome := do
  validateJournal parseVersion context journal
  let active ← isActiveVersion parseVersion journal.newVersion
  let healthy ← if active then call (.checkHealth journal.newVersion)
    else pure (.error .health)
  match healthy with
  | .ok () => do
      finalize context journal
      pure (.finalized journal.newVersion)
  | .error _ => do
      restorePrior parseVersion context journal
      pure (.rolledBack journal.oldVersion)

def recoverInstallation : Update RecoveryOutcome := do
  let context ← loadContext parseVersion host requested target true
  match context.journal with
  | none => pure .clean
  | some journal => resolveJournal parseVersion context journal

/-- A release whose manifest has been verified: only verification builds one, from a
manifest with a positive sequence and the digest it computes itself. -/
structure VerifiedRelease where
  target : Text
  version : Text
  sequence : ℕ
  manifestSha256 : Text
  binary : Binary
  signedRollback : Bool
  sequence_ne_zero : sequence≠0
  canonical : canonicalDigest manifestSha256=true

def validateAnchor (state : UpdateState) (release : VerifiedRelease) : Except UpdateError Unit :=
  if release.sequence < state.highestSequence
      || (release.sequence == state.highestSequence && state.highestSequence != 0
        && state.highestManifestSha256 != some release.manifestSha256) then
    .error .sequenceRollback
  else .ok ()

/-- The state once the release of the active version is confirmed. -/
def confirmedState (state : UpdateState) (release : VerifiedRelease) : UpdateState :=
  { state with
    highestSequence := release.sequence
    highestManifestSha256 := some release.manifestSha256 }

def confirmCurrent (context : Context) (release : VerifiedRelease) : Update Unit := do
  let binary ← versionBinary parseVersion context.receipt.version
  if binary≠release.binary then .fail .package
  else do
    call (.writeState (confirmedState context.state release))
    call .syncPrefix

def confirmCurrentRelease (release : VerifiedRelease) : Update Unit := do
  let context ← loadContext parseVersion host requested target false
  if release.target≠target ∨ release.version≠context.receipt.version then .fail .target
  else do
    .ofExcept (validateAnchor context.state release)
    confirmCurrent parseVersion context release

def stageVersion (candidate : Except UpdateError Binary) (release : VerifiedRelease) :
    Update Unit := do
  let staged ← call (.stageVersion release.version candidate)
  let binary ← .ofExcept staged
  if binary≠release.binary then .fail .package else pure ()

/-- Write the journal, unless it is not valid, and go on from it. -/
def beginUpdate (context : Context) (journal : UpdateJournal) : Update ActivationOutcome := do
  validateJournal parseVersion context journal
  call (.writeJournal journal)
  applyPending parseVersion context journal
  pure (.activated journal.newVersion)

def releaseJournal (context : Context) (release : VerifiedRelease) : UpdateJournal :=
  ⟨1,target,context.receipt.version,release.version,release.sequence,release.manifestSha256,
    context.state.previous,context.state.highestSequence,context.state.highestManifestSha256⟩

/-- Stage a release other than the active one and switch to it. -/
def installNext (context : Context) (candidate : Except UpdateError Binary)
    (release : VerifiedRelease) : Update ActivationOutcome := do
  stageVersion candidate release
  let healthy ← call (.checkHealth release.version)
  .ofExcept healthy
  beginUpdate parseVersion context (releaseJournal target context release)

def installRelease (candidate : Except UpdateError Binary) (release : VerifiedRelease) :
    Update ActivationOutcome := do
  let context ← loadContext parseVersion host requested target false
  if release.target≠target then .fail .target
  else do
    .ofExcept (validateAnchor context.state release)
    match parseVersion context.receipt.version, parseVersion release.version with
    | some current, some next =>
        if next=current then do
          confirmCurrent parseVersion context release
          pure (.current context.receipt.version)
        else if next < current ∧ release.signedRollback=false then .fail .rollbackDenied
        else installNext parseVersion target context candidate release
    | _, _ => .fail .version

def rollbackJournal (context : Context) (previous digest : Text) : UpdateJournal :=
  ⟨1,target,context.receipt.version,previous,context.state.highestSequence,digest,
    context.state.previous,context.state.highestSequence,context.state.highestManifestSha256⟩

def rollbackInstallation : Update ActivationOutcome := do
  let context ← loadContext parseVersion host requested target false
  match context.state.previous with
  | none => .fail .noRollback
  | some previous => do
      let _ ← versionBinary parseVersion previous
      let healthy ← call (.checkHealth previous)
      .ofExcept healthy
      match context.state.highestManifestSha256 with
      | none => .fail .noRollback
      | some digest => beginUpdate parseVersion context (rollbackJournal target context previous digest)

end

end Ash.UpdateInstallation
