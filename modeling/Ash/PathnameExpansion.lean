import Ash.FileTrees
import Ash.PathnamePatterns
import Ash.SortedKeys
import Ash.UnixPaths
import Ash.WordExpansion

/-! # Pathname expansion

A word with active operators stands for the paths that match it.  The candidates are built
component by component; the directories that are read and the matches are counted against the
budget of the command. -/

namespace Ash.PathnameExpansion
open ByteCodecs FileTrees PathnamePatterns ShellSyntax SortedKeys UnixPaths WordExpansion

/-! ## The file system as it is read -/

structure Metadata where
  isDir : Bool
  deriving DecidableEq

/-- What the calls on a path give.  A directory that is read may fail at an entry. -/
structure FileSystem where
  readDir : Bytes → Except IoError (List (Except IoError Bytes))
  metadata : Bytes → Except IoError Metadata
  symlinkMetadata : Bytes → Except IoError Metadata
  describe : IoError → Text

def isMissing (error : IoError) : Bool := error=.notFound ∨ error=.notADirectory

/-! ## Errors and budgets -/

inductive PathnameExpansionErrorKind where
  | invalidPattern
  | noMatches
  | resourceLimit
  | filesystem
  deriving DecidableEq

structure PathnameExpansionError where
  kind : PathnameExpansionErrorKind
  message : Text
  span : SourceSpan
  deriving DecidableEq

namespace PathnameExpansionError

def invalid (message : Text) (span : SourceSpan) : PathnameExpansionError :=
  ⟨.invalidPattern,message,span⟩

def noMatches (span : SourceSpan) : PathnameExpansionError :=
  ⟨.noMatches,"pathname pattern matched no paths".toList,span⟩

def resource (message : Text) (span : SourceSpan) : PathnameExpansionError :=
  ⟨.resourceLimit,message,span⟩

def filesystem (files : FileSystem) (error : IoError) (span : SourceSpan) : PathnameExpansionError :=
  ⟨.filesystem,
    "pathname expansion could not read the filesystem: ".toList++files.describe error,span⟩

end PathnameExpansionError

def maxPathnameExpansionMatches : ℕ := 4096

def maxPathnameExpansionEntries : ℕ := 65536

def maxPathnamePatternUnits : ℕ := 32768

structure PathnameExpansionBudget where
  patternUnits : ℕ
  inspectedEntries : ℕ
  «matches» : ℕ
  deriving DecidableEq

/-! ## Compilation of a path -/

inductive PathPatternComponent where
  | root (value : Bytes)
  | curDir (value : Bytes)
  | parentDir (value : Bytes)
  | normal (value : Bytes) (pattern : Option (List PatternToken))
  deriving DecidableEq

structure CompiledPathPattern where
  components : List PathPatternComponent
  hasPattern : Bool
  requiresDirectory : Bool
  deriving DecidableEq

def hasActivePatternIntroducer (segments : List PathnameSegment) : Bool :=
  segments.any fun segment => segment.active && segment.value.any fun unit =>
    unit == ascii '*' || unit == ascii '?' || unit == ascii '['

def findSubslice (haystack : Bytes) (start : ℕ) (needle : Bytes) : Option ℕ :=
  if needle.isEmpty then some start
  else if haystack.length < start then none
  else (position needle (haystack.drop start)).map (start + ·)

/-- Where a component stands at or after the cursor, as start and end. -/
def locateComponent (path : Bytes) (cursor : ℕ) : Component → Option (ℕ × ℕ)
  | .rootDir =>
      ((path.drop cursor).findIdx? (· == slash)).map fun offset =>
        (offset+cursor,offset+cursor+1)
  | part =>
      (findSubslice path cursor part.bytes).map fun start => (start,start+part.bytes.length)

def unmappedPattern : Text :=
  "pathname pattern could not be mapped to native path components".toList

def compilePart (span : SourceSpan) (part : Component) (own : List FlaggedUnit) :
    Except PathnameExpansionError PathPatternComponent :=
  match part with
  | .rootDir => .ok (.root part.bytes)
  | .curDir => .ok (.curDir part.bytes)
  | .parentDir => .ok (.parentDir part.bytes)
  | .normal name =>
      match compileComponent own with
      | .error message => .error (.invalid message span)
      | .ok pattern => .ok (.normal name pattern)

/-- The loop over the components, each with the flags of the place where it is found. -/
def compileParts (units : List FlaggedUnit) (span : SourceSpan) :
    ℕ → List Component → Except PathnameExpansionError (List PathPatternComponent)
  | _, [] => .ok []
  | cursor, part::parts =>
      match locateComponent (units.map Prod.fst) cursor part with
      | none => .error (.invalid unmappedPattern span)
      | some (start,stop) => do
          let compiled ← compilePart span part ((units.drop start).take (stop - start))
          let more ← compileParts units span stop parts
          return compiled::more

def PathPatternComponent.hasPattern : PathPatternComponent → Bool
  | .normal _ pattern => pattern.isSome
  | _ => false

def patternUnitsExceeded : Text :=
  "pathname expansion retained more than 32768 active pattern units".toList

def entriesExceeded : Text :=
  "pathname expansion inspected more than 65536 directory entries".toList

def matchesExceeded : Text :=
  "pathname expansion produced more than 4096 intermediate or final matches".toList

def compilePathPattern (word : ExpandedWord) (budget : PathnameExpansionBudget) :
    Except PathnameExpansionError (CompiledPathPattern × PathnameExpansionBudget) :=
  let units := flagged word.pathnameSegments
  let budget := { budget with patternUnits := budget.patternUnits+units.length }
  if maxPathnamePatternUnits < budget.patternUnits then
    .error (.resource patternUnitsExceeded word.span)
  else do
    let parts ← compileParts units word.span 0 (components word.value)
    return (⟨parts,parts.any PathPatternComponent.hasPattern,
      units.getLast?.any fun unit => unit.1 == slash⟩,budget)

/-! ## Candidates -/

/-- Where a candidate is looked up and what the command gets. -/
structure GlobCandidate where
  lookup : Bytes
  argument : Bytes
  deriving DecidableEq

def GlobCandidate.push (candidate : GlobCandidate) (value : Bytes) : GlobCandidate :=
  ⟨UnixPaths.push candidate.lookup value,UnixPaths.push candidate.argument value⟩

/-- The matches of a component so far and the budget that is left of. -/
abbrev Progress := List GlobCandidate × PathnameExpansionBudget

section Expansion

variable (files : FileSystem) (span : SourceSpan)

variable (pattern : List PatternToken) (candidate : GlobCandidate) (progress : Progress)

def inspectName (fileName : Bytes) : Except PathnameExpansionError Progress :=
  if !matchesComponent pattern fileName then .ok progress
  else
    let budget := { progress.2 with «matches» := progress.2.matches+1 }
    if maxPathnameExpansionMatches < budget.matches then .error (.resource matchesExceeded span)
    else .ok (progress.1++[candidate.push fileName],budget)

def inspectEntry (entry : Except IoError Bytes) : Except PathnameExpansionError Progress :=
  let budget := { progress.2 with inspectedEntries := progress.2.inspectedEntries+1 }
  if maxPathnameExpansionEntries < budget.inspectedEntries then
    .error (.resource entriesExceeded span)
  else match entry with
    | .error error => .error (.filesystem files error span)
    | .ok fileName => inspectName span pattern candidate (progress.1,budget) fileName

def inspectCandidate (candidate : GlobCandidate) : Except PathnameExpansionError Progress :=
  match files.readDir candidate.lookup with
  | .ok entries => entries.foldlM (inspectEntry files span pattern candidate) progress
  | .error error =>
      if isMissing error then .ok progress else .error (.filesystem files error span)

def expandComponent :
    PathPatternComponent → Except PathnameExpansionError Progress
  | .root value => .ok (progress.1.map (·.push value),progress.2)
  | .curDir value => .ok (progress.1.map (·.push value),progress.2)
  | .parentDir value => .ok (progress.1.map (·.push value),progress.2)
  | .normal value none => .ok (progress.1.map (·.push value),progress.2)
  | .normal _ (some pattern) =>
      progress.1.foldlM (inspectCandidate files span pattern) ([],progress.2)

/-- The check of one candidate at the end. -/
def finalMatch (requiresDirectory : Bool) (found : List Bytes) (candidate : GlobCandidate) :
    Except PathnameExpansionError (List Bytes) :=
  match if requiresDirectory then files.metadata candidate.lookup
      else files.symlinkMetadata candidate.lookup with
  | .ok metadata =>
      if requiresDirectory && !metadata.isDir then .ok found
      else .ok (found++[candidate.argument])
  | .error error =>
      if isMissing error then .ok found else .error (.filesystem files error span)

def bytesLe (left right : Bytes) : Bool := decide (left ≤ right)

/-- Sorted by bytes; neighbours with the same components are one path. -/
def sortMatches (found : List Bytes) : List Bytes :=
  dedupBy components (found.mergeSort bytesLe)

def fromPathname (value : Bytes) (span : SourceSpan) : ExpandedWord := ⟨value,span,[]⟩

def collectMatches (found : List Bytes) : Except PathnameExpansionError (List ExpandedWord) :=
  if found.isEmpty then .error (.noMatches span)
  else .ok ((sortMatches found).map (fromPathname · span))

def expandCompiled (word : ExpandedWord) (cwd : Bytes) (compiled : CompiledPathPattern)
    (budget : PathnameExpansionBudget) :
    Except PathnameExpansionError (List ExpandedWord × PathnameExpansionBudget) :=
  if !compiled.hasPattern then .ok ([word],budget)
  else do
    let start : GlobCandidate := ⟨if isAbsolute word.value then [] else cwd,[]⟩
    let (candidates,budget) ←
      compiled.components.foldlM (expandComponent files word.span) ([start],budget)
    let found ← candidates.foldlM (finalMatch files word.span compiled.requiresDirectory) []
    let words ← collectMatches word.span found
    return (words,budget)

def expandPathname (word : ExpandedWord) (cwd : Bytes) (budget : PathnameExpansionBudget) :
    Except PathnameExpansionError (List ExpandedWord × PathnameExpansionBudget) :=
  if !hasActivePatternIntroducer word.pathnameSegments then .ok ([word],budget)
  else do
    let (compiled,budget) ← compilePathPattern word budget
    expandCompiled files word cwd compiled budget

/-- The words of a command share one budget. -/
def expandPathnamesWithBudget (words : List ExpandedWord) (cwd : Bytes)
    (budget : PathnameExpansionBudget) :
    Except PathnameExpansionError (List ExpandedWord × PathnameExpansionBudget) :=
  words.foldlM (fun progress word => do
    let (found,budget) ← expandPathname files word cwd progress.2
    return (progress.1++found,budget)) ([],budget)

end Expansion

end Ash.PathnameExpansion
