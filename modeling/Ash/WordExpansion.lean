import Ash.KeyedTables
import Ash.Numerals
import Ash.ParserOutcomes
import Ash.ShellSyntax

/-! # Expansion of words

The values of parameters and substitutions take the places of their parts, and what is unquoted
among them splits the word into fields.  Native strings are byte strings, as on Unix. -/

namespace Ash.WordExpansion
open ByteCodecs KeyedTables Numerals ParserOutcomes ShellSyntax

structure ShellStatus where
  code : Int64

structure ShellState where
  environment : Table Bytes Bytes
  shellVariables : Table Text Bytes
  lastStatus : ShellStatus

/-- A variable hides an exported name; what is not defined is empty. -/
def parameterValue (parameter : Parameter) (state : ShellState) : Bytes :=
  match parameter with
  | .variable name _ =>
      ((state.shellVariables.lookup name).or (state.environment.lookup (utf8 name))).getD []
  | .lastStatus => utf8 (signedText state.lastStatus.code)

/-! ## Fields under construction -/

structure PathnameSegment where
  value : Bytes
  active : Bool
  deriving DecidableEq

/-- The bytes of segments, each with the flag of its segment. -/
def flagged (segments : List PathnameSegment) : List (UInt8 × Bool) :=
  segments.flatMap fun segment => segment.value.map fun byte => (byte,segment.active)

/-- Bytes with one flag join the last segment if it has that flag. -/
def appendSegment (segments : List PathnameSegment) (value : Bytes) (active : Bool) :
    List PathnameSegment :=
  match segments.getLast? with
  | some last =>
      if last.active=active then segments.dropLast++[⟨last.value++value,active⟩]
      else segments++[⟨value,active⟩]
  | none => [⟨value,active⟩]

theorem flagged_append (front back : List PathnameSegment) :
    flagged (front++back)=flagged front++flagged back :=
  List.flatMap_append

theorem flagged_appendSegment (segments : List PathnameSegment) (value : Bytes) (active : Bool) :
    flagged (appendSegment segments value active) =
      flagged segments++value.map fun byte => (byte,active) := by
  unfold appendSegment
  cases hlast : segments.getLast? with
  | none =>
    rw [List.getLast?_eq_none_iff.1 hlast]
    simp [flagged]
  | some last =>
    by_cases hact : last.active=active
    · have hsegs := List.dropLast_append_getLast? last hlast
      simp only [hact,if_true]
      rw [← hsegs,List.dropLast_concat,flagged_append,flagged_append,List.append_assoc]
      simp [flagged,hact]
    · simp only [hact,if_false,flagged_append]
      simp [flagged]

/-- A field that is being built.  Nothing has been put into one that is not present, and the
segments make up the value. -/
structure ExpandedFieldBuilder where
  value : Bytes
  pathnameSegments : List PathnameSegment
  present : Bool
  absent : present=false → pathnameSegments=[]
  joined : (flagged pathnameSegments).map Prod.fst=value

def ExpandedFieldBuilder.default : ExpandedFieldBuilder := ⟨[],[],false,fun _ => rfl,rfl⟩

theorem joined_appendSegment {segments : List PathnameSegment} {whole value : Bytes}
    (h : (flagged segments).map Prod.fst=whole) (active : Bool) :
    (flagged (appendSegment segments value active)).map Prod.fst=whole++value := by
  rw [flagged_appendSegment,List.map_append,h,List.map_map]
  exact congrArg (whole ++ ·) (List.map_id value)

variable (builder : ExpandedFieldBuilder)

def ExpandedFieldBuilder.append (value : Bytes) (pathnameActive : Bool) : ExpandedFieldBuilder :=
  if value=[] then builder
  else ⟨builder.value++value,appendSegment builder.pathnameSegments value pathnameActive,true,
    (fun h => nomatch h),joined_appendSegment builder.joined pathnameActive⟩

def ExpandedFieldBuilder.markPresent : ExpandedFieldBuilder :=
  ⟨builder.value,builder.pathnameSegments,true,(fun h => nomatch h),builder.joined⟩

def ExpandedFieldBuilder.take : Option (Bytes × List PathnameSegment) × ExpandedFieldBuilder :=
  if builder.present then (some (builder.value,builder.pathnameSegments),.default)
  else (none,builder)

/-- The fields that are finished and the one under construction. -/
structure Expansion where
  fields : List (Bytes × List PathnameSegment)
  current : ExpandedFieldBuilder

def Expansion.append (expansion : Expansion) (value : Bytes) (pathnameActive : Bool) : Expansion :=
  { expansion with current := expansion.current.append value pathnameActive }

def Expansion.markPresent (expansion : Expansion) : Expansion :=
  { expansion with current := expansion.current.markPresent }

def Expansion.finishField (expansion : Expansion) : Expansion :=
  match expansion.current.take with
  | (some field,current) => ⟨expansion.fields++[field],current⟩
  | (none,current) => ⟨expansion.fields,current⟩

def isFieldSeparator (byte : UInt8) : Bool := byte=0x20 || byte=0x09 || byte=0x0a

/-- The loop over the bytes of a value; `segment` are those since the last separator. -/
def appendSplitLoop : Bytes → Bytes → Expansion → Expansion
  | [], segment, expansion => expansion.append segment true
  | byte::bytes, segment, expansion =>
      if isFieldSeparator byte then
        appendSplitLoop bytes [] (expansion.append segment true).finishField
      else appendSplitLoop bytes (segment++[byte]) expansion

def appendSplitValue (value : Bytes) (expansion : Expansion) : Expansion :=
  appendSplitLoop value [] expansion

/-- The value of a parameter or of a substitution. -/
def appendValue (value : Bytes) (quote : QuoteMode) (expansion : Expansion) : Expansion :=
  if quote=.unquoted then appendSplitValue value expansion
  else (expansion.append value false).markPresent

def appendLiteral (value : Text) (quote : QuoteMode) (expansion : Expansion) : Expansion :=
  let appended := expansion.append (utf8 value) (decide (quote=.unquoted))
  if value=[] ∧ quote≠.unquoted then appended.markPresent else appended

variable {σ : Type}

/-- The parts of a word in order, with the values that are left for its substitutions. -/
def expandParts (state : ShellState) :
    List (WordPart σ) → List Bytes → Expansion → Fallible Empty (List Bytes × Expansion)
  | [], values, expansion => .ok (values,expansion)
  | .literal value quote _::parts, values, expansion =>
      expandParts state parts values (appendLiteral value quote expansion)
  | .escapedLiteral value _::parts, values, expansion =>
      expandParts state parts values (expansion.append (utf8 value) false)
  | .parameter parameter quote _::parts, values, expansion =>
      expandParts state parts values (appendValue (parameterValue parameter state) quote expansion)
  | .commandSubstitution _ quote::parts, values, expansion =>
      match values with
      | [] => .error .panic
      | value::values => expandParts state parts values (appendValue value quote expansion)

structure ExpandedWord where
  value : Bytes
  span : SourceSpan
  pathnameSegments : List PathnameSegment
  deriving DecidableEq

/-- With `assertions`, values that no substitution asks for are a panic. -/
def expandWordWithSubstitutions (assertions : Bool) (word : Word σ) (state : ShellState)
    (substitutionValues : List Bytes) : Fallible Empty (List ExpandedWord) := do
  let (values,expansion) ←
    expandParts state word.parts substitutionValues ⟨[],.default⟩
  if assertions && !values.isEmpty then .error .panic
  else return expansion.finishField.fields.map fun field => ⟨field.1,word.span,field.2⟩

end Ash.WordExpansion
