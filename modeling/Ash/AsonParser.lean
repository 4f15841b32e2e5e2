import Ash.AsonDocuments
import Ash.ParserOutcomes

/-! # The ASON parser

The parser cuts its input at byte offsets.  `bits` is the width of `usize`. -/

namespace Ash.AsonParser
open ByteCodecs Numerals TextSlices AsonDocuments ParserOutcomes

inductive LimitKind where
  | bytes | lines | fields | keyBytes | columns | rows | vectorItems | scalarBytes | values
  deriving DecidableEq

inductive DecodeError where
  | limit (kind : LimitKind) (max line : ℕ)
  | missingFinalLf
  | carriageReturn (offset : ℕ)
  | emptyDocument
  | blankLine (line : ℕ)
  | badSyntax (line column : ℕ) (message : String)
  | invalidKey (line : ℕ) (key : Text)
  | duplicateField (line : ℕ) (key : Text)
  | duplicateColumn (line : ℕ) (key : Text)
  | emptyColumns (line : ℕ)
  | invalidRowCount (line : ℕ)
  | missingRows (line declared available : ℕ)
  | rowWidth (line expected actual : ℕ)
  | invalidReference (line column : ℕ)
  | invalidEscape (line column : ℕ) (message : String)
  deriving DecidableEq

abbrev Outcome := Fallible DecodeError

def enforce (actual max : ℕ) (kind : LimitKind) (line : ℕ) : Outcome Unit :=
  if max < actual then .fail (.limit kind max line) else .ok ()

/-! ## Scalars -/

def parseUnicodeDigits (line column : ℕ) : Text → Text → Outcome (Text × Text)
  | [], _ => .fail (.invalidEscape line column "unterminated unicode escape")
  | c::chars, digits =>
      if c = '\x7d' then .ok (digits,chars)
      else if !isHexDigit c || byteLength digits=6 then
        .fail (.invalidEscape line column
          "unicode escape requires one to six hexadecimal digits")
      else parseUnicodeDigits line column chars (digits++[c])

/-- The character of an escape whose marker has been read, and what follows it. -/
def parseUnicodeEscape (line column : ℕ) (chars : Text) : Outcome (Char × Text) :=
  match chars with
  | '\x7b'::chars => do
      let (digits,rest) ← parseUnicodeDigits line column chars []
      if digits=[] then .fail (.invalidEscape line column "unicode escape cannot be empty")
      else if h : (ofHex digits).isValidChar then .ok (Char.ofNatAux (ofHex digits) h,rest)
      else .fail (.invalidEscape line column "invalid unicode scalar")
  | _ => .fail (.invalidEscape line column "unicode escape must start with '\x7b'")

def shortEscape : Char → Option Char
  | '\\' => some '\\'
  | '"' => some '"'
  | 'n' => some '\n'
  | 'r' => some '\r'
  | 't' => some '\t'
  | _ => none

/-- One character of a quoted text after the opening quote: `none` at the closing one. -/
def quotedChar (line column offset total : ℕ) (c : Char) (chars : Text) :
    Outcome (Option (Char × Text)) :=
  if c = '"' then
    if offset+c.utf8Size≠total then
      .fail (.badSyntax line (column+offset+1) "characters follow the closing quote")
    else .ok none
  else if c = '\\' then
    match chars with
    | [] => .fail (.invalidEscape line (column+offset+1) "incomplete escape")
    | escape::chars =>
        match shortEscape escape with
        | some plain => .ok (some (plain,chars))
        | none =>
            if escape = 'u' then do
              let found ← parseUnicodeEscape line (column+(offset+c.utf8Size)+2) chars
              return some found
            else .fail (.invalidEscape line (column+offset+1) "unknown escape")
  else if isControl c then
    .fail (.badSyntax line (column+offset+1) "control character must be escaped")
  else .ok (some (c,chars))

/-- The loop over a quoted text of `total` bytes without its opening quote. -/
def quotedLoop (line column max total : ℕ) : ℕ → Text → Text → Outcome Text
  | 0, _, _ => .error .outOfFuel
  | _+1, [], _ => .fail (.badSyntax line column "unterminated quoted string")
  | fuel+1, c::chars, output => do
      match ← quotedChar line column (total - byteLength (c::chars)) total c chars with
      | none => .ok output
      | some (next,rest) => do
          enforce (byteLength (output++[next])) max .scalarBytes line
          quotedLoop line column max total fuel rest (output++[next])

def quoted (source : Text) (line column max : ℕ) : Outcome Text := do
  let chars ← cut source 1 (byteLength source)
  quotedLoop line column max (byteLength chars) (chars.length+1) chars []

def bare (source : Text) (line column max : ℕ) : Outcome Atom := do
  enforce (byteLength source) max .scalarBytes line
  if !(utf8 source).all isBareByte then
    .fail (.badSyntax line column "invalid bare scalar character")
  else .ok (.text source)

/-- The digits of a scalar that reads as a reference. -/
def referenceDigits (source : Text) : Option Text :=
  match source with
  | '@'::digits => if !digits.isEmpty && (utf8 digits).all isAsciiDigit then some digits else none
  | _ => none

def decodeScalar (source : Text) (line column max : ℕ) : Outcome Atom :=
  if source=[] then .fail (.badSyntax line column "empty scalar must be written as \"\"")
  else if source=['~'] then .ok .null
  else match referenceDigits source with
    | some digits =>
        if 1 < byteLength digits ∧ digits.head?=some '0' then
          .fail (.invalidReference line column)
        else if ofDecimal digits < 2 ^ 64 then .ok (.reference (UInt64.ofNat (ofDecimal digits)))
        else .fail (.invalidReference line column)
    | none =>
        if source.head?=some '"' then (quoted source line column max).map Atom.text
        else bare source line column max

/-! ## Items -/

inductive ItemLimit where
  | row (expected : ℕ)
  | vector (max : ℕ)

def pushItem (items : List (ℕ × Text)) (item : ℕ × Text) (limit : ItemLimit) (line : ℕ) :
    Outcome (List (ℕ × Text)) :=
  match limit with
  | .row expected =>
      if expected < items.length+1 then .fail (.rowWidth line expected (items.length+1))
      else .ok (items++[item])
  | .vector max =>
      if max < items.length+1 then .fail (.limit .vectorItems max line)
      else .ok (items++[item])

/-- Where the splitter is with respect to quotes and brackets. -/
structure Mode where
  quoted : Bool
  escaped : Bool
  vectorDepth : ℕ
  deriving DecidableEq

def Mode.plain : Mode := ⟨false,false,0⟩

/-- What the splitter does at a character. -/
inductive Turn where
  | stay (mode : Mode)
  | separator
  | refuse (message : String)

def turn (allowVector : Bool) (mode : Mode) (c : Char) : Turn :=
  if mode.quoted then
    if mode.escaped then .stay { mode with escaped := false }
    else if c = '\\' then .stay { mode with escaped := true }
    else if c = '"' then .stay { mode with quoted := false }
    else .stay mode
  else if c = '"' then .stay { mode with quoted := true }
  else if c = '[' then
    if allowVector && mode.vectorDepth=0 then .stay { mode with vectorDepth := 1 }
    else .refuse "nested vectors are not allowed"
  else if c = ']' then
    if allowVector && mode.vectorDepth=1 then .stay { mode with vectorDepth := 0 }
    else .refuse "unmatched vector bracket"
  else if c = ',' && mode.vectorDepth=0 then .separator
  else .stay mode

structure Scan where
  items : List (ℕ × Text)
  start : ℕ
  mode : Mode

def splitLoop (source : Text) (allowVector : Bool) (line : ℕ) (limit : ItemLimit) :
    Text → ℕ → Scan → Outcome Scan
  | [], _, scan => .ok scan
  | c::chars, offset, scan =>
      match turn allowVector scan.mode c with
      | .stay mode =>
          splitLoop source allowVector line limit chars (offset+c.utf8Size) { scan with mode }
      | .refuse message => .fail (.badSyntax line (offset+1) message)
      | .separator => do
          let item ← cut source scan.start offset
          let items ← pushItem scan.items (scan.start+1,item) limit line
          splitLoop source allowVector line limit chars (offset+c.utf8Size)
            { scan with items, start := offset+1 }

def splitItems (source : Text) (allowVector : Bool) (line : ℕ) (limit : ItemLimit) :
    Outcome (List (ℕ × Text)) := do
  let scan ← splitLoop source allowVector line limit source 0 ⟨[],0,.plain⟩
  if scan.mode.quoted then
    .fail (.badSyntax line (byteLength source) "unterminated quoted string")
  else if scan.mode.vectorDepth≠0 then
    .fail (.badSyntax line (byteLength source) "unterminated vector")
  else do
    let item ← cut source scan.start (byteLength source)
    pushItem scan.items (scan.start+1,item) limit line

/-! ## Lines -/

abbrev Usize (bits : ℕ) := Fin (2 ^ bits)

/-- Resource ceilings applied while parsing one document. -/
structure Limits (bits : ℕ) where
  maxBytes : Usize bits
  maxLines : Usize bits
  maxFields : Usize bits
  maxKeyBytes : Usize bits
  maxColumns : Usize bits
  maxRows : Usize bits
  maxVectorItems : Usize bits
  maxScalarBytes : Usize bits
  maxValues : Usize bits

def defaultLimits : Limits 64 :=
  ⟨8*1024*1024,262144,256,128,128,100000,4096,1024*1024,1000000⟩

/-- A parsing step, with the number of values read so far. -/
abbrev Step := Parse DecodeError

structure Header where
  key : Key
  columns : List Key
  rows : Option ℕ

section
variable {bits : ℕ} (limits : Limits bits)

def bumpValue (line : ℕ) : Step Unit := fun values => do
  enforce (values+1) limits.maxValues .values line
  return ((),values+1)

def atom (source : Text) (line column : ℕ) : Step Atom := do
  bumpValue limits line
  .outcome (decodeScalar source line column limits.maxScalarBytes)

def vector (source : Text) (line column : ℕ) : Step (List Atom) := do
  if source.head?≠some '[' ∨ source.getLast?≠some ']' then
    .fail (.badSyntax line column "vector must be enclosed by '[' and ']'")
  else do
    let inner ← .outcome (cut source 1 (byteLength source - 1))
    if inner=[] then return []
    else do
      let raw ← .outcome (splitItems inner false line (.vector limits.maxVectorItems))
      raw.mapM fun item => atom limits item.2 line (column+item.1)

def cell (source : Text) (line column : ℕ) : Step Cell :=
  if source.head?=some '[' then Cell.vector <$> vector limits source line column
  else Cell.atom <$> atom limits source line column

def row (source : Text) (width line : ℕ) : Step (List Cell) := do
  let raw ← .outcome (splitItems source true line (.row width))
  if raw.length≠width then .fail (.rowWidth line width raw.length)
  else raw.mapM fun item => cell limits item.2 line item.1

def key (source : Text) (line : ℕ) : Outcome Key := do
  enforce (byteLength source) limits.maxKeyBytes .keyBytes line
  match Key.new source with
  | .ok key => .ok key
  | .error _ => .fail (.invalidKey line source)

def columnsLoop (line : ℕ) : List Text → List Key → Outcome (List Key)
  | [], columns => .ok columns
  | value::sources, columns => do
      enforce (columns.length+1) limits.maxColumns .columns line
      let key ← key limits value line
      if key.value∈names columns then .fail (.duplicateColumn line key.value)
      else columnsLoop line sources (columns++[key])

def columns (source : Text) (line : ℕ) : Outcome (List Key) :=
  if source=[] then .fail (.emptyColumns line)
  else columnsLoop limits line (source.splitOn ',') []

def parseRowCount (bits : ℕ) (source : Text) (line : ℕ) : Outcome ℕ :=
  if source=[] ∨ (utf8 source).all isAsciiDigit=false ∨
      (1 < byteLength source ∧ source.head?=some '0') then .fail (.invalidRowCount line)
  else if ofDecimal source < 2 ^ bits then .ok (ofDecimal source)
  else .fail (.invalidRowCount line)

/-- The key of a header and the number of rows that its brackets declare. -/
def headerKey (bits : ℕ) (front : Text) (line : ℕ) : Outcome (Text × Option ℕ) :=
  if front.getLast?=some ']' then
    match rfindByte (· == '[') front with
    | none => .fail (.badSyntax line 1 "table header is missing an opening bracket")
    | some bracket => do
        let count ← cut front (bracket+1) (byteLength front - 1)
        let source ← cut front 0 bracket
        let rows ← parseRowCount bits count line
        return (source,some rows)
  else if '['∈front ∨ ']'∈front then .fail (.badSyntax line 1 "malformed table row count")
  else .ok (front,none)

def header (head : Text) (line : ℕ) : Outcome Header :=
  if head.getLast?≠some '\x7d' then
    .fail (.badSyntax line 1 "record or table header must end with '\x7d'")
  else match findByte (· == '\x7b') head with
    | none => .fail (.badSyntax line 1 "record or table header is missing an opening brace")
    | some start => do
        let front ← cut head 0 start
        let columnSource ← cut head (start+1) (byteLength head - 1)
        let (source,rows) ← headerKey bits front line
        let key ← key limits source line
        let columns ← columns limits columnSource line
        return ⟨key,columns,rows⟩

def rowsLoop (line declared width : ℕ) :
    ℕ → List (ℕ × Text) → List (List Cell) → Step (List (List Cell) × List (ℕ × Text))
  | 0, lines, rows => pure (rows,lines)
  | missing+1, [], _ => .fail (.missingRows line declared (declared - (missing+1)))
  | missing+1, (index,source)::lines, rows => do
      if source=[] then .fail (.blankLine (index+1))
      else do
        let cells ← row limits source width (index+1)
        rowsLoop line declared width missing lines (rows++[cells])

/-- The value below a header. -/
def headerValue (header : Header) (line : ℕ) (rows : List (List Cell)) : Outcome Value :=
  match header.rows with
  | some _ =>
      match Table.new header.columns rows with
      | .ok table => .ok (.table table)
      | .error _ => .fail (.badSyntax line 1 "invalid table model")
  | none =>
      match rows.getLast? with
      | none => .fail (.missingRows line 1 0)
      | some values =>
          match Record.new header.columns values with
          | .ok record => .ok (.record record)
          | .error _ => .fail (.badSyntax line 1 "invalid record model")

/-- A record or a table with its rows, and the lines after them. -/
def block (head payload : Text) (line : ℕ) (lines : List (ℕ × Text)) :
    Step (Field × List (ℕ × Text)) := do
  if payload≠[] then
    .fail (.badSyntax line (byteLength head+2)
      "record and table headers cannot contain an inline value")
  else do
    let header ← .outcome (header limits head line)
    .outcome (enforce (header.rows.getD 1) limits.maxRows .rows line)
    let (rows,rest) ← rowsLoop limits line (header.rows.getD 1) header.columns.length
      (header.rows.getD 1) lines []
    let value ← .outcome (headerValue header line rows)
    return (⟨header.key,value⟩,rest)

/-- A field on a line of its own. -/
def inline (head payload : Text) (line : ℕ) : Step Field := do
  let key ← .outcome (key limits head line)
  let value ← if payload.head?=some '[' then
      Value.vector <$> vector limits payload line (byteLength head+2)
    else Value.scalar <$> atom limits payload line (byteLength head+2)
  return ⟨key,value⟩

def field (source : Text) (line : ℕ) (lines : List (ℕ × Text)) :
    Step (Field × List (ℕ × Text)) :=
  match splitOnce ':' source with
  | none =>
      .fail (.badSyntax line (byteLength source+1) "top-level field is missing ':'")
  | some (head,payload) =>
      if '\x7b'∈head ∨ '['∈head then block limits head payload line lines
      else do
        let field ← inline limits head payload line
        return (field,lines)

def fieldsLoop : ℕ → List (ℕ × Text) → List Field → Step (List Field)
  | _, [], fields => pure fields
  | 0, _::_, _ => fun _ => .error .outOfFuel
  | fuel+1, (index,source)::lines, fields => do
      if source=[] then .fail (.blankLine (index+1))
      else do
        .outcome (enforce (fields.length+1) limits.maxFields .fields (index+1))
        let (field,rest) ← field limits source (index+1) lines
        if field.key.value∈fieldNames fields then
          .fail (.duplicateField (index+1) field.key.value)
        else fieldsLoop fuel rest (fields++[field])

def document (input : Text) : Outcome Document := do
  enforce (byteLength input) limits.maxBytes .bytes 1
  match (utf8 input).findIdx? (· == 13) with
  | some offset => .fail (.carriageReturn offset)
  | none =>
      if input.getLast?≠some '\n' then .fail .missingFinalLf
      else if input.dropLast=[] then .fail .emptyDocument
      else do
        enforce ((utf8 input).count 10) limits.maxLines .lines 1
        let lines := (input.dropLast.splitOn '\n').zipIdx.map Prod.swap
        let (fields,_) ← fieldsLoop limits lines.length lines [] 0
        match Document.new fields with
        | .ok document => .ok document
        | .error _ => .fail .emptyDocument

end

def decodeWithLimits {bits : ℕ} (input : Text) (limits : Limits bits) : Outcome Document :=
  document limits input

def decode (input : Text) : Outcome Document := decodeWithLimits input defaultLimits

/-- Parse and write again. -/
def canonicalize {bits : ℕ} (input : Text) (limits : Limits bits) : Outcome Text :=
  (decodeWithLimits input limits).map encode

def isCanonical {bits : ℕ} (input : Text) (limits : Limits bits) : Outcome Bool :=
  (canonicalize input limits).map fun canonical => canonical=input

end Ash.AsonParser
