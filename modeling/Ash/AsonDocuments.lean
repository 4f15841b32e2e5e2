import Ash.Numerals
import Ash.TextSlices

/-! # ASON documents and their canonical text

Documents are built only through their checks, so that a value carries what they
establish.  `encode` writes the one canonical text of a document. -/

namespace Ash.AsonDocuments
open ByteCodecs Numerals TextSlices

inductive BuildError where
  | emptyDocument
  | invalidKey (key : Text)
  | duplicateField (key : Text)
  | emptyColumns
  | duplicateColumn (key : Text)
  | width (expected actual : ℕ)
  deriving DecidableEq

/-! ## Keys -/

def isAsciiAlphabetic (b : UInt8) : Bool := (65 ≤ b && b ≤ 90) || (97 ≤ b && b ≤ 122)

def isAsciiDigit (b : UInt8) : Bool := 48 ≤ b && b ≤ 57

def isAsciiAlphanumeric (b : UInt8) : Bool := isAsciiAlphabetic b || isAsciiDigit b

def isKeyByte (b : UInt8) : Bool :=
  isAsciiAlphanumeric b || b == '_'.toUInt8 || b == '.'.toUInt8 || b == '-'.toUInt8

def isValidKey (value : Text) : Bool :=
  match utf8 value with
  | [] => false
  | first::rest => (isAsciiAlphabetic first || first == '_'.toUInt8) && rest.all isKeyByte

/-- A syntax-safe identifier. -/
structure Key where
  value : Text
  valid : isValidKey value=true
  deriving DecidableEq

def Key.new (value : Text) : Except BuildError Key :=
  if h : isValidKey value=true then .ok ⟨value,h⟩ else .error (.invalidKey value)

theorem Key.ext {k k' : Key} (h : k.value=k'.value) : k=k' := by
  cases k
  cases k'
  cases h
  rfl

@[simp] theorem Key.new_ok {value : Text} {key : Key} :
    Key.new value=.ok key ↔ value=key.value := by
  unfold Key.new
  split
  · next h =>
    rw [Except.ok.injEq]
    exact ⟨fun heq => heq ▸ rfl,fun heq => Key.ext heq⟩
  · next h =>
    simp only [reduceCtorEq,false_iff]
    rintro rfl
    exact h key.valid

inductive Atom where
  | null
  | reference (id : UInt64)
  | text (value : Text)
  deriving DecidableEq

inductive Cell where
  | atom (atom : Atom)
  | vector (atoms : List Atom)
  deriving DecidableEq

/-- The first name that occurs a second time. -/
def firstRepeat (seen : List Text) : List Text → Option Text
  | [] => none
  | name::names => if name∈seen then some name else firstRepeat (name::seen) names

private theorem firstRepeat_none {seen names : List Text} :
    firstRepeat seen names=none ↔ names.Nodup ∧ ∀ name∈names, name∉seen := by
  induction names generalizing seen with
  | nil => simp [firstRepeat]
  | cons name names ih =>
    rw [firstRepeat]
    split
    · next hseen => simp [hseen]
    · next hseen =>
      rw [ih,List.nodup_cons]
      constructor
      · rintro ⟨hnodup,hnot⟩
        refine ⟨⟨fun hmem => (hnot name hmem) (by simp),hnodup⟩,fun other hmem => ?_⟩
        rcases List.mem_cons.1 hmem with rfl | hother
        · exact hseen
        · exact fun hmem => hnot other hother (by simp [hmem])
      · rintro ⟨⟨hname,hnodup⟩,hnot⟩
        refine ⟨hnodup,fun other hother hmem => ?_⟩
        rcases List.mem_cons.1 hmem with rfl | hmem
        · exact hname hother
        · exact hnot other (by simp [hother]) hmem

@[simp] theorem firstRepeat_nil {names : List Text} :
    firstRepeat [] names=none ↔ names.Nodup := by
  simp [firstRepeat_none]

/-- The names of a header. -/
def names (columns : List Key) : List Text := columns.map Key.value

/-- Columns that a record or a table may have. -/
structure WellNamed (columns : List Key) : Prop where
  nonempty : columns≠[]
  distinct : (names columns).Nodup

instance (columns : List Key) : Decidable (WellNamed columns) :=
  decidable_of_iff (columns≠[] ∧ (names columns).Nodup)
    ⟨fun h => ⟨h.1,h.2⟩,fun h => ⟨h.nonempty,h.distinct⟩⟩

def validateColumns (columns : List Key) : Except BuildError Unit :=
  if columns=[] then .error .emptyColumns
  else match firstRepeat [] (names columns) with
    | some name => .error (.duplicateColumn name)
    | none => .ok ()

theorem validateColumns_ok {columns : List Key} :
    validateColumns columns=.ok () ↔ WellNamed columns := by
  unfold validateColumns
  split
  · next h =>
    simp only [reduceCtorEq,false_iff]
    exact fun hw => hw.nonempty h
  · next h =>
    cases hrepeat : firstRepeat [] (names columns) with
    | some name =>
      simp only [reduceCtorEq,false_iff]
      intro hw
      rw [firstRepeat_nil.2 hw.distinct] at hrepeat
      cases hrepeat
    | none => exact ⟨fun _ => ⟨h,firstRepeat_nil.1 hrepeat⟩,fun _ => rfl⟩

/-- A homogeneous one-row record. -/
structure Record where
  columns : List Key
  values : List Cell
  wellNamed : WellNamed columns
  width : values.length=columns.length
  deriving DecidableEq

def Record.new (columns : List Key) (values : List Cell) : Except BuildError Record :=
  match h : validateColumns columns with
  | .error e => .error e
  | .ok _ =>
      if hw : values.length=columns.length then .ok ⟨columns,values,validateColumns_ok.1 h,hw⟩
      else .error (.width columns.length values.length)

theorem Record.new_ok {columns : List Key} {values : List Cell} {record : Record} :
    Record.new columns values=.ok record ↔ record.columns=columns ∧ record.values=values := by
  constructor
  · intro h
    unfold Record.new at h
    split at h
    · cases h
    · split at h
      · cases h
        exact ⟨rfl,rfl⟩
      · cases h
  · rintro ⟨rfl,rfl⟩
    unfold Record.new
    split
    · next e he =>
      rw [validateColumns_ok.2 record.wellNamed] at he
      cases he
    · rw [dif_pos record.width]

/-- The first row whose width is not the expected one. -/
def firstMisfit (width : ℕ) (rows : List (List Cell)) : Option (List Cell) :=
  rows.find? fun row => row.length≠width

/-- A homogeneous multi-row table. -/
structure Table where
  columns : List Key
  rows : List (List Cell)
  wellNamed : WellNamed columns
  width : ∀ row∈rows, row.length=columns.length
  deriving DecidableEq

def Table.new (columns : List Key) (rows : List (List Cell)) : Except BuildError Table :=
  match h : validateColumns columns with
  | .error e => .error e
  | .ok _ =>
      match hw : firstMisfit columns.length rows with
      | some row => .error (.width columns.length row.length)
      | none => .ok ⟨columns,rows,validateColumns_ok.1 h,by
          simpa [firstMisfit] using hw⟩

theorem Table.new_ok {columns : List Key} {rows : List (List Cell)} {table : Table} :
    Table.new columns rows=.ok table ↔ table.columns=columns ∧ table.rows=rows := by
  constructor
  · intro h
    unfold Table.new at h
    split at h
    · cases h
    · split at h
      · cases h
      · cases h
        exact ⟨rfl,rfl⟩
  · rintro ⟨rfl,rfl⟩
    unfold Table.new
    split
    · next e he =>
      rw [validateColumns_ok.2 table.wellNamed] at he
      cases he
    · split
      · next row hrow =>
        have hmem := List.mem_of_find?_eq_some hrow
        have hne := List.find?_some hrow
        simp [table.width row hmem] at hne
      · rfl

inductive Value where
  | scalar (atom : Atom)
  | vector (atoms : List Atom)
  | record (record : Record)
  | table (table : Table)
  deriving DecidableEq

structure Field where
  key : Key
  value : Value
  deriving DecidableEq

/-- The names of a document's fields. -/
def fieldNames (fields : List Field) : List Text := fields.map fun field => field.key.value

/-- An immutable, ordered document. -/
structure Document where
  fields : List Field
  nonempty : fields≠[]
  distinct : (fieldNames fields).Nodup
  deriving DecidableEq

def Document.new (fields : List Field) : Except BuildError Document :=
  if hne : fields=[] then .error .emptyDocument
  else match h : firstRepeat [] (fieldNames fields) with
    | some name => .error (.duplicateField name)
    | none => .ok ⟨fields,hne,firstRepeat_nil.1 h⟩

theorem Document.new_ok {fields : List Field} {document : Document} :
    Document.new fields=.ok document ↔ document.fields=fields := by
  constructor
  · intro h
    unfold Document.new at h
    split at h
    · cases h
    · split at h
      · cases h
      · cases h
        rfl
  · rintro rfl
    unfold Document.new
    rw [dif_neg document.nonempty]
    split
    · next name hname =>
      rw [firstRepeat_nil.2 document.distinct] at hname
      cases hname
    · rfl

theorem Document.ext {d d' : Document} (h : d.fields=d'.fields) : d=d' := by
  cases d
  cases d'
  cases h
  rfl

def Document.get (document : Document) (key : Text) : Option Value :=
  (document.fields.find? fun field => field.key.value=key).map Field.value

/-! ## Sizes -/

def Atom.textBytes : Atom → ℕ
  | .text value => byteLength value
  | _ => 0

def Cell.atoms : Cell → List Atom
  | .atom a => [a]
  | .vector atoms => atoms

def Cell.vectors : Cell → List (List Atom)
  | .atom _ => []
  | .vector atoms => [atoms]

def Value.columns : Value → List Key
  | .scalar _ | .vector _ => []
  | .record r => r.columns
  | .table t => t.columns

/-- A record counts as one row. -/
def Value.rowCount : Value → ℕ
  | .scalar _ | .vector _ => 0
  | .record _ => 1
  | .table t => t.rows.length

def Value.cells : Value → List Cell
  | .scalar a => [.atom a]
  | .vector atoms => [.vector atoms]
  | .record r => r.values
  | .table t => t.rows.flatten

/-- The number of atoms of a field. -/
def Field.valueCount (field : Field) : ℕ :=
  (field.value.cells.map fun cell => cell.atoms.length).sum

/-! ## Writing -/

def isBareByte (b : UInt8) : Bool :=
  isAsciiAlphanumeric b || b∈("_./@+-#?|>".toList.map Char.toUInt8)

def isReferenceSyntax (value : Text) : Bool :=
  match value with
  | '@'::digits => !digits.isEmpty && (utf8 digits).all isAsciiDigit
  | _ => false

def isBareText (value : Text) : Bool :=
  !value.isEmpty && (utf8 value).all isBareByte && !isReferenceSyntax value

/-- A character inside quotes. -/
def writeQuotedChar (c : Char) : Text :=
  if c = '\\' then ['\\','\\']
  else if c = '"' then ['\\','"']
  else if c = '\n' then ['\\','n']
  else if c = '\r' then ['\\','r']
  else if c = '\t' then ['\\','t']
  else if isControl c then ['\\','u','\x7b']++hex c.toNat++['\x7d']
  else [c]

def writeQuoted (value : Text) : Text := '"'::value.flatMap writeQuotedChar++['"']

def writeAtom : Atom → Text
  | .null => ['~']
  | .reference id => '@'::decimal id.toNat
  | .text value => if isBareText value then value else writeQuoted value

/-- Items with commas between them. -/
def commas (items : List Text) : Text := List.intercalate [','] items

def writeVector (atoms : List Atom) : Text := '['::commas (atoms.map writeAtom)++[']']

def writeCell : Cell → Text
  | .atom atom => writeAtom atom
  | .vector atoms => writeVector atoms

def writeRow (row : List Cell) : Text := commas (row.map writeCell)++['\n']

def writeColumns (columns : List Key) : Text := '\x7b'::commas (names columns)++['\x7d']

def writeField (field : Field) : Text :=
  field.key.value++match field.value with
    | .scalar atom => ':'::writeAtom atom++['\n']
    | .vector atoms => ':'::writeVector atoms++['\n']
    | .record record => writeColumns record.columns++[':','\n']++writeRow record.values
    | .table table => '['::decimal table.rows.length++[']']++writeColumns table.columns ++
        [':','\n']++table.rows.flatMap writeRow

def encode (document : Document) : Text := document.fields.flatMap writeField

end Ash.AsonDocuments
