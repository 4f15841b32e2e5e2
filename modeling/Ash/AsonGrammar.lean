import Ash.AsonParser

/-! # The ASON grammar

The documented syntax as relations between a text and the value it stands for, and the
nine ceilings measured on a text and its document. -/

namespace Ash.AsonGrammar
open ByteCodecs Numerals TextSlices AsonDocuments AsonParser

def letters : List Char := "ABCDEFGHIJKLMNOPQRSTUVWXYZabcdefghijklmnopqrstuvwxyz".toList

def decimalDigits : List Char := "0123456789".toList

def bareChars : List Char := letters++decimalDigits ++ "_./@+-#?|>".toList

def keyChars : List Char := letters++decimalDigits ++ "_.-".toList

/-- Keys: a letter or `_`, then letters, digits, `_`, `.` and `-`. -/
def KeyText (text : Text) : Prop :=
  ∃ first rest, text=first::rest ∧ (first∈letters ∨ first = '_') ∧ ∀ c∈rest, c∈keyChars

/-- The five escapes of one letter. -/
def ShortEscape (escape plain : Char) : Prop :=
  (escape,plain)∈[('\\','\\'),('"','"'),('n','\n'),('r','\r'),('t','\t')]

/-- One character between quotes. -/
inductive QuotedChar : Text → Char → Prop
  | plain {c} (hquote : c ≠ '"') (hslash : c ≠ '\\') (hctl : isControl c=false) :
      QuotedChar [c] c
  | short {escape c} (h : ShortEscape escape c) : QuotedChar ['\\',escape] c
  | unicode {c} {number : Text} (hne : number≠[]) (hlen : number.length ≤ 6)
      (hhex : ∀ d∈number, isHexDigit d=true) (hc : ofHex number=c.toNat) :
      QuotedChar ('\\' :: 'u' :: '\x7b'::number++['\x7d']) c

/-- What stands between quotes. -/
inductive QuotedText : Text → Text → Prop
  | nil : QuotedText [] []
  | cons {c first source value} (hc : QuotedChar first c)
      (h : QuotedText source value) : QuotedText (first++source) (c::value)

/-- `@` and digits. -/
def ReferenceText (text : Text) : Prop :=
  ∃ number, number≠[] ∧ (∀ c∈number, c∈decimalDigits) ∧ text = '@'::number

inductive AtomText : Text → Atom → Prop
  | null : AtomText ['~'] .null
  | reference (id : UInt64) : AtomText ('@'::decimal id.toNat) (.reference id)
  | bare {value : Text} (hne : value≠[]) (hbare : ∀ c∈value, c∈bareChars)
      (href : ¬ ReferenceText value) : AtomText value (.text value)
  | quoted {source value} (h : QuotedText source value) :
      AtomText ('"'::source++['"']) (.text value)

def VectorText (text : Text) (atoms : List Atom) : Prop :=
  ∃ items, List.Forall₂ AtomText items atoms ∧ text = '['::commas items++[']']

inductive CellText : Text → Cell → Prop
  | atom {text a} (h : AtomText text a) : CellText text (.atom a)
  | vector {text atoms} (h : VectorText text atoms) : CellText text (.vector atoms)

def RowText (text : Text) (cells : List Cell) : Prop :=
  ∃ items, List.Forall₂ CellText items cells ∧ text=commas items

/-- The lines of a field. -/
inductive FieldLines : List Text → Field → Prop
  | scalar {key text a} (hkey : KeyText key.value) (h : AtomText text a) :
      FieldLines [key.value ++ ':'::text] ⟨key,.scalar a⟩
  | vector {key text atoms} (hkey : KeyText key.value)
      (h : VectorText text atoms) : FieldLines [key.value ++ ':'::text] ⟨key,.vector atoms⟩
  | record {key text record} (hkey : KeyText key.value)
      (hcols : ∀ column∈record.columns, KeyText column.value) (h : RowText text record.values) :
      FieldLines [key.value++writeColumns record.columns++[':'],text] ⟨key,.record record⟩
  | table {key texts table} (hkey : KeyText key.value)
      (hcols : ∀ column∈table.columns, KeyText column.value)
      (h : List.Forall₂ RowText texts table.rows) :
      FieldLines ((key.value ++ '['::decimal table.rows.length++[']'] ++
        writeColumns table.columns++[':'])::texts) ⟨key,.table table⟩

/-- Lines, each ended by a line feed. -/
def unlines (lines : List Text) : Text := lines.flatMap fun line => line++['\n']

/-- The text of a document: the lines of its fields in order. -/
def DocumentText (text : Text) (document : Document) : Prop :=
  ∃ blocks, List.Forall₂ FieldLines blocks document.fields ∧ text=unlines blocks.flatten ∧
    '\r'∉text

/-! ## Ceilings -/

structure CellWithin {bits : ℕ} (limits : Limits bits) (cell : Cell) : Prop where
  vectorItems : ∀ atoms∈cell.vectors, atoms.length ≤ limits.maxVectorItems
  scalarBytes : ∀ a∈cell.atoms, a.textBytes ≤ limits.maxScalarBytes

structure FieldWithin {bits : ℕ} (limits : Limits bits) (field : Field) : Prop where
  keyBytes : ∀ key∈field.key::field.value.columns,
    byteLength key.value ≤ limits.maxKeyBytes
  columns : field.value.columns.length ≤ limits.maxColumns
  rows : field.value.rowCount ≤ limits.maxRows
  cells : ∀ cell∈field.value.cells, CellWithin limits cell

/-- A document and its text keep within all nine ceilings. -/
structure Within {bits : ℕ} (limits : Limits bits) (text : Text) (document : Document) : Prop where
  bytes : byteLength text ≤ limits.maxBytes
  lines : text.count '\n' ≤ limits.maxLines
  fields : document.fields.length ≤ limits.maxFields
  each : ∀ field∈document.fields, FieldWithin limits field
  values : (document.fields.map Field.valueCount).sum ≤ limits.maxValues

end Ash.AsonGrammar
