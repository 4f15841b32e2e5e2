import Ash.AsonRoundTrip
import Ash.Outcomes

/-! # Values of requests

How the fields of a request are read, written and checked.  Each reader accepts just what
the writer beside it writes. -/

namespace Ash.RequestValues
open ByteCodecs Numerals TextSlices AsonDocuments AsonHeaders ParserOutcomes Outcomes

inductive RequestError where
  | fields
  | expectedScalar (field : String)
  | expectedRecord (field : String)
  | expectedTable (field : String)
  | expectedVector (field : String)
  | columns
  | invalidUnsigned (field : String)
  | integerRange (field : String)
  | unexpectedValue (field : String)
  | invalidLimit (field : String)
  | invalidText (field : String)
  | unsupportedOperation
  deriving DecidableEq

abbrev Checked := Fallible RequestError

/-! ## Operations -/

inductive Operation where
  | exec | read | list | search | patch | fs | batch
  | refBytes | refLines | refSearch | refRelease | refProject | refMaterialize
  | snapshot | cancel
  deriving DecidableEq

/-- The byte that stands for an operation. -/
def Operation.id : Operation → UInt8
  | .exec => 'x'.toUInt8
  | .read => 'r'.toUInt8
  | .list => 'l'.toUInt8
  | .search => 'g'.toUInt8
  | .patch => 'p'.toUInt8
  | .fs => 'f'.toUInt8
  | .batch => 'b'.toUInt8
  | .refBytes => '/'.toUInt8
  | .refLines => '#'.toUInt8
  | .refSearch => '?'.toUInt8
  | .refRelease => '-'.toUInt8
  | .refProject => '|'.toUInt8
  | .refMaterialize => '>'.toUInt8
  | .snapshot => 's'.toUInt8
  | .cancel => 'k'.toUInt8

def Operation.fromId (id : UInt8) : Option Operation :=
  if id = 'x'.toUInt8 then some .exec
  else if id = 'r'.toUInt8 then some .read
  else if id = 'l'.toUInt8 then some .list
  else if id = 'g'.toUInt8 then some .search
  else if id = 'p'.toUInt8 then some .patch
  else if id = 'f'.toUInt8 then some .fs
  else if id = 'b'.toUInt8 then some .batch
  else if id = '/'.toUInt8 then some .refBytes
  else if id = '#'.toUInt8 then some .refLines
  else if id = '?'.toUInt8 then some .refSearch
  else if id = '-'.toUInt8 then some .refRelease
  else if id = '|'.toUInt8 then some .refProject
  else if id = '>'.toUInt8 then some .refMaterialize
  else if id = 's'.toUInt8 then some .snapshot
  else if id = 'k'.toUInt8 then some .cancel
  else none

def Operation.isReferenceFormula : Operation → Bool
  | .refBytes | .refLines | .refSearch | .refRelease | .refProject | .refMaterialize => true
  | _ => false

/-- The identifier of an operation as a text of one character. -/
def Operation.text (operation : Operation) : Text := [Char.ofNat operation.id.toNat]

/-- The operation that a text of one byte names. -/
def operationOf (text : Text) : Checked Operation :=
  match ((utf8 text).head?.filter fun _ => byteLength text == 1).bind Operation.fromId with
  | some operation => .ok operation
  | none => .fail .unsupportedOperation

theorem Operation.fromId_id (operation : Operation) :
    Operation.fromId operation.id=some operation := by
  cases operation <;> decide

private theorem of_ite_some {α : Type} {c : Prop} [Decidable c] {a b : α} {r : Option α}
    (h : (if c then some a else r)=some b) : (c ∧ a=b) ∨ r=some b := by
  split at h
  · next hc => exact .inl ⟨hc,Option.some.inj h⟩
  · exact .inr h

theorem Operation.fromId_eq_some {id : UInt8} {operation : Operation} :
    Operation.fromId id=some operation ↔ id=operation.id := by
  constructor
  · intro h
    -- one case for each operation, in the order of the chain
    iterate 15
      obtain ⟨hid,rfl⟩ | h := of_ite_some h
      · exact hid
    cases h
  · rintro rfl
    exact operation.fromId_id

theorem Operation.id_lt (operation : Operation) : operation.id.toNat < 128 := by
  cases operation <;> decide

/-- A text of one byte is one ASCII character. -/
theorem eq_singleton_of_byteLength {text : Text} (h : byteLength text=1) :
    ∃ c : Char, text=[c] ∧ c.toNat < 128 := by
  cases text with
  | nil => cases h
  | cons c rest =>
    rw [byteLength_cons] at h
    have hpos := c.utf8Size_pos
    have hrest : rest=[] := byteLength_eq_zero.1 (by omega)
    have hsize : c.utf8Size=1 := by omega
    have hle : c.toNat ≤ 127 := UInt32.le_iff_toNat_le.1 (Char.utf8Size_eq_one_iff.1 hsize)
    exact ⟨c,by rw [hrest],by omega⟩

theorem utf8_ascii {c : Char} (h : c.toNat < 128) : utf8 [c]=[UInt8.ofNat c.toNat] := by
  simp [utf8,utf8EncodeChar_ascii h]

theorem operationOf_ok {text : Text} {operation : Operation} :
    operationOf text=.ok operation ↔ text=operation.text := by
  have hid := operation.id_lt
  have hchar : (Char.ofNat operation.id.toNat).toNat=operation.id.toNat := by
    cases operation <;> decide
  unfold operationOf
  constructor
  · intro h
    split at h
    · next found hfound =>
      obtain rfl := Except.ok.inj h
      obtain ⟨b,hb,hop⟩ := Option.bind_eq_some_iff.1 hfound
      obtain ⟨hhead,hlen⟩ := Option.filter_eq_some_iff.1 hb
      obtain ⟨c,rfl,hc⟩ := eq_singleton_of_byteLength (by simpa using hlen)
      rw [utf8_ascii hc,List.head?_cons,Option.some.injEq] at hhead
      rw [Operation.fromId_eq_some,← hhead] at hop
      have hnat : c.toNat=found.id.toNat := by
        rw [← hop,UInt8.toNat_ofNat']
        omega
      rw [Operation.text,← hnat,Char.ofNat_toNat]
    · cases h
  · rintro rfl
    have hbytes : utf8 operation.text=[operation.id] := by
      rw [Operation.text,utf8_ascii (by omega),hchar,UInt8.ofNat_toNat]
    have hlen : byteLength operation.text=1 := by
      rw [← length_utf8_eq_byteLength,hbytes]
      rfl
    rw [hbytes,hlen]
    change (match Operation.fromId operation.id with
      | some operation => (.ok operation : Checked Operation)
      | none => Fallible.fail .unsupportedOperation)=_
    rw [operation.fromId_id]

/-! ## Cells -/

def unsignedAtom (atom : Atom) (field : String) : Checked UInt64 :=
  match atom with
  | .text value =>
      if value=[] ∨ (utf8 value).all isAsciiDigit=false ∨
          (1 < byteLength value ∧ value.head?=some '0') then .fail (.invalidUnsigned field)
      else if ofDecimal value < 2 ^ 64 then .ok (UInt64.ofNat (ofDecimal value))
      else .fail (.invalidUnsigned field)
  | _ => .fail (.invalidUnsigned field)

/-- A number as an atom. -/
def unsignedText (value : UInt64) : Atom := .text (decimal value.toNat)

theorem unsignedAtom_ok {atom : Atom} {field : String} {value : UInt64} :
    unsignedAtom atom field=.ok value ↔ atom=unsignedText value := by
  cases atom with
  | null | reference => simp [unsignedAtom,unsignedText,Fallible.fail]
  | text source =>
    simp only [unsignedAtom,unsignedText,Atom.text.injEq]
    constructor
    · intro h
      split at h
      · cases h
      · next hform =>
        split at h
        · next hlt =>
          have hcan := decimal_ofDecimal (rowCount_canonical.1 hform)
          rw [← Except.ok.inj h,UInt64.toNat_ofNat_of_lt' hlt,hcan]
        · cases h
    · rintro rfl
      rw [if_neg (rowCount_canonical.2 (isCanonicalNumeral_decimal _)),ofDecimal_decimal,
        if_pos value.toNat_lt,UInt64.ofNat_toNat]

def unsignedCell (cell : Cell) (field : String) : Checked UInt64 :=
  match cell with
  | .atom atom => unsignedAtom atom field
  | .vector _ => .fail (.expectedScalar field)

def unsignedValue (value : UInt64) : Cell := .atom (unsignedText value)

@[simp] theorem unsignedCell_ok {cell : Cell} {field : String} {value : UInt64} :
    unsignedCell cell field=.ok value ↔ cell=unsignedValue value := by
  cases cell with
  | atom atom => simp [unsignedCell,unsignedValue,unsignedAtom_ok]
  | vector atoms => simp [unsignedCell,unsignedValue,Fallible.fail]

def unsigned (value : Option Value) (field : String) : Checked UInt64 :=
  match value with
  | some (.scalar atom) => unsignedAtom atom field
  | _ => .fail (.expectedScalar field)

@[simp] theorem unsigned_ok {value : Option Value} {field : String} {n : UInt64} :
    unsigned value field=.ok n ↔ value=some (.scalar (unsignedText n)) := by
  unfold unsigned
  split
  · simp [unsignedAtom_ok]
  · next hno => exact error_ok_iff fun h => hno _ h

def expectUnsigned (value : Option Value) (field : String) (expected : UInt64) : Checked Unit := do
  let found ← unsigned value field
  require (found=expected) (.error (.unexpectedValue field))

variable {u : Unit} {values expected : List Text}

@[simp] theorem expectUnsigned_ok {value : Option Value} {field : String} {expected : UInt64} :
    expectUnsigned value field expected=.ok u ↔
      value=some (.scalar (unsignedText expected)) := by
  simp [expectUnsigned,bind_ok_iff]

def text (value : Option Value) (field : String) : Checked Text :=
  match value with
  | some (.scalar (.text value)) => .ok value
  | _ => .fail (.expectedScalar field)

@[simp] theorem text_ok {value : Option Value} {field : String} {t : Text} :
    text value field=.ok t ↔ value=some (.scalar (.text t)) := by
  unfold text
  split
  · simp
  · next hno => exact error_ok_iff fun h => hno _ h

def textCell (cell : Cell) (field : String) : Checked Text :=
  match cell with
  | .atom (.text value) => .ok value
  | _ => .fail (.expectedScalar field)

def textValue (value : Text) : Cell := .atom (.text value)

@[simp] theorem textCell_ok {cell : Cell} {field : String} {value : Text} :
    textCell cell field=.ok value ↔ cell=textValue value := by
  unfold textCell textValue
  split
  · simp
  · next hno => exact error_ok_iff fun h => hno _ h

def nullValue : Cell := .atom .null

def optionalTextCell (cell : Cell) (field : String) : Checked (Option Text) :=
  match cell with
  | .atom .null => .ok none
  | .atom (.text value) => .ok (some value)
  | _ => .fail (.expectedScalar field)

/-- A text or null. -/
def optionalTextValue (value : Option Text) : Cell := value.elim nullValue textValue

@[simp] theorem optionalTextCell_ok {cell : Cell} {field : String} {value : Option Text} :
    optionalTextCell cell field=.ok value ↔ cell=optionalTextValue value := by
  unfold optionalTextCell
  split
  · cases value <;> simp [optionalTextValue,nullValue,textValue]
  · cases value <;> simp [optionalTextValue,nullValue,textValue]
  · next hnull htext =>
    simp only [Fallible.fail,reduceCtorEq,false_iff]
    rintro rfl
    cases value with
    | none => exact hnull rfl
    | some value => exact htext value rfl

def optionalReferenceCell (cell : Cell) (field : String) : Checked (Option UInt64) :=
  match cell with
  | .atom .null => .ok none
  | .atom (.reference id) => if id≠0 then .ok (some id) else .fail (.invalidUnsigned field)
  | _ => .fail (.invalidUnsigned field)

/-- A reference or null. -/
def optionalReferenceValue (value : Option UInt64) : Cell :=
  value.elim nullValue fun id => .atom (.reference id)

@[simp] theorem optionalReferenceCell_ok {cell : Cell} {field : String} {value : Option UInt64} :
    optionalReferenceCell cell field=.ok value ↔
      cell=optionalReferenceValue value ∧ value≠some 0 := by
  unfold optionalReferenceCell
  split
  · cases value <;> simp [optionalReferenceValue,nullValue]
  · next id =>
    split
    · next hid =>
      cases value with
      | none => simp [optionalReferenceValue,nullValue]
      | some other =>
        simp only [Except.ok.injEq,Option.some.injEq,optionalReferenceValue,Option.elim_some,
          Cell.atom.injEq,Atom.reference.injEq]
        constructor
        · rintro rfl
          exact ⟨rfl,by simpa using hid⟩
        · exact And.left
    · next hid =>
      simp only [Fallible.fail,reduceCtorEq,false_iff,not_and,not_not]
      cases value with
      | none => simp [optionalReferenceValue,nullValue]
      | some other =>
        intro h
        simp only [optionalReferenceValue,Option.elim_some,Cell.atom.injEq,
          Atom.reference.injEq] at h
        rw [← h,not_not.1 hid]
  · next hnull href =>
    simp only [Fallible.fail,reduceCtorEq,false_iff,not_and]
    rintro rfl
    cases value with
    | none => exact absurd rfl hnull
    | some id => exact absurd rfl (href id)

/-! ## Vectors -/

def textItem (atom : Atom) (field : String) : Checked Text :=
  match atom with
  | .text value => .ok value
  | _ => .fail (.invalidText field)

@[simp] theorem textItem_ok {atom : Atom} {field : String} {value : Text} :
    textItem atom field=.ok value ↔ atom=.text value := by
  cases atom <;> simp [textItem,Fallible.fail]

def atomVector (cell : Cell) (field : String) : Checked (List Atom) :=
  match cell with
  | .vector atoms => .ok atoms
  | .atom _ => .fail (.expectedVector field)

@[simp] theorem atomVector_ok {cell : Cell} {field : String} {atoms : List Atom} :
    atomVector cell field=.ok atoms ↔ cell=.vector atoms := by
  cases cell <;> simp [atomVector,Fallible.fail]

def textVector (cell : Cell) (field : String) : Checked (List Text) := do
  let atoms ← atomVector cell field
  atoms.mapM (textItem · field)

def textVectorValue (values : List Text) : Cell := .vector (values.map Atom.text)

@[simp] theorem textItems_ok {atoms : List Atom} {field : String} :
    atoms.mapM (textItem · field)=.ok values ↔ atoms=values.map Atom.text := by
  have h := mapM_ok_iff_map (f := (textItem · field)) (g := Atom.text) (C := fun _ => True)
    (fun a b => by simp) atoms values
  simpa using h

@[simp] theorem textVector_ok {cell : Cell} {field : String} :
    textVector cell field=.ok values ↔ cell=textVectorValue values := by
  simp [textVector,bind_ok_iff,textVectorValue]

def unsignedVector (cell : Cell) (field : String) : Checked (List UInt64) := do
  let atoms ← atomVector cell field
  atoms.mapM (unsignedAtom · field)

def unsignedVectorValue (values : List UInt64) : Cell := .vector (values.map unsignedText)

@[simp] theorem unsignedVector_ok {cell : Cell} {field : String} {values : List UInt64} :
    unsignedVector cell field=.ok values ↔ cell=unsignedVectorValue values := by
  have hitems : ∀ atoms : List Atom, atoms.mapM (unsignedAtom · field)=.ok values ↔
      atoms=values.map unsignedText := fun atoms => by
    have h := mapM_ok_iff_map (f := (unsignedAtom · field)) (g := unsignedText) (C := fun _ => True)
      (fun a b => by simp [unsignedAtom_ok]) atoms values
    simpa using h
  simp [unsignedVector,bind_ok_iff,hitems,unsignedVectorValue]

/-! ## Narrow numbers -/

def narrowU16 (value : UInt64) (field : String) : Checked UInt16 :=
  if value.toNat < 2 ^ 16 then .ok value.toUInt16 else .fail (.integerRange field)

def narrowU32 (value : UInt64) (field : String) : Checked UInt32 :=
  if value.toNat < 2 ^ 32 then .ok value.toUInt32 else .fail (.integerRange field)

@[simp] theorem narrowU16_ok {value : UInt64} {field : String} {n : UInt16} :
    narrowU16 value field=.ok n ↔ value=n.toUInt64 := by
  unfold narrowU16
  split
  · next h =>
    rw [Except.ok.injEq]
    constructor
    · rintro rfl
      apply UInt64.toNat_inj.1
      simp
      omega
    · rintro rfl
      simp
  · next h =>
    simp only [Fallible.fail,reduceCtorEq,false_iff]
    rintro rfl
    have := n.toNat_lt
    simp at h
    omega

@[simp] theorem narrowU32_ok {value : UInt64} {field : String} {n : UInt32} :
    narrowU32 value field=.ok n ↔ value=n.toUInt64 := by
  unfold narrowU32
  split
  · next h =>
    rw [Except.ok.injEq]
    constructor
    · rintro rfl
      apply UInt64.toNat_inj.1
      simp
      omega
    · rintro rfl
      simp
  · next h =>
    simp only [Fallible.fail,reduceCtorEq,false_iff]
    rintro rfl
    have := n.toNat_lt
    simp at h
    omega

/-! ## Names -/

/-- Names in the expected order and no others. -/
def sameNames (found expected : List Text) : Bool :=
  found.length == expected.length && (found.zip expected).all fun names => names.1 == names.2

theorem sameNames_iff {found : List Text} : sameNames found expected=true ↔ found=expected := by
  induction found generalizing expected with
  | nil => cases expected <;> simp [sameNames]
  | cons name found ih =>
    cases expected with
    | nil => simp [sameNames]
    | cons other expected =>
      have hrest : sameNames (name::found) (other::expected) =
          ((name == other) && sameNames found expected) := by
        simp only [sameNames,List.length_cons,List.zip_cons_cons,List.all_cons]
        cases hname : (name == other) <;> simp
      rw [hrest,Bool.and_eq_true,ih,beq_iff_eq,List.cons.injEq]

def expectFields (document : Document) (expected : List Text) : Checked Unit :=
  require (sameNames (fieldNames document.fields) expected=true) (.error .fields)

def expectColumns (columns : List Key) (expected : List Text) : Checked Unit :=
  require (sameNames (names columns) expected=true) (.error .columns)

@[simp] theorem expectFields_ok {document : Document} :
    expectFields document expected=.ok u ↔ fieldNames document.fields=expected := by
  rw [expectFields,require_ok_iff,sameNames_iff]

@[simp] theorem expectColumns_ok {columns : List Key} :
    expectColumns columns expected=.ok u ↔ names columns=expected := by
  rw [expectColumns,require_ok_iff,sameNames_iff]

def keys (values : List Text) : Except BuildError (List Key) := values.mapM Key.new

theorem keys_ok {columns : List Key} : keys values=.ok columns ↔ names columns=values := by
  have h := mapM_ok_iff_map (f := Key.new) (g := Key.value) (C := fun _ => True)
    (fun a b => by simp) values columns
  rw [keys,h,names]
  simp [eq_comm]

/-! ## Writing values -/

def scalarField (key : Text) (value : Text) : Except BuildError Field := do
  let key ← Key.new key
  return ⟨key,.scalar (.text value)⟩

theorem scalarField_ok {key value : Text} {field : Field} :
    scalarField key value=.ok field ↔ field.key.value=key ∧ field.value=.scalar (.text value) := by
  obtain ⟨found,content⟩ := field
  simp only [scalarField,bind_ok_iff,pure_ok_iff,Key.new_ok,Field.mk.injEq]
  constructor
  · rintro ⟨key',rfl,rfl,rfl⟩
    exact ⟨rfl,rfl⟩
  · rintro ⟨rfl,rfl⟩
    exact ⟨found,rfl,rfl,rfl⟩

/-- A record with the given columns. -/
def recordValue (columns : List Text) (cells : List Cell) : Except BuildError Value := do
  let columns ← keys columns
  let record ← Record.new columns cells
  return .record record

theorem recordValue_ok {columns : List Text} {cells : List Cell} {value : Value} :
    recordValue columns cells=.ok value ↔
      ∃ record, value=.record record ∧ names record.columns=columns ∧ record.values=cells := by
  simp only [recordValue,bind_ok_iff,pure_ok_iff,keys_ok,Record.new_ok]
  constructor
  · rintro ⟨_,rfl,record,⟨rfl,rfl⟩,rfl⟩
    exact ⟨record,rfl,rfl,rfl⟩
  · rintro ⟨record,rfl,rfl,rfl⟩
    exact ⟨record.columns,rfl,record,⟨rfl,rfl⟩,rfl⟩

@[simp] theorem recordValue_record {columns : List Text} {cells : List Cell} {record : Record} :
    recordValue columns cells=.ok (.record record) ↔
      names record.columns=columns ∧ record.values=cells := by
  rw [recordValue_ok]
  constructor
  · rintro ⟨other,h,rfl,rfl⟩
    cases h
    exact ⟨rfl,rfl⟩
  · rintro ⟨rfl,rfl⟩
    exact ⟨record,rfl,rfl,rfl⟩

/-- A table with the given columns. -/
def tableValue (columns : List Text) (rows : List (List Cell)) : Except BuildError Value := do
  let columns ← keys columns
  let table ← Table.new columns rows
  return .table table

theorem tableValue_ok {columns : List Text} {rows : List (List Cell)} {value : Value} :
    tableValue columns rows=.ok value ↔
      ∃ table, value=.table table ∧ names table.columns=columns ∧ table.rows=rows := by
  simp only [tableValue,bind_ok_iff,pure_ok_iff,keys_ok,Table.new_ok]
  constructor
  · rintro ⟨_,rfl,table,⟨rfl,rfl⟩,rfl⟩
    exact ⟨table,rfl,rfl,rfl⟩
  · rintro ⟨table,rfl,rfl,rfl⟩
    exact ⟨table.columns,rfl,table,⟨rfl,rfl⟩,rfl⟩

@[simp] theorem tableValue_table {columns : List Text} {rows : List (List Cell)} {table : Table} :
    tableValue columns rows=.ok (.table table) ↔
      names table.columns=columns ∧ table.rows=rows := by
  rw [tableValue_ok]
  constructor
  · rintro ⟨other,h,rfl,rfl⟩
    cases h
    exact ⟨rfl,rfl⟩
  · rintro ⟨rfl,rfl⟩
    exact ⟨table,rfl,rfl,rfl⟩

/-- Names that a schema may use for its columns. -/
structure GoodNames (columns : List Text) : Prop where
  nonempty : columns≠[]
  distinct : columns.Nodup
  valid : columns.all isValidKey=true

instance (columns : List Text) : Decidable (GoodNames columns) :=
  decidable_of_iff (columns≠[] ∧ columns.Nodup ∧ columns.all isValidKey=true)
    ⟨fun h => ⟨h.1,h.2.1,h.2.2⟩,fun h => ⟨h.nonempty,h.distinct,h.valid⟩⟩

theorem GoodNames.exists_keys {columns : List Text} (h : GoodNames columns) :
    ∃ keys : List Key, names keys=columns ∧ WellNamed keys := by
  have hkeys : ∀ names' : List Text, names'.all isValidKey=true →
      ∃ keys : List Key, names keys=names' := by
    intro names' hall
    induction names' with
    | nil => exact ⟨[],rfl⟩
    | cons name rest ih =>
      rw [List.all_cons,Bool.and_eq_true] at hall
      obtain ⟨keys,hkeys⟩ := ih hall.2
      exact ⟨⟨name,hall.1⟩::keys,congrArg (name :: ·) hkeys⟩
  obtain ⟨keys,rfl⟩ := hkeys columns h.valid
  refine ⟨keys,rfl,?_,h.distinct⟩
  rintro rfl
  exact h.nonempty rfl

theorem recordValue_total {columns : List Text} (h : GoodNames columns) {cells : List Cell}
    (hwidth : cells.length=columns.length) : ∃ value, recordValue columns cells=.ok value := by
  obtain ⟨keys,rfl,hnamed⟩ := h.exists_keys
  exact ⟨_,recordValue_ok.2 ⟨⟨keys,cells,hnamed,by simpa [names] using hwidth⟩,rfl,rfl,rfl⟩⟩

theorem tableValue_total {columns : List Text} (h : GoodNames columns) {rows : List (List Cell)}
    (hwidth : ∀ row∈rows, row.length=columns.length) :
    ∃ value, tableValue columns rows=.ok value := by
  obtain ⟨keys,rfl,hnamed⟩ := h.exists_keys
  exact ⟨_,tableValue_ok.2 ⟨⟨keys,rows,hnamed,by simpa [names] using hwidth⟩,rfl,rfl,rfl⟩⟩

/-! ## Checks -/

def validateBoundedText (value : Text) (field : String) (max : ℕ) : Checked Unit :=
  if max < byteLength value ∨ '\x00'∈value then .fail (.invalidText field) else .ok ()

def validateText (value : Text) (field : String) (max : ℕ) : Checked Unit :=
  if value=[] then .fail (.invalidText field) else validateBoundedText value field max

def validateTextItems (values : List Text) (field : String) (maxItems maxItemBytes : ℕ) :
    Checked Unit := do
  require (values.length ≤ maxItems) (.error (.invalidLimit field))
  each (validateBoundedText · field maxItemBytes) values

def validatePaths (paths : List Text) : Checked Unit := do
  require (paths≠[] ∧ paths.length ≤ 256) (.error (.invalidLimit "p"))
  validateTextItems paths "p" 256 4096
  require ([]∉paths) (.error (.invalidText "p"))

def validDigest (digest : Text) : Bool :=
  byteLength digest == 64 && (utf8 digest).all fun b => isAsciiDigit b || (97 ≤ b && b ≤ 102)

def validateFlags (flags allowed : UInt32) : Checked Unit :=
  require (flags &&& ~~~ allowed=0) (.error (.unexpectedValue "f"))

def validEnvironmentName (name : Text) : Bool :=
  match utf8 name with
  | [] => false
  | first::rest => (isAsciiAlphabetic first || first == '_'.toUInt8) &&
      rest.all fun b => isAsciiAlphanumeric b || b == '_'.toUInt8

/-- The name that an entry of the environment sets, or unsets after a minus sign. -/
def environmentName (entry : Text) : Option Text :=
  match entry with
  | '-'::name => some name
  | _ => (splitOnce '=' entry).map Prod.fst

def environmentLoop : List Text → List Text → Checked Unit
  | [], _ => .ok ()
  | entry::entries, seen =>
      match environmentName entry with
      | none => .fail (.invalidText "e")
      | some name =>
          if validEnvironmentName name=false ∨ name∈seen then .fail (.invalidText "e")
          else environmentLoop entries (name::seen)

def validateEnvironment (environment : List Text) : Checked Unit := do
  validateTextItems environment "e" 256 (32*1024)
  environmentLoop environment []

theorem validateTextItems_length {field : String} {maxItems maxItemBytes : ℕ}
    (h : validateTextItems values field maxItems maxItemBytes=.ok u) :
    values.length ≤ maxItems := by
  rw [validateTextItems,bind_unit_ok_iff,require_ok_iff] at h
  exact h.1

theorem validatePaths_length {paths : List Text} (h : validatePaths paths=.ok u) :
    paths.length ≤ 256 := by
  rw [validatePaths,bind_unit_ok_iff,require_ok_iff] at h
  exact h.1.2

end Ash.RequestValues
