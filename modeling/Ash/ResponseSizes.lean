import Ash.RequestRoundTrip
import Ash.Responses

/-! # Sizes of written responses

Every response is written, and its size is the sum over its fields. -/

namespace Ash.Responses
open ByteCodecs Numerals TextSlices AsonDocuments AsonScalars AsonSizes Outcomes RequestValues
open RequestArguments Requests

/-! ## Numbers -/

theorem byteLength_decimal (n : ℕ) : byteLength (decimal n)=(decimal n).length :=
  byteLength_of_decimalDigits fun _ hc => mem_decimal hc

theorem length_decimal_le_iff {n k : ℕ} (hk : 0 < k) : (decimal n).length ≤ k ↔ n < 10 ^ k :=
  Nat.length_toDigits_le_iff (by decide) hk

theorem length_decimal_uint64 (n : UInt64) : (decimal n.toNat).length ≤ 20 :=
  (length_decimal_le_iff (by decide)).2 (Nat.lt_of_lt_of_le n.toNat_lt (by decide))

theorem cellBytes_optionalReference_le (reference : Option UInt64) :
    cellBytes (optionalReferenceValue reference) ≤ 21 := by
  cases reference with
  | none => decide
  | some ref =>
    have hlen := length_decimal_uint64 ref
    rw [optionalReferenceValue,Option.elim,cellBytes,atomBytes,byteLength_decimal]
    omega

/-! ## Data -/

def ReferenceResult.writtenBytes : ReferenceResult → ℕ
  | .slice result => recordBytes refSliceColumns result.cells
  | .search entries => tableBytes refSearchColumns (entries.map ReferenceMatch.cells)
  | .released reference =>
      recordBytes refReleaseColumns [.atom (.reference reference),unsignedValue 1]
  | .projection table => tableBytes (names table.columns) table.rows
  | .materialized result => recordBytes refMaterializeColumns result.cells

def ResultData.writtenBytes : ResultData → ℕ
  | .exec result => recordBytes execResultColumns result.cells
  | .read results => tableBytes readResultColumns (results.map ReadResult.cells)
  | .list entries => tableBytes listResultColumns (entries.map ListEntry.cells)
  | .search entries => tableBytes searchResultColumns (entries.map SearchMatch.cells)
  | .patch results => tableBytes patchResultColumns (results.map PatchResult.cells)
  | .fs results => tableBytes fsResultColumns (results.map FsResult.cells)
  | .batch results => tableBytes batchResultColumns (results.map BatchNodeResult.cells)
  | .snapshot results => tableBytes snapshotResultColumns (results.map SnapshotResult.cells)
  | .reference result => result.writtenBytes
  | .cancel result => recordBytes cancelResultColumns result.cells

/-- A writer that succeeds, with the size of what it writes. -/
def Writes (writer : Except BuildError Value) (size : ℕ) : Prop :=
  ∃ value, writer=.ok value ∧ valueBytes value=size

theorem writes_record {columns : List Text} (h : GoodNames columns) {cells : List Cell}
    (hwidth : cells.length=columns.length) :
    Writes (recordValue columns cells) (recordBytes columns cells) := by
  obtain ⟨value,hvalue⟩ := recordValue_total h hwidth
  exact ⟨value,hvalue,valueBytes_recordValue hvalue⟩

variable {α : Type}

theorem writes_table {columns : List Text} (h : GoodNames columns) {cells : α → List Cell}
    (hwidth : ∀ a, (cells a).length=columns.length) (items : List α) :
    Writes (tableValue columns (items.map cells)) (tableBytes columns (items.map cells)) := by
  have hrows : ∀ row∈items.map cells, row.length=columns.length := by
    intro row hrow
    obtain ⟨a,-,rfl⟩ := List.mem_map.1 hrow
    exact hwidth a
  obtain ⟨value,hvalue⟩ := tableValue_total h hrows
  exact ⟨value,hvalue,valueBytes_tableValue hvalue⟩

theorem ReferenceResult.writes (result : ReferenceResult) :
    Writes result.encode result.writtenBytes := by
  cases result with
  | slice result => exact writes_record (by decide) rfl
  | search entries => exact writes_table (by decide) (fun _ => rfl) entries
  | released reference => exact writes_record (by decide) rfl
  | projection table => exact ⟨_,rfl,rfl⟩
  | materialized result => exact writes_record (by decide) rfl

theorem ResultData.writes (data : ResultData) : Writes data.encode data.writtenBytes := by
  cases data with
  | exec result => exact writes_record (by decide) rfl
  | read results => exact writes_table (by decide) (fun _ => rfl) results
  | list entries => exact writes_table (by decide) (fun _ => rfl) entries
  | search entries => exact writes_table (by decide) (fun _ => rfl) entries
  | patch results => exact writes_table (by decide) (fun _ => rfl) results
  | fs results => exact writes_table (by decide) (fun _ => rfl) results
  | batch results => exact writes_table (by decide) (fun _ => rfl) results
  | snapshot results => exact writes_table (by decide) (fun _ => rfl) results
  | reference result => exact result.writes
  | cancel result => exact writes_record (by decide) rfl

theorem PathMapping.writes (paths : List PathMapping) :
    Writes (tableValue pathColumns (paths.map PathMapping.cells))
      (tableBytes pathColumns (paths.map PathMapping.cells)) :=
  writes_table (by decide) (fun _ => rfl) paths

theorem ErrorRecord.writes (error : ErrorRecord) :
    Writes (recordValue errorColumns error.cells) (recordBytes errorColumns error.cells) :=
  writes_record (by decide) rfl

/-! ## Responses -/

def scalarBytes (text : Text) : ℕ := 3+atomBytes (.text text)

def FinalResponse.writtenBytes (response : FinalResponse) : ℕ :=
  scalarBytes ['3']+scalarBytes (decimal response.requestId.toNat) +
    scalarBytes (decimal response.status.code.toNat) +
    (if response.paths=[] then 0
      else 1+tableBytes pathColumns (response.paths.map PathMapping.cells)) +
    (response.data.elim 0 fun data => 1+data.writtenBytes) +
    (response.error.elim 0 fun error => 1+recordBytes errorColumns error.cells) +
    scalarBytes (decimal response.flags.toNat)+(3+atomBytes (optionalReference response.reference))

def fieldBytes (field : Field) : ℕ := byteLength field.key.value+valueBytes field.value

theorem byteLength_encode (document : Document) :
    byteLength (AsonDocuments.encode document)=(document.fields.map fieldBytes).sum := by
  rw [AsonDocuments.encode]
  induction document.fields with
  | nil => rfl
  | cons field fields ih =>
    rw [List.flatMap_cons,byteLength_append,ih,byteLength_writeField,List.map_cons,
      List.sum_cons,fieldBytes]

section
variable (key : Text) (hkey : isValidKey key=true) (hsize : byteLength key=1)
include key hkey hsize

theorem valueField_writes {writer : Except BuildError Value} {size : ℕ} (h : Writes writer size) :
    ∃ field, valueField key writer=.ok field ∧ field.key.value=key ∧
      fieldBytes field=1+size := by
  obtain ⟨value,rfl,rfl⟩ := h
  exact ⟨⟨⟨key,hkey⟩,value⟩,valueField_ok.2 ⟨rfl,rfl⟩,rfl,congrArg (· + _) hsize⟩

theorem scalarField_writes (text : Text) :
    ∃ field, scalarField key text=.ok field ∧ field.key.value=key ∧
      fieldBytes field=scalarBytes text := by
  obtain ⟨field,hfield,hname,hbytes⟩ :=
    valueField_writes key hkey hsize ⟨.scalar (.text text),rfl,rfl⟩
  refine ⟨field,hfield,hname,?_⟩
  rw [hbytes,valueBytes,scalarBytes]
  omega

theorem optionalField_writes {write : α → Except BuildError Value} {size : α → ℕ}
    (h : ∀ a, Writes (write a) (size a)) (o : Option α) :
    ∃ fields, optionalField key write o=.ok fields ∧
      (fieldNames fields).Sublist [key] ∧
      (fields.map fieldBytes).sum=o.elim 0 fun a => 1+size a := by
  cases o with
  | none => exact ⟨[],rfl,List.nil_sublist _,rfl⟩
  | some a =>
    obtain ⟨field,hfield,hname,hbytes⟩ := valueField_writes key hkey hsize (h a)
    refine ⟨[field],bind_ok_iff.2 ⟨field,hfield,rfl⟩,?_,?_⟩
    · rw [fieldNames,List.map_singleton,hname]
    · rw [List.map_singleton,List.sum_singleton,hbytes]
      rfl

end

/-- Every response is written, in its size. -/
theorem FinalResponse.encode_writes (response : FinalResponse) :
    ∃ document, response.encode=.ok document ∧
      byteLength (AsonDocuments.encode document)=response.writtenBytes := by
  obtain ⟨t,ht,htname,htbytes⟩ := scalarField_writes ['t'] (by decide) (by decide) ['3']
  obtain ⟨i,hi,hiname,hibytes⟩ := scalarField_writes ['i'] (by decide) (by decide)
    (decimal response.requestId.toNat)
  obtain ⟨s,hs,hsname,hsbytes⟩ := scalarField_writes ['s'] (by decide) (by decide)
    (decimal response.status.code.toNat)
  obtain ⟨p,hp,hpnames,hpbytes⟩ := optionalField_writes ['p'] (by decide) (by decide)
    PathMapping.writes (if response.paths=[] then none else some response.paths)
  obtain ⟨d,hd,hdnames,hdbytes⟩ := optionalField_writes ['d'] (by decide) (by decide)
    ResultData.writes response.data
  obtain ⟨e,he,henames,hebytes⟩ := optionalField_writes ['e'] (by decide) (by decide)
    ErrorRecord.writes response.error
  obtain ⟨z,hz,hzname,hzbytes⟩ := scalarField_writes ['z'] (by decide) (by decide)
    (decimal response.flags.toNat)
  obtain ⟨r,hr,hrname,hrbytes⟩ := valueField_writes ['r'] (by decide) (by decide)
    ⟨.scalar (optionalReference response.reference),rfl,rfl⟩
  have hnames : fieldNames (t::i::s::(p++d++e++[z,r])) =
      [['t'],['i'],['s']]++fieldNames p++fieldNames d++fieldNames e++[['z'],['r']] := by
    simp [fieldNames,htname,hiname,hsname,hzname,hrname]
  have hnodup : (fieldNames (t::i::s::(p++d++e++[z,r]))).Nodup := by
    -- at worst all the optional fields are there
    have hall : [['t'],['i'],['s'],['p'],['d'],['e'],['z'],['r']].Nodup := by decide
    rw [hnames]
    exact hall.sublist ((((List.Sublist.refl _).append hpnames).append hdnames).append henames
      |>.append (List.Sublist.refl _))
  obtain ⟨document,hdoc⟩ : ∃ document, Document.new (t::i::s::(p++d++e++[z,r]))=.ok document :=
    ⟨⟨_,List.cons_ne_nil _ _,hnodup⟩,Document.new_ok.2 rfl⟩
  refine ⟨document,?_,?_⟩
  · simp only [FinalResponse.encode,bind_ok_iff]
    exact ⟨t,ht,i,hi,s,hs,p,hp,d,hd,e,he,z,hz,r,hr,hdoc⟩
  · rw [byteLength_encode,Document.new_ok.1 hdoc]
    simp only [List.map_cons,List.map_append,List.sum_cons,List.sum_append,List.map_nil,
      List.sum_nil,htbytes,hibytes,hsbytes,hpbytes,hdbytes,hebytes,hzbytes,hrbytes]
    rw [FinalResponse.writtenBytes,valueBytes]
    split_ifs <;> simp only [Option.elim] <;> omega

end Ash.Responses
