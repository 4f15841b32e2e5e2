import Ash.OperationErrors
import Ash.ResponseSizes

/-! # Evidence of lists and searches

A response that had to be cut keeps all its rows in the store as one document, from which rows
and columns are fetched by reference. -/

namespace Ash.RetainedEvidence
open AsonDocuments AsonGrammar AsonParser AsonRoundTrip AsonSizes ByteCodecs Numerals
  OperationErrors Outcomes ParserOutcomes Requests RequestValues Responses TextSlices

/-! ## Writing evidence -/

inductive SemanticEntryKind where
  | file | directory | symlink | other
  deriving DecidableEq

structure SemanticEntry where
  path : Bytes
  kind : SemanticEntryKind
  size : UInt64
  deriving DecidableEq

structure SemanticSearchMatch where
  path : Bytes
  line : UInt64
  column : UInt64
  text : Text
  deriving DecidableEq

def protocolPath (path : Bytes) : Except OperationError Text :=
  match decodeUtf8 path with
  | some text => .ok text
  | none => .error (.platform .nonUtf8Path)

def resultEntry (entry : SemanticEntry) (path : UInt64) : ListEntry :=
  ⟨path,match entry.kind with
    | .file => .file
    | .directory => .directory
    | .symlink => .symlink
    | .other => .other,entry.size⟩

def listRow (entry : SemanticEntry) : Except OperationError (List Cell) := do
  let path ← protocolPath entry.path
  return [textValue path,unsignedValue (resultEntry entry 1).kind.code,unsignedValue entry.size]

def searchRow (entry : SemanticSearchMatch) : Except OperationError (List Cell) := do
  let path ← protocolPath entry.path
  return [textValue path,unsignedValue entry.line,unsignedValue entry.column,textValue entry.text]

/-- What a list or a search retains. -/
inductive Evidence where
  | list (entries : List SemanticEntry)
  | search (found : List SemanticSearchMatch)

def Evidence.tag : Evidence → Text
  | .list _ => ['l']
  | .search _ => ['g']

def listColumns : List Text := [['p'],['k'],['z']]
def searchColumns : List Text := [['p'],['l'],['c'],['t']]

def Evidence.columns : Evidence → List Text
  | .list _ => listColumns
  | .search _ => searchColumns

def Evidence.rows : Evidence → Except OperationError (List (List Cell))
  | .list entries => entries.mapM listRow
  | .search found => found.mapM searchRow

def window {α : Type} (rows : List α) (offset length : UInt64) : List α :=
  (rows.drop (min offset.toNat rows.length)).take length.toNat

variable {tag : Text} {columns : List Text} {rows : List (List Cell)} {document : Document}

/-- A document has one line for each row and one more for each field. -/
theorem count_encode_le (document : Document) : (encode document).count '\n' ≤
    (document.fields.map fun field => field.value.rowCount+1).sum := by
  rw [encode_eq,count_blocks (forall₂_lines document),List.length_flatten,List.map_map]
  exact List.sum_le_sum fun field _ => RequestArguments.length_lines_le field

/-- A short text under a short key. -/
theorem fieldWithin_scalar {key : Key} {text : Text} (hkey : byteLength key.value ≤ 128)
    (htext : byteLength text ≤ 128) : FieldWithin defaultLimits ⟨key,.scalar (.text text)⟩ := by
  refine ⟨List.forall_mem_singleton.2 hkey,Nat.zero_le _,Nat.zero_le _,?_⟩
  intro cell hcell
  obtain rfl := List.mem_singleton.1 hcell
  refine ⟨fun atoms hatoms => absurd hatoms List.not_mem_nil,fun a ha => ?_⟩
  rw [List.mem_singleton.1 ha]
  exact htext.trans (by decide : 128 ≤ 1048576)

/-- Rows of single atoms under few short names. -/
structure Slim (columns : List Text) (rows : List (List Cell)) : Prop where
  few : columns.length ≤ 4
  short : ∀ column∈columns, byteLength column ≤ 128
  width : ∀ row∈rows, row.length=columns.length
  atoms : ∀ row∈rows, ∀ cell∈row, cell.atoms.length=1 ∧ cell.vectors=[]

/-- The texts of a cell have at most one mebibyte. -/
def IsSmall (cell : Cell) : Prop := ∀ a∈cell.atoms, a.textBytes ≤ 1048576

theorem Slim.valueCount_le (h : Slim columns rows) :
    (rows.flatten.map fun cell => cell.atoms.length).sum ≤ 4*rows.length := by
  have hone : rows.flatten.map (fun cell => cell.atoms.length) =
      List.replicate rows.flatten.length 1 := by
    refine List.eq_replicate_iff.2 ⟨List.length_map _,?_⟩
    intro count hcount
    obtain ⟨cell,hcell,rfl⟩ := List.mem_map.1 hcount
    obtain ⟨row,hrow,hcell⟩ := List.mem_flatten.1 hcell
    exact (h.atoms row hrow cell hcell).1
  have hwidths : (rows.map List.length).sum ≤ rows.length*4 := by
    refine (List.sum_le_card_nsmul (rows.map List.length) 4 ?_).trans_eq (by simp)
    intro width hwidth
    obtain ⟨row,hrow,rfl⟩ := List.mem_map.1 hwidth
    exact (h.width row hrow).le.trans h.few
  rw [hone,List.sum_replicate_nat,Nat.mul_one,List.length_flatten]
  omega

variable {k d : Key} {table : Table} {selected : List Text} {α : Type}

variable {source : Table} {name : Text} {offset length : UInt64}

theorem isSmall_textValue {text : Text} : IsSmall (textValue text) ↔ byteLength text ≤ 1048576 :=
  List.forall_mem_singleton

theorem isSmall_unsignedValue (value : UInt64) : IsSmall (unsignedValue value) := by
  refine List.forall_mem_singleton.2 ?_
  have hlen := length_decimal_uint64 value
  rw [unsignedText,Atom.textBytes,byteLength_decimal]
  omega

end Ash.RetainedEvidence
