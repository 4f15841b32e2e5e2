import Ash.AsonRoundTrip
import Mathlib.Algebra.Order.BigOperators.Group.List

/-! # Sizes of written documents

How many bytes a document takes, counted by its parts. -/

namespace Ash.AsonSizes
open ByteCodecs Numerals TextSlices AsonDocuments AsonParser AsonItems AsonRows AsonFields
open AsonRoundTrip

def quotedCharBytes (c : Char) : ℕ :=
  if c∈['\\','"','\n','\r','\t'] then 2
  else if isControl c then 4+(hex c.toNat).length
  else c.utf8Size

def atomBytes : Atom → ℕ
  | .null => 1
  | .reference id => 1+byteLength (decimal id.toNat)
  | .text value =>
      if isBareText value then byteLength value else 2+(value.map quotedCharBytes).sum

/-- Each item comes with a comma or the closing bracket. -/
def vectorBytes (atoms : List Atom) : ℕ :=
  if atoms=[] then 2 else 1+(atoms.map fun a => atomBytes a+1).sum

def cellBytes : Cell → ℕ
  | .atom a => atomBytes a
  | .vector atoms => vectorBytes atoms

/-- Each cell comes with a comma or the line feed. -/
def rowBytes (cells : List Cell) : ℕ := (cells.map fun cell => cellBytes cell+1).sum

def columnsBytes (columns : List Text) : ℕ := 1+(columns.map fun name => byteLength name+1).sum

def inlineVectorBytes (atoms : List Atom) : ℕ := vectorBytes atoms+2

def recordBytes (columns : List Text) (cells : List Cell) : ℕ :=
  columnsBytes columns+rowBytes cells+2

def tableBytes (columns : List Text) (rows : List (List Cell)) : ℕ :=
  byteLength (decimal rows.length)+columnsBytes columns+(rows.map rowBytes).sum+4

/-! ## The sizes are those of the texts -/

theorem byteLength_writeQuotedChar_eq (c : Char) :
    byteLength (writeQuotedChar c)=quotedCharBytes c := by
  unfold writeQuotedChar quotedCharBytes
  by_cases hshort : c∈['\\','"','\n','\r','\t']
  · rw [if_pos hshort]
    simp only [List.mem_cons,List.not_mem_nil,or_false] at hshort
    rcases hshort with rfl | rfl | rfl | rfl | rfl <;> decide
  · rw [if_neg hshort]
    simp only [List.mem_cons,List.not_mem_nil,or_false,not_or] at hshort
    obtain ⟨hslash,hquote,hline,hreturn,htab⟩ := hshort
    rw [if_neg hslash,if_neg hquote,if_neg hline,if_neg hreturn,if_neg htab]
    split
    · exact byteLength_unicode _ fun d hd => isHexDigit_of_mem_hex hd
    · simp

theorem byteLength_writeQuoted_eq (value : Text) :
    byteLength (writeQuoted value)=2+(value.map quotedCharBytes).sum := by
  have hquote : ('"').utf8Size=1 := by decide
  have hinner : byteLength (value.flatMap writeQuotedChar)=(value.map quotedCharBytes).sum := by
    induction value with
    | nil => rfl
    | cons c value ih =>
      rw [List.flatMap_cons,byteLength_append,ih,byteLength_writeQuotedChar_eq,List.map_cons,
        List.sum_cons]
  simp only [writeQuoted,List.cons_append,byteLength_cons,byteLength_append,byteLength_nil,hinner,
    hquote]
  omega

theorem byteLength_writeAtom (a : Atom) : byteLength (writeAtom a)=atomBytes a := by
  cases a with
  | null => rfl
  | reference id =>
    have hsize : ('@').utf8Size=1 := by decide
    rw [writeAtom,byteLength_cons,hsize,atomBytes]
  | text value =>
    rw [writeAtom,atomBytes]
    split
    · rfl
    · exact byteLength_writeQuoted_eq value

/-- Items with their separators. -/
theorem byteLength_commas (items : List Text) (h : items≠[]) :
    byteLength (commas items)+1=(items.map fun item => byteLength item+1).sum := by
  have hsize : (',').utf8Size=1 := by decide
  induction items with
  | nil => exact absurd rfl h
  | cons item items ih =>
    cases items with
    | nil => simp
    | cons next items =>
      have hrest := ih (List.cons_ne_nil _ _)
      rw [commas_cons_cons,byteLength_append,byteLength_cons,List.map_cons,List.sum_cons,hsize]
      omega

theorem byteLength_writeVector (atoms : List Atom) :
    byteLength (writeVector atoms)=vectorBytes atoms := by
  have hopen : ('[').utf8Size=1 := by decide
  have hclose : (']').utf8Size=1 := by decide
  rw [writeVector,vectorBytes]
  simp only [List.cons_append,byteLength_cons,byteLength_append,byteLength_nil,hopen,hclose]
  split
  · next hnil =>
    subst hnil
    rfl
  · next hne =>
    have hcommas := byteLength_commas (atoms.map writeAtom) (by simpa using hne)
    rw [List.map_map] at hcommas
    have hsum : (atoms.map ((fun item => byteLength item+1) ∘ writeAtom)).sum =
        (atoms.map fun a => atomBytes a+1).sum := by
      congr 1
      apply List.map_congr_left
      intro a _
      exact congrArg (· + 1) (byteLength_writeAtom a)
    omega

theorem byteLength_writeCell (cell : Cell) : byteLength (writeCell cell)=cellBytes cell := by
  cases cell with
  | atom a => exact byteLength_writeAtom a
  | vector atoms => exact byteLength_writeVector atoms

theorem byteLength_writeRow {cells : List Cell} (h : cells≠[]) :
    byteLength (writeRow cells)=rowBytes cells := by
  have hsize : ('\n').utf8Size=1 := by decide
  have hcommas := byteLength_commas (cells.map writeCell) (by simpa using h)
  rw [List.map_map] at hcommas
  rw [writeRow,byteLength_append,byteLength_cons,byteLength_nil,hsize,rowBytes,hcommas]
  congr 1
  apply List.map_congr_left
  intro cell _
  exact congrArg (· + 1) (byteLength_writeCell cell)

theorem byteLength_writeColumns {columns : List Key} (h : columns≠[]) :
    byteLength (writeColumns columns)=columnsBytes (names columns) := by
  have hopen : ('\x7b').utf8Size=1 := by decide
  have hclose : ('\x7d').utf8Size=1 := by decide
  have hcommas := byteLength_commas (names columns) (by simpa [names] using h)
  simp only [writeColumns,columnsBytes,List.cons_append,byteLength_cons,byteLength_append,
    byteLength_nil,hopen,hclose]
  omega

theorem ne_nil_of_width {columns : List Key} {cells : List Cell} (h : WellNamed columns)
    (hwidth : cells.length=columns.length) : cells≠[] := by
  rintro rfl
  exact h.nonempty (List.length_eq_zero_iff.1 hwidth.symm)

/-- The bytes of a field after its key. -/
def valueBytes : Value → ℕ
  | .scalar a => atomBytes a+2
  | .vector atoms => inlineVectorBytes atoms
  | .record r => recordBytes (names r.columns) r.values
  | .table t => tableBytes (names t.columns) t.rows

theorem byteLength_writeField (field : Field) :
    byteLength (writeField field)=byteLength field.key.value+valueBytes field.value := by
  obtain ⟨key,value⟩ := field
  have hcolon : (':').utf8Size=1 := by decide
  have hline : ('\n').utf8Size=1 := by decide
  have hopen : ('[').utf8Size=1 := by decide
  have hclose : (']').utf8Size=1 := by decide
  cases value with
  | scalar a =>
    simp only [writeField,valueBytes,List.cons_append,byteLength_append,byteLength_cons,
      byteLength_nil,byteLength_writeAtom,hcolon,hline]
    omega
  | vector atoms =>
    simp only [writeField,valueBytes,inlineVectorBytes,List.cons_append,byteLength_append,
      byteLength_cons,byteLength_nil,byteLength_writeVector,hcolon,hline]
    omega
  | record r =>
    simp only [writeField,valueBytes,recordBytes,byteLength_append,byteLength_cons,byteLength_nil,
      hcolon,hline,byteLength_writeColumns r.wellNamed.nonempty,
      byteLength_writeRow (ne_nil_of_width r.wellNamed r.width)]
    omega
  | table t =>
    have hrows : byteLength (t.rows.flatMap writeRow)=(t.rows.map rowBytes).sum := by
      have hall : ∀ rows : List (List Cell), (∀ row∈rows, row.length=t.columns.length) →
          byteLength (rows.flatMap writeRow)=(rows.map rowBytes).sum := by
        intro rows hwidth
        induction rows with
        | nil => rfl
        | cons row rows ih =>
          rw [List.forall_mem_cons] at hwidth
          rw [List.flatMap_cons,byteLength_append,ih hwidth.2,List.map_cons,List.sum_cons,
            byteLength_writeRow (ne_nil_of_width t.wellNamed hwidth.1)]
      exact hall t.rows t.width
    simp only [writeField,valueBytes,tableBytes,List.cons_append,byteLength_append,byteLength_cons,
      byteLength_nil,hcolon,hline,hopen,hclose,hrows,byteLength_writeColumns t.wellNamed.nonempty]
    omega

/-! ## Bounds on the parts -/

theorem utf8Size_le_quotedCharBytes (c : Char) : c.utf8Size ≤ quotedCharBytes c := by
  rw [← byteLength_writeQuotedChar_eq]
  exact utf8Size_le_writeQuotedChar c

theorem textBytes_le (a : Atom) : a.textBytes ≤ atomBytes a := by
  cases a with
  | null => exact Nat.zero_le _
  | reference id => exact Nat.zero_le _
  | text value =>
    have hsum : byteLength value ≤ (value.map quotedCharBytes).sum := by
      induction value with
      | nil => exact le_rfl
      | cons c value ih =>
        have hchar := utf8Size_le_quotedCharBytes c
        rw [byteLength_cons,List.map_cons,List.sum_cons]
        omega
    rw [Atom.textBytes,atomBytes]
    split <;> omega

theorem atomBytes_pos (a : Atom) : 0 < atomBytes a := by
  rw [← byteLength_writeAtom,Nat.pos_iff_ne_zero,Ne,byteLength_eq_zero]
  exact atomText_ne_nil (atomText_writeAtom a)

private theorem le_sum_of_mem {α : Type} {f : α → ℕ} {items : List α} {a : α} (h : a∈items) :
    f a ≤ (items.map f).sum :=
  List.le_sum_of_mem (List.mem_map_of_mem h)

variable {a : Atom}

theorem textBytes_le_cellBytes {cell : Cell} (h : a∈cell.atoms) :
    a.textBytes ≤ cellBytes cell := by
  have hatom := textBytes_le a
  cases cell with
  | atom other =>
    rw [Cell.atoms,List.mem_singleton] at h
    subst h
    exact hatom
  | vector atoms =>
    rw [Cell.atoms] at h
    have hne : atoms≠[] := List.ne_nil_of_mem h
    have hsum := le_sum_of_mem (f := fun a => atomBytes a+1) h
    rw [cellBytes,vectorBytes,if_neg hne]
    omega

/-- An atom takes a byte and a separator. -/
theorem atoms_le_cellBytes (cell : Cell) : 2*cell.atoms.length ≤ cellBytes cell+1 := by
  cases cell with
  | atom a =>
    have := atomBytes_pos a
    simp only [Cell.atoms,List.length_singleton,cellBytes]
    omega
  | vector atoms =>
    have hall : 2*atoms.length ≤ (atoms.map fun a => atomBytes a+1).sum := by
      induction atoms with
      | nil => exact le_rfl
      | cons a atoms ih =>
        have := atomBytes_pos a
        simp only [List.length_cons,List.map_cons,List.sum_cons]
        omega
    simp only [Cell.atoms,cellBytes,vectorBytes]
    split
    · next hnil => simp [hnil]
    · omega

theorem cells_le_valueBytes (value : Value) : rowBytes value.cells ≤ valueBytes value := by
  cases value with
  | scalar a => simp [Value.cells,rowBytes,valueBytes,cellBytes]
  | vector atoms => simp [Value.cells,rowBytes,valueBytes,cellBytes,inlineVectorBytes]
  | record r =>
    simp only [Value.cells,valueBytes,recordBytes]
    omega
  | table t =>
    have hflat : rowBytes t.rows.flatten=(t.rows.map rowBytes).sum := by
      induction t.rows with
      | nil => rfl
      | cons row rows ih =>
        rw [List.flatten_cons,rowBytes,List.map_append,List.sum_append,List.map_cons,List.sum_cons,
          ← ih]
        rfl
    simp only [Value.cells,valueBytes,tableBytes,hflat]
    omega

theorem valueCount_le (field : Field) : 2*field.valueCount ≤ valueBytes field.value := by
  have hcells : ∀ cells : List Cell,
      2*(cells.map fun cell => cell.atoms.length).sum ≤ rowBytes cells := by
    intro cells
    induction cells with
    | nil => exact le_rfl
    | cons cell cells ih =>
      have hcell := atoms_le_cellBytes cell
      simp only [rowBytes,List.map_cons,List.sum_cons] at ih ⊢
      omega
  exact (hcells field.value.cells).trans (cells_le_valueBytes field.value)

theorem textBytes_le_valueBytes {value : Value} {cell : Cell} (hcell : cell∈value.cells)
    (ha : a∈cell.atoms) : a.textBytes ≤ valueBytes value := by
  have hatom := textBytes_le_cellBytes ha
  have hsum := le_sum_of_mem (f := fun cell => cellBytes cell+1) hcell
  have hcells := cells_le_valueBytes value
  rw [rowBytes] at hcells
  omega

end Ash.AsonSizes
