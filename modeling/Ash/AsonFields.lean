import Ash.AsonHeaders

/-! # Fields and documents

The parser accepts just the documents of the grammar that keep within the ceilings. -/

namespace Ash.AsonFields
open ByteCodecs Numerals TextSlices AsonDocuments AsonParser AsonGrammar AsonScalars AsonItems
open AsonRows AsonHeaders ParserOutcomes

section
variable {bits : ℕ} (limits : Limits bits)

/-! ## Rows below a header -/

theorem cellText_ne_nil {text : Text} {cell : Cell} (h : CellText text cell) : text≠[] := by
  cases h with
  | atom h => exact atomText_ne_nil h
  | vector h =>
    obtain ⟨items,-,rfl⟩ := h
    simp

theorem rowText_ne_nil {text : Text} {cells : List Cell} (h : RowText text cells)
    (hne : cells≠[]) : text≠[] := by
  obtain ⟨items,hitems,rfl⟩ := h
  refine commas_ne_nil (fun hnil => ?_) fun item hitem => ?_
  · subst hnil
    exact hne (List.forall₂_nil_left_iff.1 hitems)
  · obtain ⟨cell,-,hcell⟩ := forall₂_mem_left hitems hitem
    exact cellText_ne_nil hcell

/-- The rows that were read, and what is left of the lines. -/
def RowsRead (width missing : ℕ) (lines : List (ℕ × Text)) (rows : List (List Cell))
    (found : List (List Cell) × List (ℕ × Text)) : Prop :=
  ∃ taken added, lines=taken++found.2 ∧ found.1=rows++added ∧ added.length=missing ∧
    List.Forall₂ (RowReads limits width) (taken.map Prod.snd) added

variable {width : ℕ} {source payload : Text} {found : Field × List (ℕ × Text)} {rest : List Text}

variable {index : ℕ} {fields all : List Field}

/-- Reading one row more is reading a row and then the others. -/
theorem rowsRead_cons {missing : ℕ} {lines : List (ℕ × Text)} {rows : List (List Cell)}
    {found : List (List Cell) × List (ℕ × Text)} :
    RowsRead limits width (missing+1) ((index,source)::lines) rows found ↔
      ∃ cells, RowReads limits width source cells ∧
        RowsRead limits width missing lines (rows++[cells]) found := by
  constructor
  · rintro ⟨taken,added,hlines,hrows,hlen,htexts⟩
    obtain ⟨cells,added,rfl⟩ := List.exists_cons_of_length_eq_add_one hlen
    obtain ⟨text,texts,hcells,hrest,htaken⟩ := List.forall₂_cons_right_iff.1 htexts
    obtain ⟨first,taken,rfl,rfl,rfl⟩ := List.map_eq_cons_iff.1 htaken
    obtain ⟨rfl,htail⟩ := List.cons.inj hlines
    exact ⟨cells,hcells,taken,added,htail,by simpa using hrows,by simpa using hlen,hrest⟩
  · rintro ⟨cells,hcells,taken,added,rfl,hrows,rfl,htexts⟩
    exact ⟨(index,source)::taken,cells::added,rfl,by simpa using hrows,rfl,.cons hcells htexts⟩

theorem rowReads_ne_nil (hwidth : 0 < width) {cells : List Cell}
    (h : RowReads limits width source cells) : source≠[] := by
  obtain ⟨htext,hlen,-⟩ := h
  refine rowText_ne_nil htext ?_
  rintro rfl
  exact hwidth.ne hlen

/-- What is counted from the old items on is the next item and then the rest. -/
theorem sum_drop_concat {α : Type} (f : α → ℕ) {old added : List α} {next : α} :
    (((old++[next]++added).drop old.length).map f).sum =
      f next+(((old++[next]++added).drop (old++[next]).length).map f).sum := by
  have hdrop : (old++[next]++added).drop old.length=next::added := by
    rw [List.append_assoc,List.drop_left]
    rfl
  rw [hdrop,List.drop_left]
  rfl

theorem parses_rowsLoop (hwidth : 0 < width) (line declared missing : ℕ) (lines : List (ℕ × Text))
    (rows : List (List Cell)) :
    Parses limits.maxValues (rowsLoop limits line declared width missing lines rows)
      (RowsRead limits width missing lines rows)
      fun found => ((found.1.drop rows.length).map rowCount).sum := by
  induction missing generalizing lines rows with
  | zero =>
    refine (parses_pure (rows,lines)).congr (fun found => ?_) ?_
    · constructor
      · rintro rfl
        exact ⟨[],[],rfl,by simp,rfl,.nil⟩
      · obtain ⟨all,rest⟩ := found
        rintro ⟨taken,added,hlines,hrows,hlen,htexts⟩
        obtain rfl := List.length_eq_zero_iff.1 hlen
        have htaken : taken=[] := by simpa using List.forall₂_nil_right_iff.1 htexts
        simp_all
    · rintro ⟨all,rest⟩ ⟨taken,added,-,hrows,hlen,-⟩
      obtain rfl := List.length_eq_zero_iff.1 hlen
      simp [show all=rows by simpa using hrows]
  | succ missing ih =>
    cases lines with
    | nil =>
      refine parses_fail _ fun found => ?_
      rintro ⟨taken,added,hlines,-,hlen,htexts⟩
      have htaken : taken=[] := (List.append_eq_nil_iff.1 hlines.symm).1
      subst htaken
      rw [List.forall₂_nil_left_iff.1 htexts] at hlen
      cases hlen
    | cons head lines =>
      obtain ⟨index,source⟩ := head
      rw [rowsLoop]
      by_cases hblank : source=[]
      · rw [if_pos hblank]
        refine parses_fail _ fun found => ?_
        rw [rowsRead_cons]
        rintro ⟨cells,hcells,-⟩
        exact rowReads_ne_nil limits hwidth hcells hblank
      · rw [if_neg hblank]
        refine (parses_row limits hwidth source (index+1)).bind
          (fun cells _ => ih lines (rows++[cells])) (fun found => rowsRead_cons limits) ?_
        rintro cells ⟨all,rest⟩ - ⟨taken,added,-,rfl,-⟩
        exact sum_drop_concat rowCount

/-! ## Records and tables -/

/-- The value of a header and its rows. -/
def HeaderValue (header : Header) (rows : List (List Cell)) (value : Value) : Prop :=
  match header.rows with
  | some _ => ∃ table, value=.table table ∧ table.columns=header.columns ∧ table.rows=rows
  | none => ∃ record, value=.record record ∧ record.columns=header.columns ∧
      rows.getLast?=some record.values

theorem yields_headerValue (header : Header) (line : ℕ) (rows : List (List Cell)) :
    Yields (headerValue header line rows) (HeaderValue header rows) := by
  unfold headerValue HeaderValue
  cases header.rows with
  | some n =>
    dsimp only
    refine (yields_checked (fun _ => Table.new_ok) Value.table (fun table h => by rw [h])
      fun e h => ⟨_,by rw [h]⟩).congr fun value => ?_
    exact exists_congr fun table => and_comm
  | none =>
    dsimp only
    cases hlast : rows.getLast? with
    | none =>
      refine yields_fail _ fun value => ?_
      simp
    | some values =>
      dsimp only
      refine (yields_checked (fun _ => Record.new_ok) Value.record (fun record h => by rw [h])
        fun e h => ⟨_,by rw [h]⟩).congr fun value => ?_
      simp only [Option.some.injEq,eq_comm (a := values)]
      exact exists_congr fun record => and_comm

/-- A field with a header of its own: a record or a table. -/
def IsBlock (field : Field) : Prop := field.value.columns≠[]

/-- The lines of a block below its head. -/
def BlockReads (head : Text) (lines : List (ℕ × Text)) (found : Field × List (ℕ × Text)) : Prop :=
  ∃ taken, lines=taken++found.2 ∧ FieldLines ((head++[':'])::taken.map Prod.snd) found.1 ∧
    FieldWithin limits found.1 ∧ IsBlock found.1

/-- What the steps of a block establish. -/
def BlockParts (head : Text) (lines : List (ℕ × Text)) (found : Field × List (ℕ × Text)) : Prop :=
  ∃ header, HeaderReads limits head header ∧ header.rows.getD 1 ≤ limits.maxRows ∧
    ∃ rows, RowsRead limits header.columns.length (header.rows.getD 1) lines [] (rows,found.2) ∧
      ∃ value, HeaderValue header rows value ∧ found.1=⟨header.key,value⟩

theorem forall₂_rowReads {texts : List Text} {rows : List (List Cell)} :
    List.Forall₂ (RowReads limits width) texts rows ↔ List.Forall₂ RowText texts rows ∧
      ∀ row∈rows, row.length=width ∧ ∀ cell∈row, CellWithin limits cell :=
  forall₂_and_right

theorem valueCount_table (key : Key) (table : Table) :
    Field.valueCount ⟨key,.table table⟩=(table.rows.map rowCount).sum := by
  rw [Field.valueCount,Value.cells,List.map_flatten,List.sum_flatten,List.map_map]
  rfl

/-- A block is its header and its rows. -/
theorem blockReads_of_parts {head : Text} {lines : List (ℕ × Text)}
    (h : BlockParts limits head lines found) : BlockReads limits head lines found := by
  obtain ⟨field,rest⟩ := found
  obtain ⟨⟨key,columns,declared⟩,⟨rfl,hkey,hcols,-⟩,hmax,rows,
    ⟨taken,added,hlines,hadded,hlen,hreads⟩,value,hvalue,rfl⟩ := h
  obtain rfl : rows=added := hadded
  obtain ⟨htexts,hcells⟩ := (forall₂_rowReads limits).1 hreads
  have hkeys : ∀ k∈key::columns, byteLength k.value ≤ limits.maxKeyBytes :=
    List.forall_mem_cons.2 ⟨hkey,hcols.keyBytes⟩
  refine ⟨taken,hlines,?_⟩
  cases declared with
  | some n =>
    obtain ⟨table,rfl,rfl,rfl⟩ := hvalue
    obtain rfl : table.rows.length=n := hlen
    refine ⟨?_,⟨hkeys,hcols.count,hmax,fun cell hcell => ?_⟩,table.wellNamed.nonempty⟩
    · have hfield := FieldLines.table (keyText_value key) (fun column _ => keyText_value column)
        htexts
      simpa [headerText,rowsText] using hfield
    · obtain ⟨row,hrow,hcell⟩ := List.mem_flatten.1 hcell
      exact (hcells row hrow).2 cell hcell
  | none =>
    obtain ⟨record,rfl,rfl,hlast⟩ := hvalue
    obtain ⟨values,rfl⟩ := List.length_eq_one_iff.1 hlen
    obtain rfl : values=record.values := by simpa using hlast
    refine ⟨?_,⟨hkeys,hcols.count,hmax,?_⟩,record.wellNamed.nonempty⟩
    · obtain ⟨text,texts,htext,hnil,htaken⟩ := List.forall₂_cons_right_iff.1 htexts
      rw [htaken,List.forall₂_nil_right_iff.1 hnil]
      have hfield := FieldLines.record (keyText_value key) (fun column _ => keyText_value column)
        htext
      simpa [headerText,rowsText] using hfield
    · exact (hcells record.values (by simp)).2

theorem parts_of_blockReads {head : Text} {lines : List (ℕ × Text)}
    (h : BlockReads limits head lines found) : BlockParts limits head lines found := by
  obtain ⟨field,rest⟩ := found
  obtain ⟨taken,hlines,htext,⟨hkeys,hcount,hrows,hcells⟩,hblock⟩ := h
  dsimp only at hlines htext hkeys hcount hrows hcells hblock
  rw [List.forall_mem_cons] at hkeys
  generalize hall : (head++[':'])::taken.map Prod.snd=all at htext
  cases htext with
  | scalar => exact absurd rfl hblock
  | vector => exact absurd rfl hblock
  | @record key text record _ _ htext =>
    obtain ⟨hhead,htaken⟩ := List.cons.inj hall
    rw [List.append_cancel_right_eq] at hhead
    refine ⟨⟨key,record.columns,none⟩,⟨?_,hkeys.1,⟨record.wellNamed,hcount,hkeys.2⟩,by simp⟩,hrows,
      [record.values],⟨taken,[record.values],hlines,rfl,rfl,?_⟩,.record record,⟨record,rfl,rfl,rfl⟩,
      rfl⟩
    · simpa [headerText,rowsText] using hhead
    · rw [htaken]
      exact .cons ⟨htext,record.width,hcells⟩ .nil
  | @table key texts table _ _ htexts =>
    obtain ⟨hhead,htaken⟩ := List.cons.inj hall
    rw [List.append_cancel_right_eq] at hhead
    refine ⟨⟨key,table.columns,some table.rows.length⟩,⟨?_,hkeys.1,⟨table.wellNamed,hcount,hkeys.2⟩,
      ?_⟩,hrows,table.rows,⟨taken,table.rows,hlines,rfl,rfl,?_⟩,.table table,⟨table,rfl,rfl,rfl⟩,
      rfl⟩
    · simpa [headerText,rowsText] using hhead
    · rintro n ⟨⟩
      exact hrows.trans_lt limits.maxRows.isLt
    · rw [htaken]
      refine (forall₂_rowReads limits).2 ⟨htexts,fun row hrow => ⟨table.width row hrow,?_⟩⟩
      exact fun cell hcell => hcells cell (List.mem_flatten.2 ⟨row,hrow,hcell⟩)

/-- The atoms of a block are those of its rows. -/
theorem valueCount_block {header : Header} {lines rest : List (ℕ × Text)}
    {rows : List (List Cell)} {value : Value}
    (hrows : RowsRead limits header.columns.length (header.rows.getD 1) lines [] (rows,rest))
    (hvalue : HeaderValue header rows value) :
    Field.valueCount ⟨header.key,value⟩=(rows.map rowCount).sum := by
  obtain ⟨key,columns,declared⟩ := header
  cases declared with
  | some n =>
    obtain ⟨table,rfl,-,rfl⟩ := hvalue
    exact valueCount_table key table
  | none =>
    obtain ⟨record,rfl,-,hlast⟩ := hvalue
    obtain ⟨taken,added,-,hadded,hlen,-⟩ := hrows
    obtain rfl : rows=added := hadded
    obtain ⟨values,rfl⟩ := List.length_eq_one_iff.1 hlen
    obtain rfl : values=record.values := by simpa using hlast
    simp [Field.valueCount,Value.cells,rowCount]

/-- The value of a block, from its rows on. -/
theorem parses_blockRows {header : Header} (hcols : ColumnsRead limits header.columns)
    (line : ℕ) (lines : List (ℕ × Text)) :
    Parses limits.maxValues (do
        let (rows,rest) ← rowsLoop limits line (header.rows.getD 1) header.columns.length
          (header.rows.getD 1) lines []
        let value ← .outcome (headerValue header line rows)
        return ((⟨header.key,value⟩ : Field),rest))
      (fun found => ∃ rows,
        RowsRead limits header.columns.length (header.rows.getD 1) lines [] (rows,found.2) ∧
          ∃ value, HeaderValue header rows value ∧ found.1=⟨header.key,value⟩)
      fun found => found.1.valueCount := by
  have hwidth : 0 < header.columns.length := List.length_pos_iff.2 hcols.wellNamed.nonempty
  refine (parses_rowsLoop limits hwidth line _ _ lines []).bind
    (R := fun p found => p.2=found.2 ∧ ∃ value, HeaderValue header p.1 value ∧
      found.1=⟨header.key,value⟩) (u := fun _ _ => 0) (fun p _ => ?_) (fun found => ?_) ?_
  · refine (yields_headerValue header line p.1).parses.bind
      (fun value _ => parses_pure ((⟨header.key,value⟩ : Field),p.2)) (fun found => ?_)
      fun _ _ _ _ => rfl
    obtain ⟨field,rest⟩ := found
    simp only [Prod.mk.injEq]
    constructor
    · rintro ⟨rfl,value,hvalue,rfl⟩
      exact ⟨value,hvalue,rfl,rfl⟩
    · rintro ⟨value,hvalue,rfl,rfl⟩
      exact ⟨rfl,value,hvalue,rfl⟩
  · constructor
    · rintro ⟨rows,hrows,hvalue⟩
      exact ⟨(rows,found.2),hrows,rfl,hvalue⟩
    · rintro ⟨⟨rows,rest⟩,hrows,rfl,hvalue⟩
      exact ⟨rows,hrows,hvalue⟩
  · rintro ⟨rows,rest⟩ ⟨field,rest'⟩ hrows ⟨-,value,hvalue,rfl⟩
    exact valueCount_block limits hrows hvalue

theorem parses_block (head payload : Text) (line : ℕ) (lines : List (ℕ × Text)) :
    Parses limits.maxValues (block limits head payload line lines)
      (fun found => payload=[] ∧ BlockReads limits head lines found)
      fun found => found.1.valueCount := by
  unfold block
  by_cases hpay : payload≠[]
  · rw [if_pos hpay]
    exact parses_fail _ fun found => by simp [hpay]
  · rw [if_neg hpay]
    rw [not_not] at hpay
    refine (yields_header limits head line).parses.bind (fun header hheader =>
      parses_enforced fun _ => parses_blockRows limits hheader.columns line lines) (fun found => ?_)
      fun _ _ _ _ => (Nat.zero_add _).symm
    exact ⟨fun h => parts_of_blockReads limits h.2,fun h => ⟨hpay,blockReads_of_parts limits h⟩⟩

/-! ## Fields on one line -/

/-- A key and an atom or a vector on one line. -/
def InlineReads (head payload : Text) (field : Field) : Prop :=
  FieldLines [head ++ ':'::payload] field ∧ FieldWithin limits field ∧ ¬ IsBlock field

theorem colon_not_mem_value (key : Key) : ':'∉key.value := not_mem_value key (by decide)

/-- The value of a field on one line. -/
def InlineValue (payload : Text) (value : Value) : Prop :=
  (payload.head?=some '[' ∧ ∃ atoms, VectorReads limits payload atoms ∧ value=.vector atoms) ∨
    (¬ payload.head?=some '[' ∧ ∃ a, AtomReads limits payload a ∧ value=.scalar a)

theorem fieldWithin_inline {key : Key} {value : Value} {cell : Cell} (hcols : value.columns=[])
    (hcount : value.rowCount=0) (hcells : value.cells=[cell]) :
    FieldWithin limits ⟨key,value⟩ ↔
      byteLength key.value ≤ limits.maxKeyBytes ∧ CellWithin limits cell := by
  constructor
  · rintro ⟨hkeys,-,-,hcell⟩
    exact ⟨hkeys key (by simp),hcell cell (by simp [hcells])⟩
  · rintro ⟨hkey,hcell⟩
    exact ⟨by simpa [hcols] using hkey,by simp [hcols],by simp [hcount],
      by simpa [hcells] using hcell⟩

theorem inlineReads_iff {head : Text} (hcolon : ':'∉head) {field : Field} :
    InlineReads limits head payload field ↔ ∃ key : Key,
      (byteLength head ≤ limits.maxKeyBytes ∧ key.value=head) ∧
        ∃ value, InlineValue limits payload value ∧ field=⟨key,value⟩ := by
  constructor
  · rintro ⟨htext,hwith,hblock⟩
    generalize hall : [head ++ ':'::payload]=all at htext
    cases htext with
    | @scalar key text a _ htext =>
      obtain ⟨rfl,rfl⟩ := append_cons_inj_of_not_mem_left hcolon (colon_not_mem_value key)
        (List.cons.inj hall).1
      obtain ⟨hkey,hcell⟩ := (fieldWithin_inline limits rfl rfl rfl).1 hwith
      exact ⟨key,⟨hkey,rfl⟩,.scalar a,.inr ⟨atomText_head htext,a,
        ⟨htext,(cellWithin_atom limits).1 hcell⟩,rfl⟩,rfl⟩
    | @vector key text atoms _ htext =>
      obtain ⟨rfl,rfl⟩ := append_cons_inj_of_not_mem_left hcolon (colon_not_mem_value key)
        (List.cons.inj hall).1
      obtain ⟨hkey,hcell⟩ := (fieldWithin_inline limits rfl rfl rfl).1 hwith
      refine ⟨key,⟨hkey,rfl⟩,.vector atoms,.inl ⟨?_,atoms,⟨htext,hcell⟩,rfl⟩,rfl⟩
      obtain ⟨items,-,rfl⟩ := htext
      rfl
    | @record _ _ record => exact absurd record.wellNamed.nonempty hblock
    | @table _ _ table => exact absurd table.wellNamed.nonempty hblock
  · rintro ⟨key,⟨hkey,rfl⟩,value,⟨-,atoms,⟨htext,hwith⟩,rfl⟩ | ⟨-,a,⟨htext,hbytes⟩,rfl⟩,rfl⟩
    · exact ⟨.vector (keyText_value key) htext,
        (fieldWithin_inline limits rfl rfl rfl).2 ⟨hkey,hwith⟩,not_not.2 rfl⟩
    · exact ⟨.scalar (keyText_value key) htext,(fieldWithin_inline limits rfl rfl rfl).2
        ⟨hkey,(cellWithin_atom limits).2 hbytes⟩,not_not.2 rfl⟩

/-- The number of atoms of a value. -/
def valueCount (value : Value) : ℕ := (value.cells.map fun cell => cell.atoms.length).sum

theorem parses_inlineValue (payload : Text) (line column : ℕ) :
    Parses limits.maxValues (if payload.head?=some '[' then
        Value.vector <$> vector limits payload line column
      else Value.scalar <$> atom limits payload line column)
      (InlineValue limits payload) valueCount := by
  refine parses_ite (fun _ => ?_) fun _ => ?_
  · exact (parses_vector limits payload line column).map Value.vector fun atoms _ => by
      simp [valueCount,Value.cells,Cell.atoms]
  · exact (parses_atom limits payload line column).map Value.scalar fun _ _ => rfl

theorem parses_inline {head : Text} (hcolon : ':'∉head) (payload : Text) (line : ℕ) :
    Parses limits.maxValues (inline limits head payload line) (InlineReads limits head payload)
      Field.valueCount := by
  have hrun : inline limits head payload line=(do
      let key ← .outcome (AsonParser.key limits head line)
      (if payload.head?=some '[' then
          Value.vector <$> vector limits payload line (byteLength head+2)
        else Value.scalar <$> atom limits payload line (byteLength head+2)) >>= fun value =>
          pure (⟨key,value⟩ : Field)) := by
    unfold AsonParser.inline
    split
    · rfl
    · rfl
  rw [hrun]
  refine (yields_key limits head line).parses.bind (fun key _ =>
    (parses_inlineValue limits payload line (byteLength head+2)).bind (t := Field.valueCount)
      (fun value _ => parses_pure (⟨key,value⟩ : Field)) (fun field => Iff.rfl) ?_)
    (fun field => inlineReads_iff limits hcolon) fun _ _ _ _ => (Nat.zero_add _).symm
  rintro value field - rfl
  rfl

/-! ## Fields -/

/-- The lines of a field, and what is left of the lines after its first. -/
def FieldReads (source : Text) (lines : List (ℕ × Text)) (found : Field × List (ℕ × Text)) : Prop :=
  ∃ taken, lines=taken++found.2 ∧ FieldLines (source::taken.map Prod.snd) found.1 ∧
    FieldWithin limits found.1

theorem colon_not_mem_headerText (header : Header) : ':'∉headerText header := by
  have hcols : ':'∉commas (names header.columns) := by
    intro h
    obtain h | ⟨name,hname,h⟩ := mem_commas h
    · cases h
    · obtain ⟨key,-,rfl⟩ := List.mem_map.1 hname
      exact colon_not_mem_value key h
  have hfront : ':'∉header.key.value++rowsText header.rows := by
    rw [List.mem_append,not_or]
    exact ⟨colon_not_mem_value _,not_mem_rowsText (by decide) (by decide) (by decide)⟩
  rw [headerText,List.mem_append,not_or,writeColumns]
  exact ⟨hfront,by simpa using hcols⟩

/-- The first line of a block is its head and a colon. -/
theorem fieldLines_block {field : Field} (h : FieldLines (source::rest) field)
    (hblock : IsBlock field) : ∃ head, source=head++[':'] ∧ ':'∉head ∧ '\x7b'∈head := by
  cases h with
  | scalar => exact absurd rfl hblock
  | vector => exact absurd rfl hblock
  | @record key _ record =>
    refine ⟨_,rfl,?_,by simp [writeColumns]⟩
    simpa [headerText,rowsText] using colon_not_mem_headerText ⟨key,record.columns,none⟩
  | @table key _ table =>
    refine ⟨_,rfl,?_,by simp [writeColumns]⟩
    simpa [headerText,rowsText] using
      colon_not_mem_headerText ⟨key,table.columns,some table.rows.length⟩

/-- Other fields have one line, which starts with their key. -/
theorem fieldLines_inline {field : Field} (h : FieldLines (source::rest) field)
    (hblock : ¬ IsBlock field) :
    rest=[] ∧ ∃ payload, source=field.key.value ++ ':'::payload := by
  cases h with
  | scalar => exact ⟨rfl,_,rfl⟩
  | vector => exact ⟨rfl,_,rfl⟩
  | @record _ _ record => exact absurd record.wellNamed.nonempty hblock
  | @table _ _ table => exact absurd table.wellNamed.nonempty hblock

theorem fieldReads_block {head : Text} (hcolon : ':'∉head) (hbrk : '\x7b'∈head ∨ '['∈head)
    {lines : List (ℕ × Text)} :
    FieldReads limits (head ++ ':'::payload) lines found ↔
      payload=[] ∧ BlockReads limits head lines found := by
  constructor
  · rintro ⟨taken,hlines,htext,hwith⟩
    by_cases hblock : IsBlock found.1
    · obtain ⟨head',hsrc,hcolon',-⟩ := fieldLines_block htext hblock
      obtain ⟨rfl,rfl⟩ := append_cons_inj_of_not_mem_left hcolon hcolon' hsrc
      exact ⟨rfl,taken,hlines,htext,hwith,hblock⟩
    · obtain ⟨-,payload',hsrc⟩ := fieldLines_inline htext hblock
      obtain ⟨rfl,-⟩ := append_cons_inj_of_not_mem_left hcolon (colon_not_mem_value _) hsrc
      obtain hmem | hmem := hbrk
      · exact absurd hmem (not_mem_value _ (by decide))
      · exact absurd hmem (not_mem_value _ (by decide))
  · rintro ⟨rfl,taken,hlines,htext,hwith,-⟩
    exact ⟨taken,hlines,htext,hwith⟩

theorem fieldReads_inline {head : Text} (hcolon : ':'∉head)
    (hbrk : ¬ ('\x7b'∈head ∨ '['∈head)) {lines : List (ℕ × Text)} :
    FieldReads limits (head ++ ':'::payload) lines found ↔
      InlineReads limits head payload found.1 ∧ found.2=lines := by
  constructor
  · rintro ⟨taken,hlines,htext,hwith⟩
    by_cases hblock : IsBlock found.1
    · obtain ⟨head',hsrc,hcolon',hbrace⟩ := fieldLines_block htext hblock
      obtain ⟨rfl,-⟩ := append_cons_inj_of_not_mem_left hcolon hcolon' hsrc
      exact absurd (.inl hbrace) hbrk
    · obtain ⟨htaken,-⟩ := fieldLines_inline htext hblock
      obtain rfl : taken=[] := by simpa using htaken
      exact ⟨⟨htext,hwith,hblock⟩,hlines.symm⟩
  · rintro ⟨⟨htext,hwith,-⟩,hrest⟩
    exact ⟨[],hrest.symm,htext,hwith⟩

theorem fieldLines_colon {field : Field} (h : FieldLines (source::rest) field) :
    ':'∈source := by
  cases h <;> simp

theorem parses_field (source : Text) (line : ℕ) (lines : List (ℕ × Text)) :
    Parses limits.maxValues (field limits source line lines) (FieldReads limits source lines)
      fun found => found.1.valueCount := by
  unfold field
  cases hsplit : splitOnce ':' source with
  | none =>
    refine parses_fail _ fun found => ?_
    rintro ⟨taken,-,htext,-⟩
    exact not_mem_of_splitOnce hsplit (fieldLines_colon htext)
  | some parts =>
    obtain ⟨head,payload⟩ := parts
    obtain ⟨rfl,hcolon⟩ := splitOnce_some hsplit
    dsimp only
    by_cases hbrk : '\x7b'∈head ∨ '['∈head
    · rw [if_pos hbrk]
      exact (parses_block limits head payload line lines).congr
        (fun found => (fieldReads_block limits hcolon hbrk).symm) fun _ _ => rfl
    · rw [if_neg hbrk]
      refine (parses_inline limits hcolon payload line).bind
        (fun field _ => parses_pure (field,lines)) (fun found => ?_) ?_
      · rw [fieldReads_inline limits hcolon hbrk]
        obtain ⟨field,rest⟩ := found
        simp only [Prod.mk.injEq]
        constructor
        · rintro ⟨hreads,rfl⟩
          exact ⟨field,hreads,rfl,rfl⟩
        · rintro ⟨other,hreads,rfl,rfl⟩
          exact ⟨hreads,rfl⟩
      · rintro field found - rfl
        rfl

/-! ## Documents -/

/-- The fields that were read from all the lines. -/
structure FieldsRead (lines : List Text) (fields all : List Field) : Prop where
  blocks : ∃ added blocks, all=fields++added ∧ List.Forall₂ FieldLines blocks added ∧
    lines=blocks.flatten ∧ ∀ field∈added, FieldWithin limits field
  distinct : (fieldNames all).Nodup
  count : all.length ≤ limits.maxFields

theorem fieldLines_cons {block : List Text} {field : Field} (h : FieldLines block field) :
    ∃ source rest, block=source::rest ∧ source≠[] := by
  cases h <;> exact ⟨_,_,rfl,by simp⟩

/-- Reading further fields is reading one field and then the others. -/
theorem fieldsRead_cons {lines : List (ℕ × Text)} :
    FieldsRead limits (((index,source)::lines).map Prod.snd) fields all ↔
      fields.length+1 ≤ limits.maxFields ∧ ∃ found, FieldReads limits source lines found ∧
        found.1.key.value∉fieldNames fields ∧
          FieldsRead limits (found.2.map Prod.snd) (fields++[found.1]) all := by
  constructor
  · rintro ⟨⟨added,blocks,rfl,hblks,hlines,hwith⟩,hdist,hcount⟩
    cases hblks with
    | nil => cases hlines
    | @cons block field blocks added hblock hblks =>
      obtain ⟨first,rest,rfl,-⟩ := fieldLines_cons hblock
      obtain ⟨rfl,hmap⟩ := List.cons.inj hlines
      obtain ⟨taken,left,rfl,rfl,hleft⟩ := List.map_eq_append_iff.1 hmap
      obtain ⟨hfield,hadded⟩ := List.forall_mem_cons.1 hwith
      have hall : fields++field::added=fields++[field]++added := by simp
      refine ⟨?_,(field,left),⟨taken,rfl,hblock,hfield⟩,?_,
        ⟨⟨added,blocks,hall,hblks,hleft,hadded⟩,hdist,hcount⟩⟩
      · simp only [List.length_append,List.length_cons] at hcount
        omega
      · rw [fieldNames,List.map_append,List.nodup_append] at hdist
        exact fun hmem => hdist.2.2 _ hmem _ (by simp) rfl
  · rintro ⟨hcount,⟨field,rest⟩,⟨taken,rfl,htext,hwith⟩,hnew,
      ⟨added,blocks,rfl,hblks,hlines,hall⟩,hdist,hcount'⟩
    refine ⟨⟨field::added,(source::taken.map Prod.snd)::blocks,by simp,.cons htext hblks,?_,
      List.forall_mem_cons.2 ⟨hwith,hall⟩⟩,hdist,hcount'⟩
    simp [← hlines]

theorem fieldsRead_nil (hdist : (fieldNames fields).Nodup)
    (hcount : fields.length ≤ limits.maxFields) :
    FieldsRead limits [] fields all ↔ all=fields := by
  constructor
  · rintro ⟨⟨added,blocks,rfl,hblks,hlines,-⟩,-,-⟩
    cases hblks with
    | nil => simp
    | cons hblock _ =>
      obtain ⟨first,rest,rfl,-⟩ := fieldLines_cons hblock
      cases hlines
  · rintro rfl
    exact ⟨⟨[],[],by simp,.nil,rfl,by simp⟩,hdist,hcount⟩

theorem fieldReads_ne_nil {lines : List (ℕ × Text)} (h : FieldReads limits source lines found) :
    source≠[] := by
  obtain ⟨taken,-,htext,-⟩ := h
  obtain ⟨first,rest,heq,hne⟩ := fieldLines_cons htext
  rwa [(List.cons.inj heq).1]

/-- The loop over the fields; a step takes at least one line, so the lines are enough fuel. -/
theorem parses_fieldsLoop (fuel : ℕ) (lines : List (ℕ × Text)) (fields : List Field)
    (hfuel : lines.length ≤ fuel) (hdist : (fieldNames fields).Nodup)
    (hcount : fields.length ≤ limits.maxFields) :
    Parses limits.maxValues (fieldsLoop limits fuel lines fields)
      (FieldsRead limits (lines.map Prod.snd) fields)
      fun all => ((all.drop fields.length).map Field.valueCount).sum := by
  have hnil : ∀ {fields : List Field}, (fieldNames fields).Nodup →
      fields.length ≤ limits.maxFields → Parses limits.maxValues (pure fields) (ε := DecodeError)
        (FieldsRead limits [] fields) fun all =>
          ((all.drop fields.length).map Field.valueCount).sum := by
    intro fields hdist hcount
    refine (parses_pure fields).congr (fun all => (fieldsRead_nil limits hdist hcount).symm) ?_
    intro all hall
    rw [(fieldsRead_nil limits hdist hcount).1 hall,List.drop_length]
    rfl
  induction fuel generalizing lines fields with
  | zero =>
    obtain rfl := List.length_eq_zero_iff.1 (Nat.le_zero.1 hfuel)
    exact hnil hdist hcount
  | succ fuel ih =>
    cases lines with
    | nil => exact hnil hdist hcount
    | cons head lines =>
      obtain ⟨index,source⟩ := head
      rw [fieldsLoop]
      by_cases hblank : source=[]
      · rw [if_pos hblank]
        refine parses_fail _ fun all => ?_
        rw [fieldsRead_cons]
        rintro ⟨-,found,hfound,-⟩
        exact fieldReads_ne_nil limits hfound hblank
      · rw [if_neg hblank]
        have hlater : ∀ found, FieldReads limits source lines found → found.2.length ≤ fuel := by
          rintro ⟨field,rest⟩ ⟨taken,rfl,-⟩
          simp only [List.length_cons,List.length_append] at hfuel
          simp only
          omega
        have hnext : fields.length+1 ≤ limits.maxFields → ∀ found,
            FieldReads limits source lines found → Parses limits.maxValues
              (if found.1.key.value∈fieldNames fields then
                .fail (.duplicateField (index+1) found.1.key.value)
              else fieldsLoop limits fuel found.2 (fields++[found.1]))
              (fun all => found.1.key.value∉fieldNames fields ∧
                FieldsRead limits (found.2.map Prod.snd) (fields++[found.1]) all)
              fun all => ((all.drop (fields++[found.1]).length).map Field.valueCount).sum := by
          intro hlen found hfound
          refine parses_guard _ fun hnew => ih found.2 (fields++[found.1])
            (hlater found hfound) ?_ (by simpa using hlen)
          rw [fieldNames,List.map_append,List.map_singleton,← List.concat_eq_append]
          exact (List.nodup_concat _ _).2 ⟨hnew,hdist⟩
        refine (parses_enforced fun hlen => (parses_field limits source (index+1) lines).bind
          (hnext hlen) (fun all => Iff.rfl) ?_).congr (fun all => (fieldsRead_cons limits).symm)
          fun _ _ => rfl
        rintro ⟨field,rest⟩ all - ⟨-,⟨added,blocks,rfl,-⟩,-⟩
        exact sum_drop_concat Field.valueCount

end

/-! ## Lines -/

theorem unlines_eq {lines : List Text} (hne : lines≠[]) :
    unlines lines=List.intercalate ['\n'] lines++['\n'] := by
  induction lines with
  | nil => exact absurd rfl hne
  | cons line lines ih =>
    cases lines with
    | nil => simp [unlines]
    | cons next lines =>
      have hrest := ih (by simp)
      rw [List.intercalate_cons_cons]
      change line++['\n']++unlines (next::lines)=_
      rw [hrest]
      simp

/-- Lines without line feeds are found again by splitting. -/
theorem splitOn_unlines {lines : List Text} (hne : lines≠[]) (h : ∀ line∈lines, '\n'∉line) :
    (unlines lines).dropLast.splitOn '\n'=lines := by
  rw [unlines_eq hne,List.dropLast_concat]
  exact List.splitOn_intercalate '\n' h hne

theorem unlines_splitOn (text : Text) : unlines (text.splitOn '\n')=text++['\n'] := by
  rw [unlines_eq (List.splitOn_ne_nil _ _),List.intercalate_splitOn]

/-- A text without control characters. -/
def Printable (text : Text) : Prop := ∀ c∈text, isControl c=false

@[simp] theorem printable_nil : Printable [] := by simp [Printable]

variable {c : Char}

@[simp] theorem printable_cons {text : Text} :
    Printable (c::text) ↔ isControl c=false ∧ Printable text := by simp [Printable]

@[simp] theorem printable_append {left right : Text} :
    Printable (left++right) ↔ Printable left ∧ Printable right := by
  simp only [Printable,List.mem_append,or_imp,forall_and]

theorem printable_enclosed {first last : Char} {text : Text} (hfirst : isControl first=false)
    (hlast : isControl last=false) (h : Printable text) : Printable (first::text++[last]) := by
  simp [hfirst,hlast,h]

theorem isControl_bareChars : ∀ c∈bareChars, isControl c=false :=
  forall_mem_of_all (by decide)

theorem isControl_keyChars : ∀ c∈keyChars, isControl c=false := forall_mem_of_all (by decide)

theorem printable_decimal (n : ℕ) : Printable (decimal n) := fun c hc =>
  isControl_keyChars c (by simp [keyChars,mem_decimal hc])

theorem printable_value (key : Key) : Printable key.value := fun c hc =>
  isControl_keyChars c (mem_value hc)

theorem printable_commas {items : List Text} (h : ∀ item∈items, Printable item) :
    Printable (commas items) := by
  intro c hc
  obtain rfl | ⟨item,hitem,hc⟩ := mem_commas hc
  · decide
  · exact h item hitem c hc

theorem printable_writeColumns (columns : List Key) : Printable (writeColumns columns) := by
  have hnames : Printable (commas (names columns)) := printable_commas fun name hname => by
    obtain ⟨key,-,rfl⟩ := List.mem_map.1 hname
    exact printable_value key
  exact printable_enclosed (by decide) (by decide) hnames

theorem isControl_of_isHexDigit (h : isHexDigit c=true) : isControl c=false := by
  obtain ⟨hlo,hhi⟩ := toNat_of_isHexDigit h
  have hval : c.val.toNat=c.toNat := rfl
  simp only [isControl,Bool.or_eq_false_iff,Bool.and_eq_false_iff,decide_eq_false_iff_not,
    UInt32.le_iff_toNat_le,UInt32.reduceToNat]
  omega

theorem printable_quotedChar {text : Text} (h : QuotedChar text c) : Printable text := by
  cases h with
  | plain _ _ hctl => simpa using hctl
  | @short escape _ h =>
    have hall : ∀ p∈[('\\','\\'),('"','"'),('n','\n'),('r','\r'),('t','\t')],
        isControl p.1=false := by decide
    have hescape := hall _ h
    simp only [printable_cons,printable_nil,and_true]
    exact ⟨by decide,hescape⟩
  | @unicode _ number _ _ hhex _ =>
    have hnumber : Printable number := fun d hd => isControl_of_isHexDigit (hhex d hd)
    simp only [List.cons_append,printable_cons,printable_append,printable_nil,hnumber,true_and,
      and_true]
    decide

theorem printable_quotedText {text value : Text} (h : QuotedText text value) : Printable text := by
  induction h with
  | nil => exact printable_nil
  | cons hc _ ih => exact printable_append.2 ⟨printable_quotedChar hc,ih⟩

theorem printable_atomText {text : Text} {a : Atom} (h : AtomText text a) : Printable text := by
  cases h with
  | null => exact printable_cons.2 ⟨by decide,printable_nil⟩
  | reference id => exact printable_cons.2 ⟨by decide,printable_decimal _⟩
  | bare _ hbare _ =>
    exact fun c hc => isControl_bareChars c (hbare c hc)
  | quoted h =>
    exact printable_enclosed (by decide) (by decide) (printable_quotedText h)

theorem printable_vectorText {text : Text} {atoms : List Atom} (h : VectorText text atoms) :
    Printable text := by
  obtain ⟨items,hitems,rfl⟩ := h
  have hcommas : Printable (commas items) := printable_commas fun item hitem => by
    obtain ⟨a,-,ha⟩ := forall₂_mem_left hitems hitem
    exact printable_atomText ha
  exact printable_enclosed (by decide) (by decide) hcommas

theorem printable_rowText {text : Text} {cells : List Cell} (h : RowText text cells) :
    Printable text := by
  obtain ⟨items,hitems,rfl⟩ := h
  refine printable_commas fun item hitem => ?_
  obtain ⟨cell,-,hcell⟩ := forall₂_mem_left hitems hitem
  cases hcell with
  | atom h => exact printable_atomText h
  | vector h => exact printable_vectorText h

theorem printable_fieldLines {block : List Text} {field : Field} (h : FieldLines block field) :
    ∀ line∈block, Printable line := by
  have hcolon : isControl ':'=false := by decide
  cases h with
  | @scalar key _ _ _ h =>
    simp [printable_value key,hcolon,printable_atomText h]
  | @vector key _ _ _ h =>
    simp [printable_value key,hcolon,printable_vectorText h]
  | @record key _ record _ _ h =>
    simp [printable_value key,hcolon,printable_writeColumns,printable_rowText h]
  | @table key texts table _ _ h =>
    refine List.forall_mem_cons.2 ⟨?_,fun text htext => ?_⟩
    · have hopen : isControl '['=false := by decide
      have hclose : isControl ']'=false := by decide
      simp [printable_value key,hcolon,hopen,hclose,printable_decimal,printable_writeColumns]
    · obtain ⟨row,-,hrow⟩ := forall₂_mem_left h htext
      exact printable_rowText hrow

/-! ## Acceptance -/

section
variable {bits : ℕ} (limits : Limits bits)

theorem findIdx_carriageReturn (input : Text) :
    (utf8 input).findIdx? (· == 13)=none ↔ '\r'∉input := by
  have hcount : (utf8 input).count 13=input.count '\r' := count_utf8 (c := '\r') (by decide) input
  rw [List.findIdx?_eq_none_iff,← List.count_eq_zero,← hcount,List.count_eq_zero]
  constructor
  · intro h hmem
    simpa using h 13 hmem
  · intro h b hb
    rw [beq_eq_false_iff_ne]
    rintro rfl
    exact h hb

theorem count_lineFeed (input : Text) : (utf8 input).count 10=input.count '\n' :=
  count_utf8 (c := '\n') (by decide) input

/-- The document of the fields on given lines. -/
theorem yields_fields (lines : List Text) :
    Yields (do
        let (fields,_) ← fieldsLoop limits (lines.zipIdx.map Prod.swap).length
          (lines.zipIdx.map Prod.swap) [] 0
        match Document.new fields with
        | .ok document => (.ok document : Outcome Document)
        | .error _ => .fail .emptyDocument)
      fun document => FieldsRead limits lines [] document.fields ∧
        (document.fields.map Field.valueCount).sum ≤ limits.maxValues := by
  have htexts : (lines.zipIdx.map Prod.swap).map Prod.snd=lines := by
    rw [List.map_map]
    exact List.zipIdx_map_fst 0 lines
  have hloop := (parses_fieldsLoop limits _ (lines.zipIdx.map Prod.swap) [] le_rfl
    (by simp [fieldNames]) (Nat.zero_le _)).yields
  rw [htexts] at hloop
  have hnew : ∀ fields : List Field, Yields (match Document.new fields with
      | .ok document => (.ok document : Outcome Document)
      | .error _ => .fail .emptyDocument) fun document => document.fields=fields := by
    intro fields
    exact (yields_checked (fun _ => Document.new_ok) (fun document => document)
      (fun document h => by rw [h]) fun e h => ⟨_,by rw [h]⟩).congr fun document => by simp
  refine (hloop.bind fun found _ => hnew found.1).congr fun document => ?_
  constructor
  · rintro ⟨⟨fields,count⟩,⟨hread,-,hmax⟩,rfl⟩
    exact ⟨hread,by simpa using hmax⟩
  · rintro ⟨hread,hmax⟩
    exact ⟨(document.fields,(document.fields.map Field.valueCount).sum),
      ⟨hread,rfl,by simpa using hmax⟩,rfl⟩

variable {blocks : List (List Text)} {fields : List Field}

/-- The lines of a document are printable. -/
theorem printable_blocks (h : List.Forall₂ FieldLines blocks fields) :
    ∀ line∈blocks.flatten, Printable line := by
  intro line hline
  obtain ⟨block,hblock,hline⟩ := List.mem_flatten.1 hline
  obtain ⟨field,-,hfield⟩ := forall₂_mem_left h hblock
  exact printable_fieldLines hfield line hline

theorem not_mem_of_printable {text : Text} {c : Char} (h : Printable text)
    (hc : isControl c=true) : c∉text := by
  intro hmem
  rw [h c hmem] at hc
  cases hc

theorem blocks_ne_nil (h : List.Forall₂ FieldLines blocks fields) (hne : fields≠[]) :
    ∃ first rest, blocks.flatten=first::rest ∧ first≠[] := by
  cases h with
  | nil => exact absurd rfl hne
  | cons hblock _ =>
    obtain ⟨first,rest,rfl,hfirst⟩ := fieldLines_cons hblock
    exact ⟨first,_,rfl,hfirst⟩

/-- Where the text is its lines, each ended by a line feed, its document is the fields read
from those lines. -/
theorem documentText_iff {lines : List Text} (document : Document)
    (hlines : (unlines lines).dropLast.splitOn '\n'=lines) (hreturn : '\r'∉unlines lines) :
    DocumentText (unlines lines) document ∧ (∀ field∈document.fields, FieldWithin limits field) ∧
        document.fields.length ≤ limits.maxFields ↔
      FieldsRead limits lines [] document.fields := by
  constructor
  · rintro ⟨⟨blocks,hblks,htext,-⟩,hwith,hcount⟩
    obtain ⟨first,rest,hflat,-⟩ := blocks_ne_nil hblks document.nonempty
    have hsplit : (unlines blocks.flatten).dropLast.splitOn '\n'=blocks.flatten :=
      splitOn_unlines (by simp [hflat]) fun line hline =>
        not_mem_of_printable (printable_blocks hblks line hline) (by decide)
    rw [← htext,hlines] at hsplit
    exact ⟨⟨document.fields,blocks,rfl,hblks,hsplit,hwith⟩,document.distinct,hcount⟩
  · rintro ⟨⟨added,blocks,hadded,hblks,rfl,hwith⟩,-,hcount⟩
    obtain rfl : document.fields=added := hadded
    exact ⟨⟨blocks,hblks,rfl,hreturn⟩,hwith,hcount⟩

/-- A document's text ends with a line feed and is more than that. -/
theorem documentText_ends {input : Text} {document : Document} (h : DocumentText input document) :
    input.getLast?=some '\n' ∧ input.dropLast≠[] := by
  obtain ⟨blocks,hblks,rfl,-⟩ := h
  obtain ⟨first,rest,hflat,hfirst⟩ := blocks_ne_nil hblks document.nonempty
  rw [hflat,unlines_eq (by simp)]
  refine ⟨List.getLast?_concat,?_⟩
  rw [List.dropLast_concat]
  cases rest with
  | nil => simpa using hfirst
  | cons next rest => simp [List.intercalate_cons_cons]

theorem yields_document (input : Text) :
    Yields (document limits input) fun document =>
      DocumentText input document ∧ Within limits input document := by
  have hbytes := yields_enforce (byteLength input) limits.maxBytes .bytes 1
  unfold document
  cases hreturn : (utf8 input).findIdx? (· == 13) with
  | some offset =>
    refine hbytes.bind_fail _ fun document => ?_
    rintro ⟨⟨-,-,-,hno⟩,-⟩
    rw [(findIdx_carriageReturn input).2 hno] at hreturn
    cases hreturn
  | none =>
    rw [findIdx_carriageReturn] at hreturn
    dsimp only
    by_cases hlast : input.getLast?≠some '\n'
    · rw [if_pos hlast]
      exact hbytes.bind_fail _ fun document h => hlast (documentText_ends h.1).1
    rw [if_neg hlast]
    by_cases hempty : input.dropLast=[]
    · rw [if_pos hempty]
      exact hbytes.bind_fail _ fun document h => (documentText_ends h.1).2 hempty
    rw [if_neg hempty]
    obtain ⟨front,rfl⟩ := List.getLast?_eq_some_iff.1 (not_not.1 hlast)
    -- the input is the lines that splitting gives, each with its line feed
    have hinput := unlines_splitOn front
    have hsplit : (unlines (front.splitOn '\n')).dropLast.splitOn '\n'=front.splitOn '\n' := by
      rw [hinput,List.dropLast_concat]
    refine (yields_enforced fun _ => yields_enforced fun _ => yields_fields limits _).congr
      fun document => ?_
    rw [List.dropLast_concat,count_lineFeed]
    rw [← hinput] at hreturn
    have hiff := documentText_iff limits document hsplit hreturn
    rw [hinput] at hiff
    constructor
    · rintro ⟨hbytes,hlines,hread,hvals⟩
      obtain ⟨htext,hwith,hcount⟩ := hiff.2 hread
      exact ⟨htext,hbytes,hlines,hcount,hwith,hvals⟩
    · rintro ⟨htext,hbytes,hlines,hcount,hwith,hvals⟩
      exact ⟨hbytes,hlines,hiff.1 ⟨htext,hwith,hcount⟩,hvals⟩

end

end Ash.AsonFields
