import Ash.AsonFields
import Mathlib.Order.Filter.AtTopBot.Basic
import Mathlib.Order.Filter.Finite

/-! # Writing and reading

The canonical text of a document is one of its texts in the grammar, and none of them is
shorter.  A text stands for one document only. -/

namespace Ash.AsonRoundTrip
open ByteCodecs Numerals TextSlices AsonDocuments AsonParser AsonGrammar AsonScalars AsonItems
open AsonRows AsonHeaders AsonFields ParserOutcomes

/-! ## Canonical texts -/

theorem length_hex_le (c : Char) : (hex c.toNat).length ≤ 6 := by
  refine (Nat.length_toDigits_le_iff (by decide) (by decide)).2 ?_
  have hvalid := c.valid
  have hval : c.val.toNat=c.toNat := rfl
  simp only [UInt32.isValidChar,Nat.isValidChar] at hvalid
  omega

theorem quotedChar_writeQuotedChar (c : Char) : QuotedChar (writeQuotedChar c) c := by
  unfold writeQuotedChar
  split_ifs with hslash hquote h h h hctl
  · exact .short (by simp [ShortEscape,hslash])
  · exact .short (by simp [ShortEscape,hquote])
  · exact .short (by simp [ShortEscape,h])
  · exact .short (by simp [ShortEscape,h])
  · exact .short (by simp [ShortEscape,h])
  · exact .unicode Nat.toDigits_ne_nil (length_hex_le c)
      (fun d hd => isHexDigit_of_mem_hex hd) (ofHex_hex _)
  · exact .plain hquote hslash (by simpa using hctl)

theorem quotedText_writeQuoted (value : Text) :
    QuotedText (value.flatMap writeQuotedChar) value := by
  induction value with
  | nil => exact .nil
  | cons c value ih => exact .cons (quotedChar_writeQuotedChar c) ih

theorem isReferenceSyntax_iff {value : Text} : isReferenceSyntax value=true ↔ ReferenceText value := by
  unfold isReferenceSyntax
  split
  · next number =>
    rw [Bool.and_eq_true,Bool.not_eq_true',List.isEmpty_eq_false_iff,all_isAsciiDigit]
    constructor
    · rintro ⟨hne,hall⟩
      exact ⟨number,hne,hall,rfl⟩
    · rintro ⟨other,hne,hall,heq⟩
      obtain rfl := (List.cons.inj heq).2
      exact ⟨hne,hall⟩
  · next hno =>
    simp only [Bool.false_eq_true,false_iff]
    rintro ⟨number,-,-,rfl⟩
    exact hno number rfl

theorem isBareText_iff {value : Text} : isBareText value=true ↔
    value≠[] ∧ (∀ c∈value, c∈bareChars) ∧ ¬ ReferenceText value := by
  rw [isBareText,Bool.and_eq_true,Bool.and_eq_true,Bool.not_eq_true',Bool.not_eq_true',
    all_isBareByte,← isReferenceSyntax_iff,Bool.not_eq_true,List.isEmpty_eq_false_iff,and_assoc]

theorem atomText_writeAtom (a : Atom) : AtomText (writeAtom a) a := by
  cases a with
  | null => exact .null
  | reference id => exact .reference id
  | text value =>
    rw [writeAtom]
    split
    · next hbare =>
      obtain ⟨hne,hall,href⟩ := isBareText_iff.1 hbare
      exact .bare hne hall href
    · exact .quoted (quotedText_writeQuoted value)

variable {α : Type} {bits : ℕ}

theorem forall₂_map_self {f : α → Text} {R : Text → α → Prop} (h : ∀ a, R (f a) a) (as : List α) :
    List.Forall₂ R (as.map f) as := by
  rw [List.forall₂_map_left_iff,List.forall₂_same]
  exact fun a _ => h a

theorem vectorText_writeVector (atoms : List Atom) : VectorText (writeVector atoms) atoms :=
  ⟨atoms.map writeAtom,forall₂_map_self atomText_writeAtom atoms,rfl⟩

theorem cellText_writeCell (cell : Cell) : CellText (writeCell cell) cell := by
  cases cell with
  | atom a => exact .atom (atomText_writeAtom a)
  | vector atoms => exact .vector (vectorText_writeVector atoms)

/-- A row as it is written, without its line feed. -/
def rowText (row : List Cell) : Text := commas (row.map writeCell)

theorem rowText_rowText (row : List Cell) : RowText (rowText row) row :=
  ⟨row.map writeCell,forall₂_map_self cellText_writeCell row,rfl⟩

/-- The lines that a field is written on. -/
def lines (field : Field) : List Text :=
  match field.value with
  | .scalar a => [field.key.value ++ ':'::writeAtom a]
  | .vector atoms => [field.key.value ++ ':'::writeVector atoms]
  | .record r => [field.key.value++writeColumns r.columns++[':'],rowText r.values]
  | .table t => (field.key.value ++ '['::decimal t.rows.length++[']'] ++
      writeColumns t.columns++[':'])::t.rows.map rowText

theorem fieldLines_lines (field : Field) : FieldLines (lines field) field := by
  obtain ⟨key,value⟩ := field
  have hcols : ∀ columns : List Key, ∀ column∈columns, KeyText column.value :=
    fun _ column _ => keyText_value column
  cases value with
  | scalar a => exact .scalar (keyText_value key) (atomText_writeAtom a)
  | vector atoms => exact .vector (keyText_value key) (vectorText_writeVector atoms)
  | record r => exact .record (keyText_value key) (hcols _) (rowText_rowText r.values)
  | table t =>
    exact .table (keyText_value key) (hcols _) (forall₂_map_self rowText_rowText t.rows)

theorem writeField_eq (field : Field) : writeField field=unlines (lines field) := by
  obtain ⟨key,value⟩ := field
  cases value with
  | scalar | vector => simp [writeField,lines,unlines]
  | record r => simp [writeField,lines,unlines,writeRow,rowText]
  | table t =>
    have hrows : t.rows.flatMap writeRow=t.rows.flatMap fun row => rowText row++['\n'] := rfl
    simp [writeField,lines,unlines,List.flatMap_map,hrows]

theorem unlines_append (front back : List Text) :
    unlines (front++back)=unlines front++unlines back := List.flatMap_append

theorem encode_eq (document : Document) :
    encode document=unlines (document.fields.map lines).flatten := by
  have hflds : ∀ fields : List Field,
      fields.flatMap writeField=unlines (fields.map lines).flatten := by
    intro fields
    induction fields with
    | nil => rfl
    | cons field fields ih =>
      rw [List.flatMap_cons,ih,writeField_eq,List.map_cons,List.flatten_cons,unlines_append]
  exact hflds document.fields

theorem forall₂_lines (document : Document) :
    List.Forall₂ FieldLines (document.fields.map lines) document.fields := by
  rw [List.forall₂_map_left_iff,List.forall₂_same]
  exact fun field _ => fieldLines_lines field

variable {blocks : List (List Text)} {fields : List Field} {c : Char}

/-- The line feed is the only control character of a text. -/
theorem control_not_mem (h : List.Forall₂ FieldLines blocks fields) (hc : isControl c=true)
    (hne : c ≠ '\n') : c∉unlines blocks.flatten := by
  intro hmem
  obtain ⟨line,hline,hmem⟩ := List.mem_flatMap.1 hmem
  have hno := not_mem_of_printable (printable_blocks h line hline) hc
  rw [List.mem_append,List.mem_singleton] at hmem
  exact hmem.elim hno hne

theorem control_not_mem_encode (document : Document) (hc : isControl c=true) (hne : c ≠ '\n') :
    c∉encode document := by
  rw [encode_eq]
  exact control_not_mem (forall₂_lines document) hc hne

/-- The canonical text of a document is a text of it. -/
theorem documentText_encode (document : Document) : DocumentText (encode document) document := by
  refine ⟨document.fields.map lines,forall₂_lines document,encode_eq document,?_⟩
  exact control_not_mem_encode document (by decide) (by decide)

/-! ## One document for a text -/

/-- All ceilings at one number. -/
def uniform (n : ℕ) : Limits n :=
  have top : Usize n := ⟨n,Nat.lt_two_pow_self⟩
  ⟨top,top,top,top,top,top,top,top,top⟩

section
open Filter

private theorem eventually_forall_mem {α : Type} {items : List α} {p : ℕ → α → Prop}
    (h : ∀ a∈items, ∀ᶠ n in atTop, p n a) : ∀ᶠ n in atTop, ∀ a∈items, p n a :=
  (eventually_all_finite items.finite_toSet).2 h

theorem eventually_cellWithin (cell : Cell) : ∀ᶠ n in atTop, CellWithin (uniform n) cell := by
  have hitems : ∀ᶠ n in atTop, ∀ atoms∈cell.vectors, atoms.length ≤ n :=
    eventually_forall_mem fun atoms _ => eventually_ge_atTop atoms.length
  have hbytes : ∀ᶠ n in atTop, ∀ a∈cell.atoms, a.textBytes ≤ n :=
    eventually_forall_mem fun a _ => eventually_ge_atTop a.textBytes
  filter_upwards [hitems,hbytes] with n hitems hbytes
  exact ⟨hitems,hbytes⟩

theorem eventually_fieldWithin (field : Field) : ∀ᶠ n in atTop, FieldWithin (uniform n) field := by
  have hkeys : ∀ᶠ n in atTop, ∀ key∈field.key::field.value.columns, byteLength key.value ≤ n :=
    eventually_forall_mem fun key _ => eventually_ge_atTop (byteLength key.value)
  have hcells : ∀ᶠ n in atTop, ∀ cell∈field.value.cells, CellWithin (uniform n) cell :=
    eventually_forall_mem fun cell _ => eventually_cellWithin cell
  filter_upwards [hkeys,eventually_ge_atTop field.value.columns.length,
    eventually_ge_atTop field.value.rowCount,hcells] with n hkeys hcols hrows hcells
  exact ⟨hkeys,hcols,hrows,hcells⟩

/-- Every document keeps within large enough ceilings. -/
theorem eventually_within (text : Text) (document : Document) :
    ∀ᶠ n in atTop, Within (uniform n) text document := by
  have heach : ∀ᶠ n in atTop, ∀ field∈document.fields, FieldWithin (uniform n) field :=
    eventually_forall_mem fun field _ => eventually_fieldWithin field
  filter_upwards [eventually_ge_atTop (byteLength text),eventually_ge_atTop (text.count '\n'),
    eventually_ge_atTop document.fields.length,heach,
    eventually_ge_atTop (document.fields.map Field.valueCount).sum]
    with n hbytes hlines hflds heach hvals
  exact ⟨hbytes,hlines,hflds,heach,hvals⟩

end

theorem documentText_unique {text : Text} {document other : Document}
    (h : DocumentText text document) (h' : DocumentText text other) : document=other := by
  obtain ⟨n,hn,hn'⟩ := ((eventually_within text document).and
    (eventually_within text other)).exists
  have hread := ((yields_document (uniform n) text).ok_iff document).2 ⟨h,hn⟩
  rw [((yields_document (uniform n) text).ok_iff other).2 ⟨h',hn'⟩] at hread
  exact (Except.ok.inj hread).symm

/-- Two documents with one canonical text are the same. -/
theorem encode_injective : Function.Injective encode := by
  intro document other h
  have hother := documentText_encode other
  rw [← h] at hother
  exact documentText_unique (documentText_encode document) hother

/-- A text of a document is read as that document within the ceilings, and refused
beyond them. -/
theorem decodeWithLimits_documentText (limits : Limits bits) {text : Text} {document : Document}
    (h : DocumentText text document) :
    (Within limits text document ∧ decodeWithLimits text limits=.ok document) ∨
      (¬ Within limits text document ∧ ∃ e, decodeWithLimits text limits=.error (.error e)) := by
  have hread := yields_document limits text
  by_cases hwith : Within limits text document
  · exact .inl ⟨hwith,(hread.ok_iff document).2 ⟨h,hwith⟩⟩
  · refine .inr ⟨hwith,?_⟩
    change ∃ e, AsonParser.document limits text=.error (.error e)
    cases hres : AsonParser.document limits text with
    | ok other =>
      obtain ⟨hother,hwithin'⟩ := (hread.ok_iff other).1 hres
      rw [documentText_unique h hother] at hwith
      exact absurd hwithin' hwith
    | error fault =>
      cases fault with
      | error e => exact ⟨e,rfl⟩
      | panic => exact absurd hres hread.noPanic
      | outOfFuel => exact absurd hres hread.fuelled

/-- The parser accepts just the grammar, within the ceilings, and never slices outside its
input or runs out of its loop bound.  `decode` is the case of the default ceilings. -/
theorem decode_accepts_grammar {bits : ℕ} (limits : Limits bits) (input : Text) :
    (∀ document, decodeWithLimits input limits=.ok document ↔
      DocumentText input document ∧ Within limits input document) ∧
    decodeWithLimits input limits≠.error .panic ∧
    decodeWithLimits input limits≠.error .outOfFuel :=
  ⟨(yields_document limits input).ok_iff,(yields_document limits input).noPanic,
    (yields_document limits input).fuelled⟩

/-- Decoding undoes encoding just within the ceilings, and is an error just beyond them. -/
theorem decode_encode_iff {bits : ℕ} (limits : Limits bits) (document : Document) :
    (decodeWithLimits (encode document) limits=.ok document ↔
      Within limits (encode document) document) ∧
    ((∃ e, decodeWithLimits (encode document) limits=.error (.error e)) ↔
      ¬ Within limits (encode document) document) := by
  obtain ⟨hwith,hok⟩ | ⟨hwith,herror⟩ :=
    decodeWithLimits_documentText limits (documentText_encode document)
  · simp [hwith,hok]
  · obtain ⟨e,he⟩ := herror
    simp [hwith,he]

/-! ## Canonical texts are shortest -/

theorem byteLength_unicode (number : Text) (h : ∀ d∈number, isHexDigit d=true) :
    byteLength ('\\' :: 'u' :: '\x7b'::number++['\x7d'])=4+number.length := by
  have hslash : ('\\').utf8Size=1 := by decide
  have hletter : ('u').utf8Size=1 := by decide
  have hopen : ('\x7b').utf8Size=1 := by decide
  have hclose : ('\x7d').utf8Size=1 := by decide
  simp only [List.cons_append,byteLength_cons,byteLength_append,byteLength_nil,hslash,hletter,
    hopen,hclose,byteLength_of_hex h]
  omega

/-- A written character: two bytes of an escape, a unicode escape, or the character. -/
theorem byteLength_writeQuotedChar (c : Char) :
    (c.utf8Size=1 ∧ byteLength (writeQuotedChar c)=2) ∨
      byteLength (writeQuotedChar c)=4+(hex c.toNat).length ∨
      byteLength (writeQuotedChar c)=c.utf8Size := by
  unfold writeQuotedChar
  split_ifs with h h h h h
  · exact .inl (by subst h; decide)
  · exact .inl (by subst h; decide)
  · exact .inl (by subst h; decide)
  · exact .inl (by subst h; decide)
  · exact .inl (by subst h; decide)
  · exact .inr (.inl (byteLength_unicode _ fun d hd => isHexDigit_of_mem_hex hd))
  · exact .inr (.inr (by simp))

theorem utf8Size_le_writeQuotedChar (c : Char) : c.utf8Size ≤ byteLength (writeQuotedChar c) := by
  have hfour := c.utf8Size_le_four
  have := byteLength_writeQuotedChar c
  omega

theorem writeQuotedChar_plain (hquote : c ≠ '"') (hslash : c ≠ '\\')
    (hctl : isControl c=false) : writeQuotedChar c=[c] := by
  have hne : ∀ d, isControl d=true → c≠d := by
    rintro d hd rfl
    rw [hctl] at hd
    cases hd
  simp [writeQuotedChar,hquote,hslash,hctl,hne '\n' (by decide),hne '\r' (by decide),
    hne '\t' (by decide)]

/-- No text of a quoted character is shorter than the one that is written. -/
theorem byteLength_writeQuotedChar_le {text : Text} (h : QuotedChar text c) :
    byteLength (writeQuotedChar c) ≤ byteLength text := by
  cases h with
  | plain hquote hslash hctl => rw [writeQuotedChar_plain hquote hslash hctl]
  | @short escape _ h =>
    have hall : ∀ p∈[('\\','\\'),('"','"'),('n','\n'),('r','\r'),('t','\t')],
        byteLength (writeQuotedChar p.2) ≤ byteLength ['\\',p.1] := by decide
    exact hall _ h
  | @unicode _ number hne _ hhex hc =>
    have hhexLength := length_hex_ofHex_le hne
    have hfour := c.utf8Size_le_four
    have hpos := List.length_pos_iff.2 hne
    have hwritten := byteLength_writeQuotedChar c
    rw [← hc] at hwritten
    rw [byteLength_unicode number hhex]
    omega

theorem byteLength_writeQuoted_le {text value : Text} (h : QuotedText text value) :
    byteLength (value.flatMap writeQuotedChar) ≤ byteLength text ∧
      byteLength value ≤ byteLength text := by
  induction h with
  | nil => simp
  | @cons c first source value hc _ ih =>
    have hfirst := byteLength_writeQuotedChar_le hc
    have hchar := utf8Size_le_writeQuotedChar c
    simp only [List.flatMap_cons,byteLength_append,byteLength_cons]
    omega

theorem byteLength_writeAtom_le {text : Text} {a : Atom} (h : AtomText text a) :
    byteLength (writeAtom a) ≤ byteLength text := by
  cases h with
  | null => exact le_rfl
  | reference id => exact le_rfl
  | bare hne hbare href =>
    rw [writeAtom,if_pos (isBareText_iff.2 ⟨hne,hbare,href⟩)]
  | @quoted source value h =>
    obtain ⟨hquoted,hplain⟩ := byteLength_writeQuoted_le h
    rw [writeAtom]
    split
    · simp only [List.cons_append,byteLength_cons,byteLength_append]
      omega
    · simp only [writeQuoted,List.cons_append,byteLength_cons,byteLength_append]
      omega

/-- Joining shorter items gives a shorter text. -/
theorem byteLength_commas_le {f : α → Text} {R : Text → α → Prop}
    (hR : ∀ text a, R text a → byteLength (f a) ≤ byteLength text) {items : List Text} {as : List α}
    (h : List.Forall₂ R items as) : byteLength (commas (as.map f)) ≤ byteLength (commas items) := by
  induction h with
  | nil => exact le_rfl
  | @cons item a items as ha has ih =>
    have hitem := hR item a ha
    cases has with
    | nil => simpa using hitem
    | cons =>
      simp only [List.map_cons,commas_cons_cons,byteLength_append,byteLength_cons] at ih ⊢
      omega

theorem byteLength_writeVector_le {text : Text} {atoms : List Atom} (h : VectorText text atoms) :
    byteLength (writeVector atoms) ≤ byteLength text := by
  obtain ⟨items,hitems,rfl⟩ := h
  have hcommas := byteLength_commas_le (R := AtomText) (fun _ _ => byteLength_writeAtom_le) hitems
  simp only [writeVector,List.cons_append,byteLength_cons,byteLength_append]
  omega

theorem byteLength_writeCell_le {text : Text} {cell : Cell} (h : CellText text cell) :
    byteLength (writeCell cell) ≤ byteLength text := by
  cases h with
  | atom h => exact byteLength_writeAtom_le h
  | vector h => exact byteLength_writeVector_le h

theorem byteLength_rowText_le {text : Text} {row : List Cell} (h : RowText text row) :
    byteLength (rowText row) ≤ byteLength text := by
  obtain ⟨items,hitems,rfl⟩ := h
  exact byteLength_commas_le (R := CellText) (fun _ _ => byteLength_writeCell_le) hitems

theorem byteLength_unlines (texts : List Text) :
    byteLength (unlines texts)=(texts.map byteLength).sum+texts.length := by
  have hsize : ('\n').utf8Size=1 := by decide
  induction texts with
  | nil => rfl
  | cons text texts ih =>
    have hcons : unlines (text::texts)=text++['\n']++unlines texts := rfl
    rw [hcons,byteLength_append,byteLength_append,ih]
    simp [hsize]
    omega

theorem rows_le {texts : List Text} {rows : List (List Cell)}
    (h : List.Forall₂ RowText texts rows) :
    ((rows.map rowText).map byteLength).sum ≤ (texts.map byteLength).sum := by
  induction h with
  | nil => exact le_rfl
  | cons hrow _ ih =>
    have hle := byteLength_rowText_le hrow
    simp only [List.map_cons,List.sum_cons]
    omega

/-- A field is written on as many lines as any text of it has, and in no more bytes. -/
theorem lines_le {block : List Text} {field : Field} (h : FieldLines block field) :
    (lines field).length=block.length ∧
      ((lines field).map byteLength).sum ≤ (block.map byteLength).sum := by
  cases h with
  | scalar _ h =>
    have hle := byteLength_writeAtom_le h
    refine ⟨rfl,?_⟩
    simp only [lines,List.map_cons,List.map_nil,List.sum_cons,List.sum_nil,byteLength_append,
      byteLength_cons]
    omega
  | vector _ h =>
    have hle := byteLength_writeVector_le h
    refine ⟨rfl,?_⟩
    simp only [lines,List.map_cons,List.map_nil,List.sum_cons,List.sum_nil,byteLength_append,
      byteLength_cons]
    omega
  | record _ _ h =>
    have hle := byteLength_rowText_le h
    refine ⟨rfl,?_⟩
    simp only [lines,List.map_cons,List.map_nil,List.sum_cons,List.sum_nil]
    omega
  | table _ _ h =>
    have hle := rows_le h
    refine ⟨by simp [lines,h.length_eq],?_⟩
    simp only [lines,List.map_cons,List.sum_cons]
    omega

theorem blocks_le (h : List.Forall₂ FieldLines blocks fields) :
    (fields.map lines).flatten.length=blocks.flatten.length ∧
      byteLength (unlines (fields.map lines).flatten) ≤ byteLength (unlines blocks.flatten) := by
  induction h with
  | nil => exact ⟨rfl,le_rfl⟩
  | cons hblock _ ih =>
    obtain ⟨hlen,hbytes⟩ := lines_le hblock
    simp only [List.map_cons,List.flatten_cons,unlines_append,byteLength_append,
      byteLength_unlines,List.length_append] at ih ⊢
    omega

theorem count_unlines {texts : List Text} (h : ∀ text∈texts, '\n'∉text) :
    (unlines texts).count '\n'=texts.length := by
  induction texts with
  | nil => rfl
  | cons text texts ih =>
    have hcons : unlines (text::texts)=text++['\n']++unlines texts := rfl
    rw [List.forall_mem_cons] at h
    rw [hcons,List.count_append,List.count_append,ih h.2,List.count_eq_zero.2 h.1]
    simp
    omega

theorem count_blocks (h : List.Forall₂ FieldLines blocks fields) :
    (unlines blocks.flatten).count '\n'=blocks.flatten.length :=
  count_unlines fun line hline => not_mem_of_printable (printable_blocks h line hline) (by decide)

/-- The canonical text of a document has the lines of any text of it, in no more bytes. -/
theorem encode_le {text : Text} {document : Document} (h : DocumentText text document) :
    byteLength (encode document) ≤ byteLength text ∧
      (encode document).count '\n'=text.count '\n' := by
  obtain ⟨blocks,hblks,rfl,-⟩ := h
  obtain ⟨hlen,hbytes⟩ := blocks_le hblks
  rw [encode_eq,count_blocks (forall₂_lines document),count_blocks hblks]
  exact ⟨hbytes,hlen⟩

theorem within_encode {limits : Limits bits} {text : Text} {document : Document}
    (htext : DocumentText text document) (h : Within limits text document) :
    Within limits (encode document) document := by
  obtain ⟨hbytes,hlines⟩ := encode_le htext
  exact ⟨hbytes.trans h.bytes,hlines.le.trans h.lines,h.fields,h.each,h.values⟩

/-- Canonicalization keeps the document and the ceilings, changes nothing the second time
and never grows its input. -/
theorem canonicalize_retracts {bits : ℕ} (limits : Limits bits) (input canonical : Text)
    (h : canonicalize input limits=.ok canonical) :
    decodeWithLimits canonical limits=decodeWithLimits input limits ∧
      canonicalize canonical limits=.ok canonical ∧
      isCanonical canonical limits=.ok true ∧ byteLength canonical ≤ byteLength input := by
  cases hread : decodeWithLimits input limits with
  | error fault =>
    rw [canonicalize,hread] at h
    cases h
  | ok document =>
    rw [canonicalize,hread] at h
    obtain rfl : encode document=canonical := Except.ok.inj h
    obtain ⟨htext,hwith⟩ := ((yields_document limits input).ok_iff document).1 hread
    have hagain : decodeWithLimits (encode document) limits=.ok document :=
      ((yields_document limits _).ok_iff document).2
        ⟨documentText_encode document,within_encode htext hwith⟩
    have hcan : canonicalize (encode document) limits=.ok (encode document) := by
      rw [canonicalize,hagain]
      rfl
    refine ⟨hagain,hcan,?_,(encode_le htext).1⟩
    rw [isCanonical,hcan]
    simp [Except.map]

/-- Quotes that are not needed and a padded escape. -/
theorem canonicalize_retracts_quoted :
    canonicalize "a:[\"b\",\"\\u\x7b0a\x7d\"]\n".toList defaultLimits =
        .ok "a:[b,\"\\n\"]\n".toList ∧
      byteLength "a:[b,\"\\n\"]\n".toList ≤
        byteLength "a:[\"b\",\"\\u\x7b0a\x7d\"]\n".toList :=
  have h : canonicalize "a:[\"b\",\"\\u\x7b0a\x7d\"]\n".toList defaultLimits =
      .ok "a:[b,\"\\n\"]\n".toList := by decide +kernel
  ⟨h,(canonicalize_retracts _ _ _ h).2.2.2⟩

end Ash.AsonRoundTrip
