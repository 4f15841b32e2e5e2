import Ash.AsonRows
import Mathlib.Data.List.Nodup

/-! # Keys and headers

A header is a key, the declared number of rows of a table, and its columns in braces. -/

namespace Ash.AsonHeaders
open ByteCodecs Numerals TextSlices AsonDocuments AsonParser AsonGrammar AsonScalars AsonItems
open AsonRows ParserOutcomes

/-! ## Keys -/

theorem isAsciiTest_keyStart :
    isAsciiTest (fun b => isAsciiAlphabetic b || b == '_'.toUInt8) (letters++['_'])=true := by
  decide +kernel

theorem all_isKeyByte (text : Text) :
    (utf8 text).all isKeyByte=true ↔ ∀ c∈text, c∈keyChars :=
  all_utf8_mem (by decide +kernel) text

variable {c : Char}

theorem isValidKey_iff {value : Text} : isValidKey value=true ↔ KeyText value := by
  cases value with
  | nil =>
    constructor
    · intro h
      exact absurd h (by decide)
    · rintro ⟨first,rest,h,-⟩
      cases h
  | cons c chars =>
    obtain ⟨b,bytes,hc⟩ := exists_utf8EncodeChar c
    obtain ⟨hstart,hbytes⟩ := isAsciiTest_head isAsciiTest_keyStart hc
    rw [List.mem_append,List.mem_singleton] at hstart hbytes
    have hvalid : isValidKey (c::chars) =
        ((isAsciiAlphabetic b || b == '_'.toUInt8) && (bytes++utf8 chars).all isKeyByte) := by
      simp only [isValidKey,utf8,List.flatMap_cons,hc,List.cons_append]
    rw [hvalid,Bool.and_eq_true,hstart]
    constructor
    · rintro ⟨hfirst,hrest⟩
      rw [hbytes hfirst] at hrest
      exact ⟨c,chars,rfl,hfirst,(all_isKeyByte chars).1 hrest⟩
    · rintro ⟨first,rest,heq,hfirst,hrest⟩
      obtain ⟨rfl,rfl⟩ := List.cons.inj heq
      rw [hbytes hfirst]
      exact ⟨hfirst,(all_isKeyByte chars).2 hrest⟩

theorem keyText_value (key : Key) : KeyText key.value := isValidKey_iff.1 key.valid

theorem value_ne_nil (key : Key) : key.value≠[] := by
  obtain ⟨first,rest,h,-⟩ := keyText_value key
  simp [h]

theorem mem_value {key : Key} (h : c∈key.value) : c∈keyChars := by
  obtain ⟨first,rest,hvalue,hfirst,hrest⟩ := keyText_value key
  rw [hvalue,List.mem_cons] at h
  obtain rfl | h := h
  · obtain hletter | rfl := hfirst
    · simp [keyChars,hletter]
    · decide
  · exact hrest c h

/-- The characters with a meaning in headers and lines do not occur in keys. -/
theorem not_mem_value (key : Key) (hc : c∉keyChars) : c∉key.value :=
  fun h => hc (mem_value h)

section
variable {bits : ℕ} (limits : Limits bits)

theorem yields_key (source : Text) (line : ℕ) :
    Yields (AsonParser.key limits source line) fun key =>
      byteLength source ≤ limits.maxKeyBytes ∧ key.value=source := by
  refine yields_enforced fun _ => ?_
  refine (yields_checked (fun _ => Key.new_ok) (fun key => key) (fun key h => by rw [h])
    fun e h => ⟨_,by rw [h]⟩).congr fun key => ?_
  simp [eq_comm]

/-! ## Columns -/

/-- Columns that a header may have. -/
structure ColumnsRead (columns : List Key) : Prop where
  wellNamed : WellNamed columns
  count : columns.length ≤ limits.maxColumns
  keyBytes : ∀ column∈columns, byteLength column.value ≤ limits.maxKeyBytes

/-- The loop adds the named columns to those it has. -/
theorem yields_columnsLoop (line : ℕ) (sources : List Text) (columns : List Key)
    (hdist : (names columns).Nodup) (hcount : columns.length ≤ limits.maxColumns) :
    Yields (columnsLoop limits line sources columns) fun all =>
      ∃ added, all=columns++added ∧ names added=sources ∧ (names all).Nodup ∧
        all.length ≤ limits.maxColumns ∧
        ∀ column∈added, byteLength column.value ≤ limits.maxKeyBytes := by
  induction sources generalizing columns with
  | nil =>
    refine (yields_ok columns).congr fun all => ?_
    constructor
    · rintro rfl
      exact ⟨[],by simp,rfl,hdist,hcount,by simp⟩
    · rintro ⟨added,rfl,hnames,-⟩
      have hadded : added=[] := by simpa [names] using hnames
      simp [hadded]
  | cons source sources ih =>
    rw [columnsLoop]
    -- the bounds of the longer list are known once its name is new
    refine (yields_enforced fun hle => (yields_key limits source line).bind fun key _ =>
      yields_guard _ fun hnew : key.value∉names columns => ih (columns++[key]) (by
        rw [names,List.map_append,List.map_singleton,← List.concat_eq_append]
        exact (List.nodup_concat _ _).2 ⟨hnew,hdist⟩) (by simpa using hle)).congr fun all => ?_
    constructor
    · rintro ⟨-,key,⟨hbytes,rfl⟩,-,added,rfl,hnames,hnodup,hlen,hall⟩
      refine ⟨key::added,by simp,by simpa [names] using hnames,hnodup,hlen,?_⟩
      exact List.forall_mem_cons.2 ⟨hbytes,hall⟩
    · rintro ⟨added,rfl,hnames,hnodup,hlen,hall⟩
      obtain ⟨key,added,rfl,rfl,rfl⟩ := List.map_eq_cons_iff.1 hnames
      have hnew : key.value∉names columns := by
        rw [names,List.map_append,List.nodup_append] at hnodup
        exact fun hmem => hnodup.2.2 _ hmem _ (by simp) rfl
      rw [List.forall_mem_cons] at hall
      refine ⟨?_,key,⟨hall.1,rfl⟩,hnew,added,by simp,rfl,hnodup,hlen,hall.2⟩
      simp only [List.length_append,List.length_cons] at hlen
      omega

theorem comma_not_mem_value (key : Key) : ','∉key.value := not_mem_value key (by decide)

theorem splitOn_names {columns : List Key} (hne : columns≠[]) :
    (commas (names columns)).splitOn ','=names columns := by
  refine List.splitOn_intercalate ',' (fun name hname => ?_) (by simpa [names] using hne)
  obtain ⟨key,-,rfl⟩ := List.mem_map.1 hname
  exact comma_not_mem_value key

theorem yields_columns (source : Text) (line : ℕ) :
    Yields (AsonParser.columns limits source line) fun columns =>
      source=commas (names columns) ∧ ColumnsRead limits columns := by
  refine (yields_guard _ fun _ =>
    yields_columnsLoop limits line (source.splitOn ',') [] (by simp [names]) (by simp)).congr
    fun columns => ?_
  constructor
  · rintro ⟨hne,added,rfl,hnames,hdist,hcount,hbytes⟩
    have hsrc : source=commas (names columns) := by
      rw [hnames]
      exact (List.intercalate_splitOn ',').symm
    refine ⟨hsrc,⟨?_,hdist⟩,hcount,hbytes⟩
    rintro rfl
    exact hne hsrc
  · rintro ⟨rfl,⟨hne,hdist⟩,hcount,hbytes⟩
    refine ⟨commas_ne_nil (by simpa [names] using hne) fun name hname => ?_,columns,rfl,
      (splitOn_names hne).symm,hdist,hcount,hbytes⟩
    obtain ⟨key,-,rfl⟩ := List.mem_map.1 hname
    exact value_ne_nil key

end

/-! ## Row counts -/

/-- The three tests of a row count leave the canonical numerals. -/
theorem rowCount_canonical {source : Text} :
    ¬ (source=[] ∨ (utf8 source).all isAsciiDigit=false ∨
        (1 < byteLength source ∧ source.head?=some '0')) ↔
      isCanonicalNumeral source=true := by
  rw [not_or,not_or,Bool.not_eq_false,all_isAsciiDigit]
  constructor
  · rintro ⟨hne,hall,hzero⟩
    exact (isCanonicalNumeral_iff hne hall).2 hzero
  · intro h
    have hdecimal := decimal_ofDecimal h
    have hne : source≠[] := by
      rw [← hdecimal]
      exact decimal_ne_nil _
    have hall : ∀ c∈source, c∈decimalDigits := by
      rw [← hdecimal]
      exact fun c => mem_decimal
    exact ⟨hne,hall,(isCanonicalNumeral_iff hne hall).1 h⟩

theorem yields_parseRowCount (bits : ℕ) (source : Text) (line : ℕ) :
    Yields (parseRowCount bits source line) fun n => source=decimal n ∧ n < 2 ^ bits := by
  refine (yields_guard _ fun _ => yields_ite (fun _ => yields_ok (ofDecimal source)) fun _ =>
    yields_fail _ fun _ => id).congr fun n => ?_
  rw [rowCount_canonical]
  constructor
  · rintro ⟨hcan,⟨hlt,rfl⟩ | ⟨-,h⟩⟩
    · exact ⟨(decimal_ofDecimal hcan).symm,hlt⟩
    · exact h.elim
  · rintro ⟨rfl,hlt⟩
    refine ⟨isCanonicalNumeral_decimal n,.inl ?_⟩
    rw [ofDecimal_decimal]
    exact ⟨hlt,rfl⟩

/-- The declared number of rows in brackets, or nothing for a record. -/
def rowsText : Option ℕ → Text
  | none => []
  | some n => '['::decimal n++[']']

theorem bracket_not_mem_decimal (n : ℕ) : '['∉decimal n := fun h =>
  absurd (mem_decimal h) (by decide)

/-- A front that ends with a bracket is cut at its last opening one. -/
theorem front_cut {inner : Text} {bracket : ℕ}
    (h : rfindByte (· == '[') (inner++[']'])=some bracket) :
    ∃ source count, inner++[']']=source ++ '['::count++[']'] ∧ '['∉count ∧
      bracket=byteLength source := by
  obtain ⟨source,c,right,heq,hc,hright,hbrk⟩ := rfindByte_some h
  obtain rfl : c = '[' := by simpa using hc
  have hne : right≠[] := by
    rintro rfl
    have := congrArg List.getLast? heq
    simp at this
  obtain ⟨count,last,rfl⟩ := (List.eq_nil_or_concat' right).resolve_left hne
  have hends : inner++[']']=(source ++ '['::count)++[last] := by
    rw [heq]
    simp
  obtain ⟨rfl,hlast⟩ := List.append_inj' hends rfl
  obtain rfl : ']'=last := by simpa using hlast
  refine ⟨source,count,rfl,fun hmem => ?_,hbrk⟩
  have := hright '[' (by simp [hmem])
  cases this

/-- The text before the braces of a header: a key text, and the declared rows. -/
theorem yields_headerKey (bits : ℕ) (front : Text) (line : ℕ) :
    Yields (headerKey bits front line) fun found =>
      front=found.1++rowsText found.2 ∧ (∀ n∈found.2, n < 2 ^ bits) ∧
        (found.2=none → '['∉front ∧ ']'∉front) := by
  unfold headerKey
  by_cases hlast : front.getLast?=some ']'
  · rw [if_pos hlast]
    obtain ⟨inner,rfl⟩ := List.getLast?_eq_some_iff.1 hlast
    cases hfind : rfindByte (· == '[') (inner++[']']) with
    | none =>
      refine yields_fail _ fun found => ?_
      rw [rfindByte_eq_none] at hfind
      rintro ⟨heq,-,hnone⟩
      obtain ⟨source,rows⟩ := found
      cases rows with
      | none => exact (hnone rfl).2 (by simp)
      | some n =>
        have := hfind '[' (by rw [heq]; simp [rowsText])
        cases this
    | some bracket =>
      obtain ⟨source,count,heq,hcount,rfl⟩ := front_cut hfind
      have hopen : ('[').utf8Size=1 := by decide
      have hclose : (']').utf8Size=1 := by decide
      have hcutCount : Yields (cut (inner++[']']) (byteLength source+1)
          (byteLength (inner++[']']) - 1) : Outcome Text) (· = count) :=
        yields_cut (source++['[']) count [']'] (by rw [heq]; simp) (by simp [hopen])
          (by rw [heq]; simp [hopen,hclose]; omega)
      have hcutSource : Yields (cut (inner++[']']) 0 (byteLength source) : Outcome Text)
          (· = source) :=
        yields_cut [] source ('['::count++[']']) (by rw [heq]; simp) rfl rfl
      refine (hcutCount.bind fun text _ => hcutSource.bind fun text' _ =>
        (yields_parseRowCount bits text line).bind fun n _ =>
          yields_pure (text',some n)).congr fun found => ?_
      constructor
      · rintro ⟨_,rfl,_,rfl,n,⟨rfl,hlt⟩,rfl⟩
        exact ⟨by rw [heq]; simp [rowsText],by simpa using hlt,by simp⟩
      · obtain ⟨source',rows⟩ := found
        rintro ⟨hfront,hlt,hnone⟩
        cases rows with
        | none => exact absurd (by simp) (hnone rfl).2
        | some n =>
          have hparts : source ++ '['::(count++[']'])=source' ++ '['::(decimal n++[']']) := by
            simpa [rowsText] using heq.symm.trans hfront
          obtain ⟨rfl,hnumber⟩ := append_cons_inj_of_not_mem (by simpa using hcount)
            (by simpa using bracket_not_mem_decimal n) hparts
          rw [List.append_cancel_right_eq] at hnumber
          exact ⟨count,rfl,source,rfl,n,⟨hnumber,hlt n rfl⟩,rfl⟩
  · rw [if_neg hlast]
    refine (yields_guard _ fun _ => yields_ok (front,none)).congr fun found => ?_
    constructor
    · rintro ⟨hno,rfl⟩
      exact ⟨by simp [rowsText],by simp,fun _ => not_or.1 hno⟩
    · obtain ⟨source,rows⟩ := found
      rintro ⟨hfront,-,hnone⟩
      cases rows with
      | none => exact ⟨not_or.2 (hnone rfl),by simp [hfront,rowsText]⟩
      | some n =>
        refine absurd ?_ hlast
        rw [hfront,rowsText,← List.append_assoc]
        exact List.getLast?_concat

/-! ## Headers -/

section
variable {bits : ℕ} (limits : Limits bits)

def headerText (header : Header) : Text :=
  header.key.value++rowsText header.rows++writeColumns header.columns

structure HeaderReads (head : Text) (header : Header) : Prop where
  text : head=headerText header
  keyBytes : byteLength header.key.value ≤ limits.maxKeyBytes
  columns : ColumnsRead limits header.columns
  rows : ∀ n∈header.rows, n < 2 ^ bits

theorem not_mem_rowsText {rows : Option ℕ} {c : Char} (hc : c∉decimalDigits) (hopen : c ≠ '[')
    (hclose : c ≠ ']') : c∉rowsText rows := by
  cases rows with
  | none => simp [rowsText]
  | some n =>
    have hn : c∉decimal n := fun h => hc (mem_decimal h)
    simp [rowsText,hn,hopen,hclose]

theorem brace_not_mem_front (key : Key) (rows : Option ℕ) : '\x7b'∉key.value++rowsText rows := by
  rw [List.mem_append,not_or]
  exact ⟨not_mem_value key (by decide),not_mem_rowsText (by decide) (by decide) (by decide)⟩

/-- A head in braces is cut at its first opening one. -/
theorem head_cut {head : Text} {start : ℕ} (hlast : head.getLast?=some '\x7d')
    (h : findByte (· == '\x7b') head=some start) :
    ∃ front inner, head=front ++ '\x7b'::inner++['\x7d'] ∧ '\x7b'∉front ∧
      start=byteLength front := by
  obtain ⟨front,c,right,rfl,hc,hfront,hstart⟩ := findByte_some h
  obtain rfl : c = '\x7b' := by simpa using hc
  have hne : right≠[] := by
    rintro rfl
    simp at hlast
  obtain ⟨inner,last,rfl⟩ := (List.eq_nil_or_concat' right).resolve_left hne
  have hends : (front ++ '\x7b'::inner++[last]).getLast?=some '\x7d' := by
    simpa using hlast
  rw [List.getLast?_concat,Option.some.injEq] at hends
  subst hends
  refine ⟨front,inner,by simp,fun hmem => ?_,hstart⟩
  have := hfront _ hmem
  cases this

theorem yields_header (head : Text) (line : ℕ) :
    Yields (header limits head line) (HeaderReads limits head) := by
  unfold header
  by_cases hlast : head.getLast?≠some '\x7d'
  · rw [if_pos hlast]
    refine yields_fail _ fun header => ?_
    intro hreads
    refine hlast ?_
    rw [hreads.text,headerText,writeColumns,← List.append_assoc]
    exact List.getLast?_concat
  · rw [if_neg hlast]
    rw [not_not] at hlast
    cases hfind : findByte (· == '\x7b') head with
    | none =>
      refine yields_fail _ fun header => ?_
      intro hreads
      have := findByte_eq_none.1 hfind '\x7b' (by
        rw [hreads.text,headerText,writeColumns]
        simp)
      cases this
    | some start =>
      obtain ⟨front,inner,rfl,hfront,rfl⟩ := head_cut hlast hfind
      have hopen : ('\x7b').utf8Size=1 := by decide
      have hclose : ('\x7d').utf8Size=1 := by decide
      have hcutFront : Yields (cut (front ++ '\x7b'::inner++['\x7d']) 0 (byteLength front) :
          Outcome Text) (· = front) :=
        yields_cut [] front ('\x7b'::inner++['\x7d']) (by simp) rfl rfl
      have hcutInner : Yields (cut (front ++ '\x7b'::inner++['\x7d']) (byteLength front+1)
          (byteLength (front ++ '\x7b'::inner++['\x7d']) - 1) : Outcome Text) (· = inner) :=
        yields_cut (front++['\x7b']) inner ['\x7d'] (by simp) (by simp [hopen])
          (by simp [hopen,hclose]; omega)
      refine (hcutFront.bind fun front' _ => hcutInner.bind fun inner' _ =>
        (yields_headerKey bits front' line).bind fun found _ =>
          (yields_key limits found.1 line).bind fun key _ =>
            (yields_columns limits inner' line).bind fun columns _ =>
              yields_pure (⟨key,columns,found.2⟩ : Header)).congr fun header => ?_
      constructor
      · rintro ⟨_,rfl,_,rfl,⟨source,rows⟩,⟨rfl,hrows,-⟩,key,⟨hbytes,rfl⟩,columns,⟨rfl,hcols⟩,rfl⟩
        exact ⟨by simp [headerText,writeColumns],hbytes,hcols,hrows⟩
      · rintro ⟨htext,hbytes,hcols,hrows⟩
        have hparts : front ++ '\x7b'::(inner++['\x7d'])=(header.key.value ++
            rowsText header.rows) ++ '\x7b'::(commas (names header.columns)++['\x7d']) := by
          simpa [headerText,writeColumns] using htext
        obtain ⟨rfl,hinner⟩ := append_cons_inj_of_not_mem_left hfront
          (brace_not_mem_front header.key header.rows) hparts
        rw [List.append_cancel_right_eq] at hinner
        refine ⟨_,rfl,_,rfl,(header.key.value,header.rows),⟨rfl,hrows,?_⟩,header.key,⟨hbytes,rfl⟩,
          header.columns,⟨hinner,hcols⟩,rfl⟩
        intro hnone
        rw [show header.rows=none from hnone,rowsText,List.append_nil]
        exact ⟨not_mem_value _ (by decide),not_mem_value _ (by decide)⟩

end

end Ash.AsonHeaders
