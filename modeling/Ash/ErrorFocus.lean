import Ash.OutputReducers
import Ash.ResponseSizes

/-! # What the focus on diagnostics keeps

The lines at both edges and around the anchors are kept, and each gap between them is left out
where its marker is shorter. -/

namespace Ash.ErrorFocus
open ByteCodecs Numerals OutputReducers TextSlices

def IsAnchored (lines : List Text) : Prop := ∃ line∈lines, isDiagnosticAnchor line=true

/-- The first and the last two lines, and from two lines before an anchor to six after it. -/
def Kept (lines : List Text) (i : ℕ) : Prop :=
  i < 2 ∨ lines.length ≤ i+2 ∨
    ∃ a line, lines[a]?=some line ∧ isDiagnosticAnchor line=true ∧ a ≤ i+2 ∧ i ≤ a+6

/-- A kept line, or the lines of a gap. -/
inductive Piece where
  | line (text : Text)
  | gap (lines : List Text)

def Piece.source : Piece → List Text
  | .line text => [text]
  | .gap lines => lines

def Piece.isOmitted : Piece → Bool
  | .line _ => false
  | .gap lines => byteLength (omissionMarker lines.length) < byteLength lines.flatten

def Piece.render (piece : Piece) : Text :=
  if piece.isOmitted then omissionMarker piece.source.length else piece.source.flatten

/-- Lines from a position on, divided into kept lines and gaps that cannot be longer. -/
inductive Divides (kept : ℕ → Prop) : ℕ → List Text → List Piece → Prop
  | nil {start} : Divides kept start [] []
  | line {start text rest pieces} (hkept : kept start) (h : Divides kept (start+1) rest pieces) :
      Divides kept start (text::rest) (.line text::pieces)
  | gap {start lines rest pieces} (hne : lines≠[])
      (hgap : ∀ i, start ≤ i → i < start+lines.length → ¬ kept i)
      (hmaximal : rest=[] ∨ kept (start+lines.length))
      (h : Divides kept (start+lines.length) rest pieces) :
      Divides kept start (lines++rest) (.gap lines::pieces)

/-! ## The mask -/

theorem getElem?_fill (mask : List Bool) (start stop i : ℕ) :
    (fill mask start stop)[i]?=some true ↔
      mask[i]?=some true ∨ i < mask.length ∧ start ≤ i ∧ i < stop := by
  by_cases hi : i < mask.length <;> simp [fill,hi]

theorem length_fill (mask : List Bool) (start stop : ℕ) :
    (fill mask start stop).length=mask.length := List.length_mapIdx

/-- The windows around the anchors are added to what is kept already. -/
theorem getElem?_windows {total : ℕ} (anchors : List (Bool × ℕ)) (mask : List Bool) (i : ℕ)
    (hlen : mask.length=total) :
    (anchors.foldl (fun mask (anchor,line) =>
        if anchor then
          fill mask (line - errorContextBefore) (min (line+(errorContextAfter+1)) total)
        else mask) mask)[i]?=some true ↔
      mask[i]?=some true ∨ i < total ∧ ∃ a, (true,a)∈anchors ∧ a ≤ i+2 ∧ i ≤ a+6 := by
  induction anchors generalizing mask with
  | nil => simp
  | cons anchor anchors ih =>
    obtain ⟨anchor,line⟩ := anchor
    rw [List.foldl_cons]
    dsimp only
    cases anchor with
    | false =>
      rw [if_neg Bool.false_ne_true,ih mask hlen]
      simp
    | true =>
      have hwindow : line - errorContextBefore ≤ i ∧ i < min (line+(errorContextAfter+1)) total ↔
          i < total ∧ line ≤ i+2 ∧ i ≤ line+6 := by
        simp only [errorContextBefore,errorContextAfter]
        omega
      rw [if_pos rfl,ih _ ((length_fill _ _ _).trans hlen),getElem?_fill,hlen,hwindow]
      simp only [List.mem_cons,Prod.mk.injEq,true_and,or_and_right,exists_or,exists_eq_left]
      tauto

theorem getElem?_retainedLines (lines : List Text) (i : ℕ) :
    (retainedLines (lines.map isDiagnosticAnchor))[i]?=some true ↔
      i < lines.length ∧ Kept lines i := by
  have hanchor : ∀ a, (true,a)∈(lines.map isDiagnosticAnchor).zipIdx ↔
      ∃ line, lines[a]?=some line ∧ isDiagnosticAnchor line=true := by
    intro a
    rw [List.mem_zipIdx_iff_getElem?,List.getElem?_map,Option.map_eq_some_iff]
  rw [retainedLines,getElem?_windows _ _ _ (by simp [length_fill]),getElem?_fill,getElem?_fill]
  have hnone : ¬ (List.replicate lines.length false)[i]?=some true := by
    simp [List.getElem?_replicate]
  have hedges : i < lines.length ∧ 0 ≤ i ∧ i < min 2 lines.length ∨
      i < lines.length ∧ lines.length - min 2 lines.length ≤ i ∧ i < lines.length ↔
        i < lines.length ∧ (i < 2 ∨ lines.length ≤ i+2) := by
    omega
  simp only [hanchor,Kept,List.length_map,errorEdgeLines,length_fill,List.length_replicate,
    hnone,false_or,hedges,← and_or_left,or_assoc,← exists_and_right,and_assoc]

/-! ## The loop -/

/-- What is found once some more pieces are told. -/
def extend (found : ErrorFocusedReduction) (pieces : List Piece) : ErrorFocusedReduction where
  text := found.text++pieces.flatMap Piece.render
  diagnosticLines := found.diagnosticLines
  omittedSpans := found.omittedSpans+(pieces.filter Piece.isOmitted).length
  omittedLines := found.omittedLines +
    ((pieces.filter Piece.isOmitted).map fun piece => piece.source.length).sum

/-- The first entries that are not kept end where one is. -/
theorem gap_spec (mask : List Bool) {gap : ℕ} (h : (mask.takeWhile fun kept => !kept).length=gap) :
    (∀ i < gap, mask[i]?≠some true) ∧ (mask.length=gap ∨ mask[gap]?=some true) := by
  induction mask generalizing gap with
  | nil => simp [← h]
  | cons kept mask ih =>
    subst h
    cases kept with
    | true => simp
    | false =>
      obtain ⟨hgap,hend⟩ := ih rfl
      refine ⟨fun i hi => ?_,by simpa using hend⟩
      cases i with
      | zero => simp
      | succ i => simpa using hgap i (by simpa using hi)

theorem decimalDigitsLoop_eq {fuel value : ℕ} (digits : ℕ) (hfuel : value ≤ fuel) :
    decimalDigitsLoop fuel value digits+1=digits+(decimal value).length := by
  induction fuel generalizing value digits with
  | zero =>
    rw [Nat.le_zero.1 hfuel]
    rfl
  | succ fuel ih =>
    rw [decimalDigitsLoop]
    split
    · next hten =>
      have hlen : (decimal value).length=(decimal (value / 10)).length+1 := by
        rw [decimal,Nat.toDigits_of_base_le (by decide) hten,List.length_append]
        rfl
      rw [ih _ (by omega),hlen]
      omega
    · next hten =>
      rw [decimal,Nat.toDigits_of_lt_base (by omega)]
      rfl

theorem omissionMarkerLen_eq (lines : ℕ) :
    omissionMarkerLen lines=byteLength (omissionMarker lines) := by
  have hdigits := decimalDigitsLoop_eq 1 (Nat.le_refl lines)
  have hfeed : ('\n').utf8Size=1 := by decide
  simp only [omissionMarkerLen,omissionMarker,decimalDigits,List.cons_append,byteLength_cons,
    byteLength_append,Responses.byteLength_decimal,byteLength_nil,hfeed]
  omega

theorem extend_line (found : ErrorFocusedReduction) (text : Text) (pieces : List Piece) :
    extend (found.push text) pieces=extend found (.line text::pieces) := by
  simp [extend,ErrorFocusedReduction.push,Piece.render,Piece.isOmitted,Piece.source]

theorem extend_gap (found : ErrorFocusedReduction) (lines : List Text) (pieces : List Piece) :
    extend (if omissionMarkerLen lines.length < byteLength lines.flatten then
        found.leaveOut lines.length
      else found.push lines.flatten) pieces=extend found (.gap lines::pieces) := by
  rw [omissionMarkerLen_eq]
  split
  · next hshorter =>
    simp [extend,ErrorFocusedReduction.leaveOut,Piece.render,Piece.isOmitted,Piece.source,
      hshorter,Nat.add_assoc,Nat.add_comm 1]
  · next hlonger =>
    simp [extend,ErrorFocusedReduction.push,Piece.render,Piece.isOmitted,Piece.source,hlonger]

theorem line_eq (layout : LineLayout) {line : ℕ} (h : line < layout.lines.length) :
    layout.line line=layout.lines[line] := by
  rw [LineLayout.line,LineLayout.span,List.drop_eq_getElem_cons h]
  exact List.append_nil _

/-- From a position on, the loop adds the pieces of the lines that are left. -/
theorem focusLoop_eq (layout : LineLayout) {retained : List Bool} {kept : ℕ → Prop}
    (hlen : retained.length=layout.totalLines)
    (hkept : ∀ i < layout.totalLines, retained[i]?=some true ↔ kept i) (fuel line : ℕ)
    (hfuel : layout.totalLines ≤ line+fuel) (found : ErrorFocusedReduction) :
    ∃ pieces, Divides kept line (layout.lines.drop line) pieces ∧
      focusLoop layout retained fuel line found=extend found pieces := by
  induction fuel generalizing line found with
  | zero =>
    rw [List.drop_eq_nil_of_le (by simpa [LineLayout.totalLines] using hfuel)]
    exact ⟨[],.nil,by simp [focusLoop,extend]⟩
  | succ fuel ih =>
    rw [focusLoop]
    by_cases hline : line < layout.totalLines
    · rw [if_pos hline]
      have hget : retained.getD line false=true ↔ retained[line]?=some true := by
        cases hfound : retained[line]? <;> simp [hfound]
      by_cases hretained : retained[line]?=some true
      · rw [if_pos (hget.2 hretained)]
        obtain ⟨pieces,hpieces,hrun⟩ := ih (line+1) (by omega) (found.push (layout.line line))
        rw [List.drop_eq_getElem_cons hline,← line_eq layout hline]
        exact ⟨_,.line ((hkept line hline).1 hretained) hpieces,hrun.trans (extend_line _ _ _)⟩
      · rw [if_neg (mt hget.1 hretained)]
        obtain ⟨hgap,hend⟩ := gap_spec (retained.drop line) rfl
        have hle := (List.takeWhile_sublist (l := retained.drop line) fun kept => !kept).length_le
        generalize ((retained.drop line).takeWhile fun kept => !kept).length=gap at hgap hend hle ⊢
        simp only [List.length_drop,List.getElem?_drop,hlen] at hgap hend hle
        have hpos : 0 < gap := by
          refine Nat.pos_of_ne_zero fun hzero => ?_
          subst hzero
          exact hend.elim (by omega) hretained
        let lines := (layout.lines.drop line).take gap
        have hlines : lines.length=gap := by
          simp only [lines,List.length_take,List.length_drop]
          exact Nat.min_eq_left hle
        have hhere : layout.lines.drop line=lines++layout.lines.drop (line+gap) := by
          rw [← List.drop_drop,List.take_append_drop]
        obtain ⟨pieces,hpieces,hrun⟩ := ih (line+gap) (by omega)
          (if omissionMarkerLen gap < byteLength lines.flatten then found.leaveOut gap
            else found.push lines.flatten)
        rw [hhere]
        refine ⟨.gap lines::pieces,?_,hrun.trans ?_⟩
        · refine .gap (List.length_pos_iff.1 (hlines ▸ hpos)) (fun i hfrom hto hkeep => ?_) ?_ ?_
          · refine hgap (i - line) (by omega) ?_
            rw [Nat.add_sub_cancel' hfrom]
            exact (hkept i (by omega)).2 hkeep
          · rw [hlines]
            refine hend.imp (fun hall => List.drop_eq_nil_of_le ?_) fun hkeep => ?_
            · rw [LineLayout.totalLines] at hall hline
              omega
            · obtain ⟨hlt,-⟩ := List.getElem?_eq_some_iff.1 hkeep
              exact (hkept _ (hlen ▸ hlt)).1 hkeep
          · rwa [hlines]
        · rw [← extend_gap,hlines]
    · rw [if_neg hline,List.drop_eq_nil_of_le (Nat.le_of_not_lt hline)]
      exact ⟨[],.nil,by simp [extend]⟩

/-! ## The whole output -/

variable {kept : ℕ → Prop} {start : ℕ} {lines : List Text} {pieces : List Piece}

theorem byteLength_render (piece : Piece) :
    byteLength piece.render ≤ byteLength piece.source.flatten := by
  rw [Piece.render]
  split
  · next homitted =>
    cases piece with
    | line => cases homitted
    | gap => exact Nat.le_of_lt (of_decide_eq_true homitted)
  · exact Nat.le_refl _

theorem Divides.byteLength_le (h : Divides kept start lines pieces) :
    byteLength (pieces.flatMap Piece.render) ≤ byteLength lines.flatten := by
  induction h with
  | nil => exact Nat.le_refl _
  | @line _ text _ _ _ _ ih =>
    have hpiece := byteLength_render (.line text)
    simp only [Piece.source,List.flatten_cons,List.flatten_nil,List.append_nil] at hpiece
    simp only [List.flatMap_cons,List.flatten_cons,byteLength_append]
    omega
  | @gap _ lines _ _ _ _ _ _ ih =>
    have hpiece := byteLength_render (.gap lines)
    simp only [Piece.source] at hpiece
    simp only [List.flatMap_cons,List.flatten_append,byteLength_append]
    omega

theorem map_line (layout : LineLayout) :
    (List.range layout.totalLines).map (fun line => isDiagnosticAnchor (layout.line line)) =
      layout.lines.map isDiagnosticAnchor := by
  refine List.ext_getElem (by simp [LineLayout.totalLines]) fun i _ hi => ?_
  rw [List.getElem_map,List.getElem_map,List.getElem_range,line_eq layout (by simpa using hi)]

theorem length_retainedLines (anchors : List Bool) :
    (retainedLines anchors).length=anchors.length := by
  refine List.foldlRecOn (motive := fun mask : List Bool => mask.length=anchors.length) _ _ ?_ ?_
  · simp [length_fill]
  · intro mask hmask pair _
    dsimp only
    split <;> simp [length_fill,hmask]

theorem focusErrorOutput_eq (text : Text) :
    (¬ IsAnchored (splitInclusive text) ∧ focusErrorOutput text=unchangedErrorFocus text 0) ∨
      (IsAnchored (splitInclusive text) ∧ ∃ count pieces,
        Divides (Kept (splitInclusive text)) 0 (splitInclusive text) pieces ∧
          focusErrorOutput text=extend ⟨[],count,0,0⟩ pieces) := by
  let count := ((splitInclusive text).map isDiagnosticAnchor).count true
  have hcount : count=0 ↔ ¬ IsAnchored (splitInclusive text) := by
    simp [count,List.count_eq_zero,IsAnchored]
  by_cases hanch : IsAnchored (splitInclusive text)
  · obtain ⟨line,hline,-⟩ := id hanch
    obtain ⟨pieces,hpieces,hrun⟩ := focusLoop_eq (LineLayout.new text)
      ((length_retainedLines _).trans (List.length_map _))
      (fun i hi => (getElem?_retainedLines _ i).trans (and_iff_right hi)) _ 0
      (Nat.le_add_left _ _) ⟨[],count,0,0⟩
    refine .inr ⟨hanch,count,pieces,hpieces,?_⟩
    rw [focusErrorOutput,map_line]
    exact (if_neg (List.length_pos_of_mem hline).ne').trans
      ((if_neg (mt hcount.1 (not_not.2 hanch))).trans hrun)
  · refine .inl ⟨hanch,?_⟩
    rw [focusErrorOutput,map_line]
    exact (congrArg _ (if_pos (hcount.2 hanch))).trans (ite_self _)

/-- Without an anchor nothing changes; with one, the output is the lines that are kept and the gaps
between them, those that a marker shortens left out and counted; it is never longer. -/
theorem focusErrorOutput_exact (text : Text) :
    (¬ IsAnchored (splitInclusive text) → focusErrorOutput text=unchangedErrorFocus text 0) ∧
      (IsAnchored (splitInclusive text) → ∃ pieces,
        Divides (Kept (splitInclusive text)) 0 (splitInclusive text) pieces ∧
          (focusErrorOutput text).text=pieces.flatMap Piece.render ∧
          (focusErrorOutput text).omittedSpans=(pieces.filter Piece.isOmitted).length ∧
          (focusErrorOutput text).omittedLines =
            ((pieces.filter Piece.isOmitted).map fun piece => piece.source.length).sum) ∧
      byteLength (focusErrorOutput text).text ≤ byteLength text := by
  obtain ⟨hplain,heq⟩ | ⟨hanch,count,pieces,hpieces,heq⟩ := focusErrorOutput_eq text
  · exact ⟨fun _ => heq,fun h => absurd h hplain,by rw [heq]; exact Nat.le_refl _⟩
  · rw [heq]
    refine ⟨fun h => absurd hanch h,fun _ => ⟨pieces,hpieces,?_⟩,?_⟩
    · simp [extend]
    · have hle := hpieces.byteLength_le
      rwa [flatten_splitInclusive] at hle

end Ash.ErrorFocus
