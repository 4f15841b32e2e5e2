import Ash.WordExpansion

/-! # Field splitting

What the expansion of a word is for: its bytes and quotes in a row, cut at the separators that
unquoted values brought in. -/

namespace Ash.FieldSplitting
open ByteCodecs ParserOutcomes ShellSyntax WordExpansion

/-! ## Pieces of a list -/

section Pieces

variable {α : Type} {p : α → Bool}

/-- What is appended goes on with the last piece. -/
theorem splitOnP_append {front back last : List α} {done : List (List α)}
    (h : front.splitOnP p=done++[last]) :
    (front++back).splitOnP p=done++(last++back).splitOnP p := by
  induction front generalizing done last with
  | nil =>
    rw [List.splitOnP_nil] at h
    obtain ⟨rfl,rfl⟩ : done=[] ∧ last=[] := by
      cases done with
      | nil => exact ⟨rfl,(List.singleton_inj.1 h).symm⟩
      | cons piece done => simp at h
    rfl
  | cons a front ih =>
    obtain ⟨first,final,hsplit⟩ : ∃ first final, front.splitOnP p=first++[final] :=
      ⟨_,_,(List.dropLast_concat_getLast (List.splitOnP_ne_nil p front)).symm⟩
    have hback := ih hsplit
    rw [List.splitOnP_cons_eq_if_modifyHead,hsplit] at h
    rw [List.cons_append,List.splitOnP_cons_eq_if_modifyHead,hback]
    by_cases ha : p a=true
    · rw [if_pos ha] at h ⊢
      obtain ⟨rfl,hlast⟩ :=
        List.append_inj' (show ([]::first)++[final]=done++[last] from h) rfl
      rw [List.singleton_inj.1 hlast]
      rfl
    · rw [if_neg ha] at h ⊢
      cases first with
      | nil =>
        obtain ⟨rfl,rfl⟩ : done=[] ∧ last=a::final := by
          cases done with
          | nil => exact ⟨rfl,(List.singleton_inj.1 h).symm⟩
          | cons piece done => simp at h
        rw [List.nil_append,List.nil_append,List.cons_append,List.splitOnP_cons_eq_if_modifyHead,
          if_neg ha]
      | cons piece first =>
        obtain ⟨rfl,hlast⟩ :=
          List.append_inj' (show ((a::piece)::first)++[final]=done++[last] from h) rfl
        rw [List.singleton_inj.1 hlast]
        rfl

end Pieces

/-! ## Items of a word -/

/-- Where a byte of a word comes from: an unquoted parameter or substitution, an unquoted
literal, or anything that is protected. -/
inductive Mark where
  | splittable | literal | plain
  deriving DecidableEq

def Mark.active : Mark → Bool
  | .splittable | .literal => true
  | .plain => false

inductive Item where
  | byte (value : UInt8) (mark : Mark)
  | quoted
  deriving DecidableEq

/-- Only bytes of unquoted values separate fields. -/
def Item.separates : Item → Bool
  | .byte value .splittable => isFieldSeparator value
  | _ => false

/-- The byte of an item, with its flag. -/
def Item.flagged : Item → Option (UInt8 × Bool)
  | .byte value mark => some (value,mark.active)
  | .quoted => none

def bytesOf (mark : Mark) (value : Bytes) : List Item := value.map (Item.byte · mark)

def valueItems (value : Bytes) : QuoteMode → List Item
  | .unquoted => bytesOf .splittable value
  | _ => bytesOf .plain value++[.quoted]

def literalItems (value : Bytes) : QuoteMode → List Item
  | .unquoted => bytesOf .literal value
  | _ => bytesOf .plain value++[.quoted]

variable {σ : Type}

/-- The items of the parts, if there is a value for each substitution. -/
def flatten (state : ShellState) : List (WordPart σ) → List Bytes → Option (List Item)
  | [], _ => some []
  | .literal value quote _::parts, values =>
      (flatten state parts values).map (literalItems (utf8 value) quote ++ ·)
  | .escapedLiteral value _::parts, values =>
      (flatten state parts values).map (bytesOf .plain (utf8 value) ++ ·)
  | .parameter parameter quote _::parts, values =>
      (flatten state parts values).map (valueItems (parameterValue parameter state) quote ++ ·)
  | .commandSubstitution _ quote::parts, value::values =>
      (flatten state parts values).map (valueItems value quote ++ ·)
  | .commandSubstitution _ _::_, [] => none

/-- The pieces between separators that have a byte or a quote. -/
def pieces (items : List Item) : List (List Item) :=
  (items.splitOnP Item.separates).filter (· ≠ [])

/-! ## Expansions and items -/

/-- A finished field has the bytes of its piece with their flags. -/
structure IsField (field : Bytes × List PathnameSegment) (piece : List Item) : Prop where
  value : field.2.flatMap PathnameSegment.value=field.1
  flags : flagged field.2=piece.filterMap Item.flagged

/-- The field under construction has taken in these items. -/
structure Holds (builder : ExpandedFieldBuilder) (items : List Item) : Prop where
  present : builder.present=true ↔ items≠[]
  flags : flagged builder.pathnameSegments=items.filterMap Item.flagged
  whole : ∀ item∈items, item.separates=false

/-- From one expansion to another by these items. -/
def Takes (expansion next : Expansion) (items : List Item) : Prop :=
  ∀ held, Holds expansion.current held → ∃ fields done last,
    next.fields=expansion.fields++fields ∧
    (held++items).splitOnP Item.separates=done++[last] ∧
    List.Forall₂ IsField fields (done.filter (· ≠ [])) ∧ Holds next.current last

variable {expansion between next : Expansion} {items front back : List Item}

theorem holds_default : Holds .default [] := ⟨by decide,rfl,fun _ h => absurd h List.not_mem_nil⟩

theorem isField_of_holds {builder : ExpandedFieldBuilder} (h : Holds builder items) :
    IsField (builder.value,builder.pathnameSegments) items := by
  refine ⟨?_,h.flags⟩
  rw [← builder.joined]
  simp [flagged,List.map_flatMap,Function.comp_def]

theorem Takes.trans (hfront : Takes expansion between front) (hback : Takes between next back) :
    Takes expansion next (front++back) := by
  intro held hopen
  obtain ⟨fields,done,middle,hflds,hsplit,hdone,hmiddle⟩ := hfront held hopen
  obtain ⟨more,rest,last,hmore,hsplit',hrest,hlast⟩ := hback middle hmiddle
  refine ⟨fields++more,done++rest,last,?_,?_,?_,hlast⟩
  · rw [hmore,hflds,List.append_assoc]
  · rw [← List.append_assoc,splitOnP_append hsplit,hsplit',List.append_assoc]
  · rw [List.filter_append]
    exact List.rel_append hdone hrest

/-- Items without a separator only go into the field under construction. -/
theorem takes_of_holds (hflds : next.fields=expansion.fields)
    (h : ∀ held, Holds expansion.current held → Holds next.current (held++items)) :
    Takes expansion next items := by
  intro held hopen
  have hnext := h held hopen
  refine ⟨[],[],held++items,?_,List.splitOnP_eq_singleton hnext.whole,.nil,hnext⟩
  rw [hflds,List.append_nil]

theorem filterMap_bytesOf (mark : Mark) (value : Bytes) :
    (bytesOf mark value).filterMap Item.flagged=value.map fun byte => (byte,mark.active) := by
  simp [bytesOf,List.filterMap_map,Function.comp_def,Item.flagged]

theorem takes_append (expansion : Expansion) {mark : Mark} {value : Bytes}
    (hwhole : ∀ item∈bytesOf mark value, item.separates=false) :
    Takes expansion (expansion.append value mark.active) (bytesOf mark value) := by
  refine takes_of_holds rfl fun held hopen => ?_
  have hitems : ∀ item∈held++bytesOf mark value, item.separates=false := by
    intro item hmem
    obtain hmem | hmem := List.mem_append.1 hmem
    · exact hopen.whole item hmem
    · exact hwhole item hmem
  by_cases hvalue : value=[]
  · subst hvalue
    simpa [Expansion.append,ExpandedFieldBuilder.append,bytesOf] using hopen
  · simp only [Expansion.append,ExpandedFieldBuilder.append,hvalue,if_false]
    refine ⟨by simp [bytesOf,hvalue],?_,hitems⟩
    simp only [flagged_appendSegment,hopen.flags,List.filterMap_append,filterMap_bytesOf]

theorem takes_markPresent (expansion : Expansion) :
    Takes expansion expansion.markPresent [.quoted] := by
  refine takes_of_holds rfl fun held hopen => ⟨?_,?_,?_⟩
  · simp [Expansion.markPresent,ExpandedFieldBuilder.markPresent]
  · rw [List.filterMap_append]
    exact hopen.flags.trans (List.append_nil _).symm
  · intro item hmem
    obtain hmem | hmem := List.mem_append.1 hmem
    · exact hopen.whole item hmem
    · rw [List.mem_singleton.1 hmem]
      rfl

/-- A field is finished only if it holds something. -/
theorem finishField_spec {held : List Item} (hopen : Holds expansion.current held) :
    ∃ fields, expansion.finishField.fields=expansion.fields++fields ∧
      List.Forall₂ IsField fields ([held].filter (· ≠ [])) ∧
      Holds expansion.finishField.current [] := by
  by_cases hpres : expansion.current.present=true
  · have hne := hopen.present.1 hpres
    refine ⟨[(expansion.current.value,expansion.current.pathnameSegments)],?_,?_,?_⟩
    · simp [Expansion.finishField,ExpandedFieldBuilder.take,hpres]
    · simpa [hne] using isField_of_holds hopen
    · simpa [Expansion.finishField,ExpandedFieldBuilder.take,hpres] using holds_default
  · have hnil : held=[] := by
      by_contra hne
      exact hpres (hopen.present.2 hne)
    subst hnil
    refine ⟨[],?_,.nil,?_⟩
    · simp [Expansion.finishField,ExpandedFieldBuilder.take,hpres]
    · simpa [Expansion.finishField,ExpandedFieldBuilder.take,hpres] using hopen

theorem takes_finishField (expansion : Expansion) (item : Item) (hitem : item.separates=true) :
    Takes expansion expansion.finishField [item] := by
  intro held hopen
  obtain ⟨fields,hflds,hdone,hcur⟩ := finishField_spec hopen
  refine ⟨fields,[held],[],hflds,?_,hdone,hcur⟩
  rw [List.splitOnP_append_cons _ _ hitem,List.splitOnP_eq_singleton hopen.whole,List.splitOnP_nil]

/-! ## Parts -/

theorem separates_plain (value : Bytes) : ∀ item∈bytesOf .plain value, item.separates=false := by
  intro item hmem
  obtain ⟨byte,-,rfl⟩ := List.mem_map.1 hmem
  rfl

theorem separates_literal (value : Bytes) :
    ∀ item∈bytesOf .literal value, item.separates=false := by
  intro item hmem
  obtain ⟨byte,-,rfl⟩ := List.mem_map.1 hmem
  rfl

/-- The loop takes in the bytes since the last separator together with the coming ones. -/
theorem takes_appendSplitLoop (bytes segment : Bytes) (expansion : Expansion)
    (hseg : ∀ item∈bytesOf .splittable segment, item.separates=false) :
    Takes expansion (appendSplitLoop bytes segment expansion)
      (bytesOf .splittable (segment++bytes)) := by
  induction bytes generalizing segment expansion with
  | nil =>
    rw [List.append_nil]
    exact takes_append expansion hseg
  | cons byte bytes ih =>
    have hsplit : bytesOf .splittable (segment++byte::bytes) =
        bytesOf .splittable segment++([.byte byte .splittable]++bytesOf .splittable bytes) := by
      simp [bytesOf]
    by_cases hbyte : isFieldSeparator byte=true
    · rw [appendSplitLoop,if_pos hbyte,hsplit]
      have hrest := ih [] ((expansion.append segment true).finishField)
        (fun _ h => absurd h List.not_mem_nil)
      exact (takes_append expansion hseg).trans
        ((takes_finishField _ (.byte byte .splittable) hbyte).trans hrest)
    · rw [appendSplitLoop,if_neg hbyte,List.append_cons segment byte bytes]
      refine ih (segment++[byte]) expansion fun item hmem => ?_
      rw [bytesOf,List.map_append,List.mem_append] at hmem
      obtain hmem | hmem := hmem
      · exact hseg item hmem
      · rw [List.mem_singleton.1 hmem]
        exact Bool.eq_false_of_not_eq_true hbyte

theorem takes_quoted (value : Bytes) (expansion : Expansion) :
    Takes expansion (expansion.append value false).markPresent
      (bytesOf .plain value++[.quoted]) :=
  (takes_append expansion (separates_plain value)).trans (takes_markPresent _)

theorem takes_appendValue (value : Bytes) (quote : QuoteMode) (expansion : Expansion) :
    Takes expansion (appendValue value quote expansion) (valueItems value quote) := by
  cases quote with
  | unquoted => exact takes_appendSplitLoop value [] expansion fun _ h => absurd h List.not_mem_nil
  | single | double => exact takes_quoted value expansion

theorem appendLiteral_quoted (value : Text) {quote : QuoteMode} (hquote : quote≠.unquoted)
    (expansion : Expansion) :
    appendLiteral value quote expansion=(expansion.append (utf8 value) false).markPresent := by
  by_cases hvalue : value=[]
  · simp [appendLiteral,hvalue,hquote]
  · -- a literal that is not empty is present already
    have hbytes : utf8 value≠[] := by
      intro hnil
      have hvalue' := decodeUtf8_utf8 value
      rw [hnil] at hvalue'
      exact hvalue (Option.some.inj hvalue').symm
    simp [appendLiteral,hvalue,hquote,Expansion.append,Expansion.markPresent,
      ExpandedFieldBuilder.append,ExpandedFieldBuilder.markPresent,hbytes]

theorem takes_appendLiteral (value : Text) (quote : QuoteMode) (expansion : Expansion) :
    Takes expansion (appendLiteral value quote expansion) (literalItems (utf8 value) quote) := by
  cases quote with
  | unquoted =>
    have htakes := takes_append expansion (separates_literal (utf8 value))
    simpa [appendLiteral,literalItems,Mark.active] using htakes
  | single | double =>
    rw [appendLiteral_quoted value (by decide)]
    exact takes_quoted _ expansion

theorem expandParts_ok (state : ShellState) (parts : List (WordPart σ)) (values : List Bytes)
    (expansion : Expansion) (h : parts.countP WordPart.isSubstitution ≤ values.length) :
    ∃ items next, flatten state parts values=some items ∧
      expandParts state parts values expansion =
        .ok (values.drop (parts.countP WordPart.isSubstitution),next) ∧
      Takes expansion next items := by
  induction parts generalizing values expansion with
  | nil =>
    refine ⟨[],expansion,rfl,rfl,takes_of_holds rfl fun held hheld => ?_⟩
    rwa [List.append_nil]
  | cons part parts ih =>
    cases part with
    | literal value quote span =>
      obtain ⟨items,next,hflat,hexpand,htakes⟩ :=
        ih values (appendLiteral value quote expansion) h
      exact ⟨_,next,by rw [flatten,hflat,Option.map_some],hexpand,
        (takes_appendLiteral value quote expansion).trans htakes⟩
    | escapedLiteral value span =>
      obtain ⟨items,next,hflat,hexpand,htakes⟩ :=
        ih values (expansion.append (utf8 value) false) h
      exact ⟨_,next,by rw [flatten,hflat,Option.map_some],hexpand,
        (takes_append expansion (separates_plain _)).trans htakes⟩
    | parameter parameter quote span =>
      obtain ⟨items,next,hflat,hexpand,htakes⟩ :=
        ih values (appendValue (parameterValue parameter state) quote expansion) h
      exact ⟨_,next,by rw [flatten,hflat,Option.map_some],hexpand,
        (takes_appendValue _ quote expansion).trans htakes⟩
    | commandSubstitution substitution quote =>
      rw [List.countP_cons_of_pos rfl] at h ⊢
      cases values with
      | nil => exact absurd h (Nat.not_succ_le_zero _)
      | cons value values =>
        obtain ⟨items,next,hflat,hexpand,htakes⟩ :=
          ih values (appendValue value quote expansion) (Nat.le_of_succ_le_succ h)
        exact ⟨_,next,by rw [flatten,hflat,Option.map_some],hexpand,
          (takes_appendValue value quote expansion).trans htakes⟩

theorem expandParts_panic (state : ShellState) (parts : List (WordPart σ)) (values : List Bytes)
    (expansion : Expansion) (h : values.length < parts.countP WordPart.isSubstitution) :
    expandParts state parts values expansion=.error .panic := by
  induction parts generalizing values expansion with
  | nil => exact absurd h (Nat.not_lt_zero _)
  | cons part parts ih =>
    cases part with
    | literal | escapedLiteral | parameter => exact ih values _ h
    | commandSubstitution substitution quote =>
      rw [List.countP_cons_of_pos rfl] at h
      cases values with
      | nil => rfl
      | cons value values => exact ih values _ (Nat.lt_of_succ_lt_succ h)

/-! ## Words -/

/-- One value for each substitution; more of them only disturb the assertions. -/
def Aligned (assertions : Bool) (word : Word σ) (values : List Bytes) : Prop :=
  word.substitutions ≤ values.length ∧
    (assertions=true → values.length ≤ word.substitutions)

/-- A field of a word has the bytes of its piece, and its segments keep their flags. -/
structure Describes (word : Word σ) (field : ExpandedWord) (piece : List Item) : Prop where
  span : field.span=word.span
  value : field.value=(piece.filterMap Item.flagged).map Prod.fst
  segments : field.pathnameSegments.flatMap PathnameSegment.value=field.value
  flags : flagged field.pathnameSegments=piece.filterMap Item.flagged

theorem describes_of_isField (word : Word σ) {field : Bytes × List PathnameSegment}
    {piece : List Item} (h : IsField field piece) :
    Describes word ⟨field.1,word.span,field.2⟩ piece := by
  refine ⟨rfl,?_,h.value,h.flags⟩
  rw [← h.flags,← h.value]
  simp [flagged,List.map_flatMap,Function.comp_def]

/-- A run from the start to the last finished field has the pieces of its items as fields. -/
theorem finishField_pieces (h : Takes ⟨[],.default⟩ next items) :
    List.Forall₂ IsField next.finishField.fields (pieces items) := by
  obtain ⟨fields,done,last,hflds,hsplit,hdone,hlast⟩ := h [] holds_default
  obtain ⟨final,hfinal,hpiece,-⟩ := finishField_spec hlast
  rw [List.nil_append] at hflds hsplit
  rw [pieces,hsplit,hfinal,hflds,List.filter_append]
  exact List.rel_append hdone hpiece

theorem expandWord_of_parts (assertions : Bool) {word : Word σ} {state : ShellState}
    {values left : List Bytes}
    (h : expandParts state word.parts values ⟨[],.default⟩=.ok (left,next)) :
    expandWordWithSubstitutions assertions word state values =
      if assertions=true ∧ left≠[] then .error .panic
      else .ok (next.finishField.fields.map fun field => ⟨field.1,word.span,field.2⟩) := by
  simp [expandWordWithSubstitutions,h,bind,Except.bind,pure,Except.pure]

/-- The fields of a word are the pieces of its items, in order.  A value that is missing is a
panic, as is one too many when assertions are on. -/
theorem expansion_splits_fields (assertions : Bool) (word : Word σ) (state : ShellState)
    (values : List Bytes) :
    (Aligned assertions word values ∧ ∃ items fields,
      flatten state word.parts values=some items ∧
      expandWordWithSubstitutions assertions word state values=.ok fields ∧
      List.Forall₂ (Describes word) fields (pieces items)) ∨
    (¬ Aligned assertions word values ∧
      expandWordWithSubstitutions assertions word state values=.error .panic) := by
  by_cases henough : word.substitutions ≤ values.length
  · obtain ⟨items,next,hflat,hexpand,htakes⟩ :=
      expandParts_ok state word.parts values ⟨[],.default⟩ henough
    rw [← Word.substitutions] at hexpand
    have hleft : values.drop word.substitutions≠[] ↔ ¬ values.length ≤ word.substitutions := by
      rw [ne_eq,List.drop_eq_nil_iff]
    have hword := expandWord_of_parts assertions hexpand
    by_cases hsurplus : assertions=true ∧ values.drop word.substitutions≠[]
    · rw [if_pos hsurplus] at hword
      exact .inr ⟨fun halgn => hleft.1 hsurplus.2 (halgn.2 hsurplus.1),hword⟩
    · rw [if_neg hsurplus] at hword
      have halgn : Aligned assertions word values := by
        refine ⟨henough,fun hassertions => ?_⟩
        by_contra hmore
        exact hsurplus ⟨hassertions,hleft.2 hmore⟩
      have hflds := (finishField_pieces htakes).imp fun _ _ => describes_of_isField word
      exact .inl ⟨halgn,items,_,hflat,hword,List.forall₂_map_left_iff.2 hflds⟩
  · refine .inr ⟨fun halgn => henough halgn.1,?_⟩
    have hpanic :=
      expandParts_panic state word.parts values ⟨[],.default⟩ (Nat.lt_of_not_le henough)
    simp only [expandWordWithSubstitutions,hpanic,bind,Except.bind]

end Ash.FieldSplitting
