import Ash.RequestArguments

/-! # Schemas of arguments

Reading arguments succeeds on just the values that valid arguments are written as. -/

namespace Ash.RequestArguments
open ByteCodecs AsonDocuments ParserOutcomes Outcomes RequestValues

variable {α : Type} {arguments : Arguments}

variable {a : α} {table : Table} {content : PatchContent} {u : Unit} {edits : List PatchEdit}
  {formula : RefFormula}

@[simp] theorem validated_ok {validate : α → Checked Unit} {b : α} :
    validated validate a=.ok b ↔ a=b ∧ validate b=.ok () := by
  rw [validated,bind_unit_ok_iff,pure_ok_iff]
  constructor
  · rintro ⟨h,rfl⟩
    exact ⟨rfl,h⟩
  · rintro ⟨rfl,h⟩
    exact ⟨h,rfl⟩

theorem readRecord_ok {columns : List Text} {decode : List Cell → Checked α} {cells : α → List Cell}
    {valid : α → Prop} (h : ∀ values a, decode values=.ok a ↔ values=cells a ∧ valid a)
    {record : Record} :
    readRecord columns decode record=.ok a ↔
      recordValue columns (cells a)=.ok (.record record) ∧ valid a := by
  rw [readRecord,bind_unit_ok_iff,expectColumns_ok,h,recordValue_record,and_assoc]

theorem readTable_ok {columns : List Text} {decode : List (List Cell) → Checked α}
    {R : List (List Cell) → α → Prop} (h : ∀ rows a, decode rows=.ok a ↔ R rows a) :
    readTable columns decode table=.ok a ↔ names table.columns=columns ∧ R table.rows a := by
  rw [readTable,bind_unit_ok_iff,expectColumns_ok,h]

/-! ## Exec -/

@[simp] theorem InputSource.decode_ok {cell : Cell} {source : InputSource} :
    InputSource.decode cell=.ok source ↔ cell=source.encode := by
  unfold InputSource.decode
  split <;> cases source <;>
    simp [InputSource.encode,nullValue,textValue,Fallible.fail]

theorem ExecArgs.decodeCells_ok (cells : List Cell) (arguments : ExecArgs) :
    ExecArgs.decodeCells cells=.ok arguments ↔
      cells=arguments.cells ∧ arguments.validate=.ok () := by
  unfold ExecArgs.decodeCells
  split
  · cases arguments
    simp [bind_ok_iff,ExecArgs.new,ExecArgs.cells,and_assoc]
  · next hno => exact error_ok_iff fun h => hno _ _ _ _ _ _ h.1

/-! ## Read, list and search -/

@[simp] theorem ReadMode.decode_ok {value : UInt64} {mode : ReadMode} :
    ReadMode.decode value=.ok mode ↔ value=mode.encode := by
  unfold ReadMode.decode
  split
  · next h => cases mode <;> simp [h,ReadMode.encode]
  · split
    · next h => cases mode <;> simp [h,ReadMode.encode]
    · next hbytes hlines => cases mode <;> simp [ReadMode.encode,hbytes,hlines,Fallible.fail]

theorem ReadArgs.decodeCells_ok (cells : List Cell) (arguments : ReadArgs) :
    ReadArgs.decodeCells cells=.ok arguments ↔
      cells=arguments.cells ∧ arguments.validate=.ok () := by
  unfold ReadArgs.decodeCells
  split
  · cases arguments
    simp [bind_ok_iff,ReadArgs.new,ReadArgs.cells,and_assoc,and_left_comm]
  · next hno => exact error_ok_iff fun h => hno _ _ _ _ h.1

theorem ListArgs.decodeCells_ok (cells : List Cell) (arguments : ListArgs) :
    ListArgs.decodeCells cells=.ok arguments ↔
      cells=arguments.cells ∧ arguments.validate=.ok () := by
  unfold ListArgs.decodeCells
  split
  · cases arguments
    simp [bind_ok_iff,ListArgs.new,ListArgs.cells,and_assoc]
  · next hno => exact error_ok_iff fun h => hno _ _ _ h.1

theorem SearchArgs.decodeCells_ok (cells : List Cell) (arguments : SearchArgs) :
    SearchArgs.decodeCells cells=.ok arguments ↔
      cells=arguments.cells ∧ arguments.validate=.ok () := by
  unfold SearchArgs.decodeCells
  split
  · cases arguments
    simp [bind_ok_iff,SearchArgs.new,SearchArgs.cells,and_assoc]
  · next hno => exact error_ok_iff fun h => hno _ _ _ h.1

/-! ## Patch -/

@[simp] theorem PatchContent.decode_ok {atom : Atom} :
    PatchContent.decode atom=.ok content ↔
      atom=content.encode ∧ content≠.reference 0 := by
  cases atom with
  | null => cases content <;> simp [PatchContent.decode,PatchContent.encode,Fallible.fail]
  | text value => cases content <;> simp [PatchContent.decode,PatchContent.encode]
  | reference id =>
    by_cases hid : id=0
    · subst hid
      cases content with
      | inline value => simp [PatchContent.decode,PatchContent.encode,Fallible.fail]
      | reference other =>
        simp only [PatchContent.decode,PatchContent.encode,Fallible.fail,ne_eq,not_true,if_false,
          reduceCtorEq,false_iff,not_and,not_not,Atom.reference.injEq]
        rintro rfl
        rfl
    · cases content with
      | inline value => simp [PatchContent.decode,PatchContent.encode,hid]
      | reference other =>
        simp only [PatchContent.decode,PatchContent.encode,ne_eq,hid,not_false_eq_true,if_true,
          Except.ok.injEq,PatchContent.reference.injEq,Atom.reference.injEq]
        constructor
        · rintro rfl
          exact ⟨rfl,hid⟩
        · exact And.left

theorem PatchContent.ne_zero_of_validate (h : content.validate=.ok u) :
    content≠.reference 0 := by
  rintro rfl
  simp [PatchContent.validate] at h

/-- An edit that passes the checks of its own. -/
def PatchEdit.Valid (edit : PatchEdit) : Prop :=
  edit.replacement.validate=.ok () ∧ edit.checkEnd=.ok ()

/-- The entries of an edit in the four vectors. -/
def PatchEdit.entry (edit : PatchEdit) : ((UInt64 × UInt64) × UInt64) × Atom :=
  (((edit.fileIndex.toUInt64,edit.offset),edit.deleteLength),edit.replacement.encode)

theorem PatchEdit.decode_ok (entry : ((UInt64 × UInt64) × UInt64) × Atom) (edit : PatchEdit) :
    PatchEdit.decode entry=.ok edit ↔ entry=edit.entry ∧ edit.Valid := by
  obtain ⟨⟨⟨fileIndex,offset⟩,deleteLength⟩,replacement⟩ := entry
  simp only [PatchEdit.decode,bind_ok_iff,narrowU16_ok,PatchContent.decode_ok,PatchEdit.new,
    validated_ok,PatchEdit.entry,PatchEdit.Valid,Prod.mk.injEq]
  constructor
  · rintro ⟨_,rfl,_,⟨rfl,-⟩,rfl,⟨⟩,h⟩
    exact ⟨⟨⟨⟨rfl,rfl⟩,rfl⟩,rfl⟩,h⟩
  · rintro ⟨⟨⟨⟨rfl,rfl⟩,rfl⟩,rfl⟩,h⟩
    exact ⟨_,rfl,_,⟨rfl,PatchContent.ne_zero_of_validate h.1⟩,rfl,(),h⟩

private theorem zip_eq_map {β γ : Type} {as : List α} {bs : List β} {cs : List γ} {f : γ → α}
    {g : γ → β} (h : bs.length=as.length) :
    (as.zip bs=cs.map fun c => (f c,g c)) ↔ as=cs.map f ∧ bs=cs.map g := by
  constructor
  · intro hzip
    have hleft := congrArg (List.map Prod.fst) hzip
    have hright := congrArg (List.map Prod.snd) hzip
    rw [List.map_fst_zip h.ge,List.map_map] at hleft
    rw [List.map_snd_zip h.le,List.map_map] at hright
    exact ⟨hleft,hright⟩
  · rintro ⟨rfl,rfl⟩
    rw [List.zip_map']

theorem entries_eq {fileIndices offsets deleteLengths : List UInt64} {replacements : List Atom} :
    ((offsets.length=fileIndices.length ∧ deleteLengths.length=fileIndices.length ∧
        replacements.length=fileIndices.length) ∧
      ((fileIndices.zip offsets).zip deleteLengths).zip replacements =
        edits.map PatchEdit.entry) ↔
    fileIndices=edits.map (fun edit => edit.fileIndex.toUInt64) ∧
      offsets=edits.map PatchEdit.offset ∧ deleteLengths=edits.map PatchEdit.deleteLength ∧
      replacements=edits.map fun edit => edit.replacement.encode := by
  have hsplit : (offsets.length=fileIndices.length ∧
      deleteLengths.length=fileIndices.length ∧ replacements.length=fileIndices.length) →
      (((fileIndices.zip offsets).zip deleteLengths).zip replacements=edits.map PatchEdit.entry ↔
        ((fileIndices=edits.map (fun edit => edit.fileIndex.toUInt64) ∧
          offsets=edits.map PatchEdit.offset) ∧
          deleteLengths=edits.map PatchEdit.deleteLength) ∧
          replacements=edits.map fun edit => edit.replacement.encode) := by
    rintro ⟨hoffsets,hdeletes,hrepl⟩
    have hpair : (fileIndices.zip offsets).length=fileIndices.length := by
      simp [hoffsets]
    have htriple : ((fileIndices.zip offsets).zip deleteLengths).length=fileIndices.length := by
      simp [hoffsets,hdeletes]
    change (_=edits.map fun edit => ((((edit.fileIndex.toUInt64,edit.offset),
      edit.deleteLength),edit.replacement.encode))) ↔ _
    rw [zip_eq_map (hrepl.trans htriple.symm),zip_eq_map (hdeletes.trans hpair.symm),
      zip_eq_map hoffsets]
  constructor
  · rintro ⟨hlens,hzip⟩
    obtain ⟨⟨⟨hi,ho⟩,hn⟩,hv⟩ := (hsplit hlens).1 hzip
    exact ⟨hi,ho,hn,hv⟩
  · rintro ⟨hi,ho,hn,hv⟩
    have hlens : offsets.length=fileIndices.length ∧
        deleteLengths.length=fileIndices.length ∧ replacements.length=fileIndices.length := by
      simp [hi,ho,hn,hv]
    exact ⟨hlens,(hsplit hlens).2 ⟨⟨⟨hi,ho⟩,hn⟩,hv⟩⟩

theorem PatchArgs.editsLoop_valid {seen : List Bool} {inlineBytes : ℕ} {previous : Option PatchEdit}
    {result : List Bool × ℕ} (h : PatchArgs.editsLoop edits seen inlineBytes previous=.ok result)
    : ∀ edit∈edits, PatchEdit.Valid edit := by
  induction edits generalizing seen inlineBytes previous with
  | nil => simp
  | cons edit edits ih =>
    simp only [PatchArgs.editsLoop,bind_unit_ok_iff] at h
    obtain ⟨hcont,-,hend,-,hrest⟩ := h
    exact List.forall_mem_cons.2 ⟨⟨hcont,hend⟩,ih hrest⟩

theorem PatchArgs.edits_valid {arguments : PatchArgs} (h : arguments.validate=.ok ()) :
    ∀ edit∈arguments.edits, PatchEdit.Valid edit := by
  simp only [PatchArgs.validate,bind_unit_ok_iff] at h
  obtain ⟨-,-,-,-,h⟩ := h
  obtain ⟨result,hloop,-⟩ := bind_ok_iff.1 h
  exact PatchArgs.editsLoop_valid hloop

theorem PatchArgs.decodeCells_ok (cells : List Cell) (arguments : PatchArgs) :
    PatchArgs.decodeCells cells=.ok arguments ↔
      cells=arguments.cells ∧ arguments.validate=.ok () := by
  unfold PatchArgs.decodeCells
  split
  · have hedits := fun entries edits => mapM_ok_iff_map (g := PatchEdit.entry) (C := PatchEdit.Valid)
      PatchEdit.decode_ok entries edits
    simp only [bind_ok_iff,require_ok_iff,textVector_ok,unsignedVector_ok,atomVector_ok,
      unsignedCell_ok,narrowU32_ok,PatchArgs.new,validated_ok,PatchArgs.cells,List.cons.injEq,
      and_true,hedits]
    constructor
    · rintro ⟨_,rfl,_,rfl,_,rfl,_,rfl,_,rfl,_,rfl,⟨⟩,hlens,_,⟨hents,-⟩,_,rfl,_,rfl,rfl,h⟩
      obtain ⟨rfl,rfl,rfl,rfl⟩ := entries_eq.1 ⟨hlens,hents⟩
      exact ⟨⟨rfl,rfl,rfl,rfl,rfl,rfl,rfl⟩,h⟩
    · rintro ⟨⟨rfl,rfl,rfl,rfl,rfl,rfl,rfl⟩,h⟩
      obtain ⟨hlens,hents⟩ := entries_eq.2 ⟨rfl,rfl,rfl,rfl⟩
      exact ⟨_,rfl,_,rfl,_,rfl,_,rfl,_,rfl,_,rfl,(),hlens,_,⟨hents,PatchArgs.edits_valid h⟩,_,
        rfl,_,rfl,rfl,h⟩
  · next hno => exact error_ok_iff fun h => hno _ _ _ _ _ _ _ h.1

/-! ## File transactions -/

@[simp] theorem FsActionKind.decode_ok {value : UInt64} {kind : FsActionKind} :
    FsActionKind.decode value=.ok kind ↔ value=kind.encode := by
  unfold FsActionKind.decode
  split_ifs <;> cases kind <;> simp [*,FsActionKind.encode,Fallible.fail]

@[simp] theorem FsAction.decodeContent_ok {cell : Cell} {content : Option PatchContent} :
    FsAction.decodeContent cell=.ok content ↔
      (cell=content.elim nullValue fun content => .atom content.encode) ∧
        content≠some (.reference 0) := by
  cases cell with
  | vector atoms =>
    cases content <;> simp [FsAction.decodeContent,Fallible.fail,nullValue]
  | atom atom =>
    cases atom with
    | null =>
      cases content with
      | none => simp [FsAction.decodeContent,nullValue]
      | some content => cases content <;> simp [FsAction.decodeContent,PatchContent.encode]
    | text | reference =>
      rw [FsAction.decodeContent,map_ok_iff]
      cases content <;> simp [nullValue]
      simp

theorem ifPresent_ok {check : α → Checked Unit} {o : Option α} :
    ifPresent check o=.ok u ↔ ∀ a∈o, check a=.ok () := by
  cases o with
  | none => simp [ifPresent]
  | some a => simp [ifPresent]

theorem FsAction.content_ne_zero {action : FsAction} (h : action.validate=.ok ()) :
    action.content≠some (.reference 0) := by
  simp only [FsAction.validate,bind_unit_ok_iff,ifPresent_ok] at h
  obtain ⟨-,-,-,-,hcont,-⟩ := h
  intro heq
  exact PatchContent.ne_zero_of_validate (hcont _ heq) rfl

theorem FsAction.decode_ok (cells : List Cell) (action : FsAction) :
    FsAction.decode cells=.ok action ↔ cells=action.encode ∧ action.validate=.ok () := by
  unfold FsAction.decode
  split
  · simp only [bind_ok_iff,FsAction.decodeContent_ok,unsignedCell_ok,FsActionKind.decode_ok,
      textCell_ok,optionalTextCell_ok,FsAction.new,validated_ok,FsAction.encode,List.cons.injEq,
      and_true]
    constructor
    · rintro ⟨_,⟨rfl,-⟩,_,rfl,_,rfl,_,rfl,_,rfl,_,rfl,_,rfl,rfl,h⟩
      exact ⟨⟨rfl,rfl,rfl,rfl,rfl,rfl⟩,h⟩
    · rintro ⟨⟨rfl,rfl,rfl,rfl,rfl,rfl⟩,h⟩
      exact ⟨_,⟨rfl,FsAction.content_ne_zero h⟩,_,rfl,_,rfl,_,rfl,_,rfl,_,rfl,_,rfl,rfl,h⟩
  · next hno => exact error_ok_iff fun h => hno _ _ _ _ _ _ h.1

theorem FsArgs.actionsLoop_valid {actions : List FsAction} {paths : List Text} {inlineBytes n : ℕ}
    (h : FsArgs.actionsLoop actions paths inlineBytes=.ok n) :
    ∀ action∈actions, action.validate=.ok () := by
  induction actions generalizing paths inlineBytes with
  | nil => simp
  | cons action actions ih =>
    simp only [FsArgs.actionsLoop,bind_unit_ok_iff] at h
    exact List.forall_mem_cons.2 ⟨h.1,ih h.2.2⟩

theorem FsArgs.actions_valid {arguments : FsArgs} (h : arguments.validate=.ok ()) :
    ∀ action∈arguments.actions, action.validate=.ok () := by
  simp only [FsArgs.validate,bind_unit_ok_iff] at h
  obtain ⟨n,hloop,-⟩ := bind_ok_iff.1 h.2.2
  exact FsArgs.actionsLoop_valid hloop

theorem FsArgs.decode_ok {arguments : FsArgs} :
    FsArgs.decode table=.ok arguments ↔
      arguments.encode=.ok (.table table) ∧ arguments.validate=.ok () := by
  have hrows : ∀ (rows : List (List Cell)) (arguments : FsArgs), (do
      let actions ← rows.mapM FsAction.decode
      FsArgs.new actions)=.ok arguments ↔
      rows=arguments.actions.map FsAction.encode ∧ arguments.validate=.ok () := by
    intro rows arguments
    have hactions := fun rows actions => mapM_ok_iff_map (g := FsAction.encode)
      (C := fun action => action.validate=.ok ()) FsAction.decode_ok rows actions
    simp only [bind_ok_iff,hactions,FsArgs.new,validated_ok]
    constructor
    · rintro ⟨_,⟨rfl,-⟩,rfl,h⟩
      exact ⟨rfl,h⟩
    · rintro ⟨rfl,h⟩
      exact ⟨_,⟨rfl,FsArgs.actions_valid h⟩,rfl,h⟩
  rw [FsArgs.decode,readTable_ok hrows,FsArgs.encode,tableValue_table,and_assoc]

/-! ## Snapshots and cancellation -/

@[simp] theorem SnapshotMode.decode_ok {value : UInt64} {mode : SnapshotMode} :
    SnapshotMode.decode value=.ok mode ↔ value=mode.encode := by
  unfold SnapshotMode.decode
  split
  · next h => cases mode <;> simp [h,SnapshotMode.encode]
  · split
    · next h => cases mode <;> simp [h,SnapshotMode.encode]
    · next h0 h1 => cases mode <;> simp [SnapshotMode.encode,h0,h1,Fallible.fail]

theorem SnapshotArgs.baseline_ne_zero {arguments : SnapshotArgs}
    (h : arguments.validate=.ok ()) : arguments.baseline≠some 0 := by
  intro hbase
  simp only [SnapshotArgs.validate,bind_unit_ok_iff,hbase] at h
  obtain ⟨-,-,-,h,-⟩ := h
  cases hmode : arguments.mode <;> simp [hmode,SnapshotMode.checkBaseline,Fallible.fail] at h

theorem SnapshotArgs.decodeCells_ok (cells : List Cell) (arguments : SnapshotArgs) :
    SnapshotArgs.decodeCells cells=.ok arguments ↔
      cells=arguments.cells ∧ arguments.validate=.ok () := by
  unfold SnapshotArgs.decodeCells
  split
  · simp only [bind_ok_iff,textVector_ok,unsignedCell_ok,narrowU16_ok,narrowU32_ok,
      SnapshotMode.decode_ok,optionalReferenceCell_ok,SnapshotArgs.new,validated_ok,
      SnapshotArgs.cells,List.cons.injEq,and_true]
    constructor
    · rintro ⟨_,rfl,_,rfl,_,rfl,_,rfl,_,rfl,_,⟨rfl,-⟩,_,rfl,_,rfl,rfl,h⟩
      exact ⟨⟨rfl,rfl,rfl,rfl,rfl⟩,h⟩
    · rintro ⟨⟨rfl,rfl,rfl,rfl,rfl⟩,h⟩
      exact ⟨_,rfl,_,rfl,_,rfl,_,rfl,_,rfl,_,⟨rfl,SnapshotArgs.baseline_ne_zero h⟩,_,rfl,_,rfl,rfl,
        h⟩
  · next hno => exact error_ok_iff fun h => hno _ _ _ _ _ h.1

theorem CancelArgs.decodeCells_ok (cells : List Cell) (arguments : CancelArgs) :
    CancelArgs.decodeCells cells=.ok arguments ↔
      cells=arguments.cells ∧ arguments.validate=.ok () := by
  unfold CancelArgs.decodeCells
  split
  · cases arguments
    simp [bind_ok_iff,CancelArgs.new,CancelArgs.cells]
  · next hno => exact error_ok_iff fun h => hno _ h.1

/-! ## References -/

@[simp] theorem referenceFormulaAtom_ok {atom : Atom} {reference : UInt64} :
    referenceFormulaAtom atom=.ok reference ↔ atom=.reference reference ∧ reference≠0 := by
  cases atom with
  | null | text => simp [referenceFormulaAtom,Fallible.fail]
  | reference id =>
    rw [referenceFormulaAtom,Atom.reference.injEq]
    split
    · next hid =>
      rw [Except.ok.injEq]
      exact ⟨fun h => ⟨h,h ▸ hid⟩,And.left⟩
    · next hid =>
      simp only [Fallible.fail,reduceCtorEq,false_iff,not_and]
      rintro rfl
      exact hid

/-- A projection names columns. -/
def RefFormula.HasColumns : RefFormula → Prop
  | .project _ _ _ columns => columns≠[]
  | _ => True

theorem RefFormula.hasColumns (h : formula.validate=.ok ()) : formula.HasColumns := by
  cases formula with
  | project table offset length columns =>
    simp only [RefFormula.validate,bind_unit_ok_iff,require_ok_iff] at h
    exact h.2.2.1.2.1
  | _ => exact trivial

theorem RefFormula.decode_ok {operation : Operation} {atoms : List Atom} :
    RefFormula.decode operation atoms=.ok formula ↔
      formula.operation=operation ∧ atoms=formula.atoms ∧ formula.HasColumns := by
  constructor
  · intro h
    unfold RefFormula.decode at h
    split at h
    case h_1 | h_2 =>
      split at h
      · simp only [bind_ok_iff,unsignedAtom_ok,pure_ok_iff] at h
        obtain ⟨_,rfl,_,rfl,rfl⟩ := h
        exact ⟨rfl,rfl,trivial⟩
      · cases h
    case h_3 =>
      split at h
      · simp only [bind_ok_iff,unsignedAtom_ok,textItem_ok,narrowU32_ok,pure_ok_iff] at h
        obtain ⟨_,rfl,_,rfl,_,rfl,_,rfl,_,rfl,rfl⟩ := h
        exact ⟨rfl,rfl,trivial⟩
      · cases h
    case h_4 =>
      split at h
      · cases h
        exact ⟨rfl,rfl,trivial⟩
      · cases h
    case h_5 =>
      split at h
      · simp only [bind_ok_iff,unsignedAtom_ok,textItem_ok,textItems_ok,pure_ok_iff] at h
        obtain ⟨_,rfl,_,rfl,_,rfl,columns,hcols,rfl⟩ := h
        refine ⟨rfl,by rw [RefFormula.atoms,hcols],?_⟩
        rintro rfl
        cases hcols
      · cases h
    case h_6 =>
      split at h
      · simp only [bind_ok_iff,textItem_ok,pure_ok_iff] at h
        obtain ⟨_,rfl,rfl⟩ := h
        exact ⟨rfl,rfl,trivial⟩
      · cases h
    case h_7 => cases h
  · rintro ⟨rfl,rfl,hcols⟩
    cases formula with
    | project table offset length columns =>
      cases columns with
      | nil => exact absurd rfl hcols
      | cons column columns =>
        simp only [RefFormula.decode,RefFormula.operation,RefFormula.atoms,List.map_cons,
          bind_ok_iff,unsignedAtom_ok,textItem_ok,textItems_ok,pure_ok_iff]
        exact ⟨_,rfl,_,rfl,_,rfl,column::columns,rfl,rfl⟩
    | _ =>
      simp [RefFormula.decode,RefFormula.operation,RefFormula.atoms,bind_ok_iff,map_ok_iff,
        unsignedAtom_ok]

theorem RefArgs.decode_ok {operation : Operation} {atoms : List Atom} {arguments : RefArgs} :
    RefArgs.decode operation atoms=.ok arguments ↔ arguments.formula.operation=operation ∧
      arguments.encode=.ok (.vector atoms) ∧ arguments.validate=.ok () := by
  unfold RefArgs.decode
  split
  · simp [Fallible.fail,RefArgs.encode]
  · simp only [bind_ok_iff,referenceFormulaAtom_ok,RefFormula.decode_ok,RefArgs.new,validated_ok,
      RefArgs.encode,Except.ok.injEq,Value.vector.injEq,List.cons.injEq]
    constructor
    · rintro ⟨_,⟨rfl,-⟩,_,⟨rfl,rfl,-⟩,rfl,h⟩
      exact ⟨rfl,⟨rfl,rfl⟩,h⟩
    · rintro ⟨rfl,⟨rfl,rfl⟩,h⟩
      have hparts := h
      simp only [RefArgs.validate,bind_unit_ok_iff,require_ok_iff] at hparts
      exact ⟨_,⟨rfl,hparts.1⟩,_,⟨rfl,rfl,RefFormula.hasColumns hparts.2⟩,rfl,h⟩

/-! ## All operations -/

/-- The kind of value that the arguments of an operation are written as. -/
def Operation.hasForm (operation : Operation) : Value → Bool
  | .scalar _ => false
  | .vector _ => operation.isReferenceFormula
  | .table _ => operation == .fs || operation == .batch
  | .record _ => !operation.isReferenceFormula && operation != .fs && operation != .batch

theorem RefFormula.isReferenceFormula (formula : RefFormula) :
    formula.operation.isReferenceFormula=true := by
  cases formula <;> rfl

theorem hasForm_of_recordValue {columns : List Text} {cells : List Cell} {value : Value}
    (h : recordValue columns cells=.ok value) {operation : Operation}
    (hop : (!operation.isReferenceFormula && operation != .fs && operation != .batch)=true) :
    Operation.hasForm operation value=true := by
  obtain ⟨record,rfl,-⟩ := recordValue_ok.1 h
  exact hop

theorem hasForm_of_tableValue {columns : List Text} {rows : List (List Cell)} {value : Value}
    (h : tableValue columns rows=.ok value) {operation : Operation}
    (hop : (operation == .fs || operation == .batch)=true) :
    Operation.hasForm operation value=true := by
  obtain ⟨table,rfl,-⟩ := tableValue_ok.1 h
  exact hop

theorem Arguments.hasForm {value : Value} (h : arguments.encode=.ok value) :
    Operation.hasForm arguments.operation value=true := by
  cases arguments with
  | fs arguments => exact hasForm_of_tableValue h rfl
  | batch nodes =>
    rw [Arguments.encode,bind_ok_iff] at h
    obtain ⟨rows,-,h⟩ := h
    exact hasForm_of_tableValue h rfl
  | ref arguments =>
    cases h
    exact arguments.formula.isReferenceFormula
  | exec | read | list | search | patch | snapshot | cancel => exact hasForm_of_recordValue h rfl

/-- Arguments that were read from a value. -/
def Arguments.Reads (arguments : Arguments) (value : Value) : Prop :=
  arguments.encode=.ok value ∧ arguments.validate=.ok ()

theorem decodeRecord_ok {operation : Operation} {record : Record} :
    Arguments.decodeRecord operation record=.ok arguments ↔
      arguments.operation=operation ∧ arguments.Reads (.record record) := by
  constructor
  · intro h
    unfold Arguments.decodeRecord at h
    split at h
    case h_8 => cases h
    all_goals
      obtain ⟨leaf,hleaf,rfl⟩ := map_ok_iff.1 h
      refine ⟨rfl,?_⟩
    · exact (readRecord_ok ExecArgs.decodeCells_ok).1 hleaf
    · exact (readRecord_ok ReadArgs.decodeCells_ok).1 hleaf
    · exact (readRecord_ok ListArgs.decodeCells_ok).1 hleaf
    · exact (readRecord_ok SearchArgs.decodeCells_ok).1 hleaf
    · exact (readRecord_ok PatchArgs.decodeCells_ok).1 hleaf
    · exact (readRecord_ok SnapshotArgs.decodeCells_ok).1 hleaf
    · exact (readRecord_ok CancelArgs.decodeCells_ok).1 hleaf
  · rintro ⟨rfl,h⟩
    have hform := Arguments.hasForm h.1
    cases arguments with
    | fs arguments => cases hform
    | batch nodes => cases hform
    | ref arguments =>
      rw [Operation.hasForm,Arguments.operation,arguments.formula.isReferenceFormula] at hform
      cases hform
    | exec arguments =>
      exact map_ok_iff.2 ⟨arguments,(readRecord_ok ExecArgs.decodeCells_ok).2 h,rfl⟩
    | read arguments =>
      exact map_ok_iff.2 ⟨arguments,(readRecord_ok ReadArgs.decodeCells_ok).2 h,rfl⟩
    | list arguments =>
      exact map_ok_iff.2 ⟨arguments,(readRecord_ok ListArgs.decodeCells_ok).2 h,rfl⟩
    | search arguments =>
      exact map_ok_iff.2 ⟨arguments,(readRecord_ok SearchArgs.decodeCells_ok).2 h,rfl⟩
    | patch arguments =>
      exact map_ok_iff.2 ⟨arguments,(readRecord_ok PatchArgs.decodeCells_ok).2 h,rfl⟩
    | snapshot arguments =>
      exact map_ok_iff.2 ⟨arguments,(readRecord_ok SnapshotArgs.decodeCells_ok).2 h,rfl⟩
    | cancel arguments =>
      exact map_ok_iff.2 ⟨arguments,(readRecord_ok CancelArgs.decodeCells_ok).2 h,rfl⟩

theorem decodeWith_ok {decodeBatch : Table → Checked (List Node)} {operation : Operation}
    {value : Value} :
    Arguments.decodeWith decodeBatch operation value=.ok arguments ↔
      arguments.operation=operation ∧
        ((∃ nodes table, arguments=.batch nodes ∧ value=.table table ∧
          decodeBatch table=.ok nodes) ∨
        (operation≠.batch ∧ arguments.Reads value)) := by
  constructor
  · intro h
    unfold Arguments.decodeWith at h
    split at h
    · next href =>
      have hbatch : operation≠.batch := by
        rintro rfl
        cases href
      split at h
      · obtain ⟨leaf,hleaf,rfl⟩ := map_ok_iff.1 h
        obtain ⟨rfl,hread⟩ := RefArgs.decode_ok.1 hleaf
        exact ⟨rfl,.inr ⟨hbatch,hread⟩⟩
      · cases h
    · split at h
      · next hfs =>
        subst hfs
        split at h
        · obtain ⟨leaf,hleaf,rfl⟩ := map_ok_iff.1 h
          exact ⟨rfl,.inr ⟨by decide,FsArgs.decode_ok.1 hleaf⟩⟩
        · cases h
      · split at h
        · next hbatch =>
          subst hbatch
          split at h
          · obtain ⟨nodes,hnodes,rfl⟩ := map_ok_iff.1 h
            exact ⟨rfl,.inl ⟨nodes,_,rfl,rfl,hnodes⟩⟩
          · cases h
        · next hbatch =>
          split at h
          · obtain ⟨rfl,hread⟩ := decodeRecord_ok.1 h
            exact ⟨rfl,.inr ⟨hbatch,hread⟩⟩
          · cases h
  · rintro ⟨rfl,⟨nodes,table,rfl,rfl,hnodes⟩ | ⟨hbatch,hread⟩⟩
    · exact map_ok_iff.2 ⟨nodes,hnodes,rfl⟩
    · have hform := Arguments.hasForm hread.1
      unfold Arguments.decodeWith
      split
      · next href =>
        cases arguments with
        | ref arguments =>
          cases hread.1
          exact map_ok_iff.2 ⟨arguments,RefArgs.decode_ok.2 ⟨rfl,hread⟩,rfl⟩
        | _ => cases href
      · split
        · next href hfs =>
          cases arguments with
          | fs arguments =>
            cases value with
            | table table => exact map_ok_iff.2 ⟨arguments,FsArgs.decode_ok.2 hread,rfl⟩
            | _ => cases hform
          | ref arguments => exact absurd arguments.formula.isReferenceFormula href
          | _ => cases hfs
        · next href hfs =>
          cases value with
          | record record => exact decodeRecord_ok.2 ⟨rfl,hread⟩
          | scalar atom => cases hform
          | vector atoms => exact absurd hform href
          | table table =>
            simp [Operation.hasForm,hfs,hbatch] at hform

end Ash.RequestArguments
