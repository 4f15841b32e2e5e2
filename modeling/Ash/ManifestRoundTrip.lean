import Ash.RetainedEvidence
import Ash.Snapshots

/-! # Manifests read back

A manifest is read from just the text that it is written as, if its scope and entries pass the
checks of the reader. -/

namespace Ash.ManifestRoundTrip
open AsonDocuments AsonGrammar AsonParser AsonRoundTrip ByteCodecs
  Outcomes ParserOutcomes RequestArguments Requests Responses Snapshots TreeOperations
open RequestValues hiding unsignedCell
open RetainedEvidence (IsSmall Slim count_encode_le fieldWithin_scalar isSmall_textValue
  isSmall_unsignedValue)
open TextSlices (byteLength length_utf8_eq_byteLength)
open WorkspaceOperations (Digest)

/-! ## Cells -/

theorem scalar_ok {value : Option Value} {text : Text} :
    scalar value=.ok text ↔ value=some (.scalar (.text text)) := by
  unfold scalar
  split
  · simp
  · next hno => exact error_ok_iff fun h => hno _ h

theorem textAtom_ok {cell : Cell} {text : Text} :
    textAtom cell=.ok text ↔ cell=textValue text := by
  unfold textAtom textValue
  split
  · simp
  · next hno => exact error_ok_iff fun h => hno _ h

/-- Numbers are read as in requests, with another error. -/
theorem unsignedCell_iff {cell : Cell} {value : UInt64} :
    unsignedCell cell=.ok value ↔ cell=unsignedValue value := by
  have htext : ∀ source : Text, unsignedCell (textValue source)=.ok value ↔
      unsignedAtom (.text source) ""=.ok value := by
    intro source
    simp only [unsignedCell,textAtom,textValue,unsignedAtom,bind,Except.bind]
    split
    · simp [Fallible.fail]
    · split <;> simp [Fallible.fail]
  constructor
  · intro h
    obtain ⟨source,hsrc,-⟩ := bind_ok_iff.1 h
    rw [textAtom_ok] at hsrc
    rw [hsrc,htext,unsignedAtom_ok] at h
    rw [hsrc,unsignedValue,← h,textValue]
  · rintro rfl
    exact (htext _).2 (unsignedAtom_ok.2 rfl)

theorem parseDigest_eq_some {value : Text} {digest : Digest} :
    parseDigest value=some digest ↔ value=hexDigest digest := by
  rw [hexDigest,← decodeHexArray_eq_some digest.2]
  obtain ⟨found,size⟩ := digest
  unfold parseDigest
  split
  · next bytes h =>
    constructor
    · rintro ⟨⟩
      exact h
    · intro heq
      obtain rfl : bytes=found := Option.some.inj (h.symm.trans heq)
      rfl
  · next h => simp [h]

theorem optionalDigest_ok {cell : Cell} {digest : Option Digest} :
    optionalDigest cell=.ok digest ↔ cell=optionalTextValue (digest.map hexDigest) := by
  unfold optionalDigest
  split
  · cases digest <;> simp [optionalTextValue,nullValue,textValue]
  · next value =>
    cases digest with
    | none =>
      cases parseDigest value <;> simp [optionalTextValue,nullValue,Fallible.fail]
    | some digest =>
      simp only [optionalTextValue,Option.map_some,Option.elim_some,textValue,Cell.atom.injEq,
        Atom.text.injEq,← parseDigest_eq_some]
      cases parseDigest value <;> simp [Fallible.fail]
  · next hnull htext =>
    simp only [Fallible.fail,reduceCtorEq,false_iff]
    rintro rfl
    cases digest with
    | none => exact hnull rfl
    | some digest => exact htext _ rfl

theorem decodeKind_ok {value : UInt64} {kind : FileKind} :
    decodeKind value=.ok kind ↔ value=kind.code := by
  constructor
  · unfold decodeKind
    intro h
    repeat' split at h
    all_goals cases h
    all_goals assumption
  · rintro rfl
    cases kind <;> rfl

/-! ## Rows -/

/-- What the reader checks of an entry after a path and so many bytes of files. -/
structure RowValid (scope : Scope) (previous : Option Text) (fileBytes : ℕ)
    (entry : SnapshotEntry) : Prop where
  path : validPath entry.path=true
  covered : scopeCovers scope entry.path=true
  later : ∀ last∈previous, utf8 last < utf8 entry.path
  identity : identityValid entry.kind entry.size entry.digest=true
  file : entry.kind=.file → entry.size.toNat ≤ maxSnapshotFileBytes ∧
    fileBytes+entry.size.toNat ≤ maxSnapshotTotalBytes

def bytesWith (fileBytes : ℕ) (entry : SnapshotEntry) : ℕ :=
  if entry.kind=.file then fileBytes+entry.size.toNat else fileBytes

theorem addFileBytes_ok {kind : FileKind} {size : UInt64} {fileBytes total : ℕ} :
    addFileBytes kind size fileBytes=.ok total ↔
      (kind=.file → size.toNat ≤ maxSnapshotFileBytes ∧
        fileBytes+size.toNat ≤ maxSnapshotTotalBytes) ∧
      total=if kind=.file then fileBytes+size.toNat else fileBytes := by
  rw [addFileBytes]
  split
  · next hfile =>
    simp only [bind_unit_ok_iff,require_ok_iff,pure_ok_iff,hfile,true_imp_iff,and_assoc]
    exact and_congr_right fun _ => and_congr_right fun _ => eq_comm
  · next hfile => simp [hfile,eq_comm]

variable {scope : Scope}

variable {previous : Option Text}

theorem decodeRow_ok {fileBytes total : ℕ} {row : List Cell} {entry : SnapshotEntry} :
    decodeRow scope previous fileBytes row=.ok (entry,total) ↔
      row=entryCells entry ∧ RowValid scope previous fileBytes entry ∧
        total=bytesWith fileBytes entry := by
  constructor
  · intro h
    unfold decodeRow at h
    split at h
    · simp only [bind_ok_iff,require_ok_iff,textAtom_ok,unsignedCell_iff,decodeKind_ok,
        optionalDigest_ok,addFileBytes_ok,pure_ok_iff,Prod.mk.injEq] at h
      obtain ⟨path,rfl,_,⟨hpath,hcov,hlater⟩,_,rfl,kind,rfl,size,rfl,digest,rfl,_,hidn,_,
        ⟨hfile,rfl⟩,rfl,rfl⟩ := h
      exact ⟨rfl,⟨hpath,hcov,hlater,hidn,hfile⟩,rfl⟩
    · cases h
  · rintro ⟨rfl,hvalid,rfl⟩
    simp only [entryCells,decodeRow,bind_ok_iff,require_ok_iff,textAtom_ok,unsignedCell_iff,
      decodeKind_ok,optionalDigest_ok,addFileBytes_ok,pure_ok_iff,Prod.mk.injEq]
    exact ⟨entry.path,rfl,(),⟨hvalid.path,hvalid.covered,hvalid.later⟩,_,rfl,entry.kind,rfl,
      entry.size,rfl,entry.digest,rfl,(),hvalid.identity,_,⟨hvalid.file,rfl⟩,rfl,rfl⟩

/-- All entries pass, each after the ones before it. -/
def RowsValid (scope : Scope) : Option Text → ℕ → List SnapshotEntry → Prop
  | _, _, [] => True
  | previous, fileBytes, entry::entries => RowValid scope previous fileBytes entry ∧
      RowsValid scope (some entry.path) (bytesWith fileBytes entry) entries

theorem decodeRows_ok {fileBytes : ℕ} {rows : List (List Cell)} {entries : List SnapshotEntry} :
    decodeRows scope previous fileBytes rows=.ok entries ↔
      rows=entries.map entryCells ∧ RowsValid scope previous fileBytes entries := by
  induction rows generalizing previous fileBytes entries with
  | nil =>
    rw [decodeRows]
    cases entries with
    | nil => simp [RowsValid]
    | cons entry entries => simp
  | cons row rows ih =>
    simp only [decodeRows,bind_ok_iff,pure_ok_iff,ih]
    constructor
    · rintro ⟨⟨entry,total⟩,hentry,rest,⟨rfl,hrest⟩,rfl⟩
      obtain ⟨rfl,hvalid,rfl⟩ := decodeRow_ok.1 hentry
      exact ⟨rfl,hvalid,hrest⟩
    · rintro ⟨hrows,hvalid⟩
      cases entries with
      | nil => cases hrows
      | cons entry entries =>
        obtain ⟨rfl,rfl⟩ := List.cons.inj hrows
        exact ⟨(entry,bytesWith fileBytes entry),decodeRow_ok.2 ⟨rfl,hvalid.1,rfl⟩,entries,
          ⟨rfl,hvalid.2⟩,rfl⟩

/-! ## Scopes -/

/-- What the reader checks of a scope. -/
structure ScopeValid (scope : Scope) : Prop where
  paths : ∀ path∈scope.paths, validPath path=true
  nonempty : scope.paths≠[]
  few : scope.paths.length ≤ 256
  ascending : ascending textLt scope.paths=true
  depth : scope.depth ≤ 64
  flags : scope.flags &&& ~~~ snapshotFlags=0

theorem scopePath_ok {atom : Atom} {path : Text} :
    scopePath atom=.ok path ↔ atom=.text path ∧ validPath path=true := by
  cases atom with
  | null | reference => simp [scopePath,Fallible.fail]
  | text value =>
    rw [scopePath]
    split
    · next hvalid =>
      rw [Except.ok.injEq,Atom.text.injEq]
      constructor
      · rintro rfl
        exact ⟨rfl,hvalid⟩
      · exact fun h => h.1
    · next hvalid =>
      refine iff_of_false (by rintro ⟨⟩) ?_
      rintro ⟨heq,hpath⟩
      rw [Atom.text.inj heq] at hvalid
      exact hvalid hpath

theorem pathAtoms_ok {cell : Cell} {atoms : List Atom} :
    pathAtoms cell=.ok atoms ↔ cell=.vector atoms := by
  cases cell <;> simp [pathAtoms,Fallible.fail]

theorem narrowDepth_ok {value : UInt64} {depth : UInt16} :
    narrowDepth value=.ok depth ↔ value=depth.toUInt64 := by
  rw [← @narrowU16_ok value "" depth,narrowDepth,narrowU16]
  split <;> simp [Fallible.fail]

theorem narrowFlags_ok {value : UInt64} {flags : UInt32} :
    narrowFlags value=.ok flags ↔ value=flags.toUInt64 := by
  rw [← @narrowU32_ok value "" flags,narrowFlags,narrowU32]
  split <;> simp [Fallible.fail]

theorem decodeScope_ok {record : Record} :
    decodeScope record=.ok scope ↔ names record.columns=scopeColumns ∧
      record.values=scope.cells ∧ ScopeValid scope := by
  have hpaths := mapM_ok_iff_map (f := scopePath) (g := Atom.text)
    (C := fun path => validPath path=true) (fun _ _ => scopePath_ok)
  rw [decodeScope]
  simp only [bind_ok_iff,require_ok_iff,sameNames_iff,exists_const]
  refine and_congr_right fun _ => ?_
  constructor
  · intro h
    split at h
    · next paths depth flags hvals =>
      simp only [bind_ok_iff,require_ok_iff,pathAtoms_ok,hpaths,unsignedCell_iff,narrowDepth_ok,
        narrowFlags_ok,pure_ok_iff,exists_const] at h
      obtain ⟨_,rfl,paths,⟨rfl,hvalid⟩,⟨hne,hfew,hasc⟩,_,rfl,depth,rfl,_,rfl,flags,rfl,
        ⟨hdepth,hflags⟩,rfl⟩ := h
      exact ⟨hvals,hvalid,hne,hfew,hasc,hdepth,hflags⟩
    · cases h
  · rintro ⟨hvals,hvalid⟩
    rw [hvals]
    simp only [Scope.cells,textVectorValue,bind_ok_iff,require_ok_iff,pathAtoms_ok,hpaths,
      unsignedCell_iff,narrowDepth_ok,narrowFlags_ok,pure_ok_iff,exists_const]
    exact ⟨_,rfl,scope.paths,⟨rfl,hvalid.paths⟩,⟨hvalid.nonempty,hvalid.few,hvalid.ascending⟩,_,rfl,
      scope.depth,rfl,_,rfl,scope.flags,rfl,⟨hvalid.depth,hvalid.flags⟩,rfl⟩

/-! ## Manifests -/

/-- The fields of the document of a manifest. -/
structure Describes (document : Document) (manifest : Manifest) (k v q d : Key) (record : Record)
    (table : Table) : Prop where
  keys : [k.value,v.value,q.value,d.value]=[['k'],['v'],['q'],['d']]
  scopeNames : names record.columns=scopeColumns
  scope : record.values=manifest.scope.cells
  entryNames : names table.columns=entryColumns
  entries : table.rows=manifest.entries.map entryCells
  fields : document.fields=[⟨k,.scalar (.text ['s'])⟩,⟨v,.scalar (.text ['1'])⟩,⟨q,.record record⟩,
    ⟨d,.table table⟩]

theorem manifestDocument_ok {manifest : Manifest} {document : Document} :
    manifestDocument manifest=.ok document ↔
      ∃ k v q d record table, Describes document manifest k v q d record table := by
  simp only [manifestDocument,bind_ok_iff,scalarField_ok,valueField_ok,recordValue_ok,tableValue_ok,
    Document.new_ok]
  constructor
  · rintro ⟨⟨k,_⟩,⟨hk,rfl⟩,⟨v,_⟩,⟨hv,rfl⟩,⟨q,_⟩,⟨hq,record,rfl,hscopeNames,hscope⟩,⟨d,_⟩,
      ⟨hd,table,rfl,hentryNames,hents⟩,hflds⟩
    exact ⟨k,v,q,d,record,table,by rw [hk,hv,hq,hd],hscopeNames,hscope,hentryNames,hents,hflds⟩
  · rintro ⟨k,v,q,d,record,table,hkeys,hscopeNames,hscope,hentryNames,hents,hflds⟩
    simp only [List.cons.injEq,and_true] at hkeys
    obtain ⟨hk,hv,hq,hd⟩ := hkeys
    exact ⟨⟨k,_⟩,⟨hk,rfl⟩,⟨v,_⟩,⟨hv,rfl⟩,⟨q,_⟩,⟨hq,record,rfl,hscopeNames,hscope⟩,⟨d,_⟩,
      ⟨hd,table,rfl,hentryNames,hents⟩,hflds⟩

theorem decodeDocument_encode {document other : Document} :
    decodeDocument (encode document)=.ok other ↔
      Within defaultLimits (encode document) document ∧ other=document := by
  rw [decodeDocument,decode]
  obtain ⟨hwith,hdec⟩ | ⟨hwith,error,hdec⟩ :=
    decodeWithLimits_documentText defaultLimits (documentText_encode document)
  · simp [hdec,hwith,eq_comm]
  · simp [hdec,hwith,Fallible.fail]

theorem scopeRecord_ok {value : Option Value} {record : Record} :
    scopeRecord value=.ok record ↔ value=some (.record record) := by
  unfold scopeRecord
  split
  · simp
  · next hno => exact error_ok_iff fun h => hno _ h

theorem entryTable_ok {value : Option Value} {table : Table} :
    entryTable value=.ok table ↔ value=some (.table table) := by
  unfold entryTable
  split
  · simp
  · next hno => exact error_ok_iff fun h => hno _ h

section
variable {manifest : Manifest} {document : Document} {k v q d : Key} {record : Record}
  {table : Table}

section
variable (h : Describes document manifest k v q d record table)
include h

theorem Describes.get :
    document.get ['k']=some (.scalar (.text ['s'])) ∧
      document.get ['v']=some (.scalar (.text ['1'])) ∧
      document.get ['q']=some (.record record) ∧ document.get ['d']=some (.table table) := by
  have hkeys := h.keys
  simp only [List.cons.injEq,and_true] at hkeys
  obtain ⟨hk,hv,hq,hd⟩ := hkeys
  have hget : ∀ field∈document.fields, document.get field.key.value=some field.value :=
    fun field hfield => get_of_mem hfield
  simp only [h.fields,List.forall_mem_cons,hk,hv,hq,hd] at hget
  exact ⟨hget.1,hget.2.1,hget.2.2.1,hget.2.2.2.1⟩

theorem Describes.fieldNames : fieldNames document.fields=[['k'],['v'],['q'],['d']] := by
  rw [← h.keys,h.fields]
  rfl

/-- The reader gives a manifest back just when the parser reads its document and the checks
of the scope and of the entries pass. -/
theorem decodeManifest_encode :
    decodeManifest (utf8 (encode document))=.ok manifest ↔
      (utf8 (encode document)).length ≤ maxSnapshotManifestBytes ∧
      Within defaultLimits (encode document) document ∧ ScopeValid manifest.scope ∧
      manifest.entries.length ≤ maxSnapshotEntries ∧
      RowsValid manifest.scope none 0 manifest.entries := by
  obtain ⟨hk,hv,hq,hd⟩ := h.get
  have hrows : table.rows.length=manifest.entries.length := by
    rw [h.entries,List.length_map]
  simp only [decodeManifest,decodeUtf8_utf8,bind_ok_iff,require_ok_iff,exists_const,
    decodeDocument_encode,and_assoc,exists_and_left,exists_eq_left,scalar_ok,hk,hv,hq,hd,
    scopeRecord_ok,entryTable_ok,decodeScope_ok,decodeRows_ok,sameNames_iff,pure_ok_iff,
    Option.some.injEq,Value.record.injEq,Value.table.injEq]
  constructor
  · rintro ⟨hbytes,hwith,-,-,_,-,-,_,-,-,_,rfl,-,scope,-,hscope,_,rfl,-,hcount,entries,-,hvalid,rfl⟩
    exact ⟨hbytes,hwith,hscope,hrows ▸ hcount,hvalid⟩
  · rintro ⟨hbytes,hwith,hscope,hcount,hvalid⟩
    exact ⟨hbytes,hwith,trivial,h.fieldNames,_,rfl,rfl,_,rfl,rfl,_,rfl,h.scopeNames,manifest.scope,
      h.scope,hscope,_,rfl,h.entryNames,hrows ▸ hcount,manifest.entries,h.entries,hvalid,rfl⟩

end

/-! ## Ceilings of the parser -/

theorem length_le_of_validPath {path : Text} (h : validPath path=true) :
    byteLength path ≤ 4096 := by
  simp only [validPath,Bool.and_eq_true,decide_eq_true_eq] at h
  exact h.1.1.1.1.2

theorem short_columns {columns : List Key} {expected : List Text} (h : names columns=expected)
    (hshort : ∀ name∈expected, byteLength name ≤ 128) :
    ∀ key∈columns, byteLength key.value ≤ 128 := by
  intro key hkey
  refine hshort key.value ?_
  rw [← h]
  exact List.mem_map_of_mem hkey

theorem isSmall_digest (digest : Option Digest) :
    IsSmall (optionalTextValue (digest.map hexDigest)) := by
  cases digest with
  | none =>
    intro a ha
    rw [List.mem_singleton.1 ha]
    exact Nat.zero_le _
  | some digest =>
    refine isSmall_textValue.2 ?_
    rw [hexDigest,← length_utf8_eq_byteLength,length_encodeHex,digest.2]
    decide

theorem slim_entries (entries : List SnapshotEntry) :
    Slim entryColumns (entries.map entryCells) := by
  refine ⟨by decide,by decide,?_,?_⟩
  · intro row hrow
    obtain ⟨entry,-,rfl⟩ := List.mem_map.1 hrow
    rfl
  · intro row hrow cell hcell
    obtain ⟨entry,-,rfl⟩ := List.mem_map.1 hrow
    simp only [entryCells,List.mem_cons,List.not_mem_nil,or_false] at hcell
    rcases hcell with rfl | rfl | rfl | rfl
    · exact ⟨rfl,rfl⟩
    · exact ⟨rfl,rfl⟩
    · exact ⟨rfl,rfl⟩
    · cases entry.digest <;> exact ⟨rfl,rfl⟩

theorem small_entries {entries : List SnapshotEntry}
    (h : ∀ entry∈entries, validPath entry.path=true) :
    ∀ row∈entries.map entryCells, ∀ cell∈row, IsSmall cell := by
  intro row hrow cell hcell
  obtain ⟨entry,hentry,rfl⟩ := List.mem_map.1 hrow
  simp only [entryCells,List.mem_cons,List.not_mem_nil,or_false] at hcell
  rcases hcell with rfl | rfl | rfl | rfl
  · exact isSmall_textValue.2 ((length_le_of_validPath (h entry hentry)).trans (by decide))
  · exact isSmall_unsignedValue _
  · exact isSmall_unsignedValue _
  · exact isSmall_digest _

/-- The scope keeps within the ceilings of a record. -/
theorem cellWithin_scope {scope : Scope} (h : ScopeValid scope) :
    ∀ cell∈scope.cells, CellWithin defaultLimits cell := by
  have hnumber : ∀ value, CellWithin defaultLimits (unsignedValue value) := fun value =>
    ⟨fun atoms hatoms => absurd hatoms List.not_mem_nil,isSmall_unsignedValue value⟩
  intro cell hcell
  simp only [Scope.cells,List.mem_cons,List.not_mem_nil,or_false] at hcell
  rcases hcell with rfl | rfl | rfl
  · refine ⟨fun atoms hatoms => ?_,fun a ha => ?_⟩
    · rw [List.mem_singleton.1 hatoms,List.length_map]
      exact h.few.trans (by decide : 256 ≤ 4096)
    · obtain ⟨path,hpath,rfl⟩ := List.mem_map.1 ha
      exact (length_le_of_validPath (h.paths path hpath)).trans (by decide : 4096 ≤ 1048576)
  · exact hnumber _
  · exact hnumber _

theorem Describes.valueCount_le (h : Describes document manifest k v q d record table)
    (hscope : ScopeValid manifest.scope) (hcount : manifest.entries.length ≤ maxSnapshotEntries) :
    (document.fields.map Field.valueCount).sum ≤ 1000000 := by
  have hvals := (slim_entries manifest.entries).valueCount_le
  have hfew := hscope.few
  have hmax : manifest.entries.length ≤ 100000 := hcount
  rw [List.length_map] at hvals
  have hrecord : (record.values.map fun cell => cell.atoms.length).sum ≤ 258 := by
    rw [h.scope]
    simp only [Scope.cells,textVectorValue,unsignedValue,List.map_cons,List.map_nil,List.sum_cons,
      List.sum_nil,Cell.atoms,List.length_map,List.length_singleton]
    omega
  rw [h.fields]
  simp only [List.map_cons,List.map_nil,List.sum_cons,List.sum_nil,Field.valueCount,Value.cells,
    h.entries]
  change 1+(1+(_+(_+0))) ≤ 1000000
  omega

/-- A manifest with good paths keeps within the ceilings of the parser. -/
theorem Describes.within (h : Describes document manifest k v q d record table)
    (hbytes : (utf8 (encode document)).length ≤ maxSnapshotManifestBytes)
    (hscope : ScopeValid manifest.scope) (hcount : manifest.entries.length ≤ maxSnapshotEntries)
    (hpaths : ∀ entry∈manifest.entries, validPath entry.path=true) :
    Within defaultLimits (encode document) document := by
  have hmax : manifest.entries.length ≤ 100000 := hcount
  have hnames : names [k,v,q,d]=[['k'],['v'],['q'],['d']] := h.keys
  have hkeys : ∀ key∈[k,v,q,d], byteLength key.value ≤ 128 :=
    short_columns hnames (by decide)
  have hscalar : ∀ key∈[k,v,q,d], ∀ text : Text, byteLength text ≤ 128 →
      FieldWithin defaultLimits ⟨key,.scalar (.text text)⟩ := by
    intro key hkey text htext
    exact fieldWithin_scalar (hkeys key hkey) htext
  refine ⟨?_,?_,?_,?_,h.valueCount_le hscope hcount⟩
  · rw [← length_utf8_eq_byteLength]
    exact hbytes
  · refine (count_encode_le document).trans ?_
    simp only [h.fields,List.map_cons,List.map_nil,List.sum_cons,List.sum_nil,Value.rowCount,
      h.entries,List.length_map]
    change _ ≤ 262144
    omega
  · rw [h.fields]
    exact (by decide : 4 ≤ 256)
  · rw [h.fields]
    simp only [List.forall_mem_cons]
    refine ⟨hscalar k (by simp) _ (by decide),hscalar v (by simp) _ (by decide),?_,?_,by simp⟩
    · refine ⟨List.forall_mem_cons.2 ⟨hkeys q (by simp),short_columns h.scopeNames (by decide)⟩,?_,
        (by decide : 1 ≤ 100000),?_⟩
      · have hlen := congrArg List.length h.scopeNames
        rw [names,List.length_map] at hlen
        exact hlen.le.trans (by decide)
      · change ∀ cell∈record.values, _
        rw [h.scope]
        exact cellWithin_scope hscope
    · refine ⟨List.forall_mem_cons.2 ⟨hkeys d (by simp),short_columns h.entryNames (by decide)⟩,?_,
        ?_,?_⟩
      · have hlen := congrArg List.length h.entryNames
        rw [names,List.length_map] at hlen
        exact hlen.le.trans (by decide)
      · change table.rows.length ≤ 100000
        rwa [h.entries,List.length_map]
      · intro cell hcell
        obtain ⟨row,hrow,hcell⟩ := List.mem_flatten.1 hcell
        rw [h.entries] at hrow
        refine ⟨fun atoms hatoms => ?_,small_entries hpaths row hrow cell hcell⟩
        rw [((slim_entries manifest.entries).atoms row hrow cell hcell).2] at hatoms
        exact absurd hatoms List.not_mem_nil

end

end Ash.ManifestRoundTrip
