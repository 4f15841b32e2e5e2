import Ash.AsonSizes
import Ash.RequestSchemas

/-! # Batch tables

The arguments of a batch node travel as the canonical text of a document of their own.
Reading a table succeeds on just what valid nodes are written as, where no node takes more
than its ceiling. -/

namespace Ash.RequestArguments
open ByteCodecs TextSlices AsonDocuments AsonParser AsonGrammar AsonFields AsonRoundTrip AsonSizes
open ParserOutcomes Outcomes RequestValues

/-! ## Sizes of written arguments -/

/-- How many bytes arguments take in a batch node.  A node never holds a batch. -/
def Arguments.writtenBytes : Arguments → ℕ
  | .exec arguments => 1+recordBytes execColumns arguments.cells
  | .read arguments => 1+recordBytes readColumns arguments.cells
  | .list arguments => 1+recordBytes listColumns arguments.cells
  | .search arguments => 1+recordBytes searchColumns arguments.cells
  | .patch arguments => 1+recordBytes patchColumns arguments.cells
  | .fs arguments => 1+tableBytes fsColumns (arguments.actions.map FsAction.encode)
  | .batch _ => 0
  | .snapshot arguments => 1+recordBytes snapshotColumns arguments.cells
  | .ref arguments =>
      1+inlineVectorBytes (.reference arguments.reference::arguments.formula.atoms)
  | .cancel arguments => 1+recordBytes cancelColumns arguments.cells

theorem valueBytes_recordValue {columns : List Text} {cells : List Cell} {value : Value}
    (h : recordValue columns cells=.ok value) : valueBytes value=recordBytes columns cells := by
  obtain ⟨record,rfl,rfl,rfl⟩ := recordValue_ok.1 h
  rfl

theorem valueBytes_tableValue {columns : List Text} {rows : List (List Cell)} {value : Value}
    (h : tableValue columns rows=.ok value) : valueBytes value=tableBytes columns rows := by
  obtain ⟨table,rfl,rfl,rfl⟩ := tableValue_ok.1 h
  rfl

variable {arguments : Arguments} {nodes : List Node}

theorem Arguments.writtenBytes_eq (hop : arguments.operation≠.batch) {value : Value}
    (h : arguments.encode=.ok value) : arguments.writtenBytes=1+valueBytes value := by
  cases arguments with
  | batch nodes => exact absurd rfl hop
  | fs arguments => rw [Arguments.writtenBytes,valueBytes_tableValue h]
  | ref arguments =>
    cases h
    rfl
  | exec | read | list | search | patch | snapshot | cancel =>
    rw [Arguments.writtenBytes,valueBytes_recordValue h]

/-! ## Ceilings that the checks keep -/

/-- Columns that a default reader takes. -/
def shortNames (columns : List Text) : Bool :=
  decide (columns.length ≤ 128) && columns.all fun name => decide (byteLength name ≤ 128)

/-- Vectors that a default reader takes. -/
def ShortVectors (cells : List Cell) : Prop :=
  ∀ cell∈cells, ∀ atoms∈cell.vectors, atoms.length ≤ 4096

@[simp] theorem shortVectors_nil : ShortVectors [] := by simp [ShortVectors]

@[simp] theorem shortVectors_cons {cell : Cell} {cells : List Cell} :
    ShortVectors (cell::cells) ↔
      (∀ atoms∈cell.vectors, atoms.length ≤ 4096) ∧ ShortVectors cells := by
  simp [ShortVectors]

/-- A value that keeps every default ceiling except those on bytes. -/
structure Modest (value : Value) : Prop where
  columns : shortNames (names value.columns)=true
  rows : value.rowCount ≤ 256
  vectors : ShortVectors value.cells

theorem modest_recordValue {columns : List Text} {cells : List Cell} {value : Value}
    (h : recordValue columns cells=.ok value) (hcols : shortNames columns=true)
    (hcells : ShortVectors cells) : Modest value := by
  obtain ⟨record,rfl,rfl,rfl⟩ := recordValue_ok.1 h
  exact ⟨hcols,by simp [Value.rowCount],hcells⟩

theorem validatePaths_le {paths : List Text} (h : validatePaths paths=.ok ()) :
    paths.length ≤ 4096 :=
  (validatePaths_length h).trans (by decide)

theorem ExecArgs.shortVectors {arguments : ExecArgs} (h : arguments.validate=.ok ()) :
    ShortVectors arguments.cells := by
  simp only [ExecArgs.validate,validateEnvironment,bind_unit_ok_iff] at h
  obtain ⟨-,-,hargv,⟨henv,-⟩,-⟩ := h
  have hitems : arguments.argv.length ≤ 1024 := validateTextItems_length hargv
  have hents := validateTextItems_length henv
  cases hstdin : arguments.stdin <;>
    simp [ExecArgs.cells,hstdin,InputSource.encode,textValue,textVectorValue,unsignedValue,
      nullValue,Cell.vectors] <;> omega

theorem ReadArgs.shortVectors {arguments : ReadArgs} (h : arguments.validate=.ok ()) :
    ShortVectors arguments.cells := by
  simp only [ReadArgs.validate,bind_unit_ok_iff] at h
  simpa [ReadArgs.cells,textVectorValue,unsignedValue,Cell.vectors] using validatePaths_le h.1

theorem ListArgs.shortVectors {arguments : ListArgs} (h : arguments.validate=.ok ()) :
    ShortVectors arguments.cells := by
  simp only [ListArgs.validate,bind_unit_ok_iff] at h
  simpa [ListArgs.cells,textVectorValue,unsignedValue,Cell.vectors] using validatePaths_le h.1

theorem SearchArgs.shortVectors {arguments : SearchArgs} (h : arguments.validate=.ok ()) :
    ShortVectors arguments.cells := by
  simp only [SearchArgs.validate,bind_unit_ok_iff] at h
  simpa [SearchArgs.cells,textValue,textVectorValue,unsignedValue,Cell.vectors] using
    validatePaths_le h.2.1

theorem PatchArgs.shortVectors {arguments : PatchArgs} (h : arguments.validate=.ok ()) :
    ShortVectors arguments.cells := by
  simp only [PatchArgs.validate,bind_unit_ok_iff,require_ok_iff] at h
  obtain ⟨hpaths,-,⟨hdigests,-⟩,⟨-,hedits⟩,-⟩ := h
  have hpaths := validatePaths_length hpaths
  have hedits : arguments.edits.length ≤ 1024 := hedits
  simp [PatchArgs.cells,textVectorValue,unsignedVectorValue,unsignedValue,Cell.vectors]
  omega

theorem SnapshotArgs.shortVectors {arguments : SnapshotArgs} (h : arguments.validate=.ok ()) :
    ShortVectors arguments.cells := by
  simp only [SnapshotArgs.validate,bind_unit_ok_iff] at h
  cases hbase : arguments.baseline <;>
    simpa [SnapshotArgs.cells,hbase,optionalReferenceValue,nullValue,textVectorValue,
      unsignedValue,Cell.vectors] using validatePaths_le h.1

theorem FsAction.shortVectors (action : FsAction) : ShortVectors action.encode := by
  cases hdest : action.destination <;> cases hdig : action.expectedDigest <;>
    cases hcont : action.content <;>
      simp [FsAction.encode,hdest,hdig,hcont,optionalTextValue,textValue,unsignedValue,
        nullValue,Cell.vectors]

theorem FsArgs.modest {arguments : FsArgs} (h : arguments.validate=.ok ()) {value : Value}
    (hvalue : arguments.encode=.ok value) : Modest value := by
  obtain ⟨table,rfl,hcols,hrows⟩ := tableValue_ok.1 hvalue
  simp only [FsArgs.validate,bind_unit_ok_iff,require_ok_iff] at h
  refine ⟨by rw [Value.columns,hcols]; decide,?_,?_⟩
  · rw [Value.rowCount,hrows,List.length_map]
    exact h.1.2
  · intro cell hcell
    rw [Value.cells,hrows] at hcell
    obtain ⟨row,hrow,hcell⟩ := List.mem_flatten.1 hcell
    obtain ⟨action,-,rfl⟩ := List.mem_map.1 hrow
    exact action.shortVectors cell hcell

theorem RefFormula.atoms_length {formula : RefFormula} (h : formula.validate=.ok ()) :
    formula.atoms.length ≤ 131 := by
  cases formula with
  | project table offset length columns =>
    simp only [RefFormula.validate,bind_unit_ok_iff,require_ok_iff] at h
    have hcols := h.2.2.1.2.2
    simp only [RefFormula.atoms,List.length_cons,List.length_map]
    omega
  | _ => simp [RefFormula.atoms]

theorem RefArgs.modest {arguments : RefArgs} (h : arguments.validate=.ok ()) {value : Value}
    (hvalue : arguments.encode=.ok value) : Modest value := by
  cases hvalue
  simp only [RefArgs.validate,bind_unit_ok_iff] at h
  have hatoms := RefFormula.atoms_length h.2
  refine ⟨by rfl,by simp [Value.rowCount],?_⟩
  simp only [Value.cells,shortVectors_cons,Cell.vectors,List.mem_singleton,forall_eq,
    List.length_cons,shortVectors_nil,and_true]
  omega

theorem Arguments.modest (hop : arguments.operation≠.batch) {value : Value}
    (h : arguments.Reads value) : Modest value := by
  obtain ⟨hvalue,hvalid⟩ := h
  cases arguments with
  | batch nodes => exact absurd rfl hop
  | fs arguments => exact FsArgs.modest hvalid hvalue
  | ref arguments => exact RefArgs.modest hvalid hvalue
  | exec arguments => exact modest_recordValue hvalue (by decide) (ExecArgs.shortVectors hvalid)
  | read arguments => exact modest_recordValue hvalue (by decide) (ReadArgs.shortVectors hvalid)
  | list arguments => exact modest_recordValue hvalue (by decide) (ListArgs.shortVectors hvalid)
  | search arguments => exact modest_recordValue hvalue (by decide) (SearchArgs.shortVectors hvalid)
  | patch arguments => exact modest_recordValue hvalue (by decide) (PatchArgs.shortVectors hvalid)
  | snapshot arguments =>
    exact modest_recordValue hvalue (by decide) (SnapshotArgs.shortVectors hvalid)
  | cancel arguments =>
    refine modest_recordValue hvalue (by decide) ?_
    simp [CancelArgs.cells,unsignedValue,Cell.vectors]

/-! ## Payloads -/

theorem singleDocument_ok {key : Text} {value : Value} {document : Document} :
    singleDocument key value=.ok document ↔
      ∃ name : Key, name.value=key ∧ document.fields=[⟨name,value⟩] := by
  simp only [singleDocument,bind_ok_iff,Key.new_ok,Document.new_ok]
  constructor
  · rintro ⟨name,rfl,h⟩
    exact ⟨name,rfl,h⟩
  · rintro ⟨name,rfl,h⟩
    exact ⟨name,rfl,h⟩

theorem byteLength_singleDocument {value : Value} {document : Document}
    (h : singleDocument ['a'] value=.ok document) :
    byteLength (AsonDocuments.encode document)=1+valueBytes value := by
  obtain ⟨name,hname,hflds⟩ := singleDocument_ok.1 h
  have hsize : byteLength ['a']=1 := by decide
  rw [AsonDocuments.encode,hflds,List.flatMap_cons,List.flatMap_nil,List.append_nil,
    byteLength_writeField,hname,hsize]

theorem length_lines_le (field : Field) : (lines field).length ≤ field.value.rowCount+1 := by
  obtain ⟨key,value⟩ := field
  cases value <;> simp [lines,Value.rowCount]

/-- The ceilings on bytes follow from the ceiling on a payload. -/
theorem within_singleDocument {value : Value} {document : Document}
    (h : singleDocument ['a'] value=.ok document) (hmodest : Modest value)
    (hbytes : byteLength (AsonDocuments.encode document) ≤ maxTextBytes) :
    Within defaultLimits (AsonDocuments.encode document) document := by
  rw [byteLength_singleDocument h,maxTextBytes] at hbytes
  obtain ⟨name,hname,hflds⟩ := singleDocument_ok.1 h
  have hcols := hmodest.columns
  rw [shortNames,Bool.and_eq_true,decide_eq_true_iff,names,List.length_map,
    List.all_eq_true] at hcols
  have hrows := hmodest.rows
  refine ⟨?_,?_,?_,?_,?_⟩
  · rw [byteLength_singleDocument h]
    change _ ≤ 8388608
    omega
  · rw [encode_eq,count_blocks (forall₂_lines document),hflds]
    have hlines := length_lines_le ⟨name,value⟩
    simp only [List.map_cons,List.map_nil,List.flatten_cons,List.flatten_nil,List.append_nil]
    change _ ≤ 262144
    simp only at hlines
    omega
  · rw [hflds]
    exact (by decide : 1 ≤ 256)
  · rw [hflds]
    intro field hfield
    obtain rfl := List.mem_singleton.1 hfield
    refine ⟨?_,hcols.1,?_,?_⟩
    · intro key hkey
      obtain rfl | hkey := List.mem_cons.1 hkey
      · rw [hname]
        decide
      · exact of_decide_eq_true (hcols.2 key.value (List.mem_map_of_mem hkey))
    · change value.rowCount ≤ 100000
      omega
    · intro cell hcell
      refine ⟨fun atoms hatoms => hmodest.vectors cell hcell atoms hatoms,fun a ha => ?_⟩
      have hatom : a.textBytes ≤ valueBytes value := textBytes_le_valueBytes hcell ha
      change _ ≤ 1048576
      omega
  · rw [hflds]
    have hcount := valueCount_le ⟨name,value⟩
    simp only [List.map_cons,List.map_nil,List.sum_cons,List.sum_nil]
    change _ ≤ 1000000
    simp only at hcount
    omega

theorem document_get_single {document : Document} {name : Key} {value : Value}
    (h : document.fields=[⟨name,value⟩]) : document.get name.value=some value := by
  simp [Document.get,h]

variable {payload : Text}

theorem decodePayload_ok {value : Value} :
    BatchNode.decodePayload payload=.ok value ↔ byteLength payload ≤ maxTextBytes ∧
      ∃ document, singleDocument ['a'] value=.ok document ∧
        AsonDocuments.encode document=payload ∧ Within defaultLimits payload document := by
  have hread := yields_document defaultLimits payload
  constructor
  · intro h
    rw [BatchNode.decodePayload,bind_unit_ok_iff,validateBoundedText] at h
    obtain ⟨hbounds,h⟩ := h
    split at hbounds
    · cases hbounds
    · next hok =>
      split at h
      · cases h
      · cases h
      · cases h
      · next document hdoc =>
        obtain ⟨-,hwith⟩ := (hread.ok_iff document).1 hdoc
        rw [bind_unit_ok_iff,bind_unit_ok_iff,require_ok_iff,expectFields_ok] at h
        obtain ⟨hpay,hnames,h⟩ := h
        obtain ⟨⟨name,found⟩,hflds⟩ : ∃ field, document.fields=[field] :=
          List.length_eq_one_iff.1 (by simpa [fieldNames] using congrArg List.length hnames)
        have hname : name.value=['a'] := by simpa [fieldNames,hflds] using hnames
        rw [← hname,document_get_single hflds] at h
        obtain rfl := Except.ok.inj h
        exact ⟨by omega,document,singleDocument_ok.2 ⟨name,hname,hflds⟩,hpay,hwith⟩
  · rintro ⟨hbytes,document,hdoc,rfl,hwith⟩
    obtain ⟨name,hname,hflds⟩ := singleDocument_ok.1 hdoc
    have hzero : '\x00'∉AsonDocuments.encode document :=
      control_not_mem_encode document (by decide) (by decide)
    have hok : AsonParser.decode (AsonDocuments.encode document)=.ok document :=
      (hread.ok_iff document).2 ⟨documentText_encode document,hwith⟩
    rw [BatchNode.decodePayload,bind_unit_ok_iff,validateBoundedText,
      if_neg (by simp only [hzero,or_false]; omega),hok]
    refine ⟨rfl,?_⟩
    simp only [bind_unit_ok_iff,require_ok_iff,expectFields_ok,true_and]
    refine ⟨by simp [fieldNames,hflds,hname],?_⟩
    rw [← hname,document_get_single hflds]

/-! ## Nodes -/

theorem payloadOf_ok {arguments : Except BuildError Value} :
    payloadOf arguments=.ok payload ↔ ∃ value document, arguments=.ok value ∧
      singleDocument ['a'] value=.ok document ∧ AsonDocuments.encode document=payload := by
  simp only [payloadOf,bind_ok_iff,pure_ok_iff]
  constructor
  · rintro ⟨value,hvalue,document,hdoc,rfl⟩
    exact ⟨value,document,hvalue,hdoc,rfl⟩
  · rintro ⟨value,document,hvalue,hdoc,rfl⟩
    exact ⟨value,hvalue,document,hdoc,rfl⟩

theorem outsideBatch_of_validate {node : Node} (h : node.validate=.ok ()) :
    Operation.outsideBatch node.arguments.operation=false ∧ node.arguments.validate=.ok () := by
  simp only [BatchNode.validate,BatchNode.checkNode,bind_unit_ok_iff,require_ok_iff] at h
  exact ⟨h.1.2.2,h.2⟩

theorem ne_batch_of_outsideBatch {operation : Operation}
    (h : Operation.outsideBatch operation=false) : operation≠.batch := by
  rintro rfl
  cases h

theorem decodeLeaf_ok {operation : Operation} (hop : Operation.outsideBatch operation=false)
    {value : Value} :
    Arguments.decodeLeaf operation value=.ok arguments ↔
      arguments.operation=operation ∧ arguments.Reads value := by
  rw [Arguments.decodeLeaf,decodeWith_ok]
  constructor
  · rintro ⟨rfl,⟨nodes,table,rfl,-⟩ | ⟨-,hread⟩⟩
    · exact absurd rfl (ne_batch_of_outsideBatch hop)
    · exact ⟨rfl,hread⟩
  · rintro ⟨rfl,hread⟩
    exact ⟨rfl,.inr ⟨ne_batch_of_outsideBatch hop,hread⟩⟩

/-- The arguments of a node fit its payload. -/
def BatchNode.Fits (node : Node) : Prop := node.arguments.writtenBytes ≤ maxTextBytes

theorem BatchNode.decode_ok (cells : List Cell) (node : Node) :
    BatchNode.decode cells=.ok node ↔
      node.encode=.ok cells ∧ node.validate=.ok () ∧ node.Fits := by
  unfold BatchNode.decode
  split
  · simp only [bind_ok_iff,unsignedCell_ok,unsignedVector_ok,textCell_ok,operationOf_ok,
      require_ok_iff,decodePayload_ok,BatchNode.new,validated_ok,BatchNode.encode,pure_ok_iff,
      payloadOf_ok,BatchNode.cells,List.cons.injEq,and_true]
    constructor
    · rintro ⟨_,rfl,_,rfl,_,rfl,operation,rfl,⟨⟩,hop,_,rfl,value,⟨hbytes,document,hdoc,rfl,-⟩,
        arguments,hargs,rfl,hvalid⟩
      obtain ⟨rfl,hread⟩ := (decodeLeaf_ok hop).1 hargs
      refine ⟨⟨_,⟨value,document,hread.1,hdoc,rfl⟩,rfl,rfl,rfl,rfl⟩,hvalid,?_⟩
      rw [byteLength_singleDocument hdoc] at hbytes
      rw [BatchNode.Fits,Arguments.writtenBytes_eq (ne_batch_of_outsideBatch hop) hread.1]
      exact hbytes
    · rintro ⟨⟨_,⟨value,document,hvalue,hdoc,rfl⟩,rfl,rfl,rfl,rfl⟩,hvalid,hfits⟩
      obtain ⟨hop,hargs⟩ := outsideBatch_of_validate hvalid
      have hbatch := ne_batch_of_outsideBatch hop
      have hbytes : byteLength (AsonDocuments.encode document) ≤ maxTextBytes := by
        rw [byteLength_singleDocument hdoc,← Arguments.writtenBytes_eq hbatch hvalue]
        exact hfits
      have hwith := within_singleDocument hdoc
        (Arguments.modest hbatch ⟨hvalue,hargs⟩) hbytes
      exact ⟨_,rfl,_,rfl,_,rfl,_,rfl,(),hop,_,rfl,value,⟨hbytes,document,hdoc,rfl,hwith⟩,
        node.arguments,(decodeLeaf_ok hop).2 ⟨rfl,hvalue,hargs⟩,rfl,hvalid⟩
  · next hno =>
    refine error_ok_iff ?_
    rintro ⟨hcells,-⟩
    obtain ⟨payload,-,hcells⟩ := bind_ok_iff.1 hcells
    exact hno _ _ _ _ (pure_ok_iff.1 hcells).symm

/-! ## Tables -/

theorem encodeRows_eq (nodes : List Node) :
    BatchArgs.encodeRows nodes=nodes.mapM BatchNode.encode := by
  induction nodes with
  | nil => rfl
  | cons node nodes ih =>
    rw [BatchArgs.encodeRows,List.mapM_cons,ih,BatchNode.encode]
    simp only [bind_assoc,pure_bind]

theorem nodesLoop_valid {ids : List UInt64} {edgeCount : ℕ} {links : List (List ℕ)}
    (h : BatchArgs.nodesLoop ids nodes edgeCount=.ok links) :
    ∀ node∈nodes, node.validate=.ok () := by
  induction nodes generalizing edgeCount links with
  | nil => simp
  | cons node nodes ih =>
    simp only [BatchArgs.nodesLoop,bind_unit_ok_iff] at h
    obtain ⟨hnode,hargs,-,h⟩ := h
    obtain ⟨link,-,h⟩ := bind_ok_iff.1 h
    obtain ⟨rest,hrest,-⟩ := bind_ok_iff.1 h
    exact List.forall_mem_cons.2 ⟨bind_unit_ok_iff.2 ⟨hnode,hargs⟩,ih hrest⟩

theorem BatchArgs.nodes_valid (h : BatchArgs.validate nodes=.ok ()) :
    ∀ node∈nodes, node.validate=.ok () := by
  rw [BatchArgs.validate,Arguments.validate,bind_unit_ok_iff] at h
  obtain ⟨links,hloop,-⟩ := bind_ok_iff.1 h.2
  exact nodesLoop_valid hloop

theorem BatchArgs.decode_ok {table : Table} :
    BatchArgs.decode table=.ok nodes ↔
      (Arguments.batch nodes).Reads (.table table) ∧ ∀ node∈nodes, node.Fits := by
  have hmapM : ∀ (rows : List (List Cell)) (nodes : List Node), rows.mapM BatchNode.decode=.ok nodes ↔
      nodes.mapM BatchNode.encode=.ok rows ∧
        ∀ node∈nodes, node.validate=.ok () ∧ node.Fits := by
    intro rows nodes
    rw [mapM_ok_iff BatchNode.decode_ok rows nodes,forall₂_and_right,
      mapM_ok_iff (fun _ _ => Iff.rfl) nodes rows]
    exact and_congr_left' ⟨List.Forall₂.flip,List.Forall₂.flip⟩
  have hrows : ∀ (rows : List (List Cell)) (nodes : List Node), (do
      let nodes ← rows.mapM BatchNode.decode
      BatchArgs.new nodes)=.ok nodes ↔
      nodes.mapM BatchNode.encode=.ok rows ∧ BatchArgs.validate nodes=.ok () ∧
        ∀ node∈nodes, node.Fits := by
    intro rows nodes
    simp only [bind_ok_iff,hmapM,BatchArgs.new,validated_ok]
    constructor
    · rintro ⟨_,⟨henc,hnodes⟩,rfl,hvalid⟩
      exact ⟨henc,hvalid,fun node hnode => (hnodes node hnode).2⟩
    · rintro ⟨henc,hvalid,hfits⟩
      exact ⟨nodes,⟨henc,fun node hnode =>
        ⟨BatchArgs.nodes_valid hvalid node hnode,hfits node hnode⟩⟩,rfl,hvalid⟩
  rw [BatchArgs.decode,readTable_ok hrows,Arguments.Reads,Arguments.encode,bind_ok_iff,
    encodeRows_eq]
  simp only [tableValue_table]
  constructor
  · rintro ⟨hcols,henc,hvalid,hfits⟩
    exact ⟨⟨⟨table.rows,henc,hcols,rfl⟩,hvalid⟩,hfits⟩
  · rintro ⟨⟨⟨_,henc,hcols,rfl⟩,hvalid⟩,hfits⟩
    exact ⟨hcols,henc,hvalid,hfits⟩

/-- Every node of a batch fits its payload. -/
def Arguments.Fits (arguments : Arguments) : Prop :=
  ∀ nodes, arguments=.batch nodes → ∀ node∈nodes, node.Fits

/-- Arguments are read from just what valid arguments are written as, when they fit. -/
theorem Arguments.decode_ok {operation : Operation} {value : Value} :
    Arguments.decode operation value=.ok arguments ↔
      arguments.operation=operation ∧ arguments.Reads value ∧ arguments.Fits := by
  rw [Arguments.decode,decodeWith_ok]
  constructor
  · rintro ⟨rfl,⟨nodes,table,rfl,rfl,hnodes⟩ | ⟨hbatch,hread⟩⟩
    · obtain ⟨hread,hfits⟩ := BatchArgs.decode_ok.1 hnodes
      refine ⟨rfl,hread,?_⟩
      rintro _ ⟨⟩
      exact hfits
    · refine ⟨rfl,hread,?_⟩
      rintro nodes rfl
      exact absurd rfl hbatch
  · rintro ⟨rfl,hread,hfits⟩
    refine ⟨rfl,?_⟩
    cases arguments with
    | batch nodes =>
      obtain ⟨rows,-,htable⟩ := bind_ok_iff.1 hread.1
      obtain ⟨table,rfl,-⟩ := tableValue_ok.1 htable
      exact .inl ⟨nodes,table,rfl,rfl,BatchArgs.decode_ok.2 ⟨hread,hfits nodes rfl⟩⟩
    | ref arguments =>
      refine .inr ⟨fun hop => ?_,hread⟩
      have href := arguments.formula.isReferenceFormula
      rw [show arguments.formula.operation=.batch from hop] at href
      cases href
    | _ => exact .inr ⟨by simp [Arguments.operation],hread⟩

end Ash.RequestArguments
