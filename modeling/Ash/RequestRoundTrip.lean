import Ash.Requests

/-! # Reading and writing requests

A document is read as a request just when the request is written as it and every batch node
fits its payload.  Approval targets tell actions apart. -/

namespace Ash.Requests
open ByteCodecs Numerals TextSlices AsonDocuments AsonRoundTrip ParserOutcomes AsonSizes Outcomes
open RequestValues RequestArguments

/-! ## Documents by field -/

theorem get_of_mem {document : Document} {field : Field} (h : field∈document.fields) :
    document.get field.key.value=some field.value := by
  unfold Document.get
  cases hfind : document.fields.find? fun other => other.key.value=field.key.value with
  | none =>
    rw [List.find?_eq_none] at hfind
    exact absurd (decide_eq_true rfl) (hfind field h)
  | some other =>
    have hmem := List.mem_of_find?_eq_some hfind
    have hkey : other.key.value=field.key.value := by simpa using List.find?_some hfind
    obtain rfl := List.inj_on_of_nodup_map document.distinct hmem h hkey
    rfl

theorem valueField_ok {key : Text} {value : Except BuildError Value} {field : Field} :
    valueField key value=.ok field ↔ field.key.value=key ∧ value=.ok field.value := by
  obtain ⟨name,content⟩ := field
  simp only [valueField,bind_ok_iff,pure_ok_iff,Key.new_ok,Field.mk.injEq]
  constructor
  · rintro ⟨name',rfl,content',hcont,rfl,rfl⟩
    exact ⟨rfl,hcont⟩
  · rintro ⟨rfl,hcont⟩
    exact ⟨name,rfl,content,hcont,rfl,rfl⟩

variable {left right : Arguments}

/-- A value that a document has under a key, with the writer that gave it. -/
def Holds (document : Document) (key : Text) (writer : Except BuildError Value) : Prop :=
  ∃ value, document.get key=some value ∧ writer=.ok value

theorem holds_of_mem {document : Document} {field : Field} (h : field∈document.fields) {key : Text}
    (hkey : field.key.value=key) {writer : Except BuildError Value}
    (hwriter : writer=.ok field.value) : Holds document key writer :=
  ⟨field.value,hkey ▸ get_of_mem h,hwriter⟩

theorem Holds.writer {document : Document} {key : Text} {writer : Except BuildError Value}
    (h : Holds document key writer) {field : Field} (hmem : field∈document.fields)
    (hkey : field.key.value=key) : writer=.ok field.value := by
  obtain ⟨value,hget,hwriter⟩ := h
  rw [← hkey,get_of_mem hmem,Option.some.injEq] at hget
  rw [hwriter,hget]

@[simp] theorem holds_ok {document : Document} {key : Text} {value : Value} :
    Holds document key (.ok value) ↔ document.get key=some value := by
  simp [Holds]

theorem scalarField_eq (key value : Text) :
    scalarField key value=valueField key (.ok (.scalar (.text value))) := rfl

/-- A key with the writer of its value. -/
abbrev Writer := Text × Except BuildError Value

/-- The document of the values that are written, in their order. -/
def writeDocument (writers : List Writer) : Except BuildError Document := do
  let fields ← writers.mapM fun writer => valueField writer.1 writer.2
  Document.new fields

/-- A field that a writer gives. -/
def Gives (writer : Writer) (field : Field) : Prop :=
  field.key.value=writer.1 ∧ writer.2=.ok field.value

theorem writeDocument_fields {writers : List Writer} {document : Document} :
    writeDocument writers=.ok document ↔ List.Forall₂ Gives writers document.fields := by
  simp only [writeDocument,bind_ok_iff,mapM_ok_iff (R := Gives) fun _ _ => valueField_ok,
    Document.new_ok]
  constructor
  · rintro ⟨_,h,rfl⟩
    exact h
  · exact fun h => ⟨_,h,rfl⟩

theorem fieldNames_of_gives {writers : List Writer} {fields : List Field}
    (h : List.Forall₂ Gives writers fields) : fieldNames fields=writers.map Prod.fst := by
  induction h with
  | nil => rfl
  | cons hfirst _ ih => exact congrArg₂ List.cons hfirst.1 ih

/-- A document is written just if it has the keys of the writers and what they write. -/
theorem writeDocument_ok {writers : List Writer} {document : Document} :
    writeDocument writers=.ok document ↔ fieldNames document.fields=writers.map Prod.fst ∧
      ∀ writer∈writers, Holds document writer.1 writer.2 := by
  rw [writeDocument_fields]
  constructor
  · intro h
    refine ⟨fieldNames_of_gives h,fun writer hmem => ?_⟩
    obtain ⟨field,hfield,hgives⟩ := exists_mem_of_forall₂_left h hmem
    exact holds_of_mem hfield hgives.1 hgives.2
  · rintro ⟨hnames,hholds⟩
    have hall : ∀ writer∈writers, ∀ field∈document.fields, field.key.value=writer.1 →
        Gives writer field := fun writer hmem field hfield hkey =>
      ⟨hkey,(hholds writer hmem).writer hfield hkey⟩
    generalize document.fields=fields at hnames hall
    clear hholds
    induction writers generalizing fields with
    | nil =>
      rw [List.map_eq_nil_iff.1 hnames]
      exact .nil
    | cons writer writers ih =>
      obtain ⟨field,fields,rfl,hkey,hnames⟩ := List.map_eq_cons_iff.1 hnames
      simp only [List.forall_mem_cons] at hall
      exact .cons (hall.1.1 hkey) (ih fields hnames fun writer hmem => (hall.2 writer hmem).2)

theorem writeDocument_total {writers : List Writer} (hne : writers≠[])
    (hkeys : (∀ key∈writers.map Prod.fst, isValidKey key=true) ∧ (writers.map Prod.fst).Nodup)
    (h : ∀ writer∈writers, ∃ value, writer.2=.ok value) :
    ∃ document, writeDocument writers=.ok document := by
  obtain ⟨fields,hflds⟩ : ∃ fields, List.Forall₂ Gives writers fields := by
    refine exists_forall₂ fun writer hmem => ?_
    obtain ⟨value,hvalue⟩ := h writer hmem
    exact ⟨⟨⟨writer.1,hkeys.1 _ (List.mem_map_of_mem hmem)⟩,value⟩,rfl,hvalue⟩
  refine ⟨⟨fields,?_,?_⟩,writeDocument_fields.2 hflds⟩
  · rintro rfl
    cases hflds
    exact hne rfl
  · rw [← fieldNames_of_gives hflds] at hkeys
    exact hkeys.2

/-! ## Envelopes -/

/-- A document that a request is written as. -/
structure Written (request : Request) (document : Document) : Prop where
  names : fieldNames document.fields =
    if request.permit.isSome then permittedEnvelopeFields else envelopeFields
  version : document.get ['t']=some (.scalar (.text ['1']))
  id : document.get ['i']=some (.scalar (unsignedText request.id))
  operation : document.get ['o']=some (.scalar (.text request.arguments.operation.text))
  arguments : Holds document ['a'] request.arguments.encode
  budget : Holds document ['u'] request.budget.encode
  permit : ∀ permit∈request.permit, document.get ['v']=some (.scalar (.text permit.encode))

variable {request : Request} {arguments : Arguments} {item : Text}

/-- The fields of a request, the last of them only with a permit. -/
def Request.writers (request : Request) : List Writer :=
  (['t'],.ok (.scalar (.text ['1'])))::(['i'],.ok (.scalar (unsignedText request.id))) ::
    (['o'],.ok (.scalar (.text request.arguments.operation.text))) ::
    (['a'],request.arguments.encode)::(['u'],request.budget.encode) ::
    request.permit.toList.map fun permit => (['v'],.ok (.scalar (.text permit.encode)))

theorem Request.encode_eq (request : Request) : request.encode=writeDocument request.writers := by
  have hperm : permitFields request.permit=(request.permit.toList.map fun permit =>
      ((['v'],.ok (.scalar (.text permit.encode))) : Writer)).mapM
        fun writer => valueField writer.1 writer.2 := by
    cases request.permit with
    | none => rfl
    | some permit => simp [permitFields,scalarField_eq]
  simp only [Request.encode,Request.writers,writeDocument,List.mapM_cons,bind_assoc,pure_bind,hperm]
  rfl

theorem Request.map_fst_writers (request : Request) : request.writers.map Prod.fst =
    if request.permit.isSome then permittedEnvelopeFields else envelopeFields := by
  unfold Request.writers
  cases request.permit <;> rfl

theorem encode_ok {document : Document} :
    request.encode=.ok document ↔ Written request document := by
  rw [Request.encode_eq,writeDocument_ok,Request.map_fst_writers]
  simp only [Request.writers,List.forall_mem_cons,List.forall_mem_map,Option.mem_toList,holds_ok]
  constructor
  · rintro ⟨hnames,ht,hi,ho,ha,hu,hv⟩
    exact ⟨hnames,ht,hi,ho,ha,hu,hv⟩
  · rintro ⟨hnames,ht,hi,ho,ha,hu,hv⟩
    exact ⟨hnames,ht,hi,ho,ha,hu,hv⟩

theorem hasPermit_ok {document : Document} {permitted : Bool} :
    hasPermit document=.ok permitted ↔ fieldNames document.fields =
      if permitted then permittedEnvelopeFields else envelopeFields := by
  unfold hasPermit
  split
  · next h =>
    rw [expectFields_ok.1 h]
    cases permitted <;> simp [envelopeFields,permittedEnvelopeFields]
  · next fault h =>
    have hno : fieldNames document.fields≠envelopeFields := by
      intro hnames
      have hok : expectFields document envelopeFields=.ok () := expectFields_ok.2 hnames
      rw [hok] at h
      cases h
    rw [bind_unit_ok_iff,expectFields_ok,pure_ok_iff]
    cases permitted <;> simp [hno]

theorem decodePermit_ok {value : Option Value} {permit : ApprovalToken} :
    decodePermit value=.ok permit ↔ value=some (.scalar (.text permit.encode)) := by
  rw [decodePermit,bind_ok_iff]
  constructor
  · rintro ⟨source,hsrc,h⟩
    split at h
    · next token htoken =>
      obtain rfl := Except.ok.inj h
      rw [text_ok.1 hsrc,ApprovalToken.parse_eq_some.1 htoken]
    · cases h
  · rintro rfl
    refine ⟨permit.encode,rfl,?_⟩
    rw [ApprovalToken.parse_eq_some.2 rfl]

theorem field_ok {value : Option Value} {found : Value} :
    field value=.ok found ↔ value=some found := by
  cases value <;> simp [field,Fallible.fail]

theorem unsignedText_one : unsignedText 1=.text ['1'] := by decide

/-- A request is read from just the document that it is written as, when it fits. -/
theorem decode_ok {document : Document} :
    Request.decode document=.ok request ↔
      request.encode=.ok document ∧ request.arguments.Fits := by
  rw [encode_ok]
  simp only [Request.decode,bind_ok_iff,hasPermit_ok,expectUnsigned_ok,unsigned_ok,text_ok,
    operationOf_ok,field_ok,Arguments.decode_ok,Budget.decode_ok,Request.new_ok,unsignedText_one]
  constructor
  · rintro ⟨permitted,hnames,⟨⟩,ht,id,hi,_,ho,operation,rfl,value,ha,arguments,⟨rfl,hread,hfits⟩,
      budget,⟨written,hu,hbud⟩,request',⟨rfl,rfl,rfl,hnone⟩,h⟩
    unfold Request.decodePermit at h
    split at h
    · next hpermitted =>
      rw [if_pos hpermitted] at hnames
      obtain ⟨permit,hperm,h⟩ := bind_ok_iff.1 h
      obtain rfl := Except.ok.inj h
      refine ⟨⟨hnames,ht,hi,ho,⟨value,ha,hread.1⟩,⟨written,hu,hbud⟩,?_⟩,hfits⟩
      rintro _ ⟨⟩
      exact decodePermit_ok.1 hperm
    · next hpermitted =>
      rw [if_neg hpermitted] at hnames
      obtain rfl := Except.ok.inj h
      refine ⟨⟨?_,ht,hi,ho,⟨value,ha,hread.1⟩,⟨written,hu,hbud⟩,?_⟩,hfits⟩
      · rw [hnone]
        exact hnames
      · rw [hnone]
        rintro _ ⟨⟩
  · rintro ⟨h,hfits⟩
    obtain ⟨value,ha,hvalue⟩ := h.arguments
    obtain ⟨written,hu,hbud⟩ := h.budget
    refine ⟨request.permit.isSome,h.names,(),h.version,_,h.id,_,h.operation,_,rfl,value,ha,
      request.arguments,⟨rfl,⟨hvalue,request.arguments_valid⟩,hfits⟩,request.budget,
      ⟨written,hu,hbud⟩,{ request with permit := none },⟨rfl,rfl,rfl,rfl⟩,?_⟩
    cases hperm : request.permit with
    | none =>
      rw [Request.decodePermit,Option.isSome_none,if_neg (by decide),← hperm]
    | some permit =>
      rw [Request.decodePermit,Option.isSome_some,if_pos rfl,bind_ok_iff]
      refine ⟨permit,decodePermit_ok.2 (h.permit permit hperm),?_⟩
      rw [Request.withPermit,← hperm]
      rfl

/-! ## Every request can be written -/

theorem Arguments.eq_batch (h : arguments.operation=.batch) :
    ∃ nodes, arguments=.batch nodes := by
  cases arguments with
  | batch nodes => exact ⟨nodes,rfl⟩
  | ref arguments =>
    have href := arguments.formula.isReferenceFormula
    rw [show arguments.formula.operation=.batch from h] at href
    cases href
  | _ => cases h

theorem Arguments.encode_leaf_total (hop : arguments.operation≠.batch) :
    ∃ value, arguments.encode=.ok value := by
  cases arguments with
  | batch nodes => exact absurd rfl hop
  | ref arguments => exact ⟨_,rfl⟩
  | fs arguments =>
    refine tableValue_total (by decide) fun row hrow => ?_
    obtain ⟨action,-,rfl⟩ := List.mem_map.1 hrow
    rfl
  | exec | read | list | search | patch | snapshot | cancel =>
    exact recordValue_total (by decide) rfl

theorem BatchNode.encode_total {node : Node} (h : node.validate=.ok ()) :
    ∃ row, node.encode=.ok row ∧ row.length=4 := by
  obtain ⟨hop,-⟩ := outsideBatch_of_validate h
  obtain ⟨value,hvalue⟩ := Arguments.encode_leaf_total (ne_batch_of_outsideBatch hop)
  have hsingle : singleDocument ['a'] value =
      .ok ⟨[⟨⟨['a'],by decide⟩,value⟩],by simp,List.nodup_singleton _⟩ :=
    singleDocument_ok.2 ⟨⟨['a'],by decide⟩,rfl,rfl⟩
  exact ⟨_,bind_ok_iff.2 ⟨_,payloadOf_ok.2 ⟨value,_,hvalue,hsingle,rfl⟩,rfl⟩,rfl⟩

theorem rows_total {nodes : List Node} (h : ∀ node∈nodes, node.validate=.ok ()) :
    ∃ rows, nodes.mapM BatchNode.encode=.ok rows ∧ ∀ row∈rows, row.length=4 := by
  induction nodes with
  | nil => exact ⟨[],rfl,by simp⟩
  | cons node nodes ih =>
    rw [List.forall_mem_cons] at h
    obtain ⟨row,hrow,hwidth⟩ := BatchNode.encode_total h.1
    obtain ⟨rows,hrows,hwidths⟩ := ih h.2
    refine ⟨row::rows,?_,List.forall_mem_cons.2 ⟨hwidth,hwidths⟩⟩
    rw [List.mapM_cons,hrow,hrows]
    rfl

theorem Arguments.encode_total (h : arguments.validate=.ok ()) :
    ∃ value, arguments.encode=.ok value := by
  by_cases hop : arguments.operation=.batch
  · obtain ⟨nodes,rfl⟩ := Arguments.eq_batch hop
    obtain ⟨rows,henc,hwidth⟩ := rows_total (BatchArgs.nodes_valid h)
    obtain ⟨value,hvalue⟩ : ∃ value, tableValue batchColumns rows=.ok value :=
      tableValue_total (by decide) hwidth
    refine ⟨value,bind_ok_iff.2 ⟨rows,?_,hvalue⟩⟩
    rw [encodeRows_eq,henc]
  · exact Arguments.encode_leaf_total hop

theorem Budget.encode_total (budget : Budget) : ∃ value, budget.encode=.ok value :=
  recordValue_total (by decide) rfl

theorem Request.encode_total (request : Request) : ∃ document, request.encode=.ok document := by
  rw [Request.encode_eq]
  refine writeDocument_total (List.cons_ne_nil _ _) ?_ ?_
  · rw [Request.map_fst_writers]
    split <;> decide
  · simp only [Request.writers,List.forall_mem_cons,List.forall_mem_map]
    exact ⟨⟨_,rfl⟩,⟨_,rfl⟩,⟨_,rfl⟩,Arguments.encode_total request.arguments_valid,
      request.budget.encode_total,fun _ _ => ⟨_,rfl⟩⟩

/-! ## Round trips -/

/-- Reading is exact on its image: the request is written as the document it was read from,
and no other document is read as it. -/
theorem decode_exact (document : Document) (request : Request)
    (h : Request.decode document=.ok request) :
    request.encode=.ok document ∧
      ∀ other, Request.decode other=.ok request → other=document := by
  obtain ⟨henc,-⟩ := decode_ok.1 h
  refine ⟨henc,fun other hother => ?_⟩
  obtain ⟨hother,-⟩ := decode_ok.1 hother
  rw [henc] at hother
  exact (Except.ok.inj hother).symm

/-- A request to release a reference. -/
def releaseRequest : Request := ⟨1,.ref ⟨7,.release⟩,⟨1,1,1,rfl⟩,none,rfl⟩

def releaseDocument : Document where
  fields := [⟨⟨['t'],by decide⟩,.scalar (.text ['1'])⟩,⟨⟨['i'],by decide⟩,.scalar (.text ['1'])⟩,
    ⟨⟨['o'],by decide⟩,.scalar (.text ['-'])⟩,⟨⟨['a'],by decide⟩,.vector [.reference 7]⟩,
    ⟨⟨['u'],by decide⟩,.record ⟨[⟨['t','o','k'],by decide⟩,⟨['r','e','c'],by decide⟩,
      ⟨['m','s'],by decide⟩],[textValue ['1'],textValue ['1'],textValue ['1']],by decide,rfl⟩⟩]
  nonempty := by simp
  distinct := by decide

theorem decode_exact_release : Request.decode releaseDocument=.ok releaseRequest ∧
    releaseRequest.encode=.ok releaseDocument :=
  have h : Request.decode releaseDocument=.ok releaseRequest := rfl
  ⟨h,(decode_exact _ _ h).1⟩

/-- A request is read back from what it is written as just when no batch node takes more
than its ceiling. -/
theorem decode_encode_iff_fits (request : Request) :
    (∃ document, request.encode=.ok document ∧ Request.decode document=.ok request) ↔
      ∀ nodes, request.arguments=.batch nodes →
        ∀ node∈nodes, node.arguments.writtenBytes ≤ maxTextBytes := by
  constructor
  · rintro ⟨document,-,hdec⟩
    exact (decode_ok.1 hdec).2
  · intro hfits
    obtain ⟨document,hdoc⟩ := request.encode_total
    exact ⟨document,hdoc,decode_ok.2 ⟨hdoc,hfits⟩⟩

/-- A program with one text given to it twice. -/
def twice (item : Text) : ExecArgs := ⟨['x'],[item,item],['.'],[],.none,0⟩

theorem validate_twice (h : validateBoundedText item "v" maxTextBytes=.ok ()) :
    (twice item).validate=.ok () := by
  have hitems : validateTextItems [item,item] "v" maxArgumentItems maxTextBytes=.ok () := by
    rw [validateTextItems,bind_unit_ok_iff,require_ok_iff,each_ok_iff]
    exact ⟨by simp [maxArgumentItems],by simp [h]⟩
  simp only [ExecArgs.validate,twice,bind_unit_ok_iff]
  exact ⟨rfl,rfl,hitems,rfl,rfl,rfl⟩

theorem validate_batch_twice (h : validateBoundedText item "v" maxTextBytes=.ok ()) :
    (Arguments.batch [⟨1,[],.exec (twice item)⟩]).validate=.ok () := by
  simp only [Arguments.validate,BatchArgs.nodesLoop,bind_unit_ok_iff,validate_twice h]
  exact ⟨rfl,rfl⟩

theorem le_writtenBytes_twice (item : Text) :
    2*byteLength item ≤ (Arguments.exec (twice item)).writtenBytes := by
  have hatom : byteLength item ≤ atomBytes (.text item) := textBytes_le (.text item)
  simp only [Arguments.writtenBytes,recordBytes,rowBytes,twice,ExecArgs.cells,textVectorValue,
    List.map_cons,List.map_nil,List.sum_cons,cellBytes,vectorBytes,reduceCtorEq,if_false]
  omega

theorem byteLength_replicate (n : ℕ) : byteLength (List.replicate n 'a')=n := by
  have hsize : ('a').utf8Size=1 := by decide
  induction n with
  | zero => rfl
  | succ n ih => rw [List.replicate_succ,byteLength_cons,ih,hsize,Nat.add_comm]

theorem twice_lost (hitem : validateBoundedText item "v" maxTextBytes=.ok ())
    (hbytes : maxTextBytes < 2*byteLength item) :
    ∃ request, Request.new 1 (.batch [⟨1,[],.exec (twice item)⟩]) ⟨1,1,1,rfl⟩=.ok request ∧
      ¬ ∃ document, request.encode=.ok document ∧ Request.decode document=.ok request := by
  have hchk :
      Request.check 1 (.batch [⟨1,[],.exec (twice item)⟩]) ⟨1,1,1,rfl⟩=.ok () := by
    simp only [Request.check,bind_unit_ok_iff,validate_batch_twice hitem,true_and]
    exact ⟨rfl,rfl,rfl,rfl⟩
  refine ⟨⟨_,_,_,none,hchk⟩,Request.new_ok.2 ⟨rfl,rfl,rfl,rfl⟩,?_⟩
  rintro ⟨document,-,hdec⟩
  have hfits : (Arguments.exec (twice item)).writtenBytes ≤ maxTextBytes :=
    (decode_ok.1 hdec).2 _ rfl _ List.mem_cons_self
  have hwritten := le_writtenBytes_twice item
  omega

/-- Two arguments of 600000 bytes are each within their ceiling, but not within that of the
one node that holds both. -/
theorem oversized_node_lost :
    ∃ request, Request.new 1
        (.batch [⟨1,[],.exec (twice (List.replicate 600000 'a'))⟩]) ⟨1,1,1,rfl⟩=.ok request ∧
      ¬ ∃ document, request.encode=.ok document ∧ Request.decode document=.ok request := by
  apply twice_lost
  · rw [validateBoundedText,if_neg]
    rw [byteLength_replicate,List.mem_replicate,maxTextBytes,not_or]
    exact ⟨by omega,by simp⟩
  · rw [byteLength_replicate,maxTextBytes]
    omega

/-! ## Approval targets -/

theorem unsignedValue_injective : Function.Injective unsignedValue :=
  injective_of_reader (f := (unsignedCell · "")) fun _ _ => unsignedCell_ok

theorem unsignedVectorValue_injective : Function.Injective unsignedVectorValue :=
  injective_of_reader (f := (unsignedVector · "")) fun _ _ => unsignedVector_ok

theorem textValue_injective : Function.Injective textValue :=
  injective_of_reader (f := (textCell · "")) fun _ _ => textCell_ok

theorem Operation.text_injective : Function.Injective Operation.text :=
  injective_of_reader fun _ _ => operationOf_ok

/-- Arguments of one operation that are read from one value are the same. -/
theorem Arguments.eq_of_reads {value : Value} (hop : left.operation=right.operation)
    (hbatch : right.operation≠.batch) (hleft : left.Reads value) (hright : right.Reads value) :
    left=right := by
  have hl : Arguments.decode right.operation value=.ok left :=
    decodeWith_ok.2 ⟨hop,.inr ⟨hbatch,hleft⟩⟩
  have hr : Arguments.decode right.operation value=.ok right :=
    decodeWith_ok.2 ⟨rfl,.inr ⟨hbatch,hright⟩⟩
  rw [hl] at hr
  exact Except.ok.inj hr

theorem singleDocument_value {key : Text} {left right : Value} {document : Document}
    (hleft : singleDocument key left=.ok document)
    (hright : singleDocument key right=.ok document) : left=right := by
  obtain ⟨_,-,hl⟩ := singleDocument_ok.1 hleft
  obtain ⟨_,-,hr⟩ := singleDocument_ok.1 hright
  rw [hl,List.cons.injEq,Field.mk.injEq] at hr
  exact hr.1.2

theorem BatchNode.eq_of_encode {left right : Node} {row : List Cell}
    (hleft : left.validate=.ok ()) (hright : right.validate=.ok ())
    (hl : left.encode=.ok row) (hr : right.encode=.ok row) : left=right := by
  obtain ⟨_,hlpayload,hlrow⟩ := bind_ok_iff.1 hl
  obtain ⟨_,hrpayload,hrrow⟩ := bind_ok_iff.1 hr
  obtain ⟨lvalue,ldocument,hlvalue,hldocument,rfl⟩ := payloadOf_ok.1 hlpayload
  obtain ⟨rvalue,rdocument,hrvalue,hrdocument,rfl⟩ := payloadOf_ok.1 hrpayload
  obtain rfl := pure_ok_iff.1 hlrow
  have hcells := pure_ok_iff.1 hrrow
  simp only [BatchNode.cells,List.cons.injEq,and_true,unsignedValue_injective.eq_iff,
    unsignedVectorValue_injective.eq_iff,textValue_injective.eq_iff,Operation.text_injective.eq_iff,
    encode_injective.eq_iff] at hcells
  obtain ⟨hid,hdeps,hop,rfl⟩ := hcells
  obtain rfl := singleDocument_value hldocument hrdocument
  obtain ⟨hlop,hlvalid⟩ := outsideBatch_of_validate hleft
  obtain ⟨-,hrvalid⟩ := outsideBatch_of_validate hright
  have hargs := Arguments.eq_of_reads hop (ne_batch_of_outsideBatch hlop) ⟨hrvalue,hrvalid⟩
    ⟨hlvalue,hlvalid⟩
  obtain ⟨lid,ldependencies,larguments⟩ := left
  obtain ⟨rid,rdependencies,rarguments⟩ := right
  cases hid
  cases hdeps
  cases hargs
  rfl

theorem nodes_eq_of_encode {left right : List Node} {rows : List (List Cell)}
    (hleft : ∀ node∈left, node.validate=.ok ()) (hright : ∀ node∈right, node.validate=.ok ())
    (hl : left.mapM BatchNode.encode=.ok rows) (hr : right.mapM BatchNode.encode=.ok rows) :
    left=right := by
  rw [mapM_ok_iff fun _ _ => Iff.rfl] at hl hr
  induction hl generalizing right with
  | nil =>
    cases hr
    rfl
  | cons hnode _ ih =>
    cases hr with
    | cons hother hothers =>
      rw [List.forall_mem_cons] at hleft hright
      rw [BatchNode.eq_of_encode hleft.1 hright.1 hnode hother,ih hleft.2 hright.2 hothers]

/-- Valid arguments of one operation that are written as one value are the same. -/
theorem Arguments.eq_of_encode (hleft : left.validate=.ok ()) (hright : right.validate=.ok ())
    (hop : left.operation=right.operation) {value : Value} (hl : left.encode=.ok value)
    (hr : right.encode=.ok value) : left=right := by
  by_cases hbatch : right.operation=.batch
  · rw [hbatch] at hop
    obtain ⟨lnodes,rfl⟩ := Arguments.eq_batch hop
    obtain ⟨rnodes,rfl⟩ := Arguments.eq_batch hbatch
    rw [Arguments.encode,bind_ok_iff,encodeRows_eq] at hl hr
    obtain ⟨lrows,hlrows,hltable⟩ := hl
    obtain ⟨rrows,hrrows,hrtable⟩ := hr
    obtain ⟨table,rfl,-,rfl⟩ := tableValue_ok.1 hltable
    obtain ⟨-,rfl⟩ := tableValue_table.1 hrtable
    rw [nodes_eq_of_encode (BatchArgs.nodes_valid hleft) (BatchArgs.nodes_valid hright) hlrows
      hrrows]
  · exact Arguments.eq_of_reads hop hbatch ⟨hl,hleft⟩ ⟨hr,hright⟩

/-- The fields of an approval target. -/
def Request.targetWriters (request : Request) : List Writer :=
  [(['v'],.ok (.scalar (.text ['1']))),
    (['o'],.ok (.scalar (.text request.arguments.operation.text))),(['a'],request.arguments.encode),
    (['c'],.ok (.scalar (unsignedText request.arguments.requiredCapabilities)))]

theorem Request.authorizationTarget_eq (request : Request) :
    request.authorizationTarget=writeDocument request.targetWriters := by
  simp [Request.authorizationTarget,writeDocument,Request.targetWriters,scalarField_eq]
  rfl

theorem authorizationTarget_total (request : Request) :
    ∃ target, request.authorizationTarget=.ok target := by
  rw [Request.authorizationTarget_eq]
  refine writeDocument_total (List.cons_ne_nil _ _) ?_ ?_
  · change (∀ key∈[['v'],['o'],['a'],['c']], _) ∧ [['v'],['o'],['a'],['c']].Nodup
    decide
  · simp [Request.targetWriters,Arguments.encode_total request.arguments_valid]

theorem authorizationTarget_ok {target : Document} (h : request.authorizationTarget=.ok target) :
    target.get ['o']=some (.scalar (.text request.arguments.operation.text)) ∧
      Holds target ['a'] request.arguments.encode := by
  rw [Request.authorizationTarget_eq,writeDocument_ok] at h
  obtain ⟨-,h⟩ := h
  simp only [Request.targetWriters,List.forall_mem_cons,holds_ok] at h
  exact ⟨h.2.1,h.2.2.1⟩

/-- The bytes of an approval target are those of one action only. -/
theorem authorizationTarget_identifies (left right : Request) :
    ∃ target other, left.authorizationTarget=.ok target ∧
      right.authorizationTarget=.ok other ∧
      (utf8 (AsonDocuments.encode target)=utf8 (AsonDocuments.encode other) ↔
        left.arguments=right.arguments) := by
  obtain ⟨target,htgt⟩ := authorizationTarget_total left
  obtain ⟨other,hother⟩ := authorizationTarget_total right
  refine ⟨target,other,htgt,hother,?_⟩
  rw [utf8_injective.eq_iff,encode_injective.eq_iff]
  constructor
  · rintro rfl
    obtain ⟨hlop,value,hlget,hl⟩ := authorizationTarget_ok htgt
    obtain ⟨hrop,value',hrget,hr⟩ := authorizationTarget_ok hother
    obtain rfl : value=value' := Option.some.inj (hlget.symm.trans hrget)
    have hop : left.arguments.operation=right.arguments.operation := by
      rw [hlop] at hrop
      exact Operation.text_injective (by simpa using hrop)
    exact Arguments.eq_of_encode left.arguments_valid right.arguments_valid hop hl hr
  · intro h
    have hsame : left.authorizationTarget=right.authorizationTarget := by
      rw [Request.authorizationTarget,Request.authorizationTarget,h]
    rw [htgt,hother] at hsame
    exact Except.ok.inj hsame

end Ash.Requests
