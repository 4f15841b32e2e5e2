import Ash.BatchExecution

/-! # Reports of batches

A batch that ran reports all its nodes just when the store has room for their answers. -/

namespace Ash.BatchExecution
open ByteCodecs Numerals TextSlices AsonDocuments AsonSizes ParserOutcomes Outcomes RequestValues
open RequestArguments Requests Responses OperationErrors ProgramBudgets DagExecution BatchGraphs
open ResultStores

/-! ## Nodes always answer -/

variable {node : Node}

theorem nodeResponse_total (services : Services) (plan : Plan) (deadline index : ℕ)
    (hid : node.id≠0) :
    ∃ response, nodeResponse services plan deadline index node=.ok response := by
  unfold nodeResponse
  cases executeNodeResponse services plan deadline index node with
  | ok response => exact ⟨response,rfl⟩
  | error error => exact error.intoResponse_total hid

theorem executeNode_total (services : Services) (plan : Plan) (deadline index : ℕ)
    (hid : node.id≠0) :
    ∃ response text, nodeResponse services plan deadline index node=.ok response ∧
      encodedText response=.ok text ∧
      executeNode services plan deadline index node =
        .ok ⟨nodeState response.status,response.status,utf8 text⟩ := by
  obtain ⟨response,hresp⟩ := nodeResponse_total services plan deadline index hid
  obtain ⟨text,htext,-⟩ := encodedText_writes response
  refine ⟨response,text,hresp,htext,?_⟩
  exact bind_ok_iff.2 ⟨response,hresp,bind_ok_iff.2 ⟨text,htext,rfl⟩⟩

/-! ## Rows -/

/-- A row for what became of a node, where `P` relates encodings to their aliases. -/
def RowOf (P : List UInt8 → ℕ → Prop) (entry : Node × DagOutcome Executed)
    (row : BatchNodeResult) : Prop :=
  row.id=entry.1.id ∧ row.operation=entry.1.arguments.operation ∧
    match entry.2 with
    | .completed executed => row.state=executed.state ∧ row.status=some executed.status ∧
        ∃ ref, P executed.encoded ref ∧ row.reference=some (UInt64.ofNat ref)
    | .skipped => row.state=.skipped ∧ row.status=none ∧ row.reference=none

/-- There is an alias for each row that needs one. -/
theorem rowsLoop_ok {P : List UInt8 → ℕ → Prop} {entries : List (Node × DagOutcome Executed)}
    {aliases : List ℕ} (h : List.Forall₂ P (encodings (entries.map Prod.snd)) aliases) :
    ∃ rows, rowsLoop entries aliases=.ok (rows,[]) ∧ List.Forall₂ (RowOf P) entries rows := by
  induction entries generalizing aliases with
  | nil =>
    cases h
    exact ⟨[],rfl,.nil⟩
  | cons entry entries ih =>
    obtain ⟨node,outcome⟩ := entry
    cases outcome with
    | completed executed =>
      obtain ⟨ref,others,hP,hrest,rfl⟩ := List.forall₂_cons_left_iff.1 h
      obtain ⟨rows,hrows,hall⟩ := ih hrest
      refine ⟨⟨node.id,node.arguments.operation,executed.state,some executed.status,
        some (UInt64.ofNat ref)⟩::rows,?_,.cons ⟨rfl,rfl,rfl,rfl,ref,hP,rfl⟩ hall⟩
      rw [rowsLoop,hrows]
      rfl
    | skipped =>
      obtain ⟨rows,hrows,hall⟩ := ih h
      refine ⟨⟨node.id,node.arguments.operation,.skipped,none,none⟩::rows,?_,
        .cons ⟨rfl,rfl,rfl,rfl,rfl⟩ hall⟩
      rw [rowsLoop,hrows]
      rfl

/-! ## Sizes -/

/-- No row is longer than the one it was reserved as. -/
theorem rowBytes_le (row : BatchNodeResult) :
    rowBytes row.cells ≤ rowBytes (BatchNodeResult.cells
      ⟨row.id,row.operation,.failed,some .internal,some (UInt64.ofNat (2 ^ 64 - 1))⟩) := by
  have hstate : cellBytes (unsignedValue row.state.code)=1 := by cases row.state <;> decide
  have hstat : cellBytes (row.status.elim nullValue fun status => unsignedValue status.code) ≤ 2 := by
    cases row.status with
    | none => decide
    | some status => cases status <;> decide
  have hreference := cellBytes_optionalReference_le row.reference
  have hfail : cellBytes (unsignedValue BatchNodeState.failed.code)=1 := by decide
  have hinternal : cellBytes (unsignedValue Status.internal.code)=2 := by decide
  have hlargest : cellBytes (optionalReferenceValue (some (UInt64.ofNat (2 ^ 64 - 1))))=21 := by
    decide
  simp only [rowBytes,BatchNodeResult.cells,List.map_cons,List.sum_cons,Option.elim_some,hfail,
    hinternal,hlargest,hstate]
  omega

theorem tableBytes_le {nodes : List Node} {rows : List BatchNodeResult}
    (h : List.Forall₂ (fun node row => row.id=node.id ∧
      row.operation=node.arguments.operation) nodes rows) :
    tableBytes batchResultColumns (rows.map BatchNodeResult.cells) ≤
      tableBytes batchResultColumns ((preflightRows nodes).map BatchNodeResult.cells) := by
  have hlen := h.length_eq
  have hsum : ((rows.map BatchNodeResult.cells).map rowBytes).sum ≤
      (((preflightRows nodes).map BatchNodeResult.cells).map rowBytes).sum := by
    clear hlen
    induction h with
    | nil => exact le_rfl
    | @cons node row nodes rows hrow hrest ih =>
      have hle := rowBytes_le row
      rw [hrow.1,hrow.2] at hle
      exact Nat.add_le_add hle ih
  simp only [tableBytes,List.length_map,preflightRows,← hlen] at *
  omega

variable {requestId : UInt64} {allSucceeded : Bool}

/-- The report is no longer than the one that was reserved. -/
theorem writtenBytes_le {nodes : List Node} {rows : List BatchNodeResult}
    {response reserved : FinalResponse} (hrows : List.Forall₂ (fun node row => row.id=node.id ∧
      row.operation=node.arguments.operation) nodes rows)
    (hresp : batchResponse requestId rows allSucceeded=.ok response)
    (hresv : FinalResponse.failure requestId .failed batchError []
      (some (.batch (preflightRows nodes))) (resultRetained ||| resultPartial) none=.ok reserved)
    : response.writtenBytes ≤ reserved.writtenBytes ∧ response.data=some (.batch rows) := by
  have htable := tableBytes_le hrows
  obtain ⟨_,rfl⟩ := FinalResponse.new_ok_iff.1 hresv
  unfold batchResponse at hresp
  split at hresp
  · obtain ⟨_,rfl⟩ := FinalResponse.new_ok_iff.1 hresp
    have hflags : scalarBytes (decimal resultRetained.toNat) ≤
        scalarBytes (decimal (resultRetained ||| resultPartial).toNat) := by decide
    have hstat : scalarBytes (decimal Status.success.code.toNat) =
        scalarBytes (decimal Status.failed.code.toNat) := by decide
    refine ⟨?_,rfl⟩
    simp only [FinalResponse.writtenBytes,Option.elim_some,Option.elim_none,ResultData.writtenBytes,
      hstat]
    omega
  · obtain ⟨_,rfl⟩ := FinalResponse.new_ok_iff.1 hresp
    refine ⟨?_,rfl⟩
    simp only [FinalResponse.writtenBytes,Option.elim_some,ResultData.writtenBytes]
    omega

/-! ## Validity -/

/-- An outcome whose state is the one of its status. -/
def Answered : DagOutcome Executed → Prop
  | .completed executed => executed.state=nodeState executed.status
  | .skipped => True

theorem row_valid {P : List UInt8 → ℕ → Prop} {outcome : DagOutcome Executed}
    {row : BatchNodeResult} (hP : ∀ bytes ref, P bytes ref → 0 < ref ∧ ref < 2 ^ 64)
    (hnode : node.validate=.ok ()) (hanswered : Answered outcome)
    (h : RowOf P (node,outcome) row) : row.validate=.ok () := by
  obtain ⟨hid,hoperation,hrow⟩ := h
  have hposv := UInt64.pos_iff_ne_zero.1 (dependencies_of_validate hnode).1
  have hins := (outsideBatch_of_validate hnode).1
  simp only [BatchNodeResult.validate,validateReference,bind_unit_ok_iff,require_ok_iff,hid,
    hoperation]
  rw [BatchNodeResult.agrees]
  cases outcome with
  | completed executed =>
    obtain ⟨hstate,hstat,ref,href,hreference⟩ := hrow
    rw [hstate,hstat,hreference]
    refine ⟨?_,⟨hposv,hins⟩,?_⟩
    · obtain ⟨hpos,hlt⟩ := hP _ ref href
      intro hzero
      have hnat := congrArg UInt64.toNat (Option.some.inj hzero)
      rw [UInt64.toNat_ofNat_of_lt' hlt] at hnat
      exact Nat.ne_of_gt hpos hnat
    · rw [hanswered]
      cases executed.status <;> rfl
  | skipped =>
    obtain ⟨hstate,hstat,hreference⟩ := hrow
    rw [hstate,hstat,hreference]
    exact ⟨Option.some_ne_none 0 |>.symm,⟨hposv,hins⟩,rfl⟩

/-- Rows that a response may hold. -/
structure RowsValid (rows : List BatchNodeResult) : Prop where
  increasing : (rows.map BatchNodeResult.id).Pairwise (· < ·)
  valid : ∀ row∈rows, row.validate=.ok ()
  reference : ∃ row∈rows, row.reference.isSome=true

theorem RowsValid.checkData {rows : List BatchNodeResult} (h : RowsValid rows) {status : Status}
    (hstat : status=.success → ∀ row∈rows, row.state=.succeeded) :
    checkData status none (some (.batch rows))=.ok () := by
  obtain ⟨row,hrow,-⟩ := h.reference
  simp only [Responses.checkData,ResultData.validate,bind_unit_ok_iff,require_ok_iff,each_ok_iff,
    ascending_lt_iff]
  refine ⟨⟨⟨List.ne_nil_of_mem hrow,List.pairwise_map.1 h.increasing⟩,h.valid⟩,?_⟩
  rw [ResultData.suits,Bool.or_eq_true,bne_iff_ne,List.all_eq_true]
  by_cases hsuccess : status=.success
  · exact .inr fun row hrow => beq_iff_eq.2 (hstat hsuccess row hrow)
  · exact .inl hsuccess

theorem RowsValid.hasReference {rows : List BatchNodeResult} (h : RowsValid rows) :
    (ResultData.batch rows).hasReference=true := by
  rw [ResultData.hasReference,List.any_eq_true]
  exact h.reference

theorem RowsValid.response {rows : List BatchNodeResult} (h : RowsValid rows) (hid : requestId≠0)
    (hall : allSucceeded=true → ∀ row∈rows, row.state=.succeeded) :
    ∃ response, batchResponse requestId rows allSucceeded=.ok response := by
  have hreference := h.hasReference
  unfold batchResponse
  split
  · next hsucc =>
    refine ⟨_,FinalResponse.new_ok_iff.2 ⟨?_,rfl⟩⟩
    simp only [FinalResponse.check,bind_unit_ok_iff,require_ok_iff]
    refine ⟨hid,rfl,by simp,by decide,rfl,h.checkData fun _ => hall hsucc,by decide,rfl,?_,
      fun htrun => absurd htrun.1 (by decide)⟩
    simp only [Option.any_some,hreference]
    decide
  · refine ⟨_,FinalResponse.new_ok_iff.2 ⟨?_,rfl⟩⟩
    simp only [FinalResponse.check,bind_unit_ok_iff,require_ok_iff]
    refine ⟨hid,rfl,by simp,by decide,rfl,h.checkData (by rintro ⟨⟩),by decide,
      rfl,?_,fun htrun => absurd htrun.1 (by decide)⟩
    simp only [Option.any_some,hreference]
    decide

/-! ## Outcomes -/

section Outcomes

variable (services : Services) (plan : Plan) (deadline : ℕ)
  (final : DagState Node Executed OperationError)

/-- What becomes of a node at its position. -/
def outcomeOf (entry : Node × ℕ) : DagOutcome Executed :=
  if .started entry.2∈final.history then
    match executeNode services plan deadline entry.2 entry.1 with
    | .ok executed => .completed executed
    | .error _ => .skipped
  else .skipped

def outcomesOf (nodes : List Node) : List (DagOutcome Executed) :=
  nodes.zipIdx.map (outcomeOf services plan deadline final)

/-- The encoded answers of the nodes that ran, in the order of the table. -/
def answers (nodes : List Node) : List (List UInt8) :=
  encodings (outcomesOf services plan deadline final nodes)

theorem length_outcomesOf (nodes : List Node) :
    nodes.length=(outcomesOf services plan deadline final nodes).length := by
  simp [outcomesOf]

variable {plan final} {nodes : List Node}
  {result : Attempt OperationError (List (DagOutcome Executed))}

theorem nodeOutcome_ok (hwell : WellFormed nodes) (hgraph : graph nodes=.ok plan.graph) {i : ℕ}
    {node : Node} (hnode : nodes[i]?=some node) :
    ∃ executed, executeNode services plan deadline i node=.ok executed ∧
      nodeOutcome services plan deadline i =
        .ok ⟨executed,executed.state == .succeeded⟩ := by
  have hjobs := (links_of_graph (nodup_ids hwell.increasing)).1 hgraph
  obtain ⟨hi,rfl⟩ := List.getElem?_eq_some_iff.1 hnode
  have hi' : i < plan.graph.length := by rwa [← hjobs.length_eq]
  obtain ⟨-,hjob⟩ := hjobs.get hi hi'
  rw [List.get_eq_getElem,List.get_eq_getElem] at hjob
  have hid := UInt64.pos_iff_ne_zero.1 (hwell.positive _ (List.getElem_mem hi))
  obtain ⟨response,text,-,-,hexec⟩ := executeNode_total services plan deadline i hid
  refine ⟨_,hexec,?_⟩
  rw [nodeOutcome,List.getElem?_eq_getElem hi']
  simp only [hjob,hexec]
  rfl

/-- The graph always runs to its end, with an outcome for every node. -/
theorem result_eq (hwell : WellFormed nodes) (hgraph : graph nodes=.ok plan.graph)
    (hrun : ExecuteDag (nodeOutcome services plan deadline) plan.graph final result) :
    result=.ok (outcomesOf services plan deadline final nodes) ∧
      ∃ i < nodes.length, .started i∈final.history := by
  have hacc := hwell.accepted hgraph
  have hlen : nodes.length=plan.graph.length :=
    ((links_of_graph (nodup_ids hwell.increasing)).1 hgraph).length_eq
  obtain ⟨hset,rfl⟩ := hrun.settled hacc
  have hstarted : ∀ i, .started i∈final.history → i < nodes.length := by
    intro i hi
    rw [hlen]
    exact ((hset.started i).1 hi).1
  obtain ⟨first,hfirst⟩ := hset.exists_started hacc
  refine ⟨?_,first,hstarted first hfirst,hfirst⟩
  obtain ⟨outcomes,hok,hmap⟩ := (hset.conforms hacc).outcomes fun i hi => by
    obtain ⟨executed,-,hout⟩ :=
      nodeOutcome_ok services deadline hwell hgraph (List.getElem?_eq_getElem (hstarted i hi))
    exact ⟨_,hout⟩
  rw [hok]
  congr 1
  refine List.map_injective_iff.2 (Option.some_injective _) (hmap.trans ?_)
  refine List.ext_getElem (by simp [outcomesOf,hlen]) fun i hi _ => ?_
  have hi' : i < nodes.length := by simpa [hlen] using hi
  obtain ⟨executed,hexecuted,hout⟩ :=
    nodeOutcome_ok services deadline hwell hgraph (List.getElem?_eq_getElem hi')
  simp only [outcomesOf,List.getElem_map,List.getElem_range,List.getElem_zipIdx,Nat.zero_add]
  by_cases hran : .started i∈final.history
  · rw [outcomeOf,if_pos hran,hexecuted]
    exact ((hset.conforms hacc).completed i (hlen ▸ hi') executed).2
      ⟨hran,_,hout,rfl⟩
  · rw [outcomeOf,if_neg hran,hset.outcomes i (hlen ▸ hi'),expectedOutcome_eq_skipped]
    exact fun hclear => hran ((hset.started i).2 ⟨hlen ▸ hi',hclear⟩)

end Outcomes

/-! ## Reports -/

variable {Id : Type} [DecidableEq Id]

/-- The rows say what became of each node, and where the answers of those that ran are. -/
structure Reports (hash : List UInt8 → Id) (services : Services) (plan : Plan) (deadline : ℕ)
    (final : DagState Node Executed OperationError) (nodes : List Node) (after : State Id)
    (rows : List BatchNodeResult) : Prop where
  length : rows.length=nodes.length
  named : ∀ (i : ℕ) node row, nodes[i]?=some node → rows[i]?=some row →
    row.id=node.id ∧ row.operation=node.arguments.operation
  ran : ∀ (i : ℕ) node row, nodes[i]?=some node → rows[i]?=some row →
    .started i∈final.history → ∃ response text ref entry,
      nodeResponse services plan deadline i node=.ok response ∧
      encodedText response=.ok text ∧ row.state=nodeState response.status ∧
      row.status=some response.status ∧ row.reference=some ref ∧
      after.byAlias.lookup ref.toNat=some entry ∧ entry.Holds hash (utf8 text)
  skipped : ∀ (i : ℕ) node row, nodes[i]?=some node → rows[i]?=some row →
    .started i∉final.history → row.state=.skipped ∧ row.status=none ∧ row.reference=none

/-- What the plan has established. -/
theorem plan_ok {request : Request} {nodes : List Node} {tracker : BudgetTracker} {found : Plan}
    (h : plan request nodes tracker=.ok found) :
    graph nodes=.ok found.graph ∧ ∃ reserved, FinalResponse.failure request.id .failed batchError []
      (some (.batch (preflightRows nodes))) (resultRetained ||| resultPartial) none=.ok reserved ∧
      reserved.writtenBytes ≤ presentationLimit tracker := by
  simp only [plan,preflightResponse,bind_ok_iff,pure_ok_iff,require_ok_iff,liftResponse_ok,
    Nat.not_lt] at h
  obtain ⟨-,-,-,-,budget,-,-,⟨reserved,hresv,text,htext,hfits⟩,dag,hdag,rfl⟩ := h
  exact ⟨hdag,reserved,hresv,byteLength_of_encodedText htext ▸ hfits⟩

theorem outcomeOf_cases (services : Services) (plan : Plan) (deadline : ℕ)
    (final : DagState Node Executed OperationError) (entry : Node × ℕ) :
    outcomeOf services plan deadline final entry=.skipped ∨
    ∃ response text, encodedText response=.ok text ∧
      outcomeOf services plan deadline final entry =
        .completed ⟨nodeState response.status,response.status,utf8 text⟩ := by
  unfold outcomeOf
  split
  · cases hexec : executeNode services plan deadline entry.2 entry.1 with
    | error error => exact .inl rfl
    | ok executed =>
      simp only [executeNode,bind_ok_iff,pure_ok_iff] at hexec
      obtain ⟨response,-,text,htext,rfl⟩ := hexec
      exact .inr ⟨response,text,htext,rfl⟩
  · exact .inl rfl

theorem answered_outcomeOf (services : Services) (plan : Plan) (deadline : ℕ)
    (final : DagState Node Executed OperationError) (entry : Node × ℕ) :
    Answered (outcomeOf services plan deadline final entry) := by
  obtain heq | ⟨response,text,-,heq⟩ := outcomeOf_cases services plan deadline final entry
  · rw [heq]
    trivial
  · rw [heq]
    rfl

section Rows

variable {P : List UInt8 → ℕ → Prop} {nodes : List Node} {outcomes : List (DagOutcome Executed)}
  {rows : List BatchNodeResult} (hlen : nodes.length=outcomes.length)
  (hrows : List.Forall₂ (RowOf P) (nodes.zip outcomes) rows)

include hlen hrows

theorem named_of_rows : List.Forall₂ (fun node row => row.id=node.id ∧
    row.operation=node.arguments.operation) nodes rows := by
  have hfirst : (nodes.zip outcomes).map Prod.fst=nodes :=
    List.map_fst_zip (Nat.le_of_eq hlen)
  rw [← hfirst,List.forall₂_map_left_iff]
  exact hrows.imp fun _ _ hrow => ⟨hrow.1,hrow.2.1⟩

theorem ids_of_rows : rows.map BatchNodeResult.id=nodes.map BatchNode.id := by
  have heq : List.Forall₂ (· = ·) (rows.map BatchNodeResult.id) (nodes.map BatchNode.id) := by
    rw [List.forall₂_map_left_iff,List.forall₂_map_right_iff]
    exact ((named_of_rows hlen hrows).imp fun _ _ hrow => hrow.1).flip
  rwa [List.forall₂_eq_eq_eq] at heq

theorem row_at {i : ℕ} {node : Node} {row : BatchNodeResult} (hnode : nodes[i]?=some node)
    (hrow : rows[i]?=some row) : ∃ outcome, outcomes[i]?=some outcome ∧
      RowOf P (node,outcome) row := by
  obtain ⟨hi,rfl⟩ := List.getElem?_eq_some_iff.1 hnode
  obtain ⟨hi',rfl⟩ := List.getElem?_eq_some_iff.1 hrow
  have hzip : i < (nodes.zip outcomes).length := by rwa [hrows.length_eq]
  have hfound := hrows.get hzip hi'
  rw [List.get_eq_getElem,List.get_eq_getElem,List.getElem_zip] at hfound
  exact ⟨_,List.getElem?_eq_getElem (by rwa [← hlen]),hfound⟩

theorem rowsValid (hwell : WellFormed nodes)
    (hP : ∀ bytes ref, P bytes ref → 0 < ref ∧ ref < 2 ^ 64)
    (hanswered : ∀ outcome∈outcomes, Answered outcome)
    (hran : ∃ executed, .completed executed∈outcomes) : RowsValid rows where
  increasing := by
    rw [ids_of_rows hlen hrows]
    exact hwell.increasing
  valid row hrow := by
    obtain ⟨⟨node,outcome⟩,hentry,hrow⟩ := exists_mem_of_forall₂_right hrows hrow
    exact row_valid hP (hwell.valid node (List.of_mem_zip hentry).1)
      (hanswered outcome (List.of_mem_zip hentry).2) hrow
  reference := by
    obtain ⟨executed,hmem⟩ := hran
    obtain ⟨i,hi,heq⟩ := List.getElem_of_mem hmem
    have hi' : i < nodes.length := by rwa [hlen]
    have hi'' : i < rows.length := by rwa [← (named_of_rows hlen hrows).length_eq]
    obtain ⟨outcome,hout,hrow⟩ := row_at hlen hrows (List.getElem?_eq_getElem hi')
      (List.getElem?_eq_getElem hi'')
    rw [List.getElem?_eq_getElem hi,heq] at hout
    obtain rfl := Option.some.inj hout
    obtain ⟨-,-,-,-,ref,-,hreference⟩ := hrow
    exact ⟨rows[i],List.getElem_mem hi'',by rw [hreference]; rfl⟩

omit hlen in
theorem succeeded_of_all (hall : outcomes.all outcomeSucceeded=true) :
    ∀ row∈rows, row.state=.succeeded := by
  intro row hrow
  obtain ⟨⟨node,outcome⟩,hentry,hrow⟩ := exists_mem_of_forall₂_right hrows hrow
  have hsucc := List.all_eq_true.1 hall outcome (List.of_mem_zip hentry).2
  cases outcome with
  | skipped => cases hsucc
  | completed executed =>
    obtain ⟨-,-,hstate,-⟩ := hrow
    rw [hstate]
    exact beq_iff_eq.1 hsucc

end Rows

/-- The counters of a program allow one record for each node. -/
theorem records_le {request : Request} {nodes : List Node} (h : request.arguments=.batch nodes) :
    nodes.length ≤ request.budget.records.toNat := by
  have hchk := request.checked
  rw [h] at hchk
  simp only [Request.check,Request.checkBudget,checkItems,bind_unit_ok_iff,require_ok_iff] at hchk
  exact hchk.2.2.2.1.2.2

section Claim

variable {hash : List UInt8 → Id} {services : Services} {request : Request} {nodes : List Node}
  {tracker : BudgetTracker} {outputLimit : UInt64} {now : ℕ} {found : Plan} {sys : System Id}
  {spoolFault : Bool} {faults : ReadFaults} {final : DagState Node Executed OperationError}
  {result : Attempt OperationError (List (DagOutcome Executed))}
  (hrequest : request.arguments=.batch nodes)
  (hprogram : BudgetTracker.new request.budget outputLimit now=.ok tracker)
  (hplan : plan request nodes tracker=.ok found)
  (hrun : ExecuteDag (nodeOutcome services found tracker.deadline) found.graph final result)
  (hcons : Consistent hash sys)

include hrequest in
theorem wellFormed_of_request : WellFormed nodes := by
  have hvalid := request.arguments_valid
  rw [hrequest] at hvalid
  exact validate_iff.1 hvalid

include hrequest hplan hrun in
theorem exists_completed : ∃ executed, .completed executed ∈
    outcomesOf services found tracker.deadline final nodes := by
  have hwell := wellFormed_of_request hrequest
  obtain ⟨-,i,hi,hran⟩ := result_eq services tracker.deadline hwell (plan_ok hplan).1 hrun
  obtain ⟨executed,hexecuted,-⟩ := nodeOutcome_ok services tracker.deadline hwell
    (plan_ok hplan).1 (List.getElem?_eq_getElem hi)
  refine ⟨executed,List.mem_map.2 ⟨(nodes[i],i),?_,?_⟩⟩
  · exact List.mem_zipIdx_iff_getElem?.2 (List.getElem?_eq_getElem hi)
  · rw [outcomeOf,if_pos hran,hexecuted]

include hrequest hplan hrun in
theorem answers_ne_nil : answers services found tracker.deadline final nodes≠[] := by
  obtain ⟨executed,hmem⟩ := exists_completed hrequest hplan hrun
  exact List.ne_nil_of_mem (List.mem_filterMap.2 ⟨_,hmem,rfl⟩)

/-- An alias that names an entry with the bytes. -/
def Named (hash : List UInt8 → Id) (after : State Id) (bytes : List UInt8) (ref : ℕ) : Prop :=
  (0 < ref ∧ ref < 2 ^ 64) ∧
    ∃ entry, after.byAlias.lookup ref=some entry ∧ entry.Holds hash bytes

include hcons in
theorem retainMany_of_room {contents : List (List UInt8)} (hne : contents≠[])
    (hroom : Room hash sys.store spoolFault faults contents) :
    ∃ after refs, retainMany hash sys.store spoolFault faults contents=(after,.ok refs) ∧
      List.Forall₂ (Named hash after) contents refs := by
  have hidx := hcons.balanced.indexed
  have hretain := (retainMany_ok_iff hidx hne).2 ⟨hroom,rfl⟩
  obtain ⟨error,heq⟩ | ⟨after,refs,heq,hret,-⟩ :=
    retainMany_spec hcons spoolFault faults contents
  · rw [heq] at hretain
    cases hretain
  · rw [heq] at hretain
    obtain rfl := Except.ok.inj hretain
    have hbounds : ∀ ref∈(keepAll (contents.map (prepared hash)) sys.store.state.nextAlias
        sys.store.state).refs, 0 < ref ∧ ref < 2 ^ 64 := by
      intro ref href
      obtain ⟨hpos,hlt⟩ := keepAll_bounds hidx href
      exact ⟨hpos,hlt.trans hroom.refs⟩
    exact ⟨after,_,heq,((List.forall₂_and_left _ _).2 ⟨hbounds,hret.held.flip⟩).flip⟩

omit [DecidableEq Id] in
/-- Rows with aliases of the answers are a report. -/
theorem reports_of_rows {services : Services} {plan : Plan} {deadline : ℕ} {after : State Id}
    {rows : List BatchNodeResult} (hwell : WellFormed nodes) (hrows : List.Forall₂
      (RowOf (Named hash after)) (nodes.zip (outcomesOf services plan deadline final nodes)) rows) :
    Reports hash services plan deadline final nodes after rows := by
  have hlen := length_outcomesOf services plan deadline final nodes
  have hat : ∀ (i : ℕ) node row, nodes[i]?=some node → rows[i]?=some row →
      RowOf (Named hash after) (node,outcomeOf services plan deadline final (node,i)) row := by
    intro i node row hnode hrow
    obtain ⟨outcome,hout,hrowof⟩ := row_at hlen hrows hnode hrow
    rw [outcomesOf,List.getElem?_map,List.getElem?_zipIdx,hnode] at hout
    obtain rfl := Option.some.inj hout
    rwa [Nat.zero_add] at hrowof
  refine ⟨(named_of_rows hlen hrows).length_eq.symm,?_,?_,?_⟩
  · intro i node row hnode hrow
    exact ⟨(hat i node row hnode hrow).1,(hat i node row hnode hrow).2.1⟩
  · intro i node row hnode hrow hran
    have hid := UInt64.pos_iff_ne_zero.1 (hwell.positive node (List.mem_of_getElem? hnode))
    obtain ⟨response,text,hresp,htext,hexec⟩ :=
      executeNode_total services plan deadline i hid
    have hrowof := hat i node row hnode hrow
    rw [outcomeOf,if_pos hran,hexec] at hrowof
    obtain ⟨-,-,hstate,hstat,ref,⟨⟨-,hlt⟩,entry,hentry,hholds⟩,hreference⟩ := hrowof
    refine ⟨response,text,UInt64.ofNat ref,entry,hresp,htext,hstate,hstat,hreference,?_,hholds⟩
    rw [UInt64.toNat_ofNat_of_lt' hlt]
    exact hentry
  · intro i node row hnode hrow hskip
    have hrowof := hat i node row hnode hrow
    rw [outcomeOf,if_neg hskip] at hrowof
    exact hrowof.2.2

include hrequest hprogram hplan hrun hcons in
/-- With room in the store, the batch reports its nodes. -/
theorem reports_of_room
    (hroom : Room hash sys.store spoolFault faults
      (answers services found tracker.deadline final nodes)) :
    ∃ response rows,
      (conclude hash sys.store spoolFault faults request nodes tracker result).2=.ok response ∧
      response.data=some (.batch rows) ∧
      Reports hash services found tracker.deadline final nodes
        (conclude hash sys.store spoolFault faults request nodes tracker result).1 rows := by
  have hwell := wellFormed_of_request hrequest
  have hcompleted := exists_completed hrequest hplan hrun
  obtain ⟨hgraph,reserved,hresv,hfits⟩ := plan_ok hplan
  obtain ⟨after,refs,hretain,hnamed⟩ :=
    retainMany_of_room hcons (answers_ne_nil hrequest hplan hrun) hroom
  obtain ⟨rfl,-⟩ := result_eq services tracker.deadline hwell hgraph hrun
  have hlen := length_outcomesOf services found tracker.deadline final nodes
  rw [answers,← List.map_snd_zip (Nat.le_of_eq hlen.symm)] at hnamed
  obtain ⟨rows,hloop,hrows⟩ := rowsLoop_ok hnamed
  have hanswered : ∀ outcome∈outcomesOf services found tracker.deadline final nodes,
      Answered outcome := by
    intro outcome hmem
    obtain ⟨entry,-,rfl⟩ := List.mem_map.1 hmem
    exact answered_outcomeOf ..
  have hvalid := rowsValid hlen hrows hwell (fun _ _ href => href.1) hanswered hcompleted
  obtain ⟨response,hresp⟩ := hvalid.response (request.id_ne_zero)
    (succeeded_of_all hrows)
  obtain ⟨hbytes,hdata⟩ := writtenBytes_le (named_of_rows hlen hrows) hresp hresv
  obtain ⟨hfresh,-,hlimit,-⟩ := fresh_newWithDeadline hprogram
  have hrecs : nodes.length ≤ tracker.recordLimit := hlimit ▸ records_le hrequest
  have houtp : response.writtenBytes ≤ tracker.outputLimit := by
    rw [presentationLimit,BudgetTracker.remainingOutput] at hfits
    omega
  have hreport : report hash sys.store spoolFault faults request nodes tracker
      (outcomesOf services found tracker.deadline final nodes)=(after,.ok response) := by
    rw [report,← answers,hretain]
    simp only [Prod.mk.injEq,true_and,bind_ok_iff,mapError_ok_iff,liftResponse_ok]
    exact ⟨refs,rfl,(rows,[]),hloop,(),rfl,response,hresp,(),hfresh.charge_ok hrecs houtp,rfl⟩
  refine ⟨response,rows,?_,hdata,?_⟩
  · rw [conclude,hreport]
    rfl
  · rw [conclude,hreport]
    exact reports_of_rows hwell hrows

include hrequest hplan hrun hcons in
/-- A batch that gives a response has had room for its answers. -/
theorem room_of_response {response : FinalResponse}
    (h : (conclude hash sys.store spoolFault faults request nodes tracker result).2=.ok response) :
    Room hash sys.store spoolFault faults
      (answers services found tracker.deadline final nodes) := by
  obtain ⟨rfl,-⟩ := result_eq services tracker.deadline (wellFormed_of_request hrequest)
    (plan_ok hplan).1 hrun
  simp only [conclude,report,mapError_ok_iff,bind_ok_iff] at h
  obtain ⟨refs,hretain,-⟩ := h
  exact ((retainMany_ok_iff hcons.balanced.indexed
    (answers_ne_nil hrequest hplan hrun)).1 hretain).1

end Claim

/-- A batch that was accepted reports all its nodes just when the store it has left has room for
their answers. -/
theorem batch_reported_iff_room (hash : List UInt8 → Id) (services : Services) (request : Request)
    (nodes : List Node) (tracker : BudgetTracker) (outputLimit : UInt64) (now : ℕ) (found : Plan)
    (sys : System Id) (address : ℕ) (limits : StoreLimits) (history : List ResultStores.Event)
    (spoolFault : Bool) (faults : ReadFaults) (final : DagState Node Executed OperationError)
    (result : Attempt OperationError (List (DagOutcome Executed)))
    (hrequest : request.arguments=.batch nodes)
    (hprogram : BudgetTracker.new request.budget outputLimit now=.ok tracker)
    (hplan : plan request nodes tracker=.ok found)
    (hrun : ExecuteDag (nodeOutcome services found tracker.deadline) found.graph final result)
    (hstore : Run hash address limits sys history) :
    (∃ response rows,
      (conclude hash sys.store spoolFault faults request nodes tracker result).2=.ok response ∧
      response.data=some (.batch rows) ∧
      Reports hash services found tracker.deadline final nodes
        (conclude hash sys.store spoolFault faults request nodes tracker result).1 rows) ↔
    Room hash sys.store spoolFault faults
      (answers services found tracker.deadline final nodes) := by
  constructor
  · rintro ⟨response,rows,hok,-,-⟩
    exact room_of_response hrequest hplan hrun hstore.consistent hok
  · exact reports_of_room hrequest hprogram hplan hrun hstore.consistent

/-- A batch of one listing. -/
def soloNodes : List Node := [⟨1,[],.list ⟨[['.']],0,0⟩⟩]

def soloRequest : Request where
  id := 1
  arguments := .batch soloNodes
  budget := ⟨1000,1,1,rfl⟩
  permit := none
  checked := by
    have hlist : (ListArgs.mk [['.']] 0 0).validate=.ok () := rfl
    simp only [Request.check,Arguments.validate,soloNodes,BatchArgs.nodesLoop,bind_unit_ok_iff,
      hlist]
    exact ⟨rfl,rfl,⟨rfl,rfl⟩,rfl,rfl⟩

def soloTracker : BudgetTracker := ⟨1000,4000,1,1,0,0⟩

/-- The listing is cancelled. -/
def soloServices : Services := ⟨1,fun _ => .ok (),fun _ => .error .cancelled⟩

theorem solo_plan : ∃ found, plan soloRequest soloNodes soloTracker=.ok found := by
  have h : (plan soloRequest soloNodes soloTracker).toOption.isSome=true := by decide
  cases hplan : plan soloRequest soloNodes soloTracker with
  | error error =>
    rw [hplan] at h
    cases h
  | ok found => exact ⟨found,rfl⟩

theorem solo_run : ∃ found final result, plan soloRequest soloNodes soloTracker=.ok found ∧
    ExecuteDag (nodeOutcome soloServices found soloTracker.deadline) found.graph final result := by
  obtain ⟨found,hplan⟩ := solo_plan
  have hwell : WellFormed soloNodes := validate_iff.1 soloRequest.arguments_valid
  obtain ⟨final,result,hrun⟩ := (hwell.accepted (plan_ok hplan).1).exists_execution
    (nodeOutcome soloServices found soloTracker.deadline)
  exact ⟨found,final,result,hplan,hrun⟩

theorem batch_reported_iff_room_solo : ∃ found final result,
    plan soloRequest soloNodes soloTracker=.ok found ∧
    ExecuteDag (nodeOutcome soloServices found soloTracker.deadline) found.graph final result ∧
    ((∃ response rows, (conclude id (System.new 0 ⟨1000,1⟩).store false
          ⟨fun _ => false,fun _ => false⟩ soloRequest soloNodes soloTracker result).2 =
        .ok response ∧ response.data=some (.batch rows) ∧
        Reports id soloServices found soloTracker.deadline final soloNodes
          (conclude id (System.new 0 ⟨1000,1⟩).store false ⟨fun _ => false,fun _ => false⟩
            soloRequest soloNodes soloTracker result).1 rows) ↔
      Room id (System.new 0 ⟨1000,1⟩).store false ⟨fun _ => false,fun _ => false⟩
        (answers soloServices found soloTracker.deadline final soloNodes)) := by
  obtain ⟨found,final,result,hplan,hrun⟩ := solo_run
  exact ⟨found,final,result,hplan,hrun,batch_reported_iff_room id soloServices soloRequest
    soloNodes soloTracker 4000 0 found _ 0 ⟨1000,1⟩ [] false _ final result rfl rfl hplan hrun
    .new⟩

/-- No answer is short. -/
theorem le_length_of_mem_answers {services : Services} {plan : Plan} {deadline : ℕ}
    {final : DagState Node Executed OperationError} {nodes : List Node} {bytes : List UInt8}
    (h : bytes∈answers services plan deadline final nodes) : 4 ≤ bytes.length := by
  obtain ⟨outcome,hout,hbytes⟩ := List.mem_filterMap.1 h
  obtain ⟨entry,-,rfl⟩ := List.mem_map.1 hout
  obtain heq | ⟨response,text,htext,heq⟩ := outcomeOf_cases services plan deadline final entry
  · rw [heq] at hbytes
    cases hbytes
  · rw [heq] at hbytes
    cases hbytes
    have hscalar : scalarBytes ['3']=4 := by decide
    rw [length_utf8_eq_byteLength,byteLength_of_encodedText htext,FinalResponse.writtenBytes]
    omega

/-- In a store of one byte the listing runs, and its outcome is lost. -/
theorem solo_outcome_lost : ∃ found final result,
    plan soloRequest soloNodes soloTracker=.ok found ∧
    ExecuteDag (nodeOutcome soloServices found soloTracker.deadline) found.graph final result ∧
    .started 0∈final.history ∧
    ∀ response, (conclude id (System.new 0 ⟨1,1⟩).store false ⟨fun _ => false,fun _ => false⟩
      soloRequest soloNodes soloTracker result).2≠.ok response := by
  obtain ⟨found,final,result,hplan,hrun⟩ := solo_run
  have hne := answers_ne_nil rfl hplan hrun
  obtain ⟨-,i,hi,hstarted⟩ := result_eq soloServices soloTracker.deadline
    (validate_iff.1 soloRequest.arguments_valid) (plan_ok hplan).1 hrun
  obtain rfl : i=0 := Nat.lt_one_iff.1 hi
  refine ⟨found,final,result,hplan,hrun,hstarted,fun response hresp => ?_⟩
  have hroom := room_of_response rfl hplan hrun (consistent_new id 0 ⟨1,1⟩) hresp
  obtain ⟨bytes,rest,hanswers⟩ := List.exists_cons_of_ne_nil hne
  have hlong := le_length_of_mem_answers (hanswers ▸ List.mem_cons_self : bytes∈_)
  have hbytes := hroom.bytes
  rw [hanswers,List.map_cons,keepAll_new rfl,freshBytes,List.map_cons,List.sum_cons] at hbytes
  have hlimit : (System.new 0 ⟨1,1⟩ : System (List UInt8)).store.limits.maxBytes=1 := rfl
  have hlen : (prepared id bytes).2.length=bytes.length := rfl
  omega

end Ash.BatchExecution
