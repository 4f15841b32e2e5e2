import Ash.DagResults
import Ash.OperationErrors

/-! # Graphs of batches

A batch is checked when it is decoded, by the identifiers of its nodes, and again when it runs,
by their positions.  Both checks accept a table just when its dependencies have no cycle. -/

namespace Ash.BatchGraphs
open Relation ParserOutcomes Outcomes RequestValues RequestArguments DependencyGraphs DagExecution
open OperationErrors

/-- The node with the first identifier depends on the one with the second. -/
def Names (nodes : List Node) (id dependency : UInt64) : Prop :=
  ∃ node∈nodes, node.id=id ∧ dependency∈node.dependencies

def edges (nodes : List Node) : ℕ := (nodes.map fun node => node.dependencies.length).sum

/-- What a batch table has to be. -/
structure WellFormed (nodes : List Node) : Prop where
  nonempty : 1 ≤ nodes.length
  size : nodes.length ≤ maxBatchNodes
  increasing : (nodes.map BatchNode.id).Pairwise (· < ·)
  positive : ∀ node∈nodes, 0 < node.id
  valid : ∀ node∈nodes, node.validate=.ok ()
  edges : edges nodes ≤ maxBatchEdges
  present : ∀ node∈nodes, ∀ dependency∈node.dependencies, ∃ other∈nodes, other.id=dependency
  acyclic : ∀ id, ¬ TransGen (Names nodes) id id

/-- The graph of positions that an execution builds. -/
def graph (nodes : List Node) : Except OperationError (List (DagNode Node)) :=
  nodes.mapM fun node => do
    let dependencies ← node.dependencies.mapM fun dependency =>
      match (nodes.map BatchNode.id).idxOf? dependency with
      | some index => .ok index
      | none => .error .invalidArgument
    return ⟨dependencies,node⟩

/-! ## Positions -/

variable {ids : List UInt64}

variable {index : ℕ} {dependencies : List UInt64}

theorem idxOf?_eq_some (hids : ids.Nodup) {id : UInt64} :
    ids.idxOf? id=some index ↔ ids[index]?=some id := by
  rw [List.idxOf?_eq_some_iff,List.getElem?_eq_some_iff]
  constructor
  · rintro ⟨h,heq,-⟩
    exact ⟨h,heq⟩
  · rintro ⟨h,heq⟩
    refine ⟨h,heq,fun j hj hother => ?_⟩
    have hsame : ids[j]=ids[index] := hother.trans heq.symm
    exact Nat.ne_of_lt hj (hids.getElem_inj_iff.1 hsame)

theorem position_ok (hids : ids.Nodup) {id : UInt64} :
    position ids id=.ok index ↔ ids[index]?=some id := by
  rw [← idxOf?_eq_some hids,position]
  cases ids.idxOf? id with
  | none => simp [Fallible.fail]
  | some found => simp

/-- Identifiers in order stand at positions in order. -/
theorem position_lt (hids : ids.Pairwise (· < ·)) {i j : ℕ} {a b : UInt64}
    (hi : ids[i]?=some a) (hj : ids[j]?=some b) (hlt : a < b) : i < j := by
  obtain ⟨hilt,rfl⟩ := List.getElem?_eq_some_iff.1 hi
  obtain ⟨hjlt,rfl⟩ := List.getElem?_eq_some_iff.1 hj
  by_contra hge
  obtain heq | hgt := Nat.eq_or_lt_of_le (Nat.le_of_not_lt hge)
  · subst heq
    exact UInt64.lt_irrefl _ hlt
  · have hback := List.pairwise_iff_getElem.1 hids j i hjlt hilt hgt
    exact UInt64.lt_irrefl _ (UInt64.lt_trans hlt hback)

/-- The positions of the dependencies of one node. -/
abbrev Located (ids : List UInt64) (dependencies : List UInt64) (link : List ℕ) : Prop :=
  List.Forall₂ (fun dependency index => ids[index]?=some dependency) dependencies link

theorem located_iff (hids : ids.Nodup) {link : List ℕ} :
    dependencies.mapM (position ids)=.ok link ↔ Located ids dependencies link :=
  mapM_ok_iff (fun _ _ => position_ok hids) dependencies link

theorem exists_located (h : ∀ dependency∈dependencies, dependency∈ids) :
    ∃ link, Located ids dependencies link := by
  refine ⟨dependencies.map fun dependency => ids.idxOf dependency,?_⟩
  rw [Located,List.forall₂_map_right_iff,List.forall₂_same]
  intro dependency hdep
  have hmem := h dependency hdep
  rw [List.getElem?_eq_getElem (List.idxOf_lt_length_iff.2 hmem),List.getElem_idxOf]

/-! ## The check at decoding -/

variable {nodes : List Node} {links : List (List ℕ)}

theorem nodesLoop_ok (hids : ids.Nodup) {edgeCount : ℕ} (hcount : edgeCount ≤ maxBatchEdges) :
    BatchArgs.nodesLoop ids nodes edgeCount=.ok links ↔
      (∀ node∈nodes, node.validate=.ok ()) ∧ edgeCount+edges nodes ≤ maxBatchEdges ∧
        List.Forall₂ (fun node link => Located ids node.dependencies link) nodes links := by
  induction nodes generalizing edgeCount links with
  | nil =>
    rw [BatchArgs.nodesLoop,List.forall₂_nil_left_iff,Except.ok.injEq,eq_comm]
    simp [edges,hcount]
  | cons node nodes ih =>
    have hsum : edgeCount+edges (node::nodes) =
        edgeCount+node.dependencies.length+edges nodes := by
      rw [edges,List.map_cons,List.sum_cons,← edges,Nat.add_assoc]
    rw [hsum,List.forall_mem_cons]
    rw [BatchArgs.nodesLoop,bind_unit_ok_iff,bind_unit_ok_iff,bind_unit_ok_iff,require_ok_iff]
    simp only [bind_ok_iff,pure_ok_iff,located_iff hids]
    constructor
    · rintro ⟨hnode,hargs,hfits,link,hlink,rest,hrest,rfl⟩
      obtain ⟨hvalid,hedges,hlinks⟩ := (ih hfits).1 hrest
      exact ⟨⟨bind_unit_ok_iff.2 ⟨hnode,hargs⟩,hvalid⟩,hedges,.cons hlink hlinks⟩
    · rintro ⟨⟨hnode,hvalid⟩,hedges,hlinks⟩
      obtain ⟨hcheck,hargs⟩ := bind_unit_ok_iff.1 hnode
      obtain _ | ⟨hlink,hlinks⟩ := hlinks
      have hfits : edgeCount+node.dependencies.length ≤ maxBatchEdges := by omega
      exact ⟨hcheck,hargs,hfits,_,hlink,_,(ih hfits).2 ⟨hvalid,hedges,hlinks⟩,rfl⟩

theorem checkTable_ok : BatchArgs.checkTable nodes=.ok () ↔
    1 ≤ nodes.length ∧ nodes.length ≤ maxBatchNodes ∧
      (nodes.map BatchNode.id).Pairwise (· < ·) := by
  simp only [BatchArgs.checkTable,bind_unit_ok_iff,require_ok_iff,ascending_lt_iff,
    List.pairwise_map,← List.length_pos_iff,Nat.succ_le_iff,and_assoc]

/-- A node that passes its check has positive identifier and dependencies in order. -/
theorem dependencies_of_validate {node : Node} (h : node.validate=.ok ()) :
    0 < node.id ∧ node.dependencies.Pairwise (· < ·) := by
  simp only [BatchNode.validate,BatchNode.checkNode,bind_unit_ok_iff,require_ok_iff,
    ascending_lt_iff] at h
  exact ⟨UInt64.pos_iff_ne_zero.2 h.1.1,h.1.2.1.2.1⟩

/-! ## Cycles -/

section Cycles

variable (hids : (nodes.map BatchNode.id).Nodup)
  (hlinks : List.Forall₂ (fun node link => Located (nodes.map BatchNode.id) node.dependencies link)
    nodes links)

include hlinks in
theorem names_of_dependsOn {i j : ℕ} (h : DependsOn links i j) :
    Names nodes ((nodes.map BatchNode.id).getD i 0) ((nodes.map BatchNode.id).getD j 0) := by
  have hi : i < links.length := length_le_of_dependsOn h
  have hi' : i < nodes.length := by rwa [hlinks.length_eq]
  rw [dependsOn_iff,List.getD_eq_getElem _ _ hi] at h
  have hloc := hlinks.get hi' hi
  rw [List.get_eq_getElem,List.get_eq_getElem] at hloc
  obtain ⟨dependency,hdep,hj⟩ := exists_mem_of_forall₂_right hloc h
  refine ⟨nodes[i],List.getElem_mem hi',?_,?_⟩
  · rw [List.getD_eq_getElem _ _ (by simpa using hi'),List.getElem_map]
  · rw [List.getD_eq_getElem?_getD,hj]
    exact hdep

include hids hlinks in
theorem dependsOn_of_names {id dependency : UInt64} (h : Names nodes id dependency) :
    DependsOn links ((nodes.map BatchNode.id).idxOf id)
      ((nodes.map BatchNode.id).idxOf dependency) := by
  obtain ⟨node,hnode,rfl,hdep⟩ := h
  obtain ⟨i,hi,rfl⟩ := List.getElem_of_mem hnode
  have hi' : i < links.length := by rwa [← hlinks.length_eq]
  have hindex : (nodes.map BatchNode.id).idxOf nodes[i].id=i := by
    have h := hids.idxOf_getElem i (by simpa using hi)
    rwa [List.getElem_map] at h
  have hloc := hlinks.get hi hi'
  rw [List.get_eq_getElem,List.get_eq_getElem] at hloc
  obtain ⟨j,hj,hat⟩ := exists_mem_of_forall₂_left hloc hdep
  have hjindex : (nodes.map BatchNode.id).idxOf dependency=j := by
    obtain ⟨hlt,rfl⟩ := List.getElem?_eq_some_iff.1 hat
    exact hids.idxOf_getElem j hlt
  rw [hindex,hjindex,dependsOn_iff,List.getD_eq_getElem _ _ hi']
  exact hj

include hids hlinks in
/-- Positions have a cycle just when identifiers have one. -/
theorem acyclic_iff : Acyclic links ↔ ∀ id, ¬ TransGen (Names nodes) id id := by
  constructor
  · intro h id hcycle
    exact h _ (hcycle.lift _ fun _ _ hnames => dependsOn_of_names hids hlinks hnames)
  · intro h i hcycle
    exact h _ (hcycle.lift _ fun _ _ hdepends => names_of_dependsOn hlinks hdepends)

include hlinks in
theorem inRange_of_located : InRange links := by
  intro i j h
  have hi : i < links.length := length_le_of_dependsOn h
  rw [dependsOn_iff,List.getD_eq_getElem _ _ hi] at h
  have hloc := hlinks.get (by rwa [hlinks.length_eq]) hi
  rw [List.get_eq_getElem,List.get_eq_getElem] at hloc
  obtain ⟨_,-,hj⟩ := exists_mem_of_forall₂_right hloc h
  obtain ⟨hlt,-⟩ := List.getElem?_eq_some_iff.1 hj
  rwa [List.length_map,hlinks.length_eq] at hlt

end Cycles

theorem nodup_ids (h : (nodes.map BatchNode.id).Pairwise (· < ·)) :
    (nodes.map BatchNode.id).Nodup :=
  List.Pairwise.imp (fun hlt => UInt64.ne_of_lt hlt) h

/-- Dependencies that are found are those of nodes of the table. -/
theorem present_of_located
    (hlinks : List.Forall₂ (fun node link => Located ids node.dependencies link) nodes links) :
    ∀ node∈nodes, ∀ dependency∈node.dependencies, dependency∈ids := by
  intro node hnode dependency hdep
  obtain ⟨link,-,hloc⟩ := exists_mem_of_forall₂_left hlinks hnode
  obtain ⟨index,-,hat⟩ := exists_mem_of_forall₂_left hloc hdep
  exact List.mem_of_getElem? hat

theorem WellFormed.exists_links (h : WellFormed nodes) : ∃ links, List.Forall₂
    (fun node link => Located (nodes.map BatchNode.id) node.dependencies link) nodes links := by
  have hloc : ∀ node∈nodes, ∃ link,
      Located (nodes.map BatchNode.id) node.dependencies link := by
    intro node hnode
    refine exists_located fun dependency hdep => ?_
    exact List.mem_map.2 (h.present node hnode dependency hdep)
  exact exists_forall₂ hloc

theorem validate_iff : BatchArgs.validate nodes=.ok () ↔ WellFormed nodes := by
  rw [BatchArgs.validate,Arguments.validate,bind_unit_ok_iff,checkTable_ok]
  constructor
  · rintro ⟨⟨hne,hsize,hids⟩,hrest⟩
    obtain ⟨links,hloop,horder⟩ := bind_ok_iff.1 hrest
    obtain ⟨hvalid,hedges,hlinks⟩ := (nodesLoop_ok (nodup_ids hids) (Nat.zero_le _)).1 hloop
    obtain ⟨visited,hvis,hiff⟩ :=
      countOrdered_ok_iff (ε := RequestError) (inRange_of_located hlinks)
    rw [BatchArgs.checkOrder,bind_ok_iff] at horder
    obtain ⟨found,hfound,hcount⟩ := horder
    rw [hvis] at hfound
    obtain rfl := Except.ok.inj hfound
    refine ⟨hne,hsize,hids,fun node hnode => (dependencies_of_validate (hvalid node hnode)).1,
      hvalid,by omega,?_,?_⟩
    · intro node hnode dependency hdep
      exact List.mem_map.1 (present_of_located hlinks node hnode dependency hdep)
    · exact (acyclic_iff (nodup_ids hids) hlinks).1 (hiff.1 (require_ok_iff.1 hcount))
  · intro h
    obtain ⟨links,hlinks⟩ := h.exists_links
    obtain ⟨visited,hvis,hiff⟩ :=
      countOrdered_ok_iff (ε := RequestError) (inRange_of_located hlinks)
    refine ⟨⟨h.nonempty,h.size,h.increasing⟩,bind_ok_iff.2 ⟨links,?_,?_⟩⟩
    · refine (nodesLoop_ok (nodup_ids h.increasing) (Nat.zero_le _)).2 ⟨h.valid,?_,hlinks⟩
      rw [Nat.zero_add]
      exact h.edges
    · refine bind_ok_iff.2 ⟨visited,hvis,require_ok_iff.2 (hiff.2 ?_)⟩
      exact (acyclic_iff (nodup_ids h.increasing) hlinks).2 h.acyclic

/-! ## The check at run time -/

variable {dag : List (DagNode Node)}

theorem links_of_graph (hids : (nodes.map BatchNode.id).Nodup) :
    graph nodes=.ok dag ↔ List.Forall₂ (fun node (dagNode : DagNode Node) =>
      Located (nodes.map BatchNode.id) node.dependencies dagNode.dependencies ∧
        dagNode.job=node) nodes dag := by
  have hpos : ∀ (dependency : UInt64) (index : ℕ),
      (match (nodes.map BatchNode.id).idxOf? dependency with
        | some index => .ok index
        | none => .error .invalidArgument : Except OperationError ℕ)=.ok index ↔
      (nodes.map BatchNode.id)[index]?=some dependency := by
    intro dependency index
    rw [← idxOf?_eq_some hids]
    cases (nodes.map BatchNode.id).idxOf? dependency with
    | none => simp
    | some found => simp
  refine mapM_ok_iff (fun node dagNode => ?_) nodes dag
  simp only [bind_ok_iff,pure_ok_iff,mapM_ok_iff hpos]
  constructor
  · rintro ⟨dependencies,hdeps,rfl⟩
    exact ⟨hdeps,rfl⟩
  · rintro ⟨hdeps,rfl⟩
    exact ⟨_,hdeps,rfl⟩

theorem forall₂_links (h : List.Forall₂ (fun node (dagNode : DagNode Node) =>
      Located ids node.dependencies dagNode.dependencies ∧ dagNode.job=node) nodes dag) :
    List.Forall₂ (fun node link => Located ids node.dependencies link) nodes
      (DagExecution.links dag) := by
  rw [DagExecution.links,List.forall₂_map_right_iff]
  exact h.imp fun _ _ hloc => hloc.1

/-- The graph of a well-formed table passes the second check. -/
theorem WellFormed.accepted (h : WellFormed nodes) (hdag : graph nodes=.ok dag) :
    Accepted dag := by
  have hids := nodup_ids h.increasing
  have hloc := (links_of_graph hids).1 hdag
  have hlinks := forall₂_links hloc
  refine ⟨?_,?_,inRange_of_located hlinks,(acyclic_iff hids hlinks).2 h.acyclic⟩
  · rintro rfl
    have hlen := hloc.length_eq
    have hne := h.nonempty
    rw [hlen,List.length_nil] at hne
    omega
  · intro link hlink
    obtain ⟨node,hnode,hdeps⟩ := exists_mem_of_forall₂_right hlinks hlink
    refine pairwise_of_forall₂ ?_ hdeps (dependencies_of_validate (h.valid node hnode)).2
    intro a b i j hi hj hlt
    exact position_lt h.increasing hi hj hlt

theorem WellFormed.exists_graph (h : WellFormed nodes) : ∃ dag, graph nodes=.ok dag := by
  have hloc : ∀ node∈nodes, ∃ dagNode : DagNode Node,
      Located (nodes.map BatchNode.id) node.dependencies dagNode.dependencies ∧
        dagNode.job=node := by
    intro node hnode
    obtain ⟨link,hlink⟩ := exists_located fun dependency hdep =>
      List.mem_map.2 (h.present node hnode dependency hdep)
    exact ⟨⟨link,node⟩,hlink,rfl⟩
  obtain ⟨dag,hdag⟩ := exists_forall₂ hloc
  exact ⟨dag,(links_of_graph (nodup_ids h.increasing)).2 hdag⟩

/-- The check at decoding accepts just the well-formed tables, and whatever it accepts passes
the check at run time, so that no execution ends with an invalid graph. -/
theorem batch_validators_agree (nodes : List Node) :
    (BatchArgs.validate nodes=.ok () ↔ WellFormed nodes) ∧
    (BatchArgs.validate nodes=.ok () → ∃ dag, graph nodes=.ok dag ∧
      (∀ E : Type, (DagExecution.validate dag : Attempt E Unit)=.ok ()) ∧
      ∀ (R E : Type) (outcome : ℕ → Except E (DagCompletion R)) (final : DagState Node R E)
        (result : Attempt E (List (DagOutcome R))), ExecuteDag outcome dag final result →
        result≠.fail .invalidGraph) := by
  refine ⟨validate_iff,fun hvalid => ?_⟩
  have h := validate_iff.1 hvalid
  obtain ⟨dag,hdag⟩ := h.exists_graph
  have hacc := h.accepted hdag
  refine ⟨dag,hdag,fun E => validate_ok.2 hacc,?_⟩
  intro R E outcome final result hexec
  obtain ⟨hset,rfl⟩ := hexec.settled hacc
  exact hset.finish_ne_invalidGraph

theorem batch_validators_agree_chain :
    ∃ nodes, BatchArgs.validate nodes=.ok () ∧ ∃ dag, graph nodes=.ok dag ∧
      (DagExecution.validate dag : Attempt Unit Unit)=.ok () := by
  have hlist : (ListArgs.mk [['.']] 0 0).validate=.ok () := rfl
  have hvalid : BatchArgs.validate [⟨1,[],.list ⟨[['.']],0,0⟩⟩,⟨2,[1],.list ⟨[['.']],0,0⟩⟩] =
      .ok () := by
    simp only [BatchArgs.validate,Arguments.validate,BatchArgs.nodesLoop,bind_unit_ok_iff,hlist]
    exact ⟨rfl,rfl⟩
  obtain ⟨dag,hdag,hacc,-⟩ := (batch_validators_agree _).2 hvalid
  exact ⟨_,hvalid,dag,hdag,hacc Unit⟩

end Ash.BatchGraphs
