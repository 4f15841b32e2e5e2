import Ash.DagExecution

/-! # Runs of dependency graphs

What holds between two completions, in whatever order the jobs complete. -/

namespace Ash.DagExecution
open ParserOutcomes Outcomes DependencyGraphs

variable {J R E : Type} (nodes : List (DagNode J)) (outcome : ℕ → Except E (DagCompletion R))

/-! ## What a graph and its outcomes determine -/

/-- Every job that a job depends on, directly or not, succeeds. -/
def Clear (i : ℕ) : Prop :=
  ∀ j, Relation.TransGen (DependsOn (links nodes)) i j → succeeds outcome j=true

/-- A job that runs and succeeds. -/
def Good (i : ℕ) : Prop := Clear nodes outcome i ∧ succeeds outcome i=true

variable {i : ℕ}

theorem clear_iff {nodes : List (DagNode J)} {outcome : ℕ → Except E (DagCompletion R)} :
    Clear nodes outcome i ↔ ∀ j, DependsOn (links nodes) i j → Good nodes outcome j := by
  constructor
  · intro h j hj
    exact ⟨fun k hk => h k (.head hj hk),h j (.single hj)⟩
  · intro h j hj
    obtain ⟨k,hk,hkj⟩ := Relation.TransGen.head'_iff.1 hj
    obtain rfl | hkj := Relation.reflTransGen_iff_eq_or_transGen.1 hkj
    · exact (h _ hk).2
    · exact (h k hk).1 j hkj

section
open Classical

noncomputable def expectedOutcome (i : ℕ) : Option (DagOutcome R) :=
  if Clear nodes outcome i then
    match outcome i with
    | .ok completion => some (.completed completion.value)
    | .error _ => none
  else some .skipped

noncomputable def expectedError (i : ℕ) : Option E :=
  if Clear nodes outcome i then
    match outcome i with
    | .ok _ => none
    | .error error => some error
  else none

end

/-- What holds while settled nodes release their dependents.  `processed` have released all
of theirs, `current` all but those in `rest`, and those in `terminal` none. -/
structure Settling (state : DagState J R E) (processed : List ℕ) (terminal : List (ℕ × Bool))
    (current : ℕ) (rest : List ℕ) : Prop where
  nodup : (processed++terminal.map Prod.fst++state.running).Nodup
  bound : ∀ i∈processed++terminal.map Prod.fst++state.running, i < nodes.length
  remaining : ∀ i, state.remaining i =
    ((links nodes).getD i []).countP (· ∉ processed)+rest.count i
  ready : ∀ i < nodes.length, state.remaining i=0 ↔
    i∈processed++terminal.map Prod.fst++state.running
  failed : ∀ i, state.failedDependency i=true ↔
    ∃ j, DependsOn (links nodes) i j ∧ j∈processed ∧ ¬ (j=current ∧ i∈rest) ∧
      ¬ Good nodes outcome j
  flags : ∀ entry∈terminal, entry.2=true ↔ Good nodes outcome entry.1
  clear : ∀ i∈state.running, Clear nodes outcome i
  jobs : ∀ i < nodes.length, state.jobs i=none ↔ .started i∈state.history
  outcomes : ∀ i∈processed++terminal.map Prod.fst,
    state.outcomes i=expectedOutcome nodes outcome i
  errors : ∀ i∈processed++terminal.map Prod.fst, state.errors i=expectedError nodes outcome i
  noOutcomes : ∀ i∉processed++terminal.map Prod.fst, state.outcomes i=none
  noErrors : ∀ i∉processed++terminal.map Prod.fst, state.errors i=none
  settled : state.settled=(processed++terminal.map Prod.fst).length
  started : ∀ i, .started i∈state.history ↔
    i∈state.running ∨ i∈processed++terminal.map Prod.fst ∧ Clear nodes outcome i
  finished : ∀ i, .finished i∈state.history ↔
    i∈processed++terminal.map Prod.fst ∧ Clear nodes outcome i
  once : state.history.Nodup
  ordered : ∀ later i earlier, state.history=later++.started i::earlier →
    ∀ j, DependsOn (links nodes) i j → .finished j∈earlier ∧ succeeds outcome j=true

variable {nodes outcome} {state : DagState J R E} {processed : List ℕ} {terminal : List (ℕ × Bool)}
  {current : ℕ} {rest : List ℕ}

/-! ## Releasing one dependent -/

/-- A dependent that waits has not been settled or started. -/
theorem Settling.waiting {d : ℕ}
    (h : Settling nodes outcome state processed terminal current (d::rest))
    (hd : DependsOn (links nodes) d current) :
    d < nodes.length ∧ 0 < state.remaining d ∧
      d∉processed++terminal.map Prod.fst++state.running := by
  have hlt : d < nodes.length := by simpa [links] using length_le_of_dependsOn hd
  have hpos : 0 < state.remaining d := by
    rw [h.remaining,List.count_cons_self]
    omega
  refine ⟨hlt,hpos,fun hmem => ?_⟩
  have := (h.ready d hlt).2 hmem
  omega

/-- The counts and flags after a dependent has been released. -/
def released (succeeded : Bool) (state : DagState J R E) (d : ℕ) : DagState J R E :=
  { state with
    remaining := Function.update state.remaining d (state.remaining d - 1)
    failedDependency := Function.update state.failedDependency d
      (state.failedDependency d || !succeeded) }

section
variable (succeeded : Bool) (state : DagState J R E) (d : ℕ)

@[simp] theorem released_running : (released succeeded state d).running=state.running := rfl
@[simp] theorem released_jobs : (released succeeded state d).jobs=state.jobs := rfl
@[simp] theorem released_history : (released succeeded state d).history=state.history := rfl
@[simp] theorem released_outcomes : (released succeeded state d).outcomes=state.outcomes := rfl
@[simp] theorem released_errors : (released succeeded state d).errors=state.errors := rfl
@[simp] theorem released_settled : (released succeeded state d).settled=state.settled := rfl
@[simp] theorem skip_running : (skip state d).running=state.running := rfl
@[simp] theorem skip_history : (skip state d).history=state.history := rfl
@[simp] theorem skip_errors : (skip state d).errors=state.errors := rfl
@[simp] theorem skip_settled : (skip state d).settled=state.settled+1 := rfl
@[simp] theorem skip_outcomes :
    (skip state d).outcomes=Function.update state.outcomes d (some .skipped) := rfl
@[simp] theorem launch_running : (launch state d).running=state.running++[d] := rfl
@[simp] theorem launch_history : (launch state d).history=.started d::state.history := rfl
@[simp] theorem launch_settled : (launch state d).settled=state.settled := rfl
@[simp] theorem launch_jobs : (launch state d).jobs=Function.update state.jobs d none := rfl

end

theorem settleDependent_eq (succeeded : Bool) (d : ℕ) (hpos : 0 < state.remaining d) :
    settleDependent succeeded state terminal d =
      if state.remaining d≠1 then .ok (released succeeded state d,terminal)
      else if state.failedDependency d || !succeeded then
        .ok (skip (released succeeded state d) d,terminal++[(d,false)])
      else do
        let state ← begin (released succeeded state d) d
        return (state,terminal) := by
  unfold settleDependent
  rw [if_neg (by omega)]
  have hone : state.remaining d - 1≠0 ↔ state.remaining d≠1 := by omega
  simp only [Function.update_self,hone,released]

theorem Settling.remaining_released {d : ℕ}
    (h : Settling nodes outcome state processed terminal current (d::rest)) (succeeded : Bool)
    (i : ℕ) :
    (released succeeded state d).remaining i =
      ((links nodes).getD i []).countP (· ∉ processed)+rest.count i := by
  have hi := h.remaining i
  by_cases hid : i=d
  · subst hid
    rw [List.count_cons_self] at hi
    simp only [released,Function.update_self]
    omega
  · rw [List.count_cons_of_ne (Ne.symm hid)] at hi
    simp only [released,Function.update_of_ne hid]
    exact hi

/-- Nodes other than the released one are as ready as before. -/
theorem released_remaining_of_ne {d : ℕ} {succeeded : Bool} (h : i≠d) :
    (released succeeded state d).remaining i=state.remaining i := by
  simp only [released,Function.update_of_ne h]

/-- The one node that joins the settled and running ones. -/
theorem Settling.ready_released {d : ℕ}
    (h : Settling nodes outcome state processed terminal current (d::rest)) (succeeded : Bool)
    (hone : state.remaining d=1) {joined : List ℕ}
    (hjoined : ∀ i, i∈joined ↔ i=d ∨ i∈processed++terminal.map Prod.fst++state.running)
    (i : ℕ) (hi : i < nodes.length) :
    (released succeeded state d).remaining i=0 ↔ i∈joined := by
  rw [hjoined]
  by_cases hid : i=d
  · subst hid
    simp [released,hone]
  · rw [released_remaining_of_ne hid,h.ready i hi]
    simp [hid]

/-- With nothing left to wait for, every dependency has released its dependents. -/
theorem Settling.processed_of_one {d j : ℕ}
    (h : Settling nodes outcome state processed terminal current (d::rest))
    (hone : state.remaining d=1) (hj : DependsOn (links nodes) d j) : j∈processed := by
  have hcount := h.remaining d
  rw [List.count_cons_self,hone] at hcount
  have hzero : ((links nodes).getD d []).countP (· ∉ processed)=0 := by omega
  simpa using List.countP_eq_zero.1 hzero j hj

section Release
variable {d : ℕ} {succeeded : Bool}
  (h : Settling nodes outcome state processed terminal current (d::rest))
  (hd : DependsOn (links nodes) d current) (hcur : current∈processed) (hnot : d∉rest)
  (hsucc : succeeded=true ↔ Good nodes outcome current)
include h hd hcur hnot hsucc

theorem Settling.failed_released (i : ℕ) :
    (released succeeded state d).failedDependency i=true ↔
      ∃ j, DependsOn (links nodes) i j ∧ j∈processed ∧ ¬ (j=current ∧ i∈rest) ∧
        ¬ Good nodes outcome j := by
  have hi := h.failed i
  by_cases hid : i=d
  · subst hid
    simp only [released,Function.update_self,Bool.or_eq_true,hi,Bool.not_eq_true']
    constructor
    · rintro (⟨j,hj,hmem,-,hbad⟩ | hfalse)
      · exact ⟨j,hj,hmem,fun hboth => hnot hboth.2,hbad⟩
      · refine ⟨current,hd,hcur,fun hboth => hnot hboth.2,?_⟩
        rw [← hsucc,hfalse]
        decide
    · rintro ⟨j,hj,hmem,-,hbad⟩
      by_cases hjc : j=current
      · subst hjc
        exact .inr (by rwa [← hsucc,Bool.not_eq_true] at hbad)
      · exact .inl ⟨j,hj,hmem,fun hboth => hjc hboth.1,hbad⟩
  · simp only [released,Function.update_of_ne hid,hi,List.mem_cons,hid,false_or]

theorem Settling.wait (hone : state.remaining d≠1) :
    Settling nodes outcome (released succeeded state d) processed terminal current rest := by
  obtain ⟨hlt,hpos,hnew⟩ := h.waiting hd
  refine ⟨h.nodup,h.bound,h.remaining_released succeeded,?_,
    h.failed_released hd hcur hnot hsucc,h.flags,h.clear,h.jobs,h.outcomes,h.errors,
    h.noOutcomes,h.noErrors,h.settled,h.started,h.finished,h.once,h.ordered⟩
  intro i hi
  by_cases hid : i=d
  · subst hid
    simp only [released,Function.update_self]
    constructor
    · intro hzero
      omega
    · intro hmem
      exact absurd hmem hnew
  · rw [released_remaining_of_ne hid]
    exact h.ready i hi

/-- With nothing left to wait for, a node is clear just when no dependency failed. -/
theorem Settling.failed_iff_not_clear (hone : state.remaining d=1) :
    (state.failedDependency d || !succeeded)=true ↔ ¬ Clear nodes outcome d := by
  have hfail := h.failed_released hd hcur hnot hsucc d
  simp only [released,Function.update_self] at hfail
  rw [hfail,clear_iff]
  push Not
  constructor
  · rintro ⟨j,hj,-,-,hbad⟩
    exact ⟨j,hj,hbad⟩
  · rintro ⟨j,hj,hbad⟩
    exact ⟨j,hj,h.processed_of_one hone hj,fun _ => hnot,hbad⟩

theorem Settling.skip (hone : state.remaining d=1)
    (hclear : ¬ Clear nodes outcome d) :
    Settling nodes outcome (skip (released succeeded state d) d) processed
      (terminal++[(d,false)]) current rest := by
  obtain ⟨hlt,hpos,hnew⟩ := h.waiting hd
  have hdone : processed++(terminal++[(d,false)]).map Prod.fst =
      processed++terminal.map Prod.fst++[d] := by
    simp
  have hnotDone : d∉processed++terminal.map Prod.fst :=
    fun hmem => hnew (List.mem_append_left _ hmem)
  have hperm : (processed++terminal.map Prod.fst++[d]++state.running).Perm
      (d::(processed++terminal.map Prod.fst++state.running)) := by
    rw [List.append_assoc,List.singleton_append]
    exact List.perm_middle
  have hjoined : ∀ i, i∈processed++terminal.map Prod.fst++[d]++state.running ↔
      i=d ∨ i∈processed++terminal.map Prod.fst++state.running := by
    intro i
    rw [hperm.mem_iff,List.mem_cons]
  have hmemDone : ∀ i, i∈processed++terminal.map Prod.fst++[d] ∧ Clear nodes outcome i ↔
      i∈processed++terminal.map Prod.fst ∧ Clear nodes outcome i := by
    intro i
    rw [List.mem_append,List.mem_singleton,or_and_right]
    refine or_iff_left ?_
    rintro ⟨rfl,hc⟩
    exact hclear hc
  refine ⟨?_,?_,h.remaining_released succeeded,?_,h.failed_released hd hcur hnot hsucc,?_,
    h.clear,h.jobs,?_,?_,?_,?_,?_,?_,?_,h.once,h.ordered⟩
  · rw [hdone,skip_running,released_running,hperm.nodup_iff]
    exact List.nodup_cons.2 ⟨hnew,h.nodup⟩
  · intro i hi
    rw [hdone] at hi
    obtain rfl | hi := (hjoined i).1 hi
    · exact hlt
    · exact h.bound i hi
  · rw [hdone]
    exact h.ready_released succeeded hone hjoined
  · intro entry hentry
    rw [List.mem_append,List.mem_singleton] at hentry
    obtain hentry | rfl := hentry
    · exact h.flags entry hentry
    · simp only [Bool.false_eq_true,false_iff]
      exact fun hgood => hclear hgood.1
  · intro i hi
    rw [hdone,List.mem_append,List.mem_singleton] at hi
    obtain hi | rfl := hi
    · have hne : i≠d := by
        rintro rfl
        exact hnotDone hi
      rw [skip_outcomes,Function.update_of_ne hne]
      exact h.outcomes i hi
    · simp [expectedOutcome,hclear]
  · intro i hi
    rw [hdone,List.mem_append,List.mem_singleton] at hi
    obtain hi | rfl := hi
    · exact h.errors i hi
    · rw [expectedError,if_neg hclear]
      exact h.noErrors i hnotDone
  · intro i hi
    rw [hdone,List.mem_append,List.mem_singleton,not_or] at hi
    rw [skip_outcomes,Function.update_of_ne hi.2]
    exact h.noOutcomes i hi.1
  · intro i hi
    rw [hdone,List.mem_append,not_or] at hi
    exact h.noErrors i hi.1
  · rw [hdone,List.length_append,← h.settled]
    rfl
  · intro i
    rw [hdone,hmemDone]
    exact h.started i
  · intro i
    rw [hdone,hmemDone]
    exact h.finished i

theorem Settling.start (hone : state.remaining d=1)
    (hclear : Clear nodes outcome d) :
    begin (released succeeded state d) d=.ok (launch (released succeeded state d) d) ∧
      Settling nodes outcome (launch (released succeeded state d) d) processed terminal current
        rest := by
  obtain ⟨hlt,hpos,hnew⟩ := h.waiting hd
  have hunstarted : .started d∉state.history := by
    rw [h.started]
    rintro (hmem | ⟨hmem,-⟩)
    · exact hnew (List.mem_append_right _ hmem)
    · exact hnew (List.mem_append_left _ hmem)
  obtain ⟨job,hjob⟩ : ∃ job, state.jobs d=some job :=
    Option.ne_none_iff_exists'.1 fun hnone => hunstarted ((h.jobs d hlt).1 hnone)
  have hready : ∀ j, DependsOn (links nodes) d j →
      .finished j∈state.history ∧ succeeds outcome j=true := by
    intro j hj
    have hgood := clear_iff.1 hclear j hj
    have hmem := h.processed_of_one hone hj
    exact ⟨(h.finished j).2 ⟨List.mem_append_left _ hmem,hgood.1⟩,hgood.2⟩
  have hjoined : ∀ i, i∈processed++terminal.map Prod.fst++(state.running++[d]) ↔
      i=d ∨ i∈processed++terminal.map Prod.fst++state.running := by
    intro i
    rw [← List.append_assoc,(List.perm_append_singleton d _).mem_iff,List.mem_cons]
  refine ⟨by simp only [begin,released,hjob],?_⟩
  refine ⟨?_,?_,h.remaining_released succeeded,?_,h.failed_released hd hcur hnot hsucc,h.flags,
    ?_,?_,h.outcomes,h.errors,h.noOutcomes,h.noErrors,h.settled,?_,?_,?_,?_⟩
  · rw [launch_running,released_running,← List.append_assoc,
      (List.perm_append_singleton d _).nodup_iff]
    exact List.nodup_cons.2 ⟨hnew,h.nodup⟩
  · intro i hi
    obtain rfl | hi := (hjoined i).1 hi
    · exact hlt
    · exact h.bound i hi
  · exact h.ready_released succeeded hone hjoined
  · intro i hi
    rw [launch_running,List.mem_append,List.mem_singleton] at hi
    obtain hi | rfl := hi
    · exact h.clear i hi
    · exact hclear
  · intro i hi
    by_cases hid : i=d
    · subst hid
      simp
    · rw [launch_jobs,Function.update_of_ne hid,launch_history,List.mem_cons]
      simpa [hid] using h.jobs i hi
  · intro i
    rw [launch_history,launch_running,List.mem_cons,released_history,released_running,
      List.mem_append (s := state.running),List.mem_singleton,h.started,Event.started.injEq]
    constructor
    · rintro (rfl | hi | hi)
      · exact .inl (.inr rfl)
      · exact .inl (.inl hi)
      · exact .inr hi
    · rintro ((hi | rfl) | hi)
      · exact .inr (.inl hi)
      · exact .inl rfl
      · exact .inr (.inr hi)
  · intro i
    rw [launch_history,List.mem_cons,released_history,h.finished]
    simp
  · exact List.nodup_cons.2 ⟨hunstarted,h.once⟩
  · intro later i earlier hhist j hj
    obtain ⟨rfl,heq⟩ | ⟨later',rfl,heq⟩ := List.cons_eq_append_iff.1 hhist
    · obtain ⟨heq,rfl⟩ := List.cons.inj heq
      cases heq
      exact hready j hj
    · exact h.ordered later' i earlier heq j hj

theorem Settling.settleDependent :
    ∃ next terminal', DagExecution.settleDependent succeeded state terminal d =
      .ok (next,terminal') ∧ Settling nodes outcome next processed terminal' current rest ∧
      state.settled ≤ next.settled := by
  obtain ⟨-,hpos,-⟩ := h.waiting hd
  rw [settleDependent_eq succeeded d hpos]
  by_cases hone : state.remaining d=1
  · rw [if_neg (not_not.2 hone)]
    have hfail := h.failed_iff_not_clear hd hcur hnot hsucc hone
    by_cases hclear : Clear nodes outcome d
    · rw [if_neg fun hbad => hfail.1 hbad hclear]
      obtain ⟨hnext,hsettling⟩ := h.start hd hcur hnot hsucc hone hclear
      exact ⟨_,terminal,by rw [hnext]; rfl,hsettling,le_rfl⟩
    · rw [if_pos (hfail.2 hclear)]
      exact ⟨_,_,rfl,h.skip hd hcur hnot hsucc hone hclear,Nat.le_succ _⟩
  · rw [if_pos hone]
    exact ⟨_,_,rfl,h.wait hd hcur hnot hsucc hone,le_rfl⟩

end Release

theorem Settling.settleDependents {succeeded : Bool}
    (h : Settling nodes outcome state processed terminal current rest)
    (hrest : ∀ d∈rest, DependsOn (links nodes) d current) (hcur : current∈processed)
    (hnodup : rest.Nodup) (hsucc : succeeded=true ↔ Good nodes outcome current) :
    ∃ next terminal', DagExecution.settleDependents succeeded rest state terminal =
      .ok (next,terminal') ∧ Settling nodes outcome next processed terminal' current [] ∧
      state.settled ≤ next.settled := by
  induction rest generalizing state terminal with
  | nil => exact ⟨state,terminal,rfl,h,le_rfl⟩
  | cons d rest ih =>
    rw [List.nodup_cons] at hnodup
    rw [List.forall_mem_cons] at hrest
    obtain ⟨next,terminal',hnext,hsettling,hle⟩ :=
      h.settleDependent hrest.1 hcur hnodup.1 hsucc
    obtain ⟨last,terminal'',hlast,hfinal,hle'⟩ := ih hsettling hrest.2 hnodup.2
    exact ⟨last,terminal'',by rw [DagExecution.settleDependents,hnext]; exact hlast,hfinal,
      hle.trans hle'⟩

/-! ## Accepted graphs -/

/-- The graphs that the engine accepts. -/
structure Accepted (nodes : List (DagNode J)) : Prop where
  nonempty : nodes≠[]
  ordered : ∀ deps∈links nodes, deps.Pairwise (· < ·)
  inRange : InRange (links nodes)
  acyclic : Acyclic (links nodes)

theorem length_links (nodes : List (DagNode J)) : (links nodes).length=nodes.length :=
  List.length_map _

theorem dependsOn_links {j : ℕ} : DependsOn (links nodes) i j ↔
    ∃ node, nodes[i]?=some node ∧ j∈node.dependencies := by
  rw [dependsOn_iff,links,List.getD_eq_getElem?_getD,List.getElem?_map]
  cases nodes[i]? with
  | none => simp
  | some node => simp

theorem validate_ok : (validate nodes : Attempt E Unit)=.ok () ↔ Accepted nodes := by
  simp only [validate,bind_unit_ok_iff,require_ok_iff,each_ok_iff,validateNode,ascending_lt_iff]
  constructor
  · rintro ⟨hne,heach,horder⟩
    have hnode : ∀ i node, nodes[i]?=some node → node.dependencies.Pairwise (· < ·) ∧
        ∀ d∈node.dependencies, d < nodes.length ∧ d≠i := fun i node hi =>
      heach (node,i) (List.mem_zipIdx_iff_getElem?.2 hi)
    have hrange : InRange (links nodes) := by
      intro i j hij
      obtain ⟨node,hi,hj⟩ := dependsOn_links.1 hij
      rw [length_links]
      exact ((hnode i node hi).2 j hj).1
    refine ⟨hne,?_,hrange,?_⟩
    · intro deps hdeps
      obtain ⟨node,hmem,rfl⟩ := List.mem_map.1 hdeps
      obtain ⟨i,hi⟩ := List.mem_iff_getElem?.1 hmem
      exact (hnode i node hi).1
    · obtain ⟨visited,hvis,hiff⟩ := countOrdered_ok_iff (ε := DagError E) hrange
      rw [hvis] at horder
      obtain ⟨_,hok,hcount⟩ := bind_ok_iff.1 horder
      obtain rfl := Except.ok.inj hok
      rw [require_ok_iff] at hcount
      exact hiff.1 (hcount.trans (length_links nodes).symm)
  · intro h
    obtain ⟨visited,hvis,hiff⟩ := countOrdered_ok_iff (ε := DagError E) h.inRange
    refine ⟨h.nonempty,?_,?_⟩
    · rintro ⟨node,i⟩ hentry
      have hi := List.mem_zipIdx_iff_getElem?.1 hentry
      refine ⟨h.ordered _ (List.mem_map_of_mem (List.mem_of_getElem? hi)),fun d hd => ?_⟩
      have hdepends : DependsOn (links nodes) i d := dependsOn_links.2 ⟨node,hi,hd⟩
      refine ⟨length_links nodes ▸ h.inRange i d hdepends,?_⟩
      rintro rfl
      exact h.acyclic d (.single hdepends)
    · rw [bind_ok_iff]
      refine ⟨visited,hvis,?_⟩
      rw [require_ok_iff,hiff.2 h.acyclic,length_links]

theorem Accepted.nodup (h : Accepted nodes) : ∀ deps∈links nodes, deps.Nodup :=
  fun deps hdeps => (h.ordered deps hdeps).imp fun hlt => Nat.ne_of_lt hlt

/-! ## Whole cascades -/

/-- A settled node starts to release its dependents. -/
theorem Settling.pop {succeeded : Bool} {completed : ℕ}
    (h : Settling nodes outcome state processed ((completed,succeeded)::terminal) current []) :
    Settling nodes outcome state (processed++[completed]) terminal completed
      (dependents (links nodes) completed) := by
  have hsame : processed++((completed,succeeded)::terminal).map Prod.fst =
      processed++[completed]++terminal.map Prod.fst := by
    simp
  have hnew : completed∉processed := by
    have hnodup := h.nodup
    rw [List.map_cons,List.append_assoc,List.nodup_append] at hnodup
    intro hmem
    exact hnodup.2.2 completed hmem completed (by simp) rfl
  obtain ⟨hnodup,hbound,hremaining,hready,hfail,hflags,hclear,hjobs,houts,herrors,hnoOutcomes,
    hnoErrors,hset,hstarted,hfinished,honce,hord⟩ := h
  rw [hsame] at hnodup hbound houts herrors hnoOutcomes hnoErrors hset
  simp only [hsame] at hready hstarted hfinished
  refine ⟨hnodup,hbound,?_,hready,?_,(List.forall_mem_cons.1 hflags).2,hclear,hjobs,houts,
    herrors,hnoOutcomes,hnoErrors,hset,hstarted,hfinished,honce,hord⟩
  · intro i
    rw [hremaining,count_dependents,countP_not_mem_append hnew,List.count_nil,Nat.add_zero]
  · intro i
    rw [hfail]
    constructor
    · rintro ⟨j,hj,hmem,-,hbad⟩
      refine ⟨j,hj,List.mem_append_left _ hmem,?_,hbad⟩
      rintro ⟨rfl,-⟩
      exact hnew hmem
    · rintro ⟨j,hj,hmem,hnot,hbad⟩
      rw [List.mem_append,List.mem_singleton] at hmem
      obtain hmem | rfl := hmem
      · exact ⟨j,hj,hmem,by simp,hbad⟩
      · exact absurd ⟨rfl,mem_dependents.2 hj⟩ hnot

theorem Settling.length_le (h : Settling nodes outcome state processed terminal current rest) :
    (processed++terminal.map Prod.fst++state.running).length ≤ nodes.length := by
  have hsub : (processed++terminal.map Prod.fst++state.running) ⊆ List.range nodes.length := by
    intro i hi
    exact List.mem_range.2 (h.bound i hi)
  have hle := (List.subperm_of_subset h.nodup hsub).length_le
  rwa [List.length_range] at hle

/-- Between two completions no settled node has dependents to release. -/
def Between (nodes : List (DagNode J)) (outcome : ℕ → Except E (DagCompletion R))
    (state : DagState J R E) (processed : List ℕ) : Prop :=
  Settling nodes outcome state processed [] 0 []

theorem Settling.between (h : Settling nodes outcome state processed [] current []) :
    Between nodes outcome state processed :=
  ⟨h.nodup,h.bound,h.remaining,h.ready,by simpa using h.failed,h.flags,h.clear,h.jobs,h.outcomes,
    h.errors,h.noOutcomes,h.noErrors,h.settled,h.started,h.finished,h.once,h.ordered⟩

theorem Settling.cascade {fuel : ℕ} (hacc : Accepted nodes)
    (h : Settling nodes outcome state processed terminal current [])
    (hfuel : nodes.length ≤ fuel+processed.length) :
    ∃ next processed', DagExecution.cascade nodes fuel state terminal=.ok next ∧
      Between nodes outcome next processed' ∧ state.settled ≤ next.settled := by
  induction fuel generalizing state processed terminal current with
  | zero =>
    cases terminal with
    | nil => exact ⟨state,processed,rfl,h.between,le_rfl⟩
    | cons entry terminal =>
      have := h.length_le
      simp only [List.length_append,List.map_cons,List.length_cons] at this
      omega
  | succ fuel ih =>
    cases terminal with
    | nil => exact ⟨state,processed,rfl,h.between,le_rfl⟩
    | cons entry terminal =>
      obtain ⟨completed,succeeded⟩ := entry
      have hflag := h.flags _ List.mem_cons_self
      obtain ⟨next,terminal',hnext,hsettling,hle⟩ := h.pop.settleDependents
        (fun d hd => mem_dependents.1 hd) (by simp) (nodup_dependents hacc.nodup completed) hflag
      obtain ⟨last,processed',hlast,hbtw,hle'⟩ := ih hsettling (by
        rw [List.length_append,List.length_singleton]
        omega)
      refine ⟨last,processed',?_,hbtw,hle.trans hle'⟩
      rw [DagExecution.cascade,hnext]
      exact hlast

/-! ## Completions -/

section
variable (outcome) (state) (index : ℕ)

@[simp] theorem record_remaining : (record outcome state index).remaining=state.remaining := by
  unfold record
  split <;> rfl

@[simp] theorem record_jobs : (record outcome state index).jobs=state.jobs := by
  unfold record
  split <;> rfl

@[simp] theorem record_failedDependency :
    (record outcome state index).failedDependency=state.failedDependency := by
  unfold record
  split <;> rfl

@[simp] theorem record_running :
    (record outcome state index).running=state.running.erase index := by
  unfold record
  split <;> rfl

@[simp] theorem record_settled : (record outcome state index).settled=state.settled+1 := by
  unfold record
  split <;> rfl

@[simp] theorem record_history :
    (record outcome state index).history=.finished index::state.history := by
  unfold record
  split <;> rfl

theorem record_outcomes_of_ne {i : ℕ} (h : i≠index) :
    (record outcome state index).outcomes i=state.outcomes i := by
  unfold record
  split
  · exact Function.update_of_ne h _ _
  · rfl

theorem record_errors_of_ne {i : ℕ} (h : i≠index) :
    (record outcome state index).errors i=state.errors i := by
  unfold record
  split
  · rfl
  · exact Function.update_of_ne h _ _

end

theorem record_outcomes_self {index : ℕ} (hclear : Clear nodes outcome index)
    (hnone : state.outcomes index=none) :
    (record outcome state index).outcomes index=expectedOutcome nodes outcome index := by
  rw [expectedOutcome,if_pos hclear]
  unfold record
  cases outcome index with
  | ok completion => exact Function.update_self _ _ _
  | error error => exact hnone

theorem record_errors_self {index : ℕ} (hclear : Clear nodes outcome index)
    (hnone : state.errors index=none) :
    (record outcome state index).errors index=expectedError nodes outcome index := by
  rw [expectedError,if_pos hclear]
  unfold record
  cases outcome index with
  | ok completion => exact hnone
  | error error => exact Function.update_self _ _ _

/-- A running job completes: it is settled and its dependents wait to hear of it. -/
theorem Between.record {index : ℕ} (h : Between nodes outcome state processed)
    (hindex : index∈state.running) :
    Settling nodes outcome (DagExecution.record outcome state index) processed
      [(index,succeeds outcome index)] 0 [] := by
  have hclear := h.clear index hindex
  obtain ⟨hnodup,hbound,hremaining,hready,hfail,hflags,hrunning,hjobs,houts,herrors,
    hnoOutcomes,hnoErrors,hset,hstarted,hfinished,honce,hord⟩ := h
  simp only [List.map_nil,List.append_nil] at *
  have hperm : (processed++[index]++state.running.erase index).Perm
      (processed++state.running) := by
    rw [List.append_assoc]
    exact (List.perm_cons_erase hindex).symm.append_left processed
  have hnew : index∉processed := by
    intro hmem
    exact (List.nodup_append.1 hnodup).2.2 index hmem index hindex rfl
  have hne : ∀ i∈processed, i≠index := by
    rintro i hi rfl
    exact hnew hi
  have hunfinished : .finished index∉state.history := by
    rw [hfinished]
    exact fun hmem => hnew hmem.1
  have herase : ∀ i, i∈state.running.erase index ↔ i≠index ∧ i∈state.running :=
    fun i => (List.nodup_append.1 hnodup).2.1.mem_erase_iff
  refine ⟨?_,?_,?_,?_,?_,?_,?_,?_,?_,?_,?_,?_,?_,?_,?_,?_,?_⟩
  · rw [List.map_singleton,record_running,hperm.nodup_iff]
    exact hnodup
  · intro i hi
    rw [List.map_singleton,record_running,hperm.mem_iff] at hi
    exact hbound i hi
  · rw [record_remaining]
    exact hremaining
  · intro i hi
    rw [List.map_singleton,record_running,hperm.mem_iff,record_remaining]
    exact hready i hi
  · rw [record_failedDependency]
    exact hfail
  · intro entry hentry
    obtain rfl := List.mem_singleton.1 hentry
    exact ⟨fun hsucceeds => ⟨hclear,hsucceeds⟩,fun hgood => hgood.2⟩
  · intro i hi
    rw [record_running,herase] at hi
    exact hrunning i hi.2
  · intro i hi
    rw [record_jobs,record_history,List.mem_cons]
    simpa using hjobs i hi
  · intro i hi
    rw [List.map_singleton,List.mem_append,List.mem_singleton] at hi
    obtain hi | rfl := hi
    · rw [record_outcomes_of_ne _ _ _ (hne i hi)]
      exact houts i hi
    · exact record_outcomes_self hclear (hnoOutcomes i hnew)
  · intro i hi
    rw [List.map_singleton,List.mem_append,List.mem_singleton] at hi
    obtain hi | rfl := hi
    · rw [record_errors_of_ne _ _ _ (hne i hi)]
      exact herrors i hi
    · exact record_errors_self hclear (hnoErrors i hnew)
  · intro i hi
    rw [List.map_singleton,List.mem_append,List.mem_singleton,not_or] at hi
    rw [record_outcomes_of_ne _ _ _ hi.2]
    exact hnoOutcomes i hi.1
  · intro i hi
    rw [List.map_singleton,List.mem_append,List.mem_singleton,not_or] at hi
    rw [record_errors_of_ne _ _ _ hi.2]
    exact hnoErrors i hi.1
  · rw [record_settled,hset,List.map_singleton,List.length_append,List.length_singleton]
  · intro i
    rw [record_history,record_running,herase,List.map_singleton,List.mem_append,List.mem_singleton,
      List.mem_cons,hstarted]
    by_cases hi : i=index
    · subst hi
      simp [hclear,hindex]
    · simp [hi]
  · intro i
    rw [record_history,List.map_singleton,List.mem_append,List.mem_singleton,List.mem_cons,
      hfinished,Event.finished.injEq]
    by_cases hi : i=index
    · subst hi
      simp [hclear]
    · simp [hi]
  · rw [record_history]
    exact List.nodup_cons.2 ⟨hunfinished,honce⟩
  · intro later i earlier hhist j hj
    rw [record_history] at hhist
    obtain ⟨rfl,heq⟩ | ⟨later',rfl,heq⟩ := List.cons_eq_append_iff.1 hhist
    · cases heq
    · exact hord later' i earlier heq j hj

/-- Whichever running job completes next, the loop goes on. -/
theorem Between.complete {index : ℕ} (hacc : Accepted nodes)
    (h : Between nodes outcome state processed) (hindex : index∈state.running) :
    ∃ next processed', DagExecution.complete outcome nodes state index=.ok next ∧
      Between nodes outcome next processed' ∧ state.settled < next.settled := by
  obtain ⟨next,processed',hnext,hbtw,hle⟩ :=
    (h.record hindex).cascade hacc (Nat.le_add_right nodes.length _)
  rw [record_settled] at hle
  exact ⟨next,processed',hnext,hbtw,hle⟩

end Ash.DagExecution
