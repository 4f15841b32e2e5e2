import Ash.DagRuns

/-! # Results of dependency graphs

Every accepted graph runs to its end, and the order of completions cannot be seen in the
result. -/

namespace Ash.DagExecution
open ParserOutcomes Outcomes DependencyGraphs Relation

variable {J R E : Type} {nodes : List (DagNode J)} {outcome : ℕ → Except E (DagCompletion R)}
  {state : DagState J R E} {processed : List ℕ}

/-! ## The first jobs -/

def launchAll (indices : List ℕ) (state : DagState J R E) : DagState J R E :=
  indices.foldl launch state

/-- Launching touches the jobs, the running ones and the history only. -/
theorem launchAll_eq (indices : List ℕ) (state : DagState J R E) :
    launchAll indices state = { state with
      jobs := fun i => if i∈indices then none else state.jobs i
      running := state.running++indices
      history := (indices.map .started).reverse++state.history } := by
  induction indices generalizing state with
  | nil => simp [launchAll]
  | cons index indices ih =>
    rw [launchAll,List.foldl_cons,← launchAll,ih,launch]
    simp only [List.append_assoc,List.singleton_append,List.map_cons,List.reverse_cons]
    congr 1
    funext i
    by_cases hi : i=index
    · subst hi
      simp
    · simp [hi]

variable {indices : List ℕ} {other : DagState J R E}

theorem beginAll_eq (hnodup : indices.Nodup) (hjobs : ∀ i∈indices, state.jobs i≠none) :
    beginAll indices state=.ok (launchAll indices state) := by
  induction indices generalizing state with
  | nil => rfl
  | cons index indices ih =>
    obtain ⟨hnew,hnodup⟩ := List.nodup_cons.1 hnodup
    obtain ⟨job,hjob⟩ := Option.ne_none_iff_exists'.1 (hjobs index List.mem_cons_self)
    have hbegin : begin state index=.ok (launch state index) := by
      simp only [begin,hjob]
    have hrest : ∀ i∈indices, (launch state index).jobs i≠none := by
      intro i hi
      have hne : i≠index := ne_of_mem_of_not_mem hi hnew
      rw [launch_jobs,Function.update_of_ne hne]
      exact hjobs i (List.mem_cons_of_mem _ hi)
    rw [beginAll,hbegin]
    exact ih hnodup hrest

/-- The nodes that wait for nothing. -/
def roots (nodes : List (DagNode J)) : List ℕ :=
  (List.range nodes.length).filter fun i => ((links nodes).getD i []).length=0

variable {i : ℕ} {final : DagState J R E}

theorem mem_roots : i∈roots nodes ↔ i < nodes.length ∧ (links nodes).getD i []=[] := by
  simp [roots]

theorem clear_of_mem_roots (h : i∈roots nodes) : Clear nodes outcome i := by
  rw [clear_iff]
  intro j hj
  rw [dependsOn_iff,(mem_roots.1 h).2] at hj
  exact absurd hj List.not_mem_nil

theorem between_roots : Between nodes outcome (launchAll (roots nodes) (initial nodes)) [] := by
  have hnodup : (roots nodes).Nodup := List.nodup_range.filter _
  rw [launchAll_eq]
  refine ⟨?_,?_,?_,?_,?_,?_,?_,?_,?_,?_,?_,?_,?_,?_,?_,?_,?_⟩
  · simpa [initial] using hnodup
  · intro i hi
    exact (mem_roots.1 (by simpa [initial] using hi)).1
  · intro i
    simp [initial]
  · intro i hi
    simp [initial,mem_roots,hi]
  · intro i
    simp [initial]
  · simp
  · intro i hi
    exact clear_of_mem_roots (by simpa [initial] using hi)
  · intro i hi
    simp [initial,hi]
  · simp
  · simp
  · simp [initial]
  · simp [initial]
  · simp [initial]
  · intro i
    simp [initial]
  · intro i
    simp [initial]
  · simpa [initial] using hnodup.map fun i j hij => Event.started.inj hij
  · intro later i earlier hhist j hj
    have hroot : i∈roots nodes := by
      simpa [initial] using (congrArg (Event.started i ∈ ·) hhist).mpr (by simp)
    rw [dependsOn_iff,(mem_roots.1 hroot).2] at hj
    exact absurd hj List.not_mem_nil

theorem prepare_eq (hacc : Accepted nodes) :
    (prepare nodes : Attempt E (DagState J R E))=.ok (launchAll (roots nodes) (initial nodes)) := by
  have hjobs : ∀ i∈roots nodes, (initial nodes : DagState J R E).jobs i≠none := by
    intro i hi
    simpa [initial] using (mem_roots.1 hi).1
  have hbegin := beginAll_eq (List.nodup_range.filter _) hjobs
  rw [prepare,bind_unit_ok_iff]
  exact ⟨validate_ok.2 hacc,hbegin⟩

/-! ## Progress -/

theorem Between.mem_processed_or (h : Between nodes outcome state processed) (hi : i < nodes.length)
    (hdone : ∀ j, DependsOn (links nodes) i j → j∈processed) :
    i∈processed ∨ i∈state.running := by
  have hzero : state.remaining i=0 := by
    rw [h.remaining,List.count_nil,Nat.add_zero,List.countP_eq_zero]
    intro j hj
    simpa using hdone j hj
  simpa using (h.ready i hi).1 hzero

/-- While a node is not settled, some job runs. -/
theorem Between.running_ne_nil (hacc : Accepted nodes)
    (h : Between nodes outcome state processed) (hlt : state.settled < nodes.length) :
    state.running≠[] := by
  intro hrunning
  -- with nothing running, settled nodes are closed under everything that depends on them
  have hall : ∀ i, i < nodes.length → i∈processed := by
    intro i
    induction i using (hacc.acyclic.wellFounded hacc.inRange).induction with
    | _ i ih =>
      intro hi
      have hdone : ∀ j, DependsOn (links nodes) i j → j∈processed := by
        intro j hj
        exact ih j hj (length_links nodes ▸ hacc.inRange i j hj)
      obtain hmem | hmem := h.mem_processed_or hi hdone
      · exact hmem
      · rw [hrunning] at hmem
        exact absurd hmem List.not_mem_nil
  have hsub : List.range nodes.length ⊆ processed := by
    intro i hi
    exact hall i (List.mem_range.1 hi)
  have hle := (List.subperm_of_subset List.nodup_range hsub).length_le
  have hset := h.settled
  simp only [List.length_range,List.map_nil,List.append_nil] at hle hset
  omega

theorem Between.settled_le (h : Between nodes outcome state processed) :
    state.settled ≤ nodes.length := by
  have hle := Settling.length_le h
  have hset := h.settled
  rw [List.length_append,← hset] at hle
  omega

/-- When every node is settled, no job runs. -/
theorem Between.all_settled (h : Between nodes outcome state processed)
    (hle : nodes.length ≤ state.settled) :
    state.running=[] ∧ ∀ i, i∈processed ↔ i < nodes.length := by
  have hlen := Settling.length_le h
  have hset := h.settled
  simp only [List.map_nil,List.append_nil,List.length_append] at hlen hset
  have hrunning : state.running=[] := List.length_eq_zero_iff.1 (by omega)
  have hnodup : processed.Nodup := by simpa [hrunning] using h.nodup
  have hbound : ∀ i∈processed, i < nodes.length := by simpa [hrunning] using h.bound
  have hsub : processed ⊆ List.range nodes.length := by
    intro i hi
    exact List.mem_range.2 (hbound i hi)
  have hperm := (List.subperm_of_subset hnodup hsub).perm_of_length_le (by
    rw [List.length_range]
    omega)
  refine ⟨hrunning,fun i => ?_⟩
  rw [hperm.mem_iff,List.mem_range]

/-! ## The loop -/

/-- One turn of the loop that does not return. -/
def Completion (outcome : ℕ → Except E (DagCompletion R)) (nodes : List (DagNode J))
    (state next : DagState J R E) : Prop :=
  state.settled < nodes.length ∧
    ∃ index∈state.running, complete outcome nodes state index=.ok next

section
variable (hacc : Accepted nodes) (h : Between nodes outcome state processed)
include hacc h

theorem Between.completion {next : DagState J R E} (hstep : Completion outcome nodes state next) :
    state.settled < next.settled ∧ ∃ processed', Between nodes outcome next processed' := by
  obtain ⟨-,index,hindex,hcpl⟩ := hstep
  obtain ⟨next',processed',hcpl',hbtw,hlt⟩ := h.complete hacc hindex
  rw [hcpl] at hcpl'
  obtain rfl := Except.ok.inj hcpl'
  exact ⟨hlt,processed',hbtw⟩

theorem Between.completions {next : DagState J R E}
    (hrun : ReflTransGen (Completion outcome nodes) state next) :
    ∃ processed', Between nodes outcome next processed' := by
  induction hrun with
  | refl => exact ⟨processed,h⟩
  | tail _ hstep ih =>
    obtain ⟨processed',hbtw⟩ := ih
    exact (hbtw.completion hacc hstep).2

theorem Between.exists_loop : ∃ final result, Loop outcome nodes state final result := by
  induction hleft : nodes.length - state.settled using Nat.strong_induction_on
    generalizing state processed with
  | _ left ih =>
    by_cases hlt : state.settled < nodes.length
    · obtain ⟨index,hindex⟩ := List.exists_mem_of_ne_nil _ (h.running_ne_nil hacc hlt)
      obtain ⟨next,processed',hcpl,hbtw,hmore⟩ := h.complete hacc hindex
      obtain ⟨final,result,hloop⟩ := ih _ (by omega) hbtw rfl
      exact ⟨final,result,.next hlt hindex hcpl hloop⟩
    · exact ⟨state,_,.settled (by omega)⟩

/-- The loop returns only when every node is settled. -/
theorem Between.loop {result : Attempt E (List (DagOutcome R))}
    (hloop : Loop outcome nodes state final result) :
    nodes.length ≤ final.settled ∧ result=finish nodes final ∧
      ∃ processed', Between nodes outcome final processed' := by
  induction hloop generalizing processed with
  | settled hle => exact ⟨hle,rfl,processed,h⟩
  | empty hlt hrunning => exact absurd hrunning (h.running_ne_nil hacc hlt)
  | fault hlt hindex hcpl =>
    obtain ⟨next,processed',hcpl',-,-⟩ := h.complete hacc hindex
    rw [hcpl] at hcpl'
    cases hcpl'
  | next hlt hindex hcpl _ ih =>
    obtain ⟨-,processed',hbtw⟩ := h.completion hacc ⟨hlt,_,hindex,hcpl⟩
    exact ih hbtw

end

/-! ## Results -/

theorem collect_ok (h : ∀ i∈indices, state.outcomes i≠none) :
    ∃ outcomes, (collect state indices : Attempt E (List (DagOutcome R)))=.ok outcomes ∧
      outcomes.map some=indices.map state.outcomes := by
  induction indices with
  | nil => exact ⟨[],rfl,rfl⟩
  | cons index indices ih =>
    obtain ⟨first,hfirst⟩ := Option.ne_none_iff_exists'.1 (h index List.mem_cons_self)
    obtain ⟨outcomes,hcoll,hmap⟩ := ih fun i hi => h i (List.mem_cons_of_mem _ hi)
    refine ⟨first::outcomes,?_,?_⟩
    · simp only [collect,hfirst,hcoll]
      rfl
    · rw [List.map_cons,List.map_cons,hmap,hfirst]

theorem collect_congr (h : ∀ i∈indices, state.outcomes i=other.outcomes i) :
    (collect state indices : Attempt E (List (DagOutcome R)))=collect other indices := by
  induction indices with
  | nil => rfl
  | cons index indices ih =>
    rw [collect,collect,h index List.mem_cons_self,ih fun i hi => h i (List.mem_cons_of_mem _ hi)]

theorem finish_congr (houts : ∀ i < nodes.length, state.outcomes i=other.outcomes i)
    (herrors : ∀ i < nodes.length, state.errors i=other.errors i) :
    finish nodes state=finish nodes other := by
  have hfirst : (List.range nodes.length).findSome? state.errors =
      (List.range nodes.length).findSome? other.errors := by
    rw [← List.head?_filterMap,← List.head?_filterMap]
    congr 1
    exact List.filterMap_congr fun i hi => herrors i (List.mem_range.1 hi)
  rw [finish,finish,hfirst,collect_congr fun i hi => houts i (List.mem_range.1 hi)]

/-- The first error of a range is the one with the lowest index. -/
theorem findSome?_range {n : ℕ} {errors : ℕ → Option E} {error : E} (hi : i < n)
    (herror : errors i=some error) (hbefore : ∀ j < i, errors j=none) :
    (List.range n).findSome? errors=some error := by
  induction n with
  | zero => exact absurd hi (Nat.not_lt_zero i)
  | succ n ih =>
    rw [List.range_succ,List.findSome?_append]
    obtain hlt | rfl := Nat.lt_succ_iff_lt_or_eq.1 hi
    · rw [ih hlt,Option.some_or]
    · have hnone : (List.range i).findSome? errors=none := by
        rw [List.findSome?_eq_none_iff]
        intro j hj
        exact hbefore j (List.mem_range.1 hj)
      rw [hnone,Option.none_or,List.findSome?_singleton,herror]

/-- What an execution that returned has done, and what it returned. -/
structure Conforms (outcome : ℕ → Except E (DagCompletion R)) (nodes : List (DagNode J))
    (final : DagState J R E) (result : Attempt E (List (DagOutcome R))) : Prop where
  valid : result≠.fail .invalidGraph
  once : ∀ i, final.history.count (.started i) ≤ 1
  ordered : ∀ later i earlier, final.history=later++.started i::earlier →
    ∀ j, DependsOn (links nodes) i j → .finished j∈earlier ∧ succeeds outcome j=true
  completed : ∀ i < nodes.length, ∀ value, final.outcomes i=some (.completed value) ↔
    .started i∈final.history ∧ ∃ completion, outcome i=.ok completion ∧ completion.value=value
  skipped : ∀ i < nodes.length, final.outcomes i=some .skipped ↔
    ∃ j, TransGen (DependsOn (links nodes)) i j ∧
      ¬ (.started j∈final.history ∧ succeeds outcome j=true)
  drained : final.running=[] ∧
    ∀ i, .started i∈final.history → .finished i∈final.history
  outcomes : (∀ i, .started i∈final.history → ∃ completion, outcome i=.ok completion) →
    ∃ outcomes, result=.ok outcomes ∧
      outcomes.map some=(List.range nodes.length).map final.outcomes
  error : ∀ i error, .started i∈final.history → outcome i=.error error →
    (∀ j < i, .started j∈final.history → ∃ completion, outcome j=.ok completion) →
    result=.fail (.task error)

/-- The end of an execution: every node is settled. -/
structure Settled (outcome : ℕ → Except E (DagCompletion R)) (nodes : List (DagNode J))
    (final : DagState J R E) : Prop where
  running : final.running=[]
  outcomes : ∀ i < nodes.length, final.outcomes i=expectedOutcome nodes outcome i
  errors : ∀ i < nodes.length, final.errors i=expectedError nodes outcome i
  started : ∀ i, .started i∈final.history ↔ i < nodes.length ∧ Clear nodes outcome i
  finished : ∀ i, .finished i∈final.history ↔ i < nodes.length ∧ Clear nodes outcome i
  once : final.history.Nodup
  ordered : ∀ later i earlier, final.history=later++.started i::earlier →
    ∀ j, DependsOn (links nodes) i j → .finished j∈earlier ∧ succeeds outcome j=true

theorem Between.settled_of_le (h : Between nodes outcome state processed)
    (hle : nodes.length ≤ state.settled) : Settled outcome nodes state := by
  obtain ⟨hrunning,hall⟩ := h.all_settled hle
  have hprocessed : ∀ i < nodes.length, i∈processed++([] : List (ℕ × Bool)).map Prod.fst := by
    intro i hi
    simpa using (hall i).2 hi
  refine ⟨hrunning,fun i hi => h.outcomes i (hprocessed i hi),fun i hi => h.errors i (hprocessed i hi),
    ?_,?_,h.once,h.ordered⟩
  · intro i
    rw [h.started,hrunning]
    simp [hall]
  · intro i
    rw [h.finished]
    simp [hall]

theorem ExecuteDag.settled {result : Attempt E (List (DagOutcome R))} (hacc : Accepted nodes)
    (h : ExecuteDag outcome nodes final result) :
    Settled outcome nodes final ∧ result=finish nodes final := by
  cases h with
  | rejected hprep =>
    rw [prepare_eq hacc] at hprep
    cases hprep
  | accepted hprep hloop =>
    rw [prepare_eq hacc] at hprep
    obtain rfl := Except.ok.inj hprep
    obtain ⟨hle,hres,processed,hbtw⟩ := between_roots.loop hacc hloop
    exact ⟨hbtw.settled_of_le hle,hres⟩

theorem Accepted.exists_execution (hacc : Accepted nodes)
    (outcome : ℕ → Except E (DagCompletion R)) :
    ∃ final result, ExecuteDag outcome nodes final result := by
  obtain ⟨final,result,hloop⟩ := between_roots.exists_loop hacc
  exact ⟨final,result,.accepted (prepare_eq hacc) hloop⟩

/-- Some job is never kept from running. -/
theorem Settled.exists_started (h : Settled outcome nodes final) (hacc : Accepted nodes) :
    ∃ i, .started i∈final.history := by
  have hpos : 0 < nodes.length := List.length_pos_iff.2 hacc.nonempty
  have hbtw : Between nodes outcome (launchAll (roots nodes) (initial nodes)) [] :=
    between_roots
  have hroots : roots nodes≠[] := by
    have hrunning := hbtw.running_ne_nil hacc
    rw [launchAll_eq] at hrunning
    simpa [initial] using hrunning (by simpa [initial] using hpos)
  obtain ⟨i,hi⟩ := List.exists_mem_of_ne_nil _ hroots
  exact ⟨i,(h.started i).2 ⟨(mem_roots.1 hi).1,clear_of_mem_roots hi⟩⟩

theorem expectedOutcome_eq_completed {value : R} :
    expectedOutcome nodes outcome i=some (.completed value) ↔
      Clear nodes outcome i ∧ ∃ completion, outcome i=.ok completion ∧ completion.value=value := by
  unfold expectedOutcome
  by_cases hclear : Clear nodes outcome i
  · cases hout : outcome i with
    | ok completion => simp [hclear]
    | error error => simp [hclear]
  · simp [hclear]

theorem expectedOutcome_eq_skipped :
    expectedOutcome nodes outcome i=some .skipped ↔ ¬ Clear nodes outcome i := by
  unfold expectedOutcome
  by_cases hclear : Clear nodes outcome i
  · cases hout : outcome i with
    | ok completion => simp [hclear]
    | error error => simp [hclear]
  · simp [hclear]

theorem expectedError_eq_some {error : E} :
    expectedError nodes outcome i=some error ↔
      Clear nodes outcome i ∧ outcome i=.error error := by
  unfold expectedError
  by_cases hclear : Clear nodes outcome i
  · cases hout : outcome i with
    | ok completion => simp [hclear]
    | error error => simp [hclear]
  · simp [hclear]

theorem expectedOutcome_ne_none (h : expectedError nodes outcome i=none) :
    expectedOutcome nodes outcome i≠none := by
  unfold expectedOutcome
  unfold expectedError at h
  by_cases hclear : Clear nodes outcome i
  · cases hout : outcome i with
    | ok completion => simp [hclear]
    | error error => simp [hclear,hout] at h
  · simp [hclear]

/-- A job is kept from running just by dependencies that did not run to success. -/
theorem not_clear_iff (hacc : Accepted nodes) :
    ¬ Clear nodes outcome i ↔ ∃ j, TransGen (DependsOn (links nodes)) i j ∧
      ¬ ((j < nodes.length ∧ Clear nodes outcome j) ∧ succeeds outcome j=true) := by
  constructor
  · intro h
    unfold Clear at h
    push Not at h
    obtain ⟨j,hj,hfails⟩ := h
    exact ⟨j,hj,fun hgood => hfails hgood.2⟩
  · rintro ⟨j,hj,hbad⟩ hclear
    refine hbad ⟨⟨?_,fun k hk => hclear k (hj.trans hk)⟩,hclear j hj⟩
    obtain ⟨k,-,hlast⟩ := TransGen.tail'_iff.1 hj
    exact length_links nodes ▸ hacc.inRange k j hlast

theorem Settled.errors_eq_none (h : Settled outcome nodes final) (hi : i < nodes.length)
    (hok : .started i∈final.history → ∃ completion, outcome i=.ok completion) :
    final.errors i=none := by
  rw [h.errors i hi,Option.eq_none_iff_forall_ne_some]
  intro error herror
  obtain ⟨hclear,herror⟩ := expectedError_eq_some.1 herror
  obtain ⟨completion,hcompletion⟩ := hok ((h.started i).2 ⟨hi,hclear⟩)
  rw [herror] at hcompletion
  cases hcompletion

theorem Settled.finish_ok (h : Settled outcome nodes final)
    (hnone : ∀ i < nodes.length, final.errors i=none) :
    ∃ outcomes, finish nodes final=.ok outcomes ∧
      outcomes.map some=(List.range nodes.length).map final.outcomes := by
  have hfirst : (List.range nodes.length).findSome? final.errors=none := by
    rw [List.findSome?_eq_none_iff]
    intro i hi
    exact hnone i (List.mem_range.1 hi)
  have hsome : ∀ i∈List.range nodes.length, final.outcomes i≠none := by
    intro i hi
    have hlt := List.mem_range.1 hi
    rw [h.outcomes i hlt]
    exact expectedOutcome_ne_none (h.errors i hlt ▸ hnone i hlt)
  obtain ⟨outcomes,hcoll,hmap⟩ := collect_ok hsome
  refine ⟨outcomes,?_,hmap⟩
  rw [finish,hfirst]
  exact hcoll

theorem Settled.finish_ne_invalidGraph (h : Settled outcome nodes final) :
    finish nodes final≠.fail .invalidGraph := by
  cases hfirst : (List.range nodes.length).findSome? final.errors with
  | some error =>
    intro hfin
    simp only [finish,hfirst,Fallible.fail,Except.error.injEq,Fault.error.injEq] at hfin
    cases hfin
  | none =>
    rw [List.findSome?_eq_none_iff] at hfirst
    obtain ⟨outcomes,hok,-⟩ := h.finish_ok fun i hi => hfirst i (List.mem_range.2 hi)
    rw [hok]
    rintro ⟨⟩

theorem Settled.conforms (hacc : Accepted nodes) (h : Settled outcome nodes final) :
    Conforms outcome nodes final (finish nodes final) where
  valid := h.finish_ne_invalidGraph
  once i := List.nodup_iff_count_le_one.1 h.once _
  ordered := h.ordered
  completed i hi value := by
    rw [h.outcomes i hi,expectedOutcome_eq_completed,h.started]
    simp only [hi,true_and]
  skipped i hi := by
    rw [h.outcomes i hi,expectedOutcome_eq_skipped,not_clear_iff hacc]
    simp only [h.started]
  drained := by
    refine ⟨h.running,fun i hi => ?_⟩
    rw [h.finished]
    exact (h.started i).1 hi
  outcomes hok := h.finish_ok fun i hi => h.errors_eq_none hi (hok i)
  error i error hstarted herror hbefore := by
    obtain ⟨hi,hclear⟩ := (h.started i).1 hstarted
    have hsome : final.errors i=some error := by
      rw [h.errors i hi]
      exact expectedError_eq_some.2 ⟨hclear,herror⟩
    have hnone : ∀ j < i, final.errors j=none := by
      intro j hj
      exact h.errors_eq_none (hj.trans hi) (hbefore j hj)
    rw [finish,findSome?_range hi hsome hnone]

/-- Every execution of an accepted graph returns, does what the dependencies allow, and
returns the same whatever the order of completions. -/
theorem executeDag_conforms (nodes : List (DagNode J)) (outcome : ℕ → Except E (DagCompletion R))
    (hvalid : (validate nodes : Attempt E Unit)=.ok ()) :
    (∃ start, prepare nodes=.ok start ∧
      ∀ state, ReflTransGen (Completion outcome nodes) start state →
        (∀ next, Completion outcome nodes state next →
          state.settled < next.settled ∧ next.settled ≤ nodes.length) ∧
        ∃ final result, Loop outcome nodes state final result) ∧
    (∀ final result, ExecuteDag outcome nodes final result →
      Conforms outcome nodes final result) ∧
    ∀ final final' result result', ExecuteDag outcome nodes final result →
      ExecuteDag outcome nodes final' result' → result=result' := by
  have hacc := validate_ok.1 hvalid
  refine ⟨⟨_,prepare_eq hacc,?_⟩,?_,?_⟩
  · intro state hrun
    obtain ⟨processed,hbtw⟩ := between_roots.completions hacc hrun
    refine ⟨fun next hstep => ?_,hbtw.exists_loop hacc⟩
    obtain ⟨hlt,processed',hnext⟩ := hbtw.completion hacc hstep
    exact ⟨hlt,hnext.settled_le⟩
  · intro final result h
    obtain ⟨hset,rfl⟩ := h.settled hacc
    exact hset.conforms hacc
  · intro final final' result result' h h'
    obtain ⟨hset,rfl⟩ := h.settled hacc
    obtain ⟨hsettled',rfl⟩ := h'.settled hacc
    refine finish_congr (fun i hi => ?_) (fun i hi => ?_)
    · rw [hset.outcomes i hi,hsettled'.outcomes i hi]
    · rw [hset.errors i hi,hsettled'.errors i hi]

/-- A job, and one that waits for it. -/
def pair : List (DagNode Unit) := [⟨[],()⟩,⟨[0],()⟩]

theorem executeDag_conforms_pair : (validate pair : Attempt String Unit)=.ok () ∧
    ∃ (final : DagState Unit ℕ String) (result : Attempt String (List (DagOutcome ℕ))),
      ExecuteDag (fun _ => .error "lost") pair final result ∧
        Conforms (fun _ => .error "lost") pair final result := by
  have hvalid : (validate pair : Attempt String Unit)=.ok () := rfl
  obtain ⟨⟨start,hprep,hruns⟩,hconforms,-⟩ :=
    executeDag_conforms (R := ℕ) pair (fun _ => .error "lost") hvalid
  obtain ⟨-,final,result,hloop⟩ := hruns start .refl
  have hexec := ExecuteDag.accepted hprep hloop
  exact ⟨hvalid,final,result,hexec,hconforms final result hexec⟩

end Ash.DagExecution
