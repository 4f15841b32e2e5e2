import Ash.ParserOutcomes
import Mathlib.Data.List.GetD
import Mathlib.Order.Preorder.Finite

/-! # Dependency graphs

Nodes by index, each with the list of nodes it depends on.  A queue sweep takes the nodes
whose dependencies have all been taken; it takes every node just when there is no cycle. -/

namespace Ash.DependencyGraphs
open ParserOutcomes

/-- One node depends on another. -/
def DependsOn (links : List (List ℕ)) (i j : ℕ) : Prop := j∈links.getD i []

variable {i j : ℕ} {done : List ℕ} {incoming : ℕ → ℕ} {ε : Type}

theorem dependsOn_iff {links : List (List ℕ)} :
    DependsOn links i j ↔ j∈links.getD i [] := Iff.rfl

def Acyclic (links : List (List ℕ)) : Prop := ∀ i, ¬ Relation.TransGen (DependsOn links) i i

def InRange (links : List (List ℕ)) : Prop := ∀ i j, DependsOn links i j → j < links.length

/-- The nodes that depend on a node, once for each time they name it. -/
def dependents (links : List (List ℕ)) (j : ℕ) : List ℕ :=
  (List.range links.length).flatMap fun i => List.replicate ((links.getD i []).count j) i

/-- Counting down the nodes that waited: those that wait for nothing more join the queue.
There is no result where a count would fall below zero. -/
def release (incoming : ℕ → ℕ) (ready : List ℕ) : List ℕ → Option ((ℕ → ℕ) × List ℕ)
  | [] => some (incoming,ready)
  | d::ds =>
      if incoming d=0 then none
      else
        let incoming' := Function.update incoming d (incoming d - 1)
        release incoming' (if incoming' d=0 then ready++[d] else ready) ds

def sweep {ε : Type} (links : List (List ℕ)) : ℕ → (ℕ → ℕ) → List ℕ → ℕ → Fallible ε ℕ
  | _, _, [], visited => .ok visited
  | 0, _, _::_, _ => .error .outOfFuel
  | fuel+1, incoming, index::ready, visited =>
      match release incoming ready (dependents links index) with
      | none => .error .panic
      | some (incoming,ready) => sweep links fuel incoming ready (visited+1)

/-- The number of nodes that the sweep takes. -/
def countOrdered {ε : Type} (links : List (List ℕ)) : Fallible ε ℕ :=
  sweep links links.length (fun i => (links.getD i []).length)
    ((List.range links.length).filter fun i => (links.getD i []).length=0) 0

/-! ## One step -/

private theorem count_flatMap_replicate (c : ℕ → ℕ) (i : ℕ) {items : List ℕ} (h : items.Nodup) :
    (items.flatMap fun k => List.replicate (c k) k).count i=if i∈items then c i else 0 := by
  induction items with
  | nil => simp
  | cons k items ih =>
    rw [List.nodup_cons] at h
    rw [List.flatMap_cons,List.count_append,ih h.2,List.count_replicate]
    by_cases hk : k=i
    · subst hk
      simp [h.1]
    · simp [hk,Ne.symm hk]

theorem length_le_of_dependsOn {links : List (List ℕ)} (h : DependsOn links i j) :
    i < links.length := by
  by_contra hge
  rw [dependsOn_iff,List.getD_eq_default _ _ (Nat.le_of_not_lt hge)] at h
  cases h

theorem count_dependents (links : List (List ℕ)) (i j : ℕ) :
    (dependents links j).count i=(links.getD i []).count j := by
  rw [dependents,count_flatMap_replicate _ i List.nodup_range]
  split
  · rfl
  · next h =>
    rw [List.mem_range,Nat.not_lt] at h
    rw [List.getD_eq_default _ _ h,List.count_nil]

theorem mem_dependents {links : List (List ℕ)} : i∈dependents links j ↔ DependsOn links i j := by
  rw [← List.count_pos_iff,count_dependents,List.count_pos_iff,DependsOn]

theorem nodup_dependents {links : List (List ℕ)} (h : ∀ deps∈links, deps.Nodup) (j : ℕ) :
    (dependents links j).Nodup := by
  rw [List.nodup_iff_count_le_one]
  intro i
  rw [count_dependents]
  by_cases hi : i < links.length
  · rw [List.getD_eq_getElem _ _ hi]
    exact List.nodup_iff_count_le_one.1 (h _ (List.getElem_mem hi)) j
  · rw [List.getD_eq_default _ _ (Nat.le_of_not_lt hi),List.count_nil]
    omega

/-- Counting down by as much as was counted never falls below zero. -/
theorem release_eq (ds : List ℕ) (incoming : ℕ → ℕ) (ready : List ℕ)
    (h : ∀ d, ds.count d ≤ incoming d) :
    ∃ fresh, release incoming ready ds=some (fun d => incoming d - ds.count d,ready++fresh) ∧
      fresh.Nodup ∧ ∀ d, d∈fresh ↔ d∈ds ∧ incoming d=ds.count d := by
  induction ds generalizing incoming ready with
  | nil => exact ⟨[],by simp [release],List.nodup_nil,by simp⟩
  | cons d ds ih =>
    have hd : ds.count d+1 ≤ incoming d := by simpa using h d
    have hupdate : ∀ e, Function.update incoming d (incoming d - 1) e =
        incoming e - if d=e then 1 else 0 := by
      intro e
      by_cases he : d=e
      · subst he
        simp
      · rw [Function.update_of_ne (Ne.symm he),if_neg he,Nat.sub_zero]
    have hcount : ∀ e, (d::ds).count e=ds.count e+if d=e then 1 else 0 := by
      intro e
      rw [List.count_cons]
      simp
    have hrest : ∀ e, ds.count e ≤ Function.update incoming d (incoming d - 1) e := by
      intro e
      have he := h e
      rw [hcount] at he
      rw [hupdate]
      omega
    rw [release,if_neg (by omega)]
    obtain ⟨fresh,hrun,hnodup,hfresh⟩ := ih _
      (if Function.update incoming d (incoming d - 1) d=0 then ready++[d] else ready) hrest
    have hafter : (fun e => Function.update incoming d (incoming d - 1) e - ds.count e) =
        fun e => incoming e - (d::ds).count e := by
      funext e
      rw [hupdate,hcount]
      omega
    rw [hafter] at hrun
    by_cases hone : incoming d=1
    · have hno : d∉ds := List.count_eq_zero.1 (by omega)
      refine ⟨d::fresh,?_,List.nodup_cons.2 ⟨fun hmem => hno ((hfresh d).1 hmem).1,hnodup⟩,?_⟩
      · simpa [hone] using hrun
      · intro e
        rw [List.mem_cons,hfresh,hupdate,hcount,List.mem_cons]
        by_cases he : d=e
        · subst he
          simp [hone,List.count_eq_zero.2 hno]
        · simp [he,Ne.symm he]
    · refine ⟨fresh,?_,hnodup,?_⟩
      · rw [Function.update_self,if_neg (by omega)] at hrun
        simpa [Function.update_self,show ¬ incoming d - 1=0 by omega] using hrun
      · intro e
        rw [hfresh,hupdate,hcount,List.mem_cons]
        by_cases he : d=e
        · subst he
          rw [if_pos rfl]
          constructor
          · rintro ⟨-,heq⟩
            exact ⟨.inl rfl,by omega⟩
          · rintro ⟨-,heq⟩
            exact ⟨List.count_pos_iff.1 (by omega),by omega⟩
        · simp [he,Ne.symm he]

/-- What the sweep has done: the nodes taken so far, in order, the queue and the counts. -/
structure Swept (links : List (List ℕ)) (done ready : List ℕ) (incoming : ℕ → ℕ) : Prop where
  nodup : (done++ready).Nodup
  bound : ∀ i∈done++ready, i < links.length
  waiting : ∀ i, incoming i=(links.getD i []).countP (· ∉ done)
  settled : ∀ i < links.length, incoming i=0 ↔ i∈done++ready
  acc : ∀ i∈done, Acc (fun j i => DependsOn links i j) i

theorem swept_initial (links : List (List ℕ)) :
    Swept links [] ((List.range links.length).filter fun i => (links.getD i []).length=0)
      (fun i => (links.getD i []).length) where
  nodup := List.nodup_range.filter _
  bound i hi := by
    rw [List.nil_append,List.mem_filter,List.mem_range] at hi
    exact hi.1
  waiting i := by simp
  settled i hi := by simp [hi]
  acc i hi := by cases hi

theorem countP_not_mem_append {index : ℕ} (h : index∉done) (deps : List ℕ) :
    deps.countP (· ∉ done++[index])+deps.count index=deps.countP (· ∉ done) := by
  induction deps with
  | nil => rfl
  | cons d deps ih =>
    rw [List.countP_cons,List.countP_cons,List.count_cons]
    by_cases hd : d=index
    · subst hd
      simp only [List.mem_append,List.mem_singleton,or_true,not_true,decide_false,
        Bool.false_eq_true,if_false,beq_self_eq_true,if_true,h,not_false_eq_true,decide_true]
      simp only [List.mem_append,List.mem_singleton] at ih
      omega
    · simp only [List.mem_append,List.mem_singleton,hd,or_false,beq_iff_eq,if_false]
      simp only [List.mem_append,List.mem_singleton] at ih
      omega

/-- A node at the head of the queue has all its dependencies taken. -/
theorem Swept.dependencies_done {links : List (List ℕ)} {ready : List ℕ}
    (h : Swept links done ready incoming) (hi : i < links.length) (hmem : i∈done++ready)
    (hj : DependsOn links i j) : j∈done := by
  have hzero := (h.settled i hi).2 hmem
  rw [h.waiting,List.countP_eq_zero] at hzero
  simpa using hzero j hj

theorem Swept.step {links : List (List ℕ)} {done ready : List ℕ} {index : ℕ} {incoming : ℕ → ℕ}
    (h : Swept links done (index::ready) incoming) :
    ∃ incoming' ready', release incoming ready (dependents links index) =
      some (incoming',ready') ∧ Swept links (done++[index]) ready' incoming' := by
  have hindex : index∉done := by
    intro hmem
    exact (List.nodup_append.1 h.nodup).2.2 index hmem index List.mem_cons_self rfl
  have hsplit : ∀ i, (links.getD i []).countP (· ∉ done++[index]) +
      (dependents links index).count i=incoming i := by
    intro i
    rw [count_dependents,h.waiting,countP_not_mem_append hindex]
  obtain ⟨fresh,hrun,hnodup,hfresh⟩ := release_eq (dependents links index) incoming ready
    fun d => by have := hsplit d; omega
  refine ⟨_,_,hrun,?_⟩
  have hnew : ∀ i∈fresh, i < links.length ∧ 0 < incoming i := by
    intro i hi
    obtain ⟨hmem,hcount⟩ := (hfresh i).1 hi
    have hpos : 0 < (dependents links index).count i := List.count_pos_iff.2 hmem
    refine ⟨length_le_of_dependsOn (j := index) ?_,hcount ▸ hpos⟩
    rw [count_dependents] at hpos
    exact List.count_pos_iff.1 hpos
  have hregroup : done++[index]++(ready++fresh)=(done++index::ready)++fresh := by
    simp
  refine ⟨?_,?_,?_,?_,?_⟩
  · rw [hregroup,List.nodup_append]
    refine ⟨h.nodup,hnodup,?_⟩
    rintro i hold _ hi rfl
    have hzero := (h.settled i (hnew i hi).1).2 hold
    have hpos := (hnew i hi).2
    omega
  · intro i hi
    rw [hregroup,List.mem_append] at hi
    exact hi.elim (h.bound i) fun hmem => (hnew i hmem).1
  · intro i
    have := hsplit i
    change incoming i - (dependents links index).count i=_
    omega
  · intro i hi
    rw [hregroup,List.mem_append,← h.settled i hi,hfresh]
    have := hsplit i
    constructor
    · intro hzero
      by_cases hinc : incoming i=0
      · exact .inl hinc
      · exact .inr ⟨List.count_pos_iff.1 (by omega),by omega⟩
    · rintro (hzero | ⟨-,heq⟩) <;> omega
  · intro i hi
    rw [List.mem_append,List.mem_singleton] at hi
    rcases hi with hi | rfl
    · exact h.acc i hi
    · have hmem : i∈done++i::ready := by simp
      exact Acc.intro i fun j hj => h.acc j (h.dependencies_done (h.bound i hmem) hmem hj)

/-! ## Whole sweeps -/

theorem Swept.length_le {links : List (List ℕ)} {ready : List ℕ}
    (h : Swept links done ready incoming) : (done++ready).length ≤ links.length := by
  have hsub : (done++ready).toFinset ⊆ Finset.range links.length := by
    intro i hi
    exact Finset.mem_range.2 (h.bound i (List.mem_toFinset.1 hi))
  have hcard := Finset.card_le_card hsub
  rwa [List.toFinset_card_of_nodup h.nodup,Finset.card_range] at hcard

theorem Swept.sweep {links : List (List ℕ)} {fuel : ℕ} {ready : List ℕ}
    (h : Swept links done ready incoming) (hfuel : links.length ≤ fuel+done.length) :
    ∃ done' incoming', (DependencyGraphs.sweep links fuel incoming ready done.length :
      Fallible ε ℕ)=.ok done'.length ∧ Swept links done' [] incoming' := by
  induction fuel generalizing done ready incoming with
  | zero =>
    cases ready with
    | nil => exact ⟨done,incoming,rfl,h⟩
    | cons index ready =>
      have := h.length_le
      simp only [List.length_append,List.length_cons] at this
      omega
  | succ fuel ih =>
    cases ready with
    | nil => exact ⟨done,incoming,rfl,h⟩
    | cons index ready =>
      obtain ⟨incoming',ready',hrun,hswept⟩ := h.step
      have hlen : (done++[index]).length=done.length+1 := by simp
      obtain ⟨done',last,hok,hlast⟩ := ih hswept (by omega)
      refine ⟨done',last,?_,hlast⟩
      rw [DependencyGraphs.sweep,hrun,← hlen]
      exact hok

theorem countOrdered_eq (links : List (List ℕ)) :
    ∃ done incoming, (countOrdered links : Fallible ε ℕ)=.ok done.length ∧
      Swept links done [] incoming :=
  (swept_initial links).sweep (by simp)

theorem Swept.length_eq_iff {links : List (List ℕ)} (h : Swept links done [] incoming) :
    done.length=links.length ↔ ∀ i < links.length, i∈done := by
  have hnodup : done.Nodup := by simpa using h.nodup
  have hbound : ∀ i∈done, i < links.length := by simpa using h.bound
  have hsub : done.toFinset ⊆ Finset.range links.length := by
    intro i hi
    exact Finset.mem_range.2 (hbound i (List.mem_toFinset.1 hi))
  have hcard : done.toFinset.card=done.length := List.toFinset_card_of_nodup hnodup
  constructor
  · intro hlen i hi
    have heq : done.toFinset=Finset.range links.length :=
      Finset.eq_of_subset_of_card_le hsub (by rw [Finset.card_range,hcard,hlen])
    rw [← List.mem_toFinset,heq]
    exact Finset.mem_range.2 hi
  · intro hall
    have heq : done.toFinset=Finset.range links.length := by
      refine Finset.Subset.antisymm hsub fun i hi => ?_
      exact List.mem_toFinset.2 (hall i (Finset.mem_range.1 hi))
    rw [← hcard,heq,Finset.card_range]

/-- Without cycles every chain of dependencies ends. -/
theorem Acyclic.wellFounded {links : List (List ℕ)} (h : Acyclic links) (hrange : InRange links) :
    WellFounded fun j i => DependsOn links i j := by
  let Before (j i : Fin links.length) : Prop := Relation.TransGen (DependsOn links) i j
  have htrans : IsTrans (Fin links.length) Before := ⟨fun _ _ _ hab hbc => hbc.trans hab⟩
  have hirrefl : Std.Irrefl Before := ⟨fun i => h i⟩
  have hbefore : WellFounded Before := Finite.wellFounded_of_trans_of_irrefl Before
  have hacc : ∀ i : Fin links.length, Acc (fun j i => DependsOn links i j) (i : ℕ) := by
    intro i
    induction i using hbefore.induction with
    | h i ih => exact Acc.intro _ fun j hj => ih ⟨j,hrange i j hj⟩ (.single hj)
  refine ⟨fun i => Acc.intro i fun j hj => hacc ⟨j,hrange i j hj⟩⟩

theorem acyclic_of_wellFounded {links : List (List ℕ)}
    (h : WellFounded fun j i => DependsOn links i j) : Acyclic links := by
  intro i hcycle
  have htrans : WellFounded (Relation.TransGen fun j i => DependsOn links i j) := h.transGen
  exact htrans.irrefl.irrefl i (Relation.transGen_swap.1 hcycle)

/-- The sweep ends, without a fault, and it takes every node just when there is no cycle. -/
theorem countOrdered_ok_iff {links : List (List ℕ)} (hrange : InRange links) :
    ∃ visited, (countOrdered links : Fallible ε ℕ)=.ok visited ∧
      (visited=links.length ↔ Acyclic links) := by
  obtain ⟨done,incoming,hok,hswept⟩ := countOrdered_eq (ε := ε) links
  refine ⟨_,hok,?_⟩
  rw [hswept.length_eq_iff]
  constructor
  · intro hall
    refine acyclic_of_wellFounded ⟨fun i => Acc.intro i fun j hj => ?_⟩
    exact hswept.acc j (hall j (hrange i j hj))
  · intro hacyclic i hi
    -- a node left over needs another one left over, and so on without end
    induction i using (hacyclic.wellFounded hrange).induction with
    | h i ih =>
      have hzero : incoming i=0 := by
        rw [hswept.waiting,List.countP_eq_zero]
        intro j hj
        simpa using ih j hj (hrange i j hj)
      simpa using (hswept.settled i hi).1 hzero

end Ash.DependencyGraphs
