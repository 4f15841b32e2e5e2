import Mathlib.Data.List.Chain

/-! # Runs of equal elements

A list as its maximal runs: elements with positive counts, neighbours different.  Runs are
collected one after the other, and a run with the element of the latest joins it. -/

namespace Ash.RunEncodings

variable {α : Type}

/-- The elements that runs stand for. -/
def expand (runs : List (α × ℕ)) : List α := runs.flatMap fun run => List.replicate run.2 run.1

structure IsRuns (items : List α) (runs : List (α × ℕ)) : Prop where
  expands : expand runs=items
  positive : ∀ run∈runs, 0 < run.2
  distinct : runs.IsChain fun left right => left.1≠right.1

theorem isRuns_nil : IsRuns ([] : List α) [] := ⟨rfl,by simp,.nil⟩

theorem expand_append (left right : List (α × ℕ)) :
    expand (left++right)=expand left++expand right :=
  List.flatMap_append

theorem expand_singleton (run : α × ℕ) : expand [run]=List.replicate run.2 run.1 := by
  simp [expand]

theorem expand_flatten (parts : List (List (α × ℕ))) :
    expand parts.flatten=(parts.map expand).flatten := by
  induction parts with
  | nil => rfl
  | cons part parts ih => rw [List.flatten_cons,expand_append,ih,List.map_cons,List.flatten_cons]

variable {β : Type}

theorem expand_map (f : α → β) (runs : List (α × ℕ)) :
    expand (runs.map (Prod.map f id))=(expand runs).map f := by
  rw [expand,expand,List.flatMap_map,List.map_flatMap]
  simp

variable {runs : List (α × ℕ)} {items : List α}

theorem mem_expand {run : α × ℕ} (h : run∈runs) (hpos : 0 < run.2) :
    run.1∈expand runs :=
  List.mem_flatMap.2 ⟨run,h,List.mem_replicate.2 ⟨hpos.ne',rfl⟩⟩

/-- The runs of images are the images of runs. -/
theorem IsRuns.of_map {f : α → β} (hf : Function.Injective f)
    (h : IsRuns (items.map f) (runs.map (Prod.map f id))) :
    IsRuns items runs where
  expands := by
    have hexpands := h.expands
    rw [expand_map] at hexpands
    exact hf.list_map hexpands
  positive run hrun := h.positive (f run.1,run.2) (List.mem_map_of_mem hrun)
  distinct := by
    refine ((List.isChain_map _).1 h.distinct).imp fun left right hne heq => hne ?_
    exact congrArg f heq

theorem expand_cons (run : α × ℕ) (runs : List (α × ℕ)) :
    expand (run::runs)=List.replicate run.2 run.1++expand runs :=
  List.flatMap_cons

theorem count_le_length {run : α × ℕ} (h : run∈runs) : run.2 ≤ (expand runs).length := by
  obtain ⟨front,back,rfl⟩ := List.append_of_mem h
  rw [expand_append,expand_cons,List.length_append,List.length_append,List.length_replicate]
  omega

theorem IsRuns.head_ne {run : α × ℕ} (h : IsRuns items (run::runs)) :
    (expand runs).head?≠some run.1 := by
  cases runs with
  | nil => simp [expand]
  | cons next runs =>
    obtain ⟨count,hcount⟩ : ∃ count, next.2=count+1 :=
      Nat.exists_eq_add_one.2 (h.positive next (by simp))
    have hne : run.1≠next.1 := (List.isChain_cons_cons.1 h.distinct).1
    rw [expand_cons,hcount,List.replicate_succ,List.cons_append,List.head?_cons]
    exact fun heq => hne (Option.some.inj heq).symm

theorem IsRuns.tail {run : α × ℕ} {runs : List (α × ℕ)} {items : List α}
    (h : IsRuns items (run::runs)) : IsRuns (expand runs) runs where
  expands := rfl
  positive other hother := h.positive other (List.mem_cons_of_mem _ hother)
  distinct := h.distinct.tail

/-- Copies of one element end where another begins. -/
theorem replicate_append_inj {a : α} {left right : List α} (hleft : left.head?≠some a)
    (hright : right.head?≠some a) {m n : ℕ}
    (h : List.replicate m a++left=List.replicate n a++right) : m=n ∧ left=right := by
  induction m generalizing n with
  | zero =>
    cases n with
    | zero => exact ⟨rfl,h⟩
    | succ n =>
      rw [List.replicate_zero,List.nil_append] at h
      rw [h,List.replicate_succ] at hleft
      exact absurd rfl hleft
  | succ m ih =>
    cases n with
    | zero =>
      rw [List.replicate_zero,List.nil_append] at h
      rw [← h,List.replicate_succ] at hright
      exact absurd rfl hright
    | succ n =>
      rw [List.replicate_succ,List.replicate_succ] at h
      obtain ⟨rfl,rfl⟩ := ih (List.cons.inj h).2
      exact ⟨rfl,rfl⟩

/-- A list has only one decomposition into maximal runs. -/
theorem IsRuns.unique {left right : List (α × ℕ)} (hleft : IsRuns items left)
    (hright : IsRuns items right) : left=right := by
  induction left generalizing items right with
  | nil =>
    obtain rfl : []=items := hleft.expands
    cases right with
    | nil => rfl
    | cons run right =>
      obtain ⟨count,hcount⟩ : ∃ count, run.2=count+1 :=
        Nat.exists_eq_add_one.2 (hright.positive run List.mem_cons_self)
      have hexpands := hright.expands
      rw [expand_cons,hcount,List.replicate_succ] at hexpands
      cases hexpands
  | cons first left ih =>
    obtain ⟨m,hm⟩ : ∃ m, first.2=m+1 :=
      Nat.exists_eq_add_one.2 (hleft.positive first List.mem_cons_self)
    have hexpands := hleft.expands.trans hright.expands.symm
    cases right with
    | nil =>
      rw [expand_cons,hm,List.replicate_succ] at hexpands
      cases hexpands
    | cons run right =>
      obtain ⟨n,hn⟩ : ∃ n, run.2=n+1 :=
        Nat.exists_eq_add_one.2 (hright.positive run List.mem_cons_self)
      rw [expand_cons,expand_cons] at hexpands
      have hvalue : first.1=run.1 := by
        have hhead := congrArg List.head? hexpands
        rw [hm,hn,List.replicate_succ,List.replicate_succ] at hhead
        exact Option.some.inj hhead
      rw [hvalue] at hexpands
      obtain ⟨hcount,hrest⟩ :=
        replicate_append_inj (hvalue ▸ hleft.head_ne) hright.head_ne hexpands
      rw [Prod.ext hvalue hcount,ih hleft.tail (hrest ▸ hright.tail)]

section Collect

variable [DecidableEq α]

/-- The runs so far, the latest first. -/
def collect (runs : List (α × ℕ)) (run : α × ℕ) : List (α × ℕ) :=
  match runs with
  | previous::older =>
      if previous.1=run.1 then (previous.1,previous.2+run.2)::older
      else run::previous::older
  | [] => [run]

theorem IsRuns.collect {items : List α} {runs : List (α × ℕ)} {run : α × ℕ}
    (h : IsRuns items runs.reverse) (hrun : 0 < run.2) :
    IsRuns (items++List.replicate run.2 run.1) (collect runs run).reverse := by
  unfold RunEncodings.collect
  cases runs with
  | nil =>
    obtain rfl : []=items := h.expands
    refine ⟨expand_singleton run,?_,.singleton _⟩
    intro other hother
    rwa [List.mem_singleton.1 hother]
  | cons previous older =>
    obtain ⟨rfl,hpos,hdist⟩ := h
    rw [List.reverse_cons] at hpos hdist
    by_cases hsame : previous.1=run.1
    · simp only [if_pos hsame,List.reverse_cons]
      refine ⟨?_,?_,?_⟩
      · rw [expand_append,expand_append,expand_singleton,expand_singleton,List.append_assoc,
          ← hsame,List.replicate_append_replicate]
      · intro other hother
        rcases List.mem_append.1 hother with hmem | hmem
        · exact hpos other (List.mem_append_left _ hmem)
        · rw [List.mem_singleton.1 hmem]
          exact Nat.add_pos_right _ hrun
      · rw [List.isChain_append] at hdist ⊢
        exact ⟨hdist.1,.singleton _,fun left hleft right hright => by
          obtain rfl := Option.some.inj hright
          exact hdist.2.2 left hleft previous rfl⟩
    · simp only [if_neg hsame,List.reverse_cons]
      refine ⟨?_,?_,?_⟩
      · rw [expand_append,expand_singleton]
      · intro other hother
        rcases List.mem_append.1 hother with hmem | hmem
        · exact hpos other hmem
        · rwa [List.mem_singleton.1 hmem]
      · rw [List.isChain_append]
        refine ⟨hdist,.singleton _,fun left hleft right hright => ?_⟩
        obtain rfl := Option.some.inj hright
        rw [List.getLast?_concat] at hleft
        obtain rfl := Option.some.inj hleft
        exact hsame

/-- Collecting runs of positive counts gives the maximal runs of what they stand for. -/
theorem isRuns_foldl_collect (runs : List (α × ℕ)) (hruns : ∀ run∈runs, 0 < run.2) :
    IsRuns (expand runs) (runs.foldl collect []).reverse := by
  induction runs using List.reverseRecOn with
  | nil => exact isRuns_nil
  | append_singleton runs run ih =>
    rw [List.foldl_append,expand_append,expand_singleton]
    have hlast : 0 < run.2 := hruns run (by simp)
    exact (ih fun other hother => hruns other (List.mem_append_left _ hother)).collect hlast

end Collect

end Ash.RunEncodings
