import Mathlib.Data.List.Destutter
import Mathlib.Data.List.Sort

/-! # Sorting by a key and dropping repeated keys -/

namespace Ash.SortedKeys

variable {α κ : Type} [DecidableEq κ] {key : α → κ} {le : κ → κ → Bool}

/-- Drop every element with the key of the one kept before it. -/
def dedupBy (key : α → κ) (items : List α) : List α :=
  items.destutter fun left right => key left≠key right

def sortDedupBy (key : α → κ) (le : κ → κ → Bool) (items : List α) : List α :=
  dedupBy key (items.mergeSort fun left right => le (key left) (key right))

theorem dedupBy_sublist (items : List α) : (dedupBy key items).Sublist items :=
  List.destutter_sublist _ _

variable {item : α} {items : List α}

/-- What is dropped leaves its key behind. -/
theorem exists_mem_destutter' {first : α} (h : item∈first::items) :
    ∃ kept∈items.destutter' (fun left right => key left≠key right) first,
      key kept=key item := by
  induction items generalizing first with
  | nil =>
    obtain rfl := List.mem_singleton.1 h
    exact ⟨item,List.mem_singleton.2 rfl,rfl⟩
  | cons next items ih =>
    by_cases hkey : key first≠key next
    · rw [List.destutter'_cons_pos (R := fun left right => key left≠key right) _ hkey]
      rcases List.mem_cons.1 h with rfl | h
      · exact ⟨item,List.mem_cons_self,rfl⟩
      · obtain ⟨kept,hkept,heq⟩ := ih h
        exact ⟨kept,List.mem_cons_of_mem _ hkept,heq⟩
    · rw [List.destutter'_cons_neg (R := fun left right => key left≠key right) _ hkey]
      rcases List.mem_cons.1 h with rfl | h
      · exact ih List.mem_cons_self
      · rcases List.mem_cons.1 h with rfl | h
        · exact ⟨first,List.mem_destutter' _ _ _,not_not.1 hkey⟩
        · exact ih (List.mem_cons_of_mem _ h)

theorem exists_mem_dedupBy (h : item∈items) :
    ∃ kept∈dedupBy key items, key kept=key item := by
  cases items with
  | nil => exact absurd h List.not_mem_nil
  | cons first items => exact exists_mem_destutter' h

variable {μ : Type}

theorem destutter'_congr [DecidableEq μ] {other : α → μ} {first : α}
    (h : ∀ left∈first::items, ∀ right∈first::items,
      key left=key right ↔ other left=other right) :
    items.destutter' (fun left right => key left≠key right) first =
      items.destutter' (fun left right => other left≠other right) first := by
  induction items generalizing first with
  | nil => rfl
  | cons next items ih =>
    have hnext : key first≠key next ↔ other first≠other next :=
      not_congr (h first (by simp) next (by simp))
    by_cases hkey : key first≠key next
    · rw [List.destutter'_cons_pos (R := fun left right => key left≠key right) _ hkey,
        List.destutter'_cons_pos (R := fun left right => other left≠other right) _ (hnext.1 hkey)]
      refine congrArg (first :: ·) (ih fun left hleft right hright => ?_)
      exact h left (List.mem_cons_of_mem _ hleft) right (List.mem_cons_of_mem _ hright)
    · rw [List.destutter'_cons_neg (R := fun left right => key left≠key right) _ hkey,
        List.destutter'_cons_neg (R := fun left right => other left≠other right) _
          (mt hnext.2 hkey)]
      refine ih fun left hleft right hright => h left ?_ right ?_
      · exact (List.cons_subset_cons first (List.subset_cons_self next items)) hleft
      · exact (List.cons_subset_cons first (List.subset_cons_self next items)) hright

/-- Keys that tell the same elements apart drop the same ones. -/
theorem dedupBy_congr [DecidableEq μ] {other : α → μ}
    (h : ∀ left∈items, ∀ right∈items, key left=key right ↔ other left=other right) :
    dedupBy key items=dedupBy other items := by
  cases items with
  | nil => rfl
  | cons first items => exact destutter'_congr h

theorem mem_of_mem_sortDedupBy (h : item∈sortDedupBy key le items) :
    item∈items :=
  (List.mergeSort_perm _ _).mem_iff.1 ((dedupBy_sublist _).subset h)

theorem exists_mem_sortDedupBy (h : item∈items) :
    ∃ kept∈sortDedupBy key le items, key kept=key item :=
  exists_mem_dedupBy ((List.mergeSort_perm _ _).mem_iff.2 h)

/-- Where a key determines its element, nothing is lost. -/
theorem mem_sortDedupBy
    (hkey : ∀ left∈items, ∀ right∈items, key left=key right → left=right) :
    item∈sortDedupBy key le items ↔ item∈items := by
  refine ⟨mem_of_mem_sortDedupBy,fun h => ?_⟩
  obtain ⟨kept,hkept,heq⟩ : ∃ kept∈sortDedupBy key le items, key kept=key item :=
    exists_mem_sortDedupBy h
  rwa [← hkey kept (mem_of_mem_sortDedupBy hkept) item h heq]

theorem length_sortDedupBy_le (items : List α) :
    (sortDedupBy key le items).length ≤ items.length :=
  calc (sortDedupBy key le items).length
      ≤ (items.mergeSort fun left right => le (key left) (key right)).length :=
        (dedupBy_sublist _).length_le
    _=items.length := List.length_mergeSort _

theorem isChain_and {R S : α → α → Prop} (hR : items.IsChain R) (hS : items.IsChain S) :
    items.IsChain fun left right => R left right ∧ S left right := by
  induction hR with
  | nil => exact .nil
  | singleton item => exact .singleton item
  | cons_cons hab _ ih =>
    cases hS with
    | cons_cons hab' hrest => exact .cons_cons ⟨hab,hab'⟩ (ih hrest)

section Order

variable {ω : Type} [LE ω] [DecidableLE ω] [Std.IsLinearOrder ω]

omit [DecidableEq κ] in
theorem pairwise_mergeSort (code : α → ω) (items : List α) :
    (items.mergeSort fun left right => decide (code left ≤ code right)).Pairwise
      fun left right => code left ≤ code right := by
  refine (List.pairwise_mergeSort (fun a b c hab hbc => ?_) (fun a b => ?_) items).imp
    of_decide_eq_true
  · exact decide_eq_true (Std.le_trans (of_decide_eq_true hab) (of_decide_eq_true hbc))
  · rw [Bool.or_eq_true]
    exact Std.le_total.imp decide_eq_true decide_eq_true

/-- The keys that are left ascend strictly. -/
theorem pairwise_sortDedupBy [LT ω] [Std.LawfulOrderLT ω] {code : κ → ω}
    (hcode : Function.Injective code) (items : List α) :
    (sortDedupBy key (fun a b => decide (code a ≤ code b)) items).Pairwise
      fun left right => code (key left) < code (key right) := by
  have hle := (pairwise_mergeSort (fun item => code (key item)) items).sublist
    (List.destutter_sublist (fun left right => key left≠key right) _)
  have hne := List.isChain_destutter (fun left right => key left≠key right)
    (items.mergeSort fun left right => decide (code (key left) ≤ code (key right)))
  have hlt := (isChain_and hle.isChain hne).imp fun left right h =>
    Std.lt_of_le_of_ne h.1 fun heq => h.2 (hcode heq)
  -- strict order is transitive, so neighbours suffice
  have : Trans (fun left right => code (key left) < code (key right))
      (fun left right => code (key left) < code (key right))
      fun left right => code (key left) < code (key right) := ⟨Std.lt_trans⟩
  exact List.isChain_iff_pairwise.1 hlt

end Order

end Ash.SortedKeys
