import Mathlib.Algebra.Ring.Nat
import Mathlib.Data.List.AList

/-! # Keyed tables

Finite maps with one value for each key, their sizes, and the sums of a weight over their
values. -/

namespace Ash.KeyedTables

abbrev Table (K V : Type) := AList fun _ : K => V

variable {K V : Type} {key : K} {value : V} {table : Table K V}

def size (table : Table K V) : ℕ := table.entries.length

/-- The entries whose value is kept. -/
def retain (keep : V → Bool) (table : Table K V) : Table K V :=
  ⟨table.entries.filter fun entry => keep entry.2,table.nodupKeys.sublist List.filter_sublist⟩

def total (weight : V → ℕ) (table : Table K V) : ℕ :=
  (table.entries.map fun entry => weight entry.2).sum

@[simp] theorem size_empty : size (∅ : Table K V)=0 := rfl

theorem size_retain_le (keep : V → Bool) (table : Table K V) :
    size (retain keep table) ≤ size table :=
  List.length_filter_le _ _

variable [DecidableEq K]

theorem lookup_retain (keep : V → Bool) (table : Table K V) (key : K) :
    (retain keep table).lookup key=(table.lookup key).filter keep := by
  ext value
  rw [← Option.mem_def,AList.mem_lookup_iff,Option.filter_eq_some_iff,← Option.mem_def,
    AList.mem_lookup_iff]
  simp [retain]

theorem size_insert (h : key∉table) (value : V) : size (table.insert key value)=size table+1 := by
  rw [size,AList.entries_insert_of_notMem h,List.length_cons,size]

theorem lookup_of_erase {other : K} (h : (table.erase key).lookup other=some value) :
    other≠key ∧ table.lookup other=some value := by
  have hne : other≠key := by
    rintro rfl
    rw [AList.lookup_erase] at h
    cases h
  exact ⟨hne,(AList.lookup_erase_ne hne).symm.trans h⟩

theorem size_erase_le (key : K) (table : Table K V) : size (table.erase key) ≤ size table :=
  (List.kerase_sublist key table.entries).length_le

theorem total_insert (weight : V → ℕ) (h : key∉table) (value : V) :
    total weight (table.insert key value)=total weight table+weight value := by
  rw [total,AList.entries_insert_of_notMem h,List.map_cons,List.sum_cons,Nat.add_comm,total]

/-- An entry stands somewhere in the list, and erasing its key leaves the rest. -/
theorem entries_erase (h : table.lookup key=some value) :
    ∃ before after, table.entries=before++⟨key,value⟩::after ∧
      (table.erase key).entries=before++after := by
  have hmem : key∈table.entries.keys := by
    rw [← AList.keys,← AList.mem_keys,← AList.lookup_isSome,h]
    rfl
  obtain ⟨found,before,after,-,hents,herase⟩ := List.exists_of_kerase hmem
  have hfound : table.lookup key=some found := by
    rw [← Option.mem_def,AList.mem_lookup_iff,hents]
    simp
  obtain rfl := Option.some.inj (h.symm.trans hfound)
  exact ⟨before,after,hents,herase⟩

theorem total_erase (weight : V → ℕ) (h : table.lookup key=some value) :
    total weight (table.erase key)+weight value=total weight table := by
  obtain ⟨before,after,hents,herase⟩ := entries_erase h
  rw [total,total,hents,herase]
  simp only [List.map_append,List.map_cons,List.sum_append,List.sum_cons]
  omega

end Ash.KeyedTables
