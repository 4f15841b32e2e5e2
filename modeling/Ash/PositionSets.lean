import Mathlib.Data.List.Basic
import Mathlib.Order.Basic

/-! # Matching by sets of positions

A list of steps matches a list of symbols, where a step takes one symbol that passes a test or any
run of symbols.  The matcher keeps the set of positions that the steps so far can have reached. -/

namespace Ash.PositionSets

variable {α : Type}

inductive Step (α : Type) where
  | one (test : α → Bool)
  | run

/-- The steps match all of the symbols. -/
inductive Accepts : List (Step α) → List α → Prop
  | nil : Accepts [] []
  | one {test steps symbol symbols} (htest : test symbol=true) (h : Accepts steps symbols) :
      Accepts (.one test::steps) (symbol::symbols)
  | done {steps symbols} (h : Accepts steps symbols) : Accepts (.run::steps) symbols
  | more {steps symbol symbols}
      (h : Accepts (.run::steps) symbols) : Accepts (.run::steps) (symbol::symbols)

/-! ## Sets of positions -/

/-- All positions from the first one of the set on. -/
def sweep : Bool → List Bool → List Bool
  | _, [] => []
  | reached, state::states => (reached || state)::sweep (reached || state) states

/-- The positions after a symbol that passes. -/
def shift (test : α → Bool) (symbols : List α) (states : List Bool) : List Bool :=
  false::(symbols.zip states).map fun pair => pair.2 && test pair.1

def advance (symbols : List α) (states : List Bool) : Step α → List Bool
  | .one test => shift test symbols states
  | .run => sweep false states

def initial (symbols : List α) : List Bool := true::List.replicate symbols.length false

def matchSteps (steps : List (Step α)) (symbols : List α) : Bool :=
  (steps.foldl (advance symbols) (initial symbols)).getD symbols.length false

theorem length_sweep (reached : Bool) (states : List Bool) :
    (sweep reached states).length=states.length := by
  induction states generalizing reached with
  | nil => rfl
  | cons state states ih => rw [sweep,List.length_cons,ih,List.length_cons]

variable {symbols : List α} {states : List Bool} {steps : List (Step α)}

theorem length_advance (step : Step α) (h : states.length=symbols.length+1) :
    (advance symbols states step).length=symbols.length+1 := by
  cases step with
  | run => rw [advance,length_sweep,h]
  | one test =>
    rw [advance,shift,List.length_cons,List.length_map,List.length_zip,h]
    omega

theorem getD_sweep (reached : Bool) (states : List Bool) (index : ℕ) (h : index < states.length) :
    (sweep reached states).getD index false=true ↔
      reached=true ∨ ∃ earlier ≤ index, states.getD earlier false=true := by
  induction states generalizing reached index with
  | nil => exact absurd h (Nat.not_lt_zero _)
  | cons state states ih =>
    cases index with
    | zero =>
      rw [sweep,List.getD_cons_zero,Bool.or_eq_true]
      refine or_congr_right ⟨fun hstate => ⟨0,Nat.le_refl 0,hstate⟩,?_⟩
      rintro ⟨earlier,hle,hstate⟩
      obtain rfl := Nat.le_zero.1 hle
      exact hstate
    | succ index =>
      rw [sweep,List.getD_cons_succ,ih _ _ (Nat.lt_of_succ_lt_succ h),Bool.or_eq_true,or_assoc]
      refine or_congr_right ⟨?_,?_⟩
      · rintro (hstate | ⟨earlier,hle,hstate⟩)
        · exact ⟨0,Nat.zero_le _,hstate⟩
        · exact ⟨earlier+1,Nat.succ_le_succ hle,hstate⟩
      · rintro ⟨earlier,hle,hstate⟩
        cases earlier with
        | zero => exact .inl hstate
        | succ earlier => exact .inr ⟨earlier,Nat.le_of_succ_le_succ hle,hstate⟩

theorem getD_shift (test : α → Bool) (symbols : List α) (states : List Bool) (index : ℕ) :
    (shift test symbols states).getD (index+1) false=true ↔
      ∃ symbol, symbols[index]?=some symbol ∧ states.getD index false=true ∧
        test symbol=true := by
  rw [shift,List.getD_cons_succ,List.getD_eq_getElem?_getD,List.getD_eq_getElem?_getD,
    List.getElem?_map,List.zip_eq_zipWith,List.getElem?_zipWith]
  cases symbols[index]? with
  | none => simp
  | some symbol => cases states[index]? <;> simp

/-! ## What is left at a position -/

variable {test : α → Bool}

theorem accepts_one :
    Accepts (.one test::steps) symbols ↔
      ∃ symbol rest, symbols=symbol::rest ∧ test symbol=true ∧ Accepts steps rest := by
  constructor
  · intro h
    cases h with
    | one htest h => exact ⟨_,_,rfl,htest,h⟩
  · rintro ⟨symbol,rest,rfl,htest,h⟩
    exact .one htest h

theorem accepts_run :
    Accepts (.run::steps) symbols ↔ ∃ skipped ≤ symbols.length,
      Accepts steps (symbols.drop skipped) := by
  constructor
  · intro h
    induction symbols with
    | nil =>
      cases h with
      | done h => exact ⟨0,Nat.le_refl 0,h⟩
    | cons symbol symbols ih =>
      cases h with
      | done h => exact ⟨0,Nat.zero_le _,h⟩
      | more h =>
        obtain ⟨skipped,hle,hskip⟩ := ih h
        exact ⟨skipped+1,Nat.succ_le_succ hle,hskip⟩
  · rintro ⟨skipped,hle,h⟩
    induction skipped generalizing symbols with
    | zero => exact .done h
    | succ skipped ih =>
      cases symbols with
      | nil => exact absurd hle (Nat.not_succ_le_zero _)
      | cons symbol symbols => exact .more (ih (Nat.le_of_succ_le_succ hle) h)

/-- From some position of the set, the steps match what is left of the symbols. -/
def Completes (steps : List (Step α)) (symbols : List α) (states : List Bool) : Prop :=
  ∃ index ≤ symbols.length, states.getD index false=true ∧ Accepts steps (symbols.drop index)

theorem completes_nil : Completes [] symbols states ↔ states.getD symbols.length false=true := by
  constructor
  · rintro ⟨index,hle,hstate,h⟩
    have hdrop : symbols.length ≤ index := by
      cases hrest : symbols.drop index with
      | nil => exact List.drop_eq_nil_iff.1 hrest
      | cons symbol rest => rw [hrest] at h; cases h
    rwa [Nat.le_antisymm hdrop hle]
  · intro hstate
    refine ⟨symbols.length,Nat.le_refl _,hstate,?_⟩
    rw [List.drop_length]
    exact .nil

theorem completes_one :
    Completes (.one test::steps) symbols states ↔
      Completes steps symbols (shift test symbols states) := by
  constructor
  · rintro ⟨index,hle,hstate,h⟩
    obtain ⟨symbol,rest,hdrop,htest,h⟩ := accepts_one.1 h
    have hsymbol : symbols[index]?=some symbol := by
      rw [← List.head?_drop,hdrop,List.head?_cons]
    have hrest : symbols.drop (index+1)=rest := by
      rw [← List.drop_drop,hdrop,List.drop_one,List.tail_cons]
    refine ⟨index+1,(List.getElem?_eq_some_iff.1 hsymbol).1,?_,by rwa [hrest]⟩
    exact (getD_shift _ _ _ _).2 ⟨symbol,hsymbol,hstate,htest⟩
  · rintro ⟨index,hle,hstate,h⟩
    cases index with
    | zero => exact absurd hstate (by simp [shift])
    | succ index =>
      obtain ⟨symbol,hsymbol,hstate,htest⟩ := (getD_shift _ _ _ _).1 hstate
      refine ⟨index,Nat.le_of_succ_le hle,hstate,?_⟩
      obtain ⟨hlt,rfl⟩ := List.getElem?_eq_some_iff.1 hsymbol
      rw [List.drop_eq_getElem_cons hlt]
      exact .one htest h

theorem completes_run (hstates : states.length=symbols.length+1) :
    Completes (.run::steps) symbols states ↔
      Completes steps symbols (sweep false states) := by
  constructor
  · rintro ⟨index,hle,hstate,h⟩
    obtain ⟨skipped,hskip,h⟩ := accepts_run.1 h
    rw [List.length_drop] at hskip
    rw [List.drop_drop] at h
    refine ⟨index+skipped,by omega,?_,h⟩
    exact (getD_sweep _ _ _ (by omega)).2 (.inr ⟨index,Nat.le_add_right _ _,hstate⟩)
  · rintro ⟨index,hle,hstate,h⟩
    obtain hfalse | ⟨earlier,hearlier,hstate⟩ := (getD_sweep _ _ _ (by omega)).1 hstate
    · cases hfalse
    · refine ⟨earlier,by omega,hstate,accepts_run.2 ⟨index - earlier,?_,?_⟩⟩
      · rw [List.length_drop]
        omega
      · rwa [List.drop_drop,Nat.add_sub_cancel' hearlier]

/-- One step of the matcher keeps what the remaining steps can complete. -/
theorem completes_advance {step : Step α} (hstates : states.length=symbols.length+1) :
    Completes (step::steps) symbols states ↔
      Completes steps symbols (advance symbols states step) := by
  cases step with
  | one test => exact completes_one
  | run => exact completes_run hstates

theorem completes_foldl (steps : List (Step α)) (symbols : List α) (states : List Bool)
    (hstates : states.length=symbols.length+1) :
    (steps.foldl (advance symbols) states).getD symbols.length false=true ↔
      Completes steps symbols states := by
  induction steps generalizing states with
  | nil => exact completes_nil.symm
  | cons step steps ih =>
    rw [List.foldl_cons,ih _ (length_advance step hstates),completes_advance hstates]

theorem matchSteps_iff (steps : List (Step α)) (symbols : List α) :
    matchSteps steps symbols=true ↔ Accepts steps symbols := by
  rw [matchSteps,completes_foldl _ _ _ (by simp [initial])]
  constructor
  · rintro ⟨index,hle,hstate,h⟩
    cases index with
    | zero => exact h
    | succ index =>
      rw [initial,List.getD_cons_succ,List.getD_eq_getElem?_getD,List.getElem?_replicate] at hstate
      split at hstate <;> cases hstate
  · intro h
    exact ⟨0,Nat.zero_le _,rfl,h⟩

theorem accepts_append_congr {left right : List (Step α)}
    (h : ∀ symbols, Accepts left symbols ↔ Accepts right symbols) (front : List (Step α))
    (symbols : List α) : Accepts (front++left) symbols ↔ Accepts (front++right) symbols := by
  induction front generalizing symbols with
  | nil => exact h symbols
  | cons step front ih =>
    cases step with
    | one test => simp only [List.cons_append,accepts_one,ih]
    | run => simp only [List.cons_append,accepts_run,ih]

/-- A run after a run adds nothing. -/
theorem accepts_run_run :
    Accepts (.run::.run::steps) symbols ↔ Accepts (.run::steps) symbols := by
  refine ⟨fun h => ?_,.done⟩
  obtain ⟨skipped,hle,h⟩ := accepts_run.1 h
  obtain ⟨more,hmore,h⟩ := accepts_run.1 h
  rw [List.length_drop] at hmore
  rw [List.drop_drop] at h
  exact accepts_run.2 ⟨skipped+more,by omega,h⟩

end Ash.PositionSets
