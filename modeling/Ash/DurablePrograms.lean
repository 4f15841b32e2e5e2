import Mathlib.Data.Nat.Notation
import Mathlib.Logic.Basic

/-! # Programs over durable state that a crash may cut

A program issues primitives one after another and ends with a value or an error.
Each primitive is one durable step of a machine, and a crash keeps the state reached
by the primitives already performed.

`Guarded S Q p s` says that every step of the run from `s` satisfies `S` and that the
completed run ends in `Q`; the rules below compose it along programs. -/

namespace Ash.DurablePrograms

/-- A program over primitives `Op`, failing with `ε` or returning `α`. -/
inductive Prog (Op : Type) (Res : Op → Type) (ε α : Type) where
  | done (result : Except ε α)
  | call (op : Op) (next : Res op → Prog Op Res ε α)

namespace Prog

variable {Op : Type} {Res : Op → Type} {ε ε' α β : Type}

def bind : Prog Op Res ε α → (α → Prog Op Res ε β) → Prog Op Res ε β
  | done (.ok a), f => f a
  | done (.error e), _ => done (.error e)
  | call op next, f => call op fun r => (next r).bind f

instance : Monad (Prog Op Res ε) where
  pure a := done (.ok a)
  bind := bind

instance : LawfulMonad (Prog Op Res ε) := by
  refine LawfulMonad.mk' _ (fun p => ?_) (fun _ _ => rfl) fun p f g => ?_
  · induction p with
    | done r => cases r <;> rfl
    | call op next ih => exact congrArg (call op) (funext ih)
  · induction p with
    | done r => cases r <;> rfl
    | call op next ih => exact congrArg (call op) (funext ih)

/-- Stop with an error. -/
def fail (e : ε) : Prog Op Res ε α := done (.error e)

/-- Run a program for its result, success or failure, and go on. -/
def attempt : Prog Op Res ε α → Prog Op Res ε' (Except ε α)
  | done r => done (.ok r)
  | call op next => call op fun r => (next r).attempt

/-- Convert the error of a failing program. -/
def mapError (f : ε → ε') : Prog Op Res ε α → Prog Op Res ε' α
  | done (.ok a) => done (.ok a)
  | done (.error e) => done (.error (f e))
  | call op next => call op fun r => (next r).mapError f

/-- One primitive, answered. -/
def perform (op : Op) : Prog Op Res ε (Res op) := call op fun r => done (.ok r)

/-- A pure computation that may fail. -/
def ofExcept (r : Except ε α) : Prog Op Res ε α := done r

end Prog

/-- How primitives answer and act on a state. -/
structure Machine (Op : Type) (Res : Op → Type) (σ : Type) where
  exec : (op : Op) → σ → Res op × σ

namespace Machine

variable {Op : Type} {Res : Op → Type} {σ ε ε' α β : Type}
variable (M : Machine Op Res σ)

/-- The result and the final state of a completed run. -/
def run : Prog Op Res ε α → σ → Except ε α × σ
  | .done r, s => (r,s)
  | .call op next, s => run (next (M.exec op s).1) (M.exec op s).2

/-- The state after the first `n` primitives, or the final one if there are fewer. -/
def stateAt : Prog Op Res ε α → σ → ℕ → σ
  | .done _, s, _ => s
  | .call _ _, s, 0 => s
  | .call op next, s, n+1 => stateAt (next (M.exec op s).1) (M.exec op s).2 n

/-- The primitive the run performs after `n` others, if it gets that far. -/
def opAt : Prog Op Res ε α → σ → ℕ → Option Op
  | .done _, _, _ => none
  | .call op _, _, 0 => some op
  | .call op next, s, n+1 => opAt (next (M.exec op s).1) (M.exec op s).2 n

/-- The crash-safety judgement: `S` holds of the states before and after every primitive
of the run, and `Q` of the completed run. -/
def Guarded (S : σ → Op → σ → Prop) (Q : Except ε α → σ → Prop) : Prog Op Res ε α → σ → Prop
  | .done r, s => Q r s
  | .call op next, s =>
      S s op (M.exec op s).2 ∧ Guarded S Q (next (M.exec op s).1) (M.exec op s).2

variable {M}
variable {S T : σ → Op → σ → Prop} {Q R : Except ε α → σ → Prop} {s s' : σ}

variable {op : Op} {n : ℕ}

@[simp] theorem guarded_call {next : Res op → Prog Op Res ε α} :
    M.Guarded S Q (.call op next) s ↔
      S s op (M.exec op s).2 ∧ M.Guarded S Q (next (M.exec op s).1) (M.exec op s).2 := Iff.rfl

variable {p : Prog Op Res ε α}

theorem guarded_mono (h : M.Guarded S Q p s) (hS : ∀ s op s', S s op s' → T s op s')
    (hQ : ∀ r s', Q r s' → R r s') : M.Guarded T R p s := by
  induction p generalizing s with
  | done r => exact hQ r s h
  | call op next ih =>
    exact ⟨hS _ _ _ h.1,ih _ h.2⟩

@[simp] theorem guarded_bind {f : α → Prog Op Res ε β} {Q : Except ε β → σ → Prop} :
    M.Guarded S Q (p >>= f) s ↔
      M.Guarded S (fun r s' => match r with
        | .ok a => M.Guarded S Q (f a) s'
        | .error e => Q (.error e) s') p s := by
  induction p generalizing s with
  | done r => cases r <;> exact Iff.rfl
  | call op next ih =>
    exact and_congr Iff.rfl (ih _)

@[simp] theorem guarded_attempt {Q : Except ε' (Except ε α) → σ → Prop} :
    M.Guarded S Q p.attempt s ↔ M.Guarded S (fun r s' => Q (.ok r) s') p s := by
  induction p generalizing s with
  | done r => exact Iff.rfl
  | call op next ih =>
    exact and_congr Iff.rfl (ih _)

@[simp] theorem guarded_mapError {f : ε → ε'} {Q : Except ε' α → σ → Prop} :
    M.Guarded S Q (p.mapError f) s ↔
      M.Guarded S (fun r s' => Q (r.mapError f) s') p s := by
  induction p generalizing s with
  | done r => cases r <;> exact Iff.rfl
  | call op next ih =>
    exact and_congr Iff.rfl (ih _)

@[simp] theorem stateAt_zero (p : Prog Op Res ε α) (s : σ) : M.stateAt p s 0=s := by
  cases p <;> rfl

/-- What every step establishes holds of every state a crash can leave. -/
theorem Guarded.stateAt {I : σ → Prop} (h : M.Guarded S Q p s) (hI : ∀ s op s', S s op s' → I s')
    (hs : I s) (n : ℕ) : I (M.stateAt p s n) := by
  induction p generalizing s n with
  | done r => exact hs
  | call op next ih =>
    cases n with
    | zero => exact hs
    | succ n => exact ih _ h.2 (hI _ _ _ h.1) n

theorem Guarded.run (h : M.Guarded S Q p s) : Q (M.run p s).1 (M.run p s).2 := by
  induction p generalizing s with
  | done r => exact h
  | call op next ih => exact ih _ h.2

/-- What the steps establish of a primitive the run performs. -/
theorem Guarded.opAt (h : M.Guarded S Q p s) (hop : M.opAt p s n=some op) :
    S (M.stateAt p s n) op (M.exec op (M.stateAt p s n)).2 := by
  induction p generalizing s n with
  | done r => cases hop
  | call op' next ih =>
    cases n with
    | zero =>
      cases hop
      exact h.1
    | succ n => exact ih _ h.2 hop

theorem stateAt_of_opAt_none (h : M.opAt p s n=none) : M.stateAt p s n=(M.run p s).2 := by
  induction p generalizing s n with
  | done r => rfl
  | call op next ih =>
    cases n with
    | zero => cases h
    | succ n => exact ih _ h

/-! ## Watching for a state -/

/-- The machine that also remembers whether a state with `P` has been seen. -/
def monitored (M : Machine Op Res σ) (P : σ → Bool) : Machine Op Res (σ × Bool) where
  exec op s := ((M.exec op s.1).1,(M.exec op s.1).2,s.2 || P (M.exec op s.1).2)

variable {P : σ → Bool} {b : Bool}

theorem stateAt_monitored (p : Prog Op Res ε α) (s : σ) (b : Bool) (n : ℕ) :
    ((M.monitored P).stateAt p (s,b) n).1=M.stateAt p s n := by
  induction p generalizing s b n with
  | done r => rfl
  | call op next ih =>
    cases n with
    | zero => rfl
    | succ n => exact ih _ _ _ n

/-- The memory is set once a state with `P` has appeared. -/
theorem seen_monitored (p : Prog Op Res ε α) (s : σ) (n : ℕ) (hs : P s=true → b=true) :
    ((M.monitored P).stateAt p (s,b) n).2=true ↔
      b=true ∨ ∃ m ≤ n, P (M.stateAt p s m)=true := by
  induction p generalizing s b n with
  | done r =>
    refine ⟨.inl,?_⟩
    rintro (h | ⟨m,-,h⟩)
    · exact h
    · exact hs h
  | call op next ih =>
    cases n with
    | zero =>
      refine ⟨.inl,?_⟩
      rintro (h | ⟨m,hm,h⟩)
      · exact h
      · obtain rfl : m=0 := by omega
        exact hs h
    | succ n =>
      have hstep := ih (M.exec op s).1 (M.exec op s).2 n
        (b := b || P (M.exec op s).2) (fun h => by simp [h])
      refine hstep.trans ⟨?_,?_⟩
      · rintro (h | ⟨m,hm,h⟩)
        · rcases Bool.or_eq_true _ _ ▸ h with h | h
          · exact .inl h
          · exact .inr ⟨1,by omega,by rw [stateAt,stateAt_zero]; exact h⟩
        · exact .inr ⟨m+1,by omega,h⟩
      · rintro (h | ⟨m,hm,h⟩)
        · exact .inl (by simp [h])
        · cases m with
          | zero => exact .inl (by simp [hs h])
          | succ m => exact .inr ⟨m,by omega,h⟩

/-- What is shown of a watched run holds of the run itself. -/
theorem Guarded.of_monitored {T : σ × Bool → Op → σ × Bool → Prop}
    {R : Except ε α → σ × Bool → Prop} (h : (M.monitored P).Guarded T R p (s,b))
    (hS : ∀ x op y, T x op y → S x.1 op y.1) (hQ : ∀ r x, R r x → Q r x.1) : M.Guarded S Q p s := by
  induction p generalizing s b with
  | done r => exact hQ r _ h
  | call op next ih => exact ⟨hS _ _ _ h.1,ih _ h.2⟩

/-- A run that never shows `P`, or does not need to, leaves the memory as it is. -/
theorem Guarded.monitored (h : M.Guarded S Q p s)
    (hP : b=false → ∀ s op s', S s op s' → P s'=false) :
    (M.monitored P).Guarded (fun x op y => S x.1 op y.1 ∧ x.2=b ∧ y.2=b)
      (fun r x => Q r x.1 ∧ x.2=b) p (s,b) := by
  induction p generalizing s with
  | done r => exact ⟨h,rfl⟩
  | call op next ih =>
    have hb : (b || P (M.exec op s).2)=b := by
      cases b with
      | true => rfl
      | false => simpa using hP rfl _ _ _ h.1
    refine ⟨⟨h.1,rfl,hb⟩,?_⟩
    show (M.monitored P).Guarded _ _ _ ((M.exec op s).2,b || P (M.exec op s).2)
    rw [hb]
    exact ih _ h.2

end Machine

end Ash.DurablePrograms
