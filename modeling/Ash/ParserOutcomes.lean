import Ash.TextSlices

/-! # What parsers accept

A parser returns a result, an error of its own, or a fault: a slice outside its input, or
a loop without fuel.  `Yields r P` says that `r` is free of faults and succeeds with just
the results in `P`; `Parses max x P w` says the same of a parser that also counts, where a
result `a` costs `w a` and the count stays within `max`. -/

namespace Ash.ParserOutcomes
open ByteCodecs TextSlices

inductive Fault (ε : Type) where
  | error (error : ε)
  | panic
  | outOfFuel
  deriving DecidableEq

abbrev Fallible (ε : Type) := Except (Fault ε)

variable {ε α β : Type}

def Fallible.fail (error : ε) : Fallible ε α := .error (.error error)

/-- A slice of a text, which panics outside it. -/
def cut (text : Text) (start stop : ℕ) : Fallible ε Text :=
  match slice text start stop with
  | some part => .ok part
  | none => .error .panic

variable {γ δ : Type}

theorem forall₂_mem_left {R : γ → δ → Prop} {cs : List γ} {ds : List δ} (h : List.Forall₂ R cs ds)
    {c : γ} (hc : c∈cs) : ∃ d∈ds, R c d := by
  induction h with
  | nil => cases hc
  | cons hhead _ ih =>
    obtain rfl | hc := List.mem_cons.1 hc
    · exact ⟨_,List.mem_cons_self,hhead⟩
    · obtain ⟨d,hd,hR⟩ := ih hc
      exact ⟨d,List.mem_cons_of_mem _ hd,hR⟩

theorem forall₂_and_right {R : γ → δ → Prop} {Q : δ → Prop} {cs : List γ} {ds : List δ} :
    List.Forall₂ (fun c d => R c d ∧ Q d) cs ds ↔ List.Forall₂ R cs ds ∧ ∀ d∈ds, Q d := by
  constructor
  · intro h
    induction h with
    | nil => exact ⟨.nil,by simp⟩
    | cons hhead _ ih => exact ⟨.cons hhead.1 ih.1,by simpa using ⟨hhead.2,ih.2⟩⟩
  · rintro ⟨h,hQ⟩
    induction h with
    | nil => exact .nil
    | cons hhead _ ih =>
      rw [List.forall_mem_cons] at hQ
      exact .cons ⟨hhead,hQ.1⟩ (ih hQ.2)

/-! ## Results -/

structure Yields (r : Fallible ε α) (P : α → Prop) : Prop where
  ok_iff : ∀ a, r=.ok a ↔ P a
  noPanic : r≠.error .panic
  fuelled : r≠.error .outOfFuel

section
variable {r : Fallible ε α} {P Q : α → Prop}

theorem yields_ok (a : α) : Yields (.ok a : Fallible ε α) (· = a) :=
  ⟨fun b => ⟨fun h => (Except.ok.inj h).symm,fun h => h ▸ rfl⟩,by simp,by simp⟩

theorem yields_pure (a : α) : Yields (pure a : Fallible ε α) (· = a) := yields_ok a

theorem yields_fail (e : ε) (h : ∀ a, ¬ P a) : Yields (Fallible.fail e : Fallible ε α) P :=
  ⟨fun a => by simp [Fallible.fail,h a],by simp [Fallible.fail],by simp [Fallible.fail]⟩

theorem Yields.congr (h : Yields r P) (hPQ : ∀ a, P a ↔ Q a) : Yields r Q :=
  ⟨fun a => (h.ok_iff a).trans (hPQ a),h.noPanic,h.fuelled⟩

/-- A constructor that checks its arguments: only the values that pass matter. -/
theorem yields_checked {γ δ : Type} {checked : Except δ γ} {S : γ → Prop}
    (h : ∀ c, checked=.ok c ↔ S c) (f : γ → α) (hok : ∀ c, checked=.ok c → r=.ok (f c))
    (herror : ∀ d, checked=.error d → ∃ e, r=.fail e) : Yields r fun a => ∃ c, S c ∧ a=f c := by
  cases checked with
  | ok c =>
    rw [hok c rfl]
    refine (yields_ok (f c)).congr fun a => ?_
    simp [← h]
  | error d =>
    obtain ⟨e,rfl⟩ := herror d rfl
    refine yields_fail e fun a => ?_
    simp [← h]

theorem Yields.bind {f : α → Fallible ε β} {R : α → β → Prop} (hr : Yields r P)
    (hf : ∀ a, P a → Yields (f a) (R a)) : Yields (r >>= f) fun b => ∃ a, P a ∧ R a b := by
  obtain ⟨hok,hpanic,hfuel⟩ := hr
  cases r with
  | error e =>
    refine ⟨fun b => ?_,fun h => hpanic ?_,fun h => hfuel ?_⟩
    · constructor
      · intro h
        cases h
      · rintro ⟨a,ha,-⟩
        cases (hok a).2 ha
    · exact congrArg Except.error (Except.error.inj h)
    · exact congrArg Except.error (Except.error.inj h)
  | ok a =>
    have ha := (hok a).1 rfl
    obtain ⟨hok',hpanic',hfuel'⟩ := hf a ha
    refine ⟨fun b => (hok' b).trans ⟨fun h => ⟨a,ha,h⟩,?_⟩,hpanic',hfuel'⟩
    rintro ⟨a',ha',h⟩
    cases (hok a').2 ha'
    exact h

theorem Yields.bind_fail {S : β → Prop} (hr : Yields r P) (e : ε)
    (hS : ∀ b, ¬ S b) : Yields (r >>= fun _ => .fail e) S :=
  (hr.bind fun _ _ => yields_fail e hS).congr fun b => by simp [hS b]

theorem Yields.map (h : Yields r P) (f : α → β) :
    Yields (r.map f) fun b => ∃ a, P a ∧ b=f a := by
  have hmap : r.map f=r >>= fun a => .ok (f a) := by
    cases r <;> rfl
  rw [hmap]
  exact h.bind fun a _ => yields_ok (f a)

theorem yields_ite {c : Prop} [Decidable c] {s : Fallible ε α} (ht : c → Yields r P)
    (he : ¬ c → Yields s Q) : Yields (if c then r else s) fun a => (c ∧ P a) ∨ (¬ c ∧ Q a) := by
  by_cases hc : c
  · rw [if_pos hc]
    exact (ht hc).congr fun a => by simp [hc]
  · rw [if_neg hc]
    exact (he hc).congr fun a => by simp [hc]

/-- A test that fails before anything else is done. -/
theorem yields_guard {c : Prop} [Decidable c] (e : ε) (h : ¬ c → Yields r P) :
    Yields (if c then .fail e else r) fun a => ¬ c ∧ P a :=
  (yields_ite (fun _ => yields_fail e fun _ => id) h).congr fun a => by simp

theorem yields_cut {text : Text} {start stop : ℕ} (left middle right : Text)
    (h : text=left++middle++right) (hstart : start=byteLength left)
    (hstop : stop=byteLength (left++middle)) :
    Yields (cut text start stop : Fallible ε Text) (· = middle) := by
  subst h hstart hstop
  rw [cut,slice_append]
  exact yields_ok middle

end

/-! ## Counting parsers -/

abbrev Parse (ε : Type) := StateT ℕ (Fallible ε)

def Parse.fail (error : ε) : Parse ε α := fun _ => .fail error

def Parse.outcome (result : Fallible ε α) : Parse ε α := fun count =>
  result.map fun a => (a,count)

structure Parses (max : ℕ) (x : Parse ε α) (P : α → Prop) (w : α → ℕ) : Prop where
  ok_iff : ∀ v ≤ max, ∀ a v', x v=.ok (a,v') ↔ P a ∧ v'=v+w a ∧ v' ≤ max
  noPanic : ∀ v ≤ max, x v≠.error .panic
  fuelled : ∀ v ≤ max, x v≠.error .outOfFuel

section
variable {max : ℕ} {x : Parse ε α} {P Q : α → Prop} {w u : α → ℕ}

theorem parses_iff : Parses max x P w ↔
    ∀ v ≤ max, Yields (x v) fun r => P r.1 ∧ r.2=v+w r.1 ∧ r.2 ≤ max :=
  ⟨fun h v hv => ⟨fun r => h.ok_iff v hv r.1 r.2,h.noPanic v hv,h.fuelled v hv⟩,fun h =>
    ⟨fun v hv a v' => (h v hv).ok_iff (a,v'),fun v hv => (h v hv).noPanic,
      fun v hv => (h v hv).fuelled⟩⟩

theorem Yields.parses {r : Fallible ε α} (h : Yields r P) :
    Parses max (Parse.outcome r) P fun _ => 0 := by
  refine parses_iff.2 fun v hv => (h.map fun a => (a,v)).congr fun found => ?_
  constructor
  · rintro ⟨a,ha,rfl⟩
    exact ⟨ha,rfl,hv⟩
  · rintro ⟨hP,hfound,-⟩
    exact ⟨found.1,hP,Prod.ext rfl hfound⟩

theorem parses_pure (a : α) : Parses max (pure a : Parse ε α) (· = a) fun _ => 0 :=
  (yields_ok a).parses

theorem parses_fail (e : ε) (h : ∀ a, ¬ P a) : Parses max (Parse.fail e : Parse ε α) P w :=
  parses_iff.2 fun _ _ => yields_fail e fun found hfound => h found.1 hfound.1

theorem Parses.congr (h : Parses max x P w) (hPQ : ∀ a, P a ↔ Q a) (hw : ∀ a, Q a → w a=u a) :
    Parses max x Q u := by
  refine parses_iff.2 fun v hv => (parses_iff.1 h v hv).congr fun found => ?_
  rw [hPQ]
  exact and_congr_right fun hQ => by rw [hw _ hQ]

variable {t : β → ℕ}

/-- Sequencing: the costs of both parts add up. -/
theorem Parses.bind {f : α → Parse ε β} {R : α → β → Prop} {Q : β → Prop} {u : α → β → ℕ}
    (hx : Parses max x P w) (hf : ∀ a, P a → Parses max (f a) (R a) (u a))
    (hQ : ∀ b, Q b ↔ ∃ a, P a ∧ R a b) (ht : ∀ a b, P a → R a b → t b=w a+u a b) :
    Parses max (x >>= f) Q t := by
  refine parses_iff.2 fun v hv => ((parses_iff.1 hx v hv).bind fun p hp =>
    parses_iff.1 (hf p.1 hp.1) p.2 hp.2.2).congr fun found => ?_
  constructor
  · rintro ⟨p,⟨ha,hp,-⟩,hab,hfound,hle⟩
    have hcost := ht p.1 found.1 ha hab
    exact ⟨(hQ _).2 ⟨p.1,ha,hab⟩,by omega,hle⟩
  · rintro ⟨hb,hfound,hle⟩
    obtain ⟨a,ha,hab⟩ := (hQ _).1 hb
    have hcost := ht a found.1 ha hab
    exact ⟨(a,v+w a),⟨ha,rfl,by dsimp only; omega⟩,hab,by dsimp only; omega,hle⟩

theorem Parses.map (hx : Parses max x P w) (f : α → β) (ht : ∀ a, P a → t (f a)=w a) :
    Parses max (f <$> x) (fun b => ∃ a, P a ∧ b=f a) t := by
  have hmap : f <$> x=x >>= fun a => pure (f a) := (bind_pure_comp f x).symm
  rw [hmap]
  refine hx.bind (fun a _ => parses_pure (f a)) (fun b => Iff.rfl) ?_
  rintro a b ha rfl
  exact ht a ha

theorem parses_ite {c : Prop} [Decidable c] {y : Parse ε α} (ht : c → Parses max x P w)
    (he : ¬ c → Parses max y Q w) :
    Parses max (if c then x else y) (fun a => (c ∧ P a) ∨ (¬ c ∧ Q a)) w := by
  by_cases hc : c
  · rw [if_pos hc]
    exact (ht hc).congr (fun a => by simp [hc]) fun _ _ => rfl
  · rw [if_neg hc]
    exact (he hc).congr (fun a => by simp [hc]) fun _ _ => rfl

theorem parses_guard {c : Prop} [Decidable c] (e : ε) (h : ¬ c → Parses max x P w) :
    Parses max (if c then .fail e else x) (fun a => ¬ c ∧ P a) w :=
  (parses_ite (fun _ => parses_fail e fun _ => id) h).congr (fun a => by simp) fun _ _ => rfl

/-- A counting parser run from zero. -/
theorem Parses.yields (h : Parses max x P w) :
    Yields (x 0) fun found => P found.1 ∧ found.2=w found.1 ∧ w found.1 ≤ max := by
  refine (parses_iff.1 h 0 (Nat.zero_le _)).congr fun found => and_congr_right fun _ => ?_
  rw [Nat.zero_add]
  exact and_congr_right fun hcost => by rw [hcost]

/-- A parser run over every item of a list. -/
theorem parses_mapM {γ : Type} {f : γ → Parse ε α} {R : γ → α → Prop}
    (hf : ∀ c, Parses max (f c) (R c) w) (items : List γ) :
    Parses max (items.mapM f) (List.Forall₂ R items) fun as => (as.map w).sum := by
  induction items with
  | nil =>
    rw [List.mapM_nil]
    refine (parses_pure []).congr (fun as => ?_) ?_
    · rw [List.forall₂_nil_left_iff]
    · intro as has
      cases has
      rfl
  | cons c items ih =>
    have hrest : ∀ a, Parses max (do let as ← items.mapM f; pure (a::as))
        (fun bs => ∃ as, List.Forall₂ R items as ∧ bs=a::as) fun bs => (bs.tail.map w).sum := by
      intro a
      refine ih.bind (fun as _ => parses_pure (a::as)) (fun bs => Iff.rfl) ?_
      rintro as bs - rfl
      rfl
    rw [List.mapM_cons]
    refine (hf c).bind (fun a _ => hrest a) (fun bs => ?_) ?_
    · constructor
      · rintro (_ | ⟨ha,has⟩)
        exact ⟨_,ha,_,has,rfl⟩
      · rintro ⟨a,ha,as,has,rfl⟩
        exact .cons ha has
    · rintro a bs - ⟨as,-,rfl⟩
      rfl

end

end Ash.ParserOutcomes
