import Mathlib.Data.List.Forall2

/-! # Computations that may fail

When a sequence of checked steps succeeds. -/

namespace Ash.Outcomes

variable {ε α β : Type}

variable {x : Except ε α} {f : α → Except ε β} {b : β} {e : ε} {as : List α} {R : α → β → Prop}
  {bs : List β}

theorem bind_ok_iff : (x >>= f)=.ok b ↔ ∃ a, x=.ok a ∧ f a=.ok b := by
  cases x with
  | error e =>
    constructor
    · intro h
      cases h
    · rintro ⟨a,h,-⟩
      cases h
  | ok a => simp [bind,Except.bind]

theorem bind_unit_ok_iff {x : Except ε Unit} {y : Except ε β} :
    (x >>= fun _ => y)=.ok b ↔ x=.ok () ∧ y=.ok b := by
  rw [bind_ok_iff]
  constructor
  · rintro ⟨⟨⟩,hx,hy⟩
    exact ⟨hx,hy⟩
  · rintro ⟨hx,hy⟩
    exact ⟨(),hx,hy⟩

theorem map_ok_iff {f : α → β} : f <$> x=.ok b ↔ ∃ a, x=.ok a ∧ f a=b := by
  cases x with
  | error | ok => simp [Functor.map,Except.map]

variable {a : α} {c : Prop} {u : Unit} {g : α → β}

theorem pure_ok_iff {b : α} : (pure a : Except ε α)=.ok b ↔ a=b := by
  simp [pure,Except.pure]

theorem error_ok_iff {P : Prop} (h : ¬ P) : (.error e : Except ε α)=.ok a ↔ P :=
  iff_of_false nofun h

theorem ite_error_ok_iff [Decidable c] : (if c then .error e else x)=.ok a ↔ ¬ c ∧ x=.ok a := by
  split
  · next h => simp [h]
  · next h => simp [h]

theorem mapError_ok_iff {δ : Type*} {f : ε → δ} : x.mapError f=.ok a ↔ x=.ok a := by
  cases x <;> simp [Except.mapError]

/-- A check with its error. -/
def require (c : Prop) [Decidable c] (e : ε) : Except ε Unit := if c then .ok () else .error e

@[simp] theorem require_ok_iff [Decidable c] : require c e=.ok u ↔ c := by
  unfold require
  split
  · next h => simp [h]
  · next h => simp [h]

/-- A check of every item, in order. -/
def each (check : α → Except ε Unit) : List α → Except ε Unit
  | [] => .ok ()
  | a::as => do
      check a
      each check as

theorem each_ok_iff {check : α → Except ε Unit} :
    each check as=.ok u ↔ ∀ a∈as, check a=.ok () := by
  induction as with
  | nil => simp [each]
  | cons a as ih => rw [each,bind_unit_ok_iff,ih,List.forall_mem_cons]

theorem mapM_ok_iff (h : ∀ a b, f a=.ok b ↔ R a b) (as : List α) (bs : List β) :
    as.mapM f=.ok bs ↔ List.Forall₂ R as bs := by
  induction as generalizing bs with
  | nil =>
    rw [List.mapM_nil,pure_ok_iff,List.forall₂_nil_left_iff]
    exact eq_comm
  | cons a as ih =>
    rw [List.mapM_cons,bind_ok_iff]
    simp only [bind_ok_iff,pure_ok_iff,h,ih]
    constructor
    · rintro ⟨b,hb,bs',hbs,rfl⟩
      exact .cons hb hbs
    · rintro (_ | ⟨hb,hbs⟩)
      exact ⟨_,hb,_,hbs,rfl⟩

theorem forall₂_comp {γ : Type*} {S : β → γ → Prop} {T : α → γ → Prop}
    (h : ∀ a b c, R a b → S b c → T a c) {cs : List γ} (hR : List.Forall₂ R as bs)
    (hS : List.Forall₂ S bs cs) : List.Forall₂ T as cs := by
  induction hR generalizing cs with
  | nil =>
    cases hS
    exact .nil
  | cons hab _ ih =>
    obtain _ | ⟨hbc,hrest⟩ := hS
    exact .cons (h _ _ _ hab hbc) (ih hrest)

theorem exists_mem_of_forall₂_right (h : List.Forall₂ R as bs) (hb : b∈bs) : ∃ a∈as, R a b := by
  induction h with
  | nil => cases hb
  | cons hab _ ih =>
    obtain rfl | hmem := List.mem_cons.1 hb
    · exact ⟨_,List.mem_cons_self,hab⟩
    · obtain ⟨a,ha,hab⟩ := ih hmem
      exact ⟨a,List.mem_cons_of_mem _ ha,hab⟩

theorem exists_mem_of_forall₂_left {a : α} (h : List.Forall₂ R as bs) (ha : a∈as) :
    ∃ b∈bs, R a b :=
  exists_mem_of_forall₂_right h.flip ha

theorem exists_forall₂ (h : ∀ a∈as, ∃ b, R a b) : ∃ bs, List.Forall₂ R as bs := by
  induction as with
  | nil => exact ⟨[],.nil⟩
  | cons a as ih =>
    obtain ⟨hfirst,hrest⟩ := List.forall_mem_cons.1 h
    obtain ⟨b,hb⟩ := hfirst
    obtain ⟨bs,hbs⟩ := ih hrest
    exact ⟨b::bs,.cons hb hbs⟩

theorem pairwise_of_forall₂ {P : α → α → Prop} {Q : β → β → Prop}
    (h : ∀ a a' b b', R a b → R a' b' → P a a' → Q b b') (hR : List.Forall₂ R as bs)
    (hP : as.Pairwise P) : bs.Pairwise Q := by
  induction hR with
  | nil => exact .nil
  | @cons a b as bs hab hrest ih =>
    obtain ⟨hfirst,htail⟩ := List.pairwise_cons.1 hP
    refine List.pairwise_cons.2 ⟨fun b' hb' => ?_,ih htail⟩
    obtain ⟨a',ha',hab'⟩ := exists_mem_of_forall₂_right hrest hb'
    exact h a a' b b' hab hab' (hfirst a' ha')

/-- A mapping that computes a function wherever it does not fail. -/
theorem mapM_ok_iff_eq_map {C : α → Prop} (h : ∀ a b, f a=.ok b ↔ C a ∧ b=g a) (as : List α)
    (bs : List β) : as.mapM f=.ok bs ↔ (∀ a∈as, C a) ∧ bs=as.map g := by
  rw [mapM_ok_iff h as bs,List.forall₂_and_left]
  refine and_congr_right fun _ => ⟨fun hall => ?_,?_⟩
  · have heq : List.Forall₂ (· = ·) bs (as.map g) := List.forall₂_map_right_iff.2 hall.flip
    rwa [List.forall₂_eq_eq_eq] at heq
  · rintro rfl
    rw [List.forall₂_map_right_iff,List.forall₂_same]
    exact fun _ _ => rfl

theorem bind_ne_error (hx : x≠.error e) (hf : ∀ a, x=.ok a → f a≠.error e) :
    (x >>= f)≠.error e := by
  cases x with
  | error found => exact fun h => hx (congrArg Except.error (Except.error.inj h))
  | ok a => exact hf a rfl

theorem require_ne_error [Decidable c] {found : ε} (h : found≠e) :
    require c found≠.error e := by
  rw [require]
  split
  · exact nofun
  · exact fun heq => h (Except.error.inj heq)

theorem mapM_ne_error (h : ∀ a∈as, f a≠.error e) : as.mapM f≠.error e := by
  induction as with
  | nil => exact nofun
  | cons a as ih =>
    obtain ⟨hfirst,hrest⟩ := List.forall_mem_cons.1 h
    rw [List.mapM_cons]
    exact bind_ne_error hfirst fun _ _ => bind_ne_error (ih hrest) fun _ _ => nofun

theorem foldlM_ne_error {f : β → α → Except ε β} (h : ∀ b a, f b a≠.error e) (b : β) :
    as.foldlM f b≠.error e := by
  induction as generalizing b with
  | nil => exact nofun
  | cons a as ih =>
    rw [List.foldlM_cons]
    exact bind_ne_error (h b a) fun next _ => ih next

theorem exists_mapM_ok : (∃ bs, as.mapM f=.ok bs) ↔ ∀ a∈as, ∃ b, f a=.ok b := by
  constructor
  · rintro ⟨bs,hbs⟩ a ha
    obtain ⟨b,-,hb⟩ :=
      exists_mem_of_forall₂_left ((mapM_ok_iff (fun _ _ => Iff.rfl) as bs).1 hbs) ha
    exact ⟨b,hb⟩
  · intro h
    obtain ⟨bs,hall⟩ := exists_forall₂ h
    exact ⟨bs,(mapM_ok_iff (fun _ _ => Iff.rfl) as bs).2 hall⟩

/-- Reading every item undoes writing every item. -/
theorem mapM_ok_iff_map {g : β → α} {C : β → Prop} (h : ∀ a b, f a=.ok b ↔ a=g b ∧ C b)
    (as : List α) (bs : List β) : as.mapM f=.ok bs ↔ as=bs.map g ∧ ∀ b∈bs, C b := by
  rw [mapM_ok_iff h as bs]
  constructor
  · intro hall
    induction hall with
    | nil => simp
    | cons hb _ ih =>
      obtain ⟨rfl,hC⟩ := hb
      exact ⟨by rw [ih.1,List.map_cons],List.forall_mem_cons.2 ⟨hC,ih.2⟩⟩
  · rintro ⟨rfl,hC⟩
    rw [List.forall₂_map_left_iff,List.forall₂_same]
    exact fun b hb => ⟨rfl,hC b hb⟩

/-- What is read back cannot be written from two values. -/
theorem injective_of_reader {g : β → α} (h : ∀ a b, f a=.ok b ↔ a=g b) :
    Function.Injective g := by
  intro b c hbc
  have hb := (h (g b) b).2 rfl
  rw [hbc,(h (g c) c).2 rfl] at hb
  exact (Except.ok.inj hb).symm

/-- Every item is related to the next one. -/
def ascending (r : α → α → Bool) : List α → Bool
  | a::b::items => r a b && ascending r (b::items)
  | _ => true

theorem ascending_lt_iff {κ : Type*} [LT κ] [DecidableLT κ]
    [Trans (α := κ) (· < ·) (· < ·) (· < ·)] {key : α → κ} {items : List α} :
    ascending (fun a b => decide (key a < key b)) items=true ↔
      items.Pairwise fun a b => key a < key b := by
  induction items with
  | nil => simp [ascending]
  | cons a items ih =>
    cases items with
    | nil => simp [ascending]
    | cons b items =>
      rw [ascending,Bool.and_eq_true,decide_eq_true_iff,ih]
      simp only [List.pairwise_cons]
      constructor
      · rintro ⟨hab,hb,hrest⟩
        refine ⟨List.forall_mem_cons.2 ⟨hab,fun c hc => Std.lt_trans hab (hb c hc)⟩,hb,hrest⟩
      · rintro ⟨ha,hb,hrest⟩
        exact ⟨ha b List.mem_cons_self,hb,hrest⟩

end Ash.Outcomes
