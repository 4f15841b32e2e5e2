import Ash.Journals
import Ash.TransactionPreparation

/-! # Preparing every action

The loop keeps the journal entries of the actions to come free and those of the
actions done in place. -/

namespace Ash.PreparationLoop
open WorkspaceOperations WorkspacePaths WorkspaceRules CheckedPaths TransactionActions
open TransactionManifest TransactionSteps TransactionReads ActionSteps JournalStates JournalActions
open FileTransactions InternalState Journals TransactionPreparation

variable {hash : Bytes → Digest} {limits : FileTransactionLimits} {I : Watch}
variable {t t' t₁ : Tree} {n : ℕ}

/-- No journal entry is anything but a file. -/
def Leaves (t : Tree) : Prop :=
  ∀ m, FileOrAbsent t (stagePath preparingPath m) ∧ FileOrAbsent t (removedPath preparingPath m)

/-- The journal entries from `n` on can be created. -/
def Spare (n : ℕ) (t : Tree) : Prop :=
  ∀ m, n ≤ m → m < maxActions →
    t.Free (stagePath preparingPath m) ∧ t.Free (removedPath preparingPath m)

/-- A tree that preparing the actions from `n` on passes through. -/
structure Staged (n : ℕ) (t t' : Tree) : Prop where
  keeps : t.Keeps (fun p => ∃ m, n ≤ m ∧ m < maxActions ∧ entries m p) t'
  leaves : Leaves t'

/-- The records that preparation returns, with the changes they stand for. -/
structure PreparesAll (n : ℕ) (actions : List FileAction) (totals : TransactionTotals) (v : View)
    (slots : List (Slot hash limits)) (t' : Tree) : Prop where
  indexes : slots.map Slot.index=List.range' n slots.length
  records : List.Forall₂ (fun action s => RecordOf action s.action ∧ Realizes action v s.change)
    actions slots
  prepared : ∀ s∈slots, PreparedIn preparingPath s.index t' s.change
  sizes : validateManifestSizes totals.materialized totals.preimages (slots.map Slot.action) =
    .ok ()

variable {p : Path} {v : View}

theorem entries_injective {m k : ℕ} (hm : m < maxActions) (hk : k < maxActions) (h : entries m p)
    (h' : entries k p) : m=k := by
  rcases h with rfl | rfl <;> rcases h' with h' | h'
  · exact indexedPath_injective hm hk h'
  · exact absurd h' (preparing_stage_ne_removed _ _)
  · exact absurd h'.symm (preparing_stage_ne_removed _ _)
  · exact indexedPath_injective hm hk h'

theorem Staged.refl (h : Leaves t) : Staged n t t := ⟨.refl t,h⟩

theorem leaves_of_stages (h : Leaves t) (hst : Stages n t t') : Leaves t' := by
  intro m
  have hleaf : ∀ {p}, FileOrAbsent t p → FileOrAbsent t' p := by
    intro p hp
    by_cases he : entries n p
    · rcases he with rfl | rfl
      · exact hst.stage
      · exact hst.removed
    · exact FileOrAbsent.keeps hp hst.keeps he
  exact ⟨hleaf (h m).1,hleaf (h m).2⟩

theorem staged_of_stages (hn : n < maxActions) (h : Leaves t) (hst : Stages n t t') :
    Staged n t t' :=
  ⟨hst.keeps.mono fun _ hp => ⟨n,le_rfl,hn,hp⟩,leaves_of_stages h hst⟩

theorem Staged.trans (h : Staged n t t₁) (h' : Staged (n+1) t₁ t') : Staged n t t' := by
  refine ⟨h.keeps.trans (h'.keeps.mono ?_),h'.leaves⟩
  rintro p ⟨m,hm,hlt,hp⟩
  exact ⟨m,by omega,hlt,hp⟩

/-- Preparing one action leaves the entries of the next ones free. -/
theorem Spare.stages (h : Spare n t) (hn : n < maxActions) (hst : Stages n t t') :
    Spare (n+1) t' := by
  intro m hm hlt
  obtain ⟨hs,hr⟩ := h n le_rfl hn
  have hne : ∀ {p}, entries m p → ¬ entries n p := by
    intro p hp hp'
    have := entries_injective hlt hn hp hp'
    omega
  obtain ⟨hs',hr'⟩ := h m (by omega) hlt
  exact ⟨hst.free hs hr (hne (.inl rfl)) hs',hst.free hs hr (hne (.inr rfl)) hr'⟩

theorem Staged.directory (h : Staged n t t') (hsp : Spare n t) (hp : t.node p=some .directory) :
    t'.node p=some .directory := by
  rw [h.keeps.node,hp]
  rintro ⟨m,hm,hlt,rfl | rfl⟩
  · cases (hsp m hm hlt).1.node.symm.trans hp
  · cases (hsp m hm hlt).2.node.symm.trans hp

/-- An action prepared before stays prepared. -/
theorem Staged.prepared (h : Staged (n+1) t t') (hsp : Spare (n+1) t) (hn : n < maxActions)
    {s : Slot hash limits} (hs : s.index=n) (hp : PreparedIn preparingPath s.index t s.change) :
    PreparedIn preparingPath s.index t' s.change := by
  have hentry : ∀ {p}, entries n p → ¬ ∃ m, n+1 ≤ m ∧ m < maxActions ∧ entries m p := by
    rintro p hp ⟨m,hm,hlt,he⟩
    have := entries_injective hn hlt hp he
    omega
  subst hs
  refine hp.keeps h.keeps (hentry (.inl rfl)) (hentry (.inr rfl)) ?_ fun p hd => h.directory hsp hd
  rintro p htgt ⟨m,-,-,he⟩
  exact outside_not_entry (s.outside_target htgt) m he

theorem Realizes.congr {action : FileAction} {w : View} {c : Change} (h : Realizes action v c)
    (hvw : ∀ path∈action.paths, v (components path)=w (components path)) :
    Realizes action w c :=
  fun u hu => h u fun path hp => (hu path hp).trans (hvw path hp).symm

/-- Every action is prepared, or the first that cannot be is reported.  Only an action
that names the state directory is refused for it. -/
theorem safe_prepareAll {Q : Except (ℕ × StepFailure) (List PreparedAction) → Tree → Prop}
    {actions : List FileAction} {totals : TransactionTotals}
    (hadm : ∀ action∈actions, ∀ path∈action.paths, AdmittedPath ⟨false⟩ path)
    (hshape : ∀ action∈actions, action.shapeValid=true)
    (hnodup : ∀ action∈actions, action.paths.Nodup) (hlen : n+actions.length ≤ maxActions)
    (hspare : Spare n t) (hleaves : Leaves t) (hv : Shows v t) (hI : ∀ t', Staged n t t' → I t')
    (hdone : ∀ (slots : List (Slot hash limits)) t', Staged n t t' →
      PreparesAll n actions totals v slots t' → Q (.ok (slots.map Slot.action)) t')
    (herr : ∀ k e t', BenignStep e ∨ e=.platform .reservedPath ∧ NamesState actions →
      Staged n t t' → Q (.error (k,e)) t') :
    Safe I Q (prepareAll hash ⟨true⟩ limits n totals actions) t := by
  induction actions generalizing n t totals Q with
  | nil =>
    exact safe_pure.2 (hdone [] t (.refl hleaves) ⟨rfl,.nil,by simp,rfl⟩)
  | cons action rest ih =>
    rw [List.forall_mem_cons] at hadm hshape hnodup
    rw [List.length_cons] at hlen
    have hn : n < maxActions := by omega
    obtain ⟨hs,hr⟩ := hspare n le_rfl hn
    by_cases hresv : ∃ path∈action.paths, isReserved path=true
    · refine safe_bind.2 (safe_mapError.2 (safe_prepareAction_reserved hadm.1 hshape.1 hresv
        (hI t (.refl hleaves)) fun e he => herr n e t (he.imp_right fun he => ⟨he,?_⟩)
        (.refl hleaves)))
      exact ⟨action,List.mem_cons_self,hresv⟩
    have hadm₁ : ∀ path∈action.paths, AdmittedPath ⟨true⟩ path := fun path hp =>
      (hadm.1 path hp).or_reserved.resolve_right fun hr => hresv ⟨path,hp,hr⟩
    refine safe_bind.2 (safe_mapError.2 (safe_prepareAction hadm₁ hs hr
      (fun t₁ hst => hI t₁ (staged_of_stages hn hleaves hst)) ?_
      (fun e t₁ he hst => herr n e t₁ (.inl he) (staged_of_stages hn hleaves hst)) hshape.1))
    intro record totals' t₁ c hst hprep
    have hst₁ := staged_of_stages hn hleaves hst
    have hsp₁ := hspare.stages hn hst
    have hv₁ := hv.keeps hst.keeps fun p he hp => outside_not_entry hp n he
    refine safe_bind.2 (ih hadm.2 hshape.2 hnodup.2 (by omega) hsp₁ hst₁.leaves hv₁
      (fun t₂ h₂ => hI t₂ (hst₁.trans h₂)) ?_ fun k e t₂ he h₂ =>
        herr k e t₂ (he.imp_right fun he => ⟨he.1,he.2.cons⟩) (hst₁.trans h₂))
    intro slots t₂ h₂ hall
    have hpaths : record.paths=action.paths := by
      obtain ⟨_,_,_,rfl,-⟩ := hprep.recordOf
      rfl
    let s : Slot hash limits := ⟨n,record,c,hprep.describes,by rw [hpaths]; exact hadm₁,
      by rw [hpaths]; exact hnodup.1,hprep.fits⟩
    refine safe_pure.2 (hdone (s::slots) t₂ (hst₁.trans h₂) ⟨?_,?_,?_,?_⟩)
    · rw [List.map_cons,List.length_cons,List.range'_succ,hall.indexes]
    · refine .cons ⟨hprep.recordOf,Realizes.congr hprep.realizes fun path hpath => ?_⟩ hall.records
      exact hv _ (outside_components (hadm₁ path hpath))
    · rintro s' hs'
      rcases List.mem_cons.1 hs' with rfl | hs'
      · exact h₂.prepared hsp₁ hn rfl hprep.prepared
      · exact hall.prepared s' hs'
    · rw [List.map_cons,hprep.charged]
      exact hall.sizes

end Ash.PreparationLoop
