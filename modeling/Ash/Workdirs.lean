import Ash.PreparationLoop

/-! # The journal directory under its working name

Made afresh by every transaction, filled by preparation, and complete once the manifest
is written. -/

namespace Ash.Workdirs
open FileTrees WorkspaceOperations WorkspacePaths WorkspaceRules TransactionSteps TransactionWrites
open ActionSteps JournalStates FileTransactions InternalState Journals TransactionPreparation
open PreparationLoop

variable {I : Watch} {t b : Tree} {v : View}

/-- The journal directory under its working name. -/
structure Workdir (t : Tree) : Prop where
  initialized : Initialized t
  locked : ∃ i, t.node lockPath=some (.file i)
  unpublished : t.node transactionPath=none
  preparing : t.node preparingPath=some .directory
  stage : t.node (preparingPath++[stageDirectory])=some .directory
  removed : t.node (preparingPath++[removedDirectory])=some .directory
  leaves : Leaves t
  closed : ∀ r, r∉journalParts → (∀ m, ¬ entries m (preparingPath++r)) →
    t.node (preparingPath++r)=none

theorem Workdir.ready (h : Workdir t) : Ready t :=
  ⟨h.initialized,h.unpublished,.inr h.preparing⟩

variable {p : Path} {t' : Tree} {Q : Except PlatformError Unit → Tree → Prop}

theorem length_of_entries {m : ℕ} (h : entries m p) : p.length=4 := by
  rcases h with rfl | rfl
  · simp [stagePath,indexedPath,preparingPath,statePath,nativeRoot]
  · simp [removedPath,indexedPath,preparingPath,statePath,nativeRoot]

/-- Filling the journal directory keeps it a journal directory. -/
theorem Workdir.keeps {P : Path → Prop} (h : Workdir t) (hk : t.Keeps P b) (hl : Leaves b)
    (hP : ∀ p, P p → p=preparingPath++[manifestFile] ∨ ∃ m, entries m p) : Workdir b := by
  have hnot : ∀ p : Path, p≠preparingPath++[manifestFile] → p.length≠4 → ¬ P p := by
    intro p hne hlen hp
    rcases hP p hp with h | ⟨m,hm⟩
    · exact hne h
    · exact hlen (length_of_entries hm)
  have hname : ∀ name, name≠manifestFile → ¬ P (preparingPath++[name]) := by
    intro name hne
    refine hnot _ (by simpa using hne) ?_
    simp [preparingPath,statePath,nativeRoot]
  refine ⟨h.initialized.keeps hk (hnot _ (by decide) (by decide)) (hnot _ (by decide) (by decide))
    (hnot _ (by decide) (by decide)),?_,?_,?_,?_,?_,hl,?_⟩
  · rw [hk.node _ (hnot _ (by decide) (by decide))]
    exact h.locked
  · rw [hk.node _ (hnot _ (by decide) (by decide)),h.unpublished]
  · rw [hk.node _ (hnot _ (by decide) (by decide)),h.preparing]
  · rw [hk.node _ (hname _ (by decide)),h.stage]
  · rw [hk.node _ (hname _ (by decide)),h.removed]
  · intro r hr he
    rw [hk.node,h.closed r hr he]
    intro hp
    rcases hP _ hp with hm | ⟨m,hm⟩
    · exact hr (by simp [journalParts,List.append_cancel_left hm])
    · exact he m hm

/-! ## Making it -/

/-- A tree on the way to a new journal directory. -/
theorem ready_of_preparing (h : Clean t) (hk : t.Keeps (preparingPath <+: ·) t')
    (hp : t'.node preparingPath=some .directory) : Ready t' :=
  ⟨h.toInitialized.keeps hk (by simp) (by simp) (by simp),
    by rw [hk.node _ (by simp),h.unpublished],.inr hp⟩

/-- Below a fresh journal directory there are only its two parts. -/
theorem workdir_created {t₁ t₂ t₃ : Tree} (h : Clean t)
    (hlock : ∃ i, t.node lockPath=some (.file i))
    (h₁ : t.Rebinds preparingPath (some .directory) t₁)
    (h₂ : t₁.Rebinds (preparingPath++[stageDirectory]) (some .directory) t₂)
    (h₃ : t₂.Rebinds (preparingPath++[removedDirectory]) (some .directory) t₃) :
    Workdir t₃ ∧ Spare 0 t₃ ∧ t₃.node (preparingPath++[manifestFile])=none ∧
      t.Keeps (preparingPath <+: ·) t₃ := by
  have hk : t.Keeps (preparingPath <+: ·) t₃ :=
    (h₁.keeps.mono fun p hp => hp ▸ List.prefix_refl _).trans
      ((h₂.keeps.mono fun p hp => hp ▸ List.prefix_append _ _).trans
        (h₃.keeps.mono fun p hp => hp ▸ List.prefix_append _ _))
  have hbelow : ∀ r : Path, r≠[] → r≠[stageDirectory] → r≠[removedDirectory] →
      t₃.node (preparingPath++r)=none := by
    intro r hr hs hd
    rw [h₃.node,Function.update_of_ne (by simpa using hd),h₂.node,
      Function.update_of_ne (by simpa using hs),h₁.node,Function.update_of_ne (by simpa using hr)]
    exact t.no_child_of_not_directory (by simp [h.unprepared]) hr
  have hrem : t₃.node (preparingPath++[removedDirectory])=some .directory := by
    rw [h₃.node,Function.update_self]
  have hstage : t₃.node (preparingPath++[stageDirectory])=some .directory := by
    rw [h₃.node,Function.update_of_ne (by simpa using stageDirectory_ne_removedDirectory),h₂.node,
      Function.update_self]
  have hpreparing : t₃.node preparingPath=some .directory := by
    simpa using t₃.node_parent (p := preparingPath++[stageDirectory]) (by simp) (by simp [hstage])
  have hentry : ∀ {m p}, entries m p → t₃.node p=none := by
    rintro m p (rfl | rfl)
    · simp only [stagePath,indexedPath,List.append_assoc]
      exact hbelow _ (by simp) (by simp) (by simp)
    · simp only [removedPath,indexedPath,List.append_assoc]
      exact hbelow _ (by simp) (by simp) (by simp)
  refine ⟨⟨h.toInitialized.keeps hk (by simp) (by simp) (by simp),?_,?_,hpreparing,hstage,
    hrem,fun m => ⟨.inl (hentry (.inl rfl)),.inl (hentry (.inr rfl))⟩,?_⟩,?_,?_,hk⟩
  · rw [hk.node _ (by simp)]
    exact hlock
  · rw [hk.node _ (by simp),h.unpublished]
  · intro r hr _
    simp only [journalParts,List.mem_cons,List.not_mem_nil,or_false,not_or] at hr
    exact hbelow r hr.1 hr.2.1 hr.2.2.1
  · intro m _ _
    refine ⟨⟨by simp [stagePath,indexedPath],?_,hentry (.inl rfl)⟩,
      ⟨by simp [removedPath,indexedPath],?_,hentry (.inr rfl)⟩⟩
    · simpa [stagePath,indexedPath] using hstage
    · simpa [removedPath,indexedPath] using hrem
  · exact hbelow [manifestFile] (by simp) (by decide) (by decide)

theorem safe_createDir_free {I : Watch} (h : t.Free p)
    (hdone : ∀ t', t.Rebinds p (some .directory) t' → I t' ∧ Q (.ok ()) t') :
    Safe I Q (createDir p) t := by
  obtain ⟨t',ht,hr⟩ := FileTree.createDir_ok h
  rw [safe_createDir,change_ok ht]
  exact hdone t' hr

theorem safe_createPreparing {I : Watch} (h : Clean t)
    (hlock : ∃ i, t.node lockPath=some (.file i))
    (hI : ∀ t', Ready t' → t.Keeps (preparingPath <+: ·) t' → I t')
    (hdone : ∀ t', Workdir t' → Spare 0 t' → t'.node (preparingPath++[manifestFile])=none →
      t.Keeps (preparingPath <+: ·) t' → Q (.ok ()) t') : Safe I Q createPreparing t := by
  have hclean : I t := hI t h.ready (.refl t)
  refine safe_bind.2 (safe_internalDirectoryExists_absent h.unprepared h.state hclean ?_)
  refine safe_bind.2 (safe_createDir_free ⟨by decide,h.state,h.unprepared⟩ fun t₁ h₁ => ?_)
  have hk₁ : t.Keeps (preparingPath <+: ·) t₁ := h₁.keeps.mono fun p hp => hp ▸ List.prefix_refl _
  have hd₁ : t₁.node preparingPath=some .directory := by rw [h₁.node,Function.update_self]
  have hempty : ∀ {name}, t.node (preparingPath++[name])=none :=
    t.no_child_of_not_directory (by simp [h.unprepared]) (by simp)
  refine ⟨hI t₁ (ready_of_preparing h hk₁ hd₁) hk₁,?_⟩
  have hstage : t₁.Free (preparingPath++[stageDirectory]) := by
    refine ⟨by simp,by simpa using hd₁,?_⟩
    rw [h₁.node,Function.update_of_ne (by simp),hempty]
  refine safe_bind.2 (safe_createDir_free hstage fun t₂ h₂ => ?_)
  have hk₂ := hk₁.trans (h₂.keeps.mono fun p hp => hp ▸ List.prefix_append _ _)
  have hd₂ : t₂.node preparingPath=some .directory := by
    rw [h₂.node,Function.update_of_ne (by simp),hd₁]
  refine ⟨hI t₂ (ready_of_preparing h hk₂ hd₂) hk₂,?_⟩
  have hrem : t₂.Free (preparingPath++[removedDirectory]) := by
    refine ⟨by simp,by simpa using hd₂,?_⟩
    rw [h₂.node,Function.update_of_ne (by simpa using stageDirectory_ne_removedDirectory.symm),
      h₁.node,Function.update_of_ne (by simp),hempty]
  refine safe_bind.2 (safe_createDir_free hrem fun t₃ h₃ => ?_)
  obtain ⟨hdir,hspare,hman,hk₃⟩ := workdir_created h hlock h₁ h₂ h₃
  have hI₃ := hI t₃ hdir.ready hk₃
  exact ⟨hI₃,safe_syncDirectory_directory hdir.initialized.state hI₃ (hdone t₃ hdir hspare hman hk₃)⟩

/-! ## Writing the manifest -/

theorem workdir_manifest {bytes : Bytes} (hdir : Workdir t) (hv : Shows v t)
    (hc : t.Creates (preparingPath++[manifestFile]) bytes t') : Workdir t' ∧ Shows v t' := by
  refine ⟨hdir.keeps hc.keeps (fun m => ?_) fun p hp => .inl hp,hv.keeps hc.keeps ?_⟩
  · have hne : ∀ {p}, entries m p → p≠preparingPath++[manifestFile] := by
      rintro p he rfl
      exact absurd (length_of_entries he) (by decide)
    exact ⟨FileOrAbsent.keeps (hdir.leaves m).1 hc.keeps (hne (.inl rfl)),
      FileOrAbsent.keeps (hdir.leaves m).2 hc.keeps (hne (.inr rfl))⟩
  · rintro p rfl
    exact not_outside_of_prefix statePath_prefix_preparing (List.prefix_append _ _)

end Ash.Workdirs
