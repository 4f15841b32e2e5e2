import Ash.ActionSteps

/-! # The operations of undoing one action

The trees a rollback step passes through, from each state its judgement can find. -/

namespace Ash.ActionRollbacks
open FileTrees WorkspaceOperations WorkspacePaths WorkspaceRules CheckedPaths TransactionActions
open TransactionManifest TransactionSteps TransactionReads TransactionWrites ActionSteps

variable {I : Watch} {t : Tree} {i j : ℕ} {hash : Bytes → Digest}
variable {workspace : Workspace} {index : ℕ} {action : PreparedAction} {journal : Path}
variable {logical : Text} {Q : Except PlatformError Unit → Tree → Prop} {bytes : Bytes}

variable {p : Path}

/-- The last two steps of undoing a link: drop the name and sync its directory. -/
private theorem safe_dropName (hne : p≠[]) (hfile : t.node p=some (.file i))
    (hdone : ∀ t₁, t.Rebinds p none t₁ → I t₁ ∧ Q (.ok ()) t₁) :
    Safe I Q (do removeFile p; syncParent p) t := by
  refine safe_bind.2 (safe_removeFile_file hfile (fun t₁ h₁ => (hdone t₁ h₁).1) fun t₁ h₁ => ?_)
  have hpar := directory_of_rebinds h₁ (t.node_parent hne (by simp [hfile])) (by simp [hfile])
  exact safe_syncDirectory_directory hpar (hdone t₁ h₁).1 (hdone t₁ h₁).2

theorem safe_rollbackCreateCopy
    (h : AdmittedPath workspace (action.destination.getD action.path))
    (hid : Recorded hash action bytes)
    (htgt : t.node (components (action.destination.getD action.path))=some (.file i))
    (hdata : t.data i=bytes)
    (hstage : t.node (stagePath journal index)=none ∨
      t.node (stagePath journal index)=some (.file i)) (hI : I t)
    (hdone : ∀ t₁, t.Rebinds (components (action.destination.getD action.path)) none t₁ →
      I t₁ ∧ Q (.ok ()) t₁) :
    Safe I Q (rollbackCreateCopy hash workspace index action journal) t := by
  subst hdata
  have hdrop := safe_dropName (components_ne_nil _) htgt hdone
  refine safe_bind.2 (safe_checkedMutationPath_file h htgt hI ?_)
  refine safe_bind.2 (safe_hashFileRecovery htgt hid.size.symm hid.size_lt hI ?_)
  simp only [hid.digest,ne_eq,not_true_eq_false,if_false]
  rcases hstage with hnone | hfile
  · refine safe_bind.2 (safe_pathExists_absent hnone hI ?_)
    simpa using hdrop
  · refine safe_bind.2 (safe_pathExists_file hfile hI ?_)
    refine safe_bind.2 (safe_sameRegularFile hfile htgt hI ?_)
    simpa using hdrop

section Move
variable (hs : AdmittedPath workspace action.path) (hdest : action.destination=some logical)
  (hd : AdmittedPath workspace logical) (hid : Recorded hash action bytes)
include hs hdest hd hid

theorem safe_rollbackMove_linked
    (hsrc : t.node (components action.path)=some (.file i))
    (htgt : t.node (components logical)=some (.file i)) (hdata : t.data i=bytes) (hI : I t)
    (hdone : ∀ t₁, t.Rebinds (components logical) none t₁ → I t₁ ∧ Q (.ok ()) t₁) :
    Safe I Q (rollbackMove hash workspace action) t := by
  have hdrop := safe_dropName (components_ne_nil _) htgt hdone
  refine safe_bind.2 (safe_checkedMutationPath_file hs hsrc hI ?_)
  refine safe_bind.2 (safe_pathExists_file hsrc hI ?_)
  simp only [if_true,hdest,requiredField]
  refine safe_bind.2 (safe_pure.2 (safe_bind.2 (safe_checkedMutationPath_file hd htgt hI ?_)))
  refine safe_bind.2 (safe_fileMatchesRecovery hsrc hid.size_lt hI ?_)
  simp only [hdata,hid.size,hid.digest,and_self,decide_true,if_true]
  refine safe_bind.2 (safe_sameRegularFile hsrc htgt hI ?_)
  simpa using hdrop

theorem safe_rollbackMove_applied
    (hsrc : t.Free (components action.path))
    (htgt : t.node (components logical)=some (.file i)) (hdata : t.data i=bytes) (hI : I t)
    (hlink : ∀ t₁, t.Rebinds (components action.path) (some (.file i)) t₁ → I t₁)
    (hdone : ∀ t₁ t₂, t.Rebinds (components action.path) (some (.file i)) t₁ →
      t₁.Rebinds (components logical) none t₂ → I t₂ ∧ Q (.ok ()) t₂) :
    Safe I Q (rollbackMove hash workspace action) t := by
  subst hdata
  refine safe_bind.2 (safe_checkedMutationPath_free hs hsrc hI ?_)
  refine safe_bind.2 (safe_pathExists_absent hsrc.node hI ?_)
  simp only [Bool.false_eq_true,if_false,hdest,requiredField]
  refine safe_bind.2 (safe_pure.2 (safe_bind.2 (safe_checkedMutationPath_file hd htgt hI ?_)))
  refine safe_bind.2 (safe_hashFileRecovery htgt hid.size.symm hid.size_lt hI ?_)
  simp only [hid.digest,ne_eq,not_true_eq_false,if_false]
  refine safe_bind.2 (safe_hardLink_free htgt hsrc hlink fun t₁ h₁ => ?_)
  have hleaf : t.node (components action.path)≠some .directory := by simp [hsrc.node]
  have hne : components logical≠components action.path := by
    intro e
    rw [e,hsrc.node] at htgt
    cases htgt
  have htarget₁ : t₁.node (components logical)=some (.file i) := by
    rw [h₁.node,Function.update_of_ne hne,htgt]
  refine safe_bind.2 (safe_syncDirectory_directory (directory_of_rebinds h₁ hsrc.parent hleaf)
    (hlink t₁ h₁) ?_)
  exact safe_dropName (components_ne_nil _) htarget₁ fun t₂ h₂ => hdone t₁ t₂ h₁ h₂

end Move

theorem safe_rollbackRemove (hs : AdmittedPath workspace action.path)
    (hid : Recorded hash action bytes)
    (hsrc : t.Free (components action.path))
    (hrem : t.node (removedPath journal index)=some (.file i)) (hdata : t.data i=bytes)
    (hI : I t)
    (hdone : ∀ t₁, Renames t (removedPath journal index) (components action.path) i t₁ →
      I t₁ ∧ Q (.ok ()) t₁) :
    Safe I Q (rollbackRemove hash workspace index action journal) t := by
  subst hdata
  have hdir := directory_of_removed hrem
  refine safe_bind.2 (safe_checkedMutationPath_free hs hsrc hI ?_)
  refine safe_bind.2 (safe_pathExists_absent hsrc.node hI ?_)
  simp only [Bool.false_eq_true,if_false]
  refine safe_bind.2 (safe_hashFileRecovery hrem hid.size.symm hid.size_lt hI ?_)
  simp only [hid.digest,ne_eq,not_true_eq_false,if_false]
  refine safe_bind.2 (safe_rename_file hrem hsrc (fun t₁ h₁ => (hdone t₁ h₁).1)
    fun t₁ h₁ => ?_)
  refine safe_bind.2 (safe_syncDirectory_directory
    (directory_of_renames h₁ hrem hsrc.node hsrc.parent) (hdone t₁ h₁).1 ?_)
  exact safe_syncDirectory_directory (directory_of_renames h₁ hrem hsrc.node hdir)
    (hdone t₁ h₁).1 (hdone t₁ h₁).2

/-- A name that is missing or a file is gone afterwards. -/
private theorem safe_clearName (hp : FileOrAbsent t p)
    (hdir : t.node (FileTree.parent p)=some .directory) (hI : I t)
    (hdone : ∀ t₁, t.Rebinds p none t₁ → I t₁ ∧ Q (.ok ()) t₁) :
    Safe I Q (removeFileIfPresent p) t := by
  rcases hp with hnone | ⟨i,hfile⟩
  · refine safe_removeFileIfPresent_absent hnone hdir hI (hdone t ⟨?_,rfl,rfl⟩).2
    rw [← hnone,Function.update_eq_self]
  · exact safe_removeFileIfPresent_file hfile hI (fun t₁ h₁ => (hdone t₁ h₁).1)
      fun t₁ h₁ => (hdone t₁ h₁).2

theorem safe_rollbackReplace {old : Bytes} (hs : AdmittedPath workspace action.path)
    (hp : Preserves hash action old)
    (htgt : t.node (components action.path)=some (.file i))
    (hsize : (t.data i).length=action.size) (hdig : hash (t.data i)=action.digest)
    (hle : action.size ≤ maxFileTransactionFileBytes)
    (hrem : t.node (removedPath journal index)=some (.file j)) (hold : t.data j=old)
    (hstage : FileOrAbsent t (stagePath journal index))
    (hdir : t.node (journal++[stageDirectory])=some .directory)
    (hrt : removedPath journal index≠components action.path)
    (hst : stagePath journal index≠components action.path)
    (hsr : stagePath journal index≠removedPath journal index)
    (hI : I t) (hrest : ∀ t₁, t.Creates (components action.path) old t₁ → I t₁)
    (hclr : ∀ t₁ t₂, t.Creates (components action.path) old t₁ →
      t₁.Rebinds (removedPath journal index) none t₂ → I t₂)
    (hdone : ∀ t₁ t₂ t₃, t.Creates (components action.path) old t₁ →
      t₁.Rebinds (removedPath journal index) none t₂ →
      t₂.Rebinds (stagePath journal index) none t₃ → I t₃ ∧ Q (.ok ()) t₃) :
    Safe I Q (rollbackReplace hash workspace index action journal) t := by
  subst hold
  have hlt : action.size < 2 ^ 64 := lt_of_le_ceiling hle
  have hleaf : t.node (components action.path)≠some .directory := by simp [htgt]
  have hrdir := directory_of_removed hrem
  refine safe_bind.2 ?_
  simp only [hp.digest,hp.size,requiredField]
  refine safe_pure.2 (safe_bind.2 (safe_pure.2 ?_))
  refine safe_bind.2 (safe_checkedMutationPath_file hs htgt hI ?_)
  refine safe_bind.2 (safe_fileMatchesRecovery htgt hlt hI ?_)
  simp only [hsize,hdig,and_self,decide_true,Bool.not_true,Bool.false_eq_true,if_false]
  refine safe_bind.2 (safe_fileMatchesRecovery hrem (lt_of_le_ceiling hp.le) hI ?_)
  simp only [and_self,decide_true,Bool.not_true,Bool.false_eq_true,if_false]
  refine safe_bind.2 (safe_readRegularBounded hrem le_rfl hI ?_)
  simp only [ne_eq,not_true_eq_false,or_self,if_false]
  rw [← hdig]
  refine safe_bind.2 (safe_compareAndSwapReplaceInner hs htgt (by rw [hsize]; exact hle) hI
    hrest fun t₁ h₁ => ?_)
  simp only [not_true_eq_false,if_false]
  -- the target is restored: what the journal preserved can go
  have hpar := directory_of_creates h₁ hleaf
    (t.node_parent (components_ne_nil action.path) (by simp [htgt]))
  have hremoved₁ : t₁.node (removedPath journal index)=some (.file j) := by
    rw [h₁.node,Function.update_of_ne hrt,hrem]
  have hrdir₁ := directory_of_creates h₁ hleaf hrdir
  have hdir₁ := directory_of_creates h₁ hleaf hdir
  refine safe_bind.2 (safe_syncDirectory_directory hpar (hrest t₁ h₁) ?_)
  refine safe_bind.2 (safe_removeFileIfPresent_file hremoved₁ (hrest t₁ h₁)
    (fun t₂ h₂ => hclr t₁ t₂ h₁ h₂) fun t₂ h₂ => ?_)
  have hrdir₂ := directory_of_rebinds h₂ hrdir₁ (by simp [hremoved₁])
  have hdir₂ := directory_of_rebinds h₂ hdir₁ (by simp [hremoved₁])
  have hstage₂ : FileOrAbsent t₂ (stagePath journal index) := by
    unfold FileOrAbsent
    rw [h₂.node,Function.update_of_ne hsr,h₁.node,Function.update_of_ne hst]
    exact hstage
  have hsleaf : t₂.node (stagePath journal index)≠some .directory := by
    rcases hstage₂ with h | ⟨k,h⟩ <;> simp [h]
  refine safe_bind.2 (safe_clearName hstage₂ ?_ (hclr t₁ t₂ h₁ h₂) fun t₃ h₃ => ?_)
  · simpa [stagePath,indexedPath] using hdir₂
  have hd := hdone t₁ t₂ t₃ h₁ h₂ h₃
  refine ⟨hd.1,safe_bind.2 (safe_syncDirectory_directory
    (directory_of_rebinds h₃ hrdir₂ hsleaf) hd.1 ?_)⟩
  exact safe_syncDirectory_directory (directory_of_rebinds h₃ hdir₂ hsleaf) hd.1 hd.2

end Ash.ActionRollbacks
