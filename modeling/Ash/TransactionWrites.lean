import Ash.TransactionReads

/-! # What the writers of a transaction do

A writer creates, replaces or removes one name; every state it passes through differs
from the start at that name alone. -/

namespace Ash.TransactionWrites
open FileTrees WorkspaceOperations WorkspacePaths WorkspaceRules CheckedPaths TransactionActions
open TransactionSteps TransactionReads

variable {I : Watch} {t t' : Tree} {p q : Path} {i j : ℕ} {hash : Bytes → Digest}
variable {limits : FileTransactionLimits} {bytes : Bytes}

theorem creates_write {seen : Bytes} (bytes : Bytes) (h : t.Creates p seen t') :
    t.Creates p (seen++bytes) (t'.write t.next bytes) where
  node := h.node
  data := by simp [FileTree.write,h.data]
  next := h.next

theorem node_creates (h : t.Creates p bytes t') : t'.node p=some (.file t.next) := by
  simp [h.node]

theorem data_creates (h : t.Creates p bytes t') : t'.data t.next=bytes := by
  simp [h.data]

section Unit

variable {Q : Except PlatformError Unit → Tree → Prop}

/-- A new file is written whole, or its name cannot be created. -/
theorem safe_writeNewSync (hI : I t) (hI' : ∀ b t', t.Creates p b t' → I t')
    (hok : ∀ t', t.Free p → t.Creates p bytes t' → Q (.ok ()) t')
    (herr : ¬ t.Free p → ∀ e, Q (.error (.io e)) t) : Safe I Q (writeNewSync p bytes) t := by
  refine safe_bind.2 (safe_createNew.2 ?_)
  cases hc : t.createNew p with
  | error e =>
    have hnot : ¬ t.Free p := fun hf => by
      obtain ⟨_,ht,-⟩ := FileTree.createNew_ok hf
      cases hc.symm.trans ht
    simpa [act,hc,Except.mapError] using ⟨hI,herr hnot e⟩
  | ok r =>
    obtain ⟨i,t₁⟩ := r
    obtain ⟨hfree,rfl,hcr⟩ := FileTree.free_of_createNew hc
    have hcr' : t.Creates p bytes (t₁.write t.next bytes) := by
      simpa using creates_write bytes hcr
    simpa [act,hc,Except.mapError] using ⟨hI' _ _ hcr,hI' _ _ hcr',hok _ hfree hcr'⟩

theorem safe_removeFile_file (hfile : t.node p=some (.file i))
    (hI : ∀ t', t.Rebinds p none t' → I t') (hQ : ∀ t', t.Rebinds p none t' → Q (.ok ()) t') :
    Safe I Q (removeFile p) t := by
  obtain ⟨t',ht,hr⟩ := FileTree.removeFile_ok hfile
  rw [safe_removeFile,change_ok ht]
  exact ⟨hI t' hr,hQ t' hr⟩

theorem safe_removeFileIfPresent_file (hfile : t.node p=some (.file i)) (hI : I t)
    (hI' : ∀ t', t.Rebinds p none t' → I t') (hQ : ∀ t', t.Rebinds p none t' → Q (.ok ()) t') :
    Safe I Q (removeFileIfPresent p) t := by
  simpa [removeFileIfPresent,stat_file hfile,hI,Except.mapError,Metadata.isFile,
    Metadata.isSymlink] using safe_removeFile_file hfile hI' hQ

theorem safe_removeFileIfPresent_absent (h : t.node p=none)
    (hp : t.node (FileTree.parent p)=some .directory) (hI : I t) (hQ : Q (.ok ()) t) :
    Safe I Q (removeFileIfPresent p) t := by
  simpa [removeFileIfPresent,stat_absent h hp,hI,Except.mapError] using hQ

theorem safe_removeDirectoryIfPresent (hne : p≠[]) (hdir : t.node p=some .directory)
    (hrmv : I.removal p t) (hI : ∀ t', t.Clears p t' → I t') (hQ : ∀ t', t.Clears p t' → Q (.ok ()) t') :
    Safe I Q (removeDirectoryIfPresent p) t := by
  obtain ⟨t',ht,hc⟩ := FileTree.removeDirAll_ok hne hdir
  simp only [removeDirectoryIfPresent,safe_bind,safe_attempt,safe_removeDirAll,change_ok ht,
    Except.mapError,safe_pure]
  exact ⟨⟨hI t' hc,hrmv⟩,hQ t' hc⟩

theorem safe_syncDirectory_directory (hdir : t.node p=some .directory) (hI : I t)
    (hQ : Q (.ok ()) t) : Safe I Q (syncDirectory p) t := by
  simpa [resolve_directory hdir,hI,Except.map,Except.mapError] using hQ

theorem safe_hardLink_free (hfile : t.node p=some (.file i)) (hfree : t.Free q)
    (hI : ∀ t', t.Rebinds q (some (.file i)) t' → I t')
    (hQ : ∀ t', t.Rebinds q (some (.file i)) t' → Q (.ok ()) t') :
    Safe I Q (hardLink p q) t := by
  obtain ⟨t',ht,hr⟩ := FileTree.hardLink_ok hfile hfree
  rw [safe_hardLink,change_ok ht]
  exact ⟨hI t' hr,hQ t' hr⟩

/-- A file took a free name and lost its old one. -/
structure Renames (t : Tree) (p q : Path) (i : ℕ) (t' : Tree) : Prop where
  node : t'.node=Function.update (Function.update t.node p none) q (some (.file i))
  data : t'.data=t.data
  next : t'.next=t.next

theorem safe_rename_file (hfile : t.node p=some (.file i)) (hfree : t.Free q)
    (hI : ∀ t', Renames t p q i t' → I t') (hQ : ∀ t', Renames t p q i t' → Q (.ok ()) t') :
    Safe I Q (rename p q) t := by
  obtain ⟨t',ht,hn,hd,hx⟩ := FileTree.rename_file_ok hfile hfree
  rw [safe_rename,change_ok ht]
  exact ⟨hI t' ⟨hn,hd,hx⟩,hQ t' ⟨hn,hd,hx⟩⟩

end Unit

/-- The copy is created and filled buffer by buffer; its contents are the source's. -/
theorem safe_copyFileBounded {Q : Except StepFailure ((Digest × ℕ) × ℕ) → Tree → Prop} {total : ℕ}
    (hfile : t.node p=some (.file i)) (hI : I t) (hI' : ∀ b t', t.Creates q b t' → I t')
    (hok : ∀ total' t', t.Creates q (t.data i) t' → (t.data i).length ≤ limits.maxFileBytes →
      total'=total+(t.data i).length → total' ≤ limits.maxTotalBytes →
      Q (.ok ((hash (t.data i),(t.data i).length),total')) t')
    (herr : ∀ e, BenignStep e → Q (.error e) t)
    (herr' : ∀ e b t', BenignStep e → t.Creates q b t' → Q (.error e) t') :
    Safe I Q (copyFileBounded hash p q limits total) t := by
  have hlt := t.inode_lt p i hfile
  simp only [copyFileBounded,safe_bind,safe_mapError,safe_metadata,hI,true_and,
    metadata_file hfile,Except.mapError,safe_ite]
  split
  · exact safe_fail.2 (herr _ (by simp [BenignStep,Benign]))
  · simp only [safe_openFile,hI,true_and,inodeOf_file hfile,Except.mapError,safe_createNew]
    cases hc : t.createNew q with
    | error e =>
      simpa [act,hc,Except.mapError] using ⟨hI,herr _ (benign_io e)⟩
    | ok r =>
      obtain ⟨k,t₁⟩ := r
      obtain ⟨-,rfl,hcr⟩ := FileTree.free_of_createNew hc
      simp only [act,hc,hI' _ _ hcr,true_and]
      -- the file under construction holds exactly what has been read
      refine safe_readLoop (P := fun seen t' => t.Creates q seen t') (d := t.data i)
        (m := limits.maxFileBytes) ?_ (fun b t' h => hI' b t' h) ?_ ?_ ?_
        (fun n => exceedsCeiling_none) ?_ List.nil_prefix (Nat.zero_le _) (by simp) hcr
      · intro seen t' h
        rw [h.data,Function.update_of_ne hlt.ne]
      · intro seen t' h
        exact safe_checkControl (hI' _ _ h) h fun f => herr' _ _ _ trivial h
      · intro seen buffer t' h
        have hw := creates_write buffer h
        simpa [Except.mapError] using ⟨hI' _ _ hw,hw⟩
      · intro n e _ he seen t' h
        exact herr' e _ _ (exceedsCeiling_some he).1 h
      · intro hle t' h
        have hstat := stat_file (node_creates h)
        simp only [safe_setPermissions,hI' _ _ h,true_and,hstat,Except.map,Except.mapError,
          safe_syncAll,safe_ofExcept]
        cases hch : chargeBytes (t.data i).length limits total with
        | error e => exact herr' e _ _ (chargeBytes_error hch) h
        | ok total' =>
          obtain ⟨h₁,h₂,h₃⟩ := chargeBytes_ok hch
          exact safe_pure.2 (hok total' t' h h₁ h₂ h₃)

/-! ## Replacing a file -/

section Replace

variable {workspace : Workspace} {logical : Text} {maxBytes : ℕ}

section
variable (h : AdmittedPath workspace logical) (hfile : t.node (components logical)=some (.file i))
  (hlen : (t.data i).length ≤ maxBytes) (hI : I t)
include h hfile hlen hI

private theorem safe_readMutationFile {Q : Except PlatformError Bytes → Tree → Prop}
    (hQ : Q (.ok (t.data i)) t) :
    Safe I Q (workspace.readMutationFile ⟨logical,components logical⟩ maxBytes) t := by
  refine safe_bind.2 (safe_bind.2 (safe_checkedMutationPath_file h hfile hI ?_))
  simp only [if_true,safe_pure,safe_bind,safe_metadata,hI,true_and,metadata_file hfile,
    Except.mapError]
  rw [safe_ite,if_neg (by omega)]
  simpa [inodeOf_file hfile,hI,Except.mapError] using hQ

/-- A file whose digest is the expected one is replaced in one step. -/
theorem safe_compareAndSwapReplaceInner {Q : Except PlatformError ReplaceOutcome → Tree → Prop}
    {contents : Bytes} (hI' : ∀ t', t.Creates (components logical) contents t' → I t')
    (hQ : ∀ t', t.Creates (components logical) contents t' →
      Q (.ok (.committed (hash (t.data i)) (hash contents))) t') :
    Safe I Q (workspace.compareAndSwapReplaceInner hash logical (hash (t.data i)) contents
      maxBytes) t := by
  obtain ⟨t',ht,hcr⟩ : ∃ t', t.replaceFile (components logical) contents=.ok t' ∧
      t.Creates (components logical) contents t' :=
    FileTree.replaceFile_ok (components_ne_nil logical) hfile
  refine safe_bind.2 (safe_bind.2 (safe_checkedMutationPath_file h hfile hI ?_))
  refine safe_pure.2 (safe_bind.2 (safe_readMutationFile h hfile hlen hI ?_))
  simp only [ne_eq,not_true_eq_false,if_false,safe_bind,safe_metadata,hI,true_and,
    metadata_file hfile,Except.mapError]
  refine safe_readMutationFile h hfile hlen hI ?_
  simpa [safe_replaceFile,change_ok ht,Except.mapError] using ⟨hI' t' hcr,hQ t' hcr⟩

end

end Replace

end Ash.TransactionWrites
