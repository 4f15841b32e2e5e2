import Ash.TransactionWrites

/-! # The operations of applying and undoing one action

Each theorem runs one step of a transaction on a tree in a known state and lists the
trees it passes through.  What those trees mean for a journal is another matter. -/

namespace Ash.ActionSteps
open FileTrees WorkspaceOperations WorkspacePaths WorkspaceRules CheckedPaths TransactionActions
open TransactionManifest TransactionSteps TransactionReads TransactionWrites

variable {I : Watch} {t : Tree} {i j : ℕ} {hash : Bytes → Digest}
variable {limits : FileTransactionLimits} {workspace : Workspace} {index : ℕ}
variable {action : PreparedAction} {journal : Path} {logical : Text}

/-- An action's digest and size are those of some contents. -/
structure Identifies (hash : Bytes → Digest) (action : PreparedAction) (bytes : Bytes) : Prop where
  digest : action.digest=hash bytes
  size : action.size=bytes.length

/-! ## Applying -/

section Apply

variable {Q : Except StepFailure Unit → Tree → Prop}

private theorem safe_ensureAbsentForApply (h : AdmittedPath workspace logical)
    (hfree : t.Free (components logical)) (hI : I t) (hQ : Q (.ok ()) t) :
    Safe I Q (ensureAbsentForApply hash workspace logical limits) t := by
  refine safe_bind.2 (safe_mapError.2 (safe_checkedMutationPath_free h hfree hI ?_))
  simpa [stat_absent hfree.node hfree.parent,hI,Except.mapError] using hQ

variable {p q : Path} {t' : Tree}

private theorem safe_linkFile (hfile : t.node p=some (.file i)) (hfree : t.Free q)
    (hI : ∀ t', t.Rebinds q (some (.file i)) t' → I t')
    (hQ : ∀ t', t.Rebinds q (some (.file i)) t' → Q (.ok ()) t') :
    Safe I Q (linkFile hash p q limits) t := by
  refine safe_bind.2 (safe_attempt.2 (safe_hardLink_free hfile hfree hI fun t' h => ?_))
  exact safe_pure.2 (hQ t' h)

private theorem safe_syncParent {Q : Except PlatformError Unit → Tree → Prop}
    (hdir : t.node (FileTree.parent p)=some .directory) (hI : I t) (hQ : Q (.ok ()) t) :
    Safe I Q (syncParent p) t := safe_syncDirectory_directory hdir hI hQ

/-- The parent of a path keeps being a directory when another name is rebound. -/
theorem directory_of_rebinds {v : Option Node} (h : t.Rebinds p v t')
    (hdir : t.node q=some .directory) (hleaf : t.node p≠some .directory) :
    t'.node q=some .directory := by
  rw [h.node,Function.update_of_ne,hdir]
  rintro rfl
  exact hleaf hdir

theorem safe_applyCreateCopy (h : AdmittedPath workspace (action.destination.getD action.path))
    {bytes : Bytes} (hid : Identifies hash action bytes) (hle : bytes.length ≤ limits.maxFileBytes)
    (hstage : t.node (stagePath journal index)=some (.file i)) (hdata : t.data i=bytes)
    (hfree : t.Free (components (action.destination.getD action.path)))
    (hne : components (action.destination.getD action.path)≠stagePath journal index)
    (hdir : t.node (journal++[stageDirectory])=some .directory)
    (hI : I t) (hstop : ∀ f, Q (.error (.stopped f)) t)
    (hlink : ∀ t₁, t.Rebinds (components (action.destination.getD action.path))
      (some (.file i)) t₁ → I t₁)
    (hdone : ∀ t₁ t₂, t.Rebinds (components (action.destination.getD action.path))
      (some (.file i)) t₁ → t₁.Rebinds (stagePath journal index) none t₂ →
      I t₂ ∧ Q (.ok ()) t₂) :
    Safe I Q (applyCreateCopy hash workspace index action journal limits) t := by
  subst hdata
  refine safe_bind.2 (safe_ensureAbsentForApply h hfree hI ?_)
  refine safe_bind.2 (safe_mapError.2 (safe_checkedMutationPath_free h hfree hI ?_))
  refine safe_bind.2 (safe_hashFileWithoutCharge hstage hle hI ?_ hstop)
  simp only [hid.digest,hid.size,ne_eq,not_true_eq_false,or_self,if_false]
  refine safe_bind.2 (safe_linkFile hstage hfree hlink fun t₁ h₁ => ?_)
  have hleaf : t.node (components (action.destination.getD action.path))≠some .directory := by
    simp [hfree.node]
  have hstage₁ : t₁.node (stagePath journal index)=some (.file i) := by
    rw [h₁.node,Function.update_of_ne hne.symm,hstage]
  refine safe_bind.2 (safe_mapError.2 (safe_syncParent (directory_of_rebinds h₁ hfree.parent hleaf)
    (hlink t₁ h₁) ?_))
  refine safe_bind.2 (safe_mapError.2 (safe_removeFile_file hstage₁
    (fun t₂ h₂ => (hdone t₁ t₂ h₁ h₂).1) fun t₂ h₂ => ?_))
  have hdir₂ := directory_of_rebinds h₂ (directory_of_rebinds h₁ hdir hleaf) (by simp [hstage₁])
  exact safe_mapError.2 (safe_syncDirectory_directory hdir₂ (hdone t₁ t₂ h₁ h₂).1
    (hdone t₁ t₂ h₁ h₂).2)

theorem safe_applyMove (hs : AdmittedPath workspace action.path)
    (hdest : action.destination=some logical) (hd : AdmittedPath workspace logical)
    {bytes : Bytes} (hid : Identifies hash action bytes) (hle : bytes.length ≤ limits.maxFileBytes)
    (hsrc : t.node (components action.path)=some (.file i)) (hdata : t.data i=bytes)
    (hfree : t.Free (components logical))
    (hI : I t) (hstop : ∀ f, Q (.error (.stopped f)) t)
    (hlink : ∀ t₁, t.Rebinds (components logical) (some (.file i)) t₁ → I t₁)
    (hdone : ∀ t₁ t₂, t.Rebinds (components logical) (some (.file i)) t₁ →
      t₁.Rebinds (components action.path) none t₂ → I t₂ ∧ Q (.ok ()) t₂) :
    Safe I Q (applyMove hash workspace action limits) t := by
  subst hdata
  refine safe_bind.2 (safe_mapError.2 (safe_checkedMutationPath_file hs hsrc hI ?_))
  refine safe_bind.2 (safe_hashFileWithoutCharge hsrc hle hI ?_ hstop)
  simp only [hid.digest,hid.size,ne_eq,not_true_eq_false,or_self,if_false,hdest,required]
  refine safe_bind.2 (safe_pure.2 ?_)
  refine safe_bind.2 (safe_ensureAbsentForApply hd hfree hI ?_)
  refine safe_bind.2 (safe_mapError.2 (safe_checkedMutationPath_free hd hfree hI ?_))
  refine safe_bind.2 (safe_linkFile hsrc hfree hlink fun t₁ h₁ => ?_)
  have hne : components action.path≠components logical := by
    intro e
    rw [e,hfree.node] at hsrc
    cases hsrc
  have hleaf : t.node (components logical)≠some .directory := by simp [hfree.node]
  have hsource₁ : t₁.node (components action.path)=some (.file i) := by
    rw [h₁.node,Function.update_of_ne hne,hsrc]
  have hpar := t.node_parent (components_ne_nil action.path) (by simp [hsrc])
  refine safe_bind.2 (safe_mapError.2 (safe_syncParent (directory_of_rebinds h₁ hfree.parent hleaf)
    (hlink t₁ h₁) ?_))
  refine safe_bind.2 (safe_mapError.2 (safe_removeFile_file hsource₁
    (fun t₂ h₂ => (hdone t₁ t₂ h₁ h₂).1) fun t₂ h₂ => ?_))
  have hpar₂ := directory_of_rebinds h₂ (directory_of_rebinds h₁ hpar hleaf) (by simp [hsource₁])
  exact safe_mapError.2 (safe_syncParent hpar₂ (hdone t₁ t₂ h₁ h₂).1 (hdone t₁ t₂ h₁ h₂).2)

variable {r : Path}

/-- A directory stays when a file takes a free name. -/
theorem directory_of_renames (h : Renames t p q i t') (hp : t.node p=some (.file i))
    (hq : t.node q=none) (hdir : t.node r=some .directory) : t'.node r=some .directory := by
  rw [h.node,Function.update_of_ne,Function.update_of_ne,hdir]
  · rintro rfl
    cases hp.symm.trans hdir
  · rintro rfl
    cases hq.symm.trans hdir

theorem safe_applyRemove (hs : AdmittedPath workspace action.path)
    {bytes : Bytes} (hid : Identifies hash action bytes) (hle : bytes.length ≤ limits.maxFileBytes)
    (hsrc : t.node (components action.path)=some (.file i)) (hdata : t.data i=bytes)
    (hfree : t.Free (removedPath journal index))
    (hI : I t) (hstop : ∀ f, Q (.error (.stopped f)) t)
    (hdone : ∀ t₁, Renames t (components action.path) (removedPath journal index) i t₁ →
      I t₁ ∧ Q (.ok ()) t₁) :
    Safe I Q (applyRemove hash workspace index action journal limits) t := by
  subst hdata
  refine safe_bind.2 (safe_mapError.2 (safe_checkedMutationPath_file hs hsrc hI ?_))
  refine safe_bind.2 (safe_hashFileWithoutCharge hsrc hle hI ?_ hstop)
  simp only [hid.digest,hid.size,ne_eq,not_true_eq_false,or_self,if_false]
  refine safe_bind.2 (safe_mapError.2 (safe_rename_file hsrc hfree
    (fun t₁ h₁ => (hdone t₁ h₁).1) fun t₁ h₁ => ?_))
  have hpar := directory_of_renames h₁ hsrc hfree.node
    (t.node_parent (components_ne_nil action.path) (by simp [hsrc]))
  have hdir : t.node (journal++[removedDirectory])=some .directory := by
    simpa [removedPath,indexedPath] using hfree.parent
  refine safe_bind.2 (safe_mapError.2 (safe_syncParent hpar (hdone t₁ h₁).1 ?_))
  exact safe_mapError.2 (safe_syncDirectory_directory
    (directory_of_renames h₁ hsrc hfree.node hdir) (hdone t₁ h₁).1 (hdone t₁ h₁).2)

/-- A directory stays when a file is created or replaced. -/
theorem directory_of_creates {bytes : Bytes} (h : t.Creates p bytes t')
    (hleaf : t.node p≠some .directory) (hdir : t.node r=some .directory) :
    t'.node r=some .directory := by
  rw [h.node,Function.update_of_ne,hdir]
  rintro rfl
  exact hleaf hdir

theorem safe_applyReplace (hs : AdmittedPath workspace action.path)
    {old new : Bytes} (hid : Identifies hash action new) (hle : new.length ≤ limits.maxFileBytes)
    (hpre : action.preimageDigest=some (hash old))
    (hpresize : action.preimageSize=some old.length) (hleold : old.length ≤ limits.maxFileBytes)
    (htgt : t.node (components action.path)=some (.file i)) (hold : t.data i=old)
    (hstage : t.node (stagePath journal index)=some (.file j)) (hnew : t.data j=new)
    (hne : components action.path≠stagePath journal index)
    (hdir : t.node (journal++[stageDirectory])=some .directory)
    (hI : I t) (hstop : ∀ f, Q (.error (.stopped f)) t)
    (hswap : ∀ t₁, t.Creates (components action.path) new t₁ → I t₁)
    (hdone : ∀ t₁ t₂, t.Creates (components action.path) new t₁ →
      t₁.Rebinds (stagePath journal index) none t₂ → I t₂ ∧ Q (.ok ()) t₂) :
    Safe I Q (applyReplace hash workspace index action journal limits) t := by
  subst hold hnew
  refine safe_bind.2 ?_
  simp only [hpre,hpresize,required]
  refine safe_pure.2 (safe_bind.2 (safe_pure.2 ?_))
  refine safe_bind.2 (safe_mapError.2 (safe_checkedMutationPath_file hs htgt hI ?_))
  refine safe_bind.2 (safe_hashFileWithoutCharge htgt hleold hI ?_ hstop)
  simp only [ne_eq,not_true_eq_false,or_self,if_false,hid.digest,hid.size]
  refine safe_bind.2 (safe_readStagedReplacement hstage hle hI ?_ hstop)
  refine safe_bind.2 (safe_attempt.2 (safe_compareAndSwapReplaceInner hs htgt hleold hI
    hswap fun t₁ h₁ => ?_))
  simp only [not_true_eq_false,if_false]
  have hleaf : t.node (components action.path)≠some .directory := by simp [htgt]
  have hpar := directory_of_creates h₁ hleaf
    (t.node_parent (components_ne_nil action.path) (by simp [htgt]))
  have hstage₁ : t₁.node (stagePath journal index)=some (.file j) := by
    rw [h₁.node,Function.update_of_ne hne.symm,hstage]
  refine safe_bind.2 (safe_mapError.2 (safe_syncParent hpar (hswap t₁ h₁) ?_))
  refine safe_bind.2 (safe_mapError.2 (safe_removeFile_file hstage₁
    (fun t₂ h₂ => (hdone t₁ t₂ h₁ h₂).1) fun t₂ h₂ => ?_))
  have hdir₂ := directory_of_rebinds h₂ (directory_of_creates h₁ hleaf hdir) (by simp [hstage₁])
  exact safe_mapError.2 (safe_syncDirectory_directory hdir₂ (hdone t₁ t₂ h₁ h₂).1
    (hdone t₁ t₂ h₁ h₂).2)

end Apply

/-! ## Judging what was applied -/

/-- A name of the journal that is missing or a regular file. -/
def FileOrAbsent (t : Tree) (p : Path) : Prop := t.node p=none ∨ ∃ i, t.node p=some (.file i)

theorem lt_of_le_ceiling {n : ℕ} (h : n ≤ maxFileTransactionFileBytes) : n < 2 ^ 64 := by
  simp only [maxFileTransactionFileBytes] at h
  omega

/-- An action's digest and size are those of contents that a transaction may hold. -/
structure Recorded (hash : Bytes → Digest) (action : PreparedAction) (bytes : Bytes) : Prop
    extends Identifies hash action bytes where
  le : bytes.length ≤ maxFileTransactionFileBytes

theorem Recorded.size_lt {bytes : Bytes} (h : Recorded hash action bytes) :
    action.size < 2 ^ 64 := by
  rw [h.size]
  exact lt_of_le_ceiling h.le

/-- What stands in the directory of removed files has that directory above it. -/
theorem directory_of_removed (h : t.node (removedPath journal index)=some (.file i)) :
    t.node (journal++[removedDirectory])=some .directory := by
  have := t.node_parent (p := removedPath journal index) (by simp [removedPath,indexedPath])
    (by simp [h])
  simpa [removedPath,indexedPath] using this

section Judge

variable {Q : Except PlatformError AppliedState → Tree → Prop} {bytes : Bytes}

variable {p : Path}

private theorem safe_linkedState {q : Path} (hid : Recorded hash action bytes) (hp : t.node p=some (.file i))
    (hq : t.node q=some (.file i)) (hdata : t.data i=bytes) (hI : I t) (hQ : Q (.ok .linked) t)
    : Safe I Q (linkedState hash p q action) t := by
  refine safe_bind.2 (safe_fileMatchesRecovery hp hid.size_lt hI ?_)
  simp only [hdata,hid.size,hid.digest,and_self,decide_true,if_true]
  refine safe_bind.2 (safe_sameRegularFile hp hq hI ?_)
  simpa using hQ

private theorem safe_movedState (hid : Recorded hash action bytes) (hp : t.node p=some (.file i))
    (hdata : t.data i=bytes) (hI : I t) (hQ : Q (.ok .applied) t) :
    Safe I Q (movedState hash p action) t := by
  subst hdata
  refine safe_bind.2 (safe_hashFileRecovery hp hid.size.symm hid.size_lt hI ?_)
  simpa [hid.digest] using hQ

variable (h : AdmittedPath workspace (action.destination.getD action.path))
include h

theorem safe_createCopyState_absent
    (hfree : t.Free (components (action.destination.getD action.path)))
    (hstage : FileOrAbsent t (stagePath journal index))
    (hdir : t.node (journal++[stageDirectory])=some .directory) (hI : I t)
    (hQ : Q (.ok .notApplied) t) :
    Safe I Q (createCopyState hash workspace index action journal) t := by
  refine safe_bind.2 (safe_checkedMutationPath_free h hfree hI ?_)
  rcases hstage with hnone | ⟨i,hfile⟩
  · refine safe_bind.2 (safe_regularExists_absent hnone ?_ hI ?_)
    · simpa [stagePath,indexedPath] using hdir
    refine safe_bind.2 (safe_regularExists_absent hfree.node hfree.parent hI ?_)
    exact safe_pure.2 hQ
  · refine safe_bind.2 (safe_regularExists_file hfile hI ?_)
    refine safe_bind.2 (safe_regularExists_absent hfree.node hfree.parent hI ?_)
    exact safe_pure.2 hQ

theorem safe_createCopyState_linked (hid : Recorded hash action bytes)
    (hstage : t.node (stagePath journal index)=some (.file i))
    (htgt : t.node (components (action.destination.getD action.path))=some (.file i))
    (hdata : t.data i=bytes) (hI : I t) (hQ : Q (.ok .linked) t) :
    Safe I Q (createCopyState hash workspace index action journal) t := by
  refine safe_bind.2 (safe_checkedMutationPath_file h htgt hI ?_)
  refine safe_bind.2 (safe_regularExists_file hstage hI ?_)
  refine safe_bind.2 (safe_regularExists_file htgt hI ?_)
  exact safe_linkedState hid hstage htgt hdata hI hQ

theorem safe_createCopyState_applied (hid : Recorded hash action bytes)
    (hstage : t.node (stagePath journal index)=none)
    (hdir : t.node (journal++[stageDirectory])=some .directory)
    (htgt : t.node (components (action.destination.getD action.path))=some (.file i))
    (hdata : t.data i=bytes) (hI : I t) (hQ : Q (.ok .applied) t) :
    Safe I Q (createCopyState hash workspace index action journal) t := by
  refine safe_bind.2 (safe_checkedMutationPath_file h htgt hI ?_)
  refine safe_bind.2 (safe_regularExists_absent hstage ?_ hI ?_)
  · simpa [stagePath,indexedPath] using hdir
  refine safe_bind.2 (safe_regularExists_file htgt hI ?_)
  exact safe_movedState hid htgt hdata hI hQ

omit h
variable (hs : AdmittedPath workspace action.path)
include hs

section Move
variable (hdest : action.destination=some logical) (hd : AdmittedPath workspace logical)
include hdest hd

theorem safe_moveState_before (hsrc : t.node (components action.path)=some (.file i))
    (hfree : t.Free (components logical)) (hI : I t) (hQ : Q (.ok .notApplied) t) :
    Safe I Q (moveState hash workspace action) t := by
  refine safe_bind.2 (safe_checkedMutationPath_file hs hsrc hI ?_)
  simp only [hdest,requiredField]
  refine safe_bind.2 (safe_pure.2 (safe_bind.2 (safe_checkedMutationPath_free hd hfree hI ?_)))
  refine safe_bind.2 (safe_regularExists_file hsrc hI ?_)
  refine safe_bind.2 (safe_regularExists_absent hfree.node hfree.parent hI ?_)
  exact safe_pure.2 hQ

theorem safe_moveState_linked (hid : Recorded hash action bytes)
    (hsrc : t.node (components action.path)=some (.file i))
    (htgt : t.node (components logical)=some (.file i))
    (hdata : t.data i=bytes) (hI : I t) (hQ : Q (.ok .linked) t) :
    Safe I Q (moveState hash workspace action) t := by
  refine safe_bind.2 (safe_checkedMutationPath_file hs hsrc hI ?_)
  simp only [hdest,requiredField]
  refine safe_bind.2 (safe_pure.2 (safe_bind.2 (safe_checkedMutationPath_file hd htgt hI ?_)))
  refine safe_bind.2 (safe_regularExists_file hsrc hI ?_)
  refine safe_bind.2 (safe_regularExists_file htgt hI ?_)
  exact safe_linkedState hid hsrc htgt hdata hI hQ

theorem safe_moveState_applied (hid : Recorded hash action bytes)
    (hsrc : t.Free (components action.path))
    (htgt : t.node (components logical)=some (.file i))
    (hdata : t.data i=bytes) (hI : I t) (hQ : Q (.ok .applied) t) :
    Safe I Q (moveState hash workspace action) t := by
  refine safe_bind.2 (safe_checkedMutationPath_free hs hsrc hI ?_)
  simp only [hdest,requiredField]
  refine safe_bind.2 (safe_pure.2 (safe_bind.2 (safe_checkedMutationPath_file hd htgt hI ?_)))
  refine safe_bind.2 (safe_regularExists_absent hsrc.node hsrc.parent hI ?_)
  refine safe_bind.2 (safe_regularExists_file htgt hI ?_)
  exact safe_movedState hid htgt hdata hI hQ

end Move

theorem safe_removeState_before (hsrc : t.node (components action.path)=some (.file i))
    (hrem : t.Free (removedPath journal index)) (hI : I t) (hQ : Q (.ok .notApplied) t) :
    Safe I Q (removeState hash workspace index action journal) t := by
  refine safe_bind.2 (safe_checkedMutationPath_file hs hsrc hI ?_)
  refine safe_bind.2 (safe_regularExists_file hsrc hI ?_)
  refine safe_bind.2 (safe_regularExists_absent hrem.node hrem.parent hI ?_)
  exact safe_pure.2 hQ

theorem safe_removeState_applied (hid : Recorded hash action bytes)
    (hsrc : t.Free (components action.path))
    (hrem : t.node (removedPath journal index)=some (.file i))
    (hdata : t.data i=bytes) (hI : I t) (hQ : Q (.ok .applied) t) :
    Safe I Q (removeState hash workspace index action journal) t := by
  refine safe_bind.2 (safe_checkedMutationPath_free hs hsrc hI ?_)
  refine safe_bind.2 (safe_regularExists_absent hsrc.node hsrc.parent hI ?_)
  refine safe_bind.2 (safe_regularExists_file hrem hI ?_)
  exact safe_movedState hid hrem hdata hI hQ

/-- The prepared action names the preimage it preserved. -/
structure Preserves (hash : Bytes → Digest) (action : PreparedAction) (old : Bytes) : Prop where
  digest : action.preimageDigest=some (hash old)
  size : action.preimageSize=some old.length
  le : old.length ≤ maxFileTransactionFileBytes

variable {old : Bytes}

omit hs in
private theorem safe_preimageState (hp : Preserves hash action old)
    (hfile : t.node p=some (.file i)) (hdata : t.data i=old) (hI : I t)
    (hQ : Q (.ok .notApplied) t) : Safe I Q (preimageState hash p old.length (hash old)) t := by
  refine safe_bind.2 (safe_fileMatchesRecovery hfile (lt_of_le_ceiling hp.le) hI ?_)
  simpa [hdata] using hQ

theorem safe_replaceState_discarded (hp : Preserves hash action old)
    (htgt : t.node (components action.path)=some (.file i)) (hdata : t.data i=old)
    (hrem : t.Free (removedPath journal index)) (hI : I t) (hQ : Q (.ok .notApplied) t) :
    Safe I Q (replaceState hash workspace index action journal) t := by
  refine safe_bind.2 (safe_checkedMutationPath_file hs htgt hI ?_)
  refine safe_bind.2 (safe_regularExists_file htgt hI ?_)
  simp only [Bool.not_true,Bool.false_eq_true,if_false,hp.digest,hp.size,requiredField]
  refine safe_bind.2 (safe_pure.2 (safe_bind.2 (safe_pure.2 ?_)))
  refine safe_bind.2 (safe_regularExists_absent hrem.node hrem.parent hI ?_)
  simp only [Bool.not_false,if_true]
  exact safe_preimageState hp htgt hdata hI hQ

theorem safe_replaceState_preserved (hp : Preserves hash action old)
    (hid : Recorded hash action bytes)
    (htgt : t.node (components action.path)=some (.file i))
    (hdata : t.data i=bytes ∨ t.data i=old)
    (hrem : t.node (removedPath journal index)=some (.file j)) (hold : t.data j=old)
    (hI : I t)
    (happlied : (t.data i).length=action.size → hash (t.data i)=action.digest →
      Q (.ok .applied) t)
    (hbefore : t.data i=old → Q (.ok .notApplied) t) :
    Safe I Q (replaceState hash workspace index action journal) t := by
  refine safe_bind.2 (safe_checkedMutationPath_file hs htgt hI ?_)
  refine safe_bind.2 (safe_regularExists_file htgt hI ?_)
  simp only [Bool.not_true,Bool.false_eq_true,if_false,hp.digest,hp.size,requiredField]
  refine safe_bind.2 (safe_pure.2 (safe_bind.2 (safe_pure.2 ?_)))
  refine safe_bind.2 (safe_regularExists_file hrem hI ?_)
  simp only [Bool.not_true,Bool.false_eq_true,if_false]
  refine safe_bind.2 (safe_fileMatchesRecovery hrem (lt_of_le_ceiling hp.le) hI ?_)
  simp only [hold,and_self,decide_true,Bool.not_true,Bool.false_eq_true,if_false]
  refine safe_bind.2 (safe_fileMatchesRecovery htgt hid.size_lt hI ?_)
  by_cases hm : (t.data i).length=action.size ∧ hash (t.data i)=action.digest
  · simpa [hm] using happlied hm.1 hm.2
  · have hold' : t.data i=old := by
      rcases hdata with hb | ho
      · exact absurd ⟨by rw [hb,hid.size],by rw [hb,hid.digest]⟩ hm
      · exact ho
    simp only [hm,decide_false,Bool.false_eq_true,if_false]
    exact safe_preimageState hp htgt hold' hI (hbefore hold')

end Judge

end Ash.ActionSteps
