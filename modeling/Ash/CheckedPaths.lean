import Ash.TransactionActions
import Ash.WorkspaceRules

/-! # What the checked walk of a logical path finds

On a tree where the path's directory is there, the walk answers by what stands at
the path; on any tree, a walk that succeeds has found a regular file or a free name. -/

namespace Ash.CheckedPaths
open FileTrees WorkspaceOperations WorkspacePaths WorkspaceRules TransactionActions

variable {I : Watch} {t : Tree} {i : ℕ} {mustExist : Bool}

/-- The tree path of a logical path. -/
def components (logical : Text) : Path := logical.splitOn '/'

theorem components_ne_nil (logical : Text) : components logical≠[] := by
  simp [components]

theorem components_injective : Function.Injective components := by
  intro a b h
  have := congrArg (List.intercalate ['/']) h
  simpa [components,List.intercalate_splitOn] using this

/-- Errors that speak of the target, not of the internal state. -/
def Benign (e : PlatformError) : Prop := e≠.reservedPath ∧ e≠.journalCorrupt

theorem benign_io (e : IoError) : Benign (.io e) := by simp [Benign]

section Walk

variable {Q : Except PlatformError Path → Tree → Prop}

variable {native rest : Path}

private theorem safe_checkComponents_file (hfile : t.node (native++rest)=some (.file i))
    (hI : I t) (hQ : Q (.ok (native++rest)) t) :
    Safe I Q (checkComponents mustExist native rest) t := by
  induction rest generalizing native with
  | nil =>
    rw [List.append_nil] at hfile hQ
    simp [checkComponents,resolve_file hfile,hI,hQ,Except.mapError,nativeRoot]
  | cons c rest ih =>
    have hassoc : native++c::rest=(native++[c])++rest := by simp
    rw [hassoc] at hfile hQ
    have hnext := ih hfile hQ
    rcases rest with _ | ⟨d,rest⟩
    · rw [List.append_nil] at hfile
      simpa [checkComponents,stat_file hfile,hI,Except.mapError,Metadata.isFile,
        Metadata.isSymlink] using hnext
    · have hpar := t.node_parent (by simp) (ne_of_eq_of_ne hfile (by simp))
      have hdir : t.node (native++[c])=some .directory :=
        t.node_of_prefix_parent hpar (List.prefix_append _ _) (by simp)
      rw [checkComponents]
      simpa [stat_directory hdir,hI,Except.mapError,Metadata.isDir,Metadata.isSymlink] using hnext

private theorem safe_checkComponents_free (hrest : rest≠[]) (hfree : t.Free (native++rest))
    (hI : I t) (hQ : Q (if mustExist then .error (.io .notFound) else .ok (native++rest)) t) :
    Safe I Q (checkComponents mustExist native rest) t := by
  induction rest generalizing native with
  | nil => exact absurd rfl hrest
  | cons c rest ih =>
    have hassoc : native++c::rest=(native++[c])++rest := by simp
    rw [hassoc] at hfree hQ
    rcases rest with _ | ⟨d,rest⟩
    · rw [List.append_nil] at hfree hQ
      cases mustExist <;>
        simpa [checkComponents,stat_absent hfree.node hfree.parent,hI,Except.mapError] using hQ
    · have hdir : t.node (native++[c])=some .directory :=
        t.node_of_prefix_parent hfree.parent (List.prefix_append _ _) (by simp)
      have hnext := ih (by simp) hfree hQ
      rw [checkComponents]
      simpa [stat_directory hdir,hI,Except.mapError,Metadata.isDir,Metadata.isSymlink] using hnext

private theorem safe_checkComponents (hrest : rest≠[]) (hdir : t.node native=some .directory)
    (hI : I t) (hfile : ∀ i, t.node (native++rest)=some (.file i) → Q (.ok (native++rest)) t)
    (hfree : mustExist=false → t.Free (native++rest) → Q (.ok (native++rest)) t)
    (herr : ∀ e, Benign e → Q (.error e) t) :
    Safe I Q (checkComponents mustExist native rest) t := by
  induction rest generalizing native with
  | nil => exact absurd rfl hrest
  | cons c rest ih =>
    have hassoc : native++c::rest=(native++[c])++rest := by simp
    rw [hassoc] at hfile hfree
    rw [checkComponents]
    simp only [safe_bind,safe_attempt,safe_symlinkMetadata,hI,true_and]
    cases hn : t.node (native++[c]) with
    | none =>
      have hstat : stat t (native++[c])=.error (t.missing (native++[c])) := by
        simp [stat,hn]
      simp only [hstat,Except.mapError,safe_ite,safe_pure,safe_fail]
      split
      · next h =>
        obtain ⟨-,hlast,hex⟩ := h
        rw [List.isEmpty_iff] at hlast
        subst hlast
        rw [List.append_nil] at hfree
        exact hfree (by simpa using hex) ⟨by simp,by simpa using hdir,hn⟩
      · exact herr _ (benign_io _)
    | some n =>
      cases n with
      | symlink =>
        have hstat : stat t (native++[c])=.ok ⟨.symlink,0⟩ := by simp [stat,hn]
        simpa [hstat,Except.mapError,Metadata.isSymlink] using
          herr .invalidMutationTarget (by simp [Benign])
      | directory =>
        rcases rest with _ | ⟨d,rest⟩
        · simpa [stat_directory hn,Except.mapError,Metadata.isSymlink,Metadata.isFile] using
            herr .invalidMutationTarget (by simp [Benign])
        · simpa [stat_directory hn,Except.mapError,Metadata.isSymlink,Metadata.isDir] using
            ih (by simp) hn hfile hfree
      | file j =>
        rcases rest with _ | ⟨d,rest⟩
        · have hdone : Safe I Q (checkComponents mustExist (native++[c]) []) t := by
            refine safe_checkComponents_file (i := j) (by simpa using hn) hI ?_
            exact hfile j (by simpa using hn)
          simpa [stat_file hn,Except.mapError,Metadata.isSymlink,Metadata.isFile] using hdone
        · simpa [stat_file hn,Except.mapError,Metadata.isSymlink,Metadata.isDir] using
            herr .invalidMutationTarget (by simp [Benign])

end Walk

variable {workspace : Workspace} {logical : Text} {Q : Except PlatformError Path → Tree → Prop}

section
variable (h : AdmittedPath workspace logical)
include h

theorem rejectReserved_ok : workspace.rejectReserved logical=.ok () := by
  unfold Workspace.rejectReserved
  cases hs : workspace.internalState with
  | false => rfl
  | true => simp [h.unreserved hs]

private theorem safe_checkedMutationPath_of
    (hwalk : Safe I Q (checkComponents mustExist [] (components logical)) t) :
    Safe I Q (workspace.checkedMutationPath logical mustExist) t := by
  simp only [Workspace.checkedMutationPath,safe_bind,safe_ofExcept,h.logical,rejectReserved_ok h,
    if_neg h.ne_root]
  exact hwalk

/-- A regular file at the path is found. -/
theorem safe_checkedMutationPath_file (hfile : t.node (components logical)=some (.file i))
    (hI : I t) (hQ : Q (.ok (components logical)) t) :
    Safe I Q (workspace.checkedMutationPath logical mustExist) t :=
  safe_checkedMutationPath_of h (safe_checkComponents_file (by simpa using hfile) hI
    (by simpa using hQ))

/-- A free name is accepted unless the file must exist. -/
theorem safe_checkedMutationPath_free (hfree : t.Free (components logical)) (hI : I t)
    (hQ : Q (.ok (components logical)) t) :
    Safe I Q (workspace.checkedMutationPath logical false) t :=
  safe_checkedMutationPath_of h (safe_checkComponents_free (components_ne_nil logical)
    (by simpa using hfree) hI (by simpa using hQ))

end

/-- A reserved path is refused before anything is looked at. -/
theorem safe_checkedMutationPath_reserved (h : validateLogical logical=.ok ())
    (hresv : isReserved logical=true) (hQ : Q (.error .reservedPath) t) :
    Safe I Q (Workspace.checkedMutationPath ⟨true⟩ logical mustExist) t := by
  simp only [Workspace.checkedMutationPath,safe_bind,safe_ofExcept,h,Workspace.rejectReserved,
    hresv,Bool.and_self,if_true]
  exact hQ

/-- On any tree, what a walk that succeeds has found. -/
theorem safe_checkedMutationPath (h : AdmittedPath workspace logical) (hI : I t)
    (hfile : ∀ i, t.node (components logical)=some (.file i) → Q (.ok (components logical)) t)
    (hfree : mustExist=false → t.Free (components logical) → Q (.ok (components logical)) t)
    (herr : ∀ e, Benign e → Q (.error e) t) :
    Safe I Q (workspace.checkedMutationPath logical mustExist) t :=
  safe_checkedMutationPath_of h (safe_checkComponents (components_ne_nil logical)
    t.root_directory hI (by simpa using hfile) (by simpa using hfree) herr)

end Ash.CheckedPaths
