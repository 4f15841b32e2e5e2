import Ash.FileTransactions
import Ash.JournalStates

/-! # Initialized state directories

What opening a workspace and taking its locks find when the state directory is as
the program makes it. -/

namespace Ash.InternalState
open FileTrees WorkspaceOperations WorkspacePaths WorkspaceRules TransactionSteps TransactionReads
open ActionSteps JournalStates FileTransactions

/-- The state directory and its format marker are there, and nothing blocks the lock. -/
structure Initialized (t : Tree) : Prop where
  state : t.node statePath=some .directory
  format : Holds t formatPath formatMarker
  lock : FileOrAbsent t lockPath

/-- Initialized, and no journal is published. -/
structure Ready (t : Tree) : Prop extends Initialized t where
  unpublished : t.node transactionPath=none
  preparing : t.node preparingPath=none ∨ t.node preparingPath=some .directory

/-- Initialized, with no journal published or being prepared. -/
structure Clean (t : Tree) : Prop extends Initialized t where
  unpublished : t.node transactionPath=none
  unprepared : t.node preparingPath=none

/-- Clean, with the lock file there. -/
structure Idle (t : Tree) : Prop extends Clean t where
  locked : ∃ i, t.node lockPath=some (.file i)

theorem Clean.ready {t : Tree} (h : Clean t) : Ready t :=
  ⟨h.toInitialized,h.unpublished,.inl h.unprepared⟩

/-- Readers outside the state directory see `v`. -/
def Shows (v : View) (t : Tree) : Prop := ∀ p, Outside p → t.entry p=v p

/-! ## Names -/

theorem statePath_prefix_lock : statePath <+: lockPath := List.prefix_append _ _
theorem statePath_prefix_format : statePath <+: formatPath := List.prefix_append _ _
theorem statePath_prefix_transaction : statePath <+: transactionPath := List.prefix_append _ _
theorem statePath_prefix_preparing : statePath <+: preparingPath := List.prefix_append _ _

theorem format_ne_lock : formatPath≠lockPath := by decide
theorem state_ne_lock : statePath≠lockPath := by decide
theorem transaction_ne_lock : transactionPath≠lockPath := by decide
theorem preparing_ne_lock : preparingPath≠lockPath := by decide

@[simp] theorem transaction_not_prefix_state : ¬ transactionPath <+: statePath := by decide
@[simp] theorem transaction_not_prefix_format : ¬ transactionPath <+: formatPath := by decide
@[simp] theorem transaction_not_prefix_lock : ¬ transactionPath <+: lockPath := by decide
@[simp] theorem transaction_not_prefix_preparing : ¬ transactionPath <+: preparingPath := by decide
@[simp] theorem preparing_not_prefix_state : ¬ preparingPath <+: statePath := by decide
@[simp] theorem preparing_not_prefix_format : ¬ preparingPath <+: formatPath := by decide
@[simp] theorem preparing_not_prefix_lock : ¬ preparingPath <+: lockPath := by decide
@[simp] theorem preparing_not_prefix_transaction : ¬ preparingPath <+: transactionPath := by decide

theorem not_outside_of_prefix {p q : Path} (hp : statePath <+: p) (hq : p <+: q) : ¬ Outside q :=
  fun h => h (hp.trans hq)

variable {I : Watch} {t t' : Tree} {v : View}

variable {P : Path → Prop}

/-- Steps inside the state directory are not seen outside. -/
theorem Shows.keeps (h : Shows v t) (hk : t.Keeps P t') (hP : ∀ p, P p → ¬ Outside p) :
    Shows v t' := by
  intro p hp
  rw [hk.entry fun hpp => hP p hpp hp,h p hp]

theorem Holds.keeps {p : Path} {bytes : Bytes} (h : Holds t p bytes) (hk : t.Keeps P t')
    (hp : ¬ P p) : Holds t' p bytes := by
  obtain ⟨i,hi,hd⟩ := h
  exact ⟨i,by rw [hk.node p hp,hi],by rw [hk.data i (t.inode_lt p i hi),hd]⟩

theorem FileOrAbsent.keeps {p : Path} (h : FileOrAbsent t p) (hk : t.Keeps P t') (hp : ¬ P p) :
    FileOrAbsent t' p := by
  simpa only [FileOrAbsent,hk.node p hp] using h

theorem Initialized.keeps (h : Initialized t) (hk : t.Keeps P t') (hs : ¬ P statePath)
    (hf : ¬ P formatPath) (hl : ¬ P lockPath) : Initialized t' where
  state := by rw [hk.node _ hs,h.state]
  format := Holds.keeps h.format hk hf
  lock := FileOrAbsent.keeps h.lock hk hl

/-- A workspace with nothing but its state directory. -/
def initializedTree : Tree where
  node p := if p=[] ∨ p=statePath then some .directory
    else if p=formatPath then some (.file 0) else none
  data _ := formatMarker
  next := 1
  root_directory := by simp
  parent_directory p c h := by
    split at h
    · next hp =>
      rcases hp with hp | hp
      · simp at hp
      · obtain ⟨rfl,-⟩ := List.append_inj' (show p++[c]=[]++[stateDirectory] from hp) rfl
        simp
    · split at h
      · next hp =>
        obtain ⟨rfl,-⟩ := List.append_inj' (show p++[c]=statePath++_ from hp) rfl
        simp
      · exact absurd rfl h
  inode_lt p i h := by
    split at h
    · cases h
    · split at h
      · cases h
        exact Nat.zero_lt_one
      · cases h

theorem ready_initializedTree : Ready initializedTree where
  state := by simp [initializedTree]
  format := ⟨0,by decide,rfl⟩
  lock := .inl (by decide)
  unpublished := by decide
  preparing := .inl (by decide)

/-! ## Opening and locking -/

theorem safe_formatMarker {Q : Except PlatformError Bytes → Tree → Prop} (h : Initialized t)
    (hI : I t) (hQ : Q (.ok formatMarker) t) :
    Safe I Q (readRegularBounded formatPath formatMarker.length) t := by
  obtain ⟨i,hi,hd⟩ := h.format
  refine safe_readRegularBounded hi (by rw [hd]) hI ?_
  rw [hd]
  exact hQ

theorem safe_openWorkspace {Q : Except PlatformError Workspace → Tree → Prop} (h : Initialized t)
    (hI : I t) (hQ : Q (.ok ⟨true⟩) t) : Safe I Q openWorkspace t := by
  refine safe_bind.2 (safe_bind.2 (safe_attempt.2 (safe_symlinkMetadata.2 ⟨hI,?_⟩)))
  rw [stat_directory h.state]
  refine safe_bind.2 (safe_attempt.2 (safe_formatMarker h hI ?_))
  exact safe_pure.2 (safe_pure.2 (by simpa using hQ))

theorem safe_ensureInternalState {Q : Except PlatformError Workspace → Tree → Prop}
    (h : Initialized t) (hI : I t) (hQ : Q (.ok ⟨true⟩) t) : Safe I Q ensureInternalState t := by
  refine safe_bind.2 (safe_attempt.2 (safe_symlinkMetadata.2 ⟨hI,?_⟩))
  rw [stat_directory h.state]
  refine safe_bind.2 (safe_attempt.2 (safe_formatMarker h hI ?_))
  simpa using hQ

theorem safe_checkLockFile {Q : Except PlatformError Unit → Tree → Prop} (h : Initialized t)
    (hI : I t) (hQ : Q (.ok ()) t) : Safe I Q checkLockFile t := by
  refine safe_bind.2 (safe_attempt.2 (safe_symlinkMetadata.2 ⟨hI,?_⟩))
  rcases h.lock with hnone | ⟨i,hfile⟩
  · rw [stat_absent hnone h.state]
    exact safe_pure.2 hQ
  · rw [stat_file hfile]
    exact safe_pure.2 hQ

section Lock

variable {Q : Except PlatformError LockResult → Tree → Prop}

/-- The lock file is there: holding it changes nothing. -/
theorem safe_holdLockFile_file {i : ℕ} (hlock : t.node lockPath=some (.file i)) (hI : I t)
    (hQ : Q (.ok (.acquired ⟨true⟩)) t) : Safe I Q (holdLockFile ⟨true⟩) t := by
  have hopen : openOrCreate t lockPath=.ok t := by simp [openOrCreate,hlock]
  refine safe_bind.2 (safe_openLock.2 ?_)
  rw [change_ok hopen]
  exact ⟨hI,safe_bind.2 (safe_awaitLock.2 ⟨hI,safe_pure.2 hQ⟩)⟩

/-- Holding the lock file may create it. -/
theorem safe_holdLockFile (h : Initialized t) (hI : I t)
    (hI' : ∀ t', t.Keeps (· = lockPath) t' → Initialized t' → I t')
    (hQ : ∀ t' i, t.Keeps (· = lockPath) t' → Initialized t' → t'.node lockPath=some (.file i) →
      Q (.ok (.acquired ⟨true⟩)) t') : Safe I Q (holdLockFile ⟨true⟩) t := by
  rcases h.lock with hnone | ⟨i,hfile⟩
  · obtain ⟨t',ht,hc⟩ := FileTree.createNew_ok (t := t) (p := lockPath) ⟨by decide,h.state,hnone⟩
    have hopen : openOrCreate t lockPath=.ok t' := by simp [openOrCreate,hnone,ht,Except.map]
    have hlock : t'.node lockPath=some (.file t.next) := by rw [hc.node,Function.update_self]
    have hinit : Initialized t' :=
      ⟨by rw [hc.keeps.node _ state_ne_lock,h.state],Holds.keeps h.format hc.keeps format_ne_lock,
        .inr ⟨_,hlock⟩⟩
    refine safe_bind.2 (safe_openLock.2 ?_)
    rw [change_ok hopen]
    have hI₁ := hI' t' hc.keeps hinit
    exact ⟨hI₁,safe_bind.2 (safe_awaitLock.2 ⟨hI₁,safe_pure.2 (hQ t' _ hc.keeps hinit hlock)⟩)⟩
  · exact safe_holdLockFile_file hfile hI (hQ t i (.refl t) h hfile)

theorem safe_acquireTransactionLocks (h : Initialized t) (hI : I t)
    (hhold : Safe I Q (holdLockFile ⟨true⟩) t) : Safe I Q acquireTransactionLocks t := by
  refine safe_bind.2 (safe_awaitLock.2 ⟨hI,?_⟩)
  exact safe_bind.2 (safe_ensureInternalState h hI
    (safe_bind.2 (safe_checkLockFile h hI hhold)))

end Lock

section Directories

variable {Q : Except PlatformError Bool → Tree → Prop} {p : Path}

theorem safe_internalDirectoryExists_directory (h : t.node p=some .directory) (hI : I t)
    (hQ : Q (.ok true) t) : Safe I Q (internalDirectoryExists p) t := by
  refine safe_bind.2 (safe_attempt.2 (safe_symlinkMetadata.2 ⟨hI,?_⟩))
  rw [stat_directory h]
  exact safe_pure.2 hQ

theorem safe_internalDirectoryExists_absent (h : t.node p=none)
    (hp : t.node (FileTree.parent p)=some .directory) (hI : I t) (hQ : Q (.ok false) t) :
    Safe I Q (internalDirectoryExists p) t := by
  refine safe_bind.2 (safe_attempt.2 (safe_symlinkMetadata.2 ⟨hI,?_⟩))
  rw [stat_absent h hp]
  exact safe_pure.2 hQ

theorem safe_requireInternalDirectory {Q : Except PlatformError Unit → Tree → Prop}
    (h : t.node p=some .directory) (hI : I t) (hQ : Q (.ok ()) t) :
    Safe I Q (requireInternalDirectory p) t :=
  safe_bind.2 (safe_internalDirectoryExists_directory h hI (safe_pure.2 hQ))

end Directories

end Ash.InternalState
