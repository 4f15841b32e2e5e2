import Ash.InternalStateCrash

/-! # Crashes while a journal is removed

A journal directory is removed entry by entry.  As long as what recovery reads is there,
or the whole directory gone, recovery finishes the removal and readers see nothing of
it; once the commit marker goes first, recovery takes the transaction back. -/

namespace Ash.JournalCleanup
open FileTrees WorkspaceOperations WorkspacePaths WorkspaceRules TransactionActions TransactionSteps
open ActionSteps JournalStates JournalActions JournalLoops FileTransactions InternalState Journals
open TransactionPreparation TransactionPhases RecoveryRuns TransactionRuns CrashAtomicity
open InternalStateCrash

variable {hash : Bytes → Digest} {limits : FileTransactionLimits} {j : Journal hash limits}
variable {t t' torn : Tree} {removed : List Path} {workspace : Workspace}
variable {actions : List FileAction}

/-- What recovery reads of a journal before it decides. -/
def recoveryReads : List Path :=
  [transactionPath,transactionPath++[stageDirectory],transactionPath++[removedDirectory],
    manifestPath,committedPath]

/-! ## Torn journals -/

variable {p : Path} {v : View}

/-- With all that recovery reads spared, only entries of actions and the marker under its
temporary name are gone. -/
theorem touched_of_unlinks (h : j.Intact t) (hu : t.Unlinks transactionPath removed torn)
    (hspared : ∀ p∈recoveryReads, p∉removed) (hp : p∈removed) : j.Touched p := by
  obtain ⟨r,rfl⟩ := hu.root_prefix p hp
  by_contra hnot
  have hcommitted : transactionPath++r≠committedPath := fun he =>
    hspared committedPath (by simp [recoveryReads]) (he ▸ hp)
  have hbound := (hu.node_of_mem hp).2
  rw [h.node _ (by simp [hnot,hcommitted])] at hbound
  refine hbound (j.closed r ?_ fun n => ⟨fun he => hnot (he ▸ .stage n),fun he =>
    hnot (he ▸ .removed n)⟩)
  intro hparts
  have hread : transactionPath++r∈recoveryReads := by
    simp only [journalParts,List.mem_cons,List.not_mem_nil,or_false] at hparts
    rcases hparts with rfl | rfl | rfl | rfl <;> simp [recoveryReads,manifestPath]
  exact hspared _ hread hp

theorem intact_torn (h : j.Intact t) (hu : t.Unlinks transactionPath removed torn)
    (hspared : ∀ p∈recoveryReads, p∉removed) : j.Intact torn :=
  FileTree.Keeps.trans h (hu.keeps.mono fun _ hp => .inl (touched_of_unlinks h hu hspared hp))

theorem entry_torn (hu : t.Unlinks transactionPath removed torn) (hp : Outside p) :
    torn.entry p=t.entry p :=
  hu.keeps.entry fun hmem => hp (statePath_prefix_transaction.trans (hu.root_prefix p hmem))

theorem committed_torn (h : j.Committed t) (hu : t.Unlinks transactionPath removed torn)
    (hspared : ∀ p∈recoveryReads, p∉removed) : j.Committed torn where
  intact := intact_torn h.intact hu hspared
  marker := Holds.keeps h.marker hu.keeps (hspared _ (by simp [recoveryReads]))
  applied s hs p hp := by rw [entry_torn hu (s.outside_target hp),h.applied s hs p hp]

/-- A restored action needs none of its journal entries to stay restored. -/
theorem rollbackable_torn {s : Slot hash limits} {b : Tree} (h : Rollbackable s.index b t s.change)
    (hprep : Prepared s.index b s.change) (hres : Restored b t s.change)
    (hu : t.Unlinks transactionPath removed torn) : Rollbackable s.index b torn s.change := by
  have htgt : ∀ p∈s.change.targets, torn.node p=t.node p := fun p hp =>
    hu.keeps.node p fun hmem => s.outside_target hp
      (statePath_prefix_transaction.trans (hu.root_prefix p hmem))
  have hholds : ∀ {p bytes}, torn.node p=t.node p → Holds t p bytes → Holds torn p bytes := by
    rintro p bytes hp ⟨i,hi,hd⟩
    exact ⟨i,by rw [hp,hi],by rw [hu.data,hd]⟩
  have hleaf : ∀ {p}, FileOrAbsent t p → FileOrAbsent torn p := by
    intro p hp
    rcases hu.node_eq p with he | he
    · simpa only [FileOrAbsent,he] using hp
    · exact .inl he
  have hrem := hu.node_eq (removedPath transactionPath s.index)
  have hgone : ∀ {p}, p∈s.change.targets → b.node p=none → t.node p=none := by
    intro p hp hb
    have := hres p hp
    rw [entry_of_node_none hb] at this
    simpa [FileTree.entry] using this
  generalize s.change=change at h hprep hres htgt hgone ⊢
  cases change with
  | create target bytes =>
    have hmem := List.mem_singleton_self target
    have hnone := hgone hmem hprep.2.node
    rcases h with h | ⟨i,hi,-⟩
    · exact .inl ⟨by rw [htgt _ hmem,hnone],hleaf h.2⟩
    · cases hnone.symm.trans hi
  | move source target bytes =>
    have hsrc : source∈[source,target] := List.mem_cons_self
    have hmem := List.mem_cons_of_mem source (List.mem_singleton_self target)
    have hnone := hgone hmem hprep.2.node
    obtain ⟨i,hi,-⟩ := hprep.1
    rcases h with h | h | h
    · exact .inl ⟨by rw [htgt _ hsrc,h.1],by rw [htgt _ hmem,hnone]⟩
    · cases hnone.symm.trans (h.2.trans hi)
    · cases hnone.symm.trans (h.2.trans hi)
  | remove source bytes =>
    have hsrc := List.mem_singleton_self source
    rcases h with h | h
    · refine .inl ⟨by rw [htgt _ hsrc,h.1],?_⟩
      rcases hrem with he | he
      · rw [he,h.2]
      · exact he
    · have := hres source hsrc
      rw [entry_of_node_none h.1,hprep.1.entry] at this
      cases this
  | replace target old new =>
    have hmem := List.mem_singleton_self target
    obtain ⟨hleafStage,h⟩ := h
    have hkept : Holds t (removedPath transactionPath s.index) old ∨
        t.node (removedPath transactionPath s.index)=none →
        torn.node (removedPath transactionPath s.index)=none ∨
          Holds torn (removedPath transactionPath s.index) old := by
      intro hk
      rcases hrem with he | he
      · exact hk.elim (fun hk => .inr (hholds he hk)) fun hk => .inl (he.trans hk)
      · exact .inl he
    refine ⟨hleaf hleafStage,.inl ?_⟩
    rcases h with ⟨h₁,h₂⟩ | ⟨h₁,h₂⟩
    · exact ⟨hholds (htgt _ hmem) h₁,hkept h₂.symm⟩
    · -- shown as old and holding new: the two are the same
      have hsame := hres target hmem
      rw [h₁.entry,hprep.1.entry] at hsame
      cases hsame
      exact ⟨hholds (htgt _ hmem) h₁,hkept (.inl h₂)⟩

theorem inProgress_torn (h : RestoredFrom j 0 t) (hu : t.Unlinks transactionPath removed torn)
    (hspared : ∀ p∈recoveryReads, p∉removed) : j.InProgress torn where
  keeps := h.progress.keeps.trans
    (hu.keeps.mono fun _ hp => touched_of_unlinks h.progress.intact hu hspared hp)
  rollbackable s hs := rollbackable_torn (h.progress.rollbackable s hs) (j.prepared s hs)
    (h.restored s hs (Nat.zero_le _)) hu

/-! ## What recovery makes of them -/

/-- A journal that may be removed: committed, or rolled back. -/
def Removable (j : Journal hash limits) (t : Tree) : Prop := j.Committed t ∨ RestoredFrom j 0 t

theorem Removable.intact (h : Removable j t) : j.Intact t :=
  h.elim (fun h => h.intact) fun h => h.progress.intact

/-- What recovery of a torn journal is to achieve. -/
def Finished (t : Tree) (r : Except PlatformError Bool) (t' : Tree) : Prop :=
  (∃ found, r=.ok found) ∧ ∀ p, Outside p → t'.entry p=t.entry p

theorem safe_recoverLocked_torn (h : Removable j t) (hu : t.Unlinks transactionPath removed torn)
    (hspared : transactionPath∈removed ∨ ∀ p∈recoveryReads, p∉removed) :
    Safe .none (Finished t) (recoverLocked hash ⟨true⟩) torn := by
  rcases hspared with hgone | hspared
  · obtain ⟨hidle,hsame⟩ := h.intact.clears (hu.clears hgone)
    refine safe_recoverLocked_ready hidle.toClean.ready trivial trivial fun b t' _ hk => ?_
    refine ⟨trivial,⟨b,rfl⟩,fun p hp => ?_⟩
    rw [hk.entry fun he => preparing_not_outside he hp,hsame p hp]
  rcases h with h | h
  · refine safe_recoverLocked_committed (committed_torn h hu hspared) trivial trivial
      fun t' _ hshows => ⟨trivial,⟨true,rfl⟩,fun p hp => ?_⟩
    rw [hshows p hp,h.shows_result p hp]
  · refine safe_recoverLocked_inProgress (inProgress_torn h hu hspared) (fun _ _ => trivial)
      (fun _ _ => trivial) fun t' _ hshows => ⟨trivial,⟨true,rfl⟩,fun p hp => ?_⟩
    rw [hshows p hp,h.progress.shows_base (fun s hs => h.restored s hs (Nat.zero_le _)) p hp]

/-! ## When a transaction removes a journal -/

/-- Only a removable journal is ever removed. -/
def cleanupWatch (hash : Bytes → Digest) : Watch where
  crash _ := True
  removal p t := p=transactionPath → ∃ limits, ∃ j : Journal hash limits, Removable j t

theorem pendingWatch_implies :
    (pendingWatch hash limits v).Implies (cleanupWatch hash) where
  crash _ _ := trivial
  removal p t h hp := by
    obtain ⟨j,hj,-⟩ := h hp
    exact ⟨limits,j,.inr hj⟩

theorem settledWatch_implies :
    (settledWatch hash limits v).Implies (cleanupWatch hash) where
  crash _ _ := trivial
  removal p t h hp := by
    obtain ⟨j,hj,-⟩ := h hp
    exact ⟨limits,j,.inl hj⟩

/-- No state directory yet, or one that this program left: idle, or with the journal of a
transaction cut anywhere. -/
inductive Sound (hash : Bytes → Digest) (t : Tree) : Prop where
  | absent (h : t.node statePath=none)
  | pending {limits : FileTransactionLimits} {v : View} (h : Pending hash limits v t)
  | settled {limits : FileTransactionLimits} {v : View} (h : Settled hash limits v t)

section Removals

variable {Q : Except PlatformError FileTransactionOutcome → Tree → Prop}

private theorem safe_phased {v : View} {prog : Act PlatformError FileTransactionOutcome}
    (h : Phased (pendingWatch hash limits v) (settledWatch hash limits (applyFileActions actions v))
      (Ended actions v) prog t false) :
    Safe (cleanupWatch hash) (fun _ _ => True) prog t :=
  safe_post (safe_of_phased h pendingWatch_implies settledWatch_implies) fun _ _ _ => trivial

/-- A transaction that meets a journal and has it recovered. -/
private theorem safe_interrupted {limits' : FileTransactionLimits} {j : Journal hash limits'}
    (hvalid : validateActions workspace actions=.ok ()) (h : j.Intact t) (hrecover : ∀ {Q : Except PlatformError Bool → Tree → Prop},
      (∀ t', Idle t' → Q (.ok true) t') →
      Safe (cleanupWatch hash) Q (recoverLocked hash ⟨true⟩) t) :
    Safe (cleanupWatch hash) (fun _ _ => True) (fileTransaction hash workspace actions limits) t := by
  obtain ⟨i,hi⟩ := h.locked
  rw [fileTransaction_eq hvalid]
  refine safe_bind.2 (safe_awaitLock.2 ⟨trivial,?_⟩)
  refine safe_bind.2 (safe_ensureInternalState h.initialized trivial ?_)
  refine safe_bind.2 (safe_checkLockFile h.initialized trivial ?_)
  refine safe_bind.2 (safe_holdLockFile_file hi trivial ?_)
  refine safe_bind.2 (hrecover fun t' hidle => ?_)
  exact safe_phased (phased_prepareAndPublish (v := t'.entry) (validActions_of_ok hvalid).weaken
    hidle fun _ _ => rfl)

theorem safe_fileTransaction (h : Sound hash t) (hvalid : validateActions workspace actions=.ok ()) :
    Safe (cleanupWatch hash) (fun _ _ => True) (fileTransaction hash workspace actions limits) t := by
  have hready : Ready t → Safe (cleanupWatch hash) (fun _ _ => True)
      (fileTransaction hash workspace actions limits) t := fun hr =>
    safe_phased (phased_fileTransaction (v := t.entry) hvalid hr fun _ _ => rfl)
  cases h with
  | absent h =>
    obtain ⟨t₁,t₂,t₃,hm⟩ := exists_making h
    rw [fileTransaction_eq hvalid]
    refine safe_bind.2 (safe_awaitLock.2 ⟨trivial,?_⟩)
    refine safe_bind.2 (safe_ensureInternalState_absent hm (fun _ => trivial) ?_)
    exact safe_phased (phased_onceMade (v := t₃.entry) (validActions_of_ok hvalid).weaken hm.ready.1
      fun _ _ => rfl)
  | pending h =>
    cases h with
    | ready h _ => exact hready h
    | journal j h _ =>
      refine safe_interrupted hvalid h.intact fun hQ => ?_
      exact safe_recoverLocked_inProgress h (fun _ _ => trivial) (fun t' hr _ => ⟨_,j,.inr hr⟩)
        fun t' hidle _ => ⟨trivial,hQ t' hidle⟩
  | settled h =>
    cases h with
    | clean h _ => exact hready h.ready
    | journal j h _ =>
      refine safe_interrupted hvalid h.intact fun hQ => ?_
      exact safe_recoverLocked_committed h trivial (fun _ => ⟨_,j,.inl h⟩)
        fun t' hidle _ => ⟨trivial,hQ t' hidle⟩

end Removals

/-- A transaction has begun to remove a journal, committed or rolled back, and crashed
after some of the unlinks.  If the directory is gone, or all that recovery reads is still
there, recovery succeeds and readers see what they saw when the removal began. -/
theorem torn_cleanup_recovers (hash : Bytes → Digest) (limits : FileTransactionLimits)
    (initial : Tree) (hinitial : Sound hash initial) (workspace : Workspace)
    (actions : List FileAction) (hvalid : validateActions workspace actions=.ok ())
    (polls polls' : ℕ → TransactionControl) (n : ℕ)
    (hremoval : machine.opAt (fileTransaction hash workspace actions limits) ⟨initial,polls⟩ n =
      some (.removeDirAll transactionPath))
    (removed : List Path) (torn : Tree)
    (hunlinks : (machine.stateAt (fileTransaction hash workspace actions limits) ⟨initial,polls⟩
      n).tree.Unlinks transactionPath removed torn)
    (hspared : transactionPath∈removed ∨ ∀ p∈recoveryReads, p∉removed) :
    let final := machine.run (recoverLocked hash ⟨true⟩) ⟨torn,polls'⟩
    (∃ found, final.1=.ok found) ∧ ∀ p, Outside p → final.2.tree.entry p =
      (machine.stateAt (fileTransaction hash workspace actions limits) ⟨initial,polls⟩
        n).tree.entry p := by
  have hsafe : Safe _ _ (fileTransaction hash workspace actions limits) initial :=
    safe_fileTransaction hinitial hvalid
  obtain ⟨limits',j,hj⟩ := ((hsafe polls).opAt hremoval).2 transactionPath rfl rfl
  exact (safe_recoverLocked_torn hj hunlinks hspared polls').run

/-- A callback that cancels when asked for the second time. -/
def cancelsOnce : ℕ → TransactionControl := fun n => if n=1 then .cancelled else .continue

/-- The rollback of a cancelled transaction, cut after its staged file is unlinked. -/
theorem torn_cleanup_recovers_cancelled :
    ∃ torn, (machine.stateAt createOne ⟨initializedTree,cancelsOnce⟩ 28).tree.Unlinks
        transactionPath [stagePath transactionPath 0] torn ∧
      ∃ found, (machine.run (recoverLocked constantHash ⟨true⟩) ⟨torn,alwaysContinue⟩).1 =
        .ok found := by
  have hfile : (machine.stateAt createOne ⟨initializedTree,cancelsOnce⟩ 28).tree.node
      (stagePath transactionPath 0)=some (.file 2) := by rfl
  obtain ⟨torn,htorn,-⟩ := FileTree.removeFile_ok hfile
  have hunlinks := FileTree.Unlinks.of_removeFile (transaction_prefix_stage 0) hfile htorn
  refine ⟨torn,hunlinks,?_⟩
  have hpend : Pending constantHash smallLimits initializedTree.entry initializedTree :=
    .ready ready_initializedTree fun _ _ => rfl
  exact (torn_cleanup_recovers constantHash smallLimits initializedTree (.pending hpend) ⟨true⟩
    [FileAction.create "a".toList [1,2]] (by decide) cancelsOnce alwaysContinue 28 rfl _ torn
    hunlinks (.inr (by decide))).1

/-- A committed transaction whose cleanup is about to begin. -/
def committedTree : Tree := (machine.stateAt createOne ⟨initializedTree,alwaysContinue⟩ 46).tree

/-- The same with the commit marker unlinked. -/
def unmarkedTree : Tree :=
  match committedTree.removeFile committedPath with
  | .ok t => t
  | .error _ => committedTree

/-- The cleanup of a committed transaction, cut after the commit marker alone is unlinked:
recovery takes the created file away. -/
theorem unmarked_cleanup_undone :
    machine.opAt createOne ⟨initializedTree,alwaysContinue⟩ 46 =
      some (.removeDirAll transactionPath) ∧
    committedTree.Unlinks transactionPath [committedPath] unmarkedTree ∧
    committedTree.entry ["a".toList]=some (.file [1,2]) ∧
    (machine.run (recoverLocked constantHash ⟨true⟩) ⟨unmarkedTree,alwaysContinue⟩).2.tree.entry
      ["a".toList]=none := by
  have hfile : committedTree.node committedPath=some (.file 4) := by rfl
  exact ⟨rfl,.of_removeFile (List.prefix_append _ _) hfile rfl,rfl,rfl⟩

end Ash.JournalCleanup
