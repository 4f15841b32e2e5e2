import Ash.RecoveryRuns

/-! # Runs of a transaction

From a ready tree, a transaction stays pending up to its commit marker and settled
after it, whatever the control callback answers and wherever it is cut. -/

namespace Ash.TransactionRuns
open FileTrees WorkspaceOperations WorkspacePaths WorkspaceRules CheckedPaths TransactionActions
open TransactionManifest TransactionSteps TransactionWrites JournalStates JournalActions
open JournalLoops FileTransactions InternalState Journals TransactionPreparation PreparationLoop
open Workdirs JournalPublication TransactionPhases RecoveryRuns

variable {hash : Bytes → Digest} {limits : FileTransactionLimits} {v : View}
variable {actions : List FileAction}
variable {t : Tree} {j : Journal hash limits}

/-- The errors of a transaction over an initialized workspace. -/
def Excused (actions : List FileAction) (e : PlatformError) : Prop :=
  Benign e ∨ e=.reservedPath ∧ NamesState actions

/-- How a transaction ends on either side of its commit. -/
def Ended (actions : List FileAction) (v : View) (r : Except PlatformError FileTransactionOutcome)
    (t : Tree) (seen : Bool) : Prop :=
  (seen=false → Ready t ∧ Shows v t) ∧
    (seen=true → Clean t ∧ Shows (applyFileActions actions v) t) ∧
    ∀ e, r=.error e → Excused actions e

variable {r : Except PlatformError FileTransactionOutcome} {workspace : Workspace}

theorem ended_before (hc : Ready t) (hv : Shows v t) (hr : ∀ e, r=.error e → Excused actions e) :
    Ended actions v r t false :=
  ⟨fun _ => ⟨hc,hv⟩,fun h => (by cases h),hr⟩

/-- The program is pending up to the commit marker and settled after it. -/
abbrev Transacts (hash : Bytes → Digest) (limits : FileTransactionLimits) (actions : List FileAction)
    (v : View) (program : Act PlatformError FileTransactionOutcome) (t : Tree) : Prop :=
  Phased (pendingWatch hash limits v) (settledWatch hash limits (applyFileActions actions v))
    (Ended actions v) program t false

/-! ## Abandoning and committing -/

theorem safe_abandon {rows : List FileActionOutcome} {failure : FileTransactionFailure}
    (h : j.InProgress t) (hv : Shows v j.base) (hk : KnownBelow j (some rows) j.slots.length t) :
    Safe (pendingWatch hash limits v) (fun r t' => Ended actions v r t' false)
      (abandon hash ⟨true⟩ (j.slots.map Slot.action) rows failure) t := by
  refine safe_bind.2 (safe_rollbackLocked h (fun t' h' => Pending.journal j h' hv)
    (fun rows t' hr => ?_) hk)
  refine safe_dropJournal hr.progress.intact (fun _ => ⟨j,hr,hv⟩) fun t'' hclean hsame => ?_
  have hbase := hr.progress.shows_base fun s hs => hr.restored s hs (Nat.zero_le _)
  have hshows : Shows v t'' := fun p hp =>
    (hsame p hp).trans ((hbase p hp).trans (hv p hp))
  exact ⟨.ready hclean.toClean.ready hshows,ended_before hclean.toClean.ready hshows (by simp)⟩

variable {t' : Tree}

/-- The marker under its temporary name is part of a journal in progress. -/
theorem inProgress_creates {bytes : Bytes} (h : j.InProgress t)
    (hc : t.Creates committingPath bytes t') : j.InProgress t' := by
  have hnot : ∀ {s : Slot hash limits} {p}, s.footprint p → p≠committingPath := by
    rintro s p (rfl | rfl | hp) he
    · simpa [stagePath,indexedPath,committingPath] using congrArg List.length he
    · simpa [removedPath,indexedPath,committingPath] using congrArg List.length he
    · exact s.outside_target hp (by
        rw [he]
        exact statePath_prefix_transaction.trans (List.prefix_append _ _))
  refine ⟨h.keeps.trans (hc.keeps.mono fun p hp => hp ▸ .committing),fun s hs => ?_⟩
  exact (h.rollbackable s hs).keeps hc.keeps (hnot (s := s) (.inl rfl))
    (hnot (s := s) (.inr (.inl rfl))) fun p hp => hnot (s := s) (.inr (.inr hp))

/-- Renaming the marker commits. -/
theorem committed_renames {t₁ t₂ : Tree} {i : ℕ} (h : AppliedBelow j j.slots.length t)
    (hc : t.Creates committingPath committedMarker t₁) (hi : t₁.node committingPath=some (.file i))
    (hr : Renames t₁ committingPath committedPath i t₂) : j.Committed t₂ where
  intact := by
    have hk₁ := (inProgress_creates h.progress hc).intact
    refine hk₁.trans ⟨fun q hq => ?_,fun _ _ => by rw [hr.data],hr.next.ge⟩
    rw [not_or] at hq
    have hqc : q≠committingPath := fun he => hq.1 (he ▸ .committing)
    rw [hr.node,Function.update_of_ne hq.2,Function.update_of_ne hqc]
  marker := by
    refine ⟨i,by rw [hr.node,Function.update_self],?_⟩
    cases hi.symm.trans (node_creates hc)
    rw [hr.data,data_creates hc]
  applied s hs := by
    intro p hp
    have hout := s.outside_target hp
    have hp₁ : p≠committingPath := fun he => hout (by
      rw [he]; exact statePath_prefix_transaction.trans (List.prefix_append _ _))
    have hp₂ : p≠committedPath := fun he => hout (by
      rw [he]; exact statePath_prefix_transaction.trans (List.prefix_append _ _))
    have hsame : t₂.entry p=t₁.entry p := by
      unfold FileTree.entry
      rw [hr.node,Function.update_of_ne hp₂,Function.update_of_ne hp₁,hr.data]
    rw [hsame,hc.keeps.entry hp₁]
    exact h.applied s hs (j.index_lt hs) p hp

theorem phased_commitJournal {rows : List FileActionOutcome} (h : AppliedBelow j j.slots.length t)
    (hrows : SettledBelow rows j.slots.length) (hv : Shows v j.base)
    (hv' : ∀ p, Outside p → j.result p=applyFileActions actions v p) :
    Transacts hash limits actions v (commit hash ⟨true⟩ (j.slots.map Slot.action) rows) t := by
  refine phased_bind (phased_attempt (phased_bind (phased_pending ?_)))
  refine safe_writeNewSync (.journal j h.progress hv)
    (fun b t' hc => .journal j (inProgress_creates h.progress hc) hv) (fun t₁ _ hc => ?_) ?_
  · have hi := node_creates hc
    have hin := inProgress_creates h.progress hc
    have hfree : t₁.Free committedPath :=
      ⟨by decide,by simpa [committedPath] using hin.intact.transaction,
        Pending.unmarked (.journal j hin hv)⟩
    obtain ⟨t₂,hren,hn,hd,hx⟩ := FileTree.rename_file_ok hi hfree
    have hcom := committed_renames h hc hi ⟨hn,hd,hx⟩
    refine phased_commit hren ?_ (.journal j hcom hv') (phased_after ?_)
    · obtain ⟨k,hk,-⟩ := hcom.marker
      simp [hk]
    · refine safe_bind.2 (safe_attempt.2 (safe_syncDirectory_directory hcom.intact.transaction
        (.journal j hcom hv') ?_))
      have hdrop : ∀ t', t₂.Clears transactionPath t' → Clean t' ∧ Shows (applyFileActions actions v) t' := by
        intro t' hcl
        obtain ⟨hclean,hsame⟩ := hcom.intact.clears hcl
        exact ⟨hclean.toClean,fun p hp =>
          (hsame p hp).trans ((hcom.shows_result p hp).trans (hv' p hp))⟩
      refine safe_bind.2 (safe_attempt.2 (safe_removeDirectoryIfPresent (by decide)
        hcom.intact.transaction (fun _ => ⟨j,hcom,hv'⟩)
        (fun t' hcl => .clean (hdrop t' hcl).1 (hdrop t' hcl).2) fun t' hcl => ?_))
      obtain ⟨hclean,hshows⟩ := hdrop t' hcl
      refine safe_bind.2 (safe_attempt.2 (safe_syncDirectory_directory hclean.state
        (.clean hclean hshows) ?_))
      exact safe_pure.2 ⟨fun h => (by cases h),fun _ => ⟨hclean,hshows⟩,by simp⟩
  · intro _ e
    exact phased_pending (safe_abandon h.progress hv (h.knownBelow hrows))

/-! ## Publishing -/

theorem inProgress_base (j : Journal hash limits) : j.InProgress j.base :=
  ⟨.refl _,fun s hs => rollbackable_of_prepared (j.prepared s hs) fun _ _ => rfl⟩

theorem appliedBelow_base (j : Journal hash limits) : AppliedBelow j 0 j.base :=
  ⟨inProgress_base j,fun _ _ h => absurd h (Nat.not_lt_zero _),
    fun _ _ _ => ⟨rfl,rfl,fun _ _ => rfl⟩⟩

/-- The published journal is applied and committed, or taken back. -/
theorem phased_applyJournal {rows : List FileActionOutcome} (hv : Shows v j.base)
    (hv' : ∀ p, Outside p → j.result p=applyFileActions actions v p) :
    Transacts hash limits actions v (applyJournal hash ⟨true⟩ limits (j.slots.map Slot.action) rows)
      j.base := by
  refine phased_bind (phased_pending (safe_applyAll (fun t' h => Pending.journal j h hv)
    (fun rows' t' h hrows => ?_) (fun rows' failure t' h hk => ?_) j.slots (fun _ hs => hs) j.indexes
    (Nat.zero_add _) (fun m hm => absurd hm (Nat.not_lt_zero m)) (appliedBelow_base j)))
  · refine phased_bind (phased_attempt (phased_pending ?_))
    refine safe_bind.2 (safe_askControl.2 ⟨.journal j h.progress hv,fun c => ?_⟩)
    cases c with
    | «continue» => exact safe_pure.2 (phased_commitJournal h hrows hv hv')
    | cancelled | timedOut =>
      exact safe_fail.2 (phased_pending
        (safe_abandon h.progress hv (h.knownBelow hrows)))
  · exact phased_pending (safe_abandon h hv hk)

theorem phased_publish {slots : List (Slot hash limits)}
    {rows : List FileActionOutcome} (hvalid : ValidActions ⟨false⟩ actions)
    (hall : PreparesAll 0 actions ⟨0,0⟩ v slots t) (hdir : Workdir t) (hv : Shows v t)
    (hmanifest : t.node (preparingPath++[manifestFile])=none) :
    Transacts hash limits actions v (publish hash ⟨true⟩ limits (slots.map Slot.action) rows) t := by
  obtain ⟨bytes,henc,hlen,hdec⟩ := decodeManifest_encodeManifest hash (manifestReady hvalid hall)
  refine phased_bind (phased_pending (safe_ofExcept.2 ?_))
  rw [henc]
  have hready : ∀ t', Workdir t' → Shows v t' → Pending hash limits v t' := fun t' hd hs =>
    .ready hd.ready hs
  refine phased_bind (phased_pending (safe_writeNewSync (hready t hdir hv)
    (fun b t' hc => hready t' (workdir_manifest hdir hv hc).1 (workdir_manifest hdir hv hc).2)
    (fun t₁ _ hc => ?_)
    fun hnot => absurd ⟨by simp,by simpa using hdir.preparing,hmanifest⟩ hnot))
  obtain ⟨hdir₁,hv₁⟩ := workdir_manifest hdir hv hc
  have hpub := publishable_manifest hall hdir hmanifest hc hlen hdec
  refine phased_bind (phased_pending (safe_syncDirectory_directory hdir₁.preparing
    (hready t₁ hdir₁ hv₁) ?_))
  have hfree : t₁.Free transactionPath :=
    ⟨by decide,hdir₁.initialized.state,hdir₁.unpublished⟩
  obtain ⟨b,hren,hm⟩ := FileTree.rename_directory_ok hdir₁.preparing (by decide) hfree
  -- the rename publishes: from here on the tree holds a journal
  let j : Journal hash limits := publishedJournal hpub hm hall.indexes
    (hall.records.length_eq ▸ hvalid.length_le) (by rw [paths_of_preparesAll hall]; exact hvalid.nodup)
  have hvb : Shows v j.base := shows_moved hv₁ hm
  have hbase : Pending hash limits v b := .journal j (inProgress_base j) hvb
  refine phased_bind (phased_pending (safe_rename.2 ?_))
  rw [change_ok hren]
  refine ⟨hbase,phased_bind (phased_pending (safe_syncDirectory_directory
    j.initialized.state hbase ?_))⟩
  refine phased_applyJournal (j := j) hvb fun p hp => ?_
  rw [foldl_realizes hall.records hvalid.nodup fun _ _ _ _ => rfl]
  exact foldl_apply_congr (hvb p hp)

/-! ## The whole transaction -/

/-- What was prepared is dropped and the transaction reports why. -/
theorem safe_discard (h : Workdir t) (hv : Shows v t) (hr : ∀ e, r=.error e → Excused actions e) :
    Safe (pendingWatch hash limits v) (fun r t' => Ended actions v r t' false)
      (do removeDirectoryIfPresent preparingPath; .ofExcept r) t := by
  have hclr : ∀ t', t.Clears preparingPath t' → Clean t' ∧ Shows v t' := by
    intro t' hc
    refine ⟨⟨h.initialized.keeps hc.keeps (by simp) (by simp) (by simp),?_,?_⟩,
      hv.keeps hc.keeps fun p hp => preparing_not_outside hp⟩
    · rw [hc.keeps.node _ (by simp),h.unpublished]
    · rw [hc.node,if_pos (List.prefix_refl _)]
  refine safe_bind.2 (safe_removeDirectoryIfPresent (by decide) h.preparing
    (fun he => absurd he (by decide))
    (fun t' hc => .ready (hclr t' hc).1.ready (hclr t' hc).2) fun t' hc => ?_)
  exact safe_ofExcept.2 (ended_before (hclr t' hc).1.ready (hclr t' hc).2 hr)

theorem workdir_staged (h : Workdir t) (hst : Staged 0 t t') : Workdir t' :=
  h.keeps hst.keeps hst.leaves fun _ ⟨m,_,_,he⟩ => .inr ⟨m,he⟩

theorem shows_staged (hv : Shows v t) (hst : Staged 0 t t') : Shows v t' :=
  hv.keeps hst.keeps fun _ ⟨m,_,_,he⟩ hp => outside_not_entry hp m he

theorem phased_prepareAndPublish (hvalid : ValidActions ⟨false⟩ actions) (h : Idle t)
    (hv : Shows v t) :
    Transacts hash limits actions v (prepareAndPublish hash ⟨true⟩ actions limits) t := by
  have hready : ∀ t', Ready t' → Shows v t' → Pending hash limits v t' := fun t' hr hs => .ready hr hs
  refine phased_bind (phased_pending
    (safe_createPreparing h.toClean h.locked (fun t' hr hk => hready t' hr (hv.keeps hk fun p hp =>
      preparing_not_outside hp)) fun t₂ hdir hspare hman hk₂ => ?_))
  have hv₂ := hv.keeps hk₂ fun p hp => preparing_not_outside hp
  refine phased_bind (phased_attempt (phased_pending (safe_prepareAll hvalid.admitted
    hvalid.shape (fun action ha => (List.nodup_flatMap.1 hvalid.nodup).1 action ha)
    (by simpa using hvalid.length_le) hspare hdir.leaves hv₂
    (fun t' hst => hready t' (workdir_staged hdir hst).ready (shows_staged hv₂ hst))
    (fun slots t₃ hst hall => ?_) fun k e t₃ he hst => ?_)))
  · refine phased_publish hvalid hall (workdir_staged hdir hst) (shows_staged hv₂ hst) ?_
    rw [hst.keeps.node,hman]
    rintro ⟨m,-,-,hentry⟩
    exact absurd (length_of_entries hentry) (by decide)
  · have hdir₃ := workdir_staged hdir hst
    have hv₃ := shows_staged hv₂ hst
    refine phased_pending ?_
    cases e with
    | conflict | stopped => exact safe_discard (r := .ok _) hdir₃ hv₃ (by simp)
    | platform error =>
      refine safe_discard (r := .error error) hdir₃ hv₃ fun e' he' => ?_
      cases he'
      exact he.imp id fun h => ⟨StepFailure.platform.inj h.1,h.2⟩

theorem phased_transactionLocked (hvalid : ValidActions ⟨false⟩ actions)
    (h : Ready t) (hlock : ∃ i, t.node lockPath=some (.file i)) (hv : Shows v t) :
    Transacts hash limits actions v (transactionLocked hash ⟨true⟩ actions limits) t := by
  refine phased_bind (phased_pending (safe_recoverLocked_ready h (.ready h hv)
    (fun he => absurd he (by decide))
      fun found t₁ hclean hk₁ => ?_))
  have hv₁ := hv.keeps hk₁ fun p hp => preparing_not_outside hp
  refine ⟨.ready hclean.ready hv₁,phased_prepareAndPublish hvalid ⟨hclean,?_⟩ hv₁⟩
  rw [hk₁.node _ (by simp)]
  exact hlock

/-- The transaction once the state directory is known to be there. -/
def onceMade (hash : Bytes → Digest) (actions : List FileAction) (limits : FileTransactionLimits)
    (workspace : Workspace) : Act PlatformError FileTransactionOutcome := do
  checkLockFile
  match ← holdLockFile workspace with
  | .stopped failure =>
      pure ⟨List.replicate actions.length FileActionOutcome.skipped,some failure⟩
  | .acquired workspace => transactionLocked hash workspace actions limits

theorem phased_onceMade (hvalid : ValidActions ⟨false⟩ actions) (h : Ready t) (hv : Shows v t) :
    Transacts hash limits actions v (onceMade hash actions limits ⟨true⟩) t := by
  have hlocked : ∀ t', t.Keeps (· = lockPath) t' → Initialized t' → Ready t' ∧ Shows v t' :=
    fun t' hk hi => ⟨ready_keeps_lock h hk hi,hv.keeps hk fun p hp => lock_not_outside hp⟩
  have hhere : pendingWatch hash limits v t := .ready h hv
  refine phased_bind (phased_pending (safe_checkLockFile h.toInitialized hhere ?_))
  refine phased_bind (phased_pending (safe_holdLockFile h.toInitialized hhere
    (fun t' hk hi => .ready (hlocked t' hk hi).1 (hlocked t' hk hi).2) fun t' i hk hi hlock => ?_))
  exact phased_transactionLocked hvalid (hlocked t' hk hi).1 ⟨i,hlock⟩ (hlocked t' hk hi).2

/-- Accepted actions wait for the lock, see to the state directory and go on. -/
theorem fileTransaction_eq (hvalid : validateActions workspace actions=.ok ()) :
    fileTransaction hash workspace actions limits=(do
      let waited ← awaitLock .mutation
      match controlFailure waited with
      | some failure =>
          pure ⟨List.replicate actions.length FileActionOutcome.skipped,some failure⟩
      | none => do
          let workspace ← ensureInternalState
          onceMade hash actions limits workspace) := by
  have hok : fileTransaction hash workspace actions limits=acquireTransactionLocks >>= fun r =>
      match r with
      | .stopped failure =>
          pure ⟨List.replicate actions.length FileActionOutcome.skipped,some failure⟩
      | .acquired workspace => transactionLocked hash workspace actions limits := by
    unfold fileTransaction
    rw [hvalid]
    rfl
  rw [hok,acquireTransactionLocks,bind_assoc]
  refine bind_congr fun waited => ?_
  cases controlFailure waited with
  | some failure => rfl
  | none => simp only [bind_assoc,onceMade]

/-- From a ready tree, a transaction is pending up to its commit and settled after it. -/
theorem phased_fileTransaction (hvalid : validateActions workspace actions=.ok ()) (h : Ready t)
    (hv : Shows v t) :
    Transacts hash limits actions v (fileTransaction hash workspace actions limits) t := by
  have hhere : pendingWatch hash limits v t := .ready h hv
  rw [fileTransaction_eq hvalid]
  refine phased_bind (phased_pending (safe_awaitLock.2 ⟨hhere,?_⟩))
  refine phased_bind (phased_pending (safe_ensureInternalState h.toInitialized hhere ?_))
  exact phased_onceMade (validActions_of_ok hvalid).weaken h hv

end Ash.TransactionRuns
