import Ash.CrashAtomicity

/-! # Crashes while the state directory is made

The first transaction of a workspace makes `.ash` and its format marker in separate
steps, before any lock or journal exists.  A crash between them leaves a directory
that no later transaction accepts. -/

namespace Ash.InternalStateCrash
open DurablePrograms FileTrees WorkspaceOperations WorkspacePaths WorkspaceRules CheckedPaths
open TransactionActions TransactionSteps TransactionReads TransactionWrites JournalStates
open JournalLoops FileTransactions InternalState TransactionPreparation TransactionPhases
open RecoveryRuns TransactionRuns CrashAtomicity

variable {hash : Bytes → Digest} {limits : FileTransactionLimits} {I : Watch} {v : View}
variable {t t₁ t₂ t₃ : Tree} {workspace : Workspace} {actions : List FileAction}

/-- Something stands at `.ash` that is not a state directory with its marker. -/
structure Spoiled (t : Tree) : Prop where
  taken : t.node statePath≠none
  unmarked : t.node statePath=some .directory → ¬ Holds t formatPath formatMarker

/-- The trees that making the state directory passes through. -/
structure Making (t t₁ t₂ t₃ : Tree) : Prop where
  absent : t.node statePath=none
  directory : t.createDir statePath=.ok t₁
  format : t₁.createNew formatPath=.ok (t₁.next,t₂)
  written : t₃=t₂.write t₁.next formatMarker

theorem node_of_createDir (h : t.createDir p=.ok t₁) : t₁.node p=some .directory := by
  obtain ⟨-,hr⟩ := FileTree.free_of_createDir h
  rw [hr.node,Function.update_self]

theorem exists_making (h : t.node statePath=none) : ∃ t₁ t₂ t₃, Making t t₁ t₂ t₃ := by
  obtain ⟨t₁,h₁,hr⟩ := FileTree.createDir_ok (t := t) (p := statePath)
    ⟨by decide,t.root_directory,h⟩
  have hformat : t₁.node formatPath=none := by
    rw [hr.keeps.node _ (by decide)]
    exact t.no_child_of_not_directory (p := statePath) (by simp [h]) (r := ["FORMAT".toList]) (by simp)
  obtain ⟨t₂,h₂,-⟩ := FileTree.createNew_ok (t := t₁) (p := formatPath)
    ⟨by decide,node_of_createDir h₁,hformat⟩
  exact ⟨t₁,t₂,_,h,h₁,h₂,rfl⟩

/-- One step of a program, other than a poll. -/
theorem stateAt_call {ε α : Type} {op : Operation} {next : Answer op → Act ε α} {r : Answer op}
    {t' : Tree} (h : act op t=(r,t')) (hop : op≠.poll) (polls : ℕ → TransactionControl) (n : ℕ) :
    machine.stateAt (.call op next) ⟨t,polls⟩ (n+1)=machine.stateAt (next r) ⟨t',polls⟩ n := by
  have hexec : machine.exec op ⟨t,polls⟩=(r,⟨t',polls⟩) := by
    cases op <;> first | exact absurd rfl hop | (show ((act _ t).1,_)=_; rw [h])
  rw [Machine.stateAt,hexec]

/-- Where a crash falls while the state directory is made, and what comes after. -/
theorem stateAt_making {α : Type} (h : Making t t₁ t₂ t₃) (k : Workspace → Act PlatformError α)
    (polls : ℕ → TransactionControl) (n : ℕ) :
    machine.stateAt (ensureInternalState >>= k) ⟨t,polls⟩ n =
      if n ≤ 1 then ⟨t,polls⟩ else if n ≤ 3 then ⟨t₁,polls⟩ else if n=4 then ⟨t₂,polls⟩
      else machine.stateAt (k ⟨true⟩) ⟨t₃,polls⟩ (n - 7) := by
  have hstat : act (.symlinkMetadata statePath) t=(.error .notFound,t) := by
    rw [act,stat_absent h.absent t.root_directory]
  have hdir : act (.createDir statePath) t=(.ok (),t₁) := change_ok h.directory
  have hperm : act (.setPermissions statePath) t₁=(.ok (),t₁) := by
    simp [act,stat_directory (node_of_createDir h.directory),Except.map]
  have hnew : act (.createNew formatPath) t₁=(.ok t₁.next,t₂) := by simp [act,h.format]
  have hroot : act (.syncDirectory nativeRoot) t₃=(.ok (),t₃) := by
    simp [act,resolve_directory t₃.root_directory,nativeRoot,Except.map]
  have hwrite : act (.write t₁.next formatMarker) t₂=(.ok (),t₃) := by rw [h.written]; rfl
  have hsync : act (.sync t₁.next) t₃=(.ok (),t₃) := rfl
  -- the crash falls here, or one more step is taken
  rcases n with _ | n
  · rfl
  refine (stateAt_call hstat (by decide) polls n).trans ?_
  rcases n with _ | n
  · exact Machine.stateAt_zero _ _
  refine (stateAt_call hdir (by decide) polls n).trans ?_
  rcases n with _ | n
  · exact Machine.stateAt_zero _ _
  refine (stateAt_call hperm (by decide) polls n).trans ?_
  rcases n with _ | n
  · exact Machine.stateAt_zero _ _
  refine (stateAt_call hnew (by decide) polls n).trans ?_
  rcases n with _ | n
  · exact Machine.stateAt_zero _ _
  refine (stateAt_call hwrite (by rintro ⟨⟩) polls n).trans ?_
  rcases n with _ | n
  · simp
  refine (stateAt_call hsync (by rintro ⟨⟩) polls n).trans ?_
  rcases n with _ | n
  · simp
  refine (stateAt_call hroot (by decide) polls n).trans ?_
  have hrest : n+1+1+1+1+1+1+1 - 7=n := by omega
  rw [if_neg (by omega),if_neg (by omega),if_neg (by omega),hrest]
  rfl

/-! ## What the trees between them are -/

theorem Making.spoiled (h : Making t t₁ t₂ t₃) : Spoiled t₁ ∧ Spoiled t₂ := by
  obtain ⟨hfree,-,hc⟩ := FileTree.free_of_createNew h.format
  have hstate := node_of_createDir h.directory
  constructor
  · refine ⟨by simp [hstate],fun _ => ?_⟩
    rintro ⟨i,hi,-⟩
    cases hfree.node.symm.trans hi
  · refine ⟨by rw [hc.keeps.node _ (by decide),hstate]; simp,fun _ => ?_⟩
    rintro ⟨i,hi,hd⟩
    cases (node_creates hc).symm.trans hi
    rw [data_creates hc] at hd
    exact absurd hd (by decide)

theorem Making.ready (h : Making t t₁ t₂ t₃) : Ready t₃ ∧ Shows t.entry t₃ := by
  obtain ⟨-,hr⟩ := FileTree.free_of_createDir h.directory
  obtain ⟨hfree,-,hc⟩ := FileTree.free_of_createNew h.format
  have hc' : t₁.Creates formatPath formatMarker t₃ := by
    rw [h.written]
    simpa using creates_write formatMarker hc
  -- nothing else was below a name that did not exist
  have hnone : ∀ c, statePath++[c]≠formatPath → t₃.node (statePath++[c])=none := by
    intro c hne
    rw [hc'.keeps.node _ hne,hr.keeps.node _ (by simp)]
    exact t.no_child_of_not_directory (by simp [h.absent]) (by simp)
  refine ⟨⟨⟨?_,⟨_,node_creates hc',data_creates hc'⟩,.inl (hnone _ (by decide))⟩,
    hnone _ (by decide),.inl (hnone _ (by decide))⟩,fun p hp => ?_⟩
  · rw [hc'.keeps.node _ (by decide),node_of_createDir h.directory]
  · rw [hc'.keeps.entry fun he => hp (by rw [he]; exact statePath_prefix_format),
      hr.keeps.entry fun he => hp (by rw [he])]

/-! ## What later programs make of them -/

section Spoiled

variable {Q : Except PlatformError Workspace → Tree → Prop}

/-- Reading a marker that is not the program's own. -/
private theorem safe_readRegularBounded_format {Q : Except PlatformError Bytes → Tree → Prop}
    (hstate : t.node statePath=some .directory) (hI : I t)
    (hok : ∀ bytes, Holds t formatPath bytes → Q (.ok bytes) t)
    (habsent : Q (.error (.io .notFound)) t) (hcorrupt : Q (.error .journalCorrupt) t) :
    Safe I Q (readRegularBounded formatPath formatMarker.length) t := by
  cases hn : t.node formatPath with
  | none =>
    refine safe_bind.2 (safe_symlinkMetadata.2 ⟨hI,?_⟩)
    rw [stat_absent hn hstate]
    exact habsent
  | some n =>
    cases n with
    | file i =>
      by_cases hlen : (t.data i).length ≤ formatMarker.length
      · exact safe_readRegularBounded hn hlen hI (hok _ ⟨i,hn,rfl⟩)
      · refine safe_bind.2 (safe_symlinkMetadata.2 ⟨hI,?_⟩)
        rw [stat_file hn]
        refine safe_ite.2 ?_
        rw [if_pos (by simpa [Metadata.isFile,Metadata.isSymlink] using hlen)]
        exact safe_fail.2 hcorrupt
    | directory | symlink =>
      refine safe_bind.2 (safe_symlinkMetadata.2 ⟨hI,?_⟩)
      rw [stat,hn]
      exact safe_ite.2 (by rw [if_pos (by simp [Metadata.isFile])]; exact safe_fail.2 hcorrupt)

theorem safe_openWorkspace_spoiled (h : Spoiled t) (hI : I t) (hQ : Q (.ok ⟨false⟩) t) :
    Safe I Q openWorkspace t := by
  refine safe_bind.2 (safe_bind.2 (safe_attempt.2 (safe_symlinkMetadata.2 ⟨hI,?_⟩)))
  cases hn : t.node statePath with
  | none => exact absurd hn h.taken
  | some n =>
    cases n with
    | file i =>
      rw [stat_file hn]
      exact safe_pure.2 (safe_pure.2 hQ)
    | symlink =>
      rw [stat,hn]
      exact safe_pure.2 (safe_pure.2 hQ)
    | directory =>
      rw [stat_directory hn]
      refine safe_bind.2 (safe_attempt.2 (safe_readRegularBounded_format hn hI (fun b hb => ?_)
        (safe_pure.2 (safe_pure.2 hQ)) (safe_pure.2 (safe_pure.2 hQ))))
      have hne : b≠formatMarker := by
        rintro rfl
        exact h.unmarked hn hb
      exact safe_pure.2 (safe_pure.2 (by simpa [hne] using hQ))

theorem safe_ensureInternalState_spoiled (h : Spoiled t) (hI : I t)
    (hQ : Q (.error .reservedPath) t) : Safe I Q ensureInternalState t := by
  refine safe_bind.2 (safe_attempt.2 (safe_symlinkMetadata.2 ⟨hI,?_⟩))
  cases hn : t.node statePath with
  | none => exact absurd hn h.taken
  | some n =>
    cases n with
    | file i =>
      rw [stat_file hn]
      exact safe_fail.2 hQ
    | symlink =>
      rw [stat,hn]
      exact safe_fail.2 hQ
    | directory =>
      rw [stat_directory hn]
      refine safe_bind.2 (safe_attempt.2 (safe_readRegularBounded_format hn hI (fun b hb => ?_)
        (safe_fail.2 hQ) (safe_fail.2 hQ)))
      have hne : b≠formatMarker := by
        rintro rfl
        exact h.unmarked hn hb
      exact safe_ite.2 (by rw [if_pos hne]; exact safe_fail.2 hQ)

theorem safe_openWorkspace_absent (h : t.node statePath=none) (hI : I t)
    (hQ : Q (.ok ⟨false⟩) t) : Safe I Q openWorkspace t := by
  refine safe_bind.2 (safe_bind.2 (safe_attempt.2 (safe_symlinkMetadata.2 ⟨hI,?_⟩)))
  rw [stat_absent h t.root_directory]
  exact safe_pure.2 (safe_pure.2 hQ)

theorem safe_ensureInternalState_absent (h : Making t t₁ t₂ t₃) (hI : ∀ t', I t')
    (hQ : Q (.ok ⟨true⟩) t₃) : Safe I Q ensureInternalState t := by
  refine safe_bind.2 (safe_attempt.2 (safe_symlinkMetadata.2 ⟨hI t,?_⟩))
  rw [stat_absent h.absent t.root_directory]
  refine safe_bind.2 (safe_createDir.2 ?_)
  rw [change_ok h.directory]
  refine ⟨hI t₁,safe_bind.2 (safe_setPermissions.2 ⟨hI t₁,?_⟩)⟩
  rw [stat_directory (node_of_createDir h.directory)]
  refine safe_bind.2 (safe_bind.2 (safe_createNew.2 ?_))
  simp only [act,h.format]
  refine ⟨hI t₂,safe_bind.2 (safe_writeAll.2 ⟨hI _,safe_syncAll.2 ⟨hI _,?_⟩⟩)⟩
  rw [← h.written]
  exact safe_bind.2 (safe_syncDirectory_directory t₃.root_directory (hI t₃) (safe_pure.2 hQ))

end Spoiled

/-- What a new process does after a crash: reopen, recover, and go on mutating. -/
def reopenAndMutate (hash : Bytes → Digest) (next : List FileAction)
    (limits : FileTransactionLimits) : Act PlatformError FileTransactionOutcome := do
  let workspace ← openWorkspace
  let _ ← (recoverFileTransactions hash workspace).attempt
  fileTransaction hash workspace next limits

section Mutate

variable {next : List FileAction} {limits' : FileTransactionLimits}
variable (hnext : validateActions ⟨true⟩ next=.ok ())
include hnext

/-- The ways a transaction with valid actions may fail. -/
private theorem benign_of_ended {r : Except PlatformError FileTransactionOutcome}
    (h : ∃ seen, Ended next v r t seen) : ∀ e, r=.error e → Benign e := by
  obtain ⟨_,-,-,herr⟩ := h
  intro e he
  rcases herr e he with hb | ⟨-,hs⟩
  · exact hb
  · exact absurd hs (validActions_of_ok hnext).not_namesState

private theorem safe_fileTransaction_ready (h : Ready t) :
    Safe .none (fun r _ => ∀ e, r=.error e → Benign e)
      (fileTransaction hash workspace next limits') t :=
  safe_post (safe_of_phased (phased_fileTransaction (v := t.entry)
    (validateActions_weaken workspace hnext) h fun _ _ => rfl)
    Watch.implies_none Watch.implies_none) fun _ _ => benign_of_ended hnext

/-- A journal that recovery settles does not stand in the way. -/
theorem safe_reopenAndMutate_recovered (h : Initialized t)
    (hr : Safe .none (Recovered v) (recoverFileTransactions hash ⟨true⟩) t) :
    Safe .none (fun r _ => ∀ e, r=.error e → Benign e) (reopenAndMutate hash next limits') t := by
  refine safe_bind.2 (safe_openWorkspace h trivial ?_)
  refine safe_bind.2 (safe_attempt.2 (safe_post hr fun r t' hrec => ?_))
  exact safe_fileTransaction_ready hnext hrec.2.1.ready

theorem safe_reopenAndMutate_absent (h : t.node statePath=none) :
    Safe .none (fun r _ => ∀ e, r=.error e → Benign e) (reopenAndMutate hash next limits') t := by
  obtain ⟨t₁,t₂,t₃,hm⟩ := exists_making h
  obtain ⟨hready,hshows⟩ := hm.ready
  refine safe_bind.2 (safe_openWorkspace_absent h trivial ?_)
  refine safe_bind.2 (safe_attempt.2 (safe_pure.2 ?_))
  rw [fileTransaction_eq (validateActions_weaken ⟨false⟩ hnext)]
  refine safe_bind.2 (safe_awaitLock.2 ⟨trivial,?_⟩)
  refine safe_bind.2 (safe_ensureInternalState_absent hm (fun _ => trivial) ?_)
  exact safe_post (safe_of_phased (phased_onceMade (v := t₃.entry)
    (validActions_of_ok hnext).weaken hready fun _ _ => rfl)
    Watch.implies_none Watch.implies_none) fun _ _ => benign_of_ended hnext

theorem safe_reopenAndMutate_spoiled (h : Spoiled t) :
    Safe .none (fun r _ => r=.error .reservedPath) (reopenAndMutate hash next limits') t := by
  refine safe_bind.2 (safe_openWorkspace_spoiled h trivial ?_)
  refine safe_bind.2 (safe_attempt.2 (safe_pure.2 ?_))
  rw [fileTransaction_eq (validateActions_weaken ⟨false⟩ hnext)]
  refine safe_bind.2 (safe_awaitLock.2 ⟨trivial,?_⟩)
  exact safe_bind.2 (safe_ensureInternalState_spoiled h trivial rfl)

end Mutate

/-- On `t`, the next process's transaction is not refused for the state directory. -/
def Admits (hash : Bytes → Digest) (next : List FileAction) (limits : FileTransactionLimits)
    (polls : ℕ → TransactionControl) (t : Tree) : Prop :=
  (machine.run (reopenAndMutate hash next limits) ⟨t,polls⟩).1≠.error .reservedPath ∧
    (machine.run (reopenAndMutate hash next limits) ⟨t,polls⟩).1≠.error .journalCorrupt

section Admits

variable {next : List FileAction} {limits' : FileTransactionLimits}
variable {polls polls' : ℕ → TransactionControl}

theorem admits_of_benign
    (h : Safe .none (fun r _ => ∀ e, r=.error e → Benign e) (reopenAndMutate hash next limits) t) :
    Admits hash next limits polls t :=
  ⟨fun he => ((h polls).run _ he).1 rfl,fun he => ((h polls).run _ he).2 rfl⟩

theorem not_admits_of_spoiled (hnext : validateActions ⟨true⟩ next=.ok ()) (h : Spoiled t) :
    ¬ Admits hash next limits polls t :=
  fun ha => ha.1 (safe_reopenAndMutate_spoiled hnext h polls).run

/-- A crash in a run of both phases leaves what the next process can use. -/
theorem admits_after_crash {α : Type} {v' : View}
    {Q : Except PlatformError α → Tree → Bool → Prop} {prog : Act PlatformError α}
    (h : Phased (pendingWatch hash limits v) (settledWatch hash limits v') Q prog t false)
    (hstart : Pending hash limits v t) (hnext : validateActions ⟨true⟩ next=.ok ()) (n : ℕ) :
    Admits hash next limits' polls' (machine.stateAt prog ⟨t,polls⟩ n).tree := by
  obtain ⟨hbefore,hafter⟩ := crash_phased h hstart polls n
  have hany : ∀ {I : Watch} {v t}, Safe I (Recovered v) (recoverFileTransactions hash ⟨true⟩) t →
      Safe .none (Recovered v) (recoverFileTransactions hash ⟨true⟩) t := fun h =>
    safe_mono h Watch.implies_none fun _ _ h => h
  by_cases happ : MarkerAppeared prog ⟨t,polls⟩ n
  · have hs := hafter happ
    exact admits_of_benign (safe_reopenAndMutate_recovered hnext (initialized_of_settled hs)
      (hany (safe_recover_settled hs)))
  · have hp := hbefore happ
    exact admits_of_benign (safe_reopenAndMutate_recovered hnext (initialized_of_pending hp)
      (hany (safe_recover_pending hp)))

end Admits

/-- A transaction changes nothing where `.ash` is spoiled. -/
private theorem stateAt_spoiled (h : Spoiled t) (hvalid : validateActions workspace actions=.ok ())
    (polls : ℕ → TransactionControl) (n : ℕ) :
    (machine.stateAt (fileTransaction hash workspace actions limits) ⟨t,polls⟩ n).tree=t := by
  have hsafe : Safe ⟨(· = t),fun _ _ => True⟩ (fun _ _ => True)
      (fileTransaction hash workspace actions limits) t := by
    rw [fileTransaction_eq hvalid]
    refine safe_bind.2 (safe_awaitLock.2 ⟨rfl,?_⟩)
    exact safe_bind.2 (safe_ensureInternalState_spoiled h rfl trivial)
  exact (hsafe polls).stateAt (I := fun w => w.tree=t) (fun _ _ _ h => h.1) rfl n

/-- Where a crash falls in the first transaction of a workspace. -/
private theorem stateAt_absent (h : Making t t₁ t₂ t₃)
    (hvalid : validateActions workspace actions=.ok ()) (polls : ℕ → TransactionControl) (n : ℕ) :
    machine.stateAt (fileTransaction hash workspace actions limits) ⟨t,polls⟩ n =
      if n ≤ 2 then ⟨t,polls⟩ else if n ≤ 4 then ⟨t₁,polls⟩ else if n=5 then ⟨t₂,polls⟩
      else machine.stateAt (onceMade hash actions limits ⟨true⟩) ⟨t₃,polls⟩ (n - 8) := by
  rw [fileTransaction_eq hvalid]
  cases n with
  | zero => rfl
  | succ n =>
    have hwait : act (.awaitLock .mutation) t=(.continue,t) := rfl
    refine (stateAt_call hwait (by decide) polls n).trans ?_
    refine (stateAt_making h (onceMade hash actions limits) polls n).trans ?_
    simp only [Nat.reduceLeDiff,Nat.reduceEqDiff,Nat.reduceSubDiff]

/-- A crash of a transaction, then a reopening, a recovery and a transaction with valid
actions: that transaction is refused for the state directory exactly when the crash fell
between the creation of `.ash` and the writing of its marker, or `.ash` was no directory. -/
theorem crash_admits_iff (hash : Bytes → Digest) (limits limits' : FileTransactionLimits)
    (initial : Tree) (hinitial : initial.node statePath≠some .directory ∨ Ready initial)
    (workspace : Workspace) (actions next : List FileAction)
    (hvalid : validateActions workspace actions=.ok ())
    (hnext : validateActions ⟨true⟩ next=.ok ()) (polls polls' : ℕ → TransactionControl) (n : ℕ) :
    Admits hash next limits' polls'
      (machine.stateAt (fileTransaction hash workspace actions limits) ⟨initial,polls⟩ n).tree ↔
      initial.node statePath=some .directory ∨
        initial.node statePath=none ∧ (n ≤ 2 ∨ 6 ≤ n) := by
  rcases hinitial with hnot | hready
  · cases hstate : initial.node statePath with
    | none =>
      obtain ⟨t₁,t₂,t₃,hm⟩ := exists_making hstate
      obtain ⟨hsp₁,hsp₂⟩ := hm.spoiled
      rw [stateAt_absent hm hvalid]
      split
      · next h₂ =>
        exact iff_of_true (admits_of_benign (safe_reopenAndMutate_absent hnext hstate))
          (.inr ⟨rfl,.inl h₂⟩)
      · split
        · exact iff_of_false (not_admits_of_spoiled hnext hsp₁) (by simp; omega)
        · split
          · exact iff_of_false (not_admits_of_spoiled hnext hsp₂) (by simp; omega)
          · refine iff_of_true ?_ (.inr ⟨rfl,.inr (by omega)⟩)
            have hshows : Shows t₃.entry t₃ := fun _ _ => rfl
            exact admits_after_crash (phased_onceMade (validActions_of_ok hvalid).weaken hm.ready.1
              hshows) (.ready hm.ready.1 hshows) hnext _
    | some node =>
      have hsp : Spoiled initial := ⟨by simp [hstate],fun h => absurd h hnot⟩
      rw [stateAt_spoiled hsp hvalid]
      exact iff_of_false (not_admits_of_spoiled hnext hsp) (by simpa [hstate] using hnot)
  · have hshows : Shows initial.entry initial := fun _ _ => rfl
    exact iff_of_true (admits_after_crash (phased_fileTransaction hvalid hready hshows)
      (.ready hready hshows) hnext n) (.inl hready.state)

/-- A workspace with nothing in it. -/
def emptyTree : Tree where
  node p := if p=[] then some .directory else none
  data _ := []
  next := 0
  root_directory := by simp
  parent_directory p c h := by simp at h
  inode_lt p i h := by
    split at h <;> cases h

/-- The first transaction of an empty workspace, cut before and after `.ash` gets its marker. -/
theorem crash_admits_iff_empty :
    Admits constantHash [FileAction.create "a".toList [1,2]] smallLimits alwaysContinue
      (machine.stateAt (fileTransaction constantHash ⟨false⟩ [FileAction.create "a".toList [1,2]]
        smallLimits) ⟨emptyTree,alwaysContinue⟩ 6).tree :=
  (crash_admits_iff constantHash smallLimits smallLimits emptyTree (.inl (by decide)) ⟨false⟩ _ _
    (by decide) (by decide) alwaysContinue alwaysContinue 6).2 (.inr ⟨by decide,.inr le_rfl⟩)

/-- The same transaction, cut right after `.ash` is created: no later transaction is
accepted. -/
theorem crash_after_state_directory_refused :
    (machine.run (reopenAndMutate constantHash [FileAction.create "a".toList [1,2]] smallLimits)
      ⟨(machine.stateAt (fileTransaction constantHash ⟨false⟩ [FileAction.create "a".toList [1,2]]
        smallLimits) ⟨emptyTree,alwaysContinue⟩ 3).tree,alwaysContinue⟩).1 =
    .error .reservedPath := by
  rfl

end Ash.InternalStateCrash
