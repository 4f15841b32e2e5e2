import Ash.TransactionRuns

/-! # Crash atomicity of file transactions

A transaction is cut after any of its steps, recovery is started any number of times
and cut again, and a last recovery completes.  Readers then see the workspace as it was
before the transaction, or with every action made if the commit marker had appeared. -/

namespace Ash.CrashAtomicity
open DurablePrograms WorkspaceOperations WorkspaceRules TransactionActions TransactionSteps
open JournalStates FileTransactions InternalState TransactionPreparation TransactionPhases
open RecoveryRuns TransactionRuns

/-- The trees that recovery runs leave, each cut after some number of steps. -/
inductive Recoveries (hash : Bytes → Digest) (t : Tree) : Tree → Prop where
  | none : Recoveries hash t t
  | crash {t' : Tree} (h : Recoveries hash t t') (polls : ℕ → TransactionControl) (n : ℕ) :
      Recoveries hash t (machine.stateAt (reopenAndRecover hash) ⟨t',polls⟩ n).tree

variable {hash : Bytes → Digest} {limits : FileTransactionLimits} {v : View} {t t' : Tree}

theorem Recoveries.pending (h : Recoveries hash t t') (ht : Pending hash limits v t) :
    Pending hash limits v t' := by
  induction h with
  | none => exact ht
  | crash h polls n ih =>
    exact (safe_reopenAndRecover_pending ih polls).stateAt
      (I := fun w : World => Pending hash limits v w.tree) (fun _ _ _ hw => hw.1) ih n

theorem Recoveries.settled (h : Recoveries hash t t') (ht : Settled hash limits v t) :
    Settled hash limits v t' := by
  induction h with
  | none => exact ht
  | crash h polls n ih =>
    exact (safe_reopenAndRecover_settled ih polls).stateAt
      (I := fun w : World => Settled hash limits v w.tree) (fun _ _ _ hw => hw.1) ih n

/-- The commit marker appeared during the first `n` steps. -/
def MarkerAppeared {ε α : Type} (prog : Act ε α) (w : World) (n : ℕ) : Prop :=
  ∃ m ≤ n, (machine.stateAt prog w m).tree.node committedPath≠none

/-- Where a crash leaves a run of both phases depends on whether it had committed. -/
theorem crash_phased {α : Type} {v v' : View} {Q : Except PlatformError α → Tree → Bool → Prop}
    {prog : Act PlatformError α}
    (h : Phased (pendingWatch hash limits v) (settledWatch hash limits v') Q prog t false)
    (hstart : Pending hash limits v t) (polls : ℕ → TransactionControl) (n : ℕ) :
    (¬ MarkerAppeared prog ⟨t,polls⟩ n →
      Pending hash limits v (machine.stateAt prog ⟨t,polls⟩ n).tree) ∧
    (MarkerAppeared prog ⟨t,polls⟩ n →
      Settled hash limits v' (machine.stateAt prog ⟨t,polls⟩ n).tree) := by
  have hinv := (h polls).stateAt (I := fun x : World × Bool => if x.2=true then
      Settled hash limits v' x.1.tree else Pending hash limits v x.1.tree)
    (by
      rintro x op ⟨w,seen⟩ hw
      cases seen with
      | false => exact hw.1
      | true => exact hw.1) hstart n
  have hseen := Machine.seen_monitored (M := machine) (P := markerPresent) (b := false) prog
    ⟨t,polls⟩ n (by simp [markerPresent,hstart.unmarked])
  have happeared : MarkerAppeared prog ⟨t,polls⟩ n ↔
      ((machine.monitored markerPresent).stateAt prog (⟨t,polls⟩,false) n).2=true := by
    rw [hseen]
    simp [MarkerAppeared,markerPresent,Option.isSome_iff_ne_none]
  rw [happeared]
  rw [Machine.stateAt_monitored] at hinv
  constructor
  · intro hnot
    rwa [if_neg hnot] at hinv
  · intro hyes
    rwa [if_pos hyes] at hinv

/-- After a crash of a transaction, after any number of recovery runs cut anywhere, a
recovery that completes succeeds, leaves no journal, and shows readers either the files
from before the transaction or all of its actions, as the commit marker decided. -/
theorem file_transaction_crash_atomic (hash : Bytes → Digest) (limits : FileTransactionLimits)
    (initial : Tree) (hinitial : Ready initial) (actions : List FileAction)
    (hvalid : validateActions ⟨true⟩ actions=.ok ()) (polls : ℕ → TransactionControl) (n : ℕ)
    (t : Tree) (hrecoveries : Recoveries hash
      (machine.stateAt (fileTransaction hash ⟨true⟩ actions limits) ⟨initial,polls⟩ n).tree t)
    (polls' : ℕ → TransactionControl) :
    let final := machine.run (reopenAndRecover hash) ⟨t,polls'⟩
    let appeared := MarkerAppeared (fileTransaction hash ⟨true⟩ actions limits) ⟨initial,polls⟩ n
    (∃ found, final.1=.ok found) ∧
    final.2.tree.node transactionPath=none ∧ final.2.tree.node preparingPath=none ∧
    (¬ appeared → ∀ p, Outside p → final.2.tree.entry p=initial.entry p) ∧
    (appeared → ∀ p, Outside p →
      final.2.tree.entry p=applyFileActions actions initial.entry p) := by
  intro final appeared
  have hshows : Shows initial.entry initial := fun _ _ => rfl
  have hphased : Phased (pendingWatch hash limits initial.entry)
      (settledWatch hash limits (applyFileActions actions initial.entry)) _
      (fileTransaction hash ⟨true⟩ actions limits) initial false :=
    phased_fileTransaction hvalid hinitial hshows
  obtain ⟨hbefore,hafter⟩ := crash_phased hphased (.ready hinitial hshows) polls n
  by_cases happ : appeared
  · have hset := hrecoveries.settled (hafter happ)
    obtain ⟨hok,hclean,hshows⟩ := (safe_reopenAndRecover_settled hset polls').run
    exact ⟨hok,hclean.unpublished,hclean.unprepared,fun hn => absurd happ hn,fun _ => hshows⟩
  · have hpend := hrecoveries.pending (hbefore happ)
    obtain ⟨hok,hclean,hshows⟩ := (safe_reopenAndRecover_pending hpend polls').run
    exact ⟨hok,hclean.unpublished,hclean.unprepared,fun _ => hshows,fun h => absurd h happ⟩

/-- A hash that tells no contents apart; nothing above depends on it telling them. -/
def constantHash : Bytes → Digest := fun _ => ⟨List.replicate 32 0,by simp⟩

def smallLimits : FileTransactionLimits := ⟨16,64,by decide,by decide,by decide⟩

/-- A transaction that creates one file. -/
def createOne : Act PlatformError FileTransactionOutcome :=
  fileTransaction constantHash ⟨true⟩ [FileAction.create "a".toList [1,2]] smallLimits

def alwaysContinue : ℕ → TransactionControl := fun _ => .continue

/-- One file created in a workspace that has only its state directory, the transaction
cut after ten steps and the first recovery after five. -/
theorem file_transaction_crash_atomic_create :
    ∃ found, (machine.run (reopenAndRecover constantHash)
      ⟨(machine.stateAt (reopenAndRecover constantHash)
        ⟨(machine.stateAt createOne ⟨initializedTree,alwaysContinue⟩ 10).tree,alwaysContinue⟩
        5).tree,alwaysContinue⟩).1=.ok found :=
  (file_transaction_crash_atomic constantHash smallLimits initializedTree ready_initializedTree
    [FileAction.create "a".toList [1,2]] (by decide) alwaysContinue 10 _
    (.crash .none alwaysContinue 5) alwaysContinue).1

end Ash.CrashAtomicity
