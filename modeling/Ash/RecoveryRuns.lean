import Ash.TransactionPhases

/-! # Reopening and recovering

A recovery run stays on the side of the commit it starts on, and when it completes no
journal is left. -/

namespace Ash.RecoveryRuns
open WorkspaceOperations WorkspaceRules TransactionActions TransactionSteps JournalStates
open FileTransactions InternalState Journals TransactionPhases

variable {hash : Bytes → Digest} {limits : FileTransactionLimits} {v : View} {I : Watch}
variable {t : Tree} {Q : Except PlatformError Bool → Tree → Prop}

/-- What a completed recovery leaves. -/
def Recovered (v : View) (r : Except PlatformError Bool) (t : Tree) : Prop :=
  (∃ found, r=.ok found) ∧ Clean t ∧ Shows v t

variable {p : Path} {t' : Tree}

theorem lock_not_outside (h : p=lockPath) : ¬ Outside p := by
  subst h
  exact not_outside_of_prefix statePath_prefix_lock (List.prefix_refl _)

theorem preparing_not_outside (h : preparingPath <+: p) : ¬ Outside p :=
  not_outside_of_prefix statePath_prefix_preparing h

theorem ready_keeps_lock (h : Ready t) (hk : t.Keeps (· = lockPath) t') (hi : Initialized t') :
    Ready t' :=
  ⟨hi,by rw [hk.node _ transaction_ne_lock,h.unpublished],
    by rw [hk.node _ preparing_ne_lock]; exact h.preparing⟩

theorem clean_keeps_lock (h : Clean t) (hk : t.Keeps (· = lockPath) t') (hi : Initialized t') :
    Clean t' :=
  ⟨hi,by rw [hk.node _ transaction_ne_lock,h.unpublished],
    by rw [hk.node _ preparing_ne_lock,h.unprepared]⟩

/-- The lock file is there: recovery gets to the journal with nothing changed. -/
theorem safe_recover_locked (h : Initialized t) (hlock : ∃ i, t.node lockPath=some (.file i))
    (hI : I t) (hnext : Safe I Q (recoverLocked hash ⟨true⟩) t) :
    Safe I Q (recoverFileTransactions hash ⟨true⟩) t := by
  obtain ⟨i,hi⟩ := hlock
  exact safe_bind.2 (safe_acquireTransactionLocks h hI (safe_holdLockFile_file hi hI hnext))

/-- With no journal, recovery takes the locks and drops what was never published. -/
theorem safe_recover_ready (h : Ready t) (hI : ∀ t', Ready t' → (Clean t → Clean t') →
      (∀ p, Outside p → t'.entry p=t.entry p) → I t')
    (hrmv : ∀ t', I.removal preparingPath t')
    (hdone : ∀ found t', Clean t' → (∀ p, Outside p → t'.entry p=t.entry p) →
      Q (.ok found) t') : Safe I Q (recoverFileTransactions hash ⟨true⟩) t := by
  have hhere : I t := hI t h id fun _ _ => rfl
  have hlocked : ∀ t', t.Keeps (· = lockPath) t' → Initialized t' → I t' := fun t' hk hi =>
    hI t' (ready_keeps_lock h hk hi) (fun hc => clean_keeps_lock hc hk hi)
      fun p hp => hk.entry fun he => lock_not_outside he hp
  refine safe_bind.2 (safe_acquireTransactionLocks h.toInitialized hhere
    (safe_holdLockFile h.toInitialized hhere hlocked ?_))
  intro t₁ i hk hi hlock
  have hready := ready_keeps_lock h hk hi
  refine safe_recoverLocked_ready hready (hlocked t₁ hk hi) (hrmv t₁) fun found t₂ hc hk₂ => ?_
  have hsame : ∀ p, Outside p → t₂.entry p=t.entry p := fun p hp =>
    (hk₂.entry fun he => preparing_not_outside he hp).trans
      (hk.entry fun he => lock_not_outside he hp)
  exact ⟨hI t₂ hc.ready (fun _ => hc) hsame,hdone found t₂ hc hsame⟩

theorem safe_recover_pending (h : Pending hash limits v t) :
    Safe (pendingWatch hash limits v) (Recovered v) (recoverFileTransactions hash ⟨true⟩) t := by
  cases h with
  | ready h hv =>
    refine safe_recover_ready h (fun t' hr _ hsame => .ready hr fun p hp =>
      (hsame p hp).trans (hv p hp)) (fun t' he => absurd he (by decide))
      fun found t' hc hsame => ⟨⟨found,rfl⟩,hc,fun p hp => (hsame p hp).trans (hv p hp)⟩
  | journal j h hv =>
    refine safe_recover_locked h.intact.initialized h.intact.locked (.journal j h hv) ?_
    refine safe_recoverLocked_inProgress h (fun t' h' => .journal j h' hv)
      (fun t' hr _ => ⟨j,hr,hv⟩) fun t' hc hshows => ?_
    have hv' : Shows v t' := fun p hp => (hshows p hp).trans (hv p hp)
    exact ⟨.ready hc.toClean.ready hv',⟨true,rfl⟩,hc.toClean,hv'⟩

theorem safe_recover_settled (h : Settled hash limits v t) :
    Safe (settledWatch hash limits v) (Recovered v) (recoverFileTransactions hash ⟨true⟩) t := by
  cases h with
  | clean h hv =>
    refine safe_recover_ready h.ready (fun t' _ hc hsame => .clean (hc h) fun p hp =>
      (hsame p hp).trans (hv p hp)) (fun t' he => absurd he (by decide))
      fun found t' hc hsame => ⟨⟨found,rfl⟩,hc,fun p hp => (hsame p hp).trans (hv p hp)⟩
  | journal j h hv =>
    refine safe_recover_locked h.intact.initialized h.intact.locked (.journal j h hv) ?_
    refine safe_recoverLocked_committed h (.journal j h hv) (fun _ => ⟨j,h,hv⟩)
      fun t' hc hshows => ?_
    have hv' : Shows v t' := fun p hp => (hshows p hp).trans (hv p hp)
    exact ⟨.clean hc.toClean hv',⟨true,rfl⟩,hc.toClean,hv'⟩

theorem initialized_of_pending (h : Pending hash limits v t) : Initialized t := by
  cases h with
  | ready h => exact h.toInitialized
  | journal j h => exact h.intact.initialized

theorem initialized_of_settled (h : Settled hash limits v t) : Initialized t := by
  cases h with
  | clean h => exact h.toInitialized
  | journal j h => exact h.intact.initialized

theorem safe_reopenAndRecover_pending (h : Pending hash limits v t) :
    Safe (pendingWatch hash limits v) (Recovered v) (reopenAndRecover hash) t :=
  safe_bind.2 (safe_openWorkspace (initialized_of_pending h) h (safe_recover_pending h))

theorem safe_reopenAndRecover_settled (h : Settled hash limits v t) :
    Safe (settledWatch hash limits v) (Recovered v) (reopenAndRecover hash) t :=
  safe_bind.2 (safe_openWorkspace (initialized_of_settled h) h (safe_recover_settled h))

end Ash.RecoveryRuns
