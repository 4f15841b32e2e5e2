import Ash.JournalLoops

/-! # Recovering a published journal

From any tree between publication and commit, recovery restores what was there at
publication; from a committed one it only removes the journal.  Its own steps stay
within these trees, so a recovery that crashes can be run again. -/

namespace Ash.Journals
open WorkspaceOperations WorkspaceRules CheckedPaths TransactionActions TransactionManifest
open TransactionSteps TransactionReads TransactionWrites JournalStates JournalActions
open FileTransactions InternalState JournalLoops

variable {hash : Bytes → Digest} {limits : FileTransactionLimits} {j : Journal hash limits}
variable {I : Watch} {t t' : Tree}

namespace Journal

/-- What recovery reads of the journal is as it was published. -/
def Intact (j : Journal hash limits) (t : Tree) : Prop :=
  j.base.Keeps (fun p => j.Touched p ∨ p=committedPath) t

/-- The commit marker is in place and every action applied. -/
structure Committed (j : Journal hash limits) (t : Tree) : Prop where
  intact : j.Intact t
  marker : Holds t committedPath committedMarker
  applied : ∀ s∈j.slots, Applied j.base t s.change

theorem InProgress.intact (h : j.InProgress t) : j.Intact t := h.keeps.mono fun _ => .inl

namespace Intact

variable (h : j.Intact t)
include h

theorem follows : Follows j.base t := by
  refine follows_of_keeps h ?_
  rintro q (hq | rfl)
  · exact not_directory_of_touched hq
  · simp [j.uncommitted]

theorem dirs : JournalDirs t := j.dirs.follows h.follows

omit h in
/-- Names of the state directory outside the journal are those of the publication. -/
theorem not_moved {p : Path} (hs : statePath <+: p) (ht : ¬ transactionPath <+: p) :
    ¬ (j.Touched p ∨ p=committedPath) := by
  rintro (h | rfl)
  · exact j.not_touched_state hs ht h
  · exact ht (List.prefix_append _ _)

theorem initialized : Initialized t :=
  j.initialized.keeps h (not_moved (List.prefix_refl _) (by simp))
    (not_moved statePath_prefix_format (by simp)) (not_moved statePath_prefix_lock (by simp))

theorem unprepared : t.node preparingPath=none := by
  rw [h.node _ (not_moved statePath_prefix_preparing (by simp)),j.unprepared]

theorem locked : ∃ i, t.node lockPath=some (.file i) := by
  rw [h.node _ (not_moved statePath_prefix_lock (by simp))]
  exact j.locked

theorem transaction : t.node transactionPath=some .directory := by
  have := t.node_parent (p := transactionPath++[stageDirectory]) (by simp) (by simp [h.dirs.stage])
  simpa using this

theorem manifest : ∃ bytes, Holds t manifestPath bytes ∧ bytes.length ≤ maxManifestBytes ∧
    decodeManifest hash bytes=.ok (j.slots.map Slot.action) := by
  obtain ⟨bytes,hb,hlen,hdec⟩ := j.manifest
  refine ⟨bytes,Holds.keeps hb h ?_,hlen,hdec⟩
  rintro (hp | hp)
  · exact j.not_touched_entry (by decide) hp
  · exact absurd hp (by decide)

/-- Removing the journal leaves an idle state directory and what readers saw. -/
theorem clears (hc : t.Clears transactionPath t') :
    Idle t' ∧ ∀ p, Outside p → t'.entry p=t.entry p := by
  have hk := hc.keeps
  refine ⟨⟨⟨h.initialized.keeps hk (by simp) (by simp) (by simp),?_,?_⟩,?_⟩,fun p hp => ?_⟩
  · rw [hc.node,if_pos (List.prefix_refl _)]
  · rw [hk.node _ (by simp),h.unprepared]
  · rw [hk.node _ (by simp)]
    exact h.locked
  · exact hk.entry fun ht => hp (statePath_prefix_transaction.trans ht)

end Intact

/-! ## What readers see -/

/-- The view with every action made. -/
def result (j : Journal hash limits) : View :=
  j.slots.foldl (fun v s => s.change.apply v) j.base.entry

variable {p : Path}

theorem Intact.entry_of_not_target (h : j.Intact t) (hp : Outside p)
    (hnot : ∀ s∈j.slots, p∉s.change.targets) : t.entry p=j.base.entry p := by
  refine h.entry ?_
  rintro (hq | rfl)
  · cases hq with
    | committing => exact hp (statePath_prefix_transaction.trans (List.prefix_append _ _))
    | stage n => exact hp (statePath_prefix_stage n)
    | removed n => exact hp (statePath_prefix_removed n)
    | @target s p hs hps => exact hnot s hs hps
  · exact hp (statePath_prefix_transaction.trans (List.prefix_append _ _))

theorem InProgress.shows_base (h : j.InProgress t)
    (hres : ∀ s∈j.slots, Restored j.base t s.change) : Shows j.base.entry t := by
  intro p hp
  by_cases htgt : ∃ s∈j.slots, p∈s.change.targets
  · obtain ⟨s,hs,hps⟩ := htgt
    exact hres s hs p hps
  · exact h.intact.entry_of_not_target hp fun s hs hps => htgt ⟨s,hs,hps⟩

variable {l : List (Slot hash limits)} {v : View}

theorem foldl_apply_of_not_target (h : ∀ s∈l, p∉s.change.targets) :
    l.foldl (fun v s => s.change.apply v) v p=v p := by
  induction l generalizing v with
  | nil => rfl
  | cons s l ih =>
    rw [List.foldl_cons,ih fun s' hs' => h s' (by simp [hs']),
      Change.apply_of_notMem (h s (by simp))]

/-- At its own names a change does not look at the view it is made in. -/
theorem apply_of_target {c : Change} (h : p∈c.targets) (v w : View) :
    c.apply v p=c.apply w p := by
  cases c <;> simp only [Change.targets,List.mem_cons,List.not_mem_nil,or_false] at h <;>
    simp only [Change.apply,Function.update_apply]
  · simp [h]
  · rcases h with rfl | rfl <;> simp
  · simp [h]
  · simp [h]

theorem foldl_apply_of_target (hl : l.Pairwise fun s s' => s.action.paths.Disjoint s'.action.paths)
    {s : Slot hash limits} (hs : s∈l) (hp : p∈s.change.targets) :
    l.foldl (fun v s => s.change.apply v) v p=s.change.apply v p := by
  have apart : ∀ {s s' : Slot hash limits}, s.action.paths.Disjoint s'.action.paths →
      p∈s.change.targets → p∉s'.change.targets := by
    intro s s' hd hp hp'
    obtain ⟨path,hm,rfl⟩ := s.mem_targets hp
    obtain ⟨path',hm',he⟩ := s'.mem_targets hp'
    cases components_injective he
    exact hd hm hm'
  induction l generalizing v with
  | nil => cases hs
  | cons s' l ih =>
    obtain ⟨hhead,htail⟩ := List.pairwise_cons.1 hl
    rw [List.foldl_cons]
    rcases List.mem_cons.1 hs with rfl | hs
    · exact foldl_apply_of_not_target fun s' hs' => apart (hhead s' hs') hp
    · rw [ih htail hs]
      exact apply_of_target hp _ _

theorem Committed.shows_result (h : j.Committed t) : Shows j.result t := by
  intro p hp
  by_cases htgt : ∃ s∈j.slots, p∈s.change.targets
  · obtain ⟨s,hs,hps⟩ := htgt
    rw [h.applied s hs p hps]
    exact (foldl_apply_of_target (List.nodup_flatMap.1 j.nodup).2 hs hps).symm
  · have hnot : ∀ s∈j.slots, p∉s.change.targets := fun s hs hps => htgt ⟨s,hs,hps⟩
    rw [h.intact.entry_of_not_target hp hnot]
    exact (foldl_apply_of_not_target hnot).symm

end Journal

/-! ## Recovery -/

section Recovery

variable {Q : Except PlatformError Bool → Tree → Prop}

theorem rollbackLocked_eq (rows : Option (List FileActionOutcome)) :
    rollbackLocked hash ⟨true⟩ (j.slots.map Slot.action) rows =
      rollbackEach hash ⟨true⟩ (j.slots.map fun s => (s.action,s.index)).reverse rows false := by
  have hzip : (j.slots.map Slot.action).zipIdx=j.slots.map fun s => (s.action,s.index) := by
    rw [List.zipIdx_eq_zip_range',List.length_map,← j.indexes,List.zip_map']
  rw [rollbackLocked,hzip]

/-- Rolling a whole journal back restores every action. -/
theorem safe_rollbackLocked {Q : Except PlatformError (Bool × Option (List FileActionOutcome)) →
      Tree → Prop} (h : j.InProgress t) (hI : ∀ t', j.InProgress t' → I t')
    (hdone : ∀ rows t', RestoredFrom j 0 t' → Q (.ok (false,rows)) t')
    {rows : Option (List FileActionOutcome)} (hk : KnownBelow j rows j.slots.length t) :
    Safe I Q (rollbackLocked hash ⟨true⟩ (j.slots.map Slot.action) rows) t := by
  rw [rollbackLocked_eq]
  refine safe_rollbackEach hI hdone j.slots (fun _ hs => hs) j.indexes hk ⟨h,fun s hs hle => ?_⟩
  exact absurd (j.index_lt hs) (by omega)

/-- Dropping a journal that is no longer needed. -/
theorem safe_dropJournal {α : Type} {Q : Except PlatformError α → Tree → Prop} {a : α}
    (h : j.Intact t) (hrmv : I.removal transactionPath t)
    (hdone : ∀ t', Idle t' → (∀ p, Outside p → t'.entry p=t.entry p) → I t' ∧ Q (.ok a) t') :
    Safe I Q (do
      removeDirectoryIfPresent transactionPath
      syncDirectory statePath
      pure a) t := by
  refine safe_bind.2 (safe_removeDirectoryIfPresent (by decide) h.transaction hrmv
    (fun t' hc => (hdone t' (h.clears hc).1 (h.clears hc).2).1) fun t' hc => ?_)
  obtain ⟨hclean,hsame⟩ := h.clears hc
  obtain ⟨hI',hQ'⟩ := hdone t' hclean hsame
  exact safe_bind.2 (safe_syncDirectory_directory hclean.toClean.state hI' (safe_pure.2 hQ'))

/-- What recovery reads before it decides. -/
theorem safe_recoverLocked (h : j.Intact t) (hI : I t)
    (hnext : Safe I Q (recoverPrepared hash ⟨true⟩ (j.slots.map Slot.action)) t) :
    Safe I Q (recoverLocked hash ⟨true⟩) t := by
  obtain ⟨bytes,⟨i,hi,hd⟩,hlen,hdec⟩ := h.manifest
  refine safe_bind.2 (safe_internalDirectoryExists_absent h.unprepared h.initialized.state hI ?_)
  refine safe_bind.2 (safe_internalDirectoryExists_directory h.transaction hI ?_)
  refine safe_bind.2 (safe_requireInternalDirectory h.dirs.stage hI ?_)
  refine safe_bind.2 (safe_requireInternalDirectory h.dirs.removed hI ?_)
  refine safe_bind.2 (safe_readRegularBounded hi (by rw [hd]; exact hlen) hI ?_)
  rw [hd]
  refine safe_bind.2 (safe_ofExcept.2 ?_)
  rw [hdec]
  exact hnext

theorem safe_recoverLocked_inProgress (h : j.InProgress t) (hI : ∀ t', j.InProgress t' → I t')
    (hrmv : ∀ t', RestoredFrom j 0 t' → I.removal transactionPath t')
    (hdone : ∀ t', Idle t' → Shows j.base.entry t' → I t' ∧ Q (.ok true) t') :
    Safe I Q (recoverLocked hash ⟨true⟩) t := by
  have hnone : t.node committedPath=none := by
    rw [h.keeps.node committedPath (j.not_touched_entry (by decide)),j.uncommitted]
  refine safe_recoverLocked h.intact (hI t h) ?_
  refine safe_bind.2 (safe_attempt.2 (safe_symlinkMetadata.2 ⟨hI t h,?_⟩))
  rw [stat_absent hnone (by simpa [committedPath] using h.intact.transaction)]
  refine safe_bind.2 (safe_rollbackLocked h hI (fun rows t' hr => ?_) fun s hs _ hrow => ?_)
  · refine safe_dropJournal hr.progress.intact (hrmv t' hr) fun t'' hclean hsame => ?_
    have hshows := hr.progress.shows_base fun s hs => hr.restored s hs (Nat.zero_le _)
    exact hdone t'' hclean fun p hp => (hsame p hp).trans (hshows p hp)
  · -- recovery keeps no rows
    simp [rowState] at hrow

theorem safe_recoverLocked_committed (h : j.Committed t) (hI : I t)
    (hrmv : I.removal transactionPath t)
    (hdone : ∀ t', Idle t' → Shows j.result t' → I t' ∧ Q (.ok true) t') :
    Safe I Q (recoverLocked hash ⟨true⟩) t := by
  obtain ⟨i,hi,hd⟩ := h.marker
  refine safe_recoverLocked h.intact hI ?_
  refine safe_bind.2 (safe_attempt.2 (safe_symlinkMetadata.2 ⟨hI,?_⟩))
  rw [stat_file hi]
  refine safe_bind.2 (safe_readRegularBounded hi (by rw [hd]) hI ?_)
  simp only [hd,ne_eq,not_true_eq_false,if_false]
  refine safe_dropJournal h.intact hrmv fun t' hclean hsame => ?_
  exact hdone t' hclean fun p hp => (hsame p hp).trans (h.shows_result p hp)

/-- With no journal, recovery drops what was never published. -/
theorem safe_recoverLocked_ready (h : Ready t) (hI : I t) (hrmv : I.removal preparingPath t)
    (hdone : ∀ b t', Clean t' → t.Keeps (preparingPath <+: ·) t' → I t' ∧ Q (.ok b) t') :
    Safe I Q (recoverLocked hash ⟨true⟩) t := by
  have hclean : ∀ t', t.Keeps (preparingPath <+: ·) t' → t'.node preparingPath=none → Clean t' :=
    fun t' hk hn => ⟨h.toInitialized.keeps hk (by simp) (by simp) (by simp),
      by rw [hk.node _ (by simp),h.unpublished],hn⟩
  have hlast : ∀ b t', Clean t' → t.Keeps (preparingPath <+: ·) t' →
      Safe I Q (do
        let published ← internalDirectoryExists transactionPath
        if !published then pure b else recoverJournal hash ⟨true⟩) t' := by
    intro b t' hc hk
    obtain ⟨hI',hQ'⟩ := hdone b t' hc hk
    exact safe_bind.2 (safe_internalDirectoryExists_absent hc.unpublished hc.state hI'
      (safe_pure.2 hQ'))
  rcases h.preparing with hnone | hdir
  · refine safe_bind.2 (safe_internalDirectoryExists_absent hnone h.state hI ?_)
    exact hlast false t (hclean t (.refl t) hnone) (.refl t)
  · refine safe_bind.2 (safe_internalDirectoryExists_directory hdir hI ?_)
    have hclr : ∀ t', t.Clears preparingPath t' → Clean t' := fun t' hc =>
      hclean t' hc.keeps (by rw [hc.node,if_pos (List.prefix_refl _)])
    refine safe_bind.2 (safe_removeDirectoryIfPresent (by decide) hdir hrmv
      (fun t' hc => (hdone true t' (hclr t' hc) hc.keeps).1) fun t' hc => ?_)
    exact hlast true t' (hclr t' hc) hc.keeps

end Recovery

end Ash.Journals
