import Ash.Journals

/-! # Applying and rolling back a whole journal

One action at a time, in order or in reverse; every tree on the way is in progress.
The loop that applies counts the actions done; the one that rolls back, those left. -/

namespace Ash.JournalLoops
open WorkspaceOperations WorkspaceRules TransactionActions JournalStates JournalActions
open JournalRollbacks FileTransactions Journals

variable {hash : Bytes → Digest} {limits : FileTransactionLimits} {j : Journal hash limits}
variable {I : Watch} {t : Tree}

/-- Among the first `n` actions, a kept row that lets a rollback skip its action is right. -/
def KnownBelow (j : Journal hash limits) (rows : Option (List FileActionOutcome)) (n : ℕ)
    (t : Tree) : Prop :=
  ∀ s∈j.slots, s.index < n →
    rowState rows s.index=some .conflict ∨ rowState rows s.index=some .skipped →
    Restored j.base t s.change

/-! ## Applying -/

/-- The first `n` actions are applied and the others not begun. -/
structure AppliedBelow (j : Journal hash limits) (n : ℕ) (t : Tree) : Prop where
  progress : j.InProgress t
  applied : ∀ s∈j.slots, s.index < n → Applied j.base t s.change
  untouched : ∀ s∈j.slots, n ≤ s.index → Untouched s.index s.change j.base t

theorem AppliedBelow.step {n : ℕ} {t' : Tree} (h : AppliedBelow j n t) {s : Slot hash limits}
    (hs : s∈j.slots) (hn : s.index=n) (hstep : Along s.index j.base t s.change t')
    (happ : Applied j.base t' s.change) : AppliedBelow j (n+1) t' where
  progress := h.progress.along hs hstep
  applied s' hs' hlt := by
    by_cases he : s'.index=s.index
    · rw [j.eq_of_index hs' hs he]
      exact happ
    · intro p hp
      rw [Journal.entry_of_along hs hs' he hstep hp]
      exact h.applied s' hs' (by omega) p hp
  untouched s' hs' hle :=
    Journal.untouched_of_along hs hs' (by omega) hstep (h.untouched s' hs' (by omega))

variable {m : ℕ}

theorem rowState_set_ne {rows : List FileActionOutcome} {n : ℕ} {outcome : FileActionOutcome}
    (h : m≠n) : rowState (some (rows.set n outcome)) m=rowState (some rows) m := by
  simp [rowState,List.getElem?_set_ne h.symm]

theorem rowState_set_eq {rows : List FileActionOutcome} {n : ℕ} {outcome : FileActionOutcome}
    {state : FileActionState} (h : rowState (some (rows.set n outcome)) n=some state) :
    state=outcome.state := by
  simp only [rowState,Option.bind_some,List.getElem?_set_self'] at h
  cases hr : rows[n]? <;> simp_all

/-- No row below `n` says that nothing happened. -/
def SettledBelow (rows : List FileActionOutcome) (n : ℕ) : Prop :=
  ∀ m < n, rowState (some rows) m≠some .conflict ∧ rowState (some rows) m≠some .skipped

variable {rows : List FileActionOutcome} {n : ℕ} {outcome : FileActionOutcome}

theorem SettledBelow.set (h : SettledBelow rows n) : SettledBelow (rows.set n outcome) n := by
  intro m hm
  rw [rowState_set_ne (by omega)]
  exact h m hm

theorem SettledBelow.set_succ (h : SettledBelow rows n) (hc : outcome.state≠.conflict)
    (hk : outcome.state≠.skipped) : SettledBelow (rows.set n outcome) (n+1) := by
  intro m hm
  by_cases he : m=n
  · subst he
    exact ⟨fun hr => hc (rowState_set_eq hr).symm,fun hr => hk (rowState_set_eq hr).symm⟩
  · rw [rowState_set_ne he]
    exact h m (by omega)

theorem AppliedBelow.knownBelow (h : AppliedBelow j n t) (hrows : SettledBelow rows n) :
    KnownBelow j (some rows) m t := by
  intro s hs _ hrow
  by_cases hlt : s.index < n
  · rcases hrow with hrow | hrow
    · exact absurd hrow (hrows _ hlt).1
    · exact absurd hrow (hrows _ hlt).2
  · exact (h.untouched s hs (by omega)).restored h.progress.follows

/-- Applying ends with every action applied, or stops before an action it did not begin. -/
theorem safe_applyAll {Q : Except PlatformError (List FileActionOutcome ×
      Option FileTransactionFailure) → Tree → Prop}
    (hI : ∀ t', j.InProgress t' → I t')
    (hdone : ∀ rows t', AppliedBelow j j.slots.length t' → SettledBelow rows j.slots.length →
      Q (.ok (rows,none)) t')
    (hstop : ∀ rows failure t', j.InProgress t' →
      KnownBelow j (some rows) j.slots.length t' → Q (.ok (rows,some failure)) t')
    (rest : List (Slot hash limits)) (hmem : ∀ s∈rest, s∈j.slots)
    (hidx : rest.map Slot.index=List.range' n rest.length)
    (hlen : n+rest.length=j.slots.length) (hrows : SettledBelow rows n)
    (h : AppliedBelow j n t) :
    Safe I Q (applyAll hash ⟨true⟩ limits n rows (rest.map Slot.action)) t := by
  induction rest generalizing n rows t with
  | nil =>
    obtain rfl : n=j.slots.length := by simpa using hlen
    exact safe_pure.2 (hdone rows t h hrows)
  | cons s rest ih =>
    have hs := hmem s (by simp)
    simp only [List.map_cons,List.length_cons,List.range'_succ,List.cons.injEq] at hidx hlen
    obtain ⟨rfl,hidx⟩ := hidx
    have hu := h.untouched s hs le_rfl
    have hprep := hu.prepared h.progress.follows (j.prepared s hs)
    refine safe_bind.2 (safe_attempt.2 (safe_applyAction s.admitted ?_ s.describes s.fits
      h.progress.dirs hprep hu (fun t' hstep => hI t' (h.progress.along hs hstep))
      fun t' hstep happ => ?_))
    · intro failure
      exact safe_pure.2 (hstop _ failure t h.progress (h.knownBelow hrows.set.set))
    · exact ih (fun s' hs' => hmem s' (by simp [hs'])) hidx (by omega)
        (hrows.set.set_succ (by simp) (by simp)) (h.step hs rfl hstep happ)

/-! ## Rolling back -/

/-- The actions from `n` on show their old contents. -/
structure RestoredFrom (j : Journal hash limits) (n : ℕ) (t : Tree) : Prop where
  progress : j.InProgress t
  restored : ∀ s∈j.slots, n ≤ s.index → Restored j.base t s.change

theorem RestoredFrom.step {t' : Tree} {s : Slot hash limits} (hs : s∈j.slots)
    (h : RestoredFrom j (s.index+1) t) (hstep : Along s.index j.base t s.change t')
    (hres : Restored j.base t' s.change) : RestoredFrom j s.index t' where
  progress := h.progress.along hs hstep
  restored s' hs' hle := by
    by_cases he : s'.index=s.index
    · rw [j.eq_of_index hs' hs he]
      exact hres
    · intro p hp
      rw [Journal.entry_of_along hs hs' he hstep hp]
      exact h.restored s' hs' (by omega) p hp

theorem rowState_setRow_ne {rows : Option (List FileActionOutcome)} {n : ℕ}
    {state : FileActionState} {digest : Digest} (h : m≠n) :
    rowState (setRow rows n state digest) m=rowState rows m := by
  cases rows with
  | none => rfl
  | some rows => exact rowState_set_ne h

/-- After an action is settled, what its row says no longer matters. -/
theorem KnownBelow.step {rows rows' : Option (List FileActionOutcome)} {t' : Tree}
    {s : Slot hash limits} (hs : s∈j.slots) (h : KnownBelow j rows (s.index+1) t)
    (hstep : Along s.index j.base t s.change t')
    (hrows : ∀ m, m≠s.index → rowState rows' m=rowState rows m) :
    KnownBelow j rows' s.index t' := by
  intro s' hs' hlt hrow p hp
  rw [hrows _ (by omega)] at hrow
  rw [Journal.entry_of_along hs hs' (by omega) hstep hp]
  exact h s' hs' (by omega) hrow p hp

section Rollback

variable {Q : Except PlatformError (Bool × Option (List FileActionOutcome)) → Tree → Prop}

theorem range'_of_append_singleton {pre : List (Slot hash limits)} {s : Slot hash limits}
    (h : (pre++[s]).map Slot.index=List.range' 0 (pre++[s]).length) :
    pre.map Slot.index=List.range' 0 pre.length ∧ s.index=pre.length := by
  rw [List.map_append,List.length_append,List.length_singleton,List.range'_1_concat,
    Nat.zero_add] at h
  obtain ⟨hpre,hs⟩ := List.append_inj' h rfl
  exact ⟨hpre,by simpa using hs⟩

/-- Rolling back restores every action and reports none that it could not. -/
theorem safe_rollbackEach (hI : ∀ t', j.InProgress t' → I t')
    (hdone : ∀ rows t', RestoredFrom j 0 t' → Q (.ok (false,rows)) t')
    (pre : List (Slot hash limits)) (hmem : ∀ s∈pre, s∈j.slots)
    (hidx : pre.map Slot.index=List.range' 0 pre.length)
    {rows : Option (List FileActionOutcome)} (hk : KnownBelow j rows pre.length t)
    (h : RestoredFrom j pre.length t) :
    Safe I Q (rollbackEach hash ⟨true⟩ (pre.map fun s => (s.action,s.index)).reverse rows
      false) t := by
  induction pre using List.reverseRecOn generalizing rows t with
  | nil => exact safe_pure.2 (hdone rows t h)
  | append_singleton pre s ih =>
    obtain ⟨hidx,hlen⟩ := range'_of_append_singleton hidx
    have hs := hmem s (by simp)
    have hmem' : ∀ s'∈pre, s'∈j.slots := fun s' hs' => hmem s' (by simp [hs'])
    simp only [List.length_append,List.length_singleton,← hlen] at hk h
    have hstay : Along s.index j.base t s.change t := ⟨.refl t,h.progress.rollbackable s hs⟩
    have hrest : ∀ t' rows', Along s.index j.base t s.change t' → Restored j.base t' s.change →
        (∀ m, m≠s.index → rowState rows' m=rowState rows m) →
        Safe I Q (rollbackEach hash ⟨true⟩ (pre.map fun s => (s.action,s.index)).reverse rows'
          false) t' := by
      intro t' rows' hstep hres hrows
      refine ih hmem' hidx ?_ ?_ <;> rw [← hlen]
      · exact hk.step hs hstep hrows
      · exact h.step hs hstep hres
    have hskip : Restored j.base t s.change → Safe I Q (rollbackEach hash ⟨true⟩
        (pre.map fun s => (s.action,s.index)).reverse
        (if rowState rows s.index=some .committed ∨ rowState rows s.index=some .recoveryRequired
          then setRow rows s.index .rolledBack (rollbackDigest s.action) else rows) false) t := by
      intro hres
      refine hrest t _ hstay hres fun m hm => ?_
      split
      · exact rowState_setRow_ne hm
      · rfl
    have hfits := s.fits.mono limits.file_le
    simp only [List.map_append,List.map_cons,List.map_nil,List.reverse_append,
      List.reverse_cons,List.reverse_nil,List.nil_append,List.cons_append,rollbackEach]
    rw [safe_ite]
    split
    · next hknown => exact safe_bind.2 (safe_pure.2 (hskip (hk s hs (by omega) hknown)))
    · refine safe_bind.2 (safe_attempt.2 (safe_appliedState s.admitted h.progress.follows
        (hI t h.progress) s.describes hfits h.progress.dirs (j.prepared s hs)
        (h.progress.rollbackable s hs) hskip fun state hstate hundo => ?_))
      -- linked and applied actions are undone alike
      rcases hstate with rfl | rfl <;>
      · refine safe_bind.2 (safe_attempt.2 (safe_rollbackAction s.admitted h.progress.follows
          s.describes hfits h.progress.dirs (j.prepared s hs) (h.progress.rollbackable s hs) hundo
          (fun t' hstep => hI t' (h.progress.along hs hstep)) fun t' hstep hres => ?_))
        exact hrest t' _ hstep hres fun m hm => rowState_setRow_ne hm

end Rollback

end Ash.JournalLoops
