import Ash.JournalPublication

/-! # The two phases of a transaction

Until the commit marker appears, every tree a transaction passes through can be taken
back to what readers saw at its start; afterwards, only to what the actions make of it.
The judgement here remembers which side of the commit a run is on. -/

namespace Ash.TransactionPhases
open DurablePrograms FileTrees WorkspaceOperations WorkspaceRules TransactionActions
open TransactionSteps JournalStates JournalActions JournalLoops FileTransactions InternalState
open Journals

/-- The commit marker is in the tree. -/
def markerPresent (w : World) : Bool := (w.tree.node committedPath).isSome

variable {ε ε' α β : Type} {before after : Watch} {t t' : Tree} {seen : Bool}

/-- `before` guards the steps up to the commit marker, `after` those from it on. -/
def Phased (before after : Watch) (Q : Except ε α → Tree → Bool → Prop) (prog : Act ε α) (t : Tree)
    (seen : Bool) : Prop :=
  ∀ polls, (machine.monitored markerPresent).Guarded
    (fun x op y => (if y.2 then after else before).Allows x.1 op y.1)
    (fun r x => Q r x.1.tree x.2) prog (⟨t,polls⟩,seen)

variable {prog : Act ε α} {Q : Except ε α → Tree → Bool → Prop}

theorem phased_bind {Q : Except ε β → Tree → Bool → Prop} {f : α → Act ε β}
    (h : Phased before after (fun r t' seen' => match r with
      | .ok a => Phased before after Q (f a) t' seen'
      | .error e => Q (.error e) t' seen') prog t seen) :
    Phased before after Q (prog >>= f) t seen := by
  intro polls
  refine Machine.guarded_bind.2 (Machine.guarded_mono (h polls) (fun _ _ _ h => h) ?_)
  rintro (e | a) ⟨w,seen'⟩ h
  · exact h
  · exact h w.polls

theorem phased_attempt {Q : Except ε' (Except ε α) → Tree → Bool → Prop}
    (h : Phased before after (fun r t' seen' => Q (.ok r) t' seen') prog t seen) :
    Phased before after Q prog.attempt t seen :=
  fun polls => Machine.guarded_attempt.2 (h polls)

/-- A program that never shows the marker runs in the first phase. -/
theorem phased_before (hb : ∀ t', before t' → t'.node committedPath=none)
    (h : Safe before (fun r t' => Q r t' false) prog t) : Phased before after Q prog t false := by
  intro polls
  refine Machine.guarded_mono ((h polls).monitored fun _ _ _ w' hw => ?_) ?_ ?_
  · simp [markerPresent,hb w'.tree hw.1]
  · rintro x op y ⟨hw,-,hy⟩
    simpa [hy] using hw
  · rintro r x ⟨hq,hx⟩
    simpa [hx] using hq

/-- After the commit nothing depends on the marker. -/
theorem phased_after (h : Safe after (fun r t' => Q r t' true) prog t) :
    Phased before after Q prog t true := by
  intro polls
  refine Machine.guarded_mono ((h polls).monitored fun hf => by cases hf) ?_ ?_
  · rintro x op y ⟨hw,-,hy⟩
    simpa [hy] using hw
  · rintro r x ⟨hq,hx⟩
    simpa [hx] using hq

/-- What both phases guarantee, without the phases. -/
theorem safe_of_phased {I : Watch} (h : Phased before after Q prog t seen) (hb : before.Implies I)
    (ha : after.Implies I) : Safe I (fun r t' => ∃ seen', Q r t' seen') prog t := by
  refine fun polls => (h polls).of_monitored ?_ fun r x hQ => ⟨x.2,hQ⟩
  rintro x op ⟨w,seen'⟩ hw
  cases seen' with
  | false => exact hb.allows hw
  | true => exact ha.allows hw

/-- The rename that commits begins the second phase. -/
theorem phased_commit {Q : Except PlatformError Unit → Tree → Bool → Prop} {p q : Path}
    (hren : t.rename p q=.ok t') (hseen : t'.node committedPath≠none) (hafter : after t')
    (hQ : Q (.ok ()) t' true) : Phased before after Q (rename p q) t false := by
  intro polls
  have hexec : (machine.monitored markerPresent).exec (.rename p q) (⟨t,polls⟩,false) =
      (.ok (),⟨t',polls⟩,true) := by
    have hact : act (.rename p q) t=(.ok (),t') := change_ok hren
    simp [Machine.monitored,machine,exec,hact,markerPresent,Option.isSome_iff_ne_none,hseen]
  rw [rename,Machine.guarded_call,hexec]
  exact ⟨⟨hafter,fun p hp => by cases hp⟩,hQ⟩

/-! ## What the phases guarantee -/

section Guarantees

variable (hash : Bytes → Digest) (limits : FileTransactionLimits)

/-- The old contents are shown or can be restored. -/
inductive Pending (v : View) (t : Tree) : Prop where
  | ready (h : Ready t) (shows : Shows v t)
  | journal (j : Journal hash limits) (h : j.InProgress t) (shows : Shows v j.base)

/-- The new contents are shown; at most the removal of the journal is left. -/
inductive Settled (v : View) (t : Tree) : Prop where
  | clean (h : Clean t) (shows : Shows v t)
  | journal (j : Journal hash limits) (h : j.Committed t)
      (result : ∀ p, Outside p → j.result p=v p)

/-- A published journal is only removed once it is rolled back. -/
def pendingWatch (v : View) : Watch where
  crash := Pending hash limits v
  removal p t := p=transactionPath →
    ∃ j : Journal hash limits, RestoredFrom j 0 t ∧ Shows v j.base

/-- A published journal is only removed once it is committed. -/
def settledWatch (v : View) : Watch where
  crash := Settled hash limits v
  removal p t := p=transactionPath →
    ∃ j : Journal hash limits, j.Committed t ∧ ∀ p, Outside p → j.result p=v p

end Guarantees

variable {hash : Bytes → Digest} {limits : FileTransactionLimits} {v : View}

theorem Pending.unmarked (h : Pending hash limits v t) : t.node committedPath=none := by
  cases h with
  | ready h =>
    by_contra hn
    have := t.node_parent (p := committedPath) (by decide) hn
    rw [show FileTree.parent committedPath=transactionPath by decide,h.unpublished] at this
    cases this
  | journal j h =>
    rw [h.keeps.node committedPath (j.not_touched_entry (by decide)),j.uncommitted]

/-- While a transaction is pending the marker is not there. -/
theorem phased_pending {ε α : Type} {after : Watch} {Q : Except ε α → Tree → Bool → Prop}
    {prog : Act ε α} (h : Safe (pendingWatch hash limits v) (fun r t' => Q r t' false) prog t) :
    Phased (pendingWatch hash limits v) after Q prog t false :=
  phased_before (fun _ h => Pending.unmarked h) h

end Ash.TransactionPhases
