import Ash.WorkspacePaths
import Mathlib.Data.List.Nodup

/-! # File actions and their validation

A transaction is a list of one to 256 actions on pairwise different logical paths.
Validation looks at the list alone, before any lock is taken. -/

namespace Ash.TransactionActions
open WorkspaceOperations WorkspacePaths

inductive FileActionKind where
  | create
  | copy
  | move
  | remove
  | replace
  deriving DecidableEq

structure FileAction where
  kind : FileActionKind
  path : Text
  destination : Option Text
  expectedDigest : Option Digest
  content : Option Bytes

namespace FileAction

def create (path : Text) (content : Bytes) : FileAction :=
  ⟨.create,path,none,none,some content⟩

def copy (path destination : Text) (expectedDigest : Digest) : FileAction :=
  ⟨.copy,path,some destination,some expectedDigest,none⟩

def moveFile (path destination : Text) (expectedDigest : Digest) : FileAction :=
  ⟨.move,path,some destination,some expectedDigest,none⟩

def remove (path : Text) (expectedDigest : Digest) : FileAction :=
  ⟨.remove,path,none,some expectedDigest,none⟩

def replace (path : Text) (expectedDigest : Digest) (content : Bytes) : FileAction :=
  ⟨.replace,path,none,some expectedDigest,some content⟩

/-- The logical paths an action names. -/
def paths (action : FileAction) : List Text := action.path::action.destination.toList

def shapeValid (action : FileAction) : Bool :=
  match action.kind with
  | .create =>
      action.destination.isNone && action.expectedDigest.isNone && action.content.isSome
  | .copy | .move =>
      action.destination.isSome && action.expectedDigest.isSome && action.content.isNone
  | .remove =>
      action.destination.isNone && action.expectedDigest.isSome && action.content.isNone
  | .replace =>
      action.destination.isNone && action.expectedDigest.isSome && action.content.isSome

end FileAction

def maxActions : ℕ := 256

def maxFileTransactionFileBytes : ℕ := 128*1024*1024
def maxFileTransactionTotalBytes : ℕ := 128*1024*1024

/-- Limits that `FileTransactionLimits::new` accepts. -/
structure FileTransactionLimits where
  maxFileBytes : ℕ
  maxTotalBytes : ℕ
  file_pos : 0 < maxFileBytes
  file_le_total : maxFileBytes ≤ maxTotalBytes
  total_le : maxTotalBytes ≤ maxFileTransactionTotalBytes

theorem FileTransactionLimits.file_le (limits : FileTransactionLimits) :
    limits.maxFileBytes ≤ maxFileTransactionFileBytes :=
  limits.file_le_total.trans limits.total_le

inductive FileTransactionFailure where
  | conflict
  | cancelled
  | timedOut
  | filesystem
  | recoveryRequired
  deriving DecidableEq

inductive FileActionState where
  | committed
  | conflict
  | rolledBack
  | recoveryRequired
  | skipped
  deriving DecidableEq

structure FileActionOutcome where
  state : FileActionState
  digest : Option Digest
  deriving DecidableEq

def FileActionOutcome.skipped : FileActionOutcome := ⟨.skipped,none⟩

structure FileTransactionOutcome where
  actions : List FileActionOutcome
  failure : Option FileTransactionFailure
  deriving DecidableEq

/-! ## Validation -/

/-- Admit one more path of the list: canonical, not reserved, not the root, not seen. -/
def admitPath (workspace : Workspace) (seen : List Text) (path : Text) :
    Except PlatformError (List Text) := do
  validateLogical path
  workspace.rejectReserved path
  if path=rootLogical ∨ path∈seen then .error .invalidMutationTarget
  else .ok (path::seen)

/-- Admit the paths of one action, the destination after the path. -/
def admitPaths (workspace : Workspace) (seen : List Text) : List Text →
    Except PlatformError (List Text)
  | [] => .ok seen
  | path::rest => do
      let seen ← admitPath workspace seen path
      admitPaths workspace seen rest

def validateEach (workspace : Workspace) (seen : List Text) : List FileAction →
    Except PlatformError Unit
  | [] => .ok ()
  | action::rest => do
      let seen ← admitPaths workspace seen action.paths
      if action.shapeValid then validateEach workspace seen rest
      else .error .invalidMutationTarget

def validateActions (workspace : Workspace) (actions : List FileAction) :
    Except PlatformError Unit :=
  if actions=[] ∨ actions.length > maxActions then .error .invalidMutationTarget
  else validateEach workspace [] actions

/-- What validation leaves true of every path. -/
structure AdmittedPath (workspace : Workspace) (path : Text) : Prop where
  logical : validateLogical path=.ok ()
  unreserved : workspace.internalState=true → isReserved path=false
  ne_root : path≠rootLogical

variable {path : Text} {workspace : Workspace} {actions : List FileAction} {seen seen' : List Text}

/-- A path that a workspace without state directory admits is admitted with one, or
reserved there. -/
theorem AdmittedPath.or_reserved (h : AdmittedPath ⟨false⟩ path) :
    AdmittedPath ⟨true⟩ path ∨ isReserved path=true := by
  cases hr : isReserved path with
  | false => exact .inl ⟨h.logical,fun _ => hr,h.ne_root⟩
  | true => exact .inr rfl

theorem AdmittedPath.weaken (h : AdmittedPath workspace path) :
    AdmittedPath ⟨false⟩ path :=
  ⟨h.logical,fun hf => Bool.noConfusion hf,h.ne_root⟩

/-- What validation leaves true of a list of actions. -/
structure ValidActions (workspace : Workspace) (actions : List FileAction) : Prop where
  ne_nil : actions≠[]
  length_le : actions.length ≤ maxActions
  admitted : ∀ action∈actions, ∀ path∈action.paths, AdmittedPath workspace path
  shape : ∀ action∈actions, action.shapeValid=true
  nodup : (actions.flatMap FileAction.paths).Nodup

theorem ValidActions.weaken (h : ValidActions workspace actions) : ValidActions ⟨false⟩ actions :=
  ⟨h.ne_nil,h.length_le,fun action ha path hp => (h.admitted action ha path hp).weaken,h.shape,
    h.nodup⟩

/-- Some action names a path of the state directory. -/
def NamesState (actions : List FileAction) : Prop :=
  ∃ action∈actions, ∃ path∈action.paths, isReserved path=true

theorem NamesState.cons {action : FileAction} {actions : List FileAction}
    (h : NamesState actions) : NamesState (action::actions) :=
  h.imp fun _ h => ⟨List.mem_cons_of_mem _ h.1,h.2⟩

theorem ValidActions.not_namesState (h : ValidActions ⟨true⟩ actions) : ¬ NamesState actions := by
  rintro ⟨action,ha,path,hp,hr⟩
  rw [(h.admitted action ha path hp).unreserved rfl] at hr
  cases hr

theorem admitPath_ok (h : admitPath workspace seen path=.ok seen') :
    AdmittedPath workspace path ∧ path∉seen ∧ seen'=path::seen := by
  unfold admitPath at h
  cases hl : validateLogical path with
  | error e => simp [hl,bind,Except.bind] at h
  | ok u =>
    cases hr : workspace.rejectReserved path with
    | error e => simp [hl,hr,bind,Except.bind] at h
    | ok u' =>
      simp only [hl,hr,bind,Except.bind] at h
      split at h
      · cases h
      · next hc =>
        cases h
        rw [not_or] at hc
        refine ⟨⟨hl,fun hs => ?_,hc.1⟩,hc.2,rfl⟩
        unfold Workspace.rejectReserved at hr
        split at hr
        · cases hr
        · next hn => simpa [hs] using hn

private theorem admitPaths_ok {paths : List Text} (h : admitPaths workspace seen paths=.ok seen')
    :
    (∀ path∈paths, AdmittedPath workspace path) ∧ paths.Nodup ∧ List.Disjoint paths seen ∧
      seen'=paths.reverse++seen := by
  induction paths generalizing seen with
  | nil =>
    cases h
    simp
  | cons path rest ih =>
    simp only [admitPaths,bind,Except.bind] at h
    split at h
    · cases h
    · next seen₁ hp =>
      obtain ⟨hadm,hnew,rfl⟩ := admitPath_ok hp
      obtain ⟨ha,hn,hd,rfl⟩ := ih h
      rw [List.disjoint_cons_right] at hd
      refine ⟨?_,List.nodup_cons.2 ⟨hd.1,hn⟩,List.disjoint_cons_left.2 ⟨hnew,hd.2⟩,?_⟩
      · simpa using ⟨hadm,ha⟩
      · simp

private theorem validateEach_ok (h : validateEach workspace seen actions=.ok ()) :
    (∀ action∈actions, ∀ path∈action.paths, AdmittedPath workspace path) ∧
    (∀ action∈actions, action.shapeValid=true) ∧
    (actions.flatMap FileAction.paths).Nodup ∧
    List.Disjoint (actions.flatMap FileAction.paths) seen := by
  induction actions generalizing seen with
  | nil => simp
  | cons action rest ih =>
    simp only [validateEach,bind,Except.bind] at h
    split at h
    · cases h
    · next seen₁ hp =>
      obtain ⟨hadm,hnodup,hdisj,rfl⟩ := admitPaths_ok hp
      split at h
      · next hs =>
        obtain ⟨ha,hsh,hn,hd⟩ := ih h
        obtain ⟨hd₁,hd₂⟩ := List.disjoint_append_right.1 hd
        refine ⟨by simpa using ⟨hadm,ha⟩,by simpa using ⟨hs,hsh⟩,?_,?_⟩
        · rw [List.flatMap_cons,List.nodup_append']
          exact ⟨hnodup,hn,fun _ hx hy => hd₁ hy (List.mem_reverse.2 hx)⟩
        · rw [List.flatMap_cons]
          exact List.disjoint_append_left.2 ⟨hdisj,hd₂⟩
      · cases h

theorem validActions_of_ok (h : validateActions workspace actions=.ok ()) :
    ValidActions workspace actions := by
  unfold validateActions at h
  split at h
  · cases h
  · next hc =>
    rw [not_or,not_lt] at hc
    obtain ⟨ha,hs,hn,-⟩ := validateEach_ok h
    exact ⟨hc.1,hc.2,ha,hs,hn⟩

/-! ## Handles opened before the state directory was made -/

private theorem admitPaths_weaken {paths : List Text} (h : admitPaths ⟨true⟩ seen paths=.ok seen')
    : admitPaths ⟨false⟩ seen paths=.ok seen' := by
  induction paths generalizing seen with
  | nil => exact h
  | cons path rest ih =>
    simp only [admitPaths,bind,Except.bind] at h ⊢
    split at h
    · cases h
    · next seen₁ hp =>
      have hp' : admitPath ⟨false⟩ seen path=.ok seen₁ := by
        obtain ⟨hadm,hnew,rfl⟩ := admitPath_ok hp
        simp [admitPath,hadm.logical,hadm.ne_root,hnew,Workspace.rejectReserved,bind,Except.bind]
      rw [hp']
      exact ih h

private theorem validateEach_weaken (h : validateEach ⟨true⟩ seen actions=.ok ()) :
    validateEach ⟨false⟩ seen actions=.ok () := by
  induction actions generalizing seen with
  | nil => exact h
  | cons action rest ih =>
    simp only [validateEach,bind,Except.bind] at h ⊢
    split at h
    · cases h
    · next seen₁ hp =>
      rw [admitPaths_weaken hp]
      split at h
      · next hs =>
        simp only [hs,if_true]
        exact ih h
      · cases h

/-- What is valid with `.ash` reserved is valid without. -/
theorem validateActions_weaken (workspace : Workspace) (h : validateActions ⟨true⟩ actions=.ok ())
    : validateActions workspace actions=.ok () := by
  obtain ⟨_ | _⟩ := workspace
  · unfold validateActions at h ⊢
    split at h
    · cases h
    · next hc =>
      rw [if_neg hc]
      exact validateEach_weaken h
  · exact h

end Ash.TransactionActions
