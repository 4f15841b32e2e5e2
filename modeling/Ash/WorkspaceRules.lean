import Ash.WorkspaceOperations

/-! # Reasoning about workspace programs

`Safe I Q p t` runs `p` on the tree `t` under every behaviour of the control
callback: each tree a crash can leave satisfies `I`, each removal of a directory
begins in a tree that `I` allows, and the end satisfies `Q`.  The rules take a program
apart operation by operation. -/

namespace Ash.WorkspaceRules
open DurablePrograms FileTrees WorkspaceOperations

/-- What the steps of a program must establish. -/
structure Watch where
  /-- of every tree a step leaves -/
  crash : Tree → Prop
  /-- of every tree in which the removal of a directory begins -/
  removal : Path → Tree → Prop

instance : CoeFun Watch fun _ => Tree → Prop := ⟨Watch.crash⟩

/-- Nothing is asked of the steps, only of the end. -/
def Watch.none : Watch := ⟨fun _ => True,fun _ _ => True⟩

def Watch.Allows (I : Watch) (w : World) (op : Operation) (w' : World) : Prop :=
  I w'.tree ∧ ∀ p, op=.removeDirAll p → I.removal p w.tree

/-- `J` asks no more than `I`. -/
structure Watch.Implies (I J : Watch) : Prop where
  crash : ∀ t, I t → J t
  removal : ∀ p t, I.removal p t → J.removal p t

variable {ε ε' α β : Type} {I J : Watch} {t t' : Tree} {p q : Path}

theorem Watch.Implies.allows {w w' : World} {op : Operation} (h : I.Implies J)
    (hI : I.Allows w op w') : J.Allows w op w' :=
  ⟨h.crash _ hI.1,fun p hp => h.removal p _ (hI.2 p hp)⟩

theorem Watch.implies_none : I.Implies .none := ⟨fun _ _ => trivial,fun _ _ _ => trivial⟩

def Safe (I : Watch) (Q : Except ε α → Tree → Prop) (prog : Act ε α) (t : Tree) : Prop :=
  ∀ polls, machine.Guarded I.Allows (fun r w => Q r w.tree) prog ⟨t,polls⟩

@[simp] theorem safe_done {Q : Except ε α → Tree → Prop} {r : Except ε α} :
    Safe I Q (.done r : Act ε α) t ↔ Q r t :=
  ⟨fun h => h fun _ => .continue,fun h _ => h⟩

@[simp] theorem safe_pure {Q : Except ε α → Tree → Prop} {a : α} :
    Safe I Q (pure a : Act ε α) t ↔ Q (.ok a) t := safe_done

@[simp] theorem safe_fail {Q : Except ε α → Tree → Prop} {e : ε} :
    Safe I Q (.fail e : Act ε α) t ↔ Q (.error e) t := safe_done

@[simp] theorem safe_ofExcept {Q : Except ε α → Tree → Prop} {r : Except ε α} :
    Safe I Q (.ofExcept r : Act ε α) t ↔ Q r t := safe_done

theorem safe_poll {Q : Except ε α → Tree → Prop} {next : TransactionControl → Act ε α} :
    Safe I Q (.call .poll next) t ↔ I t ∧ ∀ c, Safe I Q (next c) t := by
  constructor
  · intro h
    refine ⟨(h fun _ => .continue).1.1,fun c polls => ?_⟩
    -- a callback that answers `c` first and then as `polls` does
    exact (h fun n => n.casesOn c polls).2
  · intro h polls
    exact ⟨⟨h.1,fun p hp => by cases hp⟩,h.2 (polls 0) fun n => polls (n+1)⟩

theorem safe_call {Q : Except ε α → Tree → Prop} {op : Operation} {next : Answer op → Act ε α}
    (hop : op≠.poll) :
    Safe I Q (.call op next) t ↔ (I (act op t).2 ∧ ∀ p, op=.removeDirAll p → I.removal p t) ∧
      Safe I Q (next (act op t).1) (act op t).2 := by
  have hexec : ∀ polls, machine.exec op ⟨t,polls⟩=((act op t).1,⟨(act op t).2,polls⟩) := by
    intro polls
    cases op <;> first | exact absurd rfl hop | rfl
  constructor
  · intro h
    refine ⟨?_,fun polls => ?_⟩
    · have := (h fun _ => .continue).1
      rwa [hexec] at this
    · have := (h polls).2
      rwa [hexec] at this
  · intro h polls
    refine ⟨?_,?_⟩
    · rw [hexec]
      exact h.1
    · rw [hexec]
      exact h.2 polls

variable {prog : Act ε α}

theorem safe_mono {Q R : Except ε α → Tree → Prop} (h : Safe I Q prog t) (hIJ : I.Implies J)
    (hQ : ∀ r t', Q r t' → R r t') : Safe J R prog t :=
  fun polls => Machine.guarded_mono (h polls) (fun _ _ _ => hIJ.allows) fun r w => hQ r w.tree

theorem safe_post {Q R : Except ε α → Tree → Prop} (h : Safe I Q prog t)
    (hQ : ∀ r t', Q r t' → R r t') : Safe I R prog t :=
  safe_mono h ⟨fun _ h => h,fun _ _ h => h⟩ hQ

@[simp] theorem safe_bind {Q : Except ε β → Tree → Prop} {f : α → Act ε β} :
    Safe I Q (prog >>= f) t ↔ Safe I (fun r t' => match r with
      | .ok a => Safe I Q (f a) t'
      | .error e => Q (.error e) t') prog t := by
  induction prog generalizing t with
  | done r =>
    cases r with
    | ok a =>
      rw [safe_done]
      rfl
    | error e =>
      rw [safe_done]
      exact safe_done
  | call op next ih =>
    by_cases hop : op=.poll
    · subst hop
      exact safe_poll.trans ((and_congr Iff.rfl (forall_congr' fun c => ih c)).trans safe_poll.symm)
    · exact (safe_call hop).trans ((and_congr Iff.rfl (ih _)).trans (safe_call hop).symm)

@[simp] theorem safe_attempt {Q : Except ε' (Except ε α) → Tree → Prop} :
    Safe I Q prog.attempt t ↔ Safe I (fun r t' => Q (.ok r) t') prog t :=
  forall_congr' fun _ => Machine.guarded_attempt

@[simp] theorem safe_mapError {Q : Except ε' α → Tree → Prop} {f : ε → ε'} :
    Safe I Q (prog.mapError f) t ↔ Safe I (fun r t' => Q (r.mapError f) t') prog t :=
  forall_congr' fun _ => Machine.guarded_mapError

theorem safe_ite {Q : Except ε α → Tree → Prop} {c : Prop} [Decidable c] {a b : Act ε α} :
    Safe I Q (if c then a else b) t ↔ if c then Safe I Q a t else Safe I Q b t := by
  split <;> rfl

/-! ## Operations -/

section Operations

variable {Q : Except PlatformError Unit → Tree → Prop}

@[simp] theorem safe_askControl {Q : Except ε TransactionControl → Tree → Prop} :
    Safe I Q askControl t ↔ I t ∧ ∀ c, Q (.ok c) t := by
  simp [askControl,safe_poll]

@[simp] theorem safe_awaitLock {Q : Except ε TransactionControl → Tree → Prop} {lock : Lock} :
    Safe I Q (awaitLock lock) t ↔ I t ∧ Q (.ok .continue) t := by
  simp [awaitLock,safe_call,act]

@[simp] theorem safe_symlinkMetadata {Q : Except PlatformError Metadata → Tree → Prop} :
    Safe I Q (symlinkMetadata p) t ↔ I t ∧ Q ((stat t p).mapError .io) t := by
  simp [symlinkMetadata,safe_call,act]

@[simp] theorem safe_metadata {Q : Except PlatformError Metadata → Tree → Prop} :
    Safe I Q (metadata p) t ↔ I t ∧ Q ((act (.metadata p) t).1.mapError .io) t := by
  simp [metadata,safe_call,act]

@[simp] theorem safe_canonicalize {Q : Except PlatformError Path → Tree → Prop} :
    Safe I Q (canonicalize p) t ↔ I t ∧ Q ((resolve t p).mapError .io) t := by
  simp [canonicalize,safe_call,act]

@[simp] theorem safe_pathExists {Q : Except PlatformError Bool → Tree → Prop} :
    Safe I Q (pathExists p) t ↔
      I t ∧ Q (.ok (t.node p != none && t.node p != some .symlink)) t := by
  simp [pathExists,safe_call,act]

@[simp] theorem safe_isSameFile {Q : Except PlatformError Bool → Tree → Prop} :
    Safe I Q (isSameFile p q) t ↔ I t ∧ Q ((act (.isSameFile p q) t).1.mapError .io) t := by
  simp [isSameFile,safe_call,act]

@[simp] theorem safe_openFile {Q : Except PlatformError ℕ → Tree → Prop} :
    Safe I Q (openFile p) t ↔ I t ∧ Q ((inodeOf t p).mapError .io) t := by
  simp [openFile,safe_call,act]

variable {i : ℕ}

@[simp] theorem safe_readAt {Q : Except PlatformError Bytes → Tree → Prop} {o c : ℕ} :
    Safe I Q (readAt i o c) t ↔ I t ∧ Q (.ok (((t.data i).drop o).take c)) t := by
  simp [readAt,safe_call,act,Except.mapError]

@[simp] theorem safe_readToEnd {Q : Except PlatformError Bytes → Tree → Prop} :
    Safe I Q (readToEnd i) t ↔ I t ∧ Q (.ok (t.data i)) t := by
  simp [readToEnd,safe_call,act,Except.mapError]

@[simp] theorem safe_setPermissions :
    Safe I Q (setPermissions p) t ↔ I t ∧ Q (((stat t p).map fun _ => ()).mapError .io) t := by
  simp [setPermissions,safe_call,act]

@[simp] theorem safe_writeAll {bytes : Bytes} :
    Safe I Q (writeAll i bytes) t ↔ I (t.write i bytes) ∧ Q (.ok ()) (t.write i bytes) := by
  simp [writeAll,safe_call,act,Except.mapError]

@[simp] theorem safe_syncAll : Safe I Q (syncAll i) t ↔ I t ∧ Q (.ok ()) t := by
  simp [syncAll,safe_call,act,Except.mapError]

@[simp] theorem safe_syncDirectory :
    Safe I Q (syncDirectory p) t ↔
      I t ∧ Q (((resolve t p).map fun _ => ()).mapError .io) t := by
  simp [syncDirectory,safe_call,act]

theorem stat_file (h : t.node p=some (.file i)) :
    stat t p=.ok ⟨.file i,(t.data i).length⟩ := by simp [stat,h]

theorem stat_directory (h : t.node p=some .directory) : stat t p=.ok ⟨.directory,0⟩ := by
  simp [stat,h]

theorem stat_absent (h : t.node p=none) (hp : t.node (FileTree.parent p)=some .directory) :
    stat t p=.error .notFound := by
  simp [stat,h,FileTree.missing_eq_notFound hp h]

theorem metadata_file (h : t.node p=some (.file i)) :
    (act (.metadata p) t).1=.ok ⟨.file i,(t.data i).length⟩ := by simp [act,h,stat]

theorem inodeOf_file (h : t.node p=some (.file i)) : inodeOf t p=.ok i := by
  simp [inodeOf,h]

theorem resolve_file (h : t.node p=some (.file i)) : resolve t p=.ok p := by
  simp [resolve,h]

theorem resolve_directory (h : t.node p=some .directory) : resolve t p=.ok p := by
  simp [resolve,h]

theorem isSameFile_files {j : ℕ} (hp : t.node p=some (.file i)) (hq : t.node q=some (.file j)) :
    (act (.isSameFile p q) t).1=.ok (i == j) := by
  simp [act,inodeOf,hp,hq,bind,Except.bind,pure,Except.pure]

/-- A change that succeeds. -/
theorem change_ok {r : Except IoError Tree} (h : r=.ok t') : change t r=(.ok (),t') := by
  rw [h]; rfl

theorem safe_openLock :
    Safe I Q (openLock p) t ↔ I (change t (openOrCreate t p)).2 ∧
      Q ((change t (openOrCreate t p)).1.mapError .io) (change t (openOrCreate t p)).2 := by
  simp [openLock,safe_call,act]

theorem safe_createDir :
    Safe I Q (createDir p) t ↔ I (change t (t.createDir p)).2 ∧
      Q ((change t (t.createDir p)).1.mapError .io) (change t (t.createDir p)).2 := by
  simp [createDir,safe_call,act]

theorem safe_hardLink :
    Safe I Q (hardLink p q) t ↔ I (change t (t.hardLink p q)).2 ∧
      Q ((change t (t.hardLink p q)).1.mapError .io) (change t (t.hardLink p q)).2 := by
  simp [hardLink,safe_call,act]

theorem safe_rename :
    Safe I Q (rename p q) t ↔ I (change t (t.rename p q)).2 ∧
      Q ((change t (t.rename p q)).1.mapError .io) (change t (t.rename p q)).2 := by
  simp [rename,safe_call,act]

theorem safe_removeFile :
    Safe I Q (removeFile p) t ↔ I (change t (t.removeFile p)).2 ∧
      Q ((change t (t.removeFile p)).1.mapError .io) (change t (t.removeFile p)).2 := by
  simp [removeFile,safe_call,act]

theorem safe_removeDirAll :
    Safe I Q (removeDirAll p) t ↔ (I (change t (t.removeDirAll p)).2 ∧ I.removal p t) ∧
      Q ((change t (t.removeDirAll p)).1.mapError .io) (change t (t.removeDirAll p)).2 := by
  simp [removeDirAll,safe_call,act]

theorem safe_replaceFile {bytes : Bytes} :
    Safe I Q (replaceFile p bytes) t ↔ I (change t (t.replaceFile p bytes)).2 ∧
      Q ((change t (t.replaceFile p bytes)).1.mapError .io)
        (change t (t.replaceFile p bytes)).2 := by
  simp [replaceFile,safe_call,act]

theorem safe_createNew {Q : Except PlatformError ℕ → Tree → Prop} :
    Safe I Q (createNew p) t ↔ I (act (.createNew p) t).2 ∧
      Q ((act (.createNew p) t).1.mapError .io) (act (.createNew p) t).2 := by
  simp [createNew,safe_call]

end Operations

end Ash.WorkspaceRules
