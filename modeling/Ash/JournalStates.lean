import Ash.ActionRollbacks

/-! # What a journal knows about one action

Seen from the tree at publication, an action is a change of a few names outside the
state directory, with two names of its own inside the journal.  While the transaction
is applied and rolled back, those names pass through states from which the old
contents can still be restored: `Rollbackable`.  Everything else stays as it was. -/

namespace Ash.JournalStates
open FileTrees WorkspaceOperations WorkspacePaths WorkspaceRules CheckedPaths TransactionActions
open TransactionManifest TransactionSteps ActionSteps

/-- What a reader of the workspace sees. -/
abbrev View := Path → Option (FileTree.Entry UInt8)

/-- What one action does, in tree paths and contents. -/
inductive Change where
  | create (target : Path) (bytes : Bytes)
  | move (source target : Path) (bytes : Bytes)
  | remove (source : Path) (bytes : Bytes)
  | replace (target : Path) (old new : Bytes)

namespace Change

/-- The names a change binds or unbinds. -/
def targets : Change → List Path
  | .create target _ => [target]
  | .move source target _ => [source,target]
  | .remove source _ => [source]
  | .replace target _ _ => [target]

/-- The view with the change made. -/
def apply : Change → View → View
  | .create target bytes, v => Function.update v target (some (.file bytes))
  | .move source target bytes, v =>
      Function.update (Function.update v source none) target (some (.file bytes))
  | .remove source _, v => Function.update v source none
  | .replace target _ new, v => Function.update v target (some (.file new))

/-- Every name the change of a journal's action can bind or unbind. -/
def footprint (index : ℕ) (c : Change) (p : Path) : Prop :=
  p=stagePath transactionPath index ∨ p=removedPath transactionPath index ∨ p∈c.targets

/-- The sizes a change materializes or preserves stay under a ceiling. -/
def Fits (ceiling : ℕ) : Change → Prop
  | .create _ bytes | .move _ _ bytes | .remove _ bytes => bytes.length ≤ ceiling
  | .replace _ old new => old.length ≤ ceiling ∧ new.length ≤ ceiling

theorem Fits.mono {c : Change} {m n : ℕ} (h : c.Fits m) (hmn : m ≤ n) : c.Fits n := by
  cases c with
  | replace target old new => exact ⟨h.1.trans hmn,h.2.trans hmn⟩
  | _ => exact le_trans h hmn

theorem apply_of_notMem {c : Change} {v : View} {p : Path} (h : p∉c.targets) :
    c.apply v p=v p := by
  cases c <;> simp only [targets,List.mem_cons,List.not_mem_nil,or_false,not_or] at h <;>
    simp [apply,h]

end Change

/-- A prepared action stands for a change. -/
def Describes (hash : Bytes → Digest) (action : PreparedAction) : Change → Prop
  | .create target bytes => (action.kind=.create ∨ action.kind=.copy) ∧
      target=components (action.destination.getD action.path) ∧ Identifies hash action bytes
  | .move source target bytes => action.kind=.move ∧ source=components action.path ∧
      (∃ logical, action.destination=some logical ∧ target=components logical) ∧
      Identifies hash action bytes
  | .remove source bytes => action.kind=.remove ∧ source=components action.path ∧
      Identifies hash action bytes
  | .replace target old new => action.kind=.replace ∧ target=components action.path ∧
      Identifies hash action new ∧ Preserves hash action old

theorem mem_paths_target (action : PreparedAction) :
    action.destination.getD action.path∈action.paths := by
  cases h : action.destination <;> simp [PreparedAction.paths,h]

theorem mem_paths_path (action : PreparedAction) : action.path∈action.paths := by
  simp [PreparedAction.paths]

variable {action : PreparedAction} {c : Change} {p : Path} {t b : Tree} {P : Path → Prop}
  {index : ℕ}

theorem mem_paths_destination {logical : Text} (h : action.destination=some logical) :
    logical∈action.paths := by
  simp [PreparedAction.paths,h]

/-- The names of a change are the paths of its action. -/
theorem Describes.mem_targets {hash : Bytes → Digest} (hdesc : Describes hash action c)
    (h : p∈c.targets) : ∃ path∈action.paths, p=components path := by
  cases c with
  | create target bytes =>
    obtain ⟨-,rfl,-⟩ := hdesc
    simp only [Change.targets,List.mem_singleton] at h
    exact ⟨action.destination.getD action.path,mem_paths_target action,h⟩
  | move source target bytes =>
    obtain ⟨-,rfl,⟨logical,hl,rfl⟩,-⟩ := hdesc
    simp only [Change.targets,List.mem_cons,List.not_mem_nil,or_false] at h
    rcases h with rfl | rfl
    · exact ⟨_,mem_paths_path action,rfl⟩
    · exact ⟨logical,mem_paths_destination hl,rfl⟩
  | remove | replace =>
    obtain ⟨-,rfl,-⟩ := hdesc
    simp only [Change.targets,List.mem_singleton] at h
    exact ⟨_,mem_paths_path action,h⟩

/-- One action of a journal, with the change it stands for. -/
structure Slot (hash : Bytes → Digest) (limits : FileTransactionLimits) where
  index : ℕ
  action : PreparedAction
  change : Change
  describes : Describes hash action change
  admitted : ∀ path∈action.paths, AdmittedPath ⟨true⟩ path
  nodup : action.paths.Nodup
  fits : change.Fits limits.maxFileBytes

/-! ## Names inside and outside the state directory -/

/-- Not the state directory and not below it. -/
def Outside (p : Path) : Prop := ¬ statePath <+: p

theorem outside_components {path : Text} (h : AdmittedPath ⟨true⟩ path) :
    Outside (components path) := by
  rintro ⟨rest,hrest⟩
  have hjoin : path=List.intercalate ['/'] (components path) :=
    (List.intercalate_splitOn '/').symm
  have hres := h.unreserved rfl
  rw [← hrest] at hjoin
  rcases rest with _ | ⟨c,rest⟩
  · have : path=stateDirectory := by simpa [statePath,nativeRoot] using hjoin
    simp [isReserved,this] at hres
  · have : path=stateDirectory++['/']++List.intercalate ['/'] (c::rest) := by
      simpa [statePath,nativeRoot,List.intercalate_cons_cons] using hjoin
    rw [this] at hres
    have hbelow : List.isPrefixOf (stateDirectory++['/'])
        (stateDirectory++['/']++List.intercalate ['/'] (c::rest))=true :=
      List.isPrefixOf_iff_prefix.mpr (List.prefix_append _ _)
    simp only [isReserved,hbelow,Bool.or_true,Bool.true_eq_false] at hres

theorem statePath_prefix_stage (index : ℕ) : statePath <+: stagePath transactionPath index := by
  simp only [stagePath,indexedPath,transactionPath,List.append_assoc]
  exact List.prefix_append _ _

theorem statePath_prefix_removed (index : ℕ) : statePath <+: removedPath transactionPath index := by
  simp only [removedPath,indexedPath,transactionPath,List.append_assoc]
  exact List.prefix_append _ _

theorem stageDirectory_ne_removedDirectory : stageDirectory≠removedDirectory := by decide

theorem stage_ne_removed (i j : ℕ) :
    stagePath transactionPath i≠removedPath transactionPath j := by
  intro h
  have hdir := congrArg (fun p : Path => p[2]?) h
  exact stageDirectory_ne_removedDirectory (Option.some.inj hdir)

theorem Outside.ne_stage (h : Outside p) (n : ℕ) : p≠stagePath transactionPath n := by
  rintro rfl
  exact h (statePath_prefix_stage n)

theorem Outside.ne_removed (h : Outside p) (n : ℕ) : p≠removedPath transactionPath n := by
  rintro rfl
  exact h (statePath_prefix_removed n)

theorem Describes.outside_target {hash : Bytes → Digest} (hdesc : Describes hash action c)
    (hadm : ∀ path∈action.paths, AdmittedPath ⟨true⟩ path) (h : p∈c.targets) : Outside p := by
  obtain ⟨path,hp,rfl⟩ := hdesc.mem_targets h
  exact outside_components (hadm path hp)

namespace Slot

variable {hash : Bytes → Digest} {limits : FileTransactionLimits} (s : Slot hash limits)

/-- The staged contents. -/
abbrev stage : Path := stagePath transactionPath s.index

/-- The preserved or removed file. -/
abbrev removed : Path := removedPath transactionPath s.index

/-- Every name the action can bind or unbind. -/
abbrev footprint : Path → Prop := s.change.footprint s.index

theorem mem_targets {p : Path} (h : p∈s.change.targets) :
    ∃ path∈s.action.paths, p=components path := s.describes.mem_targets h

theorem outside_target {p : Path} (h : p∈s.change.targets) : Outside p :=
  s.describes.outside_target s.admitted h

end Slot

/-! ## States of one action -/

/-- A name is bound to a file with the given contents. -/
def Holds (t : Tree) (p : Path) (bytes : Bytes) : Prop :=
  ∃ i, t.node p=some (.file i) ∧ t.data i=bytes

/-- The state in which preparation leaves an action whose journal is at `journal`. -/
def PreparedIn (journal : Path) (index : ℕ) (t : Tree) : Change → Prop
  | .create target bytes => Holds t (stagePath journal index) bytes ∧ t.Free target
  | .move source target bytes => Holds t source bytes ∧ t.Free target
  | .remove source bytes => Holds t source bytes ∧ t.Free (removedPath journal index)
  | .replace target old new => Holds t target old ∧ Holds t (removedPath journal index) old ∧
      Holds t (stagePath journal index) new

abbrev Prepared := PreparedIn transactionPath

/-- A state of an action from which its old contents can be restored; `b` is the tree
at publication. -/
def Rollbackable (index : ℕ) (b t : Tree) : Change → Prop
  | .create target bytes =>
      (t.node target=none ∧ FileOrAbsent t (stagePath transactionPath index)) ∨
      ∃ i, t.node target=some (.file i) ∧ t.data i=bytes ∧
        (t.node (stagePath transactionPath index)=none ∨
          t.node (stagePath transactionPath index)=some (.file i))
  | .move source target _ =>
      (t.node source=b.node source ∧ t.node target=none) ∨
      (t.node source=b.node source ∧ t.node target=b.node source) ∨
      (t.node source=none ∧ t.node target=b.node source)
  | .remove source _ =>
      (t.node source=b.node source ∧ t.node (removedPath transactionPath index)=none) ∨
      (t.node source=none ∧ t.node (removedPath transactionPath index)=b.node source)
  | .replace target old new =>
      FileOrAbsent t (stagePath transactionPath index) ∧
      ((Holds t target old ∧ (t.node (removedPath transactionPath index)=none ∨
          Holds t (removedPath transactionPath index) old)) ∨
        (Holds t target new ∧ Holds t (removedPath transactionPath index) old))

/-- The names of a change show what the publication tree shows. -/
def Restored (b t : Tree) (c : Change) : Prop := ∀ p∈c.targets, t.entry p=b.entry p

/-- The names of a change show the change made. -/
def Applied (b t : Tree) (c : Change) : Prop := ∀ p∈c.targets, t.entry p=c.apply b.entry p

theorem Holds.entry {bytes : Bytes} (h : Holds t p bytes) : t.entry p=some (.file bytes) := by
  obtain ⟨i,hn,hd⟩ := h
  simp [FileTree.entry,hn,hd]

theorem entry_of_node_none (h : t.node p=none) : t.entry p=none := by
  simp [FileTree.entry,h]

/-- The tree has every directory of `b` and the contents of its inodes. -/
structure Follows (b t : Tree) : Prop where
  directory : ∀ q, b.node q=some .directory → t.node q=some .directory
  data : ∀ i, i < b.next → t.data i=b.data i

theorem follows_of_keeps (h : FileTree.Keeps P b t) (hP : ∀ q, P q → b.node q≠some .directory) :
    Follows b t where
  directory q hq := by
    rw [h.node q fun hp => hP q hp hq,hq]
  data := h.data

theorem Follows.holds {bytes : Bytes} (hf : Follows b t) (h : Holds b p bytes)
    (hn : t.node p=b.node p) : Holds t p bytes := by
  obtain ⟨i,hi,hd⟩ := h
  exact ⟨i,by rw [hn,hi],by rw [hf.data i (b.inode_lt p i hi),hd]⟩

/-- A name whose directory `b` has is free in `t` once it is unbound there. -/
theorem Follows.free (hf : Follows b t) (hp : p≠[])
    (hpar : b.node (FileTree.parent p)=some .directory) (hn : t.node p=none) : t.Free p :=
  ⟨hp,hf.directory _ hpar,hn⟩

variable {t' : Tree}

/-- Frame: what the state of an action says survives any step that leaves its names. -/
theorem Rollbackable.keeps (h : Rollbackable index b t c) (hk : FileTree.Keeps P t t')
    (hs : ¬ P (stagePath transactionPath index)) (hr : ¬ P (removedPath transactionPath index))
    (ht : ∀ p∈c.targets, ¬ P p) : Rollbackable index b t' c := by
  have hdata : ∀ {p i}, t.node p=some (.file i) → t'.data i=t.data i :=
    fun hp => hk.data _ (t.inode_lt _ _ hp)
  have holds : ∀ {p bytes}, ¬ P p → Holds t p bytes → Holds t' p bytes := by
    rintro p bytes hp ⟨i,hi,hd⟩
    exact ⟨i,by rw [hk.node p hp,hi],by rw [hdata hi,hd]⟩
  cases c with
  | create target bytes =>
    have htn := hk.node target (ht target (by simp [Change.targets]))
    simp only [Rollbackable,FileOrAbsent,htn,hk.node _ hs] at h ⊢
    rcases h with h | ⟨i,hi,hd,h⟩
    · exact .inl h
    · exact .inr ⟨i,hi,by rw [hdata hi,hd],h⟩
  | move source target bytes =>
    simpa only [Rollbackable,hk.node source (ht source (by simp [Change.targets])),
      hk.node target (ht target (by simp [Change.targets]))] using h
  | remove source bytes =>
    simpa only [Rollbackable,hk.node source (ht source (by simp [Change.targets])),
      hk.node _ hr] using h
  | replace target old new =>
    have htp := ht target (by simp [Change.targets])
    obtain ⟨hstage,h⟩ := h
    refine ⟨by simpa only [FileOrAbsent,hk.node _ hs] using hstage,?_⟩
    rcases h with ⟨h₁,h₂⟩ | ⟨h₁,h₂⟩
    · refine .inl ⟨holds htp h₁,?_⟩
      rcases h₂ with h₂ | h₂
      · exact .inl (by rw [hk.node _ hr,h₂])
      · exact .inr (holds hr h₂)
    · exact .inr ⟨holds htp h₁,holds hr h₂⟩

/-- Frame: a prepared action stays prepared when its names and the directories stay. -/
theorem PreparedIn.keeps {journal : Path} (h : PreparedIn journal index t c)
    (hk : FileTree.Keeps P t t') (hs : ¬ P (stagePath journal index))
    (hr : ¬ P (removedPath journal index)) (ht : ∀ p∈c.targets, ¬ P p)
    (hd : ∀ p, t.node p=some .directory → t'.node p=some .directory) :
    PreparedIn journal index t' c := by
  have holds : ∀ {p bytes}, ¬ P p → Holds t p bytes → Holds t' p bytes := by
    rintro p bytes hp ⟨i,hi,hdata⟩
    exact ⟨i,by rw [hk.node p hp,hi],by rw [hk.data i (t.inode_lt p i hi),hdata]⟩
  have free : ∀ {p}, ¬ P p → t.Free p → t'.Free p := fun hp hf =>
    ⟨hf.ne_root,hd _ hf.parent,by rw [hk.node _ hp,hf.node]⟩
  cases c with
  | create target bytes => exact ⟨holds hs h.1,free (ht target (by simp [Change.targets])) h.2⟩
  | move source target bytes =>
    exact ⟨holds (ht source (by simp [Change.targets])) h.1,
      free (ht target (by simp [Change.targets])) h.2⟩
  | remove source bytes =>
    exact ⟨holds (ht source (by simp [Change.targets])) h.1,free hr h.2⟩
  | replace target old new =>
    exact ⟨holds (ht target (by simp [Change.targets])) h.1,holds hr h.2.1,holds hs h.2.2⟩

theorem rollbackable_of_prepared (h : Prepared index t c)
    (ht : ∀ p∈c.targets, t.node p=b.node p) : Rollbackable index b t c := by
  cases c with
  | create target bytes =>
    obtain ⟨⟨i,hi,-⟩,hfree⟩ := h
    exact .inl ⟨hfree.node,.inr ⟨i,hi⟩⟩
  | move source target bytes => exact .inl ⟨ht source (by simp [Change.targets]),h.2.node⟩
  | remove source bytes => exact .inl ⟨ht source (by simp [Change.targets]),h.2.node⟩
  | replace target old new =>
    obtain ⟨htgt,hrem,⟨k,hk,-⟩⟩ := h
    exact ⟨.inr ⟨k,hk⟩,.inl ⟨htgt,.inr hrem⟩⟩

end Ash.JournalStates
