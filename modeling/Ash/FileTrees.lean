import Mathlib.Data.List.Infix

/-! # Trees of files with shared inodes

A tree maps paths to nodes and inode numbers to contents; two names of one inode
are hard links.  Every name below the root stands in a directory, and every inode
in use is below the next free number, so a tree that breaks either cannot be built.

The primitives are the ones a Unix program has.  They answer with the error kind a
caller can test for and leave the tree unchanged when they fail. -/

namespace Ash.FileTrees

/-- What a path names.  Links are leaves: no primitive here follows one. -/
inductive Node where
  | file (inode : ℕ)
  | directory
  | symlink
  deriving DecidableEq

/-- The error kinds a caller distinguishes. -/
inductive IoError where
  | notFound
  | alreadyExists
  | notADirectory
  | isADirectory
  | directoryNotEmpty
  | other
  deriving DecidableEq

structure FileTree (Name Byte : Type) where
  node : List Name → Option Node
  data : ℕ → List Byte
  next : ℕ
  root_directory : node []=some .directory
  parent_directory : ∀ p c, node (p++[c])≠none → node p=some .directory
  inode_lt : ∀ p i, node p=some (.file i) → i < next

namespace FileTree

variable {Name Byte : Type}
variable {t t' : FileTree Name Byte} {p q : List Name} {n : Node} {i : ℕ} {bytes : List Byte}

/-- The directory a path stands in. -/
abbrev parent (p : List Name) : List Name := p.dropLast

theorem node_parent (t : FileTree Name Byte) (hp : p≠[]) (h : t.node p≠none) :
    t.node (parent p)=some .directory := by
  rw [← List.dropLast_append_getLast hp] at h
  exact t.parent_directory _ _ h

/-- Every proper prefix of a path whose parent is a directory is a directory. -/
theorem node_of_prefix_parent (t : FileTree Name Byte)
    (h : t.node (parent p)=some .directory) (hq : q <+: p) (hne : q≠p) :
    t.node q=some .directory := by
  obtain ⟨r,rfl⟩ := hq
  induction r using List.reverseRecOn with
  | nil => simp at hne
  | append_singleton r c ih =>
    rw [← List.append_assoc,parent,List.dropLast_concat] at h
    by_cases hr : r=[]
    · simpa [hr] using h
    · refine ih ?_ (by simpa using hr)
      exact t.node_parent (by simp [hr]) (by simp [h])

theorem no_child_of_not_directory (t : FileTree Name Byte)
    (h : t.node p≠some .directory) {r : List Name} (hr : r≠[]) : t.node (p++r)=none := by
  by_contra hn
  have hdir := t.node_parent (by simp [hr]) hn
  exact h (t.node_of_prefix_parent (p := p++r) hdir (List.prefix_append p r) (by simpa using hr))

/-- The kind of failure at a path that is not there. -/
def missing (t : FileTree Name Byte) (p : List Name) : IoError :=
  if p.inits.any fun q => t.node q != none && t.node q != some .directory then .notADirectory
  else .notFound

theorem missing_eq_notFound (h : t.node (parent p)=some .directory) (hp : t.node p=none) :
    t.missing p=.notFound := by
  have hall : ∀ q∈p.inits, (t.node q != none && t.node q != some .directory)=false := by
    intro q hq
    by_cases hqp : q=p
    · simp [hqp,hp]
    · have := t.node_of_prefix_parent h ((List.mem_inits q p).1 hq) hqp
      simp [this]
  simp only [missing,List.any_eq_true]
  rw [if_neg]
  rintro ⟨q,hq,h'⟩
  rw [hall q hq] at h'
  cases h'

/-! ## Frames -/

/-- Outside `P` the names are those of `t`, and no inode of `t` changed its contents. -/
structure Keeps (P : List Name → Prop) (t t' : FileTree Name Byte) : Prop where
  node : ∀ q, ¬ P q → t'.node q=t.node q
  data : ∀ i, i < t.next → t'.data i=t.data i
  next : t.next ≤ t'.next

variable {P R : List Name → Prop}

theorem Keeps.refl (t : FileTree Name Byte) : Keeps P t t :=
  ⟨fun _ _ => rfl,fun _ _ => rfl,le_refl _⟩

theorem Keeps.trans {t₁ t₂ t₃ : FileTree Name Byte} (h : Keeps P t₁ t₂) (h' : Keeps P t₂ t₃) :
    Keeps P t₁ t₃ where
  node q hq := (h'.node q hq).trans (h.node q hq)
  data i hi := (h'.data i (lt_of_lt_of_le hi h.next)).trans (h.data i hi)
  next := h.next.trans h'.next

theorem Keeps.mono (h : Keeps P t t') (hPR : ∀ q, P q → R q) : Keeps R t t' :=
  ⟨fun q hq => h.node q fun hp => hq (hPR q hp),h.data,h.next⟩

/-- What a reader sees at a path: the contents, not the inode. -/
inductive Entry (Byte : Type) where
  | file (bytes : List Byte)
  | directory
  | symlink
  deriving DecidableEq

def entry (t : FileTree Name Byte) (p : List Name) : Option (Entry Byte) :=
  (t.node p).map fun
    | .file i => .file (t.data i)
    | .directory => .directory
    | .symlink => .symlink

theorem Keeps.entry (h : Keeps P t t') (hp : ¬ P p) : t'.entry p=t.entry p := by
  unfold FileTree.entry
  rw [h.node p hp]
  cases hn : t.node p with
  | none => rfl
  | some n =>
    cases n with
    | file i => simp [h.data i (t.inode_lt p i hn)]
    | directory => rfl
    | symlink => rfl

/-! ## Building blocks -/

variable [DecidableEq Name]

/-- Bind `p` to a leaf or to an empty directory. -/
def put (t : FileTree Name Byte) (p : List Name) (n : Node) (hp : p≠[])
    (hpar : t.node (parent p)=some .directory) (hleaf : t.node p≠some .directory)
    (hn : ∀ i, n=.file i → i < t.next) : FileTree Name Byte where
  node := Function.update t.node p (some n)
  data := t.data
  next := t.next
  root_directory := by rw [Function.update_of_ne hp.symm]; exact t.root_directory
  parent_directory := by
    intro q c h
    have hq : t.node q=some .directory := by
      by_cases hqc : q++[c]=p
      · rwa [← hqc,parent,List.dropLast_concat] at hpar
      · rw [Function.update_of_ne hqc] at h
        exact t.parent_directory q c h
    have hqp : q≠p := by rintro rfl; exact hleaf hq
    rw [Function.update_of_ne hqp]
    exact hq
  inode_lt := by
    intro q i h
    by_cases hq : q=p
    · subst hq
      rw [Function.update_self] at h
      exact hn i (Option.some.inj h)
    · rw [Function.update_of_ne hq] at h
      exact t.inode_lt q i h

/-- Take a fresh inode with the given contents. -/
def allocate (t : FileTree Name Byte) (bytes : List Byte) : FileTree Name Byte where
  node := t.node
  data := Function.update t.data t.next bytes
  next := t.next+1
  root_directory := t.root_directory
  parent_directory := t.parent_directory
  inode_lt q i h := Nat.lt_succ_of_lt (t.inode_lt q i h)

/-- Unbind a name that is not a directory. -/
def erase (t : FileTree Name Byte) (p : List Name) (hleaf : t.node p≠some .directory) :
    FileTree Name Byte where
  node := Function.update t.node p none
  data := t.data
  next := t.next
  root_directory := by
    have hp : []≠p := by rintro rfl; exact hleaf t.root_directory
    rw [Function.update_of_ne hp]
    exact t.root_directory
  parent_directory := by
    intro q c h
    have hq : t.node q=some .directory := by
      by_cases hqc : q++[c]=p
      · rw [hqc,Function.update_self] at h
        exact absurd rfl h
      · rw [Function.update_of_ne hqc] at h
        exact t.parent_directory q c h
    have hqp : q≠p := by rintro rfl; exact hleaf hq
    rw [Function.update_of_ne hqp]
    exact hq
  inode_lt := by
    intro q i h
    by_cases hq : q=p
    · rw [hq,Function.update_self] at h
      cases h
    · rw [Function.update_of_ne hq] at h
      exact t.inode_lt q i h

/-- Unbind a directory with everything below it. -/
def eraseBelow (t : FileTree Name Byte) (p : List Name) (hp : p≠[]) : FileTree Name Byte where
  node q := if p <+: q then none else t.node q
  data := t.data
  next := t.next
  root_directory := by simp [hp,t.root_directory]
  parent_directory := by
    intro q c h
    split at h
    · exact absurd rfl h
    · next hpq =>
      rw [if_neg fun hq => hpq (hq.trans (List.prefix_append q [c]))]
      exact t.parent_directory q c h
  inode_lt := by
    intro q i h
    split at h
    · cases h
    · exact t.inode_lt q i h

/-- Move everything at or below `a` to `b`. -/
def moveBelow (t : FileTree Name Byte) (a b : List Name) (hab : ¬ a <+: b) (hb : b≠[])
    (hpar : t.node (parent b)=some .directory) : FileTree Name Byte where
  node q := if b <+: q then t.node (a++q.drop b.length)
    else if a <+: q then none else t.node q
  data := t.data
  next := t.next
  root_directory := by
    have ha : ¬ a <+: [] := fun h => hab (by simp [List.prefix_nil.1 h])
    simp [hb,ha,t.root_directory]
  parent_directory := by
    intro q c h
    by_cases hbq : b <+: q
    · have hlen := hbq.length_le
      rw [if_pos (hbq.trans (List.prefix_append q [c])),
        List.drop_append_of_le_length hlen,← List.append_assoc] at h
      rw [if_pos hbq]
      exact t.parent_directory _ c h
    · rw [if_neg hbq]
      by_cases hbqc : b <+: q++[c]
      · -- `b` itself is the child: its parent is an old directory outside `a`
        have heq : b=q++[c] := by
          rcases List.prefix_concat_iff.1 hbqc with e | e
          · simpa using e
          · exact absurd e hbq
        have hq : q=parent b := by rw [heq,parent,List.dropLast_concat]
        rw [if_neg fun h' => hab (h'.trans (by rw [heq]; exact List.prefix_append q [c])),hq]
        exact hpar
      · rw [if_neg hbqc] at h
        split at h
        · exact absurd rfl h
        · next haq =>
          rw [if_neg fun h' => haq (h'.trans (List.prefix_append q [c]))]
          exact t.parent_directory q c h
  inode_lt := by
    intro q i h
    split at h
    · exact t.inode_lt _ i h
    · split at h
      · cases h
      · exact t.inode_lt q i h

/-! ## Primitives -/

def createDir (t : FileTree Name Byte) (p : List Name) : Except IoError (FileTree Name Byte) :=
  if h : p≠[] ∧ t.node (parent p)=some .directory ∧ t.node p=none then
    .ok (t.put p .directory h.1 h.2.1 (by simp [h.2.2]) (by simp))
  else .error (if t.node p=none then t.missing p else .alreadyExists)

/-- Create a file that must not exist yet, empty, and open it. -/
def createNew (t : FileTree Name Byte) (p : List Name) :
    Except IoError (ℕ × FileTree Name Byte) :=
  if h : p≠[] ∧ t.node (parent p)=some .directory ∧ t.node p=none then
    .ok (t.next,(t.allocate []).put p (.file t.next) h.1 h.2.1 (by simp [allocate,h.2.2])
      (by simp [allocate]))
  else .error (if t.node p=none then t.missing p else .alreadyExists)

/-- Append to an open file. -/
def write (t : FileTree Name Byte) (i : ℕ) (bytes : List Byte) : FileTree Name Byte :=
  { t with data := Function.update t.data i (t.data i++bytes) }

/-- Put a file with the given contents at `p` in one step, over any file there. -/
def replaceFile (t : FileTree Name Byte) (p : List Name) (bytes : List Byte) :
    Except IoError (FileTree Name Byte) :=
  if h : p≠[] ∧ t.node (parent p)=some .directory ∧ t.node p≠some .directory then
    .ok ((t.allocate bytes).put p (.file t.next) h.1 h.2.1 h.2.2 (by simp [allocate]))
  else .error (if t.node p=none then t.missing p else .isADirectory)

def hardLink (t : FileTree Name Byte) (a b : List Name) : Except IoError (FileTree Name Byte) :=
  match ha : t.node a with
  | some (.file i) =>
      if h : b≠[] ∧ t.node (parent b)=some .directory ∧ t.node b=none then
        .ok (t.put b (.file i) h.1 h.2.1 (by simp [h.2.2])
          (by rintro j ⟨⟩; exact t.inode_lt a i ha))
      else .error (if t.node b=none then t.missing b else .alreadyExists)
  | some _ => .error .other
  | none => .error (t.missing a)

def removeFile (t : FileTree Name Byte) (p : List Name) : Except IoError (FileTree Name Byte) :=
  match t.node p with
  | none => .error (t.missing p)
  | some _ => if h : t.node p≠some .directory then .ok (t.erase p h) else .error .isADirectory

def removeDirAll (t : FileTree Name Byte) (p : List Name) : Except IoError (FileTree Name Byte) :=
  match hp : t.node p with
  | none => .error (t.missing p)
  | some .directory => if h : p≠[] then .ok (t.eraseBelow p h) else .error .other
  | some .symlink => .ok (t.erase p (by simp [hp]))
  | some (.file _) => .error .notADirectory

/-- Rename, over any file at `b`.  A directory moves only to a free name. -/
def rename (t : FileTree Name Byte) (a b : List Name) : Except IoError (FileTree Name Byte) :=
  match ha : t.node a with
  | none => .error (t.missing a)
  | some .directory =>
      if h : ¬ a <+: b ∧ b≠[] ∧ t.node (parent b)=some .directory ∧ t.node b=none then
        .ok (t.moveBelow a b h.1 h.2.1 h.2.2.1)
      else .error (if t.node b=none then t.missing b else .directoryNotEmpty)
  | some n =>
      -- two names of one file: nothing happens
      if t.node b=some n then .ok t
      else if h : b≠[] ∧ t.node (parent b)=some .directory ∧ t.node b≠some .directory ∧
          t.node a≠some .directory ∧ parent b≠a then
        .ok ((t.erase a h.2.2.2.1).put b n h.1
          (by simp only [erase]; rw [Function.update_of_ne h.2.2.2.2]; exact h.2.1)
          (by
            simp only [erase]
            by_cases hba : b=a
            · rw [hba,Function.update_self]; simp
            · rw [Function.update_of_ne hba]; exact h.2.2.1)
          (by rintro j rfl; exact t.inode_lt a j ha))
      else .error (if t.node b=none then t.missing b else .isADirectory)

end FileTree

end Ash.FileTrees
