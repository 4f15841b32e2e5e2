import Ash.ByteCodecs
import Ash.FileTrees
import Mathlib.Data.List.Dedup

/-! # Trees with symbolic links

A disk maps absolute paths to nodes and directories to the names in them.  Every name stands in
a directory, and the names are those a Unix file system allows.  Resolution follows links
component by component, up to a limit on their number. -/

namespace Ash.LinkedTrees
open ByteCodecs FileTrees

abbrev Path := List Text

inductive Kind where
  | file (bytes : Bytes)
  | directory
  | symlink (target : Text)
  | other
  deriving DecidableEq

/-- A node, with the time of its last change in nanoseconds since the epoch. -/
structure Node where
  kind : Kind
  modified : Option ℤ
  deriving DecidableEq

/-- A name that a directory can hold. -/
structure IsName (name : Text) : Prop where
  nonempty : name≠[]
  current : name≠['.']
  parent : name≠['.','.']
  slash : '/'∉name
  nul : '\x00'∉name

theorem isName_iff {name : Text} : IsName name ↔
    name≠[] ∧ name≠['.'] ∧ name≠['.','.'] ∧ '/'∉name ∧ '\x00'∉name :=
  ⟨fun h => ⟨h.nonempty,h.current,h.parent,h.slash,h.nul⟩,fun h =>
    ⟨h.1,h.2.1,h.2.2.1,h.2.2.2.1,h.2.2.2.2⟩⟩

instance (name : Text) : Decidable (IsName name) := decidable_of_iff' _ isName_iff

structure Disk where
  node : Path → Option Node
  names : Path → List Text
  maxLinks : ℕ
  root : (node []).map Node.kind=some .directory
  named : ∀ directory name, name∈names directory ↔ node (directory++[name])≠none
  nodup : ∀ directory, (names directory).Nodup
  valid : ∀ directory name, node (directory++[name])≠none → IsName name
  inside : ∀ directory name, node (directory++[name])≠none →
    (node directory).map Node.kind=some .directory

namespace Disk

variable (disk : Disk)

def kind (path : Path) : Option Kind := (disk.node path).map Node.kind

/-! ## Resolution -/

inductive Component where
  | current
  | parent
  | name (name : Text)

/-- The components of the target of a link; one that ends in a slash is a directory. -/
def components (target : Text) : List Component :=
  (target.splitOn '/').map fun component =>
    if component=[] ∨ component=['.'] then .current
    else if component=['.','.'] then .parent
    else .name component

/-- Follow the components from a directory, with `follow` for the links on the way. -/
def descend (follow : Path → List Component → Except IoError Path) :
    Path → List Component → Except IoError Path
  | base, [] => .ok base
  | base, .current::rest => descend follow base rest
  | base, .parent::rest => descend follow base.dropLast rest
  | base, .name name::rest =>
      match disk.kind (base++[name]) with
      | none => .error .notFound
      | some .directory => descend follow (base++[name]) rest
      | some (.symlink target) =>
          follow (if target.head?=some '/' then [] else base) (components target++rest)
      | some _ => if rest.isEmpty then .ok (base++[name]) else .error .notADirectory

/-- Resolution with at most so many links. -/
def resolve : ℕ → Path → List Component → Except IoError Path
  | 0 => disk.descend fun _ _ => .error .other
  | links+1 => disk.descend (resolve links)

def canonicalize (path : Path) : Except IoError Path :=
  disk.resolve disk.maxLinks [] (path.map Component.name)

variable {disk} {path directory : Path} {name : Text}

theorem kind_ne_none : disk.kind path≠none ↔ disk.node path≠none := by
  rw [kind,ne_eq,Option.map_eq_none_iff]

theorem kind_inside (h : disk.kind (directory++[name])≠none) :
    disk.kind directory=some .directory :=
  disk.inside directory name (kind_ne_none.1 h)

variable {rest : Path} {follow : Path → List Component → Except IoError Path}

/-- Above a path that exists there are directories only. -/
theorem kind_above (hrest : rest≠[]) (h : disk.kind (directory++rest)≠none) :
    disk.kind directory=some .directory := by
  induction rest using List.reverseRecOn with
  | nil => exact absurd rfl hrest
  | append_singleton rest name ih =>
    rw [← List.append_assoc] at h
    have hins := kind_inside h
    by_cases hnil : rest=[]
    · rwa [hnil,List.append_nil] at hins
    · exact ih hnil (by rw [hins]; simp)

theorem names_eq_nil (h : disk.kind directory≠some .directory) : disk.names directory=[] := by
  refine List.eq_nil_iff_forall_not_mem.2 fun name hname => h ?_
  exact disk.inside directory name ((disk.named directory name).1 hname)

theorem isName_of_mem (h : disk.kind path≠none) (hname : name∈path) : IsName name := by
  obtain ⟨front,back,rfl⟩ := List.append_of_mem hname
  have hexists : disk.kind (front++[name])≠none := by
    by_cases hback : back=[]
    · rwa [hback] at h
    · rw [List.append_cons] at h
      rw [kind_above hback h]
      simp
  exact disk.valid front name (kind_ne_none.1 hexists)

/-- What exists and is no link is where its own path leads. -/
theorem descend_self (directory : Path) (h : disk.kind (directory++rest)≠none)
    (hlink : ∀ target, disk.kind (directory++rest)≠some (.symlink target)) :
    disk.descend follow directory (rest.map Component.name)=.ok (directory++rest) := by
  induction rest generalizing directory with
  | nil => simp [descend]
  | cons name rest ih =>
    rw [List.append_cons] at h hlink ⊢
    rw [List.map_cons,descend]
    by_cases hrest : rest=[]
    · subst hrest
      rw [List.append_nil] at h hlink ⊢
      cases hkind : disk.kind (directory++[name]) with
      | none => exact absurd hkind h
      | some kind =>
        cases kind with
        | symlink target => exact absurd hkind (hlink target)
        | directory => simp [descend]
        | file bytes => simp
        | other => simp
    · rw [kind_above hrest h]
      exact ih _ h hlink

theorem canonicalize_self (h : disk.kind path≠none)
    (hlink : ∀ target, disk.kind path≠some (.symlink target)) :
    disk.canonicalize path=.ok path := by
  have hself : ∀ follow, disk.descend follow [] (path.map Component.name)=.ok path :=
    fun follow => descend_self [] h hlink
  rw [canonicalize]
  cases disk.maxLinks with
  | zero => exact hself _
  | succ links => exact hself _

/-- Resolution ends at something that exists and is no link. -/
def IsTarget (disk : Disk) (path : Path) : Prop :=
  disk.kind path≠none ∧ ∀ target, disk.kind path≠some (.symlink target)

theorem isTarget_of_directory (h : disk.kind path=some .directory) : disk.IsTarget path :=
  ⟨by rw [h]; simp,by rw [h]; simp⟩

theorem kind_dropLast (h : disk.kind path=some .directory) :
    disk.kind path.dropLast=some .directory := by
  cases path using List.reverseRecOn with
  | nil => exact h
  | append_singleton front name =>
    rw [List.dropLast_concat]
    exact kind_inside (by rw [h]; simp)

/-- Only the last component may be no directory. -/
theorem last_of_ok {rest : List Component} {last : Path}
    (h : (if rest.isEmpty then .ok last else .error .notADirectory : Except IoError Path) =
      .ok path) : last=path := by
  split at h
  · exact Except.ok.inj h
  · cases h

theorem descend_spec
    (hfollow : ∀ base rest path, disk.kind base=some .directory → follow base rest=.ok path →
      disk.IsTarget path) (base : Path) (rest : List Component)
    (hbase : disk.kind base=some .directory) (h : disk.descend follow base rest=.ok path) :
    disk.IsTarget path := by
  induction rest generalizing base with
  | nil =>
    rw [descend] at h
    cases h
    exact isTarget_of_directory hbase
  | cons component rest ih =>
    cases component with
    | current => exact ih base hbase h
    | parent => exact ih base.dropLast (kind_dropLast hbase) h
    | name name =>
      rw [descend] at h
      cases hkind : disk.kind (base++[name]) with
      | none => simp [hkind] at h
      | some kind =>
        rw [hkind] at h
        cases kind with
        | directory => exact ih _ hkind h
        | symlink target =>
          -- an absolute target starts again at the root, which is a directory too
          refine hfollow _ _ path ?_ h
          split
          · exact disk.root
          · exact hbase
        | file | other =>
          rw [← last_of_ok h]
          exact ⟨by rw [hkind]; simp,by rw [hkind]; simp⟩

theorem resolve_spec (links : ℕ) (base : Path) (rest : List Component)
    (hbase : disk.kind base=some .directory) (h : disk.resolve links base rest=.ok path) :
    disk.IsTarget path := by
  induction links generalizing base rest path with
  | zero => exact descend_spec (fun _ _ _ _ h => by cases h) base rest hbase h
  | succ links ih =>
    exact descend_spec (fun base rest path hbase h => ih base rest hbase h) base rest hbase h

theorem canonicalize_spec {native : Path} (h : disk.canonicalize path=.ok native) :
    disk.IsTarget native :=
  resolve_spec _ _ _ disk.root h

/-! ## Finite trees -/

def nodeIn (entries : List (Path × Node)) (path : Path) : Option Node := entries.lookup path

def namesIn (entries : List (Path × Node)) (directory : Path) : List Text :=
  (entries.filterMap fun entry =>
    if entry.1.dropLast=directory then entry.1.getLast? else none).dedup

/-- Every path but the root has a good name in a directory. -/
def IsTree (entries : List (Path × Node)) : Prop :=
  (nodeIn entries []).map Node.kind=some .directory ∧
    ∀ entry∈entries, ∀ name∈entry.1.getLast?, IsName name ∧
      (nodeIn entries entry.1.dropLast).map Node.kind=some .directory

instance (entries : List (Path × Node)) : Decidable (IsTree entries) :=
  inferInstanceAs (Decidable (_ ∧ _))

theorem nodeIn_ne_none {entries : List (Path × Node)} :
    nodeIn entries path≠none ↔ ∃ entry∈entries, entry.1=path := by
  rw [nodeIn,ne_eq,List.lookup_eq_none_iff]
  simp only [not_forall,bne_iff_ne,ne_eq,not_not,exists_prop]
  exact exists_congr fun entry => and_congr_right fun _ => eq_comm

theorem mem_namesIn {entries : List (Path × Node)} :
    name∈namesIn entries directory ↔ nodeIn entries (directory++[name])≠none := by
  rw [nodeIn_ne_none,namesIn,List.mem_dedup,List.mem_filterMap]
  refine exists_congr fun entry => and_congr_right fun _ => ?_
  constructor
  · intro h
    split at h
    · next hdir => rw [← hdir,List.dropLast_append_getLast? name h]
    · cases h
  · intro h
    rw [h,List.dropLast_concat,if_pos rfl,List.getLast?_concat]

/-- The disk with the given entries. -/
def ofEntries (entries : List (Path × Node)) (maxLinks : ℕ) (h : IsTree entries) : Disk where
  node := nodeIn entries
  names := namesIn entries
  maxLinks := maxLinks
  root := h.1
  named _ _ := mem_namesIn
  nodup _ := List.nodup_dedup _
  valid directory name hnode := by
    obtain ⟨entry,hmem,hpath⟩ := nodeIn_ne_none.1 hnode
    exact (h.2 entry hmem name (by rw [hpath,List.getLast?_concat]; rfl)).1
  inside directory name hnode := by
    obtain ⟨entry,hmem,hpath⟩ := nodeIn_ne_none.1 hnode
    have hins := (h.2 entry hmem name (by rw [hpath,List.getLast?_concat]; rfl)).2
    rwa [hpath,List.dropLast_concat] at hins

end Disk

end Ash.LinkedTrees
