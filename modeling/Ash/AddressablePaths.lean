import Ash.TreeOperations
import Ash.VisibleTrees

/-! # Addresses of listed paths

The logical path of an entry names it again just when the checks of logical paths accept it. -/

namespace Ash.AddressablePaths
open ByteCodecs DirectoryWalks LinkedTrees LogicalPaths Outcomes TreeOperations VisibleTrees
  WalkedPaths WorkspacePaths
open NativeWorkspace (joinNames)
open WorkspaceOperations (byteLength Digest PlatformError)

variable {workspace : NativeWorkspace} {disk : Disk} {native : Path}

/-- A text of good names that the checks of logical paths accept. -/
structure IsAddress (logical : Text) : Prop where
  bounded : byteLength logical ≤ 4096
  colon : ':'∉logical
  backslash : '\\'∉logical

/-- The logical path is accepted and not reserved. -/
structure Addressable (workspace : NativeWorkspace) (native : Path) : Prop where
  address : IsAddress (logicalOf workspace native)
  unreserved : workspace.internalState=true → ¬ Reserved workspace native

theorem mem_joinNames {names : Path} {c : Char} (h : c∈joinNames names) :
    c = '/' ∨ ∃ name∈names, c∈name := by
  induction names with
  | nil => exact absurd h List.not_mem_nil
  | cons name names ih =>
    by_cases hnil : names=[]
    · subst hnil
      exact .inr ⟨name,List.mem_cons_self,by simpa [joinNames] using h⟩
    · rw [← List.singleton_append,joinNames_append (List.cons_ne_nil _ _) hnil] at h
      rcases List.mem_append.1 h with h | h
      · exact .inr ⟨name,List.mem_cons_self,by simpa [joinNames] using h⟩
      · rcases List.mem_cons.1 h with h | h
        · exact .inl h
        · rcases ih h with h | ⟨found,hfound,h⟩
          · exact .inl h
          · exact .inr ⟨found,List.mem_cons_of_mem _ hfound,h⟩

/-- A text whose components are names can only be too long or hold a forbidden character. -/
theorem validateLogical_joinNames {names : Path} (hnames : AreNames names) (hne : names≠[]) :
    validateLogical (joinNames names)=.ok () ↔ IsAddress (joinNames names) := by
  have hsplit := splitOn_joinNames hnames hne
  have hempty : []∉(joinNames names).splitOn '/' := by
    rw [hsplit]
    exact fun h => (hnames _ h).nonempty rfl
  have hnonempty : joinNames names≠[] := by
    intro h
    rw [h] at hempty
    exact hempty (by decide)
  have hhead : (joinNames names).head?≠some '/' := by
    intro h
    obtain ⟨rest,hrest⟩ := List.head?_eq_some_iff.1 h
    rw [hrest] at hempty
    refine hempty ?_
    rw [← List.nil_append ('/'::rest),List.splitOn,List.splitOnP_append_cons _ _ (by simp),
      List.splitOnP_nil]
    exact List.mem_append_left _ (List.mem_singleton.2 rfl)
  have hlast : (joinNames names).getLast?≠some '/' := by
    intro h
    obtain ⟨rest,hrest⟩ := List.getLast?_eq_some_iff.1 h
    rw [hrest] at hempty
    refine hempty ?_
    rw [List.splitOn,List.splitOnP_append_cons _ _ (by simp),List.splitOnP_nil]
    exact List.mem_append_right _ (List.mem_singleton.2 rfl)
  have hnul : '\x00'∉joinNames names := by
    intro h
    rcases mem_joinNames h with h | ⟨name,hname,h⟩
    · exact absurd h (by decide)
    · exact (hnames name hname).nul h
  have hcomps : ((joinNames names).splitOn '/').any (fun component =>
      component == [] || component == ".".toList || component == "..".toList)=false := by
    rw [hsplit,List.any_eq_false]
    intro name hname
    have := hnames name hname
    simpa using ⟨⟨this.nonempty,this.current⟩,this.parent⟩
  have hchars : (joinNames names).any (fun c => c == '\x00' || c == '\\' || c == ':')=true ↔
      '\\'∈joinNames names ∨ ':'∈joinNames names := by
    simp only [List.any_eq_true,Bool.or_eq_true,beq_iff_eq]
    constructor
    · rintro ⟨c,hc,(rfl | rfl) | rfl⟩
      · exact absurd hc hnul
      · exact .inl hc
      · exact .inr hc
    · rintro (h | h)
      · exact ⟨_,h,.inl (.inr rfl)⟩
      · exact ⟨_,h,.inr rfl⟩
  rw [validateLogical]
  simp only [hnonempty,hhead,hlast,hcomps,hchars,false_or,or_false,Bool.false_eq_true,and_false]
  split
  · next h =>
    refine iff_of_false (by rintro ⟨⟩) fun hvalid => ?_
    rcases h with h | h | h
    · exact absurd hvalid.bounded (not_le.2 h)
    · exact hvalid.backslash h
    · exact hvalid.colon h
  · next h =>
    rw [not_or,not_or,not_lt] at h
    exact iff_of_true rfl ⟨h.1,h.2.2,h.2.1⟩

section
variable (h : IsInside workspace disk native)
include h

theorem validateLogical_logicalOf :
    validateLogical (logicalOf workspace native)=.ok () ↔
      IsAddress (logicalOf workspace native) := by
  obtain ⟨names,hnames,rfl⟩ := h.names
  by_cases hnil : names=[]
  · rw [hnil,List.append_nil,logicalOf_root]
    exact iff_of_true (by decide) ⟨by decide,by decide,by decide⟩
  · rw [logicalOf_below hnil]
    exact validateLogical_joinNames hnames hnil

theorem joined_logicalOf : workspace.joined (logicalOf workspace native)=native := by
  obtain ⟨names,hnames,rfl⟩ := h.names
  rw [NativeWorkspace.joined]
  by_cases hnil : names=[]
  · rw [hnil,List.append_nil,logicalOf_root,if_pos rfl]
  · rw [logicalOf_below hnil,if_neg (joinNames_ne_rootLogical hnames hnil),
      splitOn_joinNames hnames hnil]

theorem rejectReserved_logicalOf :
    workspace.rejectReserved (logicalOf workspace native)=.ok () ↔
      (workspace.internalState=true → ¬ Reserved workspace native) := by
  have hresv := isReserved_logicalOf h
  rw [Workspace.rejectReserved]
  split
  · next hboth =>
    obtain ⟨hstate,hname⟩ := Bool.and_eq_true_iff.1 hboth
    exact iff_of_false nofun fun hnot => hnot hstate (hresv.1 hname)
  · next hnot =>
    refine iff_of_true rfl fun hstate hpath => hnot ?_
    rw [hstate,hresv.2 hpath]
    rfl

/-- What exists and is no link is resolved from its logical path, if that is an address. -/
theorem resolve_logicalOf_iff (htgt : disk.IsTarget native) (path : ResolvedPath) :
    workspace.resolveExisting disk (logicalOf workspace native)=.ok path ↔
      Addressable workspace native ∧ path=⟨logicalOf workspace native,native⟩ := by
  have hcan : NativeWorkspace.liftIo (disk.canonicalize
      (workspace.joined (logicalOf workspace native)))=.ok native := by
    rw [joined_logicalOf h,Disk.canonicalize_self htgt.1 htgt.2]
    rfl
  rw [NativeWorkspace.resolveExisting,hcan]
  simp only [bind_unit_ok_iff,validateLogical_logicalOf h,rejectReserved_logicalOf h]
  constructor
  · rintro ⟨hadr,hunreserved,hpath⟩
    simp only [bind,Except.bind,ensureContained_ok h.contained] at hpath
    exact ⟨⟨hadr,hunreserved⟩,(Except.ok.inj hpath).symm⟩
  · rintro ⟨haddr,rfl⟩
    refine ⟨haddr.address,haddr.unreserved,?_⟩
    simp only [bind,Except.bind,ensureContained_ok h.contained]
    rfl

end

/-! ## Entries -/

/-- The kind under which the entry of a path is listed. -/
def entryKind (disk : Disk) (native : Path) : Option EntryKind := (disk.kind native).map classify

theorem kind_entryOf {kind : EntryKind} (h : entryKind disk native=some kind) :
    (entryOf workspace disk native).kind=kind := by
  rw [entryKind,Disk.kind,Option.map_map] at h
  obtain ⟨node,hnode,rfl⟩ := Option.map_eq_some_iff.1 h
  rw [entryOf,hnode]
  rfl

theorem isTarget_of_entryKind {kind : EntryKind} (h : entryKind disk native=some kind)
    (hlink : kind≠.symlink) : disk.IsTarget native := by
  obtain ⟨found,hfound,rfl⟩ := Option.map_eq_some_iff.1 h
  rw [Disk.IsTarget,hfound]
  refine ⟨Option.some_ne_none _,fun target htgt => hlink ?_⟩
  rw [Option.some.inj htgt]
  rfl

theorem size_entryOf {bytes : Bytes} (h : disk.kind native=some (.file bytes)) :
    (entryOf workspace disk native).size=bytes.length := by
  obtain ⟨node,hnode,hkind⟩ := Option.map_eq_some_iff.1 h
  rw [entryOf,hnode]
  change fileSize node.kind=_
  rw [hkind]
  rfl

section
variable (hash : Bytes → Digest)

theorem hashFileLimited_eq (h : IsInside workspace disk native) {bytes : Bytes}
    (hkind : disk.kind native=some (.file bytes)) (logical : Text) :
    hashFileLimited hash workspace disk ⟨logical,native⟩ bytes.length =
      .ok ⟨bytes.length,hash bytes⟩ := by
  have hvalid : workspace.revalidate disk ⟨logical,native⟩=.ok native := by
    rw [NativeWorkspace.revalidate,Disk.canonicalize_self h.exist (by rw [hkind]; simp)]
    simp only [NativeWorkspace.liftIo,Except.mapError,bind,Except.bind,
      ensureContained_ok h.contained]
    rfl
  rw [hashFileLimited,hvalid]
  simp only [bind,Except.bind,hkind,lt_irrefl,if_false]

variable {found : UInt64 × Option Digest} {target : Text}

section
variable (h : IsInside workspace disk native)
include h

/-- A file is identified by its contents, if its logical path is an address. -/
theorem identity_file {bytes : Bytes} (hkind : disk.kind native=some (.file bytes)) :
    identity hash workspace disk (entryOf workspace disk native)=.ok found ↔
      Addressable workspace native ∧ found=(.ofNat bytes.length,some (hash bytes)) := by
  have hentry : entryKind disk native=some .file := by rw [entryKind,hkind]; rfl
  have htgt := isTarget_of_entryKind hentry (by decide)
  rw [identity,kind_entryOf hentry,logical_entryOf,size_entryOf hkind]
  simp only [bind_ok_iff,pure_ok_iff,resolve_logicalOf_iff h htgt]
  constructor
  · rintro ⟨path,⟨haddr,rfl⟩,identity,hidn,rfl⟩
    rw [hashFileLimited_eq hash h hkind] at hidn
    obtain rfl := Except.ok.inj hidn
    exact ⟨haddr,rfl⟩
  · rintro ⟨haddr,rfl⟩
    exact ⟨_,⟨haddr,rfl⟩,_,hashFileLimited_eq hash h hkind _,rfl⟩

theorem symlinkDigest_ok (hroot : native≠workspace.root)
    (hkind : disk.kind native=some (.symlink target)) {digest : Digest} :
    symlinkDigest hash workspace disk (logicalOf workspace native)=.ok digest ↔
      IsAddress (logicalOf workspace native) ∧ digest=hash (utf8 target) := by
  rw [symlinkDigest,bind_unit_ok_iff,validateLogical_logicalOf h]
  refine and_congr_right fun _ => ?_
  obtain ⟨names,hnames,rfl⟩ := h.names
  cases names using List.reverseRecOn with
  | nil => exact absurd (List.append_nil _) hroot
  | append_singleton front name =>
    have hne : front++[name]≠[] := List.append_ne_nil_of_right_ne_nil _ (List.cons_ne_nil _ _)
    rw [← List.append_assoc] at hkind
    have hpar : disk.kind (workspace.root++front)=some .directory :=
      Disk.kind_inside (by rw [hkind]; simp)
    have hcan : disk.canonicalize (workspace.root++front)=.ok (workspace.root++front) :=
      Disk.canonicalize_self (by rw [hpar]; simp) (by rw [hpar]; simp)
    rw [logicalOf_below hne,if_neg (joinNames_ne_rootLogical hnames hne)]
    simp only [splitOn_joinNames hnames hne,List.dropLast_concat,hcan,NativeWorkspace.liftIo,
      Except.mapError,bind,Except.bind,ensureContained_ok (List.prefix_append workspace.root front),
      List.getLast?_concat,Option.toList_some,hkind,Except.ok.injEq]
    exact eq_comm

theorem identity_symlink (hroot : native≠workspace.root)
    (hkind : disk.kind native=some (.symlink target)) :
    identity hash workspace disk (entryOf workspace disk native)=.ok found ↔
      IsAddress (logicalOf workspace native) ∧ found=(0,some (hash (utf8 target))) := by
  have hentry : entryKind disk native=some .symlink := by rw [entryKind,hkind]; rfl
  rw [identity,kind_entryOf hentry,logical_entryOf]
  simp only [bind_ok_iff,pure_ok_iff,symlinkDigest_ok hash h hroot hkind]
  constructor
  · rintro ⟨digest,⟨hadr,rfl⟩,rfl⟩
    exact ⟨hadr,rfl⟩
  · rintro ⟨hadr,rfl⟩
    exact ⟨_,⟨hadr,rfl⟩,rfl⟩

/-- An entry can be identified unless a file or a link has no address. -/
def Identifiable (workspace : NativeWorkspace) (disk : Disk) (native : Path) : Prop :=
  (entryKind disk native=some .file → Addressable workspace native) ∧
    (entryKind disk native=some .symlink → IsAddress (logicalOf workspace native))

theorem exists_identity (hroot : entryKind disk native=some .symlink → native≠workspace.root) :
    (∃ found, identity hash workspace disk (entryOf workspace disk native)=.ok found) ↔
      Identifiable workspace disk native := by
  obtain ⟨kind,hkind⟩ := Option.ne_none_iff_exists'.1 h.exist
  have hentry : entryKind disk native=some (classify kind) := by rw [entryKind,hkind]; rfl
  cases kind with
  | file bytes =>
    simp [Identifiable,identity_file hash h hkind,hentry,classify]
  | symlink target =>
    simp [Identifiable,identity_symlink hash h (hroot hentry) hkind,hentry,classify]
  | directory | other =>
    simp [Identifiable,identity,kind_entryOf hentry,hentry,classify]

end

end

/-! ## Walks from several roots -/

variable {options : WalkOptions} {roots : List ResolvedPath} {batches : List (List NativeEntry)}

/-- Places that resolution can lead to. -/
def AreRoots (workspace : NativeWorkspace) (disk : Disk) (roots : List ResolvedPath) : Prop :=
  ∀ root∈roots, IsInside workspace disk root.native ∧ disk.IsTarget root.native

theorem areRoots_of_mapM {paths : List Text}
    (h : paths.mapM (workspace.resolveExisting disk)=.ok roots) :
    AreRoots workspace disk roots := by
  intro root hroot
  have hall := (mapM_ok_iff (fun _ _ => Iff.rfl) paths roots).1 h
  obtain ⟨path,-,hpath⟩ := exists_mem_of_forall₂_right hall hroot
  exact resolveExisting_spec hpath

/-- A path that the walk from one of the roots lists. -/
def Found (workspace : NativeWorkspace) (disk : Disk) (options : WalkOptions)
    (roots : List ResolvedPath) (path : Path) : Prop :=
  ∃ root∈roots, ∃ rest, Listed workspace disk options root.native path rest

variable {path : Path}

section
variable (hroots : AreRoots workspace disk roots)
include hroots

theorem Found.isInside (h : Found workspace disk options roots path) :
    IsInside workspace disk path := by
  obtain ⟨root,hroot,rest,hlist⟩ := h
  obtain rfl := hlist.below
  exact IsInside.below (hroots root hroot).1 hlist.exist

/-- The root of the workspace is found as a root of a walk only, so it is no link. -/
theorem Found.ne_root (h : Found workspace disk options roots path)
    (hlink : entryKind disk path=some .symlink) : path≠workspace.root := by
  obtain ⟨root,hroot,rest,hlist⟩ := h
  obtain ⟨hins,htgt⟩ := hroots root hroot
  obtain ⟨names,hnames⟩ := hins.contained
  have hpath := hlist.below
  rintro rfl
  have hnil : rest=[] := by
    rw [← hnames,List.append_assoc] at hpath
    exact (List.append_eq_nil_iff.1 (List.self_eq_append_right.1 hpath)).2
  rw [hnil,List.append_nil] at hpath
  obtain ⟨kind,hkind,hclass⟩ := Option.map_eq_some_iff.1 hlink
  cases kind with
  | symlink target => exact htgt.2 target (by rw [← hpath,hkind])
  | file bytes => cases hclass
  | directory => cases hclass
  | other => cases hclass

theorem mem_flatten_batches
    (h : roots.mapM (fun root => workspace.walk disk root options)=.ok batches)
    (entry : NativeEntry) : entry∈batches.flatten ↔
      ∃ path, Found workspace disk options roots path ∧ entry=entryOf workspace disk path := by
  have hall := (mapM_ok_iff (fun _ _ => Iff.rfl) roots batches).1 h
  rw [List.mem_flatten]
  constructor
  · rintro ⟨batch,hbatch,hentry⟩
    obtain ⟨root,hroot,hwalk⟩ := exists_mem_of_forall₂_right hall hbatch
    obtain ⟨hins,htgt⟩ := hroots root hroot
    obtain ⟨rest,hlist,rfl⟩ := ((walk_enumerates hins htgt hwalk).mem entry).1 hentry
    exact ⟨_,⟨root,hroot,rest,hlist⟩,rfl⟩
  · rintro ⟨path,⟨root,hroot,rest,hlist⟩,rfl⟩
    obtain ⟨hins,htgt⟩ := hroots root hroot
    obtain ⟨batch,hbatch,hwalk⟩ := exists_mem_of_forall₂_left hall hroot
    refine ⟨batch,hbatch,((walk_enumerates hins htgt hwalk).mem _).2 ⟨rest,?_,?_⟩⟩
    · have hbelow := hlist.below
      rwa [hbelow] at hlist
    · rw [hlist.below]

/-- Every entry of a batch has its own logical path. -/
theorem logical_injective
    (h : roots.mapM (fun root => workspace.walk disk root options)=.ok batches) :
    ∀ left∈batches.flatten, ∀ right∈batches.flatten,
      left.logical=right.logical → left=right := by
  intro left hleft right hright heq
  obtain ⟨path,hpath,rfl⟩ := (mem_flatten_batches hroots h left).1 hleft
  obtain ⟨path',hpath',rfl⟩ := (mem_flatten_batches hroots h right).1 hright
  rw [logical_entryOf,logical_entryOf] at heq
  rw [logicalOf_injective (hpath.isInside hroots) (hpath'.isInside hroots) heq]

end

theorem exists_resolve (h : IsInside workspace disk path) {kind : EntryKind}
    (hkind : entryKind disk path=some kind) (hlink : kind≠.symlink) :
    (∃ found, workspace.resolveExisting disk (logicalOf workspace path)=.ok found) ↔
      Addressable workspace path := by
  simp only [resolve_logicalOf_iff h (isTarget_of_entryKind hkind hlink),exists_and_left,exists_eq,
    and_true]

theorem entryKind_of_found (h : IsInside workspace disk path) :
    entryKind disk path=some (entryOf workspace disk path).kind := by
  obtain ⟨kind,hkind⟩ := Option.ne_none_iff_exists'.1 h.exist
  have hentry : entryKind disk path=some (classify kind) := by rw [entryKind,hkind]; rfl
  rw [hentry,kind_entryOf hentry]

theorem mem_sortDeduplicateSearchPaths {path : Text} {paths : List Text} :
    path∈sortDeduplicateSearchPaths paths ↔ path∈paths :=
  SortedKeys.mem_sortDedupBy fun _ _ _ _ h => h

/-- A search resolves its files again just when each has an address. -/
theorem searchFiles_iff {paths : List Text} {includeHidden : Bool} {maxSearchEntries : ℕ}
    (hrsl : paths.mapM (workspace.resolveExisting disk)=.ok roots)
    (hwalk : roots.mapM (fun root => workspace.walk disk root
      ⟨searchDepth,includeHidden,maxSearchEntries⟩)=.ok batches) :
    (∃ files, searchFiles workspace disk paths includeHidden maxSearchEntries=.ok files) ↔
      ∀ path, Found workspace disk ⟨searchDepth,includeHidden,maxSearchEntries⟩ roots path →
        entryKind disk path=some .file → Addressable workspace path := by
  have hroots := areRoots_of_mapM hrsl
  have hmem : ∀ logical, logical∈sortDeduplicateSearchPaths ((batches.flatten.filter fun entry =>
      entry.kind=.file).map NativeEntry.logical) ↔ ∃ path, Found workspace disk
        ⟨searchDepth,includeHidden,maxSearchEntries⟩ roots path ∧
          entryKind disk path=some .file ∧ logical=logicalOf workspace path := by
    intro logical
    rw [mem_sortDeduplicateSearchPaths,List.mem_map]
    simp only [List.mem_filter,mem_flatten_batches hroots hwalk,decide_eq_true_eq]
    constructor
    · rintro ⟨entry,⟨⟨path,hfound,rfl⟩,hfile⟩,rfl⟩
      refine ⟨path,hfound,?_,logical_entryOf⟩
      rw [entryKind_of_found (hfound.isInside hroots),hfile]
    · rintro ⟨path,hfound,hfile,rfl⟩
      exact ⟨_,⟨⟨path,hfound,rfl⟩,kind_entryOf hfile⟩,logical_entryOf⟩
  rw [searchFiles,hrsl]
  change (∃ files, (roots.mapM _ >>= _)=Except.ok files) ↔ _
  rw [hwalk]
  change (∃ files, List.mapM _ _=Except.ok files) ↔ _
  rw [exists_mapM_ok]
  constructor
  · intro h path hfound hfile
    exact (exists_resolve (hfound.isInside hroots) hfile (by decide)).1
      (h _ ((hmem _).2 ⟨path,hfound,hfile,rfl⟩))
  · intro h logical hlog
    obtain ⟨path,hfound,hfile,rfl⟩ := (hmem logical).1 hlog
    exact (exists_resolve (hfound.isInside hroots) hfile (by decide)).2 (h path hfound hfile)

theorem identifyEntry_ok {hash : Bytes → Digest} {cancelled : Bool} {entry : NativeEntry}
    {found : SnapshotEntry} :
    identifyEntry hash workspace disk cancelled entry=.ok found ↔ cancelled=false ∧
      ∃ identified, identity hash workspace disk entry=.ok identified ∧
        ⟨entry.logical,fileKind entry.kind,identified.1,identified.2⟩=found := by
  simp only [identifyEntry,require_ok_iff,liftPlatform,bind_ok_iff,mapError_ok_iff,pure_ok_iff,
    exists_const]

/-- A snapshot identifies its entries just when each file and each link has an address. -/
theorem identify_iff (hash : Bytes → Digest) {paths : List Text}
    (hrsl : paths.mapM (workspace.resolveExisting disk)=.ok roots)
    (hwalk : roots.mapM (fun root => workspace.walk disk root options)=.ok batches) :
    (∃ found, (sortEntries batches.flatten).mapM (identifyEntry hash workspace disk false) =
        .ok found) ↔
      ∀ path, Found workspace disk options roots path → Identifiable workspace disk path := by
  have hroots := areRoots_of_mapM hrsl
  have hidentify : ∀ path, Found workspace disk options roots path →
      ((∃ found, identifyEntry hash workspace disk false (entryOf workspace disk path) =
        .ok found) ↔ Identifiable workspace disk path) := by
    intro path hfound
    rw [← exists_identity hash (hfound.isInside hroots) (hfound.ne_root hroots)]
    simp only [identifyEntry_ok,true_and]
    constructor
    · rintro ⟨_,identity,hidn,rfl⟩
      exact ⟨identity,hidn⟩
    · rintro ⟨identity,hidn⟩
      exact ⟨_,identity,hidn,rfl⟩
  rw [exists_mapM_ok]
  simp only [sortEntries,SortedKeys.mem_sortDedupBy (logical_injective hroots hwalk),
    mem_flatten_batches hroots hwalk]
  constructor
  · intro h path hfound
    exact (hidentify path hfound).1 (h _ ⟨path,hfound,rfl⟩)
  · rintro h entry ⟨path,hfound,rfl⟩
    exact (hidentify path hfound).2 (h path hfound)

/-- A workspace with a file whose name has a colon. -/
def colonFile : Disk :=
  Disk.ofEntries [([],⟨.directory,none⟩),([['a',':','b']],⟨.file [],none⟩)] 40 (by decide)

/-- The files and directories of a walk are resolved from their logical paths, each to itself,
just when all have addresses.  A search needs that of the files it finds, and a snapshot of the
files and the links. -/
theorem listed_addressable_iff (hash : Bytes → Digest) (workspace : NativeWorkspace) (disk : Disk) :
    (∀ logical root options entries, workspace.resolveExisting disk logical=.ok root →
      workspace.walk disk root options=.ok entries →
      ((∀ entry∈entries, entry.kind=.file ∨ entry.kind=.directory →
          ∃ native, workspace.resolveExisting disk entry.logical=.ok ⟨entry.logical,native⟩ ∧
            entryOf workspace disk native=entry) ↔
        ∀ path, Found workspace disk options [root] path →
          entryKind disk path=some .file ∨ entryKind disk path=some .directory →
          Addressable workspace path)) ∧
    (∀ (paths : List Text) includeHidden maxSearchEntries roots batches,
      paths.mapM (workspace.resolveExisting disk)=.ok roots →
      roots.mapM (fun root => workspace.walk disk root
        ⟨searchDepth,includeHidden,maxSearchEntries⟩)=.ok batches →
      ((∃ files, searchFiles workspace disk paths includeHidden maxSearchEntries=.ok files) ↔
        ∀ path, Found workspace disk ⟨searchDepth,includeHidden,maxSearchEntries⟩ roots path →
          entryKind disk path=some .file → Addressable workspace path)) ∧
    ∀ (paths : List Text) options roots batches,
      paths.mapM (workspace.resolveExisting disk)=.ok roots →
      roots.mapM (fun root => workspace.walk disk root options)=.ok batches →
      ((∃ found, (sortEntries batches.flatten).mapM (identifyEntry hash workspace disk false) =
          .ok found) ↔
        ∀ path, Found workspace disk options roots path → Identifiable workspace disk path) := by
  refine ⟨?_,fun _ _ _ _ _ => searchFiles_iff,fun _ _ _ _ => identify_iff hash⟩
  intro logical root options entries hrsl hwalk
  obtain ⟨hins,htgt⟩ := resolveExisting_spec hrsl
  have hmem := (walk_enumerates hins htgt hwalk).mem
  have hroots : AreRoots workspace disk [root] := by
    intro found hfound
    obtain rfl := List.mem_singleton.1 hfound
    exact ⟨hins,htgt⟩
  constructor
  · intro h path hfound hkind
    have hpath := hfound.isInside hroots
    obtain ⟨found,hfoundRoot,rest,hlist⟩ := hfound
    obtain rfl := List.mem_singleton.1 hfoundRoot
    obtain rfl := hlist.below
    have hentry := (hmem _).2 ⟨rest,hlist,rfl⟩
    obtain ⟨native,hnative,-⟩ := h _ hentry (hkind.imp kind_entryOf kind_entryOf)
    rw [logical_entryOf] at hnative
    rcases hkind with hkind | hkind
    · exact (exists_resolve hpath hkind (by decide)).1 ⟨_,hnative⟩
    · exact (exists_resolve hpath hkind (by decide)).1 ⟨_,hnative⟩
  · rintro h entry hentry hkind
    obtain ⟨rest,hlist,rfl⟩ := (hmem entry).1 hentry
    have hfound : Found workspace disk options [root] (root.native++rest) :=
      ⟨root,List.mem_singleton.2 rfl,rest,hlist⟩
    have hpath := hfound.isInside hroots
    have hentryKind := entryKind_of_found hpath
    have hlink : (entryOf workspace disk (root.native++rest)).kind≠.symlink := by
      rintro heq
      rw [heq] at hkind
      rcases hkind with hkind | hkind <;> cases hkind
    have haddr := h _ hfound (by rwa [hentryKind,Option.some_inj,Option.some_inj])
    rw [logical_entryOf]
    exact ⟨_,(resolve_logicalOf_iff hpath (isTarget_of_entryKind hentryKind hlink) _).2
      ⟨haddr,rfl⟩,rfl⟩

theorem letter_resolved : ∃ entries,
    atRoot.walk stateBelow letter ⟨1,false,10⟩=.ok entries ∧
      ∀ entry∈entries, entry.kind=.file ∨ entry.kind=.directory →
        ∃ native, atRoot.resolveExisting stateBelow entry.logical=.ok ⟨entry.logical,native⟩ ∧
          entryOf atRoot stateBelow native=entry := by
  refine ⟨_,walk_letter false,((listed_addressable_iff (fun _ => ⟨List.replicate 32 0,rfl⟩)
    atRoot stateBelow).1 _ _ _ _ resolve_letter (walk_letter false)).2 ?_⟩
  rintro path ⟨root,hroot,rest,hlist⟩ -
  obtain rfl := List.mem_singleton.1 hroot
  obtain rfl := hlist.below
  obtain ⟨hins,htgt⟩ := resolveExisting_spec resolve_letter
  have hentry := ((walk_enumerates hins htgt (walk_letter false)).mem _).2 ⟨rest,hlist,rfl⟩
  have hpath := entryOf_injective (IsInside.below hins hlist.exist) hins
    (List.mem_singleton.1 hentry)
  rw [hpath]
  exact ⟨⟨by decide,by decide,by decide⟩,fun _ => by decide⟩

/-- A file with a colon in its name is listed and cannot be resolved. -/
theorem colon_file_unresolved : ∃ root entries,
    atRoot.resolveExisting colonFile rootLogical=.ok root ∧
      atRoot.walk colonFile root ⟨1,false,10⟩=.ok entries ∧
      ∃ entry∈entries, entry.kind=.file ∧
        ∀ path, atRoot.resolveExisting colonFile entry.logical≠.ok path := by
  have hrsl : atRoot.resolveExisting colonFile rootLogical=.ok ⟨rootLogical,[]⟩ := by rfl
  obtain ⟨hins,htgt⟩ := resolveExisting_spec hrsl
  have hnames : colonFile.names []=[['a',':','b']] := by decide
  have hvis : visited atRoot colonFile ⟨1,false,10⟩ [] =
      [entryOf atRoot colonFile [],entryOf atRoot colonFile [['a',':','b']]] := by
    change ((if passes atRoot _ 0 [] then []::_ else []).map _)=_
    rw [hnames,List.mergeSort_singleton,List.flatMap_singleton,reach]
    rfl
  refine ⟨_,_,hrsl,walk_within hins htgt fun max hmax => ?_,
    entryOf atRoot colonFile [['a',':','b']],?_,by decide,fun path hpath => ?_⟩
  · rw [walk_eq hins htgt,hvis] at hmax
    cases hmax
  · rw [(List.mergeSort_perm _ _).mem_iff,hvis]
    exact List.mem_cons_of_mem _ List.mem_cons_self
  · have herror : atRoot.resolveExisting colonFile
        (entryOf atRoot colonFile [['a',':','b']]).logical=.error .invalidLogicalPath := by rfl
    rw [herror] at hpath
    cases hpath

end Ash.AddressablePaths
