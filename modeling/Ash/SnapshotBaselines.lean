import Ash.AddressablePaths
import Ash.ManifestRoundTrip

/-! # Snapshots as baselines

A captured manifest is read back by a later snapshot of the same scope just when the paths of its
directories are such as the reader accepts. -/

namespace Ash.SnapshotBaselines
open AddressablePaths AsonDocuments AsonParser ByteCodecs DirectoryWalks LinkedTrees
  LogicalPaths ManifestRoundTrip OperationErrors Outcomes ParserOutcomes RequestArguments
  Responses Snapshots TreeOperations VisibleTrees WalkedPaths WorkspacePaths
open NativeWorkspace (joinNames)
open ResultStores (StoreError)
open WorkspaceOperations (Digest)

variable {hash : Bytes → Digest} {workspace : NativeWorkspace} {disk : Disk}
  {cancelled : Point → Bool} {scope : Scope}

/-! ## Paths -/

theorem validPath_iff {path : Text} : validPath path=true ↔ validateLogical path=.ok () := by
  rw [validateLogical,ite_error_ok_iff,and_iff_left rfl]
  simp only [validPath,Bool.and_eq_true,Bool.or_eq_true,Bool.not_eq_true',decide_eq_true_eq,not_or,
    not_and_or,not_not,ne_eq,Bool.not_eq_true,Nat.not_lt,and_assoc]

variable {path : Path}

theorem validPath_logicalOf (h : IsInside workspace disk path) :
    validPath (logicalOf workspace path)=true ↔ IsAddress (logicalOf workspace path) := by
  rw [validPath_iff,validateLogical_logicalOf h]

/-! ## Steps of a capture -/

theorem foldlM_walks {options : WalkOptions} {roots : List ResolvedPath}
    {start result : List NativeEntry} (hstart : start.length ≤ maxSnapshotEntries)
    (h : roots.foldlM (fun entries root => do
      let batch ← liftPlatform (workspace.walk disk root options)
      require ((entries++batch).length ≤ maxSnapshotEntries) .workLimit
      return entries++batch) start=.ok result) :
    ∃ batches, roots.mapM (fun root => workspace.walk disk root options)=.ok batches ∧
      result=start++batches.flatten ∧ result.length ≤ maxSnapshotEntries := by
  induction roots generalizing start with
  | nil =>
    obtain rfl := pure_ok_iff.1 h
    exact ⟨[],rfl,(List.append_nil _).symm,hstart⟩
  | cons root roots ih =>
    rw [List.foldlM_cons] at h
    simp only [bind_ok_iff,liftPlatform,mapError_ok_iff,require_ok_iff,pure_ok_iff,
      exists_const] at h
    obtain ⟨_,⟨batch,hbatch,hlen,rfl⟩,hrest⟩ := h
    obtain ⟨batches,hbats,rfl,hres⟩ := ih hlen hrest
    refine ⟨batch::batches,?_,?_,hres⟩
    · rw [List.mapM_cons,hbatch,hbats]
      rfl
    · rw [List.flatten_cons,List.append_assoc]

/-- The bytes that an entry counts for. -/
def fileBytes (entry : NativeEntry) : ℕ := if entry.kind=.file then entry.size else 0

theorem foldlM_initialBytes {entries : List NativeEntry} {start total : ℕ}
    (h : entries.foldlM (fun total entry =>
      if entry.kind≠.file then .ok total
      else do
        require (entry.size ≤ maxSnapshotFileBytes) .workLimit
        return total+entry.size) start=(.ok total : Except OperationError ℕ)) :
    (∀ entry∈entries, entry.kind=.file → entry.size ≤ maxSnapshotFileBytes) ∧
      total=start+(entries.map fileBytes).sum := by
  induction entries generalizing start with
  | nil =>
    obtain rfl := pure_ok_iff.1 h
    exact ⟨fun entry hentry => absurd hentry List.not_mem_nil,rfl⟩
  | cons entry entries ih =>
    rw [List.foldlM_cons,bind_ok_iff] at h
    obtain ⟨next,hnext,hrest⟩ := h
    obtain ⟨hall,rfl⟩ := ih hrest
    rw [List.map_cons,List.sum_cons,List.forall_mem_cons,← Nat.add_assoc]
    by_cases hfile : entry.kind=.file
    · rw [if_neg (not_not.2 hfile)] at hnext
      simp only [bind_ok_iff,require_ok_iff,pure_ok_iff,exists_const] at hnext
      obtain ⟨hsize,rfl⟩ := hnext
      exact ⟨⟨fun _ => hsize,hall⟩,by rw [fileBytes,if_pos hfile]⟩
    · rw [if_pos hfile] at hnext
      obtain rfl := Except.ok.inj hnext
      exact ⟨⟨fun h => absurd h hfile,hall⟩,by rw [fileBytes,if_neg hfile,Nat.add_zero]⟩

/-- An entry with its identity on the disk. -/
def Identifies (hash : Bytes → Digest) (workspace : NativeWorkspace) (disk : Disk)
    (native : NativeEntry) (entry : SnapshotEntry) : Prop :=
  ∃ found, identity hash workspace disk native=.ok found ∧
    ⟨native.logical,fileKind native.kind,found.1,found.2⟩=entry

theorem mapM_identify {native : List NativeEntry} {entries : List SnapshotEntry} :
    (native.zipIdx.mapM fun (entry,index) =>
        identifyEntry hash workspace disk (cancelled (.entry index)) entry)=.ok entries ↔
      (∀ pair∈native.zipIdx, cancelled (.entry pair.2)=false) ∧
        List.Forall₂ (Identifies hash workspace disk) native entries := by
  rw [mapM_ok_iff (fun pair entry => identifyEntry_ok),List.forall₂_and_left]
  refine and_congr_right fun _ => ?_
  have hmap := @List.forall₂_map_left_iff _ _ _ (Identifies hash workspace disk) Prod.fst
    native.zipIdx entries
  rw [List.zipIdx_map_fst] at hmap
  exact hmap.symm

/-- What a capture has found when it succeeds. -/
structure Captures (hash : Bytes → Digest) (workspace : NativeWorkspace) (disk : Disk)
    (scope : Scope) (roots : List ResolvedPath) (batches : List (List NativeEntry))
    (entries : List SnapshotEntry) : Prop where
  resolved : scope.paths.mapM (workspace.resolveExisting disk)=.ok roots
  walked : roots.mapM (fun root => workspace.walk disk root scope.options)=.ok batches
  count : batches.flatten.length ≤ maxSnapshotEntries
  files : ∀ entry∈sortEntries batches.flatten, entry.kind=.file →
    entry.size ≤ maxSnapshotFileBytes
  total : ((sortEntries batches.flatten).map fileBytes).sum ≤ maxSnapshotTotalBytes
  identified : List.Forall₂ (Identifies hash workspace disk) (sortEntries batches.flatten) entries

theorem capture_ok {manifest : Manifest} {encoded : Bytes}
    (h : capture hash workspace disk cancelled scope=.ok (manifest,encoded)) :
    ∃ roots batches, Captures hash workspace disk scope roots batches manifest.entries ∧
      manifest.scope=scope ∧
      (∀ entry∈manifest.entries, scopeCovers scope entry.path=true) ∧
      encodeManifest manifest=.ok encoded ∧ encoded.length ≤ maxSnapshotManifestBytes := by
  simp only [capture,bind_ok_iff,liftPlatform,mapError_ok_iff,require_ok_iff,checkCancelled,
    pure_ok_iff,exists_const,mapM_identify,List.all_eq_true,Prod.mk.injEq] at h
  obtain ⟨roots,hroots,found,hfound,total,htotal,hmax,-,entries,⟨-,hidentified⟩,-,hcov,_,henc,hlen,
    rfl,rfl⟩ := h
  obtain ⟨batches,hbats,rfl,hcount⟩ := foldlM_walks (Nat.zero_le _) hfound
  obtain ⟨hfiles,rfl⟩ := foldlM_initialBytes htotal
  rw [Nat.zero_add] at hmax
  rw [List.nil_append] at *
  exact ⟨roots,batches,⟨hroots,hbats,hcount,hfiles,hmax,hidentified⟩,rfl,hcov,henc,hlen⟩

/-- A capture that succeeds does so without a cancelled token too. -/
theorem capture_uncancelled {manifest : Manifest} {encoded : Bytes}
    (h : capture hash workspace disk cancelled scope=.ok (manifest,encoded)) :
    capture hash workspace disk (fun _ => false) scope=.ok (manifest,encoded) := by
  have hnever := @mapM_identify hash workspace disk (fun _ => false)
  simp only [capture,bind_ok_iff,liftPlatform,mapError_ok_iff,require_ok_iff,checkCancelled,
    pure_ok_iff,exists_const,mapM_identify,hnever,Prod.mk.injEq] at h ⊢
  obtain ⟨roots,hroots,found,hfound,total,htotal,hmax,-,entries,⟨-,hidentified⟩,-,hrest⟩ := h
  exact ⟨roots,hroots,found,hfound,total,htotal,hmax,trivial,entries,
    ⟨fun _ _ => trivial,hidentified⟩,trivial,hrest⟩

/-! ## Entries of a capture -/

/-- An entry of the manifest for a path of the disk. -/
structure Records (workspace : NativeWorkspace) (disk : Disk) (native : Path)
    (entry : SnapshotEntry) : Prop where
  path : entry.path=logicalOf workspace native
  kind : entry.kind=fileKind (entryOf workspace disk native).kind
  valid : identityValid entry.kind entry.size entry.digest=true
  size : entry.kind=.file → entry.size=.ofNat (entryOf workspace disk native).size
  address : entry.kind=.file ∨ entry.kind=.symlink → IsAddress (logicalOf workspace native)

theorem records_of_identifies {entry : SnapshotEntry} (hins : IsInside workspace disk path)
    (hroot : entryKind disk path=some .symlink → path≠workspace.root)
    (h : Identifies hash workspace disk (entryOf workspace disk path) entry) :
    Records workspace disk path entry := by
  obtain ⟨found,hfound,rfl⟩ := h
  obtain ⟨kind,hkind⟩ := Option.ne_none_iff_exists'.1 hins.exist
  have hentry : entryKind disk path=some (classify kind) := by rw [entryKind,hkind]; rfl
  have hclass := @kind_entryOf workspace disk path _ hentry
  cases kind with
  | file bytes =>
    obtain ⟨haddr,rfl⟩ := (identity_file hash hins hkind).1 hfound
    refine ⟨logical_entryOf,rfl,?_,fun _ => ?_,fun _ => haddr.address⟩
    · rw [hclass]
      rfl
    · rw [size_entryOf hkind]
  | symlink target =>
    obtain ⟨hadr,rfl⟩ := (identity_symlink hash hins (hroot hentry) hkind).1 hfound
    refine ⟨logical_entryOf,rfl,?_,?_,fun _ => hadr⟩
    · rw [hclass]
      rfl
    · rw [hclass]
      rintro ⟨⟩
  | directory | other =>
    rw [identity,hclass] at hfound
    obtain rfl := Except.ok.inj hfound
    refine ⟨logical_entryOf,rfl,?_,?_,?_⟩
    all_goals rw [hclass]
    · rfl
    · rintro ⟨⟩
    · rintro (h | h) <;> cases h

variable {roots : List ResolvedPath} {batches : List (List NativeEntry)}
  {entries : List SnapshotEntry}

section
variable (h : Captures hash workspace disk scope roots batches entries)
include h

theorem Captures.mem_native {native : NativeEntry} : native∈sortEntries batches.flatten ↔
      ∃ path, Found workspace disk scope.options roots path ∧
        native=entryOf workspace disk path := by
  have hroots := areRoots_of_mapM h.resolved
  rw [sortEntries,SortedKeys.mem_sortDedupBy (logical_injective hroots h.walked),
    mem_flatten_batches hroots h.walked]

theorem Captures.records :
    List.Forall₂ (fun native entry => ∃ path, Found workspace disk scope.options roots path ∧
      native=entryOf workspace disk path ∧ Records workspace disk path entry)
      (sortEntries batches.flatten) entries := by
  have hroots := areRoots_of_mapM h.resolved
  have hfound : ∀ native∈sortEntries batches.flatten,
      ∃ path, Found workspace disk scope.options roots path ∧
        native=entryOf workspace disk path := fun native hnative => h.mem_native.1 hnative
  refine ((List.forall₂_and_left _ _).2 ⟨hfound,h.identified⟩).imp ?_
  rintro native entry ⟨⟨path,hpath,rfl⟩,hidentifies⟩
  exact ⟨path,hpath,rfl,
    records_of_identifies (hpath.isInside hroots) (hpath.ne_root hroots) hidentifies⟩

theorem Captures.exists_path {entry : SnapshotEntry} (hentry : entry∈entries) :
    ∃ path, Found workspace disk scope.options roots path ∧ Records workspace disk path entry := by
  obtain ⟨native,-,path,hpath,-,hrecs⟩ := exists_mem_of_forall₂_right h.records hentry
  exact ⟨path,hpath,hrecs⟩

theorem Captures.exists_entry (hpath : Found workspace disk scope.options roots path) :
    ∃ entry∈entries, Records workspace disk path entry := by
  have hroots := areRoots_of_mapM h.resolved
  obtain ⟨entry,hentry,other,hother,heq,hrecs⟩ :=
    exists_mem_of_forall₂_left h.records (h.mem_native.2 ⟨path,hpath,rfl⟩)
  rw [← entryOf_injective (hpath.isInside hroots) (hother.isInside hroots) heq] at hrecs
  exact ⟨entry,hentry,hrecs⟩

/-- The entries stand in the order of their paths. -/
theorem Captures.ascending :
    entries.Pairwise fun left right => utf8 left.path < utf8 right.path := by
  have hsort : (sortEntries batches.flatten).Pairwise fun left right =>
      utf8 left.logical < utf8 right.logical :=
    SortedKeys.pairwise_sortDedupBy utf8_injective batches.flatten
  refine pairwise_of_forall₂ ?_ h.records hsort
  rintro _ _ left right ⟨path,-,rfl,hleft⟩ ⟨path',-,rfl,hright⟩ hlt
  rw [logical_entryOf,logical_entryOf] at hlt
  rwa [hleft.path,hright.path]

/-- The bytes that an entry of a manifest counts for. -/
def entryBytes (entry : SnapshotEntry) : ℕ := if entry.kind=.file then entry.size.toNat else 0

theorem Captures.map_entryBytes :
    (sortEntries batches.flatten).map fileBytes=entries.map entryBytes := by
  have hbytes : List.Forall₂ (fun native entry => fileBytes native=entryBytes entry)
      (sortEntries batches.flatten) entries := by
    refine ((List.forall₂_and_left _ _).2 ⟨h.files,h.records⟩).imp ?_
    rintro _ entry ⟨hfile,path,-,rfl,hrecs⟩
    rw [fileBytes,entryBytes]
    by_cases hkind : (entryOf workspace disk path).kind=.file
    · have hentry : entry.kind=.file := by rw [hrecs.kind,hkind]; rfl
      have hmax : (entryOf workspace disk path).size ≤ 134217728 := hfile hkind
      rw [if_pos hkind,if_pos hentry,hrecs.size hentry,UInt64.toNat_ofNat_of_lt'
        (lt_of_le_of_lt hmax (by decide))]
    · have hentry : entry.kind≠.file := by
        rw [hrecs.kind]
        cases hclass : (entryOf workspace disk path).kind <;> simp_all [fileKind]
      rw [if_neg hkind,if_neg hentry]
  rw [← List.forall₂_eq_eq_eq,List.forall₂_map_left_iff,List.forall₂_map_right_iff]
  exact hbytes

end

/-! ## Reading the manifest back -/

theorem bytesWith_eq (fileBytes : ℕ) (entry : SnapshotEntry) :
    bytesWith fileBytes entry=fileBytes+entryBytes entry := by
  rw [bytesWith,entryBytes]
  split <;> rfl

variable {previous : Option Text}

/-- Checks of whole lists of entries give those of each row. -/
theorem rowsValid_of {total : ℕ}
    (heach : ∀ entry∈entries, validPath entry.path=true ∧ scopeCovers scope entry.path=true ∧
      identityValid entry.kind entry.size entry.digest=true ∧
      entryBytes entry ≤ maxSnapshotFileBytes)
    (hasc : entries.Pairwise fun left right => utf8 left.path < utf8 right.path)
    (hprev : ∀ last∈previous, ∀ entry∈entries, utf8 last < utf8 entry.path)
    (htotal : total+(entries.map entryBytes).sum ≤ maxSnapshotTotalBytes) :
    RowsValid scope previous total entries := by
  induction entries generalizing previous total with
  | nil => trivial
  | cons entry entries ih =>
    obtain ⟨⟨hpath,hcov,hidn,hsize⟩,hrest⟩ := List.forall_mem_cons.1 heach
    obtain ⟨hfirst,htail⟩ := List.pairwise_cons.1 hasc
    rw [List.map_cons,List.sum_cons] at htotal
    constructor
    · refine ⟨hpath,hcov,fun last hlast => hprev last hlast entry List.mem_cons_self,hidn,
        fun hfile => ?_⟩
      rw [entryBytes,if_pos hfile] at hsize htotal
      exact ⟨hsize,by omega⟩
    · refine ih hrest htail ?_ ?_
      · intro last hlast
        obtain rfl := Option.some.inj hlast
        exact hfirst
      · rw [bytesWith_eq]
        omega

theorem validPath_of_rowsValid {total : ℕ} (h : RowsValid scope previous total entries) :
    ∀ entry∈entries, validPath entry.path=true := by
  induction entries generalizing previous total with
  | nil => exact fun entry hentry => absurd hentry List.not_mem_nil
  | cons entry entries ih => exact List.forall_mem_cons.2 ⟨h.1.path,ih h.2⟩

/-- The paths that a snapshot of a scope finds. -/
def Seen (workspace : NativeWorkspace) (disk : Disk) (scope : Scope) (path : Path) : Prop :=
  ∃ logical∈scope.paths, ∃ root, workspace.resolveExisting disk logical=.ok root ∧
    ∃ rest, Listed workspace disk scope.options root.native path rest

theorem seen_iff_found (h : scope.paths.mapM (workspace.resolveExisting disk)=.ok roots) :
    Seen workspace disk scope path ↔
      Found workspace disk scope.options roots path := by
  have hall := (mapM_ok_iff (fun _ _ => Iff.rfl) scope.paths roots).1 h
  constructor
  · rintro ⟨logical,hlog,root,hroot,rest,hlist⟩
    obtain ⟨found,hfound,hrsl⟩ := exists_mem_of_forall₂_left hall hlog
    obtain rfl := Except.ok.inj (hrsl.symm.trans hroot)
    exact ⟨found,hfound,rest,hlist⟩
  · rintro ⟨root,hroot,rest,hlist⟩
    obtain ⟨logical,hlog,hrsl⟩ := exists_mem_of_forall₂_right hall hroot
    exact ⟨logical,hlog,root,hrsl,rest,hlist⟩

/-- Every directory, and whatever else has no digest, has a path that the reader accepts. -/
def Readable (workspace : NativeWorkspace) (disk : Disk) (scope : Scope) : Prop :=
  ∀ path, Seen workspace disk scope path →
    entryKind disk path=some .directory ∨ entryKind disk path=some .other →
    IsAddress (logicalOf workspace path)

theorem fileKind_iff {kind : EntryKind} : (fileKind kind=.file ∨ fileKind kind=.symlink) ↔
    ¬ (kind=.directory ∨ kind=.other) := by
  cases kind <;> simp [fileKind]

/-- All paths of the manifest are accepted just when those are that the capture did not check. -/
theorem Captures.validPath_iff (h : Captures hash workspace disk scope roots batches entries) :
    (∀ entry∈entries, validPath entry.path=true) ↔ Readable workspace disk scope := by
  have hroots := areRoots_of_mapM h.resolved
  constructor
  · intro hall path hseen _
    have hfound := (seen_iff_found h.resolved).1 hseen
    obtain ⟨entry,hentry,hrecs⟩ := h.exists_entry hfound
    have hvalid := hall entry hentry
    rwa [hrecs.path,validPath_logicalOf (hfound.isInside hroots)] at hvalid
  · intro hreadable entry hentry
    obtain ⟨path,hfound,hrecs⟩ := h.exists_path hentry
    have hins := hfound.isInside hroots
    rw [hrecs.path,validPath_logicalOf hins]
    have hkind := entryKind_of_found hins
    by_cases hplain : (entryOf workspace disk path).kind=.directory ∨
        (entryOf workspace disk path).kind=.other
    · refine hreadable path ((seen_iff_found h.resolved).2 hfound) ?_
      rwa [hkind,Option.some_inj,Option.some_inj]
    · refine hrecs.address ?_
      rw [hrecs.kind]
      exact fileKind_iff.2 hplain

variable {arguments : SnapshotArgs} {manifest : Manifest} {encoded : Bytes}

theorem scopeValid_of_validate (hvalid : arguments.validate=.ok ())
    (hresolved : (argumentScope arguments).paths.mapM (workspace.resolveExisting disk)=.ok roots) :
    ScopeValid (argumentScope arguments) := by
  simp only [SnapshotArgs.validate,bind_unit_ok_iff,require_ok_iff,RequestValues.validatePaths,
    RequestValues.validateFlags] at hvalid
  obtain ⟨⟨⟨hne,hfew⟩,-⟩,hasc,hdepth,-,hflags⟩ := hvalid
  refine ⟨fun path hpath => ?_,hne,hfew,hasc,hdepth,hflags⟩
  obtain ⟨root,hroot⟩ := exists_mapM_ok.1 ⟨roots,hresolved⟩ path hpath
  simp only [NativeWorkspace.resolveExisting,bind_ok_iff] at hroot
  obtain ⟨_,hlog,-⟩ := hroot
  exact validPath_iff.2 hlog

/-- A captured manifest is read back just when its directories have good paths. -/
theorem decode_captured_iff (hvalid : arguments.validate=.ok ())
    (h : capture hash workspace disk cancelled (argumentScope arguments)=.ok (manifest,encoded)) :
    decodeManifest encoded=.ok manifest ↔
      Readable workspace disk (argumentScope arguments) := by
  obtain ⟨roots,batches,hcaps,hscope,hcov,henc,hlen⟩ := capture_ok h
  simp only [encodeManifest,bind_ok_iff,mapError_ok_iff,pure_ok_iff] at henc
  obtain ⟨document,hdoc,rfl⟩ := henc
  obtain ⟨k,v,q,d,record,table,hdescribes⟩ := manifestDocument_ok.1 hdoc
  have hscopeValid : ScopeValid manifest.scope := by
    rw [hscope]
    exact scopeValid_of_validate hvalid hcaps.resolved
  have hcount : manifest.entries.length ≤ maxSnapshotEntries := by
    rw [← hcaps.identified.length_eq]
    exact (SortedKeys.length_sortDedupBy_le _).trans hcaps.count
  rw [← hcaps.validPath_iff,decodeManifest_encode hdescribes]
  constructor
  · rintro ⟨-,-,-,-,hrows⟩
    exact validPath_of_rowsValid hrows
  · intro hpaths
    refine ⟨hlen,hdescribes.within hlen hscopeValid hcount hpaths,hscopeValid,hcount,?_⟩
    have hbytes := hcaps.map_entryBytes
    refine rowsValid_of (fun entry hentry => ?_) hcaps.ascending nofun ?_
    · obtain ⟨path,-,hrecs⟩ := hcaps.exists_path hentry
      refine ⟨hpaths entry hentry,hscope ▸ hcov entry hentry,hrecs.valid,?_⟩
      have hmem : entryBytes entry∈(sortEntries batches.flatten).map fileBytes := by
        rw [hbytes]
        exact List.mem_map_of_mem hentry
      obtain ⟨native,hnative,heq⟩ := List.mem_map.1 hmem
      rw [← heq,fileBytes]
      split
      · next hfile => exact hcaps.files native hnative hfile
      · exact Nat.zero_le _
    · rw [Nat.zero_add,← hbytes]
      exact hcaps.total

/-! ## Later snapshots -/

/-- No path of the scope goes through a link. -/
def Unlinked (workspace : NativeWorkspace) (disk : Disk) (scope : Scope) : Prop :=
  ∀ logical∈scope.paths, ∀ root, workspace.resolveExisting disk logical=.ok root →
    root.native=workspace.joined logical

theorem dropPrefix_append (front back : Text) : (front++back).dropPrefix? front=some back :=
  List.dropPrefix?_eq_some_iff.2 ⟨front,rfl,beq_self_eq_true _⟩

theorem relativeTo_below {root rest : Text} (hroot : root≠rootLogical) :
    relativeTo root (root ++ '/'::rest)=some rest := by
  rw [relativeTo,if_neg hroot,dropPrefix_append,Option.bind_some,← List.singleton_append,
    dropPrefix_append]

/-- What is listed below a path of the scope is covered by it. -/
theorem covers_listed {logical : Text} (hlog : logical∈scope.paths) {rest : Path}
    (hrest : AreNames rest) (hdepth : rest.length ≤ scope.depth.toNat) :
    scopeCovers scope (logicalOf workspace (workspace.joined logical++rest))=true := by
  have hcount : ∀ names, AreNames names → names≠[] → names.length ≤ scope.depth.toNat →
      ((joinNames names).splitOn '/').length ≤ scope.depth.toNat := by
    intro names hnames hne hlen
    rwa [splitOn_joinNames hnames hne]
  refine List.any_eq_true.2 ⟨logical,hlog,?_⟩
  rw [Bool.or_eq_true,decide_eq_true_eq]
  by_cases hroot : logical=rootLogical
  · rw [NativeWorkspace.joined,if_pos hroot]
    by_cases hnil : rest=[]
    · rw [hnil,List.append_nil,logicalOf_root]
      exact .inl hroot.symm
    · rw [logicalOf_below hnil,relativeTo,if_pos hroot,Option.any_some,decide_eq_true_eq]
      exact .inr (hcount rest hrest hnil hdepth)
  · have hnames : logical.splitOn '/'≠[] := List.splitOnP_ne_nil _ _
    have hjoin : joinNames (logical.splitOn '/')=logical := List.intercalate_splitOn '/'
    rw [NativeWorkspace.joined,if_neg hroot,List.append_assoc]
    by_cases hnil : rest=[]
    · rw [hnil,List.append_nil,logicalOf_below hnames,hjoin]
      exact .inl rfl
    · rw [logicalOf_below (List.append_ne_nil_of_left_ne_nil hnames _),joinNames_append hnames hnil,
        hjoin,relativeTo_below hroot,Option.any_some,decide_eq_true_eq]
      exact .inr (hcount rest hrest hnil hdepth)

theorem liftPlatform_ne {α : Type} {result : Except WorkspaceOperations.PlatformError α} :
    liftPlatform result≠.error .invalidSnapshot := by
  cases result <;> exact nofun

theorem covers_identified (h : Unlinked workspace disk scope)
    (hresolved : scope.paths.mapM (workspace.resolveExisting disk)=.ok roots)
    (hwalked : roots.mapM (fun root => workspace.walk disk root scope.options)=.ok batches)
    (hidentified : List.Forall₂ (Identifies hash workspace disk) (sortEntries batches.flatten)
      entries) : ∀ entry∈entries, scopeCovers scope entry.path=true := by
  intro entry hentry
  obtain ⟨native,hnative,found,-,rfl⟩ := exists_mem_of_forall₂_right hidentified hentry
  have hroots := areRoots_of_mapM hresolved
  obtain ⟨path,hfound,rfl⟩ := (mem_flatten_batches hroots hwalked native).1
    (SortedKeys.mem_of_mem_sortDedupBy hnative)
  have hins := hfound.isInside hroots
  obtain ⟨logical,hlog,root,hroot,rest,hlist⟩ := (seen_iff_found hresolved).2 hfound
  obtain rfl := hlist.below
  have hrest : AreNames rest := fun name hname =>
    Disk.isName_of_mem hins.exist (List.mem_append_right _ hname)
  change scopeCovers scope (entryOf workspace disk (root.native++rest)).logical=true
  rw [logical_entryOf,h logical hlog root hroot]
  exact covers_listed hlog hrest hlist.depth

/-- A capture of a scope without links is never refused for what it found. -/
theorem capture_ne_invalid (h : Unlinked workspace disk scope) :
    capture hash workspace disk cancelled scope≠.error .invalidSnapshot := by
  unfold capture
  refine bind_ne_error liftPlatform_ne fun roots hroots => ?_
  refine bind_ne_error ?_ fun found hfound => ?_
  · unfold collectEntries
    refine foldlM_ne_error (fun entries root => ?_) _
    exact bind_ne_error liftPlatform_ne fun _ _ =>
      bind_ne_error (require_ne_error (by rintro ⟨⟩)) fun _ _ => by rintro ⟨⟩
  refine bind_ne_error ?_ fun total htotal =>
    bind_ne_error (require_ne_error (by rintro ⟨⟩)) fun _ _ => ?_
  · unfold initialBytes
    refine foldlM_ne_error (fun total entry => ?_) _
    split
    · rintro ⟨⟩
    · exact bind_ne_error (require_ne_error (by rintro ⟨⟩)) fun _ _ => by rintro ⟨⟩
  refine bind_ne_error (require_ne_error (by rintro ⟨⟩)) fun _ _ => ?_
  refine bind_ne_error ?_ fun entries hents => ?_
  · exact mapM_ne_error fun _ _ => bind_ne_error (require_ne_error (by rintro ⟨⟩)) fun _ _ =>
      bind_ne_error liftPlatform_ne fun _ _ => by rintro ⟨⟩
  refine bind_ne_error (require_ne_error (by rintro ⟨⟩)) fun _ _ => ?_
  refine bind_ne_error ?_ fun _ _ => ?_
  · obtain ⟨batches,hbats,rfl,-⟩ := foldlM_walks (Nat.zero_le _) hfound
    rw [List.nil_append] at hents
    have hcov := covers_identified h (mapError_ok_iff.1 hroots) hbats
      (mapM_identify.1 hents).2
    rw [require,if_pos (List.all_eq_true.2 hcov)]
    rintro ⟨⟩
  · refine bind_ne_error ?_ fun _ _ =>
      bind_ne_error (require_ne_error (by rintro ⟨⟩)) fun _ _ => by rintro ⟨⟩
    refine bind_ne_error ?_ fun _ _ => by rintro ⟨⟩
    cases manifestDocument ⟨scope,entries⟩ <;> rintro ⟨⟩

theorem delta_self (entries : List SnapshotEntry) : delta entries entries=[] := by
  induction entries with
  | nil => rw [delta,List.map_nil]
  | cons entry entries ih =>
    rw [delta,if_neg (List.lt_irrefl _),if_neg (List.lt_irrefl _),if_neg (not_not.2 rfl),ih]

/-- A later snapshot of the scope that has the retained bytes as its baseline. -/
structure IsDelta (retained : UInt64 → Except StoreError Bytes) (scope : Scope) (baseline : Bytes)
    (later : SnapshotArgs) : Prop where
  mode : later.mode=.delta
  scope : argumentScope later=scope
  baseline : ∃ reference, later.baseline=some reference ∧ retained reference=.ok baseline

theorem execute_delta {retained : UInt64 → Except StoreError Bytes} {later : SnapshotArgs}
    (hdelta : IsDelta retained manifest.scope encoded later)
    (hlen : encoded.length ≤ maxSnapshotManifestBytes)
    (hdec : decodeManifest encoded=.ok manifest) (hstart : cancelled .start=false) :
    execute hash workspace disk cancelled retained later =
      (capture hash workspace disk cancelled manifest.scope).mapError .error >>= fun captured =>
        .ok ⟨captured.1,captured.2,delta manifest.entries captured.1.entries⟩ := by
  obtain ⟨reference,href,hretained⟩ := hdelta.baseline
  have hread : readBaseline retained reference=.ok manifest := by
    simp only [readBaseline,bind_ok_iff,mapError_ok_iff,require_ok_iff]
    exact ⟨encoded,hretained,(),hlen,hdec⟩
  have hbase : optionalBaseline retained later.baseline=.ok (some manifest) := by
    rw [href,optionalBaseline,hread]
    rfl
  rw [execute,hstart,hbase,hdelta.scope,hdelta.mode]
  change ((require _ _ : Fallible OperationError Unit) >>= _)=_
  rw [require,if_pos]
  · rfl
  · intro found hfound
    obtain rfl := Option.some.inj hfound
    rfl

theorem capture_of_execute {retained : UInt64 → Except StoreError Bytes} {run : SnapshotRun}
    (h : execute hash workspace disk cancelled retained arguments=.ok run) :
    capture hash workspace disk cancelled (argumentScope arguments) =
      .ok (run.manifest,run.retained) := by
  simp only [execute,bind_ok_iff,mapError_ok_iff,pure_ok_iff] at h
  obtain ⟨_,-,_,-,_,-,captured,hcaptured,_,-,rfl⟩ := h
  exact hcaptured

/-! ## A workspace with one directory -/

variable (colon : Bool)

def directoryName : Text := if colon then ['a',':','b'] else ['a']

def oneDirectory : Disk :=
  Disk.ofEntries [([],⟨.directory,none⟩),([directoryName colon],⟨.directory,none⟩)] 40
    (by cases colon <;> decide)

def wholeTree : SnapshotArgs := ⟨[rootLogical],1,.capture,none,0⟩

def treeEntries : List NativeEntry :=
  [⟨rootLogical,.directory,0,none⟩,⟨directoryName colon,.directory,0,none⟩]

theorem walk_oneDirectory :
    atRoot.walk (oneDirectory colon) ⟨rootLogical,[]⟩ (argumentScope wholeTree).options =
      .ok (treeEntries colon) := by
  have hrsl : atRoot.resolveExisting (oneDirectory colon) rootLogical =
      .ok ⟨rootLogical,[]⟩ := by rfl
  obtain ⟨hins,htgt⟩ := resolveExisting_spec hrsl
  have hnames : (oneDirectory colon).names []=[directoryName colon] := by
    cases colon <;> decide
  have hvis : visited atRoot (oneDirectory colon) (argumentScope wholeTree).options [] =
      treeEntries colon := by
    change ((if passes atRoot _ 0 [] then []::_ else []).map _)=_
    rw [hnames,List.mergeSort_singleton,List.flatMap_singleton,reach]
    cases colon <;> rfl
  have hsort : (treeEntries colon).mergeSort NativeWorkspace.logicalLe=treeEntries colon :=
    List.mergeSort_of_pairwise (by cases colon <;> decide)
  rw [walk_eq hins htgt,hvis,hsort]
  rfl

def treeManifest : Manifest :=
  ⟨argumentScope wholeTree,[⟨rootLogical,.directory,0,none⟩,
    ⟨directoryName colon,.directory,0,none⟩]⟩

theorem execute_oneDirectory (hash : Bytes → Digest) (colon : Bool) :
    ∃ run, execute hash atRoot (oneDirectory colon) (fun _ => false)
      (fun reference => .error (.unknownAlias reference.toNat)) wholeTree=.ok run := by
  have hsort : sortEntries (treeEntries colon)=treeEntries colon := by
    have hmerge : (treeEntries colon).mergeSort (fun left right =>
        NativeWorkspace.nameLe left.logical right.logical)=treeEntries colon :=
      List.mergeSort_of_pairwise (by cases colon <;> decide)
    rw [sortEntries,SortedKeys.sortDedupBy,hmerge]
    cases colon <;> rfl
  have hcoll : collectEntries atRoot (oneDirectory colon) (argumentScope wholeTree).options
      [⟨rootLogical,[]⟩]=.ok (treeEntries colon) := by
    rw [collectEntries,List.foldlM_cons,walk_oneDirectory]
    cases colon <;> rfl
  obtain ⟨encoded,henc,hlen⟩ : ∃ encoded, encodeManifest (treeManifest colon) =
      .ok encoded ∧ encoded.length ≤ maxSnapshotManifestBytes := by
    cases colon <;> exact ⟨_,rfl,by decide⟩
  have hcap : capture hash atRoot (oneDirectory colon) (fun _ => false)
      (argumentScope wholeTree)=.ok (treeManifest colon,encoded) := by
    simp only [capture,bind_ok_iff,liftPlatform,mapError_ok_iff,require_ok_iff,checkCancelled,
      pure_ok_iff,exists_const]
    refine ⟨_,rfl,_,hcoll,0,?_,Nat.zero_le _,trivial,(treeManifest colon).entries,?_,trivial,?_,
      encoded,henc,hlen,rfl⟩
    · rw [hsort]
      cases colon <;> rfl
    · rw [hsort]
      cases colon <;> rfl
    · cases colon <;> decide
  exact ⟨⟨treeManifest colon,encoded,_⟩,by rw [execute,hcap]; rfl⟩

/-- What a snapshot retains is a baseline for later snapshots of its scope just when the paths of
its directories are such as the reader accepts: it is read back as it was captured, no later
snapshot without links in its scope is refused, and one at once finds no change. -/
theorem captured_baseline_iff {retained : UInt64 → Except StoreError Bytes} {run : SnapshotRun}
    (hvalid : arguments.validate=.ok ())
    (hrun : execute hash workspace disk cancelled retained arguments=.ok run) :
    (decodeManifest run.retained=.ok run.manifest ∧
      run.manifest.scope=argumentScope arguments ∧
      (∀ hash' workspace' disk' cancelled' retained' later,
        IsDelta retained' (argumentScope arguments) run.retained later →
        Unlinked workspace' disk' (argumentScope arguments) →
        execute hash' workspace' disk' cancelled' retained' later≠.fail .invalidSnapshot) ∧
      ∀ retained' later, IsDelta retained' (argumentScope arguments) run.retained later →
        execute hash workspace disk (fun _ => false) retained' later =
          .ok ⟨run.manifest,run.retained,[]⟩) ↔
      Readable workspace disk (argumentScope arguments) := by
  have hcap := capture_of_execute hrun
  obtain ⟨roots,batches,-,hscope,-,-,hlen⟩ := capture_ok hcap
  rw [← decode_captured_iff hvalid hcap]
  refine ⟨fun h => h.1,fun hdec => ⟨hdec,hscope,?_,?_⟩⟩
  · intro hash' workspace' disk' cancelled' retained' later hdelta hunlinked
    rw [← hscope] at hdelta hunlinked
    by_cases hstart : cancelled' .start=true
    · rw [execute,hstart]
      exact nofun
    · rw [execute_delta hdelta hlen hdec (Bool.eq_false_iff.2 hstart)]
      refine bind_ne_error (fun h => ?_) fun _ _ => nofun
      have hne := @capture_ne_invalid hash' workspace' disk' cancelled' _ hunlinked
      cases hlater : capture hash' workspace' disk' cancelled' run.manifest.scope with
      | ok captured =>
        rw [hlater] at h
        cases h
      | error error =>
        rw [hlater] at h hne
        cases h
        exact hne rfl
  · intro retained' later hdelta
    rw [← hscope] at hdelta
    have hunc := capture_uncancelled hcap
    rw [← hscope] at hunc
    rw [execute_delta hdelta hlen hdec rfl,hunc]
    change Except.ok (SnapshotRun.mk run.manifest run.retained _)=_
    rw [delta_self]

theorem plain_directory_baseline : ∃ run,
    execute (fun _ => ⟨List.replicate 32 0,rfl⟩) atRoot (oneDirectory false) (fun _ => false)
      (fun reference => .error (.unknownAlias reference.toNat)) wholeTree=.ok run ∧
    decodeManifest run.retained=.ok run.manifest := by
  obtain ⟨run,hrun⟩ := execute_oneDirectory (fun _ => ⟨List.replicate 32 0,rfl⟩) false
  refine ⟨run,hrun,((captured_baseline_iff (by decide) hrun).2 ?_).1⟩
  rintro path ⟨_,-,_,-,rest,hlist⟩ -
  obtain ⟨entry,hentry,rfl⟩ := Disk.nodeIn_ne_none.1 (Disk.kind_ne_none.1 hlist.exist)
  simp only [List.mem_cons,List.not_mem_nil,or_false] at hentry
  rcases hentry with rfl | rfl
  · exact ⟨by decide,by decide,by decide⟩
  · exact ⟨by decide,by decide,by decide⟩

/-- A directory with a colon in its name is captured, but the manifest is not read back. -/
theorem colon_directory_baseline : ∃ run,
    execute (fun _ => ⟨List.replicate 32 0,rfl⟩) atRoot (oneDirectory true) (fun _ => false)
      (fun reference => .error (.unknownAlias reference.toNat)) wholeTree=.ok run ∧
    decodeManifest run.retained≠.ok run.manifest := by
  obtain ⟨run,hrun⟩ := execute_oneDirectory (fun _ => ⟨List.replicate 32 0,rfl⟩) true
  refine ⟨run,hrun,fun hdec => ?_⟩
  have hreadable := (decode_captured_iff (by decide) (capture_of_execute hrun)).1 hdec
  have hseen : Seen atRoot (oneDirectory true) (argumentScope wholeTree) [directoryName true] :=
    ⟨rootLogical,List.mem_singleton.2 rfl,⟨rootLogical,[]⟩,rfl,[directoryName true],rfl,by decide,
      by decide,.inr (by decide),fun _ => by decide⟩
  exact (hreadable _ hseen (.inl (by decide))).colon (by decide)

end Ash.SnapshotBaselines
