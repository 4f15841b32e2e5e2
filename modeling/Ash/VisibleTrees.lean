import Ash.SortedKeys
import Ash.WalkedPaths

/-! # Walks list the visible tree

What a walk is for: it lists a directory and everything below it that is not hidden, each once
and in the order of the logical paths, without the state directory of the workspace. -/

namespace Ash.VisibleTrees
open ByteCodecs DirectoryWalks LinkedTrees LogicalPaths Outcomes WalkedPaths WorkspacePaths
open WorkspaceOperations (PlatformError)

variable {workspace : NativeWorkspace} {disk : Disk} {options : WalkOptions}
  {root : ResolvedPath} {native : Path} {entries : List NativeEntry}

/-! ## The result of a walk -/

theorem native_mem_reach {remaining : ℕ} :
    native∈reach workspace disk options remaining 0 native := by
  have hpasses : passes workspace options 0 native=true := by
    simp [passes,NativeWorkspace.isPassedOver]
  cases remaining with
  | zero =>
    rw [reach,if_pos hpasses]
    exact List.mem_singleton.2 rfl
  | succ remaining =>
    rw [reach,if_pos hpasses]
    exact List.mem_cons_self

/-- The entries of a walk in the order of the visit. -/
def visited (workspace : NativeWorkspace) (disk : Disk) (options : WalkOptions) (native : Path) :
    List NativeEntry :=
  (reach workspace disk options options.maxDepth.toNat 0 native).map (entryOf workspace disk)

theorem walk_eq (hins : IsInside workspace disk root.native)
    (htgt : disk.IsTarget root.native) :
    workspace.walk disk root options =
      if (visited workspace disk options root.native).length ≤ options.maxEntries then
        .ok ((visited workspace disk options root.native).mergeSort NativeWorkspace.logicalLe)
      else .error (.entryLimit options.maxEntries) := by
  have hpos : 0 < (visited workspace disk options root.native).length :=
    List.length_pos_of_mem (List.mem_map_of_mem native_mem_reach)
  rw [NativeWorkspace.walk]
  by_cases hzero : options.maxEntries=0
  · rw [if_pos hzero,if_neg (by omega),hzero]
  · have hvalid : workspace.revalidate disk root=.ok root.native := by
      rw [NativeWorkspace.revalidate,Disk.canonicalize_self htgt.1 htgt.2]
      simp only [NativeWorkspace.liftIo,Except.mapError,bind,Except.bind,
        ensureContained_ok hins.contained]
      rfl
    rw [if_neg hzero,hvalid]
    change ((workspace.walkInner disk options options.maxDepth.toNat 0 root.native []).bind fun
      entries => .ok (entries.mergeSort NativeWorkspace.logicalLe))=_
    rw [walkInner_eq _ _ _ _ hins.contained hins.exist (Nat.zero_le _),limited,List.nil_append]
    change ((if (visited workspace disk options root.native).length ≤ options.maxEntries then
      Except.ok (visited workspace disk options root.native) else _).bind _)=_
    split <;> rfl

theorem walk_within (hins : IsInside workspace disk root.native)
    (htgt : disk.IsTarget root.native)
    (h : ∀ max, workspace.walk disk root options≠.error (.entryLimit max)) :
    workspace.walk disk root options =
      .ok ((visited workspace disk options root.native).mergeSort NativeWorkspace.logicalLe) := by
  have hwalk := @walk_eq _ _ options _ hins htgt
  split at hwalk
  · exact hwalk
  · exact absurd hwalk (h _)

/-! ## Order -/

/-- The entries stand in the order of their logical paths, none twice. -/
def Ascending (entries : List NativeEntry) : Prop :=
  entries.Pairwise fun left right => utf8 left.logical < utf8 right.logical

theorem Ascending.nodup (h : Ascending entries) : entries.Nodup := by
  refine List.Pairwise.imp (S := fun left right => left≠right) ?_ h
  rintro left _ hlt rfl
  exact List.lt_irrefl _ hlt

/-- Ascending lists of the same entries are the same. -/
theorem Ascending.ext {entries' : List NativeEntry} (h : Ascending entries)
    (h' : Ascending entries') (hmem : ∀ entry, entry∈entries ↔ entry∈entries') :
    entries=entries' := by
  refine List.Perm.eq_of_pairwise (fun left right _ _ hlt hgt => ?_) h h'
    ((List.perm_ext_iff_of_nodup h.nodup h'.nodup).2 hmem)
  exact absurd hgt (List.lt_asymm hlt)

theorem logical_entryOf : (entryOf workspace disk native).logical=logicalOf workspace native := by
  rw [entryOf]
  split <;> rfl

variable {rest : Path}

theorem IsInside.below (h : IsInside workspace disk native)
    (hexist : disk.kind (native++rest)≠none) : IsInside workspace disk (native++rest) :=
  ⟨h.contained.trans (List.prefix_append _ _),hexist⟩

variable {path : Path}

theorem isInside_of_mem_reach (hins : IsInside workspace disk native)
    (hmem : path∈reach workspace disk options options.maxDepth.toNat 0 native) :
    IsInside workspace disk path := by
  obtain ⟨rest,hlist⟩ := (mem_reach_zero hins.exist).1 hmem
  obtain rfl := hlist.below
  exact IsInside.below hins hlist.exist

theorem ascending_mergeSort (hins : IsInside workspace disk native) :
    Ascending ((visited workspace disk options native).mergeSort NativeWorkspace.logicalLe) := by
  -- different paths have different logical paths, so an order of them is strict
  have hnodup : ((visited workspace disk options native).map NativeEntry.logical).Nodup := by
    rw [visited,List.map_map]
    refine List.Nodup.map_on (fun left hleft right hright heq => ?_) (nodup_reach hins.exist)
    simp only [Function.comp_apply,logical_entryOf] at heq
    exact logicalOf_injective (isInside_of_mem_reach hins hleft)
      (isInside_of_mem_reach hins hright) heq
  have hsort : ((visited workspace disk options native).mergeSort
      NativeWorkspace.logicalLe).Pairwise fun left right =>
        utf8 left.logical ≤ utf8 right.logical :=
    SortedKeys.pairwise_mergeSort (fun entry : NativeEntry => utf8 entry.logical) _
  have hdist : ((visited workspace disk options native).mergeSort
      NativeWorkspace.logicalLe).Pairwise fun left right => left.logical≠right.logical :=
    List.pairwise_map.1 (((List.mergeSort_perm _ _).map _).nodup_iff.2 hnodup)
  refine (hsort.and hdist).imp fun {left right} h => ?_
  exact Std.lt_of_le_of_ne h.1 fun heq => h.2 (utf8_injective heq)

theorem entryOf_injective (h : IsInside workspace disk native) (h' : IsInside workspace disk path)
    (heq : entryOf workspace disk native=entryOf workspace disk path) : native=path := by
  refine logicalOf_injective h h' ?_
  have hlog := congrArg NativeEntry.logical heq
  rwa [logical_entryOf,logical_entryOf] at hlog

/-- The entries of the paths below a directory with a property, each once and in order. -/
structure Enumerates (workspace : NativeWorkspace) (disk : Disk) (native : Path)
    (p : Path → Prop) (entries : List NativeEntry) : Prop where
  ascending : Ascending entries
  mem : ∀ entry, entry∈entries ↔ ∃ rest, p rest ∧ entry=entryOf workspace disk (native++rest)

section
variable {p q : Path → Prop}

theorem Enumerates.unique {entries' : List NativeEntry}
    (h : Enumerates workspace disk native p entries)
    (h' : Enumerates workspace disk native p entries') : entries=entries' :=
  h.ascending.ext h'.ascending fun entry => (h.mem entry).trans (h'.mem entry).symm

theorem Enumerates.mem_iff (h : Enumerates workspace disk native p entries)
    (hins : IsInside workspace disk native)
    (hp : ∀ rest, p rest → disk.kind (native++rest)≠none) {rest : Path}
    (hexist : disk.kind (native++rest)≠none) :
    entryOf workspace disk (native++rest)∈entries ↔ p rest := by
  rw [h.mem]
  constructor
  · rintro ⟨rest',hrest',heq⟩
    have hpath := entryOf_injective (IsInside.below hins hexist)
      (IsInside.below hins (hp rest' hrest')) heq
    rwa [List.append_cancel_left hpath]
  · exact fun hrest => ⟨rest,hrest,rfl⟩

/-- Entries of the paths with one property are those of another just when the two agree. -/
theorem Enumerates.congr_iff (h : Enumerates workspace disk native p entries)
    (hins : IsInside workspace disk native)
    (hp : ∀ rest, p rest → disk.kind (native++rest)≠none)
    (hq : ∀ rest, q rest → disk.kind (native++rest)≠none) :
    Enumerates workspace disk native q entries ↔ ∀ rest, p rest ↔ q rest := by
  constructor
  · intro h' rest
    by_cases hexist : disk.kind (native++rest)≠none
    · rw [← h.mem_iff hins hp hexist,← h'.mem_iff hins hq hexist]
    · exact iff_of_false (fun hrest => hexist (hp rest hrest)) fun hrest => hexist (hq rest hrest)
  · intro hiff
    refine ⟨h.ascending,fun entry => (h.mem entry).trans ?_⟩
    exact exists_congr fun rest => and_congr_left fun _ => hiff rest

end

/-- A walk has the entries of the listed paths. -/
theorem walk_enumerates (hins : IsInside workspace disk root.native)
    (htgt : disk.IsTarget root.native) (h : workspace.walk disk root options=.ok entries) :
    Enumerates workspace disk root.native
      (fun rest => Listed workspace disk options root.native (root.native++rest) rest)
      entries := by
  have hwalk := walk_within hins htgt fun max hmax => by rw [h] at hmax; cases hmax
  obtain rfl := Except.ok.inj (h.symm.trans hwalk)
  refine ⟨ascending_mergeSort hins,fun entry => ?_⟩
  rw [(List.mergeSort_perm _ _).mem_iff,visited,List.mem_map]
  constructor
  · rintro ⟨path,hpath,rfl⟩
    obtain ⟨rest,hlist⟩ := (mem_reach_zero hins.exist).1 hpath
    obtain rfl := hlist.below
    exact ⟨rest,hlist,rfl⟩
  · rintro ⟨rest,hlist,rfl⟩
    exact ⟨_,(mem_reach_zero hins.exist).2 ⟨rest,hlist⟩,rfl⟩

theorem resolveExisting_spec {logical : Text}
    (h : workspace.resolveExisting disk logical=.ok root) :
    IsInside workspace disk root.native ∧ disk.IsTarget root.native := by
  simp only [NativeWorkspace.resolveExisting,NativeWorkspace.liftIo,bind_ok_iff,mapError_ok_iff,
    pure_ok_iff] at h
  obtain ⟨_,-,_,-,native,hnative,_,hcontained,rfl⟩ := h
  have htgt := Disk.canonicalize_spec hnative
  refine ⟨⟨?_,htgt.1⟩,htgt⟩
  rw [NativeWorkspace.ensureContained] at hcontained
  split at hcontained
  · next hroot => exact List.isPrefixOf_iff_prefix.1 hroot
  · cases hcontained

/-! ## The visible tree -/

/-- What a walk should list: the paths that exist in so many steps from a directory, none of
the names hidden unless asked for, and not in the state directory of the workspace.  Above a path
of the disk there are only directories, so no link is passed on the way. -/
structure Visible (workspace : NativeWorkspace) (disk : Disk) (options : WalkOptions)
    (native rest : Path) : Prop where
  depth : rest.length ≤ options.maxDepth.toNat
  exist : disk.kind (native++rest)≠none
  shown : Shown options rest
  open_ : ¬ Reserved workspace (native++rest)

/-- No state directory stands in a directory where a walk with these options would show it. -/
def Plain (disk : Disk) (options : WalkOptions) (native : Path) : Prop :=
  options.includeHidden=false ∨ options.maxDepth=0 ∨
    disk.kind (native++[stateDirectory])=none

/-- The walk meets the state directory of the workspace, and no other, where it leaves it out. -/
structure Unreserved (workspace : NativeWorkspace) (disk : Disk) (options : WalkOptions)
    (native : Path) : Prop where
  outside : ¬ Reserved workspace native
  plain : native=workspace.root ∨ Plain disk options native

theorem reserved_append (hroot : workspace.root <+: native) :
    Reserved workspace (native++rest) ↔ Reserved workspace native ∨
      native=workspace.root ∧ rest.head?=some stateDirectory := by
  obtain ⟨names,rfl⟩ := hroot
  rw [Reserved,Reserved,List.append_assoc,List.prefix_append_right_inj,List.prefix_append_right_inj]
  cases names with
  | nil => cases rest <;> simp [eq_comm]
  | cons name names => simp

theorem head_state_not_shown (hhidden : options.includeHidden=false) (hshown : Shown options rest)
    : rest.head?≠some stateDirectory := by
  cases rest with
  | nil => simp
  | cons name rest =>
    rintro heq
    obtain rfl := Option.some.inj heq
    rcases hshown with hall | hnone
    · rw [hhidden] at hall
      cases hall
    · exact hnone stateDirectory List.mem_cons_self rfl

/-- Where no state directory stands, a walk has none to leave out. -/
theorem Plain.head (h : Plain disk options native) (hdepth : rest.length ≤ options.maxDepth.toNat)
    (hexist : disk.kind (native++rest)≠none) (hshown : Shown options rest) :
    rest.head?≠some stateDirectory := by
  rcases h with hhidden | hzero | hnone
  · exact head_state_not_shown hhidden hshown
  · rw [hzero] at hdepth
    obtain rfl := List.length_eq_zero_iff.1 (Nat.le_zero.1 hdepth)
    simp
  · cases rest with
    | nil => simp
    | cons name rest =>
      rintro heq
      obtain rfl := Option.some.inj heq
      rw [List.append_cons] at hexist
      by_cases hrest : rest=[]
      · rw [hrest,List.append_nil] at hexist
        exact hexist hnone
      · rw [Disk.kind_above hrest hexist] at hnone
        cases hnone

/-- Otherwise the state directory itself would be shown. -/
theorem shown_of_not_plain (h : ¬ Plain disk options native) :
    [stateDirectory].length ≤ options.maxDepth.toNat ∧
      disk.kind (native++[stateDirectory])≠none ∧ Shown options [stateDirectory] := by
  simp only [Plain,not_or,Bool.not_eq_false] at h
  obtain ⟨hhidden,hdepth,hexist⟩ := h
  refine ⟨?_,hexist,.inl hhidden⟩
  have hne : options.maxDepth.toNat≠0 := fun hzero => hdepth (UInt16.toNat_inj.1 hzero)
  exact Nat.one_le_iff_ne_zero.2 hne

/-- The listed paths are the visible ones just when the walk leaves out what it should. -/
theorem listed_iff_visible (hstate : workspace.internalState=true)
    (hins : IsInside workspace disk native) :
    (∀ rest, Listed workspace disk options native (native++rest) rest ↔
      Visible workspace disk options native rest) ↔ Unreserved workspace disk options native := by
  constructor
  · intro h
    have hself : Listed workspace disk options native (native++[]) [] :=
      ⟨rfl,Nat.zero_le _,by rw [List.append_nil]; exact hins.exist,.inr (by simp),by simp⟩
    have houtside : ¬ Reserved workspace native := by
      have hopen := ((h []).1 hself).open_
      rwa [List.append_nil] at hopen
    refine ⟨houtside,?_⟩
    by_contra hnot
    rw [not_or] at hnot
    obtain ⟨hdepth,hexist,hshown⟩ := shown_of_not_plain hnot.2
    have hopen : ¬ Reserved workspace (native++[stateDirectory]) := by
      rw [reserved_append hins.contained]
      exact fun hor => hor.elim houtside fun hroot => hnot.1 hroot.1
    exact ((h _).2 ⟨hdepth,hexist,hshown,hopen⟩).first hstate rfl
  · intro h rest
    constructor
    · intro hlist
      refine ⟨hlist.depth,hlist.exist,hlist.shown,?_⟩
      rw [reserved_append hins.contained]
      exact fun hor => hor.elim h.outside fun hroot => hlist.first hstate hroot.2
    · intro hvisible
      refine ⟨rfl,hvisible.depth,hvisible.exist,hvisible.shown,fun _ hhead => ?_⟩
      rcases h.plain with hroot | hplain
      · exact hvisible.open_ ((reserved_append hins.contained).2 (.inr ⟨hroot,hhead⟩))
      · exact hplain.head hvisible.depth hvisible.exist hvisible.shown hhead

/-! ## Walks from a directory below -/

variable {inner : ResolvedPath} {options' : WalkOptions} {names : Path}
  {entries' : List NativeEntry}

theorem shown_append :
    Shown options (names++rest) ↔ Shown options names ∧ Shown options rest := by
  simp only [Shown,List.forall_mem_append]
  tauto

/-- What a walk lists below a listed directory; only from there it would leave out more. -/
theorem listed_append (hhidden : options.includeHidden=options'.includeHidden)
    (hdepth : options.maxDepth.toNat=names.length+options'.maxDepth.toNat)
    (hself : Listed workspace disk options native (native++names) names) :
    Listed workspace disk options native (native++names++rest) (names++rest) ↔
      rest.length ≤ options'.maxDepth.toNat ∧ disk.kind (native++names++rest)≠none ∧
        Shown options' rest ∧ (names=[] → workspace.internalState=true →
          rest.head?≠some stateDirectory) := by
  have hshown : Shown options rest ↔ Shown options' rest := by rw [Shown,Shown,hhidden]
  constructor
  · intro h
    have hlen := h.depth
    rw [List.length_append] at hlen
    refine ⟨by omega,h.exist,hshown.1 (shown_append.1 h.shown).2,fun hnil => ?_⟩
    have hfirst := h.first
    rwa [hnil,List.nil_append] at hfirst
  · rintro ⟨hlen,hexist,hrest,hfirst⟩
    refine ⟨List.append_assoc _ _ _,?_,hexist,shown_append.2 ⟨hself.shown,hshown.2 hrest⟩,?_⟩
    · rw [List.length_append]
      omega
    · cases names with
      | nil => exact hfirst rfl
      | cons name names => exact hself.first

theorem filter_enumerates (hins : IsInside workspace disk native)
    (hexist : disk.kind (native++names)≠none)
    (h : Enumerates workspace disk native
      (fun rest => Listed workspace disk options native (native++rest) rest) entries) :
    Enumerates workspace disk (native++names)
      (fun rest => Listed workspace disk options native (native++names++rest) (names++rest))
      (entries.filter fun entry =>
        isUnder (logicalOf workspace (native++names)) entry.logical) := by
  refine ⟨List.Pairwise.filter _ h.ascending,fun entry => ?_⟩
  rw [List.mem_filter,h.mem]
  constructor
  · rintro ⟨⟨rest,hlist,rfl⟩,hunder⟩
    rw [logical_entryOf,isUnder_logicalOf (IsInside.below hins hexist)
      (IsInside.below hins hlist.exist),List.prefix_append_right_inj] at hunder
    obtain ⟨rest,rfl⟩ := hunder
    rw [← List.append_assoc] at hlist ⊢
    exact ⟨rest,hlist,rfl⟩
  · rintro ⟨rest,hlist,rfl⟩
    have hinner := IsInside.below hins hexist
    refine ⟨⟨names++rest,?_,by rw [List.append_assoc]⟩,?_⟩
    · rwa [List.append_assoc] at hlist
    · rw [logical_entryOf,isUnder_logicalOf hinner (IsInside.below hinner hlist.exist)]
      exact List.prefix_append _ _

theorem restriction_iff (hstate : workspace.internalState=true)
    (hins : IsInside workspace disk native)
    (hhidden : options.includeHidden=options'.includeHidden)
    (hdepth : options.maxDepth.toNat=names.length+options'.maxDepth.toNat)
    (hself : Listed workspace disk options native (native++names) names)
    (h : Enumerates workspace disk native
      (fun rest => Listed workspace disk options native (native++rest) rest) entries)
    (h' : Enumerates workspace disk (native++names) (fun rest =>
      Listed workspace disk options' (native++names) (native++names++rest) rest) entries') :
    (entries.filter fun entry =>
        isUnder (logicalOf workspace (native++names)) entry.logical)=entries' ↔
      names=[] ∨ Plain disk options' (native++names) := by
  have hfilter := filter_enumerates hins hself.exist h
  have hinner := IsInside.below hins hself.exist
  have hcongr := hfilter.congr_iff hinner (fun _ hlist => hlist.exist)
    (q := fun rest => Listed workspace disk options' (native++names) (native++names++rest)
      rest) fun _ hlist => hlist.exist
  constructor
  · rintro rfl
    by_contra hnot
    rw [not_or] at hnot
    obtain ⟨hlen,hexist,hshown⟩ := shown_of_not_plain hnot.2
    have hlist := (listed_append hhidden hdepth hself).2
      ⟨hlen,hexist,hshown,fun hnil => absurd hnil hnot.1⟩
    exact ((hcongr.1 h' _).1 hlist).first hstate rfl
  · intro hplain
    refine (hcongr.2 fun rest => ?_).unique h'
    rw [listed_append hhidden hdepth hself]
    constructor
    · rintro ⟨hlen,hexist,hshown,hfirst⟩
      refine ⟨rfl,hlen,hexist,hshown,fun hinternal => ?_⟩
      rcases hplain with hnil | hplain
      · exact hfirst hnil hinternal
      · exact hplain.head hlen hexist hshown
    · intro hlist
      exact ⟨hlist.depth,hlist.exist,hlist.shown,fun _ => hlist.first⟩

/-! ## Which walks list the visible tree -/

/-- A workspace whose directory `a` has a directory of the name of the state directory. -/
def stateBelow : Disk :=
  Disk.ofEntries [([],⟨.directory,none⟩),([stateDirectory],⟨.directory,none⟩),
    ([['a']],⟨.directory,none⟩),([['a'],stateDirectory],⟨.directory,none⟩)] 40 (by decide)

def atRoot : NativeWorkspace := ⟨⟨true⟩,[]⟩

def letter : ResolvedPath := ⟨['a'],[['a']]⟩

theorem resolve_letter : atRoot.resolveExisting stateBelow ['a']=.ok letter := by rfl

/-- The walk leaves out the directory in `a`, whether hidden entries are asked for or not. -/
theorem walk_letter (includeHidden : Bool) :
    atRoot.walk stateBelow letter ⟨1,includeHidden,10⟩ =
      .ok [⟨['a'],.directory,0,none⟩] := by
  obtain ⟨hins,htgt⟩ := resolveExisting_spec resolve_letter
  have hnames : stateBelow.names letter.native=[stateDirectory] := by decide
  have hover : passes atRoot ⟨1,includeHidden,10⟩ 1 (letter.native++[stateDirectory])=false :=
    rfl
  have hvis : visited atRoot stateBelow ⟨1,includeHidden,10⟩ letter.native =
      [⟨['a'],.directory,0,none⟩] := by
    change ((if passes atRoot _ 0 letter.native then letter.native::_ else []).map _)=_
    rw [hnames,List.mergeSort_singleton,List.flatMap_singleton,reach,hover]
    cases includeHidden <;> rfl
  rw [walk_eq hins htgt,hvis,List.mergeSort_singleton]
  rfl

/-- A walk lists the visible tree just when it starts outside of the state directory and meets no
directory of that name other than the one of the workspace.  Its part below a directory that it
lists is the walk from there, unless that one leaves out a directory of that name. -/
theorem walk_lists_visible_iff {logical : Text} (hstate : workspace.internalState=true)
    (hresolve : workspace.resolveExisting disk logical=.ok root)
    (hlimit : ∀ max, workspace.walk disk root options≠.error (.entryLimit max)) :
    ((∃ entries, workspace.walk disk root options=.ok entries ∧
        Enumerates workspace disk root.native (Visible workspace disk options root.native)
          entries) ↔
      Unreserved workspace disk options root.native) ∧
    ∀ logical' inner options' names entries entries',
      workspace.resolveExisting disk logical'=.ok inner →
      inner.native=root.native++names →
      options.includeHidden=options'.includeHidden →
      options.maxDepth.toNat=names.length+options'.maxDepth.toNat →
      workspace.walk disk root options=.ok entries →
      workspace.walk disk inner options'=.ok entries' →
      entryOf workspace disk inner.native∈entries →
      ((entries.filter fun entry =>
          isUnder (logicalOf workspace inner.native) entry.logical)=entries' ↔
        names=[] ∨ Plain disk options' inner.native) := by
  obtain ⟨hins,htgt⟩ := resolveExisting_spec hresolve
  constructor
  · have hwalk := walk_within hins htgt hlimit
    have hcongr := (walk_enumerates hins htgt hwalk).congr_iff hins
      (fun _ hlist => hlist.exist) (q := Visible workspace disk options root.native)
      fun _ hvisible => hvisible.exist
    rw [← listed_iff_visible hstate hins,← hcongr]
    constructor
    · rintro ⟨entries,hents,hlists⟩
      rwa [Except.ok.inj (hwalk.symm.trans hents)]
    · exact fun hlists => ⟨_,hwalk,hlists⟩
  · intro logical' inner options' names entries entries' hinner hbelow hhidden hdepth hwalk
      hwalk' hself
    obtain ⟨hinside',htarget'⟩ := resolveExisting_spec hinner
    have hall := walk_enumerates hins htgt hwalk
    have hall' := walk_enumerates hinside' htarget' hwalk'
    have hexist := hinside'.exist
    rw [hbelow] at hself hall' hexist ⊢
    refine restriction_iff hstate hins hhidden hdepth ?_ hall hall'
    exact (hall.mem_iff hins (fun _ hlist => hlist.exist) hexist).1 hself

theorem walk_lists_letter :
    (∀ max, atRoot.walk stateBelow letter ⟨1,false,10⟩≠.error (.entryLimit max)) ∧
      ∃ entries, atRoot.walk stateBelow letter ⟨1,false,10⟩=.ok entries ∧
        Enumerates atRoot stateBelow letter.native
          (Visible atRoot stateBelow ⟨1,false,10⟩ letter.native) entries := by
  have hlimit : ∀ max, atRoot.walk stateBelow letter ⟨1,false,10⟩≠.error (.entryLimit max) := by
    intro max
    rw [walk_letter]
    exact nofun
  exact ⟨hlimit,(walk_lists_visible_iff rfl resolve_letter hlimit).1.2
    ⟨by decide,.inr (.inl rfl)⟩⟩

/-- From `a` the directory of that name is missing when hidden entries are asked for. -/
theorem walk_hides_directory :
    ∃ root, atRoot.resolveExisting stateBelow ['a']=.ok root ∧
      stateBelow.kind root.native=some .directory ∧
      (∀ max, atRoot.walk stateBelow root ⟨1,true,10⟩≠.error (.entryLimit max)) ∧
      ¬ ∃ entries, atRoot.walk stateBelow root ⟨1,true,10⟩=.ok entries ∧
        Enumerates atRoot stateBelow root.native
          (Visible atRoot stateBelow ⟨1,true,10⟩ root.native) entries := by
  refine ⟨letter,resolve_letter,by decide,fun max => ?_,?_⟩
  · rw [walk_letter]
    exact nofun
  · rintro ⟨entries,hwalk,hlists⟩
    rw [walk_letter] at hwalk
    obtain rfl := Except.ok.inj hwalk
    have hvisible : Visible atRoot stateBelow ⟨1,true,10⟩ letter.native [stateDirectory] :=
      ⟨by decide,by decide,.inl rfl,by decide⟩
    have hmem := (hlists.mem _).2 ⟨_,hvisible,rfl⟩
    exact absurd hmem (by decide)

end Ash.VisibleTrees
