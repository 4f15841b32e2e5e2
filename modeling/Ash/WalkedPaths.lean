import Ash.LogicalPaths
import Ash.Outcomes

/-! # The paths a walk visits

The walk as a list of native paths, and which paths these are. -/

namespace Ash.WalkedPaths
open ByteCodecs DirectoryWalks LinkedTrees LogicalPaths WorkspacePaths
open WorkspaceOperations (PlatformError)

section
variable (workspace : NativeWorkspace) (disk : Disk)

/-- A walk at this depth goes to the path. -/
def passes (options : WalkOptions) (depth : ℕ) (native : Path) : Bool :=
  !workspace.isPassedOver depth native &&
    (options.includeHidden || !(0 < depth && isHidden native))

/-- The paths below a path in the order of the visit. -/
def reach (options : WalkOptions) : (remaining depth : ℕ) → Path → List Path
  | 0, depth, native => if passes workspace options depth native then [native] else []
  | remaining+1, depth, native =>
      if passes workspace options depth native then
        native::((disk.names native).mergeSort NativeWorkspace.nameLe).flatMap fun name =>
          reach options remaining (depth+1) (native++[name])
      else []

/-- The entry of a path that exists. -/
def entryOf (native : Path) : NativeEntry :=
  match disk.node native with
  | none => ⟨logicalOf workspace native,.other,0,none⟩
  | some node => ⟨logicalOf workspace native,classify node.kind,fileSize node.kind,
      modifiedMillis node⟩

end

variable {workspace : NativeWorkspace} {disk : Disk} {options : WalkOptions} {native : Path}

variable {node : Node} {depth remaining : ℕ} {name : Text} {rest : Path}

theorem nativeEntry_eq (h : workspace.root <+: native) (hnode : disk.node native=some node) :
    workspace.nativeEntry native node=.ok (entryOf workspace disk native) := by
  rw [NativeWorkspace.nativeEntry,logicalFromNative_eq h,entryOf,hnode]
  rfl

/-- What a walk adds to its output, unless that passes the limit. -/
def limited (options : WalkOptions) (output entries : List NativeEntry) :
    Except PlatformError (List NativeEntry) :=
  if (output++entries).length ≤ options.maxEntries then .ok (output++entries)
  else .error (.entryLimit options.maxEntries)

variable {output : List NativeEntry} {path : Path}

theorem limited_nil (h : output.length ≤ options.maxEntries) :
    limited options output []=.ok output := by
  rw [limited,List.append_nil,if_pos h]

/-- A fold whose steps add entries adds them all. -/
theorem foldlM_limited {α : Type}
    (visit : List NativeEntry → α → Except PlatformError (List NativeEntry)) (found : α → List NativeEntry) (items : List α)
    (h : ∀ item∈items, ∀ output : List NativeEntry, output.length ≤ options.maxEntries →
      visit output item=limited options output (found item))
    (output : List NativeEntry) (hout : output.length ≤ options.maxEntries) :
    items.foldlM visit output=limited options output (items.flatMap found) := by
  induction items generalizing output with
  | nil => exact (limited_nil hout).symm
  | cons item items ih =>
    rw [List.foldlM_cons,h item List.mem_cons_self output hout,List.flatMap_cons]
    by_cases hfits : (output++found item).length ≤ options.maxEntries
    · have hrest := ih (fun other hother => h other (List.mem_cons_of_mem _ hother))
        (output++found item) hfits
      rw [limited,if_pos hfits]
      change items.foldlM visit (output++found item)=_
      rw [hrest,limited,limited,List.append_assoc]
    · rw [limited,if_neg hfits,limited,if_neg]
      · rfl
      · rw [← List.append_assoc,List.length_append]
        omega

/-- The entry of a path comes first, then what is below it. -/
theorem visit_eq {below : List NativeEntry}
    {go : Node → List NativeEntry → Except PlatformError (List NativeEntry)}
    (hroot : workspace.root <+: native) (hnode : disk.node native=some node)
    (hout : output.length ≤ options.maxEntries)
    (hbelow : ∀ output : List NativeEntry, output.length ≤ options.maxEntries →
      go node output=limited options output below) :
    workspace.visit disk options depth native output go =
      limited options output
        (if passes workspace options depth native then entryOf workspace disk native::below
          else []) := by
  rw [NativeWorkspace.visit,hnode,passes]
  by_cases hover : workspace.isPassedOver depth native=true
  · simp [hover,limited_nil hout]
  · simp only [hover,Bool.false_eq_true,if_false,Bool.not_false,Bool.true_and]
    by_cases hhidden : ((0 < depth && isHidden native) && !options.includeHidden)=true
    · have hnot : (options.includeHidden || !(decide (0 < depth) && isHidden native))=false := by
        revert hhidden
        cases options.includeHidden <;> cases (decide (0 < depth) && isHidden native) <;> simp
      rw [if_pos hhidden,hnot,if_neg Bool.false_ne_true,limited_nil hout]
    · have hpasses : (options.includeHidden || !(decide (0 < depth) && isHidden native))=true := by
        revert hhidden
        cases options.includeHidden <;> cases (decide (0 < depth) && isHidden native) <;> simp
      rw [if_neg hhidden,hpasses,if_pos rfl]
      by_cases hfull : options.maxEntries ≤ output.length
      · rw [if_pos hfull,limited,if_neg]
        rw [List.length_append,List.length_cons]
        omega
      · rw [if_neg hfull,nativeEntry_eq hroot hnode]
        change go node (output++[entryOf workspace disk native])=_
        rw [hbelow _ (by rw [List.length_append,List.length_singleton]; omega),limited,limited,
          List.append_assoc,List.singleton_append]

theorem ensureContained_ok (h : workspace.root <+: native) :
    workspace.ensureContained native=.ok () := by
  rw [NativeWorkspace.ensureContained,if_pos (List.isPrefixOf_iff_prefix.2 h)]

/-- Below a directory come its names in order; below anything else there is nothing. -/
theorem below_eq (hroot : workspace.root <+: native) (hkind : disk.kind native=some node.kind)
    (hchild : ∀ depth native output, workspace.root <+: native → disk.kind native≠none →
      output.length ≤ options.maxEntries →
      workspace.walkInner disk options remaining depth native output=limited options output
        ((reach workspace disk options remaining depth native).map (entryOf workspace disk)))
    (output : List NativeEntry) (hout : output.length ≤ options.maxEntries) :
    (if node.kind≠.directory then .ok output
      else do
        let verified ← NativeWorkspace.liftIo (disk.canonicalize native)
        workspace.ensureContained verified
        ((disk.names verified).mergeSort NativeWorkspace.nameLe).foldlM
          (fun output name =>
            workspace.walkInner disk options remaining (depth+1) (verified++[name]) output)
          output) =
      limited options output (((disk.names native).mergeSort NativeWorkspace.nameLe).flatMap
        fun name => (reach workspace disk options remaining (depth+1) (native++[name])).map
          (entryOf workspace disk)) := by
  by_cases hdir : node.kind=.directory
  · rw [hdir] at hkind
    have hcan : disk.canonicalize native=.ok native :=
      Disk.canonicalize_self (by rw [hkind]; simp) (by rw [hkind]; simp)
    rw [if_neg (not_not.2 hdir),hcan]
    simp only [NativeWorkspace.liftIo,Except.mapError,bind,Except.bind,ensureContained_ok hroot]
    refine foldlM_limited _ _ _ (fun name hname output hout => ?_) output hout
    have hmem : name∈disk.names native := (List.mergeSort_perm _ _).mem_iff.1 hname
    exact hchild (depth+1) (native++[name]) output (hroot.trans (List.prefix_append _ _))
      (Disk.kind_ne_none.2 ((disk.named native name).1 hmem)) hout
  · have hnames : disk.names native=[] := by
      refine Disk.names_eq_nil ?_
      rw [hkind]
      exact fun h => hdir (Option.some.inj h)
    rw [if_pos hdir,hnames,List.mergeSort_nil,List.flatMap_nil,limited_nil hout]

theorem walkInner_eq (remaining depth : ℕ) (native : Path) (output : List NativeEntry)
    (hroot : workspace.root <+: native) (hnode : disk.kind native≠none)
    (hout : output.length ≤ options.maxEntries) :
    workspace.walkInner disk options remaining depth native output =
      limited options output
        ((reach workspace disk options remaining depth native).map (entryOf workspace disk)) := by
  induction remaining generalizing depth native output with
  | zero =>
    obtain ⟨node,hsome⟩ := Option.ne_none_iff_exists'.1 (Disk.kind_ne_none.1 hnode)
    rw [NativeWorkspace.walkInner,reach,
      visit_eq hroot hsome hout fun output hout => (limited_nil hout).symm]
    split <;> rfl
  | succ remaining ih =>
    obtain ⟨node,hsome⟩ := Option.ne_none_iff_exists'.1 (Disk.kind_ne_none.1 hnode)
    have hkind : disk.kind native=some node.kind := by rw [Disk.kind,hsome,Option.map_some]
    rw [NativeWorkspace.walkInner,reach,visit_eq hroot hsome hout (below_eq hroot hkind ih)]
    split
    · rw [List.map_cons,List.map_flatMap]
    · rfl

/-! ## Which paths are visited -/

/-- A walk passes at a path and at every name on the way from there. -/
def Passable (workspace : NativeWorkspace) (options : WalkOptions) : ℕ → Path → Path → Prop
  | depth, native, [] => passes workspace options depth native=true
  | depth, native, name::rest => passes workspace options depth native=true ∧
      Passable workspace options (depth+1) (native++[name]) rest

theorem mem_reach (hnode : disk.kind native≠none) :
    path∈reach workspace disk options remaining depth native ↔
      ∃ rest, path=native++rest ∧ rest.length ≤ remaining ∧ disk.kind path≠none ∧
        Passable workspace options depth native rest := by
  induction remaining generalizing depth native with
  | zero =>
    rw [reach]
    constructor
    · intro hmem
      split at hmem
      · next hpasses =>
        obtain rfl := List.mem_singleton.1 hmem
        exact ⟨[],(List.append_nil _).symm,le_rfl,hnode,hpasses⟩
      · exact absurd hmem List.not_mem_nil
    · rintro ⟨rest,rfl,hlen,-,hpass⟩
      obtain rfl := List.length_eq_zero_iff.1 (Nat.le_zero.1 hlen)
      have hpasses : passes workspace options depth native=true := hpass
      rw [if_pos hpasses,List.append_nil]
      exact List.mem_singleton.2 rfl
  | succ remaining ih =>
    rw [reach]
    constructor
    · intro hmem
      split at hmem
      · next hpasses =>
        obtain rfl | hmem := List.mem_cons.1 hmem
        · exact ⟨[],(List.append_nil _).symm,Nat.zero_le _,hnode,hpasses⟩
        · obtain ⟨name,hname,hmem⟩ := List.mem_flatMap.1 hmem
          have hlist := (disk.named native name).1 ((List.mergeSort_perm _ _).mem_iff.1 hname)
          obtain ⟨rest,rfl,hlen,hexists,hpass⟩ :=
            (ih (Disk.kind_ne_none.2 hlist)).1 hmem
          exact ⟨name::rest,(List.append_cons _ _ _).symm,Nat.succ_le_succ hlen,hexists,
            hpasses,hpass⟩
      · exact absurd hmem List.not_mem_nil
    · rintro ⟨rest,rfl,hlen,hexists,hpass⟩
      cases rest with
      | nil =>
        have hpasses : passes workspace options depth native=true := hpass
        rw [if_pos hpasses,List.append_nil]
        exact List.mem_cons_self
      | cons name rest =>
        obtain ⟨hpasses,hpass⟩ := hpass
        have hchild : disk.kind (native++[name])≠none := by
          by_cases hrest : rest=[]
          · rwa [hrest] at hexists
          · rw [List.append_cons] at hexists
            rw [Disk.kind_above hrest hexists]
            simp
        have hlist : name∈disk.names native :=
          (disk.named native name).2 (Disk.kind_ne_none.1 hchild)
        rw [if_pos hpasses]
        refine List.mem_cons_of_mem _ (List.mem_flatMap.2
          ⟨name,(List.mergeSort_perm _ _).mem_iff.2 hlist,(ih hchild).2 ?_⟩)
        exact ⟨rest,List.append_cons _ _ _,Nat.le_of_succ_le_succ hlen,hexists,hpass⟩

theorem nodup_reach (hnode : disk.kind native≠none) :
    (reach workspace disk options remaining depth native).Nodup := by
  induction remaining generalizing depth native with
  | zero =>
    rw [reach]
    split
    · exact List.nodup_singleton _
    · exact List.nodup_nil
  | succ remaining ih =>
    rw [reach]
    split
    swap
    · exact List.nodup_nil
    -- the paths below different names are different, and none is the directory itself
    have hchild : ∀ name∈(disk.names native).mergeSort NativeWorkspace.nameLe,
        disk.kind (native++[name])≠none := fun name hname =>
      Disk.kind_ne_none.2 ((disk.named native name).1 ((List.mergeSort_perm _ _).mem_iff.1 hname))
    refine List.nodup_cons.2 ⟨fun hmem => ?_,List.nodup_flatMap.2 ⟨fun name hname => ?_,?_⟩⟩
    · obtain ⟨name,hname,hmem⟩ := List.mem_flatMap.1 hmem
      obtain ⟨rest,heq,-⟩ := (mem_reach (hchild name hname)).1 hmem
      have hlen := congrArg List.length heq
      simp at hlen
    · exact ih (hchild name hname)
    · have hnames : ((disk.names native).mergeSort NativeWorkspace.nameLe).Nodup :=
        (List.mergeSort_perm _ _).nodup_iff.2 (disk.nodup native)
      refine hnames.imp_of_mem fun {left right} hleft hright hne => ?_
      intro path hpath hpath'
      obtain ⟨rest,rfl,-⟩ := (mem_reach (hchild left hleft)).1 hpath
      obtain ⟨rest',heq,-⟩ := (mem_reach (hchild right hright)).1 hpath'
      rw [← List.append_cons,← List.append_cons] at heq
      exact hne (List.cons.inj (List.append_cancel_left heq)).1

/-- A name below the root of a walk passes unless it is hidden or the state directory. -/
theorem passes_below :
    passes workspace options (depth+1) (native++[name])=true ↔
      (depth=0 → workspace.internalState=true → name≠stateDirectory) ∧
        (options.includeHidden=true ∨ name.head?≠some '.') := by
  by_cases hdepth : depth=0
  · cases hstate : workspace.internalState <;>
      simp [passes,NativeWorkspace.isPassedOver,isHidden,hdepth,hstate]
  · simp [passes,NativeWorkspace.isPassedOver,isHidden,hdepth]

/-- The names that a walk with these options shows. -/
def Shown (options : WalkOptions) (names : Path) : Prop :=
  options.includeHidden=true ∨ ∀ name∈names, name.head?≠some '.'

theorem shown_cons : Shown options (name::rest) ↔
    (options.includeHidden=true ∨ name.head?≠some '.') ∧ Shown options rest := by
  simp only [Shown,List.forall_mem_cons]
  tauto

/-- Beyond the first name only hidden names stop a walk. -/
theorem passable_deep :
    Passable workspace options (depth+1) (native++[name]) rest ↔
      (depth=0 → workspace.internalState=true → name≠stateDirectory) ∧
        Shown options (name::rest) := by
  induction rest generalizing depth native name with
  | nil =>
    rw [Passable,passes_below,shown_cons]
    simp [Shown]
  | cons next rest ih =>
    have hdeep : ¬ depth+1=0 := Nat.succ_ne_zero depth
    rw [Passable,passes_below,ih]
    simp only [shown_cons,hdeep,false_imp_iff,true_and,and_assoc]

theorem passable_zero :
    Passable workspace options 0 native rest ↔
      (workspace.internalState=true → rest.head?≠some stateDirectory) ∧ Shown options rest := by
  have hfirst : passes workspace options 0 native=true := by
    simp [passes,NativeWorkspace.isPassedOver]
  cases rest with
  | nil => simp [Passable,hfirst,Shown]
  | cons name rest =>
    rw [Passable,passable_deep]
    simp [hfirst]

/-- The paths that a walk from a directory lists. -/
structure Listed (workspace : NativeWorkspace) (disk : Disk) (options : WalkOptions)
    (native path : Path) (rest : Path) : Prop where
  below : path=native++rest
  depth : rest.length ≤ options.maxDepth.toNat
  exist : disk.kind path≠none
  shown : Shown options rest
  first : workspace.internalState=true → rest.head?≠some stateDirectory

theorem mem_reach_zero (hnode : disk.kind native≠none) :
    path∈reach workspace disk options options.maxDepth.toNat 0 native ↔
      ∃ rest, Listed workspace disk options native path rest := by
  rw [mem_reach hnode]
  constructor
  · rintro ⟨rest,hbelow,hdepth,hexist,hpass⟩
    obtain ⟨hfirst,hshown⟩ := passable_zero.1 hpass
    exact ⟨rest,hbelow,hdepth,hexist,hshown,hfirst⟩
  · rintro ⟨rest,hbelow,hdepth,hexist,hshown,hfirst⟩
    exact ⟨rest,hbelow,hdepth,hexist,passable_zero.2 ⟨hfirst,hshown⟩⟩

end Ash.WalkedPaths
