import Ash.DirectoryWalks

/-! # Logical paths of native paths

The logical path of a path inside the workspace joins the names below the root by slashes.  No
name has a slash in it, so the names can be read off again and prefixes are kept. -/

namespace Ash.LogicalPaths
open ByteCodecs DirectoryWalks LinkedTrees WorkspacePaths
open NativeWorkspace (joinNames)

/-! ## Joined names -/

def AreNames (names : Path) : Prop := ∀ name∈names, IsName name

theorem splitOn_joinNames {names : Path} (h : AreNames names) (hne : names≠[]) :
    (joinNames names).splitOn '/'=names :=
  List.splitOn_intercalate '/' (fun name hname => (h name hname).slash) hne

theorem joinNames_append {front back : Path} (hfront : front≠[]) (hback : back≠[]) :
    joinNames (front++back)=joinNames front ++ '/'::joinNames back := by
  induction front with
  | nil => exact absurd rfl hfront
  | cons name front ih =>
    by_cases hnil : front=[]
    · subst hnil
      rw [List.singleton_append,joinNames,List.intercalate_cons_of_ne_nil hback]
      simp [joinNames]
    · have happend : front++back≠[] := fun h => hnil (List.append_eq_nil_iff.1 h).1
      rw [List.cons_append,joinNames,List.intercalate_cons_of_ne_nil happend,joinNames,
        List.intercalate_cons_of_ne_nil hnil]
      change name++['/']++joinNames (front++back)=_
      rw [ih hnil]
      simp [joinNames]

theorem joinNames_ne_rootLogical {names : Path} (h : AreNames names) (hne : names≠[]) :
    joinNames names≠rootLogical := by
  intro heq
  have hsplit := splitOn_joinNames h hne
  rw [heq] at hsplit
  have hname : ['.']∈names := by
    rw [← hsplit]
    decide
  exact (h _ hname).current rfl

theorem joinNames_injective {left right : Path} (hleft : AreNames left) (hright : AreNames right)
    (hne : left≠[]) (hne' : right≠[]) (h : joinNames left=joinNames right) :
    left=right := by
  rw [← splitOn_joinNames hleft hne,h,splitOn_joinNames hright hne']

/-- A joined path that goes on after a slash has more names. -/
theorem joinNames_slash_isPrefix {front names : Path} (hfront : AreNames front)
    (hnames : AreNames names) (hne : front≠[]) (hne' : names≠[]) :
    joinNames front++['/'] <+: joinNames names ↔ ∃ back, back≠[] ∧ names=front++back := by
  constructor
  · rintro ⟨text,htext⟩
    rw [List.append_assoc,List.singleton_append] at htext
    have hsplit := splitOn_joinNames hnames hne'
    rw [← htext,List.splitOn,List.splitOnP_append_cons _ _ (by simp)] at hsplit
    refine ⟨text.splitOn '/',List.splitOnP_ne_nil _ text,?_⟩
    rw [← hsplit,← List.splitOn,splitOn_joinNames hfront hne]
    rfl
  · rintro ⟨back,hback,rfl⟩
    rw [joinNames_append hne hback]
    exact ⟨joinNames back,by rw [List.append_assoc,List.singleton_append]⟩

/-! ## Paths inside the workspace -/

/-- The logical path of a path inside the workspace. -/
def logicalOf (workspace : NativeWorkspace) (native : Path) : Text :=
  match native.drop workspace.root.length with
  | [] => rootLogical
  | names => joinNames names

variable {workspace : NativeWorkspace} {disk : Disk} {native path : Path}

theorem logicalFromNative_eq (h : workspace.root <+: native) :
    workspace.logicalFromNative native=.ok (logicalOf workspace native) := by
  rw [NativeWorkspace.logicalFromNative,if_pos (List.isPrefixOf_iff_prefix.2 h),logicalOf]
  cases native.drop workspace.root.length <;> rfl

theorem logicalOf_root : logicalOf workspace workspace.root=rootLogical := by
  rw [logicalOf,List.drop_length]

theorem logicalOf_below {names : Path} (h : names≠[]) :
    logicalOf workspace (workspace.root++names)=joinNames names := by
  rw [logicalOf,List.drop_left]
  cases names with
  | nil => exact absurd rfl h
  | cons name names => rfl

/-- A path inside the workspace that exists. -/
structure IsInside (workspace : NativeWorkspace) (disk : Disk) (native : Path) : Prop where
  contained : workspace.root <+: native
  exist : disk.kind native≠none

theorem IsInside.names (h : IsInside workspace disk native) :
    ∃ names, AreNames names ∧ native=workspace.root++names := by
  obtain ⟨names,rfl⟩ := h.contained
  exact ⟨names,fun name hname =>
    Disk.isName_of_mem h.exist (List.mem_append_right _ hname),rfl⟩

theorem logicalOf_injective (h : IsInside workspace disk native) (h' : IsInside workspace disk path)
    (heq : logicalOf workspace native=logicalOf workspace path) : native=path := by
  obtain ⟨names,hnames,rfl⟩ := h.names
  obtain ⟨names',hnames',rfl⟩ := h'.names
  by_cases hnil : names=[]
  · by_cases hnil' : names'=[]
    · rw [hnil,hnil']
    · rw [hnil,List.append_nil,logicalOf_root,logicalOf_below hnil'] at heq
      exact absurd heq.symm (joinNames_ne_rootLogical hnames' hnil')
  · by_cases hnil' : names'=[]
    · rw [hnil',List.append_nil,logicalOf_root,logicalOf_below hnil] at heq
      exact absurd heq (joinNames_ne_rootLogical hnames hnil)
    · rw [logicalOf_below hnil,logicalOf_below hnil'] at heq
      rw [joinNames_injective hnames hnames' hnil hnil' heq]

/-- The logical path is that of a root or below it. -/
def isUnder (root logical : Text) : Bool :=
  root=rootLogical || logical=root || (root++['/']).isPrefixOf logical

theorem isUnder_logicalOf (h : IsInside workspace disk native) (h' : IsInside workspace disk path) :
    isUnder (logicalOf workspace native) (logicalOf workspace path)=true ↔ native <+: path := by
  obtain ⟨names,hnames,rfl⟩ := h.names
  obtain ⟨names',hnames',rfl⟩ := h'.names
  rw [List.prefix_append_right_inj]
  by_cases hnil : names=[]
  · simp [hnil,isUnder,logicalOf_root]
  have hroot := joinNames_ne_rootLogical hnames hnil
  rw [isUnder,logicalOf_below hnil]
  simp only [hroot,decide_false,Bool.false_or,Bool.or_eq_true,decide_eq_true_eq,
    List.isPrefixOf_iff_prefix]
  by_cases hnil' : names'=[]
  · subst hnil'
    rw [List.append_nil,logicalOf_root,List.prefix_nil]
    refine iff_of_false ?_ hnil
    rintro (heq | hslash)
    · exact hroot heq.symm
    · obtain ⟨text,htext⟩ := hslash
      have hmem : '/'∈rootLogical := by
        rw [← htext]
        simp
      exact absurd hmem (by decide)
  · rw [logicalOf_below hnil',joinNames_slash_isPrefix hnames hnames' hnil hnil']
    constructor
    · rintro (heq | ⟨back,-,rfl⟩)
      · rw [joinNames_injective hnames' hnames hnil' hnil heq]
      · exact List.prefix_append _ _
    · rintro ⟨back,rfl⟩
      by_cases hback : back=[]
      · rw [hback,List.append_nil]
        exact .inl rfl
      · exact .inr ⟨back,hback,rfl⟩

/-- A path is reserved when it is the state directory of the workspace or below it. -/
def Reserved (workspace : NativeWorkspace) (native : Path) : Prop :=
  workspace.root++[stateDirectory] <+: native

instance : Decidable (Reserved workspace native) :=
  inferInstanceAs (Decidable (_ <+: _))

theorem isName_stateDirectory : IsName stateDirectory :=
  ⟨by decide,by decide,by decide,by decide,by decide⟩

theorem isReserved_logicalOf (h : IsInside workspace disk native) :
    isReserved (logicalOf workspace native)=true ↔ Reserved workspace native := by
  obtain ⟨names,hnames,rfl⟩ := h.names
  rw [Reserved,List.prefix_append_right_inj,isReserved]
  simp only [Bool.or_eq_true,decide_eq_true_eq,List.isPrefixOf_iff_prefix]
  have hstate : AreNames [stateDirectory] := by
    intro name hname
    rw [List.mem_singleton.1 hname]
    exact isName_stateDirectory
  have hjoin : joinNames [stateDirectory]=stateDirectory := rfl
  by_cases hnil : names=[]
  · subst hnil
    rw [List.append_nil,logicalOf_root]
    decide
  · rw [logicalOf_below hnil]
    constructor
    · rintro (heq | hslash)
      · rw [← hjoin] at heq
        rw [joinNames_injective hnames hstate hnil (List.cons_ne_nil _ _) heq]
      · obtain ⟨back,-,rfl⟩ :=
          (joinNames_slash_isPrefix hstate hnames (List.cons_ne_nil _ _) hnil).1 hslash
        exact List.prefix_append _ _
    · rintro ⟨back,rfl⟩
      by_cases hback : back=[]
      · rw [hback]
        exact .inl rfl
      · exact .inr ((joinNames_slash_isPrefix hstate hnames (List.cons_ne_nil _ _) hnil).2
          ⟨back,hback,rfl⟩)

end Ash.LogicalPaths
