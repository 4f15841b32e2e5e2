import Ash.SnapshotBaselines

/-! # What a delta tells

Two lists of entries in the order of their paths are compared in one pass over both. -/

namespace Ash.SnapshotDeltas
open ByteCodecs Snapshots SortedKeys TreeOperations

/-- Entries in the order of the bytes of their paths, every path once. -/
def Ascends (entries : List SnapshotEntry) : Prop :=
  entries.Pairwise fun left right => utf8 left.path < utf8 right.path

/-- What a change says about two lists of entries. -/
def Tells (baseline current : List SnapshotEntry) : Change → Prop
  | ⟨.added,entry⟩ => entry∈current ∧ ∀ old∈baseline, old.path≠entry.path
  | ⟨.removed,entry⟩ => entry∈baseline ∧ ∀ new∈current, new.path≠entry.path
  | ⟨.modified,entry⟩ => entry∈current ∧ ∃ old∈baseline, old.path=entry.path ∧
      (old.kind≠entry.kind ∨ old.size≠entry.size ∨ old.digest≠entry.digest)
  | ⟨.present,_⟩ => False

/-- The entries after some changes: those at other paths, and what the changes put at theirs. -/
def apply (entries : List SnapshotEntry) (changes : List Change) : List SnapshotEntry :=
  sortDedupBy (fun entry => utf8 entry.path) (fun left right => decide (left ≤ right))
    (entries.filter (fun entry => changes.all fun change => change.entry.path≠entry.path) ++
      (changes.filter fun change => change.kind≠.removed).map Change.entry)

variable {baseline current entries others : List SnapshotEntry} {left right entry : SnapshotEntry}
  {change : Change}

theorem ne_of_lt (h : utf8 left.path < utf8 right.path) : right.path≠left.path := by
  intro heq
  rw [heq] at h
  exact List.lt_irrefl _ h

theorem Ascends.eq_of_path (h : Ascends entries) (hleft : left∈entries) (hright : right∈entries)
    (hpath : left.path=right.path) : left=right :=
  List.inj_on_of_nodup_map (List.pairwise_map.2 (h.imp fun hlt => (ne_of_lt hlt).symm))
    hleft hright hpath

theorem Ascends.eq_of_mem_iff (h : Ascends entries) (hothers : Ascends others)
    (hmem : ∀ entry, entry∈entries ↔ entry∈others) : entries=others := by
  have : Std.Irrefl fun left right : SnapshotEntry => utf8 left.path < utf8 right.path :=
    ⟨fun _ => List.lt_irrefl _⟩
  have : Std.Antisymm fun left right : SnapshotEntry => utf8 left.path < utf8 right.path :=
    ⟨fun _ _ hlt hgt => absurd hgt (List.lt_asymm hlt)⟩
  exact List.Pairwise.eq_of_mem_iff h hothers hmem

/-- What is before the first entry is before all of them. -/
theorem Ascends.before (h : Ascends (right::current)) (hlt : utf8 left.path < utf8 right.path) :
    ∀ new∈right::current, utf8 left.path < utf8 new.path := by
  intro new hmem
  rcases List.mem_cons.1 hmem with rfl | hmem
  · exact hlt
  · exact List.lt_trans hlt ((List.pairwise_cons.1 h).1 new hmem)

/-- Paths that are not before each other are the same. -/
theorem path_eq (hleft : ¬ utf8 left.path < utf8 right.path)
    (hright : ¬ utf8 right.path < utf8 left.path) : left.path=right.path :=
  utf8_injective (List.le_antisymm (List.not_lt.1 hright) (List.not_lt.1 hleft))

theorem differ_iff (hpath : left.path=right.path) :
    (left.kind≠right.kind ∨ left.size≠right.size ∨ left.digest≠right.digest) ↔
      left≠right := by
  obtain ⟨path,kind,size,digest⟩ := left
  obtain ⟨path',kind',size',digest'⟩ := right
  obtain rfl : path=path' := hpath
  simp only [ne_eq,SnapshotEntry.mk.injEq,true_and,not_and_or]

/-! ## One step -/

theorem tells_left (h : ∀ new∈current, new.path≠left.path) :
    Tells (left::baseline) current change ↔
      change=⟨.removed,left⟩ ∨ Tells baseline current change := by
  obtain ⟨kind,entry⟩ := change
  cases kind <;> grind [Tells]

theorem tells_right (h : ∀ old∈baseline, old.path≠right.path) :
    Tells baseline (right::current) change ↔
      change=⟨.added,right⟩ ∨ Tells baseline current change := by
  obtain ⟨kind,entry⟩ := change
  cases kind <;> grind [Tells]

theorem tells_both (hpath : left.path=right.path) (hold : Ascends (left::baseline))
    (hnew : Ascends (right::current)) :
    Tells (left::baseline) (right::current) change ↔
      (left≠right ∧ change=⟨.modified,right⟩) ∨ Tells baseline current change := by
  have hleft := fun old hmem => ne_of_lt ((List.pairwise_cons.1 hold).1 old hmem)
  have hright := fun new hmem => ne_of_lt ((List.pairwise_cons.1 hnew).1 new hmem)
  have hdiffer := differ_iff hpath
  obtain ⟨kind,entry⟩ := change
  cases kind <;> grind [Tells]

theorem Tells.mem (h : Tells baseline current change) :
    change.entry∈baseline ∨ change.entry∈current := by
  obtain ⟨kind,entry⟩ := change
  cases kind with
  | present => exact h.elim
  | added | modified => exact .inr h.1
  | removed => exact .inl h.1

/-! ## The pass over both lists -/

theorem mem_delta (hbaseline : Ascends baseline) (hcurrent : Ascends current) :
    change∈delta baseline current ↔ Tells baseline current change := by
  induction baseline, current using delta.induct with
  | case1 current =>
    obtain ⟨kind,entry⟩ := change
    rw [delta]
    cases kind <;> simp [Tells]
  | case2 left baseline =>
    obtain ⟨kind,entry⟩ := change
    rw [delta]
    cases kind <;> simp [Tells,eq_comm]
  | case3 left baseline right current hlt ih =>
    rw [delta,if_pos hlt,List.mem_cons,ih hbaseline.of_cons hcurrent,
      tells_left fun new hmem => ne_of_lt (hcurrent.before hlt new hmem)]
  | case4 left baseline right current hlt hgt ih =>
    rw [delta,if_neg hlt,if_pos hgt,List.mem_cons,ih hbaseline hcurrent.of_cons,
      tells_right fun old hmem => ne_of_lt (hbaseline.before hgt old hmem)]
  | case5 left baseline right current hlt hgt hne ih =>
    rw [delta,if_neg hlt,if_neg hgt,if_pos hne,List.mem_cons,
      ih hbaseline.of_cons hcurrent.of_cons,tells_both (path_eq hlt hgt) hbaseline hcurrent]
    simp [hne]
  | case6 left baseline right current hlt hgt heq ih =>
    rw [delta,if_neg hlt,if_neg hgt,if_neg heq,ih hbaseline.of_cons hcurrent.of_cons,
      tells_both (path_eq hlt hgt) hbaseline hcurrent]
    simp [heq]

/-- What is before both lists is before every change. -/
theorem before_delta (hbaseline : Ascends baseline) (hcurrent : Ascends current)
    (hold : ∀ old∈baseline, utf8 entry.path < utf8 old.path)
    (hnew : ∀ new∈current, utf8 entry.path < utf8 new.path) :
    ∀ change∈delta baseline current, utf8 entry.path < utf8 change.entry.path := by
  intro change hmem
  exact ((mem_delta hbaseline hcurrent).1 hmem).mem.elim (hold _) (hnew _)

theorem pairwise_delta (hbaseline : Ascends baseline) (hcurrent : Ascends current) :
    (delta baseline current).Pairwise fun left right =>
      utf8 left.entry.path < utf8 right.entry.path := by
  induction baseline, current using delta.induct with
  | case1 current =>
    rw [delta]
    exact List.pairwise_map.2 hcurrent
  | case2 left baseline =>
    rw [delta]
    exact List.pairwise_map.2 hbaseline
  | case3 left baseline right current hlt ih =>
    obtain ⟨hold,hrest⟩ := List.pairwise_cons.1 hbaseline
    rw [delta,if_pos hlt]
    exact .cons (before_delta hrest hcurrent hold (hcurrent.before hlt)) (ih hrest hcurrent)
  | case4 left baseline right current hlt hgt ih =>
    obtain ⟨hnew,hrest⟩ := List.pairwise_cons.1 hcurrent
    rw [delta,if_neg hlt,if_pos hgt]
    exact .cons (before_delta hbaseline hrest (hbaseline.before hgt) hnew) (ih hbaseline hrest)
  | case5 left baseline right current hlt hgt hne ih =>
    obtain ⟨hold,hbaseline⟩ := List.pairwise_cons.1 hbaseline
    obtain ⟨hnew,hcurrent⟩ := List.pairwise_cons.1 hcurrent
    rw [path_eq hlt hgt] at hold
    rw [delta,if_neg hlt,if_neg hgt,if_pos hne]
    exact .cons (before_delta hbaseline hcurrent hold hnew) (ih hbaseline hcurrent)
  | case6 left baseline right current hlt hgt heq ih =>
    rw [delta,if_neg hlt,if_neg hgt,if_neg heq]
    exact ih hbaseline.of_cons hcurrent.of_cons

/-! ## Applying the changes -/

/-- The new entries are the old ones that no change touches and those that the changes bring. -/
theorem mem_applied (hbaseline : Ascends baseline) (hcurrent : Ascends current) :
    entry∈current ↔
      (entry∈baseline ∧ ∀ change∈delta baseline current, change.entry.path≠entry.path) ∨
        ∃ change∈delta baseline current, change.kind≠.removed ∧ change.entry=entry := by
  constructor
  · intro hnew
    by_cases hold : ∃ old∈baseline, old.path=entry.path
    · obtain ⟨old,hmem,hpath⟩ := hold
      by_cases heq : old=entry
      · subst heq
        refine .inl ⟨hmem,fun ⟨kind,found⟩ hchange hfound => ?_⟩
        -- the entry is in both lists as it is, so no change can be about it
        have htells := (mem_delta hbaseline hcurrent).1 hchange
        cases kind with
        | present => exact htells
        | added => exact htells.2 old hmem hfound.symm
        | removed => exact htells.2 old hnew hfound.symm
        | modified =>
          obtain ⟨hfoundMem,other,hother,hotherPath,hdiffer⟩ := htells
          obtain rfl := hcurrent.eq_of_path hfoundMem hnew hfound
          obtain rfl := hbaseline.eq_of_path hother hmem hotherPath
          exact (differ_iff rfl).1 hdiffer rfl
      · refine .inr ⟨⟨.modified,entry⟩,(mem_delta hbaseline hcurrent).2 ?_,by simp,rfl⟩
        exact ⟨hnew,old,hmem,hpath,(differ_iff hpath).2 heq⟩
    · refine .inr ⟨⟨.added,entry⟩,(mem_delta hbaseline hcurrent).2 ⟨hnew,?_⟩,by simp,rfl⟩
      exact fun old hmem hpath => hold ⟨old,hmem,hpath⟩
  · rintro (⟨hold,huntouched⟩ | ⟨⟨kind,found⟩,hchange,hkind,rfl⟩)
    · by_contra hnew
      by_cases hlater : ∃ new∈current, new.path=entry.path
      · obtain ⟨new,hmem,hpath⟩ := hlater
        refine huntouched ⟨.modified,new⟩ ((mem_delta hbaseline hcurrent).2 ?_) hpath
        refine ⟨hmem,entry,hold,hpath.symm,(differ_iff hpath.symm).2 ?_⟩
        rintro rfl
        exact hnew hmem
      · refine huntouched ⟨.removed,entry⟩ ((mem_delta hbaseline hcurrent).2 ⟨hold,?_⟩) rfl
        exact fun new hmem hpath => hlater ⟨new,hmem,hpath⟩
    · have htells := (mem_delta hbaseline hcurrent).1 hchange
      cases kind with
      | present => exact htells.elim
      | added | modified => exact htells.1
      | removed => exact absurd rfl hkind

theorem ascends_apply (changes : List Change) : Ascends (apply entries changes) :=
  pairwise_sortDedupBy Function.injective_id _

theorem apply_delta (hbaseline : Ascends baseline) (hcurrent : Ascends current) :
    apply baseline (delta baseline current)=current := by
  refine (ascends_apply _).eq_of_mem_iff hcurrent fun entry => ?_
  have hmem : ∀ entry, entry∈baseline.filter (fun entry =>
      (delta baseline current).all fun change => change.entry.path≠entry.path) ++
        ((delta baseline current).filter fun change => change.kind≠.removed).map Change.entry ↔
          entry∈current := by
    intro entry
    rw [mem_applied hbaseline hcurrent]
    simp [and_assoc]
  rw [apply,mem_sortDedupBy,hmem]
  intro left hleft right hright hpath
  rw [hmem] at hleft hright
  exact hcurrent.eq_of_path hleft hright (utf8_injective hpath)

theorem delta_eq_nil_iff (hbaseline : Ascends baseline) (hcurrent : Ascends current) :
    delta baseline current=[] ↔ baseline=current := by
  constructor
  · intro hnil
    refine hbaseline.eq_of_mem_iff hcurrent fun entry => ?_
    simp [mem_applied hbaseline hcurrent,hnil]
  · rintro rfl
    exact SnapshotBaselines.delta_self baseline

/-- A delta tells in order what is only in one list or differs between both, and nothing else; it
is empty for equal lists only, and leads from the old entries to the new ones. -/
theorem delta_exact (hbaseline : Ascends baseline) (hcurrent : Ascends current) :
    ((delta baseline current).Pairwise fun left right =>
        utf8 left.entry.path < utf8 right.entry.path) ∧
      (∀ change, change∈delta baseline current ↔ Tells baseline current change) ∧
      (delta baseline current=[] ↔ baseline=current) ∧
      apply baseline (delta baseline current)=current :=
  ⟨pairwise_delta hbaseline hcurrent,fun _ => mem_delta hbaseline hcurrent,
    delta_eq_nil_iff hbaseline hcurrent,apply_delta hbaseline hcurrent⟩

/-- One entry goes, one changes its size and one comes. -/
theorem delta_exact_letters :
    apply [⟨['a'],.directory,0,none⟩,⟨['b'],.file,1,none⟩]
        (delta [⟨['a'],.directory,0,none⟩,⟨['b'],.file,1,none⟩]
          [⟨['b'],.file,2,none⟩,⟨['c'],.other,0,none⟩]) =
      [⟨['b'],.file,2,none⟩,⟨['c'],.other,0,none⟩] :=
  (delta_exact (by unfold Ascends; decide) (by unfold Ascends; decide)).2.2.2

end Ash.SnapshotDeltas
