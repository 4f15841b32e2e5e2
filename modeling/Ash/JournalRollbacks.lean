import Ash.JournalActions

/-! # Journal states along a rollback

The judgement finds an action in its old state or in one the journal can undo;
undoing it ends with the old contents. -/

namespace Ash.JournalRollbacks
open FileTrees WorkspaceOperations WorkspaceRules CheckedPaths TransactionActions
open TransactionManifest TransactionSteps ActionSteps ActionRollbacks JournalStates JournalActions

variable {hash : Bytes → Digest} {b t : Tree}

/-- A state from which the journal undoes the action. -/
def Undoable (hash : Bytes → Digest) (index : ℕ) (action : PreparedAction) (b t : Tree) :
    Change → Prop
  | .create target bytes => ∃ i, t.node target=some (.file i) ∧ t.data i=bytes ∧
      (t.node (stagePath transactionPath index)=none ∨
        t.node (stagePath transactionPath index)=some (.file i))
  | .move source target _ => t.node target=b.node source ∧
      (t.node source=b.node source ∨ t.node source=none)
  | .remove source _ => t.node source=none ∧
      t.node (removedPath transactionPath index)=b.node source
  | .replace target old _ => FileOrAbsent t (stagePath transactionPath index) ∧
      Holds t (removedPath transactionPath index) old ∧
      ∃ bytes, Holds t target bytes ∧ bytes.length=action.size ∧ hash bytes=action.digest

variable {p : Path}

theorem free_target {action : PreparedAction} {c : Change} (hf : Follows b t)
    (hdesc : Describes hash action c) (hp : p∈c.targets)
    (hpar : b.node (FileTree.parent p)=some .directory) (hn : t.node p=none) : t.Free p := by
  obtain ⟨path,-,rfl⟩ := hdesc.mem_targets hp
  exact hf.free (components_ne_nil path) hpar hn

/-- The name of a file of the publication tree is free once it is unbound. -/
theorem free_source {action : PreparedAction} {c : Change} (hf : Follows b t)
    (hdesc : Describes hash action c) {i : ℕ} (hp : p∈c.targets) (hi : b.node p=some (.file i))
    (hn : t.node p=none) : t.Free p := by
  refine free_target hf hdesc hp (b.node_parent ?_ (by simp [hi])) hn
  obtain ⟨path,-,rfl⟩ := hdesc.mem_targets hp
  exact components_ne_nil path

section Judge

variable {I : Watch} {Q : Except PlatformError AppliedState → Tree → Prop} {index : ℕ}
variable {action : PreparedAction} {c : Change} {bytes : Bytes}
variable (hadm : ∀ path∈action.paths, AdmittedPath ⟨true⟩ path) (hf : Follows b t) (hI : I t)
include hadm hf hI

variable {target : Path}

variable (hdesc : Describes hash action c) (hfits : c.Fits maxFileTransactionFileBytes)
  (hdirs : JournalDirs t) (hprep : Prepared index b c) (hr : Rollbackable index b t c)
  (hbefore : Restored b t c → Q (.ok .notApplied) t)
  (hafter : ∀ state, state=.applied ∨ state=.linked →
    Undoable hash index action b t c → Q (.ok state) t)
include hdesc hfits hdirs hprep hr hbefore hafter

private theorem judge_create (hc : c=.create target bytes) :
    Safe I Q (createCopyState hash ⟨true⟩ index action transactionPath) t := by
  subst hc
  have hA := hadm _ (mem_paths_target action)
  have hfree' := free_target hf hdesc (p := target) (by simp [Change.targets]) hprep.2.parent
  obtain ⟨-,rfl,hid⟩ := hdesc
  rcases hr with ⟨hn,hstage⟩ | ⟨i,hi,hd,hnone | hfile⟩
  · refine safe_createCopyState_absent hA (hfree' hn) hstage hdirs.stage hI
      (hbefore fun p hp => ?_)
    obtain rfl := List.mem_singleton.1 hp
    rw [entry_of_node_none hn,entry_of_node_none hprep.2.node]
  · exact safe_createCopyState_applied hA ⟨hid,hfits⟩ hnone hdirs.stage hi hd hI
      (hafter _ (.inl rfl) ⟨i,hi,hd,.inl hnone⟩)
  · exact safe_createCopyState_linked hA ⟨hid,hfits⟩ hfile hi hd hI
      (hafter _ (.inr rfl) ⟨i,hi,hd,.inr hfile⟩)

variable {source : Path}

omit hdirs in
private theorem judge_move (hc : c=.move source target bytes) :
    Safe I Q (moveState hash ⟨true⟩ action) t := by
  subst hc
  obtain ⟨⟨i,hi,hd⟩,hfree⟩ := hprep
  have hdata : t.data i=bytes := (hf.data i (b.inode_lt _ i hi)).trans hd
  have hsrc := free_source hf hdesc (p := source) (by simp [Change.targets]) hi
  have htgt := free_target hf hdesc (p := target) (by simp [Change.targets]) hfree.parent
  obtain ⟨-,rfl,⟨logical,hl,rfl⟩,hid⟩ := hdesc
  have hS := hadm _ (mem_paths_path action)
  have hD := hadm _ (mem_paths_destination hl)
  rcases hr with ⟨hs,ht⟩ | ⟨hs,ht⟩ | ⟨hs,ht⟩
  · refine safe_moveState_before hS hl hD (hs.trans hi) (htgt ht) hI (hbefore fun p hp => ?_)
    simp only [Change.targets,List.mem_cons,List.not_mem_nil,or_false] at hp
    rcases hp with rfl | rfl
    · rw [Holds.entry ⟨i,hs.trans hi,hdata⟩,Holds.entry ⟨i,hi,hd⟩]
    · rw [entry_of_node_none ht,entry_of_node_none hfree.node]
  · exact safe_moveState_linked hS hl hD ⟨hid,hfits⟩ (hs.trans hi) (ht.trans hi) hdata hI
      (hafter _ (.inr rfl) ⟨ht,.inl hs⟩)
  · exact safe_moveState_applied hS hl hD ⟨hid,hfits⟩ (hsrc hs) (ht.trans hi) hdata hI
      (hafter _ (.inl rfl) ⟨ht,.inr hs⟩)

private theorem judge_remove (hc : c=.remove source bytes) :
    Safe I Q (removeState hash ⟨true⟩ index action transactionPath) t := by
  subst hc
  obtain ⟨⟨i,hi,hd⟩,-⟩ := hprep
  have hdata : t.data i=bytes := (hf.data i (b.inode_lt _ i hi)).trans hd
  have hsrc := free_source hf hdesc (p := source) (by simp [Change.targets]) hi
  obtain ⟨-,rfl,hid⟩ := hdesc
  have hS := hadm _ (mem_paths_path action)
  rcases hr with ⟨hs,hrem⟩ | ⟨hs,hrem⟩
  · refine safe_removeState_before hS (hs.trans hi) (hdirs.free_removed hrem) hI
      (hbefore fun p hp => ?_)
    obtain rfl := List.mem_singleton.1 hp
    rw [Holds.entry ⟨i,hs.trans hi,hdata⟩,Holds.entry ⟨i,hi,hd⟩]
  · exact safe_removeState_applied hS ⟨hid,hfits⟩ (hsrc hs) (hrem.trans hi) hdata hI
      (hafter _ (.inl rfl) ⟨hs,hrem⟩)

omit hf in
private theorem judge_replace {old new : Bytes} (hc : c=.replace target old new) :
    Safe I Q (replaceState hash ⟨true⟩ index action transactionPath) t := by
  subst hc
  have hrest : ∀ {i}, t.node target=some (.file i) → t.data i=old →
      Restored b t (.replace target old new) := by
    intro i hi hd p hp
    obtain rfl := List.mem_singleton.1 hp
    rw [Holds.entry ⟨i,hi,hd⟩,hprep.1.entry]
  obtain ⟨-,rfl,hid,hpre⟩ := hdesc
  have hS := hadm _ (mem_paths_path action)
  obtain ⟨hstage,⟨⟨i,hi,hd⟩,hnone | ⟨j,hj,hold⟩⟩ | ⟨⟨i,hi,hd⟩,⟨j,hj,hold⟩⟩⟩ := hr
  · exact safe_replaceState_discarded hS hpre hi hd (hdirs.free_removed hnone) hI
      (hbefore (hrest hi hd))
  · exact safe_replaceState_preserved hS hpre ⟨hid,hfits.2⟩ hi (.inr hd) hj hold hI
      (fun hsize hdig => hafter _ (.inl rfl)
        ⟨hstage,⟨j,hj,hold⟩,_,⟨i,hi,rfl⟩,hsize,hdig⟩) fun h => hbefore (hrest hi h)
  · exact safe_replaceState_preserved hS hpre ⟨hid,hfits.2⟩ hi (.inl hd) hj hold hI
      (fun hsize hdig => hafter _ (.inl rfl)
        ⟨hstage,⟨j,hj,hold⟩,_,⟨i,hi,rfl⟩,hsize,hdig⟩) fun h => hbefore (hrest hi h)

/-- The judgement finds every action either in its old state or undoable. -/
theorem safe_appliedState :
    Safe I Q (appliedState hash ⟨true⟩ index action transactionPath) t := by
  unfold appliedState
  cases c with
  | create target bytes =>
    rcases hdesc.1 with hk | hk <;> simp only [hk] <;>
      exact judge_create hadm hf hI hdesc hfits hdirs hprep hr hbefore hafter rfl
  | move source target bytes =>
    simp only [hdesc.1]
    exact judge_move hadm hf hI hdesc hfits hprep hr hbefore hafter rfl
  | remove source bytes =>
    simp only [hdesc.1]
    exact judge_remove hadm hf hI hdesc hfits hdirs hprep hr hbefore hafter rfl
  | replace target old new =>
    simp only [hdesc.1]
    exact judge_replace hadm hI hdesc hfits hdirs hprep hr hbefore hafter rfl

end Judge

section Undo

variable {I : Watch} {Q : Except PlatformError Unit → Tree → Prop} {index : ℕ}
variable {action : PreparedAction} {c : Change} {bytes : Bytes}
variable (hadm : ∀ path∈action.paths, AdmittedPath ⟨true⟩ path) (hf : Follows b t)
include hadm

variable {target : Path}

variable (hdesc : Describes hash action c) (hfits : c.Fits maxFileTransactionFileBytes)
  (hdirs : JournalDirs t) (hprep : Prepared index b c) (hr : Rollbackable index b t c)
  (hu : Undoable hash index action b t c) (hI : ∀ t', Along index b t c t' → I t')
  (hdone : ∀ t', Along index b t c t' → Restored b t' c → Q (.ok ()) t')
include hf hdesc hfits hprep hu hI hdone

omit hf in
private theorem undo_create (hc : c=.create target bytes) :
    Safe I Q (rollbackCreateCopy hash ⟨true⟩ index action transactionPath) t := by
  subst hc
  have hne := (hdesc.outside_target hadm (p := target) (by simp [Change.targets])).ne_stage index
  obtain ⟨i,hi,hd,hstage⟩ := hu
  have hundone : ∀ t₁, t.Rebinds target none t₁ →
      Along index b t (.create target bytes) t₁ ∧ Restored b t₁ (.create target bytes) := by
    intro t₁ h₁
    have hnone : t₁.node target=none := by rw [h₁.node,Function.update_self]
    refine ⟨⟨keeps_target h₁.keeps (.inr (.inr (by simp [Change.targets]))),.inl ⟨hnone,?_⟩⟩,?_⟩
    · unfold FileOrAbsent
      rw [h₁.node,Function.update_of_ne hne.symm]
      exact hstage.imp_right fun h => ⟨i,h⟩
    · intro p hp
      obtain rfl := List.mem_singleton.1 hp
      rw [entry_of_node_none hnone,entry_of_node_none hprep.2.node]
  obtain ⟨-,rfl,hid⟩ := hdesc
  refine safe_rollbackCreateCopy (hadm _ (mem_paths_target action)) ⟨hid,hfits⟩ hi hd hstage
    (hI t ⟨.refl t,.inr ⟨i,hi,hd,hstage⟩⟩) fun t₁ h₁ => ?_
  exact ⟨hI t₁ (hundone t₁ h₁).1,hdone t₁ (hundone t₁ h₁).1 (hundone t₁ h₁).2⟩

variable {source : Path}

private theorem undo_move (hc : c=.move source target bytes) :
    Safe I Q (rollbackMove hash ⟨true⟩ action) t := by
  subst hc
  obtain ⟨⟨i,hi,hd⟩,hfree⟩ := hprep
  obtain ⟨ht,hs⟩ := hu
  have hdata : t.data i=bytes := (hf.data i (b.inode_lt _ i hi)).trans hd
  have hsrc := free_source hf hdesc (p := source) (by simp [Change.targets]) hi
  have hne : source≠target := by
    rintro rfl
    rw [hfree.node] at hi
    cases hi
  have hkept : ∀ {p t₁ t₂}, p∈(Change.move source target bytes).targets →
      FileTree.Keeps (· = p) t₁ t₂ →
      t₁.Keeps (Change.footprint index (.move source target bytes)) t₂ :=
    fun hp h => keeps_target h (.inr (.inr hp))
  -- the target's name goes once the source has its own back
  have hundone : ∀ t₁ t₂, t.Keeps (Change.footprint index (.move source target bytes)) t₁ →
      t₁.data=t.data → t₁.node source=b.node source → t₁.Rebinds target none t₂ →
      Along index b t (.move source target bytes) t₂ ∧
        Restored b t₂ (.move source target bytes) := by
    intro t₁ t₂ hk hdata₁ hs₁ h₂
    have hs₂ : t₂.node source=b.node source := by
      rw [h₂.node,Function.update_of_ne hne,hs₁]
    have ht₂ : t₂.node target=none := by rw [h₂.node,Function.update_self]
    refine ⟨⟨hk.trans (hkept (by simp [Change.targets]) h₂.keeps),.inl ⟨hs₂,ht₂⟩⟩,?_⟩
    intro p hp
    simp only [Change.targets,List.mem_cons,List.not_mem_nil,or_false] at hp
    rcases hp with rfl | rfl
    · rw [Holds.entry ⟨i,hs₂.trans hi,by rw [h₂.data,hdata₁,hdata]⟩,Holds.entry ⟨i,hi,hd⟩]
    · rw [entry_of_node_none ht₂,entry_of_node_none hfree.node]
  obtain ⟨-,rfl,⟨logical,hl,rfl⟩,hid⟩ := hdesc
  have hS := hadm _ (mem_paths_path action)
  have hD := hadm _ (mem_paths_destination hl)
  rcases hs with hs | hs
  · refine safe_rollbackMove_linked hS hl hD ⟨hid,hfits⟩ (hs.trans hi) (ht.trans hi) hdata
      (hI t ⟨.refl t,.inr (.inl ⟨hs,ht⟩)⟩) fun t₁ h₁ => ?_
    obtain ⟨halong,hres⟩ := hundone t t₁ (.refl t) rfl hs h₁
    exact ⟨hI t₁ halong,hdone t₁ halong hres⟩
  · have hlink : ∀ t₁, t.Rebinds (components action.path) (some (.file i)) t₁ →
        t₁.node (components action.path)=b.node (components action.path) ∧
        Along index b t (.move (components action.path) (components logical) bytes) t₁ := by
      intro t₁ h₁
      have hs₁ : t₁.node (components action.path)=b.node (components action.path) := by
        rw [h₁.node,Function.update_self,hi]
      refine ⟨hs₁,hkept (by simp [Change.targets]) h₁.keeps,.inr (.inl ⟨hs₁,?_⟩)⟩
      rw [h₁.node,Function.update_of_ne hne.symm,ht]
    refine safe_rollbackMove_applied hS hl hD ⟨hid,hfits⟩ (hsrc hs) (ht.trans hi) hdata
      (hI t ⟨.refl t,.inr (.inr ⟨hs,ht⟩)⟩) (fun t₁ h₁ => hI t₁ (hlink t₁ h₁).2)
      fun t₁ t₂ h₁ h₂ => ?_
    obtain ⟨hs₁,h₁'⟩ := hlink t₁ h₁
    obtain ⟨halong,hres⟩ := hundone t₁ t₂ h₁'.keeps h₁.data hs₁ h₂
    exact ⟨hI t₂ halong,hdone t₂ halong hres⟩

private theorem undo_remove (hc : c=.remove source bytes) :
    Safe I Q (rollbackRemove hash ⟨true⟩ index action transactionPath) t := by
  subst hc
  have hne := (hdesc.outside_target hadm (p := source) (by simp [Change.targets])).ne_removed index
  obtain ⟨⟨i,hi,hd⟩,-⟩ := hprep
  obtain ⟨hs,hrem⟩ := hu
  have hdata : t.data i=bytes := (hf.data i (b.inode_lt _ i hi)).trans hd
  have hsrc := free_source hf hdesc (p := source) (by simp [Change.targets]) hi hs
  obtain ⟨-,rfl,hid⟩ := hdesc
  refine safe_rollbackRemove (hadm _ (mem_paths_path action)) ⟨hid,hfits⟩ hsrc (hrem.trans hi) hdata
    (hI t ⟨.refl t,.inr ⟨hs,hrem⟩⟩) fun t₁ h₁ => ?_
  have hs₁ : t₁.node (components action.path)=some (.file i) := by
    rw [h₁.node,Function.update_self]
  have halong : Along index b t (.remove (components action.path) bytes) t₁ := by
    refine ⟨renames_keeps h₁ (.inr (.inl rfl)) (.inr (.inr (by simp [Change.targets]))),
      .inl ⟨hs₁.trans hi.symm,?_⟩⟩
    rw [h₁.node,Function.update_of_ne hne.symm,Function.update_self]
  refine ⟨hI t₁ halong,hdone t₁ halong fun p hp => ?_⟩
  obtain rfl := List.mem_singleton.1 hp
  rw [Holds.entry ⟨i,hs₁,by rw [h₁.data,hdata]⟩,Holds.entry ⟨i,hi,hd⟩]

include hdirs hr

omit hf in
private theorem undo_replace {old new : Bytes} (hc : c=.replace target old new) :
    Safe I Q (rollbackReplace hash ⟨true⟩ index action transactionPath) t := by
  subst hc
  have hout := hdesc.outside_target hadm (p := target) (by simp [Change.targets])
  have hst := (hout.ne_stage index).symm
  have hrt := (hout.ne_removed index).symm
  have hsr := stage_ne_removed index index
  have hhere := hI t ⟨.refl t,hr⟩
  obtain ⟨hstage,⟨j,hj,hold⟩,bytes,⟨i,hi,hdata⟩,hsize,hdig⟩ := hu
  have hfresh : j≠t.next := (t.inode_lt _ _ hj).ne
  have hmade : ∀ t₁, t.Creates target old t₁ → Holds t₁ target old ∧
      Along index b t (.replace target old new) t₁ := by
    intro t₁ h₁
    have htgt : Holds t₁ target old :=
      ⟨t.next,by rw [h₁.node,Function.update_self],by rw [h₁.data,Function.update_self]⟩
    refine ⟨htgt,keeps_target h₁.keeps (.inr (.inr (by simp [Change.targets]))),?_,
      .inl ⟨htgt,.inr ⟨j,?_,?_⟩⟩⟩
    · simpa only [FileOrAbsent,h₁.node,Function.update_of_ne hst] using hstage
    · rw [h₁.node,Function.update_of_ne hrt,hj]
    · rw [h₁.data,Function.update_of_ne hfresh,hold]
  have hclr : ∀ t₁ t₂, t.Creates target old t₁ →
      t₁.Rebinds (removedPath transactionPath index) none t₂ → Holds t₂ target old ∧
      Along index b t (.replace target old new) t₂ := by
    intro t₁ t₂ h₁ h₂
    obtain ⟨⟨k,hk,hkd⟩,h₁'⟩ := hmade t₁ h₁
    have htgt : Holds t₂ target old :=
      ⟨k,by rw [h₂.node,Function.update_of_ne hrt.symm,hk],by rw [h₂.data,hkd]⟩
    refine ⟨htgt,h₁'.keeps.trans (keeps_target h₂.keeps (.inr (.inl rfl))),?_,
      .inl ⟨htgt,.inl (by rw [h₂.node,Function.update_self])⟩⟩
    simpa only [FileOrAbsent,h₂.node,Function.update_of_ne hsr] using h₁'.rollbackable.1
  have hdone' : ∀ t₁ t₂ t₃, t.Creates target old t₁ →
      t₁.Rebinds (removedPath transactionPath index) none t₂ →
      t₂.Rebinds (stagePath transactionPath index) none t₃ →
      Along index b t (.replace target old new) t₃ ∧ Holds t₃ target old := by
    intro t₁ t₂ t₃ h₁ h₂ h₃
    obtain ⟨⟨k,hk,hkd⟩,h₂'⟩ := hclr t₁ t₂ h₁ h₂
    have htgt : Holds t₃ target old :=
      ⟨k,by rw [h₃.node,Function.update_of_ne hst.symm,hk],by rw [h₃.data,hkd]⟩
    refine ⟨⟨h₂'.keeps.trans (keeps_target h₃.keeps (.inl rfl)),.inl ?_,.inl ⟨htgt,.inl ?_⟩⟩,htgt⟩
    · rw [h₃.node,Function.update_self]
    · rw [h₃.node,Function.update_of_ne hsr.symm,h₂.node,Function.update_self]
  subst hdata
  obtain ⟨-,rfl,hid,hpre⟩ := hdesc
  refine safe_rollbackReplace (hadm _ (mem_paths_path action)) hpre hi hsize hdig
    (by rw [hid.size]; exact hfits.2) hj hold hstage hdirs.stage hrt hst hsr hhere
    (fun t₁ h₁ => hI t₁ (hmade t₁ h₁).2) (fun t₁ t₂ h₁ h₂ => hI t₂ (hclr t₁ t₂ h₁ h₂).2)
    fun t₁ t₂ t₃ h₁ h₂ h₃ => ?_
  obtain ⟨halong,htgt⟩ := hdone' t₁ t₂ t₃ h₁ h₂ h₃
  refine ⟨hI t₃ halong,hdone t₃ halong fun p hp => ?_⟩
  obtain rfl := List.mem_singleton.1 hp
  rw [htgt.entry,hprep.1.entry]

/-- Undoing ends with the old contents. -/
theorem safe_rollbackAction :
    Safe I Q (rollbackAction hash ⟨true⟩ index action transactionPath) t := by
  unfold rollbackAction
  cases c with
  | create target bytes =>
    rcases hdesc.1 with hk | hk <;> simp only [hk] <;>
      exact undo_create hadm hdesc hfits hprep hu hI hdone rfl
  | move source target bytes =>
    simp only [hdesc.1]
    exact undo_move hadm hf hdesc hfits hprep hu hI hdone rfl
  | remove source bytes =>
    simp only [hdesc.1]
    exact undo_remove hadm hf hdesc hfits hprep hu hI hdone rfl
  | replace target old new =>
    simp only [hdesc.1]
    exact undo_replace hadm hdesc hfits hdirs hprep hr hu hI hdone rfl

end Undo

end Ash.JournalRollbacks
