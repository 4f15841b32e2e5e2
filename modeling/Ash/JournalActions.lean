import Ash.JournalStates

/-! # Journal states along one action

Applying an action keeps it in a state it can be restored from, touches no name but
its own, and ends with the change made. -/

namespace Ash.JournalActions
open FileTrees WorkspaceOperations WorkspaceRules CheckedPaths TransactionActions
open TransactionManifest TransactionSteps TransactionReads TransactionWrites ActionSteps
open JournalStates

/-- The directories of a published journal. -/
structure JournalDirs (b : Tree) : Prop where
  stage : b.node (transactionPath++[stageDirectory])=some .directory
  removed : b.node (transactionPath++[removedDirectory])=some .directory

theorem JournalDirs.follows {b t : Tree} (h : JournalDirs b) (hf : Follows b t) : JournalDirs t :=
  ⟨hf.directory _ h.stage,hf.directory _ h.removed⟩

theorem JournalDirs.free_removed {t : Tree} (h : JournalDirs t) {index : ℕ}
    (hn : t.node (removedPath transactionPath index)=none) :
    t.Free (removedPath transactionPath index) where
  ne_root := by simp [removedPath,indexedPath]
  parent := by simpa [removedPath,indexedPath] using h.removed
  node := hn

/-- The names of a change are those of the publication tree. -/
structure Untouched (index : ℕ) (c : Change) (b t : Tree) : Prop where
  stage : t.node (stagePath transactionPath index)=b.node (stagePath transactionPath index)
  removed : t.node (removedPath transactionPath index) =
    b.node (removedPath transactionPath index)
  targets : ∀ p∈c.targets, t.node p=b.node p

variable {hash : Bytes → Digest} {limits : FileTransactionLimits} {b t : Tree}

variable {c : Change}

theorem Untouched.restored {index : ℕ} (h : Untouched index c b t) (hf : Follows b t) :
    Restored b t c := by
  intro p hp
  unfold FileTree.entry
  rw [h.targets p hp]
  cases hn : b.node p with
  | none => rfl
  | some n =>
    cases n with
    | file i => simp [hf.data i (b.inode_lt p i hn)]
    | directory => rfl
    | symlink => rfl

theorem Untouched.prepared {index : ℕ} (h : Untouched index c b t) (hf : Follows b t)
    (hp : Prepared index b c) : Prepared index t c := by
  have free : ∀ {p}, t.node p=b.node p → b.Free p → t.Free p :=
    fun hn hb => hf.free hb.ne_root hb.parent (hn.trans hb.node)
  cases c with
  | create target bytes =>
    exact ⟨hf.holds hp.1 h.stage,free (h.targets target (by simp [Change.targets])) hp.2⟩
  | move source target bytes =>
    exact ⟨hf.holds hp.1 (h.targets source (by simp [Change.targets])),
      free (h.targets target (by simp [Change.targets])) hp.2⟩
  | remove source bytes =>
    exact ⟨hf.holds hp.1 (h.targets source (by simp [Change.targets])),free h.removed hp.2⟩
  | replace target old new =>
    exact ⟨hf.holds hp.1 (h.targets target (by simp [Change.targets])),
      hf.holds hp.2.1 h.removed,hf.holds hp.2.2 h.stage⟩

theorem keeps_target {t t' : Tree} {index : ℕ} {p : Path} (h : FileTree.Keeps (· = p) t t')
    (hp : c.footprint index p) :
    FileTree.Keeps (c.footprint index) t t' :=
  h.mono fun _ hq => hq ▸ hp

theorem renames_keeps {t t' : Tree} {index i : ℕ} {p q : Path} (h : Renames t p q i t')
    (hp : c.footprint index p) (hq : c.footprint index q) :
    FileTree.Keeps (c.footprint index) t t' where
  node r hr := by
    have hrp : r≠p := by rintro rfl; exact hr hp
    have hrq : r≠q := by rintro rfl; exact hr hq
    rw [h.node,Function.update_of_ne hrq,Function.update_of_ne hrp]
  data i _ := by rw [h.data]
  next := h.next.ge

/-- A tree an action passes through. -/
structure Along (index : ℕ) (b t : Tree) (c : Change) (t' : Tree) : Prop where
  keeps : t.Keeps (c.footprint index) t'
  rollbackable : Rollbackable index b t' c

/-! ## Applying -/

section Apply

variable {I : Watch} {Q : Except StepFailure Unit → Tree → Prop} {index : ℕ}
variable {action : PreparedAction}
variable (hadm : ∀ path∈action.paths, AdmittedPath ⟨true⟩ path)
variable (hstop : ∀ f, Q (.error (.stopped f)) t)
include hadm hstop

variable {target : Path}

variable (hdesc : Describes hash action c) (hfits : c.Fits limits.maxFileBytes)
  (hdirs : JournalDirs t) (hprep : Prepared index t c) (hu : Untouched index c b t)
  (hI : ∀ t', Along index b t c t' → I t')
  (hdone : ∀ t', Along index b t c t' → Applied b t' c → Q (.ok ()) t')
include hdesc hfits hprep hI hdone

include hdirs in
private theorem apply_create {bytes : Bytes} (hc : c=.create target bytes) :
    Safe I Q (applyCreateCopy hash ⟨true⟩ index action transactionPath limits) t := by
  subst hc
  have hne := (hdesc.outside_target hadm (p := target) (by simp [Change.targets])).ne_stage index
  obtain ⟨-,rfl,hid⟩ := hdesc
  obtain ⟨⟨i,hi,hd⟩,hfree⟩ := hprep
  have hlink : ∀ t₁, t.Rebinds (components (action.destination.getD action.path))
      (some (.file i)) t₁ →
      Along index b t (.create (components (action.destination.getD action.path)) bytes) t₁ := by
    intro t₁ h₁
    refine ⟨keeps_target h₁.keeps (.inr (.inr (by simp [Change.targets]))),.inr ⟨i,?_,?_,.inr ?_⟩⟩
    · rw [h₁.node,Function.update_self]
    · rw [h₁.data,hd]
    · rw [h₁.node,Function.update_of_ne hne.symm,hi]
  refine safe_applyCreateCopy (hadm _ (mem_paths_target action)) hid hfits hi hd hfree hne
    hdirs.stage (hI t ⟨.refl t,.inl ⟨hfree.node,.inr ⟨i,hi⟩⟩⟩) hstop
    (fun t₁ h₁ => hI t₁ (hlink t₁ h₁)) fun t₁ t₂ h₁ h₂ => ?_
  have hnode : t₂.node (components (action.destination.getD action.path))=some (.file i) := by
    rw [h₂.node,Function.update_of_ne hne,h₁.node,Function.update_self]
  have hdata : t₂.data i=bytes := by rw [h₂.data,h₁.data,hd]
  have halong :
      Along index b t (.create (components (action.destination.getD action.path)) bytes) t₂ :=
    ⟨(hlink t₁ h₁).keeps.trans (keeps_target h₂.keeps (.inl rfl)),
      .inr ⟨i,hnode,hdata,.inl (by rw [h₂.node,Function.update_self])⟩⟩
  refine ⟨hI t₂ halong,hdone t₂ halong fun p hp => ?_⟩
  obtain rfl := List.mem_singleton.1 hp
  simpa [Change.apply] using Holds.entry ⟨i,hnode,hdata⟩

include hu in
private theorem apply_move {source : Path} {bytes : Bytes} (hc : c=.move source target bytes) :
    Safe I Q (applyMove hash ⟨true⟩ action limits) t := by
  subst hc
  have hb := hu.targets source (by simp [Change.targets])
  obtain ⟨-,rfl,⟨logical,hl,rfl⟩,hid⟩ := hdesc
  obtain ⟨⟨i,hi,hd⟩,hfree⟩ := hprep
  have hne : components action.path≠components logical := by
    intro e
    rw [e,hfree.node] at hi
    cases hi
  have hlink : ∀ t₁, t.Rebinds (components logical) (some (.file i)) t₁ →
      Along index b t (.move (components action.path) (components logical) bytes) t₁ := by
    intro t₁ h₁
    refine ⟨keeps_target h₁.keeps (.inr (.inr (by simp [Change.targets]))),.inr (.inl ⟨?_,?_⟩)⟩
    · rw [h₁.node,Function.update_of_ne hne,hb]
    · rw [h₁.node,Function.update_self,← hb,hi]
  refine safe_applyMove (hadm _ (mem_paths_path action)) hl (hadm _ (mem_paths_destination hl))
    hid hfits hi hd hfree (hI t ⟨.refl t,.inl ⟨hb,hfree.node⟩⟩) hstop
    (fun t₁ h₁ => hI t₁ (hlink t₁ h₁)) fun t₁ t₂ h₁ h₂ => ?_
  have hsrc : t₂.node (components action.path)=none := by rw [h₂.node,Function.update_self]
  have htgt : t₂.node (components logical)=some (.file i) := by
    rw [h₂.node,Function.update_of_ne hne.symm,h₁.node,Function.update_self]
  have hdata : t₂.data i=bytes := by rw [h₂.data,h₁.data,hd]
  have halong : Along index b t (.move (components action.path) (components logical) bytes) t₂ :=
    ⟨(hlink t₁ h₁).keeps.trans (keeps_target h₂.keeps (.inr (.inr (by simp [Change.targets])))),
      .inr (.inr ⟨hsrc,by rw [htgt,← hb,hi]⟩)⟩
  refine ⟨hI t₂ halong,hdone t₂ halong fun p hp => ?_⟩
  simp only [Change.targets,List.mem_cons,List.not_mem_nil,or_false] at hp
  rcases hp with rfl | rfl
  · simpa [Change.apply,hne] using entry_of_node_none hsrc
  · simpa [Change.apply] using Holds.entry ⟨i,htgt,hdata⟩

include hu in
private theorem apply_remove {source : Path} {bytes : Bytes} (hc : c=.remove source bytes) :
    Safe I Q (applyRemove hash ⟨true⟩ index action transactionPath limits) t := by
  subst hc
  have hb := hu.targets source (by simp [Change.targets])
  have hne := (hdesc.outside_target hadm (p := source) (by simp [Change.targets])).ne_removed index
  obtain ⟨-,rfl,hid⟩ := hdesc
  obtain ⟨⟨i,hi,hd⟩,hfree⟩ := hprep
  refine safe_applyRemove (hadm _ (mem_paths_path action)) hid hfits hi hd hfree
    (hI t ⟨.refl t,.inl ⟨hb,hfree.node⟩⟩) hstop fun t₁ h₁ => ?_
  have hsrc : t₁.node (components action.path)=none := by
    rw [h₁.node,Function.update_of_ne hne,Function.update_self]
  have halong : Along index b t (.remove (components action.path) bytes) t₁ :=
    ⟨renames_keeps h₁ (.inr (.inr (by simp [Change.targets]))) (.inr (.inl rfl)),
      .inr ⟨hsrc,by rw [h₁.node,Function.update_self,← hb,hi]⟩⟩
  refine ⟨hI t₁ halong,hdone t₁ halong fun p hp => ?_⟩
  obtain rfl := List.mem_singleton.1 hp
  simpa [Change.apply] using entry_of_node_none hsrc

include hdirs in
private theorem apply_replace {old new : Bytes} (hc : c=.replace target old new) :
    Safe I Q (applyReplace hash ⟨true⟩ index action transactionPath limits) t := by
  subst hc
  have hout := hdesc.outside_target hadm (p := target) (by simp [Change.targets])
  have hne := hout.ne_stage index
  have hnr := hout.ne_removed index
  obtain ⟨-,rfl,hid,hpre⟩ := hdesc
  obtain ⟨⟨i,hi,hold⟩,⟨j,hj,hkept⟩,⟨k,hk,hnew⟩⟩ := hprep
  have hfresh : ∀ {p n}, t.node p=some (.file n) → n≠t.next :=
    fun h => (t.inode_lt _ _ h).ne
  have hswap : ∀ t₁, t.Creates (components action.path) new t₁ →
      Along index b t (.replace (components action.path) old new) t₁ := by
    intro t₁ h₁
    refine ⟨keeps_target h₁.keeps (.inr (.inr (by simp [Change.targets]))),.inr ⟨k,?_⟩,
      .inr ⟨⟨t.next,?_,?_⟩,⟨j,?_,?_⟩⟩⟩
    · rw [h₁.node,Function.update_of_ne hne.symm,hk]
    · rw [h₁.node,Function.update_self]
    · rw [h₁.data,Function.update_self]
    · rw [h₁.node,Function.update_of_ne hnr.symm,hj]
    · rw [h₁.data,Function.update_of_ne (hfresh hj),hkept]
  have hbefore : Along index b t (.replace (components action.path) old new) t :=
    ⟨.refl t,.inr ⟨k,hk⟩,.inl ⟨⟨i,hi,hold⟩,.inr ⟨j,hj,hkept⟩⟩⟩
  refine safe_applyReplace (hadm _ (mem_paths_path action)) hid hfits.2 hpre.digest hpre.size hfits.1
    hi hold hk hnew hne hdirs.stage (hI t hbefore) hstop (fun t₁ h₁ => hI t₁ (hswap t₁ h₁))
    fun t₁ t₂ h₁ h₂ => ?_
  have hsr := stage_ne_removed index index
  have htgt : t₂.node (components action.path)=some (.file t.next) := by
    rw [h₂.node,Function.update_of_ne hne,h₁.node,Function.update_self]
  have hdata : t₂.data t.next=new := by rw [h₂.data,h₁.data,Function.update_self]
  have hrem : Holds t₂ (removedPath transactionPath index) old := by
    refine ⟨j,?_,?_⟩
    · rw [h₂.node,Function.update_of_ne hsr.symm,h₁.node,Function.update_of_ne hnr.symm,hj]
    · rw [h₂.data,h₁.data,Function.update_of_ne (hfresh hj),hkept]
  have halong : Along index b t (.replace (components action.path) old new) t₂ :=
    ⟨(hswap t₁ h₁).keeps.trans (keeps_target h₂.keeps (.inl rfl)),
      .inl (by rw [h₂.node,Function.update_self]),.inr ⟨⟨_,htgt,hdata⟩,hrem⟩⟩
  refine ⟨hI t₂ halong,hdone t₂ halong fun p hp => ?_⟩
  obtain rfl := List.mem_singleton.1 hp
  simpa [Change.apply] using Holds.entry ⟨_,htgt,hdata⟩

include hdirs hu in
theorem safe_applyAction :
    Safe I Q (applyAction hash ⟨true⟩ index action transactionPath limits) t := by
  have hhere : I t := hI t ⟨.refl t,rollbackable_of_prepared hprep hu.targets⟩
  refine safe_bind.2 (safe_checkControl hhere ?_ hstop)
  cases c with
  | create target bytes =>
    rcases hdesc.1 with hk | hk <;> simp only [hk] <;>
      exact apply_create hadm hstop hdesc hfits hdirs hprep hI hdone rfl
  | move source target bytes =>
    simp only [hdesc.1]
    exact apply_move hadm hstop hdesc hfits hprep hu hI hdone rfl
  | remove source bytes =>
    simp only [hdesc.1]
    exact apply_remove hadm hstop hdesc hfits hprep hu hI hdone rfl
  | replace target old new =>
    simp only [hdesc.1]
    exact apply_replace hadm hstop hdesc hfits hdirs hprep hI hdone rfl

end Apply

end Ash.JournalActions
