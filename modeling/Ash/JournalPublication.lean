import Ash.JournalRecovery
import Ash.Workdirs

/-! # Publishing a journal

What preparation leaves under its working name, moved to the journal's name as a
whole, is a journal. -/

namespace Ash.JournalPublication
open FileTrees WorkspaceOperations WorkspacePaths WorkspaceRules CheckedPaths TransactionActions
open TransactionManifest TransactionSteps TransactionWrites ActionSteps JournalStates JournalActions
open InternalState Journals TransactionPreparation PreparationLoop Workdirs

variable {hash : Bytes → Digest} {limits : FileTransactionLimits} {I : Watch} {t b : Tree}

/-- The journal directory is complete but not yet published. -/
structure Publishable (slots : List (Slot hash limits)) (t : Tree) : Prop extends Workdir t where
  manifest : ∃ bytes, Holds t (preparingPath++[manifestFile]) bytes ∧
    bytes.length ≤ maxManifestBytes ∧ decodeManifest hash bytes=.ok (slots.map Slot.action)
  prepared : ∀ s∈slots, PreparedIn preparingPath s.index t s.change

theorem publishable_manifest {actions : List FileAction} {slots : List (Slot hash limits)}
    {t' : Tree} {bytes : Bytes} (hall : PreparesAll 0 actions ⟨0,0⟩ v slots t) (hdir : Workdir t)
    (hman : t.node (preparingPath++[manifestFile])=none)
    (hc : t.Creates (preparingPath++[manifestFile]) bytes t')
    (hlen : bytes.length ≤ maxManifestBytes)
    (hdec : decodeManifest hash bytes=.ok (slots.map Slot.action)) : Publishable slots t' := by
  refine ⟨(workdir_manifest (v := t.entry) hdir (fun _ _ => rfl) hc).1,
    ⟨bytes,⟨_,node_creates hc,data_creates hc⟩,hlen,hdec⟩,fun s hs => ?_⟩
  have hne : ∀ {p}, entries s.index p → p≠preparingPath++[manifestFile] := by
    rintro p he rfl
    exact absurd (length_of_entries he) (by decide)
  refine (hall.prepared s hs).keeps hc.keeps (hne (.inl rfl)) (hne (.inr rfl)) ?_ ?_
  · rintro p hp rfl
    exact not_outside_of_prefix statePath_prefix_preparing (List.prefix_append _ _)
      (s.outside_target hp)
  · intro p hd
    exact directory_of_creates hc (by simp [hman]) hd

section Moves

variable (hm : t.Moves preparingPath transactionPath b)
include hm

theorem moved_below (r : Path) : b.node (transactionPath++r)=t.node (preparingPath++r) := by
  rw [hm.node,if_pos (List.prefix_append _ _),List.drop_left]

variable {p : Path}

theorem moved_elsewhere (ht : ¬ transactionPath <+: p) (hp : ¬ preparingPath <+: p) :
    b.node p=t.node p := by
  rw [hm.node,if_neg ht,if_neg hp]

theorem moved_outside (hp : Outside p) : b.node p=t.node p :=
  moved_elsewhere hm (fun h => hp (statePath_prefix_transaction.trans h))
    fun h => hp (statePath_prefix_preparing.trans h)

theorem moved_keeps : t.Keeps (fun p => transactionPath <+: p ∨ preparingPath <+: p) b where
  node p hp := moved_elsewhere hm (fun h => hp (.inl h)) fun h => hp (.inr h)
  data i _ := by rw [hm.data]
  next := hm.next.ge

theorem moved_stage (n : ℕ) :
    b.node (stagePath transactionPath n)=t.node (stagePath preparingPath n) := by
  simp only [stagePath,indexedPath,List.append_assoc]
  exact moved_below hm _

theorem moved_removed (n : ℕ) :
    b.node (removedPath transactionPath n)=t.node (removedPath preparingPath n) := by
  simp only [removedPath,indexedPath,List.append_assoc]
  exact moved_below hm _

variable {q : Path}

theorem moved_holds {bytes : Bytes} (hpq : b.node q=t.node p) (h : Holds t p bytes) :
    Holds b q bytes := by
  obtain ⟨i,hi,hd⟩ := h
  exact ⟨i,by rw [hpq,hi],by rw [hm.data,hd]⟩

omit hm in
theorem moved_leaf (hpq : b.node q=t.node p) (h : FileOrAbsent t p) : FileOrAbsent b q := by
  simpa only [FileOrAbsent,hpq] using h

theorem moved_free (hp : Outside p) (h : t.Free p) : b.Free p := by
  have hpar : Outside (FileTree.parent p) := fun hs => hp (hs.trans (List.dropLast_prefix p))
  exact ⟨h.ne_root,by rw [moved_outside hm hpar,h.parent],by rw [moved_outside hm hp,h.node]⟩

theorem moved_free_removed {n : ℕ} (h : t.Free (removedPath preparingPath n)) :
    b.Free (removedPath transactionPath n) := by
  refine ⟨by simp [removedPath,indexedPath],?_,by rw [moved_removed hm,h.node]⟩
  have hpar : t.node (preparingPath++[removedDirectory])=some .directory := by
    simpa [removedPath,indexedPath] using h.parent
  simpa [removedPath,indexedPath,moved_below hm [removedDirectory]] using hpar

theorem moved_prepared {s : Slot hash limits}
    (h : PreparedIn preparingPath s.index t s.change) : Prepared s.index b s.change := by
  have hout : ∀ p∈s.change.targets, Outside p := fun _ hp => s.outside_target hp
  have hstage := moved_stage hm s.index
  have hrem := moved_removed hm s.index
  revert h hout
  cases s.change with
  | create target bytes =>
    intro h hout
    exact ⟨moved_holds hm hstage h.1,moved_free hm (hout target (by simp [Change.targets])) h.2⟩
  | move source target bytes =>
    intro h hout
    exact ⟨moved_holds hm (moved_outside hm (hout source (by simp [Change.targets]))) h.1,
      moved_free hm (hout target (by simp [Change.targets])) h.2⟩
  | remove source bytes =>
    intro h hout
    exact ⟨moved_holds hm (moved_outside hm (hout source (by simp [Change.targets]))) h.1,
      moved_free_removed hm h.2⟩
  | replace target old new =>
    intro h hout
    exact ⟨moved_holds hm (moved_outside hm (hout target (by simp [Change.targets]))) h.1,
      moved_holds hm hrem h.2.1,moved_holds hm hstage h.2.2⟩

end Moves

/-- The journal that a publication makes. -/
def publishedJournal {slots : List (Slot hash limits)} (h : Publishable slots t)
    (hm : t.Moves preparingPath transactionPath b)
    (hidx : slots.map Slot.index=List.range' 0 slots.length) (hlen : slots.length ≤ maxActions)
    (hnodup : (slots.flatMap fun s => s.action.paths).Nodup) : Journal hash limits where
  base := b
  slots := slots
  indexes := hidx
  length_le := hlen
  nodup := hnodup
  prepared s hs := moved_prepared hm (h.prepared s hs)
  dirs := ⟨by rw [moved_below hm,h.stage],by rw [moved_below hm,h.removed]⟩
  leaves n := ⟨moved_leaf (moved_stage hm n) (h.leaves n).1,
    moved_leaf (moved_removed hm n) (h.leaves n).2⟩
  closed r hr hne := by
    rw [moved_below hm]
    refine h.closed r hr ?_
    rintro m (he | he)
    · exact (hne m).1 (by simpa [stagePath,indexedPath] using he)
    · exact (hne m).2 (by simpa [removedPath,indexedPath] using he)
  unprepared := by rw [hm.node,if_neg (by simp),if_pos (List.prefix_refl _)]
  initialized := h.initialized.keeps (moved_keeps hm) (by simp) (by simp) (by simp)
  locked := by rw [moved_elsewhere hm (by simp) (by simp)]; exact h.locked
  manifest := by
    obtain ⟨bytes,hb,hle,hdec⟩ := h.manifest
    exact ⟨bytes,moved_holds hm (moved_below hm [manifestFile]) hb,hle,hdec⟩

/-- A publication is not seen by readers. -/
theorem shows_moved {v : View} (hv : Shows v t) (hm : t.Moves preparingPath transactionPath b) :
    Shows v b := by
  refine hv.keeps (moved_keeps hm) ?_
  rintro p (h | h) hp
  · exact hp (statePath_prefix_transaction.trans h)
  · exact hp (statePath_prefix_preparing.trans h)

/-! ## The manifest -/

theorem byteLength_le {path : Text} (h : validateLogical path=.ok ()) :
    byteLength path ≤ 4096 := by
  unfold validateLogical at h
  split at h
  · cases h
  · next hc =>
    rw [not_or,not_or] at hc
    omega

theorem shapeValid_of_recordOf {action : FileAction} {record : PreparedAction}
    (h : RecordOf action record) (hshape : action.shapeValid=true) : record.shapeValid=true := by
  obtain ⟨digest,size,preimage,rfl,hpre⟩ := h
  unfold FileAction.shapeValid at hshape
  unfold PreparedAction.shapeValid preparedAction
  cases hk : action.kind <;> cases preimage <;> simp_all

section Records

variable {actions : List FileAction} {v : View} {slots : List (Slot hash limits)}
variable {n : ℕ} {totals : TransactionTotals}

theorem exists_action_of_preparesAll (h : PreparesAll n actions totals v slots t)
    {s : Slot hash limits} (hs : s∈slots) : ∃ action∈actions, RecordOf action s.action := by
  have hr := h.records
  clear h
  induction hr with
  | nil => cases hs
  | @cons action s' actions slots hhead htail ih =>
    rcases List.mem_cons.1 hs with rfl | hs
    · exact ⟨action,by simp,hhead.1⟩
    · obtain ⟨a,ha,hra⟩ := ih hs
      exact ⟨a,by simp [ha],hra⟩

theorem paths_of_preparesAll (h : PreparesAll n actions totals v slots t) :
    (slots.flatMap fun s => s.action.paths)=actions.flatMap FileAction.paths := by
  have hr := h.records
  clear h
  induction hr with
  | nil => rfl
  | cons hhead htail ih =>
    obtain ⟨_,_,_,hrec,-⟩ := hhead.1
    rw [List.flatMap_cons,List.flatMap_cons,ih,hrec]
    rfl

theorem manifestReady {workspace : Workspace} (hvalid : ValidActions workspace actions)
    (h : PreparesAll 0 actions ⟨0,0⟩ v slots t) : ManifestReady (slots.map Slot.action) := by
  have hlen := h.records.length_eq
  have hpaths : (slots.map Slot.action).flatMap PreparedAction.paths =
      actions.flatMap FileAction.paths := by
    rw [List.flatMap_map]
    exact paths_of_preparesAll h
  have hadm : ∀ path∈(slots.map Slot.action).flatMap PreparedAction.paths,
      AdmittedPath ⟨true⟩ path := by
    intro path hp
    obtain ⟨record,hrec,hpa⟩ := List.mem_flatMap.1 hp
    obtain ⟨s,-,rfl⟩ := List.mem_map.1 hrec
    exact s.admitted path hpa
  have hsizes := size_le_of_validateManifestSizes h.sizes
  refine ⟨?_,?_,?_,?_,fun path hp => (hadm path hp).logical,
    fun path hp => (hadm path hp).ne_root,fun path hp => (hadm path hp).unreserved rfl,?_,h.sizes⟩
  · intro hnil
    have : slots.length=0 := by simpa using congrArg List.length hnil
    exact hvalid.ne_nil (List.length_eq_zero_iff.1 (by omega))
  · rw [List.length_map]
    exact hlen ▸ hvalid.length_le
  · intro record hrec
    obtain ⟨s,hs,rfl⟩ := List.mem_map.1 hrec
    obtain ⟨action,ha,digest,size,preimage,hr,-⟩ := exists_action_of_preparesAll h hs
    obtain ⟨hsize,hpre⟩ := hsizes _ hrec
    refine ⟨?_,?_,lt_of_le_ceiling hsize,?_,fun n hn => lt_of_le_ceiling (hpre n hn)⟩
    · exact byteLength_le (s.admitted _ (mem_paths_path _)).logical
    · intro path hp
      exact byteLength_le (s.admitted path (mem_paths_destination hp)).logical
    · rw [hr]
      simp [preparedAction]
  · intro record hrec
    obtain ⟨s,hs,rfl⟩ := List.mem_map.1 hrec
    obtain ⟨action,ha,hr⟩ := exists_action_of_preparesAll h hs
    exact shapeValid_of_recordOf hr (hvalid.shape action ha)
  · rw [hpaths]
    exact hvalid.nodup

/-- Making the changes of the records is making the actions. -/
theorem foldl_realizes {w : View} {actions : List FileAction} {slots : List (Slot hash limits)}
    (hrec : List.Forall₂ (fun action s => RecordOf action s.action ∧ Realizes action v s.change)
      actions slots) (hnodup : (actions.flatMap FileAction.paths).Nodup)
    (hw : ∀ action∈actions, ∀ path∈action.paths, w (components path)=v (components path)) :
    applyFileActions actions w=slots.foldl (fun w s => s.change.apply w) w := by
  induction hrec generalizing w with
  | nil => rfl
  | @cons action s actions slots hhead htail ih =>
    rw [List.forall_mem_cons] at hw
    rw [List.flatMap_cons,List.nodup_append'] at hnodup
    rw [applyFileActions,List.foldl_cons,List.foldl_cons,hhead.2 w hw.1]
    refine ih hnodup.2.1 fun action' ha path hp => ?_
    have hnot : components path∉s.change.targets := by
      intro ht
      obtain ⟨path',hp',he⟩ := s.mem_targets ht
      cases components_injective he
      obtain ⟨_,_,_,hr,-⟩ := hhead.1
      rw [hr] at hp'
      exact hnodup.2.2 hp' (List.mem_flatMap.2 ⟨action',ha,hp⟩)
    rw [Change.apply_of_notMem hnot]
    exact hw.2 action' ha path hp

end Records

theorem foldl_apply_congr {slots : List (Slot hash limits)} {v w : View} {p : Path}
    (h : v p=w p) : slots.foldl (fun v s => s.change.apply v) v p =
      slots.foldl (fun v s => s.change.apply v) w p := by
  induction slots generalizing v w with
  | nil => exact h
  | cons s slots ih =>
    rw [List.foldl_cons,List.foldl_cons]
    refine ih ?_
    by_cases hp : p∈s.change.targets
    · exact Journal.apply_of_target hp v w
    · rw [Change.apply_of_notMem hp,Change.apply_of_notMem hp,h]

end Ash.JournalPublication
