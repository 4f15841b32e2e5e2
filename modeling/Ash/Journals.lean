import Ash.InternalState
import Ash.JournalRollbacks

/-! # Published journals

A journal is the tree at its publication together with the slots of its actions.
The slots own disjoint names, so a step of one leaves the state of every other. -/

namespace Ash.Journals
open WorkspaceOperations WorkspaceRules CheckedPaths TransactionActions TransactionManifest
open TransactionSteps ActionSteps JournalStates JournalActions FileTransactions InternalState

/-- The fixed names of a complete journal, from its directory. -/
def journalParts : List Path := [[],[stageDirectory],[removedDirectory],[manifestFile]]

/-- A journal as published, with nothing applied yet. -/
structure Journal (hash : Bytes → Digest) (limits : FileTransactionLimits) where
  base : Tree
  slots : List (Slot hash limits)
  indexes : slots.map Slot.index=List.range' 0 slots.length
  length_le : slots.length ≤ maxActions
  nodup : (slots.flatMap fun s => s.action.paths).Nodup
  prepared : ∀ s∈slots, Prepared s.index base s.change
  dirs : JournalDirs base
  leaves : ∀ n, FileOrAbsent base (stagePath transactionPath n) ∧
    FileOrAbsent base (removedPath transactionPath n)
  closed : ∀ r, r∉journalParts → (∀ n, transactionPath++r≠stagePath transactionPath n ∧
    transactionPath++r≠removedPath transactionPath n) → base.node (transactionPath++r)=none
  unprepared : base.node preparingPath=none
  initialized : Initialized base
  locked : ∃ i, base.node lockPath=some (.file i)
  manifest : ∃ bytes, Holds base manifestPath bytes ∧ bytes.length ≤ maxManifestBytes ∧
    decodeManifest hash bytes=.ok (slots.map Slot.action)

/-! ## Names of the journal -/

theorem transaction_prefix_stage (index : ℕ) :
    transactionPath <+: stagePath transactionPath index := by
  simp only [stagePath,indexedPath,List.append_assoc]
  exact List.prefix_append _ _

theorem transaction_prefix_removed (index : ℕ) :
    transactionPath <+: removedPath transactionPath index := by
  simp only [removedPath,indexedPath,List.append_assoc]
  exact List.prefix_append _ _

/-- The number a hexadecimal name stands for. -/
private def ofHexName (name : Text) : ℕ :=
  name.foldl (fun n c => 16*n + "0123456789abcdef".toList.idxOf c) 0

private theorem ofHexName_leftpad :
    ∀ n < maxActions, ofHexName ((Nat.toDigits 16 n).leftpad 8 '0')=n := by decide +kernel

/-- Distinct actions have distinct file names in the journal's directories. -/
theorem indexedPath_injective {directory : Path} {m n : ℕ} (hm : m < maxActions)
    (hn : n < maxActions) (h : indexedPath directory m=indexedPath directory n) : m=n := by
  have hname : (Nat.toDigits 16 m).leftpad 8 '0'=(Nat.toDigits 16 n).leftpad 8 '0' := by
    simpa [indexedPath] using h
  rw [← ofHexName_leftpad m hm,hname,ofHexName_leftpad n hn]

namespace Journal

variable {hash : Bytes → Digest} {limits : FileTransactionLimits} (j : Journal hash limits)

variable {name : Text}

theorem entry_ne (n : ℕ) :
    transactionPath++[name]≠stagePath transactionPath n ∧
      transactionPath++[name]≠removedPath transactionPath n :=
  ⟨fun h => by simpa [stagePath,indexedPath] using congrArg List.length h,
    fun h => by simpa [removedPath,indexedPath] using congrArg List.length h⟩

theorem uncommitted : j.base.node committedPath=none := j.closed _ (by decide) entry_ne

theorem uncommitting : j.base.node committingPath=none := j.closed _ (by decide) entry_ne

variable {s s' : Slot hash limits} {p : Path}

theorem index_lt (hs : s∈j.slots) : s.index < j.slots.length := by
  have : s.index∈j.slots.map Slot.index := List.mem_map_of_mem hs
  rw [j.indexes] at this
  simpa using this

theorem eq_of_index (hs : s∈j.slots) (hs' : s'∈j.slots) (h : s.index=s'.index) : s=s' := by
  refine List.inj_on_of_nodup_map (f := Slot.index) ?_ hs hs' h
  rw [j.indexes]
  exact List.nodup_range'

theorem paths_disjoint (hs : s∈j.slots) (hs' : s'∈j.slots) (hne : s.index≠s'.index) :
    s.action.paths.Disjoint s'.action.paths := by
  obtain ⟨m,hm,rfl⟩ := List.getElem_of_mem hs
  obtain ⟨n,hn,rfl⟩ := List.getElem_of_mem hs'
  have hpair := List.pairwise_iff_getElem.1 (List.nodup_flatMap.1 j.nodup).2
  rcases lt_trichotomy m n with h | rfl | h
  · exact hpair m n hm hn h
  · exact absurd rfl hne
  · exact fun path hpath hpath' => hpair n m hn hm h hpath' hpath

/-- No two actions share a name. -/
theorem disjoint (hs : s∈j.slots) (hs' : s'∈j.slots) (hne : s.index≠s'.index)
    (hp : s.footprint p) : ¬ s'.footprint p := by
  have hlt := (j.index_lt hs).trans_le j.length_le
  have hlt' := (j.index_lt hs').trans_le j.length_le
  intro hp'
  rcases hp with rfl | rfl | hp <;> rcases hp' with h | h | hp'
  · exact hne (indexedPath_injective hlt hlt' h)
  · exact stage_ne_removed _ _ h
  · exact (s'.outside_target hp').ne_stage _ rfl
  · exact stage_ne_removed _ _ h.symm
  · exact hne (indexedPath_injective hlt hlt' h)
  · exact (s'.outside_target hp').ne_removed _ rfl
  · exact (s.outside_target hp).ne_stage _ h
  · exact (s.outside_target hp).ne_removed _ h
  · obtain ⟨path,hpath,rfl⟩ := s.mem_targets hp
    obtain ⟨path',hpath',heq⟩ := s'.mem_targets hp'
    cases components_injective heq
    exact j.paths_disjoint hs hs' hne hpath hpath'

/-- What a transaction, its rollback and its cleanup may touch. -/
inductive Touched (j : Journal hash limits) : Path → Prop where
  | committing : Touched j committingPath
  | stage (n : ℕ) : Touched j (stagePath transactionPath n)
  | removed (n : ℕ) : Touched j (removedPath transactionPath n)
  | target {s : Slot hash limits} {p : Path} (hs : s∈j.slots) (hp : p∈s.change.targets) :
      Touched j p

variable {j} in
theorem touched_of_footprint (hs : s∈j.slots) (h : s.footprint p) : j.Touched p := by
  rcases h with rfl | rfl | h
  · exact .stage _
  · exact .removed _
  · exact .target hs h

theorem touched_cases (h : j.Touched p) : transactionPath <+: p ∨ Outside p := by
  cases h with
  | committing => exact .inl (List.prefix_append _ _)
  | stage n => exact .inl (transaction_prefix_stage n)
  | removed n => exact .inl (transaction_prefix_removed n)
  | @target s p hs hp => exact .inr (s.outside_target hp)

/-- The other names of the state directory stay. -/
theorem not_touched_state (hs : statePath <+: p) (ht : ¬ transactionPath <+: p) :
    ¬ j.Touched p := by
  intro h
  rcases j.touched_cases h with h | h
  · exact ht h
  · exact h hs

/-- An entry of the journal's own directory other than the marker to come stays. -/
theorem not_touched_entry (hne : name≠committingFile) :
    ¬ j.Touched (transactionPath++[name]) := by
  intro h
  generalize he : transactionPath++[name]=p at h
  cases h with
  | committing => exact hne (by simpa [committingPath] using he)
  | stage n => exact (entry_ne n).1 he
  | removed n => exact (entry_ne n).2 he
  | @target s p hs hp =>
    rw [← he] at hp
    exact s.outside_target hp (statePath_prefix_transaction.trans (List.prefix_append _ _))

/-- A tree between the publication of a journal and its end. -/
structure InProgress (t : Tree) : Prop where
  keeps : j.base.Keeps j.Touched t
  rollbackable : ∀ s∈j.slots, Rollbackable s.index j.base t s.change

variable {j} {t t' : Tree}

theorem not_directory_of_touched (hp : j.Touched p) : j.base.node p≠some .directory := by
  have hleaf : ∀ {q}, FileOrAbsent j.base q → j.base.node q≠some .directory := by
    rintro q (h | ⟨i,h⟩) <;> simp [h]
  cases hp with
  | committing => simp [j.uncommitting]
  | stage n => exact hleaf (j.leaves n).1
  | removed n => exact hleaf (j.leaves n).2
  | @target s p hs hp =>
    refine hleaf ?_
    have hprep := j.prepared s hs
    revert hp hprep
    cases s.change with
    | create target bytes =>
      intro hp hprep
      obtain rfl := List.mem_singleton.1 hp
      exact .inl hprep.2.node
    | move source target bytes =>
      intro hp hprep
      obtain ⟨⟨i,hi,-⟩,hfree⟩ := hprep
      simp only [Change.targets,List.mem_cons,List.not_mem_nil,or_false] at hp
      rcases hp with rfl | rfl
      · exact .inr ⟨i,hi⟩
      · exact .inl hfree.node
    | remove | replace =>
      intro hp hprep
      obtain ⟨⟨i,hi,-⟩,-⟩ := hprep
      obtain rfl := List.mem_singleton.1 hp
      exact .inr ⟨i,hi⟩

theorem InProgress.follows (h : j.InProgress t) : Follows j.base t :=
  follows_of_keeps h.keeps fun _ => not_directory_of_touched

theorem InProgress.dirs (h : j.InProgress t) : JournalDirs t := j.dirs.follows h.follows

/-- A step of one action leaves the whole journal in progress. -/
theorem InProgress.along (h : j.InProgress t) (hs : s∈j.slots)
    (hstep : Along s.index j.base t s.change t') : j.InProgress t' where
  keeps := h.keeps.trans (hstep.keeps.mono fun _ => touched_of_footprint hs)
  rollbackable s' hs' := by
    by_cases he : s'.index=s.index
    · rw [j.eq_of_index hs' hs he]
      exact hstep.rollbackable
    · have hnot : ∀ {p}, s'.footprint p → ¬ s.footprint p := j.disjoint hs' hs he
      exact (h.rollbackable s' hs').keeps hstep.keeps (hnot (.inl rfl)) (hnot (.inr (.inl rfl)))
        fun p hp => hnot (.inr (.inr hp))

/-- A step of one action shows nothing at the names of another. -/
theorem entry_of_along (hs : s∈j.slots) (hs' : s'∈j.slots) (hne : s'.index≠s.index)
    (hstep : Along s.index j.base t s.change t') (hp : p∈s'.change.targets) :
    t'.entry p=t.entry p :=
  hstep.keeps.entry (j.disjoint hs' hs hne (.inr (.inr hp)))

theorem untouched_of_along (hs : s∈j.slots) (hs' : s'∈j.slots) (hne : s'.index≠s.index)
    (hstep : Along s.index j.base t s.change t') (hu : Untouched s'.index s'.change j.base t) :
    Untouched s'.index s'.change j.base t' := by
  have hnot : ∀ {p}, s'.footprint p → ¬ s.footprint p := j.disjoint hs' hs hne
  refine ⟨?_,?_,fun p hp => ?_⟩
  · rw [hstep.keeps.node _ (hnot (.inl rfl)),hu.stage]
  · rw [hstep.keeps.node _ (hnot (.inr (.inl rfl))),hu.removed]
  · rw [hstep.keeps.node _ (hnot (.inr (.inr hp))),hu.targets p hp]

end Journal

end Ash.Journals
