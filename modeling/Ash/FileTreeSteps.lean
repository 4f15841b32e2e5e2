import Ash.FileTrees

/-! # Steps of file trees

For each primitive, when it succeeds and how the tree it leaves differs. -/

namespace Ash.FileTrees.FileTree

variable {Name Byte : Type} [DecidableEq Name]
variable {t t' : FileTree Name Byte} {p q : List Name} {i : ℕ} {bytes : List Byte}

/-- Only the binding of `p` changed. -/
structure Rebinds (t : FileTree Name Byte) (p : List Name) (v : Option Node)
    (t' : FileTree Name Byte) : Prop where
  node : t'.node=Function.update t.node p v
  data : t'.data=t.data
  next : t'.next=t.next

/-- `p` came to name a fresh inode with contents `bytes`. -/
structure Creates (t : FileTree Name Byte) (p : List Name) (bytes : List Byte)
    (t' : FileTree Name Byte) : Prop where
  node : t'.node=Function.update t.node p (some (.file t.next))
  data : t'.data=Function.update t.data t.next bytes
  next : t'.next=t.next+1

/-- A name that can be created: it is free and its directory is there. -/
structure Free (t : FileTree Name Byte) (p : List Name) : Prop where
  ne_root : p≠[]
  parent : t.node (parent p)=some .directory
  node : t.node p=none

theorem createDir_ok (h : t.Free p) :
    ∃ t', t.createDir p=.ok t' ∧ t.Rebinds p (some .directory) t' :=
  ⟨_,dif_pos ⟨h.ne_root,h.parent,h.node⟩,rfl,rfl,rfl⟩

theorem free_of_createDir (h : t.createDir p=.ok t') :
    t.Free p ∧ t.Rebinds p (some .directory) t' := by
  unfold createDir at h
  split at h
  · next hc =>
    cases h
    exact ⟨⟨hc.1,hc.2.1,hc.2.2⟩,rfl,rfl,rfl⟩
  · cases h

theorem createNew_ok (h : t.Free p) :
    ∃ t', t.createNew p=.ok (t.next,t') ∧ t.Creates p [] t' :=
  ⟨_,dif_pos ⟨h.ne_root,h.parent,h.node⟩,rfl,rfl,rfl⟩

theorem free_of_createNew (h : t.createNew p=.ok (i,t')) :
    t.Free p ∧ i=t.next ∧ t.Creates p [] t' := by
  unfold createNew at h
  split at h
  · next hc =>
    cases h
    exact ⟨⟨hc.1,hc.2.1,hc.2.2⟩,rfl,rfl,rfl,rfl⟩
  · cases h

theorem replaceFile_ok (hp : p≠[]) (hi : t.node p=some (.file i)) :
    ∃ t', t.replaceFile p bytes=.ok t' ∧ t.Creates p bytes t' :=
  ⟨_,dif_pos ⟨hp,t.node_parent hp (by simp [hi]),by simp [hi]⟩,rfl,rfl,rfl⟩

theorem hardLink_ok (ha : t.node p=some (.file i)) (hb : t.Free q) :
    ∃ t', t.hardLink p q=.ok t' ∧ t.Rebinds q (some (.file i)) t' := by
  unfold hardLink
  split
  · next j hj =>
    cases Option.some.inj (ha.symm.trans hj)
    exact ⟨_,dif_pos ⟨hb.ne_root,hb.parent,hb.node⟩,rfl,rfl,rfl⟩
  · next n hn hj => exact absurd (Option.some.inj (hj.symm.trans ha)) (hn i)
  · next hj => cases ha.symm.trans hj

theorem removeFile_ok (hp : t.node p=some (.file i)) :
    ∃ t', t.removeFile p=.ok t' ∧ t.Rebinds p none t' := by
  unfold removeFile
  simp only [hp]
  exact ⟨_,dif_pos (by simp),rfl,rfl,rfl⟩

theorem rebinds_of_removeFile (h : t.removeFile p=.ok t') : t.Rebinds p none t' := by
  unfold removeFile at h
  split at h
  · cases h
  · split at h
    · cases h
      exact ⟨rfl,rfl,rfl⟩
    · cases h

/-- Everything at or below `p` went away. -/
structure Clears (t : FileTree Name Byte) (p : List Name) (t' : FileTree Name Byte) : Prop where
  node : ∀ q, t'.node q=if p <+: q then none else t.node q
  data : t'.data=t.data
  next : t'.next=t.next

theorem removeDirAll_ok (hne : p≠[]) (hp : t.node p=some .directory) :
    ∃ t', t.removeDirAll p=.ok t' ∧ t.Clears p t' := by
  unfold removeDirAll
  split
  · next h => cases hp.symm.trans h
  · exact ⟨_,dif_pos hne,fun _ => rfl,rfl,rfl⟩
  · next h => cases hp.symm.trans h
  · next h => cases hp.symm.trans h

theorem rename_file_ok (ha : t.node p=some (.file i)) (hb : t.Free q) :
    ∃ t', t.rename p q=.ok t' ∧
      t'.node=Function.update (Function.update t.node p none) q (some (.file i)) ∧
      t'.data=t.data ∧ t'.next=t.next := by
  have hpar : parent q≠p := by
    rintro rfl
    cases ha.symm.trans hb.parent
  unfold rename
  split
  · next h => cases ha.symm.trans h
  · next h => cases ha.symm.trans h
  · next n hn hj =>
    cases Option.some.inj (ha.symm.trans hj)
    rw [if_neg (by simp [hb.node]),
      dif_pos ⟨hb.ne_root,hb.parent,by simp [hb.node],by simp [ha],hpar⟩]
    exact ⟨_,rfl,rfl,rfl,rfl⟩

/-- A directory moved with everything below it. -/
structure Moves (t : FileTree Name Byte) (a b : List Name) (t' : FileTree Name Byte) : Prop where
  node : ∀ q, t'.node q=if b <+: q then t.node (a++q.drop b.length)
    else if a <+: q then none else t.node q
  data : t'.data=t.data
  next : t'.next=t.next

theorem rename_directory_ok (ha : t.node p=some .directory) (hpq : ¬ p <+: q)
    (hb : t.Free q) : ∃ t', t.rename p q=.ok t' ∧ t.Moves p q t' := by
  unfold rename
  split
  · next h => cases ha.symm.trans h
  · rw [dif_pos ⟨hpq,hb.ne_root,hb.parent,hb.node⟩]
    exact ⟨_,rfl,fun _ => rfl,rfl,rfl⟩
  · next n hn hj => exact absurd (Option.some.inj (hj.symm.trans ha)) hn

theorem Rebinds.keeps {v : Option Node} (h : t.Rebinds p v t') : Keeps (· = p) t t' where
  node q hq := by rw [h.node,Function.update_of_ne hq]
  data i _ := by rw [h.data]
  next := h.next.ge

theorem Creates.keeps (h : t.Creates p bytes t') : Keeps (· = p) t t' where
  node q hq := by rw [h.node,Function.update_of_ne hq]
  data i hi := by rw [h.data,Function.update_of_ne hi.ne]
  next := by simp [h.next]

theorem Clears.keeps (h : t.Clears p t') : Keeps (p <+: ·) t t' where
  node q hq := by rw [h.node,if_neg hq]
  data i _ := by rw [h.data]
  next := h.next.ge

/-! ## Removing a directory entry by entry -/

/-- The names of `removed`, all at or below `root`, unbound one after another, each when
nothing is below it any more: what removing `root` recursively has done so far. -/
inductive Unlinks (root : List Name) :
    FileTree Name Byte → List (List Name) → FileTree Name Byte → Prop where
  | nil {t : FileTree Name Byte} : Unlinks root t [] t
  | cons {t t₁ t' : FileTree Name Byte} {p : List Name} {removed : List (List Name)}
      (below : root <+: p) (bound : t.node p≠none) (childless : ∀ c, t.node (p++[c])=none)
      (unbinds : t.Rebinds p none t₁) (rest : Unlinks root t₁ removed t') :
      Unlinks root t (p::removed) t'

namespace Unlinks

variable {root : List Name} {removed : List (List Name)}

section
variable (h : Unlinks root t removed t')
include h

theorem root_prefix : ∀ q∈removed, root <+: q := by
  induction h with
  | nil => simp
  | cons hb _ _ _ _ ih => exact List.forall_mem_cons.2 ⟨hb,ih⟩

theorem keeps : Keeps (· ∈ removed) t t' := by
  induction h with
  | nil => exact .refl _
  | cons _ _ _ hr _ ih =>
    exact (hr.keeps.mono fun q hq => by simp [hq]).trans (ih.mono fun q hq => by simp [hq])

theorem data : t'.data=t.data := by
  induction h with
  | nil => rfl
  | cons _ _ _ hr _ ih => rw [ih,hr.data]

theorem next : t'.next=t.next := by
  induction h with
  | nil => rfl
  | cons _ _ _ hr _ ih => rw [ih,hr.next]

/-- A removed name is gone, and was there. -/
theorem node_of_mem {q : List Name} (hq : q∈removed) : t'.node q=none ∧ t.node q≠none := by
  induction h with
  | nil => cases hq
  | @cons t t₁ t' p removed _ hb _ hr hrest ih =>
    by_cases hmem : q∈removed
    · obtain ⟨hnone,hbound⟩ := ih hmem
      refine ⟨hnone,?_⟩
      by_cases hqp : q=p
      · rw [hqp]
        exact hb
      · rwa [hr.node,Function.update_of_ne hqp] at hbound
    · obtain rfl : q=p := by simpa [hmem] using hq
      exact ⟨by rw [hrest.keeps.node q hmem,hr.node,Function.update_self],hb⟩

theorem node_eq (q : List Name) : t'.node q=t.node q ∨ t'.node q=none := by
  by_cases hq : q∈removed
  · exact .inr (h.node_of_mem hq).1
  · exact .inl (h.keeps.node q hq)

/-- Once the directory itself is gone, the steps amount to its removal as a whole. -/
theorem clears (hroot : root∈removed) : t.Clears root t' where
  node q := by
    split
    · next hq =>
      obtain ⟨r,rfl⟩ := hq
      have hnone := (h.node_of_mem hroot).1
      by_cases hr : r=[]
      · simpa [hr] using hnone
      · exact t'.no_child_of_not_directory (by simp [hnone]) hr
    · next hq => exact h.keeps.node q fun hmem => hq (h.root_prefix q hmem)
  data := h.data
  next := h.next

end

/-- Unlinking one file. -/
theorem of_removeFile (hroot : root <+: p) (hp : t.node p=some (.file i))
    (h : t.removeFile p=.ok t') : Unlinks root t [p] t' :=
  .cons hroot (by simp [hp]) (fun c => t.no_child_of_not_directory (by simp [hp]) (by simp))
    (rebinds_of_removeFile h) .nil

end Unlinks

end Ash.FileTrees.FileTree
