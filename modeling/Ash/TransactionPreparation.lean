import Ash.JournalStates

/-! # Preparing a transaction

Preparation reads the workspace and writes staged contents and preimages under the
journal directory only.  When it succeeds, each record it returns stands for a change
that makes the action, and the journal holds what that change needs. -/

namespace Ash.TransactionPreparation
open WorkspaceOperations WorkspacePaths WorkspaceRules CheckedPaths TransactionActions
open TransactionManifest TransactionSteps TransactionReads TransactionWrites ActionSteps
open JournalStates

/-- What an action means to a reader of the workspace. -/
def applyFileAction (action : FileAction) (v : View) : View :=
  match action.kind with
  | .create | .replace =>
      Function.update v (components action.path) (some (.file (action.content.getD [])))
  | .copy =>
      Function.update v (components (action.destination.getD action.path))
        (v (components action.path))
  | .move =>
      Function.update (Function.update v (components action.path) none)
        (components (action.destination.getD action.path)) (v (components action.path))
  | .remove => Function.update v (components action.path) none

/-- The actions made one after the other. -/
def applyFileActions (actions : List FileAction) (v : View) : View :=
  actions.foldl (fun v action => applyFileAction action v) v

/-- A change makes an action in every view that shows `v` at the action's paths. -/
def Realizes (action : FileAction) (v : View) (c : Change) : Prop :=
  ∀ w : View, (∀ path∈action.paths, w (components path)=v (components path)) →
    applyFileAction action w=c.apply w

/-- The journal's record of an action; only a replacement has a preimage. -/
def RecordOf (action : FileAction) (record : PreparedAction) : Prop :=
  ∃ digest size preimage, record=preparedAction action digest size preimage ∧
    (preimage.isSome=true ↔ action.kind=.replace)

/-- What a successful preparation of one action establishes. -/
structure Prepares (hash : Bytes → Digest) (limits : FileTransactionLimits) (index : ℕ)
    (action : FileAction) (totals totals' : TransactionTotals) (record : PreparedAction)
    (t t' : Tree) (c : Change) : Prop where
  recordOf : RecordOf action record
  describes : Describes hash record c
  prepared : PreparedIn preparingPath index t' c
  fits : c.Fits limits.maxFileBytes
  realizes : Realizes action t.entry c
  charged : ∀ rest, validateManifestSizes totals.materialized totals.preimages (record::rest) =
    validateManifestSizes totals'.materialized totals'.preimages rest

/-- The journal entries of one action. -/
def entries (index : ℕ) (p : Path) : Prop :=
  p=stagePath preparingPath index ∨ p=removedPath preparingPath index

/-- A tree that preparing one action passes through. -/
structure Stages (index : ℕ) (t t' : Tree) : Prop where
  keeps : t.Keeps (entries index) t'
  stage : FileOrAbsent t' (stagePath preparingPath index)
  removed : FileOrAbsent t' (removedPath preparingPath index)

variable {p : Path} {t' : Tree}

theorem outside_not_entry (h : Outside p) (index : ℕ) : ¬ entries index p := by
  rintro (rfl | rfl)
  · refine h ?_
    simp only [stagePath,indexedPath,preparingPath,List.append_assoc]
    exact List.prefix_append _ _
  · refine h ?_
    simp only [removedPath,indexedPath,preparingPath,List.append_assoc]
    exact List.prefix_append _ _

theorem preparing_stage_ne_removed (i k : ℕ) :
    stagePath preparingPath i≠removedPath preparingPath k := by
  intro h
  have hdir := congrArg (fun p : Path => p[2]?) h
  exact stageDirectory_ne_removedDirectory (Option.some.inj hdir)

variable {I : Watch} {t : Tree} {hash : Bytes → Digest} {limits : FileTransactionLimits}
variable {workspace : Workspace} {logical : Text} {total : ℕ}

theorem safe_ensureAbsent {Q : Except StepFailure Path → Tree → Prop}
    (h : AdmittedPath workspace logical) (hI : I t)
    (hok : t.Free (components logical) → Q (.ok (components logical)) t)
    (herr : ∀ e, BenignStep e → Q (.error e) t) :
    Safe I Q (ensureAbsent hash workspace logical limits total) t := by
  refine safe_bind.2 (safe_mapError.2 (safe_checkedMutationPath h hI ?_ ?_ ?_))
  · intro i hfile
    refine safe_bind.2 (safe_attempt.2 (safe_symlinkMetadata.2 ⟨hI,?_⟩))
    rw [stat_file hfile]
    refine safe_bind.2 (safe_hashFileBounded hfile hI (fun _ _ _ _ => ?_) herr)
    exact safe_fail.2 (herr _ trivial)
  · intro _ hfree
    refine safe_bind.2 (safe_attempt.2 (safe_symlinkMetadata.2 ⟨hI,?_⟩))
    rw [stat_absent hfree.node hfree.parent]
    exact safe_pure.2 (hok hfree)
  · intro e he
    exact herr _ he

theorem safe_ensureDestinationAbsent {Q : Except StepFailure Unit → Tree → Prop}
    {action : FileAction} (hadm : ∀ path∈action.paths, AdmittedPath ⟨true⟩ path) (hI : I t)
    (hok : (∀ destination∈action.destination, t.Free (components destination)) → Q (.ok ()) t)
    (herr : ∀ e, BenignStep e → Q (.error e) t) :
    Safe I Q (ensureDestinationAbsent hash ⟨true⟩ action.destination limits total) t := by
  cases hdest : action.destination with
  | none => exact safe_pure.2 (hok (by simp [hdest]))
  | some destination =>
    have hD := hadm destination (by simp [FileAction.paths,hdest])
    refine safe_bind.2 (safe_ensureAbsent hD hI (fun hfree => ?_) herr)
    exact safe_pure.2 (hok (by simpa [hdest] using hfree))

theorem safe_source {Q : Except StepFailure Path → Tree → Prop} (h : AdmittedPath workspace logical)
    (hI : I t) (hok : ∀ i, t.node (components logical)=some (.file i) →
      Q (.ok (components logical)) t) (herr : ∀ e, BenignStep e → Q (.error e) t) :
    Safe I Q ((workspace.checkedMutationPath logical true).mapError .platform) t :=
  safe_mapError.2 (safe_checkedMutationPath h hI hok (fun h => by cases h) fun e he => herr _ he)

theorem safe_required {α : Type} {Q : Except StepFailure α → Tree → Prop} {field : Option α}
    (hok : ∀ a, field=some a → Q (.ok a) t)
    (herr : ∀ e, BenignStep e → Q (.error e) t) :
    Safe I Q (required field .invalidMutationTarget) t := by
  cases field with
  | none => exact safe_fail.2 (herr _ (by simp [BenignStep,Benign]))
  | some a => exact safe_pure.2 (hok a rfl)

theorem Stages.refl {index : ℕ} (hs : t.Free (stagePath preparingPath index))
    (hr : t.Free (removedPath preparingPath index)) : Stages index t t :=
  ⟨.refl t,.inl hs.node,.inl hr.node⟩

theorem stages_of_creates {index : ℕ} {bytes : Bytes}
    (hr : t.Free (removedPath preparingPath index))
    (h : t.Creates (stagePath preparingPath index) bytes t') : Stages index t t' := by
  refine ⟨h.keeps.mono fun p hp => .inl hp,.inr ⟨_,node_creates h⟩,.inl ?_⟩
  rw [h.keeps.node _ (preparing_stage_ne_removed _ _).symm,hr.node]

/-- Staging leaves files outside the state directory. -/
theorem Stages.holds {index : ℕ} {bytes : Bytes} (h : Stages index t t') (hp : Outside p)
    (hh : Holds t p bytes) : Holds t' p bytes := by
  obtain ⟨i,hi,hd⟩ := hh
  refine ⟨i,?_,?_⟩
  · rw [h.keeps.node p (outside_not_entry hp index),hi]
  · rw [h.keeps.data i (t.inode_lt p i hi),hd]

theorem Stages.directory {index : ℕ} (h : Stages index t t')
    (hs : t.Free (stagePath preparingPath index)) (hr : t.Free (removedPath preparingPath index))
    (hp : t.node p=some .directory) : t'.node p=some .directory := by
  rw [h.keeps.node,hp]
  rintro (rfl | rfl)
  · cases hs.node.symm.trans hp
  · cases hr.node.symm.trans hp

theorem Stages.free {index : ℕ} (h : Stages index t t')
    (hs : t.Free (stagePath preparingPath index)) (hr : t.Free (removedPath preparingPath index))
    (hne : ¬ entries index p) (hp : t.Free p) : t'.Free p :=
  ⟨hp.ne_root,h.directory hs hr hp.parent,by rw [h.keeps.node p hne,hp.node]⟩

/-! ## Charges -/

theorem charged_plain {action : FileAction} {digest : Digest} {size total' : ℕ}
    {totals : TransactionTotals} (hsize : size ≤ limits.maxFileBytes)
    (htotal : total'=totals.materialized+size) (hle : total' ≤ limits.maxTotalBytes)
    (rest : List PreparedAction) :
    validateManifestSizes totals.materialized totals.preimages
      (preparedAction action digest size none::rest) =
    validateManifestSizes total' totals.preimages rest := by
  subst htotal
  have h₁ := limits.file_le
  have h₂ := limits.total_le
  simp only [maxFileTransactionFileBytes,maxFileTransactionTotalBytes] at h₁ h₂
  rw [validateManifestSizes,if_neg]
  · rfl
  · simp only [preparedAction,maxFileTransactionFileBytes,maxFileTransactionTotalBytes]
    omega

theorem charged_preimage {action : FileAction} {digest old : Digest} {size oldSize m m' : ℕ}
    {totals : TransactionTotals} (hsize : size ≤ limits.maxFileBytes)
    (htotal : m=totals.materialized+size) (hle : m ≤ limits.maxTotalBytes)
    (holdSize : oldSize ≤ limits.maxFileBytes) (holdTotal : m'=totals.preimages+oldSize)
    (holdLe : m' ≤ limits.maxTotalBytes) (rest : List PreparedAction) :
    validateManifestSizes totals.materialized totals.preimages
      (preparedAction action digest size (some (old,oldSize))::rest) =
    validateManifestSizes m m' rest := by
  subst htotal holdTotal
  have h₁ := limits.file_le
  have h₂ := limits.total_le
  simp only [maxFileTransactionFileBytes,maxFileTransactionTotalBytes] at h₁ h₂
  rw [validateManifestSizes,if_neg]
  · simp only [preparedAction,Option.map_some]
    rw [if_neg]
    simp only [maxFileTransactionFileBytes,maxFileTransactionTotalBytes]
    omega
  · simp only [preparedAction,maxFileTransactionFileBytes,maxFileTransactionTotalBytes]
    omega

/-! ## One action -/

section Action

variable {Q : Except StepFailure (PreparedAction × TransactionTotals) → Tree → Prop}
variable {index : ℕ} {action : FileAction} {totals : TransactionTotals}
variable (hadm : ∀ path∈action.paths, AdmittedPath ⟨true⟩ path)
variable (hstage : t.Free (stagePath preparingPath index))
variable (hrem : t.Free (removedPath preparingPath index))
variable (hI : ∀ t', Stages index t t' → I t')
variable (hdone : ∀ record totals' t' c, Stages index t t' →
  Prepares hash limits index action totals totals' record t t' c → Q (.ok (record,totals')) t')
variable (herr : ∀ e t', BenignStep e → Stages index t t' → Q (.error e) t')
variable (hA : AdmittedPath ⟨true⟩ action.path) (hhere : Stages index t t)
variable (herr' : ∀ e, BenignStep e → Q (.error e) t)
include hadm hstage hrem hI hdone herr hA hhere herr'

omit hadm herr in
private theorem safe_prepareCreate (hkind : action.kind=.create)
    (hdest : action.destination=none) :
    Safe I Q (prepareCreate hash ⟨true⟩ index action preparingPath limits totals) t := by
  refine safe_bind.2 (safe_ensureAbsent hA (hI t hhere) (fun hfree => ?_) herr')
  refine safe_bind.2 (safe_required (fun content hcont => ?_) herr')
  refine safe_bind.2 (safe_ofExcept.2 ?_)
  cases hc : chargeBytes content.length limits totals.materialized with
  | error e => exact herr' e (chargeBytes_error hc)
  | ok materialized =>
    obtain ⟨hsize,htotal,hle⟩ := chargeBytes_ok hc
    refine safe_bind.2 (safe_mapError.2 (safe_writeNewSync (hI t hhere)
      (fun b t' h => hI t' (stages_of_creates hrem h)) (fun t' _ h => ?_)
      fun _ e => herr' _ (benign_io e)))
    have hst := stages_of_creates hrem h
    have hfree' := hst.free hstage hrem (outside_not_entry (outside_components hA) index) hfree
    refine safe_pure.2 (hdone _ _ t' (.create (components action.path) content) hst
      ⟨⟨_,_,none,rfl,by simp [hkind]⟩,⟨.inl hkind,?_,rfl,rfl⟩,⟨⟨_,node_creates h,
        data_creates h⟩,hfree'⟩,hsize,?_,charged_plain hsize htotal hle⟩)
    · simp [preparedAction,hdest]
    · intro w _
      simp [applyFileAction,hkind,Change.apply,hcont]

private theorem safe_prepareCopy (hkind : action.kind=.copy) :
    Safe I Q (prepareCopy hash ⟨true⟩ index action preparingPath limits totals) t := by
  refine safe_bind.2 (safe_required (fun destination hdest => ?_) herr')
  have hD := hadm destination (by simp [FileAction.paths,hdest])
  refine safe_bind.2 (safe_ensureAbsent hD (hI t hhere) (fun hfree => ?_) herr')
  refine safe_bind.2 (safe_source hA (hI t hhere) (fun i hi => ?_) herr')
  refine safe_bind.2 (safe_copyFileBounded hi (hI t hhere)
    (fun b t' h => hI t' (stages_of_creates hrem h))
    (fun total' t' h hsize htotal hle => ?_) herr'
    fun e b t' he h => herr e t' he (stages_of_creates hrem h))
  have hst := stages_of_creates hrem h
  have hfree' := hst.free hstage hrem (outside_not_entry (outside_components hD) index) hfree
  refine safe_ite.2 ?_
  split
  · exact safe_fail.2 (herr _ t' trivial hst)
  · refine safe_pure.2 (hdone _ _ t' (.create (components destination) (t.data i)) hst
      ⟨⟨_,_,none,rfl,by simp [hkind]⟩,⟨.inr hkind,?_,rfl,rfl⟩,⟨⟨_,node_creates h,
        data_creates h⟩,hfree'⟩,hsize,?_,charged_plain hsize htotal hle⟩)
    · simp [preparedAction,hdest]
    · intro w hw
      have hsrc := hw action.path (by simp [FileAction.paths])
      rw [Holds.entry ⟨i,hi,rfl⟩] at hsrc
      simp [applyFileAction,hkind,Change.apply,hdest,hsrc]

omit hstage herr in
private theorem safe_prepareMoveRemove (hshape : action.shapeValid=true)
    (hkind : action.kind=.move ∨ action.kind=.remove) :
    Safe I Q (prepareMoveRemove hash ⟨true⟩ action limits totals) t := by
  refine safe_bind.2 (safe_ensureDestinationAbsent hadm (hI t hhere) (fun hfree => ?_) herr')
  refine safe_bind.2 (safe_source hA (hI t hhere) (fun i hi => ?_) herr')
  refine safe_bind.2 (safe_hashFileBounded hi (hI t hhere)
    (fun total' hsize htotal hle => ?_) herr')
  refine safe_ite.2 ?_
  split
  · exact safe_fail.2 (herr' _ trivial)
  · have hholds : Holds t (components action.path) (t.data i) := ⟨i,hi,rfl⟩
    rcases hkind with hk | hk
    · cases hdest : action.destination with
      | none => simp [FileAction.shapeValid,hk,hdest] at hshape
      | some destination =>
        refine safe_pure.2 (hdone _ _ t
          (.move (components action.path) (components destination) (t.data i)) hhere
          ⟨⟨_,_,none,rfl,by simp [hk]⟩,⟨hk,rfl,⟨destination,hdest,rfl⟩,rfl,rfl⟩,
            ⟨hholds,hfree destination hdest⟩,hsize,?_,charged_plain hsize htotal hle⟩)
        intro w hw
        have hsrc := hw action.path (by simp [FileAction.paths])
        rw [hholds.entry] at hsrc
        simp [applyFileAction,hk,Change.apply,hdest,hsrc]
    · refine safe_pure.2 (hdone _ _ t (.remove (components action.path) (t.data i)) hhere
        ⟨⟨_,_,none,rfl,by simp [hk]⟩,⟨hk,rfl,rfl,rfl⟩,⟨hholds,hrem⟩,hsize,?_,
          charged_plain hsize htotal hle⟩)
      intro w _
      simp [applyFileAction,hk,Change.apply]

omit hadm hrem in
private theorem safe_prepareReplace (hkind : action.kind=.replace) :
    Safe I Q (prepareReplace hash ⟨true⟩ index action preparingPath limits totals) t := by
  have hkept : ∀ {b t'}, t.Creates (removedPath preparingPath index) b t' → Stages index t t' := by
    intro b t' h
    refine ⟨h.keeps.mono fun p hp => .inr hp,.inl ?_,.inr ⟨_,node_creates h⟩⟩
    rw [h.keeps.node _ (preparing_stage_ne_removed _ _),hstage.node]
  refine safe_bind.2 (safe_source hA (hI t hhere) (fun i hi => ?_) herr')
  refine safe_bind.2 (safe_copyFileBounded hi (hI t hhere) (fun b t' h => hI t' (hkept h))
    (fun total' t₁ h₁ hsize₁ htotal₁ hle₁ => ?_) herr' fun e b t' he h => herr e t' he (hkept h))
  have hst₁ := hkept h₁
  refine safe_ite.2 ?_
  split
  · exact safe_fail.2 (herr _ t₁ trivial hst₁)
  · refine safe_bind.2 (safe_required (fun content hcont => ?_) fun e he => herr e t₁ he hst₁)
    refine safe_bind.2 (safe_ofExcept.2 ?_)
    cases hc : chargeBytes content.length limits totals.materialized with
    | error e => exact herr e t₁ (chargeBytes_error hc) hst₁
    | ok materialized =>
      obtain ⟨hsize,htotal,hle⟩ := chargeBytes_ok hc
      -- both entries of the action are there afterwards
      have hboth : ∀ {b t₂}, t₁.Creates (stagePath preparingPath index) b t₂ →
          Stages index t t₂ := by
        intro b t₂ h₂
        refine ⟨hst₁.keeps.trans (h₂.keeps.mono fun p hp => .inl hp),.inr ⟨_,node_creates h₂⟩,
          .inr ⟨t.next,?_⟩⟩
        rw [h₂.keeps.node _ (preparing_stage_ne_removed _ _).symm,node_creates h₁]
      refine safe_bind.2 (safe_mapError.2 (safe_writeNewSync (hI t₁ hst₁)
        (fun b t' h => hI t' (hboth h)) (fun t₂ _ h₂ => ?_)
        fun _ e => herr _ t₁ (benign_io e) hst₁))
      have hst := hboth h₂
      have hkept₂ : Holds t₂ (removedPath preparingPath index) (t.data i) := by
        refine ⟨t.next,?_,?_⟩
        · rw [h₂.keeps.node _ (preparing_stage_ne_removed _ _).symm,node_creates h₁]
        · rw [h₂.keeps.data t.next (by simp [h₁.next]),data_creates h₁]
      refine safe_pure.2 (hdone _ _ t₂ (.replace (components action.path) (t.data i) content) hst
        ⟨⟨_,_,some _,rfl,by simp [hkind]⟩,
          ⟨hkind,rfl,⟨rfl,rfl⟩,⟨rfl,rfl,hsize₁.trans limits.file_le⟩⟩,
          ⟨hst.holds (outside_components hA) ⟨i,hi,rfl⟩,hkept₂,⟨_,node_creates h₂,data_creates h₂⟩⟩,
          ⟨hsize₁,hsize⟩,?_,charged_preimage hsize htotal hle hsize₁ htotal₁ hle₁⟩)
      intro w _
      simp [applyFileAction,hkind,Change.apply,hcont]

omit hA hhere herr' in
theorem safe_prepareAction (hshape : action.shapeValid=true) :
    Safe I Q (prepareAction hash ⟨true⟩ index action preparingPath limits totals) t := by
  have hA := hadm action.path (by simp [FileAction.paths])
  have hhere := Stages.refl hstage hrem
  have herr' : ∀ e, BenignStep e → Q (.error e) t := fun e he => herr e t he hhere
  refine safe_bind.2 (safe_checkControl (hI t hhere) ?_ fun f => herr' _ trivial)
  have hdest : action.kind=.create → action.destination=none := by
    intro hk
    simp only [FileAction.shapeValid,hk,Bool.and_eq_true,Option.isNone_iff_eq_none] at hshape
    exact hshape.1.1
  cases hk : action.kind with
  | create => exact safe_prepareCreate hstage hrem hI hdone hA hhere herr' hk (hdest hk)
  | copy => exact safe_prepareCopy hadm hstage hrem hI hdone herr hA hhere herr' hk
  | move => exact safe_prepareMoveRemove hadm hrem hI hdone hA hhere herr' hshape (.inl hk)
  | remove => exact safe_prepareMoveRemove hadm hrem hI hdone hA hhere herr' hshape (.inr hk)
  | replace => exact safe_prepareReplace hstage hI hdone herr hA hhere herr' hk

end Action

/-! ## Reserved paths -/

section Reserved

variable {Q : Except StepFailure (PreparedAction × TransactionTotals) → Tree → Prop}
variable {index : ℕ} {action : FileAction} {totals : TransactionTotals} {journal : Path}

private theorem safe_ensureAbsent_reserved {Q : Except StepFailure Path → Tree → Prop}
    (h : AdmittedPath ⟨false⟩ logical) (hr : isReserved logical=true)
    (hQ : Q (.error (.platform .reservedPath)) t) :
    Safe I Q (ensureAbsent hash ⟨true⟩ logical limits total) t :=
  safe_bind.2 (safe_mapError.2 (safe_checkedMutationPath_reserved h.logical hr hQ))

private theorem safe_source_reserved {Q : Except StepFailure Path → Tree → Prop}
    (h : AdmittedPath ⟨false⟩ logical) (hr : isReserved logical=true)
    (hQ : Q (.error (.platform .reservedPath)) t) :
    Safe I Q ((Workspace.checkedMutationPath ⟨true⟩ logical true).mapError .platform) t :=
  safe_mapError.2 (safe_checkedMutationPath_reserved h.logical hr hQ)

/-- An action that names the state directory is refused, whatever it found before. -/
theorem safe_prepareAction_reserved (hadm : ∀ path∈action.paths, AdmittedPath ⟨false⟩ path)
    (hshape : action.shapeValid=true) (hresv : ∃ path∈action.paths, isReserved path=true)
    (hI : I t) (herr : ∀ e, BenignStep e ∨ e=.platform .reservedPath → Q (.error e) t) :
    Safe I Q (prepareAction hash ⟨true⟩ index action journal limits totals) t := by
  have hbenign : ∀ e, BenignStep e → Q (.error e) t := fun e he => herr e (.inl he)
  have href : Q (.error (.platform .reservedPath)) t := herr _ (.inr rfl)
  have hpath := hadm action.path (by simp [FileAction.paths])
  have hdest : ∀ d, action.destination=some d → AdmittedPath ⟨false⟩ d := fun d hd =>
    hadm d (by simp [FileAction.paths,hd])
  -- where the destination is not reserved, the path is
  have hsrc : (∀ d, action.destination=some d → isReserved d=false) →
      isReserved action.path=true := by
    intro hd
    obtain ⟨path,hp,hr⟩ := hresv
    rcases List.mem_cons.1 hp with rfl | hp
    · exact hr
    · rw [hd path (by simpa using hp)] at hr
      cases hr
  have hsingle : action.destination=none → isReserved action.path=true := fun hn =>
    hsrc fun d hd => by simp [hn] at hd
  refine safe_bind.2 (safe_checkControl hI ?_ fun f => hbenign _ trivial)
  simp only [FileAction.shapeValid] at hshape
  cases hk : action.kind with
  | create =>
    simp only [hk,Bool.and_eq_true,Option.isNone_iff_eq_none] at hshape
    exact safe_bind.2 (safe_ensureAbsent_reserved hpath (hsingle hshape.1.1) href)
  | copy =>
    refine safe_bind.2 (safe_required (fun d hd => ?_) hbenign)
    cases hr : isReserved d with
    | true => exact safe_bind.2 (safe_ensureAbsent_reserved (hdest d hd) hr href)
    | false =>
      have hD := (hdest d hd).or_reserved.resolve_right (by simp [hr])
      refine safe_bind.2 (safe_ensureAbsent hD hI (fun _ => ?_) hbenign)
      refine safe_bind.2 (safe_source_reserved hpath (hsrc fun d' hd' => ?_) href)
      cases hd.symm.trans hd'
      exact hr
  | move | remove =>
    refine safe_bind.2 ?_
    cases hd : action.destination with
    | none => exact safe_pure.2 (safe_bind.2 (safe_source_reserved hpath (hsingle hd) href))
    | some d =>
      cases hr : isReserved d with
      | true =>
        exact safe_bind.2 (safe_ensureAbsent_reserved (hdest d hd) hr href)
      | false =>
        have hD := (hdest d hd).or_reserved.resolve_right (by simp [hr])
        refine safe_bind.2 (safe_ensureAbsent hD hI (fun _ => safe_pure.2 ?_) hbenign)
        refine safe_bind.2 (safe_source_reserved hpath (hsrc fun d' hd' => ?_) href)
        cases hd.symm.trans hd'
        exact hr
  | replace =>
    simp only [hk,Bool.and_eq_true,Option.isNone_iff_eq_none] at hshape
    exact safe_bind.2 (safe_source_reserved hpath (hsingle hshape.1.1) href)

end Reserved

end Ash.TransactionPreparation
