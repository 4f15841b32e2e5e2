import Ash.UpdateRules

/-! # Recovering from an interrupted update

While its journal is there, an update has left one of two states, one of two receipts and
a link to one of two versions.  Of the combinations a recovery refuses one: the state of
the old version with the receipt of the new one. -/

namespace Ash.UpdateRecovery
open ByteCodecs UpdateInstallation UpdateRules

variable {V : Type}

/-- An update whose journal its own checks accept, of an installation at rest. -/
structure Ongoing (parseVersion : Text → Option V) (host : Host) (requested target : Text) where
  receipt : InstallReceipt
  journal : UpdateJournal
  located : ∃ installPrefix, canonicalPrefix host requested=.ok installPrefix ∧
    validateReceipt parseVersion host installPrefix target receipt=.ok ()
  starts : receipt.version=journal.oldVersion
  wellFormed : journalMalformed parseVersion target journal=false
  prior : validateState parseVersion journal.priorState=.ok ()
  final : validateState parseVersion journal.finalState=.ok ()

variable {parseVersion : Text → Option V} {host : Host} {requested target : Text}

section Endpoints

variable (u : Ongoing parseVersion host requested target)

/-- The version before and after the update. -/
def Ongoing.version : Bool → Text
  | false => u.journal.oldVersion
  | true => u.journal.newVersion

def Ongoing.receiptOf (new : Bool) : InstallReceipt := { u.receipt with version := u.version new }

def Ongoing.state : Bool → UpdateState
  | false => u.journal.priorState
  | true => u.journal.finalState

@[simp] theorem Ongoing.state_active (new : Bool) : (u.state new).active=u.version new := by
  cases new <;> rfl

theorem Ongoing.receiptOf_false : u.receiptOf false=u.receipt := by
  have h : u.receiptOf false = { u.receipt with version := u.receipt.version } := by
    rw [u.starts]
    rfl
  exact h

theorem Ongoing.version_ne : u.version false≠u.version true := by
  have h := u.wellFormed
  simp only [journalMalformed,Bool.or_eq_false_iff,beq_eq_false_iff_ne] at h
  exact h.1.1.1.1.1.1.1.2

theorem Ongoing.version_inj {new new' : Bool} (h : u.version new=u.version new') :
    new=new' := by
  cases new <;> cases new'
  · rfl
  · exact absurd h u.version_ne
  · exact absurd h.symm u.version_ne
  · rfl

theorem Ongoing.version_parses (new : Bool) : (parseVersion (u.version new)).isSome := by
  have h := u.wellFormed
  simp only [journalMalformed,Bool.or_eq_false_iff,Option.isNone_eq_false_iff] at h
  cases new
  · exact h.1.1.1.1.1.1.1.1.1.2
  · exact h.1.1.1.1.1.1.1.1.2

theorem Ongoing.state_valid (fin : Bool) : validateState parseVersion (u.state fin)=.ok () := by
  cases fin
  · exact u.prior
  · exact u.final

end Endpoints

variable {installPrefix : Text} {receipt : InstallReceipt} {fin' : Bool}

/-- Only the name of the version decides whether another one passes for it. -/
theorem validateReceipt_version {version : Text}
    (h : validateReceipt parseVersion host installPrefix target receipt=.ok ())
    (hp : (parseVersion version).isSome) :
    validateReceipt parseVersion host installPrefix target { receipt with version }=.ok () := by
  have hnew : (parseVersion version).isNone=false := by simpa using hp
  cases hold : (parseVersion receipt.version).isNone with
  | true =>
    simp only [validateReceipt,hold,Bool.or_true,if_true] at h
    cases h
  | false =>
    simp only [validateReceipt,hold,hnew] at h ⊢
    exact h

theorem validateReceipt_target
    (h : validateReceipt parseVersion host installPrefix target receipt=.ok ()) :
    receipt.target=target := by
  by_contra hne
  simp only [validateReceipt,bne_iff_ne.2 hne,Bool.or_true,Bool.true_or,if_true] at h
  cases h

/-! ## Disks of an update -/

/-- The journal is there; whether state, receipt and link are those of the new version. -/
structure Midway (u : Ongoing parseVersion host requested target) (d : Disk)
    (fin new link : Bool) : Prop where
  journal : d.journal=.value u.journal
  receipt : d.receipt=.value (u.receiptOf new)
  state : d.state=.value (u.state fin) ∨
    d.state=.missing ∧ new=false ∧ u.state fin=initialState (u.version false)
  active : d.active=.link (versionPath (u.version link))
  intact : ∀ v, Intact parseVersion d (u.version v)

/-- The update is over, on one side or the other. -/
def Ended (u : Ongoing parseVersion host requested target) (new : Bool) (d : Disk) : Prop :=
  Loaded parseVersion host requested target true d ⟨u.receiptOf new,u.state new,none⟩

/-- The combination that a recovery refuses. -/
def Torn (u : Ongoing parseVersion host requested target) (d : Disk) : Prop :=
  ∃ link, Midway u d false true link

/-- Disks from which a recovery goes on. -/
def Sound (u : Ongoing parseVersion host requested target) (d : Disk) : Prop :=
  (∃ new, Ended u new d) ∨ ∃ fin new link, Midway u d fin new link ∧ (new=true → fin=true)

variable {u : Ongoing parseVersion host requested target} {d : Disk} {fin new link : Bool}

theorem Ongoing.receiptOf_located (u : Ongoing parseVersion host requested target) (new : Bool) :
    ∃ installPrefix, canonicalPrefix host requested=.ok installPrefix ∧
      validateReceipt parseVersion host installPrefix target (u.receiptOf new)=.ok () := by
  obtain ⟨installPrefix,hfound,hvalid⟩ := u.located
  exact ⟨installPrefix,hfound,validateReceipt_version hvalid (u.version_parses new)⟩

theorem Midway.loadState (h : Midway u d fin new link) :
    loadState (u.receiptOf new) d.state=.ok (u.state fin) := by
  obtain hs | ⟨hs,rfl,hinit⟩ := h.state
  · rw [hs]
    rfl
  · rw [hs,hinit]
    rfl

theorem Midway.loaded (h : Midway u d fin new link) :
    Loaded parseVersion host requested target true d
      ⟨u.receiptOf new,u.state fin,some u.journal⟩ where
  located := u.receiptOf_located new
  receipt := h.receipt
  state := h.loadState
  stateValid := u.state_valid fin
  journal := by
    rw [h.journal]
    rfl
  allowed := fun _ => rfl
  intact := h.intact new
  agrees := fun hnone => by cases hnone
  active := fun hnone => by cases hnone

theorem state_inj {fin : Bool} (h : u.state fin=u.state fin') : fin=fin' :=
  u.version_inj (by rw [← u.state_active,← u.state_active,h])

/-- What is on disk tells the sides of an update apart. -/
theorem Midway.unique {new' link' : Bool} (h : Midway u d fin new link)
    (h' : Midway u d fin' new' link') : fin=fin' ∧ new=new' := by
  have hnew : new=new' := by
    have hr := h.receipt.symm.trans h'.receipt
    rw [JsonFile.value.injEq] at hr
    exact u.version_inj (congrArg InstallReceipt.version hr)
  subst hnew
  exact ⟨state_inj (Except.ok.inj (h.loadState.symm.trans h'.loadState)),rfl⟩

theorem Midway.torn_iff (h : Midway u d fin new link) :
    Torn u d ↔ fin=false ∧ new=true := by
  constructor
  · rintro ⟨link',h'⟩
    exact h.unique h'
  · rintro ⟨rfl,rfl⟩
    exact ⟨link,h⟩

theorem Ended.journal (h : Ended u new d) : d.journal=.missing := by
  have hj := Loaded.journal h
  cases hd : d.journal with
  | missing => rfl
  | malformed | value =>
    rw [hd] at hj
    cases hj

theorem Sound.not_torn (h : Sound u d) : ¬ Torn u d := by
  obtain ⟨new,hended⟩ | ⟨fin,new,link,hmid,hsound⟩ := h
  · rintro ⟨link,hmid⟩
    cases hended.journal.symm.trans hmid.journal
  · intro htorn
    obtain ⟨hfin,hnew⟩ := hmid.torn_iff.1 htorn
    cases hfin.symm.trans (hsound hnew)

/-! ## Writes -/

theorem Midway.replaceActive (h : Midway u d fin new link) (side : Bool) :
    Midway u { d with active := .link (versionPath (u.version side)) } fin new side :=
  ⟨h.journal,h.receipt,h.state,rfl,h.intact⟩

theorem Midway.writeState (h : Midway u d fin new link) (side : Bool) :
    Midway u { d with state := .value (u.state side) } side new link :=
  ⟨h.journal,h.receipt,.inl rfl,h.active,h.intact⟩

theorem Midway.writeReceipt (h : Midway u d fin new link) (hs : d.state=.value (u.state fin))
    (side : Bool) : Midway u { d with receipt := .value (u.receiptOf side) } fin side link :=
  ⟨h.journal,rfl,.inl hs,h.active,h.intact⟩

theorem Midway.removeJournal (h : Midway u d new new new) :
    Ended u new { d with journal := .missing } where
  located := u.receiptOf_located new
  receipt := h.receipt
  state := h.loadState
  stateValid := u.state_valid new
  journal := rfl
  allowed := fun hsome => by cases hsome
  intact := h.intact new
  agrees := fun _ => u.state_active new
  active := fun _ => h.active

/-- A receipt of the old version is about to replace one of the new version. -/
def TearsNext (d : Disk) (op : UpdateOperation) : Prop :=
  ∃ journal found receipt, d.journal=.value journal ∧ d.receipt=.value found ∧
    found.version=journal.newVersion ∧ op=.writeReceipt receipt ∧
    receipt.version=journal.oldVersion

/-- A step of an update: a torn disk is left only where it may be, and exactly before the
write that mends it. -/
def Step (u : Ongoing parseVersion host requested target) (mayTear : Bool) (d : Disk)
    (op : UpdateOperation) (d' : Disk) : Prop :=
  (Sound u d' ∨ mayTear=true ∧ Torn u d') ∧ (TearsNext d op ↔ Torn u d)

theorem not_tearsNext {op : UpdateOperation} (hop : ∀ receipt, op≠.writeReceipt receipt) :
    ¬ TearsNext d op := by
  rintro ⟨journal,found,receipt,-,-,-,h,-⟩
  exact hop receipt h

/-- Steps from sound disks other than writes of the receipt. -/
theorem Sound.step {mayTear : Bool} {op : UpdateOperation} {d' : Disk} (h : Sound u d)
    (hop : ∀ receipt, op≠.writeReceipt receipt)
    (h' : Sound u d' ∨ mayTear=true ∧ Torn u d') : Step u mayTear d op d' :=
  ⟨h',fun ht => absurd ht (not_tearsNext hop),fun ht => absurd ht h.not_torn⟩

theorem Sound.quiet {mayTear : Bool} (h : Sound u d) (op : UpdateOperation) (hq : Quiet op) :
    Step u mayTear d op d :=
  h.step (fun receipt hop => by rw [hop] at hq; exact hq) (.inl h)

theorem Midway.sound (h : Midway u d fin new link) (hsound : new=true → fin=true) :
    Sound u d := .inr ⟨fin,new,link,h,hsound⟩

/-! ## Programs -/

section Programs

variable {mayTear : Bool}

variable {Q : Except UpdateError Unit → Disk → Prop}

/-- Settling on a side.  On the way back the new receipt is the last to go. -/
theorem safe_settle {side : Bool} (h : Midway u d fin new side) (hsound : new=true → fin=true)
    (htear : side=false → new=true → mayTear=true)
    (hQ : ∀ d', Ended u side d' → Q (.ok ()) d') :
    Safe (Step u mayTear) Q (settle (u.receiptOf new) (u.state side)) d := by
  have hstate := h.writeState side
  have hrcpt := hstate.writeReceipt rfl side
  have hended := hrcpt.removeJournal
  have hwritten : ({ u.receiptOf new with version := (u.state side).active } : InstallReceipt) =
      u.receiptOf side := by
    rw [u.state_active]
    rfl
  unfold settle
  rw [hwritten]
  refine safe_bind.2 (safe_call (.writeState _) (by simp) ?_ ?_)
  · refine (h.sound hsound).step (by simp) ?_
    cases side with
    | true => exact .inl (hstate.sound fun _ => rfl)
    | false =>
      cases new with
      | true => exact .inr ⟨htear rfl rfl,_,hstate⟩
      | false => exact .inl (hstate.sound fun h => by cases h)
  refine safe_bind.2 (safe_call (.writeReceipt _) (by simp) ⟨.inl (hrcpt.sound id),?_⟩ ?_)
  · refine Iff.trans ?_ hstate.torn_iff.symm
    constructor
    · rintro ⟨journal,found,receipt,hj,hr,hnew,hop,hold⟩
      cases hj.symm.trans hstate.journal
      cases hr.symm.trans hstate.receipt
      cases hop
      exact ⟨u.version_inj hold,u.version_inj hnew⟩
    · rintro ⟨rfl,rfl⟩
      exact ⟨_,_,_,hstate.journal,hstate.receipt,rfl,rfl,rfl⟩
  refine safe_bind.2 (safe_call .removeJournal (by simp) ?_ ?_)
  · exact (hrcpt.sound id).step (by simp) (.inl (.inl ⟨side,hended⟩))
  refine safe_call .syncPrefix (by simp) ?_ (hQ _ hended)
  exact Sound.quiet (.inl ⟨side,hended⟩) _ trivial

theorem safe_activateVersion (side : Bool) (h : Midway u d fin new link)
    (hsound : new=true → fin=true) (hQ : ∀ d', Midway u d' fin new side → Q (.ok ()) d') :
    Safe (Step u mayTear) Q (activateVersion parseVersion (u.version side)) d := by
  have hquiet : ∀ op, Quiet op → Step u mayTear d op d := (h.sound hsound).quiet
  refine safe_bind.2 (safe_versionBinary hquiet (fun _ _ _ => ?_)
    fun e hin => absurd (h.intact side) hin)
  refine safe_bind.2 (safe_read hquiet (by simp) trivial rfl ?_)
  change Safe _ Q (match d.active with
    | .missing => .fail (.io .notFound)
    | .other => .fail .installation
    | .link _ => do
        call (.replaceActive (versionPath (u.version side)))
        call .syncPrefix) d
  rw [h.active]
  have hmoved := h.replaceActive side
  refine safe_bind.2 (safe_call (.replaceActive _) (by simp) ?_ ?_)
  · exact (h.sound hsound).step (by simp) (.inl (hmoved.sound hsound))
  · exact safe_call .syncPrefix (by simp) ((hmoved.sound hsound).quiet _ trivial) (hQ _ hmoved)

variable {context : Context}

theorem safe_restorePrior (h : Midway u d fin new link) (hsound : new=true → fin=true)
    (hcontext : context.receipt=u.receiptOf new) (htear : new=true → mayTear=true)
    (hok : ∀ d', Ended u false d' → Q (.ok ()) d')
    (herr : ∀ d', Sound u d' → Q (.error .activation) d') :
    Safe (Step u mayTear) Q (restorePrior parseVersion context u.journal) d := by
  refine safe_bind.2 (safe_activateVersion false h hsound fun d' h' => ?_)
  refine safe_bind.2 (safe_call_health.2 ⟨(h'.sound hsound).quiet _ trivial,?_⟩)
  intro r
  cases r with
  | error e => exact safe_fail.2 (herr _ (h'.sound hsound))
  | ok _ =>
    rw [hcontext]
    exact safe_settle h' hsound (fun _ => htear) hok

/-- Installing from a fresh journal: the new receipt comes last, so nothing tears. -/
theorem safe_applyPending (h : Midway u d false false link)
    (hcontext : context.receipt=u.receiptOf false) (hok : ∀ d', Ended u true d' → Q (.ok ()) d')
    (herr : ∀ e d', Sound u d' → Q (.error e) d') :
    Safe (Step u false) Q (applyPending parseVersion context u.journal) d := by
  have hsound : false=true → false=true := id
  refine safe_bind.2 (safe_activateVersion true h hsound fun d' h' => ?_)
  refine safe_bind.2 (safe_call_health.2 ⟨(h'.sound hsound).quiet _ trivial,?_⟩)
  intro r
  cases r with
  | error e =>
    refine safe_bind.2 (safe_restorePrior h' hsound hcontext (fun h => by cases h) ?_ ?_)
    · exact fun d'' hended => safe_fail.2 (herr _ _ (.inl ⟨false,hended⟩))
    · exact fun d'' hs => herr _ _ hs
  | ok _ =>
    unfold finalize
    rw [hcontext]
    exact safe_settle h' hsound (fun hside => by cases hside) hok

/-- The checks of a journal refuse just the torn combination. -/
theorem journalMismatch_iff (u : Ongoing parseVersion host requested target) (fin new : Bool)
    (pending : Option UpdateJournal) :
    journalMismatch ⟨u.receiptOf new,u.state fin,pending⟩ u.journal=true ↔
      fin=false ∧ new=true := by
  have hstate : ∀ side, u.state fin=u.state side ↔ fin=side := fun side =>
    ⟨state_inj,congrArg u.state⟩
  have hversion : ∀ side, u.version new=u.version side ↔ new=side := fun side =>
    ⟨u.version_inj,congrArg u.version⟩
  change ((u.state fin != u.state false && u.state fin != u.state true)
    || (u.version new != u.version false && u.version new != u.version true)
    || (u.state fin == u.state false && u.version new != u.version false))=true ↔ _
  simp only [Bool.or_eq_true,Bool.and_eq_true,bne_iff_ne,beq_iff_eq,ne_eq,hstate,hversion]
  cases fin <;> cases new <;> simp

theorem safe_validateJournal {S : Disk → UpdateOperation → Disk → Prop}
    {pending : Option UpdateJournal} (hS : ∀ op, Quiet op → S d op d)
    (hin : ∀ v, Intact parseVersion d (u.version v))
    (hok : (new=true → fin=true) → Q (.ok ()) d)
    (herr : fin=false ∧ new=true → Q (.error .installation) d) :
    Safe S Q (validateJournal parseVersion ⟨u.receiptOf new,u.state fin,pending⟩ u.journal) d := by
  obtain ⟨installPrefix,-,hvalid⟩ := u.receiptOf_located new
  have hwell : journalMalformed parseVersion (u.receiptOf new).target u.journal=false := by
    rw [validateReceipt_target hvalid]
    exact u.wellFormed
  unfold validateJournal
  rw [if_neg (by simp [hwell]),u.prior,u.final]
  refine safe_expect (fun _ _ => ?_) fun e h => by cases h
  refine safe_expect (fun _ _ => ?_) fun e h => by cases h
  split
  · next hmismatch =>
    exact safe_fail.2 (herr ((journalMismatch_iff u fin new pending).1 hmismatch))
  next hmatch =>
  have hsound : new=true → fin=true := by
    intro hnew
    by_contra hfin
    exact hmatch ((journalMismatch_iff u fin new pending).2 ⟨by simpa using hfin,hnew⟩)
  refine safe_bind.2 (safe_versionBinary hS (fun _ _ _ => ?_) fun e hno => absurd (hin false) hno)
  refine safe_bind.2 (safe_versionBinary hS (fun _ _ _ => ?_) fun e hno => absurd (hin true) hno)
  exact safe_pure.2 (hok hsound)

/-- A recovery of a sound disk leaves sound disks, or torn ones for the moment before a
receipt is put back. -/
theorem safe_recover_sound (h : Sound u d) :
    Safe (Step u true) (fun r d' => Sound u d' ∧ r≠.error .installation ∧
      ∀ outcome, r=.ok outcome → ∃ new, Ended u new d')
      (recoverInstallation parseVersion host requested target) d := by
  have hquiet : ∀ op, Quiet op → Step u true d op d := h.quiet
  obtain ⟨new,hended⟩ | ⟨fin,new,link,hmid,hsound⟩ := h
  · refine safe_bind.2 (safe_loadContext_of hquiet hended ?_)
    exact safe_pure.2 ⟨.inl ⟨new,hended⟩,by simp,fun _ _ => ⟨new,hended⟩⟩
  refine safe_bind.2 (safe_loadContext_of hquiet hmid.loaded ?_)
  refine safe_bind.2 (safe_validateJournal hquiet hmid.intact (fun _ => ?_) fun htorn => ?_)
  swap
  · cases htorn.1.symm.trans (hsound htorn.2)
  refine safe_bind.2 (safe_isActiveVersion hquiet (fun _ _ => ?_) fun e hact => ?_)
  swap
  · refine absurd ⟨hmid.intact true,?_⟩ hact
    rw [hmid.active]
    simp
  have hact : decide (d.active=.link (versionPath u.journal.newVersion))=link := by
    rw [hmid.active]
    cases link with
    | false => simpa [versionPath,Ongoing.version] using u.version_ne
    | true => simp [Ongoing.version]
  rw [hact]
  have hback : Safe (Step u true) (fun r d' => Sound u d' ∧ r≠.error .installation ∧
      ∀ outcome, r=.ok outcome → ∃ new, Ended u new d') (do
        restorePrior parseVersion ⟨u.receiptOf new,u.state fin,some u.journal⟩ u.journal
        pure (RecoveryOutcome.rolledBack u.journal.oldVersion)) d := by
    refine safe_bind.2 (safe_restorePrior hmid hsound rfl (fun _ => rfl) (fun d' h => ?_) ?_)
    · exact safe_pure.2 ⟨.inl ⟨false,h⟩,by simp,fun _ _ => ⟨false,h⟩⟩
    · exact fun d' h => ⟨h,by simp,by simp⟩
  cases link with
  | false => exact safe_bind.2 (safe_pure.2 hback)
  | true =>
    refine safe_bind.2 (safe_call_health.2 ⟨hquiet _ trivial,fun healthy => ?_⟩)
    cases healthy with
    | error e => exact hback
    | ok _ =>
      refine safe_bind.2 (safe_settle hmid hsound (fun hside => by cases hside) fun d' h => ?_)
      exact safe_pure.2 ⟨.inl ⟨true,h⟩,by simp,fun _ _ => ⟨true,h⟩⟩

/-- Once torn, an installation stays as it is and every recovery refuses it. -/
theorem safe_recover_torn (h : Torn u d) :
    Safe (fun _ _ d' => d'=d) (fun r d' => d'=d ∧ r=.error .installation)
      (recoverInstallation parseVersion host requested target) d := by
  obtain ⟨link,hmid⟩ := h
  have hquiet : ∀ op, Quiet op → d=d := fun _ _ => rfl
  refine safe_bind.2 (safe_loadContext_of hquiet hmid.loaded ?_)
  refine safe_bind.2 (safe_validateJournal hquiet hmid.intact (fun hsound => ?_) fun _ => ?_)
  · cases hsound rfl
  · exact ⟨rfl,rfl⟩

/-- Without a journal a recovery changes nothing. -/
theorem safe_recover_rest {receipt : InstallReceipt} {state : UpdateState}
    (h : Loaded parseVersion host requested target true d ⟨receipt,state,none⟩) :
    Safe (fun d₁ op d' => d'=d ∧ ¬ TearsNext d₁ op) (fun r d' => d'=d ∧ r=.ok .clean)
      (recoverInstallation parseVersion host requested target) d := by
  refine safe_bind.2 (safe_loadContext_of (fun op hq => ⟨rfl,?_⟩) h ?_)
  · exact not_tearsNext fun receipt hop => by
      rw [hop] at hq
      exact hq
  · exact safe_pure.2 ⟨rfl,rfl⟩

end Programs

end Ash.UpdateRecovery
