import Ash.UpdateRecovery

/-! # Chains of interrupted updates

A run of an installation or a rollback is cut by a crash, then any number of recoveries
are cut in turn, and one more recovery runs to its end. -/

namespace Ash.UpdateRuns
open DurablePrograms ByteCodecs UpdateInstallation UpdateRules UpdateRecovery

variable {V : Type}

/-- The run that is interrupted first. -/
inductive FirstRun where
  | install (candidate : Except UpdateError Binary) (release : VerifiedRelease)
  | rollback

/-- What the health callback answers in one run, and after how many steps the run is cut. -/
structure CutRun where
  healths : ℕ → Except UpdateError Unit
  steps : ℕ

section
variable (parseVersion : Text → Option V) (host : Host) (requested target : Text)

def FirstRun.program [LinearOrder V] : FirstRun → Update ActivationOutcome
  | .install candidate release =>
      installRelease parseVersion host requested target candidate release
  | .rollback => rollbackInstallation parseVersion host requested target

/-- Receipt and state that a first run heads for. -/
def FirstRun.goal [DecidableEq V] (context : Context) : FirstRun → InstallReceipt × UpdateState
  | .install _ release =>
      if parseVersion release.version=parseVersion context.receipt.version then
        (context.receipt,confirmedState context.state release)
      else
        ({ context.receipt with version := release.version },
          (releaseJournal target context release).finalState)
  | .rollback =>
      match context.state.previous, context.state.highestManifestSha256 with
      | some previous, some digest =>
          ({ context.receipt with version := previous },
            (rollbackJournal target context previous digest).finalState)
      | _, _ => (context.receipt,context.state)

/-- The disk that a recovery cut by a crash leaves. -/
def cutRecovery (d : Disk) (run : CutRun) : Disk :=
  (machine.stateAt (recoverInstallation parseVersion host requested target) ⟨d,run.healths⟩
    run.steps).disk

def cutRecoveries (d : Disk) (runs : List CutRun) : Disk :=
  runs.foldl (cutRecovery parseVersion host requested target) d

/-- The crash falls right before a receipt of the old version replaces one of the new. -/
def CutRun.Tears (run : CutRun) (d : Disk) : Prop :=
  ∃ op, machine.opAt (recoverInstallation parseVersion host requested target) ⟨d,run.healths⟩
      run.steps=some op ∧
    TearsNext (cutRecovery parseVersion host requested target d run) op

/-- No crash of the chain tears receipt and state apart. -/
def Untorn : Disk → List CutRun → Prop
  | _, [] => True
  | d, run::runs => ¬ run.Tears parseVersion host requested target d ∧
      Untorn (cutRecovery parseVersion host requested target d run) runs

end

/-- No journal, and link, state and receipt name one version. -/
structure Settled (d : Disk) (r : InstallReceipt) (s : UpdateState) : Prop where
  journal : d.journal=.missing
  receipt : d.receipt=.value r
  state : loadState r d.state=.ok s
  agrees : s.active=r.version
  active : d.active=.link (versionPath r.version)

variable {parseVersion : Text → Option V} {host : Host} {requested target : Text}
variable {d : Disk} {u : Ongoing parseVersion host requested target}
variable {receipt receipt' : InstallReceipt} {state state' : UpdateState}

theorem loadJournal_none {file : JsonFile UpdateJournal} (h : loadJournal file=.ok none) :
    file=.missing := by
  cases file with
  | missing => rfl
  | malformed => cases h
  | value j => cases h

variable {allowPending : Bool}

theorem settled_of_loaded
    (h : Loaded parseVersion host requested target allowPending d ⟨receipt,state,none⟩) :
    Settled d receipt state :=
  ⟨loadJournal_none h.journal,h.receipt,h.state,h.agrees rfl,h.active rfl⟩

/-! ## The first run -/

/-- What a first run may leave: an installation at rest on either side, or a sound disk of
an update from one side to the other. -/
def Reached (parseVersion : Text → Option V) (host : Host) (requested target : Text)
    (receipt receipt' : InstallReceipt) (state state' : UpdateState) (d : Disk) : Prop :=
  Loaded parseVersion host requested target true d ⟨receipt,state,none⟩ ∨
  Loaded parseVersion host requested target true d ⟨receipt',state',none⟩ ∨
  ∃ u : Ongoing parseVersion host requested target, Sound u d ∧ u.receiptOf false=receipt ∧
    u.state false=state ∧ u.receiptOf true=receipt' ∧ u.state true=state'

theorem loaded_stage {context : Context} (version : Text) (candidate : Except UpdateError Binary)
    (h : Loaded parseVersion host requested target allowPending d context) :
    Loaded parseVersion host requested target allowPending (stage d version candidate) context := by
  have hin : Intact parseVersion (stage d version candidate) context.receipt.version := by
    obtain ⟨hp,binary,hbinary⟩ := h.intact
    refine ⟨hp,binary,?_⟩
    unfold stage
    split
    · next habsent =>
      have hne : context.receipt.version≠version := by
        intro heq
        rw [heq,inspect,habsent] at hbinary
        cases hbinary
      simpa [inspect,hne] using hbinary
    · exact hbinary
  unfold stage at hin ⊢
  split at hin
  · exact ⟨h.located,h.receipt,h.state,h.stateValid,h.journal,h.allowed,hin,h.agrees,h.active⟩
  · exact h

theorem validateState_confirmed {release : VerifiedRelease}
    (h : validateState parseVersion state=.ok ()) :
    validateState parseVersion (confirmedState state release)=.ok () := by
  unfold validateState at h ⊢
  split at h
  · cases h
  · next hvalid =>
    rw [if_neg]
    simp only [Bool.or_eq_true,not_or] at hvalid ⊢
    refine ⟨⟨⟨⟨hvalid.1.1.1.1,hvalid.1.1.1.2⟩,hvalid.1.1.2⟩,?_⟩,?_⟩
    · simp [confirmedState,release.sequence_ne_zero]
    · simp [confirmedState,release.canonical]

/-- What the checks of a journal establish before it is written. -/
theorem safe_validateJournal_any {S : Disk → UpdateOperation → Disk → Prop}
    {Q : Except UpdateError Unit → Disk → Prop} {context : Context} {journal : UpdateJournal}
    (hS : ∀ op, Quiet op → S d op d)
    (hok : journalMalformed parseVersion context.receipt.target journal=false →
      validateState parseVersion journal.priorState=.ok () →
      validateState parseVersion journal.finalState=.ok () →
      Intact parseVersion d journal.oldVersion → Intact parseVersion d journal.newVersion →
      Q (.ok ()) d)
    (herr : ∀ e, Q (.error e) d) : Safe S Q (validateJournal parseVersion context journal) d := by
  unfold validateJournal
  split
  · exact safe_fail.2 (herr _)
  next hwell =>
  refine safe_expect (fun _ hprior => ?_) fun e _ => herr e
  refine safe_expect (fun _ hfinal => ?_) fun e _ => herr e
  split
  · exact safe_fail.2 (herr _)
  refine safe_bind.2 (safe_versionBinary hS (fun _ hold _ => ?_) fun e _ => herr e)
  refine safe_bind.2 (safe_versionBinary hS (fun _ hnew _ => ?_) fun e _ => herr e)
  exact safe_pure.2 (hok (by simpa using hwell) hprior hfinal hold hnew)

section FirstRuns

/-- Every disk of a first run is one it may leave. -/
def Keeps (parseVersion : Text → Option V) (host : Host) (requested target : Text)
    (context : Context) (goal : InstallReceipt × UpdateState) (_ : Disk) (_ : UpdateOperation)
    (d' : Disk) : Prop :=
  Reached parseVersion host requested target context.receipt goal.1 context.state goal.2 d'

variable {context : Context} {goal : InstallReceipt × UpdateState}

theorem keeps_quiet (h : Loaded parseVersion host requested target true d
    ⟨context.receipt,context.state,none⟩) (op : UpdateOperation) (_ : Quiet op) :
    Keeps parseVersion host requested target context goal d op d := .inl h

theorem state_eq_prior {journal : UpdateJournal} (hact : state.active=journal.oldVersion)
    (hvalid : validateState parseVersion state=.ok ())
    (hprev : journal.priorPrevious=state.previous)
    (hseq : journal.priorHighestSequence=state.highestSequence)
    (hman : journal.priorManifestSha256=state.highestManifestSha256) :
    journal.priorState=state := by
  have hschema : state.schema=1 := by
    by_contra hne
    simp only [validateState,bne_iff_ne.2 hne,Bool.true_or,if_true] at hvalid
    cases hvalid
  obtain ⟨schema,active,previous,sequence,manifest⟩ := state
  simp only [UpdateJournal.priorState,UpdateState.mk.injEq]
  exact ⟨hschema.symm,hact.symm,hprev,hseq,hman⟩

section
variable
  (h : Loaded parseVersion host requested target true d ⟨context.receipt,context.state,none⟩)
include h

/-- Beginning an update leaves the installation at rest until its journal is there. -/
theorem safe_beginUpdate {journal : UpdateJournal}
    (hold : journal.oldVersion=context.receipt.version)
    (hprior : journal.priorState=context.state)
    (hgoal : goal=({ context.receipt with version := journal.newVersion },journal.finalState)) :
    Safe (Keeps parseVersion host requested target context goal) (fun _ _ => True)
      (beginUpdate parseVersion context journal) d := by
  subst hgoal
  refine safe_bind.2 (safe_validateJournal_any (keeps_quiet h)
    (fun hwell hvp hvf hino hinn => ?_) fun _ => trivial)
  obtain ⟨installPrefix,hfound,hvalid⟩ := h.located
  rw [validateReceipt_target hvalid] at hwell
  let u : Ongoing parseVersion host requested target :=
    ⟨context.receipt,journal,h.located,hold.symm,hwell,hvp,hvf⟩
  have hstate : d.state=.value (u.state false) ∨
      d.state=.missing ∧ false=false ∧ u.state false=initialState (u.version false) := by
    have hs := h.state
    cases hd : d.state with
    | missing =>
      rw [hd] at hs
      refine .inr ⟨rfl,rfl,hprior.trans ?_⟩
      change context.state=initialState journal.oldVersion
      rw [hold]
      exact (Except.ok.inj hs).symm
    | malformed =>
      rw [hd] at hs
      cases hs
    | value s =>
      rw [hd] at hs
      cases hs
      exact .inl (congrArg JsonFile.value hprior.symm)
  have hmid : Midway u { d with journal := .value journal } false false false := by
    refine ⟨rfl,?_,hstate,?_,fun v => ?_⟩
    · rw [u.receiptOf_false]
      exact h.receipt
    · change d.active=.link (versionPath journal.oldVersion)
      rw [hold]
      exact h.active rfl
    · cases v
      · exact hino
      · exact hinn
  have hreached : ∀ d', Sound u d' → Reached parseVersion host requested target context.receipt
      { context.receipt with version := journal.newVersion } context.state journal.finalState d' :=
    fun d' hs => .inr (.inr ⟨u,hs,u.receiptOf_false,hprior,rfl,rfl⟩)
  refine safe_bind.2 (safe_call (.writeJournal _) (by simp) ?_ ?_)
  · exact hreached _ (hmid.sound id)
  have happly : Safe (Step u false) (fun _ _ => True) (applyPending parseVersion context u.journal)
      { d with journal := .value journal } :=
    safe_applyPending hmid u.receiptOf_false.symm (fun _ _ => trivial) fun _ _ _ => trivial
  refine safe_bind.2 (safe_mono happly (fun d op d' hstep => ?_) fun r d' _ => ?_)
  · obtain hs | ⟨htear,-⟩ := hstep.1
    · exact hreached d' hs
    · cases htear
  · cases r with
    | ok _ => exact safe_pure.2 trivial
    | error e => trivial

theorem safe_confirmCurrent {release : VerifiedRelease}
    (hgoal : goal=(context.receipt,confirmedState context.state release)) :
    Safe (Keeps parseVersion host requested target context goal) (fun _ _ => True)
      (confirmCurrent parseVersion context release) d := by
  subst hgoal
  refine safe_bind.2 (safe_versionBinary (keeps_quiet h) (fun binary _ _ => ?_) fun _ _ => trivial)
  change Safe _ _ (if binary≠release.binary then .fail .package else _) d
  split
  · exact safe_fail.2 trivial
  have hconfirmed : Loaded parseVersion host requested target true
      { d with state := .value (confirmedState context.state release) }
      ⟨context.receipt,confirmedState context.state release,none⟩ :=
    ⟨h.located,h.receipt,rfl,validateState_confirmed h.stateValid,h.journal,h.allowed,h.intact,
      h.agrees,h.active⟩
  refine safe_bind.2 (safe_call (.writeState _) (by simp) (.inr (.inl hconfirmed)) ?_)
  exact safe_call .syncPrefix (by simp) (.inr (.inl hconfirmed)) trivial

theorem safe_installNext {candidate : Except UpdateError Binary} {release : VerifiedRelease}
    (hgoal : goal=({ context.receipt with version := release.version },
      (releaseJournal target context release).finalState)) :
    Safe (Keeps parseVersion host requested target context goal) (fun _ _ => True)
      (installNext parseVersion target context candidate release) d := by
  have hstaged := loaded_stage release.version candidate h
  refine safe_bind.2 (safe_bind.2 (safe_call (.stageVersion _ _) (by simp) (.inl hstaged) ?_))
  refine safe_expect (fun binary _ => ?_) fun _ _ => trivial
  split
  · exact safe_fail.2 trivial
  refine safe_pure.2 (safe_bind.2 (safe_call_health.2 ⟨.inl hstaged,fun healthy => ?_⟩))
  refine safe_expect (fun _ _ => ?_) fun _ _ => trivial
  exact safe_beginUpdate hstaged rfl
    (state_eq_prior (hstaged.agrees rfl) hstaged.stateValid rfl rfl rfl) hgoal

end

/-- An installation that loads without a pending update has no journal. -/
theorem loaded_rest (h : Loaded parseVersion host requested target false d context) :
    Loaded parseVersion host requested target true d ⟨context.receipt,context.state,none⟩ := by
  have hnone : context.journal=none := by
    cases hj : context.journal with
    | none => rfl
    | some j => cases h.allowed (by simp [hj])
  exact ⟨h.located,h.receipt,h.state,h.stateValid,hnone ▸ h.journal,fun _ => rfl,h.intact,
    fun _ => h.agrees hnone,fun _ => h.active hnone⟩

variable [LinearOrder V]

/-- Every disk that a first run passes through is one it may leave. -/
theorem safe_firstRun (h : Loaded parseVersion host requested target false d context)
    (first : FirstRun) :
    Safe (Keeps parseVersion host requested target context (first.goal parseVersion target context))
      (fun _ _ => True) (first.program parseVersion host requested target) d := by
  have hrest := loaded_rest h
  cases first with
  | install candidate release =>
    refine safe_bind.2 (safe_loadContext_of (keeps_quiet hrest) h ?_)
    change Safe _ _ (if release.target≠target then .fail .target else _) d
    split
    · exact safe_fail.2 trivial
    refine safe_expect (fun _ _ => ?_) fun _ _ => trivial
    split
    case h_2 => exact safe_fail.2 trivial
    case h_1 current next hcur hnext =>
      split
      · next heq =>
        refine safe_bind.2 (safe_mono (safe_confirmCurrent hrest ?_)
          (fun _ _ _ => id) fun r d' _ => ?_)
        · simp [FirstRun.goal,hcur,hnext,heq]
        · cases r with
          | ok _ => exact safe_pure.2 trivial
          | error e => trivial
      next hne =>
      split
      · exact safe_fail.2 trivial
      · refine safe_installNext hrest ?_
        simp [FirstRun.goal,hcur,hnext,hne]
  | rollback =>
    refine safe_bind.2 (safe_loadContext_of (keeps_quiet hrest) h ?_)
    dsimp only
    cases hprev : context.state.previous with
    | none => exact safe_fail.2 trivial
    | some previous =>
      refine safe_bind.2 (safe_versionBinary (keeps_quiet hrest) (fun _ _ _ => ?_)
        fun _ _ => trivial)
      refine safe_bind.2 (safe_call_health.2 ⟨.inl hrest,fun healthy => ?_⟩)
      refine safe_expect (fun _ _ => ?_) fun _ _ => trivial
      cases hdig : context.state.highestManifestSha256 with
      | none => exact safe_fail.2 trivial
      | some digest =>
        refine safe_beginUpdate hrest rfl
          (state_eq_prior (hrest.agrees rfl) hrest.stateValid rfl rfl rfl) ?_
        simp [FirstRun.goal,hprev,hdig,rollbackJournal]

end FirstRuns

/-! ## Chains of recoveries -/

/-- A cut recovery of a sound disk leaves a sound one, unless the cut tears it. -/
theorem cutRecovery_sound (h : Sound u d) (run : CutRun)
    (hrun : ¬ run.Tears parseVersion host requested target d) :
    Sound u (cutRecovery parseVersion host requested target d run) := by
  have hguard := safe_recover_sound h run.healths
  have hreached : Sound u (cutRecovery parseVersion host requested target d run) ∨
      Torn u (cutRecovery parseVersion host requested target d run) :=
    hguard.stateAt (I := fun s => Sound u s.disk ∨ Torn u s.disk)
      (fun _ _ _ hstep => hstep.1.imp id And.right) (.inl h) run.steps
  refine hreached.resolve_right fun htorn => hrun ?_
  cases hop : machine.opAt (recoverInstallation parseVersion host requested target)
      ⟨d,run.healths⟩ run.steps with
  | some op => exact ⟨op,hop,(hguard.opAt hop).2.2 htorn⟩
  | none =>
    -- past its last step the run is over, and its end is sound
    have hend := hguard.run.1
    rw [← Machine.stateAt_of_opAt_none hop] at hend
    exact absurd htorn hend.not_torn

theorem cutRecovery_torn (h : Sound u d) (run : CutRun)
    (hrun : run.Tears parseVersion host requested target d) :
    Torn u (cutRecovery parseVersion host requested target d run) := by
  obtain ⟨op,hop,htears⟩ := hrun
  exact ((safe_recover_sound h run.healths).opAt hop).2.1 htears

theorem cutRecoveries_of_torn (h : Torn u d) (runs : List CutRun) :
    Torn u (cutRecoveries parseVersion host requested target d runs) := by
  induction runs generalizing d with
  | nil => exact h
  | cons run runs ih =>
    have hsame : cutRecovery parseVersion host requested target d run=d :=
      (safe_recover_torn h run.healths).stateAt (I := fun s => s.disk=d)
        (fun _ _ _ hstep => hstep) rfl run.steps
    refine ih ?_
    rw [hsame]
    exact h

/-- A chain from a sound disk ends sound or torn, as its cuts decide. -/
theorem cutRecoveries_of_sound (h : Sound u d) (runs : List CutRun) :
    (Untorn parseVersion host requested target d runs →
      Sound u (cutRecoveries parseVersion host requested target d runs)) ∧
    (¬ Untorn parseVersion host requested target d runs →
      Torn u (cutRecoveries parseVersion host requested target d runs)) := by
  induction runs generalizing d with
  | nil => exact ⟨fun _ => h,fun hnot => absurd trivial hnot⟩
  | cons run runs ih =>
    by_cases htears : run.Tears parseVersion host requested target d
    · refine ⟨fun huntorn => absurd htears huntorn.1,fun _ => ?_⟩
      exact cutRecoveries_of_torn (cutRecovery_torn h run htears) runs
    · have hnext := ih (cutRecovery_sound h run htears)
      exact ⟨fun huntorn => hnext.1 huntorn.2,fun hnot => hnext.2 fun hrest => hnot ⟨htears,hrest⟩⟩

/-- Without a journal no recovery of a chain changes anything. -/
theorem cutRecoveries_of_rest
    (h : Loaded parseVersion host requested target true d ⟨receipt,state,none⟩)
    (runs : List CutRun) :
    Untorn parseVersion host requested target d runs ∧
      cutRecoveries parseVersion host requested target d runs=d := by
  induction runs with
  | nil => exact ⟨trivial,rfl⟩
  | cons run runs ih =>
    have hguard := safe_recover_rest h run.healths
    have hsame : cutRecovery parseVersion host requested target d run=d :=
      hguard.stateAt (I := fun s => s.disk=d) (fun _ _ _ hstep => hstep.1) rfl run.steps
    refine ⟨⟨?_,?_⟩,?_⟩
    · rintro ⟨op,hop,htears⟩
      exact (hguard.opAt hop).2 htears
    · rw [hsame]
      exact ih.1
    · change cutRecoveries _ _ _ _ (cutRecovery parseVersion host requested target d run) runs=d
      rw [hsame]
      exact ih.2

/-- The recovery does not find the installation broken, and if it returns, the installation
is at rest on one side. -/
def Recovers (receipt receipt' : InstallReceipt) (state state' : UpdateState)
    (result : Except UpdateError RecoveryOutcome × Site) : Prop :=
  result.1≠.error .installation ∧ ∀ outcome, result.1=.ok outcome →
    Settled result.2.disk receipt state ∨ Settled result.2.disk receipt' state'

theorem recovers_of_rest (healths : ℕ → Except UpdateError Unit)
    (h : Loaded parseVersion host requested target true d ⟨receipt,state,none⟩) :
    (machine.run (recoverInstallation parseVersion host requested target) ⟨d,healths⟩).1
        ≠ .error .installation ∧
      Settled (machine.run (recoverInstallation parseVersion host requested target)
        ⟨d,healths⟩).2.disk receipt state := by
  have hrun := (safe_recover_rest h healths).run
  rw [hrun.1,hrun.2]
  exact ⟨by simp,settled_of_loaded h⟩

/-- The disk that a first run cut by a crash leaves. -/
def FirstRun.crash [LinearOrder V] (parseVersion : Text → Option V) (host : Host)
    (requested target : Text) (first : FirstRun) (initial : Disk) (cut : CutRun) : Disk :=
  (machine.stateAt (first.program parseVersion host requested target) ⟨initial,cut.healths⟩
    cut.steps).disk

/-- Interrupted updates recover exactly if no recovery is cut between the write of the old
state and the write of the old receipt over the new one. -/
theorem interrupted_update_recovers_iff [LinearOrder V] (parseVersion : Text → Option V)
    (host : Host) (requested target : Text) (initial : Disk) (context : Context)
    (loading : ℕ → Except UpdateError Unit)
    (haccepted : (machine.run (loadContext parseVersion host requested target false)
      ⟨initial,loading⟩).1=.ok context)
    (first : FirstRun) (cut : CutRun) (runs : List CutRun) (healths : ℕ → Except UpdateError Unit) :
    Recovers context.receipt (first.goal parseVersion target context).1 context.state
        (first.goal parseVersion target context).2
        (machine.run (recoverInstallation parseVersion host requested target)
          ⟨cutRecoveries parseVersion host requested target
            (first.crash parseVersion host requested target initial cut) runs,healths⟩) ↔
      Untorn parseVersion host requested target
        (first.crash parseVersion host requested target initial cut) runs := by
  have hloads : Safe (fun _ _ _ => True) (fun r _ => ∀ c, r=.ok c →
      Loaded parseVersion host requested target false initial c)
      (loadContext parseVersion host requested target false) initial := by
    refine safe_loadContext (fun _ _ => trivial) (fun c h c' hc => ?_) fun e c hc => by cases hc
    cases hc
    exact h
  have hloaded := (hloads loading).run context haccepted
  have hreached : Reached parseVersion host requested target context.receipt
      (first.goal parseVersion target context).1 context.state
      (first.goal parseVersion target context).2
      (first.crash parseVersion host requested target initial cut) := by
    have hguard := safe_firstRun hloaded first cut.healths
    unfold Keeps at hguard
    exact hguard.stateAt (I := fun s => Reached parseVersion host requested target context.receipt
      (first.goal parseVersion target context).1 context.state
      (first.goal parseVersion target context).2 s.disk) (fun _ _ _ h => h)
      (.inl (loaded_rest hloaded)) cut.steps
  generalize first.crash parseVersion host requested target initial cut=crashed at hreached ⊢
  obtain hrest | hrest | ⟨u,hsound,hr,hs,hr',hs'⟩ := hreached
  · obtain ⟨huntorn,hsame⟩ := cutRecoveries_of_rest hrest runs
    rw [hsame]
    have hrun := recovers_of_rest healths hrest
    exact iff_of_true ⟨hrun.1,fun _ _ => .inl hrun.2⟩ huntorn
  · obtain ⟨huntorn,hsame⟩ := cutRecoveries_of_rest hrest runs
    rw [hsame]
    have hrun := recovers_of_rest healths hrest
    exact iff_of_true ⟨hrun.1,fun _ _ => .inr hrun.2⟩ huntorn
  · have hchain := cutRecoveries_of_sound hsound runs
    constructor
    · intro hrecovers
      by_contra htorn
      exact hrecovers.1 (safe_recover_torn (hchain.2 htorn) healths).run.2
    · intro huntorn
      obtain ⟨-,hinst,hends⟩ := (safe_recover_sound (hchain.1 huntorn) healths).run
      refine ⟨hinst,fun outcome hok => ?_⟩
      obtain ⟨new,hended⟩ := hends outcome hok
      cases new with
      | false =>
        rw [← hr,← hs]
        exact .inl (settled_of_loaded hended)
      | true =>
        rw [← hr',← hs']
        exact .inr (settled_of_loaded hended)

/-! ## An update from version 1 to version 2 -/

section Sample

def sampleVersion (text : Text) : Option ℕ :=
  if text=['1'] then some 1 else if text=['2'] then some 2 else none

def sampleHost : Host :=
  ⟨.ok,fun _ => true,fun _ => true,fun path name => path ++ '/'::name,
    fun _ => .ok (some "/opt/ash/active/ash".toList)⟩

def samplePrefix : Text := "/opt/ash".toList

def sampleTarget : Text := "x86_64-unknown-linux-gnu".toList

def sampleReceipt : InstallReceipt :=
  ⟨1,repositoryName,['1'],sampleTarget,samplePrefix,"/bin/ash".toList,false,none⟩

def sampleDisk : Disk :=
  ⟨.value sampleReceipt,.missing,.missing,.link (versionPath ['1']),
    fun version => if version=['1'] then .present (.ok ⟨1,[]⟩) else .absent⟩

def sampleRelease : VerifiedRelease where
  target := sampleTarget
  version := ['2']
  sequence := 1
  manifestSha256 := List.replicate 64 '0'
  binary := ⟨2,[]⟩
  signedRollback := false
  sequence_ne_zero := by decide
  canonical := by decide

def sampleContext : Context := ⟨sampleReceipt,initialState ['1'],none⟩

def sampleInstall : FirstRun := .install (.ok ⟨2,[]⟩) sampleRelease

/-- The installation is cut once state and receipt are those of version 2. -/
def sampleCrash : Disk :=
  sampleInstall.crash sampleVersion sampleHost samplePrefix sampleTarget sampleDisk
    ⟨fun _ => .ok (),18⟩

theorem interrupted_update_recovers_iff_cut_once :
    Recovers sampleReceipt { sampleReceipt with version := ['2'] } (initialState ['1'])
      (releaseJournal sampleTarget sampleContext sampleRelease).finalState
      (machine.run (recoverInstallation sampleVersion sampleHost samplePrefix sampleTarget)
        ⟨sampleCrash,fun _ => .ok ()⟩) :=
  (interrupted_update_recovers_iff sampleVersion sampleHost samplePrefix sampleTarget sampleDisk
    sampleContext (fun _ => .ok ()) rfl sampleInstall ⟨fun _ => .ok (),18⟩ [] fun _ => .ok ()).2
    trivial

/-- A first recovery finds version 2 unhealthy and is cut after it has put the old state
back; the next one returns an error about the installation itself. -/
theorem recovery_cut_before_old_receipt_refused :
    ¬ Recovers sampleReceipt { sampleReceipt with version := ['2'] } (initialState ['1'])
      (releaseJournal sampleTarget sampleContext sampleRelease).finalState
      (machine.run (recoverInstallation sampleVersion sampleHost samplePrefix sampleTarget)
        ⟨cutRecoveries sampleVersion sampleHost samplePrefix sampleTarget sampleCrash
          [⟨fun n => if n=0 then .error .health else .ok (),15⟩],fun _ => .ok ()⟩) :=
  fun h => h.1 rfl

end Sample

end Ash.UpdateRuns
