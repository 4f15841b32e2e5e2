import Ash.UpdateInstallation

/-! # Reasoning about update programs

`Safe S Q p d` runs `p` on the disk `d` under every behaviour of the health callback:
each step satisfies `S` and the end satisfies `Q`.  The reading half of an update is
specified here, over any disk. -/

namespace Ash.UpdateRules
open DurablePrograms ByteCodecs UpdateInstallation

variable {α β : Type} {S T : Disk → UpdateOperation → Disk → Prop} {d d' : Disk}

def Safe (S : Disk → UpdateOperation → Disk → Prop) (Q : Except UpdateError α → Disk → Prop)
    (prog : Update α) (d : Disk) : Prop :=
  ∀ healths, machine.Guarded (fun s op s' => S s.disk op s'.disk) (fun r s => Q r s.disk) prog
    ⟨d,healths⟩

section Rules

variable {Q : Except UpdateError α → Disk → Prop}

variable {r : Except UpdateError α}

@[simp] theorem safe_done :
    Safe S Q (.done r : Update α) d ↔ Q r d :=
  ⟨fun h => h fun _ => .ok (),fun h _ => h⟩

@[simp] theorem safe_pure {a : α} : Safe S Q (pure a : Update α) d ↔ Q (.ok a) d := safe_done

@[simp] theorem safe_fail {e : UpdateError} :
    Safe S Q (.fail e : Update α) d ↔ Q (.error e) d := safe_done

@[simp] theorem safe_ofExcept :
    Safe S Q (.ofExcept r : Update α) d ↔ Q r d := safe_done

theorem safe_health {version : Text} {next : Except UpdateError Unit → Update α} :
    Safe S Q (.call (.checkHealth version) next) d ↔
      S d (.checkHealth version) d ∧ ∀ r, Safe S Q (next r) d := by
  constructor
  · intro h
    refine ⟨(h fun _ => .ok ()).1,fun r healths => ?_⟩
    -- a callback that answers `r` first and then as `healths` does
    exact (h fun n => n.casesOn r healths).2
  · intro h healths
    exact ⟨h.1,h.2 (healths 0) fun n => healths (n+1)⟩

theorem safe_next {op : UpdateOperation} {next : Answer op → Update α}
    (hop : ∀ version, op≠.checkHealth version) :
    Safe S Q (.call op next) d ↔ S d op (act op d).2 ∧ Safe S Q (next (act op d).1) (act op d).2 := by
  have hexec : ∀ healths, machine.exec op ⟨d,healths⟩=((act op d).1,⟨(act op d).2,healths⟩) := by
    intro healths
    cases op <;> first | exact absurd rfl (hop _) | rfl
  constructor
  · intro h
    refine ⟨?_,fun healths => ?_⟩
    · have := (h fun _ => .ok ()).1
      rwa [hexec] at this
    · have := (h healths).2
      rwa [hexec] at this
  · intro h healths
    refine ⟨?_,?_⟩
    · rw [hexec]
      exact h.1
    · rw [hexec]
      exact h.2 healths

variable {prog : Update α} {f : α → Update β}

@[simp] theorem safe_bind {Q : Except UpdateError β → Disk → Prop} :
    Safe S Q (prog >>= f) d ↔ Safe S (fun r d' => match r with
      | .ok a => Safe S Q (f a) d'
      | .error e => Q (.error e) d') prog d := by
  induction prog generalizing d with
  | done r =>
    cases r with
    | ok a =>
      rw [safe_done]
      rfl
    | error e =>
      rw [safe_done]
      exact safe_done
  | call op next ih =>
    by_cases hop : ∃ version, op=.checkHealth version
    · obtain ⟨version,rfl⟩ := hop
      exact safe_health.trans ((and_congr Iff.rfl (forall_congr' fun c => ih c)).trans
        safe_health.symm)
    · have hop' : ∀ version, op≠.checkHealth version := fun version h => hop ⟨version,h⟩
      exact (safe_next hop').trans ((and_congr Iff.rfl (ih _)).trans (safe_next hop').symm)

theorem safe_expect {Q : Except UpdateError β → Disk → Prop}
    (hok : ∀ a, r=.ok a → Safe S Q (f a) d) (herr : ∀ e, r=.error e → Q (.error e) d) :
    Safe S Q (.ofExcept r >>= f) d := by
  refine safe_bind.2 (safe_ofExcept.2 ?_)
  cases r with
  | ok a => exact hok a rfl
  | error e => exact herr e rfl

theorem safe_known {Q : Except UpdateError β → Disk → Prop} {a : α} (h : r=.ok a)
    (hf : Safe S Q (f a) d) : Safe S Q (.ofExcept r >>= f) d := by
  rw [h]
  exact safe_bind.2 (safe_ofExcept.2 hf)

theorem safe_mono {R : Except UpdateError α → Disk → Prop} (h : Safe S Q prog d)
    (hS : ∀ d op d', S d op d' → T d op d') (hQ : ∀ r d', Q r d' → R r d') : Safe T R prog d :=
  fun healths => Machine.guarded_mono (h healths) (fun s op s' => hS s.disk op s'.disk)
    fun r s => hQ r s.disk

end Rules

@[simp] theorem safe_call_health {version : Text}
    {Q : Except UpdateError (Except UpdateError Unit) → Disk → Prop} :
    Safe S Q (call (.checkHealth version)) d ↔
      S d (.checkHealth version) d ∧ ∀ r, Q (.ok r) d := by
  refine safe_health.trans (and_congr Iff.rfl (forall_congr' fun r => safe_done))

theorem safe_call (op : UpdateOperation) {Q : Except UpdateError (Answer op) → Disk → Prop}
    (hop : ∀ version, op≠.checkHealth version) (hS : S d op (act op d).2)
    (hQ : Q (.ok (act op d).1) (act op d).2) : Safe S Q (call op) d :=
  (safe_next hop).2 ⟨hS,safe_done.2 hQ⟩

/-- Operations that leave the disk as it is. -/
def Quiet : UpdateOperation → Prop
  | .readReceipt | .readState | .readJournal | .readActive | .inspectVersion _ | .checkHealth _
  | .syncPrefix => True
  | _ => False

/-- A version whose name parses and whose directory holds a valid binary. -/
def Intact {V : Type} (parseVersion : Text → Option V) (d : Disk) (version : Text) : Prop :=
  (parseVersion version).isSome ∧ ∃ binary, inspect d version=.ok binary

/-! ## Reading -/

section Reading

variable {V : Type} {parseVersion : Text → Option V} {version : Text}

section
variable (hS : ∀ op, Quiet op → S d op d)
include hS

theorem safe_read {op : UpdateOperation} {Q : Except UpdateError (Answer op) → Disk → Prop}
    (hop : ∀ version, op≠.checkHealth version) (hq : Quiet op) (hact : (act op d).2=d)
    (hQ : Q (.ok (act op d).1) d) : Safe S Q (call op) d := by
  refine safe_call op hop ?_ ?_
  · rw [hact]
    exact hS op hq
  · rw [hact]
    exact hQ

/-- The check of a version's directory succeeds exactly at intact versions. -/
theorem safe_versionBinary {Q : Except UpdateError Binary → Disk → Prop}
    (hok : ∀ binary, Intact parseVersion d version → inspect d version=.ok binary →
      Q (.ok binary) d)
    (herr : ∀ e, ¬ Intact parseVersion d version → Q (.error e) d) :
    Safe S Q (versionBinary parseVersion version) d := by
  unfold versionBinary
  split
  · next hp =>
    refine safe_fail.2 (herr _ fun hin => ?_)
    rw [Option.isNone_iff_eq_none] at hp
    simp [Intact,hp] at hin
  · next hp =>
    refine safe_bind.2 (safe_read hS (by simp) trivial rfl ?_)
    refine safe_ofExcept.2 ?_
    change Q (inspect d version) d
    cases h : inspect d version with
    | error e =>
      refine herr e fun hin => ?_
      obtain ⟨binary,hbinary⟩ := hin.2
      cases h.symm.trans hbinary
    | ok binary =>
      refine hok binary ⟨?_,binary,h⟩ h
      simpa [Option.isSome_iff_ne_none] using hp

theorem safe_isActiveVersion {Q : Except UpdateError Bool → Disk → Prop}
    (hok : Intact parseVersion d version → d.active≠.missing →
      Q (.ok (d.active=.link (versionPath version))) d)
    (herr : ∀ e, ¬ (Intact parseVersion d version ∧ d.active≠.missing) → Q (.error e) d) :
    Safe S Q (isActiveVersion parseVersion version) d := by
  refine safe_bind.2 (safe_versionBinary hS (fun binary hin _ => ?_)
    fun e hin => herr e fun h => hin h.1)
  refine safe_bind.2 (safe_read hS (by simp) trivial rfl ?_)
  have hfound := hok hin
  dsimp only [act]
  cases hactv : d.active with
  | missing => exact safe_fail.2 (herr _ fun h => h.2 hactv)
  | link | other =>
    rw [hactv] at hfound
    exact safe_pure.2 (hfound (by simp))

end

end Reading

/-! ## Loading -/

section Loading

variable {V : Type} (parseVersion : Text → Option V) (host : Host)
variable (requested target : Text)

/-- What a load that succeeds finds on disk. -/
structure Loaded (allowPending : Bool) (d : Disk) (context : Context) : Prop where
  located : ∃ installPrefix, canonicalPrefix host requested=.ok installPrefix ∧
    validateReceipt parseVersion host installPrefix target context.receipt=.ok ()
  receipt : d.receipt=.value context.receipt
  state : loadState context.receipt d.state=.ok context.state
  stateValid : validateState parseVersion context.state=.ok ()
  journal : loadJournal d.journal=.ok context.journal
  allowed : context.journal.isSome → allowPending=true
  intact : Intact parseVersion d context.receipt.version
  agrees : context.journal=none → context.state.active=context.receipt.version
  active : context.journal=none → d.active=.link (versionPath context.receipt.version)

variable {parseVersion host requested target}
variable {allowPending : Bool}

theorem readJson_ok {γ : Type} {file : JsonFile γ} {a : γ} :
    readJson file=.ok a ↔ file=.value a := by
  cases file <;> simp [readJson]

section
variable {Q : Except UpdateError Context → Disk → Prop} (hS : ∀ op, Quiet op → S d op d)
include hS

/-- A load that succeeds returns what there is to find. -/
theorem safe_loadContext
    (hok : ∀ context, Loaded parseVersion host requested target allowPending d context →
      Q (.ok context) d) (herr : ∀ e, Q (.error e) d) :
    Safe S Q (loadContext parseVersion host requested target allowPending) d := by
  refine safe_expect (fun installPrefix hp => ?_) fun e _ => herr e
  refine safe_bind.2 (safe_read hS (by simp) trivial rfl ?_)
  refine safe_expect (fun receipt hr => ?_) fun e _ => herr e
  refine safe_expect (fun _ hv => ?_) fun e _ => herr e
  refine safe_bind.2 (safe_read hS (by simp) trivial rfl ?_)
  refine safe_expect (fun state hs => ?_) fun e _ => herr e
  refine safe_expect (fun _ hvs => ?_) fun e _ => herr e
  refine safe_bind.2 (safe_read hS (by simp) trivial rfl ?_)
  refine safe_expect (fun journal hj => ?_) fun e _ => herr e
  split
  · exact safe_fail.2 (herr _)
  next hallowed =>
  split
  · exact safe_fail.2 (herr _)
  next hagrees =>
  refine safe_bind.2 (safe_versionBinary hS (fun _ hin _ => ?_) fun e _ => herr e)
  have hloaded : (journal=none → d.active=.link (versionPath receipt.version)) →
      Loaded parseVersion host requested target allowPending d ⟨receipt,state,journal⟩ := by
    intro hactv
    refine ⟨⟨installPrefix,hp,hv⟩,readJson_ok.1 hr,hs,hvs,hj,fun h => ?_,hin,fun h => ?_,hactv⟩
    · simpa [h] using hallowed
    · simpa [show journal=none from h] using hagrees
  refine safe_bind.2 ?_
  unfold checkSettled
  split
  · next hsome =>
    exact safe_pure.2 (safe_pure.2 (hok _ (hloaded fun h => by simp [h] at hsome)))
  refine safe_bind.2 (safe_isActiveVersion hS (fun _ _ => ?_) fun e _ => herr e)
  by_cases hactv : d.active=.link (versionPath receipt.version)
  · simp only [hactv,decide_true]
    exact safe_pure.2 (safe_pure.2 (hok _ (hloaded fun _ => hactv)))
  · simp only [hactv,decide_false]
    exact safe_fail.2 (herr _)

/-- A load that finds something does not fail. -/
theorem safe_loadContext_of {context : Context}
    (h : Loaded parseVersion host requested target allowPending d context)
    (hQ : Q (.ok context) d) :
    Safe S Q (loadContext parseVersion host requested target allowPending) d := by
  obtain ⟨installPrefix,hp,hv⟩ := h.located
  refine safe_known hp (safe_bind.2 (safe_read hS (by simp) trivial rfl ?_))
  refine safe_known (readJson_ok.2 h.receipt) (safe_known hv ?_)
  refine safe_bind.2 (safe_read hS (by simp) trivial rfl ?_)
  refine safe_known h.state (safe_known h.stateValid ?_)
  refine safe_bind.2 (safe_read hS (by simp) trivial rfl (safe_known h.journal ?_))
  rw [if_neg,if_neg]
  · refine safe_bind.2 (safe_versionBinary hS (fun _ _ _ => safe_bind.2 ?_)
      fun e hin => absurd h.intact hin)
    unfold checkSettled
    split
    · exact safe_pure.2 (safe_pure.2 hQ)
    · next hnone =>
      have hlink := h.active (by simpa using hnone)
      refine safe_bind.2 (safe_isActiveVersion hS (fun _ _ => ?_)
        fun e hactv => absurd ⟨h.intact,by simp [hlink]⟩ hactv)
      simp only [hlink,decide_true]
      exact safe_pure.2 (safe_pure.2 hQ)
  · simpa using h.agrees
  · simpa using h.allowed

end

end Loading

end Ash.UpdateRules
