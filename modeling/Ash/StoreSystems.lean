import Ash.StoreContents

/-! # A store and all that refers to it

Captures, finished captures, leases, and reservations on their way to be dropped.  The
operations are interleaved where they take the lock of the store. -/

namespace Ash.ResultStores
open KeyedTables Outcomes

/-- A capture, and the bytes that its successful appends were given. -/
structure LiveCapture where
  capture : StoreCapture
  appended : List UInt8

structure LiveContent where
  captured : CapturedContent
  appended : List UInt8

/-- The captures and reservations are those made by this store. -/
structure System (Id : Type) where
  store : ResultStore Id
  captures : List LiveCapture
  captured : List LiveContent
  dropping : List StoreReservation
  leases : List (ℕ × Content)

inductive Event where
  | retained (contents : List (List UInt8)) (refs : List ℕ)
  | released (ref : ℕ)

variable {Id : Type}

def System.new (address : ℕ) (limits : StoreLimits) : System Id :=
  ⟨⟨address,limits,.new⟩,[],[],[],[]⟩

def System.setState (sys : System Id) (state : State Id) : System Id :=
  { sys with store := { sys.store with state } }

@[simp] theorem System.setState_state (sys : System Id) (state : State Id) :
    (sys.setState state).store.state=state := rfl

/-! ## Reservations -/

def LiveCapture.reservation (live : LiveCapture) : StoreReservation := live.capture.reservation

def LiveContent.reservation (live : LiveContent) : StoreReservation := live.captured.reservation

def holdings (captures : List LiveCapture) (captured : List LiveContent)
    (dropping : List StoreReservation) : List StoreReservation :=
  captures.map LiveCapture.reservation++(captured.map LiveContent.reservation++dropping)

/-- The reservations that have been neither committed nor given back. -/
def System.held (sys : System Id) : List StoreReservation :=
  holdings sys.captures sys.captured sys.dropping

section Holdings

variable {captures captures' : List LiveCapture} {captured captured' : List LiveContent}
  {dropping dropping' : List StoreReservation}

theorem holdings_perm (hcaps : captures.Perm captures') (hcaptured : captured.Perm captured')
    (hdrop : dropping.Perm dropping') :
    (holdings captures captured dropping).Perm (holdings captures' captured' dropping') :=
  (hcaps.map _).append ((hcaptured.map _).append hdrop)

theorem holdings_captured (own : List LiveContent) :
    (holdings captures (own++captured) dropping).Perm
      (own.map LiveContent.reservation++holdings captures captured dropping) := by
  rw [holdings,holdings,List.map_append,List.append_assoc]
  exact List.perm_append_comm_assoc _ _ _

theorem holdings_dropping (given : List StoreReservation) :
    (holdings captures captured (given++dropping)).Perm
      (given++holdings captures captured dropping) := by
  rw [holdings,holdings]
  exact ((List.perm_append_comm_assoc _ _ _).append_left _).trans
    (List.perm_append_comm_assoc _ _ _)

end Holdings

/-! ## Steps -/

def recorded (contents : List (List UInt8)) : Except StoreError (List ℕ) → List Event
  | .ok refs => [.retained contents refs]
  | .error _ => []

/-- The reservations that a retention has left to be dropped. -/
def uncommitted (own : List LiveContent) : Except StoreError (List ℕ) → List StoreReservation
  | .ok _ => []
  | .error _ => own.map LiveContent.reservation

def System.append (sys : System Id) (live : LiveCapture) (rest : List LiveCapture)
    (chunk : List UInt8) (fault : AppendFault) : System Id :=
  let outcome := ResultStores.append sys.store.limits sys.store.state live.capture chunk fault
  { sys.setState outcome.1 with
    captures := ⟨outcome.2.1,grown live.appended chunk outcome.2.2⟩::rest }

def System.leasesOf (sys : System Id) (ref : ℕ) : ℕ := sys.leases.countP fun lease => lease.1 == ref

variable [DecidableEq Id]

def System.retainCaptures (hash : List UInt8 → Id) (sys : System Id) (faults : ReadFaults)
    (batch own rest : List LiveContent) : System Id :=
  let outcome := ResultStores.retainCaptures hash sys.store faults (batch.map LiveContent.captured)
  { sys.setState outcome.1 with
    captured := rest
    dropping := uncommitted own outcome.2++sys.dropping }

/-- One operation.  A failed operation drops the captures that it was given, and each drop
takes the lock anew.  A group of captures may hold captures of another store. -/
inductive Step (hash : List UInt8 → Id) : System Id → List Event → System Id → Prop where
  | capture (sys : System Id) (memoryLimit : ℕ) :
      Step hash sys [] { sys with
        captures := ⟨ResultStores.capture sys.store memoryLimit,[]⟩::sys.captures }
  | append {sys live rest}
      (h : sys.captures.Perm (live::rest)) (chunk : List UInt8) (fault : AppendFault) :
      Step hash sys [] (sys.append live rest chunk fault)
  | finish {sys live rest fault captured} (h : sys.captures.Perm (live::rest))
      (hfin : ResultStores.finish live.capture fault=.ok captured) :
      Step hash sys [] { sys with
        captures := rest
        captured := ⟨captured,live.appended⟩::sys.captured }
  -- also a capture whose flush has failed
  | dropCapture {sys live rest} (h : sys.captures.Perm (live::rest)) :
      Step hash sys [] { sys with
        captures := rest
        dropping := live.reservation::sys.dropping }
  | dropCaptured {sys live rest} (h : sys.captured.Perm (live::rest)) :
      Step hash sys [] { sys with
        captured := rest
        dropping := live.reservation::sys.dropping }
  | dropReservation {sys reservation rest} (h : sys.dropping.Perm (reservation::rest)) :
      Step hash sys [] { sys.setState (ResultStores.dropReservation sys.store reservation) with
        dropping := rest }
  | retain (sys : System Id) (spoolFault : Bool) (faults : ReadFaults) (bytes : List UInt8) :
      Step hash sys
        (recorded [bytes] ((ResultStores.retain hash sys.store spoolFault faults bytes).2.map
          fun ref => [ref]))
        (sys.setState (ResultStores.retain hash sys.store spoolFault faults bytes).1)
  | retainMany (sys : System Id) (spoolFault : Bool) (faults : ReadFaults)
      (contents : List (List UInt8)) :
      Step hash sys
        (recorded contents (ResultStores.retainMany hash sys.store spoolFault faults contents).2)
        (sys.setState (ResultStores.retainMany hash sys.store spoolFault faults contents).1)
  | retainCaptures {sys batch rest} (h : sys.captured.Perm
        (batch.filter (fun live => live.reservation.store=sys.store.address)++rest))
      (faults : ReadFaults) :
      Step hash sys
        (recorded (batch.map LiveContent.appended) (ResultStores.retainCaptures hash sys.store
          faults (batch.map LiveContent.captured)).2)
        (sys.retainCaptures hash faults batch
          (batch.filter fun live => live.reservation.store=sys.store.address) rest)
  | get {sys ref lease} (h : ResultStores.get sys.store.state ref=.ok lease) :
      Step hash sys [] { sys with leases := (ref,lease)::sys.leases }
  | cloneLease {sys lease} (h : lease∈sys.leases) :
      Step hash sys [] { sys with leases := lease::sys.leases }
  | dropLease {sys lease rest} (h : sys.leases.Perm (lease::rest)) :
      Step hash sys [] { sys with leases := rest }
  | release {sys ref}
      (h : (ResultStores.release sys.store.state (sys.leasesOf ref) ref).2=.ok ()) :
      Step hash sys [.released ref]
        (sys.setState (ResultStores.release sys.store.state (sys.leasesOf ref) ref).1)
  | releaseFailed {sys ref error}
      (h : (ResultStores.release sys.store.state (sys.leasesOf ref) ref).2=.error error) :
      Step hash sys []
        (sys.setState (ResultStores.release sys.store.state (sys.leasesOf ref) ref).1)

/-- A run from the empty store, with its events, the latest one first. -/
inductive Run (hash : List UInt8 → Id) (address : ℕ) (limits : StoreLimits) :
    System Id → List Event → Prop where
  | new : Run hash address limits (System.new address limits) []
  | step {sys sys' history events}
      (run : Run hash address limits sys history) (h : Step hash sys events sys') :
      Run hash address limits sys' (events++history)

/-! ## The invariant -/

/-- A finished capture holds the bytes it was given, or it will be refused. -/
def LiveContent.Sound (live : LiveContent) : Prop :=
  (live.captured.content.stored=live.appended ∧
    live.captured.content.length=live.appended.length) ∨
  live.captured.content.length < live.reservation.bytes

structure Consistent (hash : List UInt8 → Id) (sys : System Id) : Prop where
  balanced : Balanced sys.store.limits sys.store.address sys.store.state sys.held
  genuine : Genuine hash sys.store.state
  captures : ∀ live∈sys.captures, live.capture.Sound live.appended ∨ live.capture.Spoiled
  captured : ∀ live∈sys.captured, live.Sound
  leases : ∀ lease∈sys.leases, ∃ id, sys.store.state.byAlias.lookup lease.1=some ⟨id,lease.2⟩

/-- What a step may do to the entries. -/
inductive Change (hash : List UInt8 → Id) (before after : State Id) : List Event → Prop where
  | same (hents : after.byAlias=before.byAlias) (hnext : after.nextAlias=before.nextAlias) :
      Change hash before after []
  | retained {contents refs} (h : Retention hash before after contents refs) :
      Change hash before after [.retained contents refs]
  | released {ref entry} (hentry : before.byAlias.lookup ref=some entry)
      (h : after=ResultStores.released before ref entry) :
      Change hash before after [.released ref]

variable {hash : List UInt8 → Id} {sys sys' : System Id}

omit [DecidableEq Id] in
theorem append_tables (limits : StoreLimits) (state : State Id) (capture : StoreCapture)
    (chunk : List UInt8) (fault : AppendFault) :
    (ResultStores.append limits state capture chunk fault).1.byAlias=state.byAlias ∧
      (ResultStores.append limits state capture chunk fault).1.nextAlias=state.nextAlias := by
  obtain ⟨result,heq,-⟩ | ⟨bytes,-,-,heq⟩ | ⟨bytes,-,-,-,heq⟩ | ⟨stored,sample,-,-,-,heq⟩ :=
    append_cases limits state capture chunk fault
  all_goals
    rw [heq]
    exact ⟨rfl,rfl⟩

omit [DecidableEq Id] in
theorem dropReservation_tables (store : ResultStore Id) (reservation : StoreReservation) :
    (dropReservation store reservation).byAlias=store.state.byAlias ∧
      (dropReservation store reservation).nextAlias=store.state.nextAlias := by
  unfold dropReservation
  split
  · exact ⟨rfl,rfl⟩
  · exact ⟨rfl,rfl⟩

theorem finish_sound {capture : StoreCapture} {appended : List UInt8} {fault : Bool}
    {captured : CapturedContent} (h : capture.Sound appended ∨ capture.Spoiled)
    (hfin : finish capture fault=.ok captured) :
    LiveContent.Sound ⟨captured,appended⟩ ∧ captured.reservation=capture.reservation := by
  unfold finish at hfin
  cases hstate : capture.state with
  | memory bytes =>
    simp only [hstate] at hfin
    cases hfin
    refine ⟨?_,rfl⟩
    obtain ⟨hstor,hlen,-⟩ | hspoiled := h
    · rw [hstate] at hstor
      exact .inl ⟨hstor,hlen⟩
    · rw [StoreCapture.Spoiled,hstate] at hspoiled
      exact .inr (Nat.lt_of_le_of_lt hspoiled.1 hspoiled.2)
  | disk stored sample =>
    simp only [hstate,bind_unit_ok_iff] at hfin
    obtain ⟨-,hfin⟩ := hfin
    cases hfin
    refine ⟨?_,rfl⟩
    obtain ⟨hstor,hlen,-⟩ | hspoiled := h
    · rw [hstate] at hstor
      exact .inl ⟨hstor,hlen⟩
    · rw [StoreCapture.Spoiled,hstate] at hspoiled
      exact .inr hspoiled

variable {live : LiveContent} {contents : List (List UInt8)} {ref address : ℕ}

omit [DecidableEq Id] in
theorem LiveContent.Sound.declares (h : live.Sound) (address : ℕ) :
    Declares hash address (live.captured.pending : PendingContent Id) live.appended := by
  intro hcheck
  rw [CapturedContent.pending,checkReservation,require_ok_iff] at hcheck
  obtain ⟨hstor,hlen⟩ | href := h
  · exact ⟨hstor,hlen,fun id hid => nomatch hid⟩
  · exact absurd hcheck.2 (Nat.not_le_of_lt href)

/-- A byte string, as it is placed. -/
def prepared (hash : List UInt8 → Id) (bytes : List UInt8) : Id × Content :=
  (hash bytes,⟨bytes.length,if bytes.length ≤ defaultCaptureMemoryBytes then .memory else .disk,
    bytes⟩)

def pendingOf (hash : List UInt8 → Id) (bytes : List UInt8) : PendingContent Id :=
  ⟨some (prepared hash bytes).1,(prepared hash bytes).2,none⟩

omit [DecidableEq Id] in
theorem prepareBytes_ok {spoolFault : Bool} {bytes : List UInt8} {value : PendingContent Id} :
    prepareBytes hash spoolFault bytes=.ok value ↔
      (bytes.length < 2 ^ 64 ∧ (defaultCaptureMemoryBytes < bytes.length → spoolFault=false)) ∧
        value=pendingOf hash bytes := by
  rw [prepareBytes,bind_unit_ok_iff,require_ok_iff,pendingOf,prepared,and_assoc]
  refine and_congr_right fun _ => ?_
  by_cases hsmall : bytes.length ≤ defaultCaptureMemoryBytes
  · rw [if_pos hsmall,if_pos hsmall,pure_ok_iff]
    simp [Nat.not_lt.2 hsmall,eq_comm]
  · rw [if_neg hsmall,if_neg hsmall,bind_unit_ok_iff,require_ok_iff,pure_ok_iff]
    simp [Nat.lt_of_not_le hsmall,eq_comm]

omit [DecidableEq Id] in
theorem prepareBytes_declares {spoolFault : Bool} {pending : List (PendingContent Id)} (address : ℕ)
    (h : contents.mapM (prepareBytes hash spoolFault)=.ok pending) :
    List.Forall₂ (Declares hash address) pending contents ∧
      pending.filterMap PendingContent.reservation=[] := by
  obtain ⟨-,rfl⟩ := (mapM_ok_iff_eq_map (fun _ _ => prepareBytes_ok) _ _).1 h
  rw [List.forall₂_map_left_iff,List.forall₂_same,List.filterMap_map]
  exact ⟨fun bytes _ _ => ⟨rfl,rfl,fun id hid => (Option.some.inj hid).symm⟩,
    List.filterMap_eq_nil_iff.2 fun _ _ => rfl⟩

theorem retainMany_spec (h : Consistent hash sys) (spoolFault : Bool) (faults : ReadFaults)
    (contents : List (List UInt8)) :
    (∃ error, retainMany hash sys.store spoolFault faults contents =
      (sys.store.state,.error error)) ∨
    ∃ after refs, retainMany hash sys.store spoolFault faults contents=(after,.ok refs) ∧
      Retention hash sys.store.state after contents refs ∧
      Balanced sys.store.limits sys.store.address after sys.held := by
  unfold retainMany
  cases hprep : contents.mapM (prepareBytes hash spoolFault) with
  | error error => exact .inl ⟨error,rfl⟩
  | ok pending =>
    obtain ⟨hdecl,hnone⟩ := prepareBytes_declares sys.store.address hprep
    refine retainPending_spec ?_ h.genuine hdecl faults
    rw [hnone]
    exact h.balanced

/-- A single value is a group of one. -/
theorem retain_spec (h : Consistent hash sys) (spoolFault : Bool) (faults : ReadFaults)
    (bytes : List UInt8) :
    (∃ error, retain hash sys.store spoolFault faults bytes=(sys.store.state,.error error)) ∨
    ∃ after ref, retain hash sys.store spoolFault faults bytes=(after,.ok ref) ∧
      Retention hash sys.store.state after [bytes] [ref] ∧
      Balanced sys.store.limits sys.store.address after sys.held := by
  unfold retain
  obtain ⟨error,heq⟩ | ⟨after,refs,heq,hret,hbal⟩ :=
    retainMany_spec h spoolFault faults [bytes]
  · rw [heq]
    exact .inl ⟨error,rfl⟩
  · obtain ⟨ref,rfl⟩ := List.length_eq_one_iff.1 hret.held.length_eq.symm
    rw [heq]
    exact .inr ⟨after,ref,rfl,hret,hbal⟩

omit [DecidableEq Id] in
theorem filterMap_pending (batch : List LiveContent) :
    (((batch.map LiveContent.captured).map CapturedContent.pending :
      List (PendingContent Id)).filterMap PendingContent.reservation) =
      batch.map LiveContent.reservation := by
  induction batch with
  | nil => rfl
  | cons live batch ih => exact congrArg (live.reservation :: ·) ih

variable {batch rest : List LiveContent} {events : List Event}

/-- A group with a capture of another store is refused. -/
theorem retainCaptures_foreign (hlive : live∈batch)
    (hforeign : live.reservation.store≠sys.store.address) (faults : ReadFaults) :
    ∃ error, retainCaptures hash sys.store faults (batch.map LiveContent.captured) =
      (sys.store.state,.error error) := by
  unfold retainCaptures
  obtain herror | ⟨hempty,-⟩ | ⟨group,hexam,-,-⟩ := retainPending_cases hash sys.store faults
    ((batch.map LiveContent.captured).map CapturedContent.pending)
  · exact herror
  · rw [List.map_map,List.map_eq_nil_iff] at hempty
    rw [hempty] at hlive
    cases hlive
  · rw [examine,bind_unit_ok_iff,each_ok_iff] at hexam
    have hcheck := hexam.1 live.captured.pending
      (List.mem_map_of_mem (List.mem_map_of_mem hlive))
    rw [CapturedContent.pending,checkReservation,require_ok_iff] at hcheck
    exact absurd hcheck.1 hforeign

section
variable (h : Consistent hash sys)
include h

theorem retainCaptures_spec (hperm : sys.captured.Perm
      (batch.filter (fun live => live.reservation.store=sys.store.address)++rest))
    (faults : ReadFaults) :
    (∃ error, retainCaptures hash sys.store faults (batch.map LiveContent.captured) =
      (sys.store.state,.error error)) ∨
    ∃ after refs, retainCaptures hash sys.store faults (batch.map LiveContent.captured) =
        (after,.ok refs) ∧
      Retention hash sys.store.state after (batch.map LiveContent.appended) refs ∧
      Balanced sys.store.limits sys.store.address after
        (holdings sys.captures rest sys.dropping) := by
  by_cases hown : ∀ live∈batch, live.reservation.store=sys.store.address
  · rw [List.filter_eq_self.2 fun live hlive => decide_eq_true (hown live hlive)] at hperm
    refine retainPending_spec ?_ h.genuine ?_ faults
    · rw [filterMap_pending]
      exact h.balanced.perm ((holdings_perm (.refl _) hperm (.refl _)).trans
        (holdings_captured batch))
    · rw [List.forall₂_map_left_iff,List.forall₂_map_left_iff,List.forall₂_map_right_iff,
        List.forall₂_same]
      exact fun live hlive => (h.captured live
        (hperm.mem_iff.2 (List.mem_append_left _ hlive))).declares sys.store.address
  · push Not at hown
    obtain ⟨live,hlive,hforeign⟩ := hown
    exact .inl (retainCaptures_foreign hlive hforeign faults)

/-! ## Every step keeps the invariant -/

omit h in
theorem forall_of_perm_cons {α : Type} {P : α → Prop} {items rest : List α} {a : α}
    (hperm : items.Perm (a::rest)) (hall : ∀ b∈items, P b) : P a ∧ ∀ b∈rest, P b :=
  List.forall_mem_cons.1 fun b hb => hall b (hperm.mem_iff.2 hb)

theorem Consistent.setState {after : State Id} {refs : List ℕ}
    (hret : Retention hash sys.store.state after contents refs)
    (hbal : Balanced sys.store.limits sys.store.address after sys.held) :
    Consistent hash (sys.setState after) where
  balanced := hbal
  genuine := hret.genuine
  captures := h.captures
  captured := h.captured
  leases lease hlease := by
    obtain ⟨id,hentry⟩ := h.leases lease hlease
    exact ⟨id,hret.kept _ _ hentry⟩

theorem Consistent.append {live : LiveCapture} {rest : List LiveCapture}
    (hperm : sys.captures.Perm (live::rest)) (chunk : List UInt8) (fault : AppendFault) :
    Consistent hash (sys.append live rest chunk fault) := by
  obtain ⟨hents,hnext⟩ :=
    append_tables sys.store.limits sys.store.state live.capture chunk fault
  obtain ⟨hlive,hrest⟩ := forall_of_perm_cons hperm h.captures
  refine ⟨?_,?_,?_,h.captured,?_⟩
  · exact (h.balanced.perm (holdings_perm hperm (.refl _) (.refl _))).append chunk fault
  · intro ref entry hentry
    exact h.genuine ref entry (by rw [← hents]; exact hentry)
  · exact List.forall_mem_cons.2 ⟨sound_or_spoiled_append hlive _ _ chunk fault,hrest⟩
  · intro lease hlease
    obtain ⟨id,hentry⟩ := h.leases lease hlease
    exact ⟨id,by rw [← hentry,← hents]; rfl⟩

theorem Consistent.dropReservation {reservation : StoreReservation} {rest : List StoreReservation}
    (hperm : sys.dropping.Perm (reservation::rest)) :
    Consistent hash { sys.setState (ResultStores.dropReservation sys.store reservation) with
      dropping := rest } := by
  obtain ⟨hents,-⟩ := dropReservation_tables sys.store reservation
  refine ⟨?_,?_,h.captures,h.captured,?_⟩
  · exact (h.balanced.perm ((holdings_perm (.refl _) (.refl _) hperm).trans
      (holdings_dropping [reservation]))).drop
  · intro ref entry hentry
    exact h.genuine ref entry (by rw [← hents]; exact hentry)
  · intro lease hlease
    obtain ⟨id,hentry⟩ := h.leases lease hlease
    exact ⟨id,by rw [← hentry,← hents]; rfl⟩

theorem Consistent.released {entry : Entry Id}
    (hentry : sys.store.state.byAlias.lookup ref=some entry) (hleases : sys.leasesOf ref=0) :
    Consistent hash (sys.setState (ResultStores.released sys.store.state ref entry)) := by
  refine ⟨h.balanced.released hentry,?_,h.captures,h.captured,?_⟩
  · exact fun found other hother => h.genuine found other (lookup_of_erase hother).2
  · intro lease hlease
    obtain ⟨id,hfound⟩ := h.leases lease hlease
    have hne : lease.1≠ref := fun heq =>
      List.countP_eq_zero.1 hleases lease hlease (beq_iff_eq.2 heq)
    exact ⟨id,by rw [System.setState_state,ResultStores.released,AList.lookup_erase_ne hne,hfound]⟩

theorem Consistent.retainCaptures (hperm : sys.captured.Perm
      (batch.filter (fun live => live.reservation.store=sys.store.address)++rest))
    (faults : ReadFaults) :
    let next := sys.retainCaptures hash faults batch
      (batch.filter fun live => live.reservation.store=sys.store.address) rest
    Consistent hash next ∧ Change hash sys.store.state next.store.state
      (recorded (batch.map LiveContent.appended) (ResultStores.retainCaptures hash sys.store
        faults (batch.map LiveContent.captured)).2) := by
  have hrest : ∀ live∈rest, live.Sound := fun live hlive =>
    h.captured live (hperm.mem_iff.2 (List.mem_append_right _ hlive))
  obtain ⟨error,heq⟩ | ⟨after,refs,heq,hret,hbal⟩ :=
    retainCaptures_spec h hperm faults
  · rw [System.retainCaptures,heq]
    refine ⟨⟨?_,h.genuine,h.captures,hrest,h.leases⟩,.same rfl rfl⟩
    exact h.balanced.perm (((holdings_perm (.refl _) hperm (.refl _)).trans
      (holdings_captured _)).trans (holdings_dropping _).symm)
  · rw [System.retainCaptures,heq]
    refine ⟨⟨hbal,hret.genuine,h.captures,hrest,fun lease hlease => ?_⟩,.retained hret⟩
    obtain ⟨id,hentry⟩ := h.leases lease hlease
    exact ⟨id,hret.kept _ _ hentry⟩

end

theorem consistent_new (hash : List UInt8 → Id) (address : ℕ) (limits : StoreLimits) :
    Consistent hash (System.new address limits) where
  balanced := balanced_new limits address
  genuine _ _ h := nomatch h
  captures _ h := nomatch h
  captured _ h := nomatch h
  leases _ h := nomatch h

/-- Every step keeps the invariant and changes the entries as its events say. -/
theorem Step.spec (hstep : Step hash sys events sys') (h : Consistent hash sys) :
    Consistent hash sys' ∧ Change hash sys.store.state sys'.store.state events := by
  cases hstep with
  | capture memoryLimit =>
    refine ⟨⟨h.balanced.capture,h.genuine,?_,h.captured,h.leases⟩,.same rfl rfl⟩
    exact List.forall_mem_cons.2 ⟨.inl ⟨rfl,rfl,rfl,Nat.zero_le _⟩,h.captures⟩
  | append hperm chunk fault =>
    obtain ⟨hents,hnext⟩ := append_tables sys.store.limits sys.store.state _ chunk fault
    exact ⟨h.append hperm chunk fault,.same hents hnext⟩
  | @finish live rest fault captured hperm hfin =>
    obtain ⟨hlive,hrest⟩ := forall_of_perm_cons hperm h.captures
    obtain ⟨hsound,hrsvn⟩ := finish_sound hlive hfin
    refine ⟨⟨?_,h.genuine,hrest,List.forall_mem_cons.2 ⟨hsound,h.captured⟩,h.leases⟩,.same rfl rfl⟩
    refine h.balanced.perm ((holdings_perm hperm (.refl _) (.refl _)).trans ?_)
    rw [show holdings (live::rest) sys.captured sys.dropping =
      captured.reservation::holdings rest sys.captured sys.dropping from
        congrArg (· :: _) hrsvn.symm]
    exact (holdings_captured [⟨captured,live.appended⟩]).symm
  | @dropCapture live rest hperm =>
    have hrest := (forall_of_perm_cons hperm h.captures).2
    refine ⟨⟨?_,h.genuine,hrest,h.captured,h.leases⟩,.same rfl rfl⟩
    exact h.balanced.perm ((holdings_perm hperm (.refl _) (.refl _)).trans
      (holdings_dropping [live.reservation]).symm)
  | @dropCaptured live rest hperm =>
    have hrest := (forall_of_perm_cons hperm h.captured).2
    refine ⟨⟨?_,h.genuine,h.captures,hrest,h.leases⟩,.same rfl rfl⟩
    exact h.balanced.perm (((holdings_perm (.refl _) hperm (.refl _)).trans
      (holdings_captured [live])).trans (holdings_dropping [live.reservation]).symm)
  | dropReservation hperm =>
    obtain ⟨hents,hnext⟩ := dropReservation_tables sys.store _
    exact ⟨h.dropReservation hperm,.same hents hnext⟩
  | retain spoolFault faults bytes =>
    obtain ⟨error,heq⟩ | ⟨after,ref,heq,hret,hbal⟩ :=
      retain_spec h spoolFault faults bytes
    · rw [heq]
      exact ⟨h,.same rfl rfl⟩
    · rw [heq]
      exact ⟨h.setState hret hbal,.retained hret⟩
  | retainMany spoolFault faults contents =>
    obtain ⟨error,heq⟩ | ⟨after,refs,heq,hret,hbal⟩ :=
      retainMany_spec h spoolFault faults contents
    · rw [heq]
      exact ⟨h,.same rfl rfl⟩
    · rw [heq]
      exact ⟨h.setState hret hbal,.retained hret⟩
  | retainCaptures hperm faults => exact h.retainCaptures hperm faults
  | @get ref lease hget =>
    refine ⟨⟨h.balanced,h.genuine,h.captures,h.captured,?_⟩,.same rfl rfl⟩
    rw [ResultStores.get] at hget
    split at hget
    · cases hget
    · next entry hentry =>
      cases hget
      exact List.forall_mem_cons.2 ⟨⟨entry.contentId,hentry⟩,h.leases⟩
  | cloneLease hlease =>
    refine ⟨⟨h.balanced,h.genuine,h.captures,h.captured,?_⟩,.same rfl rfl⟩
    exact List.forall_mem_cons.2 ⟨h.leases _ hlease,h.leases⟩
  | dropLease hperm =>
    have hleases := (forall_of_perm_cons hperm h.leases).2
    exact ⟨⟨h.balanced,h.genuine,h.captures,h.captured,hleases⟩,.same rfl rfl⟩
  | @release ref hok =>
    obtain ⟨error,heq,-⟩ | ⟨entry,hentry,hleases,heq⟩ :=
      h.balanced.release_cases (sys.leasesOf ref)
    · rw [heq] at hok
      cases hok
    · rw [heq]
      exact ⟨h.released hentry hleases,.released hentry rfl⟩
  | @releaseFailed ref error hfail =>
    obtain ⟨error,heq,-⟩ | ⟨entry,-,-,heq⟩ := h.balanced.release_cases (sys.leasesOf ref)
    · rw [heq]
      exact ⟨h,.same rfl rfl⟩
    · rw [heq] at hfail
      cases hfail

theorem Run.consistent {limits : StoreLimits} {history : List Event}
    (run : Run hash address limits sys history) : Consistent hash sys := by
  induction run with
  | new => exact consistent_new hash address limits
  | step _ hstep ih => exact (hstep.spec ih).1

theorem Step.limits (hstep : Step hash sys events sys') : sys'.store.limits=sys.store.limits := by
  cases hstep <;> rfl

theorem Run.limits {limits : StoreLimits} {history : List Event}
    (run : Run hash address limits sys history) : sys.store.limits=limits := by
  induction run with
  | new => rfl
  | step _ hstep ih => rw [hstep.limits,ih]

/-- Two entries never store the same bytes. -/
theorem genuine_unique {state : State Id} {next ref' : ℕ} {entry entry' : Entry Id}
    (hidx : Indexed state next) (hgen : Genuine hash state)
    (hentry : state.byAlias.lookup ref=some entry)
    (hentry' : state.byAlias.lookup ref'=some entry')
    (hstor : entry.content.stored=entry'.content.stored) : ref=ref' := by
  have hid : entry.contentId=entry'.contentId := by
    rw [(hgen ref entry hentry).id,(hgen ref' entry' hentry').id,hstor]
  have hcont := (hidx.inverse entry.contentId ref).2 ⟨entry.content,hentry⟩
  have hcontent' := (hidx.inverse entry'.contentId ref').2 ⟨entry'.content,hentry'⟩
  rw [hid,hcontent'] at hcont
  exact (Option.some.inj hcont).symm

/-- What a group of finished captures has reserved is part of the pending bytes. -/
theorem Consistent.sumReservations_le (h : Consistent hash sys)
    {pending : List (PendingContent Id)} {rest : List StoreReservation} {sum : ℕ}
    (hheld : (sys.captured.map LiveContent.reservation).Perm
      (pending.filterMap PendingContent.reservation++rest))
    (hsum : sumReservations pending 0=.ok sum) : sum ≤ sys.store.state.pendingBytes := by
  have hperm : sys.held.Perm (pending.filterMap PendingContent.reservation ++
      (sys.captures.map LiveCapture.reservation++(rest++sys.dropping))) := by
    refine ((hheld.append_right sys.dropping).append_left _).trans ?_
    rw [List.append_assoc]
    exact List.perm_append_comm_assoc _ _ _
  have hpend := (h.balanced.perm hperm).pending
  rw [heldBytes,List.map_append,List.sum_append,← heldBytes,← reservedBytes_eq] at hpend
  rw [((sumReservations_ok_iff (Nat.two_pow_pos 64)).1 hsum).1]
  omega

/-- The bookkeeping of the store, after every run. -/
theorem store_accounting (address : ℕ) (limits : StoreLimits) (history : List Event)
    (run : Run hash address limits sys history) :
    sys.store.state.bytes=total (fun entry => entry.content.length) sys.store.state.byAlias ∧
    sys.store.state.pendingBytes=heldBytes sys.held ∧
    sys.store.state.bytes+sys.store.state.pendingBytes ≤ limits.maxBytes ∧
    size sys.store.state.byAlias ≤ limits.maxEntries ∧
    (∀ id ref, sys.store.state.byContent.lookup id=some ref ↔
      ∃ content, sys.store.state.byAlias.lookup ref=some ⟨id,content⟩) ∧
    (∀ ref ref' entry entry', sys.store.state.byAlias.lookup ref=some entry →
      sys.store.state.byAlias.lookup ref'=some entry' →
      entry.content.stored=entry'.content.stored → ref=ref') ∧
    (∀ ref entry, sys.store.state.byAlias.lookup ref=some entry →
      0 < ref ∧ ref < sys.store.state.nextAlias) ∧
    -- the subtraction of a retention, for all that it may be given
    (∀ (pending : List (PendingContent Id)) rest sum,
      (sys.captured.map LiveContent.reservation).Perm
        (pending.filterMap PendingContent.reservation++rest) →
      sumReservations pending 0=.ok sum → sum ≤ sys.store.state.pendingBytes) ∧
    -- the subtraction of a release
    ∀ ref entry, sys.store.state.byAlias.lookup ref=some entry →
      entry.content.length ≤ sys.store.state.bytes := by
  have h := run.consistent
  refine ⟨h.balanced.bytes,h.balanced.pending,?_,?_,h.balanced.indexed.inverse,
    fun _ _ _ _ hentry hentry' => genuine_unique h.balanced.indexed h.genuine hentry hentry',
    h.balanced.indexed.refs,fun _ _ _ hheld hsum => h.sumReservations_le hheld hsum,
    fun _ _ hentry => h.balanced.length_le hentry⟩
  · rw [← run.limits]
    exact h.balanced.quota
  · rw [← run.limits]
    exact h.balanced.entries

theorem store_accounting_spilled :
    ∃ sys : System (List UInt8), Run id 7 ⟨4,2⟩ sys [.retained [[1]] [1]] ∧
      sys.store.state.pendingBytes=2 ∧
      sys.store.state.bytes+sys.store.state.pendingBytes ≤ 4 := by
  have hnew : Run id 7 ⟨4,2⟩ (System.new 7 ⟨4,2⟩) [] := .new
  have hretained := hnew.step (Step.retain _ false ⟨fun _ => false,fun _ => false⟩ [1])
  have hcap := hretained.step (Step.capture _ 0)
  have hrun := hcap.step (Step.append (.refl _) [1,2] .none)
  exact ⟨_,hrun,rfl,(store_accounting 7 ⟨4,2⟩ _ hrun).2.2.1⟩

/-! ## Failed retentions -/

/-- What the captures of a group give back is part of the pending bytes. -/
theorem Consistent.ownBytes_le (h : Consistent hash sys) (hperm : sys.captured.Perm
      (batch.filter (fun live => live.reservation.store=sys.store.address)++rest)) :
    ownBytes sys.store.address (batch.map LiveContent.reservation) ≤
      sys.store.state.pendingBytes := by
  have hpend := (h.balanced.perm ((holdings_perm (.refl _) hperm (.refl _)).trans
    (holdings_captured _))).pending
  rw [heldBytes,List.map_append,List.sum_append] at hpend
  have hown : ((batch.map LiveContent.reservation).filter
      fun reservation => reservation.store=sys.store.address) =
      (batch.filter fun live => live.reservation.store=sys.store.address).map
        LiveContent.reservation := by
    rw [List.filter_map]
    rfl
  rw [ownBytes,hown]
  omega

/-- A failed retention changes nothing, and the captures it was given pay back just what they
had reserved, which in every run is there to be paid back. -/
theorem failed_retention_unchanged (hash : List UInt8 → Id) (faults : ReadFaults)
    (error : StoreError) :
    (∀ store spoolFault contents,
      (retainMany hash store spoolFault faults contents).2=.error error →
      (retainMany hash store spoolFault faults contents).1=store.state) ∧
    (∀ store captures, (retainCaptures hash store faults captures).2=.error error →
      (retainCaptures hash store faults captures).1=store.state ∧
      (dropAll { store with state := (retainCaptures hash store faults captures).1 }
        (captures.map CapturedContent.reservation)).state =
        { store.state with
          pendingBytes := store.state.pendingBytes -
            ownBytes store.address (captures.map CapturedContent.reservation) }) ∧
    ∀ address limits (sys : System Id) history (batch rest : List LiveContent),
      Run hash address limits sys history →
      sys.captured.Perm
        (batch.filter (fun live => live.reservation.store=sys.store.address)++rest) →
      ownBytes sys.store.address (batch.map LiveContent.reservation) ≤
        sys.store.state.pendingBytes := by
  refine ⟨fun store spoolFault contents h => retainMany_error h,fun store captures h => ?_,?_⟩
  · have hstate : (retainCaptures hash store faults captures).1=store.state :=
      retainPending_error h
    refine ⟨hstate,?_⟩
    rw [dropAll_eq,hstate]
  · exact fun address limits sys history batch rest run hperm => run.consistent.ownBytes_le hperm

theorem failed_retention_unchanged_quota :
    (retainMany id ⟨7,⟨1,1⟩,.new⟩ false ⟨fun _ => false,fun _ => false⟩ [[1,2]]).2 =
        .error (.byteQuota 0 2 1) ∧
      (retainMany id ⟨7,⟨1,1⟩,.new⟩ false ⟨fun _ => false,fun _ => false⟩ [[1,2]]).1 =
        State.new :=
  ⟨rfl,(failed_retention_unchanged id _ (.byteQuota 0 2 1)).1 _ _ _ rfl⟩

end Ash.ResultStores
