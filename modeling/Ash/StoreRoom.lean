import Ash.StoreSystems

/-! # Room for a group

When a group of values is retained, told by the values, the quotas and the reads that fail. -/

namespace Ash.ResultStores
open KeyedTables Outcomes

variable {Id : Type} [DecidableEq Id]

/-- Each value, kept after those before it, compares equal to what stands under its hash. -/
def Agrees (faults : ReadFaults) : List (Id × Content) → ℕ → ℕ → State Id → Prop
  | [], _, _, _ => True
  | item::items, index, ref, state =>
      match state.byContent.lookup item.1 with
      | some known => (∃ entry, state.byAlias.lookup known=some entry ∧
            entry.content.equals (faults.compare index) item.2=.ok true) ∧
          Agrees faults items (index+1) ref state
      | none => Agrees faults items (index+1) (ref+1) (state.keep ref item.1 item.2)

variable {original current state : State Id} {faults : ReadFaults} {group items : List (Id × Content)}
  {item : Id × Content} {index incoming ref : ℕ} {firstNew : Table Id ℕ}

theorem agrees_known {known : ℕ} (h : state.byContent.lookup item.1=some known) :
    Agrees faults (item::items) index ref state ↔
      (∃ entry, state.byAlias.lookup known=some entry ∧
        entry.content.equals (faults.compare index) item.2=.ok true) ∧
      Agrees faults items (index+1) ref state := by
  rw [Agrees,h]

theorem agrees_new (h : state.byContent.lookup item.1=none) :
    Agrees faults (item::items) index ref state ↔
      Agrees faults items (index+1) (ref+1) (state.keep ref item.1 item.2) := by
  rw [Agrees,h]

omit [DecidableEq Id] in
/-- A step of the placement succeeds just when its check and the rest do. -/
theorem exists_placed {check : Except StoreError Unit} {placement : Placement}
    {rest : Except StoreError (List Placement × Table Id ℕ × ℕ)} :
    (∃ result, (do
      check
      let found ← rest
      return (placement::found.1,found.2.1,found.2.2))=.ok result) ↔
      check=.ok () ∧ ∃ result, rest=.ok result := by
  cases check with
  | error error => exact ⟨fun ⟨_,h⟩ => (nomatch h),fun ⟨h,_⟩ => (nomatch h)⟩
  | ok =>
    cases rest with
    | error error => exact ⟨fun ⟨_,h⟩ => (nomatch h),fun ⟨_,_,h⟩ => (nomatch h)⟩
    | ok result => exact ⟨fun _ => ⟨rfl,result,rfl⟩,fun _ => ⟨_,rfl⟩⟩

/-- The values are placed just when they agree and their sizes can be added. -/
theorem Leading.placeLoop_iff {next : ℕ} (faults : ReadFaults) (horiginal : Indexed original next)
    (hlead : Leading original group firstNew current) (hidx : Indexed current ref)
    (hitems : group.drop index=items) (hinc : incoming < 2 ^ 64) :
    (∃ result, placeLoop original faults group items index firstNew incoming=.ok result) ↔
      Agrees faults items index ref current ∧
        incoming+freshBytes (keepAll items ref current).fresh < 2 ^ 64 := by
  induction items generalizing index firstNew incoming ref current with
  | nil => exact ⟨fun _ => ⟨trivial,hinc⟩,fun _ => ⟨_,rfl⟩⟩
  | cons item items ih =>
    obtain ⟨id,content⟩ := item
    have hitem : group[index]?=some (id,content) := by
      rw [← List.head?_drop,hitems,List.head?_cons]
    have hrestItems : group.drop (index+1)=items := by
      rw [← List.tail_drop,hitems,List.tail_cons]
    rw [placeLoop]
    cases hknown : original.byContent.lookup id with
    | some known =>
      have hcur := hlead.known hknown
      obtain ⟨existing,hentry⟩ := (horiginal.inverse id known).1 hknown
      simp only [hentry]
      rw [exists_placed,expectSame_ok,agrees_known hcur,keepAll_known hcur,and_assoc,
        ← ih hlead hidx hrestItems hinc,hlead.kept known _ hentry]
      simp
    | none =>
      cases hfirst : firstNew.lookup id with
      | some first =>
        obtain ⟨-,leader,found,hleader,hcur,hentry⟩ := hlead.new id first hfirst
        simp only [hleader]
        rw [exists_placed,expectSame_ok,agrees_known hcur,keepAll_known hcur,and_assoc,
          ← ih hlead hidx hrestItems hinc,hentry]
        simp
      | none =>
        have hcur : current.byContent.lookup id=none := by
          rw [hlead.old id hfirst,hknown]
        have hkept : Indexed (current.keep ref id content) (ref+1) :=
          hidx.keep hcur content
        have hgrown := hlead.insert hidx hknown hitem
        simp only
        rw [exists_placed,require_ok_iff,agrees_new hcur,keepAll_new hcur,freshBytes,
          List.map_cons,List.sum_cons,← freshBytes,← Nat.add_assoc]
        by_cases hfits : incoming+content.length < 2 ^ 64
        · rw [ih hgrown hkept hrestItems hfits]
          exact and_iff_right hfits
        · refine ⟨fun h => absurd h.1 hfits,fun h => absurd ?_ hfits⟩
          exact Nat.lt_of_le_of_lt (Nat.le_add_right _ _) h.2

/-- A group is admitted just when it agrees with the store and the quotas last for it. -/
theorem admitted_iff {limits : StoreLimits} {pending : List (PendingContent Id)}
    (hidx : Indexed state state.nextAlias) :
    Admitted limits state faults pending group ↔
      Agrees faults group 0 state.nextAlias state ∧
      (reservedBytes pending < 2 ^ 64 ∧ reservedBytes pending ≤ state.pendingBytes) ∧
      state.bytes+(state.pendingBytes - reservedBytes pending) +
        freshBytes (keepAll group state.nextAlias state).fresh < 2 ^ 64 ∧
      state.bytes+(state.pendingBytes - reservedBytes pending) +
        freshBytes (keepAll group state.nextAlias state).fresh ≤ limits.maxBytes ∧
      size state.byAlias+(keepAll group state.nextAlias state).fresh.length ≤ limits.maxEntries ∧
      state.nextAlias+(keepAll group state.nextAlias state).fresh.length < 2 ^ 64 := by
  have hplaced := (leading_empty state group).placeLoop_iff faults hidx hidx
    List.drop_zero (Nat.two_pow_pos 64)
  rw [Nat.zero_add] at hplaced
  constructor
  · intro h
    exact ⟨(hplaced.1 h.placed).1,⟨h.sum,h.reserved⟩,h.small,h.bytes,h.entries,h.refs⟩
  · rintro ⟨hagrees,⟨hsum,hresv⟩,hsmall,hbytes,hents,hrefs⟩
    exact ⟨hplaced.2 ⟨hagrees,Nat.lt_of_le_of_lt (Nat.le_add_left _ _) hsmall⟩,hsum,hresv,
      hsmall,hbytes,hents,hrefs⟩

variable {store : ResultStore Id} {refs : List ℕ}

/-- A group of values that pass their examination is retained just when it is admitted. -/
theorem retainPending_ok_iff {hash : List UInt8 → Id} {pending : List (PendingContent Id)}
    (hne : pending≠[]) (hexam : examine hash store faults pending=.ok group) :
    (retainPending hash store faults pending).2=.ok refs ↔
      Admitted store.limits store.state faults pending group ∧
        refs=(keepAll group store.state.nextAlias store.state).refs := by
  rw [retainPending,if_neg hne,hexam,commit_ok_iff]

/-! ## Groups of byte strings -/

/-- The store can take the byte strings: they are written and compared, and the quotas and the
aliases last for those that are new. -/
structure Room (hash : List UInt8 → Id) (store : ResultStore Id) (spoolFault : Bool)
    (faults : ReadFaults) (contents : List (List UInt8)) : Prop where
  lengths : ∀ bytes∈contents, bytes.length < 2 ^ 64
  spooled : ∀ bytes∈contents, defaultCaptureMemoryBytes < bytes.length → spoolFault=false
  agrees : Agrees faults (contents.map (prepared hash)) 0 store.state.nextAlias store.state
  small : store.state.bytes+store.state.pendingBytes+freshBytes
    (keepAll (contents.map (prepared hash)) store.state.nextAlias store.state).fresh < 2 ^ 64
  bytes : store.state.bytes+store.state.pendingBytes+freshBytes
    (keepAll (contents.map (prepared hash)) store.state.nextAlias store.state).fresh ≤
      store.limits.maxBytes
  entries : size store.state.byAlias +
    (keepAll (contents.map (prepared hash)) store.state.nextAlias store.state).fresh.length ≤
      store.limits.maxEntries
  refs : store.state.nextAlias +
    (keepAll (contents.map (prepared hash)) store.state.nextAlias store.state).fresh.length < 2 ^ 64

variable {hash : List UInt8 → Id} {spoolFault : Bool}

omit [DecidableEq Id] in
theorem examine_prepared (store : ResultStore Id) (contents : List (List UInt8)) :
    examine hash store faults (contents.map (pendingOf hash)) =
      .ok (contents.map (prepared hash)) := by
  rw [examine,bind_unit_ok_iff,each_ok_iff]
  refine ⟨fun value hvalue => ?_,?_⟩
  · obtain ⟨bytes,-,rfl⟩ := List.mem_map.1 hvalue
    rfl
  · generalize 0=start
    induction contents generalizing start with
    | nil => rfl
    | cons bytes contents ih =>
      rw [List.map_cons,List.zipIdx_cons,List.mapM_cons,ih]
      rfl

omit [DecidableEq Id] in
theorem reservedBytes_prepared (contents : List (List UInt8)) :
    reservedBytes (contents.map (pendingOf hash))=0 := by
  rw [reservedBytes_eq,List.filterMap_map]
  exact congrArg heldBytes (List.filterMap_eq_nil_iff.2 fun _ _ => rfl)

/-- A group is retained just when there is room for it. -/
theorem retainMany_ok_iff {contents : List (List UInt8)}
    (hidx : Indexed store.state store.state.nextAlias) (hne : contents≠[]) :
    (retainMany hash store spoolFault faults contents).2=.ok refs ↔
      Room hash store spoolFault faults contents ∧
        refs=(keepAll (contents.map (prepared hash)) store.state.nextAlias store.state).refs := by
  have hsome : contents.map (pendingOf hash)≠[] := by simpa using hne
  have hretain : (retainPending hash store faults (contents.map (pendingOf hash))).2=.ok refs ↔
      _ := retainPending_ok_iff hsome (examine_prepared store contents)
  rw [admitted_iff hidx,reservedBytes_prepared,Nat.sub_zero] at hretain
  unfold retainMany
  constructor
  · intro h
    cases hpend : contents.mapM (prepareBytes hash spoolFault) with
    | error error =>
      rw [hpend] at h
      cases h
    | ok pending =>
      obtain ⟨hwritten,rfl⟩ := (mapM_ok_iff_eq_map (fun _ _ => prepareBytes_ok) _ _).1 hpend
      rw [hpend] at h
      obtain ⟨⟨hagrees,-,hsmall,hbytes,hents,hrefs⟩,heq⟩ := hretain.1 h
      exact ⟨⟨fun bytes hmem => (hwritten bytes hmem).1,fun bytes hmem => (hwritten bytes hmem).2,
        hagrees,hsmall,hbytes,hents,hrefs⟩,heq⟩
  · rintro ⟨hroom,heq⟩
    have hpend : contents.mapM (prepareBytes hash spoolFault) =
        .ok (contents.map (pendingOf hash)) :=
      (mapM_ok_iff_eq_map (fun _ _ => prepareBytes_ok) _ _).2
        ⟨fun bytes hmem => ⟨hroom.lengths bytes hmem,hroom.spooled bytes hmem⟩,rfl⟩
    rw [hpend]
    exact hretain.2 ⟨⟨hroom.agrees,⟨Nat.two_pow_pos 64,Nat.zero_le _⟩,hroom.small,hroom.bytes,
      hroom.entries,hroom.refs⟩,heq⟩

theorem exists_refs_singleton (item : Id × Content) (ref : ℕ) (state : State Id) :
    ∃ found, (keepAll [item] ref state).refs=[found] := by
  cases hlook : state.byContent.lookup item.1 with
  | some known =>
    rw [keepAll_known hlook]
    exact ⟨known,rfl⟩
  | none =>
    rw [keepAll_new hlook]
    exact ⟨ref,rfl⟩

/-- A single value is retained just when there is room for it. -/
theorem retain_ok_iff {bytes : List UInt8} {ref : ℕ}
    (hidx : Indexed store.state store.state.nextAlias) :
    (retain hash store spoolFault faults bytes).2=.ok ref ↔
      Room hash store spoolFault faults [bytes] ∧
        (keepAll [prepared hash bytes] store.state.nextAlias store.state).refs=[ref] := by
  obtain ⟨found,hfound⟩ :=
    exists_refs_singleton (prepared hash bytes) store.state.nextAlias store.state
  rw [hfound,List.cons.injEq,and_iff_left rfl]
  unfold retain
  constructor
  · intro h
    cases hmany : (retainMany hash store spoolFault faults [bytes]).2 with
    | error error =>
      rw [hmany] at h
      cases h
    | ok refs =>
      obtain ⟨hroom,hrefs⟩ := (retainMany_ok_iff hidx (List.cons_ne_nil _ _)).1 hmany
      rw [List.map_singleton,hfound] at hrefs
      rw [hmany,hrefs] at h
      exact ⟨hroom,Except.ok.inj h⟩
  · rintro ⟨hroom,rfl⟩
    have hmany := (retainMany_ok_iff hidx (List.cons_ne_nil _ _)).2 ⟨hroom,rfl⟩
    rw [List.map_singleton,hfound] at hmany
    rw [hmany]

/-- The alias of a retained value is one of the store and names the value. -/
theorem retain_named {sys : System Id} {bytes : List UInt8} (h : Consistent hash sys)
    (hroom : Room hash sys.store spoolFault faults [bytes]) :
    ∃ after ref, retain hash sys.store spoolFault faults bytes=(after,.ok ref) ∧
      (0 < ref ∧ ref < 2 ^ 64) ∧
      ∃ entry, after.byAlias.lookup ref=some entry ∧ entry.Holds hash bytes := by
  obtain ⟨ref,hrefs⟩ :=
    exists_refs_singleton (prepared hash bytes) sys.store.state.nextAlias sys.store.state
  have href := (retain_ok_iff h.balanced.indexed).2 ⟨hroom,hrefs⟩
  have hmem : ref∈(keepAll ([bytes].map (prepared hash)) sys.store.state.nextAlias
      sys.store.state).refs := by
    rw [List.map_singleton,hrefs]
    exact List.mem_singleton_self ref
  obtain ⟨hpos,hlt⟩ := keepAll_bounds h.balanced.indexed hmem
  obtain ⟨error,heq⟩ | ⟨after,found,heq,hret,-⟩ := retain_spec h spoolFault faults bytes
  · rw [heq] at href
    cases href
  · rw [heq] at href
    obtain rfl := Except.ok.inj href
    obtain ⟨hentry,-⟩ := List.forall₂_cons.1 hret.held
    exact ⟨after,found,heq,⟨hpos,Nat.lt_trans hlt hroom.refs⟩,hentry⟩

/-! ## Groups of captures -/

/-- A finished capture, as it is placed. -/
def CapturedContent.placed (hash : List UInt8 → Id) (captured : CapturedContent) : Id × Content :=
  (hash captured.content.stored,captured.content)

/-- The store can take the captures: they are its own, their files are read and compared, and
the quotas and the aliases last for those that are new. -/
structure CaptureRoom (hash : List UInt8 → Id) (store : ResultStore Id) (faults : ReadFaults)
    (captures : List CapturedContent) : Prop where
  own : ∀ captured∈captures, captured.reservation.store=store.address ∧
    captured.reservation.bytes ≤ captured.content.length
  readable : ∀ entry∈captures.zipIdx, entry.1.content.residency=.disk →
    faults.digest entry.2=false ∧ entry.1.content.stored.length=entry.1.content.length
  agrees : Agrees faults (captures.map (CapturedContent.placed hash)) 0 store.state.nextAlias
    store.state
  reserved : heldBytes (captures.map CapturedContent.reservation) < 2 ^ 64 ∧
    heldBytes (captures.map CapturedContent.reservation) ≤ store.state.pendingBytes
  small : store.state.bytes +
    (store.state.pendingBytes - heldBytes (captures.map CapturedContent.reservation))+freshBytes
    (keepAll (captures.map (CapturedContent.placed hash)) store.state.nextAlias store.state).fresh <
      2 ^ 64
  bytes : store.state.bytes +
    (store.state.pendingBytes - heldBytes (captures.map CapturedContent.reservation))+freshBytes
    (keepAll (captures.map (CapturedContent.placed hash)) store.state.nextAlias store.state).fresh ≤
      store.limits.maxBytes
  entries : size store.state.byAlias+(keepAll (captures.map (CapturedContent.placed hash))
    store.state.nextAlias store.state).fresh.length ≤ store.limits.maxEntries
  refs : store.state.nextAlias+(keepAll (captures.map (CapturedContent.placed hash))
    store.state.nextAlias store.state).fresh.length < 2 ^ 64

variable {captures : List CapturedContent}

omit [DecidableEq Id] in
theorem identify_captured (hash : List UInt8 → Id) (faults : ReadFaults)
    (entry : CapturedContent × ℕ) (item : Id × Content) :
    identify hash faults (entry.1.pending,entry.2)=.ok item ↔
      (entry.1.content.residency=.disk → faults.digest entry.2=false ∧
        entry.1.content.stored.length=entry.1.content.length) ∧ item=entry.1.placed hash := by
  simp only [identify,CapturedContent.pending,CapturedContent.placed,bind_ok_iff,pure_ok_iff,
    Content.digest]
  cases entry.1.content.residency with
  | memory =>
    simp only [Except.ok.injEq,reduceCtorEq,false_implies,true_and]
    constructor
    · rintro ⟨_,hid,hitem⟩
      exact hid ▸ hitem.symm
    · exact fun hitem => ⟨_,rfl,hitem.symm⟩
  | disk =>
    simp only [bind_unit_ok_iff,pure_ok_iff,forall_const]
    constructor
    · rintro ⟨_,⟨hread,hid⟩,hitem⟩
      exact ⟨require_ok_iff.1 hread,hid ▸ hitem.symm⟩
    · rintro ⟨hread,hitem⟩
      exact ⟨_,⟨require_ok_iff.2 hread,rfl⟩,hitem.symm⟩

omit [DecidableEq Id] in
theorem examine_captures_iff {group : List (Id × Content)} :
    examine hash store faults (captures.map CapturedContent.pending)=.ok group ↔
      (∀ captured∈captures, captured.reservation.store=store.address ∧
        captured.reservation.bytes ≤ captured.content.length) ∧
      (∀ entry∈captures.zipIdx, entry.1.content.residency=.disk →
        faults.digest entry.2=false ∧
          entry.1.content.stored.length=entry.1.content.length) ∧
      group=captures.map (CapturedContent.placed hash) := by
  have hitems : captures.zipIdx.map (fun entry => entry.1.placed hash) =
      captures.map (CapturedContent.placed hash) := by
    conv_rhs => rw [← List.zipIdx_map_fst 0 captures,List.map_map]
    rfl
  have hidx : (captures.map CapturedContent.pending : List (PendingContent Id)).zipIdx =
      captures.zipIdx.map fun entry => (entry.1.pending,entry.2) := by
    rw [List.zipIdx_map]
    rfl
  have hidentified := mapM_ok_iff_eq_map (identify_captured hash faults) captures.zipIdx group
  rw [examine,bind_unit_ok_iff,each_ok_iff,List.forall_mem_map,hidx,List.mapM_map,← hitems,
    ← hidentified]
  refine and_congr_left fun _ => forall₂_congr fun captured _ => ?_
  rw [CapturedContent.pending,checkReservation,require_ok_iff]

omit [DecidableEq Id] in
theorem reservedBytes_captures :
    reservedBytes (captures.map CapturedContent.pending : List (PendingContent Id)) =
      heldBytes (captures.map CapturedContent.reservation) := by
  rw [reservedBytes_eq,List.filterMap_map]
  refine congrArg heldBytes ?_
  rw [← List.filterMap_eq_map]
  rfl

/-- Captures are retained just when there is room for them. -/
theorem retainCaptures_ok_iff (hidx : Indexed store.state store.state.nextAlias)
    (hne : captures≠[]) :
    (retainCaptures hash store faults captures).2=.ok refs ↔
      CaptureRoom hash store faults captures ∧
        refs=(keepAll (captures.map (CapturedContent.placed hash)) store.state.nextAlias
          store.state).refs := by
  have hsome : (captures.map CapturedContent.pending : List (PendingContent Id))≠[] := by
    simpa using hne
  unfold retainCaptures
  constructor
  · intro h
    cases hexam : examine hash store faults (captures.map CapturedContent.pending) with
    | error error =>
      rw [retainPending,if_neg hsome,hexam] at h
      cases h
    | ok group =>
      obtain ⟨hadm,heq⟩ := (retainPending_ok_iff hsome hexam).1 h
      obtain ⟨hown,hreadable,rfl⟩ := examine_captures_iff.1 hexam
      rw [admitted_iff hidx,reservedBytes_captures] at hadm
      obtain ⟨hagrees,hresv,hsmall,hbytes,hents,hrefs⟩ := hadm
      exact ⟨⟨hown,hreadable,hagrees,hresv,hsmall,hbytes,hents,hrefs⟩,heq⟩
  · rintro ⟨hroom,heq⟩
    have hexam : examine hash store faults (captures.map CapturedContent.pending)=.ok _ :=
      examine_captures_iff.2 ⟨hroom.own,hroom.readable,rfl⟩
    rw [retainPending_ok_iff hsome hexam,admitted_iff hidx,reservedBytes_captures]
    exact ⟨⟨hroom.agrees,hroom.reserved,hroom.small,hroom.bytes,hroom.entries,hroom.refs⟩,heq⟩

/-- Under the alias of each retained capture stand its bytes. -/
theorem retainCaptures_contents (hidx : Indexed store.state store.state.nextAlias)
    (hne : captures≠[]) (h : (retainCaptures hash store faults captures).2=.ok refs) :
    List.Forall₂ (fun captured ref => 0 < ref ∧ ref < 2 ^ 64 ∧ ∃ entry,
      (retainCaptures hash store faults captures).1.byAlias.lookup ref=some entry ∧
        entry.content.stored=captured.content.stored) captures refs := by
  obtain ⟨hroom,rfl⟩ := (retainCaptures_ok_iff hidx hne).1 h
  have hbounds : ∀ ref∈(keepAll (captures.map (CapturedContent.placed hash))
      store.state.nextAlias store.state).refs, _ := fun ref hmem => keepAll_bounds hidx hmem
  have hlast := hroom.refs
  obtain ⟨error,herror⟩ | ⟨hempty,-⟩ | ⟨group,hexam,hadm,heq⟩ :=
    retainPending_cases hash store faults (captures.map CapturedContent.pending)
  · rw [retainCaptures,herror] at h
    cases h
  · exact absurd (List.map_eq_nil_iff.1 hempty) hne
  · obtain ⟨-,-,rfl⟩ := examine_captures_iff.1 hexam
    obtain ⟨result,hplaced⟩ := hadm.placed
    have hcontents := keepAll_contents hplaced (leading_empty store.state _) hidx
      List.drop_zero
    rw [List.forall₂_map_left_iff] at hcontents
    rw [retainCaptures,heq]
    have hall := ((List.forall₂_and_left _ _).2 ⟨hbounds,hcontents.flip⟩).flip
    refine hall.imp fun captured ref ⟨⟨hpos,hsmall⟩,content,hentry,hstor⟩ => ?_
    exact ⟨hpos,Nat.lt_trans hsmall hlast,_,hentry,hstor⟩

end Ash.ResultStores
