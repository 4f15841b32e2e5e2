import Ash.StoreRuns

/-! # What a retained group leaves in the store

Captures hold the bytes they were given, and every alias returned stands for the bytes it was
returned for. -/

namespace Ash.ResultStores
open KeyedTables Outcomes

variable {Id : Type}

/-! ## Captures -/

def CaptureState.stored : CaptureState → List UInt8
  | .memory bytes => bytes
  | .disk stored _ => stored

/-- A capture that holds all it was given. -/
def StoreCapture.Sound (capture : StoreCapture) (appended : List UInt8) : Prop :=
  capture.state.stored=appended ∧ capture.length=appended.length ∧
    match capture.state with
    | .memory _ => capture.reservation.bytes=0 ∧ capture.length ≤ capture.memoryLimit
    | .disk _ _ => capture.reservation.bytes=capture.length

/-- A capture after a failed write.  It has reserved more than it will ever hold. -/
def StoreCapture.Spoiled (capture : StoreCapture) : Prop :=
  match capture.state with
  | .memory _ => capture.length ≤ capture.memoryLimit ∧
      capture.memoryLimit < capture.reservation.bytes
  | .disk _ _ => capture.length < capture.reservation.bytes

variable {incoming index : ℕ} {original current : State Id} {firstNew : Table Id ℕ}
  {store : ResultStore Id}

/-- The bytes given to a capture after one more append. -/
def grown (appended chunk : List UInt8) : Except StoreError Unit → List UInt8
  | .ok () => appended++chunk
  | .error _ => appended

/-- A failed write of a capture that had outgrown its memory. -/
theorem spoiled_spill {capture : StoreCapture} {reservation : StoreReservation}
    {bytes chunk : List UInt8} {fault : AppendFault} (hfault : fault≠.none)
    (hbytes : capture.state=.memory bytes) (hlen : capture.length ≤ capture.memoryLimit)
    (hresv : capture.memoryLimit < reservation.bytes) :
    (spill capture reservation bytes chunk fault).1.Spoiled := by
  cases fault with
  | none => exact absurd rfl hfault
  | allocate | write => exact ⟨hlen,hresv⟩
  | create =>
    simp only [StoreCapture.Spoiled,spill,hbytes]
    exact ⟨hlen,hresv⟩

theorem sound_or_spoiled_append {capture : StoreCapture} {appended : List UInt8}
    (h : capture.Sound appended ∨ capture.Spoiled) (limits : StoreLimits) (state : State Id)
    (chunk : List UInt8) (fault : AppendFault) :
    (append limits state capture chunk fault).2.1.Sound
        (grown appended chunk (append limits state capture chunk fault).2.2) ∨
      (append limits state capture chunk fault).2.1.Spoiled := by
  obtain ⟨result,heq,hempty⟩ | ⟨bytes,hbytes,hfits,heq⟩ | ⟨bytes,hbytes,hover,-,heq⟩ |
      ⟨stored,sample,hstor,hchunk,-,heq⟩ := append_cases limits state capture chunk fault
  · rw [heq]
    cases result with
    | error error => exact h
    | ok _ =>
      rw [hempty rfl,grown,List.append_nil]
      exact h
  · rw [heq]
    obtain ⟨hsame,hlen,hstate⟩ | hspoiled := h
    · left
      rw [hbytes] at hsame hstate
      obtain rfl : bytes=appended := hsame
      exact ⟨rfl,by simp [grown,hlen],hstate.1,hfits⟩
    · right
      rw [StoreCapture.Spoiled,hbytes] at hspoiled
      exact ⟨hfits,hspoiled.2⟩
  · rw [heq]
    generalize hresv : capture.reservation.charged (capture.length+chunk.length)=reservation
    replace hresv : capture.reservation.bytes+(capture.length+chunk.length)=reservation.bytes :=
      congrArg StoreReservation.bytes hresv
    simp only [StoreCapture.Sound,StoreCapture.Spoiled,hbytes] at h
    by_cases hfault : fault=.none
    · subst hfault
      obtain ⟨rfl,hlen,hzero,-⟩ | hspoiled := h
      · left
        refine ⟨rfl,by simp [spill,grown,hlen],?_⟩
        simp only [spill]
        omega
      · right
        simp only [StoreCapture.Spoiled,spill]
        omega
    · exact .inr (spoiled_spill hfault hbytes (by omega) (by omega))
  · rw [heq]
    generalize hresv : capture.reservation.charged chunk.length=reservation
    replace hresv : capture.reservation.bytes+chunk.length=reservation.bytes :=
      congrArg StoreReservation.bytes hresv
    have hpos : 0 < chunk.length := List.length_pos_iff.2 hchunk
    simp only [StoreCapture.Sound,StoreCapture.Spoiled,hstor] at h
    obtain ⟨rfl,hlen,hequal⟩ | hspoiled := h
    · have hgrown : ((extend capture reservation stored sample chunk .none).1).Sound
          (stored++chunk) := by
        refine ⟨rfl,by simp [extend,hlen,CaptureState.stored],?_⟩
        simp only [extend]
        omega
      cases fault with
      | none | allocate | create => exact .inl hgrown
      | write kept =>
        right
        simp only [StoreCapture.Spoiled,extend]
        omega
    · right
      cases fault <;> simp only [StoreCapture.Spoiled,extend] <;> omega

/-! ## Equal contents -/

theorem compareLoop_true {fuel remaining : ℕ} {left right : List UInt8}
    (h : compareLoop fuel remaining left right=.ok true) : left=right := by
  induction fuel generalizing remaining left right with
  | zero =>
    rw [compareLoop] at h
    split_ifs at h with hends
    rw [hends.1,hends.2]
  | succ fuel ih =>
    simp only [compareLoop] at h
    split_ifs at h with hzero hends hshort htake
    · rw [hends.1,hends.2]
    · cases h
    · rw [ne_eq,not_not] at htake
      rw [← List.take_append_drop (min remaining compareBufferBytes) left,htake,ih h,
        List.take_append_drop]

theorem equals_true {fault : Bool} {content other : Content}
    (h : content.equals fault other=.ok true) : content.stored=other.stored := by
  unfold Content.equals at h
  split_ifs at h
  · cases h
  · exact of_decide_eq_true (Except.ok.inj h)
  · exact compareLoop_true h

variable [DecidableEq Id]

variable {ref found : ℕ} {items group : List (Id × Content)} {faults : ReadFaults}
  {contents : List (List UInt8)}

/-- Entries are never overwritten. -/
theorem Indexed.lookup_keep {state : State Id} {entry : Entry Id} (h : Indexed state ref)
    (hentry : state.byAlias.lookup found=some entry) (id : Id) (content : Content) :
    (state.keep ref id content).byAlias.lookup found=some entry := by
  have hne : found≠ref := by
    rintro rfl
    exact Nat.lt_irrefl _ (h.refs found entry hentry).2
  rw [State.keep,AList.lookup_insert_ne hne]
  exact hentry

theorem keepAll_lookup {state : State Id} {entry : Entry Id} (h : Indexed state ref)
    (hentry : state.byAlias.lookup found=some entry) :
    (keepAll items ref state).state.byAlias.lookup found=some entry := by
  fun_induction keepAll items ref state with
  | case1 => exact hentry
  | case2 item items ref state known hlook ih => exact ih h hentry
  | case3 item items ref state hlook ih =>
    exact ih (h.keep hlook item.2) (h.lookup_keep hentry item.1 item.2)

/-- Each value is found under its alias. -/
theorem keepAll_refs {state : State Id} (h : Indexed state ref) :
    List.Forall₂ (fun item found => (keepAll items ref state).state.byContent.lookup item.1 =
      some found) items (keepAll items ref state).refs := by
  fun_induction keepAll items ref state with
  | case1 => exact .nil
  | case2 item items ref state known hlook ih =>
    refine .cons ?_ (ih h)
    obtain ⟨content,hentry⟩ := (h.inverse item.1 known).1 hlook
    exact ((keepAll_spec items h).1.inverse item.1 known).2 ⟨content,keepAll_lookup h hentry⟩
  | case3 item items ref state hlook ih =>
    have hkept := h.keep hlook item.2
    refine .cons ?_ (ih hkept)
    have hentry : (state.keep ref item.1 item.2).byAlias.lookup ref=some ⟨item.1,item.2⟩ :=
      AList.lookup_insert _
    exact ((keepAll_spec items hkept).1.inverse item.1 ref).2 ⟨item.2,keepAll_lookup hkept hentry⟩

theorem keepAll_bounds {state : State Id} (h : Indexed state ref)
    (hfound : found∈(keepAll items ref state).refs) :
    0 < found ∧ found < ref+(keepAll items ref state).fresh.length := by
  obtain ⟨item,-,hlook⟩ := exists_mem_of_forall₂_right (keepAll_refs h) hfound
  have hidx := (keepAll_spec items h).1
  obtain ⟨content,hentry⟩ := (hidx.inverse item.1 found).1 hlook
  exact hidx.refs found _ hentry

/-- A new alias is larger than all aliases before its first occurrence. -/
theorem keepAll_increasing {state : State Id} (h : Indexed state ref) {j later : ℕ}
    (hlater : (keepAll items ref state).refs[j]?=some later) (hnew : ref ≤ later)
    (hfirst : later∉(keepAll items ref state).refs.take j) {i earlier : ℕ} (hij : i < j)
    (hearlier : (keepAll items ref state).refs[i]?=some earlier) : earlier < later := by
  fun_induction keepAll items ref state generalizing i j with
  | case1 => cases hlater
  | case2 item items ref state known hlook ih =>
    obtain ⟨content,hentry⟩ := (h.inverse item.1 known).1 hlook
    have hknown := (h.refs known _ hentry).2
    obtain _ | j := j
    · exact absurd hij (Nat.not_lt_zero i)
    rw [List.take_succ_cons,List.mem_cons,not_or] at hfirst
    obtain _ | i := i
    · cases hearlier
      omega
    · exact ih h hlater hnew hfirst.2 (Nat.lt_of_succ_lt_succ hij) hearlier
  | case3 item items ref state hlook ih =>
    obtain _ | j := j
    · exact absurd hij (Nat.not_lt_zero i)
    rw [List.take_succ_cons,List.mem_cons,not_or] at hfirst
    obtain _ | i := i
    · cases hearlier
      omega
    · exact ih (h.keep hlook item.2) hlater (by omega) hfirst.2 (Nat.lt_of_succ_lt_succ hij)
        hearlier

/-- The states reached so far hold the values that new places refer to. -/
structure Leading (original : State Id) (group : List (Id × Content)) (firstNew : Table Id ℕ)
    (current : State Id) : Prop where
  kept : ∀ found entry, original.byAlias.lookup found=some entry →
    current.byAlias.lookup found=some entry
  old : ∀ id, firstNew.lookup id=none →
    current.byContent.lookup id=original.byContent.lookup id
  new : ∀ id first, firstNew.lookup id=some first → original.byContent.lookup id=none ∧
    ∃ leader found, group[first]?=some leader ∧ current.byContent.lookup id=some found ∧
      current.byAlias.lookup found=some ⟨id,leader.2⟩

theorem leading_empty (original : State Id) (group : List (Id × Content)) :
    Leading original group ∅ original where
  kept _ _ h := h
  old _ _ := rfl
  new _ _ h := nomatch h

theorem Leading.insert {item : Id × Content} (h : Leading original group firstNew current)
    (hidx : Indexed current ref) (hnew : original.byContent.lookup item.1=none)
    (hitem : group[index]?=some item) :
    Leading original group (firstNew.insert item.1 index) (current.keep ref item.1 item.2) where
  kept found entry hentry := hidx.lookup_keep (h.kept found entry hentry) item.1 item.2
  old other hother := by
    rw [AList.lookup_insert_eq_none] at hother
    rw [State.keep,AList.lookup_insert_ne hother.1]
    exact h.old other hother.2
  new other first hfirst := by
    by_cases hother : other=item.1
    · subst hother
      rw [AList.lookup_insert] at hfirst
      obtain rfl := Option.some.inj hfirst
      exact ⟨hnew,item,ref,hitem,AList.lookup_insert _,AList.lookup_insert _⟩
    · rw [AList.lookup_insert_ne hother] at hfirst
      obtain ⟨hnone,leader,found,hleader,hcont,hentry⟩ := h.new other first hfirst
      refine ⟨hnone,leader,found,hleader,?_,hidx.lookup_keep hentry item.1 item.2⟩
      rw [State.keep,AList.lookup_insert_ne hother]
      exact hcont

theorem Leading.known {id : Id} {known : ℕ} (h : Leading original group firstNew current)
    (hknown : original.byContent.lookup id=some known) :
    current.byContent.lookup id=some known := by
  refine (h.old id (Option.eq_none_iff_forall_ne_some.2 fun first hfirst => ?_)).trans hknown
  rw [(h.new id first hfirst).1] at hknown
  cases hknown

/-- Under the alias of each value stand its own bytes. -/
theorem keepAll_contents {result : List Placement × Table Id ℕ × ℕ}
    (hplace : placeLoop original faults group items index firstNew incoming=.ok result)
    (hlead : Leading original group firstNew current) (hidx : Indexed current ref)
    (hitems : group.drop index=items) :
    List.Forall₂ (fun item found => ∃ content,
      (keepAll items ref current).state.byAlias.lookup found=some ⟨item.1,content⟩ ∧
        content.stored=item.2.stored) items (keepAll items ref current).refs := by
  obtain ⟨placements,firstNew',incoming'⟩ := result
  induction items generalizing index firstNew incoming placements ref current with
  | nil => exact .nil
  | cons item items ih =>
    have hitem : group[index]?=some item := by
      rw [← List.head?_drop,hitems,List.head?_cons]
    have hrestItems : group.drop (index+1)=items := by
      rw [← List.tail_drop,hitems,List.tail_cons]
    obtain ⟨known,existing,rest,hknown,hentry,hsame,rfl,hrest⟩ |
        ⟨first,leader,rest,-,hfirst,hleader,hsame,rfl,hrest⟩ |
        ⟨rest,hnew,hfirst,rfl,hrest⟩ := placeLoop_cons hplace
    · have hcur := hlead.known hknown
      obtain ⟨content,hlook⟩ := (hidx.inverse item.1 known).1 hcur
      have hexisting := hlead.kept known existing hentry
      rw [hlook] at hexisting
      obtain rfl := Option.some.inj hexisting
      rw [keepAll_known hcur]
      exact .cons ⟨content,keepAll_lookup hidx hlook,equals_true hsame⟩
        (ih hlead hidx hrestItems _ hrest)
    · obtain ⟨-,leader',found,hleader',hcur,hlook⟩ := hlead.new item.1 first hfirst
      rw [hleader] at hleader'
      obtain rfl := Option.some.inj hleader'
      rw [keepAll_known hcur]
      exact .cons ⟨leader.2,keepAll_lookup hidx hlook,equals_true hsame⟩
        (ih hlead hidx hrestItems _ hrest)
    · have hcur : current.byContent.lookup item.1=none := by
        rw [hlead.old item.1 hfirst,hnew]
      have hkept := hidx.keep hcur item.2
      have hlook : (current.keep ref item.1 item.2).byAlias.lookup ref=some ⟨item.1,item.2⟩ :=
        AList.lookup_insert _
      rw [keepAll_new hcur]
      exact .cons ⟨item.2,keepAll_lookup hkept hlook,rfl⟩
        (ih (hlead.insert hidx hnew hitem) hkept hrestItems _ hrest)

/-- Every entry is an old one or one of the values, under a new alias. -/
theorem keepAll_entries {state : State Id} {entry : Entry Id}
    (h : (keepAll items ref state).state.byAlias.lookup found=some entry) :
    state.byAlias.lookup found=some entry ∨
      ref ≤ found ∧ (entry.contentId,entry.content)∈items := by
  fun_induction keepAll items ref state with
  | case1 => exact .inl h
  | case2 item items ref state known hlook ih =>
    exact (ih h).imp_right (And.imp_right (List.mem_cons_of_mem item))
  | case3 item items ref state hlook ih =>
    obtain hkept | ⟨hnew,hmem⟩ := ih h
    · rw [State.keep] at hkept
      by_cases hfound : found=ref
      · subst hfound
        rw [AList.lookup_insert,Option.some.injEq] at hkept
        subst hkept
        exact .inr ⟨le_rfl,List.mem_cons_self⟩
      · rw [AList.lookup_insert_ne hfound] at hkept
        exact .inl hkept
    · exact .inr ⟨Nat.le_of_succ_le hnew,List.mem_cons_of_mem item hmem⟩

/-! ## A retention as a whole -/

/-- The entry stands for `bytes`. -/
structure Entry.Holds (hash : List UInt8 → Id) (entry : Entry Id) (bytes : List UInt8) : Prop where
  id : entry.contentId=hash bytes
  stored : entry.content.stored=bytes
  length : entry.content.length=bytes.length

/-- Every entry has the hash and the length of what it stores. -/
def Genuine (hash : List UInt8 → Id) (state : State Id) : Prop :=
  ∀ ref entry, state.byAlias.lookup ref=some entry → entry.Holds hash entry.content.stored

/-- A value that stands for `bytes`, unless it is refused for its reservation. -/
def Declares (hash : List UInt8 → Id) (address : ℕ) (value : PendingContent Id)
    (bytes : List UInt8) : Prop :=
  checkReservation address value=.ok () → value.content.stored=bytes ∧
    value.content.length=bytes.length ∧ ∀ id, value.contentId=some id → id=hash bytes

/-- What `contents` and their aliases have to do with the states before and after. -/
structure Retention (hash : List UInt8 → Id) (before after : State Id)
    (contents : List (List UInt8)) (refs : List ℕ) : Prop where
  kept : ∀ ref entry, before.byAlias.lookup ref=some entry →
    after.byAlias.lookup ref=some entry
  entries : ∀ ref entry, after.byAlias.lookup ref=some entry →
    before.byAlias.lookup ref=some entry ∨ before.nextAlias ≤ ref
  genuine : Genuine hash after
  next : before.nextAlias ≤ after.nextAlias
  indexed : Indexed after after.nextAlias
  held : List.Forall₂ (fun bytes ref => ∃ entry, after.byAlias.lookup ref=some entry ∧
    entry.Holds hash bytes) contents refs
  increasing : ∀ i j earlier later, i < j → refs[i]?=some earlier → refs[j]?=some later →
    before.nextAlias ≤ later → later∉refs.take j → earlier < later

variable {hash : List UInt8 → Id}

omit [DecidableEq Id] in
/-- The group that is looked up carries the hash of each content. -/
theorem examine_holds {pending : List (PendingContent Id)}
    (hdecl : List.Forall₂ (Declares hash store.address) pending contents)
    (h : examine hash store faults pending=.ok group) :
    List.Forall₂ (fun bytes item => Entry.Holds hash ⟨item.1,item.2⟩ bytes) contents group := by
  rw [examine,bind_unit_ok_iff,each_ok_iff] at h
  obtain ⟨hchk,hgroup⟩ := h
  generalize hstart : 0=start at hgroup
  clear hstart
  induction hdecl generalizing group start with
  | nil =>
    cases hgroup
    exact .nil
  | @cons value bytes pending contents hvalue hrest ih =>
    obtain ⟨hcheck,hchk⟩ := List.forall_mem_cons.1 hchk
    obtain ⟨hstor,hlen,hid⟩ := hvalue hcheck
    simp only [List.zipIdx_cons,List.mapM_cons,bind_ok_iff,pure_ok_iff] at hgroup
    obtain ⟨item,hitem,items,hitems,rfl⟩ := hgroup
    refine .cons ?_ (ih hchk _ hitems)
    cases hknown : value.contentId with
    | some id =>
      rw [identify,hknown] at hitem
      cases hitem
      exact ⟨hid id hknown,hstor,hlen⟩
    | none =>
      rw [identify,hknown] at hitem
      obtain ⟨id,hdig,hitem⟩ := (bind_ok_iff ..).1 hitem
      cases hitem
      refine ⟨?_,hstor,hlen⟩
      have hhash : id=hash value.content.stored := by
        unfold Content.digest at hdig
        split at hdig
        · exact (Except.ok.inj hdig).symm
        · rw [bind_unit_ok_iff] at hdig
          exact (Except.ok.inj hdig.2).symm
      rw [hhash,hstor]

theorem retention_retained {state : State Id} {limits : StoreLimits}
    {pending : List (PendingContent Id)} (hidx : Indexed state state.nextAlias)
    (hgen : Genuine hash state)
    (hgroup : List.Forall₂ (fun bytes item => Entry.Holds hash ⟨item.1,item.2⟩ bytes)
      contents group) (hadm : Admitted limits state faults pending group) :
    Retention hash state (retained state pending group) contents
      (keepAll group state.nextAlias state).refs := by
  obtain ⟨result,hplaced⟩ := hadm.placed
  have hspec := (keepAll_spec group hidx).1
  have hafter : Genuine hash (retained state pending group) := by
    intro ref entry hentry
    obtain hold | ⟨-,hmem⟩ := keepAll_entries hentry
    · exact hgen ref entry hold
    · obtain ⟨bytes,-,hholds⟩ := exists_mem_of_forall₂_right hgroup hmem
      rw [hholds.stored]
      exact hholds
  refine ⟨fun ref entry hentry => keepAll_lookup hidx hentry,?_,hafter,Nat.le_add_right _ _,
    ⟨hspec.inverse,hspec.refs,hspec.positive⟩,?_,?_⟩
  · exact fun ref entry hentry => (keepAll_entries hentry).imp_right And.left
  · refine forall₂_comp ?_ hgroup
      (keepAll_contents hplaced (leading_empty state group) hidx rfl)
    rintro bytes item ref hholds ⟨content,hentry,hstor⟩
    refine ⟨⟨item.1,content⟩,hentry,?_⟩
    have hsame : content.stored=bytes := hstor.trans hholds.stored
    exact ⟨hholds.id,hsame,by rw [(hafter ref _ hentry).length,hsame]⟩
  · exact fun i j earlier later hij hearlier hlater hnew hfirst =>
      keepAll_increasing hidx hlater hnew hfirst hij hearlier

theorem retention_nil {state : State Id} (hidx : Indexed state state.nextAlias)
    (hgen : Genuine hash state) : Retention hash state state [] [] :=
  ⟨fun _ _ h => h,fun _ _ h => .inl h,hgen,le_rfl,hidx,.nil,fun _ _ _ _ _ h => nomatch h⟩

omit [DecidableEq Id] in
theorem reservedBytes_eq (pending : List (PendingContent Id)) :
    reservedBytes pending=heldBytes (pending.filterMap PendingContent.reservation) := by
  induction pending with
  | nil => rfl
  | cons value pending ih =>
    rw [reservedBytes,List.map_cons,List.sum_cons,← reservedBytes,ih,List.filterMap_cons,
      PendingContent.reserved]
    cases value.reservation with
    | none => exact Nat.zero_add _
    | some reservation => rfl

/-- A retention that fails leaves the store as it was; one that succeeds settles the
reservations of its values. -/
theorem retainPending_spec {pending : List (PendingContent Id)} {held : List StoreReservation}
    (hbal : Balanced store.limits store.address store.state
      (pending.filterMap PendingContent.reservation++held)) (hgen : Genuine hash store.state)
    (hdecl : List.Forall₂ (Declares hash store.address) pending contents) (faults : ReadFaults)
    :
    (∃ error, retainPending hash store faults pending=(store.state,.error error)) ∨
    ∃ after refs, retainPending hash store faults pending=(after,.ok refs) ∧
      Retention hash store.state after contents refs ∧
      Balanced store.limits store.address after held := by
  obtain herror | ⟨rfl,heq⟩ | ⟨group,hexam,hadm,heq⟩ :=
    retainPending_cases hash store faults pending
  · exact .inl herror
  · cases hdecl
    exact .inr ⟨_,_,heq,retention_nil hbal.indexed hgen,hbal⟩
  · exact .inr ⟨_,_,heq,retention_retained hbal.indexed hgen
      (examine_holds hdecl hexam) hadm,hbal.retained hadm (reservedBytes_eq pending)⟩

end Ash.ResultStores
