import Ash.StoreRetention
import Mathlib.Data.List.Perm.Subperm

/-! # Runs of a result store

Captures, retentions, leases and releases in any order.  What the live reservations hold is
what the store counts as pending. -/

namespace Ash.ResultStores
open KeyedTables Outcomes

variable {Id : Type}

/-! ## The index -/

/-- The two maps are inverse to each other, and every alias lies below the next one. -/
structure Indexed [DecidableEq Id] (state : State Id) (next : ℕ) : Prop where
  inverse : ∀ id ref, state.byContent.lookup id=some ref ↔
    ∃ content, state.byAlias.lookup ref=some ⟨id,content⟩
  refs : ∀ ref entry, state.byAlias.lookup ref=some entry → 0 < ref ∧ ref < next
  positive : 0 < next

def retainedBytes (state : State Id) : ℕ := total (fun entry => entry.content.length) state.byAlias

variable [DecidableEq Id] {state : State Id} {items : List (Id × Content)} {ref : ℕ}

theorem Indexed.not_mem (h : Indexed state ref) : ref∉state.byAlias := by
  intro hmem
  obtain ⟨entry,hentry⟩ := Option.isSome_iff_exists.1 (AList.lookup_isSome.2 hmem)
  exact Nat.lt_irrefl _ (h.refs ref entry hentry).2

theorem Indexed.keep (h : Indexed state ref) {id : Id} (hnew : state.byContent.lookup id=none)
    (content : Content) : Indexed (state.keep ref id content) (ref+1) where
  inverse other found := by
    rw [State.keep]
    by_cases hother : other=id
    · subst hother
      rw [AList.lookup_insert,Option.some.injEq]
      by_cases hfound : found=ref
      · subst hfound
        rw [AList.lookup_insert]
        simp
      · rw [AList.lookup_insert_ne hfound,← h.inverse,hnew]
        simp [Ne.symm hfound]
    · rw [AList.lookup_insert_ne hother,h.inverse]
      by_cases hfound : found=ref
      · subst hfound
        rw [AList.lookup_insert,AList.lookup_eq_none.2 h.not_mem]
        simp [Ne.symm hother]
      · rw [AList.lookup_insert_ne hfound]
  refs found entry hentry := by
    rw [State.keep] at hentry
    by_cases hfound : found=ref
    · subst hfound
      exact ⟨h.positive,Nat.lt_succ_self _⟩
    · rw [AList.lookup_insert_ne hfound] at hentry
      obtain ⟨hpos,hlt⟩ := h.refs found entry hentry
      exact ⟨hpos,Nat.lt_succ_of_lt hlt⟩
  positive := Nat.succ_pos _

theorem Indexed.retainedBytes_keep (h : Indexed state ref) (id : Id) (content : Content) :
    retainedBytes (state.keep ref id content)=retainedBytes state+content.length :=
  total_insert _ h.not_mem _

theorem Indexed.size_keep (h : Indexed state ref) (id : Id) (content : Content) :
    size (state.keep ref id content).byAlias=size state.byAlias+1 :=
  size_insert h.not_mem _

/-- What keeping values one after another preserves, and what it adds. -/
theorem keepAll_spec (items : List (Id × Content)) (h : Indexed state ref) :
    Indexed (keepAll items ref state).state (ref+(keepAll items ref state).fresh.length) ∧
      retainedBytes (keepAll items ref state).state =
        retainedBytes state+freshBytes (keepAll items ref state).fresh ∧
      size (keepAll items ref state).state.byAlias =
        size state.byAlias+(keepAll items ref state).fresh.length := by
  fun_induction keepAll items ref state with
  | case1 => exact ⟨h,rfl,rfl⟩
  | case2 item items ref state known hlook ih => exact ih h
  | case3 item items ref state hlook ih =>
    obtain ⟨hidx,hbytes,hsize⟩ := ih (h.keep hlook item.2)
    refine ⟨?_,?_,?_⟩
    · rwa [Nat.add_assoc,Nat.add_comm 1] at hidx
    · rw [hbytes,h.retainedBytes_keep,freshBytes,freshBytes,List.map_cons,List.sum_cons,
        Nat.add_assoc]
    · rw [hsize,h.size_keep,List.length_cons,Nat.add_assoc,Nat.add_comm 1]

/-! ## The balance -/

def heldBytes (held : List StoreReservation) : ℕ := (held.map StoreReservation.bytes).sum

/-- A store and the live reservations that have not been committed. -/
structure Balanced (limits : StoreLimits) (address : ℕ) (state : State Id)
    (held : List StoreReservation) : Prop where
  indexed : Indexed state state.nextAlias
  bytes : state.bytes=retainedBytes state
  pending : state.pendingBytes=heldBytes held
  own : ∀ reservation∈held, reservation.store=address
  quota : state.bytes+state.pendingBytes ≤ limits.maxBytes
  entries : size state.byAlias ≤ limits.maxEntries

variable {limits : StoreLimits} {address : ℕ} {held held' : List StoreReservation}
  {reservation : StoreReservation}

theorem balanced_new (limits : StoreLimits) (address : ℕ) :
    Balanced limits address (State.new : State Id) [] where
  indexed := ⟨fun id ref => by simp [State.new],fun ref entry h => (nomatch h),Nat.one_pos⟩
  bytes := rfl
  pending := rfl
  own _ h := absurd h List.not_mem_nil
  quota := Nat.zero_le _
  entries := Nat.zero_le _

theorem Balanced.perm (h : Balanced limits address state held) (hperm : held.Perm held') :
    Balanced limits address state held' where
  indexed := h.indexed
  bytes := h.bytes
  pending := h.pending.trans (hperm.map StoreReservation.bytes).sum_nat
  own reservation hmem := h.own reservation (hperm.mem_iff.2 hmem)
  quota := h.quota
  entries := h.entries

theorem Balanced.drop {store : ResultStore Id}
    (h : Balanced limits store.address store.state (reservation::held)) :
    Balanced limits store.address (dropReservation store reservation) held := by
  have hown := h.own reservation List.mem_cons_self
  have hpend := h.pending
  have hquota := h.quota
  rw [heldBytes,List.map_cons,List.sum_cons] at hpend
  rw [dropReservation,if_pos hown]
  refine ⟨⟨h.indexed.inverse,h.indexed.refs,h.indexed.positive⟩,h.bytes,?_,?_,?_,h.entries⟩
  · rw [hpend,heldBytes,Nat.add_sub_cancel_left]
  · exact fun other hother => h.own other (List.mem_cons_of_mem _ hother)
  · simp only
    omega

/-- A capture begins without a reservation. -/
theorem Balanced.capture (h : Balanced limits address state held) :
    Balanced limits address state (⟨address,0⟩::held) where
  indexed := h.indexed
  bytes := h.bytes
  pending := h.pending.trans (Nat.zero_add _).symm
  own := List.forall_mem_cons.2 ⟨rfl,h.own⟩
  quota := h.quota
  entries := h.entries

def State.charged (state : State Id) (bytes : ℕ) : State Id :=
  { state with pendingBytes := state.pendingBytes+bytes }

def StoreReservation.charged (reservation : StoreReservation) (bytes : ℕ) : StoreReservation :=
  { reservation with bytes := reservation.bytes+bytes }

/-- The quota has room for so many bytes. -/
def State.HasRoom (limits : StoreLimits) (state : State Id) (bytes : ℕ) : Prop :=
  bytes=0 ∨ state.bytes+state.pendingBytes+bytes ≤ limits.maxBytes

theorem Balanced.charged (h : Balanced limits address state (reservation::held)) {bytes : ℕ}
    (hroom : state.HasRoom limits bytes) :
    Balanced limits address (state.charged bytes) (reservation.charged bytes::held) := by
  have hpend := h.pending
  have hquota := h.quota
  refine ⟨⟨h.indexed.inverse,h.indexed.refs,h.indexed.positive⟩,h.bytes,?_,?_,?_,h.entries⟩
  · simp only [State.charged,StoreReservation.charged,heldBytes,List.map_cons,List.sum_cons]
      at hpend ⊢
    omega
  · exact List.forall_mem_cons.2 (List.forall_mem_cons.1 h.own)
  · simp only [State.charged,State.HasRoom] at hroom ⊢
    omega

omit [DecidableEq Id] in
/-- A reservation is refused, or it grows by what is asked for. -/
theorem reserve_cases (limits : StoreLimits) (state : State Id) (reservation : StoreReservation)
    (incoming : ℕ) :
    (∃ error, reserve limits state reservation incoming=(state,reservation,.error error)) ∨
    state.HasRoom limits incoming ∧ reserve limits state reservation incoming =
      (state.charged incoming,reservation.charged incoming,.ok ()) := by
  unfold reserve
  split
  · next hzero =>
    subst hzero
    exact .inr ⟨.inl rfl,rfl⟩
  · cases hcheck : checkReserve limits state reservation incoming with
    | error error => exact .inl ⟨error,rfl⟩
    | ok _ =>
      simp only [checkReserve,bind_unit_ok_iff,require_ok_iff] at hcheck
      exact .inr ⟨.inr hcheck.2.2.2,rfl⟩

theorem spill_reservation (capture : StoreCapture) (reservation : StoreReservation)
    (bytes chunk : List UInt8) (fault : AppendFault) :
    (spill capture reservation bytes chunk fault).1.reservation=reservation := by
  cases fault <;> rfl

theorem extend_reservation (capture : StoreCapture) (reservation : StoreReservation)
    (stored : List UInt8) (sample : CaptureSample) (chunk : List UInt8) (fault : AppendFault) :
    (extend capture reservation stored sample chunk fault).1.reservation=reservation := by
  cases fault <;> rfl

omit [DecidableEq Id] in
/-- What an append can do: nothing, grow the bytes in memory, spill them, or extend the file. -/
theorem append_cases (limits : StoreLimits) (state : State Id) (capture : StoreCapture)
    (chunk : List UInt8) (fault : AppendFault) :
    (∃ result, append limits state capture chunk fault=(state,capture,result) ∧
      (result=.ok () → chunk=[])) ∨
    (∃ bytes, capture.state=.memory bytes ∧
      capture.length+chunk.length ≤ capture.memoryLimit ∧
      append limits state capture chunk fault=(state,{ capture with
        length := capture.length+chunk.length
        state := .memory (bytes++chunk) },.ok ())) ∨
    (∃ bytes, capture.state=.memory bytes ∧
      capture.memoryLimit < capture.length+chunk.length ∧
      state.HasRoom limits (capture.length+chunk.length) ∧
      append limits state capture chunk fault=(state.charged (capture.length+chunk.length),
        spill capture (capture.reservation.charged (capture.length+chunk.length)) bytes chunk
          fault)) ∨
    ∃ stored sample, capture.state=.disk stored sample ∧ chunk≠[] ∧
      state.HasRoom limits chunk.length ∧
      append limits state capture chunk fault=(state.charged chunk.length,
        extend capture (capture.reservation.charged chunk.length) stored sample chunk fault) := by
  unfold append
  cases hstate : capture.state with
  | memory bytes =>
    simp only
    split_ifs with hempty hlarge hfits hfault
    · exact .inl ⟨_,rfl,fun _ => hempty⟩
    · exact .inl ⟨_,rfl,nofun⟩
    · exact .inl ⟨_,rfl,nofun⟩
    · exact .inr (.inl ⟨bytes,rfl,hfits,rfl⟩)
    obtain ⟨error,hrsv⟩ | ⟨hroom,hrsv⟩ :=
      reserve_cases limits state capture.reservation (capture.length+chunk.length)
    · rw [hrsv]
      exact .inl ⟨_,rfl,nofun⟩
    · rw [hrsv]
      exact .inr (.inr (.inl ⟨bytes,rfl,Nat.lt_of_not_le hfits,hroom,rfl⟩))
  | disk stored sample =>
    simp only
    split_ifs with hempty hlarge
    · exact .inl ⟨_,rfl,fun _ => hempty⟩
    · exact .inl ⟨_,rfl,nofun⟩
    obtain ⟨error,hrsv⟩ | ⟨hroom,hrsv⟩ :=
      reserve_cases limits state capture.reservation chunk.length
    · rw [hrsv]
      exact .inl ⟨_,rfl,nofun⟩
    · rw [hrsv]
      exact .inr (.inr (.inr ⟨stored,sample,rfl,hempty,hroom,rfl⟩))

theorem Balanced.append {capture : StoreCapture}
    (h : Balanced limits address state (capture.reservation::held)) (chunk : List UInt8)
    (fault : AppendFault) :
    Balanced limits address (ResultStores.append limits state capture chunk fault).1
      ((ResultStores.append limits state capture chunk fault).2.1.reservation::held) := by
  obtain ⟨result,heq,-⟩ | ⟨bytes,-,-,heq⟩ | ⟨bytes,-,-,hroom,heq⟩ |
      ⟨stored,sample,-,-,hroom,heq⟩ := append_cases limits state capture chunk fault
  · rw [heq]
    exact h
  · rw [heq]
    exact h
  · rw [heq,spill_reservation]
    exact h.charged hroom
  · rw [heq,extend_reservation]
    exact h.charged hroom

theorem Balanced.retained {faults : ReadFaults} {pending : List (PendingContent Id)}
    {group : List (Id × Content)} {batch : List StoreReservation}
    (h : Balanced limits address state (batch++held))
    (hadm : Admitted limits state faults pending group)
    (hbatch : reservedBytes pending=heldBytes batch) :
    Balanced limits address (ResultStores.retained state pending group) held := by
  obtain ⟨hidx,hbytes,hsize⟩ := keepAll_spec group h.indexed
  have hpend := h.pending
  rw [heldBytes,List.map_append,List.sum_append,← heldBytes,← heldBytes] at hpend
  refine ⟨⟨hidx.inverse,hidx.refs,hidx.positive⟩,?_,?_,?_,?_,?_⟩
  · rw [ResultStores.retained,h.bytes]
    exact hbytes.symm
  · rw [ResultStores.retained,hbatch,hpend,Nat.add_sub_cancel_left]
  · exact fun reservation hmem => h.own reservation (List.mem_append_right _ hmem)
  · have hfits := hadm.bytes
    simp only [ResultStores.retained]
    omega
  · exact Nat.le_trans (Nat.le_of_eq hsize) hadm.entries

/-! ## Releases -/

/-- The state without an alias. -/
def released (state : State Id) (ref : ℕ) (entry : Entry Id) : State Id :=
  { state with
    byAlias := state.byAlias.erase ref
    byContent := state.byContent.erase entry.contentId
    bytes := state.bytes - entry.content.length }

theorem Balanced.length_le {entry : Entry Id} (h : Balanced limits address state held)
    (hentry : state.byAlias.lookup ref=some entry) : entry.content.length ≤ state.bytes := by
  have htotal := total_erase (fun entry : Entry Id => entry.content.length) hentry
  have hbytes := h.bytes
  rw [retainedBytes] at hbytes
  omega

theorem Balanced.release_cases (h : Balanced limits address state held) (leases : ℕ) :
    (∃ error, release state leases ref=(state,.error error) ∧ error≠.invariant) ∨
    ∃ entry, state.byAlias.lookup ref=some entry ∧ leases=0 ∧
      release state leases ref=(released state ref entry,.ok ()) := by
  unfold release
  cases hentry : state.byAlias.lookup ref with
  | none => exact .inl ⟨_,rfl,nofun⟩
  | some entry =>
    simp only [if_pos (h.length_le hentry)]
    split_ifs with hleases
    · exact .inl ⟨_,rfl,nofun⟩
    · exact .inr ⟨entry,rfl,not_not.1 hleases,rfl⟩

theorem Indexed.released {entry : Entry Id} {next : ℕ} (h : Indexed state next)
    (hentry : state.byAlias.lookup ref=some entry) :
    Indexed (ResultStores.released state ref entry) next where
  inverse id found := by
    have hcont := (h.inverse entry.contentId ref).2 ⟨entry.content,hentry⟩
    simp only [ResultStores.released]
    by_cases hid : id=entry.contentId
    · subst hid
      rw [AList.lookup_erase]
      refine iff_of_false (fun heq => nomatch heq) ?_
      rintro ⟨content,hfound⟩
      obtain ⟨hne,hfound⟩ := lookup_of_erase hfound
      have hother := (h.inverse _ found).2 ⟨content,hfound⟩
      rw [hcont] at hother
      exact hne (Option.some.inj hother).symm
    · rw [AList.lookup_erase_ne hid,h.inverse]
      by_cases hfound : found=ref
      · subst hfound
        rw [AList.lookup_erase,hentry]
        refine iff_of_false ?_ (by simp)
        rintro ⟨content,heq⟩
        rw [Option.some.inj heq] at hid
        exact hid rfl
      · rw [AList.lookup_erase_ne hfound]
  refs found other hother := h.refs found other (lookup_of_erase hother).2
  positive := h.positive

theorem Balanced.released {entry : Entry Id} (h : Balanced limits address state held)
    (hentry : state.byAlias.lookup ref=some entry) :
    Balanced limits address (ResultStores.released state ref entry) held := by
  have htotal := total_erase (fun entry : Entry Id => entry.content.length) hentry
  have hbytes := h.bytes
  have hquota := h.quota
  refine ⟨h.indexed.released hentry,?_,h.pending,h.own,?_,?_⟩
  · simp only [retainedBytes,ResultStores.released] at hbytes ⊢
    omega
  · simp only [ResultStores.released]
    omega
  · exact Nat.le_trans (size_erase_le ref state.byAlias) h.entries

end Ash.ResultStores
