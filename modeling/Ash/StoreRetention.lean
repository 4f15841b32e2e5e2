import Ash.ResultStores

/-! # Retention of a group

A group is retained as if its values were kept one after another.  The plan has excluded every
error before the first of them is kept. -/

namespace Ash.ResultStores
open KeyedTables Outcomes

variable {Id : Type} [DecidableEq Id]

/-! ## Keeping values one after another -/

/-- The state, the alias of each value, and the values that were new. -/
structure Kept (Id : Type) where
  state : State Id
  refs : List ℕ
  fresh : List (Id × Content)

def keepAll : List (Id × Content) → ℕ → State Id → Kept Id
  | [], _, state => ⟨state,[],[]⟩
  | item::items, ref, state =>
      match state.byContent.lookup item.1 with
      | some known =>
          ⟨(keepAll items ref state).state,known::(keepAll items ref state).refs,
            (keepAll items ref state).fresh⟩
      | none =>
          ⟨(keepAll items (ref+1) (state.keep ref item.1 item.2)).state,
            ref::(keepAll items (ref+1) (state.keep ref item.1 item.2)).refs,
            item::(keepAll items (ref+1) (state.keep ref item.1 item.2)).fresh⟩

def freshBytes (items : List (Id × Content)) : ℕ := (items.map fun item => item.2.length).sum

variable {state : State Id} {item : Id × Content} {items : List (Id × Content)} {ref : ℕ}

theorem keepAll_known {known : ℕ} (h : state.byContent.lookup item.1=some known) :
    keepAll (item::items) ref state=⟨(keepAll items ref state).state,
      known::(keepAll items ref state).refs,(keepAll items ref state).fresh⟩ := by
  rw [keepAll,h]

theorem keepAll_new (h : state.byContent.lookup item.1=none) :
    keepAll (item::items) ref state =
      ⟨(keepAll items (ref+1) (state.keep ref item.1 item.2)).state,
        ref::(keepAll items (ref+1) (state.keep ref item.1 item.2)).refs,
        item::(keepAll items (ref+1) (state.keep ref item.1 item.2)).fresh⟩ := by
  rw [keepAll,h]

/-! ## The plan -/

variable {original : State Id} {faults : ReadFaults} {group : List (Id × Content)}
  {index incoming incoming' : ℕ} {firstNew firstNew' : Table Id ℕ} {placements : List Placement}

omit [DecidableEq Id] in
theorem expectSame_ok {same : Except StoreError Bool} : expectSame same=.ok () ↔
    same=.ok true := by
  cases same with
  | error error => simp [expectSame]
  | ok same => cases same <;> simp [expectSame]

/-- How the first of the remaining values is placed. -/
theorem placeLoop_cons
    (h : placeLoop original faults group (item::items) index firstNew incoming =
      .ok (placements,firstNew',incoming')) :
    (∃ ref existing rest, original.byContent.lookup item.1=some ref ∧
      original.byAlias.lookup ref=some existing ∧
      existing.content.equals (faults.compare index) item.2=.ok true ∧
      placements=.existing ref::rest ∧
      placeLoop original faults group items (index+1) firstNew incoming =
        .ok (rest,firstNew',incoming')) ∨
    (∃ first leader rest, original.byContent.lookup item.1=none ∧
      firstNew.lookup item.1=some first ∧ group[first]?=some leader ∧
      leader.2.equals (faults.compare index) item.2=.ok true ∧
      placements=.new first::rest ∧
      placeLoop original faults group items (index+1) firstNew incoming =
        .ok (rest,firstNew',incoming')) ∨
    ∃ rest, original.byContent.lookup item.1=none ∧ firstNew.lookup item.1=none ∧
      placements=.new index::rest ∧
      placeLoop original faults group items (index+1) (firstNew.insert item.1 index)
        (incoming+item.2.length)=.ok (rest,firstNew',incoming') := by
  obtain ⟨id,content⟩ := item
  rw [placeLoop] at h
  cases hknown : original.byContent.lookup id with
  | some ref =>
    simp only [hknown] at h
    cases hentry : original.byAlias.lookup ref with
    | none =>
      simp only [hentry] at h
      cases h
    | some existing =>
      simp only [hentry,bind_ok_iff] at h
      obtain ⟨⟨⟩,hsame,⟨rest,firstNew'',incoming''⟩,hrest,heq⟩ := h
      cases heq
      exact .inl ⟨ref,existing,rest,rfl,hentry,expectSame_ok.1 hsame,rfl,hrest⟩
  | none =>
    simp only [hknown] at h
    cases hfirst : firstNew.lookup id with
    | some first =>
      simp only [hfirst] at h
      cases hleader : group[first]? with
      | none =>
        simp only [hleader] at h
        cases h
      | some leader =>
        simp only [hleader,bind_ok_iff] at h
        obtain ⟨⟨⟩,hsame,⟨rest,firstNew'',incoming''⟩,hrest,heq⟩ := h
        cases heq
        exact .inr (.inl ⟨first,leader,rest,rfl,rfl,hleader,expectSame_ok.1 hsame,rfl,hrest⟩)
    | none =>
      simp only [hfirst,bind_ok_iff] at h
      obtain ⟨⟨⟩,-,⟨rest,firstNew'',incoming''⟩,hrest,heq⟩ := h
      cases heq
      exact .inr (.inr ⟨rest,rfl,rfl,rfl,hrest⟩)

theorem placeLoop_size_le (h : placeLoop original faults group items index firstNew incoming =
    .ok (placements,firstNew',incoming')) : size firstNew ≤ size firstNew' := by
  induction items generalizing index firstNew incoming placements with
  | nil =>
    cases h
    exact le_rfl
  | cons item items ih =>
    obtain ⟨_,_,rest,-,-,-,-,hrest⟩ | ⟨_,_,rest,-,-,-,-,-,hrest⟩ |
        ⟨rest,-,hfirst,-,hrest⟩ := placeLoop_cons h
    · exact ih hrest
    · exact ih hrest
    · have hgrown := size_insert (AList.lookup_eq_none.1 hfirst) index
      have hle := ih hrest
      omega

/-- The values placed so far and the state they will lead to. -/
structure Linked (original : State Id) (firstNew : Table Id ℕ) (allocated : Table ℕ ℕ)
    (current : State Id) (index : ℕ) : Prop where
  old : ∀ id, firstNew.lookup id=none →
    current.byContent.lookup id=original.byContent.lookup id
  new : ∀ id first, firstNew.lookup id=some first → first < index ∧
    ∃ ref, allocated.lookup first=some ref ∧ current.byContent.lookup id=some ref
  known : ∀ id ref, original.byContent.lookup id=some ref → firstNew.lookup id=none

variable {allocated : Table ℕ ℕ} {current : State Id}

theorem linked_empty : Linked original ∅ ∅ original 0 where
  old _ _ := rfl
  new _ _ h := nomatch h
  known _ _ _ := rfl

theorem Linked.next (h : Linked original firstNew allocated current index) :
    Linked original firstNew allocated current (index+1) where
  old := h.old
  new id first hfirst := by
    obtain ⟨hlt,hrest⟩ := h.new id first hfirst
    exact ⟨Nat.lt_succ_of_lt hlt,hrest⟩
  known := h.known

theorem Linked.insert (h : Linked original firstNew allocated current index) {id : Id}
    (hnew : original.byContent.lookup id=none) (ref : ℕ) (content : Content) :
    Linked original (firstNew.insert id index) (allocated.insert index ref)
      (current.keep ref id content) (index+1) where
  old other hother := by
    rw [AList.lookup_insert_eq_none] at hother
    rw [State.keep,AList.lookup_insert_ne hother.1]
    exact h.old other hother.2
  new other first hfirst := by
    by_cases hother : other=id
    · subst hother
      rw [AList.lookup_insert] at hfirst
      obtain rfl := Option.some.inj hfirst
      exact ⟨Nat.lt_succ_self _,ref,AList.lookup_insert _,AList.lookup_insert _⟩
    · rw [AList.lookup_insert_ne hother] at hfirst
      obtain ⟨hlt,found,hallocated,hcur⟩ := h.new other first hfirst
      refine ⟨Nat.lt_succ_of_lt hlt,found,?_,?_⟩
      · rw [AList.lookup_insert_ne (Nat.ne_of_lt hlt)]
        exact hallocated
      · rw [State.keep,AList.lookup_insert_ne hother]
        exact hcur
  known other ref' hother := by
    have hne : other≠id := by
      rintro rfl
      rw [hnew] at hother
      cases hother
    rw [AList.lookup_insert_ne hne]
    exact h.known other ref' hother

/-- How the next value is placed, seen from the state that the values so far lead to. -/
theorem Linked.placed (hlink : Linked original firstNew allocated current index)
    (hplace : placeLoop original faults group (item::items) index firstNew incoming =
      .ok (placements,firstNew',incoming')) :
    (∃ known rest, current.byContent.lookup item.1=some known ∧
      placements=.existing known::rest ∧
      placeLoop original faults group items (index+1) firstNew incoming =
        .ok (rest,firstNew',incoming')) ∨
    (∃ first known rest, first < index ∧ allocated.lookup first=some known ∧
      current.byContent.lookup item.1=some known ∧ placements=.new first::rest ∧
      placeLoop original faults group items (index+1) firstNew incoming =
        .ok (rest,firstNew',incoming')) ∨
    ∃ rest, current.byContent.lookup item.1=none ∧ original.byContent.lookup item.1=none ∧
      firstNew.lookup item.1=none ∧ placements=.new index::rest ∧
      placeLoop original faults group items (index+1) (firstNew.insert item.1 index)
        (incoming+item.2.length)=.ok (rest,firstNew',incoming') := by
  obtain ⟨known,existing,rest,hknown,-,-,hplacements,hrest⟩ |
      ⟨first,leader,rest,-,hfirst,-,-,hplacements,hrest⟩ |
      ⟨rest,hnew,hfirst,hplacements,hrest⟩ := placeLoop_cons hplace
  · refine .inl ⟨known,rest,?_,hplacements,hrest⟩
    rw [hlink.old item.1 (hlink.known item.1 known hknown),hknown]
  · obtain ⟨hlt,known,hallocated,hcur⟩ := hlink.new item.1 first hfirst
    exact .inr (.inl ⟨first,known,rest,hlt,hallocated,hcur,hplacements,hrest⟩)
  · refine .inr (.inr ⟨rest,?_,hnew,hfirst,hplacements,hrest⟩)
    rw [hlink.old item.1 hfirst,hnew]

section
variable
  (hplace : placeLoop original faults group items index firstNew incoming=.ok (placements,firstNew',incoming'))
  (hlink : Linked original firstNew allocated current index)
include hplace hlink

/-- The plan counts the values that are new. -/
theorem placeLoop_fresh (ref : ℕ) :
    size firstNew'=size firstNew+(keepAll items ref current).fresh.length ∧
      incoming'=incoming+freshBytes (keepAll items ref current).fresh := by
  induction items generalizing index firstNew incoming placements ref allocated current with
  | nil =>
    cases hplace
    exact ⟨rfl,rfl⟩
  | cons item items ih =>
    obtain ⟨known,rest,hcur,-,hrest⟩ | ⟨first,known,rest,-,-,hcur,-,hrest⟩ |
        ⟨rest,hcur,hnew,hfirst,-,hrest⟩ := hlink.placed hplace
    · rw [keepAll_known hcur]
      exact ih hrest hlink.next ref
    · rw [keepAll_known hcur]
      exact ih hrest hlink.next ref
    · have hgrown := size_insert (AList.lookup_eq_none.1 hfirst) index
      obtain ⟨hsize,hbytes⟩ := ih hrest (hlink.insert hnew ref item.2) (ref+1)
      rw [keepAll_new hcur]
      refine ⟨?_,?_⟩
      · rw [List.length_cons]
        omega
      · rw [hbytes,freshBytes,freshBytes,List.map_cons,List.sum_cons]
        omega

/-- The insertions succeed and keep the values one after another. -/
theorem allocateLoop_eq (hroom : ref+size firstNew' < 2 ^ 64+size firstNew) :
    allocateLoop (items.zip placements) index ref allocated current =
      ((keepAll items ref current).state,.ok ((keepAll items ref current).refs,
        ref+(keepAll items ref current).fresh.length)) := by
  induction items generalizing index firstNew incoming placements ref allocated current with
  | nil =>
    cases hplace
    rfl
  | cons item items ih =>
    obtain ⟨known,rest,hcur,rfl,hrest⟩ |
        ⟨first,known,rest,hlt,hallocated,hcur,rfl,hrest⟩ |
        ⟨rest,hcur,hnew,hfirst,rfl,hrest⟩ := hlink.placed hplace
    · rw [keepAll_known hcur,List.zip_cons_cons,allocateLoop,ih hrest hlink.next hroom]
      rfl
    · rw [keepAll_known hcur,List.zip_cons_cons,allocateLoop,if_pos (Nat.ne_of_lt hlt),
        hallocated,ih hrest hlink.next hroom]
      rfl
    · have hgrown := size_insert (AList.lookup_eq_none.1 hfirst) index
      have hnext := placeLoop_size_le hrest
      have hleft : ref+1+size firstNew' < 2 ^ 64+size (firstNew.insert item.1 index) := by
        omega
      rw [keepAll_new hcur,List.zip_cons_cons,allocateLoop,if_neg (by simp),if_pos (by omega),
        ih hrest (hlink.insert hnew ref item.2) hleft]
      simp only [prepend,Except.map,List.length_cons,Nat.add_assoc,Nat.add_comm 1]

end

/-! ## The commit -/

variable {limits : StoreLimits} {pending : List (PendingContent Id)}

def reservedBytes (pending : List (PendingContent Id)) : ℕ :=
  (pending.map PendingContent.reserved).sum

omit [DecidableEq Id] in
theorem sumReservations_ok_iff {total sum : ℕ} (htotal : total < 2 ^ 64) :
    sumReservations pending total=.ok sum ↔
      sum=total+reservedBytes pending ∧ total+reservedBytes pending < 2 ^ 64 := by
  induction pending generalizing total with
  | nil =>
    rw [sumReservations,Except.ok.injEq,eq_comm]
    exact ⟨fun h => ⟨h,htotal⟩,And.left⟩
  | cons value values ih =>
    have hsplit : total+reservedBytes (value::values) =
        total+value.reserved+reservedBytes values := by
      rw [reservedBytes,List.map_cons,List.sum_cons,← reservedBytes,Nat.add_assoc]
    rw [sumReservations,hsplit]
    by_cases hfits : total+value.reserved < 2 ^ 64
    · rw [if_pos hfits,ih hfits]
    · rw [if_neg hfits]
      simp only [reduceCtorEq,false_iff,not_and]
      omega

theorem plan_ok_iff {plan : Plan} :
    ResultStores.plan limits state faults pending group=.ok plan ↔
    reservedBytes pending < 2 ^ 64 ∧ reservedBytes pending ≤ state.pendingBytes ∧
    ∃ firstNew, placeLoop state faults group group 0 ∅ 0 =
        .ok (plan.placements,firstNew,plan.incoming) ∧
      plan.pendingAfter=state.pendingBytes - reservedBytes pending ∧
      state.bytes+plan.pendingAfter+plan.incoming < 2 ^ 64 ∧
      state.bytes+plan.pendingAfter+plan.incoming ≤ limits.maxBytes ∧
      size state.byAlias+size firstNew ≤ limits.maxEntries ∧
      state.nextAlias+size firstNew < 2 ^ 64 ∧
      plan.nextAlias=state.nextAlias+size firstNew := by
  obtain ⟨placements,incoming,nextAlias,pendingAfter⟩ := plan
  rw [ResultStores.plan,bind_ok_iff]
  simp only [sumReservations_ok_iff (Nat.two_pow_pos 64),Nat.zero_add]
  constructor
  · rintro ⟨_,⟨rfl,hsum⟩,h⟩
    simp only [bind_ok_iff,require_ok_iff] at h
    obtain ⟨_,hle,⟨placements,firstNew,incoming⟩,hplace,_,-,_,hsmall,_,hbytes,_,hents,_,hrefs,
      hplan⟩ := h
    cases hplan
    exact ⟨hsum,hle,firstNew,hplace,rfl,hsmall,hbytes,hents,hrefs,rfl⟩
  · rintro ⟨hsum,hle,firstNew,hplace,rfl,hsmall,hbytes,hents,hrefs,rfl⟩
    refine ⟨_,⟨rfl,hsum⟩,?_⟩
    simp only [bind_ok_iff,require_ok_iff]
    exact ⟨(),hle,_,hplace,(),by omega,(),hsmall,(),hbytes,(),hents,(),hrefs,rfl⟩

@[simp] theorem keepAll_bytes : (keepAll items ref state).state.bytes=state.bytes := by
  fun_induction keepAll items ref state with
  | case1 => rfl
  | case2 item items ref state known hlook ih => exact ih
  | case3 item items ref state hlook ih => exact ih

/-- The state after a group has been retained. -/
def retained (state : State Id) (pending : List (PendingContent Id))
    (group : List (Id × Content)) : State Id :=
  { (keepAll group state.nextAlias state).state with
    nextAlias := state.nextAlias+(keepAll group state.nextAlias state).fresh.length
    bytes := state.bytes+freshBytes (keepAll group state.nextAlias state).fresh
    pendingBytes := state.pendingBytes - reservedBytes pending }

/-- When a group is retained. -/
structure Admitted (limits : StoreLimits) (state : State Id) (faults : ReadFaults)
    (pending : List (PendingContent Id)) (group : List (Id × Content)) : Prop where
  placed : ∃ result, placeLoop state faults group group 0 ∅ 0=.ok result
  sum : reservedBytes pending < 2 ^ 64
  reserved : reservedBytes pending ≤ state.pendingBytes
  small : state.bytes+(state.pendingBytes - reservedBytes pending) +
    freshBytes (keepAll group state.nextAlias state).fresh < 2 ^ 64
  bytes : state.bytes+(state.pendingBytes - reservedBytes pending) +
    freshBytes (keepAll group state.nextAlias state).fresh ≤ limits.maxBytes
  entries : size state.byAlias+(keepAll group state.nextAlias state).fresh.length ≤
    limits.maxEntries
  refs : state.nextAlias+(keepAll group state.nextAlias state).fresh.length < 2 ^ 64

theorem placeLoop_new (h : placeLoop state faults group group 0 ∅ 0 =
    .ok (placements,firstNew,incoming)) :
    size firstNew=(keepAll group state.nextAlias state).fresh.length ∧
      incoming=freshBytes (keepAll group state.nextAlias state).fresh := by
  obtain ⟨hsize,hinc⟩ := placeLoop_fresh h linked_empty state.nextAlias
  rw [size_empty,Nat.zero_add] at hsize
  rw [Nat.zero_add] at hinc
  exact ⟨hsize,hinc⟩

theorem plan_ok {plan : Plan} (h : ResultStores.plan limits state faults pending group=.ok plan) :
    Admitted limits state faults pending group ∧
      commit limits state faults pending group =
        (retained state pending group,.ok (keepAll group state.nextAlias state).refs) := by
  unfold commit
  rw [h]
  obtain ⟨hsum,hresv,firstNew,hplace,hafter,hsmall,hbytes,hents,hrefs,hnext⟩ :=
    plan_ok_iff.1 h
  have hroom : state.nextAlias+size firstNew < 2 ^ 64+size (∅ : Table Id ℕ) := by
    rw [size_empty,Nat.add_zero]
    exact hrefs
  have hallocate := allocateLoop_eq hplace linked_empty hroom
  obtain ⟨hsize,hinc⟩ := placeLoop_new hplace
  have hfits : state.bytes+plan.incoming < 2 ^ 64 := by omega
  rw [hafter,hinc] at hsmall hbytes
  rw [hsize] at hents hrefs
  refine ⟨⟨⟨_,hplace⟩,hsum,hresv,hsmall,hbytes,hents,hrefs⟩,?_⟩
  simp only [hallocate,hnext,hsize,ne_eq,not_true_eq_false,if_false]
  rw [State.settle,keepAll_bytes,if_pos hfits,retained,hinc,hafter,hnext,hsize]
  rfl

theorem Admitted.exists_plan (h : Admitted limits state faults pending group) :
    ∃ plan, ResultStores.plan limits state faults pending group=.ok plan := by
  obtain ⟨⟨placements,firstNew,incoming⟩,hplace⟩ := h.placed
  obtain ⟨hsize,hinc⟩ := placeLoop_new hplace
  refine ⟨⟨placements,incoming,_,_⟩,plan_ok_iff.2 ⟨h.sum,h.reserved,firstNew,hplace,rfl,?_,?_,?_,?_,
    rfl⟩⟩
  · rw [hinc]
    exact h.small
  · rw [hinc]
    exact h.bytes
  · rw [hsize]
    exact h.entries
  · rw [hsize]
    exact h.refs

theorem commit_cases (limits : StoreLimits) (state : State Id) (faults : ReadFaults)
    (pending : List (PendingContent Id)) (group : List (Id × Content)) :
    (∃ error, commit limits state faults pending group=(state,.error error)) ∨
    Admitted limits state faults pending group ∧
      commit limits state faults pending group =
        (retained state pending group,.ok (keepAll group state.nextAlias state).refs) := by
  cases hplan : plan limits state faults pending group with
  | error error =>
    refine .inl ⟨error,?_⟩
    rw [commit,hplan]
  | ok plan => exact .inr (plan_ok hplan)

theorem commit_ok_iff {refs : List ℕ} :
    (commit limits state faults pending group).2=.ok refs ↔
      Admitted limits state faults pending group ∧
        refs=(keepAll group state.nextAlias state).refs := by
  constructor
  · intro h
    obtain ⟨error,herror⟩ | ⟨hadm,heq⟩ := commit_cases limits state faults pending group
    · rw [herror] at h
      cases h
    · rw [heq] at h
      exact ⟨hadm,(Except.ok.inj h).symm⟩
  · rintro ⟨hadm,rfl⟩
    obtain ⟨plan,hplan⟩ := hadm.exists_plan
    rw [(plan_ok hplan).2]

theorem retainPending_cases (hash : List UInt8 → Id) (store : ResultStore Id) (faults : ReadFaults)
    (pending : List (PendingContent Id)) :
    (∃ error, retainPending hash store faults pending=(store.state,.error error)) ∨
    (pending=[] ∧ retainPending hash store faults pending=(store.state,.ok [])) ∨
    ∃ group, examine hash store faults pending=.ok group ∧
      Admitted store.limits store.state faults pending group ∧
      retainPending hash store faults pending=(retained store.state pending group,
        .ok (keepAll group store.state.nextAlias store.state).refs) := by
  unfold retainPending
  split_ifs with hempty
  · exact .inr (.inl ⟨hempty,rfl⟩)
  · cases hexam : examine hash store faults pending with
    | error error => exact .inl ⟨error,rfl⟩
    | ok group =>
      obtain ⟨error,hcommit⟩ | ⟨hadm,hcommit⟩ :=
        commit_cases store.limits store.state faults pending group
      · exact .inl ⟨error,hcommit⟩
      · exact .inr (.inr ⟨group,rfl,hadm,hcommit⟩)

variable {hash : List UInt8 → Id} {store : ResultStore Id}

theorem retainPending_error {error : StoreError}
    (h : (retainPending hash store faults pending).2=.error error) :
    (retainPending hash store faults pending).1=store.state := by
  obtain ⟨_,heq⟩ | ⟨-,heq⟩ | ⟨_,-,-,heq⟩ := retainPending_cases hash store faults pending
  · rw [heq]
  · rw [heq]
  · rw [heq] at h
    cases h

theorem retainMany_error {error : StoreError} {spoolFault : Bool} {contents : List (List UInt8)}
    (h : (retainMany hash store spoolFault faults contents).2=.error error) :
    (retainMany hash store spoolFault faults contents).1=store.state := by
  unfold retainMany at h ⊢
  split at h
  · rfl
  · exact retainPending_error h

/-! ## Dropping the captures of a failed group -/

/-- The destructors of reservations run one after another. -/
def dropAll (store : ResultStore Id) : List StoreReservation → ResultStore Id
  | [] => store
  | reservation::reservations =>
      dropAll { store with state := dropReservation store reservation } reservations

def ownBytes (address : ℕ) (reservations : List StoreReservation) : ℕ :=
  ((reservations.filter fun reservation => reservation.store=address).map
    StoreReservation.bytes).sum

omit [DecidableEq Id] in
theorem dropAll_eq (store : ResultStore Id) (reservations : List StoreReservation) :
    dropAll store reservations = { store with
      state := { store.state with
        pendingBytes := store.state.pendingBytes - ownBytes store.address reservations } } := by
  induction reservations generalizing store with
  | nil => rfl
  | cons reservation reservations ih =>
    rw [dropAll,ih,ownBytes,ownBytes,dropReservation]
    by_cases hown : reservation.store=store.address
    · simp [hown,Nat.sub_sub]
    · simp [hown]

end Ash.ResultStores
