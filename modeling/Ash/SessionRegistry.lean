import Ash.KeyedTables

/-! # The registry of active requests

Registrations, programs and their children share the entry of a request.  Calls run together;
each access to the map is one step. -/

namespace Ash.SessionRegistry
open KeyedTables Relation

inductive EngineError where
  | sessionClosed
  | duplicateRequest (id : UInt64)
  deriving DecidableEq

/-- How far the owner of an entry has come: a registration, one that waits for its permit, one
whose destructor runs, or the lease of programs and children. -/
inductive Stage where
  | registered
  | starting
  | dropping
  | leased (programs : ℕ)
  deriving DecidableEq

structure Owner where
  requestId : UInt64
  cancellation : ℕ
  stage : Stage
  deriving DecidableEq

/-- A session and the calls on it.  `entering` are the registrations that have found the
session open and do not have the lock yet; `closing` are the calls of `close` that have set the
flag and not yet cancelled; `closes` are those that have returned. -/
structure Session where
  closed : Bool
  active : Table UInt64 ℕ
  cancelled : List ℕ
  tokens : ℕ
  entering : List (UInt64 × ℕ)
  owners : List Owner
  closing : ℕ
  closes : ℕ

def Session.opened : Session := ⟨false,∅,[],0,[],[],0,0⟩

/-- The look at the flag with which `register` begins. -/
def Session.checkOpen (session : Session) : Except EngineError Unit :=
  if session.closed then .error .sessionClosed else .ok ()

def Session.enter (session : Session) (id : UInt64) : Session :=
  { session with
    tokens := session.tokens+1
    entering := session.entering++[(id,session.tokens)] }

def Session.leave (session : Session) (call : UInt64 × ℕ) : Session :=
  { session with entering := session.entering.erase call }

def Session.insert (session : Session) (call : UInt64 × ℕ) : Session :=
  { session with
    active := session.active.insert call.1 call.2
    owners := ⟨call.1,call.2,.registered⟩::session.owners }

/-- What `register` does under the lock. -/
def Session.register (session : Session) (call : UInt64 × ℕ) : Except EngineError Session := do
  session.checkOpen
  if call.1∈session.active then .error (.duplicateRequest call.1)
  else .ok (session.insert call)

def Session.cancel (session : Session) (id : UInt64) : Session :=
  { session with cancelled := session.cancelled++(session.active.lookup id).toList }

/-- The flag is set by the first call, which goes on; every other call returns. -/
def Session.beginClose (session : Session) : Session :=
  if session.closed then { session with closes := session.closes+1 }
  else { session with closed := true, closing := session.closing+1 }

def Session.finishClose (session : Session) : Session :=
  { session with
    cancelled := session.cancelled++session.active.entries.map Sigma.snd
    closing := session.closing - 1
    closes := session.closes+1 }

def Session.replace (session : Session) (owner : Owner) (stage : Stage) : Session :=
  { session with owners := { owner with stage }::session.owners.erase owner }

def Session.unregister (session : Session) (owner : Owner) : Session :=
  { session with
    active := session.active.erase owner.requestId
    owners := session.owners.erase owner }

/-- What can become of the owner of an entry while the entry stays. -/
inductive Stage.Next : Stage → Stage → Prop
  | start : Next .registered .starting
  | dropRegistered : Next .registered .dropping
  | acquire : Next .starting (.leased 1)
  | refuse : Next .starting .dropping
  | child {programs} : Next (.leased (programs+1)) (.leased (programs+2))
  | dropProgram {programs} : Next (.leased (programs+1)) (.leased programs)

/-- The destructor is about to remove the entry. -/
def Stage.Ended (stage : Stage) : Prop := stage=.dropping ∨ stage=.leased 0

inductive Step : Session → Session → Prop
  | enter {session} (id : UInt64) : session.checkOpen=.ok () → Step session (session.enter id)
  | withdraw {session call} : call∈session.entering → Step session (session.leave call)
  | register {session next call} : call∈session.entering →
      session.register call=.ok next → Step session (next.leave call)
  | reject {session call error} : call∈session.entering → session.register call=.error error →
      Step session (session.leave call)
  | proceed {session owner stage} : owner∈session.owners →
      owner.stage.Next stage → Step session (session.replace owner stage)
  | unregister {session owner} : owner∈session.owners →
      owner.stage.Ended → Step session (session.unregister owner)
  | cancel {session} (id : UInt64) : Step session (session.cancel id)
  | beginClose {session} : Step session session.beginClose
  | finishClose {session} : 0 < session.closing → Step session session.finishClose

/-! ## Owners and entries -/

/-- Every entry has one owner, and every owner its entry with its own token. -/
structure Owned (session : Session) : Prop where
  ids : (session.owners.map Owner.requestId).Nodup
  active : ∀ id token, session.active.lookup id=some token ↔
    ∃ owner∈session.owners, owner.requestId=id ∧ owner.cancellation=token
  tokens : (session.owners.map Owner.cancellation++session.entering.map Prod.snd).Nodup
  bound : ∀ token∈session.owners.map Owner.cancellation++session.entering.map Prod.snd,
    token < session.tokens

variable {session next : Session}

theorem owned_opened : Owned .opened where
  ids := List.nodup_nil
  active id token := by simp [Session.opened]
  tokens := List.nodup_nil
  bound _ h := absurd h List.not_mem_nil

theorem Owned.eq_of_requestId (h : Owned session) {owner other : Owner}
    (howner : owner∈session.owners) (hother : other∈session.owners)
    (heq : owner.requestId=other.requestId) : owner=other :=
  List.inj_on_of_nodup_map h.ids howner hother heq

theorem checkOpen_ok : session.checkOpen=.ok () ↔ session.closed=false := by
  unfold Session.checkOpen
  cases session.closed <;> simp

theorem register_ok {call : UInt64 × ℕ} : session.register call=.ok next ↔
    session.closed=false ∧ call.1∉session.active ∧ next=session.insert call := by
  unfold Session.register Session.checkOpen
  cases hclosed : session.closed with
  | true => simp [bind,Except.bind]
  | false =>
    by_cases hmem : call.1∈session.active
    · simp [hmem,bind,Except.bind]
    · simp [hmem,bind,Except.bind,eq_comm]

theorem Owned.enter (h : Owned session) (id : UInt64) : Owned (session.enter id) where
  ids := h.ids
  active := h.active
  tokens := by
    have hnew : session.tokens ∉
        session.owners.map Owner.cancellation++session.entering.map Prod.snd := by
      intro hmem
      exact Nat.lt_irrefl _ (h.bound _ hmem)
    rw [Session.enter,List.map_append,← List.append_assoc]
    refine List.nodup_append.2 ⟨h.tokens,List.nodup_singleton _,?_⟩
    rintro token htoken _ hlast rfl
    obtain rfl := List.mem_singleton.1 hlast
    exact hnew htoken
  bound token htoken := by
    rw [Session.enter,List.map_append,← List.append_assoc,List.mem_append] at htoken
    obtain htoken | htoken := htoken
    · exact Nat.lt_succ_of_lt (h.bound token htoken)
    · obtain rfl := List.mem_singleton.1 htoken
      exact Nat.lt_succ_self _

theorem Owned.leave (h : Owned session) (call : UInt64 × ℕ) : Owned (session.leave call) := by
  have hsub : (session.owners.map Owner.cancellation ++
      (session.entering.erase call).map Prod.snd).Sublist
      (session.owners.map Owner.cancellation++session.entering.map Prod.snd) :=
    (List.Sublist.refl _).append (List.erase_sublist.map _)
  exact ⟨h.ids,h.active,h.tokens.sublist hsub,fun token htoken => h.bound token (hsub.mem htoken)⟩

theorem Owned.register {call : UInt64 × ℕ} (h : Owned session) (hcall : call∈session.entering)
    (hnew : call.1∉session.active) : Owned ((session.insert call).leave call) where
  ids := by
    refine List.nodup_cons.2 ⟨?_,h.ids⟩
    intro hmem
    obtain ⟨owner,howner,heq⟩ := List.mem_map.1 hmem
    have hlook := (h.active call.1 owner.cancellation).2 ⟨owner,howner,heq,rfl⟩
    exact hnew (AList.lookup_isSome.1 (Option.isSome_of_eq_some hlook))
  active id token := by
    simp only [Session.leave,Session.insert,List.mem_cons,exists_eq_or_imp]
    by_cases hid : id=call.1
    · subst hid
      rw [AList.lookup_insert,Option.some.injEq,← h.active,AList.lookup_eq_none.2 hnew]
      simp
    · rw [AList.lookup_insert_ne hid,h.active]
      simp [Ne.symm hid]
  tokens := by
    have hperm : (call.2::session.owners.map Owner.cancellation ++
        (session.entering.erase call).map Prod.snd).Perm
        (session.owners.map Owner.cancellation++session.entering.map Prod.snd) := by
      have hsplit := ((List.perm_cons_erase hcall).map Prod.snd).symm
      exact (List.perm_middle.symm.trans (hsplit.append_left _))
    exact hperm.nodup_iff.2 h.tokens
  bound token htoken := by
    simp only [Session.leave,Session.insert,List.map_cons,List.cons_append,List.mem_cons,
      List.mem_append] at htoken
    obtain rfl | htoken | htoken := htoken
    · exact h.bound _ (List.mem_append_right _ (List.mem_map_of_mem hcall))
    · exact h.bound _ (List.mem_append_left _ htoken)
    · exact h.bound _ (List.mem_append_right _ ((List.erase_sublist.map _).mem htoken))

theorem Owned.replace {owner : Owner} {stage : Stage} (h : Owned session)
    (howner : owner∈session.owners) : Owned (session.replace owner stage) := by
  have hperm := List.perm_cons_erase howner
  have hids : ((session.replace owner stage).owners.map Owner.requestId).Perm
      (session.owners.map Owner.requestId) := (hperm.map Owner.requestId).symm
  have htokens : ((session.replace owner stage).owners.map Owner.cancellation).Perm
      (session.owners.map Owner.cancellation) := (hperm.map Owner.cancellation).symm
  have hall := htokens.append_right (session.entering.map Prod.snd)
  refine ⟨hids.nodup_iff.2 h.ids,?_,hall.nodup_iff.2 h.tokens,?_⟩
  · intro id token
    refine (h.active id token).trans ?_
    simp only [hperm.mem_iff,Session.replace,List.mem_cons,exists_eq_or_imp]
  · intro token htoken
    exact h.bound token (hall.mem_iff.1 htoken)

/-- A destructor removes the entry of its own request and no other. -/
theorem Owned.unregister {owner : Owner} (h : Owned session) (howner : owner∈session.owners) :
    Owned (session.unregister owner) := by
  have hnodup : session.owners.Nodup := .of_map _ h.ids
  have hsub : (session.unregister owner).owners.Sublist session.owners := List.erase_sublist
  have htokens := (hsub.map Owner.cancellation).append_right (session.entering.map Prod.snd)
  refine ⟨h.ids.sublist (hsub.map _),?_,h.tokens.sublist htokens,?_⟩
  · intro id token
    simp only [Session.unregister,hnodup.mem_erase_iff]
    by_cases hid : id=owner.requestId
    · subst hid
      rw [AList.lookup_erase]
      refine iff_of_false (fun heq => nomatch heq) ?_
      rintro ⟨other,⟨hne,hother⟩,heq,-⟩
      exact hne (h.eq_of_requestId hother howner heq)
    · rw [AList.lookup_erase_ne hid,h.active]
      constructor
      · rintro ⟨other,hother,rfl,htoken⟩
        refine ⟨other,⟨?_,hother⟩,rfl,htoken⟩
        rintro rfl
        exact hid rfl
      · rintro ⟨other,⟨-,hother⟩,heq⟩
        exact ⟨other,hother,heq⟩
  · intro token htoken
    exact h.bound token (htokens.mem htoken)

theorem Owned.step (h : Owned session) (hstep : Step session next) : Owned next := by
  cases hstep with
  | enter id _ => exact h.enter id
  | withdraw _ => exact h.leave _
  | register hcall hreg =>
    obtain ⟨-,hnew,rfl⟩ := register_ok.1 hreg
    exact h.register hcall hnew
  | reject _ _ => exact h.leave _
  | proceed howner _ => exact h.replace howner
  | unregister howner _ => exact h.unregister howner
  | cancel id => exact ⟨h.ids,h.active,h.tokens,h.bound⟩
  | beginClose =>
    unfold Session.beginClose
    split
    · exact ⟨h.ids,h.active,h.tokens,h.bound⟩
    · exact ⟨h.ids,h.active,h.tokens,h.bound⟩
  | finishClose _ => exact ⟨h.ids,h.active,h.tokens,h.bound⟩

theorem owned_of_run (h : ReflTransGen Step .opened session) : Owned session := by
  induction h with
  | refl => exact owned_opened
  | tail _ hstep ih => exact ih.step hstep

/-! ## Closing -/

/-- Once the flag is set and the call that set it is through, every entry is cancelled. -/
structure Closing (session : Session) : Prop where
  flag : 0 < session.closing ∨ 0 < session.closes → session.closed=true
  one : session.closing ≤ 1
  swept : session.closed=true → session.closing=0 →
    ∀ id token, session.active.lookup id=some token → token∈session.cancelled

theorem closing_opened : Closing .opened where
  flag h := by simp [Session.opened] at h
  one := Nat.zero_le _
  swept h := nomatch h

theorem Closing.step (h : Closing session) (hstep : Step session next) : Closing next := by
  cases hstep with
  | enter | withdraw => exact ⟨h.flag,h.one,h.swept⟩
  | register _ hreg =>
    obtain ⟨hopen,-,rfl⟩ := register_ok.1 hreg
    refine ⟨h.flag,h.one,fun hclosed => ?_⟩
    rw [Session.leave,Session.insert,hopen] at hclosed
    cases hclosed
  | reject | proceed => exact ⟨h.flag,h.one,h.swept⟩
  | @unregister owner _ _ =>
    refine ⟨h.flag,h.one,fun hclosed hthrough id token hlook => ?_⟩
    exact h.swept hclosed hthrough id token (lookup_of_erase hlook).2
  | cancel id =>
    refine ⟨h.flag,h.one,fun hclosed hthrough other token hlook => ?_⟩
    exact List.mem_append_left _ (h.swept hclosed hthrough other token hlook)
  | beginClose =>
    unfold Session.beginClose
    split
    · next hclosed => exact ⟨fun _ => hclosed,h.one,h.swept⟩
    · next hopen =>
      have hnone : session.closing=0 := by
        refine Nat.eq_zero_of_not_pos fun hpos => ?_
        exact hopen (h.flag (.inl hpos))
      refine ⟨fun _ => rfl,?_,fun _ hthrough => ?_⟩
      · simp only [hnone,Nat.zero_add,le_refl]
      · simp only [hnone] at hthrough
        cases hthrough
  | finishClose hpos =>
    have hclosed := h.flag (.inl hpos)
    refine ⟨fun _ => hclosed,Nat.le_trans (Nat.sub_le _ _) h.one,fun _ _ id token hlook => ?_⟩
    have hentry := AList.mem_lookup_iff.1 (Option.mem_def.2 hlook)
    exact List.mem_append_right _ (List.mem_map.2 ⟨_,hentry,rfl⟩)

theorem closing_of_run (h : ReflTransGen Step .opened session) : Closing session := by
  induction h with
  | refl => exact closing_opened
  | tail _ hstep ih => exact ih.step hstep

/-- A step in which no call of `close` begins while another has not yet cancelled. -/
def ApartStep (session next : Session) : Prop :=
  Step session next ∧ (0 < session.closing → next≠session.beginClose)

theorem closing_of_apart (h : ReflTransGen ApartStep .opened session) : Closing session :=
  closing_of_run (ReflTransGen.mono (fun _ _ (hstep : ApartStep _ _) => hstep.1) _ _ h)

theorem closing_eq_zero_of_apart (h : ReflTransGen ApartStep .opened session) :
    0 < session.closes → session.closing=0 := by
  induction h with
  | refl => exact fun hpos => absurd hpos (Nat.lt_irrefl 0)
  | @tail session next hrun hstep ih =>
    obtain ⟨hstep,hapart⟩ := hstep
    have hclos := closing_of_apart hrun
    cases hstep with
    | enter id _ => exact ih
    | withdraw _ => exact ih
    | register _ hreg =>
      obtain ⟨-,-,rfl⟩ := register_ok.1 hreg
      exact ih
    | reject _ _ => exact ih
    | proceed _ _ => exact ih
    | unregister _ _ => exact ih
    | cancel id => exact ih
    | beginClose =>
      have hnone : session.closing=0 := by
        refine Nat.eq_zero_of_not_pos fun hpos => ?_
        exact hapart hpos rfl
      unfold Session.beginClose
      split
      · exact fun _ => hnone
      · next hopen =>
        exact fun hpos => absurd (hclos.flag (.inr hpos)) hopen
    | finishClose hpos =>
      have hone := hclos.one
      intro _
      simp only [Session.finishClose]
      omega

/-- The registry in every interleaving; cancellation by `close` when its calls do not
overlap. -/
theorem registry_integrity (session : Session) :
    (ReflTransGen Step .opened session → Owned session ∧
      (∀ owner∈session.owners,
        session.active.lookup owner.requestId=some owner.cancellation ∧
        ∀ other∈session.owners, other≠owner →
          (session.unregister owner).active.lookup other.requestId=some other.cancellation) ∧
      (0 < session.closes → session.checkOpen=.error .sessionClosed)) ∧
    (ReflTransGen ApartStep .opened session → 0 < session.closes →
      ∀ id token, session.active.lookup id=some token → token∈session.cancelled) := by
  refine ⟨fun hrun => ?_,fun hrun hreturned => ?_⟩
  · have howned := owned_of_run hrun
    refine ⟨howned,fun owner howner => ⟨?_,fun other hother hne => ?_⟩,fun hreturned => ?_⟩
    · exact (howned.active _ _).2 ⟨owner,howner,rfl,rfl⟩
    · have hid : other.requestId≠owner.requestId := by
        intro heq
        exact hne (howned.eq_of_requestId hother howner heq)
      rw [Session.unregister,AList.lookup_erase_ne hid]
      exact (howned.active _ _).2 ⟨other,hother,rfl,rfl⟩
    · rw [Session.checkOpen,if_pos ((closing_of_run hrun).flag (.inr hreturned))]
  · have hclos := closing_of_apart hrun
    have hthrough := closing_eq_zero_of_apart hrun hreturned
    exact hclos.swept (hclos.flag (.inr hreturned)) hthrough

theorem registry_integrity_closed : ∃ session, ReflTransGen ApartStep .opened session ∧
    0 < session.closes ∧
      ∃ id token, session.active.lookup id=some token ∧ token∈session.cancelled := by
  have hentered : ReflTransGen ApartStep .opened (Session.opened.enter 7) :=
    .single ⟨.enter 7 rfl,fun hpos => absurd hpos (by decide)⟩
  have hregistered := hentered.tail
    ⟨.register (List.mem_singleton.2 rfl) (register_ok.2 ⟨rfl,by decide,rfl⟩),
      fun hpos => absurd hpos (by decide)⟩
  have hclos := hregistered.tail ⟨.beginClose,fun hpos => absurd hpos (by decide)⟩
  have hclosed := hclos.tail ⟨.finishClose (by decide),fun _ heq =>
    absurd (congrArg Session.closing heq) (by decide)⟩
  exact ⟨_,hclosed,by decide,7,0,rfl,(registry_integrity _).2 hclosed (by decide) 7 0 rfl⟩

/-- A second call of `close` returns before the first has cancelled the registered request. -/
theorem overlapping_close_not_cancelled : ∃ session, ReflTransGen Step .opened session ∧
    0 < session.closes ∧
      ∃ id token, session.active.lookup id=some token ∧ token∉session.cancelled := by
  have hentered : ReflTransGen Step .opened (Session.opened.enter 7) := .single (.enter 7 rfl)
  have hregistered := hentered.tail
    (.register (List.mem_singleton.2 rfl) (register_ok.2 ⟨rfl,by decide,rfl⟩))
  have hclos := (hregistered.tail .beginClose).tail .beginClose
  exact ⟨_,hclos,by decide,7,0,rfl,by decide⟩

end Ash.SessionRegistry
