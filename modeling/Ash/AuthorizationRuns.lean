import Ash.Authorizations

/-! # Histories of authorizations

Which challenges are pending after any calls.  A challenge is registered before it is known that it
can be answered, so the budgets and the store of a call decide whether its answer goes out. -/

namespace Ash.Authorizations
open ByteCodecs KeyedTables Requests Responses OperationErrors ProgramBudgets
open PermitAuthorities hiding ApprovalToken
open ResultStores hiding Event Step Run Consistent

variable {Nonce Mac Id : Type} [DecidableEq Nonce]

/-! ## What stays pending -/

/-- A challenge that was given out is pending until its permit is used or its time is over. -/
def Kept (events : List (Event Nonce Mac)) (authority : PermitAuthority Nonce) : Prop :=
  ∀ challenge, Created events challenge → ¬ Spent events challenge.nonce →
    authority.state.pending.lookup challenge.nonce=some challenge ∨
      ∃ now∈events.filterMap readingOf, challenge.expiresAtMillis ≤ now

theorem expires_lookup {reading : Option UInt64} {old new : PermitState Nonce}
    (h : Expires reading old new) {challenge : ApprovalChallenge Nonce}
    (hold : old.pending.lookup challenge.nonce=some challenge) :
    new.pending.lookup challenge.nonce=some challenge ∨
      ∃ now, reading=some now ∧ challenge.expiresAtMillis ≤ now := by
  obtain heq | ⟨-,now,other,hreading,hother,hle⟩ := h.pending challenge.nonce
  · exact .inl (heq.trans hold)
  · obtain rfl := Option.some.inj (hold.symm.trans hother)
    exact .inr ⟨now,hreading,hle⟩

/-- A call keeps what was pending, but for what expires. -/
theorem Kept.old {events : List (Event Nonce Mac)} {event : Event Nonce Mac}
    {authority : PermitAuthority Nonce} {state : PermitState Nonce} (h : Kept events authority)
    {challenge : ApprovalChallenge Nonce} (hmade : Created events challenge)
    (hunspent : ¬ Spent (event::events) challenge.nonce)
    (hexp : Expires (readingOf event) authority.state state) :
    state.pending.lookup challenge.nonce=some challenge ∨
      ∃ now∈(event::events).filterMap readingOf, challenge.expiresAtMillis ≤ now := by
  have hbefore : ¬ Spent events challenge.nonce := fun hspent => hunspent (spent_cons.2 (.inr hspent))
  obtain hlook | ⟨now,hnow,hle⟩ := h challenge hmade hbefore
  · refine (expires_lookup hexp hlook).imp_right ?_
    rintro ⟨now,hreading,hle⟩
    exact ⟨now,List.mem_filterMap.2 ⟨event,List.mem_cons_self,hreading⟩,hle⟩
  · obtain ⟨earlier,hmem,hreading⟩ := List.mem_filterMap.1 hnow
    exact .inr ⟨now,List.mem_filterMap.2 ⟨earlier,List.mem_cons_of_mem _ hmem,hreading⟩,hle⟩

variable [DecidableEq Mac] {hash : KeyedHash Nonce Mac} {events : List (Event Nonce Mac)}
  {authority next : PermitAuthority Nonce} {event : Event Nonce Mac}

theorem Kept.step (h : Kept events authority) (hcons : Consistent hash events authority)
    (hstep : Step hash authority event next) : Kept (event::events) next := by
  intro challenge hmade hunspent
  obtain ⟨middle,hexp,heffect⟩ := hstep.effect
  have hbefore : Created events challenge → _ := fun hold => h.old hold hunspent hexp
  cases heffect with
  | quiet hstate _ hnone _ =>
    rw [hstate]
    exact hbefore ((created_cons.1 hmade).resolve_left (hnone challenge))
  | given fresh hnonce hstate _ _ hnew _ =>
    rw [hstate]
    obtain hself | hold := created_cons.1 hmade
    · obtain rfl := (hnew challenge).1 hself
      exact .inl (AList.lookup_insert _)
    · -- the nonce is a new one, so the insertion is elsewhere
      have hne := hcons.nonce_fresh hnonce hold
      exact (hbefore hold).imp_left (AList.lookup_insert_ne hne).trans
  | used consumed token _ hstate _ _ hnone haccs =>
    have hne : challenge.nonce≠token.nonce := fun hnonce =>
      hunspent (spent_cons.2 (.inl ⟨token,hnonce.symm,(haccs token).2 rfl⟩))
    rw [hstate]
    have hold := (created_cons.1 hmade).resolve_left (hnone challenge)
    exact (hbefore hold).imp_left (AList.lookup_erase_ne hne).trans

/-- Calls to an authority, one after another, latest first. -/
inductive Calls (hash : KeyedHash Nonce Mac) (authority : PermitAuthority Nonce) :
    List (Event Nonce Mac) → PermitAuthority Nonce → Prop
  | none : Calls hash authority [] authority
  | step {events middle next event} : Calls hash authority events middle →
      Step hash middle event next → Calls hash authority (event::events) next

theorem Calls.consistent {later : List (Event Nonce Mac)} (h : Calls hash authority later next)
    (hcons : Consistent hash events authority) : Consistent hash (later++events) next := by
  induction h with
  | none => exact hcons
  | step _ hstep ih => exact ih.step hstep

theorem Calls.kept {later : List (Event Nonce Mac)} (h : Calls hash authority later next)
    (hcons : Consistent hash events authority) (hkept : Kept events authority) :
    Kept (later++events) next := by
  induction h with
  | none => exact hkept
  | step hcalls hstep ih => exact ih.step (hcalls.consistent hcons) hstep

/-! ## What a call asks of the authority -/

variable [DecidableEq Id] (keys : Keys Nonce Mac Id) (policy : AuthorizationPolicy)

/-- The permit of a call does not pass, for which the answer has a code. -/
inductive Refused (authority : PermitAuthority Nonce) (call : Call keys) (action : Vector UInt8 32) :
    ErrorCode → PermitAuthority Nonce → Prop
  | missing (h : call.request.permit=none) : Refused authority call action .permitRequired authority
  | invalid {permit error} (h : call.request.permit=some permit)
      (herror : (verified keys authority call (approvalOf policy call.request) action permit).2 =
        .error error) :
      Refused authority call action .permitInvalid
        (verified keys authority call (approvalOf policy call.request) action permit).1

/-- The call comes to a challenge: it asks for no more than the policy has, an approval is needed,
no permit passes for it, and the authority registers the challenge. -/
structure Due (authority : PermitAuthority Nonce) (call : Call keys) (code : ErrorCode)
    (challenge : ApprovalChallenge Nonce) : Prop where
  granted : call.request.arguments.requiredCapabilities &&& ~~~ policy.capabilityMask=0
  approval : approvalOf policy call.request≠0
  registered : ∃ action middle, actionDigest keys call.request=.ok action ∧
    Refused keys policy authority call action code middle ∧
    (raised keys policy middle call (approvalOf policy call.request) action).2=.ok challenge

variable {keys policy} {call : Call keys} {approval : UInt64} {action : Vector UInt8 32}
  {code : ErrorCode} {challenge : ApprovalChallenge Nonce}

/-- A call asks nothing, or it uses a permit, or it asks for a challenge. -/
theorem admission_cases (policy : AuthorizationPolicy) (authority : PermitAuthority Nonce)
    (call : Call keys) :
    (∃ found, admission keys policy authority call=⟨authority,[],found⟩ ∧
      (∀ code challenge, found≠.challenged code challenge) ∧
      ∀ code challenge, ¬ Due keys policy authority call code challenge) ∨
    (∃ action permit, actionDigest keys call.request=.ok action ∧
      call.request.permit=some permit ∧
      (verified keys authority call (approvalOf policy call.request) action permit).2=.ok () ∧
      admission keys policy authority call =
        ⟨(verified keys authority call (approvalOf policy call.request) action permit).1,
          [.verify (keys.token permit) call.permitReading call.sessionId
            (approvalOf policy call.request) action (.ok ())],.passed⟩) ∨
    ∃ action code events middle, actionDigest keys call.request=.ok action ∧
      call.request.arguments.requiredCapabilities &&& ~~~ policy.capabilityMask=0 ∧
      approvalOf policy call.request≠0 ∧
      Refused keys policy authority call action code middle ∧
      Calls keys.keyed authority events middle ∧ (∀ challenge, ¬ Created events challenge) ∧
      admission keys policy authority call=raiseChallenge keys policy middle call
        (approvalOf policy call.request) action events code := by
  obtain ⟨action,haction⟩ := actionDigest_total keys call.request
  unfold admission
  by_cases hgranted : call.request.arguments.requiredCapabilities &&& ~~~ policy.capabilityMask=0
  · rw [if_neg (not_not.2 hgranted)]
    by_cases happr : approvalOf policy call.request=0
    · rw [if_pos happr]
      exact .inl ⟨.passed,rfl,fun _ _ h => (nomatch h),fun _ _ h => h.approval happr⟩
    · rw [if_neg happr,haction]
      cases hperm : call.request.permit with
      | none =>
        refine .inr (.inr ⟨action,_,_,_,rfl,hgranted,happr,.missing hperm,.none,?_,rfl⟩)
        rintro challenge ⟨_,_,hmem⟩
        cases hmem
      | some permit =>
        simp only [usePermit]
        cases hused : (verified keys authority call (approvalOf policy call.request) action
            permit).2 with
        | ok => exact .inr (.inl ⟨action,permit,rfl,rfl,hused,rfl⟩)
        | error error =>
          refine .inr (.inr ⟨action,_,_,_,rfl,hgranted,happr,.invalid hperm hused,
            .step .none ?_,?_,rfl⟩)
          · rw [← hused]
            exact .verify _ _ _ _ _
          · intro challenge hmade
            obtain ⟨_,_,hevent⟩ := created_singleton.1 hmade
            cases hevent
  · rw [if_pos hgranted]
    exact .inl ⟨_,rfl,fun _ _ h => (nomatch h),fun _ _ h => hgranted h.granted⟩

theorem Refused.unique {code' : ErrorCode} {middle middle' : PermitAuthority Nonce}
    (h : Refused keys policy authority call action code middle)
    (h' : Refused keys policy authority call action code' middle') :
    code=code' ∧ middle=middle' := by
  cases h with
  | missing hnone =>
    cases h' with
    | missing => exact ⟨rfl,rfl⟩
    | invalid hsome =>
      rw [hnone] at hsome
      cases hsome
  | invalid hsome =>
    cases h' with
    | missing hnone =>
      rw [hnone] at hsome
      cases hsome
    | invalid hsome' =>
      obtain rfl := Option.some.inj (hsome.symm.trans hsome')
      exact ⟨rfl,rfl⟩

omit [DecidableEq Mac] in
/-- A registered challenge has a new nonce, is for what was asked, and is pending. -/
theorem raised_ok (h : (raised keys policy authority call approval action).2=.ok challenge) :
    challenge.nonce=keys.keyed.nonceHash (nonceMaterial challenge authority.counter) ∧
      (raised keys policy authority call approval action).1.state.pending.lookup challenge.nonce =
        some challenge ∧
      challenge.sessionId=call.sessionId ∧ challenge.capabilities=approval ∧
      challenge.actionDigest=action := by
  unfold raised at h ⊢
  obtain ⟨_,error,hreply,-⟩ | ⟨now,expires,-,-,-,heq,-⟩ := challenge_cases keys.keyed authority
    call.challengeReading call.sessionId approval action policy.challengeTtlMillis
  · rw [hreply] at h
    cases h
  · rw [heq] at h ⊢
    rw [← Except.ok.inj h]
    exact ⟨rfl,AList.lookup_insert _,rfl,rfl,rfl⟩

omit [DecidableEq Mac] in
theorem created_raiseChallenge (hnone : ∀ challenge, ¬ Created events challenge) (challenge : ApprovalChallenge Nonce) :
    Created (raiseChallenge keys policy authority call approval action events code).events challenge ↔
      (raised keys policy authority call approval action).2=.ok challenge := by
  rw [raiseChallenge,created_cons,or_iff_left (hnone challenge),created_singleton]
  constructor
  · rintro ⟨_,_,hevent⟩
    injection hevent
  · intro h
    obtain ⟨-,-,hsess,hcaps,haction⟩ := raised_ok h
    rw [h,hsess,hcaps,haction]
    exact ⟨_,_,rfl⟩

omit [DecidableEq Mac] in
theorem raiseChallenge_admission {code' : ErrorCode} :
    (raiseChallenge keys policy authority call approval action events code).admission =
        .challenged code' challenge ↔
      code=code' ∧ (raised keys policy authority call approval action).2=.ok challenge := by
  simp only [raiseChallenge]
  cases (raised keys policy authority call approval action).2 with
  | error error => simp
  | ok found => simp

theorem admission_calls (policy : AuthorizationPolicy) (authority : PermitAuthority Nonce)
    (call : Call keys) :
    Calls keys.keyed authority (admission keys policy authority call).events
      (admission keys policy authority call).authority := by
  obtain ⟨found,heq,-,-⟩ | ⟨action,permit,-,-,hused,heq⟩ |
      ⟨action,code,events,middle,-,-,-,-,hcalls,-,heq⟩ :=
    admission_cases policy authority call
  · rw [heq]
    exact .none
  · rw [heq,← hused]
    exact .step .none (.verify _ _ _ _ _)
  · rw [heq]
    exact .step hcalls (.challenge _ _ _ _ _)

theorem admission_challenged_iff :
    (admission keys policy authority call).admission=.challenged code challenge ↔
      Due keys policy authority call code challenge := by
  obtain ⟨found,heq,hfound,hdue⟩ | ⟨action,permit,haction,hperm,hused,heq⟩ |
      ⟨action,found,events,middle,haction,hgranted,happr,href,-,-,heq⟩ :=
    admission_cases policy authority call
  · rw [heq]
    exact iff_of_false (hfound code challenge) (hdue code challenge)
  · rw [heq]
    refine iff_of_false (fun h => nomatch h) ?_
    rintro ⟨-,-,other,middle,hother,href,-⟩
    obtain rfl := Except.ok.inj (haction.symm.trans hother)
    cases href with
    | missing hnone =>
      rw [hperm] at hnone
      cases hnone
    | invalid hsome herror =>
      obtain rfl := Option.some.inj (hperm.symm.trans hsome)
      rw [hused] at herror
      cases herror
  · rw [heq,raiseChallenge_admission]
    constructor
    · rintro ⟨rfl,hraised⟩
      exact ⟨hgranted,happr,action,middle,haction,href,hraised⟩
    · rintro ⟨-,-,other,middle',hother,hrefused',hraised⟩
      obtain rfl := Except.ok.inj (haction.symm.trans hother)
      obtain ⟨rfl,rfl⟩ := href.unique hrefused'
      exact ⟨rfl,hraised⟩

/-- The challenges that a call creates are those it comes to. -/
theorem created_admission :
    Created (admission keys policy authority call).events challenge ↔
      ∃ code, Due keys policy authority call code challenge := by
  simp only [← admission_challenged_iff]
  obtain ⟨found,heq,hfound,-⟩ | ⟨action,permit,-,-,-,heq⟩ |
      ⟨action,code,events,middle,-,-,-,-,-,hnone,heq⟩ :=
    admission_cases policy authority call
  · rw [heq]
    refine iff_of_false ?_ fun ⟨code,h⟩ => hfound code challenge h
    rintro ⟨_,_,hmem⟩
    cases hmem
  · rw [heq]
    refine iff_of_false ?_ fun ⟨_,h⟩ => nomatch h
    intro hmade
    obtain ⟨_,_,hevent⟩ := created_singleton.1 hmade
    cases hevent
  · rw [heq,created_raiseChallenge hnone]
    simp only [raiseChallenge_admission,exists_eq_left']

/-! ## Histories -/

/-- An approval response as it went out, and the store at that time. -/
structure Answer (Nonce Id : Type) where
  challenge : ApprovalChallenge Nonce
  response : FinalResponse
  store : State Id

/-- The calls are authorizations, and the approvals of the harness between them. -/
inductive Act (keys : Keys Nonce Mac Id) where
  | authorize (call : Call keys)
  | issue (reading : Option UInt64) (challenge : ApprovalChallenge Nonce)

/-- The authority, what was asked of it and the answers to clients, each latest first. -/
structure Service (Nonce Mac Id : Type) where
  authority : PermitAuthority Nonce
  events : List (Event Nonce Mac)
  answers : List (Answer Nonce Id)

variable (keys policy)

def answersOf (call : Call keys) : Admission Nonce → List (Answer Nonce Id)
  | .challenged code challenge =>
      match outcome keys call (.challenged code challenge) with
      | .ok (some response) =>
          [⟨challenge,response,storeAfter keys call (.challenged code challenge)⟩]
      | _ => []
  | _ => []

def Service.act (service : Service Nonce Mac Id) : Act keys → Service Nonce Mac Id
  | .authorize call =>
      let admitted := admission keys policy service.authority call
      ⟨(authorize keys policy service.authority call).1,admitted.events++service.events,
        answersOf keys call admitted.admission++service.answers⟩
  | .issue reading challenge =>
      let issued := issue keys.keyed service.authority reading challenge
      ⟨issued.1,.issue reading challenge issued.2::service.events,service.answers⟩

/-- A session from its start, the latest call first. -/
def history (sessionBinding policyDigest : Vector UInt8 16) : List (Act keys) → Service Nonce Mac Id
  | [] => ⟨.new sessionBinding policyDigest,[],[]⟩
  | act::earlier => (history sessionBinding policyDigest earlier).act keys policy act

/-- The reference of the evidence of the challenge was returned to the client. -/
def Answered (service : Service Nonce Mac Id) (challenge : ApprovalChallenge Nonce) : Prop :=
  ∃ answer∈service.answers, answer.challenge=challenge ∧
    Delivers keys challenge answer.response answer.store

variable {keys policy}

omit [DecidableEq Nonce] [DecidableEq Mac] in
theorem mem_answersOf {found : Admission Nonce} {answer : Answer Nonce Id}
    (h : answer∈answersOf keys call found) : ∃ code, found=.challenged code answer.challenge := by
  cases found with
  | refused => cases h
  | passed => cases h
  | challenged code challenge =>
    simp only [answersOf] at h
    split at h
    · rw [List.mem_singleton.1 h]
      exact ⟨code,rfl⟩
    · cases h

omit [DecidableEq Nonce] [DecidableEq Mac] in
theorem Answerable.answersOf (h : Answerable call code challenge) :
    ∃ answer∈answersOf keys call (.challenged code challenge), answer.challenge=challenge ∧
      Delivers keys challenge answer.response answer.store := by
  obtain ⟨response,hresp,hdelivers⟩ := h.answer_ok
  have hout : outcome keys call (.challenged code challenge)=.ok (some response) := by
    rw [outcome,hresp]
    rfl
  refine ⟨⟨challenge,response,(answer keys call code challenge).1⟩,?_,rfl,hdelivers⟩
  rw [Authorizations.answersOf,hout]
  exact List.mem_singleton_self _

structure Tracked (keys : Keys Nonce Mac Id) (service : Service Nonce Mac Id) : Prop where
  consistent : Consistent keys.keyed service.events service.authority
  kept : Kept service.events service.authority
  created : ∀ answer∈service.answers, Created service.events answer.challenge

theorem Tracked.act {service : Service Nonce Mac Id} (h : Tracked keys service) (act : Act keys) :
    Tracked keys (service.act keys policy act) := by
  cases act with
  | authorize call =>
    have hcalls := admission_calls policy service.authority call
    refine ⟨hcalls.consistent h.consistent,hcalls.kept h.consistent h.kept,
      fun answer hanswer => created_append.2 ?_⟩
    obtain hnew | hold := List.mem_append.1 hanswer
    · obtain ⟨code,hchallenged⟩ := mem_answersOf hnew
      exact .inl (created_admission.2 ⟨code,admission_challenged_iff.1 hchallenged⟩)
    · exact .inr (h.created answer hold)
  | issue reading challenge =>
    have hstep : Step keys.keyed service.authority _ _ := .issue reading challenge
    exact ⟨h.consistent.step hstep,h.kept.step h.consistent hstep,
      fun answer hanswer => created_cons.2 (.inr (h.created answer hanswer))⟩

variable {sessionBinding policyDigest : Vector UInt8 16}

/-- Nothing becomes pending but what is given out. -/
theorem Calls.pending {later : List (Event Nonce Mac)} (h : Calls hash authority later next)
    {nonce : Nonce} (hlook : next.state.pending.lookup nonce=some challenge) :
    authority.state.pending.lookup nonce=some challenge ∨ Created later challenge := by
  induction h with
  | none => exact .inl hlook
  | @step events middle next event _ hstep ih =>
    obtain ⟨purged,hexp,heffect⟩ := hstep.effect
    have hmiddle : middle.state.pending.lookup nonce=some challenge ∨
        Created [event] challenge := by
      cases heffect with
      | quiet hstate =>
        rw [hstate] at hlook
        exact .inl (hexp.pending_of_lookup hlook)
      | given fresh _ hstate _ _ hnew _ =>
        rw [hstate] at hlook
        by_cases hself : nonce=fresh.nonce
        · subst hself
          obtain rfl := Option.some.inj ((AList.lookup_insert _).symm.trans hlook)
          exact .inr ((hnew _).2 rfl)
        · have hkept := (AList.lookup_insert_ne hself).symm.trans hlook
          exact .inl (hexp.pending_of_lookup hkept)
      | used consumed token _ hstate =>
        rw [hstate] at hlook
        exact .inl (hexp.pending_of_lookup (lookup_of_erase hlook).2)
    rw [created_cons]
    obtain hold | hnew := hmiddle
    · exact (ih hold).imp_right .inr
    · exact .inr (.inl hnew)

/-- A challenge that a call comes to is pending afterwards, and was not before. -/
theorem Due.pending (hcons : Consistent keys.keyed events authority)
    (h : Due keys policy authority call code challenge) :
    (admission keys policy authority call).authority.state.pending.lookup challenge.nonce =
        some challenge ∧
      authority.state.pending.lookup challenge.nonce≠some challenge := by
  have hchallenged := admission_challenged_iff.2 h
  obtain ⟨found,heq,hfound,-⟩ | ⟨action,permit,-,-,-,heq⟩ |
      ⟨action,found,later,middle,-,-,-,-,hcalls,-,heq⟩ :=
    admission_cases policy authority call
  · rw [heq] at hchallenged
    exact absurd hchallenged (hfound code challenge)
  · rw [heq] at hchallenged
    cases hchallenged
  · rw [heq] at hchallenged ⊢
    obtain ⟨hnonce,hpend,-⟩ := raised_ok (raiseChallenge_admission.1 hchallenged).2
    refine ⟨hpend,fun hold => ?_⟩
    have hmade := (hcons.pending _ _ hold).2.1
    exact (hcalls.consistent hcons).nonce_fresh hnonce (created_append.2 (.inr hmade)) rfl

end Ash.Authorizations
