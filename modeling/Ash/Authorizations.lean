import Ash.PermitRuns
import Ash.ProgramBudgets
import Ash.StoreRoom

/-! # Authorization of requests

A request for capabilities that need approval passes with a permit, or it is answered with the
reference of a new challenge. -/

namespace Ash.Authorizations
open ByteCodecs KeyedTables Numerals TextSlices AsonDocuments Outcomes RequestValues RequestArguments
open Requests Responses OperationErrors ProgramBudgets ResultStores
open PermitAuthorities hiding Event Step Run Consistent ApprovalToken ApprovalValueError

def actionDomain : List UInt8 :=
  utf8 ['a','s','h','-','a','p','p','r','o','v','a','l','-','a','c','t','i','o',
    'n','-','v','1','\x00']

/-- The direct grants and those that need an approval.  A challenge lives for up to an hour, given
in nanoseconds. -/
structure AuthorizationPolicy where
  granted : UInt64
  approvalRequired : UInt64
  challengeTtl : ℕ
  ttl_pos : 0 < challengeTtl
  ttl_le : challengeTtl ≤ 60*60*10 ^ 9

def AuthorizationPolicy.capabilityMask (policy : AuthorizationPolicy) : UInt64 :=
  policy.granted ||| policy.approvalRequired

def AuthorizationPolicy.challengeTtlMillis (policy : AuthorizationPolicy) : ℕ :=
  policy.challengeTtl / 10 ^ 6

variable {Nonce Mac Id : Type}

/-- The hashes, and how nonces and permits appear as bytes. -/
structure Keys (Nonce Mac Id : Type) where
  keyed : KeyedHash Nonce Mac
  contentHash : List UInt8 → Id
  digest : List UInt8 → Vector UInt8 32
  nonceBytes : Nonce → List UInt8
  token : Requests.ApprovalToken → PermitAuthorities.ApprovalToken Nonce Mac

/-- One call: the request, the budget of its program, what the clock says when it is read for a
permit and for a challenge, and the store that a retention meets. -/
structure Call [DecidableEq Id] (keys : Keys Nonce Mac Id) where
  request : Request
  sessionId : UInt64
  tracker : BudgetTracker
  permitReading : Option UInt64
  challengeReading : Option UInt64
  system : System Id
  spoolFault : Bool
  faults : ReadFaults
  outputUsed_le : tracker.outputUsed ≤ tracker.outputLimit
  outputLimit_lt : tracker.outputLimit < 2 ^ 64
  recordLimit_lt : tracker.recordLimit < 2 ^ 32
  consistent : ResultStores.Consistent keys.contentHash system

/-! ## Challenges -/

def challengeDocument (keys : Keys Nonce Mac Id) (challenge : ApprovalChallenge Nonce) :
    Except BuildError Document := do
  let v ← scalarField ['v'] (decimal approvalChallengeVersion.toNat)
  let s ← scalarField ['s'] (decimal challenge.sessionId.toNat)
  let c ← scalarField ['c'] (decimal challenge.capabilities.toNat)
  let e ← scalarField ['e'] (decimal challenge.expiresAtMillis.toNat)
  let b ← scalarField ['b'] (encodeHex challenge.sessionBinding.toList)
  let p ← scalarField ['p'] (encodeHex challenge.policyDigest.toList)
  let h ← scalarField ['h'] (encodeHex challenge.actionDigest.toList)
  let n ← scalarField ['n'] (encodeHex (keys.nonceBytes challenge.nonce))
  Document.new [v,s,c,e,b,p,h,n]

def evidence (keys : Keys Nonce Mac Id) (challenge : ApprovalChallenge Nonce) :
    Except OperationError (List UInt8) :=
  match challengeDocument keys challenge with
  | .error error => .error (.build error)
  | .ok document => .ok (utf8 (AsonDocuments.encode document))

def approvalError (code : ErrorCode) (evidence : UInt64) : ErrorRecord :=
  ⟨code,.approval,.authorize,some evidence,none⟩

def approvalResponse (requestId : UInt64) (code : ErrorCode) (evidence : UInt64) :
    Except OperationError FinalResponse :=
  liftResponse (FinalResponse.failure requestId .denied (approvalError code evidence) [] none
    resultRetained none)

def actionDigest (keys : Keys Nonce Mac Id) (request : Request) :
    Except OperationError (Vector UInt8 32) :=
  match request.authorizationTarget with
  | .error error => .error (.build error)
  | .ok target => .ok (keys.digest (actionDomain++utf8 (AsonDocuments.encode target)))

/-! ## Admission -/

inductive Admission (Nonce : Type) where
  | refused (error : OperationError)
  | passed
  | challenged (code : ErrorCode) (challenge : ApprovalChallenge Nonce)

/-- The authority after a call, what was asked of it, latest first, and what came out. -/
structure Admitted (Nonce Mac : Type) where
  authority : PermitAuthority Nonce
  events : List (PermitAuthorities.Event Nonce Mac)
  admission : Admission Nonce

section Model
variable [DecidableEq Nonce] [DecidableEq Mac] [DecidableEq Id] (keys : Keys Nonce Mac Id)
  (policy : AuthorizationPolicy)

variable (authority : PermitAuthority Nonce)

def raised (call : Call keys) (approval : UInt64) (action : Vector UInt8 32) :
    PermitAuthority Nonce × Except AuthorizationError (ApprovalChallenge Nonce) :=
  challenge keys.keyed authority call.challengeReading call.sessionId approval action
    policy.challengeTtlMillis

def raiseChallenge (call : Call keys) (approval : UInt64) (action : Vector UInt8 32)
    (earlier : List (PermitAuthorities.Event Nonce Mac)) (code : ErrorCode) : Admitted Nonce Mac :=
  ⟨(raised keys policy authority call approval action).1,
    .challenge call.challengeReading call.sessionId approval action policy.challengeTtlMillis
      (raised keys policy authority call approval action).2::earlier,
    match (raised keys policy authority call approval action).2 with
    | .error error => .refused (.authorization error)
    | .ok challenge => .challenged code challenge⟩

def verified (call : Call keys) (approval : UInt64) (action : Vector UInt8 32)
    (permit : Requests.ApprovalToken) : PermitAuthority Nonce × Except AuthorizationError Unit :=
  verify keys.keyed authority (keys.token permit) call.permitReading call.sessionId approval action

def usePermit (call : Call keys) (approval : UInt64) (action : Vector UInt8 32)
    (permit : Requests.ApprovalToken) : Admitted Nonce Mac :=
  let used := verified keys authority call approval action permit
  let event := .verify (keys.token permit) call.permitReading call.sessionId approval action used.2
  match used.2 with
  | .ok () => ⟨used.1,[event],.passed⟩
  | .error _ => raiseChallenge keys policy used.1 call approval action [event] .permitInvalid

/-- The capabilities that the request needs an approval for. -/
def approvalOf (request : Request) : UInt64 :=
  request.arguments.requiredCapabilities &&& policy.approvalRequired

/-- What is done before an answer is made. -/
def admission (call : Call keys) : Admitted Nonce Mac :=
  if call.request.arguments.requiredCapabilities &&& ~~~ policy.capabilityMask≠0 then
    ⟨authority,[],.refused .capabilityDenied⟩
  else if approvalOf policy call.request=0 then ⟨authority,[],.passed⟩
  else
    match actionDigest keys call.request with
    | .error error => ⟨authority,[],.refused error⟩
    | .ok action =>
        match call.request.permit with
        | some permit =>
            usePermit keys policy authority call (approvalOf policy call.request) action permit
        | none => raiseChallenge keys policy authority call (approvalOf policy call.request) action
            [] .permitRequired

/-! ## Answers -/

/-- The evidence of a challenge, after the longest answer has been charged. -/
def prepareAnswer (call : Call keys) (code : ErrorCode) (challenge : ApprovalChallenge Nonce) :
    Except OperationError (List UInt8) := do
  let bytes ← evidence keys challenge
  let worst ← approvalResponse call.request.id code (UInt64.ofNat (2 ^ 64 - 1))
  let text ← encodedText worst
  require (byteLength text ≤ presentationLimit call.tracker) .outputBudget
  (charge call.tracker worst 1).2
  return bytes

def answer (call : Call keys) (code : ErrorCode) (challenge : ApprovalChallenge Nonce) :
    State Id × Except OperationError FinalResponse :=
  match prepareAnswer keys call code challenge with
  | .error error => (call.system.store.state,.error error)
  | .ok bytes =>
      let retained := retain keys.contentHash call.system.store call.spoolFault call.faults bytes
      (retained.1,
        match retained.2 with
        | .error error => .error (.store error)
        | .ok reference => approvalResponse call.request.id code (UInt64.ofNat reference))

/-- What becomes of a request: its program runs, or there is a response or an error. -/
def outcome (call : Call keys) : Admission Nonce → Except OperationError (Option FinalResponse)
  | .refused error => .error error
  | .passed => .ok none
  | .challenged code challenge => some <$> (answer keys call code challenge).2

def storeAfter (call : Call keys) : Admission Nonce → State Id
  | .challenged code challenge => (answer keys call code challenge).1
  | _ => call.system.store.state

def authorize (call : Call keys) :
    PermitAuthority Nonce × State Id × Except OperationError (Option FinalResponse) :=
  let admitted := admission keys policy authority call
  (admitted.authority,storeAfter keys call admitted.admission,
    outcome keys call admitted.admission)

end Model

/-! ## What can be written -/

section Written
variable (keys : Keys Nonce Mac Id)

/-- The fields of a challenge. -/
def challengeWriters (challenge : ApprovalChallenge Nonce) : List Writer :=
  [(['v'],decimal approvalChallengeVersion.toNat),(['s'],decimal challenge.sessionId.toNat),
    (['c'],decimal challenge.capabilities.toNat),(['e'],decimal challenge.expiresAtMillis.toNat),
    (['b'],encodeHex challenge.sessionBinding.toList),(['p'],encodeHex challenge.policyDigest.toList),
    (['h'],encodeHex challenge.actionDigest.toList),
    (['n'],encodeHex (keys.nonceBytes challenge.nonce))].map
      fun field => (field.1,.ok (.scalar (.text field.2)))

theorem challengeDocument_eq (challenge : ApprovalChallenge Nonce) :
    challengeDocument keys challenge=writeDocument (challengeWriters keys challenge) := by
  simp [challengeDocument,writeDocument,challengeWriters,scalarField_eq]

theorem challengeDocument_total (challenge : ApprovalChallenge Nonce) :
    ∃ document, challengeDocument keys challenge=.ok document := by
  rw [challengeDocument_eq]
  have hkeys : (challengeWriters keys challenge).map Prod.fst =
      [['v'],['s'],['c'],['e'],['b'],['p'],['h'],['n']] := rfl
  refine writeDocument_total (List.cons_ne_nil _ _) ?_ fun writer hmem => ?_
  · rw [hkeys]
    decide
  · obtain ⟨field,-,rfl⟩ := List.mem_map.1 hmem
    exact ⟨_,rfl⟩

theorem evidence_total (challenge : ApprovalChallenge Nonce) :
    ∃ bytes, evidence keys challenge=.ok bytes := by
  obtain ⟨document,hdoc⟩ := challengeDocument_total keys challenge
  rw [evidence,hdoc]
  exact ⟨_,rfl⟩

theorem actionDigest_total (request : Request) :
    ∃ action, actionDigest keys request=.ok action := by
  obtain ⟨target,htgt⟩ := authorizationTarget_total request
  rw [actionDigest,htgt]
  exact ⟨_,rfl⟩

/-- Every reference but the reserved one can be answered with. -/
theorem approvalResponse_ok {requestId evidence : UInt64} (code : ErrorCode) (hid : requestId≠0)
    (hevid : evidence≠0) :
    ∃ response, approvalResponse requestId code evidence=.ok response ∧
      response.error=some (approvalError code evidence) := by
  have hcheck : FinalResponse.check requestId .denied [] none (some (approvalError code evidence))
      resultRetained none=.ok () := by
    have hpaths : validatePathMappings []=.ok () := rfl
    simp [FinalResponse.check,bind_unit_ok_iff,require_ok_iff,hid,hevid,hpaths,checkData,
      checkError,validateReference,approvalError]
    decide
  refine ⟨⟨requestId,.denied,[],none,some (approvalError code evidence),resultRetained,none,
    hcheck⟩,?_,rfl⟩
  rw [approvalResponse,liftResponse_ok,FinalResponse.failure,FinalResponse.new_ok_iff]
  exact ⟨hcheck,rfl⟩

end Written

/-! ## When a challenge is answered -/

section Answers
variable [DecidableEq Nonce] [DecidableEq Mac] [DecidableEq Id] {keys : Keys Nonce Mac Id}
  {call : Call keys} {code : ErrorCode} {challenge : ApprovalChallenge Nonce}

/-- The budgets and the store last for the answer: the longest one fits, a record is left, and the
evidence finds room. -/
structure Answerable (call : Call keys) (code : ErrorCode) (challenge : ApprovalChallenge Nonce) :
    Prop where
  fits : ∀ worst, approvalResponse call.request.id code (UInt64.ofNat (2 ^ 64 - 1))=.ok worst →
    worst.writtenBytes ≤ presentationLimit call.tracker
  record : call.tracker.recordsUsed < call.tracker.recordLimit
  room : ∀ bytes, evidence keys challenge=.ok bytes →
    Room keys.contentHash call.system.store call.spoolFault call.faults [bytes]

omit [DecidableEq Nonce] [DecidableEq Mac] in
/-- What is presented within the limit can be charged. -/
theorem charge_worst {worst : FinalResponse}
    (hfits : worst.writtenBytes ≤ presentationLimit call.tracker) :
    (charge call.tracker worst 1).2=.ok () ↔
      call.tracker.recordsUsed < call.tracker.recordLimit := by
  rw [charge_ok_iff call.recordLimit_lt call.outputLimit_lt,Nat.succ_le_iff]
  refine and_iff_left ?_
  have hlimit : presentationLimit call.tracker ≤ call.tracker.remainingOutput := min_le_left _ _
  have hused := call.outputUsed_le
  unfold BudgetTracker.remainingOutput at hlimit
  omega

omit [DecidableEq Nonce] [DecidableEq Mac] in
theorem prepareAnswer_ok_iff {bytes : List UInt8} (hbytes : evidence keys challenge=.ok bytes) :
    prepareAnswer keys call code challenge=.ok bytes ↔
      (∀ worst, approvalResponse call.request.id code (UInt64.ofNat (2 ^ 64 - 1))=.ok worst →
        worst.writtenBytes ≤ presentationLimit call.tracker) ∧
      call.tracker.recordsUsed < call.tracker.recordLimit := by
  obtain ⟨worst,hworst,-⟩ := approvalResponse_ok code call.request.id_ne_zero
    (show UInt64.ofNat (2 ^ 64 - 1)≠0 by decide)
  obtain ⟨text,htext,hsize⟩ := encodedText_writes worst
  have hfits : (∀ found, approvalResponse call.request.id code (UInt64.ofNat (2 ^ 64 - 1)) =
      .ok found → found.writtenBytes ≤ presentationLimit call.tracker) ↔
      worst.writtenBytes ≤ presentationLimit call.tracker := by
    rw [hworst]
    exact ⟨fun h => h worst rfl,fun h found heq => Except.ok.inj heq ▸ h⟩
  have hprep : prepareAnswer keys call code challenge=do
      require (byteLength text ≤ presentationLimit call.tracker) .outputBudget
      (charge call.tracker worst 1).2
      return bytes := by
    rw [prepareAnswer,hbytes,hworst]
    change encodedText worst >>= _=_
    rw [htext]
    rfl
  rw [hfits,hprep,bind_unit_ok_iff,bind_unit_ok_iff,require_ok_iff,hsize,
    and_iff_left (pure_ok_iff.2 rfl)]
  exact and_congr_right fun h => charge_worst h

/-- The response names an entry that holds the evidence of the challenge. -/
def Delivers (keys : Keys Nonce Mac Id) (challenge : ApprovalChallenge Nonce)
    (response : FinalResponse) (store : State Id) : Prop :=
  ∃ code reference bytes entry, response.error=some (approvalError code reference) ∧
    evidence keys challenge=.ok bytes ∧
    store.byAlias.lookup reference.toNat=some entry ∧ entry.Holds keys.contentHash bytes

omit [DecidableEq Nonce] [DecidableEq Mac] in
theorem Answerable.answer_ok (h : Answerable call code challenge) :
    ∃ response, (answer keys call code challenge).2=.ok response ∧
      Delivers keys challenge response (answer keys call code challenge).1 := by
  obtain ⟨bytes,hbytes⟩ := evidence_total keys challenge
  obtain ⟨after,ref,hretain,⟨hpos,hlt⟩,entry,hentry,hholds⟩ :=
    retain_named call.consistent (h.room bytes hbytes)
  have hnat : (UInt64.ofNat ref).toNat=ref := UInt64.toNat_ofNat_of_lt' hlt
  have hne : UInt64.ofNat ref≠0 := by
    intro hzero
    rw [hzero,UInt64.toNat_zero] at hnat
    omega
  obtain ⟨response,hresp,herror⟩ := approvalResponse_ok code call.request.id_ne_zero hne
  have hanswer : answer keys call code challenge=(after,.ok response) := by
    rw [answer,(prepareAnswer_ok_iff hbytes).2 ⟨h.fits,h.record⟩]
    simp only [hretain,hresp]
  rw [hanswer]
  refine ⟨response,rfl,code,UInt64.ofNat ref,bytes,entry,herror,hbytes,?_,hholds⟩
  rw [hnat]
  exact hentry

end Answers

end Ash.Authorizations
