import Ash.ByteCodecs
import Ash.KeyedTables

/-! # Approval permits

Challenges, the permits issued for them and their verification.  The keyed hash of the
authority is taken to be injective. -/

namespace Ash.PermitAuthorities
open ByteCodecs KeyedTables

def maxPendingPermits : ℕ := 4096
def maxUsedPermits : ℕ := 4096
def approvalChallengeVersion : UInt8 := 1
def allCapabilityMask : UInt64 := 15

def nonceDomain : List UInt8 :=
  utf8 ['a','s','h','-','a','p','p','r','o','v','a','l','-','n','o','n','c','e','-','v','1','\x00']

def tokenDomain : List UInt8 :=
  utf8 ['a','s','h','-','a','p','p','r','o','v','a','l','-','t','o','k','e','n','-','v','1','\x00']

def toBeBytes (n : UInt64) : List UInt8 := bigEndian 8 n.toNat

/-- The hash under the authority's key, for nonces and for the authenticators of signed
values, which end with the nonce. -/
structure KeyedHash (Nonce Mac : Type) where
  zero : Nonce
  nonceHash : List UInt8 → Nonce
  tokenMac : List UInt8 → Nonce → Mac
  nonceHash_injective : Function.Injective nonceHash
  tokenMac_injective : Function.Injective2 tokenMac

inductive ApprovalValueError where
  | fields
  | version
  | unsigned (field : Char)
  | capability
  | digest
  | token
  deriving DecidableEq

inductive AuthorizationError where
  | invalidChallenge
  | invalidToken
  | replay
  | capacity
  | nonceExhausted
  | clock
  | value (error : ApprovalValueError)
  deriving DecidableEq

structure ApprovalChallenge (Nonce : Type) where
  sessionId : UInt64
  capabilities : UInt64
  expiresAtMillis : UInt64
  sessionBinding : Vector UInt8 16
  policyDigest : Vector UInt8 16
  actionDigest : Vector UInt8 32
  nonce : Nonce
  deriving DecidableEq

structure ApprovalToken (Nonce Mac : Type) where
  nonce : Nonce
  mac : Mac
  deriving DecidableEq

structure PermitState (Nonce : Type) where
  pending : Table Nonce (ApprovalChallenge Nonce)
  used : Table Nonce UInt64

structure PermitAuthority (Nonce : Type) where
  sessionBinding : Vector UInt8 16
  policyDigest : Vector UInt8 16
  counter : UInt64
  state : PermitState Nonce

variable {Nonce Mac : Type}

def PermitAuthority.new (sessionBinding policyDigest : Vector UInt8 16) : PermitAuthority Nonce :=
  ⟨sessionBinding,policyDigest,0,⟨∅,∅⟩⟩

def purgeExpired (state : PermitState Nonce) (now : UInt64) : PermitState Nonce :=
  ⟨retain (fun challenge => decide (now < challenge.expiresAtMillis)) state.pending,
    retain (fun expiry => decide (now < expiry)) state.used⟩

def PermitAuthority.purge (authority : PermitAuthority Nonce) (now : UInt64) :
    PermitAuthority Nonce :=
  { authority with state := purgeExpired authority.state now }

/-- What is hashed into the nonce of a challenge. -/
def nonceMaterial (challenge : ApprovalChallenge Nonce) (counter : UInt64) : List UInt8 :=
  nonceDomain++challenge.sessionBinding.toList++toBeBytes challenge.sessionId ++
    toBeBytes challenge.capabilities++toBeBytes challenge.expiresAtMillis++toBeBytes counter ++
    challenge.actionDigest.toList

/-- The signed bytes before the nonce. -/
def signingBytes (challenge : ApprovalChallenge Nonce) : List UInt8 :=
  [approvalChallengeVersion]++toBeBytes challenge.sessionId ++
    toBeBytes challenge.capabilities++toBeBytes challenge.expiresAtMillis ++
    challenge.sessionBinding.toList++challenge.policyDigest.toList ++
    challenge.actionDigest.toList

def challengeMac (hash : KeyedHash Nonce Mac) (challenge : ApprovalChallenge Nonce) : Mac :=
  hash.tokenMac (tokenDomain++signingBytes challenge) challenge.nonce

def sign (hash : KeyedHash Nonce Mac) (challenge : ApprovalChallenge Nonce) :
    ApprovalToken Nonce Mac :=
  ⟨challenge.nonce,challengeMac hash challenge⟩

variable [DecidableEq Nonce] [DecidableEq Mac]

variable (hash : KeyedHash Nonce Mac) (authority : PermitAuthority Nonce)
  (token : ApprovalToken Nonce Mac) (now : UInt64) (reading : Option UInt64)
  (sessionId capabilities : UInt64)

def ApprovalChallenge.validate (challenge : ApprovalChallenge Nonce) :
    Except ApprovalValueError Unit :=
  if challenge.sessionId=0 then .error (.unsigned 's')
  else if challenge.capabilities=0 ∨ challenge.capabilities &&& ~~~ allCapabilityMask≠0 then
    .error .capability
  else if challenge.expiresAtMillis=0 then .error (.unsigned 'e')
  else if challenge.sessionBinding=Vector.replicate 16 0 ∨
      challenge.policyDigest=Vector.replicate 16 0 ∨
      challenge.actionDigest=Vector.replicate 32 0 ∨ challenge.nonce=hash.zero then
    .error .digest
  else .ok ()

/-- A clock reading is missing when the clock cannot be read. -/
def issue (challenge : ApprovalChallenge Nonce) :
    PermitAuthority Nonce × Except AuthorizationError (ApprovalToken Nonce Mac) :=
  match reading with
  | none => (authority,.error .clock)
  | some now =>
      if challenge.sessionBinding≠authority.sessionBinding ∨
          challenge.policyDigest≠authority.policyDigest ∨ challenge.expiresAtMillis ≤ now then
        (authority,.error .invalidChallenge)
      else if (authority.purge now).state.pending.lookup challenge.nonce≠some challenge then
        (authority.purge now,.error .invalidChallenge)
      else (authority.purge now,.ok (sign hash challenge))

/-- The challenge that the next counter value gives. -/
def prepare (expires : UInt64) (actionDigest : Vector UInt8 32) : ApprovalChallenge Nonce :=
  let challenge : ApprovalChallenge Nonce := ⟨sessionId,capabilities,expires,
    authority.sessionBinding,authority.policyDigest,actionDigest,hash.zero⟩
  { challenge with nonce := hash.nonceHash (nonceMaterial challenge authority.counter) }

def PermitAuthority.advance : PermitAuthority Nonce :=
  { authority with counter := authority.counter+1 }

def PermitAuthority.suspend (challenge : ApprovalChallenge Nonce) : PermitAuthority Nonce :=
  { authority with
    state := ⟨authority.state.pending.insert challenge.nonce challenge,authority.state.used⟩ }

def registerChallenge (challenge : ApprovalChallenge Nonce) :
    PermitAuthority Nonce × Except AuthorizationError (ApprovalChallenge Nonce) :=
  match challenge.validate hash with
  | .error error => (authority,.error (.value error))
  | .ok () =>
      if maxPendingPermits ≤ size (authority.purge now).state.pending then
        (authority.purge now,.error .capacity)
      else if challenge.nonce∈(authority.purge now).state.pending then
        (authority.purge now,.error .invalidChallenge)
      else ((authority.purge now).suspend challenge,.ok challenge)

/-- The counter is spent even when the challenge is not registered. -/
def challenge (actionDigest : Vector UInt8 32) (ttlMillis : ℕ) :
    PermitAuthority Nonce × Except AuthorizationError (ApprovalChallenge Nonce) :=
  match reading with
  | none => (authority,.error .clock)
  | some now =>
      if 2 ^ 64 ≤ ttlMillis then (authority,.error .clock)
      else if 2 ^ 64 ≤ now.toNat+ttlMillis then (authority,.error .clock)
      else if 2 ^ 64 ≤ authority.counter.toNat+1 then (authority,.error .nonceExhausted)
      else registerChallenge hash authority.advance now
        (prepare hash authority sessionId capabilities (now+UInt64.ofNat ttlMillis) actionDigest)

def PermitAuthority.consume (challenge : ApprovalChallenge Nonce) (nonce : Nonce) :
    PermitAuthority Nonce :=
  { authority with
    state := ⟨authority.state.pending.erase nonce,
      authority.state.used.insert nonce challenge.expiresAtMillis⟩ }

/-- Whether a pending challenge is the one that a permit is used for. -/
def Matches (actionDigest : Vector UInt8 32) (challenge : ApprovalChallenge Nonce) : Prop :=
  challenge.sessionId=sessionId ∧ challenge.capabilities=capabilities ∧
    challenge.sessionBinding=authority.sessionBinding ∧
    challenge.policyDigest=authority.policyDigest ∧ challenge.actionDigest=actionDigest ∧
    now < challenge.expiresAtMillis

instance (authority : PermitAuthority Nonce) (now sessionId capabilities : UInt64)
    (actionDigest : Vector UInt8 32) (challenge : ApprovalChallenge Nonce) :
    Decidable (Matches authority now sessionId capabilities actionDigest challenge) :=
  inferInstanceAs (Decidable (_ ∧ _))

def redeem (actionDigest : Vector UInt8 32) :
    PermitAuthority Nonce × Except AuthorizationError Unit :=
  if token.nonce∈authority.state.used then (authority,.error .replay)
  else match authority.state.pending.lookup token.nonce with
    | none => (authority,.error .invalidToken)
    | some challenge =>
        if ¬ Matches authority now sessionId capabilities actionDigest challenge then
          (authority,.error .invalidToken)
        else if challengeMac hash challenge≠token.mac then (authority,.error .invalidToken)
        else if maxUsedPermits ≤ size authority.state.used then (authority,.error .capacity)
        else (authority.consume challenge token.nonce,.ok ())

def verify (actionDigest : Vector UInt8 32) :
    PermitAuthority Nonce × Except AuthorizationError Unit :=
  match reading with
  | none => (authority,.error .clock)
  | some now => redeem hash (authority.purge now) token now sessionId capabilities actionDigest

end Ash.PermitAuthorities
