import Ash.PermitAuthorities

/-! # Runs of a permit authority

Calls in any order with any clock readings.  Whoever presents permits can produce a valid
authenticator only by having it issued. -/

namespace Ash.PermitAuthorities
open ByteCodecs KeyedTables

variable {Nonce Mac : Type}

/-! ## Nonces and signatures -/

@[simp] theorem length_toBeBytes (n : UInt64) : (toBeBytes n).length=8 := length_bigEndian 8 _

theorem toBeBytes_injective : Function.Injective toBeBytes := by
  intro m n h
  have hvalue := congrArg ofBigEndian h
  simp only [toBeBytes,ofBigEndian_bigEndian] at hvalue
  have hm := m.toNat_lt
  have hn := n.toNat_lt
  apply UInt64.toNat_inj.1
  omega

variable {left right : ApprovalChallenge Nonce} {reading : Option UInt64} {nonce : Nonce}

theorem nonceMaterial_counter {m n : UInt64} (h : nonceMaterial left m=nonceMaterial right n) :
    m=n := by
  unfold nonceMaterial at h
  obtain ⟨hfront,-⟩ := List.append_inj' h (by simp)
  obtain ⟨-,hctr⟩ := List.append_inj' hfront (by simp)
  exact toBeBytes_injective hctr

theorem signingBytes_injective (h : signingBytes left=signingBytes right)
    (hnonce : left.nonce=right.nonce) : left=right := by
  unfold signingBytes at h
  obtain ⟨h,haction⟩ := List.append_inj' h (by simp)
  obtain ⟨h,hpolicy⟩ := List.append_inj' h (by simp)
  obtain ⟨h,hbinding⟩ := List.append_inj' h (by simp)
  obtain ⟨h,hexp⟩ := List.append_inj' h (by simp)
  obtain ⟨h,hcaps⟩ := List.append_inj' h (by simp)
  obtain ⟨-,hsess⟩ := List.append_inj' h (by simp)
  obtain ⟨sessionId,capabilities,expires,binding,policy,action,nonce⟩ := left
  simp only at *
  rw [toBeBytes_injective hsess,toBeBytes_injective hcaps,toBeBytes_injective hexp,
    Vector.toList_inj.1 hbinding,Vector.toList_inj.1 hpolicy,Vector.toList_inj.1 haction,hnonce]

/-- An authenticator belongs to one challenge. -/
theorem challengeMac_injective (hash : KeyedHash Nonce Mac) :
    Function.Injective (challengeMac hash) := by
  intro left right h
  obtain ⟨hbytes,hnonce⟩ := hash.tokenMac_injective h
  exact signingBytes_injective (List.append_cancel_left hbytes) hnonce

theorem prepare_nonce {hash : KeyedHash Nonce Mac} {authority : PermitAuthority Nonce}
    (sessionId capabilities expires : UInt64) (actionDigest : Vector UInt8 32) :
    (prepare hash authority sessionId capabilities expires actionDigest).nonce =
      hash.nonceHash (nonceMaterial
        (prepare hash authority sessionId capabilities expires actionDigest) authority.counter) :=
  rfl

/-! ## Expiry -/

variable [DecidableEq Nonce]

/-- Nothing changed but that expired entries may be gone. -/
structure Expires (reading : Option UInt64) (old new : PermitState Nonce) : Prop where
  pending : ∀ nonce, new.pending.lookup nonce=old.pending.lookup nonce ∨
    new.pending.lookup nonce=none ∧ ∃ now challenge, reading=some now ∧
      old.pending.lookup nonce=some challenge ∧ challenge.expiresAtMillis ≤ now
  used : ∀ nonce, new.used.lookup nonce=old.used.lookup nonce ∨
    new.used.lookup nonce=none ∧ ∃ now expiry, reading=some now ∧
      old.used.lookup nonce=some expiry ∧ expiry ≤ now
  pendingSize : size new.pending ≤ size old.pending
  usedSize : size new.used ≤ size old.used

theorem Expires.refl (reading : Option UInt64) (state : PermitState Nonce) :
    Expires reading state state :=
  ⟨fun _ => .inl rfl,fun _ => .inl rfl,le_rfl,le_rfl⟩

theorem lookup_retain_cases {V : Type} (keep : V → Bool) (table : Table Nonce V) (nonce : Nonce) :
    (retain keep table).lookup nonce=table.lookup nonce ∨
      (retain keep table).lookup nonce=none ∧
        ∃ value, table.lookup nonce=some value ∧ keep value=false := by
  rw [lookup_retain]
  cases hlook : table.lookup nonce with
  | none => exact .inl rfl
  | some value =>
    cases hkeep : keep value with
    | true => exact .inl (by simp [hkeep])
    | false => exact .inr ⟨by simp [hkeep],value,rfl,hkeep⟩

theorem expires_purgeExpired (state : PermitState Nonce) (now : UInt64) :
    Expires (some now) state (purgeExpired state now) where
  pending nonce := by
    refine (lookup_retain_cases _ state.pending nonce).imp_right ?_
    rintro ⟨hnone,challenge,hlook,hkeep⟩
    exact ⟨hnone,now,challenge,rfl,hlook,UInt64.not_lt.1 (of_decide_eq_false hkeep)⟩
  used nonce := by
    refine (lookup_retain_cases _ state.used nonce).imp_right ?_
    rintro ⟨hnone,expiry,hlook,hkeep⟩
    exact ⟨hnone,now,expiry,rfl,hlook,UInt64.not_lt.1 (of_decide_eq_false hkeep)⟩
  pendingSize := size_retain_le _ _
  usedSize := size_retain_le _ _

theorem Expires.pending_of_lookup {old new : PermitState Nonce} (h : Expires reading old new)
    {challenge : ApprovalChallenge Nonce} (hnew : new.pending.lookup nonce=some challenge) :
    old.pending.lookup nonce=some challenge := by
  obtain heq | ⟨hnone,-⟩ := h.pending nonce
  · rw [← heq,hnew]
  · rw [hnone] at hnew
    cases hnew

theorem Expires.used_of_lookup {old new : PermitState Nonce} (h : Expires reading old new)
    {expiry : UInt64} (hnew : new.used.lookup nonce=some expiry) :
    old.used.lookup nonce=some expiry := by
  obtain heq | ⟨hnone,-⟩ := h.used nonce
  · rw [← heq,hnew]
  · rw [hnone] at hnew
    cases hnew

/-! ## What a call can do -/

variable (hash : KeyedHash Nonce Mac) (authority : PermitAuthority Nonce)

theorem issue_cases (reading : Option UInt64) (challenge : ApprovalChallenge Nonce) :
    Expires reading authority.state (issue hash authority reading challenge).1.state ∧
      (issue hash authority reading challenge).1.counter=authority.counter ∧
      ∀ token, (issue hash authority reading challenge).2=.ok token →
        token=sign hash challenge := by
  unfold issue
  cases reading with
  | none => exact ⟨.refl _ _,rfl,fun token h => nomatch h⟩
  | some now =>
    simp only
    split_ifs with hmatch hpend
    · exact ⟨.refl _ _,rfl,fun token h => nomatch h⟩
    · exact ⟨expires_purgeExpired _ _,rfl,fun token h => nomatch h⟩
    · exact ⟨expires_purgeExpired _ _,rfl,fun token h => (Except.ok.inj h).symm⟩

/-- A challenge is refused, or it is the next one and is pending. -/
theorem challenge_cases (reading : Option UInt64) (sessionId capabilities : UInt64)
    (actionDigest : Vector UInt8 32) (ttlMillis : ℕ) :
    (∃ next error, challenge hash authority reading sessionId capabilities actionDigest ttlMillis =
      (next,.error error) ∧ Expires reading authority.state next.state ∧
      authority.counter ≤ next.counter) ∨
    ∃ now expires, reading=some now ∧ authority.counter < authority.counter+1 ∧
      size (purgeExpired authority.state now).pending < maxPendingPermits ∧
      challenge hash authority reading sessionId capabilities actionDigest ttlMillis =
        ((authority.advance.purge now).suspend
          (prepare hash authority sessionId capabilities expires actionDigest),
          .ok (prepare hash authority sessionId capabilities expires actionDigest)) ∧
      (prepare hash authority sessionId capabilities expires actionDigest).nonce ∉
        (purgeExpired authority.state now).pending := by
  unfold challenge
  cases reading with
  | none => exact .inl ⟨_,.clock,rfl,.refl _ _,UInt64.le_refl _⟩
  | some now =>
    simp only
    split_ifs with httl hexp hctr
    · exact .inl ⟨_,.clock,rfl,.refl _ _,UInt64.le_refl _⟩
    · exact .inl ⟨_,.clock,rfl,.refl _ _,UInt64.le_refl _⟩
    · exact .inl ⟨_,.nonceExhausted,rfl,.refl _ _,UInt64.le_refl _⟩
    · have hlt : authority.counter < authority.counter+1 := by
        rw [UInt64.lt_iff_toNat_lt,UInt64.toNat_add,UInt64.toNat_one]
        omega
      unfold registerChallenge
      split
      · next error _ =>
        exact .inl ⟨_,.value error,rfl,.refl _ _,UInt64.le_of_lt hlt⟩
      · split_ifs with hsize hmem
        · exact .inl ⟨_,.capacity,rfl,expires_purgeExpired _ _,UInt64.le_of_lt hlt⟩
        · exact .inl ⟨_,.invalidChallenge,rfl,expires_purgeExpired _ _,UInt64.le_of_lt hlt⟩
        · exact .inr ⟨now,_,rfl,hlt,Nat.lt_of_not_le hsize,rfl,hmem⟩

variable [DecidableEq Mac]

/-- A permit is refused, or it is for the pending challenge of its nonce, which is consumed. -/
theorem verify_cases (token : ApprovalToken Nonce Mac) (reading : Option UInt64)
    (sessionId capabilities : UInt64) (actionDigest : Vector UInt8 32) :
    (∃ next error, verify hash authority token reading sessionId capabilities actionDigest =
      (next,.error error) ∧ Expires reading authority.state next.state ∧
      next.counter=authority.counter) ∨
    ∃ now challenge, reading=some now ∧
      (purgeExpired authority.state now).pending.lookup token.nonce=some challenge ∧
      Matches authority now sessionId capabilities actionDigest challenge ∧
      challengeMac hash challenge=token.mac ∧
      token.nonce∉(purgeExpired authority.state now).used ∧
      size (purgeExpired authority.state now).used < maxUsedPermits ∧
      verify hash authority token reading sessionId capabilities actionDigest =
        ((authority.purge now).consume challenge token.nonce,.ok ()) := by
  unfold verify
  cases reading with
  | none => exact .inl ⟨_,.clock,rfl,.refl _ _,rfl⟩
  | some now =>
    simp only
    unfold redeem
    by_cases hused : token.nonce∈(authority.purge now).state.used
    · rw [if_pos hused]
      exact .inl ⟨_,.replay,rfl,expires_purgeExpired _ _,rfl⟩
    · rw [if_neg hused]
      cases hlook : (authority.purge now).state.pending.lookup token.nonce with
      | none => exact .inl ⟨_,.invalidToken,rfl,expires_purgeExpired _ _,rfl⟩
      | some challenge =>
        simp only
        split_ifs with hmatch hmac hsize
        · exact .inl ⟨_,.invalidToken,rfl,expires_purgeExpired _ _,rfl⟩
        · exact .inl ⟨_,.capacity,rfl,expires_purgeExpired _ _,rfl⟩
        · exact .inr ⟨now,challenge,rfl,hlook,hmatch,not_not.1 hmac,hused,Nat.lt_of_not_le hsize,
            rfl⟩
        · exact .inl ⟨_,.invalidToken,rfl,expires_purgeExpired _ _,rfl⟩

/-! ## Runs -/

variable {hash authority}

/-- A call and what it answered. -/
inductive Event (Nonce Mac : Type) where
  | challenge (reading : Option UInt64) (sessionId capabilities : UInt64)
      (actionDigest : Vector UInt8 32) (ttlMillis : ℕ)
      (reply : Except AuthorizationError (ApprovalChallenge Nonce))
  | issue (reading : Option UInt64) (challenge : ApprovalChallenge Nonce)
      (reply : Except AuthorizationError (ApprovalToken Nonce Mac))
  | verify (token : ApprovalToken Nonce Mac) (reading : Option UInt64)
      (sessionId capabilities : UInt64) (actionDigest : Vector UInt8 32)
      (reply : Except AuthorizationError Unit)

inductive Step (hash : KeyedHash Nonce Mac) (authority : PermitAuthority Nonce) :
    Event Nonce Mac → PermitAuthority Nonce → Prop
  | challenge (reading : Option UInt64) (sessionId capabilities : UInt64)
      (actionDigest : Vector UInt8 32) (ttlMillis : ℕ) :
      Step hash authority
        (.challenge reading sessionId capabilities actionDigest ttlMillis
          (challenge hash authority reading sessionId capabilities actionDigest ttlMillis).2)
        (challenge hash authority reading sessionId capabilities actionDigest ttlMillis).1
  | issue (reading : Option UInt64) (challenge : ApprovalChallenge Nonce) :
      Step hash authority (.issue reading challenge (issue hash authority reading challenge).2)
        (issue hash authority reading challenge).1
  | verify (token : ApprovalToken Nonce Mac) (reading : Option UInt64)
      (sessionId capabilities : UInt64) (actionDigest : Vector UInt8 32) :
      Step hash authority
        (.verify token reading sessionId capabilities actionDigest
          (verify hash authority token reading sessionId capabilities actionDigest).2)
        (verify hash authority token reading sessionId capabilities actionDigest).1

/-- A challenge was given out for its own session, capabilities and action. -/
def Created (events : List (Event Nonce Mac)) (challenge : ApprovalChallenge Nonce) : Prop :=
  ∃ reading ttlMillis, .challenge reading challenge.sessionId challenge.capabilities
    challenge.actionDigest ttlMillis (.ok challenge)∈events

def Issued (events : List (Event Nonce Mac)) (challenge : ApprovalChallenge Nonce)
    (token : ApprovalToken Nonce Mac) : Prop :=
  ∃ reading, .issue reading challenge (.ok token)∈events

def Accepts (token : ApprovalToken Nonce Mac) (event : Event Nonce Mac) : Prop :=
  ∃ reading sessionId capabilities actionDigest,
    event=.verify token reading sessionId capabilities actionDigest (.ok ())

def Spent (events : List (Event Nonce Mac)) (nonce : Nonce) : Prop :=
  ∃ token, token.nonce=nonce ∧ ∃ event∈events, Accepts token event

/-- A presented permit with a valid authenticator has the authenticator of an issued one. -/
def Producible (hash : KeyedHash Nonce Mac) (events : List (Event Nonce Mac)) :
    Event Nonce Mac → Prop
  | .verify token _ _ _ _ _ => (∃ challenge, challengeMac hash challenge=token.mac) →
      ∃ challenge issued, Issued events challenge issued ∧ issued.mac=token.mac
  | _ => True

/-- The calls so far, latest first, and the authority after them. -/
inductive Run (hash : KeyedHash Nonce Mac) (sessionBinding policyDigest : Vector UInt8 16) :
    List (Event Nonce Mac) → PermitAuthority Nonce → Prop
  | start : Run hash sessionBinding policyDigest [] (.new sessionBinding policyDigest)
  | step {events authority next event} : Run hash sessionBinding policyDigest events authority →
      Producible hash events event → Step hash authority event next →
      Run hash sessionBinding policyDigest (event::events) next

/-- An accepted permit is for a challenge that was given out for just what is now asked, was
approved, and has not expired. -/
def Justified (earlier : List (Event Nonce Mac)) (event : Event Nonce Mac) : Prop :=
  ∀ token reading sessionId capabilities actionDigest,
    event=.verify token reading sessionId capabilities actionDigest (.ok ()) →
    ∃ now challenge, reading=some now ∧ Created earlier challenge ∧
      challenge.sessionId=sessionId ∧ challenge.capabilities=capabilities ∧
      challenge.actionDigest=actionDigest ∧ Issued earlier challenge token ∧
      now < challenge.expiresAtMillis

structure Consistent (hash : KeyedHash Nonce Mac) (events : List (Event Nonce Mac))
    (authority : PermitAuthority Nonce) : Prop where
  created : ∀ challenge, Created events challenge → ∃ counter, counter < authority.counter ∧
    challenge.nonce=hash.nonceHash (nonceMaterial challenge counter)
  pending : ∀ nonce challenge, authority.state.pending.lookup nonce=some challenge →
    challenge.nonce=nonce ∧ Created events challenge ∧ ¬ Spent events nonce
  used : ∀ nonce expiry, authority.state.used.lookup nonce=some expiry → Spent events nonce
  spent : ∀ nonce, Spent events nonce → ∃ challenge, Created events challenge ∧
    challenge.nonce=nonce
  issued : ∀ challenge token, Issued events challenge token → token=sign hash challenge
  pendingSize : size authority.state.pending ≤ maxPendingPermits
  usedSize : size authority.state.used ≤ maxUsedPermits

section
variable {events : List (Event Nonce Mac)} {event : Event Nonce Mac}

def readingOf : Event Nonce Mac → Option UInt64
  | .challenge reading _ _ _ _ _ => reading
  | .issue reading _ _ => reading
  | .verify _ reading _ _ _ _ => reading

section Events
omit [DecidableEq Nonce] [DecidableEq Mac]

theorem created_append {later : List (Event Nonce Mac)} {challenge : ApprovalChallenge Nonce} :
    Created (later++events) challenge ↔ Created later challenge ∨ Created events challenge := by
  simp only [Created,List.mem_append,exists_or]

theorem created_cons {challenge : ApprovalChallenge Nonce} :
    Created (event::events) challenge ↔ Created [event] challenge ∨ Created events challenge := by
  rw [← created_append,List.singleton_append]

/-- Only the event of a challenge that is given out creates it. -/
theorem created_singleton {challenge : ApprovalChallenge Nonce} :
    Created [event] challenge ↔ ∃ reading ttlMillis, event=.challenge reading challenge.sessionId
      challenge.capabilities challenge.actionDigest ttlMillis (.ok challenge) := by
  simp only [Created,List.mem_singleton,eq_comm]

theorem spent_cons {nonce : Nonce} : Spent (event::events) nonce ↔
    (∃ token, token.nonce=nonce ∧ Accepts token event) ∨ Spent events nonce := by
  simp only [Spent,List.mem_cons,exists_eq_or_imp,and_or_left,exists_or]

end Events

omit [DecidableEq Mac] in
/-- The counter makes every nonce a new one. -/
theorem Consistent.nonce_fresh {challenge : ApprovalChallenge Nonce}
    (h : Consistent hash events authority)
    (hnonce : challenge.nonce=hash.nonceHash (nonceMaterial challenge authority.counter))
    {old : ApprovalChallenge Nonce} (hold : Created events old) : old.nonce≠challenge.nonce := by
  intro heq
  obtain ⟨counter,hlt,hold⟩ := h.created old hold
  rw [hold,hnonce] at heq
  have hctr := nonceMaterial_counter (hash.nonceHash_injective heq)
  rw [hctr] at hlt
  exact UInt64.lt_irrefl _ hlt

/-- What a call does once expired entries are gone: nothing more, or it gives out a challenge, or
it uses one up. -/
inductive Effect (hash : KeyedHash Nonce Mac) (authority : PermitAuthority Nonce)
    (event : Event Nonce Mac) (middle : PermitState Nonce) (next : PermitAuthority Nonce) : Prop
  | quiet (state : next.state=middle) (counter : authority.counter ≤ next.counter)
      (created : ∀ challenge, ¬ Created [event] challenge) (accepts : ∀ token, ¬ Accepts token event)
  | given (challenge : ApprovalChallenge Nonce)
      (nonce : challenge.nonce=hash.nonceHash (nonceMaterial challenge authority.counter))
      (state : next.state=⟨middle.pending.insert challenge.nonce challenge,middle.used⟩)
      (pendingSize : size next.state.pending ≤ maxPendingPermits)
      (counter : authority.counter < next.counter)
      (created : ∀ other, Created [event] other ↔ other=challenge)
      (accepts : ∀ token, ¬ Accepts token event)
  | used (challenge : ApprovalChallenge Nonce) (token : ApprovalToken Nonce Mac)
      (lookup : middle.pending.lookup token.nonce=some challenge)
      (state : next.state=⟨middle.pending.erase token.nonce,
        middle.used.insert token.nonce challenge.expiresAtMillis⟩)
      (usedSize : size next.state.used ≤ maxUsedPermits)
      (counter : next.counter=authority.counter)
      (created : ∀ challenge, ¬ Created [event] challenge)
      (accepts : ∀ other, Accepts other event ↔ other=token)

theorem Step.effect {next : PermitAuthority Nonce} (hstep : Step hash authority event next) :
    ∃ middle, Expires (readingOf event) authority.state middle ∧
      Effect hash authority event middle next := by
  cases hstep with
  | issue reading challenge =>
    obtain ⟨hexp,hctr,-⟩ := issue_cases hash authority reading challenge
    refine ⟨_,hexp,.quiet rfl (UInt64.le_of_eq hctr.symm) (fun other hother => ?_) ?_⟩
    · obtain ⟨_,_,hevent⟩ := created_singleton.1 hother
      cases hevent
    · rintro token ⟨_,_,_,_,hevent⟩
      cases hevent
  | challenge reading sessionId capabilities actionDigest ttlMillis =>
    obtain ⟨_,error,heq,hexp,hctr⟩ | ⟨now,expires,rfl,hctr,hsize,heq,hnew⟩ :=
      challenge_cases hash authority reading sessionId capabilities actionDigest ttlMillis
    · rw [heq]
      refine ⟨_,hexp,.quiet rfl hctr (fun other hother => ?_) ?_⟩
      · obtain ⟨_,_,hevent⟩ := created_singleton.1 hother
        cases hevent
      · rintro token ⟨_,_,_,_,hevent⟩
        cases hevent
    · rw [heq]
      refine ⟨_,expires_purgeExpired authority.state now,.given
        (prepare hash authority sessionId capabilities expires actionDigest)
        (prepare_nonce sessionId capabilities expires actionDigest) rfl
        ((size_insert hnew _).trans_le hsize) hctr (fun other => ?_) ?_⟩
      · rw [created_singleton]
        constructor
        · rintro ⟨_,_,hevent⟩
          injection hevent with _ _ _ _ _ hreply
          exact (Except.ok.inj hreply).symm
        · rintro rfl
          exact ⟨_,_,rfl⟩
      · rintro token ⟨_,_,_,_,hevent⟩
        cases hevent
  | verify token reading sessionId capabilities actionDigest =>
    have hmade : ∀ reply challenge, ¬ Created [Event.verify token reading sessionId capabilities
        actionDigest reply] challenge := by
      intro reply challenge hmade
      obtain ⟨_,_,hevent⟩ := created_singleton.1 hmade
      cases hevent
    obtain ⟨_,error,heq,hexp,hctr⟩ |
        ⟨now,challenge,rfl,hlook,-,-,hunused,hsize,heq⟩ :=
      verify_cases hash authority token reading sessionId capabilities actionDigest
    · rw [heq]
      refine ⟨_,hexp,.quiet rfl (UInt64.le_of_eq hctr.symm) (hmade _) ?_⟩
      rintro other ⟨_,_,_,_,hevent⟩
      cases hevent
    · rw [heq]
      refine ⟨_,expires_purgeExpired authority.state now,.used challenge token hlook rfl
        ((size_insert hunused _).trans_le hsize) rfl (hmade _) fun other => ?_⟩
      constructor
      · rintro ⟨_,_,_,_,hevent⟩
        injection hevent with htoken
        exact htoken.symm
      · rintro rfl
        exact ⟨_,_,_,_,rfl⟩

variable {token : ApprovalToken Nonce Mac}

theorem Step.issued {next : PermitAuthority Nonce} (hstep : Step hash authority event next)
    {challenge : ApprovalChallenge Nonce} (h : Issued [event] challenge token) :
    token=sign hash challenge := by
  obtain ⟨reading,hmem⟩ := h
  obtain rfl := List.mem_singleton.1 hmem
  generalize hevent : Event.issue reading challenge (.ok token)=event at hstep
  cases hstep with
  | issue reading' other =>
    injection hevent with _ hother hreply
    obtain rfl := hother
    exact (issue_cases hash authority reading' challenge).2.2 token hreply.symm
  | challenge => cases hevent
  | verify => cases hevent

/-- The calls so far stay consistent with one more, from what it does to the entries. -/
theorem Consistent.step {next : PermitAuthority Nonce} (h : Consistent hash events authority)
    (hstep : Step hash authority event next) : Consistent hash (event::events) next := by
  obtain ⟨middle,hexp,heffect⟩ := hstep.effect
  have hissued : ∀ challenge token, Issued (event::events) challenge token →
      token=sign hash challenge := by
    rintro challenge token ⟨reading,hmem⟩
    obtain rfl | hmem := List.mem_cons.1 hmem
    · exact hstep.issued ⟨reading,List.mem_singleton_self _⟩
    · exact h.issued challenge token ⟨reading,hmem⟩
  have hpend : ∀ nonce challenge, middle.pending.lookup nonce=some challenge →
      challenge.nonce=nonce ∧ Created (event::events) challenge ∧ ¬ Spent events nonce := by
    intro nonce challenge hlook
    obtain ⟨heq,hold,hunspent⟩ := h.pending nonce challenge (hexp.pending_of_lookup hlook)
    exact ⟨heq,created_cons.2 (.inr hold),hunspent⟩
  have hused : ∀ nonce expiry, middle.used.lookup nonce=some expiry → Spent events nonce :=
    fun nonce expiry hlook => h.used nonce expiry (hexp.used_of_lookup hlook)
  have hbefore : ∀ nonce, Spent events nonce →
      ∃ challenge, Created (event::events) challenge ∧ challenge.nonce=nonce := by
    intro nonce hmem
    obtain ⟨challenge,hold,heq⟩ := h.spent nonce hmem
    exact ⟨challenge,created_cons.2 (.inr hold),heq⟩
  have hpendingSize := hexp.pendingSize.trans h.pendingSize
  have husedSize := hexp.usedSize.trans h.usedSize
  have hmade : authority.counter ≤ next.counter → (∀ challenge, Created [event] challenge →
        ∃ counter, counter < next.counter ∧
          challenge.nonce=hash.nonceHash (nonceMaterial challenge counter)) →
      ∀ challenge, Created (event::events) challenge → ∃ counter, counter < next.counter ∧
        challenge.nonce=hash.nonceHash (nonceMaterial challenge counter) := by
    intro hle hnew challenge hchal
    refine (created_cons.1 hchal).elim (hnew challenge) fun hold => ?_
    obtain ⟨counter,hlt,hnonce⟩ := h.created challenge hold
    exact ⟨counter,UInt64.lt_of_lt_of_le hlt hle,hnonce⟩
  have hunspent : (∀ token, ¬ Accepts token event) → ∀ nonce, Spent (event::events) nonce ↔
      Spent events nonce := fun haccs nonce =>
    spent_cons.trans (or_iff_right fun ⟨token,_,htoken⟩ => haccs token htoken)
  cases heffect with
  | quiet hstate hctr hnone haccs =>
    simp only [← hstate] at hpend hused hpendingSize husedSize
    refine ⟨hmade hctr fun challenge hnew => absurd hnew (hnone challenge),?_,?_,?_,hissued,
      hpendingSize,husedSize⟩
    · simpa only [hunspent haccs] using hpend
    · simpa only [hunspent haccs] using hused
    · simpa only [hunspent haccs] using hbefore
  | given fresh hnonce hstate hsize hctr honly haccs =>
    have hspent := hunspent haccs
    refine ⟨hmade (UInt64.le_of_lt hctr) fun challenge hnew => ?_,?_,?_,?_,hissued,hsize,?_⟩
    · rw [(honly challenge).1 hnew]
      exact ⟨authority.counter,hctr,hnonce⟩
    · intro nonce challenge hlook
      rw [hstate] at hlook
      rw [hspent]
      by_cases hself : nonce=fresh.nonce
      · subst hself
        obtain rfl := Option.some.inj ((AList.lookup_insert _).symm.trans hlook)
        refine ⟨rfl,created_cons.2 (.inl ((honly _).2 rfl)),fun hmem => ?_⟩
        obtain ⟨old,hold,heq⟩ := h.spent _ hmem
        exact h.nonce_fresh hnonce hold heq
      · exact hpend nonce challenge ((AList.lookup_insert_ne hself).symm.trans hlook)
    · simpa only [hspent,hstate] using hused
    · simpa only [hspent] using hbefore
    · rw [hstate]
      exact husedSize
  | used consumed token hlook hstate hsize hctr hnone haccs =>
    have hspent : ∀ nonce, Spent (event::events) nonce ↔ nonce=token.nonce ∨
        Spent events nonce := by
      intro nonce
      rw [spent_cons,@eq_comm _ nonce]
      simp only [haccs,exists_eq_right]
    obtain ⟨hnonce,hconsumed,-⟩ := hpend _ _ hlook
    refine ⟨hmade (UInt64.le_of_eq hctr.symm) fun challenge hnew => absurd hnew (hnone challenge),
      ?_,?_,?_,hissued,?_,hsize⟩
    · intro nonce challenge hfound
      rw [hstate] at hfound
      obtain ⟨hne,hfound⟩ := lookup_of_erase hfound
      obtain ⟨heq,hold,hunspent⟩ := hpend nonce challenge hfound
      exact ⟨heq,hold,fun hmem => hunspent (((hspent nonce).1 hmem).resolve_left hne)⟩
    · intro nonce expiry hfound
      rw [hstate] at hfound
      refine (hspent nonce).2 ((em (nonce=token.nonce)).imp_right fun hne => ?_)
      exact hused nonce expiry ((AList.lookup_insert_ne hne).symm.trans hfound)
    · intro nonce hmem
      obtain rfl | hmem := (hspent nonce).1 hmem
      · exact ⟨consumed,hconsumed,hnonce⟩
      · exact hbefore nonce hmem
    · rw [hstate]
      exact (size_erase_le token.nonce middle.pending).trans hpendingSize

theorem Run.consistent {sessionBinding policyDigest : Vector UInt8 16}
    (h : Run hash sessionBinding policyDigest events authority) :
    Consistent hash events authority := by
  induction h with
  | start =>
    refine ⟨?_,?_,?_,?_,?_,Nat.zero_le _,Nat.zero_le _⟩
    · rintro challenge ⟨_,_,hmem⟩
      exact absurd hmem List.not_mem_nil
    · intro nonce challenge hlook
      cases hlook
    · intro nonce expiry hlook
      cases hlook
    · rintro nonce ⟨_,-,_,hmem,-⟩
      exact absurd hmem List.not_mem_nil
    · rintro challenge token ⟨_,hmem⟩
      exact absurd hmem List.not_mem_nil
  | step _ _ hstep ih => exact ih.step hstep

/-- What an accepting call has found. -/
theorem Step.accepts {next : PermitAuthority Nonce} {reading : Option UInt64}
    {sessionId capabilities : UInt64} {actionDigest : Vector UInt8 32} (hstep : Step hash authority
      (.verify token reading sessionId capabilities actionDigest (.ok ())) next) :
    ∃ now challenge, reading=some now ∧
      authority.state.pending.lookup token.nonce=some challenge ∧
      Matches authority now sessionId capabilities actionDigest challenge ∧
      challengeMac hash challenge=token.mac := by
  generalize hevent : Event.verify token reading sessionId capabilities actionDigest (.ok ())=event
    at hstep
  cases hstep with
  | challenge => cases hevent
  | issue => cases hevent
  | verify token' reading' sessionId' capabilities' actionDigest' =>
    injection hevent with htoken hreading hsess hcaps hdig hreply
    subst htoken hreading hsess hcaps hdig
    obtain ⟨_,error,herror,-⟩ | ⟨now,challenge,hnow,hlook,hmatch,hmac,-⟩ :=
      verify_cases hash authority token reading sessionId capabilities actionDigest
    · rw [herror] at hreply
      cases hreply
    · exact ⟨now,challenge,hnow,
        (expires_purgeExpired authority.state now).pending_of_lookup hlook,hmatch,hmac⟩

theorem Consistent.justified {next : PermitAuthority Nonce} (h : Consistent hash events authority)
    (hprod : Producible hash events event) (hstep : Step hash authority event next) :
    Justified events event := by
  rintro token reading sessionId capabilities actionDigest rfl
  obtain ⟨now,challenge,hnow,hlook,hmatch,hmac⟩ := hstep.accepts
  obtain ⟨hnonce,hmade,-⟩ := h.pending _ _ hlook
  obtain ⟨other,issued,hissued,hsame⟩ := hprod ⟨challenge,hmac⟩
  have hsigned := h.issued other issued hissued
  subst hsigned
  -- the authenticator is that of the pending challenge, so that one was approved
  obtain rfl := challengeMac_injective hash (hsame.trans hmac.symm)
  have htoken : sign hash other=token := by
    obtain ⟨nonce,mac⟩ := token
    simp only [sign,hnonce,hmac]
  rw [htoken] at hissued
  exact ⟨now,other,hnow,hmade,hmatch.1,hmatch.2.1,hmatch.2.2.2.2.1,hissued,hmatch.2.2.2.2.2⟩

theorem Consistent.not_accepted {next : PermitAuthority Nonce}
    (h : Consistent hash events authority) (hstep : Step hash authority event next)
    (haccs : Accepts token event) {earlier : Event Nonce Mac} (hearlier : earlier∈events) :
    ¬ Accepts token earlier := by
  obtain ⟨reading,sessionId,capabilities,actionDigest,rfl⟩ := haccs
  obtain ⟨now,challenge,-,hlook,-⟩ := hstep.accepts
  obtain ⟨-,-,hunspent⟩ := h.pending _ _ hlook
  exact fun hold => hunspent ⟨token,rfl,earlier,hearlier,hold⟩

/-- In every run a permit is accepted at most once, and only for a live, approved challenge
made for the same session, capabilities and action. -/
theorem permits_one_shot (hash : KeyedHash Nonce Mac) (sessionBinding policyDigest : Vector UInt8 16)
    (events : List (Event Nonce Mac)) (authority : PermitAuthority Nonce)
    (h : Run hash sessionBinding policyDigest events authority) :
    events.Pairwise (fun later earlier => ∀ token, Accepts token later → ¬ Accepts token earlier) ∧
    (∀ later event earlier, events=later++event::earlier → Justified earlier event) ∧
    (∀ token reading sessionId capabilities actionDigest error,
      (verify hash authority token reading sessionId capabilities actionDigest).2=.error error →
      Expires reading authority.state
        (verify hash authority token reading sessionId capabilities actionDigest).1.state) ∧
    (∀ nonce, nonce∈authority.state.pending → nonce∉authority.state.used) ∧
    size authority.state.pending ≤ 4096 ∧ size authority.state.used ≤ 4096 := by
  have hcons := h.consistent
  refine ⟨?_,?_,?_,?_,hcons.pendingSize,hcons.usedSize⟩
  · clear hcons
    induction h with
    | start => exact List.Pairwise.nil
    | step hrun _ hstep ih =>
      refine List.Pairwise.cons ?_ ih
      intro earlier hearlier token haccs
      exact hrun.consistent.not_accepted hstep haccs hearlier
  · clear hcons
    induction h with
    | start =>
      intro later event earlier hevents
      cases later <;> cases hevents
    | step hrun hprod hstep ih =>
      intro later event earlier hevents
      obtain ⟨rfl,heq⟩ | ⟨later',rfl,heq⟩ := List.cons_eq_append_iff.1 hevents
      · obtain ⟨rfl,rfl⟩ := List.cons_eq_cons.1 heq
        exact hrun.consistent.justified hprod hstep
      · exact ih later' event earlier heq
  · intro token reading sessionId capabilities actionDigest error herror
    obtain ⟨_,_,heq,hexp,-⟩ | ⟨_,_,-,-,-,-,-,-,heq⟩ :=
      verify_cases hash authority token reading sessionId capabilities actionDigest
    · rw [heq]
      exact hexp
    · rw [heq] at herror
      cases herror
  · intro nonce hpend hused
    obtain ⟨challenge,hchal⟩ := Option.isSome_iff_exists.1 (AList.lookup_isSome.2 hpend)
    obtain ⟨expiry,hexpiry⟩ := Option.isSome_iff_exists.1 (AList.lookup_isSome.2 hused)
    exact (hcons.pending nonce challenge hchal).2.2 (hcons.used nonce expiry hexpiry)

end

/-- A hash that keeps what it is given. -/
def transparentHash : KeyedHash (List UInt8) (List UInt8 × List UInt8) where
  zero := []
  nonceHash := id
  tokenMac := Prod.mk
  nonceHash_injective := Function.injective_id
  tokenMac_injective _ _ _ _ h := Prod.mk.inj h

def sampleStart : PermitAuthority (List UInt8) := .new (.replicate 16 1) (.replicate 16 2)

def sampleChallenge : ApprovalChallenge (List UInt8) :=
  prepare transparentHash sampleStart 1 2 60000 (.replicate 32 3)

def sampleToken : ApprovalToken (List UInt8) (List UInt8 × List UInt8) :=
  sign transparentHash sampleChallenge

theorem permits_one_shot_transparent : ∃ events authority,
    Run transparentHash (.replicate 16 1) (.replicate 16 2) events authority ∧
      (∃ event∈events, Accepts sampleToken event) ∧
      events.Pairwise fun later earlier => ∀ token, Accepts token later → ¬ Accepts token earlier := by
  have hstart : Run transparentHash (.replicate 16 1) (.replicate 16 2) [] sampleStart := .start
  have hasked := hstart.step (by exact trivial) (.challenge (some 0) 1 2 (.replicate 32 3) 60000)
  have hissued := hasked.step (by exact trivial) (.issue (some 5) sampleChallenge)
  have hverified := hissued.step
    (by exact fun _ => ⟨sampleChallenge,sampleToken,⟨some 5,List.mem_cons_self⟩,rfl⟩)
    (.verify sampleToken (some 9) 1 2 (.replicate 32 3))
  refine ⟨_,_,hverified,⟨_,List.mem_cons_self,some 9,1,2,.replicate 32 3,rfl⟩,?_⟩
  exact (permits_one_shot _ _ _ _ _ hverified).1

end Ash.PermitAuthorities
