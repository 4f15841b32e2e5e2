import Ash.OperationErrors
import Ash.ResponseSizes

/-! # Budgets of programs

The counters of one program and the limit on what it presents. -/

namespace Ash.ProgramBudgets
open ByteCodecs TextSlices AsonDocuments Outcomes Requests Responses OperationErrors

/-- The deadline is a time in milliseconds. -/
structure BudgetTracker where
  tokens : ℕ
  outputLimit : ℕ
  recordLimit : ℕ
  deadline : ℕ
  outputUsed : ℕ
  recordsUsed : ℕ

def BudgetTracker.newWithDeadline (request : Budget) (outputLimit : UInt64) (deadline : ℕ) :
    Except BudgetError BudgetTracker := do
  require (outputLimit≠0) .invalidOutputLimit
  return ⟨request.tokens.toNat,outputLimit.toNat,request.records.toNat,deadline,0,0⟩

def BudgetTracker.new (request : Budget) (outputLimit : UInt64) (now : ℕ) :
    Except BudgetError BudgetTracker :=
  BudgetTracker.newWithDeadline request outputLimit (now+request.millis.toNat)

/-- The usage after a reservation in a counter of `bits` bits, or the usage it would lead to. -/
def reserve (bits used amount limit : ℕ) : Except ℕ ℕ := do
  require (used+amount < 2 ^ bits) (2 ^ bits - 1)
  require (used+amount ≤ limit) (used+amount)
  return used+amount

def BudgetTracker.reserveOutput (tracker : BudgetTracker) (bytes : ℕ) :
    Except BudgetError BudgetTracker :=
  match reserve 64 tracker.outputUsed bytes tracker.outputLimit with
  | .error requested => .error (.output requested)
  | .ok used => .ok { tracker with outputUsed := used }

def BudgetTracker.reserveRecords (tracker : BudgetTracker) (records : ℕ) :
    Except BudgetError BudgetTracker :=
  match reserve 32 tracker.recordsUsed records tracker.recordLimit with
  | .error requested => .error (.records requested)
  | .ok used => .ok { tracker with recordsUsed := used }

def BudgetTracker.checkDeadline (tracker : BudgetTracker) (now : ℕ) : Except BudgetError Unit :=
  require (now < tracker.deadline) .deadline

def BudgetTracker.remainingOutput (tracker : BudgetTracker) : ℕ :=
  tracker.outputLimit - tracker.outputUsed

/-- A token is taken for four bytes. -/
def presentationLimit (tracker : BudgetTracker) : ℕ :=
  min tracker.remainingOutput (4*tracker.tokens)

def encodedText (response : FinalResponse) : Except OperationError Text :=
  match response.encode with
  | .error error => .error (.build error)
  | .ok document => .ok (AsonDocuments.encode document)

/-- The records stay reserved when the output does not fit. -/
def charge (tracker : BudgetTracker) (response : FinalResponse) (records : ℕ) :
    BudgetTracker × Except OperationError Unit :=
  match encodedText response with
  | .error error => (tracker,.error error)
  | .ok text =>
      if records < 2 ^ 32 then
        match tracker.reserveRecords records with
        | .error error => (tracker,.error (.budget error))
        | .ok reserved =>
            match reserved.reserveOutput (byteLength text) with
            | .error error => (reserved,.error (.budget error))
            | .ok charged => (charged,.ok ())
      else (tracker,.error .workLimit)

/-! ## When a charge fits -/

theorem encodedText_writes (response : FinalResponse) :
    ∃ text, encodedText response=.ok text ∧ byteLength text=response.writtenBytes := by
  obtain ⟨document,henc,hbytes⟩ := response.encode_writes
  refine ⟨AsonDocuments.encode document,?_,hbytes⟩
  rw [encodedText,henc]

theorem byteLength_of_encodedText {response : FinalResponse} {text : Text}
    (h : encodedText response=.ok text) : byteLength text=response.writtenBytes := by
  obtain ⟨written,hwritten,hbytes⟩ := encodedText_writes response
  obtain rfl := Except.ok.inj (h.symm.trans hwritten)
  exact hbytes

theorem reserve_ok_iff {bits used amount limit next : ℕ} :
    reserve bits used amount limit=.ok next ↔
      used+amount < 2 ^ bits ∧ used+amount ≤ limit ∧ next=used+amount := by
  rw [reserve,bind_unit_ok_iff,bind_unit_ok_iff,require_ok_iff,require_ok_iff,pure_ok_iff,eq_comm]

theorem reserveRecords_ok (tracker : BudgetTracker) (records : ℕ)
    (hsmall : tracker.recordsUsed+records < 2 ^ 32)
    (hfits : tracker.recordsUsed+records ≤ tracker.recordLimit) :
    tracker.reserveRecords records =
      .ok { tracker with recordsUsed := tracker.recordsUsed+records } := by
  rw [BudgetTracker.reserveRecords,reserve_ok_iff.2 ⟨hsmall,hfits,rfl⟩]

theorem reserveOutput_ok (tracker : BudgetTracker) (bytes : ℕ)
    (hsmall : tracker.outputUsed+bytes < 2 ^ 64)
    (hfits : tracker.outputUsed+bytes ≤ tracker.outputLimit) :
    tracker.reserveOutput bytes=.ok { tracker with outputUsed := tracker.outputUsed+bytes } := by
  rw [BudgetTracker.reserveOutput,reserve_ok_iff.2 ⟨hsmall,hfits,rfl⟩]

/-- The counters of a program that has charged nothing yet. -/
structure Fresh (tracker : BudgetTracker) : Prop where
  output : tracker.outputUsed=0
  records : tracker.recordsUsed=0
  outputLimit : tracker.outputLimit < 2 ^ 64
  recordLimit : tracker.recordLimit < 2 ^ 32

variable {tracker : BudgetTracker}

theorem fresh_newWithDeadline {request : Budget} {outputLimit : UInt64} {deadline : ℕ}
    (h : BudgetTracker.newWithDeadline request outputLimit deadline=.ok tracker) :
    Fresh tracker ∧ tracker.tokens=request.tokens.toNat ∧
      tracker.recordLimit=request.records.toNat ∧ tracker.deadline=deadline := by
  rw [BudgetTracker.newWithDeadline,bind_unit_ok_iff] at h
  obtain rfl := pure_ok_iff.1 h.2
  exact ⟨⟨rfl,rfl,outputLimit.toNat_lt,request.records.toNat_lt⟩,rfl,rfl,rfl⟩

/-- A charge fits when both counters stay within their limits. -/
theorem charge_ok_iff {response : FinalResponse} {records : ℕ}
    (hrecordLimit : tracker.recordLimit < 2 ^ 32) (houtputLimit : tracker.outputLimit < 2 ^ 64) :
    (charge tracker response records).2=.ok () ↔
      tracker.recordsUsed+records ≤ tracker.recordLimit ∧
        tracker.outputUsed+response.writtenBytes ≤ tracker.outputLimit := by
  obtain ⟨text,htext,hsize⟩ := encodedText_writes response
  rw [← hsize]
  constructor
  · intro h
    simp only [charge,htext] at h
    split_ifs at h with hsmall
    unfold BudgetTracker.reserveRecords at h
    cases hrecs : reserve 32 tracker.recordsUsed records tracker.recordLimit with
    | error requested =>
      rw [hrecs] at h
      cases h
    | ok used =>
      rw [hrecs] at h
      unfold BudgetTracker.reserveOutput at h
      cases hout : reserve 64 tracker.outputUsed (byteLength text) tracker.outputLimit with
      | error requested =>
        simp only [hout] at h
        cases h
      | ok total => exact ⟨(reserve_ok_iff.1 hrecs).2.1,(reserve_ok_iff.1 hout).2.1⟩
  · rintro ⟨hrecs,hout⟩
    have hrsv := reserveRecords_ok tracker records (by omega) hrecs
    have htotal := reserveOutput_ok
      { tracker with recordsUsed := tracker.recordsUsed+records } (byteLength text)
      (Nat.lt_of_le_of_lt hout houtputLimit) hout
    have hsmall : records < 2 ^ 32 := by omega
    simp only [charge,htext,if_pos hsmall,hrsv,htotal]

/-- A first charge fits when the response and its records do. -/
theorem Fresh.charge_ok (h : Fresh tracker) {response : FinalResponse} {records : ℕ}
    (hrecs : records ≤ tracker.recordLimit)
    (hbytes : response.writtenBytes ≤ tracker.outputLimit) :
    (charge tracker response records).2=.ok () := by
  rw [charge_ok_iff h.recordLimit h.outputLimit,h.records,h.output,Nat.zero_add,Nat.zero_add]
  exact ⟨hrecs,hbytes⟩

end Ash.ProgramBudgets
