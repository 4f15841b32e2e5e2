import Ash.PermitAuthorities
import Ash.Responses
import Ash.ResultStores
import Ash.WorkspaceOperations

/-! # Errors of operations

How an error of an operation becomes a response. -/

namespace Ash.OperationErrors
open AsonDocuments Outcomes Responses ResultStores PermitAuthorities WorkspaceOperations

inductive GovernorError where
  | cancelled
  | deadline
  | closed
  | noPermits
  deriving DecidableEq

inductive BudgetError where
  | invalidOutputLimit
  | output (requested : ℕ)
  | records (requested : ℕ)
  | deadline
  deriving DecidableEq

inductive ParallelismError where
  | build
  | workerLost
  deriving DecidableEq

inductive PathDictionaryError where
  | invalidLimit
  | quota (max : ℕ)
  | invalidPath
  | idExhausted
  deriving DecidableEq

inductive EngineError where
  | parallelism (error : ParallelismError)
  | store (error : StoreError)
  | paths (error : PathDictionaryError)
  | budget (error : BudgetError)
  | governor (error : GovernorError)
  | invalidSession
  | sessionClosed
  | duplicateRequest (requestId : UInt64)
  deriving DecidableEq

inductive OperationError where
  | authorization (error : AuthorizationError)
  | platform (error : PlatformError)
  | engine (error : EngineError)
  | budget (error : BudgetError)
  | parallelism (error : ParallelismError)
  | store (error : StoreError)
  | paths (error : PathDictionaryError)
  | build (error : BuildError)
  | response (error : ResponseError)
  | regex
  | io
  | task
  | unsupported
  | cancelled
  | capabilityDenied
  | invalidArgument
  | invalidSnapshot
  | workLimit
  | wrongFileType
  | outputBudget
  deriving DecidableEq

def PlatformError.classification : PlatformError → Status × ErrorCode × RetryClass × ErrorStage
  | .invalidLogicalPath => (.invalidRequest,.invalidArgument,.correctRequest,.validate)
  | .invalidMutationTarget => (.failed,.wrongFileType,.correctRequest,.resolve)
  | .workspaceEscape => (.denied,.workspaceEscape,.never,.authorize)
  | .reservedPath => (.denied,.capabilityDenied,.never,.authorize)
  | .journalCorrupt | .recoveryRequired => (.failed,.recoveryRequired,.approval,.execute)
  | .io .notFound => (.notFound,.pathNotFound,.correctRequest,.resolve)
  | .inputTooLarge _ _ | .entryLimit _ => (.budgetExceeded,.storageBudget,.correctRequest,.execute)
  | .nonUtf8Path | .io _ => (.failed,.filesystem,.retrySame,.execute)

def StoreError.classification : StoreError → Status × ErrorCode × RetryClass × ErrorStage
  | .contentTooLarge | .byteQuota _ _ _ | .entryQuota _ | .readLimit _ _ =>
      (.budgetExceeded,.storageBudget,.correctRequest,.retain)
  | .unknownAlias _ => (.notFound,.unknownReference,.correctRequest,.resolve)
  | .inUse _ => (.conflict,.referenceBusy,.retrySame,.retain)
  | .io => (.failed,.filesystem,.retrySame,.retain)
  | _ => (.internal,.internal,.retrySame,.encode)

def BudgetError.classification : BudgetError → Status × ErrorCode × RetryClass × ErrorStage
  | .deadline => (.timedOut,.processTimedOut,.retrySame,.execute)
  | .output _ | .records _ => (.budgetExceeded,.outputBudget,.correctRequest,.reduce)
  | .invalidOutputLimit => (.internal,.internal,.retrySame,.encode)

def ParallelismError.classification :
    ParallelismError → Status × ErrorCode × RetryClass × ErrorStage
  | .workerLost => (.internal,.internal,.retrySame,.execute)
  | .build => (.internal,.internal,.retrySame,.encode)

/-- An error of the store inside the engine is not told apart. -/
def EngineError.classification : EngineError → Status × ErrorCode × RetryClass × ErrorStage
  | .governor .cancelled => (.cancelled,.processCancelled,.never,.execute)
  | .governor .deadline => (.timedOut,.processTimedOut,.retrySame,.execute)
  | .budget error => error.classification
  | .parallelism error => error.classification
  | _ => (.internal,.internal,.retrySame,.encode)

def OperationError.classification : OperationError → Status × ErrorCode × RetryClass × ErrorStage
  | .unsupported => (.unsupported,.unsupportedOperation,.correctRequest,.validate)
  | .capabilityDenied => (.denied,.capabilityDenied,.never,.authorize)
  | .cancelled => (.cancelled,.processCancelled,.never,.execute)
  | .invalidArgument | .invalidSnapshot | .regex =>
      (.invalidRequest,.invalidArgument,.correctRequest,.validate)
  | .wrongFileType => (.failed,.wrongFileType,.correctRequest,.execute)
  | .workLimit => (.budgetExceeded,.storageBudget,.correctRequest,.execute)
  | .outputBudget => (.budgetExceeded,.outputBudget,.correctRequest,.reduce)
  | .platform error => PlatformError.classification error
  | .engine error => error.classification
  | .budget error => error.classification
  | .parallelism error => error.classification
  | .store error => StoreError.classification error
  | .authorization _ | .paths _ | .build _ | .response _ =>
      (.internal,.internal,.retrySame,.encode)
  | .io | .task => (.internal,.internal,.retrySame,.execute)

def liftResponse {α : Type} (result : Except ResponseError α) : Except OperationError α :=
  result.mapError .response

theorem liftResponse_ok {α : Type} {result : Except ResponseError α} {a : α} :
    liftResponse result=.ok a ↔ result=.ok a :=
  mapError_ok_iff

def OperationError.intoResponse (error : OperationError) (requestId : UInt64) :
    Except OperationError FinalResponse :=
  liftResponse (FinalResponse.failure requestId error.classification.1
    ⟨error.classification.2.1,error.classification.2.2.1,error.classification.2.2.2,none,none⟩
    [] none 0 none)

theorem classification_ne_success (error : OperationError) :
    error.classification.1≠.success := by
  have hplatform : ∀ error, (PlatformError.classification error).1≠.success := by
    intro error
    unfold PlatformError.classification
    split <;> decide
  have hstore : ∀ error, (StoreError.classification error).1≠.success := by
    intro error
    unfold StoreError.classification
    split <;> decide
  have hbud : ∀ error : BudgetError, error.classification.1≠.success := by
    intro error
    unfold BudgetError.classification
    split <;> decide
  have hpar : ∀ error : ParallelismError, error.classification.1≠.success := by
    intro error
    cases error <;> decide
  cases error with
  | platform error => exact hplatform error
  | store error => exact hstore error
  | budget error => exact hbud error
  | parallelism error => exact hpar error
  | engine error =>
    unfold OperationError.classification EngineError.classification
    simp only
    split
    · decide
    · decide
    · exact hbud _
    · exact hpar _
    · decide
  | _ => simp [OperationError.classification]

/-- Every error has a response. -/
theorem OperationError.intoResponse_total (error : OperationError) {requestId : UInt64}
    (hid : requestId≠0) : ∃ response, error.intoResponse requestId=.ok response := by
  have hcheck : FinalResponse.check requestId error.classification.1 [] none
      (some ⟨error.classification.2.1,error.classification.2.2.1,error.classification.2.2.2,none,
        none⟩) 0 none=.ok () := by
    have hstat := classification_ne_success error
    simp only [FinalResponse.check,bind_unit_ok_iff,require_ok_iff]
    refine ⟨hid,?_,?_,by decide,by decide,rfl,by decide,rfl,rfl,by decide⟩
    · simpa using hstat
    · simp [hstat]
  refine ⟨⟨_,_,_,_,_,_,_,hcheck⟩,?_⟩
  rw [OperationError.intoResponse,FinalResponse.failure,FinalResponse.new_ok_iff.2 ⟨hcheck,rfl⟩]
  rfl

end Ash.OperationErrors
