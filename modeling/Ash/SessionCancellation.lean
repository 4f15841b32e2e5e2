import Ash.OperationErrors
import Ash.SessionRegistry

/-! # Cancel requests

A cancel request registers itself, signals the token of its target and tells what it found. -/

namespace Ash.SessionCancellation
open OperationErrors Outcomes Relation RequestArguments Requests Responses SessionRegistry

/-- `CancellationToken::cancel`, which is true for the first caller only. -/
def firstCaller (session : Session) (token : ℕ) : Bool := decide (token∉session.cancelled)

/-- The answer of `Session::cancel`. -/
def signals (session : Session) (id : UInt64) : Bool :=
  (session.active.lookup id).any (firstCaller session)

def cancellationState (session : Session) (id : UInt64) : CancellationState :=
  if signals session id then .signaled else .notActive

def engineError : SessionRegistry.EngineError → OperationErrors.EngineError
  | .sessionClosed => .sessionClosed
  | .duplicateRequest id => .duplicateRequest id

def engineErrorResponse (requestId : UInt64) (error : SessionRegistry.EngineError) :
    Except OperationError FinalResponse :=
  (OperationError.engine (engineError error)).intoResponse requestId

def cancelResponse (requestId : UInt64) (arguments : CancelArgs) (session : Session) :
    Except ResponseError FinalResponse :=
  FinalResponse.success requestId []
    (.cancel ⟨arguments.targetId,cancellationState session arguments.targetId⟩) 0 none

/-- `ExecutionSession::cancel` from the outcome of its own registration on; the session is the
one it finds when it has the lock of the map. -/
def cancel (request : Request) (arguments : CancelArgs)
    (registration : Except SessionRegistry.EngineError Unit) (session : Session) :
    Except OperationError FinalResponse × Session :=
  match registration with
  | .error error => (engineErrorResponse request.id error,session)
  | .ok () =>
      (liftResponse (cancelResponse request.id arguments session),
        session.cancel arguments.targetId)

/-! ## Active requests -/

/-- A request is queued or running as long as its entry has an owner. -/
def IsActive (session : Session) (id : UInt64) : Prop :=
  ∃ owner∈session.owners, owner.requestId=id

/-- No owner of a request has been cancelled before. -/
def Fresh (session : Session) (id : UInt64) : Prop :=
  ∀ owner∈session.owners, owner.requestId=id → owner.cancellation∉session.cancelled

/-- What a state tells about the target, and the tokens after the call. -/
structure Tells (session : Session) (id : UInt64) (state : CancellationState)
    (next : Session) : Prop where
  signaled : state=.signaled ↔ IsActive session id
  inactive : state=.notActive → ¬ IsActive session id
  cancelled : ∀ owner∈session.owners, owner.requestId=id → owner.cancellation∈next.cancelled

variable {session : Session} {id : UInt64}

theorem signals_iff (howned : Owned session) : signals session id=true ↔
    ∃ owner∈session.owners, owner.requestId=id ∧ owner.cancellation∉session.cancelled := by
  simp only [signals,Option.any_eq_true,howned.active,firstCaller,decide_eq_true_eq]
  constructor
  · rintro ⟨_,⟨owner,howner,hid,rfl⟩,hfresh⟩
    exact ⟨owner,howner,hid,hfresh⟩
  · rintro ⟨owner,howner,hid,hfresh⟩
    exact ⟨owner.cancellation,⟨owner,howner,hid,rfl⟩,hfresh⟩

theorem cancellationState_eq_signaled :
    cancellationState session id=.signaled ↔ signals session id=true := by
  unfold cancellationState
  cases signals session id <;> decide

/-- Whatever the answer, the token of an active target is cancelled after the call. -/
theorem cancelled_of_cancel (howned : Owned session) {owner : Owner}
    (howner : owner∈session.owners) :
    owner.cancellation∈(session.cancel owner.requestId).cancelled := by
  have hlook := (howned.active owner.requestId owner.cancellation).2 ⟨owner,howner,rfl,rfl⟩
  rw [Session.cancel,hlook]
  exact List.mem_append_right _ (List.mem_singleton.2 rfl)

theorem tells_iff_fresh (howned : Owned session) :
    Tells session id (cancellationState session id) (session.cancel id) ↔ Fresh session id := by
  constructor
  · intro htells owner howner hid
    have hsignals := cancellationState_eq_signaled.1 (htells.signaled.2 ⟨owner,howner,hid⟩)
    obtain ⟨other,hother,hsame,hfresh⟩ := (signals_iff howned).1 hsignals
    rwa [howned.eq_of_requestId howner hother (hid.trans hsame.symm)]
  · intro hfresh
    have hsignaled : cancellationState session id=.signaled ↔ IsActive session id := by
      rw [cancellationState_eq_signaled,signals_iff howned]
      constructor
      · rintro ⟨owner,howner,hid,-⟩
        exact ⟨owner,howner,hid⟩
      · rintro ⟨owner,howner,hid⟩
        exact ⟨owner,howner,hid,hfresh owner howner hid⟩
    refine ⟨hsignaled,fun hstate hact => ?_,?_⟩
    · rw [hsignaled.2 hact] at hstate
      cases hstate
    · rintro owner howner rfl
      exact cancelled_of_cancel howned howner

/-! ## Reports -/

variable {request : Request} {arguments : CancelArgs}

theorem targetId_ne_zero (harguments : request.arguments=.cancel arguments) :
    arguments.targetId≠0 := by
  have hchk := request.checked
  rw [harguments] at hchk
  simp only [Request.check,bind_unit_ok_iff] at hchk
  simpa [Arguments.validate,CancelArgs.validate] using hchk.2.2.1

/-- A registered cancel request is always answered, with the state it found. -/
theorem cancel_answers (harguments : request.arguments=.cancel arguments) (session : Session) :
    ∃ response, (cancel request arguments (.ok ()) session).1=.ok response ∧
      response.data =
        some (.cancel ⟨arguments.targetId,cancellationState session arguments.targetId⟩) := by
  have hcheck : FinalResponse.check request.id .success []
      (some (.cancel ⟨arguments.targetId,cancellationState session arguments.targetId⟩)) none 0
      none=.ok () := by
    simp only [FinalResponse.check,bind_unit_ok_iff,require_ok_iff,checkData,ResultData.validate]
    exact ⟨request.id_ne_zero,by decide,by simp,by decide,by decide,
      ⟨targetId_ne_zero harguments,rfl⟩,rfl,rfl,by simp [ResultData.hasReference,resultRetained],
      by simp [resultTruncated]⟩
  have hresp := liftResponse_ok.2 (FinalResponse.new_ok_iff.2 ⟨hcheck,rfl⟩)
  exact ⟨_,hresp,rfl⟩

/-- What a cancel request reports about its target. -/
def Reports (session : Session) (request : Request) (arguments : CancelArgs) : Prop :=
  ∃ response state, (cancel request arguments (.ok ()) session).1=.ok response ∧
    response.data=some (.cancel ⟨arguments.targetId,state⟩) ∧
    Tells session arguments.targetId state (cancel request arguments (.ok ()) session).2

theorem reports_iff_tells (harguments : request.arguments=.cancel arguments) (session : Session) :
    Reports session request arguments ↔ Tells session arguments.targetId
      (cancellationState session arguments.targetId) (session.cancel arguments.targetId) := by
  obtain ⟨response,hresp,hdata⟩ := cancel_answers harguments session
  constructor
  · rintro ⟨other,state,hother,hstate,htells⟩
    obtain rfl := Except.ok.inj (hresp.symm.trans hother)
    obtain rfl : cancellationState session arguments.targetId=state := by
      simpa using hdata.symm.trans hstate
    exact htells
  · intro htells
    exact ⟨response,_,hresp,hdata,htells⟩

/-! ## Two cancel requests for one target -/

/-- A request that enters an open session and finds its name free. -/
def registered (session : Session) (id : UInt64) : Session :=
  ((session.enter id).insert (id,session.tokens)).leave (id,session.tokens)

theorem run_registered (hrun : ReflTransGen Step .opened session) (hopen : session.closed=false)
    (hnew : id∉session.active) : ReflTransGen Step .opened (registered session id) := by
  have hentered := hrun.tail (.enter id (checkOpen_ok.2 hopen))
  refine hentered.tail (.register ?_ (register_ok.2 ⟨hopen,hnew,rfl⟩))
  exact List.mem_append_right _ (List.mem_singleton.2 rfl)

/-- Request 7 is registered and request 8 is about to cancel it. -/
def cancelledOnce : Session := registered (registered .opened 7) 8

theorem run_cancelledOnce : ReflTransGen Step .opened cancelledOnce :=
  run_registered (run_registered .refl rfl (by decide)) rfl (by decide)

/-- Request 8 has cancelled and is gone; request 9 asks for the same. -/
def cancelledTwice : Session :=
  registered (((cancelledOnce.cancel 7).replace ⟨8,1,.registered⟩ .dropping).unregister
    ⟨8,1,.dropping⟩) 9

theorem run_cancelledTwice : ReflTransGen Step .opened cancelledTwice := by
  have hdrop := (run_cancelledOnce.tail (.cancel 7)).tail
    (.proceed (List.mem_cons_self) Stage.Next.dropRegistered)
  exact run_registered (hdrop.tail (.unregister (by decide) (.inl rfl))) rfl (by decide)

theorem check_ones : Budget.check 1 1 1=.ok () := rfl

def cancelRequest (id target : UInt64)
    (checked : Request.check id (.cancel ⟨target⟩) ⟨1,1,1,check_ones⟩=.ok ()) : Request :=
  ⟨id,.cancel ⟨target⟩,⟨1,1,1,check_ones⟩,none,checked⟩

/-- The answer is right exactly if the target was never cancelled before, by a request or by the
end of the session. -/
theorem cancel_reports_iff (session : Session) (hrun : ReflTransGen Step .opened session)
    (request : Request) (arguments : CancelArgs)
    (harguments : request.arguments=.cancel arguments) :
    Reports session request arguments ↔ Fresh session arguments.targetId :=
  (reports_iff_tells harguments session).trans (tells_iff_fresh (owned_of_run hrun))

theorem first_cancel_reports : Fresh cancelledOnce 7 ∧
    Reports cancelledOnce (cancelRequest 8 7 rfl) ⟨7⟩ := by
  have hfresh : Fresh cancelledOnce 7 := by
    unfold Fresh
    decide
  exact ⟨hfresh,(cancel_reports_iff _ run_cancelledOnce (cancelRequest 8 7 rfl) ⟨7⟩ rfl).2 hfresh⟩

/-- The second cancel finds the token signaled and calls the active target inactive. -/
theorem second_cancel_misreports : ReflTransGen Step .opened cancelledTwice ∧
    IsActive cancelledTwice 7 ∧ cancellationState cancelledTwice 7=.notActive ∧
    ¬ Reports cancelledTwice (cancelRequest 9 7 rfl) ⟨7⟩ := by
  have hact : IsActive cancelledTwice 7 := by
    unfold IsActive
    decide
  have hstate : cancellationState cancelledTwice 7=.notActive := by decide
  refine ⟨run_cancelledTwice,hact,hstate,fun hrep => ?_⟩
  have htells := (reports_iff_tells rfl cancelledTwice).1 hrep
  exact htells.inactive hstate hact

end Ash.SessionCancellation
