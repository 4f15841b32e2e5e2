import Ash.ProcessResponses

/-! # Outcomes of processes

When the outcome of a process that ran is reported, and when it is lost. -/

namespace Ash.ProcessResponses
open ByteCodecs Numerals TextSlices AsonDocuments AsonSizes Outcomes RequestValues Requests Responses
open OperationErrors ProgramBudgets ResultStores StreamProjections AsonRoundTrip

/-! ## Permits -/

/-- The token is not cancelled and the semaphore gives a permit. -/
def Poll.Granted (poll : Poll) : Prop := poll.cancelled=false ∧ poll.offer=.permit

def Polls.Granted (polls : Polls) : Prop := polls.session.Granted ∧ polls.global.Granted

theorem Poll.acquire_ok_iff {poll : Poll} : poll.acquire=.ok () ↔ poll.Granted := by
  unfold Poll.acquire Poll.Granted
  cases poll.cancelled <;> cases poll.offer <;> simp

theorem acquire_ok_iff {polls : Polls} : acquire polls=.ok () ↔ polls.Granted := by
  rw [acquire,mapError_ok_iff,Polls.acquire,bind_unit_ok_iff,Poll.acquire_ok_iff,
    Poll.acquire_ok_iff,Polls.Granted]

theorem projectionPermit_ok_iff {program : Program} {stop : Stop} :
    projectionPermit program stop=.ok () ↔
      (stop.finalizing=false → program.projection.Granted) := by
  unfold projectionPermit
  cases stop.finalizing with
  | true => simp
  | false => simp [acquire_ok_iff]

/-! ## Flags -/

theorem flagsOf_known (reduced normalized retained : Bool) :
    flagsOf reduced normalized retained &&& ~~~ allResultFlags=0 := by
  cases reduced <;> cases normalized <;> cases retained <;> decide

theorem flagsOf_retained (reduced normalized retained : Bool) :
    decide (flagsOf reduced normalized retained &&& resultRetained≠0)=retained := by
  cases reduced <;> cases normalized <;> cases retained <;> decide

theorem flagsOf_truncated (reduced normalized retained : Bool) :
    flagsOf reduced normalized retained &&& resultTruncated≠0 ↔ reduced=true := by
  cases reduced <;> cases normalized <;> cases retained <;> decide

/-! ## The response -/

def Stop.status : Stop → Status
  | .exited exit => if exit.success then .success else .failed
  | .timedOut => .timedOut
  | .cancelled => .cancelled

def Stop.error : Stop → Option ErrorRecord
  | .exited exit => if exit.success then none else some (ProcessResponses.error .processFailed .never)
  | .timedOut => some (ProcessResponses.error .processTimedOut .retrySame)
  | .cancelled => some (ProcessResponses.error .processCancelled .never)

section Response

variable {requestId elapsed : UInt64} {stop : Stop} {stdout stderr : StreamResult} {flags : UInt32}
  {found : FinalResponse}

theorem response_ok_iff :
    response requestId stop elapsed stdout stderr flags=.ok found ↔
      FinalResponse.new requestId stop.status []
        (some (.exec (processResult stop elapsed stdout stderr))) stop.error flags none =
          .ok found := by
  unfold response
  rw [liftResponse_ok]
  cases stop with
  | exited exit =>
    simp only [Stop.status,Stop.error]
    split
    · rfl
    · rfl
  | timedOut => rfl
  | cancelled => rfl

theorem Stop.checked (stop : Stop) : decide (stop.status=.success)=stop.error.isNone ∧
    checkError stop.error=.ok () ∧
    (stop.error.any fun error => error.evidence.isSome || error.argument.isSome)=false := by
  cases stop with
  | exited exit =>
    simp only [Stop.status,Stop.error]
    split <;> decide
  | timedOut => decide
  | cancelled => decide

theorem Stop.code_known (stop : Stop) :
    ¬ ((stop.termination=.exited ∨ stop.termination=.signaled) ∧ stop.code=none) := by
  cases stop with
  | exited exit =>
    rw [Stop.code]
    rintro ⟨-,hcode⟩
    split at hcode
    · next hsignal => simp [hcode] at hsignal
    · next hsignal =>
      obtain hknown | hknown := exit.known
      · simp [hcode] at hknown
      · exact hsignal hknown
  | timedOut => simp [Stop.termination]
  | cancelled => simp [Stop.termination]

/-- A response is built when its references are proper and its flags tell of them. -/
theorem response_total {reduced normalized : Bool} (hid : requestId≠0)
    (hstdout : stdout.reference≠some 0) (hstderr : stderr.reference≠some 0)
    (hred : reduced=true → (stdout.reference.isSome || stderr.reference.isSome)=true) :
    ∃ found, response requestId stop elapsed stdout stderr
      (flagsOf reduced normalized (stdout.reference.isSome || stderr.reference.isSome)) =
        .ok found := by
  obtain ⟨hstat,herror,hevid⟩ := stop.checked
  have hdata : checkData stop.status none
      (some (.exec (processResult stop elapsed stdout stderr)))=.ok () := by
    simp only [checkData,ResultData.validate,ProcessResult.validate,validateReference,
      bind_unit_ok_iff,require_ok_iff]
    exact ⟨⟨hstdout,hstderr,stop.code_known⟩,rfl⟩
  have hchk : FinalResponse.check requestId stop.status []
      (some (.exec (processResult stop elapsed stdout stderr))) stop.error
      (flagsOf reduced normalized (stdout.reference.isSome || stderr.reference.isSome)) none =
        .ok () := by
    simp only [FinalResponse.check,bind_unit_ok_iff,require_ok_iff]
    refine ⟨hid,hstat,fun h => (by cases h.2),flagsOf_known ..,rfl,hdata,rfl,herror,?_,?_⟩
    · rw [flagsOf_retained,hevid]
      simp [ResultData.hasReference,processResult]
    · rintro ⟨htrun,-,hnone⟩
      have hsome := hred ((flagsOf_truncated ..).1 htrun)
      simp [ResultData.hasReference,processResult] at hnone
      simp [hnone] at hsome
  exact ⟨_,response_ok_iff.2 (FinalResponse.new_ok_iff.2 ⟨hchk,rfl⟩)⟩

/-! ## Sizes -/

/-- The bytes of a response without the cells for the streams. -/
def frameBytes (requestId : UInt64) (stop : Stop) (elapsed : UInt64) (flags : UInt32) : ℕ :=
  scalarBytes ['3']+scalarBytes (decimal requestId.toNat) +
    scalarBytes (decimal stop.status.code.toNat) +
    (1+columnsBytes execResultColumns+2+rowBytes
      [unsignedValue stop.termination.code,optionalSigned stop.code,unsignedValue elapsed]) +
    (stop.error.elim 0 fun error => 1+recordBytes errorColumns error.cells) +
    scalarBytes (decimal flags.toNat)+4

/-- The bytes of the two cells of a stream, with their commas. -/
def streamBytes (stream : StreamResult) : ℕ :=
  rowBytes [optionalTextValue stream.projection,optionalReferenceValue stream.reference]

theorem response_written (h : response requestId stop elapsed stdout stderr flags=.ok found) :
    found.data=some (.exec (processResult stop elapsed stdout stderr)) ∧
      found.writtenBytes =
        frameBytes requestId stop elapsed flags+streamBytes stdout+streamBytes stderr := by
  obtain ⟨_,rfl⟩ := FinalResponse.new_ok_iff.1 (response_ok_iff.1 h)
  refine ⟨rfl,?_⟩
  have hnull : atomBytes (optionalReference none)=1 := by decide
  simp only [FinalResponse.writtenBytes,Option.elim_some,ResultData.writtenBytes,recordBytes,
    frameBytes,streamBytes,rowBytes,ProcessResult.cells,processResult,List.map_cons,List.map_nil,
    List.sum_cons,List.sum_nil,hnull,if_true]
  omega

end Response

/-! ## What is shown -/

/-- The bytes of a stream whose reference is not known yet. -/
def ShownStream.bytes (shown : ShownStream) : ℕ :=
  cellBytes (optionalTextValue shown.projection.text)+(if shown.retained then 21 else 1)+2

def Presentation.bytes (shown : Presentation) (requestId : UInt64) (stop : Stop)
    (elapsed : UInt64) : ℕ :=
  frameBytes requestId stop elapsed shown.flags+shown.stdout.bytes+shown.stderr.bytes

/-- A stream with less than its content is retained. -/
def ShownStream.Kept (shown : ShownStream) : Prop :=
  shown.projection.reduced=true → shown.retained=true

theorem streamBytes_placeholder (shown : ShownStream) :
    streamBytes (shown.result shown.placeholder)=shown.bytes := by
  have hlargest : cellBytes (optionalReferenceValue (some (UInt64.ofNat (2 ^ 64 - 1))))=21 := by
    decide
  have hnone : cellBytes (optionalReferenceValue none)=1 := by decide
  simp only [streamBytes,ShownStream.result,ShownStream.placeholder,ShownStream.bytes,rowBytes,
    List.map_cons,List.map_nil,List.sum_cons,List.sum_nil]
  split
  · omega
  · omega

theorem streamBytes_le {shown : ShownStream} {reference : Option UInt64}
    (h : reference.isSome=shown.retained) : streamBytes (shown.result reference) ≤ shown.bytes := by
  have hle := cellBytes_optionalReference_le reference
  have hnone : cellBytes (optionalReferenceValue none)=1 := by decide
  simp only [streamBytes,ShownStream.result,ShownStream.bytes,rowBytes,List.map_cons,List.map_nil,
    List.sum_cons,List.sum_nil,← h]
  cases reference with
  | none => simp only [Option.isSome_none,Bool.false_eq_true,if_false]; omega
  | some ref => simp only [Option.isSome_some,if_true]; omega

theorem isSome_placeholder (shown : ShownStream) : shown.placeholder.isSome=shown.retained := by
  rw [ShownStream.placeholder]
  cases shown.retained <;> rfl

theorem placeholder_ne_zero (shown : ShownStream) : shown.placeholder≠some 0 := by
  rw [ShownStream.placeholder]
  cases shown.retained <;> decide

section Steps

variable {program : Program} {requestId elapsed : UInt64} {stop : Stop} {stdout stderr : Capture}
  {limit : ℕ} {shown : Presentation}

theorem captured_present {capture : Capture} {focusErrors : Bool} {stream : ShownStream}
    (h : Capture.present capture limit focusErrors=.ok stream) :
    capture.quotaError=none ∧ stream.Kept := by
  simp only [Capture.present,bind_ok_iff,pure_ok_iff] at h
  obtain ⟨projection,-,content,hcont,rfl⟩ := h
  refine ⟨?_,fun hred => ?_⟩
  · have hset := capture.settled
    rw [Capture.captured] at hcont
    split at hcont
    · cases hcont
    · next hsome =>
      rw [hsome] at hset
      exact Option.isNone_iff_eq_none.1 hset.symm
  · simp only at hred ⊢
    rw [hred,Bool.true_or,Bool.true_or]

theorem present_ok (h : present limit stop stdout stderr=.ok shown) :
    checkQuota stdout stderr=.ok () ∧ shown.stdout.Kept ∧ shown.stderr.Kept := by
  simp only [present,bind_ok_iff,pure_ok_iff] at h
  obtain ⟨first,hfirst,second,hsecond,rfl⟩ := h
  obtain ⟨hout,hkept⟩ := captured_present hfirst
  obtain ⟨herr,hkept'⟩ := captured_present hsecond
  refine ⟨?_,hkept,hkept'⟩
  rw [checkQuota,hout,herr]
  rfl

/-- A response to a presentation is built once each retained stream has its reference. -/
theorem response_presented {first second : Option UInt64} (hid : requestId≠0)
    (hkept : shown.stdout.Kept ∧ shown.stderr.Kept)
    (hfirst : first.isSome=shown.stdout.retained) (hsecond : second.isSome=shown.stderr.retained)
    (hfirst' : first≠some 0) (hsecond' : second≠some 0) :
    ∃ found, response requestId stop elapsed (shown.stdout.result first)
      (shown.stderr.result second) shown.flags=.ok found := by
  rw [Presentation.flags,← hfirst,← hsecond]
  refine response_total hid hfirst' hsecond' fun hred => ?_
  rw [Bool.or_eq_true] at hred ⊢
  simp only [ShownStream.result]
  rw [hfirst,hsecond]
  exact hred.imp hkept.1 hkept.2

theorem prepare_ok_iff (hid : requestId≠0)
    (hshown : present (presentationLimit program.tracker) stop stdout stderr=.ok shown)
    {result : Presentation} :
    prepare program requestId stop stdout stderr elapsed=.ok result ↔
      (stop.finalizing=false → program.projection.Granted) ∧
      shown.bytes requestId stop elapsed ≤ presentationLimit program.tracker ∧ result=shown := by
  obtain ⟨hquota,hkept⟩ := present_ok hshown
  obtain ⟨found,hfound⟩ : ∃ found, temporary requestId stop elapsed shown=.ok found :=
    response_presented hid hkept (isSome_placeholder _) (isSome_placeholder _)
      (placeholder_ne_zero _) (placeholder_ne_zero _)
  obtain ⟨-,hbytes⟩ := response_written hfound
  obtain ⟨text,htext,hsize⟩ := encodedText_writes found
  rw [streamBytes_placeholder,streamBytes_placeholder] at hbytes
  rw [prepare,bind_unit_ok_iff,bind_unit_ok_iff,projectionPermit_ok_iff,hshown]
  simp only [hquota,true_and,bind_ok_iff,mapError_ok_iff,Except.ok.injEq,exists_eq_left',hfound,
    htext,require_ok_iff,pure_ok_iff,hsize,hbytes,exists_const,Presentation.bytes]
  exact and_congr_right fun _ => and_congr_right fun _ => eq_comm

/-- The aliases of a group lead, stream by stream, to the references of the response. -/
theorem reference_ok {P : CapturedContent → ℕ → Prop} {stream : ShownStream}
    {others : List CapturedContent} {aliases : List ℕ}
    (h : List.Forall₂ P (stream.captures++others) aliases) :
    ∃ reference left, stream.reference aliases=.ok (reference,left) ∧
      List.Forall₂ P others left ∧ reference.isSome=stream.retained ∧
      ∀ found, reference=some found → ∃ ref, found=UInt64.ofNat ref ∧ P stream.content ref := by
  unfold ShownStream.captures at h
  unfold ShownStream.reference
  cases hretained : stream.retained with
  | true =>
    rw [hretained,if_pos rfl] at h
    obtain ⟨ref,left,hP,hrest,rfl⟩ := List.forall₂_cons_left_iff.1 h
    refine ⟨some (UInt64.ofNat ref),left,rfl,hrest,rfl,fun found hfound => ?_⟩
    exact ⟨ref,(Option.some.inj hfound).symm,hP⟩
  | false =>
    rw [hretained,if_neg Bool.false_ne_true,List.nil_append] at h
    exact ⟨none,aliases,rfl,h,rfl,fun found hfound => nomatch hfound⟩

end Steps

/-! ## Reports -/

section Reports

variable {Id : Type}

/-- The stream is shown as projected; one that has to be retained is found in the store. -/
structure ShownStream.Reported (shown : ShownStream) (state : State Id) (stream : StreamResult) :
    Prop where
  projection : stream.projection=shown.projection.text
  retained : stream.reference.isSome=shown.retained
  found : ∀ reference, stream.reference=some reference → ∃ entry,
    state.byAlias.lookup reference.toNat=some entry ∧
      entry.content.stored=shown.content.content.stored

/-- The response tells how the process ended and what it wrote. -/
structure Reports (stop : Stop) (elapsed : UInt64) (shown : Presentation) (state : State Id)
    (response : FinalResponse) (result : ProcessResult) : Prop where
  data : response.data=some (.exec result)
  termination : result.termination=stop.termination
  code : result.code=stop.code
  elapsed : result.elapsedMillis=elapsed
  stdout : shown.stdout.Reported state result.stdout
  stderr : shown.stderr.Reported state result.stderr

variable {program : Program} {requestId elapsed outputLimit : UInt64} {stop : Stop}
  {budget : Budget} {deadline : ℕ} {stdout stderr : Capture} {shown : Presentation}
  {hash : List UInt8 → Id} {store : ResultStore Id} {faults : ReadFaults}

/-- What an alias of the store has to do with its capture. -/
def Holds (state : State Id) (captured : CapturedContent) (ref : ℕ) : Prop :=
  0 < ref ∧ ref < 2 ^ 64 ∧ ∃ entry, state.byAlias.lookup ref=some entry ∧
    entry.content.stored=captured.content.stored

theorem Holds.reference {state : State Id} {captured : CapturedContent} {reference : Option UInt64}
    (h : ∀ found, reference=some found → ∃ ref, found=UInt64.ofNat ref ∧
      Holds state captured ref) :
    reference≠some 0 ∧ ∀ found, reference=some found → ∃ entry,
      state.byAlias.lookup found.toNat=some entry ∧
        entry.content.stored=captured.content.stored := by
  constructor
  · intro hzero
    obtain ⟨ref,heq,hpos,hlt,-⟩ := h 0 hzero
    have hnat := congrArg UInt64.toNat heq
    rw [UInt64.toNat_ofNat_of_lt' hlt] at hnat
    exact Nat.ne_of_lt hpos hnat
  · intro found hfound
    obtain ⟨ref,rfl,-,hlt,hentry⟩ := h found hfound
    rw [UInt64.toNat_ofNat_of_lt' hlt]
    exact hentry

/-- Once the captures have their aliases, the response is built and its charge fits. -/
theorem conclude_reports {state : State Id} {aliases : List ℕ} (hid : requestId≠0)
    (hprogram : BudgetTracker.newWithDeadline budget outputLimit deadline=.ok program.tracker)
    (hkept : shown.stdout.Kept ∧ shown.stderr.Kept)
    (hfits : shown.bytes requestId stop elapsed ≤ presentationLimit program.tracker)
    (hals : List.Forall₂ (Holds state) shown.captures aliases) :
    ∃ response result, conclude program requestId stop elapsed shown aliases=.ok response ∧
      Reports stop elapsed shown state response result ∧
      response.writtenBytes ≤ presentationLimit program.tracker := by
  obtain ⟨first,left,hfirst,hleft,hfirstSome,hfirstFound⟩ := reference_ok hals
  rw [← List.append_nil shown.stderr.captures] at hleft
  obtain ⟨second,last,hsecond,hlast,hsecondSome,hsecondFound⟩ := reference_ok hleft
  obtain rfl := List.forall₂_nil_left_iff.1 hlast
  obtain ⟨hfirstZero,hfirstEntry⟩ := Holds.reference hfirstFound
  obtain ⟨hsecondZero,hsecondEntry⟩ := Holds.reference hsecondFound
  obtain ⟨response,hresp⟩ : ∃ found, ProcessResponses.response requestId stop elapsed
      (shown.stdout.result first) (shown.stderr.result second) shown.flags=.ok found :=
    response_presented hid hkept hfirstSome hsecondSome hfirstZero hsecondZero
  obtain ⟨hdata,hbytes⟩ := response_written hresp
  have hstdout := streamBytes_le hfirstSome
  have hstderr := streamBytes_le hsecondSome
  have hwritten : response.writtenBytes ≤ presentationLimit program.tracker := by
    rw [Presentation.bytes] at hfits
    omega
  obtain ⟨hfresh,-,hlimit,-⟩ := fresh_newWithDeadline hprogram
  have hrecs : 1 ≤ program.tracker.recordLimit := hlimit ▸ budget.records_pos
  have houtp : response.writtenBytes ≤ program.tracker.outputLimit := by
    rw [presentationLimit,BudgetTracker.remainingOutput] at hwritten
    omega
  refine ⟨response,_,?_,⟨hdata,rfl,rfl,rfl,⟨rfl,hfirstSome,hfirstEntry⟩,
    ⟨rfl,hsecondSome,hsecondEntry⟩⟩,hwritten⟩
  simp only [conclude,bind_ok_iff,mapError_ok_iff,require_ok_iff,pure_ok_iff]
  exact ⟨_,hfirst,_,hsecond,(),rfl,response,hresp,(),hfresh.charge_ok hrecs houtp,rfl⟩

variable [DecidableEq Id]

/-- What lets the outcome of a process through: the permits are granted, the shown texts fit as
they are quoted, and the store takes what is retained. -/
structure Passable (hash : List UInt8 → Id) (store : ResultStore Id) (faults : ReadFaults)
    (program : Program) (requestId : UInt64) (stop : Stop) (elapsed : UInt64)
    (shown : Presentation) : Prop where
  projection : stop.finalizing=false → program.projection.Granted
  fits : shown.bytes requestId stop elapsed ≤ presentationLimit program.tracker
  retention : shown.captures≠[] → program.retention.Granted ∧
    CaptureRoom hash store faults shown.captures

theorem passable_of_response {response : FinalResponse} (hid : requestId≠0)
    (hshown : present (presentationLimit program.tracker) stop stdout stderr=.ok shown)
    (hidx : Indexed store.state store.state.nextAlias)
    (h : (buildResponse hash store faults program requestId stop stdout stderr elapsed).2 =
      .ok response) :
    Passable hash store faults program requestId stop elapsed shown := by
  rw [buildResponse] at h
  cases hprep : prepare program requestId stop stdout stderr elapsed with
  | error error =>
    rw [hprep] at h
    cases h
  | ok found =>
    obtain ⟨hperm,hfits,rfl⟩ := (prepare_ok_iff hid hshown).1 hprep
    refine ⟨hperm,hfits,fun hcaps => ?_⟩
    simp only [hprep,if_neg hcaps] at h
    cases hacquire : acquire program.retention with
    | error error =>
      rw [hacquire] at h
      cases h
    | ok =>
      simp only [hacquire,bind_ok_iff,mapError_ok_iff] at h
      obtain ⟨aliases,hals,-⟩ := h
      exact ⟨acquire_ok_iff.1 hacquire,((retainCaptures_ok_iff hidx hcaps).1 hals).1⟩

theorem Passable.reports (h : Passable hash store faults program requestId stop elapsed shown)
    (hid : requestId≠0)
    (hprogram : BudgetTracker.newWithDeadline budget outputLimit deadline=.ok program.tracker)
    (hshown : present (presentationLimit program.tracker) stop stdout stderr=.ok shown)
    (hidx : Indexed store.state store.state.nextAlias) :
    ∃ response result,
      (buildResponse hash store faults program requestId stop stdout stderr elapsed).2 =
        .ok response ∧
      Reports stop elapsed shown
        (buildResponse hash store faults program requestId stop stdout stderr elapsed).1
        response result ∧
      response.writtenBytes ≤ presentationLimit program.tracker := by
  have hkept := (present_ok hshown).2
  have hprep : prepare program requestId stop stdout stderr elapsed=.ok shown :=
    (prepare_ok_iff hid hshown).2 ⟨h.projection,h.fits,rfl⟩
  by_cases hcaps : shown.captures=[]
  · have hnone : List.Forall₂ (Holds store.state) shown.captures [] := hcaps ▸ .nil
    have hbuild : buildResponse hash store faults program requestId stop stdout stderr elapsed =
        (store.state,conclude program requestId stop elapsed shown []) := by
      simp only [buildResponse,hprep,if_pos hcaps]
    rw [hbuild]
    exact conclude_reports hid hprogram hkept h.fits hnone
  · obtain ⟨hgranted,hroom⟩ := h.retention hcaps
    have hals := (retainCaptures_ok_iff hidx hcaps).2 ⟨hroom,rfl⟩
    have hholds := retainCaptures_contents hidx hcaps hals
    obtain ⟨response,result,hconclude,hrep⟩ :=
      conclude_reports hid hprogram hkept h.fits hholds
    have hbuild : buildResponse hash store faults program requestId stop stdout stderr elapsed =
        ((retainCaptures hash store faults shown.captures).1,.ok response) := by
      simp only [buildResponse,hprep,if_neg hcaps,acquire_ok_iff.2 hgranted,hals]
      exact congrArg (Prod.mk _) hconclude
    rw [hbuild]
    exact ⟨response,result,rfl,hrep⟩

end Reports

/-! ## A small run -/

def runRequest : Request where
  id := 1
  arguments := .exec ⟨['a'],[],['.'],[],.none,0⟩
  budget := ⟨256,1,1,rfl⟩
  permit := none
  checked := rfl

def runStore : ResultStore (List UInt8) := (System.new 0 ⟨1000,10⟩).store

def noFaults : ReadFaults := ⟨fun _ => false,fun _ => false⟩

def memoryContent (bytes : Bytes) : CapturedContent := ⟨⟨bytes.length,.memory,bytes⟩,⟨0,0⟩,none⟩

def memoryCapture (bytes : Bytes) : Capture where
  content := some (memoryContent bytes)
  quotaError := none
  text := StreamText.default.observe bytes
  settled := rfl

def shownInFull (bytes : Bytes) (text : Option Text) : ShownStream :=
  ⟨memoryContent bytes,⟨text,false,false⟩,false⟩

/-- A permit is free, also after the deadline. -/
def freePolls (cancelled : Bool) : Polls :=
  ⟨⟨cancelled,.permit,true,.inr (.inr rfl)⟩,⟨cancelled,.permit,true,.inr (.inr rfl)⟩⟩

/-- The presentation limit is 1024 bytes. -/
def runProgram (cancelled : Bool) : Program :=
  ⟨⟨256,1024,1,0,0,0⟩,freePolls cancelled,freePolls cancelled⟩

/-! ## Processes that were stopped -/

/-- A cancelled token stays cancelled, and a deadline that has passed stays passed. -/
def Stop.Lasts : Stop → Polls → Prop
  | .exited _, _ => True
  | .timedOut, polls => polls.session.expired=true ∧ polls.global.expired=true
  | .cancelled, polls => polls.session.cancelled=true ∧ polls.global.cancelled=true

variable {Id : Type} [DecidableEq Id]

/-- A stopped process whose response fits is reported just when nothing has to be retained, or
when it was its deadline that passed, the program was not cancelled as well, permits are there
at once and the store has room. -/
theorem stopped_reported_iff (hash : List UInt8 → Id) (address : ℕ) (limits : StoreLimits)
    (sys : System Id) (history : List Event) (faults : ReadFaults) (program : Program)
    (budget : Budget) (outputLimit : UInt64) (deadline : ℕ) (request : Request) (stop : Stop)
    (stdout stderr : Capture) (elapsed : UInt64) (shown : Presentation)
    (hstop : stop.finalizing=true) (hlasts : stop.Lasts program.retention)
    (hprogram : BudgetTracker.newWithDeadline budget outputLimit deadline=.ok program.tracker)
    (hshown : present (presentationLimit program.tracker) stop stdout stderr=.ok shown)
    (hfits : shown.bytes request.id stop elapsed ≤ presentationLimit program.tracker)
    (hstore : Run hash address limits sys history) :
    (∃ response result,
      (buildResponse hash sys.store faults program request.id stop stdout stderr elapsed).2 =
        .ok response ∧
      Reports stop elapsed shown
        (buildResponse hash sys.store faults program request.id stop stdout stderr elapsed).1
        response result) ↔
    shown.captures=[] ∨ stop.termination=.timedOut ∧ program.retention.Granted ∧
      CaptureRoom hash sys.store faults shown.captures := by
  have hidx := hstore.consistent.balanced.indexed
  constructor
  · rintro ⟨response,result,hok,-⟩
    have hpass := passable_of_response request.id_ne_zero hshown hidx hok
    by_cases hcaps : shown.captures=[]
    · exact .inl hcaps
    · obtain ⟨hgranted,hroom⟩ := hpass.retention hcaps
      refine .inr ⟨?_,hgranted,hroom⟩
      cases stop with
      | exited exit => cases hstop
      | timedOut => rfl
      | cancelled =>
        have hcan := hlasts.1
        rw [hgranted.1.1] at hcan
        cases hcan
  · intro h
    have hpass : Passable hash sys.store faults program request.id stop elapsed shown := by
      refine ⟨fun hrunning => ?_,hfits,fun hcaps => ?_⟩
      · rw [hstop] at hrunning
        cases hrunning
      · exact (h.resolve_left hcaps).2
    obtain ⟨response,result,hok,hrep,-⟩ :=
      hpass.reports request.id_ne_zero hprogram hshown hidx
    exact ⟨response,result,hok,hrep⟩

/-- A process that has written `a` before its deadline. -/
theorem timed_out_reported : ∃ response result,
    (buildResponse id runStore noFaults (runProgram false) runRequest.id
      .timedOut (memoryCapture [97]) (memoryCapture []) 5).2=.ok response ∧
    Reports .timedOut 5 ⟨shownInFull [97] (some ['a']),shownInFull [] none⟩
      (buildResponse id runStore noFaults (runProgram false)
        runRequest.id .timedOut (memoryCapture [97]) (memoryCapture []) 5).1 response result :=
  (stopped_reported_iff id 0 ⟨1000,10⟩ (System.new 0 ⟨1000,10⟩) [] noFaults
    (runProgram false) runRequest.budget 1024 0 runRequest .timedOut
    (memoryCapture [97]) (memoryCapture []) 5 ⟨shownInFull [97] (some ['a']),shownInFull [] none⟩
    rfl ⟨rfl,rfl⟩ rfl rfl (by decide) .new).2 (.inl rfl)

/-- A cancelled process that has written one byte which is no text.  Its response fits and the
store would take the byte. -/
theorem cancelled_outcome_lost :
    present (presentationLimit (runProgram true).tracker) .cancelled (memoryCapture [255])
      (memoryCapture [])=.ok ⟨⟨memoryContent [255],⟨none,true,false⟩,true⟩,shownInFull [] none⟩ ∧
    Presentation.bytes ⟨⟨memoryContent [255],⟨none,true,false⟩,true⟩,shownInFull [] none⟩
      runRequest.id .cancelled 5 ≤ presentationLimit (runProgram true).tracker ∧
    (retainCaptures id runStore noFaults [memoryContent [255]]).2=.ok [1] ∧
    (buildResponse id runStore noFaults (runProgram true) runRequest.id
      .cancelled (memoryCapture [255]) (memoryCapture []) 5).2 =
        .error (.engine (.governor .cancelled)) := by
  have hshown : present (presentationLimit (runProgram true).tracker) .cancelled (memoryCapture [255])
      (memoryCapture []) =
        .ok ⟨⟨memoryContent [255],⟨none,true,false⟩,true⟩,shownInFull [] none⟩ := rfl
  have hfits : Presentation.bytes
      ⟨⟨memoryContent [255],⟨none,true,false⟩,true⟩,shownInFull [] none⟩
      runRequest.id .cancelled 5 ≤ presentationLimit (runProgram true).tracker := by decide
  have hprep : prepare (runProgram true) runRequest.id .cancelled
      (memoryCapture [255]) (memoryCapture []) 5=.ok _ :=
    (prepare_ok_iff runRequest.id_ne_zero hshown).2 ⟨fun h => (nomatch h),hfits,rfl⟩
  refine ⟨hshown,hfits,by decide,?_⟩
  rw [buildResponse,hprep]
  rfl

/-! ## Processes that ended -/

/-- The outcome of a process that ended is reported within the limit just when the permits are
granted, the shown texts fit as they are quoted, and the store has room for what is retained. -/
theorem exited_reported_iff (hash : List UInt8 → Id) (address : ℕ) (limits : StoreLimits)
    (sys : System Id) (history : List Event) (faults : ReadFaults) (program : Program)
    (budget : Budget) (outputLimit : UInt64) (deadline : ℕ) (request : Request)
    (exit : ProcessExit) (stdout stderr : Capture) (elapsed : UInt64) (shown : Presentation)
    (hprogram : BudgetTracker.newWithDeadline budget outputLimit deadline=.ok program.tracker)
    (hshown : present (presentationLimit program.tracker) (.exited exit) stdout stderr=.ok shown)
    (hstore : Run hash address limits sys history) :
    (∃ response result text,
      (buildResponse hash sys.store faults program request.id (.exited exit) stdout stderr
        elapsed).2=.ok response ∧
      Reports (.exited exit) elapsed shown
        (buildResponse hash sys.store faults program request.id (.exited exit) stdout stderr
          elapsed).1 response result ∧
      encodedText response=.ok text ∧
      byteLength text ≤ presentationLimit program.tracker) ↔
    program.projection.Granted ∧
      frameBytes request.id (.exited exit) elapsed shown.flags+shown.stdout.bytes +
        shown.stderr.bytes ≤ presentationLimit program.tracker ∧
      (shown.captures=[] ∨
        program.retention.Granted ∧ CaptureRoom hash sys.store faults shown.captures) := by
  have hidx := hstore.consistent.balanced.indexed
  constructor
  · rintro ⟨response,result,text,hok,-,-,-⟩
    have hpass := passable_of_response request.id_ne_zero hshown hidx hok
    refine ⟨hpass.projection rfl,hpass.fits,?_⟩
    by_cases hcaps : shown.captures=[]
    · exact .inl hcaps
    · exact .inr (hpass.retention hcaps)
  · rintro ⟨hgranted,hfits,hret⟩
    have hpass : Passable hash sys.store faults program request.id (.exited exit) elapsed
        shown := ⟨fun _ => hgranted,hfits,fun hcaps => hret.resolve_left hcaps⟩
    obtain ⟨response,result,hok,hrep,hwritten⟩ :=
      hpass.reports request.id_ne_zero hprogram hshown hidx
    obtain ⟨text,htext,hsize⟩ := encodedText_writes response
    exact ⟨response,result,text,hok,hrep,htext,hsize ▸ hwritten⟩

def exitSuccess : ProcessExit := ⟨true,some 0,none,.inl rfl⟩

theorem exited_reported : ∃ response result text,
    (buildResponse id runStore noFaults (runProgram false) runRequest.id
      (.exited exitSuccess) (memoryCapture [97]) (memoryCapture []) 5).2=.ok response ∧
    Reports (.exited exitSuccess) 5 ⟨shownInFull [97] (some ['a']),shownInFull [] none⟩
      (buildResponse id runStore noFaults (runProgram false)
        runRequest.id (.exited exitSuccess) (memoryCapture [97]) (memoryCapture []) 5).1
      response result ∧
    encodedText response=.ok text ∧
    byteLength text ≤ presentationLimit (runProgram false).tracker :=
  (exited_reported_iff id 0 ⟨1000,10⟩ (System.new 0 ⟨1000,10⟩) [] noFaults
    (runProgram false) runRequest.budget 1024 0 runRequest exitSuccess
    (memoryCapture [97]) (memoryCapture []) 5 ⟨shownInFull [97] (some ['a']),shownInFull [] none⟩
    rfl rfl .new).2 ⟨⟨⟨rfl,rfl⟩,rfl,rfl⟩,by decide,.inl rfl⟩

/-- Half of the limit in control characters, each of which takes five bytes as it is quoted. -/
def controlText : Text := List.replicate 512 '\x01'

theorem le_atomBytes_controlText : 2560 ≤ atomBytes (.text controlText) := by
  have hbare : isBareText controlText≠true := by
    rw [Ne,isBareText_iff]
    rintro ⟨-,hall,-⟩
    have hmem : '\x01'∈controlText := List.mem_replicate.2 ⟨by decide,rfl⟩
    exact absurd (hall _ hmem) (by decide)
  have hchar : quotedCharBytes '\x01'=5 := by decide
  rw [atomBytes,if_neg hbare,controlText,List.map_replicate,hchar,List.sum_replicate]
  decide

/-- A process that succeeded and has written half of the limit in control characters.  They are
shown in full, so the store is not asked, and permits are free. -/
theorem exited_outcome_lost :
    presentationLimit (runProgram false).tracker=1024 ∧
    present (presentationLimit (runProgram false).tracker) (.exited exitSuccess)
      (memoryCapture (utf8 controlText)) (memoryCapture []) =
        .ok ⟨shownInFull (utf8 controlText) (some controlText),shownInFull [] none⟩ ∧
    ∀ response, (buildResponse id runStore noFaults
      (runProgram false) runRequest.id (.exited exitSuccess)
      (memoryCapture (utf8 controlText)) (memoryCapture []) 5).2≠.ok response := by
  have hlimit : presentationLimit (runProgram false).tracker=1024 := rfl
  have hproject : project (utf8 controlText) 512 false=⟨some controlText,false,false⟩ := by
    refine project_line (by decide) (fun hmem => ?_) ?_
    · exact absurd (List.eq_of_mem_replicate hmem) (by decide)
    · rw [controlText,byteLength,List.map_replicate,List.sum_replicate]
      decide
  have hstdout : Capture.present (memoryCapture (utf8 controlText)) 512 false =
      .ok (shownInFull (utf8 controlText) (some controlText)) := by
    have hview : (memoryCapture (utf8 controlText)).project 512 false =
        .ok (project (utf8 controlText) 512 false) := rfl
    rw [Capture.present,hview,hproject]
    rfl
  have hstderr : Capture.present (memoryCapture []) 128 false=.ok (shownInFull [] none) := rfl
  have hshown : present (presentationLimit (runProgram false).tracker) (.exited exitSuccess)
      (memoryCapture (utf8 controlText)) (memoryCapture []) =
        .ok ⟨shownInFull (utf8 controlText) (some controlText),shownInFull [] none⟩ := by
    rw [hlimit]
    exact bind_ok_iff.2 ⟨_,hstdout,bind_ok_iff.2 ⟨_,hstderr,rfl⟩⟩
  refine ⟨hlimit,hshown,fun response hresp => ?_⟩
  have hidx : Indexed runStore.state runStore.state.nextAlias :=
    (consistent_new id 0 ⟨1000,10⟩).balanced.indexed
  have hfits := (passable_of_response runRequest.id_ne_zero hshown hidx hresp).fits
  have hshownBytes : (shownInFull (utf8 controlText) (some controlText)).bytes =
      atomBytes (.text controlText)+1+2 := by
    simp only [ShownStream.bytes,shownInFull,optionalTextValue,Option.elim_some,textValue,cellBytes,
      Bool.false_eq_true,if_false]
  have hatom := le_atomBytes_controlText
  simp only [Presentation.bytes] at hfits
  omega

end Ash.ProcessResponses
