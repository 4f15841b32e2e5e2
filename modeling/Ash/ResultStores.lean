import Ash.KeyedTables
import Ash.Outcomes

/-! # The store of retained results

Contents, their numeric aliases, the byte quota with its reservations, and captures that spill
to disk.  The content hash is any function. -/

namespace Ash.ResultStores
open KeyedTables Outcomes

def defaultCaptureMemoryBytes : ℕ := 4*1024*1024
def compareBufferBytes : ℕ := 64*1024

inductive StoreError where
  | contentTooLarge
  | byteQuota (current incoming max : ℕ)
  | entryQuota (max : ℕ)
  | aliasExhausted
  | unknownAlias (ref : ℕ)
  | inUse (ref : ℕ)
  | reservationMismatch
  | readLimit (requested max : ℕ)
  | io
  | digestCollision
  | invariant
  deriving DecidableEq

structure StoreLimits where
  maxBytes : ℕ
  maxEntries : ℕ

inductive StoreResidency where
  | memory
  | disk
  deriving DecidableEq

/-- The recorded length, and the bytes in memory or in the spool file. -/
structure Content where
  length : ℕ
  residency : StoreResidency
  stored : List UInt8
  deriving DecidableEq

structure Entry (Id : Type) where
  contentId : Id
  content : Content

structure State (Id : Type) where
  nextAlias : ℕ
  bytes : ℕ
  pendingBytes : ℕ
  byAlias : Table ℕ (Entry Id)
  byContent : Table Id ℕ

/-- A store with the address that its reservations refer to. -/
structure ResultStore (Id : Type) where
  address : ℕ
  limits : StoreLimits
  state : State Id

structure StoreReservation where
  store : ℕ
  bytes : ℕ
  deriving DecidableEq

structure PendingContent (Id : Type) where
  contentId : Option Id
  content : Content
  reservation : Option StoreReservation

variable {Id : Type}

def State.new : State Id := ⟨1,0,0,∅,∅⟩

/-! ## Reading contents -/

def Content.digest (hash : List UInt8 → Id) (fault : Bool) (content : Content) :
    Except StoreError Id :=
  match content.residency with
  | .memory => .ok (hash content.stored)
  | .disk => do
      require (fault=false ∧ content.stored.length=content.length) .io
      return hash content.stored

/-- Buffers are filled and compared until the recorded length is read; then both files end. -/
def compareLoop : ℕ → ℕ → List UInt8 → List UInt8 → Except StoreError Bool
  | 0, _, left, right => if left=[] ∧ right=[] then .ok true else .error .io
  | fuel+1, remaining, left, right =>
      if remaining=0 then compareLoop 0 0 left right
      else
        let chunk := min remaining compareBufferBytes
        if left.length < chunk ∨ right.length < chunk then .error .io
        else if left.take chunk≠right.take chunk then .ok false
        else compareLoop fuel (remaining - chunk) (left.drop chunk) (right.drop chunk)

def Content.equals (fault : Bool) (content other : Content) : Except StoreError Bool :=
  if content.length≠other.length then .ok false
  else if content.residency=.memory ∧ other.residency=.memory then
    .ok (decide (content.stored=other.stored))
  else if fault then .error .io
  else compareLoop content.length content.length content.stored other.stored

/-! ## Retention -/

/-- Which digests and comparisons fail to read. -/
structure ReadFaults where
  digest : ℕ → Bool
  compare : ℕ → Bool

inductive Placement where
  | existing (ref : ℕ)
  | new (first : ℕ)
  deriving DecidableEq

def checkReservation (address : ℕ) (value : PendingContent Id) : Except StoreError Unit :=
  match value.reservation with
  | none => .ok ()
  | some reservation =>
      require (reservation.store=address ∧ reservation.bytes ≤ value.content.length)
        .reservationMismatch

def identify (hash : List UInt8 → Id) (faults : ReadFaults) (entry : PendingContent Id × ℕ) :
    Except StoreError (Id × Content) :=
  match entry.1.contentId with
  | some id => .ok (id,entry.1.content)
  | none => do
      let id ← entry.1.content.digest hash (faults.digest entry.2)
      return (id,entry.1.content)

def PendingContent.reserved (value : PendingContent Id) : ℕ :=
  match value.reservation with
  | none => 0
  | some reservation => reservation.bytes

def sumReservations : List (PendingContent Id) → ℕ → Except StoreError ℕ
  | [], total => .ok total
  | value::values, total =>
      if total+value.reserved < 2 ^ 64 then sumReservations values (total+value.reserved)
      else .error .contentTooLarge

def expectSame : Except StoreError Bool → Except StoreError Unit
  | .error error => .error error
  | .ok same => if same then .ok () else .error .digestCollision

variable [DecidableEq Id]

/-- Where each value goes: to the alias of equal content, to the first equal value of the
group, or to an alias of its own. -/
def placeLoop (state : State Id) (faults : ReadFaults) (group : List (Id × Content)) :
    List (Id × Content) → ℕ → Table Id ℕ → ℕ →
      Except StoreError (List Placement × Table Id ℕ × ℕ)
  | [], _, firstNew, incoming => .ok ([],firstNew,incoming)
  | (id,content)::items, index, firstNew, incoming =>
      match state.byContent.lookup id with
      | some ref =>
          match state.byAlias.lookup ref with
          | none => .error .invariant
          | some existing => do
              expectSame (existing.content.equals (faults.compare index) content)
              let (placements,firstNew,incoming) ←
                placeLoop state faults group items (index+1) firstNew incoming
              return (.existing ref::placements,firstNew,incoming)
      | none =>
          match firstNew.lookup id with
          | some first =>
              match group[first]? with
              | none => .error .invariant
              | some leader => do
                  expectSame (leader.2.equals (faults.compare index) content)
                  let (placements,firstNew,incoming) ←
                    placeLoop state faults group items (index+1) firstNew incoming
                  return (.new first::placements,firstNew,incoming)
          | none => do
              require (incoming+content.length < 2 ^ 64) .contentTooLarge
              let (placements,firstNew,incoming) ← placeLoop state faults group items (index+1)
                (firstNew.insert id index) (incoming+content.length)
              return (.new index::placements,firstNew,incoming)

structure Plan where
  placements : List Placement
  incoming : ℕ
  nextAlias : ℕ
  pendingAfter : ℕ

/-- Everything that is checked before the store changes. -/
def plan (limits : StoreLimits) (state : State Id) (faults : ReadFaults)
    (pending : List (PendingContent Id)) (group : List (Id × Content)) :
    Except StoreError Plan := do
  let reserved ← sumReservations pending 0
  require (reserved ≤ state.pendingBytes) .invariant
  let (placements,firstNew,incoming) ← placeLoop state faults group group 0 ∅ 0
  require (state.bytes+(state.pendingBytes - reserved) < 2 ^ 64) .contentTooLarge
  require (state.bytes+(state.pendingBytes - reserved)+incoming < 2 ^ 64) .contentTooLarge
  require (state.bytes+(state.pendingBytes - reserved)+incoming ≤ limits.maxBytes)
    (.byteQuota (state.bytes+(state.pendingBytes - reserved)) incoming limits.maxBytes)
  require (size state.byAlias+size firstNew ≤ limits.maxEntries) (.entryQuota limits.maxEntries)
  require (state.nextAlias+size firstNew < 2 ^ 64) .aliasExhausted
  return ⟨placements,incoming,state.nextAlias+size firstNew,state.pendingBytes - reserved⟩

def State.keep (state : State Id) (ref : ℕ) (id : Id) (content : Content) : State Id :=
  { state with
    byAlias := state.byAlias.insert ref ⟨id,content⟩
    byContent := state.byContent.insert id ref }

def prepend (ref : ℕ) (outcome : State Id × Except StoreError (List ℕ × ℕ)) :
    State Id × Except StoreError (List ℕ × ℕ) :=
  (outcome.1,outcome.2.map fun found => (ref::found.1,found.2))

/-- The insertions.  An error here would leave those already made. -/
def allocateLoop : List ((Id × Content) × Placement) → ℕ → ℕ → Table ℕ ℕ → State Id →
    State Id × Except StoreError (List ℕ × ℕ)
  | [], _, ref, _, state => (state,.ok ([],ref))
  | (_,.existing existing)::items, index, ref, allocated, state =>
      prepend existing (allocateLoop items (index+1) ref allocated state)
  | (item,.new first)::items, index, ref, allocated, state =>
      if first≠index then
        match allocated.lookup first with
        | none => (state,.error .invariant)
        | some known => prepend known (allocateLoop items (index+1) ref allocated state)
      else if ref+1 < 2 ^ 64 then
        prepend ref (allocateLoop items (index+1) (ref+1) (allocated.insert index ref)
          (state.keep ref item.1 item.2))
      else (state.keep ref item.1 item.2,.error .invariant)

def State.settle (state : State Id) (plan : Plan) : State Id × Except StoreError Unit :=
  if state.bytes+plan.incoming < 2 ^ 64 then
    ({ state with
        nextAlias := plan.nextAlias
        bytes := state.bytes+plan.incoming
        pendingBytes := plan.pendingAfter },.ok ())
  else ({ state with nextAlias := plan.nextAlias },.error .invariant)

/-- What is done under the lock. -/
def commit (limits : StoreLimits) (state : State Id) (faults : ReadFaults)
    (pending : List (PendingContent Id)) (group : List (Id × Content)) :
    State Id × Except StoreError (List ℕ) :=
  match plan limits state faults pending group with
  | .error error => (state,.error error)
  | .ok plan =>
      match allocateLoop (group.zip plan.placements) 0 state.nextAlias ∅ state with
      | (changed,.error error) => (changed,.error error)
      | (changed,.ok (aliases,ref)) =>
          if ref≠plan.nextAlias then (changed,.error .invariant)
          else ((changed.settle plan).1,(changed.settle plan).2.map fun _ => aliases)

variable (hash : List UInt8 → Id) (store : ResultStore Id) (faults : ReadFaults)

/-- What is done before the lock is taken. -/
def examine (pending : List (PendingContent Id)) : Except StoreError (List (Id × Content)) := do
  each (checkReservation store.address) pending
  pending.zipIdx.mapM (identify hash faults)

def retainPending (pending : List (PendingContent Id)) : State Id × Except StoreError (List ℕ) :=
  if pending=[] then (store.state,.ok [])
  else
    match examine hash store faults pending with
    | .error error => (store.state,.error error)
    | .ok group => commit store.limits store.state faults pending group

/-- Large values go to a spool file, whose writing may fail. -/
def prepareBytes (fault : Bool) (bytes : List UInt8) :
    Except StoreError (PendingContent Id) := do
  require (bytes.length < 2 ^ 64) .contentTooLarge
  if bytes.length ≤ defaultCaptureMemoryBytes then
    return ⟨some (hash bytes),⟨bytes.length,.memory,bytes⟩,none⟩
  else do
    require (fault=false) .io
    return ⟨some (hash bytes),⟨bytes.length,.disk,bytes⟩,none⟩

def retainMany (spoolFault : Bool) (faults : ReadFaults) (contents : List (List UInt8)) :
    State Id × Except StoreError (List ℕ) :=
  match contents.mapM (prepareBytes hash spoolFault) with
  | .error error => (store.state,.error error)
  | .ok pending => retainPending hash store faults pending

def retain (spoolFault : Bool) (faults : ReadFaults) (bytes : List UInt8) :
    State Id × Except StoreError ℕ :=
  ((retainMany hash store spoolFault faults [bytes]).1,
    match (retainMany hash store spoolFault faults [bytes]).2 with
    | .error error => .error error
    | .ok [] => .error .invariant
    | .ok (ref::_) => .ok ref)

/-! ## References -/

def get (state : State Id) (ref : ℕ) : Except StoreError Content :=
  match state.byAlias.lookup ref with
  | none => .error (.unknownAlias ref)
  | some entry => .ok entry.content

/-- A lease is the content itself.  A file that is too short or too long is not read. -/
def readAll (lease : Content) (fault : Bool) (maxBytes : ℕ) : Except StoreError (List UInt8) := do
  require (lease.length ≤ maxBytes) (.readLimit lease.length maxBytes)
  match lease.residency with
  | .memory => return lease.stored
  | .disk => do
      require (fault=false ∧ lease.stored.length=lease.length) .io
      return lease.stored

def readRange (lease : Content) (fault : Bool) (offset length maxBytes : ℕ) :
    Except StoreError (List UInt8) := do
  require (length ≤ maxBytes) (.readLimit length maxBytes)
  let start := min offset lease.length
  let actual := min length (lease.length - start)
  match lease.residency with
  | .memory => return (lease.stored.drop start).take actual
  | .disk => do
      require (fault=false ∧ start+actual ≤ lease.stored.length) .io
      return (lease.stored.drop start).take actual

/-- `leases` are the leases of this alias that are held. -/
def release (state : State Id) (leases : ℕ) (ref : ℕ) : State Id × Except StoreError Unit :=
  match state.byAlias.lookup ref with
  | none => (state,.error (.unknownAlias ref))
  | some entry =>
      if leases≠0 then (state,.error (.inUse ref))
      else
        let removed := { state with
          byAlias := state.byAlias.erase ref
          byContent := state.byContent.erase entry.contentId }
        if entry.content.length ≤ state.bytes then
          ({ removed with bytes := state.bytes - entry.content.length },.ok ())
        else (removed,.error .invariant)

/-! ## Captures -/

structure CaptureSample where
  head : List UInt8
  headNext : Option UInt8
  tail : List UInt8
  headLimit : ℕ
  tailLimit : ℕ
  deriving DecidableEq

def CaptureSample.new (limit : ℕ) : CaptureSample := ⟨[],none,[],limit / 2,limit - limit / 2⟩

def CaptureSample.observe (sample : CaptureSample) (bytes : List UInt8) : CaptureSample :=
  let headBytes := min (sample.headLimit - sample.head.length) bytes.length
  let head := sample.head++bytes.take headBytes
  let rest := bytes.drop headBytes
  { sample with
    head := head
    headNext := if head.length=sample.headLimit ∧ sample.headNext=none then rest.head?
      else sample.headNext
    tail := if sample.tailLimit=0 then sample.tail
      else (sample.tail++rest).drop ((sample.tail++rest).length - sample.tailLimit) }

inductive CaptureState where
  | memory (bytes : List UInt8)
  | disk (stored : List UInt8) (sample : CaptureSample)
  deriving DecidableEq

structure StoreCapture where
  reservation : StoreReservation
  memoryLimit : ℕ
  length : ℕ
  state : CaptureState
  deriving DecidableEq

structure CapturedContent where
  content : Content
  reservation : StoreReservation
  sample : Option CaptureSample
  deriving DecidableEq

def capture (memoryLimit : ℕ) : StoreCapture :=
  ⟨⟨store.address,0⟩,min memoryLimit store.limits.maxBytes,0,.memory []⟩

def checkReserve (limits : StoreLimits) (state : State Id) (reservation : StoreReservation)
    (incoming : ℕ) : Except StoreError Unit := do
  require (reservation.bytes+incoming < 2 ^ 64) .contentTooLarge
  require (state.bytes+state.pendingBytes < 2 ^ 64) .contentTooLarge
  require (state.bytes+state.pendingBytes+incoming < 2 ^ 64) .contentTooLarge
  require (state.bytes+state.pendingBytes+incoming ≤ limits.maxBytes)
    (.byteQuota (state.bytes+state.pendingBytes) incoming limits.maxBytes)

def reserve (limits : StoreLimits) (state : State Id) (reservation : StoreReservation)
    (incoming : ℕ) : State Id × StoreReservation × Except StoreError Unit :=
  if incoming=0 then (state,reservation,.ok ())
  else match checkReserve limits state reservation incoming with
  | .error error => (state,reservation,.error error)
  | .ok () => ({ state with pendingBytes := state.pendingBytes+incoming },
      { reservation with bytes := reservation.bytes+incoming },.ok ())

/-- Where an append stops: nowhere, when memory is short, when the spool file is made, or when
it is written, with some bytes already in the file. -/
inductive AppendFault where
  | none
  | allocate
  | create
  | write (kept : ℕ)
  deriving DecidableEq

/-- The first write of a capture that has outgrown its memory.  After a failed write the bytes
held in memory are gone. -/
def spill (capture : StoreCapture) (reservation : StoreReservation) (bytes chunk : List UInt8) :
    AppendFault → StoreCapture × Except StoreError Unit
  | .create => ({ capture with reservation },.error .io)
  | .allocate => ({ capture with reservation, state := .memory [] },.error .contentTooLarge)
  | .write _ => ({ capture with reservation, state := .memory [] },.error .io)
  | .none => ({ capture with
      reservation
      length := capture.length+chunk.length
      state := .disk (bytes++chunk)
        (((CaptureSample.new capture.memoryLimit).observe bytes).observe chunk) },.ok ())

def extend (capture : StoreCapture) (reservation : StoreReservation) (stored : List UInt8)
    (sample : CaptureSample) (chunk : List UInt8) :
    AppendFault → StoreCapture × Except StoreError Unit
  | .write kept => ({ capture with reservation, state := .disk (stored++chunk.take kept) sample },
      .error .io)
  | _ => ({ capture with
      reservation
      length := capture.length+chunk.length
      state := .disk (stored++chunk) (sample.observe chunk) },.ok ())

def append (limits : StoreLimits) (state : State Id) (capture : StoreCapture)
    (chunk : List UInt8) (fault : AppendFault) :
    State Id × StoreCapture × Except StoreError Unit :=
  if chunk=[] then (state,capture,.ok ())
  else if 2 ^ 64 ≤ capture.length+chunk.length then (state,capture,.error .contentTooLarge)
  else match capture.state with
    | .memory bytes =>
        if capture.length+chunk.length ≤ capture.memoryLimit then
          if fault=.allocate then (state,capture,.error .contentTooLarge)
          else (state,{ capture with
            length := capture.length+chunk.length
            state := .memory (bytes++chunk) },.ok ())
        else match reserve limits state capture.reservation (capture.length+chunk.length) with
          | (state,_,.error error) => (state,capture,.error error)
          | (state,reservation,.ok ()) =>
              (state,spill capture reservation bytes chunk fault)
    | .disk stored sample =>
        match reserve limits state capture.reservation chunk.length with
        | (state,_,.error error) => (state,capture,.error error)
        | (state,reservation,.ok ()) =>
            (state,extend capture reservation stored sample chunk fault)

/-- A capture on disk is flushed first, which may fail. -/
def finish (capture : StoreCapture) (fault : Bool) : Except StoreError CapturedContent :=
  match capture.state with
  | .memory bytes => .ok ⟨⟨capture.length,.memory,bytes⟩,capture.reservation,none⟩
  | .disk stored sample => do
      require (fault=false) .io
      return ⟨⟨capture.length,.disk,stored⟩,capture.reservation,some sample⟩

/-- What can be looked at without reading the spool file. -/
inductive CapturedView where
  | complete (bytes : List UInt8)
  | sampled (head : List UInt8) (headNext : Option UInt8) (tail : List UInt8)
  deriving DecidableEq

def CapturedContent.view (captured : CapturedContent) : CapturedView :=
  match captured.content.residency, captured.sample with
  | .memory, _ => .complete captured.content.stored
  | .disk, some sample => .sampled sample.head sample.headNext sample.tail
  | .disk, none => .complete []

def CapturedContent.pending (captured : CapturedContent) : PendingContent Id :=
  ⟨none,captured.content,some captured.reservation⟩

def retainCaptures (captures : List CapturedContent) : State Id × Except StoreError (List ℕ) :=
  retainPending hash store faults (captures.map CapturedContent.pending)

/-- A reservation that was not committed gives its bytes back to its store. -/
def dropReservation (reservation : StoreReservation) : State Id :=
  if reservation.store=store.address then
    { store.state with pendingBytes := store.state.pendingBytes - reservation.bytes }
  else store.state

end Ash.ResultStores
