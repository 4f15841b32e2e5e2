import Ash.AsonRoundTrip
import Ash.Outcomes
import Ash.PartialReads
import Mathlib

/-! # Frames of documents

A frame is a length of four bytes and a payload.  Documents are written as frames one after the
other and read back through partial reads. -/

namespace Ash.FrameStreams
open AsonDocuments AsonGrammar AsonParser AsonRoundTrip ByteCodecs Outcomes ParserOutcomes
  PartialReads TextSlices

def hardMaxFrameBytes : ℕ := 8*1024*1024
def defaultMaxFrameBytes : ℕ := 1024*1024

inductive FrameError where
  | invalidLimit (requested hardMax : ℕ)
  | zeroLength
  | payloadTooLarge (declared max : ℕ)
  | truncatedPrefix (received : ℕ)
  | truncatedPayload (expected received : ℕ)
  | io
  deriving DecidableEq

inductive ProtocolReadError where
  | frame (error : FrameError)
  | invalidUtf8 (validUpTo : ℕ)
  | ason (fault : Fault DecodeError)
  | nonCanonical
  deriving DecidableEq

/-- A codec with a limit between one byte and the hard maximum. -/
structure FrameCodec where
  maxPayload : ℕ
  positive : 0 < maxPayload
  bounded : maxPayload ≤ hardMaxFrameBytes

def FrameCodec.new (maxPayload : ℕ) : Except FrameError FrameCodec :=
  if h : 0 < maxPayload ∧ maxPayload ≤ hardMaxFrameBytes then .ok ⟨maxPayload,h.1,h.2⟩
  else .error (.invalidLimit maxPayload hardMaxFrameBytes)

def FrameCodec.default : FrameCodec := ⟨defaultMaxFrameBytes,by decide,by decide⟩

/-! ## Reading -/

/-- What follows the length of a frame. -/
def FrameCodec.readPayload (codec : FrameCodec) (length : ℕ) :
    EStateM FrameError (Reader UInt8) (Option Bytes) :=
  if length=0 then throw .zeroLength
  else if codec.maxPayload < length then throw (.payloadTooLarge length codec.maxPayload)
  else do
    let payload ← fill .io length
    if payload.length < length then throw (.truncatedPayload length payload.length)
    else return some payload

/-- One frame, or nothing at an end before the first byte of its length. -/
def FrameCodec.readFrame (codec : FrameCodec) :
    EStateM FrameError (Reader UInt8) (Option Bytes) := do
  let header ← fill .io 4
  if header.isEmpty then return none
  else if header.length < 4 then throw (.truncatedPrefix header.length)
  else codec.readPayload (ofBigEndian header)

def validUpTo (payload : Bytes) : ℕ := payload.length - (invalidRest payload.length payload).length

/-- A payload is the canonical text of its document. -/
def payloadDocument {bits : ℕ} (limits : Limits bits) (payload : Bytes) :
    Except ProtocolReadError Document :=
  match decodeUtf8 payload with
  | none => .error (.invalidUtf8 (validUpTo payload))
  | some text => do
      let document ← (decodeWithLimits text limits).mapError .ason
      require (utf8 (encode document)=payload) .nonCanonical
      return document

def FrameCodec.readDocument {bits : ℕ} (codec : FrameCodec) (limits : Limits bits) :
    EStateM ProtocolReadError (Reader UInt8) (Option Document) := fun reader =>
  match codec.readFrame reader with
  | .error error rest => .error (.frame error) rest
  | .ok none rest => .ok none rest
  | .ok (some payload) rest =>
      match payloadDocument limits payload with
      | .error error => .error error rest
      | .ok document => .ok (some document) rest

/-- How a sequence of reads ends: at the end of the stream, with an error, or not yet. -/
inductive Ending where
  | clean
  | failed (error : ProtocolReadError)
  | unfinished
  deriving DecidableEq

/-- The documents that up to `fuel` reads yield. -/
def FrameCodec.readDocuments {bits : ℕ} (codec : FrameCodec) (limits : Limits bits) :
    ℕ → Reader UInt8 → List Document × Ending
  | 0, _ => ([],.unfinished)
  | fuel+1, reader =>
      match codec.readDocument limits reader with
      | .error error _ => ([],.failed error)
      | .ok none _ => ([],.clean)
      | .ok (some document) rest =>
          let (documents,ending) := codec.readDocuments limits fuel rest
          (document::documents,ending)

/-! ## Writing -/

def FrameCodec.writeFrame (codec : FrameCodec) (written payload : Bytes) :
    Except FrameError Bytes := do
  require (payload≠[]) .zeroLength
  require (payload.length ≤ codec.maxPayload) (.payloadTooLarge payload.length codec.maxPayload)
  require (payload.length < 2 ^ 32) (.payloadTooLarge payload.length codec.maxPayload)
  return written++bigEndian 4 payload.length++payload

def FrameCodec.writeDocument (codec : FrameCodec) (written : Bytes) (document : Document) :
    Except FrameError Bytes :=
  codec.writeFrame written (utf8 (encode document))

def FrameCodec.writeDocuments (codec : FrameCodec) (documents : List Document) :
    Except FrameError Bytes :=
  documents.foldlM codec.writeDocument []

/-! ## One frame -/

variable {codec : FrameCodec} {reader : Reader UInt8}

def frame (payload : Bytes) : Bytes := bigEndian 4 payload.length++payload

/-- A payload that a codec lets through. -/
def FrameCodec.Allows (codec : FrameCodec) (payload : Bytes) : Prop :=
  payload≠[] ∧ payload.length ≤ codec.maxPayload

theorem length_frame (payload : Bytes) : (frame payload).length=4+payload.length := by
  simp [frame]

theorem FrameCodec.Allows.lt {payload : Bytes} (h : codec.Allows payload) :
    payload.length < 256 ^ 4 := by
  have hbounded := codec.bounded
  have hle := h.2
  simp only [hardMaxFrameBytes] at hbounded
  omega

theorem writeFrame_ok_iff {written payload bytes : Bytes} :
    codec.writeFrame written payload=.ok bytes ↔
      codec.Allows payload ∧ bytes=written++frame payload := by
  simp only [FrameCodec.writeFrame,bind_unit_ok_iff,require_ok_iff,pure_ok_iff,frame,
    List.append_assoc,FrameCodec.Allows]
  constructor
  · rintro ⟨hne,hle,-,rfl⟩
    exact ⟨⟨hne,hle⟩,rfl⟩
  · rintro ⟨h,rfl⟩
    have hlt := FrameCodec.Allows.lt h
    exact ⟨h.1,h.2,by omega,rfl⟩

theorem readFrame_nil (codec : FrameCodec) (h : Delivers reader []) :
    ∃ rest, codec.readFrame reader=.ok none rest := by
  obtain ⟨rest,hfill,-⟩ := fill_spec h FrameError.io 4
  refine ⟨rest,?_⟩
  simp [FrameCodec.readFrame,bind,EStateM.bind,hfill,pure,EStateM.pure]

variable {part rest : Bytes}

theorem readFrame_short (codec : FrameCodec) (h : Delivers reader part) (hne : part≠[])
    (hshort : part.length < 4) :
    ∃ rest, codec.readFrame reader=.error (.truncatedPrefix part.length) rest := by
  obtain ⟨rest,hfill,-⟩ := fill_spec h FrameError.io 4
  rw [List.take_of_length_le hshort.le] at hfill
  refine ⟨rest,?_⟩
  simp [FrameCodec.readFrame,bind,EStateM.bind,hfill,hne,hshort,throw,throwThe,
    MonadExceptOf.throw,EStateM.throw]

/-- After a whole length the payload is read from what follows it. -/
theorem readFrame_header (codec : FrameCodec) {header : Bytes}
    (h : Delivers reader (header++rest)) (hheader : header.length=4) :
    ∃ next, Delivers next rest ∧
      codec.readFrame reader=codec.readPayload (ofBigEndian header) next := by
  obtain ⟨next,hfill,hnext⟩ := fill_spec h FrameError.io 4
  rw [List.take_left' hheader] at hfill
  rw [List.drop_left' hheader] at hnext
  have hne : header≠[] := by
    rintro rfl
    cases hheader
  refine ⟨next,hnext,?_⟩
  simp [FrameCodec.readFrame,bind,EStateM.bind,hfill,hne,hheader]

/-- A length above the limit is refused with everything after it unread. -/
theorem readFrame_oversized {header : Bytes} (h : Delivers reader (header++rest))
    (hheader : header.length=4) (hlarge : codec.maxPayload < ofBigEndian header) :
    ∃ next, Delivers next rest ∧ codec.readFrame reader =
      .error (.payloadTooLarge (ofBigEndian header) codec.maxPayload) next := by
  obtain ⟨next,hnext,hread⟩ := readFrame_header codec h hheader
  refine ⟨next,hnext,?_⟩
  rw [hread,FrameCodec.readPayload,if_neg (by omega),if_pos hlarge]
  rfl

theorem readPayload_take (codec : FrameCodec) {length : ℕ} {bytes : Bytes} (h : Delivers reader bytes)
    (hpos : 0 < length) (hle : length ≤ codec.maxPayload) :
    ∃ next, Delivers next (bytes.drop length) ∧ codec.readPayload length reader =
      if bytes.length < length then .error (.truncatedPayload length bytes.length) next
      else .ok (some (bytes.take length)) next := by
  obtain ⟨next,hfill,hnext⟩ := fill_spec h FrameError.io length
  refine ⟨next,hnext,?_⟩
  rw [FrameCodec.readPayload,if_neg (by omega),if_neg (by omega)]
  simp only [bind,EStateM.bind,hfill,List.length_take]
  by_cases hshort : bytes.length < length
  · rw [if_pos (by omega),if_pos hshort,Nat.min_eq_right hshort.le]
    rfl
  · rw [if_neg (by omega),if_neg hshort]
    rfl

variable {payload : Bytes}

theorem readFrame_frame (hallows : codec.Allows payload)
    (h : Delivers reader (frame payload++rest)) :
    ∃ next, Delivers next rest ∧ codec.readFrame reader=.ok (some payload) next := by
  rw [frame,List.append_assoc] at h
  obtain ⟨next,hnext,hread⟩ := readFrame_header codec h (length_bigEndian 4 _)
  rw [ofBigEndian_bigEndian,Nat.mod_eq_of_lt hallows.lt] at hread
  obtain ⟨last,hlast,hpay⟩ := readPayload_take codec hnext
    (List.length_pos_iff.2 hallows.1) hallows.2
  rw [List.drop_left] at hlast
  refine ⟨last,hlast,?_⟩
  rw [hread,hpay,if_neg (by simp),List.take_left]

/-- The errors of an end inside a frame. -/
def FrameError.IsTruncation : FrameError → Prop
  | .truncatedPrefix _ | .truncatedPayload _ _ => True
  | _ => False

/-- A frame that is cut off is an error, wherever the cut is. -/
theorem readFrame_cut (hallows : codec.Allows payload) (hpart : part <+: frame payload)
    (hne : part≠[]) (hproper : part≠frame payload) (h : Delivers reader part) :
    ∃ error rest, codec.readFrame reader=.error error rest ∧ error.IsTruncation := by
  have hlen : part.length < 4+payload.length := by
    rw [← length_frame]
    exact lt_of_le_of_ne hpart.length_le fun heq => hproper (hpart.eq_of_length heq)
  by_cases hshort : part.length < 4
  · obtain ⟨rest,hread⟩ := readFrame_short codec h hne hshort
    exact ⟨_,rest,hread,trivial⟩
  · -- the length is complete and the payload is not
    have hheader : bigEndian 4 payload.length <+: part := by
      refine List.prefix_of_prefix_length_le (List.prefix_append _ _) hpart ?_
      rw [length_bigEndian]
      omega
    obtain ⟨bytes,rfl⟩ := hheader
    rw [List.length_append,length_bigEndian] at hlen
    obtain ⟨next,hnext,hread⟩ := readFrame_header codec h (length_bigEndian 4 _)
    rw [ofBigEndian_bigEndian,Nat.mod_eq_of_lt hallows.lt] at hread
    obtain ⟨last,-,hpay⟩ := readPayload_take codec hnext
      (List.length_pos_iff.2 hallows.1) hallows.2
    rw [if_pos (by omega)] at hpay
    exact ⟨_,last,hread.trans hpay,trivial⟩

/-! ## Streams of documents -/

variable {bits : ℕ} {limits : Limits bits} {document : Document} {documents : List Document}

/-- The text of a document is within the limit of the codec and the ceilings of the parser. -/
structure Fits (codec : FrameCodec) (limits : Limits bits) (document : Document) : Prop where
  payload : (utf8 (encode document)).length ≤ codec.maxPayload
  within : Within limits (encode document) document

def documentFrame (document : Document) : Bytes := frame (utf8 (encode document))

def stream (documents : List Document) : Bytes := documents.flatMap documentFrame

theorem encode_ne_nil (document : Document) : encode document≠[] := by
  intro hnil
  obtain ⟨field,hfield⟩ := List.exists_mem_of_ne_nil _ document.nonempty
  have hempty := List.flatMap_eq_nil_iff.1 hnil field hfield
  unfold writeField at hempty
  split at hempty <;> simp at hempty

theorem Fits.allows (h : Fits codec limits document) : codec.Allows (utf8 (encode document)) := by
  refine ⟨fun hnil => encode_ne_nil document ?_,h.payload⟩
  rw [← byteLength_eq_zero,← length_utf8_eq_byteLength,hnil]
  rfl

theorem payloadDocument_encode (h : Within limits (encode document) document) :
    payloadDocument limits (utf8 (encode document))=.ok document := by
  have hdec : decodeWithLimits (encode document) limits=.ok document := by
    obtain ⟨-,hok⟩ | ⟨hnot,-⟩ := decodeWithLimits_documentText limits (documentText_encode document)
    · exact hok
    · exact absurd h hnot
  rw [payloadDocument,decodeUtf8_utf8]
  simp only [hdec,bind_ok_iff,mapError_ok_iff,require_ok_iff,pure_ok_iff]
  exact ⟨document,rfl,(),rfl,rfl⟩

theorem readDocument_frame (hfits : Fits codec limits document)
    (h : Delivers reader (documentFrame document++rest)) :
    ∃ next, Delivers next rest ∧
      codec.readDocument limits reader=.ok (some document) next := by
  obtain ⟨next,hnext,hread⟩ := readFrame_frame hfits.allows h
  refine ⟨next,hnext,?_⟩
  simp only [FrameCodec.readDocument,hread,payloadDocument_encode hfits.within]

section
variable (hfits : ∀ document∈documents, Fits codec limits document)
include hfits

/-- Whatever follows, the documents of a stream come first. -/
theorem readDocuments_stream (h : Delivers reader (stream documents++rest)) :
    ∃ next, Delivers next rest ∧ ∀ fuel,
      codec.readDocuments limits (documents.length+fuel) reader =
        (documents++(codec.readDocuments limits fuel next).1,
          (codec.readDocuments limits fuel next).2) := by
  induction documents generalizing reader with
  | nil =>
    refine ⟨reader,h,fun fuel => ?_⟩
    rw [List.length_nil,Nat.zero_add]
    rfl
  | cons document documents ih =>
    rw [stream,List.flatMap_cons,List.append_assoc] at h
    obtain ⟨between,hbtw,hread⟩ := readDocument_frame (hfits _ List.mem_cons_self) h
    obtain ⟨next,hnext,hrest⟩ :=
      ih (fun other hother => hfits other (List.mem_cons_of_mem _ hother)) hbtw
    refine ⟨next,hnext,fun fuel => ?_⟩
    rw [List.length_cons,Nat.add_right_comm,FrameCodec.readDocuments,hread]
    simp only [hrest,List.cons_append]

theorem writeDocuments_eq (written : Bytes) :
    documents.foldlM codec.writeDocument written=.ok (written++stream documents) := by
  induction documents generalizing written with
  | nil => simp [stream,pure,Except.pure]
  | cons document documents ih =>
    have hwrite : codec.writeDocument written document=.ok (written++documentFrame document) :=
      writeFrame_ok_iff.2 ⟨(hfits _ List.mem_cons_self).allows,rfl⟩
    have hrest := ih (fun other hother => hfits other (List.mem_cons_of_mem _ hother))
      (written++documentFrame document)
    rw [List.foldlM_cons,hwrite]
    simpa [bind,Except.bind,stream] using hrest

theorem readDocuments_clean (h : Delivers reader (stream documents)) {fuel : ℕ}
    (hfuel : documents.length < fuel) :
    codec.readDocuments limits fuel reader=(documents,.clean) := by
  obtain ⟨more,rfl⟩ := Nat.exists_eq_add_of_lt hfuel
  rw [← List.append_nil (stream documents)] at h
  obtain ⟨next,hnext,hread⟩ := readDocuments_stream hfits h
  obtain ⟨last,hlast⟩ := readFrame_nil codec hnext
  rw [Nat.add_assoc,hread]
  simp [FrameCodec.readDocuments,FrameCodec.readDocument,hlast]

theorem readDocuments_cut (hdoc : Fits codec limits document)
    (hpart : part <+: documentFrame document) (hne : part≠[])
    (hproper : part≠documentFrame document) (h : Delivers reader (stream documents++part)) :
    ∃ error : FrameError, error.IsTruncation ∧ ∀ fuel, documents.length < fuel →
      codec.readDocuments limits fuel reader=(documents,.failed (.frame error)) := by
  obtain ⟨next,hnext,hread⟩ := readDocuments_stream hfits h
  obtain ⟨error,last,hlast,htrn⟩ :=
    readFrame_cut hdoc.allows hpart hne hproper hnext
  refine ⟨error,htrn,fun fuel hfuel => ?_⟩
  obtain ⟨more,rfl⟩ := Nat.exists_eq_add_of_lt hfuel
  rw [Nat.add_assoc,hread]
  simp [FrameCodec.readDocuments,FrameCodec.readDocument,hlast]

end

/-! ## Cuts -/

/-- The documents of a stream that end before a cut. -/
structure IsComplete (documents complete : List Document) (cut : Bytes) : Prop where
  front : complete <+: documents
  before : stream complete <+: cut
  all : ∀ other, other <+: documents → stream other <+: cut → other <+: complete

theorem stream_mono {front documents : List Document} (h : front <+: documents) :
    stream front <+: stream documents := by
  obtain ⟨back,rfl⟩ := h
  rw [stream,stream,List.flatMap_append]
  exact List.prefix_append _ _

/-- Nothing after the document that a cut is inside of ends before the cut. -/
theorem isComplete_of_inside {complete : List Document}
    (hfront : complete++[document] <+: documents) (hpart : part <+: documentFrame document)
    (hproper : part≠documentFrame document) :
    IsComplete documents complete (stream complete++part) := by
  have hcpl : complete <+: documents := (List.prefix_append _ _).trans hfront
  refine ⟨hcpl,List.prefix_append _ _,fun other hother hbefore => ?_⟩
  by_contra hnot
  have hlonger : complete++[document] <+: other := by
    refine List.prefix_of_prefix_length_le hfront hother ?_
    by_contra hshort
    rw [List.length_append,List.length_singleton] at hshort
    exact hnot (List.prefix_of_prefix_length_le hother hcpl (by omega))
  have hwhole := (stream_mono hlonger).trans hbefore
  rw [stream,List.flatMap_append,List.flatMap_singleton] at hwhole
  have hle := ((List.prefix_append_right_inj _).1 hwhole).length_le
  exact hproper (hpart.eq_of_length (Nat.le_antisymm hpart.length_le hle))

theorem validKey_t : isValidKey ['t']=true := by decide

def tagDocument : Document := ⟨[⟨⟨['t'],validKey_t⟩,.scalar (.text ['1'])⟩],by decide,by decide⟩

theorem fits_tagDocument : Fits .default defaultLimits tagDocument := by
  have hdec : decodeWithLimits (encode tagDocument) defaultLimits=.ok tagDocument := by
    decide +kernel
  refine ⟨by decide +kernel,?_⟩
  obtain ⟨hwith,-⟩ | ⟨-,error,herror⟩ :=
    decodeWithLimits_documentText defaultLimits (documentText_encode tagDocument)
  · exact hwith
  · rw [hdec] at herror
    cases herror

/-- What a codec does with a stream of documents it wrote, with each cut of it, and with a
length above its limit. -/
theorem frames_round_trip {bits : ℕ} (codec : FrameCodec) (limits : Limits bits)
    (documents : List Document) (hfits : ∀ document∈documents, Fits codec limits document)
    (sizes : ℕ → ℕ) :
    ∃ bytes, codec.writeDocuments documents=.ok bytes ∧
      (∀ fuel, documents.length < fuel →
        codec.readDocuments limits fuel (.steady bytes sizes)=(documents,.clean)) ∧
      (∀ cut, cut <+: bytes →
        (∀ front, front <+: documents → codec.writeDocuments front≠.ok cut) →
        ∃ complete error, IsComplete documents complete cut ∧ error.IsTruncation ∧
          ∀ fuel, complete.length < fuel → codec.readDocuments limits fuel (.steady cut sizes) =
            (complete,.failed (.frame error))) ∧
      ∀ header rest, header.length=4 → codec.maxPayload < ofBigEndian header →
        ∃ next, next.left=rest ∧ codec.readDocument limits (.steady (header++rest) sizes) =
          .error (.frame (.payloadTooLarge (ofBigEndian header) codec.maxPayload)) next := by
  refine ⟨stream documents,writeDocuments_eq hfits [],fun fuel hfuel => ?_,?_,?_⟩
  · exact readDocuments_clean hfits (delivers_steady _ _) hfuel
  · intro cut hcut hins
    obtain ⟨complete,hcpl,hend⟩ := front_of_flatMap documentFrame hcut
    have hfits' : ∀ document∈complete, Fits codec limits document :=
      fun document hmem => hfits document (hcpl.subset hmem)
    obtain rfl | ⟨document,part,hfront,rfl,hpart,hne,hproper⟩ := hend
    · exact absurd (writeDocuments_eq hfits' []) (hins complete hcpl)
    · have hdoc := hfits document (hfront.subset (List.mem_append_right _ List.mem_cons_self))
      obtain ⟨error,htrn,hread⟩ := readDocuments_cut hfits' hdoc hpart hne hproper
        (delivers_steady _ sizes)
      exact ⟨complete,error,isComplete_of_inside hfront hpart hproper,htrn,hread⟩
  · intro header rest hheader hlarge
    obtain ⟨next,hnext,hread⟩ :=
      readFrame_oversized (delivers_steady (header++rest) sizes) hheader hlarge
    refine ⟨next,hnext.left,?_⟩
    simp only [FrameCodec.readDocument,hread]

/-- Two documents, read one byte at a time. -/
theorem frames_round_trip_two : ∃ bytes,
    FrameCodec.default.writeDocuments [tagDocument,tagDocument]=.ok bytes ∧
      FrameCodec.default.readDocuments defaultLimits 3 (.steady bytes fun _ => 0) =
        ([tagDocument,tagDocument],.clean) := by
  have hfits : ∀ document∈[tagDocument,tagDocument],
      Fits .default defaultLimits document := by
    intro document hmem
    obtain rfl : document=tagDocument := by simpa using hmem
    exact fits_tagDocument
  obtain ⟨bytes,hwrite,hread,-⟩ :=
    frames_round_trip .default defaultLimits [tagDocument,tagDocument] hfits fun _ => 0
  exact ⟨bytes,hwrite,hread 3 (by decide)⟩

end Ash.FrameStreams
