import Ash.OutputReducers
import Ash.ResultStores

/-! # Projections of captured streams

What of a stream is shown: its text after the reductions, or its two ends.  Text is detected
while the stream is read. -/

namespace Ash.StreamProjections
open ByteCodecs TextSlices OutputReducers ResultStores

/-! ## Line endings -/

def containsPair {α : Type} [DecidableEq α] (first second : α) : List α → Bool
  | a::b::rest => (decide (a=first) && decide (b=second)) ||
      containsPair first second (b::rest)
  | _ => false

def replaceCrLf : Text → Text
  | a::b::rest =>
      if a = '\r' ∧ b = '\n' then '\n'::replaceCrLf rest else a::replaceCrLf (b::rest)
  | text => text

def normalize (text : Text) (normalized : Bool) : Text :=
  if normalized then replaceCrLf text else text

/-- The line feed of the last line ending may be the first byte after the head. -/
def normalizeHead (text : Text) (next : Option UInt8) (normalized : Bool) : Text :=
  let text := normalize text normalized
  if normalized ∧ text.getLast?=some '\r' ∧ next=some 10 then text.dropLast++['\n']
  else text

/-! ## Detection of text -/

def isContinuation (byte : UInt8) : Bool := 0x80 ≤ byte && byte ≤ 0xbf

/-- Which second bytes go with the first byte of three or four. -/
def allowsSecond (first second : UInt8) : Bool :=
  if first=0xe0 then 0xa0 ≤ second && second ≤ 0xbf
  else if first=0xed then 0x80 ≤ second && second ≤ 0x9f
  else if first=0xf0 then 0x90 ≤ second && second ≤ 0xbf
  else if first=0xf4 then 0x80 ≤ second && second ≤ 0x8f
  else isContinuation second

/-- A character that the end of the input has cut off: an error without a length. -/
def isCutOff : Bytes → Bool
  | [first] => 0xc2 ≤ first && first ≤ 0xf4
  | [first,second] => 0xe0 ≤ first && first ≤ 0xf4 && allowsSecond first second
  | [first,second,third] =>
      0xf0 ≤ first && first ≤ 0xf4 && allowsSecond first second && isContinuation third
  | _ => false

structure StreamText where
  valid : Bool
  pending : Bytes
  normalized : Bool
  previousCr : Bool
  deriving DecidableEq

def StreamText.default : StreamText := ⟨true,[],false,false⟩

def StreamText.validate (text : StreamText) (bytes : Bytes) : StreamText :=
  match decodeUtf8 bytes with
  | some _ => { text with pending := [] }
  | none =>
      let rest := invalidRest bytes.length bytes
      if isCutOff rest ∧ rest.length ≤ 3 then { text with pending := rest }
      else { text with valid := false, pending := [] }

def StreamText.observe (text : StreamText) (bytes : Bytes) : StreamText :=
  if bytes=[] then text
  else
    let seen := { text with
      normalized := text.normalized || (text.previousCr && decide (bytes.head?=some 10)) ||
        containsPair 13 10 bytes
      previousCr := decide (bytes.getLast?=some 13) }
    if seen.valid then seen.validate (text.pending++bytes) else seen

def StreamText.isText (text : StreamText) : Bool := text.valid && text.pending.isEmpty

/-! ## Projections -/

structure Projection where
  text : Option Text
  reduced : Bool
  normalized : Bool
  deriving DecidableEq

def separator : Text := "\n...\n".toList

/-- The front of one text and the end of another in `limit` bytes. -/
def joinEnds (head tail : Text) (limit : ℕ) : Text :=
  let contentLimit := limit - byteLength separator
  let headEnd := floorBoundary head (contentLimit / 2)
  let tailStart := ceilBoundary tail (byteLength tail - (contentLimit - headEnd.1))
  headEnd.before++separator++tailStart.after

/-- The text after all reductions, and whether one of them changed it. -/
def reduceText (text : Text) (focusErrors : Bool) : Text × Bool :=
  let lines := collapseRepeatedLines text
  let blocks := collapseRepeatedBlocks lines.text
  if focusErrors then
    let focused := focusErrorOutput blocks.text
    (focused.text,lines.reduced || blocks.reduced || focused.reduced)
  else (blocks.text,lines.reduced || blocks.reduced)

def project (bytes : Bytes) (limit : ℕ) (focusErrors : Bool) : Projection :=
  match decodeUtf8 bytes with
  | none => ⟨none,!bytes.isEmpty,false⟩
  | some text =>
      let normalized := containsPair '\r' '\n' text
      let (shown,reduced) := reduceText (normalize text normalized) focusErrors
      if byteLength shown ≤ limit then
        ⟨if shown.isEmpty then none else some shown,reduced,normalized⟩
      else if limit < 8 then ⟨none,true,normalized⟩
      else ⟨some (joinEnds shown shown limit),true,normalized⟩

theorem containsPair_of_not_mem {α : Type} [DecidableEq α] {first second : α} {items : List α}
    (h : second∉items) : containsPair first second items=false := by
  induction items with
  | nil => rfl
  | cons a items ih =>
    cases items with
    | nil => rfl
    | cons b items =>
      have htail : second∉b::items := fun hmem => h (List.mem_cons_of_mem a hmem)
      have hb : b≠second := fun heq => htail (heq ▸ List.mem_cons_self)
      rw [containsPair,ih htail,decide_eq_false hb,Bool.and_false,Bool.or_false]

/-- A line without its line feed that fits is shown as it is. -/
theorem project_line {text : Text} {limit : ℕ} (hne : text≠[]) (h : '\n'∉text)
    (hfits : byteLength text ≤ limit) :
    project (utf8 text) limit false=⟨some text,false,false⟩ := by
  have hempty : text.isEmpty=false := List.isEmpty_eq_false_iff.2 hne
  have hpair : containsPair '\r' '\n' text=false := containsPair_of_not_mem h
  have hreduce : reduceText text false=(text,false) := by
    simp only [reduceText,collapseRepeatedLines_of_not_mem h,unchanged,
      collapseRepeatedBlocks_of_not_mem h,unchangedBlocks]
    rfl
  simp only [project,decodeUtf8_utf8,hpair,normalize,Bool.false_eq_true,if_false,hreduce,
    if_pos hfits,hempty]

def completeHeadLoop (bytes : Bytes) : ℕ → Text
  | 0 => []
  | length+1 =>
      match decodeUtf8 (bytes.take (length+1)) with
      | some text => text
      | none => completeHeadLoop bytes length

def completeUtf8Head (bytes : Bytes) : Text := completeHeadLoop bytes bytes.length

def completeUtf8Tail (bytes : Bytes) : Text :=
  ((List.range (min bytes.length 4)).findSome? fun start => decodeUtf8 (bytes.drop start)).getD []

def projectSampled (head : Bytes) (headNext : Option UInt8) (tail : Bytes) (limit : ℕ)
    (text : StreamText) : Projection :=
  if text.isText=false then ⟨none,true,false⟩
  else if limit < 8 then ⟨none,true,text.normalized⟩
  else
    ⟨some (joinEnds (normalizeHead (completeUtf8Head head) headNext text.normalized)
      (normalize (completeUtf8Tail tail) text.normalized) limit),true,text.normalized⟩

/-! ## Captured streams -/

/-- A stream has its content, or the error of the store that ended its capture. -/
structure Capture where
  content : Option CapturedContent
  quotaError : Option StoreError
  text : StreamText
  settled : content.isSome=quotaError.isNone

def Capture.captured (capture : Capture) : Except StoreError CapturedContent :=
  match capture.content with
  | none => .error .invariant
  | some content => .ok content

def projectView (view : CapturedView) (text : StreamText) (limit : ℕ) (focusErrors : Bool) :
    Projection :=
  match view with
  | .complete bytes => project bytes limit focusErrors
  | .sampled head headNext tail => projectSampled head headNext tail limit text

def Capture.project (capture : Capture) (limit : ℕ) (focusErrors : Bool) :
    Except StoreError Projection := do
  let content ← capture.captured
  return projectView content.view capture.text limit focusErrors

end Ash.StreamProjections
