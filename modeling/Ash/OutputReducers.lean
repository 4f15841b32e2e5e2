import Ash.Numerals
import Ash.TextSlices

/-! # Reduction of process output

Repeated lines and repeated blocks of lines collapse to one copy and a marker, and the output of
a failed process is cut down to windows around its diagnostics. -/

namespace Ash.OutputReducers
open ByteCodecs Numerals TextSlices

def parallelLineThreshold : ℕ := 2048
def partitionLines : ℕ := 1024
def blockCandidateBatchLines : ℕ := 4096
def maxBlockLines : ℕ := 32
def errorContextBefore : ℕ := 2
def errorContextAfter : ℕ := 6
def errorEdgeLines : ℕ := 2
def repeatSymbol : Char := '×'
def omissionSymbol : Char := '⋯'

def errorAnchorTerms : List Bytes :=
  ["error".toList,"fatal".toList,"panic".toList,"panicked".toList,"failed".toList,
    "failure".toList,"failures".toList,"exception".toList,"traceback".toList,"abort".toList,
    "aborted".toList,"assertion".toList,"segmentation fault".toList,"access violation".toList,
    "undefined reference".toList,"unhandled".toList].map utf8

structure ErrorFocusedReduction where
  text : Text
  diagnosticLines : ℕ
  omittedSpans : ℕ
  omittedLines : ℕ
  deriving DecidableEq

structure RepeatedLineReduction where
  text : Text
  collapsedRuns : ℕ
  omittedLines : ℕ
  deriving DecidableEq

structure RepeatedBlockReduction where
  text : Text
  collapsedBlocks : ℕ
  omittedRepetitions : ℕ
  omittedLines : ℕ
  deriving DecidableEq

def ErrorFocusedReduction.reduced (reduction : ErrorFocusedReduction) : Bool :=
  reduction.omittedSpans != 0

def RepeatedLineReduction.reduced (reduction : RepeatedLineReduction) : Bool :=
  reduction.collapsedRuns != 0

def RepeatedBlockReduction.reduced (reduction : RepeatedBlockReduction) : Bool :=
  reduction.collapsedBlocks != 0

def unchanged (text : Text) : RepeatedLineReduction := ⟨text,0,0⟩

def unchangedBlocks (text : Text) : RepeatedBlockReduction := ⟨text,0,0,0⟩

def unchangedErrorFocus (text : Text) (diagnosticLines : ℕ) : ErrorFocusedReduction :=
  ⟨text,diagnosticLines,0,0⟩

/-! ## Lines -/

/-- The lines of a text, each with its line feed. -/
def splitInclusive : Text → List Text
  | [] => []
  | c::text =>
      if c = '\n' then [c]::splitInclusive text
      else match splitInclusive text with
        | [] => [[c]]
        | line::lines => (c::line)::lines

/-- The lines stand for the byte offsets at which they end. -/
structure LineLayout where
  lines : List Text
  completeLines : ℕ

def LineLayout.new (text : Text) : LineLayout := ⟨splitInclusive text,text.count '\n'⟩

variable (fingerprint : Bytes → UInt64 → UInt64) (found : RepeatedBlockReduction)
  (layout : LineLayout) (hashes : BlockHashes)

def LineLayout.totalLines : ℕ := layout.lines.length

def LineLayout.span (start lines : ℕ) : Text :=
  ((layout.lines.drop start).take lines).flatten

def LineLayout.line (layout : LineLayout) (line : ℕ) : Text := layout.span line 1

def LineLayout.spanLen (start lines : ℕ) : ℕ :=
  byteLength (layout.span start lines)

def decimalDigitsLoop : ℕ → ℕ → ℕ → ℕ
  | 0, _, digits => digits
  | fuel+1, value, digits =>
      if 10 ≤ value then decimalDigitsLoop fuel (value / 10) (digits+1) else digits

def decimalDigits (value : ℕ) : ℕ := decimalDigitsLoop value value 1

theorem flatten_splitInclusive (text : Text) : (splitInclusive text).flatten=text := by
  induction text with
  | nil => rfl
  | cons c text ih =>
    rw [splitInclusive]
    split
    · rw [List.flatten_cons,ih]
      rfl
    · split
      · next hnil =>
        rw [hnil] at ih
        rw [← ih]
        rfl
      · next line lines hcons =>
        rw [hcons] at ih
        rw [← ih]
        rfl

theorem splitInclusive_of_not_mem {text : Text} (h : '\n'∉text) (hne : text≠[]) :
    splitInclusive text=[text] := by
  induction text with
  | nil => exact absurd rfl hne
  | cons c text ih =>
    obtain ⟨hc,htext⟩ := not_or.1 (mt List.mem_cons.2 h)
    rw [splitInclusive,if_neg (Ne.symm hc)]
    cases text with
    | nil => rfl
    | cons d text => rw [ih htext (List.cons_ne_nil _ _)]

/-! ## Repeated lines -/

structure Run where
  line : ℕ
  count : ℕ
  deriving DecidableEq

/-- The runs found so far, the latest first.  A run with the same line as the latest joins it. -/
def pushRun (lines : List Text) (base : ℕ) (runs : List Run) (run : Run) : List Run :=
  match runs with
  | previous::older =>
      if lines[previous.line - base]?=lines[run.line - base]? then
        { previous with count := previous.count+run.count }::older
      else run::previous::older
  | [] => [run]

def localRuns (lines : List Text) (base : ℕ) : List Run :=
  ((List.range lines.length).foldl
    (fun runs offset => pushRun lines base runs ⟨base+offset,1⟩) []).reverse

def mergeRuns (lines : List Text) (partitions : List (List Run)) : List Run :=
  (partitions.flatten.foldl (pushRun lines 0) []).reverse

def lineMarker (count : ℕ) : Text := repeatSymbol::decimal count++['\n']

def encodeRun (lines : List Text) (found : RepeatedLineReduction) (run : Run) :
    RepeatedLineReduction :=
  let line := lines.getD run.line []
  if run.count=1 then { found with text := found.text++line }
  else
    let omittedBytes := byteLength line*(run.count - 1)
    if line.getLast?=some '\n' ∧ byteLength (lineMarker run.count) < omittedBytes then
      ⟨found.text++line++lineMarker run.count,found.collapsedRuns+1,
        found.omittedLines+(run.count - 1)⟩
    else { found with text := found.text++(List.replicate run.count line).flatten }

def encodeRuns (lines : List Text) (runs : List Run) : RepeatedLineReduction :=
  runs.foldl (encodeRun lines) ⟨[],0,0⟩

/-- Large inputs are taken apart into partitions of `size` lines. -/
def linePartitions (threshold size : ℕ) (lines : List Text) : List (List Run) :=
  if threshold ≤ lines.length then
    (List.range ((lines.length+size - 1) / size)).map fun partition =>
      localRuns ((lines.drop (partition*size)).take size) (partition*size)
  else [localRuns lines 0]

def collapseLinesWith (threshold size : ℕ) (text : Text) : RepeatedLineReduction :=
  let lines := splitInclusive text
  if lines.length < 2 then unchanged text
  else encodeRuns lines (mergeRuns lines (linePartitions threshold size lines))

def collapseRepeatedLines (text : Text) : RepeatedLineReduction :=
  collapseLinesWith parallelLineThreshold partitionLines text

/-- A text of one line stays as it is. -/
theorem collapseRepeatedLines_of_not_mem {text : Text} (h : '\n'∉text) :
    collapseRepeatedLines text=unchanged text := by
  have hlines : (splitInclusive text).length < 2 := by
    cases text with
    | nil => exact Nat.zero_lt_two
    | cons c text =>
      rw [splitInclusive_of_not_mem h (List.cons_ne_nil _ _)]
      exact Nat.one_lt_two
  rw [collapseRepeatedLines,collapseLinesWith]
  exact if_pos hlines

/-! ## Hashes of blocks -/

def rotateLeft (word : UInt64) (shift : ℕ) : UInt64 := ⟨word.toBitVec.rotateLeft shift⟩

def fingerprintStep (hash : UInt64) (byte : UInt8) : UInt64 :=
  let hash := (hash ^^^ byte.toUInt64)*0x00000100000001b3
  hash ^^^ (hash >>> 29)

def lineFingerprint (bytes : Bytes) (seed : UInt64) : UInt64 :=
  let hash := bytes.foldl fingerprintStep
    (seed ^^^ (UInt64.ofNat bytes.length*0x9e3779b185ebca87))
  hash ^^^ rotateLeft hash 31

/-- For each number of lines, the two hashes of that many first lines. -/
structure BlockHashes where
  first : List UInt64
  second : List UInt64

def hashLines (seed : UInt64) (rotation : ℕ) (lines : List Text) : List UInt64 :=
  lines.scanl (fun hash line => rotateLeft hash rotation ^^^ fingerprint (utf8 line) seed) 0

def BlockHashes.new : BlockHashes :=
  let lines := layout.lines.take layout.completeLines
  ⟨hashLines fingerprint 0x9e3779b185ebca87 1 lines,
    hashLines fingerprint 0xc2b2ae3d27d4eb4f 23 lines⟩

def rangeHash (hashes : List UInt64) (start lines rotation : ℕ) : UInt64 :=
  let shift := (lines % 64*rotation) % 64
  hashes.getD (start+lines) 0 ^^^ rotateLeft (hashes.getD start 0) shift

def BlockHashes.rangesEqual (left right lines : ℕ) : Bool :=
  rangeHash hashes.first left lines 1 == rangeHash hashes.first right lines 1 &&
    rangeHash hashes.second left lines 23 == rangeHash hashes.second right lines 23

/-! ## Candidates for collapse -/

structure BlockCandidate where
  blockLines : ℕ
  repetitions : ℕ
  savings : ℕ
  deriving DecidableEq

def BlockCandidate.none : BlockCandidate := ⟨0,0,0⟩

def BlockCandidate.present (candidate : BlockCandidate) : Bool := candidate.blockLines != 0

def blockMarker (repetitions blockLines : ℕ) : Text :=
  repeatSymbol::decimal repetitions ++ '#'::decimal blockLines++['\n']

def blockMarkerLen (repetitions blockLines : ℕ) : ℕ :=
  repeatSymbol.utf8Size+decimalDigits repetitions+decimalDigits blockLines+2

def blockCandidate (start blockLines repetitions : ℕ) : Option BlockCandidate :=
  if repetitions < 2 then Option.none
  else if layout.completeLines < start+blockLines*repetitions then Option.none
  else
    let omittedBytes :=
      layout.spanLen (start+blockLines) (blockLines*repetitions - blockLines)
    let markerBytes := blockMarkerLen repetitions blockLines
    if omittedBytes ≤ markerBytes then Option.none
    else if blockLines < 2 ^ 16 ∧ repetitions < 2 ^ 32 then
      some ⟨blockLines,repetitions,omittedBytes - markerBytes⟩
    else Option.none

def preferredCandidate (current candidate : BlockCandidate) : BlockCandidate :=
  if current.present=false ∨ current.savings < candidate.savings ∨
      candidate.savings=current.savings ∧
        (candidate.blockLines < current.blockLines ∨
          candidate.blockLines=current.blockLines ∧
            current.repetitions < candidate.repetitions) then candidate
  else current

/-- The best of the candidates of all block sizes, with the repetitions of each size, if any. -/
def bestCandidate (start : ℕ) (repetitions : ℕ → Option ℕ) : BlockCandidate :=
  let maxLines := min maxBlockLines ((layout.completeLines - start) / 2)
  (List.range' 2 (maxLines - 1)).foldl (fun best blockLines =>
    match (repetitions blockLines).bind (blockCandidate layout start blockLines) with
    | Option.none => best
    | some candidate => preferredCandidate best candidate) .none

/-- The search halves what is left, so the distance between the bounds is enough fuel. -/
def longestPrefixLoop (equal : ℕ → Bool) : ℕ → ℕ → ℕ → ℕ
  | 0, low, _ => low
  | fuel+1, low, high =>
      if low < high then
        let middle := low+(high - low+1) / 2
        if equal middle then longestPrefixLoop equal fuel middle high
        else longestPrefixLoop equal fuel low (middle - 1)
      else low

def hashedLongestCommonPrefix (start blockLines : ℕ) : ℕ :=
  let high := layout.completeLines - start - blockLines
  longestPrefixLoop (hashes.rangesEqual start (start+blockLines)) (high - blockLines)
    blockLines high

def bestHashedCandidate (start : ℕ) : BlockCandidate :=
  bestCandidate layout start fun blockLines =>
    if hashes.rangesEqual start (start+blockLines) blockLines then
      some (1+hashedLongestCommonPrefix layout hashes start blockLines / blockLines)
    else Option.none

def repetitionsLoop (layout : LineLayout) (start blockLines : ℕ) : ℕ → ℕ → ℕ
  | 0, repetitions => repetitions
  | fuel+1, repetitions =>
      if start+(repetitions+1)*blockLines ≤ layout.completeLines ∧
          layout.span start blockLines =
            layout.span (start+repetitions*blockLines) blockLines then
        repetitionsLoop layout start blockLines fuel (repetitions+1)
      else repetitions

def bestExactCandidate (start : ℕ) : BlockCandidate :=
  bestCandidate layout start fun blockLines =>
    some (repetitionsLoop layout start blockLines layout.completeLines 1)

def candidateIsExact (start : ℕ) (candidate : BlockCandidate) : Bool :=
  (List.range' 1 (candidate.repetitions - 1)).all fun repetition =>
    layout.span start candidate.blockLines ==
      layout.span (start+repetition*candidate.blockLines) candidate.blockLines

def verifiedCandidate (start : ℕ) (candidate : BlockCandidate) : BlockCandidate :=
  if candidate.present && candidateIsExact layout start candidate then candidate
  else if candidate.present then bestExactCandidate layout start
  else .none

/-! ## Repeated blocks -/

def RepeatedBlockReduction.push (text : Text) : RepeatedBlockReduction :=
  { found with text := found.text++text }

def RepeatedBlockReduction.collapse (index : ℕ) (candidate : BlockCandidate) :
    RepeatedBlockReduction :=
  ⟨found.text++layout.span index candidate.blockLines ++
      blockMarker candidate.repetitions candidate.blockLines,
    found.collapsedBlocks+1,found.omittedRepetitions+(candidate.repetitions - 1),
    found.omittedLines+candidate.blockLines*(candidate.repetitions - 1)⟩

/-- The lines of one batch.  A block may reach beyond its end. -/
def batchLoop (layout : LineLayout) (candidates : List BlockCandidate)
    (batchStart batchEnd : ℕ) :
    ℕ → ℕ → RepeatedBlockReduction → ℕ × RepeatedBlockReduction
  | 0, index, found => (index,found)
  | fuel+1, index, found =>
      if index < batchEnd then
        let candidate := verifiedCandidate layout index
          (candidates.getD (index - batchStart) .none)
        if candidate.present then
          batchLoop layout candidates batchStart batchEnd fuel
            (index+candidate.blockLines*candidate.repetitions)
            (found.collapse layout index candidate)
        else
          batchLoop layout candidates batchStart batchEnd fuel (index+1)
            (found.push (layout.line index))
      else (index,found)

/-- Every round passes at least one line. -/
def blocksLoop (layout : LineLayout) (hashes : BlockHashes) (batchLines : ℕ) :
    ℕ → ℕ → RepeatedBlockReduction → RepeatedBlockReduction
  | 0, _, found => found
  | fuel+1, index, found =>
      if index < layout.totalLines then
        if layout.completeLines ≤ index then
          blocksLoop layout hashes batchLines fuel (index+1) (found.push (layout.line index))
        else
          let batchEnd := min (index+batchLines) layout.completeLines
          let candidates := (List.range' index (batchEnd - index)).map
            (bestHashedCandidate layout hashes)
          let passed := batchLoop layout candidates index batchEnd (batchEnd - index) index found
          blocksLoop layout hashes batchLines fuel passed.1 passed.2
      else found

def collapseBlocksWith (batchLines : ℕ) (text : Text) : RepeatedBlockReduction :=
  let layout := LineLayout.new text
  if layout.completeLines < 4 then unchangedBlocks text
  else blocksLoop layout (BlockHashes.new fingerprint layout) batchLines layout.totalLines 0
    ⟨[],0,0,0⟩

def collapseRepeatedBlocks (text : Text) : RepeatedBlockReduction :=
  collapseBlocksWith lineFingerprint blockCandidateBatchLines text

theorem collapseRepeatedBlocks_of_not_mem {text : Text} (h : '\n'∉text) :
    collapseRepeatedBlocks text=unchangedBlocks text := by
  have hcpl : (LineLayout.new text).completeLines=0 := List.count_eq_zero.2 h
  rw [collapseRepeatedBlocks,collapseBlocksWith,hcpl]
  exact if_pos (by decide)

/-! ## Diagnostics -/

def isIdentifierByte (byte : UInt8) : Bool :=
  (48 ≤ byte && byte ≤ 57) || (65 ≤ byte && byte ≤ 90) || (97 ≤ byte && byte ≤ 122) || byte == 95

def toAsciiLowercase (byte : UInt8) : UInt8 := if 65 ≤ byte && byte ≤ 90 then byte+32 else byte

def eqIgnoreAsciiCase (left right : Bytes) : Bool :=
  left.map toAsciiLowercase == right.map toAsciiLowercase

/-- A term counts only between bytes that do not belong to an identifier. -/
def containsAsciiTerm (bytes term : Bytes) : Bool :=
  if term=[] ∨ bytes.length < term.length then false
  else (List.range (bytes.length - term.length+1)).any fun start =>
    eqIgnoreAsciiCase ((bytes.drop start).take term.length) term &&
      (start == 0 || !(bytes[start - 1]?.any isIdentifierByte)) &&
      !(bytes[start+term.length]?.any isIdentifierByte)

def isDiagnosticAnchor (line : Text) : Bool :=
  let bytes := utf8 line
  errorAnchorTerms.any (containsAsciiTerm bytes) ||
    (bytes.splitOnP fun byte => !isIdentifierByte byte).any fun word =>
      (utf8 "Error".toList).isSuffixOf word || (utf8 "Exception".toList).isSuffixOf word

def omissionMarker (lines : ℕ) : Text := omissionSymbol::decimal lines++['\n']

def omissionMarkerLen (lines : ℕ) : ℕ := omissionSymbol.utf8Size+decimalDigits lines+1

def fill (mask : List Bool) (start stop : ℕ) : List Bool :=
  mask.mapIdx fun line kept => kept || (decide (start ≤ line) && decide (line < stop))

/-- The edges and the windows around the anchors. -/
def retainedLines (anchors : List Bool) : List Bool :=
  let totalLines := anchors.length
  let edgeLines := min errorEdgeLines totalLines
  let edges := fill (fill (List.replicate totalLines false) 0 edgeLines)
    (totalLines - edgeLines) totalLines
  anchors.zipIdx.foldl (fun mask (anchor,line) =>
    if anchor then
      fill mask (line - errorContextBefore) (min (line+(errorContextAfter+1)) totalLines)
    else mask) edges

def ErrorFocusedReduction.push (found : ErrorFocusedReduction) (text : Text) :
    ErrorFocusedReduction :=
  { found with text := found.text++text }

def ErrorFocusedReduction.leaveOut (found : ErrorFocusedReduction) (lines : ℕ) :
    ErrorFocusedReduction :=
  { found with
    text := found.text++omissionMarker lines
    omittedSpans := found.omittedSpans+1
    omittedLines := found.omittedLines+lines }

def focusLoop (layout : LineLayout) (retained : List Bool) :
    ℕ → ℕ → ErrorFocusedReduction → ErrorFocusedReduction
  | 0, _, found => found
  | fuel+1, line, found =>
      if line < layout.totalLines then
        if retained.getD line false then
          focusLoop layout retained fuel (line+1) (found.push (layout.line line))
        else
          let lines := ((retained.drop line).takeWhile fun kept => !kept).length
          focusLoop layout retained fuel (line+lines)
            (if omissionMarkerLen lines < layout.spanLen line lines then found.leaveOut lines
              else found.push (layout.span line lines))
      else found

def focusErrorOutput (text : Text) : ErrorFocusedReduction :=
  let layout := LineLayout.new text
  if layout.totalLines=0 then unchangedErrorFocus text 0
  else
    let anchors := (List.range layout.totalLines).map fun line =>
      isDiagnosticAnchor (layout.line line)
    let diagnosticLines := anchors.count true
    if diagnosticLines=0 then unchangedErrorFocus text 0
    else focusLoop layout (retainedLines anchors) layout.totalLines 0 ⟨[],diagnosticLines,0,0⟩

end Ash.OutputReducers
