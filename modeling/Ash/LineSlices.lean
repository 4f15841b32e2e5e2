import Ash.OperationErrors

/-! # Lines of files and of retained results

A file is cut at the starts of its lines, a retained result is walked line by line.  Both select
the same window of the lines. -/

namespace Ash.LineSlices
open ByteCodecs OperationErrors

/-- The bytes split after each line feed. -/
def splitLines : Bytes → List Bytes
  | [] => []
  | byte::bytes =>
      if byte=10 then [byte]::splitLines bytes
      else match splitLines bytes with
        | [] => [[byte]]
        | line::lines => (byte::line)::lines

/-! ## Files -/

def lineStarts (bytes : Bytes) : List ℕ :=
  0::(bytes.zipIdx.filter fun item => item.1=10 ∧ item.2+1 < bytes.length).map
    fun item => item.2+1

inductive SemanticReadMode where
  | bytes
  | lines
  deriving DecidableEq

/-- The bytes, the number of the first line and the number of lines. -/
def selectLines (bytes : Bytes) (offset length : ℕ) : Bytes × ℕ × ℕ :=
  if bytes=[] then ([],offset,0)
  else
    let starts := lineStarts bytes
    let requestedStart := offset - 1
    match starts[requestedStart]? with
    | none => ([],offset,0)
    | some startByte =>
        let endLine := min (requestedStart+length) starts.length
        let endByte := starts[endLine]?.getD bytes.length
        ((bytes.take endByte).drop startByte,requestedStart+1,endLine - requestedStart)

def selectRange (bytes : Bytes) (mode : SemanticReadMode) (offset length : ℕ) : Bytes × ℕ × ℕ :=
  match mode with
  | .bytes =>
      let start := min offset bytes.length
      let stop := min (start+length) bytes.length
      ((bytes.take stop).drop start,start,stop - start)
  | .lines => selectLines bytes offset length

/-! ## Retained results -/

structure RawSlice (Digest : Type) where
  offset : ℕ
  length : ℕ
  digest : Digest
  bytes : Bytes

def rawSlice {Digest : Type} (hash : Bytes → Digest) (offset : ℕ) (bytes : Bytes) :
    RawSlice Digest := ⟨offset,bytes.length,hash bytes,bytes⟩

/-- Where the window starts, if a line of it was met, and where the walk ended.  Cancellation is
looked for every 4096 lines. -/
def walkLines (cancelled : ℕ → Bool) (target length : ℕ) : List Bytes → ℕ → ℕ → ℕ → Option ℕ →
    Except OperationError (Option ℕ × ℕ)
  | [],_,cursor,_,start => .ok (start,cursor)
  | line::lines,index,cursor,selected,start =>
      if index % 4096=0 ∧ cancelled index then .error .cancelled
      else
        let start := if index=target then some cursor else start
        let selected := if index ≥ target ∧ selected < length then selected+1 else selected
        let cursor := cursor+line.length
        if selected=length then .ok (start,cursor)
        else walkLines cancelled target length lines (index+1) cursor selected start

def referenceLines {Digest : Type} (hash : Bytes → Digest) (cancelled : ℕ → Bool) (bytes : Bytes)
    (offset length : ℕ) : Except OperationError (RawSlice Digest) :=
  if bytes=[] then .ok (rawSlice hash offset [])
  else do
    match ← walkLines cancelled (offset - 1) length (splitLines bytes) 0 0 0 none with
    | (none,_) => return rawSlice hash offset []
    | (some start,cursor) => return rawSlice hash offset ((bytes.take cursor).drop start)

/-! ## Where lines begin -/

theorem flatten_splitLines (bytes : Bytes) : (splitLines bytes).flatten=bytes := by
  induction bytes with
  | nil => rfl
  | cons byte bytes ih =>
    rw [splitLines]
    split
    · rw [List.flatten_cons,ih,List.singleton_append]
    · split
      · next h =>
        rw [h,List.flatten_nil] at ih
        rw [← ih]
        rfl
      · next line lines h =>
        rw [h,List.flatten_cons] at ih
        rw [List.flatten_cons,List.cons_append,ih]

/-- Where the lines of a list begin, the first at `start`. -/
def offsetsOf (start : ℕ) : List Bytes → List ℕ
  | [] => []
  | line::lines => start::offsetsOf (start+line.length) lines

theorem splitLines_ne_nil {bytes : Bytes} (h : bytes≠[]) : splitLines bytes≠[] := by
  intro hnil
  have hflat := flatten_splitLines bytes
  rw [hnil] at hflat
  exact h hflat.symm

theorem starts_eq {bytes : Bytes} (h : bytes≠[]) (start : ℕ) :
    start::((bytes.zipIdx start).filter fun item =>
      item.1=10 ∧ item.2+1 < start+bytes.length).map (fun item => item.2+1) =
        offsetsOf start (splitLines bytes) := by
  induction bytes generalizing start with
  | nil => exact absurd rfl h
  | cons byte bytes ih =>
    by_cases hrest : bytes=[]
    · subst hrest
      simp [splitLines,offsetsOf]
    have hpos := List.length_pos_iff.2 hrest
    have hnext := ih hrest (start+1)
    have hlen : start+(byte::bytes).length=start+1+bytes.length := by
      rw [List.length_cons]
      omega
    rw [hlen,List.zipIdx_cons,splitLines]
    by_cases hbyte : byte=10
    · rw [if_pos hbyte,List.filter_cons_of_pos (by simp [hbyte,hpos]),List.map_cons,hnext]
      rfl
    · rw [if_neg hbyte,List.filter_cons_of_neg (by simp [hbyte])]
      cases hlines : splitLines bytes with
      | nil => exact absurd hlines (splitLines_ne_nil hrest)
      | cons line lines =>
        rw [hlines,offsetsOf] at hnext
        rw [offsetsOf,List.length_cons,(List.cons.inj hnext).2,Nat.add_right_comm,Nat.add_assoc]

/-- The bytes before a line. -/
def before (lines : List Bytes) (count : ℕ) : ℕ := (lines.take count).flatten.length

theorem before_succ (line : Bytes) (lines : List Bytes) (count : ℕ) :
    before (line::lines) (count+1)=line.length+before lines count := by
  rw [before,List.take_succ_cons,List.flatten_cons,List.length_append,before]

theorem getElem?_offsetsOf (start : ℕ) (lines : List Bytes) (count : ℕ) :
    (offsetsOf start lines)[count]? =
      if count < lines.length then some (start+before lines count) else none := by
  induction lines generalizing start count with
  | nil => simp [offsetsOf]
  | cons line lines ih =>
    cases count with
    | zero => simp [offsetsOf,before]
    | succ count =>
      rw [offsetsOf,List.getElem?_cons_succ,ih,before_succ,Nat.add_assoc]
      simp

theorem length_offsetsOf (start : ℕ) (lines : List Bytes) :
    (offsetsOf start lines).length=lines.length := by
  induction lines generalizing start with
  | nil => rfl
  | cons line lines ih => rw [offsetsOf,List.length_cons,ih,List.length_cons]

/-- Bytes between two lines. -/
theorem between_lines (lines : List Bytes) (first count : ℕ) :
    (lines.flatten.take (before lines (first+count))).drop (before lines first) =
      ((lines.drop first).take count).flatten := by
  have htake : ∀ n,lines.flatten.take (before lines n)=(lines.take n).flatten := by
    intro n
    have hsplit : lines.flatten=(lines.take n).flatten++(lines.drop n).flatten := by
      rw [← List.flatten_append,List.take_append_drop]
    rw [hsplit]
    exact List.take_left' rfl
  rw [htake,List.take_add,List.flatten_append]
  exact List.drop_left' rfl

theorem before_of_le {lines : List Bytes} {count : ℕ} (h : lines.length ≤ count) :
    before lines count=lines.flatten.length := by
  rw [before,List.take_of_length_le h]

/-- The window of the lines, by their numbers from 1. -/
def window (bytes : Bytes) (offset length : ℕ) : Bytes :=
  (((splitLines bytes).drop (offset - 1)).take length).flatten

theorem selectLines_eq (bytes : Bytes) (offset length : ℕ) :
    (selectLines bytes offset length).1=window bytes offset length := by
  unfold selectLines window
  split
  · next hnil => simp [hnil,splitLines]
  next hne =>
  have hstarts : lineStarts bytes=offsetsOf 0 (splitLines bytes) := by
    have h := starts_eq hne 0
    rwa [Nat.zero_add] at h
  rw [hstarts]
  dsimp only
  rw [getElem?_offsetsOf,length_offsetsOf,getElem?_offsetsOf,Nat.zero_add,Nat.zero_add]
  generalize hlines : splitLines bytes=lines
  have hflat : bytes=lines.flatten := by rw [← hlines,flatten_splitLines]
  generalize offset - 1=first
  by_cases hlt : first < lines.length
  · rw [if_pos hlt]
    have hend : (if min (first+length) lines.length < lines.length then
        some (before lines (min (first+length) lines.length)) else none).getD bytes.length =
          before lines (first+length) := by
      rcases Nat.lt_or_ge (first+length) lines.length with hin | hout
      · rw [Nat.min_eq_left (Nat.le_of_lt hin),if_pos hin,Option.getD_some]
      · rw [if_neg (by omega),Option.getD_none,before_of_le hout,hflat]
    simp only [hend]
    rw [hflat]
    exact between_lines lines first length
  · rw [if_neg hlt,List.drop_eq_nil_of_le (Nat.le_of_not_lt hlt),List.take_nil,List.flatten_nil]

/-! ## The walk -/

section
variable {target length : ℕ} {cancelled : ℕ → Bool} (hcan : ∀ index,cancelled index=false)
include hcan

/-- Once the first line is met, the walk ends after the lines that are asked for. -/
theorem walkLines_within {lines : List Bytes} {index cursor selected start : ℕ}
    (hindex : target < index) (hsel : selected < length) :
    walkLines cancelled target length lines index cursor selected (some start) =
      .ok (some start,cursor+before lines (length - selected)) := by
  induction lines generalizing index cursor selected with
  | nil => simp [walkLines,before]
  | cons line lines ih =>
    obtain ⟨left,hleft⟩ : ∃ left,length - selected=left+1 := ⟨length - selected - 1,by omega⟩
    rw [walkLines,if_neg (by simp [hcan]),hleft,before_succ]
    simp only [if_neg (show ¬ index=target by omega),
      if_pos (show index ≥ target ∧ selected < length from ⟨by omega,hsel⟩)]
    split
    · next hlast =>
      obtain rfl : left=0 := by omega
      simp [before]
    · rw [ih (by omega) (by omega),show length - (selected+1)=left by omega,Nat.add_assoc]

theorem walkLines_eq {lines : List Bytes} {index cursor : ℕ} (hindex : index ≤ target)
    (hlen : 0 < length) :
    walkLines cancelled target length lines index cursor 0 none =
      .ok (if target - index < lines.length then
        (some (cursor+before lines (target - index)),
          cursor+before lines (target - index+length))
      else (none,cursor+lines.flatten.length)) := by
  induction lines generalizing index cursor with
  | nil => simp [walkLines]
  | cons line lines ih =>
    rw [walkLines,if_neg (by simp [hcan])]
    rcases Nat.lt_or_eq_of_le hindex with hlt | rfl
    · obtain ⟨left,hleft⟩ : ∃ left,target - index=left+1 := ⟨target - index - 1,by omega⟩
      simp only [if_neg (show ¬ index=target by omega),
        if_neg (show ¬ (index ≥ target ∧ 0 < length) by omega),if_neg (show ¬ 0=length by omega)]
      rw [ih (by omega),show target - (index+1)=left by omega,hleft,before_succ,
        Nat.add_right_comm left 1 length,before_succ]
      simp [Nat.add_assoc]
    · obtain ⟨left,rfl⟩ : ∃ left,length=left+1 := ⟨length - 1,by omega⟩
      simp only [if_true,Nat.sub_self,Nat.zero_add,before_succ,List.length_cons,Nat.zero_lt_succ,
        if_pos (show index ≥ index ∧ True from ⟨le_rfl,trivial⟩)]
      split
      · next hlast =>
        obtain rfl : left=0 := by omega
        simp [before]
      · rw [walkLines_within hcan (Nat.lt_succ_self index) (by omega),Nat.add_sub_cancel,
          Nat.add_assoc]
        simp [before]

theorem referenceLines_eq {Digest : Type} (hash : Bytes → Digest) (bytes : Bytes) (offset : ℕ)
    (hlen : 0 < length) : referenceLines hash cancelled bytes offset length =
      .ok (rawSlice hash offset (window bytes offset length)) := by
  unfold referenceLines window
  split
  · next hnil => simp [hnil,splitLines]
  rw [walkLines_eq hcan (Nat.zero_le _) hlen]
  generalize hlines : splitLines bytes=lines
  have hflat : bytes=lines.flatten := by rw [← hlines,flatten_splitLines]
  simp only [Nat.sub_zero,Nat.zero_add]
  generalize offset - 1=first
  by_cases hlt : first < lines.length
  · rw [if_pos hlt,hflat,← between_lines]
    rfl
  · rw [if_neg hlt,List.drop_eq_nil_of_le (Nat.le_of_not_lt hlt),List.take_nil]
    rfl

end

/-! ## Consecutive windows -/

/-- Windows one after another, from a line on. -/
def windows : ℕ → List ℕ → List (ℕ × ℕ)
  | _,[] => []
  | offset,length::lengths => (offset,length)::windows (offset+length) lengths

theorem flatMap_window (bytes : Bytes) (first : ℕ) (lengths : List ℕ) :
    (windows (first+1) lengths).flatMap (fun w => window bytes w.1 w.2) =
      (((splitLines bytes).drop first).take lengths.sum).flatten := by
  induction lengths generalizing first with
  | nil => simp [windows]
  | cons length lengths ih =>
    rw [windows,List.flatMap_cons,Nat.add_right_comm,ih,window,List.sum_cons,List.take_add,
      List.flatten_append,List.drop_drop,Nat.add_sub_cancel]

/-- Files and retained results are read line by line in the same way, and windows that cover all
lines give all bytes. -/
theorem lines_agree {Digest : Type} (hash : Bytes → Digest) (bytes : Bytes) :
    (∀ offset length,0 < offset → 0 < length →
      (selectRange bytes .lines offset length).1=window bytes offset length ∧
      referenceLines hash (fun _ => false) bytes offset length =
        .ok (rawSlice hash offset (window bytes offset length))) ∧
    ∀ lengths,(splitLines bytes).length ≤ lengths.sum →
      (windows 1 lengths).flatMap (fun w => (selectRange bytes .lines w.1 w.2).1)=bytes := by
  refine ⟨fun offset length _ hlen => ⟨selectLines_eq bytes offset length,
    referenceLines_eq (fun _ => rfl) hash bytes offset hlen⟩,fun lengths hcover => ?_⟩
  simp only [selectRange,selectLines_eq]
  rw [flatMap_window,List.drop_zero,List.take_of_length_le hcover,flatten_splitLines]

end Ash.LineSlices
