import Ash.ByteCodecs
import Mathlib.Data.List.Forall2

/-! # Text addressed by bytes

Byte lengths and byte offsets of texts, slices that fail off a character boundary or
outside the text, and what tests over bytes say about characters. -/

namespace Ash.TextSlices
open ByteCodecs

def byteLength (text : Text) : ℕ := (text.map Char.utf8Size).sum

@[simp] theorem byteLength_nil : byteLength []=0 := rfl

@[simp] theorem byteLength_cons (c : Char) (text : Text) :
    byteLength (c::text)=c.utf8Size+byteLength text := by simp [byteLength]

@[simp] theorem byteLength_append (left right : Text) :
    byteLength (left++right)=byteLength left+byteLength right := by simp [byteLength]

/-- A property of every item of a list, from a run over the list. -/
theorem forall_mem_of_all {α : Type} {p : α → Prop} [DecidablePred p] {items : List α}
    (h : items.all p=true) : ∀ a∈items, p a := by
  simpa using h

theorem length_utf8_eq_byteLength (text : Text) : (utf8 text).length=byteLength text := by
  simp [byteLength]

theorem byteLength_eq_zero {text : Text} : byteLength text=0 ↔ text=[] := by
  cases text with
  | nil => simp
  | cons c text =>
    have := c.utf8Size_pos
    simp only [byteLength_cons,reduceCtorEq,iff_false]
    omega

/-- The two parts of a text around a byte offset on a character boundary. -/
def splitAtByte : Text → ℕ → Option (Text × Text)
  | text, 0 => some ([],text)
  | [], _+1 => none
  | c::text, n+1 =>
      if c.utf8Size ≤ n+1 then
        (splitAtByte text (n+1 - c.utf8Size)).map fun parts => (c::parts.1,parts.2)
      else none

/-- The slice between two byte offsets. -/
def slice (text : Text) (start stop : ℕ) : Option Text :=
  if start ≤ stop then do
    let (front,_) ← splitAtByte text stop
    let (_,middle) ← splitAtByte front start
    return middle
  else none

theorem splitAtByte_append (left right : Text) :
    splitAtByte (left++right) (byteLength left)=some (left,right) := by
  induction left with
  | nil => simp [splitAtByte]
  | cons c left ih =>
    obtain ⟨n,hn⟩ : ∃ n, c.utf8Size=n+1 := ⟨c.utf8Size - 1,by have := c.utf8Size_pos; omega⟩
    rw [List.cons_append,byteLength_cons,hn,Nat.add_right_comm,splitAtByte,if_pos (by omega),
      show n+byteLength left+1 - c.utf8Size=byteLength left by omega,ih]
    rfl

/-- Cutting at the byte lengths of a text's parts gives the parts. -/
theorem slice_append (left middle right : Text) :
    slice (left++middle++right) (byteLength left) (byteLength (left++middle)) =
      some middle := by
  rw [slice,if_pos (by simp),splitAtByte_append]
  simp [splitAtByte_append]

/-! ## Character boundaries -/

/-- A byte offset at which the text can be cut. -/
def Boundary (text : Text) : Type := { offset : ℕ // (splitAtByte text offset).isSome=true }

def Boundary.before {text : Text} (boundary : Boundary text) : Text :=
  ((splitAtByte text boundary.1).get boundary.2).1

def Boundary.after {text : Text} (boundary : Boundary text) : Text :=
  ((splitAtByte text boundary.1).get boundary.2).2

theorem isSome_splitAtByte_zero (text : Text) : (splitAtByte text 0).isSome=true := by
  cases text <;> rfl

theorem isSome_splitAtByte_byteLength (text : Text) :
    (splitAtByte text (byteLength text)).isSome=true := by
  have h := splitAtByte_append text []
  rw [List.append_nil] at h
  rw [h]
  rfl

def floorLoop (text : Text) : ℕ → Boundary text
  | 0 => ⟨0,isSome_splitAtByte_zero text⟩
  | index+1 =>
      if h : (splitAtByte text (index+1)).isSome=true then ⟨index+1,h⟩
      else floorLoop text index

def floorBoundary (text : Text) (index : ℕ) : Boundary text :=
  floorLoop text (min index (byteLength text))

/-- The loop counts the bytes that are left. -/
def ceilLoop (text : Text) : ℕ → Boundary text
  | 0 => ⟨byteLength text,isSome_splitAtByte_byteLength text⟩
  | left+1 =>
      if h : (splitAtByte text (byteLength text - (left+1))).isSome=true then
        ⟨byteLength text - (left+1),h⟩
      else ceilLoop text left

def ceilBoundary (text : Text) (index : ℕ) : Boundary text :=
  ceilLoop text (byteLength text - min index (byteLength text))

theorem splitAtByte_some {text left right : Text} {n : ℕ}
    (h : splitAtByte text n=some (left,right)) : text=left++right ∧ byteLength left=n := by
  induction text generalizing n left with
  | nil =>
    cases n with
    | zero =>
      cases h
      exact ⟨rfl,rfl⟩
    | succ n => cases h
  | cons c text ih =>
    cases n with
    | zero =>
      cases h
      exact ⟨rfl,rfl⟩
    | succ n =>
      rw [splitAtByte] at h
      split at h
      · next hsize =>
        obtain ⟨⟨front,back⟩,hparts,heq⟩ := Option.map_eq_some_iff.1 h
        cases heq
        obtain ⟨rfl,hlength⟩ := ih hparts
        refine ⟨rfl,?_⟩
        rw [byteLength_cons,hlength]
        omega
      · cases h

theorem Boundary.exists_append {text : Text} (boundary : Boundary text) :
    ∃ left right, text=left++right ∧ byteLength left=boundary.1 := by
  obtain ⟨parts,hparts⟩ := Option.isSome_iff_exists.1 boundary.2
  exact ⟨parts.1,parts.2,splitAtByte_some hparts⟩

theorem floorLoop_succ (text : Text) (index : ℕ) : (floorLoop text (index+1)).1 =
    if (splitAtByte text (index+1)).isSome=true then index+1 else (floorLoop text index).1 :=
  apply_dite Subtype.val ..

theorem floorBoundary_le (text : Text) (index : ℕ) : (floorBoundary text index).1 ≤ index := by
  refine le_trans ?_ (Nat.min_le_left index (byteLength text))
  unfold floorBoundary
  induction min index (byteLength text) with
  | zero => exact le_rfl
  | succ index ih =>
    rw [floorLoop_succ]
    split
    · exact le_rfl
    · exact Nat.le_succ_of_le ih

theorem le_ceilBoundary {text : Text} {index : ℕ} (h : index ≤ byteLength text) :
    index ≤ (ceilBoundary text index).1 := by
  have hloop : ∀ left, byteLength text - left ≤ (ceilLoop text left).1 := by
    intro left
    induction left with
    | zero => exact le_rfl
    | succ left ih =>
      have hnext : (ceilLoop text (left+1)).1 =
          if (splitAtByte text (byteLength text - (left+1))).isSome=true then
            byteLength text - (left+1) else (ceilLoop text left).1 := apply_dite Subtype.val ..
      rw [hnext]
      split
      · exact le_rfl
      · exact le_trans (by omega) ih
  have hle := hloop (byteLength text - min index (byteLength text))
  rw [ceilBoundary]
  omega

/-- No character is longer than four bytes. -/
theorem exists_append_lt {text : Text} {index : ℕ} (h : index ≤ byteLength text) :
    ∃ left right, text=left++right ∧ byteLength left ≤ index ∧ index < byteLength left+4 := by
  induction text generalizing index with
  | nil => exact ⟨[],[],rfl,Nat.zero_le _,by rw [byteLength_nil] at h ⊢; omega⟩
  | cons c text ih =>
    have hsize := c.utf8Size_le_four
    rw [byteLength_cons] at h
    by_cases hc : index < c.utf8Size
    · exact ⟨[],c::text,rfl,Nat.zero_le _,by rw [byteLength_nil]; omega⟩
    · obtain ⟨left,right,rfl,hle,hlt⟩ := @ih (index - c.utf8Size) (by omega)
      refine ⟨c::left,right,rfl,?_⟩
      rw [byteLength_cons]
      omega

theorem lt_floorBoundary_add {text : Text} {index : ℕ} (h : index ≤ byteLength text) :
    index < (floorBoundary text index).1+4 := by
  obtain ⟨left,right,rfl,hle,hlt⟩ := exists_append_lt h
  have hcut : (splitAtByte (left++right) (byteLength left)).isSome=true := by
    rw [splitAtByte_append]
    rfl
  have hgreatest : ∀ n, byteLength left ≤ n → byteLength left ≤ (floorLoop (left++right) n).1 := by
    intro n hn
    induction n with
    | zero => exact hn
    | succ n ih =>
      rw [floorLoop_succ]
      split
      · exact hn
      · next hno =>
        have hne : byteLength left≠n+1 := fun heq => hno (by rwa [← heq])
        exact ih (by omega)
  have := hgreatest index hle
  rw [floorBoundary,Nat.min_eq_left h]
  omega

/-- Of two cuts of a text the longer one goes on after the shorter one. -/
theorem exists_append_of_le {left right left' right' : Text} (heq : left++right=left'++right')
    (hle : byteLength left ≤ byteLength left') :
    ∃ middle, left'=left++middle ∧ right=middle++right' := by
  obtain ⟨middle,hleft,hright⟩ | ⟨beyond,rfl,rfl⟩ := List.append_eq_append_iff.1 heq
  · exact ⟨middle,hleft,hright⟩
  · rw [byteLength_append] at hle
    obtain rfl := byteLength_eq_zero.1 (by omega : byteLength beyond=0)
    exact ⟨[],by simp,rfl⟩

/-! ## Searching -/

/-- The byte offset of the first character that satisfies a test. -/
def findByte (p : Char → Bool) : Text → Option ℕ
  | [] => none
  | c::text => if p c then some 0 else (findByte p text).map (c.utf8Size + ·)

variable {p : Char → Bool} {left right : Text} {c : Char}

variable {n : ℕ} {left' right' : Text}

theorem findByte_some {text : Text} (h : findByte p text=some n) :
    ∃ left c right, text=left++c::right ∧ p c=true ∧ (∀ d∈left, p d=false) ∧
      n=byteLength left := by
  induction text generalizing n with
  | nil => cases h
  | cons c text ih =>
    rw [findByte] at h
    split at h
    · next hc =>
      cases h
      exact ⟨[],c,text,rfl,hc,by simp,rfl⟩
    · next hc =>
      obtain ⟨m,hm,rfl⟩ := Option.map_eq_some_iff.1 h
      obtain ⟨left,d,right,rfl,hd,hleft,rfl⟩ := ih hm
      exact ⟨c::left,d,right,rfl,hd,by simpa using ⟨by simpa using hc,hleft⟩,rfl⟩

theorem findByte_eq_none {text : Text} : findByte p text=none ↔ ∀ c∈text, p c=false := by
  induction text with
  | nil => simp [findByte]
  | cons c text ih =>
    rw [findByte]
    split
    · next hc => simp [hc]
    · next hc => simp [hc,ih]

/-- The byte offset of the last character that satisfies a test. -/
def rfindByte (p : Char → Bool) : Text → Option ℕ
  | [] => none
  | c::text =>
      match rfindByte p text with
      | some n => some (c.utf8Size+n)
      | none => if p c then some 0 else none

theorem rfindByte_eq_none {text : Text} : rfindByte p text=none ↔ ∀ c∈text, p c=false := by
  induction text with
  | nil => simp [rfindByte]
  | cons c text ih =>
    rw [rfindByte]
    cases h : rfindByte p text with
    | some n =>
      have hnot : ¬ ∀ c∈text, p c=false := fun hall => by simp [ih.2 hall] at h
      simp only [reduceCtorEq,List.forall_mem_cons,hnot,and_false]
    | none =>
      have hall := ih.1 h
      simp only [ite_eq_right_iff,reduceCtorEq,imp_false,List.forall_mem_cons,Bool.not_eq_true]
      exact ⟨fun hc => ⟨hc,hall⟩,And.left⟩

theorem rfindByte_some {text : Text} (h : rfindByte p text=some n) :
    ∃ left c right, text=left++c::right ∧ p c=true ∧ (∀ d∈right, p d=false) ∧
      n=byteLength left := by
  induction text generalizing n with
  | nil => cases h
  | cons c text ih =>
    rw [rfindByte] at h
    cases htext : rfindByte p text with
    | some m =>
      rw [htext] at h
      cases h
      obtain ⟨left,d,right,rfl,hd,hright,rfl⟩ := ih htext
      exact ⟨c::left,d,right,rfl,hd,hright,(byteLength_cons c left).symm⟩
    | none =>
      simp only [htext,Option.ite_none_right_eq_some,Option.some.injEq] at h
      exact ⟨[],c,text,rfl,h.1,rfindByte_eq_none.1 htext,h.2.symm⟩

/-- A text is cut at the last occurrence of a character in one way only. -/
theorem append_cons_inj_of_not_mem (h : c∉right) (h' : c∉right')
    (heq : left++c::right=left'++c::right') : left=left' ∧ right=right' := by
  induction left generalizing left' with
  | nil =>
    cases left' with
    | nil => exact ⟨rfl,(List.cons.inj heq).2⟩
    | cons d left' =>
      rw [(List.cons.inj heq).2] at h
      simp at h
  | cons d left ih =>
    cases left' with
    | nil =>
      rw [← (List.cons.inj heq).2] at h'
      simp at h'
    | cons d' left' =>
      obtain ⟨rfl,htail⟩ := List.cons.inj heq
      obtain ⟨rfl,rfl⟩ := ih htail
      exact ⟨rfl,rfl⟩

/-- The parts of a text before and after the first occurrence of a character. -/
def splitOnce (c : Char) : Text → Option (Text × Text)
  | [] => none
  | d::text =>
      if d=c then some ([],text)
      else (splitOnce c text).map fun parts => (d::parts.1,parts.2)

theorem splitOnce_append (h : c∉left) (right : Text) :
    splitOnce c (left++c::right)=some (left,right) := by
  induction left with
  | nil => simp [splitOnce]
  | cons d left ih =>
    have hd : d≠c := fun heq => h (by simp [heq])
    rw [List.cons_append,splitOnce,if_neg hd,ih fun hmem => h (by simp [hmem])]
    rfl

theorem not_mem_of_splitOnce {text : Text} (h : splitOnce c text=none) : c∉text := by
  induction text with
  | nil => simp
  | cons d text ih =>
    rw [splitOnce] at h
    split at h
    · cases h
    · next hd =>
      rw [List.mem_cons,not_or]
      exact ⟨fun heq => hd heq.symm,ih (Option.map_eq_none_iff.1 h)⟩

/-- A text is cut at the first occurrence of a character in one way only. -/
theorem append_cons_inj_of_not_mem_left (h : c∉left) (h' : c∉left')
    (heq : left++c::right=left'++c::right') : left=left' ∧ right=right' := by
  have hparts := splitOnce_append h right
  rw [heq,splitOnce_append h' right',Option.some.injEq,Prod.mk.injEq] at hparts
  exact ⟨hparts.1.symm,hparts.2.symm⟩

theorem splitOnce_some {text : Text} (h : splitOnce c text=some (left,right)) :
    text=left++c::right ∧ c∉left := by
  induction text generalizing left with
  | nil => cases h
  | cons d text ih =>
    rw [splitOnce] at h
    split at h
    · next hd =>
      cases h
      simp [hd]
    · next hd =>
      obtain ⟨⟨left',right'⟩,hparts,heq⟩ := Option.map_eq_some_iff.1 h
      cases heq
      obtain ⟨rfl,hnot⟩ := ih hparts
      simp [hnot,Ne.symm hd]

/-! ## Bytes and characters -/

theorem utf8EncodeChar_ascii (h : c.toNat < 128) :
    String.utf8EncodeChar c=[UInt8.ofNat c.toNat] := by
  unfold String.utf8EncodeChar
  rw [if_pos]
  · rfl
  · change c.toNat ≤ 127
    omega

theorem exists_utf8EncodeChar (c : Char) : ∃ b bytes, String.utf8EncodeChar c=b::bytes :=
  List.exists_cons_of_length_pos (by rw [String.length_utf8EncodeChar]; exact c.utf8Size_pos)

theorem le_of_mem_utf8EncodeChar (h : 128 ≤ c.toNat) {b : UInt8} (hb : b∈String.utf8EncodeChar c)
    : 128 ≤ b.toNat := by
  unfold String.utf8EncodeChar at hb
  change b∈(if c.toNat ≤ 127 then _ else _) at hb
  rw [if_neg (by omega)] at hb
  have hbyte : ∀ n, 128 ≤ n → n < 256 → 128 ≤ (UInt8.ofNat n).toNat := by
    intro n hlo hhi
    rw [UInt8.toNat_ofNat']
    omega
  split at hb
  · simp only [List.mem_cons,List.not_mem_nil,or_false] at hb
    rcases hb with rfl | rfl <;> exact hbyte _ (by omega) (by omega)
  split at hb
  · simp only [List.mem_cons,List.not_mem_nil,or_false] at hb
    rcases hb with rfl | rfl | rfl <;> exact hbyte _ (by omega) (by omega)
  · simp only [List.mem_cons,List.not_mem_nil,or_false] at hb
    rcases hb with rfl | rfl | rfl | rfl <;> exact hbyte _ (by omega) (by omega)

/-- A test that just the bytes of given ASCII characters pass. -/
def isAsciiTest (p : UInt8 → Bool) (chars : List Char) : Bool :=
  chars.all (·.toNat < 128) && (List.range 256).all fun n =>
    p (UInt8.ofNat n) == decide (n < 128 ∧ Char.ofNat n∈chars)

section
variable {p : UInt8 → Bool} {chars : List Char} (h : isAsciiTest p chars=true)
include h

/-- Such a test of the first byte of a character tests the character. -/
theorem isAsciiTest_head {b : UInt8} {bytes : Bytes} (hc : String.utf8EncodeChar c=b::bytes) :
    (p b=true ↔ c∈chars) ∧ (c∈chars → bytes=[]) := by
  simp only [isAsciiTest,Bool.and_eq_true,List.all_eq_true,decide_eq_true_eq,List.mem_range,
    beq_iff_eq] at h
  have hb := h.2 b.toNat b.toNat_lt
  rw [UInt8.ofNat_toNat] at hb
  rw [hb,decide_eq_true_eq]
  by_cases hlt : c.toNat < 128
  · rw [utf8EncodeChar_ascii hlt] at hc
    obtain ⟨rfl,rfl⟩ := List.cons.inj hc
    rw [UInt8.toNat_ofNat_of_lt' (Nat.lt_trans hlt (by decide)),Char.ofNat_toNat]
    exact ⟨and_iff_right hlt,fun _ => rfl⟩
  · have hmem : b∈String.utf8EncodeChar c := by simp [hc]
    have hge := le_of_mem_utf8EncodeChar (Nat.le_of_not_lt hlt) hmem
    have hno : c∉chars := fun hc => hlt (h.1 c hc)
    exact ⟨iff_of_false (fun hsmall => absurd hsmall.1 (Nat.not_lt.2 hge)) hno,fun hc => absurd hc hno⟩

theorem all_utf8_mem (text : Text) : (utf8 text).all p=true ↔ ∀ c∈text, c∈chars := by
  induction text with
  | nil => simp [utf8]
  | cons c text ih =>
    obtain ⟨b,bytes,hc⟩ := exists_utf8EncodeChar c
    obtain ⟨hb,hbytes⟩ := isAsciiTest_head h hc
    rw [utf8,List.flatMap_cons,List.all_append,Bool.and_eq_true,← utf8,ih,hc,List.all_cons,
      Bool.and_eq_true,hb,List.forall_mem_cons]
    refine and_congr_left fun _ => and_iff_left_of_imp fun hmem => ?_
    rw [hbytes hmem]
    rfl

end

theorem ofNat_toNat_inj {d : Char} (hc : c.toNat < 128) (hd : d.toNat < 128) :
    UInt8.ofNat c.toNat=UInt8.ofNat d.toNat ↔ c=d := by
  constructor
  · intro h
    have hnat := congrArg UInt8.toNat h
    simp only [UInt8.toNat_ofNat'] at hnat
    exact Char.toNat_inj.1 (by omega)
  · rintro rfl
    rfl

/-- An ASCII character occurs as often among the bytes as among the characters. -/
theorem count_utf8 (hc : c.toNat < 128) (text : Text) :
    (utf8 text).count (UInt8.ofNat c.toNat)=text.count c := by
  induction text with
  | nil => rfl
  | cons d text ih =>
    rw [utf8,List.flatMap_cons,List.count_append,List.count_cons,← ih,utf8,Nat.add_comm]
    congr 1
    by_cases hd : d.toNat < 128
    · simp [utf8EncodeChar_ascii hd,List.count_singleton,ofNat_toNat_inj hd hc]
    · have hne : d≠c := fun h => hd (h ▸ hc)
      rw [if_neg (by simpa using hne)]
      refine List.count_eq_zero.2 fun hmem => ?_
      have := le_of_mem_utf8EncodeChar (by omega) hmem
      simp only [UInt8.toNat_ofNat'] at this
      omega

end Ash.TextSlices
