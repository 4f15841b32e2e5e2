import Ash.ByteCodecs
import Ash.Outcomes
import Ash.PositionSets
import Mathlib.Data.List.TakeWhile

/-! # Patterns for one name

The units of a component, each with a flag that says whether it is active, are compiled to tokens.
A name is matched against the tokens with a set of positions. -/

namespace Ash.PathnamePatterns
open ByteCodecs Outcomes PositionSets

/-- A native unit and whether it is active. -/
abbrev FlaggedUnit := UInt8 × Bool

def ascii (character : Char) : UInt8 := character.toNat.toUInt8

inductive PatternToken where
  | literal (unit : UInt8)
  | anyOne
  | anySequence
  | characterClass (negated : Bool) (ranges : List (UInt8 × UInt8))
  deriving DecidableEq

/-- Some range contains the unit. -/
def contained (ranges : List (UInt8 × UInt8)) (candidate : UInt8) : Bool :=
  ranges.any fun range => range.1 ≤ candidate && candidate ≤ range.2

/-- What a token takes from a name.  A sequence takes any run. -/
def PatternToken.step : PatternToken → Step UInt8
  | .literal expected => .one fun candidate => expected == candidate
  | .anyOne => .one fun _ => true
  | .anySequence => .run
  | .characterClass negated ranges => .one fun candidate => contained ranges candidate != negated

def isActive (character : Char) (unit : FlaggedUnit) : Bool :=
  unit.2 && unit.1 == ascii character

def isNegation (unit : FlaggedUnit) : Bool := isActive '!' unit || isActive '^' unit

def unterminatedClass : Text := "pathname pattern contains an unterminated '[' class".toList

def emptyClass : Text := "pathname pattern contains an empty character class".toList

def descendingRange : Text := "pathname pattern contains a descending character range".toList

/-- The ranges of the content of a class. -/
def classRanges : List FlaggedUnit → Except Text (List (UInt8 × UInt8))
  | [] => .ok []
  | unit::dash::last::rest =>
      if isActive '-' dash then
        if last.1 < unit.1 then .error descendingRange
        else ((unit.1,last.1) :: ·) <$> classRanges rest
      else ((unit.1,unit.1) :: ·) <$> classRanges (dash::last::rest)
  | unit::rest => ((unit.1,unit.1) :: ·) <$> classRanges rest

/-- A class from behind its opening bracket, up to the first active closing one. -/
def classContent (negated : Bool) (units : List FlaggedUnit) :
    Except Text (PatternToken × List FlaggedUnit) :=
  match units.dropWhile (!isActive ']' ·) with
  | [] => .error unterminatedClass
  | _::next =>
      match units.takeWhile (!isActive ']' ·) with
      | [] => .error emptyClass
      | content => (fun ranges => (.characterClass negated ranges,next)) <$> classRanges content

def compileClass (units : List FlaggedUnit) : Except Text (PatternToken × List FlaggedUnit) :=
  match units with
  | [] => classContent false []
  | unit::rest => if isNegation unit then classContent true rest else classContent false units

/-! ## Classes -/

/-- What the content of a class stands for: a unit, an active dash and a unit no less are a range,
any other unit is a range of its own. -/
inductive Ranges : List FlaggedUnit → List (UInt8 × UInt8) → Prop
  | nil : Ranges [] []
  | range {unit dash last rest ranges}
      (hdash : isActive '-' dash=true) (hasc : unit.1 ≤ last.1) (h : Ranges rest ranges) :
      Ranges (unit::dash::last::rest) ((unit.1,last.1)::ranges)
  | single {unit rest ranges}
      (hsingle : ∀ dash last more, rest=dash::last::more → isActive '-' dash=false)
      (h : Ranges rest ranges) : Ranges (unit::rest) ((unit.1,unit.1)::ranges)

structure IsContent (content : List FlaggedUnit) (ranges : List (UInt8 × UInt8)) : Prop where
  nonempty : content≠[]
  unclosed : ∀ unit∈content, isActive ']' unit=false
  ranges : Ranges content ranges

/-- A class from behind its opening bracket to its closing one. -/
inductive IsClass : List FlaggedUnit → Bool → List (UInt8 × UInt8) → Prop
  | plain {content closing ranges}
      (hsign : ∀ unit∈content.head?, isNegation unit=false) (hcont : IsContent content ranges)
      (hclos : isActive ']' closing=true) : IsClass (content++[closing]) false ranges
  | negated {sign closing content ranges} (hsign : isNegation sign=true)
      (hcont : IsContent content ranges) (hclos : isActive ']' closing=true) :
      IsClass (sign::content++[closing]) true ranges

theorem classRanges_ok_iff (content : List FlaggedUnit) (ranges : List (UInt8 × UInt8)) :
    classRanges content=.ok ranges ↔ Ranges content ranges := by
  induction content using classRanges.induct generalizing ranges with
  | case1 =>
    rw [classRanges]
    constructor
    · intro h
      cases h
      exact .nil
    · intro h
      cases h
      rfl
  | case2 unit dash last rest hdash hdesc =>
    rw [classRanges,if_pos hdash,if_pos hdesc]
    constructor
    · intro h
      cases h
    · intro h
      cases h with
      | range _ hasc _ => exact absurd hdesc (UInt8.not_lt.2 hasc)
      | single hsingle _ => exact absurd hdash (by simp [hsingle dash last rest rfl])
  | case3 unit dash last rest hdash hdesc ih =>
    rw [classRanges,if_pos hdash,if_neg hdesc,map_ok_iff]
    simp only [ih]
    constructor
    · rintro ⟨ranges,h,rfl⟩
      exact .range hdash (UInt8.not_lt.1 hdesc) h
    · intro h
      cases h with
      | range _ _ h => exact ⟨_,h,rfl⟩
      | single hsingle _ => exact absurd hdash (by simp [hsingle dash last rest rfl])
  | case4 unit dash last rest hdash ih =>
    rw [classRanges,if_neg hdash,map_ok_iff]
    simp only [ih]
    constructor
    · rintro ⟨ranges,h,rfl⟩
      refine .single (fun other _ _ heq => ?_) h
      obtain ⟨rfl,-⟩ := List.cons.inj heq
      exact Bool.eq_false_iff.2 hdash
    · intro h
      cases h with
      | range hother _ _ => exact absurd hother hdash
      | single _ h => exact ⟨_,h,rfl⟩
  | case5 unit rest hshort ih =>
    have hrest : ∀ dash last more, rest≠dash::last::more := hshort
    rw [classRanges.eq_3 _ _ hshort,map_ok_iff]
    simp only [ih]
    constructor
    · rintro ⟨ranges,h,rfl⟩
      exact .single (fun dash last more heq => absurd heq (hrest dash last more)) h
    · intro h
      cases h with
      | range _ _ _ => exact absurd rfl (hrest _ _ _)
      | single _ h => exact ⟨_,h,rfl⟩

variable {negated : Bool}

theorem classContent_ok_iff {units next : List FlaggedUnit} {token : PatternToken} :
    classContent negated units=.ok (token,next) ↔ ∃ content closing ranges,
      units=content++closing::next ∧ IsContent content ranges ∧ isActive ']' closing=true ∧
        token=.characterClass negated ranges := by
  constructor
  · intro h
    have hunits := List.takeWhile_append_dropWhile (p := (!isActive ']' ·)) (l := units)
    have hunclosed : ∀ unit∈units.takeWhile (!isActive ']' ·), isActive ']' unit=false := by
      intro unit hunit
      simpa using List.mem_takeWhile_imp hunit
    have hhead := List.head?_dropWhile_not (!isActive ']' ·) units
    unfold classContent at h
    generalize units.takeWhile (!isActive ']' ·)=content at h hunits hunclosed
    generalize units.dropWhile (!isActive ']' ·)=rest at h hunits hhead
    match rest, content, h with
    | closing::next', unit::content, h =>
      obtain ⟨ranges,hranges,heq⟩ := map_ok_iff.1 h
      obtain ⟨rfl,rfl⟩ := Prod.mk.inj heq
      refine ⟨_,closing,ranges,hunits.symm,⟨List.cons_ne_nil _ _,hunclosed,?_⟩,?_,rfl⟩
      · exact (classRanges_ok_iff _ _).1 hranges
      · simpa using hhead
  · rintro ⟨content,closing,ranges,rfl,hcont,hclos,rfl⟩
    have hopen : ∀ unit∈content, (!isActive ']' unit)=true := by
      intro unit hunit
      rw [hcont.unclosed unit hunit]
      rfl
    have hranges := (classRanges_ok_iff _ _).2 hcont.ranges
    obtain ⟨unit,more,rfl⟩ := List.exists_cons_of_ne_nil hcont.nonempty
    rw [classContent,List.dropWhile_append_of_pos hopen,List.takeWhile_append_of_pos hopen,
      List.dropWhile_cons_of_neg (by simp [hclos]),List.takeWhile_cons_of_neg (by simp [hclos]),
      List.append_nil]
    simp only [hranges]
    rfl

theorem compileClass_ok_iff {units next : List FlaggedUnit} {token : PatternToken} :
    compileClass units=.ok (token,next) ↔ ∃ text negated ranges,
      units=text++next ∧ IsClass text negated ranges ∧
        token=.characterClass negated ranges := by
  constructor
  · intro h
    unfold compileClass at h
    split at h
    · obtain ⟨content,closing,ranges,hunits,-⟩ := classContent_ok_iff.1 h
      simp at hunits
    · next unit rest =>
      split at h
      · next hsign =>
        obtain ⟨content,closing,ranges,rfl,hcont,hclos,rfl⟩ := classContent_ok_iff.1 h
        exact ⟨_,_,_,by simp,.negated hsign hcont hclos,rfl⟩
      · next hsign =>
        obtain ⟨content,closing,ranges,hunits,hcont,hclos,rfl⟩ :=
          classContent_ok_iff.1 h
        refine ⟨_,_,_,hunits.trans (List.append_cons ..),.plain ?_ hcont hclos,rfl⟩
        obtain ⟨first,more,rfl⟩ := List.exists_cons_of_ne_nil hcont.nonempty
        obtain ⟨rfl,-⟩ := List.cons.inj hunits
        rintro _ ⟨⟩
        exact Bool.eq_false_iff.2 hsign
  · rintro ⟨text,negated,ranges,rfl,hclass,rfl⟩
    cases hclass with
    | @plain content closing _ hsign hcont hclos =>
      have hcomp : classContent false (content++closing::next) =
          .ok (.characterClass false ranges,next) :=
        classContent_ok_iff.2 ⟨content,closing,ranges,rfl,hcont,hclos,rfl⟩
      rw [List.append_cons] at hcomp
      obtain ⟨unit,more,rfl⟩ := List.exists_cons_of_ne_nil hcont.nonempty
      rw [List.cons_append,List.cons_append] at hcomp ⊢
      rw [compileClass,if_neg (by rw [hsign unit rfl]; exact Bool.false_ne_true)]
      exact hcomp
    | @negated sign closing content _ hsign hcont hclos =>
      rw [List.cons_append,List.cons_append,compileClass,if_pos hsign,← List.append_cons]
      exact classContent_ok_iff.2 ⟨content,closing,ranges,rfl,hcont,hclos,rfl⟩

theorem IsClass.ne_nil {text : List FlaggedUnit} {ranges : List (UInt8 × UInt8)}
    (h : IsClass text negated ranges) : text≠[] := by
  cases h with
  | plain => simp
  | negated => simp

theorem compileClass_length {units next : List FlaggedUnit} {token : PatternToken}
    (h : compileClass units=.ok (token,next)) : next.length < units.length := by
  obtain ⟨text,negated,ranges,rfl,hclass,-⟩ := compileClass_ok_iff.1 h
  have htext := List.length_pos_iff.2 hclass.ne_nil
  rw [List.length_append]
  omega

/-! ## Components -/

def pushSequence (tokens : List PatternToken) : List PatternToken :=
  if tokens.getLast?=some .anySequence then tokens else tokens++[.anySequence]

/-- The loop over the units, with the tokens so far and whether a pattern was met. -/
def compileUnits (tokens : List PatternToken) (hasPattern : Bool) (units : List FlaggedUnit) :
    Except Text (Option (List PatternToken)) :=
  match units with
  | [] => .ok (if hasPattern then some tokens else none)
  | unit::rest =>
      if isActive '*' unit then compileUnits (pushSequence tokens) true rest
      else if isActive '?' unit then compileUnits (tokens++[.anyOne]) true rest
      else if isActive '[' unit then
        match _hclass : compileClass rest with
        | .error message => .error message
        | .ok (token,next) => compileUnits (tokens++[token]) true next
      else compileUnits (tokens++[.literal unit.1]) hasPattern rest
termination_by units.length
decreasing_by
  all_goals simp only [List.length_cons]
  · omega
  · omega
  · have hlen := compileClass_length _hclass
    omega
  · omega

def compileComponent (units : List FlaggedUnit) : Except Text (Option (List PatternToken)) :=
  compileUnits [] false units

def matchesComponent (pattern : List PatternToken) (candidate : Bytes) : Bool :=
  if candidate.head?=some (ascii '.') ∧ pattern.head?≠some (.literal (ascii '.')) then false
  else matchSteps (pattern.map PatternToken.step) candidate

/-! ## What a pattern means -/

def isIntroducer (unit : FlaggedUnit) : Bool :=
  isActive '*' unit || isActive '?' unit || isActive '[' unit

/-- A name matches the units of a component. -/
inductive Matches : List FlaggedUnit → Bytes → Prop
  | nil : Matches [] []
  | starDone {star rest name}
      (hstar : isActive '*' star=true) (h : Matches rest name) : Matches (star::rest) name
  | starMore {star rest unit name}
      (hstar : isActive '*' star=true) (h : Matches (star::rest) name) :
      Matches (star::rest) (unit::name)
  | question {mark rest unit name} (hmark : isActive '?' mark=true) (h : Matches rest name) :
      Matches (mark::rest) (unit::name)
  | characterClass {opening text rest negated ranges unit name}
      (hopening : isActive '[' opening=true) (hclass : IsClass text negated ranges)
      (hunit : (∃ range∈ranges, range.1 ≤ unit ∧ unit ≤ range.2) ↔ negated=false)
      (h : Matches rest name) : Matches (opening::text++rest) (unit::name)
  | literal {unit rest name} (hunit : isIntroducer unit=false) (h : Matches rest name) :
      Matches (unit::rest) (unit.1::name)

/-- A name that starts with a dot needs a component that does. -/
structure NameMatches (units : List FlaggedUnit) (name : Bytes) : Prop where
  hidden : name.head?=some (ascii '.') → (units.map Prod.fst).head?=some (ascii '.')
  whole : Matches units name

/-- Every active opening bracket starts a class. -/
inductive WellFormed : List FlaggedUnit → Prop
  | nil : WellFormed []
  | unit {unit rest} (hunit : isActive '[' unit=false)
      (h : WellFormed rest) : WellFormed (unit::rest)
  | characterClass {opening text rest negated ranges} (hopening : isActive '[' opening=true)
      (hclass : IsClass text negated ranges) (h : WellFormed rest) :
      WellFormed (opening::text++rest)

section Meaning

variable {unit : FlaggedUnit} {rest next : List FlaggedUnit} {read : List PatternToken}
  {token : PatternToken}

theorem isActive_unique (right : Char) {left : Char} (hne : ascii left≠ascii right)
    (h : isActive left unit=true) : isActive right unit=false := by
  rw [isActive,Bool.and_eq_true,beq_iff_eq] at h
  rw [isActive,h.2,beq_eq_false_iff_ne.2 hne,Bool.and_false]

/-- The tokens of units, before sequences are joined. -/
structure Reading (units : List FlaggedUnit) (read : List PatternToken) : Prop where
  accepts : ∀ name, Accepts (read.map PatternToken.step) name ↔ Matches units name
  hidden : read.head?=some (.literal (ascii '.')) ↔
    (units.map Prod.fst).head?=some (ascii '.')

theorem reading_nil : Reading [] [] := by
  refine ⟨fun name => ⟨fun h => ?_,fun h => ?_⟩,by simp⟩
  · cases h
    exact .nil
  · cases h
    exact .nil

/-- An active operator is no dot. -/
theorem ne_dot {operator : Char} (hne : ascii operator≠ascii '.')
    (h : isActive operator unit=true) : unit.1≠ascii '.' := by
  rw [isActive,Bool.and_eq_true,beq_iff_eq] at h
  rwa [h.2]

theorem reading_star (hunit : isActive '*' unit=true) (h : Reading rest read) :
    Reading (unit::rest) (.anySequence::read) := by
  have hmark := isActive_unique '?' (by decide) hunit
  have hopening := isActive_unique '[' (by decide) hunit
  refine ⟨fun name => ?_,by simp [ne_dot (by decide) hunit]⟩
  rw [List.map_cons,PatternToken.step]
  constructor
  · intro haccs
    induction name with
    | nil =>
      cases haccs with
      | done haccs => exact .starDone hunit ((h.accepts _).1 haccs)
    | cons first name ih =>
      cases haccs with
      | done haccs => exact .starDone hunit ((h.accepts _).1 haccs)
      | more haccs => exact .starMore hunit (ih haccs)
  · intro hmat
    induction name with
    | nil =>
      cases hmat with
      | starDone _ hmat => exact .done ((h.accepts _).2 hmat)
    | cons first name ih =>
      cases hmat with
      | starDone _ hmat => exact .done ((h.accepts _).2 hmat)
      | starMore _ hmat => exact .more (ih hmat)
      | question hother _ => simp [hmark] at hother
      | characterClass hother _ _ _ => simp [hopening] at hother
      | literal hother _ => simp [isIntroducer,hunit] at hother

theorem reading_question (hunit : isActive '?' unit=true) (h : Reading rest read) :
    Reading (unit::rest) (.anyOne::read) := by
  have hstar := isActive_unique '*' (by decide) hunit
  have hopening := isActive_unique '[' (by decide) hunit
  refine ⟨fun name => ?_,by simp [ne_dot (by decide) hunit]⟩
  rw [List.map_cons,PatternToken.step,accepts_one]
  constructor
  · rintro ⟨first,name,rfl,-,haccs⟩
    exact .question hunit ((h.accepts _).1 haccs)
  · intro hmat
    cases hmat with
    | starDone hother _ => simp [hstar] at hother
    | starMore hother _ => simp [hstar] at hother
    | question _ hmat => exact ⟨_,_,rfl,rfl,(h.accepts _).2 hmat⟩
    | characterClass hother _ _ _ => simp [hopening] at hother
    | literal hother _ => simp [isIntroducer,hunit] at hother

theorem reading_literal (hunit : isIntroducer unit=false) (h : Reading rest read) :
    Reading (unit::rest) (.literal unit.1::read) := by
  have hintr : (isActive '*' unit=false ∧ isActive '?' unit=false) ∧
      isActive '[' unit=false := by
    simpa [isIntroducer] using hunit
  obtain ⟨⟨hstar,hmark⟩,hopening⟩ := hintr
  refine ⟨fun name => ?_,by simp⟩
  rw [List.map_cons,PatternToken.step,accepts_one]
  constructor
  · rintro ⟨first,name,rfl,hfirst,haccs⟩
    obtain rfl := beq_iff_eq.1 hfirst
    exact .literal hunit ((h.accepts _).1 haccs)
  · intro hmat
    cases hmat with
    | starDone hother _ => simp [hstar] at hother
    | starMore hother _ => simp [hstar] at hother
    | question hother _ => simp [hmark] at hother
    | characterClass hother _ _ _ => simp [hopening] at hother
    | literal _ hmat => exact ⟨_,_,rfl,beq_self_eq_true _,(h.accepts _).2 hmat⟩

theorem contained_bne_iff {negated : Bool} {ranges : List (UInt8 × UInt8)} {candidate : UInt8} :
    (contained ranges candidate != negated)=true ↔
      ((∃ range∈ranges, range.1 ≤ candidate ∧ candidate ≤ range.2) ↔ negated=false) := by
  have hcontained : contained ranges candidate=true ↔
      ∃ range∈ranges, range.1 ≤ candidate ∧ candidate ≤ range.2 := by
    simp [contained]
  rw [← hcontained]
  cases contained ranges candidate <;> cases negated <;> decide

theorem reading_class (hunit : isActive '[' unit=true)
    (hclass : compileClass rest=.ok (token,next)) (h : Reading next read) :
    Reading (unit::rest) (token::read) := by
  have hstar := isActive_unique '*' (by decide) hunit
  have hmark := isActive_unique '?' (by decide) hunit
  obtain ⟨text,negated,ranges,rfl,htext,rfl⟩ := compileClass_ok_iff.1 hclass
  refine ⟨fun name => ?_,by simp [ne_dot (by decide) hunit]⟩
  rw [List.map_cons,PatternToken.step,accepts_one]
  constructor
  · rintro ⟨first,name,rfl,hfirst,haccs⟩
    exact .characterClass hunit htext (contained_bne_iff.1 hfirst) ((h.accepts _).1 haccs)
  · intro hmat
    generalize hunits : unit::(text++next)=units at hmat
    cases hmat with
    | nil => cases hunits
    | starDone hother _ =>
      obtain ⟨rfl,-⟩ := List.cons.inj hunits
      simp [hstar] at hother
    | starMore hother _ =>
      obtain ⟨rfl,-⟩ := List.cons.inj hunits
      simp [hstar] at hother
    | question hother _ =>
      obtain ⟨rfl,-⟩ := List.cons.inj hunits
      simp [hmark] at hother
    | literal hother _ =>
      obtain ⟨rfl,-⟩ := List.cons.inj hunits
      simp [isIntroducer,hunit] at hother
    | characterClass _ hother hfirst hmat =>
      -- the compiler reads one class only, so the text of the match is that of the reading
      obtain ⟨-,htail⟩ := List.cons.inj hunits
      have hcomp := compileClass_ok_iff.2 ⟨_,_,_,htail,hother,rfl⟩
      obtain ⟨htoken,rfl⟩ := Prod.mk.inj (Except.ok.inj (hclass.symm.trans hcomp))
      obtain ⟨rfl,rfl⟩ := PatternToken.characterClass.inj htoken
      exact ⟨_,_,rfl,contained_bne_iff.2 hfirst,(h.accepts _).2 hmat⟩

theorem wellFormed_cons (hunit : isActive '[' unit=false) :
    WellFormed (unit::rest) ↔ WellFormed rest := by
  refine ⟨fun h => ?_,.unit hunit⟩
  cases h with
  | unit _ h => exact h
  | characterClass hother _ _ => simp [hunit] at hother

theorem wellFormed_class_iff (hunit : isActive '[' unit=true) :
    WellFormed (unit::rest) ↔
      ∃ token next, compileClass rest=.ok (token,next) ∧ WellFormed next := by
  constructor
  · intro h
    cases h with
    | unit hother _ => simp [hunit] at hother
    | characterClass _ hclass h =>
      exact ⟨_,_,compileClass_ok_iff.2 ⟨_,_,_,rfl,hclass,rfl⟩,h⟩
  · rintro ⟨token,next,hclass,h⟩
    obtain ⟨text,negated,ranges,rfl,htext,-⟩ := compileClass_ok_iff.1 hclass
    exact .characterClass hunit htext h

end Meaning

/-! ## Compilation -/

/-- Patterns that match the same names. -/
structure Same (left right : List PatternToken) : Prop where
  accepts : ∀ name,
    Accepts (left.map PatternToken.step) name ↔ Accepts (right.map PatternToken.step) name
  head : left.head?=right.head?

theorem Same.rfl {pattern : List PatternToken} : Same pattern pattern := ⟨fun _ => Iff.rfl,by trivial⟩

variable (tokens : List PatternToken)

theorem same_pushSequence (read : List PatternToken) :
    Same (pushSequence tokens++read) (tokens++.anySequence::read) := by
  unfold pushSequence
  split
  · next hlast =>
    obtain ⟨front,rfl⟩ := List.getLast?_eq_some_iff.1 hlast
    refine ⟨fun name => ?_,by cases front <;> rfl⟩
    simp only [List.map_append,List.map_cons,List.append_assoc,List.singleton_append]
    exact accepts_append_congr (fun _ => accepts_run_run.symm) _ _
  · rw [List.append_assoc,List.singleton_append]
    exact .rfl

theorem Same.trans {first second third : List PatternToken} (h : Same first second)
    (h' : Same second third) : Same first third :=
  ⟨fun name => (h.accepts name).trans (h'.accepts name),h.head.trans h'.head⟩

/-- What the loop over the units gives, from any tokens so far. -/
def Compiles (hasPattern : Bool) (units : List FlaggedUnit) : Prop :=
  (¬ WellFormed units ∧ ∃ message, compileUnits tokens hasPattern units=.error message) ∨
    WellFormed units ∧ ∃ read whole, Reading units read ∧ Same whole (tokens++read) ∧
      compileUnits tokens hasPattern units =
        .ok (if hasPattern || units.any isIntroducer then some whole else none)

/-- A unit that is no opening bracket adds its token and leaves the rest to the loop. -/
theorem Compiles.cons {tokens advanced : List PatternToken} {hasPattern now : Bool}
    {unit : FlaggedUnit} {rest : List FlaggedUnit} {token : PatternToken}
    (hunit : isActive '[' unit=false)
    (hstep : compileUnits tokens hasPattern (unit::rest)=compileUnits advanced now rest)
    (hnow : now=(hasPattern || isIntroducer unit))
    (hread : ∀ read, Reading rest read → Reading (unit::rest) (token::read))
    (hsame : ∀ read, Same (advanced++read) (tokens++token::read))
    (h : Compiles advanced now rest) : Compiles tokens hasPattern (unit::rest) := by
  rw [Compiles,wellFormed_cons hunit,hstep]
  refine h.imp_right (And.imp_right ?_)
  rintro ⟨read,whole,hreading,hwhole,hcomp⟩
  refine ⟨token::read,whole,hread read hreading,hwhole.trans (hsame read),?_⟩
  rw [hcomp,hnow,List.any_cons,Bool.or_assoc]

theorem same_concat (token : PatternToken) (read : List PatternToken) :
    Same (tokens++[token]++read) (tokens++token::read) := by
  rw [List.append_assoc,List.singleton_append]
  exact .rfl

theorem compiles (hasPattern : Bool) (units : List FlaggedUnit) :
    Compiles tokens hasPattern units := by
  induction tokens, hasPattern, units using compileUnits.induct with
  | case1 tokens hasPattern =>
    refine .inr ⟨.nil,[],tokens,reading_nil,?_,?_⟩
    · rw [List.append_nil]
      exact .rfl
    · rw [compileUnits,List.any_nil,Bool.or_false]
  | case2 tokens hasPattern unit rest hstar ih =>
    refine .cons (isActive_unique '[' (by decide) hstar) ?_ ?_ (fun _ => reading_star hstar)
      (same_pushSequence tokens) ih
    · rw [compileUnits,if_pos hstar]
    · rw [isIntroducer,hstar]
      simp
  | case3 tokens hasPattern unit rest hstar hmark ih =>
    refine .cons (isActive_unique '[' (by decide) hmark) ?_ ?_ (fun _ => reading_question hmark)
      (same_concat tokens _) ih
    · rw [compileUnits,if_neg hstar,if_pos hmark]
    · rw [isIntroducer,hmark]
      simp
  | case4 tokens hasPattern unit rest hstar hmark hopening message hclass =>
    refine .inl ⟨?_,message,?_⟩
    · rw [wellFormed_class_iff hopening]
      rintro ⟨token,next,hother,-⟩
      rw [hclass] at hother
      cases hother
    · rw [compileUnits,if_neg hstar,if_neg hmark,if_pos hopening]
      split <;> simp_all
  | case5 tokens hasPattern unit rest hstar hmark hopening token next hclass ih =>
    have hstep : compileUnits tokens hasPattern (unit::rest) =
        compileUnits (tokens++[token]) true next := by
      rw [compileUnits,if_neg hstar,if_neg hmark,if_pos hopening]
      split <;> simp_all
    have hwell : WellFormed (unit::rest) ↔ WellFormed next := by
      rw [wellFormed_class_iff hopening,hclass]
      simp
    rw [Compiles,hwell,hstep]
    refine ih.imp_right (And.imp_right ?_)
    rintro ⟨read,whole,hreading,hwhole,hcomp⟩
    refine ⟨token::read,whole,reading_class hopening hclass hreading,
      hwhole.trans (same_concat tokens token read),?_⟩
    rw [hcomp,List.any_cons,isIntroducer,hopening]
    simp
  | case6 tokens hasPattern unit rest hstar hmark hopening ih =>
    have hintr : isIntroducer unit=false := by
      simp [isIntroducer,hstar,hmark,hopening]
    refine .cons (Bool.eq_false_iff.2 hopening) ?_ ?_ (fun _ => reading_literal hintr)
      (same_concat tokens _) ih
    · rw [compileUnits,if_neg hstar,if_neg hmark,if_neg hopening]
    · rw [hintr,Bool.or_false]

/-- A component compiles if its classes are well formed, to a pattern for the names it matches, or
to none if no active operator is in it. -/
theorem compileComponent_of_wellFormed {units : List FlaggedUnit} (h : WellFormed units) :
    ∃ pattern, compileComponent units =
        .ok (if units.any isIntroducer then some pattern else none) ∧
      ∀ name, matchesComponent pattern name=true ↔ NameMatches units name := by
  obtain ⟨hnot,-⟩ | ⟨-,read,pattern,hreading,hsame,hcomp⟩ := compiles [] false units
  · exact absurd h hnot
  · refine ⟨pattern,hcomp,fun name => ?_⟩
    have haccs : matchSteps (pattern.map PatternToken.step) name=true ↔ Matches units name := by
      rw [matchSteps_iff,hsame.accepts,List.nil_append,hreading.accepts]
    have hhead : pattern.head?=some (.literal (ascii '.')) ↔
        (units.map Prod.fst).head?=some (ascii '.') := by
      rw [hsame.head,List.nil_append,hreading.hidden]
    unfold matchesComponent
    split
    · next hdot =>
      refine ⟨fun hfalse => (nomatch hfalse),fun hname => ?_⟩
      exact absurd (hhead.2 (hname.hidden hdot.1)) hdot.2
    · next hdot =>
      rw [haccs]
      refine ⟨fun hname => ⟨fun hfirst => ?_,hname⟩,NameMatches.whole⟩
      by_contra hunits
      exact hdot ⟨hfirst,fun hliteral => hunits (hhead.1 hliteral)⟩

theorem compileComponent_of_not_wellFormed {units : List FlaggedUnit} (h : ¬ WellFormed units) :
    ∃ message, compileComponent units=.error message := by
  obtain ⟨-,hmsg⟩ | ⟨hwell,-⟩ := compiles [] false units
  · exact hmsg
  · exact absurd hwell h

end Ash.PathnamePatterns
