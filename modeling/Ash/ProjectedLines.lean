import Ash.TextSlices

/-! # Lines shown for a match

A long line is shown around a match, cut between characters. -/

namespace Ash.ProjectedLines
open ByteCodecs TextSlices

def maxProjectedLineBytes : ℕ := 4*1024

def floorCharBoundary (text : Text) (index : ℕ) : Boundary text := floorBoundary text index

def ceilCharBoundary (text : Text) (index : ℕ) : Boundary text := ceilBoundary text index

/-- Where the shown part of a long line starts and stops. -/
def window (line : Text) (matchStart matchEnd : ℕ) : Boundary line × Boundary line :=
  let target := maxProjectedLineBytes - 6
  let before := target / 2
  let after := target - before
  let start := floorCharBoundary line (matchStart - before)
  let stop := ceilCharBoundary line (min (matchEnd+after) (byteLength line))
  if stop.1 - start.1 > target then (start,floorCharBoundary line (start.1+target))
  else (start,stop)

def ellipsis (cut : Prop) [Decidable cut] : Text := if cut then "...".toList else []

/-- The shown part of a line, and whether it was cut; a slice inside a character has no result. -/
def projectLine (line : Text) (matchStart matchEnd : ℕ) : Option (Text × Bool) :=
  if byteLength line ≤ maxProjectedLineBytes then some (line,false)
  else do
    let (start,stop) := window line matchStart matchEnd
    let shown ← slice line start.1 stop.1
    return (ellipsis (start.1≠0)++shown++ellipsis (stop.1≠byteLength line),true)

variable {line : Text} {matchStart matchEnd : ℕ}

theorem window_spec (hlong : maxProjectedLineBytes < byteLength line)
    (hmatch : matchStart ≤ matchEnd) (hend : matchEnd ≤ byteLength line) :
    (window line matchStart matchEnd).1.1 ≤ matchStart ∧
      min (matchStart+2039) matchEnd ≤ (window line matchStart matchEnd).2.1 ∧
      (window line matchStart matchEnd).2.1 ≤ (window line matchStart matchEnd).1.1+4090 := by
  have hmax : maxProjectedLineBytes=4096 := rfl
  rw [hmax] at hlong
  have hstart := floorBoundary_le line (matchStart - 2045)
  have hnear := @lt_floorBoundary_add line (matchStart - 2045) (by omega)
  have hstop := @le_ceilBoundary line (min (matchEnd+2045) (byteLength line)) (Nat.min_le_right ..)
  simp only [window,hmax,floorCharBoundary,ceilCharBoundary,Nat.reduceSub,Nat.reduceDiv]
  split
  · next hwide =>
    obtain ⟨left,right,hline,hleft⟩ :=
      (ceilBoundary line (min (matchEnd+2045) (byteLength line))).exists_append
    have hlength := congrArg byteLength hline
    rw [byteLength_append] at hlength
    have hfloor := floorBoundary_le line ((floorBoundary line (matchStart - 2045)).1+4090)
    have hclose := @lt_floorBoundary_add line ((floorBoundary line (matchStart - 2045)).1+4090)
      (by omega)
    dsimp only
    omega
  · dsimp only
    omega

/-- The window of a long line around a match. -/
theorem exists_window {before matched after : Text} (hline : line=before++(matched++after))
    (hlong : maxProjectedLineBytes < byteLength line) :
    ∃ front lead tail rest, before=front++lead ∧ matched++after=tail++rest ∧
      byteLength front =
        (window line (byteLength before) (byteLength (before++matched))).1.1 ∧
      byteLength (front++(lead++tail)) =
        (window line (byteLength before) (byteLength (before++matched))).2.1 ∧
      byteLength (lead++tail) ≤ 4090 ∧
      (byteLength matched ≤ 2039 → matched <+: tail) ∧ (matched≠[] → tail≠[]) := by
  have hmatched := byteLength_append before matched
  have hlength := congrArg byteLength hline
  simp only [byteLength_append] at hlength
  obtain ⟨hstart,hstop,hsize⟩ := @window_spec line (byteLength before) (byteLength (before++matched))
    hlong (by simp) (by rw [byteLength_append]; omega)
  generalize window line (byteLength before) (byteLength (before++matched))=bounds at *
  obtain ⟨front,back,hfront,hleft⟩ := bounds.1.exists_append
  obtain ⟨upto,rest,hupto,hright⟩ := bounds.2.exists_append
  obtain ⟨lead,rfl,-⟩ := exists_append_of_le (hfront.symm.trans hline) (by omega)
  obtain ⟨tail,rfl,htail⟩ := exists_append_of_le (hline.symm.trans hupto) (by omega)
  simp only [byteLength_append] at *
  refine ⟨front,lead,tail,rest,rfl,htail,hleft,by omega,by omega,?_,?_⟩
  · intro hmatched
    obtain ⟨beyond,rfl,-⟩ := exists_append_of_le htail (by omega)
    exact List.prefix_append ..
  · rintro hmatched rfl
    have := byteLength_eq_zero.not.2 hmatched
    rw [byteLength_nil] at *
    omega

theorem byteLength_ellipsis (cut : Prop) [Decidable cut] : byteLength (ellipsis cut) ≤ 3 := by
  unfold ellipsis
  split <;> decide

/-- A line shown for a match is short, has the match or its start, and marks what is cut. -/
theorem projectLine_contains (before matched after : Text) :
    let line := before++(matched++after)
    let shown := projectLine line (byteLength before) (byteLength (before++matched))
    (shown=some (line,false) ↔ byteLength line ≤ 4096) ∧
    ∃ text reduced, shown=some (text,reduced) ∧ byteLength text ≤ 4096 ∧
      (4096 < byteLength line → reduced=true ∧ ∃ front lead tail rest,
        before=front++lead ∧ matched++after=tail++rest ∧
        text=ellipsis (front≠[])++(lead++tail)++ellipsis (rest≠[]) ∧
        (byteLength matched ≤ 2039 → matched <+: tail) ∧ (matched≠[] → tail≠[])) := by
  intro line shown
  by_cases hshort : byteLength line ≤ 4096
  · have hshown : shown=some (line,false) := if_pos hshort
    exact ⟨iff_of_true hshown hshort,line,false,hshown,hshort,fun hlong => absurd hshort (by omega)⟩
  obtain ⟨front,lead,tail,rest,hbefore,htail,hstart,hstop,hsize,hcontains⟩ :=
    @exists_window line before matched after rfl (Nat.lt_of_not_le hshort)
  have hline : line=front++(lead++tail)++rest := by
    simp only [line,htail,hbefore,List.append_assoc]
  have hrest : byteLength (front++(lead++tail))=byteLength line ↔ rest=[] := by
    rw [hline,byteLength_append _ rest,Nat.left_eq_add,byteLength_eq_zero]
  have hslice := slice_append front (lead++tail) rest
  have hshown : shown=some (ellipsis (front≠[])++(lead++tail)++ellipsis (rest≠[]),true) := by
    simp only [shown,projectLine,if_neg (show ¬ byteLength line ≤ maxProjectedLineBytes from hshort)]
    rw [← hstart,← hstop]
    simp only [ne_eq,byteLength_eq_zero,hrest]
    rw [hline,hslice]
    rfl
  refine ⟨iff_of_false ?_ hshort,_,_,hshown,?_,fun _ => ⟨rfl,front,lead,tail,rest,hbefore,htail,
    rfl,hcontains⟩⟩
  · simp [hshown]
  · have hleft := byteLength_ellipsis (front≠[])
    have hright := byteLength_ellipsis (rest≠[])
    rw [byteLength_append,byteLength_append (ellipsis _)]
    omega

end Ash.ProjectedLines
