import Ash.OutputReducers
import Ash.RunEncodings

/-! # Runs of equal lines

The reduction of repeated lines works on partitions and joins them at their boundaries.  What it
returns is what the maximal runs of the whole text become one by one. -/

namespace Ash.LineReduction
open ByteCodecs OutputReducers RunEncodings TextSlices

/-! ## The rule for one run -/

def copies (count : ℕ) (line : Text) : Text := (List.replicate count line).flatten

/-- A run of at least two complete lines, with a marker that is shorter than all but one. -/
def Collapses (run : Text × ℕ) : Prop :=
  2 ≤ run.2 ∧ run.1.getLast?=some '\n' ∧
    byteLength (lineMarker run.2) < byteLength (copies (run.2 - 1) run.1)

instance (run : Text × ℕ) : Decidable (Collapses run) := inferInstanceAs (Decidable (_ ∧ _ ∧ _))

def runText (run : Text × ℕ) : Text :=
  if Collapses run then run.1++lineMarker run.2 else copies run.2 run.1

variable (runs : List (Text × ℕ))

/-- Every run by the rule, and how many of them and of their lines went. -/
def reduction : RepeatedLineReduction where
  text := runs.flatMap runText
  collapsedRuns := runs.countP fun run => Collapses run
  omittedLines := ((runs.filter fun run => Collapses run).map fun run => run.2 - 1).sum

theorem byteLength_copies (count : ℕ) (line : Text) :
    byteLength (copies count line)=byteLength line*count := by
  induction count with
  | zero => rfl
  | succ count ih =>
    rw [copies,List.replicate_succ,List.flatten_cons,byteLength_append,← copies,ih]
    ring

theorem byteLength_runText (run : Text × ℕ) :
    byteLength (runText run) ≤ byteLength (copies run.2 run.1) ∧
      (Collapses run → byteLength (runText run) < byteLength (copies run.2 run.1)) := by
  unfold runText
  split
  · next hrun =>
    obtain ⟨htwo,-,hmarker⟩ := hrun
    obtain ⟨count,hcount⟩ := Nat.exists_eq_add_of_le htwo
    have hless : byteLength (run.1++lineMarker run.2) < byteLength (copies run.2 run.1) := by
      rw [byteLength_copies,hcount,show 2+count - 1=1+count by omega] at hmarker
      rw [byteLength_append,byteLength_copies,hcount]
      calc byteLength run.1+byteLength (lineMarker (2+count))
          < byteLength run.1+byteLength run.1*(1+count) := Nat.add_lt_add_left hmarker _
        _=byteLength run.1*(2+count) := by ring
    exact ⟨hless.le,fun _ => hless⟩
  · next hrun => exact ⟨le_rfl,fun h => absurd h hrun⟩

/-- What runs stand for, as a text. -/
theorem flatten_expand : (expand runs).flatten=runs.flatMap fun run => copies run.2 run.1 := by
  induction runs with
  | nil => rfl
  | cons run runs ih =>
    rw [expand_cons,List.flatten_append,ih,List.flatMap_cons]
    rfl

theorem byteLength_reduction :
    byteLength (reduction runs).text ≤ byteLength (expand runs).flatten ∧
      ((reduction runs).reduced=true →
        byteLength (reduction runs).text < byteLength (expand runs).flatten) := by
  rw [flatten_expand]
  simp only [reduction,RepeatedLineReduction.reduced,bne_iff_ne]
  induction runs with
  | nil => simp
  | cons run runs ih =>
    obtain ⟨hle,hlt⟩ := byteLength_runText run
    obtain ⟨hrest,hless⟩ := ih
    rw [List.flatMap_cons,List.flatMap_cons,byteLength_append,byteLength_append,List.countP_cons]
    refine ⟨Nat.add_le_add hle hrest,fun hcount => ?_⟩
    by_cases hrun : Collapses run
    · exact Nat.add_lt_add_of_lt_of_le (hlt hrun) hrest
    · refine Nat.add_lt_add_of_le_of_lt hle (hless fun hzero => hcount ?_)
      simp [hrun,hzero]

/-- Where nothing collapses the text stays. -/
theorem reduction_text_of_not_reduced {runs : List (Text × ℕ)}
    (h : (reduction runs).reduced=false) : (reduction runs).text=(expand runs).flatten := by
  rw [flatten_expand]
  have hnone : ∀ run∈runs, ¬ Collapses run := by
    simpa [reduction,RepeatedLineReduction.reduced,List.countP_eq_zero] using h
  refine List.flatMap_congr fun run hrun => ?_
  rw [runText,if_neg (hnone run hrun)]

/-! ## Runs by index -/

section Indexed

/-- The line of a run, if there is one, and its count. -/
def value (lines : List Text) (base : ℕ) (run : Run) : Option Text × ℕ :=
  (lines[run.line - base]?,run.count)

theorem map_pushRun (lines : List Text) (base : ℕ) (runs : List Run) (run : Run) :
    (pushRun lines base runs run).map (value lines base) =
      collect (runs.map (value lines base)) (value lines base run) := by
  cases runs with
  | nil => rfl
  | cons previous older =>
    rw [pushRun,List.map_cons,collect]
    by_cases hsame : (value lines base previous).1=(value lines base run).1
    · have hlines : lines[previous.line - base]?=lines[run.line - base]? := hsame
      rw [if_pos hsame,if_pos hlines]
      rfl
    · have hlines : lines[previous.line - base]?≠lines[run.line - base]? := hsame
      rw [if_neg hsame,if_neg hlines]
      rfl

theorem map_foldl_pushRun (lines : List Text) (base : ℕ) (found runs : List Run) :
    (runs.foldl (pushRun lines base) found).map (value lines base) =
      (runs.map (value lines base)).foldl collect (found.map (value lines base)) := by
  induction runs generalizing found with
  | nil => rfl
  | cons run runs ih => rw [List.foldl_cons,ih,map_pushRun,List.map_cons,List.foldl_cons]

/-- Runs keep the places and at least the counts of those that went into them. -/
theorem forall_foldl_pushRun {p : ℕ → Prop} (lines : List Text) (base : ℕ) (found runs : List Run)
    (hfound : ∀ run∈found, p run.line ∧ 0 < run.count)
    (hruns : ∀ run∈runs, p run.line ∧ 0 < run.count) :
    ∀ run∈runs.foldl (pushRun lines base) found, p run.line ∧ 0 < run.count := by
  induction runs generalizing found with
  | nil => exact hfound
  | cons run runs ih =>
    obtain ⟨hrun,hruns⟩ := List.forall_mem_cons.1 hruns
    refine ih _ ?_ hruns
    cases found with
    | nil => exact List.forall_mem_singleton.2 hrun
    | cons previous older =>
      obtain ⟨hprev,holder⟩ := List.forall_mem_cons.1 hfound
      rw [pushRun]
      split
      · exact List.forall_mem_cons.2 ⟨⟨hprev.1,Nat.add_pos_left hprev.2 _⟩,holder⟩
      · exact List.forall_mem_cons.2 ⟨hrun,hfound⟩

variable (chunk : List Text)

/-- The runs that one line each make up a chunk. -/
def lineRuns (base : ℕ) : List Run :=
  (List.range chunk.length).map fun offset => ⟨base+offset,1⟩

theorem localRuns_eq (base : ℕ) :
    localRuns chunk base=((lineRuns chunk base).foldl (pushRun chunk base) []).reverse := by
  rw [lineRuns,List.foldl_map,localRuns]

theorem mem_localRuns {chunk : List Text} {base : ℕ} {run : Run} (h : run∈localRuns chunk base) :
    (base ≤ run.line ∧ run.line < base+chunk.length) ∧ 0 < run.count := by
  rw [localRuns_eq,List.mem_reverse] at h
  refine forall_foldl_pushRun (p := fun line => base ≤ line ∧ line < base+chunk.length)
    chunk base [] _ (by simp) ?_ run h
  intro other hother
  obtain ⟨offset,hoffset,rfl⟩ := List.mem_map.1 hother
  rw [List.mem_range] at hoffset
  exact ⟨⟨Nat.le_add_right _ _,Nat.add_lt_add_left hoffset _⟩,Nat.one_pos⟩

theorem expand_lineRuns (base : ℕ) :
    expand ((lineRuns chunk base).map (value chunk base))=chunk.map some := by
  have hvals : expand ((lineRuns chunk base).map (value chunk base)) =
      (List.range chunk.length).map fun offset => chunk[offset]? := by
    simp only [lineRuns,List.map_map,expand,List.flatMap_map,Function.comp_apply,value,
      Nat.add_sub_cancel_left,List.replicate_one]
    exact List.map_eq_flatMap.symm
  rw [hvals]
  refine List.ext_getElem (by simp) fun index hindex _ => ?_
  have hins : index < chunk.length := by simpa using hindex
  simp [hins]

theorem isRuns_localRuns (base : ℕ) :
    IsRuns (chunk.map some) ((localRuns chunk base).map (value chunk base)) := by
  rw [localRuns_eq,List.map_reverse,map_foldl_pushRun,← expand_lineRuns chunk base]
  refine isRuns_foldl_collect _ fun run hrun => ?_
  obtain ⟨_,hline,rfl⟩ := List.mem_map.1 hrun
  obtain ⟨offset,-,rfl⟩ := List.mem_map.1 hline
  exact Nat.one_pos

/-! ## Partitions -/

theorem flatten_chunks (lines : List Text) (size count : ℕ) :
    ((List.range count).map fun partition => (lines.drop (partition*size)).take size).flatten =
      lines.take (count*size) := by
  induction count with
  | zero => simp
  | succ count ih =>
    rw [List.range_succ,List.map_append,List.flatten_append,ih,Nat.succ_mul,List.take_add]
    simp

/-- The values of the runs of a chunk are those of its lines in the whole text. -/
theorem expand_partition {lines chunk : List Text} {base : ℕ}
    (hchunk : ∀ offset < chunk.length, chunk[offset]?=lines[base+offset]?) :
    expand ((localRuns chunk base).map (value lines 0))=chunk.map some := by
  have hvals : (localRuns chunk base).map (value lines 0) =
      (localRuns chunk base).map (value chunk base) := by
    refine List.map_congr_left fun run hrun => ?_
    obtain ⟨⟨hle,hlt⟩,-⟩ := mem_localRuns hrun
    have hline := hchunk (run.line - base) (by omega)
    rw [Nat.add_sub_cancel' hle] at hline
    rw [value,value,hline,Nat.sub_zero]
  rw [hvals]
  exact (isRuns_localRuns chunk base).expands

theorem mem_linePartitions {threshold size : ℕ} {lines : List Text} {runs : List Run}
    (h : runs∈linePartitions threshold size lines) {run : Run} (hrun : run∈runs) :
    0 < run.count := by
  unfold linePartitions at h
  split at h
  · obtain ⟨partition,-,rfl⟩ := List.mem_map.1 h
    exact (mem_localRuns hrun).2
  · obtain rfl := List.mem_singleton.1 h
    exact (mem_localRuns hrun).2

theorem expand_linePartitions (threshold : ℕ) {size : ℕ} (hsize : 0 < size) (lines : List Text) :
    expand ((linePartitions threshold size lines).flatten.map (value lines 0)) =
      lines.map some := by
  unfold linePartitions
  split
  · have hparts : ∀ partition∈List.range ((lines.length+size - 1) / size),
        expand ((localRuns ((lines.drop (partition*size)).take size) (partition*size)).map
          (value lines 0))=((lines.drop (partition*size)).take size).map some := by
      intro partition _
      refine expand_partition fun offset hoffset => ?_
      rw [List.length_take] at hoffset
      rw [List.getElem?_take_of_lt (by omega),List.getElem?_drop]
    have hall : lines.length ≤ (lines.length+size - 1) / size*size := by
      have hdiv := Nat.div_add_mod' (lines.length+size - 1) size
      have hmod := Nat.mod_lt (lines.length+size - 1) hsize
      omega
    rw [List.map_flatten,expand_flatten,List.map_map,List.map_map]
    calc _=(((List.range ((lines.length+size - 1) / size)).map fun partition =>
          (lines.drop (partition*size)).take size).map (List.map some)).flatten := by
            rw [List.map_map]
            exact congrArg List.flatten (List.map_congr_left hparts)
      _=lines.map some := by rw [← List.map_flatten,flatten_chunks,List.take_of_length_le hall]
  · rw [List.flatten_singleton]
    exact expand_partition fun offset _ => by rw [Nat.zero_add]

theorem isRuns_mergeRuns (threshold : ℕ) {size : ℕ} (hsize : 0 < size) (lines : List Text) :
    IsRuns (lines.map some)
      ((mergeRuns lines (linePartitions threshold size lines)).map (value lines 0)) := by
  rw [mergeRuns,List.map_reverse,map_foldl_pushRun,← expand_linePartitions threshold hsize]
  refine isRuns_foldl_collect _ fun run hrun => ?_
  obtain ⟨_,hmem,rfl⟩ := List.mem_map.1 hrun
  obtain ⟨runs,hruns,hmem⟩ := List.mem_flatten.1 hmem
  exact mem_linePartitions hruns hmem

/-- Runs of lines that are there are runs of lines. -/
theorem exists_runs {lines : List Text} {indexed : List (Option Text × ℕ)}
    (h : IsRuns (lines.map some) indexed) :
    ∃ runs : List (Text × ℕ), indexed=runs.map (Prod.map some id) ∧ IsRuns lines runs := by
  have hidx : indexed=(indexed.map fun run => (run.1.getD [],run.2)).map
      (Prod.map some id) := by
    rw [List.map_map]
    refine (List.map_id indexed).symm.trans (List.map_congr_left fun run hrun => ?_)
    have hmem := mem_expand hrun (h.positive run hrun)
    rw [h.expands] at hmem
    obtain ⟨line,-,hline⟩ := List.mem_map.1 hmem
    simp only [Function.comp_apply,Prod.map_apply,id,← hline,Option.getD_some]
    exact Prod.ext hline.symm rfl
  rw [hidx] at h
  exact ⟨_,hidx,h.of_map (Option.some_injective _)⟩

/-! ## The text of the runs -/

theorem collapses_iff {run : Text × ℕ} : Collapses run ↔ 2 ≤ run.2 ∧ run.1.getLast?=some '\n' ∧
    byteLength (lineMarker run.2) < byteLength run.1*(run.2 - 1) := by
  rw [Collapses,byteLength_copies]

/-- One run more. -/
def RepeatedLineReduction.add (found : RepeatedLineReduction) (run : Text × ℕ) :
    RepeatedLineReduction :=
  if Collapses run then
    ⟨found.text++runText run,found.collapsedRuns+1,found.omittedLines+(run.2 - 1)⟩
  else { found with text := found.text++runText run }

theorem encodeRun_eq {lines : List Text} {found : RepeatedLineReduction} {run : Run} {line : Text}
    (hline : lines[run.line]?=some line) (hcount : 0 < run.count) :
    encodeRun lines found run=RepeatedLineReduction.add found (line,run.count) := by
  have hget : lines.getD run.line []=line := by
    rw [List.getD_eq_getElem?_getD,hline,Option.getD_some]
  rw [encodeRun,hget,RepeatedLineReduction.add]
  by_cases hone : run.count=1
  · have hnot : ¬ Collapses (line,run.count) := fun h => by
      have htwo : 2 ≤ run.count := h.1
      omega
    rw [if_neg hnot,runText,if_neg hnot]
    simp [hone,copies]
  · have hcol : Collapses (line,run.count) ↔ line.getLast?=some '\n' ∧
        byteLength (lineMarker run.count) < byteLength line*(run.count - 1) := by
      rw [collapses_iff]
      exact and_iff_right (show 2 ≤ run.count by omega)
    simp only [if_neg hone,← hcol,runText]
    split
    · rw [List.append_assoc]
    · rfl

theorem foldl_add (runs : List (Text × ℕ)) (found : RepeatedLineReduction) :
    runs.foldl RepeatedLineReduction.add found =
      ⟨found.text++(reduction runs).text,found.collapsedRuns+(reduction runs).collapsedRuns,
        found.omittedLines+(reduction runs).omittedLines⟩ := by
  induction runs generalizing found with
  | nil => simp [reduction]
  | cons run runs ih =>
    rw [List.foldl_cons,ih,RepeatedLineReduction.add]
    by_cases hrun : Collapses run
    · simp only [reduction,List.flatMap_cons,List.countP_cons,List.filter_cons,hrun,
        decide_true,if_true,List.map_cons,List.sum_cons,List.append_assoc,
        RepeatedLineReduction.mk.injEq,true_and]
      omega
    · simp [hrun,reduction]

theorem encodeRuns_eq {lines : List Text} {indexed : List Run} {runs : List (Text × ℕ)}
    (hvals : indexed.map (value lines 0)=runs.map (Prod.map some id))
    (hposv : ∀ run∈runs, 0 < run.2) : encodeRuns lines indexed=reduction runs := by
  have hfold : ∀ found, indexed.foldl (encodeRun lines) found =
      runs.foldl RepeatedLineReduction.add found := by
    induction indexed generalizing runs with
    | nil =>
      obtain rfl := List.map_eq_nil_iff.1 hvals.symm
      exact fun _ => rfl
    | cons run indexed ih =>
      obtain ⟨first,rest,rfl,hfirst,hrest⟩ := List.map_eq_cons_iff.1 hvals.symm
      obtain ⟨hpos,hposv⟩ := List.forall_mem_cons.1 hposv
      have hline : lines[run.line]?=some first.1 := (congrArg Prod.fst hfirst).symm
      have hcount : run.count=first.2 := (congrArg Prod.snd hfirst).symm
      intro found
      rw [List.foldl_cons,List.foldl_cons,encodeRun_eq hline (hcount ▸ hpos),hcount,
        ih hrest.symm hposv]
  rw [encodeRuns,hfold,foldl_add]
  simp

end Indexed

/-! ## The whole reduction -/

/-- A text of at most one line is its own reduction. -/
theorem reduction_of_short {lines : List Text} {runs : List (Text × ℕ)} (hlines : lines.length < 2)
    (h : IsRuns lines runs) : reduction runs=unchanged lines.flatten := by
  have hcount : ∀ run∈runs, ¬ Collapses run := by
    intro run hrun hcol
    have hle : run.2 ≤ lines.length := h.expands ▸ count_le_length hrun
    have htwo := hcol.1
    omega
  have hnone : (reduction runs).collapsedRuns=0 :=
    List.countP_eq_zero.2 fun run hrun => by simpa using hcount run hrun
  have hlines : (reduction runs).omittedLines=0 := by
    have hfilter : (runs.filter fun run => Collapses run)=[] :=
      List.filter_eq_nil_iff.2 fun run hrun => by simpa using hcount run hrun
    simp only [reduction,hfilter]
    rfl
  have htext : (reduction runs).text=lines.flatten := by
    rw [← h.expands]
    exact reduction_text_of_not_reduced (by rw [RepeatedLineReduction.reduced,hnone]; rfl)
  calc reduction runs
      = ⟨(reduction runs).text,(reduction runs).collapsedRuns,(reduction runs).omittedLines⟩ := rfl
    _=unchanged lines.flatten := by rw [htext,hnone,hlines,unchanged]

theorem collapseLinesWith_eq (threshold : ℕ) {size : ℕ} (hsize : 0 < size) (text : Text) :
    ∃ runs, IsRuns (splitInclusive text) runs ∧
      collapseLinesWith threshold size text=reduction runs := by
  obtain ⟨runs,hvals,hruns⟩ :=
    exists_runs (isRuns_mergeRuns threshold hsize (splitInclusive text))
  refine ⟨runs,hruns,?_⟩
  rw [collapseLinesWith]
  split
  · next hshort => rw [reduction_of_short hshort hruns,flatten_splitInclusive]
  · exact encodeRuns_eq hvals hruns.positive

/-- The reduction of a text, with any partition: what its maximal runs become one by one. -/
theorem collapseLinesWith_runs (threshold : ℕ) {size : ℕ} (hsize : 0 < size) (text : Text) :
    ∃ runs, IsRuns (splitInclusive text) runs ∧
      collapseLinesWith threshold size text=reduction runs ∧
      collapseRepeatedLines text=reduction runs ∧
      byteLength (reduction runs).text ≤ byteLength text ∧
      ((reduction runs).text=text ↔ (reduction runs).reduced=false) := by
  obtain ⟨runs,hruns,heq⟩ := collapseLinesWith_eq threshold hsize text
  have hsrc : collapseRepeatedLines text=reduction runs := by
    obtain ⟨others,hothers,hother⟩ :=
      collapseLinesWith_eq parallelLineThreshold (by decide : 0 < partitionLines) text
    rw [hruns.unique hothers]
    exact hother
  have htext : (expand runs).flatten=text := by rw [hruns.expands,flatten_splitInclusive]
  obtain ⟨hle,hless⟩ := byteLength_reduction runs
  have hkept := @reduction_text_of_not_reduced runs
  rw [htext] at hle hless hkept
  refine ⟨runs,hruns,heq,hsrc,hle,fun hsame => ?_,hkept⟩
  refine Bool.eq_false_iff.2 fun hred => ?_
  have hlt := hless hred
  rw [hsame] at hlt
  exact lt_irrefl _ hlt

/-- Four equal lines, taken apart into partitions of one line. -/
theorem collapseLinesWith_single : ∃ runs, IsRuns (splitInclusive "ab\nab\nab\nab\n".toList) runs ∧
    collapseLinesWith 2 1 "ab\nab\nab\nab\n".toList=reduction runs := by
  obtain ⟨runs,hruns,heq,-⟩ :=
    collapseLinesWith_runs 2 Nat.one_pos "ab\nab\nab\nab\n".toList
  exact ⟨runs,hruns,heq⟩

end Ash.LineReduction
