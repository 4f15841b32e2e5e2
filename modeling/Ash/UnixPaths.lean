import Ash.ByteCodecs
import Mathlib.Data.List.Induction

/-! # Unix paths

A path is a string of bytes.  Its components are what stands between the slashes, without empty
ones and without dots after the start.  The units of a path may carry more than their bytes, and
the components then keep what theirs carry. -/

namespace Ash.UnixPaths
open ByteCodecs

def slash : UInt8 := 47

def dot : UInt8 := 46

inductive Component where
  | rootDir
  | curDir
  | parentDir
  | normal (name : Bytes)
  deriving DecidableEq

def Component.bytes : Component → Bytes
  | .rootDir => [slash]
  | .curDir => [dot]
  | .parentDir => [dot,dot]
  | .normal name => name

/-- The component that a segment is, unless it is passed over. -/
def component (segment : Bytes) : Option Component :=
  if segment=[] ∨ segment=[dot] then none
  else if segment=[dot,dot] then some .parentDir
  else some (.normal segment)

section Units

variable {α : Type} (byte : α → UInt8)

def segments (units : List α) : List (List α) := units.splitOnP fun unit => byte unit == slash

/-- A root or a dot is a component at the start of a path. -/
def first (units : List α) : Option Component :=
  if (units.map byte).head?=some slash then some .rootDir
  else if (segments byte units).head?.map (List.map byte)=some [dot] then some .curDir
  else none

/-- A segment that is not passed over, with its units. -/
def piece (segment : List α) : Option (Component × List α) :=
  (component (segment.map byte)).map (·,segment)

/-- The components after the first slash or dot, with their units. -/
def body (units : List α) : List (Component × List α) := (segments byte units).filterMap (piece byte)

/-- The components of a path, each with its own units. -/
def located (units : List α) : List (Component × List α) :=
  ((first byte units).map (·,units.take 1)).toList++body byte units

end Units

def components (path : Bytes) : List Component :=
  (first id path).toList++(segments id path).filterMap component

def isAbsolute (path : Bytes) : Bool := path.head? == some slash

/-- An absolute path replaces the buffer. -/
def push (buffer path : Bytes) : Bytes :=
  if isAbsolute path then path
  else if buffer.getLast?.any (· != slash) then buffer++slash::path
  else buffer++path

/-- The first place where the needle stands. -/
def position {β : Type} [DecidableEq β] (needle : List β) : List β → Option ℕ
  | [] => if needle.isEmpty then some 0 else none
  | unit::rest =>
      if needle.isPrefixOf (unit::rest) then some 0 else (position needle rest).map (· + 1)

/-! ## Segments -/

/-- What stands between two slashes, or after the last one, and can be the name of an entry. -/
structure IsFileName (name : Bytes) : Prop where
  nonempty : name≠[]
  current : name≠[dot]
  parent : name≠[dot,dot]
  slash : slash∉name

theorem component_eq_some {segment : Bytes} {found : Component} (h : component segment=some found) :
    found.bytes=segment ∧ segment≠[] ∧ segment≠[dot] := by
  unfold component at h
  split at h
  · cases h
  · next hpassed =>
    obtain ⟨hnil,hdot⟩ := not_or.1 hpassed
    split at h
    · next hpar =>
      cases h
      exact ⟨hpar.symm,hnil,hdot⟩
    · cases h
      exact ⟨rfl,hnil,hdot⟩

variable {name path front : Bytes}

theorem IsFileName.component (h : IsFileName name) : component name=some (.normal name) := by
  rw [UnixPaths.component,if_neg (not_or.2 ⟨h.nonempty,h.current⟩),if_neg h.parent]

section Units

variable {α : Type} {byte : α → UInt8}

theorem segments_map (units : List α) :
    segments id (units.map byte)=(segments byte units).map (List.map byte) := by
  unfold segments
  induction units with
  | nil => rfl
  | cons unit units ih =>
    rw [List.map_cons,List.splitOnP_cons_eq_if_modifyHead,List.splitOnP_cons_eq_if_modifyHead,ih]
    by_cases hslash : (byte unit == slash)=true
    · simp [hslash]
    · simp only [id,hslash]
      cases units.splitOnP fun unit => byte unit == slash <;> rfl

theorem first_map (units : List α) : first id (units.map byte)=first byte units := by
  unfold first
  rw [segments_map,List.map_id,List.head?_map (l := segments byte units),Option.map_map]
  simp only [Function.comp_def,List.map_id]

theorem map_body (units : List α) :
    (body byte units).map Prod.fst=(segments id (units.map byte)).filterMap component := by
  rw [segments_map,List.filterMap_map,body,List.map_filterMap]
  refine congrArg (List.filterMap · _) (funext fun segment => ?_)
  rw [piece,Option.map_map]
  exact congrFun Option.map_id _

/-- The units stand beside the components of the bytes. -/
theorem map_located (units : List α) :
    (located byte units).map Prod.fst=components (units.map byte) := by
  rw [located,List.map_append,map_body,components,first_map]
  cases first byte units <;> rfl

theorem segments_of_no_slash {units : List α} (h : slash∉units.map byte) :
    segments byte units=[units] := by
  refine List.splitOnP_eq_singleton fun unit hunit => ?_
  refine beq_eq_false_iff_ne.2 fun hslash => h ?_
  rw [← hslash]
  exact List.mem_map_of_mem hunit

theorem segments_append_cons (front back : List α) {separator : α} (h : byte separator=slash) :
    segments byte (front++separator::back)=segments byte front++segments byte back :=
  List.splitOnP_append_cons _ _ (beq_iff_eq.2 h)

variable (byte) in
/-- Units are one segment, or a segment, a slash and further units. -/
@[elab_as_elim]
theorem segments_induction {motive : List α → Prop}
    (only : ∀ units, slash∉units.map byte → motive units)
    (more : ∀ front separator back, slash∉front.map byte → byte separator=slash →
      motive back → motive (front++separator::back)) (units : List α) : motive units := by
  -- the units that were passed since the last slash are carried along
  suffices hpassed : ∀ front : List α, slash∉front.map byte → motive (front++units) from
    hpassed [] List.not_mem_nil
  induction units with
  | nil =>
    intro front hfront
    exact only _ (by simpa using hfront)
  | cons unit units ih =>
    intro front hfront
    by_cases hslash : byte unit=slash
    · exact more front unit units hfront hslash (ih [] List.not_mem_nil)
    · have hlonger : slash∉(front++[unit]).map byte := by
        rw [List.map_append,List.mem_append,List.map_singleton,List.mem_singleton]
        exact not_or.2 ⟨hfront,fun heq => hslash heq.symm⟩
      simpa using ih (front++[unit]) hlonger

theorem body_of_no_slash {units : List α} (h : slash∉units.map byte) :
    body byte units=(piece byte units).toList := by
  rw [body,segments_of_no_slash h,List.filterMap_cons,List.filterMap_nil]
  cases piece byte units <;> rfl

variable {back : List α} {β : Type}

variable {front : List α} {needle : Bytes}

theorem body_append_cons {separator : α} (hfront : slash∉front.map byte)
    (h : byte separator=slash) :
    body byte (front++separator::back)=(piece byte front).toList++body byte back := by
  rw [body,segments_append_cons _ _ h,List.filterMap_append,← body,← body,body_of_no_slash hfront]

theorem body_slash {separator : α} (h : byte separator=slash) :
    body byte (separator::back)=body byte back := by
  have hnil : slash∉([] : List α).map byte := by simp
  exact body_append_cons hnil h

/-! ## The search for a component -/

theorem isPrefixOf_self_append [DecidableEq β] (needle rest : List β) :
    needle.isPrefixOf (needle++rest)=true :=
  List.isPrefixOf_iff_prefix.2 (List.prefix_append _ _)

theorem position_append [DecidableEq β] (needle rest : List β) :
    position needle (needle++rest)=some 0 := by
  cases hwhole : needle++rest with
  | nil => rw [(List.append_eq_nil_iff.1 hwhole).1]; rfl
  | cons unit units => rw [position,← hwhole,isPrefixOf_self_append]; rfl

/-- A needle without the unit does not start at it. -/
theorem position_cons_of_notMem [DecidableEq β] {needle rest : List β} {unit : β}
    (hneedle : needle≠[]) (hunit : unit∉needle) :
    position needle (unit::rest)=(position needle rest).map (· + 1) := by
  rw [position,if_neg]
  intro h
  cases needle with
  | nil => exact hneedle rfl
  | cons symbol needle =>
    have hhead := (List.cons_prefix_cons.1 (List.isPrefixOf_iff_prefix.1 h)).1
    exact hunit (hhead ▸ List.mem_cons_self)

/-- A needle that is more than a dot does not start at a dot before a slash. -/
theorem position_dot {rest : Bytes} (hneedle : needle≠[]) (hdot : needle≠[dot])
    (hslash : slash∉needle) :
    position needle (dot::slash::rest)=(position needle rest).map (· + 2) := by
  rw [position,if_neg,position_cons_of_notMem hneedle hslash,Option.map_map]
  · rfl
  · intro h
    match needle, hneedle with
    | [symbol], _ =>
      have hhead := (List.cons_prefix_cons.1 (List.isPrefixOf_iff_prefix.1 h)).1
      exact hdot (by rw [hhead])
    | symbol::next::needle, _ =>
      have htail := (List.cons_prefix_cons.1 (List.isPrefixOf_iff_prefix.1 h)).2
      have hnext := (List.cons_prefix_cons.1 htail).1
      exact hslash (by simp [hnext])

/-- A segment that is passed over is empty or a dot. -/
theorem position_passed {separator : α} (hpassed : piece byte front=none)
    (hsep : byte separator=slash) (hneedle : needle≠[]) (hdot : needle≠[dot])
    (hslash : slash∉needle) :
    position needle ((front++separator::back).map byte) =
      (position needle (back.map byte)).map (· + (front.length+1)) := by
  have hfront : front.map byte=[] ∨ front.map byte=[dot] := by
    by_contra hfront
    rw [piece,component,if_neg hfront] at hpassed
    split at hpassed <;> cases hpassed
  have hlen : front.length=(front.map byte).length := (List.length_map _).symm
  rw [List.map_append,List.map_cons,hsep,hlen]
  obtain hfront | hfront := hfront
  · rw [hfront]
    exact position_cons_of_notMem hneedle hslash
  · rw [hfront]
    exact position_dot hneedle hdot hslash

/-- The first component of what is left is found where its own units are. -/
theorem body_eq_cons (units : List α) {found : Component} {own : List α}
    {more : List (Component × List α)} (h : body byte units=(found,own)::more) :
    component (own.map byte)=some found ∧ slash∉own.map byte ∧
      ∃ front back, units=front++own++back ∧
        position found.bytes (units.map byte)=some front.length ∧ body byte back=more := by
  induction units using segments_induction byte with
  | only units hunits =>
    rw [body_of_no_slash hunits,piece] at h
    cases hcomp : component (units.map byte) with
    | none => simp [hcomp] at h
    | some only =>
      obtain ⟨⟨rfl,rfl⟩,rfl⟩ : (only=found ∧ units=own) ∧ []=more := by
        simpa [hcomp] using h
      refine ⟨hcomp,hunits,[],[],by simp,?_,rfl⟩
      rw [(component_eq_some hcomp).1]
      have hpos := position_append (units.map byte) []
      rwa [List.append_nil] at hpos
  | more front separator back hfront hsep ih =>
    rw [body_append_cons hfront hsep] at h
    cases hpiece : piece byte front with
    | some here =>
      rw [hpiece] at h
      obtain ⟨rfl,rfl⟩ : here=(found,own) ∧ body byte back=more := by simpa using h
      obtain ⟨_,hcomp,hpair⟩ := Option.map_eq_some_iff.1 hpiece
      obtain ⟨rfl,rfl⟩ := Prod.mk.inj hpair
      refine ⟨hcomp,hfront,[],separator::back,by simp,?_,?_⟩
      · rw [List.map_append,← (component_eq_some hcomp).1,position_append]
        rfl
      · exact body_slash hsep
    | none =>
      rw [hpiece] at h
      obtain ⟨hcomp,hslash,before,after,rfl,hpos,hmore⟩ := ih h
      obtain ⟨hbytes,hnil,hdot⟩ := component_eq_some hcomp
      refine ⟨hcomp,hslash,front++separator::before,after,by simp,?_,hmore⟩
      rw [← hbytes] at hslash hnil hdot
      rw [position_passed hpiece hsep hnil hdot hslash,hpos]
      simp
      omega

/-- A root or a dot at the start is passed over by the rest. -/
theorem body_drop_first {units : List α} {start : Component} (h : first byte units=some start) :
    (units.take 1).map byte=start.bytes ∧ (start=.rootDir ∨ start=.curDir) ∧
      body byte (units.drop 1)=body byte units := by
  unfold first at h
  split at h
  · next hroot =>
    cases h
    cases units with
    | nil => cases hroot
    | cons unit units =>
      have hunit : byte unit=slash := Option.some.inj hroot
      exact ⟨by simp [hunit,Component.bytes],.inl rfl,(body_slash hunit).symm⟩
  · split at h
    · next hdot =>
      cases h
      cases units using segments_induction byte with
      | only units hunits =>
        rw [segments_of_no_slash hunits] at hdot
        obtain ⟨unit,rfl,hunit⟩ := List.map_eq_singleton_iff.1 (Option.some.inj hdot)
        refine ⟨by simp [hunit,Component.bytes],.inr rfl,?_⟩
        rw [body_of_no_slash hunits,piece,List.map_singleton,hunit]
        rfl
      | more front separator back hfront hsep =>
        rw [segments_append_cons _ _ hsep,segments_of_no_slash hfront] at hdot
        obtain ⟨unit,rfl,hunit⟩ := List.map_eq_singleton_iff.1 (Option.some.inj hdot)
        refine ⟨by simp [hunit,Component.bytes],.inr rfl,?_⟩
        rw [body_append_cons hfront hsep,piece,List.map_singleton,hunit]
        exact body_slash hsep
    · cases h

/-- A unit that is neither a slash nor a dot belongs to a component. -/
theorem exists_mem_body {unit : α} (units : List α) (hunit : unit∈units)
    (hslash : byte unit≠slash) (hdot : byte unit≠dot) :
    ∃ part∈body byte units, unit∈part.2 := by
  have hpiece {segment : List α} (hseg : unit∈segment) :
      ∃ part∈(piece byte segment).toList, unit∈part.2 := by
    have hmem : byte unit∈segment.map byte := List.mem_map_of_mem hseg
    have hkept : ¬ (segment.map byte=[] ∨ segment.map byte=[dot]) := by
      rintro (heq | heq)
      · rw [heq] at hmem
        exact List.not_mem_nil hmem
      · rw [heq] at hmem
        exact hdot (List.mem_singleton.1 hmem)
    rw [piece,component,if_neg hkept]
    split
    · exact ⟨_,List.mem_singleton.2 rfl,hseg⟩
    · exact ⟨_,List.mem_singleton.2 rfl,hseg⟩
  induction units using segments_induction byte with
  | only units hunits =>
    rw [body_of_no_slash hunits]
    exact hpiece hunit
  | more front separator back hfront hsep ih =>
    rw [body_append_cons hfront hsep]
    rcases List.mem_append.1 hunit with hmem | hmem
    · obtain ⟨part,hpart,hmem⟩ := hpiece hmem
      exact ⟨part,List.mem_append_left _ hpart,hmem⟩
    · rcases List.mem_cons.1 hmem with rfl | hmem
      · exact absurd hsep hslash
      · obtain ⟨part,hpart,hmem⟩ := ih hmem
        exact ⟨part,List.mem_append_right _ hpart,hmem⟩

/-- The components after the start are what their segments say, and made of units of the path. -/
theorem mem_body (units : List α) {part : Component × List α} (h : part∈body byte units) :
    component (part.2.map byte)=some part.1 ∧ slash∉part.2.map byte ∧ part.2 ⊆ units := by
  generalize hbody : body byte units=parts at h
  induction parts generalizing units with
  | nil => exact absurd h List.not_mem_nil
  | cons found parts ih =>
    obtain ⟨hcomp,hslash,front,back,rfl,-,hback⟩ := body_eq_cons units hbody
    rcases List.mem_cons.1 h with rfl | h
    · exact ⟨hcomp,hslash,fun _ hmem => by simp [hmem]⟩
    · obtain ⟨hcomp,hslash,hsubset⟩ := ih back hback h
      exact ⟨hcomp,hslash,fun _ hmem => List.mem_append_right _ (hsubset hmem)⟩

end Units

/-! ## Pushing components -/

/-- A component that may stand anywhere after the start of a path. -/
def IsInner (part : Component) : Prop := component part.bytes=some part ∧ slash∉part.bytes

theorem isInner_of_isFileName (h : IsFileName name) : IsInner (.normal name) :=
  ⟨h.component,h.slash⟩

theorem isAbsolute_of_notMem (h : slash∉path) : isAbsolute path=false := by
  cases path with
  | nil => rfl
  | cons unit path => exact beq_eq_false_iff_ne.2 fun heq => h (by simp [Option.some.inj heq])

theorem segments_slash (front back : Bytes) :
    segments id (front++slash::back)=segments id front++segments id back :=
  segments_append_cons front back rfl

theorem segments_single (h : slash∉path) : segments id path=[path] :=
  segments_of_no_slash (by rwa [List.map_id])

/-- What comes after a slash does not change how a path starts. -/
theorem first_append_slash (hfront : front≠[]) (back : Bytes) :
    first id (front++slash::back)=first id front := by
  have hsegs : segments id front≠[] := List.splitOnP_ne_nil _ _
  rw [first,first,segments_slash,List.map_id,List.map_id]
  obtain ⟨unit,front,rfl⟩ := List.exists_cons_of_ne_nil hfront
  obtain ⟨segment,more,hmore⟩ := List.exists_cons_of_ne_nil hsegs
  rw [hmore]
  rfl

theorem first_slash (path : Bytes) : first id (slash::path)=some .rootDir := by
  rw [first,List.map_id,List.head?_cons,if_pos rfl]

theorem components_append_slash {back : Bytes} :
    components (front++slash::back) =
      (first id (front++[slash])).toList++(segments id front).filterMap component ++
        (segments id back).filterMap component := by
  have hfirst : first id (front++slash::back)=first id (front++[slash]) := by
    by_cases hfront : front=[]
    · subst hfront
      rw [List.nil_append,List.nil_append,first_slash,first_slash]
    · rw [first_append_slash hfront,first_append_slash hfront]
  rw [components,hfirst,segments_slash,List.filterMap_append,List.append_assoc]

variable {part : Component}

theorem segments_inner (h : IsInner part) :
    (segments id part.bytes).filterMap component=[part] := by
  rw [segments_single h.2]
  simp [h.1]

theorem components_inner (h : IsInner part) : components part.bytes=[part] := by
  obtain ⟨-,hnil,hdot⟩ := component_eq_some h.1
  have hfirst : first id part.bytes=none := by
    rw [first,segments_single h.2,List.map_id,
      if_neg (fun hhead => h.2 (List.mem_of_mem_head? hhead) : ¬ part.bytes.head?=some slash),
      if_neg]
    simpa using hdot
  rw [components,hfirst,segments_inner h]
  rfl

/-- A component that is pushed becomes the last one. -/
theorem components_push (buffer : Bytes) (h : IsInner part) :
    components (push buffer part.bytes)=components buffer++[part] := by
  rw [push,isAbsolute_of_notMem h.2,if_neg Bool.false_ne_true]
  cases buffer using List.reverseRecOn with
  | nil => exact components_inner h
  | append_singleton front last =>
    rw [List.getLast?_concat,Option.any_some]
    by_cases hlast : last=slash
    · subst hlast
      rw [if_neg (by simp),List.append_assoc,List.singleton_append,components_append_slash,
        components_append_slash,segments_inner h]
      simp [segments,component]
    · rw [if_pos (by simpa using hlast),components_append_slash,segments_inner h,
        first_append_slash (by simp)]
      rfl

/-- The path with the given components. -/
def render (parts : List Component) : Bytes := parts.foldl (fun buffer part => push buffer part.bytes) []

theorem components_foldl_push (parts : List Component) (h : ∀ part∈parts, IsInner part)
    (buffer : Bytes) : components (parts.foldl (fun buffer part => push buffer part.bytes) buffer) =
      components buffer++parts := by
  induction parts generalizing buffer with
  | nil => rw [List.foldl_nil,List.append_nil]
  | cons part parts ih =>
    have hpart := h part List.mem_cons_self
    rw [List.foldl_cons,ih (fun part hmem => h part (List.mem_cons_of_mem _ hmem)),
      components_push buffer hpart,List.append_assoc,List.singleton_append]

/-- A root or a dot, if there is one, and inner components after it. -/
def IsCanonical (parts : List Component) : Prop :=
  ∃ start rest, parts=start++rest ∧ (start=[] ∨ start=[.rootDir] ∨ start=[.curDir]) ∧
    ∀ part∈rest, IsInner part

theorem components_render {parts : List Component} (h : IsCanonical parts) :
    components (render parts)=parts := by
  obtain ⟨start,rest,rfl,hstart,hrest⟩ := h
  rw [render,List.foldl_append,components_foldl_push rest hrest]
  obtain rfl | rfl | rfl := hstart <;> rfl

/-- Different components make different paths. -/
theorem render_injective {left right : List Component} (hleft : IsCanonical left)
    (hright : IsCanonical right) (h : render left=render right) : left=right := by
  rw [← components_render hleft,h,components_render hright]

end Ash.UnixPaths
