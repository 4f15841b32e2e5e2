import Ash.PathnameExpansion

/-! # The paths that a word stands for

A choice for every component of a word, the component itself or the name of an entry that matches
it, leads to a path.  The expansion of a word with active operators lists the paths of the choices
that exist. -/

namespace Ash.ExpandedPathnames
open ByteCodecs Outcomes PathnameExpansion PathnamePatterns ShellSyntax SortedKeys
  UnixPaths WordExpansion

/-! ## Choices -/

/-- Calls fail only because something is missing, and entries have the names of files. -/
structure IsRegular (files : FileSystem) : Prop where
  readDir : ∀ path error, files.readDir path=.error error → isMissing error=true
  entries : ∀ path entries, files.readDir path=.ok entries →
    ∀ entry∈entries, ∃ name, entry=.ok name ∧ IsFileName name
  metadata : ∀ path error, files.metadata path=.error error → isMissing error=true
  symlinkMetadata : ∀ path error, files.symlinkMetadata path=.error error →
    isMissing error=true

/-- The names in a directory. -/
def names (files : FileSystem) (path : Bytes) : List Bytes :=
  match files.readDir path with
  | .ok entries => entries.filterMap Except.toOption
  | .error _ => []

/-- A component with its own units. -/
abbrev Part := Component × List FlaggedUnit

def Part.hasOperator (part : Part) : Bool := part.2.any isIntroducer

/-- From a place, one component after the other is itself or the name of an entry there. -/
inductive Chosen (files : FileSystem) : Bytes → List Part → List Component → Prop
  | nil {place} : Chosen files place [] []
  | own {place part rest chosen}
      (hpart : part.hasOperator=false) (h : Chosen files (push place part.1.bytes) rest chosen) :
      Chosen files place (part::rest) (part.1::chosen)
  | entry {place name part rest chosen}
      (hpart : part.hasOperator=true) (hname : name∈names files place)
      (hmat : NameMatches part.2 name) (h : Chosen files (push place name) rest chosen) :
      Chosen files place (part::rest) (.normal name::chosen)

def units (word : ExpandedWord) : List FlaggedUnit := flagged word.pathnameSegments

def parts (word : ExpandedWord) : List Part := located Prod.fst (units word)

def HasOperator (word : ExpandedWord) : Prop := ∃ unit∈units word, isIntroducer unit=true

/-- Every active opening bracket of a component starts a class. -/
def HasClasses (word : ExpandedWord) : Prop := ∀ part∈parts word, WellFormed part.2

def requiresDirectory (word : ExpandedWord) : Bool :=
  (units word).getLast?.any fun unit => unit.1 == slash

def IsPresent (files : FileSystem) (directory : Bool) (path : Bytes) : Prop :=
  if directory then ∃ metadata, files.metadata path=.ok metadata ∧ metadata.isDir=true
  else ∃ metadata, files.symlinkMetadata path=.ok metadata

/-- Where the components of a word are looked up. -/
def base (word : ExpandedWord) (cwd : Bytes) : Bytes :=
  if isAbsolute word.value then [] else cwd

/-- The path of a choice for every component, if there is something at it. -/
def IsMatch (files : FileSystem) (word : ExpandedWord) (cwd path : Bytes) : Prop :=
  ∃ chosen, Chosen files (base word cwd) (parts word) chosen ∧
    IsPresent files (requiresDirectory word)
      (chosen.foldl (fun place part => push place part.bytes) (base word cwd)) ∧
    path=render chosen

/-! ## What the expansion costs -/

section Cost

variable (files : FileSystem)

open Classical in
/-- The names that match the units of a component. -/
noncomputable def matching (own : List FlaggedUnit) (names : List Bytes) : List Bytes :=
  names.filter fun name => NameMatches own name

/-- The candidates after one more component. -/
noncomputable def advance (part : Part) (candidates : List GlobCandidate) : List GlobCandidate :=
  if part.hasOperator then
    candidates.flatMap fun candidate =>
      (matching part.2 (names files candidate.lookup)).map candidate.push
  else candidates.map (·.push part.1.bytes)

noncomputable def reach : List Part → List GlobCandidate → List GlobCandidate
  | [], candidates => candidates
  | part::rest, candidates => reach rest (advance files part candidates)

/-- The entries that are inspected at one candidate and the matches among them. -/
noncomputable def directoryCost (own : List FlaggedUnit) (candidate : GlobCandidate) : ℕ × ℕ :=
  ((names files candidate.lookup).length,(matching own (names files candidate.lookup)).length)

noncomputable def partCost (part : Part) (candidates : List GlobCandidate) : ℕ × ℕ :=
  if part.hasOperator then (candidates.map (directoryCost files part.2)).sum else 0

noncomputable def cost : List Part → List GlobCandidate → ℕ × ℕ
  | [], _ => 0
  | part::rest, candidates =>
      partCost files part candidates+cost rest (advance files part candidates)

end Cost

def spend (budget : PathnameExpansionBudget) (amount : ℕ × ℕ) : PathnameExpansionBudget :=
  { budget with
    inspectedEntries := budget.inspectedEntries+amount.1
    «matches» := budget.matches+amount.2 }

def Affords (budget : PathnameExpansionBudget) (amount : ℕ × ℕ) : Prop :=
  budget.inspectedEntries+amount.1 ≤ maxPathnameExpansionEntries ∧
    budget.matches+amount.2 ≤ maxPathnameExpansionMatches

/-- The budget covers the units of the word, every entry inspected for it and every match. -/
def Unexhausted (files : FileSystem) (word : ExpandedWord) (cwd : Bytes)
    (budget : PathnameExpansionBudget) : Prop :=
  budget.patternUnits+(units word).length ≤ maxPathnamePatternUnits ∧
    Affords budget (cost files (parts word) [⟨base word cwd,[]⟩])

/-! ## Loops that spend -/

section Loops

variable {α : Type} {budget : PathnameExpansionBudget} {left right : ℕ × ℕ}

theorem affords_add (h : Affords budget (left+right)) :
    Affords budget left ∧ Affords (spend budget left) right := by
  obtain ⟨hents,hmat⟩ := h
  rw [Prod.fst_add] at hents
  rw [Prod.snd_add] at hmat
  exact ⟨⟨by omega,by omega⟩,by simp only [spend]; omega,by simp only [spend]; omega⟩

theorem spend_add : spend (spend budget left) right=spend budget (left+right) := by
  simp [spend,Nat.add_assoc]

theorem spend_zero : spend budget 0=budget := rfl

/-- A loop whose steps add to the matches and spend, as far as the budget goes. -/
theorem foldlM_spend {step : Progress → α → Except PathnameExpansionError Progress}
    {out : α → List GlobCandidate} {amount : α → ℕ × ℕ} (items : List α)
    (hstep : ∀ item∈items, ∀ progress : Progress, Affords progress.2 (amount item) →
      step progress item=.ok (progress.1++out item,spend progress.2 (amount item)))
    (progress : Progress) (h : Affords progress.2 (items.map amount).sum) :
    items.foldlM step progress =
      .ok (progress.1++items.flatMap out,spend progress.2 (items.map amount).sum) := by
  induction items generalizing progress with
  | nil => simp [spend_zero,pure,Except.pure]
  | cons item items ih =>
    rw [List.map_cons,List.sum_cons] at h ⊢
    obtain ⟨hitem,hitems⟩ := affords_add h
    rw [List.foldlM_cons,hstep item List.mem_cons_self progress hitem]
    refine (ih (fun item hmem => hstep item (List.mem_cons_of_mem _ hmem)) _ hitems).trans ?_
    rw [spend_add,List.flatMap_cons,List.append_assoc]

end Loops

section Run

variable {files : FileSystem} {span : SourceSpan} {own : List FlaggedUnit}
  {pattern : List PatternToken} {candidate : GlobCandidate}

/-- The pattern of a component accepts the names that match it. -/
def IsPattern (own : List FlaggedUnit) (pattern : List PatternToken) : Prop :=
  ∀ name, matchesComponent pattern name=true ↔ NameMatches own name

theorem readDir_eq (hfiles : IsRegular files) (place : Bytes) :
    files.readDir place=.ok ((names files place).map .ok) ∨
      names files place=[] ∧ ∃ error, files.readDir place=.error error ∧
        isMissing error=true := by
  cases hread : files.readDir place with
  | error error =>
    exact .inr ⟨by simp [names,hread],error,rfl,hfiles.readDir place error hread⟩
  | ok entries =>
    refine .inl (congrArg Except.ok ?_)
    have hents := hfiles.entries place entries hread
    simp only [names,hread]
    clear hread
    induction entries with
    | nil => rfl
    | cons entry entries ih =>
      obtain ⟨name,rfl,-⟩ := hents entry List.mem_cons_self
      have hrest := ih fun entry hmem => hents entry (List.mem_cons_of_mem _ hmem)
      exact congrArg (Except.ok name :: ·) hrest

theorem isFileName_of_mem_names (hfiles : IsRegular files) {place name : Bytes}
    (h : name∈names files place) : IsFileName name := by
  unfold names at h
  cases hread : files.readDir place with
  | error error => simp [hread] at h
  | ok entries =>
    rw [hread] at h
    obtain ⟨entry,hentry,hname⟩ := List.mem_filterMap.1 h
    obtain ⟨found,rfl,hfound⟩ := hfiles.entries place entries hread entry hentry
    cases hname
    exact hfound

theorem matching_cons (name : Bytes) (rest : List Bytes) :
    matching own (name::rest)=matching own [name]++matching own rest :=
  List.filter_append [name] rest

theorem flatMap_matching (found : List Bytes) :
    found.flatMap (fun name => (matching own [name]).map candidate.push) =
      (matching own found).map candidate.push := by
  induction found with
  | nil => rfl
  | cons name found ih => rw [List.flatMap_cons,ih,matching_cons name found,List.map_append]

theorem sum_matching (found : List Bytes) :
    (found.map fun name => (1,(matching own [name]).length)).sum =
      (found.length,(matching own found).length) := by
  induction found with
  | nil => rfl
  | cons name found ih =>
    rw [List.map_cons,List.sum_cons,ih,matching_cons name found,List.length_append,List.length_cons,
      Prod.mk_add_mk,Nat.add_comm 1]

/-- What one entry adds and costs. -/
theorem inspectEntry_eq (hpat : IsPattern own pattern) (name : Bytes) (progress : Progress)
    (h : Affords progress.2 (1,(matching own [name]).length)) :
    inspectEntry files span pattern candidate progress (.ok name) =
      .ok (progress.1++(matching own [name]).map candidate.push,
        spend progress.2 (1,(matching own [name]).length)) := by
  obtain ⟨hents,hmat⟩ := h
  simp only [inspectEntry,if_neg (Nat.not_lt.2 hents),inspectName]
  by_cases hname : NameMatches own name
  · have hmatching : matching own [name]=[name] := by simp [matching,hname]
    rw [hmatching] at hmat ⊢
    have hlimit : ¬ maxPathnameExpansionMatches < progress.2.matches+1 := Nat.not_lt.2 hmat
    simp only [(hpat name).2 hname,Bool.not_true,Bool.false_eq_true,if_false,if_neg hlimit]
    rfl
  · have hmatching : matching own [name]=[] := by simp [matching,hname]
    have hnot : matchesComponent pattern name=false :=
      Bool.eq_false_iff.2 fun htrue => hname ((hpat name).1 htrue)
    rw [hmatching,hnot]
    simp [spend]

/-- What the directory of one candidate adds and costs. -/
theorem inspectCandidate_eq (hfiles : IsRegular files) (hpat : IsPattern own pattern)
    (candidate : GlobCandidate) (progress : Progress)
    (h : Affords progress.2 (directoryCost files own candidate)) :
    inspectCandidate files span pattern progress candidate =
      .ok (progress.1++(matching own (names files candidate.lookup)).map candidate.push,
        spend progress.2 (directoryCost files own candidate)) := by
  unfold inspectCandidate
  unfold directoryCost at h ⊢
  obtain hread | ⟨hnames,error,hread,hmissing⟩ := readDir_eq hfiles candidate.lookup
  · rw [hread]
    simp only [List.foldlM_map]
    rw [← sum_matching] at h ⊢
    rw [← flatMap_matching]
    exact foldlM_spend _ (fun name _ progress => inspectEntry_eq hpat name progress) progress h
  · rw [hread,hnames]
    simp [hmissing,matching,spend]

/-- The component of a pattern that the compiler makes of a part. -/
inductive IsCompiled : Part → PathPatternComponent → Prop
  | own {part compiled} (hpart : part.hasOperator=false)
      (h : ∀ files span progress, expandComponent files span progress compiled =
        .ok (progress.1.map (·.push part.1.bytes),progress.2)) : IsCompiled part compiled
  | pattern {part value pattern} (hpart : part.hasOperator=true) (h : IsPattern part.2 pattern) :
      IsCompiled part (.normal value (some pattern))

theorem expandComponent_eq (hfiles : IsRegular files) {part : Part}
    {compiled : PathPatternComponent} (hcomp : IsCompiled part compiled) (progress : Progress)
    (h : Affords progress.2 (partCost files part progress.1)) :
    expandComponent files span progress compiled =
      .ok (advance files part progress.1,spend progress.2 (partCost files part progress.1)) := by
  cases hcomp with
  | own hpart hown =>
    rw [hown,advance,partCost,hpart]
    rfl
  | pattern hpart hpat =>
    rw [partCost,if_pos hpart] at h ⊢
    rw [advance,if_pos hpart]
    exact foldlM_spend _ (fun candidate _ => inspectCandidate_eq hfiles hpat candidate) _ h

variable {given : List Part} {candidates : List GlobCandidate}

theorem expandComponents_eq (span : SourceSpan) (hfiles : IsRegular files)
    {compiled : List PathPatternComponent} (hcomp : List.Forall₂ IsCompiled given compiled)
    (progress : Progress) (h : Affords progress.2 (cost files given progress.1)) :
    compiled.foldlM (expandComponent files span) progress =
      .ok (reach files given progress.1,spend progress.2 (cost files given progress.1)) := by
  induction hcomp generalizing progress with
  | nil => rfl
  | cons hpart _ ih =>
    rw [cost] at h ⊢
    obtain ⟨hfirst,hrest⟩ := affords_add h
    rw [List.foldlM_cons,expandComponent_eq hfiles hpart progress hfirst]
    refine (ih _ hrest).trans ?_
    rw [spend_add,reach]

/-! ## Candidates are choices -/

def GlobCandidate.pushAll (candidate : GlobCandidate) (chosen : List Component) : GlobCandidate :=
  chosen.foldl (fun candidate part => candidate.push part.bytes) candidate

theorem mem_advance {part : Part} {next : GlobCandidate} :
    next∈advance files part candidates ↔ ∃ candidate∈candidates,
      (part.hasOperator=false ∧ next=candidate.push part.1.bytes) ∨
        part.hasOperator=true ∧ ∃ name∈names files candidate.lookup, NameMatches part.2 name ∧
          next=candidate.push name := by
  unfold advance
  cases part.hasOperator with
  | false => simp [eq_comm]
  | true => simp [matching,and_assoc,eq_comm]

/-- The candidates after the components are those of the choices. -/
theorem mem_reach {last : GlobCandidate} :
    last∈reach files given candidates ↔ ∃ candidate∈candidates, ∃ chosen,
      Chosen files candidate.lookup given chosen ∧
        last=GlobCandidate.pushAll candidate chosen := by
  induction given generalizing candidates with
  | nil =>
    constructor
    · intro h
      exact ⟨last,h,[],.nil,rfl⟩
    · rintro ⟨candidate,hmem,chosen,hchos,rfl⟩
      cases hchos
      exact hmem
  | cons part given ih =>
    rw [reach,ih]
    constructor
    · rintro ⟨next,hnext,chosen,hchos,rfl⟩
      obtain ⟨candidate,hmem,⟨hpart,rfl⟩ | ⟨hpart,name,hname,hmat,rfl⟩⟩ :=
        mem_advance.1 hnext
      · exact ⟨candidate,hmem,part.1::chosen,.own hpart hchos,rfl⟩
      · exact ⟨candidate,hmem,.normal name::chosen,.entry hpart hname hmat hchos,rfl⟩
    · rintro ⟨candidate,hmem,chosen,hchos,rfl⟩
      cases hchos with
      | own hpart hchos =>
        exact ⟨_,mem_advance.2 ⟨candidate,hmem,.inl ⟨hpart,rfl⟩⟩,_,hchos,rfl⟩
      | entry hpart hname hmat hchos =>
        exact ⟨_,mem_advance.2 ⟨candidate,hmem,.inr ⟨hpart,_,hname,hmat,rfl⟩⟩,_,hchos,rfl⟩

theorem pushAll_eq (candidate : GlobCandidate) (chosen : List Component) :
    GlobCandidate.pushAll candidate chosen =
      ⟨chosen.foldl (fun place part => push place part.bytes) candidate.lookup,
        chosen.foldl (fun place part => push place part.bytes) candidate.argument⟩ := by
  induction chosen generalizing candidate with
  | nil => rfl
  | cons part chosen ih => exact ih (candidate.push part.bytes)

/-! ## The check at the end -/

/-- What one candidate adds to the paths. -/
theorem finalMatch_eq (span : SourceSpan) (hfiles : IsRegular files) (directory : Bool)
    (candidate : GlobCandidate) : ∃ present,
      (∀ found, finalMatch files span directory found candidate=.ok (found++present)) ∧
        ∀ path, path∈present ↔
          IsPresent files directory candidate.lookup ∧ path=candidate.argument := by
  unfold IsPresent finalMatch
  cases directory with
  | true =>
    simp only [if_true,Bool.true_and]
    cases hmeta : files.metadata candidate.lookup with
    | error error => exact ⟨[],by simp [hfiles.metadata _ _ hmeta],by simp⟩
    | ok metadata =>
      cases hdir : metadata.isDir with
      | true => exact ⟨[candidate.argument],by simp [hdir],by simp [hdir]⟩
      | false => exact ⟨[],by simp [hdir],by simp [hdir]⟩
  | false =>
    simp only [Bool.false_eq_true,if_false,Bool.false_and]
    cases hmeta : files.symlinkMetadata candidate.lookup with
    | error error => exact ⟨[],by simp [hfiles.symlinkMetadata _ _ hmeta],by simp⟩
    | ok metadata => exact ⟨[candidate.argument],fun _ => rfl,by simp⟩

theorem finalMatches (span : SourceSpan) (hfiles : IsRegular files) (directory : Bool)
    (candidates : List GlobCandidate) (found : List Bytes) : ∃ present,
      candidates.foldlM (finalMatch files span directory) found=.ok (found++present) ∧
        ∀ path, path∈present ↔ ∃ candidate∈candidates,
          IsPresent files directory candidate.lookup ∧ path=candidate.argument := by
  induction candidates generalizing found with
  | nil => exact ⟨[],by simp [pure,Except.pure],by simp⟩
  | cons candidate candidates ih =>
    obtain ⟨first,hstep,hfirst⟩ := finalMatch_eq span hfiles directory candidate
    obtain ⟨present,hrun,hmem⟩ := ih (found++first)
    refine ⟨first++present,?_,fun path => ?_⟩
    · rw [List.foldlM_cons,hstep,← List.append_assoc]
      exact hrun
    · simp only [List.mem_append,hfirst,hmem,List.mem_cons,exists_eq_or_imp]

end Run

/-! ## The compiled components -/

section Compiled

theorem byte_of_isIntroducer {unit : FlaggedUnit} (h : isIntroducer unit=true) :
    unit.1≠slash ∧ unit.1≠dot := by
  simp only [isIntroducer,isActive,Bool.or_eq_true,Bool.and_eq_true,beq_iff_eq] at h
  obtain (⟨-,hunit⟩ | ⟨-,hunit⟩) | ⟨-,hunit⟩ := h <;> rw [hunit] <;> decide

variable {part : Part}

theorem wellFormed_of_hasOperator (h : part.hasOperator=false) : WellFormed part.2 := by
  obtain ⟨found,own⟩ := part
  have hplain : ∀ unit∈own, isIntroducer unit=false := by simpa [Part.hasOperator] using h
  clear h
  induction own with
  | nil => exact .nil
  | cons unit own ih =>
    have hunit : isActive '[' unit=false := by
      have hnot := hplain unit List.mem_cons_self
      rw [isIntroducer,Bool.or_eq_false_iff] at hnot
      exact hnot.2
    exact .unit hunit (ih fun unit hmem => hplain unit (List.mem_cons_of_mem _ hmem))

/-- A component of dots or a slash has no operator. -/
theorem hasOperator_of_bytes (hown : part.2.map Prod.fst=part.1.bytes)
    (hbytes : ∀ byte∈part.1.bytes, byte=slash ∨ byte=dot) : part.hasOperator=false := by
  refine List.any_eq_false.2 fun unit hunit hintr => ?_
  obtain ⟨hslash,hdot⟩ := byte_of_isIntroducer hintr
  have hmem : unit.1∈part.1.bytes := hown ▸ List.mem_map_of_mem hunit
  exact (hbytes _ hmem).elim hslash hdot

theorem compilePart_of_wellFormed (span : SourceSpan) (hown : part.2.map Prod.fst=part.1.bytes)
    (h : WellFormed part.2) :
    ∃ compiled, compilePart span part.1 part.2=.ok compiled ∧ IsCompiled part compiled ∧
      compiled.hasPattern=part.hasOperator := by
  obtain ⟨found,own⟩ := part
  cases found with
  | rootDir | curDir | parentDir =>
    have hplain := hasOperator_of_bytes hown (by simp [Component.bytes])
    exact ⟨_,rfl,.own hplain fun _ _ _ => rfl,hplain.symm⟩
  | normal name =>
    obtain ⟨pattern,hcomp,hpat⟩ := compileComponent_of_wellFormed h
    simp only [compilePart,hcomp]
    cases hop : own.any isIntroducer with
    | false => exact ⟨_,rfl,.own hop fun _ _ _ => rfl,hop.symm⟩
    | true => exact ⟨_,rfl,.pattern hop hpat,hop.symm⟩

theorem compilePart_error {span : SourceSpan} {error : PathnameExpansionError}
    (h : compilePart span part.1 part.2=.error error) : ∃ message, error=.invalid message span := by
  unfold compilePart at h
  split at h
  iterate 3 cases h
  split at h <;> cases h
  exact ⟨_,rfl⟩

theorem wellFormed_of_compilePart {span : SourceSpan} {compiled : PathPatternComponent}
    (hown : part.2.map Prod.fst=part.1.bytes) (h : compilePart span part.1 part.2=.ok compiled) :
    WellFormed part.2 := by
  obtain ⟨found,own⟩ := part
  cases found with
  | rootDir | curDir | parentDir =>
    exact wellFormed_of_hasOperator (hasOperator_of_bytes hown (by simp [Component.bytes]))
  | normal name =>
    by_contra hwell
    obtain ⟨message,hmsg⟩ := compileComponent_of_not_wellFormed hwell
    simp [compilePart,hmsg] at h

/-- A component that is not the root is searched for by its bytes. -/
theorem locateComponent_of_ne_root {path : Bytes} {cursor : ℕ} {part : Component}
    (hroot : part≠.rootDir) (hbytes : part.bytes≠[]) (hcursor : cursor ≤ path.length) :
    locateComponent path cursor part =
      (position part.bytes (path.drop cursor)).map fun offset =>
        (cursor+offset,cursor+offset+part.bytes.length) := by
  have hempty : part.bytes.isEmpty≠true := fun h => hbytes (List.isEmpty_iff.1 h)
  have hsearch : locateComponent path cursor part =
      (findSubslice path cursor part.bytes).map fun start =>
        (start,start+part.bytes.length) := by
    cases part with
    | rootDir => exact absurd rfl hroot
    | curDir | parentDir | normal => rfl
  rw [hsearch,findSubslice,if_neg hempty,if_neg (Nat.not_lt.2 hcursor),Option.map_map]
  rfl

/-- From a cursor on, every component is compiled with its own units. -/
theorem compileParts_body (span : SourceSpan) (before rest : List FlaggedUnit) {given : List Part}
    (hbody : body Prod.fst rest=given) :
    compileParts (before++rest) span before.length (given.map Prod.fst) =
      given.mapM fun part => compilePart span part.1 part.2 := by
  induction given generalizing before rest with
  | nil => rfl
  | cons part given ih =>
    obtain ⟨hcmpt,hslash,front,back,rfl,hpos,hback⟩ := body_eq_cons rest hbody
    obtain ⟨hbytes,hnil,-⟩ := component_eq_some hcmpt
    have hroot : part.1≠.rootDir := by
      rintro hroot
      rw [← hbytes,hroot] at hslash
      exact hslash (List.mem_singleton.2 rfl)
    have hlen : part.1.bytes.length=part.2.length := by rw [hbytes,List.length_map]
    have hdrop : ((before++(front++part.2++back)).map Prod.fst).drop before.length =
        (front++part.2++back).map Prod.fst := by
      rw [← List.map_drop,List.drop_left]
    have hown : ((before++(front++part.2++back)).drop (before.length+front.length)).take
        part.2.length=part.2 := by
      rw [← List.drop_drop,List.drop_left,List.append_assoc,List.drop_left,List.take_left]
    rw [List.map_cons,compileParts,locateComponent_of_ne_root hroot (by rwa [hbytes]) (by simp),
      hdrop,hpos,List.mapM_cons]
    simp only [Option.map_some,hlen,Nat.add_sub_cancel_left,hown]
    have hrest := ih (before++front++part.2) back hback
    simp only [List.length_append,List.append_assoc] at hrest ⊢
    rw [Nat.add_assoc,hrest]

theorem compileParts_located (span : SourceSpan) (given : List FlaggedUnit) :
    compileParts given span 0 (components (given.map Prod.fst)) =
      (located Prod.fst given).mapM fun part => compilePart span part.1 part.2 := by
  rw [← map_located]
  unfold located
  cases hfirst : first Prod.fst given with
  | none => exact compileParts_body span [] given rfl
  | some start =>
    obtain ⟨hunit,hstart,hbody⟩ := body_drop_first hfirst
    have hrest := compileParts_body span (given.take 1) (given.drop 1) hbody
    rw [List.take_append_drop] at hrest
    cases given with
    | nil => obtain rfl | rfl := hstart <;> cases hunit
    | cons unit given =>
      have hlocate : locateComponent ((unit::given).map Prod.fst) 0 start=some (0,1) := by
        have hhead : [unit.1]=start.bytes := hunit
        obtain rfl | rfl := hstart
        · obtain hslash := List.singleton_inj.1 hhead
          simp [locateComponent,hslash,List.findIdx?_cons]
        · rw [locateComponent_of_ne_root (by simp) (by simp [Component.bytes]) (by simp),
            List.drop_zero,List.map_cons,← List.singleton_append,hhead,position_append]
          rfl
      rw [Option.map_some,Option.toList_some,List.singleton_append,List.map_cons,compileParts,
        hlocate,List.mapM_cons]
      exact congrArg (_ >>= ·) (funext fun compiled => congrArg (· >>= _) hrest)

theorem mem_parts {word : ExpandedWord} (h : part∈parts word) :
    part.2.map Prod.fst=part.1.bytes ∧ part.2 ⊆ units word := by
  unfold parts located at h
  rcases List.mem_append.1 h with h | h
  · cases hfirst : first Prod.fst (units word) with
    | none => simp [hfirst] at h
    | some start =>
      rw [hfirst] at h
      obtain rfl := List.mem_singleton.1 h
      exact ⟨(body_drop_first hfirst).1,List.take_subset _ _⟩
  · obtain ⟨hcmpt,-,hsubset⟩ := mem_body _ h
    exact ⟨(component_eq_some hcmpt).1.symm,hsubset⟩

/-- An operator of the word is an operator of one of its components. -/
theorem hasOperator_iff {word : ExpandedWord} :
    HasOperator word ↔ (parts word).any Part.hasOperator=true := by
  rw [List.any_eq_true]
  constructor
  · rintro ⟨unit,hunit,hintr⟩
    obtain ⟨hslash,hdot⟩ := byte_of_isIntroducer hintr
    obtain ⟨part,hpart,hmem⟩ := exists_mem_body (units word) hunit hslash hdot
    exact ⟨part,List.mem_append_right _ hpart,List.any_eq_true.2 ⟨unit,hmem,hintr⟩⟩
  · rintro ⟨part,hpart,hop⟩
    obtain ⟨unit,hunit,hintr⟩ := List.any_eq_true.1 hop
    exact ⟨unit,(mem_parts hpart).2 hunit,hintr⟩

theorem hasActivePatternIntroducer_iff {word : ExpandedWord} :
    hasActivePatternIntroducer word.pathnameSegments=true ↔ HasOperator word := by
  simp only [hasActivePatternIntroducer,HasOperator,units,flagged,List.mem_flatMap,List.mem_map,
    List.any_eq_true,Bool.and_eq_true]
  constructor
  · rintro ⟨segment,hseg,hact,unit,hunit,hintr⟩
    refine ⟨(unit,segment.active),⟨segment,hseg,unit,hunit,rfl⟩,?_⟩
    simpa [isIntroducer,isActive,hact] using hintr
  · rintro ⟨_,⟨segment,hseg,unit,hunit,rfl⟩,hintr⟩
    have hact : segment.active=true := by
      by_contra hinactive
      simp [isIntroducer,isActive,hinactive] at hintr
    refine ⟨segment,hseg,hact,unit,hunit,?_⟩
    simpa [isIntroducer,isActive,hact] using hintr

/-- The compiled components, if every class is well formed. -/
theorem compile_of_hasClasses {word : ExpandedWord} (h : HasClasses word) :
    ∃ compiled, ((parts word).mapM fun part => compilePart word.span part.1 part.2)=.ok compiled ∧
      List.Forall₂ IsCompiled (parts word) compiled ∧
      compiled.any PathPatternComponent.hasPattern=(parts word).any Part.hasOperator := by
  obtain ⟨compiled,hall⟩ := exists_forall₂ fun part hpart =>
    compilePart_of_wellFormed word.span (mem_parts hpart).1 (h part hpart)
  refine ⟨compiled,?_,hall.imp fun _ _ h => h.2.1,?_⟩
  · exact (mapM_ok_iff (fun _ _ => Iff.rfl) _ _).2 (hall.imp fun _ _ h => h.1)
  · generalize parts word=given at hall ⊢
    induction hall with
    | nil => rfl
    | cons hpart _ ih => rw [List.any_cons,List.any_cons,ih,hpart.2.2]

theorem compile_of_not_hasClasses {word : ExpandedWord} (h : ¬ HasClasses word) :
    ∃ message, ((parts word).mapM fun part => compilePart word.span part.1 part.2) =
      .error (.invalid message word.span) := by
  cases hres : (parts word).mapM fun part => compilePart word.span part.1 part.2 with
  | ok compiled =>
    refine absurd (fun part hpart => ?_) h
    obtain ⟨found,hfound⟩ := exists_mapM_ok.1 ⟨compiled,hres⟩ part hpart
    exact wellFormed_of_compilePart (mem_parts hpart).1 hfound
  | error error =>
    by_contra hnot
    refine mapM_ne_error (fun part _ heq => ?_) hres
    obtain ⟨message,rfl⟩ := compilePart_error heq
    exact hnot ⟨message,rfl⟩

end Compiled

/-! ## Paths of choices -/

section Paths

variable {files : FileSystem}

variable {place : Bytes} {chosen : List Component}

theorem Chosen.isInner (hfiles : IsRegular files) {given : List Part}
    (h : Chosen files place given chosen) (hgiven : ∀ part∈given, IsInner part.1) :
    ∀ part∈chosen, IsInner part := by
  induction h with
  | nil => exact fun _ hmem => absurd hmem List.not_mem_nil
  | own hpart _ ih =>
    obtain ⟨hfirst,hrest⟩ := List.forall_mem_cons.1 hgiven
    exact List.forall_mem_cons.2 ⟨hfirst,ih hrest⟩
  | entry _ hname _ _ ih =>
    have hinner := isInner_of_isFileName (isFileName_of_mem_names hfiles hname)
    exact List.forall_mem_cons.2 ⟨hinner,ih (List.forall_mem_cons.1 hgiven).2⟩

theorem Chosen.isCanonical (hfiles : IsRegular files) {word : ExpandedWord}
    (h : Chosen files place (parts word) chosen) : IsCanonical chosen := by
  have hbody : ∀ part∈body Prod.fst (units word), IsInner part.1 := by
    intro part hpart
    obtain ⟨hcmpt,hslash,-⟩ := mem_body _ hpart
    have hbytes := (component_eq_some hcmpt).1
    exact ⟨by rw [hbytes,hcmpt],by rwa [hbytes]⟩
  unfold parts located at h
  cases hfirst : first Prod.fst (units word) with
  | none =>
    rw [hfirst] at h
    exact ⟨[],chosen,rfl,.inl rfl,h.isInner hfiles hbody⟩
  | some start =>
    obtain ⟨hunit,hstart,-⟩ := body_drop_first hfirst
    have hplain : Part.hasOperator (start,(units word).take 1)=false := by
      refine hasOperator_of_bytes hunit ?_
      obtain rfl | rfl := hstart <;> simp [Component.bytes]
    rw [hfirst] at h
    cases h with
    | own _ h =>
      refine ⟨[start],_,rfl,.inr ?_,h.isInner hfiles hbody⟩
      exact hstart.imp (congrArg (fun part => [part])) (congrArg (fun part => [part]))
    | entry hop _ _ _ => exact absurd hop (by simp [hplain])

/-- Paths with the same components are the same, so what is left ascends. -/
theorem sortMatches_spec {found : List Bytes}
    (hfound : ∀ path∈found, ∃ chosen, IsCanonical chosen ∧ path=render chosen) :
    (sortMatches found).Pairwise (· < ·) ∧ ∀ path, path∈sortMatches found ↔ path∈found := by
  have hinjective : ∀ left∈found.mergeSort bytesLe, ∀ right∈found.mergeSort bytesLe,
      components left=components right ↔ id left=id right := by
    intro left hleft right hright
    obtain ⟨parts,hparts,rfl⟩ := hfound left (List.mem_mergeSort.1 hleft)
    obtain ⟨others,hothers,rfl⟩ := hfound right (List.mem_mergeSort.1 hright)
    rw [components_render hparts,components_render hothers]
    exact ⟨congrArg render,render_injective hparts hothers⟩
  have hsort : sortMatches found=sortDedupBy id bytesLe found := dedupBy_congr hinjective
  rw [hsort]
  exact ⟨pairwise_sortDedupBy Function.injective_id found,
    fun path => mem_sortDedupBy fun _ _ _ _ heq => heq⟩

end Paths

/-! ## The expansion of a word -/

/-- An expansion that lists the matches of the word in order, or fails because there is none. -/
def Answers (files : FileSystem) (word : ExpandedWord) (cwd : Bytes) :
    Except PathnameExpansionError (List ExpandedWord × PathnameExpansionBudget) → Prop
  | .ok (words,_) => ∃ paths, words=paths.map (fromPathname · word.span) ∧
      paths.Pairwise (· < ·) ∧ (∀ path, path∈paths ↔ IsMatch files word cwd path) ∧ paths≠[]
  | .error error => error=.noMatches word.span ∧ ∀ path, ¬ IsMatch files word cwd path

section Words

variable {files : FileSystem} {word : ExpandedWord} {cwd : Bytes}
  {budget : PathnameExpansionBudget}

/-- The flags are those of the bytes of the word. -/
def IsMasked (word : ExpandedWord) : Prop := (units word).map Prod.fst=word.value

/-- The budget after the units of the word. -/
def retain (budget : PathnameExpansionBudget) (word : ExpandedWord) : PathnameExpansionBudget :=
  { budget with patternUnits := budget.patternUnits+(units word).length }

theorem compilePathPattern_eq (hword : IsMasked word)
    (hunits : budget.patternUnits+(units word).length ≤ maxPathnamePatternUnits) :
    compilePathPattern word budget=do
      let compiled ← (parts word).mapM fun part => compilePart word.span part.1 part.2
      return (⟨compiled,compiled.any PathPatternComponent.hasPattern,requiresDirectory word⟩,
        retain budget word) := by
  have hcomp := compileParts_located word.span (units word)
  rw [hword] at hcomp
  rw [parts,← hcomp]
  simp only [compilePathPattern]
  exact if_neg (Nat.not_lt.2 hunits)

/-- The candidates at the end that are there are the matches of the word. -/
theorem isMatch_iff {path : Bytes} : IsMatch files word cwd path ↔
    ∃ candidate∈reach files (parts word) [⟨base word cwd,[]⟩],
      IsPresent files (requiresDirectory word) candidate.lookup ∧ path=candidate.argument := by
  constructor
  · rintro ⟨chosen,hchos,hpres,rfl⟩
    refine ⟨GlobCandidate.pushAll ⟨base word cwd,[]⟩ chosen,?_,?_,?_⟩
    · exact mem_reach.2 ⟨_,List.mem_singleton.2 rfl,chosen,hchos,rfl⟩
    · rwa [pushAll_eq]
    · rw [pushAll_eq]
      rfl
  · rintro ⟨candidate,hmem,hpres,rfl⟩
    obtain ⟨start,hstart,chosen,hchos,rfl⟩ := mem_reach.1 hmem
    obtain rfl := List.mem_singleton.1 hstart
    rw [pushAll_eq] at hpres ⊢
    exact ⟨chosen,hchos,hpres,rfl⟩

theorem answers_collect {found : List Bytes} (hfiles : IsRegular files)
    (hfound : ∀ path, path∈found ↔ IsMatch files word cwd path)
    (budget : PathnameExpansionBudget) : Answers files word cwd (do
      let words ← collectMatches word.span found
      return (words,budget)) := by
  unfold collectMatches
  cases found with
  | nil =>
    refine ⟨rfl,fun path hpath => ?_⟩
    exact List.not_mem_nil ((hfound path).2 hpath)
  | cons first found =>
    have hcan : ∀ path∈first::found,
        ∃ chosen, IsCanonical chosen ∧ path=render chosen := by
      intro path hpath
      obtain ⟨chosen,hchos,-,rfl⟩ := (hfound path).1 hpath
      exact ⟨chosen,hchos.isCanonical hfiles,rfl⟩
    obtain ⟨hasc,hmem⟩ := sortMatches_spec hcan
    refine ⟨sortMatches (first::found),rfl,hasc,fun path => ?_,?_⟩
    · rw [hmem,hfound]
    · exact List.ne_nil_of_mem ((hmem first).2 List.mem_cons_self)

theorem expandPathname_of_hasClasses (hfiles : IsRegular files) (hword : IsMasked word)
    (hbudget : Unexhausted files word cwd budget) (hop : HasOperator word)
    (hcls : HasClasses word) :
    Answers files word cwd (expandPathname files word cwd budget) := by
  obtain ⟨compiled,hcompile,hcomp,hpat⟩ := compile_of_hasClasses hcls
  have hhas : compiled.any PathPatternComponent.hasPattern=true := by
    rw [hpat,hasOperator_iff.1 hop]
  have hact := hasActivePatternIntroducer_iff.2 hop
  have hexpand : expandPathname files word cwd budget =
      expandCompiled files word cwd
        ⟨compiled,compiled.any PathPatternComponent.hasPattern,requiresDirectory word⟩
        (retain budget word) := by
    rw [expandPathname,hact,compilePathPattern_eq hword hbudget.1,hcompile]
    rfl
  have hrun := expandComponents_eq word.span hfiles hcomp
    ([⟨base word cwd,[]⟩],retain budget word) hbudget.2
  obtain ⟨present,hfinal,hpres⟩ := finalMatches word.span hfiles (requiresDirectory word)
    (reach files (parts word) [⟨base word cwd,[]⟩]) []
  rw [List.nil_append] at hfinal
  rw [hexpand,hhas,expandCompiled]
  simp only [Bool.not_true,Bool.false_eq_true,if_false]
  rw [show (if isAbsolute word.value=true then [] else cwd)=base word cwd from rfl,hrun]
  simp only [bind,Except.bind,hfinal]
  exact answers_collect hfiles (fun path => (hpres path).trans isMatch_iff.symm) _

theorem expandPathname_of_not_hasClasses (hword : IsMasked word)
    (hunits : budget.patternUnits+(units word).length ≤ maxPathnamePatternUnits)
    (hop : HasOperator word) (hcls : ¬ HasClasses word) :
    ∃ message, expandPathname files word cwd budget=.error (.invalid message word.span) := by
  obtain ⟨message,hcompile⟩ := compile_of_not_hasClasses hcls
  refine ⟨message,?_⟩
  rw [expandPathname,hasActivePatternIntroducer_iff.2 hop,compilePathPattern_eq hword hunits,
    hcompile]
  rfl

end Words

/-! ## A directory with one file -/

def singleFile : FileSystem where
  readDir path := if path=[slash] then .ok [.ok [ascii 'a']] else .error .notFound
  metadata path := if path=[slash] then .ok ⟨true⟩
    else if path=[slash,ascii 'a'] then .ok ⟨false⟩ else .error .notFound
  symlinkMetadata path := if path=[slash] then .ok ⟨true⟩
    else if path=[slash,ascii 'a'] then .ok ⟨false⟩ else .error .notFound
  describe _ := []

/-- A word of one active unit. -/
def activeUnit (character : Char) : ExpandedWord :=
  ⟨[ascii character],⟨0,1,Nat.zero_le 1⟩,[⟨[ascii character],true⟩]⟩

theorem isRegular_singleFile : IsRegular singleFile where
  readDir path error h := by
    simp only [singleFile] at h
    split at h <;> cases h
    rfl
  entries path entries h := by
    simp only [singleFile] at h
    split at h <;> cases h
    intro entry hentry
    exact ⟨_,List.mem_singleton.1 hentry,by decide,by decide,by decide,by decide⟩
  metadata path error h := by
    simp only [singleFile] at h
    split_ifs at h
    cases h
    rfl
  symlinkMetadata path error h := by
    simp only [singleFile] at h
    split_ifs at h
    cases h
    rfl

theorem isMasked_activeUnit (character : Char) : IsMasked (activeUnit character) := rfl

theorem unexhausted_singleFile {character : Char} {part : Part}
    (hparts : parts (activeUnit character)=[part]) (hop : part.hasOperator=true)
    (hbase : base (activeUnit character) [slash]=[slash]) :
    Unexhausted singleFile (activeUnit character) [slash] ⟨0,0,0⟩ := by
  have hmatching : (matching part.2 [[ascii 'a']]).length ≤ 1 := List.length_filter_le _ _
  have hnames : names singleFile [slash]=[[ascii 'a']] := rfl
  have hcost : cost singleFile [part] [⟨[slash],[]⟩] =
      (1,(matching part.2 [[ascii 'a']]).length) := by
    simp only [cost,partCost,hop,directoryCost,hnames,if_true,List.map_cons,List.map_nil,
      List.sum_cons,List.sum_nil]
    rfl
  have hunits : (units (activeUnit character)).length=1 := rfl
  rw [Unexhausted,hunits,hparts,hbase,hcost]
  simp only [Affords,maxPathnamePatternUnits,maxPathnameExpansionEntries,
    maxPathnameExpansionMatches]
  omega

/-- Without active operators a word stays as it is.  With them it becomes the paths that match, in
order and each once, or fails if there is none.  A bracket that starts no class is refused. -/
theorem expandPathname_lists_matches {files : FileSystem} (hfiles : IsRegular files)
    {word : ExpandedWord} (hword : IsMasked word) (cwd : Bytes) {budget : PathnameExpansionBudget}
    (hbudget : Unexhausted files word cwd budget) :
    (¬ HasOperator word → expandPathname files word cwd budget=.ok ([word],budget)) ∧
      (HasOperator word → HasClasses word →
        Answers files word cwd (expandPathname files word cwd budget)) ∧
      (HasOperator word → ¬ HasClasses word →
        ∃ message, expandPathname files word cwd budget=.error (.invalid message word.span)) := by
  refine ⟨fun hplain => ?_,expandPathname_of_hasClasses hfiles hword hbudget,
    expandPathname_of_not_hasClasses hword hbudget.1⟩
  rw [expandPathname,Bool.eq_false_iff.2 (mt hasActivePatternIntroducer_iff.1 hplain)]
  rfl

theorem star_lists_single : Answers singleFile (activeUnit '*') [slash]
    (expandPathname singleFile (activeUnit '*') [slash] ⟨0,0,0⟩) := by
  have hparts : parts (activeUnit '*') =
      [(.normal [ascii '*'],[(ascii '*',true)])] := by decide
  refine (expandPathname_lists_matches isRegular_singleFile (isMasked_activeUnit '*') [slash]
    (unexhausted_singleFile hparts rfl rfl)).2.1 ?_ ?_
  · exact ⟨(ascii '*',true),by decide,rfl⟩
  · intro part hpart
    rw [hparts] at hpart
    obtain rfl := List.mem_singleton.1 hpart
    exact .unit rfl .nil

/-- An active bracket without a class is refused, although nothing matches it. -/
theorem bracket_refused : IsRegular singleFile ∧ IsMasked (activeUnit '[') ∧
    Unexhausted singleFile (activeUnit '[') [slash] ⟨0,0,0⟩ ∧ HasOperator (activeUnit '[') ∧
    ¬ Answers singleFile (activeUnit '[') [slash]
      (expandPathname singleFile (activeUnit '[') [slash] ⟨0,0,0⟩) := by
  have hparts : parts (activeUnit '[') =
      [(.normal [ascii '['],[(ascii '[',true)])] := by decide
  have hbudget := unexhausted_singleFile hparts rfl rfl
  have hop : HasOperator (activeUnit '[') := ⟨(ascii '[',true),by decide,rfl⟩
  have hcls : ¬ HasClasses (activeUnit '[') := by
    intro h
    have hwell := h _ (by rw [hparts]; exact List.mem_singleton.2 rfl)
    obtain ⟨token,next,hclass,-⟩ := (wellFormed_class_iff rfl).1 hwell
    cases hclass
  have href : ∃ message, expandPathname singleFile (activeUnit '[') [slash] ⟨0,0,0⟩ =
      .error (.invalid message (activeUnit '[').span) :=
    expandPathname_of_not_hasClasses (isMasked_activeUnit '[') hbudget.1 hop hcls
  obtain ⟨message,hmsg⟩ := href
  refine ⟨isRegular_singleFile,rfl,hbudget,hop,?_⟩
  rw [hmsg]
  rintro ⟨herror,-⟩
  cases herror

end Ash.ExpandedPathnames
