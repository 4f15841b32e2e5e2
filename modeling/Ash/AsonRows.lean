import Ash.AsonItems

/-! # Vectors and rows

The parser reads just the vectors, cells and rows of the grammar that keep within the
ceilings, and counts their atoms. -/

namespace Ash.AsonRows
open ByteCodecs TextSlices AsonDocuments AsonParser AsonGrammar AsonScalars AsonItems ParserOutcomes

section
variable {bits : ℕ} (limits : Limits bits)

theorem parses_bumpValue (line : ℕ) :
    Parses limits.maxValues (bumpValue limits line) (fun _ => True) fun _ => 1 := by
  refine parses_iff.2 fun v _ => (yields_enforced fun _ => yields_ok ((),v+1)).congr fun found => ?_
  constructor
  · rintro ⟨hle,rfl⟩
    exact ⟨trivial,rfl,hle⟩
  · rintro ⟨-,hfound,hle⟩
    exact ⟨hfound ▸ hle,Prod.ext rfl hfound⟩

theorem parses_enforced {α : Type} {P : α → Prop} {w : α → ℕ} {x : Step α} {actual max count : ℕ}
    {kind : LimitKind} {line : ℕ} (h : actual ≤ max → Parses count x P w) :
    Parses count (do .outcome (enforce actual max kind line); x) (fun a => actual ≤ max ∧ P a) w :=
  (yields_enforce actual max kind line).parses.bind (fun _ => h) (fun a => by simp)
    fun _ _ _ _ => (Nat.zero_add _).symm

/-- An atom of the grammar within the scalar ceiling. -/
def AtomReads (source : Text) (a : Atom) : Prop :=
  AtomText source a ∧ a.textBytes ≤ limits.maxScalarBytes

theorem parses_atom (source : Text) (line column : ℕ) :
    Parses limits.maxValues (atom limits source line column) (AtomReads limits source)
      fun _ => 1 := by
  refine (parses_bumpValue limits line).bind
    (fun _ _ => (yields_decodeScalar source line column limits.maxScalarBytes).parses)
    (fun a => ?_) fun _ _ _ _ => rfl
  simp [AtomReads]

/-- Splitting and reading every item: the items joined by commas are the source. -/
theorem parses_items {α : Type} {max : ℕ} {allowVector : Bool} {limit : ItemLimit}
    {g : List (ℕ × Text) → Step (List α)} {R : Text → α → Prop} {C : ℕ → Prop} {w : List α → ℕ}
    (source : Text) (line : ℕ)
    (hg : ∀ raw, Parses max (g raw)
      (fun as => C raw.length ∧ List.Forall₂ R (raw.map Prod.snd) as) w)
    (hpass : ∀ text a, R text a → pass allowVector .plain text=some .plain) :
    Parses max (do let raw ← .outcome (splitItems source allowVector line limit); g raw)
      (fun as => ∃ items, items≠[] ∧ commas items=source ∧ List.Forall₂ R items as ∧
        items.length ≤ ItemLimit.bound limit ∧ C items.length) w := by
  refine (yields_splitItems source allowVector line limit).parses.bind (fun raw _ => hg raw)
    (fun as => ?_) fun _ _ _ _ => (Nat.zero_add _).symm
  constructor
  · rintro ⟨items,hne,rfl,hitems,hbound,hC⟩
    have hplain : ∀ item∈items, pass allowVector .plain item=some .plain := by
      intro item hitem
      obtain ⟨a,-,ha⟩ := forall₂_mem_left hitems hitem
      exact hpass item a ha
    obtain ⟨found,hfound,rfl⟩ := splitItems_commas line hne hplain hbound
    refine ⟨found,((yields_splitItems _ allowVector line limit).ok_iff found).1 hfound,?_,hitems⟩
    simpa using hC
  · rintro ⟨raw,⟨-,hne,hcommas,hbound⟩,hC,hitems⟩
    exact ⟨raw.map Prod.snd,by simpa using hne,hcommas,hitems,by simpa using hbound,
      by simpa using hC⟩

/-! ## Vectors -/

variable {a : Atom}

theorem atomText_ne_nil {text : Text} (h : AtomText text a) : text≠[] := by
  cases h with
  | bare hne _ _ => exact hne
  | _ => simp

variable {items : List Text} {source inner : Text}

theorem commas_ne_nil (hne : items≠[]) (h : ∀ item∈items, item≠[]) : commas items≠[] := by
  match items with
  | [] => exact absurd rfl hne
  | [item] => simpa using h item (by simp)
  | item::next::items => simp [commas_cons_cons]

/-- Joined atoms are empty only when there are none. -/
theorem commas_atoms_eq_nil {atoms : List Atom} (h : List.Forall₂ AtomText items atoms) :
    commas items=[] ↔ items=[] := by
  constructor
  · intro hnil
    by_contra hne
    refine commas_ne_nil hne (fun item hitem => ?_) hnil
    obtain ⟨a,-,ha⟩ := forall₂_mem_left h hitem
    exact atomText_ne_nil ha
  · rintro rfl
    rfl

/-- What stands between brackets. -/
theorem enclosed_iff :
    ¬ (source.head?≠some '[' ∨ source.getLast?≠some ']') ↔
      ∃ inner, source = '['::inner++[']'] := by
  constructor
  · intro h
    rw [not_or,not_not,not_not] at h
    obtain ⟨front,rfl⟩ := List.getLast?_eq_some_iff.1 h.2
    cases front with
    | nil => exact absurd h.1 (by decide)
    | cons c inner =>
      have hc : c = '[' := by simpa using h.1
      exact ⟨inner,by rw [hc]⟩
  · rintro ⟨inner,rfl⟩
    exact not_or.2 ⟨not_not.2 rfl,not_not.2 List.getLast?_concat⟩

theorem vectorText_iff {atoms : List Atom} :
    VectorText ('['::inner++[']']) atoms ↔
      ∃ items, List.Forall₂ AtomText items atoms ∧ inner=commas items := by
  simp [VectorText]

/-- A vector of the grammar within the ceilings. -/
def VectorReads (source : Text) (atoms : List Atom) : Prop :=
  VectorText source atoms ∧ CellWithin limits (.vector atoms)

theorem cellWithin_vector {atoms : List Atom} :
    CellWithin limits (.vector atoms) ↔
      atoms.length ≤ limits.maxVectorItems ∧ ∀ a∈atoms, a.textBytes ≤ limits.maxScalarBytes := by
  constructor
  · rintro ⟨hitems,hbytes⟩
    exact ⟨hitems atoms (by simp [Cell.vectors]),hbytes⟩
  · rintro ⟨hitems,hbytes⟩
    exact ⟨by simpa [Cell.vectors] using hitems,hbytes⟩

theorem parses_atoms (line column : ℕ) (raw : List (ℕ × Text)) :
    Parses limits.maxValues (raw.mapM fun item => atom limits item.2 line (column+item.1))
      (fun atoms => True ∧ List.Forall₂ (AtomReads limits) (raw.map Prod.snd) atoms)
      List.length := by
  refine (parses_mapM (fun item => parses_atom limits item.2 line (column+item.1)) raw).congr
    (fun atoms => ?_) fun atoms _ => ?_
  · rw [true_and,List.forall₂_map_left_iff]
  · simp

/-- The inner text of a vector, when it is not empty. -/
theorem parses_inner (hne : inner≠[]) (line column : ℕ) :
    Parses limits.maxValues (do
        let raw ← .outcome (splitItems inner false line (.vector limits.maxVectorItems))
        raw.mapM fun item => atom limits item.2 line (column+item.1))
      (VectorReads limits ('['::inner++[']'])) List.length := by
  refine (parses_items (R := AtomReads limits) (C := fun _ => True) inner line
    (parses_atoms limits line column) fun text a h => pass_atomText h.1).congr (fun atoms => ?_) fun _ _ => rfl
  rw [VectorReads,vectorText_iff,cellWithin_vector]
  constructor
  · rintro ⟨items,-,rfl,hitems,hbound,-⟩
    obtain ⟨htexts,hbytes⟩ := forall₂_and_right.1 hitems
    refine ⟨⟨items,htexts,rfl⟩,?_,hbytes⟩
    rw [← htexts.length_eq]
    exact hbound
  · rintro ⟨⟨items,htexts,rfl⟩,hlen,hbytes⟩
    refine ⟨items,?_,rfl,forall₂_and_right.2 ⟨htexts,hbytes⟩,?_,trivial⟩
    · exact fun hnil => hne ((commas_atoms_eq_nil htexts).2 hnil)
    · rw [htexts.length_eq]
      exact hlen

theorem vectorReads_nil {atoms : List Atom} :
    VectorReads limits ('['::[]++[']']) atoms ↔ atoms=[] := by
  rw [VectorReads,vectorText_iff,cellWithin_vector]
  constructor
  · rintro ⟨⟨items,hitems,hnil⟩,-⟩
    rw [(commas_atoms_eq_nil hitems).1 hnil.symm] at hitems
    exact List.forall₂_nil_left_iff.1 hitems
  · rintro rfl
    exact ⟨⟨[],.nil,rfl⟩,by simp⟩

theorem parses_vector (source : Text) (line column : ℕ) :
    Parses limits.maxValues (vector limits source line column) (VectorReads limits source)
      List.length := by
  unfold vector
  by_cases hform : source.head?≠some '[' ∨ source.getLast?≠some ']'
  · rw [if_pos hform]
    refine parses_fail _ fun atoms => ?_
    rintro ⟨⟨items,-,hsrc⟩,-⟩
    exact enclosed_iff.2 ⟨_,hsrc⟩ hform
  · rw [if_neg hform]
    obtain ⟨inner,rfl⟩ := enclosed_iff.1 hform
    have hopen : ('[').utf8Size=1 := by decide
    have hclose : (']').utf8Size=1 := by decide
    have hcut : Yields (cut ('['::inner++[']']) 1 (byteLength ('['::inner++[']']) - 1) :
        Outcome Text) (· = inner) :=
      yields_cut ['['] inner [']'] rfl (by simp [hopen]) (by simp [hopen,hclose]; omega)
    refine hcut.parses.bind (Q := VectorReads limits ('['::inner++[']']))
      (R := fun found => VectorReads limits ('['::found++[']'])) (fun found _ => ?_)
      (fun atoms => by simp) fun _ _ _ _ => (Nat.zero_add _).symm
    by_cases hnil : found=[]
    · rw [if_pos hnil,hnil]
      refine (parses_pure []).congr (fun atoms => (vectorReads_nil limits).symm) ?_
      intro atoms hatoms
      rw [(vectorReads_nil limits).1 hatoms]
      rfl
    · rw [if_neg hnil]
      exact parses_inner limits hnil line column

/-! ## Cells and rows -/

/-- A cell of the grammar within the ceilings. -/
def CellReads (source : Text) (cell : Cell) : Prop :=
  CellText source cell ∧ CellWithin limits cell

theorem head_bareChars : ∀ c∈bareChars, c ≠ '[' := forall_mem_of_all (by decide)

theorem atomText_head {text : Text} (h : AtomText text a) : text.head?≠some '[' := by
  cases h with
  | bare hne hbare _ =>
    obtain ⟨c,rest,rfl⟩ := List.exists_cons_of_ne_nil hne
    simpa using head_bareChars c (hbare c (by simp))
  | _ => simp

theorem cellWithin_atom : CellWithin limits (.atom a) ↔ a.textBytes ≤ limits.maxScalarBytes := by
  constructor
  · rintro ⟨-,hbytes⟩
    exact hbytes a (by simp [Cell.atoms])
  · intro hbytes
    exact ⟨by simp [Cell.vectors],by simpa [Cell.atoms] using hbytes⟩

/-- Only a vector starts with a bracket. -/
theorem cellReads_iff {cell : Cell} :
    CellReads limits source cell ↔
      (source.head?=some '[' ∧ ∃ atoms, VectorReads limits source atoms ∧ cell=.vector atoms) ∨
      (¬ source.head?=some '[' ∧ ∃ a, AtomReads limits source a ∧ cell=.atom a) := by
  constructor
  · rintro ⟨htext,hwith⟩
    cases htext with
    | atom h => exact .inr ⟨atomText_head h,_,⟨h,(cellWithin_atom limits).1 hwith⟩,rfl⟩
    | vector h =>
      refine .inl ⟨?_,_,⟨h,hwith⟩,rfl⟩
      obtain ⟨items,-,rfl⟩ := h
      rfl
  · rintro (⟨-,atoms,⟨htext,hwith⟩,rfl⟩ | ⟨-,a,⟨htext,hbytes⟩,rfl⟩)
    · exact ⟨.vector htext,hwith⟩
    · exact ⟨.atom htext,(cellWithin_atom limits).2 hbytes⟩

theorem parses_cell (source : Text) (line column : ℕ) :
    Parses limits.maxValues (cell limits source line column) (CellReads limits source)
      fun cell => cell.atoms.length := by
  refine (parses_ite (fun _ => ?_) fun _ => ?_).congr (fun cell => (cellReads_iff limits).symm)
    fun _ _ => rfl
  · exact (parses_vector limits source line column).map Cell.vector fun _ _ => rfl
  · exact (parses_atom limits source line column).map Cell.atom fun _ _ => rfl

/-- A row of the grammar with its number of cells, within the ceilings. -/
def RowReads (width : ℕ) (source : Text) (cells : List Cell) : Prop :=
  RowText source cells ∧ cells.length=width ∧ ∀ cell∈cells, CellWithin limits cell

/-- The number of atoms of a row. -/
def rowCount (cells : List Cell) : ℕ := (cells.map fun cell => cell.atoms.length).sum

theorem parses_cells (width line : ℕ) (raw : List (ℕ × Text)) :
    Parses limits.maxValues
      (if raw.length≠width then .fail (.rowWidth line width raw.length)
        else raw.mapM fun item => cell limits item.2 line item.1)
      (fun cells => raw.length=width ∧
        List.Forall₂ (CellReads limits) (raw.map Prod.snd) cells) rowCount := by
  refine (parses_guard _ fun _ =>
    parses_mapM (fun item => parses_cell limits item.2 line item.1) raw).congr (fun cells => ?_)
    fun _ _ => rfl
  rw [List.forall₂_map_left_iff]
  simp

theorem parses_row {width : ℕ} (hwidth : 0 < width) (source : Text) (line : ℕ) :
    Parses limits.maxValues (row limits source width line) (RowReads limits width source)
      rowCount := by
  refine (parses_items (R := CellReads limits) (C := fun n => n=width) source line
    (parses_cells limits width line) fun text cell h => pass_cellText h.1).congr
    (fun cells => ?_) fun _ _ => rfl
  constructor
  · rintro ⟨items,-,rfl,hitems,-,hlen⟩
    obtain ⟨htexts,hwith⟩ := forall₂_and_right.1 hitems
    exact ⟨⟨items,htexts,rfl⟩,htexts.length_eq.symm.trans hlen,hwith⟩
  · rintro ⟨⟨items,htexts,rfl⟩,hlen,hwith⟩
    have hitems : items.length=width := htexts.length_eq.trans hlen
    refine ⟨items,?_,rfl,forall₂_and_right.2 ⟨htexts,hwith⟩,hitems.le,hitems⟩
    rintro rfl
    exact hwidth.ne hitems

end

end Ash.AsonRows
