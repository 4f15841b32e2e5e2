import Ash.AsonScalars

/-! # Splitting rows and vectors

The splitter looks only at quotes, brackets and commas.  Cutting is always inside the
input, its items joined by commas are the input, and texts that it passes over in one
piece come back as they were joined. -/

namespace Ash.AsonItems
open ByteCodecs Numerals TextSlices AsonDocuments AsonParser AsonGrammar AsonScalars ParserOutcomes

/-- Items with a comma after each. -/
def leading (items : List Text) : Text := items.flatMap fun item => item++[',']

theorem commas_append_singleton (items : List Text) (last : Text) :
    commas (items++[last])=leading items++last := by
  induction items with
  | nil => simp [commas,leading]
  | cons item items ih =>
    obtain ⟨next,rest,hnext⟩ := List.exists_cons_of_ne_nil
      (show items++[last]≠[] by simp)
    have hcons : commas (item::(items++[last]))=item ++ ','::commas (items++[last]) := by
      rw [hnext]
      simp [commas,List.intercalate_cons_cons]
    rw [List.cons_append,hcons,ih]
    simp [leading]

theorem commas_cons_cons (item next : Text) (items : List Text) :
    commas (item::next::items)=item ++ ','::commas (next::items) := by
  simp [commas,List.intercalate_cons_cons]

@[simp] theorem commas_singleton (item : Text) : commas [item]=item := by simp [commas]

variable {c : Char} {chars : Text} {items : List (ℕ × Text)} {depth : ℕ}

theorem mem_commas {items : List Text} (h : c∈commas items) :
    c = ',' ∨ ∃ item∈items, c∈item := by
  induction items with
  | nil => cases h
  | cons item items ih =>
    cases items with
    | nil => exact .inr ⟨item,by simp,by simpa using h⟩
    | cons next items =>
      rw [commas_cons_cons,List.mem_append,List.mem_cons] at h
      obtain h | rfl | h := h
      · exact .inr ⟨item,by simp,h⟩
      · exact .inl rfl
      · obtain rfl | ⟨found,hfound,hc⟩ := ih h
        · exact .inl rfl
        · exact .inr ⟨found,List.mem_cons_of_mem _ hfound,hc⟩

/-! ## What the splitter cuts -/

def Scan.texts (scan : Scan) : List Text := scan.items.map Prod.snd

/-- The items so far, the piece being read and the rest make up the input. -/
structure Progress (source rest : Text) (offset : ℕ) (scan : Scan) (current : Text) : Prop where
  source_eq : source=leading (Scan.texts scan)++current++rest
  start_eq : scan.start=byteLength (leading (Scan.texts scan))
  offset_eq : offset=byteLength (leading (Scan.texts scan)++current)

variable {source rest current : Text} {offset line : ℕ} {scan : Scan} {limit : ItemLimit}
variable {allowVector : Bool}

theorem Progress.cut (h : Progress source rest offset scan current) :
    Yields (cut source scan.start offset : Outcome Text) (· = current) :=
  yields_cut _ current rest h.source_eq h.start_eq h.offset_eq

/-- How many items a limit allows. -/
def ItemLimit.bound : ItemLimit → ℕ
  | .row expected => expected
  | .vector max => max

theorem yields_pushItem (items : List (ℕ × Text)) (item : ℕ × Text) (limit : ItemLimit) (line : ℕ) :
    Yields (pushItem items item limit line) fun items' =>
      items'=items++[item] ∧ items'.length ≤ ItemLimit.bound limit := by
  have hpush : ∀ (bound : ℕ) (e : DecodeError), Yields
      (if bound < items.length+1 then Fallible.fail e else .ok (items++[item]))
      fun items' => items'=items++[item] ∧ items'.length ≤ bound := by
    intro bound e
    refine (yields_guard e fun _ => yields_ok _).congr fun items' => ?_
    constructor
    · rintro ⟨hle,rfl⟩
      exact ⟨rfl,by simpa using hle⟩
    · rintro ⟨rfl,hle⟩
      exact ⟨by simpa using hle,rfl⟩
  cases limit with
  | row expected => exact hpush _ _
  | vector max => exact hpush _ _

/-- A comma of a turn that separates. -/
theorem turn_separator {mode : Mode} (h : turn allowVector mode c=.separator) : c = ',' := by
  unfold turn at h
  -- only the branch of a comma at depth zero answers with a separator
  split_ifs at h
  rename_i hc
  rw [Bool.and_eq_true,decide_eq_true_eq] at hc
  exact hc.1

/-- A comma outside brackets closes the current item. -/
theorem Progress.separate (h : Progress source (','::chars) offset scan current)
    (hitems : items=scan.items++[(scan.start+1,current)]) :
    Progress source chars (offset+(',').utf8Size) { scan with items, start := offset+1 } [] := by
  have hsize : (',').utf8Size=1 := by decide
  have htexts : Scan.texts { scan with items, start := offset+1 } =
      Scan.texts scan++[current] := by
    simp [Scan.texts,hitems]
  have hlead : leading (Scan.texts scan++[current]) =
      leading (Scan.texts scan)++current++[','] := by
    simp [leading]
  have hoffset : offset+1=byteLength (leading (Scan.texts scan++[current])) := by
    rw [hlead,byteLength_append _ [','],← h.offset_eq]
    simp [hsize]
  refine ⟨?_,?_,?_⟩
  · rw [htexts,hlead,h.source_eq]
    simp
  · rw [htexts]
    exact hoffset
  · rw [htexts,hsize,List.append_nil]
    exact hoffset

theorem Progress.stay (mode : Mode) (h : Progress source (c::chars) offset scan current) :
    Progress source chars (offset+c.utf8Size) { scan with mode } (current++[c]) := by
  refine ⟨?_,h.start_eq,?_⟩
  · rw [h.source_eq]
    simp [Scan.texts]
  · rw [h.offset_eq,← List.append_assoc,byteLength_append _ [c]]
    simp [Scan.texts]

/-- The loop is free of faults, and where it ends the items and the piece it was reading
make up the input. -/
theorem yields_splitLoop (h : Progress source rest offset scan current) :
    Yields (splitLoop source allowVector line limit rest offset scan) fun scan' =>
      splitLoop source allowVector line limit rest offset scan=.ok scan' ∧
        ∃ last, Progress source [] (byteLength source) scan' last := by
  induction rest generalizing offset scan current with
  | nil =>
    refine (yields_ok scan).congr fun scan' => ?_
    constructor
    · rintro rfl
      refine ⟨rfl,current,h.source_eq,h.start_eq,?_⟩
      rw [h.source_eq,List.append_nil]
    · rintro ⟨hok,-⟩
      exact (Except.ok.inj hok).symm
  | cons c chars ih =>
    rw [splitLoop]
    cases hturn : turn allowVector scan.mode c with
    | stay mode => exact ih (h.stay mode)
    | refuse message =>
      refine yields_fail _ fun scan' => ?_
      simp [Fallible.fail]
    | separator =>
      obtain rfl := turn_separator hturn
      have hrun := h.cut.bind fun item hitem => (yields_pushItem scan.items
        (scan.start+1,item) limit line).bind fun items hitems =>
          ih (h.separate (hitems.1.trans (by rw [hitem])))
      refine ⟨fun scan' => ?_,hrun.noPanic,hrun.fuelled⟩
      constructor
      · intro hok
        obtain ⟨item,-,items,-,-,hlast⟩ := (hrun.ok_iff scan').1 hok
        exact ⟨hok,hlast⟩
      · rintro ⟨hok,-⟩
        exact hok

theorem progress_start (source : Text) : Progress source source 0 ⟨[],0,.plain⟩ [] :=
  ⟨by simp [Scan.texts,leading],by simp [Scan.texts,leading],by simp [Scan.texts,leading]⟩

theorem Progress.unique {other : Text} (h : Progress source rest offset scan current)
    (h' : Progress source rest offset scan other) : current=other := by
  have heq := h.source_eq.symm.trans h'.source_eq
  rw [List.append_assoc,List.append_assoc,List.append_cancel_left_eq,
    List.append_cancel_right_eq] at heq
  exact heq

/-- The last item is what the loop was reading at its end. -/
theorem yields_last (h : ∃ last, Progress source [] offset scan last) :
    Yields (cut source scan.start offset : Outcome Text) (Progress source [] offset scan) := by
  obtain ⟨last,hlast⟩ := h
  refine hlast.cut.congr fun item => ?_
  constructor
  · rintro rfl
    exact hlast
  · intro hitem
    exact hitem.unique hlast

/-- Splitting is free of faults; the items are the input cut at commas, at most as many as
the limit allows. -/
theorem yields_splitItems (source : Text) (allowVector : Bool) (line : ℕ) (limit : ItemLimit) :
    Yields (splitItems source allowVector line limit) fun items =>
      splitItems source allowVector line limit=.ok items ∧ items≠[] ∧
        commas (items.map Prod.snd)=source ∧ items.length ≤ ItemLimit.bound limit := by
  have hrun : Yields (splitItems source allowVector line limit) _ :=
    (yields_splitLoop (progress_start source)).bind fun scan hscan =>
      yields_guard _ fun _ => yields_guard _ fun _ =>
        (yields_last hscan.2).bind fun item _ => yields_pushItem _ _ _ _
  refine ⟨fun items => ⟨fun hok => ⟨hok,?_⟩,And.left⟩,hrun.noPanic,hrun.fuelled⟩
  obtain ⟨scan,-,-,-,item,hitem,rfl,hbound⟩ := (hrun.ok_iff items).1 hok
  refine ⟨by simp,?_,hbound⟩
  rw [hitem.source_eq,List.map_append,List.map_singleton,commas_append_singleton,List.append_nil]
  rfl

/-! ## What the splitter passes over -/

/-- The mode after a text without separators. -/
def pass (allowVector : Bool) : Mode → Text → Option Mode
  | mode, [] => some mode
  | mode, c::chars =>
      match turn allowVector mode c with
      | .stay mode' => pass allowVector mode' chars
      | _ => none

theorem pass_append (mode : Mode) (left right : Text) :
    pass allowVector mode (left++right) =
      (pass allowVector mode left).bind fun mode' => pass allowVector mode' right := by
  induction left generalizing mode with
  | nil => rfl
  | cons c left ih =>
    rw [List.cons_append,pass,pass]
    cases turn allowVector mode c with
    | stay mode' => exact ih mode'
    | separator => rfl
    | refuse message => rfl

/-- The loop moves over a passed text in one go. -/
theorem splitLoop_pass {text : Text} {mode' : Mode}
    (h : pass allowVector scan.mode text=some mode') (rest : Text) :
    splitLoop source allowVector line limit (text++rest) offset scan =
      splitLoop source allowVector line limit rest (offset+byteLength text)
        { scan with mode := mode' } := by
  induction text generalizing offset scan with
  | nil =>
    cases h
    simp
  | cons c chars ih =>
    rw [pass] at h
    rw [List.cons_append,splitLoop]
    cases hturn : turn allowVector scan.mode c with
    | stay mode =>
      rw [hturn] at h
      refine Eq.trans (ih h) ?_
      rw [byteLength_cons,Nat.add_assoc]
    | separator | refuse =>
      rw [hturn] at h
      cases h

/-- The end of the splitter, after its loop. -/
def closeItems (source : Text) (line : ℕ) (limit : ItemLimit) (scan : Scan) :
    Outcome (List (ℕ × Text)) :=
  if scan.mode.quoted then
    .fail (.badSyntax line (byteLength source) "unterminated quoted string")
  else if scan.mode.vectorDepth≠0 then
    .fail (.badSyntax line (byteLength source) "unterminated vector")
  else do
    let item ← cut source scan.start (byteLength source)
    pushItem scan.items (scan.start+1,item) limit line

theorem splitItems_eq (source : Text) (allowVector : Bool) (line : ℕ) (limit : ItemLimit) :
    splitItems source allowVector line limit =
      (splitLoop source allowVector line limit source 0 ⟨[],0,.plain⟩ >>=
        closeItems source line limit) := rfl

theorem pushItem_ok (item : ℕ × Text) (line : ℕ) (h : items.length+1 ≤ ItemLimit.bound limit) :
    pushItem items item limit line=.ok (items++[item]) :=
  ((yields_pushItem items item limit line).ok_iff _).2 ⟨rfl,by simpa using h⟩

theorem closeItems_ok {front last : Text} (hsrc : source=front++last)
    (hbound : items.length+1 ≤ ItemLimit.bound limit) :
    closeItems source line limit ⟨items,byteLength front,.plain⟩ =
      .ok (items++[(byteLength front+1,last)]) := by
  have hcut : cut source (byteLength front) (byteLength source)=(.ok last : Outcome Text) :=
    ((yields_cut front last [] (by simp [hsrc]) rfl (by rw [hsrc])).ok_iff _).2 rfl
  simp only [closeItems,Mode.plain,Bool.false_eq_true,if_false,ne_eq,not_true_eq_false,hcut]
  exact pushItem_ok _ line hbound

/-- A separator after a plain text. -/
theorem splitLoop_separator {front item : Text} (hsrc : source=front++item ++ ','::chars)
    (hbound : items.length+1 ≤ ItemLimit.bound limit) :
    splitLoop source allowVector line limit (','::chars) (byteLength (front++item))
        ⟨items,byteLength front,.plain⟩ =
      splitLoop source allowVector line limit chars (byteLength (front++item++[',']))
        ⟨items++[(byteLength front+1,item)],byteLength (front++item++[',']),.plain⟩ := by
  have hcut : cut source (byteLength front) (byteLength (front++item)) =
      (.ok item : Outcome Text) :=
    ((yields_cut front item _ hsrc rfl rfl).ok_iff _).2 rfl
  have hturn : turn allowVector .plain ','=.separator := rfl
  have hsize : (',').utf8Size=1 := by decide
  have hnext : byteLength (front++item++[','])=byteLength (front++item)+1 := by
    rw [byteLength_append _ [',']]
    simp [hsize]
  rw [splitLoop]
  simp only [hturn,hcut,hnext,hsize]
  change (pushItem items (byteLength front+1,item) limit line >>= _)=_
  rw [pushItem_ok _ line hbound]
  rfl

/-- Texts that are passed over in plain mode come back from their joined text. -/
theorem splitLoop_commas (items : List Text) (front first : Text) (done : List (ℕ × Text))
    (hpass : ∀ item∈first::items, pass allowVector .plain item=some .plain)
    (hsrc : source=front++commas (first::items))
    (hbound : done.length+(first::items).length ≤ ItemLimit.bound limit) :
    ∃ found, (splitLoop source allowVector line limit (commas (first::items)) (byteLength front)
        ⟨done,byteLength front,.plain⟩ >>= closeItems source line limit)=.ok found ∧
      found.map Prod.snd=done.map Prod.snd++first::items := by
  induction items generalizing front first done with
  | nil =>
    rw [commas_singleton] at hsrc ⊢
    have hloop : splitLoop source allowVector line limit (first++[]) (byteLength front)
        ⟨done,byteLength front,.plain⟩=_ := splitLoop_pass (hpass first (by simp)) []
    refine ⟨done++[(byteLength front+1,first)],?_,by simp⟩
    rw [List.append_nil] at hloop
    rw [hloop]
    exact closeItems_ok hsrc hbound
  | cons next items ih =>
    rw [commas_cons_cons] at hsrc ⊢
    have hsource' : source=front++first ++ ','::commas (next::items) := by
      rw [hsrc,List.append_assoc]
    have hloop : splitLoop source allowVector line limit
        (first ++ ','::commas (next::items)) (byteLength front)
        ⟨done,byteLength front,.plain⟩=_ :=
      splitLoop_pass (hpass first (by simp)) (','::commas (next::items))
    have hfirst : done.length+1 ≤ ItemLimit.bound limit := by
      simp only [List.length_cons] at hbound
      omega
    rw [hloop,← byteLength_append,splitLoop_separator hsource' hfirst]
    obtain ⟨found,hrun,hfound⟩ := ih (front++first++[',']) next
      (done++[(byteLength front+1,first)])
      (fun item hitem => hpass item (List.mem_cons_of_mem _ hitem))
      (by rw [hsource']; simp)
      (by simp only [List.length_append,List.length_cons,List.length_nil] at hbound ⊢; omega)
    exact ⟨found,hrun,by simp [hfound]⟩

/-- Splitting undoes joining. -/
theorem splitItems_commas {items : List Text} (line : ℕ) (hne : items≠[])
    (hpass : ∀ item∈items, pass allowVector .plain item=some .plain)
    (hbound : items.length ≤ ItemLimit.bound limit) :
    ∃ found, splitItems (commas items) allowVector line limit=.ok found ∧
      found.map Prod.snd=items := by
  obtain ⟨first,items,rfl⟩ := List.exists_cons_of_ne_nil hne
  rw [splitItems_eq]
  exact splitLoop_commas items [] first [] hpass rfl (by simpa using hbound)

/-! ## Atoms, vectors and cells are passed over -/

/-- Outside quotes at a bracket depth. -/
def Mode.at (depth : ℕ) : Mode := ⟨false,false,depth⟩

/-- Inside quotes. -/
def Mode.inQuotes (depth : ℕ) : Mode := ⟨true,false,depth⟩

/-- A character the splitter does not look at outside quotes. -/
def IsInert (c : Char) : Prop := c∉['"','[',']',',']

instance (c : Char) : Decidable (IsInert c) := inferInstanceAs (Decidable (c∉_))

theorem pass_inert {text : Text} (h : ∀ c∈text, IsInert c) :
    pass allowVector (Mode.at depth) text=some (Mode.at depth) := by
  induction text with
  | nil => rfl
  | cons c text ih =>
    have hc := h c (by simp)
    simp only [IsInert,List.mem_cons,List.not_mem_nil,or_false,not_or] at hc
    have hturn : turn allowVector (Mode.at depth) c=.stay (Mode.at depth) := by
      simp [turn,Mode.at,hc]
    rw [pass,hturn]
    exact ih fun d hd => h d (List.mem_cons_of_mem _ hd)

/-- Inside quotes everything but a quote and a backslash is passed over. -/
theorem pass_inQuotes {text : Text} (h : ∀ c∈text, c ≠ '"' ∧ c ≠ '\\') :
    pass allowVector (Mode.inQuotes depth) text=some (Mode.inQuotes depth) := by
  induction text with
  | nil => rfl
  | cons c text ih =>
    have hturn : turn allowVector (Mode.inQuotes depth) c=.stay (Mode.inQuotes depth) := by
      simp [turn,Mode.inQuotes,h c (by simp)]
    rw [pass,hturn]
    exact ih fun d hd => h d (List.mem_cons_of_mem _ hd)

/-- A backslash and the character after it are passed over together. -/
theorem pass_escape (depth : ℕ) (c : Char) (rest : Text) :
    pass allowVector (Mode.inQuotes depth) ('\\'::c::rest) =
      pass allowVector (Mode.inQuotes depth) rest := rfl

theorem ne_of_isHexDigit (h : isHexDigit c=true) : c ≠ '"' ∧ c ≠ '\\' := by
  constructor
  · rintro rfl
    exact absurd h (by decide)
  · rintro rfl
    exact absurd h (by decide)

theorem pass_quotedChar {text : Text} (h : QuotedChar text c) :
    pass allowVector (Mode.inQuotes depth) text=some (Mode.inQuotes depth) := by
  cases h with
  | plain hquote hslash _ => exact pass_inQuotes (by simp [hquote,hslash])
  | short _ => rfl
  | @unicode _ number _ _ hhex _ =>
    refine (pass_escape depth 'u' ('\x7b'::number++['\x7d'])).trans
      (pass_inQuotes fun d hd => ?_)
    simp only [List.cons_append,List.mem_cons,List.mem_append,List.not_mem_nil,or_false] at hd
    obtain rfl | hd | rfl := hd
    · decide
    · exact ne_of_isHexDigit (hhex d hd)
    · decide

theorem pass_quotedText {text value : Text} (h : QuotedText text value) :
    pass allowVector (Mode.inQuotes depth) text=some (Mode.inQuotes depth) := by
  induction h with
  | nil => rfl
  | cons hc _ ih =>
    rw [pass_append,pass_quotedChar hc]
    exact ih

theorem isInert_bareChars : ∀ c∈bareChars, IsInert c := forall_mem_of_all (by decide)

theorem isInert_decimalDigits : ∀ c∈decimalDigits, IsInert c := forall_mem_of_all (by decide)

theorem pass_atomText {text : Text} {a : Atom} (h : AtomText text a) :
    pass allowVector (Mode.at depth) text=some (Mode.at depth) := by
  cases h with
  | null => exact pass_inert (forall_mem_of_all (by decide))
  | reference id =>
    refine pass_inert fun c hc => ?_
    obtain rfl | hc := List.mem_cons.1 hc
    · decide
    · exact isInert_decimalDigits c (mem_decimal hc)
  | bare _ hbare _ => exact pass_inert fun c hc => isInert_bareChars c (hbare c hc)
  | @quoted source _ hquoted =>
    have hopen : pass allowVector (Mode.at depth) ('"'::source++['"']) =
        pass allowVector (Mode.inQuotes depth) (source++['"']) := rfl
    rw [hopen,pass_append,pass_quotedText hquoted]
    rfl

/-- Inside brackets commas do not separate. -/
theorem pass_commas {items : List Text}
    (h : ∀ item∈items, pass allowVector (Mode.at 1) item=some (Mode.at 1)) :
    pass allowVector (Mode.at 1) (commas items)=some (Mode.at 1) := by
  induction items with
  | nil => rfl
  | cons item items ih =>
    have hitem := h item (by simp)
    have hrest := ih fun next hnext => h next (List.mem_cons_of_mem _ hnext)
    cases items with
    | nil => rwa [commas_singleton]
    | cons next items =>
      rw [commas_cons_cons,pass_append,hitem]
      exact hrest

theorem pass_vectorText {text : Text} {atoms : List Atom} (h : VectorText text atoms) :
    pass true .plain text=some .plain := by
  obtain ⟨items,hitems,rfl⟩ := h
  have hpass : pass true (Mode.at 1) (commas items)=some (Mode.at 1) := by
    refine pass_commas fun item hitem => ?_
    obtain ⟨a,-,ha⟩ := forall₂_mem_left hitems hitem
    exact pass_atomText ha
  have hopen : pass true .plain ('['::commas items++[']']) =
      pass true (Mode.at 1) (commas items++[']']) := rfl
  rw [hopen,pass_append,hpass]
  rfl

theorem pass_cellText {text : Text} {cell : Cell} (h : CellText text cell) :
    pass true .plain text=some .plain := by
  cases h with
  | atom h => exact pass_atomText h
  | vector h => exact pass_vectorText h

end Ash.AsonItems
