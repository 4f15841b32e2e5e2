import Ash.StreamProjections

/-! # Detection of text in a stream

However a stream is divided, what is seen of it depends on its bytes alone: the characters that
decode, and a rest that does not begin with one. -/

namespace Ash.StreamProjections
open ByteCodecs TextSlices

/-! ## Characters that are cut off -/

theorem isCutOff_of_append {front back : Bytes} (hne : front≠[])
    (h : isCutOff (front++back)=true) : isCutOff front=true := by
  match front, back, h with
  | [_], [], h | [_,_], [], h | [_,_,_], [], h => exact h
  | [_], [_], h | [_], [_,_], h | [_,_], [_], h =>
    simp only [List.cons_append,List.nil_append,isCutOff,Bool.and_eq_true,decide_eq_true_eq,
      UInt8.le_iff_toNat_le,UInt8.reduceToNat] at h ⊢
    grind

theorem allowsSecond_ofNat {a b : ℕ} (ha : a < 256) (hb : 128 ≤ b ∧ b ≤ 191)
    (h : (a=224 → 160 ≤ b) ∧ (a=237 → b ≤ 159) ∧ (a=240 → 144 ≤ b) ∧ (a=244 → b ≤ 143)) :
    allowsSecond (UInt8.ofNat a) (UInt8.ofNat b)=true := by
  simp only [allowsSecond,isContinuation,← UInt8.toNat_inj,UInt8.le_iff_toNat_le,
    UInt8.toNat_ofNat_of_lt' ha,UInt8.toNat_ofNat_of_lt' (show b < 256 by omega),UInt8.reduceToNat]
  split_ifs <;> simp <;> omega

theorem isCutOff_dropLast {c : Char} (hc : 128 ≤ c.val.toNat) :
    isCutOff (String.utf8EncodeChar c).dropLast=true := by
  have hvalid : c.val.toNat < 0xd800 ∨ 0xdfff < c.val.toNat ∧ c.val.toNat < 0x110000 := c.valid
  unfold String.utf8EncodeChar
  generalize c.val.toNat=v at hc hvalid
  simp only [if_neg (show ¬ v ≤ 127 by omega)]
  split_ifs
  all_goals simp only [List.dropLast,isCutOff,isContinuation,Bool.and_eq_true,decide_eq_true_eq,
    UInt8.le_iff_toNat_le,UInt8.reduceToNat,UInt8.toNat_ofNat']
  · omega
  · refine ⟨by omega,allowsSecond_ofNat ?_ ?_ ?_⟩ <;> omega
  · refine ⟨⟨by omega,allowsSecond_ofNat ?_ ?_ ?_⟩,?_⟩ <;> omega

/-- The bytes of a character without the last ones are a character cut off. -/
theorem isCutOff_of_encoded {c : Char} {front back : Bytes}
    (h : String.utf8EncodeChar c=front++back) (hfront : front≠[]) (hback : back≠[]) :
    isCutOff front=true := by
  have hc : 128 ≤ c.val.toNat := by
    by_contra hlt
    have hone : (String.utf8EncodeChar c).length=1 := by
      rw [utf8EncodeChar_ascii (Nat.lt_of_not_le hlt),List.length_singleton]
    rw [h,List.length_append] at hone
    have := List.length_pos_iff.2 hfront
    have := List.length_pos_iff.2 hback
    omega
  have hcut := isCutOff_dropLast hc
  rw [h,List.dropLast_append_of_ne_nil hback] at hcut
  exact isCutOff_of_append hfront hcut

/-- What is no character and no part of one stays so. -/
theorem invalid_append {rest : Bytes} (hne : rest≠[]) (hnone : decodeChar rest=none)
    (hcut : isCutOff rest=false) (chunk : Bytes) :
    decodeChar (rest++chunk)=none ∧ isCutOff (rest++chunk)=false := by
  refine ⟨?_,?_⟩
  · by_contra hsome
    obtain ⟨c,hc⟩ := Option.ne_none_iff_exists'.1 hsome
    obtain ⟨more,hmore⟩ := append_of_decodeChar hc
    rcases List.append_eq_append_iff.1 hmore with ⟨back,hchar,-⟩ | ⟨back,hrest,-⟩
    · by_cases hback : back=[]
      · rw [hback,List.append_nil] at hchar
        have hfound := decodeChar_append c []
        rw [List.append_nil,hchar,hnone] at hfound
        cases hfound
      · rw [isCutOff_of_encoded hchar hne hback] at hcut
        cases hcut
    · rw [hrest,decodeChar_append] at hnone
      cases hnone
  · by_contra hyes
    rw [isCutOff_of_append hne (by simpa using hyes)] at hcut
    cases hcut

/-! ## The front that decodes -/

/-- The bytes after the front that decodes. -/
def restOf (bytes : Bytes) : Bytes := invalidRest bytes.length bytes

theorem invalidRest_spec {fuel : ℕ} {bytes : Bytes} (h : bytes.length ≤ fuel) :
    ∃ text, bytes=utf8 text++invalidRest fuel bytes ∧
      decodeChar (invalidRest fuel bytes)=none := by
  induction fuel generalizing bytes with
  | zero =>
    obtain rfl := List.length_eq_zero_iff.1 (Nat.le_zero.1 h)
    exact ⟨[],rfl,by decide⟩
  | succ fuel ih =>
    rw [invalidRest]
    split
    · next hnone => exact ⟨[],rfl,hnone⟩
    · next c hc =>
      obtain ⟨more,rfl⟩ := append_of_decodeChar hc
      have hpos := c.utf8Size_pos
      have hsize := String.length_utf8EncodeChar c
      rw [List.length_append] at h
      rw [List.drop_left' hsize]
      obtain ⟨text,hmore,hnone⟩ := ih (show more.length ≤ fuel by omega)
      refine ⟨c::text,?_,hnone⟩
      rw [utf8,List.flatMap_cons,← utf8,List.append_assoc,← hmore]

theorem restOf_spec (bytes : Bytes) :
    ∃ text, bytes=utf8 text++restOf bytes ∧ decodeChar (restOf bytes)=none :=
  invalidRest_spec le_rfl

theorem rest_unique {left right : Text} {rest rest' : Bytes}
    (h : utf8 left++rest=utf8 right++rest') (hrest : decodeChar rest=none)
    (hrest' : decodeChar rest'=none) : rest=rest' := by
  have hcons : ∀ c text more, utf8 (c::text)++more =
      String.utf8EncodeChar c++(utf8 text++more) := fun _ _ _ => List.append_assoc ..
  induction left generalizing right with
  | nil =>
    obtain _ | ⟨d,right⟩ := right
    · exact h
    · have hfirst := congrArg decodeChar h
      rw [hcons,decodeChar_append] at hfirst
      cases hrest.symm.trans hfirst
  | cons c left ih =>
    rw [hcons] at h
    have hfirst := congrArg decodeChar h
    rw [decodeChar_append] at hfirst
    obtain _ | ⟨d,right⟩ := right
    · cases hrest'.symm.trans hfirst.symm
    · rw [hcons,decodeChar_append,Option.some.injEq] at hfirst
      subst hfirst
      rw [hcons] at h
      exact ih (List.append_cancel_left h)

theorem restOf_eq {bytes rest : Bytes} {text : Text} (h : bytes=utf8 text++rest)
    (hrest : decodeChar rest=none) : restOf bytes=rest := by
  obtain ⟨decoded,hbytes,hnone⟩ := restOf_spec bytes
  exact rest_unique (hbytes.symm.trans h) hnone hrest

theorem restOf_append (front back : Bytes) :
    restOf (front++back)=restOf (restOf front++back) := by
  obtain ⟨text,hfront,-⟩ := restOf_spec front
  obtain ⟨more,hmore,hnone⟩ := restOf_spec (restOf front++back)
  have hsplit : front++back=utf8 (text++more)++restOf (restOf front++back) := by
    rw [utf8,List.flatMap_append,← utf8,← utf8,List.append_assoc,← hmore,← List.append_assoc,
      ← hfront]
  exact restOf_eq hsplit hnone

theorem restOf_eq_nil_iff {bytes : Bytes} : restOf bytes=[] ↔ ∃ text, bytes=utf8 text := by
  constructor
  · intro h
    obtain ⟨text,hbytes,-⟩ := restOf_spec bytes
    rw [h,List.append_nil] at hbytes
    exact ⟨text,hbytes⟩
  · rintro ⟨text,rfl⟩
    exact restOf_eq (List.append_nil _).symm (by decide)

/-! ## What is seen -/

variable {α : Type} [DecidableEq α]

theorem containsPair_append (first second : α) (left right : List α) :
    containsPair first second (left++right) =
      (containsPair first second left ||
        (decide (left.getLast?=some first) && decide (right.head?=some second)) ||
        containsPair first second right) := by
  induction left with
  | nil => simp [containsPair]
  | cons a left ih =>
    cases left with
    | nil => cases right <;> simp [containsPair]
    | cons b left =>
      rw [List.cons_append,List.cons_append,containsPair,← List.cons_append,ih,containsPair,
        List.getLast?_cons_cons]
      simp only [Bool.or_assoc]

theorem containsPair_iff {first second : α} {items : List α} :
    containsPair first second items=true ↔ [first,second] <:+: items := by
  induction items with
  | nil => simp [containsPair]
  | cons a items ih =>
    rw [List.infix_cons_iff,← ih]
    cases items with
    | nil => simp [containsPair]
    | cons b items =>
      rw [containsPair,Bool.or_eq_true,Bool.and_eq_true,decide_eq_true_eq,decide_eq_true_eq,
        List.cons_prefix_cons,List.cons_prefix_cons,eq_comm,eq_comm (a := b)]
      simp

/-- The rest is empty or a character that is cut off. -/
def isOpen (rest : Bytes) : Bool := rest.isEmpty || isCutOff rest

/-- What is seen of a whole stream. -/
def seen (stream : Bytes) : StreamText :=
  ⟨isOpen (restOf stream),if isOpen (restOf stream) then restOf stream else [],
    containsPair 13 10 stream,decide (stream.getLast?=some 13)⟩

theorem validate_eq (text : StreamText) (bytes : Bytes) :
    text.validate bytes=if isOpen (restOf bytes) then { text with pending := restOf bytes }
      else { text with valid := false, pending := [] } := by
  unfold StreamText.validate
  split
  · next found hfound =>
    have hrest := restOf_eq_nil_iff.2 ⟨found,decodeUtf8_eq_some_iff.1 hfound⟩
    rw [hrest]
    rfl
  · next hnone =>
    have hne : restOf bytes≠[] := by
      intro hrest
      obtain ⟨text,htext⟩ := restOf_eq_nil_iff.1 hrest
      rw [htext,decodeUtf8_utf8] at hnone
      cases hnone
    have hshort : isCutOff (restOf bytes)=true → (restOf bytes).length ≤ 3 := by
      match restOf bytes with
      | [] | [_] | [_,_] | [_,_,_] => simp
      | _::_::_::_::_ => exact fun h => nomatch h
    change (if isCutOff (restOf bytes)=true ∧ (restOf bytes).length ≤ 3 then _ else _)=_
    simp only [isOpen,List.isEmpty_eq_false_iff.2 hne,Bool.false_or,and_iff_left_of_imp hshort]
    rfl

theorem observe_seen (stream chunk : Bytes) : (seen stream).observe chunk=seen (stream++chunk) := by
  by_cases hempty : chunk=[]
  · rw [hempty,List.append_nil,StreamText.observe,if_pos rfl]
  rw [StreamText.observe,if_neg hempty,seen,seen,containsPair_append,restOf_append,
    List.getLast?_append_of_ne_nil _ hempty]
  dsimp only
  by_cases hopen : isOpen (restOf stream)=true
  · rw [if_pos hopen,if_pos hopen,validate_eq]
    split
    · next hstill => simp only [hstill,hopen]
    · next hstill => simp only [hstill]
  · -- what is neither is the front of every longer rest
    have hboth : restOf stream≠[] ∧ isCutOff (restOf stream)=false := by
      simpa [isOpen] using hopen
    obtain ⟨-,-,hnone⟩ := restOf_spec stream
    obtain ⟨hstuck,hcut⟩ := invalid_append hboth.1 hnone hboth.2 chunk
    have hrest : restOf (restOf stream++chunk)=restOf stream++chunk :=
      restOf_eq (show _=utf8 []++_ from rfl) hstuck
    have hclosed : isOpen (restOf stream++chunk)=false := by
      simp [isOpen,hboth.1,hcut]
    simp only [hrest,hclosed,hopen]
    rfl

theorem foldl_observe_seen (chunks : List Bytes) (stream : Bytes) :
    chunks.foldl StreamText.observe (seen stream)=seen (stream++chunks.flatten) := by
  induction chunks generalizing stream with
  | nil => rw [List.flatten_nil,List.append_nil,List.foldl_nil]
  | cons chunk chunks ih =>
    rw [List.foldl_cons,observe_seen,ih,List.append_assoc,List.flatten_cons]

/-- Text and line endings are detected as in the whole stream, however it is divided. -/
theorem observe_exact (chunks : List Bytes) :
    ((chunks.foldl StreamText.observe .default).isText=true ↔
      ∃ text, chunks.flatten=utf8 text) ∧
    ((chunks.foldl StreamText.observe .default).normalized=true ↔
      [13,10] <:+: chunks.flatten) := by
  have hseen : chunks.foldl StreamText.observe .default=seen chunks.flatten :=
    foldl_observe_seen chunks []
  rw [hseen]
  refine ⟨?_,containsPair_iff⟩
  rw [← restOf_eq_nil_iff,StreamText.isText,seen]
  cases hrest : restOf chunks.flatten with
  | nil => simp [isOpen]
  | cons byte rest =>
    by_cases hopen : isOpen (byte::rest)=true <;> simp [hopen]

end Ash.StreamProjections
