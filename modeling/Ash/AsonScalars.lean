import Ash.AsonGrammar

/-! # Scalars

What the scalar decoder accepts is what the grammar calls an atom. -/

namespace Ash.AsonScalars
open ByteCodecs Numerals TextSlices AsonDocuments AsonParser AsonGrammar ParserOutcomes

/-! ## Bytes of the grammar's characters -/

theorem all_isAsciiDigit (text : Text) :
    (utf8 text).all isAsciiDigit=true ↔ ∀ c∈text, c∈decimalDigits :=
  all_utf8_mem (by decide +kernel) text

theorem all_isBareByte (text : Text) :
    (utf8 text).all isBareByte=true ↔ ∀ c∈text, c∈bareChars :=
  all_utf8_mem (by decide +kernel) text

variable {c : Char}

theorem mem_decimalDigits : c∈decimalDigits ↔ c.isDigit=true := by
  constructor
  · exact forall_mem_of_all (p := fun c : Char => c.isDigit=true) (by decide) c
  · intro h
    simp only [Char.isDigit,Bool.and_eq_true,decide_eq_true_eq] at h
    have hlo : 48 ≤ c.toNat := UInt32.le_iff_toNat_le.1 h.1
    have hhi : c.toNat ≤ 57 := UInt32.le_iff_toNat_le.1 h.2
    have hall : ∀ n < 128, 48 ≤ n → n ≤ 57 → Char.ofNat n∈decimalDigits := by decide
    have := hall c.toNat (by omega) hlo hhi
    rwa [Char.ofNat_toNat] at this

/-! ## Quoted texts -/

theorem utf8Size_of_isHexDigit (h : isHexDigit c=true) : c.utf8Size=1 := by
  have hlt : c.toNat ≤ 127 := (toNat_of_isHexDigit h).2.trans (by decide)
  exact Char.utf8Size_eq_one_iff.2 (UInt32.le_iff_toNat_le.2 hlt)

theorem byteLength_of_hex {text : Text} (h : ∀ c∈text, isHexDigit c=true) :
    byteLength text=text.length := by
  induction text with
  | nil => rfl
  | cons c text ih =>
    rw [byteLength_cons,utf8Size_of_isHexDigit (h c (by simp)),ih fun d hd => h d (by simp [hd]),
      List.length_cons,Nat.add_comm]

theorem yields_parseUnicodeDigits (line column : ℕ) (chars acc : Text)
    (hacc : ∀ c∈acc, isHexDigit c=true) (hlen : acc.length ≤ 6) :
    Yields (parseUnicodeDigits line column chars acc) fun r => ∃ number, r.1=acc++number ∧
      chars=number ++ '\x7d'::r.2 ∧ (∀ c∈number, isHexDigit c=true) ∧
      acc.length+number.length ≤ 6 := by
  induction chars generalizing acc with
  | nil =>
    refine yields_fail _ fun r => ?_
    simp
  | cons c chars ih =>
    have hgood : ¬ (!isHexDigit c || byteLength acc=6)=true ↔
        isHexDigit c=true ∧ acc.length+1 ≤ 6 := by
      rw [byteLength_of_hex hacc,Bool.or_eq_true,Bool.not_eq_true',decide_eq_true_eq,not_or,
        Bool.not_eq_false]
      exact and_congr_right fun _ => by omega
    rw [parseUnicodeDigits]
    refine (yields_ite (fun _ => yields_ok (acc,chars)) fun _ => yields_guard _ fun h =>
      ih (acc++[c]) ?_ ?_).congr fun r => ?_
    · intro d hd
      obtain hd | hd := List.mem_append.1 hd
      · exact hacc d hd
      · rw [List.mem_singleton.1 hd]
        exact (hgood.1 h).1
    · rw [List.length_append]
      exact (hgood.1 h).2
    rw [hgood]
    constructor
    · rintro (⟨rfl,rfl⟩ | ⟨-,hc,number,hr,rfl,hhex,hle⟩)
      · exact ⟨[],by simp,rfl,by simp,hlen⟩
      · refine ⟨c::number,by simp [hr],rfl,List.forall_mem_cons.2 ⟨hc.1,hhex⟩,?_⟩
        simp only [List.length_append,List.length_cons,List.length_nil] at hle ⊢
        omega
    · rintro ⟨number,hr,hchars,hhex,hle⟩
      cases number with
      | nil =>
        cases hchars
        exact .inl ⟨rfl,Prod.ext (by simpa using hr) rfl⟩
      | cons d number =>
        cases hchars
        rw [List.forall_mem_cons] at hhex
        rw [List.length_cons] at hle
        refine .inr ⟨?_,⟨hhex.1,by omega⟩,number,by simp [hr],rfl,hhex.2,?_⟩
        · rintro rfl
          exact absurd hhex.1 (by decide)
        · rw [List.length_append,List.length_singleton]
          omega

theorem yields_parseUnicodeEscape (line column : ℕ) (chars : Text) :
    Yields (parseUnicodeEscape line column chars) fun r => ∃ number, number≠[] ∧
      number.length ≤ 6 ∧ (∀ c∈number, isHexDigit c=true) ∧ ofHex number=r.1.toNat ∧
      chars = '\x7b'::number ++ '\x7d'::r.2 := by
  unfold parseUnicodeEscape
  split
  · next chars =>
    refine ((yields_parseUnicodeDigits line column chars [] (by simp) (by simp)).bind
      (R := fun p r => p.1≠[] ∧ ofHex p.1=r.1.toNat ∧ r.2=p.2) fun p _ => ?_).congr ?_
    · dsimp only
      by_cases hne : p.1=[]
      · rw [if_pos hne]
        exact yields_fail _ fun r => by simp [hne]
      · rw [if_neg hne]
        by_cases hvalid : (ofHex p.1).isValidChar
        · rw [dif_pos hvalid]
          refine (yields_ok _).congr fun r => ?_
          constructor
          · rintro rfl
            exact ⟨hne,rfl,rfl⟩
          · rintro ⟨-,hc,hr⟩
            exact Prod.ext (Char.toNat_inj.1 hc.symm) hr
        · rw [dif_neg hvalid]
          refine yields_fail _ fun r => ?_
          rintro ⟨-,hc,-⟩
          rw [hc] at hvalid
          exact hvalid r.1.valid
    · intro r
      constructor
      · rintro ⟨⟨number,rest⟩,⟨number',hn,hchars,hhex,hlen⟩,hne,hc,hr⟩
        cases hn
        cases hr
        exact ⟨number,hne,by simpa using hlen,hhex,hc,by rw [hchars]; rfl⟩
      · rintro ⟨number,hne,hlen,hhex,hc,hchars⟩
        exact ⟨(number,r.2),⟨number,rfl,List.cons.inj hchars |>.2,hhex,by simpa using hlen⟩,hne,hc,
          rfl⟩
  · next hno =>
    refine yields_fail _ fun r => ?_
    rintro ⟨number,-,-,-,-,rfl⟩
    exact hno _ rfl

theorem shortEscape_eq_some {escape : Char} :
    shortEscape escape=some c ↔ ShortEscape escape c := by
  unfold shortEscape
  split <;> simp_all [ShortEscape,eq_comm]

/-- The characters at which a quoted character can start. -/
theorem quotedChar_front {next : Char} {chars rest : Text} :
    (∃ first, QuotedChar first next ∧ c::chars=first++rest) ↔
      (c ≠ '"' ∧ c ≠ '\\' ∧ isControl c=false ∧ next=c ∧ rest=chars) ∨
      (c = '\\' ∧ ∃ escape, ShortEscape escape next ∧ chars=escape::rest) ∨
      (c = '\\' ∧ ∃ number, number≠[] ∧ number.length ≤ 6 ∧
        (∀ d∈number, isHexDigit d=true) ∧ ofHex number=next.toNat ∧
        chars = 'u' :: '\x7b'::number ++ '\x7d'::rest) := by
  constructor
  · rintro ⟨first,hfirst,heq⟩
    cases hfirst with
    | plain hquote hslash hctl =>
      cases heq
      exact .inl ⟨hquote,hslash,hctl,rfl,rfl⟩
    | @short escape _ hescape =>
      cases heq
      exact .inr (.inl ⟨rfl,escape,hescape,rfl⟩)
    | @unicode _ number hne hlen hhex hvalue =>
      obtain ⟨rfl,rfl⟩ := List.cons.inj heq
      exact .inr (.inr ⟨rfl,number,hne,hlen,hhex,hvalue,by simp⟩)
  · rintro (⟨hquote,hslash,hctl,rfl,rfl⟩ | ⟨rfl,escape,hescape,rfl⟩ |
      ⟨rfl,number,hne,hlen,hhex,hvalue,rfl⟩)
    · exact ⟨_,.plain hquote hslash hctl,rfl⟩
    · exact ⟨_,.short hescape,rfl⟩
    · exact ⟨_,.unicode hne hlen hhex hvalue,by simp⟩

/-- One round of the loop reads one character of the grammar, or the closing quote. -/
theorem yields_quotedChar (line column total : ℕ) (c : Char) (chars : Text)
    (htotal : byteLength (c::chars) ≤ total) :
    Yields (quotedChar line column (total - byteLength (c::chars)) total c chars) fun r =>
      (r=none ∧ c = '"' ∧ chars=[]) ∨ ∃ next rest, r=some (next,rest) ∧
        ∃ first, QuotedChar first next ∧ c::chars=first++rest := by
  simp only [quotedChar_front]
  unfold quotedChar
  by_cases hquote : c = '"'
  · rw [if_pos hquote]
    subst hquote
    have hsize : ('"').utf8Size=1 := by decide
    rw [byteLength_cons,hsize] at htotal ⊢
    by_cases hend : chars=[]
    · rw [if_neg (by simp [hend]; simp [hend] at htotal; omega)]
      refine (yields_ok _).congr fun r => ?_
      simp [hend]
    · have hpos : 0 < byteLength chars := by
        have := mt byteLength_eq_zero.1 hend
        omega
      rw [if_pos (by omega)]
      refine yields_fail _ fun r => ?_
      simp [hend]
  rw [if_neg hquote]
  by_cases hslash : c = '\\'
  · rw [if_pos hslash]
    subst hslash
    cases chars with
    | nil =>
      refine yields_fail _ fun r => ?_
      simp
    | cons escape chars =>
      dsimp only
      cases hshort : shortEscape escape with
      | some plain =>
        refine (yields_ok _).congr fun r => ?_
        have hne : escape ≠ 'u' := fun h => by
          rw [h] at hshort
          cases hshort
        constructor
        · rintro rfl
          exact .inr ⟨plain,chars,rfl,.inr (.inl ⟨rfl,escape,shortEscape_eq_some.1 hshort,rfl⟩)⟩
        · rintro (⟨-,h,-⟩ | ⟨next,rest,rfl,⟨-,h,-⟩ | ⟨-,other,hother,heq⟩ |
            ⟨-,number,-,-,-,-,heq⟩⟩)
          · cases h
          · exact absurd rfl h
          · cases heq
            rw [← shortEscape_eq_some,hshort] at hother
            rw [Option.some.inj hother]
          · cases heq
            exact absurd rfl hne
      | none =>
        have hnoShort : ∀ {next other}, ShortEscape other next → other≠escape := by
          rintro next other hother rfl
          rw [← shortEscape_eq_some,hshort] at hother
          cases hother
        by_cases hu : escape = 'u'
        · rw [if_pos hu]
          subst hu
          refine ((yields_parseUnicodeEscape line _ chars).bind fun found _ =>
            yields_pure (some found)).congr fun r => ?_
          constructor
          · rintro ⟨⟨next,rest⟩,⟨number,hne,hlen,hhex,hvalue,rfl⟩,rfl⟩
            exact .inr ⟨next,rest,rfl,.inr (.inr ⟨rfl,number,hne,hlen,hhex,hvalue,rfl⟩)⟩
          · rintro (⟨-,h,-⟩ | ⟨next,rest,rfl,⟨-,h,-⟩ | ⟨-,other,hother,heq⟩ |
              ⟨-,number,hne,hlen,hhex,hvalue,heq⟩⟩)
            · cases h
            · exact absurd rfl h
            · cases heq
              exact absurd rfl (hnoShort hother)
            · exact ⟨(next,rest),⟨number,hne,hlen,hhex,hvalue,(List.cons.inj heq).2⟩,rfl⟩
        · rw [if_neg hu]
          refine yields_fail _ fun r => ?_
          rintro (⟨-,h,-⟩ | ⟨next,rest,rfl,⟨-,h,-⟩ | ⟨-,other,hother,heq⟩ |
            ⟨-,number,-,-,-,-,heq⟩⟩)
          · cases h
          · exact h rfl
          · cases heq
            exact hnoShort hother rfl
          · cases heq
            exact hu rfl
  rw [if_neg hslash]
  by_cases hctl : isControl c=true
  · rw [if_pos hctl]
    refine yields_fail _ fun r => ?_
    simp [hquote,hslash,hctl]
  · rw [if_neg hctl]
    refine (yields_ok _).congr fun r => ?_
    constructor
    · rintro rfl
      exact .inr ⟨c,chars,rfl,.inl ⟨hquote,hslash,by simpa using hctl,rfl,rfl⟩⟩
    · rintro (⟨-,h,-⟩ | ⟨next,rest,rfl,⟨-,-,-,rfl,rfl⟩ | ⟨h,-⟩ | ⟨h,-⟩⟩)
      · exact absurd h hquote
      · rfl
      · exact absurd h hslash
      · exact absurd h hslash

theorem yields_enforce (actual max : ℕ) (kind : LimitKind) (line : ℕ) :
    Yields (enforce actual max kind line) fun _ => actual ≤ max := by
  exact (yields_guard _ fun _ => yields_ok ()).congr fun _ => by simp

theorem yields_enforced {α : Type} {P : α → Prop} {r : Outcome α} {actual max : ℕ}
    {kind : LimitKind} {line : ℕ} (h : actual ≤ max → Yields r P) :
    Yields (enforce actual max kind line >>= fun _ => r) fun a => actual ≤ max ∧ P a :=
  ((yields_enforce actual max kind line).bind fun _ => h).congr fun a => by simp

theorem quotedChar_ne_nil {first : Text} (h : QuotedChar first c) : first≠[] := by
  cases h <;> simp

/-- The loop reads a quoted text up to its closing quote, within the ceiling. -/
theorem yields_quotedLoop (line column max total fuel : ℕ) (chars output : Text)
    (htotal : byteLength chars ≤ total) (hfuel : chars.length < fuel)
    (hmax : byteLength output ≤ max) :
    Yields (quotedLoop line column max total fuel chars output) fun text =>
      ∃ source value, chars=source++['"'] ∧ QuotedText source value ∧
        text=output++value ∧ byteLength text ≤ max := by
  induction fuel generalizing chars output with
  | zero => omega
  | succ fuel ih =>
    cases chars with
    | nil =>
      refine yields_fail _ fun text => ?_
      simp
    | cons c chars =>
      rw [quotedLoop]
      refine ((yields_quotedChar line column total c chars htotal).bind
        (R := fun r text => r.elim (text=output) fun found =>
          ∃ source value, found.2=source++['"'] ∧ QuotedText source value ∧
            text=output++[found.1]++value ∧ byteLength text ≤ max) fun r hr => ?_).congr
        fun text => ?_
      · rcases hr with ⟨rfl,-⟩ | ⟨next,rest,rfl,first,hfirst,heq⟩
        · exact yields_ok output
        have hlen := congrArg List.length heq
        have hbytes := congrArg byteLength heq
        have hpos := List.length_pos_iff.2 (quotedChar_ne_nil hfirst)
        rw [List.length_append,List.length_cons] at hlen
        rw [List.length_cons] at hfuel
        rw [byteLength_append] at hbytes
        refine (yields_enforced fun hle => ih rest (output++[next]) (by omega) (by omega)
          hle).congr fun text => and_iff_right_of_imp ?_
        rintro ⟨source,value,-,-,rfl,hle⟩
        rw [byteLength_append] at hle
        omega
      · constructor
        · rintro ⟨r,⟨rfl,rfl,rfl⟩ | ⟨next,rest,rfl,first,hfirst,heq⟩,hR⟩
          · exact ⟨[],[],rfl,.nil,by simpa using hR,by rw [hR]; exact hmax⟩
          · obtain ⟨source,value,rfl,hq,rfl,hle⟩ := hR
            exact ⟨first++source,next::value,by simp [heq],.cons hfirst hq,by simp,hle⟩
        · rintro ⟨source,value,heq,hq,rfl,hle⟩
          cases hq with
          | nil =>
            cases heq
            exact ⟨none,.inl ⟨rfl,rfl,rfl⟩,by simp⟩
          | @cons next first source value hfirst hq =>
            refine ⟨some (next,source++['"']),.inr ⟨next,_,rfl,first,hfirst,?_⟩,source,value,rfl,
              hq,by simp,hle⟩
            simpa using heq

theorem yields_quoted (line column max : ℕ) (source : Text) (hquote : source.head?=some '"') :
    Yields (quoted source line column max) fun value =>
      (∃ inner, source = '"'::inner++['"'] ∧ QuotedText inner value) ∧
        byteLength value ≤ max := by
  obtain ⟨chars,rfl⟩ : ∃ chars, source = '"'::chars := by
    cases source with
    | nil => cases hquote
    | cons c chars =>
      cases hquote
      exact ⟨chars,rfl⟩
  have hcut : Yields (cut ('"'::chars) 1 (byteLength ('"'::chars)) : Outcome Text)
      (· = chars) := by
    refine yields_cut ['"'] chars [] (by simp) (by decide) ?_
    simp
  refine (hcut.bind fun chars' _ => yields_quotedLoop line column max (byteLength chars')
    (chars'.length+1) chars' [] le_rfl (by omega) (by simp)).congr fun value => ?_
  constructor
  · rintro ⟨_,rfl,inner,value',rfl,hq,rfl,hle⟩
    exact ⟨⟨inner,by simp,by simpa using hq⟩,hle⟩
  · rintro ⟨⟨inner,heq,hq⟩,hle⟩
    exact ⟨chars,rfl,inner,value,by simpa using heq,hq,rfl,hle⟩

/-! ## Atoms -/

variable {number : Text}

theorem referenceDigits_eq_some {source : Text} :
    referenceDigits source=some number ↔
      source = '@'::number ∧ number≠[] ∧ ∀ c∈number, c∈decimalDigits := by
  unfold referenceDigits
  split
  · next digits =>
    rw [Option.ite_none_right_eq_some,Bool.and_eq_true,all_isAsciiDigit]
    simp only [Bool.not_eq_true',List.isEmpty_eq_false_iff,Option.some.injEq,List.cons.injEq,
      true_and]
    constructor
    · rintro ⟨⟨hne,hall⟩,rfl⟩
      exact ⟨rfl,hne,hall⟩
    · rintro ⟨rfl,hne,hall⟩
      exact ⟨⟨hne,hall⟩,rfl⟩
  · next hno =>
    simp only [reduceCtorEq,false_iff]
    rintro ⟨rfl,-⟩
    exact hno number rfl

theorem byteLength_of_decimalDigits {text : Text} (h : ∀ c∈text, c∈decimalDigits) :
    byteLength text=text.length :=
  have hhex : ∀ c∈decimalDigits, isHexDigit c=true := forall_mem_of_all (by decide)
  byteLength_of_hex fun c hc => hhex c (h c hc)

/-- Digits that pass the test for a leading zero are a canonical numeral. -/
theorem isCanonicalNumeral_iff (hne : number≠[]) (hall : ∀ c∈number, c∈decimalDigits) :
    isCanonicalNumeral number=true ↔ ¬ (1 < byteLength number ∧ number.head?=some '0') := by
  have hdigits : number.all Char.isDigit=true :=
    List.all_eq_true.2 fun c hc => mem_decimalDigits.1 (hall c hc)
  have hempty : number.isEmpty=false := by simpa using hne
  rw [byteLength_of_decimalDigits hall,isCanonicalNumeral,hdigits,hempty]
  by_cases hlen : 1 < number.length <;> simp [hlen]

theorem mem_decimal {n : ℕ} (h : c∈decimal n) : c∈decimalDigits :=
  mem_decimalDigits.2 (isDigit_of_mem_decimal h)

/-- The scalar decoder reads the grammar's atoms, within the ceiling. -/
theorem yields_decodeScalar (source : Text) (line column max : ℕ) :
    Yields (decodeScalar source line column max) fun a => AtomText source a ∧ a.textBytes ≤ max := by
  unfold decodeScalar
  by_cases hempty : source=[]
  · rw [if_pos hempty]
    refine yields_fail _ fun a => ?_
    rintro ⟨h,-⟩
    subst hempty
    cases h with
    | bare hne => exact hne rfl
  rw [if_neg hempty]
  by_cases hnull : source=['~']
  · rw [if_pos hnull]
    refine (yields_ok _).congr fun a => ?_
    subst hnull
    constructor
    · rintro rfl
      exact ⟨.null,Nat.zero_le _⟩
    · rintro ⟨h,-⟩
      cases h with
      | null => rfl
      | bare hne hbare => exact absurd (hbare '~' (by simp)) (by decide)
  rw [if_neg hnull]
  cases hdigits : referenceDigits source with
  | some number =>
    obtain ⟨rfl,hne,hall⟩ := referenceDigits_eq_some.1 hdigits
    have hreference : ∀ {a}, AtomText ('@'::number) a →
        ∃ id : UInt64, number=decimal id.toNat ∧ a=.reference id := by
      intro a h
      generalize hs : '@'::number=source at h
      cases h with
      | null => cases hs
      | reference id => exact ⟨id,(List.cons.inj hs).2,rfl⟩
      | bare _ _ href => exact absurd ⟨number,hne,hall,hs.symm⟩ href
      | quoted _ => cases hs
    dsimp only
    by_cases hzero : 1 < byteLength number ∧ number.head?=some '0'
    · rw [if_pos hzero]
      refine yields_fail _ fun a => ?_
      rintro ⟨h,-⟩
      obtain ⟨id,rfl,-⟩ := hreference h
      exact (isCanonicalNumeral_iff hne hall).1 (isCanonicalNumeral_decimal _) hzero
    rw [if_neg hzero]
    have hcan := decimal_ofDecimal ((isCanonicalNumeral_iff hne hall).2 hzero)
    by_cases hlt : ofDecimal number < 2 ^ 64
    · rw [if_pos hlt]
      refine (yields_ok _).congr fun a => ?_
      have hid : (UInt64.ofNat (ofDecimal number)).toNat=ofDecimal number :=
        UInt64.toNat_ofNat_of_lt' hlt
      constructor
      · rintro rfl
        refine ⟨?_,Nat.zero_le _⟩
        have h := AtomText.reference (UInt64.ofNat (ofDecimal number))
        rwa [hid,hcan] at h
      · rintro ⟨h,-⟩
        obtain ⟨id,rfl,rfl⟩ := hreference h
        rw [ofDecimal_decimal,UInt64.ofNat_toNat]
    · rw [if_neg hlt]
      refine yields_fail _ fun a => ?_
      rintro ⟨h,-⟩
      obtain ⟨id,rfl,-⟩ := hreference h
      rw [ofDecimal_decimal] at hlt
      exact hlt id.toNat_lt
  | none =>
    have hnoref : ¬ ReferenceText source := by
      rintro ⟨number,hne,hall,rfl⟩
      rw [referenceDigits_eq_some.2 ⟨rfl,hne,hall⟩] at hdigits
      cases hdigits
    have hnoid : ∀ {id : UInt64}, source ≠ '@'::decimal id.toNat := by
      rintro id rfl
      exact hnoref ⟨_,decimal_ne_nil _,fun c hc => mem_decimal hc,rfl⟩
    dsimp only
    by_cases hquote : source.head?=some '"'
    · rw [if_pos hquote]
      refine ((yields_quoted line column max source hquote).map Atom.text).congr fun a => ?_
      constructor
      · rintro ⟨value,⟨⟨inner,rfl,hq⟩,hle⟩,rfl⟩
        exact ⟨.quoted hq,hle⟩
      · rintro ⟨h,hle⟩
        cases h with
        | null => cases hquote
        | reference id => exact absurd rfl hnoid
        | bare hne hbare =>
          obtain ⟨c,rest,rfl⟩ := List.exists_cons_of_ne_nil hne
          cases hquote
          exact absurd (hbare '"' (by simp)) (by decide)
        | quoted hq => exact ⟨_,⟨⟨_,rfl,hq⟩,hle⟩,rfl⟩
    · rw [if_neg hquote]
      refine (yields_enforced (P := fun a => a=.text source ∧ ∀ c∈source, c∈bareChars)
        fun _ => ?_).congr fun a => ?_
      · rw [← all_isBareByte]
        split
        · next hbad =>
          refine yields_fail _ fun a => ?_
          simp only [Bool.not_eq_true'] at hbad
          simp [hbad]
        · next hgood =>
          refine (yields_ok _).congr fun a => ?_
          simp only [Bool.not_eq_true',Bool.not_eq_false] at hgood
          simp [hgood]
      · constructor
        · rintro ⟨hle,rfl,hbare⟩
          exact ⟨.bare hempty hbare hnoref,hle⟩
        · rintro ⟨h,hle⟩
          cases h with
          | null => exact absurd rfl hnull
          | reference id => exact absurd rfl hnoid
          | bare hne hbare => exact ⟨hle,rfl,hbare⟩
          | quoted hq => exact absurd rfl hquote

end Ash.AsonScalars
