import Ash.ByteCodecs
import Mathlib.Data.List.Induction
import Mathlib.Data.Nat.Digits.Defs

/-! # Numbers as text

Decimal numerals without leading zeros and hexadecimal numerals of any case, each with the
number it stands for. -/

namespace Ash.Numerals
open ByteCodecs

/-- Digits only, at least one, and no leading zero before others. -/
def isCanonicalNumeral (text : Text) : Bool :=
  !text.isEmpty && text.all Char.isDigit && !(1 < text.length && text.head? == some '0')

def decimal (n : ℕ) : Text := Nat.toDigits 10 n

def ofDecimal (text : Text) : ℕ := Nat.ofDigitChars 10 text 0

def signedText (value : Int64) : Text :=
  if value.toInt < 0 then '-'::decimal value.toInt.natAbs else decimal value.toInt.natAbs

@[simp] theorem ofDecimal_decimal (n : ℕ) : ofDecimal (decimal n)=n :=
  Nat.ofDigitChars_ten_toDigits

theorem decimal_ne_nil (n : ℕ) : decimal n≠[] := Nat.toDigits_ne_nil

variable {c : Char}

theorem isDigit_of_mem_decimal {n : ℕ} (h : c∈decimal n) : c.isDigit=true :=
  Nat.isDigit_of_mem_toDigits (by decide) (by decide) h

private theorem digit_toNat (h : c.isDigit=true) : 48 ≤ c.toNat ∧ c.toNat ≤ 57 := by
  simp only [Char.isDigit,Bool.and_eq_true,decide_eq_true_eq] at h
  exact ⟨UInt32.le_iff_toNat_le.1 h.1,UInt32.le_iff_toNat_le.1 h.2⟩

private theorem digitChar_of_isDigit (h : c.isDigit=true) : Nat.digitChar (c.toNat - 48)=c := by
  obtain ⟨hlo,hhi⟩ := digit_toNat h
  apply Char.toNat_inj.1
  rw [Nat.toNat_digitChar_of_lt_ten (by omega)]
  omega

private theorem isCanonicalNumeral_of_append {text : Text} (hne : text≠[])
    (h : isCanonicalNumeral (text++[c])=true) :
    isCanonicalNumeral text=true ∧ text.head?≠some '0' := by
  cases text with
  | nil => exact absurd rfl hne
  | cons d text =>
    simp only [isCanonicalNumeral,List.cons_append,List.isEmpty_cons,Bool.not_false,Bool.true_and,
      List.all_cons,List.all_append,List.length_cons,List.length_append,List.head?_cons,
      Bool.and_eq_true,Bool.not_eq_true',Bool.and_eq_false_iff,decide_eq_false_iff_not] at h ⊢
    simp only [List.length_nil] at h
    obtain ⟨⟨hd,htext,-⟩,hlen | hzero⟩ := h
    · omega
    · refine ⟨⟨⟨hd,htext⟩,.inr hzero⟩,?_⟩
      simpa using hzero

private theorem ofDecimal_pos {text : Text} (h : isCanonicalNumeral text=true)
    (hzero : text.head?≠some '0') : 0 < ofDecimal text := by
  cases text with
  | nil => simp [isCanonicalNumeral] at h
  | cons d text =>
    simp only [isCanonicalNumeral,List.isEmpty_cons,Bool.not_false,Bool.true_and,List.all_cons,
      Bool.and_eq_true] at h
    have hd := digit_toNat h.1.1
    have hne : d.toNat≠48 := fun heq => hzero (congrArg some (Char.toNat_inj.1 heq))
    rw [ofDecimal,Nat.ofDigitChars_cons,Nat.ofDigitChars_eq_ofDigitChars_zero]
    have hfirst : 0 < 10*0+(d.toNat - '0'.toNat) := by
      change 0 < 10*0+(d.toNat - 48)
      omega
    have := Nat.mul_pos (Nat.pow_pos (n := text.length) (show 0 < 10 by decide)) hfirst
    omega

/-- A canonical numeral is the numeral of its number. -/
theorem decimal_ofDecimal {text : Text} (h : isCanonicalNumeral text=true) :
    decimal (ofDecimal text)=text := by
  induction text using List.reverseRecOn with
  | nil => simp [isCanonicalNumeral] at h
  | append_singleton text c ih =>
    have hc : c.isDigit=true := by
      simp only [isCanonicalNumeral,List.all_append,Bool.and_eq_true] at h
      simpa using h.1.2.2
    have hdigit := digit_toNat hc
    have hlast : Nat.toDigits 10 (c.toNat - 48)=[c] := by
      rw [Nat.toDigits_of_lt_base (by omega),digitChar_of_isDigit hc]
    by_cases hne : text=[]
    · subst hne
      simpa [decimal,ofDecimal,Nat.ofDigitChars_cons] using hlast
    · obtain ⟨hcan,hzero⟩ := isCanonicalNumeral_of_append hne h
      have hvalue : ofDecimal (text++[c])=10*ofDecimal text+(c.toNat - 48) := by
        rw [ofDecimal,Nat.ofDigitChars_append,Nat.ofDigitChars_cons,Nat.ofDigitChars_nil]
        rfl
      rw [hvalue,decimal,← Nat.toDigits_append_toDigits (by decide) (ofDecimal_pos hcan hzero)
        (by omega),hlast]
      exact congrArg (· ++ [c]) (ih hcan)

theorem isCanonicalNumeral_decimal (n : ℕ) : isCanonicalNumeral (decimal n)=true := by
  have hhead : 1 < (decimal n).length → (decimal n).head?≠some '0' := by
    induction n using Nat.strong_induction_on with
    | _ n ih =>
      intro hlen
      have hbig : 10 ≤ n := by
        by_contra hlt
        rw [decimal,Nat.toDigits_of_lt_base (by omega)] at hlen
        simp at hlen
      have hsplit := Nat.toDigits_of_base_le (b := 10) (by decide) hbig
      obtain ⟨d,ds,hds⟩ := List.exists_cons_of_ne_nil (Nat.toDigits_ne_nil (n := n / 10) (b := 10))
      have hhead : (decimal n).head?=(decimal (n / 10)).head? := by
        rw [decimal,hsplit,decimal,hds]
        rfl
      rw [hhead,decimal]
      by_cases hsmall : n / 10 < 10
      · rw [Nat.toDigits_of_lt_base hsmall,List.head?_cons]
        intro hzero
        have := Nat.digitChar_eq_zero.1 (Option.some.inj hzero)
        omega
      · refine ih (n / 10) (by omega) ?_
        by_contra hshort
        have := (Nat.length_toDigits_le_iff (b := 10) (n := n / 10) (k := 1) (by decide)
          (by decide)).1 (by simpa [decimal] using hshort)
        omega
  have hall : (decimal n).all Char.isDigit=true :=
    List.all_eq_true.2 fun c hc => isDigit_of_mem_decimal hc
  have hempty : (decimal n).isEmpty=false := by simpa using decimal_ne_nil n
  simp only [isCanonicalNumeral,hempty,hall,Bool.not_false,Bool.true_and,Bool.not_eq_true',
    Bool.and_eq_false_iff,decide_eq_false_iff_not,beq_eq_false_iff_ne]
  by_cases hlen : 1 < (decimal n).length
  · exact .inr (hhead hlen)
  · exact .inl hlen

/-! ## Hexadecimal -/

/-- The value of a hexadecimal digit of either case. -/
def hexValue (c : Char) : Option ℕ :=
  if c.isDigit then some (c.toNat - 48)
  else if 97 ≤ c.toNat ∧ c.toNat ≤ 102 then some (c.toNat - 87)
  else if 65 ≤ c.toNat ∧ c.toNat ≤ 70 then some (c.toNat - 55)
  else none

def isHexDigit (c : Char) : Bool := (hexValue c).isSome

def ofHex (text : Text) : ℕ := text.foldl (fun n c => 16*n+(hexValue c).getD 0) 0

def hex (n : ℕ) : Text := Nat.toDigits 16 n

theorem toNat_of_isHexDigit (h : isHexDigit c=true) : 48 ≤ c.toNat ∧ c.toNat ≤ 102 := by
  unfold isHexDigit hexValue at h
  split_ifs at h with hc
  · have := digit_toNat hc
    omega
  · omega
  · omega
  · cases h

theorem hexValue_lt {d : ℕ} (h : hexValue c=some d) : d < 16 := by
  unfold hexValue at h
  split_ifs at h with hc
  · have := digit_toNat hc
    cases h
    omega
  · cases h
    omega
  · cases h
    omega

theorem hexValue_digitChar : ∀ d < 16, hexValue (Nat.digitChar d)=some d := by decide

theorem isHexDigit_of_mem_hex {n : ℕ} (h : c∈hex n) : isHexDigit c=true := by
  induction n using Nat.strong_induction_on with
  | _ n ih =>
    rw [hex,Nat.toDigits_eq_if (by decide)] at h
    split at h
    · next hlt =>
      rw [List.mem_singleton.1 h,isHexDigit,hexValue_digitChar n hlt]
      rfl
    · rcases List.mem_append.1 h with h | h
      · exact ih (n / 16) (by omega) h
      · rw [List.mem_singleton.1 h,isHexDigit,hexValue_digitChar _ (by omega)]
        rfl

@[simp] theorem ofHex_hex (n : ℕ) : ofHex (hex n)=n := by
  induction n using Nat.strong_induction_on with
  | _ n ih =>
    rw [hex,Nat.toDigits_eq_if (by decide)]
    split
    · next hlt => simp [ofHex,hexValue_digitChar n hlt]
    · have hrest := ih (n / 16) (by omega)
      rw [ofHex,hex] at hrest
      rw [ofHex,List.foldl_append,hrest]
      simp only [List.foldl_cons,List.foldl_nil,hexValue_digitChar (n % 16) (by omega),
        Option.getD_some]
      omega

private theorem ofHex_lt (text : Text) : ofHex text < 16 ^ text.length := by
  induction text using List.reverseRecOn with
  | nil => simp [ofHex]
  | append_singleton text c ih =>
    have hd : (hexValue c).getD 0 < 16 := by
      cases h : hexValue c with
      | none => simp
      | some d => exact hexValue_lt h
    rw [ofHex] at ih ⊢
    rw [List.foldl_append,List.length_append,List.length_singleton,pow_succ]
    simp only [List.foldl_cons,List.foldl_nil]
    omega

/-- No numeral of a number is shorter than the one without leading zeros. -/
theorem length_hex_ofHex_le {text : Text} (h : text≠[]) :
    (hex (ofHex text)).length ≤ text.length :=
  (Nat.length_toDigits_le_iff (by decide) (List.length_pos_iff.2 h)).2 (ofHex_lt text)

end Ash.Numerals
