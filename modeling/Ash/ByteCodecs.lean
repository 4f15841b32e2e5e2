import Mathlib.Tactic.Ring

/-! # Fixed-width integers and text as bytes

Big-endian words of any width and UTF-8 text over byte lists, each with the decoder
that undoes it. -/

namespace Ash.ByteCodecs

abbrev Text := List Char
abbrev Bytes := List UInt8

instance : LawfulBEq Text := List.instLawfulBEq

/-- The `width` low-order bytes of a number, most significant first. -/
def bigEndian : ℕ → ℕ → List UInt8
  | 0, _ => []
  | width+1, n => UInt8.ofNat (n / 256 ^ width)::bigEndian width n

def ofBigEndian (bytes : List UInt8) : ℕ :=
  bytes.foldl (fun acc b => acc*256+b.toNat) 0

@[simp] theorem length_bigEndian (width n : ℕ) : (bigEndian width n).length=width := by
  induction width with
  | zero => rfl
  | succ width ih => simp [bigEndian,ih]

theorem ofBigEndian_cons (byte : UInt8) (bytes : List UInt8) :
    ofBigEndian (byte::bytes)=byte.toNat*256 ^ bytes.length+ofBigEndian bytes := by
  have hfold : ∀ acc, bytes.foldl (fun acc b => acc*256+b.toNat) acc =
      acc*256 ^ bytes.length+ofBigEndian bytes := by
    induction bytes with
    | nil => simp [ofBigEndian]
    | cons b bytes ih =>
      intro acc
      rw [ofBigEndian,List.foldl_cons,List.foldl_cons,ih,ih,List.length_cons]
      ring
  rw [ofBigEndian,List.foldl_cons,hfold,Nat.zero_mul,Nat.zero_add]

theorem ofBigEndian_bigEndian (width n : ℕ) :
    ofBigEndian (bigEndian width n)=n % 256 ^ width := by
  induction width with
  | zero => simp [bigEndian,ofBigEndian,Nat.mod_one]
  | succ width ih =>
    have hsplit : n % 256 ^ (width+1) =
        256 ^ width*(n / 256 ^ width % 256)+n % 256 ^ width := by
      rw [pow_succ,Nat.mod_mul]
      ring
    rw [bigEndian,ofBigEndian_cons,length_bigEndian,ih,UInt8.toNat_ofNat',hsplit,Nat.mul_comm]

theorem ofBigEndian_lt (bytes : List UInt8) : ofBigEndian bytes < 256 ^ bytes.length := by
  induction bytes with
  | nil => decide
  | cons byte bytes ih =>
    have hbyte := Nat.mul_le_mul_right (256 ^ bytes.length) (Nat.le_of_lt_succ byte.toNat_lt)
    rw [ofBigEndian_cons,List.length_cons,pow_succ]
    omega

theorem bigEndian_mul_add (width n : ℕ) :
    ∀ high, bigEndian width (high*256 ^ width+n)=bigEndian width n := by
  induction width with
  | zero => exact fun _ => rfl
  | succ width ih =>
    intro high
    have hhigh : high*256 ^ (width+1)+n=high*256*256 ^ width+n := by ring
    rw [hhigh,bigEndian,bigEndian,ih,Nat.add_comm,Nat.add_mul_div_right _ _ (Nat.pos_of_neZero _)]
    congr 1
    rw [← UInt8.toNat_inj,UInt8.toNat_ofNat',UInt8.toNat_ofNat',Nat.add_mul_mod_self_right]

/-- Encoding undoes decoding. -/
theorem bigEndian_ofBigEndian (bytes : List UInt8) :
    bigEndian bytes.length (ofBigEndian bytes)=bytes := by
  induction bytes with
  | nil => rfl
  | cons byte bytes ih =>
    rw [List.length_cons,bigEndian,ofBigEndian_cons,bigEndian_mul_add,ih,Nat.mul_comm,
      Nat.mul_add_div (Nat.pow_pos (by decide)),Nat.div_eq_of_lt (ofBigEndian_lt bytes),
      Nat.add_zero,UInt8.ofNat_toNat]

/-- A control character: the Unicode category Cc. -/
def isControl (c : Char) : Bool := c.val ≤ 0x1f || (0x7f ≤ c.val && c.val ≤ 0x9f)

/-- The UTF-8 encoding of a text. -/
def utf8 (text : List Char) : List UInt8 := text.flatMap String.utf8EncodeChar

/-- The first character of a UTF-8 byte string. -/
def decodeChar (bytes : List UInt8) : Option Char := bytes.toByteArray.utf8DecodeChar? 0

/-- Decode at most `fuel` characters; the input must end with them. -/
def decodeChars : ℕ → List UInt8 → Option (List Char)
  | _, [] => some []
  | 0, _ => none
  | fuel+1, bytes => do
      let c ← decodeChar bytes
      let rest ← decodeChars fuel (bytes.drop c.utf8Size)
      return c::rest

/-- Every character takes at least one byte, so the length bounds their number. -/
def decodeUtf8 (bytes : List UInt8) : Option (List Char) := decodeChars bytes.length bytes

/-- The bytes after the longest front that decodes. -/
def invalidRest : ℕ → Bytes → Bytes
  | 0, bytes => bytes
  | fuel+1, bytes =>
      match decodeChar bytes with
      | none => bytes
      | some c => invalidRest fuel (bytes.drop c.utf8Size)

@[simp] theorem length_utf8 (text : List Char) :
    (utf8 text).length=(text.map Char.utf8Size).sum := by
  simp [utf8,List.length_flatMap]

theorem decodeChar_append (c : Char) (rest : List UInt8) :
    decodeChar (String.utf8EncodeChar c++rest)=some c := by
  rw [decodeChar,List.toByteArray_append]
  exact ByteArray.utf8DecodeChar?_utf8EncodeChar_append

private theorem decodeChars_utf8 (text : List Char) (fuel : ℕ) (h : (utf8 text).length ≤ fuel) :
    decodeChars fuel (utf8 text)=some text := by
  induction text generalizing fuel with
  | nil => cases fuel <;> rfl
  | cons c text ih =>
    have hlen : (utf8 (c::text)).length=c.utf8Size+(utf8 text).length := by
      simp [utf8]
    have hpos := c.utf8Size_pos
    obtain ⟨fuel,rfl⟩ : ∃ k, fuel=k+1 := ⟨fuel - 1,by omega⟩
    have hne : utf8 (c::text)≠[] := by
      rw [← List.length_pos_iff,hlen]
      omega
    have hchar : decodeChar (utf8 (c::text))=some c := decodeChar_append c _
    have hdrop : (utf8 (c::text)).drop c.utf8Size=utf8 text :=
      List.drop_left' (String.length_utf8EncodeChar c)
    rw [decodeChars,hchar]
    · simp only [Option.bind_eq_bind,Option.bind_some,hdrop,ih fuel (by omega)]
      rfl
    · exact hne

/-- Decoding undoes encoding. -/
@[simp] theorem decodeUtf8_utf8 (text : List Char) : decodeUtf8 (utf8 text)=some text :=
  decodeChars_utf8 text _ le_rfl

theorem utf8_injective : Function.Injective utf8 := by
  intro left right h
  have hleft := decodeUtf8_utf8 left
  rw [h,decodeUtf8_utf8] at hleft
  exact (Option.some.inj hleft).symm

theorem append_of_decodeChar {bytes : List UInt8} {c : Char}
    (h : decodeChar bytes=some c) : ∃ rest, bytes=String.utf8EncodeChar c++rest := by
  obtain ⟨rest,hrest⟩ := ByteArray.exists_of_utf8DecodeChar?_eq_some h
  refine ⟨rest.data.toList,?_⟩
  have hdata := congrArg (fun array : ByteArray => array.data.toList) hrest
  simpa using hdata

private theorem utf8_of_decodeChars {fuel : ℕ} {bytes : List UInt8} {text : List Char}
    (h : decodeChars fuel bytes=some text) : utf8 text=bytes := by
  induction fuel generalizing bytes text with
  | zero =>
    cases bytes with
    | nil => rw [← Option.some.inj h,utf8,List.flatMap_nil]
    | cons byte bytes => cases h
  | succ fuel ih =>
    cases bytes with
    | nil => rw [← Option.some.inj h,utf8,List.flatMap_nil]
    | cons byte bytes =>
      rw [decodeChars,Option.bind_eq_bind,Option.bind_eq_some_iff] at h
      · obtain ⟨c,hc,h⟩ := h
        obtain ⟨text',hrest,rfl⟩ : ∃ text', decodeChars fuel ((byte::bytes).drop c.utf8Size) =
            some text' ∧ c::text'=text := by simpa [Option.bind_eq_some_iff] using h
        obtain ⟨rest,hbytes⟩ := append_of_decodeChar hc
        rw [hbytes,List.drop_left' (String.length_utf8EncodeChar c)] at hrest
        rw [hbytes,← ih hrest]
        rfl
      · exact List.cons_ne_nil byte bytes

/-- Decoding accepts encodings only. -/
theorem decodeUtf8_eq_some_iff {bytes : List UInt8} {text : List Char} :
    decodeUtf8 bytes=some text ↔ bytes=utf8 text := by
  constructor
  · intro h
    exact (utf8_of_decodeChars h).symm
  · rintro rfl
    exact decodeUtf8_utf8 text

example : decodeUtf8 [0xC3,0xA9,0x61]=some "éa".toList := by decide

example : decodeUtf8 [0xC0,0x80]=none := by decide

end Ash.ByteCodecs
