import Ash.RequestPayloads

/-! # Requests

The envelope of a request: its identifier, arguments, budget and permit.  A request is built
only through its checks. -/

namespace Ash.Requests
open ByteCodecs Numerals TextSlices AsonDocuments ParserOutcomes Outcomes RequestValues
open RequestArguments

/-- A value built from the success of a check. -/
def certify {α : Type} (check : Checked Unit) (build : check=.ok () → α) : Checked α :=
  match check, build with
  | .ok (), build => .ok (build rfl)
  | .error fault, _ => .error fault

theorem certify_ok {α : Type} {check : Checked Unit} {build : check=.ok () → α} {a : α} :
    certify check build=.ok a ↔ ∃ h, build h=a := by
  match check, build with
  | .ok (), build => simp [certify]
  | .error fault, _ => simp [certify]

/-! ## Budgets -/

def maxRequestTokens : ℕ := 1048576
def maxRequestRecords : ℕ := 1000000
def maxRequestMillis : ℕ := 86400000

def Budget.check (tokens records : UInt32) (millis : UInt64) : Checked Unit := do
  require (tokens≠0 ∧ tokens.toNat ≤ maxRequestTokens) (.error (.invalidLimit "tok"))
  require (records≠0 ∧ records.toNat ≤ maxRequestRecords) (.error (.invalidLimit "rec"))
  require (millis≠0 ∧ millis.toNat ≤ maxRequestMillis) (.error (.invalidLimit "ms"))

/-- Ceilings of a request on presentation and time. -/
structure Budget where
  tokens : UInt32
  records : UInt32
  millis : UInt64
  valid : Budget.check tokens records millis=.ok ()

def Budget.validate (budget : Budget) : Checked Unit :=
  Budget.check budget.tokens budget.records budget.millis

def Budget.new (tokens records : UInt32) (millis : UInt64) : Checked Budget :=
  certify (Budget.check tokens records millis) fun valid => ⟨tokens,records,millis,valid⟩

variable {budget : Budget}

theorem Budget.new_ok {tokens records : UInt32} {millis : UInt64} :
    Budget.new tokens records millis=.ok budget ↔
      tokens=budget.tokens ∧ records=budget.records ∧ millis=budget.millis := by
  rw [Budget.new,certify_ok]
  constructor
  · rintro ⟨_,rfl⟩
    exact ⟨rfl,rfl,rfl⟩
  · rintro ⟨rfl,rfl,rfl⟩
    exact ⟨budget.valid,rfl⟩

theorem Budget.records_pos (budget : Budget) : 0 < budget.records.toNat := by
  have h := budget.valid
  simp only [Budget.check,bind_unit_ok_iff,require_ok_iff] at h
  exact Nat.pos_of_ne_zero fun hzero => h.2.1.1 (UInt32.toNat_inj.1 hzero)

def budgetColumns : List Text := [['t','o','k'],['r','e','c'],['m','s']]

def Budget.decodeCells : List Cell → Checked Budget
  | [tokens,records,millis] => do
      let tokens ← unsignedCell tokens "tok"
      let tokens ← narrowU32 tokens "tok"
      let records ← unsignedCell records "rec"
      let records ← narrowU32 records "rec"
      let millis ← unsignedCell millis "ms"
      Budget.new tokens records millis
  | _ => .error .panic

def Budget.decode (value : Option Value) : Checked Budget :=
  match value with
  | some (.record record) => readRecord budgetColumns decodeCells record
  | _ => .fail (.expectedRecord "u")

def Budget.cells (budget : Budget) : List Cell :=
  [unsignedValue budget.tokens.toUInt64,unsignedValue budget.records.toUInt64,
    unsignedValue budget.millis]

def Budget.encode (budget : Budget) : Except BuildError Value :=
  recordValue budgetColumns budget.cells

theorem Budget.decodeCells_ok (cells : List Cell) (budget : Budget) :
    Budget.decodeCells cells=.ok budget ↔ cells=budget.cells ∧ True := by
  unfold Budget.decodeCells
  split
  · simp [bind_ok_iff,Budget.new_ok,Budget.cells]
  · next hno => exact error_ok_iff fun h => hno _ _ _ h.1

theorem Budget.decode_ok {value : Option Value} :
    Budget.decode value=.ok budget ↔ ∃ written, value=some written ∧
      budget.encode=.ok written := by
  unfold Budget.decode
  split
  · next record =>
    rw [readRecord_ok Budget.decodeCells_ok,and_true]
    constructor
    · intro h
      exact ⟨_,rfl,h⟩
    · rintro ⟨_,⟨⟩,h⟩
      exact h
  · next hno =>
    refine error_ok_iff ?_
    rintro ⟨written,rfl,h⟩
    obtain ⟨record,rfl,-⟩ := recordValue_ok.1 h
    exact hno record rfl

/-! ## Permits -/

def approvalTokenBytes : ℕ := 48

def hexNibble (byte : UInt8) : Option UInt8 :=
  if 48 ≤ byte ∧ byte ≤ 57 then some (byte - 48)
  else if 97 ≤ byte ∧ byte ≤ 102 then some (byte - 97+10)
  else none

/-- A byte from its two halves, where it is one. -/
def joinNibbles (high low : UInt8) : Option UInt8 :=
  if high.toNat*16+low.toNat < 256 then some (high*16+low) else none

def decodePairs : List UInt8 → Option (List UInt8)
  | high::low::bytes => do
      let high ← hexNibble high
      let low ← hexNibble low
      let byte ← joinNibbles high low
      let rest ← decodePairs bytes
      return byte::rest
  | _ => some []

def decodeHexArray (size : ℕ) (value : Text) : Option (List UInt8) :=
  if byteLength value≠size*2 then none else decodePairs (utf8 value)

def hexDigit (nibble : UInt8) : Char := "0123456789abcdef".toList.getD nibble.toNat '0'

def encodeHex (bytes : List UInt8) : Text :=
  bytes.flatMap fun (byte : UInt8) => [hexDigit (byte >>> 4),hexDigit (byte &&& 0x0f)]

/-- A permit of fixed size. -/
structure ApprovalToken where
  bytes : List UInt8
  size : bytes.length=approvalTokenBytes
  deriving DecidableEq

/-- The pairs of a text have one byte each. -/
theorem length_decodePairs {bytes result : List UInt8} (h : decodePairs bytes=some result) :
    result.length=bytes.length / 2 := by
  induction bytes using decodePairs.induct generalizing result with
  | case1 high low bytes ih =>
    simp only [decodePairs,Option.bind_eq_bind,Option.bind_eq_some_iff] at h
    obtain ⟨_,-,_,-,_,-,rest,hrest,hres⟩ := h
    obtain rfl := Option.some.inj hres
    have := ih hrest
    simp only [List.length_cons]
    omega
  | case2 bytes hno =>
    have hshort : bytes.length < 2 := by
      match bytes, hno with
      | [], _ => decide
      | [_], _ => simp
      | high::low::bytes, hno => exact absurd rfl (hno high low bytes)
    rw [decodePairs] at h
    · obtain rfl := Option.some.inj h
      simp only [List.length_nil]
      omega
    · exact hno

theorem length_decodeHexArray {size : ℕ} {value : Text} {bytes : List UInt8}
    (h : decodeHexArray size value=some bytes) : bytes.length=size := by
  unfold decodeHexArray at h
  split at h
  · cases h
  · next hsize =>
    rw [length_decodePairs h,length_utf8_eq_byteLength,not_not.1 hsize,
      Nat.mul_div_cancel _ Nat.two_pos]

def ApprovalToken.parse (value : Text) : Option ApprovalToken :=
  match h : decodeHexArray approvalTokenBytes value with
  | some bytes => some ⟨bytes,length_decodeHexArray h⟩
  | none => none

def ApprovalToken.encode (token : ApprovalToken) : Text := encodeHex token.bytes

theorem hexDigit_byte : ∀ n < 16, hexNibble (UInt8.ofNat (hexDigit (UInt8.ofNat n)).toNat) =
    some (UInt8.ofNat n) ∧ (hexDigit (UInt8.ofNat n)).toNat < 128 := by decide

theorem hexNibble_byte : ∀ m < 256, ∀ n∈hexNibble (UInt8.ofNat m), n.toNat < 16 ∧
    UInt8.ofNat (hexDigit n).toNat=UInt8.ofNat m := by decide +kernel

variable {byte nibble : UInt8}

theorem hexNibble_eq_some : hexNibble byte=some nibble ↔
    nibble.toNat < 16 ∧ byte=UInt8.ofNat (hexDigit nibble).toNat := by
  constructor
  · intro h
    have hbyte := hexNibble_byte byte.toNat byte.toNat_lt
    rw [UInt8.ofNat_toNat] at hbyte
    obtain ⟨hlt,heq⟩ := hbyte nibble h
    exact ⟨hlt,heq.symm⟩
  · rintro ⟨hlt,rfl⟩
    have h := (hexDigit_byte nibble.toNat hlt).1
    rwa [UInt8.ofNat_toNat] at h

theorem hexDigit_lt (h : nibble.toNat < 16) : (hexDigit nibble).toNat < 128 := by
  have h := (hexDigit_byte nibble.toNat h).2
  rwa [UInt8.ofNat_toNat] at h

theorem toNat_high (byte : UInt8) : (byte >>> 4).toNat=byte.toNat / 16 := by
  simp [UInt8.toNat_shiftRight,Nat.shiftRight_eq_div_pow]

theorem toNat_low (byte : UInt8) : (byte &&& 0x0f).toNat=byte.toNat % 16 := by
  simp [UInt8.toNat_and,Nat.and_two_pow_sub_one_eq_mod byte.toNat 4]

theorem high_lt (byte : UInt8) : (byte >>> 4).toNat < 16 := by
  have := byte.toNat_lt
  rw [toNat_high]
  omega

theorem low_lt (byte : UInt8) : (byte &&& 0x0f).toNat < 16 := by
  rw [toNat_low]
  omega

theorem joinNibbles_eq_some {high low : UInt8} (hhigh : high.toNat < 16) (hlow : low.toNat < 16) :
    joinNibbles high low=some byte ↔ high=byte >>> 4 ∧ low=byte &&& 0x0f := by
  have hjoin : (high*16+low).toNat=high.toNat*16+low.toNat := by
    simp only [UInt8.toNat_add,UInt8.toNat_mul,UInt8.reduceToNat]
    omega
  rw [joinNibbles,if_pos (by omega),Option.some.injEq,← UInt8.toNat_inj,hjoin,← UInt8.toNat_inj,
    ← UInt8.toNat_inj,toNat_high,toNat_low]
  omega

theorem utf8_encodeHex_cons (byte : UInt8) (bytes : List UInt8) :
    utf8 (encodeHex (byte::bytes))=UInt8.ofNat (hexDigit (byte >>> 4)).toNat ::
      UInt8.ofNat (hexDigit (byte &&& 0x0f)).toNat::utf8 (encodeHex bytes) := by
  have hcons : encodeHex (byte::bytes) =
      hexDigit (byte >>> 4)::hexDigit (byte &&& 0x0f)::encodeHex bytes := rfl
  rw [hcons,utf8,List.flatMap_cons,List.flatMap_cons,utf8EncodeChar_ascii (hexDigit_lt (high_lt byte)),
    utf8EncodeChar_ascii (hexDigit_lt (low_lt byte))]
  rfl

/-- Pairs of hexadecimal digits are just the texts of bytes. -/
theorem decodePairs_eq_some {source result : List UInt8} (heven : source.length % 2=0) :
    decodePairs source=some result ↔ source=utf8 (encodeHex result) := by
  induction source using decodePairs.induct generalizing result with
  | case1 high low source ih =>
    have heven' : source.length % 2=0 := by
      simp only [List.length_cons] at heven
      omega
    simp only [decodePairs,Option.bind_eq_bind,Option.bind_eq_some_iff,hexNibble_eq_some,ih heven']
    cases result with
    | nil => simp [encodeHex,utf8]
    | cons byte result =>
      rw [utf8_encodeHex_cons,List.cons.injEq,List.cons.injEq]
      constructor
      · rintro ⟨nh,⟨hnh,rfl⟩,nl,⟨hnl,rfl⟩,found,hjoin,rest,rfl,hres⟩
        obtain ⟨rfl,rfl⟩ := List.cons.inj (Option.some.inj hres)
        obtain ⟨rfl,rfl⟩ := (joinNibbles_eq_some hnh hnl).1 hjoin
        exact ⟨rfl,rfl,rfl⟩
      · rintro ⟨rfl,rfl,rfl⟩
        have hnh := high_lt byte
        have hnl := low_lt byte
        exact ⟨_,⟨hnh,rfl⟩,_,⟨hnl,rfl⟩,byte,(joinNibbles_eq_some hnh hnl).2 ⟨rfl,rfl⟩,result,rfl,
          rfl⟩
  | case2 source hno =>
    rcases source with _ | ⟨high,_ | ⟨low,source⟩⟩
    · cases result with
      | nil => simp [decodePairs,encodeHex,utf8]
      | cons byte result =>
        rw [utf8_encodeHex_cons]
        simp [decodePairs]
    · simp at heven
    · exact absurd rfl (hno high low source)

theorem length_encodeHex (bytes : List UInt8) : (utf8 (encodeHex bytes)).length=bytes.length*2 := by
  induction bytes with
  | nil => rfl
  | cons byte bytes ih =>
    rw [utf8_encodeHex_cons,List.length_cons,List.length_cons,ih,List.length_cons]
    omega

/-- Bytes are read from just the text that they are written as. -/
theorem decodeHexArray_eq_some {size : ℕ} {value : Text} {bytes : List UInt8}
    (h : bytes.length=size) :
    decodeHexArray size value=some bytes ↔ value=encodeHex bytes := by
  rw [decodeHexArray]
  split
  · next hsize =>
    simp only [reduceCtorEq,false_iff]
    rintro rfl
    rw [← length_utf8_eq_byteLength,length_encodeHex,h] at hsize
    exact hsize rfl
  · next hsize =>
    rw [not_not] at hsize
    rw [decodePairs_eq_some (by rw [length_utf8_eq_byteLength,hsize]; omega)]
    exact utf8_injective.eq_iff

theorem ApprovalToken.parse_eq_some {value : Text} {token : ApprovalToken} :
    ApprovalToken.parse value=some token ↔ value=token.encode := by
  rw [ApprovalToken.encode,← decodeHexArray_eq_some token.size]
  obtain ⟨found,size⟩ := token
  unfold ApprovalToken.parse
  split
  · next bytes h =>
    constructor
    · rintro ⟨⟩
      exact h
    · intro heq
      obtain rfl : bytes=found := Option.some.inj (h.symm.trans heq)
      rfl
  · next h => simp [h]

/-! ## Requests -/

/-- The number of items of a request against its budget. -/
def checkItems (count : ℕ) (budget : Budget) : Checked Unit := do
  require (count < 2 ^ 32) (.error (.invalidLimit "a"))
  require (count ≤ budget.tokens.toNat ∧ count ≤ budget.records.toNat)
    (.error (.invalidLimit "u"))

def Request.checkBudget (arguments : Arguments) (budget : Budget) : Checked Unit :=
  match arguments with
  | .batch nodes => checkItems nodes.length budget
  | .fs filesystem => checkItems filesystem.actions.length budget
  | _ => .ok ()

/-- A request that cancels itself. -/
def cancelsItself (id : UInt64) (arguments : Arguments) : Bool :=
  match arguments with
  | .cancel cancel => cancel.targetId == id
  | _ => false

def Request.check (id : UInt64) (arguments : Arguments) (budget : Budget) : Checked Unit := do
  require (id≠0) (.error (.invalidUnsigned "i"))
  require (cancelsItself id arguments=false) (.error (.unexpectedValue "i"))
  arguments.validate
  Request.checkBudget arguments budget
  budget.validate

/-- A request that passed its checks. -/
structure Request where
  id : UInt64
  arguments : Arguments
  budget : Budget
  permit : Option ApprovalToken
  checked : Request.check id arguments budget=.ok ()

def Request.new (id : UInt64) (arguments : Arguments) (budget : Budget) : Checked Request :=
  certify (Request.check id arguments budget) fun checked => ⟨id,arguments,budget,none,checked⟩

variable (request : Request)

def Request.withPermit (permit : ApprovalToken) : Request :=
  { request with permit := some permit }

def envelopeFields : List Text := [['t'],['i'],['o'],['a'],['u']]
def permittedEnvelopeFields : List Text := [['t'],['i'],['o'],['a'],['u'],['v']]

def hasPermit (document : Document) : Checked Bool :=
  match expectFields document envelopeFields with
  | .ok () => .ok false
  | .error _ => do
      expectFields document permittedEnvelopeFields
      return true

/-- A field that the envelope has. -/
def field (value : Option Value) : Checked Value :=
  match value with
  | some value => .ok value
  | none => .fail .fields

def decodePermit (value : Option Value) : Checked ApprovalToken := do
  let permit ← text value "v"
  match ApprovalToken.parse permit with
  | some token => .ok token
  | none => .fail (.invalidText "v")

/-- The permit of a document, if its fields have one. -/
def Request.decodePermit (document : Document) (hasPermit : Bool) (request : Request) :
    Checked Request :=
  if hasPermit then do
    let permit ← Requests.decodePermit (document.get ['v'])
    return request.withPermit permit
  else .ok request

def Request.decode (document : Document) : Checked Request := do
  let permitted ← hasPermit document
  expectUnsigned (document.get ['t']) "t" 1
  let id ← unsigned (document.get ['i']) "i"
  let operation ← text (document.get ['o']) "o"
  let operation ← operationOf operation
  let value ← field (document.get ['a'])
  let arguments ← Arguments.decode operation value
  let budget ← Budget.decode (document.get ['u'])
  let request ← Request.new id arguments budget
  Request.decodePermit document permitted request

def valueField (key : Text) (value : Except BuildError Value) : Except BuildError Field := do
  let key ← Key.new key
  let value ← value
  return ⟨key,value⟩

def permitFields : Option ApprovalToken → Except BuildError (List Field)
  | none => .ok []
  | some permit => do
      let field ← scalarField ['v'] permit.encode
      return [field]

def Request.encode (request : Request) : Except BuildError Document := do
  let t ← scalarField ['t'] ['1']
  let i ← scalarField ['i'] (decimal request.id.toNat)
  let o ← scalarField ['o'] request.arguments.operation.text
  let a ← valueField ['a'] request.arguments.encode
  let u ← valueField ['u'] request.budget.encode
  let v ← permitFields request.permit
  Document.new (t::i::o::a::u::v)

/-- The action of a request alone, to which an approval is bound. -/
def Request.authorizationTarget : Except BuildError Document := do
  let v ← scalarField ['v'] ['1']
  let o ← scalarField ['o'] request.arguments.operation.text
  let a ← valueField ['a'] request.arguments.encode
  let c ← scalarField ['c'] (decimal request.arguments.requiredCapabilities.toNat)
  Document.new [v,o,a,c]

theorem Request.arguments_valid : request.arguments.validate=.ok () := by
  have h := request.checked
  simp only [Request.check,bind_unit_ok_iff] at h
  exact h.2.2.1

theorem Request.id_ne_zero : request.id≠0 := by
  have h := request.checked
  simp only [Request.check,bind_unit_ok_iff,require_ok_iff] at h
  exact h.1

theorem Request.new_ok {id : UInt64} {arguments : Arguments} {request : Request} :
    Request.new id arguments budget=.ok request ↔ id=request.id ∧
      arguments=request.arguments ∧ budget=request.budget ∧ request.permit=none := by
  rw [Request.new,certify_ok]
  constructor
  · rintro ⟨_,rfl⟩
    exact ⟨rfl,rfl,rfl,rfl⟩
  · obtain ⟨id,arguments,budget,permit,checked⟩ := request
    rintro ⟨rfl,rfl,rfl,rfl⟩
    exact ⟨checked,rfl⟩

end Ash.Requests
