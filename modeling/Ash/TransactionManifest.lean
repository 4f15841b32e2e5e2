import Ash.Outcomes
import Ash.TransactionActions

/-! # The transaction manifest

The journal names its prepared actions in one file: a magic number, a count, the
actions field by field, and the BLAKE3 digest of all of it.  Just what was encoded from
actions that pass the checks is decoded, to those actions. -/

namespace Ash.TransactionManifest
open WorkspaceOperations WorkspacePaths TransactionActions ByteCodecs Outcomes

structure PreparedAction where
  kind : FileActionKind
  path : Text
  destination : Option Text
  digest : Digest
  size : ℕ
  preimageDigest : Option Digest
  preimageSize : Option ℕ
  deriving DecidableEq

namespace PreparedAction

/-- The logical paths a prepared action names. -/
def paths (action : PreparedAction) : List Text := action.path::action.destination.toList

def shapeValid (action : PreparedAction) : Bool :=
  match action.kind with
  | .create | .remove => action.destination.isNone && action.preimageDigest.isNone
  | .copy | .move => action.destination.isSome && action.preimageDigest.isNone
  | .replace => action.destination.isNone && action.preimageDigest.isSome
      && action.preimageSize.isSome

end PreparedAction

def manifestMagic : Bytes := utf8 "ASHFS002".toList
def noneLength : ℕ := 2 ^ 32 - 1
def maxManifestBytes : ℕ := 4*1024*1024

/-! ## Encoding -/

def kindByte : FileActionKind → UInt8
  | .create => 0
  | .copy => 1
  | .move => 2
  | .remove => 3
  | .replace => 4

def encodeText (value : Text) : Except PlatformError Bytes :=
  if byteLength value < 2 ^ 32 then .ok (bigEndian 4 (byteLength value)++utf8 value)
  else .error .journalCorrupt

def encodeOptionalText : Option Text → Except PlatformError Bytes
  | some value => encodeText value
  | none => .ok (bigEndian 4 noneLength)

def encodePreimage : Option Digest → Option ℕ → Except PlatformError Bytes
  | some digest, some size => .ok (1::(digest.1++bigEndian 8 size))
  | none, none => .ok [0]
  | _, _ => .error .journalCorrupt

def encodeAction (action : PreparedAction) : Except PlatformError Bytes := do
  let path ← encodeText action.path
  let destination ← encodeOptionalText action.destination
  let preimage ← encodePreimage action.preimageDigest action.preimageSize
  return kindByte action.kind ::
    (path++(destination++(action.digest.1++(bigEndian 8 action.size++preimage))))

def encodeActions : List PreparedAction → Except PlatformError Bytes
  | [] => .ok []
  | action::rest => do
      let first ← encodeAction action
      let others ← encodeActions rest
      return first++others

/-- The running totals of materialized and preserved bytes stay under the ceilings. -/
def validateManifestSizes (materialized preimages : ℕ) : List PreparedAction →
    Except PlatformError Unit
  | [] => .ok ()
  | action::rest =>
      if action.size > maxFileTransactionFileBytes ∨ materialized+action.size ≥ 2 ^ 64
          ∨ materialized+action.size > maxFileTransactionTotalBytes then
        .error .journalCorrupt
      else match action.preimageSize with
        | none => validateManifestSizes (materialized+action.size) preimages rest
        | some size =>
            if size > maxFileTransactionFileBytes ∨ preimages+size ≥ 2 ^ 64
                ∨ preimages+size > maxFileTransactionTotalBytes then
              .error .journalCorrupt
            else validateManifestSizes (materialized+action.size) (preimages+size) rest

def encodeManifest (hash : Bytes → Digest) (actions : List PreparedAction) :
    Except PlatformError Bytes := do
  validateManifestSizes 0 0 actions
  if actions.length ≥ 2 ^ 32 then .error .journalCorrupt
  else
    let encoded ← encodeActions actions
    let body := manifestMagic++(bigEndian 4 actions.length++encoded)
    return body++(hash body).1

/-! ## Decoding

The cursor is the part of the body not yet read. -/

def take (bytes : Bytes) (length : ℕ) : Except PlatformError (Bytes × Bytes) :=
  if length ≤ bytes.length then .ok (bytes.take length,bytes.drop length)
  else .error .journalCorrupt

def takeByte : Bytes → Except PlatformError (UInt8 × Bytes)
  | [] => .error .journalCorrupt
  | b::rest => .ok (b,rest)

def takeDigest (bytes : Bytes) : Except PlatformError (Digest × Bytes) :=
  if h : 32 ≤ bytes.length then
    .ok (⟨bytes.take 32,by simp [h]⟩,bytes.drop 32)
  else .error .journalCorrupt

def readU32 (bytes : Bytes) : Except PlatformError (ℕ × Bytes) := do
  let (value,rest) ← take bytes 4
  return (ofBigEndian value,rest)

def readU64 (bytes : Bytes) : Except PlatformError (ℕ × Bytes) := do
  let (value,rest) ← take bytes 8
  return (ofBigEndian value,rest)

def decodeKind (byte : UInt8) : Except PlatformError FileActionKind :=
  if byte=0 then .ok .create
  else if byte=1 then .ok .copy
  else if byte=2 then .ok .move
  else if byte=3 then .ok .remove
  else if byte=4 then .ok .replace
  else .error .journalCorrupt

/-- The text of a length already read. -/
def decodeTextOf (length : ℕ) (bytes : Bytes) : Except PlatformError (Text × Bytes) := do
  if length > 4096 then .error .journalCorrupt
  else
    let (value,rest) ← take bytes length
    match decodeUtf8 value with
    | some text => return (text,rest)
    | none => .error .journalCorrupt

def decodeText (bytes : Bytes) : Except PlatformError (Text × Bytes) := do
  let (length,rest) ← readU32 bytes
  if length=noneLength then .error .journalCorrupt else decodeTextOf length rest

def decodeOptionalText (bytes : Bytes) : Except PlatformError (Option Text × Bytes) := do
  let (length,rest) ← readU32 bytes
  if length=noneLength then return (none,rest)
  else
    let (text,rest) ← decodeTextOf length rest
    return (some text,rest)

def decodePreimage (bytes : Bytes) :
    Except PlatformError ((Option Digest × Option ℕ) × Bytes) := do
  let (tag,rest) ← takeByte bytes
  if tag=0 then return ((none,none),rest)
  else if tag=1 then
    let (digest,rest) ← takeDigest rest
    let (size,rest) ← readU64 rest
    return ((some digest,some size),rest)
  else .error .journalCorrupt

def decodeFields (bytes : Bytes) : Except PlatformError (PreparedAction × Bytes) := do
  let (byte,rest) ← takeByte bytes
  let kind ← decodeKind byte
  let (path,rest) ← decodeText rest
  let (destination,rest) ← decodeOptionalText rest
  let (digest,rest) ← takeDigest rest
  let (size,rest) ← readU64 rest
  let ((preimageDigest,preimageSize),rest) ← decodePreimage rest
  return (⟨kind,path,destination,digest,size,preimageDigest,preimageSize⟩,rest)

/-- Admit the paths of a decoded action next to those already seen. -/
def admitDecoded (seen : List Text) : List Text → Except PlatformError (List Text)
  | [] => .ok seen
  | path::rest =>
      if validateLogical path≠.ok () ∨ path=rootLogical ∨ isReserved path ∨ path∈seen then
        .error .journalCorrupt
      else admitDecoded (path::seen) rest

def decodeActions : ℕ → List Text → Bytes → Except PlatformError (List PreparedAction × Bytes)
  | 0, _, bytes => .ok ([],bytes)
  | count+1, seen, bytes => do
      let (action,rest) ← decodeFields bytes
      let seen ← admitDecoded seen action.paths
      if action.shapeValid then
        let (actions,rest) ← decodeActions count seen rest
        return (action::actions,rest)
      else .error .journalCorrupt

def decodeManifest (hash : Bytes → Digest) (bytes : Bytes) :
    Except PlatformError (List PreparedAction) := do
  if bytes.length < manifestMagic.length+4+32 ∨ bytes.length > maxManifestBytes then
    .error .journalCorrupt
  else
    let body := bytes.take (bytes.length - 32)
    let checksum := bytes.drop (bytes.length - 32)
    if (hash body).1≠checksum then .error .journalCorrupt
    else
      let (magic,rest) ← take body manifestMagic.length
      if magic≠manifestMagic then .error .journalCorrupt
      else
        let (count,rest) ← readU32 rest
        if count=0 ∨ count > maxActions then .error .journalCorrupt
        else
          let (actions,rest) ← decodeActions count [] rest
          if rest≠[] then .error .journalCorrupt
          else
            validateManifestSizes 0 0 actions
            return actions

/-! ## What the readers accept -/

variable {bytes rest : Bytes} {n : ℕ} {text : Text} {actions : List PreparedAction}

theorem take_ok_iff {length : ℕ} {value : Bytes} :
    take bytes length=.ok (value,rest) ↔ bytes=value++rest ∧ value.length=length := by
  unfold take
  constructor
  · intro h
    split at h
    · next hle =>
      cases h
      exact ⟨(List.take_append_drop ..).symm,List.length_take_of_le hle⟩
    · cases h
  · rintro ⟨rfl,rfl⟩
    simp

theorem takeDigest_ok_iff {digest : Digest} :
    takeDigest bytes=.ok (digest,rest) ↔ bytes=digest.1++rest := by
  obtain ⟨found,hfound⟩ := digest
  constructor
  · intro h
    unfold takeDigest at h
    split at h
    · cases h
      exact (List.take_append_drop ..).symm
    · cases h
  · rintro rfl
    simp [takeDigest,← hfound]

theorem takeByte_ok_iff {byte : UInt8} : takeByte bytes=.ok (byte,rest) ↔ bytes=byte::rest := by
  cases bytes <;> simp [takeByte]

/-- A word is read as the number that it is the encoding of. -/
theorem word_ok_iff {width : ℕ} :
    (∃ value, take bytes width=.ok (value,rest) ∧ ofBigEndian value=n) ↔
      n < 256 ^ width ∧ bytes=bigEndian width n++rest := by
  simp only [take_ok_iff]
  constructor
  · rintro ⟨value,⟨rfl,rfl⟩,rfl⟩
    exact ⟨ofBigEndian_lt value,by rw [bigEndian_ofBigEndian]⟩
  · rintro ⟨hn,rfl⟩
    exact ⟨_,⟨rfl,length_bigEndian width n⟩,by rw [ofBigEndian_bigEndian,Nat.mod_eq_of_lt hn]⟩

theorem readU32_ok_iff : readU32 bytes=.ok (n,rest) ↔ n < 2 ^ 32 ∧ bytes=bigEndian 4 n++rest := by
  simp only [readU32,bind_ok_iff,Prod.exists,pure_ok_iff,Prod.mk.injEq,exists_eq_right_right]
  exact word_ok_iff

theorem readU64_ok_iff : readU64 bytes=.ok (n,rest) ↔ n < 2 ^ 64 ∧ bytes=bigEndian 8 n++rest := by
  simp only [readU64,bind_ok_iff,Prod.exists,pure_ok_iff,Prod.mk.injEq,exists_eq_right_right]
  exact word_ok_iff

theorem decodeKind_ok_iff {byte : UInt8} {kind : FileActionKind} :
    decodeKind byte=.ok kind ↔ byte=kindByte kind := by
  constructor
  · intro h
    unfold decodeKind at h
    split_ifs at h
    all_goals cases h; assumption
  · rintro rfl
    cases kind <;> rfl

theorem decodeTextOf_ok_iff {length : ℕ} : decodeTextOf length bytes=.ok (text,rest) ↔
    byteLength text ≤ 4096 ∧ length=byteLength text ∧ bytes=utf8 text++rest := by
  simp only [decodeTextOf,ite_error_ok_iff,bind_ok_iff,Prod.exists,take_ok_iff]
  constructor
  · rintro ⟨hle,value,_,⟨rfl,rfl⟩,h⟩
    split at h
    · next found hfound =>
      cases h
      rw [decodeUtf8_eq_some_iff.1 hfound,length_utf8] at hle ⊢
      exact ⟨Nat.le_of_not_gt hle,rfl,rfl⟩
    · cases h
  · rintro ⟨hle,rfl,rfl⟩
    exact ⟨Nat.not_lt.2 hle,_,_,⟨rfl,length_utf8 text⟩,by rw [decodeUtf8_utf8]; rfl⟩

theorem encodeText_ok_iff {front : Bytes} : encodeText text=.ok front ↔
    byteLength text < 2 ^ 32 ∧ front=bigEndian 4 (byteLength text)++utf8 text := by
  unfold encodeText
  split
  · next h => rw [and_iff_right h,Except.ok.injEq,eq_comm]
  · next h => exact error_ok_iff fun hboth => h hboth.1

theorem ne_noneLength (h : byteLength text ≤ 4096) : byteLength text≠noneLength := by
  simp only [noneLength]
  omega

theorem decodeText_ok_iff : decodeText bytes=.ok (text,rest) ↔
    byteLength text ≤ 4096 ∧ ∃ front, encodeText text=.ok front ∧ bytes=front++rest := by
  simp only [decodeText,bind_ok_iff,Prod.exists,readU32_ok_iff,ite_error_ok_iff,
    decodeTextOf_ok_iff,encodeText_ok_iff]
  constructor
  · rintro ⟨_,_,⟨hlt,rfl⟩,-,hle,rfl,rfl⟩
    exact ⟨hle,_,⟨hlt,rfl⟩,by rw [List.append_assoc]⟩
  · rintro ⟨hle,_,⟨hlt,rfl⟩,rfl⟩
    exact ⟨_,_,⟨hlt,List.append_assoc ..⟩,ne_noneLength hle,hle,rfl,rfl⟩

theorem decodeOptionalText_ok_iff {text : Option Text} :
    decodeOptionalText bytes=.ok (text,rest) ↔ (∀ t∈text, byteLength t ≤ 4096) ∧
      ∃ front, encodeOptionalText text=.ok front ∧ bytes=front++rest := by
  simp only [decodeOptionalText,bind_ok_iff,Prod.exists,readU32_ok_iff]
  constructor
  · rintro ⟨length,_,⟨hlt,rfl⟩,h⟩
    split at h
    · next hnone =>
      cases h
      subst hnone
      exact ⟨nofun,_,rfl,rfl⟩
    · simp only [bind_ok_iff,Prod.exists,decodeTextOf_ok_iff,pure_ok_iff,Prod.mk.injEq] at h
      obtain ⟨t,_,⟨hle,rfl,rfl⟩,rfl,rfl⟩ := h
      refine ⟨?_,_,encodeText_ok_iff.2 ⟨hlt,rfl⟩,by rw [List.append_assoc]⟩
      rintro _ ⟨⟩
      exact hle
  · cases text with
    | none =>
      rintro ⟨-,_,⟨⟩,rfl⟩
      exact ⟨noneLength,rest,⟨by decide,rfl⟩,if_pos rfl⟩
    | some t =>
      rintro ⟨hle,_,hfront,rfl⟩
      obtain ⟨hlt,rfl⟩ := encodeText_ok_iff.1 hfront
      have ht : byteLength t ≤ 4096 := hle t rfl
      refine ⟨_,_,⟨hlt,List.append_assoc ..⟩,?_⟩
      rw [if_neg (ne_noneLength ht),decodeTextOf_ok_iff.2 ⟨ht,rfl,rfl⟩]
      rfl

theorem decodePreimage_ok_iff {digest : Option Digest} {size : Option ℕ} :
    decodePreimage bytes=.ok ((digest,size),rest) ↔ (∀ n∈size, n < 2 ^ 64) ∧
      ∃ front, encodePreimage digest size=.ok front ∧ bytes=front++rest := by
  simp only [decodePreimage,bind_ok_iff,Prod.exists,takeByte_ok_iff]
  constructor
  · rintro ⟨tag,_,rfl,h⟩
    split_ifs at h with hzero hone
    · cases h
      subst hzero
      exact ⟨nofun,[0],rfl,rfl⟩
    · simp only [bind_ok_iff,Prod.exists,takeDigest_ok_iff,readU64_ok_iff,pure_ok_iff,
        Prod.mk.injEq] at h
      obtain ⟨digest,_,rfl,n,_,⟨hlt,rfl⟩,⟨rfl,rfl⟩,rfl⟩ := h
      subst hone
      refine ⟨?_,_,rfl,by simp⟩
      rintro _ ⟨⟩
      exact hlt
  · rintro ⟨hlt,front,hfront,rfl⟩
    cases digest with
    | none => cases size with
      | none =>
        cases hfront
        exact ⟨0,rest,rfl,rfl⟩
      | some n => cases hfront
    | some digest => cases size with
      | none => cases hfront
      | some n =>
        cases hfront
        exact ⟨1,_,rfl,bind_ok_iff.2 ⟨_,takeDigest_ok_iff.2 (List.append_assoc ..),
          bind_ok_iff.2 ⟨_,readU64_ok_iff.2 ⟨hlt n rfl,rfl⟩,rfl⟩⟩⟩

/-- A prepared action whose fields fit their encodings. -/
structure Encodable (action : PreparedAction) : Prop where
  path : byteLength action.path ≤ 4096
  destination : ∀ t∈action.destination, byteLength t ≤ 4096
  size : action.size < 2 ^ 64
  preimage : action.preimageDigest.isSome=action.preimageSize.isSome
  preimage_size : ∀ n∈action.preimageSize, n < 2 ^ 64

theorem encodeText_of_le (h : byteLength text ≤ 4096) :
    ∃ front, encodeText text=.ok front ∧ front.length ≤ 4100 := by
  refine ⟨_,encodeText_ok_iff.2 ⟨by omega,rfl⟩,?_⟩
  rw [List.length_append,length_bigEndian,length_utf8]
  exact Nat.add_le_add_left h 4

/-- A preimage is encoded just when both of its parts are there or neither is. -/
theorem encodePreimage_ok_iff {digest : Option Digest} {size : Option ℕ} :
    (∃ front, encodePreimage digest size=.ok front) ↔ digest.isSome=size.isSome := by
  cases digest <;> cases size <;> simp [encodePreimage]

theorem length_encodePreimage {digest : Option Digest} {size : Option ℕ} {front : Bytes}
    (h : encodePreimage digest size=.ok front) : front.length ≤ 41 := by
  unfold encodePreimage at h
  split at h <;> cases h
  · next digest _ => simp [digest.2]
  · simp

variable {action : PreparedAction} {seen : List Text}

/-- An action is read from its encoding only, if its fields fit. -/
theorem decodeFields_ok_iff : decodeFields bytes=.ok (action,rest) ↔
    Encodable action ∧ ∃ front, encodeAction action=.ok front ∧ bytes=front++rest := by
  simp only [decodeFields,encodeAction,bind_ok_iff,Prod.exists,takeByte_ok_iff,decodeKind_ok_iff,
    decodeText_ok_iff,decodeOptionalText_ok_iff,takeDigest_ok_iff,readU64_ok_iff,
    decodePreimage_ok_iff,pure_ok_iff,Prod.mk.injEq]
  constructor
  · rintro ⟨_,_,rfl,kind,rfl,path,_,⟨hpath,_,hp,rfl⟩,destination,_,⟨hdest,_,hd,rfl⟩,digest,_,rfl,
      size,_,⟨hsize,rfl⟩,_,_,_,⟨hlt,_,hpre,rfl⟩,rfl,rfl⟩
    have hboth := encodePreimage_ok_iff.1 ⟨_,hpre⟩
    exact ⟨⟨hpath,hdest,hsize,hboth,hlt⟩,_,⟨_,hp,_,hd,_,hpre,rfl⟩,by simp⟩
  · rintro ⟨h,_,⟨_,hp,_,hd,_,hpre,rfl⟩,rfl⟩
    simp only [List.cons_append,List.append_assoc]
    exact ⟨_,_,rfl,_,rfl,_,_,⟨h.path,_,hp,rfl⟩,_,_,⟨h.destination,_,hd,rfl⟩,_,_,rfl,_,_,
      ⟨h.size,rfl⟩,_,_,_,⟨h.preimage_size,_,hpre,rfl⟩,rfl,rfl⟩

theorem encodeAction_of_encodable (h : Encodable action) :
    ∃ front, encodeAction action=.ok front ∧ front.length ≤ 8300 := by
  obtain ⟨path,hp,hpl⟩ := encodeText_of_le h.path
  have hd : ∃ front, encodeOptionalText action.destination=.ok front ∧ front.length ≤ 4100 := by
    cases hdest : action.destination with
    | none => exact ⟨_,rfl,by simp⟩
    | some t => exact encodeText_of_le (h.destination t hdest)
  obtain ⟨destination,hd,hdl⟩ := hd
  obtain ⟨preimage,hpre⟩ := encodePreimage_ok_iff.2 h.preimage
  have hprel := length_encodePreimage hpre
  refine ⟨_,by simp only [encodeAction,hp,hd,hpre]; rfl,?_⟩
  simp only [List.length_cons,List.length_append,length_bigEndian,action.digest.2]
  omega

/-- Sizes that pass are under the ceiling of one file. -/
theorem size_le_of_validateManifestSizes {m : ℕ} (h : validateManifestSizes m n actions=.ok ()) :
    ∀ action∈actions, action.size ≤ maxFileTransactionFileBytes ∧
      ∀ size∈action.preimageSize, size ≤ maxFileTransactionFileBytes := by
  induction actions generalizing m n with
  | nil => simp
  | cons action rest ih =>
    rw [validateManifestSizes] at h
    split at h
    · cases h
    · next hsize =>
      have hle : action.size ≤ maxFileTransactionFileBytes := by omega
      cases hp : action.preimageSize with
      | none =>
        rw [hp] at h
        exact List.forall_mem_cons.2 ⟨⟨hle,by simp [hp]⟩,ih h⟩
      | some size =>
        rw [hp] at h
        simp only at h
        split at h
        · cases h
        · next hpre =>
          exact List.forall_mem_cons.2 ⟨⟨hle,by simp only [hp,Option.mem_some_iff]; omega⟩,ih h⟩

theorem admitDecoded_append (left right : List Text) :
    admitDecoded seen (left++right) =
      (admitDecoded seen left >>= fun seen => admitDecoded seen right) := by
  induction left generalizing seen with
  | nil => rfl
  | cons path left ih =>
    rw [List.cons_append,admitDecoded,admitDecoded,ih]
    split <;> rfl

theorem decodeActions_ok_iff {count : ℕ} : decodeActions count seen bytes=.ok (actions,rest) ↔
    actions.length=count ∧ (∀ action∈actions, Encodable action ∧ action.shapeValid=true) ∧
      (∃ all, admitDecoded seen (actions.flatMap PreparedAction.paths)=.ok all) ∧
      ∃ front, encodeActions actions=.ok front ∧ bytes=front++rest := by
  induction count generalizing seen bytes rest actions with
  | zero =>
    constructor
    · rintro ⟨⟩
      exact ⟨rfl,nofun,⟨_,rfl⟩,[],rfl,rfl⟩
    · rintro ⟨hlen,-,-,front,hfront,rfl⟩
      obtain rfl := List.length_eq_zero_iff.1 hlen
      cases hfront
      rfl
  | succ count ih =>
    simp only [decodeActions,bind_ok_iff,Prod.exists,decodeFields_ok_iff]
    constructor
    · rintro ⟨action,_,⟨hfields,first,hfirst,rfl⟩,seen',hseen,h⟩
      split at h
      · next hshape =>
        simp only [bind_ok_iff,Prod.exists,ih,pure_ok_iff,Prod.mk.injEq] at h
        obtain ⟨others,_,⟨rfl,hall,⟨all,hadm⟩,front,hfront,rfl⟩,rfl,rfl⟩ := h
        refine ⟨rfl,List.forall_mem_cons.2 ⟨⟨hfields,hshape⟩,hall⟩,⟨all,?_⟩,first++front,?_,
          (List.append_assoc ..).symm⟩
        · rw [List.flatMap_cons,admitDecoded_append,hseen]
          exact hadm
        · rw [encodeActions,hfirst,hfront]
          rfl
      · cases h
    · cases actions with
      | nil =>
        rintro ⟨hlen,-⟩
        cases hlen
      | cons action actions =>
        rintro ⟨hlen,hall,⟨all,hadm⟩,front,hfront,rfl⟩
        rw [List.flatMap_cons,admitDecoded_append,bind_ok_iff] at hadm
        obtain ⟨seen',hseen,hadm⟩ := hadm
        simp only [encodeActions,bind_ok_iff,pure_ok_iff] at hfront
        obtain ⟨first,hfirst,others,hothers,rfl⟩ := hfront
        obtain ⟨⟨hfields,hshape⟩,hall⟩ := List.forall_mem_cons.1 hall
        refine ⟨action,others++rest,⟨hfields,first,hfirst,List.append_assoc ..⟩,seen',hseen,?_⟩
        rw [if_pos hshape,ih.2 ⟨Nat.succ.inj hlen,hall,⟨all,hadm⟩,others,hothers,rfl⟩]
        rfl

/-- What the reader checks of the actions of a manifest. -/
structure Accepted (actions : List PreparedAction) : Prop where
  ne_nil : actions≠[]
  length_le : actions.length ≤ maxActions
  fields : ∀ action∈actions, Encodable action ∧ action.shapeValid=true
  paths : ∃ all, admitDecoded [] (actions.flatMap PreparedAction.paths)=.ok all

/-- The manifest of given actions, from their encoding. -/
theorem encodeManifest_ok_iff {hash : Bytes → Digest} : encodeManifest hash actions=.ok bytes ↔
    validateManifestSizes 0 0 actions=.ok () ∧ actions.length < 2 ^ 32 ∧ ∃ front,
      encodeActions actions=.ok front ∧
      manifestMagic++(bigEndian 4 actions.length++front) ++
        (hash (manifestMagic++(bigEndian 4 actions.length++front))).1=bytes := by
  rw [encodeManifest,bind_unit_ok_iff]
  simp only [ite_error_ok_iff,bind_ok_iff,pure_ok_iff,Nat.not_le,ge_iff_le]

/-- Just the manifests of accepted actions are decoded, as long as they are not too large. -/
theorem decodeManifest_ok_iff {hash : Bytes → Digest} : decodeManifest hash bytes=.ok actions ↔
    Accepted actions ∧ bytes.length ≤ maxManifestBytes ∧ encodeManifest hash actions=.ok bytes := by
  have hmagic : manifestMagic.length=8 := by decide
  simp only [decodeManifest,encodeManifest_ok_iff,ite_error_ok_iff,bind_ok_iff,
    Prod.exists,take_ok_iff,readU32_ok_iff,decodeActions_ok_iff,pure_ok_iff,not_not,hmagic]
  constructor
  · rintro ⟨hlong,hsum,_,_,⟨hbody,-⟩,rfl,_,_,⟨hlt,rfl⟩,hcount,_,_,
      ⟨rfl,hall,hadm,front,hfront,rfl⟩,rfl,⟨⟩,hsizes,rfl⟩
    rw [List.append_nil] at hbody
    rw [not_or] at hcount hlong
    refine ⟨⟨fun hnil => hcount.1 (by rw [hnil]; rfl),Nat.le_of_not_gt hcount.2,hall,hadm⟩,
      Nat.le_of_not_gt hlong.2,hsizes,hlt,front,hfront,?_⟩
    rw [← hbody,hsum,List.take_append_drop]
  · rintro ⟨⟨hne,hle,hall,hadm⟩,hmax,hsizes,hlt,front,hfront,hbytes⟩
    generalize hbody : manifestMagic++(bigEndian 4 actions.length++front)=body at hbytes
    subst hbytes
    have hsum := (hash body).2
    have hblen : body.length=12+front.length := by
      simp only [← hbody,List.length_append,length_bigEndian,hmagic]
      omega
    have hlen : (body++(hash body).1).length - 32=body.length := by
      rw [List.length_append,hsum,Nat.add_sub_cancel]
    rw [hlen,List.take_left,List.drop_left]
    refine ⟨?_,rfl,manifestMagic,_,⟨hbody.symm,hmagic⟩,rfl,_,_,⟨hlt,rfl⟩,?_,actions,[],
      ⟨rfl,hall,hadm,front,hfront,(List.append_nil front).symm⟩,rfl,(),hsizes,rfl⟩
    · rw [List.length_append,hsum] at hmax ⊢
      omega
    · exact not_or.2 ⟨fun hzero => hne (List.length_eq_zero_iff.1 hzero),Nat.not_lt.2 hle⟩

/-! ## Manifests of prepared actions -/

/-- What `prepareAction` guarantees of a list of prepared actions. -/
structure ManifestReady (actions : List PreparedAction) : Prop where
  ne_nil : actions≠[]
  length_le : actions.length ≤ maxActions
  encodable : ∀ action∈actions, Encodable action
  shape : ∀ action∈actions, action.shapeValid=true
  logical : ∀ path∈actions.flatMap PreparedAction.paths, validateLogical path=.ok ()
  ne_root : ∀ path∈actions.flatMap PreparedAction.paths, path≠rootLogical
  unreserved : ∀ path∈actions.flatMap PreparedAction.paths, isReserved path=false
  nodup : (actions.flatMap PreparedAction.paths).Nodup
  sizes : validateManifestSizes 0 0 actions=.ok ()

private theorem admitDecoded_eq {paths : List Text}
    (hl : ∀ path∈paths, validateLogical path=.ok ()) (hr : ∀ path∈paths, path≠rootLogical)
    (hu : ∀ path∈paths, isReserved path=false) (hn : paths.Nodup)
    (hd : List.Disjoint paths seen) : admitDecoded seen paths=.ok (paths.reverse++seen) := by
  induction paths generalizing seen with
  | nil => rfl
  | cons path rest ih =>
    rw [List.forall_mem_cons] at hl hr hu
    rw [List.nodup_cons] at hn
    rw [List.disjoint_cons_left] at hd
    rw [admitDecoded,if_neg (by simp [hl.1,hr.1,hu.1,hd.1]),
      ih hl.2 hr.2 hu.2 hn.2 (List.disjoint_cons_right.2 ⟨hn.1,hd.2⟩)]
    simp

theorem encodeActions_of_encodable (h : ∀ action∈actions, Encodable action) :
    ∃ front, encodeActions actions=.ok front ∧ front.length ≤ 8300*actions.length := by
  induction actions with
  | nil => exact ⟨[],rfl,by simp⟩
  | cons action actions ih =>
    obtain ⟨hfirst,hrest⟩ := List.forall_mem_cons.1 h
    obtain ⟨first,hfirst,hfl⟩ := encodeAction_of_encodable hfirst
    obtain ⟨others,hothers,hol⟩ := ih hrest
    refine ⟨first++others,by rw [encodeActions,hfirst,hothers]; rfl,?_⟩
    rw [List.length_append,List.length_cons]
    omega

/-- The manifest of a prepared list exists, fits, and decodes to that list. -/
theorem decodeManifest_encodeManifest (hash : Bytes → Digest) (h : ManifestReady actions) :
    ∃ bytes, encodeManifest hash actions=.ok bytes ∧ bytes.length ≤ maxManifestBytes ∧
      decodeManifest hash bytes=.ok actions := by
  obtain ⟨front,hfront,hlen⟩ := encodeActions_of_encodable h.encodable
  have hcount : actions.length ≤ 256 := h.length_le
  have hmagic : manifestMagic.length=8 := by decide
  obtain ⟨bytes,hbytes⟩ : ∃ bytes, encodeManifest hash actions=.ok bytes :=
    ⟨_,encodeManifest_ok_iff.2 ⟨h.sizes,by omega,front,hfront,rfl⟩⟩
  have hmax : bytes.length ≤ maxManifestBytes := by
    obtain ⟨-,-,_,hfront',rfl⟩ := encodeManifest_ok_iff.1 hbytes
    obtain rfl := Except.ok.inj (hfront.symm.trans hfront')
    rw [List.length_append,(hash _).2]
    simp only [List.length_append,length_bigEndian,hmagic,maxManifestBytes]
    omega
  refine ⟨bytes,hbytes,hmax,decodeManifest_ok_iff.2 ⟨⟨h.ne_nil,h.length_le,?_,?_⟩,hmax,hbytes⟩⟩
  · exact fun action ha => ⟨h.encodable action ha,h.shape action ha⟩
  · exact ⟨_,admitDecoded_eq h.logical h.ne_root h.unreserved h.nodup (List.disjoint_nil_right _)⟩

end Ash.TransactionManifest
