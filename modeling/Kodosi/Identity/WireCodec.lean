import Kodosi.Lib.Bytes
import Kodosi.Lib.Checks

/-! The byte format of identity bodies: fields with a length in front, fixed numbers, and the rules that
    each text and each time must keep. -/

namespace Kodosi.Identity
open Kodosi.Lib

abbrev Bytes := List UInt8

/-- What goes wrong in identity code. -/
inductive Error where
  | invalid (reason : String)
  | trust (reason : String)
  | json
  | io
  | stale
  deriving DecidableEq

def MAX_FIELD_LEN : Nat := 65536
def USER_ID_LEN : Nat := 36
def DEVICE_ID_MAX_UTF16_CODE_UNITS : Nat := 256
def DEVICE_LABEL_MAX_UTF16_CODE_UNITS : Nat := 128
def ML_DSA_65_PUBLIC_KEY_LEN : Nat := 1952
def ML_DSA_65_SIGNATURE_LEN : Nat := 3309
def MAX_DEVICE_CERTIFICATE_BODY_LEN : Nat := 4584
def MAX_SIGNED_DEVICE_LIST_BODY_LEN : Nat := 527432
def NO_EXPIRY_SENTINEL : Nat := 0
def MAX_UNIX_TIME_MILLISECONDS : Nat := 253402300799999

/-! ### Writing -/

def writeLpBytes (context : String) (bytes : Bytes) : Except Error Bytes :=
  if 2 ^ 32 ≤ bytes.length then
    .error (.invalid s!"{context} field exceeds u32 length prefix")
  else if MAX_FIELD_LEN < bytes.length then
    .error (.invalid
      s!"{context} field length {bytes.length} exceeds MAX_FIELD_LEN ({MAX_FIELD_LEN})")
  else .ok (toBe 4 bytes.length ++ bytes)

def writeLpStr (context : String) (value : String) : Except Error Bytes :=
  writeLpBytes context (utf8 value)

def writeU32Be (value : Nat) : Bytes := toBe 4 value

def writeU64Be (value : Nat) : Bytes := toBe 8 value

/-! ### Reading

    A reader takes bytes from the front of what is left. -/

abbrev Reader := StateT Bytes (Except Error)

def readU32Be (context : String) : Reader Nat := fun bytes =>
  if bytes.length < 4 then .error (.invalid s!"{context}: truncated u32")
  else .ok (ofBe (bytes.take 4), bytes.drop 4)

def readU64Be (context : String) : Reader Nat := fun bytes =>
  if bytes.length < 8 then .error (.invalid s!"{context}: truncated u64")
  else .ok (ofBe (bytes.take 8), bytes.drop 8)

def readLpBytes (context : String) : Reader Bytes := do
  let len ← readU32Be context
  fun bytes =>
    if MAX_FIELD_LEN < len then
      .error (.invalid s!"{context}: field length {len} exceeds MAX_FIELD_LEN ({MAX_FIELD_LEN})")
    else if bytes.length < len then .error (.invalid s!"{context}: truncated field")
    else .ok (bytes.take len, bytes.drop len)

def readLpStr (context : String) : Reader String := do
  let bytes ← readLpBytes context
  match ofUtf8 bytes with
  | some s => return s
  | none => throw (.invalid s!"{context}: invalid UTF-8 in string field")

def expectConsumed (context : String) : Reader Unit := fun bytes =>
  if bytes = [] then .ok ((), bytes)
  else .error (.invalid s!"{context}: trailing bytes after parse")

theorem readU32Be_write (context : String) {value : Nat} (hvalue : value < 2 ^ 32) (rest : Bytes) :
    readU32Be context (writeU32Be value ++ rest) = .ok (value, rest) := by
  rw [readU32Be, writeU32Be, if_neg (by simp), List.take_left' (by simp), List.drop_left' (by simp),
    ofBe_toBe 4 value hvalue]

theorem readU64Be_write (context : String) {value : Nat} (hvalue : value < 2 ^ 64) (rest : Bytes) :
    readU64Be context (writeU64Be value ++ rest) = .ok (value, rest) := by
  rw [readU64Be, writeU64Be, if_neg (by simp), List.take_left' (by simp), List.drop_left' (by simp),
    ofBe_toBe 8 value hvalue]

theorem readLpBytes_write (context context' : String) {bytes field : Bytes}
    (h : writeLpBytes context bytes = .ok field) (rest : Bytes) :
    readLpBytes context' (field ++ rest) = .ok (bytes, rest) := by
  unfold writeLpBytes at h
  split at h
  · simp at h
  split at h
  · simp at h
  rename_i h32 hmax
  obtain rfl := Except.ok.inj h
  have hread := readU32Be_write context' (Nat.lt_of_not_le h32) (bytes ++ rest)
  rw [writeU32Be] at hread
  rw [List.append_assoc, readLpBytes]
  simp only [bind, StateT.bind, hread, Except.bind]
  rw [if_neg hmax, if_neg (by simp), List.take_left, List.drop_left]

theorem readLpStr_write (context context' : String) {value : String} {field : Bytes}
    (h : writeLpStr context value = .ok field) (rest : Bytes) :
    readLpStr context' (field ++ rest) = .ok (value, rest) := by
  have hread := readLpBytes_write context context' h rest
  rw [readLpStr]
  simp only [bind, StateT.bind, hread, Except.bind, ofUtf8_utf8]
  rfl

/-! ### Rules -/

/-- Whether Unicode counts a character as white space. -/
def isWhiteSpace (c : Char) : Bool :=
  let n := c.toNat
  (9 ≤ n && n ≤ 13) || n == 0x20 || n == 0x85 || n == 0xA0 || n == 0x1680 ||
    (0x2000 ≤ n && n ≤ 0x200A) || n == 0x2028 || n == 0x2029 || n == 0x202F || n == 0x205F ||
    n == 0x3000

/-- Whether a text is as `trim` leaves it. -/
def isTrimmed (s : String) : Bool :=
  !(s.toList.head?.any isWhiteSpace || s.toList.getLast?.any isWhiteSpace)

def utf16Len (s : String) : Nat := (s.toList.map fun c => if 0x10000 ≤ c.toNat then 2 else 1).sum

def isLowerHex (c : Char) : Bool := ('0' ≤ c && c ≤ '9') || ('a' ≤ c && c ≤ 'f')

/-- Where a hyphenated UUID has digits. -/
def uuidDigits : List Bool :=
  let digits n := List.replicate n true
  digits 8 ++ [false] ++ digits 4 ++ [false] ++ digits 4 ++ [false] ++ digits 4 ++ [false] ++
    digits 12

/-- Whether a text is a UUID as `hyphenated` writes it. -/
def isCanonicalUuid (value : String) : Bool :=
  value.toList.length == USER_ID_LEN &&
    (value.toList.zip uuidDigits).all fun (c, digit) => if digit then isLowerHex c else c == '-'

def validateCanonicalUserId (context : String) (value : String) : Except Error Unit :=
  if isCanonicalUuid value then .ok ()
  else .error (.invalid s!"{context}: user_id must be a canonical lowercase UUID")

/-- A field of text that is trimmed, not empty and not too long. -/
def rejectBoundedStr (context field value : String) (most : Nat) : Except Error Unit :=
  if isTrimmed value && !value.isEmpty && utf16Len value ≤ most then .ok ()
  else .error (.invalid
    s!"{context}: {field} must be canonical non-blank text of at most {most} UTF-16 code units")

def validateCanonicalDeviceId (context field value : String) : Except Error Unit :=
  rejectBoundedStr context field value DEVICE_ID_MAX_UTF16_CODE_UNITS

def rejectZeroExpiry (context : String) (expiresAtMs : Option Nat) : Except Error Unit :=
  if expiresAtMs = some 0 then
    .error (.invalid (s!"{context}: expires_at_ms = Some(0) is reserved as the no-expiry " ++
      "sentinel; pass None instead"))
  else .ok ()

def validateTimestamps (context : String) (issuedAtMs : Nat) (expiresAtMs : Option Nat) :
    Except Error Unit := do
  rejectZeroExpiry context expiresAtMs
  if MAX_UNIX_TIME_MILLISECONDS < issuedAtMs then
    .error (.invalid (s!"{context}: issued_at_ms exceeds MAX_UNIX_TIME_MILLISECONDS " ++
      s!"({MAX_UNIX_TIME_MILLISECONDS})"))
  else if expiresAtMs.any (MAX_UNIX_TIME_MILLISECONDS < ·) then
    .error (.invalid (s!"{context}: expires_at_ms exceeds MAX_UNIX_TIME_MILLISECONDS " ++
      s!"({MAX_UNIX_TIME_MILLISECONDS})"))
  else if expiresAtMs.any (· ≤ issuedAtMs) then
    .error (.invalid s!"{context}: expires_at_ms must be greater than issued_at_ms")
  else .ok ()

def encodeExpiry (expiresAtMs : Option Nat) : Nat := expiresAtMs.getD NO_EXPIRY_SENTINEL

def decodeExpiry (expiresAtMs : Nat) : Option Nat :=
  if expiresAtMs = NO_EXPIRY_SENTINEL then none else some expiresAtMs

/-- Times that pass fit in their bytes, and the expiry reads back. -/
theorem validateTimestamps_ok {context : String} {issued : Nat} {expires : Option Nat}
    (h : validateTimestamps context issued expires = .ok ()) :
    issued < 2 ^ 64 ∧ encodeExpiry expires < 2 ^ 64 ∧ decodeExpiry (encodeExpiry expires) = expires := by
  simp only [validateTimestamps, rejectZeroExpiry] at h
  split at h
  · simp [bind, Except.bind] at h
  rename_i hzero
  simp only [bind, Except.bind] at h
  split at h
  · simp at h
  rename_i hissued
  split at h
  · simp at h
  rename_i hexpires
  have hmax : MAX_UNIX_TIME_MILLISECONDS < 2 ^ 64 := by decide
  cases expires with
  | none => exact ⟨by omega, by decide, rfl⟩
  | some t =>
    have ht : t ≠ 0 := fun h0 => hzero (by rw [h0])
    have hle : t ≤ MAX_UNIX_TIME_MILLISECONDS := by simpa using hexpires
    refine ⟨by omega, by simp only [encodeExpiry, Option.getD_some]; omega, ?_⟩
    simp [encodeExpiry, decodeExpiry, NO_EXPIRY_SENTINEL, ht]

/-- What has an expiry is issued before it. -/
theorem validateTimestamps_lt {context : String} {issued : Nat} {expires : Option Nat}
    (h : validateTimestamps context issued expires = .ok ()) : expires.all (issued < ·) := by
  obtain ⟨⟨⟩, -, h⟩ := bind_ok h
  split at h
  · simp at h
  split at h
  · simp at h
  split at h
  · simp at h
  rename_i hlt
  cases expires with
  | none => rfl
  | some t => simpa using hlt

end Kodosi.Identity
