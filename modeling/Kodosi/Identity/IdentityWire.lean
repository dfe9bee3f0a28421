import Kodosi.Identity.Certificates
import Kodosi.Lib.Reads

/-! How the backend reads the two signed bodies of an identity, in its own words. -/

namespace Kodosi.Identity.IdentityWire
open Kodosi.Lib

def MaxEntries : Nat := 256
def MaxDeviceCertificateBodyLength : Nat := 4584
def MaxSignedDeviceListBodyLength : Nat := 527432
def MlDsa65PublicKeyLength : Nat := 1952
def MaxFieldLength : Nat := 65536
def MaxUnixTimeMilliseconds : Nat := 253402300799999
def MaxInt64 : Nat := 2 ^ 63 - 1

/-! ### The reader

    An error is the message of the exception. -/

abbrev WireReader := ByteReader String

def take (length : Nat) : WireReader Bytes := fun bytes =>
  if bytes.length < length then .error "truncated body" else .ok (bytes.take length, bytes.drop length)

/-- Gives a value on when it keeps a rule. -/
def checked {α : Type} (keeps : α → Bool) (message : String) (a : α) : WireReader α :=
  if keeps a then return a else throw message

def readUInt32 : WireReader Nat := do return ofBe (← take 4)

def readInt64 : WireReader Nat := do
  let value := ofBe (← take 8)
  checked (· ≤ MaxInt64) "integer is too large" value

def readBytes : WireReader Bytes := do
  let length ← checked (· ≤ MaxFieldLength) "field is too long" (← readUInt32)
  take length

def readString : WireReader String := do
  match ofUtf8 (← readBytes) with
  | some value => return value
  | none => throw "invalid UTF-8 in string field"

def readUserId : WireReader String := do
  checked isCanonicalUuid "user_id must be a canonical lowercase UUID" (← readString)

/-! ### Rules -/

def isControl (c : Char) : Bool := c.toNat ≤ 0x1F || (0x7F ≤ c.toNat && c.toNat ≤ 0x9F)

def isNullOrWhiteSpace (value : String) : Bool := value.toList.all isWhiteSpace

/-- `DeviceIdRules.IsCanonical` -/
def isCanonical (value : String) : Bool :=
  !isNullOrWhiteSpace value && utf16Len value ≤ 256 && isTrimmed value && !value.toList.any isControl

def isLabel (label : String) : Bool :=
  !(isNullOrWhiteSpace label || 128 < utf16Len label || !isTrimmed label)

def readDeviceId : WireReader String := do
  checked isCanonical "device ID must be canonical" (← readString)

def readTime : WireReader Nat := do
  checked (· ≤ MaxUnixTimeMilliseconds) "timestamp is too large" (← readInt64)

def readValidity : WireReader (Nat × Option Nat) := do
  let issued ← readTime
  let expires ← readTime
  if expires = 0 then return (issued, none)
  else if issued < expires then return (issued, some expires)
  else throw "expires_at_ms must be after issued_at_ms"

def expectEnd : WireReader Unit := fun bytes =>
  if bytes = [] then .ok ((), bytes) else .error "trailing bytes after parse"

/-- Reads a body of the right length. -/
def readAll {α : Type} (read : WireReader α) (body : Bytes) (maxLength : Nat) : Except String α :=
  if body = [] ∨ maxLength < body.length then .error "body length is invalid"
  else do
    let (value, _) ← read body
    return value

/-! ### The two bodies -/

/-- The backend does not keep the label. -/
structure DeviceCertificate where
  userId : String
  deviceId : String
  signerDeviceId : String
  sigPublicKey : Bytes
  issuedAtMs : Nat
  expiresAtMs : Option Nat
  deriving DecidableEq

def DeviceCertificate.read : WireReader DeviceCertificate := do
  let userId ← readUserId
  let deviceId ← readDeviceId
  let _ ← checked isLabel "device_label must be canonical text of at most 128 UTF-16 code units" (← readString)
  let signerDeviceId ← readDeviceId
  let key ← checked (·.length = MlDsa65PublicKeyLength) "sig_public_key has the wrong length" (← readBytes)
  let (issuedAtMs, expiresAtMs) ← readValidity
  expectEnd
  return ⟨userId, deviceId, signerDeviceId, key, issuedAtMs, expiresAtMs⟩

def DeviceCertificate.parse (body : Bytes) : Except String DeviceCertificate :=
  readAll DeviceCertificate.read body MaxDeviceCertificateBodyLength

structure Entry where
  deviceId : String
  signerDeviceId : String
  deriving DecidableEq

structure SignedDeviceList where
  userId : String
  generation : Nat
  entries : List Entry
  signerDeviceId : String
  issuedAtMs : Nat
  expiresAtMs : Option Nat
  deriving DecidableEq

def readEntries : Nat → WireReader (List Entry)
  | 0 => return []
  | n + 1 => do
    let deviceId ← readDeviceId
    let signerDeviceId ← readDeviceId
    let rest ← readEntries n
    return ⟨deviceId, signerDeviceId⟩ :: rest

def SignedDeviceList.deviceIds (l : SignedDeviceList) : List String := l.entries.map (·.deviceId)

/-- Each device stands once among the entries. -/
def SignedDeviceList.distinct (l : SignedDeviceList) : Bool := l.deviceIds.dedup.length = l.entries.length

def SignedDeviceList.signed (l : SignedDeviceList) : Bool := l.entries.any (·.deviceId == l.signerDeviceId)

def SignedDeviceList.read : WireReader SignedDeviceList := do
  let userId ← readUserId
  let generation ← checked (1 ≤ ·) "generation must be at least 1" (← readInt64)
  let count ← checked (· ≤ MaxEntries) "the list has too many entries" (← readUInt32)
  let entries ← readEntries count
  let signer ← readDeviceId
  let (issuedAtMs, expiresAtMs) ← readValidity
  expectEnd
  let list ← checked distinct "duplicate device_id" ⟨userId, generation, entries, signer, issuedAtMs, expiresAtMs⟩
  checked signed "the list signer is not in the entries" list

def SignedDeviceList.parse (body : Bytes) : Except String SignedDeviceList :=
  readAll SignedDeviceList.read body MaxSignedDeviceListBodyLength

end Kodosi.Identity.IdentityWire
