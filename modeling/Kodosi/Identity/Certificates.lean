import Kodosi.Identity.WireCodec

/-! The two signed bodies of an identity: the certificate of a device and the list of its devices. What
    one serializes, the other side parses to the same value. -/

namespace Kodosi.Identity
open Kodosi.Lib

/-- What the program takes from its cryptography library. -/
structure Crypto where
  sha256 : Bytes → Bytes
  /-- Whether a signature of a payload fits a public key (ML-DSA-65). -/
  verifySig : Bytes → Bytes → Bytes → Bool

/-! ### Device certificates -/

def DEVICE_CERT_V3 : Bytes := utf8 "kodosi-device-cert-v3"
def DEVICE_CERT_CONTEXT : String := "device cert"

structure DeviceCertificate where
  userId : String
  deviceId : String
  deviceLabel : String
  signerDeviceId : String
  sigPublicKey : Bytes
  issuedAtMs : Nat
  expiresAtMs : Option Nat
  deriving DecidableEq

namespace DeviceCertificate

def isSelfSigned (c : DeviceCertificate) : Bool := c.signerDeviceId == c.deviceId

def isValidAt (c : DeviceCertificate) (nowMs : Nat) : Bool := c.expiresAtMs.all (nowMs < ·)

def requireExactBytes (context field : String) (value : Bytes) (requiredLength : Nat) :
    Except Error Unit :=
  if value.length = requiredLength then .ok ()
  else .error (.invalid s!"{context}: {field} must be exactly {requiredLength} bytes")

def validateCertificate (c : DeviceCertificate) : Except Error Unit := do
  validateTimestamps DEVICE_CERT_CONTEXT c.issuedAtMs c.expiresAtMs
  validateCanonicalUserId DEVICE_CERT_CONTEXT c.userId
  validateCanonicalDeviceId DEVICE_CERT_CONTEXT "device_id" c.deviceId
  rejectBoundedStr DEVICE_CERT_CONTEXT "device_label" c.deviceLabel DEVICE_LABEL_MAX_UTF16_CODE_UNITS
  validateCanonicalDeviceId DEVICE_CERT_CONTEXT "signer_device_id" c.signerDeviceId
  requireExactBytes DEVICE_CERT_CONTEXT "signature public key" c.sigPublicKey
    ML_DSA_65_PUBLIC_KEY_LEN

def tooLong (length : Nat) : Error :=
  .invalid (s!"{DEVICE_CERT_CONTEXT}: body length {length} exceeds " ++
    s!"MAX_DEVICE_CERTIFICATE_BODY_LEN ({MAX_DEVICE_CERTIFICATE_BODY_LEN})")

def serializeBody (c : DeviceCertificate) : Except Error Bytes := do
  c.validateCertificate
  let userId ← writeLpStr DEVICE_CERT_CONTEXT c.userId
  let deviceId ← writeLpStr DEVICE_CERT_CONTEXT c.deviceId
  let deviceLabel ← writeLpStr DEVICE_CERT_CONTEXT c.deviceLabel
  let signerDeviceId ← writeLpStr DEVICE_CERT_CONTEXT c.signerDeviceId
  let sigPublicKey ← writeLpBytes DEVICE_CERT_CONTEXT c.sigPublicKey
  let body := userId ++ (deviceId ++ (deviceLabel ++ (signerDeviceId ++ (sigPublicKey ++
    (writeU64Be c.issuedAtMs ++ writeU64Be (encodeExpiry c.expiresAtMs))))))
  if MAX_DEVICE_CERTIFICATE_BODY_LEN < body.length then .error (tooLong body.length) else .ok body

def readBody : Reader DeviceCertificate := do
  let userId ← readLpStr DEVICE_CERT_CONTEXT
  let deviceId ← readLpStr DEVICE_CERT_CONTEXT
  let deviceLabel ← readLpStr DEVICE_CERT_CONTEXT
  let signerDeviceId ← readLpStr DEVICE_CERT_CONTEXT
  let sigPublicKey ← readLpBytes DEVICE_CERT_CONTEXT
  let issuedAtMs ← readU64Be DEVICE_CERT_CONTEXT
  let expiresRaw ← readU64Be DEVICE_CERT_CONTEXT
  expectConsumed DEVICE_CERT_CONTEXT
  return ⟨userId, deviceId, deviceLabel, signerDeviceId, sigPublicKey, issuedAtMs,
    decodeExpiry expiresRaw⟩

def parseBody (bytes : Bytes) : Except Error DeviceCertificate :=
  if MAX_DEVICE_CERTIFICATE_BODY_LEN < bytes.length then .error (tooLong bytes.length)
  else do
    let (certificate, _) ← readBody bytes
    certificate.validateCertificate
    return certificate

/-- A body that was serialized parses to the certificate. -/
theorem parseBody_serializeBody {c : DeviceCertificate} {body : Bytes}
    (h : c.serializeBody = .ok body) : parseBody body = .ok c := by
  obtain ⟨⟨⟩, hvalid, h⟩ := bind_ok h
  obtain ⟨userId, huser, h⟩ := bind_ok h
  obtain ⟨deviceId, hdevice, h⟩ := bind_ok h
  obtain ⟨label, hlabel, h⟩ := bind_ok h
  obtain ⟨signer, hsigner, h⟩ := bind_ok h
  obtain ⟨key, hkey, h⟩ := bind_ok h
  dsimp only at h
  split at h
  · simp at h
  rename_i hlen
  obtain rfl := Except.ok.inj h
  obtain ⟨⟨⟩, htimes, -⟩ := bind_ok hvalid
  obtain ⟨hissued, hexpiry, hdecode⟩ := validateTimestamps_ok htimes
  have hlast := readU64Be_write DEVICE_CERT_CONTEXT hexpiry []
  rw [List.append_nil] at hlast
  have hread : readBody (userId ++ (deviceId ++ (label ++ (signer ++ (key ++
      (writeU64Be c.issuedAtMs ++ writeU64Be (encodeExpiry c.expiresAtMs))))))) = .ok (c, []) := by
    simp only [readBody, bind, StateT.bind, readLpStr_write _ _ huser, readLpStr_write _ _ hdevice,
      readLpStr_write _ _ hlabel, readLpStr_write _ _ hsigner, readLpBytes_write _ _ hkey,
      readU64Be_write _ hissued, hlast, Except.bind, expectConsumed, hdecode]
    rfl
  rw [parseBody, if_neg hlen, hread]
  simp only [bind, Except.bind, hvalid]
  rfl

end DeviceCertificate

/-! ### Device lists -/

def DEVICE_LIST_V1 : Bytes := utf8 "kodosi-device-list-v1"
def DEVICE_LIST_CONTEXT : String := "device list"
def MAX_ENTRIES : Nat := 256

structure DeviceListEntry where
  deviceId : String
  signerDeviceId : String
  deriving DecidableEq

structure SignedDeviceList where
  userId : String
  generation : Nat
  entries : List DeviceListEntry
  signerDeviceId : String
  issuedAtMs : Nat
  expiresAtMs : Option Nat
  deriving DecidableEq

def DeviceListEntry.validateRequiredFields (e : DeviceListEntry) : Except Error Unit := do
  validateCanonicalDeviceId DEVICE_LIST_CONTEXT "device_id" e.deviceId
  validateCanonicalDeviceId DEVICE_LIST_CONTEXT "entry signer_device_id" e.signerDeviceId

/-- Each entry keeps the rules, and no device stands twice. -/
def validateEntriesFrom (seen : List String) : List DeviceListEntry → Except Error Unit
  | [] => .ok ()
  | e :: entries => do
    e.validateRequiredFields
    if e.deviceId ∈ seen then
      .error (.invalid s!"device list contains duplicate device_id {e.deviceId}")
    else validateEntriesFrom (e.deviceId :: seen) entries

def validateEntries (entries : List DeviceListEntry) : Except Error Unit :=
  validateEntriesFrom [] entries

namespace SignedDeviceList

def deviceIds (l : SignedDeviceList) : List String := l.entries.map (·.deviceId)

def validateRequiredFields (l : SignedDeviceList) : Except Error Unit :=
  if l.generation = 0 ∨ 2 ^ 63 ≤ l.generation then
    .error (.invalid "device list: generation must be between 1 and i64::MAX")
  else do
    validateTimestamps DEVICE_LIST_CONTEXT l.issuedAtMs l.expiresAtMs
    validateCanonicalUserId DEVICE_LIST_CONTEXT l.userId
    validateCanonicalDeviceId DEVICE_LIST_CONTEXT "list signer_device_id" l.signerDeviceId
    validateEntries l.entries

def tooLong (length : Nat) : Error :=
  .invalid (s!"{DEVICE_LIST_CONTEXT}: body length {length} exceeds " ++
    s!"MAX_SIGNED_DEVICE_LIST_BODY_LEN ({MAX_SIGNED_DEVICE_LIST_BODY_LEN})")

def writeEntries : List DeviceListEntry → Except Error Bytes
  | [] => .ok []
  | e :: entries => do
    let deviceId ← writeLpStr DEVICE_LIST_CONTEXT e.deviceId
    let signerDeviceId ← writeLpStr DEVICE_LIST_CONTEXT e.signerDeviceId
    let rest ← writeEntries entries
    return deviceId ++ (signerDeviceId ++ rest)

def serializeBody (l : SignedDeviceList) : Except Error Bytes := do
  l.validateRequiredFields
  if MAX_ENTRIES < l.entries.length then
    .error (.invalid s!"device list: {l.entries.length} entries exceeds MAX_ENTRIES ({MAX_ENTRIES})")
  else
    let userId ← writeLpStr DEVICE_LIST_CONTEXT l.userId
    let entries ← writeEntries l.entries
    let signerDeviceId ← writeLpStr DEVICE_LIST_CONTEXT l.signerDeviceId
    let body := userId ++ (writeU64Be l.generation ++ (writeU32Be l.entries.length ++ (entries ++
      (signerDeviceId ++ (writeU64Be l.issuedAtMs ++ writeU64Be (encodeExpiry l.expiresAtMs))))))
    if MAX_SIGNED_DEVICE_LIST_BODY_LEN < body.length then .error (tooLong body.length) else .ok body

def readEntries : Nat → Reader (List DeviceListEntry)
  | 0 => return []
  | n + 1 => do
    let deviceId ← readLpStr DEVICE_LIST_CONTEXT
    let signerDeviceId ← readLpStr DEVICE_LIST_CONTEXT
    let rest ← readEntries n
    return ⟨deviceId, signerDeviceId⟩ :: rest

def readBody : Reader SignedDeviceList := do
  let userId ← readLpStr DEVICE_LIST_CONTEXT
  let generation ← readU64Be DEVICE_LIST_CONTEXT
  let entryCount ← readU32Be DEVICE_LIST_CONTEXT
  if MAX_ENTRIES < entryCount then
    throw (.invalid s!"device list: entry_count {entryCount} exceeds MAX_ENTRIES ({MAX_ENTRIES})")
  else
    let entries ← readEntries entryCount
    let signerDeviceId ← readLpStr DEVICE_LIST_CONTEXT
    let issuedAtMs ← readU64Be DEVICE_LIST_CONTEXT
    let expiresRaw ← readU64Be DEVICE_LIST_CONTEXT
    expectConsumed DEVICE_LIST_CONTEXT
    return ⟨userId, generation, entries, signerDeviceId, issuedAtMs, decodeExpiry expiresRaw⟩

def parseBody (bytes : Bytes) : Except Error SignedDeviceList :=
  if MAX_SIGNED_DEVICE_LIST_BODY_LEN < bytes.length then .error (tooLong bytes.length)
  else do
    let (list, _) ← readBody bytes
    list.validateRequiredFields
    if list.signerDeviceId ∈ list.deviceIds then .ok list
    else .error (.invalid
      s!"device list signer {list.signerDeviceId} is not present in the list entries")

theorem readEntries_write : ∀ {entries : List DeviceListEntry} {bytes : Bytes},
    writeEntries entries = .ok bytes → ∀ rest,
    readEntries entries.length (bytes ++ rest) = .ok (entries, rest)
  | [], bytes, h, rest => by
    obtain rfl := Except.ok.inj h
    rfl
  | e :: entries, bytes, h, rest => by
    obtain ⟨deviceId, hdevice, h⟩ := bind_ok h
    obtain ⟨signer, hsigner, h⟩ := bind_ok h
    obtain ⟨bytes', hrest, h⟩ := bind_ok h
    obtain rfl := Except.ok.inj h
    have ih := readEntries_write hrest rest
    simp only [List.length_cons, readEntries, bind, StateT.bind, List.append_assoc,
      readLpStr_write _ _ hdevice, readLpStr_write _ _ hsigner, Except.bind, ih]
    rfl

/-- A body that was serialized parses to the list, when its signer stands in it. -/
theorem parseBody_serializeBody {l : SignedDeviceList} {body : Bytes}
    (h : l.serializeBody = .ok body) (hsigner : l.signerDeviceId ∈ l.deviceIds) :
    parseBody body = .ok l := by
  obtain ⟨⟨⟩, hvalid, h⟩ := bind_ok h
  dsimp only at h
  split at h
  · simp at h
  rename_i hmost
  obtain ⟨userId, huser, h⟩ := bind_ok h
  obtain ⟨entries, hentries, h⟩ := bind_ok h
  obtain ⟨signer, hsigner', h⟩ := bind_ok h
  split at h
  · simp at h
  rename_i hlen
  obtain rfl := Except.ok.inj h
  have hvalid' := hvalid
  rw [validateRequiredFields] at hvalid'
  split at hvalid'
  · simp at hvalid'
  rename_i hgeneration
  obtain ⟨⟨⟩, htimes, -⟩ := bind_ok hvalid'
  obtain ⟨hissued, hexpiry, hdecode⟩ := validateTimestamps_ok htimes
  have hlast := readU64Be_write DEVICE_LIST_CONTEXT hexpiry []
  rw [List.append_nil] at hlast
  have hgeneration' : l.generation < 2 ^ 64 := by omega
  have hcount : l.entries.length < 2 ^ 32 := by
    simp only [MAX_ENTRIES] at hmost
    omega
  have hread : readBody (userId ++ (writeU64Be l.generation ++ (writeU32Be l.entries.length ++
      (entries ++ (signer ++ (writeU64Be l.issuedAtMs ++ writeU64Be (encodeExpiry l.expiresAtMs)))))))
      = .ok (l, []) := by
    simp only [readBody, bind, StateT.bind, readLpStr_write _ _ huser,
      readU64Be_write _ hgeneration', readU32Be_write _ hcount, Except.bind]
    rw [if_neg hmost]
    simp only [StateT.bind, bind, readEntries_write hentries, readLpStr_write _ _ hsigner',
      readU64Be_write _ hissued, hlast, Except.bind, expectConsumed, hdecode]
    rfl
  rw [parseBody, if_neg hlen, hread]
  simp only [bind, Except.bind, hvalid, if_pos hsigner]

end SignedDeviceList

end Kodosi.Identity
