import Kodosi.Identity.Certificates
import Kodosi.Lib.Base64

/-! The identities that a client trusts: what it pins of each person, and the one function that checks a
    newer bundle of a person against the pin and replaces it. -/

namespace Kodosi.Identity
open Kodosi.Lib

abbrev Map (ν : Type) := Std.TreeMap String ν

structure CertificateEnvelope where
  certificate : String
  certificateSignature : String
  deriving DecidableEq

structure DeviceListEnvelope where
  body : String
  signature : String
  deriving DecidableEq

/-- What the server hands out about a person. The nil incarnation is `0`. -/
structure IdentityBundle where
  userId : String
  identityIncarnationId : Nat
  deviceList : DeviceListEnvelope
  devices : List CertificateEnvelope
  certificateChain : List CertificateEnvelope
  deriving DecidableEq

abbrev Root := Bytes

/-- The root that a caller expects: the one pinned, or one that was approved. -/
inductive Anchor where
  | pinned
  | root (approved : Root)

structure VerifiedIdentity where
  generation : Nat
  devices : Map DeviceCertificate
  list : SignedDeviceList
  root : Root

structure Pin where
  identityIncarnationId : Nat
  generation : Nat
  listBody : String
  listSignature : String
  certificates : Map CertificateEnvelope
  revoked : Finset String
  root : Root

/-- Whether two pins are equal, their certificates device by device. -/
def Pin.same (p q : Pin) : Bool :=
  p.identityIncarnationId == q.identityIncarnationId && p.generation == q.generation &&
    p.listBody == q.listBody && p.listSignature == q.listSignature &&
    p.certificates.toList == q.certificates.toList && p.revoked == q.revoked && p.root == q.root

structure StoredPins where
  version : Nat
  pins : Map Pin

/-- The pins of a running client, and what its file holds. -/
structure Pins where
  file : Option StoredPins
  pins : Map Pin

def rootOf (C : Crypto) (certificateBody : Bytes) : Root :=
  C.sha256 (utf8 "kodosi-identity-root-v1" ++ certificateBody)

def decode (value : String) (limit : Nat) : Except Error Bytes := do
  reject ((limit + 2) / 3 * 4 < value.utf8ByteSize) (.invalid "Encoded data exceeds its limit.")
  let bytes ← require (.invalid "Data is not base64.") (Base64.decode value)
  reject (limit < bytes.length) (.invalid "Decoded data exceeds its limit.")
  return bytes

/-! ### Reading a bundle -/

/-- A certificate of a bundle: as parsed, its bytes, and the envelope that it came in. -/
structure Body where
  certificate : DeviceCertificate
  body : Bytes
  envelope : CertificateEnvelope

abbrev Bodies := Map Body

def readCertificate (envelope : CertificateEnvelope) : Except Error Body := do
  let body ← decode envelope.certificate MAX_DEVICE_CERTIFICATE_BODY_LEN
  let certificate ← DeviceCertificate.parseBody body
  return ⟨certificate, body, envelope⟩

def nextRoot (C : Crypto) (root : Option Root) (envelope : CertificateEnvelope) :
    Except Error (Option Root) := do
  let b ← readCertificate envelope
  if b.certificate.isSelfSigned then
    reject root.isSome (.invalid "Identity bundle has more than one first device.")
    return some (rootOf C b.body)
  else return root

def IdentityBundle.envelopes (b : IdentityBundle) : List CertificateEnvelope :=
  b.devices ++ b.certificateChain

def IdentityBundle.root (C : Crypto) (b : IdentityBundle) : Except Error Root := do
  let root ← b.envelopes.foldlM (nextRoot C) none
  require (.invalid "Identity bundle has no first device.") root

/-- Five minutes from now, the most that a clock of another machine may be ahead. -/
def soon (nowMs : Nat) : Nat := min (nowMs + 5 * 60000) (2 ^ 64 - 1)

def readDevice (userId : String) (nowMs : Nat) (bodies : Bodies)
    (envelope : CertificateEnvelope) : Except Error Bodies := do
  let b ← readCertificate envelope
  reject (b.certificate.userId ≠ userId ∨ b.certificate.deviceId ∈ bodies)
    (.invalid "Identity bundle contains a foreign or duplicate device.")
  reject (soon nowMs < b.certificate.issuedAtMs ∨ ¬b.certificate.isValidAt nowMs)
    (.trust "A device certificate is expired or not yet valid.")
  return bodies.insert b.certificate.deviceId b

def readAncestor (userId : String) (bodies : Bodies)
    (envelope : CertificateEnvelope) : Except Error Bodies := do
  let b ← readCertificate envelope
  reject (b.certificate.userId ≠ userId ∨ b.certificate.deviceId ∈ bodies)
    (.invalid "Certificate ancestry contains a foreign or duplicate device.")
  return bodies.insert b.certificate.deviceId b

/-- The certificates of a pin, parsed. -/
def readPrior (prior : Map DeviceCertificate) (entry : String × CertificateEnvelope) :
    Except Error (Map DeviceCertificate) := do
  let b ← readCertificate entry.2
  return prior.insert entry.1 b.certificate

/-! ### Checking it against the pin -/

def Anchor.admits : Anchor → Pin → Bool
  | .pinned, _ => true
  | .root approved, pin => pin.root == approved

def checkAnchor (anchor : Anchor) (existing : Option Pin) (root : Root) : Except Error Unit :=
  match anchor with
  | .pinned => reject existing.isNone (.trust "You have not trusted this person yet.")
  | .root approved => reject (approved ≠ root)
      (.trust "This account's identity is not the identity that was approved.")

def identityChanged : Error :=
  .trust "This account's device identity changed. Approve the replacement before reconnecting."

/-- What a list must keep of the list that was pinned. -/
def checkPin (bundle : IdentityBundle) (list : SignedDeviceList) (root : Root)
    (pin : Pin) : Except Error Unit := do
  reject (pin.identityIncarnationId ≠ bundle.identityIncarnationId ∨ pin.root ≠ root ∨
    list.generation < pin.generation) identityChanged
  if pin.generation < list.generation then
    let body ← decode pin.listBody 527432
    let previous ← SignedDeviceList.parseBody body
    reject (list.issuedAtMs ≤ previous.issuedAtMs) (.trust "Device list issuance did not advance.")
  reject (list.generation = pin.generation ∧ (bundle.deviceList.body ≠ pin.listBody ∨
    bundle.deviceList.signature ≠ pin.listSignature))
    (.trust "A device list changed without a newer generation.")

/-- Walks from a device to its signer until one decides. The walk ends with the error when it comes to
    a device again, or to one that is barred. -/
def walk (bodies : Bodies) (barred : String → Bool) (stopped : Error)
    (visit : String → DeviceCertificate → Option (Except Error Unit)) (seen : List String)
    (current : String) : Except Error Unit :=
  if current ∈ seen ∨ barred current then .error stopped
  else match _h : bodies[current]? with
    | none => .error (.invalid "Device signer is absent.")
    | some b => match visit current b.certificate with
      | some result => result
      | none => walk bodies barred stopped visit (current :: seen) b.certificate.signerDeviceId
termination_by (bodies.keys.filter (· ∉ seen)).length
decreasing_by
  have hmem : current ∈ bodies.keys := by
    rw [Std.TreeMap.mem_keys, Std.TreeMap.mem_iff_isSome_getElem?, _h]
    rfl
  have hseen : current ∉ seen := by grind
  have : (bodies.keys.filter (· ∉ current :: seen)).length
      = ((bodies.keys.filter (· ∉ seen)).filter (· ≠ current)).length := by
    rw [List.filter_filter]
    congr 1
    refine List.filter_congr fun k _ => ?_
    simp
  rw [this]
  refine List.length_filter_lt_length_iff_exists.mpr ⟨current, ?_, by simp⟩
  simp [hmem, hseen]

/-- A list that is newer than the pin must come, signer by signer, from a device that was pinned. -/
def checkSigners (bodies : Bodies) (prior : Map DeviceCertificate) (pin : Pin) (signer : String) :
    Except Error Unit :=
  walk bodies (· ∈ pin.revoked) (.trust "Device update has no currently trusted signer.")
    (fun id candidate => match prior[id]? with
      | some trusted => some <| reject (trusted ≠ candidate)
          (.trust "A previously trusted signer changed its certificate.")
      | none =>
        if candidate.isSelfSigned then
          some (.error (.trust "Device update is not endorsed by an already trusted device."))
        else none)
    [] signer

def validateBootstrapChain (start : String) (bodies : Bodies) : Except Error Unit :=
  walk bodies (fun _ => false) (.invalid "Device certificate signing cycle.")
    (fun _ certificate => if certificate.isSelfSigned then some (.ok ()) else none) [] start

def checkDevices (devices bodies : Bodies) (prior : Map DeviceCertificate) (list : SignedDeviceList)
    (pin : Pin) : Except Error Unit := do
  reject (list.signerDeviceId ∈ pin.revoked ∨ ∃ id ∈ list.deviceIds, id ∈ pin.revoked)
    (.trust "A removed device cannot become trusted again.")
  if pin.generation < list.generation then checkSigners bodies prior pin list.signerDeviceId
  devices.toList.forM fun (id, b) =>
    reject (∃ e ∈ pin.certificates[id]?, e ≠ b.envelope)
      (.trust "An existing device changed its key material.")

/-! ### Signatures -/

def wrongLength (context : String) (length : Nat) : Error :=
  .invalid (s!"{context}: signature length {length} does not equal ML_DSA_65_SIGNATURE_LEN " ++
    s!"({ML_DSA_65_SIGNATURE_LEN})")

def verifySignedDeviceList (C : Crypto) (body signature key : Bytes) :
    Except Error SignedDeviceList := do
  reject (signature.length ≠ ML_DSA_65_SIGNATURE_LEN)
    (wrongLength DEVICE_LIST_CONTEXT signature.length)
  reject (¬C.verifySig key (DEVICE_LIST_V1 ++ body) signature)
    (.invalid "device list signature verification failed")
  SignedDeviceList.parseBody body

def verifyCertificate (C : Crypto) (body signature key : Bytes) :
    Except Error DeviceCertificate := do
  reject (signature.length ≠ ML_DSA_65_SIGNATURE_LEN)
    (wrongLength DEVICE_CERT_CONTEXT signature.length)
  reject (¬C.verifySig key (DEVICE_CERT_V3 ++ body) signature)
    (.invalid "device certificate signature verification failed")
  let certificate ← DeviceCertificate.parseBody body
  reject (certificate.isSelfSigned ∧ certificate.sigPublicKey ≠ key)
    (.invalid "self-signed cert pubkey must match signer pubkey")
  return certificate

/-- One certificate of the bundle: it agrees with the list, and its signer signed it in its time. -/
def checkBody (C : Crypto) (list : SignedDeviceList) (bodies : Bodies)
    (prior : Map DeviceCertificate) (entry : String × Body) : Except Error Unit := do
  let (id, b) := entry
  reject (id ∈ list.deviceIds ∧ ⟨id, b.certificate.signerDeviceId⟩ ∉ list.entries)
    (.invalid "Certificate signer and device list disagree.")
  let signer ← require (.trust "A device certificate has no verifiable signer.")
    ((bodies[b.certificate.signerDeviceId]?.map (·.certificate)).or
      prior[b.certificate.signerDeviceId]?)
  reject (b.certificate.issuedAtMs < signer.issuedAtMs ∨
    ¬signer.isValidAt b.certificate.issuedAtMs)
    (.trust "Certificate was issued outside its signer's validity.")
  let signature ← decode b.envelope.certificateSignature 3309
  let _ ← verifyCertificate C b.body signature signer.sigPublicKey
  validateBootstrapChain id bodies

/-! ### The whole check -/

def Pins.existing (pins : Map Pin) (userId : String) (anchor : Anchor) : Option Pin :=
  pins[userId]?.filter anchor.admits

def isCurrent (list : SignedDeviceList) (nowMs : Nat) (allowExpired : Bool) : Bool :=
  list.issuedAtMs ≤ soon nowMs && (allowExpired || !list.expiresAtMs.any (· ≤ nowMs))

/-- Every device that was one, and is none by the list. -/
def revokedBy (existing : Option Pin) (bodies : Bodies) (list : SignedDeviceList) : Finset String :=
  (existing.map (·.revoked)).getD ∅ ∪
    (bodies.keys.filter (· ∉ list.deviceIds)).toFinset ∪
    ((existing.map (·.certificates.keys)).getD [] |>.filter (· ∉ list.deviceIds)).toFinset

/-- What the check of a bundle computes on its way. -/
structure Parts where
  listBody : Bytes
  listSignature : Bytes
  list : SignedDeviceList
  root : Root
  devices : Bodies
  bodies : Bodies
  prior : Map DeviceCertificate

def Parts.pin (p : Parts) (bundle : IdentityBundle) (existing : Option Pin) : Pin where
  identityIncarnationId := bundle.identityIncarnationId
  generation := p.list.generation
  listBody := bundle.deviceList.body
  listSignature := bundle.deviceList.signature
  certificates := p.devices.map fun _ b => b.envelope
  revoked := revokedBy existing p.bodies p.list
  root := p.root

def Parts.identity (p : Parts) : VerifiedIdentity where
  generation := p.list.generation
  devices := p.bodies.filterMap fun id b =>
    if id ∈ p.list.deviceIds then some b.certificate else none
  list := p.list
  root := p.root

/-- Checks a bundle against the pin that the anchor admits; no pin changes here. -/
def check (C : Crypto) (bundle : IdentityBundle) (anchor : Anchor) (existing : Option Pin)
    (nowMs : Nat) (allowExpired : Bool) : Except Error Parts := do
  reject (bundle.identityIncarnationId = 0 ∨ bundle.devices = [] ∨ 256 < bundle.devices.length)
    (.invalid "Identity bundle is incomplete.")
  let listBody ← decode bundle.deviceList.body 527432
  let listSignature ← decode bundle.deviceList.signature 3309
  let list ← SignedDeviceList.parseBody listBody
  reject (list.userId ≠ bundle.userId) (.invalid "Device list belongs to another account.")
  let root ← bundle.root C
  checkAnchor anchor existing root
  existing.toList.forM (checkPin bundle list root)
  reject (¬isCurrent list nowMs allowExpired) (.trust "The signed device list is no longer current.")
  let devices ← bundle.devices.foldlM (readDevice bundle.userId nowMs) ∅
  reject (list.deviceIds.toFinset ≠ devices.keys.toFinset)
    (.invalid "Device list and certificates disagree.")
  reject (256 < bundle.certificateChain.length)
    (.invalid "Device certificate ancestry exceeds its bound.")
  let bodies ← bundle.certificateChain.foldlM (readAncestor bundle.userId) devices
  let prior ← ((existing.map (·.certificates.toList)).getD []).foldlM readPrior ∅
  let signer ← require (.invalid "The device-list signer is not active.")
    bodies[list.signerDeviceId]?
  existing.toList.forM (checkDevices devices bodies prior list)
  let _ ← verifySignedDeviceList C listBody listSignature signer.certificate.sigPublicKey
  bodies.toList.forM (checkBody C list bodies prior)
  return ⟨listBody, listSignature, list, root, devices, bodies, prior⟩

/-- How writing the file ends. A write that fails may have put the new file in place before. -/
inductive Save where
  | done
  | failed (renamed : Bool)

/-- Saves pins and takes them. -/
def Pins.store (p : Pins) (next : Map Pin) : Save → Except Error Unit × Pins
  | .done => (.ok (), ⟨some ⟨1, next⟩, next⟩)
  | .failed renamed => (.error .io, ⟨if renamed then some ⟨1, next⟩ else p.file, p.pins⟩)

def Pins.verifyCurrent (C : Crypto) (p : Pins) (bundle : IdentityBundle) (anchor : Anchor)
    (nowMs : Nat) (allowExpired : Bool) (persist : Option Save) :
    Except Error VerifiedIdentity × Pins :=
  let existing := existing p.pins bundle.userId anchor
  match check C bundle anchor existing nowMs allowExpired with
  | .error e => (.error e, p)
  | .ok parts =>
    let pin := parts.pin bundle existing
    if p.pins[bundle.userId]?.any (·.same pin) then (.ok parts.identity, p)
    else
      let next := p.pins.insert bundle.userId pin
      match persist with
      | none => (.ok parts.identity, { p with pins := next })
      | some save =>
        let (saved, p') := p.store next save
        (saved.map fun _ => parts.identity, p')

def Pins.verify (C : Crypto) (p : Pins) (bundle : IdentityBundle) (anchor : Anchor) (nowMs : Nat)
    (save : Save) : Except Error VerifiedIdentity × Pins :=
  p.verifyCurrent C bundle anchor nowMs false (some save)

def Pins.verifyForRenewal (C : Crypto) (p : Pins) (bundle : IdentityBundle) (nowMs : Nat)
    (save : Save) : Except Error VerifiedIdentity × Pins :=
  p.verifyCurrent C bundle .pinned nowMs true (some save)

def Pins.forget (p : Pins) (userId : String) (save : Save) : Except Error Unit × Pins :=
  if userId ∈ p.pins then p.store (p.pins.erase userId) save else (.ok (), p)

/-- Pins read from the file; `length` is how long its text is. -/
def Pins.load (length : StoredPins → Nat) (file : Option StoredPins) : Except Error Pins :=
  match file with
  | none => .ok ⟨none, ∅⟩
  | some stored => do
    reject (16 * 1024 * 1024 < length stored) (.invalid "Saved device trust exceeds its limit.")
    reject (stored.version ≠ 1) (.invalid "Saved device trust uses an unsupported format.")
    return ⟨some stored, stored.pins⟩

/-- What a bundle says of a person at a past time, after an older bundle if one is known. -/
def Pins.historical (C : Crypto) (bundle : IdentityBundle) (root : Root) (atMs : Nat)
    (previous : Option (IdentityBundle × Nat)) : Except Error VerifiedIdentity := do
  let history : Pins := ⟨none, ∅⟩
  let history ← match previous with
    | none => pure history
    | some (older, at') =>
      let (verified, history) := history.verifyCurrent C older (.root root) at' true none
      verified.map fun _ => history
  (history.verifyCurrent C bundle (.root root) atMs false none).1

/-- What a bundle says of a person, whenever its list expires. -/
def Pins.withoutTime (C : Crypto) (bundle : IdentityBundle) (root : Root) (nowMs : Nat) :
    Except Error VerifiedIdentity :=
  (Pins.verifyCurrent C ⟨none, ∅⟩ bundle (.root root) nowMs true none).1

end Kodosi.Identity
