import Kodosi.Identity.Forward

/-! The identity of a person with one device, as the device makes it: a certificate that it signs itself
    and a list of that one device. Whoever has its root approved accepts it. -/

namespace Kodosi.Identity
open Kodosi.Lib

/-- A signing key: its public half, and how it signs. -/
structure Keypair where
  publicKey : Bytes
  sign : Bytes → Bytes

/-- What a signature scheme promises of its own signatures. -/
structure Keypair.Works (C : Crypto) (k : Keypair) : Prop where
  length : ∀ payload, (k.sign payload).length = ML_DSA_65_SIGNATURE_LEN
  verifies : ∀ payload, C.verifySig k.publicKey payload (k.sign payload)

structure SignedBody where
  bodyBytes : Bytes
  signature : Bytes

def signCertificate (c : DeviceCertificate) (k : Keypair) : Except Error SignedBody := do
  let body ← c.serializeBody
  return ⟨body, k.sign (DEVICE_CERT_V3 ++ body)⟩

def signList (l : SignedDeviceList) (k : Keypair) : Except Error SignedBody := do
  let body ← l.serializeBody
  let _ ← SignedDeviceList.parseBody body
  return ⟨body, k.sign (DEVICE_LIST_V1 ++ body)⟩

def selfCert (userId deviceId label : String) (k : Keypair) (issuedAtMs : Nat)
    (expiresAtMs : Option Nat) : DeviceCertificate :=
  ⟨userId, deviceId, label, deviceId, k.publicKey, issuedAtMs, expiresAtMs⟩

def buildSelfCert (userId deviceId label : String) (k : Keypair) (issuedAtMs : Nat)
    (expiresAtMs : Option Nat) : Except Error SignedBody :=
  signCertificate (selfCert userId deviceId label k issuedAtMs expiresAtMs) k

/-- The list of one device; it is generation 1 at first, and a later one when the device renews it. -/
def ownList (userId deviceId : String) (generation issuedAtMs : Nat) (expiresAtMs : Option Nat) :
    SignedDeviceList :=
  ⟨userId, generation, [⟨deviceId, deviceId⟩], deviceId, issuedAtMs, expiresAtMs⟩

def SignedBody.certificate (s : SignedBody) : CertificateEnvelope :=
  ⟨Base64.encode s.bodyBytes, Base64.encode s.signature⟩

def SignedBody.list (s : SignedBody) : DeviceListEnvelope :=
  ⟨Base64.encode s.bodyBytes, Base64.encode s.signature⟩

theorem decode_encode {bytes : Bytes} {limit : Nat} (h : bytes.length ≤ limit) :
    decode (Base64.encode bytes) limit = .ok bytes := by
  rw [decode, Base64.utf8ByteSize_encode, ok_bind (reject_ok.mpr (by omega)),
    ok_bind (require_ok.mpr (Base64.decode_encode bytes)), ok_bind (reject_ok.mpr (by omega))]
  rfl

variable {c : DeviceCertificate}

theorem serializeBody_length {body : Bytes} (h : c.serializeBody = .ok body) :
    body.length ≤ MAX_DEVICE_CERTIFICATE_BODY_LEN := by
  obtain ⟨⟨⟩, -, h⟩ := bind_ok h
  obtain ⟨userId, -, h⟩ := bind_ok h
  obtain ⟨deviceId, -, h⟩ := bind_ok h
  obtain ⟨label, -, h⟩ := bind_ok h
  obtain ⟨signer, -, h⟩ := bind_ok h
  obtain ⟨key, -, h⟩ := bind_ok h
  dsimp only at h
  split at h
  · simp at h
  · obtain rfl := Except.ok.inj h
    omega

variable {l : SignedDeviceList}

theorem serializeList_length {body : Bytes} (h : l.serializeBody = .ok body) :
    body.length ≤ MAX_SIGNED_DEVICE_LIST_BODY_LEN := by
  obtain ⟨⟨⟩, -, h⟩ := bind_ok h
  split at h
  · simp at h
  obtain ⟨userId, -, h⟩ := bind_ok h
  obtain ⟨entries, -, h⟩ := bind_ok h
  obtain ⟨signer, -, h⟩ := bind_ok h
  dsimp only at h
  split at h
  · simp at h
  · obtain rfl := Except.ok.inj h
    omega

/-- A certificate that was signed and encoded reads back. -/
theorem readCertificate_sign {k : Keypair} {s : SignedBody} (h : signCertificate c k = .ok s) :
    readCertificate s.certificate = .ok ⟨c, s.bodyBytes, s.certificate⟩ ∧
      s.signature = k.sign (DEVICE_CERT_V3 ++ s.bodyBytes) := by
  obtain ⟨body, hbody, h⟩ := bind_ok h
  obtain rfl := Except.ok.inj h
  refine ⟨?_, rfl⟩
  rw [readCertificate, SignedBody.certificate, ok_bind (decode_encode (serializeBody_length hbody)),
    ok_bind (DeviceCertificate.parseBody_serializeBody hbody)]
  rfl

/-- A list that was signed and encoded reads back. -/
theorem readList_sign {k : Keypair} {s : SignedBody} (h : signList l k = .ok s)
    (hsigner : l.signerDeviceId ∈ l.deviceIds) :
    decode s.list.body 527432 = .ok s.bodyBytes ∧
      SignedDeviceList.parseBody s.bodyBytes = .ok l ∧
      s.signature = k.sign (DEVICE_LIST_V1 ++ s.bodyBytes) := by
  obtain ⟨body, hbody, h⟩ := bind_ok h
  obtain ⟨-, -, h⟩ := bind_ok h
  obtain rfl := Except.ok.inj h
  exact ⟨decode_encode (serializeList_length hbody),
    SignedDeviceList.parseBody_serializeBody hbody hsigner, rfl⟩

/-- A person with one device. -/
structure Alone where
  userId : String
  identityIncarnationId : Nat
  deviceId : String
  label : String
  key : Keypair
  issuedAtMs : Nat
  expiresAtMs : Option Nat
  certificate : SignedBody
  hcertificate : buildSelfCert userId deviceId label key issuedAtMs expiresAtMs = .ok certificate

namespace Alone

def cert (a : Alone) : DeviceCertificate :=
  selfCert a.userId a.deviceId a.label a.key a.issuedAtMs a.expiresAtMs

def body (a : Alone) : Body := ⟨a.cert, a.certificate.bodyBytes, a.certificate.certificate⟩

def root (C : Crypto) (a : Alone) : Root := rootOf C a.certificate.bodyBytes

/-- The bundle of the person under a list that the device signed. -/
def bundle (a : Alone) (list : SignedBody) : IdentityBundle :=
  ⟨a.userId, a.identityIncarnationId, list.list, [a.certificate.certificate], []⟩

/-- What the check computes from the bundle. -/
def parts (C : Crypto) (a : Alone) (l : SignedDeviceList) (list : SignedBody)
    (prior : Map DeviceCertificate) : Parts :=
  ⟨list.bodyBytes, list.signature, l, a.root C, (∅ : Bodies).insert a.deviceId a.body,
    (∅ : Bodies).insert a.deviceId a.body, prior⟩

/-- The pin of the person under such a list. -/
def pin (C : Crypto) (a : Alone) (l : SignedDeviceList) (list : SignedBody) : Pin :=
  ⟨a.identityIncarnationId, l.generation, list.list.body, list.list.signature,
    (∅ : Map CertificateEnvelope).insert a.deviceId a.certificate.certificate, ∅, a.root C⟩

theorem read (a : Alone) : readCertificate a.certificate.certificate = .ok a.body :=
  (readCertificate_sign a.hcertificate).1

theorem root_bundle (C : Crypto) (a : Alone) (list : SignedBody) : (a.bundle list).root C = .ok (a.root C) := by
  have hself : a.body.certificate.isSelfSigned = true := by
    simp [body, cert, selfCert, DeviceCertificate.isSelfSigned]
  have hnext : nextRoot C none a.certificate.certificate = .ok (some (a.root C)) := by
    rw [nextRoot, ok_bind a.read, if_pos hself, ok_bind (reject_ok.mpr (by simp))]
    rfl
  rw [IdentityBundle.root, IdentityBundle.envelopes, bundle, List.append_nil, List.foldlM_cons]
  simp only [List.foldlM_nil]
  rw [hnext]
  rfl

/-- The list of the device, signed by it. -/
structure Signed (a : Alone) (l : SignedDeviceList) (s : SignedBody) : Prop where
  list : signList l a.key = .ok s
  user : l.userId = a.userId
  entries : l.entries = [⟨a.deviceId, a.deviceId⟩]
  signer : l.signerDeviceId = a.deviceId

/-- When the check runs, the certificate and the list are in their time. -/
structure InTime (a : Alone) (l : SignedDeviceList) (nowMs : Nat) (allowExpired : Bool) : Prop where
  issued : a.issuedAtMs ≤ soon nowMs
  valid : a.cert.isValidAt nowMs
  current : isCurrent l nowMs allowExpired

/-- The pins under which the check runs: none, or the one of an older list of the device. -/
def Follows (C : Crypto) (a : Alone) (l : SignedDeviceList) (existing : Option Pin) : Prop :=
  ∀ pin ∈ existing, ∃ older s, a.Signed older s ∧ pin = a.pin C older s ∧
    older.generation < l.generation ∧ older.issuedAtMs < l.issuedAtMs

/-- The certificates of the pin that the check finds. -/
def prior (a : Alone) (existing : Option Pin) : Map DeviceCertificate :=
  if existing.isSome then (∅ : Map DeviceCertificate).insert a.deviceId a.cert else ∅

variable {C : Crypto} {a : Alone} {l : SignedDeviceList} {s : SignedBody} {nowMs : Nat}
  {allowExpired : Bool} {existing : Option Pin}

theorem selfSigned : a.cert.isSelfSigned := by simp [cert, selfCert, DeviceCertificate.isSelfSigned]

theorem Signed.deviceIds (h : a.Signed l s) : l.deviceIds = [a.deviceId] := by
  rw [SignedDeviceList.deviceIds, h.entries]
  rfl

theorem Signed.signer_mem (h : a.Signed l s) : l.signerDeviceId ∈ l.deviceIds := by
  rw [h.deviceIds, h.signer]
  exact List.mem_singleton_self _

theorem readDevices (htime : a.InTime l nowMs allowExpired) :
    [a.certificate.certificate].foldlM (readDevice a.userId nowMs) ∅ = .ok ((∅ : Bodies).insert a.deviceId a.body) := by
  have hread : readDevice a.userId nowMs ∅ a.certificate.certificate
      = .ok ((∅ : Bodies).insert a.deviceId a.body) := by
    rw [readDevice, ok_bind a.read, ok_bind (reject_ok.mpr ?_), ok_bind (reject_ok.mpr ?_)]
    · rfl
    · have hissued := htime.issued
      have hvalid := htime.valid
      rintro (h | h)
      · exact absurd h (Nat.not_lt.mpr hissued)
      · exact h hvalid
    · rintro (h | h)
      · exact h rfl
      · simp at h
  rw [List.foldlM_cons, hread]
  rfl

theorem readPriors (hfollows : a.Follows C l existing) :
    ((existing.map (·.certificates.toList)).getD []).foldlM readPrior ∅ = .ok (a.prior existing) := by
  cases existing with
  | none => rfl
  | some pin =>
    obtain ⟨older, s, -, rfl, -⟩ := hfollows pin rfl
    have hread : readPrior ∅ (a.deviceId, a.certificate.certificate)
        = .ok ((∅ : Map DeviceCertificate).insert a.deviceId a.cert) := by
      rw [readPrior, ok_bind a.read]
      rfl
    show [(a.deviceId, a.certificate.certificate)].foldlM readPrior ∅ = _
    rw [List.foldlM_cons, hread]
    rfl

theorem bootstraps (a : Alone) :
    validateBootstrapChain a.deviceId ((∅ : Bodies).insert a.deviceId a.body) = .ok () := by
  rw [validateBootstrapChain, walk, if_neg (by simp)]
  split
  · rename_i h
    simp at h
  · rename_i b h
    obtain rfl : a.body = b := by simpa using h
    have : a.body.certificate.isSelfSigned := selfSigned
    simp [this]

theorem checksBody (hk : a.key.Works C) (h : a.Signed l s) (prior : Map DeviceCertificate) :
    checkBody C l ((∅ : Bodies).insert a.deviceId a.body) prior (a.deviceId, a.body) = .ok () := by
  obtain ⟨body, hbody, -⟩ := bind_ok a.hcertificate
  obtain ⟨⟨⟩, hvalid, -⟩ := bind_ok hbody
  obtain ⟨⟨⟩, htimes, -⟩ := bind_ok hvalid
  have hparse : DeviceCertificate.parseBody a.body.body = .ok a.cert := (readCertificate_ok a.read).2.2
  have hsignature : a.certificate.signature = a.key.sign (DEVICE_CERT_V3 ++ a.body.body) :=
    (readCertificate_sign a.hcertificate).2
  have hlength : a.certificate.signature.length = ML_DSA_65_SIGNATURE_LEN := by
    rw [hsignature]
    exact hk.length _
  have hdecode : decode a.body.envelope.certificateSignature 3309 = .ok a.certificate.signature :=
    decode_encode (Nat.le_of_eq hlength)
  have hverify : verifyCertificate C a.body.body a.certificate.signature a.cert.sigPublicKey
      = .ok a.cert := by
    rw [verifyCertificate, ok_bind (reject_ok.mpr (not_not.mpr hlength)),
      ok_bind (reject_ok.mpr ?_), ok_bind hparse, ok_bind (reject_ok.mpr fun h => h.2 rfl)]
    · rfl
    · rw [hsignature]
      exact not_not.mpr (hk.verifies _)
  have hsigner : (((∅ : Bodies).insert a.deviceId a.body)[a.body.certificate.signerDeviceId]?.map
      (·.certificate)).or prior[a.body.certificate.signerDeviceId]? = some a.cert := by
    show (((∅ : Bodies).insert a.deviceId a.body)[a.deviceId]?.map (·.certificate)).or _ = _
    rw [Std.TreeMap.getElem?_insert_self]
    rfl
  have hentries : ⟨a.deviceId, a.body.certificate.signerDeviceId⟩ ∈ l.entries := by
    rw [h.entries]
    exact List.mem_singleton_self _
  have hissued : ¬(a.body.certificate.issuedAtMs < a.cert.issuedAtMs ∨
      ¬a.cert.isValidAt a.body.certificate.issuedAtMs) := by
    rintro (h | h)
    · exact Nat.lt_irrefl _ h
    · exact h (validateTimestamps_lt htimes)
  simp only [checkBody]
  rw [ok_bind (reject_ok.mpr fun h => h.2 hentries), ok_bind (require_ok.mpr hsigner),
    ok_bind (reject_ok.mpr hissued), ok_bind hdecode, ok_bind hverify]
  exact a.bootstraps

theorem signsList (hk : a.key.Works C) (h : a.Signed l s) :
    verifySignedDeviceList C s.bodyBytes s.signature a.cert.sigPublicKey = .ok l := by
  obtain ⟨-, hparse, hsignature⟩ := readList_sign h.list h.signer_mem
  rw [verifySignedDeviceList, ok_bind (reject_ok.mpr ?_), ok_bind (reject_ok.mpr ?_), hparse]
  · rw [hsignature]
    exact not_not.mpr (hk.verifies _)
  · rw [hsignature]
    exact not_not.mpr (hk.length _)

theorem checksPin (hfollows : a.Follows C l existing) {pin : Pin}
    (hpin : pin ∈ existing) : checkPin (a.bundle s) l (a.root C) pin = .ok () := by
  obtain ⟨older, s', hsigned, rfl, hgeneration, hissued⟩ := hfollows pin hpin
  obtain ⟨hdecode, hparse, -⟩ := readList_sign hsigned.list hsigned.signer_mem
  have hchanged : ¬((a.pin C older s').identityIncarnationId ≠ (a.bundle s).identityIncarnationId ∨
      (a.pin C older s').root ≠ a.root C ∨ l.generation < (a.pin C older s').generation) := by
    rintro (h | h | h)
    · exact h rfl
    · exact h rfl
    · exact absurd (show l.generation < older.generation from h) (by omega)
  rw [checkPin, ok_bind (reject_ok.mpr hchanged),
    if_pos (show (a.pin C older s').generation < l.generation from hgeneration)]
  have hdecode' : decode (a.pin C older s').listBody 527432 = .ok s'.bodyBytes := hdecode
  simp only [ok_bind hdecode', ok_bind hparse]
  rw [ok_bind (reject_ok.mpr (by omega))]
  exact reject_ok.mpr fun h => absurd (show l.generation = older.generation from h.1) (by omega)

theorem checksDevices (h : a.Signed l s) (hfollows : a.Follows C l existing) {pin : Pin}
    (hpin : pin ∈ existing) :
    checkDevices ((∅ : Bodies).insert a.deviceId a.body) ((∅ : Bodies).insert a.deviceId a.body)
      (a.prior existing) l pin = .ok () := by
  obtain ⟨older, s', -, rfl, hgeneration, -⟩ := hfollows pin hpin
  have hprior : (a.prior existing)[a.deviceId]? = some a.cert := by
    rw [prior, if_pos (Option.isSome_iff_exists.mpr ⟨_, hpin⟩), Std.TreeMap.getElem?_insert_self]
  have hsigners : checkSigners ((∅ : Bodies).insert a.deviceId a.body) (a.prior existing)
      (a.pin C older s') l.signerDeviceId = .ok () := by
    rw [h.signer, checkSigners, walk, if_neg (by simp [pin])]
    split
    · rename_i h
      simp at h
    · rename_i b h
      obtain rfl : a.body = b := by simpa using h
      rw [hprior]
      exact reject_ok.mpr fun h => h rfl
  rw [checkDevices, ok_bind (reject_ok.mpr (by simp [pin])),
    if_pos (show (a.pin C older s').generation < l.generation from hgeneration), ok_bind hsigners]
  refine forM_ok.mpr fun entry hentry => ?_
  obtain rfl : entry = (a.deviceId, a.body) := List.mem_singleton.mp hentry
  refine reject_ok.mpr ?_
  rintro ⟨e, he, hne⟩
  have : e = a.certificate.certificate := by
    simpa [pin, eq_comm] using he
  exact hne this

/-- A bundle that a person with one device made passes, alone or after an older one. -/
theorem checked (hk : a.key.Works C) (h : a.Signed l s) (hincarnation : a.identityIncarnationId ≠ 0)
    (htime : a.InTime l nowMs allowExpired) (hfollows : a.Follows C l existing) :
    (a.parts C l s (a.prior existing)).Checked C (a.bundle s) (.root (a.root C)) existing nowMs allowExpired := by
  obtain ⟨hdecode, hparse, hsignature⟩ := readList_sign h.list h.signer_mem
  have hlength : s.signature.length = ML_DSA_65_SIGNATURE_LEN := by
    rw [hsignature]
    exact hk.length _
  exact {
    complete := by simp [bundle, hincarnation]
    listBody := hdecode
    listSignature := decode_encode (Nat.le_of_eq hlength)
    list := hparse
    user := h.user
    root := a.root_bundle C s
    anchored := reject_ok.mpr fun h => h rfl
    pinned := fun pin hpin => checksPin hfollows hpin
    current := htime.current
    devices := readDevices htime
    entries := by
      show l.deviceIds.toFinset = [a.deviceId].toFinset
      rw [h.deviceIds]
    chain := by simp [bundle]
    bodies := rfl
    prior := readPriors hfollows
    kept := fun pin hpin => checksDevices h hfollows hpin
    signed := ⟨a.body, l, by
      show ((∅ : Bodies).insert a.deviceId a.body)[l.signerDeviceId]? = _
      rw [h.signer, Std.TreeMap.getElem?_insert_self], signsList hk h⟩
    checked := fun entry hentry => by
      obtain rfl : entry = (a.deviceId, a.body) := List.mem_singleton.mp hentry
      exact checksBody hk h _ }

/-- The pin that such a bundle makes. -/
theorem pin_parts (h : a.Signed l s) (hfollows : a.Follows C l existing) :
    (a.parts C l s (a.prior existing)).pin (a.bundle s) existing = a.pin C l s := by
  have hkeys : (((∅ : Bodies).insert a.deviceId a.body).keys.filter (· ∉ l.deviceIds)) = [] := by
    show [a.deviceId].filter (· ∉ l.deviceIds) = []
    simp [h.deviceIds]
  have hrevoked : revokedBy existing ((∅ : Bodies).insert a.deviceId a.body) l = ∅ := by
    cases existing with
    | none => simp [revokedBy, h.deviceIds]
    | some pin =>
      obtain ⟨older, s', -, rfl, -⟩ := hfollows pin rfl
      have hpinned : (a.pin C older s').certificates.keys.filter (· ∉ l.deviceIds) = [] := by
        show [a.deviceId].filter (· ∉ l.deviceIds) = []
        simp [h.deviceIds]
      simp only [revokedBy, hkeys, Option.map_some, Option.getD_some, hpinned]
      rfl
  rw [Parts.pin, pin]
  congr 1

end Alone

variable {C : Crypto}

theorem verify_alone {a : Alone} {b : SignedBody} {nowMs : Nat} {s : Pins} (hk : a.key.Works C) (h : a.Signed l b)
    (hincarnation : a.identityIncarnationId ≠ 0) (htime : a.InTime l nowMs false)
    (hfollows : a.Follows C l (Pins.existing s.pins a.userId (.root (a.root C)))) (save : Save) :
    (s.verify C (a.bundle b) (.root (a.root C)) nowMs save).2
        = (s.store (s.pins.insert a.userId (a.pin C l b)) save).2 ∧
      (s.verify C (a.bundle b) (.root (a.root C)) nowMs save).1
        = (s.store (s.pins.insert a.userId (a.pin C l b)) save).1.map fun _ =>
          (a.parts C l b (a.prior (Pins.existing s.pins a.userId (.root (a.root C))))).identity := by
  have hcheck := (a.checked hk h hincarnation htime hfollows).check_eq
  have hpin := a.pin_parts h hfollows
  have hnew : ¬s.pins[a.userId]?.any (·.same (a.pin C l b)) := by
    intro hany
    obtain ⟨old, hold, hsame⟩ := (Option.any_eq_true _ _).mp hany
    obtain ⟨-, hgeneration, -, -, -, hroot⟩ := Pin.same_iff hsame
    have hexisting : Pins.existing s.pins a.userId (.root (a.root C)) = some old := by
      rw [Pins.existing, hold]
      exact Option.filter_some_pos (beq_iff_eq.mpr hroot)
    obtain ⟨older, s', -, rfl, hlt, -⟩ := hfollows old hexisting
    exact absurd (show older.generation = l.generation from hgeneration) (by omega)
  rw [Pins.verify, Pins.verifyCurrent]
  simp only [show (a.bundle b).userId = a.userId from rfl, hcheck, hpin]
  rw [if_neg hnew]
  exact ⟨rfl, rfl⟩

/-! ### Two devices -/

namespace Plain

def stamp (key payload : Bytes) : Bytes := ((key.take 1 ++ payload).rightpad 3309 0).take 3309

/-- A stand-in for the cryptography: a hash that loses nothing, and signatures that are the payload
    under the first byte of the key. -/
def crypto : Crypto where
  sha256 := id
  verifySig key payload signature := signature == stamp key payload

def key (n : UInt8) : Keypair where
  publicKey := n :: List.replicate 1951 n
  sign := stamp [n]

theorem key_works (n : UInt8) : (key n).Works crypto where
  length payload := by
    simp only [key, stamp, List.length_take, List.rightpad, List.length_append,
      List.length_replicate, ML_DSA_65_SIGNATURE_LEN]
    omega
  verifies payload := beq_iff_eq.mpr rfl

def userId : String := "00000000-0000-4000-8000-000000000001"

/-- What was signed, when it was. -/
def made (r : Except Error SignedBody) : SignedBody := r.toOption.getD ⟨[], []⟩

theorem made_eq {r : Except Error SignedBody} (h : r.toOption.isSome) : r = .ok (made r) := by
  cases r with
  | error e => simp [Except.toOption] at h
  | ok s => rfl

/-- The person's first device. -/
def first : Alone where
  userId := userId
  identityIncarnationId := 1
  deviceId := "first"
  label := "Laptop"
  key := key 1
  issuedAtMs := 1000
  expiresAtMs := none
  certificate := made (buildSelfCert userId "first" "Laptop" (key 1) 1000 none)
  hcertificate := made_eq (by decide +kernel)

/-- The device of the identity that replaced it. -/
def second : Alone where
  userId := userId
  identityIncarnationId := 2
  deviceId := "second"
  label := "Desktop"
  key := key 2
  issuedAtMs := 1000
  expiresAtMs := none
  certificate := made (buildSelfCert userId "second" "Desktop" (key 2) 1000 none)
  hcertificate := made_eq (by decide +kernel)

def listOf (a : Alone) (generation issuedAtMs : Nat) : SignedBody :=
  made (signList (ownList a.userId a.deviceId generation issuedAtMs none) a.key)

theorem signed_of {a : Alone} {generation issuedAtMs : Nat} (h : (signList (ownList a.userId a.deviceId
    generation issuedAtMs none) a.key).toOption.isSome) :
    a.Signed (ownList a.userId a.deviceId generation issuedAtMs none) (listOf a generation issuedAtMs) :=
  ⟨made_eq h, rfl, rfl, rfl⟩

end Plain

end Kodosi.Identity
