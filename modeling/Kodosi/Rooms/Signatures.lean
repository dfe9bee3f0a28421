import Kodosi.Identity.Friends
import Kodosi.Identity.Layout
import Kodosi.Rooms.Keys
import Kodosi.Wire.Stream

/-! Every kind of thing that the program signs, and the bytes that are signed for it: the domain of the kind,
    and then fields with their lengths, or JSON, or the body of an identity. -/

namespace Kodosi.Rooms
open Kodosi.Lib Kodosi.Identity Kodosi.Derive

/-! ### JSON bodies -/

def CONTENT_DOMAIN : Bytes := utf8 "kodosi-room-content-v1"
def RECIPIENT_DOMAIN : Bytes := utf8 "kodosi-room-recipient-v1"
def DEVICE_POP_V1 : Bytes := utf8 "kodosi-device-pop-v1"
def DEVICE_SESSION_V1 : Bytes := utf8 "kodosi-device-session-v1"
def TERMINAL_ROOM_V1 : Bytes := utf8 "kodosi-terminal-room-v1"
def TERMINAL_CLOSE_V1 : Bytes := utf8 "kodosi-terminal-close-v1"

structure Content where
  roomId : Nat
  id : Nat
  kind : String
  version : Nat
  keyVersion : Nat
  epoch : Nat
  authorId : String
  deviceId : String
  nonce : String
  ciphertext : String
  deriving DecidableEq

def uuidJson (id : Nat) : Json := .string (uuidText id)

def Content.toJson (c : Content) : Json :=
  .object [("roomId", uuidJson c.roomId), ("id", uuidJson c.id), ("kind", .string c.kind),
    ("version", writeNat c.version), ("keyVersion", writeNat c.keyVersion), ("epoch", writeNat c.epoch),
    ("authorId", .string c.authorId), ("deviceId", .string c.deviceId), ("nonce", .string c.nonce),
    ("ciphertext", .string c.ciphertext)]

def certificateJson (e : CertificateEnvelope) : Json :=
  .object [("certificate", .string e.certificate), ("certificateSignature", .string e.certificateSignature)]

def bundleJson (b : IdentityBundle) : Json :=
  .object [("userId", .string b.userId), ("identityIncarnationId", uuidJson b.identityIncarnationId),
    ("deviceList", .object [("body", .string b.deviceList.body), ("signature", .string b.deviceList.signature)]),
    ("devices", writeArray certificateJson b.devices),
    ("certificateChain", writeArray certificateJson b.certificateChain)]

def Sealed.toJson (s : Sealed) : Json :=
  .object [("nonce", .string s.nonce), ("ciphertext", .string s.ciphertext)]

def Recipient.toJson (r : Recipient) : Json :=
  .object [("userId", .string r.userId), ("deviceId", .string r.deviceId),
    ("kemCiphertext", .string r.kemCiphertext), ("sealed", r.sealed.toJson)]

def State.toJson (s : State) : Json :=
  .object [("roomId", uuidJson s.roomId), ("ownerUserId", .string s.ownerUserId),
    ("authorId", .string s.authorId), ("deviceId", .string s.deviceId), ("version", writeNat s.version),
    ("epoch", writeNat s.epoch), ("createdAtMs", writeNat s.createdAtMs),
    ("previousHash", .string s.previousHash),
    ("members", .object (s.members.toList.map fun entry => (entry.1, bundleJson entry.2))),
    ("recipients", writeArray Recipient.toJson s.recipients),
    ("previousKey", writeOption Sealed.toJson s.previousKey)]

/-! ### Proofs of a device and choices of a terminal -/

/-- What a device signs to prove that it holds its key. -/
def popChallenge (challenge : Bytes) : Except Error Bytes := do
  reject (challenge.length ≠ 32) (.invalid "Device challenge must be 32 bytes.")
  return DEVICE_POP_V1 ++ challenge

def deviceSessionProofPreimage (userId deviceId : String) (challengeId : Nat) (challenge : Bytes) :
    Except Error Bytes := do
  reject (userId = "" ∨ deviceId = "" ∨ challengeId = 0 ∨ challenge.length ≠ 32)
    (.invalid "Device session proof is incomplete.")
  let bytes ← signedFields DEVICE_SESSION_V1 [utf8 userId, utf8 deviceId, utf8 (uuidText challengeId)]
  return bytes ++ challenge

def terminalRoomPreimage (ownerId : String) (terminal incarnation : Nat) (room : Option Nat) (sequence : Nat)
    (deviceId : String) : Except Error Bytes :=
  let room := (room.map uuidText).getD ""
  signedFields TERMINAL_ROOM_V1 [utf8 ownerId, utf8 (uuidText terminal), utf8 (uuidText incarnation), utf8 room,
    toBe 8 sequence, utf8 deviceId]

def terminalClosePreimage (ownerId : String) (terminal incarnation : Nat) (userId deviceId : String) :
    Except Error Bytes :=
  signedFields TERMINAL_CLOSE_V1 [utf8 ownerId, utf8 (uuidText terminal), utf8 (uuidText incarnation), utf8 userId,
    utf8 deviceId]

def roomKeyProof (user device : String) (publicKey : Bytes) : Except Error Bytes :=
  signedFields RECIPIENT_DOMAIN [utf8 user, utf8 device, publicKey]

/-! ### All of them -/

/-- A value that is signed. -/
inductive Signed where
  | deviceList (list : SignedDeviceList)
  | deviceCertificate (certificate : DeviceCertificate)
  | friendList (list : FriendList)
  | roomState (state : State)
  | roomContent (content : Content)
  | deviceProof (challenge : Bytes)
  | deviceSession (userId deviceId : String) (challengeId : Nat) (challenge : Bytes)
  | terminalRoom (ownerId : String) (terminal incarnation : Nat) (room : Option Nat) (sequence : Nat)
      (deviceId : String)
  | terminalClose (ownerId : String) (terminal incarnation : Nat) (userId deviceId : String)
  | roomRecipient (user device : String) (publicKey : Bytes)

inductive Kind where
  | deviceList | deviceCertificate | friendList | roomState | roomContent | deviceProof | deviceSession
  | terminalRoom | terminalClose | roomRecipient
  deriving DecidableEq

def Kind.domain : Kind → Bytes
  | .deviceList => DEVICE_LIST_V1
  | .deviceCertificate => DEVICE_CERT_V3
  | .friendList => FRIEND_LIST_V1
  | .roomState => STATE_DOMAIN
  | .roomContent => CONTENT_DOMAIN
  | .deviceProof => DEVICE_POP_V1
  | .deviceSession => DEVICE_SESSION_V1
  | .terminalRoom => TERMINAL_ROOM_V1
  | .terminalClose => TERMINAL_CLOSE_V1
  | .roomRecipient => RECIPIENT_DOMAIN

def kinds : List Kind :=
  [.deviceList, .deviceCertificate, .friendList, .roomState, .roomContent, .deviceProof, .deviceSession,
    .terminalRoom, .terminalClose, .roomRecipient]

theorem Kind.mem_kinds (k : Kind) : k ∈ kinds := by cases k <;> decide

namespace Signed

def kind : Signed → Kind
  | .deviceList _ => .deviceList
  | .deviceCertificate _ => .deviceCertificate
  | .friendList _ => .friendList
  | .roomState _ => .roomState
  | .roomContent _ => .roomContent
  | .deviceProof _ => .deviceProof
  | .deviceSession .. => .deviceSession
  | .terminalRoom .. => .terminalRoom
  | .terminalClose .. => .terminalClose
  | .roomRecipient .. => .roomRecipient

/-- The bytes that are signed for a value, as the code that signs it builds them. -/
def payload (J : JsonText) : Signed → Except Error Bytes
  | .deviceList list => do
    let body ← list.serializeBody
    let _ ← SignedDeviceList.parseBody body
    return DEVICE_LIST_V1 ++ body
  | .deviceCertificate certificate => do return DEVICE_CERT_V3 ++ (← certificate.serializeBody)
  | .friendList list => do return signedFriends (← list.body J)
  | .roomState state => .ok (STATE_DOMAIN ++ J.toVec state.toJson)
  | .roomContent content => .ok (CONTENT_DOMAIN ++ J.toVec content.toJson)
  | .deviceProof challenge => popChallenge challenge
  | .deviceSession userId deviceId challengeId challenge =>
    deviceSessionProofPreimage userId deviceId challengeId challenge
  | .terminalRoom ownerId terminal incarnation room sequence deviceId =>
    terminalRoomPreimage ownerId terminal incarnation room sequence deviceId
  | .terminalClose ownerId terminal incarnation userId deviceId =>
    terminalClosePreimage ownerId terminal incarnation userId deviceId
  | .roomRecipient user device publicKey => roomKeyProof user device publicKey

end Signed

/-! ### What the values hold

    Numbers of a fixed width are numbers here, so their widths are said apart. -/

def Uuid (id : Nat) : Prop := id < 2 ^ 128

def IdentityBundle.Typed (b : IdentityBundle) : Prop := Uuid b.identityIncarnationId

namespace Signed

/-- The ids and the numbers written as bytes have their widths. -/
def Typed : Signed → Prop
  | .roomState state => Uuid state.roomId ∧ ∀ entry ∈ state.members.toList, IdentityBundle.Typed entry.2
  | .roomContent content => Uuid content.roomId ∧ Uuid content.id
  | .deviceSession _ _ challengeId _ => Uuid challengeId
  | .terminalRoom _ terminal incarnation room sequence _ =>
    Uuid terminal ∧ Uuid incarnation ∧ (∀ id ∈ room, Uuid id) ∧ sequence < 2 ^ 64
  | .terminalClose _ terminal incarnation _ _ => Uuid terminal ∧ Uuid incarnation
  | _ => True

end Signed

/-- Two states with equal fields, their members one by one. -/
structure State.Same (s t : State) : Prop where
  roomId : s.roomId = t.roomId
  ownerUserId : s.ownerUserId = t.ownerUserId
  authorId : s.authorId = t.authorId
  deviceId : s.deviceId = t.deviceId
  version : s.version = t.version
  epoch : s.epoch = t.epoch
  createdAtMs : s.createdAtMs = t.createdAtMs
  previousHash : s.previousHash = t.previousHash
  members : s.members.toList = t.members.toList
  recipients : s.recipients = t.recipients
  previousKey : s.previousKey = t.previousKey

/-- Two values of one kind with equal fields. -/
inductive Signed.Same : Signed → Signed → Prop where
  | refl (v : Signed) : Same v v
  | roomState {s t : State} : s.Same t → Same (.roomState s) (.roomState t)

/-! ### Ids and fields can be told apart -/

theorem hex_ne_hyphen (b : UInt8) : ∀ c ∈ hex b, c ≠ '-' := by
  have hdigit : ∀ n < 16, hexDigit n ≠ '-' := by decide
  have hlt := b.toNat_lt
  intro c hc
  simp only [hex, List.mem_cons, List.not_mem_nil, or_false] at hc
  rcases hc with rfl | rfl
  · exact hdigit _ (by omega)
  · exact hdigit _ (by omega)

theorem length_digits (bytes : Bytes) : (bytes.flatMap hex).length = 2 * bytes.length := by
  induction bytes with
  | nil => rfl
  | cons b bytes ih =>
    rw [List.flatMap_cons, List.length_append, ih, List.length_cons]
    simp [hex]
    omega

/-- The text of an id without its hyphens. -/
theorem uuidText_digits (id : Nat) : (uuidText id).toList.filter (· ≠ '-') = (toBe 16 id).flatMap hex := by
  generalize hdigits : (toBe 16 id).flatMap hex = digits
  have hlength : digits.length = 32 := by rw [← hdigits, length_digits, length_toBe]
  have hplain : ∀ c ∈ digits, c ≠ '-' := by
    intro c hc
    rw [← hdigits] at hc
    obtain ⟨b, -, hb⟩ := List.mem_flatMap.mp hc
    exact hex_ne_hyphen b c hb
  have hpart : ∀ start length, ((digits.drop start).take length).filter (· ≠ '-') =
      (digits.drop start).take length := by
    intro start length
    rw [List.filter_eq_self]
    intro c hc
    simpa using hplain c (List.mem_of_mem_drop (List.mem_of_mem_take hc))
  have hhyphen : ("-".toList).filter (· ≠ '-') = [] := by decide
  have hjoin : ∀ start length stop, stop = start + length →
      (digits.drop start).take length ++ digits.drop stop = digits.drop start := by
    rintro start length stop rfl
    rw [← List.drop_drop, List.take_append_drop]
  have hlast : (digits.drop 20).take 12 = digits.drop 20 := List.take_of_length_le (by simp [hlength])
  unfold uuidText
  rw [hdigits]
  simp only [String.intercalate_cons_cons, String.intercalate_singleton, String.toList_append,
    String.toList_ofList, List.filter_append, hpart, hhyphen, List.nil_append, List.append_assoc]
  rw [hlast, hjoin 16 4 20 rfl, hjoin 12 4 16 rfl, hjoin 8 4 12 rfl, hjoin 0 8 8 rfl, List.drop_zero]

theorem uuidText_inj {m n : Nat} (hm : Uuid m) (hn : Uuid n) (h : uuidText m = uuidText n) : m = n := by
  have hdigits : (toBe 16 m).flatMap hex = (toBe 16 n).flatMap hex := by
    rw [← uuidText_digits, ← uuidText_digits, h]
  exact toBe_inj (Nat.lt_of_lt_of_le hm (by decide)) (Nat.lt_of_lt_of_le hn (by decide)) (flatMap_hex_inj hdigits)

theorem uuidText_ne_empty (id : Nat) : uuidText id ≠ "" := by
  intro h
  have hdigits := uuidText_digits id
  rw [h] at hdigits
  have hlength := congrArg List.length hdigits
  rw [length_digits, length_toBe] at hlength
  simp at hlength

theorem field_inj {a b r s : Bytes} (ha : FitsField a) (hb : FitsField b) (h : field a ++ r = field b ++ s) :
    a = b ∧ r = s := by
  have hmax : MAX_FIELD_LEN < 256 ^ 4 := by decide
  unfold field at h
  rw [List.append_assoc, List.append_assoc] at h
  obtain ⟨hlength, hrest⟩ := List.append_inj h (by simp)
  have hlength' := toBe_inj (Nat.lt_of_le_of_lt ha hmax) (Nat.lt_of_le_of_lt hb hmax) hlength
  exact List.append_inj hrest hlength'

/-- What `signedFields` writes. -/
theorem signedFields_iff {domain out : Bytes} : ∀ {fields : List Bytes},
    signedFields domain fields = .ok out ↔ (∀ f ∈ fields, FitsField f) ∧ out = domain ++ fields.flatMap field := by
  have hall : ∀ {fields : List Bytes} {written : List Bytes}, fields.mapM (writeLpBytes "signed field") = .ok written ↔
      (∀ f ∈ fields, FitsField f) ∧ written = fields.map field := by
    intro fields
    induction fields with
    | nil =>
      intro written
      simp [pure, Except.pure, eq_comm]
    | cons f fields ih =>
      intro written
      rw [List.mapM_cons]
      constructor
      · intro h
        obtain ⟨g, hg, h1⟩ := bind_ok h
        obtain ⟨gs, hgs, h2⟩ := bind_ok h1
        obtain rfl := Except.ok.inj h2
        obtain ⟨hf, rfl⟩ := writeLpBytes_iff.mp hg
        obtain ⟨hfs, rfl⟩ := ih.mp hgs
        exact ⟨List.forall_mem_cons.mpr ⟨hf, hfs⟩, rfl⟩
      · rintro ⟨hfits, rfl⟩
        obtain ⟨hf, hfs⟩ := List.forall_mem_cons.mp hfits
        rw [ok_bind (writeLpBytes_iff.mpr ⟨hf, rfl⟩), ok_bind (ih.mpr ⟨hfs, rfl⟩)]
        rfl
  intro fields
  unfold signedFields
  constructor
  · intro h
    obtain ⟨written, hwritten, h1⟩ := bind_ok h
    obtain rfl := Except.ok.inj h1
    obtain ⟨hfits, rfl⟩ := hall.mp hwritten
    exact ⟨hfits, by rw [List.flatMap_def]⟩
  · rintro ⟨hfits, rfl⟩
    rw [ok_bind (hall.mpr ⟨hfits, rfl⟩), List.flatMap_def]
    rfl

/-- Fields of one number can be told apart in front of anything. -/
theorem fields_inj : ∀ {as bs : List Bytes} {r s : Bytes}, as.length = bs.length → (∀ f ∈ as, FitsField f) →
    (∀ f ∈ bs, FitsField f) → as.flatMap field ++ r = bs.flatMap field ++ s → as = bs ∧ r = s
  | [], [], r, s, _, _, _, h => ⟨rfl, h⟩
  | a :: as, b :: bs, r, s, hlength, has, hbs, h => by
    obtain ⟨ha, has'⟩ := List.forall_mem_cons.mp has
    obtain ⟨hb, hbs'⟩ := List.forall_mem_cons.mp hbs
    rw [List.flatMap_cons, List.flatMap_cons, List.append_assoc, List.append_assoc] at h
    obtain ⟨rfl, hrest⟩ := field_inj ha hb h
    obtain ⟨rfl, rfl⟩ := fields_inj (Nat.succ.inj hlength) has' hbs' hrest
    exact ⟨rfl, rfl⟩

theorem signedFields_inj {domain out : Bytes} {as bs : List Bytes} (hlength : as.length = bs.length)
    (ha : signedFields domain as = .ok out) (hb : signedFields domain bs = .ok out) : as = bs := by
  obtain ⟨has, hout⟩ := signedFields_iff.mp ha
  obtain ⟨hbs, rfl⟩ := signedFields_iff.mp hb
  have hfields := List.append_cancel_left hout
  refine (fields_inj (r := []) (s := []) hlength.symm hbs has ?_).1.symm
  rw [List.append_nil, List.append_nil, hfields]

/-! ### Different JSON bodies -/

theorem uuidJson_inj {m n : Nat} (hm : Uuid m) (hn : Uuid n) (h : uuidJson m = uuidJson n) : m = n :=
  uuidText_inj hm hn (Documents.Value.string.inj h)

theorem certificateJson_inj {e f : CertificateEnvelope} (h : certificateJson e = certificateJson f) : e = f := by
  obtain ⟨certificate, signature⟩ := e
  obtain ⟨certificate', signature'⟩ := f
  simpa [certificateJson] using h

theorem writeArray_inj {α : Type} {write : α → Json} (hinj : ∀ {a b}, write a = write b → a = b) {as bs : List α}
    (h : writeArray write as = writeArray write bs) : as = bs :=
  List.map_injective_iff.mpr (fun _ _ => hinj) (Documents.Value.array.inj h)

theorem bundleJson_inj {b c : IdentityBundle} (hb : IdentityBundle.Typed b) (hc : IdentityBundle.Typed c)
    (h : bundleJson b = bundleJson c) : b = c := by
  obtain ⟨userId, incarnation, ⟨body, signature⟩, devices, chain⟩ := b
  obtain ⟨userId', incarnation', ⟨body', signature'⟩, devices', chain'⟩ := c
  simp only [bundleJson, Documents.Value.object.injEq, List.cons.injEq, Prod.mk.injEq, true_and, and_true,
    Documents.Value.string.injEq] at h
  obtain ⟨rfl, hincarnation, ⟨rfl, rfl⟩, hdevices, hchain⟩ := h
  obtain rfl := uuidJson_inj hb hc hincarnation
  obtain rfl := writeArray_inj certificateJson_inj hdevices
  obtain rfl := writeArray_inj certificateJson_inj hchain
  rfl

theorem Sealed.toJson_inj {s t : Sealed} (h : s.toJson = t.toJson) : s = t := by
  obtain ⟨nonce, ciphertext⟩ := s
  obtain ⟨nonce', ciphertext'⟩ := t
  simpa [Sealed.toJson] using h

theorem Recipient.toJson_inj {r s : Recipient} (h : r.toJson = s.toJson) : r = s := by
  obtain ⟨userId, deviceId, kem, sealed⟩ := r
  obtain ⟨userId', deviceId', kem', sealed'⟩ := s
  simp only [Recipient.toJson, Documents.Value.object.injEq, List.cons.injEq, Prod.mk.injEq, true_and, and_true,
    Documents.Value.string.injEq] at h
  obtain ⟨rfl, rfl, rfl, hsealed⟩ := h
  rw [Sealed.toJson_inj hsealed]

theorem previousKey_inj {s t : Option Sealed} (h : writeOption Sealed.toJson s = writeOption Sealed.toJson t) :
    s = t := by
  cases s with
  | none =>
    cases t with
    | none => rfl
    | some t => cases h
  | some s =>
    cases t with
    | none => cases h
    | some t => exact congrArg some (Sealed.toJson_inj h)

theorem State.same_of_toJson {s t : State} (hs : (Signed.roomState s).Typed) (ht : (Signed.roomState t).Typed)
    (h : s.toJson = t.toJson) : s.Same t := by
  simp only [State.toJson, Documents.Value.object.injEq, List.cons.injEq, Prod.mk.injEq, true_and, and_true,
    Documents.Value.string.injEq] at h
  obtain ⟨hroom, howner, hauthor, hdevice, hversion, hepoch, hcreated, hprevious, hmembers, hrecipients, hkey⟩ := h
  exact ⟨uuidJson_inj hs.1 ht.1 hroom, howner, hauthor, hdevice, writeNat_inj hversion, writeNat_inj hepoch,
    writeNat_inj hcreated, hprevious, entries_inj bundleJson_inj hs.2 ht.2 hmembers,
    writeArray_inj Recipient.toJson_inj hrecipients, previousKey_inj hkey⟩

theorem Content.toJson_inj {c d : Content} (hc : (Signed.roomContent c).Typed) (hd : (Signed.roomContent d).Typed)
    (h : c.toJson = d.toJson) : c = d := by
  obtain ⟨room, id, kind, version, keyVersion, epoch, author, device, nonce, ciphertext⟩ := c
  obtain ⟨room', id', kind', version', keyVersion', epoch', author', device', nonce', ciphertext'⟩ := d
  simp only [Content.toJson, Documents.Value.object.injEq, List.cons.injEq, Prod.mk.injEq, true_and, and_true,
    Documents.Value.string.injEq] at h
  obtain ⟨hroom, hid, rfl, hversion, hkeyVersion, hepoch, rfl, rfl, rfl, rfl⟩ := h
  obtain rfl := uuidJson_inj hc.1 hd.1 hroom
  obtain rfl := uuidJson_inj hc.2 hd.2 hid
  obtain rfl := writeNat_inj hversion
  obtain rfl := writeNat_inj hkeyVersion
  obtain rfl := writeNat_inj hepoch
  rfl

/-! ### One meaning -/

/-- No domain begins with another one. -/
theorem kind_of_domain (k l : Kind) (h : k.domain <+: l.domain) : k = l := by
  have hall : ∀ k ∈ kinds, ∀ l ∈ kinds, k.domain <+: l.domain → k = l := by decide
  exact hall k k.mem_kinds l l.mem_kinds h

namespace Signed

/-- The signed bytes begin with the domain of their kind. -/
theorem payload_domain {J : JsonText} {v : Signed} {out : Bytes} (h : v.payload J = .ok out) :
    v.kind.domain <+: out := by
  cases v with
  | deviceList list =>
    obtain ⟨body, -, h1⟩ := bind_ok h
    obtain ⟨-, -, h2⟩ := bind_ok h1
    obtain rfl := Except.ok.inj h2
    exact List.prefix_append _ _
  | deviceCertificate certificate =>
    obtain ⟨body, -, h1⟩ := bind_ok h
    obtain rfl := Except.ok.inj h1
    exact List.prefix_append _ _
  | friendList list =>
    obtain ⟨body, -, h1⟩ := bind_ok h
    obtain rfl := Except.ok.inj h1
    exact List.prefix_append _ _
  | roomState state =>
    obtain rfl := Except.ok.inj h
    exact List.prefix_append _ _
  | roomContent content =>
    obtain rfl := Except.ok.inj h
    exact List.prefix_append _ _
  | deviceProof challenge =>
    obtain ⟨-, -, h1⟩ := bind_ok h
    obtain rfl := Except.ok.inj h1
    exact List.prefix_append _ _
  | deviceSession userId deviceId challengeId challenge =>
    obtain ⟨-, -, h1⟩ := bind_ok h
    obtain ⟨bytes, hbytes, h2⟩ := bind_ok h1
    obtain rfl := Except.ok.inj h2
    obtain ⟨-, rfl⟩ := signedFields_iff.mp hbytes
    rw [List.append_assoc]
    exact List.prefix_append _ _
  | terminalRoom =>
    obtain ⟨-, rfl⟩ := signedFields_iff.mp h
    exact List.prefix_append _ _
  | terminalClose =>
    obtain ⟨-, rfl⟩ := signedFields_iff.mp h
    exact List.prefix_append _ _
  | roomRecipient =>
    obtain ⟨-, rfl⟩ := signedFields_iff.mp h
    exact List.prefix_append _ _

/-- Bytes that are signed for two values are signed for values of one kind. -/
theorem kind_eq {J : JsonText} {v w : Signed} {out : Bytes} (hv : v.payload J = .ok out)
    (hw : w.payload J = .ok out) : v.kind = w.kind := by
  rcases List.prefix_or_prefix_of_prefix (payload_domain hv) (payload_domain hw) with h | h
  · exact kind_of_domain _ _ h
  · exact (kind_of_domain _ _ h).symm

section

variable {J : JsonText} {out : Bytes}

theorem deviceList_inj {l m : SignedDeviceList} (hl : (deviceList l).payload J = .ok out)
    (hm : (deviceList m).payload J = .ok out) : l = m := by
  obtain ⟨body, hbody, hl1⟩ := bind_ok hl
  obtain ⟨-, -, hl2⟩ := bind_ok hl1
  obtain ⟨body', hbody', hm1⟩ := bind_ok hm
  obtain ⟨-, -, hm2⟩ := bind_ok hm1
  obtain rfl := List.append_cancel_left ((Except.ok.inj hl2).trans (Except.ok.inj hm2).symm)
  exact SignedDeviceList.serializeBody_inj hbody hbody'

theorem deviceCertificate_inj {c d : DeviceCertificate} (hc : (deviceCertificate c).payload J = .ok out)
    (hd : (deviceCertificate d).payload J = .ok out) : c = d := by
  obtain ⟨body, hbody, hc1⟩ := bind_ok hc
  obtain ⟨body', hbody', hd1⟩ := bind_ok hd
  obtain rfl := List.append_cancel_left ((Except.ok.inj hc1).trans (Except.ok.inj hd1).symm)
  have hparse := DeviceCertificate.parseBody_serializeBody hbody
  rw [DeviceCertificate.parseBody_serializeBody hbody'] at hparse
  exact (Except.ok.inj hparse).symm

theorem friendList_inj {l m : FriendList} (hl : (friendList l).payload J = .ok out)
    (hm : (friendList m).payload J = .ok out) : l = m := by
  obtain ⟨body, hbody, hl1⟩ := bind_ok hl
  obtain ⟨body', hbody', hm1⟩ := bind_ok hm
  obtain rfl := List.append_cancel_left ((Except.ok.inj hl1).trans (Except.ok.inj hm1).symm)
  exact FriendList.body_inj hbody hbody'

theorem deviceProof_inj {c d : Bytes} (hc : (deviceProof c).payload J = .ok out)
    (hd : (deviceProof d).payload J = .ok out) : c = d := by
  obtain ⟨-, -, hc1⟩ := bind_ok hc
  obtain ⟨-, -, hd1⟩ := bind_ok hd
  exact List.append_cancel_left ((Except.ok.inj hc1).trans (Except.ok.inj hd1).symm)

variable {user user' device device' : String}

theorem deviceSession_inj {id id' : Nat} {challenge challenge' : Bytes} (hid : Uuid id) (hid' : Uuid id')
    (h : (deviceSession user device id challenge).payload J = .ok out)
    (h' : (deviceSession user' device' id' challenge').payload J = .ok out) :
    deviceSession user device id challenge = deviceSession user' device' id' challenge' := by
  obtain ⟨-, -, h1⟩ := bind_ok h
  obtain ⟨bytes, hbytes, h2⟩ := bind_ok h1
  obtain ⟨-, -, h1'⟩ := bind_ok h'
  obtain ⟨bytes', hbytes', h2'⟩ := bind_ok h1'
  have hout := (Except.ok.inj h2).trans (Except.ok.inj h2').symm
  obtain ⟨hfits, rfl⟩ := signedFields_iff.mp hbytes
  obtain ⟨hfits', rfl⟩ := signedFields_iff.mp hbytes'
  rw [List.append_assoc, List.append_assoc] at hout
  obtain ⟨hfields, rfl⟩ := fields_inj (by simp only [List.length_cons]) hfits hfits' (List.append_cancel_left hout)
  simp only [List.cons.injEq, and_true] at hfields
  obtain ⟨huser, hdevice, htext⟩ := hfields
  rw [utf8_inj huser, utf8_inj hdevice, uuidText_inj hid hid' (utf8_inj htext)]

variable {room' : Option Nat}

theorem room_inj {room : Option Nat} (hroom : ∀ id ∈ room, Uuid id) (hroom' : ∀ id ∈ room', Uuid id)
    (h : (room.map uuidText).getD "" = (room'.map uuidText).getD "") : room = room' := by
  cases room with
  | none =>
    cases room' with
    | none => rfl
    | some id' => exact absurd h.symm (uuidText_ne_empty id')
  | some id =>
    cases room' with
    | none => exact absurd h (uuidText_ne_empty id)
    | some id' => exact congrArg some (uuidText_inj (hroom id rfl) (hroom' id' rfl) h)

variable {incarnation' : Nat}

theorem terminalRoom_inj {owner owner' : String} {terminal terminal' incarnation : Nat} {room : Option Nat}
    {sequence sequence' : Nat} (ht : (terminalRoom owner terminal incarnation room sequence device).Typed)
    (ht' : (terminalRoom owner' terminal' incarnation' room' sequence' device').Typed)
    (h : (terminalRoom owner terminal incarnation room sequence device).payload J = .ok out)
    (h' : (terminalRoom owner' terminal' incarnation' room' sequence' device').payload J = .ok out) :
    terminalRoom owner terminal incarnation room sequence device =
      terminalRoom owner' terminal' incarnation' room' sequence' device' := by
  obtain ⟨hterminal, hincarnation, hroom, hsequence⟩ := ht
  obtain ⟨hterminal', hincarnation', hroom', hsequence'⟩ := ht'
  rw [payload, terminalRoomPreimage] at h h'
  have hfields := signedFields_inj (by simp only [List.length_cons]) h h'
  simp only [List.cons.injEq, and_true] at hfields
  obtain ⟨howner, hfirst, hsecond, hchoice, hnumber, hdevice⟩ := hfields
  rw [utf8_inj howner, uuidText_inj hterminal hterminal' (utf8_inj hfirst),
    uuidText_inj hincarnation hincarnation' (utf8_inj hsecond), room_inj hroom hroom' (utf8_inj hchoice),
    toBe_inj hsequence hsequence' hnumber, utf8_inj hdevice]

theorem terminalClose_inj {owner owner' : String} {terminal terminal' incarnation : Nat}
    (ht : (terminalClose owner terminal incarnation user device).Typed)
    (ht' : (terminalClose owner' terminal' incarnation' user' device').Typed)
    (h : (terminalClose owner terminal incarnation user device).payload J = .ok out)
    (h' : (terminalClose owner' terminal' incarnation' user' device').payload J = .ok out) :
    terminalClose owner terminal incarnation user device =
      terminalClose owner' terminal' incarnation' user' device' := by
  rw [payload, terminalClosePreimage] at h h'
  have hfields := signedFields_inj (by simp only [List.length_cons]) h h'
  simp only [List.cons.injEq, and_true] at hfields
  obtain ⟨howner, hfirst, hsecond, huser, hdevice⟩ := hfields
  rw [utf8_inj howner, uuidText_inj ht.1 ht'.1 (utf8_inj hfirst), uuidText_inj ht.2 ht'.2 (utf8_inj hsecond),
    utf8_inj huser, utf8_inj hdevice]

theorem roomRecipient_inj {key key' : Bytes} (h : (roomRecipient user device key).payload J = .ok out)
    (h' : (roomRecipient user' device' key').payload J = .ok out) :
    roomRecipient user device key = roomRecipient user' device' key' := by
  rw [payload, roomKeyProof] at h h'
  have hfields := signedFields_inj (by simp only [List.length_cons]) h h'
  simp only [List.cons.injEq, and_true] at hfields
  obtain ⟨huser, hdevice, rfl⟩ := hfields
  rw [utf8_inj huser, utf8_inj hdevice]

end

/-- Bytes that are signed for two values say the same: the values are of one kind and their fields are equal. -/
theorem one_meaning (J : JsonText) (v w : Signed) (out : Bytes) (htv : v.Typed) (htw : w.Typed)
    (hv : v.payload J = .ok out) (hw : w.payload J = .ok out) : v.kind = w.kind ∧ v.Same w := by
  have hkind := kind_eq hv hw
  refine ⟨hkind, ?_⟩
  cases v with
  | deviceList l =>
    cases w with
    | deviceList m => exact deviceList_inj hv hw ▸ .refl _
    | _ => cases hkind
  | deviceCertificate c =>
    cases w with
    | deviceCertificate d => exact deviceCertificate_inj hv hw ▸ .refl _
    | _ => cases hkind
  | friendList l =>
    cases w with
    | friendList m => exact friendList_inj hv hw ▸ .refl _
    | _ => cases hkind
  | roomState s =>
    cases w with
    | roomState t =>
      have hbody := List.append_cancel_left ((Except.ok.inj hv).trans (Except.ok.inj hw).symm)
      exact .roomState (State.same_of_toJson htv htw (J.toVec_inj hbody))
    | _ => cases hkind
  | roomContent c =>
    cases w with
    | roomContent d =>
      have hbody := List.append_cancel_left ((Except.ok.inj hv).trans (Except.ok.inj hw).symm)
      exact Content.toJson_inj htv htw (J.toVec_inj hbody) ▸ .refl _
    | _ => cases hkind
  | deviceProof c =>
    cases w with
    | deviceProof d => exact deviceProof_inj hv hw ▸ .refl _
    | _ => cases hkind
  | deviceSession =>
    cases w with
    | deviceSession => exact deviceSession_inj htv htw hv hw ▸ .refl _
    | _ => cases hkind
  | terminalRoom =>
    cases w with
    | terminalRoom => exact terminalRoom_inj htv htw hv hw ▸ .refl _
    | _ => cases hkind
  | terminalClose =>
    cases w with
    | terminalClose => exact terminalClose_inj htv htw hv hw ▸ .refl _
    | _ => cases hkind
  | roomRecipient =>
    cases w with
    | roomRecipient => exact roomRecipient_inj hv hw ▸ .refl _
    | _ => cases hkind

/-- Two proofs of a device over one challenge have one meaning. -/
theorem proof_has_one_meaning :
    (deviceProof (List.replicate 32 7)).kind = (deviceProof (List.replicate 32 7)).kind ∧
      (deviceProof (List.replicate 32 7)).Same (deviceProof (List.replicate 32 7)) :=
  one_meaning ⟨Wire.Plain.toVec, Wire.Plain.fromSlice, Wire.Plain.fromSlice_toVec⟩
    (deviceProof (List.replicate 32 7)) (deviceProof (List.replicate 32 7)) _ trivial trivial rfl rfl

end Signed

end Kodosi.Rooms
