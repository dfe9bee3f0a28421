import Kodosi.Identity.Runs
import Kodosi.Rooms.Signatures
import Kodosi.Rooms.Verified

/-! A room with its owner alone: the states that the owner signs are accepted one after the other. -/

namespace Kodosi.Rooms
open Kodosi.Lib Kodosi.Identity Kodosi.Derive

/-- The owner of a room, as its states hold the owner. -/
structure Owner (C : Crypto) where
  bundle : IdentityBundle
  root : Root
  identity : VerifiedIdentity
  device : DeviceCertificate
  key : Keypair
  hroot : bundle.root C = .ok root
  hkey : device.sigPublicKey = key.publicKey
  hworks : key.Works C
  hdevice : identity.devices[device.deviceId]? = some device

namespace Owner

variable {C : Crypto}

def members (o : Owner C) : Map IdentityBundle := (∅ : Map IdentityBundle).insert o.bundle.userId o.bundle

def identities (o : Owner C) : Map VerifiedIdentity :=
  (∅ : Map VerifiedIdentity).insert o.bundle.userId o.identity

/-- A state that the owner made for the own devices. -/
structure Makes (o : Owner C) (nowMs : Nat) (state : State) : Prop where
  owner : state.ownerUserId = o.bundle.userId
  author : state.authorId = o.bundle.userId
  device : state.deviceId = o.device.deviceId
  members : state.members = o.members
  some : state.recipients ≠ []
  few : state.recipients.length ≤ ROOM_RECIPIENTS_MOST
  recipients : ∀ r ∈ state.recipients, r.userId = o.bundle.userId ∧ r.deviceId = o.device.deviceId
  made : state.createdAtMs ≤ soon nowMs
  known : Pins.historical C o.bundle o.root state.createdAtMs none = .ok o.identity

/-- The state, signed by the device. -/
def signs (o : Owner C) (state : State) (bytes : Bytes) : SignedState :=
  ⟨state.version, Base64.encode bytes, Base64.encode (o.key.sign (STATE_DOMAIN ++ bytes))⟩

def verified (o : Owner C) (state : State) (bytes : Bytes) : VerifiedState :=
  ⟨state, digest C bytes, o.identities⟩

variable {o : Owner C} {nowMs : Nat} {state : State} {previous : Option VerifiedState}

theorem getElem?_members : o.members[o.bundle.userId]? = some o.bundle := by
  rw [members, getElem?_insert, if_pos rfl]

theorem toList_members (o : Owner C) : o.members.toList = [(o.bundle.userId, o.bundle)] := rfl

theorem memberIdentities_own (hmakes : o.Makes nowMs state)
    (hprevious : ∀ p ∈ previous, ∃ old bytes, p = o.verified old bytes ∧ o.Makes nowMs old) :
    memberIdentities C state o.bundle.userId o.root previous = .ok o.identities := by
  have hone : memberIdentity C state o.bundle.userId o.root previous o.bundle.userId o.bundle = .ok o.identity := by
    cases previous with
    | none =>
      have hreplaces : replaces C none o.root = false := rfl
      rw [memberIdentity, ok_bind (reject_ok.mpr (by simp))]
      simp only [Option.bind_none, if_true]
      refine (ok_bind rfl).trans ((ok_bind (reject_ok.mpr ?_)).trans hmakes.known)
      rw [hreplaces]
      simp
    | some p =>
      obtain ⟨old, bytes, rfl, hold⟩ := hprevious p rfl
      refine memberIdentity_kept rfl ?_
      rw [VerifiedState.keeps, if_pos]
      · exact (getElem?_insert _ _ _ _).trans (if_pos rfl)
      · rw [VerifiedState.bundle, verified, hold.members, getElem?_members]
  rw [memberIdentities, hmakes.members, toList_members, List.foldlM_cons]
  simp only [List.foldlM_nil]
  rw [hone]
  rfl

/-- The owner's state is accepted when it comes first, or behind another one of the owner. -/
theorem verifyState_own {parse : Bytes → Except Error State} {bytes : Bytes} (hmakes : o.Makes nowMs state)
    (hparse : parse bytes = .ok state) (hbytes : bytes.length ≤ STATE_BODY_MOST)
    (hprevious : ∀ p ∈ previous, ∃ old bytes, p = o.verified old bytes ∧ o.Makes nowMs old)
    (hversion : state.version = previous.elim 1 fun p => p.state.version + 1)
    (hfirst : previous = none → state.epoch = 1 ∧ state.previousHash = "" ∧ state.previousKey = none)
    (hnext : ∀ p ∈ previous, state.epoch = p.state.epoch ∧ state.previousHash = p.hash ∧
      state.previousKey = p.state.previousKey) :
    verifyState C parse nowMs (o.signs state bytes) state.roomId o.bundle.userId o.root previous =
      .ok (o.verified state bytes) := by
  have hlength : (o.key.sign (STATE_DOMAIN ++ bytes)).length ≤ 3309 := Nat.le_of_eq (o.hworks.length _)
  have hmember : o.bundle.userId ∈ o.members := by simp [members]
  have hsize : o.members.size = 1 := rfl
  have hnamed : ¬(state.roomId ≠ state.roomId ∨ state.ownerUserId ≠ o.bundle.userId ∨
      state.version ≠ (o.signs state bytes).version ∨
      state.version ≠ (previous.elim 1 fun p => p.state.version + 1) ∨
      state.members.isEmpty ∨ ROOM_PEOPLE_MOST < state.members.size ∨ o.bundle.userId ∉ state.members ∨
      soon nowMs < state.createdAtMs ∨ state.recipients = [] ∨
      ROOM_RECIPIENTS_MOST < state.recipients.length) := by
    have hempty : o.members.isEmpty = false := rfl
    have hmade := hmakes.made
    have hfew := hmakes.few
    simp only [hmakes.members, hempty, hsize, hmember, hmakes.owner, ← hversion, hmakes.some, signs,
      ROOM_PEOPLE_MOST]
    simp
    omega
  have hupdate : checkHistory state o.bundle.userId previous = .ok () := by
    cases previous with
    | none =>
      obtain ⟨hepoch, hhash, hkey⟩ := hfirst rfl
      exact reject_ok.mpr (by simp [hmakes.author, hepoch, hhash, hkey])
    | some p =>
      obtain ⟨hepoch, hhash, hkey⟩ := hnext p rfl
      obtain ⟨old, bytes', rfl, hold⟩ := hprevious p rfl
      have hremoved : state.removed old = [] := by
        rw [State.removed, hold.members, hmakes.members]
        simp
      have hadded : state.added old = [] := by
        rw [State.added, hold.members, hmakes.members]
        simp
      have hsame : (o.verified old bytes').state = old := rfl
      rw [hsame] at hepoch hkey
      show checkUpdate state o.bundle.userId (o.verified old bytes') = .ok ()
      rw [checkUpdate, hsame]
      refine (ok_bind (reject_ok.mpr ?_)).trans ((ok_bind (reject_ok.mpr ?_)).trans
        ((ok_bind (reject_ok.mpr ?_)).trans (reject_ok.mpr ?_)))
      · simp [hhash, hepoch, hmakes.author, hold.members, hmember]
      · simp [hmakes.author]
      · simp [hremoved]
      · simp [hkey]
  have hdevice : signingDevice C state previous = .ok o.device := by
    have hbundle : ∀ b ∈ previous.bind (·.bundle state.authorId), b = o.bundle := by
      intro b hb
      cases previous with
      | none => simp at hb
      | some p =>
        obtain ⟨old, bytes', rfl, hold⟩ := hprevious p rfl
        have hfound : (o.verified old bytes').bundle state.authorId = some o.bundle := by
          rw [VerifiedState.bundle, verified, hold.members, hmakes.author, getElem?_members]
        simp only [Option.bind_some, hfound] at hb
        exact (Option.some.inj hb).symm
    refine signingDevice_of ?_ hbundle o.hroot hmakes.known ?_
    · rw [hmakes.members, hmakes.author, getElem?_members]
    · rw [hmakes.device, o.hdevice]
  have hsignature : verifySignature C STATE_DOMAIN bytes (o.signs state bytes).signature o.device.sigPublicKey =
      .ok () := by
    rw [verifySignature, signs, ok_bind (decode_encode hlength), o.hkey]
    exact reject_ok.mpr (by simp [o.hworks.verifies])
  have hrecipients : ∀ r ∈ state.recipients, checkRecipient o.identities r = .ok () := by
    refine fun r hr => reject_ok.mpr ?_
    obtain ⟨huser, hid⟩ := hmakes.recipients r hr
    rw [huser, hid, identities, getElem?_insert, if_pos rfl]
    simp only [Option.mem_some_iff, exists_eq_left', not_not]
    exact Std.TreeMap.mem_iff_isSome_getElem?.mpr (by rw [o.hdevice]; rfl)
  exact verifyState_of (decode_encode hbytes) hparse hnamed (memberIdentities_own hmakes hprevious) hupdate hdevice
    hsignature hrecipients

end Owner

/-! ### The room of a person with one device -/

section

variable {C : Crypto} {a : Alone} {l : SignedDeviceList} {s : SignedBody} {atMs : Nat}

theorem devices_alone (h : a.Signed l s) : (a.parts C l s ∅).identity.devices[a.cert.deviceId]? = some a.cert := by
  have hid : a.cert.deviceId = a.deviceId := rfl
  have hlisted : a.deviceId ∈ l.deviceIds := by simp [h.deviceIds]
  rw [hid, Parts.identity]
  simp only [Alone.parts, Std.TreeMap.getElem?_filterMap]
  simp [hlisted, Alone.body]

theorem historical_alone (hk : a.key.Works C) (h : a.Signed l s) (hincarnation : a.identityIncarnationId ≠ 0)
    (htime : a.InTime l atMs false) :
    Pins.historical C (a.bundle s) (a.root C) atMs none = .ok (a.parts C l s ∅).identity := by
  have hexisting : Pins.existing (∅ : Map Pin) (a.bundle s).userId (.root (a.root C)) = none := by
    simp [Pins.existing]
  have hcheck : check C (a.bundle s) (.root (a.root C)) none atMs false = .ok (a.parts C l s ∅) :=
    (a.checked hk h hincarnation htime fun pin hpin => by cases hpin).check_eq
  rw [Pins.historical]
  refine (ok_bind rfl).trans ?_
  unfold Pins.verifyCurrent
  simp only [hexisting, hcheck]
  simp

/-- The person as the owner of a room. -/
def Owner.alone (hk : a.key.Works C) (h : a.Signed l s) : Owner C where
  bundle := a.bundle s
  root := a.root C
  identity := (a.parts C l s ∅).identity
  device := a.cert
  key := a.key
  hroot := a.root_bundle C s
  hkey := rfl
  hworks := hk
  hdevice := devices_alone h

end

/-! ### How long a state is -/

/-- The names of the fields of a state. -/
def fieldNames : List String :=
  ["roomId", "ownerUserId", "authorId", "deviceId", "version", "epoch", "createdAtMs", "previousHash", "members",
    "recipients", "previousKey", "userId", "identityIncarnationId", "deviceList", "body", "signature", "devices",
    "certificateChain", "certificate", "certificateSignature", "kemCiphertext", "sealed", "nonce", "ciphertext"]

theorem length_names : ∀ name ∈ fieldNames, name.utf8ByteSize ≤ 21 := by decide

section

variable {m : Nat} {fields : List (String × Documents.Value)} {items : List Documents.Value}

/-- A member with one device adds to the text of a state what its fields let it. -/
theorem length_person {b : IdentityBundle} {e : CertificateEnvelope} (hdevices : b.devices = [e])
    (hchain : b.certificateChain = []) (hshort : ∀ text ∈ [b.userId, uuidText b.identityIncarnationId, b.deviceList.body,
      b.deviceList.signature, e.certificate, e.certificateSignature], text.utf8ByteSize ≤ m) :
    (Wire.Plain.fieldsToVec ((b.userId, bundleJson b) :: fields)).length ≤
      14 * m + 600 + (Wire.Plain.fieldsToVec fields).length := by
  have hnames := length_names
  unfold fieldNames at hnames
  simp only [List.forall_mem_cons] at hnames hshort
  simp only [bundleJson, hdevices, hchain, certificateJson, Wire.Plain.toVec, Wire.Plain.fieldsToVec,
    Wire.Plain.itemsToVec, List.map_cons, List.map_nil, writeArray, uuidJson, List.length_cons, List.length_append,
    List.length_nil, Wire.Plain.length_texts]
  omega

theorem length_recipient {r : Recipient} (hshort : ∀ text ∈ [r.userId, r.deviceId, r.kemCiphertext, r.sealed.nonce,
    r.sealed.ciphertext], text.utf8ByteSize ≤ m) : (Wire.Plain.itemsToVec (r.toJson :: items)).length ≤
      10 * m + 400 + (Wire.Plain.itemsToVec items).length := by
  have hnames := length_names
  unfold fieldNames at hnames
  simp only [List.forall_mem_cons] at hnames hshort
  simp only [Recipient.toJson, Sealed.toJson, Wire.Plain.toVec, Wire.Plain.fieldsToVec, Wire.Plain.itemsToVec, List.length_cons,
    List.length_append, List.length_nil, Wire.Plain.length_texts]
  omega

/-- The text of a state is as long as its members, its recipients and its other fields let it be. -/
theorem length_state {s : State} {people keys : Nat}
    (hmembers : (Wire.Plain.fieldsToVec (s.members.toList.map fun entry => (entry.1, bundleJson entry.2))).length ≤ people)
    (hrecipients : (Wire.Plain.itemsToVec (s.recipients.map Recipient.toJson)).length ≤ keys) (hkey : s.previousKey = none)
    (hshort : ∀ text ∈ [uuidText s.roomId, s.ownerUserId, s.authorId, s.deviceId, s.version.repr, s.epoch.repr,
      s.createdAtMs.repr], text.utf8ByteSize ≤ m) :
    (Wire.Plain.toVec s.toJson).length ≤ 14 * m + 2 * s.previousHash.utf8ByteSize + people + keys + 600 := by
  have hnames := length_names
  unfold fieldNames at hnames
  simp only [List.forall_mem_cons] at hnames hshort
  unfold State.toJson
  rw [hkey]
  simp only [Wire.Plain.toVec, Wire.Plain.fieldsToVec, writeArray, writeOption, uuidJson, writeNat, List.length_cons,
    List.length_append, List.length_nil, Wire.Plain.length_texts]
  omega

/-- A member with one device whose proofs are not long. -/
theorem length_alone {a : Alone} {s : SignedBody}
    (hshort : ∀ text ∈ [a.userId, uuidText a.identityIncarnationId], text.utf8ByteSize ≤ 6200)
    (hbytes : ∀ bytes ∈ [s.bodyBytes, s.signature, a.certificate.bodyBytes, a.certificate.signature], bytes.length ≤ 4584) :
    (Wire.Plain.fieldsToVec ((a.userId, bundleJson (a.bundle s)) :: fields)).length ≤
      87400 + (Wire.Plain.fieldsToVec fields).length := by
  have hencoded : ∀ {bytes : Bytes}, bytes.length ≤ 4584 → (Base64.encode bytes).utf8ByteSize ≤ 6200 := by
    intro bytes hbytes
    rw [Base64.utf8ByteSize_encode]
    omega
  simp only [List.forall_mem_cons] at hshort hbytes
  obtain ⟨huser, hincarnation, -⟩ := hshort
  obtain ⟨hlist, hsigned, hcertificate, hcertified, -⟩ := hbytes
  refine length_person (m := 6200) (b := a.bundle s) rfl rfl ?_
  simp only [List.forall_mem_cons]
  exact ⟨huser, hincarnation, hencoded hlist, hencoded hsigned, hencoded hcertificate, hencoded hcertified, nofun⟩

end

theorem utf8ByteSize_digest (C : Crypto) (bytes : Bytes) :
    (digest C bytes).utf8ByteSize = 2 * (C.sha256 bytes).length := by
  have hone : ∀ n < 16, (hexDigit n).utf8Size = 1 := by decide
  have hsize : ∀ c ∈ (C.sha256 bytes).flatMap hex, c.utf8Size = 1 := by
    intro c hc
    obtain ⟨b, -, hb⟩ := List.mem_flatMap.mp hc
    have hlt := b.toNat_lt
    simp only [hex, List.mem_cons, List.not_mem_nil, or_false] at hb
    rcases hb with rfl | rfl
    · exact hone _ (by omega)
    · exact hone _ (by omega)
  rw [digest, Base64.utf8ByteSize_ofList, List.map_congr_left hsize, List.map_const', List.sum_replicate, smul_eq_mul,
    Nat.mul_one, length_digits]

namespace Plain

open Identity.Plain

theorem first_signed : first.Signed (ownList userId "first" 1 1000 none) (listOf first 1 1000) :=
  signed_of (a := first) (by decide)

def owner : Owner crypto := .alone (key_works 1) first_signed

/-- A state of the owner's room. -/
def ownState (version : Nat) (previousHash : String) : State where
  roomId := 7
  ownerUserId := userId
  authorId := userId
  deviceId := "first"
  version := version
  epoch := 1
  createdAtMs := 3000
  previousHash := previousHash
  members := owner.members
  recipients := [⟨userId, "first", "", ⟨"", ""⟩⟩]
  previousKey := none

/-- What two states of the room have to do with each other. -/
theorem behind_ownState (version version' : Nat) (hash hash' : String) :
    (ownState version hash).epoch = (ownState version' hash').epoch ∧
      (ownState version hash).previousHash = hash ∧
      (ownState version hash).previousKey = (ownState version' hash').previousKey := ⟨rfl, rfl, rfl⟩

theorem makes (version : Nat) (previousHash : String) : owner.Makes 3000 (ownState version previousHash) where
  owner := rfl
  author := rfl
  device := rfl
  members := rfl
  some := List.cons_ne_nil _ _
  few := show 1 ≤ ROOM_RECIPIENTS_MOST by decide
  recipients r hr := by
    obtain rfl := List.mem_singleton.mp hr
    exact ⟨rfl, rfl⟩
  made := show 3000 ≤ soon 3000 by decide
  known := historical_alone (key_works 1) first_signed (by decide) (first_in_time (by omega))

/-- The first state of the room and the second one, and their bytes. -/
def state₁ : State := ownState 1 ""
def bytes₁ : Bytes := Wire.Plain.toVec state₁.toJson
def state₂ : State := ownState 2 (digest crypto bytes₁)
def bytes₂ : Bytes := Wire.Plain.toVec state₂.toJson

theorem length_owner {fields : List (String × Documents.Value)} :
    (Wire.Plain.fieldsToVec ((userId, bundleJson owner.bundle) :: fields)).length ≤
      87400 + (Wire.Plain.fieldsToVec fields).length :=
  length_alone (a := first) (s := listOf first 1 1000) (by decide) (by decide +kernel)

/-- The text of a state of the owner is short, whenever it was made. -/
theorem length_ownState_at {version : Nat} (previousHash : String) {createdAtMs : Nat}
    (hversion : version = 1 ∨ version = 2) (hcreated : createdAtMs.repr.utf8ByteSize ≤ 6200) :
    (Wire.Plain.toVec { ownState version previousHash with createdAtMs := createdAtMs }.toJson).length ≤
      240000 + 2 * previousHash.utf8ByteSize := by
  have hshort : ∀ text ∈ [uuidText 7, userId, "first", Nat.repr 1, Nat.repr 2], text.utf8ByteSize ≤ 6200 := by decide
  simp only [List.forall_mem_cons] at hshort
  obtain ⟨hroom, huser, hdevice, hone, htwo, -⟩ := hshort
  have hnumber : version.repr.utf8ByteSize ≤ 6200 := by
    rcases hversion with rfl | rfl
    · exact hone
    · exact htwo
  refine (length_state (m := 6200) length_owner (length_recipient (m := 6200) (by decide)) rfl ?_).trans ?_
  · simp only [List.forall_mem_cons]
    exact ⟨hroom, huser, huser, hdevice, hnumber, hone, hcreated, nofun⟩
  · show 14 * 6200 + 2 * previousHash.utf8ByteSize + (87400 + 1) + (10 * 6200 + 400 + 1) + 600 ≤ _
    omega

theorem length_ownState {version : Nat} (previousHash : String) (hversion : version = 1 ∨ version = 2) :
    (Wire.Plain.toVec (ownState version previousHash).toJson).length ≤ 240000 + 2 * previousHash.utf8ByteSize :=
  length_ownState_at previousHash hversion (by decide)

theorem bytes_ne : bytes₁ ≠ bytes₂ := by
  intro h
  have hjson : state₁.toJson = state₂.toJson :=
    (Wire.Plain.toVec_inj (r := []) (s := []) (congrArg (· ++ []) h)).1
  have htyped : ∀ version previousHash, (Signed.roomState (ownState version previousHash)).Typed := by
    intro version previousHash
    refine ⟨show 7 < 2 ^ 128 by decide, fun entry hentry => ?_⟩
    obtain rfl := List.mem_singleton.mp (Owner.toList_members owner ▸ hentry)
    exact show 1 < 2 ^ 128 by decide
  exact absurd (State.same_of_toJson (htyped _ _) (htyped _ _) hjson).version (show (1 : Nat) ≠ 2 by decide)

/-- A reader of the two states. -/
def parse (bytes : Bytes) : Except Error State :=
  if bytes = bytes₁ then .ok state₁ else if bytes = bytes₂ then .ok state₂ else .error .json

theorem length_bytes₁ : bytes₁.length ≤ 240000 := by
  have hempty : "".utf8ByteSize = 0 := rfl
  have hbytes : bytes₁.length ≤ 240000 + 2 * "".utf8ByteSize := length_ownState "" (.inl rfl)
  omega

/-- The first state is accepted when nothing is known of the room. -/
theorem verifies_first : verifyState crypto parse 3000 (owner.signs state₁ bytes₁) 7 userId owner.root none =
    .ok (owner.verified state₁ bytes₁) := by
  have hlength : bytes₁.length ≤ STATE_BODY_MOST := length_bytes₁.trans (by decide)
  exact Owner.verifyState_own (makes 1 "") (if_pos rfl) hlength nofun rfl (fun _ => ⟨rfl, rfl, rfl⟩) nofun

theorem length_bytes₂ : bytes₂.length ≤ STATE_BODY_MOST := by
  have hbytes : bytes₂.length ≤ 240000 + 2 * (digest crypto bytes₁).utf8ByteSize :=
    length_ownState (digest crypto bytes₁) (.inr rfl)
  have hplain : crypto.sha256 bytes₁ = bytes₁ := rfl
  rw [utf8ByteSize_digest, hplain] at hbytes
  have hlength := length_bytes₁
  have hmost : STATE_BODY_MOST = 3145728 := rfl
  omega

theorem parse_second : parse bytes₂ = .ok state₂ := by
  rw [parse, if_neg bytes_ne.symm, if_pos rfl]

/-- The second state is accepted behind the first one. -/
theorem verifies_second : verifyState crypto parse 3000 (owner.signs state₂ bytes₂) 7 userId owner.root
    (some (owner.verified state₁ bytes₁)) = .ok (owner.verified state₂ bytes₂) := by
  have hbehind : ∀ p ∈ some (owner.verified state₁ bytes₁), state₂.epoch = p.state.epoch ∧
      state₂.previousHash = p.hash ∧ state₂.previousKey = p.state.previousKey := by
    rintro p ⟨⟩
    exact behind_ownState 2 1 (digest crypto bytes₁) ""
  refine Owner.verifyState_own (makes 2 _) parse_second length_bytes₂ ?_ rfl nofun hbehind
  rintro p ⟨⟩
  exact ⟨state₁, bytes₁, rfl, makes 1 ""⟩

end Plain

end Kodosi.Rooms
