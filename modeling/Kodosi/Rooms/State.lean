import Kodosi.Identity.Pins

/-! The states of a room: who is a member, which devices hold the room key, and how a client verifies a
    state against the one before it. -/

namespace Kodosi.Rooms
open Kodosi.Lib Kodosi.Identity

structure Sealed where
  nonce : String
  ciphertext : String
  deriving DecidableEq

/-- The key of a state, wrapped for one device. -/
structure Recipient where
  userId : String
  deviceId : String
  kemCiphertext : String
  sealed : Sealed

structure State where
  roomId : Nat
  ownerUserId : String
  authorId : String
  deviceId : String
  version : Nat
  epoch : Nat
  createdAtMs : Nat
  previousHash : String
  members : Map IdentityBundle
  recipients : List Recipient
  previousKey : Option Sealed

/-- A state as the server hands it out. -/
structure SignedState where
  version : Nat
  body : String
  signature : String

structure VerifiedState where
  state : State
  hash : String
  identities : Map VerifiedIdentity

def STATE_DOMAIN : Bytes := utf8 "kodosi-room-state-v1"
def ROOM_PEOPLE_MOST : Nat := 65
def ROOM_RECIPIENTS_MOST : Nat := 1105
def STATE_BODY_MOST : Nat := 3 * 1024 * 1024

/-! ### The hash of a state -/

def hexDigit (n : Nat) : Char := "0123456789abcdef".toList.getD n '0'

def hex (b : UInt8) : List Char := [hexDigit (b.toNat / 16), hexDigit (b.toNat % 16)]

def digest (C : Crypto) (bytes : Bytes) : String := String.ofList ((C.sha256 bytes).flatMap hex)

theorem hexDigit_inj : ∀ m < 16, ∀ n < 16, hexDigit m = hexDigit n → m = n := by decide

theorem hex_inj {a b : UInt8} (h : hex a = hex b) : a = b := by
  have ha := a.toNat_lt
  have hb := b.toNat_lt
  obtain ⟨hhigh, hlow, -⟩ : _ ∧ _ ∧ True := by simpa [hex] using h
  have hdiv := hexDigit_inj _ (by omega) _ (by omega) hhigh
  have hmod := hexDigit_inj _ (by omega) _ (by omega) hlow
  exact UInt8.toNat_inj.mp (by omega)

theorem flatMap_hex_inj : ∀ {a b : Bytes}, a.flatMap hex = b.flatMap hex → a = b
  | [], [], _ => rfl
  | [], _ :: _, h => by simp [hex] at h
  | _ :: _, [], h => by simp [hex] at h
  | x :: a, y :: b, h => by
    rw [List.flatMap_cons, List.flatMap_cons] at h
    obtain ⟨hhead, htail⟩ := List.append_inj h rfl
    rw [hex_inj hhead, flatMap_hex_inj htail]

/-! ### The members of a state -/

def VerifiedState.bundle (v : VerifiedState) (user : String) : Option IdentityBundle :=
  v.state.members[user]?

/-- The identity of a member whose bundle the state before has as it is. -/
def VerifiedState.keeps (previous : VerifiedState) (user : String) (bundle : IdentityBundle) :
    Option VerifiedIdentity :=
  if previous.bundle user = some bundle then previous.identities[user]? else none

/-- Whether the state before has another root for the member. -/
def replaces (C : Crypto) (prior : Option IdentityBundle) (anchor : Root) : Bool :=
  prior.any fun known => (known.root C).toOption.any (· ≠ anchor)

def memberIdentity (C : Crypto) (state : State) (owner : String) (ownerRoot : Root)
    (previous : Option VerifiedState) (user : String) (bundle : IdentityBundle) :
    Except Error VerifiedIdentity := do
  reject (user ≠ bundle.userId) (.invalid "A room identity belongs to another user.")
  match previous.bind (·.keeps user bundle) with
  | some identity => return identity
  | none =>
    let prior := previous.bind (·.bundle user)
    let anchor ← if user = owner then pure ownerRoot else bundle.root C
    let replaced := replaces C prior anchor
    reject (replaced ∧ (state.authorId ≠ owner ∨
        ∀ p ∈ previous, state.epoch ≠ p.state.epoch + 1))
      (.invalid "A room member's identity changed.")
    let older := (prior.filter fun _ => !replaced).bind fun known =>
      previous.map fun p => (known, p.state.createdAtMs)
    Pins.historical C bundle anchor state.createdAtMs older

def memberIdentities (C : Crypto) (state : State) (owner : String) (ownerRoot : Root)
    (previous : Option VerifiedState) : Except Error (Map VerifiedIdentity) :=
  state.members.toList.foldlM (fun identities (user, bundle) => do
    let identity ← memberIdentity C state owner ownerRoot previous user bundle
    return identities.insert user identity) ∅

/-! ### One state after another -/

def State.removed (state previous : State) : List String :=
  previous.members.keys.filter (· ∉ state.members)

def State.added (state previous : State) : List String :=
  state.members.keys.filter (· ∉ previous.members)

/-- What the update of a room must keep of the state before. -/
def checkUpdate (state : State) (owner : String) (previous : VerifiedState) : Except Error Unit := do
  reject (state.previousHash ≠ previous.hash ∨ state.epoch < previous.state.epoch ∨
      previous.state.epoch + 1 < state.epoch ∨ state.authorId ∉ previous.state.members)
    (.invalid "The room update does not follow its history.")
  reject (state.authorId ≠ owner ∧ (state.added previous.state ≠ [] ∨
      ∃ user ∈ state.removed previous.state, user ≠ state.authorId))
    (.invalid "The room membership update has no valid author.")
  reject (state.removed previous.state ≠ [] ∧ state.epoch ≠ previous.state.epoch + 1)
    (.invalid "Room keys did not change with membership.")
  reject (state.epoch = previous.state.epoch ∧ state.previousKey ≠ previous.state.previousKey)
    (.invalid "Room history keys changed within an epoch.")

def checkFirst (state : State) (owner : String) : Except Error Unit :=
  reject (state.authorId ≠ owner ∨ state.epoch ≠ 1 ∨ state.previousHash ≠ "" ∨
      state.previousKey.isSome)
    (.invalid "The room has no valid starting keys.")

def verifySignature (C : Crypto) (domain body : Bytes) (signature : String) (key : Bytes) :
    Except Error Unit := do
  let signature ← decode signature 3309
  reject (¬C.verifySig key (domain ++ body) signature) (.invalid "The room signature is invalid.")

def checkRecipient (identities : Map VerifiedIdentity) (r : Recipient) : Except Error Unit :=
  reject (¬∃ identity ∈ identities[r.userId]?, r.deviceId ∈ identity.devices)
    (.invalid "Room keys include a device outside the room.")

/-- The device that signed a state, by the identity of its author at that time. -/
def signingDevice (C : Crypto) (state : State) (previous : Option VerifiedState) :
    Except Error DeviceCertificate := do
  let prior := previous.bind (·.bundle state.authorId)
  let bundle ← require (.invalid "The room update has no member identity.")
    (state.members[state.authorId]?.or prior)
  let root ← (prior.getD bundle).root C
  let identity ← Pins.historical C bundle root state.createdAtMs none
  require (.invalid "The room update has no approved signing device.") identity.devices[state.deviceId]?

/-- `parse` reads the JSON of a state. -/
def verifyState (C : Crypto) (parse : Bytes → Except Error State) (nowMs : Nat) (signed : SignedState)
    (room : Nat) (owner : String) (ownerRoot : Root) (previous : Option VerifiedState) :
    Except Error VerifiedState := do
  let bytes ← decode signed.body STATE_BODY_MOST
  let state ← parse bytes
  reject (state.roomId ≠ room ∨ state.ownerUserId ≠ owner ∨ state.version ≠ signed.version ∨
      state.version ≠ (previous.elim 1 fun p => p.state.version + 1) ∨
      state.members.isEmpty ∨ ROOM_PEOPLE_MOST < state.members.size ∨ owner ∉ state.members ∨
      soon nowMs < state.createdAtMs ∨ state.recipients = [] ∨
      ROOM_RECIPIENTS_MOST < state.recipients.length)
    (.invalid "The room key history is invalid.")
  let identities ← memberIdentities C state owner ownerRoot previous
  match previous with
  | some previous => checkUpdate state owner previous
  | none => checkFirst state owner
  let device ← signingDevice C state previous
  verifySignature C STATE_DOMAIN bytes signed.signature device.sigPublicKey
  state.recipients.forM (checkRecipient identities)
  return ⟨state, digest C bytes, identities⟩

end Kodosi.Rooms
