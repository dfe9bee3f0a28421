import Kodosi.Identity.FirstDevice
import Kodosi.Rooms.State

/-! The keys of a room: wrapped for each device of a state, and the key of an epoch sealed under the key
    of the next one. -/

namespace Kodosi.Rooms
open Kodosi.Lib Kodosi.Identity

abbrev Secret := Bytes

/-- The key pair under which a device receives room keys. -/
structure RoomKeyPair where
  publicKey : Bytes
  secret : Bytes

structure DeviceKeys where
  deviceId : String
  signing : Keypair
  room : RoomKeyPair
  recovery : Option (String × RoomKeyPair)

/-- What the program takes from its cryptography library: sealing under a key (AES-256-GCM), and the
    agreement on a key with the holder of a room key pair (ML-KEM-768 and X25519 under HKDF). -/
structure Cipher where
  sealWith : (key context plain nonce : Bytes) → Option Bytes
  openWith : (key context nonce ciphertext : Bytes) → Option Bytes
  encapsulate : (publicKey context coins : Bytes) → Option (Bytes × Bytes)
  decapsulate : RoomKeyPair → (context ciphertext : Bytes) → Option Bytes

def KEM_CIPHERTEXT_BYTES : Nat := 1088
def AGREEMENT_BYTES : Nat := 32
def ROOM_PUBLIC_BYTES : Nat := 1184 + AGREEMENT_BYTES
def NONCE_BYTES : Nat := 12
def WRAP_DOMAIN : Bytes := utf8 "kodosi-room-key-wrap-v2"
def HISTORY_DOMAIN : Bytes := utf8 "kodosi-room-history-v1"

def signedFields (domain : Bytes) (fields : List Bytes) : Except Error Bytes := do
  let written ← fields.mapM (writeLpBytes "signed field")
  return domain ++ written.flatten

/-- The canonical text of an id of 16 bytes. -/
def uuidText (id : Nat) : String :=
  let digits := (toBe 16 id).flatMap hex
  let part (start length : Nat) := String.ofList ((digits.drop start).take length)
  "-".intercalate [part 0 8, part 8 4, part 12 4, part 16 4, part 20 12]

/-! ### Sealing -/

def sealBytes (K : Cipher) (key context bytes nonce : Bytes) : Except Error Sealed := do
  let ciphertext ← require (.invalid "Cannot encrypt room content.") (K.sealWith key context bytes nonce)
  return ⟨Base64.encode nonce, Base64.encode ciphertext⟩

def openBytes (K : Cipher) (key context : Bytes) (sealed : Sealed) : Except Error Bytes := do
  let nonce ← decode sealed.nonce NONCE_BYTES
  let ciphertext ← decode sealed.ciphertext (256 * 1024)
  require (.invalid "Room content could not be authenticated.")
    (if nonce.length = NONCE_BYTES then K.openWith key context nonce ciphertext else none)

def keyBytes (bytes : Bytes) : Except Error Secret := do
  reject (bytes.length ≠ 32) (.invalid "Invalid room key size.")
  return bytes

/-! ### For one device -/

def wrapContext (state : State) (user device : String) : Except Error Bytes :=
  signedFields WRAP_DOMAIN [utf8 (uuidText state.roomId), toBe 8 state.version, toBe 8 state.epoch,
    utf8 user, utf8 device]

/-- What is drawn at random to wrap a key. -/
structure Coins where
  kem : Bytes
  nonce : Bytes

def wrap (K : Cipher) (state : State) (user device : String) (publicKey : Bytes) (key : Secret)
    (coins : Coins) : Except Error Recipient := do
  reject (publicKey.length ≠ ROOM_PUBLIC_BYTES) (.invalid "Invalid room recipient key.")
  let context ← wrapContext state user device
  let (ciphertext, derived) ← require (.invalid "Invalid room recipient key.")
    (K.encapsulate publicKey context coins.kem)
  let sealed ← sealBytes K derived context key coins.nonce
  return ⟨user, device, Base64.encode ciphertext, sealed⟩

def unwrapFor (K : Cipher) (state : State) (user device : String) (room : RoomKeyPair) :
    Except Error Secret := do
  let recipient ← require (.invalid "Room keys are still arriving on this device.")
    (state.recipients.find? fun r => r.userId = user ∧ r.deviceId = device)
  let ciphertext ← decode recipient.kemCiphertext (KEM_CIPHERTEXT_BYTES + AGREEMENT_BYTES)
  reject (ciphertext.length < KEM_CIPHERTEXT_BYTES) (.invalid "Cannot open room keys.")
  let context ← wrapContext state user device
  let derived ← require (.invalid "Cannot open room keys.") (K.decapsulate room context ciphertext)
  let key ← openBytes K derived context recipient.sealed
  keyBytes key

def unwrap (K : Cipher) (state : State) (user : String) (keys : DeviceKeys) : Except Error Secret :=
  match unwrapFor K state user keys.deviceId keys.room, keys.recovery with
  | .ok key, _ => .ok key
  | .error e, none => .error e
  | .error e, some (device, room) => (unwrapFor K state user device room).mapError fun _ => e

/-! ### From one epoch to the one before -/

def historyContext (room epoch : Nat) : Except Error Bytes :=
  signedFields HISTORY_DOMAIN [utf8 (uuidText room), toBe 8 epoch]

def sealPrevious (K : Cipher) (room epoch : Nat) (current previous : Secret) (nonce : Bytes) :
    Except Error Sealed := do
  let context ← historyContext room epoch
  sealBytes K current context previous nonce

def openPrevious (K : Cipher) (state : State) (current : Secret) : Except Error Secret := do
  let context ← historyContext state.roomId state.epoch
  let sealed ← require (.invalid "Room history keys are incomplete.") state.previousKey
  let key ← openBytes K current context sealed
  keyBytes key

end Kodosi.Rooms
