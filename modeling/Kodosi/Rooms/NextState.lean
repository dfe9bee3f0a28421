import Kodosi.Rooms.KeyLoads
import Kodosi.Rooms.Signatures

/-! The next state of a room, as a member's client builds it from the newest one that it has verified. -/

namespace Kodosi.Rooms
open Kodosi.Lib Kodosi.Identity

/-- How what a client does with a room fails: with an answer of the server, with no answer, or by a check. -/
inductive RoomError where
  | backend (status : Nat)
  | unanswered
  | fault (e : Error)
  deriving DecidableEq

def RoomError.invalid (reason : String) : RoomError := .fault (.invalid reason)

def RoomError.isUnanswered : RoomError → Bool
  | .unanswered => true
  | .backend status => status = 429 ∨ 500 ≤ status
  | .fault _ => false

def faults {α : Type} (x : Except Error α) : Except RoomError α := x.mapError .fault

structure RecipientKey where
  userId : String
  deviceId : String
  publicKey : String
  signature : String

/-- What the server and the pins of the client answer about people while the state is built. -/
structure Answers where
  identity : String → Except RoomError IdentityBundle
  anchor : String → Except RoomError Root
  verifyBundle : IdentityBundle → Root → Except RoomError VerifiedIdentity
  roomKeys : String → Except RoomError (List RecipientKey)

/-- The people of a state: their bundles, their identities, and those who have a new root. -/
structure Standing where
  members : Map IdentityBundle
  identities : Map VerifiedIdentity
  replaced : List String

def memberBundle (A : Answers) (user : String) : Except RoomError IdentityBundle := do
  let bundle ← A.identity user
  reject (bundle.userId ≠ user) (.invalid "The room identity belongs to another user.")
  return bundle

def trustedMember (A : Answers) (user : String) : Except RoomError (IdentityBundle × VerifiedIdentity) := do
  let trusted ← A.anchor user
  let bundle ← memberBundle A user
  let identity ← A.verifyBundle bundle trusted
  return (bundle, identity)

namespace Standing

/-- A member stands with the bundle of now, when it is under the known root and current. -/
def join (C : Crypto) (me : String) (previous : VerifiedState) (atMs : Nat) (standing : Standing) (user : String)
    (known current : IdentityBundle) : Except RoomError Standing := do
  if current = known then return standing
  let root ← faults (known.root C)
  if (current.root C).toOption.any (· ≠ root) then
    return { standing with replaced := standing.replaced ++ [user] }
  match Pins.historical C current root atMs (some (known, previous.state.createdAtMs)) with
  | .ok identity =>
    return { standing with
      members := standing.members.insert user current
      identities := standing.identities.insert user identity }
  | .error e => if user = me then throw (.fault e) else return standing

def member (C : Crypto) (A : Answers) (me : String) (previous : VerifiedState) (atMs : Nat) (standing : Standing)
    (entry : String × IdentityBundle) : Except RoomError Standing :=
  match memberBundle A entry.1 with
  | .ok current => standing.join C me previous atMs entry.1 entry.2 current
  | .error (.backend 400) => .ok standing
  | .error (.backend 404) | .error (.backend 409) => .ok { standing with replaced := standing.replaced ++ [entry.1] }
  | .error e => .error e

/-- A member comes in, or comes back, with a bundle that the client trusts. -/
def insert (standing : Standing) (user : String) (bundle : IdentityBundle) (identity : VerifiedIdentity) : Standing :=
  { standing with
    identities := standing.identities.insert user identity
    members := standing.members.insert user bundle }

def erase (standing : Standing) (user : String) : Standing :=
  { standing with
    identities := standing.identities.erase user
    members := standing.members.erase user }

end Standing

def roomStanding (C : Crypto) (A : Answers) (me : String) (previous : VerifiedState) (atMs : Nat) :
    Except RoomError Standing :=
  previous.state.members.toList.foldlM (Standing.member C A me previous atMs)
    ⟨previous.state.members, previous.identities, []⟩

/-- The owner takes back the members with a new root that the owner trusts, but for one that is to be removed. -/
def returnMembers (A : Answers) (remove : Option String) (standing : Standing) : Except RoomError (Standing × Bool) :=
  standing.replaced.foldlM (fun (standing, returned) user =>
    if remove = some user then return (standing, returned)
    else match trustedMember A user with
    | .ok (bundle, identity) =>
      return ({ standing.insert user bundle identity with replaced := standing.replaced.filter (· ≠ user) }, true)
    | .error e => if e.isUnanswered then throw e else return (standing, returned)) (standing, false)

def returnByOwner (A : Answers) (me : String) (previous : VerifiedState) (remove : Option String)
    (standing : Standing) : Except RoomError (Standing × Bool) :=
  if previous.state.ownerUserId = me then returnMembers A remove standing else .ok (standing, false)

/-- A key under which a device of the person receives, unless it is of another device or another size. -/
def recipientKey (C : Crypto) (user : String) (identity : VerifiedIdentity) (key : RecipientKey) :
    Except Error (Option RecipientKey) := do
  reject (key.userId ≠ user) (.invalid "A room key belongs to another user.")
  match identity.devices[key.deviceId]? with
  | none => return none
  | some device =>
    let publicKey ← decode key.publicKey ROOM_PUBLIC_BYTES
    if publicKey.length ≠ ROOM_PUBLIC_BYTES then return none
    let preimage ← roomKeyProof user key.deviceId publicKey
    let signature ← decode key.signature 3309
    reject (¬C.verifySig device.sigPublicKey preimage signature)
      (.invalid "The room recipient key is not authentic.")
    return some key

def roomRecipients (C : Crypto) (A : Answers) (standing : Standing) : Except RoomError (List RecipientKey) :=
  standing.identities.toList.foldlM (fun recipients (user, identity) =>
    if user ∈ standing.replaced then return recipients
    else do
      let keys ← A.roomKeys user
      let found ← faults (keys.mapM (recipientKey C user identity))
      return recipients ++ found.reduceOption) []

/-- What is drawn at random for a state. -/
structure StateCoins where
  secret : Secret
  nonce : Bytes
  wraps : Nat → Coins

def wrapRoomState (K : Cipher) (state : State) (recipients : List RecipientKey) (key : Secret) (coins : Nat → Coins) :
    Except Error State := do
  let wrapped ← recipients.zipIdx.mapM fun (recipient, n) => do
    let publicKey ← decode recipient.publicKey ROOM_PUBLIC_BYTES
    wrap K state recipient.userId recipient.deviceId publicKey key (coins n)
  return { state with recipients := wrapped }

/-- Whether the one who made the key of the newest epoch is no longer a member. -/
def CachedRoom.keyMakerLeft (cached : CachedRoom) : Bool :=
  cached.states.getLast?.any fun current =>
    (cached.states.find? fun state => state.state.epoch = current.state.epoch).any fun opener =>
      opener.state.authorId ∉ current.state.members

def addMember (A : Answers) (add : Option String) (standing : Standing) : Except RoomError Standing :=
  match add with
  | none => .ok standing
  | some user => do
    let (bundle, identity) ← trustedMember A user
    return standing.insert user bundle identity

/-- The people of the next state: those of the newest one, with the one who is added and without the one who is
    removed. -/
def nextStanding (C : Crypto) (A : Answers) (me : String) (previous : VerifiedState) (created : Nat)
    (add remove : Option String) : Except RoomError (Standing × Bool) := do
  let standing ← roomStanding C A me previous created
  let (standing, returned) ← returnByOwner A me previous remove standing
  let standing ← addMember A add standing
  match remove with
  | none => return (standing, returned)
  | some user => return (standing.erase user, returned)

/-- The next state of a room, or none when nothing would change. -/
def nextRoomState (C : Crypto) (K : Cipher) (A : Answers) (credentials : Credentials) (room : Nat)
    (cached : CachedRoom) (add remove : Option String) (nowMs : Nat) (coins : StateCoins) :
    Except RoomError (Option State) := do
  let previous ← require (.invalid "Room keys are missing.") cached.states.getLast?
  let priorKey ← require (.invalid "Room keys are still arriving on this device.")
    cached.keys[previous.state.epoch]?
  let created := max nowMs previous.state.createdAtMs
  let (standing, returned) ← nextStanding C A credentials.userId previous created add remove
  let recipients ← roomRecipients C A standing
  let old := (previous.state.recipients.map fun r => (r.userId, r.deviceId)).toFinset
  let new := (recipients.map fun r => (r.userId, r.deviceId)).toFinset
  let rotate := cached.keyMakerLeft
  if add = none ∧ remove = none ∧ ¬returned ∧ ¬rotate ∧ old = new then return none
  let state : State := { previous.state with
    version := previous.state.version + 1
    previousHash := previous.hash
    authorId := credentials.userId
    deviceId := credentials.keys.deviceId
    createdAtMs := created
    members := standing.members }
  if remove.isSome ∨ returned ∨ rotate ∨ ¬old ⊆ new then
    let epoch := previous.state.epoch + 1
    let previousKey ← faults (sealPrevious K room epoch coins.secret priorKey coins.nonce)
    let state ← faults (wrapRoomState K { state with epoch, previousKey := some previousKey } recipients
      coins.secret coins.wraps)
    return some state
  else
    let state ← faults (wrapRoomState K state recipients priorKey coins.wraps)
    return some state

end Kodosi.Rooms
