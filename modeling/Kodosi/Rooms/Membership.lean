import Kodosi.Rooms.KeyLoads

/-! The server's side of a room: who is in it, who is invited, and the key states that members append. -/

namespace Kodosi.Rooms
open Kodosi.Lib Kodosi.Identity

structure ApiException where
  status : Nat
  message : String
  deriving DecidableEq

namespace ApiException

def invalid (message : String) : ApiException := ⟨400, message⟩
def forbidden (message : String) : ApiException := ⟨403, message⟩
def unauthorized : ApiException := forbidden "This operation is not authorized."
def missing : ApiException := ⟨404, "The requested resource is unavailable."⟩
def conflict (message : String) : ApiException := ⟨409, message⟩

/-- The server itself failed. -/
def unexpected : ApiException := ⟨500, ""⟩

end ApiException

/-! ### What the server stores -/

/-- What the server reads of a key state. -/
structure KeyStateBody where
  roomId : Nat
  ownerUserId : String
  authorId : String
  deviceId : String
  version : Nat
  epoch : Nat
  createdAtMs : Nat
  previousHash : String
  members : List String
  recipients : List Recipient
  previousKey : Option Sealed

/-- What is to be read of a state that a client wrote. -/
def State.forServer (s : State) : KeyStateBody :=
  ⟨s.roomId, s.ownerUserId, s.authorId, s.deviceId, s.version, s.epoch, s.createdAtMs, s.previousHash,
    s.members.keys, s.recipients, s.previousKey⟩

structure MissionKeyState extends KeyRow where
  epoch : Nat

structure MissionInvitation where
  id : Nat
  userId : String
  inviterUserId : String

/-- A room with its members but the owner, its open invitations and its key states. -/
structure Mission where
  id : Nat
  ownerUserId : String
  dosi : Bool
  members : List String
  invitations : List MissionInvitation
  keyVersion : Nat
  keys : List MissionKeyState

def Mission.new (id : Nat) (ownerUserId : String) (dosi : Bool) : Mission := ⟨id, ownerUserId, dosi, [], [], 0, []⟩

namespace Mission

def peopleOf (room : Mission) (invited : Bool) : List String :=
  room.ownerUserId :: room.members ++ if invited then room.invitations.map (·.userId) else []

def invitedUsers (room : Mission) : List String := room.invitations.map (·.userId)

end Mission

/-! ### Requests with a key state -/

structure ApprovedDevice where
  userId : String
  id : String
  signingPublicKey : Bytes

structure RoomKeyWrite where
  deviceId : String
  body : String
  signature : String

/-- A key state that a device of the user signed, as the server read it. -/
structure PreparedKeys (readBody : Bytes → Option KeyStateBody) (userId : String) where
  device : ApprovedDevice
  body : Bytes
  signature : Bytes
  state : KeyStateBody
  read : readBody body = some state
  author : state.authorId = userId
  signer : state.deviceId = device.id

def MaximumKeyStateBytes : Nat := 3 * 1024 * 1024
def MlDsa65SignatureLength : Nat := 3309
def MaxRoomRecipients : Nat := (16 + 1) * (64 + 1)

def limitsBase64 (text field : String) (max : Nat) : Except ApiException Bytes := do
  reject (text = "" ∨ (max + 2) / 3 * 4 < text.utf8ByteSize) (.invalid (field ++ " has an invalid length."))
  let bytes ← require (.invalid (field ++ " must be base64.")) (Base64.decode text)
  reject (max < bytes.length) (.invalid (field ++ " is too large."))
  return bytes

section

variable (C : Crypto) (readBody : Bytes → Option KeyStateBody)

/-- The key state of a request; `device` is the user's approved device of the id, if there is one. -/
def prepareKeys (device : Except ApiException ApprovedDevice) (userId : String) (request : Option RoomKeyWrite) :
    Except ApiException (Option (PreparedKeys readBody userId)) :=
  match request with
  | none => .ok none
  | some request => do
    let device ← device
    let body ← limitsBase64 request.body "Room keys" MaximumKeyStateBytes
    let signature ← limitsBase64 request.signature "Room signature" MlDsa65SignatureLength
    reject (¬C.verifySig device.signingPublicKey (STATE_DOMAIN ++ body) signature)
      (.forbidden "Invalid room signature.")
    match h : readBody body with
    | none => throw (.invalid "Invalid room data.")
    | some state =>
      if hauthor : state.authorId = userId ∧ state.deviceId = device.id ∧ 1 ≤ state.epoch then do
        reject (state.recipients = [] ∨ MaxRoomRecipients < state.recipients.length)
          (.invalid "Invalid room recipients.")
        return some ⟨device, body, signature, state, h, hauthor.1, hauthor.2.1⟩
      else throw (.conflict "Room keys changed; refresh before retrying.")

namespace Mission

/-- The first key state of a room is the owner's. -/
def checkFirst (room : Mission) (state : KeyStateBody) : Except ApiException Unit :=
  reject (state.authorId ≠ room.ownerUserId ∨ state.epoch ≠ 1 ∨ state.previousHash ≠ "")
    (.invalid "The room owner must create its first keys.")

/-- What a key state must keep of the one before. -/
def checkNext (room : Mission) (state : KeyStateBody) (previous : MissionKeyState) : Except ApiException Unit := do
  reject (state.previousHash ≠ digest C previous.body ∨ state.epoch < previous.epoch ∨
      previous.epoch + 1 < state.epoch) (.conflict "Room key history changed.")
  let old ← require (.invalid "Invalid room data.") (readBody previous.body)
  let added := state.members.filter (· ∉ old.members)
  let removed := old.members.filter (· ∉ state.members)
  reject (state.authorId ≠ room.ownerUserId ∧ (added ≠ [] ∨ ∃ user ∈ removed, user ≠ state.authorId)) .unauthorized
  reject (removed ≠ [] ∧ state.epoch ≠ previous.epoch + 1) (.invalid "Leaving members requires new room keys.")

def checkHistory (room : Mission) (state : KeyStateBody) : Except ApiException Unit :=
  if room.keyVersion = 0 then room.checkFirst state
  else do
    let previous ← require .unexpected (room.keys.find? (·.version = room.keyVersion))
    room.checkNext C readBody state previous

def appendKeys {userId : String} (room : Mission) (keys : Option (PreparedKeys readBody userId)) :
    Except ApiException Mission :=
  match keys with
  | none => do
    reject (room.keyVersion ≠ 0) (.conflict "Refresh the room before changing its members.")
    return room
  | some keys => do
    let state := keys.state
    reject (state.roomId ≠ room.id ∨ state.ownerUserId ≠ room.ownerUserId ∨ state.version ≠ room.keyVersion + 1)
      (.conflict "Room keys changed; refresh before retrying.")
    reject (state.members.toFinset ≠ (room.peopleOf true).toFinset)
      (.conflict "Room membership changed; refresh before retrying.")
    room.checkHistory C readBody state
    reject (∃ r ∈ state.recipients, r.userId ∉ state.members) (.invalid "Invalid room recipients.")
    return { room with
      keys := room.keys ++ [⟨⟨state.version, keys.body, keys.signature⟩, state.epoch⟩]
      keyVersion := state.version }

/-! ### The operations -/

/-- Who is an accepted friend of whom, and what the plans allow, when a request comes. -/
structure Surroundings where
  areFriends : String → String → Bool
  irrefl : ∀ user, areFriends user user = false
  tooManyInvitations : Bool
  tooManyRooms : Bool
  roomPeople : Nat

def roomFull (most : Nat) : ApiException :=
  let people := if most = 1 then "1 person" else most.repr ++ " people"
  .forbidden ("This room can have at most " ++ people ++ ", with its open invitations.")

def addInvitation (room : Mission) (id : Nat) (guest inviter : String) : Mission :=
  { room with invitations := room.invitations ++ [⟨id, guest, inviter⟩] }

def dropInvitation (room : Mission) (id : Nat) : Mission :=
  { room with invitations := room.invitations.filter (·.id ≠ id) }

def addMember (room : Mission) (user : String) : Mission :=
  if user ∈ room.members then room else { room with members := room.members ++ [user] }

/-- The person is in the room no more, and not invited. -/
def dropPerson (room : Mission) (user : String) : Mission :=
  { room with
    members := room.members.filter (· ≠ user)
    invitations := room.invitations.filter (·.userId ≠ user) }

def invite (around : Surroundings) (room : Mission) (userId : String) (id : Nat) (guest : String)
    (keys : Option (PreparedKeys readBody userId)) : Except ApiException Mission := do
  reject (userId ∉ room.peopleOf false) .missing
  reject (room.ownerUserId ≠ userId) .unauthorized
  reject (room.dosi = true) (.forbidden "Dosi's conversation belongs to you alone.")
  reject (¬around.areFriends userId guest) (.forbidden "Invite an accepted friend.")
  if guest ∈ room.members ∨ guest ∈ room.invitedUsers then return room
  reject (around.tooManyInvitations = true) (.conflict "This person has too many open room invitations.")
  reject (around.tooManyRooms = true) (.conflict "Leave a room before you join or make another.")
  reject (around.roomPeople ≤ (room.peopleOf true).length) (roomFull around.roomPeople)
  -- The id is the key of the table.
  reject (∃ x ∈ room.invitations, x.id = id) .unexpected
  (room.addInvitation id guest userId).appendKeys C readBody keys

def acceptInvitation (around : Surroundings) (room : Mission) (userId : String) (id : Nat) :
    Except ApiException Mission := do
  let invitation ← require .missing (room.invitations.find? fun x => x.id = id ∧ x.userId = userId)
  reject (¬around.areFriends room.ownerUserId userId) (.forbidden "This invitation is no longer available.")
  reject (userId ∉ room.members ∧ around.tooManyRooms = true) (.conflict "Leave a room before you join or make another.")
  return (room.addMember userId).dropInvitation invitation.id

def rejectInvitation (room : Mission) (userId : String) (id : Nat) (keys : Option (PreparedKeys readBody userId)) :
    Except ApiException Mission := do
  let invitation ← require .missing (room.invitations.find? fun x => x.id = id ∧ x.userId = userId)
  (room.dropInvitation invitation.id).appendKeys C readBody keys

def removeMember (room : Mission) (actor userId : String) (keys : Option (PreparedKeys readBody actor)) :
    Except ApiException Mission := do
  reject (actor ∉ room.peopleOf false) .missing
  reject (userId = room.ownerUserId) (.invalid "The owner cannot leave the room. Delete it instead.")
  reject (actor ≠ userId ∧ room.ownerUserId ≠ actor) .unauthorized
  (room.dropPerson userId).appendKeys C readBody keys

def storeKeys (room : Mission) (userId : String) (keys : Option (PreparedKeys readBody userId)) :
    Except ApiException Mission := do
  reject (userId ∉ room.peopleOf false) .missing
  room.appendKeys C readBody keys

/-- What the deletion of an account leaves of a room. -/
def deleteAccount (room : Mission) (user : String) : Option Mission :=
  if room.ownerUserId = user then none
  else some { room with
    members := room.members.filter (· ≠ user)
    invitations := room.invitations.filter fun x => x.userId ≠ user ∧ x.inviterUserId ≠ user }

end Mission

inductive MissionEvent where
  | invite (around : Mission.Surroundings) (userId : String) (id : Nat) (guest : String)
      (keys : Option (PreparedKeys readBody userId))
  | accept (around : Mission.Surroundings) (userId : String) (id : Nat)
  | refuse (userId : String) (id : Nat) (keys : Option (PreparedKeys readBody userId))
  | removeMember (actor userId : String) (keys : Option (PreparedKeys readBody actor))
  | storeKeys (userId : String) (keys : Option (PreparedKeys readBody userId))
  | deleteAccount (user : String)

variable {readBody}

/-- What a request does to a room: one that fails leaves it as it is, and a room whose owner's account is deleted
    is gone. -/
def Mission.next (room : Mission) : MissionEvent readBody → Option Mission
  | .invite around userId id guest keys => ((room.invite C readBody around userId id guest keys).toOption).getD room
  | .accept around userId id => ((room.acceptInvitation around userId id).toOption).getD room
  | .refuse userId id keys => ((room.rejectInvitation C readBody userId id keys).toOption).getD room
  | .removeMember actor userId keys => ((room.removeMember C readBody actor userId keys).toOption).getD room
  | .storeKeys userId keys => ((room.storeKeys C readBody userId keys).toOption).getD room
  | .deleteAccount user => room.deleteAccount user

/-- A step of a room that is still there afterwards. -/
def Mission.Step (room : Mission) (e : MissionEvent readBody) (room' : Mission) : Prop :=
  room.next C e = some room'

end

end Kodosi.Rooms
