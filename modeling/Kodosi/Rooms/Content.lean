import Kodosi.Rooms.Membership
import Kodosi.Rooms.Signatures

/-! The content of a room on the server: messages, tasks and repositories with their versions and sequences, and a count of
    their bytes that is kept by hand. A write is made under the lock of the room's row. -/

namespace Kodosi.Rooms
open Kodosi.Lib Kodosi.Identity

def MaximumItemBytes : Nat := 64 * 1024
def DosiRoomBytes : Int := 4 * 1024 * 1024
def MaximumItems : Nat := 4096
def TrimPage : Nat := 64
def LONG_MAX : Int := 2 ^ 63 - 1

/-- A sum of two `long`s. -/
def addLong (a b : Int) : Int := (a + b).bmod (2 ^ 64)

structure MissionItem where
  id : Nat
  kind : String
  version : Int
  sequence : Int
  keyVersion : Int
  body : Bytes
  signature : Bytes
  userId : String
  deviceId : String
  createdAt : Int
  deriving DecidableEq

def MissionItem.size (item : MissionItem) : Int := (item.body.length : Int) + item.signature.length

structure ContentBody where
  roomId : Nat
  id : Nat
  kind : String
  version : Int
  keyVersion : Int
  epoch : Int
  authorId : String
  deviceId : String
  nonce : String
  ciphertext : String

structure ContentWrite where
  expectedVersion : Int
  deviceId : String
  body : String
  signature : String

/-- What the row of a room and its items say of its content. -/
structure RoomContent where
  items : List MissionItem
  contentSequence : Int
  contentBytes : Int
  historyTrimmed : Bool

def RoomContent.new : RoomContent := ⟨[], 0, 0, false⟩

/-- What the rest of the database says when a write holds the lock. -/
structure RoomFacts where
  exists' : Bool
  member : Bool
  dosi : Bool
  keyVersion : Int
  epoch : Int → Option Int
  planned : Option Int
  now : Int

/-- A write that was checked before it asked for the lock. -/
structure CheckedWrite where
  itemId : Nat
  userId : String
  deviceId : String
  expectedVersion : Int
  body : Bytes
  signature : Bytes
  content : ContentBody
  next : content.version = addLong expectedVersion 1

/-! ### Before the lock -/

def checkContent (C : Crypto) (readBody : Bytes → Option ContentBody) (requireDevice : String → Except ApiException ApprovedDevice)
    (id itemId : Nat) (userId : String) (request : ContentWrite) (signer : Option ApprovedDevice) :
    Except ApiException CheckedWrite := do
  let device ← match signer.filter fun signer => signer.userId = userId ∧ signer.id = request.deviceId with
    | some signer => .ok signer
    | none => requireDevice request.deviceId
  let body ← limitsBase64 request.body "Room content" MaximumItemBytes
  let signature ← limitsBase64 request.signature "Content signature" MlDsa65SignatureLength
  reject (¬C.verifySig device.signingPublicKey (CONTENT_DOMAIN ++ body) signature)
    (.forbidden "Invalid room content signature.")
  let content ← require (.invalid "Invalid room data.") (readBody body)
  reject (content.kind ∉ ["message", "task", "repository"] ∨ content.roomId ≠ id ∨ content.id ≠ itemId ∨
      content.authorId ≠ userId ∨ content.deviceId ≠ device.id ∨ request.expectedVersion < 0)
    (.invalid "Invalid room content identity.")
  if hnext : content.version = addLong request.expectedVersion 1 then do
    let nonce ← limitsBase64 content.nonce "Content nonce" 12
    reject (nonce.length ≠ 12) (.invalid "Invalid encrypted room content.")
    let ciphertext ← limitsBase64 content.ciphertext "Encrypted content" MaximumItemBytes
    reject (ciphertext.length < 16) (.invalid "Invalid encrypted room content.")
    return ⟨itemId, userId, device.id, request.expectedVersion, body, signature, content, hnext⟩
  else throw (.invalid "Invalid room content identity.")

/-! ### Trimming -/

/-- What a trim has found so far. -/
structure Trim where
  removed : List Nat
  freed : Int
  after : Int

namespace RoomContent

/-- The messages of a room, the oldest first. -/
def messages (room : RoomContent) : List MissionItem :=
  (room.items.filter (·.kind = "message")).mergeSort fun a b => a.sequence ≤ b.sequence

def page (room : RoomContent) (after : Int) : List MissionItem :=
  (room.messages.filter (after < ·.sequence)).take TrimPage

/-- Takes messages of a page while more has to be freed. -/
def takeOldest (excess : Int) : List MissionItem → Trim → Trim
  | [], t => t
  | m :: rest, t =>
    if t.freed < excess then takeOldest excess rest ⟨t.removed ++ [m.id], t.freed + m.size, m.sequence⟩ else t

/-- Page after page; a page takes at least one message. -/
def trimPages (room : RoomContent) (excess : Int) : Nat → Trim → Except ApiException Trim
  | 0, _ => .error .unexpected
  | n + 1, t =>
    if t.freed < excess then
      match room.page t.after with
      | [] => .error (.forbidden
          "This room is full, because its tasks and repositories use all of its space. Make a new room to continue.")
      | page => room.trimPages excess n (takeOldest excess page t)
    else .ok t

/-- The room without its oldest messages, whose bytes fit into `most` then. -/
def trimHistory (room : RoomContent) (most : Int) : Except ApiException RoomContent := do
  let trim ← room.trimPages (room.contentBytes - most) (room.messages.length + 1) ⟨[], 0, 0⟩
  return { room with
    items := room.items.filter (·.id ∉ trim.removed)
    contentBytes := room.contentBytes - trim.freed
    historyTrimmed := true }

/-! ### Under the lock -/

/-- How many bytes the room may hold. -/
def most (facts : RoomFacts) : Option Int :=
  if facts.dosi then some (min (facts.planned.getD DosiRoomBytes) DosiRoomBytes) else facts.planned

def makeRoom (facts : RoomFacts) (room : RoomContent) : Except ApiException RoomContent :=
  match most facts with
  | some most => if most < room.contentBytes then room.trimHistory most else .ok room
  | none => .ok room

def replace (room : RoomContent) (item : MissionItem) (existing : Option MissionItem) : List MissionItem :=
  match existing with
  | some old => room.items.map fun x => if x.id = old.id then item else x
  | none => room.items ++ [item]

/-- What a write makes of the room that it locked; a retry of what is stored makes nothing of it. -/
def putContent (room : RoomContent) (facts : RoomFacts) (w : CheckedWrite) :
    Except ApiException (RoomContent × MissionItem) := do
  reject (¬facts.exists') .missing
  reject (¬facts.member) .missing
  let existing := room.items.find? (·.id = w.itemId)
  match existing.filter fun old => old.body = w.body ∧ old.signature = w.signature with
  | some old => return (room, old)
  | none =>
    reject (facts.keyVersion = 0 ∨ w.content.keyVersion ≠ facts.keyVersion)
      (.conflict "Room keys changed; refresh before posting.")
    let epoch ← require .unexpected (facts.epoch w.content.keyVersion)
    reject (w.content.epoch ≠ epoch) (.invalid "The content belongs to another room key epoch.")
    reject ((existing.map (·.version)).getD 0 ≠ w.expectedVersion ∨
        existing.any fun old => old.kind ≠ w.content.kind ∨ w.content.kind = "message")
      (.conflict "This room item changed; refresh before retrying.")
    reject (existing.isNone ∧ w.content.kind ≠ "message" ∧ MaximumItems ≤ room.items.countP (·.kind = w.content.kind))
      (.conflict "The room has reached its item limit.")
    let size : Int := w.body.length + w.signature.length
    let counted := { room with contentBytes := room.contentBytes + (size - (existing.map MissionItem.size).getD 0) }
    let trimmed ← makeRoom facts counted
    reject (LONG_MAX < trimmed.contentSequence + 1) .unexpected
    let sequence := trimmed.contentSequence + 1
    let item : MissionItem := ⟨w.itemId, w.content.kind, w.content.version, sequence, w.content.keyVersion, w.body,
      w.signature, w.userId, w.deviceId, (existing.map (·.createdAt)).getD facts.now⟩
    return ({ trimmed with items := trimmed.replace item existing, contentSequence := sequence }, item)

end RoomContent

/-! ### Calls -/

/-- The calls on one room: each waits for the lock of the row when it was checked, reads the room under it, and commits
    what it made of what it read, or nothing. -/
structure ContentServer where
  room : RoomContent
  waiting : List (Nat × CheckedWrite)
  holder : Option (Nat × CheckedWrite × RoomContent)

inductive ContentEvent where
  | call (id itemId : Nat) (userId : String) (request : ContentWrite) (signer : Option ApprovedDevice) (number : Nat)
  | lock (number : Nat)
  | finish (facts : RoomFacts)

namespace ContentServer

def new : ContentServer := ⟨.new, [], none⟩

variable (C : Crypto) (readBody : Bytes → Option ContentBody) (requireDevice : String → Except ApiException ApprovedDevice)

def step (s : ContentServer) : ContentEvent → ContentServer
  | .call id itemId userId request signer number =>
    match checkContent C readBody requireDevice id itemId userId request signer with
    | .ok w => { s with waiting := s.waiting ++ [(number, w)] }
    | .error _ => s
  | .lock number =>
    match s.holder, s.waiting.find? (·.1 = number) with
    | none, some (_, w) => { s with
        holder := some (number, w, s.room)
        waiting := s.waiting.eraseP (·.1 = number) }
    | _, _ => s
  | .finish facts =>
    match s.holder with
    | none => s
    | some (_, w, read) =>
      match read.putContent facts w with
      | .ok (room, _) => { s with room, holder := none }
      | .error _ => { s with holder := none }

end ContentServer

end Kodosi.Rooms
