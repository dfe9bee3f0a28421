import Kodosi.Lib.Run
import Kodosi.Rooms.Keys

/-! The calls of one device that load the keys of its rooms, each in its own time, with the server that keeps
    the key states of the rooms, the cache of the device and the file of the heads it has seen. -/

namespace Kodosi.Rooms
open Kodosi.Lib Kodosi.Identity

/-! ### The server -/

/-- A stored key state. -/
structure KeyRow where
  version : Nat
  body : Bytes
  signature : Bytes

def KeyRow.size (row : KeyRow) : Nat := row.body.length + row.signature.length

def KeyHistoryPageBytes : Nat := 4 * 1024 * 1024
def KeyHistoryPageStates : Nat := 256

/-- Where a page ends: at the first state with which it would be too large, but never before the first one. -/
def lastOfPage (afterVersion : Nat) : Nat → Nat → List KeyRow → Nat
  | _, last, [] => last
  | bytes, last, state :: sizes =>
    if last ≠ afterVersion ∧ KeyHistoryPageBytes < bytes + state.size then last
    else lastOfPage afterVersion (bytes + state.size) state.version sizes

def stateDto (state : KeyRow) : SignedState :=
  ⟨state.version, Base64.encode state.body, Base64.encode state.signature⟩

/-- The key states behind a version, as many as fit a page. -/
def keyStates (rows : List KeyRow) (afterVersion : Nat) : List SignedState :=
  let sizes := (rows.filter (afterVersion < ·.version)).take KeyHistoryPageStates
  let last := lastOfPage afterVersion 0 afterVersion sizes
  let states := if last = afterVersion then []
    else rows.filter fun row => afterVersion < row.version ∧ row.version ≤ last
  states.map stateDto

structure KeyHistory where
  ownerUserId : String
  members : List String
  version : Nat
  states : List SignedState

/-! ### The device -/

structure Login where
  userId : String
  keys : DeviceKeys

structure Credentials extends Login where
  generation : Nat

/-- The states of a room in the order of their versions, the keys of its epochs, and when its linked issues
    and its members were last looked at. -/
structure CachedRoom where
  states : List VerifiedState
  keys : Std.TreeMap Nat Secret
  issuesChecked : Option Nat
  membersChecked : Option Nat

def CachedRoom.start : CachedRoom := ⟨[], ∅, none, none⟩

def CachedRoom.version (cached : CachedRoom) : Option Nat := cached.states.getLast?.map (·.state.version)

structure RoomCache where
  generation : Nat
  rooms : Std.TreeMap Nat CachedRoom
  registered : Option String

def RoomCache.start : RoomCache := ⟨0, ∅, none⟩

/-- The newest state of a room that the device ever stored. -/
structure Head where
  version : Nat
  hash : String
  ownerRoot : Option Root

abbrev Heads := Map (Std.TreeMap Nat Head)

/-- How a call to load keys fails. -/
inductive KeyError where
  | older | setup | freshStart | incomplete | limit | missing | stale | headsLimit | changed
  | state (e : Error)
  /-- Another error of the server or the disk. -/
  | outside

def KeyError.message : KeyError → Option String
  | .older => some "The server returned an older room."
  | .setup => some "The room changed during setup. Open it again."
  | .freshStart =>
    some "You made this room before you started fresh. Delete it and make a new room."
  | .incomplete => some "Room key history is incomplete."
  | .limit => some "The room key history exceeds its limit."
  | .missing => some "Room keys are missing."
  | .headsLimit => some "Saved room history exceeds its limit."
  | .changed => some "The room history changed unexpectedly."
  | .stale | .state _ | .outside => none

/-- What a call waits for: to have the device's room key registered, to ask the server, for the server to
    read the states after it read the version, for the answer, for the first keys of the room, or to store
    what it verified. -/
inductive Phase where
  | registering
  | asking (cached : CachedRoom) (attempts : Nat)
  | reading (cached : CachedRoom) (attempts : Nat) (ownerUserId : String) (members : List String) (version : Nat)
  | answered (cached : CachedRoom) (attempts : Nat) (history : KeyHistory)
  | initializing (cached : CachedRoom) (attempts : Nat)
  | remembering (cached : CachedRoom)
  | done (result : Except KeyError CachedRoom)

/-- A call of `room_keys`. -/
structure Call where
  credentials : Credentials
  room : Nat
  phase : Phase

/-- What the program takes from outside: its libraries, how long the text of the heads is, and who is logged
    in under each generation. -/
structure Setup where
  crypto : Crypto
  cipher : Cipher
  parse : Bytes → Except Error State
  length : Heads → Nat
  login : Nat → Login

/-! ### Reading and storing -/

def headOf (heads : Heads) (user : String) (room : Nat) : Option Head := heads[user]?.bind (·[room]?)

def roomHeads (S : Setup) (heads : Heads) (readable : Bool) : Except KeyError Heads :=
  if ¬readable then .error .outside
  else if 1024 * 1024 < S.length heads then .error .headsLimit
  else .ok heads

/-- The root under which the first state of a room is read: the owner's in the first cached state, or in the
    head, or else the one that is pinned or fetched. -/
def roomAnchor (S : Setup) (heads : Heads) (readable : Bool) (outside : Except Error Root) (userId : String)
    (room : Nat) (cached : CachedRoom) (owner : String) : Except KeyError Root :=
  match cached.states.head? with
  | some first =>
    match first.state.members[owner]? with
    | none => .error (.state (.invalid "Room owner identity is missing."))
    | some bundle => (bundle.root S.crypto).mapError .state
  | none =>
    match roomHeads S heads readable with
    | .error e => .error e
    | .ok heads =>
      match (headOf heads userId room).bind (·.ownerRoot) with
      | some saved => .ok saved
      | none => outside.mapError .state

/-- Verifies a state behind those that are cached and opens its key. -/
def absorbState (S : Setup) (credentials : Credentials) (nowMs : Nat) (room : Nat) (owner : String) (anchor : Root)
    (cached : CachedRoom) (signed : SignedState) : Except KeyError CachedRoom :=
  match verifyState S.crypto S.parse nowMs signed room owner anchor cached.states.getLast? with
  | .error (.trust reason) =>
    .error (if cached.states = [] ∧ owner = credentials.userId then .freshStart else .state (.trust reason))
  | .error e => .error (.state e)
  | .ok verified =>
    let keys := match unwrap S.cipher verified.state credentials.userId credentials.keys with
      | .ok key => cached.keys.insert verified.state.epoch key
      | .error _ => cached.keys
    .ok { cached with states := cached.states ++ [verified], keys }

/-- What a call does with an answer of the server. -/
def takeHistory (S : Setup) (heads : Heads) (readable : Bool) (outside : Except Error Root) (nowMs : Nat)
    (credentials : Credentials) (room : Nat) (cached : CachedRoom) (attempts : Nat) (history : KeyHistory) : Phase :=
  let after := cached.version.getD 0
  if history.version < after then .done (.error .older)
  else if history.version = 0 then
    if 3 < attempts + 1 then .done (.error .setup) else .initializing cached (attempts + 1)
  else match roomAnchor S heads readable outside credentials.userId room cached history.ownerUserId with
  | .error e => .done (.error e)
  | .ok anchor =>
    if history.states = [] ∧ after < history.version then .done (.error .incomplete)
    else match history.states.foldlM (absorbState S credentials nowMs room history.ownerUserId anchor) cached with
    | .error e => .done (.error e)
    | .ok cached =>
      if cached.version = some history.version then .remembering cached
      else if 16384 < cached.states.length then .done (.error .limit)
      else .asking cached attempts

/-- The keys of the epochs before, each opened with the key of the epoch behind it. -/
def openEarlier (K : Cipher) (cached : CachedRoom) : Except Error (Std.TreeMap Nat Secret) :=
  cached.states.reverse.foldlM (fun keys state =>
    if 1 < state.state.epoch then
      match keys[state.state.epoch]? with
      | some current => do
        let previous ← openPrevious K state.state current
        return keys.insert (state.state.epoch - 1) previous
      | none => return keys
    else return keys) cached.keys

/-- The later one of two times. -/
def later : Option Nat → Option Nat → Option Nat
  | none, time => time
  | time, none => time
  | some a, some b => some (max a b)

/-- Whether a head is of another history than the states that a call read. -/
def Head.conflicts (head : Head) (current : State) (cached : CachedRoom) : Bool :=
  current.version < head.version ||
    (cached.states.find? fun state => state.state.version = head.version).any fun state => state.hash ≠ head.hash

def CachedRoom.head (C : Crypto) (cached : CachedRoom) (current : VerifiedState) : Head :=
  ⟨current.state.version, current.hash, cached.states.head?.bind fun first =>
    first.state.members[first.state.ownerUserId]?.bind fun owner => (owner.root C).toOption⟩

/-- The times that the cache has of the room are kept when they are later. -/
def CachedRoom.timesOf (cached : CachedRoom) : Option CachedRoom → CachedRoom
  | none => cached
  | some existing =>
    { cached with
      issuesChecked := later cached.issuesChecked existing.issuesChecked
      membersChecked := later cached.membersChecked existing.membersChecked }

/-- Stores what a call verified, first the head and then the states. -/
def rememberRoom (S : Setup) (heads : Heads) (cache : RoomCache) (readable : Bool) (save : Save)
    (credentials : Credentials) (room : Nat) (cached : CachedRoom) :
    Except KeyError CachedRoom × Heads × RoomCache :=
  if cache.generation ≠ credentials.generation then (.error .stale, heads, cache)
  else match cached.states.getLast?, roomHeads S heads readable with
  | none, _ => (.error .missing, heads, cache)
  | _, .error e => (.error e, heads, cache)
  | some current, .ok heads =>
    if (headOf heads credentials.userId room).any (·.conflicts current.state cached) then
      (.error .changed, heads, cache)
    else
      let known := (heads[credentials.userId]?.getD ∅).insert room (cached.head S.crypto current)
      let next := heads.insert credentials.userId known
      match save with
      | .failed renamed => (.error .outside, if renamed then next else heads, cache)
      | .done =>
        match openEarlier S.cipher cached with
        | .error e => (.error (.state e), next, cache)
        | .ok keys =>
          let cached := { cached with keys }.timesOf cache.rooms[room]?
          (.ok cached, next, { cache with rooms := cache.rooms.insert room cached })

/-! ### All calls together -/

structure World where
  server : Nat → List KeyRow
  heads : Heads
  cache : RoomCache
  calls : Nat → Option Call

def World.start : World := ⟨fun _ => [], ∅, .start, fun _ => none⟩

inductive LoadEvent where
  /-- The server appends a state to the keys of a room. -/
  | append (room : Nat) (body signature : Bytes)
  | begin (call generation room : Nat)
  | registered (call : Nat)
  | readRoom (call : Nat) (ownerUserId : String) (members : List String)
  | readStates (call : Nat)
  | take (call nowMs : Nat) (readable : Bool) (outside : Except Error Root)
  | initialized (call : Nat)
  | remember (call : Nat) (readable : Bool) (save : Save)
  /-- The server or the network fails a call. -/
  | fail (call : Nat)
  | markMembersChecked (room now : Nat)
  | markIssuesChecked (room now : Nat)
  | forgetRoom (room : Nat)
  /-- The program starts again: what it had in memory is gone. -/
  | restart

/-- The call that an event is of. -/
def LoadEvent.call? : LoadEvent → Option Nat
  | .registered call | .readRoom call _ _ | .readStates call | .take call _ _ _ | .initialized call
  | .remember call _ _ | .fail call => some call
  | _ => none

namespace World

def setPhase (w : World) (call : Nat) (c : Call) (phase : Phase) : World :=
  { w with calls := Function.update w.calls call (some { c with phase }) }

def cachedRoom (w : World) (room : Nat) : CachedRoom := w.cache.rooms[room]?.getD .start

def credentials (S : Setup) (generation : Nat) : Credentials := ⟨S.login generation, generation⟩

/-- The cache of a login; it is emptied when another login comes. -/
def cacheFor (w : World) (generation : Nat) : RoomCache :=
  if w.cache.generation = generation then w.cache else { RoomCache.start with generation }

def begin (S : Setup) (w : World) (call generation room : Nat) : World :=
  let w := { w with cache := w.cacheFor generation }
  let c : Call := ⟨credentials S generation, room, .registering⟩
  if w.cache.registered = some c.credentials.keys.deviceId then
    w.setPhase call c (.asking (w.cachedRoom room) 0)
  else w.setPhase call c .registering

def changeRoom (w : World) (room : Nat) (change : CachedRoom → CachedRoom) : World :=
  match w.cache.rooms[room]? with
  | none => w
  | some cached => { w with cache := { w.cache with rooms := w.cache.rooms.insert room (change cached) } }

/-- What one call does with an event of its own. -/
def callNext (S : Setup) (w : World) (call : Nat) (c : Call) : LoadEvent → World
  | .registered _ =>
    match c.phase with
    | .registering =>
      let w := { w with cache := { w.cache with registered := some c.credentials.keys.deviceId } }
      w.setPhase call c (.asking (w.cachedRoom c.room) 0)
    | _ => w
  | .readRoom _ owner members =>
    match c.phase with
    | .asking cached attempts => w.setPhase call c (.reading cached attempts owner members (w.server c.room).length)
    | _ => w
  | .readStates _ =>
    match c.phase with
    | .reading cached attempts owner members version =>
      w.setPhase call c (.answered cached attempts
        ⟨owner, members, version, keyStates (w.server c.room) (cached.version.getD 0)⟩)
    | _ => w
  | .take _ nowMs readable outside =>
    match c.phase with
    | .answered cached attempts history =>
      w.setPhase call c (takeHistory S w.heads readable outside nowMs c.credentials c.room cached attempts history)
    | _ => w
  | .initialized _ =>
    match c.phase with
    | .initializing cached attempts => w.setPhase call c (.asking cached attempts)
    | _ => w
  | .remember _ readable save =>
    match c.phase with
    | .remembering cached =>
      let (result, heads, cache) := rememberRoom S w.heads w.cache readable save c.credentials c.room cached
      { w with heads, cache }.setPhase call c (.done result)
    | _ => w
  | .fail _ =>
    match c.phase with
    | .done _ | .remembering _ => w
    | _ => w.setPhase call c (.done (.error .outside))
  | _ => w

def next (S : Setup) (w : World) (e : LoadEvent) : World :=
  match e with
  | .append room body signature =>
    let row : KeyRow := ⟨(w.server room).length + 1, body, signature⟩
    { w with server := Function.update w.server room (w.server room ++ [row]) }
  | .begin call generation room => if (w.calls call).isNone then w.begin S call generation room else w
  | .markMembersChecked room now => w.changeRoom room fun cached => { cached with membersChecked := some now }
  | .markIssuesChecked room now => w.changeRoom room fun cached => { cached with issuesChecked := some now }
  | .forgetRoom room => { w with cache := { w.cache with rooms := w.cache.rooms.erase room } }
  | .restart => { w with cache := .start, calls := fun _ => none }
  | e => (e.call?.bind fun call => (w.calls call).map fun c => w.callNext S call c e).getD w

end World

end Kodosi.Rooms
