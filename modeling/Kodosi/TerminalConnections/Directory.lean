import Kodosi.Lib.Checks
import Kodosi.Lib.Dictionary

/-! The server's directory of device connections: the devices that are connected, the terminals that they host, and the pipes
    between the viewers and the hosts. What a call sees of the world outside is which connections are open. -/

namespace Kodosi.TerminalConnections
open Kodosi.Lib

def MaximumDeviceConnections : Nat := 20000
def MaximumHostedTerminals : Nat := 65536
def MaximumSessionPipes : Nat := 64
def MaximumDevicePipes : Nat := 256
def MaximumCalls : Nat := 16
def MaxDevicesPerUser : Nat := 16

abbrev Guid := BitVec 128

def Guid.Empty : Guid := 0

/-- What a call throws: an error for the caller, or that a key is not in an index. -/
inductive Thrown where
  | api (status : Nat) (message : String)
  | keyNotFound
  deriving DecidableEq

def conflict (message : String) : Thrown := .api 409 message

/-! ### Connections and pipes -/

/-- The connection of one device: an object, so `ref` is its identity. -/
structure DeviceConnection where
  ref : Nat
  userId : Guid
  deviceId : String
  hosts : Bool
  deriving DecidableEq

structure Pipe where
  id : Guid
  sessionId : Guid
  viewer : DeviceConnection
  host : DeviceConnection
  deriving DecidableEq

def Pipe.isCall (pipe : Pipe) : Bool := pipe.sessionId = Guid.Empty

structure TerminalStatus where
  program : Option String
  state : Option String
  kind : Option String
  deriving DecidableEq

/-- A terminal as the database has it: each one is added with an id. -/
structure Session where
  id : Guid
  incarnationId : Guid
  named : id ≠ Guid.Empty

inductive ServerMessage where
  | viewer (pipe sessionId userId : Guid) (deviceId : String)
  | caller (pipe userId : Guid) (deviceId : String)
  | hosts (deviceIds : List String)
  | accessChanged (sessionId : Guid)
  | closed (pipe : Guid) (status : Nat) (message : String)
  deriving DecidableEq

abbrev Sent := List (DeviceConnection × ServerMessage)

/-! ### The directory -/

abbrev EntryRef := Nat

/-- What the directory has of one connection. -/
structure Entry where
  connection : DeviceConnection
  hosted : List Guid
  pipes : List Guid
  views : Int
  calls : Int
  ready : Bool

def Entry.new (connection : DeviceConnection) : Entry := ⟨connection, [], [], 0, 0, false⟩

/-- What the directory has of one terminal. Its host is an entry object. -/
structure Hosted where
  incarnationId : Guid
  host : EntryRef
  status : Option TerminalStatus
  pipes : List Guid

/-- The indexes, and the entry objects that they refer to. -/
structure Directory where
  accounts : Dictionary Guid (Dictionary String EntryRef)
  entries : Dictionary DeviceConnection EntryRef
  hosted : Dictionary Guid Hosted
  pipes : Dictionary Guid Pipe
  heap : EntryRef → Entry
  next : EntryRef

def Directory.empty : Directory := ⟨∅, ∅, ∅, ∅, fun _ => .new ⟨0, Guid.Empty, "", false⟩, 0⟩

/-- A pipe that ended: what its ends are told, but for the one that ended it. -/
structure Ended where
  pipe : Pipe
  status : Nat
  message : String
  silent : Option DeviceConnection

/-- What a call sent while it held the lock, and what it does after that. -/
structure AfterUnlock where
  sent : Sent
  pipes : List Ended
  aborted : List DeviceConnection
  changed : List Guid

namespace AfterUnlock

def none : AfterUnlock := ⟨[], [], [], []⟩

def send (after : AfterUnlock) (sent : Sent) : AfterUnlock := { after with sent := after.sent ++ sent }

def endPipe (after : AfterUnlock) (ended : Ended) : AfterUnlock := { after with pipes := after.pipes ++ [ended] }

def abort (after : AfterUnlock) (connection : DeviceConnection) : AfterUnlock :=
  { after with aborted := after.aborted ++ [connection] }

def change (after : AfterUnlock) (sessionId : Guid) : AfterUnlock := { after with changed := after.changed ++ [sessionId] }

end AfterUnlock

/-- The notices of one pipe that ended. -/
def Ended.notices (ended : Ended) : Sent :=
  let closed := ServerMessage.closed ended.pipe.id ended.status ended.message
  (if some ended.pipe.viewer ≠ ended.silent then [(ended.pipe.viewer, closed)] else []) ++
    if some ended.pipe.host ≠ ended.silent ∧ ended.pipe.host ≠ ended.pipe.viewer then [(ended.pipe.host, closed)] else []

/-- The notices that are sent when the lock is free. -/
def AfterUnlock.apply (after : AfterUnlock) : Sent := after.pipes.flatMap Ended.notices

namespace Directory

variable (isOpen : DeviceConnection → Bool) (d : Directory)

def device (userId : Guid) (deviceId : String) : Option EntryRef :=
  (d.accounts.lookup userId).bind fun devices => devices.lookup deviceId

def updateEntry (r : EntryRef) (f : Entry → Entry) : Directory :=
  { d with heap := Function.update d.heap r (f (d.heap r)) }

/-- Changes the entry of a connection that is registered. -/
def updateRegistered (connection : DeviceConnection) (f : Entry → Entry) : Directory :=
  (d.entries.lookup connection).elim d fun r => d.updateEntry r f

/-! ### Ending pipes -/

def removePipeLocked (pipe : Pipe) : Directory × Bool :=
  if d.pipes.lookup pipe.id = some pipe then
    let d := { d with
      pipes := d.pipes.erase pipe.id
      hosted := d.hosted.modify pipe.sessionId fun live => { live with pipes := live.pipes.erase pipe.id } }
    let d := d.updateRegistered pipe.viewer fun viewer =>
      { viewer with pipes := viewer.pipes.erase pipe.id, views := viewer.views - 1 }
    let d := d.updateRegistered pipe.host fun host =>
      { host with pipes := host.pipes.erase pipe.id, calls := if pipe.isCall then host.calls - 1 else host.calls }
    (d, true)
  else (d, false)

/-- Ends one pipe, and says so to its ends. -/
def endPipe (ended : Pipe → Ended) (state : Directory × AfterUnlock) (pipe : Pipe) : Directory × AfterUnlock :=
  let (d, removed) := state.1.removePipeLocked pipe
  (d, if removed then state.2.endPipe (ended pipe) else state.2)

/-- The pipes under some ids, looked up by index. -/
def pipesOf (ids : List Guid) : Except Thrown (List Pipe) := ids.mapM fun id => require .keyNotFound (d.pipes.lookup id)

def endPipesLocked (ids : List Guid) (status : Nat) (message : String) (after : AfterUnlock) :
    Except Thrown (Directory × AfterUnlock) := do
  let pipes ← d.pipesOf ids
  pure (pipes.foldl (endPipe fun pipe => ⟨pipe, status, message, none⟩) (d, after))

def removeHostedLocked (sessionId : Guid) (live : Hosted) (status : Nat) (message : String) (after : AfterUnlock) :
    Except Thrown (Directory × AfterUnlock) := do
  let d := { d with hosted := d.hosted.erase sessionId }
  let d := d.updateEntry live.host fun host => { host with hosted := host.hosted.erase sessionId }
  let (d, after) ← d.endPipesLocked live.pipes status message after
  pure (d, after.change sessionId)

/-- The terminal is gone, not its host. -/
def removeSessionLocked (sessionId : Guid) (live : Hosted) (after : AfterUnlock) : Except Thrown (Directory × AfterUnlock) :=
  d.removeHostedLocked sessionId live 404 "This terminal is no longer available." after

/-! ### Detaching -/

def tellHostsLocked (userId : Guid) (only : Option DeviceConnection) : Sent :=
  (d.accounts.lookup userId).elim [] fun devices =>
    let ready := (devices.entries.map fun device => d.heap device.2).filter (·.ready)
    let hosts := (ready.filter fun entry => entry.connection.hosts && isOpen entry.connection).map (·.connection.deviceId)
    let notice := ServerMessage.hosts (hosts.insertionSort (· ≤ ·))
    (ready.filter fun entry => only.all (entry.connection = ·)).map fun entry => (entry.connection, notice)

/-- What the ends of a pipe are told when the connection of one of them is lost. -/
def lostWith (connection : DeviceConnection) (pipe : Pipe) : Ended :=
  if pipe.host = connection then
    ⟨pipe, 409, if pipe.isCall then "That computer is not online." else "The host is offline.", some connection⟩
  else ⟨pipe, 0, "", some connection⟩

/-- Takes the device of a connection out of its account, and the account with its last device. -/
def leaveAccount (connection : DeviceConnection) (entry : EntryRef) : Directory :=
  (d.accounts.lookup connection.userId).elim d fun devices =>
    if devices.lookup connection.deviceId = some entry then
      let devices := devices.erase connection.deviceId
      { d with accounts :=
          if devices.entries.length = 0 then d.accounts.erase connection.userId else d.accounts.insert connection.userId devices }
    else d

def detachLocked (entry : EntryRef) (after : AfterUnlock) : Except Thrown (Directory × AfterUnlock) := do
  let connection := (d.heap entry).connection
  let (d, after) ← (d.heap entry).hosted.foldlM (fun (state : Directory × AfterUnlock) sessionId => do
    let live ← require .keyNotFound (state.1.hosted.lookup sessionId)
    state.1.removeHostedLocked sessionId live 409 "The host is offline." state.2) (d, after)
  let pipes ← d.pipesOf (d.heap entry).pipes
  let (d, after) := pipes.foldl (endPipe (lostWith connection)) (d, after)
  let d := { d with entries := d.entries.erase connection }.leaveAccount connection entry
  let after := if (d.heap entry).ready && connection.hosts then after.send (d.tellHostsLocked isOpen connection.userId none) else after
  pure (d, after.abort connection)

/-! ### Calls -/

/-- A new entry for a connection. -/
def enter (connection : DeviceConnection) : Directory :=
  let devices := (d.accounts.lookup connection.userId).getD ∅
  { d with
    accounts := d.accounts.insert connection.userId (devices.insert connection.deviceId d.next)
    entries := d.entries.insert connection d.next
    heap := Function.update d.heap d.next (.new connection)
    next := d.next + 1 }

def register (connection : DeviceConnection) : Except Thrown (Directory × AfterUnlock) := do
  let devices := (d.accounts.lookup connection.userId).getD ∅
  let previous := devices.lookup connection.deviceId
  reject (previous = none ∧ (MaxDevicesPerUser ≤ devices.entries.length ∨ MaximumDeviceConnections ≤ d.entries.entries.length))
    (.api 503 "Too many device connections.")
  let (d, after) ← previous.elim (pure (d, .none)) fun entry => d.detachLocked isOpen entry .none
  pure (d.enter connection, after)

def ready (connection : DeviceConnection) : Directory × AfterUnlock :=
  (d.entries.lookup connection).elim (d, .none) fun entry =>
    let d := d.updateEntry entry fun entry => { entry with ready := true }
    (d, AfterUnlock.none.send (d.tellHostsLocked isOpen connection.userId (if connection.hosts then none else some connection)))

def remove (connection : DeviceConnection) : Except Thrown (Directory × AfterUnlock) := do
  let (d, after) ← (d.entries.lookup connection).elim (pure (d, .none)) fun entry => d.detachLocked isOpen entry .none
  pure (d, after.abort connection)

def removeDevice (userId : Guid) (deviceId : String) : Except Thrown (Directory × AfterUnlock) :=
  (d.device userId deviceId).elim (pure (d, .none)) fun entry => d.detachLocked isOpen entry .none

/-- Another entry, or another incarnation, takes a terminal over. -/
def replaceHost (entry : EntryRef) (session : Session) (live : Hosted) : Except Thrown (Directory × AfterUnlock) := do
  let (d, after) ← d.endPipesLocked live.pipes 409 "This terminal was replaced." .none
  let d := d.updateEntry live.host fun host => { host with hosted := host.hosted.erase session.id }
  pure ({ d with hosted := d.hosted.modify session.id fun live =>
    { live with host := entry, incarnationId := session.incarnationId, status := none } }, after)

def addHost (entry : EntryRef) (session : Session) : Except Thrown (Directory × AfterUnlock) := do
  reject (MaximumHostedTerminals ≤ d.hosted.entries.length) (.api 503 "The server has reached its limit of terminal connections.")
  pure ({ d with hosted := d.hosted.insert session.id ⟨session.incarnationId, entry, none, []⟩ }, .none)

def host (connection : DeviceConnection) (session : Session) : Except Thrown (Directory × AfterUnlock) := do
  let closed := conflict "The device connection closed."
  let entry ← require closed (d.entries.lookup connection)
  reject (isOpen connection = false) closed
  let live := d.hosted.lookup session.id
  if live.any fun live => live.host = entry ∧ live.incarnationId = session.incarnationId then pure (d, .none)
  else do
    let (d, after) ← live.elim (d.addHost entry session) (d.replaceHost entry session)
    let d := d.updateEntry entry fun entry => { entry with hosted := entry.hosted.insert session.id }
    pure (d, after.change session.id)

def share (connection : DeviceConnection) (sessionId incarnationId : Guid) (status : Option TerminalStatus) :
    Directory × AfterUnlock :=
  (d.hosted.lookup sessionId).elim (d, .none) fun live =>
    if (d.heap live.host).connection ≠ connection ∨ live.incarnationId ≠ incarnationId ∨ live.status = status then (d, .none)
    else ({ d with hosted := d.hosted.modify sessionId fun live => { live with status } }, AfterUnlock.none.change sessionId)

def unhost (connection : DeviceConnection) (sessionId : Guid) : Except Thrown (Directory × AfterUnlock) :=
  (d.hosted.lookup sessionId).elim (pure (d, .none)) fun live =>
    if (d.heap live.host).connection = connection then d.removeSessionLocked sessionId live .none else pure (d, .none)

def removeSession (sessionId : Guid) : Except Thrown (Directory × AfterUnlock) :=
  (d.hosted.lookup sessionId).elim (pure (d, .none)) fun live => d.removeSessionLocked sessionId live .none

def openPipe (viewer : DeviceConnection) (pipeId : Guid) (session : Session) : Except Thrown (Directory × AfterUnlock) := do
  let watcher ← require (conflict "The device connection closed.") (d.entries.lookup viewer)
  let live ← require (conflict "The host is offline.") (d.hosted.lookup session.id)
  let hostConnection := (d.heap live.host).connection
  reject (isOpen hostConnection = false) (conflict "The host is offline.")
  reject (live.incarnationId ≠ session.incarnationId) (conflict "This terminal was replaced.")
  reject (MaximumSessionPipes ≤ live.pipes.length) (.api 503 "Too many connected participants.")
  reject (MaximumDevicePipes ≤ (d.heap watcher).views) (.api 503 "Too many open views.")
  reject (pipeId ∈ d.pipes) (conflict "The view identity is in use.")
  let d := { d with
    pipes := d.pipes.insert pipeId ⟨pipeId, session.id, viewer, hostConnection⟩
    hosted := d.hosted.modify session.id fun live => { live with pipes := live.pipes.insert pipeId } }
  let d := d.updateEntry watcher fun watcher => { watcher with pipes := watcher.pipes.insert pipeId, views := watcher.views + 1 }
  let d := d.updateEntry live.host fun host => { host with pipes := host.pipes.insert pipeId }
  pure (d, AfterUnlock.none.send [(hostConnection, .viewer pipeId session.id viewer.userId viewer.deviceId)])

def call (caller : DeviceConnection) (pipeId : Guid) (deviceId : String) : Except Thrown (Directory × AfterUnlock) := do
  let calling ← require (conflict "The device connection closed.") (d.entries.lookup caller)
  let offline := conflict "That computer is not online."
  let called ← require offline (d.device caller.userId deviceId)
  let calledConnection := (d.heap called).connection
  reject ((d.heap called).ready = false ∨ called = calling ∨ calledConnection.hosts = false ∨ isOpen calledConnection = false) offline
  reject (MaximumCalls ≤ (d.heap called).calls) (.api 503 "That computer is busy. Try again in a moment.")
  reject (MaximumDevicePipes ≤ (d.heap calling).views) (.api 503 "Too many open views.")
  reject (pipeId ∈ d.pipes) (conflict "The view identity is in use.")
  let d := { d with pipes := d.pipes.insert pipeId ⟨pipeId, Guid.Empty, caller, calledConnection⟩ }
  let d := d.updateEntry calling fun calling => { calling with pipes := calling.pipes.insert pipeId, views := calling.views + 1 }
  let d := d.updateEntry called fun called => { called with pipes := called.pipes.insert pipeId, calls := called.calls + 1 }
  pure (d, AfterUnlock.none.send [(calledConnection, .caller pipeId caller.userId caller.deviceId)])

def close (connection : DeviceConnection) (pipeId : Guid) : Directory × AfterUnlock :=
  (d.pipes.lookup pipeId).elim (d, .none) fun pipe =>
    if pipe.viewer ≠ connection ∧ pipe.host ≠ connection then (d, .none)
    else endPipe (fun pipe => ⟨pipe, 0, "", some connection⟩) (d, .none) pipe

/-- What a connection does with a frame for it. -/
inductive Relayed where
  | sent | slow | busy
  deriving DecidableEq

/-- The other end of a pipe. -/
def otherEnd (pipe : Pipe) (fro : DeviceConnection) : Option DeviceConnection :=
  if pipe.viewer = fro then some pipe.host else if pipe.host = fro then some pipe.viewer else none

def relayFailed : Relayed → Pipe → Ended
  | .busy, pipe => ⟨pipe, 503, "The Kodosi server is busy. Open the terminal again in a moment.", none⟩
  | _, pipe => ⟨pipe, 503, "The connection is too slow.", none⟩

/-- Passes a frame on, and says to which connection. `relayed` is what that connection does with it. -/
def relay (fro : DeviceConnection) (pipeId : Guid) (relayed : Relayed) : Directory × AfterUnlock × Option DeviceConnection :=
  (d.pipes.lookup pipeId).elim (d, .none, none) fun pipe =>
    (otherEnd pipe fro).elim (d, .none, none) fun to_ =>
      if relayed = .sent then (d, .none, some to_)
      else
        let (d, after) := endPipe (relayFailed relayed) (d, .none) pipe
        (d, after, none)

def revoke (sessionId : Guid) (keep : Guid → String → Bool) : Except Thrown (Directory × AfterUnlock) :=
  (d.hosted.lookup sessionId).elim (pure (d, .none)) fun live => do
    let host := (d.heap live.host).connection
    let pipes ← d.pipesOf live.pipes
    let refused := pipes.filter fun pipe => !keep pipe.viewer.userId pipe.viewer.deviceId
    let (d, after) := refused.foldl (endPipe fun pipe => ⟨pipe, 403, "This terminal is not shared with you.", none⟩) (d, .none)
    pure (d, after.send [(host, .accessChanged sessionId)])

/-- The connections close, and nothing is kept. -/
def stopAll : Directory × List DeviceConnection := ({ d with accounts := ∅, entries := ∅, hosted := ∅, pipes := ∅ }, d.entries.keys)

/-! ### Runs -/

inductive Call where
  | register (connection : DeviceConnection)
  | ready (connection : DeviceConnection)
  | remove (connection : DeviceConnection)
  | removeDevice (userId : Guid) (deviceId : String)
  | host (connection : DeviceConnection) (session : Session)
  | share (connection : DeviceConnection) (sessionId incarnationId : Guid) (status : Option TerminalStatus)
  | unhost (connection : DeviceConnection) (sessionId : Guid)
  | removeSession (sessionId : Guid)
  | openPipe (viewer : DeviceConnection) (pipeId : Guid) (session : Session)
  | call (caller : DeviceConnection) (pipeId : Guid) (deviceId : String)
  | close (connection : DeviceConnection) (pipeId : Guid)
  | relay (fro : DeviceConnection) (pipeId : Guid) (relayed : Relayed)
  | revoke (sessionId : Guid) (keep : Guid → String → Bool)
  | stopAll

def step : Call → Except Thrown (Directory × AfterUnlock)
  | .register connection => d.register isOpen connection
  | .ready connection => .ok (d.ready isOpen connection)
  | .remove connection => d.remove isOpen connection
  | .removeDevice userId deviceId => d.removeDevice isOpen userId deviceId
  | .host connection session => d.host isOpen connection session
  | .share connection sessionId incarnationId status => .ok (d.share connection sessionId incarnationId status)
  | .unhost connection sessionId => d.unhost connection sessionId
  | .removeSession sessionId => d.removeSession sessionId
  | .openPipe viewer pipeId session => d.openPipe isOpen viewer pipeId session
  | .call caller pipeId deviceId => d.call isOpen caller pipeId deviceId
  | .close connection pipeId => .ok (d.close connection pipeId)
  | .relay fro pipeId relayed => .ok ((d.relay fro pipeId relayed).1, (d.relay fro pipeId relayed).2.1)
  | .revoke sessionId keep => d.revoke sessionId keep
  | .stopAll => .ok (d.stopAll.1, .none)

/-- A call that throws leaves the directory as it is. -/
def afterCall : Call → Directory := fun call => (d.step isOpen call).toOption.elim d (·.1)

end Directory

end Kodosi.TerminalConnections
