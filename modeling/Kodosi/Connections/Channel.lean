import Kodosi.Wire.Stream

/-! The encrypted channel between two devices: frames go through a TLS connection onto a transport, and what comes
    from the transport goes through it back into frames. A wait for a frame is given up whenever something else of
    the program is ready first, and begun again later. -/

namespace Kodosi.Connections
open Kodosi.Wire

def MESSAGE_BYTES : Nat := 64 * 1024

/-- After so many frames the channel takes new keys. -/
def KEY_FRAMES : Nat := 1 <<< 24

/-! ### TLS -/

/-- What the TLS library says of a failure. -/
inductive TlsError where
  | general (reason : String)
  | invalidCertificate
  | noCertificatesPresented
  | other

inductive Error where
  | closed
  | invalid (reason : String)
  | trust (reason : String)
  | frame (fault : Fault)

def TlsError.tls : TlsError → Error
  | .general reason => .trust reason
  | .invalidCertificate | .noCertificatesPresented => .trust "The other device did not prove its key."
  | .other => .closed

/-- What comes of records that were read: the text in them, and records to write, such as an answer to new keys. -/
structure Packets (τ : Type) where
  state : τ
  answers : Bytes
  plaintext : Bytes
  peerHasClosed : Bool

/-- The record layer of the TLS library. What it wants to write it puts in line; `write_tls` takes from there. -/
structure Records (τ : Type) where
  /-- How many of the bytes are taken. -/
  readTls : τ → Bytes → Option (Nat × τ)
  processNewPackets : τ → Except TlsError (Packets τ)
  writeAll : τ → Bytes → Option (τ × Bytes)
  refreshTrafficKeys : τ → Except TlsError (τ × Bytes)

/-! ### The channel -/

/-- Where a call of the channel waits. A call that flushes has bytes that the transport has not taken yet. -/
inductive Call where
  | none
  | receiving
  | answering (wire : Bytes)
  | sending (wire : Bytes)
  | failed (error : Error) (wire : Bytes)

/-- The bytes that are with the call alone. -/
def Call.wire : Call → Bytes
  | .none | .receiving => []
  | .answering wire | .sending wire | .failed _ wire => wire

variable {M A τ : Type}

/-- The channel, and what went through it so far: the bytes that TLS wrote and those that the transport took, the bytes
    that the transport gave and those that TLS read, the text in them, and the frames that the program got. -/
structure Channel (M A τ : Type) where
  tls : τ
  sendable : Bytes
  plain : Bytes
  closed : Bool
  frames : Nat
  call : Call
  written : Bytes
  given : Bytes
  arrived : Bytes
  read : Bytes
  plaintext : Bytes
  returned : List (Frame M A × Nat)

/-- A channel that is established: the handshake is flushed, and text may have come with it. -/
def Channel.established (tls : τ) (plain : Bytes) (closed : Bool) : Channel M A τ where
  tls := tls
  sendable := []
  plain := plain
  closed := closed
  frames := 0
  call := .none
  written := []
  given := []
  arrived := []
  read := []
  plaintext := plain
  returned := []

inductive Event (M A : Type) where
  /-- A frame to send; the keys may be old. -/
  | send (frame : Frame M A) (old : Bool)
  | receive
  /-- The transport has a message, or its end, for the call that waits. -/
  | arrive (message : Except Error (Option Bytes))
  /-- The transport takes so many of the bytes that it was given to send. -/
  | accept (n : Nat)
  | refuse (error : Error)
  /-- The wait for a frame is given up. -/
  | drop

namespace Channel

variable (L : Libraries M A) (R : Records τ)

def fail (error : Error) (c : Channel M A τ) : Channel M A τ := { c with call := .failed error c.call.wire }

/-- The next message of a flush. -/
def writeTls (call : Bytes → Call) (c : Channel M A τ) : Channel M A τ :=
  let wire := c.sendable.take MESSAGE_BYTES
  { c with sendable := c.sendable.drop MESSAGE_BYTES, written := c.written ++ wire, call := call wire }

/-- The loop of `receive`, to where it waits or returns. -/
def take (c : Channel M A τ) : Channel M A τ :=
  match Frame.take L c.plain with
  | (.ok (some frame), plain) => { c with plain, returned := c.returned ++ [frame], call := .none }
  | (.error fault, plain) => { c with plain, call := .failed (.frame fault) [] }
  | (.ok none, _) => if c.closed then { c with call := .none } else { c with call := .receiving }

/-- Reads what the transport gave, as far as TLS takes it. -/
def absorbRest (c : Channel M A τ) (bytes : Bytes) : Channel M A τ × Option Error :=
  if bytes = [] then (c, none)
  else match R.readTls c.tls bytes with
  | none => (c, some .closed)
  | some (0, _) => (c, some (.invalid "Terminal channel data could not be read."))
  | some (n + 1, tls') =>
    match R.processNewPackets tls' with
    | .error error => ({ c with tls := tls', read := c.read ++ bytes.take (n + 1) }, some error.tls)
    | .ok packets =>
      absorbRest { c with
        tls := packets.state
        sendable := c.sendable ++ packets.answers
        plain := c.plain ++ packets.plaintext
        closed := c.closed || packets.peerHasClosed
        read := c.read ++ bytes.take (n + 1)
        plaintext := c.plaintext ++ packets.plaintext } (bytes.drop (n + 1))
termination_by bytes.length
decreasing_by
  rename_i hbytes
  have := List.length_pos_iff.mpr hbytes
  rw [List.length_drop]
  omega

def absorb (c : Channel M A τ) (bytes : Bytes) : Channel M A τ × Option Error :=
  if MESSAGE_BYTES * 2 < bytes.length then (c, some (.invalid "Terminal channel message exceeds its bound."))
  else absorbRest R c bytes

/-- `flush` of a call of `send`. -/
def flushSend (c : Channel M A τ) : Channel M A τ :=
  if c.sendable = [] then { c with call := .none } else writeTls .sending c

/-- `flush` of a call of `receive`, which then goes on. -/
def flushReceive (c : Channel M A τ) : Channel M A τ :=
  if c.sendable = [] then take L c else writeTls .answering c

/-- The text of a frame goes into records. -/
def write (encoded : Bytes) (c : Channel M A τ) : Channel M A τ :=
  match R.writeAll c.tls encoded with
  | none => c.fail .closed
  | some (tls, records) => flushSend { c with tls, sendable := c.sendable ++ records }

def send (frame : Frame M A) (old : Bool) (c : Channel M A τ) : Channel M A τ :=
  match frame.encode L with
  | .error fault => c.fail (.frame fault)
  | .ok encoded =>
    let c : Channel M A τ := { c with frames := c.frames + 1 }
    if KEY_FRAMES ≤ c.frames ∨ old then
      match R.refreshTrafficKeys c.tls with
      | .error error => c.fail error.tls
      | .ok (tls, records) => write R encoded { c with tls, sendable := c.sendable ++ records, frames := 0 }
    else write R encoded c

def arrive (message : Except Error (Option Bytes)) (c : Channel M A τ) : Channel M A τ :=
  match message with
  | .error error => c.fail error
  | .ok none => { c with call := .none }
  | .ok (some bytes) =>
    match absorb R { c with arrived := c.arrived ++ bytes } bytes with
    | (c, none) => flushReceive L c
    | (c, some error) => c.fail error

/-- The transport takes a part of the bytes, and the call goes on when it has them all. -/
def accept (n : Nat) (wire : Bytes) (call : Bytes → Call) (flush : Channel M A τ → Channel M A τ)
    (c : Channel M A τ) : Channel M A τ :=
  let c : Channel M A τ := { c with given := c.given ++ wire.take n, call := call (wire.drop n) }
  if wire.drop n = [] then flush c else c

/-- One call runs at a time. `send` runs to its end, and `receive` may be dropped where it waits; after an error the
    channel is used no more. -/
def step (c : Channel M A τ) : Event M A → Channel M A τ
  | .send frame old => match c.call with
    | .none => send L R frame old c
    | _ => c
  | .receive => match c.call with
    | .none => take L c
    | _ => c
  | .arrive message => match c.call with
    | .receiving => arrive L R message c
    | _ => c
  | .accept n => match c.call with
    | .sending wire => accept n wire .sending flushSend c
    | .answering wire => accept n wire .answering (flushReceive L) c
    | _ => c
  | .refuse error => match c.call with
    | .sending _ | .answering _ => c.fail error
    | _ => c
  | .drop => match c.call with
    | .receiving | .answering _ => { c with call := .none }
    | _ => c

end Channel

end Kodosi.Connections
