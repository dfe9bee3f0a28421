import Kodosi.Wire.Control

/-! The frames between a terminal's host and those who see it: how a frame becomes bytes, and how the first
    frame of a buffer is read and taken off it. -/

namespace Kodosi.Wire
open Kodosi.Lib
open Kodosi.Derive

def FRAME_LIMIT : Nat := 1024 * 1024
def KEYFRAME_PART : Nat := 32 * 1024
def PIPE_PART : Nat := 32 * 1024
def MOST_DIRECT_ADDRESSES : Nat := 8
def HEADER : Nat := 7
def PICTURE_PART : Nat := 32 * 1024 - HEADER - 24
def CALL_REQUEST : Nat := 64 * 1024
def CALL_ANSWER : Nat := 512 * 1024
def CONTROL_LIMIT : Nat := 32 * 1024
def PACK_FROM : Nat := 256
def RAW_CHUNK_LIMIT : Nat := 64 * 1024
def RAW_BATCH_LIMIT : Nat := 128
def UNPACKED_OUTPUT_LIMIT : Nat := RAW_BATCH_LIMIT * (4 + RAW_CHUNK_LIMIT)
def METADATA_LIMIT : Nat := 96 * 1024
def TERMINAL_INPUT_MAX_BYTES : Nat := 1024 * 1024
/-- The most JSON that is read of a frame that holds one small record. -/
def RECORD_LIMIT : Nat := 4096
def PICTURE_LIMIT : Nat := 1024

/-! ### What frames hold -/

structure Accept where
  protocolVersion : UInt32
  sessionId : Uuid
  incarnationId : Uuid
  hostDeviceId : String
  deriving DecidableEq

structure Refuse where
  code : String
  message : String
  deriving DecidableEq

structure End where
  finalSequence : UInt64
  reason : String
  deriving DecidableEq

structure ControlResult where
  requestId : Uuid
  accepted : Bool
  message : String
  deriving DecidableEq

inductive PictureFormat where
  | png
  | jpeg
  | gif
  | webp
  deriving DecidableEq

structure PictureOffer where
  id : Uuid
  size : UInt64
  sha256 : String
  format : PictureFormat
  deriving DecidableEq

inductive PictureStep where
  | receiving
  | pasted
  | refused
  deriving DecidableEq

structure PictureState where
  id : Uuid
  received : UInt64
  at' : UInt64
  step : PictureStep
  message : String
  deriving DecidableEq

/-- The host's cell size, or zero if it is not known. -/
structure CellPixels where
  width : UInt32
  height : UInt32
  deriving DecidableEq

inductive Frame (M A : Type) where
  | accept (accept : Accept)
  | refuse (refuse : Refuse)
  | keyframe (nextSequence : UInt64) (more : Bool) (part : Bytes)
  | output (firstSequence : UInt64) (chunks : List Bytes)
  | resize (rows cols : UInt16) (cell : CellPixels) (atSequence : UInt64)
  | metadata (metadata : M)
  | heartbeat (number : UInt32) (nextSequence : UInt64)
  | ended (ended : End)
  | ack (received : UInt64)
  | input (offset : UInt64) (heartbeat : UInt32) (bytes : Bytes)
  | control (requestId : Uuid) (control : TerminalControl)
  | refresh
  | inputAck (offset : UInt64)
  | controlResult (result : ControlResult)
  | request (request : Json)
  | answer (answer : Json)
  | controlValue (requestId : Uuid) (value : Json)
  | picture (offer : PictureOffer)
  | picturePart (id : Uuid) (offset : UInt64) (bytes : Bytes)
  | pictureState (state : PictureState)
  | pipeOpen (pipe : Uuid) (key name : String)
  | pipeData (pipe : Uuid) (more : Bool) (part : Bytes)
  | pipeClose (pipe : Uuid)
  | directAsk (pipe : Uuid)
  | directOffer (pipe : Uuid) (addresses : List A)

variable {M A : Type} (L : Libraries M A)

/-! ### The JSON of the records -/

def Accept.toValue (a : Accept) : Json :=
  .object [("protocolVersion", writeNat a.protocolVersion.toNat), ("sessionId", writeUuid L a.sessionId),
    ("incarnationId", writeUuid L a.incarnationId), ("hostDeviceId", .string a.hostDeviceId)]

def Accept.fromValue (json : Json) : Option Accept := do
  let fields ← onlyFieldsOf ["protocolVersion", "sessionId", "incarnationId", "hostDeviceId"] json
  return ⟨← required fields "protocolVersion" readU32, ← required fields "sessionId" (readUuid L),
    ← required fields "incarnationId" (readUuid L), ← textOf fields "hostDeviceId"⟩

def Refuse.toValue (r : Refuse) : Json :=
  .object [("code", .string r.code), ("message", .string r.message)]

def Refuse.fromValue (json : Json) : Option Refuse := do
  let fields ← onlyFieldsOf ["code", "message"] json
  return ⟨← textOf fields "code", ← textOf fields "message"⟩

def End.toValue (e : End) : Json :=
  .object [("finalSequence", writeNat e.finalSequence.toNat), ("reason", .string e.reason)]

def End.fromValue (json : Json) : Option End := do
  let fields ← onlyFieldsOf ["finalSequence", "reason"] json
  return ⟨← required fields "finalSequence" readU64, ← textOf fields "reason"⟩

def ControlResult.toValue (r : ControlResult) : Json :=
  .object [("requestId", writeUuid L r.requestId), ("accepted", .bool r.accepted),
    ("message", .string r.message)]

def ControlResult.fromValue (json : Json) : Option ControlResult := do
  let fields ← onlyFieldsOf ["requestId", "accepted", "message"] json
  return ⟨← required fields "requestId" (readUuid L), ← required fields "accepted" readBool,
    ← textOf fields "message"⟩

def PictureFormat.name : PictureFormat → String
  | .png => "png"
  | .jpeg => "jpeg"
  | .gif => "gif"
  | .webp => "webp"

def PictureFormat.ofName : String → Option PictureFormat
  | "png" => some .png
  | "jpeg" => some .jpeg
  | "gif" => some .gif
  | "webp" => some .webp
  | _ => none

def PictureOffer.toValue (o : PictureOffer) : Json :=
  .object [("id", writeUuid L o.id), ("size", writeNat o.size.toNat), ("sha256", .string o.sha256),
    ("format", .string o.format.name)]

def PictureOffer.fromValue (json : Json) : Option PictureOffer := do
  let fields ← onlyFieldsOf ["id", "size", "sha256", "format"] json
  return ⟨← required fields "id" (readUuid L), ← required fields "size" readU64,
    ← textOf fields "sha256", ← (← textOf fields "format") |> PictureFormat.ofName⟩

def PictureStep.name : PictureStep → String
  | .receiving => "receiving"
  | .pasted => "pasted"
  | .refused => "refused"

def PictureStep.ofName : String → Option PictureStep
  | "receiving" => some .receiving
  | "pasted" => some .pasted
  | "refused" => some .refused
  | _ => none

/-- An empty message is skipped. -/
def PictureState.toValue (s : PictureState) : Json :=
  .object ([("id", writeUuid L s.id), ("received", writeNat s.received.toNat),
    ("at", writeNat s.at'.toNat), ("step", .string s.step.name)] ++
      if s.message = "" then [] else [("message", .string s.message)])

def PictureState.fromValue (json : Json) : Option PictureState := do
  let fields ← onlyFieldsOf ["id", "received", "at", "step", "message"] json
  return ⟨← required fields "id" (readUuid L), ← required fields "received" readU64,
    ← required fields "at" readU64, ← (← textOf fields "step") |> PictureStep.ofName,
    ← defaulted fields "message" "" readString⟩

end Kodosi.Wire
