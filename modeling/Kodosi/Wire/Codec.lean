import Kodosi.Wire.Frame

/-! The bytes of a frame: its padded length, its kind, the length of its body, the body and zeros. Every
    index and slice of the reader may be out of range, which is the fault `panic`. -/

namespace Kodosi.Wire
open Kodosi.Lib
open Kodosi.Derive

variable {M A : Type} (L : Libraries M A)

/-! ### Writing -/

def kindByte (flag : Bool) : UInt8 := if flag then 1 else 0

/-- The length that a frame is padded to: up to 1 KiB in steps of 64 bytes, then by clearing low bits. -/
def padded (length : Nat) : Nat :=
  if length ≤ 1024 then (length + 63) / 64 * 64
  else
    let exponent := length.log2
    let bits := exponent.log2 + 1
    let unit := 2 ^ (exponent - bits)
    (length + (unit - 1)) / unit * unit

def u24 (value : Nat) : Except Fault Bytes :=
  if value < 2 ^ 24 then .ok (toBe 3 value) else .error (.invalid "Terminal frame exceeds its bound.")

def callJson (value : Json) (limit : Nat) : Except Fault Bytes := do
  let body := L.toVec value
  reject ((fieldsOf value).isNone ∨ limit < body.length)
    (.invalid "The message to the other computer exceeds its bound.")
  return body

def pack (body : Bytes) : Except Fault Bytes :=
  require (.invalid "Terminal data could not be packed.") (L.deflate body)

def encodeMetadata (metadata : M) : Except Fault Bytes := do
  reject (L.isValid metadata = false) (.invalid "Invalid terminal metadata.")
  let encoded := L.toVec (L.metadataValue metadata)
  reject (METADATA_LIMIT < encoded.length) (.invalid "Terminal metadata exceeds its bound.")
  return encoded

/-- The chunks one after the other, each behind its length. -/
def plainOutput (chunks : List Bytes) : Bytes := chunks.flatMap fun chunk => toBe 4 chunk.length ++ chunk

/-- Output is packed when that makes it smaller. -/
def encodeOutput (firstSequence : UInt64) (chunks : List Bytes) : Except Fault Bytes := do
  reject (chunks = [] ∨ RAW_BATCH_LIMIT < chunks.length ∨ ∃ chunk ∈ chunks, RAW_CHUNK_LIMIT < chunk.length)
    (.invalid "Terminal output batch exceeds its bound.")
  let plain := plainOutput chunks
  let head := toBe 8 firstSequence.toNat
  if PACK_FROM ≤ plain.length then
    let packed ← pack L plain
    if packed.length < plain.length then return head ++ 1 :: packed
    else return head ++ 0 :: plain
  else return head ++ 0 :: plain

def uuidBytes (id : Uuid) : Bytes := toBe 16 id.val

/-- The kind and the body of a frame. -/
def kindAndBody : Frame M A → Except Fault (UInt8 × Bytes)
  | .accept accept => return (2, L.toVec (accept.toValue L))
  | .refuse refuse => return (3, L.toVec refuse.toValue)
  | .keyframe nextSequence more part => do
    reject (KEYFRAME_PART < part.length) (.invalid "Terminal snapshot part exceeds its bound.")
    return (4, toBe 8 nextSequence.toNat ++ kindByte more :: part)
  | .output firstSequence chunks => do return (5, ← encodeOutput L firstSequence chunks)
  | .resize rows cols cell atSequence =>
    return (6, toBe 2 rows.toNat ++ toBe 2 cols.toNat ++ toBe 4 cell.width.toNat ++
      toBe 4 cell.height.toNat ++ toBe 8 atSequence.toNat)
  | .metadata metadata => do return (7, ← encodeMetadata L metadata)
  | .heartbeat number nextSequence => return (8, toBe 4 number.toNat ++ toBe 8 nextSequence.toNat)
  | .ended ended => return (9, L.toVec ended.toValue)
  | .ack received => return (10, toBe 8 received.toNat)
  | .input offset heartbeat bytes => do
    reject (bytes = [] ∨ TERMINAL_INPUT_MAX_BYTES < bytes.length)
      (.invalid "Terminal input exceeds its chunk limit.")
    return (11, toBe 8 offset.toNat ++ toBe 4 heartbeat.toNat ++ bytes)
  | .control requestId control => do
    reject (control.isInput = true) (.invalid "Terminal input uses its own frame.")
    let body := uuidBytes requestId ++ (← encodeControl L control)
    reject (16 + CONTROL_LIMIT < body.length) (.invalid "Terminal control exceeds its bound.")
    return (12, body)
  | .refresh => return (13, [])
  | .inputAck offset => return (14, toBe 8 offset.toNat)
  | .controlResult result => return (15, L.toVec (result.toValue L))
  | .request request => do return (16, ← callJson L request CALL_REQUEST)
  | .answer answer => do return (17, ← callJson L answer CALL_ANSWER)
  | .controlValue requestId value => do
    return (18, uuidBytes requestId ++ (← callJson L value CALL_ANSWER))
  | .picture offer => return (19, L.toVec (offer.toValue L))
  | .picturePart id offset bytes => do
    reject (bytes = [] ∨ PICTURE_PART < bytes.length) (.invalid "A picture part exceeds its bound.")
    return (20, uuidBytes id ++ toBe 8 offset.toNat ++ bytes)
  | .pictureState state => return (21, L.toVec (state.toValue L))
  | .pipeOpen pipe key name => do
    let body := uuidBytes pipe ++ L.toVec (.array [.string key, .string name])
    reject (16 + CONTROL_LIMIT < body.length) (.invalid "Terminal control exceeds its bound.")
    return (22, body)
  | .pipeData pipe more part => do
    reject (PIPE_PART < part.length) (.invalid "Document part exceeds its bound.")
    return (23, uuidBytes pipe ++ kindByte more :: part)
  | .pipeClose pipe => return (24, uuidBytes pipe)
  | .directAsk pipe => return (25, uuidBytes pipe)
  | .directOffer pipe addresses => do
    reject (MOST_DIRECT_ADDRESSES < addresses.length) (.invalid "Terminal control exceeds its bound.")
    return (26, uuidBytes pipe ++ L.toVec (writeArray (fun address => .string (L.addressText address)) addresses))

def Frame.encode (frame : Frame M A) : Except Fault Bytes := do
  let (kind, body) ← kindAndBody L frame
  let length := padded (HEADER + body.length)
  reject (FRAME_LIMIT < length) (.invalid "Terminal frame exceeds its bound.")
  let head := (← u24 (length - 3)) ++ kind :: (← u24 body.length) ++ body
  return head ++ List.replicate (length - head.length) 0

/-! ### Reading -/

def index (bytes : Bytes) (i : Nat) : Except Fault UInt8 := require .panic bytes[i]?

/-- The bytes from one place to another. -/
def slice (bytes : Bytes) (start stop : Nat) : Except Fault Bytes := do
  reject (¬(start ≤ stop ∧ stop ≤ bytes.length)) .panic
  return (bytes.take stop).drop start

/-- The bytes from one place on. -/
def sliceFrom (bytes : Bytes) (start : Nat) : Except Fault Bytes := slice bytes start bytes.length

def read24 (bytes : Bytes) (at' : Nat) : Except Fault Nat := do return ofBe (← slice bytes at' (at' + 3))

def read16 (bytes : Bytes) (at' : Nat) : Except Fault UInt16 := do
  return .ofNat (ofBe (← slice bytes at' (at' + 2)))

def read32 (bytes : Bytes) (at' : Nat) : Except Fault UInt32 := do
  return .ofNat (ofBe (← slice bytes at' (at' + 4)))

def read64 (bytes : Bytes) (at' : Nat) : Except Fault UInt64 := do
  return .ofNat (ofBe (← slice bytes at' (at' + 8)))

def exact (body : Bytes) (length : Nat) : Except Fault Unit :=
  reject (body.length ≠ length) (.invalid "Terminal frame has an invalid body.")

/-- The id of the first 16 bytes. -/
def pipeId (body : Bytes) : Except Fault Uuid := do
  return Fin.ofNat (2 ^ 128) (ofBe (← slice body 0 16))

/-- The JSON of a body, and what it holds. -/
def readJson {α : Type} (body : Bytes) (read : Json → Option α) : Except Fault α :=
  require .json ((L.fromSlice body).bind read)

def within (body : Bytes) (limit : Nat) : Except Fault Bytes := do
  reject (limit < body.length) (.invalid "Terminal frame exceeds its bound.")
  return body

def callValue (body : Bytes) : Except Fault Json := do
  let value ← readJson L body some
  reject ((fieldsOf value).isNone) (.invalid "The other computer sent an invalid message.")
  return value

def decodeMetadata (encoded : Bytes) : Except Fault M := do
  reject (METADATA_LIMIT < encoded.length) (.invalid "Terminal metadata exceeds its bound.")
  let metadata ← readJson L encoded L.readMetadata
  reject (L.isValid metadata = false) (.invalid "Invalid terminal metadata.")
  return metadata

def unpack (packed : Bytes) (limit : Nat) : Except Fault Bytes := do
  let output ← require (.invalid "Remote terminal data could not be unpacked.") (L.inflate packed)
  reject (limit < output.length) (.invalid "Remote terminal data exceeds its bound.")
  return output

/-- The chunks from a place on, when so many were read before. -/
def splitChunks (plain : Bytes) (at' read : Nat) : Except Fault (List Bytes) := do
  if plain.length ≤ at' then return []
  reject (plain.length - at' < 4 ∨ read = RAW_BATCH_LIMIT) (.invalid "Terminal output frame is invalid.")
  let size := (← read32 plain at').toNat
  reject (RAW_CHUNK_LIMIT < size ∨ plain.length - (at' + 4) < size)
    (.invalid "Terminal output frame is invalid.")
  let chunk ← slice plain (at' + 4) (at' + 4 + size)
  return chunk :: (← splitChunks plain (at' + 4 + size) (read + 1))
termination_by plain.length - at'

/-- Output as it was before it was packed. -/
def plainOf (packed : UInt8) (rest : Bytes) : Except Fault Bytes :=
  if packed = 1 then unpack L rest UNPACKED_OUTPUT_LIMIT else .ok rest

def decodeOutput (body : Bytes) : Except Fault (Frame M A) := do
  reject (body.length < 9) (.invalid "Terminal output frame is invalid.")
  let packed ← index body 8
  reject (1 < packed) (.invalid "Terminal output frame is invalid.")
  let rest ← sliceFrom body 9
  let plain ← plainOf L packed rest
  let chunks ← splitChunks plain 0 0
  reject (chunks = []) (.invalid "Terminal output frame is empty.")
  return .output (← read64 body 0) chunks

/-- What a pair of texts holds. -/
def readPair : Json → Option (String × String)
  | .array [key, name] => do return (← readString key, ← readString name)
  | _ => none

def readAddress (json : Json) : Option A := (readString json).bind L.parseAddress

def decode (kind : UInt8) (body : Bytes) : Except Fault (Frame M A) :=
  match kind with
  | 2 => do return .accept (← readJson L (← within body RECORD_LIMIT) (Accept.fromValue L))
  | 3 => do return .refuse (← readJson L (← within body RECORD_LIMIT) Refuse.fromValue)
  | 4 => do
    reject (body.length < 9 ∨ 9 + KEYFRAME_PART < body.length)
      (.invalid "Terminal snapshot part is invalid.")
    let more ← index body 8
    reject (1 < more) (.invalid "Terminal snapshot part is invalid.")
    return .keyframe (← read64 body 0) (more = 1) (← sliceFrom body 9)
  | 5 => decodeOutput L body
  | 6 => do
    exact body 20
    return .resize (← read16 body 0) (← read16 body 2) ⟨← read32 body 4, ← read32 body 8⟩ (← read64 body 12)
  | 7 => do return .metadata (← decodeMetadata L (← within body METADATA_LIMIT))
  | 8 => do
    exact body 12
    return .heartbeat (← read32 body 0) (← read64 body 4)
  | 9 => do return .ended (← readJson L (← within body RECORD_LIMIT) End.fromValue)
  | 10 => do
    exact body 8
    return .ack (← read64 body 0)
  | 11 => do
    reject (body.length ≤ 12 ∨ 12 + TERMINAL_INPUT_MAX_BYTES < body.length)
      (.invalid "Terminal input frame is invalid.")
    return .input (← read64 body 0) (← read32 body 8) (← sliceFrom body 12)
  | 12 => do
    reject (body.length < 16 ∨ 16 + CONTROL_LIMIT < body.length)
      (.invalid "Terminal control frame is invalid.")
    let requestId ← pipeId body
    let control ← decodeControl L (← sliceFrom body 16)
    reject (control.isInput = true) (.invalid "Terminal input uses its own frame.")
    return .control requestId control
  | 13 => do
    exact body 0
    return .refresh
  | 14 => do
    exact body 8
    return .inputAck (← read64 body 0)
  | 15 => do return .controlResult (← readJson L (← within body RECORD_LIMIT) (ControlResult.fromValue L))
  | 16 => do return .request (← callValue L (← within body CALL_REQUEST))
  | 17 => do return .answer (← callValue L (← within body CALL_ANSWER))
  | 18 => do
    reject (body.length < 16 ∨ 16 + CALL_ANSWER < body.length)
      (.invalid "Terminal control answer is invalid.")
    return .controlValue (← pipeId body) (← callValue L (← sliceFrom body 16))
  | 19 => do return .picture (← readJson L (← within body PICTURE_LIMIT) (PictureOffer.fromValue L))
  | 20 => do
    reject (body.length ≤ 24 ∨ 24 + PICTURE_PART < body.length) (.invalid "A picture part is invalid.")
    return .picturePart (← pipeId body) (← read64 body 16) (← sliceFrom body 24)
  | 21 => do return .pictureState (← readJson L (← within body RECORD_LIMIT) (PictureState.fromValue L))
  | 22 => do
    reject (body.length < 16 ∨ 16 + CONTROL_LIMIT < body.length) (.invalid "Document open frame is invalid.")
    let (key, name) ← readJson L (← sliceFrom body 16) readPair
    return .pipeOpen (← pipeId body) key name
  | 23 => do
    reject (body.length < 17 ∨ 17 + PIPE_PART < body.length) (.invalid "Document part is invalid.")
    let more ← index body 16
    reject (1 < more) (.invalid "Document part is invalid.")
    return .pipeData (← pipeId body) (more = 1) (← sliceFrom body 17)
  | 24 => do
    exact body 16
    return .pipeClose (← pipeId body)
  | 25 => do
    exact body 16
    return .directAsk (← pipeId body)
  | 26 => do
    reject (body.length < 16 ∨ 16 + CONTROL_LIMIT < body.length) (.invalid "Direct offer frame is invalid.")
    let addresses ← readJson L (← sliceFrom body 16) (readArray (readAddress L))
    reject (MOST_DIRECT_ADDRESSES < addresses.length) (.invalid "Direct offer frame is invalid.")
    return .directOffer (← pipeId body) addresses
  | _ => .error (.invalid "Unsupported terminal frame.")

/-- The first frame of a buffer with its length, and how many bytes of the buffer it takes off, or nothing
    while its bytes are not all there. -/
def takeFrame (buffer : Bytes) : Except Fault (Option (Frame M A × Nat)) := do
  if buffer.length < 3 then return none
  let length := 3 + (← read24 buffer 0)
  reject (¬(HEADER ≤ length ∧ length ≤ FRAME_LIMIT)) (.invalid "Terminal frame has an invalid length.")
  if buffer.length < length then return none
  let kind ← index buffer 3
  let size ← read24 buffer 4
  reject (length < HEADER + size) (.invalid "Terminal frame has an invalid body.")
  let padding ← slice buffer (HEADER + size) length
  reject (∃ byte ∈ padding, byte ≠ 0) (.invalid "Terminal frame has an invalid body.")
  let frame ← decode L kind (← slice buffer HEADER (HEADER + size))
  return some (frame, length)

/-- Takes the first frame off a buffer, which stays as it is when there is none or it is not one. -/
def Frame.take (buffer : Bytes) : Except Fault (Option (Frame M A × Nat)) × Bytes :=
  match takeFrame L buffer with
  | .ok (some (frame, length)) => (.ok (some (frame, length)), buffer.drop length)
  | out => (out, buffer)

end Kodosi.Wire
