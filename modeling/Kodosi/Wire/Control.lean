import Kodosi.Documents.Derive
import Kodosi.Lib.Bytes
import Kodosi.Lib.Checks

/-! What a device asks of a terminal on another computer, and the JSON that carries it. -/

namespace Kodosi.Wire
open Kodosi.Lib
open Kodosi.Derive

abbrev Bytes := List UInt8

/-- An id of 16 bytes. -/
abbrev Uuid := Fin (2 ^ 128)

instance uuid_neZero : NeZero (2 ^ 128) := inferInstance

/-- Why a frame is not written or not read. -/
inductive Fault where
  | invalid (reason : String)
  | json
  /-- An index or a slice that is out of range. -/
  | panic
  deriving DecidableEq

/-- What the frames take from libraries, and of what a terminal tells about itself: `M` is its metadata,
    `A` are socket addresses. -/
structure Libraries (M A : Type) where
  toVec : Json → Bytes
  fromSlice : Bytes → Option Json
  deflate : Bytes → Option Bytes
  inflate : Bytes → Option Bytes
  uuidText : Uuid → String
  parseUuid : String → Option Uuid
  addressText : A → String
  parseAddress : String → Option A
  metadataValue : M → Json
  readMetadata : Json → Option M
  isValid : M → Bool

variable {M A : Type} (L : Libraries M A)

def writeUuid (id : Uuid) : Json := .string (L.uuidText id)

def readUuid (json : Json) : Option Uuid := (readString json).bind L.parseUuid

/-! ### Requests to a canvas -/

def MOST_ITEMS : Nat := 20
def PART_BYTES : Nat := 256 * 1024
def MOST_KEY : Nat := 1024
def MOST_NAME : Nat := 512

/-- "What a device that shows a terminal asks of its canvas, on this computer or across the network." -/
inductive CanvasRequest where
  | read (key : String) (revision offset : UInt64)
  | remove (keys : List String)
  | attach (upload name : String) (offset : UInt64) (data : String) (last page : Bool)
  /-- The one action of a browser: to wake. -/
  | act
  deriving DecidableEq

def bounded (text : String) (most : Nat) : Bool :=
  decide (text.utf8ByteSize ≤ most) && !text.toList.contains '\x00'

def CanvasRequest.isValid : CanvasRequest → Bool
  | .read key _ _ => bounded key MOST_KEY
  | .remove keys => decide (keys.length ≤ MOST_ITEMS) && keys.all (bounded · MOST_KEY)
  | .attach upload name _ data _ _ =>
    (L.parseUuid upload).isSome && name != "" && bounded name MOST_NAME && name != "." && name != ".." &&
      name.toList.all (· ∉ ['/', '\\', ':', '\x00']) &&
      decide (data.utf8ByteSize ≤ (PART_BYTES + 2) / 3 * 4)
  | .act => true

def CanvasRequest.toValue : CanvasRequest → Json
  | .read key revision offset => tagged "type" "read"
    [("key", .string key), ("revision", writeNat revision.toNat), ("offset", writeNat offset.toNat)]
  | .remove keys => tagged "type" "remove" [("keys", writeArray .string keys)]
  | .attach upload name offset data last page => tagged "type" "attach"
    [("upload", .string upload), ("name", .string name), ("offset", writeNat offset.toNat),
      ("data", .string data), ("last", .bool last), ("page", .bool page)]
  | .act => tagged "type" "act" [("action", tagged "do" "wake" [])]

def readAct (json : Json) : Option Unit := do
  let fields ← onlyFieldsOf ["do"] json
  if (← textOf fields "do") = "wake" then some () else none

/-- A request by its tag. -/
def CanvasRequest.ofFields (json : Json) (kind : String) : Option CanvasRequest :=
  match kind with
  | "read" => do
    let fields ← onlyFieldsOf ["type", "key", "revision", "offset"] json
    return .read (← textOf fields "key") (← required fields "revision" readU64)
      (← required fields "offset" readU64)
  | "remove" => do
    let fields ← onlyFieldsOf ["type", "keys"] json
    return .remove (← defaulted fields "keys" [] (readArray readString))
  | "attach" => do
    let fields ← onlyFieldsOf ["type", "upload", "name", "offset", "data", "last", "page"] json
    return .attach (← textOf fields "upload") (← textOf fields "name") (← required fields "offset" readU64)
      (← textOf fields "data") (← required fields "last" readBool) (← defaulted fields "page" false readBool)
  | "act" => do
    let fields ← onlyFieldsOf ["type", "action"] json
    let _ ← required fields "action" readAct
    return .act
  | _ => none

def CanvasRequest.fromValue (json : Json) : Option CanvasRequest :=
  (fieldsOf json).bind fun fields => (textOf fields "type").bind (CanvasRequest.ofFields json)

/-! ### Controls -/

inductive TerminalControl where
  | input (bytes : Bytes)
  | message (bytes : Bytes)
  | resize (rows cols : UInt16)
      (widthPixels heightPixels cellWidthPixels cellHeightPixels : UInt32) (claim : Bool)
  | focus (focused : Bool)
  | interrupt
  | close
  | canvas (request : CanvasRequest)
  deriving DecidableEq

def TerminalControl.isInput : TerminalControl → Bool
  | .input _ => true
  | _ => false

def MAX_TERMINAL_ROWS : Nat := 512
def MAX_TERMINAL_COLS : Nat := 1024

/-- A size that a terminal can have. -/
def checkSize (rows cols : UInt16) : Except Fault Unit :=
  reject (¬(1 ≤ rows.toNat ∧ rows.toNat ≤ MAX_TERMINAL_ROWS ∧
      1 ≤ cols.toNat ∧ cols.toNat ≤ MAX_TERMINAL_COLS))
    (.invalid s!"invalid terminal size {rows}x{cols}")

/-- Pixels that fit the cells, if any are given. A product too large for a `u32` fits none. -/
def checkPixels (rows cols : UInt16) (width height cellWidth cellHeight : UInt32) : Except Fault Unit :=
  if width = 0 ∧ height = 0 ∧ cellWidth = 0 ∧ cellHeight = 0 then .ok ()
  else reject (width = 0 ∨ height = 0 ∨ cellWidth = 0 ∨ cellHeight = 0 ∨
      cols.toNat * cellWidth.toNat ≠ width.toNat ∨ rows.toNat * cellHeight.toNat ≠ height.toNat)
    (.invalid s!"invalid terminal pixel geometry {width}x{height} with {cellWidth}x{cellHeight} cells")

/-- The JSON of a control that may be sent. -/
def controlValue : TerminalControl → Except Fault Json
  | .input _ => .error (.invalid "Terminal input is not a control.")
  | .resize rows cols width height cellWidth cellHeight claim => do
    checkSize rows cols
    checkPixels rows cols width height cellWidth cellHeight
    return tagged "type" "resize" [("rows", writeNat rows.toNat), ("cols", writeNat cols.toNat),
      ("widthPixels", writeNat width.toNat), ("heightPixels", writeNat height.toNat),
      ("cellWidthPixels", writeNat cellWidth.toNat), ("cellHeightPixels", writeNat cellHeight.toNat),
      ("claim", .bool claim)]
  | .message bytes => do
    let text ← require (.invalid "A message must be text.") (ofUtf8 bytes)
    return tagged "type" "message" [("text", .string text)]
  | .focus focused => return tagged "type" "focus" [("focused", .bool focused)]
  | .interrupt => return tagged "type" "interrupt" []
  | .close => return tagged "type" "close" []
  | .canvas request => do
    reject (request.isValid L = false) (.invalid "The canvas request is not valid.")
    return tagged "type" "canvas" [("request", request.toValue)]

def encodeControl (control : TerminalControl) : Except Fault Bytes := do
  return L.toVec (← controlValue L control)

def get (value : Json) (field : String) : Option Json := (fieldsOf value).bind (·.lookup field)

def text (value : Json) (field : String) : Except Fault String :=
  require (.invalid s!"Missing {field}.") ((get value field).bind readString)

def number (value : Json) (field : String) : Except Fault UInt64 :=
  require (.invalid s!"Invalid {field}.") ((get value field).bind readU64)

def flag (value : Json) (field : String) (fault : Fault) : Except Fault Bool :=
  require fault ((get value field).bind readBool)

/-- A number that must be a smaller one. -/
def narrow {α : Type} (value : Json) (field what : String) (read : Nat → Option α) : Except Fault α := do
  require (.invalid s!"Invalid {what}.") (read (← number value field).toNat)

def smallU16 (n : Nat) : Option UInt16 := if n < 2 ^ 16 then some (.ofNat n) else none

def smallU32 (n : Nat) : Option UInt32 := if n < 2 ^ 32 then some (.ofNat n) else none

/-- The control that a JSON value holds. -/
def controlOf (value : Json) : Except Fault TerminalControl := do
  match ← text value "type" with
  | "resize" => do
    let control := TerminalControl.resize (← narrow value "rows" "rows" smallU16)
      (← narrow value "cols" "cols" smallU16) (← narrow value "widthPixels" "width" smallU32)
      (← narrow value "heightPixels" "height" smallU32)
      (← narrow value "cellWidthPixels" "cell width" smallU32)
      (← narrow value "cellHeightPixels" "cell height" smallU32)
      (← flag value "claim" (.invalid "Invalid size claim."))
    let _ ← encodeControl L control
    return control
  | "focus" => return .focus (← flag value "focused" (.invalid "Invalid focus."))
  | "message" => return .message (utf8 (← text value "text"))
  | "interrupt" => return .interrupt
  | "close" => return .close
  | "canvas" => do
    let request ← require (.invalid "Missing request.") (get value "request")
    let request ← require .json (CanvasRequest.fromValue request)
    reject (request.isValid L = false) (.invalid "The canvas request is not valid.")
    return .canvas request
  | _ => .error (.invalid "Unsupported terminal operation.")

def decodeControl (body : Bytes) : Except Fault TerminalControl := do
  controlOf L (← require .json (L.fromSlice body))

end Kodosi.Wire
