import Kodosi.Lib.Run
import Kodosi.Wire.Frame

/-! Pictures that a view pastes into a terminal of another computer. The view offers a picture, the host pastes it from its
    file or asks for its parts, and pastes it when all of them are there. -/

namespace Kodosi.Connections.Pictures
open Kodosi.Lib Kodosi.Wire

def TERMINAL_PICTURE_MAX_BYTES : Nat := 32 * 1024 * 1024

/-! ### Pictures and their files -/

/-- The format that the first bytes of a file tell. -/
def PictureFormat.of (bytes : Bytes) : Option PictureFormat :=
  if [0x89, 0x50, 0x4E, 0x47, 0x0D, 0x0A, 0x1A, 0x0A].isPrefixOf bytes then some .png
  else if [0xFF, 0xD8, 0xFF].isPrefixOf bytes then some .jpeg
  else if [0x47, 0x49, 0x46, 0x38, 0x37, 0x61].isPrefixOf bytes ∨
      [0x47, 0x49, 0x46, 0x38, 0x39, 0x61].isPrefixOf bytes then
    some .gif
  else if 12 ≤ bytes.length ∧ [0x52, 0x49, 0x46, 0x46].isPrefixOf bytes ∧
      (bytes.drop 8).take 4 = [0x57, 0x45, 0x42, 0x50] then
    some .webp
  else none

def PictureFormat.extension : PictureFormat → String
  | .png => "png"
  | .jpeg => "jpg"
  | .gif => "gif"
  | .webp => "webp"

def hexDigit (n : Nat) : Char := "0123456789abcdef".toList.getD n '0'

def hexByte (byte : UInt8) : List Char := [hexDigit (byte.toNat / 16), hexDigit (byte.toNat % 16)]

def hex (bytes : Bytes) : String := String.ofList (bytes.flatMap hexByte)

def name (digest : Bytes) (format : PictureFormat) : String :=
  s!"picture-{hex (digest.take 8)}.{PictureFormat.extension format}"

/-- The digest of a picture from its 64 hexadecimal characters. -/
def pictureDigest (text : String) : Option Bytes :=
  if text.toList.length = 64 ∧ text.toList.all (·.toNat < 128) then hexPairs text.toList else none

/-- A picture that a person pastes into a terminal, with its SHA-256 digest. -/
structure Picture (sha : Bytes → Bytes) where
  bytes : Bytes
  format : PictureFormat
  digest : Bytes
  fits : bytes.length ≤ TERMINAL_PICTURE_MAX_BYTES
  known : PictureFormat.of bytes = some format
  hashed : digest = sha bytes

variable {sha : Bytes → Bytes}

def Picture.new (sha : Bytes → Bytes) (bytes : Bytes) : Except String (Picture sha) :=
  if hfits : bytes.length ≤ TERMINAL_PICTURE_MAX_BYTES then
    match hknown : PictureFormat.of bytes with
    | some format => .ok ⟨bytes, format, sha bytes, hfits, hknown, rfl⟩
    | none => .error "Kodosi pastes PNG, JPEG, GIF and WebP pictures."
  else .error "Kodosi sends pictures up to 32 MB."

def Picture.name (p : Picture sha) : String := Pictures.name p.digest p.format

def Picture.sha256 (p : Picture sha) : String := hex p.digest

/-! ### The terminal -/

/-- What a host gives its terminal to paste: a picture that it may have the file of, or a picture. -/
inductive HostPicture (sha : Bytes → Bytes) where
  | known (digest : Bytes) (format : PictureFormat)
  | whole (picture : Picture sha)

/-- A picture that waits for the terminal, and where its answer goes. Behind that stand which offer of the view it is for
    and the parts that it came in. -/
structure Request (sha : Bytes → Bytes) where
  ticket : Nat
  picture : HostPicture sha
  offer : Nat
  parts : List (Nat × Bytes)

/-- A picture whose file is written, and then its path or why there is none. -/
structure Saving (sha : Bytes → Bytes) where
  request : Request sha
  picture : Picture sha
  path : Option (Except String String)

/-- A path that was pasted, and what its file held then. -/
structure Pasted (sha : Bytes → Bytes) where
  request : Request sha
  path : String
  content : Option Bytes

structure Terminal (sha : Bytes → Bytes) where
  requests : List (Request sha)
  saving : List (Saving sha)
  writing : List Nat
  folder : String → Option Bytes
  pasted : List (Pasted sha)

/-- Saves the picture. A picture that is there already is not written again. -/
def save (folder : String → Option Bytes) (picture : Picture sha) : String → Option Bytes :=
  if (folder picture.name).isSome then folder else Function.update folder picture.name (some picture.bytes)

/-! ### The host -/

/-- A picture whose parts a view sends. -/
structure Receiving where
  offer : PictureOffer
  bytes : Bytes
  number : Nat
  parts : List (Nat × Bytes)

/-- The answer that the host waits for. -/
structure Answer where
  offer : PictureOffer
  whole : Bool
  ticket : Nat
  reply : Option (Except String Bool)
  number : Nat

/-- The host's end of a view's connection and the terminal behind it, the answers on their way to the view, and all offers
    that it took. -/
structure Host (sha : Bytes → Bytes) where
  picture : Option Receiving
  pictureAnswer : Option Answer
  tickets : Nat
  ended : Option String
  terminal : Terminal sha
  sent : List PictureState
  offers : List PictureOffer

namespace Host

def new (sha : Bytes → Bytes) : Host sha := ⟨none, none, 0, none, ⟨[], [], [], fun _ => none, []⟩, [], []⟩

def fail (h : Host sha) (message : String) : Host sha := { h with ended := some message }

def send (h : Host sha) (state : PictureState) : Host sha := { h with sent := h.sent ++ [state] }

/-- Gives the terminal a picture and waits for the answer. -/
def submitPicture (h : Host sha) (picture : HostPicture sha) (offer : PictureOffer) (whole : Bool) (number : Nat)
    (parts : List (Nat × Bytes)) : Host sha :=
  { h with
    terminal := { h.terminal with requests := h.terminal.requests ++ [⟨h.tickets, picture, number, parts⟩] }
    pictureAnswer := some ⟨offer, whole, h.tickets, none, number⟩
    tickets := h.tickets + 1 }

/-- A view offers a picture. The terminal pastes it at once if it has its file. The next picture takes the place of one
    that the view stopped waiting for. -/
def offered (h : Host sha) (offer : PictureOffer) : Host sha :=
  match (pictureDigest offer.sha256).filter fun _ =>
      0 < offer.size.toNat ∧ offer.size.toNat ≤ TERMINAL_PICTURE_MAX_BYTES with
  | none => h.fail "The picture offer is not valid."
  | some digest =>
    { h with picture := none, pictureAnswer := none, offers := h.offers ++ [offer] }.submitPicture
      (.known digest offer.format) offer false h.offers.length []

/-- Answers a view's picture: pasted, refused, or asked for when this host does not have it. -/
def pictureAnswered (h : Host sha) (offer : PictureOffer) (number : Nat) (answer : Except String Bool) (memory : Bool) :
    Host sha :=
  match answer with
  | .ok true => h.send ⟨offer.id, offer.size, 0, .pasted, ""⟩
  | .error message => h.send ⟨offer.id, 0, 0, .refused, message⟩
  | .ok false =>
    if memory then { h with picture := some ⟨offer, [], number, []⟩ }.send ⟨offer.id, 0, 0, .receiving, ""⟩
    else h.send ⟨offer.id, 0, 0, .refused, "The other computer is receiving other pictures. Paste it again in a moment."⟩

/-- Pastes a picture whose parts all arrived, if it is the picture that the view offered. -/
def paste (h : Host sha) (r : Receiving) : Host sha :=
  match (Picture.new sha r.bytes).toOption.filter fun picture =>
      picture.sha256 = r.offer.sha256 ∧ picture.format = r.offer.format with
  | none => h.pictureAnswered r.offer r.number (.error "The picture arrived damaged. Paste it again.") false
  | some picture => h.submitPicture (.whole picture) r.offer true r.number r.parts

/-- A part of the picture. The view hears how much is there, and when. -/
def part (h : Host sha) (id : Uuid) (offset : UInt64) (bytes : Bytes) (elapsed : UInt64) : Host sha :=
  match h.picture.filter fun r => r.offer.id = id ∧ offset.toNat = r.bytes.length with
  | none => h.fail "A picture part arrived out of order."
  | some r =>
    if offset.toNat + bytes.length > r.offer.size.toNat then h.fail "A picture part exceeds its picture."
    else
      let r := { r with bytes := r.bytes ++ bytes, parts := r.parts ++ [(offset.toNat, bytes)] }
      let h := h.send ⟨id, .ofNat r.bytes.length, elapsed, .receiving, ""⟩
      if r.bytes.length = r.offer.size.toNat then { h with picture := none }.paste r
      else { h with picture := some r }

/-- The terminal's answer for the picture that the host waits for. -/
def answered (h : Host sha) (memory : Bool) : Host sha :=
  match h.pictureAnswer with
  | some ⟨offer, whole, _, some reply, number⟩ =>
    { h with pictureAnswer := none }.pictureAnswered offer number (if whole then reply.map fun _ => true else reply) memory
  | _ => h

/-- The terminal does not answer in time, or not at all. -/
def unanswered (h : Host sha) : Host sha :=
  match h.pictureAnswer with
  | some a =>
    { h with pictureAnswer := none }.pictureAnswered a.offer a.number (.error "The terminal did not take the picture.") false
  | none => h

/-! ### What the terminal does for the host -/

/-- The terminal answers. Nobody hears it when the host waits for another answer by now. -/
def reply (h : Host sha) (ticket : Nat) (answer : Except String Bool) : Host sha :=
  match h.pictureAnswer with
  | some a => if a.ticket = ticket then { h with pictureAnswer := some { a with reply := some answer } } else h
  | none => h

/-- Pastes the path of a saved picture as a person's input. -/
def pasteSaved (h : Host sha) (request : Request sha) (path : Except String String) (refused : Option String) : Host sha :=
  match path, refused with
  | .error message, _ => h.reply request.ticket (.error message)
  | .ok _, some message => h.reply request.ticket (.error message)
  | .ok path, none =>
    { h with
      terminal :=
        { h.terminal with
          pasted := h.terminal.pasted ++ [⟨request, path, h.terminal.folder path⟩]
          writing := h.terminal.writing ++ [request.ticket] } }

/-- The terminal takes the next picture. -/
def taken (h : Host sha) (refused : Option String) : Host sha :=
  match h.terminal.requests with
  | [] => h
  | request :: rest =>
    let h := { h with terminal := { h.terminal with requests := rest } }
    match request.picture with
    | .whole picture =>
      { h with terminal := { h.terminal with saving := h.terminal.saving ++ [⟨request, picture, none⟩] } }
    | .known digest format =>
      if (h.terminal.folder (name digest format)).isSome then h.pasteSaved request (.ok (name digest format)) refused
      else h.reply request.ticket (.ok false)

/-- The file of a picture is written, or not. -/
def saved (h : Host sha) (k : Nat) (failed : Option String) : Host sha :=
  match h.terminal.saving[k]? with
  | some ⟨request, picture, none⟩ =>
    match failed with
    | some message =>
      { h with terminal :=
        { h.terminal with saving := h.terminal.saving.set k ⟨request, picture, some (.error message)⟩ } }
    | none =>
      { h with terminal :=
        { h.terminal with
          saving := h.terminal.saving.set k ⟨request, picture, some (.ok picture.name)⟩
          folder := save h.terminal.folder picture } }
  | _ => h

/-- The terminal hears that the file of a picture is there. -/
def finished (h : Host sha) (k : Nat) (refused : Option String) : Host sha :=
  match h.terminal.saving[k]? with
  | some ⟨request, _, some path⟩ =>
    { h with terminal := { h.terminal with saving := h.terminal.saving.eraseIdx k } }.pasteSaved request path refused
  | _ => h

/-- The program behind the terminal has a path that was pasted, or never will. -/
def written (h : Host sha) (k : Nat) (failed : Option String) : Host sha :=
  match h.terminal.writing[k]? with
  | some ticket =>
    { h with terminal := { h.terminal with writing := h.terminal.writing.eraseIdx k } }.reply ticket
      (match failed with | some message => .error message | none => .ok true)
  | none => h

end Host

/-- What happens at the host: frames of the view, answers, and what the terminal and others do with the folder. -/
inductive Event (sha : Bytes → Bytes) where
  | offered (offer : PictureOffer)
  | part (id : Uuid) (offset : UInt64) (bytes : Bytes) (elapsed : UInt64)
  | answered (memory : Bool)
  | unanswered
  | lost (message : String)
  | taken (refused : Option String)
  | saved (k : Nat) (failed : Option String)
  | finished (k : Nat) (refused : Option String)
  | written (k : Nat) (failed : Option String)
  | savedOther (picture : Picture sha)
  | removed (path : String)

/-- One thing that happens. A connection that ended takes nothing more, while the terminal goes on. -/
def Host.step (h : Host sha) : Event sha → Host sha
  | .offered offer => if h.ended.isSome then h else h.offered offer
  | .part id offset bytes elapsed => if h.ended.isSome then h else h.part id offset bytes elapsed
  | .answered memory => if h.ended.isSome then h else h.answered memory
  | .unanswered => if h.ended.isSome then h else h.unanswered
  | .lost message => if h.ended.isSome then h else h.fail message
  | .taken refused => h.taken refused
  | .saved k failed => h.saved k failed
  | .finished k refused => h.finished k refused
  | .written k failed => h.written k failed
  | .savedOther picture => { h with terminal := { h.terminal with folder := save h.terminal.folder picture } }
  | .removed path => { h with terminal := { h.terminal with folder := Function.update h.terminal.folder path none } }

/-! ### The view -/

/-- A picture on its way to the host. -/
structure Upload (sha : Bytes → Bytes) where
  id : Uuid
  picture : Picture sha
  asked : Bool
  sent : Nat
  received : Nat

/-- A view, what its callers were told, and the ids that it gave its offers. -/
structure View (sha : Bytes → Bytes) where
  upload : Option (Upload sha)
  ended : Option String
  told : List (Uuid × Except String Unit)
  ids : List Uuid

/-- The frames of a view that are about pictures. -/
inductive Packet where
  | picture (offer : PictureOffer)
  | part (id : Uuid) (offset : UInt64) (bytes : Bytes)
  deriving DecidableEq

namespace View

def new (sha : Bytes → Bytes) : View sha := ⟨none, none, [], []⟩

def fail (v : View sha) (message : String) : View sha := { v with ended := some message }

def offerOf (id : Uuid) (picture : Picture sha) : PictureOffer :=
  ⟨id, .ofNat picture.bytes.length, picture.sha256, picture.format⟩

/-- Offers a picture, unless another one is on its way. -/
def offer (v : View sha) (id : Uuid) (picture : Picture sha) : View sha × List Packet :=
  if v.upload.isSome then ({ v with told := v.told ++ [(id, .error "Busy")], ids := v.ids ++ [id] }, [])
  else
    ({ v with upload := some ⟨id, picture, false, 0, 0⟩, ids := v.ids ++ [id] }, [.picture (offerOf id picture)])

/-- Sends the next part of a picture that the host asked for, when the link has room for it. -/
def sendPart (v : View sha) (room : Bool) : View sha × List Packet :=
  match v.upload with
  | some u =>
    if u.asked ∧ u.sent < u.picture.bytes.length ∧ (u.sent = u.received ∨ room) then
      ({ v with upload := some { u with sent := min u.picture.bytes.length (u.sent + PICTURE_PART) } },
        [.part u.id (.ofNat u.sent) ((u.picture.bytes.drop u.sent).take PICTURE_PART)])
    else (v, [])
  | none => (v, [])

/-- The host did not confirm the picture in time. -/
def giveUp (v : View sha) : View sha :=
  match v.upload with
  | some u =>
    { v with
      upload := none
      told := v.told ++ [(u.id, .error "The other computer did not confirm the picture. Paste it again.")] }
  | none => v

/-- Follows the host's answer for the picture on its way. A late answer, for a picture that this view stopped waiting for,
    changes nothing. -/
def pictureState (v : View sha) (state : PictureState) : View sha :=
  match v.upload.filter fun u => u.id = state.id with
  | none => v
  | some u =>
    match state.step with
    | .receiving =>
      if state.received.toNat < u.received ∨ state.received.toNat > u.sent then
        v.fail "The host confirmed bytes of the picture that were not sent."
      else { v with upload := some { u with received := state.received.toNat, asked := true } }
    | .pasted => { v with upload := none, told := v.told ++ [(u.id, .ok ())] }
    | .refused => { v with upload := none, told := v.told ++ [(u.id, .error state.message)] }

end View

/-! ### Both ends -/

/-- A view and its host, and the frames on their way to the host. -/
structure Connection (sha : Bytes → Bytes) where
  view : View sha
  host : Host sha
  up : List Packet

inductive Happening (sha : Bytes → Bytes) where
  | offer (id : Uuid) (picture : Picture sha)
  | sendPart (room : Bool)
  | giveUp
  | hear
  | receive (elapsed : UInt64)
  | host (event : Event sha)

namespace Connection

def new (sha : Bytes → Bytes) : Connection sha := ⟨.new sha, .new sha, []⟩

/-- The host takes the next frame. -/
def receive (c : Connection sha) (elapsed : UInt64) : Connection sha :=
  match c.up with
  | [] => c
  | .picture offer :: rest => { c with host := c.host.step (.offered offer), up := rest }
  | .part id offset bytes :: rest => { c with host := c.host.step (.part id offset bytes elapsed), up := rest }

/-- The view takes the next answer. -/
def hear (c : Connection sha) : Connection sha :=
  match c.host.sent with
  | [] => c
  | state :: rest => { c with view := c.view.pictureState state, host := { c.host with sent := rest } }

def step (c : Connection sha) : Happening sha → Connection sha
  | .offer id picture =>
    { c with view := (c.view.offer id picture).1, up := c.up ++ (c.view.offer id picture).2 }
  | .sendPart room => { c with view := (c.view.sendPart room).1, up := c.up ++ (c.view.sendPart room).2 }
  | .giveUp => { c with view := c.view.giveUp }
  | .hear => c.hear
  | .receive elapsed => c.receive elapsed
  | .host event => { c with host := c.host.step event }

end Connection

/-- Each offer has a new id, and all frames come over the connection, which is not lost. -/
def Allowed (c : Connection sha) : Happening sha → Prop
  | .offer id _ => id ∉ c.view.ids
  | .host (.offered _) => False
  | .host (.part _ _ _ _) => False
  | .host (.lost _) => False
  | _ => True

end Kodosi.Connections.Pictures
