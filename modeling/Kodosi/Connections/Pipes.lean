import Kodosi.Lib.Dictionary
import Kodosi.Lib.Parts

/-! The pipes of documents over one connection of a terminal: a view and a document write frames to each other, which go
    in parts between everything else and are joined again at the other end. The picture of a browser has a connection of
    its own, with one pipe. -/

namespace Kodosi.Connections.Pipes
open Kodosi.Lib

abbrev Uuid := Nat
abbrev Bytes := List UInt8

def PIPE_PART : Nat := 32 * 1024
def MOST_PIPE_FRAME : Nat := 64 * 1024 * 1024
def PIPE_QUEUE : Nat := 64
def MOST_PIPES : Nat := 16
def LEAVING_FRAMES : Nat := 64
def PIPE_PARTS_WAITING : Nat := 256

/-- What goes over a connection: pipes, and anything else between them. -/
inductive Packet where
  | pipeOpen (pipe : Uuid) (key name : String)
  | pipeData (pipe : Uuid) (part : Piece UInt8)
  | pipeClose (pipe : Uuid)
  | other

/-- A frame in the parts that go over the connection. -/
def chunks (pipe : Uuid) (frame : Bytes) : List Packet := (parts PIPE_PART frame).map (.pipeData pipe)

/-- The channel from a connection to whoever reads a pipe, and what he took from it. -/
structure Ends where
  queue : List Bytes
  read : Bool
  handed : List Bytes

def Ends.new : Ends := ⟨[], true, []⟩

/-- Gives a frame to the reader, unless he is gone or his channel is full. -/
def Ends.trySend (e : Ends) (frame : Bytes) : Option Ends :=
  if e.read ∧ e.queue.length < PIPE_QUEUE then some { e with queue := e.queue ++ [frame] } else none

/-- The reader takes the next frame. -/
def Ends.take (e : Ends) : Ends :=
  match e.queue with
  | [] => e
  | frame :: rest => { e with queue := rest, handed := e.handed ++ [frame] }

/-! ### One end of a connection -/

/-- The pipes that are open at one end with what each has of its next frame, and the channels of their readers. -/
structure Inlet where
  pipes : Dictionary Uuid Bytes
  ends : Uuid → Ends

namespace Inlet

def new : Inlet := ⟨∅, fun _ => .new⟩

def update (i : Inlet) (pipe : Uuid) (f : Ends → Ends) : Inlet :=
  { i with ends := fun p => if p = pipe then f (i.ends p) else i.ends p }

def insert (i : Inlet) (pipe : Uuid) : Inlet :=
  { i.update pipe fun _ => .new with pipes := i.pipes.insert pipe [] }

def remove (i : Inlet) (pipe : Uuid) : Inlet := { i with pipes := i.pipes.erase pipe }

/-- A part comes in. A reader who falls behind loses his pipe, which the other end is told. -/
def pipePart (i : Inlet) (pipe : Uuid) (part : Piece UInt8) : Except String (Inlet × Bool) :=
  match i.pipes.lookup pipe with
  | none => .ok (i, false)
  | some filling =>
    if filling.length + part.data.length > MOST_PIPE_FRAME then .error "A document frame exceeds its bound."
    else if part.more then .ok ({ i with pipes := i.pipes.insert pipe (filling ++ part.data) }, false)
    else
      match (i.ends pipe).trySend (filling ++ part.data) with
      | some e => .ok ({ i.update pipe fun _ => e with pipes := i.pipes.insert pipe [] }, false)
      | none => .ok (i.remove pipe, true)

end Inlet

/-! ### The connection of a terminal -/

/-- The task that carries a pipe of the view, with the parts of its frame that are not sent yet. -/
inductive Task where
  | none
  | carrying (rest : List (Piece UInt8))
  | done

def Task.rest : Task → List (Piece UInt8)
  | .carrying rest => rest
  | _ => []

/-- The document at the end of a pipe. -/
inductive Document where
  | none
  | opening
  | carrying
  | done
  deriving DecidableEq

/-- What the documents give the connection to send. -/
inductive Leaving where
  | frame (pipe : Uuid) (frame : Bytes)
  | closed (pipe : Uuid)

/-- The view at one end, the host at the other one, and what is on its way. Behind that stand the frames that were
    written. -/
structure Connection where
  tasks : Uuid → Task
  commands : List Packet
  view : Inlet
  toHost : List Packet
  host : Inlet
  documents : Uuid → Document
  leaving : List Leaving
  pipeParts : List Packet
  toView : List Packet
  shown : Uuid → List Bytes
  told : Uuid → List Bytes

inductive Event where
  | opens (pipe : Uuid) (key name : String)
  | viewWrites (pipe : Uuid) (frame : Bytes)
  | viewSends (pipe : Uuid)
  | viewEnds (pipe : Uuid)
  | command
  | hostReceives
  | documentOpens (pipe : Uuid)
  | documentFails (pipe : Uuid)
  | documentWrites (pipe : Uuid) (frame : Bytes)
  | documentEnds (pipe : Uuid)
  | left
  | sendPart
  | viewReceives
  | viewTakes (pipe : Uuid)
  | documentTakes (pipe : Uuid)
  | viewLeaves (pipe : Uuid)
  | documentLeaves (pipe : Uuid)
  | viewOther
  | hostOther

/-- The frame that an event writes. -/
def Event.frame : Event → Option Bytes
  | .viewWrites _ frame | .documentWrites _ frame => some frame
  | _ => none

def set {α : Type} (f : Uuid → α) (pipe : Uuid) (a : α) : Uuid → α := fun p => if p = pipe then a else f p

namespace Connection

def new : Connection := ⟨fun _ => .none, [], .new, [], .new, fun _ => .none, [], [], [], fun _ => [], fun _ => []⟩

/-- The host opens a pipe: it asks for the document while the parts that come in wait. -/
def openPipe (s : Connection) (pipe : Uuid) : Connection :=
  if MOST_PIPES ≤ s.host.pipes.keys.length then
    { s with pipeParts := s.pipeParts ++ [.pipeClose pipe], documents := set s.documents pipe .done }
  else { s with host := s.host.insert pipe, documents := set s.documents pipe .opening }

def step (s : Connection) : Event → Except String Connection
  | .opens pipe key name =>
    match s.tasks pipe with
    | .none => .ok { s with
        tasks := set s.tasks pipe (.carrying [])
        commands := s.commands ++ [.pipeOpen pipe key name] }
    | _ => .ok s
  | .viewWrites pipe frame =>
    match s.tasks pipe with
    | .carrying [] => .ok { s with
        tasks := set s.tasks pipe (.carrying (parts PIPE_PART frame))
        shown := set s.shown pipe (s.shown pipe ++ [frame]) }
    | _ => .ok s
  | .viewSends pipe =>
    match s.tasks pipe with
    | .carrying (part :: rest) => .ok { s with
        tasks := set s.tasks pipe (.carrying rest)
        commands := s.commands ++ [.pipeData pipe part] }
    | _ => .ok s
  | .viewEnds pipe =>
    match s.tasks pipe with
    | .carrying [] => .ok { s with
        tasks := set s.tasks pipe .done
        commands := s.commands ++ [.pipeClose pipe] }
    | _ => .ok s
  | .command =>
    match s.commands with
    | [] => .ok s
    | packet :: rest =>
      let s := { s with commands := rest, toHost := s.toHost ++ [packet] }
      match packet with
      | .pipeOpen pipe _ _ => .ok { s with view := s.view.insert pipe }
      | .pipeClose pipe => .ok { s with view := s.view.remove pipe }
      | _ => .ok s
  | .hostReceives =>
    match s.toHost with
    | [] => .ok s
    | packet :: rest =>
      let s := { s with toHost := rest }
      match packet with
      | .pipeOpen pipe _ _ => .ok (s.openPipe pipe)
      | .pipeData pipe part => do
        let (host, closed) ← s.host.pipePart pipe part
        return { s with host, pipeParts := if closed then s.pipeParts ++ [.pipeClose pipe] else s.pipeParts }
      | .pipeClose pipe => .ok { s with host := s.host.remove pipe }
      | .other => .ok s
  | .documentOpens pipe =>
    if s.documents pipe = .opening then .ok { s with documents := set s.documents pipe .carrying } else .ok s
  | .documentFails pipe =>
    if s.documents pipe = .opening ∧ s.leaving.length < LEAVING_FRAMES then .ok { s with
      documents := set s.documents pipe .done
      host := s.host.update pipe fun e => { e with read := false }
      leaving := s.leaving ++ [.closed pipe] }
    else .ok s
  | .documentWrites pipe frame =>
    if s.documents pipe = .carrying ∧ s.leaving.length < LEAVING_FRAMES then .ok { s with
      leaving := s.leaving ++ [.frame pipe frame]
      told := set s.told pipe (s.told pipe ++ [frame]) }
    else .ok s
  | .documentEnds pipe =>
    if s.documents pipe = .carrying ∧ s.leaving.length < LEAVING_FRAMES then .ok { s with
      documents := set s.documents pipe .done
      leaving := s.leaving ++ [.closed pipe] }
    else .ok s
  | .left =>
    if s.pipeParts.length < PIPE_PARTS_WAITING then
      match s.leaving with
      | [] => .ok s
      | .closed pipe :: rest => .ok { s with
          leaving := rest
          host := s.host.remove pipe
          pipeParts := s.pipeParts ++ [.pipeClose pipe] }
      | .frame pipe frame :: rest => .ok { s with leaving := rest, pipeParts := s.pipeParts ++ chunks pipe frame }
    else .ok s
  | .sendPart =>
    match s.pipeParts with
    | [] => .ok s
    | packet :: rest => .ok { s with pipeParts := rest, toView := s.toView ++ [packet] }
  | .viewReceives =>
    match s.toView with
    | [] => .ok s
    | packet :: rest =>
      let s := { s with toView := rest }
      match packet with
      | .pipeData pipe part => do
        let (view, closed) ← s.view.pipePart pipe part
        return { s with view, toHost := if closed then s.toHost ++ [.pipeClose pipe] else s.toHost }
      | .pipeClose pipe => .ok { s with view := s.view.remove pipe }
      | _ => .ok s
  | .viewTakes pipe => .ok { s with view := s.view.update pipe Ends.take }
  | .documentTakes pipe => .ok { s with host := s.host.update pipe Ends.take }
  | .viewLeaves pipe => .ok { s with view := s.view.update pipe fun e => { e with read := false } }
  | .documentLeaves pipe => .ok { s with host := s.host.update pipe fun e => { e with read := false } }
  | .viewOther => .ok { s with toHost := s.toHost ++ [.other] }
  | .hostOther => .ok { s with toView := s.toView ++ [.other] }

end Connection

/-! ### A straight connection -/

inductive Side where
  | view
  | host
  deriving DecidableEq

def Side.across : Side → Side
  | .view => .host
  | .host => .view

/-- What goes over a straight connection, which has one pipe and reads no id. -/
inductive Carriage where
  | heartbeat
  | data (part : Piece UInt8)
  | close

/-- One side: what it has of the next frame, the channel of its reader, and whether it still carries. Behind that stand
    the frames that were written at it. -/
structure Half where
  filling : Bytes
  ends : Ends
  running : Bool
  written : List Bytes

/-- Both sides, and what is on its way to each. -/
structure Straight where
  half : Side → Half
  wire : Side → List Carriage

inductive StraightEvent where
  | alive (side : Side)
  | receives (side : Side)
  | writes (side : Side) (frame : Bytes)
  | ends (side : Side)
  | takes (side : Side)
  | leaves (side : Side)
  | stops (side : Side)

def StraightEvent.frame : StraightEvent → Option Bytes
  | .writes _ frame => some frame
  | _ => none

namespace Straight

def new : Straight := ⟨fun _ => ⟨[], .new, true, []⟩, fun _ => []⟩

def change (s : Straight) (side : Side) (f : Half → Half) : Straight :=
  { s with half := fun d => if d = side then f (s.half d) else s.half d }

/-- Gives something to the channel, whose other end is across. -/
def send (s : Straight) (side : Side) (more : List Carriage) : Straight :=
  { s with wire := fun d => if d = side.across then s.wire d ++ more else s.wire d }

/-- One step of `carry` at a side, or of its reader and its writer. -/
def step (s : Straight) : StraightEvent → Except String Straight
  | .alive side => .ok (if (s.half side).running then s.send side [.heartbeat] else s)
  | .receives side =>
    if (s.half side).running then
      match s.wire side with
      | [] => .ok s
      | first :: rest =>
        let s : Straight := { s with wire := fun d => if d = side then rest else s.wire d }
        match first with
        | .heartbeat => .ok s
        | .close => .ok (s.change side fun h => { h with running := false })
        | .data part =>
          let h := s.half side
          if h.filling.length + part.data.length > MOST_PIPE_FRAME then .error "A document frame exceeds its bound."
          else if part.more then .ok (s.change side fun h => { h with filling := h.filling ++ part.data })
          else
            match h.ends.trySend (h.filling ++ part.data) with
            | some e => .ok (s.change side fun h => { h with filling := [], ends := e })
            | none => .ok ((s.change side fun h => { h with filling := [], running := false }).send side [.close])
    else .ok s
  | .writes side frame =>
    .ok (if (s.half side).running then
      (s.change side fun h => { h with written := h.written ++ [frame] }).send side ((parts PIPE_PART frame).map .data) else s)
  | .ends side =>
    .ok (if (s.half side).running then (s.change side fun h => { h with running := false }).send side [.close] else s)
  | .takes side => .ok (s.change side fun h => { h with ends := h.ends.take })
  | .leaves side => .ok (s.change side fun h => { h with ends := { h.ends with read := false } })
  | .stops side => .ok (s.change side fun h => { h with running := false })

end Straight

end Kodosi.Connections.Pipes
