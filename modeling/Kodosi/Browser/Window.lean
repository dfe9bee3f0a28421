import Kodosi.Browser.Flow

/-! One window of the shared browser: the pipes of its viewers, the flow of its frames, and when it captures. -/

namespace Kodosi.Browser

def RETRY_CAPTURE : Nat := SECOND
def SLEEP_AFTER : Nat := 600 * SECOND

/-- What the window tells the engine about its frames. -/
inductive ToEngine where
  | capture (tab : Int) (bitrate : Nat)
  | stop
  | keyframe
  | bitrate (bitrate : Nat)

/-- A frame on a pipe, with how many frames the window had made with it. -/
structure Shown where
  id : UInt32
  key : Bool
  made : Nat
  deriving DecidableEq

/-- The pipe of one join, and the frames that were put on it. -/
structure Pipe where
  number : Nat
  frames : List Shown
  deriving DecidableEq

/-- A window. `told` is what the engine heard; `made` counts the frames, and `gone` has the frames of the pipes that
    are no longer in use. -/
structure Live where
  flow : Flow
  seats : Viewers Pipe
  active : Option Int
  capturing : Option Int
  captureFailedAt : Option Nat
  nextFrame : UInt32
  usedAt : Nat
  told : List ToEngine
  made : Nat
  gone : List (List Shown)

/-- What comes to a window. A message can come from a viewer whose pipe is gone, or from nobody; a frame names the
    viewers whose pipes do not take it. -/
inductive Event where
  | join (viewer : String) (seat : Nat)
  | watch (viewer : String) (now : Nat)
  | ack (viewer : String) (frame : UInt32) (now : Nat)
  | keyframe (now : Nat)
  | leave (viewer : String) (seat : Nat)
  | touch (now : Nat)
  | frame (key : Bool) (bytes now : Nat) (refused : List String)
  | captureFailed (now : Nat)
  | tabs (active : Option Int)
  | tick (now : Nat)

namespace Live

def new (now : Nat) : Live := ⟨.new, ∅, none, none, none, 0, now, [], 0, []⟩

def command (s : Live) (told : ToEngine) : Live := { s with told := s.told ++ [told] }

def wanted (s : Live) : Option Int := if s.flow.isEmpty then none else s.active

def updateCapture (s : Live) : Live :=
  if s.wanted = s.capturing then s
  else
    let s : Live := { s with capturing := s.wanted }
    match s.capturing with
    | some tab => s.command (.capture tab FIRST_BITRATE)
    | none => s.command .stop

/-- The frames of a viewer's pipe. -/
def framesOf (s : Live) (viewer : String) : List (List Shown) := (s.seats[viewer]?.map (·.frames)).toList

def join (s : Live) (viewer : String) (number : Nat) : Live :=
  { s with seats := s.seats.insert viewer ⟨number, []⟩, gone := s.gone ++ s.framesOf viewer }

/-- Frees a viewer's seat only for the join that took it. -/
def leave (s : Live) (viewer : String) (number : Nat) : Live :=
  if s.seats[viewer]?.any (·.number == number) then
    updateCapture { s with
      seats := s.seats.erase viewer, flow := s.flow.leave viewer, gone := s.gone ++ s.framesOf viewer }
  else s

def watch (s : Live) (viewer : String) (now : Nat) : Live :=
  (updateCapture { s with flow := s.flow.seat viewer now, usedAt := now }).command .keyframe

def keyframe (s : Live) (now : Nat) : Live :=
  let (flow, allowed) := s.flow.keyframeAllowed now
  let s : Live := { s with flow }
  if allowed then s.command .keyframe else s

/-- Puts a frame on the pipe of one viewer; a pipe that is full or gone loses it. -/
def deliver (shown : Shown) (refused : List String) (s : Live) (viewer : String) : Live :=
  match s.seats[viewer]? with
  | some pipe =>
    if viewer ∈ refused then { s with flow := s.flow.lost viewer shown.id }
    else { s with seats := s.seats.insert viewer { pipe with frames := pipe.frames ++ [shown] } }
  | none => { s with flow := s.flow.lost viewer shown.id }

def drop (s : Live) (viewer : String) : Live :=
  { s with seats := s.seats.erase viewer, gone := s.gone ++ s.framesOf viewer }

def frame (s : Live) (key : Bool) (bytes now : Nat) (refused : List String) : Live :=
  let id := s.nextFrame + 1
  let (flow, delivery) := s.flow.frame id key bytes now
  let s : Live := { s with nextFrame := id, made := s.made + 1, flow }
  let s := delivery.to'.foldl (deliver ⟨id, key, s.made⟩ refused) s
  let s := if delivery.askKeyframe then s.command .keyframe else s
  delivery.dropped.foldl drop s

def tabs (s : Live) (active : Option Int) : Live := updateCapture { s with active }

/-- Tries a capture again that failed, steers, and says whether the window goes to sleep. -/
def tick (s : Live) (now : Nat) : Live × Bool :=
  let s := if s.captureFailedAt.any (RETRY_CAPTURE ≤ now - ·) then updateCapture { s with captureFailedAt := none } else s
  let (flow, bitrate) := s.flow.steer now
  let s : Live := { s with flow }
  let s := match bitrate with
    | some bitrate => s.command (.bitrate bitrate)
    | none => s
  (s, s.flow.isEmpty && SLEEP_AFTER ≤ now - s.usedAt)

/-- The window after an event; a window that goes to sleep is closed. -/
def handle (s : Live) : Event → Option Live
  | .join viewer seat => some (s.join viewer seat)
  | .watch viewer now => some (s.watch viewer now)
  | .ack viewer frame now => some { s with flow := s.flow.ack viewer frame now }
  | .keyframe now => some (s.keyframe now)
  | .leave viewer seat => some (s.leave viewer seat)
  | .touch now => some { s with usedAt := now }
  | .frame key bytes now refused => some (s.frame key bytes now refused)
  | .captureFailed now => some { s with capturing := none, captureFailedAt := some now }
  | .tabs active => some (s.tabs active)
  | .tick now => match s.tick now with
    | (s, false) => some s
    | (_, true) => none

end Live

end Kodosi.Browser
