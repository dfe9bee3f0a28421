import Mathlib

/-! How the frames of one encoder go to all viewers of a window. Viewers report each frame, and a viewer that falls
    behind gets no new frames until a key frame. Times are in nanoseconds. -/

namespace Kodosi.Browser

/-- Bytes on their way to one viewer before it counts as behind. -/
def WAITING_MOST : Int := 2 * 1024 * 1024

/-- A viewer that is behind can take a key frame again when this much still waits. -/
def WAITING_DRAINED : Int := 256 * 1024

def SECOND : Nat := 1000000000
def KEYFRAME_FLOOR : Nat := SECOND
def HOPELESS : Nat := 15 * SECOND
def QUEUE_LIMIT : Nat := 40000000
def STEER_EVERY : Nat := 250000000
def RISE_AFTER : Nat := 2 * SECOND
def ROUND_WINDOW : Nat := 10 * SECOND
def FIRST_BITRATE : Nat := 8000000
def LOWEST_BITRATE : Nat := 1000000
def HIGHEST_BITRATE : Nat := 40000000

structure Sent where
  id : UInt32
  bytes : Nat
  at' : Nat

/-- One viewer's side of the stream. What waits is an integer, so that an underflow would show. -/
structure Seat where
  live : Bool
  sent : List Sent
  waiting : Int
  overSince : Option Nat
  round : Option Nat
  leastRound : Option Nat
  windowLeast : Option Nat
  windowAt : Nat

/-- What one frame is to one seat. -/
inductive Outcome where
  | sent
  | behind
  | hopeless
  | waits (wantsKey : Bool)
  deriving DecidableEq

namespace Seat

def new (now : Nat) : Seat := ⟨false, [], 0, none, none, none, none, now⟩

def queue (s : Seat) : Nat :=
  match s.round, s.leastRound with
  | some round, some least => round - least
  | _, _ => 0

def measure (s : Seat) (round now : Nat) : Seat :=
  let windowLeast := some (s.windowLeast.elim round (min · round))
  let leastRound := some (s.leastRound.elim round (min · round))
  let s : Seat := { s with round := some round, windowLeast, leastRound }
  if ROUND_WINDOW ≤ now - s.windowAt then
    { s with leastRound := s.windowLeast, windowLeast := none, windowAt := now }
  else s

/-- One turn of the loop over the seats. -/
def frame (s : Seat) (id : UInt32) (key : Bool) (bytes now : Nat) : Seat × Outcome :=
  if WAITING_MOST < s.waiting then
    let since := s.overSince.getD now
    ({ s with overSince := some since, live := false }, if HOPELESS ≤ now - since then .hopeless else .behind)
  else
    let s : Seat := { s with overSince := none }
    if key = false ∧ s.live = false then (s, .waits (s.waiting ≤ WAITING_DRAINED))
    else ({ s with live := true, waiting := s.waiting + bytes, sent := s.sent ++ [⟨id, bytes, now⟩] }, .sent)

/-- The seat after a frame, when it stays. -/
def kept (s : Seat) (id : UInt32) (key : Bool) (bytes now : Nat) : Option Seat :=
  if (s.frame id key bytes now).2 = .hopeless then none else some (s.frame id key bytes now).1

/-- A frame that never reached the viewer. -/
def lost (s : Seat) (id : UInt32) : Seat :=
  let s : Seat := match s.sent.getLast? with
    | some last => if last.id = id then { s with sent := s.sent.dropLast, waiting := s.waiting - last.bytes } else s
    | none => s
  { s with live := false }

/-- Takes off the frames that an ack covers, and gives the time of the newest of them. -/
def ackFrom (frame : UInt32) : List Sent → Int → Option Nat → List Sent × Int × Option Nat
  | [], waiting, newest => ([], waiting, newest)
  | sent :: rest, waiting, newest =>
    if UInt32.ofNat ((2 ^ 32 - 1) / 2) ≤ frame - sent.id then (sent :: rest, waiting, newest)
    else ackFrom frame rest (waiting - sent.bytes) (some sent.at')

/-- Frame ids wrap, so a frame is older than the ack when it lies less than half the range before it. -/
def ack (s : Seat) (frame : UInt32) (now : Nat) : Seat :=
  let (sent, waiting, newest) := ackFrom frame s.sent s.waiting none
  let s : Seat := { s with sent, waiting }
  match newest with
  | some at' => s.measure (now - at') now
  | none => s

end Seat

/-- What viewers have, by their ids. -/
abbrev Viewers (V : Type) := Std.ExtTreeMap String V

/-- What to do with one new frame. -/
structure Delivery where
  to' : List String
  askKeyframe : Bool
  dropped : List String

/-- One encoder serves all viewers of a window. -/
structure Flow where
  seats : Viewers Seat
  bitrate : Nat
  steeredAt : Option Nat
  cutAt : Option Nat
  keyframeAt : Option Nat

namespace Flow

def new : Flow := ⟨∅, FIRST_BITRATE, none, none, none⟩

def isEmpty (f : Flow) : Bool := f.seats.isEmpty

def seat (f : Flow) (viewer : String) (now : Nat) : Flow := { f with seats := f.seats.insert viewer (.new now) }

def leave (f : Flow) (viewer : String) : Flow := { f with seats := f.seats.erase viewer }

/-- Whether a viewer may have a key frame now. Each key frame costs every viewer bandwidth. -/
def keyframeAllowed (f : Flow) (now : Nat) : Flow × Bool :=
  if f.keyframeAt.all (KEYFRAME_FLOOR ≤ now - ·) then ({ f with keyframeAt := some now }, true) else (f, false)

/-- The seats to which a frame is this. -/
def having (f : Flow) (id : UInt32) (key : Bool) (bytes now : Nat) (p : Outcome → Bool) : List String :=
  (f.seats.filter fun _ seat => p (seat.frame id key bytes now).2).keys

def frame (f : Flow) (id : UInt32) (key : Bool) (bytes now : Nat) : Flow × Delivery :=
  let to' := f.having id key bytes now (· == .sent)
  let dropped := f.having id key bytes now (· == .hopeless)
  let wantsKey := f.having id key bytes now (· == .waits true)
  let f : Flow := { f with seats := f.seats.filterMap fun _ seat => seat.kept id key bytes now }
  let (f, askKeyframe) := if wantsKey.isEmpty then (f, false) else f.keyframeAllowed now
  (f, ⟨to', askKeyframe, dropped⟩)

def lost (f : Flow) (viewer : String) (id : UInt32) : Flow := { f with seats := f.seats.modify viewer (·.lost id) }

def ack (f : Flow) (viewer : String) (frame : UInt32) (now : Nat) : Flow :=
  { f with seats := f.seats.modify viewer (·.ack frame now) }

/-- The bitrate that follows the longest queue of a live seat. -/
def nextBitrate (f : Flow) (queue now : Nat) : Flow × Nat :=
  if QUEUE_LIMIT < queue then ({ f with cutAt := some now }, f.bitrate / 5 * 4)
  else if queue < QUEUE_LIMIT / 2 ∧ f.cutAt.all (RISE_AFTER ≤ now - ·) then
    (f, min (f.bitrate + f.bitrate / 16) (2 ^ 32 - 1))
  else (f, f.bitrate)

/-- The new bitrate for the encoder, when it must change. -/
def steer (f : Flow) (now : Nat) : Flow × Option Nat :=
  if f.steeredAt.any (now - · < STEER_EVERY) then (f, none)
  else
    let f : Flow := { f with steeredAt := some now }
    match ((f.seats.toList.filter (·.2.live)).map (·.2.queue)).max? with
    | none => (f, none)
    | some queue =>
      let (f, bitrate) := f.nextBitrate queue now
      let bitrate := max LOWEST_BITRATE (min bitrate HIGHEST_BITRATE)
      if bitrate = f.bitrate then (f, none) else ({ f with bitrate }, some bitrate)

end Flow

end Kodosi.Browser
