import Kodosi.Terminal.Subscribers

/-! The terminal of another computer, as this one follows it: it keeps the recent output, so that a subscription can
    start at a checkpoint of the host and go on without a gap, and it starts again when the connection does. -/

namespace Kodosi.Terminal

def MAX_TERMINAL_ROWS : Nat := 512
def MAX_TERMINAL_COLS : Nat := 1024

/-- How many requests may wait for a checkpoint. -/
def MAX_PENDING_CAPTURES : Nat := 32

structure TerminalSize where
  rows : Nat
  cols : Nat
  deriving DecidableEq

def TerminalSize.new (rows cols : Nat) : Except String TerminalSize :=
  if rows < 1 ∨ MAX_TERMINAL_ROWS < rows ∨ cols < 1 ∨ MAX_TERMINAL_COLS < cols then
    .error ("invalid terminal size " ++ rows.repr ++ "x" ++ cols.repr)
  else .ok ⟨rows, cols⟩

/-- What the program reads of a checkpoint: its size, and whether its snapshot restores. -/
structure Screens (κ : Type) where
  size : κ → TerminalSize
  cell : κ → CellPixels
  validate : κ → Except String Unit

/-- What the host's terminal does: output, or another size. -/
inductive Item where
  | data (frame : DataFrame)
  | resize (r : Resize)
  deriving DecidableEq

variable {κ : Type}

/-! ### The subscribers -/

/-- A subscription: its queues, its newest checkpoint and the cut of that, what the stream was when it got the
    checkpoint, and what was put into its queues since then. -/
structure RemoteView (κ : Type) where
  link : Link κ
  checkpoint : κ
  cut : Nat
  known : List Item
  put : List Item

namespace RemoteView

/-- An item for the queues; one that does not fit leaves the view behind. -/
def offer (send : Link κ → Link κ) (item : Item) (v : RemoteView κ) : RemoteView κ :=
  { v with
    link := send v.link
    put := if (send v.link).behind then v.put else v.put ++ [item] }

def data (frame : DataFrame) (v : RemoteView κ) : RemoteView κ := v.offer (Link.putData frame) (.data frame)

def resize (r : Resize) (v : RemoteView κ) : RemoteView κ := v.offer (Link.putControl (.resize r)) (.resize r)

/-- The view starts anew at a snapshot, when that fits into its queue. -/
def snapshot (stream : List Item) (checkpoint : κ) (cut : Nat) (v : RemoteView κ) : RemoteView κ :=
  let link := v.link.putControl (.snapshot checkpoint cut)
  if link.behind then { v with link } else ⟨link, checkpoint, cut, stream, []⟩

def refresh (stream : List Item) (checkpoint : κ) (cut : Nat) (v : RemoteView κ) : RemoteView κ :=
  if v.link.caughtUp then v.snapshot stream checkpoint cut else v

end RemoteView

/-! ### The actor -/

/-- A request that waits for a checkpoint: of a view that is there, or for a new one. -/
structure PendingCapture where
  request : Nat
  connection : Option Nat
  closed : Bool
  minimumCut : Nat

inductive Reply (κ : Type) where
  | subscribed (view : Nat) (checkpoint : κ) (cut : Nat)
  | checkpoint (cut : CheckpointCut κ)
  | busy
  | stale
  | failed (reason : String)

/-- A checkpoint that waits for its cut, and the place of the stream when it came. -/
structure FutureCheckpoint (κ : Type) extends CheckpointCut κ where
  seen : Nat

/-- That a request got a checkpoint: when it had come, and where the stream was then. -/
structure Given (κ : Type) extends FutureCheckpoint κ where
  current : Nat

inductive RemoteLink where
  | open
  | lost
  | paused
  | waking
  deriving DecidableEq

structure RemoteActor (κ : Type) where
  link : RemoteLink
  subscribers : Std.TreeMap Nat (RemoteView κ)
  pending : List PendingCapture
  captureRequested : Bool
  nextSequence : Option Nat
  delivered : Nat
  recent : List DataFrame
  grid : Option (TerminalSize × CellPixels)
  lastResize : Option Nat
  futureCheckpoint : Option (FutureCheckpoint κ)
  resyncing : Bool
  ended : Bool
  /-- What the host's terminal did since the stream started anew, and where that was. -/
  base : Nat
  stream : List Item
  received : List (CheckpointCut κ)
  replies : List (Nat × Reply κ)
  given : List (Given κ)
  nextView : Nat

def RemoteActor.new : RemoteActor κ where
  link := .open
  subscribers := ∅
  pending := []
  captureRequested := false
  nextSequence := none
  delivered := 0
  recent := []
  grid := none
  lastResize := none
  futureCheckpoint := none
  resyncing := false
  ended := false
  base := 0
  stream := []
  received := []
  replies := []
  given := []
  nextView := 0

inductive RemoteUpdate (κ : Type) where
  | raw (sequence : Nat) (bytes : Bytes)
  | checkpoint (checkpoint : κ) (nextSequence : Nat)
  | resize (rows cols : Nat) (cell : CellPixels) (atSequence : Nat)
  | metadata
  | resync
  | picture

namespace RemoteActor

def each (f : RemoteView κ → RemoteView κ) (a : RemoteActor κ) : RemoteActor κ :=
  { a with subscribers := a.subscribers.map fun _ v => f v }

def reply (request : Nat) (r : Reply κ) (a : RemoteActor κ) : RemoteActor κ :=
  { a with replies := a.replies ++ [(request, r)] }

/-- Where the stream is, or where it was when the connection went. -/
def place (a : RemoteActor κ) : Nat := a.nextSequence.getD a.delivered

def reset (a : RemoteActor κ) : RemoteActor κ :=
  { a with
    nextSequence := none
    delivered := a.place
    recent := []
    futureCheckpoint := none
    lastResize := none
    resyncing := true }

/-- The end: every view is told, and every request that waits. -/
def close (reason : String) (a : RemoteActor κ) : RemoteActor κ :=
  { a.each (fun v => { v with link := v.link.putClose reason a.place }) with
    ended := true
    pending := []
    replies := a.replies ++ a.pending.map fun w => (w.request, .failed reason) }

/-- The connection is lost. It is not sought again when nobody looks at the terminal. -/
def interrupt (reason : String) (a : RemoteActor κ) : RemoteActor κ :=
  if a.subscribers.isEmpty then a.close reason
  else
    { a.reset with
      link := .lost
      captureRequested := false
      pending := []
      replies := a.replies ++ a.pending.map fun w => (w.request, .failed reason) }

/-- Another connection to the same terminal. -/
def resume (same : Bool) (a : RemoteActor κ) : RemoteActor κ :=
  if ¬same ∨ a.link = .open then a else { a with link := .open }

def dormant (a : RemoteActor κ) : Bool := a.link = .paused ∨ a.link = .waking

def wake (a : RemoteActor κ) : RemoteActor κ := if a.dormant then { a with link := .waking } else a

/-- Nobody looks at the terminal, and nothing waits. -/
def pause (a : RemoteActor κ) : RemoteActor κ :=
  if a.link = .open ∧ a.pending = [] then { a.reset with link := .paused, captureRequested := false } else a

def caughtUp (a : RemoteActor κ) : Bool := a.subscribers.toList.any fun entry => entry.2.link.caughtUp

/-- Asks the host for a checkpoint when one is needed; `asked` says whether the connection took the question. -/
def requestCapture (asked : Bool) (a : RemoteActor κ) : Except String (RemoteActor κ) :=
  if a.link ≠ .open then .ok a
  else if !a.captureRequested && a.futureCheckpoint.isNone && (!a.pending.isEmpty || a.caughtUp) then
    if asked then .ok { a with captureRequested := true } else .error "The connection is closed."
  else .ok a

def addCapture (request : Nat) (connection : Option Nat) (asked : Bool) (a : RemoteActor κ) :
    Except String (RemoteActor κ) :=
  if MAX_PENDING_CAPTURES ≤ a.pending.length then .ok (a.reply request .busy)
  else if connection.any (· ∉ a.subscribers) then .ok (a.reply request .stale)
  else requestCapture asked
    { a with pending := a.pending ++ [⟨request, connection, false, a.nextSequence.getD 0⟩] }

/-- The size of the host's terminal at a place. A new one goes to every view. -/
def geometry (size : TerminalSize) (cell : CellPixels) (cut : Nat) (a : RemoteActor κ) : RemoteActor κ :=
  if a.grid.any (· ≠ (size, cell)) then
    let r : Resize := ⟨size.rows, size.cols, cell, cut⟩
    { a.each (RemoteView.resize r) with
      lastResize := some cut
      grid := some (size, cell)
      stream := a.stream ++ [.resize r] }
  else { a with grid := some (size, cell) }

/-- Whether a view that starts at the cut can be given all that came after it. -/
def replayable (cut : Nat) (a : RemoteActor κ) : Bool :=
  let current := a.nextSequence.getD cut
  cut ≤ current ∧ (cut = current ∨
    (a.recent.head?.any (·.sequence ≤ cut) ∧ a.lastResize.all (· < cut)))

/-- A new view at the cut, with the recent output from there on. -/
def subscribe (w : PendingCapture) (cut : FutureCheckpoint κ) (a : RemoteActor κ) : RemoteActor κ :=
  let frames := a.recent.filter (cut.nextSequence ≤ ·.sequence)
  if MAX_SUBSCRIBERS ≤ a.subscribers.size then a.reply w.request .busy
  else if DATA_CAPACITY < frames.length ∨ ∃ f ∈ frames, MAX_RAW_BYTES < f.bytes.length then a.reply w.request .busy
  else
    let sub : Subscription κ := ⟨cut.checkpoint, cut.nextSequence, [], none, none⟩
    { a.reply w.request (.subscribed a.nextView cut.checkpoint cut.nextSequence) with
      subscribers := a.subscribers.insert a.nextView
        ⟨⟨frames, [], false, true, sub⟩, cut.checkpoint, cut.nextSequence, a.stream, frames.map .data⟩
      given := a.given ++ [⟨cut, a.place⟩]
      nextView := a.nextView + 1 }

/-- What a checkpoint does for a request that waits. -/
def answer (cut : FutureCheckpoint κ) (replayable : Bool) (a : RemoteActor κ) (w : PendingCapture) : RemoteActor κ :=
  if w.closed then a
  else if cut.nextSequence < w.minimumCut ∨ a.nextSequence.getD cut.nextSequence < cut.nextSequence then
    { a with pending := a.pending ++ [w] }
  else match w.connection with
  | some connection =>
    if connection ∈ a.subscribers then
      { a.reply w.request (.checkpoint cut.toCheckpointCut) with given := a.given ++ [⟨cut, a.place⟩] }
    else a.reply w.request .stale
  | none => if replayable then a.subscribe w cut else { a with pending := a.pending ++ [w] }

def fulfill (cut : FutureCheckpoint κ) (a : RemoteActor κ) : RemoteActor κ :=
  let refreshed := if cut.nextSequence = a.nextSequence.getD cut.nextSequence then
      a.each (RemoteView.refresh a.stream cut.checkpoint cut.nextSequence)
    else a
  a.pending.foldl (answer cut (a.replayable cut.nextSequence)) { refreshed with pending := [] }

section

variable (S : Screens κ)

/-- Output goes to every view, and the newest frames stay at hand. -/
def push (frame : DataFrame) (a : RemoteActor κ) : RemoteActor κ :=
  let recent := a.recent ++ [frame]
  { a.each (RemoteView.data frame) with
    recent := recent.drop (recent.length - DATA_CAPACITY)
    nextSequence := some (frame.sequence + 1)
    stream := a.stream ++ [.data frame] }

/-- The checkpoint that waited for this place. -/
def reachCut (next : Nat) (a : RemoteActor κ) : RemoteActor κ :=
  match a.futureCheckpoint with
  | some cut =>
    if cut.nextSequence = next then
      ({ a with futureCheckpoint := none }.geometry (S.size cut.checkpoint) (S.cell cut.checkpoint) next).fulfill
        { cut with nextSequence := next }
    else a
  | none => a

def raw (sequence : Nat) (bytes : Bytes) (a : RemoteActor κ) : Except String (RemoteActor κ) :=
  match a.nextSequence with
  | none => .error "Remote output arrived before a terminal snapshot."
  | some expected =>
    if sequence ≠ expected ∨ MAX_RAW_BYTES < bytes.length then
      .error "Remote output is out of order or exceeds its buffer bound."
    else if 2 ^ 64 ≤ sequence + 1 then .error "Terminal output sequence exhausted."
    else .ok (reachCut S (sequence + 1) (a.push ⟨sequence, bytes⟩))

/-- The stream starts anew at a checkpoint. -/
def start (checkpoint : κ) (cut : Nat) (a : RemoteActor κ) : RemoteActor κ :=
  let a : RemoteActor κ := { a with nextSequence := some cut, base := cut, stream := [] }
  let a : RemoteActor κ := if a.resyncing then
      { a.each (RemoteView.snapshot [] checkpoint cut) with resyncing := false }
    else a
  a.geometry (S.size checkpoint) (S.cell checkpoint) cut

def checkpoint (checkpoint : κ) (cut : Nat) (a : RemoteActor κ) : Except String (RemoteActor κ) :=
  match S.validate checkpoint with
  | .error e => .error e
  | .ok () =>
    let a : RemoteActor κ := { a with captureRequested := false, received := a.received ++ [⟨checkpoint, cut⟩] }
    match a.nextSequence with
    | none => .ok ((start S checkpoint cut a).fulfill ⟨⟨checkpoint, cut⟩, cut⟩)
    | some current =>
      if current < cut then
        if a.futureCheckpoint.all (·.nextSequence ≤ cut) then
          .ok { a with futureCheckpoint := some ⟨⟨checkpoint, cut⟩, current⟩ }
        else .ok a
      else if cut = current then
        .ok ((a.geometry (S.size checkpoint) (S.cell checkpoint) cut).fulfill ⟨⟨checkpoint, cut⟩, current⟩)
      else .ok (a.fulfill ⟨⟨checkpoint, cut⟩, current⟩)

def resize (rows cols : Nat) (cell : CellPixels) (atSequence : Nat) (a : RemoteActor κ) :
    Except String (RemoteActor κ) :=
  if a.nextSequence ≠ some atSequence then .error "Remote resize arrived out of order."
  else match TerminalSize.new rows cols with
  | .error e => .error e
  | .ok size => .ok (a.geometry size cell atSequence)

def update (a : RemoteActor κ) : RemoteUpdate κ → Except String (RemoteActor κ)
  | .raw sequence bytes => raw S sequence bytes a
  | .checkpoint c cut => checkpoint S c cut a
  | .resize rows cols cell atSequence => a.resize rows cols cell atSequence
  | .metadata | .picture => .ok a
  | .resync => .ok a.reset

end

/-- The requests that wait no more, as they are closed or have waited too long. -/
def maintain (expired : List Nat) (due asked : Bool) (a : RemoteActor κ) : Except String (RemoteActor κ) :=
  let late := a.pending.filter fun w => !w.closed && w.request ∈ expired
  let a : RemoteActor κ := { a with
    pending := a.pending.filter fun w => !w.closed && w.request ∉ expired
    replies := a.replies ++ late.map fun w =>
      (w.request, .failed "The host did not send a current terminal snapshot.") }
  let a : RemoteActor κ := if due ∨ a.pending = [] ∧ ¬a.caughtUp then { a with captureRequested := false } else a
  a.requestCapture asked

/-- The view of a reader: `recv` takes from its queues. -/
def poll (id : Nat) (a : RemoteActor κ) : RemoteActor κ :=
  match a.subscribers[id]? with
  | some v => { a with subscribers := a.subscribers.insert id { v with link := v.link.recv.2 } }
  | none => a

/-- A view that asked for a checkpoint takes it in. -/
def refreshed (id : Nat) (cut : CheckpointCut κ) (a : RemoteActor κ) : RemoteActor κ :=
  match a.subscribers[id]? with
  | some v => { a with subscribers := a.subscribers.insert id { v with link.sub := v.link.sub.refresh cut } }
  | none => a

end RemoteActor

/-! ### Steps -/

inductive RemoteEvent (κ : Type) where
  | update (u : RemoteUpdate κ)
  | failed (reason : String)
  | stopped (reason : String)
  | reconnected (same : Bool)
  | paused
  | wanted
  | subscribe (request : Nat) (asked : Bool)
  | checkpoint (request connection : Nat) (asked : Bool)
  | abandon (request : Nat)
  | unsubscribe (id : Nat)
  | maintain (expired : List Nat) (due asked : Bool)
  | poll (id : Nat)
  | refreshed (id : Nat) (cut : CheckpointCut κ)

namespace RemoteActor

variable (S : Screens κ)

/-- What fails loses the connection. -/
def orInterrupt (a : RemoteActor κ) : Except String (RemoteActor κ) → RemoteActor κ
  | .ok a' => a'
  | .error reason => a.interrupt reason

def serve (a : RemoteActor κ) : RemoteEvent κ → RemoteActor κ
  | .update u => if a.link = .open then a.orInterrupt (update S a u) else a
  | .failed reason => a.interrupt reason
  | .stopped reason => a.close reason
  | .reconnected same => a.resume same
  | .paused => a.pause
  | .wanted => a.wake
  | .subscribe request asked => a.wake.orInterrupt (a.wake.addCapture request none asked)
  | .checkpoint request connection asked => a.wake.orInterrupt (a.wake.addCapture request (some connection) asked)
  | .abandon request => { a with pending := a.pending.map fun w =>
      if w.request = request then { w with closed := true } else w }
  | .unsubscribe id => { a with subscribers := a.subscribers.erase id }
  | .maintain expired due asked => a.orInterrupt (a.maintain expired due asked)
  | .poll id => a.poll id
  | .refreshed id cut => a.refreshed id cut

/-- One turn of the actor. A terminal whose connection is lost and that nobody looks at ends. -/
def next (a : RemoteActor κ) (e : RemoteEvent κ) : RemoteActor κ :=
  if a.ended then match e with
    | .poll id => a.poll id
    | .refreshed id cut => a.refreshed id cut
    | _ => a
  else
    let a := serve S a e
    if a.link = .lost ∧ a.subscribers.isEmpty ∧ ¬a.ended then a.close "Disconnected from the remote terminal." else a

def Step (a : RemoteActor κ) (e : RemoteEvent κ) (b : RemoteActor κ) : Prop := b = next S a e

end RemoteActor

end Kodosi.Terminal
