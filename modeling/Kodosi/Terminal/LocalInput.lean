import Kodosi.Lib.Run

/-! The input of a terminal on this computer: writes wait in one queue, go to the PTY in parts, and each tells once how it
    ended. On Unix a part is written at once; on Windows a thread writes what was handed over to it. -/

namespace Kodosi.Terminal

def COMMAND_CAPACITY : Nat := 64
def MAX_PENDING_BYTES : Nat := 4 * 1024 * 1024
def TERMINAL_INPUT_MAX_BYTES : Nat := 1024 * 1024
def INTERRUPTED : String := "Input delivery was interrupted; do not retry automatically."

inductive InputError where
  | stale | busy
  | invalid (text : String)
  | other (text : String)
  deriving DecidableEq

/-- Bytes that wait to be written. The right to write them can be cancelled. Each write has a name of its own. -/
structure PendingWrite where
  id : Nat
  bytes : List UInt8
  offset : Nat
  authorization : Option Nat
  completion : Bool
  deriving DecidableEq

inductive Request where
  | input (connection : Nat) (write : PendingWrite)
  | send (write : PendingWrite) (message : Bool)
  | run (line : List UInt8)
  | start (line : List UInt8)
  | other

def Request.write : Request → Option PendingWrite
  | .input _ write => some write
  | .send write _ => some write
  | _ => none

/-- What the thread that writes for Windows has left of what was handed over to it. -/
structure InFlight where
  id : Nat
  left : List UInt8
  count : Nat

/-- The actor, as far as its input goes. `input` is what the present turn of its loop offers to the PTY; a turn is not
    begun where it is missing. What was accepted, written, promised and answered is kept for the record, and written
    bytes with the write that they are of. -/
structure LocalActor where
  windows : Bool
  commands : List Request
  queue : List PendingWrite
  start : Option (List UInt8)
  input : Option (Option (List UInt8))
  inFlight : Option InFlight
  cancelled : List Nat
  ended : Bool
  next : Nat
  accepted : List PendingWrite
  written : List (Nat × UInt8)
  promised : List Nat
  answers : List (Nat × Except InputError Unit)

namespace LocalActor

def spawn (windows : Bool) : LocalActor where
  windows := windows
  commands := []
  queue := []
  start := none
  input := none
  inFlight := none
  cancelled := []
  ended := false
  next := 0
  accepted := []
  written := []
  promised := []
  answers := []

/-- The writes that requests carry. -/
def carried (a : LocalActor) : List PendingWrite := a.commands.filterMap Request.write

/-- The writes that hold a part of the budget. -/
def live (a : LocalActor) : List PendingWrite := a.carried ++ a.queue

def held (a : LocalActor) : Nat := (a.live.map (·.bytes.length)).sum

def isCancelled (a : LocalActor) (w : PendingWrite) : Bool := w.authorization.any (· ∈ a.cancelled)

/-! ### Writes -/

/-- `PendingWrite::new`, with the completion that is attached to the write. -/
def make (a : LocalActor) (bytes : List UInt8) (authorization : Option Nat) (completion : Bool) :
    Except InputError (PendingWrite × LocalActor) :=
  if TERMINAL_INPUT_MAX_BYTES < bytes.length then .error (.invalid "terminal input exceeds 1 MiB")
  else if MAX_PENDING_BYTES < a.held + bytes.length then .error .busy
  else .ok (⟨a.next, bytes, 0, authorization, completion⟩,
    { a with next := a.next + 1, promised := if completion then a.promised ++ [a.next] else a.promised })

/-- Tells how a write ended, when somebody waits for it. -/
def answer (a : LocalActor) (w : PendingWrite) (result : Except InputError Unit) : LocalActor :=
  if w.completion then { a with answers := a.answers ++ [(w.id, result)] } else a

def complete (a : LocalActor) (w : PendingWrite) : LocalActor := a.answer w (.ok ())

/-- `Drop for PendingWrite`, of a write that was not completed. -/
def drop (a : LocalActor) (w : PendingWrite) : LocalActor := a.answer w (.error (.other INTERRUPTED))

def push (a : LocalActor) (w : PendingWrite) : LocalActor :=
  { a with queue := a.queue ++ [w], accepted := a.accepted ++ [w] }

def enqueue (a : LocalActor) (bytes : List UInt8) (authorization : Option Nat) : LocalActor :=
  match a.make bytes authorization false with
  | .ok (w, a) => a.push w
  | .error _ => a

/-! ### The queue -/

def dropCancelledInput (a : LocalActor) : LocalActor :=
  let kept := fun w => !a.isCancelled w
  let (front, rest) := if a.inFlight.isSome then (a.queue.take 1, a.queue.drop 1) else ([], a.queue)
  (rest.filter a.isCancelled).foldl drop { a with queue := front ++ rest.filter kept }

/-- The front of the queue is what goes to the PTY next. -/
def pendingFrom (a : LocalActor) : List PendingWrite → LocalActor × Option (List UInt8)
  | [] => ({ a with queue := [] }, none)
  | w :: rest =>
    if a.inFlight.isSome then ({ a with queue := w :: rest }, some (w.bytes.drop w.offset))
    else if a.isCancelled w then (a.drop w).pendingFrom rest
    else if w.offset = w.bytes.length then (a.complete w).pendingFrom rest
    else ({ a with queue := w :: rest }, some (w.bytes.drop w.offset))

def pendingInput (a : LocalActor) : LocalActor × Option (List UInt8) := a.pendingFrom a.queue

def wrote (a : LocalActor) (count : Nat) : LocalActor :=
  match a.queue with
  | [] => a
  | w :: rest =>
    let offset := min (w.offset + count) w.bytes.length
    if offset = w.bytes.length then { a with queue := rest }.complete w
    else { a with queue := { w with offset } :: rest }

/-! ### Requests -/

def acceptInput (a : LocalActor) (authorization : Option Nat) (w : PendingWrite) : LocalActor :=
  match authorization with
  | none => a.answer w (.error .stale)
  | some right => a.push { w with authorization := some right }

def acceptCommandInput (a : LocalActor) (refused : Option String) (w : PendingWrite) : LocalActor :=
  match refused with
  | some text => a.answer w (.error (.invalid text))
  | none => a.push w

/-- What the rest of the actor says when a request is handled: the right of each connection that is subscribed, why text
    of a command or a message is refused, and whether the shell is at its prompt. -/
structure Surroundings where
  authorization : Nat → Option Nat
  refused : (message : Bool) → Option String
  atPrompt : Bool
  clearLine : List UInt8

def command (a : LocalActor) (around : Surroundings) : Request → LocalActor
  | .input connection write => a.acceptInput (around.authorization connection) write
  | .send write message => a.acceptCommandInput (around.refused message) write
  | .run line => if around.atPrompt then a.enqueue (around.clearLine ++ line ++ [13]) none else a
  | .start line => { a with start := some line }
  | .other => a

/-- Input or a message from another computer. -/
def hostControl (a : LocalActor) (around : Surroundings) (right : Nat) (closed message : Bool) (bytes : List UInt8) :
    LocalActor :=
  if right ∈ a.cancelled ∨ closed then a
  else match a.make bytes (some right) true with
    | .error _ => a
    | .ok (w, a) => if message then a.acceptCommandInput (around.refused true) w else a.push w

/-- A picture whose file is saved, or was not. The emulator makes its path into what is pasted. -/
def pasteSaved (a : LocalActor) (authorization : Option Nat) (pasted : Option (List UInt8)) : LocalActor :=
  if authorization.any (· ∈ a.cancelled) then a
  else match pasted with
    | none => a
    | some bytes =>
      match a.make bytes authorization true with
      | .error _ => a
      | .ok (w, a) => a.push w

/-- What a view or a command asks of the session. -/
inductive Ask where
  | input (connection : Nat) (bytes : List UInt8)
  | send (bytes : List UInt8) (message : Bool)
  | run (line : List UInt8)
  | start (line : List UInt8)
  | other

/-- `TerminalSession::send`: a request that finds no room, or no terminal that takes it, is dropped with its write. -/
def sendRequest (a : LocalActor) (closed : Bool) (request : Request) : LocalActor :=
  if closed ∨ a.ended ∨ COMMAND_CAPACITY ≤ a.commands.length then request.write.toList.foldl drop a
  else { a with commands := a.commands ++ [request] }

/-- A request goes to the terminal, which is cancelled already where it is closed. -/
def ask (a : LocalActor) (closed : Bool) : Ask → LocalActor
  | .input connection bytes =>
    match a.make bytes none true with
    | .error _ => a
    | .ok (w, a) => a.sendRequest closed (.input connection w)
  | .send bytes message =>
    match a.make bytes none true with
    | .error _ => a
    | .ok (w, a) => a.sendRequest closed (.send w message)
  | .run line => a.sendRequest closed (.run line)
  | .start line => a.sendRequest closed (.start line)
  | .other => a.sendRequest closed .other

/-! ### The loop -/

/-- What becomes of a line that the terminal starts with. -/
inductive StartLine where
  | wait | drop | type
  deriving DecidableEq

def typeStartLine (a : LocalActor) (decided : StartLine) : LocalActor :=
  match decided, a.start with
  | .type, some line => { a with start := none }.enqueue (line ++ [13]) none
  | .drop, some _ => { a with start := none }
  | _, _ => a

/-- The loop is over: what waits is dropped, in the queue and in the channel. -/
def stop (a : LocalActor) : LocalActor :=
  let a := a.queue.foldl drop { a with ended := true, input := none, queue := [] }
  a.carried.foldl drop { a with commands := [] }

/-- Bytes of a write reach the PTY. -/
def put (a : LocalActor) (id : Nat) (bytes : List UInt8) : LocalActor :=
  { a with written := a.written ++ bytes.map (Prod.mk id) }

inductive InputEvent where
  | ask (closed : Bool) (what : Ask)
  | cancel (right : Nat)
  | turn
  | command (around : Surroundings)
  | control (around : Surroundings) (right : Nat) (closed message : Bool) (bytes : List UInt8)
  | saved (authorization : Option Nat) (pasted : Option (List UInt8))
  | output (replies : List (List UInt8))
  | maintain (decided : StartLine)
  | wrote (count : Nat)
  | handOver
  | threadWrote (count : Nat)
  | delivered
  | stop

/-- When an event can come: requests and cancellations at any time, the thread while it has something to write, and
    everything else as the one outcome of a turn. -/
def Allowed (a : LocalActor) : InputEvent → Prop
  | .ask .. | .cancel _ => True
  | .turn => a.ended = false ∧ a.input = none
  | .command _ => a.input.isSome ∧ a.commands ≠ []
  | .control .. | .saved .. | .output _ | .maintain _ => a.input.isSome
  | .wrote count => a.windows = false ∧ ∃ bytes, a.input = some (some bytes) ∧ 0 < count ∧ count ≤ bytes.length
  | .handOver => a.windows = true ∧ a.inFlight.isNone ∧ ∃ bytes, a.input = some (some bytes) ∧ bytes ≠ []
  | .threadWrote count => ∃ flight, a.inFlight = some flight ∧ count ≤ flight.left.length
  | .delivered => a.input.isSome ∧ ∃ flight, a.inFlight = some flight ∧ flight.left = []
  | .stop => a.ended = false

def step (a : LocalActor) : InputEvent → LocalActor
  | .ask closed what => a.ask closed what
  | .cancel right => { a with cancelled := right :: a.cancelled }
  | .turn =>
    let (a, input) := a.pendingInput
    { a with input := some input }
  | .command around =>
    match a.commands with
    | [] => a
    | request :: rest => { a with commands := rest, input := none }.command around request
  | .control around right closed message bytes => { a with input := none }.hostControl around right closed message bytes
  | .saved authorization pasted => { a with input := none }.pasteSaved authorization pasted
  | .output replies => replies.foldl (fun a bytes => a.enqueue bytes none) { a with input := none }
  | .maintain decided => ({ a with input := none }.typeStartLine decided).dropCancelledInput
  | .wrote count =>
    match a.input, a.queue with
    | some (some bytes), w :: _ => ({ a with input := none }.put w.id (bytes.take count)).wrote count
    | _, _ => a
  | .handOver =>
    match a.input, a.queue with
    | some (some bytes), w :: _ => { a with inFlight := some ⟨w.id, bytes, bytes.length⟩ }
    | _, _ => a
  | .threadWrote count =>
    match a.inFlight with
    | some flight => { a.put flight.id (flight.left.take count) with
        inFlight := some { flight with left := flight.left.drop count } }
    | none => a
  | .delivered =>
    match a.inFlight with
    | some flight => { a with inFlight := none, input := none }.wrote flight.count
    | none => a
  | .stop => a.stop

def Next (a : LocalActor) (e : InputEvent) (b : LocalActor) : Prop := a.Allowed e ∧ b = a.step e

end LocalActor

end Kodosi.Terminal
