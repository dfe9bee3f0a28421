import Kodosi.Lib.Dictionary
import Kodosi.Lib.MaxByKey
import Kodosi.Terminal.LocalInput
import Kodosi.Terminal.Sizes

/-! What is asked of a terminal of another computer: input, messages, sizes and focus wait in one queue, and one of them
    at a time goes to the connection. Inputs of one view that wait behind each other go as one. A connection that is lost
    fails what was on its way; what waits goes to the next one, unless that is too long in coming. -/

namespace Kodosi.Terminal.RemoteInput
open Kodosi.Lib

def CONTROL_CAPACITY : Nat := 64
def INPUT_BUDGET : Nat := 4 * 1024 * 1024
def MERGED_INPUT_BYTES : Nat := 64 * 1024
/-- In milliseconds, as is `TYPING`. -/
def RECONNECT_WAIT : Nat := 10000
def TYPING : Nat := 3000
def RECONNECTING : String := "The connection to the other computer is not back yet, so Kodosi did not send this."
def SOMEONE_TYPING : String := "Someone is typing in this terminal. Try again in a moment."

/-- `crate::Error`, as far as it is told here. -/
inductive Error where
  | busy | stopped | stale
  | invalid (text : String)
  | other (text : String)
  deriving DecidableEq

/-- `network::Error`: those that are told apart, those whose text is for the user, and the others. -/
inductive NetworkError where
  | busy | stale | closed
  | trust (text : String)
  | forbidden (text : String)
  | other (text : String)
  deriving DecidableEq

def NetworkError.text : NetworkError → String
  | .busy => "The connection is busy; try again."
  | .stale => "This request belongs to an earlier account connection."
  | .closed => "The connection has closed."
  | .trust text | .forbidden text | .other text => text

/-- `From<network::Error> for Error`. -/
def Error.ofNetwork : NetworkError → Error
  | .busy => .busy
  | .stale => .stale
  | .trust text | .forbidden text => .invalid text
  | .closed => .other NetworkError.closed.text
  | .other text => .other text

inductive TerminalControl where
  | input (bytes : List UInt8)
  | message (bytes : List UInt8)
  | resize (r : ResizeControl)
  | focus (focused : Bool)
  | interrupt | close | canvas
  deriving DecidableEq

namespace TerminalControl

def isInput : TerminalControl → Bool
  | .input _ => true
  | _ => false

def isResize : TerminalControl → Bool
  | .resize _ => true
  | _ => false

def isFocus : TerminalControl → Bool
  | .focus _ => true
  | _ => false

/-- The bytes of an input. -/
def bytes : TerminalControl → List UInt8
  | .input bytes => bytes
  | _ => []

end TerminalControl

/-- A control that waits, the view that it is of, and the caller who hears how it went. -/
structure QueuedControl where
  connection : Option Nat
  control : TerminalControl
  reply : Option Nat
  deriving DecidableEq

inductive Request where
  | control (queued : QueuedControl)
  | reconnected (sameIncarnation : Bool)
  | unsubscribe (id : Nat)
  | capture
  | other
  deriving DecidableEq

def Request.queued : Request → Option QueuedControl
  | .control queued => some queued
  | _ => none

/-- The callers who wait for controls. -/
def replies (l : List QueuedControl) : List Nat := l.filterMap (·.reply)

/-- Whether a request makes a terminal that sleeps connect again. -/
def Request.wakes : Request → Bool
  | .control queued => !(queued.control.isResize || queued.control.isFocus)
  | .capture | .other => true
  | .reconnected _ | .unsubscribe _ => false

/-! ### The views -/

structure RequestedResize where
  control : ResizeControl
  takenTurn : Nat
  deriving DecidableEq

def RequestedResize.size (r : RequestedResize) : Nat × Nat := (r.control.rows, r.control.cols)

/-- The views of the terminal: who subscribed, who of them is gone, who has the focus and whose the size is. -/
structure Views where
  entries : List Nat
  lapsed : List Nat
  focused : List Nat
  confirmedFocus : Bool
  resizeOwner : Option Nat
  requested : Dictionary Nat RequestedResize
  grid : Option (Nat × Nat)

namespace Views

def contains (v : Views) (id : Nat) : Bool := decide (id ∈ v.entries) && !decide (id ∈ v.lapsed)

def prune (v : Views) : Views := { v with entries := v.entries.filter fun id => !decide (id ∈ v.lapsed) }

def remove (v : Views) (id : Nat) : Views :=
  { v with entries := v.entries.filter (· ≠ id), focused := v.focused.filter (· ≠ id) }

/-- The views that are gone have no focus, and ask for no size. -/
def retain (v : Views) : Views :=
  { v with
    focused := v.focused.filter v.contains
    requested := (v.requested.keys.filter fun id => !v.contains id).foldl (fun d id => d.erase id) v.requested }

def setFocus (v : Views) (id : Nat) (focused : Bool) : Views :=
  { v with
    focused := if focused then (if id ∈ v.focused then v.focused else v.focused ++ [id])
      else v.focused.filter (· ≠ id) }

def checkResize (v : Views) (connection : Option Nat) (r : ResizeControl) : Views × Except Error (Nat × ResizeControl) :=
  match connection with
  | none => (v, .error .stale)
  | some id =>
    let takenTurn := ((v.requested.lookup id).map (·.takenTurn)).getD 0
    let v := { v with requested := v.requested.insert id ⟨r, takenTurn⟩ }
    match validateResize r with
    | .error text => (v, .error (.invalid text))
    | .ok () =>
      let claim := r.claim || decide (id ∈ v.focused)
      if v.resizeOwner.any (fun owner => owner != id && v.contains owner) && !claim then
        (v, .error (.invalid "Another terminal view controls the size. Focus this view to resize it."))
      else (v, .ok (id, { r with claim }))

/-- The focused view that held the size last; of those that held it equally, the last that is looked at. -/
def candidate (v : Views) (order : List Nat) : Option (Nat × RequestedResize) :=
  maxByKey (fun x : Nat × RequestedResize => x.2.takenTurn)
    ((order.filter v.contains).filterMap fun id => (v.requested.lookup id).map (Prod.mk id))

/-- The control that the host confirmed counts. -/
def confirm (v : Views) (control : TerminalControl) (resizeOwner : Option Nat) : Views :=
  let v := match control with
    | .focus focused => { v with confirmedFocus := focused }
    | _ => v
  match resizeOwner with
  | none => v
  | some owner =>
    let turns := v.requested.entries.map (·.2.takenTurn)
    let takenTurn := (turns.max?.map (· + 1)).getD 1
    { v with requested := v.requested.modify owner ({ · with takenTurn }), resizeOwner := some owner }

end Views

/-! ### The actor -/

inductive Link where
  | opened | lost | paused | waking
  deriving DecidableEq

/-- What the loop knows of its connection, and of the time. -/
structure Place where
  link : Link
  synced : Bool
  typedAt : Option Nat
  lostAt : Option Nat
  now : Nat
  selecting : Bool
  disconnected : Bool
  deriving DecidableEq

def Place.lostTooLong (p : Place) : Bool :=
  decide (p.link = .lost) && p.lostAt.any fun at' => decide (at' + RECONNECT_WAIT ≤ p.now)

def Place.typing (p : Place) : Bool := p.typedAt.any fun at' => decide (p.now < at' + TYPING)

/-- The control that is on its way. Its future gives it to the connection when it is polled first. `parts` are the inputs
    that it was joined from. -/
structure InFlight where
  control : TerminalControl
  replies : List Nat
  resizeOwner : Option Nat
  parts : List QueuedControl
  handed : Bool
  deriving DecidableEq

/-- How a caller's reply was resolved: with a result, or dropped. -/
inductive Answer (ν : Type) where
  | told (result : Except Error (Option ν))
  | dropped
  deriving DecidableEq

/-- The actor, as far as its controls go. What was accepted into the queue, what the connection was given, the inputs whose
    bytes that was, and what callers were promised and heard is kept for the record. -/
structure RemoteActor (ν : Type) where
  requests : List Request
  queued : List QueuedControl
  inFlight : Option InFlight
  views : Views
  place : Place
  ended : Bool
  cancelled : List Nat
  next : Nat
  accepted : List QueuedControl
  handed : List TerminalControl
  sent : List QueuedControl
  promised : List Nat
  answers : List (Nat × Answer ν)

variable {ν : Type}

namespace RemoteActor

def new : RemoteActor ν where
  requests := []
  queued := []
  inFlight := none
  views := ⟨[], [], [], false, none, ∅, none⟩
  place := ⟨.opened, false, none, none, 0, false, false⟩
  ended := false
  cancelled := []
  next := 0
  accepted := []
  handed := []
  sent := []
  promised := []
  answers := []

/-- The controls that requests carry. -/
def carried (a : RemoteActor ν) : List QueuedControl := a.requests.filterMap Request.queued

/-- The bytes of input that hold a part of the budget. -/
def held (a : RemoteActor ν) : Nat :=
  ((a.carried ++ a.queued ++ a.inFlight.toList.flatMap (·.parts)).map (·.control.bytes.length)).sum

def isClosed (a : RemoteActor ν) (q : QueuedControl) : Bool := q.reply.any (· ∈ a.cancelled)

/-! ### Answers -/

/-- Callers hear how their controls went. -/
def resolve (a : RemoteActor ν) (replies : List Nat) (answer : Answer ν) : RemoteActor ν :=
  { a with answers := a.answers ++ replies.map (·, answer) }

def tell (a : RemoteActor ν) (q : QueuedControl) (result : Except Error (Option ν)) : RemoteActor ν :=
  a.resolve q.reply.toList (.told result)

def fail (a : RemoteActor ν) (replies : List Nat) (error : Error) : RemoteActor ν := a.resolve replies (.told (.error error))

def drop (a : RemoteActor ν) (q : QueuedControl) : RemoteActor ν := a.resolve q.reply.toList .dropped

/-! ### The caller's side -/

/-- What the rest of the program asks of the terminal. -/
inductive Ask where
  | input (connection : Option Nat) (bytes : List UInt8)
  | control (connection : Option Nat) (control : TerminalControl)
  | reconnected (sameIncarnation : Bool)
  | unsubscribe (id : Nat)
  | capture
  | other

/-- A request goes into the channel. -/
def enter (a : RemoteActor ν) (request : Request) : RemoteActor ν := { a with requests := a.requests ++ [request] }

/-- `RemoteTerminal::send`: a request that finds no room, or no terminal, is refused to its caller. -/
def send (a : RemoteActor ν) (request : Request) : RemoteActor ν :=
  if a.place.disconnected ∨ a.ended then a.fail (replies request.queued.toList) .stopped
  else if CONTROL_CAPACITY ≤ a.requests.length then a.fail (replies request.queued.toList) .busy
  else a.enter request

/-- A caller waits for a reply. -/
def promise (a : RemoteActor ν) : RemoteActor ν := { a with next := a.next + 1, promised := a.promised ++ [a.next] }

def queueInput (a : RemoteActor ν) (connection : Option Nat) (bytes : List UInt8) : RemoteActor ν :=
  let q : QueuedControl := ⟨connection, .input bytes, some a.next⟩
  if TERMINAL_INPUT_MAX_BYTES < bytes.length then a.promise.tell q (.error (.invalid "terminal input exceeds 1 MiB"))
  else if INPUT_BUDGET < a.held + bytes.length then a.promise.tell q (.error .busy)
  else a.promise.send (.control q)

def ask (a : RemoteActor ν) : Ask → RemoteActor ν
  | .input connection bytes => a.queueInput connection bytes
  | .control connection control =>
    let q : QueuedControl := ⟨connection, control, some a.next⟩
    if control.isInput then a.promise.tell q (.error (.invalid "Raw input requires a terminal subscription."))
    else a.promise.send (.control q)
  | .reconnected sameIncarnation => a.send (.reconnected sameIncarnation)
  | .unsubscribe id => a.send (.unsubscribe id)
  | .capture => a.send .capture
  | .other => a.send .other

/-! ### The queue -/

def push (a : RemoteActor ν) (q : QueuedControl) : RemoteActor ν :=
  { a with queued := a.queued ++ [q], accepted := a.accepted ++ [q] }

/-- A view that gets the focus asks for the size that it wanted, unless the size is its own. -/
def focusResize (a : RemoteActor ν) (q : QueuedControl) : Option QueuedControl :=
  match q.connection, q.control with
  | some id, .focus true =>
    if a.views.resizeOwner.any (fun owner => owner == id && a.views.contains owner) then none
    else (a.views.requested.lookup id).map fun r => ⟨some id, .resize r.control, none⟩
  | _, _ => none

/-- The failure is that of the actor: a control that nobody waits for found no room. -/
def queue (a : RemoteActor ν) (q : QueuedControl) : RemoteActor ν × Option String :=
  if CONTROL_CAPACITY ≤ a.queued.length then
    match q.reply with
    | some _ => (a.tell q (.error .busy), none)
    | none => (a, some "Remote input exceeded its connection buffer, and Kodosi did not send it again.")
  else if q.control.isInput ∧ q.connection = none ∧ a.place.typing then
    (a.tell q (.error (.invalid SOMEONE_TYPING)), none)
  else
    let place := if q.control.isInput ∧ q.connection.isSome then { a.place with typedAt := some a.place.now } else a.place
    let resize := a.focusResize q
    (resize.toList.foldl push ({ a with place }.push q), none)

def begin (a : RemoteActor ν) (control : TerminalControl) (replies : List Nat) (resizeOwner : Option Nat)
    (parts : List QueuedControl) : RemoteActor ν :=
  { a with inFlight := some ⟨control, replies, resizeOwner, parts, false⟩ }

/-- Joins the inputs that wait behind one of the same view, while they fit. -/
def mergeInput (a : RemoteActor ν) (connection : Option Nat) (bytes : List UInt8) (parts : List QueuedControl) :
    List QueuedControl → RemoteActor ν × List UInt8 × List QueuedControl
  | [] => ({ a with queued := [] }, bytes, parts)
  | next :: rest =>
    match next.control with
    | .input more =>
      if next.connection = connection ∧ bytes.length + more.length ≤ MERGED_INPUT_BYTES then
        if a.isClosed next then (a.drop next).mergeInput connection bytes parts rest
        else a.mergeInput connection (bytes ++ more) (parts ++ [next]) rest
      else ({ a with queued := next :: rest }, bytes, parts)
    | _ => ({ a with queued := next :: rest }, bytes, parts)

/-- The view that had the size is gone: the focused view that held it last asks for it. -/
def giveSizeBack (a : RemoteActor ν) (order : List Nat) (owner : Nat) : RemoteActor ν :=
  if a.views.grid = none ∨ (a.views.requested.lookup owner).map (·.size) ≠ a.views.grid then a
  else match a.views.candidate order with
    | none => a
    | some (id, r) =>
      if a.queued.any fun q => decide (q.connection = some id) && q.control.isResize then a
      else a.push ⟨some id, .resize r.control, none⟩

/-- Looks for what goes next, from the front of the queue. -/
def popFrom (a : RemoteActor ν) : List QueuedControl → RemoteActor ν
  | [] => { a with queued := [] }
  | q :: rest =>
    if a.isClosed q then (a.drop q).popFrom rest
    else if q.connection.any fun id => !a.views.contains id then (a.tell q (.error .stale)).popFrom rest
    else match q.control with
      | .focus focused =>
        match q.connection with
        | none => (a.tell q (.error .stale)).popFrom rest
        | some id =>
          let views := a.views.setFocus id focused
          let focused := !views.focused.isEmpty
          if focused = views.confirmedFocus then ({ a with views }.tell q (.ok none)).popFrom rest
          else { a with views, queued := rest }.begin (.focus focused) q.reply.toList none []
      | .resize r =>
        match a.views.checkResize q.connection r with
        | (views, .error error) => ({ a with views }.tell q (.error error)).popFrom rest
        | (views, .ok (id, r)) => { a with views, queued := rest }.begin (.resize r) q.reply.toList (some id) []
      | .input bytes =>
        let (a, bytes, parts) := a.mergeInput q.connection bytes [q] rest
        a.begin (.input bytes) (replies parts) none parts
      | control => { a with queued := rest }.begin control q.reply.toList none []

def takeOwner (a : RemoteActor ν) (order : List Nat) : RemoteActor ν :=
  match a.views.resizeOwner with
  | none => a
  | some owner =>
    if a.views.contains owner then a
    else { a with views := { a.views with resizeOwner := none } }.giveSizeBack order owner

def nextControl (a : RemoteActor ν) (order : List Nat) : RemoteActor ν :=
  if a.inFlight.isSome ∨ a.place.synced = false then a
  else
    let a := a.takeOwner order
    let a := { a with views := a.views.retain }
    let aggregate := !a.views.focused.isEmpty
    if aggregate ≠ a.views.confirmedFocus then a.begin (.focus aggregate) [] none []
    else a.popFrom a.queued

/-- The connection takes the control on its way. -/
def handOver (a : RemoteActor ν) (active : InFlight) : RemoteActor ν :=
  { a with
    inFlight := some { active with handed := true }
    handed := a.handed ++ [active.control]
    sent := a.sent ++ active.parts }

/-! ### How a control ends -/

/-- The first of the callers whose inputs were joined hears the result, the others whether it was good. -/
def tellReplies (a : RemoteActor ν) (result : Except NetworkError (Option ν)) : List Nat → RemoteActor ν
  | [] => a
  | first :: rest =>
    let each : Except Error (Option ν) := match result with
      | .ok _ => .ok none
      | .error e => .error (.other e.text)
    (a.resolve [first] (.told (result.mapError Error.ofNetwork))).resolve rest (.told each)

/-- Which failures end the connection. -/
def fatal (active : InFlight) : Except NetworkError (Option ν) → Option String
  | .ok _ => none
  | .error e =>
    if active.control.isInput ∨ active.control.isFocus ∨ e = .closed ∨ e = .stale then
      some ("The remote terminal did not confirm the control (" ++ e.text ++ "), and Kodosi did not send it again.")
    else none

def finishControl (a : RemoteActor ν) (result : Except NetworkError (Option ν)) : RemoteActor ν × Option String :=
  match a.inFlight with
  | none => (a, some "Kodosi has stopped.")
  | some active =>
    let views := match result with
      | .ok _ => a.views.confirm active.control active.resizeOwner
      | .error _ => a.views
    ({ a with inFlight := none, views }.tellReplies result active.replies, fatal active result)

/-- What was on its way hears why it failed. -/
def failFlight (a : RemoteActor ν) (error : Error) : RemoteActor ν :=
  match a.inFlight with
  | none => a
  | some active => { a with inFlight := none }.fail active.replies error

/-- What waits in the queue hears why it does not go. -/
def drain (a : RemoteActor ν) (error : Error) : RemoteActor ν :=
  { a with queued := [] }.fail (replies a.queued) error

/-- The loop is over: what waits and what is on its way fails, and what is in the channel is dropped. -/
def stop (a : RemoteActor ν) (reason : String) : RemoteActor ν :=
  let a := (a.drain (.other reason)).failFlight (.other reason)
  let a := { a with requests := [] }.resolve (replies a.carried) .dropped
  { a with ended := true, place := { a.place with disconnected := true, selecting := false } }

/-- The terminal is not connected: no output, no confirmed focus, and nobody's size. -/
def reset (a : RemoteActor ν) (link : Link) : RemoteActor ν :=
  { a with
    place := { a.place with link, synced := false }
    views := { a.views with confirmedFocus := false, resizeOwner := none } }

def interrupt (a : RemoteActor ν) (reason : String) : RemoteActor ν :=
  let a := { a with views := a.views.prune }
  if a.views.entries = [] then a.stop reason
  else
    let a := { a with place := { a.place with lostAt := some (a.place.lostAt.getD a.place.now) } }
    (a.failFlight (.other reason)).reset .lost

/-- A step of the loop that failed interrupts the terminal. -/
def settle (outcome : RemoteActor ν × Option String) : RemoteActor ν :=
  let a := match outcome with
    | (a, none) => a
    | (a, some failure) => a.interrupt failure
  if a.ended = false ∧ a.place.link = .lost ∧ a.views.entries = [] then a.stop "Disconnected from the remote terminal."
  else a

def resume (a : RemoteActor ν) (sameIncarnation : Bool) : RemoteActor ν :=
  if sameIncarnation = false ∨ a.place.link = .opened then a
  else { a with place := { a.place with link := .opened, lostAt := none } }

/-! ### The loop -/

/-- A terminal that sleeps connects again for a request that needs it. -/
def wake (a : RemoteActor ν) (request : Request) : RemoteActor ν :=
  if request.wakes ∧ (a.place.link = .paused ∨ a.place.link = .waking) then
    { a with place := { a.place with link := .waking } }
  else a

def handle (a : RemoteActor ν) (failure : Option String) : Request → RemoteActor ν × Option String
  | .control q => if a.place.lostTooLong then (a.tell q (.error (.other RECONNECTING)), none) else a.queue q
  | .reconnected sameIncarnation => (a.resume sameIncarnation, none)
  | .unsubscribe id => ({ a with views := a.views.remove id }, none)
  | .capture => (a, failure)
  | .other => (a, none)

def maintain (a : RemoteActor ν) : RemoteActor ν :=
  let a := { a with views := a.views.prune }
  if a.place.lostTooLong then a.drain (.other RECONNECTING) else a

/-- The connection is over. A control whose result is there already hears it before that. -/
def close (a : RemoteActor ν) (ready : Option (Except NetworkError (Option ν))) (stopped : Bool) (reason : String) :
    RemoteActor ν :=
  let (a, failure) := match ready with
    | none => (a, none)
    | some result => a.finishControl result
  match failure with
  | some text => settle (a, some text)
  | none => if stopped then a.stop "The host stopped this terminal." else settle (a, some reason)

/-- What an update of the host changes here: whether there is output to follow, and the size. -/
structure Update where
  synced : Option Bool
  grid : Option (Nat × Nat)
  failure : Option String

def update (a : RemoteActor ν) (u : Update) : RemoteActor ν × Option String :=
  ({ a with place := { a.place with synced := u.synced.getD a.place.synced },
            views := { a.views with grid := u.grid.or a.views.grid } }, u.failure)

inductive Event (ν : Type) where
  | ask (what : Ask)
  | cancel (reply : Nat)
  | disconnect
  | pass (time : Nat)
  | joined (id : Nat)
  | lapsed (id : Nat)
  | turn (order : List Nat)
  | pause
  | handOver
  | completed (result : Except NetworkError (Option ν))
  | update (u : Update)
  | closed (ready : Option (Except NetworkError (Option ν))) (stopped : Bool) (reason : String)
  | request (failure : Option String)
  | maintain (failure : Option String)
  | stop (reason : String)

/-- The result that a control on its way can have: before it is handed over only that it was not taken. -/
def CanEnd (a : RemoteActor ν) (result : Except NetworkError (Option ν)) : Prop :=
  ∃ active, a.inFlight = some active ∧ (active.handed = true ∨ ∃ e, result = .error e)

/-- When an event can come: the callers', the views' and the clock's at any time, and the others as the one outcome of a
    turn of the loop. -/
def Allowed (a : RemoteActor ν) : Event ν → Prop
  | .ask _ | .cancel _ | .disconnect | .pass _ | .joined _ | .lapsed _ => True
  | .turn order => a.ended = false ∧ a.place.selecting = false ∧ order.Perm a.views.focused
  | .pause => a.ended = false ∧ a.place.selecting = false ∧ a.place.link = .opened ∧ a.inFlight = none ∧
      a.queued = [] ∧ a.requests = []
  | .handOver => a.place.selecting = true ∧ ∃ active, a.inFlight = some active ∧ active.handed = false
  | .completed result => a.place.selecting = true ∧ a.CanEnd result
  | .update _ => a.place.selecting = true ∧ a.place.link = .opened
  | .closed ready _ _ => a.place.selecting = true ∧ a.place.link = .opened ∧ ∀ result ∈ ready, a.CanEnd result
  | .request _ => a.place.selecting = true ∧ a.requests ≠ []
  | .maintain _ => a.place.selecting = true
  | .stop _ => a.ended = false

/-- The turn of the loop is over. -/
def finish (a : RemoteActor ν) : RemoteActor ν := { a with place := { a.place with selecting := false } }

def step (a : RemoteActor ν) : Event ν → RemoteActor ν
  | .ask what => a.ask what
  | .cancel reply => { a with cancelled := reply :: a.cancelled }
  | .disconnect => { a with place := { a.place with disconnected := true } }
  | .pass time => { a with place := { a.place with now := a.place.now + time } }
  | .joined id => { a with views := { a.views with entries := a.views.entries ++ [id] } }
  | .lapsed id => { a with views := { a.views with lapsed := id :: a.views.lapsed } }
  | .turn order =>
    let a := { a with place := { a.place with selecting := true } }
    if a.place.link = .opened then a.nextControl order else a
  | .pause => a.reset .paused
  | .handOver =>
    match a.inFlight with
    | none => a
    | some active => a.handOver active
  | .completed result => settle (a.finish.finishControl result)
  | .update u => settle (a.finish.update u)
  | .closed ready stopped reason => a.finish.close ready stopped reason
  | .request failure =>
    match a.requests with
    | [] => a
    | request :: rest => settle (({ a with requests := rest }.finish.wake request).handle failure request)
  | .maintain failure => settle (a.finish.maintain, failure)
  | .stop reason => a.stop reason

end RemoteActor

end Kodosi.Terminal.RemoteInput
