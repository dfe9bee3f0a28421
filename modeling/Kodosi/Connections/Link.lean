import Mathlib

/-! The one connection of a device to the service: the pipes that run over it with their routes, the terminals that it
    announces, and the lock that all of it stands under. Whoever takes the lock while he holds it never goes on. -/

namespace Kodosi.Connections.DeviceLink

abbrev Uuid := Nat
abbrev Bytes := List UInt8

def WAITING_EVENTS : Nat := 128
def PIPE_WAITING_BYTES : Nat := 16 * 1024 * 1024
def PIPE_ID : Nat := 16

inductive Error where
  | closed
  | invalid (message : String)
  | backend (status : Nat) (message : String)
  deriving DecidableEq

/-- A JSON value; of a number, what it is as an unsigned integer. -/
inductive Value where
  | null
  | bool (b : Bool)
  | number (unsigned : Option Nat)
  | text (s : String)
  | array (values : List Value)
  | object (fields : List (String × Value))

def Value.get (value : Value) (field : String) : Option Value :=
  match value with
  | .object fields => (fields.find? (·.1 = field)).map (·.2)
  | _ => none

def Value.asText : Value → Option String
  | .text s => some s
  | _ => none

def Value.asUnsigned : Value → Option Nat
  | .number unsigned => unsigned
  | _ => none

def text (value : Value) (field : String) : Except Error String :=
  match (value.get field).bind Value.asText with
  | some s => .ok s
  | none => .error (.invalid ("Missing " ++ field ++ "."))

def id (parse : String → Option Uuid) (value : Value) (field : String) : Except Error Uuid := do
  match parse (← text value field) with
  | some id => .ok id
  | none => .error (.invalid ("Invalid " ++ field ++ "."))

def statusOf (value : Value) : Option Nat := (value.get "status").bind Value.asUnsigned

def refusal (value : Value) : Error :=
  .backend (((statusOf value).filter (· < 2 ^ 16)).getD 500) (((value.get "message").bind Value.asText).getD "")

/-- The kinds of messages that the service sends. -/
inductive Kind where
  | ping
  | pong
  | hosted
  | changed
  | terminal
  | unhosted
  | accessChanged
  | viewer
  | caller
  | hosts
  | closed
  deriving DecidableEq

def Kind.read (type : String) : Option Kind :=
  [("ping", ping), ("pong", pong), ("hosted", hosted), ("changed", changed), ("terminal", terminal),
    ("unhosted", unhosted), ("accessChanged", accessChanged), ("viewer", viewer), ("caller", caller), ("hosts", hosts),
    ("closed", closed)].lookup type

/-! ### What the link holds -/

inductive Incoming where
  | data (bytes : Bytes)
  | closed (error : Option Error)
  deriving DecidableEq

def Incoming.isClosed : Incoming → Bool
  | .data _ => false
  | .closed _ => true

def Incoming.length : Incoming → Nat
  | .data bytes => bytes.length
  | .closed _ => 0

/-- A pipe that somebody has. Behind its fields stand the connection it runs over and what it has received. -/
structure Pipe where
  number : Nat
  id : Uuid
  incoming : List Incoming
  waiting : Nat
  connection : Nat
  received : List Incoming

/-- Takes the next of what came in. -/
def Pipe.receive (p : Pipe) : Pipe :=
  match p.incoming with
  | [] => p
  | next :: rest => { p with incoming := rest, waiting := p.waiting - next.length, received := p.received ++ [next] }

/-- The sending end of the channel of a pipe. -/
structure Route where
  id : Uuid
  pipe : Nat
  deriving DecidableEq

inductive HostEvent where
  | refused (error : Error)
  | accessChanged
  | viewer (pipe : Nat) (user device : String)

/-- A terminal that is registered. `refused` says that the service refused it on this connection. -/
structure Hosting (σ : Type) where
  session : Uuid
  registration : Nat
  incarnation : Uuid
  announced : Bool
  status : Option σ
  refused : Bool

/-- Whoever hosts a terminal, with the receiving end of the events of its registration. -/
structure Hosted where
  session : Uuid
  registration : Nat
  events : List HostEvent

structure Caller where
  pipe : Nat
  user : String
  device : String

/-- A channel of callers that somebody reads. -/
structure Calls where
  number : Nat
  capacity : Nat
  waiting : List Caller

/-- What goes to the service. An announcement and a status say behind their fields which registration they are of. -/
inductive Control (σ : Type) where
  | pong
  | opens (pipe : Uuid) (session incarnation : Uuid)
  | calls (pipe : Uuid) (device : String)
  | host (session incarnation : Uuid) (registration : Nat)
  | status (session incarnation : Uuid) (status : Option σ) (registration : Nat)
  | unhost (session : Uuid)
  | close (pipe : Uuid)

/-- The link. Behind its own fields stand who holds pipes, hosts terminals and reads calls, the number of the connection,
    what was sent to the service on it, whether an announcement is due, and of which pipes the service was told a close. -/
structure Link (σ : Type) where
  locked : Bool
  outgoing : Bool
  routes : List Route
  hosting : List (Hosting σ)
  callers : Option Nat
  pipes : List Pipe
  hosted : List Hosted
  calls : List Calls
  next : Nat
  connection : Nat
  control : List (Control σ)
  due : Bool
  closes : List Nat

namespace Link

variable {σ ν : Type}

def new : Link σ := ⟨false, false, [], [], none, [], [], [], 0, 0, [], false, []⟩

/-! ### The lock -/

def lock (s : Link σ) : Option (Link σ) := if s.locked then none else some { s with locked := true }

def unlock (s : Link σ) : Link σ := { s with locked := false }

def send (s : Link σ) (message : Control σ) : Link σ := { s with control := s.control ++ [message] }

/-! ### Pipes -/

def routeOf (s : Link σ) (id : Uuid) : Option Route := s.routes.find? (·.id = id)

/-- A new pipe, whose route takes the place of another one of its id. -/
def route (s : Link σ) (id : Uuid) : Link σ × Nat :=
  ({ s with
    routes := s.routes.filter (·.id ≠ id) ++ [⟨id, s.next⟩]
    pipes := s.pipes ++ [⟨s.next, id, [], 0, s.connection, []⟩]
    next := s.next + 1 }, s.next)

/-- The route goes and the service is told so. -/
def closeRoute (s : Link σ) (id : Uuid) : Link σ :=
  { s with
    routes := s.routes.filter (·.id ≠ id)
    closes := s.closes ++ (s.routeOf id).toList.map (·.pipe) }

/-- What is put into the channel of a pipe. -/
def put (s : Link σ) (pipe : Nat) (incoming : Incoming) : Link σ :=
  { s with
    pipes := s.pipes.map fun p => if p.number = pipe then
      { p with incoming := p.incoming ++ [incoming], waiting := p.waiting + incoming.length } else p }

/-- A pipe goes: it takes the lock, and tells a close when its id has a route. -/
def dropPipe (s : Link σ) (pipe : Pipe) : Option (Link σ) := do
  let s : Link σ ← s.lock
  let s := s.closeRoute pipe.id
  return unlock { s with pipes := s.pipes.filter (·.number ≠ pipe.number) }

def request (s : Link σ) (message : Uuid → Control σ) (id : Uuid) : Option (Link σ × Except Error Nat) := do
  let s : Link σ ← s.lock
  if s.outgoing then
    let (s, pipe) := s.route id
    return (s.unlock.send (message id), .ok pipe)
  else return (s.unlock, .error (.invalid "Kodosi could not reach the terminal connection service."))

/-! ### Terminals -/

def host (s : Link σ) (session incarnation : Uuid) : Option (Link σ) := do
  let s : Link σ ← s.lock
  let s : Link σ := { s with
    hosting := s.hosting.filter (·.session ≠ session) ++ [⟨session, s.next, incarnation, false, none, false⟩]
    hosted := s.hosted ++ [⟨session, s.next, []⟩]
    next := s.next + 1
    due := true }
  return s.unlock

def share (s : Link σ) (hosted : Hosted) (status : Option σ) : Option (Link σ) := do
  let s : Link σ ← s.lock
  match s.hosting.find? fun (h : Hosting σ) => h.session = hosted.session ∧ h.registration = hosted.registration with
  | none => return s.unlock
  | some hosting =>
    let s : Link σ := if s.outgoing ∧ hosting.announced then
      s.send (.status hosted.session hosting.incarnation status hosting.registration) else s
    let s : Link σ := { s with hosting := s.hosting.map fun h =>
      if h.session = hosted.session ∧ h.registration = hosted.registration then { h with status := status } else h }
    return s.unlock

/-- Whoever hosts a terminal goes; the pipes in its channel go after it. -/
def dropHosted (s : Link σ) (hosted : Hosted) : Option (Link σ) := do
  let s : Link σ ← s.lock
  let s : Link σ := if s.hosting.any fun (h : Hosting σ) => h.session = hosted.session ∧ h.registration = hosted.registration then
    let s : Link σ := { s with hosting := s.hosting.filter (·.session ≠ hosted.session) }
    if s.outgoing then s.send (.unhost hosted.session) else s
  else s
  return unlock { s with hosted := s.hosted.filter (·.registration ≠ hosted.registration) }

def takeCalls (s : Link σ) (capacity : Nat) : Option (Link σ) := do
  let s : Link σ ← s.lock
  return unlock { s with
    callers := some s.next
    calls := s.calls ++ [⟨s.next, capacity, []⟩]
    next := s.next + 1 }

/-- Gives an event to who hosts a terminal, unless he is gone or his channel is full. -/
def tryEvent (s : Link σ) (registration : Nat) (event : HostEvent) : Option (Link σ) :=
  match s.hosted.find? (·.registration = registration) with
  | some hosted =>
    if hosted.events.length < WAITING_EVENTS then
      some { s with hosted := s.hosted.map fun h =>
        if h.registration = registration then { h with events := h.events ++ [event] } else h }
    else none
  | none => none

def tryCall (s : Link σ) (caller : Caller) : Option (Link σ) :=
  match s.calls.find? fun calls => s.callers = some calls.number with
  | some calls =>
    if calls.waiting.length < calls.capacity then
      some { s with calls := s.calls.map fun c =>
        if c.number = calls.number then { c with waiting := c.waiting ++ [caller] } else c }
    else none
  | none => none

/-! ### The connection -/

def connected (s : Link σ) : Option (Link σ) := do
  let s : Link σ ← s.lock
  let s : Link σ := { s with
    outgoing := true
    hosting := s.hosting.map fun h => { h with announced := false, refused := false }
    connection := s.connection + 1
    control := []
    due := true }
  return s.unlock

def disconnected (s : Link σ) : Option (Link σ) := do
  let s : Link σ ← s.lock
  let s : Link σ := { s with
    outgoing := false
    pipes := s.pipes.map fun p =>
      if ⟨p.id, p.number⟩ ∈ s.routes then { p with incoming := p.incoming ++ [.closed none] } else p
    routes := [] }
  return s.unlock

/-- What is sent to announce one terminal. -/
def announcement (h : Hosting σ) : List (Control σ) :=
  if h.announced then [] else
    .host h.session h.incarnation h.registration ::
      (h.status.map fun status => Control.status h.session h.incarnation (some status) h.registration).toList

def announce (s : Link σ) : Option (Link σ) := do
  let s : Link σ ← s.lock
  if s.outgoing then
    let s : Link σ := { s with
      control := s.control ++ s.hosting.flatMap announcement
      hosting := s.hosting.map fun h => { h with announced := true }
      due := false }
    return s.unlock
  else return unlock { s with due := false }

/-! ### What comes in -/

def idOf (bytes : Bytes) : Uuid := bytes.foldl (fun n byte => n * 256 + byte.toNat) 0

def frame (s : Link σ) (bytes : Bytes) : Option (Link σ) :=
  if bytes.length < PIPE_ID then some s else do
    let id := idOf (bytes.take PIPE_ID)
    let payload := bytes.drop PIPE_ID
    let s : Link σ ← s.lock
    match s.routeOf id with
    | none => return s.unlock
    | some route =>
      match s.pipes.find? (·.number = route.pipe) with
      | some pipe =>
        if pipe.waiting + payload.length ≤ PIPE_WAITING_BYTES then
          return (s.put route.pipe (.data payload)).unlock
        else return ((s.closeRoute id).send (.close id)).unlock
      | none => return ((s.closeRoute id).send (.close id)).unlock

/-- Under the lock, a pipe that nobody takes: its route goes. It is dropped itself once the lock is free. -/
def refuse (s : Link σ) (id : Uuid) : Link σ := (s.closeRoute id).send (.close id)

variable (parse : String → Option Uuid) (notice : Kind → Value → Except Error ν)

def caller (s : Link σ) (value : Value) : Option (Link σ × Except Error (Option ν)) :=
  match id parse value "pipe", text value "userId", text value "deviceId" with
  | .error e, _, _ | .ok _, .error e, _ | .ok _, .ok _, .error e => some (s, .error e)
  | .ok id, .ok user, .ok device =>
    let (s, pipe) := s.route id
    match s.tryCall ⟨pipe, user, device⟩ with
    | some s => some (s, .ok none)
    | none => some (s.refuse id, .ok none)

/-- The pipe is there before the texts are read: a text that is missing ends the function, and the pipe goes on the way
    out, before the guard of the lock does. -/
def viewer (s : Link σ) (value : Value) : Option (Link σ × Except Error (Option ν)) :=
  match id parse value "pipe", id parse value "sessionId" with
  | .error e, _ | .ok _, .error e => some (s, .error e)
  | .ok id, .ok session =>
    let pipe : Pipe := ⟨s.next, id, [], 0, s.connection, []⟩
    let (s, number) := s.route id
    match text value "userId", text value "deviceId" with
    | .error e, _ | .ok _, .error e => (s.dropPipe pipe).map fun s => (s, .error e)
    | .ok user, .ok device =>
      match (s.hosting.find? (·.session = session)).bind fun h => s.tryEvent h.registration (.viewer number user device) with
      | some s => some (s, .ok none)
      | none => some (s.refuse id, .ok none)

/-- What a message does under the lock. -/
def handle (s : Link σ) (value : Value) : Option (Link σ × Except Error (Option ν)) :=
  match text value "type" with
  | .error e => some (s, .error e)
  | .ok type =>
    match Kind.read type with
    | none => some (s, .error (.invalid "Unsupported device connection message."))
    | some .ping => some (s.send .pong, .ok none)
    | some .pong | some .hosted => some (s, .ok none)
    | some .changed => some (s, (notice .changed value).map some)
    | some .terminal => some (s, (notice .terminal value).map some)
    | some .hosts => some (s, (notice .hosts value).map some)
    | some .unhosted =>
      match id parse value "sessionId" with
      | .error e => some (s, .error e)
      | .ok session =>
        match s.hosting.find? (·.session = session) with
        | none => some (s, .ok none)
        | some hosting =>
          let s : Link σ := { s with hosting := s.hosting.map fun h =>
            if h.session = session then { h with announced := false, refused := true } else h }
          some ((s.tryEvent hosting.registration (.refused (refusal value))).getD s, .ok none)
    | some .accessChanged =>
      match id parse value "sessionId" with
      | .error e => some (s, .error e)
      | .ok session =>
        match s.hosting.find? (·.session = session) with
        | none => some (s, .ok none)
        | some hosting => some ((s.tryEvent hosting.registration .accessChanged).getD s, .ok none)
    | some .viewer => s.viewer parse value
    | some .caller => s.caller parse value
    | some .closed =>
      match id parse value "pipe" with
      | .error e => some (s, .error e)
      | .ok id =>
        match s.routeOf id with
        | none => some (s, .ok none)
        | some route =>
          let error := if (statusOf value).getD 0 ≠ 0 then some (refusal value) else none
          some ({ s.put route.pipe (.closed error) with routes := s.routes.filter (·.id ≠ id) }, .ok none)

def message (s : Link σ) (value : Value) : Option (Link σ × Except Error (Option ν)) := do
  let s : Link σ ← s.lock
  if s.outgoing then
    let (s, result) ← s.handle parse notice value
    return (s.unlock, result)
  else return (s.unlock, .error .closed)

end Link

/-! ### Steps -/

/-- Everything that happens to the link. A pipe that opens, calls or comes in brings its id. -/
inductive Event (σ : Type) where
  | connected
  | disconnected
  | announce
  | host (session incarnation : Uuid)
  | share (registration : Nat) (status : Option σ)
  | dropHosted (registration : Nat)
  | takeEvent (registration : Nat)
  | takeCalls (capacity : Nat)
  | dropCalls (number : Nat)
  | takeCall (number : Nat)
  | opens (pipe session incarnation : Uuid)
  | calls (pipe : Uuid) (device : String)
  | dropPipe (pipe : Nat)
  | receive (pipe : Nat)
  | frame (bytes : Bytes)
  | message (value : Value)

namespace Link

variable {σ ν : Type}

/-- A pipe that waits in a channel is nobody's yet. -/
def queued (s : Link σ) (pipe : Nat) : Bool :=
  (s.hosted.any fun h => h.events.any fun
    | .viewer number _ _ => number = pipe
    | _ => false) || s.calls.any fun c => c.waiting.any (·.pipe = pipe)

/-- One step. The connection ends before the next one begins. -/
def step (parse : String → Option Uuid) (notice : Kind → Value → Except Error ν) (s : Link σ) : Event σ → Option (Link σ)
  | .connected => if s.outgoing then some s else s.connected
  | .disconnected => s.disconnected
  | .announce => s.announce
  | .host session incarnation => s.host session incarnation
  | .share registration status =>
    match s.hosted.find? (·.registration = registration) with
    | some hosted => s.share hosted status
    | none => some s
  | .dropHosted registration =>
    match s.hosted.find? (·.registration = registration) with
    | some hosted => s.dropHosted hosted
    | none => some s
  | .takeEvent registration => some { s with
      hosted := s.hosted.map fun h => if h.registration = registration then { h with events := h.events.tail } else h }
  | .takeCalls capacity => s.takeCalls capacity
  | .dropCalls number => some { s with calls := s.calls.filter (·.number ≠ number) }
  | .takeCall number => some { s with
      calls := s.calls.map fun c => if c.number = number then { c with waiting := c.waiting.tail } else c }
  | .opens pipe session incarnation => (s.request (.opens · session incarnation) pipe).map Prod.fst
  | .calls pipe device => (s.request (.calls · device) pipe).map Prod.fst
  | .dropPipe pipe =>
    match s.pipes.find? (·.number = pipe) with
    | some p => if s.queued pipe then some s else s.dropPipe p
    | none => some s
  | .receive pipe => some { s with pipes := s.pipes.map fun p => if p.number = pipe then p.receive else p }
  | .frame bytes => s.frame bytes
  | .message value => (s.message parse notice value).map Prod.fst

end Link

end Kodosi.Connections.DeviceLink
