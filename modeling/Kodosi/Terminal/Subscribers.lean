import Mathlib

/-! The views of one terminal: each subscription reads its output and its control frames from two bounded
    queues, and a view whose queue is full falls behind until it gets a snapshot. -/

namespace Kodosi.Terminal

abbrev Bytes := List UInt8

def DATA_CAPACITY : Nat := 512
def CONTROL_CAPACITY : Nat := 16
def MAX_SUBSCRIBERS : Nat := 32
def MAX_PENDING_RESIZES : Nat := 32
def MAX_RAW_BYTES : Nat := 64 * 1024

structure DataFrame where
  sequence : Nat
  bytes : Bytes
  deriving DecidableEq

structure CellPixels where
  width : Nat
  height : Nat
  deriving DecidableEq

/-- A size of the terminal, and the place in the output where it takes effect. -/
structure Resize where
  rows : Nat
  cols : Nat
  cell : CellPixels
  atSequence : Nat
  deriving DecidableEq

inductive ControlFrame (κ : Type) where
  | resize (r : Resize)
  | snapshot (checkpoint : κ) (nextSequence : Nat)
  | closed (reason : String) (finalSequence : Nat)
  deriving DecidableEq

inductive Frame (κ : Type) where
  | data (frame : DataFrame)
  | control (frame : ControlFrame κ)
  deriving DecidableEq

structure CheckpointCut (κ : Type) where
  checkpoint : κ
  nextSequence : Nat

/-- What the reading side of a view keeps. -/
structure Subscription (κ : Type) where
  checkpoint : κ
  nextSequence : Nat
  resizes : List Resize
  closing : Option (String × Nat)
  refreshed : Option (CheckpointCut κ)

/-- One view: its two queues, both ends of it. `live` is false once the terminal has dropped its end. -/
structure Link (κ : Type) where
  data : List DataFrame
  control : List (ControlFrame κ)
  behind : Bool
  live : Bool
  sub : Subscription κ

variable {κ : Type}

/-! ### The terminal's end -/

namespace Link

/-- Puts a control frame into the queue, or lets the view fall behind. -/
def deliver (frame : ControlFrame κ) (l : Link κ) : Link κ :=
  if l.control.length < CONTROL_CAPACITY then
    { l with
      control := l.control ++ [frame]
      behind := match frame with
        | .snapshot _ _ => false
        | _ => l.behind }
  else { l with behind := true }

def putData (frame : DataFrame) (l : Link κ) : Link κ :=
  if l.behind then l
  else if MAX_RAW_BYTES < frame.bytes.length ∨ DATA_CAPACITY ≤ l.data.length then
    { l with behind := true }
  else { l with data := l.data ++ [frame] }

def putControl (frame : ControlFrame κ) (l : Link κ) : Link κ :=
  match frame with
  | .resize _ => if l.behind then l else l.deliver frame
  | _ => l.deliver frame

def caughtUp (l : Link κ) : Bool := l.behind && l.data.isEmpty

def putRefresh (checkpoint : κ) (nextSequence : Nat) (l : Link κ) : Link κ :=
  if l.caughtUp then l.deliver (.snapshot checkpoint nextSequence) else l

def putClose (reason : String) (finalSequence : Nat) (l : Link κ) : Link κ :=
  { l with
    control := if l.control.length < CONTROL_CAPACITY then
        l.control ++ [.closed reason finalSequence]
      else l.control
    live := false }

end Link

/-! ### The view's end -/

/-- What one poll of `recv` comes to: nothing yet, a frame, the end, or an error. -/
inductive Polled (κ : Type) where
  | pending
  | frame (f : Frame κ)
  | ended
  | failed (reason : String)
  deriving DecidableEq

namespace Subscription

def readyClose (s : Subscription κ) : Except String (Option (Frame κ)) × Subscription κ :=
  match s.closing with
  | some (reason, last) =>
    if last < s.nextSequence then
      (.error "terminal close boundary regressed", { s with closing := none })
    else if last = s.nextSequence then
      (.ok (some (.control (.closed reason last))), { s with closing := none })
    else (.ok none, s)
  | none => (.ok none, s)

def readyResize (s : Subscription κ) : Except String (Option (Frame κ)) × Subscription κ :=
  match s.resizes with
  | r :: rest =>
    if r.atSequence < s.nextSequence then
      (.error "terminal resize arrived out of order", { s with resizes := rest })
    else if r.atSequence = s.nextSequence then
      (.ok (some (.control (.resize r))), { s with resizes := rest })
    else s.readyClose
  | [] => s.readyClose

/-- What the view may hand out before it looks at its queues. -/
def ready (s : Subscription κ) : Except String (Option (Frame κ)) × Subscription κ :=
  match s.refreshed with
  | some cut =>
    if cut.nextSequence < s.nextSequence then
      (.error "terminal refresh snapshot regressed", { s with refreshed := none })
    else if cut.nextSequence = s.nextSequence then
      (.ok (some (.control (.snapshot cut.checkpoint cut.nextSequence))),
        { s with refreshed := none })
    else s.readyResize
  | none => s.readyResize

def refresh (cut : CheckpointCut κ) (s : Subscription κ) : Subscription κ :=
  { s with refreshed := some cut }

def canRefresh (s : Subscription κ) : Bool := s.refreshed.isNone && s.closing.isNone

end Subscription

namespace Link

/-- The next data frame of the queue; `none` says that the view looks again. -/
def takeData (l : Link κ) : Option (Polled κ) × Link κ :=
  match l.data with
  | f :: rest =>
    if f.sequence < l.sub.nextSequence then (none, { l with data := rest })
    else if f.sequence = l.sub.nextSequence then
      if l.sub.nextSequence + 1 < 2 ^ 64 then
        (some (.frame (.data f)),
          { l with data := rest, sub := { l.sub with nextSequence := l.sub.nextSequence + 1 } })
      else (some (.failed "terminal output sequence exhausted"), { l with data := rest })
    else (some (.failed "terminal output needs a fresh snapshot"), { l with data := rest })
  | [] =>
    if l.live then (some .pending, l)
    else match l.sub.closing with
      | some (reason, last) => (some (.frame (.control (.closed reason last))),
          { l with sub := { l.sub with closing := none } })
      | none => (some .ended, l)

def takeResize (r : Resize) (rest : List (ControlFrame κ)) (l : Link κ) :
    Option (Polled κ) × Link κ :=
  if MAX_PENDING_RESIZES ≤ l.sub.resizes.length ∨
      l.sub.resizes.getLast?.any (r.atSequence < ·.atSequence) then
    (some (.failed "terminal resize queue exceeded its ordering bound"), { l with control := rest })
  else (none, { l with control := rest, sub := { l.sub with resizes := l.sub.resizes ++ [r] } })

def takeSnapshot (checkpoint : κ) (nextSequence : Nat) (rest : List (ControlFrame κ))
    (l : Link κ) : Option (Polled κ) × Link κ :=
  if nextSequence < l.sub.nextSequence then
    (some (.failed "terminal snapshot regressed"), { l with control := rest })
  else
    (some (.frame (.control (.snapshot checkpoint nextSequence))),
      { l with
        control := rest
        sub := { l.sub with nextSequence := nextSequence, resizes := [], refreshed := none } })

/-- The next control frame of the queue, before any data; none is read once the view is closing. -/
def takeControl (l : Link κ) : Option (Polled κ) × Link κ :=
  match l.sub.closing, l.control with
  | none, .resize r :: rest => l.takeResize r rest
  | none, .snapshot checkpoint nextSequence :: rest => l.takeSnapshot checkpoint nextSequence rest
  | none, .closed reason last :: rest =>
    (none, { l with control := rest, sub := { l.sub with closing := some (reason, last) } })
  | none, [] => if l.live then l.takeData else (some .ended, l)
  | some _, _ => l.takeData

/-- One turn of the loop of `recv`. -/
def turn (l : Link κ) : Option (Polled κ) × Link κ :=
  match l.sub.ready with
  | (.error reason, sub) => (some (.failed reason), { l with sub := sub })
  | (.ok (some f), sub) => (some (.frame f), { l with sub := sub })
  | (.ok none, _) => l.takeControl

/-- The loop of `recv`, for at most so many turns. -/
def turns : Nat → Link κ → Polled κ × Link κ
  | 0, l => (.pending, l)
  | n + 1, l =>
    match l.turn with
    | (some p, l') => (p, l')
    | (none, l') => turns n l'

/-- One poll of `recv`. Each turn that is not the last takes a frame from a queue. -/
def recv (l : Link κ) : Polled κ × Link κ := l.turns (l.control.length + l.data.length + 1)

end Link

/-! ### All views of a terminal -/

/-- A view with the sequence that it started at and all that its polls came to. -/
structure View (κ : Type) where
  link : Link κ
  start : Nat
  got : List (Polled κ)

/-- A terminal: the sequence of its next output, its output so far, and its views. -/
structure Session (κ : Type) where
  sequence : Nat
  output : List DataFrame
  ended : Bool
  views : Std.TreeMap Nat (View κ)

inductive Event (κ : Type) where
  | subscribe (id : Nat) (checkpoint : κ) (cut : Nat)
  | data (bytes : Bytes)
  | resize (rows cols : Nat) (cell : CellPixels)
  | resync (checkpoint : κ) (nextSequence : Nat)
  | refresh (checkpoint : κ)
  | close (reason : String)
  | poll (id : Nat)
  | refreshed (id : Nat) (cut : CheckpointCut κ)

namespace Session

/-- What the terminal does to each view that it still holds. -/
def each (f : Link κ → Link κ) (t : Session κ) : Session κ :=
  { t with views := t.views.map fun _ v => { v with link := if v.link.live then f v.link else v.link } }

/-- The output that a view which starts at an older cut is given at once. -/
def replayed (t : Session κ) (cut : Nat) : List DataFrame := t.output.filter (cut ≤ ·.sequence)

def subscribe (id : Nat) (checkpoint : κ) (cut : Nat) (t : Session κ) : Session κ :=
  if MAX_SUBSCRIBERS ≤ t.views.size ∨ DATA_CAPACITY < (t.replayed cut).length ∨
      ∃ f ∈ t.replayed cut, MAX_RAW_BYTES < f.bytes.length then t
  else
    let sub : Subscription κ := ⟨checkpoint, cut, [], none, none⟩
    { t with views := t.views.insert id ⟨⟨t.replayed cut, [], false, true, sub⟩, cut, []⟩ }

def poll (id : Nat) (t : Session κ) : Session κ :=
  match t.views[id]? with
  | some v =>
    let (p, link) := v.link.recv
    { t with views := t.views.insert id { v with link := link, got := v.got ++ [p] } }
  | none => t

def refreshed (id : Nat) (cut : CheckpointCut κ) (t : Session κ) : Session κ :=
  match t.views[id]? with
  | some v =>
    { t with views := t.views.insert id { v with link.sub := v.link.sub.refresh cut } }
  | none => t

def step (t : Session κ) : Event κ → Session κ
  | .subscribe id checkpoint cut => t.subscribe id checkpoint cut
  | .data bytes =>
    { t.each (Link.putData ⟨t.sequence, bytes⟩) with
      sequence := t.sequence + 1
      output := t.output ++ [⟨t.sequence, bytes⟩] }
  | .resize rows cols cell => t.each (Link.putControl (.resize ⟨rows, cols, cell, t.sequence⟩))
  | .resync checkpoint nextSequence =>
    { t.each (Link.putControl (.snapshot checkpoint nextSequence)) with sequence := nextSequence }
  | .refresh checkpoint => t.each (Link.putRefresh checkpoint t.sequence)
  | .close reason => { t.each (Link.putClose reason t.sequence) with ended := true }
  | .poll id => t.poll id
  | .refreshed id cut => t.refreshed id cut

/-- What the callers keep to: output has the next sequence and a closed terminal is silent, a snapshot
    after a lost link is not older than the output, a view starts at a cut whose output is at hand, and
    a view that asked for a snapshot gets one that it has not passed. -/
def Allowed (t : Session κ) : Event κ → Prop
  | .subscribe id _ cut => t.ended = false ∧ id ∉ t.views ∧
      (t.replayed cut).map (·.sequence) = List.range' cut (t.replayed cut).length ∧
      cut + (t.replayed cut).length = t.sequence
  | .data _ => t.ended = false ∧ t.sequence + 1 < 2 ^ 64
  | .resize _ _ _ => t.ended = false
  | .resync _ nextSequence => t.ended = false ∧ t.sequence ≤ nextSequence ∧ nextSequence < 2 ^ 64
  | .refresh _ => t.ended = false
  | .close _ => t.ended = false
  | .poll _ => True
  | .refreshed id cut => ∀ v ∈ t.views[id]?,
      v.link.sub.canRefresh ∧ v.link.sub.nextSequence ≤ cut.nextSequence

instance (t : Session κ) (e : Event κ) : Decidable (t.Allowed e) :=
  match e with
  | .subscribe _ _ _ => inferInstanceAs (Decidable (_ ∧ _ ∧ _ ∧ _))
  | .data _ => inferInstanceAs (Decidable (_ ∧ _))
  | .resize _ _ _ | .refresh _ | .close _ => inferInstanceAs (Decidable (t.ended = false))
  | .resync _ _ => inferInstanceAs (Decidable (_ ∧ _ ∧ _))
  | .poll _ => .isTrue trivial
  | .refreshed id _ => inferInstanceAs (Decidable (∀ v ∈ t.views[id]?, _ ∧ _))

end Session

end Kodosi.Terminal
