import Kodosi.Documents.History

/-! The client of a view: it joins, sends the edits of its person one batch at a time, and joins again
    after each lost link. An editor keeps its edits in an outbox: the batch on its way, and the edits
    that wait behind it. A session is one client with its document. -/

namespace Kodosi.Documents
open Kodosi.Lib

/-! ### The edits without an answer -/

/-- One edit of the person. The number tells it from every other edit that the person makes; the
    program has no such number. -/
structure Edit (A : Type) where
  id : Nat
  change : A

/-- The edits that a view made and the document did not answer. The batch on its way stays here until
    its answer comes. -/
structure Outbox (A : Type) where
  sent : List (Edit A)
  queued : List (Edit A)

namespace Outbox

variable {A : Type}

def add (o : Outbox A) (edit : Edit A) : Outbox A := { o with queued := o.queued ++ [edit] }

/-- The unanswered edits, oldest first. -/
def unanswered (o : Outbox A) : List (Edit A) := o.sent ++ o.queued

/-- Puts the next batch on its way, or leaves the one that a refusal returned. -/
def next (o : Outbox A) : Outbox A :=
  match o.sent with
  | [] => ⟨o.queued, []⟩
  | _ :: _ => o

def answered (o : Outbox A) : Outbox A := { o with sent := [] }

/-- Replaces each unanswered edit with what `f` gives. -/
def move (f : A → Option A) (o : Outbox A) : Outbox A := ⟨moved o.sent, moved o.queued⟩
where
  moved (edits : List (Edit A)) : List (Edit A) :=
    edits.filterMap fun e => (f e.change).map (⟨e.id, ·⟩)

end Outbox

/-- One change for a batch, which a group holds when it has many. -/
def batchOf {A : Type} (toValue : A → Value) : List (Edit A) → Option Value
  | [] => none
  | [e] => some (toValue e.change)
  | edits => some (.object
      [("kind", .string "group"), ("changes", .array (edits.map (toValue ·.change)))])

/-! ### The client -/

/-- A frame on its way to the document, with the edits that it carries. -/
structure Sent (A : Type) where
  frame : Frame ToDocument
  edits : List (Edit A)

/-- A client and its editor. While `held`, the editor gives no batch, because changes of others wait
    behind the cell that the person types in. -/
structure Client (A : Type) where
  epoch : Nat
  rev : Nat
  lastSeq : Nat
  waitingSeq : Option Nat
  pipe : Option Nat
  outbox : Outbox A
  held : Bool

namespace Client

variable {A : Type}

/-- A client that has no link yet. -/
def start : Client A := ⟨0, 0, 0, none, none, ⟨[], []⟩, false⟩

def joinFrame (id : String) (epoch rev : Nat) : Sent A :=
  ⟨.message (.join CONTRACT id epoch rev), []⟩

/-- Takes a new pipe, at the start and after each lost link. -/
def attach (id : String) (c : Client A) (pipe : Nat) : Client A × List (Sent A) :=
  ({ c with pipe := some pipe, waitingSeq := none }, [joinFrame id c.epoch c.rev])

/-- The link is gone. Edits wait here until the next pipe. -/
def detach (c : Client A) : Client A := { c with pipe := none }

/-- The next batch of edits, or none when none waits. -/
def batch (toValue : A → Value) (c : Client A) : Option Value × Client A :=
  if c.held then (none, c)
  else (batchOf toValue c.outbox.next.sent, { c with outbox := c.outbox.next })

/-- Sends the next batch, when none waits for its answer. -/
def pull (toValue : A → Value) (c : Client A) : Client A × List (Sent A) :=
  match c.waitingSeq, c.pipe with
  | none, some _ =>
    match c.batch toValue with
    | (none, c) => (c, [])
    | (some body, c) =>
      ({ c with waitingSeq := some (c.lastSeq + 1), lastSeq := c.lastSeq + 1 },
        [⟨.message (.change (c.lastSeq + 1) c.rev body), c.outbox.sent⟩])
  | _, _ => (c, [])

/-- A change of the order. The answer to an own batch is the change itself. -/
def applied (id : String) (c : Client A) (changed : Changed) : Client A :=
  if changed.client = id then
    { c with
      rev := changed.rev
      waitingSeq := if c.waitingSeq = some changed.seq then none else c.waitingSeq
      lastSeq := max c.lastSeq changed.seq
      outbox := c.outbox.answered }
  else { c with rev := changed.rev }

/-- A batch that the document calls invalid means that this copy went wrong: load again. -/
def reload (id : String) (c : Client A) : Client A × List (Sent A) :=
  ({ c with rev := 0, epoch := 0 }, [joinFrame id 0 0])

/-- What a join gets: a new content loads, and leaves the outbox as it is. -/
def caughtUp (id : String) (c : Client A) (rev : Nat) : Catchup → Client A
  | .snapshot _ => { c with rev }
  | .missed changes => changes.foldl (applied id) c

def handle (toValue : A → Value) (id : String) (c : Client A) :
    ToClient → Client A × List (Sent A)
  | .joined _ _ _ epoch rev seq _ catchup =>
    ({ c with epoch, lastSeq := seq }.caughtUp id rev catchup).pull toValue
  | .changed changed => (c.applied id changed).pull toValue
  | .refused _ .invalid _ => { c with waitingSeq := none }.reload id
  | .refused _ .behind _ => { c with waitingSeq := none }.pull toValue
  | _ => (c, [])

def receive (toValue : A → Value) (id : String) (c : Client A) :
    Frame ToClient → Client A × List (Sent A)
  | .message m => c.handle toValue id m
  | .asset _ _ => (c, [])

end Client

/-! ### A client with its document -/

/-- A client, its document and the frames between them. `taken` says whether the answer to the join of
    this link came, `canEdit` is what the link's viewer may do, and each change of the order stands
    beside the edits that it carries. -/
structure Session (M C A : Type) where
  doc : Document M C
  client : Client A
  up : List (Sent A)
  down : List (Frame ToClient)
  taken : Bool
  canEdit : Bool
  made : Nat
  order : List (Stamp × List Nat)

inductive Occurs (A : Type) where
  /-- Anything else that happens to the document. -/
  | input (i : Input)
  | attach (pipe : Nat) (viewer : Viewer)
  | detach
  /-- The document takes the next frame of the client. -/
  | arrive (frame : Bytes)
  /-- The client takes the next frame of the document. -/
  | deliver
  | edit (change : A)
  | pull
  | hold (held : Bool)
  /-- The editor moves its unanswered edits over a change of someone else that it shows. -/
  | move (f : A → Option A)
  /-- The client says where its person is, or asks for an asset. -/
  | aside (frame : Frame ToDocument)

/-- A frame that neither joins nor changes anything. -/
def Frame.isAside : Frame ToDocument → Bool
  | .message (.join ..) => false
  | .message (.change ..) => false
  | _ => true

def Frame.isJoined : Frame ToClient → Bool
  | .message (.joined ..) => true
  | _ => false

namespace Session

variable {M C Q A : Type}

/-- A client that nobody heard of yet, and a document. -/
def start (d : Document M C) : Session M C A := ⟨d, .start, [], [], false, false, 0, []⟩

/-- The edits in the order, change by change. -/
def ids (order : List (Stamp × List Nat)) : List Nat := order.flatMap (·.2)

/-- What the client sends goes on its link. -/
def sends (s : Session M C A) (out : Client A × List (Sent A)) : Session M C A :=
  { s with client := out.1, up := s.up ++ out.2 }

/-- One input of the document, whose changes carry these edits. -/
def input (F : Format M C Q) (W : Wire) (s : Session M C A) (i : Input) (edits : List Nat) :
    Session M C A :=
  let out := s.doc.step F W i
  { s with
    doc := out.1
    down := s.down ++ (s.client.pipe.map (heard · out.2)).getD []
    order := s.order ++ (commits (s.doc.acts F W i)).map fun c => (c.entry.stamp, edits) }

/-- Nobody else has the client's random id, or speaks on its pipes, and the host gives each pipe its
    own number. -/
def Others (W : Wire) (id : String) (s : Session M C A) : Input → Prop
  | .connected pipe _ => s.client.pipe ≠ some pipe
  | .message pipe frame => s.client.pipe ≠ some pipe ∧
      (∀ seat, s.doc.seats[pipe]? = some seat → seat.client ≠ some id) ∧
      ∀ contract epoch rev, decode W frame ≠ some (.message (.join contract id epoch rev))
  | .fileChanged _ writer => s!"file:{writer}" ≠ id
  | _ => True

inductive Next (F : Format M C Q) (W : Wire) (toValue : A → Value) (id : String)
    (s : Session M C A) : Occurs A → Session M C A → Prop
  | input {i : Input} (others : s.Others W id i) :
      Next F W toValue id s (.input i) (s.input F W i [])
  | attach {pipe : Nat} {viewer : Viewer} :
      Next F W toValue id s (.attach pipe viewer)
        { s with
          doc := (s.doc.step F W (.connected pipe viewer)).1
          client := (s.client.attach id pipe).1
          up := (s.client.attach id pipe).2
          down := []
          taken := false
          canEdit := viewer.canEdit }
  /-- The link is lost, with the frames on it. -/
  | detach : Next F W toValue id s .detach
      { s with client := s.client.detach, up := [], down := [] }
  | arrive {pipe : Nat} {x : Sent A} {rest : List (Sent A)} {frame : Bytes}
      (link : s.client.pipe = some pipe) (up : s.up = x :: rest)
      (reads : decode W frame = some x.frame) :
      Next F W toValue id s (.arrive frame)
        { s.input F W (.message pipe frame) (x.edits.map (·.id)) with up := rest }
  | deliver {f : Frame ToClient} {rest : List (Frame ToClient)} (down : s.down = f :: rest) :
      Next F W toValue id s .deliver
        ({ s with down := rest, taken := s.taken || f.isJoined }.sends
          (s.client.receive toValue id f))
  | edit {change : A} :
      Next F W toValue id s (.edit change)
        ({ s with made := s.made + 1 }.sends
          ({ s.client with outbox := s.client.outbox.add ⟨s.made, change⟩ }.pull toValue))
  | pull : Next F W toValue id s .pull (s.sends (s.client.pull toValue))
  | hold {held : Bool} : Next F W toValue id s (.hold held)
      { s with client := { s.client with held } }
  | move {f : A → Option A} : Next F W toValue id s (.move f)
      { s with client := { s.client with outbox := s.client.outbox.move f } }
  | aside {pipe : Nat} {frame : Frame ToDocument} (link : s.client.pipe = some pipe)
      (isAside : frame.isAside) :
      Next F W toValue id s (.aside frame) { s with up := s.up ++ [⟨frame, []⟩] }

/-- No edit of the batch that the client calls unanswered is in the order. -/
def Unanswered (s : Session M C A) : Prop :=
  ∀ e ∈ s.client.outbox.sent, e.id ∉ ids s.order

/-- No batch that the order has goes out again: not before the answer to the join came, and not after
    an answer that brings the whole content. -/
def Clear (s : Session M C A) : Occurs A → Prop
  | .deliver => ∀ i name canEdit epoch rev seq peers snapshot rest,
      s.down = .message (.joined i name canEdit epoch rev seq peers (.snapshot snapshot)) :: rest →
      s.client.waitingSeq = none → s.Unanswered
  | .edit _ => Early s
  | .pull => Early s
  | _ => True
where
  /-- A pull before the answer to the join. -/
  Early (s : Session M C A) : Prop :=
    s.client.pipe ≠ none → s.taken = false → s.client.held = false → s.client.waitingSeq = none →
      s.Unanswered

end Session

end Kodosi.Documents
