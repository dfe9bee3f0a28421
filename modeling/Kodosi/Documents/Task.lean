import Kodosi.Documents.Journal

/-! The task of an open document: it takes commands, times and looks at the file one after the other, and
    does the disk work that the document asks for. -/

namespace Kodosi.Documents
open Kodosi.Lib

def SAVE_AFTER_LAST : Nat := 2000
def SAVE_AFTER_FIRST : Nat := 15000
def CLOSE_AFTER : Nat := 60000
def RETRY_SAVE : Nat := 1000
def MOST_JOURNAL : Nat := 64 * 1024 * 1024
def OUTSIDE : String := "Another program"

/-- The size and the time of a file. -/
structure FileStamp where
  size : Nat
  changed : Option Nat
  deriving DecidableEq

/-- What a look at the size and the time of the file gives. -/
inductive Metadata where
  | found (stamp : FileStamp)
  | notFound
  | failed

/-- The machine under a task: what it answers when the task asks it for the `n`-th time. -/
structure Machine where
  /-- The time, in milliseconds. -/
  now : Nat → Nat
  metadata : Nat → Metadata
  read : Nat → Option Bytes
  /-- Whether the file was written whole, and its new stamp. -/
  write : Nat → Option FileStamp
  /-- Whether a record got into the journal. -/
  record : Nat → Bool
  newEpoch : Nat → Option Nat
  startJournal : Nat → Bool
  /-- The pipes that are found too far behind or closed while a frame is sent, and while the others hear
      that they left, in the order in which they leave. -/
  behind : Nat → List Nat

inductive Command where
  | connect (pipe : Nat) (viewer : Viewer)
  | message (pipe : Nat) (frame : Bytes)
  | left (pipe : Nat)
  | flush
  | close

structure Task (M C : Type) where
  document : Document M C
  journalBytes : Nat
  disk : Bytes
  stamp : FileStamp
  firstUnsaved : Option Nat
  lastUnsaved : Option Nat
  retryAt : Option Nat
  closeAt : Option Nat
  sealing : Bool
  ended : Bool
  /-- How often the task asked its machine. -/
  asked : Nat

/-- A journal as a restart finds it. -/
structure Found where
  original : Bytes
  restored : Restored
  records : List Bytes
  assets : Assets
  savedHash : Option Hash
  bytes : Nat

namespace Task

variable {M C Q : Type} (F : Format M C Q) (W : Wire) (E : Machine)

/-! ### Start -/

/-- The document of a journal that was found and is usable, and whether another program wrote the file
    since the journal last saved it. -/
def openOrRestore (found : Option Found) (disk : Bytes) (epoch : Nat) :
    Except Unreadable (Document M C × Nat × Bool) :=
  match found.bind fun f => (Document.restore F W f.original f.restored f.records f.assets).toOption.map
      fun document => (document, f) with
  | some (document, f) =>
    let known := f.savedHash.getD (F.sha256 f.original)
    .ok (document, f.bytes, decide (F.sha256 disk ≠ known))
  | none => (Document.openFile F disk epoch ⟨[]⟩).map fun document => (document, 0, false)

/-- Starts a task on the file as it is on disk, and tells whether another program wrote it. -/
def start (found : Option Found) (disk : Bytes) (stamp : FileStamp) (epoch now : Nat) :
    Except Unreadable (Task M C × Bool) := do
  let (document, journalBytes, outside) ← openOrRestore F W found disk epoch
  let unsaved := if document.rev ≠ document.savedRev then some now else none
  return ({
    document, journalBytes, disk, stamp
    firstUnsaved := unsaved
    lastUnsaved := unsaved
    retryAt := none
    closeAt := some (now + CLOSE_AFTER)
    sealing := false
    ended := false
    asked := 0 }, outside)

/-! ### Effects -/

variable (t : Task M C)

/-- The machine was asked once more. -/
def ask : Task M C := { t with asked := t.asked + 1 }

def leave (pipe : Nat) : Task M C := { t with document := (t.document.step F W (.left pipe)).1 }

/-- Sends one frame. The pipes that do not take it leave. -/
def send : Task M C := (E.behind t.asked).foldl (leave F W) t.ask

def sendAll (effects : List Effect) : Task M C :=
  effects.foldl (fun t e => match e with
    | .send _ _ _ => t.send F W E
    | _ => t) t

/-- One record more in the journal: its kind, its length and its body. -/
def keep (length : Nat) : Task M C :=
  let journalBytes := if length < 2 ^ 32 ∧ E.record t.asked then t.journalBytes + 5 + length
    else t.journalBytes
  { t.ask with journalBytes }

def write (rev : Nat) (file : Bytes) : Task M C :=
  match E.write t.asked with
  | some stamp =>
    let t := keep E { t.ask with stamp } (8 + (F.sha256 file).length)
    let (document, effects) := t.document.step F W (.saved rev)
    sendAll F W E { t with disk := file, document } effects
  | none =>
    let (document, effects) := t.document.step F W .saveWaits
    let retryAt := some (E.now t.asked + RETRY_SAVE)
    sendAll F W E { t.ask with retryAt, document } effects

def save : Task M C :=
  let (document, effects) := t.document.step F W (.save t.disk)
  effects.foldl (fun t e => match e with
    | .write rev file => t.write F W E rev file
    | .send _ _ _ => send F W E { t.ask with retryAt := some (E.now t.asked + RETRY_SAVE) }
    | _ => t) { t with document, firstUnsaved := none, lastUnsaved := none }

def startNewJournal : Task M C :=
  match E.newEpoch t.asked with
  | none => t.ask
  | some epoch =>
    if E.startJournal t.asked then
      let (document, effects) := t.document.step F W (.rebased t.disk epoch)
      sendAll F W E { t.ask with document, journalBytes := 0 } effects
    else t.ask

/-- What is done with an effect before anybody hears of it. -/
def note (t : Task M C) : Effect → Task M C
  | .append record => t.keep E record.length
  | .unsaved =>
    let now := E.now t.asked
    { t.ask with firstUnsaved := t.firstUnsaved.or (some now), lastUnsaved := some now }
  | .sealed => { t with sealing := true }
  | _ => t

/-- What is done with an effect once the journal is safe. -/
def carryOut (t : Task M C) : Effect → Task M C
  | .send _ _ _ => t.send F W E
  | .drop pipe =>
    let (document, effects) := t.document.step F W (.left pipe)
    sendAll F W E { t with document } effects
  | .write rev file => t.write F W E rev file
  | _ => t

/-- Starts the journal again where it may not grow on, if the file holds all that is in it. -/
def sealJournal : Task M C :=
  if t.sealing ∨ MOST_JOURNAL < t.journalBytes then
    let t := save F W E { t with sealing := false }
    if t.document.rev = t.document.savedRev then t.startNewJournal F W E else t
  else t

/-- Runs what a document asked for. Each change is in the journal before any view hears of it. -/
def runEffects (effects : List Effect) : Task M C :=
  sealJournal F W E (effects.foldl (carryOut F W E) (effects.foldl (note E) t))

def finish (reason : ClosedReason) : Task M C :=
  let t := t.save F W E
  let (document, effects) := t.document.step F W (.closing reason)
  { sendAll F W E { t with document } effects with ended := true }

/-! ### Between two events -/

def take : List Command → Task M C → List Effect → Task M C
  | [], t, effects =>
    let t := t.runEffects F W E effects
    if t.document.seats.isEmpty ∧ t.closeAt = none then
      { t.ask with closeAt := some (E.now t.asked + CLOSE_AFTER) }
    else t
  | .connect pipe viewer :: rest, t, effects =>
    let (document, more) := t.document.step F W (.connected pipe viewer)
    take rest { t with document, closeAt := none } (effects ++ more)
  | .message pipe frame :: rest, t, effects =>
    let (document, more) := t.document.step F W (.message pipe frame)
    take rest { t with document } (effects ++ more)
  | .left pipe :: rest, t, effects =>
    let (document, more) := t.document.step F W (.left pipe)
    take rest { t with document } (effects ++ more)
  | .flush :: rest, t, effects => take rest ((t.runEffects F W E effects).save F W E) []
  | .close :: _, t, effects => (t.runEffects F W E effects).finish F W E .failed

/-- The next time at which unsaved work is saved. -/
def saving : Option Nat :=
  match t.firstUnsaved, t.lastUnsaved with
  | some first, some last => some (min (first + SAVE_AFTER_FIRST) (last + SAVE_AFTER_LAST))
  | _, _ => none

def nextDeadline : Option Nat := ([t.saving, t.retryAt, t.closeAt].filterMap id).min?

def closes : Bool := t.closeAt.any (· ≤ E.now t.asked)

def deadlineReached : Task M C :=
  if t.closes E then t.ask.finish F W E .failed else save F W E { t.ask with retryAt := none }

/-- Takes a write of another program, when the size or the time of the file tells of one. -/
def lookAtFile : Task M C :=
  match E.metadata t.asked with
  | .notFound =>
    let (document, effects) := t.document.step F W (.closing .removed)
    { sendAll F W E { t.ask with document } effects with ended := true }
  | .failed => t.ask
  | .found stamp =>
    if stamp = t.stamp then t.ask
    else match E.read t.asked with
      | none => t.ask
      | some file =>
        if F.sha256 file = F.sha256 t.disk then { t.ask with stamp }
        else
          let (document, effects) := t.document.step F W (.fileChanged file OUTSIDE)
          let disk := if effects.any (fun e => e matches .fileTaken) then file else t.disk
          runEffects F W E { t.ask with stamp, document, disk } effects

/-- What the task does before its first event. -/
def firstLook (outside : Bool) : Task M C := if outside then t.lookAtFile F W E else t

inductive Event where
  | commands (batch : List Command)
  | deadline
  | watch
  /-- Nobody can send commands any more. -/
  | hangup

def step (t : Task M C) : Event → Task M C
  | .commands batch => take F W E batch t []
  | .deadline => t.deadlineReached F W E
  | .watch => t.lookAtFile F W E
  | .hangup => t.finish F W E .failed

/-- One event of a task that has not ended. -/
def Next (t : Task M C) (e : Event) (t' : Task M C) : Prop := t.ended = false ∧ t' = t.step F W E e

/-! ### A small machine -/

namespace Tally

/-- A machine whose clock stands still and whose disk works. -/
def machine : Machine where
  now _ := 0
  metadata _ := .failed
  read _ := none
  write _ := some ⟨1, none⟩
  record _ := true
  newEpoch _ := none
  startJournal _ := false
  behind _ := []

/-- Records without a text. -/
def wire : Wire := { Documents.Tally.wire with recordOf := fun _ => [] }

end Tally

end Task

end Kodosi.Documents
