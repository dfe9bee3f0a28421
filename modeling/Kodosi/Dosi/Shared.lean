import Kodosi.Dosi.Records

/-! How one computer keeps up with the log that an account shares: one record is written at a time, one read runs at a
    time, and notices of newer records are remembered until a read covers them. -/

namespace Kodosi.Dosi

def FIRST_DELAY : Nat := 2000
def LONGEST_DELAY : Nat := 60000

inductive Reading where
  | idle | running | again | wanted
  deriving DecidableEq

/-- The side of one computer. The delay is in milliseconds. -/
structure Shared where
  synced : Option Nat
  heard : Nat
  reading : Reading
  writing : Bool
  pending : List DosiRecord
  saving : Bool
  unsaved : Option SharedInstructions
  delay : Nat

/-- What an answer to a write leads to. -/
structure Written where
  settled : Option DosiRecord
  write : Option DosiRecord
  sync : Option Nat

namespace Shared

def new (synced : Option Nat) : Shared := ⟨synced, 0, .idle, false, [], false, none, FIRST_DELAY⟩

def nextWrite (s : Shared) : Shared × Option DosiRecord :=
  if s.writing then (s, none)
  else match s.pending with
    | [] => (s, none)
    | record :: _ => ({ s with writing := true }, some record)

def push (s : Shared) (record : DosiRecord) : Shared × Option DosiRecord :=
  if MAX_PENDING ≤ s.pending.length then (s, none)
  else nextWrite { s with pending := s.pending ++ [fit record] }

def behind (s : Shared) : Bool := !s.writing && s.synced.any (· < s.heard)

def sync (s : Shared) : Shared × Option Nat :=
  match s.reading with
  | .running | .again => ({ s with reading := .again }, none)
  | .idle | .wanted => ({ s with reading := .running }, some (s.synced.getD 0))

/-- Reads when there is something newer that no write holds up. -/
def catchUp (s : Shared) : Shared × Option Nat := if s.behind then s.sync else (s, none)

def written (s : Shared) (sequence : Nat) : Shared × Written :=
  let record := s.pending.head?
  let follows := s.synced.any (· + 1 == sequence)
  let s : Shared := { s with
    writing := false
    delay := FIRST_DELAY
    pending := s.pending.tail
    synced := if follows then some sequence else s.synced
    heard := max s.heard sequence }
  let (s, write) := s.nextWrite
  let (s, sync) := s.catchUp
  (s, ⟨if follows then record else none, write, sync⟩)

def hear (s : Shared) : Option Nat → Shared × Option Nat
  | none => s.sync
  | some sequence => catchUp { s with heard := max s.heard sequence }

def writeFailed (s : Shared) (retry : Bool) : Shared × Option DosiRecord :=
  let s : Shared := { s with writing := false }
  if retry then (s, none) else nextWrite { s with pending := s.pending.tail }

def syncedTo (s : Shared) (sequence : Nat) : Shared × Bool :=
  ({ s with reading := .idle, delay := FIRST_DELAY, synced := some (max (s.synced.getD 0) sequence) },
    s.reading == .again)

def syncFailed (s : Shared) : Shared := { s with reading := .wanted }

def reset (s : Shared) : Shared := { s with synced := none, reading := .idle }

def nextSave (s : Shared) : Shared × Option SharedInstructions :=
  if s.saving then (s, none)
  else match s.unsaved with
    | none => (s, none)
    | some instructions => ({ s with saving := true, unsaved := none }, some instructions)

def save (s : Shared) (instructions : SharedInstructions) : Shared × Option SharedInstructions :=
  nextSave { s with unsaved := some instructions }

def saved (s : Shared) (failed : Option SharedInstructions) : Shared × Option SharedInstructions :=
  let s : Shared := { s with saving := false }
  match failed with
  | some instructions => ({ s with unsaved := some (s.unsaved.getD instructions) }, none)
  | none => s.nextSave

/-- A read is wanted, or it is time to read again. -/
def wantsSync (s : Shared) : Bool :=
  s.reading == .wanted || (s.reading == .idle && (s.synced.isNone || s.behind))

def retry (s : Shared) : Shared × Option DosiRecord × Option Nat × Option SharedInstructions :=
  let (s, write) := s.nextWrite
  let (s, sync) := if s.wantsSync then s.sync else (s, none)
  let (s, save) := s.nextSave
  (s, write, sync, save)

/-- How long the next retry waits, before it is spread. -/
def backoff (s : Shared) : Shared × Nat := ({ s with delay := min (s.delay * 2) LONGEST_DELAY }, s.delay)

end Shared

/-! ### The server -/

/-- What the log of the server holds under one sequence: a record, with whether this computer wrote it, or something that
    is no record of a conversation. -/
abbrev Kept := Option (Bool × DosiRecord)

/-- The records among what stands after the first `k` in a log. -/
def entriesFrom (k : Nat) : List Kept → List DosiEntry
  | [] => []
  | none :: items => entriesFrom (k + 1) items
  | some (mine, record) :: items => ⟨k + 1, mine, record⟩ :: entriesFrom (k + 1) items

/-- The records of a log up to a sequence. -/
def recordsTo (server : List Kept) (sequence : Nat) : List DosiEntry := entriesFrom 0 (server.take sequence)

/-- What the server answers to a read. -/
def readLog (server : List Kept) (after : Nat) : DosiLog :=
  ⟨entriesFrom after (server.drop after), server.length, false⟩

/-! ### A computer and the server -/

/-- A write that is under way, and the sequence that the server gave to it. -/
structure Writing where
  record : DosiRecord
  given : Option Nat

/-- A read that is under way, and what the server answered to it. -/
structure ReadUnderWay where
  after : Nat
  answer : Option DosiLog

/-- One computer with its store, what is under way, the retries that are scheduled, and the log of the server. -/
structure System where
  shared : Shared
  store : List DosiEntry
  write : Option Writing
  read : Option ReadUnderWay
  save : Option SharedInstructions
  retries : Nat
  server : List Kept

inductive Event where
  | push (record : DosiRecord)
  | save (instructions : SharedInstructions)
  /-- The server gives the write that is under way the next sequence. -/
  | give
  | written
  | writeFailed (retry : Bool)
  /-- Something else comes in the log of the server. -/
  | others (item : Kept)
  | hear (sequence : Option Nat)
  /-- The server answers the read that is under way. -/
  | serve
  | synced
  | resets
  | syncFailed
  | saved (failed : Option Bool)
  | retry

namespace System

/-- Sends what a step wants to write, to read and to save. -/
def send (s : System) (write : Option DosiRecord) (sync : Option Nat) (save : Option SharedInstructions) : System :=
  { s with
    write := (write.map (⟨·, none⟩)).or s.write
    read := (sync.map (⟨·, none⟩)).or s.read
    save := save.or s.save }

def requestSync (s : System) : System :=
  let (shared, sync) := s.shared.sync
  { s with shared }.send none sync none

def retryLater (s : System) : System := { s with shared := s.shared.backoff.1, retries := s.retries + 1 }

def push (s : System) (record : DosiRecord) : System :=
  let (shared, write) := s.shared.push record
  { s with shared }.send write none none

def saveInstructions (s : System) (instructions : SharedInstructions) : System :=
  let (shared, save) := s.shared.save instructions
  { s with shared }.send none none save

def written (s : System) (sequence : Nat) : System :=
  let (shared, written) := s.shared.written sequence
  let store := s.store ++ (written.settled.map fun record => (⟨sequence, true, record⟩ : DosiEntry)).toList
  { s with shared, store, write := none }.send written.write written.sync none

def writeFailed (s : System) (retry : Bool) : System :=
  let (shared, write) := s.shared.writeFailed retry
  let s : System := { s with shared, write := none }.send write none none
  if retry then s.retryLater else s

def nudge (s : System) (sequence : Option Nat) : System :=
  let (shared, sync) := s.shared.hear sequence
  { s with shared }.send none sync none

def synced (s : System) (log : DosiLog) : System :=
  if log.reset then { s with shared := s.shared.reset, store := [], read := none }.requestSync
  else
    let known := s.shared.synced.getD 0
    let (shared, again) := s.shared.syncedTo log.sequence
    let entries := log.entries.filter (known < ·.sequence)
    let s : System := { s with shared, store := s.store ++ entries, read := none }
    if again then s.requestSync else s

def syncFailed (s : System) : System := { s with shared := s.shared.syncFailed, read := none }.retryLater

def saved (s : System) (instructions : SharedInstructions) : Option Bool → System
  | none | some false =>
    let (shared, save) := s.shared.saved none
    { s with shared, save := none }.send none none save
  | some true =>
    let (shared, _) := s.shared.saved (some instructions)
    { s with shared, save := none }.retryLater

def retry (s : System) : System :=
  let (shared, write, sync, save) := s.shared.retry
  { s with shared, retries := s.retries - 1 }.send write sync save

/-- The next state, where the event can come: an answer needs its request, and a notice is of something in the log. -/
def next (s : System) : Event → Option System
  | .push record => some (s.push record)
  | .save instructions => some (s.saveInstructions instructions)
  | .give => match s.write with
    | some ⟨record, none⟩ => some { s with
        write := some ⟨record, some (s.server.length + 1)⟩, server := s.server ++ [some (true, record)] }
    | _ => none
  | .written => match s.write with
    | some ⟨_, some sequence⟩ => some (s.written sequence)
    | _ => none
  | .writeFailed retry => s.write.map fun _ => s.writeFailed retry
  | .others item => some { s with server := s.server ++ [item] }
  | .hear none => some (s.nudge none)
  | .hear (some sequence) => if sequence ≤ s.server.length then some (s.nudge (some sequence)) else none
  | .serve => match s.read with
    | some ⟨after, none⟩ => some { s with read := some ⟨after, some (readLog s.server after)⟩ }
    | _ => none
  | .synced => match s.read with
    | some ⟨_, some log⟩ => some (s.synced log)
    | _ => none
  | .resets => s.read.map fun _ => s.synced ⟨[], 0, true⟩
  | .syncFailed => s.read.map fun _ => s.syncFailed
  | .saved failed => s.save.map fun instructions => s.saved instructions failed
  | .retry => if 0 < s.retries then some s.retry else none

/-- A computer that opens the log: it has what its store kept, and reads on from there. -/
def opened (server : List Kept) (kept : Nat) : System :=
  let store := recordsTo server kept
  requestSync ⟨.new (store.getLast?.map (·.sequence)), store, none, none, none, 0, server⟩

end System

end Kodosi.Dosi
