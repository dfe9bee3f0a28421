import Kodosi.Documents.Format

/-! One file while someone has it open. A document takes an input and gives effects, and it holds no
    network, disk, clock or thread: `step` is a function of the document and the input. -/

namespace Kodosi.Documents

/-- New assets that one document holds in memory. -/
def MOST_ASSET_BYTES : Nat := 128 * 1024 * 1024
/-- Saved states that an outside write can start from. -/
def MOST_SAVED_STATES : Nat := 32

/-- What happens to a document. -/
inductive Input where
  | connected (pipe : Nat) (viewer : Viewer)
  | message (pipe : Nat) (frame : Bytes)
  | left (pipe : Nat)
  | fileChanged (file : Bytes) (writer : String)
  | save (file : Bytes)
  | saved (rev : Nat)
  | saveWaits
  | rebased (file : Bytes) (epoch : Nat)
  | closing (reason : ClosedReason)

/-- What a document asks its host to do, in this order. A frame to a client stays a value here: the
    contract's encoder writes it. -/
inductive Effect where
  | send (pipes : List Nat) (frame : Frame ToClient) (catchup : Bool)
  | drop (pipe : Nat)
  | append (record : Bytes)
  | keepAsset (hash : Hash)
  | unsaved
  | fileTaken
  | write (rev : Nat) (file : Bytes)
  | sealed

/-- What a journal keeps of a document, to build it again after a restart. -/
structure Restored where
  epoch : Nat
  firstRev : Nat
  seqs : Std.TreeMap String Nat
  /-- Revs that were saved. The file on disk holds the last of them. -/
  saved : List Nat

/-- The place of one pipe at the document. It has a client once the pipe joined. -/
structure Seat where
  viewer : Viewer
  client : Option String
  place : Value

structure Document (M C : Type) where
  model : M
  assets : Assets
  original : Bytes
  epoch : Nat
  firstRev : Nat
  rev : Nat
  log : List (Ordered C)
  seqs : Std.TreeMap String Nat
  seats : Std.TreeMap Nat Seat
  savedRev : Nat
  savedStates : List Nat
  waits : Bool

def sendTo (pipes : List Nat) (message : ToClient) : Effect := .send pipes (.message message) false

def refuse (pipe : Nat) (seq : Nat) (reason : RefusedReason) (detail : Option String) : Effect :=
  sendTo [pipe] (.refused seq reason detail)

namespace Document

variable {M C Q : Type}

/-- Opens a file that nobody has open. -/
def openFile (F : Format M C Q) (file : Bytes) (epoch : Nat) (assets : Assets) :
    Except Unreadable (Document M C) := do
  let (model, assets) ← F.read file assets
  return ⟨model, assets, file, epoch, 0, 0, [], ∅, ∅, 0, [0], false⟩

/-- The last seq of a client that the order holds. -/
def lastSeq (d : Document M C) (client : String) : Nat := d.seqs[client]?.getD 0

/-! ### Restore -/

def broken (reason : String) : Unreadable := ⟨s!"the journal is broken: {reason}"⟩

def replay (F : Format M C Q) (d : Document M C) (changed : Changed) :
    Except Unreadable (Document M C) :=
  match F.fromValue changed.body with
  | .error e => .error (broken e)
  | .ok change =>
    match F.apply d.model change [] d.assets with
    | (.error refused, _, _) => .error (broken refused.text)
    | (.ok change, model, assets) =>
      .ok { d with
        model, assets
        rev := changed.rev
        seqs := if 0 < changed.seq then d.seqs.insert changed.client changed.seq else d.seqs
        log := d.log ++ [⟨changed.rev, changed.author, changed.client, changed.seq, change⟩] }

/-- One record of the journal, read and replayed. -/
def replayRecord (F : Format M C Q) (W : Wire) (d : Document M C) (record : Bytes) :
    Except Unreadable (Document M C) :=
  match W.readRecord record with
  | .error e => .error (broken e)
  | .ok changed => d.replay F changed

/-- Builds a document again from its journal: the file as it was opened and each change since. -/
def restore (F : Format M C Q) (W : Wire) (original : Bytes) (restored : Restored)
    (records : List Bytes) (assets : Assets) : Except Unreadable (Document M C) := do
  let d ← openFile F original restored.epoch assets
  records.foldlM (replayRecord F W)
    { d with
      firstRev := restored.firstRev
      rev := restored.firstRev
      savedRev := restored.saved.getLast?.getD restored.firstRev
      savedStates := restored.firstRev :: restored.saved
      seqs := restored.seqs }

/-! ### Views join and leave -/

/-- The changes after a rev, if the log still holds them. -/
def logSince (d : Document M C) (rev : Nat) : Option (List (Ordered C)) :=
  if d.firstRev ≤ rev then
    if rev - d.firstRev ≤ d.log.length then some (d.log.drop (rev - d.firstRev)) else none
  else none

def catchup (F : Format M C Q) (d : Document M C) (epoch : Nat) (rev : Nat) : Catchup :=
  match (if epoch = d.epoch ∧ 0 < rev then d.logSince rev else none) with
  | some missed => .missed (missed.map (changedOf F))
  | none => .snapshot (F.snapshot d.model)

def peers (d : Document M C) : List Peer :=
  d.seats.toList.filterMap fun (_, seat) =>
    seat.client.map fun id => ⟨id, seat.viewer.id, seat.viewer.name, seat.place⟩

def joinedPipes (d : Document M C) : List Nat :=
  (d.seats.toList.filter fun (_, seat) => seat.client.isSome).map (·.1)

def others (d : Document M C) (pipe : Nat) : List Nat :=
  d.joinedPipes.filter (· ≠ pipe)

/-- The pipes that a client already has a seat with. -/
def pipesOf (d : Document M C) (client : String) : List Nat :=
  (d.seats.toList.filter fun (_, seat) => seat.client = some client).map (·.1)

def unseat (d : Document M C) (pipes : List Nat) : Document M C :=
  { d with seats := pipes.foldl (·.erase ·) d.seats }

def join (F : Format M C Q) (d : Document M C) (pipe : Nat) (contract : Nat) (client : String)
    (epoch : Nat) (rev : Nat) : Document M C × List Effect :=
  if contract ≠ CONTRACT then (d, [sendTo [pipe] (.closed .contract), .drop pipe])
  else
    let gone := d.pipesOf client
    let d := d.unseat gone
    let effects := gone.map .drop
    let catchup := d.catchup F epoch rev
    let peers := d.peers
    match d.seats[pipe]? with
    | none => (d, effects)
    | some seat =>
      let d := { d with seats := d.seats.insert pipe { seat with client := some client } }
      let joined := .joined client seat.viewer.name seat.viewer.canEdit d.epoch d.rev
        (d.lastSeq client) peers catchup
      let peer := .peer ⟨client, seat.viewer.id, seat.viewer.name, .null⟩
      (d, effects ++ [.send [pipe] (.message joined) true, sendTo (d.others pipe) peer])

def leftPipe (d : Document M C) (pipe : Nat) : Document M C × List Effect :=
  match d.seats[pipe]? with
  | none => (d, [])
  | some seat =>
    let d := d.unseat [pipe]
    match seat.client with
    | none => (d, [])
    | some id => (d, [sendTo d.joinedPipes (.left id)])

/-! ### Changes -/

def ordered (F : Format M C Q) (W : Wire) (d : Document M C) (change : C)
    (author client : String) (seq : Nat) : Document M C × List Effect :=
  let rev := d.rev + 1
  let seats := d.seats.map fun _ seat => { seat with place := F.mapPlace seat.place change }
  let entry : Ordered C := ⟨rev, author, client, seq, change⟩
  let changed := changedOf F entry
  let d := { d with rev, seats, log := d.log ++ [entry] }
  (d, [.append (W.recordOf changed), sendTo d.joinedPipes (.changed changed), .unsaved] ++
    if F.seals change then [.sealed] else [])

def change (F : Format M C Q) (W : Wire) (d : Document M C) (pipe : Nat) (seq : Nat)
    (base : Nat) (body : Value) : Document M C × List Effect :=
  match d.seats[pipe]? with
  | none => (d, [])
  | some seat =>
    match seat.client with
    | none => (d, [])
    | some client =>
      let author := seat.viewer.name
      if seat.viewer.canEdit = false then
        (d, [refuse pipe seq .invalid (some "This person can only read the file.")])
      else if seq ≤ d.lastSeq client then (d, [])
      else
        match F.fromValue body with
        | .error error =>
          (d, [refuse pipe seq .invalid (some s!"The change is not valid: {error}.")])
        | .ok change =>
          if d.rev < base then
            (d, [refuse pipe seq .invalid (some (s!"The file opened again since rev {base} and " ++
              s!"is at rev {d.rev} now. Read again."))])
          else
            match d.logSince base with
            | none =>
              (d, [refuse pipe seq .behind
                (some s!"The changes since rev {base} are gone. Read again.")])
            | some since =>
              match F.apply d.model change since d.assets with
              | (.ok change, model, assets) =>
                { d with model, assets, seqs := d.seqs.insert client seq }.ordered F W change
                  author client seq
              | (.error (.behind detail), model, assets) =>
                ({ d with model, assets }, [refuse pipe seq .behind (some detail)])
              | (.error (.invalid detail), model, assets) =>
                ({ d with model, assets }, [refuse pipe seq .invalid (some detail)])

/-- Keeps where a person is as the document is now, and tells the others, who are at this rev when the
    place reaches them. A place from before the log is dropped. -/
def place (F : Format M C Q) (d : Document M C) (pipe : Nat) (rev : Nat) (body : Value) :
    Document M C × List Effect :=
  match d.logSince rev with
  | none => (d, [])
  | some since =>
    let body := since.foldl (fun body entry => F.mapPlace body entry.change) body
    let others := d.others pipe
    match d.seats[pipe]? with
    | none => (d, [])
    | some seat =>
      let d := { d with seats := d.seats.insert pipe { seat with place := body } }
      match seat.client with
      | none => (d, [])
      | some id => (d, [sendTo others (.peer ⟨id, seat.viewer.id, seat.viewer.name, body⟩)])

def people (F : Format M C Q) (d : Document M C) (pipe : Nat) (id : Nat) : List Effect :=
  let people := (d.seats.toList.filter fun (other, seat) => other ≠ pipe ∧ seat.client.isSome).map
    fun (_, seat) => Value.object
      [("name", .string seat.viewer.name), ("place", F.describePlace d.model seat.place)]
  [sendTo [pipe] (.answer id d.rev (.array people))]

def query (F : Format M C Q) (d : Document M C) (pipe : Nat) (id : Nat) (body : Value) :
    List Effect :=
  match F.toQuery body with
  | none => [.drop pipe]
  | some query => [sendTo [pipe] (.answer id d.rev (F.query d.model query))]

def assetFrame (F : Format M C Q) (d : Document M C) (pipe : Nat) (hash : Hash)
    (bytes : Bytes) : Document M C × List Effect :=
  if bytes = [] then
    match d.assets.get hash with
    | none => (d, [])
    | some asset => (d, [.send [pipe] (.asset hash asset) true])
  else if MOST_ASSET_BYTES < d.assets.bytes + bytes.length then (d, [.drop pipe])
  else
    match d.assets.take F.sha256 hash bytes with
    | (assets, true) => ({ d with assets }, [.keepAsset hash])
    | (assets, false) => ({ d with assets }, [.drop pipe])

/-- Whether this pipe has joined. -/
def hasJoined (d : Document M C) (pipe : Nat) : Bool :=
  d.seats[pipe]?.any (·.client.isSome)

def message (F : Format M C Q) (W : Wire) (d : Document M C) (pipe : Nat) (frame : Bytes) :
    Document M C × List Effect :=
  match decode W frame with
  | none => (d, [.drop pipe])
  | some (.asset hash bytes) => d.assetFrame F pipe hash bytes
  | some (.message m) =>
    match m, d.hasJoined pipe with
    | .join contract client epoch rev, false => d.join F pipe contract client epoch rev
    | .change seq base body, true => d.change F W pipe seq base body
    | .place rev body, true => d.place F pipe rev body
    | .query id body, true => (d, d.query F pipe id body)
    | .people id, true => (d, d.people F pipe id)
    | _, _ => (d, [.drop pipe])

/-! ### Another program's writes -/

/-- Walks from the file as it was opened over the saved states, and keeps the shortest way from one of
    them to the new file. -/
def nearestFrom (F : Format M C Q) (new : M) :
    List Nat → M → Assets → Nat → List (Ordered C) → Option (List C) → Option (List C)
  | [], _, _, _, _, nearest => nearest
  | saved :: rest, state, assets, applied, log, nearest =>
    match walk saved state assets applied log with
    | none => none
    | some (state, assets, applied, log) =>
      let changes := F.compare state new
      let nearest := match nearest with
        | some best => if changes.length < best.length then some changes else some best
        | none => some changes
      nearestFrom F new rest state assets applied log nearest
where
  /-- Applies the log up to a saved rev. -/
  walk (saved : Nat) (state : M) (assets : Assets) (applied : Nat) :
      List (Ordered C) → Option (M × Assets × Nat × List (Ordered C))
    | [] => if applied < saved then none else some (state, assets, applied, [])
    | entry :: log =>
      if applied < saved then
        match F.apply state entry.change [] assets with
        | (.ok _, state, assets) => walk saved state assets entry.rev log
        | (.error _, _, _) => none
      else some (state, assets, applied, entry :: log)

def nearestChanges (F : Format M C Q) (d : Document M C) (new : M) : Option (List C) :=
  match F.read d.original d.assets with
  | .error _ => none
  | .ok (state, assets) => nearestFrom F new d.savedStates state assets d.firstRev d.log none

/-- Puts the changes of an outside write in the order, one after the other. One that the model refuses
    is passed over. -/
def orderAll (F : Format M C Q) (W : Wire) (writer : String) :
    List C → Document M C → Document M C × List Effect
  | [], d => (d, [])
  | c :: changes, d =>
    match F.apply d.model c [] d.assets with
    | (.ok c, model, assets) =>
      let (d, effects) := { d with model, assets }.ordered F W c writer s!"file:{writer}" 0
      let (d, more) := orderAll F W writer changes d
      (d, effects ++ more)
    | (.error _, model, assets) => orderAll F W writer changes { d with model, assets }

/-- Merges a write of another program, as Git merges: the write's own changes are what lies between
    the saved state that it started from and the new file. -/
def fileChanged (F : Format M C Q) (W : Wire) (d : Document M C) (file : Bytes)
    (writer : String) : Document M C × List Effect :=
  match F.read file d.assets with
  | .error _ => (d, [])
  | .ok (new, assets) =>
    let d := { d with assets }
    match d.nearestChanges F new with
    | none => (d, [])
    | some changes =>
      let (d, effects) := orderAll F W writer changes d
      (d, .fileTaken :: effects)

/-! ### Saves -/

def saveWaits (d : Document M C) : Document M C × List Effect :=
  if d.waits then (d, [])
  else ({ d with waits := true }, [sendTo d.joinedPipes (.saved d.savedRev true)])

def save (F : Format M C Q) (d : Document M C) (file : Bytes) : Document M C × List Effect :=
  if d.rev = d.savedRev then (d, [])
  else
    match F.write d.model file d.assets with
    | .ok file => (d, [.write d.rev file])
    | .error _ => d.saveWaits

def saved (d : Document M C) (rev : Nat) : Document M C × List Effect :=
  let states := if d.savedStates.getLast? = some rev then d.savedStates else d.savedStates ++ [rev]
  let states := if MOST_SAVED_STATES < states.length then states.eraseIdx 1 else states
  let d := { d with savedRev := rev, waits := false, savedStates := states }
  (d, [sendTo d.joinedPipes (.saved rev false)])

def rebased (d : Document M C) (file : Bytes) (epoch : Nat) : Document M C × List Effect :=
  ({ d with
    original := file
    firstRev := d.rev
    log := []
    savedStates := [d.rev]
    savedRev := d.rev
    epoch }, [])

/-! ### Steps -/

def step (F : Format M C Q) (W : Wire) (d : Document M C) : Input → Document M C × List Effect
  | .connected pipe viewer => ({ d with seats := d.seats.insert pipe ⟨viewer, none, .null⟩ }, [])
  | .message pipe frame => d.message F W pipe frame
  | .left pipe => d.leftPipe pipe
  | .fileChanged file writer => d.fileChanged F W file writer
  | .save file => d.save F file
  | .saved rev => d.saved rev
  | .saveWaits => d.saveWaits
  | .rebased file epoch => d.rebased file epoch
  | .closing reason => (d, [sendTo d.seats.keys (.closed reason)])

end Document

end Kodosi.Documents
