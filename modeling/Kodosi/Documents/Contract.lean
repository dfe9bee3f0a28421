import Mathlib

/-! What a live document and its views say to each other: the messages, the frames that carry them
    and how a document reads a frame. JSON and gzip are libraries of the program, so their readers
    are the parameters of `Wire`. -/

namespace Kodosi.Documents

abbrev Bytes := List UInt8

/-- The hash that names an asset. -/
abbrev Hash := Bytes

/-- A JSON value. A number keeps its text. -/
inductive Value where
  | null
  | bool (b : Bool)
  | number (text : String)
  | string (s : String)
  | array (items : List Value)
  | object (fields : List (String × Value))

/-- Views and the CLI with another number cannot join. -/
def CONTRACT : Nat := 2

def JSON_FRAME : UInt8 := 0
def GZIP_FRAME : UInt8 := 1
def ASSET_FRAME : UInt8 := 2
def HASH_BYTES : Nat := 32
def MOST_UNPACKED : Nat := 256 * 1024 * 1024

/-- A person or an agent, as the host names them. -/
structure Viewer where
  id : String
  name : String
  canEdit : Bool

/-- What a client sends to its document. -/
inductive ToDocument where
  | join (contract : Nat) (client : String) (epoch : Nat) (rev : Nat)
  | change (seq : Nat) (base : Nat) (body : Value)
  | place (rev : Nat) (body : Value)
  | query (id : Nat) (body : Value)
  | people (id : Nat)

/-- One change in the order, as views and the journal see it. -/
structure Changed where
  rev : Nat
  author : String
  client : String
  seq : Nat
  body : Value

/-- Someone who is here, in one view. -/
structure Peer where
  id : String
  person : String
  name : String
  place : Value

/-- What a client needs after it joins. -/
inductive Catchup where
  | snapshot (snapshot : Value)
  | missed (changes : List Changed)

inductive RefusedReason where
  | behind
  | invalid
  deriving DecidableEq

inductive ClosedReason where
  | contract
  | removed
  | failed
  deriving DecidableEq

/-- What a document sends to a client. -/
inductive ToClient where
  | joined (id name : String) (canEdit : Bool) (epoch : Nat) (rev : Nat) (seq : Nat)
      (peers : List Peer) (catchup : Catchup)
  | changed (changed : Changed)
  | refused (seq : Nat) (reason : RefusedReason) (detail : Option String)
  | answer (id : Nat) (rev : Nat) (body : Value)
  | saved (rev : Nat) (waits : Bool)
  | peer (peer : Peer)
  | left (id : String)
  | closed (reason : ClosedReason)

/-- One frame of a pipe: a message, or the raw bytes of an asset. An asset frame with no bytes asks
    for that asset. -/
inductive Frame (T : Type) where
  | message (m : T)
  | asset (hash : Hash) (bytes : Bytes)

/-- What the contract takes from its JSON and gzip libraries. -/
structure Wire where
  /-- The JSON reader of a client's message. -/
  fromSlice : Bytes → Option ToDocument
  /-- At most so many bytes of what a gzip stream holds, if they read well. -/
  gunzip : Nat → Bytes → Option Bytes
  /-- The JSON writer of a journal record. -/
  recordOf : Changed → Bytes
  /-- The JSON reader of a journal record, or its error. -/
  readRecord : Bytes → Except String Changed

/-- How a document reads a frame of a client. -/
def decode (W : Wire) : Bytes → Option (Frame ToDocument)
  | [] => none
  | kind :: body =>
    if kind = JSON_FRAME then (W.fromSlice body).map .message
    else if kind = GZIP_FRAME then
      (W.gunzip MOST_UNPACKED body).bind fun json => (W.fromSlice json).map .message
    else if kind = ASSET_FRAME then
      if HASH_BYTES ≤ body.length then some (.asset (body.take HASH_BYTES) (body.drop HASH_BYTES))
      else none
    else none

end Kodosi.Documents
