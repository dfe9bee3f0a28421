import Mathlib

/-! What the computers of one account share of a conversation with Dosi: the items, the records that carry them, and the
    limits that a record is cut to. -/

namespace Kodosi.Dosi

/-! ### Items -/

inductive DosiAction where
  | look | read | type | press | start | interrupt | close | show | wait | post | run | write | edit | search | fetch
  | plan | delegate | other
  deriving DecidableEq

inductive DosiTargetKind where
  | terminal | terminals | room | rooms | agent | file | url | query | command | tool
  deriving DecidableEq

structure DosiTarget where
  kind : DosiTargetKind
  value : String
  deriving DecidableEq

inductive DosiToolStatus where
  | running | done | failed
  deriving DecidableEq

inductive DosiTone where
  | stopped | failed | signIn
  deriving DecidableEq

inductive DosiBody where
  | person (text : String)
  | text (text : String) (live : Bool)
  | reasoning (text : String) (live : Bool) (seconds : Option UInt32)
  | tool (action : DosiAction) (target : Option DosiTarget) (text : Option String) (status : DosiToolStatus)
      (output : Option String)
  | question (question : String) (options keys : List String) (multiple : Bool) (terminal : Option String)
      (answer : Option (List String))
  | note (text : String)
  | notice (tone : DosiTone) (text : Option String)
  deriving DecidableEq

structure DosiItem where
  id : String
  turn : String
  at' : Int
  body : DosiBody
  deriving DecidableEq

inductive DosiRecord where
  | begin (conversation : String)
  | turn (conversation turn : String) (isOpen : Bool) (computer : String) (at' : Int)
  | stop (turn : String)
  | item (conversation : String) (item : DosiItem)
  deriving DecidableEq

structure DosiEntry where
  sequence : Nat
  mine : Bool
  record : DosiRecord
  deriving DecidableEq

structure SharedInstructions where
  text : Option String
  deriving DecidableEq

/-- What a read of the shared log gives. -/
structure DosiLog where
  entries : List DosiEntry
  sequence : Nat
  reset : Bool
  deriving DecidableEq

/-! ### Limits -/

def MAX_PENDING : Nat := 512
def TEXT_BYTES : Nat := 24 * 1024
def REASONING_BYTES : Nat := 8 * 1024
def TOOL_BYTES : Nat := 4 * 1024

/-- The characters that fit in so many bytes. -/
def fitting : List Char → Nat → List Char
  | [], _ => []
  | c :: rest, bytes => if c.utf8Size ≤ bytes then c :: fitting rest (bytes - c.utf8Size) else []

/-- Cuts a text between two characters and says so with an ellipsis. -/
def clip (text : String) (bytes : Nat) : String :=
  if text.utf8ByteSize ≤ bytes then text else String.ofList (fitting text.toList bytes) ++ "…"

def DosiBody.fit : DosiBody → DosiBody
  | .person said => .person (clip said TEXT_BYTES)
  | .text said live => .text (clip said TEXT_BYTES) live
  | .reasoning said live seconds => .reasoning (clip said REASONING_BYTES) live seconds
  | .tool action target shown status output =>
    .tool action target (shown.map (clip · TOOL_BYTES)) status (output.map (clip · TOOL_BYTES))
  | .note said => .note (clip said TEXT_BYTES)
  | body => body

/-- A record as it is shared. -/
def fit : DosiRecord → DosiRecord
  | .item conversation item => .item conversation { item with body := item.body.fit }
  | record => record

end Kodosi.Dosi
