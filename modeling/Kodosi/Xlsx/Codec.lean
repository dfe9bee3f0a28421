import Kodosi.Documents.Derive
import Kodosi.Xlsx.Apply

/-! The JSON of a change, as serde's derives write it and read it back, and which changes come back as they
    were. -/

namespace Kodosi.Xlsx
open Kodosi.Lib
open Kodosi.Derive

/-- What the derives take from the JSON library. -/
structure Serde (R : Type) where
  /-- The JSON number of a floating-point number. Infinities have none, and are written as null. -/
  number : R → Option String
  toNumber : String → Option R
  /-- Whether a tagged enum reads the keys of a map, which are text in JSON, as numbers. -/
  readsKeys : Bool

variable {R : Type} (S : Serde R)

/-! ### Cells -/

abbrev writeU32 (n : UInt32) : Json := writeNat n.toNat

def writeF64 (r : R) : Json := ((S.number r).map .number).getD .null

def readF64 : Json → Option R
  | .number digits => S.toNumber digits
  | _ => none

def Value.toValue : Value R → Json
  | .number r => writeF64 S r
  | .bool b => .bool b
  | .text s => .string s
  | .error s => .object [("error", .string s)]

/-- An untagged value: the first kind that fits. -/
def Value.fromValue : Json → Option (Value R)
  | .number digits => (S.toNumber digits).map .number
  | .bool b => some (.bool b)
  | .string s => some (.text s)
  | .object fields => (required fields "error" readString).map .error
  | _ => none

def Look.toValue (l : Look R) : Json :=
  .object (skippedFalse "bold" l.bold ++ skippedFalse "italic" l.italic ++
    skippedFalse "underline" l.underline ++ skippedFalse "strike" l.strike ++
    skipped "color" .string l.color ++ skipped "size" (writeF64 S) l.size ++
    skipped "font" .string l.font ++ skipped "fill" .string l.fill ++
    skipped "numberFormat" .string l.numberFormat ++ skipped "align" .string l.align ++
    skipped "vertical" .string l.vertical ++ skippedFalse "wrap" l.wrap)

def readFlag (fields : Fields) (name : String) : Option Bool := defaulted fields name false readBool

def readText (fields : Fields) (name : String) : Option (Option String) :=
  defaulted fields name none (readOption readString)

def Look.ofFields (fields : Fields) : Option (Look R) := do
  return ⟨← readFlag fields "bold", ← readFlag fields "italic", ← readFlag fields "underline",
    ← readFlag fields "strike", ← readText fields "color",
    ← defaulted fields "size" none (readOption (readF64 S)), ← readText fields "font",
    ← readText fields "fill", ← readText fields "numberFormat", ← readText fields "align",
    ← readText fields "vertical", ← readFlag fields "wrap"⟩

def Look.fromValue (json : Json) : Option (Look R) := (fieldsOf json).bind (Look.ofFields S)

def CellChange.toValue (c : CellChange R) : Json :=
  .object ([("row", writeU32 c.row), ("column", writeU32 c.column)] ++
    skipped "value" (writeOption (Value.toValue S)) c.value ++
    skipped "formula" (writeOption .string) c.formula ++
    skipped "style" (writeOption writeU32) c.style ++ skipped "look" (Look.toValue S) c.look)

def CellChange.ofFields (fields : Fields) : Option (CellChange R) := do
  return ⟨← required fields "row" readU32, ← required fields "column" readU32,
    ← defaulted fields "value" none (readOption (readOption (Value.fromValue S))),
    ← defaulted fields "formula" none (readOption (readOption readString)),
    ← defaulted fields "style" none (readOption (readOption readU32)),
    ← defaulted fields "look" none (readOption (Look.fromValue S))⟩

def CellChange.fromValue (json : Json) : Option (CellChange R) :=
  (fieldsOf json).bind (CellChange.ofFields S)

/-! ### Ops -/

def writeLines (sheet : String) (at' count : UInt32) : Fields :=
  [("sheet", .string sheet), ("at", writeU32 at'), ("count", writeU32 count)]

def Op.toValue : Op R → Json
  | .setCell sheet cell value formula => tagged "op" "setCell"
    [("sheet", .string sheet), ("cell", .string cell),
      ("value", writeOption (Value.toValue S) value), ("formula", writeOption .string formula)]
  | .setRange sheet start rows => tagged "op" "setRange"
    [("sheet", .string sheet), ("start", .string start),
      ("rows", writeArray (writeArray (writeOption (Value.toValue S))) rows)]
  | .clearRange sheet range => tagged "op" "clearRange"
    [("sheet", .string sheet), ("range", .string range)]
  | .formatRange sheet range look => tagged "op" "formatRange"
    [("sheet", .string sheet), ("range", .string range), ("look", look.toValue S)]
  | .insertRows sheet at' count => tagged "op" "insertRows" (writeLines sheet at' count)
  | .deleteRows sheet at' count => tagged "op" "deleteRows" (writeLines sheet at' count)
  | .insertColumns sheet at' count => tagged "op" "insertColumns" (writeLines sheet at' count)
  | .deleteColumns sheet at' count => tagged "op" "deleteColumns" (writeLines sheet at' count)
  | .addSheet name => tagged "op" "addSheet" [("name", .string name)]
  | .renameSheet sheet name => tagged "op" "renameSheet"
    [("sheet", .string sheet), ("name", .string name)]
  | .removeSheet sheet => tagged "op" "removeSheet" [("sheet", .string sheet)]

def numberOf (fields : Fields) (name : String) : Option UInt32 := required fields name readU32

def linesOf (fields : Fields) (op : String → UInt32 → UInt32 → Op R) : Option (Op R) := do
  return op (← textOf fields "sheet") (← numberOf fields "at") (← numberOf fields "count")

/-- An op by its tag. -/
def Op.ofFields (fields : Fields) (kind : String) : Option (Op R) :=
  match kind with
  | "setCell" => do
    return .setCell (← textOf fields "sheet") (← textOf fields "cell")
      (← defaulted fields "value" none (readOption (Value.fromValue S)))
      (← defaulted fields "formula" none (readOption readString))
  | "setRange" => do
    return .setRange (← textOf fields "sheet") (← textOf fields "start")
      (← required fields "rows" (readArray (readArray (readOption (Value.fromValue S)))))
  | "clearRange" => return .clearRange (← textOf fields "sheet") (← textOf fields "range")
  | "formatRange" => do
    return .formatRange (← textOf fields "sheet") (← textOf fields "range")
      (← required fields "look" (Look.fromValue S))
  | "insertRows" => linesOf fields .insertRows
  | "deleteRows" => linesOf fields .deleteRows
  | "insertColumns" => linesOf fields .insertColumns
  | "deleteColumns" => linesOf fields .deleteColumns
  | "addSheet" => return .addSheet (← textOf fields "name")
  | "renameSheet" => return .renameSheet (← textOf fields "sheet") (← textOf fields "name")
  | "removeSheet" => return .removeSheet (← textOf fields "sheet")
  | _ => none

def Op.fromValue (json : Json) : Option (Op R) :=
  (fieldsOf json).bind fun fields => (textOf fields "op").bind (Op.ofFields S fields)

/-! ### Changes -/

def writeSizes (sizes : Lines R) : Json :=
  .object (sizes.toList.map fun (line, size) => (line.toNat.repr, writeF64 S size))

def readKey (key : String) : Option UInt32 :=
  if S.readsKeys then key.toNat?.bind checked else none

def readSize (entry : String × Json) : Option (UInt32 × R) := do
  return (← readKey S entry.1, ← readF64 S entry.2)

def readSizes (json : Json) : Option (Lines R) := do
  let fields ← fieldsOf json
  let sizes ← fields.mapM (readSize S)
  return .ofList sizes

def writeRange (r : Range) : Json :=
  .array [writeU32 r.top, writeU32 r.left, writeU32 r.bottom, writeU32 r.right]

def readRange : Json → Option Range
  | .array [top, left, bottom, right] => do
    return ⟨← readU32 top, ← readU32 left, ← readU32 bottom, ← readU32 right⟩
  | _ => none

mutual

def Change.toValue : Change R → Json
  | .cells sheet cells => tagged "kind" "cells"
    [("sheet", .string sheet), ("cells", writeArray (CellChange.toValue S) cells)]
  | .rows sheet at' count => tagged "kind" "rows"
    [("sheet", .string sheet), ("at", writeU32 at'), ("count", writeI32 count)]
  | .columns sheet at' count => tagged "kind" "columns"
    [("sheet", .string sheet), ("at", writeU32 at'), ("count", writeI32 count)]
  | .addSheet id name => tagged "kind" "addSheet" [("id", .string id), ("name", .string name)]
  | .renameSheet sheet name => tagged "kind" "renameSheet"
    [("sheet", .string sheet), ("name", .string name)]
  | .removeSheet sheet => tagged "kind" "removeSheet" [("sheet", .string sheet)]
  | .size sheet widths heights => tagged "kind" "size"
    [("sheet", .string sheet), ("widths", writeSizes S widths), ("heights", writeSizes S heights)]
  | .merges sheet add remove => tagged "kind" "merges"
    [("sheet", .string sheet), ("add", writeArray writeRange add),
      ("remove", writeArray writeRange remove)]
  | .ops ops => tagged "kind" "ops" [("ops", writeArray (Op.toValue S) ops)]
  | .group changes => tagged "kind" "group" [("changes", .array (toValues changes))]

def toValues : List (Change R) → List Json
  | [] => []
  | change :: changes => change.toValue :: toValues changes

end

/-- A change that holds no others, by its tag. -/
def readPlain (fields : Fields) (kind : String) : Option (Change R) :=
  match kind with
  | "cells" => do
    return .cells (← textOf fields "sheet")
      (← required fields "cells" (readArray (CellChange.fromValue S)))
  | "rows" => do
    return .rows (← textOf fields "sheet") (← numberOf fields "at") (← required fields "count" readI32)
  | "columns" => do
    return .columns (← textOf fields "sheet") (← numberOf fields "at") (← required fields "count" readI32)
  | "addSheet" => return .addSheet (← textOf fields "id") (← textOf fields "name")
  | "renameSheet" => return .renameSheet (← textOf fields "sheet") (← textOf fields "name")
  | "removeSheet" => return .removeSheet (← textOf fields "sheet")
  | "size" => do
    return .size (← textOf fields "sheet") (← defaulted fields "widths" ∅ (readSizes S))
      (← defaulted fields "heights" ∅ (readSizes S))
  | "merges" => do
    return .merges (← textOf fields "sheet") (← defaulted fields "add" [] (readArray readRange))
      (← defaulted fields "remove" [] (readArray readRange))
  | "ops" => return .ops (← required fields "ops" (readArray (Op.fromValue S)))
  | _ => none

mutual

def Change.fromValue : Json → Option (Change R)
  | .object fields => (textOf fields "kind").bind fun kind =>
    if kind = "group" then (changesIn fields).map .group else readPlain S fields kind
  | _ => none

/-- The changes of a group, under their field. -/
def changesIn : Fields → Option (List (Change R))
  | [] => none
  | (name, json) :: fields => if name = "changes" then changesOf json else changesIn fields

def changesOf : Json → Option (List (Change R))
  | .array items => readAll items
  | _ => none

def readAll : List Json → Option (List (Change R))
  | [] => some []
  | json :: items => (Change.fromValue json).bind fun change => (readAll items).map (change :: ·)

end

end Kodosi.Xlsx
