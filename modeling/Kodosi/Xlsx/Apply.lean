import Kodosi.Lib.Checks
import Kodosi.Xlsx.Model

/-! How a change goes into a workbook: whether it is behind, what named ops become, and each change as it is
    carried out on a copy. -/

namespace Kodosi.Xlsx
open Kodosi.Lib
open Kodosi.Documents (Ordered Refused)

variable {R : Type}

def MOST_LINES : Int := 1048576

def noSheet (id : String) : Refused := .invalid s!"There is no sheet {id}."

/-! ### Changes that are behind -/

mutual

def movesLines (sheet : String) : Change R → Bool
  | .rows moved _ _ | .columns moved _ _ => moved == sheet
  | .group changes => anyMovesLines sheet changes
  | _ => false

def anyMovesLines (sheet : String) : List (Change R) → Bool
  | [] => false
  | change :: changes => movesLines sheet change || anyMovesLines sheet changes

end

def movedLines (since : List (Ordered (Change R))) (sheet : String) : Bool :=
  since.any fun ordered => movesLines sheet ordered.change

mutual

def isBehind (since : List (Ordered (Change R))) : Change R → Bool
  | .cells sheet _ | .rows sheet _ _ | .columns sheet _ _ | .merges sheet _ _ | .size sheet _ _ =>
    movedLines since sheet
  | .group changes => anyIsBehind since changes
  | _ => false

def anyIsBehind (since : List (Ordered (Change R))) : List (Change R) → Bool
  | [] => false
  | change :: changes => isBehind since change || anyIsBehind since changes

end

/-! ### Named ops -/

def sheetNamed (m : Model R) (name : String) : Except Refused (Sheet R) :=
  require (.invalid s!"There is no sheet {name}.")
    (m.sheets.find? fun sheet => sheet.name == name || sheet.id == name)

def badName (name : String) : Refused := .invalid s!"{name} is not a cell or a range"

/-- The lines from one to another, both with them. -/
def linesTo (first last : UInt32) : List UInt32 :=
  (List.range' first.toNat (last.toNat + 1 - first.toNat)).map .ofNat

def rangeCells (r : Range) : List (UInt32 × UInt32) :=
  (linesTo r.top r.bottom).flatMap fun row => (linesTo r.left r.right).map fun column => (row, column)

def smallNumber (n : Nat) : UInt32 := if n < 2 ^ 32 then .ofNat n else 0

def cellsOf : Op R → List (String × UInt32 × UInt32)
  | .setCell sheet cell _ _ => (parseCell cell.toList).toList.map fun key => (sheet, key)
  | .setRange sheet start rows =>
    match parseCell start.toList with
    | some (top, left) =>
      let width := max (((rows.map List.length).max?).getD 1) 1
      let bottom := top + smallNumber (max rows.length 1 - 1)
      let right := left + smallNumber (width - 1)
      (rangeCells ⟨top, left, bottom, right⟩).map fun key => (sheet, key)
    | none => []
  | .clearRange sheet name | .formatRange sheet name _ =>
    match parseRange name.toList with
    | some bounds => (rangeCells bounds).map fun key => (sheet, key)
    | none => []
  | _ => []

mutual

def collectCells : Change R → List (String × UInt32 × UInt32)
  | .cells sheet cells => cells.map fun cell => (sheet, cell.row, cell.column)
  | .group changes => collectAllCells changes
  | _ => []

def collectAllCells : List (Change R) → List (String × UInt32 × UInt32)
  | [] => []
  | change :: changes => collectCells change ++ collectAllCells changes

end

/-- An agent is slow, so an op on a cell that someone changed since its read is refused, and the answer
    says who changed what. -/
def checkConflicts (ops : List (Op R)) (m : Model R) (since : List (Ordered (Change R))) :
    Except Refused Unit :=
  since.forM fun ordered =>
    let changed := collectCells ordered.change
    ops.forM fun op => (cellsOf op).forM fun (sheet, row, column) => do
      let known ← sheetNamed m sheet
      reject ((known.id, row, column) ∈ changed) (.behind
        s!"{ordered.author} changed {sheet}!{cellName row column} after you read it. Read again.")

def signed (count : UInt32) : Except Refused Int32 := do
  reject (2 ^ 31 ≤ count.toNat) (.invalid "There are too many rows or columns.")
  return .ofNat count.toNat

def nextSheetId (m : Model R) (taken : UInt32) : String :=
  let highest := ((m.sheets.filterMap fun sheet => parseNumber sheet.id).max?).getD 0
  (highest + taken + 1).toNat.repr

def cellChange (row column : UInt32) : CellChange R := ⟨row, column, none, none, none, none⟩

/-- The lines from one on, one for each value. -/
def numbered {α : Type} (first : UInt32) (values : List α) : List (UInt32 × α) :=
  values.zipIdx.filterMap fun (value, i) => (checked (first.toNat + i)).map fun line => (line, value)

/-- The change that an op means; `added` sheets were added before it. -/
def toChange (m : Model R) (added : UInt32) : Op R → Except Refused (Change R)
  | .setCell sheet cell value formula => do
    let (row, column) ← require (badName cell) (parseCell cell.toList)
    let formula := formula.map fun formula => String.ofList (formula.toList.dropWhile (· == '='))
    let known ← sheetNamed m sheet
    return .cells known.id [{ cellChange row column with value := some value, formula := some formula }]
  | .setRange sheet start rows => do
    let (top, left) ← require (badName start) (parseCell start.toList)
    let cells := (numbered top rows).flatMap fun (row, values) =>
      (numbered left values).map fun (column, value) =>
        { cellChange row column with value := some value, formula := some none }
    let known ← sheetNamed m sheet
    return .cells known.id cells
  | .clearRange sheet range => do
    let bounds ← require (badName range) (parseRange range.toList)
    let cells := (rangeCells bounds).map fun (row, column) =>
      { cellChange row column with value := some none, formula := some none }
    let known ← sheetNamed m sheet
    return .cells known.id cells
  | .formatRange sheet range look => do
    let bounds ← require (badName range) (parseRange range.toList)
    let cells := (rangeCells bounds).map fun (row, column) =>
      { cellChange row column with look := some look }
    let known ← sheetNamed m sheet
    return .cells known.id cells
  | .insertRows sheet at' count => do
    let known ← sheetNamed m sheet
    return .rows known.id at' (← signed count)
  | .deleteRows sheet at' count => do
    let known ← sheetNamed m sheet
    return .rows known.id at' (-(← signed count))
  | .insertColumns sheet at' count => do
    let known ← sheetNamed m sheet
    return .columns known.id at' (← signed count)
  | .deleteColumns sheet at' count => do
    let known ← sheetNamed m sheet
    return .columns known.id at' (-(← signed count))
  | .addSheet name => return .addSheet (nextSheetId m added) name
  | .renameSheet sheet name => do
    let known ← sheetNamed m sheet
    return .renameSheet known.id name
  | .removeSheet sheet => do
    let known ← sheetNamed m sheet
    return .removeSheet known.id

def toChangesFrom (m : Model R) (added : UInt32) : List (Op R) → Except Refused (List (Change R))
  | [] => return []
  | op :: ops => do
    let change ← toChange m added op
    let added := match op with
      | .addSheet _ => added + 1
      | _ => added
    return change :: (← toChangesFrom m added ops)

def toChanges (m : Model R) (ops : List (Op R)) : Except Refused (List (Change R)) :=
  toChangesFrom m 0 ops

/-! ### One change -/

/-- The index of a look, which is new when no cell has it yet. -/
def lookIndex [BEq R] (m : Model R) (look : Look R) : UInt32 × Model R :=
  match m.looks.findIdx? (· == look) with
  | some index => (smallNumber index, m)
  | none => (smallNumber m.looks.length, { m with looks := m.looks ++ [look] })

/-- Cells whose looks became styles. -/
def styleCells [BEq R] : List (CellChange R) → Model R → List (CellChange R) × Model R
  | [], m => ([], m)
  | cell :: cells, m =>
    let (cell, m) := match cell.look with
      | some look => let (index, m) := lookIndex m look; ({ cell with style := some (some index) }, m)
      | none => (cell, m)
    let (cells, m) := styleCells cells m
    (cell :: cells, m)

def setCell (sheet : Sheet R) (change : CellChange R) : Sheet R :=
  let key := (change.row, change.column)
  let old := sheet.cells[key]?.getD .blank
  let cell : Cell R := ⟨change.value.getD old.value, change.formula.getD old.formula,
    change.style.getD old.style⟩
  { sheet with cells := if cell.isEmpty then sheet.cells.erase key else sheet.cells.insert key cell }

def movedKeys {V : Type} (lines : Lines V) (shift : Shift) : Lines V :=
  .ofList (lines.toList.filterMap fun (line, value) => (shift.line line).map fun line => (line, value))

/-- Moves all that stands on the lines of one sheet. -/
def Sheet.moveLines (sheet : Sheet R) (shift : Shift) (rows : Bool) : Sheet R :=
  let move (row column : UInt32) : Option (UInt32 × UInt32) :=
    if rows then (shift.line row).map fun row => (row, column)
    else (shift.line column).map fun column => (row, column)
  let cells := .ofList (sheet.cells.toList.filterMap fun (key, cell) =>
    (move key.1 key.2).map fun key => (key, cell)) cellOrder
  let merges := sheet.merges.filterMap fun r => do
    let (top, left) ← move r.top r.left
    let (bottom, right) ← move r.bottom r.right
    return ⟨top, left, bottom, right⟩
  let anchors := sheet.anchors.map fun anchor =>
    { anchor with ranges := shiftRanges anchor.ranges shift rows }
  let sheet := { sheet with moved := true, cells, merges, anchors }
  if rows then
    { sheet with
      heights := movedKeys sheet.heights shift
      rowLooks := movedKeys sheet.rowLooks shift }
  else
    { sheet with
      widths := movedKeys sheet.widths shift
      columnLooks := movedKeys sheet.columnLooks shift }

variable (isAlphanumeric : Char → Bool)

def moveLines (m : Model R) (id : String) (at' : UInt32) (count : Int32) (rows : Bool) :
    Except Refused (Model R) := do
  reject (count = 0 ∨ MOST_LINES < (at'.toNat : Int) + count.abs.toInt)
    (.invalid "Those rows or columns are not there.")
  let shift : Shift := ⟨at', count⟩
  let known ← require (noSheet id) (m.sheet id)
  let move (formula : String) (own : Bool) : String :=
    shiftFormula isAlphanumeric formula own known.name (if rows then some shift else none)
      (if rows then none else some shift)
  let names := m.names.map fun defined => { defined with text := move defined.text false }
  let sheets := m.sheets.map fun sheet => { sheet with
    cells := sheet.cells.map fun _ cell => { cell with formula := cell.formula.map (move · (sheet.id == id)) } }
  require (noSheet id) ({ m with names, sheets }.updateSheet id (·.moveLines shift rows))

mutual

/-- Carries out one change, and gives it with the styles that its looks got. -/
def applyOne [BEq R] (m : Model R) : Change R → Except Refused (Change R × Model R)
  | .cells sheet cells => do
    let (cells, m) := styleCells cells m
    let m ← require (noSheet sheet) (m.updateSheet sheet fun target => cells.foldl setCell target)
    return (.cells sheet cells, m)
  | .rows sheet at' count => do return (.rows sheet at' count, ← moveLines isAlphanumeric m sheet at' count true)
  | .columns sheet at' count => do
    return (.columns sheet at' count, ← moveLines isAlphanumeric m sheet at' count false)
  | .addSheet id name => do
    reject (∃ sheet ∈ m.sheets, sheet.id = id ∨ sheet.name = name)
      (.invalid s!"The sheet {name} is there already.")
    let number := m.lastNumber + 1
    let sheet := { Sheet.blank with id, number, name }
    return (.addSheet id name, { m with lastNumber := number, sheets := m.sheets ++ [sheet] })
  | .renameSheet sheet name => do
    let m ← require (noSheet sheet) (m.updateSheet sheet fun target => { target with name })
    return (.renameSheet sheet name, m)
  | .removeSheet sheet => do
    reject (m.sheets.length = 1) (.invalid "A workbook keeps its last sheet.")
    return (.removeSheet sheet, { m with sheets := m.sheets.filter (·.id != sheet) })
  | .size sheet widths heights => do
    let m ← require (noSheet sheet) (m.updateSheet sheet fun target =>
      { target with
        widths := target.widths.insertMany widths.toList
        heights := target.heights.insertMany heights.toList })
    return (.size sheet widths heights, m)
  | .merges sheet add remove => do
    let m ← require (noSheet sheet) (m.updateSheet sheet fun target =>
      let kept := target.merges.filter (· ∉ remove)
      { target with
        merges := add.foldl (fun merges merge => if merge ∈ merges then merges else merges ++ [merge]) kept })
    return (.merges sheet add remove, m)
  | .group changes => do
    let (changes, m) ← applyAll m changes
    return (.group changes, m)
  | .ops _ => .error (.invalid "Ops cannot hold ops.")

def applyAll [BEq R] (m : Model R) : List (Change R) → Except Refused (List (Change R) × Model R)
  | [] => return ([], m)
  | change :: changes => do
    let (change, m) ← applyOne m change
    let (changes, m) ← applyAll m changes
    return (change :: changes, m)

end

/-- The change that is carried out for the one that was sent. -/
def meant (m : Model R) (since : List (Ordered (Change R))) : Change R → Except Refused (Change R)
  | .ops ops => do
    checkConflicts ops m since
    return .group (← toChanges m ops)
  | change => return change

def behind : Refused := .behind "Rows or columns moved. Move the change and send it again."

/-- A change as it goes in, and the workbook with it. -/
def tryApply [BEq R] (m : Model R) (change : Change R) (since : List (Ordered (Change R))) :
    Except Refused (Change R × Model R) := do
  reject (isBehind since change) behind
  let change ← meant m since change
  applyOne isAlphanumeric m change

/-- Puts a change in a workbook, or changes nothing and refuses. -/
def apply [BEq R] (m : Model R) (change : Change R) (since : List (Ordered (Change R))) :
    Except Refused (Change R) × Model R :=
  match tryApply isAlphanumeric m change since with
  | .ok (change, m') => (.ok change, m')
  | .error refused => (.error refused, m)

end Kodosi.Xlsx
