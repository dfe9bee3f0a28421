import Kodosi.Xlsx.Alike
import Kodosi.Xlsx.WellFormed

/-! What the code adds up as it takes a change, takes a snapshot and writes the file: each sum with its exact value, beside
    the definitions that compute it with wrapping numbers. -/

namespace Kodosi.Xlsx
open Kodosi.Lib
open Kodosi.Documents (Ordered Refused)

/-- A sum of the code: its exact value, and the type that must hold it. -/
inductive MachineSum where
  | u32 (n : Int)
  | i32 (n : Int)

def MachineSum.Fits : MachineSum → Prop
  | .u32 n => 0 ≤ n ∧ n < 2 ^ 32
  | .i32 n => -2 ^ 31 ≤ n ∧ n < 2 ^ 31

/-- The number that a file has for a line, which counts from 0 here. -/
def oneMore (line : UInt32) : MachineSum := .u32 (line.toNat + 1)

/-! ### Lines that move -/

def Shift.lineSums (s : Shift) (line : UInt32) : List MachineSum :=
  if 0 ≤ s.count then if s.at' ≤ line then [.u32 (line.toNat + s.size)] else []
  else if line < s.at' then []
  else .u32 (s.at'.toNat + s.size) ::
    if line < s.at' + unsignedAbs s.count then [] else [.u32 (line.toNat - s.size)]

def Shift.spanSums (s : Shift) (first last : UInt32) : List MachineSum :=
  if 0 ≤ s.count then s.lineSums first ++ s.lineSums last
  else s.lineSums first ++ match s.line first with
    | some _ => s.lineSums last
    | none => .u32 (s.at'.toNat + s.size) :: if s.at' + unsignedAbs s.count ≤ last then s.lineSums last else []

def moveAxisSums (shift : Shift) (get : Reference → Option UInt32) (first : Reference) (second : Option Reference) :
    List MachineSum :=
  match get first, second with
  | none, _ => []
  | some start, some stop =>
    match get stop with
    | some last => shift.spanSums start last
    | none => []
  | some start, none => shift.lineSums start

def Reference.writeSums (r : Reference) : List MachineSum := (r.row.map oneMore).toList

/-- The sums of a reference that moves and is written again. -/
def referenceSums (own : Bool) (sheet : String) (s : Shift) (rows : Bool) (r : ReadReference) : List MachineSum :=
  (if r.1.elim own (String.ofList · == sheet) then moveAxisSums s (·.line rows) r.2.1 r.2.2 else []) ++
    match lineChange own sheet s rows r.1 r.2.1 r.2.2 with
    | some (first, some second) => first.writeSums ++ second.writeSums
    | some (first, none) => first.writeSums
    | none => []

def rangeNameSums (r : Range) : List MachineSum :=
  if r.top = r.bottom ∧ r.left = r.right then [oneMore r.top] else [oneMore r.top, oneMore r.bottom]

def shiftRangesSums (ranges : String) (s : Shift) (rows : Bool) : List MachineSum :=
  (rangeWords ranges).flatMap fun word =>
    match parseRange word with
    | none => []
    | some r => s.spanSums (r.span rows).1 (r.span rows).2 ++ match movedRange s rows r with
      | some r => rangeNameSums r
      | none => []

section

variable {R : Type}

/-- The sums of all that stands on the lines of one sheet. -/
def Sheet.moveLinesSums (sheet : Sheet R) (s : Shift) (rows : Bool) : List MachineSum :=
  (sheet.cells.keys.flatMap fun key => s.lineSums (axis key rows)) ++
    (sheet.merges.flatMap fun r => s.lineSums (r.span rows).1 ++
      if (s.line (r.span rows).1).isSome then s.lineSums (r.span rows).2 else []) ++
    (sheet.sizes rows).keys.flatMap s.lineSums ++ (sheet.lineLooks rows).keys.flatMap s.lineSums ++
    sheet.anchors.flatMap fun anchor => shiftRangesSums anchor.ranges s rows

variable (isAlphanumeric : Char → Bool)

def shiftFormulaSums (formula : String) (own : Bool) (sheet : String) (s : Shift) (rows : Bool) : List MachineSum :=
  (readsFrom isAlphanumeric formula.length formula.toList).flatMap (referenceSums own sheet s rows)

def moveLinesSums (m : Model R) (id : String) (at' : UInt32) (count : Int32) (rows : Bool) : List MachineSum :=
  .i32 count.toInt.natAbs :: match m.sheet id with
    | none => []
    | some known =>
      (m.names.flatMap fun defined => shiftFormulaSums isAlphanumeric defined.text false known.name ⟨at', count⟩ rows) ++
        (m.sheets.flatMap fun sheet => (sheet.cells.toList.filterMap (·.2.formula)).flatMap fun formula =>
          shiftFormulaSums isAlphanumeric formula (sheet.id == id) known.name ⟨at', count⟩ rows) ++
        known.moveLinesSums ⟨at', count⟩ rows

/-! ### One change -/

mutual

def applyOneSums [BEq R] (m : Model R) : Change R → List MachineSum
  | .rows sheet at' count => moveLinesSums isAlphanumeric m sheet at' count true
  | .columns sheet at' count => moveLinesSums isAlphanumeric m sheet at' count false
  | .addSheet _ _ => [.u32 (m.lastNumber.toNat + 1)]
  | .group changes => applyAllSums m changes
  | _ => []

def applyAllSums [BEq R] (m : Model R) : List (Change R) → List MachineSum
  | [] => []
  | change :: changes => applyOneSums m change ++ match applyOne isAlphanumeric m change with
    | .ok (_, m') => applyAllSums m' changes
    | .error _ => []

end

/-! ### Named ops -/

def cellsOfSums : Op R → List MachineSum
  | .setRange _ start rows =>
    match parseCell start.toList with
    | some (top, left) =>
      let width := max (((rows.map List.length).max?).getD 1) 1
      [.u32 (top.toNat + (smallNumber (max rows.length 1 - 1)).toNat), .u32 (left.toNat + (smallNumber (width - 1)).toNat)]
    | none => []
  | _ => []

/-- The numbers from one on, as an iterator counts them: it goes past the last. -/
def countSums (first : UInt32) (n : Nat) : List MachineSum := (List.range (n + 1)).map fun (i : Nat) => .u32 (first.toNat + i + 1)

/-- The highest number among the ids. -/
def Model.highest (m : Model R) : UInt32 := ((m.sheets.filterMap fun sheet => parseNumber sheet.id).max?).getD 0

def toChangeSums (m : Model R) (added : UInt32) : Op R → List MachineSum
  | .setRange _ start rows =>
    match parseCell start.toList with
    | some (top, left) => countSums top rows.length ++ rows.flatMap fun values => countSums left values.length
    | none => []
  | .deleteRows _ _ count | .deleteColumns _ _ count => if count.toNat < 2 ^ 31 then [.i32 (-count.toNat)] else []
  | .addSheet _ => [.u32 (added.toNat + 1), .u32 (m.highest.toNat + added.toNat), .u32 (m.highest.toNat + added.toNat + 1)]
  | _ => []

def toChangesSums (m : Model R) (added : UInt32) : List (Op R) → List MachineSum
  | [] => []
  | op :: ops =>
    let next := match op with
      | .addSheet _ => added + 1
      | _ => added
    toChangeSums m added op ++ toChangesSums m next ops

/-- The sums of a change that is taken. -/
def sentSums [BEq R] (m : Model R) (sent : Change R × List (Ordered (Change R))) : List MachineSum :=
  (match sent.1 with
    | .ops ops => (sent.2.flatMap fun _ => ops.flatMap cellsOfSums) ++ toChangesSums m 0 ops
    | _ => []) ++
  match meant m sent.2 sent.1 with
  | .ok change => applyOneSums isAlphanumeric m change
  | .error _ => []

/-! ### The snapshot and the file -/

/-- The last row and the last column that have a cell, counted from 1. -/
def Sheet.size (sheet : Sheet R) : UInt32 × UInt32 :=
  (((sheet.cells.keys.map (·.1 + 1)).max?).getD 0, ((sheet.cells.keys.map (·.2 + 1)).max?).getD 0)

def Sheet.sizeSums (sheet : Sheet R) : List MachineSum := sheet.cells.keys.flatMap fun key => [oneMore key.1, oneMore key.2]

def snapshotSums (m : Model R) : List MachineSum := m.sheets.flatMap Sheet.sizeSums

/-- A range that a defined name stands for. -/
def definedRange (text : String) : Option Range :=
  let letters := text.toList.dropWhile (· == '=')
  if '!' ∈ letters then parseRange ((letters.reverse.takeWhile (· ≠ '!')).reverse.filter (· ≠ '$')) else none

/-- The sums of working out the formulas, if there are any. -/
def calculatedSums (m : Model R) : List MachineSum :=
  if (m.sheets.flatMap fun sheet => sheet.cells.toList.filterMap (·.2.formula)) = [] then []
  else (m.names.flatMap fun name => match definedRange name.text with
      | some r => [oneMore r.top, oneMore r.left, oneMore r.bottom, oneMore r.right]
      | none => []) ++
    m.sheets.flatMap Sheet.sizeSums

/-- The sums of the size that a sheet states, where its part states one. -/
def dimensionSums (stated : Option (List Char)) (sheet : Sheet R) : List MachineSum :=
  match stated.bind parseRange with
  | none => []
  | some r =>
    let (rows, columns) := sheet.size
    let (bottom, right) := (max rows (r.bottom + 1), max columns (r.right + 1))
    [oneMore r.bottom, oneMore r.right] ++
      if rows ≤ r.bottom + 1 ∧ columns ≤ r.right + 1 then []
      else [oneMore r.top, .u32 (bottom.toNat - 1), .u32 (right.toNat - 1), oneMore (bottom - 1)]

/-- The sums of the rows, the cells, the columns and the merges of a sheet that is written; one that did not change in the
    file may need only some of them. -/
def Sheet.writeSums (stated : Option (List Char)) (sheet : Sheet R) : List MachineSum :=
  (sheet.cells.keys.map fun key => oneMore key.1) ++ (sheet.heights.keys ++ sheet.rowLooks.keys).map oneMore ++
    sheet.widths.keys.map oneMore ++ sheet.merges.flatMap rangeNameSums ++ sheet.sizeSums ++ dimensionSums stated sheet

/-- The sums of a file that is written; `stated` is the size that a sheet's part states. -/
def writeSums (stated : Sheet R → Option (List Char)) (m : Model R) : List MachineSum :=
  calculatedSums m ++ m.sheets.flatMap fun sheet => sheet.writeSums (stated sheet)

end

end Kodosi.Xlsx
