import Kodosi.Documents.Format
import Kodosi.Xlsx.Formula

/-! The live copy of a workbook and the changes to it. `R` are the floating-point numbers; nothing here
    reckons with them. -/

namespace Kodosi.Xlsx

/-- What a cell holds. -/
inductive Value (R : Type) where
  | number (n : R)
  | bool (b : Bool)
  | text (text : String)
  | error (error : String)
  deriving BEq

/-- One cell. A cell that the file holds as a formula also holds its last value. -/
structure Cell (R : Type) where
  value : Option (Value R)
  formula : Option String
  style : Option UInt32
  deriving BEq

def Cell.blank {R : Type} : Cell R := ⟨none, none, none⟩

def Cell.isEmpty {R : Type} (c : Cell R) : Bool :=
  c.value.isNone && c.formula.isNone && c.style.isNone

inductive Link where
  | href (address : String)
  | location (place : String)

/-- A range that some element of a sheet names, which moves with the rows and columns. -/
structure Anchor where
  tag : String
  attributeName : String
  ranges : String
  link : Option Link

/-- Rows first, then columns. -/
abbrev cellOrder : UInt32 × UInt32 → UInt32 × UInt32 → Ordering :=
  compareLex (compareOn Prod.fst) (compareOn Prod.snd)

instance : Std.LawfulEqCmp cellOrder where
  eq_of_compare {a b} h := by
    obtain ⟨hfst, hsnd⟩ := compareLex_eq_eq.mp h
    exact Prod.ext (Std.LawfulEqCmp.eq_of_compare hfst) (Std.LawfulEqCmp.eq_of_compare hsnd)

instance : Std.TransCmp cellOrder := inferInstanceAs (Std.TransCmp (compareLex _ _))

abbrev Cells (R : Type) := Std.ExtTreeMap (UInt32 × UInt32) (Cell R) cellOrder

/-- What rows or columns have, by their number. -/
abbrev Lines (V : Type) := Std.ExtTreeMap UInt32 V

structure Sheet (R : Type) where
  id : String
  number : UInt32
  name : String
  part : Option String
  cells : Cells R
  merges : List Range
  widths : Lines R
  heights : Lines R
  rowLooks : Lines String
  columnLooks : Lines String
  anchors : List Anchor
  moved : Bool

/-- A sheet with nothing on it. -/
def Sheet.blank {R : Type} : Sheet R := ⟨"", 0, "", none, ∅, [], ∅, ∅, ∅, ∅, [], false⟩

/-- One look that cells can share. -/
structure Look (R : Type) where
  bold : Bool
  italic : Bool
  underline : Bool
  strike : Bool
  color : Option String
  size : Option R
  font : Option String
  fill : Option String
  numberFormat : Option String
  align : Option String
  vertical : Option String
  wrap : Bool
  deriving BEq

/-- A name of the workbook, such as a range that formulas use. -/
structure DefinedName where
  name : String
  sheet : Option Nat
  text : String

/-- The live copy of a file. -/
structure Model (R : Type) where
  sheets : List (Sheet R)
  looks : List (Look R)
  names : List DefinedName
  lastNumber : UInt32

/-- A change to one cell, by its key. What it does not name stays, and what it names as nothing goes. -/
structure CellChange (R : Type) where
  row : UInt32
  column : UInt32
  value : Option (Option (Value R))
  formula : Option (Option String)
  style : Option (Option UInt32)
  look : Option (Look R)

/-- What an agent means. -/
inductive Op (R : Type) where
  | setCell (sheet cell : String) (value : Option (Value R)) (formula : Option String)
  | setRange (sheet start : String) (rows : List (List (Option (Value R))))
  | clearRange (sheet range : String)
  | formatRange (sheet range : String) (look : Look R)
  | insertRows (sheet : String) (at' count : UInt32)
  | deleteRows (sheet : String) (at' count : UInt32)
  | insertColumns (sheet : String) (at' count : UInt32)
  | deleteColumns (sheet : String) (at' count : UInt32)
  | addSheet (name : String)
  | renameSheet (sheet name : String)
  | removeSheet (sheet : String)

/-- One change. Cells name a key, rows and columns name positions. -/
inductive Change (R : Type) where
  | cells (sheet : String) (cells : List (CellChange R))
  | rows (sheet : String) (at' : UInt32) (count : Int32)
  | columns (sheet : String) (at' : UInt32) (count : Int32)
  | addSheet (id name : String)
  | renameSheet (sheet name : String)
  | removeSheet (sheet : String)
  | size (sheet : String) (widths heights : Lines R)
  | merges (sheet : String) (add remove : List Range)
  | ops (ops : List (Op R))
  | group (changes : List (Change R))

variable {R : Type}

def Model.sheet (m : Model R) (id : String) : Option (Sheet R) := m.sheets.find? (·.id == id)

/-- Works on the first sheet of an id, if there is one. -/
def Model.updateSheet (m : Model R) (id : String) (f : Sheet R → Sheet R) : Option (Model R) :=
  (m.sheets.findIdx? (·.id == id)).map fun i => { m with sheets := m.sheets.modify i f }

end Kodosi.Xlsx
