import Kodosi.Lib.Rows
import Kodosi.Xlsx.Moves

/-! The changes of a view that the document has not answered, and how the view moves them across lines that the document
    ordered first. The numbers of a view do not wrap. -/

namespace Kodosi.Xlsx.View

variable {R : Type}

/-- What a change sets of a cell. What it does not name stays, and what it names as nothing goes. -/
structure Content (R : Type) where
  value : Option (Option (Value R))
  formula : Option (Option String)
  style : Option (Option Nat)
  look : Option (Look R)

structure CellChange (R : Type) extends Content R where
  row : Nat
  column : Nat

inductive Line where
  | rows
  | columns
  deriving DecidableEq

structure Merge where
  top : Nat
  left : Nat
  bottom : Nat
  right : Nat

inductive Change (R : Type) where
  | cells (sheet : String) (cells : List (CellChange R))
  | lines (kind : Line) (sheet : String) (at' : Nat) (count : Int)
  | addSheet (id name : String)
  | renameSheet (sheet name : String)
  | removeSheet (sheet : String)
  | size (sheet : String) (widths heights : List (Nat × R))
  | merges (sheet : String) (add remove : List Merge)
  | group (changes : List (Change R))

/-- The lines that the document ordered first: inserted, or deleted where the count is negative. -/
structure LineMove where
  sheet : String
  kind : Line
  at' : Nat
  count : Int

/-- Where a line goes when lines come in or go at `at'`, or nothing when it goes. -/
def moveLine (line at' : Nat) (count : Int) : Option Nat :=
  if line < at' then some line
  else if 0 < count then some (line + count).toNat
  else if (line : Int) < at' - count then none
  else some (line + count).toNat

def CellChange.line (c : CellChange R) : Line → Nat
  | .rows => c.row
  | .columns => c.column

def CellChange.setLine (c : CellChange R) (kind : Line) (line : Nat) : CellChange R :=
  match kind with
  | .rows => { c with row := line }
  | .columns => { c with column := line }

mutual

/-- Moves an unanswered edit across rows or columns that the document ordered first. -/
def moveChange (r : LineMove) : Change R → Option (Change R)
  | .group changes =>
    let changes := moveChanges r changes
    if 0 < changes.length then some (.group changes) else none
  | .cells sheet cells =>
    if sheet ≠ r.sheet then some (.cells sheet cells)
    else
      let cells := cells.filterMap fun c => (moveLine (c.line r.kind) r.at' r.count).map (c.setLine r.kind)
      if 0 < cells.length then some (.cells sheet cells) else none
  | .lines kind sheet at' count =>
    if sheet ≠ r.sheet then some (.lines kind sheet at' count)
    else if kind = r.kind then (moveLine at' r.at' r.count).map (.lines kind sheet · count)
    else some (.lines kind sheet at' count)
  | change => some change

/-- The changes of a group, each moved. -/
def moveChanges (r : LineMove) : List (Change R) → List (Change R)
  | [] => []
  | c :: cs => (moveChange r c).toList ++ moveChanges r cs

end

/-! ### The parts of a change -/

/-- One cell, line change, size or merge of a change. -/
inductive Part (R : Type) where
  | cell (sheet : String) (cell : CellChange R)
  | lines (kind : Line) (sheet : String) (at' : Nat) (count : Int)
  | size (kind : Line) (sheet : String) (line : Nat) (size : R)
  | merge (added : Bool) (sheet : String) (merge : Merge)
  | addSheet (id name : String)
  | renameSheet (sheet name : String)
  | removeSheet (sheet : String)

/-- The change with only this part. -/
def Part.change : Part R → Change R
  | .cell sheet c => .cells sheet [c]
  | .lines kind sheet at' count => .lines kind sheet at' count
  | .size .columns sheet line s => .size sheet [(line, s)] []
  | .size .rows sheet line s => .size sheet [] [(line, s)]
  | .merge true sheet m => .merges sheet [m] []
  | .merge false sheet m => .merges sheet [] [m]
  | .addSheet id name => .addSheet id name
  | .renameSheet sheet name => .renameSheet sheet name
  | .removeSheet sheet => .removeSheet sheet

mutual

/-- The parts in the order in which the document applies them. -/
def Change.parts : Change R → List (Part R)
  | .cells sheet cs => cs.map (.cell sheet)
  | .lines kind sheet at' count => [.lines kind sheet at' count]
  | .addSheet id name => [.addSheet id name]
  | .renameSheet sheet name => [.renameSheet sheet name]
  | .removeSheet sheet => [.removeSheet sheet]
  | .size sheet widths heights =>
    (widths.map fun width => .size .columns sheet width.1 width.2) ++
      heights.map fun height => .size .rows sheet height.1 height.2
  | .merges sheet add remove => remove.map (.merge false sheet) ++ add.map (.merge true sheet)
  | .group changes => allParts changes

def allParts : List (Change R) → List (Part R)
  | [] => []
  | c :: cs => c.parts ++ allParts cs

end

/-- What becomes of one part. -/
def movePart (r : LineMove) : Part R → Option (Part R)
  | .cell sheet cell =>
    if sheet = r.sheet then
      (moveLine (cell.line r.kind) r.at' r.count).map fun line => .cell sheet (cell.setLine r.kind line)
    else some (.cell sheet cell)
  | .lines kind sheet at' count =>
    if sheet = r.sheet ∧ kind = r.kind then (moveLine at' r.at' r.count).map (.lines kind sheet · count)
    else some (.lines kind sheet at' count)
  | part => some part

/-- The parts of what becomes of a change. -/
def movedParts (r : LineMove) (c : Change R) : List (Part R) := (moveChange r c).elim [] Change.parts

theorem filterMap_some_of {α : Type*} {f : α → Option α} {l : List α} (h : ∀ a ∈ l, f a = some a) : l.filterMap f = l := by
  rw [List.filterMap_congr h, List.filterMap_some]

mutual

/-- A moved change consists of what becomes of its parts. -/
theorem movedParts_eq (r : LineMove) : ∀ c : Change R, movedParts r c = c.parts.filterMap (movePart r)
  | .group changes => by
    have hall := movedChanges_eq r changes
    rw [movedParts, moveChange, Change.parts]
    split_ifs with h
    · exact hall
    · rw [List.length_eq_zero_iff.mp (Nat.eq_zero_of_not_pos h), allParts] at hall
      exact hall
  | .cells sheet cells => by
    have hmoved : (cells.map (Part.cell sheet)).filterMap (movePart r) =
        if sheet = r.sheet then
          (cells.filterMap fun c => (moveLine (c.line r.kind) r.at' r.count).map (c.setLine r.kind)).map (Part.cell sheet)
        else cells.map (Part.cell sheet) := by
      rw [List.filterMap_map]
      split_ifs with h
      · rw [List.map_filterMap]
        refine List.filterMap_congr fun c _ => ?_
        simp [movePart, h, Function.comp_def]
      · rw [← List.filterMap_eq_map]
        refine List.filterMap_congr fun c _ => ?_
        simp [movePart, h]
    rw [movedParts, moveChange, Change.parts, hmoved]
    by_cases h : sheet = r.sheet
    · rw [if_neg (not_not.mpr h), if_pos h]
      dsimp only
      split_ifs with hlength
      · rfl
      · rw [List.length_eq_zero_iff.mp (Nat.eq_zero_of_not_pos hlength)]
        rfl
    · rw [if_pos h, if_neg h]
      rfl
  | .lines kind sheet at' count => by
    rw [movedParts, moveChange, Change.parts]
    by_cases hsheet : sheet = r.sheet
    · by_cases hkind : kind = r.kind
      · rw [if_neg (not_not.mpr hsheet), if_pos hkind]
        cases h : moveLine at' r.at' r.count <;> simp [movePart, hsheet, hkind, h, Change.parts]
      · rw [if_neg (not_not.mpr hsheet), if_neg hkind]
        simp [movePart, hkind, Change.parts]
    · rw [if_pos hsheet]
      simp [movePart, hsheet, Change.parts]
  | .addSheet id name => rfl
  | .renameSheet sheet name => rfl
  | .removeSheet sheet => rfl
  | .size sheet widths heights => by
    have hsame : ∀ p ∈ (Change.size sheet widths heights).parts, movePart r p = some p := by
      intro p hp
      rw [Change.parts, List.mem_append, List.mem_map, List.mem_map] at hp
      rcases hp with ⟨_, -, rfl⟩ | ⟨_, -, rfl⟩ <;> rfl
    exact (filterMap_some_of hsame).symm
  | .merges sheet add remove => by
    have hsame : ∀ p ∈ (Change.merges sheet add remove : Change R).parts, movePart r p = some p := by
      intro p hp
      rw [Change.parts, List.mem_append, List.mem_map, List.mem_map] at hp
      rcases hp with ⟨_, -, rfl⟩ | ⟨_, -, rfl⟩ <;> rfl
    exact (filterMap_some_of hsame).symm

theorem movedChanges_eq (r : LineMove) : ∀ cs : List (Change R),
    allParts (moveChanges r cs) = (allParts cs).filterMap (movePart r)
  | [] => rfl
  | c :: cs => by
    have happend : ∀ (o : Option (Change R)) (rest : List (Change R)),
        allParts (o.toList ++ rest) = o.elim [] Change.parts ++ allParts rest := by
      intro o rest
      cases o <;> rfl
    rw [moveChanges, happend, allParts, List.filterMap_append, movedChanges_eq r cs, ← movedParts_eq r c, movedParts]

end

theorem parts_change (p : Part R) : p.change.parts = [p] := by
  cases p with
  | size kind => cases kind <;> rfl
  | merge added => cases added <;> rfl
  | _ => rfl

theorem movedParts_change (r : LineMove) (p : Part R) : movedParts r p.change = (movePart r p).toList := by
  rw [movedParts_eq, parts_change]
  cases h : movePart r p <;> simp [h]

end Kodosi.Xlsx.View
