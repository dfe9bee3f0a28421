import Kodosi.Xlsx.Sums

/-! The lines that have a number in a file: those of a sheet that is read have one. -/

namespace Kodosi.Xlsx
open Kodosi.Lib
open Kodosi.Documents (Unreadable)

/-- A line whose number in a file, one more, is a number still. -/
def HasNumber (l : UInt32) : Prop := l.toNat + 1 < 2 ^ 32

def Range.Numbered (r : Range) : Prop := ∀ rows, HasNumber (r.span rows).1 ∧ HasNumber (r.span rows).2

/-- All lines that something stands on have numbers. -/
structure Sheet.Numbered {R : Type} (sheet : Sheet R) : Prop where
  cells : ∀ key ∈ sheet.cells, ∀ rows, HasNumber (axis key rows)
  merges : ∀ r ∈ sheet.merges, r.Numbered
  sizes : ∀ rows, ∀ l ∈ sheet.sizes rows, HasNumber l
  looks : ∀ rows, ∀ l ∈ sheet.lineLooks rows, HasNumber l

def Model.Numbered {R : Type} (m : Model R) : Prop := ∀ sheet ∈ m.sheets, sheet.Numbered

/-! ### What is read by name has a number -/

theorem hasNumber_sub {n : UInt32} (h : 1 ≤ n) : HasNumber (n - 1) := by
  have hpos : 1 ≤ n.toNat := by simpa using UInt32.le_iff_toNat_le.mp h
  have hlt := n.toNat_lt
  rw [HasNumber, UInt32.toNat_sub_of_le _ _ h]
  have hone : (1 : UInt32).toNat = 1 := rfl
  omega

theorem columnNumber_hasNumber {letters : List Char} {column : UInt32} (h : columnNumber letters = some column) :
    HasNumber column := by
  rw [columnNumber] at h
  obtain ⟨n, -, h⟩ := Option.bind_eq_some_iff.mp h
  split_ifs at h with hpos
  obtain rfl := Option.some.inj h
  exact hasNumber_sub hpos

theorem parseCell_hasNumber {name : List Char} {key : UInt32 × UInt32} (h : parseCell name = some key) (rows : Bool) :
    HasNumber (axis key rows) := by
  rw [parseCell] at h
  obtain ⟨row, -, h⟩ := Option.bind_eq_some_iff.mp h
  obtain ⟨column, hcolumn, h⟩ := Option.bind_eq_some_iff.mp h
  split_ifs at h with hpos
  obtain rfl := Option.some.inj h
  cases rows with
  | true => exact hasNumber_sub hpos
  | false => exact columnNumber_hasNumber hcolumn

theorem parseRange_numbered {name : List Char} {r : Range} (h : parseRange name = some r) : r.Numbered := by
  rw [parseRange] at h
  obtain ⟨⟨top, left⟩, hfirst, h⟩ := Option.bind_eq_some_iff.mp h
  obtain ⟨⟨bottom, right⟩, hlast, h⟩ := Option.bind_eq_some_iff.mp h
  obtain rfl := Option.some.inj h
  intro rows
  have hfirst := parseCell_hasNumber hfirst rows
  have hlast := parseCell_hasNumber hlast rows
  cases rows with
  | true => exact ⟨hfirst, hlast⟩
  | false => exact ⟨hfirst, hlast⟩

/-! ### Reading a sheet's part -/

section

variable {R : Type}

/-- A row of a sheet's part: its number, its height, the attributes that are kept, and its cells by their names. -/
structure RowElement (R : Type) where
  number : Option String
  height : Option R
  look : String
  cells : List (Option String × Cell R)

structure ColumnElement (R : Type) where
  min : Option String
  max : Option String
  width : Option R
  look : String

/-- What is read of a sheet's part. -/
structure SheetPart (R : Type) where
  rows : List (RowElement R)
  columns : List (ColumnElement R)
  merges : List (Option String)
  anchors : List Anchor

def MOST_COLUMNS_PER_ENTRY : UInt32 := 1024

/-- The line of a number in a file. -/
def lineOf (number : Option String) : Option UInt32 := do
  let n ← parseNumber (← number)
  if 1 ≤ n then some (n - 1) else none

def readCell (sheet : Sheet R) (element : Option String × Cell R) : Sheet R :=
  match element.1.bind fun name => parseCell name.toList with
  | none => sheet
  | some key => if element.2.isEmpty then sheet else { sheet with cells := sheet.cells.insert key element.2 }

def readRow (sheet : Sheet R) (row : RowElement R) : Sheet R :=
  let sheet := match lineOf row.number with
    | none => sheet
    | some line =>
      { sheet with
        heights := (row.height.map fun height => sheet.heights.insert line height).getD sheet.heights
        rowLooks := if row.look = "" then sheet.rowLooks else sheet.rowLooks.insert line row.look }
  row.cells.foldl readCell sheet

def columnEntry (column : ColumnElement R) : Option (UInt32 × UInt32 × R × String) := do
  let first ← lineOf column.min
  let last ← lineOf column.max
  let width ← column.width
  return (first, min last (first + MOST_COLUMNS_PER_ENTRY), width, column.look)

def readSheet (part : SheetPart R) : Sheet R :=
  let sheet := part.rows.foldl readRow .blank
  let entries := part.columns.filterMap columnEntry
  { sheet with
    merges := part.merges.filterMap fun merge => merge.bind fun name => parseRange name.toList
    widths := .ofList (entries.flatMap fun (first, last, width, _) => (linesTo first last).map fun line => (line, width))
    columnLooks := .ofList (entries.flatMap fun (first, last, _, look) =>
      if look = "" then [] else (linesTo first last).map fun line => (line, look))
    anchors := part.anchors }

/-! ### What is read stands on lines with numbers -/

variable {l : UInt32}

theorem lineOf_hasNumber {number : Option String} (h : lineOf number = some l) : HasNumber l := by
  rw [lineOf] at h
  obtain ⟨text, -, h⟩ := Option.bind_eq_some_iff.mp h
  obtain ⟨n, -, h⟩ := Option.bind_eq_some_iff.mp h
  split_ifs at h with hpos
  obtain rfl := Option.some.inj h
  exact hasNumber_sub hpos

theorem HasNumber.mono {l' : UInt32} (h : HasNumber l') (hle : l ≤ l') : HasNumber l := by
  have := UInt32.le_iff_toNat_le.mp hle
  rw [HasNumber] at h ⊢
  omega

theorem mem_linesTo {first last : UInt32} (h : l ∈ linesTo first last) : l ≤ last := by
  obtain ⟨n, hn, rfl⟩ := List.mem_map.mp h
  have hlast := last.toNat_lt
  rw [List.mem_range'_1] at hn
  rw [UInt32.le_iff_toNat_le, UInt32.toNat_ofNat', Nat.mod_eq_of_lt (by omega)]
  omega

theorem columnEntry_hasNumber {column : ColumnElement R} {first last : UInt32} {width : R} {look : String}
    (h : columnEntry column = some (first, last, width, look)) : HasNumber last := by
  rw [columnEntry] at h
  obtain ⟨first', -, h⟩ := Option.bind_eq_some_iff.mp h
  obtain ⟨last', hlast, h⟩ := Option.bind_eq_some_iff.mp h
  obtain ⟨width', -, h⟩ := Option.bind_eq_some_iff.mp h
  obtain ⟨-, rfl, -, -⟩ : first' = first ∧ min last' (first' + MOST_COLUMNS_PER_ENTRY) = last ∧ width' = width ∧ column.look = look := by
    simpa using h
  refine (lineOf_hasNumber hlast).mono ?_
  show (if last' ≤ first' + MOST_COLUMNS_PER_ENTRY then last' else first' + MOST_COLUMNS_PER_ENTRY) ≤ last'
  split_ifs with hle
  · exact UInt32.le_refl _
  · exact UInt32.le_of_lt (UInt32.not_le.mp hle)

theorem numbered_readCell {sheet : Sheet R} (h : sheet.Numbered) (element : Option String × Cell R) :
    (readCell sheet element).Numbered := by
  rw [readCell]
  cases hkey : element.1.bind fun name => parseCell name.toList with
  | none => exact h
  | some key =>
    dsimp only
    split_ifs
    · exact h
    · refine ⟨fun k hk => ?_, h.merges, h.sizes, h.looks⟩
      rcases Std.ExtTreeMap.mem_insert.mp hk with hsame | hk
      · obtain rfl := Std.LawfulEqCmp.eq_of_compare hsame
        obtain ⟨name, -, hname⟩ := Option.bind_eq_some_iff.mp hkey
        exact parseCell_hasNumber hname
      · exact h.cells k hk

theorem numbered_readRow {sheet : Sheet R} (h : sheet.Numbered) (row : RowElement R) : (readRow sheet row).Numbered := by
  have hrow : (match lineOf row.number with
      | none => sheet
      | some line =>
        { sheet with
          heights := (row.height.map fun height => sheet.heights.insert line height).getD sheet.heights
          rowLooks := if row.look = "" then sheet.rowLooks else sheet.rowLooks.insert line row.look } : Sheet R).Numbered := by
    cases hline : lineOf row.number with
    | none => exact h
    | some line =>
      have hnumber := lineOf_hasNumber hline
      have hinsert : ∀ {V : Type} {lines : Lines V} {v : V}, (∀ l ∈ lines, HasNumber l) → ∀ l ∈ lines.insert line v, HasNumber l := by
        intro V lines v hlines l hl
        rcases Std.ExtTreeMap.mem_insert.mp hl with hsame | hl
        · exact Std.LawfulEqCmp.eq_of_compare hsame ▸ hnumber
        · exact hlines l hl
      refine ⟨h.cells, h.merges, fun rows => ?_, fun rows => ?_⟩
      · cases rows with
        | false => exact h.sizes false
        | true =>
          cases hheight : row.height with
          | none => exact h.sizes true
          | some height => exact hinsert (h.sizes true)
      · cases rows with
        | false => exact h.looks false
        | true =>
          show ∀ l ∈ (if row.look = "" then sheet.rowLooks else sheet.rowLooks.insert line row.look), HasNumber l
          split_ifs
          · exact h.looks true
          · exact hinsert (h.looks true)
  rw [readRow]
  exact List.foldlRecOn row.cells readCell hrow fun sheet hsheet element _ => numbered_readCell hsheet element

theorem numbered_readSheet (part : SheetPart R) : (readSheet part).Numbered := by
  have hblank : (Sheet.blank : Sheet R).Numbered := by
    have hnone : ∀ {V : Type}, ∀ l ∈ (∅ : Lines V), HasNumber l := fun l hl => absurd hl Std.ExtTreeMap.not_mem_empty
    refine ⟨fun key hkey => absurd hkey Std.ExtTreeMap.not_mem_empty, fun r hr => absurd hr List.not_mem_nil, ?_, ?_⟩ <;>
      rintro (_ | _) <;> exact hnone
  have hrows : (part.rows.foldl readRow .blank).Numbered :=
    List.foldlRecOn part.rows readRow hblank fun sheet hsheet row _ => numbered_readRow hsheet row
  have hentry : ∀ {first last : UInt32} {width : R} {look : String}, (first, last, width, look) ∈ part.columns.filterMap columnEntry →
      ∀ l ∈ linesTo first last, HasNumber l := by
    intro first last width look hin l hl
    obtain ⟨column, -, hcolumn⟩ := List.mem_filterMap.mp hin
    exact (columnEntry_hasNumber hcolumn).mono (mem_linesTo hl)
  have hlist : ∀ {V : Type} {entries : List (UInt32 × V)}, (∀ e ∈ entries, HasNumber e.1) →
      ∀ l ∈ (Std.ExtTreeMap.ofList entries : Lines V), HasNumber l := by
    intro V entries hentries l hl
    rw [Std.ExtTreeMap.mem_ofList, List.contains_iff_mem] at hl
    obtain ⟨e, he, rfl⟩ := List.mem_map.mp hl
    exact hentries e he
  refine ⟨hrows.cells, fun r hr => ?_, fun rows => ?_, fun rows => ?_⟩
  · obtain ⟨merge, -, hmerge⟩ := List.mem_filterMap.mp hr
    obtain ⟨name, -, hname⟩ := Option.bind_eq_some_iff.mp hmerge
    exact parseRange_numbered hname
  · cases rows with
    | true => exact hrows.sizes true
    | false =>
      refine hlist fun e he => ?_
      obtain ⟨⟨first, last, width, look⟩, hin, he⟩ := List.mem_flatMap.mp he
      obtain ⟨l, hl, rfl⟩ := List.mem_map.mp he
      exact hentry hin l hl
  · cases rows with
    | true => exact hrows.looks true
    | false =>
      refine hlist fun e he => ?_
      obtain ⟨⟨first, last, width, look⟩, hin, he⟩ := List.mem_flatMap.mp he
      dsimp only at he
      split_ifs at he
      · exact absurd he List.not_mem_nil
      · obtain ⟨l, hl, rfl⟩ := List.mem_map.mp he
        exact hentry hin l hl

/-- The sheets of a workbook by their parts, each of which is there, is broken, or is not there. -/
def contentOf (parts : String → Option (Except Unreadable (SheetPart R))) (part : String) : Option (Except Unreadable (Sheet R)) :=
  (parts part).map fun read => read.map readSheet

variable {parts : String → Option (Except Unreadable (SheetPart R))} {entries : List Entry}

theorem numbered_readSheets {sheets : List (Sheet R)} (h : readSheets (contentOf parts) entries = .ok sheets) :
    ∀ sheet ∈ sheets, sheet.Numbered := by
  intro sheet hsheet
  induction entries generalizing sheets with
  | nil =>
    obtain rfl := Except.ok.inj h
    exact absurd hsheet List.not_mem_nil
  | cons entry entries ih =>
    rw [readSheets] at h
    cases hpart : entry.part with
    | none =>
      rw [hpart] at h
      exact ih h hsheet
    | some part =>
      rw [hpart] at h
      dsimp only at h
      cases hcontent : contentOf parts part with
      | none =>
        rw [hcontent] at h
        exact ih h hsheet
      | some content =>
        rw [hcontent] at h
        obtain ⟨first, hfirst, h⟩ := bind_ok h
        obtain ⟨rest, hrest, h⟩ := bind_ok h
        obtain rfl := Except.ok.inj h
        rcases List.mem_cons.mp hsheet with rfl | hsheet
        · obtain ⟨read, -, rfl⟩ := Option.map_eq_some_iff.mp hcontent
          cases read with
          | error e => cases hfirst
          | ok sheetPart =>
            obtain rfl := Except.ok.inj hfirst
            exact ⟨(numbered_readSheet sheetPart).cells, (numbered_readSheet sheetPart).merges, (numbered_readSheet sheetPart).sizes,
              (numbered_readSheet sheetPart).looks⟩
        · exact ih hrest hsheet

theorem numbered_read {looks : List (Look R)} {names : List DefinedName} {m : Model R}
    (h : read (contentOf parts) entries looks names = .ok m) : m.Numbered := by
  rw [read] at h
  obtain ⟨sheets, hsheets, h⟩ := bind_ok h
  obtain rfl := Except.ok.inj h
  exact numbered_readSheets hsheets

end

end Kodosi.Xlsx
