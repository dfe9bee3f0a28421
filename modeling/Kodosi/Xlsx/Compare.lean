import Kodosi.Xlsx.WellFormed

/-! What another program wrote, as the changes from one state of a workbook to another, and what they make of the live copy. -/

namespace Kodosi.Xlsx
open Kodosi.Lib
open Kodosi.Documents (Ordered Refused)

variable {R : Type} [BEq R]

/-! ### The changes between two states -/

def sizesChange (old new : Lines R) : Lines R := new.filter fun line size => old[line]? != some size

def layoutChanges (old new : Sheet R) : List (Change R) :=
  let widths := sizesChange old.widths new.widths
  let heights := sizesChange old.heights new.heights
  let others (from' to' : List Range) : List Range := from'.filter (· ∉ to')
  let add := others new.merges old.merges
  let remove := others old.merges new.merges
  (if !widths.isEmpty || !heights.isEmpty then [.size new.id widths heights] else []) ++
    if !add.isEmpty || !remove.isEmpty then [.merges new.id add remove] else []

/-- The keys of the cells of two sheets, in order. -/
def bothKeys (old new : Sheet R) : List (UInt32 × UInt32) :=
  (Std.ExtTreeSet.ofList (old.cells.keys ++ new.cells.keys) cellOrder).toList

/-- The change of one cell, when it is another one. -/
def cellDiff (old new : Sheet R) (key : UInt32 × UInt32) : Option (CellChange R) :=
  if old.cells[key]? == new.cells[key]? then none
  else
    let after := new.cells[key]?.getD .blank
    some ⟨key.1, key.2, some after.value, some after.formula, some after.style, none⟩

def cellsChange (old new : Sheet R) : Option (Change R) :=
  let cells := (bothKeys old new).filterMap (cellDiff old new)
  if cells.isEmpty then none else some (.cells new.id cells)

/-- What turns one state of a sheet into another; a sheet that was not there is added first. -/
def sheetChanges (from' : Model R) (sheet : Sheet R) : List (Change R) :=
  match from'.sheet sheet.id with
  | none => .addSheet sheet.id sheet.name :: ((cellsChange .blank sheet).toList ++ layoutChanges .blank sheet)
  | some old =>
    (if old.name ≠ sheet.name then [.renameSheet sheet.id sheet.name] else []) ++
      ((cellsChange old sheet).toList ++ layoutChanges old sheet)

/-- What turns one state of the workbook into another, by cell. -/
def Model.compare (from' to' : Model R) : List (Change R) :=
  to'.sheets.flatMap (sheetChanges from') ++
    (from'.sheets.filter fun sheet => (to'.sheet sheet.id).isNone).map fun sheet => .removeSheet sheet.id

/-- The live copy takes the changes one by one, but for those that are refused. -/
def takeAll (isAlphanumeric : Char → Bool) (live : Model R) (changes : List (Change R)) : Model R :=
  changes.foldl (fun m change => (apply isAlphanumeric m change []).2) live

/-! ### What a merge should do -/

/-- What a cell is on a sheet: a cell that is not there is blank. -/
def Sheet.cell (sheet : Sheet R) (key : UInt32 × UInt32) : Cell R := sheet.cells[key]?.getD .blank

/-- What a cell shows: its value, its formula and its look. -/
def Model.shown (m : Model R) (c : Cell R) : Option (Value R) × Option String × Option (Option (Look R)) :=
  (c.value, c.formula, c.style.map fun style => m.looks[style.toNat]?)

/-- What is seen at a place of a workbook. -/
def Model.seen (m : Model R) (id : String) (key : UInt32 × UInt32) : Option (Value R) × Option String × Option (Option (Look R)) :=
  m.shown (((m.sheet id).map (·.cell key)).getD .blank)

/-- The same sheets with the same cells, looks, merges and sizes. -/
structure Equals (m m' : Model R) : Prop where
  sheets : m.sheets.map (fun sheet => (sheet.id, sheet.name)) = m'.sheets.map fun sheet => (sheet.id, sheet.name)
  cells : ∀ id key, m.seen id key = m'.seen id key
  layout : ∀ id sheet sheet', m.sheet id = some sheet → m'.sheet id = some sheet' →
    (∀ r, r ∈ sheet.merges ↔ r ∈ sheet'.merges) ∧
    ∀ line : UInt32, (sheet.widths[line]? = sheet'.widths[line]? ∨ (sheet.widths[line]? == sheet'.widths[line]?) = true) ∧
      (sheet.heights[line]? = sheet'.heights[line]? ∨ (sheet.heights[line]? == sheet'.heights[line]?) = true)

/-- Each cell that differs between two states is in the merged copy what it is in the second, and each other cell what it is in
    the live copy; and a live copy that is still the first becomes the second. -/
structure MergesExactly (from' to' live merged : Model R) : Prop where
  changed : ∀ id key, from'.seen id key ≠ to'.seen id key → merged.seen id key = to'.seen id key
  kept : ∀ id key, from'.seen id key = to'.seen id key → merged.seen id key = live.seen id key
  exact : live = from' → Equals merged to'

/-! ### One change on the live copy -/

section

variable {isAlphanumeric : Char → Bool} {m : Model R}

/-- Work on the sheets of an id. -/
def Model.mapSheet (m : Model R) (id : String) (f : Sheet R → Sheet R) : Model R :=
  { m with sheets := m.sheets.map fun x => if x.id = id then f x else x }

variable {id : String} {f : Sheet R → Sheet R}

omit [BEq R] in
theorem updateSheet_mapSheet (hids : (m.sheets.map (·.id)).Nodup) : (m.updateSheet id f).getD m = m.mapSheet id f := by
  cases h : m.updateSheet id f with
  | some m' => exact Model.update_map hids h
  | none =>
    rw [Model.updateSheet, Option.map_eq_none_iff, List.findIdx?_eq_none_iff] at h
    have hnone : ∀ x ∈ m.sheets, ¬x.id = id := fun x hx => by simpa using h x hx
    show m = { m with sheets := _ }
    rw [List.map_congr_left fun x hx => if_neg (hnone x hx), List.map_id']

/-- A change that is no ops is carried out as it is. -/
theorem apply_plain {change : Change R} (hbehind : isBehind [] change = false) (hmeant : meant m [] change = .ok change) :
    (apply isAlphanumeric m change []).2 = ((applyOne isAlphanumeric m change).toOption.map Prod.snd).getD m := by
  have hreject : reject (isBehind [] change = true) behind = .ok () := reject_ok.mpr (by rw [hbehind]; decide)
  have htry : tryApply isAlphanumeric m change [] = applyOne isAlphanumeric m change := by
    rw [tryApply, ok_bind hreject, ok_bind hmeant]
  rw [apply, htry]
  cases applyOne isAlphanumeric m change <;> rfl

omit [BEq R] in
theorem require_pair {C : Type} (e : Refused) (x : Option (Model R)) (c : C) :
    (do let m' ← require e x; return (c, m')) = (require e x).map fun m' => (c, m') := by
  cases x <;> rfl

/-- A change that works on a sheet, and is refused when the sheet is not there. -/
theorem apply_work {change : Change R} (hids : (m.sheets.map (·.id)).Nodup) (hbehind : isBehind [] change = false)
    (hmeant : meant m [] change = .ok change)
    (hone : ∃ change', applyOne isAlphanumeric m change = (require (noSheet id) (m.updateSheet id f)).map fun m' => (change', m')) :
    (apply isAlphanumeric m change []).2 = m.mapSheet id f := by
  obtain ⟨change', hone⟩ := hone
  rw [apply_plain hbehind hmeant, hone, ← updateSheet_mapSheet hids]
  cases m.updateSheet id f <;> rfl

/-- Cells that name no looks keep their styles. -/
theorem styleCells_plain : ∀ {cells : List (CellChange R)}, (∀ c ∈ cells, c.look = none) → styleCells cells m = (cells, m)
  | [], _ => rfl
  | c :: cells, h => by
    obtain ⟨hc, hcells⟩ := List.forall_mem_cons.mp h
    rw [styleCells, hc]
    dsimp only
    rw [styleCells_plain hcells]

theorem apply_cells {cells : List (CellChange R)} (hids : (m.sheets.map (·.id)).Nodup) (h : ∀ c ∈ cells, c.look = none) :
    (apply isAlphanumeric m (.cells id cells) []).2 = m.mapSheet id fun x => cells.foldl setCell x := by
  refine apply_work hids rfl rfl ⟨.cells id cells, ?_⟩
  rw [applyOne, styleCells_plain h]
  exact require_pair _ _ _

theorem apply_rename {name : String} (hids : (m.sheets.map (·.id)).Nodup) :
    (apply isAlphanumeric m (.renameSheet id name) []).2 = m.mapSheet id fun x => { x with name } := by
  refine apply_work hids rfl rfl ⟨.renameSheet id name, ?_⟩
  rw [applyOne]
  exact require_pair _ _ _

/-- Sizes go over those that a sheet has. -/
def withSizes (widths heights : Lines R) (x : Sheet R) : Sheet R :=
  { x with widths := x.widths.insertMany widths.toList, heights := x.heights.insertMany heights.toList }

theorem apply_size {widths heights : Lines R} (hids : (m.sheets.map (·.id)).Nodup) :
    (apply isAlphanumeric m (.size id widths heights) []).2 = m.mapSheet id (withSizes widths heights) := by
  refine apply_work hids rfl rfl ⟨.size id widths heights, ?_⟩
  rw [applyOne]
  exact require_pair _ _ _

/-- Some merges go, and some come that are not there. -/
def withMerges (add remove : List Range) (x : Sheet R) : Sheet R :=
  { x with
    merges := add.foldl (fun merges merge => if merge ∈ merges then merges else merges ++ [merge])
      (x.merges.filter (· ∉ remove)) }

theorem apply_merges {add remove : List Range} (hids : (m.sheets.map (·.id)).Nodup) :
    (apply isAlphanumeric m (.merges id add remove) []).2 = m.mapSheet id (withMerges add remove) := by
  refine apply_work hids rfl rfl ⟨.merges id add remove, ?_⟩
  rw [applyOne]
  exact require_pair _ _ _

/-! ### The changes of one sheet -/

omit [BEq R] in
theorem mapSheet_ids {id : String} {f : Sheet R → Sheet R} (hf : ∀ x, (f x).id = x.id) :
    (m.mapSheet id f).sheets.map (·.id) = m.sheets.map (·.id) := by
  show (m.sheets.map fun x => if x.id = id then f x else x).map (·.id) = _
  rw [List.map_map]
  refine List.map_congr_left fun x _ => ?_
  show (if x.id = id then f x else x).id = x.id
  split_ifs
  · exact hf x
  · rfl

omit [BEq R] in
theorem mapSheet_mapSheet {g : Sheet R → Sheet R} (hf : ∀ x, (f x).id = x.id) :
    (m.mapSheet id f).mapSheet id g = m.mapSheet id fun x => g (f x) := by
  show { m with sheets := _ } = { m with sheets := _ }
  congr 1
  show (m.sheets.map fun x => if x.id = id then f x else x).map _ = _
  rw [List.map_map]
  refine List.map_congr_left fun x _ => ?_
  show (if (if x.id = id then f x else x).id = id then g (if x.id = id then f x else x) else if x.id = id then f x else x) = _
  by_cases hid : x.id = id
  · rw [if_pos hid, if_pos ((hf x).trans hid), if_pos hid]
  · rw [if_neg hid, if_neg hid, if_neg hid]

omit [BEq R] in
theorem mapSheet_same (hf : ∀ x, f x = x) : m.mapSheet id f = m := by
  show { m with sheets := _ } = m
  have hsheets : (m.sheets.map fun x => if x.id = id then f x else x) = m.sheets := by
    refine (List.map_congr_left fun x _ => ?_).trans (List.map_id _)
    rw [hf, ite_self]
    rfl
  rw [hsheets]

theorem takeAll_append (changes more : List (Change R)) :
    takeAll isAlphanumeric m (changes ++ more) = takeAll isAlphanumeric (takeAll isAlphanumeric m changes) more :=
  List.foldl_append

/-- The cells of a sheet go over those of another one. -/
def withCells (old new x : Sheet R) : Sheet R := ((bothKeys old new).filterMap (cellDiff old new)).foldl setCell x

/-- The sizes and merges of a sheet go over those of another one. -/
def withLayout (old new x : Sheet R) : Sheet R :=
  withMerges (new.merges.filter (· ∉ old.merges)) (old.merges.filter (· ∉ new.merges))
    (withSizes (sizesChange old.widths new.widths) (sizesChange old.heights new.heights) x)

/-- A sheet after the changes from one state of it to another. -/
def turned (old new x : Sheet R) : Sheet R :=
  withLayout old new (withCells old new (if old.name ≠ new.name then { x with name := new.name } else x))

omit [BEq R] in
theorem foldl_setCell_fields (cells : List (CellChange R)) (x : Sheet R) :
    cells.foldl setCell x = { x with cells := (cells.foldl setCell x).cells } := by
  induction cells generalizing x with
  | nil => rfl
  | cons c cells ih =>
    rw [List.foldl_cons, ih (setCell x c)]
    rfl

theorem withCells_fields (old new x : Sheet R) : withCells old new x = { x with cells := (withCells old new x).cells } :=
  foldl_setCell_fields _ x

theorem withCells_id (old new x : Sheet R) : (withCells old new x).id = x.id := by
  rw [withCells_fields]

theorem turned_id (old new x : Sheet R) : (turned old new x).id = x.id := by
  show (withCells old new _).id = _
  rw [withCells_id]
  split_ifs <;> rfl

variable {old new : Sheet R}

theorem cellDiff_look {c : CellChange R} (h : c ∈ (bothKeys old new).filterMap (cellDiff old new)) : c.look = none := by
  obtain ⟨key, -, hc⟩ := List.mem_filterMap.mp h
  rw [cellDiff] at hc
  split_ifs at hc
  rw [← Option.some.inj hc]

theorem takeAll_cells (hids : (m.sheets.map (·.id)).Nodup) :
    takeAll isAlphanumeric m (cellsChange old new).toList = m.mapSheet new.id (withCells old new) := by
  rw [cellsChange]
  split_ifs with hempty
  · rw [List.isEmpty_iff] at hempty
    exact (mapSheet_same fun x => by rw [withCells, hempty]; rfl).symm
  · exact apply_cells hids fun c hc => cellDiff_look hc

theorem takeAll_layout (hids : (m.sheets.map (·.id)).Nodup) :
    takeAll isAlphanumeric m (layoutChanges old new) = m.mapSheet new.id (withLayout old new) := by
  have hsize : ∀ (widths heights : Lines R), takeAll isAlphanumeric m
      (if !widths.isEmpty || !heights.isEmpty then [.size new.id widths heights] else []) =
        m.mapSheet new.id (withSizes widths heights) := by
    intro widths heights
    split_ifs with hsome
    · exact apply_size hids
    · refine (mapSheet_same fun x => ?_).symm
      simp only [Bool.not_eq_true, Bool.or_eq_false_iff, Bool.not_eq_false', ← Std.ExtTreeMap.isEmpty_toList,
        List.isEmpty_iff] at hsome
      simp [withSizes, hsome.1, hsome.2]
  have hmerges : ∀ {m : Model R} (add remove : List Range), (m.sheets.map (·.id)).Nodup → takeAll isAlphanumeric m
      (if !add.isEmpty || !remove.isEmpty then [.merges new.id add remove] else []) =
        m.mapSheet new.id (withMerges add remove) := by
    intro m add remove hids
    split_ifs with hsome
    · exact apply_merges hids
    · refine (mapSheet_same fun x => ?_).symm
      simp only [Bool.not_eq_true, Bool.or_eq_false_iff, Bool.not_eq_false', List.isEmpty_iff] at hsome
      simp [withMerges, hsome.1, hsome.2]
  have hid : ∀ x, (withSizes (sizesChange old.widths new.widths) (sizesChange old.heights new.heights) x).id = x.id := fun _ => rfl
  rw [layoutChanges, takeAll_append, hsize, hmerges _ _ (by rw [mapSheet_ids hid]; exact hids), mapSheet_mapSheet hid]
  rfl

/-- The changes of a sheet that was there. -/
theorem takeAll_known {from' : Model R} {sheet : Sheet R} (hids : (m.sheets.map (·.id)).Nodup)
    (hold : from'.sheet sheet.id = some old) :
    takeAll isAlphanumeric m (sheetChanges from' sheet) = m.mapSheet sheet.id (turned old sheet) := by
  have hname : takeAll isAlphanumeric m (if old.name ≠ sheet.name then [.renameSheet sheet.id sheet.name] else []) =
      m.mapSheet sheet.id fun x => if old.name ≠ sheet.name then { x with name := sheet.name } else x := by
    split_ifs with hsame
    · exact apply_rename hids
    · exact (mapSheet_same fun x => rfl).symm
  have hid : ∀ x : Sheet R, (if old.name ≠ sheet.name then { x with name := sheet.name } else x).id = x.id := by
    intro x
    split_ifs <;> rfl
  have hids' := @mapSheet_ids _ m sheet.id _ hid
  rw [sheetChanges, hold]
  dsimp only
  rw [takeAll_append, hname, takeAll_append, takeAll_cells (by rw [hids']; exact hids),
    takeAll_layout (by rw [mapSheet_ids (withCells_id old sheet), hids']; exact hids), mapSheet_mapSheet hid,
    mapSheet_mapSheet fun x => (withCells_id old sheet _).trans (hid x)]
  rfl

/-- A sheet as it is added. -/
def added (id name : String) (number : UInt32) : Sheet R := { Sheet.blank with id, number, name }

/-- The changes of a new sheet whose id and name are free. -/
theorem takeAll_new {from' : Model R} {sheet : Sheet R} (hids : (m.sheets.map (·.id)).Nodup) (hold : from'.sheet sheet.id = none)
    (hid : ∀ x ∈ m.sheets, x.id ≠ sheet.id) (hname : ∀ x ∈ m.sheets, x.name ≠ sheet.name) :
    takeAll isAlphanumeric m (sheetChanges from' sheet) =
      { m with
        lastNumber := m.lastNumber + 1
        sheets := m.sheets ++ [turned .blank sheet (added sheet.id sheet.name (m.lastNumber + 1))] } := by
  have hadd : (apply isAlphanumeric m (.addSheet sheet.id sheet.name) []).2 =
      { m with
        lastNumber := m.lastNumber + 1
        sheets := m.sheets ++ [added sheet.id sheet.name (m.lastNumber + 1)] } := by
    have hfree : ¬∃ x ∈ m.sheets, x.id = sheet.id ∨ x.name = sheet.name := by
      rintro ⟨x, hx, hsame | hsame⟩
      · exact hid x hx hsame
      · exact hname x hx hsame
    rw [apply_plain rfl rfl, applyOne, ok_bind (reject_ok.mpr hfree)]
    rfl
  set m₁ : Model R := { m with
    lastNumber := m.lastNumber + 1
    sheets := m.sheets ++ [added sheet.id sheet.name (m.lastNumber + 1)] } with hm₁
  have hids₁ : (m₁.sheets.map (·.id)).Nodup := by
    rw [hm₁, List.map_append, List.nodup_append]
    refine ⟨hids, List.nodup_singleton _, fun a ha b hb => ?_⟩
    obtain ⟨x, hx, rfl⟩ := List.mem_map.mp ha
    obtain rfl := List.mem_singleton.mp hb
    exact hid x hx
  have hwork : m₁.mapSheet sheet.id (fun x => withLayout .blank sheet (withCells .blank sheet x)) = { m with
      lastNumber := m.lastNumber + 1
      sheets := m.sheets ++ [turned .blank sheet (added sheet.id sheet.name (m.lastNumber + 1))] } := by
    rw [Model.mapSheet, hm₁]
    dsimp only
    congr 1
    rw [List.map_append]
    congr 1
    · refine (List.map_congr_left fun x hx => if_neg (hid x hx)).trans (List.map_id' _)
    · let fresh : Sheet R := added sheet.id sheet.name (m.lastNumber + 1)
      have hself : fresh.id = sheet.id := rfl
      have hsame : (if (Sheet.blank : Sheet R).name ≠ sheet.name then { fresh with name := sheet.name } else fresh) = fresh := by
        split_ifs <;> rfl
      rw [List.map_singleton, if_pos hself, turned, hsame]
  rw [sheetChanges, hold]
  show takeAll isAlphanumeric (apply isAlphanumeric m (.addSheet sheet.id sheet.name) []).2 _ = _
  rw [hadd, takeAll_append, takeAll_cells hids₁,
    takeAll_layout (by rw [mapSheet_ids (withCells_id .blank sheet)]; exact hids₁), mapSheet_mapSheet (withCells_id .blank sheet), hwork]

end

end Kodosi.Xlsx
