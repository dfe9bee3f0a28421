import Kodosi.Lib.Keyed
import Kodosi.Xlsx.Following
import Kodosi.Xlsx.Ranges

/-! All that stands on a sheet moves alike when lines are inserted or deleted. -/

namespace Kodosi.Xlsx
open Kodosi.Lib

/-! ### Areas -/

/-- Some rows and some columns of a sheet, or all of them. -/
structure Area where
  rows : Option (Set UInt32)
  columns : Option (Set UInt32)

namespace Area

/-- What an area becomes: the cells of it that are left and those that were inserted between them. -/
def after (s : Shift) (a : Area) : Bool → Area
  | true => { a with rows := a.rows.map s.after }
  | false => { a with columns := a.columns.map s.after }

/-- Nothing of it is left. -/
def Gone (a : Area) : Prop := a.rows = some ∅ ∨ a.columns = some ∅

/-- What covered an area covers what that becomes, and goes only when nothing is left of it. -/
def Moves (s : Shift) (rows : Bool) (a : Area) : Option Area → Prop
  | some a' => a' = a.after s rows
  | none => (a.after s rows).Gone

end Area

def Range.area (r : Range) : Area := ⟨some (between r.top r.bottom), some (between r.left r.right)⟩

def Ends.area (ends : Ends) : Area := ⟨ends.lines true, ends.lines false⟩

/-- The line of a cell along one axis. -/
def axis (key : UInt32 × UInt32) : Bool → UInt32
  | true => key.1
  | false => key.2

/-- The first and the last line of a range along one axis. -/
def Range.span (r : Range) : Bool → UInt32 × UInt32
  | true => (r.top, r.bottom)
  | false => (r.left, r.right)

def Range.cells (r : Range) : Set (UInt32 × UInt32) := {key | key.1 ∈ between r.top r.bottom ∧ key.2 ∈ between r.left r.right}

/-- A line that is deleted. -/
def Shift.Deletes (s : Shift) (l : UInt32) : Prop :=
  s.count < 0 ∧ s.at'.toNat ≤ l.toNat ∧ l.toNat < s.at'.toNat + s.size

/-! ### What moving alike means -/

/-- Each thing that stays is found where it goes, nothing else is there, and no two meet. -/
structure Relocates {K V W : Type} (stays : K → Prop) (goes : K → K → Prop) (alike : V → W → Prop) (old : K → Option V)
    (new : K → Option W) : Prop where
  kept : ∀ {k v}, old k = some v → stays k → ∃ k' w, goes k k' ∧ new k' = some w ∧ alike v w
  only : ∀ {k' w}, new k' = some w → ∃ k v, old k = some v ∧ goes k k' ∧ alike v w
  apart : ∀ {k₁ k₂ k'}, (old k₁).isSome = true → (old k₂).isSome = true → goes k₁ k' → goes k₂ k' → k₁ = k₂

/-- Each of a list has its fate, and those that are left are the new list. -/
def Fates {α β : Type} (fate : α → Option β → Prop) (olds : List α) (news : List β) : Prop :=
  ∃ fates, List.Forall₂ fate olds fates ∧ news = fates.reduceOption

section

variable {R : Type} (isAlphanumeric : Char → Bool) (own : Bool) (name : String) (s : Shift) (rows : Bool)

/-- A formula goes piece by piece. -/
def FormulaMoves (old new : String) : Prop :=
  ∀ pieces, FormedAll isAlphanumeric pieces → old = .ofList (formulaText pieces) →
    ∃ outs, List.Forall₂ (Becomes own name s rows) pieces outs ∧ new = .ofList outs.flatten

/-- A cell keeps its value and its look. -/
structure CellMoves (c c' : Cell R) : Prop where
  value : c'.value = c.value
  style : c'.style = c.style
  formula : Option.Rel (FormulaMoves isAlphanumeric own name s rows) c.formula c'.formula

/-- A sheet whose lines stay. -/
structure OtherMoves (sheet sheet' : Sheet R) : Prop where
  same : sheet' = { sheet with cells := sheet'.cells }
  cells : ∀ key : UInt32 × UInt32, Option.Rel (CellMoves isAlphanumeric own name s rows) sheet.cells[key]? sheet'.cells[key]?

end

def LineGoes (s : Shift) (l l' : UInt32) : Prop := s.goes l.toNat = some l'.toNat

def KeyGoes (s : Shift) (rows : Bool) (key key' : UInt32 × UInt32) : Prop :=
  LineGoes s (axis key rows) (axis key' rows) ∧ axis key' (!rows) = axis key (!rows)

/-- Each range of a list has its fate. -/
def RangesMove (s : Shift) (rows : Bool) (old new : String) : Prop :=
  Fates (fun word word' => ∃ (r : Range) (fate : Option Range), parseRange word = some r ∧ word'.map parseRange = fate.map some ∧
    r.area.Moves s rows (fate.map Range.area)) (rangeWords old) (rangeWords new)

/-- What the rows or the columns of a sheet measure. -/
def Sheet.sizes {R : Type} (sheet : Sheet R) : Bool → Lines R
  | true => sheet.heights
  | false => sheet.widths

def Sheet.lineLooks {R : Type} (sheet : Sheet R) : Bool → Lines String
  | true => sheet.rowLooks
  | false => sheet.columnLooks

/-- The sheet whose lines move. -/
structure SheetMoves {R : Type} (isAlphanumeric : Char → Bool) (s : Shift) (rows : Bool) (sheet sheet' : Sheet R) : Prop where
  cells : Relocates (fun key => ¬s.Deletes (axis key rows)) (KeyGoes s rows)
    (CellMoves isAlphanumeric true sheet.name s rows) (fun key => sheet.cells[key]?) (fun key => sheet'.cells[key]?)
  merges : Fates (fun r r' => r.area.Moves s rows (r'.map Range.area)) sheet.merges sheet'.merges
  anchors : List.Forall₂ (fun a a' => (a'.tag, a'.attributeName, a'.link) = (a.tag, a.attributeName, a.link) ∧
    RangesMove s rows a.ranges a'.ranges) sheet.anchors sheet'.anchors
  sizes : Relocates (fun l => ¬s.Deletes l) (LineGoes s) Eq (fun l => (sheet.sizes rows)[l]?) (fun l => (sheet'.sizes rows)[l]?)
  looks : Relocates (fun l => ¬s.Deletes l) (LineGoes s) Eq (fun l => (sheet.lineLooks rows)[l]?)
    (fun l => (sheet'.lineLooks rows)[l]?)
  others : sheet'.sizes (!rows) = sheet.sizes (!rows) ∧ sheet'.lineLooks (!rows) = sheet.lineLooks (!rows)

/-- All of a workbook goes with the lines of one of its sheets. -/
structure MovesAlike {R : Type} (isAlphanumeric : Char → Bool) (s : Shift) (rows : Bool) (sheet : Sheet R) (m m' : Model R) :
    Prop where
  looks : m'.looks = m.looks
  names : List.Forall₂ (fun d d' => (d'.name, d'.sheet) = (d.name, d.sheet) ∧
    FormulaMoves isAlphanumeric false sheet.name s rows d.text d'.text) m.names m'.names
  sheets : ∃ before sheet' behind before' behind', m.sheets = before ++ sheet :: behind ∧ (∀ x ∈ before, x.id ≠ sheet.id) ∧
    m'.sheets = before' ++ sheet' :: behind' ∧
    List.Forall₂ (fun x x' => OtherMoves isAlphanumeric (x.id == sheet.id) sheet.name s rows x x') before before' ∧
    SheetMoves isAlphanumeric s rows sheet sheet' ∧
    List.Forall₂ (fun x x' => OtherMoves isAlphanumeric (x.id == sheet.id) sheet.name s rows x x') behind behind'

/-! ### What is asked for -/

/-- A line that has room has a name after the move. -/
structure Shift.NamedRoom (s : Shift) (l : UInt32) : Prop extends s.Room l where
  named : 0 ≤ s.count → s.at' ≤ l → l.toNat + s.size + 1 < 2 ^ 32

/-- There is room for what stands on a sheet, and each of its ranges can be read. -/
structure HasRoom {R : Type} (s : Shift) (rows : Bool) (sheet : Sheet R) : Prop where
  cells : ∀ key ∈ sheet.cells, s.Room (axis key rows)
  sizes : ∀ l ∈ sheet.sizes rows, s.Room l
  looks : ∀ l ∈ sheet.lineLooks rows, s.Room l
  merges : ∀ r ∈ sheet.merges, s.Room (r.span rows).1 ∧ s.Room (r.span rows).2
  anchors : ∀ a ∈ sheet.anchors, ∀ word ∈ rangeWords a.ranges, ∃ r, parseRange word = some r ∧
    s.NamedRoom (r.span rows).1 ∧ s.NamedRoom (r.span rows).2

/-- Each formula is read as it is meant. -/
def FormulasRead {R : Type} (isAlphanumeric : Char → Bool) (name : String) (m : Model R) : Prop :=
  ∀ formula ∈ m.formulas, ∀ pieces, FormedAll isAlphanumeric pieces → formula = .ofList (formulaText pieces) →
    ReadsAll isAlphanumeric name pieces

/-- Both end lines of a range stay, or all of its cells go. -/
def Range.Stays (s : Shift) (rows : Bool) (r : Range) : Prop :=
  (¬s.Deletes (r.span rows).1 ∧ ¬s.Deletes (r.span rows).2) ∨ ∀ key ∈ r.cells, s.Deletes (axis key rows)

/-! ### Lines and keys -/

namespace Shift

variable {s : Shift} {rows : Bool} {l k first last a b : UInt32} {key key' : UInt32 × UInt32}

theorem goes_none {n : Nat} : s.goes n = none ↔ s.count < 0 ∧ s.at'.toNat ≤ n ∧ n < s.at'.toNat + s.size := by
  rw [goes]
  split_ifs with hcount hbefore hgone
  · exact iff_of_false (by simp) fun h => Int32.not_le.mpr h.1 hcount
  · exact iff_of_false (by simp) fun h => by omega
  · exact iff_of_true rfl ⟨Int32.not_le.mp hcount, by omega, hgone⟩
  · exact iff_of_false (by simp) fun h => by omega

theorem line_deletes (h : s.Room l) : s.line l = none ↔ s.Deletes l := by
  rw [Deletes, ← goes_none, ← line_goes h, Option.map_eq_none_iff]

/-- Where a key goes along one axis. -/
def keyOf (s : Shift) (key : UInt32 × UInt32) : Bool → Option (UInt32 × UInt32)
  | true => (s.line key.1).map fun row => (row, key.2)
  | false => (s.line key.2).map fun column => (key.1, column)

theorem key_eq_some (h : s.Room (axis key rows)) : s.keyOf key rows = some key' ↔ KeyGoes s rows key key' := by
  obtain ⟨row, column⟩ := key
  obtain ⟨row', column'⟩ := key'
  cases rows with
  | true =>
    have h : s.Room row := h
    rw [Shift.keyOf, Option.map_eq_some_iff]
    constructor
    · rintro ⟨k, hk, hpair⟩
      obtain ⟨rfl, rfl⟩ := Prod.mk.inj hpair
      exact ⟨(line_eq_some h).mp hk, rfl⟩
    · rintro ⟨hgoes, hcolumn⟩
      obtain rfl : column' = column := hcolumn
      exact ⟨row', (line_eq_some h).mpr hgoes, rfl⟩
  | false =>
    have h : s.Room column := h
    rw [Shift.keyOf, Option.map_eq_some_iff]
    constructor
    · rintro ⟨k, hk, hpair⟩
      obtain ⟨rfl, rfl⟩ := Prod.mk.inj hpair
      exact ⟨(line_eq_some h).mp hk, rfl⟩
    · rintro ⟨hgoes, hrow⟩
      obtain rfl : row' = row := hrow
      exact ⟨column', (line_eq_some h).mpr hgoes, rfl⟩

theorem key_none (h : s.Room (axis key rows)) : s.keyOf key rows = none ↔ s.Deletes (axis key rows) := by
  rw [← line_deletes h]
  cases rows <;> exact Option.map_eq_none_iff

theorem lineGoes_inj {l₁ l₂ l' : UInt32} (h₁ : LineGoes s l₁ l') (h₂ : LineGoes s l₂ l') : l₁ = l₂ :=
  UInt32.toNat_inj.mp (goes_inj h₁ h₂)

theorem keyGoes_inj {key₁ key₂ : UInt32 × UInt32} (h₁ : KeyGoes s rows key₁ key') (h₂ : KeyGoes s rows key₂ key') :
    key₁ = key₂ := by
  have hline := lineGoes_inj h₁.1 h₂.1
  have hother := h₁.2.symm.trans h₂.2
  cases rows with
  | true => exact Prod.ext hline hother
  | false => exact Prod.ext hother hline

end Shift

open Std in
/-- Where keys go each to its own place, their map is relocated. -/
theorem relocates_moveKeys {K V : Type} {cmp : K → K → Ordering} [TransCmp cmp] [LawfulEqCmp cmp] {m : ExtTreeMap K V cmp}
    {move : K → Option K} {stays : K → Prop} {goes : K → K → Prop} (hgoes : ∀ k ∈ m, ∀ k', move k = some k' ↔ goes k k')
    (hstays : ∀ k ∈ m, stays k → move k ≠ none) (hinj : ∀ {k₁ k₂ k'}, goes k₁ k' → goes k₂ k' → k₁ = k₂) :
    Relocates stays goes Eq (fun k => m[k]?) (fun k => (moveKeys m move)[k]?) := by
  have hmem : ∀ {k : K} {v : V}, m[k]? = some v → k ∈ m := fun h => ExtTreeMap.mem_iff_isSome_getElem?.mpr (by rw [h]; rfl)
  have hmoved : ∀ {l : K} {v : V}, (moveKeys m move)[l]? = some v ↔ ∃ k, m[k]? = some v ∧ move k = some l :=
    getElem?_moveKeys fun hk hk' _ hl hl' => hinj ((hgoes _ hk _).mp hl) ((hgoes _ hk' _).mp hl')
  refine ⟨fun {k v} hold hstay => ?_, fun {k' w} hnew => ?_, fun _ _ h₁ h₂ => hinj h₁ h₂⟩
  · obtain ⟨k', hk'⟩ := Option.ne_none_iff_exists'.mp (hstays k (hmem hold) hstay)
    exact ⟨k', v, (hgoes k (hmem hold) k').mp hk', hmoved.mpr ⟨k, hold, hk'⟩, rfl⟩
  · obtain ⟨k, hold, hk⟩ := hmoved.mp hnew
    exact ⟨k, w, hold, (hgoes k (hmem hold) k').mp hk, rfl⟩

variable {s : Shift}

/-- What the lines have goes with them. -/
theorem relocates_lines {V : Type} {lines : Lines V} (hroom : ∀ l ∈ lines, s.Room l) :
    Relocates (fun l => ¬s.Deletes l) (LineGoes s) Eq (fun l => lines[l]?) (fun l => (movedKeys lines s)[l]?) :=
  relocates_moveKeys (fun l hl _ => Shift.line_eq_some (hroom l hl)) (fun l hl hstay h => hstay ((Shift.line_deletes (hroom l hl)).mp h))
    Shift.lineGoes_inj

variable {rows : Bool}

theorem relocates_cells {R : Type} {cells : Cells R} (hroom : ∀ key ∈ cells, s.Room (axis key rows)) :
    Relocates (fun key => ¬s.Deletes (axis key rows)) (KeyGoes s rows) Eq (fun key => cells[key]?)
      (fun key => (moveKeys cells (s.keyOf · rows))[key]?) :=
  relocates_moveKeys (fun key hkey _ => Shift.key_eq_some (hroom key hkey))
    (fun key hkey hstay h => hstay ((Shift.key_none (hroom key hkey)).mp h)) Shift.keyGoes_inj

/-! ### Merges -/

variable {last : UInt32}

theorem Shift.Room.mono {l : UInt32} (h : s.Room last) (hl : l ≤ last) : s.Room l :=
  ⟨h.inserted.mono hl, fun hcount => (h.deleted hcount).imp_right fun hlt => UInt32.lt_of_le_of_lt hl hlt⟩

/-- Nothing is left of a range just when each of its lines is deleted. -/
theorem after_empty {first : UInt32} (h : s.Room last) :
    s.after (between first last) = ∅ ↔ ∀ l ∈ between first last, s.Deletes l := by
  rw [Set.eq_empty_iff_forall_notMem]
  constructor
  · intro hnone l hl
    rw [← Shift.line_deletes (h.mono hl.2)]
    by_contra hline
    obtain ⟨k, hk⟩ := Option.ne_none_iff_exists'.mp hline
    exact hnone k (.inl ⟨l, hl, hk⟩)
  · rintro hall k (⟨l, hl, hk⟩ | ⟨hnew, ⟨l, hl, -⟩, -⟩)
    · rw [(Shift.line_deletes (h.mono hl.2)).mpr (hall l hl)] at hk
      exact absurd hk nofun
    · exact absurd hnew.1 (Int32.not_le.mpr (hall l hl).1)

theorem area_gone {s : Shift} {rows : Bool} {r : Range} (h : s.Room (r.span rows).2) :
    (r.area.after s rows).Gone ↔ ∀ key ∈ r.cells, s.Deletes (axis key rows) := by
  obtain ⟨top, left, bottom, right⟩ := r
  have hsplit : ∀ {first last first' last' : UInt32}, s.Room last →
      ((s.after (between first last) = ∅ ∨ between first' last' = ∅) ↔
        ∀ l ∈ between first last, ∀ k ∈ between first' last', s.Deletes l) := by
    intro first last first' last' hroom
    rw [after_empty hroom, Set.eq_empty_iff_forall_notMem]
    constructor
    · rintro (hall | hnone) l hl k hk
      · exact hall l hl
      · exact absurd hk (hnone k)
    · intro hall
      by_cases hother : ∃ k, k ∈ between first' last'
      · obtain ⟨k, hk⟩ := hother
        exact .inl fun l hl => hall l hl k hk
      · exact .inr fun k hk => hother ⟨k, hk⟩
  cases rows with
  | true =>
    have h : s.Room bottom := h
    simp only [Area.Gone, Area.after, Range.area, Option.map_some, Option.some_inj]
    rw [hsplit h]
    exact ⟨fun hall key hkey => hall key.1 hkey.1 key.2 hkey.2, fun hall l hl k hk => hall (l, k) ⟨hl, hk⟩⟩
  | false =>
    have h : s.Room right := h
    simp only [Area.Gone, Area.after, Range.area, Option.map_some, Option.some_inj]
    rw [or_comm, hsplit h]
    exact ⟨fun hall key hkey => hall key.2 hkey.2 key.1 hkey.1, fun hall l hl k hk => hall (k, l) ⟨hk, hl⟩⟩

/-- What the code makes of a merge. -/
def movedMerge (s : Shift) (rows : Bool) (r : Range) : Option Range := do
  let (top, left) ← s.keyOf (r.top, r.left) rows
  let (bottom, right) ← s.keyOf (r.bottom, r.right) rows
  return ⟨top, left, bottom, right⟩

theorem movedMerge_eq (s : Shift) (rows : Bool) (r : Range) : movedMerge s rows r =
    (s.line (r.span rows).1).bind fun first => (s.line (r.span rows).2).map fun last =>
      if rows then ⟨first, r.left, last, r.right⟩ else ⟨r.top, first, r.bottom, last⟩ := by
  cases rows with
  | true =>
    show ((s.line r.top).map _).bind _ = (s.line r.top).bind fun first => (s.line r.bottom).map _
    cases s.line r.top with
    | none => rfl
    | some first =>
      show ((s.line r.bottom).map _).bind _ = _
      cases s.line r.bottom <;> rfl
  | false =>
    show ((s.line r.left).map _).bind _ = (s.line r.left).bind fun first => (s.line r.right).map _
    cases s.line r.left with
    | none => rfl
    | some first =>
      show ((s.line r.right).map _).bind _ = _
      cases s.line r.right <;> rfl

/-- A merge whose end lines stay covers what its area becomes. -/
theorem movedMerge_some {r r' : Range} (hfirst : s.Room (r.span rows).1) (hlast : s.Room (r.span rows).2)
    (h : movedMerge s rows r = some r') : r'.area = r.area.after s rows := by
  rw [movedMerge_eq] at h
  obtain ⟨first, hline, h⟩ := Option.bind_eq_some_iff.mp h
  obtain ⟨last, hline', rfl⟩ := Option.map_eq_some_iff.mp h
  have hspan := Shift.span_room hfirst hlast
  rw [Shift.span_of_lines hline hline'] at hspan
  have hspan : between first last = s.after (between (r.span rows).1 (r.span rows).2) := hspan
  cases rows with
  | true => exact congrArg (fun lines => Area.mk (some lines) _) hspan
  | false => exact congrArg (fun lines => Area.mk _ (some lines)) hspan

theorem movedMerge_isSome {r : Range} (hfirst : s.Room (r.span rows).1) (hlast : s.Room (r.span rows).2) :
    (movedMerge s rows r).isSome = true ↔ ¬s.Deletes (r.span rows).1 ∧ ¬s.Deletes (r.span rows).2 := by
  rw [movedMerge_eq, ← Shift.line_deletes hfirst, ← Shift.line_deletes hlast]
  cases s.line (r.span rows).1 with
  | none => simp
  | some first => cases s.line (r.span rows).2 <;> simp

theorem fates_filterMap {α β : Type} {fate : α → Option β → Prop} {f : α → Option β} {olds : List α}
    (h : ∀ a ∈ olds, fate a (f a)) : Fates fate olds (olds.filterMap f) := by
  refine ⟨olds.map f, ?_, ?_⟩
  · rw [List.forall₂_map_right_iff]
    exact List.forall₂_same.mpr h
  · rw [List.reduceOption, List.filterMap_map]
    rfl

/-- The merges move alike just when no merge loses only one of its end lines. -/
theorem merges_move {merges : List Range} (hroom : ∀ r ∈ merges, s.Room (r.span rows).1 ∧ s.Room (r.span rows).2) :
    Fates (fun r r' => r.area.Moves s rows (r'.map Range.area)) merges (merges.filterMap (movedMerge s rows)) ↔
      ∀ r ∈ merges, r.Stays s rows := by
  classical
  constructor
  · rintro ⟨fates, hfates, hmerges⟩
    -- the merges of which something is left are as many as those that the code keeps of them
    let live : Range → Bool := fun r => decide ¬r.area.Gone
    have hcount : (merges.filterMap (movedMerge s rows)).countP live ≤ fates.reduceOption.countP live ∧
        ((merges.filterMap (movedMerge s rows)).countP live = fates.reduceOption.countP live → ∀ r ∈ merges, r.Stays s rows) := by
      clear hmerges
      induction hfates with
      | nil => exact ⟨le_rfl, fun _ => nofun⟩
      | @cons r fate merges fates hmoves _ ih =>
        obtain ⟨⟨hfirst, hlast⟩, hroom⟩ := List.forall_mem_cons.mp hroom
        obtain ⟨hle, hall⟩ := ih hroom
        have hgone : (r.area.after s rows).Gone → r.Stays s rows := fun h => .inr ((area_gone hlast).mp h)
        have hlive : ∀ {r' : Range}, r'.area = r.area.after s rows → live r' = decide ¬(r.area.after s rows).Gone := by
          intro r' hr'
          simp only [live, hr']
        cases hmoved : movedMerge s rows r with
        | some r' =>
          have hstays : r.Stays s rows := .inl ((movedMerge_isSome hfirst hlast).mp (by rw [hmoved]; rfl))
          have hr' := hlive (movedMerge_some hfirst hlast hmoved)
          rw [List.filterMap_cons_some hmoved, List.countP_cons, hr']
          cases fate with
          | some r'' =>
            rw [List.reduceOption_cons_of_some, List.countP_cons, hlive hmoves]
            exact ⟨by omega, fun h => List.forall_mem_cons.mpr ⟨hstays, hall (by omega)⟩⟩
          | none =>
            have hnone : (r.area.after s rows).Gone := hmoves
            rw [List.reduceOption_cons_of_none, decide_eq_false (not_not.mpr hnone)]
            exact ⟨hle, fun h => List.forall_mem_cons.mpr ⟨hstays, hall h⟩⟩
        | none =>
          rw [List.filterMap_cons_none hmoved]
          cases fate with
          | some r'' =>
            rw [List.reduceOption_cons_of_some, List.countP_cons, hlive hmoves]
            by_cases h : (r.area.after s rows).Gone
            · rw [decide_eq_false (not_not.mpr h)]
              exact ⟨hle, fun h' => List.forall_mem_cons.mpr ⟨hgone h, hall h'⟩⟩
            · rw [decide_eq_true h, if_pos rfl]
              exact ⟨by omega, fun h' => by omega⟩
          | none =>
            rw [List.reduceOption_cons_of_none]
            exact ⟨hle, fun h => List.forall_mem_cons.mpr ⟨hgone hmoves, hall h⟩⟩
    exact hcount.2 (by rw [hmerges])
  · intro hstays
    refine fates_filterMap fun r hr => ?_
    obtain ⟨hfirst, hlast⟩ := hroom r hr
    cases hmoved : movedMerge s rows r with
    | some r' => exact movedMerge_some hfirst hlast hmoved
    | none =>
      show (r.area.after s rows).Gone
      rw [area_gone hlast]
      refine (hstays r hr).resolve_left fun hends => ?_
      have := (movedMerge_isSome hfirst hlast).mpr hends
      rw [hmoved] at this
      exact absurd this nofun

/-! ### Ranges of anchors -/

/-- What the code makes of a range of an anchor. -/
def movedRange (s : Shift) (rows : Bool) (r : Range) : Option Range :=
  (s.span (r.span rows).1 (r.span rows).2).map fun span =>
    if rows then ⟨span.1, r.left, span.2, r.right⟩ else ⟨r.top, span.1, r.bottom, span.2⟩

theorem shiftRanges_eq (ranges : String) (s : Shift) (rows : Bool) : shiftRanges ranges s rows =
    " ".intercalate ((rangeWords ranges).filterMap fun word =>
      ((parseRange word).bind (movedRange s rows)).map rangeName) := by
  rw [shiftRanges, rangeWords]
  congr 2
  funext word
  cases parseRange word with
  | none => rfl
  | some r =>
    cases rows with
    | true =>
      show ((s.span r.top r.bottom).bind fun span => some _) = ((s.span r.top r.bottom).map _).map _
      cases s.span r.top r.bottom <;> rfl
    | false =>
      show ((s.span r.left r.right).bind fun span => some _) = ((s.span r.left r.right).map _).map _
      cases s.span r.left r.right <;> rfl

/-- The ends of a range can still be named. -/
theorem span_named {first a b : UInt32} (hfirst : s.NamedRoom first) (hlast : s.NamedRoom last)
    (hname : first.toNat + 1 < 2 ^ 32) (hname' : last.toNat + 1 < 2 ^ 32) (h : s.span first last = some (a, b)) :
    a.toNat + 1 < 2 ^ 32 ∧ b.toNat + 1 < 2 ^ 32 := by
  have hline : ∀ {l k : UInt32}, s.NamedRoom l → l.toNat + 1 < 2 ^ 32 → s.line l = some k → k.toNat + 1 < 2 ^ 32 := by
    intro l k hl hname hk
    have hgoes := (Shift.line_eq_some hl.toRoom).mp hk
    have hroom := hl.named
    rw [UInt32.le_iff_toNat_le] at hroom
    rw [Shift.goes] at hgoes
    split_ifs at hgoes with hcount hat <;> simp only [Option.some_inj] at hgoes
    · have := hroom hcount hat
      omega
    all_goals omega
  -- an end that is deleted gives way to the line where the deleted ones begin, or to the one before
  have hgone : ∀ {l : UInt32}, s.NamedRoom l → l.toNat + 1 < 2 ^ 32 → s.line l = none → s.at'.toNat + 1 < 2 ^ 32 := by
    intro l hl hname hnone
    have := ((Shift.line_deletes hl.toRoom).mp hnone).2.1
    omega
  rw [Shift.span] at h
  by_cases hcount : 0 ≤ s.count
  · rw [if_pos hcount] at h
    obtain ⟨a', ha, h⟩ := Option.bind_eq_some_iff.mp h
    obtain ⟨b', hb, h⟩ := Option.bind_eq_some_iff.mp h
    obtain ⟨rfl, rfl⟩ := Prod.mk.inj (Option.some.inj h)
    exact ⟨hline hfirst hname ha, hline hlast hname' hb⟩
  rw [if_neg hcount] at h
  obtain ⟨a', ha, h⟩ := Option.bind_eq_some_iff.mp h
  obtain ⟨b', hb, h⟩ := Option.bind_eq_some_iff.mp h
  obtain ⟨rfl, rfl⟩ := Prod.mk.inj (Option.some.inj h)
  refine ⟨?_, ?_⟩
  · cases hstart : s.line first with
    | some k =>
      rw [hstart, Option.some_or] at ha
      exact hline hfirst hname (hstart.trans ha)
    | none =>
      rw [hstart, Option.none_or] at ha
      split_ifs at ha with hpast
      exact Option.some.inj ha ▸ hgone hfirst hname hstart
  · cases hstop : s.line last with
    | some k =>
      rw [hstop, Option.some_or] at hb
      exact hline hlast hname' (hstop.trans hb)
    | none =>
      have hat := hgone hlast hname' hstop
      rw [hstop, Option.none_or] at hb
      split_ifs at hb with hbefore hzero
      · rw [← Option.some.inj hb]
        decide
      · have hone : 1 ≤ s.at' := by
          rw [UInt32.le_iff_toNat_le]
          have hne : s.at'.toNat ≠ 0 := fun h => hzero (UInt32.toNat_inj.mp h)
          show 1 ≤ s.at'.toNat
          omega
        have := sub_one_lt hone
        rw [← Option.some.inj hb]
        exact this

/-- The ranges of an anchor go alike. -/
theorem ranges_move {ranges : String} (h : ∀ word ∈ rangeWords ranges, ∃ r, parseRange word = some r ∧
    s.NamedRoom (r.span rows).1 ∧ s.NamedRoom (r.span rows).2) :
    RangesMove s rows ranges (shiftRanges ranges s rows) := by
  have hnamed : ∀ {word : List Char} {r r' : Range}, parseRange word = some r → s.NamedRoom (r.span rows).1 →
      s.NamedRoom (r.span rows).2 → movedRange s rows r = some r' → r'.Named := by
    intro word r r' hread hfirst hlast hmoved
    have hname := named_of_parse hread
    obtain ⟨⟨a, b⟩, hspan, rfl⟩ := Option.map_eq_some_iff.mp hmoved
    cases rows with
    | true =>
      obtain ⟨ha, hb⟩ := span_named hfirst hlast hname.top hname.bottom hspan
      exact ⟨ha, hname.left, hb, hname.right⟩
    | false =>
      obtain ⟨ha, hb⟩ := span_named hfirst hlast hname.left hname.right hspan
      exact ⟨hname.top, ha, hname.bottom, hb⟩
  have hwords : rangeWords (shiftRanges ranges s rows) = (rangeWords ranges).filterMap fun word =>
      (((parseRange word).bind (movedRange s rows)).map rangeName).map String.toList := by
    rw [shiftRanges_eq, rangeWords_intercalate, List.map_filterMap]
    intro name hname
    obtain ⟨word, -, hword⟩ := List.mem_filterMap.mp hname
    obtain ⟨r, -, rfl⟩ := Option.map_eq_some_iff.mp hword
    exact rangeName_plain r
  rw [RangesMove, hwords]
  refine fates_filterMap fun word hword => ?_
  obtain ⟨r, hread, hfirst, hlast⟩ := h word hword
  have hcovers := Shift.span_room hfirst.toRoom hlast.toRoom
  refine ⟨r, movedRange s rows r, hread, ?_, ?_⟩
  · rw [hread, Option.bind_some]
    cases hmoved : movedRange s rows r with
    | none => rfl
    | some r' => exact congrArg some (parseRange_name (hnamed hread hfirst hlast hmoved))
  · rw [movedRange]
    cases hspan : s.span (r.span rows).1 (r.span rows).2 with
    | none =>
      rw [hspan] at hcovers
      cases rows with
      | true => exact .inl (congrArg some hcovers.symm)
      | false => exact .inr (congrArg some hcovers.symm)
    | some span =>
      rw [hspan] at hcovers
      cases rows with
      | true => exact congrArg (fun lines => Area.mk (some lines) _) hcovers
      | false => exact congrArg (fun lines => Area.mk _ (some lines)) hcovers

/-! ### The whole workbook -/

section

variable {R : Type} {isAlphanumeric : Char → Bool} {s : Shift} {rows : Bool} {sheet : Sheet R} {m m' : Model R}

/-- What the code makes of a formula. -/
def movedFormula (isAlphanumeric : Char → Bool) (name : String) (s : Shift) (rows own : Bool) (formula : String) : String :=
  shiftFormula isAlphanumeric formula own name (if rows then some s else none) (if rows then none else some s)

variable {own : Bool}

theorem formula_moves (hascii : KnowsAscii isAlphanumeric) (hs : s.Accepted) {name formula : String}
    (hreads : ∀ pieces, FormedAll isAlphanumeric pieces → formula = .ofList (formulaText pieces) → ReadsAll isAlphanumeric name pieces) :
    FormulaMoves isAlphanumeric own name s rows formula (movedFormula isAlphanumeric name s rows own formula) := by
  rintro pieces hformed rfl
  exact shiftFormula_follows hascii hs hformed (hreads pieces hformed rfl)

/-- What the code makes of a cell. -/
def movedCell (isAlphanumeric : Char → Bool) (name : String) (s : Shift) (rows own : Bool) (c : Cell R) : Cell R :=
  { c with formula := c.formula.map (movedFormula isAlphanumeric name s rows own) }

theorem cell_moves (hascii : KnowsAscii isAlphanumeric) (hs : s.Accepted)
    (hreads : FormulasRead isAlphanumeric sheet.name m) {x : Sheet R} (hx : x ∈ m.sheets) {key : UInt32 × UInt32}
    {c : Cell R} (hc : x.cells[key]? = some c) :
    CellMoves isAlphanumeric own sheet.name s rows c (movedCell isAlphanumeric sheet.name s rows own c) := by
  refine ⟨rfl, rfl, ?_⟩
  cases hformula : c.formula with
  | none => simp [movedCell, hformula]
  | some formula =>
    have hmem : formula ∈ m.formulas := by
      refine List.mem_append_left _ (List.mem_flatMap.mpr ⟨x, hx, List.mem_filterMap.mpr ⟨(key, c), ?_, hformula⟩⟩)
      exact Std.ExtTreeMap.mem_toList_iff_getElem?_eq_some.mpr hc
    simp only [movedCell, hformula, Option.map_some]
    exact .some (formula_moves hascii hs (hreads formula hmem))

/-- A sheet with its formulas moved. -/
def withFormulas (isAlphanumeric : Char → Bool) (name : String) (s : Shift) (rows own : Bool) (x : Sheet R) : Sheet R :=
  { x with cells := x.cells.map fun _ cell => movedCell isAlphanumeric name s rows own cell }

theorem other_moves (hascii : KnowsAscii isAlphanumeric) (hs : s.Accepted)
    (hreads : FormulasRead isAlphanumeric sheet.name m) {x : Sheet R} (hx : x ∈ m.sheets) :
    OtherMoves isAlphanumeric own sheet.name s rows x (withFormulas isAlphanumeric sheet.name s rows own x) := by
  refine ⟨rfl, fun key => ?_⟩
  have hget : (withFormulas isAlphanumeric sheet.name s rows own x).cells[key]? =
      x.cells[key]?.map (movedCell isAlphanumeric sheet.name s rows own) := Std.ExtTreeMap.getElem?_map
  rw [hget]
  cases hc : x.cells[key]? with
  | none => exact .none
  | some c => exact .some (cell_moves hascii hs hreads hx hc)

/-- What the code makes of the sheet whose lines move. -/
theorem moveLines_sheet (x : Sheet R) (s : Shift) (rows : Bool) : x.moveLines s rows =
    let anchors := x.anchors.map fun anchor => { anchor with ranges := shiftRanges anchor.ranges s rows }
    let sheet := { x with
      moved := true, cells := moveKeys x.cells (s.keyOf · rows), merges := x.merges.filterMap (movedMerge s rows), anchors }
    if rows then { sheet with heights := movedKeys x.heights s, rowLooks := movedKeys x.rowLooks s }
    else { sheet with widths := movedKeys x.widths s, columnLooks := movedKeys x.columnLooks s } := by
  cases rows <;> rfl

/-- Things that change where they stand and are relocated then. -/
theorem Relocates.changed {K V W : Type} {stays : K → Prop} {goes : K → K → Prop} {alike : V → W → Prop} {old : K → Option V}
    {changed new : K → Option W} {f : V → W} (hchanged : ∀ k, changed k = (old k).map f) (halike : ∀ k v, old k = some v → alike v (f v))
    (h : Relocates stays goes Eq changed new) : Relocates stays goes alike old new := by
  refine ⟨fun {k v} hold hstay => ?_, fun {k' w} hnew => ?_, fun {k₁ k₂ k'} h₁ h₂ => ?_⟩
  · obtain ⟨k', w, hgoes, hnew, rfl⟩ := h.kept (show changed k = some (f v) by rw [hchanged, hold]; rfl) hstay
    exact ⟨k', f v, hgoes, hnew, halike k v hold⟩
  · obtain ⟨k, w', hold, hgoes, rfl⟩ := h.only hnew
    rw [hchanged] at hold
    obtain ⟨v, hv, rfl⟩ := Option.map_eq_some_iff.mp hold
    exact ⟨k, v, hv, hgoes, halike k v hv⟩
  · exact h.apart (by rw [hchanged, Option.isSome_map]; exact h₁) (by rw [hchanged, Option.isSome_map]; exact h₂)

/-- The sheet goes alike just when no merge loses only one of its end lines. -/
theorem sheet_moves (hascii : KnowsAscii isAlphanumeric) (hs : s.Accepted) (hreads : FormulasRead isAlphanumeric sheet.name m)
    (hmem : sheet ∈ m.sheets) (hroom : HasRoom s rows sheet) :
    SheetMoves isAlphanumeric s rows sheet ((withFormulas isAlphanumeric sheet.name s rows true sheet).moveLines s rows) ↔
      ∀ r ∈ sheet.merges, r.Stays s rows := by
  rw [← merges_move hroom.merges]
  have hmerges : ((withFormulas isAlphanumeric sheet.name s rows true sheet).moveLines s rows).merges =
      sheet.merges.filterMap (movedMerge s rows) := by
    rw [moveLines_sheet]
    cases rows <;> rfl
  constructor
  · intro h
    rw [← hmerges]
    exact h.merges
  intro h
  rw [← hmerges] at h
  have hcells : ((withFormulas isAlphanumeric sheet.name s rows true sheet).moveLines s rows).cells =
      moveKeys (withFormulas isAlphanumeric sheet.name s rows true sheet).cells (s.keyOf · rows) := by
    rw [moveLines_sheet]
    cases rows <;> rfl
  have hanchors : ((withFormulas isAlphanumeric sheet.name s rows true sheet).moveLines s rows).anchors =
      sheet.anchors.map fun anchor => { anchor with ranges := shiftRanges anchor.ranges s rows } := by
    rw [moveLines_sheet]
    cases rows <;> rfl
  refine ⟨?_, h, ?_, ?_, ?_, by cases rows <;> exact ⟨rfl, rfl⟩⟩
  · rw [hcells]
    refine Relocates.changed (fun key => Std.ExtTreeMap.getElem?_map) (fun key c hc => cell_moves hascii hs hreads hmem hc)
      (relocates_cells fun key hkey => hroom.cells key ?_)
    exact Std.ExtTreeMap.mem_map.mp hkey
  · rw [hanchors, List.forall₂_map_right_iff]
    exact List.forall₂_same.mpr fun anchor hanchor => ⟨rfl, ranges_move (hroom.anchors anchor hanchor)⟩
  · have hsizes := relocates_lines hroom.sizes
    cases rows <;> exact hsizes
  · have hlooks := relocates_lines hroom.looks
    cases rows <;> exact hlooks

theorem modify_append {α : Type} (f : α → α) (before : List α) (a : α) (behind : List α) :
    (before ++ a :: behind).modify before.length f = before ++ f a :: behind := by
  induction before with
  | nil => rfl
  | cons b before ih => rw [List.cons_append, List.length_cons, List.modify_succ_cons, ih, List.cons_append]

theorem findIdx?_append {α : Type} {p : α → Bool} : ∀ {before : List α} {a : α} {behind : List α}, (∀ b ∈ before, p b = false) → p a = true →
    (before ++ a :: behind).findIdx? p = some before.length
  | [], a, behind, _, ha => by rw [List.nil_append, List.findIdx?_cons, if_pos ha]; rfl
  | b :: before, a, behind, hbefore, ha => by
    obtain ⟨hb, hbefore⟩ := List.forall_mem_cons.mp hbefore
    rw [List.cons_append, List.findIdx?_cons, if_neg (by rw [hb]; decide), findIdx?_append hbefore ha]
    rfl

/-- A sheet with one cell and a merge over its first three rows. -/
def mergedSheet : Sheet Nat :=
  { Sheet.blank with
    id := "1", name := "Main", cells := (∅ : Cells Nat).insert (5, 0) ⟨some (.number 7), none, none⟩, merges := [⟨0, 0, 2, 1⟩] }

def mergedModel : Model Nat := ⟨[mergedSheet], [], [], 1⟩

end

end Kodosi.Xlsx
