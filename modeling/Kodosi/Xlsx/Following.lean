import Kodosi.Xlsx.Moves
import Kodosi.Xlsx.Pieces

/-! Where the references of a formula go when lines move: each to what its cells became. -/

namespace Kodosi.Xlsx

/-! ### What a reference becomes -/

namespace Reference

/-- The line of an end along one axis. -/
def line (r : Reference) : Bool → Option UInt32
  | true => r.row
  | false => r.column

def withLine (r : Reference) (line : Option UInt32) : Bool → Reference
  | true => { r with row := line }
  | false => { r with column := line }

/-- An end is as it was, but for its line along one axis. -/
structure Keeps (rows : Bool) (r r' : Reference) : Prop where
  other : r'.line (!rows) = r.line (!rows)
  rowFixed : r'.rowFixed = r.rowFixed
  columnFixed : r'.columnFixed = r.columnFixed

end Reference

/-- The lines that a reference takes along one axis, or nothing when it takes them all. -/
def Ends.lines (ends : Ends) (rows : Bool) : Option (Set UInt32) :=
  (ends.first.line rows).map fun first => between first ((ends.second.bind (·.1.line rows)).getD first)

/-- A reference takes what became of the lines of another one, and some of them are left. -/
structure Ends.Follows (s : Shift) (rows : Bool) (ends ends' : Ends) : Prop where
  formed : ends'.Formed
  lines : ends'.lines rows = (ends.lines rows).map s.after
  left : ∀ lines ∈ ends'.lines rows, lines.Nonempty
  first : ends.first.Keeps rows ends'.first
  second : Option.Rel (fun r r' => r.1.Keeps rows r'.1) ends.second ends'.second

/-! ### What is written -/

namespace Reference

/-- What an end has can be written. -/
structure Sound (r : Reference) : Prop where
  names : r.column.isSome ∨ r.row.isSome
  row : ∀ row, r.row = some row → row.toNat + 1 < 2 ^ 32
  fixed : (r.column = none → r.columnFixed = false) ∧ (r.row = none → r.rowFixed = false)

variable {r : Reference} {rows : Bool} {k : UInt32}

theorem Sound.text (h : r.Sound) : r.Text r.write := text_write h.names h.row h.fixed

theorem Text.sound {text : List Char} (h : r.Text text) : r.Sound := by
  obtain ⟨⟨column, row, hcolumn, hrow, -⟩, hsome⟩ := h
  obtain ⟨rowValue, columnValue, rowFixed, columnFixed⟩ := r
  refine ⟨hsome, ?_, ?_, ?_⟩
  · rintro row rfl
    cases hrow with
    | row fixed hlast => exact hlast
  · rintro rfl
    cases hcolumn with
    | whole => rfl
  · rintro rfl
    cases hrow with
    | whole => rfl

theorem Sound.withLine (h : r.Sound) (hline : (r.line rows).isSome = true) (hk : k.toNat + 1 < 2 ^ 32) :
    (r.withLine (some k) rows).Sound := by
  cases rows with
  | true =>
    refine ⟨.inr rfl, ?_, h.fixed.1, nofun⟩
    rintro row ⟨⟩
    exact hk
  | false => exact ⟨.inl rfl, h.row, nofun, h.fixed.2⟩

theorem keeps_withLine (r : Reference) (line : Option UInt32) (rows : Bool) : r.Keeps rows (r.withLine line rows) := by
  cases rows <;> exact ⟨rfl, rfl, rfl⟩

theorem line_withLine (r : Reference) (line : Option UInt32) (rows : Bool) : (r.withLine line rows).line rows = line := by
  cases rows <;> rfl

theorem row_withLine (hline : (r.line rows).isSome = true) : (r.withLine (some k) rows).row.isSome = r.row.isSome := by
  cases rows with
  | true => exact hline.symm
  | false => rfl

theorem column_withLine (hline : (r.line rows).isSome = true) : (r.withLine (some k) rows).column.isSome = r.column.isSome := by
  cases rows with
  | true => rfl
  | false => exact hline.symm

theorem InGrid.line (h : r.InGrid) (hk : r.line rows = some k) : k.toNat < 1048576 := by
  cases rows with
  | true => exact UInt32.lt_iff_toNat_lt.mp (h.row k hk)
  | false =>
    have hlt := UInt32.lt_iff_toNat_lt.mp (h.column k hk)
    have h16384 : (16384 : UInt32).toNat = 16384 := rfl
    omega

end Reference

/-- Both ends as they are written. -/
def Ends.of (first : Reference) (second : Option Reference) : Ends :=
  ⟨first, first.write, second.map fun second => (second, second.write)⟩

theorem written_of (first : Reference) (second : Option Reference) :
    written [] (some (first, second)) = (Ends.of first second).text := by
  cases second <;> simp [written, Ends.of, Ends.text]

/-! ### The code's change of one reference -/

variable {s : Shift} {ends : Ends} {rows : Bool}

variable {start : UInt32}

theorem lines_single (hfirst : ends.first.line rows = some start) (hsecond : ends.second = none) :
    ends.lines rows = some (between start start) := by
  rw [Ends.lines, hfirst, hsecond]
  rfl

variable {last : UInt32} {stop : Reference × List Char}

theorem lines_both (hfirst : ends.first.line rows = some start) (hsecond : ends.second = some stop)
    (hstop : stop.1.line rows = some last) :
    ends.lines rows = some (between start last) := by
  rw [Ends.lines, hfirst, hsecond, Option.bind_some, hstop]
  rfl

theorem formed_axis (h : ends.Formed) {stop : Reference × List Char} (hsecond : ends.second = some stop) :
    (stop.1.line rows).isSome = (ends.first.line rows).isSome := by
  obtain ⟨-, hrow, hcolumn⟩ := h.second stop hsecond
  cases rows with
  | true => exact hrow
  | false => exact hcolumn

theorem ordered_axis (h : Piece.Ordered ends) (hfirst : ends.first.line rows = some start)
    (hsecond : ends.second = some stop) (hstop : stop.1.line rows = some last) :
    start ≤ last := by
  cases rows with
  | true => exact h.rows stop hsecond start hfirst last hstop
  | false => exact h.columns stop hsecond start hfirst last hstop

/-- A reference that takes all lines of the axis stays. -/
theorem follows_whole (hformed : ends.Formed) (hwhole : ends.first.line rows = none) :
    ends.Follows s rows (.of ends.first (ends.second.map Prod.fst)) := by
  refine ⟨⟨hformed.first.sound.text, ?_, ?_⟩, ?_, ?_, ⟨rfl, rfl, rfl⟩, ?_⟩
  · rintro second hsecond
    obtain ⟨second, hsome, rfl⟩ : ∃ r, ends.second = some r ∧ (r.1, r.1.write) = second := by simpa [Ends.of] using hsecond
    obtain ⟨htext, haxes⟩ := hformed.second second hsome
    exact ⟨htext.sound.text, haxes⟩
  · intro hnone
    exact hformed.single (by simpa [Ends.of] using hnone)
  · simp [Ends.lines, Ends.of, hwhole]
  · simp [Ends.lines, Ends.of, hwhole]
  · cases hsecond : ends.second with
    | none => simp [Ends.of]
    | some second => simpa [Ends.of, hsecond] using Option.Rel.some (show Reference.Keeps rows second.1 second.1 from ⟨rfl, rfl, rfl⟩)

/-- A cell that is left is followed. -/
theorem follows_line (hs : s.Accepted) (hformed : ends.Formed) (hgrid : ends.InGrid) (hsecond : ends.second = none)
    {k : UInt32} (hfirst : ends.first.line rows = some start) (hk : between k k = s.after (between start start)) :
    ends.Follows s rows (.of (ends.first.withLine (some k) rows) none) := by
  have hline : (ends.first.line rows).isSome = true := by rw [hfirst]; rfl
  have hmem : k ∈ between k k := ⟨UInt32.le_refl k, UInt32.le_refl k⟩
  have hlt := Shift.after_lt hs (hgrid.1.line hfirst) (hk ▸ hmem)
  have hlines : (Ends.of (ends.first.withLine (some k) rows) none).lines rows = some (between k k) :=
    lines_single (Reference.line_withLine _ _ _) rfl
  refine ⟨⟨(hformed.first.sound.withLine hline (by omega)).text, nofun, fun _ => ?_⟩, ?_, ?_, Reference.keeps_withLine .., ?_⟩
  · obtain ⟨hrow, hcolumn⟩ := hformed.single hsecond
    exact ⟨(Reference.row_withLine hline).trans hrow, (Reference.column_withLine hline).trans hcolumn⟩
  · rw [hlines, lines_single hfirst hsecond, Option.map_some, hk]
  · rw [hlines]
    rintro lines ⟨⟩
    exact ⟨k, hmem⟩
  · rw [hsecond]
    exact .none

/-- A range of which something is left is followed. -/
theorem follows_span (hs : s.Accepted) (hformed : ends.Formed) (hgrid : ends.InGrid) (hsecond : ends.second = some stop)
    {a b : UInt32} (hfirst : ends.first.line rows = some start) (hstop : stop.1.line rows = some last) (hab : a ≤ b)
    (hspan : between a b = s.after (between start last)) :
    ends.Follows s rows (.of (ends.first.withLine (some a) rows) (some (stop.1.withLine (some b) rows))) := by
  have hline : (ends.first.line rows).isSome = true := by rw [hfirst]; rfl
  have hline' : (stop.1.line rows).isSome = true := by rw [hstop]; rfl
  have ha : a ∈ between a b := ⟨UInt32.le_refl a, hab⟩
  have hb : b ∈ between a b := ⟨hab, UInt32.le_refl b⟩
  have hlast := (hgrid.2 stop hsecond).line hstop
  have halt := Shift.after_lt hs hlast (hspan ▸ ha)
  have hblt := Shift.after_lt hs hlast (hspan ▸ hb)
  obtain ⟨htext, hrow, hcolumn⟩ := hformed.second stop hsecond
  have hlines : (Ends.of (ends.first.withLine (some a) rows) (some (stop.1.withLine (some b) rows))).lines rows =
      some (between a b) := lines_both (Reference.line_withLine _ _ _) rfl (Reference.line_withLine _ _ _)
  refine ⟨⟨(hformed.first.sound.withLine hline (by omega)).text, ?_, nofun⟩, ?_, ?_, Reference.keeps_withLine .., ?_⟩
  · rintro second ⟨⟩
    refine ⟨(htext.sound.withLine hline' (by omega)).text, ?_, ?_⟩
    · exact (Reference.row_withLine hline').trans (hrow.trans (Reference.row_withLine hline).symm)
    · exact (Reference.column_withLine hline').trans (hcolumn.trans (Reference.column_withLine hline).symm)
  · rw [hlines, lines_both hfirst hsecond hstop, Option.map_some, hspan]
  · rw [hlines]
    rintro lines ⟨⟩
    exact ⟨a, ha⟩
  · rw [hsecond]
    exact .some (Reference.keeps_withLine ..)

/-- What the code makes of a reference: `#REF!` when all its lines are gone, else what follows them. -/
theorem moveAxis_follows (hs : s.Accepted) (hformed : ends.Formed) (hgrid : ends.InGrid) (hordered : Piece.Ordered ends) :
    (moveAxis s (·.line rows) (·.withLine · rows) ends.first (ends.second.map Prod.fst) = none ∧
      ∃ lines ∈ ends.lines rows, s.after lines = ∅) ∨
    ∃ first second, moveAxis s (·.line rows) (·.withLine · rows) ends.first (ends.second.map Prod.fst) = some (first, second) ∧
      ends.Follows s rows (.of first second) := by
  cases hfirst : ends.first.line rows with
  | none =>
    refine .inr ⟨ends.first, ends.second.map Prod.fst, ?_, follows_whole hformed hfirst⟩
    simp [moveAxis, hfirst]
  | some start =>
    cases hsecond : ends.second with
    | none =>
      have hmove : moveAxis s (·.line rows) (·.withLine · rows) ends.first none =
          (s.line start).bind fun k => some (ends.first.withLine (some k) rows, none) := by
        simp [moveAxis, hfirst]
      rw [Option.map_none, hmove]
      rcases Shift.line_grid hs (hgrid.1.line hfirst) with ⟨hline, hgone⟩ | ⟨k, hline, hk⟩
      · exact .inl ⟨by rw [hline]; rfl, _, lines_single hfirst hsecond, hgone⟩
      · exact .inr ⟨_, _, by rw [hline]; rfl, follows_line hs hformed hgrid hsecond hfirst hk⟩
    | some stop =>
      have hsome := @formed_axis ends rows hformed stop hsecond
      rw [hfirst] at hsome
      obtain ⟨last, hstop⟩ := Option.isSome_iff_exists.mp hsome
      have hmove : moveAxis s (·.line rows) (·.withLine · rows) ends.first (some stop.1) =
          (s.span start last).bind fun span =>
            some (ends.first.withLine (some span.1) rows, some (stop.1.withLine (some span.2) rows)) := by
        simp [moveAxis, hfirst, hstop]
      rw [Option.map_some, hmove]
      have hlast := (hgrid.2 stop hsecond).line hstop
      rcases Shift.span_grid hs hlast (ordered_axis hordered hfirst hsecond hstop) with ⟨hspan, hgone⟩ | ⟨a, b, hspan, hab, hcovers⟩
      · exact .inl ⟨by rw [hspan]; rfl, _, lines_both hfirst hsecond hstop, hgone⟩
      · exact .inr ⟨_, _, by rw [hspan]; rfl, follows_span hs hformed hgrid hsecond hfirst hstop hab hcovers⟩

/-! ### Whole formulas -/

section

variable {isAlphanumeric : Char → Bool} {own : Bool} {sheet : String} {piece : Piece} {pieces : List Piece}

/-- A reference stands for cells of the sheet whose lines move. -/
def OnSheet (own : Bool) (sheet : String) : Option Place → Prop
  | none => own = true
  | some place => place.sheet?.map String.ofList = some sheet

/-- What a piece becomes where lines move: a reference to the sheet follows them, or is `#REF!` when all its lines are gone,
    and all else stays but for the case of letters in a reference. -/
inductive Becomes (own : Bool) (sheet : String) (s : Shift) (rows : Bool) : Piece → List Char → Prop
  | follows {place : Option Place} {ends ends' : Ends} (hhere : OnSheet own sheet place) (h : ends.Follows s rows ends') :
      Becomes own sheet s rows (.reference place ends) (placeText place ++ ends'.text)
  | gone {place : Option Place} {ends : Ends} {lines : Set UInt32} (hhere : OnSheet own sheet place)
      (hlines : ends.lines rows = some lines) (hgone : s.after lines = ∅) :
      Becomes own sheet s rows (.reference place ends) (placeText place ++ "#REF!".toList)
  | elsewhere {place : Option Place} {ends : Ends} {text : List Char} (hnot : ¬OnSheet own sheet place)
      (hcase : text.map Char.toUpper = ends.text.map Char.toUpper) :
      Becomes own sheet s rows (.reference place ends) (placeText place ++ text)
  | stays {piece : Piece} (hother : ∀ place ends, piece ≠ .reference place ends) : Becomes own sheet s rows piece piece.text

/-- The change that a move of lines makes of each reference. -/
def lineChange (own : Bool) (sheet : String) (s : Shift) (rows : Bool) : MapReference := fun named first second =>
  if named.elim own (String.ofList · == sheet) then moveAxis s (·.line rows) (·.withLine · rows) first second
  else some (first, second)

theorem shiftFormula_eq (letters : List Char) :
    shiftFormula isAlphanumeric (.ofList letters) own sheet (if rows then some s else none) (if rows then none else some s) =
      .ofList (rewritten isAlphanumeric (lineChange own sheet s rows) letters) := by
  rw [shiftFormula, mapReferences, String.toList_ofList, rewritten, String.length_ofList]
  congr 2
  funext named first second
  rw [lineChange]
  split_ifs with hhere hrows
  · rw [hrows]
    show (moveAxis s (·.line true) (·.withLine · true) first second).bind some = _
    exact Option.bind_fun_some _
  · rw [Bool.not_eq_true] at hrows
    rw [hrows]
    rfl
  · rfl

theorem upper_text (hformed : ends.Formed) :
    (written [] (some (ends.first, ends.second.map Prod.fst))).map Char.toUpper = ends.text.map Char.toUpper := by
  rw [written_of]
  cases hsecond : ends.second with
  | none => simp [Ends.of, Ends.text, hsecond, hformed.first.upper]
  | some second => simp [Ends.of, Ends.text, hsecond, hformed.first.upper, (hformed.second second hsecond).1.upper]

/-- The scan sees the moved sheet's name just where it stands for that sheet. -/
theorem onSheet_iff {place : Option Place} (hreads : ∀ before ∈ place, Place.Reads isAlphanumeric sheet before) :
    (place.map Place.seen).elim own (String.ofList · == sheet) = true ↔ OnSheet own sheet place := by
  cases place with
  | none => exact Iff.rfl
  | some place =>
    have hreads := hreads place rfl
    cases place with
    | sheet name => simp [OnSheet, Place.seen, Place.sheet?]
    | quotedSheet name => simp [OnSheet, Place.seen, Place.sheet?]
    | book file name =>
      refine iff_of_false ?_ nofun
      simpa [Place.seen] using hreads.2
    | quotedBook file name =>
      have hreads : String.ofList (file ++ name) ≠ sheet := hreads
      refine iff_of_false ?_ nofun
      simpa [Place.seen] using hreads

/-- One piece becomes what it should, and the scan goes on behind it. -/
theorem rewritten_piece (hascii : KnowsAscii isAlphanumeric) (hs : s.Accepted) {rest : List Char}
    (hformed : piece.Formed isAlphanumeric rest) (hreads : piece.Reads isAlphanumeric sheet rest) :
    ∃ out, Becomes own sheet s rows piece out ∧ rewritten isAlphanumeric (lineChange own sheet s rows) (piece.text ++ rest) =
      out ++ rewritten isAlphanumeric (lineChange own sheet s rows) rest := by
  by_cases hother : ∀ place ends, piece ≠ .reference place ends
  · exact ⟨piece.text, .stays hother, rewritten_other hascii hformed hreads hother⟩
  obtain ⟨place, ends, rfl⟩ : ∃ place ends, piece = .reference place ends := by simpa using hother
  have hscan := @rewritten_reference isAlphanumeric (lineChange own sheet s rows) rest hascii sheet place ends hformed hreads
  refine ⟨_, ?_, hscan⟩
  obtain ⟨-, hends, hgrid, hordered, -⟩ := hformed
  by_cases hhere : OnSheet own sheet place
  · rw [lineChange, if_pos ((onSheet_iff hreads.1).mpr hhere)]
    rcases @moveAxis_follows s ends rows hs hends hgrid hordered with ⟨hnone, lines, hlines, hgone⟩ | ⟨first, second, hmove, hfollows⟩
    · rw [hnone]
      exact .gone hhere hlines hgone
    · rw [hmove, written_of]
      exact .follows hhere hfollows
  · rw [lineChange, if_neg fun h => hhere ((onSheet_iff hreads.1).mp h)]
    exact .elsewhere hhere (upper_text hends)

/-- A formula whose pieces are read as they are meant is rewritten piece by piece: each reference to the sheet whose lines
    move follows its cells, and all else stays. -/
theorem shiftFormula_follows (hascii : KnowsAscii isAlphanumeric) (hs : s.Accepted)
    (hformed : FormedAll isAlphanumeric pieces) (hreads : ReadsAll isAlphanumeric sheet pieces) :
    ∃ outs, List.Forall₂ (Becomes own sheet s rows) pieces outs ∧
      shiftFormula isAlphanumeric (.ofList (formulaText pieces)) own sheet (if rows then some s else none)
        (if rows then none else some s) = .ofList outs.flatten := by
  rw [shiftFormula_eq]
  induction pieces with
  | nil => exact ⟨[], .nil, rfl⟩
  | cons piece pieces ih =>
    obtain ⟨outs, hbecome, houts⟩ := ih hformed.2 hreads.2
    obtain ⟨out, hout, hscan⟩ := @rewritten_piece s rows isAlphanumeric own sheet piece hascii hs (formulaText pieces) hformed.1 hreads.1
    refine ⟨out :: outs, .cons hout hbecome, ?_⟩
    show String.ofList (rewritten _ _ (piece.text ++ formulaText pieces)) = _
    rw [hscan, String.ofList_injective houts]
    rfl

end

/-- One row goes in before the sixth. -/
def oneRow : Shift := ⟨5, 1⟩

theorem oneRow_accepted : oneRow.Accepted := ⟨by decide, by decide⟩

theorem knowsAscii_isAlphanum : KnowsAscii Char.isAlphanum := fun c _ => by
  rw [Char.isAlphanum, Char.isAlpha, isAsciiAlphabetic, Bool.or_comm c.isUpper]

def cellB6 : Ends := ⟨⟨some 5, some 1, false, true⟩, "$B6".toList, none⟩

/-- `SUM($B6)`. -/
def sumOfCell : List Piece := [.name none "SUM".toList, .symbol '(', .reference none cellB6, .symbol ')']

theorem cellB6_formed : cellB6.Formed := by
  have hspells : Spells "B".toList 1 := ⟨by decide, List.all_eq_true.mp (by decide), by decide⟩
  refine ⟨⟨⟨_, _, .column true hspells, .row false (by decide), rfl⟩, .inl rfl⟩, nofun, fun _ => ⟨rfl, rfl⟩⟩

theorem sumOfCell_formed : FormedAll Char.isAlphanum sumOfCell := by
  refine ⟨⟨nofun, ⟨by decide, List.all_eq_true.mp (by decide), ?_⟩, ?_, .inl ⟨rfl, rfl⟩⟩, ⟨by decide, by decide⟩,
    ⟨nofun, cellB6_formed, ⟨⟨?_, ?_⟩, nofun⟩, ⟨nofun, nofun⟩, ?_, by decide⟩, ⟨by decide, by decide⟩, trivial⟩
  · rintro c ⟨⟩
    rfl
  · rintro c ⟨⟩
    decide
  · rintro row ⟨⟩
    decide
  · rintro column ⟨⟩
    decide
  · rintro c ⟨⟩
    decide

theorem sumOfCell_reads : ReadsAll Char.isAlphanum "Main" sumOfCell :=
  ⟨⟨nofun, .inl ⟨rfl, rfl⟩⟩, trivial, ⟨nofun, ⟨nofun, nofun⟩, fun _ => nofun⟩, trivial, trivial⟩

theorem sumOfCell_follows : ∃ outs, List.Forall₂ (Becomes true "Main" oneRow true) sumOfCell outs ∧
    shiftFormula Char.isAlphanum (.ofList (formulaText sumOfCell)) true "Main" (some oneRow) none = .ofList outs.flatten :=
  @shiftFormula_follows oneRow true Char.isAlphanum true "Main" sumOfCell knowsAscii_isAlphanum oneRow_accepted
    sumOfCell_formed sumOfCell_reads

/-- The rows of a range on another sheet, fixed. -/
def fixedRows : Ends := ⟨⟨some 0, none, true, false⟩, "$1".toList, some (⟨some 2, none, true, false⟩, "$3".toList)⟩

theorem fixedRows_formed : fixedRows.Formed := by
  have htext : ∀ row : UInt32, row.toNat + 1 < 2 ^ 32 →
      (⟨some row, none, true, false⟩ : Reference).Text ('$' :: (row + 1).toNat.repr.toList) := fun row hrow =>
    ⟨⟨[], _, .whole, .row true hrow, rfl⟩, .inr rfl⟩
  refine ⟨htext 0 (by decide), ?_, nofun⟩
  rintro second ⟨⟩
  exact ⟨htext 2 (by decide), rfl, rfl⟩

/-- `Other!$1:$3` loses its signs when a row goes in on another sheet. -/
theorem other_sheet_changes : ¬∀ (pieces : List Piece) (own : Bool) (sheet : String) (s : Shift) (rows : Bool), s.Accepted →
    FormedAll Char.isAlphanum pieces → ∃ outs, List.Forall₂ (Becomes own sheet s rows) pieces outs ∧
      shiftFormula Char.isAlphanum (.ofList (formulaText pieces)) own sheet (if rows then some s else none)
        (if rows then none else some s) = .ofList outs.flatten := by
  intro hall
  have hformed : FormedAll Char.isAlphanum [.reference (some (.sheet "Other".toList)) fixedRows] := by
    refine ⟨⟨?_, fixedRows_formed, ?_, ⟨?_, nofun⟩, nofun, nofun⟩, trivial⟩
    · rintro place ⟨⟩
      refine ⟨by decide, List.all_eq_true.mp (by decide), ?_⟩
      rintro c ⟨⟩
      rfl
    · refine ⟨⟨?_, nofun⟩, ?_⟩
      · rintro row ⟨⟩
        decide
      · rintro second ⟨⟩
        refine ⟨?_, nofun⟩
        rintro row ⟨⟩
        decide
    · rintro second ⟨⟩ first ⟨⟩ last ⟨⟩
      decide
  obtain ⟨outs, hbecome, houts⟩ := hall _ true "Main" oneRow true oneRow_accepted hformed
  have hshift : shiftFormula Char.isAlphanum (.ofList (formulaText [.reference (some (.sheet "Other".toList)) fixedRows])) true
      "Main" (some oneRow) none = "Other!1:3" := by decide
  rw [if_pos rfl, if_pos rfl, hshift] at houts
  cases hbecome with
  | cons hout hnil =>
    cases hnil
    cases hout with
    | follows hhere _ => exact absurd hhere (by simp [OnSheet, Place.sheet?])
    | gone hhere _ _ => exact absurd hhere (by simp [OnSheet, Place.sheet?])
    | elsewhere hnot hcase =>
      rename_i text
      have htext : "Other!1:3".toList = placeText (some (.sheet "Other".toList)) ++ text := by
        rw [houts, String.toList_ofList, List.flatten_cons, List.flatten_nil, List.append_nil]
      have hkept : text = "1:3".toList := by
        rw [show "Other!1:3".toList = placeText (some (.sheet "Other".toList)) ++ "1:3".toList from rfl] at htext
        exact (List.append_cancel_left htext).symm
      rw [hkept] at hcase
      exact absurd hcase (by decide)
    | stays hother => exact hother _ _ rfl

end Kodosi.Xlsx
