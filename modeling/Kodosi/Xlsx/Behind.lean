import Kodosi.Xlsx.Apply

/-! Which changes are refused because rows or columns moved since they were made. A change that names lines
    itself always is; a named op is only where one of its cells changed as well. -/

namespace Kodosi.Xlsx
open Kodosi.Lib
open Kodosi.Documents (Ordered Refused)

variable {R : Type} {α β : Type}

/-! ### What a change addresses -/

mutual

/-- The sheets on which a change itself names rows or columns. -/
def Change.positional : Change R → List String
  | .cells sheet _ | .rows sheet _ _ | .columns sheet _ _ | .merges sheet _ _ | .size sheet _ _ =>
    [sheet]
  | .group changes => positionals changes
  | _ => []

def positionals : List (Change R) → List String
  | [] => []
  | change :: changes => change.positional ++ positionals changes

end

mutual

/-- The named ops of a change, at any depth. -/
def Change.named : Change R → List (Op R)
  | .ops ops => ops
  | .group changes => allNamed changes
  | _ => []

def allNamed : List (Change R) → List (Op R)
  | [] => []
  | change :: changes => change.named ++ allNamed changes

end

/-- The name of the sheet whose rows or columns an op names. -/
def Op.lines : Op R → Option String
  | .setCell sheet _ _ _ | .setRange sheet _ _ | .clearRange sheet _ | .formatRange sheet _ _
  | .insertRows sheet _ _ | .deleteRows sheet _ _ | .insertColumns sheet _ _
  | .deleteColumns sheet _ _ => some sheet
  | _ => none

/-- The sheets that a change addresses by row or column. -/
def Change.addressed (m : Model R) (c : Change R) : List String :=
  c.positional ++ c.named.filterMap fun op =>
    op.lines.bind fun name => (sheetNamed m name).toOption.map (·.id)

mutual

theorem isBehind_iff {since : List (Ordered (Change R))} : ∀ {c : Change R},
    isBehind since c = true ↔ ∃ sheet ∈ c.positional, movedLines since sheet = true
  | .cells .. | .rows .. | .columns .. | .merges .. | .size .. => by
    simp [isBehind, Change.positional]
  | .addSheet .. | .renameSheet .. | .removeSheet .. | .ops .. => by
    simp [isBehind, Change.positional]
  | .group changes => by
    rw [isBehind, Change.positional]
    exact anyIsBehind_iff

theorem anyIsBehind_iff {since : List (Ordered (Change R))} : ∀ {cs : List (Change R)},
    anyIsBehind since cs = true ↔ ∃ sheet ∈ positionals cs, movedLines since sheet = true
  | [] => by simp [anyIsBehind, positionals]
  | c :: cs => by
    rw [anyIsBehind, positionals, Bool.or_eq_true, isBehind_iff, anyIsBehind_iff]
    simp only [List.mem_append, or_and_right, exists_or]

end

/-! ### Refusals for another reason -/

/-- Code that never says that a change is behind. -/
def Firm (x : Except Refused α) : Prop := ∀ detail, x ≠ .error (.behind detail)

theorem Firm.ok (a : α) : Firm (.ok a) := fun _ h => nomatch h

theorem Firm.invalid (detail : String) : Firm (.error (.invalid detail) : Except Refused α) :=
  fun _ h => nomatch h

theorem Firm.bind {x : Except Refused α} {f : α → Except Refused β} (hx : Firm x)
    (hf : ∀ a, Firm (f a)) : Firm (x >>= f) := by
  cases x with
  | ok a => exact hf a
  | error e => exact fun detail h => hx detail (congrArg _ (Except.error.inj h))

theorem Firm.reject {bad : Prop} [Decidable bad] (detail : String) :
    Firm (reject bad (.invalid detail) : Except Refused Unit) := by
  by_cases h : bad
  · rw [Lib.reject, if_pos h]
    exact .invalid _
  · rw [Lib.reject, if_neg h]
    exact .ok ()

theorem Firm.require (detail : String) (x : Option α) : Firm (require (.invalid detail) x : Except Refused α) := by
  cases x with
  | none => exact .invalid _
  | some a => exact .ok a

theorem firm_sheetNamed (m : Model R) (name : String) : Firm (sheetNamed m name) := .require _ _

theorem firm_signed (count : UInt32) : Firm (signed count) := (Firm.reject _).bind fun _ => .ok _

theorem firm_toChange (m : Model R) (added : UInt32) (op : Op R) : Firm (toChange m added op) := by
  have hsheet : ∀ {γ : Type} (name : String) {f : Sheet R → Except Refused γ}, (∀ s, Firm (f s)) →
      Firm (sheetNamed m name >>= f) := fun name _ hf => (firm_sheetNamed m name).bind hf
  have hlines : ∀ (sheet : String) (count : UInt32) (f : Sheet R → Int32 → Change R),
      Firm (do let known ← sheetNamed m sheet; return f known (← signed count)) :=
    fun sheet count f => hsheet sheet fun s => (firm_signed count).bind fun n => .ok (f s n)
  cases op with
  | setCell sheet cell => exact (Firm.require _ _).bind fun _ => hsheet sheet fun _ => .ok _
  | setRange sheet start => exact (Firm.require _ _).bind fun _ => hsheet sheet fun _ => .ok _
  | clearRange sheet range => exact (Firm.require _ _).bind fun _ => hsheet sheet fun _ => .ok _
  | formatRange sheet range => exact (Firm.require _ _).bind fun _ => hsheet sheet fun _ => .ok _
  | insertRows sheet at' count => exact hlines sheet count fun s n => .rows s.id at' n
  | deleteRows sheet at' count => exact hlines sheet count fun s n => .rows s.id at' (-n)
  | insertColumns sheet at' count => exact hlines sheet count fun s n => .columns s.id at' n
  | deleteColumns sheet at' count => exact hlines sheet count fun s n => .columns s.id at' (-n)
  | addSheet => exact .ok _
  | renameSheet sheet => exact hsheet sheet fun _ => .ok _
  | removeSheet sheet => exact hsheet sheet fun _ => .ok _

theorem firm_toChangesFrom (m : Model R) : ∀ (added : UInt32) (ops : List (Op R)), Firm (toChangesFrom m added ops)
  | _, [] => .ok _
  | added, op :: ops => by
    unfold toChangesFrom
    exact (firm_toChange m added op).bind fun _ => (firm_toChangesFrom m _ ops).bind fun _ => .ok _

variable {isAlphanumeric : Char → Bool}

theorem firm_moveLines (m : Model R) (id : String) (at' : UInt32) (count : Int32) (rows : Bool) :
    Firm (moveLines isAlphanumeric m id at' count rows) :=
  (Firm.reject _).bind fun _ => (Firm.require _ _).bind fun _ => .require _ _

mutual

theorem firm_applyOne [BEq R] (m : Model R) : ∀ c : Change R, Firm (applyOne isAlphanumeric m c)
  | .cells .. => by
    rw [applyOne]
    exact (Firm.require _ _).bind fun _ => .ok _
  | .rows sheet at' count => by
    rw [applyOne]
    exact (firm_moveLines m sheet at' count true).bind fun _ => .ok _
  | .columns sheet at' count => by
    rw [applyOne]
    exact (firm_moveLines m sheet at' count false).bind fun _ => .ok _
  | .addSheet .. => by
    rw [applyOne]
    exact (Firm.reject _).bind fun _ => .ok _
  | .renameSheet .. => by
    rw [applyOne]
    exact (Firm.require _ _).bind fun _ => .ok _
  | .removeSheet .. => by
    rw [applyOne]
    exact (Firm.reject _).bind fun _ => .ok _
  | .size .. => by
    rw [applyOne]
    exact (Firm.require _ _).bind fun _ => .ok _
  | .merges .. => by
    rw [applyOne]
    exact (Firm.require _ _).bind fun _ => .ok _
  | .group changes => by
    rw [applyOne]
    exact (firm_applyAll m changes).bind fun _ => .ok _
  | .ops _ => by
    rw [applyOne]
    exact .invalid _

theorem firm_applyAll [BEq R] (m : Model R) : ∀ cs : List (Change R), Firm (applyAll isAlphanumeric m cs)
  | [] => by
    rw [applyAll]
    exact .ok _
  | c :: cs => by
    rw [applyAll]
    exact (firm_applyOne m c).bind fun out => (firm_applyAll out.2 cs).bind fun _ => .ok _

end

/-! ### Changes that are refused as behind -/

variable {since : List (Ordered (Change R))}

variable {m : Model R} {c : Change R}

theorem apply_error_iff [BEq R] {refused : Refused} :
    apply isAlphanumeric m c since = (.error refused, m) ↔ tryApply isAlphanumeric m c since = .error refused := by
  unfold apply
  cases tryApply isAlphanumeric m c since with
  | ok out => simp
  | error e => simp

theorem meant_behind_iff {detail : String} : meant m since c = .error (.behind detail) ↔
      ∃ ops, c = .ops ops ∧ checkConflicts ops m since = .error (.behind detail) := by
  cases c with
  | ops ops =>
    have hops : meant m since (.ops ops) = .error (.behind detail) ↔
        checkConflicts ops m since = .error (.behind detail) := by
      rw [meant]
      cases checkConflicts ops m since with
      | error e => simp [bind, Except.bind]
      | ok =>
        exact iff_of_false ((firm_toChangesFrom m 0 ops).bind (fun _ => .ok _) detail) (by simp)
    simp [hops]
  | _ => simp [meant, pure, Except.pure]

theorem apply_behind_iff [BEq R] :
    (∃ detail, apply isAlphanumeric m c since = (.error (.behind detail), m)) ↔
      isBehind since c = true ∨
        ∃ ops detail, c = .ops ops ∧ checkConflicts ops m since = .error (.behind detail) := by
  simp only [apply_error_iff]
  by_cases hbehind : isBehind since c = true
  · refine iff_of_true ⟨"Rows or columns moved. Move the change and send it again.", ?_⟩ (.inl hbehind)
    rw [tryApply, reject, if_pos hbehind]
    rfl
  · have htry : ∀ detail, tryApply isAlphanumeric m c since = .error (.behind detail) ↔
        meant m since c = .error (.behind detail) := by
      intro detail
      rw [tryApply, ok_bind (reject_ok.mpr hbehind)]
      cases meant m since c with
      | error e => simp [bind, Except.bind]
      | ok change => exact iff_of_false (firm_applyOne m change detail) (by simp)
    simp only [htry, meant_behind_iff, hbehind, false_or, Bool.false_eq_true]
    exact exists_comm

/-- A change that addresses lines of a sheet that moved is refused as behind, and changes nothing, exactly
    when it names lines of such a sheet itself, or it is ops of which one is on a cell that changed. -/
theorem stale_refused_iff [BEq R] (m : Model R) (c : Change R) (since : List (Ordered (Change R))) :
    ((∃ sheet ∈ c.addressed m, movedLines since sheet = true) →
        ∃ detail, apply isAlphanumeric m c since = (.error (.behind detail), m)) ↔
      ((∃ sheet ∈ c.addressed m, movedLines since sheet = true) →
        (∃ sheet ∈ c.positional, movedLines since sheet = true) ∨
          ∃ ops detail, c = .ops ops ∧ checkConflicts ops m since = .error (.behind detail)) := by
  rw [apply_behind_iff, isBehind_iff]

/-! ### An op on rows that moved -/

/-- A workbook with one sheet. -/
def oneSheet : Model Unit :=
  ⟨[{ Sheet.blank with id := "1", number := 1, name := "Sheet1" }], [], [], 1⟩

/-- Someone put a row above all others. -/
def rowAbove : Ordered (Change Unit) := ⟨1, "Ana", "ana", 1, .rows "1" 0 1⟩

/-- An op for cell B2 goes in where B2 is another cell since. -/
theorem stale_taken :
    let c : Change Unit := .ops [.setCell "Sheet1" "B2" (some (.text "paid")) none]
    "1" ∈ c.addressed oneSheet ∧ movedLines [rowAbove] "1" = true ∧
      ¬(∃ detail, apply Char.isAlphanum oneSheet c [rowAbove] = (.error (.behind detail), oneSheet)) ∧
      ((apply Char.isAlphanum oneSheet c [rowAbove]).2.sheets.map fun sheet =>
        sheet.cells[((1 : UInt32), (1 : UInt32))]?.isSome) = [true] := by
  intro c
  refine ⟨by decide, by decide, ?_, by decide⟩
  rintro ⟨detail, h⟩
  have hok : (apply Char.isAlphanum oneSheet c [rowAbove]).1.toOption.isSome = true := by decide
  rw [h] at hok
  simp [Except.toOption] at hok

end Kodosi.Xlsx
